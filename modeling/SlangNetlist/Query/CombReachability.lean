import SlangNetlist.Query.FanQueries

/-!
# Combinational reachability

The fan-out of a node, the fan-in of another one and the combinational path
between the two are computed by three searches with predicates of their own.
Between nodes that are not registers they tell the same.
-/

namespace SlangNetlist

namespace NetlistGraph

variable {graph : NetlistGraph} {linked : graph.Linked} {node other : NodeRef}

/-- The searches for a fan-out and for a path follow the same edges. -/
theorem combFanForward_eq (graph : NetlistGraph) : graph.combFanForward = graph.combEdge :=
  rfl

/-- Nodes of a combinational path are not registers, if the first one is none. -/
theorem combinational_of_reaches (start : graph.kindOf node ≠ .state)
    (reaches : graph.Reaches graph.combEdge node other) : graph.kindOf other ≠ .state := by
  cases reaches with
  | refl => exact start
  | tail _ last =>
      obtain ⟨edge, _, selects, _, rfl⟩ := last
      simp only [combEdge, Bool.and_eq_true, bne_iff_ne] at selects
      exact selects.2

/-- An edge of a fan-in leads back from a node to one that is not a register. -/
theorem joined_backward_iff : (graph.directed linked).Joined .backward graph.combFanBackward other
      node ↔ ∃ edge ∈ graph.edges, edge.disabled = false ∧ graph.kindOf node ≠ .state ∧
        edge.source = node ∧ edge.target = other := by
  simp only [DirectedGraph.Joined, DirectedGraph.edgesOf, DirectedGraph.nextNode, directed,
    List.mem_filter, combFanBackward, Bool.and_eq_true, Bool.not_eq_true', bne_iff_ne]
  constructor
  · rintro ⟨edge, ⟨member, target⟩, ⟨enabled, combinational⟩, rfl⟩
    exact ⟨edge, member, enabled, combinational, rfl, of_decide_eq_true target⟩
  · rintro ⟨edge, member, enabled, combinational, rfl, target⟩
    exact ⟨edge, ⟨member, decide_eq_true target⟩, ⟨enabled, combinational⟩, rfl⟩

/-- A path that the fan-out follows is one that the fan-in follows back. -/
theorem combFanIn_of_reaches (start : graph.kindOf node ≠ .state)
    (reaches : graph.Reaches graph.combEdge node other) : graph.CombFanIn linked other node := by
  induction reaches with
  | refl => exact .refl
  | tail path last ih =>
      -- The source of the last edge is no register, as the path before it leads there.
      have combinational := combinational_of_reaches start path
      obtain ⟨edge, member, selects, rfl, rfl⟩ := last
      simp only [combEdge, Bool.and_eq_true, Bool.not_eq_true'] at selects
      exact Relation.ReflTransGen.head
        (joined_backward_iff.mpr ⟨edge, member, selects.1, combinational, rfl, rfl⟩) ih

/-- A path that the fan-in follows back is one that the fan-out follows. -/
theorem reaches_of_combFanIn (finish : graph.kindOf other ≠ .state)
    (inside : graph.CombFanIn linked other node) : graph.Reaches graph.combEdge node other := by
  have reaches : graph.Reaches graph.combEdge node other ∧ graph.kindOf node ≠ .state := by
    induction inside with
    | refl => exact ⟨.refl, finish⟩
    | tail _ first ih =>
        obtain ⟨later, combinational⟩ := ih
        obtain ⟨edge, member, enabled, sourceKind, rfl, rfl⟩ := joined_backward_iff.mp first
        have selects : graph.combEdge edge = true := by simp [combEdge, enabled, combinational]
        exact ⟨.head ⟨edge, member, selects, rfl, rfl⟩ later, sourceKind⟩
  exact reaches.1

theorem combFanIn_iff_reaches (start : graph.kindOf node ≠ .state)
    (finish : graph.kindOf other ≠ .state) :
    graph.CombFanIn linked other node ↔ graph.Reaches graph.combEdge node other :=
  ⟨reaches_of_combFanIn finish, combFanIn_of_reaches start⟩

/-- The fan-out of a node, the fan-in of another one and the path from the one to the other agree. -/
structure ReachabilityAgrees (node other : NodeRef) (fanOut fanIn path : List NodeRef) : Prop where
  fans : other ∈ fanOut ↔ node ∈ fanIn
  path : node ∈ fanIn ↔ path ≠ []

/-- A fan holds its start node, and no node twice. -/
def FanOf (node : NodeRef) (fan : List NodeRef) : Prop := node ∈ fan ∧ fan.Nodup

end NetlistGraph

open NetlistGraph

/--
On every graph the fans of each node are found, and they agree with each other
and with the combinational path between distinct nodes that are not registers.
-/
theorem combReachability_agrees (graph : NetlistGraph) (linked : graph.Linked) :
    (∀ node, (∃ fanOut, graph.getCombFanOut linked node = some fanOut ∧ FanOf node fanOut) ∧
      ∃ fanIn, graph.getCombFanIn linked node = some fanIn ∧ FanOf node fanIn) ∧
    ∀ node other, node ≠ other → graph.kindOf node ≠ .state → graph.kindOf other ≠ .state →
      ∃ fanOut fanIn path, graph.getCombFanOut linked node = some fanOut ∧
        graph.getCombFanIn linked other = some fanIn ∧
        graph.findComb linked node other = some path ∧
        ReachabilityAgrees node other fanOut fanIn path := by
  constructor
  · intro node
    obtain ⟨fanOut, foundOut, nodupOut, membersOut⟩ := exists_getCombFanOut graph linked node
    obtain ⟨fanIn, foundIn, nodupIn, membersIn⟩ := exists_getCombFanIn graph linked node
    exact ⟨⟨fanOut, foundOut, (membersOut node).mpr .refl, nodupOut⟩,
      fanIn, foundIn, (membersIn node).mpr .refl, nodupIn⟩
  · intro node other differ start finish
    obtain ⟨fanOut, foundOut, _, membersOut⟩ := exists_getCombFanOut graph linked node
    obtain ⟨fanIn, foundIn, _, membersIn⟩ := exists_getCombFanIn graph linked other
    obtain ⟨path, foundPath, found⟩ := @findPath_found _ linked graph.combEdge node other
    have same : node ∈ fanIn ↔ graph.Reaches graph.combEdge node other :=
      (membersIn node).trans (combFanIn_iff_reaches start finish)
    refine ⟨fanOut, fanIn, path, foundOut, foundIn, foundPath, ?_, ?_⟩
    · rw [membersOut, combFanForward_eq, same]
    · rw [same, (found differ).nonempty]

theorem combReachability_agrees_ring :
    (∀ node, (∃ fanOut, ringNetlist.getCombFanOut ringNetlist_linked node = some fanOut ∧
        FanOf node fanOut) ∧
      ∃ fanIn, ringNetlist.getCombFanIn ringNetlist_linked node = some fanIn ∧
        FanOf node fanIn) ∧
    ∃ fanOut fanIn path,
      ringNetlist.getCombFanOut ringNetlist_linked ⟨0, .merge, 0⟩ = some fanOut ∧
      ringNetlist.getCombFanIn ringNetlist_linked ⟨0, .assignment, 0⟩ = some fanIn ∧
      ringNetlist.findComb ringNetlist_linked ⟨0, .merge, 0⟩ ⟨0, .assignment, 0⟩ = some path ∧
      ReachabilityAgrees ⟨0, .merge, 0⟩ ⟨0, .assignment, 0⟩ fanOut fanIn path := by
  obtain ⟨fans, agree⟩ := combReachability_agrees ringNetlist ringNetlist_linked
  exact ⟨fans, agree ⟨0, .merge, 0⟩ ⟨0, .assignment, 0⟩ (by decide) (by decide +kernel)
    (by decide +kernel)⟩

end SlangNetlist
