import SlangNetlist.Query.CombLoops

/-!
# Constant drivers

The combinational fan-in is a backward search that does not follow the edges
out of registers, so a register is in the fan-in of no other node.
-/

namespace SlangNetlist

/-- `CollectVisitor`: the visited nodes in order. -/
def CollectVisitor {Node Edge : Type} : Visitor Node Edge (List Node) where
  visitedNode _ result := result
  visitNode node result := result ++ [node]
  visitEdge _ result := result
  popNode result := result

namespace NetlistGraph

/-- `CombFanBackwardPredicate`: an enabled edge, not out of a register. -/
def combFanBackward (graph : NetlistGraph) (edge : NetlistEdge) : Bool :=
  !edge.disabled && graph.kindOf edge.source != .state

def getCombFanIn (graph : NetlistGraph) (linked : graph.Linked) (node : NodeRef) :
    Option (List NodeRef) :=
  (DepthFirstSearch.traverse (graph.directed linked) .backward CollectVisitor graph.combFanBackward
    [] node).map DepthFirstSearch.visitor

/-- `Port::isDriven`: the port has an incoming edge, enabled or not. -/
def isDriven (graph : NetlistGraph) (ref : NodeRef) : Bool :=
  graph.edges.any fun edge => edge.target = ref

/-- The loop of `getConstantDrivers` over the fan-in, with the constants collected so far. -/
def collectConstants (graph : NetlistGraph) (node : NodeRef) :
    List NodeRef → List NodeRef → List NodeRef
  | constants, [] => constants
  | constants, n :: rest =>
      if n = node then graph.collectConstants node constants rest
      else match graph.kindOf n with
        | .constant => graph.collectConstants node (constants ++ [n]) rest
        -- Depends on a register.
        | .state => []
        -- A port that nothing drives is a top-level input.
        | .port => if graph.isDriven n then graph.collectConstants node constants rest else []
        | _ => graph.collectConstants node constants rest

def getConstantDrivers (graph : NetlistGraph) (linked : graph.Linked) (node : NodeRef) :
    Option (List NodeRef) :=
  (graph.getCombFanIn linked node).map (graph.collectConstants node [])

/-- A node that is not constant: a register or a port that nothing drives. -/
def IsSource (graph : NetlistGraph) (ref : NodeRef) : Prop :=
  graph.kindOf ref = .state ∨ (graph.kindOf ref = .port ∧ graph.isDriven ref = false)

instance (graph : NetlistGraph) (ref : NodeRef) : Decidable (graph.IsSource ref) :=
  inferInstanceAs (Decidable (_ ∨ _))

/-- The combinational fan-in of a node: backward through enabled edges out of other nodes than
registers. -/
abbrev CombFanIn (graph : NetlistGraph) (linked : graph.Linked) (node : NodeRef) :
    NodeRef → Prop :=
  (graph.directed linked).Reachable .backward graph.combFanBackward node

/-- The other node reaches the node through enabled edges whose interior nodes are not registers. -/
def FeedsThrough (graph : NetlistGraph) (linked : graph.Linked) (node other : NodeRef) : Prop :=
  ∃ edge ∈ graph.edges, edge.source = other ∧ edge.disabled = false ∧
    graph.CombFanIn linked node edge.target

/-- What the constant drivers of a node are. -/
structure ConstantDrivers (graph : NetlistGraph) (linked : graph.Linked) (node : NodeRef)
    (constants : List NodeRef) : Prop where
  sound : constants ≠ [] → ∀ other, other ≠ node → graph.FeedsThrough linked node other →
    ¬ graph.IsSource other
  complete : (∀ other, other ≠ node → graph.FeedsThrough linked node other →
      ¬ graph.IsSource other) →
    constants.Nodup ∧ ∀ other, other ∈ constants ↔
      other ≠ node ∧ graph.kindOf other = .constant ∧ graph.CombFanIn linked node other

section Collect

variable {graph : NetlistGraph} {linked : graph.Linked} {node : NodeRef}

/-- A search that collects the visited nodes finds what can be reached, each node once. -/
theorem exists_collected {Node Edge : Type} [DecidableEq Node] (graph : DirectedGraph Node Edge)
    (direction : Direction) (selected : Edge → Bool) (start : Node) :
    ∃ nodes, (DepthFirstSearch.traverse graph direction CollectVisitor selected [] start).map
        DepthFirstSearch.visitor = some nodes ∧ nodes.Nodup ∧
      ∀ node, node ∈ nodes ↔ graph.Reachable direction selected start node := by
  obtain ⟨search, ran, ended, searching, collected⟩ :=
    @DepthFirstSearch.traverse_spec _ _ _ _ graph direction CollectVisitor selected
      (fun search => search.visitor = search.visitedNodes.reverse) start [] rfl (by
        intro search next _ collected stepped
        rcases DepthFirstSearch.step_cases stepped with ⟨_, _, _, rfl⟩ | ⟨_, edge, _, _, _,
          ⟨_, rfl⟩ | ⟨_, _, rfl⟩ | ⟨_, _, rfl⟩⟩
        · exact collected
        · exact collected
        · exact collected
        · simp [CollectVisitor, collected])
  refine ⟨search.visitor, by rw [ran]; rfl, ?_, fun node => ?_⟩
  · rw [collected]
    exact List.nodup_reverse.mpr searching.fresh
  · rw [collected, List.mem_reverse]
    exact searching.visited_iff ended

/-- The fan-in is found, each node once. -/
theorem exists_getCombFanIn (graph : NetlistGraph) (linked : graph.Linked) (node : NodeRef) :
    ∃ fanIn, graph.getCombFanIn linked node = some fanIn ∧ fanIn.Nodup ∧
      ∀ other, other ∈ fanIn ↔ graph.CombFanIn linked node other :=
  exists_collected (graph.directed linked) .backward graph.combFanBackward node

/-- The loop gives up at a register or at a port that nothing drives. -/
theorem collectConstants_eq (constants fanIn : List NodeRef) :
    graph.collectConstants node constants fanIn =
      if ∃ other ∈ fanIn, other ≠ node ∧ graph.IsSource other then []
      else constants ++ fanIn.filter fun other => other ≠ node ∧ graph.kindOf other = .constant := by
  induction fanIn generalizing constants with
  | nil => simp [collectConstants]
  | cons head rest ih =>
      rw [collectConstants]
      by_cases same : head = node
      · simp [same, ih]
      · rw [if_neg same]
        cases kind : graph.kindOf head with
        | state => simp [IsSource, same, kind]
        | port =>
            cases driven : graph.isDriven head with
            | true => simp [ih, IsSource, same, kind, driven]
            | false => simp [IsSource, same, kind, driven]
        | constant => simp [ih, IsSource, same, kind]
        | _ => simp [ih, IsSource, same, kind]

/-- The last edge of a path to another node of the fan-in. -/
theorem CombFanIn.last {other : NodeRef} (found : graph.CombFanIn linked node other)
    (differ : other ≠ node) :
    graph.FeedsThrough linked node other ∧ graph.kindOf other ≠ .state := by
  rcases Relation.ReflTransGen.cases_tail found with
    same | ⟨middle, reached, edge, edgeMem, selects, rfl⟩
  · exact absurd same.symm (Ne.symm differ)
  · simp only [DirectedGraph.edgesOf, directed, List.mem_filter] at edgeMem
    obtain ⟨edgeMem, target⟩ := edgeMem
    simp only [combFanBackward, Bool.and_eq_true, Bool.not_eq_true', bne_iff_ne] at selects
    exact ⟨⟨edge, edgeMem, rfl, selects.1, of_decide_eq_true target ▸ reached⟩, selects.2⟩

/-- A node that is not a register is in the fan-in of the nodes that it feeds. -/
theorem FeedsThrough.combFanIn {other : NodeRef} (feeds : graph.FeedsThrough linked node other)
    (combinational : graph.kindOf other ≠ .state) : graph.CombFanIn linked node other := by
  obtain ⟨edge, edgeMem, rfl, enabled, reached⟩ := feeds
  refine Relation.ReflTransGen.tail reached ⟨edge, ?_, ?_, rfl⟩
  · simpa [DirectedGraph.edgesOf, directed] using edgeMem
  · simpa [combFanBackward, enabled] using combinational

/-- The constants found, in terms of the fan-in. -/
theorem exists_getConstantDrivers (graph : NetlistGraph) (linked : graph.Linked)
    (node : NodeRef) :
    ∃ constants, graph.getConstantDrivers linked node = some constants ∧ constants.Nodup ∧
      (∀ other, other ∈ constants ↔ other ≠ node ∧ graph.kindOf other = .constant ∧
        graph.CombFanIn linked node other ∧ ¬ ∃ port, port ≠ node ∧
          graph.CombFanIn linked node port ∧ graph.IsSource port) := by
  obtain ⟨fanIn, found, nodup, members⟩ := exists_getCombFanIn graph linked node
  refine ⟨_, by rw [getConstantDrivers, found]; rfl, ?_, fun other => ?_⟩
  · rw [collectConstants_eq]
    split
    · exact List.nodup_nil
    · exact nodup.filter _
  · rw [collectConstants_eq]
    split
    · next given =>
        obtain ⟨port, portMem, differ, source⟩ := given
        refine ⟨fun none => absurd none List.not_mem_nil, fun ⟨_, _, _, absent⟩ => ?_⟩
        exact absurd ⟨port, differ, (members port).mp portMem, source⟩ absent
    · next absent =>
        simp only [List.nil_append, List.mem_filter, decide_eq_true_eq, members]
        refine ⟨fun ⟨inside, differ, kind⟩ => ⟨differ, kind, inside, ?_⟩,
          fun ⟨differ, kind, inside, _⟩ => ⟨inside, differ, kind⟩⟩
        rintro ⟨port, portDiffer, portInside, source⟩
        exact absent ⟨port, (members port).mpr portInside, portDiffer, source⟩

end Collect

/--
The constant drivers are sound and complete if and only if no other register
feeds the node, the fan-in has no other constant, or it has another port that
nothing drives.
-/
theorem getConstantDrivers_iff (graph : NetlistGraph) (linked : graph.Linked) (node : NodeRef) :
    ∃ constants, graph.getConstantDrivers linked node = some constants ∧
      (graph.ConstantDrivers linked node constants ↔
        (∀ other, other ≠ node → graph.FeedsThrough linked node other →
          graph.kindOf other ≠ .state) ∨
        (∀ other, other ≠ node → graph.CombFanIn linked node other →
          graph.kindOf other ≠ .constant) ∨
        ∃ other, other ≠ node ∧ graph.CombFanIn linked node other ∧
          graph.kindOf other = .port ∧ graph.isDriven other = false) := by
  obtain ⟨constants, found, nodup, members⟩ := exists_getConstantDrivers graph linked node
  refine ⟨constants, found, fun exact => ?_, fun condition => ⟨fun nonempty => ?_, fun none => ?_⟩⟩
  · by_cases given : ∃ port, port ≠ node ∧ graph.CombFanIn linked node port ∧ graph.IsSource port
    · obtain ⟨port, differ, inside, state | source⟩ := given
      · exact absurd state (inside.last differ).2
      · exact Or.inr (Or.inr ⟨port, differ, inside, source⟩)
    · by_cases nonempty : constants = []
      · refine Or.inr (Or.inl fun other differ inside kind => ?_)
        have member := (members other).mpr ⟨differ, kind, inside, given⟩
        rw [nonempty] at member
        cases member
      · exact Or.inl fun other differ feeds state =>
          exact.sound nonempty other differ feeds (Or.inl state)
  · obtain ⟨constant, member⟩ := List.exists_mem_of_ne_nil constants nonempty
    obtain ⟨differ, kind, inside, absent⟩ := (members constant).mp member
    have portAbsent : ∀ other, other ≠ node → graph.CombFanIn linked node other →
        ¬ graph.IsSource other := fun other differ inside source =>
      absent ⟨other, differ, inside, source⟩
    rcases condition with stateless | constantless | ⟨port, portDiffer, portInside, source⟩
    · intro other otherDiffer feeds source
      exact portAbsent other otherDiffer
        (feeds.combFanIn (stateless other otherDiffer feeds)) source
    · exact absurd kind (constantless constant differ inside)
    · exact absurd (Or.inr source) (portAbsent port portDiffer portInside)
  · have absent : ¬ ∃ port, port ≠ node ∧ graph.CombFanIn linked node port ∧
        graph.IsSource port := fun ⟨port, differ, inside, source⟩ =>
      none port differ (inside.last differ).1 source
    refine ⟨nodup, fun other => ?_⟩
    rw [members]
    exact ⟨fun ⟨differ, kind, inside, _⟩ => ⟨differ, kind, inside⟩,
      fun ⟨differ, kind, inside⟩ => ⟨differ, kind, inside, absent⟩⟩

/-- An assignment that reads a register and a constant. -/
def registeredNetlist : NetlistGraph where
  nodes := [
    { ref := ⟨0, .state, 0⟩, ID := 1, data := .state "q" "m.q" {} {} },
    { ref := ⟨0, .constant, 0⟩, ID := 2, data := .constant (.integer ⟨[.one]⟩) 1 {} },
    { ref := ⟨0, .assignment, 0⟩, ID := 3, data := .assignment {} }]
  edges := [
    { source := ⟨0, .state, 0⟩, target := ⟨0, .assignment, 0⟩ },
    { source := ⟨0, .constant, 0⟩, target := ⟨0, .assignment, 0⟩ }]

theorem registeredNetlist_linked : registeredNetlist.Linked := by
  decide

theorem getConstantDrivers_iff_registered :
    ∃ constants,
      registeredNetlist.getConstantDrivers registeredNetlist_linked ⟨0, .assignment, 0⟩ =
        some constants ∧
      (registeredNetlist.ConstantDrivers registeredNetlist_linked ⟨0, .assignment, 0⟩ constants ↔
        (∀ other, other ≠ ⟨0, .assignment, 0⟩ →
          registeredNetlist.FeedsThrough registeredNetlist_linked ⟨0, .assignment, 0⟩ other →
          registeredNetlist.kindOf other ≠ .state) ∨
        (∀ other, other ≠ ⟨0, .assignment, 0⟩ →
          registeredNetlist.CombFanIn registeredNetlist_linked ⟨0, .assignment, 0⟩ other →
          registeredNetlist.kindOf other ≠ .constant) ∨
        ∃ other, other ≠ ⟨0, .assignment, 0⟩ ∧
          registeredNetlist.CombFanIn registeredNetlist_linked ⟨0, .assignment, 0⟩ other ∧
          registeredNetlist.kindOf other = .port ∧ registeredNetlist.isDriven other = false) :=
  getConstantDrivers_iff registeredNetlist registeredNetlist_linked ⟨0, .assignment, 0⟩

/-- The register is passed over, and the constant is reported alone. -/
theorem getConstantDrivers_passes_register :
    registeredNetlist.getConstantDrivers registeredNetlist_linked ⟨0, .assignment, 0⟩ =
        some [⟨0, .constant, 0⟩] ∧
      ¬ registeredNetlist.ConstantDrivers registeredNetlist_linked ⟨0, .assignment, 0⟩
        [⟨0, .constant, 0⟩] := by
  refine ⟨by decide +kernel, fun exact => ?_⟩
  refine exact.sound (by decide) ⟨0, .state, 0⟩ (by decide)
    ⟨{ source := ⟨0, .state, 0⟩, target := ⟨0, .assignment, 0⟩ }, by decide, rfl, rfl, .refl⟩
    (by decide +kernel)

end NetlistGraph

end SlangNetlist
