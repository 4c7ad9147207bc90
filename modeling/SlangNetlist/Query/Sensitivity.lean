import SlangNetlist.Query.FanQueries

/-!
# Sensitivity

The clocks and resets of a node are those of the registers next to the nodes
that it reaches.  The walk keeps what it has visited and what it has looked at.
-/

namespace SlangNetlist

namespace NetlistGraph

variable {graph : NetlistGraph} {node state : NodeRef} {walk : SensitivityWalk}
  {edge : NetlistEdge} {todo : List NetlistEdge} {source : SensitivitySource}

/-- The source and the kind of an enabled edge of a clock or reset into a register. -/
def Clocks (graph : NetlistGraph) (register : NodeRef) (source : SensitivitySource) : Prop :=
  ∃ edge ∈ graph.inEdges register, edge.disabled = false ∧ edge.semantics.edgeKind ≠ .none ∧
    source = ⟨edge.source, edge.semantics.edgeKind⟩

/-- The register is the target of an enabled edge out of a node that is reached without registers. -/
def OnFrontier (graph : NetlistGraph) (node register : NodeRef) : Prop :=
  graph.kindOf register = .state ∧ ∃ before, graph.Reaches graph.combEdge node before ∧
    ∃ edge ∈ graph.outEdges before, edge.disabled = false ∧ edge.target = register

/-- What the sensitivity of a node is. -/
structure SensitivityExact (graph : NetlistGraph) (node : NodeRef)
    (result : List SensitivitySource) : Prop where
  nodup : result.Nodup
  register : graph.kindOf node = .state → ∀ source, source ∈ result ↔ graph.Clocks node source
  combinational : graph.kindOf node ≠ .state → ∀ source, source ∈ result ↔
    ∃ register, graph.OnFrontier node register ∧ graph.Clocks register source

/-! ## The clocks of a register -/

/-- The loop over the edges into a register. -/
theorem collectEdges_spec (edges : List NetlistEdge) {result : List SensitivitySource}
    (nodup : result.Nodup) :
    let collected := edges.foldl (fun result edge =>
      let source : SensitivitySource := ⟨edge.source, edge.semantics.edgeKind⟩
      if edge.disabled = true ∨ edge.semantics.edgeKind = .none then result
      else if source ∈ result then result
      else result ++ [source]) result
    collected.Nodup ∧ ∀ source, source ∈ collected ↔ source ∈ result ∨
      ∃ edge ∈ edges, edge.disabled = false ∧ edge.semantics.edgeKind ≠ .none ∧
        source = ⟨edge.source, edge.semantics.edgeKind⟩ := by
  induction edges generalizing result with
  | nil => simpa using nodup
  | cons head rest ih =>
      simp only [List.foldl_cons, List.mem_cons, exists_eq_or_imp]
      split
      · next passed =>
          obtain ⟨distinct, members⟩ := ih nodup
          refine ⟨distinct, fun source => (members source).trans (or_congr_right ?_)⟩
          refine (or_iff_right fun ⟨enabled, clocked, _⟩ => ?_).symm
          rcases passed with disabled | none
          · exact absurd (enabled.symm.trans disabled) (by decide)
          · exact clocked none
      · next taken =>
          rw [not_or, Bool.not_eq_true] at taken
          split
          · next old =>
              obtain ⟨distinct, members⟩ := ih nodup
              refine ⟨distinct, fun source => (members source).trans ⟨Or.imp_right Or.inr, ?_⟩⟩
              rintro (before | ⟨_, _, rfl⟩ | later)
              · exact Or.inl before
              · exact Or.inl old
              · exact Or.inr later
          · next fresh =>
              obtain ⟨distinct, members⟩ := ih (List.nodup_append.mpr
                ⟨nodup, List.nodup_singleton _, by
                  rintro first firstMem _ secondMem rfl
                  obtain rfl := List.mem_singleton.mp secondMem
                  exact fresh firstMem⟩)
              refine ⟨distinct, fun source => (members source).trans ?_⟩
              rw [List.mem_append, List.mem_singleton, or_assoc]
              refine or_congr_right (or_congr_left ?_)
              exact ⟨fun same => ⟨taken.1, taken.2, same⟩, fun found => found.2.2⟩

theorem mem_collectFromState {result : List SensitivitySource} (nodup : result.Nodup) :
    source ∈ graph.collectFromState state result ↔ source ∈ result ∨ graph.Clocks state source :=
  (collectEdges_spec (graph.inEdges state) nodup).2 source

theorem nodup_collectFromState {result : List SensitivitySource} (nodup : result.Nodup) :
    (graph.collectFromState state result).Nodup :=
  (collectEdges_spec (graph.inEdges state) nodup).1

/-! ## The walk -/

/-- What the walk has taken from an edge, unless the edge is disabled. -/
def LookedAt (graph : NetlistGraph) (walk : SensitivityWalk) (edge : NetlistEdge) : Prop :=
  edge.disabled = false →
    if graph.kindOf edge.target = .state then
      ∀ source, graph.Clocks edge.target source → source ∈ walk.result
    else edge.target ∈ walk.visited

/--
The walk has visited nodes that the start reaches and collected clocks on its
frontier.  Edges that are not yet looked at leave a node of the stack, or they
are among those of the current node.
-/
structure Sensing (graph : NetlistGraph) (node : NodeRef) (todo : List NetlistEdge)
    (walk : SensitivityWalk) : Prop where
  start : node ∈ walk.visited
  reached : ∀ visited ∈ walk.visited, graph.Reaches graph.combEdge node visited
  stacked : ∀ waiting ∈ walk.stack, waiting ∈ walk.visited
  pending : ∀ edge ∈ todo, edge ∈ graph.edges ∧ edge.source ∈ walk.visited
  looked : ∀ visited ∈ walk.visited, visited ∈ walk.stack ∨
    ∀ edge ∈ graph.outEdges visited, edge ∈ todo ∨ graph.LookedAt walk edge
  nodup : walk.result.Nodup
  sound : ∀ source ∈ walk.result, ∃ register, graph.OnFrontier node register ∧
    graph.Clocks register source

theorem sensing_start (graph : NetlistGraph) (node : NodeRef) :
    graph.Sensing node [] ⟨[node], [node], []⟩ where
  start := List.mem_singleton_self node
  reached _ member := List.mem_singleton.mp member ▸ .refl
  stacked _ member := member
  pending _ member := absurd member List.not_mem_nil
  looked _ member := Or.inl member
  nodup := List.nodup_nil
  sound _ member := absurd member List.not_mem_nil

/-- What was taken from an edge is kept as the walk goes on. -/
theorem LookedAt.mono {later : SensitivityWalk} (looked : graph.LookedAt walk edge)
    (visited : walk.visited ⊆ later.visited) (result : walk.result ⊆ later.result) :
    graph.LookedAt later edge := by
  intro enabled
  have taken := looked enabled
  split
  · next register =>
      rw [if_pos register] at taken
      exact fun source clocks => result (taken source clocks)
  · next combinational =>
      rw [if_neg combinational] at taken
      exact visited taken

theorem lookAt_cases (graph : NetlistGraph) (walk : SensitivityWalk) (edge : NetlistEdge) :
    (edge.disabled = true ∧ graph.lookAt walk edge = walk) ∨
    edge.disabled = false ∧
      ((graph.kindOf edge.target = .state ∧ graph.lookAt walk edge =
          { walk with result := graph.collectFromState edge.target walk.result }) ∨
        graph.kindOf edge.target ≠ .state ∧
          ((edge.target ∈ walk.visited ∧ graph.lookAt walk edge = walk) ∨
            graph.lookAt walk edge =
              { walk with
                visited := edge.target :: walk.visited, stack := edge.target :: walk.stack })) := by
  unfold lookAt
  split
  · next disabled => exact Or.inl ⟨disabled, rfl⟩
  · next enabled =>
      refine Or.inr ⟨Bool.not_eq_true _ ▸ enabled, ?_⟩
      split
      · next register => exact Or.inl ⟨register, rfl⟩
      · next combinational =>
          refine Or.inr ⟨combinational, ?_⟩
          split
          · next old => exact Or.inl ⟨old, rfl⟩
          · exact Or.inr rfl

/-- The walk is done with an edge that it has looked at. -/
theorem Sensing.done (sensing : graph.Sensing node (edge :: todo) walk)
    (lookedAt : graph.LookedAt walk edge) : graph.Sensing node todo walk where
  start := sensing.start
  reached := sensing.reached
  stacked := sensing.stacked
  pending other member := sensing.pending other (List.mem_cons_of_mem _ member)
  looked visited member := by
    refine (sensing.looked visited member).imp_right fun looked other otherMem => ?_
    rcases looked other otherMem with pending | taken
    · rcases List.mem_cons.mp pending with rfl | later
      · exact Or.inr lookedAt
      · exact Or.inl later
    · exact Or.inr taken
  nodup := sensing.nodup
  sound := sensing.sound

/-- The clocks of a register next to a visited node are collected. -/
theorem Sensing.collect (sensing : graph.Sensing node todo walk)
    (frontier : graph.OnFrontier node state) : graph.Sensing node todo
      { walk with result := graph.collectFromState state walk.result } where
  start := sensing.start
  reached := sensing.reached
  stacked := sensing.stacked
  pending := sensing.pending
  looked visited member := by
    refine (sensing.looked visited member).imp_right fun looked other otherMem => ?_
    refine (looked other otherMem).imp_right fun taken => taken.mono (List.Subset.refl _) ?_
    exact fun source old => (mem_collectFromState sensing.nodup).mpr (Or.inl old)
  nodup := nodup_collectFromState sensing.nodup
  sound source member := by
    rcases (mem_collectFromState sensing.nodup).mp member with old | clocks
    · exact sensing.sound source old
    · exact ⟨state, frontier, clocks⟩

/-- A node that is reached is visited and put on the stack. -/
theorem Sensing.push {next : NodeRef} (sensing : graph.Sensing node todo walk)
    (reaches : graph.Reaches graph.combEdge node next) : graph.Sensing node todo
      { walk with visited := next :: walk.visited, stack := next :: walk.stack } where
  start := List.mem_cons_of_mem _ sensing.start
  reached := List.forall_mem_cons.mpr ⟨reaches, sensing.reached⟩
  stacked := List.forall_mem_cons.mpr ⟨List.mem_cons_self,
    fun waiting member => List.mem_cons_of_mem _ (sensing.stacked waiting member)⟩
  pending edge member := (sensing.pending edge member).imp_right (List.mem_cons_of_mem _)
  looked visited member := by
    rcases List.mem_cons.mp member with rfl | old
    · exact Or.inl List.mem_cons_self
    · refine (sensing.looked visited old).imp (List.mem_cons_of_mem _) fun looked other otherMem =>
        (looked other otherMem).imp_right fun taken => ?_
      exact taken.mono (List.subset_cons_self _ _) (List.Subset.refl _)
  nodup := sensing.nodup
  sound := sensing.sound

/-- One edge of the current node. -/
theorem Sensing.lookAt (sensing : graph.Sensing node (edge :: todo) walk) :
    graph.Sensing node todo (graph.lookAt walk edge) := by
  obtain ⟨edgeMem, sourceMem⟩ := sensing.pending edge List.mem_cons_self
  have reaches := sensing.reached edge.source sourceMem
  rcases lookAt_cases graph walk edge with ⟨disabled, same⟩ | ⟨enabled, ⟨register, collects⟩ |
    ⟨combinational, ⟨old, same⟩ | pushes⟩⟩
  · rw [same]
    exact sensing.done fun enabled => absurd (enabled.symm.trans disabled) (by decide)
  · rw [collects]
    have frontier : graph.OnFrontier node edge.target := ⟨register, edge.source, reaches, edge,
      List.mem_filter.mpr ⟨edgeMem, decide_eq_true rfl⟩, enabled, rfl⟩
    refine (sensing.collect frontier).done fun _ => ?_
    rw [if_pos register]
    exact fun source clocks => (mem_collectFromState sensing.nodup).mpr (Or.inr clocks)
  · rw [same]
    refine sensing.done fun _ => ?_
    rwa [if_neg combinational]
  · rw [pushes]
    have next : graph.Reaches graph.combEdge node edge.target :=
      reaches.tail ⟨edge, edgeMem, by simp [combEdge, enabled, combinational], rfl, rfl⟩
    refine (sensing.push next).done fun _ => ?_
    rw [if_neg combinational]
    exact List.mem_cons_self

/-- All edges of the current node. -/
theorem Sensing.lookAtAll (sensing : graph.Sensing node todo walk) :
    graph.Sensing node [] (todo.foldl graph.lookAt walk) := by
  induction todo generalizing walk with
  | nil => exact sensing
  | cons edge rest ih => exact ih sensing.lookAt

/-- The top of the stack becomes the current node. -/
theorem Sensing.pop {visited rest : List NodeRef} {cur : NodeRef}
    {result : List SensitivitySource}
    (sensing : graph.Sensing node [] ⟨visited, cur :: rest, result⟩) :
    graph.Sensing node (graph.outEdges cur) ⟨visited, rest, result⟩ where
  start := sensing.start
  reached := sensing.reached
  stacked waiting member := sensing.stacked waiting (List.mem_cons_of_mem _ member)
  pending edge member := by
    obtain ⟨edgeMem, source⟩ := List.mem_filter.mp member
    refine ⟨edgeMem, ?_⟩
    rw [of_decide_eq_true source]
    exact sensing.stacked cur List.mem_cons_self
  looked other member := by
    rcases sensing.looked other member with waiting | looked
    · rcases List.mem_cons.mp waiting with rfl | later
      · exact Or.inr fun edge edgeMem => Or.inl edgeMem
      · exact Or.inl later
    · refine Or.inr fun edge edgeMem => Or.inr ?_
      exact ((looked edge edgeMem).resolve_left List.not_mem_nil).mono
        (List.Subset.refl _) (List.Subset.refl _)
  nodup := sensing.nodup
  sound := sensing.sound

/-- The walk ends when all edges of the visited nodes have been looked at. -/
theorem sensitivityLoop_spec {fuel : Nat} {result : List SensitivitySource}
    (sensing : graph.Sensing node [] walk)
    (ran : graph.sensitivityLoop fuel walk = some result) :
    ∃ visited, graph.Sensing node [] ⟨visited, [], result⟩ := by
  induction fuel generalizing walk with
  | zero =>
      obtain ⟨visited, stack, collected⟩ := walk
      cases stack with
      | nil =>
          cases ran
          exact ⟨visited, sensing⟩
      | cons cur rest => cases ran
  | succ fuel ih =>
      obtain ⟨visited, stack, collected⟩ := walk
      cases stack with
      | nil =>
          cases ran
          exact ⟨visited, sensing⟩
      | cons cur rest => exact ih sensing.pop.lookAtAll ran

section Ended

variable {visited : List NodeRef} {result : List SensitivitySource}

/-- At the end, the edges out of the visited nodes have been looked at. -/
theorem Sensing.lookedAt (ended : graph.Sensing node [] ⟨visited, [], result⟩)
    {before : NodeRef} (member : before ∈ visited) (edgeMem : edge ∈ graph.outEdges before) :
    graph.LookedAt ⟨visited, [], result⟩ edge :=
  ((ended.looked before member).resolve_left List.not_mem_nil edge edgeMem).resolve_left
    List.not_mem_nil

/-- At the end, all nodes that can be reached have been visited. -/
theorem Sensing.visited_of_reaches (ended : graph.Sensing node [] ⟨visited, [], result⟩)
    {other : NodeRef} (reaches : graph.Reaches graph.combEdge node other) : other ∈ visited := by
  induction reaches with
  | refl => exact ended.start
  | tail _ last ih =>
      obtain ⟨edge, edgeMem, selects, source, rfl⟩ := last
      simp only [combEdge, Bool.and_eq_true, Bool.not_eq_true', bne_iff_ne] at selects
      have taken := ended.lookedAt ih (List.mem_filter.mpr ⟨edgeMem, decide_eq_true source⟩)
        selects.1
      rwa [if_neg selects.2] at taken

theorem Sensing.mem_result_iff (ended : graph.Sensing node [] ⟨visited, [], result⟩) :
    source ∈ result ↔
      ∃ register, graph.OnFrontier node register ∧ graph.Clocks register source := by
  refine ⟨ended.sound source, ?_⟩
  rintro ⟨register, ⟨state, before, reaches, edge, edgeMem, enabled, rfl⟩, clocks⟩
  have taken := ended.lookedAt (ended.visited_of_reaches reaches) edgeMem enabled
  rw [if_pos state] at taken
  exact taken source clocks

end Ended

/--
The walk ends on every graph with the clocks and resets of the registers on
the frontier of the node, each pair once.
-/
theorem getSensitivity_exact (graph : NetlistGraph) (linked : graph.Linked) (node : NodeRef)
    (present : graph.HasNode node) :
    ∃ result, graph.getSensitivity node = some result ∧ graph.SensitivityExact node result := by
  obtain ⟨result, found⟩ := exists_getSensitivity linked present
  refine ⟨result, found, ?_⟩
  unfold getSensitivity at found
  split at found
  · next register =>
      cases found
      refine ⟨nodup_collectFromState List.nodup_nil, fun _ source => ?_,
        fun combinational => absurd register combinational⟩
      rw [mem_collectFromState List.nodup_nil, or_iff_right List.not_mem_nil]
  · next combinational =>
      obtain ⟨visited, ended⟩ := sensitivityLoop_spec (sensing_start graph node) found
      exact ⟨ended.nodup, fun register => absurd register combinational,
        fun _ source => ended.mem_result_iff⟩

theorem getSensitivity_exact_ring :
    ∃ result, ringNetlist.getSensitivity ⟨0, .merge, 0⟩ = some result ∧
      ringNetlist.SensitivityExact ⟨0, .merge, 0⟩ result :=
  getSensitivity_exact ringNetlist ringNetlist_linked ⟨0, .merge, 0⟩ (by decide)

end NetlistGraph

end SlangNetlist
