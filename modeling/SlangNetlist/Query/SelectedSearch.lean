import SlangNetlist.Query.PathFinder

/-!
# Searches see the selected edges only

A search passes over the edges that its predicate rules out.  It visits the same
nodes, with the same events, as the search of the graph without these edges.
-/

namespace SlangNetlist

variable {Node Edge View : Type}

namespace DirectedGraph

/-- The graph with the selected edges only. -/
def select (graph : DirectedGraph Node Edge) (selected : Edge → Bool) : DirectedGraph Node Edge where
  nodes := graph.nodes
  edges := graph.edges.filter selected
  source := graph.source
  target := graph.target
  source_mem edge member := graph.source_mem edge (List.mem_of_mem_filter member)
  target_mem edge member := graph.target_mem edge (List.mem_of_mem_filter member)

theorem edgesOf_select [DecidableEq Node] (graph : DirectedGraph Node Edge)
    (selected : Edge → Bool) (direction : Direction) (node : Node) :
    (graph.select selected).edgesOf direction node =
      (graph.edgesOf direction node).filter selected := by
  cases direction <;> simp only [edgesOf, select, List.filter_filter] <;>
    exact List.filter_congr fun _ _ => Bool.and_comm _ _

/-- Graphs with the same nodes and the same selected edges. -/
theorem select_congr {first second : DirectedGraph Node Edge} {selected : Edge → Bool}
    (nodes : first.nodes = second.nodes)
    (edges : first.edges.filter selected = second.edges.filter selected)
    (source : first.source = second.source) (target : first.target = second.target) :
    first.select selected = second.select selected := by
  simp only [select, nodes, edges, source, target]

end DirectedGraph

namespace DepthFirstSearch

variable [DecidableEq Node] {graph : DirectedGraph Node Edge} {direction : Direction}
  {visitor : Visitor Node Edge View} {selected : Edge → Bool}

omit [DecidableEq Node] in
/-- The search with the selected edges ahead only. -/
def selectAhead (selected : Edge → Bool) (search : DepthFirstSearch Node Edge View) :
    DepthFirstSearch Node Edge View :=
  { search with
    visitStack := search.visitStack.map fun frame => (frame.1, frame.2.filter selected) }

/-- A step looks at an edge that is not selected, or it is a step of the selected graph. -/
theorem step_select {search next : DepthFirstSearch Node Edge View}
    (stepped : step graph direction visitor selected search = some next) :
    next.selectAhead selected = search.selectAhead selected ∨
      step (graph.select selected) direction visitor selected (search.selectAhead selected) =
        some (next.selectAhead selected) := by
  rcases step_cases stepped with ⟨node, below, stack, rfl⟩ | ⟨node, edge, rest, below, stack,
    ⟨skipped, rfl⟩ | ⟨followed, visited, rfl⟩ | ⟨followed, fresh, rfl⟩⟩
  · exact Or.inr (by simp [step, selectAhead, stack])
  · exact Or.inl (by simp [selectAhead, stack, skipped])
  · have again : (graph.select selected).nextNode direction edge ∈ search.visitedNodes := visited
    refine Or.inr ?_
    simp only [step, selectAhead, stack, List.map_cons, List.filter_cons_of_pos followed,
      followed, again, Bool.true_eq_false, if_false, if_true]
    rfl
  · have again : (graph.select selected).nextNode direction edge ∉ search.visitedNodes := fresh
    refine Or.inr ?_
    simp only [step, selectAhead, stack, List.map_cons, List.filter_cons_of_pos followed,
      followed, again, Bool.true_eq_false, if_false, DirectedGraph.edgesOf_select]
    rfl

/-- The run of the selected graph leaves out the steps over other edges. -/
theorem run_select {fuel : Nat} {search final : DepthFirstSearch Node Edge View}
    (ran : run graph direction visitor selected fuel search = some final) :
    ∃ enough, run (graph.select selected) direction visitor selected enough
      (search.selectAhead selected) = some (final.selectAhead selected) := by
  induction fuel generalizing search with
  | zero => cases ran
  | succ fuel ih =>
      rw [run] at ran
      cases stepped : step graph direction visitor selected search with
      | none =>
          rw [stepped] at ran
          cases ran
          have ended : step (graph.select selected) direction visitor selected
              (final.selectAhead selected) = none := by
            rw [step_eq_none] at stepped ⊢
            simp [selectAhead, stepped]
          exact ⟨1, by rw [run, ended]⟩
      | some next =>
          rw [stepped] at ran
          obtain ⟨enough, later⟩ := ih ran
          rcases step_select stepped with same | moved
          · exact ⟨enough, same ▸ later⟩
          · exact ⟨enough + 1, by rw [run, moved]; exact later⟩

/-- More fuel does not change how a run ends. -/
theorem run_unique {fuel enough : Nat} {search final other : DepthFirstSearch Node Edge View}
    (ran : run graph direction visitor selected fuel search = some final)
    (again : run graph direction visitor selected enough search = some other) : final = other := by
  induction fuel generalizing enough search with
  | zero => cases ran
  | succ fuel ih =>
      cases enough with
      | zero => cases again
      | succ enough =>
          rw [run] at ran again
          cases stepped : step graph direction visitor selected search with
          | none =>
              rw [stepped] at ran again
              exact Option.some.inj (ran.symm.trans again)
          | some next =>
              rw [stepped] at ran again
              exact ih ran again

/-- The visitor sees the search of the selected graph. -/
theorem visitor_traverse_select (graph : DirectedGraph Node Edge) (direction : Direction)
    (visitor : Visitor Node Edge View) (selected : Edge → Bool) (view : View) (start : Node) :
    (traverse graph direction visitor selected view start).map DepthFirstSearch.visitor =
      (traverse (graph.select selected) direction visitor selected view start).map
        DepthFirstSearch.visitor := by
  obtain ⟨final, ran, _⟩ := @traverse_spec _ _ _ _ graph direction visitor selected
    (fun _ => True) start view trivial fun _ _ _ _ _ => trivial
  obtain ⟨other, selectedRan, _⟩ := @traverse_spec _ _ _ _ (graph.select selected) direction
    visitor selected (fun _ => True) start view trivial fun _ _ _ _ _ => trivial
  obtain ⟨enough, again⟩ := run_select ran
  have starts : (setup graph direction visitor view start).selectAhead selected =
      setup (graph.select selected) direction visitor view start := by
    simp [selectAhead, setup, DirectedGraph.edgesOf_select]
  rw [starts] at again
  rw [ran, selectedRan, ← run_unique again selectedRan]
  rfl

end DepthFirstSearch

/-- The path found is the one of the selected graph. -/
theorem PathFinder.findPath_select [DecidableEq Node] (graph : DirectedGraph Node Edge)
    (selected : Edge → Bool) (startNode endNode : Node) :
    findPath graph selected startNode endNode =
      findPath (graph.select selected) selected startNode endNode := by
  have same := DepthFirstSearch.visitor_traverse_select graph .forward (callbacks graph) selected
    (some []) startNode
  have moved (graph : DirectedGraph Node Edge) : findPath graph selected startNode endNode =
      ((DepthFirstSearch.traverse graph .forward (callbacks graph) selected (some [])
        startNode).map DepthFirstSearch.visitor).bind fun visitor =>
          visitor.bind fun traversalMap => buildPath traversalMap startNode endNode := by
    rw [Option.bind_map]
    rfl
  rw [moved, moved (graph.select selected), same]
  rfl

/-- The cycles found are the ones of the selected graph. -/
theorem CycleDetector.detectCycles_select [DecidableEq Node] (graph : DirectedGraph Node Edge)
    (selected : Edge → Bool) (ID : Node → Nat) :
    detectCycles graph selected ID = detectCycles (graph.select selected) selected ID := by
  have from_eq : detectFrom graph selected ID = detectFrom (graph.select selected) selected ID := by
    funext detector startNode
    have same := DepthFirstSearch.visitor_traverse_select graph .forward
      (CycleDetectionVisitor.callbacks ID) selected {} startNode
    have moved (graph : DirectedGraph Node Edge) : detectFrom graph selected ID detector startNode =
        if startNode ∈ detector.visitedNodes then some detector
        else ((DepthFirstSearch.traverse graph .forward (CycleDetectionVisitor.callbacks ID) selected
          {} startNode).map DepthFirstSearch.visitor).map fun visitor => {
            visitedNodes := visitor.cycles.flatten ++ startNode :: detector.visitedNodes
            cycles := visitor.cycles ∪ detector.cycles } := by
      rw [Option.map_map]
      rfl
    rw [moved, moved (graph.select selected), same]
  rw [detectCycles, from_eq]
  rfl

end SlangNetlist
