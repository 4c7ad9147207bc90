import SlangNetlist.Query.CombLoops
import SlangNetlist.Query.FirstPaths

/-!
# Path finding

The visitor records the node from which each node was visited, and the path is
read off from the end node back to the start.  The result of the functions here
is `none` where an assertion of the source fails or the walk does not end.
-/

namespace SlangNetlist

open Library

/-- The node before each visited one. -/
abbrev TraversalMap (Node : Type) := List (Node × Node)

namespace TraversalMap

variable {Node : Type} [DecidableEq Node]

/-- `traversalMap[node]`, `none` for the null pointer. -/
def parent (traversalMap : TraversalMap Node) (node : Node) : Option Node :=
  (traversalMap.find? fun entry => entry.1 = node).map Prod.snd

@[simp] theorem parent_cons (entry : Node × Node) (traversalMap : TraversalMap Node) (node : Node) :
    parent (entry :: traversalMap) node =
      if entry.1 = node then some entry.2 else traversalMap.parent node := by
  unfold parent
  rw [List.find?_cons]
  by_cases same : entry.1 = node <;> simp [same]

theorem mem_of_parent {traversalMap : TraversalMap Node} {node before : Node}
    (recorded : traversalMap.parent node = some before) : node ∈ traversalMap.map Prod.fst := by
  obtain ⟨entry, found, rfl⟩ := Option.map_eq_some_iff.mp recorded
  have same := List.find?_some found
  exact List.mem_map.mpr ⟨entry, List.mem_of_find?_eq_some found, of_decide_eq_true same⟩

end TraversalMap

namespace PathFinder

variable {Node Edge : Type} [DecidableEq Node]

section Definitions

variable (graph : DirectedGraph Node Edge) (selected : Edge → Bool)

/-- Record the source of the edge to a new node, which has no parent so far. -/
def visitEdge (edge : Edge) (traversalMap : TraversalMap Node) : Option (TraversalMap Node) :=
  if traversalMap.parent (graph.target edge) = none then
    some ((graph.target edge, graph.source edge) :: traversalMap)
  else none

/-- The callbacks of the visitor. -/
def callbacks : Visitor Node Edge (Option (TraversalMap Node)) where
  visitedNode _ traversalMap := traversalMap
  visitNode _ traversalMap := traversalMap
  visitEdge edge traversalMap := traversalMap.bind (visitEdge graph edge)
  popNode traversalMap := traversalMap

/-- The nodes that the walk adds after a node, up to the start. -/
def walkBack (traversalMap : TraversalMap Node) (startNode : Node) : Nat → Node → Option (List Node)
  | 0, _ => none
  | fuel + 1, node =>
      match traversalMap.parent node with
      | none => none
      | some nextNode =>
          if nextNode = startNode then some [nextNode]
          else (walkBack traversalMap startNode fuel nextNode).map (nextNode :: ·)

def buildPath (traversalMap : TraversalMap Node) (startNode endNode : Node) : Option (List Node) :=
  if traversalMap.parent endNode = none then some []
  else if startNode = endNode then some [endNode]
  else (walkBack traversalMap startNode (traversalMap.length + 1) endNode).map fun nodes =>
    (endNode :: nodes).reverse

/-- The search and the path that its map gives. -/
def findPath (startNode endNode : Node) : Option (List Node) :=
  (DepthFirstSearch.traverse graph .forward (callbacks graph) selected (some []) startNode).bind
    fun search => search.visitor.bind fun traversalMap => buildPath traversalMap startNode endNode

end Definitions

/-- The walk back takes the nodes of a path whose steps the map records. -/
theorem walkBack_eq {traversalMap : TraversalMap Node} {startNode node : Node} {below : List Node}
    {fuel : Nat} (recorded : (node :: below).IsChain fun child before =>
      traversalMap.parent child = some before)
    (nodup : (node :: below).Nodup) (last : (node :: below).getLast? = some startNode)
    (differ : node ≠ startNode) (enough : below.length ≤ fuel) :
    walkBack traversalMap startNode fuel node = some below := by
  induction below generalizing node fuel with
  | nil => simp [differ] at last
  | cons before below ih =>
      obtain ⟨step, later⟩ := List.isChain_cons_cons.mp recorded
      rw [List.getLast?_cons_cons] at last
      obtain ⟨less, rfl⟩ : ∃ less, fuel = less + 1 := Nat.exists_eq_add_one.mpr (by
        rw [List.length_cons] at enough
        omega)
      have restNodup := (List.nodup_cons.mp nodup).2
      simp only [walkBack, step]
      split
      · next ends =>
          cases below with
          | nil => rfl
          | cons other below =>
              rw [List.getLast?_cons_cons] at last
              exact absurd (ends ▸ List.mem_of_getLast? last) (List.nodup_cons.mp restNodup).1
      · next goesOn =>
          rw [ih later restNodup last goesOn (by simpa using enough)]
          rfl

/-- A path whose steps are recorded is no longer than the map. -/
theorem length_le_of_recorded {traversalMap : TraversalMap Node} {node : Node} {below : List Node}
    (recorded : (node :: below).IsChain fun child before =>
      traversalMap.parent child = some before)
    (nodup : (node :: below).Nodup) : below.length ≤ traversalMap.length := by
  have keys : (node :: below).dropLast ⊆ traversalMap.map Prod.fst := by
    clear nodup
    induction below generalizing node with
    | nil => simp
    | cons before below ih =>
        obtain ⟨step, later⟩ := List.isChain_cons_cons.mp recorded
        rw [List.dropLast_cons_of_ne_nil (List.cons_ne_nil _ _)]
        exact List.cons_subset.mpr ⟨TraversalMap.mem_of_parent step, ih later⟩
  have shorter := (List.subperm_of_subset (nodup.sublist (List.dropLast_sublist _)) keys).length_le
  simpa using shorter

open DepthFirstSearch

variable {graph : DirectedGraph Node Edge} {selected : Edge → Bool}

/-- The map holds a parent for each visited node but the start, which the first paths follow. -/
structure Mapped (graph : DirectedGraph Node Edge) (selected : Edge → Bool) (start : Node)
    (visitedNodes : List Node) (traversalMap : TraversalMap Node) : Prop where
  keys : ∀ node, traversalMap.parent node = none ↔ node ∉ visitedNodes ∨ node = start
  paths : ∀ node ∈ visitedNodes, ∀ path,
    FirstPath (graph.successors .forward selected) start node path →
      path.IsChain fun before child => traversalMap.parent child = some before

/-- The assertion holds, and the map goes on knowing the parents. -/
def Traversed (graph : DirectedGraph Node Edge) (selected : Edge → Bool) (start : Node)
    (search : DepthFirstSearch Node Edge (Option (TraversalMap Node))) : Prop :=
  ∃ traversalMap, search.visitor = some traversalMap ∧
    Mapped graph selected start search.visitedNodes traversalMap

theorem traversed_setup (start : Node) :
    Traversed graph selected start
      (setup graph .forward (callbacks graph) (some []) start) := by
  refine ⟨[], rfl, ⟨fun node => ?_, fun node member path first => ?_⟩⟩
  · have unknown : TraversalMap.parent [] node = none := rfl
    simp [setup, unknown, em']
  · obtain rfl : node = start := by simpa [setup] using member
    rw [first.unique (FirstPath.singleton _ node)]
    exact List.isChain_singleton _

/-- A new entry leaves the recorded steps as they are. -/
theorem Mapped.recorded {start node child before : Node} {visitedNodes : List Node}
    {traversalMap : TraversalMap Node} (mapped : Mapped graph selected start visitedNodes traversalMap)
    (fresh : node ∉ visitedNodes) (source : Node)
    (recorded : traversalMap.parent child = some before) :
    TraversalMap.parent ((node, source) :: traversalMap) child = some before := by
  rw [TraversalMap.parent_cons, if_neg, recorded]
  rintro rfl
  have missing := (mapped.keys node).mpr (Or.inl fresh)
  rw [missing] at recorded
  cases recorded

/-- The map after an edge to a new node. -/
theorem Mapped.extend {start node source : Node} {visitedNodes : List Node} {path : List Node}
    {traversalMap : TraversalMap Node} (mapped : Mapped graph selected start visitedNodes traversalMap)
    (started : start ∈ visitedNodes) (visited : source ∈ visitedNodes) (fresh : node ∉ visitedNodes)
    (first : FirstPath (graph.successors .forward selected) start source path)
    (extended : FirstPath (graph.successors .forward selected) start node (path ++ [node])) :
    Mapped graph selected start (node :: visitedNodes) ((node, source) :: traversalMap) where
  keys := by
    intro other
    rw [TraversalMap.parent_cons]
    split
    · next same =>
        obtain rfl : node = other := same
        have notStart : node ≠ start := by
          rintro rfl
          exact fresh started
        simp [notStart]
    · next differ =>
        rw [mapped.keys other, List.mem_cons, not_or]
        simp [Ne.symm differ]
  paths := by
    have kept := fun child before => @Mapped.recorded _ _ _ _ _ _ _ child before _ _ mapped fresh source
    intro other member found otherFirst
    rcases List.mem_cons.mp member with rfl | old
    · obtain rfl := otherFirst.unique extended
      rw [List.isChain_append]
      refine ⟨(mapped.paths source visited path first).imp fun before child => kept child before,
        List.isChain_singleton _, fun last isLast next isNext => ?_⟩
      obtain rfl : other = next := by simpa using isNext
      obtain rfl := Option.some.inj (first.last.symm.trans isLast)
      simp
    · exact (mapped.paths other old found otherFirst).imp fun before child => kept child before

/-- Every step keeps the knowledge of the parents. -/
theorem Traversed.step {start : Node}
    {search next : DepthFirstSearch Node Edge (Option (TraversalMap Node))}
    (searching : Searching graph .forward selected start search)
    (tracing : Tracing graph .forward selected start search)
    (traversed : Traversed graph selected start search)
    (stepped : DepthFirstSearch.step graph .forward (callbacks graph) selected search = some next) :
    Traversed graph selected start next := by
  have nextTracing := tracing.step searching stepped
  obtain ⟨traversalMap, visitor, mapped⟩ := traversed
  rcases step_cases stepped with ⟨node, below, stack, rfl⟩ | ⟨node, edge, rest, below, stack,
    ⟨skipped, rfl⟩ | ⟨followed, visited, rfl⟩ | ⟨followed, fresh, rfl⟩⟩
  · exact ⟨traversalMap, visitor, mapped⟩
  · exact ⟨traversalMap, visitor, mapped⟩
  · exact ⟨traversalMap, visitor, mapped⟩
  · have frame : (node, edge :: rest) ∈ search.visitStack := stack ▸ List.mem_cons_self
    obtain rfl : graph.source edge = node := by
      simpa [DirectedGraph.edgesOf] using (List.mem_filter.mp
        (searching.remaining _ frame List.mem_cons_self)).2
    have orphan := (mapped.keys (graph.target edge)).mpr (Or.inl fresh)
    have first := tracing.onStack [] (graph.source edge) (below.map Prod.fst)
      (by simp [stackNodes, stack])
    have extended := nextTracing.onStack [] (graph.target edge)
      (graph.source edge :: below.map Prod.fst) rfl
    rw [List.reverse_cons] at extended
    refine ⟨(graph.target edge, graph.source edge) :: traversalMap, ?_,
      mapped.extend searching.started (searching.visited _ frame) fresh first extended⟩
    simp [callbacks, visitor, visitEdge, orphan]

/-- The path that the map gives is the first path to a node that was visited. -/
theorem buildPath_spec {start finish : Node} {visitedNodes : List Node}
    {traversalMap : TraversalMap Node} (mapped : Mapped graph selected start visitedNodes traversalMap)
    (traced : ∀ node ∈ visitedNodes, ∃ path,
      FirstPath (graph.successors .forward selected) start node path) :
    ((start = finish ∨ finish ∉ visitedNodes) ∧ buildPath traversalMap start finish = some []) ∨
    start ≠ finish ∧ ∃ path, FirstPath (graph.successors .forward selected) start finish path ∧
      buildPath traversalMap start finish = some path := by
  by_cases unknown : traversalMap.parent finish = none
  · refine Or.inl ⟨?_, by simp [buildPath, unknown]⟩
    rcases (mapped.keys finish).mp unknown with unvisited | rfl
    · exact Or.inr unvisited
    · exact Or.inl rfl
  · have known := mt (mapped.keys finish).mpr unknown
    rw [not_or, not_not] at known
    obtain ⟨path, first⟩ := traced finish known.1
    refine Or.inr ⟨Ne.symm known.2, path, first, ?_⟩
    have recorded := List.isChain_reverse.mpr (mapped.paths finish known.1 path first)
    have nodup := List.nodup_reverse.mpr first.nodup
    have head : path.reverse.head? = some finish := by rw [List.head?_reverse, first.last]
    have last : path.reverse.getLast? = some start := by rw [List.getLast?_reverse, first.head]
    obtain ⟨below, turned⟩ := List.head?_eq_some_iff.mp head
    rw [turned] at recorded nodup last
    have shorter := length_le_of_recorded recorded nodup
    rw [buildPath, if_neg unknown, if_neg (Ne.symm known.2),
      walkBack_eq recorded nodup last known.2 (Nat.le_succ_of_le shorter), Option.map_some, ← turned,
      List.reverse_reverse]

/--
A search from the start finds the first path to every other node that can be
reached, and no path to the start itself.
-/
theorem findPath_spec (graph : DirectedGraph Node Edge) (selected : Edge → Bool)
    (start finish : Node) :
    ((start = finish ∨ ¬ graph.Reachable .forward selected start finish) ∧
      findPath graph selected start finish = some []) ∨
    start ≠ finish ∧ ∃ path, FirstPath (graph.successors .forward selected) start finish path ∧
      findPath graph selected start finish = some path := by
  have base : Tracing graph .forward selected start
        (setup graph .forward (callbacks graph) (some []) start) ∧
      Traversed graph selected start (setup graph .forward (callbacks graph) (some []) start) :=
    ⟨tracing_setup _ start, traversed_setup start⟩
  obtain ⟨search, ran, ended, searching, tracing, traversalMap, visitor, mapped⟩ :=
    @traverse_spec _ _ _ _ graph .forward (callbacks graph) selected
      (fun search => Tracing graph .forward selected start search ∧
        Traversed graph selected start search) start (some []) base
      fun _ _ searching holds stepped =>
        ⟨holds.1.step searching stepped, holds.2.step searching holds.1 stepped⟩
  have built := @buildPath_spec _ _ _ graph selected start finish _ _ mapped tracing.traced
  rw [searching.visited_iff ended] at built
  simpa only [findPath, ran, visitor, Option.bind_some] using built

end PathFinder

namespace NetlistGraph

/-- `EdgePredicate`. -/
def enabledEdge (edge : NetlistEdge) : Bool := !edge.disabled

variable (graph : NetlistGraph) (linked : graph.Linked)

/-- `PathFinder::find`. -/
def find (startNode endNode : NodeRef) : Option (List NodeRef) :=
  PathFinder.findPath (graph.directed linked) enabledEdge startNode endNode

/-- `PathFinder::findComb`. -/
def findComb (startNode endNode : NodeRef) : Option (List NodeRef) :=
  PathFinder.findPath (graph.directed linked) graph.combEdge startNode endNode

/-- A selected edge leads from one node to the other. -/
def StepsTo (selected : NetlistEdge → Bool) (node next : NodeRef) : Prop :=
  ∃ edge ∈ graph.edges, selected edge = true ∧ edge.source = node ∧ edge.target = next

/-- Selected edges lead from one node to the other. -/
abbrev Reaches (selected : NetlistEdge → Bool) : NodeRef → NodeRef → Prop :=
  Relation.ReflTransGen (graph.StepsTo selected)

/-- Distinct nodes from the start to the end, each joined to the next one by a selected edge. -/
structure IsPath (selected : NetlistEdge → Bool) (startNode endNode : NodeRef)
    (path : List NodeRef) : Prop where
  head : path.head? = some startNode
  last : path.getLast? = some endNode
  nodup : path.Nodup
  joined : path.IsChain (graph.StepsTo selected)

/-- The result is a path if there is one to another node. -/
structure Found (selected : NetlistEdge → Bool) (startNode endNode : NodeRef)
    (path : List NodeRef) : Prop where
  nonempty : path ≠ [] ↔ graph.Reaches selected startNode endNode
  isPath : path ≠ [] → graph.IsPath selected startNode endNode path

variable {graph} {linked}

theorem joined_iff {selected : NetlistEdge → Bool} {node next : NodeRef} :
    (graph.directed linked).Joined .forward selected node next ↔
      graph.StepsTo selected node next := by
  simp only [DirectedGraph.Joined, DirectedGraph.edgesOf, DirectedGraph.nextNode, directed,
    List.mem_filter, StepsTo]
  constructor
  · rintro ⟨edge, ⟨member, source⟩, followed, target⟩
    exact ⟨edge, member, followed, of_decide_eq_true source, target⟩
  · rintro ⟨edge, member, followed, source, target⟩
    exact ⟨edge, ⟨member, decide_eq_true source⟩, followed, target⟩

theorem reachable_iff {selected : NetlistEdge → Bool} {node other : NodeRef} :
    (graph.directed linked).Reachable .forward selected node other ↔
      graph.Reaches selected node other := by
  have same : (graph.directed linked).Joined .forward selected = graph.StepsTo selected :=
    funext₂ fun _ _ => propext joined_iff
  rw [DirectedGraph.Reachable, Reaches, same]

theorem isPath_of_firstPath {selected : NetlistEdge → Bool} {startNode endNode : NodeRef}
    {path : List NodeRef}
    (first : FirstPath ((graph.directed linked).successors .forward selected) startNode endNode
      path) : graph.IsPath selected startNode endNode path where
  head := first.head
  last := first.last
  nodup := first.nodup
  joined := (DirectedGraph.isChain_of_firstPath first).imp fun _ _ => joined_iff.mp

/-- A search with an edge predicate finds a path to another node if there is one. -/
theorem findPath_found (selected : NetlistEdge → Bool) (startNode endNode : NodeRef) :
    ∃ path, PathFinder.findPath (graph.directed linked) selected startNode endNode = some path ∧
      (startNode ≠ endNode → graph.Found selected startNode endNode path) := by
  rcases PathFinder.findPath_spec (graph.directed linked) selected startNode endNode with
    ⟨missed, found⟩ | ⟨differ, path, first, found⟩
  · refine ⟨[], found, fun differ => ⟨?_, fun nonempty => absurd rfl nonempty⟩⟩
    have unreachable := missed.resolve_left differ
    rw [reachable_iff] at unreachable
    simp [unreachable]
  · have isPath := isPath_of_firstPath first
    have reachable := reachable_iff.mp (DirectedGraph.reachable_of_firstPath first)
    refine ⟨path, found, fun _ => ⟨⟨fun _ => reachable, fun _ => ?_⟩, fun _ => isPath⟩⟩
    rintro rfl
    cases first.head

end NetlistGraph

/--
On every graph both searches end without a failed assertion, and for distinct
nodes they return a path exactly if there is one.
-/
theorem find_found (graph : NetlistGraph) (linked : graph.Linked) (startNode endNode : NodeRef) :
    (∃ path, graph.find linked startNode endNode = some path ∧
      (startNode ≠ endNode → graph.Found NetlistGraph.enabledEdge startNode endNode path)) ∧
    ∃ path, graph.findComb linked startNode endNode = some path ∧
      (startNode ≠ endNode → graph.Found graph.combEdge startNode endNode path) :=
  ⟨NetlistGraph.findPath_found _ _ _, NetlistGraph.findPath_found _ _ _⟩

example : ringNetlist.find ringNetlist_linked ⟨0, .merge, 0⟩ ⟨0, .state, 0⟩ =
    some [⟨0, .merge, 0⟩, ⟨0, .assignment, 0⟩, ⟨0, .state, 0⟩] := by
  decide +kernel

theorem find_found_ring :
    (∃ path, ringNetlist.find ringNetlist_linked ⟨0, .merge, 0⟩ ⟨0, .state, 0⟩ = some path ∧
      ringNetlist.Found NetlistGraph.enabledEdge ⟨0, .merge, 0⟩ ⟨0, .state, 0⟩ path) ∧
    ∃ path, ringNetlist.findComb ringNetlist_linked ⟨0, .merge, 0⟩ ⟨0, .state, 0⟩ = some path ∧
      ringNetlist.Found ringNetlist.combEdge ⟨0, .merge, 0⟩ ⟨0, .state, 0⟩ path := by
  have both := find_found ringNetlist ringNetlist_linked ⟨0, .merge, 0⟩ ⟨0, .state, 0⟩
  have differ : (⟨0, .merge, 0⟩ : NodeRef) ≠ ⟨0, .state, 0⟩ := by decide
  obtain ⟨⟨path, found, isFound⟩, comb, combFound, isComb⟩ := both
  exact ⟨⟨path, found, isFound differ⟩, comb, combFound, isComb differ⟩

end SlangNetlist
