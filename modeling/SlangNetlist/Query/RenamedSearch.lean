import SlangNetlist.Library.RenamedLists
import SlangNetlist.Query.ConstantDrivers
import SlangNetlist.Query.SelectedSearch

/-!
# Searches of a renamed graph

A renaming takes the nodes and edges of one graph to another one and keeps the
order of the edges at each node.  A search of the second graph sees the renamed
events of the search of the first one.
-/

namespace SlangNetlist

open Library

variable {Node Edge Other OtherEdge View OtherView : Type} [DecidableEq Node] [DecidableEq Other]

/-- Nodes and edges taken from one graph to another one, in the same order at each node. -/
structure Renaming (first : DirectedGraph Node Edge) (second : DirectedGraph Other OtherEdge)
    (direction : Direction) where
  onNode : Node → Other
  onEdge : Edge → OtherEdge
  injective : Set.InjOn onNode {node | node ∈ first.nodes}
  source : ∀ edge ∈ first.edges, second.source (onEdge edge) = onNode (first.source edge)
  target : ∀ edge ∈ first.edges, second.target (onEdge edge) = onNode (first.target edge)
  edgesOf : ∀ node ∈ first.nodes,
    second.edgesOf direction (onNode node) = (first.edgesOf direction node).map onEdge

namespace Renaming

variable {first : DirectedGraph Node Edge} {second : DirectedGraph Other OtherEdge}
  {direction : Direction} (names : Renaming first second direction)

theorem nextNode {edge : Edge} (member : edge ∈ first.edges) :
    second.nextNode direction (names.onEdge edge) =
      names.onNode (first.nextNode direction edge) := by
  cases direction with
  | forward => exact names.target edge member
  | backward => exact names.source edge member

/-- The visitors stay in the relation under renamed events. -/
structure VisitorsAgree (agree : View → OtherView → Prop) (visitor : Visitor Node Edge View)
    (otherVisitor : Visitor Other OtherEdge OtherView) : Prop where
  visitedNode : ∀ node ∈ first.nodes, ∀ view otherView, agree view otherView →
    agree (visitor.visitedNode node view)
      (otherVisitor.visitedNode (names.onNode node) otherView)
  visitNode : ∀ node ∈ first.nodes, ∀ view otherView, agree view otherView →
    agree (visitor.visitNode node view) (otherVisitor.visitNode (names.onNode node) otherView)
  visitEdge : ∀ edge ∈ first.edges, ∀ view otherView, agree view otherView →
    agree (visitor.visitEdge edge view) (otherVisitor.visitEdge (names.onEdge edge) otherView)
  popNode : ∀ view otherView, agree view otherView →
    agree (visitor.popNode view) (otherVisitor.popNode otherView)

/-- The stack with the names of the second graph. -/
def onStack (stack : List (Node × List Edge)) : List (Other × List OtherEdge) :=
  stack.map fun frame => (names.onNode frame.1, frame.2.map names.onEdge)

/-- The second search is where the first one is, with the names of the second graph. -/
structure Follows (agree : View → OtherView → Prop) (search : DepthFirstSearch Node Edge View)
    (other : DepthFirstSearch Other OtherEdge OtherView) : Prop where
  visitor : agree search.visitor other.visitor
  visitedNodes : other.visitedNodes = search.visitedNodes.map names.onNode
  visitStack : other.visitStack = names.onStack search.visitStack
  nodes : ∀ node ∈ search.visitedNodes, node ∈ first.nodes
  edges : ∀ frame ∈ search.visitStack, ∀ edge ∈ frame.2, edge ∈ first.edges

end Renaming

namespace DepthFirstSearch

open Renaming

variable {first : DirectedGraph Node Edge} {second : DirectedGraph Other OtherEdge}
  {direction : Direction} {names : Renaming first second direction}
  {agree : View → OtherView → Prop} {visitor : Visitor Node Edge View}
  {otherVisitor : Visitor Other OtherEdge OtherView} {selected : Edge → Bool}
  {otherSelected : OtherEdge → Bool}

theorem mem_edges_of_edgesOf {graph : DirectedGraph Node Edge} {node : Node} {edge : Edge}
    (member : edge ∈ graph.edgesOf direction node) : edge ∈ graph.edges := by
  cases direction <;> exact List.mem_of_mem_filter member

/-- One step of the first search is one step of the second. -/
theorem step_renamed (agrees : names.VisitorsAgree agree visitor otherVisitor)
    (selects : ∀ edge ∈ first.edges, otherSelected (names.onEdge edge) = selected edge)
    {search next : DepthFirstSearch Node Edge View}
    {other : DepthFirstSearch Other OtherEdge OtherView} (follows : names.Follows agree search other)
    (stepped : step first direction visitor selected search = some next) :
    ∃ otherNext, step second direction otherVisitor otherSelected other = some otherNext ∧
      names.Follows agree next otherNext := by
  obtain ⟨view, visitedNodes, stack⟩ := other
  obtain ⟨viewsAgree, rfl, rfl, nodes, edges⟩ := follows
  rcases step_cases stepped with ⟨node, below, stack, rfl⟩ | ⟨node, edge, rest, below, stack, kinds⟩
  · refine ⟨⟨otherVisitor.popNode view, search.visitedNodes.map names.onNode,
        names.onStack below⟩,
      by simp only [step, stack, onStack, List.map_cons, List.map_nil],
      agrees.popNode _ _ viewsAgree, rfl, rfl, nodes, fun frame member => ?_⟩
    exact edges frame (by rw [stack]; exact List.mem_cons_of_mem _ member)
  · -- The edge on top has the same place and the same end in both graphs.
    have edgeMem : edge ∈ first.edges :=
      edges (node, edge :: rest) (by rw [stack]; exact List.mem_cons_self) edge List.mem_cons_self
    have below_edges : ∀ frame ∈ (node, rest) :: below, ∀ edge ∈ frame.2, edge ∈ first.edges := by
      intro frame member other otherMem
      rcases List.mem_cons.mp member with rfl | lower
      · exact edges (node, edge :: rest) (by rw [stack]; exact List.mem_cons_self) other
          (List.mem_cons_of_mem _ otherMem)
      · exact edges frame (by rw [stack]; exact List.mem_cons_of_mem _ lower) other otherMem
    have targetMem : first.nextNode direction edge ∈ first.nodes := by
      cases direction with
      | forward => exact first.target_mem edge edgeMem
      | backward => exact first.source_mem edge edgeMem
    have seen := mem_map_of_injOn names.injective nodes targetMem
    rcases kinds with ⟨skipped, rfl⟩ | ⟨followed, visited, rfl⟩ | ⟨followed, fresh, rfl⟩
    · refine ⟨⟨view, search.visitedNodes.map names.onNode, names.onStack ((node, rest) :: below)⟩, ?_,
        viewsAgree, rfl, rfl, nodes, below_edges⟩
      simp only [step, stack, onStack, List.map_cons, selects edge edgeMem, skipped, if_true]
    · refine ⟨⟨otherVisitor.visitedNode (names.onNode (first.nextNode direction edge)) view,
        search.visitedNodes.map names.onNode, names.onStack ((node, rest) :: below)⟩, ?_,
        agrees.visitedNode _ targetMem _ _ viewsAgree, rfl, rfl, nodes, below_edges⟩
      simp only [step, stack, onStack, List.map_cons, selects edge edgeMem, followed, Bool.true_eq_false,
        if_false, names.nextNode edgeMem, seen.mpr visited, if_true]
    · refine ⟨⟨otherVisitor.visitNode (names.onNode (first.nextNode direction edge))
          (otherVisitor.visitEdge (names.onEdge edge) view),
        (first.nextNode direction edge :: search.visitedNodes).map names.onNode,
        names.onStack ((first.nextNode direction edge,
          first.edgesOf direction (first.nextNode direction edge)) :: (node, rest) :: below)⟩, ?_,
        agrees.visitNode _ targetMem _ _ (agrees.visitEdge edge edgeMem _ _ viewsAgree),
        rfl, rfl, List.forall_mem_cons.mpr ⟨targetMem, nodes⟩,
        List.forall_mem_cons.mpr ⟨fun other otherMem => mem_edges_of_edgesOf otherMem, below_edges⟩⟩
      simp only [step, stack, onStack, List.map_cons, selects edge edgeMem, followed, Bool.true_eq_false,
        if_false, names.nextNode edgeMem, mt seen.mp fresh, names.edgesOf _ targetMem]

/-- A run of the first search is a run of the second. -/
theorem run_renamed (agrees : names.VisitorsAgree agree visitor otherVisitor)
    (selects : ∀ edge ∈ first.edges, otherSelected (names.onEdge edge) = selected edge)
    {fuel : Nat} {search final : DepthFirstSearch Node Edge View}
    {other : DepthFirstSearch Other OtherEdge OtherView} (follows : names.Follows agree search other)
    (ran : run first direction visitor selected fuel search = some final) :
    ∃ otherFinal, run second direction otherVisitor otherSelected fuel other = some otherFinal ∧
      names.Follows agree final otherFinal := by
  induction fuel generalizing search other with
  | zero => cases ran
  | succ fuel ih =>
      rw [run] at ran
      cases stepped : step first direction visitor selected search with
      | none =>
          rw [stepped] at ran
          cases ran
          have ended : step second direction otherVisitor otherSelected other = none := by
            rw [step_eq_none] at stepped ⊢
            rw [follows.visitStack, stepped, onStack, List.map_nil]
          exact ⟨other, by rw [run, ended], follows⟩
      | some next =>
          rw [stepped] at ran
          obtain ⟨otherNext, otherStepped, later⟩ := step_renamed agrees selects follows stepped
          obtain ⟨otherFinal, otherRan, ended⟩ := ih later ran
          exact ⟨otherFinal, by rw [run, otherStepped]; exact otherRan, ended⟩

/-- The visitors of two searches from one node agree in the end. -/
theorem traverse_renamed (agrees : names.VisitorsAgree agree visitor otherVisitor)
    (selects : ∀ edge ∈ first.edges, otherSelected (names.onEdge edge) = selected edge)
    {view : View} {otherView : OtherView} (viewsAgree : agree view otherView) {start : Node}
    (startMem : start ∈ first.nodes) :
    ∃ ended otherEnded,
      (traverse first direction visitor selected view start).map DepthFirstSearch.visitor =
        some ended ∧
      (traverse second direction otherVisitor otherSelected otherView (names.onNode start)).map
        DepthFirstSearch.visitor = some otherEnded ∧
      agree ended otherEnded := by
  obtain ⟨final, ran, _⟩ := @traverse_spec _ _ _ _ first direction visitor selected
    (fun _ => True) start view trivial fun _ _ _ _ _ => trivial
  obtain ⟨other, otherRan, _⟩ := @traverse_spec _ _ _ _ second direction otherVisitor otherSelected
    (fun _ => True) (names.onNode start) otherView trivial fun _ _ _ _ _ => trivial
  have starts : names.Follows agree (setup first direction visitor view start)
      (setup second direction otherVisitor otherView (names.onNode start)) := by
    refine ⟨agrees.visitNode start startMem _ _ viewsAgree, rfl, ?_, ?_, ?_⟩
    · simp [setup, onStack, names.edgesOf start startMem]
    · simpa [setup] using startMem
    · simpa [setup] using fun edge (edgeMem : edge ∈ first.edgesOf direction start) =>
        mem_edges_of_edgesOf edgeMem
  obtain ⟨otherFinal, again, follows⟩ := run_renamed agrees selects starts ran
  obtain rfl := run_unique again otherRan
  exact ⟨final.visitor, otherFinal.visitor, by rw [ran]; rfl, by rw [otherRan]; rfl, follows.visitor⟩

variable (names) in
/-- The nodes that a search collects, in their order. -/
theorem collect_renamed
    (selects : ∀ edge ∈ first.edges, otherSelected (names.onEdge edge) = selected edge)
    {start : Node} (startMem : start ∈ first.nodes) :
    (traverse second direction CollectVisitor otherSelected [] (names.onNode start)).map
        DepthFirstSearch.visitor =
      ((traverse first direction CollectVisitor selected [] start).map
        DepthFirstSearch.visitor).map (List.map names.onNode) := by
  have agrees : names.VisitorsAgree (fun nodes others => others = nodes.map names.onNode)
      CollectVisitor CollectVisitor := by
    refine ⟨fun _ _ _ _ same => same, ?_, fun _ _ _ _ same => same, fun _ _ same => same⟩
    rintro node _ nodes _ rfl
    simp [CollectVisitor]
  obtain ⟨collected, _, found, otherFound, rfl⟩ := traverse_renamed agrees selects
    (show ([] : List Other) = [].map names.onNode from rfl) startMem
  rw [found, otherFound, Option.map_some]

end DepthFirstSearch

/-! ## Paths -/

namespace PathFinder

variable {first : DirectedGraph Node Edge} {second : DirectedGraph Other OtherEdge}
  (names : Renaming first second .forward)

/-- The map with the names of the second graph. -/
def onMap (traversalMap : TraversalMap Node) : TraversalMap Other :=
  traversalMap.map fun entry => (names.onNode entry.1, names.onNode entry.2)

/-- The map is about nodes of the graph. -/
def MapInside (graph : DirectedGraph Node Edge) (traversalMap : TraversalMap Node) : Prop :=
  ∀ entry ∈ traversalMap, entry.1 ∈ graph.nodes ∧ entry.2 ∈ graph.nodes

variable {names}

theorem parent_mem {traversalMap : TraversalMap Node} (inside : MapInside first traversalMap)
    {node before : Node} (recorded : traversalMap.parent node = some before) :
    before ∈ first.nodes := by
  obtain ⟨entry, found, rfl⟩ := Option.map_eq_some_iff.mp recorded
  exact (inside entry (List.mem_of_find?_eq_some found)).2

theorem parent_onMap {traversalMap : TraversalMap Node} (inside : MapInside first traversalMap)
    {node : Node} (member : node ∈ first.nodes) :
    (onMap names traversalMap).parent (names.onNode node) =
      (traversalMap.parent node).map names.onNode := by
  induction traversalMap with
  | nil => rfl
  | cons entry rest ih =>
      obtain ⟨⟨keyIn, _⟩, restIn⟩ := List.forall_mem_cons.mp inside
      have same : names.onNode entry.1 = names.onNode node ↔ entry.1 = node :=
        ⟨fun equal => names.injective keyIn member equal, congrArg names.onNode⟩
      rw [onMap, List.map_cons, TraversalMap.parent_cons, TraversalMap.parent_cons]
      by_cases equal : entry.1 = node
      · rw [if_pos equal, if_pos (same.mpr equal), Option.map_some]
      · rw [if_neg equal, if_neg (mt same.mp equal)]
        exact ih restIn

theorem walkBack_onMap {traversalMap : TraversalMap Node} (inside : MapInside first traversalMap)
    {startNode node : Node} (startMem : startNode ∈ first.nodes) (member : node ∈ first.nodes)
    (fuel : Nat) :
    walkBack (onMap names traversalMap) (names.onNode startNode) fuel (names.onNode node) =
      (walkBack traversalMap startNode fuel node).map (List.map names.onNode) := by
  induction fuel generalizing node with
  | zero => rfl
  | succ fuel ih =>
      rw [walkBack, walkBack, parent_onMap inside member]
      cases recorded : traversalMap.parent node with
      | none => rfl
      | some before =>
          have beforeMem := parent_mem inside recorded
          have same : names.onNode before = names.onNode startNode ↔ before = startNode :=
            ⟨fun equal => names.injective beforeMem startMem equal, congrArg names.onNode⟩
          rw [Option.map_some]
          dsimp only
          by_cases ends : before = startNode
          · rw [if_pos ends, if_pos (same.mpr ends)]
            rfl
          · rw [if_neg ends, if_neg (mt same.mp ends), ih beforeMem, Option.map_map, Option.map_map]
            rfl

theorem buildPath_onMap {traversalMap : TraversalMap Node} (inside : MapInside first traversalMap)
    {startNode endNode : Node} (startMem : startNode ∈ first.nodes)
    (endMem : endNode ∈ first.nodes) :
    buildPath (onMap names traversalMap) (names.onNode startNode) (names.onNode endNode) =
      (buildPath traversalMap startNode endNode).map (List.map names.onNode) := by
  have same : names.onNode startNode = names.onNode endNode ↔ startNode = endNode :=
    ⟨fun equal => names.injective startMem endMem equal, congrArg names.onNode⟩
  have length : (onMap names traversalMap).length = traversalMap.length := List.length_map ..
  rw [buildPath, buildPath, parent_onMap inside endMem, length,
    walkBack_onMap inside startMem endMem]
  cases traversalMap.parent endNode with
  | none => rfl
  | some before =>
      simp only [Option.map_some, reduceCtorEq, if_false]
      by_cases equal : startNode = endNode
      · rw [if_pos equal, if_pos (same.mpr equal), Option.map_some, List.map_cons, List.map_nil]
      · rw [if_neg equal, if_neg (mt same.mp equal), Option.map_map, Option.map_map]
        congr 1
        funext nodes
        simp only [Function.comp_apply, List.map_reverse, List.map_cons]

theorem findPath_eq (graph : DirectedGraph Node Edge) (selected : Edge → Bool)
    (startNode endNode : Node) : findPath graph selected startNode endNode =
      ((DepthFirstSearch.traverse graph .forward (callbacks graph) selected (some [])
        startNode).map DepthFirstSearch.visitor).bind fun visitor =>
          visitor.bind fun traversalMap => buildPath traversalMap startNode endNode := by
  rw [Option.bind_map]
  rfl

variable (names) in
/-- The path between renamed nodes is the renamed path. -/
theorem findPath_renamed {selected : Edge → Bool} {otherSelected : OtherEdge → Bool}
    (selects : ∀ edge ∈ first.edges, otherSelected (names.onEdge edge) = selected edge)
    {startNode endNode : Node} (startMem : startNode ∈ first.nodes)
    (endMem : endNode ∈ first.nodes) :
    findPath second otherSelected (names.onNode startNode) (names.onNode endNode) =
      (findPath first selected startNode endNode).map (List.map names.onNode) := by
  have agrees : names.VisitorsAgree (fun traversalMap other =>
      other = traversalMap.map (onMap names) ∧
        ∀ entries, traversalMap = some entries → MapInside first entries)
      (callbacks first) (callbacks second) := by
    refine ⟨fun _ _ _ _ same => same, fun _ _ _ _ same => same, ?_, fun _ _ same => same⟩
    rintro edge edgeMem traversalMap _ ⟨rfl, inside⟩
    cases traversalMap with
    | none => exact ⟨rfl, by rintro _ ⟨⟩⟩
    | some entries =>
        have entriesIn := inside entries rfl
        have targetMem := first.target_mem edge edgeMem
        simp only [callbacks, Option.map_some, Option.bind_some, visitEdge, names.target edge edgeMem,
          names.source edge edgeMem, parent_onMap entriesIn targetMem, Option.map_eq_none_iff]
        split
        · refine ⟨rfl, fun _ given => ?_⟩
          obtain rfl := Option.some.inj given
          exact List.forall_mem_cons.mpr
            ⟨⟨targetMem, first.source_mem edge edgeMem⟩, entriesIn⟩
        · exact ⟨rfl, by rintro _ ⟨⟩⟩
  have empty : (some [] : Option (TraversalMap Other)) =
      (some [] : Option (TraversalMap Node)).map (onMap names) ∧
        ∀ entries, some [] = some entries → MapInside first entries :=
    ⟨rfl, by rintro _ ⟨⟩; simp [MapInside]⟩
  obtain ⟨ended, _, found, otherFound, rfl, inside⟩ :=
    DepthFirstSearch.traverse_renamed agrees selects empty startMem
  rw [findPath_eq, findPath_eq, found, otherFound, Option.bind_some, Option.bind_some]
  cases ended with
  | none => rfl
  | some entries => exact buildPath_onMap (inside entries rfl) startMem endMem

end PathFinder

/-! ## Cycles -/

namespace CycleDetector

open CycleDetectionVisitor

variable {first : DirectedGraph Node Edge} {second : DirectedGraph Other OtherEdge}
  {names : Renaming first second .forward} {ID : Node → Nat} {otherID : Other → Nat}

/-- Lists of nodes of the graph. -/
def Inside (graph : DirectedGraph Node Edge) : Set (List Node) :=
  {nodes | ∀ node ∈ nodes, node ∈ graph.nodes}

theorem injOn_lists (names : Renaming first second .forward) :
    Set.InjOn (List.map names.onNode) (Inside first) := by
  intro nodes inside others othersInside same
  induction nodes generalizing others with
  | nil => exact (List.map_eq_nil_iff.mp same.symm).symm
  | cons head rest ih =>
      obtain ⟨headIn, restIn⟩ := List.forall_mem_cons.mp inside
      cases others with
      | nil => cases same
      | cons other others =>
          obtain ⟨otherIn, othersIn⟩ := List.forall_mem_cons.mp othersInside
          rw [List.map_cons, List.map_cons, List.cons.injEq] at same
          rw [names.injective headIn otherIn same.1, ih restIn othersIn same.2]

/-- The cycle starts at the node of the same ID. -/
theorem canonicalise_renamed (ids : ∀ node ∈ first.nodes, otherID (names.onNode node) = ID node)
    {nodes : List Node} (inside : nodes ∈ Inside first) :
    canonicalise otherID (nodes.map names.onNode) = (canonicalise ID nodes).map names.onNode := by
  have lowest : ∀ node ∈ nodes,
      ((nodes.map names.onNode).all fun other => otherID (names.onNode node) ≤ otherID other) =
        nodes.all fun other => ID node ≤ ID other := by
    intro node member
    rw [List.all_map, Bool.eq_iff_iff, List.all_eq_true, List.all_eq_true]
    refine forall₂_congr fun other otherMem => ?_
    rw [Function.comp_apply, ids node (inside node member), ids other (inside other otherMem)]
  rw [canonicalise, canonicalise, List.map_rotate, List.findIdx_map]
  congr 1
  exact findIdx_congr lowest

/-- What the visitors of two searches have in common. -/
structure VisitorsMatch (names : Renaming first second .forward)
    (visitor : CycleDetectionVisitor Node) (other : CycleDetectionVisitor Other) : Prop where
  recursionStack : other.recursionStack = visitor.recursionStack.map names.onNode
  cycles : other.cycles = visitor.cycles.map (List.map names.onNode)
  stackInside : visitor.recursionStack ∈ Inside first
  cyclesInside : ∀ cycle ∈ visitor.cycles, cycle ∈ Inside first

theorem dropWhile_renamed {nodes : List Node} (inside : nodes ∈ Inside first) {node : Node}
    (member : node ∈ first.nodes) :
    (nodes.map names.onNode).dropWhile (· ≠ names.onNode node) =
      (nodes.dropWhile (· ≠ node)).map names.onNode := by
  induction nodes with
  | nil => rfl
  | cons head rest ih =>
      obtain ⟨headIn, restIn⟩ := List.forall_mem_cons.mp inside
      have same : names.onNode head = names.onNode node ↔ head = node :=
        ⟨fun equal => names.injective headIn member equal, congrArg names.onNode⟩
      rw [List.map_cons, List.dropWhile_cons, List.dropWhile_cons]
      by_cases equal : head = node
      · simp [equal]
      · simpa [equal, same] using ih restIn

theorem VisitorsMatch.visitedNode {visitor : CycleDetectionVisitor Node}
    {other : CycleDetectionVisitor Other} (alike : VisitorsMatch names visitor other)
    (ids : ∀ node ∈ first.nodes, otherID (names.onNode node) = ID node) {node : Node}
    (member : node ∈ first.nodes) :
    VisitorsMatch names (CycleDetectionVisitor.visitedNode ID node visitor)
      (CycleDetectionVisitor.visitedNode otherID (names.onNode node) other) := by
  obtain ⟨stack, cycles⟩ := other
  obtain ⟨rfl, rfl, stackInside, cyclesInside⟩ := alike
  unfold CycleDetectionVisitor.visitedNode
  rw [dropWhile_renamed stackInside member]
  cases closed : visitor.recursionStack.dropWhile (· ≠ node) with
  | nil => exact ⟨rfl, rfl, stackInside, cyclesInside⟩
  | cons head rest =>
      have inside : head :: rest ∈ Inside first := fun other otherMem =>
        stackInside other ((List.dropWhile_sublist _).subset (closed ▸ otherMem))
      refine ⟨rfl, ?_, stackInside, fun cycle cycleMem => ?_⟩
      · have renamed := canonicalise_renamed ids inside
        rw [List.map_cons] at renamed ⊢
        simp only [renamed, List.map_append, List.map_cons, List.map_nil]
      · rcases List.mem_append.mp cycleMem with old | new
        · exact cyclesInside cycle old
        · obtain rfl := List.mem_singleton.mp new
          exact fun other otherMem => inside other (List.mem_rotate.mp otherMem)

theorem visitorsAgree (ids : ∀ node ∈ first.nodes, otherID (names.onNode node) = ID node) :
    names.VisitorsAgree (VisitorsMatch names) (callbacks ID) (callbacks otherID) where
  visitedNode _ member _ _ agree := agree.visitedNode ids member
  visitNode node member visitor other agree := by
    obtain ⟨stack, cycles⟩ := other
    obtain ⟨rfl, rfl, stackInside, cyclesInside⟩ := agree
    refine ⟨by simp [callbacks], rfl, fun other otherMem => ?_, cyclesInside⟩
    rcases List.mem_append.mp otherMem with old | new
    · exact stackInside other old
    · exact List.mem_singleton.mp new ▸ member
  visitEdge _ _ _ _ agree := agree
  popNode visitor other agree := by
    obtain ⟨stack, cycles⟩ := other
    obtain ⟨rfl, rfl, stackInside, cyclesInside⟩ := agree
    exact ⟨by simp [callbacks, List.map_dropLast], rfl,
      fun other otherMem => stackInside other (List.mem_of_mem_dropLast otherMem), cyclesInside⟩

/-- What two detectors have in common. -/
structure DetectorsMatch (names : Renaming first second .forward) (detector : CycleDetector Node)
    (other : CycleDetector Other) : Prop where
  visitedNodes : other.visitedNodes = detector.visitedNodes.map names.onNode
  cycles : other.cycles = detector.cycles.map (List.map names.onNode)
  visitedInside : detector.visitedNodes ∈ Inside first
  cyclesInside : ∀ cycle ∈ detector.cycles, cycle ∈ Inside first

variable {selected : Edge → Bool} {otherSelected : OtherEdge → Bool}

theorem detectFrom_eq (graph : DirectedGraph Node Edge) (selected : Edge → Bool) (ID : Node → Nat)
    (detector : CycleDetector Node) (startNode : Node) :
    detectFrom graph selected ID detector startNode =
      if startNode ∈ detector.visitedNodes then some detector
      else ((DepthFirstSearch.traverse graph .forward (callbacks ID) selected {} startNode).map
        DepthFirstSearch.visitor).map fun visitor => {
          visitedNodes := visitor.cycles.flatten ++ startNode :: detector.visitedNodes
          cycles := visitor.cycles ∪ detector.cycles } := by
  rw [Option.map_map]
  rfl

theorem DetectorsMatch.detectFrom {detector : CycleDetector Node} {other : CycleDetector Other}
    (alike : DetectorsMatch names detector other)
    (ids : ∀ node ∈ first.nodes, otherID (names.onNode node) = ID node)
    (selects : ∀ edge ∈ first.edges, otherSelected (names.onEdge edge) = selected edge)
    {startNode : Node} (startMem : startNode ∈ first.nodes) :
    ∃ next otherNext, CycleDetector.detectFrom first selected ID detector startNode = some next ∧
      CycleDetector.detectFrom second otherSelected otherID other (names.onNode startNode) =
        some otherNext ∧
      DetectorsMatch names next otherNext := by
  obtain ⟨visitedNodes, cycles⟩ := other
  obtain ⟨rfl, rfl, visitedInside, cyclesInside⟩ := alike
  have marked := mem_map_of_injOn names.injective visitedInside startMem
  rw [detectFrom_eq, detectFrom_eq]
  by_cases old : startNode ∈ detector.visitedNodes
  · exact ⟨_, _, if_pos old, if_pos (marked.mpr old), rfl, rfl, visitedInside, cyclesInside⟩
  · obtain ⟨ended, ⟨stack, found⟩, ran, otherRan, ⟨_, rfl, _, foundInside⟩⟩ :=
      DepthFirstSearch.traverse_renamed (visitorsAgree ids) selects
        (show VisitorsMatch names {} {} from
          ⟨rfl, rfl, by simp [Inside], by simp⟩) startMem
    rw [if_neg old, if_neg (mt marked.mp old), ran, otherRan]
    refine ⟨_, _, rfl, rfl, ?_, ?_, ?_, ?_⟩
    · simp [List.map_flatten]
    · exact union_map (injOn_lists names) foundInside cyclesInside
    · intro node member
      rcases List.mem_append.mp member with inCycle | rest
      · obtain ⟨cycle, cycleMem, nodeMem⟩ := List.mem_flatten.mp inCycle
        exact foundInside cycle cycleMem node nodeMem
      · exact (List.forall_mem_cons (p := (· ∈ first.nodes))).mpr ⟨startMem, visitedInside⟩ node rest
    · exact fun cycle member =>
        (List.mem_union_iff.mp member).elim (foundInside cycle) (cyclesInside cycle)

theorem DetectorsMatch.detectAll {nodes : List Node} (inside : nodes ∈ Inside first)
    {detector : CycleDetector Node} {other : CycleDetector Other}
    (alike : DetectorsMatch names detector other)
    (ids : ∀ node ∈ first.nodes, otherID (names.onNode node) = ID node)
    (selects : ∀ edge ∈ first.edges, otherSelected (names.onEdge edge) = selected edge) :
    ∃ final otherFinal,
      nodes.foldlM (CycleDetector.detectFrom first selected ID) detector = some final ∧
      (nodes.map names.onNode).foldlM (CycleDetector.detectFrom second otherSelected otherID) other =
        some otherFinal ∧
      DetectorsMatch names final otherFinal := by
  induction nodes generalizing detector other with
  | nil => exact ⟨detector, other, rfl, rfl, alike⟩
  | cons node rest ih =>
      obtain ⟨nodeIn, restIn⟩ := List.forall_mem_cons.mp inside
      obtain ⟨next, otherNext, moved, otherMoved, later⟩ := alike.detectFrom ids selects nodeIn
      obtain ⟨final, otherFinal, ran, otherRan, ended⟩ := ih restIn later
      refine ⟨final, otherFinal, ?_, ?_, ended⟩
      · rw [List.foldlM_cons, moved]
        exact ran
      · rw [List.map_cons, List.foldlM_cons, otherMoved]
        exact otherRan

variable (names) in
/-- The cycles of the second graph are the renamed cycles, in the same order. -/
theorem detectCycles_renamed (nodes : second.nodes = first.nodes.map names.onNode)
    (ids : ∀ node ∈ first.nodes, otherID (names.onNode node) = ID node)
    (selects : ∀ edge ∈ first.edges, otherSelected (names.onEdge edge) = selected edge) :
    detectCycles second otherSelected otherID =
      (detectCycles first selected ID).map (List.map (List.map names.onNode)) := by
  obtain ⟨final, ⟨_, _⟩, ran, otherRan, ⟨rfl, rfl, _, inside⟩⟩ :=
    DetectorsMatch.detectAll (fun _ member => member)
      (show DetectorsMatch names {} {} from ⟨rfl, rfl, by simp [Inside], by simp⟩) ids selects
  rw [detectCycles, detectCycles, nodes, ran, otherRan, Option.map_some, Option.map_some,
    Option.map_some]
  congr 1
  refine (List.map_mergeSort fun cycle cycleMem other otherMem => ?_).symm
  have sameIDs : ∀ cycle ∈ final.cycles, (cycle.map names.onNode).map otherID = cycle.map ID := by
    intro cycle cycleMem
    rw [List.map_map]
    exact List.map_congr_left fun node member => ids node (inside cycle cycleMem node member)
  rw [byNodeId, byNodeId, sameIDs cycle cycleMem, sameIDs other otherMem]

end CycleDetector

end SlangNetlist
