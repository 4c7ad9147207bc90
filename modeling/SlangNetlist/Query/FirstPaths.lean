import SlangNetlist.Library.FirstPath
import SlangNetlist.Query.DepthFirstSearch

/-!
# The paths of a search

The stack of a depth-first search holds the first path from the start to each
of its nodes, and every visited node was on the stack when it was visited.
-/

namespace SlangNetlist

open Library

namespace DirectedGraph

variable {Node Edge : Type} [DecidableEq Node] (graph : DirectedGraph Node Edge)

/-- The nodes that selected edges lead to, in the order of the edges. -/
def successors (direction : Direction) (selected : Edge → Bool) (node : Node) : List Node :=
  ((graph.edgesOf direction node).filter selected).map (graph.nextNode direction)

variable {graph} {direction : Direction} {selected : Edge → Bool}

theorem mem_successors {node next : Node} :
    next ∈ graph.successors direction selected node ↔ graph.Joined direction selected node next := by
  simp [successors, Joined, and_assoc]

theorem isChain_of_firstPath {start finish : Node} {path : List Node}
    (first : FirstPath (graph.successors direction selected) start finish path) :
    path.IsChain (graph.Joined direction selected) :=
  first.isChain.imp fun _ _ => mem_successors.mp

theorem reachable_of_firstPath {start finish : Node} {path : List Node}
    (first : FirstPath (graph.successors direction selected) start finish path) :
    graph.Reachable direction selected start finish := by
  obtain ⟨rest, rfl⟩ := List.head?_eq_some_iff.mp first.head
  exact List.relationReflTransGen_of_exists_isChain_cons rest (isChain_of_firstPath first)
    (List.getLast_of_getLast?_eq_some first.last)

end DirectedGraph

namespace DepthFirstSearch

variable {Node Edge View : Type} [DecidableEq Node] {graph : DirectedGraph Node Edge}
  {direction : Direction} {visitor : Visitor Node Edge View} {selected : Edge → Bool}

/-- The nodes of the stack, the top first. -/
def stackNodes (search : DepthFirstSearch Node Edge View) : List Node :=
  search.visitStack.map Prod.fst

/-- What the search knows of the first paths, between any two steps. -/
structure Tracing (graph : DirectedGraph Node Edge) (direction : Direction)
    (selected : Edge → Bool) (start : Node) (search : DepthFirstSearch Node Edge View) : Prop where
  /-- The edges that were looked at lead to visited nodes. -/
  looked : ∀ frame ∈ search.visitStack, ∃ behind,
    graph.edgesOf direction frame.1 = behind ++ frame.2 ∧
      ∀ edge ∈ behind, selected edge = true → graph.nextNode direction edge ∈ search.visitedNodes
  settled : Settled (graph.successors direction selected) search.visitedNodes search.stackNodes
  onStack : ∀ above node below, search.stackNodes = above ++ node :: below →
    FirstPath (graph.successors direction selected) start node (node :: below).reverse
  traced : ∀ node ∈ search.visitedNodes, ∃ path,
    FirstPath (graph.successors direction selected) start node path

theorem tracing_setup (view : View) (start : Node) :
    Tracing graph direction selected start (setup graph direction visitor view start) where
  looked := by
    intro frame member
    obtain rfl : frame = (start, graph.edgesOf direction start) := by simpa [setup] using member
    exact ⟨[], by simp⟩
  settled := trivial
  onStack := by
    intro above node below split
    cases above with
    | nil =>
        obtain ⟨rfl, rfl⟩ := List.cons.inj split
        exact FirstPath.singleton _ start
    | cons head above =>
        have empty := (List.cons.inj split).2
        simp at empty
  traced := by
    intro node member
    obtain rfl : node = start := by simpa [setup] using member
    exact ⟨[node], FirstPath.singleton _ node⟩

/-- From a visited node the search has visited what can be reached around its stack. -/
theorem Searching.visited_of_avoiding {start node reached : Node}
    {search : DepthFirstSearch Node Edge View}
    (searching : Searching graph direction selected start search)
    (visited : node ∈ search.visitedNodes)
    (reaches : ReachesAvoiding (graph.successors direction selected) search.stackNodes node
      reached) : reached ∈ search.visitedNodes := by
  obtain ⟨apart, walk⟩ := reaches
  have both : reached ∈ search.visitedNodes ∧ reached ∉ search.stackNodes := by
    induction walk with
    | refl => exact ⟨visited, apart⟩
    | tail _ step ih =>
        obtain ⟨edge, member, followed, rfl⟩ := DirectedGraph.mem_successors.mp step.1
        rcases searching.explored _ ih.1 edge member followed with done | ⟨rest, frame, _⟩
        · exact ⟨done, step.2⟩
        · exact absurd (List.mem_map_of_mem frame) ih.2
  exact both.1

/-- The edges behind the top frame and the edge on top of it lead where the search turned. -/
theorem successors_of_looked {node : Node} {edge : Edge} {behind rest : List Edge}
    (edges : graph.edgesOf direction node = behind ++ edge :: rest) (followed : selected edge = true) :
    graph.successors direction selected node =
      (behind.filter selected).map (graph.nextNode direction) ++
        graph.nextNode direction edge :: (rest.filter selected).map (graph.nextNode direction) := by
  simp [DirectedGraph.successors, edges, followed]

/-- A step that keeps the nodes of the stack, or drops the top. -/
theorem Tracing.of_drop {start : Node} {search next : DepthFirstSearch Node Edge View}
    (tracing : Tracing graph direction selected start search)
    (same : next.visitedNodes = search.visitedNodes)
    (looked : ∀ frame ∈ next.visitStack, ∃ behind,
      graph.edgesOf direction frame.1 = behind ++ frame.2 ∧
        ∀ edge ∈ behind, selected edge = true → graph.nextNode direction edge ∈ next.visitedNodes)
    (dropped : List Node) (nodes : search.stackNodes = dropped ++ next.stackNodes) :
    Tracing graph direction selected start next where
  looked := looked
  settled := by
    have settled := tracing.settled
    rw [nodes] at settled
    rw [same]
    exact settled.of_append
  onStack above node below split := by
    refine tracing.onStack (dropped ++ above) node below ?_
    rw [nodes, split, List.append_assoc]
  traced := by
    rw [same]
    exact tracing.traced

/-- Dropping an edge of the top that leads to a visited node, or nowhere. -/
theorem Tracing.advance {start node : Node} {edge : Edge} {rest : List Edge}
    {below : List (Node × List Edge)} {search : DepthFirstSearch Node Edge View}
    (tracing : Tracing graph direction selected start search)
    (stack : search.visitStack = (node, edge :: rest) :: below)
    (settled : selected edge = true → graph.nextNode direction edge ∈ search.visitedNodes)
    (view : View) :
    Tracing graph direction selected start
      { search with visitStack := (node, rest) :: below, visitor := view } := by
  refine tracing.of_drop rfl ?_ [] (by simp [stackNodes, stack])
  rintro frame (_ | ⟨_, member⟩)
  · obtain ⟨behind, edges, visited⟩ := tracing.looked (node, edge :: rest) (by simp [stack])
    refine ⟨behind ++ [edge], by simpa using edges, fun other member followed => ?_⟩
    rcases List.mem_append.mp member with old | new
    · exact visited other old followed
    · obtain rfl := List.mem_singleton.mp new
      exact settled followed
  · exact tracing.looked frame (stack ▸ List.mem_cons_of_mem _ member)

/-- Pushing the node that the edge on top leads to. -/
theorem Tracing.push {start node : Node} {edge : Edge} {rest : List Edge}
    {below : List (Node × List Edge)} {search : DepthFirstSearch Node Edge View}
    (searching : Searching graph direction selected start search)
    (tracing : Tracing graph direction selected start search)
    (stack : search.visitStack = (node, edge :: rest) :: below) (followed : selected edge = true)
    (unvisited : graph.nextNode direction edge ∉ search.visitedNodes) (view : View) :
    Tracing graph direction selected start {
      visitStack := (graph.nextNode direction edge,
          graph.edgesOf direction (graph.nextNode direction edge)) :: (node, rest) :: below
      visitedNodes := graph.nextNode direction edge :: search.visitedNodes
      visitor := view } := by
  have nodes : search.stackNodes = node :: below.map Prod.fst := by simp [stackNodes, stack]
  obtain ⟨behind, edges, visited⟩ := tracing.looked (node, edge :: rest) (by simp [stack])
  have extended : Settled (graph.successors direction selected) search.visitedNodes
      (graph.nextNode direction edge :: search.stackNodes) := by
    rw [nodes]
    refine ⟨⟨_, _, successors_of_looked edges followed, fun earlier member reached reaches => ?_⟩,
      nodes ▸ tracing.settled⟩
    obtain ⟨other, otherMem, rfl⟩ := List.mem_map.mp member
    obtain ⟨inBehind, otherFollowed⟩ := List.mem_filter.mp otherMem
    exact searching.visited_of_avoiding (visited other inBehind otherFollowed) (nodes ▸ reaches)
  have distinct : (graph.nextNode direction edge :: search.stackNodes).Nodup := by
    refine List.nodup_cons.mpr ⟨fun member => unvisited ?_, searching.nodup⟩
    obtain ⟨frame, frameMem, same⟩ := List.mem_map.mp member
    exact same ▸ searching.visited frame frameMem
  have bottom : (graph.nextNode direction edge :: search.stackNodes).getLast? = some start := by
    rw [nodes, List.getLast?_cons_cons, ← nodes]
    exact searching.bottom (by simp [stack])
  have first := extended.firstPath unvisited distinct bottom
  refine ⟨?_, ?_, ?_, ?_⟩
  · rintro frame (_ | ⟨_, _ | ⟨_, member⟩⟩)
    · exact ⟨[], by simp⟩
    · refine ⟨behind ++ [edge], by simpa using edges, fun other member otherFollowed => ?_⟩
      rcases List.mem_append.mp member with old | new
      · exact List.mem_cons_of_mem _ (visited other old otherFollowed)
      · obtain rfl := List.mem_singleton.mp new
        exact List.mem_cons_self
    · obtain ⟨before, split, others⟩ :=
        tracing.looked frame (stack ▸ List.mem_cons_of_mem _ member)
      exact ⟨before, split, fun other inside otherFollowed =>
        List.mem_cons_of_mem _ (others other inside otherFollowed)⟩
  · rw [nodes] at extended
    exact extended.mono fun _ => List.mem_cons_of_mem _
  · intro above top lower split
    replace split : graph.nextNode direction edge :: search.stackNodes = above ++ top :: lower := by
      rw [nodes]
      exact split
    cases above with
    | nil =>
        obtain ⟨rfl, rfl⟩ := List.cons.inj split
        exact first
    | cons head above => exact tracing.onStack above top lower (List.cons.inj split).2
  · rintro other (_ | ⟨_, member⟩)
    · exact ⟨_, first⟩
    · exact tracing.traced other member

/-- Every step keeps what the search knows of the first paths. -/
theorem Tracing.step {start : Node} {search next : DepthFirstSearch Node Edge View}
    (searching : Searching graph direction selected start search)
    (tracing : Tracing graph direction selected start search)
    (stepped : step graph direction visitor selected search = some next) :
    Tracing graph direction selected start next := by
  rcases step_cases stepped with ⟨node, below, stack, rfl⟩ | ⟨node, edge, rest, below, stack,
    ⟨skipped, rfl⟩ | ⟨followed, visited, rfl⟩ | ⟨followed, fresh, rfl⟩⟩
  · refine tracing.of_drop rfl (fun frame member => ?_) [node] (by simp [stackNodes, stack])
    exact tracing.looked frame (by simp [stack, member])
  · exact tracing.advance stack (by simp [skipped]) _
  · exact tracing.advance stack (fun _ => visited) _
  · exact tracing.push searching stack followed fresh _

end DepthFirstSearch

end SlangNetlist
