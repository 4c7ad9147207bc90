import Mathlib.Algebra.Order.BigOperators.Group.List
import Mathlib.Algebra.Order.Ring.Nat
import Mathlib.Data.List.Chain
import Mathlib.Data.List.Nodup
import Mathlib.Logic.Relation
import Mathlib.Tactic.Common

/-!
# Depth-first search

The search of `DepthFirstSearch.hpp` with an explicit stack of nodes and of
the edges of each that are not yet looked at.  A node is on the stack while
its descendants are searched, and the visitor sees every event.
-/

namespace SlangNetlist

/-- The direction in which a search follows edges. -/
inductive Direction where
  | forward
  | backward
  deriving DecidableEq, Repr

/-- A directed graph, whose edges join nodes of the graph. -/
structure DirectedGraph (Node Edge : Type) where
  nodes : List Node
  edges : List Edge
  source : Edge → Node
  target : Edge → Node
  source_mem : ∀ edge ∈ edges, source edge ∈ nodes
  target_mem : ∀ edge ∈ edges, target edge ∈ nodes

namespace DirectedGraph

variable {Node Edge : Type} [DecidableEq Node] (graph : DirectedGraph Node Edge)

/-- `edgeBegin` to `edgeEnd`: the out-edges or the in-edges of a node. -/
def edgesOf : Direction → Node → List Edge
  | .forward, node => graph.edges.filter fun edge => graph.source edge = node
  | .backward, node => graph.edges.filter fun edge => graph.target edge = node

omit [DecidableEq Node] in
/-- `nextNode`: the node that an edge leads to. -/
def nextNode : Direction → Edge → Node
  | .forward => graph.target
  | .backward => graph.source

/-- A selected edge leads from one node to the other. -/
def Joined (direction : Direction) (selected : Edge → Bool) (node next : Node) : Prop :=
  ∃ edge ∈ graph.edgesOf direction node, selected edge = true ∧
    graph.nextNode direction edge = next

/-- The nodes that selected edges lead to. -/
abbrev Reachable (direction : Direction) (selected : Edge → Bool) : Node → Node → Prop :=
  Relation.ReflTransGen (graph.Joined direction selected)

variable {graph} {direction : Direction} {selected : Edge → Bool}

theorem mem_of_edgesOf {node : Node} {edge : Edge} (member : edge ∈ graph.edgesOf direction node) :
    node ∈ graph.nodes ∧ graph.nextNode direction edge ∈ graph.nodes := by
  cases direction with
  | forward =>
      simp only [edgesOf, List.mem_filter, decide_eq_true_eq] at member
      obtain ⟨member, rfl⟩ := member
      exact ⟨graph.source_mem edge member, graph.target_mem edge member⟩
  | backward =>
      simp only [edgesOf, List.mem_filter, decide_eq_true_eq] at member
      obtain ⟨member, rfl⟩ := member
      exact ⟨graph.target_mem edge member, graph.source_mem edge member⟩

theorem Joined.mem {node next : Node} (joined : graph.Joined direction selected node next) :
    node ∈ graph.nodes ∧ next ∈ graph.nodes := by
  obtain ⟨edge, member, _, rfl⟩ := joined
  exact mem_of_edgesOf member

theorem Reachable.mem {start node : Node} (start_mem : start ∈ graph.nodes)
    (reachable : graph.Reachable direction selected start node) : node ∈ graph.nodes := by
  induction reachable with
  | refl => exact start_mem
  | tail _ joined _ => exact joined.mem.2

end DirectedGraph

/-- The events that a search reports, as changes of the visitor. -/
structure Visitor (Node Edge View : Type) where
  visitedNode : Node → View → View
  visitNode : Node → View → View
  visitEdge : Edge → View → View
  popNode : View → View

/-- The members of a search: the top of the stack is the first of the list. -/
structure DepthFirstSearch (Node Edge View : Type) where
  visitor : View
  visitedNodes : List Node := []
  visitStack : List (Node × List Edge) := []

namespace DepthFirstSearch

variable {Node Edge View : Type} [DecidableEq Node]

section Definitions

variable (graph : DirectedGraph Node Edge) (direction : Direction)
  (visitor : Visitor Node Edge View) (selected : Edge → Bool)

/-- Begin at a node. -/
def setup (view : View) (start : Node) : DepthFirstSearch Node Edge View where
  visitor := visitor.visitNode start view
  visitedNodes := [start]
  visitStack := [(start, graph.edgesOf direction start)]

/-- Look at the next edge of the top of the stack, or pop the top. -/
def step (search : DepthFirstSearch Node Edge View) : Option (DepthFirstSearch Node Edge View) :=
  match search.visitStack with
  | [] => none
  | (_, []) :: below =>
      some { search with visitStack := below, visitor := visitor.popNode search.visitor }
  | (node, edge :: rest) :: below =>
      let target := graph.nextNode direction edge
      if selected edge = false then
        some { search with visitStack := (node, rest) :: below }
      else if target ∈ search.visitedNodes then
        some { search with
          visitStack := (node, rest) :: below
          visitor := visitor.visitedNode target search.visitor }
      else
        some {
          visitStack := (target, graph.edgesOf direction target) :: (node, rest) :: below
          visitedNodes := target :: search.visitedNodes
          visitor := visitor.visitNode target (visitor.visitEdge edge search.visitor) }

/-- Steps until the stack is empty, `none` when the fuel does not suffice. -/
def run : Nat → DepthFirstSearch Node Edge View → Option (DepthFirstSearch Node Edge View)
  | 0, _ => none
  | fuel + 1, search =>
      match step graph direction visitor selected search with
      | none => some search
      | some next => run fuel next

/-- What a node adds to the steps of a search: its edges and its pop. -/
def weight (node : Node) : Nat := (graph.edgesOf direction node).length + 1

/-- The steps left in a search. -/
def workLeft (search : DepthFirstSearch Node Edge View) : Nat :=
  (search.visitStack.map fun frame => frame.2.length + 1).sum +
    ((graph.nodes.filter (· ∉ search.visitedNodes)).map (weight graph direction)).sum

/-- The search that the constructor makes. -/
def traverse (view : View) (start : Node) : Option (DepthFirstSearch Node Edge View) :=
  let search := setup graph direction visitor view start
  run graph direction visitor selected (workLeft graph direction search + 1) search

end Definitions

variable {graph : DirectedGraph Node Edge} {direction : Direction}
  {visitor : Visitor Node Edge View} {selected : Edge → Bool}

/-- The four kinds of steps. -/
theorem step_cases {search next : DepthFirstSearch Node Edge View}
    (stepped : step graph direction visitor selected search = some next) :
    (∃ node below, search.visitStack = (node, []) :: below ∧
      next = { search with
        visitStack := below, visitor := visitor.popNode search.visitor }) ∨
    ∃ node edge rest below, search.visitStack = (node, edge :: rest) :: below ∧
      ((selected edge = false ∧ next = { search with visitStack := (node, rest) :: below }) ∨
      (selected edge = true ∧ graph.nextNode direction edge ∈ search.visitedNodes ∧
        next = { search with
          visitStack := (node, rest) :: below
          visitor := visitor.visitedNode (graph.nextNode direction edge) search.visitor }) ∨
      (selected edge = true ∧ graph.nextNode direction edge ∉ search.visitedNodes ∧
        next = {
          visitStack := (graph.nextNode direction edge,
              graph.edgesOf direction (graph.nextNode direction edge)) :: (node, rest) :: below
          visitedNodes := graph.nextNode direction edge :: search.visitedNodes
          visitor := visitor.visitNode (graph.nextNode direction edge)
            (visitor.visitEdge edge search.visitor) })) := by
  unfold step at stepped
  split at stepped
  · cases stepped
  · next node below stack =>
      cases stepped
      exact Or.inl ⟨node, below, stack, rfl⟩
  · next node edge rest below stack =>
      refine Or.inr ⟨node, edge, rest, below, stack, ?_⟩
      simp only at stepped
      split at stepped
      · next skipped =>
          cases stepped
          exact Or.inl ⟨skipped, rfl⟩
      · next followed =>
          rw [Bool.not_eq_false] at followed
          split at stepped
          · next visited =>
              cases stepped
              exact Or.inr (Or.inl ⟨followed, visited, rfl⟩)
          · next fresh =>
              cases stepped
              exact Or.inr (Or.inr ⟨followed, fresh, rfl⟩)

/-- The search ends where the stack is empty. -/
theorem step_eq_none {search : DepthFirstSearch Node Edge View} :
    step graph direction visitor selected search = none ↔ search.visitStack = [] := by
  unfold step
  split
  · next empty => simp [empty]
  · next stack => simp [stack]
  · next stack =>
      rw [stack]
      dsimp only
      split
      · simp
      · split <;> simp

/-- The search has the edge of the node still to look at. -/
def Ahead (search : DepthFirstSearch Node Edge View) (node : Node) (edge : Edge) : Prop :=
  ∃ rest, (node, rest) ∈ search.visitStack ∧ edge ∈ rest

/-- An edge stays ahead until it is the next one of the top of the stack. -/
theorem Ahead.step {search next : DepthFirstSearch Node Edge View} {node : Node} {edge : Edge}
    (ahead : search.Ahead node edge)
    (stepped : step graph direction visitor selected search = some next) :
    next.Ahead node edge ∨ ∃ rest below, search.visitStack = (node, edge :: rest) :: below := by
  obtain ⟨others, frame, inside⟩ := ahead
  rcases step_cases stepped with ⟨top, below, stack, rfl⟩ | ⟨top, first, rest, below, stack, kinds⟩
  · rw [stack] at frame
    rcases List.mem_cons.mp frame with same | member
    · cases same
      cases inside
    · exact Or.inl ⟨others, member, inside⟩
  · rw [stack] at frame
    have dropped : (∃ left, (node, left) ∈ (top, rest) :: below ∧ edge ∈ left) ∨
        ∃ later lower, search.visitStack = (node, edge :: later) :: lower := by
      rcases List.mem_cons.mp frame with same | member
      · cases same
        rcases List.mem_cons.mp inside with rfl | later
        · exact Or.inr ⟨rest, below, stack⟩
        · exact Or.inl ⟨rest, List.mem_cons_self, later⟩
      · exact Or.inl ⟨others, List.mem_cons_of_mem _ member, inside⟩
    rcases dropped with ⟨left, member, inside⟩ | top
    · rcases kinds with ⟨_, rfl⟩ | ⟨_, _, rfl⟩ | ⟨_, _, rfl⟩
      · exact Or.inl ⟨left, member, inside⟩
      · exact Or.inl ⟨left, member, inside⟩
      · exact Or.inl ⟨left, List.mem_cons_of_mem _ member, inside⟩
    · exact Or.inr top

/-- What holds of every search from a start node, between any two steps. -/
structure Searching (graph : DirectedGraph Node Edge) (direction : Direction)
    (selected : Edge → Bool) (start : Node) (search : DepthFirstSearch Node Edge View) : Prop where
  started : start ∈ search.visitedNodes
  fresh : search.visitedNodes.Nodup
  reachable : ∀ node ∈ search.visitedNodes, graph.Reachable direction selected start node
  remaining : ∀ frame ∈ search.visitStack, frame.2 ⊆ graph.edgesOf direction frame.1
  visited : ∀ frame ∈ search.visitStack, frame.1 ∈ search.visitedNodes
  /-- A node appears once on the stack. -/
  nodup : (search.visitStack.map Prod.fst).Nodup
  /-- The stack is a path from the start to the top. -/
  path : (search.visitStack.map Prod.fst).IsChain fun upper lower =>
    graph.Joined direction selected lower upper
  bottom : search.visitStack ≠ [] → (search.visitStack.map Prod.fst).getLast? = some start
  /-- The selected edges of visited nodes lead to visited nodes or are still ahead. -/
  explored : ∀ node ∈ search.visitedNodes, ∀ edge ∈ graph.edgesOf direction node,
    selected edge = true → graph.nextNode direction edge ∈ search.visitedNodes ∨
      search.Ahead node edge

theorem searching_setup (view : View) (start : Node) :
    Searching graph direction selected start (setup graph direction visitor view start) where
  started := by simp [setup]
  fresh := by simp [setup]
  reachable := by
    intro node member
    obtain rfl : node = start := by simpa [setup] using member
    exact .refl
  remaining := by simp [setup]
  visited := by simp [setup]
  nodup := by simp [setup]
  path := by simp [setup]
  bottom := by simp [setup]
  explored := by
    intro node member edge edgeMem _
    obtain rfl : node = start := by simpa [setup] using member
    exact Or.inr ⟨_, by simp [setup], edgeMem⟩

/-- The edge on top of the stack leads on from a visited node. -/
theorem Searching.joined {start node : Node} {edge : Edge} {rest : List Edge}
    {below : List (Node × List Edge)} {search : DepthFirstSearch Node Edge View}
    (searching : Searching graph direction selected start search)
    (stack : search.visitStack = (node, edge :: rest) :: below) (followed : selected edge = true) :
    graph.Joined direction selected node (graph.nextNode direction edge) :=
  ⟨edge, searching.remaining (node, edge :: rest) (by simp [stack]) List.mem_cons_self,
    followed, rfl⟩

/-- The start stays at the bottom of the path. -/
theorem Searching.start_mem_path {start : Node}
    {search : DepthFirstSearch Node Edge View}
    (searching : Searching graph direction selected start search)
    (nonempty : search.visitStack ≠ []) : start ∈ (search.visitStack.map Prod.fst).reverse :=
  List.mem_reverse.mpr (List.mem_of_getLast? (searching.bottom nonempty))

/-- Dropping an edge of the top that leads to a visited node, or nowhere. -/
theorem Searching.advance {start node : Node} {edge : Edge} {rest : List Edge}
    {below : List (Node × List Edge)} {search : DepthFirstSearch Node Edge View}
    (searching : Searching graph direction selected start search)
    (stack : search.visitStack = (node, edge :: rest) :: below)
    (settled : selected edge = true → graph.nextNode direction edge ∈ search.visitedNodes)
    (view : View) :
    Searching graph direction selected start
      { search with visitStack := (node, rest) :: below, visitor := view } := by
  obtain ⟨started, fresh, reachable, remaining, visited, nodup, path, bottom, explored⟩ := searching
  simp only [Ahead, stack, List.map_cons] at remaining visited nodup path bottom explored
  refine ⟨started, fresh, reachable, ?_, ?_, nodup, path, fun _ => bottom (by simp), ?_⟩
  · rintro frame (_ | ⟨_, member⟩)
    · exact fun other otherMem => remaining _ List.mem_cons_self (List.mem_cons_of_mem _ otherMem)
    · exact remaining frame (List.mem_cons_of_mem _ member)
  · rintro frame (_ | ⟨_, member⟩)
    · exact visited (node, edge :: rest) List.mem_cons_self
    · exact visited frame (List.mem_cons_of_mem _ member)
  · intro origin originMem other otherMem followed
    rcases explored origin originMem other otherMem followed with done | ⟨ahead, frame, inside⟩
    · exact Or.inl done
    · rcases List.mem_cons.mp frame with same | member
      · cases same
        rcases List.mem_cons.mp inside with rfl | later
        · exact Or.inl (settled followed)
        · exact Or.inr ⟨rest, List.mem_cons_self, later⟩
      · exact Or.inr ⟨ahead, List.mem_cons_of_mem _ member, inside⟩

/-- Popping a node without edges ahead. -/
theorem Searching.pop {start node : Node} {below : List (Node × List Edge)}
    {search : DepthFirstSearch Node Edge View}
    (searching : Searching graph direction selected start search)
    (stack : search.visitStack = (node, []) :: below) (view : View) :
    Searching graph direction selected start
      { search with visitStack := below, visitor := view } := by
  obtain ⟨started, fresh, reachable, remaining, visited, nodup, path, bottom, explored⟩ := searching
  simp only [Ahead, stack, List.map_cons] at remaining visited nodup path bottom explored
  refine ⟨started, fresh, reachable,
    fun frame member => remaining frame (List.mem_cons_of_mem _ member),
    fun frame member => visited frame (List.mem_cons_of_mem _ member),
    (List.nodup_cons.mp nodup).2, path.tail, ?_, ?_⟩
  · intro nonempty
    cases below with
    | nil => exact absurd rfl nonempty
    | cons frame others => simpa using bottom (by simp)
  · intro origin originMem edge edgeMem followed
    rcases explored origin originMem edge edgeMem followed with done | ⟨ahead, frame, inside⟩
    · exact Or.inl done
    · rcases List.mem_cons.mp frame with same | member
      · cases same
        cases inside
      · exact Or.inr ⟨ahead, member, inside⟩

/-- Pushing the node that the edge on top leads to. -/
theorem Searching.push {start node : Node} {edge : Edge} {rest : List Edge}
    {below : List (Node × List Edge)} {search : DepthFirstSearch Node Edge View}
    (searching : Searching graph direction selected start search)
    (stack : search.visitStack = (node, edge :: rest) :: below) (followed : selected edge = true)
    (unvisited : graph.nextNode direction edge ∉ search.visitedNodes) (view : View) :
    Searching graph direction selected start {
      visitStack := (graph.nextNode direction edge,
          graph.edgesOf direction (graph.nextNode direction edge)) :: (node, rest) :: below
      visitedNodes := graph.nextNode direction edge :: search.visitedNodes
      visitor := view } := by
  have joined := searching.joined stack followed
  obtain ⟨started, fresh, reachable, remaining, visited, nodup, path, bottom, explored⟩ := searching
  simp only [Ahead, stack, List.map_cons] at remaining visited nodup path bottom explored
  have nodeVisited := visited _ List.mem_cons_self
  refine ⟨List.mem_cons_of_mem _ started, List.nodup_cons.mpr ⟨unvisited, fresh⟩,
    ?_, ?_, ?_, ?_, List.isChain_cons_cons.mpr ⟨joined, path⟩, fun _ => ?_, ?_⟩
  · rintro other (_ | ⟨_, member⟩)
    · exact (reachable node nodeVisited).tail joined
    · exact reachable other member
  · rintro frame (_ | ⟨_, _ | ⟨_, member⟩⟩)
    · exact fun _ inside => inside
    · exact fun other otherMem => remaining _ List.mem_cons_self (List.mem_cons_of_mem _ otherMem)
    · exact remaining frame (List.mem_cons_of_mem _ member)
  · rintro frame (_ | ⟨_, _ | ⟨_, member⟩⟩)
    · exact List.mem_cons_self
    · exact List.mem_cons_of_mem _ nodeVisited
    · exact List.mem_cons_of_mem _ (visited frame (List.mem_cons_of_mem _ member))
  · refine List.nodup_cons.mpr ⟨fun again => ?_, nodup⟩
    rcases List.mem_cons.mp again with same | member
    · replace same : graph.nextNode direction edge = node := same
      exact unvisited (same ▸ nodeVisited)
    · obtain ⟨frame, frameMem, same⟩ := List.mem_map.mp member
      replace same : frame.1 = graph.nextNode direction edge := same
      exact unvisited (same ▸ visited frame (List.mem_cons_of_mem _ frameMem))
  · simpa using bottom (by simp)
  · intro origin originMem other otherMem otherFollowed
    rcases List.mem_cons.mp originMem with rfl | originVisited
    · exact Or.inr ⟨_, List.mem_cons_self, otherMem⟩
    · rcases explored origin originVisited other otherMem otherFollowed with
        done | ⟨ahead, frame, inside⟩
      · exact Or.inl (List.mem_cons_of_mem _ done)
      · rcases List.mem_cons.mp frame with same | member
        · cases same
          rcases List.mem_cons.mp inside with rfl | later
          · exact Or.inl List.mem_cons_self
          · exact Or.inr ⟨rest, List.mem_cons_of_mem _ List.mem_cons_self, later⟩
        · exact Or.inr ⟨ahead, List.mem_cons_of_mem _ (List.mem_cons_of_mem _ member), inside⟩

/-- Every step keeps the invariant of the search. -/
theorem Searching.step {start : Node} {search next : DepthFirstSearch Node Edge View}
    (searching : Searching graph direction selected start search)
    (stepped : step graph direction visitor selected search = some next) :
    Searching graph direction selected start next := by
  rcases step_cases stepped with ⟨node, below, stack, rfl⟩ | ⟨node, edge, rest, below, stack,
    ⟨skipped, rfl⟩ | ⟨followed, visited, rfl⟩ | ⟨followed, fresh, rfl⟩⟩
  · exact searching.pop stack _
  · exact searching.advance stack (by simp [skipped]) _
  · exact searching.advance stack (fun _ => visited) _
  · exact searching.push stack followed fresh _

omit [DecidableEq Node] in
/-- Visiting a node takes its weight from the nodes that are left. -/
theorem sum_unvisited_le (weight : Node → Nat) (keep keepLess : Node → Bool) {node : Node}
    (less : ∀ other, keepLess other = true → keep other = true) {nodes : List Node}
    (member : node ∈ nodes) (kept : keep node = true) (dropped : keepLess node = false) :
    ((nodes.filter keepLess).map weight).sum + weight node ≤
      ((nodes.filter keep).map weight).sum := by
  induction nodes with
  | nil => cases member
  | cons head rest ih =>
      have restLe : ((rest.filter keepLess).map weight).sum ≤
          ((rest.filter keep).map weight).sum :=
        ((rest.monotone_filter_right less).map weight).sum_le_sum (by simp)
      rcases List.mem_cons.mp member with rfl | later
      · simp only [List.filter_cons, kept, dropped, if_true, List.map_cons, List.sum_cons]
        simp only [Bool.false_eq_true, if_false]
        omega
      · have smaller := ih later
        simp only [List.filter_cons]
        split
        · next keeps =>
            rw [if_pos (less head keeps)]
            simp only [List.map_cons, List.sum_cons]
            omega
        · split
          · simp only [List.map_cons, List.sum_cons]
            omega
          · exact smaller

/-- Every step leaves less to do. -/
theorem workLeft_step {start : Node} {search next : DepthFirstSearch Node Edge View}
    (searching : Searching graph direction selected start search)
    (stepped : DepthFirstSearch.step graph direction visitor selected search = some next) :
    workLeft graph direction next < workLeft graph direction search := by
  rcases step_cases stepped with ⟨node, below, stack, rfl⟩ | ⟨node, edge, rest, below, stack,
    ⟨skipped, rfl⟩ | ⟨followed, visited, rfl⟩ | ⟨followed, fresh, rfl⟩⟩
  · simp [workLeft, stack]
  · simp [workLeft, stack]
  · simp [workLeft, stack]
  · have visiting := sum_unvisited_le (weight graph direction)
      (fun node => node ∉ search.visitedNodes)
      (fun node => node ∉ graph.nextNode direction edge :: search.visitedNodes)
      (by simp +contextual) (searching.joined stack followed).mem.2 (by simpa using fresh) (by simp)
    simp only [workLeft, stack, List.map_cons, List.sum_cons, List.length_cons]
    simp only [weight] at visiting ⊢
    omega

/-- A search with enough fuel ends, and what its steps keep holds at the end. -/
theorem run_spec {Holds : DepthFirstSearch Node Edge View → Prop} {start : Node}
    (keeps : ∀ search next, Searching graph direction selected start search → Holds search →
      DepthFirstSearch.step graph direction visitor selected search = some next → Holds next)
    {fuel : Nat} {search : DepthFirstSearch Node Edge View}
    (searching : Searching graph direction selected start search) (holds : Holds search)
    (enough : workLeft graph direction search < fuel) :
    ∃ final, run graph direction visitor selected fuel search = some final ∧
      final.visitStack = [] ∧ Searching graph direction selected start final ∧ Holds final := by
  induction fuel generalizing search with
  | zero => cases enough
  | succ fuel ih =>
      cases stepped : DepthFirstSearch.step graph direction visitor selected search with
      | none =>
          exact ⟨search, by simp [run, stepped], step_eq_none.mp stepped, searching, holds⟩
      | some next =>
          have less := workLeft_step searching stepped
          obtain ⟨final, ran, result⟩ := ih (searching.step stepped)
            (keeps search next searching holds stepped) (by omega)
          exact ⟨final, by simp [run, stepped, ran], result⟩

/-- A search that has ended visited exactly the reachable nodes. -/
theorem Searching.visited_iff {start node : Node} {search : DepthFirstSearch Node Edge View}
    (searching : Searching graph direction selected start search)
    (ended : search.visitStack = []) :
    node ∈ search.visitedNodes ↔ graph.Reachable direction selected start node := by
  refine ⟨searching.reachable node, fun reachable => ?_⟩
  induction reachable with
  | refl => exact searching.started
  | tail _ joined visited =>
      obtain ⟨edge, edgeMem, followed, rfl⟩ := joined
      rcases searching.explored _ visited edge edgeMem followed with done | ⟨_, frame, _⟩
      · exact done
      · rw [ended] at frame
        cases frame

/-- The search from a node ends with what its events keep and the reachable nodes visited. -/
theorem traverse_spec {Holds : DepthFirstSearch Node Edge View → Prop} {start : Node} {view : View}
    (base : Holds (setup graph direction visitor view start))
    (keeps : ∀ search next, Searching graph direction selected start search → Holds search →
      DepthFirstSearch.step graph direction visitor selected search = some next → Holds next) :
    ∃ final, traverse graph direction visitor selected view start = some final ∧
      final.visitStack = [] ∧ Searching graph direction selected start final ∧ Holds final :=
  run_spec keeps (searching_setup view start) base (Nat.lt_succ_self _)

end DepthFirstSearch

end SlangNetlist
