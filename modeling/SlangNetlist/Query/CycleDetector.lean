import Mathlib.Data.List.Cycle
import Mathlib.Data.List.Lex
import Mathlib.Data.List.MinMax
import Mathlib.Data.List.TakeWhile
import SlangNetlist.Query.DepthFirstSearch

/-!
# Cycle detection

The visitor keeps the path of the search.  When an edge leads back to a node of
the path, the path from that node on is a cycle, which is reported from its
lowest ID on.  The detector searches from every node that is not yet marked.
-/

namespace SlangNetlist

variable {Node Edge : Type}

namespace DirectedGraph

/-- Distinct nodes, each joined to the next one and the last to the first by a selected edge. -/
structure IsCycle [DecidableEq Node] (graph : DirectedGraph Node Edge) (selected : Edge → Bool)
    (cycle : List Node) : Prop where
  nonempty : cycle ≠ []
  nodup : cycle.Nodup
  joined : Cycle.Chain (graph.Joined .forward selected) (cycle : Cycle Node)

end DirectedGraph

/-- The first node has the lowest ID. -/
def StartsLowest (ID : Node → Nat) (cycle : List Node) : Prop :=
  ∀ first ∈ cycle.head?, ∀ node ∈ cycle, ID first ≤ ID node

structure CycleDetectionVisitor (Node : Type) where
  recursionStack : List Node := []
  cycles : List (List Node) := []

namespace CycleDetectionVisitor

variable [DecidableEq Node]

omit [DecidableEq Node] in
/-- Rotate the cycle to its first node of lowest ID. -/
def canonicalise (ID : Node → Nat) (cycleNodes : List Node) : List Node :=
  cycleNodes.rotate
    (cycleNodes.findIdx fun node => cycleNodes.all fun other => ID node ≤ ID other)

/-- Report the cycle that an edge to a node of the path closes. -/
def visitedNode (ID : Node → Nat) (node : Node) (visitor : CycleDetectionVisitor Node) :
    CycleDetectionVisitor Node :=
  match visitor.recursionStack.dropWhile (· ≠ node) with
  | [] => visitor
  | first :: rest =>
      { visitor with cycles := visitor.cycles ++ [canonicalise ID (first :: rest)] }

/-- The callbacks of the visitor. -/
def callbacks (ID : Node → Nat) : Visitor Node Edge (CycleDetectionVisitor Node) where
  visitedNode := visitedNode ID
  visitNode node visitor := { visitor with recursionStack := visitor.recursionStack ++ [node] }
  visitEdge _ visitor := visitor
  popNode visitor := { visitor with recursionStack := visitor.recursionStack.dropLast }

end CycleDetectionVisitor

/-- The nodes not to start from, and the cycles without duplicates. -/
structure CycleDetector (Node : Type) where
  visitedNodes : List Node := []
  cycles : List (List Node) := []

namespace CycleDetector

variable [DecidableEq Node] (graph : DirectedGraph Node Edge) (selected : Edge → Bool)
  (ID : Node → Nat)

/-- Search from a node unless it is marked, and mark it and the nodes of the cycles found. -/
def detectFrom (detector : CycleDetector Node) (startNode : Node) : Option (CycleDetector Node) :=
  if startNode ∈ detector.visitedNodes then some detector
  else
    (DepthFirstSearch.traverse graph .forward (CycleDetectionVisitor.callbacks ID) selected {}
      startNode).map fun search => {
        visitedNodes := search.visitor.cycles.flatten ++ startNode :: detector.visitedNodes
        cycles := search.visitor.cycles ∪ detector.cycles }

/-- The order of the reported cycles. -/
def byNodeId (first second : List Node) : Bool :=
  first.map ID ≤ second.map ID

/-- `detectCycles`. -/
def detectCycles : Option (List (List Node)) :=
  (graph.nodes.foldlM (detectFrom graph selected ID) {}).map fun detector =>
    detector.cycles.mergeSort (byNodeId ID)

end CycleDetector

section Cycles

variable [DecidableEq Node] {graph : DirectedGraph Node Edge} {selected : Edge → Bool}
  {ID : Node → Nat} {cycle : List Node}

omit [DecidableEq Node] in
/-- The rotated cycle starts at its lowest ID. -/
theorem startsLowest_canonicalise (ID : Node → Nat) (cycle : List Node) :
    StartsLowest ID (CycleDetectionVisitor.canonicalise ID cycle) := by
  intro first head node member
  have within : node ∈ cycle := List.mem_rotate.mp member
  obtain ⟨lowest, isLowest⟩ := Option.ne_none_iff_exists'.mp
    (mt List.argmin_eq_none.mp (List.ne_nil_of_mem within) : cycle.argmin ID ≠ none)
  have some_lowest : ∃ least ∈ cycle, (cycle.all fun other => ID least ≤ ID other) = true :=
    ⟨lowest, List.argmin_mem isLowest, by
      simpa using fun other otherMem => List.le_of_mem_argmin otherMem isLowest⟩
  have inside := List.findIdx_lt_length_of_exists some_lowest
  have least := @List.findIdx_getElem _ _ cycle inside
  rw [CycleDetectionVisitor.canonicalise, List.head?_rotate inside, List.getElem?_eq_getElem inside,
    Option.mem_some_iff] at head
  rw [head] at least
  simpa using List.all_eq_true.mp least node within

theorem DirectedGraph.IsCycle.rotate (isCycle : graph.IsCycle selected cycle) (count : Nat) :
    graph.IsCycle selected (cycle.rotate count) where
  nonempty := by simpa using isCycle.nonempty
  nodup := List.nodup_rotate.mpr isCycle.nodup
  joined := by
    rw [Cycle.coe_eq_coe.mpr (List.IsRotated.forall cycle count)]
    exact isCycle.joined

/-- The nodes of a cycle lead back to themselves. -/
theorem DirectedGraph.IsCycle.returns (isCycle : graph.IsCycle selected cycle) {node : Node}
    (member : node ∈ cycle) :
    Relation.TransGen (graph.Joined .forward selected) node node := by
  obtain ⟨before, after, rfl⟩ := List.append_of_mem member
  have turned := isCycle.rotate before.length
  rw [List.rotate_append_length_eq, List.cons_append] at turned
  have chain := ((Cycle.chain_coe_cons _ _ _).mp turned.joined).imp
    fun _ _ => Relation.TransGen.single
  rw [List.isChain_iff_pairwise, List.pairwise_cons] at chain
  exact chain.1 node (by simp)

omit [DecidableEq Node] in
/-- Two cycles that start at their lowest ID and are rotations of each other are the same. -/
theorem eq_of_isRotated {first second : List Node}
    (distinct : ∀ node ∈ first, ∀ other ∈ first, ID node = ID other → node = other)
    (nodup : first.Nodup) (firstLowest : StartsLowest ID first)
    (secondLowest : StartsLowest ID second) (rotated : first ~r second) : first = second := by
  obtain ⟨count, bound, rfl⟩ := List.isRotated_iff_mod.mp rotated
  rw [List.rotate_eq_drop_append_take bound] at secondLowest ⊢
  have split := List.take_append_drop count first
  cases front : first.take count with
  | nil => rw [front, List.nil_append] at split; rw [List.append_nil, split]
  | cons head others =>
      cases back : first.drop count with
      | nil => rw [front, back, List.append_nil] at split; rw [List.nil_append, split]
      | cons turned rest =>
          rw [front, back] at split secondLowest
          have headMem : head ∈ first := by simp [← split]
          have turnedMem : turned ∈ first := by simp [← split]
          have below := firstLowest head (by simp [← split]) turned turnedMem
          have above := secondLowest turned (by simp) head (by simp)
          have same := distinct head headMem turned turnedMem (by omega)
          rw [← split, same] at nodup
          simp at nodup

end Cycles

namespace CycleDetector

open DepthFirstSearch

variable [DecidableEq Node] {graph : DirectedGraph Node Edge} {selected : Edge → Bool}
  {ID : Node → Nat}

/-- A cycle as the detector reports it. -/
def Reported (graph : DirectedGraph Node Edge) (selected : Edge → Bool) (ID : Node → Nat)
    (cycle : List Node) : Prop :=
  graph.IsCycle selected cycle ∧ StartsLowest ID cycle

/-- The two outcomes of an edge to a visited node. -/
theorem visitedNode_cases (ID : Node → Nat) (node : Node) (visitor : CycleDetectionVisitor Node) :
    (node ∉ visitor.recursionStack ∧ visitor.visitedNode ID node = visitor) ∨
    ∃ before after, visitor.recursionStack = before ++ node :: after ∧
      visitor.visitedNode ID node = { visitor with
        cycles := visitor.cycles ++ [CycleDetectionVisitor.canonicalise ID (node :: after)] } := by
  unfold CycleDetectionVisitor.visitedNode
  by_cases member : node ∈ visitor.recursionStack
  · obtain ⟨before, after, split, absent⟩ := List.eq_append_cons_of_mem member
    have found : visitor.recursionStack.dropWhile (· ≠ node) = node :: after := by
      rw [split, List.dropWhile_append_of_pos (by
        intro other otherMem
        simpa using fun same : other = node => absent (same ▸ otherMem))]
      simp
    exact Or.inr ⟨before, after, split, by rw [found]⟩
  · have missed : visitor.recursionStack.dropWhile (· ≠ node) = [] := by
      refine List.dropWhile_eq_nil_iff.mpr fun other otherMem => ?_
      simpa using fun same : other = node => member (same ▸ otherMem)
    exact Or.inl ⟨member, by rw [missed]⟩

/-- The path from a node of the stack to the top is a cycle when the top leads back to it. -/
theorem isCycle_of_path {path before after : List Node} {node top : Node}
    (split : path = before ++ node :: after) (nodup : path.Nodup)
    (chain : path.IsChain (graph.Joined .forward selected)) (last : path.getLast? = some top)
    (joined : graph.Joined .forward selected top node) :
    graph.IsCycle selected (node :: after) where
  nonempty := List.cons_ne_nil _ _
  nodup := (split ▸ nodup).of_append_right
  joined := by
    rw [Cycle.chain_coe_cons, ← List.cons_append, List.isChain_append]
    refine ⟨(split ▸ chain).right_of_append, List.isChain_singleton _, ?_⟩
    intro final isFinal back isBack
    rw [split, List.getLast?_append_cons] at last
    cases last.symm.trans isFinal
    cases isBack
    exact joined

/-- What the visitor knows between two steps of a search from `start`. -/
structure Tracks (graph : DirectedGraph Node Edge) (selected : Edge → Bool) (ID : Node → Nat)
    (start : Node) (search : DepthFirstSearch Node Edge (CycleDetectionVisitor Node)) : Prop where
  path : search.visitor.recursionStack = (search.visitStack.map Prod.fst).reverse
  reported : ∀ cycle ∈ search.visitor.cycles, Reported graph selected ID cycle
  /-- The edges back to the start that are behind have closed a cycle. -/
  closed : ∀ node ∈ search.visitedNodes, ∀ edge ∈ graph.edgesOf .forward node,
    selected edge = true → graph.target edge = start →
      search.Ahead node edge ∨ ∃ cycle ∈ search.visitor.cycles, start ∈ cycle

theorem tracks_setup (start : Node) :
    Tracks graph selected ID start
      (setup graph .forward (CycleDetectionVisitor.callbacks ID) {} start) where
  path := by simp [setup, CycleDetectionVisitor.callbacks]
  reported := by simp [setup, CycleDetectionVisitor.callbacks]
  closed := by
    intro node member edge edgeMem _ _
    obtain rfl : node = start := by simpa [setup] using member
    exact Or.inl ⟨_, by simp [setup], edgeMem⟩

/-- A step that reports what it must keeps the knowledge of the visitor. -/
theorem Tracks.of_step {start : Node}
    {search next : DepthFirstSearch Node Edge (CycleDetectionVisitor Node)}
    (tracks : Tracks graph selected ID start search)
    (stepped : step graph .forward (CycleDetectionVisitor.callbacks ID) selected search = some next)
    (path : next.visitor.recursionStack = (next.visitStack.map Prod.fst).reverse)
    (kept : search.visitor.cycles ⊆ next.visitor.cycles)
    (reported : ∀ cycle ∈ next.visitor.cycles, Reported graph selected ID cycle)
    (entered : ∀ node ∈ next.visitedNodes, node ∈ search.visitedNodes ∨
      ∀ edge ∈ graph.edgesOf .forward node, next.Ahead node edge)
    (behind : ∀ node edge rest below, search.visitStack = (node, edge :: rest) :: below →
      selected edge = true → graph.target edge = start →
        ∃ cycle ∈ next.visitor.cycles, start ∈ cycle) :
    Tracks graph selected ID start next where
  path := path
  reported := reported
  closed := by
    intro node member edge edgeMem followed returns
    rcases entered node member with visited | fresh
    · rcases tracks.closed node visited edge edgeMem followed returns with ahead | ⟨cycle, found, on⟩
      · rcases ahead.step stepped with still | ⟨rest, below, stack⟩
        · exact Or.inl still
        · exact Or.inr (behind node edge rest below stack followed returns)
      · exact Or.inr ⟨cycle, kept found, on⟩
    · exact Or.inl (fresh edge edgeMem)

/-- Every step keeps the knowledge of the visitor. -/
theorem Tracks.step {start : Node}
    {search next : DepthFirstSearch Node Edge (CycleDetectionVisitor Node)}
    (searching : Searching graph .forward selected start search)
    (tracks : Tracks graph selected ID start search)
    (stepped : step graph .forward (CycleDetectionVisitor.callbacks ID) selected search = some next) :
    Tracks graph selected ID start next := by
  have path := tracks.path
  rcases step_cases stepped with ⟨node, below, stack, same⟩ | ⟨node, edge, rest, below, stack,
    ⟨skipped, same⟩ | ⟨followed, visited, same⟩ | ⟨followed, fresh, same⟩⟩
  · refine tracks.of_step stepped ?_ (by simp [same, CycleDetectionVisitor.callbacks])
      (by simpa [same, CycleDetectionVisitor.callbacks] using tracks.reported)
      (fun other member => Or.inl (by simpa [same] using member)) ?_
    · simp [same, CycleDetectionVisitor.callbacks, path, stack]
    · intro other edge rest lower top
      rw [stack] at top
      cases top
  · refine tracks.of_step stepped (by simp [same, path, stack]) (by simp [same])
      (by simpa [same] using tracks.reported)
      (fun other member => Or.inl (by simpa [same] using member)) ?_
    intro other otherEdge otherRest lower top selects
    rw [stack] at top
    cases top
    simp [skipped] at selects
  · have joined := searching.joined stack followed
    have startMem := searching.start_mem_path (by simp [stack])
    rw [← path] at startMem
    rcases visitedNode_cases ID (graph.target edge) search.visitor with
      ⟨absent, kept⟩ | ⟨before, after, split, reports⟩
    · have unchanged : next.visitor = search.visitor := by rw [same]; exact kept
      refine tracks.of_step stepped (by rw [unchanged, path]; simp [same, stack])
        (by simp [unchanged]) (by simpa [unchanged] using tracks.reported)
        (fun other member => Or.inl (by simpa [same] using member)) ?_
      intro other otherEdge otherRest lower top _ returns
      rw [stack] at top
      cases top
      exact absurd (returns ▸ startMem) absent
    · have extended : next.visitor = { search.visitor with
          cycles := search.visitor.cycles ++
            [CycleDetectionVisitor.canonicalise ID (graph.target edge :: after)] } := by
        rw [same]; exact reports
      have isCycle : graph.IsCycle selected (graph.target edge :: after) := by
        refine isCycle_of_path (path.symm.trans split) (List.nodup_reverse.mpr searching.nodup)
          (List.isChain_reverse.mpr searching.path) ?_ joined
        simp [stack]
      refine tracks.of_step stepped (by rw [extended]; simp [path, same, stack])
        (by simp [extended]) ?_ (fun other member => Or.inl (by simpa [same] using member)) ?_
      · intro cycle member
        rw [extended] at member
        rcases List.mem_append.mp member with old | new
        · exact tracks.reported cycle old
        · obtain rfl := List.mem_singleton.mp new
          exact ⟨isCycle.rotate _, startsLowest_canonicalise ID _⟩
      · intro other otherEdge otherRest lower top _ returns
        rw [stack] at top
        cases top
        refine ⟨_, by rw [extended]; exact List.mem_append_right _ List.mem_cons_self, ?_⟩
        exact List.mem_rotate.mpr (returns ▸ List.mem_cons_self)
  · refine tracks.of_step stepped ?_ (by simp [same, CycleDetectionVisitor.callbacks])
      (by simpa [same, CycleDetectionVisitor.callbacks] using tracks.reported) ?_ ?_
    · simp [same, CycleDetectionVisitor.callbacks, path, stack]
    · intro other member
      rw [same] at member
      rcases List.mem_cons.mp member with rfl | visited
      · exact Or.inr fun later laterMem => ⟨_, by rw [same]; exact List.mem_cons_self, laterMem⟩
      · exact Or.inl visited
    · intro other otherEdge otherRest lower top _ returns
      rw [stack] at top
      cases top
      exact absurd (show graph.target edge ∈ _ from returns ▸ searching.started) fresh

/-- A search from a node ends with reported cycles, one of them through the node if there is any. -/
theorem traverse_cycles (graph : DirectedGraph Node Edge) (selected : Edge → Bool)
    (ID : Node → Nat) (start : Node) :
    ∃ search, traverse graph .forward (CycleDetectionVisitor.callbacks ID) selected {} start =
        some search ∧
      (∀ cycle ∈ search.visitor.cycles, Reported graph selected ID cycle) ∧
      (Relation.TransGen (graph.Joined .forward selected) start start →
        ∃ cycle ∈ search.visitor.cycles, start ∈ cycle) := by
  obtain ⟨search, ran, ended, searching, tracks⟩ := traverse_spec
    (tracks_setup start) fun _ _ searching tracks =>
      @Tracks.step _ _ _ graph selected ID start _ _ searching tracks
  refine ⟨search, ran, tracks.reported, fun looping => ?_⟩
  obtain ⟨last, reachable, edge, edgeMem, followed, returns⟩ :=
    Relation.TransGen.tail'_iff.mp looping
  have visited := (searching.visited_iff ended).mpr reachable
  rcases tracks.closed last visited edge edgeMem followed returns with ⟨rest, frame, _⟩ | found
  · rw [ended] at frame
    cases frame
  · exact found

/-- What the detector knows after searching from the nodes `done`. -/
structure Detected (graph : DirectedGraph Node Edge) (selected : Edge → Bool) (ID : Node → Nat)
    (done : List Node) (detector : CycleDetector Node) : Prop where
  reported : ∀ cycle ∈ detector.cycles, Reported graph selected ID cycle
  nodup : detector.cycles.Nodup
  marked : done ⊆ detector.visitedNodes
  /-- A marked node that lies on a cycle is reported. -/
  covered : ∀ node ∈ detector.visitedNodes,
    Relation.TransGen (graph.Joined .forward selected) node node →
      ∃ cycle ∈ detector.cycles, node ∈ cycle

/-- Searching from one more node. -/
theorem Detected.detectFrom {done : List Node} {detector : CycleDetector Node}
    (detected : Detected graph selected ID done detector) (start : Node) :
    ∃ next, CycleDetector.detectFrom graph selected ID detector start = some next ∧
      Detected graph selected ID (done ++ [start]) next := by
  unfold CycleDetector.detectFrom
  split
  · next marked =>
      refine ⟨detector, rfl, detected.reported, detected.nodup, ?_, detected.covered⟩
      simpa using ⟨detected.marked, marked⟩
  · next unmarked =>
      obtain ⟨search, ran, reported, looping⟩ := traverse_cycles graph selected ID start
      refine ⟨_, by rw [ran]; rfl, ?_, List.Nodup.union _ detected.nodup, ?_, ?_⟩
      · intro cycle member
        rcases List.mem_union_iff.mp member with new | old
        · exact reported cycle new
        · exact detected.reported cycle old
      · intro node member
        rcases List.mem_append.mp member with old | new
        · exact List.mem_append_right _ (List.mem_cons_of_mem _ (detected.marked old))
        · obtain rfl := List.mem_singleton.mp new
          exact List.mem_append_right _ List.mem_cons_self
      · intro node member returns
        have enough : (∃ cycle ∈ search.visitor.cycles, node ∈ cycle) ∨
            ∃ cycle ∈ detector.cycles, node ∈ cycle := by
          rcases List.mem_append.mp member with found | marked
          · obtain ⟨cycle, cycleMem, on⟩ := List.mem_flatten.mp found
            exact Or.inl ⟨cycle, cycleMem, on⟩
          · rcases List.mem_cons.mp marked with rfl | old
            · exact Or.inl (looping returns)
            · exact Or.inr (detected.covered node old returns)
        rcases enough with ⟨cycle, cycleMem, on⟩ | ⟨cycle, cycleMem, on⟩
        · exact ⟨cycle, List.mem_union_iff.mpr (Or.inl cycleMem), on⟩
        · exact ⟨cycle, List.mem_union_iff.mpr (Or.inr cycleMem), on⟩

/-- Searching from all nodes of a list. -/
theorem exists_detected (graph : DirectedGraph Node Edge) (selected : Edge → Bool)
    (ID : Node → Nat) (starts : List Node) :
    ∃ detector, starts.foldlM (CycleDetector.detectFrom graph selected ID) {} = some detector ∧
      Detected graph selected ID starts detector := by
  induction starts using List.reverseRecOn with
  | nil => exact ⟨{}, rfl, by simp, by simp, by simp, by simp⟩
  | append_singleton starts start ih =>
      obtain ⟨detector, folded, detected⟩ := ih
      obtain ⟨next, stepped, result⟩ := detected.detectFrom start
      refine ⟨next, ?_, result⟩
      rw [List.foldlM_append, folded]
      simpa using stepped

/-- The reported cycles are cycles, each once, and no node of a cycle is missed. -/
structure Exact (graph : DirectedGraph Node Edge) (selected : Edge → Bool) (ID : Node → Nat)
    (cycles : List (List Node)) : Prop where
  sound : ∀ cycle ∈ cycles, graph.IsCycle selected cycle ∧ StartsLowest ID cycle
  /-- No cycle is reported again, not from another node either. -/
  once : cycles.Pairwise fun first second => ¬ first ~r second
  covered : ∀ node, (∃ cycle ∈ cycles, node ∈ cycle) ↔
    ∃ cycle, graph.IsCycle selected cycle ∧ node ∈ cycle

/-- `detectCycles` ends and reports what its searches found, in the order of the IDs. -/
theorem exists_detectCycles (graph : DirectedGraph Node Edge) (selected : Edge → Bool)
    (ID : Node → Nat)
    (distinct : ∀ node ∈ graph.nodes, ∀ other ∈ graph.nodes, ID node = ID other → node = other) :
    ∃ cycles, detectCycles graph selected ID = some cycles ∧ Exact graph selected ID cycles := by
  obtain ⟨detector, folded, detected⟩ := exists_detected graph selected ID graph.nodes
  have ordered := List.mergeSort_perm detector.cycles (byNodeId ID)
  refine ⟨_, by rw [detectCycles, folded]; rfl, ?_, ?_, fun node => ⟨?_, ?_⟩⟩
  · exact fun cycle member => detected.reported cycle (ordered.mem_iff.mp member)
  · refine (ordered.nodup_iff.mpr detected.nodup).pairwise_of_forall_ne ?_
    intro first firstMem second secondMem differ rotated
    obtain ⟨firstCycle, firstLowest⟩ := detected.reported first (ordered.mem_iff.mp firstMem)
    obtain ⟨_, secondLowest⟩ := detected.reported second (ordered.mem_iff.mp secondMem)
    refine differ (eq_of_isRotated (fun node member other otherMem => ?_) firstCycle.nodup
      firstLowest secondLowest rotated)
    have inGraph := fun node (member : node ∈ first) =>
      (Relation.TransGen.head'_iff.mp (firstCycle.returns member)).elim fun _ both => both.1.mem.1
    exact distinct node (inGraph node member) other (inGraph other otherMem)
  · rintro ⟨cycle, member, on⟩
    exact ⟨cycle, (detected.reported cycle (ordered.mem_iff.mp member)).1, on⟩
  · rintro ⟨cycle, isCycle, on⟩
    have returns := isCycle.returns on
    obtain ⟨_, joined, _⟩ := Relation.TransGen.head'_iff.mp returns
    obtain ⟨found, foundMem, inside⟩ :=
      detected.covered node (detected.marked joined.mem.1) returns
    exact ⟨found, ordered.mem_iff.mpr foundMem, inside⟩

end CycleDetector

end SlangNetlist
