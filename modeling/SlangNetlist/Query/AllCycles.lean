import SlangNetlist.Query.CycleDetector
import SlangNetlist.Query.FirstPaths

/-!
# The cycles of the detector

A search finds the cycles that an edge closes back to its own path, which is
the first path to the source of that edge, and no other cycles.  A node that
lies on a cycle found before is not searched from.
-/

namespace SlangNetlist

open Library DepthFirstSearch

variable {Node Edge : Type} [DecidableEq Node]

namespace DirectedGraph

variable (graph : DirectedGraph Node Edge) (selected : Edge → Bool)

/-- The first path to some node ends with the cycle, and that node leads back to its first node. -/
def Closes (start : Node) (cycle : List Node) : Prop :=
  ∃ before first after last, cycle = first :: after ∧
    FirstPath (graph.successors .forward selected) start last (before ++ cycle) ∧
    graph.Joined .forward selected last first

/-- The node was searched from, or lies on a cycle that was found. -/
def Marked (starts : List Node) (node : Node) : Prop :=
  node ∈ starts ∨ ∃ start ∈ starts, ∃ cycle, graph.Closes selected start cycle ∧ node ∈ cycle

open Classical in
/-- The nodes that are searched from, among the nodes of a list. -/
noncomputable def searchedFrom (starts : List Node) (node : Node) : List Node :=
  if graph.Marked selected starts node then starts else starts ++ [node]

/-- The nodes that are searched from. -/
noncomputable def searchStarts : List Node :=
  graph.nodes.foldl (graph.searchedFrom selected) []

variable {graph} {selected}

theorem marked_append {starts : List Node} {node other : Node} :
    graph.Marked selected (starts ++ [node]) other ↔
      graph.Marked selected starts other ∨ other = node ∨
        ∃ cycle, graph.Closes selected node cycle ∧ other ∈ cycle := by
  simp only [Marked, List.mem_append, List.mem_singleton, or_and_right, exists_or, exists_eq_left]
  exact or_or_or_comm

/-- What a search closes is a cycle. -/
theorem Closes.isCycle {start : Node} {cycle : List Node}
    (closes : graph.Closes selected start cycle) : graph.IsCycle selected cycle := by
  obtain ⟨before, first, after, last, rfl, path, joined⟩ := closes
  exact CycleDetector.isCycle_of_path rfl path.nodup (isChain_of_firstPath path) path.last joined

end DirectedGraph

namespace CycleDetector

variable {graph : DirectedGraph Node Edge} {selected : Edge → Bool} {ID : Node → Nat}

omit [DecidableEq Node] in
theorem mem_canonicalise {cycle : List Node} {node : Node} :
    node ∈ CycleDetectionVisitor.canonicalise ID cycle ↔ node ∈ cycle :=
  List.mem_rotate

omit [DecidableEq Node] in
theorem canonicalise_isRotated (cycle : List Node) :
    CycleDetectionVisitor.canonicalise ID cycle ~r cycle :=
  (List.IsRotated.forall cycle _)

/-- What the visitor has reported between two steps of a search from `start`. -/
structure Closing (graph : DirectedGraph Node Edge) (selected : Edge → Bool) (ID : Node → Nat)
    (start : Node) (search : DepthFirstSearch Node Edge (CycleDetectionVisitor Node)) : Prop where
  path : search.visitor.recursionStack = search.stackNodes.reverse
  sound : ∀ reported ∈ search.visitor.cycles, ∃ cycle, graph.Closes selected start cycle ∧
    reported = CycleDetectionVisitor.canonicalise ID cycle
  /-- The edges behind have closed their cycles. -/
  complete : ∀ node ∈ search.visitedNodes, ∀ edge ∈ graph.edgesOf .forward node,
    selected edge = true → ∀ before after,
      FirstPath (graph.successors .forward selected) start node
          (before ++ graph.target edge :: after) →
        search.Ahead node edge ∨
          CycleDetectionVisitor.canonicalise ID (graph.target edge :: after) ∈ search.visitor.cycles

theorem closing_setup (start : Node) :
    Closing graph selected ID start
      (setup graph .forward (CycleDetectionVisitor.callbacks ID) {} start) where
  path := by simp [setup, CycleDetectionVisitor.callbacks, stackNodes]
  sound := by simp [setup, CycleDetectionVisitor.callbacks]
  complete := by
    intro node member edge edgeMem _ before after _
    obtain rfl : node = start := by simpa [setup] using member
    exact Or.inl ⟨_, by simp [setup], edgeMem⟩

/-- A step that reports what it must keeps what the visitor has reported. -/
theorem Closing.of_step {start : Node}
    {search next : DepthFirstSearch Node Edge (CycleDetectionVisitor Node)}
    (closing : Closing graph selected ID start search)
    (stepped : step graph .forward (CycleDetectionVisitor.callbacks ID) selected search = some next)
    (path : next.visitor.recursionStack = next.stackNodes.reverse)
    (kept : search.visitor.cycles ⊆ next.visitor.cycles)
    (sound : ∀ reported ∈ next.visitor.cycles, ∃ cycle, graph.Closes selected start cycle ∧
      reported = CycleDetectionVisitor.canonicalise ID cycle)
    (entered : ∀ node ∈ next.visitedNodes, node ∈ search.visitedNodes ∨
      ∀ edge ∈ graph.edgesOf .forward node, next.Ahead node edge)
    (behind : ∀ node edge rest below, search.visitStack = (node, edge :: rest) :: below →
      selected edge = true → ∀ before after,
        FirstPath (graph.successors .forward selected) start node
            (before ++ graph.target edge :: after) →
          CycleDetectionVisitor.canonicalise ID (graph.target edge :: after) ∈
            next.visitor.cycles) :
    Closing graph selected ID start next where
  path := path
  sound := sound
  complete := by
    intro node member edge edgeMem followed before after first
    rcases entered node member with visited | fresh
    · rcases closing.complete node visited edge edgeMem followed before after first with
        ahead | reported
      · rcases ahead.step stepped with still | ⟨rest, below, stack⟩
        · exact Or.inl still
        · exact Or.inr (behind node edge rest below stack followed before after first)
      · exact Or.inr (kept reported)
    · exact Or.inl (fresh edge edgeMem)

omit [DecidableEq Node] in
/-- A list without duplicates has one rest after an element. -/
theorem eq_of_split {before after otherBefore otherAfter : List Node} {node : Node}
    (nodup : (before ++ node :: after).Nodup)
    (same : before ++ node :: after = otherBefore ++ node :: otherAfter) : after = otherAfter := by
  have notBefore : node ∉ before := fun member =>
    List.disjoint_of_nodup_append nodup member List.mem_cons_self
  have notAfter := (List.nodup_cons.mp nodup.of_append_right).1
  exact ((List.append_cons_inj_of_notMem notBefore notAfter).mp same).2.2

/-- Every step keeps what the visitor has reported. -/
theorem Closing.step {start : Node}
    {search next : DepthFirstSearch Node Edge (CycleDetectionVisitor Node)}
    (searching : Searching graph .forward selected start search)
    (tracing : Tracing graph .forward selected start search)
    (closing : Closing graph selected ID start search)
    (stepped : step graph .forward (CycleDetectionVisitor.callbacks ID) selected search = some next) :
    Closing graph selected ID start next := by
  have path := closing.path
  rcases step_cases stepped with ⟨node, below, stack, same⟩ | ⟨node, edge, rest, below, stack,
    ⟨skipped, same⟩ | ⟨followed, visited, same⟩ | ⟨followed, fresh, same⟩⟩
  · refine closing.of_step stepped ?_ (by simp [same, CycleDetectionVisitor.callbacks])
      (by simpa [same, CycleDetectionVisitor.callbacks] using closing.sound)
      (fun other member => Or.inl (by simpa [same] using member)) ?_
    · simp [same, CycleDetectionVisitor.callbacks, path, stack, stackNodes]
    · intro other edge rest lower top
      rw [stack] at top
      cases top
  · refine closing.of_step stepped (by simp [same, path, stack, stackNodes]) (by simp [same])
      (by simpa [same] using closing.sound)
      (fun other member => Or.inl (by simpa [same] using member)) ?_
    intro other otherEdge otherRest lower top selects
    rw [stack] at top
    cases top
    simp [skipped] at selects
  · have joined := searching.joined stack followed
    have nodes : search.stackNodes = node :: below.map Prod.fst := by simp [stackNodes, stack]
    have stackPath := tracing.onStack [] node (below.map Prod.fst) nodes
    rw [← nodes, ← path] at stackPath
    rcases visitedNode_cases ID (graph.target edge) search.visitor with
      ⟨absent, kept⟩ | ⟨before, after, split, reports⟩
    · have unchanged : next.visitor = search.visitor := by rw [same]; exact kept
      refine closing.of_step stepped (by rw [unchanged, path]; simp [same, stack, stackNodes])
        (by simp [unchanged]) (by simpa [unchanged] using closing.sound)
        (fun other member => Or.inl (by simpa [same] using member)) ?_
      intro other otherEdge otherRest lower top _ before after first
      rw [stack] at top
      cases top
      exact absurd (first.unique stackPath ▸ List.mem_append_right _ List.mem_cons_self) absent
    · have extended : next.visitor = { search.visitor with
          cycles := search.visitor.cycles ++
            [CycleDetectionVisitor.canonicalise ID (graph.target edge :: after)] } := by
        rw [same]; exact reports
      refine closing.of_step stepped (by rw [extended]; simp [path, same, stack, stackNodes])
        (by simp [extended]) ?_ (fun other member => Or.inl (by simpa [same] using member)) ?_
      · intro reported member
        rw [extended] at member
        rcases List.mem_append.mp member with old | new
        · exact closing.sound reported old
        · obtain rfl := List.mem_singleton.mp new
          exact ⟨_, ⟨before, _, after, node, rfl, split ▸ stackPath, joined⟩, rfl⟩
      · intro other otherEdge otherRest lower top _ otherBefore otherAfter first
        rw [stack] at top
        cases top
        have again := (first.unique stackPath).trans split
        rw [extended, eq_of_split first.nodup again]
        exact List.mem_append_right _ List.mem_cons_self
  · have nodes : search.stackNodes = node :: below.map Prod.fst := by simp [stackNodes, stack]
    have stackPath := tracing.onStack [] node (below.map Prod.fst) nodes
    rw [← nodes] at stackPath
    refine closing.of_step stepped ?_ (by simp [same, CycleDetectionVisitor.callbacks])
      (by simpa [same, CycleDetectionVisitor.callbacks] using closing.sound) ?_ ?_
    · simp [same, CycleDetectionVisitor.callbacks, path, stack, stackNodes]
    · intro other member
      rw [same] at member
      rcases List.mem_cons.mp member with rfl | visited
      · exact Or.inr fun later laterMem => ⟨_, by rw [same]; exact List.mem_cons_self, laterMem⟩
      · exact Or.inl visited
    · intro other otherEdge otherRest lower top _ before after first
      rw [stack] at top
      cases top
      have onPath : graph.target edge ∈ search.stackNodes.reverse :=
        first.unique stackPath ▸ List.mem_append_right _ List.mem_cons_self
      obtain ⟨frame, frameMem, rest⟩ := List.mem_map.mp (List.mem_reverse.mp onPath)
      exact absurd (show graph.target edge ∈ _ from rest ▸ searching.visited frame frameMem) fresh

/-- A search from a node reports exactly the cycles that it closes. -/
theorem traverse_closes (graph : DirectedGraph Node Edge) (selected : Edge → Bool)
    (ID : Node → Nat) (start : Node) :
    ∃ search, traverse graph .forward (CycleDetectionVisitor.callbacks ID) selected {} start =
        some search ∧
      ∀ reported, reported ∈ search.visitor.cycles ↔
        ∃ cycle, graph.Closes selected start cycle ∧
          reported = CycleDetectionVisitor.canonicalise ID cycle := by
  have base : Tracing graph .forward selected start
        (setup graph .forward (CycleDetectionVisitor.callbacks ID) {} start) ∧
      Closing graph selected ID start
        (setup graph .forward (CycleDetectionVisitor.callbacks ID) {} start) :=
    ⟨tracing_setup _ start, closing_setup start⟩
  obtain ⟨search, ran, ended, searching, _, closing⟩ :=
    @traverse_spec _ _ _ _ graph .forward (CycleDetectionVisitor.callbacks ID) selected
      (fun search => Tracing graph .forward selected start search ∧
        Closing graph selected ID start search) start {} base
      fun _ _ searching holds stepped =>
        ⟨holds.1.step searching stepped, holds.2.step searching holds.1 stepped⟩
  refine ⟨search, ran, fun reported => ⟨closing.sound reported, ?_⟩⟩
  rintro ⟨cycle, ⟨before, first, after, last, rfl, path, edge, edgeMem, followed, rfl⟩, rfl⟩
  have visited := (searching.visited_iff ended).mpr <|
    DirectedGraph.reachable_of_firstPath path
  rcases closing.complete last visited edge edgeMem followed before after path with
    ⟨rest, frame, _⟩ | reported
  · rw [ended] at frame
    cases frame
  · exact reported

/-- What the detector knows after searching from the starts. -/
structure Complete (graph : DirectedGraph Node Edge) (selected : Edge → Bool) (ID : Node → Nat)
    (starts : List Node) (detector : CycleDetector Node) : Prop where
  marked : ∀ node, node ∈ detector.visitedNodes ↔ graph.Marked selected starts node
  cycles : ∀ reported, reported ∈ detector.cycles ↔
    ∃ start ∈ starts, ∃ cycle, graph.Closes selected start cycle ∧
      reported = CycleDetectionVisitor.canonicalise ID cycle

/-- One more node is searched from unless it is marked. -/
theorem Complete.detectFrom {starts : List Node} {detector : CycleDetector Node}
    (complete : Complete graph selected ID starts detector) (node : Node) :
    ∃ next, CycleDetector.detectFrom graph selected ID detector node = some next ∧
      Complete graph selected ID (graph.searchedFrom selected starts node) next := by
  unfold CycleDetector.detectFrom
  by_cases marked : node ∈ detector.visitedNodes
  · have skipped : graph.searchedFrom selected starts node = starts :=
      if_pos ((complete.marked node).mp marked)
    rw [if_pos marked, skipped]
    exact ⟨detector, rfl, complete⟩
  · have searched : graph.searchedFrom selected starts node = starts ++ [node] :=
      if_neg (mt (complete.marked node).mpr marked)
    obtain ⟨search, ran, exact⟩ := traverse_closes graph selected ID node
    rw [if_neg marked, ran, searched]
    refine ⟨_, rfl, fun other => ?_, fun reported => ?_⟩
    · have onFound : (∃ found ∈ search.visitor.cycles, other ∈ found) ↔
          ∃ cycle, graph.Closes selected node cycle ∧ other ∈ cycle := by
        constructor
        · rintro ⟨found, foundMem, inside⟩
          obtain ⟨cycle, closes, rfl⟩ := (exact found).mp foundMem
          exact ⟨cycle, closes, mem_canonicalise.mp inside⟩
        · rintro ⟨cycle, closes, inside⟩
          exact ⟨_, (exact _).mpr ⟨cycle, closes, rfl⟩, mem_canonicalise.mpr inside⟩
      rw [List.mem_append, List.mem_flatten, List.mem_cons, onFound, complete.marked,
        DirectedGraph.marked_append]
      exact or_rotate.trans or_left_comm
    · rw [List.mem_union_iff, exact, complete.cycles]
      simp only [List.mem_append, List.mem_singleton, or_and_right, exists_or, exists_eq_left]
      exact or_comm

/-- Searching from the nodes of a list. -/
theorem exists_complete (graph : DirectedGraph Node Edge) (selected : Edge → Bool)
    (ID : Node → Nat) (nodes : List Node) :
    ∃ detector, nodes.foldlM (CycleDetector.detectFrom graph selected ID) {} = some detector ∧
      Complete graph selected ID (nodes.foldl (graph.searchedFrom selected) []) detector := by
  induction nodes using List.reverseRecOn with
  | nil => exact ⟨{}, rfl, by simp [DirectedGraph.Marked], by simp⟩
  | append_singleton nodes node ih =>
      obtain ⟨detector, folded, complete⟩ := ih
      obtain ⟨next, stepped, result⟩ := complete.detectFrom node
      refine ⟨next, ?_, ?_⟩
      · rw [List.foldlM_append, folded]
        simpa using stepped
      · simpa using result

/-- `detectCycles` reports the cycles that its searches close. -/
theorem detectCycles_closes (graph : DirectedGraph Node Edge) (selected : Edge → Bool)
    (ID : Node → Nat) :
    ∃ cycles, detectCycles graph selected ID = some cycles ∧
      ∀ reported, reported ∈ cycles ↔ ∃ start ∈ graph.searchStarts selected, ∃ cycle,
        graph.Closes selected start cycle ∧
          reported = CycleDetectionVisitor.canonicalise ID cycle := by
  obtain ⟨detector, folded, complete⟩ := exists_complete graph selected ID graph.nodes
  have ordered := List.mergeSort_perm detector.cycles (byNodeId ID)
  exact ⟨_, by rw [detectCycles, folded]; rfl, fun reported =>
    ordered.mem_iff.trans (complete.cycles reported)⟩

/-- The reported cycles are exactly the elementary cycles, up to rotation. -/
def ReportsAll (graph : DirectedGraph Node Edge) (selected : Edge → Bool) (ID : Node → Nat) : Prop :=
  ∃ cycles, detectCycles graph selected ID = some cycles ∧
    (∀ reported ∈ cycles, graph.IsCycle selected reported) ∧
    ∀ cycle, graph.IsCycle selected cycle → ∃ reported ∈ cycles, reported ~r cycle

end CycleDetector

open CycleDetector

/--
All cycles are reported exactly if each of them is closed, at one of its
nodes, by a search from a node that no search before has found on a cycle.
-/
theorem reportsAll_iff (graph : DirectedGraph Node Edge) (selected : Edge → Bool)
    (ID : Node → Nat) :
    ReportsAll graph selected ID ↔
      ∀ cycle, graph.IsCycle selected cycle → ∃ start ∈ graph.searchStarts selected,
        ∃ turned, turned ~r cycle ∧ graph.Closes selected start turned := by
  obtain ⟨cycles, detected, exact⟩ := detectCycles_closes graph selected ID
  simp only [ReportsAll, detected, Option.some.injEq, exists_eq_left']
  constructor
  · rintro ⟨_, complete⟩ cycle isCycle
    obtain ⟨reported, member, rotated⟩ := complete cycle isCycle
    obtain ⟨start, startMem, turned, closes, rfl⟩ := (exact reported).mp member
    exact ⟨start, startMem, turned, (canonicalise_isRotated turned).symm.trans rotated, closes⟩
  · intro closed
    constructor
    · intro reported member
      obtain ⟨start, _, turned, closes, rfl⟩ := (exact reported).mp member
      exact closes.isCycle.rotate _
    · intro cycle isCycle
      obtain ⟨start, startMem, turned, rotated, closes⟩ := closed cycle isCycle
      exact ⟨_, (exact _).mpr ⟨start, startMem, turned, closes, rfl⟩,
        (canonicalise_isRotated turned).trans rotated⟩

/-- The cycles `0 → 1 → 2 → 0` and `0 → 2 → 0`, where the edge to `1` is listed first. -/
def chordGraph : DirectedGraph Nat (Nat × Nat) where
  nodes := [0, 1, 2]
  edges := [(0, 1), (1, 2), (2, 0), (0, 2)]
  source := Prod.fst
  target := Prod.snd
  source_mem := by decide
  target_mem := by decide

/-- The search comes to `2` through `1`, so that the shorter cycle is not seen. -/
theorem chordGraph_missed : ¬ ReportsAll chordGraph (fun _ => true) id := by
  rintro ⟨cycles, detected, _, complete⟩
  have only : detectCycles chordGraph (fun _ => true) id = some [[0, 1, 2]] := by decide +kernel
  obtain rfl : cycles = [[0, 1, 2]] := Option.some.inj (detected.symm.trans only)
  have short : chordGraph.IsCycle (fun _ => true) [0, 2] := by
    refine ⟨by simp, by decide, ?_⟩
    simp [Cycle.chain_coe_cons, DirectedGraph.Joined, DirectedGraph.edgesOf, chordGraph,
      DirectedGraph.nextNode]
  obtain ⟨reported, member, rotated⟩ := complete _ short
  obtain rfl := List.mem_singleton.mp member
  exact absurd rotated.perm.length_eq (by decide)

end SlangNetlist
