import Mathlib.Algebra.BigOperators.Group.Finset.Piecewise
import SlangNetlist.Concurrency.LockInvariant
import SlangNetlist.Graph.DirectedGraphRuns
import SlangNetlist.Library.Linearization

/-!
# Edge insertion as a sequence of calls

Threads that insert edges leave the adjacency lists that the sequential graph
has after the same calls in some order.  A call takes its place in that order
when it acquires the lock of its source; a target may list the edge later.
-/

namespace SlangNetlist.EdgeLocks

open Library Adjacency

variable {Node Thread : Type}

/-! ## The sequential graph -/

/-- An allocator returns an address that is not in use. -/
structure Allocator (Node : Type) [DecidableEq Node] where
  allocate : DirectedGraph Node → Nat
  unused : ∀ graph : DirectedGraph Node, graph.Unused (allocate graph)

/-- The operation on the graph that a call is, with the address that it may take. -/
def Call.operation (address : Nat) : Call Node → Operation Node
  | addEdge source target => .addEdge source target address
  | addNewEdge source target => .addNewEdge source target address

/-- A call on the sequential graph. -/
def Call.run [DecidableEq Node] (allocator : Allocator Node) (graph : DirectedGraph Node)
    (call : Call Node) : Option (DirectedGraph Node) :=
  graph.operate (call.operation (allocator.allocate graph))

/-- The nodes that an edge joins. -/
def edgeEnds (edge : DirectedEdge Node) : Node × Node :=
  (edge.sourceNode, edge.targetNode)

/-- The edges of a graph, node by node. -/
def Edges.ofGraph (graph : DirectedGraph Node) : Edges Node where
  outEdges := graph.nodes.flatMap fun ref => (graph.node ref).outEdges.map edgeEnds
  inEdges := graph.nodes.flatMap fun ref => (graph.node ref).inEdges.map edgeEnds

/-- The edge of a call whose target does not list it yet. -/
def Call.pending (call : Call Node) : Phase → Option (Node × Node)
  | .targetWanted => some call.ends
  | .sourceLocked => some call.ends
  | .targetPending => some call.ends
  | .start => none
  | .bothLocked => none
  | .targetLocked => none
  | .finishing => none

section Agreement

variable (program : Program Node Thread)

/-- The edge that a thread has yet to enter at its target. -/
def pending (state : State Node Thread) (thread : Thread) : Option (Node × Node) :=
  (current program state thread).bind fun call => call.pending (state.progress thread).phase

variable [Fintype Thread] [DecidableEq Node]

/-- The threads that have yet to enter the edge at its target. -/
def awaiting (state : State Node Thread) (edge : Node × Node) : Finset Thread :=
  Finset.univ.filter fun thread => pending program state thread = some edge

/--
The sequential graph has the out-edges of the state in their order, and its
in-edges are those of the state and those that the threads have yet to enter.
-/
structure Agrees (graph : DirectedGraph Node) (state : State Node Thread) : Prop where
  outEdges : ∀ node, (graph.node node).outEdges.map edgeEnds =
    state.edges.outEdges.filter fun edge => edge.1 = node
  inEdges : ∀ edge : Node × Node, ((graph.node edge.2).inEdges.map edgeEnds).count edge =
    state.edges.inEdges.count edge + (awaiting program state edge).card

end Agreement

/-! ## One call -/

/-- Whether a call inserts an edge into the given ones. -/
def Call.Inserts (edges : List (Node × Node)) : Call Node → Prop
  | addEdge source target => (source, target) ∉ edges
  | addNewEdge _ _ => True

variable [DecidableEq Node]

/-- What a call does under the lock of its source. -/
theorem Call.enter_cases (call : Call Node) (edges : Edges Node) :
    (¬ call.Inserts edges.outEdges ∧ call.enter edges = (.finishing, edges)) ∨
      (call.Inserts edges.outEdges ∧ (call.enter edges).2.outEdges = edges.outEdges ++ [call.ends] ∧
        ((call.pending (call.enter edges).1 = some call.ends ∧
            (call.enter edges).2.inEdges = edges.inEdges) ∨
          (call.pending (call.enter edges).1 = none ∧
            (call.enter edges).2.inEdges = edges.inEdges ++ [call.ends]))) := by
  cases call with
  | addEdge source target =>
      simp only [Call.enter, Call.Inserts]
      split
      · next listed => exact .inl ⟨fun absent => absent listed, rfl⟩
      · next absent =>
          refine .inr ⟨absent, ?_⟩
          split
          · exact ⟨rfl, .inr ⟨rfl, rfl⟩⟩
          · exact ⟨rfl, .inl ⟨rfl, rfl⟩⟩
  | addNewEdge source target =>
      simp only [Call.enter, Call.Inserts]
      refine .inr ⟨trivial, ?_⟩
      split
      · exact ⟨rfl, .inr ⟨rfl, rfl⟩⟩
      · exact ⟨rfl, .inl ⟨rfl, rfl⟩⟩

/-- A call on the sequential graph appends its edge if it inserts one. -/
theorem Call.exists_run {graph : DirectedGraph Node} {listed : List (DirectedEdge Node)}
    (allocator : Allocator Node) (call : Call Node) (represents : graph.Represents listed)
    (inside : call.source ∈ graph.nodes ∧ call.target ∈ graph.nodes) :
    ∃ after, call.run allocator graph = some after ∧ after.nodes = graph.nodes ∧
      ((¬ call.Inserts (listed.map edgeEnds) ∧ after.Represents listed) ∨
        (call.Inserts (listed.map edgeEnds) ∧
          ∃ edge, edgeEnds edge = call.ends ∧ after.Represents (listed ++ [edge]))) := by
  obtain ⟨source, target⟩ := inside
  have unused := allocator.unused graph
  cases call with
  | addEdge sourceNode targetNode =>
      refine ⟨(graph.nodeAddEdge sourceNode targetNode (allocator.allocate graph)).2, ?_, ?_⟩
      · have sourceFound := DirectedGraph.isSome_findNode.mpr source
        have targetFound := DirectedGraph.isSome_findNode.mpr target
        simp only [Call.source, Call.target] at sourceFound targetFound
        simp [Call.run, Call.operation, DirectedGraph.operate, DirectedGraph.addEdge, sourceFound,
          targetFound]
      · rw [represents.nodeAddEdge]
        cases found : listed.find? (DirectedEdge.joins sourceNode targetNode) with
        | some existing =>
            refine ⟨rfl, .inl ⟨fun absent => absent ?_, represents⟩⟩
            refine List.mem_map.mpr ⟨existing, List.mem_of_find?_eq_some found, ?_⟩
            simpa [DirectedEdge.joins, edgeEnds] using List.find?_some found
        | none =>
            refine ⟨rfl, .inr ⟨fun member => ?_, _, ?_, represents.append source target unused⟩⟩
            · obtain ⟨edge, inList, same⟩ := List.mem_map.mp member
              have differs := List.find?_eq_none.mp found edge inList
              simp only [edgeEnds, Prod.mk.injEq] at same
              simp [DirectedEdge.joins, same.1, same.2] at differs
            · rfl
  | addNewEdge sourceNode targetNode =>
      refine ⟨(graph.nodeAddNewEdge sourceNode targetNode (allocator.allocate graph)).2, ?_, ?_⟩
      · have sourceFound := DirectedGraph.isSome_findNode.mpr source
        have targetFound := DirectedGraph.isSome_findNode.mpr target
        simp only [Call.source, Call.target] at sourceFound targetFound
        simp [Call.run, Call.operation, DirectedGraph.operate, DirectedGraph.addNewEdge,
          sourceFound, targetFound]
      · rw [DirectedGraph.nodeAddNewEdge_eq]
        exact ⟨rfl, .inr ⟨trivial, _, rfl, represents.append source target unused⟩⟩

/-! ## One step -/

section Steps

variable {program : Program Node Thread} {state next : State Node Thread} {thread : Thread}
  {call : Call Node}

omit [DecidableEq Node] in
theorem pending_eq (running : current program state thread = some call) :
    pending program state thread = call.pending (state.progress thread).phase := by
  rw [pending, running]
  rfl

omit [DecidableEq Node] in
/-- A thread that has not entered its call has no edge to enter at a target. -/
theorem pending_of_start (outside : (state.progress thread).phase = .start) :
    pending program state thread = none := by
  rw [pending, outside]
  cases current program state thread <;> rfl

variable [DecidableEq Thread]

/-- The moving thread: what it has begun, the edges, and what it has yet to enter. -/
theorem apply_cases (running : current program state thread = some call) {after : State Node Thread}
    (moved : after = state.apply thread (call.move state.edges (state.progress thread).phase)) :
    (begun program after thread = begun program state thread ++ [call] ∧
        after.edges = (call.enter state.edges).2 ∧ pending program state thread = none ∧
        pending program after thread = call.pending (call.enter state.edges).1) ∨
      (begun program after thread = begun program state thread ∧
        after.edges.outEdges = state.edges.outEdges ∧
        ((after.edges.inEdges = state.edges.inEdges ++ [call.ends] ∧
            pending program state thread = some call.ends ∧
            pending program after thread = none) ∨
          (after.edges.inEdges = state.edges.inEdges ∧
            pending program after thread = pending program state thread))) := by
  subst moved
  cases place : (state.progress thread).phase with
  | start =>
      refine .inl ⟨begun_enter running place, rfl, pending_of_start place, ?_⟩
      rw [pending_eq ((current_apply rfl).trans running), apply_progress_self]
      rfl
  | targetWanted =>
      refine .inr ⟨place ▸ begun_continue (by rw [place]; decide), rfl, .inl ⟨rfl, ?_, ?_⟩⟩
      · rw [pending_eq running, place]
        rfl
      · rw [pending_eq ((current_apply rfl).trans running), apply_progress_self]
        rfl
  | targetPending =>
      refine .inr ⟨place ▸ begun_continue (by rw [place]; decide), rfl, .inl ⟨rfl, ?_, ?_⟩⟩
      · rw [pending_eq running, place]
        rfl
      · rw [pending_eq ((current_apply rfl).trans running), apply_progress_self]
        rfl
  | bothLocked | sourceLocked =>
      refine .inr ⟨place ▸ begun_continue (by rw [place]; decide), rfl, .inr ⟨rfl, ?_⟩⟩
      rw [pending_eq ((current_apply rfl).trans running), pending_eq running, place,
        apply_progress_self]
      rfl
  | targetLocked | finishing =>
      refine .inr ⟨place ▸ begun_continue (by rw [place]; decide), rfl, .inr ⟨rfl, ?_⟩⟩
      rw [pending_eq running, place, pending_of_start]
      · rfl
      · rw [apply_progress_self]
        rfl

variable [Fintype Thread]

omit [DecidableEq Node] [Fintype Thread] in
theorem pending_apply_of_ne {other : Thread} {move : Move Node} (apart : other ≠ thread) :
    pending program (state.apply thread move) other = pending program state other := by
  rw [pending, current_apply_of_ne apart, apply_progress_of_ne apart, pending]

/-- The threads that wait to enter an edge, counted over a step of one thread. -/
theorem card_awaiting (others : ∀ other ≠ thread,
      pending program next other = pending program state other) (edge : Node × Node) :
    (awaiting program next edge).card +
        (if pending program state thread = some edge then 1 else 0) =
      (awaiting program state edge).card +
        (if pending program next thread = some edge then 1 else 0) := by
  have elsewhere : ∑ other ∈ Finset.univ.erase thread,
        (if pending program next other = some edge then 1 else 0) =
      ∑ other ∈ Finset.univ.erase thread,
        (if pending program state other = some edge then 1 else 0) :=
    Finset.sum_congr rfl fun other member => by rw [others other (Finset.ne_of_mem_erase member)]
  simp only [awaiting, Finset.card_filter]
  rw [← Finset.add_sum_erase _ _ (Finset.mem_univ thread),
    ← Finset.add_sum_erase (Finset.univ : Finset Thread)
      (fun other => if pending program state other = some edge then 1 else 0)
      (Finset.mem_univ thread), elsewhere]
  omega

end Steps

/-! ## Runs -/

section Runs

variable {program : Program Node Thread} {state next : State Node Thread} {thread : Thread}
  {graph : DirectedGraph Node} {listed : List (DirectedEdge Node)} [Fintype Thread]

variable (program) in
/-- The sequential graph represents a list of edges that the state follows. -/
structure Follows (graph : DirectedGraph Node) (listed : List (DirectedEdge Node))
    (state : State Node Thread) : Prop where
  represents : graph.Represents listed
  inside : ∀ thread, ∀ call ∈ program thread,
    call.source ∈ graph.nodes ∧ call.target ∈ graph.nodes
  outEdges : ∀ node, ((listed.map edgeEnds).filter fun edge => edge.1 = node) =
    state.edges.outEdges.filter fun edge => edge.1 = node
  inEdges : ∀ edge, (listed.map edgeEnds).count edge =
    state.edges.inEdges.count edge + (awaiting program state edge).card

theorem map_edgeEnds_filter (part : Node × Node → Node) (node : Node) :
    (listed.filter fun edge => part (edgeEnds edge) = node).map edgeEnds =
      (listed.map edgeEnds).filter fun edge => part edge = node := by
  rw [List.filter_map]
  rfl

theorem Follows.agrees (follows : Follows program graph listed state) :
    Agrees program graph state where
  outEdges node := by
    rw [follows.represents.outEdges, ← follows.outEdges, ← map_edgeEnds_filter Prod.fst]
    rfl
  inEdges edge := by
    rw [follows.represents.inEdges, ← follows.inEdges]
    have targets : (listed.filter fun other => other.targetNode = edge.2).map edgeEnds =
        (listed.map edgeEnds).filter fun other => other.2 = edge.2 :=
      map_edgeEnds_filter Prod.snd edge.2
    calc
      _ = ((listed.map edgeEnds).filter fun other => other.2 = edge.2).count edge :=
        congrArg (List.count edge) targets
      _ = _ := List.count_filter (by simp)

/-- An edge is listed at its source if some list of edges of the source has it. -/
theorem Follows.mem_iff (follows : Follows program graph listed state) {edge : Node × Node} :
    edge ∈ listed.map edgeEnds ↔ edge ∈ state.edges.outEdges := by
  have same : edge ∈ ((listed.map edgeEnds).filter fun other => other.1 = edge.1) ↔
      edge ∈ state.edges.outEdges.filter fun other => other.1 = edge.1 := by
    rw [follows.outEdges]
  simpa using same

/-- The state and the list have each edge equally often. -/
theorem Follows.count_outEdges (follows : Follows program graph listed state)
    (edge : Node × Node) :
    state.edges.outEdges.count edge = (listed.map edgeEnds).count edge := by
  have same := congrArg (List.count edge) (follows.outEdges edge.1)
  rw [List.count_filter (by simp), List.count_filter (by simp)] at same
  exact same.symm

omit [Fintype Thread] in
/-- A graph represents each edge equally often in every list of its edges. -/
theorem count_of_represents {other : List (DirectedEdge Node)} (one : graph.Represents listed)
    (two : graph.Represents other) (edge : Node × Node) :
    (listed.map edgeEnds).count edge = (other.map edgeEnds).count edge := by
  have outEdges : ((listed.map edgeEnds).filter fun other => other.1 = edge.1) =
      (other.map edgeEnds).filter fun other => other.1 = edge.1 := by
    rw [← map_edgeEnds_filter Prod.fst, ← map_edgeEnds_filter Prod.fst]
    exact congrArg (List.map edgeEnds) ((one.outEdges edge.1).symm.trans (two.outEdges edge.1))
  have same := congrArg (List.count edge) outEdges
  rwa [List.count_filter (by simp), List.count_filter (by simp)] at same

theorem Follows.inserts_iff (follows : Follows program graph listed state) {call : Call Node} :
    call.Inserts (listed.map edgeEnds) ↔ call.Inserts state.edges.outEdges := by
  cases call with
  | addEdge source target => exact not_congr follows.mem_iff
  | addNewEdge source target => exact Iff.rfl

theorem awaiting_eq_empty (idle : ∀ thread, pending program state thread = none)
    (edge : Node × Node) : awaiting program state edge = ∅ := by
  rw [awaiting, Finset.filter_eq_empty_iff]
  intro thread _ waits
  rw [idle] at waits
  cases waits

variable [DecidableEq Thread]

/-- A step of a thread follows the call that it begins, if it begins one. -/
theorem Follows.commits (allocator : Allocator Node)
    (follows : Follows program graph listed state)
    (stepped : advance program state thread = some next) :
    Commits (Call.run allocator) (begun program)
      (fun graph state => ∃ listed, Follows program graph listed state) graph state thread
      next := by
  obtain ⟨call, running, free, moved⟩ := advance_eq_some stepped
  have others : ∀ other ≠ thread, pending program next other = pending program state other := by
    rintro other apart
    rw [moved, pending_apply_of_ne apart]
  have othersBegun : ∀ other ≠ thread, begun program next other = begun program state other := by
    rintro other apart
    rw [moved, begun_apply_of_ne apart]
  have awaited := card_awaiting others
  rcases apply_cases running moved with ⟨begins, edges, before, after⟩ | ⟨same, outEdges, delivery⟩
  · have member : call ∈ program thread := List.mem_of_getElem? running
    obtain ⟨inserted, ran, nodes, result⟩ :=
      call.exists_run allocator follows.represents (follows.inside thread call member)
    have inside : ∀ thread, ∀ call ∈ program thread,
        call.source ∈ inserted.nodes ∧ call.target ∈ inserted.nodes := nodes ▸ follows.inside
    refine .acts ran ?_ begins othersBegun
    rcases call.enter_cases state.edges with ⟨absent, entered⟩ | ⟨inserts, outEdges, inEdges⟩
    · rcases result with ⟨_, represents⟩ | ⟨inserts, _⟩
      · refine ⟨listed, represents, inside, ?_, fun edge => ?_⟩
        · rw [edges, entered]
          exact follows.outEdges
        · have unmoved := awaited edge
          rw [before, after, entered] at unmoved
          rw [edges, entered, follows.inEdges]
          simp only [Call.pending, reduceCtorEq, if_false, Nat.add_zero] at unmoved
          rw [unmoved]
      · exact absurd (follows.inserts_iff.mp inserts) absent
    · rcases result with ⟨absent, _⟩ | ⟨_, edge, ends, represents⟩
      · exact absurd (follows.inserts_iff.mpr inserts) absent
      · refine ⟨listed ++ [edge], represents, inside, fun node => ?_, fun other => ?_⟩
        · rw [edges, outEdges, List.map_append, List.filter_append, follows.outEdges,
            List.filter_append, List.map_singleton, ends]
        · have moves := awaited other
          rw [before, after] at moves
          rw [edges, List.map_append, List.count_append, List.map_singleton, ends,
            follows.inEdges]
          rcases inEdges with ⟨waits, kept⟩ | ⟨done, entered⟩
          · rw [waits] at moves
            rw [kept, List.count_singleton]
            simp only [reduceCtorEq, if_false, Nat.add_zero, Option.some.injEq] at moves
            simp only [beq_iff_eq]
            omega
          · rw [done] at moves
            rw [entered, List.count_append]
            simp only [reduceCtorEq, if_false, Nat.add_zero] at moves
            omega
  · refine .silent ⟨listed, follows.represents, follows.inside, ?_, fun edge => ?_⟩ ?_
    · rw [outEdges]
      exact follows.outEdges
    · have moves := awaited edge
      rw [follows.inEdges]
      rcases delivery with ⟨entered, before, after⟩ | ⟨kept, unmoved⟩
      · rw [before, after] at moves
        rw [entered, List.count_append, List.count_singleton]
        simp only [reduceCtorEq, if_false, Nat.add_zero, Option.some.injEq] at moves
        simp only [beq_iff_eq]
        omega
      · rw [unmoved] at moves
        rw [kept]
        omega
    · intro other
      by_cases mover : other = thread
      · rw [mover, same]
      · exact othersBegun other mover

omit [DecidableEq Node] [Fintype Thread] [DecidableEq Thread] in
/-- Edges listed node by node, seen from one node. -/
theorem filter_flatMap_filter [DecidableEq Node] (part : Node × Node → Node)
    (edges : List (Node × Node)) {nodes : List Node} (nodup : nodes.Nodup) {node : Node}
    (known : ∀ edge ∈ edges, part edge = node → node ∈ nodes) :
    ((nodes.flatMap fun ref => edges.filter fun edge => part edge = ref).filter
        fun edge => part edge = node) =
      edges.filter fun edge => part edge = node := by
  have whole : ∀ nodes : List Node, nodes.Nodup →
      ((nodes.flatMap fun ref => edges.filter fun edge => part edge = ref).filter
          fun edge => part edge = node) =
        if node ∈ nodes then edges.filter fun edge => part edge = node else [] := by
    intro nodes nodup
    induction nodes with
    | nil => rfl
    | cons ref rest ih =>
        obtain ⟨absent, nodup⟩ := List.nodup_cons.mp nodup
        rw [List.flatMap_cons, List.filter_append, ih nodup, List.filter_filter]
        by_cases same : ref = node
        · subst ref
          simp [absent]
        · have none : (edges.filter fun edge => decide (part edge = node) && decide (part edge = ref)) =
              [] := by
            rw [List.filter_eq_nil_iff]
            intro edge _ both
            simp only [Bool.and_eq_true, decide_eq_true_eq] at both
            exact same (both.2.symm.trans both.1)
          rw [none]
          simp [Ne.symm same]
  rw [whole nodes nodup]
  split
  · rfl
  · next absent =>
      symm
      rw [List.filter_eq_nil_iff]
      intro edge member same
      exact absent (known edge member (by simpa using same))

omit [DecidableEq Thread] in
/-- Before any step the state follows the graph that it starts from. -/
theorem follows_initial (represents : graph.Represents listed)
    (inside : ∀ thread, ∀ call ∈ program thread,
      call.source ∈ graph.nodes ∧ call.target ∈ graph.nodes) :
    Follows program graph listed (initial (Edges.ofGraph graph)) := by
  have known : ∀ edge ∈ listed.map edgeEnds, edge.1 ∈ graph.nodes ∧ edge.2 ∈ graph.nodes := by
    intro edge member
    obtain ⟨joined, inList, rfl⟩ := List.mem_map.mp member
    exact represents.ends joined inList
  have outEdges : ∀ ref, (graph.node ref).outEdges.map edgeEnds =
      (listed.map edgeEnds).filter fun edge => edge.1 = ref := fun ref => by
    rw [represents.outEdges]
    exact map_edgeEnds_filter Prod.fst ref
  have inEdges : ∀ ref, (graph.node ref).inEdges.map edgeEnds =
      (listed.map edgeEnds).filter fun edge => edge.2 = ref := fun ref => by
    rw [represents.inEdges]
    exact map_edgeEnds_filter Prod.snd ref
  refine ⟨represents, inside, fun node => ?_, fun edge => ?_⟩
  · simp only [initial, Edges.ofGraph, outEdges]
    rw [filter_flatMap_filter Prod.fst _ represents.nodup]
    rintro edge member rfl
    exact (known edge member).1
  · have idle : awaiting program (initial (Edges.ofGraph graph)) edge = ∅ :=
      awaiting_eq_empty (fun thread => pending_of_start rfl) edge
    have targets := filter_flatMap_filter Prod.snd (listed.map edgeEnds) represents.nodup
      fun other member (same : other.2 = edge.2) => same ▸ (known other member).2
    have counted := congrArg (List.count edge) targets
    rw [List.count_filter (by simp), List.count_filter (by simp)] at counted
    rw [idle, Finset.card_empty, Nat.add_zero]
    simp only [initial, Edges.ofGraph, inEdges]
    exact counted.symm

/-- The order of the calls of a reached state goes on in every run from it. -/
theorem exists_more (allocator : Allocator Node) {history : List (Thread × Call Node)}
    (linear : Linearizes (Call.run allocator) (begun program)
      (fun graph state => ∃ listed, Follows program graph listed state) graph history state)
    (reached : Reaches (advance program) state next) :
    ∃ more, Linearizes (Call.run allocator) (begun program)
      (fun graph state => ∃ listed, Follows program graph listed state) graph (history ++ more)
      next := by
  refine linear.extends_of_reaches (fun _ => True) (fun _ _ _ _ _ => trivial) ?_ trivial reached
  rintro spec state thread next _ ⟨listed, follows⟩ stepped
  exact follows.commits allocator stepped

theorem exists_history (allocator : Allocator Node) (represents : graph.Represents listed)
    (inside : ∀ thread, ∀ call ∈ program thread,
      call.source ∈ graph.nodes ∧ call.target ∈ graph.nodes)
    (reached : Reaches (advance program) (initial (Edges.ofGraph graph)) state) :
    ∃ history, Linearizes (Call.run allocator) (begun program)
      (fun graph state => ∃ listed, Follows program graph listed state) graph history state :=
  exists_more allocator
    (.initial (fun _ => rfl) ⟨listed, follows_initial represents inside⟩) reached

/--
Every interleaving is the calls in some order: the threads' own orders are kept,
a later state continues the order, and the sequential graph after the calls has
the edges of the state.
-/
theorem edges_linearizable (allocator : Allocator Node) {operations : List (Operation Node)}
    (built : GuardedRun DirectedGraph.operate DirectedGraph.Accepts {} operations graph)
    (inside : ∀ thread, ∀ call ∈ program thread,
      call.source ∈ graph.nodes ∧ call.target ∈ graph.nodes)
    (reached : Reaches (advance program) (initial (Edges.ofGraph graph)) state) :
    ∃ history, Linearizes (Call.run allocator) (begun program) (Agrees program) graph history
        state ∧
      ∀ next, Reaches (advance program) state next → ∃ more,
        Linearizes (Call.run allocator) (begun program) (Agrees program) graph (history ++ more)
          next := by
  obtain ⟨listed, represents⟩ := DirectedGraph.represents_run built
  have weakens : ∀ {history : List (Thread × Call Node)} {state : State Node Thread},
      Linearizes (Call.run allocator) (begun program)
        (fun graph state => ∃ listed, Follows program graph listed state) graph history state →
      Linearizes (Call.run allocator) (begun program) (Agrees program) graph history state := by
    rintro history state ⟨order, after, run, _, follows⟩
    exact ⟨order, after, run, follows.agrees⟩
  obtain ⟨history, linear⟩ := exists_history allocator represents inside reached
  refine ⟨history, weakens linear, fun next further => ?_⟩
  obtain ⟨more, extended⟩ := exists_more allocator linear further
  exact ⟨more, weakens extended⟩

end Runs

/-! ## The edges in the end -/

/-- Take the address after the largest one that is in use. -/
def Allocator.next : Allocator Node where
  allocate graph :=
    ((graph.nodes.flatMap fun ref => (graph.node ref).outEdges.map DirectedEdge.address).foldr
      max 0) + 1
  unused := by
    intro graph ref inside edge member same
    have bounded : ∀ (addresses : List Nat) (address : Nat), address ∈ addresses →
        address ≤ addresses.foldr max 0 := by
      intro addresses address listed
      induction addresses with
      | nil => cases listed
      | cons first rest ih =>
          rcases List.mem_cons.mp listed with rfl | later
          · exact Nat.le_max_left _ _
          · exact (ih later).trans (Nat.le_max_right _ _)
    have listed : edge.address ∈
        graph.nodes.flatMap fun ref => (graph.node ref).outEdges.map DirectedEdge.address :=
      List.mem_flatMap.mpr ⟨ref, inside, List.mem_map.mpr ⟨edge, member, rfl⟩⟩
    have small := bounded _ _ listed
    rw [same] at small
    exact absurd small (Nat.not_succ_le_self _)

section Finished

variable {program : Program Node Thread} {state : State Node Thread} {graph : DirectedGraph Node}
  {listed : List (DirectedEdge Node)}

/-- A sequence of `addEdge` calls adds each edge that is missing, once. -/
theorem count_run {allocator : Allocator Node} {calls : List (Call Node)}
    {after : DirectedGraph Node} (represents : graph.Represents listed)
    (inside : ∀ call ∈ calls, call.source ∈ graph.nodes ∧ call.target ∈ graph.nodes)
    (adds : ∀ call ∈ calls, call = .addEdge call.source call.target)
    (run : Run (Call.run allocator) graph calls after) :
    ∃ later, after.Represents later ∧ after.nodes = graph.nodes ∧
      ∀ edge, (later.map edgeEnds).count edge = max ((listed.map edgeEnds).count edge)
        (if ∃ call ∈ calls, call.ends = edge then 1 else 0) := by
  induction run with
  | nil => exact ⟨listed, represents, rfl, fun edge => by simp⟩
  | @snoc calls middle after call run _ stepped ih =>
      obtain ⟨between, represented, nodes, counts⟩ :=
        ih (fun earlier member => inside earlier (List.mem_append_left _ member))
          fun earlier member => adds earlier (List.mem_append_left _ member)
      have last : call ∈ calls ++ [call] := List.mem_append_right _ (List.mem_singleton_self _)
      obtain ⟨inserted, ran, kept, result⟩ :=
        call.exists_run allocator represented (nodes ▸ inside call last)
      cases stepped.symm.trans ran
      have added := adds call last
      rcases result with ⟨absent, later⟩ | ⟨inserts, edge, ends, later⟩
      · refine ⟨between, later, kept.trans nodes, fun other => ?_⟩
        have present : call.ends ∈ between.map edgeEnds := by
          rw [added] at absent
          exact not_not.mp absent
        rw [counts]
        by_cases same : call.ends = other
        · subst other
          have positive := List.count_pos_iff.mpr present
          rw [counts] at positive
          have now : ∃ other ∈ calls ++ [call], other.ends = call.ends := ⟨call, last, rfl⟩
          rw [if_pos now]
          by_cases earlier : ∃ other ∈ calls, other.ends = call.ends
          · rw [if_pos earlier]
          · rw [if_neg earlier] at positive ⊢
            omega
        · simp [or_and_right, exists_or, same]
      · refine ⟨between ++ [edge], later, kept.trans nodes, fun other => ?_⟩
        have missing : call.ends ∉ between.map edgeEnds := by
          rw [added] at inserts
          exact inserts
        rw [List.map_append, List.count_append, List.map_singleton, ends, counts]
        by_cases same : call.ends = other
        · subst other
          have zero := List.count_eq_zero.mpr missing
          rw [counts] at zero
          rw [zero]
          obtain ⟨before, _⟩ := Nat.max_eq_zero_iff.mp zero
          rw [before]
          simp [or_and_right, exists_or]
        · simp [or_and_right, exists_or, same]

variable [Fintype Thread] [DecidableEq Thread]

omit [DecidableEq Node] [Fintype Thread] [DecidableEq Thread] in
/-- A thread that has returned from all calls has begun them. -/
theorem begun_of_finished {thread : Thread} (finished : current program state thread = none) :
    begun program state thread = program thread := by
  have past := List.getElem?_eq_none_iff.mp finished
  rw [begun]
  apply List.take_of_length_le
  split <;> omega

variable (program) in
/-- The state has the given edges, and the edges of the calls once each. -/
structure AddedOnce (edges : Edges Node) (state : State Node Thread) : Prop where
  kept : ∀ edge ∈ edges.outEdges, state.edges.outEdges.count edge = edges.outEdges.count edge
  added : ∀ thread, ∀ call ∈ program thread, call.ends ∉ edges.outEdges →
    state.edges.outEdges.count call.ends = 1
  only : ∀ edge ∈ state.edges.outEdges, edge ∈ edges.outEdges ∨
    ∃ thread, ∃ call ∈ program thread, call.ends = edge
  mirrored : state.edges.inEdges.Perm state.edges.outEdges

/-- When all threads have returned from their `addEdge` calls, the edges are those of any order. -/
theorem finished_addEdges {operations : List (Operation Node)}
    (built : GuardedRun DirectedGraph.operate DirectedGraph.Accepts {} operations graph)
    (inside : ∀ thread, ∀ call ∈ program thread,
      call.source ∈ graph.nodes ∧ call.target ∈ graph.nodes)
    (adds : ∀ thread, ∀ call ∈ program thread, call = .addEdge call.source call.target)
    (reached : Reaches (advance program) (initial (Edges.ofGraph graph)) state)
    (finished : ∀ thread, current program state thread = none) :
    AddedOnce program (Edges.ofGraph graph) state := by
  obtain ⟨listed, represents⟩ := DirectedGraph.represents_run built
  obtain ⟨history, order, after, run, final, follows⟩ :=
    exists_history .next represents inside reached
  have called : ∀ call, call ∈ history.map Prod.snd ↔ ∃ thread, call ∈ program thread := by
    intro call
    have begun : ∀ thread, call ∈ ofThread thread history ↔ call ∈ program thread := fun thread => by
      rw [order thread, begun_of_finished (finished thread)]
    simp only [← begun, mem_ofThread, List.mem_map, Prod.exists, exists_eq_right]
  obtain ⟨later, represented, _, counts⟩ := count_run represents
    (fun call member => (called call).mp member |>.elim fun thread => inside thread call)
    (fun call member => (called call).mp member |>.elim fun thread => adds thread call) run
  have count : ∀ edge, state.edges.outEdges.count edge =
      max ((Edges.ofGraph graph).outEdges.count edge)
        (if ∃ call ∈ history.map Prod.snd, call.ends = edge then 1 else 0) := by
    intro edge
    have initially := (follows_initial represents inside).count_outEdges edge
    rw [follows.count_outEdges, count_of_represents follows.represents represented, counts,
      ← initially]
    rfl
  refine ⟨fun edge given => ?_, fun thread call member absent => ?_, fun edge listed => ?_, ?_⟩
  · have positive := List.count_pos_iff.mpr given
    rw [count]
    split <;> omega
  · have begins : ∃ other ∈ history.map Prod.snd, other.ends = call.ends :=
      ⟨call, (called call).mpr ⟨thread, member⟩, rfl⟩
    rw [count, if_pos begins, List.count_eq_zero.mpr absent]
    rfl
  · have positive := List.count_pos_iff.mpr listed
    rw [count] at positive
    by_cases begins : ∃ call ∈ history.map Prod.snd, call.ends = edge
    · obtain ⟨call, member, ends⟩ := begins
      obtain ⟨thread, inProgram⟩ := (called call).mp member
      exact .inr ⟨thread, call, inProgram, ends⟩
    · rw [if_neg begins] at positive
      exact .inl (List.count_pos_iff.mp (by omega))
  · rw [List.perm_iff_count]
    intro edge
    have idle : awaiting program state edge = ∅ := by
      apply awaiting_eq_empty
      intro thread
      rw [pending, finished thread]
      rfl
    have entered := follows.inEdges edge
    rw [idle, Finset.card_empty, Nat.add_zero] at entered
    rw [follows.count_outEdges, entered]

end Finished

/-! ## Two threads and one edge -/

/-- Two nodes without edges. -/
def twoNodes : DirectedGraph Bool :=
  (({} : DirectedGraph Bool).addNode false).addNode true

theorem built_twoNodes : GuardedRun DirectedGraph.operate DirectedGraph.Accepts {}
    [.addNode false, .addNode true] twoNodes :=
  (GuardedRun.single (by decide) rfl).snoc (by decide) rfl

/-- The state after the threads have moved in the given order. -/
def stateAfter (program : Program Bool Bool) (schedule : List Bool)
    (runs : (schedule.foldlM (advance program) (initial (Edges.ofGraph twoNodes))).isSome) :
    State Bool Bool :=
  (schedule.foldlM (advance program) (initial (Edges.ofGraph twoNodes))).get runs

theorem reaches_stateAfter (program : Program Bool Bool) (schedule : List Bool)
    (runs : (schedule.foldlM (advance program) (initial (Edges.ofGraph twoNodes))).isSome) :
    Reaches (advance program) (initial (Edges.ofGraph twoNodes))
      (stateAfter program schedule runs) :=
  ⟨schedule, .of_foldlM_of_forall (Option.some_get runs).symm fun _ _ _ _ _ _ => trivial⟩

/-- One thread adds the edge in any case, the other one if it is missing. -/
def sharedEdge : Program Bool Bool :=
  fun thread => if thread then [.addEdge false true] else [.addNewEdge false true]

/-- The second thread returns before the target of the first one lists the edge. -/
def sharedEdgeState : State Bool Bool :=
  stateAfter sharedEdge [false, false, true, true] (by decide +kernel)

theorem edges_linearizable_sharedEdge :
    ∃ history, Linearizes (Call.run .next) (begun sharedEdge) (Agrees sharedEdge) twoNodes history
        sharedEdgeState ∧
      ∀ next, Reaches (advance sharedEdge) sharedEdgeState next → ∃ more,
        Linearizes (Call.run .next) (begun sharedEdge) (Agrees sharedEdge) twoNodes
          (history ++ more) next :=
  edges_linearizable .next built_twoNodes (by decide) (reaches_stateAfter _ _ _)

example : current sharedEdge sharedEdgeState true = none ∧ sharedEdgeState.edges.inEdges = [] := by
  decide +kernel

/-- Both threads add the edge if it is missing. -/
def sameEdge : Program Bool Bool :=
  fun _ => [.addEdge false true]

def sameEdgeState : State Bool Bool :=
  stateAfter sameEdge [false, false, false, false, true, true] (by decide +kernel)

theorem finished_addEdges_sameEdge :
    AddedOnce sameEdge (Edges.ofGraph twoNodes) sameEdgeState :=
  finished_addEdges built_twoNodes (by decide) (by decide) (reaches_stateAfter _ _ _)
    (by decide +kernel)

end SlangNetlist.EdgeLocks
