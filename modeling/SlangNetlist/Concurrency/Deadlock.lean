import Mathlib.Algebra.Order.BigOperators.Group.Finset
import Mathlib.Algebra.BigOperators.Group.Finset.Basic
import SlangNetlist.Concurrency.LockInvariant

/-!
# Deadlocks of edge insertion

`addEdge` locks the source before the target, which is an order for each edge
and not an order of the nodes.  The calls deadlock exactly when some threads can
stand at once before the insertion of new edges that lead in a circle.
-/

namespace SlangNetlist.EdgeLocks

open Library

variable {Node Thread : Type} {program : Program Node Thread} {edges : Edges Node}
  {state next : State Node Thread} {thread other : Thread} {call : Call Node}

variable (program) in
/-- Threads, each before a call of `addEdge` on a node of its own to a node that another of them
calls it on, where neither the graph nor an earlier call of these threads has the edge. -/
structure Knot (edges : Edges Node) (waiting : Finset Thread) (position : Thread → Nat)
    (source target : Thread → Node) : Prop where
  nonempty : waiting.Nonempty
  inserts : ∀ thread ∈ waiting,
    (program thread)[position thread]? = some (.addEdge (source thread) (target thread))
  apart : ∀ thread ∈ waiting, source thread ≠ target thread
  distinct : ∀ one ∈ waiting, ∀ two ∈ waiting, source one = source two → one = two
  closed : ∀ thread ∈ waiting, ∃ next ∈ waiting, target thread = source next
  absent : ∀ thread ∈ waiting, (source thread, target thread) ∉ edges.outEdges
  first : ∀ thread ∈ waiting, ∀ other ∈ waiting,
    ∀ earlier ∈ (program other).take (position other),
      earlier.ends ≠ (source thread, target thread)

variable (program) in
/-- Some threads can stand in a knot. -/
def Knotted (edges : Edges Node) : Prop :=
  ∃ waiting position source target, Knot program edges waiting position source target

theorem held_of_start (outside : (state.progress thread).phase = .start) :
    held program state thread = [] := by
  rw [held]
  split
  · rfl
  · rw [outside, Call.locks]

section Solo

variable [DecidableEq Thread]

/-- All other threads are between calls. -/
def Alone (state : State Node Thread) (thread : Thread) : Prop :=
  ∀ other ≠ thread, (state.progress other).phase = .start

theorem Alone.apply {move : Move Node} (alone : Alone state thread) :
    Alone (state.apply thread move) thread := by
  intro other apart
  rw [apply_progress_of_ne apart]
  exact alone other apart

variable [DecidableEq Node] [Fintype Thread]

omit [DecidableEq Thread] [DecidableEq Node] [Fintype Thread] in
theorem Alone.free {node : Node} (alone : Alone state thread)
    (unheld : node ∉ held program state thread) : Free program state node := by
  intro other holds
  by_cases same : other = thread
  · exact unheld (same ▸ holds)
  · rw [held_of_start (alone other same)] at holds
    cases holds

variable (program) in
/-- A thread can return from its call without changing out-edges. -/
def Completes (state : State Node Thread) (thread : Thread) : Prop :=
  ∃ next, Reaches (advance program) state next ∧
    next.progress = Function.update state.progress thread
      { position := (state.progress thread).position + 1 } ∧
    next.edges.outEdges = state.edges.outEdges

/-- A thread that can return after its next step can return. -/
theorem Completes.of_apply {phase : Phase}
    (running : current program state thread = some call)
    (free : ∀ node ∈ (call.move state.edges (state.progress thread).phase).lock,
      Free program state node)
    (inside : (state.progress thread).phase ≠ .start)
    (stays : (call.move state.edges (state.progress thread).phase).phase = some phase)
    (later : Completes program
      (state.apply thread (call.move state.edges (state.progress thread).phase)) thread) :
    Completes program state thread := by
  obtain ⟨next, reached, progress, outEdges⟩ := later
  refine ⟨next, ((Reaches.refl _ _).snoc (advance_of_free running free)).trans reached, ?_, ?_⟩
  · rw [progress, apply_progress_self, stays, State.apply, Function.update_idem]
    rfl
  · rw [outEdges, State.apply, outEdges_continue inside]

/-- The release of the last lock ends the call. -/
theorem completes_of_return (running : current program state thread = some call)
    (inside : (state.progress thread).phase ≠ .start)
    (unlocks : (call.move state.edges (state.progress thread).phase).lock = none)
    (returns : (call.move state.edges (state.progress thread).phase).phase = none) :
    Completes program state thread := by
  refine ⟨_, (Reaches.refl _ _).snoc (advance_of_free running ?_), ?_, ?_⟩
  · rw [unlocks]
    exact fun node wanted => nomatch wanted
  · rw [State.apply, returns]
    rfl
  · rw [State.apply, outEdges_continue inside]

theorem completes_of_finishing (running : current program state thread = some call)
    (place : (state.progress thread).phase = .finishing) : Completes program state thread :=
  completes_of_return running (by simp [place]) (by rw [place]; rfl) (by rw [place]; rfl)

theorem completes_of_bothLocked (running : current program state thread = some call)
    (place : (state.progress thread).phase = .bothLocked) : Completes program state thread := by
  refine Completes.of_apply running ?_ (by simp [place]) (by rw [place]; rfl) ?_
  · rw [place]
    exact fun node wanted => nomatch wanted
  · refine completes_of_finishing ((current_apply (by rw [place]; rfl)).trans running) ?_
    rw [apply_progress_self, place]
    rfl

theorem completes_of_targetWanted (alone : Alone state thread)
    (running : current program state thread = some call) (apart : call.source ≠ call.target)
    (place : (state.progress thread).phase = .targetWanted) :
    Completes program state thread := by
  refine Completes.of_apply running ?_ (by simp [place]) (by rw [place]; rfl) ?_
  · intro node wanted
    refine alone.free ?_
    rw [place] at wanted
    cases wanted
    rw [held_eq running, place]
    simpa [Call.locks] using Ne.symm apart
  · refine completes_of_bothLocked ((current_apply (by rw [place]; rfl)).trans running) ?_
    rw [apply_progress_self, place]
    rfl

theorem completes_of_targetLocked (running : current program state thread = some call)
    (place : (state.progress thread).phase = .targetLocked) : Completes program state thread :=
  completes_of_return running (by simp [place]) (by rw [place]; rfl) (by rw [place]; rfl)

theorem completes_of_targetPending (alone : Alone state thread)
    (running : current program state thread = some call)
    (place : (state.progress thread).phase = .targetPending) :
    Completes program state thread := by
  refine Completes.of_apply running ?_ (by simp [place]) (by rw [place]; rfl) ?_
  · intro node _
    refine alone.free ?_
    rw [held_eq running, place]
    exact List.not_mem_nil
  · refine completes_of_targetLocked ((current_apply (by rw [place]; rfl)).trans running) ?_
    rw [apply_progress_self, place]
    rfl

theorem completes_of_sourceLocked (alone : Alone state thread)
    (running : current program state thread = some call)
    (place : (state.progress thread).phase = .sourceLocked) :
    Completes program state thread := by
  refine Completes.of_apply running ?_ (by simp [place]) (by rw [place]; rfl) ?_
  · rw [place]
    exact fun node wanted => nomatch wanted
  · refine completes_of_targetPending alone.apply
      ((current_apply (by rw [place]; rfl)).trans running) ?_
    rw [apply_progress_self, place]
    rfl

/-- A call runs to its end when no other thread is in one. -/
theorem exists_call_completed (alone : Alone state thread)
    (outside : (state.progress thread).phase = .start)
    (running : current program state thread = some call) :
    ∃ next, Reaches (advance program) state next ∧
      next.progress = Function.update state.progress thread
        { position := (state.progress thread).position + 1 } ∧
      ∀ edge ∈ next.edges.outEdges, edge ∈ state.edges.outEdges ∨ edge = call.ends := by
  have free : ∀ node ∈ (call.move state.edges (state.progress thread).phase).lock,
      Free program state node := by
    intro node _
    refine alone.free ?_
    rw [held_of_start outside]
    exact List.not_mem_nil
  have stepped := advance_of_free running free
  rw [outside] at stepped
  have entered : (state.apply thread (call.move state.edges .start)).progress thread =
      { (state.progress thread) with phase := (call.enter state.edges).1 } := by
    rw [apply_progress_self]
    rfl
  have enteredRuns : current program (state.apply thread (call.move state.edges .start)) thread =
      some call := (current_apply rfl).trans running
  have completes :
      Completes program (state.apply thread (call.move state.edges .start)) thread := by
    rcases @Call.enter_phase_cases _ call _ state.edges with place | place | place
    · exact completes_of_finishing enteredRuns (by rw [entered, place])
    · have apart := (Call.enter_phase_eq_targetWanted.mp place).2.1
      exact completes_of_targetWanted alone.apply enteredRuns apart (by rw [entered, place])
    · exact completes_of_sourceLocked alone.apply enteredRuns (by rw [entered, place])
  obtain ⟨next, reached, progress, outEdges⟩ := completes
  refine ⟨next, ((Reaches.refl _ _).snoc stepped).trans reached, ?_, ?_⟩
  · rw [progress, entered, State.apply, Function.update_idem]
  · intro edge listed
    rw [outEdges] at listed
    exact Call.enter_subset listed

/-- A thread runs a number of calls when no other thread is in one. -/
theorem exists_calls_completed (fresh : state.progress thread = {})
    (alone : Alone state thread) {count : Nat} (enough : count ≤ (program thread).length) :
    ∃ next, Reaches (advance program) state next ∧
      next.progress = Function.update state.progress thread { position := count } ∧
      ∀ edge ∈ next.edges.outEdges, edge ∈ state.edges.outEdges ∨
        ∃ call ∈ (program thread).take count, call.ends = edge := by
  induction count with
  | zero =>
      refine ⟨state, Reaches.refl _ _, ?_, fun edge listed => .inl listed⟩
      exact (Function.update_eq_self_iff.mpr fresh.symm).symm
  | succ count ih =>
      obtain ⟨middle, front, progress, source⟩ := ih (Nat.le_of_succ_le enough)
      have place : middle.progress thread = { position := count } := by
        rw [progress, Function.update_self]
      have middleAlone : Alone middle thread := by
        intro other apart
        rw [progress, Function.update_of_ne apart]
        exact alone other apart
      have running : current program middle thread = some ((program thread)[count]) := by
        rw [current, place]
        exact List.getElem?_eq_getElem enough
      obtain ⟨next, back, after, added⟩ :=
        exists_call_completed middleAlone (by rw [place]) running
      refine ⟨next, front.trans back, ?_, ?_⟩
      · rw [after, place, progress, Function.update_idem]
      · intro edge listed
        rw [List.take_add_one, List.getElem?_eq_getElem enough]
        rcases added edge listed with old | ends
        · rcases source edge old with known | ⟨call, earlier, same⟩
          · exact .inl known
          · exact .inr ⟨call, List.mem_append_left _ earlier, same⟩
        · exact .inr ⟨_, List.mem_append_right _ (List.mem_singleton_self _), ends.symm⟩

end Solo

variable [DecidableEq Node] [DecidableEq Thread] [Fintype Thread]

section Termination

/-- The order of the phases of a call. -/
def Phase.rank : Phase → Nat
  | .start => 0
  | .targetWanted => 1
  | .sourceLocked => 1
  | .bothLocked => 2
  | .targetPending => 2
  | .targetLocked => 3
  | .finishing => 3

variable (program) in
/-- A bound of the steps that a thread has left. -/
def remaining (state : State Node Thread) (thread : Thread) : Nat :=
  4 * ((program thread).length - (state.progress thread).position) -
    (state.progress thread).phase.rank

variable (program) in
/-- A bound of the steps that are left. -/
def totalRemaining (state : State Node Thread) : Nat :=
  ∑ thread, remaining program state thread

theorem Phase.rank_le (phase : Phase) : phase.rank ≤ 3 := by
  cases phase <;> decide

omit [DecidableEq Thread] [Fintype Thread] in
theorem rank_lt_of_move {phase later : Phase} {edges : Edges Node}
    (stays : (call.move edges phase).phase = some later) : phase.rank < later.rank := by
  cases phase with
  | start =>
      rcases @Call.enter_phase_cases _ call _ edges with place | place | place <;>
      · simp only [Call.move, place, Option.some.injEq] at stays
        subst stays
        decide
  | targetWanted | bothLocked | sourceLocked | targetPending =>
      cases stays
      decide
  | targetLocked | finishing => cases stays

omit [Fintype Thread] in
/-- Every step of a thread leaves it fewer steps. -/
theorem remaining_apply_lt (running : current program state thread = some call) :
    remaining program
        (state.apply thread (call.move state.edges (state.progress thread).phase)) thread <
      remaining program state thread := by
  have inside : (state.progress thread).position < (program thread).length :=
    (List.getElem?_eq_some_iff.mp running).1
  simp only [remaining, apply_progress_self]
  cases returns : (call.move state.edges (state.progress thread).phase).phase with
  | none =>
      have low := (state.progress thread).phase.rank_le
      have fresh : Phase.start.rank = 0 := rfl
      simp only [Progress.after, fresh]
      omega
  | some later =>
      have higher := rank_lt_of_move returns
      have low := later.rank_le
      simp only [Progress.after]
      omega

/-- Every step leaves fewer steps. -/
theorem totalRemaining_decreases (stepped : advance program state thread = some next) :
    totalRemaining program next < totalRemaining program state := by
  obtain ⟨call, running, _, rfl⟩ := advance_eq_some stepped
  refine Finset.sum_lt_sum (fun other _ => ?_)
    ⟨thread, Finset.mem_univ _, remaining_apply_lt running⟩
  by_cases same : other = thread
  · rw [same]
    exact (remaining_apply_lt running).le
  · simp only [remaining, apply_progress_of_ne same, le_refl]

end Termination

section Tie

variable {waiting : Finset Thread} {position : Thread → Nat} {source target : Thread → Node}

/-- The threads of a set stand before their calls, and the others have not started. -/
def Placed (state : State Node Thread) (placed : Finset Thread) (position : Thread → Nat) : Prop :=
  (∀ thread ∈ placed, state.progress thread = { position := position thread }) ∧
    ∀ thread ∉ placed, state.progress thread = {}

/-- The threads of a set can run up to their calls. -/
theorem exists_placed (edges : Edges Node) (placed : Finset Thread)
    (reachable : ∀ thread ∈ placed, position thread ≤ (program thread).length) :
    ∃ state, Reaches (advance program) (initial edges) state ∧ Placed state placed position ∧
      ∀ edge ∈ state.edges.outEdges, edge ∈ edges.outEdges ∨
        ∃ thread ∈ placed, ∃ call ∈ (program thread).take (position thread), call.ends = edge := by
  induction placed using Finset.induction_on with
  | empty =>
      refine ⟨initial edges, Reaches.refl _ _, ⟨fun thread member => ?_, fun _ _ => rfl⟩,
        fun edge listed => .inl listed⟩
      exact absurd member (Finset.notMem_empty thread)
  | insert thread placed absent ih =>
      obtain ⟨middle, front, ⟨inside, outside⟩, known⟩ :=
        ih fun other member => reachable other (Finset.mem_insert_of_mem member)
      have alone : Alone middle thread := by
        intro other apart
        by_cases member : other ∈ placed
        · rw [inside other member]
        · rw [outside other member]
      obtain ⟨state, back, progress, added⟩ := exists_calls_completed (outside thread absent) alone
        (reachable thread (Finset.mem_insert_self thread placed))
      refine ⟨state, front.trans back, ⟨?_, ?_⟩, ?_⟩
      · intro other member
        rw [progress]
        by_cases same : other = thread
        · rw [same, Function.update_self]
        · rw [Function.update_of_ne same]
          exact inside other (Finset.mem_of_mem_insert_of_ne member same)
      · intro other missing
        obtain ⟨apart, elsewhere⟩ := not_or.mp (mt Finset.mem_insert.mpr missing)
        rw [progress, Function.update_of_ne apart]
        exact outside other elsewhere
      · intro edge listed
        rcases added edge listed with old | ⟨call, earlier, ends⟩
        · rcases known edge old with given | ⟨other, member, call, earlier, ends⟩
          · exact .inl given
          · exact .inr ⟨other, Finset.mem_insert_of_mem member, call, earlier, ends⟩
        · exact .inr ⟨thread, Finset.mem_insert_self _ _, call, earlier, ends⟩

/-- Some threads wait for the targets of their calls, and the others are between calls. -/
def Tied (state : State Node Thread) (tied : Finset Thread) (position : Thread → Nat) : Prop :=
  (∀ thread ∈ tied,
    state.progress thread = { position := position thread, phase := .targetWanted }) ∧
    ∀ thread ∉ tied, (state.progress thread).phase = .start

/-- The threads of a knot can lock their sources one after another. -/
theorem Knot.exists_tied (knot : Knot program edges waiting position source target)
    (tied : Finset Thread) (included : tied ⊆ waiting) :
    ∃ state, Reaches (advance program) (initial edges) state ∧ Tied state tied position ∧
      (∀ thread ∈ waiting, thread ∉ tied →
        state.progress thread = { position := position thread }) ∧
      ∀ thread ∈ waiting, thread ∉ tied → (source thread, target thread) ∉ state.edges.outEdges := by
  induction tied using Finset.induction_on with
  | empty =>
      have reachable : ∀ thread ∈ waiting, position thread ≤ (program thread).length :=
        fun thread member =>
          (List.getElem?_eq_some_iff.mp (knot.inserts thread member)).1.le
      obtain ⟨state, reached, ⟨inside, outside⟩, known⟩ := exists_placed edges waiting reachable
      refine ⟨state, reached, ⟨fun thread member => absurd member (Finset.notMem_empty thread), ?_⟩,
        fun thread member _ => inside thread member, ?_⟩
      · intro thread _
        by_cases member : thread ∈ waiting
        · rw [inside thread member]
        · rw [outside thread member]
      · intro thread member _ listed
        rcases known _ listed with given | ⟨other, otherWaits, earlier, before, ends⟩
        · exact knot.absent thread member given
        · exact knot.first thread member other otherWaits earlier before ends
  | insert thread tied absent ih =>
      have member : thread ∈ waiting := included (Finset.mem_insert_self thread tied)
      obtain ⟨middle, front, ⟨inside, outside⟩, placed, unlisted⟩ :=
        ih fun other earlier => included (Finset.mem_insert_of_mem earlier)
      have place := placed thread member absent
      have running : current program middle thread =
          some (.addEdge (source thread) (target thread)) := by
        rw [current, place]
        exact knot.inserts thread member
      have free : ∀ node ∈ ((Call.addEdge (source thread) (target thread)).move middle.edges
          (middle.progress thread).phase).lock, Free program middle node := by
        rw [place]
        intro node wanted other holds
        cases wanted
        by_cases otherTied : other ∈ tied
        · have otherWaits := included (Finset.mem_insert_of_mem otherTied)
          have otherRuns : current program middle other =
              some (.addEdge (source other) (target other)) := by
            rw [current, inside other otherTied]
            exact knot.inserts other otherWaits
          rw [held_eq otherRuns, inside other otherTied] at holds
          have same := knot.distinct thread member other otherWaits (List.mem_singleton.mp holds)
          exact absent (same ▸ otherTied)
        · rw [held_of_start (outside other otherTied)] at holds
          cases holds
      have entered : ((Call.addEdge (source thread) (target thread)).enter middle.edges).1 =
          .targetWanted :=
        Call.enter_phase_eq_targetWanted.mpr
          ⟨rfl, knot.apart thread member, unlisted thread member absent⟩
      refine ⟨_, front.snoc (advance_of_free running free), ⟨?_, ?_⟩, ?_, ?_⟩
      · intro other otherTied
        by_cases same : other = thread
        · subst same
          rw [apply_progress_self, place]
          exact congrArg (Progress.mk _) entered
        · rw [apply_progress_of_ne same]
          exact inside other (Finset.mem_of_mem_insert_of_ne otherTied same)
      · intro other missing
        obtain ⟨apart, elsewhere⟩ := not_or.mp (mt Finset.mem_insert.mpr missing)
        rw [apply_progress_of_ne apart]
        exact outside other elsewhere
      · intro other otherWaits missing
        obtain ⟨apart, elsewhere⟩ := not_or.mp (mt Finset.mem_insert.mpr missing)
        rw [apply_progress_of_ne apart]
        exact placed other otherWaits elsewhere
      · intro other otherWaits missing listed
        obtain ⟨apart, elsewhere⟩ := not_or.mp (mt Finset.mem_insert.mpr missing)
        rw [place] at listed
        rcases @Call.enter_subset _ (.addEdge (source thread) (target thread)) _ _ _ listed with
          old | ends
        · exact unlisted other otherWaits elsewhere old
        · exact apart (knot.distinct other otherWaits thread member (congrArg Prod.fst ends))

/-- The waiting threads of a tied knot stay where they are. -/
theorem Knot.stuck (knot : Knot program edges waiting position source target)
    (tied : ∀ thread ∈ waiting,
      state.progress thread = { position := position thread, phase := .targetWanted })
    (stepped : advance program state thread = some next) : thread ∉ waiting := by
  intro member
  have runs : ∀ waiter ∈ waiting, current program state waiter =
      some (.addEdge (source waiter) (target waiter)) := by
    intro waiter waits
    rw [current, tied waiter waits]
    exact knot.inserts waiter waits
  obtain ⟨call, running, free, _⟩ := advance_eq_some stepped
  rw [runs thread member] at running
  cases running
  obtain ⟨holder, holderWaits, same⟩ := knot.closed thread member
  rw [tied thread member] at free
  refine free (target thread) rfl holder ?_
  rw [held_eq (runs holder holderWaits), tied holder holderWaits, same]
  exact List.mem_singleton_self _

/-- A knot can be run into a deadlock. -/
theorem Knot.exists_deadlock (knot : Knot program edges waiting position source target) :
    ∃ state, Reaches (advance program) (initial edges) state ∧ Deadlocked program state := by
  obtain ⟨middle, front, ⟨tied, _⟩, _, _⟩ := knot.exists_tied waiting (Finset.Subset.refl waiting)
  obtain ⟨state, back, exhausted⟩ := Reaches.exists_exhausted (totalRemaining program)
    (fun _ _ _ stepped => totalRemaining_decreases stepped) middle
  have keeps : ∀ earlier mover later,
      (∀ thread ∈ waiting, earlier.progress thread =
        { position := position thread, phase := .targetWanted }) →
      advance program earlier mover = some later →
      ∀ thread ∈ waiting, later.progress thread =
        { position := position thread, phase := .targetWanted } := by
    intro earlier mover later tied stepped thread member
    have apart : thread ≠ mover := fun same => knot.stuck tied stepped (same ▸ member)
    obtain ⟨call, _, _, rfl⟩ := advance_eq_some stepped
    rw [apply_progress_of_ne apart]
    exact tied thread member
  have stays := back.invariant tied keeps
  obtain ⟨thread, member⟩ := knot.nonempty
  refine ⟨state, front.trans back, ⟨thread, ?_⟩, exhausted⟩
  rw [current, stays thread member, knot.inserts thread member]
  exact Option.some_ne_none _

end Tie

section Untie

/-- A thread that cannot step wants a lock that a waiting thread holds as its source. -/
theorem exists_waiting_holder (stuck : ∀ thread, advance program state thread = none)
    {node : Node} (holds : node ∈ held program state thread) :
    ∃ call, current program state thread = some call ∧
      (state.progress thread).phase = .targetWanted ∧ node = call.source := by
  cases running : current program state thread with
  | none => simp [held, running] at holds
  | some call =>
      rw [held_eq running] at holds
      obtain ⟨wanted, lock, _⟩ := advance_eq_none (stuck thread) running
      cases place : (state.progress thread).phase with
      | targetWanted =>
          rw [place] at holds
          exact ⟨call, rfl, rfl, List.mem_singleton.mp holds⟩
      | start | targetPending =>
          rw [place] at holds
          cases holds
      | bothLocked | sourceLocked | targetLocked | finishing =>
          rw [place] at lock
          cases lock

/-- The threads of a deadlock stand in a knot. -/
theorem LockInvariant.knotted (sound : LockInvariant program edges state)
    (deadlocked : Deadlocked program state) : Knotted program edges := by
  obtain ⟨⟨blocked, unfinished⟩, stuck⟩ := deadlocked
  obtain ⟨blockedCall, blockedRuns⟩ := Option.ne_none_iff_exists'.mp unfinished
  have : Nonempty Node := ⟨blockedCall.source⟩
  let waiting : Finset Thread := Finset.univ.filter fun thread =>
    (state.progress thread).phase = .targetWanted ∧ (current program state thread).isSome
  have freshOf : ∀ thread ∈ waiting, ∃ source target : Node,
      current program state thread = some (.addEdge source target) ∧
        Fresh program edges state thread (.addEdge source target) := by
    intro thread member
    obtain ⟨place, running⟩ := (Finset.mem_filter.mp member).2
    obtain ⟨call, runs⟩ := Option.isSome_iff_exists.mp running
    have fresh := sound.fresh thread call runs place
    refine ⟨call.source, call.target, runs.trans (congrArg some fresh.inserting), ?_⟩
    rw [← fresh.inserting]
    exact fresh
  have waits : ∀ thread call, current program state thread = some call →
      (state.progress thread).phase = .targetWanted → thread ∈ waiting := by
    intro thread call runs place
    exact Finset.mem_filter.mpr ⟨Finset.mem_univ thread, place, by simp [runs]⟩
  choose! source target runs fresh using freshOf
  have place : ∀ thread ∈ waiting, (state.progress thread).phase = .targetWanted :=
    fun thread member => (Finset.mem_filter.mp member).2.1
  have holds : ∀ thread ∈ waiting, source thread ∈ held program state thread := by
    intro thread member
    rw [held_eq (runs thread member), place thread member]
    exact List.mem_singleton_self _
  refine ⟨waiting, fun thread => (state.progress thread).position, source, target, ?_, runs,
    fun thread member => (fresh thread member).apart, ?_, ?_,
    fun thread member => (fresh thread member).absent, ?_⟩
  · obtain ⟨node, _, holder, held⟩ := advance_eq_none (stuck blocked) blockedRuns
    obtain ⟨call, holderRuns, holderPlace, _⟩ := exists_waiting_holder stuck held
    exact ⟨holder, waits holder call holderRuns holderPlace⟩
  · intro one first two second same
    exact sound.exclusive one two (source one) (holds one first) (same ▸ holds two second)
  · intro thread member
    obtain ⟨node, wanted, holder, held⟩ := advance_eq_none (stuck thread) (runs thread member)
    rw [place thread member] at wanted
    cases wanted
    obtain ⟨call, holderRuns, holderPlace, same⟩ := exists_waiting_holder stuck held
    have holderWaits := waits holder call holderRuns holderPlace
    refine ⟨holder, holderWaits, ?_⟩
    rw [runs holder holderWaits] at holderRuns
    cases holderRuns
    exact same
  · intro thread member other otherWaits earlier before
    by_cases same : other = thread
    · exact (fresh thread member).before earlier (same ▸ before)
    · refine (fresh thread member).elsewhere other same earlier ?_
      rw [begun, place other otherWaits]
      exact List.take_subset_take_left _ (Nat.le_succ _) before

end Untie

/-- Edge insertion is free of deadlocks exactly when no threads can stand in a knot. -/
theorem deadlockFree_iff (program : Program Node Thread) (edges : Edges Node) :
    DeadlockFree program edges ↔ ¬ Knotted program edges := by
  constructor
  · rintro free ⟨waiting, position, source, target, knot⟩
    obtain ⟨state, reached, deadlocked⟩ := knot.exists_deadlock
    exact free state reached deadlocked
  · intro untied state reached deadlocked
    exact untied ((lockInvariant_of_reaches reached).knotted deadlocked)

/-- Two threads that add an edge and its reverse. -/
def reciprocal : Program (Fin 2) (Fin 2) :=
  fun thread => [.addEdge thread (1 - thread)]

/-- Each thread of `reciprocal` locks its source, and neither gets its target. -/
theorem reciprocal_deadlocks : ¬ DeadlockFree reciprocal {} := by
  intro free
  have first : Reaches (advance reciprocal) (initial {}) _ :=
    (Reaches.refl _ _).snoc (show advance reciprocal (initial {}) 0 = some _ from rfl)
  have second := first.snoc (show advance reciprocal _ 1 = some _ from rfl)
  refine free _ second ⟨⟨0, by decide⟩, by decide⟩

end SlangNetlist.EdgeLocks
