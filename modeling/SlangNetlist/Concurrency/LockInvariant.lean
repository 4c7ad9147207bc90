import SlangNetlist.Concurrency.EdgeLocks

/-!
# The invariant of edge insertion

A lock has one holder.  A thread that waits for a target has inserted an edge
that no call had inserted before, and the lock of the source keeps every other
call out of it while the thread waits.
-/

namespace SlangNetlist.EdgeLocks

open Library

variable {Node Thread : Type} {program : Program Node Thread} {state next : State Node Thread}
  {thread other : Thread} {call : Call Node}

section Enter

variable [DecidableEq Node] {edges : Edges Node}

/-- A call that has entered inserts into the target, waits for it or is done. -/
theorem Call.enter_phase_cases : (call.enter edges).1 = .finishing ∨
    (call.enter edges).1 = .targetWanted ∨ (call.enter edges).1 = .sourceLocked := by
  cases call <;> simp only [Call.enter] <;> split <;> (try split) <;> simp

theorem Call.subset_enter : edges.outEdges ⊆ (call.enter edges).2.outEdges := by
  cases call with
  | addEdge source target =>
      simp only [Call.enter]
      split
      · exact fun _ listed => listed
      · split <;> simp [Edges.addOut, Edges.addIn]
  | addNewEdge source target =>
      simp only [Call.enter]
      split <;> simp [Edges.addOut, Edges.addIn]

theorem Call.ends_mem_enter : call.ends ∈ (call.enter edges).2.outEdges := by
  cases call with
  | addEdge source target =>
      simp only [Call.enter]
      split
      · next listed => exact listed
      · split <;> simp [Edges.addOut, Edges.addIn]
  | addNewEdge source target =>
      simp only [Call.enter]
      split <;> simp [Edges.addOut, Edges.addIn]

theorem Call.enter_subset {edge : Node × Node} (listed : edge ∈ (call.enter edges).2.outEdges) :
    edge ∈ edges.outEdges ∨ edge = call.ends := by
  cases call with
  | addEdge source target =>
      simp only [Call.enter] at listed
      split at listed
      · exact .inl listed
      · split at listed <;> simpa [Edges.addOut, Edges.addIn] using listed
  | addNewEdge source target =>
      simp only [Call.enter] at listed
      split at listed <;> simpa [Edges.addOut, Edges.addIn] using listed

/-- `addEdge` goes for the target exactly when it has inserted an edge to another node. -/
theorem Call.enter_phase_eq_targetWanted :
    (call.enter edges).1 = .targetWanted ↔
      call = .addEdge call.source call.target ∧ call.source ≠ call.target ∧
        call.ends ∉ edges.outEdges := by
  cases call with
  | addEdge source target =>
      by_cases same : source = target
      · subst same
        by_cases listed : (Call.addEdge source source).ends ∈ edges.outEdges <;>
          simp [Call.enter, listed, Call.isSelfEdge, Call.source, Call.target]
      · by_cases listed : (Call.addEdge source target).ends ∈ edges.outEdges <;>
          simp [Call.enter, listed, same, Call.isSelfEdge, Call.source, Call.target]
  | addNewEdge source target =>
      by_cases same : source = target <;>
        simp [Call.enter, same, Call.isSelfEdge, Call.source, Call.target]

/-- The first move acquires no lock but the one of the source. -/
theorem Call.locks_enter {node : Node} (holds : node ∈ call.locks (call.enter edges).1) :
    node = call.source := by
  cases call with
  | addEdge source target =>
      simp only [Call.enter] at holds
      split at holds
      · exact List.mem_singleton.mp holds
      · split at holds <;> exact List.mem_singleton.mp holds
  | addNewEdge source target =>
      simp only [Call.enter] at holds
      split at holds <;> exact List.mem_singleton.mp holds

end Enter

theorem held_eq (running : current program state thread = some call) :
    held program state thread = call.locks (state.progress thread).phase := by
  rw [held, running]

variable (program) in
/-- The calls of a thread that have acquired the lock of their source. -/
def begun (state : State Node Thread) (thread : Thread) : List (Call Node) :=
  let progress := state.progress thread
  (program thread).take
    (if progress.phase = .start then progress.position else progress.position + 1)

variable (program) in
/-- A call whose edge no other call has inserted. -/
structure Fresh (edges : Edges Node) (state : State Node Thread) (thread : Thread)
    (call : Call Node) : Prop where
  inserting : call = .addEdge call.source call.target
  apart : call.source ≠ call.target
  absent : call.ends ∉ edges.outEdges
  elsewhere : ∀ other ≠ thread, ∀ earlier ∈ begun program state other, earlier.ends ≠ call.ends
  before : ∀ earlier ∈ (program thread).take (state.progress thread).position,
    earlier.ends ≠ call.ends

variable (program) in
/-- The invariant of the runs from the given edges. -/
structure LockInvariant (edges : Edges Node) (state : State Node Thread) : Prop where
  exclusive : ∀ one two node, node ∈ held program state one → node ∈ held program state two →
    one = two
  kept : edges.outEdges ⊆ state.edges.outEdges
  recorded : ∀ thread, ∀ call ∈ begun program state thread, call.ends ∈ state.edges.outEdges
  fresh : ∀ thread call, current program state thread = some call →
    (state.progress thread).phase = .targetWanted → Fresh program edges state thread call

theorem lockInvariant_initial (edges : Edges Node) :
    LockInvariant program edges (initial edges) where
  exclusive one two node holds _ := by
    simp only [held, initial] at holds
    split at holds <;> simp [Call.locks] at holds
  kept _ listed := listed
  recorded thread call member := by simp [begun, initial] at member
  fresh thread call _ waits := by simp [initial] at waits

section Apply

variable [DecidableEq Thread] {move : Move Node}

@[simp] theorem apply_progress_self : (state.apply thread move).progress thread =
    (state.progress thread).after move.phase :=
  Function.update_self ..

theorem apply_progress_of_ne (apart : other ≠ thread) :
    (state.apply thread move).progress other = state.progress other :=
  Function.update_of_ne apart ..

theorem current_apply_of_ne (apart : other ≠ thread) :
    current program (state.apply thread move) other = current program state other := by
  rw [current, apply_progress_of_ne apart, current]

theorem held_apply_of_ne (apart : other ≠ thread) :
    held program (state.apply thread move) other = held program state other := by
  rw [held, current_apply_of_ne apart, apply_progress_of_ne apart, held]

/-- After a move that stays in the call, the thread is in the same call. -/
theorem current_apply {move : Move Node} {phase : Phase} (stays : move.phase = some phase) :
    current program (state.apply thread move) thread = current program state thread := by
  rw [current, apply_progress_self, stays]
  rfl

theorem begun_apply_of_ne {move : Move Node} (apart : other ≠ thread) :
    begun program (state.apply thread move) other = begun program state other := by
  simp only [begun, apply_progress_of_ne apart]

end Apply

variable [DecidableEq Node]

theorem outEdges_continue {edges : Edges Node} {phase : Phase} (inside : phase ≠ .start) :
    (call.move edges phase).edges.outEdges = edges.outEdges := by
  cases phase with
  | start => exact absurd rfl inside
  | targetWanted | bothLocked | sourceLocked | targetPending | targetLocked | finishing => rfl

/-- Only the first move of a call leads to the wait for the target. -/
theorem move_phase_eq_targetWanted {edges : Edges Node} {phase : Phase}
    (waits : (call.move edges phase).phase = some .targetWanted) :
    phase = .start ∧ (call.enter edges).1 = .targetWanted := by
  cases phase with
  | start => exact ⟨rfl, Option.some.inj waits⟩
  | targetWanted | bothLocked | sourceLocked | targetPending | targetLocked | finishing =>
      cases waits

variable [DecidableEq Thread]

/-- After a move the thread holds what it held and the lock of the move. -/
theorem held_apply_subset (running : current program state thread = some call) {node : Node}
    (holds : node ∈ held program
      (state.apply thread (call.move state.edges (state.progress thread).phase)) thread) :
    node ∈ held program state thread ∨
      node ∈ (call.move state.edges (state.progress thread).phase).lock := by
  rw [held_eq running]
  cases place : (state.progress thread).phase with
  | start =>
      rw [place, held_eq ((current_apply rfl).trans running)] at holds
      simp only [Call.move, apply_progress_self, Progress.after] at holds
      exact .inr (congrArg some (Call.locks_enter holds).symm)
  | targetWanted =>
      rw [place, held_eq ((current_apply rfl).trans running)] at holds
      simpa [Call.move, Progress.after, Call.locks, eq_comm] using holds
  | targetPending =>
      rw [place, held_eq ((current_apply rfl).trans running)] at holds
      simpa [Call.move, Progress.after, Call.locks, eq_comm] using holds
  | bothLocked =>
      rw [place, held_eq ((current_apply rfl).trans running)] at holds
      simp only [Call.move, apply_progress_self, Progress.after, Call.locks,
        List.mem_singleton] at holds
      exact .inl (holds ▸ List.mem_cons_self)
  | sourceLocked =>
      rw [place, held_eq ((current_apply rfl).trans running)] at holds
      simp [Call.move, Progress.after, Call.locks] at holds
  | targetLocked | finishing =>
      simp only [place, Call.move, held, apply_progress_self, Progress.after] at holds
      split at holds <;> simp [Call.locks] at holds

/-- With the lock of its source a call begins. -/
theorem begun_enter (running : current program state thread = some call)
    (outside : (state.progress thread).phase = .start) :
    begun program (state.apply thread (call.move state.edges .start)) thread =
      begun program state thread ++ [call] := by
  have entered : (call.enter state.edges).1 ≠ .start := by
    rcases @Call.enter_phase_cases _ call _ state.edges with place | place | place <;> simp [place]
  simp only [begun, apply_progress_self, Call.move, Progress.after, entered, outside, if_false,
    if_true]
  rw [List.take_add_one]
  rw [current] at running
  rw [running]
  rfl

/-- Later moves of the call change neither the begun calls nor the out-edges. -/
theorem begun_continue (inside : (state.progress thread).phase ≠ .start) :
    begun program
        (state.apply thread (call.move state.edges (state.progress thread).phase)) thread =
      begun program state thread := by
  simp only [begun, apply_progress_self]
  cases place : (state.progress thread).phase with
  | start => exact absurd place inside
  | targetWanted | bothLocked | sourceLocked | targetPending | targetLocked | finishing =>
      simp [Call.move, Progress.after]

/-- A step keeps a freshly inserted edge fresh: the lock of its source is held. -/
theorem Fresh.keeps {edges : Edges Node} {held' : Call Node}
    (fresh : Fresh program edges state other held') (apart : other ≠ thread)
    (running : current program state thread = some call)
    (free : ∀ node ∈ (call.move state.edges (state.progress thread).phase).lock,
      Free program state node)
    (holds : held'.source ∈ held program state other) :
    Fresh program edges
      (state.apply thread (call.move state.edges (state.progress thread).phase)) other held' where
  inserting := fresh.inserting
  apart := fresh.apart
  absent := fresh.absent
  elsewhere := by
    intro third notWaiting earlier listed
    by_cases mover : third = thread
    · subst third
      by_cases outside : (state.progress thread).phase = .start
      · rw [outside, begun_enter running outside] at listed
        rcases List.mem_append.mp listed with old | entering
        · exact fresh.elsewhere thread notWaiting earlier old
        · intro same
          rw [List.mem_singleton.mp entering] at same
          rw [outside] at free
          refine free call.source rfl other ?_
          rw [show call.source = held'.source from congrArg Prod.fst same]
          exact holds
      · rw [begun_continue outside] at listed
        exact fresh.elsewhere thread notWaiting earlier listed
    · rw [begun_apply_of_ne mover] at listed
      exact fresh.elsewhere third notWaiting earlier listed
  before := by
    rw [apply_progress_of_ne apart]
    exact fresh.before

variable [Fintype Thread]

/-- What a step can do. -/
theorem advance_eq_some (stepped : advance program state thread = some next) :
    ∃ call, current program state thread = some call ∧
      (∀ node ∈ (call.move state.edges (state.progress thread).phase).lock,
        Free program state node) ∧
      next = state.apply thread (call.move state.edges (state.progress thread).phase) := by
  rw [advance] at stepped
  cases running : current program state thread with
  | none => simp [running] at stepped
  | some call =>
      simp only [running, Option.ite_none_right_eq_some, Option.some.injEq] at stepped
      exact ⟨call, rfl, stepped.1, stepped.2.symm⟩

theorem advance_of_free (running : current program state thread = some call)
    (free : ∀ node ∈ (call.move state.edges (state.progress thread).phase).lock,
      Free program state node) :
    advance program state thread =
      some (state.apply thread (call.move state.edges (state.progress thread).phase)) := by
  simp only [advance, running]
  exact if_pos free

/-- A thread that has no step is finished or waits for a lock that is held. -/
theorem advance_eq_none (stuck : advance program state thread = none)
    (running : current program state thread = some call) :
    ∃ node ∈ (call.move state.edges (state.progress thread).phase).lock,
      ∃ holder, node ∈ held program state holder := by
  by_contra unheld
  have free : ∀ node ∈ (call.move state.edges (state.progress thread).phase).lock,
      Free program state node :=
    fun node wanted holder holds => unheld ⟨node, wanted, holder, holds⟩
  rw [advance_of_free running free] at stuck
  cases stuck

/-- Every step keeps the invariant. -/
theorem LockInvariant.step {edges : Edges Node} (sound : LockInvariant program edges state)
    (stepped : advance program state thread = some next) : LockInvariant program edges next := by
  obtain ⟨call, running, free, rfl⟩ := advance_eq_some stepped
  have grows : state.edges.outEdges ⊆
      (call.move state.edges (state.progress thread).phase).edges.outEdges := by
    by_cases outside : (state.progress thread).phase = .start
    · rw [outside]
      exact Call.subset_enter
    · rw [outEdges_continue outside]
      exact fun _ listed => listed
  have alone : ∀ third ≠ thread, ∀ node,
      node ∈ held program
        (state.apply thread (call.move state.edges (state.progress thread).phase)) thread →
      node ∉ held program state third := by
    intro third apart node holds shared
    rcases held_apply_subset running holds with already | wanted
    · exact apart (sound.exclusive third thread node shared already)
    · exact free node wanted third shared
  refine ⟨?_, fun edge listed => grows (sound.kept listed), ?_, ?_⟩
  · intro one two node first second
    by_cases oneMoves : one = thread <;> by_cases twoMoves : two = thread
    · rw [oneMoves, twoMoves]
    · subst one
      rw [held_apply_of_ne twoMoves] at second
      exact absurd second (alone two twoMoves node first)
    · subst two
      rw [held_apply_of_ne oneMoves] at first
      exact absurd first (alone one oneMoves node second)
    · rw [held_apply_of_ne oneMoves] at first
      rw [held_apply_of_ne twoMoves] at second
      exact sound.exclusive one two node first second
  · intro third earlier listed
    by_cases mover : third = thread
    · subst third
      by_cases outside : (state.progress thread).phase = .start
      · rw [outside, begun_enter running outside] at listed
        rcases List.mem_append.mp listed with old | entering
        · exact grows (sound.recorded thread earlier old)
        · rw [List.mem_singleton.mp entering, outside]
          exact Call.ends_mem_enter
      · rw [begun_continue outside] at listed
        exact grows (sound.recorded thread earlier listed)
    · rw [begun_apply_of_ne mover] at listed
      exact grows (sound.recorded third earlier listed)
  · intro third waiting waitingRuns waits
    by_cases mover : third = thread
    · subst third
      rw [apply_progress_self] at waits
      have continues : (call.move state.edges (state.progress thread).phase).phase =
          some .targetWanted := by
        revert waits
        cases (call.move state.edges (state.progress thread).phase).phase <;>
          simp [Progress.after]
      obtain ⟨outside, entered⟩ := move_phase_eq_targetWanted continues
      rw [current_apply continues, running] at waitingRuns
      cases waitingRuns
      obtain ⟨inserting, apart, absent⟩ := Call.enter_phase_eq_targetWanted.mp entered
      refine ⟨inserting, apart, fun listed => absent (sound.kept listed), ?_, ?_⟩
      · intro other notMoving earlier listed same
        rw [begun_apply_of_ne notMoving] at listed
        exact absent (same ▸ sound.recorded other earlier listed)
      · intro earlier listed same
        rw [apply_progress_self, continues] at listed
        refine absent (same ▸ sound.recorded thread earlier ?_)
        simpa only [begun, outside, if_true, Progress.after] using listed
    · rw [current_apply_of_ne mover] at waitingRuns
      rw [apply_progress_of_ne mover] at waits
      refine (sound.fresh third waiting waitingRuns waits).keeps mover running free ?_
      rw [held_eq waitingRuns, waits]
      exact List.mem_singleton_self _

/-- The invariant holds in every reached state. -/
theorem lockInvariant_of_reaches {edges : Edges Node}
    (reached : Reaches (advance program) (initial edges) state) :
    LockInvariant program edges state :=
  reached.invariant (lockInvariant_initial edges) fun _ _ _ sound stepped => sound.step stepped

end SlangNetlist.EdgeLocks
