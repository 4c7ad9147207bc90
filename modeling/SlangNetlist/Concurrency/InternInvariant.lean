import SlangNetlist.Concurrency.InternTables

/-!
# The invariant of the intern tables

The index has the records that calls may return, and the holder of the mutex may
have appended one more.  A call takes its place in the order of all calls when
its lookup hits, or else when its record gets into the index.
-/

namespace SlangNetlist.InternTables

open Library

variable {Record Key Value Thread : Type} {table : Table Record Key Value}
  {program : Program Record Thread} {state next : State Record Key Value Thread}
  {thread other : Thread} {record : Record} {spec : List Record}

/-! ## The sequential table -/

section Sequential

variable [DecidableEq Key]

theorem Table.lookup_eq_none {key : Key} :
    table.lookup spec key = none ↔ ∀ entry ∈ spec, table.key entry ≠ key := by
  unfold Table.lookup
  cases found : spec.findIdx? fun entry => table.key entry = key with
  | none => simpa using found
  | some index =>
      obtain ⟨inside, same, _⟩ := List.findIdx?_eq_some_iff_getElem.mp found
      simp only [Option.bind_some, List.getElem?_eq_getElem inside, Option.map_some, reduceCtorEq,
        false_iff]
      exact fun apart => apart _ (List.getElem_mem inside) (of_decide_eq_true same)

/-- The record whose value a lookup returns. -/
theorem Table.lookup_eq_some {key : Key} {value : Value} (found : table.lookup spec key = some value) :
    ∃ index entry, spec[index]? = some entry ∧ table.key entry = key ∧
      table.value index entry = value := by
  unfold Table.lookup at found
  obtain ⟨index, first, valued⟩ := Option.bind_eq_some_iff.mp found
  obtain ⟨inside, same, _⟩ := List.findIdx?_eq_some_iff_getElem.mp first
  rw [List.getElem?_eq_getElem inside] at valued
  exact ⟨index, _, List.getElem?_eq_getElem inside, of_decide_eq_true same, Option.some.inj valued⟩

/-- A record at the end does not hide an earlier one. -/
theorem Table.lookup_append (key : Key) :
    table.lookup (spec ++ [record]) key =
      match table.lookup spec key with
      | some value => some value
      | none => if table.key record = key then some (table.value spec.length record) else none := by
  unfold Table.lookup
  rw [List.findIdx?_append]
  cases found : spec.findIdx? fun entry => table.key entry = key with
  | some index =>
      obtain ⟨inside, _⟩ := List.findIdx?_eq_some_iff_getElem.mp found
      simp [List.getElem?_append_left inside, List.getElem?_eq_getElem inside]
  | none =>
      by_cases same : table.key record = key <;> simp [same, List.findIdx?_cons]

variable [DecidableEq Value] {value : Value}

theorem Table.accept_of_lookup (found : table.lookup spec (table.key record) = some value) :
    table.accept spec (record, value) = some spec := by
  simp only [Table.accept, Table.intern, found, if_true]

theorem Table.accept_of_absent (absent : table.lookup spec (table.key record) = none) :
    table.accept spec (record, table.value spec.length record) = some (spec ++ [record]) := by
  simp only [Table.accept, Table.intern, absent, if_true]

/-- What a call of the sequential table does. -/
theorem Table.accept_cases {after : List Record}
    (accepted : table.accept spec (record, value) = some after) :
    (table.lookup spec (table.key record) = some value ∧ after = spec) ∨
      (table.lookup spec (table.key record) = none ∧ value = table.value spec.length record ∧
        after = spec ++ [record]) := by
  unfold Table.accept Table.intern at accepted
  cases found : table.lookup spec (table.key record) with
  | some present =>
      simp only [found, Option.ite_none_right_eq_some, Option.some.injEq] at accepted
      exact .inl ⟨congrArg some accepted.1, accepted.2.symm⟩
  | none =>
      simp only [found, Option.ite_none_right_eq_some, Option.some.injEq] at accepted
      exact .inr ⟨rfl, accepted.1.symm, accepted.2.symm⟩

end Sequential

/-! ## The invariant -/

/-- What a thread has done: the calls that have returned, and the one that is about to. -/
def done (program : Program Record Thread) (state : State Record Key Value Thread)
    (thread : Thread) : List (Record × Value) :=
  (state.progress thread).results ++
    match current program state thread, (state.progress thread).phase with
    | some record, .returning value => [(record, value)]
    | _, _ => []

/-- What the holder of the mutex has appended to the records that the index has. -/
def Held (table : Table Record Key Value) (program : Program Record Thread) (spec : List Record)
    (state : State Record Key Value Thread) : Prop :=
  match state.insertMutex with
  | none => state.entries = spec
  | some thread => ∃ record, current program state thread = some record ∧
      match (state.progress thread).phase with
      | .start => False
      | .missed => False
      | .locked => state.entries = spec
      | .absent => state.entries = spec ∧ state.indexMap (table.key record) = none
      | .stored value => state.entries = spec ++ [record] ∧
          value = table.value spec.length record ∧ state.indexMap (table.key record) = none
      | .returning _ => state.entries = spec

/-- The state has the records of the sequential table. -/
structure Agrees [DecidableEq Key] (table : Table Record Key Value)
    (program : Program Record Thread) (spec : List Record)
    (state : State Record Key Value Thread) : Prop where
  distinct : (spec.map table.key).Nodup
  index : ∀ key, state.indexMap key = table.lookup spec key
  held : Held table program spec state
  others : ∀ thread, state.insertMutex ≠ some thread →
    (state.progress thread).phase = .start ∨
      ((state.progress thread).phase = .missed ∧ ∃ record, current program state thread = some record)

theorem agrees_initial [DecidableEq Key] (distinct : (spec.map table.key).Nodup) :
    Agrees table program spec (initial table spec : State Record Key Value Thread) where
  distinct := distinct
  index _ := rfl
  held := rfl
  others _ _ := .inl rfl

section Update

variable [DecidableEq Thread] {progress : Progress Record Value} {phase : Phase Value}

@[simp] theorem progress_update_self :
    (state.update thread progress).progress thread = progress :=
  Function.update_self ..

theorem progress_update_of_ne (apart : other ≠ thread) :
    (state.update thread progress).progress other = state.progress other :=
  Function.update_of_ne apart ..

@[simp] theorem indexMap_update : (state.update thread progress).indexMap = state.indexMap :=
  rfl

@[simp] theorem entries_update : (state.update thread progress).entries = state.entries :=
  rfl

@[simp] theorem insertMutex_update :
    (state.update thread progress).insertMutex = state.insertMutex :=
  rfl

theorem current_update_of_ne (apart : other ≠ thread) :
    current program (state.update thread progress) other = current program state other := by
  rw [current, progress_update_of_ne apart, current]

theorem done_update_of_ne (apart : other ≠ thread) :
    done program (state.update thread progress) other = done program state other := by
  rw [done, current_update_of_ne apart, progress_update_of_ne apart, done]

/-- In another phase the thread is in the same call. -/
@[simp] theorem current_goto :
    current program (state.goto thread phase) thread = current program state thread := by
  rw [current, State.goto, progress_update_self, current]

theorem done_goto (running : current program state thread = some record) :
    done program (state.goto thread phase) thread = (state.progress thread).results ++
      match phase with
      | .returning value => [(record, value)]
      | _ => [] := by
  rw [done, current_goto, running, State.goto, progress_update_self]
  cases phase <;> rfl

theorem done_returns {value : Value} :
    done program (state.update thread ((state.progress thread).returns record value)) thread =
      (state.progress thread).results ++ [(record, value)] := by
  rw [done, progress_update_self]
  cases current program
    (state.update thread ((state.progress thread).returns record value)) thread <;>
    simp [Progress.returns]

/-- The holder of the mutex does not notice what another thread does to itself. -/
theorem Held.update (held : Held table program spec state)
    (apart : state.insertMutex ≠ some thread) :
    Held table program spec (state.update thread progress) := by
  unfold Held at held ⊢
  simp only [insertMutex_update, entries_update, indexMap_update]
  cases owner : state.insertMutex with
  | none => simpa only [owner] using held
  | some holder =>
      have differs : holder ≠ thread := fun same => apart (same ▸ owner)
      simp only [owner] at held
      simpa only [current_update_of_ne differs, progress_update_of_ne differs] using held

end Update

section Steps

variable [DecidableEq Key] [DecidableEq Thread]

/-- A thread in a locked phase is the holder of the mutex. -/
theorem Agrees.owns (agrees : Agrees table program spec state)
    (holds : (state.progress thread).phase.holds = true) : state.insertMutex = some thread := by
  by_contra apart
  rcases agrees.others thread apart with place | ⟨place, _⟩ <;> simp [place, Phase.holds] at holds

omit [DecidableEq Thread] in
/-- What the holder has appended. -/
theorem Agrees.held_eq (agrees : Agrees table program spec state)
    (owns : state.insertMutex = some thread) (running : current program state thread = some record) :
    match (state.progress thread).phase with
    | .start => False
    | .missed => False
    | .locked => state.entries = spec
    | .absent => state.entries = spec ∧ state.indexMap (table.key record) = none
    | .stored value => state.entries = spec ++ [record] ∧
        value = table.value spec.length record ∧ state.indexMap (table.key record) = none
    | .returning _ => state.entries = spec := by
  have held := agrees.held
  unfold Held at held
  simp only [owns] at held
  obtain ⟨same, runs, held⟩ := held
  cases running.symm.trans runs
  exact held

/-- A thread without the mutex changes its own progress only. -/
theorem Agrees.update (agrees : Agrees table program spec state)
    (apart : state.insertMutex ≠ some thread) {progress : Progress Record Value}
    (place : progress.phase = .start ∨ (progress.phase = .missed ∧
      ∃ record, current program (state.update thread progress) thread = some record)) :
    Agrees table program spec (state.update thread progress) where
  distinct := agrees.distinct
  index := agrees.index
  held := agrees.held.update apart
  others other unowned := by
    by_cases mover : other = thread
    · subst other
      rwa [progress_update_self]
    · rw [progress_update_of_ne mover, current_update_of_ne mover]
      exact agrees.others other unowned

/-- The holder of the mutex changes the table and its own progress. -/
theorem Agrees.owner (agrees : Agrees table program spec state) {after : List Record}
    {later : State Record Key Value Thread} {progress : Progress Record Value}
    (owns : state.insertMutex = some thread) (same : later.progress = state.progress)
    (distinct : (after.map table.key).Nodup)
    (index : ∀ key, later.indexMap key = table.lookup after key)
    (held : Held table program after (later.update thread progress))
    (released : later.insertMutex ≠ some thread → progress.phase = .start) :
    Agrees table program after (later.update thread progress) where
  distinct := distinct
  index := index
  held := held
  others other unowned := by
    by_cases mover : other = thread
    · subst other
      rw [progress_update_self]
      exact .inl (released unowned)
    · have apart : state.insertMutex ≠ some other := by
        rw [owns]
        exact fun equal => mover (Option.some.inj equal).symm
      have place := agrees.others other apart
      rw [progress_update_of_ne mover, current_update_of_ne mover, same]
      rw [current] at place ⊢
      rwa [same]

omit [DecidableEq Key] in
theorem done_of_ne {later : State Record Key Value Thread} {progress : Progress Record Value}
    (same : later.progress = state.progress) (apart : other ≠ thread) :
    done program (later.update thread progress) other = done program state other := by
  rw [done_update_of_ne apart, done, done, current, current, same]

omit [DecidableEq Key] [DecidableEq Thread] in
/-- Before a call is decided, a thread has done what has returned. -/
theorem done_undecided (undecided : ∀ value, (state.progress thread).phase ≠ .returning value) :
    done program state thread = (state.progress thread).results := by
  rw [done]
  cases current program state thread with
  | none => exact List.append_nil _
  | some record =>
      cases place : (state.progress thread).phase with
      | returning value => exact absurd place (undecided value)
      | start | missed | locked | absent | stored => exact List.append_nil _

variable [DecidableEq Value]

/-- A step that the sequential table does not see. -/
theorem commits_silent {later : State Record Key Value Thread} {progress : Progress Record Value}
    (same : later.progress = state.progress)
    (agrees : Agrees table program spec (later.update thread progress))
    (kept : done program (later.update thread progress) thread = done program state thread) :
    Commits table.accept (done program) (Agrees table program) spec state thread
      (later.update thread progress) := by
  refine .silent agrees fun other => ?_
  by_cases mover : other = thread
  · rw [mover, kept]
  · exact done_of_ne same mover

/-- The lookup without the mutex. -/
theorem Agrees.move_start (agrees : Agrees table program spec state)
    (running : current program state thread = some record)
    (place : (state.progress thread).phase = .start)
    (moved : move table state thread record = some next) :
    Commits table.accept (done program) (Agrees table program) spec state thread next := by
  have apart : state.insertMutex ≠ some thread := by
    intro owns
    have held := agrees.held_eq owns running
    rw [place] at held
    exact held
  have before : done program state thread = (state.progress thread).results :=
    done_undecided (by simp [place])
  simp only [move, place] at moved
  cases found : state.indexMap (table.key record) with
  | some value =>
      simp only [found, Option.some.injEq] at moved
      subst moved
      have hit := Table.accept_of_lookup ((agrees.index _).symm.trans found)
      refine .acts hit (agrees.update apart (.inl rfl)) ?_ fun _ => done_of_ne rfl
      rw [done_returns, before]
  | none =>
      simp only [found, Option.some.injEq] at moved
      subst moved
      refine commits_silent rfl (agrees.update apart (.inr ⟨rfl, record, ?_⟩)) ?_
      · exact current_goto.trans running
      · exact (done_goto running).trans (by rw [before, List.append_nil])

/-- The mutex is acquired. -/
theorem Agrees.move_missed (agrees : Agrees table program spec state)
    (running : current program state thread = some record)
    (place : (state.progress thread).phase = .missed)
    (moved : move table state thread record = some next) :
    Commits table.accept (done program) (Agrees table program) spec state thread next := by
  have before : done program state thread = (state.progress thread).results :=
    done_undecided (by simp [place])
  simp only [move, place] at moved
  cases owner : state.insertMutex with
  | some holder => simp [owner] at moved
  | none =>
      simp only [owner, Option.some.injEq] at moved
      subst moved
      have entries : state.entries = spec := by
        have held := agrees.held
        unfold Held at held
        simpa only [owner] using held
      refine commits_silent rfl ⟨agrees.distinct, agrees.index, ?_, fun other apart => ?_⟩ ?_
      · refine ⟨record, ?_, ?_⟩
        · exact current_goto.trans running
        · rw [progress_update_self]
          exact entries
      · have mover : other ≠ thread := fun same => apart (same ▸ rfl)
        rw [progress_update_of_ne mover, current_update_of_ne mover]
        exact agrees.others other (by simp [owner])
      · exact (done_goto running).trans (by rw [before, List.append_nil])

/-- The lookup with the mutex. -/
theorem Agrees.move_locked (agrees : Agrees table program spec state)
    (running : current program state thread = some record)
    (place : (state.progress thread).phase = .locked)
    (moved : move table state thread record = some next) :
    Commits table.accept (done program) (Agrees table program) spec state thread next := by
  have owns : state.insertMutex = some thread := agrees.owns (by rw [place]; rfl)
  have entries := agrees.held_eq owns running
  rw [place] at entries
  have before : done program state thread = (state.progress thread).results :=
    done_undecided (by simp [place])
  have unreleased : state.insertMutex ≠ some thread → False := fun released => released owns
  simp only [move, place] at moved
  cases found : state.indexMap (table.key record) with
  | some value =>
      simp only [found, Option.some.injEq] at moved
      subst moved
      have hit := Table.accept_of_lookup ((agrees.index _).symm.trans found)
      refine .acts hit (agrees.owner owns rfl agrees.distinct agrees.index ?_
        (fun released => (unreleased released).elim)) ?_ fun _ => done_of_ne rfl
      · simp only [Held, insertMutex_update, owns]
        exact ⟨record, current_goto.trans running, by rw [progress_update_self]; exact entries⟩
      · exact (done_goto running).trans (by rw [before])
  | none =>
      simp only [found, Option.some.injEq] at moved
      subst moved
      refine commits_silent rfl (agrees.owner owns rfl agrees.distinct agrees.index ?_
        fun released => (unreleased released).elim) ?_
      · simp only [Held, insertMutex_update, owns]
        refine ⟨record, current_goto.trans running, ?_⟩
        rw [progress_update_self]
        exact ⟨entries, found⟩
      · exact (done_goto running).trans (by rw [before, List.append_nil])

/-- The record is appended. -/
theorem Agrees.move_absent (agrees : Agrees table program spec state)
    (running : current program state thread = some record)
    (place : (state.progress thread).phase = .absent)
    (moved : move table state thread record = some next) :
    Commits table.accept (done program) (Agrees table program) spec state thread next := by
  have owns : state.insertMutex = some thread := agrees.owns (by rw [place]; rfl)
  have held := agrees.held_eq owns running
  rw [place] at held
  obtain ⟨entries, absent⟩ := held
  have before : done program state thread = (state.progress thread).results :=
    done_undecided (by simp [place])
  simp only [move, place, Option.some.injEq] at moved
  subst moved
  refine commits_silent rfl (agrees.owner owns rfl agrees.distinct agrees.index ?_
    fun released => absurd owns released) ?_
  · simp only [Held, insertMutex_update, owns]
    refine ⟨record, current_goto.trans running, ?_⟩
    rw [progress_update_self]
    exact ⟨congrArg (· ++ [record]) entries, congrArg (table.value ·.length record) entries, absent⟩
  · exact (done_goto running).trans (by rw [before, List.append_nil])

/-- The record gets into the index. -/
theorem Agrees.move_stored {value : Value} (agrees : Agrees table program spec state)
    (running : current program state thread = some record)
    (place : (state.progress thread).phase = .stored value)
    (moved : move table state thread record = some next) :
    Commits table.accept (done program) (Agrees table program) spec state thread next := by
  have owns : state.insertMutex = some thread := agrees.owns (by rw [place]; rfl)
  have held := agrees.held_eq owns running
  rw [place] at held
  obtain ⟨entries, rfl, absent⟩ := held
  have missing := (agrees.index _).symm.trans absent
  have before : done program state thread = (state.progress thread).results :=
    done_undecided (by simp [place])
  simp only [move, place, Option.some.injEq] at moved
  subst moved
  have fresh : ((spec ++ [record]).map table.key).Nodup := by
    rw [List.map_append, List.nodup_append]
    refine ⟨agrees.distinct, List.nodup_singleton _, ?_⟩
    rintro key member _ single rfl
    obtain ⟨entry, listed, same⟩ := List.mem_map.mp member
    exact Table.lookup_eq_none.mp missing entry listed (same.trans (List.mem_singleton.mp single))
  refine .acts (Table.accept_of_absent missing) (agrees.owner owns rfl fresh (fun key => ?_) ?_
    (fun released => absurd owns released)) ?_ fun _ => done_of_ne rfl
  · simp only [emplace, absent, Option.getD_none, agrees.index, Table.lookup_append]
    by_cases same : key = table.key record
    · rw [if_pos same, same, missing]
      exact (if_pos rfl).symm
    · rw [if_neg same]
      cases table.lookup spec key with
      | some value => rfl
      | none => exact (if_neg (Ne.symm same)).symm
  · simp only [Held, insertMutex_update, owns]
    refine ⟨record, current_goto.trans running, ?_⟩
    rw [progress_update_self]
    exact entries
  · exact (done_goto running).trans (by rw [before])

/-- The mutex is released. -/
theorem Agrees.move_returning {value : Value} (agrees : Agrees table program spec state)
    (running : current program state thread = some record)
    (place : (state.progress thread).phase = .returning value)
    (moved : move table state thread record = some next) :
    Commits table.accept (done program) (Agrees table program) spec state thread next := by
  have owns : state.insertMutex = some thread := agrees.owns (by rw [place]; rfl)
  have entries := agrees.held_eq owns running
  rw [place] at entries
  simp only [move, place, Option.some.injEq] at moved
  subst moved
  refine commits_silent rfl (agrees.owner owns rfl agrees.distinct agrees.index entries
    fun _ => rfl) ?_
  refine done_returns.trans ?_
  rw [done, running, place]

/-- A step of a thread does nothing to the sequential table, or one call. -/
theorem Agrees.commits (agrees : Agrees table program spec state)
    (stepped : advance table program state thread = some next) :
    Commits table.accept (done program) (Agrees table program) spec state thread next := by
  obtain ⟨record, running, moved⟩ := Option.bind_eq_some_iff.mp stepped
  cases place : (state.progress thread).phase with
  | start => exact agrees.move_start running place moved
  | missed => exact agrees.move_missed running place moved
  | locked => exact agrees.move_locked running place moved
  | absent => exact agrees.move_absent running place moved
  | stored value => exact agrees.move_stored running place moved
  | returning value => exact agrees.move_returning running place moved

end Steps

end SlangNetlist.InternTables
