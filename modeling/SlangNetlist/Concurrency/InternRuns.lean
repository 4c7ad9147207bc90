import Mathlib.Algebra.BigOperators.Ring.Finset
import Mathlib.Algebra.Order.BigOperators.Group.Finset
import SlangNetlist.Concurrency.InternInvariant

/-!
# Runs of the intern tables

Every interleaving of the calls is the same calls one after the other.  What a
call has returned stays right, and no schedule keeps the threads from returning.
-/

namespace SlangNetlist.InternTables

open Library

variable {Record Key Value Thread : Type} {table : Table Record Key Value}
  {program : Program Record Thread} {state next : State Record Key Value Thread}
  {thread other : Thread} {record : Record} {spec names : List Record}

/-! ## The order of the calls -/

section Order

variable [DecidableEq Key] [DecidableEq Value] [DecidableEq Thread]

/-- The order of the calls of a state goes on in every run from it. -/
theorem exists_more {history : List (Thread × (Record × Value))}
    (linear : Linearizes table.accept (done program) (Agrees table program) names history state)
    (reached : Reaches (advance table program) state next) :
    ∃ more, Linearizes table.accept (done program) (Agrees table program) names
      (history ++ more) next :=
  linear.extends_of_reaches (fun _ => True) (fun _ _ _ _ _ => trivial)
    (fun _ _ _ _ _ agrees stepped => agrees.commits stepped) trivial reached

theorem exists_history (distinct : (names.map table.key).Nodup)
    (reached : Reaches (advance table program) (initial table names) state) :
    ∃ history, Linearizes table.accept (done program) (Agrees table program) names history
      state :=
  exists_more (.initial (fun thread => done_undecided (by simp [initial]))
    (agrees_initial distinct)) reached

end Order

section Values

variable [DecidableEq Key] [DecidableEq Value] {value : Value} {calls : List (Record × Value)}

omit [DecidableEq Value] in
/-- A value that is found is found after more records. -/
theorem lookup_of_isPrefix {entries : List Record} (indexed : spec <+: entries) {key : Key}
    (found : table.lookup spec key = some value) : table.lookup entries key = some value := by
  obtain ⟨tail, rfl⟩ := indexed
  induction tail using List.reverseRecOn with
  | nil => rwa [List.append_nil]
  | append_singleton tail last ih => rw [← List.append_assoc, Table.lookup_append, ih]

/-- What a call has returned is what a lookup finds from then on. -/
theorem lookup_of_mem (run : Run table.accept names calls spec)
    (member : (record, value) ∈ calls) : table.lookup spec (table.key record) = some value := by
  induction run with
  | nil => cases member
  | @snoc calls middle after call run _ accepted ih =>
      rcases List.mem_append.mp member with old | new
      · have found := ih old
        rcases Table.accept_cases accepted with ⟨_, rfl⟩ | ⟨_, _, rfl⟩
        · exact found
        · rw [Table.lookup_append, found]
      · obtain rfl := List.mem_singleton.mp new
        rcases Table.accept_cases accepted with ⟨found, rfl⟩ | ⟨absent, rfl, rfl⟩
        · exact found
        · rw [Table.lookup_append, absent]
          exact if_pos rfl

end Values

/-- The records that the index has come first. -/
theorem Agrees.isPrefix [DecidableEq Key] (agrees : Agrees table program spec state) :
    spec <+: state.entries := by
  have held := agrees.held
  unfold Held at held
  cases owner : state.insertMutex with
  | none =>
      simp only [owner] at held
      rw [held]
  | some holder =>
      simp only [owner] at held
      obtain ⟨record, _, held⟩ := held
      cases place : (state.progress holder).phase with
      | start | missed => simp [place] at held
      | locked | returning =>
          simp only [place] at held
          rw [held]
      | absent =>
          simp only [place] at held
          rw [held.1]
      | stored value =>
          simp only [place] at held
          rw [held.1]
          exact List.prefix_append _ _

section Results

variable [DecidableEq Key] [DecidableEq Value] [DecidableEq Thread] {value : Value}

/-- What a thread has got is found in every later state. -/
theorem exists_lookup (distinct : (names.map table.key).Nodup)
    (reached : Reaches (advance table program) (initial table names) state)
    (later : Reaches (advance table program) state next) :
    ∃ spec, Agrees table program spec next ∧
      (∀ thread record value, (record, value) ∈ (state.progress thread).results →
        table.lookup spec (table.key record) = some value) ∧
      ∀ thread record value, (record, value) ∈ (next.progress thread).results →
        table.lookup spec (table.key record) = some value := by
  obtain ⟨history, linear⟩ := exists_history distinct reached
  obtain ⟨more, order, spec, run, agrees⟩ := exists_more linear later
  have done_of_result : ∀ {state : State Record Key Value Thread} {thread record value},
      (record, value) ∈ (state.progress thread).results →
      (record, value) ∈ done program state thread := fun member => List.mem_append_left _ member
  have listed : ∀ {thread record value}, (thread, (record, value)) ∈ history ++ more →
      (record, value) ∈ (history ++ more).map Prod.snd := fun member =>
    List.mem_map.mpr ⟨_, member, rfl⟩
  refine ⟨spec, agrees, fun thread record value member => ?_, fun thread record value member => ?_⟩
  · have inHistory := done_of_result member
    rw [← linear.order, mem_ofThread] at inHistory
    exact lookup_of_mem run (listed (List.mem_append_left _ inHistory))
  · have inHistory := done_of_result member
    rw [← order, mem_ofThread] at inHistory
    exact lookup_of_mem run (listed inHistory)

end Results

/-! ## The two tables -/

section Tables

variable [DecidableEq Thread]

/-- `SymbolTable::intern` with what it returns, on the graph. -/
def acceptSymbol (graph : NetlistGraph) (call : SymbolReference × SymbolReference) :
    Option NetlistGraph :=
  let (record, graph) := graph.intern call.1
  if record = call.2 then some graph else none

/-- The sequential symbol table is `NetlistGraph.intern`. -/
theorem intern_symbolTable (graph : NetlistGraph) (reference : SymbolReference) :
    symbolTable.intern graph.symbolTable reference =
      ((graph.intern reference).1, (graph.intern reference).2.symbolTable) := by
  unfold Table.intern NetlistGraph.intern Table.lookup
  rw [List.find?_eq_bind_findIdx?_getElem?]
  have sameTest : (fun entry => decide (symbolTable.key entry = symbolTable.key reference)) =
      fun entry => decide (entry.hierarchicalPath = reference.hierarchicalPath) := rfl
  rw [sameTest]
  cases found : graph.symbolTable.findIdx? fun entry =>
      entry.hierarchicalPath = reference.hierarchicalPath with
  | none => rfl
  | some index =>
      obtain ⟨inside, _⟩ := List.findIdx?_eq_some_iff_getElem.mp found
      simp only [Option.bind_some, List.getElem?_eq_getElem inside, Option.map_some]
      rfl

/--
Every interleaving of `intern` calls is the calls of `NetlistGraph.intern` in some
order, with the same records returned, and later states continue the order.
-/
theorem intern_linearizable {program : Program SymbolReference Thread} {graph : NetlistGraph}
    {state : State SymbolReference String SymbolReference Thread}
    (distinct : (graph.symbolTable.map SymbolReference.hierarchicalPath).Nodup)
    (reached : Reaches (advance symbolTable program) (initial symbolTable graph.symbolTable)
      state) :
    ∃ history, Linearizes acceptSymbol (done program)
        (fun graph state => Agrees symbolTable program graph.symbolTable state) graph history
        state ∧
      ∀ next, Reaches (advance symbolTable program) state next → ∃ more,
        Linearizes acceptSymbol (done program)
          (fun graph state => Agrees symbolTable program graph.symbolTable state) graph
          (history ++ more) next := by
  have lifts : ∀ (graph : NetlistGraph) (call : SymbolReference × SymbolReference) after,
      symbolTable.accept graph.symbolTable call = some after →
      ∃ later, acceptSymbol graph call = some later ∧ later.symbolTable = after := by
    intro graph call after accepted
    simp only [Table.accept, intern_symbolTable, Option.ite_none_right_eq_some,
      Option.some.injEq] at accepted
    exact ⟨_, if_pos accepted.1, accepted.2⟩
  obtain ⟨history, linear⟩ := exists_history distinct reached
  refine ⟨history, linear.lift lifts, fun next later => ?_⟩
  obtain ⟨more, extended⟩ := exists_more linear later
  exact ⟨more, extended.lift lifts⟩

/-- A table that has fewer names than `NoFile` gives back the name of each index. -/
theorem getFilename_of_lookup {entries : List String} {name : String} {index : UInt32}
    (found : fileTable.lookup entries name = some index) (bounded : entries.length < UInt32.size) :
    index ≠ noFile ∧ getFilename entries index = some name := by
  obtain ⟨position, entry, listed, rfl, rfl⟩ := Table.lookup_eq_some found
  obtain ⟨inside, _⟩ := List.getElem?_eq_some_iff.mp listed
  have read : (UInt32.ofNat position).toNat = position :=
    UInt32.toNat_ofNat_of_lt' (inside.trans bounded)
  have used : UInt32.ofNat position ≠ noFile := by
    intro same
    have last := congrArg UInt32.toNat same
    rw [read, noFile, UInt32.toNat_ofNat_of_lt' (by decide)] at last
    omega
  refine ⟨used, ?_⟩
  simp only [getFilename, fileTable, used, if_false, read]
  exact listed

/--
An index that `addFile` has returned to any thread is not `NoFile` and names its
file in every later state, and two threads have the same index exactly for the
same name.
-/
theorem addFile_results {program : Program String Thread} {names : List String}
    {state next : State String String UInt32 Thread} {thread : Thread} {name : String}
    {index : UInt32} (distinct : names.Nodup)
    (reached : Reaches (advance fileTable program) (initial fileTable names) state)
    (returned : (name, index) ∈ (state.progress thread).results)
    (later : Reaches (advance fileTable program) state next)
    (bounded : next.entries.length < UInt32.size) :
    index ≠ noFile ∧ getFilename next.entries index = some name ∧
      ∀ other name' index', (name', index') ∈ (next.progress other).results →
        (index' = index ↔ name' = name) := by
  obtain ⟨spec, agrees, before, after⟩ :=
    exists_lookup (by simpa [fileTable] using distinct) reached later
  have named {name : String} {index : UInt32} (found : fileTable.lookup spec name = some index) :
      index ≠ noFile ∧ getFilename next.entries index = some name :=
    getFilename_of_lookup (lookup_of_isPrefix agrees.isPrefix found) bounded
  obtain ⟨used, here⟩ := named (before thread name index returned)
  refine ⟨used, here, fun other name' index' found => ?_⟩
  constructor
  · rintro rfl
    obtain ⟨_, there⟩ := named (after other name' index' found)
    exact Option.some.inj (there.symm.trans here)
  · rintro rfl
    exact Option.some.inj ((after other name' index' found).symm.trans
      (before thread name' index returned))

end Tables

/-! ## The end of a schedule -/

section End

/-- The steps that a thread has taken in a call that inserts. -/
def Phase.rank : Phase Value → Nat
  | .start => 0
  | .missed => 1
  | .locked => 2
  | .absent => 3
  | .stored _ => 4
  | .returning _ => 5

/-- A bound of the steps that a thread has taken. -/
def Progress.weight (progress : Progress Record Value) : Nat :=
  6 * progress.position + progress.phase.rank

variable [DecidableEq Key] [DecidableEq Thread]

/-- What a step does to the progress of the threads. -/
theorem advance_progress (stepped : advance table program state thread = some next) :
    (∀ other ≠ thread, next.progress other = state.progress other) ∧
      ∃ record, current program state thread = some record ∧
        (((next.progress thread).position = (state.progress thread).position ∧
            (next.progress thread).results = (state.progress thread).results ∧
            (state.progress thread).phase.rank < (next.progress thread).phase.rank) ∨
          ∃ value, next.progress thread = (state.progress thread).returns record value) := by
  obtain ⟨record, running, moved⟩ := Option.bind_eq_some_iff.mp stepped
  have others : ∀ {later : State Record Key Value Thread} {progress : Progress Record Value},
      later.progress = state.progress → ∀ other ≠ thread,
      (later.update thread progress).progress other = state.progress other := by
    intro later progress same other apart
    rw [progress_update_of_ne apart, same]
  unfold move at moved
  cases place : (state.progress thread).phase with
  | start =>
      simp only [place] at moved
      cases found : state.indexMap (table.key record) with
      | some value =>
          simp only [found, Option.some.injEq] at moved
          subst moved
          exact ⟨others rfl, record, running, .inr ⟨value, progress_update_self⟩⟩
      | none =>
          simp only [found, Option.some.injEq] at moved
          subst moved
          refine ⟨others rfl, record, running, .inl ?_⟩
          simp [State.goto, Phase.rank]
  | missed =>
      simp only [place] at moved
      cases owner : state.insertMutex with
      | some holder => simp [owner] at moved
      | none =>
          simp only [owner, Option.some.injEq] at moved
          subst moved
          refine ⟨others rfl, record, running, .inl ?_⟩
          simp [State.goto, Phase.rank]
  | locked =>
      simp only [place] at moved
      cases found : state.indexMap (table.key record) with
      | some value | none =>
          simp only [found, Option.some.injEq] at moved
          subst moved
          refine ⟨others rfl, record, running, .inl ?_⟩
          simp [State.goto, Phase.rank]
  | absent | stored value =>
      simp only [place, Option.some.injEq] at moved
      subst moved
      refine ⟨others rfl, record, running, .inl ?_⟩
      simp [State.goto, Phase.rank]
  | returning value =>
      simp only [place, Option.some.injEq] at moved
      subst moved
      exact ⟨others rfl, record, running, .inr ⟨value, progress_update_self⟩⟩

/-- The results are those of the calls that have returned. -/
def Returned (program : Program Record Thread) (state : State Record Key Value Thread) : Prop :=
  ∀ thread, (state.progress thread).results.map Prod.fst =
    (program thread).take (state.progress thread).position

theorem Returned.step (returned : Returned program state)
    (stepped : advance table program state thread = some next) : Returned program next := by
  obtain ⟨others, record, running, moves⟩ := advance_progress stepped
  intro other
  by_cases mover : other = thread
  · subst other
    rcases moves with ⟨position, results, _⟩ | ⟨value, moved⟩
    · rw [position, results]
      exact returned thread
    · rw [moved]
      simp only [Progress.returns, List.map_append, List.map_singleton, returned thread]
      rw [current] at running
      rw [List.take_add_one, running]
      rfl
  · rw [others other mover]
    exact returned other

theorem Phase.rank_le (phase : Phase Value) : phase.rank ≤ 5 := by
  cases phase <;> simp [Phase.rank]

/-- Every step adds to the weight of the moving thread. -/
theorem weight_lt (stepped : advance table program state thread = some next) :
    (state.progress thread).weight < (next.progress thread).weight := by
  obtain ⟨_, record, _, ⟨position, _, rank⟩ | ⟨value, moved⟩⟩ := advance_progress stepped
  · simp only [Progress.weight, position]
    omega
  · have bound := (state.progress thread).phase.rank_le
    simp only [Progress.weight, moved, Progress.returns]
    omega

/-- A thread never weighs more than its calls. -/
theorem weight_le (bounded : ∀ thread, (state.progress thread).weight ≤ 6 * (program thread).length)
    (stepped : advance table program state thread = some next) (other : Thread) :
    (next.progress other).weight ≤ 6 * (program other).length := by
  obtain ⟨others, record, running, moves⟩ := advance_progress stepped
  by_cases mover : other = thread
  · subst other
    obtain ⟨inside, _⟩ := List.getElem?_eq_some_iff.mp running
    rcases moves with ⟨position, _, _⟩ | ⟨value, moved⟩
    · have bound := (next.progress thread).phase.rank_le
      simp only [Progress.weight, position]
      omega
    · simp only [Progress.weight, moved, Progress.returns, Phase.rank]
      omega
  · rw [others other mover]
    exact bounded other

/-- The holder of the mutex is never kept from its next step. -/
theorem advance_owner (agrees : Agrees table program spec state)
    (owns : state.insertMutex = some thread) : advance table program state thread ≠ none := by
  have held := agrees.held
  unfold Held at held
  simp only [owns] at held
  obtain ⟨record, running, held⟩ := held
  rw [advance, running]
  simp only [Option.bind_some, move]
  cases place : (state.progress thread).phase with
  | start | missed => simp [place] at held
  | absent | stored value | returning value => exact Option.some_ne_none _
  | locked => cases state.indexMap (table.key record) <;> exact Option.some_ne_none _

/-- When no thread has a step, all calls have returned. -/
theorem current_of_stuck (agrees : Agrees table program spec state)
    (stuck : ∀ thread, advance table program state thread = none) (thread : Thread) :
    current program state thread = none := by
  by_contra unfinished
  obtain ⟨record, running⟩ := Option.ne_none_iff_exists'.mp unfinished
  cases owner : state.insertMutex with
  | some holder => exact advance_owner agrees owner (stuck holder)
  | none =>
      have moves := stuck thread
      rw [advance, running] at moves
      simp only [Option.bind_some, move] at moves
      rcases agrees.others thread (by simp [owner]) with place | ⟨place, _⟩
      · simp only [place] at moves
        cases found : state.indexMap (table.key record) <;> simp [found] at moves
      · simp [place, owner] at moves

/--
Every schedule is finite, and one that cannot go on has returned from every
call: no thread waits for the mutex for ever.
-/
theorem schedule_returns [Fintype Thread] [DecidableEq Value] {schedule : List Thread}
    (distinct : (names.map table.key).Nodup)
    (run : Run (advance table program) (initial table names) schedule state) :
    schedule.length ≤ 6 * ∑ thread, (program thread).length ∧
      ((∀ thread, advance table program state thread = none) →
        ∀ thread, (state.progress thread).results.map Prod.fst = program thread) := by
  have weighed : schedule.length ≤ ∑ thread, (state.progress thread).weight ∧
      (∀ thread, (state.progress thread).weight ≤ 6 * (program thread).length) ∧
      Returned program state := by
    induction run with
    | nil =>
        refine ⟨Nat.zero_le _, fun thread => Nat.zero_le _, fun thread => ?_⟩
        simp [initial]
    | @snoc front middle after thread _ _ stepped ih =>
        obtain ⟨steps, bounded, returned⟩ := ih
        refine ⟨?_, weight_le bounded stepped, returned.step stepped⟩
        rw [List.length_append, List.length_singleton]
        apply Nat.succ_le_of_lt
        apply steps.trans_lt
        refine Finset.sum_lt_sum (fun other _ => ?_) ⟨thread, Finset.mem_univ _, weight_lt stepped⟩
        by_cases mover : other = thread
        · rw [mover]
          exact (weight_lt stepped).le
        · rw [(advance_progress stepped).1 other mover]
  obtain ⟨steps, bounded, returned⟩ := weighed
  refine ⟨?_, fun stuck thread => ?_⟩
  · apply steps.trans
    rw [Finset.mul_sum]
    exact Finset.sum_le_sum fun thread _ => bounded thread
  · obtain ⟨history, linear⟩ := exists_history distinct ⟨schedule, run⟩
    obtain ⟨spec, _, agrees⟩ := linear.accepted
    have finished := current_of_stuck agrees stuck thread
    rw [returned thread]
    exact List.take_of_length_le (List.getElem?_eq_none_iff.mp finished)

end End

/-! ## Two threads and one key -/

section Race

variable [DecidableEq Key] {program : Program Record Bool}

/-- The state after the threads have moved in the given order. -/
def stateAfter (table : Table Record Key Value) (names : List Record)
    (program : Program Record Bool) (schedule : List Bool)
    (runs : (schedule.foldlM (advance table program) (initial table names)).isSome) :
    State Record Key Value Bool :=
  (schedule.foldlM (advance table program) (initial table names)).get runs

theorem run_stateAfter {schedule : List Bool}
    (runs : (schedule.foldlM (advance table program) (initial table names)).isSome) :
    Run (advance table program) (initial table names) schedule
      (stateAfter table names program schedule runs) :=
  .of_foldlM_of_forall (Option.some_get runs).symm fun _ _ _ _ _ _ => trivial

/-- Both threads miss without the mutex, and the second one hits with it. -/
def race : List Bool :=
  [false, true, false, false, false, false, false, true, true, true]

end Race

/-- The two threads refer to one path from different places. -/
def samePath : Program SymbolReference Bool :=
  fun thread => [{ name := "a", hierarchicalPath := "t.a", location := { line := thread.toNat } }]

def samePathState : State SymbolReference String SymbolReference Bool :=
  stateAfter symbolTable [] samePath race (by decide +kernel)

theorem intern_linearizable_samePath :
    ∃ history, Linearizes acceptSymbol (done samePath)
        (fun graph state => Agrees symbolTable samePath graph.symbolTable state) {} history
        samePathState ∧
      ∀ next, Reaches (advance symbolTable samePath) samePathState next → ∃ more,
        Linearizes acceptSymbol (done samePath)
          (fun graph state => Agrees symbolTable samePath graph.symbolTable state) {}
          (history ++ more) next :=
  @intern_linearizable _ _ samePath {} _ List.nodup_nil ⟨race, run_stateAfter _⟩

example : (samePathState.progress true).results =
    [((samePath true).head (by decide), (samePath false).head (by decide))] := by
  decide +kernel

/-- Both threads add the same file to a table that has another one. -/
def sameFile : Program String Bool :=
  fun _ => ["b.sv"]

def sameFileState : State String String UInt32 Bool :=
  stateAfter fileTable ["a.sv"] sameFile race (by decide +kernel)

theorem addFile_results_sameFile :
    1 ≠ noFile ∧ getFilename sameFileState.entries 1 = some "b.sv" ∧
      ∀ other name' index', (name', index') ∈ (sameFileState.progress other).results →
        (index' = 1 ↔ name' = "b.sv") :=
  @addFile_results _ _ sameFile ["a.sv"] sameFileState _ false "b.sv" 1 (by decide)
    ⟨race, run_stateAfter _⟩ (by decide +kernel) (.refl _ _) (by decide +kernel)

theorem schedule_returns_sameFile :
    race.length ≤ 6 * ∑ thread, (sameFile thread).length ∧
      ((∀ thread, advance fileTable sameFile sameFileState thread = none) →
        ∀ thread, (sameFileState.progress thread).results.map Prod.fst = sameFile thread) :=
  @schedule_returns _ _ _ _ fileTable sameFile sameFileState ["a.sv"] _ _ _ _ race
    (by decide) (run_stateAfter _)

end SlangNetlist.InternTables
