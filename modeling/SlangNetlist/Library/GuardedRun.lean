import Mathlib.Data.List.Induction

/-!
# Guarded runs

A partial step function on states, labelled by its calls, and the runs whose
every step meets a guard.  A failed assertion is a step without a result.
-/

namespace SlangNetlist.Library

variable {State Call : Type}

/-- A run from `start` whose steps succeed and meet the guard in the state before them. -/
inductive GuardedRun (step : State → Call → Option State) (guard : State → Call → Prop)
    (start : State) : List Call → State → Prop
  | nil : GuardedRun step guard start [] start
  | snoc {calls : List Call} {state next : State} {call : Call} :
      GuardedRun step guard start calls state → guard state call →
      step state call = some next → GuardedRun step guard start (calls ++ [call]) next

/-- A run without a guard. -/
abbrev Run (step : State → Call → Option State) (start : State) : List Call → State → Prop :=
  GuardedRun step (fun _ _ => True) start

namespace GuardedRun

variable {step : State → Call → Option State} {guard : State → Call → Prop}
  {start state : State} {calls : List Call}

/-- A property that holds at the start and survives guarded steps holds after every run. -/
theorem invariant {Holds : State → Prop} (base : Holds start)
    (keeps : ∀ state call next, Holds state → guard state call →
      step state call = some next → Holds next)
    (run : GuardedRun step guard start calls state) : Holds state := by
  induction run with
  | nil => exact base
  | snoc _ allowed stepped ih => exact keeps _ _ _ ih allowed stepped

/-- The step function restricted to calls that meet the guard. -/
def guarded (step : State → Call → Option State) (guard : State → Call → Prop)
    [∀ state call, Decidable (guard state call)] (state : State) (call : Call) : Option State :=
  if guard state call then step state call else none

/-- Folding the restricted step over the calls is a run. -/
theorem of_foldlM [∀ state call, Decidable (guard state call)]
    (folded : calls.foldlM (guarded step guard) start = some state) :
    GuardedRun step guard start calls state := by
  induction calls using List.reverseRecOn generalizing state with
  | nil =>
      cases folded
      exact nil
  | append_singleton calls call ih =>
      simp only [List.foldlM_append, List.foldlM_cons, List.foldlM_nil, Option.bind_eq_bind,
        Option.pure_def, Option.bind_eq_some_iff, guarded] at folded
      obtain ⟨middle, front, last, stepped, same⟩ := folded
      cases same
      split at stepped
      · next allowed => exact snoc (ih front) allowed stepped
      · cases stepped

/-- There is a run exactly if folding the restricted step succeeds. -/
theorem exists_iff_isSome [∀ state call, Decidable (guard state call)] :
    (∃ state, GuardedRun step guard start calls state) ↔
      (calls.foldlM (guarded step guard) start).isSome := by
  constructor
  · rintro ⟨state, run⟩
    have folded : calls.foldlM (guarded step guard) start = some state := by
      induction run with
      | nil => rfl
      | snoc _ allowed stepped ih =>
          rw [List.foldlM_append, ih]
          simpa [guarded, allowed] using stepped
    rw [folded]
    rfl
  · intro succeeds
    exact ⟨_, of_foldlM (Option.some_get succeeds).symm⟩

/-- A fold that succeeds and meets the guard before every call is a run. -/
theorem of_foldlM_of_forall (folded : calls.foldlM step start = some state)
    (allowed : ∀ front call back middle, calls = front ++ call :: back →
      front.foldlM step start = some middle → guard middle call) :
    GuardedRun step guard start calls state := by
  induction calls using List.reverseRecOn generalizing state with
  | nil =>
      cases folded
      exact nil
  | append_singleton calls call ih =>
      simp only [List.foldlM_append, List.foldlM_cons, List.foldlM_nil, Option.bind_eq_bind,
        Option.pure_def, Option.bind_eq_some_iff] at folded
      obtain ⟨middle, front, last, stepped, same⟩ := folded
      cases same
      refine snoc (ih front fun before earlier back state split => ?_)
        (allowed calls call [] middle rfl front) stepped
      exact allowed before earlier (back ++ [call]) state (by rw [split]; simp)

/-- There is a run of all calls if after every run of the first of them the next one goes on. -/
theorem of_progress
    (progress : ∀ front call back state, calls = front ++ call :: back →
      GuardedRun step guard start front state →
        guard state call ∧ ∃ next, step state call = some next) :
    ∃ state, GuardedRun step guard start calls state := by
  induction calls using List.reverseRecOn with
  | nil => exact ⟨start, nil⟩
  | append_singleton calls call ih =>
      obtain ⟨middle, front⟩ := ih fun earlier other back state split =>
        progress earlier other (back ++ [call]) state (by rw [split]; simp)
      obtain ⟨allowed, next, stepped⟩ := progress calls call [] middle rfl front
      exact ⟨next, front.snoc allowed stepped⟩

/-- A run is a fold that succeeds. -/
theorem folded (run : GuardedRun step guard start calls state) :
    calls.foldlM step start = some state := by
  induction run with
  | nil => rfl
  | snoc _ _ stepped ih =>
      rw [List.foldlM_append, ih]
      simpa using stepped

/-- The guard holds before every call of a run. -/
theorem guard_of_split (run : GuardedRun step guard start calls state) {front back : List Call}
    {call : Call} {middle : State} (split : calls = front ++ call :: back)
    (reached : front.foldlM step start = some middle) : guard middle call := by
  induction run generalizing back with
  | nil => simp at split
  | snoc earlier allowed _ ih =>
      rcases List.eq_nil_or_concat back with rfl | ⟨others, last, rfl⟩
      · obtain ⟨rfl, same⟩ := List.append_inj' split rfl
        cases same
        rw [earlier.folded] at reached
        cases reached
        exact allowed
      · refine @ih others ?_
        rw [List.concat_eq_append, ← List.cons_append, ← List.append_assoc] at split
        exact (List.append_inj' split rfl).1

/-- A run continued by another one. -/
theorem append {middle : State} {later : List Call}
    (front : GuardedRun step guard start calls middle)
    (back : GuardedRun step guard middle later state) :
    GuardedRun step guard start (calls ++ later) state := by
  induction back with
  | nil => simpa using front
  | snoc _ allowed stepped ih =>
      rw [← List.append_assoc]
      exact snoc ih allowed stepped

/-- One step is a run. -/
theorem single {call : Call} (allowed : guard start call) (stepped : step start call = some state) :
    GuardedRun step guard start [call] state :=
  snoc nil allowed stepped

end GuardedRun

/-- The states that some run reaches. -/
def Reaches (step : State → Call → Option State) (start state : State) : Prop :=
  ∃ calls, Run step start calls state

namespace Reaches

variable {step : State → Call → Option State} {start middle state : State}

theorem refl (step : State → Call → Option State) (start : State) : Reaches step start start :=
  ⟨[], .nil⟩

theorem trans (front : Reaches step start middle) (back : Reaches step middle state) :
    Reaches step start state := by
  obtain ⟨calls, front⟩ := front
  obtain ⟨later, back⟩ := back
  exact ⟨calls ++ later, front.append back⟩

theorem snoc {call : Call} (front : Reaches step start middle)
    (stepped : step middle call = some state) : Reaches step start state :=
  front.trans ⟨[call], .single trivial stepped⟩

/-- A property that holds at the start and survives steps holds in every reached state. -/
theorem invariant {Holds : State → Prop} (base : Holds start)
    (keeps : ∀ state call next, Holds state → step state call = some next → Holds next)
    (reached : Reaches step start state) : Holds state := by
  obtain ⟨calls, run⟩ := reached
  exact run.invariant base fun state call next holds _ stepped => keeps state call next holds stepped

/-- When every step decreases a measure, a state without further steps is reached. -/
theorem exists_exhausted (measure : State → Nat)
    (decreases : ∀ state call next, step state call = some next → measure next < measure state)
    (start : State) :
    ∃ state, Reaches step start state ∧ ∀ call, step state call = none := by
  induction bound : measure start using Nat.strongRecOn generalizing start with
  | ind size ih =>
      by_cases exhausted : ∀ call, step start call = none
      · exact ⟨start, refl step start, exhausted⟩
      · obtain ⟨call, moves⟩ := not_forall.mp exhausted
        obtain ⟨next, stepped⟩ := Option.ne_none_iff_exists'.mp moves
        obtain ⟨state, reached, ended⟩ :=
          ih (measure next) (bound ▸ decreases start call next stepped) next rfl
        exact ⟨state, ((refl step start).snoc stepped).trans reached, ended⟩

end Reaches

end SlangNetlist.Library
