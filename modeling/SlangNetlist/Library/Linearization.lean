import Mathlib.Logic.Function.Basic
import SlangNetlist.Library.GuardedRun

/-!
# Linearizations

Threads act on shared data, and a sequential specification says which actions
may follow each other.  A history puts the actions of all threads in one order.
-/

namespace SlangNetlist.Library

variable {State Thread Action Spec : Type} [DecidableEq Thread]

/-- The actions of one thread, in order. -/
def ofThread (thread : Thread) (history : List (Thread × Action)) : List Action :=
  (history.filter fun entry => entry.1 = thread).map Prod.snd

section OfThread

variable {thread other : Thread} {history later : List (Thread × Action)} {action : Action}

@[simp] theorem ofThread_nil : ofThread thread ([] : List (Thread × Action)) = [] :=
  rfl

@[simp] theorem ofThread_append :
    ofThread thread (history ++ later) = ofThread thread history ++ ofThread thread later := by
  simp [ofThread]

@[simp] theorem ofThread_single_self : ofThread thread [(thread, action)] = [action] := by
  simp [ofThread]

theorem ofThread_single_of_ne (apart : other ≠ thread) :
    ofThread other [(thread, action)] = [] := by
  simp [ofThread, Ne.symm apart]

theorem mem_ofThread : action ∈ ofThread thread history ↔ (thread, action) ∈ history := by
  simp [ofThread]

end OfThread

/--
A history of a state: for each thread it has what the thread has done, and the
specification accepts it and agrees with the state.
-/
structure Linearizes (accept : Spec → Action → Option Spec) (done : State → Thread → List Action)
    (agrees : Spec → State → Prop) (start : Spec) (history : List (Thread × Action))
    (state : State) : Prop where
  order : ∀ thread, ofThread thread history = done state thread
  accepted : ∃ spec, Run accept start (history.map Prod.snd) spec ∧ agrees spec state

/-- A step of a thread does nothing that the specification sees, or one action of it. -/
inductive Commits (accept : Spec → Action → Option Spec) (done : State → Thread → List Action)
    (agrees : Spec → State → Prop) (spec : Spec) (state : State) (thread : Thread)
    (next : State) : Prop
  | silent : agrees spec next → (∀ other, done next other = done state other) →
      Commits accept done agrees spec state thread next
  | acts {action : Action} {after : Spec} : accept spec action = some after → agrees after next →
      done next thread = done state thread ++ [action] →
      (∀ other ≠ thread, done next other = done state other) →
      Commits accept done agrees spec state thread next

namespace Linearizes

variable {accept : Spec → Action → Option Spec} {done : State → Thread → List Action}
  {agrees : Spec → State → Prop} {start spec : Spec} {history : List (Thread × Action)}
  {state next : State}

/-- When no thread has done anything, the empty history will do. -/
theorem initial (idle : ∀ thread, done state thread = []) (agree : agrees start state) :
    Linearizes accept done agrees start [] state where
  order thread := (idle thread).symm
  accepted := ⟨start, .nil, agree⟩

/-- A step that commits at most one action extends the history by it. -/
theorem step {thread : Thread} (linear : Linearizes accept done agrees start history state)
    (commits : ∀ spec, agrees spec state → Commits accept done agrees spec state thread next) :
    ∃ more, Linearizes accept done agrees start (history ++ more) next := by
  obtain ⟨spec, run, agree⟩ := linear.accepted
  cases commits spec agree with
  | silent agree kept =>
      refine ⟨[], fun other => ?_, spec, ?_, agree⟩
      · rw [List.append_nil, linear.order, kept]
      · rwa [List.append_nil]
  | @acts action after accepts agree added kept =>
      refine ⟨[(thread, action)], fun other => ?_, after, ?_, agree⟩
      · rw [ofThread_append, linear.order]
        by_cases mover : other = thread
        · subst other
          rw [ofThread_single_self, added]
        · rw [ofThread_single_of_ne mover, List.append_nil, kept other mover]
      · rw [List.map_append]
        exact run.snoc trivial accepts

/-- When every step commits at most one action, the history of a state goes on in every run. -/
theorem extends_of_reaches {move : State → Thread → Option State} (Sound : State → Prop)
    (keeps : ∀ state thread next, Sound state → move state thread = some next → Sound next)
    (commits : ∀ spec state thread next, Sound state → agrees spec state →
      move state thread = some next → Commits accept done agrees spec state thread next)
    (sound : Sound state) (linear : Linearizes accept done agrees start history state)
    (reached : Reaches move state next) :
    ∃ more, Linearizes accept done agrees start (history ++ more) next := by
  have holds : Sound next ∧
      ∃ more, Linearizes accept done agrees start (history ++ more) next := by
    apply @Reaches.invariant _ _ move state next fun later => Sound later ∧
      ∃ more, Linearizes accept done agrees start (history ++ more) later
    · exact ⟨sound, [], by rwa [List.append_nil]⟩
    · rintro middle thread later ⟨sound, more, linear⟩ stepped
      obtain ⟨latest, extended⟩ :=
        linear.step fun spec agree => commits spec middle thread later sound agree stepped
      refine ⟨keeps middle thread later sound stepped, more ++ latest, ?_⟩
      rwa [← List.append_assoc]
    · exact reached
  exact holds.2

/-- A specification that another one implements. -/
theorem lift {Concrete : Type} {implement : Concrete → Action → Option Concrete}
    {view : Concrete → Spec} {begin : Concrete}
    (lifts : ∀ concrete action after, accept (view concrete) action = some after →
      ∃ later, implement concrete action = some later ∧ view later = after)
    (linear : Linearizes accept done agrees (view begin) history state) :
    Linearizes implement done (fun concrete state => agrees (view concrete) state) begin history
      state := by
  obtain ⟨spec, run, agree⟩ := linear.accepted
  have lifted : ∀ {calls : List Action} {spec : Spec}, Run accept (view begin) calls spec →
      ∃ concrete, Run implement begin calls concrete ∧ view concrete = spec := by
    intro calls spec run
    induction run with
    | nil => exact ⟨begin, .nil, rfl⟩
    | snoc _ _ accepts ih =>
        obtain ⟨concrete, front, rfl⟩ := ih
        obtain ⟨later, implemented, same⟩ := lifts concrete _ _ accepts
        exact ⟨later, front.snoc trivial implemented, same⟩
  obtain ⟨concrete, front, rfl⟩ := lifted run
  exact ⟨linear.order, concrete, front, agree⟩

end Linearizes

end SlangNetlist.Library
