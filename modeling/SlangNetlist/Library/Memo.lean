import Mathlib.Data.List.Basic

/-!
# Memo tables

A memo table keeps the first value that is stored under a key.  A function that
answers from a table is independent of its history if what the table holds is
always an answer, and a key has one answer only.
-/

namespace SlangNetlist.Library

/-- The value stored under each key, if there is one. -/
abbrev Memo (Key Value : Type) := Key → Option Value

namespace Memo

variable {Key Value : Type} [DecidableEq Key] {memo : Memo Key Value} {key other : Key}
  {value stored : Value} {entries : List (Key × Value)}

/-- Store a value under a key that has none. -/
def emplace (memo : Memo Key Value) (key : Key) (value : Value) : Memo Key Value :=
  fun other => if other = key then some ((memo key).getD value) else memo other

theorem emplace_of_some (found : memo other = some stored) :
    memo.emplace key value other = some stored := by
  unfold emplace
  split
  · next same =>
      rw [← same, found]
      rfl
  · exact found

theorem of_emplace (found : memo.emplace key value other = some stored) :
    memo other = some stored ∨ (other = key ∧ stored = value) := by
  unfold emplace at found
  split at found
  · next same =>
      subst other
      cases old : memo key with
      | none =>
          rw [old] at found
          exact Or.inr ⟨rfl, (Option.some.inj found).symm⟩
      | some kept =>
          rw [old] at found
          exact Or.inl found
  · exact Or.inl found

theorem exists_emplace_self : ∃ stored, memo.emplace key value key = some stored :=
  ⟨_, if_pos rfl⟩

/-- Store a list of values. -/
def emplaceAll (memo : Memo Key Value) (entries : List (Key × Value)) : Memo Key Value :=
  entries.foldl (fun memo entry => memo.emplace entry.1 entry.2) memo

theorem emplaceAll_append (front back : List (Key × Value)) :
    memo.emplaceAll (front ++ back) = (memo.emplaceAll front).emplaceAll back :=
  List.foldl_append

theorem emplaceAll_of_some (found : memo other = some stored) :
    memo.emplaceAll entries other = some stored := by
  induction entries generalizing memo with
  | nil => exact found
  | cons entry rest ih => exact ih (emplace_of_some found)

theorem of_emplaceAll (found : memo.emplaceAll entries other = some stored) :
    memo other = some stored ∨ (other, stored) ∈ entries := by
  induction entries generalizing memo with
  | nil => exact Or.inl found
  | cons entry rest ih =>
      rcases ih found with found | listed
      · rcases of_emplace found with found | ⟨keyEq, valueEq⟩
        · exact Or.inl found
        · exact Or.inr (List.mem_cons.mpr (Or.inl (Prod.ext keyEq valueEq)))
      · exact Or.inr (List.mem_cons_of_mem _ listed)

theorem exists_emplaceAll (listed : (key, value) ∈ entries) :
    ∃ stored, memo.emplaceAll entries key = some stored := by
  induction entries generalizing memo with
  | nil => cases listed
  | cons entry rest ih =>
      rcases List.mem_cons.mp listed with rfl | listed
      · obtain ⟨stored, found⟩ := @exists_emplace_self _ _ _ memo key value
        have kept : (memo.emplace key value).emplaceAll rest key = some stored :=
          emplaceAll_of_some found
        exact ⟨stored, kept⟩
      · exact ih listed

end Memo

section Memoised

variable {State Key Value : Type} {query : State → Key → Value × State} {Inv : State → Prop}
  {Answer : Key → Value → Prop} {state other : State} {key : Key}

/-- A query that keeps an invariant, and whose result under it is the one answer of its key. -/
structure Memoised (query : State → Key → Value × State) (Inv : State → Prop)
    (Answer : Key → Value → Prop) : Prop where
  keeps : ∀ {state}, Inv state → ∀ key, Inv (query state key).2
  answers : ∀ {state}, Inv state → ∀ key, Answer key (query state key).1
  unique : ∀ {key first second}, Answer key first → Answer key second → first = second

/-- The state after a list of queries. -/
def afterQueries (query : State → Key → Value × State) (state : State) (history : List Key) :
    State :=
  history.foldl (fun state key => (query state key).2) state

namespace Memoised

theorem inv_afterQueries (memoised : Memoised query Inv Answer) (inv : Inv state)
    (history : List Key) : Inv (afterQueries query state history) := by
  induction history generalizing state with
  | nil => exact inv
  | cons key rest ih => exact ih (memoised.keeps inv key)

/-- In any two states that meet the invariant a query has the same result. -/
theorem result_eq (memoised : Memoised query Inv Answer) (inv : Inv state)
    (otherInv : Inv other) (key : Key) : (query state key).1 = (query other key).1 :=
  memoised.unique (memoised.answers inv key) (memoised.answers otherInv key)

end Memoised

end Memoised

end SlangNetlist.Library
