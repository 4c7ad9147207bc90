import Mathlib.Data.List.Basic

/-!
# Splitting a list at a separator

The parts before and behind the first or the last occurrence of an element,
as a search from the front or from the back of a text finds them.
-/

namespace SlangNetlist.Library

variable {α : Type} [DecidableEq α]

/-- The parts around the first occurrence. -/
def splitFirst (separator : α) : List α → Option (List α × List α)
  | [] => none
  | head :: rest =>
      if head = separator then some ([], rest)
      else (splitFirst separator rest).map fun (before, behind) => (head :: before, behind)

/-- The parts around the last occurrence. -/
def splitLast (separator : α) : List α → Option (List α × List α)
  | [] => none
  | head :: rest =>
      match splitLast separator rest with
      | some (before, behind) => some (head :: before, behind)
      | none => if head = separator then some ([], rest) else none

variable {separator : α} {list before behind : List α}

theorem splitFirst_eq_none : splitFirst separator list = none ↔ separator ∉ list := by
  induction list with
  | nil => simp [splitFirst]
  | cons head rest ih =>
      by_cases same : head = separator
      · simp [splitFirst, same]
      · simp [splitFirst, same, ih, Ne.symm same]

theorem splitFirst_append (absent : separator ∉ before) :
    splitFirst separator (before ++ separator :: behind) = some (before, behind) := by
  induction before with
  | nil => simp [splitFirst]
  | cons head rest ih =>
      obtain ⟨differs, restAbsent⟩ := not_or.mp (mt List.mem_cons.mpr absent)
      simp [splitFirst, Ne.symm differs, ih restAbsent]

theorem eq_append_of_splitFirst (found : splitFirst separator list = some (before, behind)) :
    list = before ++ separator :: behind := by
  induction list generalizing before with
  | nil => simp [splitFirst] at found
  | cons head rest ih =>
      by_cases same : head = separator
      · simp only [splitFirst, same, if_true, Option.some.injEq, Prod.mk.injEq] at found
        obtain ⟨rfl, rfl⟩ := found
        simp [same]
      · simp only [splitFirst, same, if_false, Option.map_eq_some_iff, Prod.mk.injEq] at found
        obtain ⟨⟨restBefore, restBehind⟩, restFound, rfl, rfl⟩ := found
        simp [ih restFound]

theorem splitLast_of_not_mem (absent : separator ∉ list) : splitLast separator list = none := by
  induction list with
  | nil => rfl
  | cons head rest ih =>
      obtain ⟨differs, restAbsent⟩ := not_or.mp (mt List.mem_cons.mpr absent)
      simp [splitLast, ih restAbsent, Ne.symm differs]

theorem splitLast_append (before : List α) (absent : separator ∉ behind) :
    splitLast separator (before ++ separator :: behind) = some (before, behind) := by
  induction before with
  | nil => simp [splitLast, splitLast_of_not_mem absent]
  | cons head rest ih => simp [splitLast, ih]

theorem eq_append_of_splitLast (found : splitLast separator list = some (before, behind)) :
    list = before ++ separator :: behind := by
  induction list generalizing before behind with
  | nil => simp [splitLast] at found
  | cons head rest ih =>
      unfold splitLast at found
      cases inRest : splitLast separator rest with
      | some parts =>
          obtain ⟨restBefore, restBehind⟩ := parts
          simp only [inRest, Option.some.injEq, Prod.mk.injEq] at found
          obtain ⟨rfl, rfl⟩ := found
          simp [ih inRest]
      | none =>
          simp only [inRest, Option.ite_none_right_eq_some, Option.some.injEq,
            Prod.mk.injEq] at found
          obtain ⟨same, rfl, rfl⟩ := found
          simp [same]

end SlangNetlist.Library
