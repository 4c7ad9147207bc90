import Mathlib.Data.List.Basic

/-!
# Modifying and removing the first match

A list in which the first element with a property is modified in place or
removed.  The sublist of the elements with the property changes at its head
only, and the sublist of elements with a disjoint property does not change.
-/

namespace SlangNetlist.Library

variable {α : Type}

/-- Apply a function to the first element that has the property. -/
def modifyFirst (matching : α → Bool) (change : α → α) : List α → List α
  | [] => []
  | head :: rest =>
      if matching head then change head :: rest
      else head :: modifyFirst matching change rest

variable {matching : α → Bool} {change : α → α}

theorem mem_modifyFirst {list : List α} {element : α}
    (member : element ∈ modifyFirst matching change list) :
    element ∈ list ∨ ∃ old ∈ list, matching old ∧ element = change old := by
  induction list with
  | nil => simp [modifyFirst] at member
  | cons head rest ih =>
      unfold modifyFirst at member
      split at member
      · next found =>
          rcases List.mem_cons.mp member with rfl | member
          · exact Or.inr ⟨head, List.mem_cons_self, found, rfl⟩
          · exact Or.inl (List.mem_cons_of_mem _ member)
      · rcases List.mem_cons.mp member with rfl | member
        · exact Or.inl List.mem_cons_self
        · rcases ih member with old | ⟨old, oldMem, found, same⟩
          · exact Or.inl (List.mem_cons_of_mem _ old)
          · exact Or.inr ⟨old, List.mem_cons_of_mem _ oldMem, found, same⟩

/-- A change that a function does not see leaves the image of the list as it is. -/
theorem map_modifyFirst {β : Type} {image : α → β}
    (same : ∀ element, matching element → image (change element) = image element)
    (list : List α) : (modifyFirst matching change list).map image = list.map image := by
  induction list with
  | nil => rfl
  | cons head rest ih =>
      unfold modifyFirst
      split
      · next found => simp [same head found]
      · simp [ih]

/-- The first match is at the end if there is none before. -/
theorem modifyFirst_append {list : List α} (unmatched : ∀ element ∈ list, ¬ matching element)
    {last : α} (found : matching last) :
    modifyFirst matching change (list ++ [last]) = list ++ [change last] := by
  induction list with
  | nil => simp [modifyFirst, found]
  | cons head rest ih =>
      obtain ⟨headUnmatched, restUnmatched⟩ := List.forall_mem_cons.mp unmatched
      simp [modifyFirst, headUnmatched, ih restUnmatched]

theorem filter_modifyFirst (keeps : ∀ element, matching element → matching (change element))
    (list : List α) :
    (modifyFirst matching change list).filter matching =
      (list.filter matching).modifyHead change := by
  induction list with
  | nil => rfl
  | cons head rest ih =>
      unfold modifyFirst
      by_cases found : matching head = true
      · simp [found, keeps head found]
      · simp [found, ih]

theorem filter_modifyFirst_of_disjoint {other : α → Bool}
    (disjoint : ∀ element, matching element → ¬ other element ∧ ¬ other (change element))
    (list : List α) :
    (modifyFirst matching change list).filter other = list.filter other := by
  induction list with
  | nil => rfl
  | cons head rest ih =>
      unfold modifyFirst
      by_cases found : matching head = true
      · obtain ⟨before, after⟩ := disjoint head found
        simp [found, before, after]
      · simp only [found, Bool.false_eq_true, if_false, List.filter_cons, ih]

/-! ## Removing the first match -/

theorem filter_eraseP_of_disjoint {other : α → Bool}
    (disjoint : ∀ element, matching element → ¬ other element) (list : List α) :
    (list.eraseP matching).filter other = list.filter other := by
  induction list with
  | nil => rfl
  | cons head rest ih =>
      by_cases found : matching head = true
      · simp [found, disjoint head found]
      · simp [found, List.filter_cons, ih]

/-- Removing the first element of the sublist removes the first such element of the list. -/
theorem filter_eraseP_of_filter_eq {first : α} {rest list : List α}
    (split : list.filter matching = first :: rest) :
    (list.eraseP matching).filter matching = rest := by
  induction list with
  | nil => cases split
  | cons head others ih =>
      by_cases found : matching head = true
      · simp only [List.filter_cons, found, if_true, List.cons.injEq] at split
        simp [found, split.2]
      · simp only [List.filter_cons, found, Bool.false_eq_true, if_false] at split
        simp [found, ih split]

/-- Two properties with the same first match remove the same element. -/
theorem eraseP_congr_of_filter {other : α → Bool} {first : α} {rest list : List α}
    (implies : ∀ element, other element → matching element)
    (split : list.filter matching = first :: rest) (found : other first) :
    list.eraseP other = list.eraseP matching := by
  induction list with
  | nil => cases split
  | cons head others ih =>
      by_cases headFound : matching head = true
      · simp only [List.filter_cons, headFound, if_true, List.cons.injEq] at split
        obtain ⟨rfl, _⟩ := split
        simp [headFound, found]
      · have otherNot : ¬ other head = true := fun holds => headFound (implies head holds)
        simp only [List.filter_cons, headFound, Bool.false_eq_true, if_false] at split
        simp [headFound, otherNot, ih split]

/-- The first occurrences are in the order of the list. -/
theorem eraseDups_sublist [BEq α] [LawfulBEq α] (list : List α) : list.eraseDups.Sublist list := by
  induction size : list.length using Nat.strongRecOn generalizing list with
  | ind size ih =>
      cases list with
      | nil => exact List.Sublist.slnil
      | cons head rest =>
          have shorter := List.length_filter_le (fun other => !other == head) rest
          rw [List.length_cons] at size
          rw [List.eraseDups_cons]
          exact List.Sublist.cons_cons head ((ih _ (by omega) _ rfl).trans List.filter_sublist)

/-- The list of the first occurrences has no element twice. -/
theorem nodup_eraseDups [BEq α] [LawfulBEq α] (list : List α) : list.eraseDups.Nodup := by
  induction size : list.length using Nat.strongRecOn generalizing list with
  | ind size ih =>
      cases list with
      | nil => exact List.nodup_nil
      | cons head rest =>
          have shorter := List.length_filter_le (fun other => !other == head) rest
          rw [List.length_cons] at size
          rw [List.eraseDups_cons]
          refine List.nodup_cons.mpr ⟨fun again => ?_, ih _ (by omega) _ rfl⟩
          simp at again

end SlangNetlist.Library
