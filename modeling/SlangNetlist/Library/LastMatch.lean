import Mathlib.Data.List.Nodup

/-!
# The last match

The last element of a list that has a property: it is unique, and in a sublist
without repetitions it is still the last one if it is there at all.
-/

namespace SlangNetlist.Library

variable {α β : Type}

/-- The element has the property, and no later one does. -/
def LastMatch (matching : α → Prop) (list : List α) (element : α) : Prop :=
  ∃ front back, list = front ++ element :: back ∧ matching element ∧
    ∀ later ∈ back, ¬ matching later

variable {matching : α → Prop} {list front back : List α} {element head : α}

theorem LastMatch.mem (last : LastMatch matching list element) : element ∈ list := by
  obtain ⟨front, back, rfl, _⟩ := last
  exact List.mem_append_right _ List.mem_cons_self

theorem LastMatch.holds (last : LastMatch matching list element) : matching element := by
  obtain ⟨_, _, _, holds, _⟩ := last
  exact holds

theorem not_lastMatch_nil : ¬ LastMatch matching [] element := by
  rintro last
  exact absurd last.mem List.not_mem_nil

theorem lastMatch_cons : LastMatch matching (head :: list) element ↔
    LastMatch matching list element ∨
      element = head ∧ matching head ∧ ∀ later ∈ list, ¬ matching later := by
  constructor
  · rintro ⟨front, back, split, holds, none⟩
    cases front with
    | nil =>
        cases split
        exact Or.inr ⟨rfl, holds, none⟩
    | cons first others =>
        cases split
        exact Or.inl ⟨others, back, rfl, holds, none⟩
  · rintro (⟨front, back, rfl, holds, none⟩ | ⟨rfl, holds, none⟩)
    · exact ⟨head :: front, back, rfl, holds, none⟩
    · exact ⟨[], list, rfl, holds, none⟩

theorem lastMatch_append : LastMatch matching (front ++ back) element ↔
    LastMatch matching back element ∨
      LastMatch matching front element ∧ ∀ later ∈ back, ¬ matching later := by
  induction front with
  | nil => simp [not_lastMatch_nil]
  | cons first others ih =>
      rw [List.cons_append, lastMatch_cons, lastMatch_cons, ih]
      simp only [List.forall_mem_append]
      constructor
      · rintro ((inBack | ⟨inOthers, none⟩) | ⟨rfl, holds, noneOthers, none⟩)
        · exact Or.inl inBack
        · exact Or.inr ⟨Or.inl inOthers, none⟩
        · exact Or.inr ⟨Or.inr ⟨rfl, holds, noneOthers⟩, none⟩
      · rintro (inBack | ⟨inOthers | ⟨rfl, holds, noneOthers⟩, none⟩)
        · exact Or.inl (Or.inl inBack)
        · exact Or.inl (Or.inr ⟨inOthers, none⟩)
        · exact Or.inr ⟨rfl, holds, noneOthers, none⟩

theorem lastMatch_map {function : β → α} {elements : List β} :
    LastMatch matching (elements.map function) element ↔
      ∃ own, function own = element ∧
        LastMatch (fun other => matching (function other)) elements own := by
  induction elements with
  | nil => simp [not_lastMatch_nil]
  | cons first others ih =>
      rw [List.map_cons, lastMatch_cons, ih]
      simp only [lastMatch_cons, and_or_left, exists_or, List.forall_mem_map]
      refine or_congr_right ⟨?_, ?_⟩
      · rintro ⟨rfl, holds, none⟩
        exact ⟨first, rfl, rfl, holds, none⟩
      · rintro ⟨_, rfl, rfl, holds, none⟩
        exact ⟨rfl, holds, none⟩

/-- A list with a match has a last one. -/
theorem exists_lastMatch (some : ∃ element ∈ list, matching element) :
    ∃ element, LastMatch matching list element := by
  induction list with
  | nil => simp at some
  | cons first others ih =>
      by_cases later : ∃ element ∈ others, matching element
      · obtain ⟨element, last⟩ := ih later
        exact ⟨element, lastMatch_cons.mpr (Or.inl last)⟩
      · obtain ⟨element, member, holds⟩ := some
        rcases List.mem_cons.mp member with rfl | member
        · exact ⟨element, lastMatch_cons.mpr (Or.inr ⟨rfl, holds, fun other otherMem match_ =>
            later ⟨other, otherMem, match_⟩⟩)⟩
        · exact absurd ⟨element, member, holds⟩ later

theorem LastMatch.unique {other : α} (last : LastMatch matching list element)
    (otherLast : LastMatch matching list other) : element = other := by
  induction list with
  | nil => exact absurd last not_lastMatch_nil
  | cons first others ih =>
      rcases lastMatch_cons.mp last with later | ⟨rfl, _, none⟩
      · rcases lastMatch_cons.mp otherLast with otherLater | ⟨_, _, none⟩
        · exact ih later otherLater
        · exact absurd later.holds (none element later.mem)
      · rcases lastMatch_cons.mp otherLast with otherLater | ⟨rfl, _, _⟩
        · exact absurd otherLater.holds (none other otherLater.mem)
        · rfl

/-- The last match of a list is the last match of every sublist that has it. -/
theorem LastMatch.of_sublist {part : List α} (sublist : part.Sublist list) (nodup : list.Nodup)
    (last : LastMatch matching list element) (member : element ∈ part) :
    LastMatch matching part element := by
  induction sublist with
  | slnil => exact absurd member List.not_mem_nil
  | cons first sublist ih =>
      obtain ⟨fresh, nodup⟩ := List.nodup_cons.mp nodup
      rcases lastMatch_cons.mp last with later | ⟨rfl, _, _⟩
      · exact ih nodup later member
      · exact absurd (sublist.subset member) fresh
  | cons_cons first sublist ih =>
      obtain ⟨fresh, nodup⟩ := List.nodup_cons.mp nodup
      rw [lastMatch_cons]
      rcases lastMatch_cons.mp last with later | ⟨rfl, holds, none⟩
      · refine Or.inl (ih nodup later ((List.mem_cons.mp member).resolve_left ?_))
        rintro rfl
        exact fresh later.mem
      · exact Or.inr ⟨rfl, holds, fun other otherMem => none other (sublist.subset otherMem)⟩

end SlangNetlist.Library
