import Mathlib.Data.List.Basic

/-!
# Partial maps and folds over lists

`List.mapM` in `Option`: it succeeds if every element has an image, and the
result holds these images in order.  `List.foldlM` in `Option`: a property that
the steps of a fold keep, and two folds over one list whose steps keep a
relation.
-/

namespace SlangNetlist.Library

variable {α β : Type} {f : α → Option β}

theorem mapM_cons_eq_some {head : α} {rest : List α} {images : List β} :
    (head :: rest).mapM f = some images ↔
      ∃ image others, f head = some image ∧ rest.mapM f = some others ∧
        images = image :: others := by
  simp only [List.mapM_cons, Option.bind_eq_bind, Option.pure_def, Option.bind_eq_some_iff,
    Option.some.injEq]
  constructor
  · rintro ⟨image, imageEq, others, othersEq, rfl⟩
    exact ⟨image, others, imageEq, othersEq, rfl⟩
  · rintro ⟨image, others, imageEq, othersEq, rfl⟩
    exact ⟨image, imageEq, others, othersEq, rfl⟩

/-- A partial map succeeds exactly if every element has an image. -/
theorem exists_mapM_iff {list : List α} :
    (∃ images, list.mapM f = some images) ↔ ∀ element ∈ list, ∃ image, f element = some image := by
  induction list with
  | nil => simp
  | cons head rest ih =>
      rw [List.forall_mem_cons, ← ih]
      simp only [mapM_cons_eq_some]
      constructor
      · rintro ⟨_, image, others, imageEq, othersEq, _⟩
        exact ⟨⟨image, imageEq⟩, others, othersEq⟩
      · rintro ⟨⟨image, imageEq⟩, others, othersEq⟩
        exact ⟨_, image, others, imageEq, othersEq, rfl⟩

/-- The elements of the result are the images. -/
theorem mem_of_mapM {list : List α} {images : List β} (mapped : list.mapM f = some images)
    {image : β} : image ∈ images ↔ ∃ element ∈ list, f element = some image := by
  induction list generalizing images with
  | nil =>
      cases mapped
      simp
  | cons head rest ih =>
      obtain ⟨first, others, firstEq, othersEq, rfl⟩ := mapM_cons_eq_some.mp mapped
      simp only [List.mem_cons, exists_eq_or_imp, ih othersEq, firstEq, Option.some.injEq,
        @eq_comm _ image]

section Fold

variable {State Other : Type} {step : State → α → Option State}
  {otherStep : Other → α → Option Other} {state final : State} {list : List α}

theorem foldlM_cons_eq_some {head : α} {rest : List α} :
    (head :: rest).foldlM step state = some final ↔
      ∃ middle, step state head = some middle ∧ rest.foldlM step middle = some final := by
  rw [List.foldlM_cons, Option.bind_eq_bind, Option.bind_eq_some_iff]

theorem foldlM_append_cons_eq_some {front back : List α} {element : α} :
    (front ++ element :: back).foldlM step state = some final ↔
      ∃ middle next, front.foldlM step state = some middle ∧ step middle element = some next ∧
        back.foldlM step next = some final := by
  simp only [List.foldlM_append, List.foldlM_cons, Option.bind_eq_bind, Option.bind_eq_some_iff]
  exact ⟨fun ⟨middle, reached, next, stepped, folded⟩ => ⟨middle, next, reached, stepped, folded⟩,
    fun ⟨middle, next, reached, stepped, folded⟩ => ⟨middle, reached, next, stepped, folded⟩⟩

/-- A property that each step of a fold keeps holds at its end. -/
theorem holds_of_foldlM (Holds : State → Prop) (started : Holds state)
    (kept : ∀ element ∈ list, ∀ {here next : State}, Holds here →
      step here element = some next → Holds next)
    (folded : list.foldlM step state = some final) : Holds final := by
  induction list generalizing state with
  | nil =>
      cases folded
      exact started
  | cons head rest ih =>
      obtain ⟨middle, stepped, folded⟩ := foldlM_cons_eq_some.mp folded
      exact ih (kept head List.mem_cons_self started stepped)
        (fun element member => kept element (List.mem_cons_of_mem _ member)) folded

/-- When each step of a fold is matched by one of another fold, the whole fold is. -/
theorem exists_foldlM {Related : State → Other → Prop}
    (matched : ∀ element ∈ list, ∀ state other next, Related state other →
      step state element = some next →
        ∃ otherNext, otherStep other element = some otherNext ∧ Related next otherNext)
    {other : Other} (related : Related state other)
    (folded : list.foldlM step state = some final) :
    ∃ otherFinal, list.foldlM otherStep other = some otherFinal ∧ Related final otherFinal := by
  induction list generalizing state other with
  | nil =>
      cases folded
      exact ⟨other, rfl, related⟩
  | cons head rest ih =>
      obtain ⟨middle, stepped, folded⟩ := foldlM_cons_eq_some.mp folded
      obtain ⟨otherMiddle, otherStepped, relatedHere⟩ :=
        matched head List.mem_cons_self state other middle related stepped
      obtain ⟨otherFinal, otherFolded, relatedLast⟩ :=
        ih (fun element member => matched element (List.mem_cons_of_mem _ member)) relatedHere folded
      exact ⟨otherFinal, foldlM_cons_eq_some.mpr ⟨otherMiddle, otherStepped, otherFolded⟩,
        relatedLast⟩

end Fold

end SlangNetlist.Library
