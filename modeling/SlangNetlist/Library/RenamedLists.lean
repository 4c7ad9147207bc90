import Mathlib.Data.Set.Function
import SlangNetlist.Library.Worklist

/-!
# Renamed lists

Operations on lists that compare their elements commute with a function that
tells the elements apart.
-/

namespace SlangNetlist.Library

variable {α β : Type} {f : α → β} {places : Set α}

/-- The image of a place is in the image of a list of places exactly if the place is in the list. -/
theorem mem_map_of_injOn (injective : Set.InjOn f places) {list : List α} {item : α}
    (inside : ∀ other ∈ list, other ∈ places) (member : item ∈ places) :
    f item ∈ list.map f ↔ item ∈ list := by
  constructor
  · intro image
    obtain ⟨other, otherMem, same⟩ := List.mem_map.mp image
    exact injective (inside other otherMem) member same ▸ otherMem
  · exact List.mem_map_of_mem

theorem findIdx_congr {list : List α} {first second : α → Bool}
    (same : ∀ item ∈ list, first item = second item) : list.findIdx first = list.findIdx second := by
  induction list with
  | nil => rfl
  | cons head rest ih =>
      obtain ⟨atHead, later⟩ := List.forall_mem_cons.mp same
      rw [List.findIdx_cons, List.findIdx_cons, atHead, ih later]

section Equality

variable [BEq α] [LawfulBEq α] [BEq β] [LawfulBEq β]

theorem insert_map (injective : Set.InjOn f places) {list : List α} {item : α}
    (inside : ∀ other ∈ list, other ∈ places) (member : item ∈ places) :
    (list.map f).insert (f item) = (list.insert item).map f := by
  have same := mem_map_of_injOn injective inside member
  by_cases old : item ∈ list
  · rw [List.insert_of_mem old, List.insert_of_mem (same.mpr old)]
  · rw [List.insert_of_not_mem old, List.insert_of_not_mem (mt same.mp old), List.map_cons]

theorem union_map (injective : Set.InjOn f places) {first second : List α}
    (firstIn : ∀ other ∈ first, other ∈ places) (secondIn : ∀ other ∈ second, other ∈ places) :
    first.map f ∪ second.map f = (first ∪ second).map f := by
  induction first with
  | nil => rfl
  | cons head rest ih =>
      obtain ⟨headIn, restIn⟩ := List.forall_mem_cons.mp firstIn
      have unionIn : ∀ other ∈ rest ∪ second, other ∈ places := fun other otherMem =>
        (List.mem_union_iff.mp otherMem).elim (restIn other) (secondIn other)
      rw [List.map_cons, List.cons_union, List.cons_union, ih restIn,
        insert_map injective unionIn headIn]

/-- Only the values at places matter where a list of places is filtered. -/
theorem filter_ne_map (injective : Set.InjOn f places) {list : List α} {item : α}
    (inside : ∀ other ∈ list, other ∈ places) (member : item ∈ places) :
    (list.map f).filter (fun other => !other == f item) =
      (list.filter fun other => !other == item).map f := by
  rw [List.filter_map]
  congr 1
  refine List.filter_congr fun other otherMem => ?_
  have same : f other = f item ↔ other = item :=
    ⟨injective (inside other otherMem) member, congrArg f⟩
  by_cases equal : other = item <;> simp [same, equal]

theorem eraseDups_map (injective : Set.InjOn f places) {list : List α}
    (inside : ∀ other ∈ list, other ∈ places) :
    (list.map f).eraseDups = list.eraseDups.map f := by
  induction length : list.length using Nat.strongRecOn generalizing list with
  | ind size ih =>
      cases list with
      | nil => rfl
      | cons head rest =>
          obtain ⟨headIn, restIn⟩ := List.forall_mem_cons.mp inside
          have shorter : (rest.filter fun other => !other == head).length < size := by
            rw [← length, List.length_cons]
            exact Nat.lt_succ_of_le (List.length_filter_le _ _)
          rw [List.map_cons, List.eraseDups_cons, List.eraseDups_cons, List.map_cons,
            filter_ne_map injective restIn headIn,
            ih _ shorter (fun other otherMem => restIn other (List.mem_of_mem_filter otherMem)) rfl]

end Equality

variable [DecidableEq α] [DecidableEq β]

theorem unseen_map (injective : Set.InjOn f places) {seen candidates : List α}
    (seenIn : ∀ other ∈ seen, other ∈ places) (inside : ∀ other ∈ candidates, other ∈ places) :
    unseen (seen.map f) (candidates.map f) = (unseen seen candidates).map f := by
  induction candidates generalizing seen with
  | nil => rfl
  | cons head rest ih =>
      obtain ⟨headIn, restIn⟩ := List.forall_mem_cons.mp inside
      have same := mem_map_of_injOn injective seenIn headIn
      rw [List.map_cons, unseen, unseen]
      by_cases old : head ∈ seen
      · rw [if_pos old, if_pos (same.mpr old), ih seenIn restIn]
      · rw [if_neg old, if_neg (mt same.mp old), List.map_cons, ← List.map_cons,
          ih (List.forall_mem_cons.mpr ⟨headIn, seenIn⟩) restIn]

/-- The worklist over renamed successors returns the renamed nodes. -/
theorem levels_map (injective : Set.InjOn f places) {successors : α → List α}
    {renamed : β → List β} {bound fuel : Nat} {queue : List (α × Nat)} {seen : List α}
    (follows : ∀ node ∈ places, renamed (f node) = (successors node).map f)
    (closed : ∀ node ∈ places, ∀ next ∈ successors node, next ∈ places)
    (queueIn : ∀ entry ∈ queue, entry.1 ∈ places) (seenIn : ∀ other ∈ seen, other ∈ places) :
    levels renamed bound fuel (queue.map fun entry => (f entry.1, entry.2)) (seen.map f) =
      (levels successors bound fuel queue seen).map (List.map f) := by
  induction fuel generalizing queue seen with
  | zero => cases queue <;> rfl
  | succ fuel ih =>
      cases queue with
      | nil => rfl
      | cons head queue =>
          obtain ⟨node, depth⟩ := head
          obtain ⟨nodeIn, queueIn⟩ := List.forall_mem_cons.mp queueIn
          have freshIn : ∀ other ∈ unseen seen (successors node), other ∈ places :=
            fun other otherMem => closed node nodeIn other (mem_unseen.mp otherMem).1
          simp only [List.map_cons, levels]
          split
          · exact ih queueIn seenIn
          · rw [follows node nodeIn, unseen_map injective seenIn (closed node nodeIn),
              ← List.map_append, List.map_map]
            have queued : queue.map (fun entry => (f entry.1, entry.2)) ++
                (unseen seen (successors node)).map ((fun next => (next, depth + 1)) ∘ f) =
                (queue ++ (unseen seen (successors node)).map fun next => (next, depth + 1)).map
                  fun entry => (f entry.1, entry.2) := by
              rw [List.map_append, List.map_map]
              rfl
            rw [queued]
            refine ih ?_ ?_
            · intro entry member
              rcases List.mem_append.mp member with old | new
              · exact queueIn entry old
              · obtain ⟨next, nextMem, rfl⟩ := List.mem_map.mp new
                exact freshIn next nextMem
            · exact fun other otherMem =>
                (List.mem_append.mp otherMem).elim (seenIn other) (freshIn other)

/-! ## Images in any order -/

omit [DecidableEq α] [DecidableEq β] in
/-- Distinct items that are the images of distinct places are these images in some order. -/
theorem perm_map_of_mem (injective : Set.InjOn f places) {list : List α} {images : List β}
    (inside : ∀ item ∈ list, item ∈ places) (nodup : list.Nodup) (imagesNodup : images.Nodup)
    (members : ∀ image, image ∈ images ↔ ∃ item ∈ list, f item = image) :
    images.Perm (list.map f) := by
  have mapNodup := nodup.map_on fun first firstMem second secondMem =>
    @injective first (inside first firstMem) second (inside second secondMem)
  refine (List.perm_ext_iff_of_nodup imagesNodup mapNodup).mpr fun image => ?_
  rw [members, List.mem_map]

omit [DecidableEq α] in
/-- Steps from places lead to places. -/
theorem mem_of_reflTransGen {step : α → α → Prop}
    (closed : ∀ node ∈ places, ∀ next, step node next → next ∈ places) {start node : α}
    (startIn : start ∈ places) (leads : Relation.ReflTransGen step start node) : node ∈ places := by
  induction leads with
  | refl => exact startIn
  | tail _ last ih => exact closed _ ih _ last

omit [DecidableEq α] [DecidableEq β] in
/-- What the image of a place leads to is the image of what the place leads to. -/
theorem reflTransGen_image {step : α → α → Prop} {imageStep : β → β → Prop}
    (closed : ∀ node ∈ places, ∀ next, step node next → next ∈ places)
    (steps : ∀ node ∈ places, ∀ image,
      imageStep (f node) image ↔ ∃ next, step node next ∧ f next = image)
    {start : α} (startIn : start ∈ places) (image : β) :
    Relation.ReflTransGen imageStep (f start) image ↔
      ∃ node, Relation.ReflTransGen step start node ∧ f node = image := by
  constructor
  · intro leads
    induction leads with
    | refl => exact ⟨start, .refl, rfl⟩
    | tail _ last ih =>
        obtain ⟨node, before, rfl⟩ := ih
        obtain ⟨next, moved, rfl⟩ :=
          (steps node (mem_of_reflTransGen closed startIn before) _).mp last
        exact ⟨next, before.tail moved, rfl⟩
  · rintro ⟨node, leads, rfl⟩
    induction leads with
    | refl => exact .refl
    | tail before last ih =>
        exact ih.tail ((steps _ (mem_of_reflTransGen closed startIn before) _).mpr ⟨_, last, rfl⟩)

omit [DecidableEq α] in
theorem mem_of_within {successors : α → List α} {seeds : List α}
    (seedsIn : ∀ node ∈ seeds, node ∈ places)
    (closed : ∀ node ∈ places, ∀ next ∈ successors node, next ∈ places) {depth : Nat} {node : α}
    (within : Within successors seeds depth node) : node ∈ places := by
  induction depth generalizing node with
  | zero => exact seedsIn node within
  | succ depth ih =>
      rcases within with near | ⟨before, near, member⟩
      · exact ih near
      · exact closed before (ih near) node member

omit [DecidableEq α] [DecidableEq β] in
/-- What is within a number of steps of the images of seeds is the image of what is within them. -/
theorem within_image {successors : α → List α} {renamed : β → List β} {seeds : List α}
    {others : List β} (seedsIn : ∀ node ∈ seeds, node ∈ places)
    (closed : ∀ node ∈ places, ∀ next ∈ successors node, next ∈ places)
    (seeded : ∀ image, image ∈ others ↔ ∃ node ∈ seeds, f node = image)
    (steps : ∀ node ∈ places, ∀ image,
      image ∈ renamed (f node) ↔ ∃ next ∈ successors node, f next = image)
    (depth : Nat) (image : β) :
    Within renamed others depth image ↔
      ∃ node, Within successors seeds depth node ∧ f node = image := by
  induction depth generalizing image with
  | zero => exact seeded image
  | succ depth ih =>
      constructor
      · rintro (near | ⟨before, near, member⟩)
        · obtain ⟨node, within, same⟩ := (ih image).mp near
          exact ⟨node, Or.inl within, same⟩
        · obtain ⟨node, within, rfl⟩ := (ih before).mp near
          obtain ⟨next, nextMem, same⟩ :=
            (steps node (mem_of_within seedsIn closed within) image).mp member
          exact ⟨next, Or.inr ⟨node, within, nextMem⟩, same⟩
      · rintro ⟨node, within | ⟨before, within, member⟩, rfl⟩
        · exact Or.inl ((ih _).mpr ⟨node, within, rfl⟩)
        · exact Or.inr ⟨f before, (ih _).mpr ⟨before, within, rfl⟩,
            (steps before (mem_of_within seedsIn closed within) _).mpr ⟨node, member, rfl⟩⟩

end SlangNetlist.Library
