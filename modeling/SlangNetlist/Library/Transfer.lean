import Mathlib.Data.Set.Lattice

/-!
# Transfer functions

A step of a forward analysis makes facts at some keys and keeps the facts at
others.  Such steps compose, and composition distributes over joins: joining the
facts where the arms of a program meet gives the facts of all of its paths.
-/

namespace SlangNetlist.Library

/-- What a step does to the facts at each key. -/
@[ext] structure Transfer (Key Fact : Type) where
  /-- The facts that the step makes at a key. -/
  made : Key → Set Fact
  /-- The keys at which the facts before the step are kept. -/
  kept : Set Key

namespace Transfer

variable {Key Fact : Type} {key : Key} {fact : Fact}

/-- The facts after a step. -/
def apply (transfer : Transfer Key Fact) (facts : Key → Set Fact) : Key → Set Fact :=
  fun key => transfer.made key ∪ {fact | key ∈ transfer.kept ∧ fact ∈ facts key}

theorem mem_apply {transfer : Transfer Key Fact} {facts : Key → Set Fact} :
    fact ∈ transfer.apply facts key ↔
      fact ∈ transfer.made key ∨ key ∈ transfer.kept ∧ fact ∈ facts key :=
  Iff.rfl

/-- The step that makes nothing and keeps everything. -/
def idle : Transfer Key Fact := ⟨fun _ => ∅, Set.univ⟩

@[simp] theorem apply_idle (facts : Key → Set Fact) :
    (idle : Transfer Key Fact).apply facts = facts := by
  funext key
  simp [apply, idle]

/-- One step after another. -/
def comp (first second : Transfer Key Fact) : Transfer Key Fact where
  made key := second.made key ∪ {fact | key ∈ second.kept ∧ fact ∈ first.made key}
  kept := first.kept ∩ second.kept

theorem apply_comp (first second : Transfer Key Fact) (facts : Key → Set Fact) :
    (first.comp second).apply facts = second.apply (first.apply facts) := by
  funext key
  ext fact
  simp only [mem_apply, comp, Set.mem_union, Set.mem_ofPred_eq, Set.mem_inter_iff]
  constructor
  · rintro ((new | ⟨kept, old⟩) | ⟨⟨first, second⟩, old⟩)
    · exact Or.inl new
    · exact Or.inr ⟨kept, Or.inl old⟩
    · exact Or.inr ⟨second, Or.inr ⟨first, old⟩⟩
  · rintro (new | ⟨kept, old | ⟨first, old⟩⟩)
    · exact Or.inl (Or.inl new)
    · exact Or.inl (Or.inr ⟨kept, old⟩)
    · exact Or.inr ⟨⟨first, kept⟩, old⟩

/-! ## Paths -/

/-- The steps of a path. -/
def path : List (Transfer Key Fact) → Transfer Key Fact
  | [] => idle
  | step :: rest => step.comp (path rest)

variable {steps front back : List (Transfer Key Fact)}

/-- A path keeps what all of its steps keep. -/
theorem mem_kept_path : key ∈ (path steps).kept ↔ ∀ step ∈ steps, key ∈ step.kept := by
  induction steps with
  | nil => simp [path, idle]
  | cons step rest ih => simp [path, comp, ih]

/-- A path makes what one of its steps makes and all later ones keep. -/
theorem mem_made_path : fact ∈ (path steps).made key ↔
    ∃ front step back, steps = front ++ step :: back ∧ fact ∈ step.made key ∧
      ∀ later ∈ back, key ∈ later.kept := by
  induction steps with
  | nil => simp [path, idle]
  | cons head rest ih =>
      simp only [path, comp, Set.mem_union, Set.mem_ofPred_eq, ih, mem_kept_path]
      constructor
      · rintro (⟨front, step, back, rfl, made, kept⟩ | ⟨kept, made⟩)
        · exact ⟨head :: front, step, back, rfl, made, kept⟩
        · exact ⟨[], head, rest, rfl, made, kept⟩
      · rintro ⟨front, step, back, split, made, kept⟩
        cases front with
        | nil =>
            cases split
            exact Or.inr ⟨kept, made⟩
        | cons first others =>
            cases split
            exact Or.inl ⟨others, step, back, rfl, made, kept⟩

theorem mem_kept_append :
    key ∈ (path (front ++ back)).kept ↔ key ∈ (path front).kept ∧ key ∈ (path back).kept := by
  simp [mem_kept_path, or_imp, forall_and]

theorem mem_made_append : fact ∈ (path (front ++ back)).made key ↔
    fact ∈ (path back).made key ∨ key ∈ (path back).kept ∧ fact ∈ (path front).made key := by
  induction front with
  | nil => simp [path, idle]
  | cons step rest ih =>
      simp only [List.cons_append, path, comp, Set.mem_union, Set.mem_ofPred_eq, ih,
        mem_kept_append]
      constructor
      · rintro ((inBack | ⟨kept, inRest⟩) | ⟨⟨keptRest, kept⟩, made⟩)
        · exact Or.inl inBack
        · exact Or.inr ⟨kept, Or.inl inRest⟩
        · exact Or.inr ⟨kept, Or.inr ⟨keptRest, made⟩⟩
      · rintro (inBack | ⟨kept, inRest | ⟨keptRest, made⟩⟩)
        · exact Or.inl (Or.inl inBack)
        · exact Or.inl (Or.inr ⟨kept, inRest⟩)
        · exact Or.inr ⟨⟨keptRest, kept⟩, made⟩

/-! ## Joins -/

/-- The join over some paths: what one of them makes, and what one of them keeps. -/
def join (paths : List (List (Transfer Key Fact))) : Transfer Key Fact where
  made key := {fact | ∃ steps ∈ paths, fact ∈ (path steps).made key}
  kept := {key | ∃ steps ∈ paths, key ∈ (path steps).kept}

theorem mem_made_join {paths : List (List (Transfer Key Fact))} :
    fact ∈ (join paths).made key ↔ ∃ steps ∈ paths, fact ∈ (path steps).made key :=
  Iff.rfl

theorem mem_kept_join {paths : List (List (Transfer Key Fact))} :
    key ∈ (join paths).kept ↔ ∃ steps ∈ paths, key ∈ (path steps).kept :=
  Iff.rfl

@[simp] theorem join_idle : join [([] : List (Transfer Key Fact))] = idle := by
  ext key fact <;> simp [join, path, idle]

@[simp] theorem join_single (step : Transfer Key Fact) : join [[step]] = step := by
  ext key fact <;> simp [join, path, idle, comp]

/-- The facts behind a join of arms. -/
theorem apply_join_append (first second : List (List (Transfer Key Fact)))
    (facts : Key → Set Fact) :
    (join (first ++ second)).apply facts =
      fun key => (join first).apply facts key ∪ (join second).apply facts key := by
  funext key
  ext fact
  simp only [Set.mem_union, mem_apply, mem_made_join, mem_kept_join, List.mem_append, or_and_right,
    exists_or]
  exact or_or_or_comm

/-- Composition distributes over joins: the paths through two parts are those of the parts. -/
theorem join_comp {first : List (List (Transfer Key Fact))} (entered : first ≠ [])
    (second : List (List (Transfer Key Fact))) :
    join (first.flatMap fun front => second.map fun back => front ++ back) =
      (join first).comp (join second) := by
  obtain ⟨entry, entryMem⟩ := List.exists_mem_of_ne_nil first entered
  have through {Holds : List (Transfer Key Fact) → Prop} :
      (∃ steps ∈ first.flatMap fun front => second.map fun back => front ++ back, Holds steps) ↔
        ∃ front ∈ first, ∃ back ∈ second, Holds (front ++ back) := by
    simp only [List.mem_flatMap, List.mem_map]
    constructor
    · rintro ⟨_, ⟨front, frontMem, back, backMem, rfl⟩, holds⟩
      exact ⟨front, frontMem, back, backMem, holds⟩
    · rintro ⟨front, frontMem, back, backMem, holds⟩
      exact ⟨_, ⟨front, frontMem, back, backMem, rfl⟩, holds⟩
  ext key fact
  · simp only [mem_made_join, through, mem_made_append, comp, Set.mem_union, Set.mem_ofPred_eq,
      mem_kept_join]
    constructor
    · rintro ⟨front, frontMem, back, backMem, made | ⟨kept, made⟩⟩
      · exact Or.inl ⟨back, backMem, made⟩
      · exact Or.inr ⟨⟨back, backMem, kept⟩, front, frontMem, made⟩
    · rintro (⟨back, backMem, made⟩ | ⟨⟨back, backMem, kept⟩, front, frontMem, made⟩)
      · exact ⟨entry, entryMem, back, backMem, Or.inl made⟩
      · exact ⟨front, frontMem, back, backMem, Or.inr ⟨kept, made⟩⟩
  · simp only [mem_kept_join, through, mem_kept_append, comp, Set.mem_inter_iff]
    constructor
    · rintro ⟨front, frontMem, back, backMem, keptFront, keptBack⟩
      exact ⟨⟨front, frontMem, keptFront⟩, back, backMem, keptBack⟩
    · rintro ⟨⟨front, frontMem, keptFront⟩, back, backMem, keptBack⟩
      exact ⟨front, frontMem, back, backMem, keptFront, keptBack⟩

end Transfer

end SlangNetlist.Library
