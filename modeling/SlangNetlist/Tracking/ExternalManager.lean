import Mathlib.Data.List.Nodup

/-!
# The external object manager

`ExternalManager<T>` keeps objects outside an interval map, whose values must
be trivially copyable.  A handle is an index into a vector of slots; freed
slots wait in a first-in first-out free list and are reused before the vector
grows.  The assertions of `get` and `erase` are modelled by `none`.
-/

namespace SlangNetlist

structure ExternalManager (T : Type) where
  slots : List (Option T) := []
  freeList : List Nat := []
  deriving DecidableEq, Repr

namespace ExternalManager

variable {T : Type}

/-- Access through a handle; `none` is the failed assertion. -/
def get (manager : ExternalManager T) (handle : Nat) : Option T :=
  manager.slots[handle]?.join

/-- Create an object in the front slot of the free list, or in a new slot. -/
def allocate (manager : ExternalManager T) (value : T) : Nat × ExternalManager T :=
  match manager.freeList with
  | index :: rest =>
      (index, { slots := manager.slots.set index (some value), freeList := rest })
  | [] =>
      (manager.slots.length, { manager with slots := manager.slots ++ [some value] })

/-- Assign to the object behind the reference that `get` returned. -/
def assign (manager : ExternalManager T) (handle : Nat) (value : T) : ExternalManager T :=
  { manager with slots := manager.slots.set handle (some value) }

/-- Whether the handle is live. -/
def valid (manager : ExternalManager T) (handle : Nat) : Bool :=
  (manager.get handle).isSome

/-- Free the object of a live handle; `none` is the failed assertion. -/
def erase (manager : ExternalManager T) (handle : Nat) : Option (ExternalManager T) :=
  if manager.valid handle then
    some { slots := manager.slots.set handle none, freeList := manager.freeList ++ [handle] }
  else
    none

/-- The free list holds exactly the empty slots, each of them once. -/
structure WellFormed (manager : ExternalManager T) : Prop where
  nodup : manager.freeList.Nodup
  mem_freeList : ∀ handle, handle ∈ manager.freeList ↔
    handle < manager.slots.length ∧ manager.get handle = none

theorem get_eq_none_of_length_le {manager : ExternalManager T} {handle : Nat}
    (outside : manager.slots.length ≤ handle) : manager.get handle = none := by
  simp [get, List.getElem?_eq_none outside]

theorem lt_length_of_get {manager : ExternalManager T} {handle : Nat} {value : T}
    (found : manager.get handle = some value) : handle < manager.slots.length := by
  by_contra outside
  rw [get_eq_none_of_length_le (Nat.le_of_not_lt outside)] at found
  cases found

theorem valid_iff {manager : ExternalManager T} {handle : Nat} :
    manager.valid handle = true ↔ ∃ value, manager.get handle = some value := by
  simp [valid, Option.isSome_iff_exists]

theorem wellFormed_empty : ({} : ExternalManager T).WellFormed :=
  ⟨List.nodup_nil, by simp⟩

section Allocate

variable {manager : ExternalManager T}

/-- Allocation hands out a handle that is not live. -/
theorem WellFormed.allocate_fresh (wellFormed : manager.WellFormed) (value : T) :
    manager.get (manager.allocate value).1 = none := by
  unfold allocate
  split
  · next index rest freeList =>
      exact ((wellFormed.mem_freeList index).mp (by simp [freeList])).2
  · exact get_eq_none_of_length_le (Nat.le_refl _)

/-- Allocation changes the allocated slot only. -/
theorem WellFormed.get_allocate (wellFormed : manager.WellFormed) (value : T)
    (handle : Nat) :
    (manager.allocate value).2.get handle =
      if handle = (manager.allocate value).1 then some value else manager.get handle := by
  unfold allocate
  split
  · next index rest freeList =>
      have inside := ((wellFormed.mem_freeList index).mp (by simp [freeList])).1
      simp only [get, List.getElem?_set]
      grind
  · simp only [get, List.getElem?_append]
    grind

theorem WellFormed.allocate (wellFormed : manager.WellFormed) (value : T) :
    (manager.allocate value).2.WellFormed := by
  have changed := wellFormed.get_allocate value
  unfold ExternalManager.allocate at *
  split at changed
  · next index rest freeList =>
      have nodup := wellFormed.nodup
      rw [freeList] at nodup
      obtain ⟨indexNotMem, restNodup⟩ := List.nodup_cons.mp nodup
      refine ⟨restNodup, fun handle => ?_⟩
      have member := wellFormed.mem_freeList handle
      rw [freeList, List.mem_cons] at member
      rw [changed handle]
      simp only [List.length_set]
      by_cases same : handle = index
      · subst same
        simpa using indexNotMem
      · simpa [same] using member
  · next freeList =>
      refine ⟨wellFormed.nodup, fun handle => ?_⟩
      rw [changed handle, wellFormed.mem_freeList handle]
      simp only [List.length_append, List.length_singleton]
      by_cases same : handle = manager.slots.length
      · simp [same]
      · simp only [same, if_false]
        have bound : handle < manager.slots.length + 1 ↔ handle < manager.slots.length := by
          omega
        rw [bound]

end Allocate

section Assign

variable {manager : ExternalManager T} {handle : Nat} {old : T}

/-- An assignment changes the assigned slot only. -/
theorem get_assign (live : manager.get handle = some old) (value : T) (other : Nat) :
    (manager.assign handle value).get other =
      if other = handle then some value else manager.get other := by
  have inside := lt_length_of_get live
  simp only [assign, get, List.getElem?_set]
  grind

theorem WellFormed.assign (wellFormed : manager.WellFormed)
    (live : manager.get handle = some old) (value : T) :
    (manager.assign handle value).WellFormed := by
  refine ⟨wellFormed.nodup, fun other => ?_⟩
  rw [get_assign live]
  change other ∈ manager.freeList ↔ _
  rw [wellFormed.mem_freeList other]
  simp only [ExternalManager.assign, List.length_set]
  by_cases same : other = handle
  · simp [same, live]
  · simp [same]

end Assign

section Erase

variable {manager erased : ExternalManager T} {handle : Nat}

theorem erase_eq_some (live : manager.valid handle = true) :
    ∃ erased, manager.erase handle = some erased := by
  simp [erase, live]

/-- Freeing a handle empties its slot only. -/
theorem get_erase (freed : manager.erase handle = some erased) (other : Nat) :
    erased.get other = if other = handle then none else manager.get other := by
  unfold erase at freed
  split at freed
  · next live =>
      cases freed
      obtain ⟨value, found⟩ := valid_iff.mp live
      have inside := lt_length_of_get found
      simp only [get, List.getElem?_set]
      grind
  · cases freed

theorem WellFormed.erase (wellFormed : manager.WellFormed)
    (freed : manager.erase handle = some erased) : erased.WellFormed := by
  have changed := get_erase freed
  unfold ExternalManager.erase at freed
  split at freed
  · next live =>
      cases freed
      obtain ⟨value, found⟩ := valid_iff.mp live
      have inside := lt_length_of_get found
      have notFree : handle ∉ manager.freeList := by
        simp [wellFormed.mem_freeList, found]
      refine ⟨?_, fun other => ?_⟩
      · refine List.nodup_append.mpr ⟨wellFormed.nodup, List.nodup_singleton _, ?_⟩
        intro left leftMem right rightMem same
        rw [List.mem_singleton] at rightMem
        exact notFree (rightMem ▸ same ▸ leftMem)
      · rw [changed other]
        simp only [List.mem_append, List.mem_singleton, List.length_set,
          wellFormed.mem_freeList other]
        by_cases same : other = handle
        · simp [same, inside]
        · simp [same]
  · cases freed

end Erase

end ExternalManager

end SlangNetlist
