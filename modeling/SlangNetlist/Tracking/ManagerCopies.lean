import SlangNetlist.Tracking.ManagerMemory

/-!
# Copies of external managers

Every manager in memory stores what the manager of values stores after the same
operations, and no object belongs to two managers.  So an operation on one manager
leaves the content of all others alone, copies included.
-/

namespace SlangNetlist

open Library

namespace ManagerObject

variable {T : Type} {manager other : ManagerObject} {heap : Heap T} {handle : Handle}
  {position : Nat}

/-- The free list holds the handles of exactly the empty slots, each of them once. -/
structure FreeListExact (manager : ManagerObject) : Prop where
  nodup : manager.freeList.Nodup
  mem : ∀ position, manager.slots[position]? = some none ↔
    ∃ handle ∈ manager.freeList, handle.toNat = position

theorem get_content : (manager.content heap).get position =
    manager.slots[position]?.join.bind heap.read := by
  change (heap.readAll manager.slots)[position]?.join = _
  rw [Heap.getElem?_readAll]
  cases manager.slots[position]? <;> rfl

theorem get_eq : manager.get heap handle = (manager.content heap).get handle.toNat :=
  get_content.symm

theorem length_content : (manager.content heap).slots.length = manager.slots.length :=
  List.length_map _

/-- While some handle is not live, the next slot has a handle. -/
theorem allocate_lt (wellFormed : (manager.content heap).WellFormed)
    (dead : (manager.content heap).valid handle.toNat = false) (value : T) :
    ((manager.content heap).allocate value).1 < UInt32.size := by
  cases free : manager.freeList with
  | nil =>
      have contentFree : (manager.content heap).freeList = [] :=
        congrArg (List.map UInt32.toNat) free
      simp only [ExternalManager.allocate, contentFree]
      by_contra full
      have inside : handle.toNat < (manager.content heap).slots.length :=
        Nat.lt_of_lt_of_le handle.toNat_lt (Nat.le_of_not_lt full)
      rw [ExternalManager.valid, Option.isSome_eq_false_iff, Option.isNone_iff_eq_none] at dead
      have member := (wellFormed.mem_freeList handle.toNat).mpr ⟨inside, dead⟩
      rw [contentFree] at member
      cases member
  | cons index rest =>
      have contentFree : (manager.content heap).freeList = index.toNat :: rest.map UInt32.toNat :=
        congrArg (List.map UInt32.toNat) free
      simp only [ExternalManager.allocate, contentFree]
      exact index.toNat_lt

section Owns

variable (owns : heap.Owns manager.slots)

include owns

/-- A slot is empty in memory exactly if it stores nothing. -/
theorem join_eq_none_iff : manager.slots[position]?.join = none ↔
    (manager.content heap).get position = none := by
  rw [get_content]
  cases stored : manager.slots[position]?.join with
  | none => simp
  | some pointer =>
      obtain ⟨value, found⟩ := owns.live (List.mem_of_getElem? (Option.join_eq_some_iff.mp stored))
      simp [found]

theorem valid_eq : manager.valid handle = (manager.content heap).valid handle.toNat := by
  have same := @join_eq_none_iff T manager heap handle.toNat owns
  rw [valid, pointerAt, ExternalManager.valid, Bool.eq_iff_iff, Option.isSome_iff_ne_none,
    Option.isSome_iff_ne_none, not_iff_not]
  exact same

theorem emptySlot_iff : manager.slots[position]? = some none ↔
    position < (manager.content heap).slots.length ∧
      (manager.content heap).get position = none := by
  rw [length_content, ← join_eq_none_iff owns]
  constructor
  · intro empty
    exact ⟨(List.getElem?_eq_some_iff.mp empty).1, by rw [empty]; rfl⟩
  · rintro ⟨inside, empty⟩
    rw [List.getElem?_eq_getElem inside] at empty ⊢
    exact congrArg some empty

theorem freeListExact (wellFormed : (manager.content heap).WellFormed) :
    manager.FreeListExact where
  nodup := List.Nodup.of_map _ wellFormed.nodup
  mem position := by
    rw [emptySlot_iff owns, ← wellFormed.mem_freeList]
    exact List.mem_map

/-- Allocation in memory is allocation of the content, with a handle of 32 bits. -/
theorem allocate_spec (wellFormed : (manager.content heap).WellFormed) (value : T) :
    (manager.allocate heap value).1 =
      UInt32.ofNat ((manager.content heap).allocate value).1 ∧
    heap.Replaces (manager.allocate heap value).2.2 manager.slots
      (manager.allocate heap value).2.1.slots ∧
    (manager.allocate heap value).2.1.content (manager.allocate heap value).2.2 =
      ((manager.content heap).allocate value).2 := by
  cases free : manager.freeList with
  | nil =>
      have contentFree : (manager.content heap).freeList = [] :=
        congrArg (List.map UInt32.toNat) free
      simp only [allocate, ExternalManager.allocate, free, contentFree]
      refine ⟨?_, owns.push value, ?_⟩
      · rw [List.length_append, length_content]
        rfl
      · rw [content, owns.readAll_push value, content, free]
        rfl
  | cons index rest =>
      have contentFree : (manager.content heap).freeList = index.toNat :: rest.map UInt32.toNat :=
        congrArg (List.map UInt32.toNat) free
      have empty : manager.slots[index.toNat]? = some none := by
        rw [emptySlot_iff owns, ← wellFormed.mem_freeList, contentFree]
        exact List.mem_cons_self
      have null : manager.pointerAt index = none := by
        rw [pointerAt, empty]
        rfl
      simp only [allocate, ExternalManager.allocate, free, contentFree, null, Heap.releaseAll]
      refine ⟨UInt32.ofNat_toNat.symm, owns.fill _ value, ?_⟩
      rw [content, owns.readAll_fill value]
      rfl

/-- Freeing a live handle frees it in the content. -/
theorem erase_spec (live : manager.valid handle = true) :
    ∃ object next, manager.erase heap handle = some (object, next) ∧
      heap.Replaces next manager.slots object.slots ∧
      (manager.content heap).erase handle.toNat = some (object.content next) := by
  obtain ⟨pointer, found⟩ := Option.isSome_iff_exists.mp live
  have held := Option.join_eq_some_iff.mp found
  refine ⟨_, _, by rw [erase, found]; rfl, owns.drop held, ?_⟩
  rw [valid_eq owns] at live
  rw [ExternalManager.erase, if_pos live, content, content, owns.readAll_drop held,
    List.map_append, List.map_singleton]

/-- Assigning to the object of a live handle. -/
theorem assign_spec (live : manager.valid handle = true) (value : T) :
    ∃ next, manager.assign heap handle value = some next ∧
      heap.Replaces next manager.slots manager.slots ∧
      manager.content next = (manager.content heap).assign handle.toNat value := by
  obtain ⟨pointer, found⟩ := Option.isSome_iff_exists.mp live
  have held := Option.join_eq_some_iff.mp found
  refine ⟨_, by rw [assign, found]; rfl, owns.assign (List.mem_of_getElem? held) value, ?_⟩
  rw [content, ExternalManager.assign, content, owns.readAll_assign held]

end Owns

theorem valid_of_erase {result : ManagerObject × Heap T}
    (erased : manager.erase heap handle = some result) : manager.valid handle = true := by
  obtain ⟨pointer, found, -⟩ := Option.bind_eq_some_iff.mp erased
  exact Option.isSome_iff_exists.mpr ⟨pointer, found⟩

theorem valid_of_assign {next : Heap T} {value : T}
    (assigned : manager.assign heap handle value = some next) : manager.valid handle = true := by
  obtain ⟨pointer, found, -⟩ := Option.bind_eq_some_iff.mp assigned
  exact Option.isSome_iff_exists.mpr ⟨pointer, found⟩

/-- Copying gives a manager without a slot the content of another one. -/
theorem copyFrom_spec (owns : heap.Owns other.slots) :
    ∃ object next, ({} : ManagerObject).copyFrom heap other = some (object, next) ∧
      heap.Replaces next [] object.slots ∧ object.content next = other.content heap := by
  obtain ⟨next, copies, copied, replaces, same⟩ := Heap.exists_copyAll owns.live
  refine ⟨{ slots := copies, freeList := other.freeList }, next, ?_, replaces, ?_⟩
  · rw [copyFrom, copied]
    rfl
  · rw [content, content, same]

end ManagerObject

namespace ManagerMemory

variable {T : Type} {memory next : ManagerMemory T} {manager other : Nat} {handle : Handle}
  {object old : ManagerObject} {heap : Heap T}

/-- Every manager owns its objects alone and stores a well formed content. -/
structure Sound (memory : ManagerMemory T) : Prop where
  owns : ∀ {manager : Nat} {object : ManagerObject},
    memory.managers[manager]? = some object → memory.heap.Owns object.slots
  apart : ∀ {manager other pointer : Nat} {object another : ManagerObject},
    memory.managers[manager]? = some object → memory.managers[other]? = some another →
      manager ≠ other → some pointer ∈ object.slots → some pointer ∉ another.slots
  wellFormed : ∀ {manager : Nat} {stored : ExternalManager T},
    memory.content manager = some stored → stored.WellFormed

theorem sound_empty : ({} : ManagerMemory T).Sound where
  owns found := by cases found
  apart found := by cases found
  wellFormed found := by cases found

/-- The slots of a manager; one that is not constructed yet has none. -/
def slotsOf (memory : ManagerMemory T) (manager : Nat) : List (Option Nat) :=
  (memory.managers[manager]?.map ManagerObject.slots).getD []

/-- Only one manager changes, or is new, and it replaces its own objects only. -/
structure Updates (memory next : ManagerMemory T) (manager : Nat) (object : ManagerObject) :
    Prop where
  managers : ∀ other, next.managers[other]? =
    if other = manager then some object else memory.managers[other]?
  replaces : memory.heap.Replaces next.heap (memory.slotsOf manager) object.slots

theorem slotsOf_eq (found : memory.managers[manager]? = some object) :
    memory.slotsOf manager = object.slots := by
  rw [slotsOf, found]
  rfl

theorem updates_append (replaces : memory.heap.Replaces heap [] object.slots) :
    memory.Updates { heap := heap, managers := memory.managers ++ [object] }
      memory.managers.length object where
  managers other := by grind
  replaces := by
    rw [slotsOf, List.getElem?_eq_none (Nat.le_refl _)]
    exact replaces

theorem updates_set (found : memory.managers[manager]? = some old)
    (replaces : memory.heap.Replaces heap old.slots object.slots) :
    memory.Updates { heap := heap, managers := memory.managers.set manager object }
      manager object where
  managers other := by
    have inside := (List.getElem?_eq_some_iff.mp found).1
    simp only [List.getElem?_set]
    grind
  replaces := by
    rw [slotsOf_eq found]
    exact replaces

theorem content_eq (found : memory.managers[manager]? = some object) :
    memory.content manager = some (object.content memory.heap) := by
  rw [content, found]
  rfl

theorem Updates.content_self (updates : memory.Updates next manager object) :
    next.content manager = some (object.content next.heap) := by
  rw [content, updates.managers, if_pos rfl]
  rfl

section Updates

variable (lawful : memory.Sound) (updates : memory.Updates next manager object)

include lawful

/-- The objects of the changed manager belong to no other one. -/
theorem Sound.not_mem_slotsOf {another : ManagerObject} {pointer : Nat}
    (found : memory.managers[other]? = some another) (apart : other ≠ manager)
    (member : some pointer ∈ another.slots) : some pointer ∉ memory.slotsOf manager := by
  cases stored : memory.managers[manager]? with
  | none =>
      rw [slotsOf, stored]
      exact List.not_mem_nil
  | some object =>
      rw [slotsOf_eq stored]
      exact lawful.apart found stored apart member

include updates

/-- The other managers store what they stored. -/
theorem Updates.content_of_ne (apart : other ≠ manager) :
    next.content other = memory.content other := by
  rw [content, content, updates.managers, if_neg apart]
  refine Option.map_congr fun another found => ?_
  rw [ManagerObject.content, ManagerObject.content,
    updates.replaces.readAll_others (lawful.owns found) (lawful.not_mem_slotsOf found apart)]

theorem Updates.sound (wellFormed : (object.content next.heap).WellFormed) : next.Sound where
  owns {other another} found := by
    rw [updates.managers] at found
    split at found
    · cases found
      exact updates.replaces.owns
    · next apart =>
        exact updates.replaces.owns_others (lawful.owns found) (lawful.not_mem_slotsOf found apart)
  apart {left right first second pointer} found also ne member := by
    rw [updates.managers] at found also
    split at found
    · next here =>
        cases found
        have apart : right ≠ manager := fun same => ne (here.trans same.symm)
        rw [if_neg apart] at also
        exact updates.replaces.disjoint (lawful.owns also) (lawful.not_mem_slotsOf also apart)
          member
    · next apart =>
        split at also
        · cases also
          intro shared
          exact updates.replaces.disjoint (lawful.owns found) (lawful.not_mem_slotsOf found apart)
            shared member
        · exact lawful.apart found also ne member
  wellFormed {other stored} found := by
    by_cases same : other = manager
    · rw [same, updates.content_self] at found
      cases found
      exact wellFormed
    · rw [updates.content_of_ne lawful same] at found
      exact lawful.wellFormed found

end Updates

/-! ## The operations -/

theorem construct_updates : memory.Updates memory.construct memory.managers.length {} :=
  updates_append ⟨Heap.Owns.nil, Or.inl, fun found _ => found⟩

section Operations

variable (sound : memory.Sound) (found : memory.managers[manager]? = some object)

include sound found

theorem allocate_updates (value : T) : ∃ handle changed next,
    memory.allocate manager value = some (handle, next) ∧
      memory.Updates next manager changed ∧
      handle = UInt32.ofNat ((object.content memory.heap).allocate value).1 ∧
      changed.content next.heap = ((object.content memory.heap).allocate value).2 := by
  obtain ⟨returned, replaces, stored⟩ :=
    ManagerObject.allocate_spec (sound.owns found) (sound.wellFormed (content_eq found)) value
  exact ⟨_, _, _, by rw [allocate, found]; rfl, updates_set found replaces, returned, stored⟩

theorem erase_updates (live : object.valid handle = true) : ∃ changed next,
    memory.erase manager handle = some next ∧ memory.Updates next manager changed ∧
      (object.content memory.heap).erase handle.toNat = some (changed.content next.heap) := by
  obtain ⟨changed, heap, erased, replaces, stored⟩ :=
    ManagerObject.erase_spec (sound.owns found) live
  refine ⟨changed, _, ?_, updates_set found replaces, stored⟩
  simp only [erase, found, Option.bind_eq_bind, Option.bind_some, erased]

theorem assign_updates (live : object.valid handle = true) (value : T) : ∃ next,
    memory.assign manager handle value = some next ∧ memory.Updates next manager object ∧
      object.content next.heap = (object.content memory.heap).assign handle.toNat value := by
  obtain ⟨heap, assigned, replaces, stored⟩ :=
    ManagerObject.assign_spec (sound.owns found) live value
  refine ⟨{ memory with heap := heap }, ?_, ⟨fun other => ?_, ?_⟩, stored⟩
  · simp only [assign, found, Option.bind_eq_bind, Option.bind_some, assigned]
  · split
    · next same => rw [same, found]
    · rfl
  · rw [slotsOf_eq found]
    exact replaces

theorem copy_updates : ∃ copied next, memory.copy manager = some next ∧
    memory.Updates next memory.managers.length copied ∧
      copied.content next.heap = object.content memory.heap := by
  obtain ⟨copied, heap, made, replaces, stored⟩ :=
    ManagerObject.copyFrom_spec (sound.owns found)
  refine ⟨copied, _, ?_, updates_append replaces, stored⟩
  simp only [copy, found, Option.bind_eq_bind, Option.bind_some, made]

/-- Copy assignment deletes the old objects of the target only after copying. -/
theorem copyAssign_updates (target : memory.managers[other]? = some old)
    (apart : other ≠ manager) : ∃ copied next, memory.copyAssign other manager = some next ∧
      memory.Updates next other copied ∧
      copied.content next.heap = object.content memory.heap := by
  obtain ⟨copied, heap, made, replaces, stored⟩ :=
    ManagerObject.copyFrom_spec (sound.owns found)
  obtain ⟨replaced, kept⟩ := replaces.releaseAll (sound.owns target)
  refine ⟨copied, _, ?_, updates_set target replaced, ?_⟩
  · simp only [copyAssign, target, found, Option.bind_eq_bind, Option.bind_some, if_neg apart,
      made]
  · rw [← stored, ManagerObject.content, kept]
    rfl

end Operations

/-- Every step updates one manager, which it is called on or constructs. -/
theorem step_cases {call : Call T} (sound : memory.Sound)
    (stepped : step memory call = some next) :
    next = memory ∨ ∃ manager object, memory.Updates next manager object ∧
      (object.content next.heap).WellFormed ∧
      (call.changes = some manager ∨ manager = memory.managers.length) := by
  cases call with
  | construct =>
      cases stepped
      exact Or.inr ⟨_, _, construct_updates, ExternalManager.wellFormed_empty, Or.inr rfl⟩
  | allocate manager value =>
      obtain ⟨⟨handle, after⟩, allocated, same⟩ := Option.map_eq_some_iff.mp stepped
      cases same
      obtain ⟨object, found, -⟩ := Option.bind_eq_some_iff.mp allocated
      obtain ⟨_, changed, result, again, updates, -, stored⟩ := allocate_updates sound found value
      rw [allocated] at again
      cases again
      refine Or.inr ⟨manager, changed, updates, ?_, Or.inl rfl⟩
      rw [stored]
      exact (sound.wellFormed (content_eq found)).allocate value
  | erase manager handle =>
      obtain ⟨object, found, freed⟩ := Option.bind_eq_some_iff.mp stepped
      obtain ⟨result, freed, -⟩ := Option.bind_eq_some_iff.mp freed
      obtain ⟨changed, after, erased, updates, stored⟩ :=
        erase_updates sound found (ManagerObject.valid_of_erase freed)
      rw [step, erased] at stepped
      cases stepped
      exact Or.inr ⟨manager, changed, updates,
        (sound.wellFormed (content_eq found)).erase stored, Or.inl rfl⟩
  | assign manager handle value =>
      obtain ⟨object, found, written⟩ := Option.bind_eq_some_iff.mp stepped
      obtain ⟨heap, written, -⟩ := Option.bind_eq_some_iff.mp written
      have live := ManagerObject.valid_of_assign written
      obtain ⟨after, assigned, updates, stored⟩ := assign_updates sound found live value
      rw [step, assigned] at stepped
      cases stepped
      refine Or.inr ⟨manager, object, updates, ?_, Or.inl rfl⟩
      rw [ManagerObject.valid_eq (sound.owns found)] at live
      obtain ⟨_, present⟩ := ExternalManager.valid_iff.mp live
      rw [stored]
      exact (sound.wellFormed (content_eq found)).assign present value
  | copy source =>
      obtain ⟨object, found, -⟩ := Option.bind_eq_some_iff.mp stepped
      obtain ⟨copied, result, made, updates, stored⟩ := copy_updates sound found
      rw [step, made] at stepped
      cases stepped
      refine Or.inr ⟨_, copied, updates, ?_, Or.inr rfl⟩
      rw [stored]
      exact sound.wellFormed (content_eq found)
  | copyAssign target source =>
      obtain ⟨old, held, rest⟩ := Option.bind_eq_some_iff.mp stepped
      obtain ⟨object, found, -⟩ := Option.bind_eq_some_iff.mp rest
      by_cases apart : target = source
      · -- self assignment does nothing
        simp only [step, copyAssign, held, found, Option.bind_eq_bind, Option.bind_some,
          if_pos apart] at stepped
        exact Or.inl (Option.some.inj stepped).symm
      · obtain ⟨copied, result, made, updates, stored⟩ :=
          copyAssign_updates sound found held apart
        rw [step, made] at stepped
        cases stepped
        refine Or.inr ⟨_, copied, updates, ?_, Or.inl rfl⟩
        rw [stored]
        exact sound.wellFormed (content_eq found)

/-! ## Runs -/

theorem Sound.step {call : Call T} (sound : memory.Sound)
    (stepped : step memory call = some next) : next.Sound := by
  rcases step_cases sound stepped with rfl | ⟨manager, object, updates, wellFormed, -⟩
  · exact sound
  · exact updates.sound sound wellFormed

theorem Sound.run {calls : List (Call T)} (sound : memory.Sound)
    (run : Run ManagerMemory.step memory calls next) : next.Sound :=
  run.invariant sound fun _ _ _ sound _ stepped => sound.step stepped

/-- A step on another manager leaves what a manager stores. -/
theorem Sound.content_step {call : Call T} (sound : memory.Sound)
    (stepped : ManagerMemory.step memory call = some next)
    (unused : call.changes ≠ some manager) {stored : ExternalManager T}
    (found : memory.content manager = some stored) : next.content manager = some stored := by
  rcases step_cases sound stepped with rfl | ⟨changed, object, updates, -, reason⟩
  · exact found
  · rw [updates.content_of_ne sound, found]
    rintro rfl
    rcases reason with called | new
    · exact unused called
    · rw [content, new, List.getElem?_eq_none (Nat.le_refl _)] at found
      cases found

theorem Sound.content_run {calls : List (Call T)} (sound : memory.Sound)
    (run : Run ManagerMemory.step memory calls next)
    (unused : ∀ call ∈ calls, call.changes ≠ some manager) {stored : ExternalManager T}
    (found : memory.content manager = some stored) : next.content manager = some stored := by
  induction run with
  | nil => exact found
  | snoc earlier _ stepped ih =>
      have kept := ih fun call member => unused call (List.mem_append_left _ member)
      refine (sound.run earlier).content_step stepped (unused _ ?_) kept
      exact List.mem_append_right _ List.mem_cons_self

/-! ## What the operations do for a user of the handles -/

theorem get_of_content {stored : ExternalManager T} (found : memory.content manager = some stored) :
    memory.get manager handle = stored.get handle.toNat := by
  obtain ⟨object, held, rfl⟩ := Option.map_eq_some_iff.mp found
  rw [get, held]
  exact ManagerObject.get_eq

theorem Sound.valid_of_content (sound : memory.Sound) {stored : ExternalManager T}
    (found : memory.content manager = some stored) :
    memory.valid manager handle = stored.valid handle.toNat := by
  obtain ⟨object, held, rfl⟩ := Option.map_eq_some_iff.mp found
  rw [valid, held]
  exact ManagerObject.valid_eq (sound.owns held)

/-- An allocation returns a handle that is not live, if there is one, and changes no other. -/
structure Allocates (memory next : ManagerMemory T) (manager : Nat) (handle : Handle)
    (value : T) : Prop where
  fresh : (∃ unused, memory.valid manager unused = false) →
    memory.valid manager handle = false ∧ next.get manager handle = some value
  kept : ∀ other, other ≠ handle → next.get manager other = memory.get manager other
  others : ∀ other, other ≠ manager → next.content other = memory.content other

/-- An erase invalidates exactly the given handle. -/
structure Erases (memory next : ManagerMemory T) (manager : Nat) (handle : Handle) : Prop where
  valid : ∀ other, next.valid manager other = true ↔
    memory.valid manager other = true ∧ other ≠ handle
  kept : ∀ other, other ≠ handle → next.get manager other = memory.get manager other
  others : ∀ other, other ≠ manager → next.content other = memory.content other

/-- A copy stores the same as the original. -/
structure Copies (memory next : ManagerMemory T) (source target : Nat) : Prop where
  equal : next.content target = memory.content source
  others : ∀ other, other ≠ target → next.content other = memory.content other

section Users

variable (sound : memory.Sound) (found : memory.managers[manager]? = some object)

include sound found

theorem Sound.allocates (value : T) : ∃ handle next,
    memory.allocate manager value = some (handle, next) ∧
      memory.Allocates next manager handle value := by
  obtain ⟨handle, changed, next, allocated, updates, returned, stored⟩ :=
    allocate_updates sound found value
  have before := content_eq found
  have after := updates.content_self
  have wellFormed := sound.wellFormed before
  have effect := wellFormed.get_allocate value
  rw [stored] at after
  refine ⟨handle, next, allocated, ⟨?_, ?_, fun other => updates.content_of_ne sound⟩⟩
  · rintro ⟨unused, dead⟩
    rw [Sound.valid_of_content sound before] at dead
    have small := ManagerObject.allocate_lt wellFormed dead value
    have exact : handle.toNat = ((object.content memory.heap).allocate value).1 := by
      rw [returned, UInt32.toNat_ofNat_of_lt' small]
    rw [Sound.valid_of_content sound before, get_of_content after, effect, exact, if_pos rfl,
      ExternalManager.valid, wellFormed.allocate_fresh value]
    exact ⟨rfl, rfl⟩
  · intro other apart
    rw [get_of_content after, get_of_content before, effect, if_neg]
    intro same
    exact apart (by rw [returned, ← same, UInt32.ofNat_toNat])

theorem Sound.erases (live : object.valid handle = true) : ∃ next,
    memory.erase manager handle = some next ∧ memory.Erases next manager handle := by
  obtain ⟨changed, next, erased, updates, stored⟩ := erase_updates sound found live
  have before := content_eq found
  have after := updates.content_self
  have nextSound := updates.sound sound ((sound.wellFormed before).erase stored)
  have effect : ∀ other, next.get manager other =
      if other = handle then none else memory.get manager other := by
    intro other
    rw [get_of_content after, get_of_content before, ExternalManager.get_erase stored]
    simp only [UInt32.toNat_inj]
  refine ⟨next, erased, ⟨fun other => ?_, fun other apart => ?_,
    fun other => updates.content_of_ne sound⟩⟩
  · have reads := effect other
    rw [get_of_content after, get_of_content before] at reads
    rw [nextSound.valid_of_content after, sound.valid_of_content before, ExternalManager.valid,
      ExternalManager.valid, reads]
    split <;> simp [*]
  · rw [effect, if_neg apart]

theorem Sound.copies : ∃ next, memory.copy manager = some next ∧
    memory.Copies next manager memory.managers.length := by
  obtain ⟨copied, next, made, updates, stored⟩ := copy_updates sound found
  refine ⟨next, made, ⟨?_, fun other => updates.content_of_ne sound⟩⟩
  rw [updates.content_self, content_eq found, stored]

theorem Sound.copyAssigns (target : memory.managers[other]? = some old) : ∃ next,
    memory.copyAssign other manager = some next ∧ memory.Copies next manager other := by
  by_cases apart : other = manager
  · refine ⟨memory, ?_, ⟨by rw [apart], fun _ _ => rfl⟩⟩
    simp only [copyAssign, target, found, Option.bind_eq_bind, Option.bind_some, if_pos apart]
  · obtain ⟨copied, next, made, updates, stored⟩ := copyAssign_updates sound found target apart
    refine ⟨next, made, ⟨?_, fun another => updates.content_of_ne sound⟩⟩
    rw [updates.content_self, content_eq found, stored]

end Users

/-! ## When all handles are live -/

/-- With an empty free list, an allocation appends a slot; its handle has 32 bits only. -/
theorem allocate_of_freeList_nil (found : memory.managers[manager]? = some object)
    (free : object.freeList = []) (value : T) : ∃ pointer next,
      memory.allocate manager value = some (UInt32.ofNat object.slots.length, next) ∧
      next.managers[manager]? = some { object with slots := object.slots ++ [some pointer] } := by
  refine ⟨(memory.heap.make value).1, { heap := (memory.heap.make value).2, managers := _ }, ?_,
    List.getElem?_set_self (List.getElem?_eq_some_iff.mp found).1⟩
  simp only [allocate, found, ManagerObject.allocate, free, Option.bind_eq_bind, Option.bind_some,
    List.length_append, List.length_singleton, Nat.add_sub_cancel]

/-- Allocations on one manager fill its slots one after another. -/
theorem exists_filled (count : Nat) : ∃ memory object,
    Run ManagerMemory.step ({} : ManagerMemory Unit)
      (.construct :: List.replicate count (.allocate 0 ())) memory ∧
    memory.managers[0]? = some object ∧ object.slots.length = count ∧
    object.freeList = [] ∧ none ∉ object.slots := by
  induction count with
  | zero =>
      exact ⟨_, {}, GuardedRun.single trivial rfl, rfl, rfl, rfl, List.not_mem_nil⟩
  | succ count ih =>
      obtain ⟨memory, object, run, found, length, free, full⟩ := ih
      obtain ⟨pointer, next, allocated, appended⟩ := allocate_of_freeList_nil found free ()
      refine ⟨next, _, ?_, appended, ?_, free, ?_⟩
      · rw [List.replicate_succ', ← List.cons_append]
        exact run.snoc trivial (by rw [ManagerMemory.step, allocated]; rfl)
      · rw [List.length_append, length]
        rfl
      · intro empty
        rcases List.mem_append.mp empty with old | new
        · exact full old
        · cases List.mem_singleton.mp new

/-! ## All managers of a run -/

/-- After any run, the free lists are exact, an allocation returns a handle that is not live as
long as there is one, an erase invalidates its handle only, a copy equals the original, and a
later run without operations on a manager leaves what it stores. -/
theorem managers_independent {calls : List (Call T)}
    (run : Run ManagerMemory.step ({} : ManagerMemory T) calls memory) :
    (∀ object ∈ memory.managers, object.FreeListExact) ∧
    (∀ manager < memory.managers.length, ∀ value, ∃ handle next,
      memory.allocate manager value = some (handle, next) ∧
        memory.Allocates next manager handle value) ∧
    (∀ manager handle, memory.valid manager handle = true → ∃ next,
      memory.erase manager handle = some next ∧ memory.Erases next manager handle) ∧
    (∀ source < memory.managers.length, ∃ next,
      memory.copy source = some next ∧ memory.Copies next source memory.managers.length) ∧
    (∀ target < memory.managers.length, ∀ source < memory.managers.length, ∃ next,
      memory.copyAssign target source = some next ∧ memory.Copies next source target) ∧
    ∀ manager < memory.managers.length, ∀ later final,
      Run ManagerMemory.step memory later final →
      (∀ call ∈ later, call.changes ≠ some manager) →
        final.content manager = memory.content manager := by
  have sound := sound_empty.run run
  have held : ∀ manager < memory.managers.length, ∃ object,
      memory.managers[manager]? = some object :=
    fun manager inside => ⟨_, List.getElem?_eq_getElem inside⟩
  refine ⟨fun object member => ?_, fun manager inside value => ?_, fun manager handle live => ?_,
    fun source inside => ?_, fun target inside source also => ?_,
    fun manager inside later final continued unused => ?_⟩
  · obtain ⟨manager, found⟩ := List.mem_iff_getElem?.mp member
    exact ManagerObject.freeListExact (sound.owns found) (sound.wellFormed (content_eq found))
  · obtain ⟨object, found⟩ := held manager inside
    exact sound.allocates found value
  · obtain ⟨object, found, live⟩ := (Option.any_eq_true _ _).mp live
    exact sound.erases found live
  · obtain ⟨object, found⟩ := held source inside
    exact sound.copies found
  · obtain ⟨object, found⟩ := held source also
    obtain ⟨old, replaced⟩ := held target inside
    exact sound.copyAssigns found replaced
  · obtain ⟨object, found⟩ := held manager inside
    rw [content_eq found]
    exact sound.content_run continued unused (content_eq found)

theorem managers_independent_copy : ∃ memory final : ManagerMemory Nat,
    Run ManagerMemory.step {} [.construct, .allocate 0 5, .copy 0] memory ∧
      Run ManagerMemory.step memory [.erase 0 0, .allocate 0 9] final ∧
      final.content 1 = memory.content 1 ∧ final.get 0 0 = some 9 ∧ final.get 1 0 = some 5 := by
  have run : Run ManagerMemory.step ({} : ManagerMemory Nat) [.construct, .allocate 0 5, .copy 0]
      { heap := { cells := [some 5, some 5] }
        managers := [{ slots := [some 0] }, { slots := [some 1] }] } :=
    GuardedRun.of_foldlM_of_forall rfl fun _ _ _ _ _ _ => trivial
  have later : Run ManagerMemory.step
      { heap := { cells := [some 5, some 5] }
        managers := [{ slots := [some 0] }, { slots := [some 1] }] }
      [.erase 0 0, .allocate 0 9]
      { heap := { cells := [none, some 5, some 9] }
        managers := [{ slots := [some 2] }, { slots := [some 1] }] } :=
    GuardedRun.of_foldlM_of_forall rfl fun _ _ _ _ _ _ => trivial
  exact ⟨_, _, run, later,
    (managers_independent run).2.2.2.2.2 1 (by decide) _ _ later (by decide), rfl, rfl⟩

/-- The allocation after as many as there are handles returns the first handle again. -/
theorem allocate_wraps : ∃ memory handle next,
    Run ManagerMemory.step ({} : ManagerMemory Unit)
      (.construct :: List.replicate UInt32.size (.allocate 0 ())) memory ∧
    memory.allocate 0 () = some (handle, next) ∧ memory.valid 0 handle = true := by
  obtain ⟨memory, object, run, found, length, free, full⟩ := exists_filled UInt32.size
  obtain ⟨pointer, next, allocated, -⟩ := allocate_of_freeList_nil found free ()
  refine ⟨memory, 0, next, run, ?_, ?_⟩
  · rw [allocated, length]
    rfl
  · have inside : 0 < object.slots.length := by
      rw [length]
      decide
    rw [valid, found]
    change (object.slots[0]?.join).isSome = true
    cases slot : object.slots[0] with
    | none => exact absurd (List.mem_of_getElem slot) full
    | some pointer =>
        rw [List.getElem?_eq_getElem inside, slot]
        rfl

end ManagerMemory

end SlangNetlist
