import SlangNetlist.Library.GuardedRun
import SlangNetlist.Library.Heap
import SlangNetlist.Tracking.ExternalManager

/-!
# External managers in memory

The slots of an `ExternalManager` are owning pointers, and a copy of a manager
copies every object.  Handles have 32 bits.  The managers of a program are
numbered in the order of their construction and share one heap.
-/

namespace SlangNetlist

open Library

/-- `ExternalManager::Handle`. -/
abbrev Handle := UInt32

/-- An `ExternalManager` as it lies in memory. -/
structure ManagerObject where
  slots : List (Option Nat) := []
  freeList : List Handle := []
  deriving DecidableEq, Repr

namespace ManagerObject

variable {T : Type}

/-- The pointer in the slot of a handle. -/
def pointerAt (manager : ManagerObject) (handle : Handle) : Option Nat :=
  manager.slots[handle.toNat]?.join

/-- Access through a handle; `none` is the failed assertion. -/
def get (manager : ManagerObject) (heap : Heap T) (handle : Handle) : Option T :=
  (manager.pointerAt handle).bind heap.read

def valid (manager : ManagerObject) (handle : Handle) : Bool :=
  (manager.pointerAt handle).isSome

def allocate (manager : ManagerObject) (heap : Heap T) (value : T) :
    Handle × ManagerObject × Heap T :=
  match manager.freeList with
  | index :: rest =>
      let (pointer, heap) := heap.make value
      -- the assignment deletes what the slot held
      (index, { slots := manager.slots.set index.toNat (some pointer), freeList := rest },
        heap.releaseAll [manager.pointerAt index])
  | [] =>
      let (pointer, heap) := heap.make value
      let slots := manager.slots ++ [some pointer]
      -- `static_cast<Handle>` keeps the low 32 bits
      (UInt32.ofNat (slots.length - 1), { manager with slots := slots }, heap)

/-- Free the object of a live handle; `none` is the failed assertion. -/
def erase (manager : ManagerObject) (heap : Heap T) (handle : Handle) :
    Option (ManagerObject × Heap T) := do
  let pointer ← manager.pointerAt handle
  some ({ slots := manager.slots.set handle.toNat none
          freeList := manager.freeList ++ [handle] }, heap.release pointer)

/-- Assign through the reference that the non-const `get` returns. -/
def assign (manager : ManagerObject) (heap : Heap T) (handle : Handle) (value : T) :
    Option (Heap T) := do
  let pointer ← manager.pointerAt handle
  some (heap.write pointer value)

/-- Copy the objects and the free list of another manager, and delete the old objects. -/
def copyFrom (manager : ManagerObject) (heap : Heap T) (other : ManagerObject) :
    Option (ManagerObject × Heap T) := do
  let (heap, newSlots) ← heap.copyAll other.slots
  some ({ slots := newSlots, freeList := other.freeList }, heap.releaseAll manager.slots)

/-- What a manager stores, slot by slot. -/
def content (manager : ManagerObject) (heap : Heap T) : ExternalManager T where
  slots := heap.readAll manager.slots
  freeList := manager.freeList.map UInt32.toNat

end ManagerObject

/-- The managers of a program and the heap with their objects. -/
structure ManagerMemory (T : Type) where
  heap : Heap T := {}
  managers : List ManagerObject := []
  deriving DecidableEq, Repr

namespace ManagerMemory

variable {T : Type}

def get (memory : ManagerMemory T) (manager : Nat) (handle : Handle) : Option T :=
  memory.managers[manager]?.bind (·.get memory.heap handle)

def valid (memory : ManagerMemory T) (manager : Nat) (handle : Handle) : Bool :=
  memory.managers[manager]?.any (·.valid handle)

/-- What the manager of a number stores. -/
def content (memory : ManagerMemory T) (manager : Nat) : Option (ExternalManager T) :=
  memory.managers[manager]?.map (·.content memory.heap)

/-- `ExternalManager()`. -/
def construct (memory : ManagerMemory T) : ManagerMemory T :=
  { memory with managers := memory.managers ++ [{}] }

def allocate (memory : ManagerMemory T) (manager : Nat) (value : T) :
    Option (Handle × ManagerMemory T) := do
  let object ← memory.managers[manager]?
  let (handle, object, heap) := object.allocate memory.heap value
  some (handle, { heap := heap, managers := memory.managers.set manager object })

def erase (memory : ManagerMemory T) (manager : Nat) (handle : Handle) :
    Option (ManagerMemory T) := do
  let object ← memory.managers[manager]?
  let (object, heap) ← object.erase memory.heap handle
  some { heap := heap, managers := memory.managers.set manager object }

def assign (memory : ManagerMemory T) (manager : Nat) (handle : Handle) (value : T) :
    Option (ManagerMemory T) := do
  let object ← memory.managers[manager]?
  let heap ← object.assign memory.heap handle value
  some { memory with heap := heap }

/-- The copy constructor, also behind `clone`. -/
def copy (memory : ManagerMemory T) (source : Nat) : Option (ManagerMemory T) := do
  let other ← memory.managers[source]?
  let (object, heap) ← ({} : ManagerObject).copyFrom memory.heap other
  some { heap := heap, managers := memory.managers ++ [object] }

/-- Copy assignment: copy to a temporary, swap with it, and delete the old objects with it. -/
def copyAssign (memory : ManagerMemory T) (target source : Nat) : Option (ManagerMemory T) := do
  let object ← memory.managers[target]?
  let other ← memory.managers[source]?
  if target = source then some memory
  else
    let (tmp, heap) ← ({} : ManagerObject).copyFrom memory.heap other
    some { heap := heap.releaseAll object.slots, managers := memory.managers.set target tmp }

/-- The operations on managers. -/
inductive Call (T : Type) where
  | construct
  | allocate (manager : Nat) (value : T)
  | erase (manager : Nat) (handle : Handle)
  | assign (manager : Nat) (handle : Handle) (value : T)
  | copy (source : Nat)
  | copyAssign (target source : Nat)
  deriving DecidableEq, Repr

/-- The manager that an operation is called on; constructors make a new one. -/
def Call.changes : Call T → Option Nat
  | .construct | .copy _ => none
  | .allocate manager _ | .erase manager _ | .assign manager _ _ => some manager
  | .copyAssign target _ => some target

/-- One operation; `none` is a failed assertion or a manager that does not exist. -/
def step (memory : ManagerMemory T) : Call T → Option (ManagerMemory T)
  | .construct => some memory.construct
  | .allocate manager value => (memory.allocate manager value).map Prod.snd
  | .erase manager handle => memory.erase manager handle
  | .assign manager handle value => memory.assign manager handle value
  | .copy source => memory.copy source
  | .copyAssign target source => memory.copyAssign target source

end ManagerMemory

end SlangNetlist
