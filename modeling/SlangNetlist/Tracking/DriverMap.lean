import Mathlib.Data.Finset.Image
import SlangNetlist.Graph.NetlistNode
import SlangNetlist.Library.IntervalMap
import SlangNetlist.Tracking.ExternalManager

/-!
# Driver maps

The driven ranges of one symbol.  Each interval holds a handle, and the handle
names a driver list in an `ExternalManager`; several intervals may hold the
same handle.  A driver list is an unordered set whose elements are compared by
their node alone.
-/

namespace SlangNetlist

open Library

/-- A driver of a range: a node that may be null and the expression driven. -/
structure DriverInfo where
  node : Option NodeRef
  /-- The longest static prefix, as the identity of its expression. -/
  lsp : Option Nat := none
  deriving DecidableEq, Repr

abbrev DriverList := List DriverInfo

namespace DriverList

/-- Insert unless a driver with the same node is present. -/
def insertInfo (list : DriverList) (info : DriverInfo) : DriverList :=
  if info.node ∈ list.map DriverInfo.node then list else list ++ [info]

/-- `insert(begin, end)`. -/
def insertAll (list added : DriverList) : DriverList :=
  added.foldl insertInfo list

/-- The set of driving nodes. -/
def nodes (list : DriverList) : Finset (Option NodeRef) :=
  (list.map DriverInfo.node).toFinset

@[simp] theorem nodes_nil : nodes [] = ∅ := rfl

theorem mem_nodes {list : DriverList} {node : Option NodeRef} :
    node ∈ list.nodes ↔ ∃ info ∈ list, info.node = node := by
  simp [nodes]

@[simp] theorem nodes_insertInfo (list : DriverList) (info : DriverInfo) :
    (list.insertInfo info).nodes = insert info.node list.nodes := by
  unfold insertInfo
  split
  · next present =>
      rw [Finset.insert_eq_of_mem]
      simpa [nodes] using present
  · ext node
    simp [nodes, eq_comm]

/-- Inserting a range of drivers is the union of the sets of nodes. -/
@[simp] theorem nodes_insertAll (list added : DriverList) :
    (list.insertAll added).nodes = list.nodes ∪ added.nodes := by
  induction added generalizing list with
  | nil => simp [insertAll]
  | cons info rest ih =>
      have step := ih (list.insertInfo info)
      simp only [insertAll, List.foldl_cons] at *
      rw [step, nodes_insertInfo]
      ext node
      simp only [Finset.mem_union, Finset.mem_insert, mem_nodes, List.mem_cons]
      grind

end DriverList

/-- The intervals of a symbol and the lists that their handles name. -/
structure DriverMap where
  driverIntervals : IntervalMap Nat := IntervalMap.nil
  driverLists : ExternalManager DriverList := {}
  deriving DecidableEq, Repr

namespace DriverMap

/-- Create an empty driver list. -/
def newDriverList (map : DriverMap) : Nat × DriverMap :=
  let (handle, lists) := map.driverLists.allocate []
  (handle, { map with driverLists := lists })

/-- Copy a driver list into a new slot. -/
def addDriverList (map : DriverMap) (list : DriverList) : Nat × DriverMap :=
  let (handle, lists) := map.driverLists.allocate list
  (handle, { map with driverLists := lists })

/-- The list of a handle; `none` is the failed assertion of `get`. -/
def getDriverList (map : DriverMap) (handle : Nat) : Option DriverList :=
  map.driverLists.get handle

/-- Assign through the reference that `getDriverList` returned. -/
def setDriverList (map : DriverMap) (handle : Nat) (list : DriverList) : DriverMap :=
  { map with driverLists := map.driverLists.assign handle list }

/-- Add the drivers of `list` to the list of `handle`. -/
def extendDriverList (map : DriverMap) (handle : Nat) (list : DriverList) :
    Option DriverMap := do
  let existingDrivers ← map.getDriverList handle
  some (map.setDriverList handle (existingDrivers.insertAll list))

/-- Replace the contents of the list of `handle`. -/
def replaceDriverList (map : DriverMap) (handle : Nat) (list : DriverList) :
    Option DriverMap := do
  let _ ← map.getDriverList handle
  some (map.setDriverList handle (DriverList.insertAll [] list))

/-- Insert an interval with a handle. -/
def insert (map : DriverMap) (bounds : DriverBitRange) (handle : Nat) : DriverMap :=
  { map with driverIntervals := map.driverIntervals.insert bounds.lower bounds.upper handle }

/-- The intervals that overlap `bounds`, in ascending order. -/
def find (map : DriverMap) (bounds : DriverBitRange) : List (Interval Nat) :=
  map.driverIntervals.find bounds.lower bounds.upper

/-- Erase an interval; its list stays. -/
def eraseInterval (map : DriverMap) (entry : Interval Nat) : DriverMap :=
  { map with driverIntervals := map.driverIntervals.erase entry }

def validHandle (map : DriverMap) (handle : Nat) : Bool :=
  map.driverLists.valid handle

/-- Free a driver list; `none` is the failed assertion of `erase`. -/
def eraseList (map : DriverMap) (handle : Nat) : Option DriverMap := do
  let lists ← map.driverLists.erase handle
  some { map with driverLists := lists }

/-- The driver list of the interval that contains the bit. -/
def listAt (map : DriverMap) (bit : Int) : Option DriverList := do
  let entry ← map.driverIntervals.entries.find? fun entry => entry.Covers bit
  map.getDriverList entry.value

/-- The set of drivers of a bit, empty where no interval contains it. -/
def driversAt (map : DriverMap) (bit : Int) : Finset (Option NodeRef) :=
  ((map.listAt bit).getD []).nodes

end DriverMap

end SlangNetlist
