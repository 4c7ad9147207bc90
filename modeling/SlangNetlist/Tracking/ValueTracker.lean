import SlangNetlist.Graph.Symbols
import SlangNetlist.Tracking.AddDriversLoop

/-!
# The value tracker

The tracker assigns slots to value symbols in the order of their first use; a
`ValueDrivers` vector, which the tracker does not own, holds one driver map for
each slot.  Every vector is at most as long as the list of slots.
-/

namespace SlangNetlist

open Library

/-- The symbols in slot order; `valueToSlot` is the inverse of `slotToValue`. -/
structure ValueTracker where
  slotToValue : List ValueSymbol := []
  deriving DecidableEq, Repr

abbrev ValueDrivers := List DriverMap

namespace ValueTracker

/-- The slot of a symbol, if it has one. -/
def getSlot (tracker : ValueTracker) (symbol : ValueSymbol) : Option Nat :=
  tracker.slotToValue.findIdx? fun value => value.id = symbol.id

/-- The slot of a symbol, allocated at its first use. -/
def slotFor (tracker : ValueTracker) (symbol : ValueSymbol) : Nat × ValueTracker :=
  match tracker.getSlot symbol with
  | some index => (index, tracker)
  | none => (tracker.slotToValue.length, ⟨tracker.slotToValue ++ [symbol]⟩)

/-- Grow the vector so that the slot exists. -/
def resize (drivers : ValueDrivers) (index : Nat) : ValueDrivers :=
  drivers ++ List.replicate (index + 1 - drivers.length) ({} : DriverMap)

/-- The driver map of a symbol, empty where the symbol or the vector has no slot. -/
def driverMap (tracker : ValueTracker) (drivers : ValueDrivers) (symbol : ValueSymbol) :
    DriverMap :=
  match tracker.getSlot symbol with
  | some index => drivers[index]?.getD {}
  | none => {}

/-- Add drivers for a range of a symbol; `none` is a failed assertion. -/
def addDrivers (tracker : ValueTracker) (drivers : ValueDrivers) (symbol : ValueSymbol)
    (bounds : DriverBitRange) (driverList : DriverList) (merge : Bool) :
    Option (ValueTracker × ValueDrivers) := do
  let (index, tracker) := tracker.slotFor symbol
  let drivers := resize drivers index
  let map ← (drivers[index]?.getD {}).addDrivers bounds driverList merge
  some (tracker, drivers.set index map)

/-- The intervals that overlap the bounds with their driver lists, in ascending order. -/
def forEachDriverInterval (tracker : ValueTracker) (drivers : ValueDrivers)
    (symbol : ValueSymbol) (bounds : DriverBitRange) :
    Option (List (DriverBitRange × DriverList)) :=
  let map := tracker.driverMap drivers symbol
  (map.find bounds).mapM fun entry => do
    let list ← map.getDriverList entry.value
    some (⟨entry.first, entry.second⟩, list)

/-- No vector is longer than the list of slots. -/
def Fits (tracker : ValueTracker) (drivers : ValueDrivers) : Prop :=
  drivers.length ≤ tracker.slotToValue.length

section Slots

variable {tracker : ValueTracker} {drivers : ValueDrivers} {symbol other : ValueSymbol}

theorem getSlot_lt {index : Nat} (slot : tracker.getSlot symbol = some index) :
    index < tracker.slotToValue.length := by
  obtain ⟨inside, _⟩ := List.findIdx?_eq_some_iff_getElem.mp slot
  exact inside

/-- Two symbols in one slot are the same symbol. -/
theorem id_eq_of_getSlot {index : Nat} (slot : tracker.getSlot symbol = some index)
    (otherSlot : tracker.getSlot other = some index) : symbol.id = other.id := by
  obtain ⟨inside, same, _⟩ := List.findIdx?_eq_some_iff_getElem.mp slot
  obtain ⟨_, otherSame, _⟩ := List.findIdx?_eq_some_iff_getElem.mp otherSlot
  rw [← of_decide_eq_true same, ← of_decide_eq_true otherSame]

/-- The slot of a symbol depends on its identity alone. -/
theorem getSlot_congr (tracker : ValueTracker) (same : other.id = symbol.id) :
    tracker.getSlot other = tracker.getSlot symbol := by
  simp only [getSlot, same]

theorem getSlot_slotFor (tracker : ValueTracker) (symbol : ValueSymbol) :
    (tracker.slotFor symbol).2.getSlot symbol = some (tracker.slotFor symbol).1 := by
  unfold slotFor
  split
  · next index slot => exact slot
  · next missing =>
      have absent : List.findIdx? (fun value => decide (value.id = symbol.id))
          tracker.slotToValue = none := missing
      simp [getSlot, List.findIdx?_append, absent]

/-- Allocating a slot leaves the slots of the other symbols alone. -/
theorem getSlot_slotFor_of_ne (tracker : ValueTracker) (ne : other.id ≠ symbol.id) :
    (tracker.slotFor symbol).2.getSlot other = tracker.getSlot other := by
  unfold slotFor
  split
  · rfl
  · simp [getSlot, List.findIdx?_append, ne.symm]

theorem getElem?_resize (drivers : ValueDrivers) (index slot : Nat) :
    (resize drivers index)[slot]?.getD ({} : DriverMap) = drivers[slot]?.getD {} := by
  simp only [resize, List.getElem?_append, List.getElem?_replicate]
  grind

theorem length_resize (drivers : ValueDrivers) (index : Nat) :
    (resize drivers index).length = max drivers.length (index + 1) := by
  simp only [resize, List.length_append, List.length_replicate]
  omega

theorem driverMap_congr (tracker : ValueTracker) (drivers : ValueDrivers)
    (same : other.id = symbol.id) :
    tracker.driverMap drivers other = tracker.driverMap drivers symbol := by
  simp only [driverMap, getSlot_congr tracker same]

/-- The map that a call updates is the map of the symbol. -/
theorem resize_slotFor (fits : tracker.Fits drivers) (symbol : ValueSymbol) :
    (resize drivers (tracker.slotFor symbol).1)[(tracker.slotFor symbol).1]?.getD
      ({} : DriverMap) =
      tracker.driverMap drivers symbol := by
  rw [getElem?_resize]
  unfold slotFor driverMap
  split
  · simp
  · have outside : drivers[tracker.slotToValue.length]? = none :=
      List.getElem?_eq_none fits
    simp [outside]

/-- A call updates the map of its symbol and no other. -/
theorem addDrivers_spec (fits : tracker.Fits drivers) (symbol : ValueSymbol)
    (bounds : DriverBitRange) (driverList : DriverList) (merge : Bool) {map : DriverMap}
    (added : (tracker.driverMap drivers symbol).addDrivers bounds driverList merge = some map) :
    ∃ nextTracker nextDrivers,
      tracker.addDrivers drivers symbol bounds driverList merge =
        some (nextTracker, nextDrivers) ∧
      nextTracker.Fits nextDrivers ∧
      ∀ other, nextTracker.driverMap nextDrivers other =
        if other.id = symbol.id then map else tracker.driverMap drivers other := by
  have slot := getSlot_slotFor tracker symbol
  have inside := getSlot_lt slot
  have resized : (tracker.slotFor symbol).1 <
      (resize drivers (tracker.slotFor symbol).1).length := by
    rw [length_resize]
    omega
  refine ⟨(tracker.slotFor symbol).2,
    (resize drivers (tracker.slotFor symbol).1).set (tracker.slotFor symbol).1 map, ?_, ?_, ?_⟩
  · simp only [addDrivers, resize_slotFor fits, added, Option.bind_eq_bind, Option.bind_some]
  · have grown : tracker.slotToValue.length ≤
        (tracker.slotFor symbol).2.slotToValue.length := by
      unfold slotFor
      split <;> simp
    simp only [Fits, List.length_set, length_resize] at *
    omega
  · intro other
    split
    · next same =>
        simp only [driverMap, getSlot_congr _ same, slot, List.getElem?_set, resized]
        simp
    · next ne =>
        simp only [driverMap, getSlot_slotFor_of_ne tracker ne]
        cases otherSlot : tracker.getSlot other with
        | none => rfl
        | some index =>
            have differs : (tracker.slotFor symbol).1 ≠ index := by
              intro same
              rw [← getSlot_slotFor_of_ne tracker ne] at otherSlot
              exact ne (id_eq_of_getSlot otherSlot (same ▸ slot))
            simp only [List.getElem?_set_ne differs]
            exact getElem?_resize drivers _ _

end Slots

end ValueTracker

end SlangNetlist
