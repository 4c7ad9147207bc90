import SlangNetlist.Tracking.DriverMap

/-!
# Adding drivers to a driver map

The body of `ValueTracker::addDrivers` for the map of one symbol.  The loop
examines the first interval that overlaps the bounds, splits or replaces it,
and either stops or searches again from adjusted bounds.  Each overlap case is
one definition; `none` is a failed assertion on a handle.
-/

namespace SlangNetlist

open Library

/-- How an existing interval lies against the new bounds, in the order in which the loop tests. -/
inductive OverlapCase where
  | matching
  | containsNew
  | insideNew
  | leftOverlap
  | rightOverlap
  | skip
  deriving DecidableEq, Repr

/-- The first test of the loop body that the interval passes. -/
def overlapCase (entry : Interval Nat) (bounds : DriverBitRange) : OverlapCase :=
  if entry.first = bounds.left ∧ entry.second = bounds.right then .matching
  else if entry.first ≤ bounds.lower ∧ bounds.upper ≤ entry.second then .containsNew
  else if bounds.lower ≤ entry.first ∧ entry.second ≤ bounds.upper then .insideNew
  else if entry.first ≤ bounds.lower ∧ entry.second ≥ bounds.lower then .leftOverlap
  else if entry.first ≤ bounds.upper ∧ entry.second ≥ bounds.upper then .rightOverlap
  else .skip

namespace DriverMap

/-- Matching intervals: add to, or replace, the drivers of the existing entry. -/
def updateMatching (map : DriverMap) (entry : Interval Nat) (driverList : DriverList)
    (merge : Bool) : Option DriverMap :=
  if merge then map.extendDriverList entry.value driverList
  else map.replaceDriverList entry.value driverList

/-- A new list holding the drivers of an existing handle and the new drivers. -/
def addMergedList (map : DriverMap) (existingHandle : Nat) (driverList : DriverList) :
    Option (Nat × DriverMap) := do
  let existingDrivers ← map.getDriverList existingHandle
  let (newHandle, map) := map.addDriverList existingDrivers
  let map ← map.extendDriverList newHandle driverList
  some (newHandle, map)

/-- The list for a split-off part: merged with the existing drivers, or the new drivers alone. -/
def addPartList (map : DriverMap) (existingHandle : Nat) (driverList : DriverList)
    (merge : Bool) : Option (Nat × DriverMap) :=
  if merge then map.addMergedList existingHandle driverList
  else some (map.addDriverList driverList)

/-- Put back the parts of an erased entry to the left and to the right of the bounds. -/
def insertOldParts (map : DriverMap) (entry : Interval Nat) (bounds : DriverBitRange) :
    DriverMap :=
  let map :=
    if entry.first < bounds.lower then
      map.insert ⟨entry.first, bounds.lower - 1⟩ entry.value
    else map
  if entry.second > bounds.upper then
    map.insert ⟨bounds.upper + 1, entry.second⟩ entry.value
  else map

/-- Split an entry that contains the new bounds into a left, a right and a middle part. -/
def splitContaining (map : DriverMap) (entry : Interval Nat) (bounds : DriverBitRange)
    (driverList : DriverList) (merge : Bool) : Option DriverMap := do
  let map := (map.eraseInterval entry).insertOldParts entry bounds
  let (newHandle, map) ← map.addPartList entry.value driverList merge
  some (map.insert bounds newHandle)

/-- Drop an entry inside the new bounds, and its list unless it was freed already. -/
def dropInside (map : DriverMap) (entry : Interval Nat) : Option DriverMap :=
  let map := map.eraseInterval entry
  if map.validHandle entry.value then map.eraseList entry.value else some map

/-- Merge into an entry inside the new bounds, and insert the part of the bounds before it. -/
def mergeInside (map : DriverMap) (entry : Interval Nat) (bounds : DriverBitRange)
    (driverList : DriverList) : Option DriverMap := do
  let map ← map.extendDriverList entry.value driverList
  if entry.first > bounds.lower then
    let (newHandle, map) := map.addDriverList driverList
    some (map.insert ⟨bounds.lower, entry.first - 1⟩ newHandle)
  else some map

/-- Split an entry that overlaps the bounds on the left into an old and a common part. -/
def splitLeft (map : DriverMap) (entry : Interval Nat) (bounds : DriverBitRange)
    (driverList : DriverList) (merge : Bool) : Option DriverMap := do
  let map := map.eraseInterval entry
  guard (entry.first < bounds.lower)
  let map := map.insert ⟨entry.first, bounds.lower - 1⟩ entry.value
  let (newHandle, map) ← map.addPartList entry.value driverList merge
  some (map.insert ⟨bounds.lower, entry.second⟩ newHandle)

/-- The new drivers up to the entry, and in merge mode the common part with both. -/
def insertNewParts (map : DriverMap) (entry : Interval Nat) (bounds : DriverBitRange)
    (driverList : DriverList) (merge : Bool) : Option DriverMap := do
  let (leftHandle, map) := map.addDriverList driverList
  if merge then
    let map := map.insert ⟨bounds.lower, entry.first - 1⟩ leftHandle
    let (middleHandle, map) ← map.addMergedList entry.value driverList
    some (map.insert ⟨entry.first, bounds.upper⟩ middleHandle)
  else some (map.insert bounds leftHandle)

/-- Split an entry that overlaps the bounds on the right; the loop ends here. -/
def splitRight (map : DriverMap) (entry : Interval Nat) (bounds : DriverBitRange)
    (driverList : DriverList) (merge : Bool) : Option DriverMap := do
  let map := map.eraseInterval entry
  let map ← map.insertNewParts entry bounds driverList merge
  guard (entry.second > bounds.upper)
  some (map.insert ⟨bounds.upper + 1, entry.second⟩ entry.value)

/-- Insert the new interval, or what remains of it. -/
def insertRemaining (map : DriverMap) (bounds : DriverBitRange) (driverList : DriverList) :
    DriverMap :=
  let (newHandle, map) := map.addDriverList driverList
  map.insert bounds newHandle

/-- The next interval that the loop acts on; intervals that pass no test are skipped. -/
def nextOverlap (map : DriverMap) (bounds : DriverBitRange) : Option (Interval Nat) :=
  (map.find bounds).find? fun entry => overlapCase entry bounds ≠ .skip

theorem nextOverlap_mem {map : DriverMap} {bounds : DriverBitRange} {entry : Interval Nat}
    (next : map.nextOverlap bounds = some entry) : entry ∈ map.find bounds :=
  List.mem_of_find?_eq_some next

theorem nextOverlap_entry {map : DriverMap} {bounds : DriverBitRange} {entry : Interval Nat}
    (next : map.nextOverlap bounds = some entry) : entry ∈ map.driverIntervals.entries :=
  (IntervalMap.mem_find.mp (nextOverlap_mem next)).1

/-! ## What a case does if it succeeds -/

section Succeeds

variable {map result : DriverMap} {entry : Interval Nat} {bounds : DriverBitRange}
  {driverList : DriverList} {merge : Bool} {handle : Nat} {added : Nat × DriverMap}

theorem extendDriverList_eq_some : map.extendDriverList handle driverList = some result ↔
    ∃ existing, map.getDriverList handle = some existing ∧
      map.setDriverList handle (existing.insertAll driverList) = result := by
  simp only [extendDriverList, Option.bind_eq_bind, Option.bind_eq_some_iff, Option.some.injEq]

theorem replaceDriverList_eq_some : map.replaceDriverList handle driverList = some result ↔
    ∃ existing, map.getDriverList handle = some existing ∧
      map.setDriverList handle (DriverList.insertAll [] driverList) = result := by
  simp only [replaceDriverList, Option.bind_eq_bind, Option.bind_eq_some_iff, Option.some.injEq]

theorem addMergedList_eq_some : map.addMergedList handle driverList = some added ↔
    ∃ existing extended, map.getDriverList handle = some existing ∧
      (map.addDriverList existing).2.extendDriverList (map.addDriverList existing).1 driverList =
        some extended ∧
      ((map.addDriverList existing).1, extended) = added := by
  simp only [addMergedList, Option.bind_eq_bind, Option.bind_eq_some_iff, Option.some.injEq,
    exists_and_left]

theorem addPartList_cases (adds : map.addPartList handle driverList merge = some added) :
    (merge = true ∧ map.addMergedList handle driverList = some added) ∨
      (merge = false ∧ map.addDriverList driverList = added) := by
  cases merge with
  | true => exact Or.inl ⟨rfl, adds⟩
  | false => exact Or.inr ⟨rfl, Option.some.inj adds⟩

theorem updateMatching_cases
    (updated : map.updateMatching entry driverList merge = some result) :
    (merge = true ∧ map.extendDriverList entry.value driverList = some result) ∨
      (merge = false ∧ map.setDriverList entry.value (DriverList.insertAll [] driverList) =
        result) := by
  cases merge with
  | true => exact Or.inl ⟨rfl, updated⟩
  | false =>
      obtain ⟨_, _, same⟩ := replaceDriverList_eq_some.mp updated
      exact Or.inr ⟨rfl, same⟩

theorem splitContaining_eq_some :
    map.splitContaining entry bounds driverList merge = some result ↔
      ∃ added, ((map.eraseInterval entry).insertOldParts entry bounds).addPartList entry.value
        driverList merge = some added ∧ added.2.insert bounds added.1 = result := by
  simp only [splitContaining, Option.bind_eq_bind, Option.bind_eq_some_iff, Option.some.injEq]

theorem dropInside_cases (dropped : map.dropInside entry = some result) :
    (∃ lists, map.driverLists.erase entry.value = some lists ∧
      { map.eraseInterval entry with driverLists := lists } = result) ∨
    map.eraseInterval entry = result := by
  simp only [dropInside] at dropped
  split at dropped
  · simp only [eraseList, Option.bind_eq_bind, Option.bind_eq_some_iff, Option.some.injEq]
      at dropped
    exact Or.inl dropped
  · exact Or.inr (Option.some.inj dropped)

theorem mergeInside_cases (merged : map.mergeInside entry bounds driverList = some result) :
    ∃ extended, map.extendDriverList entry.value driverList = some extended ∧
      ((bounds.lower < entry.first ∧ (extended.addDriverList driverList).2.insert
          ⟨bounds.lower, entry.first - 1⟩ (extended.addDriverList driverList).1 = result) ∨
        (entry.first ≤ bounds.lower ∧ extended = result)) := by
  simp only [mergeInside, Option.bind_eq_bind, Option.bind_eq_some_iff] at merged
  obtain ⟨extended, extends_, rest⟩ := merged
  split at rest
  · next gap => exact ⟨extended, extends_, Or.inl ⟨gap, Option.some.inj rest⟩⟩
  · next noGap => exact ⟨extended, extends_, Or.inr ⟨not_lt.mp noGap, Option.some.inj rest⟩⟩

theorem splitLeft_cases (splits : map.splitLeft entry bounds driverList merge = some result) :
    ∃ added, ((map.eraseInterval entry).insert ⟨entry.first, bounds.lower - 1⟩
        entry.value).addPartList entry.value driverList merge = some added ∧
      added.2.insert ⟨bounds.lower, entry.second⟩ added.1 = result := by
  simp only [splitLeft, Option.bind_eq_bind, Option.bind_eq_some_iff, Option.some.injEq]
    at splits
  obtain ⟨_, _, added, adds, same⟩ := splits
  exact ⟨added, adds, same⟩

theorem insertNewParts_cases
    (inserts : map.insertNewParts entry bounds driverList merge = some result) :
    (merge = true ∧ ∃ added, ((map.addDriverList driverList).2.insert
        ⟨bounds.lower, entry.first - 1⟩ (map.addDriverList driverList).1).addMergedList
          entry.value driverList = some added ∧
      added.2.insert ⟨entry.first, bounds.upper⟩ added.1 = result) ∨
    (merge = false ∧
      (map.addDriverList driverList).2.insert bounds (map.addDriverList driverList).1 =
        result) := by
  cases merge with
  | true =>
      simp only [insertNewParts, if_true, Option.bind_eq_bind, Option.bind_eq_some_iff,
        Option.some.injEq] at inserts
      exact Or.inl ⟨rfl, inserts⟩
  | false => exact Or.inr ⟨rfl, Option.some.inj inserts⟩

theorem splitRight_cases (splits : map.splitRight entry bounds driverList merge = some result) :
    ∃ middle, (map.eraseInterval entry).insertNewParts entry bounds driverList merge =
        some middle ∧
      middle.insert ⟨bounds.upper + 1, entry.second⟩ entry.value = result := by
  simp only [splitRight, Option.bind_eq_bind, Option.bind_eq_some_iff, Option.some.injEq]
    at splits
  obtain ⟨middle, inserts, _, _, same⟩ := splits
  exact ⟨middle, inserts, same⟩

end Succeeds

/-- Number of stored intervals. -/
def size (map : DriverMap) : Nat := map.driverIntervals.entries.length

section Size

variable {map result : DriverMap} {entry : Interval Nat} {bounds : DriverBitRange}
  {driverList : DriverList}

@[simp] theorem size_insert (map : DriverMap) (bounds : DriverBitRange) (handle : Nat) :
    (map.insert bounds handle).size = map.size + 1 := by
  simp [size, insert]

@[simp] theorem size_addDriverList (map : DriverMap) (list : DriverList) :
    (map.addDriverList list).2.size = map.size := rfl

theorem size_eraseInterval (entryMem : entry ∈ map.driverIntervals.entries) :
    (map.eraseInterval entry).size + 1 = map.size := by
  have := List.length_pos_of_mem entryMem
  simp only [size, eraseInterval, IntervalMap.erase, List.length_erase_of_mem entryMem]
  omega

theorem size_extendDriverList {handle : Nat}
    (extended : map.extendDriverList handle driverList = some result) :
    result.size = map.size := by
  obtain ⟨_, _, rfl⟩ := extendDriverList_eq_some.mp extended
  rfl

theorem size_addPartList {existingHandle newHandle : Nat} {merge : Bool}
    (added : map.addPartList existingHandle driverList merge = some (newHandle, result)) :
    result.size = map.size := by
  rcases addPartList_cases added with ⟨_, merged⟩ | ⟨_, same⟩
  · obtain ⟨_, extended, _, extends_, same⟩ := addMergedList_eq_some.mp merged
    cases same
    rw [size_extendDriverList extends_, size_addDriverList]
  · cases same
    rfl

theorem size_dropInside (entryMem : entry ∈ map.driverIntervals.entries)
    (dropped : map.dropInside entry = some result) : result.size + 1 = map.size := by
  have erased := size_eraseInterval entryMem
  rcases dropInside_cases dropped with ⟨_, _, rfl⟩ | rfl
  · exact erased
  · exact erased

theorem size_mergeInside (merged : map.mergeInside entry bounds driverList = some result) :
    result.size ≤ map.size + 1 := by
  obtain ⟨extended, extends_, ⟨_, rfl⟩ | ⟨_, rfl⟩⟩ := mergeInside_cases merged
  · rw [size_insert, size_addDriverList, size_extendDriverList extends_]
  · rw [size_extendDriverList extends_]
    exact Nat.le_succ _

theorem size_splitLeft {merge : Bool} (entryMem : entry ∈ map.driverIntervals.entries)
    (split : map.splitLeft entry bounds driverList merge = some result) :
    result.size = map.size + 1 := by
  obtain ⟨added, adds, rfl⟩ := splitLeft_cases split
  rw [size_insert, size_addPartList adds, size_insert, size_eraseInterval entryMem]

end Size

/-- Bits still to be covered and intervals still stored; every further search lowers it. -/
def workLeft (map : DriverMap) (bounds : DriverBitRange) : Nat :=
  2 * (bounds.upper - bounds.lower + 1).toNat + map.size

/-- The bounds behind an overlapping entry hold fewer bits. -/
theorem workLeft_behind {map result : DriverMap} {entry : Interval Nat}
    {bounds : DriverBitRange} (next : map.nextOverlap bounds = some entry)
    (remaining : entry.second + 1 ≤ bounds.upper) (grown : result.size ≤ map.size + 1) :
    result.workLeft ⟨entry.second + 1, bounds.upper⟩ < map.workLeft bounds := by
  have overlaps := (IntervalMap.mem_find.mp (nextOverlap_mem next)).2
  simp only [Interval.Overlaps] at overlaps
  simp only [workLeft, DriverBitRange.lower_mk remaining, DriverBitRange.upper_mk remaining]
  omega

/-- The loop over the overlapping intervals. -/
def addDriversLoop (driverList : DriverList) (merge : Bool) (map : DriverMap)
    (bounds : DriverBitRange) : Option DriverMap :=
  match _next : map.nextOverlap bounds with
  | none => some (map.insertRemaining bounds driverList)
  | some entry =>
      match overlapCase entry bounds with
      | .matching => map.updateMatching entry driverList merge
      | .containsNew => map.splitContaining entry bounds driverList merge
      | .insideNew =>
          if merge then
            match merged : map.mergeInside entry bounds driverList with
            | none => none
            | some map =>
                -- Adjust the bounds to continue behind the entry, unless they are used up.
                if remaining : entry.second + 1 > bounds.upper then some map
                else addDriversLoop driverList merge map ⟨entry.second + 1, bounds.upper⟩
          else
            match _dropped : map.dropInside entry with
            | none => none
            | some map => addDriversLoop driverList merge map bounds
      | .leftOverlap =>
          match splits : map.splitLeft entry bounds driverList merge with
          | none => none
          | some map =>
              if remaining : entry.second + 1 > bounds.upper then some map
              else addDriversLoop driverList merge map ⟨entry.second + 1, bounds.upper⟩
      | .rightOverlap => map.splitRight entry bounds driverList merge
      | .skip => none
termination_by map.workLeft bounds
decreasing_by
  · exact workLeft_behind _next (by omega) (size_mergeInside merged)
  · have shrunk := size_dropInside (IntervalMap.mem_find.mp (nextOverlap_mem _next)).1 _dropped
    simp only [workLeft]
    omega
  · refine workLeft_behind _next (by omega) ?_
    rw [size_splitLeft (IntervalMap.mem_find.mp (nextOverlap_mem _next)).1 splits]

/-- `addDrivers` on the map of one symbol: normalise the bounds and run the loop. -/
def addDrivers (map : DriverMap) (bounds : DriverBitRange) (driverList : DriverList)
    (merge : Bool) : Option DriverMap :=
  addDriversLoop driverList merge map bounds.normalize

end DriverMap

end SlangNetlist
