import SlangNetlist.Tracking.AddDrivers

/-!
# The driver map invariant

A driver map is well formed when its intervals are ordered and disjoint, its
free list is exact and every interval holds a live handle.  The meaning of a
map is the relation `Drives` between bits and driving nodes.  This module gives
one lemma for the effect of each primitive operation on both.
-/

namespace SlangNetlist

open Library

namespace DriverMap

/-- The handle of the interval names a list. -/
def Live (map : DriverMap) (entry : Interval Nat) : Prop :=
  ∃ list, map.getDriverList entry.value = some list

/-- Disjoint ordered intervals, an exact free list, and live handles. -/
structure WellFormed (map : DriverMap) : Prop where
  ordered : map.driverIntervals.Ordered
  lists : map.driverLists.WellFormed
  live : ∀ entry ∈ map.driverIntervals.entries, map.Live entry

/-- The node is in the list of an interval that contains the bit. -/
def Drives (map : DriverMap) (bit : Int) (node : Option NodeRef) : Prop :=
  ∃ entry ∈ map.driverIntervals.entries, entry.Covers bit ∧
    ∃ list, map.getDriverList entry.value = some list ∧ node ∈ list.nodes

theorem wellFormed_empty : ({} : DriverMap).WellFormed :=
  ⟨IntervalMap.ordered_nil, ExternalManager.wellFormed_empty, by simp [IntervalMap.nil]⟩

@[simp] theorem not_drives_empty (bit : Int) (node : Option NodeRef) :
    ¬ ({} : DriverMap).Drives bit node := by
  simp [Drives, IntervalMap.nil]

/-- On ordered intervals the driver set of a bit is what `Drives` relates to it. -/
theorem mem_driversAt {map : DriverMap} (ordered : map.driverIntervals.Ordered)
    {bit : Int} {node : Option NodeRef} :
    node ∈ map.driversAt bit ↔ map.Drives bit node := by
  unfold driversAt listAt Drives
  cases found : map.driverIntervals.entries.find? (fun entry => entry.Covers bit) with
  | none =>
      have uncovered := List.find?_eq_none.mp found
      simp only [Option.bind_eq_bind, Option.bind_none, Option.getD_none,
        DriverList.nodes_nil, Finset.notMem_empty, false_iff]
      rintro ⟨entry, entryMem, covers, _⟩
      simpa [covers] using uncovered entry entryMem
  | some entry =>
      have entryMem := List.mem_of_find?_eq_some found
      have covers : entry.Covers bit := by simpa using List.find?_some found
      simp only [Option.bind_eq_bind, Option.bind_some]
      constructor
      · intro member
        cases listed : map.getDriverList entry.value with
        | none => simp [listed] at member
        | some list => exact ⟨entry, entryMem, covers, list, listed, by simpa [listed] using member⟩
      · rintro ⟨other, otherMem, otherCovers, list, listed, member⟩
        cases ordered.unique entryMem otherMem covers otherCovers
        simpa [listed] using member

/-- The map with one definition. -/
def single (first last : Int) (list : DriverList) : DriverMap where
  driverIntervals := ⟨[⟨first, last, 0⟩]⟩
  driverLists := { slots := [some list] }

section Single

variable {first last bit : Int} {list : DriverList} {node : Option NodeRef}

theorem wellFormed_single (proper : first ≤ last) : (single first last list).WellFormed where
  ordered := ⟨List.pairwise_singleton _ _, by simpa [single] using proper⟩
  lists := ExternalManager.wellFormed_empty.allocate list
  live entry member := by
    obtain rfl := List.mem_singleton.mp member
    exact ⟨list, rfl⟩

theorem mem_driversAt_single (proper : first ≤ last) :
    node ∈ (single first last list).driversAt bit ↔
      (first ≤ bit ∧ bit ≤ last) ∧ node ∈ list.nodes := by
  rw [mem_driversAt (wellFormed_single proper).ordered]
  constructor
  · rintro ⟨entry, member, covers, found, listed, driven⟩
    obtain rfl := List.mem_singleton.mp member
    cases listed
    exact ⟨covers, driven⟩
  · rintro ⟨inside, driven⟩
    exact ⟨⟨first, last, 0⟩, List.mem_singleton_self _, inside, list, rfl, driven⟩

end Single

/-- Stored intervals are disjoint and ascending, and their handles are live and not free. -/
def Intact (map : DriverMap) : Prop :=
  (∀ left ∈ map.driverIntervals.entries, ∀ right ∈ map.driverIntervals.entries,
    left ≠ right → left.Apart right) ∧
  ∀ entry ∈ map.driverIntervals.entries, entry.first ≤ entry.second ∧
    (∃ list, map.getDriverList entry.value = some list) ∧
    entry.value ∉ map.driverLists.freeList

theorem WellFormed.intact {map : DriverMap} (wellFormed : map.WellFormed) : map.Intact := by
  refine ⟨fun left leftMem right rightMem ne => wellFormed.ordered.apart leftMem rightMem ne,
    fun entry entryMem => ?_⟩
  obtain ⟨list, listed⟩ := wellFormed.live entry entryMem
  refine ⟨wellFormed.ordered.proper entry entryMem, ⟨list, listed⟩, fun free => ?_⟩
  have empty := ((wellFormed.lists.mem_freeList entry.value).mp free).2
  rw [show map.driverLists.get entry.value = some list from listed] at empty
  cases empty

/-! ## Intervals -/

section Intervals

variable {map : DriverMap} {bit : Int} {node : Option NodeRef}

@[simp] theorem getDriverList_insert (map : DriverMap) (bounds : DriverBitRange)
    (handle other : Nat) :
    (map.insert bounds handle).getDriverList other = map.getDriverList other := rfl

@[simp] theorem getDriverList_eraseInterval (map : DriverMap) (entry : Interval Nat)
    (handle : Nat) :
    (map.eraseInterval entry).getDriverList handle = map.getDriverList handle := rfl

@[simp] theorem live_insert {bounds : DriverBitRange} {handle : Nat} {entry : Interval Nat} :
    (map.insert bounds handle).Live entry ↔ map.Live entry := Iff.rfl

@[simp] theorem live_eraseInterval {erased entry : Interval Nat} :
    (map.eraseInterval erased).Live entry ↔ map.Live entry := Iff.rfl

@[simp] theorem mem_insert {bounds : DriverBitRange} {handle : Nat} {entry : Interval Nat} :
    entry ∈ (map.insert bounds handle).driverIntervals.entries ↔
      entry = ⟨bounds.lower, bounds.upper, handle⟩ ∨ entry ∈ map.driverIntervals.entries :=
  IntervalMap.mem_insert

/-- A new interval adds the drivers of its list to the bits of its bounds. -/
theorem drives_insert {bounds : DriverBitRange} {handle : Nat} {list : DriverList}
    (listed : map.getDriverList handle = some list) :
    (map.insert bounds handle).Drives bit node ↔
      (bit ∈ bounds ∧ node ∈ list.nodes) ∨ map.Drives bit node := by
  unfold Drives
  simp only [mem_insert, getDriverList_insert]
  constructor
  · rintro ⟨entry, rfl | entryMem, covers, found, foundEq, member⟩
    · rw [listed] at foundEq
      cases foundEq
      exact Or.inl ⟨covers, member⟩
    · exact Or.inr ⟨entry, entryMem, covers, found, foundEq, member⟩
  · rintro (⟨covers, member⟩ | ⟨entry, entryMem, covers, found⟩)
    · exact ⟨_, Or.inl rfl, covers, list, listed, member⟩
    · exact ⟨entry, Or.inr entryMem, covers, found⟩

/-- Erasing an interval leaves its bits without drivers. -/
theorem drives_eraseInterval (ordered : map.driverIntervals.Ordered) {entry : Interval Nat}
    (entryMem : entry ∈ map.driverIntervals.entries) :
    (map.eraseInterval entry).Drives bit node ↔
      ¬ entry.Covers bit ∧ map.Drives bit node := by
  unfold Drives eraseInterval
  simp only [ordered.mem_erase]
  constructor
  · rintro ⟨other, ⟨ne, otherMem⟩, covers, found⟩
    refine ⟨fun entryCovers => ne ?_, other, otherMem, covers, found⟩
    exact ordered.unique otherMem entryMem covers entryCovers
  · rintro ⟨uncovered, other, otherMem, covers, found⟩
    refine ⟨other, ⟨?_, otherMem⟩, covers, found⟩
    rintro rfl
    exact uncovered covers

/-- `drives_insert` for ascending bounds. -/
theorem drives_insert_mk {low high : Int} (proper : low ≤ high) {handle : Nat}
    {list : DriverList} (listed : map.getDriverList handle = some list) :
    (map.insert ⟨low, high⟩ handle).Drives bit node ↔
      (low ≤ bit ∧ bit ≤ high ∧ node ∈ list.nodes) ∨ map.Drives bit node := by
  rw [drives_insert listed, DriverBitRange.mem_iff, DriverBitRange.lower_mk proper,
    DriverBitRange.upper_mk proper, and_assoc]

theorem mem_insert_mk {low high : Int} (proper : low ≤ high) {handle : Nat}
    {entry : Interval Nat} :
    entry ∈ (map.insert ⟨low, high⟩ handle).driverIntervals.entries ↔
      entry = ⟨low, high, handle⟩ ∨ entry ∈ map.driverIntervals.entries := by
  rw [mem_insert, DriverBitRange.lower_mk proper, DriverBitRange.upper_mk proper]

/-- The bits of an entry are driven by the list of its handle. -/
theorem drives_of_covers (ordered : map.driverIntervals.Ordered) {entry : Interval Nat}
    (entryMem : entry ∈ map.driverIntervals.entries) {list : DriverList}
    (listed : map.getDriverList entry.value = some list) (covers : entry.Covers bit) :
    map.Drives bit node ↔ node ∈ list.nodes := by
  constructor
  · rintro ⟨other, otherMem, otherCovers, found, foundEq, member⟩
    cases ordered.unique otherMem entryMem otherCovers covers
    rw [listed] at foundEq
    cases foundEq
    exact member
  · exact fun member => ⟨entry, entryMem, covers, list, listed, member⟩

theorem WellFormed.insert (wellFormed : map.WellFormed) {bounds : DriverBitRange} {handle : Nat}
    (live : ∃ list, map.getDriverList handle = some list)
    (apart : ∀ entry ∈ map.driverIntervals.entries,
      entry.second < bounds.lower ∨ bounds.upper < entry.first) :
    (map.insert bounds handle).WellFormed := by
  refine ⟨wellFormed.ordered.insert handle bounds.lower_le_upper apart, wellFormed.lists, ?_⟩
  intro entry entryMem
  rcases mem_insert.mp entryMem with rfl | entryMem
  · exact live
  · exact wellFormed.live entry entryMem

theorem WellFormed.insert_mk (wellFormed : map.WellFormed) {low high : Int}
    (proper : low ≤ high) {handle : Nat} (live : ∃ list, map.getDriverList handle = some list)
    (apart : ∀ entry ∈ map.driverIntervals.entries, entry.second < low ∨ high < entry.first) :
    (map.insert ⟨low, high⟩ handle).WellFormed := by
  refine wellFormed.insert live fun entry entryMem => ?_
  rw [DriverBitRange.lower_mk proper, DriverBitRange.upper_mk proper]
  exact apart entry entryMem

theorem WellFormed.eraseInterval (wellFormed : map.WellFormed) (entry : Interval Nat) :
    (map.eraseInterval entry).WellFormed :=
  ⟨wellFormed.ordered.erase entry, wellFormed.lists,
    fun other otherMem => wellFormed.live other (List.mem_of_mem_erase otherMem)⟩

end Intervals

/-! ## Lists -/

/-- `result` differs from `map` by one list in a slot that was not live. -/
structure Allocates (map result : DriverMap) (handle : Nat) (list : DriverList) : Prop where
  intervals : result.driverIntervals = map.driverIntervals
  lists : result.driverLists.WellFormed
  fresh : map.getDriverList handle = none
  get : ∀ other, result.getDriverList other =
    if other = handle then some list else map.getDriverList other

/-- `result` differs from `map` by the contents of one live list. -/
structure Assigns (map result : DriverMap) (handle : Nat) (list : DriverList) : Prop where
  intervals : result.driverIntervals = map.driverIntervals
  lists : result.driverLists.WellFormed
  get : ∀ other, result.getDriverList other =
    if other = handle then some list else map.getDriverList other

section Lists

variable {map result : DriverMap} {handle : Nat} {list driverList : DriverList}

theorem addDriverList_allocates (lists : map.driverLists.WellFormed) (list : DriverList) :
    map.Allocates (map.addDriverList list).2 (map.addDriverList list).1 list :=
  ⟨rfl, lists.allocate list, lists.allocate_fresh list, lists.get_allocate list⟩

theorem extendDriverList_assigns (lists : map.driverLists.WellFormed)
    (listed : map.getDriverList handle = some list) (driverList : DriverList) :
    ∃ result, map.extendDriverList handle driverList = some result ∧
      map.Assigns result handle (list.insertAll driverList) := by
  refine ⟨map.setDriverList handle (list.insertAll driverList), ?_, rfl, ?_, ?_⟩
  · simp [extendDriverList, listed]
  · exact lists.assign listed _
  · exact ExternalManager.get_assign listed _

theorem replaceDriverList_assigns (lists : map.driverLists.WellFormed)
    (listed : map.getDriverList handle = some list) (driverList : DriverList) :
    ∃ result, map.replaceDriverList handle driverList = some result ∧
      map.Assigns result handle (DriverList.insertAll [] driverList) := by
  refine ⟨map.setDriverList handle (DriverList.insertAll [] driverList), ?_, rfl, ?_, ?_⟩
  · simp [replaceDriverList, listed]
  · exact lists.assign listed _
  · exact ExternalManager.get_assign listed _

/-- The part list holds the new drivers, and in merge mode the existing ones too. -/
theorem addPartList_allocates (lists : map.driverLists.WellFormed)
    (listed : map.getDriverList handle = some list) (driverList : DriverList) (merge : Bool) :
    ∃ newHandle result newList,
      map.addPartList handle driverList merge = some (newHandle, result) ∧
      map.Allocates result newHandle newList ∧
      newList.nodes = if merge then list.nodes ∪ driverList.nodes else driverList.nodes := by
  have copied := addDriverList_allocates lists list
  cases merge with
  | false =>
      exact ⟨_, _, driverList, rfl, addDriverList_allocates lists driverList, by simp⟩
  | true =>
      have listedCopy : (map.addDriverList list).2.getDriverList (map.addDriverList list).1 =
          some list := by rw [copied.get, if_pos rfl]
      obtain ⟨result, extended, assigned⟩ :=
        extendDriverList_assigns copied.lists listedCopy driverList
      refine ⟨(map.addDriverList list).1, result, list.insertAll driverList, ?_, ?_, by simp⟩
      · simp only [addPartList, if_true, addMergedList, listed, Option.bind_eq_bind,
          Option.bind_some]
        rw [extended]
        rfl
      · refine ⟨assigned.intervals.trans copied.intervals, assigned.lists, copied.fresh, ?_⟩
        intro other
        rw [assigned.get, copied.get]
        split <;> simp_all

namespace Allocates

variable (allocated : map.Allocates result handle list)

include allocated

theorem get_self : result.getDriverList handle = some list := by
  simp [allocated.get]

/-- A live list keeps its contents. -/
theorem get_of_live {other : Nat} {found : DriverList}
    (listed : map.getDriverList other = some found) :
    result.getDriverList other = some found := by
  rw [allocated.get, if_neg, listed]
  rintro rfl
  simp [allocated.fresh] at listed

theorem live {entry : Interval Nat} (old : map.Live entry) : result.Live entry :=
  old.imp fun _ listed => allocated.get_of_live listed

theorem wellFormed (wellFormed : map.WellFormed) : result.WellFormed :=
  ⟨allocated.intervals ▸ wellFormed.ordered, allocated.lists,
    fun entry entryMem => allocated.live
      (wellFormed.live entry (allocated.intervals ▸ entryMem))⟩

/-- Without dead intervals an allocation does not change what drives a bit. -/
theorem drives (live : ∀ entry ∈ map.driverIntervals.entries, map.Live entry)
    {bit : Int} {node : Option NodeRef} : result.Drives bit node ↔ map.Drives bit node := by
  unfold Drives
  rw [allocated.intervals]
  refine exists_congr fun entry => and_congr_right fun entryMem => and_congr_right fun _ => ?_
  obtain ⟨found, listed⟩ := live entry entryMem
  rw [allocated.get_of_live listed, listed]

end Allocates

namespace Assigns

variable (assigned : map.Assigns result handle list)

include assigned

theorem live {entry : Interval Nat} (old : map.Live entry) : result.Live entry := by
  obtain ⟨found, listed⟩ := old
  unfold Live
  rw [assigned.get]
  split
  · exact ⟨list, rfl⟩
  · exact ⟨found, listed⟩

theorem wellFormed (wellFormed : map.WellFormed) : result.WellFormed :=
  ⟨assigned.intervals ▸ wellFormed.ordered, assigned.lists,
    fun entry entryMem => assigned.live
      (wellFormed.live entry (assigned.intervals ▸ entryMem))⟩

/-- An assignment acts on every interval that holds the handle. -/
theorem drives {bit : Int} {node : Option NodeRef} :
    result.Drives bit node ↔ ∃ entry ∈ map.driverIntervals.entries, entry.Covers bit ∧
      if entry.value = handle then node ∈ list.nodes
      else ∃ found, map.getDriverList entry.value = some found ∧ node ∈ found.nodes := by
  unfold Drives
  rw [assigned.intervals]
  refine exists_congr fun entry => and_congr_right fun _ => and_congr_right fun _ => ?_
  rw [assigned.get]
  split <;> simp

end Assigns

end Lists

end DriverMap

end SlangNetlist
