import SlangNetlist.Tracking.ValueTracker

/-!
# The driver lists

Every list that `addDrivers` writes is made of listed drivers and new ones, so
that a property of lists which insertion keeps is kept by all of them.
-/

namespace SlangNetlist

open Library

namespace DriverList

/-- A property of lists that is kept by inserting the drivers of such lists. -/
structure Closed (Good : DriverList → Prop) : Prop where
  inserted : ∀ {list added : DriverList}, Good list → Good added → Good (list.insertAll added)
  replaced : ∀ {added : DriverList}, Good added → Good (DriverList.insertAll [] added)

/-- All nodes of a list have a property. -/
def All (Holds : Option NodeRef → Prop) (list : DriverList) : Prop :=
  ∀ driver ∈ list, Holds driver.node

theorem All.insertAll {Holds : Option NodeRef → Prop} {list added : DriverList}
    (all : list.All Holds) (addedAll : added.All Holds) : (list.insertAll added).All Holds := by
  induction added generalizing list with
  | nil => exact all
  | cons info rest ih =>
      rw [DriverList.insertAll, List.foldl_cons]
      refine ih ?_ fun driver member => addedAll driver (List.mem_cons_of_mem _ member)
      unfold insertInfo
      split
      · exact all
      · intro driver member
        rcases List.mem_append.mp member with old | new
        · exact all driver old
        · rw [List.mem_singleton.mp new]
          exact addedAll info List.mem_cons_self

theorem closed_all (Holds : Option NodeRef → Prop) : Closed (All Holds) :=
  ⟨All.insertAll, All.insertAll fun _ member => absurd member List.not_mem_nil⟩

/-- Some driver of the list is a node. -/
def Driven (list : DriverList) : Prop := ∃ source, some source ∈ list.nodes

theorem closed_driven : Closed Driven := by
  have inserted (list : DriverList) {added : DriverList} :
      added.Driven → (list.insertAll added).Driven := by
    rintro ⟨source, member⟩
    exact ⟨source, by rw [nodes_insertAll]; exact Finset.mem_union_right _ member⟩
  exact ⟨fun _ => inserted _, inserted []⟩

end DriverList

variable {Good : DriverList → Prop}

namespace DriverMap

/-- All lists have a property, also those that no interval names. -/
def Lists (Good : DriverList → Prop) (map : DriverMap) : Prop :=
  ∀ list, some list ∈ map.driverLists.slots → Good list

variable {map result : DriverMap} {entry : Interval Nat} {bounds : DriverBitRange}
  {driverList list : DriverList} {handle : Nat} {merge : Bool}

theorem lists_empty : ({} : DriverMap).Lists Good := by
  intro list member
  cases member

theorem Lists.getDriverList (lists : map.Lists Good)
    (found : map.getDriverList handle = some list) : Good list := by
  refine lists list ?_
  simp only [DriverMap.getDriverList, ExternalManager.get, Option.join_eq_some_iff] at found
  exact List.mem_of_getElem? found

/-! ## The manager -/

theorem Lists.addDriverList (lists : map.Lists Good) (all : Good driverList) :
    (map.addDriverList driverList).2.Lists Good := by
  intro list member
  have slots : some list ∈ (map.driverLists.allocate driverList).2.slots := member
  unfold ExternalManager.allocate at slots
  split at slots
  · rcases List.mem_or_eq_of_mem_set slots with old | new
    · exact lists list old
    · cases new
      exact all
  · rcases List.mem_append.mp slots with old | new
    · exact lists list old
    · cases List.mem_singleton.mp new
      exact all

theorem Lists.setDriverList (lists : map.Lists Good) (all : Good driverList) :
    (map.setDriverList handle driverList).Lists Good := by
  intro list member
  rcases List.mem_or_eq_of_mem_set member with old | new
  · exact lists list old
  · cases new
    exact all

theorem Lists.extendDriverList (lists : map.Lists Good) (all : Good driverList)
    (closed : DriverList.Closed Good)
    (extended : map.extendDriverList handle driverList = some result) : result.Lists Good := by
  obtain ⟨existing, found, rfl⟩ := extendDriverList_eq_some.mp extended
  exact lists.setDriverList (closed.inserted (lists.getDriverList found) all)

theorem Lists.addMergedList {newHandle : Nat} (lists : map.Lists Good) (all : Good driverList)
    (closed : DriverList.Closed Good)
    (added : map.addMergedList handle driverList = some (newHandle, result)) :
    result.Lists Good := by
  obtain ⟨existing, extended, found, extends_, same⟩ := addMergedList_eq_some.mp added
  cases same
  exact (lists.addDriverList (lists.getDriverList found)).extendDriverList all closed extends_

theorem Lists.addPartList {newHandle : Nat} (lists : map.Lists Good) (all : Good driverList)
    (closed : DriverList.Closed Good)
    (added : map.addPartList handle driverList merge = some (newHandle, result)) :
    result.Lists Good := by
  rcases addPartList_cases added with ⟨_, merged⟩ | ⟨_, same⟩
  · exact lists.addMergedList all closed merged
  · cases same
    exact lists.addDriverList all

/-- Freeing a list. -/
theorem Lists.erase (lists : map.Lists Good) {manager : ExternalManager DriverList}
    (freed : map.driverLists.erase handle = some manager) :
    ({ map with driverLists := manager } : DriverMap).Lists Good := by
  unfold ExternalManager.erase at freed
  split at freed
  · cases freed
    intro list member
    rcases List.mem_or_eq_of_mem_set member with old | new
    · exact lists list old
    · cases new
  · cases freed

/-! ## The overlap cases -/

theorem Lists.updateMatching (lists : map.Lists Good) (all : Good driverList)
    (closed : DriverList.Closed Good)
    (updated : map.updateMatching entry driverList merge = some result) : result.Lists Good := by
  rcases updateMatching_cases updated with ⟨_, extended⟩ | ⟨_, rfl⟩
  · exact lists.extendDriverList all closed extended
  · exact lists.setDriverList (closed.replaced all)

theorem Lists.insertOldParts (lists : map.Lists Good) :
    (map.insertOldParts entry bounds).Lists Good := by
  unfold DriverMap.insertOldParts
  split <;> split <;> exact lists

theorem Lists.splitContaining (lists : map.Lists Good) (all : Good driverList)
    (closed : DriverList.Closed Good)
    (splits : map.splitContaining entry bounds driverList merge = some result) :
    result.Lists Good := by
  obtain ⟨⟨newHandle, middle⟩, added, rfl⟩ := splitContaining_eq_some.mp splits
  have erased : (map.eraseInterval entry).Lists Good := lists
  exact (erased.insertOldParts.addPartList all closed added : middle.Lists Good)

theorem Lists.dropInside (lists : map.Lists Good) (dropped : map.dropInside entry = some result) :
    result.Lists Good := by
  rcases dropInside_cases dropped with ⟨_, freed, rfl⟩ | rfl
  · exact (lists.erase freed : DriverMap.Lists Good _)
  · exact lists

theorem Lists.mergeInside (lists : map.Lists Good) (all : Good driverList)
    (closed : DriverList.Closed Good)
    (merged : map.mergeInside entry bounds driverList = some result) : result.Lists Good := by
  obtain ⟨extended, extends_, parts⟩ := mergeInside_cases merged
  have later := lists.extendDriverList all closed extends_
  rcases parts with ⟨_, rfl⟩ | ⟨_, rfl⟩
  · exact later.addDriverList all
  · exact later

theorem Lists.splitLeft (lists : map.Lists Good) (all : Good driverList)
    (closed : DriverList.Closed Good)
    (splits : map.splitLeft entry bounds driverList merge = some result) : result.Lists Good := by
  obtain ⟨⟨newHandle, middle⟩, added, rfl⟩ := splitLeft_cases splits
  have inserted : ((map.eraseInterval entry).insert ⟨entry.first, bounds.lower - 1⟩
    entry.value).Lists Good := lists
  exact (inserted.addPartList all closed added : middle.Lists Good)

theorem Lists.splitRight (lists : map.Lists Good) (all : Good driverList)
    (closed : DriverList.Closed Good)
    (splits : map.splitRight entry bounds driverList merge = some result) : result.Lists Good := by
  obtain ⟨middle, inserted, rfl⟩ := splitRight_cases splits
  have erased : (map.eraseInterval entry).Lists Good := lists
  have added := erased.addDriverList all
  rcases insertNewParts_cases inserted with ⟨_, ⟨middleHandle, merged⟩, adds, rfl⟩ | ⟨_, rfl⟩
  · have left : (((map.eraseInterval entry).addDriverList driverList).2.insert
        ⟨bounds.lower, entry.first - 1⟩
        ((map.eraseInterval entry).addDriverList driverList).1).Lists Good := added
    exact (left.addMergedList all closed adds : merged.Lists Good)
  · exact added

/-- The loop keeps a property of all lists that the new one has. -/
theorem Lists.addDriversLoop (lists : map.Lists Good) (all : Good driverList)
    (closed : DriverList.Closed Good)
    (looped : DriverMap.addDriversLoop driverList merge map bounds = some result) :
    result.Lists Good := by
  fun_induction DriverMap.addDriversLoop driverList merge map bounds with
  | case1 map bounds next =>
      cases looped
      exact lists.addDriverList all
  | case2 map bounds entry next kind => exact lists.updateMatching all closed looped
  | case3 map bounds entry next kind => exact lists.splitContaining all closed looped
  | case4 | case7 | case9 | case13 => cases looped
  | case5 map bounds entry next kind merges middle merged used =>
      cases looped
      exact lists.mergeInside all closed merged
  | case6 map bounds entry next kind merges middle merged remaining ih =>
      exact ih (lists.mergeInside all closed merged) looped
  | case8 map bounds entry next kind replaces middle dropped ih =>
      exact ih (lists.dropInside dropped) looped
  | case10 map bounds entry next kind middle splits used =>
      cases looped
      exact lists.splitLeft all closed splits
  | case11 map bounds entry next kind middle splits remaining ih =>
      exact ih (lists.splitLeft all closed splits) looped
  | case12 map bounds entry next kind => exact lists.splitRight all closed looped

end DriverMap

namespace ValueTracker

variable {tracker next : ValueTracker} {drivers nextDrivers : ValueDrivers}
  {symbol : ValueSymbol} {bounds : DriverBitRange} {driverList : DriverList} {merge : Bool}

/-- A call keeps a property of all lists that the new one has. -/
theorem lists_addDrivers (lists : ∀ map ∈ drivers, map.Lists Good) (all : Good driverList)
    (closed : DriverList.Closed Good)
    (added : tracker.addDrivers drivers symbol bounds driverList merge =
      some (next, nextDrivers)) : ∀ map ∈ nextDrivers, map.Lists Good := by
  simp only [addDrivers, Option.bind_eq_bind, Option.bind_eq_some_iff, Option.some.injEq,
    Prod.mk.injEq] at added
  obtain ⟨map, adds, _, rfl⟩ := added
  have resized : ∀ map ∈ resize drivers (tracker.slotFor symbol).1, map.Lists Good := by
    intro other member
    rcases List.mem_append.mp member with old | new
    · exact lists other old
    · rw [List.eq_of_mem_replicate new]
      exact DriverMap.lists_empty
  intro other member
  rcases List.mem_or_eq_of_mem_set member with old | rfl
  · exact resized other old
  · refine DriverMap.Lists.addDriversLoop ?_ all closed adds
    cases found : (resize drivers (tracker.slotFor symbol).1)[(tracker.slotFor symbol).1]? with
    | none => exact DriverMap.lists_empty
    | some map => exact resized map (List.mem_of_getElem? found)

end ValueTracker

end SlangNetlist
