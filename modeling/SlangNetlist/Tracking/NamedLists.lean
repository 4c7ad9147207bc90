import SlangNetlist.Tracking.Coverage

/-!
# The lists that intervals name

A call of `addDrivers` without merging changes no list: each list that an
interval names afterwards was named before or holds the new drivers alone.
-/

namespace SlangNetlist

open Library

namespace DriverMap

/-- Some interval names the list. -/
def Names (map : DriverMap) (list : DriverList) : Prop :=
  ∃ entry ∈ map.driverIntervals.entries, map.getDriverList entry.value = some list

/-- Every list that the result names is an old one or holds the new drivers alone. -/
def Renews (driverList : DriverList) (map result : DriverMap) : Prop :=
  ∀ list, result.Names list → map.Names list ∨ list.nodes = driverList.nodes

variable {map middle result : DriverMap} {entry : Interval Nat} {bounds : DriverBitRange}
  {driverList list : DriverList} {handle : Nat}

theorem Renews.refl (driverList : DriverList) (map : DriverMap) : map.Renews driverList map :=
  fun _ => Or.inl

theorem Renews.trans (first : Renews driverList map middle)
    (second : Renews driverList middle result) : Renews driverList map result := by
  intro list names
  rcases second list names with old | new
  · exact first list old
  · exact Or.inr new

/-! ## One list or interval -/

theorem getDriverList_addDriverList
    (found : (map.addDriverList driverList).2.getDriverList handle = some list) :
    list = driverList ∨ map.getDriverList handle = some list := by
  simp only [DriverMap.getDriverList, DriverMap.addDriverList, ExternalManager.get,
    ExternalManager.allocate] at found ⊢
  split at found
  · rw [List.getElem?_set] at found
    split_ifs at found with same inside
    · exact Or.inl (Option.some.inj found).symm
    · cases found
    · exact Or.inr found
  · rw [List.getElem?_append] at found
    split_ifs at found with inside
    · exact Or.inr found
    · refine Or.inl ?_
      rw [Option.join_eq_some_iff] at found
      exact Option.some.inj (List.mem_singleton.mp (List.mem_of_getElem? found))

/-- The handle of a new list names it. -/
theorem getDriverList_addDriverList_self
    (found : (map.addDriverList driverList).2.getDriverList (map.addDriverList driverList).1 =
      some list) : list = driverList := by
  simp only [DriverMap.getDriverList, DriverMap.addDriverList, ExternalManager.get,
    ExternalManager.allocate] at found
  cases free : map.driverLists.freeList with
  | nil => simpa [free, eq_comm] using found
  | cons index rest =>
      simp only [free, List.getElem?_set, if_true] at found
      split_ifs at found
      · exact (Option.some.inj found).symm
      · cases found

theorem getDriverList_setDriverList {other : Nat}
    (found : (map.setDriverList handle driverList).getDriverList other = some list) :
    list = driverList ∨ map.getDriverList other = some list := by
  simp only [DriverMap.getDriverList, DriverMap.setDriverList, ExternalManager.get,
    ExternalManager.assign, List.getElem?_set] at found ⊢
  split_ifs at found with same inside
  · exact Or.inl (Option.some.inj found).symm
  · cases found
  · exact Or.inr found

theorem renews_eraseInterval (entry : Interval Nat) :
    Renews driverList map (map.eraseInterval entry) := by
  rintro list ⟨other, member, found⟩
  exact Or.inl ⟨other, List.mem_of_mem_erase member, found⟩

/-- An interval for the new drivers. -/
theorem Renews.insertNew (renews : Renews driverList map middle) (bounds : DriverBitRange) :
    Renews driverList map
      ((middle.addDriverList driverList).2.insert bounds (middle.addDriverList driverList).1) := by
  rintro list ⟨other, member, found⟩
  rw [getDriverList_insert] at found
  rcases mem_insert.mp member with rfl | member
  · rw [getDriverList_addDriverList_self found]
    exact Or.inr rfl
  · rcases getDriverList_addDriverList found with rfl | found
    · exact Or.inr rfl
    · exact renews list ⟨other, member, found⟩

/-- An interval for a part of an old one. -/
theorem Renews.insertOld (renews : Renews driverList map middle) {bounds : DriverBitRange}
    (named : ∀ list, middle.getDriverList handle = some list →
      map.Names list ∨ list.nodes = driverList.nodes) :
    Renews driverList map (middle.insert bounds handle) := by
  rintro list ⟨other, member, found⟩
  rcases mem_insert.mp member with rfl | member
  · exact named list found
  · exact renews list ⟨other, member, found⟩

/-! ## The overlap cases -/

theorem updateMatching_renews
    (updated : map.updateMatching entry driverList false = some result) :
    Renews driverList map result := by
  rcases updateMatching_cases updated with ⟨merges, _⟩ | ⟨_, rfl⟩
  · cases merges
  rintro list ⟨other, member, found⟩
  rcases getDriverList_setDriverList found with rfl | found
  · exact Or.inr (by rw [DriverList.nodes_insertAll, DriverList.nodes_nil, Finset.empty_union])
  · exact Or.inl ⟨other, member, found⟩

theorem splitContaining_renews (entryMem : entry ∈ map.driverIntervals.entries)
    (splits : map.splitContaining entry bounds driverList false = some result) :
    Renews driverList map result := by
  obtain ⟨_, adds, rfl⟩ := splitContaining_eq_some.mp splits
  cases adds
  refine Renews.insertNew ?_ bounds
  have named : ∀ list, map.getDriverList entry.value = some list →
      map.Names list ∨ list.nodes = driverList.nodes :=
    fun list found => Or.inl ⟨entry, entryMem, found⟩
  have erased := @renews_eraseInterval map driverList entry
  unfold insertOldParts
  split <;> split
  · exact (erased.insertOld named).insertOld named
  · exact erased.insertOld named
  · exact erased.insertOld named
  · exact erased

theorem dropInside_renews (dropped : map.dropInside entry = some result) :
    Renews driverList map result := by
  rcases dropInside_cases dropped with ⟨lists, freed, rfl⟩ | rfl
  · rintro list ⟨other, member, found⟩
    have kept := ExternalManager.get_erase freed other.value
    rw [show lists.get other.value = some list from found] at kept
    split_ifs at kept
    exact Or.inl ⟨other, List.mem_of_mem_erase member, kept.symm⟩
  · exact renews_eraseInterval entry

theorem splitLeft_renews (entryMem : entry ∈ map.driverIntervals.entries)
    (splits : map.splitLeft entry bounds driverList false = some result) :
    Renews driverList map result := by
  obtain ⟨_, adds, rfl⟩ := splitLeft_cases splits
  cases adds
  exact Renews.insertNew ((renews_eraseInterval entry).insertOld fun list found =>
    Or.inl ⟨entry, entryMem, found⟩) _

theorem splitRight_renews (entryMem : entry ∈ map.driverIntervals.entries)
    (splits : map.splitRight entry bounds driverList false = some result) :
    Renews driverList map result := by
  obtain ⟨_, inserts, rfl⟩ := splitRight_cases splits
  cases inserts
  refine ((@renews_eraseInterval map driverList entry).insertNew bounds).insertOld
    fun list found => ?_
  rw [getDriverList_insert] at found
  rcases getDriverList_addDriverList found with rfl | found
  · exact Or.inr rfl
  · exact Or.inl ⟨entry, entryMem, found⟩

/-- Without merging the loop changes no list. -/
theorem addDriversLoop_renews
    (looped : addDriversLoop driverList false map bounds = some result) :
    Renews driverList map result := by
  generalize replaces : false = merge at looped
  fun_induction addDriversLoop driverList merge map bounds with
  | case1 map bounds next =>
      cases looped
      exact (Renews.refl driverList map).insertNew bounds
  | case2 map bounds entry next kind =>
      subst replaces
      exact updateMatching_renews looped
  | case3 map bounds entry next kind =>
      subst replaces
      exact splitContaining_renews (nextOverlap_entry next) looped
  | case4 | case7 | case9 | case13 => cases looped
  | case5 | case6 => subst replaces; contradiction
  | case8 map bounds entry next kind _ middle dropped ih =>
      exact (dropInside_renews dropped).trans (ih looped)
  | case10 map bounds entry next kind middle splits =>
      subst replaces
      cases looped
      exact splitLeft_renews (nextOverlap_entry next) splits
  | case11 map bounds entry next kind middle splits remaining ih =>
      subst replaces
      exact (splitLeft_renews (nextOverlap_entry next) splits).trans
        (ih looped)
  | case12 map bounds entry next kind =>
      subst replaces
      exact splitRight_renews (nextOverlap_entry next) looped

/-- The drivers of a bit are those of a named list. -/
theorem names_of_mem_driversAt {bit : Int} {node : Option NodeRef}
    (driven : node ∈ map.driversAt bit) :
    ∃ list, map.Names list ∧ map.driversAt bit = list.nodes := by
  unfold driversAt listAt at driven ⊢
  cases found : map.driverIntervals.entries.find? fun entry => entry.Covers bit with
  | none => simp [found] at driven
  | some entry =>
      simp only [found, Option.bind_eq_bind, Option.bind_some] at driven ⊢
      cases listed : map.getDriverList entry.value with
      | none => simp [listed] at driven
      | some list => exact ⟨list, ⟨entry, List.mem_of_find?_eq_some found, listed⟩, rfl⟩

end DriverMap

namespace TrackerState

variable {state result : TrackerState} {call : DriverCall}

/-- A call without merging changes no list. -/
theorem step_renews (fits : state.tracker.Fits state.drivers) (replaces : call.merge = false)
    (stepped : state.step call = some result) (symbol : ValueSymbol) :
    DriverMap.Renews call.driverList (state.driverMap symbol) (result.driverMap symbol) := by
  obtain ⟨_, _, map, added, maps⟩ := driverMap_step fits stepped
  rw [maps symbol]
  split
  · next same =>
      rw [replaces] at added
      rw [driverMap, state.tracker.driverMap_congr state.drivers same]
      exact DriverMap.addDriversLoop_renews added
  · exact DriverMap.Renews.refl _ _

end TrackerState

end SlangNetlist
