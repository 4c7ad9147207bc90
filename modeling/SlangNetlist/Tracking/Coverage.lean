import SlangNetlist.Library.PartialMap
import SlangNetlist.Tracking.DriverRuns

/-!
# The bits that have a definition

Whatever becomes of the driver lists, a call of `addDrivers` that succeeds
leaves disjoint intervals, and exactly the bits of its bounds are defined in
addition to those that were defined before.
-/

namespace SlangNetlist

open Library

namespace DriverMap

section Coverage

variable {map next result : DriverMap} {entry : Interval Nat} {bounds : DriverBitRange}
  {driverList : DriverList} {merge : Bool}

/-- The intervals stay disjoint, and the bits of the range are added to the covered ones. -/
structure Spreads (map result : DriverMap) (low high : Int) : Prop where
  ordered : result.driverIntervals.Ordered
  covers : ∀ bit, result.driverIntervals.Covers bit ↔
    map.driverIntervals.Covers bit ∨ (low ≤ bit ∧ bit ≤ high)

/-! ## Lists leave the intervals alone -/

theorem intervals_extendDriverList {handle : Nat}
    (extended : map.extendDriverList handle driverList = some result) :
    result.driverIntervals = map.driverIntervals := by
  obtain ⟨_, _, rfl⟩ := extendDriverList_eq_some.mp extended
  rfl

theorem intervals_updateMatching
    (updated : map.updateMatching entry driverList merge = some result) :
    result.driverIntervals = map.driverIntervals := by
  rcases updateMatching_cases updated with ⟨_, extended⟩ | ⟨_, rfl⟩
  · exact intervals_extendDriverList extended
  · rfl

theorem intervals_addMergedList {existing : Nat} {added : Nat × DriverMap}
    (adds : map.addMergedList existing driverList = some added) :
    added.2.driverIntervals = map.driverIntervals := by
  obtain ⟨list, extended, _, extends_, rfl⟩ := addMergedList_eq_some.mp adds
  exact @intervals_extendDriverList (map.addDriverList list).2 extended driverList _ extends_

theorem intervals_addPartList {existing : Nat} {added : Nat × DriverMap}
    (adds : map.addPartList existing driverList merge = some added) :
    added.2.driverIntervals = map.driverIntervals := by
  rcases addPartList_cases adds with ⟨_, merged⟩ | ⟨_, rfl⟩
  · exact intervals_addMergedList merged
  · rfl

theorem intervals_dropInside (dropped : map.dropInside entry = some result) :
    result.driverIntervals = map.driverIntervals.erase entry := by
  rcases dropInside_cases dropped with ⟨_, _, rfl⟩ | rfl
  · rfl
  · rfl

/-! ## One interval -/

theorem covers_erase (ordered : map.driverIntervals.Ordered)
    (entryMem : entry ∈ map.driverIntervals.entries) (bit : Int) :
    (map.driverIntervals.erase entry).Covers bit ↔
      map.driverIntervals.Covers bit ∧ ¬ entry.Covers bit := by
  simp only [IntervalMap.Covers, ordered.mem_erase]
  constructor
  · rintro ⟨other, ⟨ne, otherMem⟩, covers⟩
    exact ⟨⟨other, otherMem, covers⟩,
      fun covered => ne (ordered.unique otherMem entryMem covers covered)⟩
  · rintro ⟨⟨other, otherMem, covers⟩, uncovered⟩
    exact ⟨other, ⟨fun same => uncovered (same ▸ covers), otherMem⟩, covers⟩

/-- A new interval apart from the old ones. -/
theorem spreads_insert (ordered : map.driverIntervals.Ordered) (handle : Nat)
    (apart : ∀ other ∈ map.driverIntervals.entries,
      other.second < bounds.lower ∨ bounds.upper < other.first) :
    map.Spreads (map.insert bounds handle) bounds.lower bounds.upper :=
  ⟨ordered.insert handle bounds.lower_le_upper apart, fun bit => by
    rw [DriverMap.insert, IntervalMap.covers_insert, or_comm]⟩

/-- `spreads_insert` for ascending bounds. -/
theorem spreads_insert_mk (ordered : map.driverIntervals.Ordered) {low high : Int}
    (proper : low ≤ high) (handle : Nat)
    (apart : ∀ other ∈ map.driverIntervals.entries, other.second < low ∨ high < other.first) :
    map.Spreads (map.insert ⟨low, high⟩ handle) low high := by
  have spreads := @spreads_insert map ⟨low, high⟩ ordered handle
  rw [DriverBitRange.lower_mk proper, DriverBitRange.upper_mk proper] at spreads
  exact spreads apart

theorem Spreads.congr {low high : Int} (spreads : map.Spreads next low high)
    (before : map.driverIntervals = result.driverIntervals) : result.Spreads next low high :=
  ⟨spreads.ordered, before ▸ spreads.covers⟩

/-! ## The overlap cases -/

/-- The old parts cover what the entry covered outside the bounds. -/
theorem insertOldParts_covers (ordered : map.driverIntervals.Ordered)
    (overlaps : entry.Overlaps bounds.lower bounds.upper)
    (apart : ∀ other ∈ map.driverIntervals.entries,
      other.second < entry.first ∨ entry.second < other.first) :
    (map.insertOldParts entry bounds).driverIntervals.Ordered ∧
      ∀ bit, (map.insertOldParts entry bounds).driverIntervals.Covers bit ↔
        map.driverIntervals.Covers bit ∨ (entry.Covers bit ∧ bit ∉ bounds) := by
  have range := bounds.lower_le_upper
  simp only [Interval.Overlaps] at overlaps
  simp only [insertOldParts, Interval.Covers, DriverBitRange.mem_iff]
  have leftPart (left : entry.first < bounds.lower) :
      map.Spreads (map.insert ⟨entry.first, bounds.lower - 1⟩ entry.value) entry.first
        (bounds.lower - 1) :=
    spreads_insert_mk ordered (by omega) entry.value fun other otherMem => by
      have := apart other otherMem
      omega
  split_ifs with right left left
  · have rightPart : (map.insert ⟨entry.first, bounds.lower - 1⟩ entry.value).Spreads
        ((map.insert ⟨entry.first, bounds.lower - 1⟩ entry.value).insert
          ⟨bounds.upper + 1, entry.second⟩ entry.value) (bounds.upper + 1) entry.second :=
      spreads_insert_mk (leftPart left).ordered (by omega) entry.value fun other otherMem => by
        rcases (mem_insert_mk (by omega)).mp otherMem with rfl | otherMem
        · simp only
          omega
        · have := apart other otherMem
          omega
    refine ⟨rightPart.ordered, fun bit => ?_⟩
    rw [rightPart.covers, (leftPart left).covers, or_assoc]
    exact or_congr_right (by omega)
  · have rightPart : map.Spreads (map.insert ⟨bounds.upper + 1, entry.second⟩ entry.value)
        (bounds.upper + 1) entry.second :=
      spreads_insert_mk ordered (by omega) entry.value fun other otherMem => by
        have := apart other otherMem
        omega
    refine ⟨rightPart.ordered, fun bit => ?_⟩
    rw [rightPart.covers]
    exact or_congr_right (by omega)
  · refine ⟨(leftPart left).ordered, fun bit => ?_⟩
    rw [(leftPart left).covers]
    exact or_congr_right (by omega)
  · refine ⟨ordered, fun bit => ?_⟩
    rw [or_iff_left (by omega)]

theorem splitContaining_spreads (ordered : map.driverIntervals.Ordered)
    (entryMem : entry ∈ map.driverIntervals.entries)
    (first : entry.first ≤ bounds.lower) (second : bounds.upper ≤ entry.second)
    (splits : map.splitContaining entry bounds driverList merge = some result) :
    map.Spreads result bounds.lower bounds.upper := by
  have range := bounds.lower_le_upper
  have overlaps : entry.Overlaps bounds.lower bounds.upper := by
    simp only [Interval.Overlaps]
    omega
  obtain ⟨⟨newHandle, cut⟩, adds, rfl⟩ := splitContaining_eq_some.mp splits
  have intervals := intervals_addPartList adds
  obtain ⟨cutOrdered, cutCovers⟩ := @insertOldParts_covers (map.eraseInterval entry) entry bounds
    (ordered.erase entry) overlaps fun other otherMem =>
      apart_eraseInterval ordered entryMem otherMem
  rw [← intervals] at cutOrdered cutCovers
  have middle : cut.Spreads (cut.insert bounds newHandle) bounds.lower bounds.upper :=
    spreads_insert cutOrdered newHandle fun other otherMem => by
      rw [intervals] at otherMem
      rcases mem_insertOldParts overlaps otherMem with ⟨_, _, _, outside⟩ | otherMem
      · exact outside
      · have := apart_eraseInterval ordered entryMem otherMem
        omega
  refine ⟨middle.ordered, fun bit => ?_⟩
  rw [middle.covers, cutCovers, eraseInterval, covers_erase ordered entryMem,
    DriverBitRange.mem_iff]
  have covered (covers : entry.Covers bit) : map.driverIntervals.Covers bit :=
    ⟨entry, entryMem, covers⟩
  tauto

theorem splitLeft_spreads (ordered : map.driverIntervals.Ordered)
    (entryMem : entry ∈ map.driverIntervals.entries)
    (first : entry.first < bounds.lower) (second : bounds.lower ≤ entry.second)
    (splits : map.splitLeft entry bounds driverList merge = some result) :
    map.Spreads result bounds.lower entry.second := by
  obtain ⟨⟨newHandle, cut⟩, adds, rfl⟩ := splitLeft_cases splits
  have intervals := intervals_addPartList adds
  have left : (map.eraseInterval entry).Spreads
      ((map.eraseInterval entry).insert ⟨entry.first, bounds.lower - 1⟩ entry.value) entry.first
      (bounds.lower - 1) :=
    spreads_insert_mk (ordered.erase entry) (by omega) entry.value fun other otherMem => by
      have := apart_eraseInterval ordered entryMem otherMem
      omega
  have right : cut.Spreads (cut.insert ⟨bounds.lower, entry.second⟩ newHandle) bounds.lower
      entry.second := by
    refine spreads_insert_mk (intervals ▸ left.ordered) second newHandle fun other otherMem => ?_
    rw [intervals] at otherMem
    rcases (mem_insert_mk (by omega)).mp otherMem with rfl | otherMem
    · simp only
      omega
    · have := apart_eraseInterval ordered entryMem otherMem
      omega
  refine ⟨right.ordered, fun bit => ?_⟩
  rw [right.covers, intervals, left.covers, eraseInterval, covers_erase ordered entryMem]
  have covered (covers : entry.Covers bit) : map.driverIntervals.Covers bit :=
    ⟨entry, entryMem, covers⟩
  simp only [Interval.Covers] at covered ⊢
  grind

theorem mergeInside_spreads (ordered : map.driverIntervals.Ordered)
    (entryMem : entry ∈ map.driverIntervals.entries)
    (first : bounds.lower ≤ entry.first) (second : entry.second ≤ bounds.upper)
    (later : ∀ other ∈ map.driverIntervals.entries,
      other.Overlaps bounds.lower bounds.upper → other ≠ entry → entry.second < other.first)
    (merges : map.mergeInside entry bounds driverList = some result) :
    map.Spreads result bounds.lower entry.second := by
  have proper := ordered.proper entry entryMem
  obtain ⟨extended, extends_, parts⟩ := mergeInside_cases merges
  have intervals := intervals_extendDriverList extends_
  have covered (bit : Int) (covers : entry.Covers bit) : map.driverIntervals.Covers bit :=
    ⟨entry, entryMem, covers⟩
  rcases parts with ⟨gap, rfl⟩ | ⟨noGap, rfl⟩
  · have front : extended.Spreads ((extended.addDriverList driverList).2.insert
        ⟨bounds.lower, entry.first - 1⟩ (extended.addDriverList driverList).1) bounds.lower
        (entry.first - 1) := by
      refine Spreads.congr (@spreads_insert_mk (extended.addDriverList driverList).2
        (intervals ▸ ordered) bounds.lower (entry.first - 1) (by omega) _
        fun other otherMem => ?_) rfl
      replace otherMem : other ∈ map.driverIntervals.entries := intervals ▸ otherMem
      by_cases same : other = entry
      · rw [same]
        omega
      · have properOther := ordered.proper other otherMem
        have after := later other otherMem
        simp only [Interval.Overlaps] at after
        by_cases overlaps : other.first ≤ bounds.upper ∧ bounds.lower ≤ other.second
        · have := after overlaps same
          omega
        · omega
    refine ⟨front.ordered, fun bit => ?_⟩
    rw [front.covers, intervals]
    have := covered bit
    simp only [Interval.Covers] at this
    by_cases inside : entry.first ≤ bit ∧ bit ≤ entry.second
    · have := this inside
      tauto
    · exact or_congr_right (by omega)
  · refine ⟨intervals ▸ ordered, fun bit => ?_⟩
    rw [intervals, iff_self_or]
    intro inside
    exact covered bit ⟨by omega, inside.2⟩

theorem insertNewParts_spreads (ordered : map.driverIntervals.Ordered)
    (first : bounds.lower < entry.first) (reaches : entry.first ≤ bounds.upper)
    (apart : ∀ other ∈ map.driverIntervals.entries,
      other.second < bounds.lower ∨ bounds.upper < other.first)
    (inserts : map.insertNewParts entry bounds driverList merge = some result) :
    map.Spreads result bounds.lower bounds.upper ∧
      ∀ other ∈ result.driverIntervals.entries,
        other.second ≤ bounds.upper ∨ other ∈ map.driverIntervals.entries := by
  rcases insertNewParts_cases inserts with ⟨_, ⟨middleHandle, cut⟩, adds, rfl⟩ | ⟨_, rfl⟩
  · have intervals := intervals_addMergedList adds
    have left := @spreads_insert_mk (map.addDriverList driverList).2 ordered bounds.lower
      (entry.first - 1) (by omega) (map.addDriverList driverList).1 fun other otherMem => by
        have := apart other otherMem
        omega
    have right : cut.Spreads (cut.insert ⟨entry.first, bounds.upper⟩ middleHandle) entry.first
        bounds.upper := by
      refine spreads_insert_mk (intervals ▸ left.ordered) reaches middleHandle
        fun other otherMem => ?_
      rw [intervals] at otherMem
      rcases (mem_insert_mk (by omega)).mp otherMem with rfl | otherMem
      · simp only
        omega
      · have := apart other otherMem
        omega
    refine ⟨⟨right.ordered, fun bit => ?_⟩, fun other otherMem => ?_⟩
    · rw [right.covers, intervals, left.covers, or_assoc]
      exact or_congr_right (by omega)
    · rcases (mem_insert_mk reaches).mp otherMem with rfl | otherMem
      · exact Or.inl le_rfl
      · rw [intervals] at otherMem
        rcases (mem_insert_mk (by omega)).mp otherMem with rfl | otherMem
        · exact Or.inl (by simp only; omega)
        · exact Or.inr otherMem
  · refine ⟨Spreads.congr (@spreads_insert (map.addDriverList driverList).2 bounds ordered _
      apart) rfl, fun other otherMem => ?_⟩
    rcases mem_insert.mp otherMem with rfl | otherMem
    · exact Or.inl le_rfl
    · exact Or.inr otherMem

theorem splitRight_spreads (ordered : map.driverIntervals.Ordered)
    (entryMem : entry ∈ map.driverIntervals.entries)
    (first : bounds.lower < entry.first) (reaches : entry.first ≤ bounds.upper)
    (second : bounds.upper < entry.second)
    (alone : ∀ other ∈ map.driverIntervals.entries,
      other.Overlaps bounds.lower bounds.upper → other = entry)
    (splits : map.splitRight entry bounds driverList merge = some result) :
    map.Spreads result bounds.lower bounds.upper := by
  obtain ⟨cut, inserts, rfl⟩ := splitRight_cases splits
  obtain ⟨left, members⟩ := @insertNewParts_spreads (map.eraseInterval entry) cut entry bounds
    driverList merge (ordered.erase entry) first reaches (fun other otherMem => by
      obtain ⟨ne, otherMem⟩ := ordered.mem_erase.mp otherMem
      have apart := mt (alone other otherMem) ne
      simp only [Interval.Overlaps] at apart
      omega) inserts
  have right := @spreads_insert_mk cut left.ordered (bounds.upper + 1) entry.second (by omega)
    entry.value fun other otherMem => by
      rcases members other otherMem with below | otherMem
      · omega
      · obtain ⟨ne, old⟩ := ordered.mem_erase.mp otherMem
        have aside := apart_eraseInterval ordered entryMem otherMem
        have apart := mt (alone other old) ne
        simp only [Interval.Overlaps] at apart
        omega
  refine ⟨right.ordered, fun bit => ?_⟩
  rw [right.covers, left.covers, eraseInterval, covers_erase ordered entryMem]
  have covered (covers : entry.Covers bit) : map.driverIntervals.Covers bit :=
    ⟨entry, entryMem, covers⟩
  simp only [Interval.Covers] at covered ⊢
  grind

/-- The bits of a range in two steps. -/
theorem Spreads.append {position : Int} (low : bounds.lower ≤ position)
    (high : position < bounds.upper) (front : map.Spreads next bounds.lower position)
    (back : next.Spreads result (position + 1) bounds.upper) :
    map.Spreads result bounds.lower bounds.upper :=
  ⟨back.ordered, fun bit => by
    rw [back.covers, front.covers, or_assoc]
    exact or_congr_right (by omega)⟩

/-! ## The loop -/

/-- The loop adds the bits of its bounds, if it succeeds. -/
theorem addDriversLoop_spreads (ascending : bounds.left ≤ bounds.right)
    (ordered : map.driverIntervals.Ordered)
    (looped : addDriversLoop driverList merge map bounds = some result) :
    map.Spreads result bounds.lower bounds.upper := by
  fun_induction addDriversLoop driverList merge map bounds with
  | case1 map bounds next =>
      cases looped
      refine Spreads.congr (@spreads_insert (map.addDriverList driverList).2 bounds ordered _
        fun other otherMem => ?_) rfl
      have apart := nextOverlap_none ordered ascending next otherMem
      simp only [Interval.Overlaps] at apart
      omega
  | case2 map bounds entry next kind =>
      have spec := overlapCase_spec ascending entry
      rw [kind] at spec
      have intervals := intervals_updateMatching looped
      refine ⟨intervals ▸ ordered, fun bit => ?_⟩
      rw [intervals, iff_self_or]
      intro inside
      exact ⟨entry, nextOverlap_entry next,
        by simp only [Interval.Covers]; omega⟩
  | case3 map bounds entry next kind =>
      have spec := overlapCase_spec ascending entry
      rw [kind] at spec
      exact splitContaining_spreads ordered (nextOverlap_entry next)
        spec.1 spec.2.1 looped
  | case4 | case7 | case9 | case13 => cases looped
  | case5 map bounds entry next kind merges middle merged used =>
      have spec := overlapCase_spec ascending entry
      rw [kind] at spec
      cases looped
      obtain same : entry.second = bounds.upper := by omega
      rw [← same]
      exact mergeInside_spreads ordered (nextOverlap_entry next) spec.1
        spec.2.1 (fun other otherMem overlaps ne =>
          nextOverlap_first ordered ascending next otherMem overlaps ne) merged
  | case6 map bounds entry next kind merges middle merged remaining ih =>
      have spec := overlapCase_spec ascending entry
      rw [kind] at spec
      have entryMem := nextOverlap_entry next
      have proper := ordered.proper entry entryMem
      have front := mergeInside_spreads ordered entryMem spec.1 spec.2.1
        (fun other otherMem overlaps ne =>
          nextOverlap_first ordered ascending next otherMem overlaps ne) merged
      have high : entry.second + 1 ≤ bounds.upper := not_lt.mp remaining
      have back := ih high front.ordered looped
      rw [DriverBitRange.lower_mk high, DriverBitRange.upper_mk high] at back
      exact front.append (by omega) (by omega) back
  | case8 map bounds entry next kind replaces middle dropped ih =>
      have spec := overlapCase_spec ascending entry
      rw [kind] at spec
      have entryMem := nextOverlap_entry next
      have intervals := intervals_dropInside dropped
      have rest := ih ascending (intervals ▸ ordered.erase entry) looped
      refine ⟨rest.ordered, fun bit => ?_⟩
      rw [rest.covers, intervals, covers_erase ordered entryMem]
      have inside : entry.Covers bit → bounds.lower ≤ bit ∧ bit ≤ bounds.upper := by
        simp only [Interval.Covers]
        omega
      tauto
  | case10 map bounds entry next kind middle splits used =>
      have spec := overlapCase_spec ascending entry
      rw [kind] at spec
      omega
  | case11 map bounds entry next kind middle splits remaining ih =>
      have spec := overlapCase_spec ascending entry
      rw [kind] at spec
      have front := splitLeft_spreads ordered (nextOverlap_entry next)
        spec.1 spec.2.1 splits
      have high : entry.second + 1 ≤ bounds.upper := not_lt.mp remaining
      have back := ih high front.ordered looped
      rw [DriverBitRange.lower_mk high, DriverBitRange.upper_mk high] at back
      exact front.append spec.2.1 (by omega) back
  | case12 map bounds entry next kind =>
      have spec := overlapCase_spec ascending entry
      rw [kind] at spec
      exact splitRight_spreads ordered (nextOverlap_entry next) spec.1
        spec.2.1 spec.2.2 (fun other otherMem overlaps =>
          nextOverlap_alone ordered ascending next spec.2.2.le otherMem overlaps) looped

/-- `addDrivers` defines the bits of its bounds, and all other bits as before. -/
theorem addDrivers_spreads (ordered : map.driverIntervals.Ordered)
    (added : map.addDrivers bounds driverList merge = some result) :
    map.Spreads result bounds.lower bounds.upper := by
  have spreads := addDriversLoop_spreads
    (show bounds.normalize.left ≤ bounds.normalize.right from bounds.lower_le_upper) ordered added
  simpa using spreads

end Coverage

end DriverMap

/-! ## The tracker -/

namespace ValueTracker

variable {tracker later : ValueTracker} {drivers : ValueDrivers} {symbol : ValueSymbol}

/-- No symbol has two slots. -/
def Distinct (tracker : ValueTracker) : Prop := (tracker.slotToValue.map ValueSymbol.id).Nodup

/-- The later tracker has the slots of the earlier one and perhaps more. -/
def Grows (tracker later : ValueTracker) : Prop := tracker.slotToValue <+: later.slotToValue

theorem Grows.refl (tracker : ValueTracker) : tracker.Grows tracker := List.prefix_rfl

theorem Grows.trans {third : ValueTracker} (first : tracker.Grows later)
    (second : later.Grows third) : tracker.Grows third :=
  List.IsPrefix.trans first second

/-- The symbol of a slot has that slot. -/
theorem getSlot_of_getElem? (distinct : tracker.Distinct) {slot : Nat}
    (found : tracker.slotToValue[slot]? = some symbol) : tracker.getSlot symbol = some slot := by
  obtain ⟨inside, same⟩ := List.getElem?_eq_some_iff.mp found
  refine List.findIdx?_eq_some_iff_getElem.mpr ⟨inside, by simp [same], fun other before => ?_⟩
  have outside : ∀ other (below : other < slot),
      tracker.slotToValue[other].id ≠ tracker.slotToValue[slot].id := by
    intro other below
    have := List.pairwise_iff_getElem.mp distinct other slot (by simp; omega) (by simpa) below
    simpa using this
  simpa [same] using outside other before

theorem grows_slotFor (tracker : ValueTracker) (symbol : ValueSymbol) :
    tracker.Grows (tracker.slotFor symbol).2 := by
  unfold slotFor Grows
  split
  · exact List.prefix_rfl
  · exact List.prefix_append _ _

theorem distinct_slotFor (distinct : tracker.Distinct) (symbol : ValueSymbol) :
    (tracker.slotFor symbol).2.Distinct := by
  unfold slotFor
  split
  · exact distinct
  · next unslotted =>
      have fresh : ∀ value ∈ tracker.slotToValue, value.id ≠ symbol.id := by
        intro value member same
        have := List.findIdx?_eq_none_iff.mp unslotted value member
        simp [same] at this
      simpa [Distinct, List.nodup_append, List.mem_map] using ⟨distinct, fresh⟩

/-- The slots of a symbol stay the same, and new ones lie beyond a vector that fits. -/
theorem driverMap_grows (fits : tracker.Fits drivers) (grows : tracker.Grows later)
    (symbol : ValueSymbol) : later.driverMap drivers symbol = tracker.driverMap drivers symbol := by
  obtain ⟨more, same⟩ := grows
  unfold driverMap getSlot
  rw [← same, List.findIdx?_append]
  cases slot : tracker.slotToValue.findIdx? fun value => value.id = symbol.id with
  | some index => rfl
  | none =>
      cases List.findIdx? (fun value => decide (value.id = symbol.id)) more with
      | none => rfl
      | some index =>
          have outside : drivers[index + tracker.slotToValue.length]? = none :=
            List.getElem?_eq_none (fits.trans (Nat.le_add_left _ _))
          simp [outside]

theorem Fits.grows (fits : tracker.Fits drivers) (grows : tracker.Grows later) :
    later.Fits drivers :=
  fits.trans grows.length_le

end ValueTracker

namespace TrackerState

/-- The vector fits the tracker, whose slots are distinct, and the intervals are disjoint. -/
structure Tidy (state : TrackerState) : Prop where
  fits : state.tracker.Fits state.drivers
  distinct : state.tracker.Distinct
  ordered : ∀ symbol, (state.driverMap symbol).driverIntervals.Ordered

/-- The bit has a definition. -/
def Defines (state : TrackerState) (symbol : ValueSymbol) (bit : Int) : Prop :=
  (state.driverMap symbol).driverIntervals.Covers bit

instance (state : TrackerState) (symbol : ValueSymbol) (bit : Int) :
    Decidable (state.Defines symbol bit) :=
  inferInstanceAs (Decidable ((state.driverMap symbol).driverIntervals.Covers bit))

theorem tidy_empty : ({} : TrackerState).Tidy :=
  ⟨Nat.le_refl _, List.nodup_nil, fun _ => IntervalMap.ordered_nil⟩

variable {state result : TrackerState}

/-- A call that succeeds changes the driver map of its symbol. -/
theorem driverMap_step {call : DriverCall} (fits : state.tracker.Fits state.drivers)
    (stepped : state.step call = some result) :
    result.tracker = (state.tracker.slotFor call.symbol).2 ∧
      result.tracker.Fits result.drivers ∧
      ∃ map, (state.driverMap call.symbol).addDrivers call.bounds call.driverList call.merge =
          some map ∧
        ∀ other, result.driverMap other =
          if other.id = call.symbol.id then map else state.driverMap other := by
  simp only [TrackerState.step, ValueTracker.addDrivers, ValueTracker.resize_slotFor fits,
    Option.bind_eq_bind, Option.bind_eq_some_iff, Option.some.injEq] at stepped
  obtain ⟨_, ⟨map, added, rfl⟩, rfl⟩ := stepped
  obtain ⟨tracker, drivers, adds, resultFits, maps⟩ := state.tracker.addDrivers_spec fits
    call.symbol call.bounds call.driverList call.merge added
  simp only [ValueTracker.addDrivers, ValueTracker.resize_slotFor fits, added,
    Option.bind_eq_bind, Option.bind_some, Option.some.injEq, Prod.mk.injEq] at adds
  obtain ⟨rfl, rfl⟩ := adds
  exact ⟨rfl, resultFits, map, added, maps⟩

/-- A call that succeeds adds the bits of its bounds to the definitions of its symbol. -/
theorem Tidy.step {call : DriverCall} (tidy : state.Tidy) (stepped : state.step call = some result) :
    result.Tidy ∧ state.tracker.Grows result.tracker ∧
      ∀ symbol bit, result.Defines symbol bit ↔ state.Defines symbol bit ∨
        (symbol.id = call.symbol.id ∧ bit ∈ call.bounds) := by
  obtain ⟨same, fits, map, added, maps⟩ := driverMap_step tidy.fits stepped
  have spreads := DriverMap.addDrivers_spreads (tidy.ordered call.symbol) added
  refine ⟨⟨fits, same ▸ ValueTracker.distinct_slotFor tidy.distinct call.symbol, fun symbol => ?_⟩,
    same ▸ ValueTracker.grows_slotFor state.tracker call.symbol, fun symbol bit => ?_⟩
  · rw [maps symbol]
    split
    · exact spreads.ordered
    · exact tidy.ordered symbol
  · simp only [Defines, maps symbol]
    split
    · next same =>
        rw [spreads.covers, ← DriverBitRange.mem_iff, driverMap, driverMap,
          state.tracker.driverMap_congr state.drivers same]
        simp [same]
    · next differs => simp [differs]

/-- A run of calls that succeed adds the bits of their bounds. -/
theorem Tidy.run {calls : List DriverCall} (tidy : state.Tidy)
    (ran : calls.foldlM TrackerState.step state = some result) :
    result.Tidy ∧ state.tracker.Grows result.tracker ∧
      ∀ symbol bit, result.Defines symbol bit ↔ state.Defines symbol bit ∨
        ∃ call ∈ calls, symbol.id = call.symbol.id ∧ bit ∈ call.bounds := by
  induction calls generalizing state with
  | nil =>
      cases ran
      exact ⟨tidy, ValueTracker.Grows.refl _, by simp⟩
  | cons call rest ih =>
      obtain ⟨middle, stepped, ran⟩ := foldlM_cons_eq_some.mp ran
      obtain ⟨middleTidy, grows, defines⟩ := tidy.step stepped
      obtain ⟨resultTidy, growsMore, definesMore⟩ := ih middleTidy ran
      refine ⟨resultTidy, grows.trans growsMore, fun symbol bit => ?_⟩
      rw [definesMore, defines, or_assoc, List.exists_mem_cons_iff]

/-- The same definitions under a tracker with more slots. -/
theorem Tidy.grow (tidy : state.Tidy) {later : ValueTracker}
    (grows : state.tracker.Grows later) (distinct : later.Distinct) :
    Tidy ⟨later, state.drivers⟩ ∧
      ∀ symbol bit, Defines ⟨later, state.drivers⟩ symbol bit ↔ state.Defines symbol bit := by
  have maps := ValueTracker.driverMap_grows tidy.fits grows
  refine ⟨⟨tidy.fits.grows grows, distinct, fun symbol => ?_⟩, fun symbol bit => ?_⟩
  · simp only [driverMap, maps]
    exact tidy.ordered symbol
  · simp only [Defines, driverMap, maps]

end TrackerState

end SlangNetlist
