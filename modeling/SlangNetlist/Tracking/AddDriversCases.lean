import SlangNetlist.Tracking.DriverMapInvariant

/-!
# The overlap cases of the driver loop

What each case of the loop does to a well-formed map: that it succeeds, that it
keeps the map well formed, which intervals it keeps and which drivers the bits
have afterwards.
-/

namespace SlangNetlist

open Library

/-- What the case of an interval says about its position. -/
theorem overlapCase_spec {bounds : DriverBitRange} (ascending : bounds.left ≤ bounds.right)
    (entry : Interval Nat) :
    match overlapCase entry bounds with
    | .matching => entry.first = bounds.lower ∧ entry.second = bounds.upper
    | .containsNew => entry.first ≤ bounds.lower ∧ bounds.upper ≤ entry.second ∧
        ¬ (entry.first = bounds.lower ∧ entry.second = bounds.upper)
    | .insideNew => bounds.lower ≤ entry.first ∧ entry.second ≤ bounds.upper ∧
        ¬ (entry.first = bounds.lower ∧ entry.second = bounds.upper)
    | .leftOverlap => entry.first < bounds.lower ∧ bounds.lower ≤ entry.second ∧
        entry.second < bounds.upper
    | .rightOverlap => bounds.lower < entry.first ∧ entry.first ≤ bounds.upper ∧
        bounds.upper < entry.second
    | .skip => ¬ (entry.first ≤ entry.second ∧
        entry.Overlaps bounds.lower bounds.upper) := by
  have lowerEq : bounds.lower = bounds.left := by
    simp only [DriverBitRange.lower]
    omega
  have upperEq : bounds.upper = bounds.right := by
    simp only [DriverBitRange.upper]
    omega
  unfold overlapCase
  rw [lowerEq, upperEq]
  split_ifs <;> simp only [Interval.Overlaps] <;> omega

namespace DriverMap

/-- The loop acts on the first overlapping interval. -/
theorem nextOverlap_first {map : DriverMap} (ordered : map.driverIntervals.Ordered)
    {bounds : DriverBitRange} (ascending : bounds.left ≤ bounds.right) {entry : Interval Nat}
    (next : map.nextOverlap bounds = some entry) {other : Interval Nat}
    (otherMem : other ∈ map.driverIntervals.entries)
    (overlaps : other.Overlaps bounds.lower bounds.upper) (ne : other ≠ entry) :
    entry.second < other.first := by
  have otherFound : other ∈ map.find bounds := IntervalMap.mem_find.mpr ⟨otherMem, overlaps⟩
  have sorted : (map.find bounds).Pairwise fun left right => left.second < right.first :=
    ordered.ascending.filter _
  obtain ⟨passes, before, after, split, skipped⟩ := List.find?_eq_some_iff_append.mp next
  rw [split] at otherFound sorted
  rcases List.mem_append.mp otherFound with early | late
  · have noCase := skipped other early
    have spec := overlapCase_spec ascending other
    simp only [ne_eq, Bool.not_eq_true', decide_eq_false_iff_not, not_not] at noCase
    rw [noCase] at spec
    exact absurd ⟨ordered.proper other otherMem, overlaps⟩ spec
  · rcases List.mem_cons.mp late with same | late
    · exact absurd same ne
    · exact (List.pairwise_cons.mp (List.pairwise_append.mp sorted).2.1).1 other late

/-- An entry that reaches the upper bound is the last one to overlap the bounds. -/
theorem nextOverlap_alone {map : DriverMap} (ordered : map.driverIntervals.Ordered)
    {bounds : DriverBitRange} (ascending : bounds.left ≤ bounds.right) {entry : Interval Nat}
    (next : map.nextOverlap bounds = some entry) (reaches : bounds.upper ≤ entry.second)
    {other : Interval Nat} (otherMem : other ∈ map.driverIntervals.entries)
    (overlaps : other.Overlaps bounds.lower bounds.upper) : other = entry := by
  by_contra ne
  have later := nextOverlap_first ordered ascending next otherMem overlaps ne
  simp only [Interval.Overlaps] at overlaps
  omega

theorem nextOverlap_none {map : DriverMap} (ordered : map.driverIntervals.Ordered)
    {bounds : DriverBitRange} (ascending : bounds.left ≤ bounds.right)
    (next : map.nextOverlap bounds = none) {entry : Interval Nat}
    (entryMem : entry ∈ map.driverIntervals.entries) :
    ¬ entry.Overlaps bounds.lower bounds.upper := by
  intro overlaps
  have skipped := List.find?_eq_none.mp next entry (IntervalMap.mem_find.mpr ⟨entryMem, overlaps⟩)
  have spec := overlapCase_spec ascending entry
  simp only [ne_eq, decide_not, Bool.not_eq_true', decide_eq_false_iff_not, not_not] at skipped
  rw [skipped] at spec
  exact spec ⟨ordered.proper entry entryMem, overlaps⟩

/-- The stated effect of `addDrivers` on the bits of one symbol. -/
def AddsDrivers (map result : DriverMap) (bounds : DriverBitRange) (driverList : DriverList)
    (merge : Bool) : Prop :=
  ∀ bit node, result.Drives bit node ↔
    if bit ∈ bounds then node ∈ driverList.nodes ∨ (merge = true ∧ map.Drives bit node)
    else map.Drives bit node

/-- Every interval not inside the bounds is a part of an old one, with its handle. -/
def KeepsOutside (map result : DriverMap) (bounds : DriverBitRange) : Prop :=
  ∀ entry ∈ result.driverIntervals.entries, ¬ entry.Inside bounds.lower bounds.upper →
    ∃ old ∈ map.driverIntervals.entries, old.value = entry.value ∧
      old.first ≤ entry.first ∧ entry.second ≤ old.second

section Cases

variable {map : DriverMap} {bounds : DriverBitRange} {entry : Interval Nat}
  {driverList : DriverList}

/-- Nothing overlaps: the bounds become a new interval. -/
theorem insertRemaining_spec (wellFormed : map.WellFormed)
    (apart : ∀ entry ∈ map.driverIntervals.entries, ¬ entry.Overlaps bounds.lower bounds.upper)
    (driverList : DriverList) (merge : Bool) :
    (map.insertRemaining bounds driverList).WellFormed ∧
      map.KeepsOutside (map.insertRemaining bounds driverList) bounds ∧
      map.AddsDrivers (map.insertRemaining bounds driverList) bounds driverList merge := by
  have allocated := addDriverList_allocates wellFormed.lists driverList
  have listed := allocated.get_self
  refine ⟨?_, ?_, ?_⟩
  · refine (allocated.wellFormed wellFormed).insert ⟨_, listed⟩ ?_
    intro entry entryMem
    have := apart entry entryMem
    simp only [Interval.Overlaps] at this
    omega
  · intro entry entryMem outside
    rcases mem_insert.mp entryMem with rfl | entryMem
    · exact absurd ⟨le_rfl, le_rfl⟩ outside
    · exact ⟨entry, entryMem, rfl, le_rfl, le_rfl⟩
  · intro bit node
    have uncovered : bit ∈ bounds → ¬ map.Drives bit node := by
      rintro inside ⟨entry, entryMem, covers, _⟩
      have := apart entry entryMem
      simp only [Interval.Overlaps, Interval.Covers, DriverBitRange.mem_iff] at *
      omega
    change ((map.addDriverList driverList).2.insert bounds
      (map.addDriverList driverList).1).Drives bit node ↔ _
    rw [drives_insert listed, allocated.drives wellFormed.live]
    by_cases inside : bit ∈ bounds
    · simp [inside, uncovered inside]
    · simp [inside]

/-- The list of the interval holds all the drivers. -/
def Holds (map : DriverMap) (entry : Interval Nat) (driverList : DriverList) : Prop :=
  ∃ list, map.getDriverList entry.value = some list ∧ driverList.nodes ⊆ list.nodes

/-- Matching bounds: the list of the entry is extended or replaced. -/
theorem updateMatching_spec (wellFormed : map.WellFormed)
    (entryMem : entry ∈ map.driverIntervals.entries)
    (first : entry.first = bounds.lower) (second : entry.second = bounds.upper)
    (driverList : DriverList) (merge : Bool) :
    ∃ result, map.updateMatching entry driverList merge = some result ∧ result.WellFormed ∧
      map.KeepsOutside result bounds ∧
      ((∀ other ∈ map.driverIntervals.entries, other.value = entry.value → other = entry) ∨
          (merge = true ∧ map.Holds entry driverList) →
        map.AddsDrivers result bounds driverList merge) := by
  obtain ⟨list, listed⟩ := wellFormed.live entry entryMem
  obtain ⟨result, newList, updated, assigned, nodes⟩ :
      ∃ result newList, map.updateMatching entry driverList merge = some result ∧
        map.Assigns result entry.value newList ∧
        newList.nodes = driverList.nodes ∪ (if merge then list.nodes else ∅) := by
    cases merge with
    | false =>
        obtain ⟨result, replaced, assigned⟩ :=
          replaceDriverList_assigns wellFormed.lists listed driverList
        exact ⟨result, _, replaced, assigned, by simp⟩
    | true =>
        obtain ⟨result, extended, assigned⟩ :=
          extendDriverList_assigns wellFormed.lists listed driverList
        exact ⟨result, _, extended, assigned, by simp [Finset.union_comm]⟩
  refine ⟨result, updated, assigned.wellFormed wellFormed, ?_, ?_⟩
  · intro other otherMem outside
    exact ⟨other, assigned.intervals ▸ otherMem, rfl, le_rfl, le_rfl⟩
  · intro unshared bit node
    have covers_iff : entry.Covers bit ↔ bit ∈ bounds := by
      simp only [Interval.Covers, DriverBitRange.mem_iff, first, second]
    rw [assigned.drives]
    by_cases inside : bit ∈ bounds
    · have only : ∀ other ∈ map.driverIntervals.entries, other.Covers bit → other = entry :=
        fun other otherMem covers =>
          wellFormed.ordered.unique otherMem entryMem covers (covers_iff.mpr inside)
      rw [if_pos inside, drives_of_covers wellFormed.ordered entryMem listed
        (covers_iff.mpr inside)]
      constructor
      · rintro ⟨other, otherMem, covers, member⟩
        cases only other otherMem covers
        rw [if_pos rfl, nodes] at member
        cases merge <;> simpa using member
      · intro member
        refine ⟨entry, entryMem, covers_iff.mpr inside, ?_⟩
        rw [if_pos rfl, nodes]
        cases merge <;> simpa using member
    · rw [if_neg inside]
      refine exists_congr fun other => and_congr_right fun otherMem =>
        and_congr_right fun covers => ?_
      split
      · next shared =>
          rcases unshared with unshared | ⟨rfl, found, foundEq, held⟩
          · cases unshared other otherMem shared
            exact absurd (covers_iff.mp covers) inside
          · rw [listed] at foundEq
            cases foundEq
            simp [nodes, shared, listed, Finset.union_eq_right.mpr held]
      · rfl

/-- The old parts drive what the entry drove outside the bounds. -/
theorem drives_insertOldParts {list : DriverList}
    (listed : map.getDriverList entry.value = some list)
    (overlaps : entry.Overlaps bounds.lower bounds.upper) {bit : Int}
    {node : Option NodeRef} :
    (map.insertOldParts entry bounds).Drives bit node ↔
      (entry.Covers bit ∧ bit ∉ bounds ∧ node ∈ list.nodes) ∨ map.Drives bit node := by
  have range := bounds.lower_le_upper
  have listedLeft : (map.insert ⟨entry.first, bounds.lower - 1⟩ entry.value).getDriverList
      entry.value = some list := listed
  simp only [insertOldParts, Interval.Covers, Interval.Overlaps, DriverBitRange.mem_iff] at *
  split_ifs with right left left
  · rw [drives_insert_mk (by omega) listedLeft, drives_insert_mk (by omega) listed]
    grind
  · rw [drives_insert_mk (by omega) listed]
    grind
  · rw [drives_insert_mk (by omega) listed]
    grind
  · grind

theorem mem_insertOldParts (overlaps : entry.Overlaps bounds.lower bounds.upper)
    {other : Interval Nat}
    (member : other ∈ (map.insertOldParts entry bounds).driverIntervals.entries) :
    (other.value = entry.value ∧ entry.first ≤ other.first ∧ other.second ≤ entry.second ∧
      (other.second < bounds.lower ∨ bounds.upper < other.first)) ∨
      other ∈ map.driverIntervals.entries := by
  have range := bounds.lower_le_upper
  simp only [insertOldParts, Interval.Overlaps] at member overlaps
  split_ifs at member with right left left
  · rw [mem_insert_mk (by omega), mem_insert_mk (by omega)] at member
    grind
  · rw [mem_insert_mk (by omega)] at member
    grind
  · rw [mem_insert_mk (by omega)] at member
    grind
  · exact Or.inr member

@[simp] theorem getDriverList_insertOldParts (handle : Nat) :
    (map.insertOldParts entry bounds).getDriverList handle = map.getDriverList handle := by
  simp only [insertOldParts]
  split_ifs <;> rfl

theorem WellFormed.insertOldParts (wellFormed : map.WellFormed) {list : DriverList}
    (listed : map.getDriverList entry.value = some list)
    (overlaps : entry.Overlaps bounds.lower bounds.upper)
    (apart : ∀ other ∈ map.driverIntervals.entries,
      other.second < entry.first ∨ entry.second < other.first) :
    (map.insertOldParts entry bounds).WellFormed := by
  have range := bounds.lower_le_upper
  have leftWf (left : entry.first < bounds.lower) :
      (map.insert ⟨entry.first, bounds.lower - 1⟩ entry.value).WellFormed := by
    refine wellFormed.insert_mk (by omega) ⟨list, listed⟩ fun other otherMem => ?_
    have := apart other otherMem
    simp only [Interval.Overlaps] at overlaps
    omega
  simp only [Interval.Overlaps] at overlaps
  simp only [DriverMap.insertOldParts]
  split_ifs with right left left
  · refine (leftWf left).insert_mk (by omega) ⟨list, listed⟩ fun other otherMem => ?_
    rcases (mem_insert_mk (by omega)).mp otherMem with rfl | otherMem
    · simp only
      omega
    · have := apart other otherMem
      omega
  · refine wellFormed.insert_mk (by omega) ⟨list, listed⟩ fun other otherMem => ?_
    have := apart other otherMem
    omega
  · exact leftWf left
  · exact wellFormed

/-- Every other entry lies to one side of a stored entry. -/
theorem apart_eraseInterval (ordered : map.driverIntervals.Ordered)
    (entryMem : entry ∈ map.driverIntervals.entries) {other : Interval Nat}
    (otherMem : other ∈ (map.eraseInterval entry).driverIntervals.entries) :
    other.second < entry.first ∨ entry.second < other.first := by
  obtain ⟨ne, otherMem⟩ := ordered.mem_erase.mp otherMem
  exact ordered.apart otherMem entryMem ne

/-- An entry around the bounds is split into two old parts and a new middle part. -/
theorem splitContaining_spec (wellFormed : map.WellFormed)
    (entryMem : entry ∈ map.driverIntervals.entries)
    (first : entry.first ≤ bounds.lower) (second : bounds.upper ≤ entry.second)
    (driverList : DriverList) (merge : Bool) :
    ∃ result, map.splitContaining entry bounds driverList merge = some result ∧
      result.WellFormed ∧ map.KeepsOutside result bounds ∧
      map.AddsDrivers result bounds driverList merge := by
  obtain ⟨list, listed⟩ := wellFormed.live entry entryMem
  have ordered := wellFormed.ordered
  have range := bounds.lower_le_upper
  have overlaps : entry.Overlaps bounds.lower bounds.upper := by
    simp only [Interval.Overlaps]
    omega
  have cutWf : ((map.eraseInterval entry).insertOldParts entry bounds).WellFormed :=
    (wellFormed.eraseInterval entry).insertOldParts listed overlaps
      fun other otherMem => apart_eraseInterval ordered entryMem otherMem
  have cutListed : ((map.eraseInterval entry).insertOldParts entry bounds).getDriverList
      entry.value = some list := by simpa using listed
  obtain ⟨newHandle, middle, newList, added, allocated, nodes⟩ :=
    addPartList_allocates cutWf.lists cutListed driverList merge
  refine ⟨middle.insert bounds newHandle, ?_, ?_, ?_, ?_⟩
  · simp only [splitContaining, added, Option.bind_eq_bind, Option.bind_some]
  · refine (allocated.wellFormed cutWf).insert ⟨_, allocated.get_self⟩ fun other otherMem => ?_
    rw [allocated.intervals] at otherMem
    rcases mem_insertOldParts overlaps otherMem with ⟨_, _, _, outside⟩ | otherMem
    · exact outside
    · have := apart_eraseInterval ordered entryMem otherMem
      omega
  · intro other otherMem outside
    rcases mem_insert.mp otherMem with rfl | otherMem
    · exact absurd ⟨le_rfl, le_rfl⟩ outside
    · rw [allocated.intervals] at otherMem
      rcases mem_insertOldParts overlaps otherMem with ⟨same, low, high, _⟩ | otherMem
      · exact ⟨entry, entryMem, same.symm, low, high⟩
      · exact ⟨other, (ordered.mem_erase.mp otherMem).2, rfl, le_rfl, le_rfl⟩
  · intro bit node
    rw [drives_insert allocated.get_self, allocated.drives cutWf.live,
      drives_insertOldParts (by simpa using listed) overlaps,
      drives_eraseInterval ordered entryMem, nodes]
    by_cases covers : entry.Covers bit
    · rw [drives_of_covers ordered entryMem listed covers]
      cases merge <;> by_cases inside : bit ∈ bounds <;> simp [inside, covers, or_comm]
    · have outside : bit ∉ bounds := by
        simp only [Interval.Covers, DriverBitRange.mem_iff] at *
        omega
      simp [covers, outside]

/-- An entry over the lower bound is split into an old part and a common part. -/
theorem splitLeft_spec (wellFormed : map.WellFormed)
    (entryMem : entry ∈ map.driverIntervals.entries)
    (first : entry.first < bounds.lower) (second : bounds.lower ≤ entry.second)
    (driverList : DriverList) (merge : Bool) :
    ∃ result newHandle, map.splitLeft entry bounds driverList merge = some result ∧
      result.WellFormed ∧ map.getDriverList newHandle = none ∧
      (∀ other, other ∈ result.driverIntervals.entries ↔
        other = ⟨entry.first, bounds.lower - 1, entry.value⟩ ∨
        other = ⟨bounds.lower, entry.second, newHandle⟩ ∨
        other ∈ (map.eraseInterval entry).driverIntervals.entries) ∧
      (∀ handle list, map.getDriverList handle = some list →
        result.getDriverList handle = some list) ∧
      map.AddsDrivers result ⟨bounds.lower, entry.second⟩ driverList merge := by
  obtain ⟨list, listed⟩ := wellFormed.live entry entryMem
  have ordered := wellFormed.ordered
  have listedCut : (map.eraseInterval entry).getDriverList entry.value = some list := listed
  have cutWf : ((map.eraseInterval entry).insert ⟨entry.first, bounds.lower - 1⟩
      entry.value).WellFormed := by
    refine (wellFormed.eraseInterval entry).insert_mk (by omega) ⟨list, listed⟩
      fun other otherMem => ?_
    have := apart_eraseInterval ordered entryMem otherMem
    omega
  obtain ⟨newHandle, middle, newList, added, allocated, nodes⟩ :=
    addPartList_allocates cutWf.lists listedCut driverList merge
  refine ⟨middle.insert ⟨bounds.lower, entry.second⟩ newHandle, newHandle, ?_, ?_,
    allocated.fresh, ?_, ?_, ?_⟩
  · simp only [splitLeft, guard, first, if_true, added, Option.bind_eq_bind, Option.bind_some,
      Option.pure_def]
  · refine (allocated.wellFormed cutWf).insert_mk second ⟨_, allocated.get_self⟩
      fun other otherMem => ?_
    rw [allocated.intervals, mem_insert_mk (by omega)] at otherMem
    rcases otherMem with rfl | otherMem
    · simp only
      omega
    · have := apart_eraseInterval ordered entryMem otherMem
      omega
  · intro other
    rw [mem_insert_mk second, allocated.intervals, mem_insert_mk (by omega)]
    tauto
  · intro handle found foundEq
    exact allocated.get_of_live foundEq
  · intro bit node
    rw [drives_insert_mk second allocated.get_self, allocated.drives cutWf.live,
      drives_insert_mk (by omega) listedCut, drives_eraseInterval ordered entryMem,
      nodes]
    simp only [DriverBitRange.mem_iff, DriverBitRange.lower_mk second,
      DriverBitRange.upper_mk second]
    by_cases covers : entry.Covers bit
    · rw [drives_of_covers ordered entryMem listed covers]
      simp only [covers, not_true, false_and, or_false]
      simp only [Interval.Covers] at covers
      cases merge <;> grind
    · simp only [covers, not_false_iff, true_and]
      simp only [Interval.Covers] at covers
      grind

/-- Below an erased entry the new drivers are inserted, and over it both where they merge. -/
theorem insertNewParts_spec (wellFormed : map.WellFormed) {list : DriverList}
    (listed : map.getDriverList entry.value = some list)
    (first : bounds.lower < entry.first) (reaches : entry.first ≤ bounds.upper)
    (apart : ∀ other ∈ map.driverIntervals.entries,
      ¬ other.Overlaps bounds.lower bounds.upper)
    (driverList : DriverList) (merge : Bool) :
    ∃ result, map.insertNewParts entry bounds driverList merge = some result ∧
      result.WellFormed ∧ result.getDriverList entry.value = some list ∧
      (∀ other ∈ result.driverIntervals.entries, other.Inside bounds.lower bounds.upper ∨
        other ∈ map.driverIntervals.entries) ∧
      ∀ bit node, result.Drives bit node ↔ map.Drives bit node ∨
        (bit ∈ bounds ∧ (node ∈ driverList.nodes ∨
          (merge = true ∧ entry.first ≤ bit ∧ node ∈ list.nodes))) := by
  have allocated := addDriverList_allocates wellFormed.lists driverList
  have newWf := allocated.wellFormed wellFormed
  have outside : ∀ other ∈ map.driverIntervals.entries,
      other.second < bounds.lower ∨ bounds.upper < other.first := by
    intro other otherMem
    have := apart other otherMem
    simp only [Interval.Overlaps] at this
    omega
  cases merge with
  | false =>
      refine ⟨(map.addDriverList driverList).2.insert bounds (map.addDriverList driverList).1,
        rfl, newWf.insert ⟨_, allocated.get_self⟩ outside, allocated.get_of_live listed, ?_, ?_⟩
      · intro other otherMem
        rcases mem_insert.mp otherMem with rfl | otherMem
        · exact Or.inl ⟨le_rfl, le_rfl⟩
        · exact Or.inr otherMem
      · intro bit node
        rw [drives_insert allocated.get_self, allocated.drives wellFormed.live]
        simp [or_comm]
  | true =>
      have leftWf : ((map.addDriverList driverList).2.insert ⟨bounds.lower, entry.first - 1⟩
          (map.addDriverList driverList).1).WellFormed := by
        refine newWf.insert_mk (by omega) ⟨_, allocated.get_self⟩ fun other otherMem => ?_
        have := outside other otherMem
        omega
      have leftListed : ((map.addDriverList driverList).2.insert
          ⟨bounds.lower, entry.first - 1⟩ (map.addDriverList driverList).1).getDriverList
            entry.value = some list := allocated.get_of_live listed
      obtain ⟨middleHandle, middle, middleList, added, merged, nodes⟩ :=
        addPartList_allocates leftWf.lists leftListed driverList true
      have addedMerged : ((map.addDriverList driverList).2.insert
          ⟨bounds.lower, entry.first - 1⟩ (map.addDriverList driverList).1).addMergedList
            entry.value driverList = some (middleHandle, middle) := added
      refine ⟨middle.insert ⟨entry.first, bounds.upper⟩ middleHandle, ?_, ?_,
        merged.get_of_live leftListed, ?_, ?_⟩
      · simp [insertNewParts, addedMerged]
      · refine (merged.wellFormed leftWf).insert_mk reaches ⟨_, merged.get_self⟩
          fun other otherMem => ?_
        rw [merged.intervals, mem_insert_mk (by omega)] at otherMem
        rcases otherMem with rfl | otherMem
        · simp only
          omega
        · have := outside other otherMem
          omega
      · intro other otherMem
        rw [mem_insert_mk reaches, merged.intervals, mem_insert_mk (by omega)] at otherMem
        simp only [Interval.Inside]
        rcases otherMem with rfl | rfl | otherMem
        · exact Or.inl ⟨by simp only; omega, le_rfl⟩
        · exact Or.inl ⟨le_rfl, by simp only; omega⟩
        · exact Or.inr otherMem
      · intro bit node
        rw [drives_insert_mk reaches merged.get_self, merged.drives leftWf.live,
          drives_insert_mk (by omega) allocated.get_self, allocated.drives wellFormed.live, nodes]
        simp only [if_true, Finset.mem_union, DriverBitRange.mem_iff, true_and]
        by_cases below : bit < entry.first
        · grind
        · grind

/-- An entry over the upper bound: new, common and old parts replace it. -/
theorem splitRight_spec (wellFormed : map.WellFormed)
    (entryMem : entry ∈ map.driverIntervals.entries)
    (first : bounds.lower < entry.first) (reaches : entry.first ≤ bounds.upper)
    (second : bounds.upper < entry.second)
    (alone : ∀ other ∈ map.driverIntervals.entries,
      other.Overlaps bounds.lower bounds.upper → other = entry)
    (driverList : DriverList) (merge : Bool) :
    ∃ result, map.splitRight entry bounds driverList merge = some result ∧
      result.WellFormed ∧ map.KeepsOutside result bounds ∧
      map.AddsDrivers result bounds driverList merge := by
  obtain ⟨list, listed⟩ := wellFormed.live entry entryMem
  have ordered := wellFormed.ordered
  have apart : ∀ other ∈ (map.eraseInterval entry).driverIntervals.entries,
      ¬ other.Overlaps bounds.lower bounds.upper := by
    intro other otherMem overlaps
    obtain ⟨ne, otherMem⟩ := ordered.mem_erase.mp otherMem
    exact ne (alone other otherMem overlaps)
  obtain ⟨middle, inserted, middleWf, middleListed, middleMem, middleDrives⟩ :=
    insertNewParts_spec (wellFormed.eraseInterval entry) listed first reaches apart
      driverList merge
  refine ⟨middle.insert ⟨bounds.upper + 1, entry.second⟩ entry.value, ?_, ?_, ?_, ?_⟩
  · simp [splitRight, inserted, guard, second]
  · refine middleWf.insert_mk (by omega) ⟨_, middleListed⟩ fun other otherMem => ?_
    rcases middleMem other otherMem with inside | otherMem
    · simp only [Interval.Inside] at inside
      omega
    · have := apart_eraseInterval ordered entryMem otherMem
      have := apart other otherMem
      simp only [Interval.Overlaps] at this
      omega
  · intro other otherMem outside
    rcases (mem_insert_mk (by omega)).mp otherMem with rfl | otherMem
    · refine ⟨entry, entryMem, rfl, ?_, le_rfl⟩
      simp only
      omega
    · rcases middleMem other otherMem with inside | otherMem
      · exact absurd inside outside
      · exact ⟨other, (ordered.mem_erase.mp otherMem).2, rfl, le_rfl, le_rfl⟩
  · intro bit node
    rw [drives_insert_mk (by omega) middleListed, middleDrives,
      drives_eraseInterval ordered entryMem]
    simp only [DriverBitRange.mem_iff]
    by_cases covers : entry.Covers bit
    · rw [drives_of_covers ordered entryMem listed covers]
      simp only [covers, not_true, false_and, false_or]
      simp only [Interval.Covers] at covers
      grind
    · have uncovered : bounds.lower ≤ bit ∧ bit ≤ bounds.upper → ¬ map.Drives bit node := by
        rintro inside ⟨other, otherMem, otherCovers, _⟩
        have overlaps : other.Overlaps bounds.lower bounds.upper := by
          simp only [Interval.Overlaps, Interval.Covers] at *
          omega
        cases alone other otherMem overlaps
        exact covers otherCovers
      simp only [covers, not_false_iff, true_and]
      simp only [Interval.Covers] at covers
      grind

/-- Erasing an entry inside the bounds frees its list. -/
theorem dropInside_spec (lists : map.driverLists.WellFormed) (entry : Interval Nat) :
    ∃ result, map.dropInside entry = some result ∧
      result.driverIntervals = map.driverIntervals.erase entry ∧
      result.driverLists.WellFormed ∧
      ∀ handle, result.getDriverList handle =
        if handle = entry.value then none else map.getDriverList handle := by
  simp only [dropInside]
  split
  · next valid =>
      obtain ⟨freed, freedEq⟩ := ExternalManager.erase_eq_some valid
      refine ⟨{ map.eraseInterval entry with driverLists := freed }, ?_, rfl,
        lists.erase freedEq, ExternalManager.get_erase freedEq⟩
      simp [eraseList, freedEq]
  · next invalid =>
      refine ⟨map.eraseInterval entry, rfl, rfl, lists, fun handle => ?_⟩
      split
      · next same =>
          subst same
          by_contra live
          exact invalid (ExternalManager.valid_iff.mpr (Option.ne_none_iff_exists'.mp live))
      · rfl

/-- Merging into an entry acts on every interval with its handle, and on the gap before it. -/
theorem mergeInside_spec (wellFormed : map.WellFormed)
    (entryMem : entry ∈ map.driverIntervals.entries)
    (reaches : entry.first ≤ bounds.upper)
    (earliest : ∀ other ∈ map.driverIntervals.entries,
      other.Overlaps bounds.lower bounds.upper → entry.first ≤ other.first)
    (driverList : DriverList) :
    ∃ result list newHandle, map.mergeInside entry bounds driverList = some result ∧
      result.WellFormed ∧ map.getDriverList entry.value = some list ∧
      map.getDriverList newHandle = none ∧
      (∀ other ∈ result.driverIntervals.entries,
        (bounds.lower < entry.first ∧ other = ⟨bounds.lower, entry.first - 1, newHandle⟩) ∨
        other ∈ map.driverIntervals.entries) ∧
      (∀ handle found, map.getDriverList handle = some found →
        result.getDriverList handle =
          some (if handle = entry.value then list.insertAll driverList else found)) ∧
      ∀ bit node, result.Drives bit node ↔ map.Drives bit node ∨
        node ∈ driverList.nodes ∧ ((bounds.lower ≤ bit ∧ bit < entry.first) ∨
          ∃ other ∈ map.driverIntervals.entries, other.value = entry.value ∧
            other.Covers bit) := by
  obtain ⟨list, listed⟩ := wellFormed.live entry entryMem
  obtain ⟨extended, extendedEq, assigned⟩ :=
    extendDriverList_assigns wellFormed.lists listed driverList
  have extendedWf := assigned.wellFormed wellFormed
  have allocated := addDriverList_allocates extendedWf.lists driverList
  have extendedGet : ∀ handle found, map.getDriverList handle = some found →
      extended.getDriverList handle =
        some (if handle = entry.value then list.insertAll driverList else found) := by
    intro handle found foundEq
    rw [assigned.get]
    split
    · rfl
    · exact foundEq
  have fresh : map.getDriverList (extended.addDriverList driverList).1 = none := by
    have := allocated.fresh
    rw [assigned.get] at this
    split at this
    · cases this
    · exact this
  have extendedDrives : ∀ bit node, extended.Drives bit node ↔ map.Drives bit node ∨
      node ∈ driverList.nodes ∧ ∃ other ∈ map.driverIntervals.entries,
        other.value = entry.value ∧ other.Covers bit := by
    intro bit node
    rw [assigned.drives]
    constructor
    · rintro ⟨other, otherMem, covers, driven⟩
      split at driven
      · next same =>
          rw [DriverList.nodes_insertAll, Finset.mem_union] at driven
          rcases driven with old | new
          · exact Or.inl ⟨other, otherMem, covers, list, same ▸ listed, old⟩
          · exact Or.inr ⟨new, other, otherMem, same, covers⟩
      · obtain ⟨found, foundEq, member⟩ := driven
        exact Or.inl ⟨other, otherMem, covers, found, foundEq, member⟩
    · rintro (⟨other, otherMem, covers, found, foundEq, member⟩ |
        ⟨new, other, otherMem, same, covers⟩)
      · refine ⟨other, otherMem, covers, ?_⟩
        split
        · next same =>
            rw [same, listed] at foundEq
            cases foundEq
            simp [member]
        · exact ⟨found, foundEq, member⟩
      · exact ⟨other, otherMem, covers, by simp [same, new]⟩
  by_cases gap : bounds.lower < entry.first
  · refine ⟨(extended.addDriverList driverList).2.insert ⟨bounds.lower, entry.first - 1⟩
      (extended.addDriverList driverList).1, list, _, ?_, ?_, listed, fresh, ?_, ?_, ?_⟩
    · simp [mergeInside, extendedEq, gap]
    · refine (allocated.wellFormed extendedWf).insert_mk (by omega) ⟨_, allocated.get_self⟩
        fun other otherMem => ?_
      rw [allocated.intervals, assigned.intervals] at otherMem
      by_contra overlaps
      have := earliest other otherMem (by simp only [Interval.Overlaps]; omega)
      omega
    · intro other otherMem
      rcases (mem_insert_mk (by omega)).mp otherMem with new | old
      · exact Or.inl ⟨gap, new⟩
      · rw [allocated.intervals, assigned.intervals] at old
        exact Or.inr old
    · intro handle found foundEq
      exact allocated.get_of_live (extendedGet handle found foundEq)
    · intro bit node
      rw [drives_insert_mk (by omega) allocated.get_self, allocated.drives extendedWf.live,
        extendedDrives]
      grind
  · refine ⟨extended, list, _, ?_, extendedWf, listed, fresh, ?_, extendedGet, ?_⟩
    · simp [mergeInside, extendedEq, gap]
    · intro other otherMem
      exact Or.inr (assigned.intervals ▸ otherMem)
    · intro bit node
      rw [extendedDrives]
      grind

end Cases

end DriverMap

end SlangNetlist
