import SlangNetlist.Tracking.Coverage

/-!
# The ends of the defined intervals

A call that replaces drivers cuts the intervals at the ends of its bounds.
Which intervals there are after it depends on those before and on the bounds
only, and not on the drivers.
-/

namespace SlangNetlist

open Library

/-- The first and the last bit of an interval. -/
abbrev Ends := Int × Int

namespace Ends

/-- The interval begins below the bounds and ends inside them, before their last bit. -/
def Straddles (bounds : DriverBitRange) (ends : Ends) : Prop :=
  ends.1 < bounds.lower ∧ bounds.lower ≤ ends.2 ∧ ends.2 < bounds.upper

instance (bounds : DriverBitRange) (ends : Ends) : Decidable (ends.Straddles bounds) :=
  inferInstanceAs (Decidable (_ ∧ _ ∧ _))

/-- What is left of an interval outside of the bounds. -/
def outside (bounds : DriverBitRange) (ends : Ends) : List Ends :=
  if ends.2 < bounds.lower ∨ bounds.upper < ends.1 then [ends]
  else
    (if ends.1 < bounds.lower then [(ends.1, bounds.lower - 1)] else []) ++
      if bounds.upper < ends.2 then [(bounds.upper + 1, ends.2)] else []

/-- The new intervals: one that straddles the lower end of the bounds leaves a cut. -/
def inside (bounds : DriverBitRange) (all : List Ends) : List Ends :=
  match all.filter (Straddles bounds) with
  | [] => [(bounds.lower, bounds.upper)]
  | cuts => cuts.flatMap fun cut => [(bounds.lower, cut.2), (cut.2 + 1, bounds.upper)]

/-- The intervals after the bounds are written. -/
def overwrite (bounds : DriverBitRange) (all : List Ends) : List Ends :=
  all.flatMap (outside bounds) ++ inside bounds all

variable {bounds : DriverBitRange} {own old : Ends} {all other : List Ends}

theorem mem_outside : own ∈ outside bounds old ↔
    (old = own ∧ (old.2 < bounds.lower ∨ bounds.upper < old.1)) ∨
      (¬ (old.2 < bounds.lower ∨ bounds.upper < old.1) ∧
        ((old.1 < bounds.lower ∧ own.1 = old.1 ∧ own.2 = bounds.lower - 1) ∨
          (bounds.upper < old.2 ∧ own.1 = bounds.upper + 1 ∧ own.2 = old.2))) := by
  unfold outside
  split_ifs with apart left right right <;>
    simp only [List.mem_append, List.mem_singleton, List.not_mem_nil, Prod.ext_iff] <;> grind

theorem mem_inside : own ∈ inside bounds all ↔
    (∃ cut ∈ all, cut.Straddles bounds ∧ (own = (bounds.lower, cut.2) ∨
        own = (cut.2 + 1, bounds.upper))) ∨
      ((∀ cut ∈ all, ¬ cut.Straddles bounds) ∧ own = (bounds.lower, bounds.upper)) := by
  unfold inside
  split
  · next none =>
      have free : ∀ cut ∈ all, ¬ cut.Straddles bounds := by
        simpa [List.filter_eq_nil_iff] using none
      rw [List.mem_singleton, and_iff_right free, or_iff_right]
      rintro ⟨cut, member, straddles, _⟩
      exact free cut member straddles
  · next some =>
      rw [or_iff_left]
      · simp only [List.mem_flatMap, List.mem_filter, decide_eq_true_eq, and_assoc,
          List.mem_pair]
      · rintro ⟨free, _⟩
        refine some (List.filter_eq_nil_iff.mpr fun cut member => ?_)
        simpa using free cut member

theorem mem_overwrite : own ∈ overwrite bounds all ↔
    (∃ old ∈ all, own ∈ outside bounds old) ∨ own ∈ inside bounds all := by
  rw [overwrite, List.mem_append, List.mem_flatMap]

/-- Only the members count. -/
theorem mem_overwrite_congr (same : ∀ own, own ∈ all ↔ own ∈ other) :
    own ∈ overwrite bounds all ↔ own ∈ overwrite bounds other := by
  simp only [mem_overwrite, mem_inside, same]

/-- Intervals that do not straddle the lower end of the bounds leave it uncut. -/
theorem mem_inside_uncut (uncut : ∀ cut ∈ all, ¬ cut.Straddles bounds) :
    own ∈ inside bounds all ↔ own = (bounds.lower, bounds.upper) := by
  rw [mem_inside, and_iff_right uncut, or_iff_right]
  rintro ⟨cut, member, straddles, _⟩
  exact uncut cut member straddles

section Cut

variable {first last : Int}

/-- The one interval that straddles the lower end cuts the new interval. -/
theorem mem_inside_cut (below : first < bounds.lower) (reaches : bounds.lower ≤ last)
    (before : last < bounds.upper) (others : ∀ old ∈ all, old.2 < bounds.lower ∨ last < old.1) :
    own ∈ inside bounds ((first, last) :: all) ↔
      own = (bounds.lower, last) ∨ own = (last + 1, bounds.upper) := by
  have straddles : Straddles bounds (first, last) := ⟨below, reaches, before⟩
  have none : ∀ old ∈ all, ¬ old.Straddles bounds := by
    intro old member
    have := others old member
    simp only [Straddles]
    omega
  rw [mem_inside, or_iff_left fun free => free.1 _ List.mem_cons_self straddles,
    List.exists_mem_cons_iff, and_iff_right straddles, or_iff_left]
  rintro ⟨old, member, straddlesToo, _⟩
  exact none old member straddlesToo

/--
An interval that straddles the lower end of the bounds may be cut there first,
and the rest of the bounds be written then.
-/
theorem mem_overwrite_cut (below : first < bounds.lower) (reaches : bounds.lower ≤ last)
    (before : last + 1 ≤ bounds.upper)
    (others : ∀ old ∈ all, old.1 ≤ old.2 ∧ (old.2 < bounds.lower ∨ last < old.1)) :
    own ∈ overwrite ⟨last + 1, bounds.upper⟩
        ((bounds.lower, last) :: (first, bounds.lower - 1) :: all) ↔
      own ∈ overwrite bounds ((first, last) :: all) := by
  have low := DriverBitRange.lower_mk before
  have top := DriverBitRange.upper_mk before
  have uncut : ∀ old ∈ (bounds.lower, last) :: (first, bounds.lower - 1) :: all,
      ¬ Straddles ⟨last + 1, bounds.upper⟩ old := by
    intro old member
    simp only [Straddles, low, top]
    rcases List.mem_cons.mp member with rfl | member
    · omega
    rcases List.mem_cons.mp member with rfl | member
    · simp only
      omega
    · have := others old member
      omega
  have far : ∀ old ∈ all,
      (own ∈ outside ⟨last + 1, bounds.upper⟩ old ↔ own ∈ outside bounds old) := by
    intro old member
    have := others old member
    simp only [mem_outside, low, top]
    grind
  have left : own ∈ outside bounds (first, last) ↔ own = (first, bounds.lower - 1) := by
    rw [mem_outside]
    grind
  have kept {part : Ends} (under : part.2 ≤ last) :
      own ∈ outside ⟨last + 1, bounds.upper⟩ part ↔ own = part := by
    rw [mem_outside, low, top]
    grind
  rw [mem_overwrite, mem_overwrite, mem_inside_uncut uncut, low, top,
    mem_inside_cut below reaches (by omega) fun old member => (others old member).2]
  simp only [List.exists_mem_cons_iff, left, @kept (bounds.lower, last) le_rfl,
    @kept (first, bounds.lower - 1) (by simp only; omega)]
  rw [exists_congr fun old => and_congr_right (far old), or_assoc]
  exact or_left_comm

end Cut

end Ends

namespace DriverMap

/-- The ends of the intervals. -/
def ends (map : DriverMap) : List Ends :=
  map.driverIntervals.entries.map fun entry => (entry.first, entry.second)

variable {map middle result : DriverMap} {entry : Interval Nat} {bounds : DriverBitRange}
  {driverList : DriverList} {own : Ends}

theorem mem_ends :
    own ∈ map.ends ↔ ∃ entry ∈ map.driverIntervals.entries, (entry.first, entry.second) = own :=
  List.mem_map

theorem exists_mem_ends {holds : Ends → Prop} : (∃ own ∈ map.ends, holds own) ↔
    ∃ entry ∈ map.driverIntervals.entries, holds (entry.first, entry.second) := by
  simp [ends]

theorem forall_mem_ends {holds : Ends → Prop} : (∀ own ∈ map.ends, holds own) ↔
    ∀ entry ∈ map.driverIntervals.entries, holds (entry.first, entry.second) := by
  simp [ends]

theorem ends_congr (same : result.driverIntervals = map.driverIntervals) :
    result.ends = map.ends := by
  rw [ends, same, ends]

theorem mem_ends_insert {handle : Nat} :
    own ∈ (map.insert bounds handle).ends ↔
      own = (bounds.lower, bounds.upper) ∨ own ∈ map.ends := by
  simp only [mem_ends, mem_insert]
  constructor
  · rintro ⟨entry, rfl | member, rfl⟩
    · exact Or.inl rfl
    · exact Or.inr ⟨entry, member, rfl⟩
  · rintro (rfl | ⟨entry, member, rfl⟩)
    · exact ⟨⟨bounds.lower, bounds.upper, handle⟩, Or.inl rfl, rfl⟩
    · exact ⟨entry, Or.inr member, rfl⟩

theorem mem_ends_insert_mk {low high : Int} (proper : low ≤ high) {handle : Nat} :
    own ∈ (map.insert ⟨low, high⟩ handle).ends ↔ own = (low, high) ∨ own ∈ map.ends := by
  rw [mem_ends_insert, DriverBitRange.lower_mk proper, DriverBitRange.upper_mk proper]

/-- The intervals before an erasure. -/
theorem mem_ends_erase (ordered : map.driverIntervals.Ordered)
    (entryMem : entry ∈ map.driverIntervals.entries) :
    own ∈ map.ends ↔ own = (entry.first, entry.second) ∨ own ∈ (map.eraseInterval entry).ends := by
  simp only [mem_ends, eraseInterval, ordered.mem_erase]
  constructor
  · rintro ⟨other, otherMem, rfl⟩
    by_cases same : other = entry
    · exact Or.inl (by rw [same])
    · exact Or.inr ⟨other, ⟨same, otherMem⟩, rfl⟩
  · rintro (rfl | ⟨other, ⟨_, otherMem⟩, rfl⟩)
    · exact ⟨entry, entryMem, rfl⟩
    · exact ⟨other, otherMem, rfl⟩

/-- The result has the intervals of the map with the bounds written over them. -/
def Overwritten (map result : DriverMap) (bounds : DriverBitRange) : Prop :=
  ∀ own, own ∈ result.ends ↔ own ∈ Ends.overwrite bounds map.ends

/-- Bounds apart from all intervals add one interval. -/
theorem mem_overwrite_free (free : ∀ other ∈ map.driverIntervals.entries,
    ¬ other.Overlaps bounds.lower bounds.upper) :
    own ∈ Ends.overwrite bounds map.ends ↔
      own = (bounds.lower, bounds.upper) ∨ own ∈ map.ends := by
  have apart : ∀ old ∈ map.ends, old.2 < bounds.lower ∨ bounds.upper < old.1 := by
    intro old member
    obtain ⟨entry, entryMem, rfl⟩ := mem_ends.mp member
    have overlaps := free entry entryMem
    simp only [Interval.Overlaps] at overlaps
    omega
  have uncut : ∀ cut ∈ map.ends, ¬ cut.Straddles bounds := by
    intro cut member straddles
    have := apart cut member
    simp only [Ends.Straddles] at straddles
    omega
  rw [Ends.mem_overwrite, Ends.mem_inside_uncut uncut, or_comm]
  refine or_congr_right ⟨?_, fun member => ⟨own, member, Ends.mem_outside.mpr
    (Or.inl ⟨rfl, apart own member⟩)⟩⟩
  rintro ⟨old, member, outside⟩
  rcases Ends.mem_outside.mp outside with ⟨rfl, _⟩ | ⟨overlaps, _⟩
  · exact member
  · exact absurd (apart old member) overlaps

/-- Bounds that meet one interval, which reaches up to their end, leave its rest. -/
theorem mem_overwrite_alone (ordered : map.driverIntervals.Ordered)
    (entryMem : entry ∈ map.driverIntervals.entries)
    (overlaps : entry.first ≤ bounds.upper) (reaches : bounds.upper ≤ entry.second)
    (alone : ∀ other ∈ map.driverIntervals.entries,
      other.Overlaps bounds.lower bounds.upper → other = entry) :
    own ∈ Ends.overwrite bounds map.ends ↔ own = (bounds.lower, bounds.upper) ∨
      own ∈ Ends.outside bounds (entry.first, entry.second) ∨
        own ∈ (map.eraseInterval entry).ends := by
  have range := bounds.lower_le_upper
  have others : ∀ old, old ∈ (map.eraseInterval entry).ends ↔
      old ∈ map.ends ∧ (old.2 < bounds.lower ∨ bounds.upper < old.1) := by
    intro old
    simp only [mem_ends, eraseInterval, ordered.mem_erase]
    constructor
    · rintro ⟨other, ⟨ne, otherMem⟩, rfl⟩
      have apart := mt (alone other otherMem) ne
      simp only [Interval.Overlaps] at apart
      exact ⟨⟨other, otherMem, rfl⟩, by simp only; omega⟩
    · rintro ⟨⟨other, otherMem, rfl⟩, apart⟩
      refine ⟨other, ⟨?_, otherMem⟩, rfl⟩
      rintro rfl
      simp only at apart
      omega
  have met : ∀ old ∈ map.ends, ¬ (old.2 < bounds.lower ∨ bounds.upper < old.1) →
      old = (entry.first, entry.second) := by
    intro old member meets
    obtain ⟨other, otherMem, rfl⟩ := mem_ends.mp member
    rw [alone other otherMem (by simp only [Interval.Overlaps] at meets ⊢; omega)]
  have uncut : ∀ cut ∈ map.ends, ¬ cut.Straddles bounds := by
    intro cut member straddles
    simp only [Ends.Straddles] at straddles
    have same := met cut member (by omega)
    rw [same] at straddles
    simp only at straddles
    omega
  rw [Ends.mem_overwrite, Ends.mem_inside_uncut uncut, or_comm]
  refine or_congr_right ?_
  rw [others]
  constructor
  · rintro ⟨old, member, outside⟩
    by_cases apart : old.2 < bounds.lower ∨ bounds.upper < old.1
    · rcases Ends.mem_outside.mp outside with ⟨rfl, _⟩ | ⟨meets, _⟩
      · exact Or.inr ⟨member, apart⟩
      · exact absurd apart meets
    · exact Or.inl (met old member apart ▸ outside)
  · rintro (outside | ⟨member, apart⟩)
    · exact ⟨_, mem_ends.mpr ⟨entry, entryMem, rfl⟩, outside⟩
    · exact ⟨own, member, Ends.mem_outside.mpr (Or.inl ⟨rfl, apart⟩)⟩

/-! ## The overlap cases -/

theorem splitContaining_overwritten (ordered : map.driverIntervals.Ordered)
    (entryMem : entry ∈ map.driverIntervals.entries)
    (first : entry.first ≤ bounds.lower) (second : bounds.upper ≤ entry.second)
    (alone : ∀ other ∈ map.driverIntervals.entries,
      other.Overlaps bounds.lower bounds.upper → other = entry)
    (splits : map.splitContaining entry bounds driverList false = some result) :
    map.Overwritten result bounds := by
  have range := bounds.lower_le_upper
  obtain ⟨⟨newHandle, cut⟩, adds, rfl⟩ := splitContaining_eq_some.mp splits
  have parts := ends_congr (intervals_addPartList adds)
  intro own
  rw [mem_ends_insert, parts, mem_overwrite_alone ordered entryMem (by omega) second alone]
  refine or_congr_right ?_
  rw [Ends.mem_outside]
  unfold insertOldParts
  split_ifs with right left left
  · rw [mem_ends_insert_mk (by omega), mem_ends_insert_mk (by omega)]
    grind
  · rw [mem_ends_insert_mk (by omega)]
    grind
  · rw [mem_ends_insert_mk (by omega)]
    grind
  · grind

theorem splitRight_overwritten (ordered : map.driverIntervals.Ordered)
    (entryMem : entry ∈ map.driverIntervals.entries)
    (first : bounds.lower < entry.first) (reaches : entry.first ≤ bounds.upper)
    (second : bounds.upper < entry.second)
    (alone : ∀ other ∈ map.driverIntervals.entries,
      other.Overlaps bounds.lower bounds.upper → other = entry)
    (splits : map.splitRight entry bounds driverList false = some result) :
    map.Overwritten result bounds := by
  obtain ⟨cut, inserts, rfl⟩ := splitRight_cases splits
  have added : ∀ own, own ∈ cut.ends ↔
      own = (bounds.lower, bounds.upper) ∨ own ∈ (map.eraseInterval entry).ends := by
    intro own
    rcases insertNewParts_cases inserts with ⟨merges, _⟩ | ⟨_, rfl⟩
    · cases merges
    · exact mem_ends_insert
  intro own
  rw [mem_ends_insert_mk (by omega), added,
    mem_overwrite_alone ordered entryMem reaches second.le alone, Ends.mem_outside]
  grind

/-- An interval that lies inside the bounds leaves nothing. -/
theorem dropInside_overwritten (ordered : map.driverIntervals.Ordered)
    (entryMem : entry ∈ map.driverIntervals.entries)
    (first : bounds.lower ≤ entry.first) (second : entry.second ≤ bounds.upper)
    (dropped : map.dropInside entry = some middle) (rest : middle.Overwritten result bounds) :
    map.Overwritten result bounds := by
  have proper := ordered.proper entry entryMem
  have others : ∀ old, old ∈ map.ends ↔ old = (entry.first, entry.second) ∨ old ∈ middle.ends := by
    intro old
    have erased : middle.ends = (map.eraseInterval entry).ends :=
      ends_congr (intervals_dropInside dropped)
    rw [erased, mem_ends_erase ordered entryMem]
  have nothing (own : Ends) : own ∉ Ends.outside bounds (entry.first, entry.second) := by
    rw [Ends.mem_outside]
    simp only
    omega
  have below : ¬ Ends.Straddles bounds (entry.first, entry.second) := by
    simp only [Ends.Straddles]
    omega
  intro own
  rw [rest own, Ends.mem_overwrite, Ends.mem_overwrite, Ends.mem_inside, Ends.mem_inside]
  simp only [others, or_and_right, exists_or, exists_eq_left, nothing, false_or, or_imp,
    forall_and, forall_eq, below, false_and, not_false_iff, true_and]

/--
An interval that straddles the lower end is cut there, and what is left of the
bounds begins behind it.
-/
theorem splitLeft_overwritten (ordered : map.driverIntervals.Ordered)
    (entryMem : entry ∈ map.driverIntervals.entries)
    (first : entry.first < bounds.lower) (reaches : bounds.lower ≤ entry.second)
    (second : entry.second < bounds.upper)
    (later : ∀ other ∈ map.driverIntervals.entries,
      other.Overlaps bounds.lower bounds.upper → other ≠ entry → entry.second < other.first)
    (splits : map.splitLeft entry bounds driverList false = some middle)
    (rest : middle.Overwritten result ⟨entry.second + 1, bounds.upper⟩) :
    map.Overwritten result bounds := by
  have others : ∀ old ∈ (map.eraseInterval entry).ends,
      old.1 ≤ old.2 ∧ (old.2 < bounds.lower ∨ entry.second < old.1) := by
    intro old member
    obtain ⟨other, otherMem, rfl⟩ := mem_ends.mp member
    obtain ⟨ne, otherMem⟩ := ordered.mem_erase.mp otherMem
    have after := later other otherMem
    have proper := ordered.proper other otherMem
    simp only [Interval.Overlaps] at after
    grind
  have all (old : Ends) : old ∈ map.ends ↔
      old ∈ (entry.first, entry.second) :: (map.eraseInterval entry).ends := by
    rw [List.mem_cons, mem_ends_erase ordered entryMem]
  obtain ⟨⟨newHandle, cut⟩, adds, rfl⟩ := splitLeft_cases splits
  have parts := ends_congr (intervals_addPartList adds)
  have cutAll (old : Ends) : old ∈ (cut.insert ⟨bounds.lower, entry.second⟩ newHandle).ends ↔
      old ∈ (bounds.lower, entry.second) :: (entry.first, bounds.lower - 1) ::
        (map.eraseInterval entry).ends := by
    rw [mem_ends_insert_mk reaches, parts, mem_ends_insert_mk (by omega), List.mem_cons,
      List.mem_cons]
  intro own
  rw [rest own, Ends.mem_overwrite_congr cutAll, Ends.mem_overwrite_congr all]
  exact Ends.mem_overwrite_cut first reaches second others

/-! ## The loop -/

/-- The loop writes its bounds over the intervals, if it succeeds. -/
theorem addDriversLoop_overwritten (ascending : bounds.left ≤ bounds.right)
    (ordered : map.driverIntervals.Ordered)
    (looped : addDriversLoop driverList false map bounds = some result) :
    map.Overwritten result bounds := by
  fun_induction addDriversLoop driverList false map bounds with
  | case1 map bounds next =>
      cases looped
      intro own
      rw [mem_overwrite_free fun other => nextOverlap_none ordered ascending next]
      exact @mem_ends_insert (map.addDriverList driverList).2 bounds own _
  | case2 map bounds entry next kind =>
      have spec := overlapCase_spec ascending entry
      rw [kind] at spec
      have entryMem := nextOverlap_entry next
      intro own
      rw [ends_congr (intervals_updateMatching looped), mem_overwrite_alone ordered entryMem
        (spec.1 ▸ bounds.lower_le_upper) spec.2.ge fun other otherMem overlaps =>
          nextOverlap_alone ordered ascending next spec.2.ge otherMem overlaps,
        mem_ends_erase ordered entryMem, spec.1, spec.2]
      refine or_congr_right (or_iff_right fun outside => ?_).symm
      have range := bounds.lower_le_upper
      rw [Ends.mem_outside] at outside
      omega
  | case3 map bounds entry next kind =>
      have spec := overlapCase_spec ascending entry
      rw [kind] at spec
      exact splitContaining_overwritten ordered (nextOverlap_entry next) spec.1 spec.2.1
        (fun other otherMem overlaps =>
          nextOverlap_alone ordered ascending next spec.2.1 otherMem overlaps) looped
  | case4 | case7 | case9 | case13 => cases looped
  | case5 map bounds entry next kind merges => cases merges
  | case6 map bounds entry next kind merges => cases merges
  | case8 map bounds entry next kind replaces middle dropped ih =>
      have spec := overlapCase_spec ascending entry
      rw [kind] at spec
      have entryMem := nextOverlap_entry next
      have rest := ih ascending (intervals_dropInside dropped ▸ ordered.erase entry) looped
      exact dropInside_overwritten ordered entryMem spec.1 spec.2.1 dropped rest
  | case10 map bounds entry next kind middle splits used =>
      have spec := overlapCase_spec ascending entry
      rw [kind] at spec
      omega
  | case11 map bounds entry next kind middle splits remaining ih =>
      have spec := overlapCase_spec ascending entry
      rw [kind] at spec
      have entryMem := nextOverlap_entry next
      have front := splitLeft_spreads ordered entryMem spec.1 spec.2.1 splits
      have rest := ih (not_lt.mp remaining) front.ordered looped
      exact splitLeft_overwritten ordered entryMem spec.1 spec.2.1 spec.2.2
        (fun other otherMem overlaps ne =>
          nextOverlap_first ordered ascending next otherMem overlaps ne) splits rest
  | case12 map bounds entry next kind =>
      have spec := overlapCase_spec ascending entry
      rw [kind] at spec
      exact splitRight_overwritten ordered (nextOverlap_entry next) spec.1 spec.2.1 spec.2.2
        (fun other otherMem overlaps =>
          nextOverlap_alone ordered ascending next spec.2.2.le otherMem overlaps) looped

/-- `addDrivers` without merging writes its bounds over the intervals. -/
theorem addDrivers_overwritten (ordered : map.driverIntervals.Ordered)
    (added : map.addDrivers bounds driverList false = some result) :
    map.Overwritten result bounds := by
  have overwritten := addDriversLoop_overwritten
    (show bounds.normalize.left ≤ bounds.normalize.right from bounds.lower_le_upper) ordered added
  intro own
  rw [overwritten own]
  simp only [Ends.mem_overwrite, Ends.mem_outside, Ends.mem_inside, Ends.Straddles,
    DriverBitRange.lower_normalize, DriverBitRange.upper_normalize]

end DriverMap

end SlangNetlist
