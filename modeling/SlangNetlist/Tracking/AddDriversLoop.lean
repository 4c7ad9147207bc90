import SlangNetlist.Tracking.AddDriversCases

/-!
# The driver loop

Without merging the loop shortens one entry on the left, drops the entries
inside the bounds and ends with an insertion; with merging it walks over the
entries in ascending order.  Both are correct where the entries inside the
bounds do not share their lists with entries outside.
-/

namespace SlangNetlist

open Library

namespace DriverMap

/-- No interval inside the bounds shares its list with an interval that is not. -/
def Separated (map : DriverMap) (bounds : DriverBitRange) : Prop :=
  ∀ entry ∈ map.driverIntervals.entries, entry.Inside bounds.lower bounds.upper →
    ∀ other ∈ map.driverIntervals.entries, other.value = entry.value →
      other.Inside bounds.lower bounds.upper

instance (map : DriverMap) (bounds : DriverBitRange) : Decidable (map.Separated bounds) :=
  inferInstanceAs (Decidable (∀ entry ∈ _, _ → ∀ other ∈ _, _ → _))

/-- The interval lies inside the bounds and differs from them. -/
def ProperlyInside (entry : Interval Nat) (bounds : DriverBitRange) : Prop :=
  entry.Inside bounds.lower bounds.upper ∧
    ¬ (entry.first = bounds.lower ∧ entry.second = bounds.upper)

instance (entry : Interval Nat) (bounds : DriverBitRange) :
    Decidable (ProperlyInside entry bounds) :=
  inferInstanceAs (Decidable (_ ∧ _))

/-- `Separated` for the intervals that a call without merging drops. -/
def Releasable (map : DriverMap) (bounds : DriverBitRange) : Prop :=
  ∀ entry ∈ map.driverIntervals.entries, ProperlyInside entry bounds →
    ∀ other ∈ map.driverIntervals.entries, other.value = entry.value →
      other.Inside bounds.lower bounds.upper

instance (map : DriverMap) (bounds : DriverBitRange) : Decidable (map.Releasable bounds) :=
  inferInstanceAs (Decidable (∀ entry ∈ _, _ → ∀ other ∈ _, _ → _))

theorem Separated.releasable {map : DriverMap} {bounds : DriverBitRange}
    (separated : map.Separated bounds) : map.Releasable bounds :=
  fun entry entryMem inside => separated entry entryMem inside.1

/-! ## One iteration -/

section Iteration

variable {map : DriverMap} {bounds : DriverBitRange} {entry : Interval Nat}
  (driverList : DriverList) (merge : Bool)

theorem addDriversLoop_remaining (next : map.nextOverlap bounds = none) :
    addDriversLoop driverList merge map bounds =
      some (map.insertRemaining bounds driverList) := by
  rw [addDriversLoop]
  split <;> simp_all

theorem addDriversLoop_matching (next : map.nextOverlap bounds = some entry)
    (kind : overlapCase entry bounds = .matching) :
    addDriversLoop driverList merge map bounds = map.updateMatching entry driverList merge := by
  rw [addDriversLoop]
  split <;> simp_all

theorem addDriversLoop_containsNew (next : map.nextOverlap bounds = some entry)
    (kind : overlapCase entry bounds = .containsNew) :
    addDriversLoop driverList merge map bounds =
      map.splitContaining entry bounds driverList merge := by
  rw [addDriversLoop]
  split <;> simp_all

theorem addDriversLoop_rightOverlap (next : map.nextOverlap bounds = some entry)
    (kind : overlapCase entry bounds = .rightOverlap) :
    addDriversLoop driverList merge map bounds =
      map.splitRight entry bounds driverList merge := by
  rw [addDriversLoop]
  split <;> simp_all

theorem addDriversLoop_drop (next : map.nextOverlap bounds = some entry)
    (kind : overlapCase entry bounds = .insideNew) {dropped : DriverMap}
    (drops : map.dropInside entry = some dropped) :
    addDriversLoop driverList false map bounds =
      addDriversLoop driverList false dropped bounds := by
  rw [addDriversLoop]
  split
  · simp_all
  · next found foundEq =>
      rw [next] at foundEq
      cases foundEq
      rw [kind]
      simp only [Bool.false_eq_true, if_false]
      split <;> simp_all

theorem addDriversLoop_merge (next : map.nextOverlap bounds = some entry)
    (kind : overlapCase entry bounds = .insideNew) {merged : DriverMap}
    (merges : map.mergeInside entry bounds driverList = some merged) :
    addDriversLoop driverList true map bounds =
      if entry.second + 1 > bounds.upper then some merged
      else addDriversLoop driverList true merged ⟨entry.second + 1, bounds.upper⟩ := by
  rw [addDriversLoop]
  split
  · simp_all
  · next found foundEq =>
      rw [next] at foundEq
      cases foundEq
      rw [kind]
      simp only [if_true]
      split <;> simp_all

theorem addDriversLoop_leftOverlap (next : map.nextOverlap bounds = some entry)
    (kind : overlapCase entry bounds = .leftOverlap) {shortened : DriverMap}
    (splits : map.splitLeft entry bounds driverList merge = some shortened) :
    addDriversLoop driverList merge map bounds =
      if entry.second + 1 > bounds.upper then some shortened
      else addDriversLoop driverList merge shortened ⟨entry.second + 1, bounds.upper⟩ := by
  rw [addDriversLoop]
  split
  · simp_all
  · next found foundEq =>
      rw [next] at foundEq
      cases foundEq
      rw [kind]
      dsimp only
      split <;> simp_all

end Iteration

/-! ## Replacing drivers -/

section Replace

variable {map : DriverMap} {bounds : DriverBitRange}

/--
The state of the loop once it has dropped an entry: the entries inside the
bounds may have lost their lists, and all entries with such a list are inside.
-/
structure Dropping (map : DriverMap) (bounds : DriverBitRange) : Prop where
  ordered : map.driverIntervals.Ordered
  lists : map.driverLists.WellFormed
  live : ∀ entry ∈ map.driverIntervals.entries,
    ¬ entry.Inside bounds.lower bounds.upper → map.Live entry
  proper : ∀ entry ∈ map.driverIntervals.entries,
    entry.Inside bounds.lower bounds.upper → ProperlyInside entry bounds
  closed : ∀ entry ∈ map.driverIntervals.entries,
    entry.Overlaps bounds.lower bounds.upper → bounds.lower ≤ entry.first
  releasable : map.Releasable bounds

theorem Dropping.wellFormed (dropping : map.Dropping bounds)
    (emptied : ∀ entry ∈ map.driverIntervals.entries,
      ¬ entry.Inside bounds.lower bounds.upper) : map.WellFormed :=
  ⟨dropping.ordered, dropping.lists, fun entry entryMem =>
    dropping.live entry entryMem (emptied entry entryMem)⟩

/-- What one dropped entry leaves behind. -/
structure Dropped (map result : DriverMap) (bounds : DriverBitRange) (entry : Interval Nat) :
    Prop where
  dropping : result.Dropping bounds
  size : result.size < map.size
  keeps : ∀ other ∈ result.driverIntervals.entries, other ∈ map.driverIntervals.entries
  drives : ∀ bit node, bit ∉ bounds → (result.Drives bit node ↔ map.Drives bit node)

theorem dropInside_dropped (ordered : map.driverIntervals.Ordered)
    (lists : map.driverLists.WellFormed) (releasable : map.Releasable bounds)
    {entry : Interval Nat} (entryMem : entry ∈ map.driverIntervals.entries)
    (inside : ProperlyInside entry bounds)
    (live : ∀ other ∈ map.driverIntervals.entries,
      ¬ other.Inside bounds.lower bounds.upper → map.Live other)
    (closed : ∀ other ∈ map.driverIntervals.entries,
      other.Overlaps bounds.lower bounds.upper → bounds.lower ≤ other.first) :
    ∃ result, map.dropInside entry = some result ∧ map.Dropped result bounds entry := by
  obtain ⟨result, drops, intervals, resultLists, get⟩ := dropInside_spec lists entry
  have kept : ∀ other, other ∈ result.driverIntervals.entries ↔
      other ≠ entry ∧ other ∈ map.driverIntervals.entries := by
    intro other
    rw [intervals, ordered.mem_erase]
  have unshared : ∀ other ∈ map.driverIntervals.entries,
      ¬ other.Inside bounds.lower bounds.upper → other.value ≠ entry.value :=
    fun other otherMem outside same =>
      outside (releasable entry entryMem inside other otherMem same)
  refine ⟨result, drops, ⟨?_, resultLists, ?_, ?_, ?_, ?_⟩, ?_, ?_, ?_⟩
  · exact intervals ▸ ordered.erase entry
  · intro other otherMem outside
    obtain ⟨_, otherMem⟩ := (kept other).mp otherMem
    obtain ⟨list, listed⟩ := live other otherMem outside
    refine ⟨list, ?_⟩
    rw [get, if_neg (unshared other otherMem outside), listed]
  · rintro other otherMem otherInside
    obtain ⟨ne, otherMem⟩ := (kept other).mp otherMem
    refine ⟨otherInside, fun ⟨first, second⟩ => ?_⟩
    have apart := ordered.apart otherMem entryMem ne
    have := ordered.proper entry entryMem
    simp only [Interval.Apart, ProperlyInside, Interval.Inside] at apart inside
    omega
  · exact fun other otherMem => closed other ((kept other).mp otherMem).2
  · intro other otherMem otherInside third thirdMem
    exact releasable other ((kept other).mp otherMem).2 otherInside third
      ((kept third).mp thirdMem).2
  · have := size_dropInside entryMem drops
    omega
  · exact fun other otherMem => ((kept other).mp otherMem).2
  · intro bit node outside
    unfold Drives
    constructor
    · rintro ⟨other, otherMem, covers, list, listed, member⟩
      obtain ⟨_, otherMem⟩ := (kept other).mp otherMem
      rw [get] at listed
      split at listed
      · cases listed
      · exact ⟨other, otherMem, covers, list, listed, member⟩
    · rintro ⟨other, otherMem, covers, list, listed, member⟩
      have otherOutside : ¬ other.Inside bounds.lower bounds.upper := by
        simp only [Interval.Inside, Interval.Covers, DriverBitRange.mem_iff] at *
        omega
      have differs := unshared other otherMem otherOutside
      refine ⟨other, (kept other).mpr ⟨fun same => differs (same ▸ rfl), otherMem⟩, covers,
        list, ?_, member⟩
      rw [get, if_neg differs, listed]

namespace Dropped

variable {dropped result : DriverMap} {entry : Interval Nat}

theorem keepsOutside (drop : map.Dropped dropped bounds entry)
    (keeps : dropped.KeepsOutside result bounds) : map.KeepsOutside result bounds := by
  intro other otherMem outside
  obtain ⟨old, oldMem, rest⟩ := keeps other otherMem outside
  exact ⟨old, drop.keeps old oldMem, rest⟩

theorem addsDrivers (drop : map.Dropped dropped bounds entry)
    {driverList : DriverList} (adds : dropped.AddsDrivers result bounds driverList false) :
    map.AddsDrivers result bounds driverList false := by
  intro bit node
  rw [adds bit node]
  split
  · simp
  · next outside => exact drop.drives bit node outside

end Dropped

/-- The loop, once it drops entries, ends with an insertion into the emptied bounds. -/
theorem Dropping.addDriversLoop (ascending : bounds.left ≤ bounds.right)
    (dropping : map.Dropping bounds) (driverList : DriverList) :
    ∃ result, addDriversLoop driverList false map bounds = some result ∧ result.WellFormed ∧
      map.KeepsOutside result bounds ∧ map.AddsDrivers result bounds driverList false := by
  induction measured : map.size using Nat.strong_induction_on generalizing map with
  | _ size ih =>
    subst measured
    have ordered := dropping.ordered
    cases next : map.nextOverlap bounds with
    | none =>
        have apart : ∀ entry ∈ map.driverIntervals.entries,
            ¬ entry.Overlaps bounds.lower bounds.upper :=
          fun entry entryMem => nextOverlap_none ordered ascending next entryMem
        have wellFormed := dropping.wellFormed fun entry entryMem inside => by
          have := ordered.proper entry entryMem
          refine apart entry entryMem ?_
          simp only [Interval.Inside, Interval.Overlaps] at *
          omega
        exact ⟨_, addDriversLoop_remaining driverList false next,
          insertRemaining_spec wellFormed apart driverList false⟩
    | some entry =>
        obtain ⟨entryMem, overlaps⟩ := IntervalMap.mem_find.mp (nextOverlap_mem next)
        have spec := overlapCase_spec ascending entry
        have wellFormed (reaches : bounds.upper ≤ entry.second)
            (outside : ¬ entry.Inside bounds.lower bounds.upper) : map.WellFormed := by
          refine dropping.wellFormed fun other otherMem inside => ?_
          have := ordered.proper other otherMem
          have overlapping : other.Overlaps bounds.lower bounds.upper := by
            simp only [Interval.Inside, Interval.Overlaps] at *
            omega
          cases nextOverlap_alone ordered ascending next reaches otherMem overlapping
          exact outside inside
        cases kind : overlapCase entry bounds with
        | matching =>
            rw [kind] at spec
            have inside : entry.Inside bounds.lower bounds.upper := ⟨spec.1.ge, spec.2.le⟩
            exact absurd spec (dropping.proper entry entryMem inside).2
        | containsNew =>
            rw [kind] at spec
            obtain ⟨first, second, differs⟩ := spec
            rw [addDriversLoop_containsNew driverList false next kind]
            refine splitContaining_spec (wellFormed second ?_) entryMem first second driverList
              false
            rintro ⟨low, high⟩
            exact differs ⟨by omega, by omega⟩
        | insideNew =>
            rw [kind] at spec
            obtain ⟨first, second, differs⟩ := spec
            obtain ⟨dropped, drops, dropping'⟩ := dropInside_dropped ordered dropping.lists
              dropping.releasable entryMem ⟨⟨first, second⟩, differs⟩ dropping.live
              dropping.closed
            rw [addDriversLoop_drop driverList next kind drops]
            obtain ⟨result, looped, resultWf, keeps, adds⟩ :=
              ih dropped.size dropping'.size dropping'.dropping rfl
            refine ⟨result, looped, resultWf, dropping'.keepsOutside keeps, ?_⟩
            exact dropping'.addsDrivers adds
        | leftOverlap =>
            rw [kind] at spec
            have := dropping.closed entry entryMem overlaps
            omega
        | rightOverlap =>
            rw [kind] at spec
            obtain ⟨first, reaches, second⟩ := spec
            rw [addDriversLoop_rightOverlap driverList false next kind]
            refine splitRight_spec (wellFormed second.le ?_) entryMem first reaches second
              (fun other otherMem => nextOverlap_alone ordered ascending next second.le otherMem)
              driverList false
            rintro ⟨_, high⟩
            omega
        | skip =>
            rw [kind] at spec
            exact absurd ⟨ordered.proper entry entryMem, overlaps⟩ spec

end Replace

/-! ## Entries over the lower bound -/

section Shorten

variable {map shortened result : DriverMap} {bounds : DriverBitRange} {entry : Interval Nat}
  {driverList : DriverList} {merge : Bool}

/-- What the split of an entry over the lower bound leaves for the rest of the loop. -/
structure Shortens (map shortened : DriverMap) (bounds : DriverBitRange)
    (entry : Interval Nat) (driverList : DriverList) (merge : Bool) : Prop where
  wellFormed : shortened.WellFormed
  /-- The entries inside the remaining bounds, and the entries they share lists with, are old. -/
  kept : ∀ other ∈ shortened.driverIntervals.entries,
    other.Inside (entry.second + 1) bounds.upper → other ∈ map.driverIntervals.entries ∧
      ∀ third ∈ shortened.driverIntervals.entries, third.value = other.value →
        ∃ old ∈ map.driverIntervals.entries, old.value = other.value ∧
          (old.Inside bounds.lower bounds.upper →
            third.Inside (entry.second + 1) bounds.upper)
  get : ∀ handle list, map.getDriverList handle = some list →
    shortened.getDriverList handle = some list
  keeps : map.KeepsOutside shortened bounds
  adds : map.AddsDrivers shortened ⟨bounds.lower, entry.second⟩ driverList merge

theorem splitLeft_shortens (wellFormed : map.WellFormed)
    (entryMem : entry ∈ map.driverIntervals.entries)
    (first : entry.first < bounds.lower) (second : bounds.lower ≤ entry.second)
    (reaches : entry.second < bounds.upper)
    (later : ∀ other ∈ map.driverIntervals.entries,
      other.Overlaps bounds.lower bounds.upper → other ≠ entry → entry.second < other.first)
    (driverList : DriverList) (merge : Bool) :
    ∃ shortened, map.splitLeft entry bounds driverList merge = some shortened ∧
      map.Shortens shortened bounds entry driverList merge := by
  obtain ⟨shortened, newHandle, splits, shortenedWf, fresh, mem, get, adds⟩ :=
    splitLeft_spec wellFormed entryMem first second driverList merge
  refine ⟨shortened, splits, shortenedWf, ?_, get, ?_, adds⟩
  · intro other otherMem inside
    have otherOld : other ∈ map.driverIntervals.entries := by
      rcases (mem other).mp otherMem with rfl | rfl | otherMem
      · simp only [Interval.Inside] at inside
        omega
      · simp only [Interval.Inside] at inside
        omega
      · exact (wellFormed.ordered.mem_erase.mp otherMem).2
    refine ⟨otherOld, fun third thirdMem same => ?_⟩
    rcases (mem third).mp thirdMem with rfl | rfl | thirdMem
    · refine ⟨entry, entryMem, same, fun entryInside => ?_⟩
      simp only [Interval.Inside] at entryInside
      omega
    · obtain ⟨list, listed⟩ := wellFormed.live other otherOld
      simp only at same
      rw [← same, fresh] at listed
      cases listed
    · obtain ⟨ne, thirdMem⟩ := wellFormed.ordered.mem_erase.mp thirdMem
      refine ⟨third, thirdMem, same, fun thirdInside => ?_⟩
      have proper := wellFormed.ordered.proper third thirdMem
      have overlaps : third.Overlaps bounds.lower bounds.upper := by
        simp only [Interval.Inside, Interval.Overlaps] at *
        omega
      have := later third thirdMem overlaps ne
      simp only [Interval.Inside] at *
      omega
  · intro other otherMem outside
    rcases (mem other).mp otherMem with rfl | rfl | otherMem
    · refine ⟨entry, entryMem, rfl, le_rfl, ?_⟩
      simp only
      omega
    · simp only [Interval.Inside] at outside
      omega
    · exact ⟨other, (wellFormed.ordered.mem_erase.mp otherMem).2, rfl, le_rfl, le_rfl⟩

/-- Adding drivers to the front and then to the rest of the bounds adds them to the bounds. -/
theorem AddsDrivers.append {position : Int} (low : bounds.lower ≤ position)
    (high : position < bounds.upper)
    (front : map.AddsDrivers shortened ⟨bounds.lower, position⟩ driverList merge)
    (rest : shortened.AddsDrivers result ⟨position + 1, bounds.upper⟩ driverList merge) :
    map.AddsDrivers result bounds driverList merge := by
  intro bit node
  rw [rest bit node, front bit node]
  simp only [DriverBitRange.mem_iff, DriverBitRange.lower_mk low, DriverBitRange.upper_mk low,
    DriverBitRange.lower_mk (show position + 1 ≤ bounds.upper by omega),
    DriverBitRange.upper_mk (show position + 1 ≤ bounds.upper by omega)]
  grind

/-- Parts of parts are parts. -/
theorem KeepsOutside.trans (front : map.KeepsOutside shortened bounds) {inner : DriverBitRange}
    (low : bounds.lower ≤ inner.lower) (high : inner.upper ≤ bounds.upper)
    (rest : shortened.KeepsOutside result inner) : map.KeepsOutside result bounds := by
  intro other otherMem outside
  have outsideInner : ¬ other.Inside inner.lower inner.upper := by
    simp only [Interval.Inside] at *
    omega
  obtain ⟨middle, middleMem, middleSame, middleFirst, middleSecond⟩ :=
    rest other otherMem outsideInner
  have middleOutside : ¬ middle.Inside bounds.lower bounds.upper := by
    simp only [Interval.Inside] at *
    omega
  obtain ⟨old, oldMem, same, oldFirst, oldSecond⟩ := front middle middleMem middleOutside
  exact ⟨old, oldMem, same.trans middleSame, by omega, by omega⟩

theorem Shortens.separated (shortens : map.Shortens shortened bounds entry driverList merge)
    (low : bounds.lower ≤ entry.second) (high : entry.second < bounds.upper)
    (separated : map.Separated bounds) :
    shortened.Separated ⟨entry.second + 1, bounds.upper⟩ := by
  have lowerEq : (⟨entry.second + 1, bounds.upper⟩ : DriverBitRange).lower = entry.second + 1 :=
    DriverBitRange.lower_mk (by omega)
  have upperEq : (⟨entry.second + 1, bounds.upper⟩ : DriverBitRange).upper = bounds.upper :=
    DriverBitRange.upper_mk (by omega)
  intro other otherMem inside third thirdMem same
  rw [lowerEq, upperEq] at *
  obtain ⟨otherOld, shared⟩ := shortens.kept other otherMem inside
  obtain ⟨old, oldMem, oldSame, oldInside⟩ := shared third thirdMem same
  refine oldInside (separated other otherOld ?_ old oldMem oldSame)
  simp only [Interval.Inside] at *
  omega

theorem Shortens.releasable (shortens : map.Shortens shortened bounds entry driverList merge)
    (low : bounds.lower ≤ entry.second) (high : entry.second < bounds.upper)
    (releasable : map.Releasable bounds) :
    shortened.Releasable ⟨entry.second + 1, bounds.upper⟩ := by
  have lowerEq : (⟨entry.second + 1, bounds.upper⟩ : DriverBitRange).lower = entry.second + 1 :=
    DriverBitRange.lower_mk (by omega)
  have upperEq : (⟨entry.second + 1, bounds.upper⟩ : DriverBitRange).upper = bounds.upper :=
    DriverBitRange.upper_mk (by omega)
  intro other otherMem inside third thirdMem same
  simp only [ProperlyInside] at inside
  rw [lowerEq, upperEq] at *
  obtain ⟨otherOld, shared⟩ := shortens.kept other otherMem inside.1
  obtain ⟨old, oldMem, oldSame, oldInside⟩ := shared third thirdMem same
  refine oldInside (releasable other otherOld ?_ old oldMem oldSame)
  simp only [ProperlyInside, Interval.Inside] at *
  omega

end Shorten

/-! ## Merging into entries -/

section Merge

variable {map merged result : DriverMap} {bounds : DriverBitRange} {entry : Interval Nat}
  {driverList : DriverList}

/--
The state of the merging loop: a list shared across the bounds holds the new
drivers already.
-/
def Mergeable (map : DriverMap) (bounds : DriverBitRange) (driverList : DriverList) : Prop :=
  ∀ entry ∈ map.driverIntervals.entries, entry.Inside bounds.lower bounds.upper →
    (∀ other ∈ map.driverIntervals.entries, other.value = entry.value →
      other.Inside bounds.lower bounds.upper) ∨ map.Holds entry driverList

instance (map : DriverMap) (entry : Interval Nat) (driverList : DriverList) :
    Decidable (map.Holds entry driverList) :=
  decidable_of_iff
    ((map.getDriverList entry.value).any fun list => driverList.nodes ⊆ list.nodes) (by
      cases listed : map.getDriverList entry.value <;> simp [Holds, listed])

instance (map : DriverMap) (bounds : DriverBitRange) (driverList : DriverList) :
    Decidable (map.Mergeable bounds driverList) :=
  inferInstanceAs (Decidable (∀ entry ∈ _, _ → _ ∨ _))

theorem Separated.mergeable (separated : map.Separated bounds) (driverList : DriverList) :
    map.Mergeable bounds driverList :=
  fun entry entryMem inside => Or.inl (separated entry entryMem inside)

theorem Shortens.mergeable (shortens : map.Shortens merged bounds entry driverList true)
    (low : bounds.lower ≤ entry.second) (high : entry.second < bounds.upper)
    (mergeable : map.Mergeable bounds driverList) :
    merged.Mergeable ⟨entry.second + 1, bounds.upper⟩ driverList := by
  have lowerEq : (⟨entry.second + 1, bounds.upper⟩ : DriverBitRange).lower = entry.second + 1 :=
    DriverBitRange.lower_mk (by omega)
  have upperEq : (⟨entry.second + 1, bounds.upper⟩ : DriverBitRange).upper = bounds.upper :=
    DriverBitRange.upper_mk (by omega)
  intro other otherMem inside
  rw [lowerEq, upperEq] at *
  obtain ⟨otherOld, shared⟩ := shortens.kept other otherMem inside
  have otherInside : other.Inside bounds.lower bounds.upper := by
    simp only [Interval.Inside] at *
    omega
  rcases mergeable other otherOld otherInside with unshared | ⟨list, listed, held⟩
  · refine Or.inl fun third thirdMem same => ?_
    obtain ⟨old, oldMem, oldSame, oldInside⟩ := shared third thirdMem same
    exact oldInside (unshared old oldMem oldSame)
  · exact Or.inr ⟨list, shortens.get _ _ listed, held⟩

/-- What the merge into one entry leaves for the rest of the loop. -/
structure Merges (map merged : DriverMap) (bounds : DriverBitRange) (entry : Interval Nat)
    (driverList : DriverList) : Prop where
  mergeable : entry.second < bounds.upper →
    merged.Mergeable ⟨entry.second + 1, bounds.upper⟩ driverList
  old : ∀ bit node, map.Drives bit node → merged.Drives bit node
  new : ∀ bit node, merged.Drives bit node →
    map.Drives bit node ∨ (bit ∈ bounds ∧ node ∈ driverList.nodes)
  front : ∀ bit node, bounds.lower ≤ bit → bit ≤ entry.second → node ∈ driverList.nodes →
    merged.Drives bit node

theorem mergeInside_merges (wellFormed : map.WellFormed)
    (entryMem : entry ∈ map.driverIntervals.entries)
    (first : bounds.lower ≤ entry.first) (second : entry.second ≤ bounds.upper)
    (later : ∀ other ∈ map.driverIntervals.entries,
      other.Overlaps bounds.lower bounds.upper → other ≠ entry → entry.second < other.first)
    (driverList : DriverList) :
    ∃ merged, map.mergeInside entry bounds driverList = some merged ∧ merged.WellFormed ∧
      (map.Mergeable bounds driverList → map.Merges merged bounds entry driverList) := by
  have proper := wellFormed.ordered.proper entry entryMem
  have reaches : entry.first ≤ bounds.upper := by omega
  obtain ⟨merged, list, newHandle, merges, mergedWf, listed, fresh, mem, get, drives⟩ :=
    mergeInside_spec wellFormed entryMem reaches (fun other otherMem overlaps => by
      by_cases same : other = entry
      · exact same ▸ le_rfl
      · have := later other otherMem overlaps same
        omega) driverList
  refine ⟨merged, merges, mergedWf, fun mergeable => ⟨?_, ?_, ?_, ?_⟩⟩
  · intro remaining other otherMem inside
    have lowerEq : (⟨entry.second + 1, bounds.upper⟩ : DriverBitRange).lower =
        entry.second + 1 := DriverBitRange.lower_mk (by omega)
    have upperEq : (⟨entry.second + 1, bounds.upper⟩ : DriverBitRange).upper = bounds.upper :=
      DriverBitRange.upper_mk (by omega)
    rw [lowerEq, upperEq] at inside ⊢
    rcases mem other otherMem with ⟨_, rfl⟩ | otherOld
    · simp only [Interval.Inside] at inside
      omega
    obtain ⟨otherList, otherListed⟩ := wellFormed.live other otherOld
    have mergedGet := get other.value otherList otherListed
    by_cases same : other.value = entry.value
    · refine Or.inr ⟨_, mergedGet, ?_⟩
      simp [same]
    have otherInside : other.Inside bounds.lower bounds.upper := by
      simp only [Interval.Inside] at *
      omega
    rcases mergeable other otherOld otherInside with unshared | ⟨held, heldEq, subset⟩
    · refine Or.inl fun third thirdMem shared => ?_
      rcases mem third thirdMem with ⟨_, rfl⟩ | thirdOld
      · simp only at shared
        rw [← shared, fresh] at otherListed
        cases otherListed
      · have thirdInside := unshared third thirdOld shared
        have thirdProper := wellFormed.ordered.proper third thirdOld
        have thirdOverlaps : third.Overlaps bounds.lower bounds.upper := by
          simp only [Interval.Inside, Interval.Overlaps] at *
          omega
        have := later third thirdOld thirdOverlaps fun isEntry => same (isEntry ▸ shared.symm)
        simp only [Interval.Inside] at *
        omega
    · rw [otherListed] at heldEq
      cases heldEq
      exact Or.inr ⟨_, mergedGet, by simpa [same] using subset⟩
  · intro bit node driven
    exact (drives bit node).mpr (Or.inl driven)
  · intro bit node driven
    rcases (drives bit node).mp driven with old | ⟨new, gap | ⟨other, otherMem, same, covers⟩⟩
    · exact Or.inl old
    · exact Or.inr ⟨⟨gap.1, by omega⟩, new⟩
    · rcases mergeable entry entryMem ⟨first, second⟩ with unshared | ⟨held, heldEq, subset⟩
      · have inside := unshared other otherMem same
        refine Or.inr ⟨?_, new⟩
        simp only [Interval.Inside, Interval.Covers, DriverBitRange.mem_iff] at *
        omega
      · exact Or.inl ⟨other, otherMem, covers, held, same ▸ heldEq, subset new⟩
  · intro bit node low high new
    refine (drives bit node).mpr (Or.inr ⟨new, ?_⟩)
    by_cases gap : bit < entry.first
    · exact Or.inl ⟨low, gap⟩
    · exact Or.inr ⟨entry, entryMem, rfl, by omega, high⟩

/-- Merging into an entry and then into the rest of the bounds merges into the bounds. -/
theorem Merges.append (merges : map.Merges merged bounds entry driverList)
    (low : bounds.lower ≤ entry.second) (high : entry.second < bounds.upper)
    (rest : merged.AddsDrivers result ⟨entry.second + 1, bounds.upper⟩ driverList true) :
    map.AddsDrivers result bounds driverList true := by
  intro bit node
  have old := merges.old bit node
  have new := merges.new bit node
  have front := merges.front bit node
  rw [rest bit node]
  simp only [DriverBitRange.mem_iff,
    DriverBitRange.lower_mk (show entry.second + 1 ≤ bounds.upper by omega),
    DriverBitRange.upper_mk (show entry.second + 1 ≤ bounds.upper by omega)] at *
  grind

/-- A merge into an entry that ends the bounds is complete. -/
theorem Merges.complete (merges : map.Merges merged bounds entry driverList)
    (second : entry.second = bounds.upper) :
    map.AddsDrivers merged bounds driverList true := by
  intro bit node
  have old := merges.old bit node
  have new := merges.new bit node
  have front := merges.front bit node
  simp only [DriverBitRange.mem_iff] at *
  grind

end Merge

/-! ## The loop on a well-formed map -/

section Loop

variable {map : DriverMap} {bounds : DriverBitRange}

/-- Bounds that equal an entry hold no other entry. -/
theorem eq_of_inside (ordered : map.driverIntervals.Ordered) {entry other : Interval Nat}
    (entryMem : entry ∈ map.driverIntervals.entries) (first : entry.first = bounds.lower)
    (second : entry.second = bounds.upper) (otherMem : other ∈ map.driverIntervals.entries)
    (inside : other.Inside bounds.lower bounds.upper) : other = entry := by
  have proper := ordered.proper other otherMem
  have covers : other.Covers other.first := ⟨le_rfl, proper⟩
  refine ordered.unique otherMem entryMem covers ?_
  simp only [Interval.Inside, Interval.Covers] at *
  omega

/-- Without merging the loop replaces the drivers of separated bounds. -/
theorem addDriversLoop_replaces (ascending : bounds.left ≤ bounds.right)
    (wellFormed : map.WellFormed) (releasable : map.Releasable bounds)
    (driverList : DriverList) :
    ∃ result, addDriversLoop driverList false map bounds = some result ∧ result.WellFormed ∧
      map.KeepsOutside result bounds ∧
      (map.Separated bounds → map.AddsDrivers result bounds driverList false) := by
  induction measured : map.workLeft bounds using Nat.strong_induction_on
    generalizing map bounds with
  | _ work ih =>
    subst measured
    have ordered := wellFormed.ordered
    cases next : map.nextOverlap bounds with
    | none =>
        have apart : ∀ entry ∈ map.driverIntervals.entries,
            ¬ entry.Overlaps bounds.lower bounds.upper :=
          fun entry entryMem => nextOverlap_none ordered ascending next entryMem
        obtain ⟨resultWf, keeps, adds⟩ := insertRemaining_spec wellFormed apart driverList
          false
        exact ⟨_, addDriversLoop_remaining driverList false next, resultWf, keeps, fun _ => adds⟩
    | some entry =>
        obtain ⟨entryMem, overlaps⟩ := IntervalMap.mem_find.mp (nextOverlap_mem next)
        have later : ∀ other ∈ map.driverIntervals.entries,
            other.Overlaps bounds.lower bounds.upper → other ≠ entry →
              entry.second < other.first :=
          fun other otherMem => nextOverlap_first ordered ascending next otherMem
        have spec := overlapCase_spec ascending entry
        cases kind : overlapCase entry bounds with
        | matching =>
            rw [kind] at spec
            obtain ⟨first, second⟩ := spec
            rw [addDriversLoop_matching driverList false next kind]
            obtain ⟨result, updated, resultWf, keeps, adds⟩ :=
              updateMatching_spec wellFormed entryMem first second driverList false
            refine ⟨result, updated, resultWf, keeps, fun separated => adds (Or.inl ?_)⟩
            exact fun other otherMem same =>
              eq_of_inside ordered entryMem first second otherMem
                (separated entry entryMem ⟨first.ge, second.le⟩ other otherMem same)
        | containsNew =>
            rw [kind] at spec
            obtain ⟨first, second, _⟩ := spec
            rw [addDriversLoop_containsNew driverList false next kind]
            obtain ⟨result, split, resultWf, keeps, adds⟩ :=
              splitContaining_spec wellFormed entryMem first second driverList false
            exact ⟨result, split, resultWf, keeps, fun _ => adds⟩
        | insideNew =>
            rw [kind] at spec
            obtain ⟨first, second, differs⟩ := spec
            obtain ⟨dropped, drops, drop⟩ := dropInside_dropped ordered wellFormed.lists
              releasable entryMem ⟨⟨first, second⟩, differs⟩
              (fun other otherMem _ => wellFormed.live other otherMem)
              (fun other otherMem otherOverlaps => by
                by_cases same : other = entry
                · exact same ▸ first
                · have := later other otherMem otherOverlaps same
                  have := ordered.proper entry entryMem
                  omega)
            rw [addDriversLoop_drop driverList next kind drops]
            obtain ⟨result, looped, resultWf, keeps, adds⟩ :=
              drop.dropping.addDriversLoop ascending driverList
            exact ⟨result, looped, resultWf, drop.keepsOutside keeps,
              fun _ => drop.addsDrivers adds⟩
        | leftOverlap =>
            rw [kind] at spec
            obtain ⟨first, second, reaches⟩ := spec
            obtain ⟨shortened, splits, shortens⟩ := splitLeft_shortens wellFormed entryMem first
              second reaches later driverList false
            rw [addDriversLoop_leftOverlap driverList false next kind splits,
              if_neg (by omega)]
            have grown := size_splitLeft entryMem splits
            obtain ⟨result, looped, resultWf, keeps, adds⟩ :=
              ih _ (workLeft_behind next (by omega) grown.le)
                (show entry.second + 1 ≤ bounds.upper by omega) shortens.wellFormed
                (shortens.releasable second reaches releasable) rfl
            refine ⟨result, looped, resultWf, shortens.keeps.trans ?_ ?_ keeps,
              fun separated => ?_⟩
            · have := DriverBitRange.lower_mk (show entry.second + 1 ≤ bounds.upper by omega)
              omega
            · exact (DriverBitRange.upper_mk (by omega)).le
            · exact shortens.adds.append second reaches
                (adds (shortens.separated second reaches separated))
        | rightOverlap =>
            rw [kind] at spec
            obtain ⟨first, reaches, second⟩ := spec
            rw [addDriversLoop_rightOverlap driverList false next kind]
            obtain ⟨result, split, resultWf, keeps, adds⟩ :=
              splitRight_spec wellFormed entryMem first reaches second
                (fun other otherMem =>
                  nextOverlap_alone ordered ascending next second.le otherMem)
                driverList false
            exact ⟨result, split, resultWf, keeps, fun _ => adds⟩
        | skip =>
            rw [kind] at spec
            exact absurd ⟨ordered.proper entry entryMem, overlaps⟩ spec

/-- With merging the loop adds drivers, and keeps the map well formed in any case. -/
theorem addDriversLoop_merges (ascending : bounds.left ≤ bounds.right)
    (wellFormed : map.WellFormed) (driverList : DriverList) :
    ∃ result, addDriversLoop driverList true map bounds = some result ∧ result.WellFormed ∧
      (map.Mergeable bounds driverList → map.AddsDrivers result bounds driverList true) := by
  induction measured : map.workLeft bounds using Nat.strong_induction_on
    generalizing map bounds with
  | _ work ih =>
    subst measured
    have ordered := wellFormed.ordered
    cases next : map.nextOverlap bounds with
    | none =>
        have apart : ∀ entry ∈ map.driverIntervals.entries,
            ¬ entry.Overlaps bounds.lower bounds.upper :=
          fun entry entryMem => nextOverlap_none ordered ascending next entryMem
        obtain ⟨resultWf, _, adds⟩ := insertRemaining_spec wellFormed apart driverList true
        exact ⟨_, addDriversLoop_remaining driverList true next, resultWf, fun _ => adds⟩
    | some entry =>
        obtain ⟨entryMem, overlaps⟩ := IntervalMap.mem_find.mp (nextOverlap_mem next)
        have later : ∀ other ∈ map.driverIntervals.entries,
            other.Overlaps bounds.lower bounds.upper → other ≠ entry →
              entry.second < other.first :=
          fun other otherMem => nextOverlap_first ordered ascending next otherMem
        have spec := overlapCase_spec ascending entry
        cases kind : overlapCase entry bounds with
        | matching =>
            rw [kind] at spec
            obtain ⟨first, second⟩ := spec
            rw [addDriversLoop_matching driverList true next kind]
            obtain ⟨result, updated, resultWf, _, adds⟩ :=
              updateMatching_spec wellFormed entryMem first second driverList true
            refine ⟨result, updated, resultWf, fun mergeable => adds ?_⟩
            rcases mergeable entry entryMem ⟨first.ge, second.le⟩ with unshared | held
            · exact Or.inl fun other otherMem same =>
                eq_of_inside ordered entryMem first second otherMem
                  (unshared other otherMem same)
            · exact Or.inr ⟨rfl, held⟩
        | containsNew =>
            rw [kind] at spec
            obtain ⟨first, second, _⟩ := spec
            rw [addDriversLoop_containsNew driverList true next kind]
            obtain ⟨result, split, resultWf, _, adds⟩ :=
              splitContaining_spec wellFormed entryMem first second driverList true
            exact ⟨result, split, resultWf, fun _ => adds⟩
        | insideNew =>
            rw [kind] at spec
            obtain ⟨first, second, _⟩ := spec
            obtain ⟨merged, mergesEq, mergedWf, merges⟩ :=
              mergeInside_merges wellFormed entryMem first second later driverList
            rw [addDriversLoop_merge driverList next kind mergesEq]
            have proper := ordered.proper entry entryMem
            by_cases remaining : entry.second < bounds.upper
            · rw [if_neg (by omega)]
              obtain ⟨result, looped, resultWf, adds⟩ :=
                ih _ (workLeft_behind next (by omega) (size_mergeInside mergesEq))
                  (show entry.second + 1 ≤ bounds.upper by omega) mergedWf rfl
              refine ⟨result, looped, resultWf, fun mergeable => ?_⟩
              exact (merges mergeable).append (by omega) remaining
                (adds ((merges mergeable).mergeable remaining))
            · rw [if_pos (by omega)]
              exact ⟨merged, rfl, mergedWf, fun mergeable =>
                (merges mergeable).complete (by omega)⟩
        | leftOverlap =>
            rw [kind] at spec
            obtain ⟨first, second, reaches⟩ := spec
            obtain ⟨shortened, splits, shortens⟩ := splitLeft_shortens wellFormed entryMem first
              second reaches later driverList true
            rw [addDriversLoop_leftOverlap driverList true next kind splits,
              if_neg (by omega)]
            have grown := size_splitLeft entryMem splits
            obtain ⟨result, looped, resultWf, adds⟩ :=
              ih _ (workLeft_behind next (by omega) grown.le)
                (show entry.second + 1 ≤ bounds.upper by omega) shortens.wellFormed rfl
            refine ⟨result, looped, resultWf, fun mergeable => ?_⟩
            exact shortens.adds.append second reaches
              (adds (shortens.mergeable second reaches mergeable))
        | rightOverlap =>
            rw [kind] at spec
            obtain ⟨first, reaches, second⟩ := spec
            rw [addDriversLoop_rightOverlap driverList true next kind]
            obtain ⟨result, split, resultWf, _, adds⟩ :=
              splitRight_spec wellFormed entryMem first reaches second
                (fun other otherMem =>
                  nextOverlap_alone ordered ascending next second.le otherMem)
                driverList true
            exact ⟨result, split, resultWf, fun _ => adds⟩
        | skip =>
            rw [kind] at spec
            exact absurd ⟨ordered.proper entry entryMem, overlaps⟩ spec

end Loop

/-! ## `addDrivers` -/

section Call

variable {map : DriverMap} {bounds : DriverBitRange}

theorem keepsOutside_normalize {result : DriverMap} :
    map.KeepsOutside result bounds.normalize ↔ map.KeepsOutside result bounds := by
  simp [KeepsOutside]

theorem addsDrivers_normalize {result : DriverMap} {driverList : DriverList} {merge : Bool} :
    map.AddsDrivers result bounds.normalize driverList merge ↔
      map.AddsDrivers result bounds driverList merge := by
  simp [AddsDrivers]

theorem separated_normalize : map.Separated bounds.normalize ↔ map.Separated bounds := by
  simp [Separated]

theorem releasable_normalize : map.Releasable bounds.normalize ↔ map.Releasable bounds := by
  simp [Releasable, ProperlyInside]

/--
A call keeps the map well formed, provided that a call without merging drops no
list that an interval outside its bounds still uses.
-/
theorem addDrivers_wellFormed (wellFormed : map.WellFormed) (driverList : DriverList)
    (merge : Bool) (releasable : merge = false → map.Releasable bounds) :
    ∃ result, map.addDrivers bounds driverList merge = some result ∧ result.WellFormed ∧
      (merge = false → map.KeepsOutside result bounds) := by
  have ascending : bounds.normalize.left ≤ bounds.normalize.right := bounds.lower_le_upper
  cases merge with
  | false =>
      obtain ⟨result, looped, resultWf, keeps, _⟩ := addDriversLoop_replaces ascending wellFormed
        (releasable_normalize.mpr (releasable rfl)) driverList
      exact ⟨result, looped, resultWf, fun _ => keepsOutside_normalize.mp keeps⟩
  | true =>
      obtain ⟨result, looped, resultWf, _⟩ :=
        addDriversLoop_merges ascending wellFormed driverList
      exact ⟨result, looped, resultWf, by simp⟩

/-- The condition under which a call changes the bits of its bounds only. -/
def Writable (map : DriverMap) (bounds : DriverBitRange) (driverList : DriverList)
    (merge : Bool) : Prop :=
  if merge then map.Mergeable bounds driverList else map.Separated bounds

instance (driverList : DriverList) (merge : Bool) :
    Decidable (map.Writable bounds driverList merge) :=
  inferInstanceAs (Decidable (if merge then _ else _))

theorem Separated.writable (separated : map.Separated bounds) (driverList : DriverList)
    (merge : Bool) : map.Writable bounds driverList merge := by
  unfold Writable
  split
  · exact separated.mergeable driverList
  · exact separated

theorem mergeable_normalize {driverList : DriverList} :
    map.Mergeable bounds.normalize driverList ↔ map.Mergeable bounds driverList := by
  simp [Mergeable]

/-- A call on writable bounds replaces, or adds to, the drivers of the bits of its bounds. -/
theorem addDrivers_adds {driverList : DriverList} {merge : Bool} (wellFormed : map.WellFormed)
    (writable : map.Writable bounds driverList merge) :
    ∃ result, map.addDrivers bounds driverList merge = some result ∧ result.WellFormed ∧
      map.AddsDrivers result bounds driverList merge := by
  have ascending : bounds.normalize.left ≤ bounds.normalize.right := bounds.lower_le_upper
  cases merge with
  | false =>
      have separated : map.Separated bounds := writable
      obtain ⟨result, looped, resultWf, _, adds⟩ := addDriversLoop_replaces ascending wellFormed
        (separated_normalize.mpr separated).releasable driverList
      exact ⟨result, looped, resultWf,
        addsDrivers_normalize.mp (adds (separated_normalize.mpr separated))⟩
  | true =>
      have mergeable : map.Mergeable bounds driverList := writable
      obtain ⟨result, looped, resultWf, adds⟩ :=
        addDriversLoop_merges ascending wellFormed driverList
      exact ⟨result, looped, resultWf,
        addsDrivers_normalize.mp (adds (mergeable_normalize.mpr mergeable))⟩

end Call

end DriverMap

end SlangNetlist
