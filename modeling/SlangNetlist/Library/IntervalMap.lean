import Mathlib.Data.List.Pairwise
import Mathlib.Data.List.Nodup
import Mathlib.Order.Interval.Set.Basic
import Mathlib.Order.MinMax

/-!
# Interval maps as ordered lists of entries

A closed integer interval with a value, and a finite map of such intervals
kept in ascending order.  Nothing is assumed of a client beyond what the three
operations do: insertion adds one entry, erasure removes it, and a search
enumerates the overlapping entries in ascending order.  The order invariant
makes the entries pairwise disjoint, so that a position lies in at most one.
-/

namespace SlangNetlist.Library

/-- A closed interval `[first, second]` carrying a value. -/
structure Interval (α : Type) where
  first : Int
  second : Int
  value : α
  deriving DecidableEq, Repr

namespace Interval

variable {α : Type}

/-- The position lies in the interval. -/
def Covers (entry : Interval α) (position : Int) : Prop :=
  entry.first ≤ position ∧ position ≤ entry.second

instance (entry : Interval α) (position : Int) : Decidable (entry.Covers position) :=
  inferInstanceAs (Decidable (_ ∧ _))

/-- The interval meets the closed range `[lower, upper]`. -/
def Overlaps (entry : Interval α) (lower upper : Int) : Prop :=
  entry.first ≤ upper ∧ lower ≤ entry.second

instance (entry : Interval α) (lower upper : Int) : Decidable (entry.Overlaps lower upper) :=
  inferInstanceAs (Decidable (_ ∧ _))

/-- The interval lies inside the closed range `[lower, upper]`. -/
def Inside (entry : Interval α) (lower upper : Int) : Prop :=
  lower ≤ entry.first ∧ entry.second ≤ upper

instance (entry : Interval α) (lower upper : Int) : Decidable (entry.Inside lower upper) :=
  inferInstanceAs (Decidable (_ ∧ _))

/-- Two intervals without a common position. -/
def Apart (left right : Interval α) : Prop :=
  left.second < right.first ∨ right.second < left.first

instance : Std.Symm (Apart (α := α)) := ⟨fun _ _ apart => apart.symm⟩

end Interval

/-- A finite map from intervals to values, as its list of entries. -/
structure IntervalMap (α : Type) where
  entries : List (Interval α)
  deriving DecidableEq, Repr

namespace IntervalMap

variable {α : Type}

/-- The map without entries. -/
def nil : IntervalMap α := ⟨[]⟩

/-- Place an entry before the first one that starts later. -/
def insertEntry (entry : Interval α) : List (Interval α) → List (Interval α)
  | [] => [entry]
  | head :: rest =>
      if entry.first < head.first then entry :: head :: rest
      else head :: insertEntry entry rest

/-- Add one interval with its value. -/
def insert (map : IntervalMap α) (first second : Int) (value : α) : IntervalMap α :=
  ⟨insertEntry ⟨first, second, value⟩ map.entries⟩

/-- Remove one entry. -/
def erase [DecidableEq α] (map : IntervalMap α) (entry : Interval α) : IntervalMap α :=
  ⟨map.entries.erase entry⟩

/-- The entries that overlap `[lower, upper]`, in ascending order. -/
def find (map : IntervalMap α) (lower upper : Int) : List (Interval α) :=
  map.entries.filter fun entry => entry.Overlaps lower upper

/-- Add an interval, absorbing the entries it overlaps into one entry. -/
def unionWith [DecidableEq α] (map : IntervalMap α) (first second : Int) (value : α) :
    IntervalMap α :=
  let absorbed := map.find first second
  let rest : IntervalMap α := ⟨map.entries.filter fun entry => ¬ entry.Overlaps first second⟩
  rest.insert ((absorbed.map Interval.first).foldl min first)
    ((absorbed.map Interval.second).foldl max second) value

/--
The order invariant: every entry is a non-empty range, and each entry ends
before the next one starts.
-/
structure Ordered (map : IntervalMap α) : Prop where
  ascending : map.entries.Pairwise fun left right => left.second < right.first
  proper : ∀ entry ∈ map.entries, entry.first ≤ entry.second

@[simp] theorem mem_insertEntry {entry other : Interval α} {entries : List (Interval α)} :
    other ∈ insertEntry entry entries ↔ other = entry ∨ other ∈ entries := by
  induction entries with
  | nil => simp [insertEntry]
  | cons head rest ih =>
      unfold insertEntry
      split
      · simp
      · simp only [List.mem_cons, ih]
        tauto

@[simp] theorem mem_insert {map : IntervalMap α} {first second : Int} {value : α}
    {entry : Interval α} :
    entry ∈ (map.insert first second value).entries ↔
      entry = ⟨first, second, value⟩ ∨ entry ∈ map.entries :=
  mem_insertEntry

@[simp] theorem mem_find {map : IntervalMap α} {lower upper : Int} {entry : Interval α} :
    entry ∈ map.find lower upper ↔ entry ∈ map.entries ∧ entry.Overlaps lower upper := by
  simp [find]

@[simp] theorem length_insertEntry (entry : Interval α) (entries : List (Interval α)) :
    (insertEntry entry entries).length = entries.length + 1 := by
  induction entries with
  | nil => rfl
  | cons head rest ih =>
      unfold insertEntry
      split
      · rfl
      · simp [ih]

@[simp] theorem length_insert (map : IntervalMap α) (first second : Int) (value : α) :
    (map.insert first second value).entries.length = map.entries.length + 1 :=
  length_insertEntry _ _

/-- Some entry covers the position. -/
def Covers (map : IntervalMap α) (position : Int) : Prop :=
  ∃ entry ∈ map.entries, entry.Covers position

instance (map : IntervalMap α) (position : Int) : Decidable (map.Covers position) :=
  inferInstanceAs (Decidable (∃ entry ∈ _, _))

@[simp] theorem not_covers_nil (position : Int) : ¬ (nil : IntervalMap α).Covers position := by
  simp [Covers, nil]

theorem covers_insert {map : IntervalMap α} {first second : Int} {value : α} {position : Int} :
    (map.insert first second value).Covers position ↔
      (first ≤ position ∧ position ≤ second) ∨ map.Covers position := by
  simp [Covers, Interval.Covers]

private theorem foldl_min_le {initial position : Int} {values : List Int} :
    values.foldl min initial ≤ position ↔ initial ≤ position ∨
      ∃ value ∈ values, value ≤ position := by
  induction values generalizing initial with
  | nil => simp
  | cons head rest ih =>
      rw [List.foldl_cons, ih, min_le_iff]
      simp only [List.mem_cons, exists_eq_or_imp, or_assoc]

private theorem le_foldl_max {initial position : Int} {values : List Int} :
    position ≤ values.foldl max initial ↔ position ≤ initial ∨
      ∃ value ∈ values, position ≤ value := by
  induction values generalizing initial with
  | nil => simp
  | cons head rest ih =>
      rw [List.foldl_cons, ih, le_max_iff]
      simp only [List.mem_cons, exists_eq_or_imp, or_assoc]

/-- The absorbing insertion covers the new range and what was covered before. -/
theorem covers_unionWith [DecidableEq α] {map : IntervalMap α} {first second : Int}
    {value : α} {position : Int} :
    (map.unionWith first second value).Covers position ↔
      (first ≤ position ∧ position ≤ second) ∨ map.Covers position := by
  rw [unionWith, covers_insert]
  simp only [foldl_min_le, le_foldl_max, Covers, List.mem_map, List.mem_filter, mem_find,
    Interval.Overlaps, Interval.Covers]
  constructor
  · rintro (⟨low, high⟩ | ⟨entry, ⟨entryMem, _⟩, covers⟩)
    · rcases low with low | ⟨_, ⟨left, ⟨leftMem, leftOverlaps⟩, rfl⟩, low⟩
      · rcases high with high | ⟨_, ⟨right, ⟨rightMem, rightOverlaps⟩, rfl⟩, high⟩
        · exact Or.inl ⟨low, high⟩
        · by_cases inside : position ≤ second
          · exact Or.inl ⟨low, inside⟩
          · exact Or.inr ⟨right, rightMem, by omega, high⟩
      · by_cases inside : first ≤ position
        · rcases high with high | ⟨_, ⟨right, ⟨rightMem, rightOverlaps⟩, rfl⟩, high⟩
          · exact Or.inl ⟨inside, high⟩
          · by_cases below : position ≤ second
            · exact Or.inl ⟨inside, below⟩
            · exact Or.inr ⟨right, rightMem, by omega, high⟩
        · exact Or.inr ⟨left, leftMem, low, by omega⟩
    · exact Or.inr ⟨entry, entryMem, covers⟩
  · rintro (⟨low, high⟩ | ⟨entry, entryMem, covers⟩)
    · exact Or.inl ⟨Or.inl low, Or.inl high⟩
    · by_cases overlaps : entry.first ≤ second ∧ first ≤ entry.second
      · exact Or.inl ⟨Or.inr ⟨_, ⟨entry, ⟨entryMem, overlaps⟩, rfl⟩, covers.1⟩,
          Or.inr ⟨_, ⟨entry, ⟨entryMem, overlaps⟩, rfl⟩, covers.2⟩⟩
      · exact Or.inr ⟨entry, ⟨entryMem, decide_eq_true overlaps⟩, covers⟩

/-- The absorbing insertion of a proper range keeps the ranges proper. -/
theorem proper_unionWith [DecidableEq α] {map : IntervalMap α}
    (proper : ∀ entry ∈ map.entries, entry.first ≤ entry.second) {first second : Int}
    (ascending : first ≤ second) {value : α} :
    ∀ entry ∈ (map.unionWith first second value).entries, entry.first ≤ entry.second := by
  intro entry entryMem
  rw [unionWith, mem_insert] at entryMem
  rcases entryMem with rfl | entryMem
  · have low : ((map.find first second).map Interval.first).foldl min first ≤ first :=
      foldl_min_le.mpr (Or.inl le_rfl)
    have high : second ≤ ((map.find first second).map Interval.second).foldl max second :=
      le_foldl_max.mpr (Or.inl le_rfl)
    simp only
    omega
  · exact proper entry (List.mem_filter.mp entryMem).1

/-- Every entry is proper and ends before the position. -/
def EndsBefore (map : IntervalMap α) (position : Int) : Prop :=
  ∀ entry ∈ map.entries, entry.first ≤ entry.second ∧ entry.second < position

/-- An interval behind all entries becomes the last entry. -/
theorem unionWith_of_endsBefore [DecidableEq α] {map : IntervalMap α} {first second : Int}
    (ends : map.EndsBefore first) (value : α) :
    map.unionWith first second value = ⟨map.entries ++ [⟨first, second, value⟩]⟩ := by
  have placed : ∀ entries : List (Interval α), (∀ entry ∈ entries, entry.first < first) →
      insertEntry ⟨first, second, value⟩ entries = entries ++ [⟨first, second, value⟩] := by
    intro entries before
    induction entries with
    | nil => rfl
    | cons head rest ih =>
        have := before head List.mem_cons_self
        rw [insertEntry, if_neg (by simp only; omega),
          ih fun entry member => before entry (List.mem_cons_of_mem _ member)]
        rfl
  have apart : ∀ entry ∈ map.entries, ¬ entry.Overlaps first second := by
    intro entry member overlaps
    have := (ends entry member).2
    simp only [Interval.Overlaps] at overlaps
    omega
  have none : map.find first second = [] :=
    List.filter_eq_nil_iff.mpr fun entry member => by simp [apart entry member]
  have all : (map.entries.filter fun entry => ¬ entry.Overlaps first second) = map.entries :=
    List.filter_eq_self.mpr fun entry member => by simp [apart entry member]
  simp only [unionWith, none, all, insert, List.map_nil, List.foldl_nil]
  rw [placed]
  intro entry member
  have := ends entry member
  omega

theorem EndsBefore.mono {map : IntervalMap α} {position later : Int}
    (ends : map.EndsBefore position) (le : position ≤ later) : map.EndsBefore later :=
  fun entry member => ⟨(ends entry member).1, lt_of_lt_of_le (ends entry member).2 le⟩

theorem EndsBefore.append {map : IntervalMap α} {entries : List (Interval α)} {position : Int}
    (ends : map.EndsBefore position)
    (others : (⟨entries⟩ : IntervalMap α).EndsBefore position) :
    (⟨map.entries ++ entries⟩ : IntervalMap α).EndsBefore position := by
  intro entry member
  exact (List.mem_append.mp member).elim (ends entry) (others entry)

theorem ordered_nil : (nil : IntervalMap α).Ordered :=
  ⟨List.Pairwise.nil, by simp [nil]⟩

namespace Ordered

variable {map : IntervalMap α}

/-- Two different entries of an ordered map have no common position. -/
theorem apart (ordered : map.Ordered) {left right : Interval α}
    (leftMem : left ∈ map.entries) (rightMem : right ∈ map.entries) (ne : left ≠ right) :
    left.Apart right := by
  have pairwise : map.entries.Pairwise Interval.Apart :=
    ordered.ascending.imp fun before => Or.inl before
  exact pairwise.forall leftMem rightMem ne

/-- A position lies in at most one entry. -/
theorem unique (ordered : map.Ordered) {left right : Interval α}
    (leftMem : left ∈ map.entries) (rightMem : right ∈ map.entries) {position : Int}
    (leftCovers : left.Covers position) (rightCovers : right.Covers position) :
    left = right := by
  by_contra ne
  have apart := ordered.apart leftMem rightMem ne
  simp only [Interval.Apart, Interval.Covers] at apart leftCovers rightCovers
  omega

theorem nodup (ordered : map.Ordered) : map.entries.Nodup := by
  have strict : map.entries.Pairwise fun left right =>
      left.second < right.first ∧ left.first ≤ left.second := by
    refine List.Pairwise.imp_of_mem ?_ ordered.ascending
    intro left right leftMem _ before
    exact ⟨before, ordered.proper left leftMem⟩
  refine strict.imp ?_
  rintro left right ⟨before, proper⟩ rfl
  omega

/-- Inserting a range apart from every entry keeps the order. -/
theorem insert (ordered : map.Ordered) {first second : Int} (value : α)
    (proper : first ≤ second)
    (apart : ∀ entry ∈ map.entries, entry.second < first ∨ second < entry.first) :
    (map.insert first second value).Ordered := by
  obtain ⟨entries⟩ := map
  constructor
  · have ascending := ordered.ascending
    have properOld := ordered.proper
    simp only [IntervalMap.insert] at *
    clear ordered
    induction entries with
    | nil => simp [insertEntry]
    | cons head rest ih =>
        obtain ⟨headBefore, restAscending⟩ := List.pairwise_cons.mp ascending
        have headProper := properOld head List.mem_cons_self
        have headApart := apart head List.mem_cons_self
        unfold insertEntry
        split
        · next earlier =>
            simp only at earlier
            refine List.pairwise_cons.mpr ⟨?_, ascending⟩
            intro other otherMem
            rcases List.mem_cons.mp otherMem with rfl | otherMem
            · simp only
              omega
            · have := headBefore other otherMem
              simp only
              omega
        · next later =>
            simp only at later
            refine List.pairwise_cons.mpr ⟨?_, ih ?_ restAscending ?_⟩
            · intro other otherMem
              rcases mem_insertEntry.mp otherMem with rfl | otherMem
              · simp only
                omega
              · exact headBefore other otherMem
            · exact fun entry entryMem => apart entry (List.mem_cons_of_mem _ entryMem)
            · exact fun entry entryMem => properOld entry (List.mem_cons_of_mem _ entryMem)
  · intro entry entryMem
    rcases mem_insert.mp entryMem with rfl | entryMem
    · exact proper
    · exact ordered.proper entry entryMem

/-- Erasing an entry keeps the order. -/
theorem erase [DecidableEq α] (ordered : map.Ordered) (entry : Interval α) :
    (map.erase entry).Ordered :=
  ⟨ordered.ascending.sublist List.erase_sublist,
    fun other otherMem => ordered.proper other (List.mem_of_mem_erase otherMem)⟩

/-- In an ordered map erasure removes exactly the entry. -/
theorem mem_erase [DecidableEq α] (ordered : map.Ordered) {entry other : Interval α} :
    other ∈ (map.erase entry).entries ↔ other ≠ entry ∧ other ∈ map.entries :=
  ordered.nodup.mem_erase_iff

end Ordered

end IntervalMap

end SlangNetlist.Library

namespace SlangNetlist

-- Mathlib has an `Interval` as well.
export Library (Interval)

end SlangNetlist
