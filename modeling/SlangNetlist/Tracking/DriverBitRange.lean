import Mathlib.Order.Defs.LinearOrder

/-!
# Driven bit ranges

`DriverBitRange` is a `ConstantRange`: two bounds in either order.  Bit offsets
of a selectable type stay below `2^31 - 1`, so the `int32_t` bounds and their
neighbours are modelled by integers.
-/

namespace SlangNetlist

/-- A range over which a symbol is driven, its bounds in source order. -/
structure DriverBitRange where
  left : Int := 0
  right : Int := 0
  deriving DecidableEq, Repr

namespace DriverBitRange

def lower (range : DriverBitRange) : Int := min range.left range.right

def upper (range : DriverBitRange) : Int := max range.left range.right

/-- The range in ascending order. -/
def normalize (range : DriverBitRange) : DriverBitRange := ⟨range.lower, range.upper⟩

/-- A bit of the range. -/
instance : Membership Int DriverBitRange where
  mem range bit := range.lower ≤ bit ∧ bit ≤ range.upper

theorem mem_iff {range : DriverBitRange} {bit : Int} :
    bit ∈ range ↔ range.lower ≤ bit ∧ bit ≤ range.upper :=
  Iff.rfl

instance (range : DriverBitRange) (bit : Int) : Decidable (bit ∈ range) :=
  decidable_of_iff _ mem_iff.symm

def contains (range other : DriverBitRange) : Bool :=
  range.lower ≤ other.lower ∧ other.upper ≤ range.upper

def overlaps (range other : DriverBitRange) : Bool :=
  range.lower ≤ other.upper ∧ other.lower ≤ range.upper

/-- The two ranges abut or overlap. -/
def isContiguousWith (range other : DriverBitRange) : Bool :=
  range.upper + 1 ≥ other.lower ∧ other.upper + 1 ≥ range.lower

/-- The smallest range holding both. -/
def unionWith (range other : DriverBitRange) : DriverBitRange :=
  ⟨min range.lower other.lower, max range.upper other.upper⟩

/-- The common bits of two overlapping ranges. -/
def intersect (range other : DriverBitRange) : DriverBitRange :=
  ⟨max range.lower other.lower, min range.upper other.upper⟩

/-- The common bits, or nothing when the ranges do not overlap. -/
def intersection (range other : DriverBitRange) : Option DriverBitRange :=
  if range.overlaps other then some (range.intersect other) else none

theorem lower_le_upper (range : DriverBitRange) : range.lower ≤ range.upper := by
  simp only [lower, upper]
  omega

@[simp] theorem lower_mk {low high : Int} (ascending : low ≤ high) :
    (⟨low, high⟩ : DriverBitRange).lower = low := by
  simp only [lower]
  omega

@[simp] theorem upper_mk {low high : Int} (ascending : low ≤ high) :
    (⟨low, high⟩ : DriverBitRange).upper = high := by
  simp only [upper]
  omega

@[simp] theorem lower_normalize (range : DriverBitRange) :
    range.normalize.lower = range.lower :=
  lower_mk range.lower_le_upper

@[simp] theorem upper_normalize (range : DriverBitRange) :
    range.normalize.upper = range.upper :=
  upper_mk range.lower_le_upper

@[simp] theorem mem_normalize {range : DriverBitRange} {bit : Int} :
    bit ∈ range.normalize ↔ bit ∈ range := by
  simp [mem_iff]

@[simp] theorem contains_iff {range other : DriverBitRange} :
    range.contains other = true ↔ range.lower ≤ other.lower ∧ other.upper ≤ range.upper := by
  simp [contains]

@[simp] theorem overlaps_iff {range other : DriverBitRange} :
    range.overlaps other = true ↔ range.lower ≤ other.upper ∧ other.lower ≤ range.upper := by
  simp [overlaps]

theorem isContiguousWith_iff {range other : DriverBitRange} :
    range.isContiguousWith other = true ↔
      other.lower ≤ range.upper + 1 ∧ range.lower ≤ other.upper + 1 := by
  simp [isContiguousWith]

/-- The union of contiguous ranges has the bits of both and no other. -/
theorem mem_unionWith {range other : DriverBitRange}
    (contiguous : range.isContiguousWith other = true) {bit : Int} :
    bit ∈ range.unionWith other ↔ bit ∈ range ∨ bit ∈ other := by
  have := range.lower_le_upper
  have := other.lower_le_upper
  rw [isContiguousWith_iff] at contiguous
  simp only [mem_iff, unionWith]
  rw [lower_mk (by omega), upper_mk (by omega)]
  omega

theorem intersect_ascending {range other : DriverBitRange}
    (overlapping : range.overlaps other = true) :
    max range.lower other.lower ≤ min range.upper other.upper := by
  have := range.lower_le_upper
  have := other.lower_le_upper
  rw [overlaps_iff] at overlapping
  omega

theorem mem_intersect {range other : DriverBitRange}
    (overlapping : range.overlaps other = true) {bit : Int} :
    bit ∈ range.intersect other ↔ bit ∈ range ∧ bit ∈ other := by
  have := range.lower_le_upper
  have := other.lower_le_upper
  rw [overlaps_iff] at overlapping
  simp only [mem_iff, intersect]
  rw [lower_mk (by omega), upper_mk (by omega)]
  omega

end DriverBitRange

end SlangNetlist
