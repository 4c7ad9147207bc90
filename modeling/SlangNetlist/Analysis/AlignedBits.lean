import SlangNetlist.Analysis.BitSliceBits
import SlangNetlist.Analysis.DataFlowAnalysis

/-!
# Bit-aligned assignments

When the width of every value is the size of its bounds, the decomposition has
the width of the expression, and every segment of an assignment joins the bits
of the two sides at the same place.
-/

namespace SlangNetlist

open Library

namespace SliceExpr

mutual

/-- Values are as wide as their bounds, and replications as wide as their copies. -/
def Fits : SliceExpr → Prop
  | .value width path _ =>
      0 ≤ path.lspBounds.lower ∧ (width : Int) = path.lspBounds.upper + 1 - path.lspBounds.lower
  | .concatenation operands => OperandsFit operands
  | .replication width count concat _ =>
      match count with
      | none => True
      | some count => width = count.toNat * concat.width ∧ concat.Fits
  | .conversion _ _ _ operand _ _ => operand.Fits
  | .conditionalOp _ _ _ left right _ => left.Fits ∧ right.Fits
  | .other _ _ _ _ => True

def OperandsFit : List SliceExpr → Prop
  | [] => True
  | operand :: rest => operand.Fits ∧ OperandsFit rest

end

mutual

/-- A nested concatenation of values, as on the left side of an assignment. -/
def Lvalue : SliceExpr → Prop
  | .value _ _ _ => True
  | .concatenation operands => OperandsLvalue operands
  | _ => False

def OperandsLvalue : List SliceExpr → Prop
  | [] => True
  | operand :: rest => operand.Lvalue ∧ OperandsLvalue rest

end

variable (cuts : Option CutRegistry)

mutual

/-- A fitting expression has slices of its own width. -/
theorem sliceWidth_eq : ∀ expr : SliceExpr, expr.Fits → sliceWidth cuts expr = expr.width
  | .value width path selectors, fits => by
      simp only [Fits] at fits
      simp only [sliceWidth, SliceExpr.width]
      split
      · omega
      · split
        · rfl
        · omega
  | .concatenation operands, fits => operandsSliceWidth_eq operands (by simpa only [Fits] using fits)
  | .replication width count concat expr, fits => by
      cases count with
      | none => rfl
      | some count =>
          simp only [Fits] at fits
          simp only [sliceWidth, SliceExpr.width, sliceWidth_eq concat fits.2, fits.1]
  | .conversion width folded isSignExt operand expr location, fits => by
      simp only [Fits] at fits
      simp only [sliceWidth, SliceExpr.width, sliceWidth_eq operand fits]
      split
      · rfl
      · split
        · next equal => exact equal.symm
        · split
          · omega
          · rfl
  | .conditionalOp width plain condition left right expr, fits => by
      simp only [Fits] at fits
      simp only [sliceWidth, SliceExpr.width, sliceWidth_eq left fits.1]
      split
      · next splits => exact splits.1.2.1
      · rfl
  | .other width folded expr location, _ => rfl

theorem operandsSliceWidth_eq : ∀ operands : List SliceExpr, OperandsFit operands →
    operandsSliceWidth cuts operands = operandsWidth operands
  | [], _ => rfl
  | operand :: rest, fits => by
      simp only [OperandsFit] at fits
      simp only [operandsSliceWidth, operandsWidth, sliceWidth_eq operand fits.1,
        operandsSliceWidth_eq rest fits.2]
      omega

end

theorem operandsMeasure_width (operands : List SliceExpr) :
    operandsMeasure width operands = operandsWidth operands := by
  induction operands with
  | nil => rfl
  | cons operand rest ih =>
      simp only [operandsMeasure, operandsWidth, ih]
      omega

mutual

/-- The bits of a fitting expression do not depend on the cuts. -/
theorem bitSources_sliceWidth : ∀ expr : SliceExpr, expr.Fits →
    bitSources (sliceWidth cuts) expr = bitSources width expr
  | .value width path selectors, _ => rfl
  | .concatenation operands, fits => by
      funext bit
      simp only [Fits] at fits
      simp only [bitSources, operandsBits_sliceWidth operands fits]
  | .replication width count concat expr, fits => by
      funext bit
      cases count with
      | none => rfl
      | some count =>
          simp only [Fits] at fits
          simp only [bitSources, sliceWidth_eq cuts concat fits.2,
            bitSources_sliceWidth concat fits.2]
  | .conversion width folded isSignExt operand expr location, fits => by
      funext bit
      simp only [Fits] at fits
      simp only [bitSources, sliceWidth_eq cuts operand fits, bitSources_sliceWidth operand fits]
  | .conditionalOp width plain condition left right expr, fits => by
      funext bit
      simp only [Fits] at fits
      simp only [bitSources, sliceWidth_eq cuts left fits.1, sliceWidth_eq cuts right fits.2,
        bitSources_sliceWidth left fits.1, bitSources_sliceWidth right fits.2]
  | .other width folded expr location, _ => rfl

theorem operandsBits_sliceWidth : ∀ operands : List SliceExpr, OperandsFit operands →
    operandsBits (sliceWidth cuts) operands = operandsBits width operands
  | [], _ => rfl
  | operand :: rest, fits => by
      funext bit
      simp only [OperandsFit] at fits
      simp only [operandsBits, operandsBits_sliceWidth rest fits.2,
        bitSources_sliceWidth operand fits.1, BitSliceList.operandsMeasure_sliceWidth,
        operandsMeasure_width,
        operandsSliceWidth_eq cuts rest fits.2]

end

mutual

/-- A bit of a left side is one bit of one of its values. -/
theorem exists_leaf : ∀ (expr : SliceExpr) (bit : Nat), expr.Lvalue → bit < expr.width →
    ∃ path selectors index, bitSources width expr bit = [.leaf path selectors index]
  | .value width path selectors, bit, _, _ => ⟨path, selectors, _, rfl⟩
  | .concatenation operands, bit, lvalue, below => by
      simp only [Lvalue] at lvalue
      simp only [bitSources]
      exact exists_operandsLeaf operands bit lvalue (by simpa only [SliceExpr.width] using below)
  | .replication _ _ _ _, _, lvalue, _ => by simp only [Lvalue] at lvalue
  | .conversion _ _ _ _ _ _, _, lvalue, _ => by simp only [Lvalue] at lvalue
  | .conditionalOp _ _ _ _ _ _, _, lvalue, _ => by simp only [Lvalue] at lvalue
  | .other _ _ _ _, _, lvalue, _ => by simp only [Lvalue] at lvalue

theorem exists_operandsLeaf : ∀ (operands : List SliceExpr) (bit : Nat), OperandsLvalue operands →
    bit < operandsWidth operands →
      ∃ path selectors index, operandsBits width operands bit = [.leaf path selectors index]
  | [], bit, _, below => absurd below (Nat.not_lt_zero bit)
  | operand :: rest, bit, lvalue, below => by
      simp only [OperandsLvalue] at lvalue
      simp only [operandsWidth] at below
      rw [operandsBits, operandsMeasure_width]
      split
      · next inRest => exact exists_operandsLeaf rest bit lvalue.2 inRest
      · exact exists_leaf operand _ lvalue.1 (by omega)

end

end SliceExpr

namespace Segment

/-- What a segment drives or reads at a bit: for a path, the bit of the bounds that it passes on. -/
def passes (segment : Segment) (bit : Nat) : BitSliceSource → BitSource
  | .lsp path selectors srcLo =>
      .leaf path selectors ((DataFlowAnalysis.segmentBounds path srcLo segment).lower +
        (bit - segment.concatLo : Nat))
  | source => source.bitAt bit

/-- The bit of the assignment is in the segment. -/
def Holds (segment : Segment) (bit : Nat) : Prop :=
  segment.concatLo ≤ bit ∧ bit < segment.concatHi

theorem passes_eq {segment : Segment} {bit : Nat} (holds : segment.Holds bit)
    {source : BitSliceSource} (placed : source.srcLo ≤ segment.concatLo) :
    segment.passes bit source = source.bitAt bit := by
  cases source with
  | lsp path selectors srcLo =>
      simp only [BitSliceSource.srcLo] at placed
      simp only [passes, BitSliceSource.bitAt, DataFlowAnalysis.segmentBounds, Segment.width]
      obtain ⟨above, below⟩ := holds
      rw [DriverBitRange.lower_mk (by omega)]
      congr 1
      omega
  | padding => rfl
  | opaqueExpr expr => rfl
  | portNode node => rfl
  | constant value srcLo location => rfl

end Segment

namespace BitSliceList

/-- The segment joins the two sides at a bit. -/
structure JoinsAt (lhs rhs : SliceExpr) (segment : Segment) (bit : Nat) : Prop where
  /-- One bit of one value of the left side is driven. -/
  driven : ∃ path selectors index,
    SliceExpr.bitSources SliceExpr.width lhs bit = [.leaf path selectors index] ∧
      segment.lhsSources.map (segment.passes bit) = [.leaf path selectors index]
  read : segment.rhsSources.map (segment.passes bit) =
    SliceExpr.bitSources SliceExpr.width rhs bit
  /-- The assertions on the sources hold. -/
  placed : ∀ source ∈ segment.lhsSources ++ segment.rhsSources, source.srcLo ≤ segment.concatLo

/-- The slices of a fitting expression tile its width. -/
theorem denotes_of_fits (cuts : Option CutRegistry) {expr : SliceExpr} (fits : expr.Fits) :
    Denotes (build expr true cuts) 0 expr.width (SliceExpr.bitSources SliceExpr.width expr) := by
  have denotes := denotes_build cuts expr
  rwa [SliceExpr.sliceWidth_eq cuts expr fits, SliceExpr.bitSources_sliceWidth cuts expr fits]
    at denotes

/-- The segments of two lists of one width tile their range and have the sources of both. -/
theorem alignSegments_spec {left right : BitSliceList} {finish : Nat}
    {leftBits rightBits : Nat → List BitSource} (leftDenotes : Denotes left 0 finish leftBits)
    (rightDenotes : Denotes right 0 finish rightBits) :
    Tiles Segment.concatLo Segment.concatHi 0 (alignSegments left right) finish ∧
    ∀ segment ∈ alignSegments left right,
      (∀ source ∈ segment.lhsSources ++ segment.rhsSources, source.srcLo ≤ segment.concatLo) ∧
      ∀ bit, segment.Holds bit →
        segment.lhsSources.map (segment.passes bit) = leftBits bit ∧
        segment.rhsSources.map (segment.passes bit) = rightBits bit := by
  have tiles := tiles_mergeCuts leftDenotes.tiles rightDenotes.tiles
  constructor
  · exact @Tiles.map _ _ _ _ _ _ _ Segment.concatLo Segment.concatHi id _ tiles
      (fun _ _ _ below => below) (fun _ => rfl) (fun _ => rfl)
  · intro segment member
    obtain ⟨pair, pairMem, rfl⟩ := List.mem_map.mp member
    have within := lt_of_lt_of_le (tiles.bounds pairMem).2.1 (tiles.bounds pairMem).2.2
    obtain ⟨leftStands, leftStarts⟩ := leftDenotes.sourcesAt_spec (sorted_mergeCuts _ _)
      (fun cut cutMem => mem_mergeCuts.mpr (Or.inl cutMem)) pairMem within
    obtain ⟨rightStands, rightStarts⟩ := rightDenotes.sourcesAt_spec (sorted_mergeCuts _ _)
      (fun cut cutMem => mem_mergeCuts.mpr (Or.inr cutMem)) pairMem within
    refine ⟨fun source sourceMem => ?_, fun bit holds => ⟨?_, ?_⟩⟩
    · rcases List.mem_append.mp sourceMem with inLeft | inRight
      · exact leftStarts source inLeft
      · exact rightStarts source inRight
    · rw [← leftStands bit holds.1 holds.2]
      exact List.map_congr_left fun source sourceMem =>
        Segment.passes_eq holds (leftStarts source sourceMem)
    · rw [← rightStands bit holds.1 holds.2]
      exact List.map_congr_left fun source sourceMem =>
        Segment.passes_eq holds (rightStarts source sourceMem)

/--
For a left side of concatenated values and a right side of one width, the
slices of both sides and their segments tile the range of the assignment, and
at every bit the one segment that has it drives the bit of the left side there
and reads the bits of the right side there.
-/
theorem alignSegments_exact (cuts : Option CutRegistry) (lhs rhs : SliceExpr)
    (lvalue : lhs.Lvalue) (lhsFits : lhs.Fits) (rhsFits : rhs.Fits)
    (sameWidth : lhs.width = rhs.width) :
    Tiles BitSlice.concatLo BitSlice.concatHi 0 (build lhs true cuts) lhs.width ∧
    Tiles BitSlice.concatLo BitSlice.concatHi 0 (build rhs true cuts) rhs.width ∧
    Tiles Segment.concatLo Segment.concatHi 0
      (alignSegments (build lhs true cuts) (build rhs true cuts)) lhs.width ∧
    ∀ bit < lhs.width, ∃ segment ∈ alignSegments (build lhs true cuts) (build rhs true cuts),
      segment.Holds bit ∧
      (∀ other ∈ alignSegments (build lhs true cuts) (build rhs true cuts), other.Holds bit →
        other = segment) ∧
      JoinsAt lhs rhs segment bit := by
  have lhsDenotes := denotes_of_fits cuts lhsFits
  have rhsDenotes := denotes_of_fits cuts rhsFits
  refine ⟨lhsDenotes.tiles, rhsDenotes.tiles, ?_⟩
  rw [← sameWidth] at rhsDenotes
  obtain ⟨tiles, joined⟩ := alignSegments_spec lhsDenotes rhsDenotes
  refine ⟨tiles, fun bit below => ?_⟩
  obtain ⟨segment, member, _, holds⟩ := tiles.exists_find (Nat.zero_le bit) below
  obtain ⟨placed, stands⟩ := joined segment member
  obtain ⟨driven, read⟩ := stands bit holds
  obtain ⟨path, selectors, index, leaf⟩ := SliceExpr.exists_leaf lhs bit lvalue below
  exact ⟨segment, member, holds, fun other otherMem inOther =>
      tiles.unique otherMem member inOther holds,
    ⟨path, selectors, index, leaf, driven.trans leaf⟩, read, placed⟩

/-- A value that is read or driven whole. -/
def wholeValue (id : Nat) (width : Nat) : SliceExpr :=
  .value width {
    rootSymbol := some { id := id }
    lsp := some id
    lspBounds := ⟨0, (width : Int) - 1⟩ } []

/-- `{a, b}` with two bits each. -/
def pairTarget : SliceExpr := .concatenation [wholeValue 0 2, wholeValue 1 2]

/-- `c ? x : {y, 3'(z)}` with four bits of `x`, one of `y` and two of `z`. -/
def conditionalSource : SliceExpr :=
  .conditionalOp 4 true .literal (wholeValue 2 4)
    (.concatenation [wholeValue 3 1, .conversion 3 none false (wholeValue 4 2) .literal none])
    .literal

/-- The bit 2 goes to `a[0]`, from `x[2]` or from the padding above `z`. -/
example : (alignSegments (build pairTarget true none) (build conditionalSource true none)).map
    (fun segment => (segment.concatLo, segment.concatHi)) = [(0, 2), (2, 3), (3, 4)] := by
  decide +kernel

theorem alignSegments_exact_conditional :
    Tiles BitSlice.concatLo BitSlice.concatHi 0 (build pairTarget true none) pairTarget.width ∧
    Tiles BitSlice.concatLo BitSlice.concatHi 0 (build conditionalSource true none)
      conditionalSource.width ∧
    Tiles Segment.concatLo Segment.concatHi 0
      (alignSegments (build pairTarget true none) (build conditionalSource true none))
      pairTarget.width ∧
    ∀ bit < pairTarget.width,
      ∃ segment ∈ alignSegments (build pairTarget true none) (build conditionalSource true none),
        segment.Holds bit ∧
        (∀ other ∈ alignSegments (build pairTarget true none) (build conditionalSource true none),
          other.Holds bit → other = segment) ∧
        JoinsAt pairTarget conditionalSource segment bit :=
  alignSegments_exact none pairTarget conditionalSource
    (by simp [pairTarget, wholeValue, SliceExpr.Lvalue, SliceExpr.OperandsLvalue])
    (by simp [pairTarget, wholeValue, SliceExpr.Fits, SliceExpr.OperandsFit, DriverBitRange.lower,
      DriverBitRange.upper])
    (by simp [conditionalSource, wholeValue, SliceExpr.Fits, SliceExpr.OperandsFit,
      DriverBitRange.lower, DriverBitRange.upper])
    (by decide)

end BitSliceList

end SlangNetlist
