import SlangNetlist.Analysis.AlignedBits
import SlangNetlist.Analysis.AssignmentSteps

/-!
# Dynamic selects

The slice of a select is as wide as the select, while the bounds of its longest
static prefix have every bit that the selector may choose.  The segments of an
assignment read the first bits of the bounds, as many as the slice has.
-/

namespace SlangNetlist

open Library

/-- What a decomposed expression refers to: a value with slices, or an operand that is visited. -/
inductive Reference where
  | leaf (width : Nat) (path : ValuePath) (selectors : List Selector)
  | visited (expr : Expr)
  deriving DecidableEq, Repr

namespace SliceExpr

/-- An operand that is visited, if it has a bit. -/
def visitedAt (width : Nat) (expr : Expr) : List Reference :=
  if width = 0 then [] else [.visited expr]

mutual

/-- The references that the slices of an expression stand for. -/
def references (cuts : Option CutRegistry) : SliceExpr → List Reference
  | .value width path selectors => if width = 0 then [] else [.leaf width path selectors]
  | .concatenation operands => operandsReferences cuts operands
  | .replication width count concat expr =>
      match count with
      | none => visitedAt width expr
      | some count => if count.toNat = 0 then [] else references cuts concat
  | .conversion width folded _ operand expr _ =>
      match foldedAt width folded with
      | some _ => []
      | none =>
          if width ≥ operand.width then references cuts operand else visitedAt width expr
  | .conditionalOp width plain condition left right expr =>
      if Splits width plain left right ∧ sliceWidth cuts left = sliceWidth cuts right then
        if sliceWidth cuts left = 0 then []
        else references cuts left ++ references cuts right ++ [.visited condition]
      else visitedAt width expr
  | .other width folded expr _ =>
      match foldedAt width folded with
      | some _ => []
      | none => visitedAt width expr

def operandsReferences (cuts : Option CutRegistry) : List SliceExpr → List Reference
  | [] => []
  | operand :: rest => operandsReferences cuts rest ++ references cuts operand

end

/-- The source of a bit belongs to the reference. -/
def Shows (cuts : Option CutRegistry) (source : BitSource) : Reference → Prop
  | .leaf width path selectors => ∃ bit < sliceWidth cuts (.value width path selectors),
      source = .leaf path selectors (path.lspBounds.lower + (bit : Nat))
  | .visited expr => source = .opaqueExpr expr

/-- Some bit of the expression has the source. -/
def HasSource (cuts : Option CutRegistry) (expr : SliceExpr) (source : BitSource) : Prop :=
  ∃ bit < sliceWidth cuts expr, source ∈ bitSources (sliceWidth cuts) expr bit

/-- A source that is neither a constant nor padding. -/
def Refers : BitSource → Prop
  | .constant _ _ | .padding => False
  | _ => True

variable {cuts : Option CutRegistry} {source : BitSource}

theorem hasOpaque_iff {width : Nat} {expr : Expr} :
    (∃ bit < width, source ∈ [BitSource.opaqueExpr expr]) ↔
      ∃ reference ∈ visitedAt width expr, Shows cuts source reference := by
  unfold visitedAt
  split
  · next none => simp [none]
  · next some =>
      simp only [List.mem_singleton, exists_eq_left, Shows]
      exact ⟨fun ⟨_, _, same⟩ => same, fun same => ⟨0, Nat.pos_of_ne_zero some, same⟩⟩

/-- Copies have the sources of the operand, if there is a copy. -/
theorem exists_repeat_iff {count times : Nat} {bits : Nat → List BitSource} :
    (∃ bit < times * count, source ∈ bits (bit % count)) ↔
      times ≠ 0 ∧ ∃ bit < count, source ∈ bits bit := by
  constructor
  · rintro ⟨bit, below, member⟩
    have positive : 0 < times * count := by omega
    refine ⟨(Nat.pos_of_mul_pos_right positive).ne', bit % count,
      Nat.mod_lt _ (Nat.pos_of_mul_pos_left positive), member⟩
  · rintro ⟨some, bit, below, member⟩
    refine ⟨bit, lt_of_lt_of_le below (Nat.le_mul_of_pos_left _ (Nat.pos_of_ne_zero some)), ?_⟩
    rwa [Nat.mod_eq_of_lt below]

/-- The bits of two lists one above the other. -/
theorem exists_stacked_iff {count more : Nat} {first second : Nat → List BitSource} :
    (∃ bit < count + more, source ∈ if bit < count then first bit else second (bit - count)) ↔
      (∃ bit < count, source ∈ first bit) ∨ ∃ bit < more, source ∈ second bit := by
  constructor
  · rintro ⟨bit, below, member⟩
    split at member
    · next inFirst => exact Or.inl ⟨bit, inFirst, member⟩
    · next inSecond => exact Or.inr ⟨bit - count, by omega, member⟩
  · rintro (⟨bit, below, member⟩ | ⟨bit, below, member⟩)
    · exact ⟨bit, by omega, by rwa [if_pos below]⟩
    · refine ⟨count + bit, by omega, ?_⟩
      rwa [if_neg (by omega), Nat.add_sub_cancel_left]

mutual

/-- The references are exactly what the bits of the slices come from. -/
theorem hasSource_iff (refers : Refers source) : ∀ expr : SliceExpr,
    HasSource cuts expr source ↔ ∃ reference ∈ references cuts expr, Shows cuts source reference
  | .value width path selectors => by
      simp only [HasSource, references, bitSources, List.mem_singleton]
      split
      · next none => simp [sliceWidth, none]
      · simp only [List.mem_singleton, exists_eq_left, Shows]
  | .concatenation operands => by
      simpa only [HasSource, sliceWidth, bitSources, references] using
        hasOperandsSource_iff refers operands
  | .replication width count concat expr => by
      cases count with
      | none => exact hasOpaque_iff
      | some count =>
          have inner := hasSource_iff refers concat
          simp only [HasSource, sliceWidth, bitSources, references] at inner ⊢
          rw [exists_repeat_iff, inner]
          split
          · next none => simp [none]
          · next some => simp [some]
  | .conversion width folded isSignExt operand expr location => by
      have inner := hasSource_iff refers operand
      simp only [HasSource, sliceWidth, bitSources, references] at inner ⊢
      cases foldedAt width folded with
      | some number =>
          simp only [List.not_mem_nil, false_and, exists_false, iff_false, List.mem_singleton]
          rintro ⟨_, _, rfl⟩
          exact refers
      | none =>
          dsimp only
          by_cases equal : width = operand.width
          · simpa only [if_pos equal, equal.ge, if_true] using inner
          · by_cases wider : width > operand.width
            · simp only [if_neg equal, if_pos wider, wider.le, if_true]
              rw [← inner]
              refine (@exists_stacked_iff source (sliceWidth cuts operand) (width - operand.width)
                (bitSources (sliceWidth cuts) operand) fun bit =>
                  if isSignExt then [.padding]
                  else [.constant (.integer ⟨List.replicate (width - operand.width) .zero⟩)
                    bit]).trans (or_iff_left ?_)
              rintro ⟨bit, _, member⟩
              split at member
              · rw [List.mem_singleton.mp member] at refers
                exact refers
              · rw [List.mem_singleton.mp member] at refers
                exact refers
            · have narrower : ¬ width ≥ operand.width := by omega
              simp only [if_neg equal, if_neg wider, if_neg narrower]
              exact hasOpaque_iff
  | .conditionalOp width plain condition left right expr => by
      have inLeft := hasSource_iff refers left
      have inRight := hasSource_iff refers right
      simp only [HasSource, sliceWidth, bitSources, references] at inLeft inRight ⊢
      split
      · next splits =>
          rw [← splits.2] at inRight
          split
          · next none => simp [none]
          · next some =>
              have condition_shows : (∃ bit < sliceWidth cuts left,
                  source = .opaqueExpr condition) ↔ Shows cuts source (.visited condition) :=
                ⟨fun ⟨_, _, same⟩ => same, fun same => ⟨0, Nat.pos_of_ne_zero some, same⟩⟩
              simp only [List.mem_append, List.mem_singleton, or_and_right, and_or_left, exists_or,
                exists_eq_left, inLeft, inRight, condition_shows, or_assoc]
      · exact hasOpaque_iff
  | .other width folded expr location => by
      simp only [HasSource, sliceWidth, bitSources, references]
      cases foldedAt width folded with
      | some number =>
          simp only [List.not_mem_nil, false_and, exists_false, iff_false, List.mem_singleton]
          rintro ⟨_, _, rfl⟩
          exact refers
      | none => exact hasOpaque_iff

theorem hasOperandsSource_iff (refers : Refers source) : ∀ operands : List SliceExpr,
    (∃ bit < operandsSliceWidth cuts operands,
      source ∈ operandsBits (sliceWidth cuts) operands bit) ↔
    ∃ reference ∈ operandsReferences cuts operands, Shows cuts source reference
  | [] => by simp [operandsSliceWidth, operandsReferences]
  | operand :: rest => by
      have inOperand := hasSource_iff refers operand
      have inRest := hasOperandsSource_iff refers rest
      simp only [HasSource] at inOperand
      simp only [operandsSliceWidth, operandsBits, BitSliceList.operandsMeasure_sliceWidth,
        operandsReferences, List.mem_append, or_and_right, exists_or, ← inOperand, ← inRest]
      exact exists_stacked_iff

end

end SliceExpr

namespace AssignmentStep

/-- One of the steps reads the bit of the symbol. -/
def SomeReads (steps : List AssignmentStep) (symbol : ValueSymbol) (bit : Int) : Prop :=
  ∃ access, .read access ∈ steps ∧ access.symbol = symbol ∧ bit ∈ access.bounds

theorem someReads_append {first second : List AssignmentStep} {symbol : ValueSymbol} {bit : Int} :
    SomeReads (first ++ second) symbol bit ↔
      SomeReads first symbol bit ∨ SomeReads second symbol bit := by
  simp [SomeReads, or_and_right, exists_or]

theorem someReads_flatMap {Source : Type} {sources : List Source}
    {steps : Source → List AssignmentStep} {symbol : ValueSymbol} {bit : Int} :
    SomeReads (sources.flatMap steps) symbol bit ↔
      ∃ source ∈ sources, SomeReads (steps source) symbol bit := by
  simp only [SomeReads, List.mem_flatMap]
  exact ⟨fun ⟨access, ⟨source, sourceMem, member⟩, reads⟩ => ⟨source, sourceMem, access, member, reads⟩,
    fun ⟨source, sourceMem, access, member, reads⟩ => ⟨access, ⟨source, sourceMem, member⟩, reads⟩⟩

end AssignmentStep

open AssignmentStep

/-- The source of a bit makes a read of the bit of the symbol, of its own or by a visit. -/
def BitSource.Reads (context : WalkContext) (symbol : ValueSymbol) (bit : Int) : BitSource → Prop
  | .leaf path selectors index =>
      match path.rootSymbol, path.lsp with
      | some root, some _ => SomeReads (selectors.flatMap (ofSelector context)) symbol bit ∨
          (root = symbol ∧ bit = index)
      | _, _ => False
  | .opaqueExpr expr => SomeReads (ofExpr context false false expr) symbol bit
  | _ => False

theorem BitSource.Reads.refers {context : WalkContext} {symbol : ValueSymbol} {bit : Int}
    {source : BitSource} (reads : source.Reads context symbol bit) : SliceExpr.Refers source := by
  cases source with
  | leaf _ _ _ => trivial
  | opaqueExpr _ => trivial
  | padding => exact reads
  | constant _ _ => exact reads
  | port _ => trivial

/-- The right sides of the segments read the bit of the symbol. -/
def ReadBySegments (context : WalkContext) (fallbackLoc : SourceLocation)
    (segments : List Segment) (symbol : ValueSymbol) (bit : Int) : Prop :=
  ∃ segment ∈ segments,
    SomeReads (segment.rhsSources.flatMap (ofRhsSource context fallbackLoc segment)) symbol bit

section Segments

variable {cuts : Option CutRegistry} {context : WalkContext} {fallbackLoc : SourceLocation}
  {lhs rhs : SliceExpr} {symbol : ValueSymbol} {bit : Int}

open BitSliceList SliceExpr

/-- The bits of the bounds that a segment takes of a source. -/
theorem mem_segmentBounds {path : ValuePath} {srcLo : Nat} {segment : Segment}
    (proper : segment.concatLo < segment.concatHi) :
    bit ∈ DataFlowAnalysis.segmentBounds path srcLo segment ↔ ∃ place, segment.Holds place ∧
      bit = (DataFlowAnalysis.segmentBounds path srcLo segment).lower +
        (place - segment.concatLo : Nat) := by
  have width : (segment.width : Int) = segment.concatHi - segment.concatLo := by
    simp only [Segment.width]
    omega
  have low : (DataFlowAnalysis.segmentBounds path srcLo segment).lower =
      path.lspBounds.lower + ((segment.concatLo : Int) - srcLo) :=
    DriverBitRange.lower_mk (by omega)
  have high : (DataFlowAnalysis.segmentBounds path srcLo segment).upper =
      path.lspBounds.lower + ((segment.concatLo : Int) - srcLo) + segment.width - 1 :=
    DriverBitRange.upper_mk (by omega)
  rw [DriverBitRange.mem_iff, low, high, width]
  constructor
  · rintro ⟨above, below⟩
    refine ⟨segment.concatLo +
      (bit - (path.lspBounds.lower + ((segment.concatLo : Int) - srcLo))).toNat, ⟨?_, ?_⟩, ?_⟩
    · omega
    · omega
    · omega
  · rintro ⟨place, ⟨above, below⟩, rfl⟩
    omega

/-- The reads of a source in a segment are those of what it stands for there. -/
theorem someReads_ofRhsSource {segment : Segment} (proper : segment.concatLo < segment.concatHi)
    {source : BitSliceSource} (placed : source.srcLo ≤ segment.concatLo) :
    SomeReads (ofRhsSource context fallbackLoc segment source) symbol bit ↔
      ∃ place, segment.Holds place ∧ (segment.passes place source).Reads context symbol bit := by
  have anyPlace {reads : Prop} : reads ↔ ∃ place, segment.Holds place ∧ reads := by
    constructor
    · exact fun given => ⟨segment.concatLo, ⟨le_rfl, proper⟩, given⟩
    · rintro ⟨_, _, given⟩
      exact given
  cases source with
  | lsp path selectors srcLo =>
      simp only [BitSliceSource.srcLo] at placed
      simp only [ofRhsSource, Segment.passes, BitSource.Reads]
      cases path.rootSymbol with
      | none => simp [SomeReads]
      | some root =>
          cases path.lsp with
          | none => simp [SomeReads]
          | some lsp =>
              simp only [placed, if_true, someReads_append, and_or_left, exists_or]
              refine or_congr anyPlace ?_
              simp only [SomeReads, List.mem_singleton, AssignmentStep.read.injEq, exists_eq_left,
                mem_segmentBounds proper]
              constructor
              · rintro ⟨same, place, holds, at_⟩
                exact ⟨place, holds, same, at_⟩
              · rintro ⟨place, holds, same, at_⟩
                exact ⟨same, place, holds, at_⟩
  | padding => simp [ofRhsSource, SomeReads, Segment.passes, BitSliceSource.bitAt, BitSource.Reads]
  | opaqueExpr expr =>
      exact anyPlace
  | portNode node =>
      simp [ofRhsSource, SomeReads, Segment.passes, BitSliceSource.bitAt, BitSource.Reads]
  | constant value srcLo location =>
      simp [ofRhsSource, SomeReads, Segment.passes, BitSliceSource.bitAt, BitSource.Reads]

/-- The reads of the segments are those of the references of the right side. -/
theorem readBySegments_iff
    (aligned : width (build lhs true cuts) = width (build rhs true cuts)) :
    ReadBySegments context fallbackLoc
        (alignSegments (build lhs true cuts) (build rhs true cuts)) symbol bit ↔
      ∃ reference ∈ references cuts rhs,
        ∃ source, Shows cuts source reference ∧ source.Reads context symbol bit := by
  rw [width_build, width_build] at aligned
  have lhsDenotes := denotes_build cuts lhs
  rw [aligned] at lhsDenotes
  obtain ⟨tiles, joined⟩ := alignSegments_spec lhsDenotes (denotes_build cuts rhs)
  have bySource : ReadBySegments context fallbackLoc
      (alignSegments (build lhs true cuts) (build rhs true cuts)) symbol bit ↔
      ∃ source, HasSource cuts rhs source ∧ source.Reads context symbol bit := by
    simp only [ReadBySegments, someReads_flatMap]
    constructor
    · rintro ⟨segment, member, source, sourceMem, reads⟩
      obtain ⟨placed, stands⟩ := joined segment member
      have inside := tiles.bounds member
      obtain ⟨place, holds, reads⟩ := (someReads_ofRhsSource inside.2.1
        (placed source (List.mem_append_right _ sourceMem))).mp reads
      refine ⟨_, ⟨place, by have := holds.2; omega, ?_⟩, reads⟩
      rw [← (stands place holds).2]
      exact List.mem_map_of_mem sourceMem
    · rintro ⟨source, ⟨place, below, sourceMem⟩, reads⟩
      obtain ⟨segment, member, _, holds⟩ := tiles.exists_find (Nat.zero_le place) below
      obtain ⟨placed, stands⟩ := joined segment member
      rw [← (stands place holds).2] at sourceMem
      obtain ⟨own, ownMem, rfl⟩ := List.mem_map.mp sourceMem
      exact ⟨segment, member, own, ownMem, (someReads_ofRhsSource (tiles.bounds member).2.1
        (placed own (List.mem_append_right _ ownMem))).mpr ⟨place, holds, reads⟩⟩
  rw [bySource]
  constructor
  · rintro ⟨source, has, reads⟩
    obtain ⟨reference, member, shows_⟩ := (hasSource_iff reads.refers rhs).mp has
    exact ⟨reference, member, source, shows_, reads⟩
  · rintro ⟨reference, member, source, shows_, reads⟩
    exact ⟨source, (hasSource_iff reads.refers rhs).mpr ⟨reference, member, shows_⟩, reads⟩

end Segments

/--
For every select with a selector that is not constant, the segments read every
bit of the bounds of its longest static prefix.
-/
def ReadsConservatively (cuts : Option CutRegistry) (context : WalkContext)
    (fallbackLoc : SourceLocation) (lhs rhs : SliceExpr) : Prop :=
  ∀ width path selectors, .leaf width path selectors ∈ rhs.references cuts →
    (∃ selector ∈ selectors, selector.constant = false) →
      ∀ root, path.rootSymbol = some root → path.lsp.isSome → ∀ bit ∈ path.lspBounds,
        ReadBySegments context fallbackLoc
          (BitSliceList.alignSegments (BitSliceList.build lhs true cuts)
            (BitSliceList.build rhs true cuts)) root bit

/-- The bits of the bounds of a dynamic select beyond its slices are read by some reference. -/
def BeyondSlicesRead (cuts : Option CutRegistry) (context : WalkContext) (rhs : SliceExpr) : Prop :=
  ∀ width path selectors, .leaf width path selectors ∈ rhs.references cuts →
    (∃ selector ∈ selectors, selector.constant = false) →
      ∀ root, path.rootSymbol = some root → path.lsp.isSome → ∀ bit ∈ path.lspBounds,
        path.lspBounds.lower + SliceExpr.sliceWidth cuts (.value width path selectors) ≤ bit →
          ∃ reference ∈ rhs.references cuts, ∃ source,
            SliceExpr.Shows cuts source reference ∧ source.Reads context root bit

/--
On the bit-aligned path dynamic selects read conservatively if and only if the
bits beyond their slices are read by some reference of the right side.
-/
theorem readsConservatively_iff (cuts : Option CutRegistry) (context : WalkContext)
    (fallbackLoc : SourceLocation) (lhs rhs : SliceExpr)
    (aligned : BitSliceList.width (BitSliceList.build lhs true cuts) =
      BitSliceList.width (BitSliceList.build rhs true cuts)) :
    ReadsConservatively cuts context fallbackLoc lhs rhs ↔ BeyondSlicesRead cuts context rhs := by
  constructor
  · intro conservative width path selectors member dynamic root rooted resolved bit inside _
    exact (readBySegments_iff aligned).mp
      (conservative width path selectors member dynamic root rooted resolved bit inside)
  · intro beyond width path selectors member dynamic root rooted resolved bit inside
    refine (readBySegments_iff aligned).mpr ?_
    by_cases far : path.lspBounds.lower +
        SliceExpr.sliceWidth cuts (.value width path selectors) ≤ bit
    · exact beyond width path selectors member dynamic root rooted resolved bit inside far
    · obtain ⟨place, same⟩ := Int.eq_ofNat_of_zero_le (Int.sub_nonneg_of_le inside.1)
      obtain ⟨lsp, found⟩ := Option.isSome_iff_exists.mp resolved
      refine ⟨_, member, .leaf path selectors bit, ⟨place, by omega, by congr 1; omega⟩, ?_⟩
      simp only [BitSource.Reads, rooted, found]
      exact Or.inr ⟨trivial, trivial⟩

/-- The path of `x` with eight bits, as a read or as the longest static prefix of `x[i]`. -/
def bytePath : ValuePath where
  rootSymbol := some { id := 1, name := "x", hierarchicalPath := "m.x" }
  lsp := some 1
  lspBounds := ⟨0, 7⟩

/-- The selector `i`. -/
def byteSelector : Selector where
  expr := .value .literal {
    rootSymbol := some { id := 2, name := "i", hierarchicalPath := "m.i" }
    lsp := some 2
    lspBounds := ⟨0, 2⟩ }

/-- `x[i]`. -/
def bitSelect : SliceExpr := .value 1 bytePath [byteSelector]

theorem readsConservatively_iff_bitSelect :
    ReadsConservatively none ⟨true, .data, .range⟩ none (BitSliceList.wholeValue 0 1) bitSelect ↔
      BeyondSlicesRead none ⟨true, .data, .range⟩ bitSelect :=
  readsConservatively_iff none ⟨true, .data, .range⟩ none (BitSliceList.wholeValue 0 1) bitSelect
    (by decide)

/-- The assignment `y = x[i]` reads `x[0]` alone. -/
theorem bitSelect_not_conservative :
    BitSliceList.width (BitSliceList.build (BitSliceList.wholeValue 0 1) true none) =
        BitSliceList.width (BitSliceList.build bitSelect true none) ∧
      ¬ ReadsConservatively none ⟨true, .data, .range⟩ none (BitSliceList.wholeValue 0 1)
        bitSelect := by
  have aligned : BitSliceList.width (BitSliceList.build (BitSliceList.wholeValue 0 1) true none) =
      BitSliceList.width (BitSliceList.build bitSelect true none) := by decide
  refine ⟨aligned, fun conservative => ?_⟩
  have reads := (readBySegments_iff aligned).mp (conservative 1 bytePath [byteSelector]
    (by decide) ⟨byteSelector, List.mem_cons_self, rfl⟩ _ rfl rfl 7 (by decide))
  obtain ⟨reference, member, source, shows_, reads⟩ := reads
  obtain rfl : reference = .leaf 1 bytePath [byteSelector] := by
    simpa [bitSelect, SliceExpr.references] using member
  obtain ⟨place, below, rfl⟩ := shows_
  have first : place = 0 := by
    simpa [SliceExpr.sliceWidth, BitSliceList.innerCuts] using below
  subst first
  rcases reads with ⟨access, member, same, _⟩ | ⟨_, other⟩
  · simp [byteSelector, ofSelector, ofExpr, ofPath] at member
    simp [member] at same
  · simp [bytePath, DriverBitRange.lower] at other

end SlangNetlist
