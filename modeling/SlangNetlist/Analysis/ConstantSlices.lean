import SlangNetlist.Analysis.BitSliceBits
import SlangNetlist.Analysis.DataFlowAnalysis

/-!
# The slices of constants

A constant source keeps the place of its first bit when its arm is embedded in
another list and when the list is aligned.  So the segments that carry it cut
the bits of its value into pieces, none missing and none taken twice.
-/

namespace SlangNetlist

open Library

/-- The bits of a constant value. -/
def ConstantValue.width : ConstantValue → Nat
  | .integer value => value.bits.length
  | _ => 0

namespace BitSliceSource

theorem translate_injective (baseOffset : Nat) : Function.Injective (translate baseOffset) := by
  intro first second same
  cases first <;> cases second <;> simp_all [translate]

/-- A constant behind the base offset is the translation of one in the frame of the arm. -/
theorem count_translate_of_le {baseOffset srcLo : Nat} (behind : baseOffset ≤ srcLo)
    (sources : List BitSliceSource) (value : ConstantValue) (location : Option SourceLocation) :
    (sources.map (translate baseOffset)).count (.constant value srcLo location) =
      sources.count (.constant value (srcLo - baseOffset) location) := by
  have moved : BitSliceSource.constant value srcLo location =
      translate baseOffset (.constant value (srcLo - baseOffset) location) := by
    simp [translate, behind]
  rw [moved, List.count_map_of_injective _ _ (translate_injective baseOffset)]

theorem count_translate_of_lt {baseOffset srcLo : Nat} (before : srcLo < baseOffset)
    (sources : List BitSliceSource) (value : ConstantValue) (location : Option SourceLocation) :
    (sources.map (translate baseOffset)).count (.constant value srcLo location) = 0 := by
  rw [List.count_eq_zero]
  intro member
  obtain ⟨source, _, moved⟩ := List.mem_map.mp member
  cases source <;> simp [translate] at moved
  omega

end BitSliceSource

namespace BitSliceList

/-- The slices have a constant source a fixed number of times at its bits, and nowhere else. -/
structure CarriesAt (list : BitSliceList) (lo hi : Nat) (value : ConstantValue) (srcLo : Nat)
    (location : Option SourceLocation) (times : Nat) : Prop where
  inside : 0 < times → lo ≤ srcLo ∧ srcLo + value.width ≤ hi
  count : ∀ slice ∈ list, ∀ position, slice.concatLo ≤ position → position < slice.concatHi →
    slice.sources.count (.constant value srcLo location) =
      if srcLo ≤ position ∧ position < srcLo + value.width then times else 0

/-- The slices that tile a range have every constant source whole. -/
structure Whole (list : BitSliceList) (lo hi : Nat) : Prop where
  tiles : Tiles BitSlice.concatLo BitSlice.concatHi lo list hi
  carries : ∀ value srcLo location, ∃ times, CarriesAt list lo hi value srcLo location times

section Whole

variable {out list others result left right : BitSliceList} {lo middle hi finish : Nat}
  {value : ConstantValue} {srcLo times : Nat} {location : Option SourceLocation}

/-- Slices without the constant. -/
theorem CarriesAt.absent (none : ∀ slice ∈ list,
      slice.sources.count (.constant value srcLo location) = 0) :
    CarriesAt list lo hi value srcLo location 0 :=
  ⟨fun some => absurd some (lt_irrefl 0), fun slice member position _ _ => by
    rw [none slice member, ite_self]⟩

theorem whole_nil (lo : Nat) : Whole [] lo lo :=
  ⟨.nil, fun _ _ _ => ⟨0, .absent fun _ member => nomatch member⟩⟩

/-- A constant of one part does not reach into the other one. -/
theorem CarriesAt.append {first second : Nat}
    (frontTiles : Tiles BitSlice.concatLo BitSlice.concatHi lo list middle)
    (backTiles : Tiles BitSlice.concatLo BitSlice.concatHi middle others hi)
    (front : CarriesAt list lo middle value srcLo location first)
    (back : CarriesAt others middle hi value srcLo location second) :
    CarriesAt (list ++ others) lo hi value srcLo location
      (if 0 < first then first else second) := by
  have frontLe := frontTiles.le
  have backLe := backTiles.le
  refine ⟨fun some => ?_, fun slice member position above below => ?_⟩
  · split at some
    · next carried =>
        have := front.inside carried
        omega
    · have := back.inside some
      omega
  · rcases List.mem_append.mp member with inFront | inBack
    · have bounds := frontTiles.bounds inFront
      rw [front.count slice inFront position above below]
      split
      · next bit =>
          split
          · rfl
          · -- a constant of the back part begins behind this position
            have := back.inside
            omega
      · rfl
    · have bounds := backTiles.bounds inBack
      rw [back.count slice inBack position above below]
      split
      · next bit =>
          split
          · have := front.inside ‹_›
            omega
          · rfl
      · rfl

theorem Whole.append (front : Whole list lo middle) (back : Whole others middle hi) :
    Whole (list ++ others) lo hi where
  tiles := front.tiles.append back.tiles
  carries value srcLo location := by
    obtain ⟨first, inFront⟩ := front.carries value srcLo location
    obtain ⟨second, inBack⟩ := back.carries value srcLo location
    exact ⟨_, inFront.append front.tiles back.tiles inBack⟩

/-- The result is the list with slices that have their constants whole. -/
def AddsWhole (out result : BitSliceList) : Prop :=
  ∃ added, result = out ++ added ∧ Whole added (width out) (width result)

theorem AddsWhole.refl (out : BitSliceList) : AddsWhole out out :=
  ⟨[], (List.append_nil out).symm, whole_nil _⟩

theorem AddsWhole.trans (front : AddsWhole out list) (back : AddsWhole list result) :
    AddsWhole out result := by
  obtain ⟨added, rfl, whole⟩ := front
  obtain ⟨later, rfl, wholeLater⟩ := back
  exact ⟨added ++ later, List.append_assoc _ _ _, whole.append wholeLater⟩

/-- The slices end where the tiling does. -/
theorem AddsWhole.of_whole (whole : Whole list (width out) hi) : AddsWhole out (out ++ list) := by
  have ends := width_append whole.tiles
  exact ⟨list, rfl, by rwa [ends]⟩

/-- The slices of a list that was empty before. -/
theorem AddsWhole.whole (adds : AddsWhole [] result) : Whole result 0 (width result) := by
  obtain ⟨added, rfl, whole⟩ := adds
  exact whole

/-- One slice with one source; a constant must be as wide as the slice. -/
theorem addsWhole_pushSource (out : BitSliceList) (count : Nat) (source : Nat → BitSliceSource)
    (fits : ∀ value srcLo location, source (width out) = .constant value srcLo location →
      srcLo = width out ∧ value.width = count) :
    AddsWhole out (pushSource out count source) := by
  unfold pushSource
  split
  · exact .refl out
  · next some =>
      refine @AddsWhole.of_whole _ _ (width out + count) ⟨?_, fun value srcLo location => ?_⟩
      · exact .cons rfl (Nat.lt_add_of_pos_right (Nat.pos_of_ne_zero some)) .nil
      · by_cases same : source (width out) = .constant value srcLo location
        · obtain ⟨rfl, wide⟩ := fits value srcLo location same
          refine ⟨1, fun _ => ⟨le_rfl, by rw [wide]⟩, fun slice member position above below => ?_⟩
          obtain rfl := List.mem_singleton.mp member
          rw [wide, if_pos ⟨above, below⟩]
          simp [same]
        · refine ⟨0, .absent fun slice member => ?_⟩
          obtain rfl := List.mem_singleton.mp member
          exact List.count_eq_zero.mpr fun among => same (List.mem_singleton.mp among).symm

/-- A value has no constants. -/
theorem addsWhole_pushLsp (out : BitSliceList) (cuts : Option CutRegistry) (count : Nat)
    (path : ValuePath) (selectors : List Selector) :
    AddsWhole out (pushLsp out cuts count path selectors) := by
  obtain ⟨added, pushed, denotes⟩ := extends_pushLsp out cuts count path selectors
  rw [pushed]
  refine .of_whole ⟨denotes.tiles, fun value srcLo location => ⟨0, .absent fun slice member => ?_⟩⟩
  obtain ⟨_, proper, _⟩ := denotes.tiles.bounds member
  have stands := denotes.sources slice member slice.concatLo le_rfl proper
  refine List.count_eq_zero.mpr fun among => ?_
  have := List.mem_map_of_mem (f := BitSliceSource.bitAt slice.concatLo) among
  rw [stands] at this
  simp [BitSliceSource.bitAt] at this

theorem addsWhole_pushPadding (out : BitSliceList) {count : Nat} (proper : 0 < count)
    (isSignExt : Bool) : AddsWhole out (pushPadding out count isSignExt) := by
  have pushed : pushPadding out count isSignExt = pushSource out count fun lo =>
      if isSignExt then .padding
      else .constant (.integer ⟨List.replicate count .zero⟩) lo none := by
    simp [pushPadding, pushSource, proper.ne']
  rw [pushed]
  refine addsWhole_pushSource out count _ fun value srcLo location same => ?_
  cases isSignExt with
  | true => simp at same
  | false =>
      simp only [Bool.false_eq_true, if_false, BitSliceSource.constant.injEq] at same
      obtain ⟨rfl, rfl, rfl⟩ := same
      exact ⟨rfl, by simp [ConstantValue.width]⟩

/-- Repeated slices have their constants at each copy. -/
theorem addsWhole_repeat {walk : BitSliceList → BitSliceList}
    (once : ∀ out, AddsWhole out (walk out)) (times : Nat) (out : BitSliceList) :
    AddsWhole out (times.repeat walk out) := by
  induction times with
  | zero => exact .refl out
  | succ times ih => exact ih.trans (once _)

/-- The constants of the arms keep their places on the common cuts. -/
theorem addsWhole_pushUnified (out : BitSliceList) (condition : Expr)
    (leftWhole : Whole left 0 finish) (rightWhole : Whole right 0 finish) :
    AddsWhole out (pushUnified out condition left right) := by
  have tiles := tiles_mergeCuts leftWhole.tiles rightWhole.tiles
  refine @AddsWhole.of_whole _ _ (width out + finish) ⟨?_, fun value srcLo location => ?_⟩
  · exact @Tiles.map _ _ _ _ _ _ _ BitSlice.concatLo BitSlice.concatHi
      (fun cut => width out + cut) _ tiles (fun low high _ below => by omega) (fun _ => rfl)
      (fun _ => rfl)
  by_cases behind : width out ≤ srcLo
  · obtain ⟨inLeft, leftCarries⟩ := leftWhole.carries value (srcLo - width out) location
    obtain ⟨inRight, rightCarries⟩ := rightWhole.carries value (srcLo - width out) location
    refine ⟨inLeft + inRight, fun some => ?_, fun slice member position above below => ?_⟩
    · rcases Nat.eq_zero_or_pos inLeft with none | carried
      · have := rightCarries.inside (by omega)
        omega
      · have := leftCarries.inside carried
        omega
    · obtain ⟨pair, pairMem, rfl⟩ := List.mem_map.mp member
      replace above : width out + pair.1 ≤ position := above
      replace below : position < width out + pair.2 := below
      obtain ⟨place, rfl⟩ := Nat.exists_eq_add_of_le (show width out ≤ position by omega)
      have within := lt_of_lt_of_le (tiles.bounds pairMem).2.1 (tiles.bounds pairMem).2.2
      obtain ⟨leftSlice, leftMem, leftSources, _, _⟩ := exists_slice leftWhole.tiles
        (sorted_mergeCuts _ _) (fun cut cutMem => mem_mergeCuts.mpr (Or.inl cutMem)) pairMem within
      obtain ⟨rightSlice, rightMem, rightSources, _, _⟩ := exists_slice rightWhole.tiles
        (sorted_mergeCuts _ _) (fun cut cutMem => mem_mergeCuts.mpr (Or.inr cutMem)) pairMem within
      have leftCount := leftCarries.count leftSlice leftMem place (by omega) (by omega)
      have rightCount := rightCarries.count rightSlice rightMem place (by omega) (by omega)
      have sameBit : (srcLo - width out ≤ place ∧ place < srcLo - width out + value.width) ↔
          srcLo ≤ width out + place ∧ width out + place < srcLo + value.width := by
        omega
      simp only [List.count_append, BitSliceSource.count_translate_of_le behind, leftSources,
        rightSources, leftCount, rightCount, sameBit]
      split <;> simp
  · refine ⟨0, .absent fun slice member => ?_⟩
    obtain ⟨pair, _, rfl⟩ := List.mem_map.mp member
    simp [List.count_append, BitSliceSource.count_translate_of_lt (Nat.not_le.mp behind)]

end Whole

/-! ## The walk -/

section Walk

variable (cuts : Option CutRegistry)

theorem addsWhole_pushOpaque (out : BitSliceList) (count : Nat) (expr : Expr) :
    AddsWhole out (pushOpaque out count expr) :=
  addsWhole_pushSource out count _ fun _ _ _ same => by simp at same

/-- A folded constant has the width of its expression. -/
theorem addsWhole_pushConstant (out : BitSliceList) {count : Nat} {folded : Option SVInt}
    {number : SVInt} (found : folded.filter (fun value => value.bits.length = count) = some number)
    (location : SourceLocation) : AddsWhole out (pushConstant out count number location) := by
  have wide : number.bits.length = count := by
    have := Option.filter_eq_some_iff.mp found
    simpa using this.2
  refine addsWhole_pushSource out count _ fun value srcLo location same => ?_
  simp only [BitSliceSource.constant.injEq] at same
  obtain ⟨rfl, rfl, rfl⟩ := same
  exact ⟨rfl, wide⟩

mutual

/-- `buildInto` appends slices that have their constants whole. -/
theorem addsWhole_buildInto : ∀ (expr : SliceExpr) (out : BitSliceList),
    AddsWhole out (buildInto cuts out expr)
  | .value width path selectors, out => addsWhole_pushLsp out cuts width path selectors
  | .concatenation operands, out => addsWhole_buildOperands operands out
  | .replication width count concat expr, out => by
      cases count with
      | none => exact addsWhole_pushOpaque out width expr
      | some count => exact addsWhole_repeat (addsWhole_buildInto concat) count.toNat out
  | .conversion width folded isSignExt operand expr location, out => by
      have inner := addsWhole_buildInto operand out
      simp only [buildInto]
      cases found : folded.filter fun value => value.bits.length = width with
      | some number => exact addsWhole_pushConstant out found location
      | none =>
          dsimp only
          by_cases equal : width = operand.width
          · simpa only [if_pos equal] using inner
          · by_cases wider : width > operand.width
            · simp only [if_neg equal, if_pos wider]
              exact inner.trans (addsWhole_pushPadding _ (Nat.sub_pos_of_lt wider) isSignExt)
            · simp only [if_neg equal, if_neg wider]
              exact addsWhole_pushOpaque out width expr
  | .conditionalOp width plain condition left right expr, out => by
      have leftWhole := (addsWhole_buildInto left []).whole
      have rightWhole := (addsWhole_buildInto right []).whole
      simp only [buildInto]
      by_cases splits : left.width ≠ right.width ∨ left.width ≠ width ∨ ¬ plain
      · rw [if_pos splits]
        exact addsWhole_pushOpaque out width expr
      · rw [if_neg splits]
        by_cases agree : BitSliceList.width (buildInto cuts [] left) =
            BitSliceList.width (buildInto cuts [] right)
        · rw [if_neg (not_not.mpr agree)]
          rw [agree] at leftWhole
          exact addsWhole_pushUnified out condition leftWhole rightWhole
        · rw [if_pos agree]
          exact addsWhole_pushOpaque out width expr
  | .other width folded expr location, out => by
      simp only [buildInto]
      cases found : folded.filter fun value => value.bits.length = width with
      | some number => exact addsWhole_pushConstant out found location
      | none => exact addsWhole_pushOpaque out width expr

theorem addsWhole_buildOperands : ∀ (operands : List SliceExpr) (out : BitSliceList),
    AddsWhole out (buildOperands cuts out operands)
  | [], out => .refl out
  | operand :: rest, out => (addsWhole_buildOperands rest out).trans (addsWhole_buildInto operand _)

end

/-- The slices of an expression have their constants whole. -/
theorem whole_build (expr : SliceExpr) (enabled : Bool) :
    Whole (build expr enabled cuts) 0 (width (build expr enabled cuts)) := by
  unfold build
  split
  · exact (addsWhole_buildInto cuts expr []).whole
  · exact (addsWhole_pushOpaque [] expr.width expr.visited).whole

end Walk

/-! ## Segments -/

/-- The segments of a list that carry a source of the right side. -/
def carrying (segments : List Segment) (source : BitSliceSource) : List Segment :=
  segments.filter fun segment => source ∈ segment.rhsSources

/-- The bits of a number that a segment takes when the first one is at `srcLo`. -/
def bitsTaken (number : SVInt) (srcLo : Nat) (segment : Segment) : List LogicBit :=
  (number.bits.drop (segment.concatLo - srcLo)).take segment.width

section Segments

variable {list other : BitSliceList} {finish srcLo times : Nat} {value : ConstantValue}
  {location : Option SourceLocation}

theorem tiles_alignSegments (otherTiles : Tiles BitSlice.concatLo BitSlice.concatHi 0 other finish)
    (tiles : Tiles BitSlice.concatLo BitSlice.concatHi 0 list finish) :
    Tiles Segment.concatLo Segment.concatHi 0 (alignSegments other list) finish :=
  @Tiles.map _ _ _ _ _ _ _ Segment.concatLo Segment.concatHi id _
    (tiles_mergeCuts otherTiles tiles) (fun _ _ _ below => below) (fun _ => rfl) (fun _ => rfl)

/-- A segment has a constant as often as the slice that it lies in. -/
theorem CarriesAt.segment (otherTiles : Tiles BitSlice.concatLo BitSlice.concatHi 0 other finish)
    (tiles : Tiles BitSlice.concatLo BitSlice.concatHi 0 list finish)
    (carries : CarriesAt list 0 finish value srcLo location times) {segment : Segment}
    (member : segment ∈ alignSegments other list) {position : Nat}
    (above : segment.concatLo ≤ position) (below : position < segment.concatHi) :
    segment.rhsSources.count (.constant value srcLo location) =
      if srcLo ≤ position ∧ position < srcLo + value.width then times else 0 := by
  have bounds := (tiles_alignSegments otherTiles tiles).bounds member
  obtain ⟨pair, pairMem, rfl⟩ := List.mem_map.mp member
  obtain ⟨slice, sliceMem, sources, fromLow, toHigh⟩ := exists_slice tiles (sorted_mergeCuts _ _)
    (fun cut cutMem => mem_mergeCuts.mpr (Or.inr cutMem)) pairMem
    (lt_of_lt_of_le bounds.2.1 bounds.2.2)
  rw [← carries.count slice sliceMem position (by simp only at above; omega)
    (by simp only at below; omega)]
  simp only [sources]

/-- A slice of a constant takes the bits of its segment. -/
theorem createConstantForSegment_eq (dfa : DataFlowAnalysis) {number : SVInt} {segment : Segment}
    (location : Option SourceLocation) (fallbackLoc : SourceLocation)
    (proper : segment.concatLo < segment.concatHi) (above : srcLo ≤ segment.concatLo)
    (below : segment.concatHi ≤ srcLo + number.bits.length) :
    dfa.createConstantForSegment (.integer number) srcLo location segment fallbackLoc =
      dfa.createNode .constant (location.getD fallbackLoc)
        (some (.integer ⟨bitsTaken number srcLo segment⟩, segment.width)) := by
  have wide : segment.width = segment.concatHi - segment.concatLo := rfl
  unfold DataFlowAnalysis.createConstantForSegment bitsTaken
  by_cases whole : number.bits.length = segment.width
  · have atStart : segment.concatLo - srcLo = 0 := by omega
    simp only [whole, ne_eq, not_true_eq_false, if_false, atStart, List.drop_zero]
    rw [List.take_of_length_le whole.le]
  · have count : segment.concatLo - srcLo + segment.width - 1 + 1 - (segment.concatLo - srcLo) =
        segment.width := by
      omega
    simp only [ne_eq, whole, not_false_eq_true, if_true, SVInt.slice, count]

end Segments

/--
A constant source of a decomposition is an integer.  In the alignment with any
list of the same width, the segments that carry it tile its range and carry it
equally often.  The slices taken for them lie in the value and are, in order,
all its bits.
-/
theorem constants_cut_exactly (cuts : Option CutRegistry) (expr : SliceExpr) (enabled : Bool)
    (other : BitSliceList)
    (aligned : Tiles BitSlice.concatLo BitSlice.concatHi 0 other (width (build expr enabled cuts)))
    {value : ConstantValue} {srcLo : Nat} {location : Option SourceLocation}
    (produced : ∃ slice ∈ build expr enabled cuts,
      .constant value srcLo location ∈ slice.sources) :
    ∃ number, value = .integer number ∧
      Tiles Segment.concatLo Segment.concatHi srcLo
        (carrying (alignSegments other (build expr enabled cuts)) (.constant value srcLo location))
        (srcLo + number.bits.length) ∧
      (∃ times, ∀ segment ∈ carrying (alignSegments other (build expr enabled cuts))
          (.constant value srcLo location),
        segment.rhsSources.count (.constant value srcLo location) = times) ∧
      (∀ segment ∈ carrying (alignSegments other (build expr enabled cuts))
          (.constant value srcLo location),
        srcLo ≤ segment.concatLo ∧ segment.concatHi - srcLo ≤ number.bits.length ∧
        ∀ (dfa : DataFlowAnalysis) (fallbackLoc : SourceLocation),
          dfa.createConstantForSegment value srcLo location segment fallbackLoc =
            dfa.createNode .constant (location.getD fallbackLoc)
              (some (.integer ⟨bitsTaken number srcLo segment⟩, segment.width))) ∧
      ((carrying (alignSegments other (build expr enabled cuts))
          (.constant value srcLo location)).map (bitsTaken number srcLo)).flatten =
        number.bits := by
  obtain ⟨tiles, carries⟩ := whole_build cuts expr enabled
  obtain ⟨times, carried⟩ := carries value srcLo location
  obtain ⟨slice, sliceMem, sourceMem⟩ := produced
  -- the source has a bit, so that it is carried and is a number
  have atSlice := carried.count slice sliceMem slice.concatLo le_rfl (tiles.bounds sliceMem).2.1
  have some := List.count_pos_iff.mpr sourceMem
  rw [atSlice] at some
  have bit : srcLo ≤ slice.concatLo ∧ slice.concatLo < srcLo + value.width := by
    by_contra outside
    rw [if_neg outside] at some
    exact lt_irrefl 0 some
  rw [if_pos bit] at some
  obtain ⟨_, inside⟩ := carried.inside some
  cases value with
  | bad => exact absurd bit.2 (by simp [ConstantValue.width]; omega)
  | other text => exact absurd bit.2 (by simp [ConstantValue.width]; omega)
  | integer number =>
      have keeps : ∀ segment ∈ alignSegments other (build expr enabled cuts), ∀ position,
          segment.concatLo ≤ position → position < segment.concatHi →
          (decide (BitSliceSource.constant (.integer number) srcLo location ∈ segment.rhsSources) =
            true ↔ srcLo ≤ position ∧ position < srcLo + number.bits.length) := by
        intro segment member position above below
        rw [decide_eq_true_iff, ← List.count_pos_iff,
          carried.segment aligned tiles member above below]
        split
        · next holds => exact ⟨fun _ => holds, fun _ => some⟩
        · next outside =>
            exact ⟨fun none => absurd none (lt_irrefl 0), fun holds => absurd holds outside⟩
      have pieces := (tiles_alignSegments aligned tiles).filter _ (Nat.zero_le srcLo)
        (Nat.le_add_right _ _) inside keeps
      refine ⟨number, rfl, pieces, ⟨times, fun segment member => ?_⟩, fun segment member => ?_, ?_⟩
      · have bounds := pieces.bounds member
        rw [carried.segment aligned tiles (List.mem_of_mem_filter member) le_rfl bounds.2.1,
          if_pos ⟨bounds.1, lt_of_lt_of_le bounds.2.1 bounds.2.2⟩]
      · obtain ⟨above, proper, below⟩ := pieces.bounds member
        exact ⟨above, Nat.sub_le_iff_le_add'.mpr below, fun dfa fallbackLoc =>
          createConstantForSegment_eq dfa location fallbackLoc proper above below⟩
      · exact pieces.flatten_parts number.bits (Nat.add_sub_cancel_left _ _).symm

/-- `{c ? 4'b0101 : x, y}` with four bits of `x` and one of `y`. -/
def nestedConstant : SliceExpr :=
  .concatenation [
    .conditionalOp 4 true .literal (.other 4 (some ⟨[.one, .zero, .one, .zero]⟩) .literal none)
      (.other 4 none .literal none) .literal,
    .other 1 none .literal none]

/-- Two slices of the same width together, cut inside the constant. -/
def cutInside : BitSliceList :=
  [{ concatLo := 0, concatHi := 3, sources := [] }, { concatLo := 3, concatHi := 5, sources := [] }]

theorem constants_cut_exactly_nested :
    Tiles Segment.concatLo Segment.concatHi 1
      (carrying (alignSegments cutInside (build nestedConstant true none))
        (.constant (.integer ⟨[.one, .zero, .one, .zero]⟩) 1 (some none))) 5 ∧
    ((carrying (alignSegments cutInside (build nestedConstant true none))
      (.constant (.integer ⟨[.one, .zero, .one, .zero]⟩) 1 (some none))).map
        (bitsTaken ⟨[.one, .zero, .one, .zero]⟩ 1)).flatten = [.one, .zero, .one, .zero] := by
  have aligned : Tiles BitSlice.concatLo BitSlice.concatHi 0 cutInside
      (width (build nestedConstant true none)) := by
    rw [show width (build nestedConstant true none) = 5 by decide +kernel]
    exact .cons rfl (by decide) (.cons rfl (by decide) .nil)
  obtain ⟨number, same, tiles, _, _, all⟩ := constants_cut_exactly none nestedConstant true
    cutInside aligned (show ∃ slice ∈ build nestedConstant true none,
      BitSliceSource.constant (.integer ⟨[.one, .zero, .one, .zero]⟩) 1 (some none) ∈
        slice.sources by decide +kernel)
  cases same
  exact ⟨tiles, all⟩

end BitSliceList

end SlangNetlist
