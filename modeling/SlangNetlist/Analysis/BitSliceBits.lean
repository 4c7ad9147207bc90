import Mathlib.Data.List.TakeWhile
import SlangNetlist.Analysis.BitSliceList
import SlangNetlist.Library.Tiles

/-!
# The bits of a decomposition

What each bit of an expression is made of, and that the slices of `build` say
the same: the slices tile the range of the expression, and the sources of a
slice stand, at each position of the slice, for the bits of the expression there.
-/

namespace SlangNetlist

open Library

/-- What a bit of an expression comes from. -/
inductive BitSource where
  /-- A bit of the root symbol of a path. -/
  | leaf (path : ValuePath) (selectors : List Selector) (bit : Int)
  | opaqueExpr (expr : Expr)
  | padding
  | constant (value : ConstantValue) (bit : Nat)
  | port (node : NodeRef)
  deriving DecidableEq, Repr

namespace SliceExpr

/-- The constant that an expression folds to, of the width of the expression. -/
def foldedAt (width : Nat) (folded : Option SVInt) : Option SVInt :=
  folded.filter fun value => value.bits.length = width

/-- The conditional is taken apart into its arms. -/
def Splits (width : Nat) (plain : Bool) (left right : SliceExpr) : Prop :=
  left.width = right.width ∧ left.width = width ∧ plain = true

instance (width : Nat) (plain : Bool) (left right : SliceExpr) :
    Decidable (Splits width plain left right) :=
  inferInstanceAs (Decidable (_ ∧ _ ∧ _))

mutual

/--
The sources of a bit of an expression, least significant bit first; `measure`
says how many bits an operand takes.
-/
def bitSources (measure : SliceExpr → Nat) : SliceExpr → Nat → List BitSource
  | .value _ path selectors, bit => [.leaf path selectors (path.lspBounds.lower + bit)]
  | .concatenation operands, bit => operandsBits measure operands bit
  | .replication _ count concat expr, bit =>
      match count with
      | none => [.opaqueExpr expr]
      | some _ => bitSources measure concat (bit % measure concat)
  | .conversion width folded isSignExt operand expr _, bit =>
      match foldedAt width folded with
      | some number => [.constant (.integer number) bit]
      | none =>
          if width = operand.width then bitSources measure operand bit
          else if width > operand.width then
            if bit < measure operand then bitSources measure operand bit
            else if isSignExt then [.padding]
            else [.constant (.integer ⟨List.replicate (width - operand.width) .zero⟩)
              (bit - measure operand)]
          else [.opaqueExpr expr]
  | .conditionalOp width plain condition left right expr, bit =>
      if Splits width plain left right ∧ measure left = measure right then
        bitSources measure left bit ++ bitSources measure right bit ++ [.opaqueExpr condition]
      else [.opaqueExpr expr]
  | .other width folded expr _, bit =>
      match foldedAt width folded with
      | some number => [.constant (.integer number) bit]
      | none => [.opaqueExpr expr]

/-- The last operand of a concatenation has the least significant bits. -/
def operandsBits (measure : SliceExpr → Nat) : List SliceExpr → Nat → List BitSource
  | [], _ => []
  | operand :: rest, bit =>
      if bit < operandsMeasure measure rest then operandsBits measure rest bit
      else bitSources measure operand (bit - operandsMeasure measure rest)

/-- The bits of the operands together. -/
def operandsMeasure (measure : SliceExpr → Nat) : List SliceExpr → Nat
  | [] => 0
  | operand :: rest => operandsMeasure measure rest + measure operand

end

mutual

/-- The bits of the slices of an expression. -/
def sliceWidth (cuts : Option CutRegistry) : SliceExpr → Nat
  | .value width path _ =>
      if width = 0 then 0
      else if BitSliceList.innerCuts cuts path = [] then width
      else path.lspBounds.upper.toNat + 1 - path.lspBounds.lower.toNat
  | .concatenation operands => operandsSliceWidth cuts operands
  | .replication width count concat _ =>
      match count with
      | none => width
      | some count => count.toNat * sliceWidth cuts concat
  | .conversion width folded _ operand _ _ =>
      match foldedAt width folded with
      | some _ => width
      | none =>
          if width = operand.width then sliceWidth cuts operand
          else if width > operand.width then sliceWidth cuts operand + (width - operand.width)
          else width
  | .conditionalOp width plain _ left right _ =>
      if Splits width plain left right ∧ sliceWidth cuts left = sliceWidth cuts right then
        sliceWidth cuts left
      else width
  | .other width _ _ _ => width

def operandsSliceWidth (cuts : Option CutRegistry) : List SliceExpr → Nat
  | [] => 0
  | operand :: rest => operandsSliceWidth cuts rest + sliceWidth cuts operand

end

end SliceExpr

namespace BitSliceSource

/-- What a source stands for at a position of its list. -/
def bitAt (position : Nat) : BitSliceSource → BitSource
  | .lsp path selectors srcLo =>
      .leaf path selectors (path.lspBounds.lower + (position - srcLo : Nat))
  | .padding => .padding
  | .opaqueExpr expr => .opaqueExpr expr
  | .portNode node => .port node
  | .constant value srcLo _ => .constant value (position - srcLo)

/-- Where a source begins, for the sources that have a place. -/
def srcLo : BitSliceSource → Nat
  | .lsp _ _ srcLo => srcLo
  | .constant _ srcLo _ => srcLo
  | _ => 0

@[simp] theorem bitAt_translate (baseOffset position : Nat) (source : BitSliceSource) :
    (source.translate baseOffset).bitAt (baseOffset + position) = source.bitAt position := by
  have moved : ∀ lo : Nat, baseOffset + position - (lo + baseOffset) = position - lo := by
    intro lo
    omega
  cases source <;> simp [translate, bitAt, moved]

theorem srcLo_translate_le (baseOffset : Nat) (source : BitSliceSource) :
    (source.translate baseOffset).srcLo ≤ baseOffset + source.srcLo := by
  cases source <;> simp [translate, srcLo, Nat.add_comm]

end BitSliceSource

theorem CutRegistry.sorted_cutsFor (registry : CutRegistry) (symbol : ValueSymbol) :
    ((registry.cutsFor symbol).getD []).Pairwise (· < ·) := by
  unfold cutsFor
  cases found : registry.entries.find? fun entry => entry.1 = symbol.id with
  | none => exact List.Pairwise.nil
  | some entry => exact registry.sorted entry (List.mem_of_find?_eq_some found)

namespace BitSliceList

/-- The slices tile a range, and their sources stand for the given bits. -/
structure Denotes (list : BitSliceList) (lo hi : Nat) (bits : Nat → List BitSource) : Prop where
  tiles : Tiles BitSlice.concatLo BitSlice.concatHi lo list hi
  sources : ∀ slice ∈ list, ∀ position, slice.concatLo ≤ position → position < slice.concatHi →
    slice.sources.map (BitSliceSource.bitAt position) = bits (position - lo)
  /-- A source begins no later than the slices that have it. -/
  starts : ∀ slice ∈ list, ∀ source ∈ slice.sources, source.srcLo ≤ slice.concatLo

section Denotes

variable {out list others : BitSliceList} {lo middle hi : Nat} {bits first second : Nat → List BitSource}

theorem denotes_nil (lo : Nat) (bits : Nat → List BitSource) : Denotes [] lo lo bits :=
  ⟨.nil, by simp, by simp⟩

theorem Denotes.congr (denotes : Denotes list lo hi first)
    (same : ∀ bit, bit < hi - lo → first bit = second bit) : Denotes list lo hi second where
  tiles := denotes.tiles
  sources slice member position above below := by
    have := denotes.tiles.bounds member
    rw [denotes.sources slice member position above below, same _ (by omega)]
  starts := denotes.starts

theorem Denotes.append (front : Denotes list lo middle first)
    (back : Denotes others middle hi second) :
    Denotes (list ++ others) lo hi
      fun bit => if bit < middle - lo then first bit else second (bit - (middle - lo)) where
  tiles := front.tiles.append back.tiles
  sources slice member position above below := by
    have start := front.tiles.le
    rcases List.mem_append.mp member with inFront | inBack
    · have := front.tiles.bounds inFront
      rw [front.sources slice inFront position above below, if_pos (by omega)]
    · have := back.tiles.bounds inBack
      rw [back.sources slice inBack position above below, if_neg (by omega)]
      congr 1
      omega
  starts slice member := by
    rcases List.mem_append.mp member with inFront | inBack
    · exact front.starts slice inFront
    · exact back.starts slice inBack

/-- The width of a list is where its last slices end. -/
theorem width_append (tiles : Tiles BitSlice.concatLo BitSlice.concatHi (width out) list hi) :
    width (out ++ list) = hi := by
  cases last : list.getLast? with
  | none =>
      obtain rfl := List.getLast?_eq_none_iff.mp last
      simpa using tiles.eq_of_nil
  | some slice =>
      rw [width, List.getLast?_append, last, Option.some_or]
      exact tiles.high_getLast last

/-- The result is the list with slices for `count` further bits. -/
def Extends (out result : BitSliceList) (count : Nat) (bits : Nat → List BitSource) : Prop :=
  ∃ added, result = out ++ added ∧ Denotes added (width out) (width out + count) bits

variable {result : BitSliceList} {count more : Nat}

theorem Extends.refl (out : BitSliceList) (bits : Nat → List BitSource) : Extends out out 0 bits :=
  ⟨[], by simp, denotes_nil _ _⟩

theorem Extends.width_eq (extends_ : Extends out result count bits) :
    width result = width out + count := by
  obtain ⟨added, rfl, denotes⟩ := extends_
  exact width_append denotes.tiles

theorem Extends.congr (extends_ : Extends out result count first)
    (same : ∀ bit, bit < count → first bit = second bit) : Extends out result count second := by
  obtain ⟨added, split, denotes⟩ := extends_
  exact ⟨added, split, denotes.congr fun bit below => same bit (by omega)⟩

theorem Extends.trans (front : Extends out list count first)
    (back : Extends list result more second) :
    Extends out result (count + more)
      fun bit => if bit < count then first bit else second (bit - count) := by
  have middle := front.width_eq
  obtain ⟨added, rfl, denotes⟩ := front
  obtain ⟨later, rfl, denotesLater⟩ := back
  rw [middle, Nat.add_assoc] at denotesLater
  refine ⟨added ++ later, List.append_assoc _ _ _, (denotes.append denotesLater).congr ?_⟩
  intro bit below
  simp only [Nat.add_sub_cancel_left]

/-- One slice with one source. -/
theorem extends_pushSource {source : Nat → BitSliceSource} {sourceBit : Nat → BitSource}
    (starts : (source (width out)).srcLo ≤ width out)
    (stands : ∀ bit, bit < count → (source (width out)).bitAt (width out + bit) = sourceBit bit) :
    Extends out (pushSource out count source) count fun bit => [sourceBit bit] := by
  unfold pushSource
  split
  · next none =>
      subst none
      exact .refl out _
  · next some =>
      refine ⟨_, rfl, .cons rfl (Nat.lt_add_of_pos_right (Nat.pos_of_ne_zero some)) .nil, ?_, ?_⟩
      · intro slice member position above below
        obtain rfl := List.mem_singleton.mp member
        replace above : width out ≤ position := above
        replace below : position < width out + count := below
        have place : position = width out + (position - width out) := by omega
        rw [← stands _ (by omega : position - width out < count), ← place]
        rfl
      · intro slice member other otherMem
        obtain rfl := List.mem_singleton.mp member
        obtain rfl := List.mem_singleton.mp otherMem
        exact starts

end Denotes

section Cuts

/-- The cuts of a value are the sorted cuts of its root symbol between its bounds. -/
theorem exists_innerCuts (cuts : Option CutRegistry) (path : ValuePath) :
    ∃ all : List Nat, all.Pairwise (· < ·) ∧ innerCuts cuts path =
      cutsBetween path.lspBounds.lower.toNat (path.lspBounds.upper.toNat + 1) all := by
  unfold innerCuts
  split
  · next registry rootSymbol _ => exact ⟨_, registry.sorted_cutsFor rootSymbol, rfl⟩
  · exact ⟨[], List.Pairwise.nil, rfl⟩

/-- The cuts of a value with its two ends. -/
theorem tiles_points {cuts : Option CutRegistry} {path : ValuePath}
    (inside : innerCuts cuts path ≠ []) :
    Tiles Prod.fst Prod.snd path.lspBounds.lower.toNat
      (neighbours (path.lspBounds.lower.toNat :: innerCuts cuts path ++
        [path.lspBounds.upper.toNat + 1])) (path.lspBounds.upper.toNat + 1) := by
  obtain ⟨all, sorted, inner⟩ := exists_innerCuts cuts path
  rw [inner] at inside ⊢
  obtain ⟨some, someMem⟩ := List.exists_mem_of_ne_nil _ inside
  obtain ⟨_, above, below⟩ := (mem_cutsBetween sorted).mp someMem
  exact tiles_cutsBetween sorted (by omega)

/-- A value, in one slice or split at its cuts. -/
theorem extends_pushLsp (out : BitSliceList) (cuts : Option CutRegistry) (count : Nat)
    (path : ValuePath) (selectors : List Selector) :
    Extends out (pushLsp out cuts count path selectors)
      (SliceExpr.sliceWidth cuts (.value count path selectors))
      fun bit => [.leaf path selectors (path.lspBounds.lower + bit)] := by
  unfold pushLsp SliceExpr.sliceWidth
  split
  · exact .refl out _
  · next some =>
      cases inner : innerCuts cuts path with
      | nil =>
          refine extends_pushSource le_rfl fun bit below => ?_
          simp [BitSliceSource.bitAt]
      | cons cut others =>
          have split : innerCuts cuts path ≠ [] := by simp [inner]
          have tiles := tiles_points split
          rw [inner] at tiles
          have proper := tiles.le
          rw [if_neg (by simp)]
          refine ⟨_, rfl, ?_, ?_, ?_⟩
          · have moved := @Tiles.map _ _ _ _ _ _ _ BitSlice.concatLo BitSlice.concatHi
              (fun point => width out + (point - path.lspBounds.lower.toNat))
              (fun pair => {
                concatLo := width out + (pair.1 - path.lspBounds.lower.toNat)
                concatHi := width out + (pair.2 - path.lspBounds.lower.toNat)
                sources := [.lsp path selectors (width out)] })
              tiles (fun low high above below => by omega) (fun _ => rfl) (fun _ => rfl)
            simp only [Nat.sub_self, Nat.add_zero] at moved
            exact moved
          · intro slice member position above below
            obtain ⟨pair, _, rfl⟩ := List.mem_map.mp member
            simp only at above
            rfl
          · intro slice member source sourceMem
            obtain ⟨pair, _, rfl⟩ := List.mem_map.mp member
            obtain rfl := List.mem_singleton.mp sourceMem
            exact Nat.le_add_right _ _

end Cuts

/-! ## Common cuts -/

section Common

variable {list left right : BitSliceList} {finish : Nat} {bits leftBits rightBits : Nat → List BitSource}

theorem mem_mergeCuts {first second : List Nat} {cut : Nat} :
    cut ∈ mergeCuts first second ↔ cut ∈ first ∨ cut ∈ second := by
  simp [mergeCuts]

theorem sorted_mergeCuts (first second : List Nat) : (mergeCuts first second).Pairwise (· < ·) :=
  CutRegistry.sorted_sortCuts (first ++ second)

/-- The cuts of a list lie in its range, both ends among them. -/
theorem collectCuts_spec (tiles : Tiles BitSlice.concatLo BitSlice.concatHi 0 list finish) :
    0 ∈ collectCuts list ∧ finish ∈ collectCuts list ∧ ∀ cut ∈ collectCuts list, cut ≤ finish := by
  refine ⟨List.mem_cons_self, ?_, ?_⟩
  · cases last : list.getLast? with
    | none =>
        obtain rfl := List.getLast?_eq_none_iff.mp last
        simp [collectCuts, tiles.eq_of_nil]
    | some slice =>
        rw [← tiles.high_getLast last]
        exact List.mem_cons_of_mem _ (List.mem_map_of_mem (List.mem_of_getLast? last))
  · intro cut member
    rcases List.mem_cons.mp member with rfl | inside
    · exact Nat.zero_le _
    · obtain ⟨slice, sliceMem, rfl⟩ := List.mem_map.mp inside
      exact (tiles.bounds sliceMem).2.2

/-- The merged cuts of two lists of one width tile their range. -/
theorem tiles_mergeCuts (leftTiles : Tiles BitSlice.concatLo BitSlice.concatHi 0 left finish)
    (rightTiles : Tiles BitSlice.concatLo BitSlice.concatHi 0 right finish) :
    Tiles Prod.fst Prod.snd 0 (neighbours (mergeCuts (collectCuts left) (collectCuts right)))
      finish := by
  obtain ⟨zeroMem, finishMem, leftBelow⟩ := collectCuts_spec leftTiles
  obtain ⟨_, _, rightBelow⟩ := collectCuts_spec rightTiles
  refine tiles_of_mem (sorted_mergeCuts _ _) (mem_mergeCuts.mpr (Or.inl zeroMem))
    (mem_mergeCuts.mpr (Or.inl finishMem)) fun cut member => ⟨Nat.zero_le _, ?_⟩
  rcases mem_mergeCuts.mp member with inLeft | inRight
  · exact leftBelow cut inLeft
  · exact rightBelow cut inRight

/-- The sources between neighbouring cuts are those of one slice, which has the whole part. -/
theorem exists_slice (tiles : Tiles BitSlice.concatLo BitSlice.concatHi 0 list finish)
    {cuts : List Nat} (sorted : cuts.Pairwise (· < ·)) (among : ∀ cut ∈ collectCuts list, cut ∈ cuts)
    {pair : Nat × Nat} (member : pair ∈ neighbours cuts) (within : pair.1 < finish) :
    ∃ slice ∈ list, sourcesAt list pair.1 = slice.sources ∧ slice.concatLo ≤ pair.1 ∧
      pair.2 ≤ slice.concatHi := by
  obtain ⟨slice, sliceMem, found, above, below⟩ := tiles.exists_find (Nat.zero_le pair.1) within
  refine ⟨slice, sliceMem, by rw [sourcesAt, findSliceContaining, found], above, ?_⟩
  have cutMem := among slice.concatHi (List.mem_cons_of_mem _ (List.mem_map_of_mem sliceMem))
  rcases not_between sorted member cutMem with before | after
  · omega
  · exact after

/-- Between neighbouring cuts the sources at the lower one stand for all bits. -/
theorem Denotes.sourcesAt_spec (denotes : Denotes list 0 finish bits) {cuts : List Nat}
    (sorted : cuts.Pairwise (· < ·)) (among : ∀ cut ∈ collectCuts list, cut ∈ cuts)
    {pair : Nat × Nat} (member : pair ∈ neighbours cuts) (within : pair.1 < finish) :
    (∀ position, pair.1 ≤ position → position < pair.2 →
      (sourcesAt list pair.1).map (BitSliceSource.bitAt position) = bits position) ∧
    ∀ source ∈ sourcesAt list pair.1, source.srcLo ≤ pair.1 := by
  obtain ⟨slice, sliceMem, sources, above, ends⟩ :=
    exists_slice denotes.tiles sorted among member within
  rw [sources]
  constructor
  · intro position fromLow toHigh
    rw [denotes.sources slice sliceMem position (by omega) (by omega), Nat.sub_zero]
  · intro source sourceMem
    have := denotes.starts slice sliceMem source sourceMem
    omega

/-- The arms of a conditional side by side, with the condition. -/
theorem extends_pushUnified (out : BitSliceList) (condition : Expr)
    (leftDenotes : Denotes left 0 finish leftBits)
    (rightDenotes : Denotes right 0 finish rightBits) :
    Extends out (pushUnified out condition left right) finish
      fun bit => leftBits bit ++ rightBits bit ++ [.opaqueExpr condition] := by
  have tiles := tiles_mergeCuts leftDenotes.tiles rightDenotes.tiles
  have spec := fun pair (member : pair ∈ neighbours (mergeCuts (collectCuts left)
      (collectCuts right))) =>
    And.intro
      (leftDenotes.sourcesAt_spec (sorted_mergeCuts _ _)
        (fun cut cutMem => mem_mergeCuts.mpr (Or.inl cutMem)) member
        (lt_of_lt_of_le (tiles.bounds member).2.1 (tiles.bounds member).2.2))
      (rightDenotes.sourcesAt_spec (sorted_mergeCuts _ _)
        (fun cut cutMem => mem_mergeCuts.mpr (Or.inr cutMem)) member
        (lt_of_lt_of_le (tiles.bounds member).2.1 (tiles.bounds member).2.2))
  refine ⟨_, rfl, ?_, ?_, ?_⟩
  · exact @Tiles.map _ _ _ _ _ _ _ BitSlice.concatLo BitSlice.concatHi (fun cut => width out + cut) _
      tiles (fun low high _ below => by omega) (fun _ => rfl) (fun _ => rfl)
  · intro slice member position above below
    obtain ⟨pair, pairMem, rfl⟩ := List.mem_map.mp member
    replace above : width out + pair.1 ≤ position := above
    replace below : position < width out + pair.2 := below
    obtain ⟨place, rfl⟩ := Nat.exists_eq_add_of_le (show width out ≤ position by omega)
    obtain ⟨⟨leftStands, _⟩, ⟨rightStands, _⟩⟩ := spec pair pairMem
    have leftAt := leftStands place (by omega) (by omega)
    have rightAt := rightStands place (by omega) (by omega)
    simp only [List.map_append, List.map_map, List.map_cons, List.map_nil, Function.comp_def,
      BitSliceSource.bitAt_translate, leftAt, rightAt, Nat.add_sub_cancel_left]
    rfl
  · intro slice member source sourceMem
    obtain ⟨pair, pairMem, rfl⟩ := List.mem_map.mp member
    obtain ⟨⟨_, leftStarts⟩, ⟨_, rightStarts⟩⟩ := spec pair pairMem
    simp only [List.mem_append, List.mem_map, List.mem_singleton] at sourceMem ⊢
    rcases sourceMem with (⟨other, otherMem, rfl⟩ | ⟨other, otherMem, rfl⟩) | rfl
    · have := leftStarts other otherMem
      have := other.srcLo_translate_le (width out)
      omega
    · have := rightStarts other otherMem
      have := other.srcLo_translate_le (width out)
      omega
    · exact Nat.zero_le _

end Common

/-! ## The walk -/

section Walk

variable (cuts : Option CutRegistry)

theorem extends_pushOpaque (out : BitSliceList) (count : Nat) (expr : Expr) :
    Extends out (pushOpaque out count expr) count fun _ => [.opaqueExpr expr] :=
  extends_pushSource (Nat.zero_le _) fun _ _ => rfl

theorem extends_pushConstant (out : BitSliceList) (count : Nat) (value : SVInt)
    (location : SourceLocation) :
    Extends out (pushConstant out count value location) count
      fun bit => [.constant (.integer value) bit] :=
  extends_pushSource le_rfl fun bit _ => by simp [BitSliceSource.bitAt]

theorem extends_pushPadding (out : BitSliceList) {count : Nat} (proper : 0 < count)
    (isSignExt : Bool) :
    Extends out (pushPadding out count isSignExt) count fun bit =>
      if isSignExt then [.padding]
      else [.constant (.integer ⟨List.replicate count .zero⟩) bit] := by
  have pushed : pushPadding out count isSignExt = pushSource out count fun lo =>
      if isSignExt then .padding
      else .constant (.integer ⟨List.replicate count .zero⟩) lo none := by
    simp [pushPadding, pushSource, proper.ne']
  rw [pushed]
  cases isSignExt with
  | true => exact extends_pushSource (Nat.zero_le _) fun _ _ => rfl
  | false => exact extends_pushSource le_rfl fun bit _ => by simp [BitSliceSource.bitAt]

/-- Repeated slices repeat the bits. -/
theorem extends_repeat {walk : BitSliceList → BitSliceList} {count : Nat}
    {bits : Nat → List BitSource} (once : ∀ out, Extends out (walk out) count bits) (times : Nat)
    (out : BitSliceList) :
    Extends out (times.repeat walk out) (times * count) fun bit => bits (bit % count) := by
  induction times with
  | zero =>
      rw [Nat.zero_mul]
      exact .refl out _
  | succ times ih =>
      rw [Nat.succ_mul]
      refine (ih.trans (once _)).congr fun bit below => ?_
      split
      · rfl
      · next behind =>
          obtain ⟨place, rfl⟩ := Nat.exists_eq_add_of_le (Nat.not_lt.mp behind)
          rw [Nat.add_sub_cancel_left, Nat.mul_add_mod_self_right, Nat.mod_eq_of_lt (by omega)]

open SliceExpr

theorem operandsMeasure_sliceWidth (operands : List SliceExpr) :
    operandsMeasure (sliceWidth cuts) operands = operandsSliceWidth cuts operands := by
  induction operands with
  | nil => rfl
  | cons operand rest ih => simp only [operandsMeasure, operandsSliceWidth, ih]

mutual

/-- The slices that `buildInto` appends are those of the bits of the expression. -/
theorem extends_buildInto : ∀ (expr : SliceExpr) (out : BitSliceList),
    Extends out (buildInto cuts out expr) (sliceWidth cuts expr)
      (bitSources (sliceWidth cuts) expr)
  | .value width path selectors, out => extends_pushLsp out cuts width path selectors
  | .concatenation operands, out => extends_buildOperands operands out
  | .replication width count concat expr, out => by
      cases count with
      | none => exact extends_pushOpaque out width expr
      | some count => exact extends_repeat (extends_buildInto concat) count.toNat out
  | .conversion width folded isSignExt operand expr location, out => by
      have inner := extends_buildInto operand out
      simp only [buildInto, sliceWidth, bitSources, foldedAt]
      cases folded.filter fun value => value.bits.length = width with
      | some number => exact extends_pushConstant out width number location
      | none =>
          dsimp only
          by_cases equal : width = operand.width
          · simpa only [if_pos equal] using inner
          · by_cases wider : width > operand.width
            · simp only [if_neg equal, if_pos wider]
              refine (inner.trans (extends_pushPadding _ (Nat.sub_pos_of_lt wider) isSignExt)).congr
                fun bit _ => ?_
              rfl
            · simp only [if_neg equal, if_neg wider]
              exact extends_pushOpaque out width expr
  | .conditionalOp width plain condition left right expr, out => by
      have leftBuilt := extends_buildInto left []
      have rightBuilt := extends_buildInto right []
      have leftWidth := leftBuilt.width_eq
      have rightWidth := rightBuilt.width_eq
      obtain ⟨_, leftSame, leftDenotes⟩ := leftBuilt
      obtain ⟨_, rightSame, rightDenotes⟩ := rightBuilt
      rw [List.nil_append] at leftSame rightSame
      subst leftSame rightSame
      have empty : BitSliceList.width [] = 0 := rfl
      simp only [empty, Nat.zero_add] at leftWidth rightWidth leftDenotes rightDenotes
      simp only [buildInto, sliceWidth, bitSources, leftWidth, rightWidth]
      by_cases splits : Splits width plain left right
      · rw [if_neg (by
          rintro (differ | differ | differ)
          · exact differ splits.1
          · exact differ splits.2.1
          · exact differ splits.2.2)]
        by_cases agree : sliceWidth cuts left = sliceWidth cuts right
        · rw [← agree] at rightDenotes
          simp only [ne_eq, agree, not_true_eq_false, if_false, splits, and_self, if_true]
          rw [agree] at leftDenotes rightDenotes
          exact extends_pushUnified out condition leftDenotes rightDenotes
        · simp only [ne_eq, agree, not_false_eq_true, if_true, and_false, if_false]
          exact extends_pushOpaque out width expr
      · rw [if_pos (by
          by_contra other
          simp only [not_or, Decidable.not_not] at other
          exact splits ⟨other.1, other.2.1, other.2.2⟩)]
        simp only [splits, false_and, if_false]
        exact extends_pushOpaque out width expr
  | .other width folded expr location, out => by
      simp only [buildInto, sliceWidth, bitSources, foldedAt]
      cases folded.filter fun value => value.bits.length = width with
      | some number => exact extends_pushConstant out width number location
      | none => exact extends_pushOpaque out width expr

theorem extends_buildOperands : ∀ (operands : List SliceExpr) (out : BitSliceList),
    Extends out (buildOperands cuts out operands) (operandsSliceWidth cuts operands)
      (operandsBits (sliceWidth cuts) operands)
  | [], out => .refl out _
  | operand :: rest, out => by
      refine ((extends_buildOperands rest out).trans (extends_buildInto operand _)).congr ?_
      intro bit below
      rw [operandsBits, operandsMeasure_sliceWidth]

end

/-- The slices of an expression tile their own width. -/
theorem denotes_build (expr : SliceExpr) :
    Denotes (build expr true cuts) 0 (sliceWidth cuts expr) (bitSources (sliceWidth cuts) expr) := by
  obtain ⟨added, built, denotes⟩ := extends_buildInto cuts expr []
  have empty : width ([] : BitSliceList) = 0 := rfl
  rw [List.nil_append] at built
  rw [empty, Nat.zero_add, ← built] at denotes
  exact denotes

theorem width_build (expr : SliceExpr) : width (build expr true cuts) = sliceWidth cuts expr := by
  have extended := (extends_buildInto cuts expr []).width_eq
  have empty : width ([] : BitSliceList) = 0 := rfl
  rwa [empty, Nat.zero_add] at extended

end Walk

end BitSliceList

end SlangNetlist
