import Mathlib.Algebra.Group.Nat.Defs
import SlangNetlist.Analysis.BitSliceBits

/-!
# Constant sources

The values of integral expressions, and when the constants among the sources of
the slices are bits of these values.  A conversion to a wider type extends by
the sign of one type only, and the slices look at both.
-/

namespace SlangNetlist

namespace LogicBit

/-- A bit in a two-state type. -/
def toTwoState : LogicBit → LogicBit
  | .one => .one
  | _ => .zero

@[simp] theorem toTwoState_toTwoState (bit : LogicBit) :
    bit.toTwoState.toTwoState = bit.toTwoState := by
  cases bit <;> rfl

/-- A bit of a conditional whose condition is unknown. -/
def merge : LogicBit → LogicBit → LogicBit
  | .zero, .zero => .zero
  | .one, .one => .one
  | _, _ => .x

end LogicBit

inductive ConversionKind where
  | implicit
  | propagated
  | streamingConcat
  | explicit
  | bitstreamCast
  deriving DecidableEq, Repr

structure IntegralType where
  width : Nat
  isSigned : Bool
  isFourState : Bool := true
  deriving DecidableEq, Repr

/-- A bit that is converted to a type. -/
def IntegralType.convert (type : IntegralType) (bit : LogicBit) : LogicBit :=
  if type.isFourState then bit else bit.toTwoState

/-- An expression of integral types, with its conversions. -/
inductive IntegralExpr where
  | value (type : IntegralType) (path : ValuePath) (selectors : List Selector)
  | constant (isSigned : Bool) (number : SVInt) (location : SourceLocation)
  | concatenation (operands : List IntegralExpr)
  | replication (count : Nat) (concat : IntegralExpr)
  | conversion (kind : ConversionKind) (type : IntegralType) (operand : IntegralExpr)
      (location : SourceLocation)
  /-- `plain`: there is one condition, without a pattern. -/
  | conditionalOp (type : IntegralType) (plain : Bool) (condition : Expr)
      (left right : IntegralExpr)

/-- The values of the leaves: the bits of the selects, and which conditions are known. -/
structure Valuation where
  bit : ValuePath → List Selector → Nat → LogicBit
  condition : Expr → Option Bool

/-- The arms that a source comes from, by their conditions. -/
abbrev Arms := List (Expr × Bool)

/-- All arms are selected. -/
def Valuation.Selects (valuation : Valuation) (arms : Arms) : Prop :=
  ∀ arm ∈ arms, valuation.condition arm.1 = some arm.2

namespace IntegralExpr

mutual

def width : IntegralExpr → Nat
  | .value type _ _ => type.width
  | .constant _ number _ => number.bits.length
  | .concatenation operands => operandsWidth operands
  | .replication count concat => count * concat.width
  | .conversion _ type _ _ => type.width
  | .conditionalOp type _ _ _ _ => type.width

def operandsWidth : List IntegralExpr → Nat
  | [] => 0
  | operand :: rest => operandsWidth rest + operand.width

end

/-- Concatenations and replications are unsigned. -/
def isSigned : IntegralExpr → Bool
  | .value type _ _ => type.isSigned
  | .constant isSigned _ _ => isSigned
  | .concatenation _ | .replication _ _ => false
  | .conversion _ type _ _ => type.isSigned
  | .conditionalOp type _ _ _ _ => type.isSigned

/-- A conversion that is propagated from its context extends by the sign of its own type. -/
def extendsSign (kind : ConversionKind) (type : IntegralType) (operand : IntegralExpr) : Bool :=
  if kind = .propagated then type.isSigned else operand.isSigned

mutual

/-- The bits of the value, least significant bit first. -/
def bitValue (valuation : Valuation) : IntegralExpr → Nat → LogicBit
  | .value _ path selectors, bit => valuation.bit path selectors bit
  | .constant _ number _, bit => number.bits.getD bit .x
  | .concatenation operands, bit => operandsValue valuation operands bit
  | .replication _ concat, bit => bitValue valuation concat (bit % concat.width)
  | .conversion kind type operand _, bit =>
      type.convert <|
        if bit < operand.width then bitValue valuation operand bit
        else if extendsSign kind type operand then bitValue valuation operand (operand.width - 1)
        else .zero
  | .conditionalOp _ _ condition left right, bit =>
      match valuation.condition condition with
      | some true => bitValue valuation left bit
      | some false => bitValue valuation right bit
      | none => (bitValue valuation left bit).merge (bitValue valuation right bit)

def operandsValue (valuation : Valuation) : List IntegralExpr → Nat → LogicBit
  | [], _ => .x
  | operand :: rest, bit =>
      if bit < operandsWidth rest then operandsValue valuation rest bit
      else bitValue valuation operand (bit - operandsWidth rest)

end

mutual

/-- The expression as its visit sees it. -/
def visited : IntegralExpr → Expr
  | .value _ path selectors =>
      .value (selectors.foldr (fun selector rest => .operator selector.expr rest) .literal) path
  | .constant _ _ _ => .literal
  | .concatenation operands => operandsVisited operands
  | .replication _ concat => concat.visited
  | .conversion _ _ operand _ => operand.visited
  | .conditionalOp _ _ condition left right =>
      .operator condition (.operator left.visited right.visited)

def operandsVisited : List IntegralExpr → Expr
  | [] => .literal
  | operand :: rest => .operator operand.visited (operandsVisited rest)

end

mutual

/--
What the decomposition reads of the expression; `eval` gives the integers that
expressions evaluate to without their signals.
-/
def toSlice (eval : IntegralExpr → Option SVInt) : IntegralExpr → SliceExpr
  | .value type path selectors => .value type.width path selectors
  | .constant _ number location => .other number.bits.length (some number) .literal location
  | .concatenation operands => .concatenation (operandsToSlice eval operands)
  | .replication count concat =>
      .replication (count * concat.width) (if count < 2 ^ 63 then some count else none)
        (toSlice eval concat) concat.visited
  | .conversion kind type operand location =>
      .conversion type.width (eval (.conversion kind type operand location))
        (operand.isSigned && type.isSigned) (toSlice eval operand) operand.visited location
  | .conditionalOp type plain condition left right =>
      .conditionalOp type.width plain condition (toSlice eval left) (toSlice eval right)
        (.operator condition (.operator left.visited right.visited))

def operandsToSlice (eval : IntegralExpr → Option SVInt) : List IntegralExpr → List SliceExpr
  | [] => []
  | operand :: rest => toSlice eval operand :: operandsToSlice eval rest

end

end IntegralExpr

namespace SliceExpr

variable (measure : SliceExpr → Nat)

mutual

/-- The sources of a bit, each with the arms of conditionals that it comes from. -/
def armSources : SliceExpr → Nat → List (Arms × BitSource)
  | .value _ path selectors, bit => [([], .leaf path selectors (path.lspBounds.lower + bit))]
  | .concatenation operands, bit => operandsArmSources operands bit
  | .replication _ count concat expr, bit =>
      match count with
      | none => [([], .opaqueExpr expr)]
      | some _ => armSources concat (bit % measure concat)
  | .conversion width folded isSignExt operand expr _, bit =>
      match foldedAt width folded with
      | some number => [([], .constant (.integer number) bit)]
      | none =>
          if width = operand.width then armSources operand bit
          else if width > operand.width then
            if bit < measure operand then armSources operand bit
            else if isSignExt then [([], .padding)]
            else [([], .constant (.integer ⟨List.replicate (width - operand.width) .zero⟩)
              (bit - measure operand))]
          else [([], .opaqueExpr expr)]
  | .conditionalOp width plain condition left right expr, bit =>
      if Splits width plain left right ∧ measure left = measure right then
        (armSources left bit).map (Prod.map ((condition, true) :: ·) id) ++
          (armSources right bit).map (Prod.map ((condition, false) :: ·) id) ++
          [([], .opaqueExpr condition)]
      else [([], .opaqueExpr expr)]
  | .other width folded expr _, bit =>
      match foldedAt width folded with
      | some number => [([], .constant (.integer number) bit)]
      | none => [([], .opaqueExpr expr)]

def operandsArmSources : List SliceExpr → Nat → List (Arms × BitSource)
  | [], _ => []
  | operand :: rest, bit =>
      if bit < operandsMeasure measure rest then operandsArmSources rest bit
      else armSources operand (bit - operandsMeasure measure rest)

end

mutual

/-- Without the arms, these are the sources of the bit. -/
theorem map_armSources : ∀ (expr : SliceExpr) (bit : Nat),
    (armSources measure expr bit).map Prod.snd = bitSources measure expr bit
  | .value _ _ _, _ => rfl
  | .concatenation operands, bit => map_operandsArmSources operands bit
  | .replication _ count concat _, bit => by
      cases count with
      | none => rfl
      | some count => exact map_armSources concat (bit % measure concat)
  | .conversion width folded isSignExt operand expr location, bit => by
      have inner := map_armSources operand bit
      simp only [armSources, bitSources]
      cases foldedAt width folded with
      | some number => rfl
      | none =>
          dsimp only
          split_ifs
          all_goals first | exact inner | rfl
  | .conditionalOp width plain condition left right expr, bit => by
      have leftSame := map_armSources left bit
      have rightSame := map_armSources right bit
      simp only [armSources, bitSources]
      split_ifs
      · simp only [List.map_append, List.map_map, List.map_cons, List.map_nil, ← leftSame,
          ← rightSame]
        rfl
      · rfl
  | .other width folded expr location, bit => by
      simp only [armSources, bitSources]
      cases foldedAt width folded <;> rfl

theorem map_operandsArmSources : ∀ (operands : List SliceExpr) (bit : Nat),
    (operandsArmSources measure operands bit).map Prod.snd = operandsBits measure operands bit
  | [], _ => rfl
  | operand :: rest, bit => by
      simp only [operandsArmSources, operandsBits]
      split
      · exact map_operandsArmSources rest bit
      · exact map_armSources operand _

end

end SliceExpr

theorem BitSliceSource.bitAt_eq_constant (source : BitSliceSource) {position offset : Nat}
    {value : ConstantValue} (stands : source.bitAt position = .constant value offset) :
    ∃ srcLo location, source = .constant value srcLo location ∧ offset = position - srcLo := by
  cases source with
  | constant own srcLo location =>
      cases stands
      exact ⟨srcLo, location, rfl, rfl⟩
  | lsp | padding | opaqueExpr | portNode => cases stands

namespace IntegralExpr

open SliceExpr BitSliceList

/-- What an expression evaluates to is its value under all valuations. -/
def EvalSound (possible : Valuation → Prop) (eval : IntegralExpr → Option SVInt) : Prop :=
  ∀ expr number, eval expr = some number → ∀ valuation, possible valuation →
    ∀ bit < expr.width, number.bits[bit]? = some (expr.bitValue valuation bit)

/--
Each constant among the sources of a slice has, at the bits of the slice, the
value of the expression, in all possible valuations that select its arms.
-/
def ConstantsTruthful (possible : Valuation → Prop) (eval : IntegralExpr → Option SVInt)
    (cuts : Option CutRegistry) (expr : IntegralExpr) : Prop :=
  ∀ slice ∈ build (expr.toSlice eval) true cuts, ∀ position, slice.concatLo ≤ position →
    position < slice.concatHi → ∀ (index : Nat) (number : SVInt) (srcLo : Nat)
      (location : Option SourceLocation),
    slice.sources[index]? = some (BitSliceSource.constant (.integer number) srcLo location) →
    ∀ arms source,
      (armSources (sliceWidth cuts) (expr.toSlice eval) position)[index]? = some (arms, source) →
    ∀ valuation, possible valuation → valuation.Selects arms →
      position < expr.width ∧
        number.bits[position - srcLo]? = some (expr.bitValue valuation position)

/-- Where an operand stands in the whole expression. -/
structure Place where
  arms : Arms := []
  /-- A conversion to a two-state type is around the operand. -/
  twoState : Bool := false
  /-- The first position of the slices of the operand. -/
  slot : Nat := 0
  /-- The first bit of the operand in the value of the whole expression. -/
  home : Nat := 0

namespace Place

/-- What a bit of the operand is in the whole expression. -/
def convert (place : Place) (bit : LogicBit) : LogicBit :=
  if place.twoState then bit.toTwoState else bit

def move (place : Place) (slots bits : Nat) : Place :=
  { place with slot := place.slot + slots, home := place.home + bits }

def into (place : Place) (type : IntegralType) : Place :=
  { place with twoState := place.twoState || !type.isFourState }

def arm (place : Place) (condition : Expr) (taken : Bool) : Place :=
  { place with arms := place.arms ++ [(condition, taken)] }

@[simp] theorem convert_into (place : Place) (type : IntegralType) (bit : LogicBit) :
    (place.into type).convert bit = place.convert (type.convert bit) := by
  unfold into convert IntegralType.convert
  cases place.twoState <;> cases type.isFourState <;> simp

/--
A constant bit of the operand at this place, whose own value is given, is in
order: at home, the value is the constant and the conversions around it leave it
alone; where a split select has moved it away from home, the whole expression
has the constant at the other place, too.
-/
def Keeps (possible : Valuation → Prop) (whole : IntegralExpr) (place : Place) (bit : Nat)
    (digit : LogicBit) (own : Valuation → LogicBit) : Prop :=
  ∀ valuation, possible valuation → valuation.Selects place.arms →
    if place.slot = place.home then digit = place.convert (own valuation)
    else place.slot + bit < whole.width ∧
      digit = whole.bitValue valuation (place.slot + bit)

end Place

section Hold

variable (possible : Valuation → Prop) (eval : IntegralExpr → Option SVInt)
  (cuts : Option CutRegistry) (whole : IntegralExpr)

mutual

/--
The constants of an operand are in order: those that it has or folds to, and the
zeros of the conversions that are not from a signed to a signed type, against
the bit that the conversion extends by.
-/
def ConstantsHold : IntegralExpr → Place → Prop
  | .value _ _ _, _ => True
  | .constant _ number _, place => ∀ bit < number.bits.length,
      place.Keeps possible whole bit (number.bits.getD bit .x) fun _ => number.bits.getD bit .x
  | .concatenation operands, place => OperandsHold operands place
  | .replication count concat, place => count < 2 ^ 63 → ∀ index < count,
      ConstantsHold concat
        (place.move (index * sliceWidth cuts (concat.toSlice eval)) (index * concat.width))
  | .conversion kind type operand location, place =>
      match foldedAt type.width (eval (.conversion kind type operand location)) with
      | some number => ∀ bit < type.width,
          place.Keeps possible whole bit (number.bits.getD bit .x) fun _ => number.bits.getD bit .x
      | none => operand.width ≤ type.width →
          ConstantsHold operand (place.into type) ∧
            (¬ (operand.isSigned ∧ type.isSigned) → ∀ bit < type.width - operand.width,
              (place.move (sliceWidth cuts (operand.toSlice eval)) operand.width).Keeps possible
                whole bit .zero fun valuation => type.convert <|
                  if extendsSign kind type operand then
                    bitValue valuation operand (operand.width - 1)
                  else .zero)
  | .conditionalOp type plain condition left right, place =>
      Splits type.width plain (left.toSlice eval) (right.toSlice eval) ∧
          sliceWidth cuts (left.toSlice eval) = sliceWidth cuts (right.toSlice eval) →
        ConstantsHold left (place.arm condition true) ∧
          ConstantsHold right (place.arm condition false)

def OperandsHold : List IntegralExpr → Place → Prop
  | [], _ => True
  | operand :: rest, place =>
      OperandsHold rest place ∧ ConstantsHold operand
        (place.move (operandsSliceWidth cuts (operandsToSlice eval rest)) (operandsWidth rest))

end

end Hold

section Agree

variable {possible : Valuation → Prop} {eval : IntegralExpr → Option SVInt}
  {cuts : Option CutRegistry} {whole : IntegralExpr} {place : Place}

/-- The constants among the sources have, from the slot of the place on, the value. -/
def AgreesAt (possible : Valuation → Prop) (whole : IntegralExpr) (place : Place) (count : Nat)
    (sources : Nat → List (Arms × BitSource)) : Prop :=
  ∀ bit < count, ∀ arms number offset,
    (arms, BitSource.constant (.integer number) offset) ∈ sources bit →
    ∀ valuation, possible valuation → valuation.Selects (place.arms ++ arms) →
      place.slot + bit < whole.width ∧
        number.bits[offset]? = some (whole.bitValue valuation (place.slot + bit))

theorem agreesAt_of_free {count : Nat} {sources : Nat → List (Arms × BitSource)}
    (free : ∀ bit arms number offset,
      (arms, BitSource.constant (.integer number) offset) ∉ sources bit) :
    AgreesAt possible whole place count sources :=
  fun bit _ arms number offset member => absurd member (free bit arms number offset)

/-- Sources side by side. -/
theorem agreesAt_append {front back : Nat} {first second : Nat → List (Arms × BitSource)}
    (bits : Nat) :
    AgreesAt possible whole place (front + back)
        (fun bit => if bit < front then first bit else second (bit - front)) ↔
      AgreesAt possible whole place front first ∧
        AgreesAt possible whole (place.move front bits) back second := by
  constructor
  · intro agrees
    refine ⟨fun bit below arms number offset member => ?_,
      fun bit below arms number offset member => ?_⟩
    · exact agrees bit (by omega) arms number offset (by
        simpa only [if_pos below] using member)
    · have later := agrees (front + bit) (by omega) arms number offset (by
        simpa only [if_neg (show ¬ front + bit < front by omega), Nat.add_sub_cancel_left]
          using member)
      simpa only [Place.move, Nat.add_assoc] using later
  · rintro ⟨early, late⟩ bit below arms number offset member
    by_cases inFront : bit < front
    · simp only [if_pos inFront] at member
      exact early bit inFront arms number offset member
    · simp only [if_neg inFront] at member
      have later := late (bit - front) (by omega) arms number offset member
      have place_eq : place.slot + front + (bit - front) = place.slot + bit := by omega
      simpa only [Place.move, place_eq] using later

/-- Sources repeated. -/
theorem agreesAt_repeat {count : Nat} {sources : Nat → List (Arms × BitSource)} (bits : Nat)
    (times : Nat) :
    AgreesAt possible whole place (times * count) (fun bit => sources (bit % count)) ↔
      ∀ index < times, AgreesAt possible whole (place.move (index * count) (index * bits)) count
        sources := by
  constructor
  · intro agrees index below bit inside arms number offset member
    have later := agrees (index * count + bit) (by
        have := Nat.mul_le_mul_right count (show index + 1 ≤ times from below)
        rw [Nat.succ_mul] at this
        omega) arms number offset (by
      simpa only [Nat.mul_add_mod_self_right, Nat.mod_eq_of_lt inside] using member)
    simpa only [Place.move, Nat.add_assoc] using later
  · intro each bit below arms number offset member
    have positive : 0 < count := Nat.pos_of_ne_zero fun zero => by simp [zero] at below
    have later := each (bit / count) (Nat.div_lt_of_lt_mul (by rwa [Nat.mul_comm] at below))
      (bit % count) (Nat.mod_lt _ positive) arms number offset member
    have place_eq : place.slot + bit / count * count + bit % count = place.slot + bit := by
      rw [Nat.add_assoc, Nat.div_add_mod']
    simpa only [Place.move, place_eq] using later

/-- The bits of the operand are bits of the whole expression, up to conversions. -/
structure Place.Holds (possible : Valuation → Prop) (whole : IntegralExpr) (place : Place)
    (expr : IntegralExpr) : Prop where
  fits : place.home + expr.width ≤ whole.width
  value : ∀ valuation, possible valuation → valuation.Selects place.arms →
    ∀ bit < expr.width,
      whole.bitValue valuation (place.home + bit) = place.convert (expr.bitValue valuation bit)

/-- A constant bit agrees if and only if it is in order. -/
theorem Place.Holds.keeps_iff {expr : IntegralExpr} (holds : place.Holds possible whole expr)
    {slots bits bit : Nat} {digit : LogicBit} {own : Valuation → LogicBit}
    (within : bits + bit < expr.width)
    (owns : ∀ valuation, possible valuation → expr.bitValue valuation (bits + bit) = own valuation) :
    (place.move slots bits).Keeps possible whole bit digit own ↔
      ∀ valuation, possible valuation → valuation.Selects place.arms →
        place.slot + slots + bit < whole.width ∧
          digit = whole.bitValue valuation (place.slot + slots + bit) := by
  unfold Place.Keeps
  refine forall_congr' fun valuation => forall_congr' fun isPossible => forall_congr' fun selects => ?_
  by_cases home : place.slot + slots = place.home + bits
  · have fits := holds.fits
    have value := holds.value valuation isPossible selects (bits + bit) within
    rw [owns valuation isPossible, ← Nat.add_assoc, ← home] at value
    rw [value, if_pos (show (place.move slots bits).slot = (place.move slots bits).home from home)]
    exact (and_iff_right (by omega)).symm
  · rw [if_neg (show ¬ (place.move slots bits).slot = (place.move slots bits).home from home)]
    exact Iff.rfl

/-- The bits of one constant. -/
theorem Place.Holds.agreesAt_constant {expr : IntegralExpr}
    (holds : place.Holds possible whole expr) {slots bits : Nat} {number : SVInt}
    {own : Valuation → Nat → LogicBit} (within : bits + number.bits.length ≤ expr.width)
    (owns : ∀ valuation, possible valuation → ∀ bit < number.bits.length,
      expr.bitValue valuation (bits + bit) = own valuation bit) :
    AgreesAt possible whole (place.move slots bits) number.bits.length
        (fun bit => [([], BitSource.constant (.integer number) bit)]) ↔
      ∀ bit < number.bits.length, (place.move slots bits).Keeps possible whole bit
        (number.bits.getD bit .x) fun valuation => own valuation bit := by
  refine forall_congr' fun bit => forall_congr' fun below => ?_
  rw [holds.keeps_iff (by omega) fun valuation isPossible => owns valuation isPossible bit below]
  have digit : number.bits[bit]? = some (number.bits.getD bit .x) := by
    rw [List.getD_eq_getElem?_getD, List.getElem?_eq_getElem below, Option.getD_some]
  constructor
  · intro agrees valuation isPossible selects
    have appended : valuation.Selects ((place.move slots bits).arms ++ []) := by
      rw [List.append_nil]
      exact selects
    have same := agrees [] number bit (List.mem_singleton_self _) valuation isPossible appended
    rw [digit, Option.some.injEq] at same
    exact same
  · intro keeps arms other offset member valuation isPossible selects
    cases List.mem_singleton.mp member
    have := keeps valuation isPossible (by simpa [Place.move] using selects)
    rw [digit, Option.some.injEq]
    exact this

/-! ## The operands of an expression -/

/-- The lower operands of a concatenation stay where the concatenation is. -/
theorem Place.Holds.rest {operand : IntegralExpr} {others : List IntegralExpr}
    (holds : place.Holds possible whole (.concatenation (operand :: others))) :
    place.Holds possible whole (.concatenation others) where
  fits := by
    have := holds.fits
    simp only [width, operandsWidth] at this ⊢
    omega
  value valuation isPossible selects bit below := by
    simp only [width] at below
    rw [holds.value valuation isPossible selects bit (by simp only [width, operandsWidth]; omega)]
    simp only [bitValue, operandsValue, if_pos below]

/-- The first operand of a concatenation has the most significant bits. -/
theorem Place.Holds.first {operand : IntegralExpr} {others : List IntegralExpr}
    (holds : place.Holds possible whole (.concatenation (operand :: others))) (slots : Nat) :
    (place.move slots (operandsWidth others)).Holds possible whole operand where
  fits := by
    have := holds.fits
    simp only [width, operandsWidth, Place.move] at this ⊢
    omega
  value valuation isPossible selects bit below := by
    have value := holds.value valuation isPossible selects (operandsWidth others + bit)
      (by simp only [width, operandsWidth]; omega)
    rw [← Nat.add_assoc] at value
    simp only [bitValue, operandsValue, Nat.not_lt.mpr (Nat.le_add_right _ _), if_false,
      Nat.add_sub_cancel_left] at value
    exact value

theorem Place.Holds.copy {count : Nat} {concat : IntegralExpr}
    (holds : place.Holds possible whole (.replication count concat)) {index : Nat}
    (below : index < count) (slots : Nat) :
    (place.move slots (index * concat.width)).Holds possible whole concat := by
  have enough : index * concat.width + concat.width ≤ count * concat.width := by
    rw [← Nat.succ_mul]
    exact Nat.mul_le_mul_right _ below
  refine ⟨?_, fun valuation isPossible selects bit inside => ?_⟩
  · have := holds.fits
    simp only [width, Place.move] at this ⊢
    omega
  · have value := holds.value valuation isPossible selects (index * concat.width + bit)
      (by simp only [width]; omega)
    rw [← Nat.add_assoc] at value
    simp only [bitValue, Nat.mul_add_mod_self_right, Nat.mod_eq_of_lt inside] at value
    exact value

/-- The operand of a conversion that does not drop bits. -/
theorem Place.Holds.into {kind : ConversionKind} {type : IntegralType} {operand : IntegralExpr}
    {location : SourceLocation}
    (holds : place.Holds possible whole (.conversion kind type operand location))
    (wide : operand.width ≤ type.width) : (place.into type).Holds possible whole operand where
  fits := by
    have := holds.fits
    simp only [width, Place.into] at this ⊢
    omega
  value valuation isPossible selects bit below := by
    have value := holds.value valuation isPossible selects bit (by simp only [width]; omega)
    simp only [bitValue, if_pos below] at value
    rw [Place.convert_into]
    exact value

/-- An arm has the value of the conditional where it is selected. -/
theorem Place.Holds.arm {type : IntegralType} {plain taken : Bool} {condition : Expr}
    {left right : IntegralExpr}
    (holds : place.Holds possible whole (.conditionalOp type plain condition left right))
    (same : (if taken then left else right).width = type.width) :
    (place.arm condition taken).Holds possible whole (if taken then left else right) where
  fits := by
    have := holds.fits
    simp only [width, Place.arm, same] at this ⊢
    omega
  value valuation isPossible selects bit below := by
    have chosen : valuation.condition condition = some taken :=
      selects (condition, taken) (by simp [Place.arm])
    have outer : valuation.Selects place.arms := fun arm member =>
      selects arm (List.mem_append_left _ member)
    have value := holds.value valuation isPossible outer bit (by simpa only [width, ← same])
    simp only [bitValue, chosen] at value
    cases taken <;> exact value

end Agree

mutual

@[simp] theorem width_toSlice (eval : IntegralExpr → Option SVInt) :
    ∀ expr : IntegralExpr, (expr.toSlice eval).width = expr.width
  | .value _ _ _ | .constant _ _ _ | .replication _ _ | .conversion _ _ _ _
  | .conditionalOp _ _ _ _ _ => by simp only [toSlice, SliceExpr.width, width]
  | .concatenation operands => by
      simp only [toSlice, SliceExpr.width, width, width_operandsToSlice eval operands]

theorem width_operandsToSlice (eval : IntegralExpr → Option SVInt) :
    ∀ operands : List IntegralExpr,
      SliceExpr.operandsWidth (operandsToSlice eval operands) = operandsWidth operands
  | [] => rfl
  | operand :: rest => by
      simp only [operandsToSlice, SliceExpr.operandsWidth, operandsWidth, width_toSlice eval operand,
        width_operandsToSlice eval rest, Nat.add_comm]

end

section Walk

variable {possible : Valuation → Prop} {eval : IntegralExpr → Option SVInt}
  {whole : IntegralExpr} (cuts : Option CutRegistry)

theorem foldedAt_length {count : Nat} {folded : Option SVInt} {number : SVInt}
    (found : foldedAt count folded = some number) :
    folded = some number ∧ number.bits.length = count := by
  obtain ⟨same, long⟩ := Option.filter_eq_some_iff.mp found
  exact ⟨same, by simpa using long⟩

/-- A constant that is the whole operand. -/
theorem agreesAt_folded {place : Place} {expr : IntegralExpr}
    (holds : place.Holds possible whole expr) {number : SVInt}
    (long : number.bits.length = expr.width)
    (owns : ∀ valuation, possible valuation → ∀ bit < expr.width,
      number.bits[bit]? = some (expr.bitValue valuation bit)) :
    AgreesAt possible whole place expr.width
        (fun bit => [([], BitSource.constant (.integer number) bit)]) ↔
      ∀ bit < expr.width, place.Keeps possible whole bit (number.bits.getD bit .x)
        fun _ => number.bits.getD bit .x := by
  have agrees := @Place.Holds.agreesAt_constant possible whole place expr holds 0 0 number
    (fun _ bit => number.bits.getD bit .x) (by omega) fun valuation isPossible bit below => by
      rw [Nat.zero_add, List.getD_eq_getElem?_getD,
        owns valuation isPossible bit (by omega), Option.getD_some]
  rw [long] at agrees
  exact agrees

/-- The sources above the operand of a widening conversion. -/
def extensionSources (type : IntegralType) (operand : IntegralExpr) (bit : Nat) :
    List (Arms × BitSource) :=
  if operand.isSigned && type.isSigned then [([], .padding)]
  else [([], .constant (.integer ⟨List.replicate (type.width - operand.width) .zero⟩) bit)]

/-- The zeros above an operand are in order as the conversion extends by zeros. -/
theorem agreesAt_extension {place : Place} {kind : ConversionKind} {type : IntegralType}
    {operand : IntegralExpr} {location : SourceLocation}
    (holds : place.Holds possible whole (.conversion kind type operand location))
    (wide : operand.width ≤ type.width) (slots : Nat) :
    AgreesAt possible whole (place.move slots operand.width) (type.width - operand.width)
        (extensionSources type operand) ↔
      (¬ (operand.isSigned ∧ type.isSigned) → ∀ bit < type.width - operand.width,
        (place.move slots operand.width).Keeps possible
          whole bit .zero fun valuation => type.convert <|
            if extendsSign kind type operand then bitValue valuation operand (operand.width - 1)
            else .zero) := by
  by_cases signed : operand.isSigned ∧ type.isSigned
  · simp only [signed, and_self, not_true_eq_false, false_implies, iff_true]
    exact agreesAt_of_free fun _ _ _ _ member => by
      simp [extensionSources, signed.1, signed.2] at member
  · have plain : (operand.isSigned && type.isSigned) ≠ true := by simpa using signed
    have zeros := @Place.Holds.agreesAt_constant possible whole place _ holds
      slots operand.width ⟨List.replicate (type.width - operand.width) .zero⟩
      (fun valuation _ => type.convert <|
        if extendsSign kind type operand then bitValue valuation operand (operand.width - 1)
        else .zero)
      (by simp only [List.length_replicate, width]; omega) fun valuation _ bit below => by
        simp only [bitValue, Nat.not_lt.mpr (Nat.le_add_right _ _), if_false]
    simp only [List.length_replicate] at zeros
    simp only [signed, not_false_eq_true, forall_const]
    refine Iff.trans ?_ (zeros.trans (forall_congr' fun bit => forall_congr' fun below => ?_))
    · exact iff_of_eq (congrArg _ (funext fun bit => if_neg plain))
    · rw [List.getD_eq_getElem?_getD, List.getElem?_replicate, if_pos below, Option.getD_some]

/-- The arms of a conditional, each in its place. -/
theorem agreesAt_arms {place : Place} {count : Nat} {condition : Expr}
    {left right : Nat → List (Arms × BitSource)} :
    AgreesAt possible whole place count
        (fun bit => (left bit).map (Prod.map ((condition, true) :: ·) id) ++
          (right bit).map (Prod.map ((condition, false) :: ·) id) ++
          [([], .opaqueExpr condition)]) ↔
      AgreesAt possible whole (place.arm condition true) count left ∧
        AgreesAt possible whole (place.arm condition false) count right := by
  have taken {arms : Arms} (choice : Bool) :
      place.arms ++ (condition, choice) :: arms = (place.arm condition choice).arms ++ arms := by
    simp [Place.arm]
  constructor
  · intro agrees
    refine ⟨fun bit below arms number offset member valuation isPossible selects => ?_,
      fun bit below arms number offset member valuation isPossible selects => ?_⟩
    · refine agrees bit below ((condition, true) :: arms) number offset ?_ valuation isPossible
        (taken true ▸ selects)
      simp only [List.mem_append, List.mem_map]
      exact Or.inl (Or.inl ⟨_, member, rfl⟩)
    · refine agrees bit below ((condition, false) :: arms) number offset ?_ valuation isPossible
        (taken false ▸ selects)
      simp only [List.mem_append, List.mem_map]
      exact Or.inl (Or.inr ⟨_, member, rfl⟩)
  · rintro ⟨inLeft, inRight⟩ bit below arms number offset member valuation isPossible selects
    simp only [List.mem_append, List.mem_map, List.mem_singleton] at member
    rcases member with (⟨⟨inner, source⟩, leftMem, same⟩ | ⟨⟨inner, source⟩, rightMem, same⟩) | same
    · cases same
      exact inLeft bit below inner number offset leftMem valuation isPossible (taken true ▸ selects)
    · cases same
      exact inRight bit below inner number offset rightMem valuation isPossible
        (taken false ▸ selects)
    · cases same

mutual

/-- The constants of an operand agree with the whole expression if and only if they are in order. -/
theorem agreesAt_iff (sound : EvalSound possible eval) : ∀ (expr : IntegralExpr) (place : Place),
    place.Holds possible whole expr →
    (AgreesAt possible whole place (sliceWidth cuts (expr.toSlice eval))
        (armSources (sliceWidth cuts) (expr.toSlice eval)) ↔
      ConstantsHold possible eval cuts whole expr place)
  | .value type path selectors, place, _ =>
      iff_of_true (agreesAt_of_free fun _ _ _ _ member => by simp [toSlice, armSources] at member)
        trivial
  | .constant isSigned number location, place, holds => by
      have folded : foldedAt number.bits.length (some number) = some number := by simp [foldedAt]
      simp only [toSlice, sliceWidth, armSources, ConstantsHold, folded]
      refine agreesAt_folded holds rfl fun valuation _ bit below => ?_
      rw [bitValue, List.getD_eq_getElem?_getD, List.getElem?_eq_getElem below, Option.getD_some]
  | .concatenation operands, place, holds => operandsAgreeAt_iff sound operands place holds
  | .replication count concat, place, holds => by
      by_cases fits : count < 2 ^ 63
      · simp only [toSlice, fits, if_true, sliceWidth, armSources, ConstantsHold,
          Int.toNat_natCast, forall_const]
        rw [agreesAt_repeat concat.width]
        exact forall_congr' fun index => forall_congr' fun below =>
          agreesAt_iff sound concat _ (holds.copy below _)
      · simp only [toSlice, sliceWidth, armSources, ConstantsHold, fits, false_implies, iff_true]
        exact agreesAt_of_free fun _ _ _ _ member => by simp at member
  | .conversion kind type operand location, place, holds => by
      simp only [toSlice, sliceWidth, armSources, ConstantsHold, width_toSlice]
      cases found : foldedAt type.width (eval (.conversion kind type operand location)) with
      | some number =>
          obtain ⟨evaluated, long⟩ := foldedAt_length found
          exact agreesAt_folded holds long (sound _ _ evaluated)
      | none =>
          dsimp only
          by_cases wide : operand.width ≤ type.width
          · have inner := agreesAt_iff sound operand _ (holds.into wide)
            have pads := agreesAt_extension holds wide (sliceWidth cuts (operand.toSlice eval))
            simp only [wide, forall_const, ← inner, ← pads]
            by_cases equal : type.width = operand.width
            · simp only [equal, if_true, Nat.sub_self]
              exact (and_iff_left fun bit below => absurd below (Nat.not_lt_zero bit)).symm
            · simp only [if_neg equal, if_pos (show type.width > operand.width by omega)]
              exact @agreesAt_append possible whole place _ _
                (armSources (sliceWidth cuts) (operand.toSlice eval))
                (extensionSources type operand) operand.width
          · simp only [if_neg (show ¬ type.width = operand.width by omega),
              if_neg (show ¬ type.width > operand.width by omega), wide, false_implies, iff_true]
            exact agreesAt_of_free fun _ _ _ _ member => by simp at member
  | .conditionalOp type plain condition left right, place, holds => by
      simp only [toSlice, sliceWidth, armSources, ConstantsHold]
      by_cases splits : Splits type.width plain (left.toSlice eval) (right.toSlice eval) ∧
          sliceWidth cuts (left.toSlice eval) = sliceWidth cuts (right.toSlice eval)
      · simp only [if_pos splits]
        rw [forall_prop_of_true splits]
        have leftWidth : left.width = type.width := by
          have := splits.1.2.1
          rwa [width_toSlice] at this
        have rightWidth : right.width = type.width := by
          have := splits.1.1
          rw [width_toSlice, width_toSlice] at this
          omega
        have inLeft := agreesAt_iff sound left _
          (@Place.Holds.arm _ _ _ _ _ true _ _ _ holds leftWidth)
        have inRight := agreesAt_iff sound right _
          (@Place.Holds.arm _ _ _ _ _ false _ _ _ holds rightWidth)
        rw [agreesAt_arms, ← inLeft, ← inRight, splits.2]
      · simp only [splits, false_implies, iff_true]
        exact agreesAt_of_free fun _ _ _ _ member => by simp at member

theorem operandsAgreeAt_iff (sound : EvalSound possible eval) :
    ∀ (operands : List IntegralExpr) (place : Place),
    place.Holds possible whole (.concatenation operands) →
    (AgreesAt possible whole place (operandsSliceWidth cuts (operandsToSlice eval operands))
        (operandsArmSources (sliceWidth cuts) (operandsToSlice eval operands)) ↔
      OperandsHold possible eval cuts whole operands place)
  | [], place, _ => iff_of_true (agreesAt_of_free fun _ _ _ _ member => by
      simp [operandsToSlice, operandsArmSources] at member) trivial
  | operand :: rest, place, holds => by
      simp only [operandsToSlice, operandsSliceWidth, operandsArmSources, OperandsHold,
        operandsMeasure_sliceWidth]
      rw [agreesAt_append (operandsWidth rest), operandsAgreeAt_iff sound rest place holds.rest,
        agreesAt_iff sound operand _ (holds.first _)]

end

/--
The constants among the sources of the slices have the value of the expression
if and only if each of them is in order: a constant keeps its bits in the
conversions around it, a zero above an operand is the bit that the conversion
extends by, and a constant that a split select moves is in order by chance.
-/
theorem constantsTruthful_iff (sound : EvalSound possible eval) (expr : IntegralExpr) :
    ConstantsTruthful possible eval cuts expr ↔
      ConstantsHold possible eval cuts expr expr {} := by
  have denotes := denotes_build cuts (expr.toSlice eval)
  have whole : ({} : Place).Holds possible expr expr :=
    ⟨by simp, fun _ _ _ bit _ => by simp [Place.convert]⟩
  rw [← agreesAt_iff cuts sound expr {} whole]
  have placed {slice : BitSlice} (member : slice ∈ build (expr.toSlice eval) true cuts)
      {position : Nat} (above : slice.concatLo ≤ position) (below : position < slice.concatHi) :
      slice.sources.map (BitSliceSource.bitAt position) =
        (armSources (sliceWidth cuts) (expr.toSlice eval) position).map Prod.snd := by
    rw [denotes.sources slice member position above below, map_armSources, Nat.sub_zero]
  constructor
  · intro truthful position below arms number offset member valuation isPossible selects
    obtain ⟨slice, sliceMem, _, above, inside⟩ := denotes.tiles.exists_find (Nat.zero_le position) below
    obtain ⟨index, found⟩ := List.mem_iff_getElem?.mp member
    have same := congrArg (·[index]?) (placed sliceMem above inside)
    simp only [List.getElem?_map, found, Option.map_some, Option.map_eq_some_iff] at same
    obtain ⟨source, sourceAt, stands⟩ := same
    obtain ⟨srcLo, location, rfl, rfl⟩ := source.bitAt_eq_constant stands
    simp only [Nat.zero_add]
    exact truthful slice sliceMem position above inside index number srcLo location sourceAt arms _
      found valuation isPossible selects
  · intro agrees slice member position above below index number srcLo location found arms source
      armsAt valuation isPossible selects
    have same := congrArg (·[index]?) (placed member above below)
    simp only [List.getElem?_map, found, armsAt, Option.map_some, Option.some.injEq] at same
    obtain rfl : BitSource.constant (.integer number) (position - srcLo) = source := same
    have agree := agrees position (by have := (denotes.tiles.bounds member).2.2; omega) arms number
      (position - srcLo) (List.mem_of_getElem? armsAt) valuation isPossible selects
    simpa only [Nat.zero_add] using agree

end Walk

/-- The bits of the root symbols; no condition is known. -/
def ofSignals (signals : ValueSymbol → Int → LogicBit) : Valuation where
  bit path _ bit :=
    match path.rootSymbol with
    | some symbol => signals symbol (path.lspBounds.lower + bit)
    | none => .x
  condition _ := none

/-- `u16'(b)`, where `u16` is an unsigned type of 16 bits and `b` a byte. -/
def widenedByte (isSigned : Bool) : IntegralExpr :=
  .conversion .explicit { width := 16, isSigned := false }
    (.value { width := 8, isSigned := isSigned }
      { rootSymbol := some { id := 1, name := "b", hierarchicalPath := "m.b" }, lsp := some 1,
        lspBounds := ⟨0, 7⟩ } []) none

/-- The zeros above an unsigned byte are bits of the value. -/
theorem constantsTruthful_iff_byte :
    ConstantsTruthful (fun valuation => ∃ signals, valuation = ofSignals signals)
      (fun _ => none) none (widenedByte false) := by
  have sound : EvalSound (fun valuation => ∃ signals, valuation = ofSignals signals)
      fun _ => none := fun _ _ found => by cases found
  refine (constantsTruthful_iff none sound (widenedByte false)).mpr fun _ => ⟨trivial, ?_⟩
  intro _ bit _ valuation _ _
  exact (iff_of_eq (if_pos (by decide))).mpr rfl

/-- Above a signed byte there are copies of its sign, and the slices have zeros. -/
theorem signedByte_not_constantsTruthful :
    ¬ ConstantsTruthful (fun valuation => ∃ signals, valuation = ofSignals signals)
      (fun _ => none) none (widenedByte true) := by
  intro truthful
  have agree := truthful
    ⟨8, 16, [.constant (.integer ⟨List.replicate 8 .zero⟩) 8 none]⟩ (by decide) 8 (by decide)
    (by decide) 0 _ _ _ rfl [] _ rfl (ofSignals fun _ _ => .one) ⟨_, rfl⟩
    fun _ member => absurd member List.not_mem_nil
  exact absurd agree.2 (by decide)

end IntegralExpr

end SlangNetlist
