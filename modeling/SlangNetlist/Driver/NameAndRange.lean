import Mathlib.Data.List.Induction
import Mathlib.Data.List.TakeWhile
import SlangNetlist.Library.Separators
import SlangNetlist.Tracking.DriverBitRange

/-!
# Names with a bit range

The command line names a part of a signal as `path[hi:lo]` or `path[bit]`, the
spelling in which ranges are printed.  A trailing bracket that does not hold a
range belongs to the name.  Texts are lists of characters.
-/

namespace SlangNetlist

open Library

/-- The values of `int32_t`. -/
def IsInt32 (value : Int) : Prop := -2147483648 ≤ value ∧ value ≤ 2147483647

instance (value : Int) : Decidable (IsInt32 value) := inferInstanceAs (Decidable (_ ∧ _))

/-- The decimal digits of an integer, behind a minus sign if it is negative. -/
def decimal (value : Int) : List Char :=
  if value < 0 then '-' :: Nat.toDigits 10 value.natAbs else Nat.toDigits 10 value.natAbs

namespace DriverBitRange

/-- `toString(DriverBitRange)`. -/
def toString (range : DriverBitRange) : List Char :=
  if range.lower = range.upper then '[' :: decimal range.lower ++ [']']
  else '[' :: decimal range.upper ++ ':' :: decimal range.lower ++ [']']

end DriverBitRange

/-- `std::from_chars` into an `int32_t`: the value and the text behind it. -/
def fromChars (text : List Char) : Option (Int × List Char) :=
  let negative := text.head? = some '-'
  let body := if negative then text.tail else text
  let digits := body.takeWhile Char.isDigit
  if digits = [] then none
  else
    let magnitude : Int := Nat.ofDigitChars 10 digits 0
    let value := if negative then -magnitude else magnitude
    if IsInt32 value then some (value, body.dropWhile Char.isDigit) else none

def parseInt (text : List Char) : Option Int :=
  match fromChars text with
  | some (value, []) => some value
  | _ => none

def parseNameAndRange (spec : List Char) : List Char × Option DriverBitRange :=
  if spec.getLast? ≠ some ']' then (spec, none)
  else
    match splitLast '[' spec with
    | none => (spec, none)
    | some (path, behind) =>
        let inner := behind.dropLast
        match splitFirst ':' inner with
        | none =>
            match parseInt inner with
            | none => (spec, none)
            | some bit => (path, some ⟨bit, bit⟩)
        | some (before, after) =>
            match parseInt before, parseInt after with
            | some hi, some lo => (path, some ⟨hi, lo⟩)
            | _, _ => (spec, none)

/-- The text is an optional minus sign and digits, of a value in `int32_t`. -/
def IsInt32Literal (text : List Char) (value : Int) : Prop :=
  IsInt32 value ∧ ∃ digits, digits ≠ [] ∧ (∀ c ∈ digits, c.isDigit = true) ∧
    ((text = digits ∧ value = Nat.ofDigitChars 10 digits 0) ∨
      (text = '-' :: digits ∧ value = -(Nat.ofDigitChars 10 digits 0 : Int)))

/-- The text ends in a bracketed literal, or in two with a colon between them. -/
def EndsInRange (text : List Char) : Prop :=
  ∃ base inner, text = base ++ '[' :: inner ++ [']'] ∧
    ((∃ bit, IsInt32Literal inner bit) ∨
      ∃ hi lo high low, inner = hi ++ ':' :: lo ∧ IsInt32Literal hi high ∧ IsInt32Literal lo low)

variable {text : List Char} {value : Int} {range : DriverBitRange}

theorem takeWhile_isDigit {digits : List Char} (all : ∀ c ∈ digits, c.isDigit = true) :
    digits.takeWhile Char.isDigit = digits ∧ digits.dropWhile Char.isDigit = [] :=
  ⟨List.takeWhile_eq_self_iff.mpr all, List.dropWhile_eq_nil_iff.mpr all⟩

/-- A literal is read to its end. -/
theorem parseInt_of_literal (literal : IsInt32Literal text value) :
    parseInt text = some value := by
  obtain ⟨int32, digits, nonempty, all, ⟨rfl, rfl⟩ | ⟨rfl, rfl⟩⟩ := literal
  · have unsigned : text.head? ≠ some '-' := by
      intro minus
      exact absurd (all '-' (List.mem_of_mem_head? minus)) (by decide)
    simp only [parseInt, fromChars, unsigned, if_false, takeWhile_isDigit all, nonempty, int32,
      if_true]
  · simp only [parseInt, fromChars, List.head?_cons, List.tail_cons, takeWhile_isDigit all,
      nonempty, int32, if_true, if_false]

/-- Nothing but a literal is read. -/
theorem literal_of_parseInt (parsed : parseInt text = some value) :
    IsInt32Literal text value := by
  have scanned : fromChars text = some (value, []) := by
    unfold parseInt at parsed
    split at parsed
    · next found => rw [found, Option.some.inj parsed]
    · cases parsed
  simp only [fromChars, Option.ite_none_left_eq_some, Option.ite_none_right_eq_some,
    Option.some.injEq, Prod.mk.injEq] at scanned
  obtain ⟨nonempty, int32, same, atEnd⟩ := scanned
  have all := List.dropWhile_eq_nil_iff.mp atEnd
  rw [(takeWhile_isDigit all).1] at nonempty int32 same
  refine ⟨same ▸ int32, _, nonempty, all, ?_⟩
  by_cases negative : text.head? = some '-'
  · refine .inr ⟨?_, by simpa only [negative, if_true] using same.symm⟩
    simpa only [negative, if_true] using (List.cons_head?_tail negative).symm
  · exact .inl ⟨by simp only [negative, if_false], by simpa only [negative, if_false]
      using same.symm⟩

theorem IsInt32Literal.isDigit_or_minus (literal : IsInt32Literal text value) {c : Char}
    (member : c ∈ text) : c.isDigit = true ∨ c = '-' := by
  obtain ⟨_, digits, _, all, ⟨rfl, _⟩ | ⟨rfl, _⟩⟩ := literal
  · exact .inl (all c member)
  · rcases List.mem_cons.mp member with isMinus | member
    · exact .inr isMinus
    · exact .inl (all c member)

theorem IsInt32Literal.no_colon (literal : IsInt32Literal text value) : ':' ∉ text :=
  fun member => absurd (literal.isDigit_or_minus member) (by decide)

theorem IsInt32Literal.no_bracket (literal : IsInt32Literal text value) : '[' ∉ text :=
  fun member => absurd (literal.isDigit_or_minus member) (by decide)

/-- An integer is printed as a literal of itself. -/
theorem decimal_isLiteral (int32 : IsInt32 value) : IsInt32Literal (decimal value) value := by
  refine ⟨int32, Nat.toDigits 10 value.natAbs, Nat.toDigits_ne_nil,
    fun c member => Nat.isDigit_of_mem_toDigits (by decide) (by decide) member, ?_⟩
  rw [Nat.ofDigitChars_ten_toDigits]
  unfold decimal
  split
  · exact .inr ⟨rfl, by omega⟩
  · exact .inl ⟨rfl, by omega⟩

/-- The bracket opened last is the one that the final bracket closes. -/
theorem parseNameAndRange_bracketed (path : List Char) {inner : List Char}
    (noBracket : '[' ∉ inner) :
    parseNameAndRange (path ++ '[' :: inner ++ [']']) =
      match splitFirst ':' inner with
      | none =>
          match parseInt inner with
          | none => (path ++ '[' :: inner ++ [']'], none)
          | some bit => (path, some ⟨bit, bit⟩)
      | some (before, after) =>
          match parseInt before, parseInt after with
          | some hi, some lo => (path, some ⟨hi, lo⟩)
          | _, _ => (path ++ '[' :: inner ++ [']'], none) := by
  have behindFree : '[' ∉ inner ++ [']'] := by simpa using noBracket
  have opened : splitLast '[' (path ++ '[' :: inner ++ [']']) = some (path, inner ++ [']']) := by
    simpa using splitLast_append path behindFree
  simp only [parseNameAndRange, opened, List.getLast?_concat, ne_eq, not_true_eq_false, if_false,
    List.dropLast_concat]

theorem parseNameAndRange_bit (path : List Char) (literal : IsInt32Literal text value) :
    parseNameAndRange (path ++ '[' :: text ++ [']']) = (path, some ⟨value, value⟩) := by
  rw [parseNameAndRange_bracketed path literal.no_bracket,
    splitFirst_eq_none.mpr literal.no_colon]
  simp only [parseInt_of_literal literal]

theorem parseNameAndRange_pair (path : List Char) {hi lo : List Char} {high low : Int}
    (hiLiteral : IsInt32Literal hi high) (loLiteral : IsInt32Literal lo low) :
    parseNameAndRange (path ++ '[' :: (hi ++ ':' :: lo) ++ [']']) = (path, some ⟨high, low⟩) := by
  have noBracket : '[' ∉ hi ++ ':' :: lo := by
    simp [hiLiteral.no_bracket, loLiteral.no_bracket]
  rw [parseNameAndRange_bracketed path noBracket, splitFirst_append hiLiteral.no_colon]
  simp only [parseInt_of_literal hiLiteral, parseInt_of_literal loLiteral]

/-- A printed range is read back with the same bounds. -/
theorem parseNameAndRange_append_toString (path : List Char) (lower : IsInt32 range.lower)
    (upper : IsInt32 range.upper) :
    ∃ parsed, parseNameAndRange (path ++ range.toString) = (path, some parsed) ∧
      parsed.lower = range.lower ∧ parsed.upper = range.upper := by
  unfold DriverBitRange.toString
  split
  · next same =>
      refine ⟨⟨range.lower, range.lower⟩, ?_, ?_, ?_⟩
      · simpa using parseNameAndRange_bit path (decimal_isLiteral lower)
      · simp [DriverBitRange.lower]
      · simp [DriverBitRange.upper, same]
  · refine ⟨⟨range.upper, range.lower⟩, ?_, ?_, ?_⟩
    · simpa using parseNameAndRange_pair path (decimal_isLiteral upper) (decimal_isLiteral lower)
    · exact Int.min_eq_right range.lower_le_upper
    · exact Int.max_eq_left range.lower_le_upper

/-- A text without a range at its end is a name. -/
theorem parseNameAndRange_of_not_endsInRange {path : List Char} (noRange : ¬ EndsInRange path) :
    parseNameAndRange path = (path, none) := by
  by_cases closed : path.getLast? = some ']'
  · cases opened : splitLast '[' path with
    | none => simp only [parseNameAndRange, closed, opened, ne_eq, not_true_eq_false, if_false]
    | some parts =>
        obtain ⟨base, behind⟩ := parts
        have split := eq_append_of_splitLast opened
        have ended : behind.dropLast ++ [']'] = behind := by
          cases behind using List.reverseRecOn with
          | nil => simp [split] at closed
          | append_singleton behind last =>
              have isClose : last = ']' := by
                simpa [split, List.getLast?_append, List.getLast?_cons] using closed
              simp [isClose]
        have spelled : path = base ++ '[' :: behind.dropLast ++ [']'] := by
          rw [split]
          simp [ended]
        have noLiteral : parseInt behind.dropLast = none := by
          by_contra isLiteral
          obtain ⟨bit, parsed⟩ := Option.ne_none_iff_exists'.mp isLiteral
          exact noRange ⟨base, _, spelled, .inl ⟨bit, literal_of_parseInt parsed⟩⟩
        cases colon : splitFirst ':' behind.dropLast with
        | none =>
            simp only [parseNameAndRange, closed, opened, colon, noLiteral, ne_eq,
              not_true_eq_false, if_false]
        | some ends =>
            obtain ⟨hi, lo⟩ := ends
            simp only [parseNameAndRange, closed, opened, colon, ne_eq, not_true_eq_false,
              if_false]
            split
            · next high low hiParsed loParsed =>
                exact absurd ⟨base, _, spelled, .inr ⟨hi, lo, high, low,
                  eq_append_of_splitFirst colon, literal_of_parseInt hiParsed,
                  literal_of_parseInt loParsed⟩⟩ noRange
            · rfl
  · simp only [parseNameAndRange, ne_eq, closed, not_false_eq_true, if_true]

/-- Parsing undoes the printing of a range, and leaves any other text whole. -/
theorem parseNameAndRange_undoes_toString (path : List Char) :
    (∀ range : DriverBitRange, IsInt32 range.left → IsInt32 range.right →
      ∃ parsed, parseNameAndRange (path ++ range.toString) = (path, some parsed) ∧
        parsed.lower = range.lower ∧ parsed.upper = range.upper) ∧
      (¬ EndsInRange path → parseNameAndRange path = (path, none)) := by
  refine ⟨fun range left right => ?_, parseNameAndRange_of_not_endsInRange⟩
  have bounds : IsInt32 range.lower ∧ IsInt32 range.upper := by
    simp only [IsInt32, DriverBitRange.lower, DriverBitRange.upper] at left right ⊢
    omega
  exact parseNameAndRange_append_toString path bounds.1 bounds.2

theorem parseNameAndRange_undoes_toString_example :
    (∃ parsed, parseNameAndRange
        (['u', '[', '3', ']', '.', 'q'] ++ (⟨-2147483648, 7⟩ : DriverBitRange).toString) =
          (['u', '[', '3', ']', '.', 'q'], some parsed) ∧
        parsed.lower = -2147483648 ∧ parsed.upper = 7) ∧
      parseNameAndRange ['u', '[', '3', ']', '.', 'q'] = (['u', '[', '3', ']', '.', 'q'], none) := by
  refine ⟨(parseNameAndRange_undoes_toString _).1 ⟨-2147483648, 7⟩ (by decide) (by decide),
    (parseNameAndRange_undoes_toString _).2 ?_⟩
  rintro ⟨base, inner, spelled, _⟩
  have last := congrArg List.getLast? spelled
  rw [List.getLast?_concat] at last
  exact absurd last (by decide)

end SlangNetlist
