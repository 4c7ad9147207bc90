import Mathlib.Data.List.Forall2
import SlangNetlist.Common.Wildcard

/-!
# The grammar of name patterns

A pattern is read from left to right as a list of tokens.  A recursive wildcard
absorbs the dots next to it, and the matcher accepts the concatenations of
strings that the tokens match.
-/

namespace SlangNetlist

namespace Wildcard

/-- The tokens of a pattern, by the dots that a recursive wildcard absorbs. -/
inductive Token where
  /-- A recursive wildcard, `**` or `...`, between two dots. -/
  | both
  /-- A dot and a recursive wildcard. -/
  | lead
  /-- A recursive wildcard and a dot. -/
  | trail
  /-- A recursive wildcard between other characters. -/
  | alone
  | star
  | question
  | literal (c : Char)
  deriving DecidableEq, Repr

/-- The strings that a token matches. -/
def Token.Matches : Token → List Char → Prop
  | .both, part => part = ['.'] ∨ ∃ middle, part = '.' :: middle ++ ['.']
  | .lead, part => part = [] ∨ ∃ middle, part = '.' :: middle
  | .trail, part => part = [] ∨ ∃ middle, part = middle ++ ['.']
  | .alone, _ => True
  | .star, part => '.' ∉ part
  | .question, part => ∃ c, c ≠ '.' ∧ part = [c]
  | .literal c, part => part = [c]

/-- The pattern behind a recursive wildcard. -/
def dropRecursive (pattern : List Char) : Option (List Char) :=
  (pattern.dropPrefix? ['*', '*']).or (pattern.dropPrefix? ['.', '.', '.'])

/-- The first token of a pattern and the pattern behind it. -/
def nextToken (head : Char) (tail : List Char) : Token × List Char :=
  match if head = '.' then dropRecursive tail else none with
  | some behind =>
      match behind.dropPrefix? ['.'] with
      | some rest => (.both, rest)
      | none => (.lead, behind)
  | none =>
      match dropRecursive (head :: tail) with
      | some behind =>
          match behind.dropPrefix? ['.'] with
          | some rest => (.trail, rest)
          | none => (.alone, behind)
      | none =>
          (if head = '*' then .star else if head = '?' then .question else .literal head, tail)

/-! ## The matcher and the grammar -/

theorem recurLen_cases (p : List Char) :
    (∃ behind, dropRecursive p = some behind ∧
      ∃ length, length ≠ 0 ∧ recurLen p = some length ∧ advance p length = some behind) ∨
    dropRecursive p = none ∧ recurLen p = some 0 := by
  rcases p with _ | ⟨a, _ | ⟨b, _ | ⟨c, rest⟩⟩⟩
  · simp [recurLen, charAt, dropRecursive, List.dropPrefix?, nul]
  · simp [recurLen, charAt, dropRecursive, List.dropPrefix?, nul]
  · by_cases star : a = '*' <;> by_cases second : b = '*' <;> by_cases dot : a = '.' <;>
      simp [recurLen, charAt, dropRecursive, List.dropPrefix?, nul, star, second, dot, advance]
  · by_cases star : a = '*' <;> by_cases second : b = '*' <;> by_cases dot : a = '.' <;>
      by_cases other : b = '.' <;> by_cases third : c = '.' <;>
      simp_all [recurLen, charAt, dropRecursive, List.dropPrefix?, nul, advance]

theorem dot_cases (p : List Char) :
    (∃ rest, p.dropPrefix? ['.'] = some rest ∧ p = '.' :: rest ∧ charAt p 0 = some '.' ∧
      advance p 1 = some rest) ∨
    p.dropPrefix? ['.'] = none ∧ ∃ c, c ≠ '.' ∧ charAt p 0 = some c := by
  rcases p with _ | ⟨c, rest⟩
  · simp [charAt, List.dropPrefix?, nul]
  · by_cases dot : c = '.' <;> simp [charAt, List.dropPrefix?, advance, dot]

/-- The dots that a recursive wildcard absorbs before and behind it. -/
def Token.dots : Token → Option (Bool × Bool)
  | .both => some (true, true)
  | .lead => some (true, false)
  | .trail => some (false, true)
  | .alone => some (false, false)
  | _ => none

theorem leads_eq (head : Char) (tail : List Char) :
    leads (head :: tail) = some (head = '.' && (dropRecursive tail).isSome) := by
  by_cases dot : head = '.'
  · subst dot
    rcases recurLen_cases tail with ⟨behind, found, length, nonzero, measured, _⟩ | ⟨missing, zero⟩
    · simp [leads, charAt, advance, found, measured, nonzero]
    · simp [leads, charAt, advance, missing, zero]
  · simp [leads, charAt, dot]

/-- The recursive wildcard behind the dot that it absorbs, if it absorbs one. -/
theorem detect_of_recursive {pattern p behind : List Char} {hasLead : Bool} {length : Nat}
    (leading : leads pattern = some hasLead)
    (toLead : advance pattern (if hasLead then 1 else 0) = some p)
    (nonzero : length ≠ 0) (measured : recurLen p = some length)
    (moved : advance p length = some behind) :
    detect pattern = some (some (match behind.dropPrefix? ['.'] with
      | some rest => ⟨hasLead, true, rest⟩
      | none => ⟨hasLead, false, behind⟩)) := by
  rcases dot_cases behind with ⟨rest, found, rfl, read, toRest⟩ | ⟨missing, c, other, read⟩
  · simp [detect, leading, toLead, measured, nonzero, moved, found, read, toRest]
  · have stay : advance behind 0 = some behind := by simp [advance]
    simp [detect, leading, toLead, measured, nonzero, moved, missing, read, other, stay]

/-- The matcher detects the recursive wildcards of the tokenisation. -/
theorem detect_eq (head : Char) (tail : List Char) :
    detect (head :: tail) = some ((nextToken head tail).1.dots.map fun dots =>
      ⟨dots.1, dots.2, (nextToken head tail).2⟩) := by
  have leading := leads_eq head tail
  cases behindDot : if head = '.' then dropRecursive tail else none with
  | some behind =>
      split at behindDot
      · next dot =>
          subst dot
          rcases recurLen_cases tail with
            ⟨other, found, length, nonzero, measured, moved⟩ | ⟨missing, _⟩
          · cases behindDot.symm.trans found
            rw [detect_of_recursive leading (by simp [advance, found]) nonzero measured moved]
            simp only [nextToken, found]
            cases dotted : behind.dropPrefix? ['.'] <;> simp [dotted, Token.dots]
          · cases missing.symm.trans behindDot
      · cases behindDot
  | none =>
      have unled : leads (head :: tail) = some false := by
        rw [leading]
        by_cases dot : head = '.' <;> simp_all
      rcases recurLen_cases (head :: tail) with
        ⟨behind, found, length, nonzero, measured, moved⟩ | ⟨missing, zero⟩
      · rw [detect_of_recursive unled (by simp [advance]) nonzero measured moved]
        simp only [nextToken, behindDot, found]
        cases behind.dropPrefix? ['.'] <;> simp [Token.dots]
      · simp only [nextToken, behindDot, missing]
        simp only [detect, unled, Option.bind_eq_bind, Option.bind_some]
        split_ifs <;> simp_all [advance, Token.dots]

/-- A token without a recursive wildcard is one character. -/
theorem nextToken_of_dots {head : Char} {tail : List Char}
    (single : (nextToken head tail).1.dots = none) :
    nextToken head tail =
      (if head = '*' then .star else if head = '?' then .question else .literal head, tail) := by
  unfold nextToken at single ⊢
  split at single
  · split at single <;> cases single
  · split at single
    · split at single <;> cases single
    · rfl

theorem suffix_of_dropPrefix? {p rest word : List Char}
    (dropped : p.dropPrefix? word = some rest) : rest <:+ p := by
  obtain ⟨front, rfl, _⟩ := List.dropPrefix?_eq_some_iff.mp dropped
  exact List.suffix_append _ _

theorem suffix_of_dropRecursive {p behind : List Char} (dropped : dropRecursive p = some behind) :
    behind <:+ p := by
  rcases Option.or_eq_some_iff.mp dropped with stars | ⟨_, dots⟩
  · exact suffix_of_dropPrefix? stars
  · exact suffix_of_dropPrefix? dots

/-- The pattern behind a token is at the end of the pattern. -/
theorem suffix_nextToken (head : Char) (tail : List Char) :
    (nextToken head tail).2 <:+ head :: tail := by
  unfold nextToken
  split
  · next behind found =>
      split at found
      · have inTail := (suffix_of_dropRecursive found).trans (List.suffix_cons head tail)
        split
        · next rest dotted => exact (suffix_of_dropPrefix? dotted).trans inTail
        · exact inTail
      · cases found
  · split
    · next behind found =>
        have inPattern := suffix_of_dropRecursive found
        split
        · next rest dotted => exact (suffix_of_dropPrefix? dotted).trans inPattern
        · exact inPattern
    · exact List.suffix_cons head tail

theorem length_nextToken (head : Char) (tail : List Char) :
    (nextToken head tail).2.length ≤ tail.length := by
  cases detected : (nextToken head tail).1.dots with
  | some dots =>
      have := length_detect (by rw [detect_eq, detected]; rfl :
        detect (head :: tail) = some (some ⟨dots.1, dots.2, (nextToken head tail).2⟩))
      simpa [Nat.lt_succ_iff] using this
  | none => exact Nat.le_of_eq (congrArg (·.2.length) (nextToken_of_dots detected))

/-- The tokens of a pattern from left to right. -/
def tokenise : List Char → List Token
  | [] => []
  | head :: tail => (nextToken head tail).1 :: tokenise (nextToken head tail).2
  termination_by pattern => pattern.length
  decreasing_by
    have := length_nextToken head tail
    simp only [List.length_cons]
    omega

/-- The text is a concatenation of strings that the tokens match. -/
def Accepts (text : List Char) (tokens : List Token) : Prop :=
  ∃ parts, List.Forall₂ Token.Matches tokens parts ∧ text = parts.flatten

theorem accepts_nil {text : List Char} : Accepts text [] ↔ text = [] := by
  simp [Accepts]

theorem accepts_cons {text : List Char} {token : Token} {tokens : List Token} :
    Accepts text (token :: tokens) ↔
      ∃ part back, text = part ++ back ∧ token.Matches part ∧ Accepts back tokens := by
  simp only [Accepts, List.forall₂_cons_left_iff]
  constructor
  · rintro ⟨_, ⟨part, parts, matched, others, rfl⟩, rfl⟩
    exact ⟨part, parts.flatten, rfl, matched, parts, others, rfl⟩
  · rintro ⟨part, _, rfl, matched, parts, others, rfl⟩
    exact ⟨part :: parts, ⟨part, parts, matched, others, rfl⟩, rfl⟩

/-- The result is an answer, and the answer says whether the property holds. -/
def Decides (result : Option Bool) (holds : Prop) : Prop :=
  ∃ answer, result = some answer ∧ (answer = true ↔ holds)

theorem Decides.congr {result : Option Bool} {holds other : Prop} (decides : Decides result holds)
    (same : holds ↔ other) : Decides result other := by
  obtain ⟨answer, found, correct⟩ := decides
  exact ⟨answer, found, correct.trans same⟩

theorem Decides.no {holds : Prop} (fails : ¬ holds) : Decides (some false) holds :=
  ⟨false, rfl, by simpa using fails⟩

/-- Try one match, and then another one. -/
theorem Decides.or {first second : Option Bool} {front back : Prop} (tried : Decides first front)
    (other : Decides second back) :
    Decides (do if ← first then some true else second) (front ∨ back) := by
  obtain ⟨answer, rfl, correct⟩ := tried
  cases answer with
  | true => exact ⟨true, rfl, by simpa using Or.inl (correct.mp rfl)⟩
  | false =>
      have fails : ¬ front := fun holds => absurd (correct.mpr holds) (by simp)
      exact other.congr (by simp [fails])

variable {matchRest : List Char → Option Bool} {Rest : List Char → Prop}

theorem scan_nil (stops : Char → Bool) :
    scan stops matchRest [] = (do if ← matchRest [] then some true else some false) := by
  rw [scan]
  simp [charAt, nul]

theorem scan_cons (stops : Char → Bool) {c : Char} (other : c ≠ nul) (rest : List Char) :
    scan stops matchRest (c :: rest) = (do
      if ← matchRest (c :: rest) then some true
      else if stops c then some false else scan stops matchRest rest) := by
  rw [scan]
  simp [charAt, other, advance]

theorem scanDots_cons {c : Char} (other : c ≠ nul) (rest : List Char) :
    scanDots matchRest (c :: rest) = (do
      if ← (if c = '.' then matchRest rest else some false) then some true
      else scanDots matchRest rest) := by
  rw [scanDots]
  simp [charAt, other, advance]

/-- A scan tries the positions up to the first character that stops it. -/
theorem scan_decides (stops : Char → Bool)
    (tries : ∀ text, nul ∉ text → Decides (matchRest text) (Rest text))
    {text : List Char} (no_nul : nul ∉ text) :
    Decides (scan stops matchRest text)
      (∃ front back, text = front ++ back ∧ (∀ c ∈ front, stops c = false) ∧ Rest back) := by
  induction text with
  | nil =>
      rw [scan_nil]
      refine ((tries [] no_nul).or (Decides.no not_false)).congr ⟨?_, ?_⟩
      · rintro (matched | impossible)
        · exact ⟨[], [], rfl, by simp, matched⟩
        · exact impossible.elim
      · rintro ⟨front, back, split, _, matched⟩
        obtain ⟨rfl, rfl⟩ := List.append_eq_nil_iff.mp split.symm
        exact Or.inl matched
  | cons c rest ih =>
      obtain ⟨other, restNul⟩ := List.ne_and_not_mem_of_not_mem_cons no_nul
      rw [scan_cons stops (Ne.symm other)]
      have later : Decides (if stops c then some false else scan stops matchRest rest)
          (stops c = false ∧ ∃ front back, rest = front ++ back ∧
            (∀ c ∈ front, stops c = false) ∧ Rest back) := by
        cases stopped : stops c with
        | true => exact Decides.no (by simp)
        | false => exact (ih restNul).congr (by simp)
      refine ((tries (c :: rest) no_nul).or later).congr ⟨?_, ?_⟩
      · rintro (matched | ⟨goes, front, back, rfl, passed, matched⟩)
        · exact ⟨[], c :: rest, rfl, by simp, matched⟩
        · exact ⟨c :: front, back, rfl, by simpa [goes] using passed, matched⟩
      · rintro ⟨front, back, split, passed, matched⟩
        cases front with
        | nil => exact Or.inl (split ▸ matched)
        | cons head others =>
            cases split
            exact Or.inr ⟨passed c List.mem_cons_self, others, back, rfl,
              fun c member => passed c (List.mem_cons_of_mem _ member), matched⟩

/-- A scan for dots tries the positions behind them. -/
theorem scanDots_decides (tries : ∀ text, nul ∉ text → Decides (matchRest text) (Rest text))
    {text : List Char} (no_nul : nul ∉ text) :
    Decides (scanDots matchRest text) (∃ front back, text = front ++ '.' :: back ∧ Rest back) := by
  induction text with
  | nil =>
      rw [scanDots]
      exact Decides.no (by simp)
  | cons c rest ih =>
      obtain ⟨other, restNul⟩ := List.ne_and_not_mem_of_not_mem_cons no_nul
      rw [scanDots_cons (Ne.symm other)]
      have here : Decides (if c = '.' then matchRest rest else some false)
          (c = '.' ∧ Rest rest) := by
        by_cases dot : c = '.'
        · rw [if_pos dot]
          exact (tries rest restNul).congr (by simp [dot])
        · rw [if_neg dot]
          exact Decides.no fun both => dot both.1
      refine (here.or (ih restNul)).congr ⟨?_, ?_⟩
      · rintro (⟨rfl, matched⟩ | ⟨front, back, rfl, matched⟩)
        · exact ⟨[], rest, rfl, matched⟩
        · exact ⟨c :: front, back, rfl, matched⟩
      · rintro ⟨front, back, split, matched⟩
        cases front with
        | nil =>
            cases split
            exact Or.inl ⟨rfl, matched⟩
        | cons head others =>
            cases split
            exact Or.inr ⟨others, back, rfl, matched⟩

/-- Go on behind a dot. -/
theorem Decides.behindDot {next : List Char → Option Bool} {Next : List Char → Prop}
    (goesOn : ∀ rest, nul ∉ rest → Decides (next rest) (Next rest)) {text : List Char}
    (no_nul : nul ∉ text) :
    Decides (do
        if (← charAt text 0) ≠ '.' then some false
        else
          let text ← advance text 1
          next text)
      (∃ rest, text = '.' :: rest ∧ Next rest) := by
  cases text with
  | nil => exact Decides.no (by simp)
  | cons c rest =>
      by_cases dot : c = '.'
      · subst dot
        have restNul := (List.ne_and_not_mem_of_not_mem_cons no_nul).2
        simpa [charAt, advance] using goesOn rest restNul
      · simpa [charAt, dot] using Decides.no (id : ¬ False)

/-- The branches for a recursive wildcard try what its token matches. -/
theorem matchRecursive_decides {token : Token} {dots : Bool × Bool} (rest : List Char)
    (recursive : token.dots = some dots)
    (tries : ∀ text, nul ∉ text → Decides (matchRest text) (Rest text))
    {text : List Char} (no_nul : nul ∉ text) :
    Decides (matchRecursive ⟨dots.1, dots.2, rest⟩ matchRest text)
      (∃ part back, text = part ++ back ∧ token.Matches part ∧ Rest back) := by
  cases token with
  | both =>
      cases recursive
      have decides := Decides.behindDot
        (fun rest restNul => (tries rest restNul).or (scanDots_decides tries restNul)) no_nul
      refine decides.congr ⟨?_, ?_⟩
      · rintro ⟨rest, rfl, matched | ⟨front, back, rfl, matched⟩⟩
        · exact ⟨['.'], rest, rfl, Or.inl rfl, matched⟩
        · exact ⟨'.' :: front ++ ['.'], back, by simp, Or.inr ⟨front, rfl⟩, matched⟩
      · rintro ⟨part, back, rfl, rfl | ⟨front, rfl⟩, matched⟩
        · exact ⟨back, rfl, Or.inl matched⟩
        · exact ⟨front ++ '.' :: back, by simp, Or.inr ⟨front, back, rfl, matched⟩⟩
  | lead =>
      cases recursive
      have decides := (tries text no_nul).or (Decides.behindDot
        (fun rest restNul => scan_decides (fun _ => false) tries restNul) no_nul)
      refine decides.congr ⟨?_, ?_⟩
      · rintro (matched | ⟨_, rfl, front, back, rfl, _, matched⟩)
        · exact ⟨[], text, rfl, Or.inl rfl, matched⟩
        · exact ⟨'.' :: front, back, rfl, Or.inr ⟨front, rfl⟩, matched⟩
      · rintro ⟨part, back, rfl, rfl | ⟨front, rfl⟩, matched⟩
        · exact Or.inl matched
        · exact Or.inr ⟨front ++ back, rfl, front, back, rfl, fun _ _ => rfl, matched⟩
  | trail =>
      cases recursive
      refine ((tries text no_nul).or (scanDots_decides tries no_nul)).congr ⟨?_, ?_⟩
      · rintro (matched | ⟨front, back, rfl, matched⟩)
        · exact ⟨[], text, rfl, Or.inl rfl, matched⟩
        · exact ⟨front ++ ['.'], back, by simp, Or.inr ⟨front, rfl⟩, matched⟩
      · rintro ⟨part, back, rfl, rfl | ⟨front, rfl⟩, matched⟩
        · exact Or.inl matched
        · exact Or.inr ⟨front, back, by simp, matched⟩
  | alone =>
      cases recursive
      refine (scan_decides _ tries no_nul).congr ⟨?_, ?_⟩
      · rintro ⟨front, back, split, _, matched⟩
        exact ⟨front, back, split, trivial, matched⟩
      · rintro ⟨front, back, split, _, matched⟩
        exact ⟨front, back, split, fun _ _ => rfl, matched⟩
  | star | question | literal => cases recursive

/-- The single characters and the star of a pattern. -/
theorem matchSingle_decides {head : Char} {tail : List Char}
    (tries : ∀ text, nul ∉ text → Decides (wildcardMatch text tail) (Rest text))
    {text : List Char} (no_nul : nul ∉ text) (headNul : head ≠ nul)
    (missed : detect (head :: tail) = some none) :
    Decides (wildcardMatch text (head :: tail)) (∃ part back, text = part ++ back ∧
      (if head = '*' then Token.star else if head = '?' then .question else .literal head).Matches
        part ∧ Rest back) := by
  rw [wildcardMatch]
  split
  · next failed => cases failed.symm.trans missed
  · next found => cases found.symm.trans missed
  · by_cases star : head = '*'
    · rw [if_pos star, if_pos star]
      refine (scan_decides _ tries no_nul).congr ⟨?_, ?_⟩
      · rintro ⟨front, back, rfl, passed, matched⟩
        exact ⟨front, back, rfl, fun member => by simpa using passed _ member, matched⟩
      · rintro ⟨front, back, rfl, passed, matched⟩
        refine ⟨front, back, rfl, fun c member => ?_, matched⟩
        simpa using fun same : c = '.' => passed (same ▸ member)
    · rw [if_neg star, if_neg star]
      by_cases question : head = '?'
      · rw [if_pos question, if_pos question]
        cases text with
        | nil => simpa [charAt, Token.Matches] using Decides.no (id : ¬ False)
        | cons c rest =>
            obtain ⟨other, restNul⟩ := List.ne_and_not_mem_of_not_mem_cons no_nul
            by_cases dot : c = '.'
            · simpa [charAt, Token.Matches, dot] using Decides.no (id : ¬ False)
            · simpa [charAt, advance, Token.Matches, dot, Ne.symm other] using tries rest restNul
      · rw [if_neg question, if_neg question]
        cases text with
        | nil => simpa [charAt, Token.Matches, headNul] using Decides.no (id : ¬ False)
        | cons c rest =>
            have restNul := (List.ne_and_not_mem_of_not_mem_cons no_nul).2
            by_cases same : head = c
            · simpa [charAt, advance, Token.Matches, same] using tries rest restNul
            · simpa [charAt, Token.Matches, same, Ne.symm same] using Decides.no (id : ¬ False)

/-- The matcher answers for every text, and accepts what the tokens of the pattern match. -/
theorem wildcardMatch_decides (pattern : List Char) (patternNul : nul ∉ pattern)
    {text : List Char} (no_nul : nul ∉ text) :
    Decides (wildcardMatch text pattern) (Accepts text (tokenise pattern)) := by
  induction size : pattern.length using Nat.strongRecOn generalizing pattern text with
  | ind size ih =>
      subst size
      cases pattern with
      | nil =>
          rw [wildcardMatch, tokenise]
          cases text with
          | nil => exact ⟨_, rfl, by simp [accepts_nil]⟩
          | cons c rest =>
              have other := (List.ne_and_not_mem_of_not_mem_cons no_nul).1
              exact ⟨_, rfl, by simp [accepts_nil, Ne.symm other]⟩
      | cons head tail =>
          rw [tokenise]
          simp only [accepts_cons]
          have tries : ∀ text, nul ∉ text →
              Decides (wildcardMatch text (nextToken head tail).2)
                (Accepts text (tokenise (nextToken head tail).2)) :=
            fun text textNul => ih _ (Nat.lt_succ_of_le (length_nextToken head tail)) _
              (fun member => patternNul ((suffix_nextToken head tail).subset member)) textNul rfl
          have detected := detect_eq head tail
          cases recursive : (nextToken head tail).1.dots with
          | some dots =>
              rw [recursive, Option.map_some] at detected
              rw [wildcardMatch]
              split
              · next failed => cases failed.symm.trans detected
              · next found =>
                  cases found.symm.trans detected
                  exact matchRecursive_decides _ recursive tries no_nul
              · next found => cases found.symm.trans detected
          | none =>
              rw [recursive, Option.map_none] at detected
              have single := nextToken_of_dots recursive
              rw [single] at tries ⊢
              exact matchSingle_decides tries no_nul
                (List.ne_and_not_mem_of_not_mem_cons patternNul).1.symm detected

/--
For every text and every pattern the matcher ends without reading past a
terminating NUL, and it accepts exactly the texts that are a concatenation of
strings that the tokens of the pattern match.
-/
theorem wildcardMatch_iff (text pattern : CString) :
    ∃ answer, wildcardMatch text.chars pattern.chars = some answer ∧
      (answer = true ↔ Accepts text.chars (tokenise pattern.chars)) :=
  wildcardMatch_decides pattern.chars pattern.no_nul text.no_nul

example : tokenise ['a', '.', '*', '*', '.', '?', '*', '*'] =
    [.literal 'a', .both, .question, .alone] := by
  simp [tokenise, nextToken, dropRecursive, List.dropPrefix?]

end Wildcard

end SlangNetlist
