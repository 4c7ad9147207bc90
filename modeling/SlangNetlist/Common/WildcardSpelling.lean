import SlangNetlist.Common.WildcardGrammar

/-!
# The spellings of the recursive wildcard

A recursive wildcard is spelled by two stars or by three dots.  The tokens of a
pattern with their spellings give the pattern back, and a pattern in which some
wildcards are respelled by dots has the same tokens as long as no dot is drawn
into another token.
-/

namespace SlangNetlist

namespace Wildcard

/-- A token and, for a recursive wildcard, whether dots spell it. -/
structure SpelledToken where
  token : Token
  byDots : Bool := false
  deriving DecidableEq, Repr

/-- A recursive wildcard without the dots that it absorbs. -/
def recursiveText (byDots : Bool) : List Char := if byDots then ['.', '.', '.'] else ['*', '*']

def SpelledToken.text (spelled : SpelledToken) : List Char :=
  match spelled.token with
  | .both => '.' :: recursiveText spelled.byDots ++ ['.']
  | .lead => '.' :: recursiveText spelled.byDots
  | .trail => recursiveText spelled.byDots ++ ['.']
  | .alone => recursiveText spelled.byDots
  | .star => ['*']
  | .question => ['?']
  | .literal c => [c]

/-- The pattern that spelled tokens make up. -/
def spell (tokens : List SpelledToken) : List Char := tokens.flatMap SpelledToken.text

/-- The first token of a pattern with its spelling. -/
def readToken (head : Char) (tail : List Char) : SpelledToken × List Char :=
  let (token, rest) := nextToken head tail
  let byDots : Bool :=
    match token with
    | .both | .lead => tail.head? = some '.'
    | .trail | .alone => head = '.'
    | _ => false
  (⟨token, byDots⟩, rest)

/-- The tokens of a pattern with their spellings. -/
def readTokens : List Char → List SpelledToken
  | [] => []
  | head :: tail => (readToken head tail).1 :: readTokens (readToken head tail).2
  termination_by pattern => pattern.length
  decreasing_by
    have := length_nextToken head tail
    simp only [readToken, List.length_cons]
    omega

/-- Spell the recursive wildcards at some positions by dots. -/
def replaceStars (chosen : Nat → Bool) : List SpelledToken → List SpelledToken
  | [] => []
  | spelled :: rest =>
      { spelled with byDots := spelled.byDots || chosen 0 } ::
        replaceStars (fun position => chosen (position + 1)) rest

/-- The dots of a respelled wildcard stay apart from the token before it. -/
def StaysApart (before : Option Token) : Token → Prop
  | .trail => False
  | .both | .lead => before ≠ some (.literal '.')
  | .alone => before ≠ some .lead ∧ before ≠ some .alone
  | _ => True

/--
No chosen wildcard of two stars absorbs a dot behind it only; one that absorbs a
dot before it is not behind another dot, and one that absorbs none is not behind
a wildcard that absorbs no dot behind it.
-/
def Unambiguous (before : Option Token) (chosen : Nat → Bool) : List SpelledToken → Prop
  | [] => True
  | spelled :: rest =>
      (chosen 0 = true → spelled.byDots = false → StaysApart before spelled.token) ∧
        Unambiguous (some spelled.token) (fun position => chosen (position + 1)) rest

/-! ## Reading a token -/

/-- What may follow a token without changing how it is read. -/
def NoClash (spelled : SpelledToken) (rest : List Char) : Prop :=
  match spelled.token with
  | .lead | .alone => rest.head? ≠ some '.'
  | .trail => spelled.byDots = false
  | .star => rest.head? ≠ some '*'
  | .literal c => c ≠ '*' ∧ c ≠ '?' ∧
      (c = '.' → ¬ ['*', '*'] <+: rest ∧ ¬ ['.', '.'] <+: rest)
  | _ => True

theorem dropRecursive_eq_some {p behind : List Char} : dropRecursive p = some behind ↔
    p = '*' :: '*' :: behind ∨ p = '.' :: '.' :: '.' :: behind := by
  rcases p with _ | ⟨a, _ | ⟨b, _ | ⟨c, rest⟩⟩⟩ <;> simp [dropRecursive, List.dropPrefix?]
  grind

theorem dropRecursive_eq_none {p : List Char} : dropRecursive p = none ↔
    ¬ ['*', '*'] <+: p ∧ ¬ ['.', '.', '.'] <+: p := by
  rcases p with _ | ⟨a, _ | ⟨b, _ | ⟨c, rest⟩⟩⟩ <;> simp [dropRecursive, List.dropPrefix?]
  · grind
  · grind

theorem dropDot_eq {p : List Char} : p.dropPrefix? ['.'] =
    if p.head? = some '.' then some p.tail else none := by
  cases p with
  | nil => rfl
  | cons c rest => by_cases dot : c = '.' <;> simp [List.dropPrefix?, dot]

theorem dropRecursive_recursiveText (byDots : Bool) (rest : List Char) :
    dropRecursive (recursiveText byDots ++ rest) = some rest := by
  cases byDots <;> simp [dropRecursive_eq_some, recursiveText]

variable {spelled : SpelledToken} {head : Char} {tail rest : List Char}

/-- A token of one character: no recursive wildcard is there or behind a dot. -/
theorem single_iff : (nextToken head tail).1.dots = none ↔
    (head = '.' → dropRecursive tail = none) ∧ dropRecursive (head :: tail) = none := by
  unfold nextToken
  cases lead : if head = '.' then dropRecursive tail else none with
  | some behind =>
      have found : head = '.' ∧ dropRecursive tail = some behind := by
        simpa only [Option.ite_none_right_eq_some] using lead
      simp only [dropDot_eq]
      split_ifs <;> simp [Token.dots, found]
  | none =>
      have noLead : head = '.' → dropRecursive tail = none := by
        intro dot
        simpa only [dot, if_true] using lead
      cases whole : dropRecursive (head :: tail) with
      | some behind => simp only [dropDot_eq]; split_ifs <;> simp [Token.dots]
      | none => split_ifs <;> simp_all [Token.dots]

/-- A token that does not clash with what follows is read, and what follows is left. -/
theorem nextToken_of_noClash (noClash : NoClash spelled rest)
    (split : spelled.text ++ rest = head :: tail) :
    nextToken head tail = (spelled.token, rest) := by
  obtain ⟨token, byDots⟩ := spelled
  cases token with
  | both =>
      obtain ⟨rfl, rfl⟩ : '.' = head ∧ recursiveText byDots ++ '.' :: rest = tail := by
        simpa [SpelledToken.text] using split
      simp [nextToken, dropRecursive_recursiveText, dropDot_eq]
  | lead =>
      obtain ⟨rfl, rfl⟩ : '.' = head ∧ recursiveText byDots ++ rest = tail := by
        simpa [SpelledToken.text] using split
      have apart : rest.head? ≠ some '.' := noClash
      simp [nextToken, dropRecursive_recursiveText, dropDot_eq, apart]
  | trail =>
      obtain rfl : byDots = false := noClash
      obtain ⟨rfl, rfl⟩ : '*' = head ∧ '*' :: '.' :: rest = tail := by
        simpa [SpelledToken.text, recursiveText] using split
      simp [nextToken, dropRecursive, List.dropPrefix?]
  | alone =>
      have apart : rest.head? ≠ some '.' := noClash
      have whole : dropRecursive (head :: tail) = some rest := by
        rw [← split]
        exact dropRecursive_recursiveText byDots rest
      have noLead : (if head = '.' then dropRecursive tail else none) = none := by
        cases byDots with
        | false =>
            obtain ⟨rfl, rfl⟩ : '*' = head ∧ '*' :: rest = tail := by
              simpa [SpelledToken.text, recursiveText] using split
            rfl
        | true =>
            obtain ⟨rfl, rfl⟩ : '.' = head ∧ '.' :: '.' :: rest = tail := by
              simpa [SpelledToken.text, recursiveText] using split
            rw [if_pos rfl, dropRecursive_eq_none]
            cases rest with
            | nil => decide
            | cons c rest => simpa [eq_comm] using apart
      simp [nextToken, noLead, whole, dropDot_eq, apart]
  | star =>
      obtain ⟨rfl, rfl⟩ : '*' = head ∧ rest = tail := by simpa [SpelledToken.text] using split
      have apart : rest.head? ≠ some '*' := noClash
      refine nextToken_of_dots (single_iff.mpr
        ⟨fun isDot => absurd isDot (by decide), dropRecursive_eq_none.mpr ?_⟩)
      cases rest with
      | nil => decide
      | cons c rest => simpa [eq_comm] using apart
  | question =>
      obtain ⟨rfl, rfl⟩ : '?' = head ∧ rest = tail := by simpa [SpelledToken.text] using split
      refine nextToken_of_dots (single_iff.mpr
        ⟨fun isDot => absurd isDot (by decide), dropRecursive_eq_none.mpr ?_⟩)
      simp
  | literal c =>
      obtain ⟨rfl, rfl⟩ : c = head ∧ rest = tail := by simpa [SpelledToken.text] using split
      obtain ⟨notStar, notQuestion, apart⟩ :
        c ≠ '*' ∧ c ≠ '?' ∧ (c = '.' → ¬ ['*', '*'] <+: rest ∧ ¬ ['.', '.'] <+: rest) := noClash
      rw [nextToken_of_dots, if_neg notStar, if_neg notQuestion]
      refine single_iff.mpr ⟨fun dot => dropRecursive_eq_none.mpr ⟨(apart dot).1, ?_⟩,
        dropRecursive_eq_none.mpr ⟨?_, ?_⟩⟩
      · exact fun dots => (apart dot).2 (.trans ⟨['.'], rfl⟩ dots)
      · simp [Ne.symm notStar]
      · rw [List.cons_prefix_cons]
        rintro ⟨rfl, dots⟩
        exact (apart rfl).2 dots

/-- A token that is read does not clash with what follows. -/
theorem noClash_of_token (split : spelled.text ++ rest = head :: tail)
    (read : (nextToken head tail).1 = spelled.token) : NoClash spelled rest := by
  obtain ⟨token, byDots⟩ := spelled
  cases token with
  | both => trivial
  | lead =>
      obtain ⟨rfl, rfl⟩ : '.' = head ∧ recursiveText byDots ++ rest = tail := by
        simpa [SpelledToken.text] using split
      intro dot
      simp [nextToken, dropRecursive_recursiveText, dropDot_eq, dot] at read
  | trail =>
      by_contra spelledByDots
      obtain rfl : byDots = true := by simpa [NoClash] using spelledByDots
      obtain ⟨rfl, rfl⟩ : '.' = head ∧ recursiveText true ++ rest = tail := by
        simpa [SpelledToken.text, recursiveText] using split
      simp only [nextToken, if_true, dropRecursive_recursiveText, dropDot_eq] at read
      split_ifs at read
  | alone =>
      intro dot
      cases byDots with
      | false =>
          obtain ⟨rfl, rfl⟩ : '*' = head ∧ '*' :: rest = tail := by
            simpa [SpelledToken.text, recursiveText] using split
          have whole : dropRecursive ('*' :: '*' :: rest) = some rest :=
            dropRecursive_recursiveText false rest
          simp [nextToken, whole, dropDot_eq, dot] at read
      | true =>
          obtain ⟨rfl, rfl⟩ : '.' = head ∧ '.' :: '.' :: rest = tail := by
            simpa [SpelledToken.text, recursiveText] using split
          obtain ⟨rest, rfl⟩ := List.head?_eq_some_iff.mp dot
          have lead : dropRecursive ('.' :: '.' :: '.' :: rest) = some rest :=
            dropRecursive_recursiveText true rest
          simp only [nextToken, if_true, lead, dropDot_eq] at read
          split_ifs at read
  | star =>
      obtain ⟨rfl, rfl⟩ : '*' = head ∧ rest = tail := by simpa [SpelledToken.text] using split
      intro star
      obtain ⟨rest, rfl⟩ := List.head?_eq_some_iff.mp star
      have single := (single_iff.mp (congrArg Token.dots read)).2
      exact absurd single (by simp [dropRecursive_eq_none])
  | question => trivial
  | literal c =>
      obtain ⟨rfl, rfl⟩ : c = head ∧ rest = tail := by simpa [SpelledToken.text] using split
      have single := congrArg Token.dots read
      obtain ⟨noLead, whole⟩ := single_iff.mp single
      rw [nextToken_of_dots single] at read
      refine ⟨?_, ?_, fun dot => ⟨(dropRecursive_eq_none.mp (noLead dot)).1, fun dots => ?_⟩⟩
      · rintro rfl
        simp at read
      · rintro rfl
        simp at read
      · refine (dropRecursive_eq_none.mp whole).2 ?_
        rw [dot]
        exact List.cons_prefix_cons.mpr ⟨rfl, dots⟩

/-! ## Reading a pattern -/

/-- A recursive wildcard is spelled as its first character says. -/
theorem eq_recursiveText {p behind : List Char} (found : dropRecursive p = some behind) :
    p = recursiveText (p.head? = some '.') ++ behind := by
  rcases dropRecursive_eq_some.mp found with rfl | rfl <;> simp [recursiveText]

/-- A dot that is absorbed, or none. -/
theorem eq_dot_cons {p : List Char} (dot : p.head? = some '.') : p = '.' :: p.tail := by
  obtain ⟨rest, rfl⟩ := List.head?_eq_some_iff.mp dot
  rfl

theorem text_readToken (head : Char) (tail : List Char) :
    (readToken head tail).1.text ++ (readToken head tail).2 = head :: tail := by
  cases single : (nextToken head tail).1.dots with
  | none =>
      simp only [readToken, nextToken_of_dots single]
      by_cases star : head = '*'
      · simp [star, SpelledToken.text]
      · by_cases question : head = '?' <;> simp [star, question, SpelledToken.text]
  | some dots =>
      cases lead : if head = '.' then dropRecursive tail else none with
      | some behind =>
          obtain ⟨rfl, found⟩ : head = '.' ∧ dropRecursive tail = some behind := by
            simpa only [Option.ite_none_right_eq_some] using lead
          have spelling := eq_recursiveText found
          by_cases dot : behind.head? = some '.'
          · have absorbed := eq_dot_cons dot
            rw [absorbed] at spelling
            simp [readToken, nextToken, found, dropDot_eq, dot, SpelledToken.text, ← spelling]
          · simp [readToken, nextToken, found, dropDot_eq, dot, SpelledToken.text, ← spelling]
      | none =>
          cases whole : dropRecursive (head :: tail) with
          | some behind =>
              have spelling := eq_recursiveText whole
              simp only [List.head?_cons, Option.some.injEq] at spelling
              by_cases dot : behind.head? = some '.'
              · have absorbed := eq_dot_cons dot
                rw [absorbed] at spelling
                simp [readToken, nextToken, lead, whole, dropDot_eq, dot, SpelledToken.text,
                  ← spelling]
              · simp [readToken, nextToken, lead, whole, dropDot_eq, dot, SpelledToken.text,
                  ← spelling]
          | none =>
              have isSingle : (nextToken head tail).1.dots = none :=
                single_iff.mpr ⟨fun dot => by simpa [dot] using lead, whole⟩
              cases isSingle.symm.trans single

theorem spell_readTokens (pattern : List Char) : spell (readTokens pattern) = pattern := by
  fun_induction readTokens pattern with
  | case1 => rfl
  | case2 head tail ih =>
      rw [spell, List.flatMap_cons, ← spell, ih, text_readToken]

/-- Every token is read before what the later tokens spell. -/
def Readable : List SpelledToken → Prop
  | [] => True
  | spelled :: rest => NoClash spelled (spell rest) ∧ Readable rest

theorem readable_readTokens (pattern : List Char) : Readable (readTokens pattern) := by
  fun_induction readTokens pattern with
  | case1 => trivial
  | case2 head tail ih =>
      refine ⟨?_, ih⟩
      rw [spell_readTokens]
      exact noClash_of_token (text_readToken head tail) rfl

theorem text_ne_nil (spelled : SpelledToken) : ∃ head tail, spelled.text = head :: tail := by
  obtain ⟨token, byDots⟩ := spelled
  cases token <;> cases byDots <;> simp [SpelledToken.text, recursiveText]

/-- Spelled tokens are the tokens of what they spell exactly if each is read there. -/
theorem tokenise_spell_iff (tokens : List SpelledToken) :
    tokenise (spell tokens) = tokens.map SpelledToken.token ↔ Readable tokens := by
  induction tokens with
  | nil => simp [spell, tokenise, Readable]
  | cons spelled rest ih =>
      obtain ⟨head, tail, text⟩ := text_ne_nil spelled
      have split : spelled.text ++ spell rest = head :: (tail ++ spell rest) := by rw [text]; rfl
      have whole : spell (spelled :: rest) = head :: (tail ++ spell rest) := split
      rw [whole, tokenise, List.map_cons, List.cons.injEq, Readable, ← ih]
      constructor
      · rintro ⟨read, others⟩
        have noClash := noClash_of_token split read
        rw [nextToken_of_noClash noClash split] at others
        exact ⟨noClash, others⟩
      · rintro ⟨noClash, others⟩
        rw [nextToken_of_noClash noClash split]
        exact ⟨rfl, others⟩

theorem tokenise_eq (pattern : List Char) :
    tokenise pattern = (readTokens pattern).map SpelledToken.token := by
  have read := (tokenise_spell_iff (readTokens pattern)).mpr (readable_readTokens pattern)
  rwa [spell_readTokens] at read

/-! ## Respelled patterns -/

theorem map_token_replaceStars (chosen : Nat → Bool) (tokens : List SpelledToken) :
    (replaceStars chosen tokens).map SpelledToken.token = tokens.map SpelledToken.token := by
  induction tokens generalizing chosen with
  | nil => rfl
  | cons spelled rest ih => simp only [replaceStars, List.map_cons, ih]

theorem spell_cons (spelled : SpelledToken) (rest : List SpelledToken) :
    spell (spelled :: rest) = spelled.text ++ spell rest :=
  List.flatMap_cons

/-- The first character of a token. -/
def SpelledToken.first (spelled : SpelledToken) : Char :=
  match spelled.token with
  | .both | .lead => '.'
  | .trail | .alone => if spelled.byDots then '.' else '*'
  | .star => '*'
  | .question => '?'
  | .literal c => c

theorem head_spell_cons (spelled : SpelledToken) (rest : List SpelledToken) :
    (spell (spelled :: rest)).head? = some spelled.first := by
  obtain ⟨token, byDots⟩ := spelled
  rw [spell_cons]
  cases token <;> cases byDots <;> rfl

variable {tokens : List SpelledToken} {chosen : Nat → Bool} {before : Option Token}

/-- No pattern begins with a star only after respelling. -/
theorem head_star_of_replaceStars
    (star : (spell (replaceStars chosen tokens)).head? = some '*') :
    (spell tokens).head? = some '*' := by
  cases tokens with
  | nil => exact star
  | cons spelled rest =>
      obtain ⟨token, byDots⟩ := spelled
      rw [replaceStars, head_spell_cons, Option.some.injEq] at star
      rw [head_spell_cons, Option.some.injEq]
      cases byDots <;> cases token <;> simp_all [SpelledToken.first]

/-- A pattern begins with a dot only after respelling if two stars without a dot become dots. -/
theorem of_head_dot_replaceStars (noDot : (spell tokens).head? ≠ some '.')
    (dot : (spell (replaceStars chosen tokens)).head? = some '.') :
    ∃ token rest, tokens = ⟨token, false⟩ :: rest ∧ (token = .trail ∨ token = .alone) ∧
      chosen 0 = true := by
  cases tokens with
  | nil => cases dot
  | cons spelled rest =>
      obtain ⟨token, byDots⟩ := spelled
      rw [replaceStars, head_spell_cons, Option.some.injEq] at dot
      rw [head_spell_cons, ne_eq, Option.some.injEq] at noDot
      cases byDots <;> cases token <;> simp_all [SpelledToken.first]

/-- A wildcard that absorbs no dot behind it draws none in. -/
theorem no_dot_of_unambiguous (absorbsNone : before = some .lead ∨ before = some .alone)
    (unambiguous : Unambiguous before chosen tokens) (noDot : (spell tokens).head? ≠ some '.') :
    (spell (replaceStars chosen tokens)).head? ≠ some '.' := by
  intro dot
  obtain ⟨token, rest, rfl, rfl | rfl, isChosen⟩ := of_head_dot_replaceStars noDot dot
  · exact unambiguous.1 isChosen rfl
  · obtain ⟨notLead, notAlone⟩ := unambiguous.1 isChosen rfl
    exact absorbsNone.elim notLead notAlone

theorem pair_prefix_cons {a b c : Char} {rest : List Char} :
    [a, b] <+: c :: rest ↔ a = c ∧ rest.head? = some b := by
  cases rest <;> simp [List.cons_prefix_cons, eq_comm]

/-- Two stars or two dots begin a pattern after respelling only if they did so before. -/
theorem no_pair_of_unambiguous (readable : Readable tokens)
    (unambiguous : Unambiguous (some (.literal '.')) chosen tokens)
    (noStars : ¬ ['*', '*'] <+: spell tokens) (noDots : ¬ ['.', '.'] <+: spell tokens) :
    ¬ ['*', '*'] <+: spell (replaceStars chosen tokens) ∧
      ¬ ['.', '.'] <+: spell (replaceStars chosen tokens) := by
  cases tokens with
  | nil => exact ⟨noStars, noDots⟩
  | cons spelled rest =>
      obtain ⟨token, byDots⟩ := spelled
      obtain ⟨noClash, _⟩ := readable
      obtain ⟨apart, _⟩ := unambiguous
      rw [spell_cons] at noStars noDots
      rw [replaceStars, spell_cons]
      cases token with
      | both | lead =>
          cases byDots with
          | true => simp [SpelledToken.text, recursiveText] at noDots
          | false =>
              cases isChosen : chosen 0 with
              | true => exact absurd rfl (apart isChosen rfl)
              | false => simp [SpelledToken.text, recursiveText]
      | trail | alone =>
          cases byDots with
          | true => simp [SpelledToken.text, recursiveText] at noDots
          | false => simp [SpelledToken.text, recursiveText] at noStars
      | star =>
          have noStar : (spell rest).head? ≠ some '*' := noClash
          simp only [SpelledToken.text, List.cons_append, List.nil_append, pair_prefix_cons,
            true_and, Char.reduceEq, false_and, not_false_eq_true, and_true]
          exact fun star => noStar (head_star_of_replaceStars star)
      | question => simp [SpelledToken.text]
      | literal c =>
          obtain ⟨notStar, _, inner⟩ :
            c ≠ '*' ∧ c ≠ '?' ∧ (c = '.' → ¬ ['*', '*'] <+: spell rest ∧ ¬ _) := noClash
          simp only [SpelledToken.text, List.cons_append, List.nil_append, pair_prefix_cons,
            not_and] at noDots ⊢
          refine ⟨fun star => absurd star.symm notStar, fun isDot dot => ?_⟩
          obtain ⟨token, others, rfl, recursive, _⟩ := of_head_dot_replaceStars (noDots isDot) dot
          refine (inner isDot.symm).1 ?_
          rcases recursive with rfl | rfl <;>
            simp [spell_cons, SpelledToken.text, recursiveText]

/-- A respelled token clashes with no respelled token behind it. -/
theorem noClash_replaceStars {spelled : SpelledToken} (noClash : NoClash spelled (spell tokens))
    (apart : chosen 0 = true → spelled.byDots = false → StaysApart before spelled.token)
    {later : Nat → Bool} (readable : Readable tokens)
    (unambiguous : Unambiguous (some spelled.token) later tokens) :
    NoClash { spelled with byDots := spelled.byDots || chosen 0 }
      (spell (replaceStars later tokens)) := by
  obtain ⟨token, byDots⟩ := spelled
  cases token with
  | both | question => trivial
  | lead => exact no_dot_of_unambiguous (.inl rfl) unambiguous noClash
  | alone => exact no_dot_of_unambiguous (.inr rfl) unambiguous noClash
  | trail =>
      have byStars : byDots = false := noClash
      cases isChosen : chosen 0 with
      | true => exact (apart isChosen byStars).elim
      | false => simpa [NoClash] using byStars
  | star => exact fun star => noClash (head_star_of_replaceStars star)
  | literal c =>
      obtain ⟨notStar, notQuestion, pairs⟩ := noClash
      refine ⟨notStar, notQuestion, ?_⟩
      rintro rfl
      exact no_pair_of_unambiguous readable unambiguous (pairs rfl).1 (pairs rfl).2

theorem readable_replaceStars (readable : Readable tokens)
    (unambiguous : Unambiguous before chosen tokens) : Readable (replaceStars chosen tokens) := by
  induction tokens generalizing before chosen with
  | nil => trivial
  | cons spelled rest ih =>
      exact ⟨noClash_replaceStars readable.1 unambiguous.1 readable.2 unambiguous.2,
        ih readable.2 unambiguous.2⟩

/-- The token before does not clash with the respelled tokens. -/
def Follows (before : Option Token) (pattern : List Char) : Prop :=
  ∀ token, before = some token → ∃ byDots, NoClash ⟨token, byDots⟩ pattern

theorem unambiguous_of_readable (follows : Follows before (spell (replaceStars chosen tokens)))
    (readable : Readable (replaceStars chosen tokens)) : Unambiguous before chosen tokens := by
  induction tokens generalizing before chosen with
  | nil => trivial
  | cons spelled rest ih =>
      obtain ⟨noClash, readable⟩ := readable
      refine ⟨fun isChosen byStars => ?_, ih ?_ readable⟩
      · obtain ⟨token, byDots⟩ := spelled
        subst byStars
        simp only [replaceStars, isChosen, Bool.or_true, spell_cons] at follows noClash
        cases token with
        | trail => exact Bool.noConfusion noClash
        | both | lead =>
            rintro rfl
            obtain ⟨_, _, _, pairs⟩ := follows _ rfl
            exact (pairs rfl).2 (by simp [SpelledToken.text, recursiveText])
        | alone =>
            constructor
            all_goals
              rintro rfl
              obtain ⟨_, apart⟩ := follows _ rfl
              exact apart (by simp [SpelledToken.text, recursiveText])
        | _ => trivial
      · intro token same
        obtain rfl := Option.some.inj same
        exact ⟨_, noClash⟩

/-- Respelling keeps the tokens exactly if no dot is drawn into another token. -/
theorem unambiguous_iff (pattern : List Char) (chosen : Nat → Bool) :
    Unambiguous none chosen (readTokens pattern) ↔
      tokenise (spell (replaceStars chosen (readTokens pattern))) = tokenise pattern := by
  rw [tokenise_eq pattern, ← map_token_replaceStars chosen, tokenise_spell_iff]
  exact ⟨readable_replaceStars (readable_readTokens pattern),
    unambiguous_of_readable fun _ none => nomatch none⟩

theorem mem_spell_replaceStars {c : Char} (member : c ∈ spell (replaceStars chosen tokens)) :
    c = '.' ∨ c ∈ spell tokens := by
  induction tokens generalizing chosen with
  | nil => exact .inr member
  | cons spelled rest ih =>
      obtain ⟨token, byDots⟩ := spelled
      rw [replaceStars, spell_cons, List.mem_append] at member
      rw [spell_cons, List.mem_append]
      rcases member with inText | inRest
      · refine or_assoc.mp (.inl ?_)
        cases byDots <;> cases token <;> cases isChosen : chosen 0 <;>
          simp_all [SpelledToken.text, recursiveText]
      · exact (ih inRest).imp_right .inr

/-- A pattern with the chosen wildcards of two stars spelled by dots. -/
def CString.respell (pattern : CString) (chosen : Nat → Bool) : CString where
  chars := spell (replaceStars chosen (readTokens pattern.chars))
  no_nul member := by
    rcases mem_spell_replaceStars member with isDot | old
    · exact absurd isDot (by decide)
    · rw [spell_readTokens] at old
      exact pattern.no_nul old

/-- Patterns with the same tokens match the same texts. -/
theorem wildcardMatch_congr {pattern other : CString}
    (same : tokenise other.chars = tokenise pattern.chars) (text : CString) :
    wildcardMatch text.chars other.chars = wildcardMatch text.chars pattern.chars := by
  obtain ⟨answer, found, correct⟩ := wildcardMatch_iff text pattern
  obtain ⟨otherAnswer, otherFound, otherCorrect⟩ := wildcardMatch_iff text other
  rw [found, otherFound, Option.some.injEq, Bool.eq_iff_iff, correct, otherCorrect, same]

/--
Respelling wildcards keeps the tokens of the pattern exactly if no dot is drawn
into another token, and then every text matches as before.
-/
theorem wildcardMatch_respell (pattern : CString) (chosen : Nat → Bool) :
    (Unambiguous none chosen (readTokens pattern.chars) ↔
      tokenise (pattern.respell chosen).chars = tokenise pattern.chars) ∧
    (Unambiguous none chosen (readTokens pattern.chars) → ∀ text : CString,
      wildcardMatch text.chars (pattern.respell chosen).chars =
        wildcardMatch text.chars pattern.chars) :=
  ⟨unambiguous_iff pattern.chars chosen, fun unambiguous =>
    wildcardMatch_congr ((unambiguous_iff pattern.chars chosen).mp unambiguous)⟩

/-- `a.**.b`, with the wildcard at position one. -/
def betweenDots : CString := ⟨['a', '.', '*', '*', '.', 'b'], by decide⟩

theorem readTokens_betweenDots : readTokens betweenDots.chars =
    [⟨.literal 'a', false⟩, ⟨.both, false⟩, ⟨.literal 'b', false⟩] := by
  simp [betweenDots, readTokens, readToken, nextToken, dropRecursive, List.dropPrefix?]

/-- `x.b`. -/
def shortPath : CString := ⟨['x', '.', 'b'], by decide⟩

theorem wildcardMatch_respell_betweenDots :
    wildcardMatch shortPath.chars (betweenDots.respell fun _ => true).chars =
      wildcardMatch shortPath.chars betweenDots.chars :=
  (wildcardMatch_respell betweenDots fun _ => true).2
    (by simp [readTokens_betweenDots, Unambiguous, StaysApart]) shortPath

/-- `**.b`. -/
def beforeDot : CString := ⟨['*', '*', '.', 'b'], by decide⟩

theorem readTokens_beforeDot :
    readTokens beforeDot.chars = [⟨.trail, false⟩, ⟨.literal 'b', false⟩] := by
  simp [beforeDot, readTokens, readToken, nextToken, dropRecursive, List.dropPrefix?]

/-- `**.b` matches `x.b`, and `....b`, a dot and a wildcard, does not. -/
theorem wildcardMatch_respell_beforeDot :
    wildcardMatch shortPath.chars beforeDot.chars = some true ∧
      (beforeDot.respell fun _ => true).chars = ['.', '.', '.', '.', 'b'] ∧
      wildcardMatch shortPath.chars (beforeDot.respell fun _ => true).chars = some false := by
  have respelled : (beforeDot.respell fun _ => true).chars = ['.', '.', '.', '.', 'b'] := by
    simp [CString.respell, readTokens_beforeDot, replaceStars, spell, SpelledToken.text,
      recursiveText]
  refine ⟨?_, respelled, ?_⟩
  · obtain ⟨answer, found, correct⟩ := wildcardMatch_iff shortPath beforeDot
    rw [found, Option.some.injEq, correct, tokenise_eq, readTokens_beforeDot]
    exact ⟨[['x', '.'], ['b']], .cons (.inr ⟨['x'], rfl⟩) (.cons rfl .nil), rfl⟩
  · obtain ⟨answer, found, correct⟩ :=
      wildcardMatch_iff shortPath (beforeDot.respell fun _ => true)
    rw [found, Option.some.injEq, ← Bool.not_eq_true, correct, respelled]
    have tokens : tokenise ['.', '.', '.', '.', 'b'] = [.lead, .literal 'b'] := by
      simp [tokenise, nextToken, dropRecursive, List.dropPrefix?]
    rw [tokens, accepts_cons]
    rintro ⟨part, back, split, lead, rest⟩
    obtain ⟨last, _, rfl, rfl, isNil⟩ := accepts_cons.mp rest
    rw [accepts_nil] at isNil
    subst isNil
    rcases lead with rfl | ⟨middle, rfl⟩ <;> simp [shortPath] at split

end Wildcard

end SlangNetlist
