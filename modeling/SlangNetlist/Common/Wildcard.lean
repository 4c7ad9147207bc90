import Mathlib.Data.List.Basic
import Mathlib.Tactic.Common

/-!
# Name patterns

The matcher of `Wildcard.hpp`.  A pointer into a string is the part of the
string from there up to the terminating NUL; a read or a move past the NUL is
`none`.
-/

namespace SlangNetlist

namespace Wildcard

/-- The terminating NUL. -/
def nul : Char := '\x00'

/-- `c_str()`: the text up to its first NUL. -/
def cStr (text : String) : List Char := text.toList.takeWhile (· ≠ nul)

/-- A string without NUL characters. -/
structure CString where
  chars : List Char
  no_nul : nul ∉ chars

/-- `pointer[offset]`. -/
def charAt (pointer : List Char) (offset : Nat) : Option Char :=
  if offset ≤ pointer.length then some (pointer.getD offset nul) else none

/-- `pointer + offset`. -/
def advance (pointer : List Char) (offset : Nat) : Option (List Char) :=
  if offset ≤ pointer.length then some (pointer.drop offset) else none

/-- The length of the recursive wildcard at a pointer, zero when there is none. -/
def recurLen (p : List Char) : Option Nat := do
  if (← charAt p 0) = '*' then
    if (← charAt p 1) = '*' then some 2 else some 0
  else if (← charAt p 0) = '.' then
    if (← charAt p 1) = '.' then
      if (← charAt p 2) = '.' then some 3 else some 0
    else some 0
  else some 0

theorem length_advance {pointer next : List Char} {offset : Nat}
    (moved : advance pointer offset = some next) : next.length + offset = pointer.length := by
  unfold advance at moved
  split at moved
  · cases moved
    simp only [List.length_drop]
    omega
  · cases moved

/-- A recursive wildcard with the dots that it absorbs, and the pattern behind it. -/
structure RecursiveToken where
  hasLead : Bool
  hasTrail : Bool
  rest : List Char
  deriving DecidableEq, Repr

/-- Whether a dot and a recursive wildcard are at a pointer. -/
def leads (pattern : List Char) : Option Bool := do
  if (← charAt pattern 0) = '.' then
    let q ← advance pattern 1
    let length ← recurLen q
    some (length ≠ 0 : Bool)
  else some false

/-- Detect a recursive wildcard at the current pattern position. -/
def detect (pattern : List Char) : Option (Option RecursiveToken) := do
  let hasLead ← leads pattern
  let p ← advance pattern (if hasLead then 1 else 0)
  let length ← recurLen p
  if length = 0 then some none
  else do
    let afterRecur ← advance p length
    let hasTrail : Bool := (← charAt afterRecur 0) = '.'
    let rest ← advance afterRecur (if hasTrail then 1 else 0)
    some (some ⟨hasLead, hasTrail, rest⟩)

/--
Try the rest of the pattern at each position up to the first one, or the NUL,
at which the wildcard `stops`.
-/
def scan (stops : Char → Bool) (matchRest : List Char → Option Bool) (text : List Char) :
    Option Bool := do
  if ← matchRest text then some true
  else if (← charAt text 0) = nul || stops (← charAt text 0) then some false
  else
    match _ : advance text 1 with
    | none => none
    | some next => scan stops matchRest next
  termination_by text.length
  decreasing_by
    have := length_advance ‹_›
    omega

/-- Try the rest of the pattern behind each dot. -/
def scanDots (matchRest : List Char → Option Bool) (text : List Char) : Option Bool := do
  if (← charAt text 0) = nul then some false
  else
    match _ : advance text 1 with
    | none => none
    | some next => do
        if ← (if (← charAt text 0) = '.' then matchRest next else some false) then some true
        else scanDots matchRest next
  termination_by text.length
  decreasing_by
    have := length_advance ‹_›
    omega

/-- The branches for a recursive wildcard. -/
def matchRecursive (token : RecursiveToken) (matchRest : List Char → Option Bool)
    (text : List Char) : Option Bool :=
  match token.hasLead, token.hasTrail with
  | true, true => do
      if (← charAt text 0) ≠ '.' then some false
      else
        let text ← advance text 1
        if ← matchRest text then some true else scanDots matchRest text
  | true, false => do
      if ← matchRest text then some true
      else if (← charAt text 0) ≠ '.' then some false
      else
        let text ← advance text 1
        scan (fun _ => false) matchRest text
  | false, true => do
      if ← matchRest text then some true else scanDots matchRest text
  | false, false => scan (fun _ => false) matchRest text

theorem length_detect {pattern : List Char} {token : RecursiveToken}
    (detected : detect pattern = some (some token)) : token.rest.length < pattern.length := by
  simp only [detect, Option.bind_eq_bind, Option.bind_eq_some_iff] at detected
  obtain ⟨hasLead, _, p, toLead, length, _, detected⟩ := detected
  split at detected
  · cases detected
  · next recursive =>
      simp only [Option.bind_eq_some_iff, Option.some.injEq] at detected
      obtain ⟨afterRecur, behind, _, _, rest, toRest, rfl⟩ := detected
      have := length_advance toLead
      have := length_advance behind
      have := length_advance toRest
      dsimp only
      omega

/-- Match a text against a pattern. -/
def wildcardMatch (text pattern : List Char) : Option Bool :=
  match pattern with
  | [] => do some ((← charAt text 0) = nul : Bool)
  | head :: tail =>
      match _ : detect (head :: tail) with
      | none => none
      | some (some token) =>
          matchRecursive token (fun text => wildcardMatch text token.rest) text
      | some none =>
          if head = '*' then
            scan (fun c => c = '.') (fun text => wildcardMatch text tail) text
          else if head = '?' then do
            if (← charAt text 0) = nul || (← charAt text 0) = '.' then some false
            else
              let text ← advance text 1
              wildcardMatch text tail
          else do
            if head ≠ (← charAt text 0) then some false
            else
              let text ← advance text 1
              wildcardMatch text tail
  termination_by pattern.length
  decreasing_by
    · exact length_detect ‹_›
    all_goals simp

end Wildcard

end SlangNetlist
