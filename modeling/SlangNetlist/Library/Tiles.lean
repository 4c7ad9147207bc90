import Mathlib.Data.List.Sort
import Mathlib.Tactic.Common

/-!
# Tilings of a range

A list of pieces tiles a half-open range when the first piece begins at its
start, every other piece begins where the one before ends, and no piece is
empty.  Sorted cut points make such a tiling of the range between them.
-/

namespace SlangNetlist.Library

variable {Piece : Type} {low high : Piece → Nat}

/-- The pieces tile the range from `start` to `finish`. -/
inductive Tiles (low high : Piece → Nat) : Nat → List Piece → Nat → Prop
  | nil {start : Nat} : Tiles low high start [] start
  | cons {start finish : Nat} {piece : Piece} {rest : List Piece} :
      low piece = start → low piece < high piece → Tiles low high (high piece) rest finish →
        Tiles low high start (piece :: rest) finish

namespace Tiles

variable {start middle finish : Nat} {pieces others : List Piece}

theorem le (tiles : Tiles low high start pieces finish) : start ≤ finish := by
  induction tiles with
  | nil => exact le_rfl
  | cons begins proper _ ih => omega

theorem append (front : Tiles low high start pieces middle)
    (back : Tiles low high middle others finish) :
    Tiles low high start (pieces ++ others) finish := by
  induction front with
  | nil => exact back
  | cons begins proper _ ih => exact cons begins proper (ih back)

/-- A tiling ends where its last piece does. -/
theorem high_getLast (tiles : Tiles low high start pieces finish) {piece : Piece}
    (last : pieces.getLast? = some piece) : high piece = finish := by
  induction tiles with
  | nil => cases last
  | @cons _ _ head rest _ _ back ih =>
      cases rest with
      | nil =>
          cases last
          cases back
          rfl
      | cons next others => exact ih (by simpa using last)

theorem eq_of_nil (tiles : Tiles low high start [] finish) : start = finish := by
  cases tiles
  rfl

/-- The pieces lie in the range and are not empty. -/
theorem bounds (tiles : Tiles low high start pieces finish) {piece : Piece}
    (member : piece ∈ pieces) :
    start ≤ low piece ∧ low piece < high piece ∧ high piece ≤ finish := by
  induction tiles with
  | nil => cases member
  | cons begins proper back ih =>
      have := back.le
      rcases List.mem_cons.mp member with rfl | later
      · omega
      · have := ih later
        omega

/-- Some piece has a given position of the range, and it is the first that has it. -/
theorem exists_find (tiles : Tiles low high start pieces finish) {position : Nat}
    (from_start : start ≤ position) (to_finish : position < finish) :
    ∃ piece ∈ pieces, pieces.find? (fun piece => low piece ≤ position ∧ position < high piece) =
      some piece ∧ low piece ≤ position ∧ position < high piece := by
  induction tiles with
  | nil => omega
  | @cons start _ head rest begins proper back ih =>
      by_cases inside : position < high head
      · exact ⟨head, List.mem_cons_self, by simp [begins, from_start, inside],
          by omega, inside⟩
      · obtain ⟨piece, member, found, holds⟩ := ih (by omega) to_finish
        exact ⟨piece, List.mem_cons_of_mem _ member,
          by simp only [List.find?_cons, inside, and_false, decide_false, found], holds⟩

/-- Only one piece has a position. -/
theorem unique (tiles : Tiles low high start pieces finish) {first second : Piece} {position : Nat}
    (firstMem : first ∈ pieces) (secondMem : second ∈ pieces)
    (inFirst : low first ≤ position ∧ position < high first)
    (inSecond : low second ≤ position ∧ position < high second) : first = second := by
  induction tiles with
  | nil => cases firstMem
  | cons begins proper back ih =>
      rcases List.mem_cons.mp firstMem with rfl | firstLater
      · rcases List.mem_cons.mp secondMem with rfl | secondLater
        · rfl
        · have := back.bounds secondLater
          omega
      · rcases List.mem_cons.mp secondMem with rfl | secondLater
        · have := back.bounds firstLater
          omega
        · exact ih firstLater secondLater

/-- Each piece ends before the later ones begin. -/
theorem pairwise (tiles : Tiles low high start pieces finish) :
    pieces.Pairwise fun first second => high first ≤ low second := by
  induction tiles with
  | nil => exact List.Pairwise.nil
  | cons begins proper back ih =>
      exact List.pairwise_cons.mpr ⟨fun later member => (back.bounds member).1, ih⟩

/-- The pieces under an increasing change of positions. -/
theorem map {Other : Type} {lowOther highOther : Other → Nat} (move : Nat → Nat)
    (change : Piece → Other) (tiles : Tiles low high start pieces finish)
    (increasing : ∀ first second, start ≤ first → first < second → move first < move second)
    (lows : ∀ piece, lowOther (change piece) = move (low piece))
    (highs : ∀ piece, highOther (change piece) = move (high piece)) :
    Tiles lowOther highOther (move start) (pieces.map change) (move finish) := by
  induction tiles with
  | nil => exact nil
  | cons begins proper back ih =>
      refine cons (by rw [lows, begins]) ?_ ?_
      · rw [lows, highs]
        exact increasing _ _ begins.ge proper
      · rw [highs]
        exact ih fun first second above => increasing first second (by omega)

/-- Other pieces at the same places. -/
theorem map_of_mem {Other : Type} {lowOther highOther : Other → Nat} {change : Piece → Other}
    (tiles : Tiles low high start pieces finish)
    (places : ∀ piece ∈ pieces, lowOther (change piece) = low piece ∧
      highOther (change piece) = high piece) :
    Tiles lowOther highOther start (pieces.map change) finish := by
  induction tiles with
  | nil => exact nil
  | @cons _ _ head rest begins proper back ih =>
      obtain ⟨sameLow, sameHigh⟩ := places head List.mem_cons_self
      refine cons (sameLow.trans begins) (by omega) ?_
      rw [sameHigh]
      exact ih fun piece member => places piece (List.mem_cons_of_mem head member)

/-- The pieces that lie in a part of the range tile it, when no other piece has a position of it. -/
theorem filter (tiles : Tiles low high start pieces finish) (keep : Piece → Bool) {first last : Nat}
    (from_start : start ≤ first) (proper : first ≤ last) (to_finish : last ≤ finish)
    (kept : ∀ piece ∈ pieces, ∀ position, low piece ≤ position → position < high piece →
      (keep piece = true ↔ first ≤ position ∧ position < last)) :
    Tiles low high first (pieces.filter keep) last := by
  induction tiles generalizing first last with
  | nil =>
      obtain rfl : first = last := by omega
      exact nil
  | @cons start finish head rest begins nonempty back ih =>
      have headKept := kept head List.mem_cons_self
      have restKept := fun piece member => kept piece (List.mem_cons_of_mem head member)
      have below := back.le
      by_cases keepHead : keep head = true
      · -- the part begins at this piece, whose last position it still has
        have atLow := (headKept (low head) le_rfl nonempty).mp keepHead
        have atHigh := (headKept (high head - 1) (by omega) (by omega)).mp keepHead
        rw [List.filter_cons_of_pos keepHead]
        refine cons (by omega) nonempty (ih le_rfl (by omega) to_finish ?_)
        intro piece member position above inside
        have := back.bounds member
        rw [restKept piece member position above inside]
        omega
      · rw [List.filter_cons_of_neg keepHead]
        by_cases behind : high head ≤ first
        · exact ih behind proper to_finish restKept
        · -- only an empty part can begin inside a piece that is left out
          have outside := mt (headKept first (by omega) (by omega)).mpr keepHead
          obtain rfl : first = last := by omega
          have none_kept : rest.filter keep = [] := by
            rw [List.filter_eq_nil_iff]
            intro piece member isKept
            have := back.bounds member
            have := (restKept piece member (low piece) le_rfl (by omega)).mp isKept
            omega
          rw [none_kept]
          exact nil

/-- The parts of a list at the pieces of a tiling make up the list. -/
theorem flatten_parts {Element : Type} (tiles : Tiles low high start pieces finish)
    (elements : List Element) (enough : elements.length = finish - start) :
    (pieces.map fun piece =>
      (elements.drop (low piece - start)).take (high piece - low piece)).flatten = elements := by
  induction tiles generalizing elements with
  | nil =>
      rw [Nat.sub_self, List.length_eq_zero_iff] at enough
      simp [enough]
  | @cons start finish head rest begins nonempty back ih =>
      have below := back.le
      have shifted : rest.map (fun piece =>
          (elements.drop (low piece - start)).take (high piece - low piece)) =
          rest.map fun piece => ((elements.drop (high head - start)).drop
            (low piece - high head)).take (high piece - low piece) := by
        refine List.map_congr_left fun piece member => ?_
        have := back.bounds member
        rw [List.drop_drop, show high head - start + (low piece - high head) = low piece - start by
          omega]
      rw [List.map_cons, List.flatten_cons, shifted, ih _ (by rw [List.length_drop]; omega), begins,
        Nat.sub_self, List.drop_zero, List.take_append_drop]

end Tiles

/-- The pairs of neighbours. -/
def neighbours (cuts : List Nat) : List (Nat × Nat) := cuts.zip cuts.tail

/-- Increasing cuts tile the range from the first to the last one. -/
theorem tiles_neighbours {first last : Nat} {rest : List Nat}
    (increasing : (first :: rest).Pairwise (· < ·))
    (ends : (first :: rest).getLast? = some last) :
    Tiles Prod.fst Prod.snd first (neighbours (first :: rest)) last := by
  induction rest generalizing first with
  | nil =>
      cases ends
      exact .nil
  | cons second others ih =>
      obtain ⟨smaller, later⟩ := List.pairwise_cons.mp increasing
      exact .cons rfl (smaller second List.mem_cons_self) (ih later (by simpa using ends))

/-- Increasing cuts tile the range between the least and the greatest one. -/
theorem tiles_of_mem {cuts : List Nat} {start finish : Nat} (increasing : cuts.Pairwise (· < ·))
    (startMem : start ∈ cuts) (finishMem : finish ∈ cuts)
    (between : ∀ cut ∈ cuts, start ≤ cut ∧ cut ≤ finish) :
    Tiles Prod.fst Prod.snd start (neighbours cuts) finish := by
  cases cuts with
  | nil => cases startMem
  | cons first rest =>
      have head : first = start := by
        have above := (between first List.mem_cons_self).1
        rcases List.mem_cons.mp startMem with same | later
        · exact same.symm
        · have := (List.pairwise_cons.mp increasing).1 start later
          omega
      subst head
      refine tiles_neighbours increasing ?_
      obtain ⟨front, last, split⟩ := List.eq_nil_or_concat (first :: rest) |>.resolve_left
        (List.cons_ne_nil _ _)
      rw [List.concat_eq_append] at split
      rw [split, List.getLast?_append, List.getLast?_singleton, Option.some_or]
      rw [split] at finishMem increasing
      rcases List.mem_append.mp finishMem with earlier | atEnd
      · have below := (List.pairwise_append.mp increasing).2.2 finish earlier last
          (List.mem_singleton_self _)
        have := (between last (by simp [split])).2
        omega
      · rw [List.mem_singleton.mp atEnd]

/-- No cut lies between neighbours. -/
theorem not_between {cuts : List Nat} (increasing : cuts.Pairwise (· < ·)) {pair : Nat × Nat}
    (member : pair ∈ neighbours cuts) {cut : Nat} (cutMem : cut ∈ cuts) :
    cut ≤ pair.1 ∨ pair.2 ≤ cut := by
  induction cuts with
  | nil => cases cutMem
  | cons first rest ih =>
      obtain ⟨smaller, later⟩ := List.pairwise_cons.mp increasing
      cases rest with
      | nil => cases member
      | cons second others =>
          rcases List.mem_cons.mp member with rfl | behind
          · rcases List.mem_cons.mp cutMem with rfl | cutLater
            · exact Or.inl le_rfl
            · rcases List.mem_cons.mp cutLater with rfl | further
              · exact Or.inr le_rfl
              · exact Or.inr ((List.pairwise_cons.mp later).1 cut further).le
          · rcases List.mem_cons.mp cutMem with rfl | cutLater
            · have above : second ≤ pair.1 := by
                have pairMem : pair.1 ∈ second :: others := (List.of_mem_zip behind).1
                rcases List.mem_cons.mp pairMem with same | further
                · exact same.ge
                · exact ((List.pairwise_cons.mp later).1 _ further).le
              have := smaller second List.mem_cons_self
              exact Or.inl (by omega)
            · exact ih later behind cutLater

/-! ## Cuts between two bounds -/

/-- The cuts strictly between two bounds: from the `upper_bound` to the `lower_bound`. -/
def cutsBetween (lo hi : Nat) (cuts : List Nat) : List Nat :=
  (cuts.dropWhile (· ≤ lo)).takeWhile (· < hi)

section CutsBetween

variable {cuts : List Nat} {lo hi cut : Nat}

theorem mem_takeWhile_lt (increasing : cuts.Pairwise (· < ·)) :
    cut ∈ cuts.takeWhile (· < hi) ↔ cut ∈ cuts ∧ cut < hi := by
  induction cuts with
  | nil => simp
  | cons head rest ih =>
      obtain ⟨smaller, later⟩ := List.pairwise_cons.mp increasing
      by_cases below : head < hi
      · rw [List.takeWhile_cons_of_pos (by simpa using below), List.mem_cons, ih later,
          List.mem_cons]
        constructor
        · rintro (rfl | ⟨member, inside⟩)
          · exact ⟨.inl rfl, below⟩
          · exact ⟨.inr member, inside⟩
        · rintro ⟨rfl | member, inside⟩
          · exact .inl rfl
          · exact .inr ⟨member, inside⟩
      · rw [List.takeWhile_cons_of_neg (by simpa using below)]
        refine ⟨fun none => absurd none List.not_mem_nil, ?_⟩
        rintro ⟨member, inside⟩
        rcases List.mem_cons.mp member with rfl | behind
        · exact absurd inside below
        · have := smaller cut behind
          omega

theorem mem_cutsBetween (increasing : cuts.Pairwise (· < ·)) :
    cut ∈ cutsBetween lo hi cuts ↔ cut ∈ cuts ∧ lo < cut ∧ cut < hi := by
  induction cuts with
  | nil => simp [cutsBetween]
  | cons head rest ih =>
      obtain ⟨smaller, later⟩ := List.pairwise_cons.mp increasing
      by_cases below : head ≤ lo
      · have dropped : cutsBetween lo hi (head :: rest) = cutsBetween lo hi rest := by
          rw [cutsBetween, List.dropWhile_cons_of_pos (by simpa using below), cutsBetween]
        rw [dropped, ih later, List.mem_cons]
        refine ⟨fun ⟨member, inside⟩ => ⟨.inr member, inside⟩, ?_⟩
        rintro ⟨rfl | member, inside⟩
        · omega
        · exact ⟨member, inside⟩
      · rw [cutsBetween, List.dropWhile_cons_of_neg (by simpa using below),
          mem_takeWhile_lt increasing]
        refine ⟨fun ⟨member, inside⟩ => ⟨member, ?_, inside⟩, fun ⟨member, _, inside⟩ =>
          ⟨member, inside⟩⟩
        rcases List.mem_cons.mp member with rfl | behind
        · exact Nat.not_le.mp below
        · have := smaller cut behind
          omega

theorem sorted_cutsBetween (increasing : cuts.Pairwise (· < ·)) :
    (cutsBetween lo hi cuts).Pairwise (· < ·) :=
  (increasing.sublist (List.dropWhile_sublist _)).sublist (List.takeWhile_sublist _)

/-- The bounds with the cuts between them, in order. -/
theorem sorted_bounded (increasing : cuts.Pairwise (· < ·)) (proper : lo < hi) :
    (lo :: cutsBetween lo hi cuts ++ [hi]).Pairwise (· < ·) := by
  have between := fun cut => (@mem_cutsBetween cuts lo hi cut increasing).mp
  rw [List.cons_append, List.pairwise_cons, List.pairwise_append]
  refine ⟨fun cut member => ?_, sorted_cutsBetween increasing, List.pairwise_singleton _ _,
    fun cut member last lastMem => ?_⟩
  · rcases List.mem_append.mp member with inner | last
    · exact (between cut inner).2.1
    · rwa [List.mem_singleton.mp last]
  · rw [List.mem_singleton.mp lastMem]
    exact (between cut member).2.2

theorem tiles_cutsBetween (increasing : cuts.Pairwise (· < ·)) (proper : lo < hi) :
    Tiles Prod.fst Prod.snd lo (neighbours (lo :: cutsBetween lo hi cuts ++ [hi])) hi := by
  have sorted := sorted_bounded increasing proper
  rw [List.cons_append] at sorted ⊢
  exact tiles_neighbours sorted (by rw [← List.cons_append, List.getLast?_append]; rfl)

/-- No cut lies strictly inside a piece between the bounds. -/
theorem not_inside_cutsBetween (increasing : cuts.Pairwise (· < ·)) (proper : lo < hi)
    {pair : Nat × Nat} (member : pair ∈ neighbours (lo :: cutsBetween lo hi cuts ++ [hi]))
    (cutMem : cut ∈ cuts) : cut ≤ pair.1 ∨ pair.2 ≤ cut := by
  have bounds := (tiles_cutsBetween increasing proper).bounds member
  by_cases between : lo < cut ∧ cut < hi
  · refine not_between (sorted_bounded increasing proper) member ?_
    simp [(mem_cutsBetween increasing).mpr ⟨cutMem, between⟩]
  · omega

end CutsBetween

end SlangNetlist.Library
