import SlangNetlist.Library.IntervalMap

/-!
# Interval map difference

`IntervalMapUtils::difference` as the source computes it: the loop over the
second map leaves early once the current position reaches the last position of
the interval, and the position is kept even if a later interval covers it.
-/

namespace SlangNetlist.IntervalMapUtils

open Library

variable {TValue : Type} [DecidableEq TValue]

/-- The loop of `subtractSingle` over the entries of the second map. -/
def subtractLoop (last : Int) (value : TValue) (result : IntervalMap TValue) (current : Int) :
    List (Interval TValue) → IntervalMap TValue × Int
  | [] => (result, current)
  | rbounds :: rest =>
      if rbounds.second < current then subtractLoop last value result current rest
      else if rbounds.first > last then subtractLoop last value result current rest
      else
        let result :=
          if rbounds.first > current then
            result.unionWith current (min last (rbounds.first - 1)) value
          else result
        let current := max current (rbounds.second + 1)
        -- The early exit: it ignores the remaining entries even if `current` equals `last`.
        if current ≥ last then (result, current)
        else subtractLoop last value result current rest

/-- The step after the loop: keep what is left of the interval. -/
def keepRest (last : Int) (value : TValue) (state : IntervalMap TValue × Int) :
    IntervalMap TValue :=
  if state.2 ≤ last then state.1.unionWith state.2 last value else state.1

/-- Subtract every entry of the second map from one interval. -/
def subtractSingle (result : IntervalMap TValue) (interval : Interval TValue)
    (second : IntervalMap TValue) : IntervalMap TValue :=
  keepRest interval.second interval.value
    (subtractLoop interval.second interval.value result interval.first second.entries)

/-- The difference of two interval maps. -/
def difference (first second : IntervalMap TValue) : IntervalMap TValue :=
  if second.entries = [] then first
  else first.entries.foldl (fun result interval => subtractSingle result interval second)
    IntervalMap.nil

/-- An entry ends just below the last position of the range and meets the range. -/
def EndsBelow (entries : List (Interval TValue)) (first last : Int) : Prop :=
  ∃ entry ∈ entries, first ≤ entry.second ∧ entry.second + 1 = last

instance (entries : List (Interval TValue)) (first last : Int) :
    Decidable (EndsBelow entries first last) :=
  inferInstanceAs (Decidable (∃ entry ∈ _, _))

theorem covers_keepRest {last : Int} {value : TValue} {state : IntervalMap TValue × Int}
    {position : Int} :
    (keepRest last value state).Covers position ↔
      state.1.Covers position ∨ (state.2 ≤ position ∧ position ≤ last) := by
  unfold keepRest
  split
  · rw [IntervalMap.covers_unionWith, or_comm]
  · constructor
    · exact Or.inl
    · rintro (covers | inside)
      · exact covers
      · omega

/-- What the loop and the step after it keep, for entries in ascending order. -/
theorem covers_subtractLoop {last : Int} {value : TValue} {entries : List (Interval TValue)}
    (ascending : entries.Pairwise fun left right => left.second < right.first)
    (proper : ∀ entry ∈ entries, entry.first ≤ entry.second)
    (result : IntervalMap TValue) (current position : Int) :
    (keepRest last value (subtractLoop last value result current entries)).Covers position ↔
      result.Covers position ∨ (current ≤ position ∧ position ≤ last ∧
        ((∀ entry ∈ entries, ¬ entry.Covers position) ∨
          (position = last ∧ EndsBelow entries current last))) := by
  induction entries generalizing result current with
  | nil => simp [subtractLoop, covers_keepRest]
  | cons rbounds rest ih =>
      obtain ⟨before, restAscending⟩ := List.pairwise_cons.mp ascending
      have restProper := fun entry entryMem => proper entry (List.mem_cons_of_mem rbounds entryMem)
      have rproper := proper rbounds List.mem_cons_self
      -- The later entries start behind this one.
      have uncovered : position ≤ rbounds.second → ∀ entry ∈ rest, ¬ entry.Covers position := by
        intro inside entry entryMem
        have := before entry entryMem
        simp only [Interval.Covers]
        omega
      have endsRest : current ≤ rbounds.second →
          (EndsBelow rest current last ↔ EndsBelow rest (rbounds.second + 1) last) := by
        intro inside
        refine exists_congr fun entry => and_congr_right fun entryMem => ?_
        have := before entry entryMem
        have := restProper entry entryMem
        omega
      have endsHere : EndsBelow (rbounds :: rest) current last ↔
          (current ≤ rbounds.second ∧ rbounds.second + 1 = last) ∨
            EndsBelow rest current last := by
        simp [EndsBelow]
      rw [endsHere, List.forall_mem_cons]
      unfold subtractLoop
      by_cases early : rbounds.second < current
      · rw [if_pos early, ih restAscending restProper]
        simp only [Interval.Covers]
        grind
      by_cases beyond : rbounds.first > last
      · rw [if_neg early, if_pos beyond, ih restAscending restProper]
        simp only [Interval.Covers]
        grind
      have gap : (if rbounds.first > current then
          result.unionWith current (min last (rbounds.first - 1)) value
          else result).Covers position ↔ result.Covers position ∨
            (current ≤ position ∧ position < rbounds.first ∧ position ≤ last) := by
        split
        · rw [IntervalMap.covers_unionWith]
          grind
        · grind
      have reached : max current (rbounds.second + 1) = rbounds.second + 1 := by omega
      rw [if_neg early, if_neg beyond]
      simp only [reached]
      by_cases exits : rbounds.second + 1 ≥ last
      · have unreached : ¬ EndsBelow rest (rbounds.second + 1) last := by
          rintro ⟨entry, entryMem, _, ends⟩
          have := before entry entryMem
          have := restProper entry entryMem
          omega
        rw [if_pos exits, covers_keepRest, gap, endsRest (by omega)]
        simp only [Interval.Covers]
        grind
      · rw [if_neg exits, ih restAscending restProper, gap, endsRest (by omega)]
        simp only [Interval.Covers]
        grind

/--
The difference of one interval with an ordered map has the uncovered positions,
and the last one also where an entry ends just below it.
-/
theorem covers_difference_single {second : IntervalMap TValue} (ordered : second.Ordered)
    (first last : Int) (value : TValue) (position : Int) :
    (difference (IntervalMap.nil.insert first last value) second).Covers position ↔
      first ≤ position ∧ position ≤ last ∧
        (¬ second.Covers position ∨
          (position = last ∧ EndsBelow second.entries first last)) := by
  unfold difference
  split
  · next empty =>
      rw [IntervalMap.covers_insert]
      simp [IntervalMap.Covers, IntervalMap.nil, empty]
  · have single : (IntervalMap.nil.insert first last value).entries = [⟨first, last, value⟩] :=
      rfl
    rw [single]
    simp only [List.foldl_cons, List.foldl_nil, subtractSingle]
    rw [covers_subtractLoop ordered.ascending ordered.proper]
    simp [IntervalMap.Covers, IntervalMap.nil]

/-- The loop and the step after it keep proper ranges. -/
theorem proper_subtractLoop {last : Int} {value : TValue} (entries : List (Interval TValue))
    {result : IntervalMap TValue} {current : Int} (inside : current ≤ last)
    (proper : ∀ entry ∈ result.entries, entry.first ≤ entry.second) :
    ∀ entry ∈ (keepRest last value
      (subtractLoop last value result current entries)).entries, entry.first ≤ entry.second := by
  induction entries generalizing result current with
  | nil =>
      rw [subtractLoop, keepRest, if_pos inside]
      exact IntervalMap.proper_unionWith proper inside
  | cons rbounds rest ih =>
      have gap : ¬ rbounds.first > last → ∀ entry ∈ (if rbounds.first > current then
          result.unionWith current (min last (rbounds.first - 1)) value
          else result).entries, entry.first ≤ entry.second := by
        intro reaches
        split
        · exact IntervalMap.proper_unionWith proper (by omega)
        · exact proper
      unfold subtractLoop
      split
      · exact ih inside proper
      · split
        · exact ih inside proper
        · next reaches =>
            dsimp only
            split
            · unfold keepRest
              dsimp only
              split
              · next keeps => exact IntervalMap.proper_unionWith (gap reaches) keeps
              · exact gap reaches
            · next continues => exact ih (by omega) (gap reaches)

theorem proper_difference_single (second : IntervalMap TValue) {first last : Int}
    (proper : first ≤ last) (value : TValue) :
    ∀ entry ∈ (difference (IntervalMap.nil.insert first last value) second).entries,
      entry.first ≤ entry.second := by
  have nilProper : ∀ entry ∈ (IntervalMap.nil : IntervalMap TValue).entries,
      entry.first ≤ entry.second := by
    simp [IntervalMap.nil]
  unfold difference
  split
  · intro entry entryMem
    rcases IntervalMap.mem_insert.mp entryMem with rfl | entryMem
    · exact proper
    · exact nilProper entry entryMem
  · exact proper_subtractLoop second.entries proper nilProper

end SlangNetlist.IntervalMapUtils
