import SlangNetlist.Analysis.IntervalMapUtils

/-!
# The difference of two interval maps

Each interval of the first map leaves its pieces behind those of the intervals
before it.  The keys are of a signed type, so that the addition behind a right
interval overflows at the greatest key; the functions here are `none` then.
-/

namespace SlangNetlist.IntervalMapUtils

open Library

variable {TValue : Type} [DecidableEq TValue]

/-! ## The key type -/

/-- `rbounds.second + 1`, which overflows at the greatest key. -/
def nextKey (maximum key : Int) : Option Int :=
  if key = maximum then none else some (key + 1)

/-- The loop of `subtractSingle` with the addition of the key type. -/
def subtractLoop? (maximum last : Int) (value : TValue) (result : IntervalMap TValue)
    (current : Int) : List (Interval TValue) → Option (IntervalMap TValue × Int)
  | [] => some (result, current)
  | rbounds :: rest =>
      if rbounds.second < current then subtractLoop? maximum last value result current rest
      else if rbounds.first > last then subtractLoop? maximum last value result current rest
      else
        let result :=
          if rbounds.first > current then
            result.unionWith current (min last (rbounds.first - 1)) value
          else result
        (nextKey maximum rbounds.second).bind fun next =>
          let current := max current next
          if current ≥ last then some (result, current)
          else subtractLoop? maximum last value result current rest

/-- `subtractSingle` with the addition of the key type. -/
def subtractSingle? (maximum : Int) (second : IntervalMap TValue) (result : IntervalMap TValue)
    (interval : Interval TValue) : Option (IntervalMap TValue) :=
  (subtractLoop? maximum interval.second interval.value result interval.first
    second.entries).map (keepRest interval.second interval.value)

/-- `difference` with the addition of the key type. -/
def difference? (maximum : Int) (first second : IntervalMap TValue) :
    Option (IntervalMap TValue) :=
  if second.entries = [] then some first
  else first.entries.foldlM (subtractSingle? maximum second) IntervalMap.nil

/-- The value at a position. -/
def HasValue (map : IntervalMap TValue) (position : Int) (value : TValue) : Prop :=
  ∃ entry ∈ map.entries, entry.Covers position ∧ entry.value = value

/-- What the difference of two maps is: the first one where the second one has no interval. -/
def IsDifference (first second result : IntervalMap TValue) : Prop :=
  ∀ position value, HasValue result position value ↔
    HasValue first position value ∧ ¬ second.Covers position

/-- An interval ends just below the last position, which another one covers. -/
def LastKept (second : IntervalMap TValue) (interval : Interval TValue) : Prop :=
  EndsBelow second.entries interval.first interval.second ∧ second.Covers interval.second

/-- An interval that reaches the greatest key overlaps the interval. -/
def ReachesMaximum (maximum : Int) (second : IntervalMap TValue) (interval : Interval TValue) :
    Prop :=
  ∃ entry ∈ second.entries, entry.second = maximum ∧
    entry.Overlaps interval.first interval.second

/-! ## Pieces -/

section Pieces

variable {last current : Int} {value : TValue} {base result second first : IntervalMap TValue}
  {entries : List (Interval TValue)}

/-- The step after the loop adds its piece behind the entries. -/
theorem keepRest_append (baseEnds : base.EndsBefore current)
    (resultEnds : result.EndsBefore current) :
    keepRest last value (⟨base.entries ++ result.entries⟩, current) =
      ⟨base.entries ++ (keepRest last value (result, current)).entries⟩ := by
  unfold keepRest
  dsimp only
  split
  · rw [IntervalMap.unionWith_of_endsBefore (baseEnds.append resultEnds),
      IntervalMap.unionWith_of_endsBefore resultEnds, List.append_assoc]
  · rfl

/-- The entries before an interval are not touched by its subtraction. -/
theorem subtractLoop_append (proper : ∀ entry ∈ entries, entry.first ≤ entry.second)
    (baseEnds : base.EndsBefore current) (resultEnds : result.EndsBefore current) :
    keepRest last value (subtractLoop last value ⟨base.entries ++ result.entries⟩ current entries) =
      ⟨base.entries ++
        (keepRest last value (subtractLoop last value result current entries)).entries⟩ := by
  induction entries generalizing result current with
  | nil => exact keepRest_append baseEnds resultEnds
  | cons rbounds rest ih =>
      have restProper := fun entry member => proper entry (List.mem_cons_of_mem rbounds member)
      have rproper := proper rbounds List.mem_cons_self
      unfold subtractLoop
      by_cases early : rbounds.second < current
      · rw [if_pos early, if_pos early, ih restProper baseEnds resultEnds]
      by_cases beyond : rbounds.first > last
      · rw [if_neg early, if_neg early, if_pos beyond, if_pos beyond,
          ih restProper baseEnds resultEnds]
      rw [if_neg early, if_neg early, if_neg beyond, if_neg beyond]
      -- The gap before the right interval is a piece behind the entries.
      have reached : max current (rbounds.second + 1) = rbounds.second + 1 := by omega
      obtain ⟨gapped, both, alone, gappedEnds⟩ : ∃ gapped : IntervalMap TValue,
          (if rbounds.first > current then (⟨base.entries ++ result.entries⟩ :
              IntervalMap TValue).unionWith current (min last (rbounds.first - 1)) value
            else ⟨base.entries ++ result.entries⟩) = ⟨base.entries ++ gapped.entries⟩ ∧
          (if rbounds.first > current then
            result.unionWith current (min last (rbounds.first - 1)) value else result) = gapped ∧
          gapped.EndsBefore (rbounds.second + 1) := by
        split
        · rw [IntervalMap.unionWith_of_endsBefore (baseEnds.append resultEnds),
            IntervalMap.unionWith_of_endsBefore resultEnds]
          refine ⟨_, by rw [List.append_assoc], rfl, (resultEnds.mono (by omega)).append ?_⟩
          intro entry member
          obtain rfl := List.mem_singleton.mp member
          simp only
          omega
        · exact ⟨result, rfl, rfl, resultEnds.mono (by omega)⟩
      have baseEndsLater := baseEnds.mono (show current ≤ rbounds.second + 1 by omega)
      simp only [both, alone, reached]
      split
      · exact keepRest_append baseEndsLater gappedEnds
      · exact ih restProper baseEndsLater gappedEnds

/-- All pieces have the value of the interval. -/
theorem value_subtractLoop :
    ∀ entry ∈ (keepRest last value (subtractLoop last value result current entries)).entries,
      entry ∈ result.entries ∨ entry.value = value := by
  have kept (first second : Int) (result : IntervalMap TValue) :
      ∀ entry ∈ (result.unionWith first second value).entries,
        entry ∈ result.entries ∨ entry.value = value := by
    intro entry member
    rcases IntervalMap.mem_insert.mp member with rfl | old
    · exact Or.inr rfl
    · exact Or.inl (List.mem_of_mem_filter old)
  have keptRest (state : IntervalMap TValue × Int) :
      ∀ entry ∈ (keepRest last value state).entries,
        entry ∈ state.1.entries ∨ entry.value = value := by
    unfold keepRest
    split
    · exact kept _ _ _
    · exact fun entry member => Or.inl member
  induction entries generalizing result current with
  | nil => exact keptRest _
  | cons rbounds rest ih =>
      have gapped : ∀ entry ∈ (if rbounds.first > current then
          result.unionWith current (min last (rbounds.first - 1)) value else result).entries,
          entry ∈ result.entries ∨ entry.value = value := by
        split
        · exact kept _ _ _
        · exact fun entry member => Or.inl member
      intro entry member
      unfold subtractLoop at member
      split at member
      · exact ih entry member
      · split at member
        · exact ih entry member
        · dsimp only at member
          split at member
          · exact (keptRest _ entry member).elim (gapped entry) Or.inr
          · exact (ih entry member).elim (gapped entry) Or.inr

/-- The pieces that are left of an interval. -/
def pieces (second : IntervalMap TValue) (interval : Interval TValue) : List (Interval TValue) :=
  (subtractSingle IntervalMap.nil interval second).entries

theorem covers_pieces (ordered : second.Ordered) {interval : Interval TValue} {position : Int} :
    (⟨pieces second interval⟩ : IntervalMap TValue).Covers position ↔
      interval.Covers position ∧ (¬ second.Covers position ∨
        position = interval.second ∧ EndsBelow second.entries interval.first interval.second) := by
  have covers := @covers_subtractLoop _ _ interval.second interval.value _ ordered.ascending
    ordered.proper IntervalMap.nil interval.first position
  rw [or_iff_right (IntervalMap.not_covers_nil position)] at covers
  refine covers.trans ?_
  simp only [Interval.Covers, IntervalMap.Covers, not_exists, not_and, and_assoc]

/-- The pieces are proper and lie within the interval. -/
theorem pieces_endsBefore (ordered : second.Ordered) {interval : Interval TValue}
    (proper : interval.first ≤ interval.second) :
    (⟨pieces second interval⟩ : IntervalMap TValue).EndsBefore (interval.second + 1) := by
  intro piece member
  have pieceProper := proper_subtractLoop second.entries proper
    (show ∀ entry ∈ (IntervalMap.nil : IntervalMap TValue).entries, entry.first ≤ entry.second by
      simp [IntervalMap.nil]) piece member
  have inside := ((covers_pieces ordered).mp ⟨piece, member, pieceProper, Int.le_refl _⟩).1
  exact ⟨pieceProper, Int.lt_add_one_of_le inside.2⟩

/-- One interval adds its pieces behind the entries so far. -/
theorem subtractSingle_append (ordered : second.Ordered) {interval : Interval TValue}
    (ends : result.EndsBefore interval.first) :
    subtractSingle result interval second = ⟨result.entries ++ pieces second interval⟩ := by
  have appended := @subtractLoop_append _ _ interval.second _ interval.value _ _ _ ordered.proper
    ends (show (IntervalMap.nil : IntervalMap TValue).EndsBefore interval.first by
      simp [IntervalMap.EndsBefore, IntervalMap.nil])
  rw [show (⟨result.entries ++ (IntervalMap.nil : IntervalMap TValue).entries⟩ :
    IntervalMap TValue) = result by simp [IntervalMap.nil]] at appended
  exact appended

/-- The difference is made of the pieces of all intervals. -/
theorem difference_eq (firstOrdered : first.Ordered) (ordered : second.Ordered) :
    difference first second = ⟨first.entries.flatMap (pieces second)⟩ := by
  unfold difference
  split
  · next empty =>
      have whole : ∀ interval ∈ first.entries, pieces second interval = [interval] := by
        intro interval member
        rw [pieces, subtractSingle, empty, subtractLoop, keepRest,
          if_pos (firstOrdered.proper interval member)]
        rfl
      rw [List.flatMap_congr whole, List.flatMap_singleton']
  · have folded : ∀ (intervals : List (Interval TValue)) (result : IntervalMap TValue),
        intervals.Pairwise (fun left right => left.second < right.first) →
        (∀ interval ∈ intervals, interval.first ≤ interval.second) →
        (∀ interval ∈ intervals, result.EndsBefore interval.first) →
        intervals.foldl (fun result interval => subtractSingle result interval second) result =
          ⟨result.entries ++ intervals.flatMap (pieces second)⟩ := by
      intro intervals result ascending proper ends
      induction intervals generalizing result with
      | nil => simp
      | cons interval rest ih =>
          obtain ⟨before, restAscending⟩ := List.pairwise_cons.mp ascending
          have here := ends interval List.mem_cons_self
          have intervalProper := proper interval List.mem_cons_self
          rw [List.foldl_cons, subtractSingle_append ordered here, ih _ restAscending
            (fun other member => proper other (List.mem_cons_of_mem _ member)), List.flatMap_cons,
            List.append_assoc]
          intro other member
          have := before other member
          exact (here.mono (by omega)).append
            ((pieces_endsBefore ordered intervalProper).mono (by omega))
    rw [folded first.entries IntervalMap.nil firstOrdered.ascending firstOrdered.proper
      (by simp [IntervalMap.EndsBefore, IntervalMap.nil])]
    simp [IntervalMap.nil]

/-- The values of the difference. -/
theorem hasValue_difference (firstOrdered : first.Ordered) (ordered : second.Ordered)
    {position : Int} {value : TValue} :
    HasValue (difference first second) position value ↔
      ∃ interval ∈ first.entries, interval.value = value ∧ interval.Covers position ∧
        (¬ second.Covers position ∨
          position = interval.second ∧
            EndsBelow second.entries interval.first interval.second) := by
  rw [difference_eq firstOrdered ordered]
  constructor
  · rintro ⟨piece, member, covers, rfl⟩
    obtain ⟨interval, intervalMem, pieceMem⟩ := List.mem_flatMap.mp member
    have same := (value_subtractLoop piece pieceMem).resolve_left List.not_mem_nil
    exact ⟨interval, intervalMem, same.symm, (covers_pieces ordered).mp ⟨piece, pieceMem, covers⟩⟩
  · rintro ⟨interval, intervalMem, rfl, covers⟩
    obtain ⟨piece, pieceMem, pieceCovers⟩ := (covers_pieces ordered).mpr covers
    have same := (value_subtractLoop piece pieceMem).resolve_left List.not_mem_nil
    exact ⟨piece, List.mem_flatMap.mpr ⟨interval, intervalMem, pieceMem⟩, pieceCovers, same⟩

/-- Without overflows, the difference is exact if no last position is kept. -/
theorem isDifference_iff (firstOrdered : first.Ordered) (ordered : second.Ordered) :
    IsDifference first second (difference first second) ↔
      ∀ interval ∈ first.entries, ¬ LastKept second interval := by
  constructor
  · rintro exact interval member ⟨ends, covered⟩
    have proper := firstOrdered.proper interval member
    have kept := (hasValue_difference firstOrdered ordered).mpr
      ⟨interval, member, rfl, ⟨proper, Int.le_refl _⟩, Or.inr ⟨rfl, ends⟩⟩
    exact ((exact interval.second interval.value).mp kept).2 covered
  · intro notKept position value
    rw [hasValue_difference firstOrdered ordered]
    constructor
    · rintro ⟨interval, member, rfl, covers, uncovered | ⟨rfl, ends⟩⟩
      · exact ⟨⟨interval, member, covers, rfl⟩, uncovered⟩
      · exact ⟨⟨interval, member, covers, rfl⟩, fun covered =>
          notKept interval member ⟨ends, covered⟩⟩
    · rintro ⟨⟨interval, member, covers, rfl⟩, uncovered⟩
      exact ⟨interval, member, rfl, covers, Or.inl uncovered⟩

end Pieces

/-! ## Overflows -/

section Overflows

variable {maximum last current : Int} {value : TValue} {result second first : IntervalMap TValue}
  {entries : List (Interval TValue)}

/-- The loop comes to an interval that reaches the greatest key, unless it leaves just before. -/
def Overflows (maximum current last : Int) (entries : List (Interval TValue)) : Prop :=
  (∃ entry ∈ entries, entry.second = maximum ∧ entry.Overlaps current last) ∧
    ¬ EndsBelow entries current last

open Classical in
/-- The loop with the addition of the key type is the one on integers, unless it overflows. -/
theorem subtractLoop?_eq (inKeys : last ≤ maximum)
    (ascending : entries.Pairwise fun left right => left.second < right.first)
    (proper : ∀ entry ∈ entries, entry.first ≤ entry.second)
    (result : IntervalMap TValue) (current : Int) :
    subtractLoop? maximum last value result current entries =
      if Overflows maximum current last entries then none
      else some (subtractLoop last value result current entries) := by
  induction entries generalizing result current with
  | nil => simp [subtractLoop?, subtractLoop, Overflows]
  | cons rbounds rest ih =>
      obtain ⟨before, restAscending⟩ := List.pairwise_cons.mp ascending
      have restProper := fun entry member => proper entry (List.mem_cons_of_mem rbounds member)
      have rproper := proper rbounds List.mem_cons_self
      have step := ih restAscending restProper
      have split : Overflows maximum current last (rbounds :: rest) ↔
          ((rbounds.second = maximum ∧ rbounds.Overlaps current last) ∨
            ∃ entry ∈ rest, entry.second = maximum ∧ entry.Overlaps current last) ∧
          ¬ (current ≤ rbounds.second ∧ rbounds.second + 1 = last) ∧
            ¬ EndsBelow rest current last := by
        simp [Overflows, EndsBelow]
      unfold subtractLoop? subtractLoop
      by_cases early : rbounds.second < current
      · rw [if_pos early, if_pos early, step]
        refine if_congr ?_ rfl rfl
        rw [split]
        simp only [Interval.Overlaps, Overflows]
        grind
      by_cases beyond : rbounds.first > last
      · rw [if_neg early, if_neg early, if_pos beyond, if_pos beyond, step]
        refine if_congr ?_ rfl rfl
        rw [split]
        simp only [Interval.Overlaps, Overflows]
        grind
      rw [if_neg early, if_neg early, if_neg beyond, if_neg beyond]
      by_cases reaches : rbounds.second = maximum
      · have noneBelow : ¬ EndsBelow rest current last := by
          rintro ⟨entry, member, _, ends⟩
          have := before entry member
          have := restProper entry member
          omega
        have overflows : Overflows maximum current last (rbounds :: rest) := by
          refine split.mpr ⟨Or.inl ⟨reaches, ?_⟩, by omega, noneBelow⟩
          simp only [Interval.Overlaps]
          omega
        rw [if_pos overflows, nextKey, if_pos reaches]
        rfl
      · rw [nextKey, if_neg reaches]
        have reached : max current (rbounds.second + 1) = rbounds.second + 1 := by omega
        simp only [Option.bind_some, reached]
        by_cases exits : rbounds.second + 1 ≥ last
        · have notOverflows : ¬ Overflows maximum current last (rbounds :: rest) := by
            rintro ⟨⟨entry, member, atMaximum, overlaps⟩, notBelow⟩
            rcases List.mem_cons.mp member with rfl | later
            · exact reaches atMaximum
            · have := before entry later
              simp only [Interval.Overlaps] at overlaps
              exact notBelow ⟨rbounds, List.mem_cons_self, by omega, by omega⟩
          rw [if_pos exits, if_pos exits, if_neg notOverflows]
        · rw [if_neg exits, if_neg exits, step]
          refine if_congr ?_ rfl rfl
          have shifts : ∀ entry ∈ rest, current ≤ entry.second ∧
              rbounds.second + 1 ≤ entry.second := by
            intro entry member
            have := before entry member
            have := restProper entry member
            omega
          have below : EndsBelow rest current last ↔
              EndsBelow rest (rbounds.second + 1) last :=
            exists_congr fun entry => and_congr_right fun member => by
              have := shifts entry member
              omega
          rw [split, Overflows, ← below]
          simp only [Interval.Overlaps]
          grind

/-- One interval, with the addition of the key type. -/
theorem subtractSingle?_eq_none_iff (ordered : second.Ordered) {interval : Interval TValue}
    (inKeys : interval.second ≤ maximum) :
    subtractSingle? maximum second result interval = none ↔
      Overflows maximum interval.first interval.second second.entries := by
  rw [subtractSingle?, subtractLoop?_eq inKeys ordered.ascending ordered.proper]
  split
  · next overflows => simp [overflows]
  · next defined => simp [defined]

theorem subtractSingle?_eq_some {next : IntervalMap TValue} (ordered : second.Ordered)
    {interval : Interval TValue} (inKeys : interval.second ≤ maximum)
    (some : subtractSingle? maximum second result interval = some next) :
    subtractSingle result interval second = next := by
  rw [subtractSingle?, subtractLoop?_eq inKeys ordered.ascending ordered.proper] at some
  split at some
  · cases some
  · exact Option.some.inj some

/-- The difference on integers is computed unless an interval overflows. -/
theorem difference?_cases (ordered : second.Ordered)
    (inKeys : ∀ interval ∈ first.entries, interval.second ≤ maximum) :
    ((∃ interval ∈ first.entries,
        Overflows maximum interval.first interval.second second.entries) ∧
      difference? maximum first second = none) ∨
    (∀ interval ∈ first.entries,
        ¬ Overflows maximum interval.first interval.second second.entries) ∧
      difference? maximum first second = some (difference first second) := by
  unfold difference? difference
  split
  · next empty =>
      exact Or.inr ⟨fun _ _ overflows => by simp [Overflows, empty] at overflows, rfl⟩
  · have folded : ∀ (intervals : List (Interval TValue)) (result : IntervalMap TValue),
        (∀ interval ∈ intervals, interval.second ≤ maximum) →
        ((∃ interval ∈ intervals,
            Overflows maximum interval.first interval.second second.entries) ∧
          intervals.foldlM (subtractSingle? maximum second) result = none) ∨
        (∀ interval ∈ intervals,
            ¬ Overflows maximum interval.first interval.second second.entries) ∧
          intervals.foldlM (subtractSingle? maximum second) result =
            some (intervals.foldl (fun result interval => subtractSingle result interval second)
              result) := by
      intro intervals result within
      induction intervals generalizing result with
      | nil => exact Or.inr ⟨by simp, rfl⟩
      | cons interval rest ih =>
          obtain ⟨here, later⟩ := List.forall_mem_cons.mp within
          rw [List.foldlM_cons, List.foldl_cons, Option.bind_eq_bind]
          cases subtracted : subtractSingle? maximum second result interval with
          | none =>
              have overflows := (subtractSingle?_eq_none_iff ordered here).mp subtracted
              exact Or.inl ⟨⟨interval, List.mem_cons_self, overflows⟩, rfl⟩
          | some next =>
              have defined : ¬ Overflows maximum interval.first interval.second second.entries :=
                fun overflows => by
                  rw [(subtractSingle?_eq_none_iff ordered here).mpr overflows] at subtracted
                  cases subtracted
              rw [subtractSingle?_eq_some ordered here subtracted, Option.bind_some]
              rcases ih next later with ⟨⟨other, member, overflows⟩, none⟩ | ⟨all, some⟩
              · exact Or.inl ⟨⟨other, List.mem_cons_of_mem _ member, overflows⟩, none⟩
              · exact Or.inr ⟨List.forall_mem_cons.mpr ⟨defined, all⟩, some⟩
    exact folded first.entries IntervalMap.nil inKeys

omit [DecidableEq TValue] in
/-- Unless its last position is kept, an interval overflows where one reaches the greatest key. -/
theorem overflows_iff {interval : Interval TValue} (inKeys : interval.second ≤ maximum)
    (notKept : ¬ LastKept second interval) :
    Overflows maximum interval.first interval.second second.entries ↔
      ReachesMaximum maximum second interval := by
  refine and_iff_left_of_imp ?_
  rintro ⟨entry, member, atMaximum, overlaps⟩ below
  refine notKept ⟨below, entry, member, ?_⟩
  simp only [Interval.Overlaps] at overlaps
  exact ⟨overlaps.1, atMaximum ▸ inKeys⟩

end Overflows

/--
The difference of two maps is computed and exact if and only if no last
position is kept and no right interval that overlaps a left one reaches the
greatest key.
-/
theorem difference_exact_iff (maximum : Int) (first second : IntervalMap TValue)
    (firstOrdered : first.Ordered) (secondOrdered : second.Ordered)
    (inKeys : ∀ interval ∈ first.entries, interval.second ≤ maximum) :
    (∃ result, difference? maximum first second = some result ∧
        IsDifference first second result) ↔
      ∀ interval ∈ first.entries, ¬ LastKept second interval ∧
        ¬ ReachesMaximum maximum second interval := by
  rcases difference?_cases secondOrdered inKeys with ⟨⟨interval, member, overflows⟩, none⟩ |
    ⟨defined, some⟩
  · constructor
    · rintro ⟨result, computed, _⟩
      cases none.symm.trans computed
    · exact fun fine => absurd overflows.1 (fine interval member).2
  · rw [some]
    constructor
    · rintro ⟨result, computed, exact⟩
      cases computed
      have notKept := (isDifference_iff firstOrdered secondOrdered).mp exact
      refine fun interval member => ⟨notKept interval member, fun reaches => ?_⟩
      exact defined interval member ((overflows_iff (inKeys interval member)
        (notKept interval member)).mpr reaches)
    · intro fine
      exact ⟨_, rfl, (isDifference_iff firstOrdered secondOrdered).mpr
        fun interval member => (fine interval member).1⟩

/-- The bits of a byte, and its two parts. -/
def byteMap : IntervalMap Nat := ⟨[⟨0, 7, 1⟩]⟩

def partsMap : IntervalMap Nat := ⟨[⟨0, 6, 1⟩, ⟨7, 7, 2⟩]⟩

theorem difference_exact_iff_byte :
    (∃ result, difference? 2147483647 byteMap partsMap = some result ∧
        IsDifference byteMap partsMap result) ↔
      ∀ interval ∈ byteMap.entries, ¬ LastKept partsMap interval ∧
        ¬ ReachesMaximum 2147483647 partsMap interval :=
  difference_exact_iff 2147483647 byteMap partsMap ⟨by decide, by decide⟩ ⟨by decide, by decide⟩
    (by decide)

/-- The last bit is kept, although the second part covers it. -/
theorem difference_keeps_last :
    difference? 2147483647 byteMap partsMap = some ⟨[⟨7, 7, 1⟩]⟩ ∧
      ¬ IsDifference byteMap partsMap ⟨[⟨7, 7, 1⟩]⟩ := by
  refine ⟨by decide, fun exact => ?_⟩
  have kept := (exact 7 1).mp ⟨⟨7, 7, 1⟩, by simp, by decide, rfl⟩
  exact kept.2 ⟨⟨7, 7, 2⟩, by decide, by decide⟩

end SlangNetlist.IntervalMapUtils
