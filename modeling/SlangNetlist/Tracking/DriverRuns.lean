import SlangNetlist.Library.GuardedRun
import SlangNetlist.Library.LastMatch
import SlangNetlist.Tracking.ValueTracker

/-!
# Runs of `addDrivers`

Sequences of calls from the empty tracker.  The two halves of a split interval
share one list, and the tracker keeps no record of that; the guards below name
the calls that do not reach across such a pair.
-/

namespace SlangNetlist

open Library

/-- A tracker with one vector of driver maps. -/
structure TrackerState where
  tracker : ValueTracker := {}
  drivers : ValueDrivers := []
  deriving DecidableEq, Repr

/-- The arguments of one call of `addDrivers`. -/
structure DriverCall where
  symbol : ValueSymbol
  bounds : DriverBitRange
  driverList : DriverList
  merge : Bool := false
  deriving DecidableEq, Repr

namespace TrackerState

/-- The driver map of a symbol. -/
def driverMap (state : TrackerState) (symbol : ValueSymbol) : DriverMap :=
  state.tracker.driverMap state.drivers symbol

/-- The map read as a function from symbols and bits to sets of drivers. -/
def driversAt (state : TrackerState) (symbol : ValueSymbol) (bit : Int) :
    Finset (Option NodeRef) :=
  (state.driverMap symbol).driversAt bit

/-- One call. -/
def step (state : TrackerState) (call : DriverCall) : Option TrackerState := do
  let (tracker, drivers) ← state.tracker.addDrivers state.drivers call.symbol call.bounds
    call.driverList call.merge
  some ⟨tracker, drivers⟩

/-- The vector fits the tracker and every driver map is well formed. -/
structure Sound (state : TrackerState) : Prop where
  fits : state.tracker.Fits state.drivers
  wellFormed : ∀ symbol, (state.driverMap symbol).WellFormed

theorem sound_empty : ({} : TrackerState).Sound :=
  ⟨Nat.le_refl _, fun _ => DriverMap.wellFormed_empty⟩

/-- The state with one definition of one signal. -/
def single (symbol : ValueSymbol) (first last : Int) (list : DriverList) : TrackerState :=
  ⟨⟨[symbol]⟩, [DriverMap.single first last list]⟩

section Single

variable {symbol other : ValueSymbol} {first last bit : Int} {list : DriverList}
  {node : Option NodeRef}

theorem driverMap_single : (single symbol first last list).driverMap other =
    if other.id = symbol.id then DriverMap.single first last list else {} := by
  by_cases same : other.id = symbol.id
  · simp [single, driverMap, ValueTracker.driverMap, ValueTracker.getSlot, same]
  · simp [single, driverMap, ValueTracker.driverMap, ValueTracker.getSlot, same, eq_comm]

theorem sound_single (proper : first ≤ last) : (single symbol first last list).Sound := by
  refine ⟨Nat.le_refl _, fun other => ?_⟩
  rw [driverMap_single]
  split
  · exact DriverMap.wellFormed_single proper
  · exact DriverMap.wellFormed_empty

theorem mem_driversAt_single (proper : first ≤ last) :
    node ∈ (single symbol first last list).driversAt other bit ↔
      other.id = symbol.id ∧ (first ≤ bit ∧ bit ≤ last) ∧ node ∈ list.nodes := by
  rw [driversAt, driverMap_single]
  split
  · next same => rw [DriverMap.mem_driversAt_single proper, and_iff_right same]
  · next differ =>
      refine iff_of_false ?_ fun drives => differ drives.1
      simp [DriverMap.driversAt, DriverMap.listAt, IntervalMap.nil]

end Single

/-- A call on one driver map is a step on the state. -/
theorem step_spec {state : TrackerState} (sound : state.Sound) (call : DriverCall)
    {map : DriverMap} (wellFormed : map.WellFormed)
    (added : (state.driverMap call.symbol).addDrivers call.bounds call.driverList call.merge =
      some map) :
    ∃ result, state.step call = some result ∧ result.Sound ∧
      ∀ other, result.driverMap other =
        if other.id = call.symbol.id then map else state.driverMap other := by
  obtain ⟨tracker, drivers, stepped, fits, maps⟩ :=
    state.tracker.addDrivers_spec sound.fits call.symbol call.bounds call.driverList call.merge
      added
  refine ⟨⟨tracker, drivers⟩, ?_, ⟨fits, fun other => ?_⟩, maps⟩
  · simp [step, stepped]
  · have mapped := maps other
    simp only [driverMap] at *
    rw [mapped]
    split
    · exact wellFormed
    · exact sound.wellFormed other

/-! ## The drivers of every bit -/

/-- No list is shared across the bounds of the call, unless it holds the merged drivers already. -/
def Writable (state : TrackerState) (call : DriverCall) : Prop :=
  (state.driverMap call.symbol).Writable call.bounds call.driverList call.merge

instance (state : TrackerState) (call : DriverCall) : Decidable (state.Writable call) :=
  inferInstanceAs (Decidable (DriverMap.Writable _ _ _ _))

/-- The bits of the bounds are replaced or added to, and all other bits are kept. -/
def AddsExactly (state result : TrackerState) (call : DriverCall) : Prop :=
  ∀ symbol bit, result.driversAt symbol bit =
    if symbol.id = call.symbol.id ∧ bit ∈ call.bounds then
      if call.merge then state.driversAt symbol bit ∪ call.driverList.nodes
      else call.driverList.nodes
    else state.driversAt symbol bit

theorem Sound.step_adds {state : TrackerState} (sound : state.Sound) {call : DriverCall}
    (writable : state.Writable call) :
    ∃ result, state.step call = some result ∧ result.Sound ∧ state.AddsExactly result call := by
  obtain ⟨map, added, wellFormed, adds⟩ :=
    DriverMap.addDrivers_adds (sound.wellFormed call.symbol) writable
  obtain ⟨result, stepped, resultSound, maps⟩ := step_spec sound call wellFormed added
  refine ⟨result, stepped, resultSound, fun symbol bit => ?_⟩
  simp only [driversAt, maps symbol]
  by_cases same : symbol.id = call.symbol.id
  · have mapEq : state.driverMap symbol = state.driverMap call.symbol :=
      state.tracker.driverMap_congr state.drivers same
    ext node
    simp only [same, if_true, true_and, mapEq, DriverMap.mem_driversAt wellFormed.ordered,
      adds bit node]
    split
    · split
      · next merges =>
          simp [merges, DriverMap.mem_driversAt (sound.wellFormed call.symbol).ordered, or_comm]
      · next replaces => simp [replaces]
    · rw [DriverMap.mem_driversAt (sound.wellFormed call.symbol).ordered]
  · simp [same]

/--
After every run of calls that reach across no shared list, a further such call
succeeds and changes the driver set of every bit as stated.
-/
theorem addDrivers_exact {calls : List DriverCall} {state : TrackerState}
    (run : GuardedRun step Writable {} calls state) (call : DriverCall)
    (writable : state.Writable call) :
    ∃ result, state.step call = some result ∧ state.AddsExactly result call := by
  have sound : state.Sound := run.invariant sound_empty
    fun before label after beforeSound allowed stepped => by
      obtain ⟨result, resultEq, resultSound, _⟩ := beforeSound.step_adds allowed
      rw [stepped] at resultEq
      cases resultEq
      exact resultSound
  obtain ⟨result, stepped, _, adds⟩ := sound.step_adds writable
  exact ⟨result, stepped, adds⟩

/-- The call is one for the bit of the symbol. -/
def Covering (symbol : ValueSymbol) (bit : Int) (call : DriverCall) : Prop :=
  symbol.id = call.symbol.id ∧ bit ∈ call.bounds

/--
After a run of calls without merging that reach across no shared list, a bit has
the drivers of the last call that covers it.
-/
theorem driversAt_run {calls : List DriverCall} {state : TrackerState}
    (run : GuardedRun step Writable {} calls state)
    (replaces : ∀ call ∈ calls, call.merge = false) :
    state.Sound ∧ ∀ symbol bit driver, driver ∈ state.driversAt symbol bit ↔
      ∃ call, LastMatch (Covering symbol bit) calls call ∧ driver ∈ call.driverList.nodes := by
  induction run with
  | nil =>
      refine ⟨sound_empty, fun symbol bit driver => ⟨fun member => ?_, ?_⟩⟩
      · simp [driversAt, driverMap, ValueTracker.driverMap, ValueTracker.getSlot,
          DriverMap.driversAt, DriverMap.listAt, IntervalMap.nil] at member
      · rintro ⟨call, last, _⟩
        exact absurd last not_lastMatch_nil
  | snoc run writable stepped ih =>
      next calls state next call =>
      obtain ⟨sound, drivers⟩ := ih fun other member =>
        replaces other (List.mem_append_left _ member)
      obtain ⟨result, resultEq, resultSound, adds⟩ := sound.step_adds writable
      obtain rfl : next = result := Option.some.inj (stepped.symm.trans resultEq)
      have replaced : call.merge = false := replaces call (List.mem_append_right _ (by simp))
      refine ⟨resultSound, fun symbol bit driver => ?_⟩
      have lasts (other : DriverCall) : LastMatch (Covering symbol bit) (calls ++ [call]) other ↔
          (other = call ∧ Covering symbol bit call) ∨
            LastMatch (Covering symbol bit) calls other ∧ ¬ Covering symbol bit call := by
        rw [lastMatch_append, lastMatch_cons]
        simp [not_lastMatch_nil]
      simp only [lasts]
      rw [adds symbol bit]
      by_cases covers : symbol.id = call.symbol.id ∧ bit ∈ call.bounds
      · rw [if_pos covers, replaced]
        simp [Covering, covers]
      · rw [if_neg covers, drivers]
        simp only [Covering, covers, and_false, not_false_eq_true, and_true, false_or]

/-- The state after a list of calls that succeed, for runs on fixed calls. -/
def after (calls : List DriverCall) : TrackerState :=
  (calls.foldlM step {}).getD {}

/-- The call for the assignment numbered `serial` to a range of the symbol `t`. -/
def assignCall (left right : Int) (serial : Nat) : DriverCall where
  symbol := { id := 0, name := "t", selectableWidth := 10 }
  bounds := ⟨left, right⟩
  driverList := [{ node := some ⟨0, .assignment, serial⟩ }]

/-- `t[7:0] = a; t[4:3] = b; t[5:2] = c;` reaches across no shared list. -/
theorem addDrivers_exact_inner :
    ∃ result, (after [assignCall 7 0 0, assignCall 4 3 1]).step (assignCall 5 2 2) =
      some result ∧ (after [assignCall 7 0 0, assignCall 4 3 1]).AddsExactly result
        (assignCall 5 2 2) := by
  have run : GuardedRun step Writable {} [assignCall 7 0 0, assignCall 4 3 1]
      (after [assignCall 7 0 0, assignCall 4 3 1]) :=
    GuardedRun.of_foldlM (by decide +kernel)
  exact addDrivers_exact run (assignCall 5 2 2) (by decide +kernel)

/-- `t[7:0] = a; t[4:3] = b; t[2:0] = c;`: the last call also changes the bits 5 to 7. -/
theorem addDrivers_not_exact :
    ∃ state result, Run step {} [assignCall 7 0 0, assignCall 4 3 1] state ∧
      state.step (assignCall 2 0 2) = some result ∧
      ¬ state.AddsExactly result (assignCall 2 0 2) := by
  refine ⟨after [assignCall 7 0 0, assignCall 4 3 1],
    after [assignCall 7 0 0, assignCall 4 3 1, assignCall 2 0 2],
    GuardedRun.of_foldlM (by decide +kernel), by decide +kernel, fun exactly => ?_⟩
  exact absurd (exactly (assignCall 2 0 2).symbol 6) (by decide +kernel)

/-! ## Live handles -/

/-- A call without merging drops no list that an interval outside its bounds uses. -/
def Releasable (state : TrackerState) (call : DriverCall) : Prop :=
  call.merge = false → (state.driverMap call.symbol).Releasable call.bounds

instance (state : TrackerState) (call : DriverCall) : Decidable (state.Releasable call) :=
  inferInstanceAs (Decidable (_ → _))

/--
Without merging, an interval that is not inside the bounds of the call is a part
of an old one, and its list is not one of those that the call drops.
-/
def KeepsLists (state result : TrackerState) (call : DriverCall) : Prop :=
  call.merge = false → ∀ entry ∈ (result.driverMap call.symbol).driverIntervals.entries,
    ¬ entry.Inside call.bounds.lower call.bounds.upper →
      (∃ old ∈ (state.driverMap call.symbol).driverIntervals.entries,
        old.value = entry.value ∧ old.first ≤ entry.first ∧ entry.second ≤ old.second) ∧
      ∀ dropped ∈ (state.driverMap call.symbol).driverIntervals.entries,
        DriverMap.ProperlyInside dropped call.bounds → dropped.value ≠ entry.value

theorem Sound.step_keeps {state : TrackerState} (sound : state.Sound) {call : DriverCall}
    (releasable : state.Releasable call) :
    ∃ result, state.step call = some result ∧ result.Sound ∧ state.KeepsLists result call := by
  obtain ⟨map, added, wellFormed, keeps⟩ := DriverMap.addDrivers_wellFormed
    (sound.wellFormed call.symbol) call.driverList call.merge releasable
  obtain ⟨result, stepped, resultSound, maps⟩ := step_spec sound call wellFormed added
  refine ⟨result, stepped, resultSound, fun replaces entry entryMem outside => ?_⟩
  rw [maps call.symbol, if_pos rfl] at entryMem
  obtain ⟨old, oldMem, same, first, second⟩ := keeps replaces entry entryMem outside
  refine ⟨⟨old, oldMem, same, first, second⟩, fun dropped droppedMem inside shared => ?_⟩
  have oldInside := releasable replaces dropped droppedMem inside old oldMem
    (same.trans shared.symm)
  simp only [Interval.Inside] at outside oldInside
  omega

/--
After every run in which no call drops a list that an interval outside its
bounds still uses, the stored intervals are intact, and a further such call
succeeds and leaves no interval with a list that it dropped.
-/
theorem intervals_intact {calls : List DriverCall} {state : TrackerState}
    (run : GuardedRun step Releasable {} calls state) :
    (∀ symbol, (state.driverMap symbol).Intact) ∧
      ∀ call, state.Releasable call →
        ∃ result, state.step call = some result ∧ state.KeepsLists result call := by
  have sound : state.Sound := run.invariant sound_empty
    fun before label after beforeSound allowed stepped => by
      obtain ⟨result, resultEq, resultSound, _⟩ := beforeSound.step_keeps allowed
      rw [stepped] at resultEq
      cases resultEq
      exact resultSound
  refine ⟨fun symbol => (sound.wellFormed symbol).intact, fun call releasable => ?_⟩
  obtain ⟨result, stepped, _, keeps⟩ := sound.step_keeps releasable
  exact ⟨result, stepped, keeps⟩

/-- `t[7:0] = a; t[4:3] = b;` drops no list in use. -/
theorem intervals_intact_inner :
    (∀ symbol, ((after [assignCall 7 0 0, assignCall 4 3 1]).driverMap symbol).Intact) ∧
      ∀ call, (after [assignCall 7 0 0, assignCall 4 3 1]).Releasable call →
        ∃ result, (after [assignCall 7 0 0, assignCall 4 3 1]).step call = some result ∧
          (after [assignCall 7 0 0, assignCall 4 3 1]).KeepsLists result call := by
  have run : GuardedRun step Releasable {} [assignCall 7 0 0, assignCall 4 3 1]
      (after [assignCall 7 0 0, assignCall 4 3 1]) :=
    GuardedRun.of_foldlM (by decide +kernel)
  exact intervals_intact run

/--
`t[1:0] = a; t[9:2] = b; t[5:4] = c; t[3:0] = d;`: the last call frees the list
that the interval of the bits 6 to 9 still uses.
-/
theorem intervals_not_intact :
    ∃ state, Run step {} [assignCall 1 0 0, assignCall 9 2 1, assignCall 5 4 2,
      assignCall 3 0 3] state ∧
      ∃ entry ∈ (state.driverMap (assignCall 9 2 1).symbol).driverIntervals.entries,
        (state.driverMap (assignCall 9 2 1).symbol).getDriverList entry.value = none := by
  refine ⟨after [assignCall 1 0 0, assignCall 9 2 1, assignCall 5 4 2, assignCall 3 0 3],
    GuardedRun.of_foldlM (by decide +kernel), ⟨6, 9, 1⟩, by decide +kernel, by decide +kernel⟩

end TrackerState

end SlangNetlist
