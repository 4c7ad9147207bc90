import SlangNetlist.Analysis.NonBlockingWrites
import SlangNetlist.Analysis.ReachableStates

/-!
# The calls of the tracker

The calls of `addDrivers` that a walk makes where control gets to, each with the
tracker before it.  As long as none of them reaches across a shared list, a
write gives its bits the current node, and a join unites the drivers of its arms.
-/

namespace SlangNetlist

open Library

namespace TrackerState

/-- The calls of a run, each with the state before it. -/
def trace : List DriverCall → TrackerState → List (TrackerState × DriverCall)
  | [], _ => []
  | call :: rest, state => (state, call) :: (state.step call).elim [] (trace rest)

/-- No call reaches across a shared list. -/
def Separated (calls : List (TrackerState × DriverCall)) : Prop :=
  ∀ call ∈ calls, call.1.Writable call.2

instance (calls : List (TrackerState × DriverCall)) : Decidable (Separated calls) :=
  inferInstanceAs (Decidable (∀ _ ∈ calls, _))

theorem separated_append {front back : List (TrackerState × DriverCall)} :
    Separated (front ++ back) ↔ Separated front ∧ Separated back :=
  List.forall_mem_append

variable {state result : TrackerState} {symbol : ValueSymbol} {bit : Int}
  {driver : Option NodeRef}

/-- A call that reaches across no shared list replaces or adds to the drivers of its bits. -/
theorem Sound.mem_driversAt (sound : state.Sound) {call : DriverCall}
    (writable : state.Writable call) (stepped : state.step call = some result) :
    result.Sound ∧ ∀ symbol bit driver, driver ∈ result.driversAt symbol bit ↔
      Covering symbol bit call ∧ driver ∈ call.driverList.nodes ∨
        (Covering symbol bit call → call.merge = true) ∧ driver ∈ state.driversAt symbol bit := by
  obtain ⟨other, again, resultSound, adds⟩ := sound.step_adds writable
  obtain rfl := Option.some.inj (stepped.symm.trans again)
  refine ⟨resultSound, fun symbol bit driver => ?_⟩
  rw [adds symbol bit]
  unfold Covering
  by_cases covers : symbol.id = call.symbol.id ∧ bit ∈ call.bounds
  · rw [if_pos covers]
    cases merges : call.merge <;> simp [covers, or_comm]
  · rw [if_neg covers]
    simp [covers]

/-- Merging calls add their drivers to the bits that they cover. -/
theorem Sound.run_merges {calls : List DriverCall} (sound : state.Sound)
    (merges : ∀ call ∈ calls, call.merge = true) (separated : Separated (trace calls state))
    (ran : calls.foldlM step state = some result) :
    result.Sound ∧ ∀ symbol bit driver, driver ∈ result.driversAt symbol bit ↔
      driver ∈ state.driversAt symbol bit ∨
        ∃ call ∈ calls, Covering symbol bit call ∧ driver ∈ call.driverList.nodes := by
  induction calls generalizing state with
  | nil =>
      cases ran
      exact ⟨sound, by simp⟩
  | cons call rest ih =>
      obtain ⟨middle, stepped, ran⟩ := foldlM_cons_eq_some.mp ran
      obtain ⟨merge, merges⟩ := List.forall_mem_cons.mp merges
      rw [trace, stepped, Option.elim_some] at separated
      obtain ⟨writable, separated⟩ := List.forall_mem_cons.mp separated
      obtain ⟨middleSound, first⟩ := sound.mem_driversAt writable stepped
      obtain ⟨resultSound, others⟩ := ih middleSound merges separated ran
      refine ⟨resultSound, fun symbol bit driver => ?_⟩
      rw [others, first, List.exists_mem_cons_iff]
      simp only [merge, implies_true, true_and]
      rw [or_assoc, or_left_comm]

/-- The same drivers under a tracker with more slots. -/
theorem Sound.grow (sound : state.Sound) {later : ValueTracker}
    (grows : state.tracker.Grows later) :
    Sound ⟨later, state.drivers⟩ ∧ ∀ symbol bit,
      driversAt ⟨later, state.drivers⟩ symbol bit = state.driversAt symbol bit := by
  have maps := ValueTracker.driverMap_grows sound.fits grows
  refine ⟨⟨sound.fits.grows grows, fun symbol => ?_⟩, fun symbol bit => ?_⟩
  · simp only [driverMap, maps]
    exact sound.wellFormed symbol
  · simp only [driversAt, driverMap, maps]

end TrackerState

open TrackerState

namespace DataFlowAnalysis

variable {resolveAssignBits : Bool} {dfa middle next : DataFlowAnalysis}
  {symbol : ValueSymbol} {bit : Int} {driver : Option NodeRef}

/-! ## Assignments -/

/-- The call of the tracker that a step makes. -/
def ownCalls (dfa : DataFlowAnalysis) : AssignmentStep → List (TrackerState × DriverCall)
  | .write symbol lsp bounds =>
      if dfa.isBlocking then [(dfa.tracked, dfa.writeCall symbol lsp bounds)] else []
  | _ => []

/-- The calls of the tracker that a run of steps makes. -/
def stepCalls : List AssignmentStep → DataFlowAnalysis → List (TrackerState × DriverCall)
  | [], _ => []
  | move :: rest, dfa => dfa.ownCalls move ++ (dfa.step move).elim [] (stepCalls rest)

/-- A step of a blocking assignment gives the bits that it writes the current node. -/
theorem step_driversAt (sound : dfa.tracked.Sound) (isBlocking : dfa.isBlocking = true)
    {move : AssignmentStep} (separated : Separated (dfa.ownCalls move))
    (stepped : dfa.step move = some next) :
    next.tracked.Sound ∧ ∀ symbol bit driver, driver ∈ next.tracked.driversAt symbol bit ↔
      LastQueued (dfa.queuedBy move) symbol bit driver ∨
        ¬ Written [move] symbol bit ∧ driver ∈ dfa.tracked.driversAt symbol bit := by
  cases move with
  | write symbol lsp bounds =>
      rw [step, handleLvalue_eq isBlocking, Option.map_eq_some_iff] at stepped
      obtain ⟨tracked, stepped, rfl⟩ := stepped
      rw [ownCalls, if_pos isBlocking] at separated
      have writable := separated _ (List.mem_singleton_self _)
      obtain ⟨resultSound, drivers⟩ := sound.mem_driversAt writable stepped
      refine ⟨resultSound, fun other bit driver => ?_⟩
      refine (drivers other bit driver).trans (or_congr ?_ (and_congr_left fun _ => ?_))
      · simp [LastQueued, queuedBy, lastMatch_cons, not_lastMatch_nil, PendingLvalue.Covers,
          Covering, writeCall, DriverList.nodes, eq_comm]
      · simp [Covering, writeCall, Written, eq_comm]
  | enter | read | readLeft | constant | stop =>
      rw [step_tracked (Or.inr (by simp)) stepped]
      refine ⟨sound, fun symbol bit driver => ?_⟩
      simp [LastQueued, queuedBy, not_lastMatch_nil, Written]

/-- A run of a blocking assignment gives each bit that it writes the node that writes it last. -/
theorem run_driversAt {moves : List AssignmentStep} (sound : dfa.tracked.Sound)
    (isBlocking : dfa.isBlocking = true) (separated : Separated (stepCalls moves dfa))
    (ran : moves.foldlM step dfa = some next) :
    next.tracked.Sound ∧ ∀ symbol bit driver, driver ∈ next.tracked.driversAt symbol bit ↔
      RunWrites dfa moves symbol bit driver ∨
        ¬ Written moves symbol bit ∧ driver ∈ dfa.tracked.driversAt symbol bit := by
  induction moves generalizing dfa with
  | nil =>
      cases ran
      exact ⟨sound, fun symbol bit driver => by simp [RunWrites, Written]⟩
  | cons move rest ih =>
      obtain ⟨middle, stepped, ran⟩ := foldlM_cons_eq_some.mp ran
      rw [stepCalls, stepped, Option.elim_some, separated_append] at separated
      obtain ⟨middleSound, first⟩ := step_driversAt sound isBlocking separated.1 stepped
      obtain ⟨nextSound, others⟩ := ih middleSound
        ((SameWalk.step stepped).isBlocking.trans isBlocking) separated.2 ran
      refine ⟨nextSound, fun symbol bit driver => ?_⟩
      have split : ¬ Written (move :: rest) symbol bit ↔
          ¬ Written [move] symbol bit ∧ ¬ Written rest symbol bit := by
        rw [written_cons, not_or]
      rw [others, first, runWrites_cons stepped, split]
      constructor
      · rintro (last | ⟨unwritten, own | ⟨other, old⟩⟩)
        · exact Or.inl (Or.inl last)
        · exact Or.inl (Or.inr ⟨own, unwritten⟩)
        · exact Or.inr ⟨⟨other, unwritten⟩, old⟩
      · rintro ((last | ⟨own, unwritten⟩) | ⟨⟨other, unwritten⟩, old⟩)
        · exact Or.inl last
        · exact Or.inr ⟨unwritten, Or.inl own⟩
        · exact Or.inr ⟨unwritten, Or.inr ⟨other, old⟩⟩

/-! ## Joins -/

/-- The merging calls for one slot of another vector. -/
def slotCalls (tracker : ValueTracker) (map : DriverMap × Nat) : List DriverCall :=
  (tracker.slotToValue[map.2]?).elim [] fun symbol =>
    map.1.driverIntervals.entries.map fun entry =>
      { symbol := symbol
        bounds := ⟨entry.first, entry.second⟩
        driverList := (map.1.getDriverList entry.value).getD []
        merge := true }

/-- The calls that merge a vector. -/
def mergeCalls (tracker : ValueTracker) (drivers : ValueDrivers) : List DriverCall :=
  drivers.zipIdx.flatMap (slotCalls tracker)

/-- The calls of a join, where control gets to from both of its arms. -/
def joinCalls (tracker : ValueTracker) (result other : AnalysisState) :
    List (TrackerState × DriverCall) :=
  if result.reachable && other.reachable then
    trace (mergeCalls tracker other.valueDrivers) ⟨tracker, result.valueDrivers⟩
  else []

/-- Merging a slot is the run of its calls. -/
theorem mergeDefinitions_run {map : DriverMap × Nat}
    (merged : dfa.mergeDefinitions map.2 map.1 = some next) :
    (slotCalls dfa.valueTracker map).foldlM TrackerState.step dfa.tracked = some next.tracked := by
  simp only [mergeDefinitions, Option.bind_eq_bind, Option.bind_eq_some_iff] at merged
  obtain ⟨symbol, found, merged⟩ := merged
  rw [slotCalls, found, Option.elim_some]
  clear found
  generalize map.1.driverIntervals.entries = entries at merged
  induction entries generalizing dfa with
  | nil =>
      cases merged
      rfl
  | cons entry rest ih =>
      simp only [List.foldlM_cons, Option.bind_eq_bind, Option.bind_eq_some_iff,
        Option.some.injEq] at merged
      obtain ⟨_, ⟨driverList, listed, added, adds, rfl⟩, merged⟩ := merged
      rw [List.map_cons, List.foldlM_cons, TrackerState.step, listed]
      simp only [tracked, Option.getD_some, adds, Option.bind_eq_bind, Option.bind_some]
      exact ih merged

/-- Merging all slots is the run of their calls. -/
theorem mergeAll_run {maps : List (DriverMap × Nat)} (merged : dfa.mergeAll maps = some next) :
    (maps.flatMap (slotCalls dfa.valueTracker)).foldlM TrackerState.step dfa.tracked =
      some next.tracked := by
  induction maps generalizing dfa with
  | nil =>
      cases merged
      rfl
  | cons map rest ih =>
      rw [mergeAll, List.foldlM_cons, Option.bind_eq_bind, Option.bind_eq_some_iff] at merged
      obtain ⟨middle, first, merged⟩ := merged
      rw [List.flatMap_cons, List.foldlM_append, mergeDefinitions_run first,
        ← mergeDefinitions_tracker first]
      exact ih merged

theorem mem_entry {map : DriverMap} (ordered : map.driverIntervals.Ordered) {entry : Interval Nat}
    (entryMem : entry ∈ map.driverIntervals.entries) :
    bit ∈ (⟨entry.first, entry.second⟩ : DriverBitRange) ↔ entry.Covers bit := by
  have proper := ordered.proper entry entryMem
  rw [DriverBitRange.mem_iff, DriverBitRange.lower_mk proper, DriverBitRange.upper_mk proper]
  rfl

/-- The calls that merge a vector bring its drivers. -/
theorem mem_mergeCalls {tracker : ValueTracker} {drivers : ValueDrivers}
    (tidy : TrackerState.Tidy ⟨tracker, drivers⟩) :
    (∃ call ∈ mergeCalls tracker drivers, Covering symbol bit call ∧
        driver ∈ call.driverList.nodes) ↔
      driver ∈ TrackerState.driversAt ⟨tracker, drivers⟩ symbol bit := by
  refine Iff.trans ?_ (DriverMap.mem_driversAt (tidy.ordered symbol)).symm
  simp only [TrackerState.driverMap, ValueTracker.driverMap]
  constructor
  · rintro ⟨call, member, ⟨same, inside⟩, drives⟩
    obtain ⟨⟨map, slot⟩, stored, own⟩ := List.mem_flatMap.mp member
    cases found : tracker.slotToValue[slot]? with
    | none => simp [slotCalls, found] at own
    | some value =>
        simp only [slotCalls, found, Option.elim_some, List.mem_map] at own
        obtain ⟨entry, entryMem, rfl⟩ := own
        have slotted := ValueTracker.getSlot_of_getElem? tidy.distinct found
        have found : drivers[slot]? = some map := List.mk_mem_zipIdx_iff_getElem?.mp stored
        simp only [tracker.getSlot_congr same, slotted, found, Option.getD_some]
        cases listed : map.getDriverList entry.value with
        | none => simp [listed] at drives
        | some list =>
            have covers := (mem_entry (ordered_of_mem_zipIdx tidy stored) entryMem).mp inside
            exact ⟨entry, entryMem, covers, list, listed, by simpa [listed] using drives⟩
  · intro drives
    cases slot : tracker.getSlot symbol with
    | none => simp [slot] at drives
    | some index =>
        obtain ⟨inside, same, _⟩ := List.findIdx?_eq_some_iff_getElem.mp slot
        cases found : drivers[index]? with
        | none => simp [slot, found] at drives
        | some map =>
            have stored := List.mk_mem_zipIdx_iff_getElem?.mpr found
            simp only [slot, found, Option.getD_some] at drives
            obtain ⟨entry, entryMem, covers, list, listed, driving⟩ := drives
            let call : DriverCall :=
              { symbol := tracker.slotToValue[index]
                bounds := ⟨entry.first, entry.second⟩
                driverList := list
                merge := true }
            have member : call ∈ mergeCalls tracker drivers := by
              refine List.mem_flatMap.mpr ⟨(map, index), stored, ?_⟩
              rw [slotCalls, List.getElem?_eq_getElem inside, Option.elim_some]
              exact List.mem_map.mpr ⟨entry, entryMem, by rw [listed, Option.getD_some]⟩
            have within := (mem_entry (ordered_of_mem_zipIdx tidy stored) entryMem).mpr covers
            exact ⟨call, member, ⟨(of_decide_eq_true same).symm, within⟩, driving⟩

/-- A join of two states that control gets to unites their drivers. -/
theorem joinState_driversAt {result other : AnalysisState}
    (sound : TrackerState.Sound ⟨dfa.valueTracker, result.valueDrivers⟩)
    (tidy : TrackerState.Tidy ⟨dfa.valueTracker, other.valueDrivers⟩)
    (resultReached : result.reachable = true) (otherReached : other.reachable = true)
    (separated : Separated (joinCalls dfa.valueTracker result other))
    (joined : dfa.joinState result other = some next) :
    next.tracked.Sound ∧ ∀ symbol bit driver, driver ∈ next.tracked.driversAt symbol bit ↔
      driver ∈ TrackerState.driversAt ⟨dfa.valueTracker, result.valueDrivers⟩ symbol bit ∨
        driver ∈ TrackerState.driversAt ⟨dfa.valueTracker, other.valueDrivers⟩ symbol bit := by
  rw [joinState, if_pos (resultReached.trans otherReached.symm)] at joined
  rw [joinCalls, resultReached, otherReached, Bool.and_self, if_pos rfl] at separated
  obtain ⟨tracked, merged, node, condition, only⟩ := mergeStates_eq joined
  have ran := mergeAll_run merged
  have sameTracked : next.tracked = tracked := by
    simp only [DataFlowAnalysis.tracked, only.valueTracker, only.state]
    rfl
  rw [sameTracked]
  have merges : ∀ call ∈ mergeCalls dfa.valueTracker other.valueDrivers, call.merge = true := by
    intro call member
    obtain ⟨map, _, own⟩ := List.mem_flatMap.mp member
    cases found : dfa.valueTracker.slotToValue[map.2]? with
    | none => simp [slotCalls, found] at own
    | some symbol =>
        rw [slotCalls, found, Option.elim_some] at own
        obtain ⟨entry, _, rfl⟩ := List.mem_map.mp own
        rfl
  obtain ⟨resultSound, drivers⟩ := sound.run_merges merges separated ran
  exact ⟨resultSound, fun symbol bit driver =>
    (drivers symbol bit driver).trans (or_congr_right (mem_mergeCalls tidy))⟩

end DataFlowAnalysis

end SlangNetlist
