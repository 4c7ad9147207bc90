import SlangNetlist.Analysis.DrivenDefinitions
import SlangNetlist.Build.ReadCalls
import SlangNetlist.Tracking.Overwrites

/-!
# What the reads of an assignment meet

The references of an assignment are known before its walk, and so are the
intervals that its writes leave.  From the definitions before the assignment
and the writes before a read follows what becomes of each bit of the read.
-/

namespace SlangNetlist

open Library

namespace Ends

/-- Some interval covers the bounds, or lies inside them. -/
def Met (bounds : DriverBitRange) (all : List Ends) : Prop :=
  ∃ own ∈ all, (own.1 ≤ bounds.lower ∧ bounds.upper ≤ own.2) ∨
    (bounds.lower ≤ own.1 ∧ own.2 ≤ bounds.upper)

/--
No interval covers the bounds, and the bit is in none; or it is the last one of
the bounds and an interval ends just below it.
-/
def Free (bounds : DriverBitRange) (all : List Ends) (bit : Int) : Prop :=
  bit ∈ bounds ∧ (∀ own ∈ all, ¬ (own.1 ≤ bounds.lower ∧ bounds.upper ≤ own.2)) ∧
    ((∀ own ∈ all, ¬ (own.1 ≤ bit ∧ bit ≤ own.2)) ∨
      bit = bounds.upper ∧ ∃ own ∈ all, bounds.lower ≤ own.2 ∧ own.2 + 1 = bounds.upper)

variable {bounds : DriverBitRange} {all other : List Ends}

theorem met_congr (same : ∀ own, own ∈ all ↔ own ∈ other) : Met bounds all ↔ Met bounds other := by
  simp only [Met, same]

theorem free_congr (same : ∀ own, own ∈ all ↔ own ∈ other) {bit : Int} :
    Free bounds all bit ↔ Free bounds other bit := by
  simp only [Free, same]

end Ends

namespace DriverMap

variable {map : DriverMap} {bounds : DriverBitRange}

/-- The intervals that a read takes are met by it. -/
theorem met_iff (ordered : map.driverIntervals.Ordered) :
    Ends.Met bounds map.ends ↔ ∃ entry ∈ map.find bounds,
      CoversRead entry bounds ∨ entry.Inside bounds.lower bounds.upper := by
  have range := bounds.lower_le_upper
  simp only [Ends.Met, exists_mem_ends]
  constructor
  · rintro ⟨entry, entryMem, relevant⟩
    have proper := ordered.proper entry entryMem
    refine ⟨entry, IntervalMap.mem_find.mpr ⟨entryMem, ?_⟩, relevant⟩
    simp only [Interval.Overlaps]
    omega
  · rintro ⟨entry, found, relevant⟩
    exact ⟨entry, (IntervalMap.mem_find.mp found).1, relevant⟩

/-- The bits that a read passes on are free. -/
theorem free_iff {bit : Int} : Ends.Free bounds map.ends bit ↔ map.Pended bounds bit := by
  have range := bounds.lower_le_upper
  simp only [Ends.Free, Pended, exists_mem_ends, forall_mem_ends]
  refine and_congr_right fun inside => and_congr ?_ (or_congr ?_ Iff.rfl)
  · constructor
    · intro none entry found
      exact none entry (IntervalMap.mem_find.mp found).1
    · intro none entry entryMem covers
      refine none entry (IntervalMap.mem_find.mpr ⟨entryMem, ?_⟩) covers
      simp only [Interval.Overlaps]
      omega
  · simp [IntervalMap.Covers, Interval.Covers]

end DriverMap

/-- The intervals of a symbol after a step of a blocking assignment. -/
def AssignmentStep.endsAfter (symbol : ValueSymbol) (all : List Ends) :
    AssignmentStep → List Ends
  | .write written _ bounds =>
      if written.id = symbol.id then Ends.overwrite bounds all else all
  | _ => all

namespace DataFlowAnalysis

/-- The intervals of a symbol before the assignment, with the writes of the given steps over them. -/
def endsBefore (dfa : DataFlowAnalysis) (expr : AssignmentExpression)
    (front : List AssignmentStep) (symbol : ValueSymbol) : List Ends :=
  if expr.isBlocking then
    front.foldl (AssignmentStep.endsAfter symbol) (dfa.definitions symbol).ends
  else (dfa.definitions symbol).ends

variable {dfa next : DataFlowAnalysis} {resolveAssignBits : Bool} {symbol : ValueSymbol}

theorem endsAfter_congr {all other : List Ends} (same : ∀ own, own ∈ all ↔ own ∈ other)
    (move : AssignmentStep) (own : Ends) :
    own ∈ move.endsAfter symbol all ↔ own ∈ move.endsAfter symbol other := by
  cases move with
  | write written lsp bounds =>
      simp only [AssignmentStep.endsAfter]
      split
      · exact Ends.mem_overwrite_congr same
      · exact same own
  | enter | read | readLeft | constant | stop => exact same own

theorem foldl_endsAfter_congr {front : List AssignmentStep} {all other : List Ends}
    (same : ∀ own, own ∈ all ↔ own ∈ other) (own : Ends) :
    own ∈ front.foldl (AssignmentStep.endsAfter symbol) all ↔
      own ∈ front.foldl (AssignmentStep.endsAfter symbol) other := by
  induction front generalizing all other with
  | nil => exact same own
  | cons move rest ih => exact ih (endsAfter_congr same move)

theorem foldl_endsAfter_unwritten {front : List AssignmentStep} {all : List Ends}
    (unwritten : ∀ move ∈ front, ∀ written lsp bounds, move ≠ .write written lsp bounds) :
    front.foldl (AssignmentStep.endsAfter symbol) all = all := by
  induction front generalizing all with
  | nil => rfl
  | cons move rest ih =>
      obtain ⟨other, unwritten⟩ := List.forall_mem_cons.mp unwritten
      rw [List.foldl_cons, ih unwritten]
      cases move with
      | write written lsp bounds => exact absurd rfl (other written lsp bounds)
      | enter | read | readLeft | constant | stop => rfl

/-- A step of a blocking assignment writes its bounds over the intervals. -/
theorem ends_step (tidy : dfa.tracked.Tidy) (isBlocking : dfa.isBlocking = true)
    {move : AssignmentStep} (stepped : dfa.step move = some next) (own : Ends) :
    own ∈ (next.definitions symbol).ends ↔
      own ∈ move.endsAfter symbol (dfa.definitions symbol).ends := by
  cases move with
  | write written lsp bounds =>
      rw [step, handleLvalue_eq isBlocking, Option.map_eq_some_iff] at stepped
      obtain ⟨tracked, stepped, rfl⟩ := stepped
      obtain ⟨_, _, map, added, maps⟩ := TrackerState.driverMap_step tidy.fits stepped
      have overwritten := DriverMap.addDrivers_overwritten (tidy.ordered written) added
      have after : own ∈ (tracked.driverMap symbol).ends ↔ own ∈ (AssignmentStep.write written lsp
          bounds).endsAfter symbol (dfa.tracked.driverMap symbol).ends := by
        rw [maps symbol, AssignmentStep.endsAfter]
        by_cases same : symbol.id = written.id
        · have sameMap : dfa.tracked.driverMap symbol = dfa.tracked.driverMap written :=
            dfa.valueTracker.driverMap_congr dfa.state.valueDrivers same
          rw [if_pos same.symm, sameMap, if_pos (show symbol.id = (dfa.writeCall written lsp
            bounds).symbol.id from same)]
          exact overwritten own
        · rw [if_neg (Ne.symm same), if_neg (show ¬ symbol.id = (dfa.writeCall written lsp
            bounds).symbol.id from same)]
      exact after
  | enter saved location =>
      cases stepped
      have same := congrArg (TrackerState.driverMap · symbol) (enter_tracked dfa saved location)
      exact iff_of_eq (congrArg (own ∈ DriverMap.ends ·) same)
  | read access | readLeft access =>
      obtain ⟨calls, rfl⟩ := read_appends stepped
      rfl
  | constant value srcLo location segment fallbackLoc =>
      simp only [step, driveRhsSource] at stepped
      split at stepped <;> cases stepped <;> rfl
  | stop => cases stepped

theorem ends_run {moves : List AssignmentStep} (tidy : dfa.tracked.Tidy)
    (isBlocking : dfa.isBlocking = true) (ran : moves.foldlM step dfa = some next) (own : Ends) :
    own ∈ (next.definitions symbol).ends ↔
      own ∈ moves.foldl (AssignmentStep.endsAfter symbol) (dfa.definitions symbol).ends := by
  induction moves generalizing dfa with
  | nil =>
      cases ran
      rfl
  | cons move rest ih =>
      obtain ⟨middle, stepped, ran⟩ := foldlM_cons_eq_some.mp ran
      rw [ih (Continues.step tidy stepped).tidy ((SameWalk.step stepped).isBlocking.trans isBlocking)
        ran, List.foldl_cons]
      exact foldl_endsAfter_congr (fun own => ends_step tidy isBlocking stepped own) own

/-- The intervals at a read follow from those before the assignment and the writes before it. -/
theorem mem_endsBefore {expr : AssignmentExpression} {front back : List AssignmentStep}
    (tidy : dfa.tracked.Tidy)
    (steps : assignmentSteps resolveAssignBits dfa expr = front ++ back)
    (ran : front.foldlM step (assignmentStart resolveAssignBits dfa expr) = some next) (own : Ends) :
    own ∈ (next.definitions symbol).ends ↔ own ∈ dfa.endsBefore expr front symbol := by
  have started := assignmentStart_tracked resolveAssignBits dfa expr
  have start : ((assignmentStart resolveAssignBits dfa expr).definitions symbol).ends =
      (dfa.definitions symbol).ends :=
    congrArg (fun tracked => (TrackerState.driverMap tracked symbol).ends) started
  have kept (unwritten : (assignmentStart resolveAssignBits dfa expr).isBlocking = false ∨
      ∀ move ∈ front, ∀ written lsp bounds, move ≠ .write written lsp bounds) :
      (next.definitions symbol).ends = (dfa.definitions symbol).ends :=
    (congrArg (fun tracked => (TrackerState.driverMap tracked symbol).ends)
      (run_tracked unwritten ran)).trans start
  by_cases forced : (assignmentStart resolveAssignBits dfa expr).isBlocking = expr.isBlocking
  · unfold endsBefore
    split
    · next isBlocking => rw [ends_run (started ▸ tidy) (forced.trans isBlocking) ran, start]
    · next queued => rw [kept (Or.inl (forced.trans (by simpa using queued)))]
  · have prohibited : dfa.prohibitLValue = true := by
      unfold assignmentStart at forced
      split at forced
      · next both => exact both.2
      · exact absurd rfl forced
    have unwritten : ∀ move ∈ front, ∀ written lsp bounds, move ≠ .write written lsp bounds := by
      rintro _ member written lsp bounds rfl
      have inAll := List.mem_append_left back member
      rw [← steps] at inAll
      exact write_not_mem_force prohibited inAll
    rw [kept (Or.inr unwritten), endsBefore, foldl_endsAfter_unwritten unwritten, ite_self]

end DataFlowAnalysis

end SlangNetlist
