import SlangNetlist.Analysis.JoinedDefinitions

/-!
# The states of a block

In every state that the analysis of a block comes to, the definitions of each
symbol are disjoint intervals and the vector of definitions fits the slots.
-/

namespace SlangNetlist

open Library

namespace DataFlowAnalysis

variable {resolveAssignBits : Bool} {dfa middle next : DataFlowAnalysis}

/-- The next analysis is tidy, and it has the slots of the one before. -/
structure Continues (dfa next : DataFlowAnalysis) : Prop where
  tidy : next.tracked.Tidy
  grows : dfa.valueTracker.Grows next.valueTracker

theorem Continues.same (tidy : dfa.tracked.Tidy) (tracked : next.tracked = dfa.tracked) :
    Continues dfa next :=
  have none := @Defining.same dfa next (fun _ _ => False) tidy tracked fun _ _ => id
  ⟨none.tidy, none.grows⟩

theorem Continues.trans (first : Continues dfa middle) (second : Continues middle next) :
    Continues dfa next :=
  ⟨second.tidy, first.grows.trans second.grows⟩

theorem Defining.continues {bits : ValueSymbol → Int → Prop} (defining : Defining dfa next bits) :
    Continues dfa next :=
  ⟨defining.tidy, defining.grows⟩

/-- Another vector that fits goes on with the slots. -/
theorem Continues.setState {state : AnalysisState}
    (tidy : TrackerState.Tidy ⟨dfa.valueTracker, state.valueDrivers⟩) :
    Continues dfa (dfa.setState state) :=
  ⟨tidy, ValueTracker.Grows.refl _⟩

/-- Other steps than writes, and writes that are not blocking, leave the definitions alone. -/
theorem step_tracked {move : AssignmentStep}
    (other : dfa.isBlocking = false ∨ ∀ written lsp bounds, move ≠ .write written lsp bounds)
    (stepped : dfa.step move = some next) : next.tracked = dfa.tracked := by
  cases move with
  | write written lsp bounds =>
      have queued := other.resolve_right fun differs => differs written lsp bounds rfl
      simp only [step, handleLvalue, queued, Bool.false_eq_true, not_false_iff, if_true]
        at stepped
      cases stepped
      rfl
  | enter saved location =>
      cases stepped
      exact enter_tracked dfa saved location
  | read access | readLeft access =>
      obtain ⟨calls, rfl⟩ := read_appends stepped
      rfl
  | constant value srcLo location segment fallbackLoc =>
      simp only [step, driveRhsSource] at stepped
      split at stepped <;> cases stepped <;> rfl
  | stop => cases stepped

theorem run_tracked {moves : List AssignmentStep}
    (unwritten : dfa.isBlocking = false ∨
      ∀ move ∈ moves, ∀ written lsp bounds, move ≠ .write written lsp bounds)
    (ran : moves.foldlM step dfa = some next) : next.tracked = dfa.tracked := by
  induction moves generalizing dfa with
  | nil =>
      cases ran
      rfl
  | cons move rest ih =>
      obtain ⟨middle, stepped, ran⟩ := foldlM_cons_eq_some.mp ran
      have first := step_tracked (unwritten.imp_right fun unwritten =>
        unwritten move List.mem_cons_self) stepped
      refine (ih (unwritten.imp (SameWalk.step stepped).isBlocking.trans fun unwritten other
        member => unwritten other (List.mem_cons_of_mem move member)) ran).trans first

/-- Every step of an assignment, blocking or not. -/
theorem Continues.step {move : AssignmentStep} (tidy : dfa.tracked.Tidy)
    (stepped : dfa.step move = some next) : Continues dfa next := by
  cases isBlocking : dfa.isBlocking with
  | true => exact (step_defining tidy isBlocking stepped).continues
  | false => exact Continues.same tidy (step_tracked (Or.inl isBlocking) stepped)

theorem Continues.run {moves : List AssignmentStep} (tidy : dfa.tracked.Tidy)
    (ran : moves.foldlM DataFlowAnalysis.step dfa = some next) : Continues dfa next :=
  holds_of_foldlM (Continues dfa) (Continues.same tidy rfl)
    (fun _ _ _ _ continued stepped => continued.trans (Continues.step continued.tidy stepped)) ran

theorem assignmentStart_tracked (resolveAssignBits : Bool) (dfa : DataFlowAnalysis)
    (expr : AssignmentExpression) :
    (assignmentStart resolveAssignBits dfa expr).tracked = dfa.tracked := by
  unfold assignmentStart
  split <;> rfl

theorem Continues.handleAssignment (flagged : dfa.isLValue = false) (tidy : dfa.tracked.Tidy)
    {expr : AssignmentExpression}
    (handled : dfa.handleAssignment resolveAssignBits expr = some next) : Continues dfa next := by
  rw [handleAssignment_eq resolveAssignBits dfa expr flagged] at handled
  have start := assignmentStart_tracked resolveAssignBits dfa expr
  exact (Continues.same tidy start).trans (Continues.run (start ▸ tidy) handled)

/-- The state of a dead arm has no definitions. -/
theorem tidy_armState (tidy : dfa.tracked.Tidy) {tracker : ValueTracker}
    (grows : dfa.valueTracker.Grows tracker) (distinct : tracker.Distinct) (dead : Option Side)
    (side : Side) :
    TrackerState.Tidy ⟨tracker, (dfa.state.armState dead side).valueDrivers⟩ := by
  unfold AnalysisState.armState
  split
  · refine ⟨Nat.zero_le _, distinct, fun symbol => ?_⟩
    simp only [TrackerState.driverMap, ValueTracker.driverMap, AnalysisState.unreachableState]
    cases tracker.getSlot symbol <;> exact IntervalMap.ordered_nil
  · exact (tidy.grow grows distinct).1

theorem Continues.joinState {result other : AnalysisState}
    (tidyResult : TrackerState.Tidy ⟨dfa.valueTracker, result.valueDrivers⟩)
    (tidyOther : TrackerState.Tidy ⟨dfa.valueTracker, other.valueDrivers⟩)
    (joined : dfa.joinState result other = some next) : Continues dfa next := by
  by_cases same : result.reachable = other.reachable
  · exact ⟨(joinState_defining tidyResult tidyOther same joined).2.tidy,
      (joinState_defining tidyResult tidyOther same joined).2.grows⟩
  · rw [DataFlowAnalysis.joinState, if_neg same] at joined
    split at joined
    · cases joined
      exact Continues.setState tidyOther
    · cases joined
      exact Continues.setState tidyResult

/-- A statement leads from tidy states to tidy states. -/
theorem Continues.handleStmt {body : Stmt} (flagged : dfa.isLValue = false)
    (allowed : dfa.prohibitLValue = false) (tidy : dfa.tracked.Tidy)
    (handled : handleStmt resolveAssignBits body dfa = some next) : Continues dfa next := by
  induction body generalizing dfa next with
  | skip =>
      cases handled
      exact Continues.same tidy rfl
  | assign expr => exact Continues.handleAssignment flagged tidy handled
  | force expr =>
      simp only [DataFlowAnalysis.handleStmt, Option.bind_eq_bind, Option.bind_eq_some_iff,
        Option.some.injEq] at handled
      obtain ⟨middle, handled, rfl⟩ := handled
      have assigned := @Continues.handleAssignment resolveAssignBits
        { dfa with prohibitLValue := true } middle flagged tidy expr handled
      exact ⟨assigned.tidy, assigned.grows⟩
  | decide kind location condition =>
      have visited : visit (dfa.enterDecision kind location) condition = some next := handled
      rw [visit_eq _ false] at visited
      have entered := Continues.same tidy (enterDecision_tracked dfa kind location)
      exact entered.trans (Continues.run entered.tidy visited)
  | seq first second firstIh secondIh =>
      simp only [DataFlowAnalysis.handleStmt, Option.bind_eq_bind, Option.bind_eq_some_iff]
        at handled
      obtain ⟨middle, front, back⟩ := handled
      have same := (SameBlock.handleStmt first flagged allowed front).1
      have firstContinues := firstIh flagged allowed tidy front
      exact firstContinues.trans (secondIh (same.isLValue.trans flagged)
        (same.prohibitLValue.trans allowed) firstContinues.tidy back)
  | either dead intoFirst first second firstIh secondIh =>
      simp only [DataFlowAnalysis.handleStmt, Option.bind_eq_bind, Option.bind_eq_some_iff]
        at handled
      obtain ⟨afterFirst, firstArm, afterSecond, secondArm, joined⟩ := handled
      have firstContinues := @firstIh (dfa.setState (dfa.state.armState dead .first)) afterFirst
        flagged allowed (tidy_armState tidy (ValueTracker.Grows.refl _) tidy.distinct dead .first)
        firstArm
      have same := (@SameBlock.handleStmt resolveAssignBits first
        (dfa.setState (dfa.state.armState dead .first)) afterFirst flagged allowed firstArm).1
      have secondContinues := @secondIh (afterFirst.setState (dfa.state.armState dead .second))
        afterSecond (same.isLValue.trans flagged) (same.prohibitLValue.trans allowed)
        (tidy_armState tidy firstContinues.grows firstContinues.tidy.distinct dead .second)
        secondArm
      have firstTidy := (firstContinues.tidy.grow secondContinues.grows
        secondContinues.tidy.distinct).1
      have toSecond : dfa.valueTracker.Grows afterSecond.valueTracker :=
        firstContinues.grows.trans secondContinues.grows
      cases intoFirst with
      | true =>
          have join := Continues.joinState firstTidy secondContinues.tidy joined
          exact ⟨join.tidy, toSecond.trans join.grows⟩
      | false =>
          have join := Continues.joinState secondContinues.tidy firstTidy joined
          exact ⟨join.tidy, toSecond.trans join.grows⟩
  | jump =>
      cases handled
      exact Continues.setState (tidy_armState tidy (ValueTracker.Grows.refl _) tidy.distinct
        (some .first) .first)

/-- The analysis comes to every position in a tidy state. -/
theorem Continues.stateAt {body : Stmt} {position : Position} (flagged : dfa.isLValue = false)
    (allowed : dfa.prohibitLValue = false) (tidy : dfa.tracked.Tidy)
    (at_ : stateAt resolveAssignBits body position dfa = some next) :
    Continues dfa next ∧ SameBlock dfa next := by
  induction body generalizing position dfa next with
  | skip | assign | force | decide | jump =>
      cases position with
      | nil =>
          cases at_
          exact ⟨Continues.same tidy rfl, SameBlock.refl dfa⟩
      | cons side rest => cases at_
  | seq first second firstIh secondIh =>
      cases position with
      | nil => cases at_
      | cons side rest =>
          cases side with
          | first => exact firstIh flagged allowed tidy at_
          | second =>
              simp only [DataFlowAnalysis.stateAt, Option.bind_eq_bind, Option.bind_eq_some_iff]
                at at_
              obtain ⟨middle, front, at_⟩ := at_
              have same := (SameBlock.handleStmt first flagged allowed front).1
              have firstContinues := Continues.handleStmt flagged allowed tidy front
              obtain ⟨continues, later⟩ := secondIh (same.isLValue.trans flagged)
                (same.prohibitLValue.trans allowed) firstContinues.tidy at_
              exact ⟨firstContinues.trans continues, same.trans later⟩
  | either dead intoFirst first second firstIh secondIh =>
      cases position with
      | nil => cases at_
      | cons side rest =>
          cases side with
          | first =>
              obtain ⟨continues, same⟩ := @firstIh (dfa.setState (dfa.state.armState dead .first))
                next rest flagged allowed
                (tidy_armState tidy (ValueTracker.Grows.refl _) tidy.distinct dead .first) at_
              exact ⟨⟨continues.tidy, continues.grows⟩, (SameBlock.setState dfa _).trans same⟩
          | second =>
              simp only [DataFlowAnalysis.stateAt, Option.bind_eq_bind, Option.bind_eq_some_iff]
                at at_
              obtain ⟨afterFirst, firstArm, at_⟩ := at_
              have firstTidy := tidy_armState tidy (ValueTracker.Grows.refl _) tidy.distinct dead
                .first
              have firstContinues := @Continues.handleStmt resolveAssignBits
                (dfa.setState (dfa.state.armState dead .first)) afterFirst first flagged allowed
                firstTidy firstArm
              have same := (@SameBlock.handleStmt resolveAssignBits first
                (dfa.setState (dfa.state.armState dead .first)) afterFirst flagged allowed
                firstArm).1
              have toFirst : SameBlock dfa (afterFirst.setState (dfa.state.armState dead .second)) :=
                ((SameBlock.setState dfa _).trans same).trans (SameBlock.setState afterFirst _)
              obtain ⟨continues, later⟩ := secondIh (toFirst.isLValue.trans flagged)
                (toFirst.prohibitLValue.trans allowed)
                (tidy_armState tidy firstContinues.grows firstContinues.tidy.distinct dead .second)
                at_
              exact ⟨⟨continues.tidy, firstContinues.grows.trans continues.grows⟩,
                toFirst.trans later⟩

end DataFlowAnalysis

end SlangNetlist
