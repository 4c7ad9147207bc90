import SlangNetlist.Analysis.AssignmentSteps
import SlangNetlist.Tracking.DriverRuns

/-!
# The statements of a block

The handlers of statements and the merging of states at control-flow joins.
slang's walk of a statement is written out as far as it calls them: sequences,
arms that start from copies of one state, and the state behind a jump.
-/

namespace SlangNetlist

open Library

/-- The first or the second part of a statement. -/
inductive Side where
  | first
  | second
  deriving DecidableEq, Repr

/-- A procedural body as the analysis walks it. -/
inductive Stmt where
  | skip
  | assign (expr : AssignmentExpression)
  /-- A procedural assignment with `isForce`. -/
  | force (expr : AssignmentExpression)
  /-- The head of a conditional or a case whose condition is not constant. -/
  | decide (kind : NodeKind) (location : SourceLocation) (condition : Expr)
  | seq (first second : Stmt)
  /--
  Two arms and their join.  `dead` is the arm that a constant condition rules
  out; `intoFirst` tells which of the two states the other one is joined into.
  -/
  | either (dead : Option Side) (intoFirst : Bool) (first second : Stmt)
  /-- A statement that control does not leave at its end. -/
  | jump
  deriving DecidableEq, Repr

namespace AnalysisState

def unreachableState : AnalysisState := { reachable := false }

/-- The state in which an arm starts: a copy of the state before it, unless it is dead. -/
def armState (state : AnalysisState) (dead : Option Side) (side : Side) : AnalysisState :=
  if dead = some side then unreachableState else state

end AnalysisState

namespace DataFlowAnalysis

/-! ## Joins -/

/-- `NetlistBuilder::merge` of two different nodes. -/
def merge (dfa : DataFlowAnalysis) (a b : NodeRef) : NodeRef × DataFlowAnalysis :=
  let (node, dfa) := dfa.createNode .merge none none
  (node, (dfa.call (.addUnannotated a node .data .exact)).call
    (.addUnannotated b node .data .exact))

/-- The node after a join. -/
def mergeNodes (dfa : DataFlowAnalysis) (a b : Option NodeRef) :
    Option NodeRef × DataFlowAnalysis :=
  match a, b with
  | some a, some b =>
      -- The last return statement of the source also sees two nodes that are the same.
      if a = b then (none, dfa)
      else
        let (node, dfa) := dfa.merge a b
        (some node, dfa)
  | a, none => (a, dfa)
  | none, b => (b, dfa)

/-- Merge the intervals of one slot of another state into the current state. -/
def mergeDefinitions (dfa : DataFlowAnalysis) (slot : Nat) (definitions : DriverMap) :
    Option DataFlowAnalysis := do
  let symbol ← dfa.valueTracker.slotToValue[slot]?
  definitions.driverIntervals.entries.foldlM (fun dfa entry => do
    let driverList ← definitions.getDriverList entry.value
    let (tracker, drivers) ← dfa.valueTracker.addDrivers dfa.state.valueDrivers symbol
      ⟨entry.first, entry.second⟩ driverList true
    some { dfa with
      valueTracker := tracker
      state := { dfa.state with valueDrivers := drivers } }) dfa

/-- Merge another state into the current one. -/
def mergeStates (dfa : DataFlowAnalysis) (other : AnalysisState) : Option DataFlowAnalysis := do
  let dfa ← other.valueDrivers.zipIdx.foldlM (fun dfa (definitions, slot) =>
    dfa.mergeDefinitions slot definitions) dfa
  let (node, dfa) := dfa.mergeNodes dfa.state.node other.node
  let (condition, dfa) := dfa.mergeNodes dfa.state.condition other.condition
  some (dfa.setState { dfa.state with node := node, condition := condition })

/-- Go on with `result` after `other` has been joined into it. -/
def joinState (dfa : DataFlowAnalysis) (result other : AnalysisState) :
    Option DataFlowAnalysis :=
  if result.reachable = other.reachable then (dfa.setState result).mergeStates other
  else if ¬ result.reachable then some (dfa.setState other)
  else some (dfa.setState result)

/-! ## Statements -/

/-- The walk of a statement. -/
def handleStmt (resolveAssignBits : Bool) : Stmt → DataFlowAnalysis → Option DataFlowAnalysis
  | .skip, dfa => some dfa
  | .assign expr, dfa => dfa.handleAssignment resolveAssignBits expr
  | .force expr, dfa => do
      let dfa ← handleAssignment resolveAssignBits { dfa with prohibitLValue := true } expr
      some { dfa with prohibitLValue := false }
  | .decide kind location condition, dfa =>
      let (node, dfa) := dfa.createNode kind location none
      visit (dfa.updateNode node true) condition
  | .seq first second, dfa => do
      let dfa ← handleStmt resolveAssignBits first dfa
      handleStmt resolveAssignBits second dfa
  | .either dead intoFirst first second, dfa => do
      let afterFirst ← handleStmt resolveAssignBits first
        (dfa.setState (dfa.state.armState dead .first))
      let afterSecond ← handleStmt resolveAssignBits second
        (afterFirst.setState (dfa.state.armState dead .second))
      if intoFirst then afterSecond.joinState afterFirst.state afterSecond.state
      else afterSecond.joinState afterSecond.state afterFirst.state
  | .jump, dfa => some (dfa.setState .unreachableState)

/-- The walk of a body and the end of the analysis. -/
def runBody (resolveAssignBits : Bool) (dfa : DataFlowAnalysis) (body : Stmt) :
    Option DataFlowAnalysis := do
  let dfa ← handleStmt resolveAssignBits body dfa
  dfa.finalize

/-! ## What a statement leaves alone -/

/-- A statement goes on with the flags and the role and precision before it. -/
structure SameBlock (dfa next : DataFlowAnalysis) : Prop where
  isLValue : next.isLValue = dfa.isLValue
  prohibitLValue : next.prohibitLValue = dfa.prohibitLValue
  task : next.task = dfa.task
  role : next.dependencyRole = dfa.dependencyRole
  precision : next.dependencyPrecision = dfa.dependencyPrecision

theorem SameBlock.refl (dfa : DataFlowAnalysis) : SameBlock dfa dfa := ⟨rfl, rfl, rfl, rfl, rfl⟩

theorem SameBlock.trans {dfa middle next : DataFlowAnalysis} (front : SameBlock dfa middle)
    (back : SameBlock middle next) : SameBlock dfa next :=
  ⟨back.isLValue.trans front.isLValue, back.prohibitLValue.trans front.prohibitLValue,
    back.task.trans front.task, back.role.trans front.role, back.precision.trans front.precision⟩

variable {resolveAssignBits : Bool} {dfa next : DataFlowAnalysis}

theorem SameWalk.sameBlock (same : SameWalk dfa next) : SameBlock dfa next := by
  obtain ⟨_, role, precision⟩ := WalkContext.mk.inj same.context
  exact ⟨same.isLValue, same.prohibitLValue, same.task, role, precision⟩

/-- An assignment goes on with the flags before it, and with the reachability. -/
theorem SameBlock.handleAssignment (flagged : dfa.isLValue = false) {expr : AssignmentExpression}
    (handled : dfa.handleAssignment resolveAssignBits expr = some next) :
    SameBlock dfa next ∧ next.state.reachable = dfa.state.reachable := by
  rw [handleAssignment_eq resolveAssignBits dfa expr flagged] at handled
  have same := SameWalk.run handled
  obtain ⟨reached, _, _⟩ := WalkContext.mk.inj same.context
  have start : SameBlock dfa (assignmentStart resolveAssignBits dfa expr) ∧
      (assignmentStart resolveAssignBits dfa expr).state = dfa.state := by
    unfold assignmentStart
    split <;> exact ⟨⟨rfl, rfl, rfl, rfl, rfl⟩, rfl⟩
  exact ⟨start.1.trans same.sameBlock, by rw [reached, start.2]⟩

theorem SameBlock.updateNode (dfa : DataFlowAnalysis) (node : NodeRef) (conditional : Bool) :
    SameBlock dfa (dfa.updateNode node conditional) ∧
      (dfa.updateNode node conditional).state.reachable = dfa.state.reachable := by
  unfold DataFlowAnalysis.updateNode
  cases dfa.state.condition <;> exact ⟨⟨rfl, rfl, rfl, rfl, rfl⟩, rfl⟩

/-- The node of a conditional or a case, made current. -/
def enterDecision (dfa : DataFlowAnalysis) (kind : NodeKind) (location : SourceLocation) :
    DataFlowAnalysis :=
  let (node, dfa) := dfa.createNode kind location none
  dfa.updateNode node true

theorem SameBlock.enterDecision (dfa : DataFlowAnalysis) (kind : NodeKind)
    (location : SourceLocation) :
    SameBlock dfa (dfa.enterDecision kind location) ∧
      (dfa.enterDecision kind location).state.reachable = dfa.state.reachable := by
  have created : SameBlock dfa (dfa.createNode kind location none).2 :=
    ⟨rfl, rfl, rfl, rfl, rfl⟩
  have updated := SameBlock.updateNode (dfa.createNode kind location none).2
    (dfa.createNode kind location none).1 true
  exact ⟨created.trans updated.1, updated.2⟩

theorem SameBlock.decide {kind : NodeKind} {location : SourceLocation} {condition : Expr}
    (handled : handleStmt resolveAssignBits (.decide kind location condition) dfa = some next) :
    SameBlock dfa next ∧ next.state.reachable = dfa.state.reachable := by
  have entered := SameBlock.enterDecision dfa kind location
  have visited : visit (dfa.enterDecision kind location) condition = some next := handled
  rw [visit_eq _ false] at visited
  have same := SameWalk.run visited
  obtain ⟨reached, _, _⟩ := WalkContext.mk.inj same.context
  exact ⟨entered.1.trans same.sameBlock, reached.trans entered.2⟩

theorem SameBlock.setState (dfa : DataFlowAnalysis) (state : AnalysisState) :
    SameBlock dfa (dfa.setState state) :=
  ⟨rfl, rfl, rfl, rfl, rfl⟩

/-- The analysis with other definitions. -/
def setDrivers (dfa : DataFlowAnalysis) (tracked : TrackerState) : DataFlowAnalysis :=
  { dfa with
    valueTracker := tracked.tracker
    state := { dfa.state with valueDrivers := tracked.drivers } }

theorem SameBlock.setDrivers (dfa : DataFlowAnalysis) (tracked : TrackerState) :
    SameBlock dfa (dfa.setDrivers tracked) :=
  ⟨rfl, rfl, rfl, rfl, rfl⟩

/-- A new node changes the calls and the serial number only. -/
structure OnlyCalls (dfa next : DataFlowAnalysis) : Prop where
  same : SameBlock dfa next
  valueTracker : next.valueTracker = dfa.valueTracker
  state : next.state = dfa.state
  pendingLValues : next.pendingLValues = dfa.pendingLValues

theorem OnlyCalls.trans {middle : DataFlowAnalysis} (front : OnlyCalls dfa middle)
    (back : OnlyCalls middle next) : OnlyCalls dfa next :=
  ⟨front.same.trans back.same, back.valueTracker.trans front.valueTracker,
    back.state.trans front.state, back.pendingLValues.trans front.pendingLValues⟩

theorem OnlyCalls.setState {middle : DataFlowAnalysis} (only : OnlyCalls dfa middle)
    (state : AnalysisState) : OnlyCalls (dfa.setState state) (middle.setState state) :=
  ⟨⟨only.same.isLValue, only.same.prohibitLValue, only.same.task, only.same.role,
    only.same.precision⟩, only.valueTracker, rfl, only.pendingLValues⟩

theorem OnlyCalls.mergeNodes (dfa : DataFlowAnalysis) (a b : Option NodeRef) :
    OnlyCalls dfa (dfa.mergeNodes a b).2 := by
  unfold DataFlowAnalysis.mergeNodes
  split
  · split <;> exact ⟨⟨rfl, rfl, rfl, rfl, rfl⟩, rfl, rfl, rfl⟩
  · exact ⟨SameBlock.refl dfa, rfl, rfl, rfl⟩
  · exact ⟨SameBlock.refl dfa, rfl, rfl, rfl⟩

/-- Merging a slot changes the definitions only. -/
theorem mergeDefinitions_eq {slot : Nat} {definitions : DriverMap}
    (merged : dfa.mergeDefinitions slot definitions = some next) :
    ∃ tracked, next = dfa.setDrivers tracked := by
  simp only [mergeDefinitions, Option.bind_eq_bind, Option.bind_eq_some_iff] at merged
  obtain ⟨symbol, found, merged⟩ := merged
  refine holds_of_foldlM (fun next => ∃ tracked, next = dfa.setDrivers tracked) ⟨⟨_, _⟩, rfl⟩
    ?_ merged
  rintro entry _ _ next ⟨_, rfl⟩ stepped
  simp only [Option.bind_eq_some_iff, Option.some.injEq] at stepped
  obtain ⟨_, _, ⟨tracker, drivers⟩, _, rfl⟩ := stepped
  exact ⟨⟨tracker, drivers⟩, rfl⟩

/-- The loop over the slots of another state. -/
def mergeAll (dfa : DataFlowAnalysis) (maps : List (DriverMap × Nat)) : Option DataFlowAnalysis :=
  maps.foldlM (fun dfa (definitions, slot) => dfa.mergeDefinitions slot definitions) dfa

/-- Merging all slots changes the definitions only. -/
theorem mergeAll_eq {maps : List (DriverMap × Nat)} (merged : dfa.mergeAll maps = some next) :
    ∃ tracked, next = dfa.setDrivers tracked := by
  refine holds_of_foldlM (fun next => ∃ tracked, next = dfa.setDrivers tracked) ⟨⟨_, _⟩, rfl⟩
    ?_ merged
  rintro map _ _ next ⟨_, rfl⟩ first
  obtain ⟨tracked, rfl⟩ := mergeDefinitions_eq first
  exact ⟨tracked, rfl⟩

/-- A merge changes the definitions first, and then the node and the condition. -/
theorem mergeStates_eq {other : AnalysisState} (merged : dfa.mergeStates other = some next) :
    ∃ tracked, dfa.mergeAll other.valueDrivers.zipIdx = some (dfa.setDrivers tracked) ∧
      ∃ node condition, OnlyCalls
        ((dfa.setDrivers tracked).setState
          { dfa.state with
            valueDrivers := tracked.drivers, node := node, condition := condition }) next := by
  simp only [mergeStates, Option.bind_eq_bind, Option.bind_eq_some_iff, Option.some.injEq]
    at merged
  obtain ⟨middle, folded, rfl⟩ := merged
  obtain ⟨tracked, rfl⟩ := mergeAll_eq folded
  have nodes := OnlyCalls.mergeNodes (dfa.setDrivers tracked)
    (dfa.setDrivers tracked).state.node other.node
  have both := nodes.trans (OnlyCalls.mergeNodes _
    ((dfa.setDrivers tracked).mergeNodes (dfa.setDrivers tracked).state.node
      other.node).2.state.condition other.condition)
  refine ⟨tracked, folded, ?_⟩
  rw [both.state]
  exact ⟨_, _, both.setState _⟩

theorem SameBlock.mergeStates {other : AnalysisState}
    (merged : dfa.mergeStates other = some next) :
    SameBlock dfa next ∧ next.state.reachable = dfa.state.reachable := by
  obtain ⟨tracked, _, node, condition, only⟩ := mergeStates_eq merged
  exact ⟨((SameBlock.setDrivers dfa tracked).trans (SameBlock.setState _ _)).trans only.same,
    by rw [only.state]; rfl⟩

/-- A join is reachable if one of the two states is. -/
theorem SameBlock.joinState {result other : AnalysisState}
    (joined : dfa.joinState result other = some next) :
    SameBlock dfa next ∧ next.state.reachable = (result.reachable || other.reachable) := by
  unfold DataFlowAnalysis.joinState at joined
  split at joined
  · next same =>
      obtain ⟨block, reached⟩ := SameBlock.mergeStates joined
      refine ⟨(SameBlock.setState dfa result).trans block, reached.trans ?_⟩
      rw [← same, Bool.or_self]
      rfl
  · next differs =>
      split at joined
      · next unreached =>
          cases joined
          refine ⟨SameBlock.setState dfa other, ?_⟩
          rw [Bool.eq_false_of_not_eq_true unreached, Bool.false_or]
          rfl
      · next reached =>
          cases joined
          refine ⟨SameBlock.setState dfa result, ?_⟩
          rw [not_not.mp reached, Bool.true_or]
          exact not_not.mp reached

end DataFlowAnalysis

/-! ## Reachability -/

namespace Stmt

/-- Whether control leaves the statement at its end, from whether it enters it. -/
def leaves : Stmt → Bool → Bool
  | .seq first second, entered => second.leaves (first.leaves entered)
  | .either dead _ first second, entered =>
      first.leaves (entered && dead ≠ some .first) ||
        second.leaves (entered && dead ≠ some .second)
  | .jump, _ => false
  | _, entered => entered

end Stmt

namespace DataFlowAnalysis

variable {resolveAssignBits : Bool}

theorem armState_reachable (state : AnalysisState) (dead : Option Side) (side : Side) :
    (state.armState dead side).reachable = (state.reachable && dead ≠ some side) := by
  unfold AnalysisState.armState
  split
  · next same => simp [same, AnalysisState.unreachableState]
  · next differs => simp [differs]

/-- The state after a statement is reachable exactly if control gets there. -/
theorem SameBlock.handleStmt (body : Stmt) {dfa next : DataFlowAnalysis}
    (flagged : dfa.isLValue = false) (allowed : dfa.prohibitLValue = false)
    (handled : handleStmt resolveAssignBits body dfa = some next) :
    SameBlock dfa next ∧ next.state.reachable = body.leaves dfa.state.reachable := by
  induction body generalizing dfa next with
  | skip =>
      cases handled
      exact ⟨SameBlock.refl dfa, rfl⟩
  | assign expr => exact SameBlock.handleAssignment flagged handled
  | force expr =>
      simp only [DataFlowAnalysis.handleStmt, Option.bind_eq_bind, Option.bind_eq_some_iff,
        Option.some.injEq] at handled
      obtain ⟨middle, handled, rfl⟩ := handled
      obtain ⟨same, reached⟩ :=
        @SameBlock.handleAssignment resolveAssignBits { dfa with prohibitLValue := true } middle
          flagged expr handled
      exact ⟨⟨same.isLValue, allowed.symm, same.task, same.role, same.precision⟩, reached⟩
  | decide kind location condition => exact SameBlock.decide handled
  | seq first second firstIh secondIh =>
      simp only [DataFlowAnalysis.handleStmt, Option.bind_eq_bind, Option.bind_eq_some_iff]
        at handled
      obtain ⟨middle, front, back⟩ := handled
      obtain ⟨frontSame, frontReached⟩ := firstIh flagged allowed front
      obtain ⟨backSame, backReached⟩ := secondIh (frontSame.isLValue.trans flagged)
        (frontSame.prohibitLValue.trans allowed) back
      exact ⟨frontSame.trans backSame, by rw [backReached, frontReached]; rfl⟩
  | either dead intoFirst first second firstIh secondIh =>
      simp only [DataFlowAnalysis.handleStmt, Option.bind_eq_bind, Option.bind_eq_some_iff]
        at handled
      obtain ⟨afterFirst, firstArm, afterSecond, secondArm, joined⟩ := handled
      obtain ⟨firstSame, firstReached⟩ := @firstIh (dfa.setState (dfa.state.armState dead .first))
        afterFirst flagged allowed firstArm
      have toFirst : SameBlock dfa (afterFirst.setState (dfa.state.armState dead .second)) :=
        ((SameBlock.setState dfa _).trans firstSame).trans (SameBlock.setState afterFirst _)
      obtain ⟨secondSame, secondReached⟩ := secondIh (toFirst.isLValue.trans flagged)
        (toFirst.prohibitLValue.trans allowed) secondArm
      have toSecond := toFirst.trans secondSame
      simp only [DataFlowAnalysis.setState, armState_reachable] at firstReached secondReached
      cases intoFirst with
      | true =>
          obtain ⟨joinSame, reached⟩ := SameBlock.joinState joined
          exact ⟨toSecond.trans joinSame, by
            rw [reached, firstReached, secondReached]
            rfl⟩
      | false =>
          obtain ⟨joinSame, reached⟩ := SameBlock.joinState joined
          exact ⟨toSecond.trans joinSame, by
            rw [reached, firstReached, secondReached, Bool.or_comm]
            rfl⟩
  | jump =>
      cases handled
      exact ⟨SameBlock.setState dfa _, rfl⟩

end DataFlowAnalysis

end SlangNetlist
