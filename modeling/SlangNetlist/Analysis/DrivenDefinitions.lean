import SlangNetlist.Analysis.ReachableStates
import SlangNetlist.Tracking.ListedDrivers

/-!
# Definitions have drivers

An assignment makes its node before it writes.  Hence in every state that the
analysis of a block comes to, each list of definitions has a driver, and a read
that covers or contains a definition is linked.
-/

namespace SlangNetlist

open Library

/-- All lists of definitions have a driver. -/
def AnalysisState.Driven (state : AnalysisState) : Prop :=
  ∀ map ∈ state.valueDrivers, map.Lists DriverList.Driven

theorem AnalysisState.driven_unreachable : unreachableState.Driven := by
  rintro map ⟨⟩

theorem AnalysisState.Driven.armState {state : AnalysisState} (driven : state.Driven)
    (dead : Option Side) (side : Side) : (state.armState dead side).Driven := by
  unfold AnalysisState.armState
  split
  · exact driven_unreachable
  · exact driven

namespace DataFlowAnalysis

variable {dfa next : DataFlowAnalysis} {resolveAssignBits : Bool}

theorem driven_congr (driven : dfa.state.Driven) (tracked : next.tracked = dfa.tracked) :
    next.state.Driven := by
  have same : next.state.valueDrivers = dfa.state.valueDrivers :=
    congrArg TrackerState.drivers tracked
  intro map member
  exact driven map (same ▸ member)

/-! ## Steps -/

/-- With a current node a write lists it. -/
theorem driven_handleLvalue {symbol : ValueSymbol} {lsp : Nat} {bounds : DriverBitRange}
    {node : NodeRef} (driven : dfa.state.Driven) (current : dfa.state.node = some node)
    (handled : dfa.handleLvalue symbol lsp bounds = some next) : next.state.Driven := by
  unfold handleLvalue at handled
  split at handled
  · cases handled
    exact driven
  · simp only [addDrivers, Option.bind_eq_bind, Option.bind_eq_some_iff, Option.some.injEq]
      at handled
    obtain ⟨⟨tracker, drivers⟩, adds, rfl⟩ := handled
    refine ValueTracker.lists_addDrivers driven ⟨node, ?_⟩ DriverList.closed_driven adds
    rw [current]
    exact DriverList.mem_nodes.mpr ⟨_, List.mem_singleton_self _, rfl⟩

theorem driven_step {move : AssignmentStep} {node : NodeRef} (driven : dfa.state.Driven)
    (current : dfa.state.node = some node) (stepped : dfa.step move = some next) :
    next.state.Driven := by
  cases move with
  | enter saved location =>
      cases stepped
      exact driven_congr driven (enter_tracked dfa saved location)
  | write symbol lsp bounds => exact driven_handleLvalue driven current stepped
  | read access | readLeft access =>
      obtain ⟨calls, rfl⟩ := read_appends stepped
      exact driven
  | constant value srcLo location segment fallbackLoc =>
      simp only [step, driveRhsSource] at stepped
      split at stepped <;> cases stepped <;> exact driven
  | stop => cases stepped

/-- A run from a current node keeps the drivers, as it always has a current node. -/
theorem driven_run {moves : List AssignmentStep} {node : NodeRef} (driven : dfa.state.Driven)
    (current : dfa.state.node = some node) (ran : moves.foldlM step dfa = some next) :
    next.state.Driven := by
  induction moves generalizing dfa node with
  | nil =>
      cases ran
      exact driven
  | cons move rest ih =>
      obtain ⟨middle, stepped, ran⟩ := foldlM_cons_eq_some.mp ran
      have after := driven_step driven current stepped
      rcases step_node stepped with ⟨saved, location, rfl⟩ | same
      · cases stepped
        exact ih after (enter_node dfa saved location) ran
      · exact ih after (same.trans current) ran

/-- The first step of an assignment makes a node. -/
theorem driven_front {expr : AssignmentExpression} {front back : List AssignmentStep}
    (driven : dfa.state.Driven)
    (steps : assignmentSteps resolveAssignBits dfa expr = front ++ back)
    (ran : front.foldlM step (assignmentStart resolveAssignBits dfa expr) = some next) :
    next.state.Driven := by
  have start := driven_congr driven (assignmentStart_tracked resolveAssignBits dfa expr)
  cases front with
  | nil =>
      cases ran
      exact start
  | cons first rest =>
      obtain ⟨saved, location, rfl⟩ := assignmentSteps_head resolveAssignBits dfa expr steps
      obtain ⟨middle, entered, ran⟩ := foldlM_cons_eq_some.mp ran
      cases entered
      exact driven_run (driven_congr start (enter_tracked _ saved location))
        (enter_node _ saved location) ran

/-! ## Statements -/

theorem driven_handleAssignment {expr : AssignmentExpression} (driven : dfa.state.Driven)
    (flagged : dfa.isLValue = false)
    (handled : dfa.handleAssignment resolveAssignBits expr = some next) : next.state.Driven := by
  rw [handleAssignment_eq resolveAssignBits dfa expr flagged] at handled
  exact driven_front driven (List.append_nil _).symm handled

/-- The head of a decision has a node and visits the condition. -/
theorem driven_decide {kind : NodeKind} {location : SourceLocation} {condition : Expr}
    (driven : dfa.state.Driven)
    (visited : (dfa.enterDecision kind location).visit condition = some next) :
    next.state.Driven := by
  rw [visit_eq _ false] at visited
  have current : ∃ node, (dfa.enterDecision kind location).state.node = some node := by
    simp only [enterDecision, updateNode]
    split <;> exact ⟨_, rfl⟩
  obtain ⟨node, current⟩ := current
  exact driven_run (driven_congr driven (enterDecision_tracked dfa kind location)) current visited

theorem driven_mergeAll {maps : List (DriverMap × Nat)} (driven : dfa.state.Driven)
    (lists : ∀ item ∈ maps, item.1.Lists DriverList.Driven)
    (merged : dfa.mergeAll maps = some next) : next.state.Driven := by
  refine holds_of_foldlM (fun dfa => dfa.state.Driven) driven
    (fun item member dfa next driven merged => ?_) merged
  simp only [mergeDefinitions, Option.bind_eq_bind, Option.bind_eq_some_iff] at merged
  obtain ⟨symbol, found, merged⟩ := merged
  refine holds_of_foldlM (fun dfa => dfa.state.Driven) driven
    (fun entry _ dfa next driven added => ?_) merged
  simp only [Option.bind_eq_some_iff, Option.some.injEq] at added
  obtain ⟨list, found, ⟨tracker, drivers⟩, adds, rfl⟩ := added
  exact ValueTracker.lists_addDrivers driven ((lists item member).getDriverList found)
    DriverList.closed_driven adds

theorem driven_joinState {result other : AnalysisState} (resultDriven : result.Driven)
    (otherDriven : other.Driven) (joined : dfa.joinState result other = some next) :
    next.state.Driven := by
  unfold joinState at joined
  split at joined
  · obtain ⟨tracked, merged, node, condition, only⟩ := mergeStates_eq joined
    have driven : ((dfa.setState result).setDrivers tracked).state.Driven := by
      refine driven_mergeAll resultDriven (fun item member => ?_) merged
      obtain ⟨map, slot⟩ := item
      exact otherDriven map (List.fst_mem_of_mem_zipIdx member)
    rw [only.state]
    exact driven
  · split at joined
    · cases joined
      exact otherDriven
    · cases joined
      exact resultDriven

/-- A statement keeps the drivers of the definitions. -/
theorem driven_handleStmt {body : Stmt} (driven : dfa.state.Driven)
    (flagged : dfa.isLValue = false) (allowed : dfa.prohibitLValue = false)
    (handled : handleStmt resolveAssignBits body dfa = some next) : next.state.Driven := by
  induction body generalizing dfa next with
  | skip =>
      cases handled
      exact driven
  | assign expr => exact driven_handleAssignment driven flagged handled
  | force expr =>
      simp only [handleStmt, Option.bind_eq_bind, Option.bind_eq_some_iff, Option.some.injEq]
        at handled
      obtain ⟨middle, handled, rfl⟩ := handled
      have start : ({ dfa with prohibitLValue := true } : DataFlowAnalysis).state.Driven := driven
      have walked : middle.state.Driven := driven_handleAssignment start flagged handled
      exact walked
  | decide kind location condition => exact driven_decide driven handled
  | seq first second firstIh secondIh =>
      simp only [handleStmt, Option.bind_eq_bind, Option.bind_eq_some_iff] at handled
      obtain ⟨middle, front, back⟩ := handled
      have same := (SameBlock.handleStmt first flagged allowed front).1
      exact secondIh (firstIh driven flagged allowed front) (same.isLValue.trans flagged)
        (same.prohibitLValue.trans allowed) back
  | either dead intoFirst first second firstIh secondIh =>
      simp only [handleStmt, Option.bind_eq_bind, Option.bind_eq_some_iff] at handled
      obtain ⟨afterFirst, firstArm, afterSecond, secondArm, joined⟩ := handled
      have firstDriven := @firstIh (dfa.setState (dfa.state.armState dead .first)) afterFirst
        (driven.armState dead .first) flagged allowed firstArm
      have same := (@SameBlock.handleStmt resolveAssignBits first
        (dfa.setState (dfa.state.armState dead .first)) afterFirst flagged allowed firstArm).1
      have secondDriven := @secondIh (afterFirst.setState (dfa.state.armState dead .second))
        afterSecond (driven.armState dead .second) (same.isLValue.trans flagged)
        (same.prohibitLValue.trans allowed) secondArm
      cases intoFirst with
      | true => exact driven_joinState firstDriven secondDriven joined
      | false => exact driven_joinState secondDriven firstDriven joined
  | jump =>
      cases handled
      exact AnalysisState.driven_unreachable

/-- The analysis comes to every position in a state whose definitions have drivers. -/
theorem driven_stateAt {body : Stmt} {position : Position} (driven : dfa.state.Driven)
    (flagged : dfa.isLValue = false) (allowed : dfa.prohibitLValue = false)
    (at_ : stateAt resolveAssignBits body position dfa = some next) : next.state.Driven := by
  induction body generalizing position dfa next with
  | skip | assign | force | decide | jump =>
      cases position with
      | nil =>
          cases at_
          exact driven
      | cons side rest => cases at_
  | seq first second firstIh secondIh =>
      cases position with
      | nil => cases at_
      | cons side rest =>
          cases side with
          | first => exact firstIh driven flagged allowed at_
          | second =>
              simp only [stateAt, Option.bind_eq_bind, Option.bind_eq_some_iff] at at_
              obtain ⟨middle, front, at_⟩ := at_
              have same := (SameBlock.handleStmt first flagged allowed front).1
              exact secondIh (driven_handleStmt driven flagged allowed front)
                (same.isLValue.trans flagged) (same.prohibitLValue.trans allowed) at_
  | either dead intoFirst first second firstIh secondIh =>
      cases position with
      | nil => cases at_
      | cons side rest =>
          cases side with
          | first =>
              exact @firstIh (dfa.setState (dfa.state.armState dead .first)) next rest
                (driven.armState dead .first) flagged allowed at_
          | second =>
              simp only [stateAt, Option.bind_eq_bind, Option.bind_eq_some_iff] at at_
              obtain ⟨afterFirst, firstArm, at_⟩ := at_
              have same := (@SameBlock.handleStmt resolveAssignBits first
                (dfa.setState (dfa.state.armState dead .first)) afterFirst flagged allowed
                firstArm).1
              exact @secondIh (afterFirst.setState (dfa.state.armState dead .second)) next rest
                (driven.armState dead .second) (same.isLValue.trans flagged)
                (same.prohibitLValue.trans allowed) at_

/-! ## Reads -/

/-- A definition that covers a read or lies inside it gives an edge. -/
theorem linked_iff_of_driven {symbol : ValueSymbol} {bounds : DriverBitRange}
    (driven : dfa.state.Driven)
    (live : ∀ entry ∈ (dfa.definitions symbol).find bounds, (dfa.definitions symbol).Live entry) :
    (∃ source, (dfa.definitions symbol).Linked bounds source) ↔
      ∃ entry ∈ (dfa.definitions symbol).find bounds,
        CoversRead entry bounds ∨ entry.Inside bounds.lower bounds.upper := by
  constructor
  · rintro ⟨source, entry, found, relevant, _⟩
    exact ⟨entry, found, relevant⟩
  · rintro ⟨entry, found, relevant⟩
    obtain ⟨list, listed⟩ := live entry found
    have lists : (dfa.definitions symbol).Lists DriverList.Driven := by
      unfold definitions ValueTracker.driverMap
      split
      · next slot _ =>
          cases stored : dfa.state.valueDrivers[slot]? with
          | none => exact DriverMap.lists_empty
          | some map => exact driven map (List.mem_of_getElem? stored)
      · exact DriverMap.lists_empty
    obtain ⟨source, member⟩ := lists.getDriverList listed
    exact ⟨source, entry, found, relevant, list, listed, member⟩

end DataFlowAnalysis

end SlangNetlist
