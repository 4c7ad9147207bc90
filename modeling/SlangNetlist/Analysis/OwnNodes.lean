import SlangNetlist.Analysis.ControlEdges
import SlangNetlist.Tracking.ListedDrivers

/-!
# The nodes that an analysis names

An analysis without an external node makes and connects nodes of its own task
only: its calls, its definitions and its queue name no others.
-/

namespace SlangNetlist

open Library

/-- The node, if there is one, is of the task. -/
def OwnNode (task : Nat) (node : Option NodeRef) : Prop :=
  ∀ ref, node = some ref → ref.task = task

theorem ownNode_none (task : Nat) : OwnNode task none := by
  rintro _ ⟨⟩

theorem ownNode_some {task : Nat} {ref : NodeRef} : OwnNode task (some ref) ↔ ref.task = task :=
  ⟨fun own => own ref rfl, fun same _ found => Option.some.inj found ▸ same⟩

/-- The call names nodes of the task only. -/
def BuilderCall.Own (task : Nat) : BuilderCall → Prop
  | .addNode ref _ _ => ref.task = task
  | .addUnannotated source target _ _ => source.task = task ∧ target.task = task
  | .addDependency dependency => dependency.source.task = task ∧ dependency.target.task = task
  | .addRvalue _ _ _ node _ _ => OwnNode task node

/-- The step puts back nodes of the task only. -/
def AssignmentStep.Keeps (task : Nat) : AssignmentStep → Prop
  | .enter (some (node, condition)) _ => OwnNode task node ∧ OwnNode task condition
  | _ => True

/-- The state names nodes of the task only. -/
structure AnalysisState.Own (task : Nat) (state : AnalysisState) : Prop where
  node : OwnNode task state.node
  condition : OwnNode task state.condition
  drivers : ∀ map ∈ state.valueDrivers, map.Lists (DriverList.All (OwnNode task))

theorem AnalysisState.own_unreachable (task : Nat) : unreachableState.Own task :=
  ⟨ownNode_none task, ownNode_none task, fun _ member => absurd member List.not_mem_nil⟩

theorem AnalysisState.Own.armState {task : Nat} {state : AnalysisState} (own : state.Own task)
    (dead : Option Side) (side : Side) : (state.armState dead side).Own task := by
  unfold AnalysisState.armState
  split
  · exact own_unreachable task
  · exact own

namespace DataFlowAnalysis

/-- The analysis names nodes of its task only. -/
structure OwnNodes (task : Nat) (dfa : DataFlowAnalysis) : Prop where
  ofTask : dfa.task = task
  state : dfa.state.Own task
  pending : ∀ pending ∈ dfa.pendingLValues, OwnNode task pending.node
  calls : ∀ builderCall ∈ dfa.calls, builderCall.Own task
  external : OwnNode task dfa.externalNode

variable {task : Nat} {dfa next : DataFlowAnalysis} {resolveAssignBits : Bool}

theorem ownNodes_initial (task : Nat) : (initial task none).OwnNodes task :=
  ⟨rfl, ⟨ownNode_none task, ownNode_none task, fun _ member => absurd member List.not_mem_nil⟩,
    fun _ member => absurd member List.not_mem_nil,
    fun _ member => absurd member List.not_mem_nil, ownNode_none task⟩

theorem OwnNodes.appendCalls (own : dfa.OwnNodes task) {calls : List BuilderCall}
    (made : ∀ builderCall ∈ calls, builderCall.Own task) :
    (dfa.appendCalls calls).OwnNodes task where
  ofTask := own.ofTask
  state := own.state
  pending := own.pending
  calls _ member := (List.mem_append.mp member).elim (own.calls _) (made _)
  external := own.external

theorem OwnNodes.setState (own : dfa.OwnNodes task) {state : AnalysisState}
    (stateOwn : state.Own task) : (dfa.setState state).OwnNodes task :=
  ⟨own.ofTask, stateOwn, own.pending, own.calls, own.external⟩

theorem OwnNodes.createNode (own : dfa.OwnNodes task) (kind : NodeKind)
    (location : SourceLocation) (value : Option (ConstantValue × Nat)) :
    (dfa.createNode kind location value).2.OwnNodes task :=
  ⟨own.ofTask, own.state, own.pending,
    (@OwnNodes.appendCalls task dfa own [.addNode ⟨dfa.task, kind, dfa.serial⟩ location value]
      fun _ member => List.mem_singleton.mp member ▸ own.ofTask).calls, own.external⟩

theorem OwnNodes.updateNode (own : dfa.OwnNodes task) {node : NodeRef} (ours : node.task = task)
    (conditional : Bool) : (dfa.updateNode node conditional).OwnNodes task := by
  have state (condition : Option NodeRef) (conditionOwn : OwnNode task condition) :
      ({ dfa.state with condition := condition, node := some node } : AnalysisState).Own task :=
    ⟨ownNode_some.mpr ours, conditionOwn, own.state.drivers⟩
  have pending : OwnNode task (if conditional then some node else none) := by
    cases conditional
    · exact ownNode_none task
    · exact ownNode_some.mpr ours
  unfold DataFlowAnalysis.updateNode
  cases before : dfa.state.condition with
  | none => exact own.setState (state _ pending)
  | some condition =>
      have called := @OwnNodes.appendCalls task dfa own
        [.addUnannotated condition node .control .signal] fun _ member =>
          List.mem_singleton.mp member ▸ ⟨own.state.condition condition before, ours⟩
      exact called.setState (state _ pending)

/-! ## Steps -/

theorem own_driverCalls (dfa : DataFlowAnalysis) {list : DriverList}
    (listed : list.All (OwnNode task)) {node : NodeRef} (ours : node.task = task)
    (symbol : String) (bounds : DriverBitRange) :
    ∀ builderCall ∈ dfa.driverCalls list node symbol bounds, builderCall.Own task := by
  intro builderCall member
  obtain ⟨source, driver, rfl⟩ := mem_driverCalls.mp member
  obtain ⟨info, infoMem, found⟩ := DriverList.mem_nodes.mp driver
  exact ⟨listed info infoMem source found, ours⟩

theorem OwnNodes.linkDefinitions {definitions : DriverMap} {symbol : String}
    {bounds : DriverBitRange} {node : NodeRef} {entries : List (Interval Nat)} {covered : Bool}
    (own : dfa.OwnNodes task) (lists : definitions.Lists (DriverList.All (OwnNode task)))
    (ours : node.task = task)
    (linked : DataFlowAnalysis.linkDefinitions definitions symbol bounds node dfa entries =
      some (next, covered)) : next.OwnNodes task := by
  induction entries generalizing dfa with
  | nil =>
      cases linked
      exact own
  | cons entry rest ih =>
      simp only [DataFlowAnalysis.linkDefinitions, addDriversToNode_eq, Option.bind_eq_bind,
        Option.bind_eq_some_iff] at linked
      obtain ⟨list, found, linked⟩ := linked
      have called := own.appendCalls
        (own_driverCalls dfa (lists.getDriverList found) ours symbol bounds)
      split at linked
      · cases linked
        exact called
      · split at linked
        · exact ih called linked
        · exact ih own linked

theorem OwnNodes.handleRvalue {symbol : ValueSymbol} {lsp : Nat} {bounds : DriverBitRange}
    (own : dfa.OwnNodes task) (handled : dfa.handleRvalue symbol lsp bounds = some next) :
    next.OwnNodes task := by
  have rvalue {node : Option NodeRef} (nodeOwn : OwnNode task node) :
      (dfa.addRvalue symbol lsp bounds node).OwnNodes task :=
    own.appendCalls fun _ member => List.mem_singleton.mp member ▸ nodeOwn
  unfold DataFlowAnalysis.handleRvalue at handled
  split at handled
  · cases handled
    refine rvalue fun ref found => ?_
    rcases Option.or_eq_some_iff.mp found with current | ⟨_, external⟩
    · exact own.state.node ref current
    · exact own.external ref external
  · next definitions found =>
      split at handled
      · cases handled
        exact rvalue own.external
      · next node current =>
          simp only [Option.bind_eq_bind, Option.bind_eq_some_iff] at handled
          obtain ⟨⟨linked, covered⟩, links, handled⟩ := handled
          obtain ⟨slot, _, inDrivers⟩ := Option.bind_eq_some_iff.mp found
          have ours := own.state.node node current
          have linkedOwn := own.linkDefinitions
            (own.state.drivers definitions (List.mem_of_getElem? inDrivers)) ours links
          split at handled
          · cases handled
            exact linkedOwn
          · rw [foldl_addRvalue] at handled
            cases handled
            refine linkedOwn.appendCalls fun builderCall member => ?_
            obtain ⟨part, _, rfl⟩ := List.mem_map.mp member
            exact ownNode_some.mpr ours

theorem OwnNodes.read {access : Access} (own : dfa.OwnNodes task)
    (handled : dfa.read access = some next) : next.OwnNodes task := by
  simp only [DataFlowAnalysis.read, Option.bind_eq_bind, Option.bind_eq_some_iff,
    Option.some.injEq] at handled
  obtain ⟨after, handled, rfl⟩ := handled
  have start : OwnNodes task { dfa with
      dependencyRole := access.role, dependencyPrecision := access.precision } :=
    ⟨own.ofTask, own.state, own.pending, own.calls, own.external⟩
  have read := start.handleRvalue handled
  exact ⟨read.ofTask, read.state, read.pending, read.calls, read.external⟩

theorem OwnNodes.addDrivers {symbol : ValueSymbol} {bounds : DriverBitRange}
    {driverList : DriverList} (own : dfa.OwnNodes task) (listed : driverList.All (OwnNode task))
    (added : dfa.addDrivers symbol bounds driverList = some next) : next.OwnNodes task := by
  simp only [DataFlowAnalysis.addDrivers, Option.bind_eq_bind, Option.bind_eq_some_iff,
    Option.some.injEq] at added
  obtain ⟨⟨tracker, drivers⟩, adds, rfl⟩ := added
  exact ⟨own.ofTask, ⟨own.state.node, own.state.condition,
    ValueTracker.lists_addDrivers own.state.drivers listed (DriverList.closed_all _) adds⟩,
    own.pending, own.calls, own.external⟩

theorem OwnNodes.handleLvalue {symbol : ValueSymbol} {lsp : Nat} {bounds : DriverBitRange}
    (own : dfa.OwnNodes task) (handled : dfa.handleLvalue symbol lsp bounds = some next) :
    next.OwnNodes task := by
  unfold DataFlowAnalysis.handleLvalue at handled
  split at handled
  · cases handled
    refine ⟨own.ofTask, own.state, fun pending member => ?_, own.calls, own.external⟩
    rcases List.mem_append.mp member with old | new
    · exact own.pending pending old
    · rw [List.mem_singleton.mp new]
      exact own.state.node
  · refine own.addDrivers (fun driver member => ?_) handled
    rw [List.mem_singleton.mp member]
    exact own.state.node

theorem OwnNodes.enter (own : dfa.OwnNodes task)
    {saved : Option (Option NodeRef × Option NodeRef)} {location : SourceLocation}
    (keeps : (AssignmentStep.enter saved location).Keeps task) :
    (dfa.enter saved location).OwnNodes task := by
  cases saved with
  | none =>
      exact (own.createNode .assignment location none).updateNode own.ofTask false
  | some saved =>
      obtain ⟨node, condition⟩ := saved
      have back : (dfa.setState
          { dfa.state with node := node, condition := condition }).OwnNodes task :=
        own.setState ⟨keeps.1, keeps.2, own.state.drivers⟩
      exact (back.createNode .assignment location none).updateNode own.ofTask false

theorem OwnNodes.step {move : AssignmentStep} (own : dfa.OwnNodes task)
    (keeps : move.Keeps task) (stepped : dfa.step move = some next) : next.OwnNodes task := by
  cases move with
  | enter saved location =>
      cases stepped
      exact own.enter keeps
  | write symbol lsp bounds => exact own.handleLvalue stepped
  | read access | readLeft access => exact own.read stepped
  | constant value srcLo location segment fallbackLoc =>
      simp only [DataFlowAnalysis.step, driveRhsSource] at stepped
      split at stepped
      · cases stepped
        exact own
      · next node current =>
          cases stepped
          have created : (dfa.createConstantForSegment value srcLo location segment
              fallbackLoc).2.OwnNodes task := own.createNode _ _ _
          exact created.appendCalls fun _ member =>
            List.mem_singleton.mp member ▸ ⟨own.ofTask, own.state.node node current⟩
  | stop => cases stepped

theorem OwnNodes.run {moves : List AssignmentStep} (own : dfa.OwnNodes task)
    (keeps : ∀ move ∈ moves, move.Keeps task) (ran : moves.foldlM DataFlowAnalysis.step dfa =
      some next) : next.OwnNodes task :=
  holds_of_foldlM (OwnNodes task) own
    (fun move member _ _ here stepped => here.step (keeps move member) stepped) ran

theorem keeps_of_below {node condition : Option NodeRef} (nodeOwn : OwnNode task node)
    (conditionOwn : OwnNode task condition) {move : AssignmentStep}
    (below : move.Below (node, condition)) : move.Keeps task := by
  cases move with
  | enter saved location =>
      obtain rfl : saved = some (node, condition) := below
      exact ⟨nodeOwn, conditionOwn⟩
  | write | read | readLeft | constant | stop => trivial

theorem keeps_of_quiet {move : AssignmentStep} (quiet : move.Quiet) : move.Keeps task :=
  keeps_of_below (ownNode_none task) (ownNode_none task) quiet.below

/-! ## Statements -/

theorem OwnNodes.visit {expr : Expr} (own : dfa.OwnNodes task)
    (visited : dfa.visit expr = some next) : next.OwnNodes task := by
  rw [visit_eq dfa false] at visited
  exact own.run (fun _ member => keeps_of_quiet (AssignmentStep.quiet_ofExpr member)) visited

theorem OwnNodes.handleAssignment {expr : AssignmentExpression} (own : dfa.OwnNodes task)
    (flagged : dfa.isLValue = false)
    (handled : dfa.handleAssignment resolveAssignBits expr = some next) :
    next.OwnNodes task := by
  rw [handleAssignment_eq resolveAssignBits dfa expr flagged] at handled
  have start : (assignmentStart resolveAssignBits dfa expr).OwnNodes task := by
    unfold assignmentStart
    split
    · exact own
    · exact ⟨own.ofTask, own.state, own.pending, own.calls, own.external⟩
  refine start.run (fun move member => ?_) handled
  unfold assignmentSteps at member
  split at member
  · rcases AssignmentStep.mem_ofLegacy.mp member with rfl | left | ⟨_, right⟩
    · trivial
    · exact keeps_of_quiet (AssignmentStep.quiet_ofExpr left)
    · exact keeps_of_quiet (AssignmentStep.quiet_ofExpr right)
  · obtain ⟨segment, _, inSegment⟩ := List.mem_flatMap.mp member
    exact keeps_of_below own.state.node own.state.condition
      (AssignmentStep.below_ofSegment inSegment)

theorem OwnNodes.mergeDefinitions {slot : Nat} {definitions : DriverMap} (own : dfa.OwnNodes task)
    (lists : definitions.Lists (DriverList.All (OwnNode task)))
    (merged : dfa.mergeDefinitions slot definitions = some next) : next.OwnNodes task := by
  simp only [DataFlowAnalysis.mergeDefinitions, Option.bind_eq_bind, Option.bind_eq_some_iff]
    at merged
  obtain ⟨symbol, found, merged⟩ := merged
  refine holds_of_foldlM (OwnNodes task) own (fun entry _ here next own stepped => ?_) merged
  simp only [Option.bind_eq_some_iff, Option.some.injEq] at stepped
  obtain ⟨list, found, ⟨tracker, drivers⟩, added, rfl⟩ := stepped
  exact ⟨own.ofTask, ⟨own.state.node, own.state.condition,
    ValueTracker.lists_addDrivers own.state.drivers (lists.getDriverList found)
      (DriverList.closed_all _) added⟩,
    own.pending, own.calls, own.external⟩

theorem OwnNodes.mergeAll {maps : List (DriverMap × Nat)} (own : dfa.OwnNodes task)
    (lists : ∀ item ∈ maps, item.1.Lists (DriverList.All (OwnNode task)))
    (merged : dfa.mergeAll maps = some next) : next.OwnNodes task :=
  holds_of_foldlM (OwnNodes task) own
    (fun map member _ _ here merged => here.mergeDefinitions (lists map member) merged) merged

theorem OwnNodes.mergeNodes {first second : Option NodeRef} (own : dfa.OwnNodes task)
    (firstOwn : OwnNode task first) (secondOwn : OwnNode task second) :
    (dfa.mergeNodes first second).2.OwnNodes task ∧
      OwnNode task (dfa.mergeNodes first second).1 := by
  unfold DataFlowAnalysis.mergeNodes
  split
  · split
    · exact ⟨own, ownNode_none task⟩
    · next left right _ =>
        have created := own.createNode .merge none none
        refine ⟨OwnNodes.appendCalls (created.appendCalls ?_) ?_, ownNode_some.mpr own.ofTask⟩
        · exact fun _ member => List.mem_singleton.mp member ▸
            ⟨firstOwn left rfl, own.ofTask⟩
        · exact fun _ member => List.mem_singleton.mp member ▸
            ⟨secondOwn right rfl, own.ofTask⟩
  · exact ⟨own, firstOwn⟩
  · exact ⟨own, secondOwn⟩

theorem OwnNodes.joinState {result other : AnalysisState} (own : dfa.OwnNodes task)
    (resultOwn : result.Own task) (otherOwn : other.Own task)
    (joined : dfa.joinState result other = some next) : next.OwnNodes task := by
  unfold DataFlowAnalysis.joinState at joined
  split at joined
  · simp only [mergeStates, Option.bind_eq_bind, Option.bind_eq_some_iff, Option.some.injEq]
      at joined
    obtain ⟨middle, folded, rfl⟩ := joined
    have merged : middle.OwnNodes task :=
      (own.setState resultOwn).mergeAll (fun item member => by
        obtain ⟨map, slot⟩ := item
        exact otherOwn.drivers map (List.fst_mem_of_mem_zipIdx member)) folded
    obtain ⟨nodes, node⟩ := merged.mergeNodes merged.state.node otherOwn.node
    obtain ⟨conditions, condition⟩ := nodes.mergeNodes nodes.state.condition otherOwn.condition
    exact conditions.setState ⟨node, condition, conditions.state.drivers⟩
  · split at joined
    · cases joined
      exact own.setState otherOwn
    · cases joined
      exact own.setState resultOwn

/-- The walk of a statement names nodes of the task only. -/
theorem OwnNodes.handleStmt {body : Stmt} (own : dfa.OwnNodes task)
    (flagged : dfa.isLValue = false) (allowed : dfa.prohibitLValue = false)
    (handled : DataFlowAnalysis.handleStmt resolveAssignBits body dfa = some next) :
    next.OwnNodes task := by
  induction body generalizing dfa next with
  | skip =>
      cases handled
      exact own
  | assign expr => exact own.handleAssignment flagged handled
  | force expr =>
      simp only [DataFlowAnalysis.handleStmt, Option.bind_eq_bind, Option.bind_eq_some_iff,
        Option.some.injEq] at handled
      obtain ⟨after, handled, rfl⟩ := handled
      have start : OwnNodes task { dfa with prohibitLValue := true } :=
        ⟨own.ofTask, own.state, own.pending, own.calls, own.external⟩
      have walked := start.handleAssignment flagged handled
      exact ⟨walked.ofTask, walked.state, walked.pending, walked.calls, walked.external⟩
  | decide kind location condition =>
      exact ((own.createNode kind location none).updateNode own.ofTask true).visit handled
  | seq first second firstIh secondIh =>
      simp only [DataFlowAnalysis.handleStmt, Option.bind_eq_bind, Option.bind_eq_some_iff]
        at handled
      obtain ⟨middle, front, back⟩ := handled
      obtain ⟨same, _⟩ := SameBlock.handleStmt first flagged allowed front
      exact secondIh (firstIh own flagged allowed front) (same.isLValue.trans flagged)
        (same.prohibitLValue.trans allowed) back
  | either dead intoFirst first second firstIh secondIh =>
      simp only [DataFlowAnalysis.handleStmt, Option.bind_eq_bind, Option.bind_eq_some_iff]
        at handled
      obtain ⟨afterFirst, firstArm, afterSecond, secondArm, joined⟩ := handled
      have firstOwn := firstIh (own.setState (own.state.armState dead .first)) flagged allowed
        firstArm
      obtain ⟨same, _⟩ := @SameBlock.handleStmt resolveAssignBits first
        (dfa.setState (dfa.state.armState dead .first)) afterFirst flagged allowed firstArm
      have secondOwn := secondIh (firstOwn.setState (own.state.armState dead .second))
        (same.isLValue.trans flagged) (same.prohibitLValue.trans allowed) secondArm
      split at joined
      · exact secondOwn.joinState firstOwn.state secondOwn.state joined
      · exact secondOwn.joinState secondOwn.state firstOwn.state joined
  | jump =>
      cases handled
      exact own.setState (AnalysisState.own_unreachable task)

theorem OwnNodes.finalize (own : dfa.OwnNodes task) (finalized : dfa.finalize = some next) :
    next.OwnNodes task := by
  simp only [DataFlowAnalysis.finalize, processNonBlockingLvalues, Option.bind_eq_bind,
    Option.bind_eq_some_iff, Option.some.injEq] at finalized
  obtain ⟨replayed, folded, rfl⟩ := finalized
  have listed := own.pending
  have kept : replayed.OwnNodes task := by
    refine holds_of_foldlM (OwnNodes task) own (fun pending queued here next own added => ?_) folded
    refine own.addDrivers (fun driver member => ?_) added
    rw [List.mem_singleton.mp member]
    exact listed pending queued
  exact ⟨kept.ofTask, kept.state, fun _ member => absurd member List.not_mem_nil, kept.calls,
    kept.external⟩

/-- The analysis of a body names nodes of its task only. -/
theorem ownNodes_runBody {body : Stmt}
    (ran : runBody resolveAssignBits (initial task none) body = some next) :
    next.OwnNodes task := by
  simp only [runBody, Option.bind_eq_bind, Option.bind_eq_some_iff] at ran
  obtain ⟨walked, handled, finalized⟩ := ran
  exact ((ownNodes_initial task).handleStmt rfl rfl handled).finalize finalized

end DataFlowAnalysis

end SlangNetlist
