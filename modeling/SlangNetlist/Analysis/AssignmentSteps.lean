import SlangNetlist.Analysis.HandleRvalue
import SlangNetlist.Library.PartialMap

/-!
# An assignment as a list of steps

The walk of an assignment does not branch, so that its references are known
beforehand.  `handleAssignment` is the run of the steps: nodes, writes and reads
in the order in which the source makes them.
-/

namespace SlangNetlist

open Library

/-- A read with the role and precision of its edges. -/
structure Access where
  symbol : ValueSymbol
  lsp : Nat
  bounds : DriverBitRange
  role : DependencyRole
  precision : DependencyPrecision
  deriving DecidableEq, Repr

/-- One step of the walk of an assignment. -/
inductive AssignmentStep where
  /-- A new assignment node, after the node and condition of the state are put back. -/
  | enter (saved : Option (Option NodeRef × Option NodeRef)) (location : SourceLocation)
  | write (symbol : ValueSymbol) (lsp : Nat) (bounds : DriverBitRange)
  /-- A read of the right side. -/
  | read (access : Access)
  /-- A read of the left side. -/
  | readLeft (access : Access)
  | constant (value : ConstantValue) (srcLo : Nat) (location : Option SourceLocation)
      (segment : Segment) (fallbackLoc : SourceLocation)
  /-- A failed assertion or a null reference. -/
  | stop
  deriving DecidableEq, Repr

/-- The part of the analysis that an assignment does not change, as its walk reads it. -/
structure WalkContext where
  reachable : Bool
  role : DependencyRole
  precision : DependencyPrecision
  deriving DecidableEq, Repr

namespace AssignmentStep

/-- The step of a noted path. -/
def ofPath (context : WalkContext) (left isLValue : Bool) (path : ValuePath) :
    List AssignmentStep :=
  if ¬ context.reachable then []
  else
    match path.empty, path.lsp, path.rootSymbol with
    | false, some lsp, some symbol =>
        let access : Access :=
          ⟨symbol, lsp, path.lspBounds, context.role, context.precision⟩
        if symbol.kind = .variable ∧ symbol.automatic then []
        else if isLValue then [.write symbol lsp path.lspBounds]
        else if left then [.readLeft access]
        else [.read access]
    | _, _, _ => []

/-- The steps of a visited expression. -/
def ofExpr (context : WalkContext) (left : Bool) : Bool → Expr → List AssignmentStep
  | _, .literal => []
  | isLValue, .value selectors path =>
      ofExpr context left false selectors ++ ofPath context left isLValue path
  | isLValue, .operator first second =>
      ofExpr context left isLValue first ++ ofExpr context left isLValue second

/-- The steps of a selector that is not constant. -/
def ofSelector (context : WalkContext) (selector : Selector) : List AssignmentStep :=
  if selector.constant then []
  else ofExpr { context with role := selector.role, precision := .exact } false false selector.expr

/-- The steps of one source of the left side. -/
def ofLhsSource (segment : Segment) : BitSliceSource → List AssignmentStep
  | .lsp path _ srcLo =>
      match path.rootSymbol, path.lsp with
      | some symbol, some lsp =>
          if segment.concatLo ≥ srcLo then
            [.write symbol lsp (DataFlowAnalysis.segmentBounds path srcLo segment)]
          else [.stop]
      | _, _ => [.stop]
  | _ => []

/-- The steps of one source of the right side. -/
def ofRhsSource (context : WalkContext) (fallbackLoc : SourceLocation) (segment : Segment) :
    BitSliceSource → List AssignmentStep
  | .lsp path selectors srcLo =>
      match path.rootSymbol, path.lsp with
      | some symbol, some lsp =>
          if segment.concatLo ≥ srcLo then
            selectors.flatMap (ofSelector context) ++
              [.read ⟨symbol, lsp, DataFlowAnalysis.segmentBounds path srcLo segment, context.role,
                if selectors.any fun selector => ¬ selector.constant then .signal
                else context.precision⟩]
          else [.stop]
      | _, _ => [.stop]
  | .opaqueExpr expr => ofExpr context false false expr
  | .padding => []
  | .constant value srcLo location => [.constant value srcLo location segment fallbackLoc]
  | .portNode _ => [.stop]

/-- The steps of one aligned segment. -/
def ofSegment (context : WalkContext) (prohibitLValue : Bool) (expr : AssignmentExpression)
    (saved : Option NodeRef × Option NodeRef) (segment : Segment) : List AssignmentStep :=
  .enter (some saved) expr.location ::
    ((if prohibitLValue then [] else segment.lhsSources.flatMap (ofLhsSource segment)) ++
      if expr.isLValueArg then []
      else segment.rhsSources.flatMap (ofRhsSource context expr.location segment))

/-- The steps of an assignment as one node. -/
def ofLegacy (context : WalkContext) (prohibitLValue : Bool) (expr : AssignmentExpression) :
    List AssignmentStep :=
  .enter none expr.location ::
    (ofExpr context true (! prohibitLValue) expr.left ++
      if expr.isLValueArg then [] else ofExpr context false false expr.right)

section Members

variable {context : WalkContext} {prohibitLValue : Bool} {expr : AssignmentExpression}
  {segment : Segment} {move : AssignmentStep}

theorem mem_ofSegment {saved : Option NodeRef × Option NodeRef} :
    move ∈ ofSegment context prohibitLValue expr saved segment ↔
      move = .enter (some saved) expr.location ∨
        (prohibitLValue = false ∧ ∃ source ∈ segment.lhsSources, move ∈ ofLhsSource segment source) ∨
        expr.isLValueArg = false ∧
          ∃ source ∈ segment.rhsSources, move ∈ ofRhsSource context expr.location segment source := by
  cases prohibitLValue <;> cases visits : expr.isLValueArg <;> simp [ofSegment, visits]

theorem mem_ofLegacy :
    move ∈ ofLegacy context prohibitLValue expr ↔
      move = .enter none expr.location ∨ move ∈ ofExpr context true (! prohibitLValue) expr.left ∨
        expr.isLValueArg = false ∧ move ∈ ofExpr context false false expr.right := by
  cases visits : expr.isLValueArg <;> simp [ofLegacy, visits]

/-- A source of the right side visits expressions, and has one read or constant of its own. -/
theorem mem_ofRhsSource {fallbackLoc : SourceLocation} {source : BitSliceSource}
    (member : move ∈ ofRhsSource context fallbackLoc segment source) :
    (∃ inner expr, move ∈ ofExpr inner false false expr) ∨ (∃ access, move = .read access) ∨
      (∃ value srcLo location, move = .constant value srcLo location segment fallbackLoc) ∨
        move = .stop := by
  cases source with
  | lsp path selectors srcLo =>
      simp only [ofRhsSource] at member
      split at member
      · split at member
        · rcases List.mem_append.mp member with selected | read
          · obtain ⟨selector, _, inner⟩ := List.mem_flatMap.mp selected
            unfold ofSelector at inner
            split at inner
            · cases inner
            · exact Or.inl ⟨_, _, inner⟩
          · exact Or.inr (Or.inl ⟨_, List.mem_singleton.mp read⟩)
        · exact Or.inr (Or.inr (Or.inr (List.mem_singleton.mp member)))
      · exact Or.inr (Or.inr (Or.inr (List.mem_singleton.mp member)))
  | opaqueExpr expr => exact Or.inl ⟨context, expr, member⟩
  | padding => cases member
  | constant value srcLo location =>
      exact Or.inr (Or.inr (Or.inl ⟨value, srcLo, location, List.mem_singleton.mp member⟩))
  | portNode node => exact Or.inr (Or.inr (Or.inr (List.mem_singleton.mp member)))

end Members

end AssignmentStep

namespace DataFlowAnalysis

/-- The context of a walk from a state. -/
def walkContext (dfa : DataFlowAnalysis) : WalkContext :=
  ⟨dfa.state.reachable, dfa.dependencyRole, dfa.dependencyPrecision⟩

/-- The steps of an assignment from a state. -/
def assignmentSteps (resolveAssignBits : Bool) (dfa : DataFlowAnalysis)
    (expr : AssignmentExpression) : List AssignmentStep :=
  if ¬ resolveAssignBits ∨ ¬ expr.integral ∨
      BitSliceList.width expr.lhsList ≠ BitSliceList.width expr.rhsList then
    AssignmentStep.ofLegacy dfa.walkContext dfa.prohibitLValue expr
  else
    (BitSliceList.alignSegments expr.lhsList expr.rhsList).flatMap
      (AssignmentStep.ofSegment dfa.walkContext dfa.prohibitLValue expr
        (dfa.state.node, dfa.state.condition))

/-- The read of an access. -/
def read (dfa : DataFlowAnalysis) (access : Access) : Option DataFlowAnalysis := do
  let dfa' ← handleRvalue
    { dfa with dependencyRole := access.role, dependencyPrecision := access.precision }
    access.symbol access.lsp access.bounds
  some { dfa' with
    dependencyRole := dfa.dependencyRole
    dependencyPrecision := dfa.dependencyPrecision }

/-- Make a new assignment node current. -/
def enter (dfa : DataFlowAnalysis) (saved : Option (Option NodeRef × Option NodeRef))
    (location : SourceLocation) : DataFlowAnalysis :=
  let dfa :=
    match saved with
    | some (node, condition) => dfa.setState { dfa.state with node := node, condition := condition }
    | none => dfa
  let (node, dfa) := dfa.createNode .assignment location none
  dfa.updateNode node false

/-- The run of one step. -/
def step (dfa : DataFlowAnalysis) : AssignmentStep → Option DataFlowAnalysis
  | .enter saved location => some (dfa.enter saved location)
  | .write symbol lsp bounds => dfa.handleLvalue symbol lsp bounds
  | .read access => dfa.read access
  | .readLeft access => dfa.read access
  | .constant value srcLo location segment fallbackLoc =>
      driveRhsSource fallbackLoc segment dfa (.constant value srcLo location)
  | .stop => none

/-! ## What a step leaves alone -/

/-- The analysis with another L-value flag. -/
def flag (isLValue : Bool) (dfa : DataFlowAnalysis) : DataFlowAnalysis :=
  { dfa with isLValue := isLValue }

/-- A step goes on with the flags, the role, the precision and the reachability before it. -/
structure SameWalk (dfa next : DataFlowAnalysis) : Prop where
  isLValue : next.isLValue = dfa.isLValue
  isBlocking : next.isBlocking = dfa.isBlocking
  prohibitLValue : next.prohibitLValue = dfa.prohibitLValue
  task : next.task = dfa.task
  context : next.walkContext = dfa.walkContext

theorem SameWalk.refl (dfa : DataFlowAnalysis) : SameWalk dfa dfa := ⟨rfl, rfl, rfl, rfl, rfl⟩

theorem SameWalk.trans {dfa middle next : DataFlowAnalysis} (front : SameWalk dfa middle)
    (back : SameWalk middle next) : SameWalk dfa next :=
  ⟨back.isLValue.trans front.isLValue, back.isBlocking.trans front.isBlocking,
    back.prohibitLValue.trans front.prohibitLValue, back.task.trans front.task,
    back.context.trans front.context⟩

variable {dfa next : DataFlowAnalysis}

/-- The loop over the definitions makes edges. -/
theorem linkDefinitions_calls {definitions : DriverMap} {symbol : String}
    {bounds : DriverBitRange} {node : NodeRef} {entries : List (Interval Nat)} {covered : Bool}
    (linked : linkDefinitions definitions symbol bounds node dfa entries = some (next, covered)) :
    ∃ calls, next = dfa.appendCalls calls ∧
      ∀ builderCall ∈ calls, ∃ dependency, builderCall = .addDependency dependency := by
  have driverCalls_shape (drivers : DriverList) :
      ∀ builderCall ∈ dfa.driverCalls drivers node symbol bounds,
        ∃ dependency, builderCall = .addDependency dependency := by
    intro builderCall member
    obtain ⟨source, _, same⟩ := mem_driverCalls.mp member
    exact ⟨_, same⟩
  induction entries generalizing dfa with
  | nil =>
      cases linked
      exact ⟨[], (appendCalls_nil _).symm, fun _ member => absurd member List.not_mem_nil⟩
  | cons entry rest ih =>
      simp only [linkDefinitions, addDriversToNode_eq, Option.bind_eq_bind,
        Option.bind_eq_some_iff] at linked
      obtain ⟨list, _, linked⟩ := linked
      split at linked
      · cases linked
        exact ⟨_, rfl, driverCalls_shape list⟩
      · split at linked
        · obtain ⟨calls, same, shape⟩ := ih linked driverCalls_shape
          refine ⟨_, same.trans (appendCalls_appendCalls dfa _ calls), fun other member => ?_⟩
          exact (List.mem_append.mp member).elim (driverCalls_shape list other) (shape other)
        · exact ih linked driverCalls_shape

/-- A read makes edges and pending R-values, and nothing else. -/
theorem handleRvalue_calls {symbol : ValueSymbol} {lsp : Nat} {bounds : DriverBitRange}
    (handled : dfa.handleRvalue symbol lsp bounds = some next) :
    ∃ calls, next = dfa.appendCalls calls ∧ ∀ builderCall ∈ calls,
      (∃ dependency, builderCall = .addDependency dependency) ∨
        ∃ range, builderCall = .addRvalue symbol lsp range (dfa.state.node.or dfa.externalNode)
          dfa.dependencyRole dfa.dependencyPrecision := by
  unfold handleRvalue at handled
  split at handled
  · cases handled
    exact ⟨_, rfl, fun _ member => Or.inr ⟨bounds, List.mem_singleton.mp member⟩⟩
  · split at handled
    · next none =>
        cases handled
        rw [none]
        exact ⟨_, rfl, fun _ member => Or.inr ⟨bounds, List.mem_singleton.mp member⟩⟩
    · next node current =>
        simp only [Option.bind_eq_bind, Option.bind_eq_some_iff] at handled
        obtain ⟨⟨linked, covered⟩, links, handled⟩ := handled
        obtain ⟨calls, rfl, shape⟩ := linkDefinitions_calls links
        split at handled
        · cases handled
          exact ⟨calls, rfl, fun other member => Or.inl (shape other member)⟩
        · rw [foldl_addRvalue, appendCalls_appendCalls] at handled
          cases handled
          refine ⟨_, rfl, fun other member => ?_⟩
          rcases List.mem_append.mp member with link | pend
          · exact Or.inl (shape other link)
          · obtain ⟨part, _, rfl⟩ := List.mem_map.mp pend
            rw [current]
            exact Or.inr ⟨_, rfl⟩

theorem handleRvalue_appends {symbol : ValueSymbol} {lsp : Nat} {bounds : DriverBitRange}
    (handled : dfa.handleRvalue symbol lsp bounds = some next) :
    ∃ calls, next = dfa.appendCalls calls := by
  obtain ⟨calls, same, _⟩ := handleRvalue_calls handled
  exact ⟨calls, same⟩

theorem read_calls {access : Access} (handled : dfa.read access = some next) :
    ∃ calls, next = dfa.appendCalls calls ∧ ∀ builderCall ∈ calls,
      (∃ dependency, builderCall = .addDependency dependency) ∨
        ∃ range, builderCall = .addRvalue access.symbol access.lsp range
          (dfa.state.node.or dfa.externalNode) access.role access.precision := by
  simp only [read, Option.bind_eq_bind, Option.bind_eq_some_iff, Option.some.injEq] at handled
  obtain ⟨_, handled, rfl⟩ := handled
  obtain ⟨calls, rfl, shape⟩ := handleRvalue_calls handled
  exact ⟨calls, rfl, shape⟩

theorem read_appends {access : Access} (handled : dfa.read access = some next) :
    ∃ calls, next = dfa.appendCalls calls := by
  obtain ⟨calls, same, _⟩ := read_calls handled
  exact ⟨calls, same⟩

/-- The analysis as a read of the access sees it. -/
def accessing (dfa : DataFlowAnalysis) (access : Access) : DataFlowAnalysis :=
  { dfa with dependencyRole := access.role, dependencyPrecision := access.precision }

/-- With a current node and live definitions a read makes the calls of `handleRvalue`. -/
theorem read_spec {access : Access}
    (ordered : (dfa.definitions access.symbol).driverIntervals.Ordered) {node : NodeRef}
    (current : dfa.state.node = some node)
    (live : ∀ entry ∈ (dfa.definitions access.symbol).find access.bounds,
      (dfa.definitions access.symbol).Live entry) :
    ∃ calls, dfa.read access = some (dfa.appendCalls calls) ∧
      (dfa.accessing access).ReadCalls access.symbol access.lsp access.bounds node calls := by
  obtain ⟨calls, handled, reads⟩ :=
    @handleRvalue_spec (dfa.accessing access) access.symbol ordered node current access.lsp
      access.bounds live
  rw [accessing] at handled
  refine ⟨calls, ?_, reads⟩
  simp only [read, handled, Option.bind_eq_bind, Option.bind_some]
  rfl

/-- A read that succeeds finds live definitions. -/
theorem live_of_read {access : Access}
    (ordered : (dfa.definitions access.symbol).driverIntervals.Ordered) {node : NodeRef}
    (current : dfa.state.node = some node) (handled : dfa.read access = some next) :
    ∀ entry ∈ (dfa.definitions access.symbol).find access.bounds,
      (dfa.definitions access.symbol).Live entry := by
  simp only [read, Option.bind_eq_bind, Option.bind_eq_some_iff] at handled
  obtain ⟨after, handled, _⟩ := handled
  exact @live_of_handleRvalue (dfa.accessing access) after access.symbol ordered node current
    access.lsp access.bounds handled

theorem SameWalk.addDrivers {symbol : ValueSymbol} {bounds : DriverBitRange}
    {driverList : DriverList} (added : dfa.addDrivers symbol bounds driverList = some next) :
    SameWalk dfa next := by
  simp only [DataFlowAnalysis.addDrivers, Option.bind_eq_bind, Option.bind_eq_some_iff,
    Option.some.injEq] at added
  obtain ⟨_, _, rfl⟩ := added
  exact ⟨rfl, rfl, rfl, rfl, rfl⟩

theorem SameWalk.handleLvalue {symbol : ValueSymbol} {lsp : Nat} {bounds : DriverBitRange}
    (handled : dfa.handleLvalue symbol lsp bounds = some next) : SameWalk dfa next := by
  unfold DataFlowAnalysis.handleLvalue at handled
  split at handled
  · cases handled
    exact ⟨rfl, rfl, rfl, rfl, rfl⟩
  · exact SameWalk.addDrivers handled

theorem SameWalk.enter (dfa : DataFlowAnalysis)
    (saved : Option (Option NodeRef × Option NodeRef)) (location : SourceLocation) :
    SameWalk dfa (dfa.enter saved location) := by
  cases saved <;> simp only [DataFlowAnalysis.enter, updateNode] <;> split <;>
    exact ⟨rfl, rfl, rfl, rfl, rfl⟩

theorem SameWalk.appendCalls (dfa : DataFlowAnalysis) (calls : List BuilderCall) :
    SameWalk dfa (dfa.appendCalls calls) :=
  ⟨rfl, rfl, rfl, rfl, rfl⟩

theorem SameWalk.step {move : AssignmentStep} (stepped : dfa.step move = some next) :
    SameWalk dfa next := by
  cases move with
  | enter saved location =>
      cases stepped
      exact SameWalk.enter dfa saved location
  | write symbol lsp bounds => exact SameWalk.handleLvalue stepped
  | read access | readLeft access =>
      obtain ⟨calls, rfl⟩ := read_appends stepped
      exact SameWalk.appendCalls dfa calls
  | constant value srcLo location segment fallbackLoc =>
      simp only [DataFlowAnalysis.step, driveRhsSource] at stepped
      split at stepped
      · cases stepped
        exact SameWalk.refl _
      · cases stepped
        exact ⟨rfl, rfl, rfl, rfl, rfl⟩
  | stop => cases stepped

theorem SameWalk.run {moves : List AssignmentStep}
    (ran : moves.foldlM DataFlowAnalysis.step dfa = some next) : SameWalk dfa next :=
  holds_of_foldlM (SameWalk dfa) (SameWalk.refl _)
    (fun _ _ _ _ walked stepped => walked.trans (SameWalk.step stepped)) ran

/-- The steps of a run that ends do not stop. -/
theorem stop_notMem_of_run {moves : List AssignmentStep}
    (ran : moves.foldlM DataFlowAnalysis.step dfa = some next) : .stop ∉ moves := by
  induction moves generalizing dfa with
  | nil => exact List.not_mem_nil
  | cons move rest ih =>
      obtain ⟨middle, stepped, ran⟩ := foldlM_cons_eq_some.mp ran
      refine List.not_mem_cons_of_ne_of_not_mem ?_ (ih ran)
      rintro rfl
      cases stepped

/-! ## The walk as a run -/

theorem linkDefinitions_flag (isLValue : Bool) (definitions : DriverMap) (symbol : String)
    (bounds : DriverBitRange) (node : NodeRef) (dfa : DataFlowAnalysis)
    (entries : List (Interval Nat)) :
    linkDefinitions definitions symbol bounds node (dfa.flag isLValue) entries =
      (linkDefinitions definitions symbol bounds node dfa entries).map
        fun linked => (linked.1.flag isLValue, linked.2) := by
  induction entries generalizing dfa with
  | nil => rfl
  | cons entry rest ih =>
      simp only [linkDefinitions, addDriversToNode_eq, Option.bind_eq_bind]
      cases definitions.getDriverList entry.value with
      | none => rfl
      | some list =>
          simp only [Option.bind_some]
          split
          · rfl
          · split
            · exact ih (dfa.appendCalls (dfa.driverCalls list node symbol bounds))
            · exact ih dfa

theorem handleRvalue_flag (isLValue : Bool) (dfa : DataFlowAnalysis) (symbol : ValueSymbol)
    (lsp : Nat) (bounds : DriverBitRange) :
    (dfa.flag isLValue).handleRvalue symbol lsp bounds =
      (dfa.handleRvalue symbol lsp bounds).map (flag isLValue) := by
  unfold handleRvalue
  rw [show (dfa.flag isLValue).valueTracker = dfa.valueTracker from rfl,
    show (dfa.flag isLValue).state = dfa.state from rfl]
  cases (dfa.valueTracker.getSlot symbol).bind fun slot => dfa.state.valueDrivers[slot]? with
  | none => rfl
  | some definitions =>
      cases dfa.state.node with
      | none => rfl
      | some node =>
          simp only [linkDefinitions_flag, Option.bind_eq_bind, Option.bind_map]
          cases linkDefinitions definitions symbol.hierarchicalPath bounds node dfa
              (definitions.find bounds) with
          | none => rfl
          | some linked =>
              simp only [Option.bind_some, Function.comp, foldl_addRvalue]
              split <;> rfl

/-- The analysis with another L-value flag, role and precision. -/
def under (isLValue : Bool) (role : DependencyRole) (precision : DependencyPrecision)
    (dfa : DataFlowAnalysis) : DataFlowAnalysis :=
  { dfa with isLValue := isLValue, dependencyRole := role, dependencyPrecision := precision }

section Under

variable (isLValue : Bool) (role : DependencyRole) (precision : DependencyPrecision)

theorem read_under (dfa : DataFlowAnalysis) (access : Access) :
    (dfa.under isLValue role precision).read access =
      (dfa.read access).map (under isLValue role precision) := by
  have moved := handleRvalue_flag isLValue
    { dfa with dependencyRole := access.role, dependencyPrecision := access.precision }
    access.symbol access.lsp access.bounds
  simp only [flag] at moved
  simp only [read, under, moved, Option.bind_eq_bind, Option.bind_map, Option.map_bind]
  rfl

/-- The steps do not depend on the flag, the role and the precision. -/
theorem step_under (dfa : DataFlowAnalysis) (move : AssignmentStep) :
    (dfa.under isLValue role precision).step move =
      (dfa.step move).map (under isLValue role precision) := by
  cases move with
  | enter saved location =>
      cases saved with
      | none =>
          rw [step, step, enter, enter, Option.map_some]
          simp only [updateNode, createNode, call, under]
          cases dfa.state.condition <;> rfl
      | some context =>
          obtain ⟨node, condition⟩ := context
          cases condition <;> rfl
  | write symbol lsp bounds =>
      have blocks : (dfa.under isLValue role precision).isBlocking = dfa.isBlocking := rfl
      simp only [step, handleLvalue, blocks]
      cases dfa.isBlocking with
      | false => rfl
      | true =>
          simp only [not_true, if_false, addDrivers, Option.bind_eq_bind, Option.map_bind]
          rfl
  | read access | readLeft access => exact read_under isLValue role precision dfa access
  | constant value srcLo location segment fallbackLoc =>
      simp only [step, driveRhsSource, under]
      cases dfa.state.node <;> rfl
  | stop => rfl

theorem run_under (dfa : DataFlowAnalysis) (moves : List AssignmentStep) :
    moves.foldlM step (dfa.under isLValue role precision) =
      (moves.foldlM step dfa).map (under isLValue role precision) := by
  induction moves generalizing dfa with
  | nil => rfl
  | cons move rest ih =>
      simp only [List.foldlM_cons, step_under, Option.bind_eq_bind, Option.bind_map,
        Option.map_bind]
      exact congrArg _ (funext fun middle => ih middle)

end Under

/-- A run under another flag, role and precision that are put back afterwards. -/
theorem bind_run_under {Result : Type} (isLValue : Bool) (role : DependencyRole)
    (precision : DependencyPrecision) (dfa : DataFlowAnalysis) (moves : List AssignmentStep)
    (putBack : DataFlowAnalysis → DataFlowAnalysis) (after : DataFlowAnalysis → Option Result)
    (putBackEq : ∀ next : DataFlowAnalysis, next.isLValue = isLValue →
      next.dependencyRole = role → next.dependencyPrecision = precision →
      putBack next = next.under dfa.isLValue dfa.dependencyRole dfa.dependencyPrecision) :
    ((moves.foldlM step (dfa.under isLValue role precision)).bind fun next =>
      after (putBack next)) = (moves.foldlM step dfa).bind after := by
  rw [run_under, Option.bind_map]
  cases ran : moves.foldlM step dfa with
  | none => rfl
  | some next =>
      have same := SameWalk.run ran
      obtain ⟨_, sameRole, samePrecision⟩ := WalkContext.mk.inj same.context
      simp only [Option.bind_some, Function.comp, putBackEq (next.under isLValue role precision)
        rfl rfl rfl]
      rw [← same.isLValue, ← sameRole, ← samePrecision]
      rfl

theorem read_context (dfa : DataFlowAnalysis) (symbol : ValueSymbol) (lsp : Nat)
    (bounds : DriverBitRange) :
    dfa.read ⟨symbol, lsp, bounds, dfa.dependencyRole, dfa.dependencyPrecision⟩ =
      dfa.handleRvalue symbol lsp bounds := by
  cases handled : dfa.handleRvalue symbol lsp bounds with
  | none => simp only [read, handled, Option.bind_eq_bind, Option.bind_none]
  | some next =>
      obtain ⟨calls, rfl⟩ := handleRvalue_appends handled
      simp only [read, handled, Option.bind_eq_bind, Option.bind_some]
      rfl

/-- A noted path is the run of its step. -/
theorem noteReference_eq (dfa : DataFlowAnalysis) (left : Bool) (path : ValuePath) :
    dfa.noteReference path =
      (AssignmentStep.ofPath dfa.walkContext left dfa.isLValue path).foldlM step dfa := by
  have bound (next : Option DataFlowAnalysis) : next = next.bind some := by
    cases next <;> rfl
  simp only [noteReference, AssignmentStep.ofPath, walkContext]
  by_cases reached : dfa.state.reachable
  · simp only [reached, not_true, if_false]
    cases path.empty with
    | true => rfl
    | false =>
        cases path.lsp with
        | none => rfl
        | some lsp =>
            cases path.rootSymbol with
            | none => rfl
            | some symbol =>
                by_cases skipped : symbol.kind = .variable ∧ symbol.automatic
                · simp only [skipped, and_self, if_true]
                  rfl
                · simp only [skipped, if_false]
                  cases dfa.isLValue with
                  | true => exact bound _
                  | false =>
                      rw [← read_context]
                      cases left <;> exact bound _
  · simp only [reached]
    rfl

/-- The visit of an expression is the run of its steps. -/
theorem visit_eq (dfa : DataFlowAnalysis) (left : Bool) (expr : Expr) :
    visit dfa expr =
      (AssignmentStep.ofExpr dfa.walkContext left dfa.isLValue expr).foldlM step dfa := by
  induction expr generalizing dfa with
  | literal => rfl
  | value selectors path ih =>
      simp only [visit, AssignmentStep.ofExpr, List.foldlM_append, Option.bind_eq_bind]
      refine (congrArg (Option.bind · _) (ih { dfa with isLValue := false })).trans ?_
      refine (bind_run_under false dfa.dependencyRole dfa.dependencyPrecision dfa
        (AssignmentStep.ofExpr dfa.walkContext left false selectors)
        (fun next => { next with isLValue := dfa.isLValue }) (noteReference · path) ?_).trans ?_
      · intro next _ role precision
        rw [← role, ← precision]
        rfl
      · cases ran : (AssignmentStep.ofExpr dfa.walkContext left false selectors).foldlM step
            dfa with
        | none => rfl
        | some middle =>
            have same := SameWalk.run ran
            simp only [Option.bind_some]
            rw [noteReference_eq middle left, same.context, same.isLValue]
  | operator first second firstIh secondIh =>
      simp only [visit, AssignmentStep.ofExpr, List.foldlM_append, Option.bind_eq_bind]
      rw [firstIh]
      cases ran : (AssignmentStep.ofExpr dfa.walkContext left dfa.isLValue first).foldlM step dfa with
      | none => rfl
      | some middle =>
          have same := SameWalk.run ran
          simp only [Option.bind_some]
          rw [secondIh middle, same.context, same.isLValue]

/-! ### The bit-aligned path -/

/-- A loop over parts that are runs is the run of all their steps. -/
theorem foldlM_flatMap {Part : Type} {moves : Part → List AssignmentStep}
    {body : DataFlowAnalysis → Part → Option DataFlowAnalysis} {start : DataFlowAnalysis}
    (parts : List Part)
    (bodyEq : ∀ part ∈ parts, ∀ dfa, SameWalk start dfa →
      body dfa part = (moves part).foldlM step dfa)
    {dfa : DataFlowAnalysis} (before : SameWalk start dfa) :
    parts.foldlM body dfa = (parts.flatMap moves).foldlM step dfa := by
  induction parts generalizing dfa with
  | nil => rfl
  | cons part rest ih =>
      rw [List.foldlM_cons, List.flatMap_cons, List.foldlM_append,
        bodyEq part List.mem_cons_self dfa before]
      cases ran : (moves part).foldlM step dfa with
      | none => rfl
      | some middle =>
          exact ih (fun other member => bodyEq other (List.mem_cons_of_mem part member))
            (before.trans (SameWalk.run ran))

/-- The read of a step, when the precision has been set before. -/
theorem read_precision (dfa : DataFlowAnalysis) (precision : DependencyPrecision)
    (symbol : ValueSymbol) (lsp : Nat) (bounds : DriverBitRange) :
    (do
      let next ← handleRvalue { dfa with dependencyPrecision := precision } symbol lsp bounds
      some { next with dependencyPrecision := dfa.dependencyPrecision }) =
      dfa.read ⟨symbol, lsp, bounds, dfa.dependencyRole, precision⟩ := by
  simp only [read, Option.bind_eq_bind]
  cases handled : handleRvalue { dfa with dependencyPrecision := precision } symbol lsp bounds with
  | none => rfl
  | some next =>
      obtain ⟨calls, rfl⟩ := handleRvalue_appends handled
      rfl

theorem driveLhsSource_eq (segment : Segment) (source : BitSliceSource)
    (dfa : DataFlowAnalysis) :
    driveLhsSource segment dfa source =
      (AssignmentStep.ofLhsSource segment source).foldlM step dfa := by
  cases source with
  | lsp path selectors srcLo =>
      simp only [driveLhsSource, driveLhsLspSegment, AssignmentStep.ofLhsSource]
      cases path.rootSymbol with
      | none => simp [guard, step]
      | some symbol =>
          cases path.lsp with
          | none => simp [guard, step]
          | some lsp =>
              by_cases inside : segment.concatLo ≥ srcLo <;> simp [guard, inside, step]
  | padding | opaqueExpr | portNode | constant => rfl

theorem visitSelector_eq (selector : Selector) (dfa : DataFlowAnalysis)
    (flagged : dfa.isLValue = false) :
    visitSelector dfa selector =
      (AssignmentStep.ofSelector dfa.walkContext selector).foldlM step dfa := by
  simp only [visitSelector, AssignmentStep.ofSelector]
  split
  · rfl
  · have moved := bind_run_under false selector.role .exact dfa
      (AssignmentStep.ofExpr { dfa.walkContext with role := selector.role, precision := .exact }
        false false selector.expr)
      (fun next => { next with
        dependencyRole := dfa.dependencyRole
        dependencyPrecision := dfa.dependencyPrecision }) some
      (fun next isLValue _ _ => by
        rw [flagged, ← isLValue]
        rfl)
    rw [Option.bind_fun_some] at moved
    rw [← moved, visit_eq _ false]
    simp only [under, flagged]
    rfl

theorem driveRhsSource_eq (fallbackLoc : SourceLocation) (segment : Segment)
    (source : BitSliceSource) (dfa : DataFlowAnalysis) (flagged : dfa.isLValue = false) :
    driveRhsSource fallbackLoc segment dfa source =
      (AssignmentStep.ofRhsSource dfa.walkContext fallbackLoc segment source).foldlM step dfa := by
  have bound (next : Option DataFlowAnalysis) : next = next.bind some := by
    cases next <;> rfl
  cases source with
  | lsp path selectors srcLo =>
      simp only [driveRhsSource, driveRhsLspSegment, AssignmentStep.ofRhsSource]
      cases path.rootSymbol with
      | none => simp [guard, step]
      | some symbol =>
          cases path.lsp with
          | none => simp [guard, step]
          | some lsp =>
              by_cases inside : segment.concatLo ≥ srcLo
              · simp only [guard, inside, if_true, List.foldlM_append, Option.bind_eq_bind,
                  Option.bind_some, Option.pure_def]
                rw [foldlM_flatMap selectors
                  (fun selector _ middle same => by
                    rw [visitSelector_eq selector middle (same.isLValue.trans flagged),
                      same.context]) (SameWalk.refl dfa)]
                cases ran : (selectors.flatMap (AssignmentStep.ofSelector dfa.walkContext)).foldlM
                    step dfa with
                | none => rfl
                | some middle =>
                    obtain ⟨_, role, precision⟩ :=
                      WalkContext.mk.inj (SameWalk.run ran).context
                    have reads := fun precision => read_precision middle precision symbol lsp
                      (segmentBounds path srcLo segment)
                    simp only [Option.bind_eq_bind] at reads
                    simp only [Option.bind_some, List.foldlM_cons, List.foldlM_nil, step,
                      Option.pure_def, Option.bind_eq_bind, Option.bind_fun_some, walkContext,
                      ← role, ← precision]
                    split <;> exact reads _
              · simp [guard, inside, step]
  | opaqueExpr expr =>
      have moved := bind_run_under false dfa.dependencyRole dfa.dependencyPrecision dfa
        (AssignmentStep.ofExpr dfa.walkContext false false expr)
        (fun next => { next with isLValue := dfa.isLValue }) some
        (fun next _ role precision => by
          rw [← role, ← precision]
          rfl)
      rw [Option.bind_fun_some] at moved
      rw [driveRhsSource, AssignmentStep.ofRhsSource, ← moved, visit_eq _ false]
      rfl
  | padding => rfl
  | constant value srcLo location => exact bound _
  | portNode node => rfl

/-- A left side whose L-values are tracked is the run of its steps. -/
theorem bind_lhsSources (segment : Segment) (dfa : DataFlowAnalysis)
    (flagged : dfa.isLValue = false) (after : DataFlowAnalysis → Option DataFlowAnalysis) :
    ((segment.lhsSources.foldlM (driveLhsSource segment) { dfa with isLValue := true }).bind
      fun next => after { next with isLValue := false }) =
      ((segment.lhsSources.flatMap (AssignmentStep.ofLhsSource segment)).foldlM step dfa).bind
        after := by
  rw [foldlM_flatMap segment.lhsSources
    (fun source _ middle _ => driveLhsSource_eq segment source middle) (SameWalk.refl _)]
  refine bind_run_under true dfa.dependencyRole dfa.dependencyPrecision dfa
    (segment.lhsSources.flatMap (AssignmentStep.ofLhsSource segment))
    (fun next => { next with isLValue := false }) after fun next _ role precision => ?_
  rw [← role, ← precision, flagged]
  rfl

/-- One segment is the run of its steps. -/
theorem handleSegment_eq (expr : AssignmentExpression) (saved : Option NodeRef × Option NodeRef)
    (segment : Segment) (dfa : DataFlowAnalysis) (flagged : dfa.isLValue = false) :
    handleSegment expr saved.1 saved.2 dfa segment =
      (AssignmentStep.ofSegment dfa.walkContext dfa.prohibitLValue expr saved segment).foldlM
        step dfa := by
  let entered := dfa.enter (some saved) expr.location
  let finish (middle : DataFlowAnalysis) : Option DataFlowAnalysis :=
    if ¬ expr.isLValueArg then
      segment.rhsSources.foldlM (driveRhsSource expr.location segment) middle
    else some middle
  have walk : SameWalk dfa entered := SameWalk.enter dfa (some saved) expr.location
  have enteredFlag : entered.isLValue = false := walk.isLValue.trans flagged
  have unfolded : handleSegment expr saved.1 saved.2 dfa segment =
      (if ¬ entered.prohibitLValue then
        Option.bind (guard (¬ entered.isLValue)) fun _ =>
          (segment.lhsSources.foldlM (driveLhsSource segment)
            { entered with isLValue := true }).bind fun next =>
              finish { next with isLValue := false }
      else finish entered) := rfl
  have right : ∀ middle, SameWalk dfa middle → finish middle =
      (if expr.isLValueArg then []
        else segment.rhsSources.flatMap
          (AssignmentStep.ofRhsSource dfa.walkContext expr.location segment)).foldlM step
        middle := by
    intro middle same
    simp only [finish]
    cases expr.isLValueArg with
    | true => rfl
    | false =>
        exact foldlM_flatMap segment.rhsSources
          (fun source _ next further => by
            rw [driveRhsSource_eq expr.location segment source next
              (further.isLValue.trans flagged), further.context]) same
  have prohibits := walk.prohibitLValue
  simp only [AssignmentStep.ofSegment, List.foldlM_cons, List.foldlM_append, step,
    Option.bind_eq_bind, Option.bind_some]
  cases prohibited : dfa.prohibitLValue with
  | true =>
      rw [unfolded, if_neg (not_not.mpr (prohibits.trans prohibited))]
      exact right _ walk
  | false =>
      rw [unfolded, if_pos (by rw [prohibits, prohibited]; exact Bool.false_ne_true),
        show (guard (¬ entered.isLValue) : Option Unit) = some () by rw [enteredFlag]; rfl,
        Option.bind_some, bind_lhsSources segment entered enteredFlag finish]
      change _ = Option.bind (List.foldlM step entered _) _
      simp only [Bool.false_eq_true, if_false]
      cases ran : (segment.lhsSources.flatMap (AssignmentStep.ofLhsSource segment)).foldlM step
          entered with
      | none => rfl
      | some middle => exact right middle (walk.trans (SameWalk.run ran))

/-- The right side of an assignment as one node is the run of its steps. -/
theorem visitRight_eq (expr : AssignmentExpression) {dfa middle : DataFlowAnalysis}
    (same : SameWalk dfa middle) (flagged : dfa.isLValue = false) :
    (if ¬ expr.isLValueArg then visit middle expr.right else some middle) =
      (if expr.isLValueArg then []
        else AssignmentStep.ofExpr dfa.walkContext false false expr.right).foldlM step middle := by
  cases expr.isLValueArg with
  | true => rfl
  | false =>
      have visited := visit_eq middle false expr.right
      rw [same.context, same.isLValue, flagged] at visited
      exact visited

theorem enter_isBlocking (dfa : DataFlowAnalysis) (isBlocking : Bool)
    (saved : Option (Option NodeRef × Option NodeRef)) (location : SourceLocation) :
    ({ dfa with isBlocking := isBlocking } : DataFlowAnalysis).enter saved location =
      { dfa.enter saved location with isBlocking := isBlocking } := by
  cases saved with
  | none =>
      simp only [enter, updateNode, createNode, call]
      cases dfa.state.condition <;> rfl
  | some context =>
      obtain ⟨node, condition⟩ := context
      cases condition <;> rfl

/-- An assignment as one node is the run of its steps. -/
theorem handleAssignmentLegacy_eq (expr : AssignmentExpression) (dfa : DataFlowAnalysis)
    (flagged : dfa.isLValue = false) :
    dfa.handleAssignmentLegacy expr =
      (AssignmentStep.ofLegacy dfa.walkContext dfa.prohibitLValue expr).foldlM step
        (if dfa.prohibitLValue then dfa else { dfa with isBlocking := expr.isBlocking }) := by
  let entered := dfa.enter none expr.location
  let finish (middle : DataFlowAnalysis) : Option DataFlowAnalysis :=
    if ¬ expr.isLValueArg then visit middle expr.right else some middle
  have walk : SameWalk dfa entered := SameWalk.enter dfa none expr.location
  have enteredFlag : entered.isLValue = false := walk.isLValue.trans flagged
  have prohibits := walk.prohibitLValue
  have unfolded : dfa.handleAssignmentLegacy expr =
      (if ¬ entered.prohibitLValue then
        Option.bind (guard (¬ entered.isLValue)) fun _ =>
          (visit { entered with isLValue := true, isBlocking := expr.isBlocking }
            expr.left).bind fun next => finish { next with isLValue := false }
      else (visit entered expr.left).bind finish) := rfl
  simp only [AssignmentStep.ofLegacy, List.foldlM_cons, List.foldlM_append, step,
    Option.bind_eq_bind, Option.bind_some]
  by_cases prohibited : dfa.prohibitLValue
  · rw [unfolded, if_neg (not_not.mpr (prohibits.trans prohibited)), visit_eq entered true,
      walk.context, enteredFlag, if_pos prohibited, prohibited, Bool.not_true]
    change _ = Option.bind (List.foldlM step entered _) _
    cases ran : (AssignmentStep.ofExpr dfa.walkContext true false expr.left).foldlM step
        entered with
    | none => rfl
    | some middle => exact visitRight_eq expr (walk.trans (SameWalk.run ran)) flagged
  · let blocking : DataFlowAnalysis := { entered with isBlocking := expr.isBlocking }
    have context : blocking.walkContext = dfa.walkContext := walk.context
    have moved := bind_run_under true blocking.dependencyRole blocking.dependencyPrecision
      blocking (AssignmentStep.ofExpr blocking.walkContext true true expr.left)
      (fun next => { next with isLValue := false }) finish fun next _ role precision => by
        rw [← role, ← precision, show blocking.isLValue = false from enteredFlag]
        rfl
    rw [unfolded, if_pos (by rw [prohibits]; exact prohibited),
      show (guard (¬ entered.isLValue) : Option Unit) = some () by rw [enteredFlag]; rfl,
      Option.bind_some, visit_eq _ true, if_neg prohibited, enter_isBlocking,
      show (! dfa.prohibitLValue) = true by simpa using prohibited]
    refine moved.trans ?_
    rw [context]
    change _ = Option.bind (List.foldlM step blocking _) _
    cases ran : (AssignmentStep.ofExpr dfa.walkContext true true expr.left).foldlM step
        blocking with
    | none => rfl
    | some middle =>
        have right := visitRight_eq expr (SameWalk.run ran) enteredFlag
        rw [context] at right
        exact right

/-- The state in which the steps of an assignment start: a forced one keeps the flag. -/
def assignmentStart (resolveAssignBits : Bool) (dfa : DataFlowAnalysis)
    (expr : AssignmentExpression) : DataFlowAnalysis :=
  if (¬ resolveAssignBits ∨ ¬ expr.integral ∨
      BitSliceList.width expr.lhsList ≠ BitSliceList.width expr.rhsList) ∧ dfa.prohibitLValue then
    dfa
  else { dfa with isBlocking := expr.isBlocking }

/-- An assignment is the run of its steps. -/
theorem handleAssignment_eq (resolveAssignBits : Bool) (dfa : DataFlowAnalysis)
    (expr : AssignmentExpression) (flagged : dfa.isLValue = false) :
    dfa.handleAssignment resolveAssignBits expr =
      (assignmentSteps resolveAssignBits dfa expr).foldlM step
        (assignmentStart resolveAssignBits dfa expr) := by
  simp only [handleAssignment, assignmentSteps, assignmentStart]
  by_cases legacy : ¬ resolveAssignBits ∨ ¬ expr.integral ∨
      BitSliceList.width expr.lhsList ≠ BitSliceList.width expr.rhsList
  · simp only [if_pos legacy]
    rw [handleAssignmentLegacy_eq expr dfa flagged]
    simp only [legacy, true_and]
  · rw [if_neg legacy, if_neg legacy, if_neg fun forced => legacy forced.1]
    exact foldlM_flatMap _ (fun segment _ middle same => by
      rw [handleSegment_eq expr (dfa.state.node, dfa.state.condition) segment middle
        (same.isLValue.trans flagged), same.context, same.prohibitLValue]
      rfl) (SameWalk.refl _)

end DataFlowAnalysis

end SlangNetlist
