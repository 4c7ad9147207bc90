import SlangNetlist.Analysis.DynamicSelects
import SlangNetlist.Analysis.UnreachableReferences
import SlangNetlist.Analysis.WrittenEnds

/-!
# Selectors and implicit reads

An assignment reads the selectors of both sides, and an operator assignment
also the previous value of its target.  The walk of one node visits every
selector; the loop over aligned segments visits those of the right side only.
-/

namespace SlangNetlist

open Library

/-- A signal and the bits of it that are read. -/
abbrev SignalRead := ValueSymbol × DriverBitRange

/-- The signal of a noted path; automatic variables are not tracked. -/
def ValuePath.signal (path : ValuePath) : List SignalRead :=
  match path.empty, path.lsp, path.rootSymbol with
  | false, some _, some symbol =>
      if symbol.IsAutomatic then [] else [(symbol, path.lspBounds)]
  | _, _, _ => []

namespace Expr

/-- The signals that an expression reads. -/
def signals : Expr → List SignalRead
  | .literal => []
  | .value selectors path => selectors.signals ++ path.signal
  | .operator left right => left.signals ++ right.signals

/-- The signals that the selectors of an expression read. -/
def selectorSignals : Expr → List SignalRead
  | .literal => []
  | .value selectors _ => selectors.signals
  | .operator left right => left.selectorSignals ++ right.selectorSignals

/-- The signals that an assignment to the expression writes. -/
def targets : Expr → List SignalRead
  | .literal => []
  | .value _ path => path.signal
  | .operator left right => left.targets ++ right.targets

end Expr

namespace Selector

/-- The signals that a selector reads, none if it is constant. -/
def signals (selector : Selector) : List SignalRead :=
  if selector.constant then [] else selector.expr.signals

end Selector

namespace SliceExpr

mutual

/-- The signals that the selectors of an expression read where they are not constant. -/
def selectorSignals : SliceExpr → List SignalRead
  | .value _ _ selectors => selectors.flatMap Selector.signals
  | .concatenation operands => operandsSelectorSignals operands
  | .replication _ _ concat _ => concat.selectorSignals
  | .conversion _ _ _ operand _ _ => operand.selectorSignals
  | .conditionalOp _ _ condition left right _ =>
      condition.selectorSignals ++ left.selectorSignals ++ right.selectorSignals
  | .other _ _ expr _ => expr.selectorSignals

def operandsSelectorSignals : List SliceExpr → List SignalRead
  | [] => []
  | operand :: rest => operand.selectorSignals ++ operandsSelectorSignals rest

end

mutual

/-- An operand that is visited whole is visited as its parts are. -/
def Coherent : SliceExpr → Prop
  | .value _ _ _ => True
  | .concatenation operands => OperandsCoherent operands
  | .replication _ _ concat expr => expr = concat.visited ∧ concat.Coherent
  | .conversion _ _ _ operand expr _ => expr = operand.visited ∧ operand.Coherent
  | .conditionalOp _ _ condition left right expr =>
      expr = .operator condition (.operator left.visited right.visited) ∧
        left.Coherent ∧ right.Coherent
  | .other _ _ _ _ => True

def OperandsCoherent : List SliceExpr → Prop
  | [] => True
  | operand :: rest => operand.Coherent ∧ OperandsCoherent rest

end

end SliceExpr

/-- An assignment of the source. -/
structure SourceAssignment where
  location : SourceLocation := none
  isBlocking : Bool := true
  isLValueArg : Bool := false
  integral : Bool := true
  /-- An operator assignment, whose right side has a literal in the place of the target's value. -/
  compound : Bool := false
  left : SliceExpr
  right : SliceExpr
  leftCoherent : left.Coherent
  rightCoherent : right.Coherent

namespace SourceAssignment

/-- The assignment as its handler sees it. -/
def expression (assignment : SourceAssignment) (cuts : Option CutRegistry) :
    AssignmentExpression where
  location := assignment.location
  isBlocking := assignment.isBlocking
  isLValueArg := assignment.isLValueArg
  left := assignment.left.visited
  right := assignment.right.visited
  integral := assignment.integral
  lhsList := BitSliceList.build assignment.left true cuts
  rhsList := BitSliceList.build assignment.right true cuts

/-- The signals of the selectors that are not constant, and of the target's previous value. -/
def selectorReads (assignment : SourceAssignment) : List SignalRead :=
  assignment.left.selectorSignals ++
    ((if assignment.isLValueArg then [] else assignment.right.selectorSignals) ++
      if assignment.compound then assignment.left.visited.targets else [])

end SourceAssignment

section Records

variable (resolveInterfaceRef : InterfaceRefs) (builder : NetlistBuilder)

/-- The builder records a read of the bit into the node, as an edge or as a pending R-value. -/
def BuilderCall.RecordsRead (symbol : ValueSymbol) (bit : Int) (node : NodeRef)
    (builderCall : BuilderCall) : Prop :=
  (∃ dependency ∈ NetlistBuilder.callDependencies resolveInterfaceRef builder builderCall,
    dependency.target = node ∧ dependency.symbol = symbol.hierarchicalPath ∧
      bit ∈ dependency.bounds) ∨
    ∃ pending ∈ NetlistBuilder.callPending builderCall, pending.symbol = symbol ∧
      pending.node = some node ∧ bit ∈ pending.bounds

/-- Between the two states the analysis has recorded a read of the bit into an assignment node. -/
def DataFlowAnalysis.Recorded (dfa next : DataFlowAnalysis) (symbol : ValueSymbol) (bit : Int) :
    Prop :=
  ∃ calls, next.calls = dfa.calls ++ calls ∧ ∃ node location,
    .addNode node location none ∈ calls ∧ node.kind = .assignment ∧
      ∃ builderCall ∈ calls,
        builderCall.RecordsRead resolveInterfaceRef builder symbol bit node

/-- Interface variables are looked up for a read through a modport. -/
def Access.LooksUp (access : Access) : Prop :=
  ∃ ref ∈ resolveInterfaceRef access.symbol access.lsp,
    ∃ source, builder.getVariable ref.1.id ref.2 = some source

/--
A read that meets the intervals records all its bits.  A bit that is free of
them is queued, or linked with the interface variables if it is read through a
modport.
-/
def Access.Records (access : Access) (all : List Ends) (symbol : ValueSymbol) (bit : Int) :
    Prop :=
  (access.symbol.hierarchicalPath = symbol.hierarchicalPath ∧ bit ∈ access.bounds ∧
    Ends.Met access.bounds all) ∨
  (Ends.Free access.bounds all bit ∧
    if access.symbol.kind = .modportPort then
      access.symbol.hierarchicalPath = symbol.hierarchicalPath ∧
        access.LooksUp resolveInterfaceRef builder
    else access.symbol = symbol)

theorem Access.records_congr {access : Access} {all other : List Ends} {symbol : ValueSymbol}
    {bit : Int} (same : ∀ own, own ∈ all ↔ own ∈ other) :
    access.Records resolveInterfaceRef builder all symbol bit ↔
      access.Records resolveInterfaceRef builder other symbol bit := by
  simp only [Access.Records, Ends.met_congr same, Ends.free_congr same]

/--
Some reference of the assignment reads the bit: it meets the intervals before
the assignment, with the writes that precede it, or the bit is free of them.
-/
def DataFlowAnalysis.ReadsBit (resolveAssignBits : Bool) (dfa : DataFlowAnalysis)
    (expr : AssignmentExpression) (symbol : ValueSymbol) (bit : Int) : Prop :=
  ∃ front move back access,
    DataFlowAnalysis.assignmentSteps resolveAssignBits dfa expr = front ++ move :: back ∧
      (move = .read access ∨ move = .readLeft access) ∧
      access.Records resolveInterfaceRef builder (dfa.endsBefore expr front access.symbol) symbol
        bit

end Records

namespace DataFlowAnalysis

variable {resolveInterfaceRef : InterfaceRefs} {builder : NetlistBuilder}
  {resolveAssignBits : Bool} {start dfa middle next : DataFlowAnalysis} {symbol : ValueSymbol}
  {bit : Int}

/-! ## The calls of a run -/

/-- An annotated edge records its bits. -/
theorem recordsRead_addDependency {dependency : Dependency} {target : NodeRef} :
    (BuilderCall.addDependency dependency).RecordsRead resolveInterfaceRef builder symbol bit
        target ↔
      dependency.target = target ∧ dependency.symbol = symbol.hierarchicalPath ∧
        bit ∈ dependency.bounds := by
  simp [BuilderCall.RecordsRead, NetlistBuilder.callDependencies, NetlistBuilder.callPending]

/-- An R-value is queued, or linked with the interface variables that are looked up for it. -/
theorem recordsRead_addRvalue {access : Access} {range : DriverBitRange}
    {node target : NodeRef} :
    (BuilderCall.addRvalue access.symbol access.lsp range (some node) access.role
        access.precision).RecordsRead resolveInterfaceRef builder symbol bit target ↔
      target = node ∧ bit ∈ range ∧
        if access.symbol.kind = .modportPort then
          access.symbol.hierarchicalPath = symbol.hierarchicalPath ∧
            access.LooksUp resolveInterfaceRef builder
        else access.symbol = symbol := by
  unfold BuilderCall.RecordsRead
  by_cases modport : access.symbol.kind = .modportPort
  · simp only [NetlistBuilder.mem_callDependencies_rvalue, NetlistBuilder.callPending, modport,
      true_and, if_true, ne_eq, reduceCtorEq, not_false_eq_true, List.not_mem_nil, false_and,
      exists_false, or_false]
    constructor
    · rintro ⟨dependency, ⟨⟨ref, refMem, found⟩, same⟩, atNode, path, inside⟩
      rw [same] at atNode path inside
      exact ⟨atNode.symm, inside, path, ref, refMem, _, found⟩
    · rintro ⟨rfl, inside, path, ref, refMem, source, found⟩
      exact ⟨
        { source := source, target := target, symbol := access.symbol.hierarchicalPath,
          bounds := range, semantics := { role := access.role, precision := access.precision } },
        ⟨⟨ref, refMem, found⟩, rfl⟩, rfl, path, inside⟩
  · simp only [NetlistBuilder.mem_callDependencies_rvalue, NetlistBuilder.callPending, modport,
      false_and, exists_false, false_or, if_false, List.mem_singleton, exists_eq_left,
      Option.some.injEq]
    constructor
    · rintro ⟨same, atNode, inside⟩
      exact ⟨atNode.symm, inside, same⟩
    · rintro ⟨atNode, inside, same⟩
      exact ⟨same, atNode.symm, inside⟩

/-- The calls of a read record the bits for which the intervals of the state are right. -/
theorem recordsRead_iff {access : Access} (driven : dfa.state.Driven)
    (ordered : (dfa.definitions access.symbol).driverIntervals.Ordered) {node target : NodeRef}
    (current : dfa.state.node = some node) {own : List BuilderCall}
    (handled : dfa.read access = some (dfa.appendCalls own)) :
    (∃ builderCall ∈ own,
        builderCall.RecordsRead resolveInterfaceRef builder symbol bit target) ↔
      target = node ∧ access.Records resolveInterfaceRef builder
        (dfa.definitions access.symbol).ends symbol bit := by
  have reads := readFor_of_read ordered current handled
  have met := (DriverMap.met_iff ordered).trans
    (linked_iff_of_driven driven (live_of_read ordered current handled)).symm
  constructor
  · rintro ⟨builderCall, member, records⟩
    rcases reads.shape builderCall member with ⟨added, rfl⟩ | ⟨range, rfl⟩
    · obtain ⟨linked, same⟩ := (reads.read.linked added).mp member
      obtain ⟨atNode, path, inside⟩ := recordsRead_addDependency.mp records
      rw [same] at atNode path inside
      exact ⟨atNode.symm, Or.inl ⟨path, inside, met.mpr ⟨_, linked⟩⟩⟩
    · obtain ⟨atNode, inside, through⟩ := recordsRead_addRvalue.mp records
      exact ⟨atNode, Or.inr ⟨DriverMap.free_iff.mpr ((reads.read.pended bit).mp
        ⟨range, member, inside⟩), through⟩⟩
  · rintro ⟨rfl, ⟨path, inside, meets⟩ | ⟨free, through⟩⟩
    · obtain ⟨source, linked⟩ := met.mp meets
      exact ⟨_, (reads.read.linked
        { source := source, target := target, symbol := access.symbol.hierarchicalPath,
          bounds := access.bounds,
          semantics := { role := access.role, precision := access.precision } }).mpr
        ⟨linked, rfl⟩, recordsRead_addDependency.mpr ⟨rfl, path, inside⟩⟩
    · obtain ⟨range, member, inside⟩ := (reads.read.pended bit).mpr (DriverMap.free_iff.mp free)
      exact ⟨_, member, recordsRead_addRvalue.mpr ⟨rfl, inside, through⟩⟩

/-- A new assignment node, and perhaps its edge from the condition. -/
theorem enter_calls (dfa : DataFlowAnalysis) (saved : Option (Option NodeRef × Option NodeRef))
    (location : SourceLocation) :
    ∃ controls, (dfa.enter saved location).calls =
        dfa.calls ++ .addNode ⟨dfa.task, .assignment, dfa.serial⟩ location none :: controls ∧
      ∀ builderCall ∈ controls, ∃ condition,
        builderCall = .addUnannotated condition ⟨dfa.task, .assignment, dfa.serial⟩ .control
          .signal := by
  have updated (before : DataFlowAnalysis) (node : NodeRef) : ∃ controls,
      (before.updateNode node false).calls = before.calls ++ controls ∧
        ∀ builderCall ∈ controls, ∃ condition,
          builderCall = .addUnannotated condition node .control .signal := by
    unfold updateNode
    cases before.state.condition with
    | none => exact ⟨[], (List.append_nil _).symm, fun _ member => absurd member List.not_mem_nil⟩
    | some condition => exact ⟨_, rfl, fun _ member => ⟨condition, List.mem_singleton.mp member⟩⟩
  cases saved with
  | none =>
      obtain ⟨controls, same, shape⟩ := updated (dfa.createNode .assignment location none).2
        ⟨dfa.task, .assignment, dfa.serial⟩
      exact ⟨controls, same.trans (List.append_assoc _ _ _), shape⟩
  | some state =>
      obtain ⟨controls, same, shape⟩ := updated
        ((dfa.setState { dfa.state with node := state.1, condition := state.2 }).createNode
          .assignment location none).2 ⟨dfa.task, .assignment, dfa.serial⟩
      exact ⟨controls, same.trans (List.append_assoc _ _ _), shape⟩

/-- Nodes and edges without annotations record no read. -/
theorem not_recordsRead {target : NodeRef} {builderCall : BuilderCall}
    (other : (∃ ref location value, builderCall = .addNode ref location value) ∨
      ∃ source ref role precision, builderCall = .addUnannotated source ref role precision) :
    ¬ builderCall.RecordsRead resolveInterfaceRef builder symbol bit target := by
  rcases other with ⟨_, _, _, rfl⟩ | ⟨_, _, _, _, rfl⟩ <;>
    rintro (⟨_, none, _⟩ | ⟨_, none, _⟩) <;> cases none

/-- A step only adds calls, and only reads record reads. -/
theorem step_calls {move : AssignmentStep} (stepped : dfa.step move = some next) :
    ∃ own, next.calls = dfa.calls ++ own ∧
      ((∃ access, (move = .read access ∨ move = .readLeft access) ∧
          dfa.read access = some (dfa.appendCalls own)) ∨
        ((∀ access, move ≠ .read access ∧ move ≠ .readLeft access) ∧
          ∀ symbol bit node, ∀ builderCall ∈ own,
            ¬ builderCall.RecordsRead resolveInterfaceRef builder symbol bit node)) := by
  cases move with
  | enter saved location =>
      cases stepped
      obtain ⟨controls, same, shape⟩ := enter_calls dfa saved location
      refine ⟨_, same, Or.inr ⟨fun _ => ⟨by simp, by simp⟩, ?_⟩⟩
      intro symbol bit node builderCall member
      rcases List.mem_cons.mp member with rfl | control
      · exact not_recordsRead (Or.inl ⟨_, _, _, rfl⟩)
      · obtain ⟨condition, rfl⟩ := shape builderCall control
        exact not_recordsRead (Or.inr ⟨_, _, _, _, rfl⟩)
  | write symbol lsp bounds =>
      refine ⟨[], ?_, Or.inr ⟨fun _ => ⟨by simp, by simp⟩, by simp⟩⟩
      simp only [step, handleLvalue] at stepped
      split at stepped
      · cases stepped
        exact (List.append_nil _).symm
      · simp only [addDrivers, Option.bind_eq_bind, Option.bind_eq_some_iff,
          Option.some.injEq] at stepped
        obtain ⟨_, _, rfl⟩ := stepped
        exact (List.append_nil _).symm
  | read access | readLeft access =>
      obtain ⟨own, rfl⟩ := read_appends stepped
      refine ⟨own, rfl, Or.inl ⟨access, ?_, stepped⟩⟩
      simp
  | constant value srcLo location segment fallbackLoc =>
      simp only [step, driveRhsSource] at stepped
      split at stepped
      · cases stepped
        exact ⟨[], (List.append_nil _).symm, Or.inr ⟨fun _ => ⟨by simp, by simp⟩, by simp⟩⟩
      · cases stepped
        refine ⟨_, List.append_assoc _ _ _, Or.inr ⟨fun _ => ⟨by simp, by simp⟩, ?_⟩⟩
        intro symbol bit node builderCall member
        rcases List.mem_pair.mp member with rfl | rfl
        · exact not_recordsRead (Or.inl ⟨_, _, _, rfl⟩)
        · exact not_recordsRead (Or.inr ⟨_, _, _, _, rfl⟩)
  | stop => cases stepped

/-- The calls of a run that record a read are those of its reads. -/
theorem run_calls {moves : List AssignmentStep} (ran : moves.foldlM step dfa = some next) :
    ∃ calls, next.calls = dfa.calls ++ calls ∧ ∀ symbol bit node,
      (∃ builderCall ∈ calls,
          builderCall.RecordsRead resolveInterfaceRef builder symbol bit node) ↔
        ∃ front move back access middle own, moves = front ++ move :: back ∧
          (move = .read access ∨ move = .readLeft access) ∧
          front.foldlM step dfa = some middle ∧
          middle.read access = some (middle.appendCalls own) ∧
          ∃ builderCall ∈ own,
            builderCall.RecordsRead resolveInterfaceRef builder symbol bit node := by
  induction moves generalizing dfa with
  | nil =>
      cases ran
      exact ⟨[], (List.append_nil _).symm, by simp⟩
  | cons move rest ih =>
      obtain ⟨middle, stepped, ran⟩ := foldlM_cons_eq_some.mp ran
      obtain ⟨own, sameOwn, kind⟩ := @step_calls resolveInterfaceRef builder _ _ _ stepped
      obtain ⟨calls, same, records⟩ := ih ran
      refine ⟨own ++ calls, by rw [same, sameOwn, List.append_assoc], fun symbol bit node => ?_⟩
      constructor
      · rintro ⟨builderCall, member, found⟩
        rcases List.mem_append.mp member with here | later
        · rcases kind with ⟨access, reads, handled⟩ | ⟨_, none⟩
          · exact ⟨[], move, rest, access, dfa, own, rfl, reads, rfl, handled, builderCall, here,
              found⟩
          · exact absurd found (none symbol bit node builderCall here)
        · obtain ⟨front, read, back, access, after, readCalls, rfl, reads, reached, rest⟩ :=
            (records symbol bit node).mp ⟨builderCall, later, found⟩
          exact ⟨move :: front, read, back, access, after, readCalls, rfl, reads, by
            rw [List.foldlM_cons, stepped]
            exact reached, rest⟩
      · rintro ⟨front, read, back, access, after, readCalls, split, reads, reached, handled,
          builderCall, member, found⟩
        cases front with
        | nil =>
            cases split
            cases reached
            rcases kind with ⟨other, otherReads, sameRead⟩ | ⟨noRead, _⟩
            · obtain rfl : access = other := by
                rcases reads with rfl | rfl <;> rcases otherReads with same | same <;>
                  cases same <;> rfl
              obtain rfl := appendCalls_inj (Option.some.inj (handled.symm.trans sameRead))
              exact ⟨builderCall, List.mem_append_left _ member, found⟩
            · exact absurd reads (not_or.mpr (noRead access))
        | cons first others =>
            cases split
            rw [List.foldlM_cons, stepped] at reached
            obtain ⟨later, laterMem, laterFound⟩ := (records symbol bit node).mpr
              ⟨others, read, back, access, after, readCalls, rfl, reads, reached, handled,
                builderCall, member, found⟩
            exact ⟨later, List.mem_append_right _ laterMem, laterFound⟩

/-- The current node is an assignment node that the analysis has created since. -/
def Entered (start dfa : DataFlowAnalysis) : Prop :=
  ∃ node location calls, dfa.state.node = some node ∧ node.kind = .assignment ∧
    dfa.calls = start.calls ++ calls ∧ .addNode node location none ∈ calls

theorem entered_enter (dfa : DataFlowAnalysis)
    (saved : Option (Option NodeRef × Option NodeRef)) (location : SourceLocation)
    {calls : List BuilderCall} (continues : dfa.calls = start.calls ++ calls) :
    Entered start (dfa.enter saved location) := by
  obtain ⟨controls, same, _⟩ := enter_calls dfa saved location
  let added := calls ++ .addNode ⟨dfa.task, .assignment, dfa.serial⟩ location none :: controls
  have all : (dfa.enter saved location).calls = start.calls ++ added := by
    rw [same, continues, List.append_assoc]
  exact ⟨_, location, added, enter_node dfa saved location, rfl, all,
    List.mem_append_right _ List.mem_cons_self⟩

theorem Entered.step {move : AssignmentStep} (entered : Entered start dfa)
    (stepped : dfa.step move = some next) : Entered start next := by
  obtain ⟨node, location, calls, current, kind, continues, created⟩ := entered
  rcases step_node stepped with ⟨saved, other, rfl⟩ | same
  · cases stepped
    exact entered_enter dfa saved other continues
  · obtain ⟨own, sameCalls, _⟩ := @step_calls (fun _ _ => []) {} _ _ _ stepped
    exact ⟨node, location, calls ++ own, same.trans current, kind,
      by rw [sameCalls, continues, List.append_assoc], List.mem_append_left _ created⟩

theorem Entered.run {moves : List AssignmentStep} (entered : Entered start dfa)
    (ran : moves.foldlM DataFlowAnalysis.step dfa = some next) : Entered start next :=
  holds_of_foldlM (Entered start) entered (fun _ _ _ _ here stepped => here.step stepped) ran

/-- A read of an assignment has an assignment node of its own. -/
theorem entered_of_run {expr : AssignmentExpression} {front back : List AssignmentStep}
    {move : AssignmentStep} {access : Access}
    (steps : assignmentSteps resolveAssignBits dfa expr = front ++ move :: back)
    (reads : move = .read access ∨ move = .readLeft access)
    (ran : front.foldlM step (assignmentStart resolveAssignBits dfa expr) = some middle) :
    Entered dfa middle := by
  obtain ⟨saved, location, rest, _, ran⟩ := exists_enter_before steps
    (by rcases reads with rfl | rfl <;> simp) ran
  have started : (assignmentStart resolveAssignBits dfa expr).calls = dfa.calls ++ [] := by
    rw [List.append_nil, assignmentStart]
    split <;> rfl
  exact Entered.run (entered_enter _ saved location started) ran

/-- What an assignment records are the bits that its references read. -/
theorem recorded_iff {expr : AssignmentExpression} (flagged : dfa.isLValue = false)
    (tidy : dfa.tracked.Tidy) (driven : dfa.state.Driven)
    (handled : dfa.handleAssignment resolveAssignBits expr = some next) :
    Recorded resolveInterfaceRef builder dfa next symbol bit ↔
      ReadsBit resolveInterfaceRef builder resolveAssignBits dfa expr symbol bit := by
  rw [handleAssignment_eq resolveAssignBits dfa expr flagged] at handled
  have started := assignmentStart_tracked resolveAssignBits dfa expr
  have startCalls : (assignmentStart resolveAssignBits dfa expr).calls = dfa.calls := by
    unfold assignmentStart
    split <;> rfl
  have records {front back : List AssignmentStep} {move : AssignmentStep} {access : Access}
      {middle : DataFlowAnalysis} {node target : NodeRef} {own : List BuilderCall}
      (steps : assignmentSteps resolveAssignBits dfa expr = front ++ move :: back)
      (reached : front.foldlM step (assignmentStart resolveAssignBits dfa expr) = some middle)
      (current : middle.state.node = some node)
      (read : middle.read access = some (middle.appendCalls own)) :
      (∃ builderCall ∈ own,
          builderCall.RecordsRead resolveInterfaceRef builder symbol bit target) ↔
        target = node ∧ access.Records resolveInterfaceRef builder
          (dfa.endsBefore expr front access.symbol) symbol bit := by
    have ordered := (Continues.run (started ▸ tidy) reached).tidy.ordered access.symbol
    rw [recordsRead_iff (driven_front driven steps reached) ordered current read]
    exact and_congr_right fun _ =>
      Access.records_congr resolveInterfaceRef builder (mem_endsBefore tidy steps reached)
  constructor
  · rintro ⟨calls, same, node, location, _, _, found⟩
    obtain ⟨runCalls, sameRun, record_iff⟩ :=
      @run_calls resolveInterfaceRef builder _ _ _ handled
    obtain rfl : calls = runCalls := by
      rw [startCalls] at sameRun
      exact List.append_cancel_left (same.symm.trans sameRun)
    obtain ⟨front, move, back, access, middle, own, steps, reads, reached, read, found⟩ :=
      (record_iff symbol bit node).mp found
    obtain ⟨_, _, _, current, _⟩ := entered_of_run steps reads reached
    exact ⟨front, move, back, access, steps, reads,
      ((records steps reached current read).mp found).2⟩
  · rintro ⟨front, move, back, access, steps, reads, recorded⟩
    rw [steps, List.foldlM_append, Option.bind_eq_bind, Option.bind_eq_some_iff] at handled
    obtain ⟨middle, reached, handled⟩ := handled
    obtain ⟨node, location, earlier, current, kind, continues, created⟩ :=
      entered_of_run steps reads reached
    obtain ⟨later, sameLater, record_iff⟩ := @run_calls resolveInterfaceRef builder _ _ _ handled
    obtain ⟨after, stepped, _⟩ := foldlM_cons_eq_some.mp handled
    have read : middle.read access = some after := by
      rcases reads with rfl | rfl <;> exact stepped
    obtain ⟨own, rfl⟩ := read_appends read
    obtain ⟨builderCall, member, found⟩ := (record_iff symbol bit node).mpr
      ⟨[], move, back, access, middle, own, rfl, reads, rfl, read,
        (records steps reached current read).mpr ⟨rfl, recorded⟩⟩
    exact ⟨earlier ++ later, by rw [sameLater, continues, List.append_assoc], node, location,
      List.mem_append_left _ created, kind, builderCall, List.mem_append_right _ member, found⟩

end DataFlowAnalysis

/-! ## The selectors that a walk visits -/

open AssignmentStep

namespace AssignmentStep

/-- Some step reads the signal with its bounds. -/
def ReadsSignal (steps : List AssignmentStep) (read : SignalRead) : Prop :=
  ∃ access, (.read access ∈ steps ∨ .readLeft access ∈ steps) ∧ access.symbol = read.1 ∧
    access.bounds = read.2

theorem ReadsSignal.mono {steps more : List AssignmentStep} {read : SignalRead}
    (reads : ReadsSignal steps read) (part : ∀ move ∈ steps, move ∈ more) :
    ReadsSignal more read := by
  obtain ⟨access, member, same⟩ := reads
  exact ⟨access, member.imp (part _) (part _), same⟩

variable {context : WalkContext} {left : Bool} {read : SignalRead}

theorem readsSignal_ofPath (reached : context.reachable = true) {path : ValuePath}
    (member : read ∈ path.signal) : ReadsSignal (ofPath context left false path) read := by
  unfold ValuePath.signal at member
  split at member
  · next lsp symbol nonempty found rooted =>
      split at member
      · cases member
      · next tracked =>
          have kept : ¬ (symbol.kind = .variable ∧ symbol.automatic = true) := tracked
          have visited : ofPath context left false path =
              if left then
                [.readLeft ⟨symbol, lsp, path.lspBounds, context.role, context.precision⟩]
              else [.read ⟨symbol, lsp, path.lspBounds, context.role, context.precision⟩] := by
            simp [ofPath, reached, nonempty, found, rooted, kept]
          cases List.mem_singleton.mp member
          refine ⟨⟨symbol, lsp, path.lspBounds, context.role, context.precision⟩, ?_, rfl, rfl⟩
          rw [visited]
          cases left <;> simp
  · cases member

/-- The visit of an R-value reads its signals. -/
theorem readsSignal_ofExpr (reached : context.reachable = true) {expr : Expr}
    (member : read ∈ expr.signals) : ReadsSignal (ofExpr context left false expr) read := by
  induction expr with
  | literal => cases member
  | value selectors path ih =>
      rw [ofExpr]
      rcases List.mem_append.mp member with selected | noted
      · exact (ih selected).mono fun _ => List.mem_append_left _
      · exact (readsSignal_ofPath reached noted).mono fun _ => List.mem_append_right _
  | operator first second firstIh secondIh =>
      rw [ofExpr]
      exact (List.mem_append.mp member).elim
        (fun inFirst => (firstIh inFirst).mono fun _ => List.mem_append_left _)
        fun inSecond => (secondIh inSecond).mono fun _ => List.mem_append_right _

/-- Every visit reads the signals of the selectors, also that of an L-value. -/
theorem readsSignal_selectors (reached : context.reachable = true) {isLValue : Bool} {expr : Expr}
    (member : read ∈ expr.selectorSignals) :
    ReadsSignal (ofExpr context left isLValue expr) read := by
  induction expr generalizing isLValue with
  | literal => cases member
  | value selectors path ih =>
      rw [ofExpr]
      exact (readsSignal_ofExpr reached member).mono fun _ => List.mem_append_left _
  | operator first second firstIh secondIh =>
      rw [ofExpr]
      exact (List.mem_append.mp member).elim
        (fun inFirst => (firstIh inFirst).mono fun _ => List.mem_append_left _)
        fun inSecond => (secondIh inSecond).mono fun _ => List.mem_append_right _

end AssignmentStep

namespace SliceExpr

theorem mem_visited_selectors {selectors : List Selector} {read : SignalRead}
    (member : read ∈ selectors.flatMap Selector.signals) :
    read ∈ (selectors.foldr (fun selector rest => .operator selector.expr rest)
      Expr.literal).signals := by
  induction selectors with
  | nil => cases member
  | cons selector rest ih =>
      rw [List.flatMap_cons] at member
      rw [List.foldr_cons, Expr.signals]
      rcases List.mem_append.mp member with own | others
      · unfold Selector.signals at own
        split at own
        · cases own
        · exact List.mem_append_left _ own
      · exact List.mem_append_right _ (ih others)

mutual

/-- The visited expression has the selectors of the decomposed one. -/
theorem mem_selectorSignals_visited {read : SignalRead} : ∀ {expr : SliceExpr}, expr.Coherent →
    read ∈ expr.selectorSignals → read ∈ expr.visited.selectorSignals
  | .value _ _ _, _, member => by
      rw [selectorSignals] at member
      rw [visited, Expr.selectorSignals]
      exact mem_visited_selectors member
  | .concatenation operands, coherent, member => by
      rw [Coherent] at coherent
      rw [selectorSignals] at member
      rw [visited]
      exact mem_operandsSelectorSignals_visited coherent member
  | .replication _ _ concat _, coherent, member => by
      rw [Coherent] at coherent
      rw [selectorSignals] at member
      rw [visited, coherent.1]
      exact mem_selectorSignals_visited coherent.2 member
  | .conversion _ _ _ operand _ _, coherent, member => by
      rw [Coherent] at coherent
      rw [selectorSignals] at member
      rw [visited, coherent.1]
      exact mem_selectorSignals_visited coherent.2 member
  | .conditionalOp _ _ condition left right _, coherent, member => by
      rw [Coherent] at coherent
      obtain ⟨same, leftCoherent, rightCoherent⟩ := coherent
      rw [selectorSignals, List.append_assoc] at member
      rw [visited, same, Expr.selectorSignals, Expr.selectorSignals]
      rcases List.mem_append.mp member with inCondition | inArms
      · exact List.mem_append_left _ inCondition
      · refine List.mem_append_right _ (List.mem_append.mpr ?_)
        exact (List.mem_append.mp inArms).imp (mem_selectorSignals_visited leftCoherent)
          (mem_selectorSignals_visited rightCoherent)
  | .other _ _ _ _, _, member => by
      rw [selectorSignals] at member
      exact member

theorem mem_operandsSelectorSignals_visited {read : SignalRead} :
    ∀ {operands : List SliceExpr}, OperandsCoherent operands →
      read ∈ operandsSelectorSignals operands → read ∈ (operandsVisited operands).selectorSignals
  | [], _, member => by
      rw [operandsSelectorSignals] at member
      cases member
  | operand :: rest, coherent, member => by
      rw [OperandsCoherent] at coherent
      rw [operandsSelectorSignals] at member
      rw [operandsVisited, Expr.selectorSignals]
      exact List.mem_append.mpr ((List.mem_append.mp member).imp
        (mem_selectorSignals_visited coherent.1)
        (mem_operandsSelectorSignals_visited coherent.2))

end

end SliceExpr

namespace DataFlowAnalysis

variable {resolveAssignBits : Bool} {dfa : DataFlowAnalysis} {cuts : Option CutRegistry}
  {assignment : SourceAssignment}

/-- The walk of an assignment as one node visits the selectors of both sides. -/
theorem readsSignal_legacy (reached : dfa.state.reachable = true)
    (legacy : ¬ Aligned resolveAssignBits (assignment.expression cuts)) {read : SignalRead}
    (member : read ∈ assignment.left.selectorSignals ∨
      assignment.isLValueArg = false ∧ read ∈ assignment.right.selectorSignals) :
    ReadsSignal (assignmentSteps resolveAssignBits dfa (assignment.expression cuts)) read := by
  rw [assignmentSteps_legacy legacy, ofLegacy]
  rcases member with inLeft | ⟨visits, inRight⟩
  · have visited := SliceExpr.mem_selectorSignals_visited assignment.leftCoherent inLeft
    exact (@readsSignal_selectors dfa.walkContext true read reached _ _ visited).mono
      fun _ inside => List.mem_cons_of_mem _ (List.mem_append_left _ inside)
  · have visited := SliceExpr.mem_selectorSignals_visited assignment.rightCoherent inRight
    refine (@readsSignal_selectors dfa.walkContext false read reached false _ visited).mono
      fun _ inside => List.mem_cons_of_mem _ (List.mem_append_right _ ?_)
    rw [if_neg (by simp [SourceAssignment.expression, visits])]
    exact inside

/--
The segments read what the references of the right side read: no selector of
the left side, and no previous value of the target.
-/
theorem someReads_aligned_iff (aligned : Aligned resolveAssignBits (assignment.expression cuts))
    {symbol : ValueSymbol} {bit : Int} :
    SomeReads (assignmentSteps resolveAssignBits dfa (assignment.expression cuts)) symbol bit ↔
      assignment.isLValueArg = false ∧ ∃ reference ∈ assignment.right.references cuts,
        ∃ source, SliceExpr.Shows cuts source reference ∧
          source.Reads dfa.walkContext symbol bit := by
  have sameWidth : BitSliceList.width (BitSliceList.build assignment.left true cuts) =
      BitSliceList.width (BitSliceList.build assignment.right true cuts) := by
    by_contra differs
    exact aligned (Or.inr (Or.inr differs))
  have written (segment : Segment) (source : BitSliceSource) :
      ¬ SomeReads (ofLhsSource segment source) symbol bit := by
    rintro ⟨access, member, _⟩
    cases source with
    | lsp path selectors srcLo =>
        simp only [ofLhsSource] at member
        split at member
        · split at member <;> cases List.mem_singleton.mp member
        · cases List.mem_singleton.mp member
    | padding | opaqueExpr | portNode | constant => cases member
  rw [← @readBySegments_iff cuts dfa.walkContext assignment.location _ _ symbol bit sameWidth,
    assignmentSteps_aligned aligned, someReads_flatMap]
  simp only [ReadBySegments]
  rw [← exists_and_left]
  refine exists_congr fun segment => ?_
  rw [and_left_comm]
  refine and_congr_right fun _ => ?_
  have entered (steps : List AssignmentStep) (saved : Option NodeRef × Option NodeRef) :
      SomeReads (.enter (some saved) (assignment.expression cuts).location :: steps) symbol bit ↔
        SomeReads steps symbol bit := by
    simp [SomeReads]
  rw [ofSegment, entered, someReads_append, or_iff_right]
  · cases visits : assignment.isLValueArg with
    | true => simp [SourceAssignment.expression, visits, SomeReads]
    | false =>
        simp only [SourceAssignment.expression, visits, Bool.false_eq_true, if_false, true_and]
  · split
    · simp [SomeReads]
    · rw [someReads_flatMap]
      rintro ⟨source, _, reads⟩
      exact written segment source reads

/-- Every assignment of a block starts in a state of the walk. -/
theorem AssignmentAt.walks {task : Nat} {externalNode : Option NodeRef} {body : Stmt}
    {position : Position} {expr : AssignmentExpression}
    (at_ : AssignmentAt resolveAssignBits (initial task externalNode) body position expr dfa) :
    dfa.isLValue = false ∧ dfa.tracked.Tidy ∧ dfa.state.Driven := by
  obtain ⟨before, reached, leaf⟩ := at_
  obtain ⟨continues, same⟩ := @Continues.stateAt resolveAssignBits (initial task externalNode)
    before body position rfl rfl TrackerState.tidy_empty reached
  have driven := @driven_stateAt (initial task externalNode) before resolveAssignBits body
    position (by rintro map ⟨⟩) rfl rfl reached
  rcases leaf with ⟨_, rfl⟩ | ⟨_, rfl⟩ <;> exact ⟨same.isLValue, continues.tidy, driven⟩

section Selectors

variable (resolveInterfaceRef : InterfaceRefs) (builder : NetlistBuilder)

/-- A reachable assignment has recorded all its selectors, and its target's previous value. -/
def SelectorsRecorded (dfa next : DataFlowAnalysis) (assignment : SourceAssignment) : Prop :=
  dfa.state.reachable = true → ∀ read ∈ assignment.selectorReads, ∀ bit ∈ read.2,
    Recorded resolveInterfaceRef builder dfa next read.1 bit

/-- Each of these bits is read by some reference of the assignment. -/
def SelectorsRead (resolveAssignBits : Bool) (cuts : Option CutRegistry) (dfa : DataFlowAnalysis)
    (assignment : SourceAssignment) : Prop :=
  dfa.state.reachable = true → ∀ read ∈ assignment.selectorReads, ∀ bit ∈ read.2,
    ReadsBit resolveInterfaceRef builder resolveAssignBits dfa (assignment.expression cuts)
      read.1 bit

/--
Every assignment of every block records its selectors and its target's previous
value if and only if some reference of it reads each of their bits.  Walked as
one node it has references to all selectors; walked by segments its references
are those of the right side.
-/
theorem selectorsRecorded_iff (task : Nat) (externalNode : Option NodeRef) {body : Stmt}
    {position : Position} {next : DataFlowAnalysis}
    (at_ : AssignmentAt resolveAssignBits (initial task externalNode) body position
      (assignment.expression cuts) dfa)
    (handled : dfa.handleAssignment resolveAssignBits (assignment.expression cuts) = some next) :
    (SelectorsRecorded resolveInterfaceRef builder dfa next assignment ↔
      SelectorsRead resolveInterfaceRef builder resolveAssignBits cuts dfa assignment) ∧
    (¬ Aligned resolveAssignBits (assignment.expression cuts) → dfa.state.reachable = true →
      ∀ read, (read ∈ assignment.left.selectorSignals ∨
          assignment.isLValueArg = false ∧ read ∈ assignment.right.selectorSignals) →
        ReadsSignal (assignmentSteps resolveAssignBits dfa (assignment.expression cuts)) read) ∧
    (Aligned resolveAssignBits (assignment.expression cuts) → ∀ symbol bit,
      SomeReads (assignmentSteps resolveAssignBits dfa (assignment.expression cuts)) symbol bit ↔
        assignment.isLValueArg = false ∧ ∃ reference ∈ assignment.right.references cuts,
          ∃ source, SliceExpr.Shows cuts source reference ∧
            source.Reads dfa.walkContext symbol bit) := by
  obtain ⟨flagged, tidy, driven⟩ := at_.walks
  refine ⟨?_, fun legacy reachable read member => readsSignal_legacy reachable legacy member,
    fun aligned symbol bit => someReads_aligned_iff aligned⟩
  exact forall_congr' fun _ => forall_congr' fun read => forall_congr' fun _ =>
    forall_congr' fun bit => forall_congr' fun _ => recorded_iff flagged tidy driven handled

end Selectors

/-- `mem[i] <= x;` for a memory of eight bytes. -/
def memoryWrite : SourceAssignment where
  isBlocking := false
  left := .value 8
    { rootSymbol := some { id := 3, name := "mem", hierarchicalPath := "m.mem" }
      lsp := some 3
      lspBounds := ⟨0, 63⟩ }
    [{ byteSelector with role := .address }]
  right := .value 8 bytePath []
  leftCoherent := by simp [SliceExpr.Coherent]
  rightCoherent := by simp [SliceExpr.Coherent]

/-- The analysis after the memory write. -/
def afterMemoryWrite : DataFlowAnalysis :=
  ((initial 0 none).handleAssignment true (memoryWrite.expression none)).getD {}

theorem selectorsRecorded_iff_memoryWrite :
    (SelectorsRecorded (fun _ _ => []) {} (initial 0 none) afterMemoryWrite memoryWrite ↔
      SelectorsRead (fun _ _ => []) {} true none (initial 0 none) memoryWrite) ∧
    ∀ symbol bit,
      SomeReads (assignmentSteps true (initial 0 none) (memoryWrite.expression none)) symbol bit ↔
        ∃ reference ∈ memoryWrite.right.references none, ∃ source,
          SliceExpr.Shows none source reference ∧
            source.Reads (initial 0 none).walkContext symbol bit := by
  have spec := @selectorsRecorded_iff true (initial 0 none) none memoryWrite (fun _ _ => []) {} 0
    none (.assign (memoryWrite.expression none)) [] afterMemoryWrite
    ⟨initial 0 none, rfl, Or.inl ⟨rfl, rfl⟩⟩ (by decide +kernel)
  have aligned : Aligned true (memoryWrite.expression none) := by
    unfold Aligned
    decide +kernel
  exact ⟨spec.1, fun symbol bit => (spec.2.2 aligned symbol bit).trans (and_iff_right rfl)⟩

/-- The address of the write is not recorded. -/
theorem memoryWrite_misses_address :
    (initial 0 none).handleAssignment true (memoryWrite.expression none) =
        some afterMemoryWrite ∧
      ∀ resolveInterfaceRef builder, ¬ SelectorsRecorded resolveInterfaceRef builder
        (initial 0 none) afterMemoryWrite memoryWrite := by
  have handled : (initial 0 none).handleAssignment true (memoryWrite.expression none) =
      some afterMemoryWrite := by decide +kernel
  refine ⟨handled, fun resolveInterfaceRef builder recorded => ?_⟩
  have address := recorded rfl
    ({ id := 2, name := "i", hierarchicalPath := "m.i" }, ⟨0, 2⟩) (by decide +kernel) 0 (by decide)
  have tidy : (initial 0 none).tracked.Tidy := TrackerState.tidy_empty
  have driven : (initial 0 none).state.Driven := by rintro map ⟨⟩
  obtain ⟨front, move, back, access, steps, reads, found⟩ :=
    (recorded_iff rfl tidy driven handled).mp address
  let other : Access :=
    ⟨{ id := 1, name := "x", hierarchicalPath := "m.x" }, 1, ⟨0, 7⟩, .data, .range⟩
  have whole : assignmentSteps true (initial 0 none) (memoryWrite.expression none) =
      [.enter (some (none, none)) none,
        .write { id := 3, name := "mem", hierarchicalPath := "m.mem" } 3 ⟨0, 7⟩,
        .read other] := by decide +kernel
  have member : move ∈ front ++ move :: back := List.mem_append_right _ List.mem_cons_self
  rw [← steps, whole] at member
  obtain rfl : access = other := by
    rcases reads with rfl | rfl
    · simpa using member
    · simp at member
  rcases found with ⟨path, _⟩ | ⟨_, same⟩
  · exact absurd path (by decide)
  · rw [if_neg (by decide)] at same
    exact absurd same (by decide)

end DataFlowAnalysis

end SlangNetlist
