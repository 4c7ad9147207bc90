import SlangNetlist.Analysis.BitSlice
import SlangNetlist.Analysis.IntervalMapUtils
import SlangNetlist.Graph.NetlistGraph
import SlangNetlist.Tracking.ValueTracker

/-!
# The data flow analysis of one block

The analysis reads nothing back from the builder, so its calls to the builder
are recorded in a list, in order.  New nodes are named by the task of the block
and a serial number.  A failed assertion is `none`.
-/

namespace SlangNetlist

open Library

/-- The calls that the analysis makes to the builder. -/
inductive BuilderCall where
  /-- A node of the node factory; a constant has a value and a width. -/
  | addNode (ref : NodeRef) (location : SourceLocation) (value : Option (ConstantValue × Nat))
  /-- `addDependency` without a symbol. -/
  | addUnannotated (source target : NodeRef) (role : DependencyRole)
      (precision : DependencyPrecision)
  /-- `addDependency` with a symbol. -/
  | addDependency (dependency : Dependency)
  | addRvalue (symbol : ValueSymbol) (lsp : Nat) (bounds : DriverBitRange)
      (node : Option NodeRef) (role : DependencyRole) (precision : DependencyPrecision)
  deriving DecidableEq, Repr

/-- The flow state. -/
structure AnalysisState where
  valueDrivers : ValueDrivers := []
  /-- The current control flow node. -/
  node : Option NodeRef := none
  /-- The previous branching condition node. -/
  condition : Option NodeRef := none
  reachable : Bool := true
  deriving DecidableEq, Repr

/-- An L-value of a non-blocking assignment. -/
structure PendingLvalue where
  symbol : ValueSymbol
  lsp : Nat
  bounds : DriverBitRange
  node : Option NodeRef
  deriving DecidableEq, Repr

/-- An assignment as its handler sees it. -/
structure AssignmentExpression where
  location : SourceLocation := none
  isBlocking : Bool := true
  isLValueArg : Bool := false
  left : Expr
  right : Expr
  /-- Whether the types of both sides are integral. -/
  integral : Bool := true
  /-- The slices of the two sides, as `BitSliceList::build` returns them. -/
  lhsList : BitSliceList := []
  rhsList : BitSliceList := []
  deriving DecidableEq, Repr

structure DataFlowAnalysis where
  /-- The task that names the nodes, and the number of nodes created. -/
  task : Nat := 0
  serial : Nat := 0
  valueTracker : ValueTracker := {}
  state : AnalysisState := {}
  isLValue : Bool := false
  isBlocking : Bool := false
  prohibitLValue : Bool := false
  dependencyRole : DependencyRole := .data
  dependencyPrecision : DependencyPrecision := .range
  externalNode : Option NodeRef := none
  pendingLValues : List PendingLvalue := []
  calls : List BuilderCall := []
  deriving DecidableEq, Repr

namespace DataFlowAnalysis

/-- Record a call to the builder. -/
def call (dfa : DataFlowAnalysis) (builderCall : BuilderCall) : DataFlowAnalysis :=
  { dfa with calls := dfa.calls ++ [builderCall] }

/-- Create a node. -/
def createNode (dfa : DataFlowAnalysis) (kind : NodeKind) (location : SourceLocation)
    (value : Option (ConstantValue × Nat)) : NodeRef × DataFlowAnalysis :=
  let ref : NodeRef := ⟨dfa.task, kind, dfa.serial⟩
  (ref, { dfa with serial := dfa.serial + 1 }.call (.addNode ref location value))

/-- Set the flow state. -/
def setState (dfa : DataFlowAnalysis) (state : AnalysisState) : DataFlowAnalysis :=
  { dfa with state := state }

/-! ## L-values and R-values -/

/-- `NetlistBuilder::addDriversToNode`. -/
def addDriversToNode (dfa : DataFlowAnalysis) (drivers : DriverList) (node : NodeRef)
    (symbol : String) (bounds : DriverBitRange) : DataFlowAnalysis :=
  drivers.foldl (fun dfa driver =>
    match driver.node with
    | some source => dfa.call (.addDependency
        { source := source, target := node, symbol := symbol, bounds := bounds,
          semantics := { role := dfa.dependencyRole, precision := dfa.dependencyPrecision } })
    | none => dfa) dfa

/-- `NetlistBuilder::addRvalue` with the current role and precision. -/
def addRvalue (dfa : DataFlowAnalysis) (symbol : ValueSymbol) (lsp : Nat)
    (bounds : DriverBitRange) (node : Option NodeRef) : DataFlowAnalysis :=
  dfa.call (.addRvalue symbol lsp bounds node dfa.dependencyRole dfa.dependencyPrecision)

/--
The loop of `handleRvalue` over the definitions that overlap the bounds; the
flag is the early return after a definition that covers the R-value.
-/
def linkDefinitions (definitions : DriverMap) (symbol : String) (bounds : DriverBitRange)
    (node : NodeRef) (dfa : DataFlowAnalysis) :
    List (Interval Nat) → Option (DataFlowAnalysis × Bool)
  | [] => some (dfa, false)
  | entry :: rest => do
      let driverList ← definitions.getDriverList entry.value
      if entry.first ≤ bounds.lower ∧ bounds.upper ≤ entry.second then
        some (dfa.addDriversToNode driverList node symbol bounds, true)
      else if entry.Inside bounds.lower bounds.upper then
        linkDefinitions definitions symbol bounds node
          (dfa.addDriversToNode driverList node symbol bounds) rest
      else
        -- A definition over one end of the R-value is passed over.
        linkDefinitions definitions symbol bounds node dfa rest

/-- The parts of an R-value that no definition covers. -/
def undefinedParts (definitions : DriverMap) (bounds : DriverBitRange) :
    List (Interval Nat) :=
  let (newHandle, rvalueMap) := ({} : DriverMap).newDriverList
  let rvalueMap := rvalueMap.setDriverList newHandle [{ node := none }]
  let rvalueMap := rvalueMap.insert bounds newHandle
  (IntervalMapUtils.difference rvalueMap.driverIntervals definitions.driverIntervals).entries

/-- Note a read of a range of a symbol. -/
def handleRvalue (dfa : DataFlowAnalysis) (symbol : ValueSymbol) (lsp : Nat)
    (bounds : DriverBitRange) : Option DataFlowAnalysis :=
  match (dfa.valueTracker.getSlot symbol).bind fun slot => dfa.state.valueDrivers[slot]? with
  | none =>
      -- No definitions for the symbol yet.
      some (dfa.addRvalue symbol lsp bounds (dfa.state.node.or dfa.externalNode))
  | some definitions =>
      match dfa.state.node with
      | none => some (dfa.addRvalue symbol lsp bounds dfa.externalNode)
      | some node => do
          let (dfa, covered) ← linkDefinitions definitions symbol.hierarchicalPath bounds node
            dfa (definitions.find bounds)
          if covered then some dfa
          else
            some ((undefinedParts definitions bounds).foldl
              (fun dfa part => dfa.addRvalue symbol lsp ⟨part.first, part.second⟩ (some node))
              dfa)

/-- Queue the L-value of a non-blocking assignment. -/
def addNonBlockingLvalue (dfa : DataFlowAnalysis) (symbol : ValueSymbol) (lsp : Nat)
    (bounds : DriverBitRange) (node : Option NodeRef) : DataFlowAnalysis :=
  { dfa with
    pendingLValues := dfa.pendingLValues ++
      [{ symbol := symbol, lsp := lsp, bounds := bounds, node := node }] }

/-- `ValueTracker::addDrivers` on the current state. -/
def addDrivers (dfa : DataFlowAnalysis) (symbol : ValueSymbol) (bounds : DriverBitRange)
    (driverList : DriverList) : Option DataFlowAnalysis := do
  let (tracker, drivers) ← dfa.valueTracker.addDrivers dfa.state.valueDrivers symbol bounds
    driverList false
  some { dfa with
    valueTracker := tracker
    state := { dfa.state with valueDrivers := drivers } }

/-- Note a write of a range of a symbol by the current node. -/
def handleLvalue (dfa : DataFlowAnalysis) (symbol : ValueSymbol) (lsp : Nat)
    (bounds : DriverBitRange) : Option DataFlowAnalysis :=
  if ¬ dfa.isBlocking then
    some (dfa.addNonBlockingLvalue symbol lsp bounds dfa.state.node)
  else dfa.addDrivers symbol bounds [{ node := dfa.state.node, lsp := some lsp }]

/-- Add the queued L-values to the current state, in the order of the queue. -/
def processNonBlockingLvalues (dfa : DataFlowAnalysis) : Option DataFlowAnalysis := do
  let dfa ← dfa.pendingLValues.foldlM (fun dfa pending =>
    dfa.addDrivers pending.symbol pending.bounds
      [{ node := pending.node, lsp := some pending.lsp }]) dfa
  some { dfa with pendingLValues := [] }

def finalize (dfa : DataFlowAnalysis) : Option DataFlowAnalysis :=
  dfa.processNonBlockingLvalues

/-- Note a reference, unless the analysis does not track it. -/
def noteReference (dfa : DataFlowAnalysis) (path : ValuePath) : Option DataFlowAnalysis :=
  if ¬ dfa.state.reachable then some dfa
  else
    match path.empty, path.lsp, path.rootSymbol with
    | false, some lsp, some symbol =>
        if symbol.kind = .variable ∧ symbol.automatic then some dfa
        else if dfa.isLValue then dfa.handleLvalue symbol lsp path.lspBounds
        else dfa.handleRvalue symbol lsp path.lspBounds
    | _, _, _ => some dfa

/-- Visit an expression; selectors are visited as R-values. -/
def visit (dfa : DataFlowAnalysis) : Expr → Option DataFlowAnalysis
  | .literal => some dfa
  | .value selectors path => do
      let dfa' ← visit { dfa with isLValue := false } selectors
      noteReference { dfa' with isLValue := dfa.isLValue } path
  | .operator left right => do
      let dfa ← visit dfa left
      visit dfa right

/-- Make a node current, below the previous condition if there is one. -/
def updateNode (dfa : DataFlowAnalysis) (node : NodeRef) (conditional : Bool) :
    DataFlowAnalysis :=
  let dfa :=
    match dfa.state.condition with
    | some condition => dfa.call (.addUnannotated condition node .control .signal)
    | none => dfa
  dfa.setState { dfa.state with
    condition := if conditional then some node else none
    node := some node }

/-! ## Assignments -/

/-- The assignment as one node: the left side is visited before the right side. -/
def handleAssignmentLegacy (dfa : DataFlowAnalysis) (expr : AssignmentExpression) :
    Option DataFlowAnalysis := do
  let (node, dfa) := dfa.createNode .assignment expr.location none
  let dfa := dfa.updateNode node false
  let dfa ←
    if ¬ dfa.prohibitLValue then do
      guard (¬ dfa.isLValue)
      let dfa ← visit { dfa with isLValue := true, isBlocking := expr.isBlocking } expr.left
      some { dfa with isLValue := false }
    else visit dfa expr.left
  if ¬ expr.isLValueArg then visit dfa expr.right else some dfa

/-- The bits of the root symbol that a segment takes of a source. -/
def segmentBounds (path : ValuePath) (srcLo : Nat) (segment : Segment) : DriverBitRange :=
  let offset : Int := segment.concatLo - srcLo
  ⟨path.lspBounds.lower + offset, path.lspBounds.lower + offset + segment.width - 1⟩

def driveLhsLspSegment (dfa : DataFlowAnalysis) (path : ValuePath) (srcLo : Nat)
    (segment : Segment) : Option DataFlowAnalysis := do
  guard (segment.concatLo ≥ srcLo)
  let symbol ← path.rootSymbol
  let lsp ← path.lsp
  dfa.handleLvalue symbol lsp (segmentBounds path srcLo segment)

/-- Visit a selector that is not constant, with its role and exact precision. -/
def visitSelector (dfa : DataFlowAnalysis) (selector : Selector) : Option DataFlowAnalysis :=
  if selector.constant then some dfa
  else do
    let dfa' ← visit { dfa with dependencyRole := selector.role, dependencyPrecision := .exact }
      selector.expr
    some { dfa' with
      dependencyRole := dfa.dependencyRole
      dependencyPrecision := dfa.dependencyPrecision }

def driveRhsLspSegment (dfa : DataFlowAnalysis) (path : ValuePath) (selectors : List Selector)
    (srcLo : Nat) (segment : Segment) : Option DataFlowAnalysis := do
  guard (segment.concatLo ≥ srcLo)
  let symbol ← path.rootSymbol
  let lsp ← path.lsp
  let dfa ← selectors.foldlM visitSelector dfa
  let savedPrecision := dfa.dependencyPrecision
  let dynamicSelection := selectors.any fun selector => ¬ selector.constant
  let dfa := if dynamicSelection then { dfa with dependencyPrecision := .signal } else dfa
  let dfa ← dfa.handleRvalue symbol lsp (segmentBounds path srcLo segment)
  some { dfa with dependencyPrecision := savedPrecision }

/-- A constant node for the bits of a constant that a segment takes. -/
def createConstantForSegment (dfa : DataFlowAnalysis) (value : ConstantValue) (srcLo : Nat)
    (location : Option SourceLocation) (segment : Segment) (fallbackLoc : SourceLocation) :
    NodeRef × DataFlowAnalysis :=
  let offset := segment.concatLo - srcLo
  let sliced :=
    match value with
    | .integer svInt =>
        if svInt.bits.length ≠ segment.width then
          .integer (svInt.slice (offset + segment.width - 1) offset)
        else value
    | _ => value
  dfa.createNode .constant (location.getD fallbackLoc) (some (sliced, segment.width))

/-- One source of the left side. -/
def driveLhsSource (segment : Segment) (dfa : DataFlowAnalysis) :
    BitSliceSource → Option DataFlowAnalysis
  | .lsp path _ srcLo => dfa.driveLhsLspSegment path srcLo segment
  | _ => some dfa

/-- One source of the right side. -/
def driveRhsSource (fallbackLoc : SourceLocation) (segment : Segment) (dfa : DataFlowAnalysis) :
    BitSliceSource → Option DataFlowAnalysis
  | .lsp path selectors srcLo => dfa.driveRhsLspSegment path selectors srcLo segment
  | .opaqueExpr expr => do
      let dfa' ← visit { dfa with isLValue := false } expr
      some { dfa' with isLValue := dfa.isLValue }
  | .padding => some dfa
  | .constant value srcLo location =>
      match dfa.state.node with
      | none => some dfa
      | some node =>
          let (constNode, dfa) :=
            dfa.createConstantForSegment value srcLo location segment fallbackLoc
          some (dfa.call (.addUnannotated constNode node .data .exact))
  | .portNode _ => none

/-- One aligned segment: its own node, the left side and then the right side. -/
def handleSegment (expr : AssignmentExpression) (savedNode savedCondition : Option NodeRef)
    (dfa : DataFlowAnalysis) (segment : Segment) : Option DataFlowAnalysis := do
  let dfa := dfa.setState { dfa.state with node := savedNode, condition := savedCondition }
  let (segNode, dfa) := dfa.createNode .assignment expr.location none
  let dfa := dfa.updateNode segNode false
  let dfa ←
    if ¬ dfa.prohibitLValue then do
      guard (¬ dfa.isLValue)
      let dfa ← segment.lhsSources.foldlM (driveLhsSource segment) { dfa with isLValue := true }
      some { dfa with isLValue := false }
    else some dfa
  if ¬ expr.isLValueArg then
    segment.rhsSources.foldlM (driveRhsSource expr.location segment) dfa
  else some dfa

/-- `handle(AssignmentExpression)`, with the option `resolveAssignBits`. -/
def handleAssignment (resolveAssignBits : Bool) (dfa : DataFlowAnalysis)
    (expr : AssignmentExpression) : Option DataFlowAnalysis :=
  if ¬ resolveAssignBits ∨ ¬ expr.integral ∨
      BitSliceList.width expr.lhsList ≠ BitSliceList.width expr.rhsList then
    dfa.handleAssignmentLegacy expr
  else
    (BitSliceList.alignSegments expr.lhsList expr.rhsList).foldlM
      (handleSegment expr dfa.state.node dfa.state.condition)
      { dfa with isBlocking := expr.isBlocking }

end DataFlowAnalysis

end SlangNetlist
