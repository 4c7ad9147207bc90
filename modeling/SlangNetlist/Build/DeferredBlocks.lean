import SlangNetlist.Analysis.OwnNodes
import SlangNetlist.Build.ModportAccess
import SlangNetlist.Library.PartialMap
import SlangNetlist.Tracking.DriverRuns

/-!
# Deferred blocks

Phase 2 of a build.  Each procedural block and each continuous assignment is
analysed by a task of its own, and the calls of the analysis and the merging of
its drivers act on the shared builder.
-/

namespace SlangNetlist

open Library

/-- A procedural block or a continuous assignment with the result of its analysis. -/
structure DeferredBlock where
  /-- The task that names the nodes; zero is the collecting phase. -/
  task : Nat
  deferred : 0 < task
  /-- The events of the block: none if it is combinational. -/
  sensitivity : List SensitivityEntry := []
  analysis : DataFlowAnalysis
  own : analysis.OwnNodes task
  /-- The driver maps in the order in which `visitAll` visits their symbols. -/
  slots : List (ValueSymbol × DriverMap)
  visited : ∀ slot ∈ slots, slot.2 ∈ analysis.state.valueDrivers

namespace DeferredBlock

/-- `handleProceduralBlock`: the block after its analysis. -/
def ofProcedural {resolveAssignBits : Bool} {body : Stmt} {analysis : DataFlowAnalysis}
    (task : Nat) (deferred : 0 < task) (sensitivity : List SensitivityEntry)
    (ran : DataFlowAnalysis.runBody resolveAssignBits (.initial task none) body = some analysis)
    (slots : List (ValueSymbol × DriverMap))
    (visited : ∀ slot ∈ slots, slot.2 ∈ analysis.state.valueDrivers) : DeferredBlock :=
  ⟨task, deferred, sensitivity, analysis, DataFlowAnalysis.ownNodes_runBody ran, slots, visited⟩

/-- `handleContinuousAssign`: the assignment after its analysis. -/
def ofContinuousAssign {resolveAssignBits : Bool} {assignment : AssignmentExpression}
    {analysis : DataFlowAnalysis} (task : Nat) (deferred : 0 < task)
    (ran : DataFlowAnalysis.handleAssignment resolveAssignBits (.initial task none) assignment =
      some analysis)
    (slots : List (ValueSymbol × DriverMap))
    (visited : ∀ slot ∈ slots, slot.2 ∈ analysis.state.valueDrivers) : DeferredBlock :=
  ⟨task, deferred, [], analysis, (DataFlowAnalysis.ownNodes_initial task).handleAssignment rfl ran,
    slots, visited⟩

/-- The driven intervals; none if the analysis left an interval without its list. -/
def writes (block : DeferredBlock) : List BlockWrite :=
  (blockWrites block.slots).getD []

/-- The drivers of the intervals are nodes of the task. -/
theorem all_drivers (block : DeferredBlock) :
    ∀ write ∈ block.writes, write.drivers.All (OwnNode block.task) := by
  intro write member
  unfold writes at member
  cases driven : blockWrites block.slots with
  | none => simp [driven] at member
  | some writes =>
      rw [driven, Option.getD_some] at member
      unfold blockWrites at driven
      obtain ⟨⟨symbol, map, entry⟩, listed, made⟩ := (mem_of_mapM driven).mp member
      obtain ⟨slot, inSlots, inMap⟩ := List.mem_flatMap.mp listed
      obtain ⟨_, _, same⟩ := List.mem_map.mp inMap
      cases same
      simp only [Option.bind_eq_bind, Option.bind_eq_some_iff, Option.some.injEq] at made
      obtain ⟨drivers, found, rfl⟩ := made
      exact (block.own.state.drivers slot.2 (block.visited slot inSlots)).getDriverList found

/-- The variable nodes that a call looks up, by their symbols and bounds. -/
def callLookups (resolveInterfaceRef : InterfaceRefs) : BuilderCall → List (Nat × DriverBitRange)
  | .addRvalue symbol lsp _ _ _ _ =>
      if symbol.kind = .modportPort then
        (resolveInterfaceRef symbol lsp).map fun (var, varBounds) => (var.id, varBounds)
      else []
  | _ => []

/-- The variable nodes that the merging of an interval looks up. -/
def writeLookups (resolveInterfaceRef : InterfaceRefs) (write : BlockWrite) :
    List (Nat × DriverBitRange) :=
  match write.symbol.kind with
  | .modportPort => write.drivers.flatMap fun driver =>
      (driver.lsp.toList.flatMap (resolveInterfaceRef write.symbol)).map
        fun (var, varBounds) => (var.id, varBounds)
  | .variable => [(write.symbol.id, write.bounds)]
  | _ => []

/-- All lookups of the block in the variable table, the output ports apart. -/
def lookups (resolveInterfaceRef : InterfaceRefs) (block : DeferredBlock) :
    List (Nat × DriverBitRange) :=
  block.analysis.calls.flatMap (callLookups resolveInterfaceRef) ++
    block.writes.flatMap (writeLookups resolveInterfaceRef)

/-- The ports of the driven symbols. -/
def ports (block : DeferredBlock) : List Nat :=
  block.writes.flatMap fun write => write.symbol.portBackrefs

/-- The calls of `addDrivers` on the central driver map: a sequential block makes none. -/
def centralCalls (block : DeferredBlock) : List DriverCall :=
  if block.sensitivity = [] then
    block.writes.map fun write => ⟨write.symbol, write.bounds, write.drivers, true⟩
  else []

end DeferredBlock

namespace NetlistBuilder

/-- The fields of a node that an analysis makes. -/
def madeData (kind : NodeKind) (location : TextLocation) (value : Option (ConstantValue × Nat)) :
    NodeData :=
  match kind, value with
  | .assignment, _ => .assignment location
  | .conditional, _ => .conditional location
  | .case, _ => .case location
  | .merge, _ => .merge
  | .constant, some (value, width) => .constant value width location
  | _, _ => .none

/-- Carry out a call of an analysis. -/
def applyCall (resolveInterfaceRef : InterfaceRefs) (builder : NetlistBuilder) :
    BuilderCall → NetlistBuilder
  | .addNode ref location value =>
      let (textLocation, graph) := builder.graph.toTextLocation location
      { builder with
        graph := graph.addNode
          { ref := ref, ID := builder.nextID, data := madeData ref.kind textLocation value }
        nextID := builder.nextID + 1 }
  | .addUnannotated source target role precision =>
      { builder with graph := builder.graph.addUnannotated source target role precision }
  | .addDependency dependency => builder.addDependency dependency
  | .addRvalue symbol lsp bounds node role precision =>
      builder.addRvalue resolveInterfaceRef symbol lsp bounds node role precision

/-- One deferred block: the calls of its analysis, and then `mergeDrivers`. -/
def runBlock (resolveInterfaceRef : InterfaceRefs) (builder : NetlistBuilder)
    (block : DeferredBlock) : Option NetlistBuilder :=
  (block.analysis.calls.foldl (applyCall resolveInterfaceRef) builder).mergeDrivers block.task
    resolveInterfaceRef block.sensitivity block.slots

/-- `runPhase2Sequential`. -/
def runPhase2 (resolveInterfaceRef : InterfaceRefs) (builder : NetlistBuilder)
    (blocks : List DeferredBlock) : Option NetlistBuilder :=
  blocks.foldlM (runBlock resolveInterfaceRef) builder

/-- The central driver map. -/
def central (builder : NetlistBuilder) : TrackerState := ⟨builder.driverMap, builder.drivers⟩

/-! ## What does not enter the central driver map -/

/-- `mergeWrite` without the central driver map. -/
def connectWrite (task : Nat) (resolveInterfaceRef : InterfaceRefs)
    (sensitivity : List SensitivityEntry) (builder : NetlistBuilder) (write : BlockWrite) :
    Option NetlistBuilder :=
  write.drivers.foldlM (hookupVariables resolveInterfaceRef write.symbol write.bounds)
    (if sensitivity = [] then
      (builder.internSymbol write.symbol).hookupOutputPort write.symbol write.bounds write.drivers
    else builder.mergeState task sensitivity write)

/-- The block without the central driver map. -/
def connectBlock (resolveInterfaceRef : InterfaceRefs) (builder : NetlistBuilder)
    (block : DeferredBlock) : Option NetlistBuilder :=
  block.writes.foldlM (connectWrite block.task resolveInterfaceRef block.sensitivity)
    (block.analysis.calls.foldl (applyCall resolveInterfaceRef) builder)

end NetlistBuilder

end SlangNetlist
