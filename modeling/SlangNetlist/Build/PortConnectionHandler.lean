import SlangNetlist.Analysis.BitSliceList
import SlangNetlist.Build.ModportAccess
import SlangNetlist.Library.Tiles

/-!
# Port connections

`PortConnectionHandler`: the cuts that an actual puts on the inner symbol of a
port, the nodes of a port, and the connection of these nodes to the actual, one
aligned segment at a time.
-/

namespace SlangNetlist

open Library

/-- A driver of a symbol, as the analysis of the design reports it. -/
structure ValueDriver where
  first : Nat
  second : Nat
  ascending : first ≤ second
  isInputPort : Bool := false

namespace ValueDriver

def bounds (driver : ValueDriver) : DriverBitRange := ⟨driver.first, driver.second⟩

end ValueDriver

/-- A port with the value symbol that it names inside of the instance. -/
structure PortSymbol where
  id : Nat
  direction : ArgumentDirection := .inDir
  /-- `getType().isIntegral()`. -/
  integral : Bool := true
  selectableWidth : Nat
  /-- `none` also when the symbol is not a value. -/
  internalSymbol : Option ValueSymbol

/-- The expression of a connection, without the assignment that an output port has. -/
structure ConnectionExpr where
  expr : SliceExpr
  integral : Bool := true
  /-- The expression was the left side of an assignment. -/
  isAssignment : Bool := false

structure PortConnection where
  port : PortSymbol
  /-- Whether `port.kind` is `Port`; else it is an interface port. -/
  isPort : Bool := true
  /-- `none` when there is no expression or it is bad. -/
  expression : Option ConnectionExpr

/-! ## Cuts -/

mutual

/-- The cuts that the structure of an actual implies, with those of its values. -/
def collectActualCuts (registry : CutRegistry) (baseOffset : Nat) : SliceExpr → List Nat
  | .concatenation operands =>
      collectOperandCuts registry baseOffset
        (baseOffset + SliceExpr.operandsWidth operands) operands
  | .replication width count concat _ =>
      match count with
      | none => []
      | some count =>
          (List.range count.toNat).flatMap fun i =>
            let boundary := baseOffset + (i + 1) * concat.width
            collectActualCuts registry (baseOffset + i * concat.width) concat ++
              if boundary ≠ baseOffset + width then [boundary] else []
  | .conversion width _ _ operand _ _ =>
      if width = operand.width then collectActualCuts registry baseOffset operand
      else if width > operand.width then
        collectActualCuts registry baseOffset operand ++ [baseOffset + operand.width]
      else []
  | .value _ path _ =>
      (BitSliceList.innerCuts (some registry) path).map fun cut =>
        baseOffset + (cut - path.lspBounds.lower.toNat)
  | .conditionalOp .. => []
  | .other .. => []

/-- The operands of a concatenation, the last one first; `finish` is where the concatenation ends. -/
def collectOperandCuts (registry : CutRegistry) (baseOffset finish : Nat) :
    List SliceExpr → List Nat
  | [] => []
  | operand :: rest =>
      let offset := baseOffset + SliceExpr.operandsWidth rest
      collectOperandCuts registry baseOffset finish rest ++
        collectActualCuts registry offset operand ++
        if offset + operand.width ≠ finish then [offset + operand.width] else []

end

/-- One connection of `recordCutsFromPortConnections`. -/
def recordCuts (registry : CutRegistry) (connection : PortConnection) : CutRegistry :=
  match connection.expression, connection.port.internalSymbol with
  | some actual, some symbol =>
      if ¬ connection.isPort ∨ ¬ connection.port.integral ∨ ¬ actual.integral ∨
          connection.port.selectableWidth ≠ actual.expr.width then registry
      else registry.addCuts symbol symbol.selectableWidth
        (collectActualCuts registry 0 actual.expr)
  | _, _ => registry

/-- Record the cuts of the actuals of an instance on the inner symbols of its ports. -/
def recordCutsFromPortConnections (registry : CutRegistry) (connections : List PortConnection) :
    CutRegistry :=
  connections.foldl recordCuts registry

/-- Split the range of a driver at every cut strictly inside it. -/
def driverSegments (hints : Option (List Nat)) (driver : ValueDriver) : List DriverBitRange :=
  match hints with
  | none => [driver.bounds]
  | some cuts =>
      let hi := driver.second + 1
      (neighbours (driver.first :: cutsBetween driver.first hi cuts ++ [hi])).map
        fun (prev, next) => ⟨prev, (next : Int) - 1⟩

namespace NetlistBuilder

/-! ## Port nodes -/

/-- `NodeFactory::createPort`. -/
def createPort (builder : NetlistBuilder) (task : Nat) (port : PortSymbol)
    (internalSymbol : ValueSymbol) (bounds : DriverBitRange) : NodeRef × NetlistBuilder :=
  let (symRef, graph) := builder.graph.toSymbolRef internalSymbol
  let ref := builder.freshRef task .port
  (ref, { builder with
    graph := graph.addNode
      { ref := ref
        ID := builder.nextID
        data := .port symRef.name symRef.hierarchicalPath symRef.location port.direction bounds }
    nextID := builder.nextID + 1
    variableTracker := builder.variableTracker.insert port.id bounds ref })

/-- `addDriver`: overwrite the drivers of a range in the central map. -/
def addDriver (builder : NetlistBuilder) (symbol : ValueSymbol) (lsp : Option Nat)
    (bounds : DriverBitRange) (node : NodeRef) : Option NetlistBuilder := do
  let (driverMap, drivers) ← builder.driverMap.addDrivers builder.drivers symbol bounds
    [{ node := some node, lsp := lsp }] false
  some { builder with driverMap := driverMap, drivers := drivers }

/-- The node of one segment of a driver; an input port drives its inner symbol. -/
def materializeSegment (task : Nat) (port : PortSymbol) (valueSymbol : ValueSymbol)
    (isInputPort : Bool) (builder : NetlistBuilder) (segment : DriverBitRange) :
    Option NetlistBuilder :=
  let (node, builder) := builder.createPort task port valueSymbol segment
  if isInputPort then builder.addDriver valueSymbol none segment node else some builder

/--
`materializePortNodes`; `getDrivers` are the drivers of the canonical symbol of
a value.
-/
def materializePortNodes (task : Nat) (propCutsAcrossPorts : Bool) (cutRegistry : CutRegistry)
    (getDrivers : ValueSymbol → List ValueDriver) (builder : NetlistBuilder)
    (port : PortSymbol) : Option NetlistBuilder :=
  match port.internalSymbol with
  | none => some builder
  | some valueSymbol =>
      let hints := if propCutsAcrossPorts then cutRegistry.cutsFor valueSymbol else none
      (getDrivers valueSymbol).foldlM (fun builder driver =>
        (driverSegments hints driver).foldlM
          (materializeSegment task port valueSymbol driver.isInputPort) builder) builder

/-! ## Connections -/

/-- The slices of a port on the cuts of its nodes, each with the nodes that contain it. -/
def buildPortSliceList (builder : NetlistBuilder) (port : PortSymbol) : BitSliceList :=
  let nodes := builder.variableTracker.lookupAll port.id
  if port.selectableWidth = 0 then []
  else
    let cuts := CutRegistry.sortCuts (0 :: port.selectableWidth :: nodes.flatMap fun node =>
      match builder.graph.getBounds node with
      | some bounds => [bounds.lower.toNat, bounds.upper.toNat + 1]
      | none => [])
    (neighbours cuts).map fun (segLo, segHi) =>
      { concatLo := segLo
        concatHi := segHi
        sources := (nodes.filter fun node =>
          match builder.graph.getBounds node with
          | some bounds => bounds.lower.toNat ≤ segLo ∧ segHi ≤ bounds.upper.toNat + 1
          | none => False).map .portNode }

/-- Merge a node as a driver of a range and connect it to the output port of the symbol. -/
def mergePortNode (builder : NetlistBuilder) (symbol : ValueSymbol) (lsp : Option Nat)
    (bounds : DriverBitRange) (node : NodeRef) : Option NetlistBuilder := do
  let builder ← builder.mergeCentral
    { symbol := symbol, bounds := bounds, drivers := [{ node := some node, lsp := lsp }] }
  some (if (builder.outputPort symbol bounds).isSome then
      (builder.internSymbol symbol).hookupOutputPort symbol bounds [{ node := some node }]
    else builder)

/-- `NodeFactory::createConstantForSegment`. -/
def createConstantForSegment (builder : NetlistBuilder) (task : Nat) (value : ConstantValue)
    (srcLo : Nat) (location : Option SourceLocation) (segment : Segment) :
    NodeRef × NetlistBuilder :=
  let offset := segment.concatLo - srcLo
  let sliced :=
    match value with
    | .integer svInt =>
        if svInt.bits.length ≠ segment.width then
          .integer (svInt.slice (offset + segment.width - 1) offset)
        else value
    | _ => value
  let (textLocation, graph) :=
    match location with
    | some location => builder.graph.toTextLocation location
    | none => ({}, builder.graph)
  let ref := builder.freshRef task .constant
  (ref, { builder with
    graph := graph.addNode
      { ref := ref
        ID := builder.nextID
        data := .constant sliced segment.width textLocation }
    nextID := builder.nextID + 1 })

end NetlistBuilder

namespace Expr

/-- `ValuePath::visitPaths`. -/
def paths : Expr → List ValuePath
  | .literal => []
  | .value selectors path => paths selectors ++ [path]
  | .operator left right => paths left ++ paths right

end Expr

namespace ValuePath

/-- The root symbol and the longest static prefix of a path that has both. -/
def target (path : ValuePath) : Option (ValueSymbol × Nat) :=
  match path.empty, path.lsp, path.rootSymbol with
  | false, some lsp, some symbol => some (symbol, lsp)
  | _, _, _ => none

end ValuePath

namespace Segment

/-- The port nodes on the formal side. -/
def portNodes (segment : Segment) : List NodeRef :=
  segment.lhsSources.filterMap fun source =>
    match source with
    | .portNode node => some node
    | _ => none

/-- The bits of the root symbol that a segment takes of a source. -/
def mapped (segment : Segment) (path : ValuePath) (srcLo : Nat) : DriverBitRange :=
  let offset : Int := segment.concatLo - srcLo
  ⟨path.lspBounds.lower + offset, path.lspBounds.lower + offset + segment.width - 1⟩

end Segment

namespace NetlistBuilder

/-- Connect port nodes to a value of the actual. -/
def drivePortLsp (resolveInterfaceRef : InterfaceRefs) (isOutput : Bool) (portNodes : List NodeRef)
    (builder : NetlistBuilder) (path : ValuePath) (bounds : DriverBitRange) :
    Option NetlistBuilder :=
  match path.rootSymbol with
  | none => some builder
  | some root =>
      portNodes.foldlM (fun builder portNode =>
        if isOutput then builder.mergePortNode root path.lsp bounds portNode
        else do
          let lsp ← path.lsp
          some (builder.addRvalue resolveInterfaceRef root lsp bounds (some portNode)
            .portConnection .exact)) builder

/-- Read every value of an opaque expression with all its bits. -/
def drivePortOpaque (resolveInterfaceRef : InterfaceRefs) (portNodes : List NodeRef)
    (builder : NetlistBuilder) (path : ValuePath) : NetlistBuilder :=
  match path.target with
  | none => builder
  | some (root, lsp) =>
      portNodes.foldl (fun builder portNode =>
        builder.addRvalue resolveInterfaceRef root lsp path.lspBounds (some portNode)
          .portConnection .signal) builder

/-- One source of the actual. -/
def drivePortSource (resolveInterfaceRef : InterfaceRefs) (task : Nat) (isOutput : Bool)
    (segment : Segment) (builder : NetlistBuilder) : BitSliceSource → Option NetlistBuilder
  | .lsp path _ srcLo => do
      guard (0 < segment.width)
      builder.drivePortLsp resolveInterfaceRef isOutput segment.portNodes path
        (segment.mapped path srcLo)
  | .opaqueExpr expr =>
      some (expr.paths.foldl (drivePortOpaque resolveInterfaceRef segment.portNodes) builder)
  | .padding => some builder
  | .constant value srcLo location =>
      if isOutput then some builder
      else
        let (constNode, builder) :=
          builder.createConstantForSegment task value srcLo location segment
        some { builder with
          graph := segment.portNodes.foldl (fun graph portNode =>
            graph.addUnannotated constNode portNode .portConnection .exact) builder.graph }
  | .portNode _ => none

def drivePortSegment (resolveInterfaceRef : InterfaceRefs) (task : Nat) (isOutput : Bool)
    (builder : NetlistBuilder) (segment : Segment) : Option NetlistBuilder :=
  if segment.portNodes = [] then some builder
  else segment.rhsSources.foldlM (drivePortSource resolveInterfaceRef task isOutput segment) builder

/-- The whole port with every value of the actual. -/
def handlePortConnectionLegacy (resolveInterfaceRef : InterfaceRefs) (builder : NetlistBuilder)
    (port : PortSymbol) (actual : ConnectionExpr) : Option NetlistBuilder :=
  let portNodes := builder.variableTracker.lookupAll port.id
  actual.expr.visited.paths.foldlM (fun builder path =>
    match path.target with
    | none => some builder
    | some (symbol, lsp) => portNodes.foldlM (fun builder node =>
        if actual.isAssignment then builder.mergePortNode symbol (some lsp) path.lspBounds node
        else some (builder.addRvalue resolveInterfaceRef symbol lsp path.lspBounds (some node)
          .data .range)) builder) builder

/-- `handlePortConnection`; `none` is a failed assertion. -/
def handlePortConnection (resolveInterfaceRef : InterfaceRefs) (task : Nat)
    (resolveAssignBits : Bool) (builder : NetlistBuilder) (connection : PortConnection) :
    Option NetlistBuilder :=
  match connection.expression with
  | none => some builder
  | some actual =>
      if ¬ resolveAssignBits ∨ ¬ connection.port.integral ∨ ¬ actual.integral then
        builder.handlePortConnectionLegacy resolveInterfaceRef connection.port actual
      else
        let portList := builder.buildPortSliceList connection.port
        if BitSliceList.width portList = 0 then some builder
        else
          let actualList := BitSliceList.build actual.expr true none
          if BitSliceList.width portList ≠ BitSliceList.width actualList then
            builder.handlePortConnectionLegacy resolveInterfaceRef connection.port actual
          else
            (BitSliceList.alignSegments portList actualList).foldlM
              (drivePortSegment resolveInterfaceRef task actual.isAssignment) builder

end NetlistBuilder

end SlangNetlist
