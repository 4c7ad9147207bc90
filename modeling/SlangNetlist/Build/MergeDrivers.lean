import SlangNetlist.Build.PendingRvalueQueue

/-!
# Merging the drivers of a block

The drivers of a combinational block enter the central driver map.  Each range
that a sequential block drives gets a State node, which the drivers, the clocks
and the output port are connected to.
-/

namespace SlangNetlist

open Library

/-- An event of the sensitivity list of a block. -/
structure SensitivityEntry where
  signal : ValueSymbol
  lsp : Nat
  edgeKind : EdgeKind
  deriving DecidableEq, Repr

/-- `resolveInterfaceRef`: the interface variables behind an access to a modport port. -/
abbrev InterfaceRefs := ValueSymbol → Nat → List (ValueSymbol × DriverBitRange)

/-- A driven interval of a block. -/
structure BlockWrite where
  symbol : ValueSymbol
  bounds : DriverBitRange
  drivers : DriverList
  deriving DecidableEq, Repr

/-- The driven intervals of the slots, in the order in which they are visited. -/
def blockWrites (slots : List (ValueSymbol × DriverMap)) : Option (List BlockWrite) :=
  (slots.flatMap fun (symbol, map) =>
      map.driverIntervals.entries.map fun entry => (symbol, map, entry)).mapM
    fun (symbol, map, entry) => do
      let drivers ← map.getDriverList entry.value
      some ⟨symbol, ⟨entry.first, entry.second⟩, drivers⟩

namespace NetlistBuilder

/-- The address of a new node of a task: no node of the graph has it. -/
def freshRef (builder : NetlistBuilder) (task : Nat) (kind : NodeKind) : NodeRef :=
  ⟨task, kind, (((builder.graph.nodes.map NetlistNode.ref).filter fun ref =>
    ref.task = task ∧ ref.kind = kind).map NodeRef.serial).foldr max 0 + 1⟩

/-- `NodeFactory::createState`. -/
def createState (builder : NetlistBuilder) (task : Nat) (symbol : ValueSymbol)
    (bounds : DriverBitRange) : NodeRef × NetlistBuilder :=
  let (symRef, graph) := builder.graph.toSymbolRef symbol
  let ref := builder.freshRef task .state
  (ref, { builder with
    graph := graph.addNode
      { ref := ref
        ID := builder.nextID
        data := .state symRef.name symRef.hierarchicalPath symRef.location bounds }
    nextID := builder.nextID + 1
    variableTracker := builder.variableTracker.insert symbol.id bounds ref })

/-- The port node of a range of a symbol with one port: its own node, or one that contains it. -/
def outputPort (builder : NetlistBuilder) (symbol : ValueSymbol) (bounds : DriverBitRange) :
    Option NodeRef :=
  match symbol.portBackrefs with
  | [port] => (builder.getVariable port bounds).or
      ((builder.variableTracker.lookupAll port).find? fun candidate =>
        match builder.graph.getBounds candidate with
        | some own => own.contains bounds
        | none => false)
  | _ => none

/-- Add a dependency of a node on each driver of a list. -/
def connectDrivers (builder : NetlistBuilder) (drivers : DriverList) (target : NodeRef)
    (symbol : ValueSymbol) (bounds : DriverBitRange) (semantics : EdgeSemantics) :
    NetlistBuilder :=
  drivers.foldl (fun builder driver =>
    match driver.node with
    | some source => builder.addDependency
        { source := source, target := target, symbol := symbol.hierarchicalPath,
          bounds := bounds, semantics := semantics }
    | none => builder) builder

def hookupOutputPort (builder : NetlistBuilder) (symbol : ValueSymbol) (bounds : DriverBitRange)
    (drivers : DriverList) : NetlistBuilder :=
  match builder.outputPort symbol bounds with
  | some portNode => builder.connectDrivers drivers portNode symbol bounds
      { role := .portConnection, precision := .range }
  | none => builder

/-- Queue an R-value of the State node for each event, unless the signal has no bits. -/
def enqueueSensitivity (builder : NetlistBuilder) (stateNode : NodeRef)
    (sensitivity : List SensitivityEntry) : NetlistBuilder :=
  sensitivity.foldl (fun builder entry =>
    if entry.signal.selectableWidth = 0 then builder
    else builder.enqueue
      { symbol := entry.signal
        bounds := ⟨0, (entry.signal.selectableWidth : Int) - 1⟩
        lsp := entry.lsp
        node := some stateNode
        semantics := { edgeKind := entry.edgeKind } }) builder

/-- Add a dependency of the variable nodes that a driver writes directly. -/
def hookupVariables (resolveInterfaceRef : InterfaceRefs) (symbol : ValueSymbol)
    (bounds : DriverBitRange) (builder : NetlistBuilder) (driver : DriverInfo) :
    Option NetlistBuilder :=
  match driver.node with
  | none => some builder
  | some source =>
      match symbol.kind with
      | .modportPort => do
          let lsp ← driver.lsp
          some ((resolveInterfaceRef symbol lsp).foldl (fun builder (var, varBounds) =>
            match builder.getVariable var.id varBounds with
            | some varNode => builder.addDependency
                { source := source, target := varNode, symbol := symbol.hierarchicalPath,
                  bounds := varBounds }
            | none => builder) builder)
      | .variable =>
          match builder.getVariable symbol.id bounds with
          | some varNode => do
              let varBounds ← builder.graph.getBounds varNode
              some (builder.addDependency
                { source := source, target := varNode, symbol := symbol.hierarchicalPath,
                  bounds := varBounds })
          | none => some builder
      | _ => some builder

/-- `mergeDrivers` of one interval into the central driver map. -/
def mergeCentral (builder : NetlistBuilder) (write : BlockWrite) : Option NetlistBuilder := do
  let (driverMap, drivers) ← builder.driverMap.addDrivers builder.drivers write.symbol
    write.bounds write.drivers true
  some { builder with driverMap := driverMap, drivers := drivers }

/-- Create the State node of an interval and connect its drivers, its clocks and its port. -/
def mergeState (task : Nat) (sensitivity : List SensitivityEntry) (builder : NetlistBuilder)
    (write : BlockWrite) : NetlistBuilder :=
  let (stateNode, builder) := builder.createState task write.symbol write.bounds
  let builder := builder.connectDrivers write.drivers stateNode write.symbol write.bounds {}
  let builder := builder.enqueueSensitivity stateNode sensitivity
  builder.hookupOutputPort write.symbol write.bounds [{ node := some stateNode }]

/-- The body of the loop of `mergeDrivers` for one driven interval. -/
def mergeWrite (task : Nat) (resolveInterfaceRef : InterfaceRefs)
    (sensitivity : List SensitivityEntry) (builder : NetlistBuilder) (write : BlockWrite) :
    Option NetlistBuilder := do
  let builder ←
    if sensitivity = [] then do
      let builder ← builder.mergeCentral write
      some ((builder.internSymbol write.symbol).hookupOutputPort write.symbol write.bounds
        write.drivers)
    else some (builder.mergeState task sensitivity write)
  write.drivers.foldlM (hookupVariables resolveInterfaceRef write.symbol write.bounds) builder

/-- `mergeDrivers` of a block. -/
def mergeDrivers (task : Nat) (resolveInterfaceRef : InterfaceRefs)
    (sensitivity : List SensitivityEntry) (builder : NetlistBuilder)
    (slots : List (ValueSymbol × DriverMap)) : Option NetlistBuilder := do
  let writes ← blockWrites slots
  writes.foldlM (mergeWrite task resolveInterfaceRef sensitivity) builder

end NetlistBuilder

end SlangNetlist
