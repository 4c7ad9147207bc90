import SlangNetlist.Build.PortConnectionHandler
import SlangNetlist.Common.Wildcard

/-!
# The collecting traversal

Phase 1 of a build visits the design from the root.  It makes the nodes of the
ports and of the interface variables, connects the ports of each instance and
defers the blocks.  An instance that is black-boxed gets its port nodes and its
connections, but its body is not visited.
-/

namespace SlangNetlist

open Wildcard

/-- An instance, with the flags of its body. -/
structure InstanceSymbol where
  definitionName : String
  hierarchicalPath : String
  uninstantiated : Bool := false
  isInterface : Bool := false
  portConnections : List PortConnection := []

/-- A member of a scope. -/
inductive DesignMember where
  | port (symbol : PortSymbol)
  | variable (symbol : ValueSymbol)
  | proceduralBlock (block : Nat)
  | continuousAssign (block : Nat)
  | generateBlock (isUninstantiated : Bool)
  | instanceSymbol (symbol : InstanceSymbol)
  /-- Any other symbol, of whose members the visitor visits each. -/
  | other

/-- The members of a scope: the first one, what is inside it, and the members after it.  Inside
an instance are the members of its body. -/
inductive DesignTree where
  | empty
  | member (symbol : DesignMember) (members next : DesignTree)

/-- The port members of a scope. -/
def DesignTree.ports : DesignTree → List PortSymbol
  | .empty => []
  | .member (.port symbol) _ next => symbol :: next.ports
  | .member _ _ next => next.ports

structure BuilderOptions where
  resolveAssignBits : Bool := true
  propCutsAcrossPorts : Bool := true
  blackBoxes : List String := []

/-- A block that phase 2 is to analyse. -/
structure DeferredSymbol where
  symbol : Nat
  isProcedural : Bool
  deriving DecidableEq, Repr

/-- The builder, the cut registry of its port handler, and the work list of its pipeline. -/
structure CollectState where
  builder : NetlistBuilder := {}
  cutRegistry : CutRegistry := {}
  deferredBlocks : List DeferredSymbol := []

/-- What the traversal reads: the options, the drivers of the canonical symbol of each value,
and the variables behind a modport. -/
structure CollectContext where
  options : BuilderOptions := {}
  getDrivers : ValueSymbol → List ValueDriver
  resolveInterfaceRef : InterfaceRefs

/-- `NodeFactory::createVariable`. -/
def NetlistBuilder.createVariable (builder : NetlistBuilder) (task : Nat) (symbol : ValueSymbol)
    (bounds : DriverBitRange) : NetlistBuilder :=
  let (symRef, graph) := builder.graph.toSymbolRef symbol
  let ref := builder.freshRef task .variable
  { builder with
    graph := graph.addNode
      { ref := ref
        ID := builder.nextID
        data := .variable symRef.name symRef.hierarchicalPath symRef.location bounds }
    nextID := builder.nextID + 1
    variableTracker := builder.variableTracker.insert symbol.id bounds ref }

/-- Some pattern matches the definition name or, if none does, the path of the instance. -/
def isBlackBoxInstance (blackBoxes : List String) (symbol : InstanceSymbol) : Bool :=
  if blackBoxes.isEmpty then false
  else if blackBoxes.any fun pattern =>
      wildcardMatch (cStr symbol.definitionName) (cStr pattern) = some true then true
  else blackBoxes.any fun pattern =>
      wildcardMatch (cStr symbol.hierarchicalPath) (cStr pattern) = some true

namespace CollectState

variable (context : CollectContext)

/-- The task of phase 1. -/
def task : Nat := 0

/-- `handle(PortSymbol)`. -/
def handlePort (state : CollectState) (symbol : PortSymbol) : Option CollectState := do
  let builder ← state.builder.materializePortNodes task context.options.propCutsAcrossPorts
    state.cutRegistry context.getDrivers symbol
  some { state with builder := builder }

/-- `handle(VariableSymbol)`: the variables of an interface get a node for each driver. -/
def handleVariable (inInterface : Bool) (state : CollectState) (symbol : ValueSymbol) :
    CollectState :=
  if inInterface then
    { state with
      builder := (context.getDrivers symbol).foldl (fun builder driver =>
        builder.createVariable task symbol driver.bounds) state.builder }
  else state

/-- `BuildPipeline::deferBlock`. -/
def deferBlock (state : CollectState) (symbol : Nat) (isProcedural : Bool) : CollectState :=
  { state with deferredBlocks := state.deferredBlocks ++ [⟨symbol, isProcedural⟩] }

def recordCuts (state : CollectState) (connections : List PortConnection) : CollectState :=
  if context.options.propCutsAcrossPorts then
    { state with
      cutRegistry := recordCutsFromPortConnections state.cutRegistry connections }
  else state

/-- `NetlistGraph::addBlackBoxPath`. -/
def addBlackBoxPath (state : CollectState) (path : String) : CollectState :=
  { state with
    builder := { state.builder with
      graph := { state.builder.graph with
        blackBoxPaths := state.builder.graph.blackBoxPaths ++ [path] } } }

/-- One connection of an instance; interfaces are handled through their modport ports. -/
def connectPort (state : CollectState) (connection : PortConnection) : Option CollectState :=
  if connection.isPort then do
    let builder ← state.builder.handlePortConnection context.resolveInterfaceRef task
      context.options.resolveAssignBits connection
    some { state with builder := builder }
  else some state

/-- The visit of the members of a scope; `inInterface` tells whether the containing instance is
an interface. -/
def collect (inInterface : Bool) : DesignTree → CollectState → Option CollectState
  | .empty, state => some state
  | .member symbol members next, state => do
      let state ← match symbol with
        | .port symbol => state.handlePort context symbol
        | .variable symbol => some (state.handleVariable context inInterface symbol)
        | .proceduralBlock block => some (state.deferBlock block true)
        | .continuousAssign block => some (state.deferBlock block false)
        | .generateBlock isUninstantiated =>
            if ¬ isUninstantiated then collect inInterface members state else some state
        | .instanceSymbol symbol =>
            if symbol.uninstantiated then some state
            else do
              -- The cuts come first: the port nodes are split on them.
              let state := state.recordCuts context symbol.portConnections
              let state ←
                if isBlackBoxInstance context.options.blackBoxes symbol then
                  members.ports.foldlM (handlePort context)
                    (state.addBlackBoxPath symbol.hierarchicalPath)
                else collect symbol.isInterface members state
              symbol.portConnections.foldlM (connectPort context) state
        | .other => collect inInterface members state
      collect inInterface next state

end CollectState

/-- Phase 1 from the root of the design. -/
def runPhase1 (context : CollectContext) (root : DesignTree) (state : CollectState) :
    Option CollectState :=
  state.collect context false root

end SlangNetlist
