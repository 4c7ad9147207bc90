import SlangNetlist.Build.VariableTracker
import SlangNetlist.Graph.SymbolTable
import SlangNetlist.Tracking.ValueTracker

/-!
# The netlist builder

The shared structures of a build: the graph, the central driver map, the
variable table and the queue of pending R-values.
-/

namespace SlangNetlist

/-- A read to be resolved after all drivers have been registered. -/
structure PendingRvalue where
  symbol : ValueSymbol
  bounds : DriverBitRange
  lsp : Nat
  /-- The node in which the R-value appears, if there is one. -/
  node : Option NodeRef
  semantics : EdgeSemantics := {}
  deriving DecidableEq, Repr

/-- The shared state of a build. -/
structure NetlistBuilder where
  graph : NetlistGraph := {}
  driverMap : ValueTracker := {}
  drivers : ValueDrivers := []
  variableTracker : VariableTracker := {}
  pendingQueue : List PendingRvalue := []
  /-- The global counter of node identifiers. -/
  nextID : Nat := 1

namespace NetlistBuilder

/-- `getVariable`. -/
def getVariable (builder : NetlistBuilder) (symbol : Nat) (bounds : DriverBitRange) :
    Option NodeRef :=
  builder.variableTracker.lookup symbol bounds

/-- The central intervals of a symbol. -/
def centralMap (builder : NetlistBuilder) (symbol : ValueSymbol) : DriverMap :=
  builder.driverMap.driverMap builder.drivers symbol

end NetlistBuilder

end SlangNetlist
