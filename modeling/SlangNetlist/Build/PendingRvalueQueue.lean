import SlangNetlist.Build.NetlistBuilder

/-!
# The queue of pending R-values

Resolving a pending R-value adds dependencies to the graph and changes nothing
else.  `emissions` lists these dependencies, which depend on the variable table
and on the central driver map but not on the graph.
-/

namespace SlangNetlist

open Library

namespace PendingRvalue

/-- The dependency of the node of an R-value on a source. -/
def dependency (pending : PendingRvalue) (source node : NodeRef) (bounds : DriverBitRange) :
    Dependency where
  source := source
  target := node
  symbol := pending.symbol.hierarchicalPath
  bounds := bounds
  semantics := pending.semantics

end PendingRvalue

namespace NetlistBuilder

/-- `PendingRvalueQueue::enqueue`. -/
def enqueue (builder : NetlistBuilder) (pending : PendingRvalue) : NetlistBuilder :=
  { builder with pendingQueue := builder.pendingQueue ++ [pending] }

/-- `addDependency` with a symbol. -/
def addDependency (builder : NetlistBuilder) (dependency : Dependency) : NetlistBuilder :=
  { builder with graph := builder.graph.addDependency dependency }

/-- Emit the edges of one pending R-value; `none` is a failed assertion. -/
def emitEdgesFor (builder : NetlistBuilder) (pending : PendingRvalue) : Option NetlistBuilder :=
  match pending.node with
  | none => some builder
  | some node =>
      let (_, graph) := builder.graph.toSymbolRef pending.symbol
      let builder := { builder with graph := graph }
      match builder.getVariable pending.symbol.id pending.bounds with
      | some stateNode =>
          some (builder.addDependency (pending.dependency stateNode node pending.bounds))
      | none => do
          let intervals ← builder.driverMap.forEachDriverInterval builder.drivers
            pending.symbol pending.bounds
          some (intervals.foldl (fun builder (intervalBounds, driverList) =>
            match intervalBounds.intersection pending.bounds with
            | none => builder
            | some edgeBounds => driverList.foldl (fun builder driver =>
                match driver.node with
                | some source =>
                    builder.addDependency (pending.dependency source node edgeBounds)
                | none => builder) builder) builder)

/-- `resolveSequential`: emit the edges of the entries in the order of the queue. -/
def resolveQueue (builder : NetlistBuilder) (queue : List PendingRvalue) :
    Option NetlistBuilder :=
  queue.foldlM emitEdgesFor builder

/-! ## The dependencies of one R-value -/

/-- The dependencies on the drivers of one interval. -/
def intervalEmissions (pending : PendingRvalue) (node : NodeRef)
    (interval : DriverBitRange × DriverList) : List Dependency :=
  match interval.1.intersection pending.bounds with
  | none => []
  | some edgeBounds => interval.2.filterMap fun driver =>
      driver.node.map fun source => pending.dependency source node edgeBounds

/-- The dependencies that `emitEdgesFor` adds for the node of the R-value. -/
def emissions (builder : NetlistBuilder) (pending : PendingRvalue) (node : NodeRef) :
    Option (List Dependency) :=
  match builder.getVariable pending.symbol.id pending.bounds with
  | some stateNode => some [pending.dependency stateNode node pending.bounds]
  | none =>
      (builder.driverMap.forEachDriverInterval builder.drivers pending.symbol
        pending.bounds).map fun intervals => intervals.flatMap (intervalEmissions pending node)

/-- Add dependencies to the graph. -/
def addDependencies (builder : NetlistBuilder) (dependencies : List Dependency) :
    NetlistBuilder :=
  { builder with graph := dependencies.foldl NetlistGraph.addDependency builder.graph }

section Emissions

variable {builder : NetlistBuilder} {pending : PendingRvalue} {node : NodeRef}

theorem addDependencies_append (builder : NetlistBuilder) (first second : List Dependency) :
    (builder.addDependencies first).addDependencies second =
      builder.addDependencies (first ++ second) := by
  simp [addDependencies]

/-- The inner loop over the drivers of an interval. -/
theorem foldl_drivers (builder : NetlistBuilder) (pending : PendingRvalue) (node : NodeRef)
    (edgeBounds : DriverBitRange) (drivers : DriverList) :
    drivers.foldl (fun builder driver =>
        match driver.node with
        | some source => builder.addDependency (pending.dependency source node edgeBounds)
        | none => builder) builder =
      builder.addDependencies (drivers.filterMap fun driver =>
        driver.node.map fun source => pending.dependency source node edgeBounds) := by
  induction drivers generalizing builder with
  | nil => rfl
  | cons driver rest ih =>
      rw [List.foldl_cons, ih]
      cases found : driver.node <;> simp [found, addDependency, addDependencies]

/-- The outer loop over the intervals. -/
theorem foldl_intervals (builder : NetlistBuilder) (pending : PendingRvalue) (node : NodeRef)
    (intervals : List (DriverBitRange × DriverList)) :
    intervals.foldl (fun builder (intervalBounds, driverList) =>
        match intervalBounds.intersection pending.bounds with
        | none => builder
        | some edgeBounds => driverList.foldl (fun builder driver =>
            match driver.node with
            | some source => builder.addDependency (pending.dependency source node edgeBounds)
            | none => builder) builder) builder =
      builder.addDependencies (intervals.flatMap (intervalEmissions pending node)) := by
  induction intervals generalizing builder with
  | nil => rfl
  | cons interval rest ih =>
      obtain ⟨intervalBounds, driverList⟩ := interval
      rw [List.foldl_cons, ih, List.flatMap_cons, ← addDependencies_append]
      congr 1
      simp only [intervalEmissions]
      cases intervalBounds.intersection pending.bounds with
      | none => rfl
      | some edgeBounds => exact foldl_drivers builder pending node edgeBounds driverList

/-- The builder after the symbol of an R-value has been interned. -/
def internSymbol (builder : NetlistBuilder) (symbol : ValueSymbol) : NetlistBuilder :=
  { builder with graph := (builder.graph.toSymbolRef symbol).2 }

/-- `emitEdgesFor` adds its emissions to the graph. -/
theorem emitEdgesFor_eq (builder : NetlistBuilder) (target : pending.node = some node) :
    builder.emitEdgesFor pending = (builder.emissions pending node).map
      (builder.internSymbol pending.symbol).addDependencies := by
  unfold emitEdgesFor emissions
  rw [target]
  simp only [getVariable]
  cases builder.variableTracker.lookup pending.symbol.id pending.bounds with
  | some stateNode => rfl
  | none =>
      simp only [foldl_intervals]
      cases builder.driverMap.forEachDriverInterval builder.drivers pending.symbol
        pending.bounds <;> rfl

/-- An R-value without a node emits nothing. -/
theorem emitEdgesFor_none (builder : NetlistBuilder) (target : pending.node = none) :
    builder.emitEdgesFor pending = some builder := by
  simp [emitEdgesFor, target]

/-- All dependencies of an R-value agree in everything but the source and the bounds. -/
theorem eq_dependency_of_mem_emissions {dependencies : List Dependency}
    (emitted : builder.emissions pending node = some dependencies) {dependency : Dependency}
    (member : dependency ∈ dependencies) :
    dependency = pending.dependency dependency.source node dependency.bounds := by
  unfold emissions at emitted
  split at emitted
  · cases emitted
    obtain rfl := List.mem_singleton.mp member
    rfl
  · obtain ⟨intervals, _, rfl⟩ := Option.map_eq_some_iff.mp emitted
    obtain ⟨interval, _, inInterval⟩ := List.mem_flatMap.mp member
    unfold intervalEmissions at inInterval
    split at inInterval
    · simp at inInterval
    · obtain ⟨driver, _, mapped⟩ := List.mem_filterMap.mp inInterval
      obtain ⟨source, _, rfl⟩ := Option.map_eq_some_iff.mp mapped
      rfl

end Emissions

end NetlistBuilder

end SlangNetlist
