import SlangNetlist.Build.PendingRvalueQueue
import SlangNetlist.Library.PartialMap

/-!
# Which bits of a read are resolved

A read is resolved from one of two structures: the node registered for exactly
its bounds, or else the central intervals that meet it.  A node registered for
other bounds is passed over unless it is a central driver too.
-/

namespace SlangNetlist

open Library

namespace NetlistBuilder

/-- The node holds the bit: it is registered for a range with the bit, or drives it centrally. -/
def Holds (builder : NetlistBuilder) (symbol : ValueSymbol) (bit : Int) (source : NodeRef) :
    Prop :=
  ((source.kind = .state ∨ source.kind = .variable) ∧
    builder.variableTracker.Registered symbol.id bit source) ∨
  (builder.centralMap symbol).Drives bit (some source)

/-- Every node that holds a bit of the read has an edge to the node with the bit. -/
def Resolved (builder : NetlistBuilder) (pending : PendingRvalue) (node : NodeRef)
    (graph : NetlistGraph) : Prop :=
  ∀ bit ∈ pending.bounds, ∀ source, builder.Holds pending.symbol bit source →
    graph.Carries source node pending.symbol.hierarchicalPath bit

/-- The node is a central driver on an interval whose part in the read has the bit. -/
def DrivesPart (builder : NetlistBuilder) (pending : PendingRvalue) (source : NodeRef)
    (bit : Int) : Prop :=
  ∃ entry ∈ (builder.centralMap pending.symbol).find pending.bounds,
    ∃ list, (builder.centralMap pending.symbol).getDriverList entry.value = some list ∧
      some source ∈ list.nodes ∧
      ∃ edgeBounds, (⟨entry.first, entry.second⟩ : DriverBitRange).intersection pending.bounds =
        some edgeBounds ∧ bit ∈ NetlistGraph.clip (builder.graph.getBounds source) edgeBounds

/--
The read can be resolved.  With a node registered for exactly its bounds, every
other node that holds one of its bits has the edge already; without such a node,
the lists that it meets are live and every node that holds one of its bits has
the edge already or drives the bit centrally.
-/
def Resolvable (builder : NetlistBuilder) (pending : PendingRvalue) (node : NodeRef) : Prop :=
  match builder.getVariable pending.symbol.id pending.bounds with
  | some stateNode => ∀ bit ∈ pending.bounds, ∀ source, builder.Holds pending.symbol bit source →
      builder.graph.Carries source node pending.symbol.hierarchicalPath bit ∨
        (source = stateNode ∧
          bit ∈ NetlistGraph.clip (builder.graph.getBounds source) pending.bounds)
  | none =>
      (∀ entry ∈ (builder.centralMap pending.symbol).find pending.bounds,
        (builder.centralMap pending.symbol).Live entry) ∧
      ∀ bit ∈ pending.bounds, ∀ source, builder.Holds pending.symbol bit source →
        builder.graph.Carries source node pending.symbol.hierarchicalPath bit ∨
          builder.DrivesPart pending source bit

section Resolved

variable {builder : NetlistBuilder} {pending : PendingRvalue} {node : NodeRef}

/-- The edges of the emissions, beside the edges that the graph has. -/
theorem carries_addDependencies {dependencies : List Dependency}
    (emitted : builder.emissions pending node = some dependencies) (source : NodeRef)
    (bit : Int) :
    ((builder.internSymbol pending.symbol).addDependencies dependencies).graph.Carries source
        node pending.symbol.hierarchicalPath bit ↔
      builder.graph.Carries source node pending.symbol.hierarchicalPath bit ∨
        ∃ dependency ∈ dependencies, dependency.source = source ∧
          bit ∈ NetlistGraph.clip (builder.graph.getBounds source) dependency.bounds := by
  have shape := fun dependency (member : dependency ∈ dependencies) =>
    eq_dependency_of_mem_emissions emitted member
  have only : ∀ dependency ∈ dependencies,
      dependency.symbol = pending.symbol.hierarchicalPath :=
    fun dependency member => congrArg Dependency.symbol (shape dependency member)
  have target : ∀ dependency ∈ dependencies, dependency.target = node :=
    fun dependency member => congrArg Dependency.target (shape dependency member)
  simp only [addDependencies, internSymbol]
  rw [NetlistGraph.carries_addDependencies only, NetlistGraph.carries_toSymbolRef]
  refine or_congr_right (exists_congr fun dependency => and_congr_right fun member => ?_)
  simp only [target dependency member, true_and, NetlistGraph.getBounds_toSymbolRef]

/-- The intervals that a read meets can be listed exactly if their lists are live. -/
theorem exists_intervals_iff :
    (∃ intervals, builder.driverMap.forEachDriverInterval builder.drivers pending.symbol
        pending.bounds = some intervals) ↔
      ∀ entry ∈ (builder.centralMap pending.symbol).find pending.bounds,
        (builder.centralMap pending.symbol).Live entry := by
  unfold ValueTracker.forEachDriverInterval
  simp only [exists_mapM_iff, Option.bind_eq_bind, Option.bind_eq_some_iff]
  refine forall₂_congr fun entry _ => ?_
  constructor
  · rintro ⟨_, list, found, _⟩
    exact ⟨list, found⟩
  · rintro ⟨list, found⟩
    exact ⟨_, list, found, rfl⟩

/-- A listed interval is an entry that the read meets, with its live list. -/
theorem mem_intervals {intervals : List (DriverBitRange × DriverList)}
    (listed : builder.driverMap.forEachDriverInterval builder.drivers pending.symbol
      pending.bounds = some intervals) {range : DriverBitRange} {list : DriverList} :
    (range, list) ∈ intervals ↔
      ∃ entry ∈ (builder.centralMap pending.symbol).find pending.bounds,
        (builder.centralMap pending.symbol).getDriverList entry.value = some list ∧
          range = ⟨entry.first, entry.second⟩ := by
  rw [mem_of_mapM listed]
  refine exists_congr fun entry => and_congr_right fun _ => ?_
  simp only [Option.bind_eq_bind, Option.bind_eq_some_iff, Option.some.injEq, Prod.mk.injEq]
  constructor
  · rintro ⟨found, foundEq, rangeEq, rfl⟩
    exact ⟨foundEq, rangeEq.symm⟩
  · rintro ⟨foundEq, rangeEq⟩
    exact ⟨list, foundEq, rangeEq.symm, rfl⟩

/-- Without an exact match the emissions are those of the central drivers. -/
theorem mem_emissions_walk
    (missing : builder.getVariable pending.symbol.id pending.bounds = none)
    {dependencies : List Dependency}
    (emitted : builder.emissions pending node = some dependencies) {source : NodeRef}
    {bit : Int} :
    (∃ dependency ∈ dependencies, dependency.source = source ∧
        bit ∈ NetlistGraph.clip (builder.graph.getBounds source) dependency.bounds) ↔
      builder.DrivesPart pending source bit := by
  unfold emissions at emitted
  rw [missing] at emitted
  obtain ⟨intervals, listed, rfl⟩ := Option.map_eq_some_iff.mp emitted
  constructor
  · rintro ⟨dependency, member, sourceEq, inside⟩
    obtain ⟨⟨range, list⟩, intervalMem, inInterval⟩ := List.mem_flatMap.mp member
    obtain ⟨entry, entryMem, found, rfl⟩ := (mem_intervals listed).mp intervalMem
    unfold intervalEmissions at inInterval
    split at inInterval
    · simp at inInterval
    · next edgeBounds meets =>
        obtain ⟨driver, driverMem, mapped⟩ := List.mem_filterMap.mp inInterval
        obtain ⟨driving, drivingEq, rfl⟩ := Option.map_eq_some_iff.mp mapped
        obtain rfl : driving = source := sourceEq
        exact ⟨entry, entryMem, list, found,
          DriverList.mem_nodes.mpr ⟨driver, driverMem, drivingEq⟩, edgeBounds, meets, inside⟩
  · rintro ⟨entry, entryMem, list, found, drives, edgeBounds, meets, inside⟩
    obtain ⟨driver, driverMem, drivingEq⟩ := DriverList.mem_nodes.mp drives
    refine ⟨pending.dependency source node edgeBounds, List.mem_flatMap.mpr
      ⟨(⟨entry.first, entry.second⟩, list),
        (mem_intervals listed).mpr ⟨entry, entryMem, found, rfl⟩, ?_⟩, rfl, inside⟩
    simp only [intervalEmissions, meets]
    exact List.mem_filterMap.mpr ⟨driver, driverMem, by simp [drivingEq]⟩

/-- Emitting succeeds and resolves every bit exactly if the read can be resolved. -/
theorem emissions_resolve_iff :
    (∃ dependencies, builder.emissions pending node = some dependencies ∧
        builder.Resolved pending node
          ((builder.internSymbol pending.symbol).addDependencies dependencies).graph) ↔
      builder.Resolvable pending node := by
  unfold Resolvable
  cases matched : builder.getVariable pending.symbol.id pending.bounds with
  | some stateNode =>
      have emitted : builder.emissions pending node =
          some [pending.dependency stateNode node pending.bounds] := by simp [emissions, matched]
      simp only [emitted, Option.some.injEq, exists_eq_left', Resolved]
      refine forall₂_congr fun bit _ => forall₂_congr fun source _ => ?_
      rw [carries_addDependencies emitted]
      simp only [List.mem_singleton, exists_eq_left, PendingRvalue.dependency,
        @eq_comm _ stateNode]
  | none =>
      simp only
      rw [← exists_intervals_iff]
      constructor
      · rintro ⟨dependencies, emitted, resolved⟩
        refine ⟨?_, fun bit inside source holds => ?_⟩
        · have walked := emitted
          rw [emissions, matched] at walked
          obtain ⟨intervals, listed, _⟩ := Option.map_eq_some_iff.mp walked
          exact ⟨intervals, listed⟩
        · rw [← mem_emissions_walk matched emitted, ← carries_addDependencies emitted]
          exact resolved bit inside source holds
      · rintro ⟨⟨intervals, listed⟩, held⟩
        have emitted : builder.emissions pending node =
            some (intervals.flatMap (intervalEmissions pending node)) := by
          simp [emissions, matched, listed]
        refine ⟨_, emitted, fun bit inside source holds => ?_⟩
        rw [carries_addDependencies emitted, mem_emissions_walk matched emitted]
        exact held bit inside source holds

end Resolved

/--
`emitEdgesFor` succeeds and leaves every bit of the read fully resolved exactly
if the read can be resolved.
-/
theorem emitEdgesFor_resolves_iff (builder : NetlistBuilder) (pending : PendingRvalue)
    (node : NodeRef) (target : pending.node = some node) :
    (∃ result, builder.emitEdgesFor pending = some result ∧
        builder.Resolved pending node result.graph) ↔
      builder.Resolvable pending node := by
  rw [emitEdgesFor_eq builder target, ← emissions_resolve_iff]
  simp only [Option.map_eq_some_iff]
  constructor
  · rintro ⟨_, ⟨dependencies, emitted, rfl⟩, resolved⟩
    exact ⟨dependencies, emitted, resolved⟩
  · rintro ⟨dependencies, emitted, resolved⟩
    exact ⟨_, ⟨dependencies, emitted, rfl⟩, resolved⟩

/-- The register `q`. -/
def register : ValueSymbol :=
  { id := 0, name := "q", hierarchicalPath := "m.q", selectableWidth := 8 }

/-- `q[7:0]` has one State node. -/
def registered : NetlistBuilder where
  variableTracker := ({} : VariableTracker).insert 0 ⟨0, 7⟩ ⟨1, .state, 0⟩

/-- A read of a range of `q` in an assignment. -/
def readRegister (low high : Int) : PendingRvalue where
  symbol := register
  bounds := ⟨low, high⟩
  lsp := 0
  node := some ⟨2, .assignment, 0⟩

/-- The read of all of `q`. -/
theorem emitEdgesFor_resolves_iff_whole :
    (∃ result, registered.emitEdgesFor (readRegister 0 7) = some result ∧
        registered.Resolved (readRegister 0 7) ⟨2, .assignment, 0⟩ result.graph) ↔
      registered.Resolvable (readRegister 0 7) ⟨2, .assignment, 0⟩ :=
  emitEdgesFor_resolves_iff registered (readRegister 0 7) ⟨2, .assignment, 0⟩ rfl

/-- The read of `q[3:0]` gets no edge from the State node of `q[7:0]`. -/
theorem emitEdgesFor_leaves_bits :
    ∃ result, registered.emitEdgesFor (readRegister 0 3) = some result ∧
      ¬ registered.Resolved (readRegister 0 3) ⟨2, .assignment, 0⟩ result.graph := by
  refine ⟨registered.internSymbol register, rfl, fun resolved => ?_⟩
  have holds : registered.Holds register 0 ⟨1, .state, 0⟩ :=
    Or.inl ⟨Or.inl rfl, ⟨0, 7, ⟨1, .state, 0⟩⟩, by decide, rfl, by decide⟩
  exact absurd (resolved 0 (by decide) _ holds) (by decide)

end NetlistBuilder

end SlangNetlist
