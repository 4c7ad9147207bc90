import SlangNetlist.Build.MergeDrivers
import SlangNetlist.Graph.AddDependency
import SlangNetlist.Library.PartialMap

/-!
# Edges that an operation adds

The hookups of `mergeDrivers` add dependencies to the graph and change neither
its nodes nor the tables.  Each of them is described by the list of these
dependencies, from which follow the nodes that are joined and the bits that are
carried.
-/

namespace SlangNetlist

open Library

namespace NetlistGraph

variable {graph : NetlistGraph} {source target : NodeRef}

/-- An edge leads from the source to the target. -/
def Joined (graph : NetlistGraph) (source target : NodeRef) : Prop :=
  graph.edgesBetween source target ≠ []

instance (graph : NetlistGraph) (source target : NodeRef) :
    Decidable (graph.Joined source target) :=
  inferInstanceAs (Decidable (_ ≠ []))

theorem joined_addDependency (dependency : Dependency) :
    (graph.addDependency dependency).Joined source target ↔
      graph.Joined source target ∨ source = dependency.source ∧ target = dependency.target := by
  have emitted (edges : List NetlistEdge) (bounds : DriverBitRange) (semantics : EdgeSemantics) :
      emitBetween dependency.source dependency.target dependency.symbol bounds semantics edges ≠
        [] := by
    cases edges with
    | nil => exact List.cons_ne_nil _ _
    | cons first rest =>
        rw [emitBetween]
        split <;> exact List.cons_ne_nil _ _
  unfold Joined
  rw [edgesBetween_addDependency]
  split
  · next same => exact iff_of_true (emitted _ _ _) (Or.inr same)
  · next differ => exact (or_iff_left differ).symm

theorem joined_addDependencies {dependencies : List Dependency} :
    (dependencies.foldl addDependency graph).Joined source target ↔
      graph.Joined source target ∨
        ∃ dependency ∈ dependencies, dependency.source = source ∧ dependency.target = target := by
  induction dependencies generalizing graph with
  | nil => simp
  | cons head rest ih =>
      rw [List.foldl_cons, ih, joined_addDependency]
      simp only [List.mem_cons, exists_eq_or_imp, or_assoc, @eq_comm _ source head.source,
        @eq_comm _ target head.target]

/-- The first edge has no symbol but this one, so that an annotation of it keeps the labels. -/
def Labels (symbol : String) (edges : List NetlistEdge) : Prop :=
  ∀ first ∈ edges.head?, ∀ other, first.symbol = some other → other = symbol

/-- An annotation of edges of its symbol keeps what they carry. -/
theorem Labels.annotate {edges : List NetlistEdge} {note : Annotation}
    (labels : Labels note.symbol edges) :
    Labels note.symbol (NetlistGraph.annotate source target edges note) ∧
      ∀ symbol bit, (∃ edge ∈ edges, edge.Carries symbol bit) →
        ∃ edge ∈ NetlistGraph.annotate source target edges note, edge.Carries symbol bit := by
  rcases annotate_cases source target edges note with ⟨rfl, after⟩ | ⟨first, rest, rfl,
    ⟨same, contiguous, after⟩ | ⟨same, _, after⟩ | ⟨differ, after⟩⟩
  · rw [after]
    refine ⟨fun edge member other found => ?_, by simp⟩
    obtain rfl := Option.some.inj member
    exact (Option.some.inj found).symm
  · rw [after]
    refine ⟨fun edge member other found => ?_, ?_⟩
    · obtain rfl := Option.some.inj member
      exact (Option.some.inj (same.symm.trans found)).symm
    · rintro symbol bit ⟨edge, member, carries⟩
      rcases List.mem_cons.mp member with rfl | later
      · exact ⟨_, List.mem_cons_self, carries.1,
          (DriverBitRange.mem_unionWith contiguous).mpr (Or.inl carries.2)⟩
      · exact ⟨edge, List.mem_cons_of_mem _ later, carries⟩
  · rw [after]
    refine ⟨fun edge member other found => ?_, ?_⟩
    · obtain rfl := Option.some.inj member
      exact (Option.some.inj (same.symm.trans found)).symm
    · rintro symbol bit ⟨edge, member, carries⟩
      exact ⟨edge, List.mem_append_left _ member, carries⟩
  · rw [after]
    refine ⟨fun edge member other found => ?_, ?_⟩
    · obtain rfl := Option.some.inj member
      exact (Option.some.inj found).symm
    · rintro symbol bit ⟨edge, member, carries⟩
      rcases List.mem_cons.mp member with rfl | later
      · exact absurd (labels _ rfl symbol carries.1 ▸ carries.1) differ
      · exact ⟨edge, List.mem_cons_of_mem _ later, carries⟩

/-- Dependencies for one symbol keep what edges without other labels carry. -/
theorem carries_of_labels {symbol : String} {dependencies : List Dependency}
    (only : ∀ dependency ∈ dependencies, dependency.symbol = symbol)
    (labels : ∀ dependency ∈ dependencies,
      Labels symbol (graph.edgesBetween dependency.source dependency.target))
    {other : String} {bit : Int} (carries : graph.Carries source target other bit) :
    (dependencies.foldl addDependency graph).Carries source target other bit := by
  have ofSymbol : ∀ note ∈ graph.annotationsBetween source target dependencies,
      note.symbol = symbol := by
    intro note member
    obtain ⟨dependency, inList, _, _, rfl⟩ := mem_annotationsBetween.mp member
    exact only dependency inList
  have ready : graph.annotationsBetween source target dependencies ≠ [] →
      Labels symbol (graph.edgesBetween source target) := by
    intro some
    obtain ⟨note, member⟩ := List.exists_mem_of_ne_nil _ some
    obtain ⟨dependency, inList, rfl, rfl, _⟩ := mem_annotationsBetween.mp member
    exact labels dependency inList
  unfold Carries at carries ⊢
  rw [edgesBetween_addDependencies]
  generalize graph.edgesBetween source target = edges at carries ready
  generalize graph.annotationsBetween source target dependencies = notes at ofSymbol ready
  induction notes generalizing edges with
  | nil => exact carries
  | cons note rest ih =>
      obtain ⟨rfl, restOf⟩ := List.forall_mem_cons.mp ofSymbol
      obtain ⟨kept, carriesOn⟩ := (ready (List.cons_ne_nil _ _)).annotate
      exact ih _ (carriesOn other bit carries) restOf fun _ => kept

end NetlistGraph

namespace NetlistBuilder

/-- The later builder has the same nodes and tables, and the edges that the dependencies add. -/
structure OnlyAdds (builder next : NetlistBuilder) (dependencies : List Dependency) : Prop where
  nodes : next.graph.nodes = builder.graph.nodes
  variableTracker : next.variableTracker = builder.variableTracker
  driverMap : next.driverMap = builder.driverMap
  drivers : next.drivers = builder.drivers
  edges : ∀ source target, next.graph.edgesBetween source target =
    (dependencies.foldl NetlistGraph.addDependency builder.graph).edgesBetween source target

/-- The dependencies of a node on the drivers of a list. -/
def driverDependencies (drivers : DriverList) (target : NodeRef) (symbol : ValueSymbol)
    (bounds : DriverBitRange) (semantics : EdgeSemantics) : List Dependency :=
  drivers.filterMap fun driver => driver.node.map fun source =>
    { source := source, target := target, symbol := symbol.hierarchicalPath,
      bounds := bounds, semantics := semantics }

/-- The dependencies of the output port on the drivers of a list. -/
def portDependencies (builder : NetlistBuilder) (symbol : ValueSymbol) (bounds : DriverBitRange)
    (drivers : DriverList) : List Dependency :=
  match builder.outputPort symbol bounds with
  | some portNode => driverDependencies drivers portNode symbol bounds
      { role := .portConnection, precision := .range }
  | none => []

/-- The dependencies of the nodes of interface variables on a driver. -/
def refDependencies (builder : NetlistBuilder) (source : NodeRef) (symbol : ValueSymbol)
    (refs : List (ValueSymbol × DriverBitRange)) : List Dependency :=
  refs.filterMap fun (var, varBounds) => (builder.getVariable var.id varBounds).map fun varNode =>
    { source := source, target := varNode, symbol := symbol.hierarchicalPath,
      bounds := varBounds }

/-- The dependencies of the variable nodes that a driver writes directly. -/
def hookupDependencies (resolveInterfaceRef : InterfaceRefs) (builder : NetlistBuilder)
    (symbol : ValueSymbol) (bounds : DriverBitRange) (driver : DriverInfo) : List Dependency :=
  driver.node.toList.flatMap fun source =>
    match symbol.kind with
    | .modportPort => builder.refDependencies source symbol
        (driver.lsp.toList.flatMap (resolveInterfaceRef symbol))
    | .variable => (builder.getVariable symbol.id bounds).toList.map fun varNode =>
        { source := source, target := varNode, symbol := symbol.hierarchicalPath,
          bounds := (builder.graph.getBounds varNode).getD bounds }
    | _ => []

variable {builder middle next : NetlistBuilder} {dependencies front back : List Dependency}

namespace OnlyAdds

theorem refl (builder : NetlistBuilder) : OnlyAdds builder builder [] :=
  ⟨rfl, rfl, rfl, rfl, fun _ _ => rfl⟩

theorem getBounds (only : OnlyAdds builder next dependencies) (ref : NodeRef) :
    next.graph.getBounds ref = builder.graph.getBounds ref := by
  simp only [NetlistGraph.getBounds, NetlistGraph.node?, only.nodes]

theorem getVariable (only : OnlyAdds builder next dependencies) (symbol : Nat)
    (bounds : DriverBitRange) : next.getVariable symbol bounds = builder.getVariable symbol bounds :=
  congrArg (·.lookup symbol bounds) only.variableTracker

theorem outputPort (only : OnlyAdds builder next dependencies) (symbol : ValueSymbol)
    (bounds : DriverBitRange) : next.outputPort symbol bounds = builder.outputPort symbol bounds := by
  simp only [NetlistBuilder.outputPort, only.getVariable, only.getBounds, only.variableTracker]

theorem hookupDependencies (only : OnlyAdds builder next dependencies)
    (resolveInterfaceRef : InterfaceRefs) (symbol : ValueSymbol) (bounds : DriverBitRange)
    (driver : DriverInfo) :
    NetlistBuilder.hookupDependencies resolveInterfaceRef next symbol bounds driver =
      NetlistBuilder.hookupDependencies resolveInterfaceRef builder symbol bounds driver := by
  simp only [NetlistBuilder.hookupDependencies, refDependencies, only.getVariable, only.getBounds]

/-- The annotations that dependencies make depend on the nodes only. -/
theorem annotationsBetween (only : OnlyAdds builder next dependencies) (source target : NodeRef)
    (later : List Dependency) :
    next.graph.annotationsBetween source target later =
      builder.graph.annotationsBetween source target later := by
  have same : next.graph.annotationOf = builder.graph.annotationOf := by
    funext dependency
    simp only [NetlistGraph.annotationOf, only.getBounds]
  rw [NetlistGraph.annotationsBetween, NetlistGraph.annotationsBetween, same]

theorem trans (first : OnlyAdds builder middle front) (second : OnlyAdds middle next back) :
    OnlyAdds builder next (front ++ back) := by
  refine ⟨second.nodes.trans first.nodes, second.variableTracker.trans first.variableTracker,
    second.driverMap.trans first.driverMap, second.drivers.trans first.drivers,
    fun source target => ?_⟩
  have split : builder.graph.annotationsBetween source target (front ++ back) =
      builder.graph.annotationsBetween source target front ++
        builder.graph.annotationsBetween source target back := by
    simp [NetlistGraph.annotationsBetween]
  rw [second.edges, NetlistGraph.edgesBetween_addDependencies, first.edges,
    first.annotationsBetween, NetlistGraph.edgesBetween_addDependencies,
    NetlistGraph.edgesBetween_addDependencies, split, List.foldl_append]

theorem joined (only : OnlyAdds builder next dependencies) (source target : NodeRef) :
    next.graph.Joined source target ↔ builder.graph.Joined source target ∨
      ∃ dependency ∈ dependencies, dependency.source = source ∧ dependency.target = target := by
  rw [NetlistGraph.Joined, only.edges]
  exact NetlistGraph.joined_addDependencies

/-- Dependencies for one symbol add their clipped ranges to what the symbol is carried on. -/
theorem carries (only : OnlyAdds builder next dependencies) {symbol : String}
    (ofSymbol : ∀ dependency ∈ dependencies, dependency.symbol = symbol)
    (source target : NodeRef) (bit : Int) :
    next.graph.Carries source target symbol bit ↔
      builder.graph.Carries source target symbol bit ∨
        ∃ dependency ∈ dependencies, dependency.source = source ∧ dependency.target = target ∧
          bit ∈ NetlistGraph.clip (builder.graph.getBounds source) dependency.bounds := by
  rw [NetlistGraph.Carries, only.edges]
  exact NetlistGraph.carries_addDependencies ofSymbol builder.graph source target bit

/-! ## The operations -/

theorem addDependency (builder : NetlistBuilder) (dependency : Dependency) :
    OnlyAdds builder (builder.addDependency dependency) [dependency] :=
  ⟨NetlistGraph.nodes_addDependency _ _, rfl, rfl, rfl, fun _ _ => rfl⟩

theorem internSymbol (builder : NetlistBuilder) (symbol : ValueSymbol) :
    OnlyAdds builder (builder.internSymbol symbol) [] :=
  ⟨NetlistGraph.nodes_toSymbolRef _ symbol, rfl, rfl, rfl, fun source target =>
    NetlistGraph.edgesBetween_toSymbolRef builder.graph symbol source target⟩

theorem connectDrivers (builder : NetlistBuilder) (drivers : DriverList) (target : NodeRef)
    (symbol : ValueSymbol) (bounds : DriverBitRange) (semantics : EdgeSemantics) :
    OnlyAdds builder (builder.connectDrivers drivers target symbol bounds semantics)
      (driverDependencies drivers target symbol bounds semantics) := by
  unfold NetlistBuilder.connectDrivers driverDependencies
  induction drivers generalizing builder with
  | nil => exact refl builder
  | cons driver rest ih =>
      rw [List.foldl_cons, List.filterMap_cons]
      cases found : driver.node with
      | none => exact ih builder
      | some source => exact (addDependency builder _).trans (ih _)

theorem enqueueSensitivity (builder : NetlistBuilder) (stateNode : NodeRef)
    (sensitivity : List SensitivityEntry) :
    OnlyAdds builder (builder.enqueueSensitivity stateNode sensitivity) [] := by
  unfold NetlistBuilder.enqueueSensitivity
  induction sensitivity generalizing builder with
  | nil => exact refl builder
  | cons entry rest ih =>
      rw [List.foldl_cons]
      split
      · exact ih builder
      · have enqueued := ih (builder.enqueue
          { symbol := entry.signal
            bounds := ⟨0, (entry.signal.selectableWidth : Int) - 1⟩
            lsp := entry.lsp
            node := some stateNode
            semantics := { edgeKind := entry.edgeKind } })
        exact ⟨enqueued.nodes, enqueued.variableTracker, enqueued.driverMap, enqueued.drivers,
          enqueued.edges⟩

theorem hookupOutputPort (builder : NetlistBuilder) (symbol : ValueSymbol)
    (bounds : DriverBitRange) (drivers : DriverList) :
    OnlyAdds builder (builder.hookupOutputPort symbol bounds drivers)
      (builder.portDependencies symbol bounds drivers) := by
  unfold NetlistBuilder.hookupOutputPort portDependencies
  cases builder.outputPort symbol bounds with
  | none => exact refl builder
  | some portNode => exact connectDrivers builder drivers portNode symbol bounds _

/-- The loop over the interface variables behind a modport port. -/
theorem connectRefs (builder : NetlistBuilder) (node : NodeRef) (symbol : ValueSymbol)
    (refs : List (ValueSymbol × DriverBitRange)) :
    OnlyAdds builder
      (refs.foldl (fun builder (var, varBounds) =>
        match builder.getVariable var.id varBounds with
        | some varNode => builder.addDependency
            { source := node, target := varNode, symbol := symbol.hierarchicalPath,
              bounds := varBounds }
        | none => builder) builder)
      (builder.refDependencies node symbol refs) := by
  unfold refDependencies
  induction refs generalizing builder with
  | nil => exact refl builder
  | cons ref rest ih =>
      obtain ⟨var, varBounds⟩ := ref
      cases found : builder.getVariable var.id varBounds with
      | none =>
          simp only [List.foldl_cons, List.filterMap_cons, found, Option.map_none]
          exact ih builder
      | some varNode =>
          have first := addDependency builder
            { source := node, target := varNode, symbol := symbol.hierarchicalPath,
              bounds := varBounds }
          have later := ih (builder.addDependency
            { source := node, target := varNode, symbol := symbol.hierarchicalPath,
              bounds := varBounds })
          simp only [first.getVariable] at later
          simp only [List.foldl_cons, List.filterMap_cons, found, Option.map_some]
          exact first.trans later

/-- The hookup of a driver adds the edges to the variable nodes that are looked up. -/
theorem hookupVariables {resolveInterfaceRef : InterfaceRefs} {symbol : ValueSymbol}
    {bounds : DriverBitRange} {driver : DriverInfo}
    (hooked : hookupVariables resolveInterfaceRef symbol bounds builder driver = some next) :
    OnlyAdds builder next
      (NetlistBuilder.hookupDependencies resolveInterfaceRef builder symbol bounds driver) := by
  unfold NetlistBuilder.hookupVariables at hooked
  unfold NetlistBuilder.hookupDependencies
  cases found : driver.node with
  | none =>
      simp only [found] at hooked
      cases hooked
      exact refl builder
  | some source =>
      simp only [found] at hooked
      simp only [Option.toList_some, List.flatMap_cons, List.flatMap_nil, List.append_nil]
      cases kind : symbol.kind with
      | modportPort =>
          simp only [kind, Option.bind_eq_bind, Option.bind_eq_some_iff, Option.some.injEq]
            at hooked
          obtain ⟨lsp, given, rfl⟩ := hooked
          simp only [given, Option.toList_some, List.flatMap_cons, List.flatMap_nil,
            List.append_nil]
          exact connectRefs builder source symbol (resolveInterfaceRef symbol lsp)
      | «variable» =>
          simp only [kind] at hooked
          cases looked : builder.getVariable symbol.id bounds with
          | none =>
              simp only [looked] at hooked
              cases hooked
              exact refl builder
          | some varNode =>
              simp only [looked, Option.bind_eq_bind, Option.bind_eq_some_iff, Option.some.injEq]
                at hooked
              obtain ⟨varBounds, own, rfl⟩ := hooked
              simp only [own, Option.toList_some, List.map_cons, List.map_nil, Option.getD_some]
              exact addDependency builder _
      | net | other =>
          simp only [kind] at hooked
          cases hooked
          exact refl builder

/-- The last loop of `mergeDrivers`. -/
theorem hookupDrivers {resolveInterfaceRef : InterfaceRefs} {symbol : ValueSymbol}
    {bounds : DriverBitRange} {drivers : DriverList}
    (hooked : drivers.foldlM
      (NetlistBuilder.hookupVariables resolveInterfaceRef symbol bounds) builder = some next) :
    OnlyAdds builder next (drivers.flatMap
      (NetlistBuilder.hookupDependencies resolveInterfaceRef builder symbol bounds)) := by
  induction drivers generalizing builder with
  | nil =>
      cases hooked
      exact refl _
  | cons driver rest ih =>
      obtain ⟨middle, first, hooked⟩ := foldlM_cons_eq_some.mp hooked
      have firstAdds := hookupVariables first
      have later := ih hooked
      rw [funext (firstAdds.hookupDependencies resolveInterfaceRef symbol bounds)] at later
      exact firstAdds.trans later

end OnlyAdds

/-! ## Members of the lists -/

theorem mem_driverDependencies {drivers : DriverList} {target : NodeRef} {symbol : ValueSymbol}
    {bounds : DriverBitRange} {semantics : EdgeSemantics} {dependency : Dependency} :
    dependency ∈ driverDependencies drivers target symbol bounds semantics ↔
      some dependency.source ∈ drivers.nodes ∧ dependency =
        { source := dependency.source, target := target, symbol := symbol.hierarchicalPath,
          bounds := bounds, semantics := semantics } := by
  simp only [driverDependencies, List.mem_filterMap, Option.map_eq_some_iff, DriverList.mem_nodes]
  constructor
  · rintro ⟨driver, member, source, found, rfl⟩
    exact ⟨⟨driver, member, found⟩, rfl⟩
  · rintro ⟨⟨driver, member, found⟩, same⟩
    exact ⟨driver, member, _, found, same.symm⟩

theorem mem_portDependencies {symbol : ValueSymbol} {bounds : DriverBitRange}
    {drivers : DriverList} {dependency : Dependency} :
    dependency ∈ builder.portDependencies symbol bounds drivers ↔
      builder.outputPort symbol bounds = some dependency.target ∧
        some dependency.source ∈ drivers.nodes ∧ dependency =
          { source := dependency.source, target := dependency.target,
            symbol := symbol.hierarchicalPath, bounds := bounds,
            semantics := { role := .portConnection, precision := .range } } := by
  unfold portDependencies
  cases builder.outputPort symbol bounds with
  | none => simp
  | some portNode =>
      simp only [mem_driverDependencies, Option.some.injEq]
      constructor
      · rintro ⟨driver, same⟩
        rw [same]
        exact ⟨rfl, driver, rfl⟩
      · rintro ⟨rfl, driver, same⟩
        exact ⟨driver, same⟩

theorem mem_refDependencies {source : NodeRef} {symbol : ValueSymbol}
    {refs : List (ValueSymbol × DriverBitRange)} {dependency : Dependency} :
    dependency ∈ builder.refDependencies source symbol refs ↔
      ∃ ref ∈ refs, builder.getVariable ref.1.id ref.2 = some dependency.target ∧ dependency =
        { source := source, target := dependency.target, symbol := symbol.hierarchicalPath,
          bounds := ref.2 } := by
  simp only [refDependencies, List.mem_filterMap, Option.map_eq_some_iff]
  constructor
  · rintro ⟨ref, member, varNode, found, rfl⟩
    exact ⟨ref, member, found, rfl⟩
  · rintro ⟨ref, member, found, same⟩
    exact ⟨ref, member, _, found, same.symm⟩

/-- All dependencies of a hookup have the symbol of the driver. -/
theorem symbol_of_mem_hookupDependencies {resolveInterfaceRef : InterfaceRefs}
    {symbol : ValueSymbol} {bounds : DriverBitRange} {driver : DriverInfo} {dependency : Dependency}
    (member : dependency ∈
      hookupDependencies resolveInterfaceRef builder symbol bounds driver) :
    dependency.symbol = symbol.hierarchicalPath ∧ driver.node = some dependency.source := by
  obtain ⟨source, found, member⟩ := List.mem_flatMap.mp member
  rw [Option.mem_toList] at found
  split at member
  · obtain ⟨_, _, _, same⟩ := mem_refDependencies.mp member
    rw [same]
    exact ⟨rfl, found⟩
  · obtain ⟨_, _, rfl⟩ := List.mem_map.mp member
    exact ⟨rfl, found⟩
  · cases member

end NetlistBuilder

end SlangNetlist
