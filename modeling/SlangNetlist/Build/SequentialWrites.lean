import SlangNetlist.Build.AddedEdges

/-!
# Sequential writes

What `mergeDrivers` does for the driven intervals of a sequential block: a
State node for each interval, with its edges, and then the edges of the last
loop from the drivers to variable nodes, whether or not there is a State node
between them.
-/

namespace SlangNetlist

open Library

namespace VariableTracker

variable {tracker : VariableTracker} {symbol : Nat} {bounds : DriverBitRange} {node : NodeRef}

theorem find?_insertEntry (test : Interval NodeRef → Bool) (entry : Interval NodeRef)
    (entries : List (Interval NodeRef)) :
    (IntervalMap.insertEntry entry entries).find? test = entries.find? test ∨
      (IntervalMap.insertEntry entry entries).find? test = some entry := by
  induction entries with
  | nil =>
      rw [IntervalMap.insertEntry]
      cases found : test entry <;> simp [found]
  | cons head rest ih =>
      rw [IntervalMap.insertEntry]
      split
      · cases found : test entry <;> simp [found]
      · rw [List.find?_cons, List.find?_cons]
        cases test head with
        | true => exact Or.inl rfl
        | false => exact ih

/-- A lookup finds the node that it found before, or the inserted one. -/
theorem lookup_insert (inserted : DriverBitRange) (other : Nat) :
    (tracker.insert symbol inserted node).lookup other bounds = tracker.lookup other bounds ∨
      (tracker.insert symbol inserted node).lookup other bounds = some node := by
  by_cases same : other = symbol
  · subst same
    simp only [lookup, insert, if_true, IntervalMap.find, IntervalMap.insert, List.find?_filter]
    exact (find?_insertEntry _ _ _).imp (congrArg (Option.map Interval.value))
      (congrArg (Option.map Interval.value))
  · exact Or.inl (lookup_insert_of_ne same inserted)

end VariableTracker

namespace NetlistGraph

variable {graph : NetlistGraph}

/-- The node at an address is not one of the graph. -/
def New (graph : NetlistGraph) (ref : NodeRef) : Prop := graph.node? ref = none

instance (graph : NetlistGraph) (ref : NodeRef) : Decidable (graph.New ref) :=
  inferInstanceAs (Decidable (_ = none))

theorem new_iff {ref : NodeRef} : graph.New ref ↔ ∀ node ∈ graph.nodes, node.ref ≠ ref := by
  simp [New, node?]

end NetlistGraph

namespace NetlistBuilder

/-- The variable nodes that are looked up for a driver. -/
def hookupTargets (resolveInterfaceRef : InterfaceRefs) (builder : NetlistBuilder)
    (symbol : ValueSymbol) (bounds : DriverBitRange) (driver : DriverInfo) : List NodeRef :=
  match symbol.kind with
  | .modportPort =>
      (driver.lsp.toList.flatMap (resolveInterfaceRef symbol)).filterMap
        fun (var, varBounds) => builder.getVariable var.id varBounds
  | .variable => (builder.getVariable symbol.id bounds).toList
  | _ => []

/-- A node of the variable whose bounds overlap the range. -/
structure VariableNode (builder : NetlistBuilder) (var : ValueSymbol) (bounds : DriverBitRange)
    (ref : NodeRef) : Prop where
  registered : ref ∈ builder.variableTracker.lookupAll var.id
  overlapping : ∃ node, builder.graph.node? ref = some node ∧ node.data.kind = .variable ∧
    ∃ own, node.data.getBounds = some own ∧ own.overlaps bounds = true

variable {builder middle next : NetlistBuilder}

/-- The hookup of a driver joins it to the variable nodes that are looked up. -/
theorem joins_hookupDependencies {resolveInterfaceRef : InterfaceRefs} {symbol : ValueSymbol}
    {bounds : DriverBitRange} {driver : DriverInfo} {source target : NodeRef} :
    (∃ dependency ∈ hookupDependencies resolveInterfaceRef builder symbol bounds driver,
        dependency.source = source ∧ dependency.target = target) ↔
      driver.node = some source ∧
        target ∈ hookupTargets resolveInterfaceRef builder symbol bounds driver := by
  unfold hookupDependencies hookupTargets
  cases found : driver.node with
  | none => simp
  | some node =>
      simp only [Option.toList_some, List.flatMap_cons, List.flatMap_nil, List.append_nil,
        Option.some.injEq]
      cases symbol.kind with
      | modportPort =>
          simp only [refDependencies, List.mem_filterMap, Option.map_eq_some_iff]
          constructor
          · rintro ⟨dependency, ⟨ref, member, varNode, looked, rfl⟩, rfl, rfl⟩
            exact ⟨rfl, ref, member, looked⟩
          · rintro ⟨rfl, ref, member, looked⟩
            exact ⟨_, ⟨ref, member, target, looked, rfl⟩, rfl, rfl⟩
      | «variable» =>
          simp only [List.mem_map, Option.mem_toList]
          constructor
          · rintro ⟨_, ⟨varNode, looked, rfl⟩, rfl, rfl⟩
            exact ⟨rfl, looked⟩
          · rintro ⟨rfl, looked⟩
            exact ⟨_, ⟨target, looked, rfl⟩, rfl, rfl⟩
      | net | other => simp

/-! ## One interval of a sequential block -/

/-- A State node is added to the nodes, and no edge. -/
theorem createState_graph (builder : NetlistBuilder) (task : Nat) (symbol : ValueSymbol)
    (bounds : DriverBitRange) :
    ∃ node : NetlistNode, node.ref = builder.freshRef task .state ∧
      (∃ name location, node.data = .state name symbol.hierarchicalPath location bounds) ∧
      (builder.createState task symbol bounds).2.graph.nodes = builder.graph.nodes ++ [node] ∧
      ∀ source target, (builder.createState task symbol bounds).2.graph.edgesBetween source target =
        builder.graph.edgesBetween source target := by
  let reference := (builder.graph.toSymbolRef symbol).1
  refine ⟨⟨builder.freshRef task .state, builder.nextID,
    .state reference.name reference.hierarchicalPath reference.location bounds⟩, rfl,
    ⟨reference.name, reference.location, ?_⟩, ?_, fun source target => ?_⟩
  · rw [NetlistGraph.hierarchicalPath_toSymbolRef]
  · simp only [createState, NetlistGraph.addNode, NetlistGraph.nodes_toSymbolRef, reference]
  · exact NetlistGraph.edgesBetween_toSymbolRef builder.graph symbol source target

theorem le_foldr_max {number : Nat} {numbers : List Nat} (member : number ∈ numbers) :
    number ≤ numbers.foldr max 0 := by
  induction numbers with
  | nil => cases member
  | cons head rest ih =>
      rw [List.foldr_cons]
      rcases List.mem_cons.mp member with rfl | later
      · exact le_max_left _ _
      · exact (ih later).trans (le_max_right _ _)

/-- The address of a new node is not one of the graph. -/
theorem new_freshRef (builder : NetlistBuilder) (task : Nat) (kind : NodeKind) :
    builder.graph.New (builder.freshRef task kind) := by
  rw [NetlistGraph.new_iff]
  intro node member same
  have ours : node.ref.task = task ∧ node.ref.kind = kind := by simp [same, freshRef]
  have bounded := @le_foldr_max node.ref.serial
    (((builder.graph.nodes.map NetlistNode.ref).filter fun ref =>
      ref.task = task ∧ ref.kind = kind).map NodeRef.serial)
    (List.mem_map_of_mem (List.mem_filter.mpr ⟨List.mem_map_of_mem member, by simpa using ours⟩))
  have serial : node.ref.serial = _ + 1 := congrArg NodeRef.serial same
  omega

/-- The dependencies of the State node on the drivers, and of the output port on the State node. -/
def stateDependencies (task : Nat) (builder : NetlistBuilder) (write : BlockWrite) :
    List Dependency :=
  driverDependencies write.drivers (builder.freshRef task .state) write.symbol write.bounds {} ++
    (builder.createState task write.symbol write.bounds).2.portDependencies write.symbol
      write.bounds [{ node := some (builder.freshRef task .state) }]

/-- The State node of an interval is connected to the drivers and to the output port. -/
theorem OnlyAdds.mergeState (builder : NetlistBuilder) (task : Nat)
    (sensitivity : List SensitivityEntry) (write : BlockWrite) :
    OnlyAdds (builder.createState task write.symbol write.bounds).2
      (builder.mergeState task sensitivity write) (builder.stateDependencies task write) := by
  have toState := OnlyAdds.connectDrivers (builder.createState task write.symbol write.bounds).2
    write.drivers (builder.freshRef task .state) write.symbol write.bounds {}
  have toClocks := toState.trans (OnlyAdds.enqueueSensitivity _ (builder.freshRef task .state)
    sensitivity)
  have toPort := toClocks.trans (OnlyAdds.hookupOutputPort _ write.symbol write.bounds
    [{ node := some (builder.freshRef task .state) }])
  rw [portDependencies, toClocks.outputPort, List.append_nil] at toPort
  exact toPort

/-- What a sequential block adds for one driven interval. -/
def sequentialDependencies (task : Nat) (resolveInterfaceRef : InterfaceRefs)
    (builder : NetlistBuilder) (write : BlockWrite) : List Dependency :=
  builder.stateDependencies task write ++ write.drivers.flatMap
    (hookupDependencies resolveInterfaceRef (builder.createState task write.symbol write.bounds).2
      write.symbol write.bounds)

/-- What a sequential block does for one driven interval. -/
theorem mergeWrite_sequential {task : Nat} {resolveInterfaceRef : InterfaceRefs}
    {sensitivity : List SensitivityEntry} (sequential : sensitivity ≠ []) {write : BlockWrite}
    (merged : builder.mergeWrite task resolveInterfaceRef sensitivity write = some next) :
    OnlyAdds (builder.createState task write.symbol write.bounds).2 next
      (builder.sequentialDependencies task resolveInterfaceRef write) := by
  simp only [mergeWrite, if_neg sequential, Option.bind_eq_bind, Option.bind_some] at merged
  have state := OnlyAdds.mergeState builder task sensitivity write
  have hooked := OnlyAdds.hookupDrivers merged
  rw [funext (state.hookupDependencies resolveInterfaceRef write.symbol write.bounds)] at hooked
  exact state.trans hooked

/-- All dependencies of an interval have its symbol. -/
theorem symbol_of_mem_sequential {task : Nat} {resolveInterfaceRef : InterfaceRefs}
    {write : BlockWrite} : ∀ dependency ∈ builder.sequentialDependencies task resolveInterfaceRef
      write, dependency.symbol = write.symbol.hierarchicalPath := by
  intro dependency member
  rcases List.mem_append.mp member with state | hooked
  · rcases List.mem_append.mp state with driven | port
    · rw [(mem_driverDependencies.mp driven).2]
    · rw [(mem_portDependencies.mp port).2.2]
  · obtain ⟨driver, _, inDriver⟩ := List.mem_flatMap.mp hooked
    exact (symbol_of_mem_hookupDependencies inDriver).1

/-- The edges of one interval, by the nodes that they join. -/
def JoinsFor (task : Nat) (resolveInterfaceRef : InterfaceRefs) (builder : NetlistBuilder)
    (write : BlockWrite) (source target : NodeRef) : Prop :=
  (target = builder.freshRef task .state ∧ some source ∈ write.drivers.nodes ∨
    source = builder.freshRef task .state ∧
      (builder.createState task write.symbol write.bounds).2.outputPort write.symbol
        write.bounds = some target) ∨
  ∃ driver ∈ write.drivers, driver.node = some source ∧
    target ∈ hookupTargets resolveInterfaceRef
      (builder.createState task write.symbol write.bounds).2 write.symbol write.bounds driver

theorem joins_sequentialDependencies {task : Nat} {resolveInterfaceRef : InterfaceRefs}
    {write : BlockWrite} {source target : NodeRef} :
    (∃ dependency ∈ builder.sequentialDependencies task resolveInterfaceRef write,
        dependency.source = source ∧ dependency.target = target) ↔
      JoinsFor task resolveInterfaceRef builder write source target := by
  have single (node : NodeRef) : some node ∈
      DriverList.nodes [{ node := some (builder.freshRef task .state) }] ↔
        node = builder.freshRef task .state := by simp [DriverList.nodes]
  simp only [sequentialDependencies, stateDependencies, List.mem_append, or_and_right, exists_or,
    JoinsFor]
  refine or_congr (or_congr ⟨?_, ?_⟩ ⟨?_, ?_⟩) ?_
  · rintro ⟨dependency, member, rfl, rfl⟩
    obtain ⟨driver, same⟩ := mem_driverDependencies.mp member
    rw [same]
    exact ⟨rfl, driver⟩
  · rintro ⟨rfl, driver⟩
    exact ⟨
      { source := source, target := builder.freshRef task .state,
        symbol := write.symbol.hierarchicalPath, bounds := write.bounds },
      mem_driverDependencies.mpr ⟨driver, rfl⟩, rfl, rfl⟩
  · rintro ⟨dependency, member, rfl, rfl⟩
    obtain ⟨port, state, _⟩ := mem_portDependencies.mp member
    exact ⟨(single _).mp state, port⟩
  · rintro ⟨rfl, port⟩
    exact ⟨
      { source := builder.freshRef task .state, target := target,
        symbol := write.symbol.hierarchicalPath, bounds := write.bounds,
        semantics := { role := .portConnection, precision := .range } },
      mem_portDependencies.mpr ⟨port, (single _).mpr rfl, rfl⟩, rfl, rfl⟩
  · simp only [← joins_hookupDependencies, List.mem_flatMap]
    constructor
    · rintro ⟨dependency, ⟨driver, driverMem, member⟩, ends⟩
      exact ⟨driver, driverMem, dependency, member, ends⟩
    · rintro ⟨driver, driverMem, dependency, member, ends⟩
      exact ⟨dependency, ⟨driver, driverMem, member⟩, ends⟩

/-! ## A whole block -/

/-- What the run of a sequential block keeps. -/
structure Registering (before middle : NetlistBuilder) : Prop where
  states : ∃ created, middle.graph.nodes = before.graph.nodes ++ created ∧
    ∀ node ∈ created, before.graph.New node.ref ∧ node.data.kind = .state
  joined : ∀ source target, before.graph.Joined source target → middle.graph.Joined source target
  driverMap : middle.driverMap = before.driverMap
  drivers : middle.drivers = before.drivers
  lookups : ∀ symbol bounds, middle.getVariable symbol bounds = before.getVariable symbol bounds ∨
    ∃ state, middle.getVariable symbol bounds = some state ∧ before.graph.New state

theorem Registering.refl (builder : NetlistBuilder) : Registering builder builder :=
  ⟨⟨[], (List.append_nil _).symm, fun _ member => absurd member List.not_mem_nil⟩,
    fun _ _ => id, rfl, rfl, fun _ _ => Or.inl rfl⟩

variable {before after : NetlistBuilder} {task : Nat} {resolveInterfaceRef : InterfaceRefs}
  {sensitivity : List SensitivityEntry} {write : BlockWrite} {writes : List BlockWrite}

/-- A node that is new to a larger graph is new to a smaller one. -/
theorem Registering.new (registering : Registering before middle) {ref : NodeRef}
    (isNew : middle.graph.New ref) : before.graph.New ref := by
  obtain ⟨created, nodes, _⟩ := registering.states
  rw [NetlistGraph.new_iff] at isNew ⊢
  intro node member
  exact isNew node (nodes ▸ List.mem_append_left created member)

theorem Registering.trans (first : Registering before middle) (second : Registering middle next) :
    Registering before next := by
  obtain ⟨created, nodes, states⟩ := first.states
  obtain ⟨more, moreNodes, moreStates⟩ := second.states
  refine ⟨⟨created ++ more, by rw [moreNodes, nodes, List.append_assoc], ?_⟩, ?_,
    second.driverMap.trans first.driverMap, second.drivers.trans first.drivers, ?_⟩
  · intro node member
    rcases List.mem_append.mp member with early | late
    · exact states node early
    · exact ⟨first.new (moreStates node late).1, (moreStates node late).2⟩
  · exact fun source target joined => second.joined source target (first.joined source target joined)
  · intro symbol bounds
    rcases second.lookups symbol bounds with same | ⟨state, found, isNew⟩
    · rw [same]
      exact first.lookups symbol bounds
    · exact Or.inr ⟨state, found, first.new isNew⟩

/-- One interval of a sequential block. -/
theorem Registering.step (sequential : sensitivity ≠ [])
    (merged : before.mergeWrite task resolveInterfaceRef sensitivity write = some next) :
    Registering before next := by
  have only := mergeWrite_sequential sequential merged
  obtain ⟨node, ref, data, nodes, same⟩ := createState_graph before task write.symbol write.bounds
  refine ⟨⟨[node], only.nodes.trans nodes, ?_⟩, ?_, only.driverMap, only.drivers, ?_⟩
  · intro other member
    obtain rfl := List.mem_singleton.mp member
    obtain ⟨_, _, data⟩ := data
    exact ⟨ref ▸ new_freshRef before task .state, by rw [data]; rfl⟩
  · intro source target joined
    refine (only.joined source target).mpr (Or.inl ?_)
    rwa [NetlistGraph.Joined, same]
  · intro symbol bounds
    rw [only.getVariable]
    have looked := @VariableTracker.lookup_insert before.variableTracker write.symbol.id bounds
      (before.freshRef task .state) write.bounds symbol
    exact looked.imp id fun found => ⟨_, found, new_freshRef before task .state⟩

theorem Registering.run (sequential : sensitivity ≠ [])
    (merged : writes.foldlM (mergeWrite task resolveInterfaceRef sensitivity) before = some after) :
    Registering before after :=
  holds_of_foldlM (Registering before) (Registering.refl _)
    (fun _ _ _ _ registering stepped => registering.trans (Registering.step sequential stepped))
    merged

theorem joined_mergeWrite (sequential : sensitivity ≠ [])
    (merged : before.mergeWrite task resolveInterfaceRef sensitivity write = some next)
    (source target : NodeRef) :
    next.graph.Joined source target ↔ before.graph.Joined source target ∨
      JoinsFor task resolveInterfaceRef before write source target := by
  obtain ⟨_, _, _, _, same⟩ := createState_graph before task write.symbol write.bounds
  rw [(mergeWrite_sequential sequential merged).joined, joins_sequentialDependencies,
    NetlistGraph.Joined, same]
  exact Iff.rfl

/-- The edges after a run are those before it and those of its intervals. -/
theorem joined_run (sequential : sensitivity ≠ [])
    (merged : writes.foldlM (mergeWrite task resolveInterfaceRef sensitivity) before = some after)
    (source target : NodeRef) :
    after.graph.Joined source target ↔ before.graph.Joined source target ∨
      ∃ front write back middle, writes = front ++ write :: back ∧
        front.foldlM (mergeWrite task resolveInterfaceRef sensitivity) before = some middle ∧
        JoinsFor task resolveInterfaceRef middle write source target := by
  induction writes generalizing before with
  | nil =>
      cases merged
      simp
  | cons write rest ih =>
      obtain ⟨middle, stepped, merged⟩ := foldlM_cons_eq_some.mp merged
      rw [ih merged, joined_mergeWrite sequential stepped, or_assoc]
      refine or_congr_right ⟨?_, ?_⟩
      · rintro (here | ⟨front, later, back, reached, rfl, ran, joins⟩)
        · exact ⟨[], write, rest, before, rfl, rfl, here⟩
        · refine ⟨write :: front, later, back, reached, rfl, ?_, joins⟩
          rw [List.foldlM_cons, stepped]
          exact ran
      · rintro ⟨front, later, back, reached, split, ran, joins⟩
        cases front with
        | nil =>
            cases split
            cases ran
            exact Or.inl joins
        | cons first others =>
            cases split
            rw [List.foldlM_cons, stepped] at ran
            exact Or.inr ⟨others, later, back, reached, rfl, ran, joins⟩

/-- An R-value gets a new State node or what it got before the block. -/
theorem Registering.readers (registering : Registering before after) {pending : PendingRvalue}
    {node : NodeRef} {dependencies : List Dependency}
    (emitted : after.emissions pending node = some dependencies) :
    before.emissions pending node = some dependencies ∨
      ∀ dependency ∈ dependencies, before.graph.New dependency.source := by
  rcases registering.lookups pending.symbol.id pending.bounds with same | ⟨state, found, isNew⟩
  · refine Or.inl (Eq.trans ?_ emitted)
    simp only [emissions, same, registering.driverMap, registering.drivers]
  · simp only [emissions, found, Option.some.injEq] at emitted
    refine Or.inr fun dependency member => ?_
    rw [← emitted] at member
    obtain rfl := List.mem_singleton.mp member
    exact isNew

/-- The variable `x` of an interface. -/
def interfaceVariable : ValueSymbol := { id := 7, name := "x", hierarchicalPath := "m.bus.x" }

/-- A netlist with the node of `x[7:0]` and the assignment node of a block. -/
def interfaceBuilder : NetlistBuilder where
  graph :=
    { nodes := [
        { ref := ⟨0, .variable, 0⟩, ID := 1, data := .variable "x" "m.bus.x" {} ⟨0, 7⟩ },
        { ref := ⟨1, .assignment, 0⟩, ID := 2, data := .assignment {} }] }
  variableTracker := ({} : VariableTracker).insert 7 ⟨0, 7⟩ ⟨0, .variable, 0⟩
  nextID := 3

/-- The drivers of `always_ff @(posedge clk) bus.x <= d;`. -/
def interfaceSlots : List (ValueSymbol × DriverMap) :=
  [(interfaceVariable, (({} : DriverMap).addDrivers ⟨0, 7⟩
    [{ node := some ⟨1, .assignment, 0⟩, lsp := some 0 }] false).getD {})]

def interfaceWrites : List BlockWrite :=
  [⟨interfaceVariable, ⟨0, 7⟩, [{ node := some ⟨1, .assignment, 0⟩, lsp := some 0 }]⟩]

def clockEvents : List SensitivityEntry :=
  [⟨{ id := 8, name := "clk", hierarchicalPath := "m.clk" }, 1, .posEdge⟩]

end NetlistBuilder

end SlangNetlist
