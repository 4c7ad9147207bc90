import SlangNetlist.Build.BlockView

/-!
# The steps of a block

Each call of an analysis and each step of `mergeDrivers` does the same to two
builders that look the same to the block.
-/

namespace SlangNetlist

open Library

variable {task : Nat} {keys : List (Nat × DriverBitRange)} {ports : List Nat}
  {start base left right next : NetlistBuilder} {resolveInterfaceRef : InterfaceRefs}
  {symbol : ValueSymbol} {bounds : DriverBitRange}

/-- The serial numbers in use are those of the nodes of the task. -/
theorem NetlistBuilder.freshRef_eq (builder : NetlistBuilder) (task : Nat) (kind : NodeKind) :
    builder.freshRef task kind =
      ⟨task, kind, ((((builder.graph.nodesOf task).map Prod.fst).filter fun ref =>
        ref.kind = kind).map NodeRef.serial).foldr max 0 + 1⟩ := by
  have refs : ((builder.graph.nodesOf task).map Prod.fst).filter (fun ref => ref.kind = kind) =
      (builder.graph.nodes.map NetlistNode.ref).filter fun ref =>
        ref.task = task ∧ ref.kind = kind := by
    simp only [NetlistGraph.nodesOf, List.filter_map, List.map_map, List.filter_filter]
    refine congrArg (List.map NetlistNode.ref) (List.filter_congr fun node _ => ?_)
    rw [Bool.and_comm]
    exact (Bool.decide_and _ _).symm
  rw [NetlistBuilder.freshRef, refs]

namespace Beside

/-- Dependencies on drivers of the task. -/
theorem connectDrivers (beside : Beside task keys ports start base left right)
    {drivers : DriverList} (all : drivers.All (OwnNode task)) {target : NodeRef}
    (near : Near task target) (symbol : ValueSymbol) (bounds : DriverBitRange)
    (semantics : EdgeSemantics) :
    Beside task keys ports start base (left.connectDrivers drivers target symbol bounds semantics)
      (right.connectDrivers drivers target symbol bounds semantics) := by
  unfold NetlistBuilder.connectDrivers
  refine List.foldl_rel beside fun driver member l r besideHere => ?_
  cases found : driver.node with
  | none => exact besideHere
  | some source => exact besideHere.addDependency (.ofSource (all driver member source found) near)

theorem hookupOutputPort (beside : Beside task keys ports start base left right)
    (listed : ∀ port ∈ symbol.portBackrefs, port ∈ ports) {drivers : DriverList}
    (all : drivers.All (OwnNode task)) (bounds : DriverBitRange) :
    Beside task keys ports start base (left.hookupOutputPort symbol bounds drivers)
      (right.hookupOutputPort symbol bounds drivers) := by
  obtain ⟨same, near⟩ := beside.outputPort listed bounds
  unfold NetlistBuilder.hookupOutputPort
  rw [← same]
  cases found : left.outputPort symbol bounds with
  | none => exact beside
  | some portNode => exact beside.connectDrivers all (near portNode found) symbol bounds _

theorem enqueueSensitivity (beside : Beside task keys ports start base left right)
    (stateNode : NodeRef) (sensitivity : List SensitivityEntry) :
    Beside task keys ports start base (left.enqueueSensitivity stateNode sensitivity)
      (right.enqueueSensitivity stateNode sensitivity) := by
  unfold NetlistBuilder.enqueueSensitivity
  refine List.foldl_rel beside fun entry _ l r besideHere => ?_
  split
  · exact besideHere
  · exact besideHere.enqueue _

/-- The State nodes have the same address, path and bounds. -/
theorem createState (beside : Beside task keys ports start base left right) (symbol : ValueSymbol)
    (bounds : DriverBitRange) :
    (left.createState task symbol bounds).1 = (right.createState task symbol bounds).1 ∧
      Beside task keys ports start base (left.createState task symbol bounds).2
        (right.createState task symbol bounds).2 := by
  have same : left.freshRef task .state = right.freshRef task .state := by
    rw [left.freshRef_eq, right.freshRef_eq, beside.graph.nodes task (Or.inl rfl)]
  refine ⟨same, ?_, ?_, beside.queue⟩
  · refine (beside.internSymbol symbol).graph.addNode rfl ?_
    exact congrArg₂ Prod.mk same (congrArg (fun path => some (path, bounds))
      ((NetlistGraph.hierarchicalPath_toSymbolRef left.graph symbol).trans
        (NetlistGraph.hierarchicalPath_toSymbolRef right.graph symbol).symm))
  · have inserted := beside.table.insert (show (right.freshRef task .state).task = task from rfl)
      symbol.id bounds
    simpa only [NetlistBuilder.createState, same] using inserted

theorem mergeState (beside : Beside task keys ports start base left right)
    (sensitivity : List SensitivityEntry) {write : BlockWrite}
    (listed : ∀ port ∈ write.symbol.portBackrefs, port ∈ ports)
    (all : write.drivers.All (OwnNode task)) :
    Beside task keys ports start base (left.mergeState task sensitivity write)
      (right.mergeState task sensitivity write) := by
  obtain ⟨same, created⟩ := beside.createState write.symbol write.bounds
  have own : (left.createState task write.symbol write.bounds).1.task = task := rfl
  have stateOwn : DriverList.All (OwnNode task)
      [{ node := some (left.createState task write.symbol write.bounds).1 }] := by
    intro driver member
    rw [List.mem_singleton.mp member]
    exact ownNode_some.mpr own
  have connected := ((created.connectDrivers all (Or.inl own) write.symbol write.bounds
    {}).enqueueSensitivity (left.createState task write.symbol write.bounds).1
      sensitivity).hookupOutputPort listed stateOwn write.bounds
  simp only [NetlistBuilder.mergeState]
  rwa [← same]

/-! ## Variable nodes -/

/-- The loop over the interface variables behind a modport port. -/
theorem connectRefs (beside : Beside task keys ports start base left right) {source : NodeRef}
    (own : source.task = task) (symbol : ValueSymbol) {refs : List (ValueSymbol × DriverBitRange)}
    (listed : ∀ ref ∈ refs, (ref.1.id, ref.2) ∈ keys) :
    Beside task keys ports start base
      (refs.foldl (fun builder (var, varBounds) =>
        match builder.getVariable var.id varBounds with
        | some varNode => builder.addDependency
            { source := source, target := varNode, symbol := symbol.hierarchicalPath,
              bounds := varBounds }
        | none => builder) left)
      (refs.foldl (fun builder (var, varBounds) =>
        match builder.getVariable var.id varBounds with
        | some varNode => builder.addDependency
            { source := source, target := varNode, symbol := symbol.hierarchicalPath,
              bounds := varBounds }
        | none => builder) right) := by
  refine List.foldl_rel beside fun ⟨var, varBounds⟩ member l r besideHere => ?_
  dsimp only
  rw [← besideHere.getVariable (listed _ member)]
  cases found : l.getVariable var.id varBounds with
  | none => exact besideHere
  | some varNode =>
      exact besideHere.addDependency
        (.ofSource own (besideHere.near_getVariable (listed _ member) found))

theorem hookupVariables (beside : Beside task keys ports start base left right)
    {write : BlockWrite} (listed : ∀ key ∈ DeferredBlock.writeLookups resolveInterfaceRef write,
      key ∈ keys) {driver : DriverInfo} (member : driver ∈ write.drivers)
    (own : OwnNode task driver.node)
    (hooked : NetlistBuilder.hookupVariables resolveInterfaceRef write.symbol write.bounds left
      driver = some next) :
    ∃ rightNext, NetlistBuilder.hookupVariables resolveInterfaceRef write.symbol write.bounds right
      driver = some rightNext ∧ Beside task keys ports start base next rightNext := by
  unfold NetlistBuilder.hookupVariables at hooked ⊢
  cases found : driver.node with
  | none =>
      rw [found] at hooked
      cases hooked
      exact ⟨right, rfl, beside⟩
  | some source =>
      rw [found] at hooked
      unfold DeferredBlock.writeLookups at listed
      match kind : write.symbol.kind with
      | .modportPort =>
          simp only [kind, Option.bind_eq_bind, Option.bind_eq_some_iff, Option.some.injEq]
            at hooked listed ⊢
          obtain ⟨lsp, given, rfl⟩ := hooked
          refine ⟨_, ⟨lsp, given, rfl⟩, beside.connectRefs (own source found) write.symbol ?_⟩
          intro ref inRefs
          refine listed _ (List.mem_flatMap.mpr ⟨driver, member, ?_⟩)
          rw [given]
          exact List.mem_map.mpr ⟨ref, by simpa using inRefs, rfl⟩
      | .variable =>
          simp only [kind] at hooked listed ⊢
          have looked := listed _ (List.mem_singleton_self (write.symbol.id, write.bounds))
          rw [← beside.getVariable looked]
          cases at_ : left.getVariable write.symbol.id write.bounds with
          | none =>
              simp only [at_] at hooked
              cases hooked
              exact ⟨right, rfl, beside⟩
          | some varNode =>
              have near := beside.near_getVariable looked at_
              simp only [at_, Option.bind_eq_bind, Option.bind_eq_some_iff, Option.some.injEq]
                at hooked ⊢
              obtain ⟨varBounds, known, rfl⟩ := hooked
              exact ⟨_, ⟨varBounds, beside.graph.getBounds near ▸ known, rfl⟩,
                beside.addDependency (.ofSource (own source found) near)⟩
      | .net | .other =>
          simp only [kind] at hooked ⊢
          cases hooked
          exact ⟨right, rfl, beside⟩

/-! ## A block -/

/-- What enters the central driver map is not seen. -/
theorem mergeCentral (beside : Beside task keys ports start base left right) {write : BlockWrite}
    (merged : left.mergeCentral write = some next) :
    Beside task keys ports start base next right := by
  unfold NetlistBuilder.mergeCentral at merged
  rw [Option.bind_eq_bind, Option.bind_eq_some_iff] at merged
  obtain ⟨⟨driverMap, drivers⟩, _, same⟩ := merged
  cases same
  exact ⟨beside.graph, beside.table, beside.queue⟩

/-- A merged interval: the central driver map of the other builder is left out. -/
theorem mergeWrite (beside : Beside task keys ports start base left right)
    {sensitivity : List SensitivityEntry} {write : BlockWrite}
    (listed : ∀ key ∈ DeferredBlock.writeLookups resolveInterfaceRef write, key ∈ keys)
    (portsListed : ∀ port ∈ write.symbol.portBackrefs, port ∈ ports)
    (all : write.drivers.All (OwnNode task))
    (merged : left.mergeWrite task resolveInterfaceRef sensitivity write = some next) :
    ∃ rightNext, right.connectWrite task resolveInterfaceRef sensitivity write = some rightNext ∧
      Beside task keys ports start base next rightNext := by
  have hookup : ∀ {l r}, Beside task keys ports start base l r →
      write.drivers.foldlM (NetlistBuilder.hookupVariables resolveInterfaceRef write.symbol
        write.bounds) l = some next →
      ∃ rightNext, write.drivers.foldlM (NetlistBuilder.hookupVariables resolveInterfaceRef
        write.symbol write.bounds) r = some rightNext ∧
          Beside task keys ports start base next rightNext :=
    fun besideHere hooked => exists_foldlM (fun driver member l r after beside' stepped =>
      beside'.hookupVariables listed member (all driver member) stepped) besideHere hooked
  unfold NetlistBuilder.connectWrite
  by_cases combinational : sensitivity = []
  · simp only [NetlistBuilder.mergeWrite, if_pos combinational, Option.bind_eq_bind,
      Option.bind_eq_some_iff, Option.some.injEq] at merged
    obtain ⟨central, entered, _, rfl, hooked⟩ := merged
    rw [if_pos combinational]
    exact hookup (((beside.mergeCentral entered).internSymbol write.symbol).hookupOutputPort
      portsListed all write.bounds) hooked
  · simp only [NetlistBuilder.mergeWrite, if_neg combinational, Option.bind_eq_bind,
      Option.bind_some] at merged
    rw [if_neg combinational]
    exact hookup (beside.mergeState sensitivity portsListed all) merged

/-- A node that an analysis makes has no bounds. -/
theorem shape_madeData (ref : NodeRef) (ID : Nat) (kind : NodeKind) (location : TextLocation)
    (value : Option (ConstantValue × Nat)) :
    (⟨ref, ID, NetlistBuilder.madeData kind location value⟩ : NetlistNode).shape = (ref, none) := by
  cases kind <;> cases value <;> rfl

theorem addRvalue (beside : Beside task keys ports start base left right) (lsp : Nat)
    (bounds : DriverBitRange) {node : Option NodeRef} (own : OwnNode task node)
    (role : DependencyRole) (precision : DependencyPrecision)
    (listed : symbol.kind = .modportPort →
      ∀ ref ∈ resolveInterfaceRef symbol lsp, (ref.1.id, ref.2) ∈ keys) :
    Beside task keys ports start base
      (left.addRvalue resolveInterfaceRef symbol lsp bounds node role precision)
      (right.addRvalue resolveInterfaceRef symbol lsp bounds node role precision) := by
  unfold NetlistBuilder.addRvalue
  split
  · next node modport =>
      refine List.foldl_rel beside fun ⟨var, varBounds⟩ member l r besideHere => ?_
      have looked := listed modport _ member
      dsimp only
      rw [← besideHere.getVariable looked]
      cases found : l.getVariable var.id varBounds with
      | none => exact besideHere
      | some varNode =>
          exact (besideHere.internSymbol symbol).addDependency
            (.ofTarget (besideHere.near_getVariable looked found) (own node rfl))
  · exact beside.enqueue _

/-- A call of the analysis. -/
theorem applyCall (beside : Beside task keys ports start base left right)
    {builderCall : BuilderCall} (own : builderCall.Own task)
    (listed : ∀ key ∈ DeferredBlock.callLookups resolveInterfaceRef builderCall, key ∈ keys) :
    Beside task keys ports start base (left.applyCall resolveInterfaceRef builderCall)
      (right.applyCall resolveInterfaceRef builderCall) := by
  cases builderCall with
  | addNode ref location value =>
      have located := beside.graph.ofTables (left.graph.nodes_toTextLocation location)
        (left.graph.edges_toTextLocation location) (right.graph.nodes_toTextLocation location)
        (right.graph.edges_toTextLocation location)
      refine ⟨located.addNode own ?_, beside.table, beside.queue⟩
      rw [shape_madeData, shape_madeData]
  | addUnannotated source target role precision =>
      exact beside.withGraph
        (beside.graph.addUnannotated (.ofSource own.1 (Or.inl own.2)) role precision)
  | addDependency dependency => exact beside.addDependency (.ofSource own.1 (Or.inl own.2))
  | addRvalue symbol lsp bounds node role precision =>
      refine beside.addRvalue lsp bounds own role precision fun modport ref member => listed _ ?_
      rw [DeferredBlock.callLookups, if_pos modport]
      exact List.mem_map_of_mem member

/-- A whole block does the same to both builders. -/
theorem runBlock {block : DeferredBlock}
    (beside : Beside block.task (block.lookups resolveInterfaceRef) block.ports start base left
      right) (ran : left.runBlock resolveInterfaceRef block = some next) :
    ∃ rightNext, right.connectBlock resolveInterfaceRef block = some rightNext ∧
      Beside block.task (block.lookups resolveInterfaceRef) block.ports start base next
        rightNext := by
  have called : Beside block.task (block.lookups resolveInterfaceRef) block.ports start base
      (block.analysis.calls.foldl (NetlistBuilder.applyCall resolveInterfaceRef) left)
      (block.analysis.calls.foldl (NetlistBuilder.applyCall resolveInterfaceRef) right) :=
    List.foldl_rel beside fun builderCall member l r besideHere =>
      besideHere.applyCall (block.own.calls builderCall member) fun key inCall =>
        List.mem_append_left _ (List.mem_flatMap.mpr ⟨builderCall, member, inCall⟩)
  simp only [NetlistBuilder.runBlock, NetlistBuilder.mergeDrivers, Option.bind_eq_bind,
    Option.bind_eq_some_iff] at ran
  obtain ⟨writes, driven, ran⟩ := ran
  have same : block.writes = writes := by rw [DeferredBlock.writes, driven, Option.getD_some]
  rw [← same] at ran
  refine exists_foldlM (fun write member l r after besideHere merged => ?_) called ran
  refine besideHere.mergeWrite (fun key inWrite => ?_) (fun port inPorts => ?_)
    (block.all_drivers write member) merged
  · exact List.mem_append_right _ (List.mem_flatMap.mpr ⟨write, member, inWrite⟩)
  · exact List.mem_flatMap.mpr ⟨write, member, inPorts⟩

end Beside

end SlangNetlist
