import SlangNetlist.Analysis.BitSlice
import SlangNetlist.Build.SequentialWrites

/-!
# Accesses through modports

A reference to a modport port is followed through the connection expressions to
the interface variables that it denotes.  Both the read and the write of such a
variable look up the node that is registered for exactly the resolved bounds.
-/

namespace SlangNetlist

open Library

/-- `ValuePath::expandIndirectRefs` of connection expressions, where a chain of modport ports ends. -/
structure Connections where
  expandIndirectRefs : Nat → List ValuePath
  depth : Nat → Nat
  nested : ∀ prefixExpr, ∀ path ∈ expandIndirectRefs prefixExpr, ∀ symbol lsp,
    path.rootSymbol = some symbol → symbol.kind = .modportPort → path.lsp = some lsp →
      depth lsp < depth prefixExpr

namespace Connections

variable (connections : Connections)

/-- `_resolveInterfaceRef`, to a depth of nesting. -/
def resolveWithin : Nat → Nat → List (ValueSymbol × DriverBitRange)
  | 0, _ => []
  | fuel + 1, prefixExpr => (connections.expandIndirectRefs prefixExpr).flatMap fun path =>
      match path.empty, path.lsp, path.rootSymbol with
      | false, some lsp, some symbol =>
          match symbol.kind with
          | .variable => [(symbol, path.lspBounds)]
          | .modportPort => resolveWithin fuel lsp
          -- Likely a parameter or a genvar in a selector.
          | _ => []
      | _, _, _ => []

/-- `resolveInterfaceRef`, which names the symbol in debugging output only. -/
def resolveInterfaceRef : InterfaceRefs := fun _ lsp =>
  connections.resolveWithin (connections.depth lsp + 1) lsp

/-- The chain from the expression reaches the variable with the bounds. -/
inductive Denotes : Nat → ValueSymbol → DriverBitRange → Prop where
  | direct {prefixExpr lsp : Nat} {path : ValuePath} {symbol : ValueSymbol}
      (member : path ∈ connections.expandIndirectRefs prefixExpr) (proper : path.empty = false)
      (given : path.lsp = some lsp) (root : path.rootSymbol = some symbol)
      (kind : symbol.kind = .variable) : Denotes prefixExpr symbol path.lspBounds
  | nested {prefixExpr lsp : Nat} {path : ValuePath} {symbol var : ValueSymbol}
      {bounds : DriverBitRange}
      (member : path ∈ connections.expandIndirectRefs prefixExpr) (proper : path.empty = false)
      (given : path.lsp = some lsp) (root : path.rootSymbol = some symbol)
      (kind : symbol.kind = .modportPort) (inner : Denotes lsp var bounds) :
      Denotes prefixExpr var bounds

variable {connections}

/-- A depth that suffices gives all variables that the chains reach. -/
theorem mem_resolveWithin {fuel prefixExpr : Nat} (enough : connections.depth prefixExpr < fuel)
    {var : ValueSymbol} {bounds : DriverBitRange} :
    (var, bounds) ∈ connections.resolveWithin fuel prefixExpr ↔
      connections.Denotes prefixExpr var bounds := by
  induction fuel generalizing prefixExpr with
  | zero => cases enough
  | succ fuel ih =>
      rw [resolveWithin, List.mem_flatMap]
      constructor
      · rintro ⟨path, member, found⟩
        split at found
        · next lsp symbol proper given root =>
            split at found
            · next kind =>
                obtain ⟨rfl, rfl⟩ := Prod.mk.inj (List.mem_singleton.mp found)
                exact .direct member proper given root kind
            · next kind =>
                have deeper := connections.nested prefixExpr path member symbol lsp root kind given
                exact .nested member proper given root kind ((ih (by omega)).mp found)
            · cases found
        · cases found
      · intro denotes
        cases denotes with
        | direct member proper given root kind =>
            exact ⟨_, member, by simp [proper, given, root, kind]⟩
        | nested member proper given root kind inner =>
            have deeper := connections.nested prefixExpr _ member _ _ root kind given
            exact ⟨_, member, by simpa [proper, given, root, kind] using (ih (by omega)).mpr inner⟩

theorem mem_resolveInterfaceRef {symbol : ValueSymbol} {lsp : Nat} {var : ValueSymbol}
    {bounds : DriverBitRange} :
    (var, bounds) ∈ connections.resolveInterfaceRef symbol lsp ↔
      connections.Denotes lsp var bounds :=
  mem_resolveWithin (Nat.lt_succ_self _)

end Connections

namespace NetlistBuilder

/-- `NetlistBuilder::addRvalue`. -/
def addRvalue (builder : NetlistBuilder) (resolveInterfaceRef : InterfaceRefs)
    (symbol : ValueSymbol) (lsp : Nat) (bounds : DriverBitRange) (node : Option NodeRef)
    (role : DependencyRole) (precision : DependencyPrecision) : NetlistBuilder :=
  match symbol.kind, node with
  | .modportPort, some node =>
      (resolveInterfaceRef symbol lsp).foldl (fun builder (var, varBounds) =>
        match builder.getVariable var.id varBounds with
        | some varNode => (builder.internSymbol symbol).addDependency
            { source := varNode, target := node, symbol := symbol.hierarchicalPath,
              bounds := bounds, semantics := { role := role, precision := precision } }
        | none => builder) builder
  | _, _ => builder.enqueue
      { symbol := symbol, bounds := bounds, lsp := lsp, node := node,
        semantics := { role := role, precision := precision } }

/-- The dependencies of a node on the nodes of the interface variables that it reads. -/
def accessDependencies (builder : NetlistBuilder) (refs : List (ValueSymbol × DriverBitRange))
    (symbol : ValueSymbol) (bounds : DriverBitRange) (node : NodeRef) (semantics : EdgeSemantics) :
    List Dependency :=
  refs.filterMap fun (var, varBounds) => (builder.getVariable var.id varBounds).map fun varNode =>
    { source := varNode, target := node, symbol := symbol.hierarchicalPath, bounds := bounds,
      semantics := semantics }

variable {builder next : NetlistBuilder}

theorem mem_accessDependencies {refs : List (ValueSymbol × DriverBitRange)} {symbol : ValueSymbol}
    {bounds : DriverBitRange} {node : NodeRef} {semantics : EdgeSemantics}
    {dependency : Dependency} :
    dependency ∈ builder.accessDependencies refs symbol bounds node semantics ↔
      (∃ ref ∈ refs, builder.getVariable ref.1.id ref.2 = some dependency.source) ∧ dependency =
        { source := dependency.source, target := node, symbol := symbol.hierarchicalPath,
          bounds := bounds, semantics := semantics } := by
  simp only [accessDependencies, List.mem_filterMap, Option.map_eq_some_iff]
  constructor
  · rintro ⟨ref, member, varNode, found, rfl⟩
    exact ⟨⟨ref, member, found⟩, rfl⟩
  · rintro ⟨⟨ref, member, found⟩, same⟩
    exact ⟨ref, member, _, found, same.symm⟩

/-- A read through a modport adds edges from the nodes that are looked up. -/
theorem OnlyAdds.addRvalue (builder : NetlistBuilder) (resolveInterfaceRef : InterfaceRefs)
    {symbol : ValueSymbol} (modport : symbol.kind = .modportPort) (lsp : Nat)
    (bounds : DriverBitRange) (node : NodeRef) (role : DependencyRole)
    (precision : DependencyPrecision) :
    OnlyAdds builder
      (builder.addRvalue resolveInterfaceRef symbol lsp bounds (some node) role precision)
      (builder.accessDependencies (resolveInterfaceRef symbol lsp) symbol bounds node
        { role := role, precision := precision }) := by
  unfold NetlistBuilder.addRvalue accessDependencies
  simp only [modport]
  generalize resolveInterfaceRef symbol lsp = refs
  induction refs generalizing builder with
  | nil => exact OnlyAdds.refl builder
  | cons ref rest ih =>
      obtain ⟨var, varBounds⟩ := ref
      cases found : builder.getVariable var.id varBounds with
      | none =>
          simp only [List.foldl_cons, List.filterMap_cons, found, Option.map_none]
          exact ih builder
      | some varNode =>
          have first := (OnlyAdds.internSymbol builder symbol).trans
            (OnlyAdds.addDependency (builder.internSymbol symbol)
              { source := varNode, target := node, symbol := symbol.hierarchicalPath,
                bounds := bounds, semantics := { role := role, precision := precision } })
          have later := ih ((builder.internSymbol symbol).addDependency
            { source := varNode, target := node, symbol := symbol.hierarchicalPath,
              bounds := bounds, semantics := { role := role, precision := precision } })
          simp only [first.getVariable] at later
          simp only [List.foldl_cons, List.filterMap_cons, found, Option.map_some]
          exact first.trans later

/-- The bits that a read through a modport puts on edges. -/
theorem carries_addRvalue (builder : NetlistBuilder) (resolveInterfaceRef : InterfaceRefs)
    {symbol : ValueSymbol} (modport : symbol.kind = .modportPort) (lsp : Nat)
    (bounds : DriverBitRange) (node : NodeRef) (role : DependencyRole)
    (precision : DependencyPrecision) (source target : NodeRef) (bit : Int) :
    (builder.addRvalue resolveInterfaceRef symbol lsp bounds (some node) role
        precision).graph.Carries source target symbol.hierarchicalPath bit ↔
      builder.graph.Carries source target symbol.hierarchicalPath bit ∨
        (target = node ∧ (∃ ref ∈ resolveInterfaceRef symbol lsp,
          builder.getVariable ref.1.id ref.2 = some source) ∧
          bit ∈ NetlistGraph.clip (builder.graph.getBounds source) bounds) := by
  rw [(OnlyAdds.addRvalue builder resolveInterfaceRef modport lsp bounds node role
    precision).carries fun dependency member => by rw [(mem_accessDependencies.mp member).2]]
  refine or_congr_right ⟨?_, ?_⟩
  · rintro ⟨dependency, member, rfl, rfl, inside⟩
    obtain ⟨looked, same⟩ := mem_accessDependencies.mp member
    rw [same] at inside ⊢
    exact ⟨rfl, looked, inside⟩
  · rintro ⟨rfl, looked, inside⟩
    exact ⟨
      { source := source, target := target, symbol := symbol.hierarchicalPath, bounds := bounds,
        semantics := { role := role, precision := precision } },
      mem_accessDependencies.mpr ⟨looked, rfl⟩, rfl, rfl, inside⟩

/-- Entering drivers into the central map leaves the graph and the variable table alone. -/
theorem mergeCentral_some {write : BlockWrite} (merged : builder.mergeCentral write = some next) :
    next.graph = builder.graph ∧ next.variableTracker = builder.variableTracker := by
  unfold mergeCentral at merged
  rw [Option.bind_eq_bind, Option.bind_eq_some_iff] at merged
  obtain ⟨added, _, same⟩ := merged
  cases same
  exact ⟨rfl, rfl⟩

/-- What a combinational block adds for one driven interval. -/
def combinationalDependencies (resolveInterfaceRef : InterfaceRefs) (builder : NetlistBuilder)
    (write : BlockWrite) : List Dependency :=
  builder.portDependencies write.symbol write.bounds write.drivers ++
    write.drivers.flatMap (hookupDependencies resolveInterfaceRef builder write.symbol write.bounds)

/-- What a combinational block does for one driven interval, once the central map has it. -/
theorem mergeWrite_combinational {task : Nat} {resolveInterfaceRef : InterfaceRefs}
    {write : BlockWrite}
    (merged : builder.mergeWrite task resolveInterfaceRef [] write = some next) :
    ∃ entered, builder.mergeCentral write = some entered ∧
      OnlyAdds entered next (builder.combinationalDependencies resolveInterfaceRef write) := by
  simp only [mergeWrite, if_true, Option.bind_eq_bind, Option.bind_eq_some_iff,
    Option.some.injEq] at merged
  obtain ⟨entered, merges, _, rfl, hooked⟩ := merged
  obtain ⟨graph, tracker⟩ := mergeCentral_some merges
  have toPort := (OnlyAdds.internSymbol entered write.symbol).trans
    (OnlyAdds.hookupOutputPort _ write.symbol write.bounds write.drivers)
  have hooks := OnlyAdds.hookupDrivers hooked
  rw [funext (toPort.hookupDependencies resolveInterfaceRef write.symbol write.bounds)] at hooks
  have whole := toPort.trans hooks
  have port : (entered.internSymbol write.symbol).portDependencies write.symbol write.bounds
      write.drivers = builder.portDependencies write.symbol write.bounds write.drivers := by
    rw [portDependencies, (OnlyAdds.internSymbol entered write.symbol).outputPort]
    simp only [portDependencies, outputPort, getVariable, graph, tracker]
  have targets : hookupDependencies resolveInterfaceRef entered write.symbol write.bounds =
      hookupDependencies resolveInterfaceRef builder write.symbol write.bounds := by
    funext driver
    simp only [hookupDependencies, refDependencies, getVariable, graph, tracker]
  rw [List.nil_append, port, targets] at whole
  exact ⟨entered, merges, whole⟩

theorem symbol_of_mem_combinational {resolveInterfaceRef : InterfaceRefs} {write : BlockWrite} :
    ∀ dependency ∈ builder.combinationalDependencies resolveInterfaceRef write,
      dependency.symbol = write.symbol.hierarchicalPath := by
  intro dependency member
  rcases List.mem_append.mp member with port | hooked
  · rw [(mem_portDependencies.mp port).2.2]
  · obtain ⟨driver, _, inDriver⟩ := List.mem_flatMap.mp hooked
    exact (symbol_of_mem_hookupDependencies inDriver).1

/-- A combinational block adds no nodes. -/
theorem nodes_combinational {task : Nat} {resolveInterfaceRef : InterfaceRefs} {write : BlockWrite}
    (merged : builder.mergeWrite task resolveInterfaceRef [] write = some next) :
    next.graph.nodes = builder.graph.nodes := by
  obtain ⟨entered, merges, only⟩ := mergeWrite_combinational merged
  rw [only.nodes, (mergeCentral_some merges).1]

/-- The dependencies that a driven interval adds. -/
def writeDependencies (task : Nat) (resolveInterfaceRef : InterfaceRefs)
    (sensitivity : List SensitivityEntry) (builder : NetlistBuilder) (write : BlockWrite) :
    List Dependency :=
  if sensitivity = [] then builder.combinationalDependencies resolveInterfaceRef write
  else builder.sequentialDependencies task resolveInterfaceRef write

/-- A driven interval adds its dependencies to the edges that there are. -/
theorem mergeWrite_adds {task : Nat} {resolveInterfaceRef : InterfaceRefs}
    {sensitivity : List SensitivityEntry} {write : BlockWrite}
    (merged : builder.mergeWrite task resolveInterfaceRef sensitivity write = some next) :
    ∃ base : NetlistBuilder,
      (∀ source target, base.graph.edgesBetween source target =
        builder.graph.edgesBetween source target) ∧
      OnlyAdds base next (builder.writeDependencies task resolveInterfaceRef sensitivity write) := by
  unfold writeDependencies
  split
  · next combinational =>
      subst combinational
      obtain ⟨entered, merges, only⟩ := mergeWrite_combinational merged
      exact ⟨entered, fun _ _ => by rw [(mergeCentral_some merges).1], only⟩
  · next sequential =>
      obtain ⟨_, _, _, _, same⟩ := createState_graph builder task write.symbol write.bounds
      exact ⟨_, same, mergeWrite_sequential sequential merged⟩

theorem symbol_of_mem_writeDependencies {task : Nat} {resolveInterfaceRef : InterfaceRefs}
    {sensitivity : List SensitivityEntry} {write : BlockWrite} :
    ∀ dependency ∈ builder.writeDependencies task resolveInterfaceRef sensitivity write,
      dependency.symbol = write.symbol.hierarchicalPath := by
  unfold writeDependencies
  split
  · exact symbol_of_mem_combinational
  · exact symbol_of_mem_sequential

end NetlistBuilder

end SlangNetlist
