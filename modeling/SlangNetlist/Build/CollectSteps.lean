import SlangNetlist.Build.BlockView
import SlangNetlist.Build.CollectTraversal
import SlangNetlist.Build.PortCuts

/-!
# What the steps of the traversal add

A step of the traversal only appends nodes to the graph: the nodes of a port,
which carry the path of its inner symbol, the nodes of an interface variable, and
the constants of a connection, which have no path.
-/

namespace SlangNetlist

open Library

/-! ## The recorded boxes -/

namespace NetlistGraph

variable (graph : NetlistGraph)

@[simp] theorem blackBoxPaths_toTextLocation (location : SourceLocation) :
    (graph.toTextLocation location).2.blackBoxPaths = graph.blackBoxPaths := by
  unfold toTextLocation addFile
  split
  · rfl
  · dsimp only
    split <;> rfl

@[simp] theorem blackBoxPaths_toSymbolRef (symbol : ValueSymbol) :
    (graph.toSymbolRef symbol).2.blackBoxPaths = graph.blackBoxPaths := by
  have interned (graph : NetlistGraph) (reference : SymbolReference) :
      (graph.intern reference).2.blackBoxPaths = graph.blackBoxPaths := by
    unfold intern
    split <;> rfl
  exact (interned _ _).trans (graph.blackBoxPaths_toTextLocation symbol.location)

theorem blackBoxPaths_addEdge (source target : NodeRef) :
    (graph.addEdge source target).blackBoxPaths = graph.blackBoxPaths := by
  unfold addEdge
  split <;> rfl

theorem blackBoxPaths_addDependency (dependency : Dependency) :
    (graph.addDependency dependency).blackBoxPaths = graph.blackBoxPaths := by
  have added := graph.blackBoxPaths_addEdge dependency.source dependency.target
  unfold addDependency
  dsimp only
  split
  · exact added
  · split <;> exact added

theorem blackBoxPaths_addUnannotated (source target : NodeRef) (role : DependencyRole)
    (precision : DependencyPrecision) :
    (graph.addUnannotated source target role precision).blackBoxPaths = graph.blackBoxPaths := by
  have added := graph.blackBoxPaths_addEdge source target
  unfold addUnannotated
  dsimp only
  split <;> exact added

end NetlistGraph

/-! ## Growth -/

/-- The later builder has the nodes and boxes of the former, and then nodes as given. -/
structure Grows (made : NetlistNode → Prop) (builder next : NetlistBuilder) : Prop where
  nodes : ∃ added, next.graph.nodes = builder.graph.nodes ++ added ∧ ∀ node ∈ added, made node
  blackBoxPaths : next.graph.blackBoxPaths = builder.graph.blackBoxPaths

namespace Grows

variable {made : NetlistNode → Prop} {builder middle next : NetlistBuilder} {α : Type}
  {list : List α}

/-- Nothing but edges, tables and drivers has changed. -/
theorem of_eq (nodes : next.graph.nodes = builder.graph.nodes)
    (blackBoxPaths : next.graph.blackBoxPaths = builder.graph.blackBoxPaths) :
    Grows made builder next :=
  ⟨⟨[], by simp [nodes], by simp⟩, blackBoxPaths⟩

/-- One node is added, perhaps after an entry in a table. -/
theorem of_addNode {graph : NetlistGraph} {node : NetlistNode}
    (same : next.graph = graph.addNode node) (nodes : graph.nodes = builder.graph.nodes)
    (blackBoxPaths : graph.blackBoxPaths = builder.graph.blackBoxPaths) (isMade : made node) :
    Grows made builder next := by
  refine ⟨⟨[node], ?_, by simpa using isMade⟩, ?_⟩
  · rw [same, ← nodes]
    rfl
  · rw [same, ← blackBoxPaths]
    rfl

theorem refl (builder : NetlistBuilder) : Grows made builder builder :=
  .of_eq rfl rfl

theorem trans (first : Grows made builder middle) (second : Grows made middle next) :
    Grows made builder next := by
  obtain ⟨⟨front, frontEq, frontMade⟩, frontBoxes⟩ := first
  obtain ⟨⟨back, backEq, backMade⟩, backBoxes⟩ := second
  refine ⟨⟨front ++ back, ?_, fun node member => ?_⟩, backBoxes.trans frontBoxes⟩
  · rw [backEq, frontEq, List.append_assoc]
  · exact (List.mem_append.mp member).elim (frontMade node) (backMade node)

theorem foldl {step : NetlistBuilder → α → NetlistBuilder}
    (each : ∀ here element, Grows made here (step here element)) :
    Grows made builder (list.foldl step builder) := by
  induction list generalizing builder with
  | nil => exact .refl builder
  | cons head rest ih => exact (each builder head).trans ih

theorem foldlM {step : NetlistBuilder → α → Option NetlistBuilder}
    (each : ∀ element ∈ list, ∀ {here next}, step here element = some next →
      Grows made here next)
    (folded : list.foldlM step builder = some next) : Grows made builder next :=
  holds_of_foldlM (Grows made builder) (.refl builder)
    (fun element member _ _ grown stepped => grown.trans (each element member stepped)) folded

/-- A node of the former builder, or one that the step has made. -/
theorem mem_nodes (grows : Grows made builder next) {node : NetlistNode}
    (member : node ∈ next.graph.nodes) : node ∈ builder.graph.nodes ∨ made node := by
  obtain ⟨⟨added, nodes, all⟩, _⟩ := grows
  rw [nodes] at member
  exact (List.mem_append.mp member).imp_right (all node)

theorem keeps (grows : Grows made builder next) {node : NetlistNode}
    (member : node ∈ builder.graph.nodes) : node ∈ next.graph.nodes := by
  obtain ⟨⟨added, nodes, _⟩, _⟩ := grows
  rw [nodes]
  exact List.mem_append_left added member

end Grows

/-! ## Connections -/

namespace NetlistBuilder

variable {builder next : NetlistBuilder} {resolveInterfaceRef : InterfaceRefs} {task : Nat}
  {isOutput : Bool} {segment : Segment} {portNodes : List NodeRef} {path : ValuePath}
  {bounds : DriverBitRange}

/-- A node that has no path, such as a constant. -/
abbrev Pathless (node : NetlistNode) : Prop := node.data.getHierarchicalPath = none

variable {made : NetlistNode → Prop}

theorem grows_addDependency (builder : NetlistBuilder) (dependency : Dependency) :
    Grows made builder (builder.addDependency dependency) :=
  .of_eq (NetlistGraph.nodes_addDependency _ _) (NetlistGraph.blackBoxPaths_addDependency _ _)

theorem grows_internSymbol (builder : NetlistBuilder) (symbol : ValueSymbol) :
    Grows made builder (builder.internSymbol symbol) :=
  .of_eq (NetlistGraph.nodes_toSymbolRef _ _) (NetlistGraph.blackBoxPaths_toSymbolRef _ _)

theorem grows_addRvalue (builder : NetlistBuilder) (symbol : ValueSymbol) (lsp : Nat)
    (bounds : DriverBitRange) (node : Option NodeRef) (role : DependencyRole)
    (precision : DependencyPrecision) :
    Grows made builder
      (builder.addRvalue resolveInterfaceRef symbol lsp bounds node role precision) := by
  unfold addRvalue
  split
  · refine .foldl fun here ref => ?_
    dsimp only
    split
    · exact (grows_internSymbol here symbol).trans (grows_addDependency _ _)
    · exact .refl here
  · exact .of_eq rfl rfl

theorem grows_hookupOutputPort (builder : NetlistBuilder) (symbol : ValueSymbol)
    (bounds : DriverBitRange) (drivers : DriverList) :
    Grows made builder (builder.hookupOutputPort symbol bounds drivers) := by
  unfold hookupOutputPort connectDrivers
  split
  · refine .foldl fun here driver => ?_
    split
    · exact grows_addDependency here _
    · exact .refl here
  · exact .refl builder

theorem grows_mergePortNode {symbol : ValueSymbol} {lsp : Option Nat} {node : NodeRef}
    (merged : builder.mergePortNode symbol lsp bounds node = some next) :
    Grows made builder next := by
  simp only [mergePortNode, mergeCentral, Option.bind_eq_bind, Option.bind_eq_some_iff,
    Option.some.injEq] at merged
  obtain ⟨entered, ⟨_, _, same⟩, rfl⟩ := merged
  have enters : Grows made builder entered := .of_eq (by rw [← same]) (by rw [← same])
  refine enters.trans ?_
  split
  · exact (grows_internSymbol entered symbol).trans (grows_hookupOutputPort _ _ _ _)
  · exact .refl entered

theorem grows_createConstantForSegment (builder : NetlistBuilder) (value : ConstantValue)
    (srcLo : Nat) (location : Option SourceLocation) (segment : Segment) :
    Grows Pathless builder
      (builder.createConstantForSegment task value srcLo location segment).2 := by
  unfold createConstantForSegment
  cases location with
  | none => exact .of_addNode rfl rfl rfl rfl
  | some location =>
      exact .of_addNode rfl (NetlistGraph.nodes_toTextLocation _ location)
        (NetlistGraph.blackBoxPaths_toTextLocation _ location) rfl

/-- Edges from a constant to the port nodes. -/
theorem grows_labelled (builder : NetlistBuilder) (constNode : NodeRef)
    (portNodes : List NodeRef) :
    Grows made builder { builder with
      graph := portNodes.foldl (fun graph portNode =>
        graph.addUnannotated constNode portNode .portConnection .exact) builder.graph } := by
  induction portNodes generalizing builder with
  | nil => exact .refl builder
  | cons portNode rest ih =>
      have first : Grows made builder { builder with
          graph := builder.graph.addUnannotated constNode portNode .portConnection .exact } :=
        .of_eq (NetlistGraph.nodes_addUnannotated _ _ _ _ _)
          (NetlistGraph.blackBoxPaths_addUnannotated _ _ _ _ _)
      exact first.trans (ih _)

theorem grows_drivePortLsp
    (driven : builder.drivePortLsp resolveInterfaceRef isOutput portNodes path bounds =
      some next) : Grows made builder next := by
  unfold drivePortLsp at driven
  split at driven
  · cases driven
    exact .refl builder
  · refine .foldlM (fun node _ here next stepped => ?_) driven
    split at stepped
    · exact grows_mergePortNode stepped
    · obtain ⟨lsp, _, same⟩ := Option.bind_eq_some_iff.mp stepped
      cases same
      exact grows_addRvalue here _ lsp bounds _ _ _

theorem grows_drivePortOpaque (builder : NetlistBuilder) (path : ValuePath) :
    Grows made builder (builder.drivePortOpaque resolveInterfaceRef portNodes path) := by
  unfold drivePortOpaque
  split
  · exact .refl builder
  · exact .foldl fun here _ => grows_addRvalue here _ _ _ _ _ _

theorem grows_drivePortSource {source : BitSliceSource}
    (driven : builder.drivePortSource resolveInterfaceRef task isOutput segment source =
      some next) : Grows Pathless builder next := by
  cases source with
  | lsp path root srcLo =>
      obtain ⟨_, _, driven⟩ := Option.bind_eq_some_iff.mp driven
      exact grows_drivePortLsp driven
  | opaqueExpr expr =>
      cases driven
      exact .foldl fun here path => grows_drivePortOpaque here path
  | padding =>
      cases driven
      exact .refl builder
  | constant value srcLo location =>
      simp only [drivePortSource] at driven
      split at driven
      · cases driven
        exact .refl builder
      · cases driven
        exact (@grows_createConstantForSegment task builder value srcLo location segment).trans
          (grows_labelled _ _ segment.portNodes)
  | portNode node => cases driven

theorem grows_handlePortConnectionLegacy {port : PortSymbol} {actual : ConnectionExpr}
    (connected : builder.handlePortConnectionLegacy resolveInterfaceRef port actual = some next) :
    Grows made builder next := by
  unfold handlePortConnectionLegacy at connected
  refine .foldlM (fun path _ here next stepped => ?_) connected
  split at stepped
  · cases stepped
    exact .refl here
  · refine .foldlM (fun node _ here next stepped => ?_) stepped
    split at stepped
    · exact grows_mergePortNode stepped
    · cases stepped
      exact grows_addRvalue here _ _ _ _ _ _

/-- A connection adds constants only. -/
theorem grows_handlePortConnection {resolveAssignBits : Bool} {connection : PortConnection}
    (connected : builder.handlePortConnection resolveInterfaceRef task resolveAssignBits
      connection = some next) : Grows Pathless builder next := by
  unfold handlePortConnection at connected
  split at connected
  · cases connected
    exact .refl builder
  · next actual _ =>
      split at connected
      · exact grows_handlePortConnectionLegacy connected
      · dsimp only at connected
        split at connected
        · cases connected
          exact .refl builder
        · split at connected
          · exact grows_handlePortConnectionLegacy connected
          · refine .foldlM (fun segment _ here next stepped => ?_) connected
            unfold drivePortSegment at stepped
            split at stepped
            · cases stepped
              exact .refl here
            · exact .foldlM (fun source _ _ _ stepped => grows_drivePortSource stepped) stepped

/-! ## Ports and variables -/

end NetlistBuilder

/-- An element of a list has its partner in a related list. -/
theorem exists_related {α β : Type} {Related : α → β → Prop} {left : List α} {right : List β}
    (related : List.Forall₂ Related left right) {element : α} (member : element ∈ left) :
    ∃ partner ∈ right, Related element partner := by
  induction related with
  | nil => cases member
  | @cons first second _ others both _ ih =>
      rcases List.mem_cons.mp member with rfl | later
      · exact ⟨second, List.mem_cons_self, both⟩
      · obtain ⟨partner, partnerMem, holds⟩ := ih later
        exact ⟨partner, List.mem_cons_of_mem _ partnerMem, holds⟩

/-- A node of the kind for a symbol. -/
def NetlistNode.Names (node : NetlistNode) (kind : NodeKind) (symbol : ValueSymbol) : Prop :=
  node.data.kind = kind ∧ node.data.getHierarchicalPath = some symbol.hierarchicalPath

/-- The range of the node has the bit. -/
def NetlistNode.HasBit (node : NetlistNode) (bit : Nat) : Prop :=
  ∃ bounds, node.data.getBounds = some bounds ∧ bounds.lo ≤ bit ∧ bit < bounds.hi

namespace NetlistBuilder

variable {builder next : NetlistBuilder} {task : Nat} {port : PortSymbol} {symbol : ValueSymbol}
  {isInputPort : Bool} {hints : Option (List Nat)} {propCutsAcrossPorts : Bool}
  {getDrivers : ValueSymbol → List ValueDriver} {cutRegistry : CutRegistry}

theorem grows_createVariable (builder : NetlistBuilder) (bounds : DriverBitRange) :
    Grows (·.Names .variable symbol) builder (builder.createVariable task symbol bounds) := by
  have path := NetlistGraph.hierarchicalPath_toSymbolRef builder.graph symbol
  exact .of_addNode rfl (NetlistGraph.nodes_toSymbolRef _ symbol)
    (NetlistGraph.blackBoxPaths_toSymbolRef _ symbol) ⟨rfl, congrArg some path⟩

theorem grows_materializeSegment {segment : DriverBitRange}
    (created : builder.materializeSegment task port symbol isInputPort segment = some next) :
    Grows (·.Names .port symbol) builder next := by
  have path := NetlistGraph.hierarchicalPath_toSymbolRef builder.graph symbol
  have adds : Grows (·.Names .port symbol) builder
      (builder.createPort task port symbol segment).2 :=
    .of_addNode rfl (NetlistGraph.nodes_toSymbolRef _ symbol)
      (NetlistGraph.blackBoxPaths_toSymbolRef _ symbol) ⟨rfl, congrArg some path⟩
  cases isInputPort with
  | true =>
      have same := graph_addDriver (show addDriver _ symbol none segment _ = some next from created)
      exact adds.trans (.of_eq (congrArg _ same) (congrArg _ same))
  | false =>
      cases created
      exact adds

theorem grows_materializeDrivers {drivers : List ValueDriver}
    (created : drivers.foldlM (fun builder driver => (driverSegments hints driver).foldlM
      (materializeSegment task port symbol driver.isInputPort) builder) builder = some next) :
    Grows (·.Names .port symbol) builder next :=
  .foldlM (fun _ _ _ _ stepped =>
    .foldlM (fun _ _ _ _ stepped => grows_materializeSegment stepped) stepped) created

/-- The nodes of a port have the path of its inner symbol. -/
theorem grows_materializePortNodes
    (created : builder.materializePortNodes task propCutsAcrossPorts cutRegistry getDrivers port =
      some next) :
    Grows (fun node => ∃ symbol, port.internalSymbol = some symbol ∧ node.Names .port symbol)
      builder next := by
  unfold materializePortNodes at created
  split at created
  · cases created
    exact .refl builder
  · next symbol inner =>
      obtain ⟨⟨added, nodes, named⟩, blackBoxPaths⟩ := grows_materializeDrivers created
      exact ⟨⟨added, nodes, fun node member => ⟨symbol, inner, named node member⟩⟩, blackBoxPaths⟩

/-- The segments of a driver have all of its bits. -/
theorem exists_driverSegment {driver : ValueDriver} {bit : Nat}
    (sorted : ∀ cuts, hints = some cuts → cuts.Pairwise (· < ·))
    (driven : driver.first ≤ bit ∧ bit ≤ driver.second) :
    ∃ segment ∈ driverSegments hints driver, segment.lo ≤ bit ∧ bit < segment.hi := by
  obtain ⟨segment, member, _, inside⟩ :=
    (tiles_driverSegments sorted).exists_find driven.1 (Nat.lt_succ_of_le driven.2)
  exact ⟨segment, member, inside⟩

/-- Each driven bit of the inner symbol is on a node of the port. -/
theorem covers_materializePortNodes
    (created : builder.materializePortNodes task propCutsAcrossPorts cutRegistry getDrivers port =
      some next) (inner : port.internalSymbol = some symbol) {driver : ValueDriver}
    (driverMem : driver ∈ getDrivers symbol) {bit : Nat}
    (driven : driver.first ≤ bit ∧ bit ≤ driver.second) :
    ∃ node ∈ next.graph.nodes, node.Names .port symbol ∧ node.HasBit bit := by
  unfold materializePortNodes at created
  rw [inner] at created
  dsimp only at created
  have sorted : ∀ cuts, (if propCutsAcrossPorts then cutRegistry.cutsFor symbol else none) =
      some cuts → cuts.Pairwise (· < ·) := by
    intro cuts hints
    split at hints
    · have sorted := cutRegistry.sorted_cutsFor symbol
      rwa [hints] at sorted
    · cases hints
  obtain ⟨nodes, ports, all⟩ := materializeDrivers_add created
  obtain ⟨⟨added, sameNodes, named⟩, _⟩ := grows_materializeDrivers created
  obtain rfl : added = nodes.flatten := List.append_cancel_left (sameNodes.symm.trans all)
  obtain ⟨own, ownMem, ownPorts⟩ := exists_related ports driverMem
  obtain ⟨segment, segmentMem, inside⟩ := exists_driverSegment sorted driven
  obtain ⟨node, nodeMem, isPort⟩ := exists_related ownPorts.flip segmentMem
  have member : node ∈ nodes.flatten := List.mem_flatten.mpr ⟨own, ownMem, nodeMem⟩
  refine ⟨node, ?_, named node member, segment, isPort.2, inside⟩
  rw [all]
  exact List.mem_append_right _ member

end NetlistBuilder

end SlangNetlist
