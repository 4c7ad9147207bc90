import SlangNetlist.Graph.SymbolTable
import SlangNetlist.Library.GuardedRun

/-!
# Runs of graph operations

The builder makes a graph from the empty one by the operations below, in any
order and from any task.  Node IDs come from a counter and are unique, edges
join nodes of the graph, symbols are interned before an edge carries them, and
ranges are ascending pairs; this is what the guard states.
-/

namespace SlangNetlist

open Library

/-- The bounds are in ascending order. -/
def DriverBitRange.Ascending (range : DriverBitRange) : Prop := range.left ≤ range.right

instance (range : DriverBitRange) : Decidable range.Ascending :=
  inferInstanceAs (Decidable (_ ≤ _))

/-- Ranges are ascending and constants are integers. -/
def NodeData.Proper : NodeData → Prop
  | .port _ _ _ _ bounds => bounds.Ascending
  | .variable _ _ _ bounds => bounds.Ascending
  | .state _ _ _ bounds => bounds.Ascending
  | .constant (.integer _) _ _ => True
  | .constant _ _ _ => False
  | _ => True

instance (data : NodeData) : Decidable data.Proper := by
  unfold NodeData.Proper
  split <;> infer_instance

/-- What the builder does to a graph. -/
inductive GraphOperation where
  | addNode (node : NetlistNode)
  | addUnannotated (source target : NodeRef) (role : DependencyRole)
      (precision : DependencyPrecision)
  | addDependency (dependency : Dependency)
  | toSymbolRef (symbol : ValueSymbol)
  | toTextLocation (location : SourceLocation)
  | addBlackBoxPath (path : String)
  /-- `getArtifactId` with the identifier that it draws for a graph without one. -/
  | getArtifactId (drawn : String)
  deriving DecidableEq, Repr

namespace NetlistGraph

/-- `getArtifactId`: the artifact identifier, drawn at the first request. -/
def getArtifactId (graph : NetlistGraph) (drawn : String) : String :=
  if graph.artifactId = "" then drawn else graph.artifactId

/-- One operation. -/
def operate (graph : NetlistGraph) : GraphOperation → Option NetlistGraph
  | .addNode node => some (graph.addNode node)
  | .addUnannotated source target role precision =>
      some (graph.addUnannotated source target role precision)
  | .addDependency dependency => some (graph.addDependency dependency)
  | .toSymbolRef symbol => some (graph.toSymbolRef symbol).2
  | .toTextLocation location => some (graph.toTextLocation location).2
  | .addBlackBoxPath path => some { graph with blackBoxPaths := graph.blackBoxPaths ++ [path] }
  | .getArtifactId drawn => some { graph with artifactId := graph.getArtifactId drawn }

/-- The address is the one of a node. -/
def HasNode (graph : NetlistGraph) (ref : NodeRef) : Prop :=
  ref ∈ graph.nodes.map NetlistNode.ref

/-- The path is the one of an interned symbol. -/
def Interned (graph : NetlistGraph) (path : String) : Prop :=
  path ∈ graph.symbolTable.map SymbolReference.hierarchicalPath

instance (graph : NetlistGraph) (ref : NodeRef) : Decidable (graph.HasNode ref) :=
  inferInstanceAs (Decidable (_ ∈ _))

instance (graph : NetlistGraph) (path : String) : Decidable (graph.Interned path) :=
  inferInstanceAs (Decidable (_ ∈ _))

/-- What the builder observes of an operation. -/
def Accepts (graph : NetlistGraph) : GraphOperation → Prop
  | .addNode node => node.ref ∉ graph.nodes.map NetlistNode.ref ∧
      node.ID ∉ graph.nodes.map NetlistNode.ID ∧ node.data.Proper
  | .addUnannotated source target _ _ => graph.HasNode source ∧ graph.HasNode target
  | .addDependency dependency => graph.HasNode dependency.source ∧
      graph.HasNode dependency.target ∧ graph.Interned dependency.symbol ∧
      dependency.bounds.Ascending
  | _ => True

instance (graph : NetlistGraph) (operation : GraphOperation) :
    Decidable (graph.Accepts operation) := by
  unfold Accepts
  split <;> infer_instance

/-- The edge joins nodes of the graph, with an interned symbol and an ascending range. -/
structure EdgeFits (graph : NetlistGraph) (edge : NetlistEdge) : Prop where
  source : graph.HasNode edge.source
  target : graph.HasNode edge.target
  symbol : ∀ path, edge.symbol = some path → graph.Interned path
  bounds : edge.bounds.Ascending

/-- Unique addresses, IDs, files and paths, proper nodes and fitting edges. -/
structure WellFormed (graph : NetlistGraph) : Prop where
  refs : (graph.nodes.map NetlistNode.ref).Nodup
  ids : (graph.nodes.map NetlistNode.ID).Nodup
  proper : ∀ node ∈ graph.nodes, node.data.Proper
  files : graph.fileTable.Nodup
  paths : (graph.symbolTable.map SymbolReference.hierarchicalPath).Nodup
  edges : ∀ edge ∈ graph.edges, graph.EdgeFits edge

theorem wellFormed_empty : ({} : NetlistGraph).WellFormed := by
  constructor <;> simp

section Operations

variable {graph : NetlistGraph}

theorem files_addFile (files : graph.fileTable.Nodup) (name : String) :
    (graph.addFile name).2.fileTable.Nodup := by
  unfold addFile
  split
  · exact files
  · next missing =>
      have absent : ∀ file ∈ graph.fileTable, file ≠ name := by
        simpa [List.findIdx?_eq_none_iff] using missing
      simpa [List.nodup_append, files] using absent

@[simp] theorem symbolTable_addFile (name : String) :
    (graph.addFile name).2.symbolTable = graph.symbolTable := by
  unfold addFile
  split <;> rfl

theorem files_toTextLocation (files : graph.fileTable.Nodup) (location : SourceLocation) :
    (graph.toTextLocation location).2.fileTable.Nodup := by
  unfold toTextLocation
  split
  · exact files
  · exact files_addFile files _

@[simp] theorem symbolTable_toTextLocation (location : SourceLocation) :
    (graph.toTextLocation location).2.symbolTable = graph.symbolTable := by
  unfold toTextLocation
  split <;> simp

@[simp] theorem fileTable_intern (reference : SymbolReference) :
    (graph.intern reference).2.fileTable = graph.fileTable := by
  unfold intern
  split <;> rfl

/-- Interning adds a record for the path, unless there is one. -/
theorem symbolTable_intern (reference : SymbolReference) :
    (graph.intern reference).2.symbolTable =
      if graph.Interned reference.hierarchicalPath then graph.symbolTable
      else graph.symbolTable ++ [reference] := by
  unfold intern
  split
  · next entry found =>
      have samePath : entry.hierarchicalPath = reference.hierarchicalPath := by
        simpa using List.find?_some found
      have present : graph.Interned reference.hierarchicalPath :=
        List.mem_map.mpr ⟨entry, List.mem_of_find?_eq_some found, samePath⟩
      rw [if_pos present]
  · next missing =>
      have absent : ¬ graph.Interned reference.hierarchicalPath := by
        simpa [Interned] using missing
      rw [if_neg absent]

theorem paths_intern
    (paths : (graph.symbolTable.map SymbolReference.hierarchicalPath).Nodup)
    (reference : SymbolReference) :
    ((graph.intern reference).2.symbolTable.map SymbolReference.hierarchicalPath).Nodup := by
  rw [symbolTable_intern]
  split
  · exact paths
  · next absent =>
      rw [List.map_append, List.nodup_append]
      refine ⟨paths, by simp, ?_⟩
      rintro path member _ single rfl
      exact absent (List.mem_singleton.mp single ▸ member)

theorem Interned.intern {path : String} (interned : graph.Interned path)
    (reference : SymbolReference) : (graph.intern reference).2.Interned path := by
  unfold Interned at *
  rw [symbolTable_intern]
  split
  · exact interned
  · exact (List.map_append (f := SymbolReference.hierarchicalPath) ..) ▸
      List.mem_append_left _ interned

/-- An operation that keeps nodes and edges and loses no symbol keeps the graph well formed. -/
theorem WellFormed.tables {result : NetlistGraph} (wellFormed : graph.WellFormed)
    (nodes : result.nodes = graph.nodes) (edges : result.edges = graph.edges)
    (files : result.fileTable.Nodup)
    (paths : (result.symbolTable.map SymbolReference.hierarchicalPath).Nodup)
    (keeps : ∀ path, graph.Interned path → result.Interned path) : result.WellFormed where
  refs := nodes ▸ wellFormed.refs
  ids := nodes ▸ wellFormed.ids
  proper := nodes ▸ wellFormed.proper
  files := files
  paths := paths
  edges edge member := by
    obtain ⟨source, target, symbol, bounds⟩ := wellFormed.edges edge (edges ▸ member)
    unfold HasNode at source target
    rw [← nodes] at source target
    exact ⟨source, target, fun path carried => keeps path (symbol path carried), bounds⟩

theorem WellFormed.toTextLocation (wellFormed : graph.WellFormed) (location : SourceLocation) :
    (graph.toTextLocation location).2.WellFormed := by
  refine wellFormed.tables (nodes_toTextLocation _ _) (edges_toTextLocation _ _)
    (files_toTextLocation wellFormed.files location) ?_ ?_
  · rw [symbolTable_toTextLocation]
    exact wellFormed.paths
  · unfold Interned
    rw [symbolTable_toTextLocation]
    exact fun _ interned => interned

theorem WellFormed.intern (wellFormed : graph.WellFormed) (reference : SymbolReference) :
    (graph.intern reference).2.WellFormed := by
  refine wellFormed.tables (nodes_intern _ _) (edges_intern _ _) ?_
    (paths_intern wellFormed.paths reference) fun _ interned => interned.intern reference
  rw [fileTable_intern]
  exact wellFormed.files

theorem WellFormed.toSymbolRef (wellFormed : graph.WellFormed) (symbol : ValueSymbol) :
    (graph.toSymbolRef symbol).2.WellFormed :=
  (wellFormed.toTextLocation symbol.location).intern _

theorem WellFormed.addNode (wellFormed : graph.WellFormed) {node : NetlistNode}
    (freshRef : node.ref ∉ graph.nodes.map NetlistNode.ref)
    (freshID : node.ID ∉ graph.nodes.map NetlistNode.ID) (proper : node.data.Proper) :
    (graph.addNode node).WellFormed where
  refs := by
    simp only [NetlistGraph.addNode, List.map_append, List.map_singleton]
    refine List.nodup_append.mpr ⟨wellFormed.refs, by simp, ?_⟩
    rintro ref member _ single rfl
    exact freshRef (List.mem_singleton.mp single ▸ member)
  ids := by
    simp only [NetlistGraph.addNode, List.map_append, List.map_singleton]
    refine List.nodup_append.mpr ⟨wellFormed.ids, by simp, ?_⟩
    rintro id member _ single rfl
    exact freshID (List.mem_singleton.mp single ▸ member)
  proper other member := by
    rcases List.mem_append.mp member with old | new
    · exact wellFormed.proper other old
    · exact List.mem_singleton.mp new ▸ proper
  files := wellFormed.files
  paths := wellFormed.paths
  edges edge member := by
    obtain ⟨source, target, symbol, bounds⟩ := wellFormed.edges edge member
    unfold HasNode at source target
    refine ⟨?_, ?_, symbol, bounds⟩ <;> unfold HasNode <;>
      simp only [NetlistGraph.addNode, List.map_append] <;> apply List.mem_append_left
    · exact source
    · exact target

/-- Replacing the edges by fitting ones keeps the graph well formed. -/
theorem WellFormed.withEdges {result : NetlistGraph} (wellFormed : graph.WellFormed)
    {edges : List NetlistEdge} (resultEq : result = { graph with edges := edges })
    (fit : ∀ edge ∈ edges, graph.EdgeFits edge) : result.WellFormed := by
  subst resultEq
  exact ⟨wellFormed.refs, wellFormed.ids, wellFormed.proper, wellFormed.files, wellFormed.paths,
    fun edge member => ⟨(fit edge member).source, (fit edge member).target,
      (fit edge member).symbol, (fit edge member).bounds⟩⟩

theorem WellFormed.addEdge (wellFormed : graph.WellFormed) {source target : NodeRef}
    (sourceNode : graph.HasNode source) (targetNode : graph.HasNode target) :
    (graph.addEdge source target).WellFormed := by
  unfold NetlistGraph.addEdge
  split
  · exact wellFormed
  · refine wellFormed.withEdges rfl fun edge member => ?_
    rcases List.mem_append.mp member with old | new
    · exact wellFormed.edges edge old
    · obtain rfl := List.mem_singleton.mp new
      exact ⟨sourceNode, targetNode, by simp, Int.le_refl 0⟩

theorem WellFormed.setEdge (wellFormed : graph.WellFormed) {source target : NodeRef}
    {edge : NetlistEdge} (fits : graph.EdgeFits edge) :
    (graph.setEdge source target edge).WellFormed := by
  refine wellFormed.withEdges rfl fun other member => ?_
  rcases mem_modifyFirst member with old | ⟨_, _, _, rfl⟩
  · exact wellFormed.edges other old
  · exact fits

theorem WellFormed.addNewEdge (wellFormed : graph.WellFormed) {edge : NetlistEdge}
    (fits : graph.EdgeFits edge) : (graph.addNewEdge edge).WellFormed := by
  refine wellFormed.withEdges rfl fun other member => ?_
  rcases List.mem_append.mp member with old | new
  · exact wellFormed.edges other old
  · exact List.mem_singleton.mp new ▸ fits

theorem ascending_clip {bounds : DriverBitRange} (ascending : bounds.Ascending)
    (own : Option DriverBitRange) : (clip own bounds).Ascending := by
  unfold clip
  split
  · next range =>
      split
      · next overlaps =>
          have := bounds.lower_le_upper
          have := range.lower_le_upper
          rw [DriverBitRange.overlaps_iff] at overlaps
          simp only [DriverBitRange.Ascending, DriverBitRange.intersect]
          omega
      · exact ascending
  · exact ascending

theorem ascending_unionWith (range other : DriverBitRange) :
    (range.unionWith other).Ascending := by
  have := range.lower_le_upper
  simp only [DriverBitRange.Ascending, DriverBitRange.unionWith]
  omega

theorem WellFormed.addUnannotated (wellFormed : graph.WellFormed) {source target : NodeRef}
    (sourceNode : graph.HasNode source) (targetNode : graph.HasNode target)
    (role : DependencyRole) (precision : DependencyPrecision) :
    (graph.addUnannotated source target role precision).WellFormed := by
  have added := wellFormed.addEdge sourceNode targetNode
  unfold NetlistGraph.addUnannotated
  dsimp only
  split
  · exact added
  · next edge found =>
      have fits := added.edges edge (List.mem_of_find?_eq_some found)
      exact added.setEdge ⟨fits.source, fits.target, fits.symbol, fits.bounds⟩

theorem WellFormed.addDependency (wellFormed : graph.WellFormed) {dependency : Dependency}
    (sourceNode : graph.HasNode dependency.source) (targetNode : graph.HasNode dependency.target)
    (interned : graph.Interned dependency.symbol)
    (ascending : dependency.bounds.Ascending) :
    (graph.addDependency dependency).WellFormed := by
  have added := wellFormed.addEdge sourceNode targetNode
  have clipped := ascending_clip ascending (graph.getBounds dependency.source)
  have same : (graph.addEdge dependency.source dependency.target).nodes = graph.nodes ∧
      (graph.addEdge dependency.source dependency.target).symbolTable = graph.symbolTable := by
    unfold NetlistGraph.addEdge
    split <;> exact ⟨rfl, rfl⟩
  have carries : ∀ path, some dependency.symbol = some path →
      (graph.addEdge dependency.source dependency.target).Interned path := by
    rintro _ ⟨⟩
    unfold Interned
    rw [same.2]
    exact interned
  unfold NetlistGraph.addDependency
  dsimp only
  split
  · exact added
  · next edge found =>
      have fits := added.edges edge (List.mem_of_find?_eq_some found)
      split
      · next changed set =>
          refine added.setEdge ?_
          rcases NetlistEdge.setVariable_some set with ⟨_, _, rfl⟩ | ⟨_, rfl⟩
          · exact ⟨fits.source, fits.target, fits.symbol, ascending_unionWith _ _⟩
          · exact ⟨fits.source, fits.target, carries, clipped⟩
      · refine added.addNewEdge ⟨?_, ?_, carries, clipped⟩ <;> unfold HasNode <;> rw [same.1]
        · exact sourceNode
        · exact targetNode

/-- An accepted operation keeps the graph well formed. -/
theorem WellFormed.operate (wellFormed : graph.WellFormed) {operation : GraphOperation}
    (accepted : graph.Accepts operation) {result : NetlistGraph}
    (operated : graph.operate operation = some result) : result.WellFormed := by
  cases operation <;> cases operated
  case addNode node => exact wellFormed.addNode accepted.1 accepted.2.1 accepted.2.2
  case addUnannotated source target role precision =>
    exact wellFormed.addUnannotated accepted.1 accepted.2 role precision
  case addDependency dependency =>
    obtain ⟨source, target, interned, ascending⟩ := accepted
    exact wellFormed.addDependency source target interned ascending
  case toSymbolRef symbol => exact wellFormed.toSymbolRef symbol
  case toTextLocation location => exact wellFormed.toTextLocation location
  case addBlackBoxPath path =>
    exact wellFormed.tables rfl rfl wellFormed.files wellFormed.paths fun _ interned => interned
  case getArtifactId drawn =>
    exact wellFormed.tables rfl rfl wellFormed.files wellFormed.paths fun _ interned => interned

/-- The graphs that the builder makes are well formed. -/
theorem wellFormed_of_run {operations : List GraphOperation}
    (run : GuardedRun operate Accepts {} operations graph) : graph.WellFormed :=
  run.invariant wellFormed_empty fun _ _ _ wellFormed accepted operated =>
    wellFormed.operate accepted operated

end Operations

end NetlistGraph

end SlangNetlist
