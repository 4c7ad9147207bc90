import SlangNetlist.Serialization.Documents

/-!
# Saving what was loaded

A document in range that the reader accepts may name the ends of a range in
either order, repeat an edge, or be of the older version.  Loading settles all
of this: the graph, written and read again, is written the same way for ever.
-/

namespace SlangNetlist

open Library
open NetlistGraph (nodeID nodeID_eq)

namespace NetlistSerializer

/-! ## Settled graphs -/

/-- The fields of a node with the ends of its range in order. -/
def settledData : NodeData → NodeData
  | .port name path location direction bounds =>
      .port name path location direction bounds.normalize
  | .variable name path location bounds => .variable name path location bounds.normalize
  | .state name path location bounds => .state name path location bounds.normalize
  | data => data

def settledNode (node : NetlistNode) : NetlistNode :=
  { node with data := settledData node.data }

def settledEdge (edge : NetlistEdge) : NetlistEdge :=
  { edge with bounds := edge.bounds.normalize }

@[simp] theorem kind_settledData (data : NodeData) : (settledData data).kind = data.kind := by
  cases data <;> rfl

@[simp] theorem boundsToJson_normalize (bounds : DriverBitRange) :
    boundsToJson bounds.normalize = boundsToJson bounds := by
  simp [boundsToJson]

/-- Settling a node does not show in what is written. -/
@[simp] theorem nodeToJson_settledNode (valueToString : ConstantValue → String)
    (node : NetlistNode) :
    nodeToJson valueToString (settledNode node) = nodeToJson valueToString node := by
  obtain ⟨ref, ID, data⟩ := node
  cases data <;> simp [settledNode, settledData, nodeToJson, nodeFields, NodeData.kind]

theorem placeNodes_settledNode (start : Nat) (nodes : List NetlistNode) :
    placeNodes start (nodes.map settledNode) = (placeNodes start nodes).map settledNode := by
  induction nodes generalizing start with
  | nil => rfl
  | cons node rest ih =>
      simp only [List.map_cons, placeNodes, ih]
      congr 1
      simp [settledNode]

@[simp] theorem idEntries_settledNode (nodes : List NetlistNode) :
    idEntries (nodes.map settledNode) = idEntries nodes := by
  unfold idEntries
  rw [List.map_map]
  rfl

section Settled

variable {valueToString : ConstantValue → String} {svIntFromString : String → Option SVInt}
  {graph : NetlistGraph}

theorem readsBack_settledData {data : NodeData} :
    ReadsBack valueToString svIntFromString (settledData data) ↔
      ReadsBack valueToString svIntFromString data := by
  cases data <;> exact Iff.rfl

/-- Settled fields are proper, beside constants without a value. -/
theorem proper_settledData {data : NodeData}
    (integers : ∀ value width location, data = .constant value width location →
      ∃ integer, value = .integer integer) : (settledData data).Proper := by
  have ascending (bounds : DriverBitRange) : bounds.normalize.Ascending := bounds.lower_le_upper
  match data with
  | .port _ _ _ _ bounds => exact ascending bounds
  | .variable _ _ _ bounds => exact ascending bounds
  | .state _ _ _ bounds => exact ascending bounds
  | .constant value width location =>
      obtain ⟨integer, rfl⟩ := integers value width location rfl
      trivial
  | .assignment _ | .conditional _ | .case _ | .merge | .none => trivial

/-- A text gives an integer or the bad value. -/
theorem valueFromString_cases (fromString : String → Option SVInt) (text : String) :
    valueFromString fromString text = .bad ∨
      ∃ integer, valueFromString fromString text = .integer integer := by
  unfold valueFromString
  split
  · exact .inl rfl
  · split
    · next integer _ => exact .inr ⟨integer, rfl⟩
    · exact .inl rfl

/-- The settled fields of a node are what is read back. -/
theorem nodeDataFromJson_settled (readable : Readable svIntFromString graph)
    (bad : valueFromString svIntFromString (valueToString .bad) = .bad) {node : NetlistNode}
    (member : node ∈ graph.nodes) (reads : ReadsBack valueToString svIntFromString node.data) :
    nodeDataFromJson svIntFromString (settledNode node).data.kind
      (nodeToJson valueToString (settledNode node)) = .ok (settledNode node).data := by
  by_cases unset : ∃ width location, node.data = .constant .bad width location
  · obtain ⟨ref, ID, _⟩ := node
    obtain ⟨width, location, rfl⟩ := unset
    have read : nodeDataFromJson svIntFromString .constant (nodeToJson valueToString
        ⟨ref, ID, .constant .bad width location⟩) = .ok (.constant
          (valueFromString svIntFromString (valueToString .bad)) width location) := rfl
    exact read.trans (by rw [bad]; rfl)
  · refine nodeDataFromJson_toJson (proper_settledData fun value width location same => ?_)
      (readsBack_settledData.mpr reads)
    obtain ⟨text, rfl⟩ := readable.constants node member value width location same
    rcases valueFromString_cases svIntFromString text with isBad | integer
    · exact absurd ⟨width, location, isBad ▸ same⟩ unset
    · exact integer

/-! ## Writing the edges again -/

/-- The graph with some edges of another graph, settled. -/
def writeEdges (graph before : NetlistGraph) (edges : List NetlistEdge) : NetlistGraph :=
  edges.foldl (fun written edge => writeEdge written (settledEdge edge) (symbolRecord graph edge))
    before

section WriteEdges

variable (before : NetlistGraph) (edges : List NetlistEdge)

@[simp] theorem nodes_writeEdges : (writeEdges graph before edges).nodes = before.nodes := by
  induction edges generalizing before with
  | nil => rfl
  | cons edge rest ih => exact (ih _).trans (nodes_writeEdge ..)

@[simp] theorem fileTable_writeEdges :
    (writeEdges graph before edges).fileTable = before.fileTable := by
  induction edges generalizing before with
  | nil => rfl
  | cons edge rest ih => exact (ih _).trans (fileTable_writeEdge ..)

@[simp] theorem blackBoxPaths_writeEdges :
    (writeEdges graph before edges).blackBoxPaths = before.blackBoxPaths := by
  induction edges generalizing before with
  | nil => rfl
  | cons edge rest ih => exact (ih _).trans (blackBoxPaths_writeEdge ..)

@[simp] theorem artifactId_writeEdges :
    (writeEdges graph before edges).artifactId = before.artifactId := by
  induction edges generalizing before with
  | nil => rfl
  | cons edge rest ih => exact (ih _).trans (artifactId_writeEdge ..)

theorem edges_writeEdges : (writeEdges graph before edges).edges =
    (edges.map settledEdge).foldl placeEdge before.edges := by
  induction edges generalizing before with
  | nil => rfl
  | cons edge rest ih =>
      refine (ih _).trans ?_
      rw [edges_writeEdge]
      rfl

/-- The records are those of the graph that is written. -/
theorem mem_symbolTable_writeEdges {entry : SymbolReference}
    (member : entry ∈ (writeEdges graph before edges).symbolTable) :
    entry ∈ before.symbolTable ∨ entry ∈ graph.symbolTable := by
  induction edges generalizing before with
  | nil => exact .inl member
  | cons edge rest ih =>
      rcases ih _ member with written | original
      · rw [symbolTable_writeEdge] at written
        refine (mem_internSymbol written).imp_right fun recorded => ?_
        obtain ⟨path, _, found⟩ := Option.bind_eq_some_iff.mp recorded
        exact List.mem_of_find?_eq_some found
      · exact .inr original

theorem interned_writeEdges {path : String} (interned : before.Interned path ∨
      ∃ edge ∈ edges, (symbolRecord graph edge).map SymbolReference.hierarchicalPath = some path) :
    (writeEdges graph before edges).Interned path := by
  induction edges generalizing before with
  | nil => exact interned.resolve_right (by simp)
  | cons edge rest ih =>
      refine ih _ ?_
      rcases interned with old | ⟨other, member, recorded⟩
      · exact .inl (interned_writeEdge (.inl old))
      · rcases List.mem_cons.mp member with rfl | member
        · exact .inl (interned_writeEdge (.inr recorded))
        · exact .inr ⟨other, member, recorded⟩

end WriteEdges

/-- The record of the symbol of an edge is the one of its path. -/
theorem Readable.map_symbolRecord (readable : Readable svIntFromString graph) {edge : NetlistEdge}
    (member : edge ∈ graph.edges) :
    (symbolRecord graph edge).map SymbolReference.hierarchicalPath = edge.symbol := by
  unfold symbolRecord
  cases carried : edge.symbol with
  | none => rfl
  | some path =>
      obtain ⟨entry, _, same, found⟩ := find?_interned (readable.symbols edge member path carried)
      simp [found, same]

theorem loadSymbol_record (readable : Readable svIntFromString graph) {edge : NetlistEdge}
    (member : edge ∈ graph.edges) (target : NetlistGraph) :
    loadSymbol target (symbolJson graph edge) =
      .ok (edge.symbol, internSymbol target (symbolRecord graph edge)) := by
  rw [← readable.map_symbolRecord member, symbolJson]
  cases symbolRecord graph edge with
  | none => rfl
  | some record =>
      have read : loadSymbol target (symbolToJson record) =
          .ok (some (target.intern record).1.hierarchicalPath, (target.intern record).2) := rfl
      exact read.trans (by rw [NetlistGraph.hierarchicalPath_intern]; rfl)

/-- Reading an edge again writes it, settled. -/
theorem loadEdge_again (readable : Readable svIntFromString graph) {edge : NetlistEdge}
    (member : edge ∈ graph.edges) {loading : Loading}
    (finds : ∀ id, loading.find id = latest graph.nodes id) :
    loadEdge formatVersion loading (edgeToJson graph edge) =
      .ok { loading with
        graph := writeEdge loading.graph (settledEdge edge) (symbolRecord graph edge) } := by
  have source := (finds _).trans (readable.latest_nodeID (readable.sources edge member))
  have target := (finds _).trans (readable.latest_nodeID (readable.targets edge member))
  have sourceRead : (edgeToJson graph edge).field "source" >>= Json.getNat =
      .ok (nodeID graph edge.source) := rfl
  have targetRead : (edgeToJson graph edge).field "target" >>= Json.getNat =
      .ok (nodeID graph edge.target) := rfl
  have rest : loadEdge formatVersion loading (edgeToJson graph edge) =
      (semanticsFromJson formatVersion (edgeToJson graph edge)).bind fun semantics =>
      (loadSymbol (loading.graph.addEdge edge.source edge.target) (symbolJson graph edge)).bind
        fun read =>
      .ok { loading with
        graph := read.2.setEdge edge.source edge.target
          { source := edge.source, target := edge.target, semantics := semantics,
            symbol := read.1, bounds := edge.bounds.normalize, disabled := edge.disabled } } := by
    rw [loadEdge, sourceRead, targetRead]
    simp only [bind, Except.bind, source, target]
    rfl
  rw [rest, semanticsFromJson_edgeToJson, Except.bind, loadSymbol_record readable member]
  rfl

theorem foldlM_loadEdge_again (readable : Readable svIntFromString graph)
    {edges : List NetlistEdge} (members : ∀ edge ∈ edges, edge ∈ graph.edges) {loading : Loading}
    (finds : ∀ id, loading.find id = latest graph.nodes id) :
    (edges.map (edgeToJson graph)).foldlM (loadEdge formatVersion) loading =
      .ok { loading with graph := writeEdges graph loading.graph edges } := by
  induction edges generalizing loading with
  | nil => rfl
  | cons edge rest ih =>
      obtain ⟨member, members⟩ := List.forall_mem_cons.mp members
      rw [List.map_cons, List.foldlM_cons, loadEdge_again readable member finds]
      exact ih members finds

/-! ## The graph that is read again -/

/-- The graph with its ranges in order and its edges node by node. -/
structure Settles (drawn : String) (graph loaded : NetlistGraph) : Prop where
  fileTable : loaded.fileTable = graph.fileTable
  blackBoxPaths : loaded.blackBoxPaths = graph.blackBoxPaths
  artifactId : loaded.artifactId = graph.getArtifactId drawn
  nodes : loaded.nodes = graph.nodes.map settledNode
  edges : loaded.edges = (allOutEdges graph).map settledEdge
  records : ∀ edge ∈ graph.edges, symbolRecord loaded (settledEdge edge) = symbolRecord graph edge

/-- The out-edges of the nodes are all edges. -/
theorem Readable.mem_allOutEdges (readable : Readable svIntFromString graph) {edge : NetlistEdge}
    (member : edge ∈ graph.edges) : edge ∈ allOutEdges graph := by
  obtain ⟨id, found⟩ := readable.sources edge member
  obtain ⟨node, nodeMem, same, _⟩ := node_of_latest found
  refine List.mem_flatMap.mpr ⟨node, nodeMem, List.mem_filter.mpr ⟨member, ?_⟩⟩
  simp [same]

/-- The out-edges of all nodes have distinct ends, as the edges have. -/
theorem Readable.ends_allOutEdges (readable : Readable svIntFromString graph) :
    ((allOutEdges graph).map NetlistSerializer.ends).Nodup := by
  have source : ∀ ref pair, pair ∈ (graph.outEdges ref).map NetlistSerializer.ends →
      pair.1 = ref := by
    intro ref pair member
    obtain ⟨edge, inNode, rfl⟩ := List.mem_map.mp member
    have source : edge.source = ref := by simpa using (List.mem_filter.mp inNode).2
    exact source
  rw [allOutEdges, List.map_flatMap, List.nodup_flatMap]
  refine ⟨fun node _ => readable.ends.sublist (List.filter_sublist.map _), ?_⟩
  apply (List.pairwise_map.mp readable.refs).imp
  intro first second differ pair inFirst inSecond
  exact differ ((source _ _ inFirst).symm.trans (source _ _ inSecond))

/-- An edge keeps the record of its symbol. -/
theorem Readable.symbolRecord_again (readable : Readable svIntFromString graph)
    {loaded : NetlistGraph} {edge : NetlistEdge} (member : edge ∈ graph.edges)
    (records : ∀ entry ∈ loaded.symbolTable, entry ∈ graph.symbolTable)
    (interned : ∀ path, edge.symbol = some path → loaded.Interned path) :
    symbolRecord loaded (settledEdge edge) = symbolRecord graph edge := by
  unfold symbolRecord settledEdge
  cases carried : edge.symbol with
  | none => rfl
  | some path =>
      obtain ⟨entry, entryMem, samePath, found⟩ :=
        find?_interned (readable.symbols edge member path carried)
      obtain ⟨other, otherMem, otherPath, otherFound⟩ := find?_interned (interned path carried)
      have sameEntry : other = entry := List.inj_on_of_nodup_map readable.paths
        (records other otherMem) entryMem (otherPath.trans samePath.symm)
      exact otherFound.trans (sameEntry ▸ found.symm)

/-- The graph that is read again is the settled one. -/
theorem exists_settled (drawn : String) (readable : Readable svIntFromString graph)
    (reads : ∀ node ∈ graph.nodes, ReadsBack valueToString svIntFromString node.data)
    (bad : valueFromString svIntFromString (valueToString .bad) = .bad) :
    ∃ loaded, deserialize svIntFromString (serialize valueToString drawn graph) {} = .ok loaded ∧
      Settles drawn graph loaded := by
  have unfolded : deserialize svIntFromString (serialize valueToString drawn graph) {} =
      ((graph.fileTable.map Json.string).foldlM loadFile
        { artifactId := graph.getArtifactId drawn }).bind fun files =>
      ((graph.blackBoxPaths.map Json.string).foldlM loadBlackBox files).bind fun boxes =>
      ((graph.nodes.map (nodeToJson valueToString)).foldlM (loadNode svIntFromString)
        { graph := boxes }).bind fun loading =>
      (((allOutEdges graph).map (edgeToJson graph)).foldlM (loadEdge formatVersion)
        loading).bind fun loading => .ok loading.graph := rfl
  let titled : NetlistGraph := { artifactId := graph.getArtifactId drawn }
  let boxed : NetlistGraph :=
    { titled with fileTable := graph.fileTable, blackBoxPaths := graph.blackBoxPaths }
  have files : (graph.fileTable.map Json.string).foldlM loadFile titled =
      .ok { titled with fileTable := graph.fileTable } := by
    have distinct : (titled.fileTable ++ graph.fileTable).Nodup := readable.files
    exact foldlM_loadFile distinct
  have boxes : (graph.blackBoxPaths.map Json.string).foldlM loadBlackBox
      { titled with fileTable := graph.fileTable } = .ok boxed :=
    foldlM_loadBlackBox graph.blackBoxPaths { titled with fileTable := graph.fileTable }
  let listed : Loading :=
    { graph := { boxed with nodes := graph.nodes.map settledNode }
      idMap := (idEntries graph.nodes).reverse }
  have nodes : (graph.nodes.map (nodeToJson valueToString)).foldlM (loadNode svIntFromString)
      { graph := boxed } = .ok listed := by
    have same : graph.nodes.map (nodeToJson valueToString) =
        (graph.nodes.map settledNode).map (nodeToJson valueToString) := by
      rw [List.map_map]
      exact List.map_congr_left fun node _ => (nodeToJson_settledNode valueToString node).symm
    have fields : ∀ node ∈ graph.nodes.map settledNode,
        nodeDataFromJson svIntFromString node.data.kind (nodeToJson valueToString node) =
          .ok node.data := by
      rintro _ settledMem
      obtain ⟨node, member, rfl⟩ := List.mem_map.mp settledMem
      exact nodeDataFromJson_settled readable bad member (reads node member)
    have placed : placeNodes 0 (graph.nodes.map settledNode) = graph.nodes.map settledNode := by
      rw [placeNodes_settledNode, readable.placed]
    rw [same, foldlM_loadNode fields]
    simp [listed, boxed, titled, placed]
  have edges := foldlM_loadEdge_again readable (fun edge => mem_allOutEdges)
    (show ∀ id, listed.find id = latest graph.nodes id from fun id => rfl)
  refine ⟨writeEdges graph listed.graph (allOutEdges graph), ?_, ?_⟩
  · rw [unfolded, files, Except.bind, boxes, Except.bind, nodes, Except.bind, edges, Except.bind]
  · refine ⟨by simp [listed, boxed], by simp [listed, boxed], by simp [listed, boxed, titled],
      by simp [listed], ?_, ?_⟩
    · have distinct : ([] ++ (allOutEdges graph).map settledEdge |>.map ends).Nodup := by
        rw [List.nil_append, List.map_map]
        exact readable.ends_allOutEdges
      rw [edges_writeEdges]
      exact foldl_placeEdge distinct
    · intro edge member
      refine readable.symbolRecord_again member (fun entry inLoaded => ?_) fun path carried => ?_
      · exact (mem_symbolTable_writeEdges _ _ inLoaded).resolve_left (by
          simp [listed, boxed, titled])
      · refine interned_writeEdges _ _ (.inr ⟨edge, readable.mem_allOutEdges member, ?_⟩)
        exact (readable.map_symbolRecord member).trans carried

section Settles

variable {drawn : String} {loaded : NetlistGraph}

theorem Settles.outEdges (settles : Settles drawn graph loaded)
    (readable : Readable svIntFromString graph) {node : NetlistNode} (member : node ∈ graph.nodes) :
    loaded.outEdges node.ref = (graph.outEdges node.ref).map settledEdge := by
  rw [NetlistGraph.outEdges, settles.edges, List.filter_map,
    ← filter_allOutEdges readable.refs member]
  rfl

theorem Settles.allOutEdges (settles : Settles drawn graph loaded)
    (readable : Readable svIntFromString graph) :
    NetlistSerializer.allOutEdges loaded =
      (NetlistSerializer.allOutEdges graph).map settledEdge := by
  unfold NetlistSerializer.allOutEdges
  rw [settles.nodes, List.flatMap_map, List.map_flatMap]
  apply List.flatMap_congr
  intro node member
  have own : loaded.outEdges node.ref = (graph.outEdges node.ref).map settledEdge :=
    settles.outEdges readable member
  exact own

theorem Settles.nodeID (settles : Settles drawn graph loaded)
    (readable : Readable svIntFromString graph) {node : NetlistNode} (member : node ∈ graph.nodes) :
    NetlistGraph.nodeID loaded node.ref = NetlistGraph.nodeID graph node.ref := by
  have refs : (loaded.nodes.map NetlistNode.ref).Nodup := by
    rw [settles.nodes, List.map_map]
    exact readable.refs
  have settledMem : settledNode node ∈ loaded.nodes := by
    rw [settles.nodes]
    exact List.mem_map_of_mem member
  have settledID : NetlistGraph.nodeID loaded (settledNode node).ref = (settledNode node).ID :=
    nodeID_eq refs settledMem
  exact settledID.trans (nodeID_eq readable.refs member).symm

/-- A settled edge is written as the edge. -/
theorem Settles.edgeToJson (settles : Settles drawn graph loaded)
    (readable : Readable svIntFromString graph) {edge : NetlistEdge} (member : edge ∈ graph.edges) :
    NetlistSerializer.edgeToJson loaded (settledEdge edge) =
      NetlistSerializer.edgeToJson graph edge := by
  obtain ⟨sourceId, sourceFound⟩ := readable.sources edge member
  obtain ⟨targetId, targetFound⟩ := readable.targets edge member
  obtain ⟨source, sourceMem, sourceRef, _⟩ := node_of_latest sourceFound
  obtain ⟨target, targetMem, targetRef, _⟩ := node_of_latest targetFound
  have sourceID := settles.nodeID readable sourceMem
  have targetID := settles.nodeID readable targetMem
  rw [sourceRef] at sourceID
  rw [targetRef] at targetID
  simp only [NetlistSerializer.edgeToJson, settles.records edge member]
  simp only [settledEdge, sourceID, targetID, boundsToJson_normalize]

/-- The settled graph is written as the graph. -/
theorem Settles.serialize (settles : Settles drawn graph loaded)
    (readable : Readable svIntFromString graph) (drawnSet : drawn ≠ "") (other : String) :
    NetlistSerializer.serialize valueToString other loaded =
      NetlistSerializer.serialize valueToString drawn graph := by
  have artifact : loaded.getArtifactId other = graph.getArtifactId drawn := by
    have nonempty : graph.getArtifactId drawn ≠ "" := by
      unfold NetlistGraph.getArtifactId
      split
      · exact drawnSet
      · assumption
    rw [← settles.artifactId] at nonempty ⊢
    exact if_neg nonempty
  have nodes : loaded.nodes.map (nodeToJson valueToString) =
      graph.nodes.map (nodeToJson valueToString) := by
    rw [settles.nodes, List.map_map]
    exact List.map_congr_left fun node _ => nodeToJson_settledNode valueToString node
  have edges : (NetlistSerializer.allOutEdges loaded).map (NetlistSerializer.edgeToJson loaded) =
      (NetlistSerializer.allOutEdges graph).map (NetlistSerializer.edgeToJson graph) := by
    rw [settles.allOutEdges readable, List.map_map]
    exact List.map_congr_left fun edge member =>
      settles.edgeToJson readable (NetlistSerializer.mem_allOutEdges member)
  unfold NetlistSerializer.serialize
  rw [artifact, settles.fileTable, settles.blackBoxPaths, nodes, edges]

end Settles

/-- An accepted document in range that is loaded and saved is saved as a document in range, which
from then on is loaded as the settled graph and saved as it is. -/
theorem resave {document : Document}
    (accepted : deserialize svIntFromString document.root {} = .ok graph)
    (reads : ∀ node ∈ graph.nodes, ReadsBack valueToString svIntFromString node.data)
    (bad : valueFromString svIntFromString (valueToString .bad) = .bad)
    {drawn : String} (drawnSet : drawn ≠ "") :
    ∃ saved : Document, saved.root = serialize valueToString drawn graph ∧
      ∃ loaded, deserialize svIntFromString saved.root {} = .ok loaded ∧
        Settles drawn graph loaded ∧
        ∀ other, serialize valueToString other loaded = saved.root := by
  have readable := readable_of_deserialize accepted
  obtain ⟨loaded, read, settles⟩ := exists_settled drawn readable reads bad
  have fits := documentFits_serialize (fits_of_deserialize accepted) valueToString drawn
  exact ⟨⟨serialize valueToString drawn graph, fits⟩, rfl, loaded, read, settles,
    settles.serialize readable drawnSet⟩

end Settled

/-- A document of version 3: a repeated file and ID, a descending range and a real constant. -/
def olderDocument : Json :=
  .object [("version", .number 3),
    ("fileTable", .array [.string "a.sv", .string "a.sv"]),
    ("nodes", .array [
      .object [("id", .number 7), ("kind", .string "Merge")],
      .object [("id", .number 7), ("kind", .string "Constant"), ("width", .number 64),
        ("value", .string "0.5"), ("location", locationToJson ⟨0, 4, 2⟩)],
      .object [("id", .number 8), ("kind", .string "Variable"), ("name", .string "t"),
        ("path", .string "m.t"), ("location", locationToJson ⟨0, 3, 1⟩),
        ("bounds", .array [.number 7, .number 0])]]),
    ("edges", .array [
      .object [("source", .number 7), ("target", .number 8), ("edgeKind", .string "None"),
        ("symbol", symbolToJson ⟨"t", "m.t", ⟨0, 3, 1⟩⟩),
        ("bounds", .array [.number 7, .number 0]), ("disabled", .bool false)]])]

/-- The graph of this document. -/
def olderGraph : NetlistGraph :=
  let symbol : SymbolReference := ⟨"t", "m.t", ⟨0, 3, 1⟩⟩
  { nodes := [⟨⟨0, .merge, 0⟩, 7, .merge⟩,
      ⟨⟨0, .constant, 1⟩, 7, .constant .bad 64 ⟨0, 4, 2⟩⟩,
      ⟨⟨0, .variable, 2⟩, 8, .variable "t" "m.t" ⟨0, 3, 1⟩ ⟨7, 0⟩⟩]
    edges := [{ source := ⟨0, .constant, 1⟩, target := ⟨0, .variable, 2⟩,
                semantics := ⟨.none, .unknown, .unknown⟩, symbol := some "m.t",
                bounds := ⟨7, 0⟩ }]
    fileTable := ["a.sv"]
    symbolTable := [symbol] }

theorem resave_older :
    ∃ saved : Document, saved.root = serialize bitToString "a1" olderGraph ∧
      ∃ loaded, deserialize bitFromString saved.root {} = .ok loaded ∧
        Settles "a1" olderGraph loaded ∧
        ∀ other, serialize bitToString other loaded = saved.root := by
  have accepted : deserialize bitFromString (⟨olderDocument, by decide⟩ : Document).root {} =
      .ok olderGraph := by rfl
  exact resave accepted (by decide +kernel) (by decide) (by decide)

end NetlistSerializer

end SlangNetlist
