import SlangNetlist.Serialization.RoundTrip

/-!
# Accepted documents

What the reader makes of any document that it accepts, whoever wrote it: of
either version, with repeated file names, IDs and edges, and with ranges in
either order.
-/

namespace SlangNetlist

open Library
open NetlistGraph (nodeID)

namespace NetlistSerializer

/-! ## Loops that may throw -/

section Except

variable {ε α β State : Type}

theorem bind_eq_ok {first : Except ε α} {rest : α → Except ε β} {result : β} :
    (first >>= rest) = .ok result ↔ ∃ value, first = .ok value ∧ rest value = .ok result := by
  cases first with
  | error error => simp [bind, Except.bind]
  | ok value => simp [bind, Except.bind]

/-- A property that the steps of a loop keep holds after it. -/
theorem holds_of_loop {step : State → α → Except ε State} {Holds : State → Prop} {list : List α}
    (keeps : ∀ state, ∀ item ∈ list, ∀ next, Holds state → step state item = .ok next → Holds next)
    {state final : State} (holds : Holds state)
    (looped : list.foldlM step state = .ok final) : Holds final := by
  induction list generalizing state with
  | nil =>
      cases looped
      exact holds
  | cons item rest ih =>
      rw [List.foldlM_cons, bind_eq_ok] at looped
      obtain ⟨next, stepped, looped⟩ := looped
      exact ih (fun state other member => keeps state other (List.mem_cons_of_mem _ member))
        (keeps state item List.mem_cons_self next holds stepped) looped

end Except

/-! ## The nodes -/

/-- The latest of the nodes with an ID. -/
def latest (nodes : List NetlistNode) (id : Nat) : Option NodeRef :=
  ((idEntries nodes).reverse.find? fun entry => entry.1 = id).map Prod.snd

theorem placeNodes_append (start : Nat) (front back : List NetlistNode) :
    placeNodes start (front ++ back) =
      placeNodes start front ++ placeNodes (start + front.length) back := by
  induction front generalizing start with
  | nil => rfl
  | cons node rest ih =>
      simp only [List.cons_append, placeNodes, ih, List.length_cons]
      rw [Nat.add_right_comm, Nat.add_assoc start rest.length]

/-- The latest node with an ID is a node with this ID. -/
theorem node_of_latest {nodes : List NetlistNode} {id : Nat} {ref : NodeRef}
    (found : latest nodes id = some ref) : ∃ node ∈ nodes, node.ref = ref ∧ node.ID = id := by
  obtain ⟨entry, first, rfl⟩ := Option.map_eq_some_iff.mp found
  have listed := List.mem_reverse.mp (List.mem_of_find?_eq_some first)
  obtain ⟨node, member, rfl⟩ := List.mem_map.mp listed
  exact ⟨node, member, rfl, by simpa using List.find?_some first⟩

/-- What the reader makes of a document. -/
structure Readable (svIntFromString : String → Option SVInt) (graph : NetlistGraph) : Prop where
  /-- The nodes are named by their kinds and positions. -/
  placed : placeNodes 0 graph.nodes = graph.nodes
  constants : ∀ node ∈ graph.nodes, ∀ value width location,
    node.data = .constant value width location → ∃ text, value = valueFromString svIntFromString text
  files : graph.fileTable.Nodup
  paths : (graph.symbolTable.map SymbolReference.hierarchicalPath).Nodup
  /-- No two edges join the same nodes. -/
  ends : (graph.edges.map ends).Nodup
  sources : ∀ edge ∈ graph.edges, ∃ id, latest graph.nodes id = some edge.source
  targets : ∀ edge ∈ graph.edges, ∃ id, latest graph.nodes id = some edge.target
  symbols : ∀ edge ∈ graph.edges, ∀ path, edge.symbol = some path → graph.Interned path

variable {svIntFromString : String → Option SVInt}

theorem Readable.refs {graph : NetlistGraph} (readable : Readable svIntFromString graph) :
    (graph.nodes.map NetlistNode.ref).Nodup := by
  rw [← readable.placed]
  exact refs_placeNodes 0 graph.nodes

/-- The ID of an end of an edge leads back to it. -/
theorem Readable.latest_nodeID {graph : NetlistGraph} (readable : Readable svIntFromString graph)
    {ref : NodeRef} (ended : ∃ id, latest graph.nodes id = some ref) :
    latest graph.nodes (nodeID graph ref) = some ref := by
  obtain ⟨id, found⟩ := ended
  obtain ⟨node, member, rfl, rfl⟩ := node_of_latest found
  rwa [NetlistGraph.nodeID_eq readable.refs member]

/-! ## The tables -/

/-- The tables, before there are nodes. -/
structure TablesRead (graph : NetlistGraph) : Prop where
  nodes : graph.nodes = []
  edges : graph.edges = []
  symbols : graph.symbolTable = []
  files : graph.fileTable.Nodup

theorem TablesRead.loadFile {graph next : NetlistGraph} {json : Json} (read : TablesRead graph)
    (loaded : loadFile graph json = .ok next) : TablesRead next := by
  obtain ⟨name, _, added⟩ := bind_eq_ok.mp loaded
  cases added
  refine ⟨?_, ?_, ?_, NetlistGraph.files_addFile read.files name⟩
  · rw [NetlistGraph.nodes_addFile, read.nodes]
  · rw [NetlistGraph.edges_addFile, read.edges]
  · rw [NetlistGraph.symbolTable_addFile, read.symbols]

theorem TablesRead.loadBlackBox {graph next : NetlistGraph} {json : Json} (read : TablesRead graph)
    (loaded : loadBlackBox graph json = .ok next) : TablesRead next := by
  obtain ⟨path, _, added⟩ := bind_eq_ok.mp loaded
  cases added
  exact ⟨read.nodes, read.edges, read.symbols, read.files⟩

theorem TablesRead.loadBlackBoxes {graph next : NetlistGraph} {root : Json}
    (read : TablesRead graph) (loaded : loadBlackBoxes graph root = .ok next) :
    TablesRead next := by
  unfold NetlistSerializer.loadBlackBoxes at loaded
  split at loaded
  · obtain ⟨entries, _, looped⟩ := bind_eq_ok.mp loaded
    exact holds_of_loop (fun _ _ _ _ read step => read.loadBlackBox step) read looped
  · cases loaded
    exact read

theorem tablesRead_loadArtifactId {version : Int} {next : NetlistGraph} {root : Json}
    (loaded : loadArtifactId version {} root = .ok next) : TablesRead next := by
  unfold NetlistSerializer.loadArtifactId at loaded
  split at loaded
  · obtain ⟨id, _, titled⟩ := bind_eq_ok.mp loaded
    cases titled
    exact ⟨rfl, rfl, rfl, List.nodup_nil⟩
  · cases loaded
    exact ⟨rfl, rfl, rfl, List.nodup_nil⟩

/-! ## The loops over nodes and edges -/

/-- The graph read so far, and the map that finds its nodes. -/
structure LoadingRead (svIntFromString : String → Option SVInt) (loading : Loading) : Prop where
  readable : Readable svIntFromString loading.graph
  idMap : loading.idMap = (idEntries loading.graph.nodes).reverse

theorem LoadingRead.find {loading : Loading} (read : LoadingRead svIntFromString loading)
    (id : Nat) : loading.find id = latest loading.graph.nodes id := by
  rw [Loading.find, read.idMap, latest]

theorem TablesRead.loading {graph : NetlistGraph} (read : TablesRead graph) :
    LoadingRead svIntFromString { graph := graph } := by
  refine ⟨⟨?_, ?_, read.files, ?_, ?_, ?_, ?_, ?_⟩, ?_⟩ <;>
    simp [read.nodes, read.edges, read.symbols, placeNodes, idEntries]

/-- The fields that are read have the kind that was asked for. -/
theorem kind_nodeDataFromJson {kind : NodeKind} {json : Json} {data : NodeData}
    (read : nodeDataFromJson svIntFromString kind json = .ok data) :
    data.kind = kind ∧ ∀ value width location, data = .constant value width location →
      ∃ text, value = valueFromString svIntFromString text := by
  have passes : ∀ {β : Type} {first : Except LoadError β} {rest : β → Except LoadError NodeData},
      (first >>= rest) = .ok data → ∃ value, rest value = .ok data := fun bound => by
    obtain ⟨value, _, rest⟩ := bind_eq_ok.mp bound
    exact ⟨value, rest⟩
  match kind, read with
  | .port, read =>
      obtain ⟨_, read⟩ := passes read
      obtain ⟨_, read⟩ := passes read
      obtain ⟨_, read⟩ := passes read
      obtain ⟨_, read⟩ := passes read
      obtain ⟨_, read⟩ := passes read
      obtain ⟨_, read⟩ := passes read
      cases read
      exact ⟨rfl, by simp⟩
  | .variable, read =>
      obtain ⟨_, read⟩ := passes read
      obtain ⟨_, read⟩ := passes read
      obtain ⟨_, read⟩ := passes read
      obtain ⟨_, read⟩ := passes read
      obtain ⟨_, read⟩ := passes read
      cases read
      exact ⟨rfl, by simp⟩
  | .state, read =>
      obtain ⟨_, read⟩ := passes read
      obtain ⟨_, read⟩ := passes read
      obtain ⟨_, read⟩ := passes read
      obtain ⟨_, read⟩ := passes read
      obtain ⟨_, read⟩ := passes read
      cases read
      exact ⟨rfl, by simp⟩
  | .assignment, read | .conditional, read | .case, read =>
      obtain ⟨_, read⟩ := passes read
      cases read
      exact ⟨rfl, by simp⟩
  | .constant, read =>
      obtain ⟨_, read⟩ := passes read
      obtain ⟨text, read⟩ := passes read
      obtain ⟨_, read⟩ := passes read
      cases read
      refine ⟨rfl, fun value width location same => ⟨text, ?_⟩⟩
      cases same
      rfl
  | .merge, read | .none, read =>
      cases read
      exact ⟨rfl, by simp⟩

theorem LoadingRead.loadNode {loading next : Loading} {json : Json}
    (read : LoadingRead svIntFromString loading) (edgeless : loading.graph.edges = [])
    (loaded : loadNode svIntFromString loading json = .ok next) :
    LoadingRead svIntFromString next ∧ next.graph.edges = [] := by
  obtain ⟨id, _, loaded⟩ := bind_eq_ok.mp loaded
  obtain ⟨kind, _, loaded⟩ := bind_eq_ok.mp loaded
  obtain ⟨data, decoded, added⟩ := bind_eq_ok.mp loaded
  obtain ⟨kindEq, constant⟩ := kind_nodeDataFromJson decoded
  cases added
  refine ⟨⟨⟨?_, ?_, read.readable.files, read.readable.paths, ?_, ?_, ?_, ?_⟩, ?_⟩, edgeless⟩
  · simp only [NetlistGraph.addNode]
    rw [placeNodes_append, read.readable.placed]
    simp [placeNodes]
  · intro node member value width location same
    rcases List.mem_append.mp member with old | new
    · exact read.readable.constants node old value width location same
    · obtain rfl := List.mem_singleton.mp new
      exact constant value width location same
  · simp [NetlistGraph.addNode, edgeless]
  · simp [NetlistGraph.addNode, edgeless]
  · simp [NetlistGraph.addNode, edgeless]
  · simp [NetlistGraph.addNode, edgeless]
  · simp [NetlistGraph.addNode, idEntries, read.idMap]

/-! ## Writing one edge -/

/-- The graph with the symbol of an edge interned. -/
def internSymbol (graph : NetlistGraph) : Option SymbolReference → NetlistGraph
  | none => graph
  | some record => (graph.intern record).2

/-- The graph with an edge, whose symbol has the record. -/
def writeEdge (graph : NetlistGraph) (edge : NetlistEdge) (record : Option SymbolReference) :
    NetlistGraph :=
  (internSymbol (graph.addEdge edge.source edge.target) record).setEdge edge.source edge.target edge

section WriteEdge

variable (graph : NetlistGraph) (edge : NetlistEdge) (record : Option SymbolReference)

/-- Writing an edge changes the edges and the symbols. -/
theorem writeEdge_eq : ∃ edges symbols,
    writeEdge graph edge record = { graph with edges := edges, symbolTable := symbols } := by
  obtain ⟨edges, added⟩ := addEdge_eq graph edge.source edge.target
  cases record with
  | none => exact ⟨_, graph.symbolTable, by rw [writeEdge, internSymbol, added]; rfl⟩
  | some record =>
      obtain ⟨symbols, interned⟩ := intern_eq (graph.addEdge edge.source edge.target) record
      exact ⟨_, symbols, by rw [writeEdge, internSymbol, interned, added]; rfl⟩

@[simp] theorem nodes_writeEdge : (writeEdge graph edge record).nodes = graph.nodes := by
  obtain ⟨edges, symbols, written⟩ := writeEdge_eq graph edge record
  rw [written]

@[simp] theorem fileTable_writeEdge :
    (writeEdge graph edge record).fileTable = graph.fileTable := by
  obtain ⟨edges, symbols, written⟩ := writeEdge_eq graph edge record
  rw [written]

@[simp] theorem blackBoxPaths_writeEdge :
    (writeEdge graph edge record).blackBoxPaths = graph.blackBoxPaths := by
  obtain ⟨edges, symbols, written⟩ := writeEdge_eq graph edge record
  rw [written]

@[simp] theorem artifactId_writeEdge :
    (writeEdge graph edge record).artifactId = graph.artifactId := by
  obtain ⟨edges, symbols, written⟩ := writeEdge_eq graph edge record
  rw [written]

@[simp] theorem edges_writeEdge :
    (writeEdge graph edge record).edges = placeEdge graph.edges edge := by
  rw [← edges_setEdge_addEdge graph edge]
  cases record with
  | none => rfl
  | some record => simp only [writeEdge, internSymbol, NetlistGraph.setEdge,
      NetlistGraph.edges_intern]

theorem symbolTable_writeEdge :
    (writeEdge graph edge record).symbolTable = (internSymbol graph record).symbolTable := by
  obtain ⟨edges, added⟩ := addEdge_eq graph edge.source edge.target
  cases record with
  | none => simp only [writeEdge, internSymbol, NetlistGraph.setEdge, added]
  | some record =>
      simp only [writeEdge, internSymbol, NetlistGraph.setEdge, added,
        NetlistGraph.symbolTable_intern]
      rfl

end WriteEdge

section InternSymbol

variable {graph : NetlistGraph} {record : Option SymbolReference}

theorem paths_internSymbol
    (paths : (graph.symbolTable.map SymbolReference.hierarchicalPath).Nodup) :
    ((internSymbol graph record).symbolTable.map SymbolReference.hierarchicalPath).Nodup := by
  cases record with
  | none => exact paths
  | some record => exact NetlistGraph.paths_intern paths record

theorem mem_internSymbol {entry : SymbolReference}
    (member : entry ∈ (internSymbol graph record).symbolTable) :
    entry ∈ graph.symbolTable ∨ record = some entry := by
  cases record with
  | none => exact .inl member
  | some record =>
      rw [internSymbol, NetlistGraph.symbolTable_intern] at member
      split at member
      · exact .inl member
      · exact (List.mem_append.mp member).imp_right fun single =>
          congrArg some (List.mem_singleton.mp single).symm

theorem interned_internSymbol {path : String}
    (interned : graph.Interned path ∨ record.map SymbolReference.hierarchicalPath = some path) :
    (internSymbol graph record).Interned path := by
  cases record with
  | none => exact interned.resolve_right (by simp)
  | some record =>
      rcases interned with old | ⟨⟨⟩⟩
      · exact old.intern record
      · unfold internSymbol NetlistGraph.Interned
        rw [NetlistGraph.symbolTable_intern]
        split
        · next present => exact present
        · simp

end InternSymbol

/-- A written edge has its symbol, and the others keep theirs. -/
theorem interned_writeEdge {graph : NetlistGraph} {edge : NetlistEdge}
    {record : Option SymbolReference} {path : String} (interned : graph.Interned path ∨
      record.map SymbolReference.hierarchicalPath = some path) :
    (writeEdge graph edge record).Interned path := by
  unfold NetlistGraph.Interned
  rw [symbolTable_writeEdge]
  exact interned_internSymbol interned

theorem Readable.writeEdge {graph : NetlistGraph} {edge : NetlistEdge}
    {record : Option SymbolReference} (readable : Readable svIntFromString graph)
    (source : ∃ id, latest graph.nodes id = some edge.source)
    (target : ∃ id, latest graph.nodes id = some edge.target)
    (symbol : edge.symbol = record.map SymbolReference.hierarchicalPath) :
    Readable svIntFromString (NetlistSerializer.writeEdge graph edge record) := by
  have among : ∀ other ∈ placeEdge graph.edges edge, other ∈ graph.edges ∨ other = edge := by
    intro other member
    have placed : other ∈ [edge].foldl placeEdge graph.edges := member
    exact (mem_foldl_placeEdge placed).imp_right List.mem_singleton.mp
  have distinct : (([edge].foldl placeEdge graph.edges).map NetlistSerializer.ends).Nodup :=
    nodup_foldl_placeEdge readable.ends
  refine ⟨?_, ?_, ?_, ?_, ?_, ?_, ?_, ?_⟩
  · rw [nodes_writeEdge]
    exact readable.placed
  · rw [nodes_writeEdge]
    exact readable.constants
  · rw [fileTable_writeEdge]
    exact readable.files
  · rw [symbolTable_writeEdge]
    exact paths_internSymbol readable.paths
  · rw [edges_writeEdge]
    exact distinct
  · rw [edges_writeEdge, nodes_writeEdge]
    rintro other member
    rcases among other member with old | rfl
    · exact readable.sources other old
    · exact source
  · rw [edges_writeEdge, nodes_writeEdge]
    rintro other member
    rcases among other member with old | rfl
    · exact readable.targets other old
    · exact target
  · rw [edges_writeEdge]
    rintro other member path carried
    rcases among other member with old | rfl
    · exact interned_writeEdge (.inl (readable.symbols other old path carried))
    · exact interned_writeEdge (.inr (symbol.symm.trans carried))

/-- Reading the symbol of an edge interns it, and changes nothing else. -/
theorem loadSymbol_cases {graph next : NetlistGraph} {json : Json} {symbol : Option String}
    (loaded : loadSymbol graph json = .ok (symbol, next)) :
    ∃ record, next = internSymbol graph record ∧
      symbol = record.map SymbolReference.hierarchicalPath ∧
      ∀ entry, record = some entry → symbolFromJson json = .ok entry := by
  unfold loadSymbol at loaded
  split at loaded
  · obtain ⟨record, read, interned⟩ := bind_eq_ok.mp loaded
    have same := Except.ok.inj interned
    refine ⟨some record, (congrArg Prod.snd same).symm, ?_, fun entry known => ?_⟩
    · rw [Option.map_some, ← NetlistGraph.hierarchicalPath_intern graph record]
      exact (congrArg Prod.fst same).symm
    · rw [read, Option.some.inj known]
  · cases loaded
    exact ⟨none, rfl, rfl, by simp⟩

/-- Reading an edge writes it between the nodes that its IDs find. -/
theorem loadEdge_cases {version : Int} {loading next : Loading} {json : Json}
    (loaded : loadEdge version loading json = .ok next) : ∃ edge record,
      next = { loading with graph := writeEdge loading.graph edge record } ∧
      (∃ id, loading.find id = some edge.source) ∧ (∃ id, loading.find id = some edge.target) ∧
      edge.symbol = record.map SymbolReference.hierarchicalPath ∧
      (json.field "bounds" >>= boundsFromJson) = .ok edge.bounds ∧
      ∀ entry, record = some entry → (json.field "symbol" >>= symbolFromJson) = .ok entry := by
  obtain ⟨sourceId, _, loaded⟩ := bind_eq_ok.mp loaded
  obtain ⟨targetId, _, loaded⟩ := bind_eq_ok.mp loaded
  cases sourceFound : loading.find sourceId with
  | none => simp [sourceFound] at loaded
  | some source =>
      cases targetFound : loading.find targetId with
      | none => simp [sourceFound, targetFound] at loaded
      | some target =>
          simp only [sourceFound, targetFound] at loaded
          obtain ⟨semantics, _, loaded⟩ := bind_eq_ok.mp loaded
          obtain ⟨symbolJson, symbolField, loaded⟩ := bind_eq_ok.mp loaded
          obtain ⟨⟨symbol, graph⟩, symbolRead, loaded⟩ := bind_eq_ok.mp loaded
          obtain ⟨boundsJson, boundsField, loaded⟩ := bind_eq_ok.mp loaded
          obtain ⟨bounds, boundsRead, loaded⟩ := bind_eq_ok.mp loaded
          obtain ⟨disabled, _, written⟩ := bind_eq_ok.mp loaded
          cases written
          obtain ⟨record, rfl, rfl, entries⟩ := loadSymbol_cases symbolRead
          exact ⟨⟨source, target, semantics, _, bounds, disabled⟩, record, rfl,
            ⟨sourceId, sourceFound⟩, ⟨targetId, targetFound⟩, rfl,
            bind_eq_ok.mpr ⟨boundsJson, boundsField, boundsRead⟩, fun entry known =>
              bind_eq_ok.mpr ⟨symbolJson, symbolField, entries entry known⟩⟩

theorem LoadingRead.loadEdge {version : Int} {loading next : Loading} {json : Json}
    (read : LoadingRead svIntFromString loading)
    (loaded : loadEdge version loading json = .ok next) : LoadingRead svIntFromString next := by
  obtain ⟨edge, record, rfl, ⟨sourceId, source⟩, ⟨targetId, target⟩, symbol, _⟩ :=
    loadEdge_cases loaded
  rw [read.find] at source target
  refine ⟨read.readable.writeEdge ⟨sourceId, source⟩ ⟨targetId, target⟩ symbol, ?_⟩
  rw [nodes_writeEdge]
  exact read.idMap

/-! ## The whole document -/

/-- What the reader makes of a document that it accepts. -/
theorem readable_of_deserialize {root : Json} {graph : NetlistGraph}
    (accepted : deserialize svIntFromString root {} = .ok graph) :
    Readable svIntFromString graph := by
  obtain ⟨version, _, accepted⟩ := bind_eq_ok.mp accepted
  split at accepted
  · cases accepted
  · obtain ⟨titled, artifact, accepted⟩ := bind_eq_ok.mp accepted
    obtain ⟨names, _, accepted⟩ := bind_eq_ok.mp accepted
    obtain ⟨listed, files, accepted⟩ := bind_eq_ok.mp accepted
    obtain ⟨boxed, boxes, accepted⟩ := bind_eq_ok.mp accepted
    obtain ⟨nodes, _, accepted⟩ := bind_eq_ok.mp accepted
    obtain ⟨noded, nodesLooped, accepted⟩ := bind_eq_ok.mp accepted
    obtain ⟨edges, _, accepted⟩ := bind_eq_ok.mp accepted
    obtain ⟨edged, edgesLooped, result⟩ := bind_eq_ok.mp accepted
    cases result
    have tables : TablesRead boxed :=
      (holds_of_loop (fun _ _ _ _ read step => read.loadFile step)
        (tablesRead_loadArtifactId artifact) files).loadBlackBoxes boxes
    have nodesKeep (loading : Loading) (json : Json) (next : Loading)
        (read : LoadingRead svIntFromString loading ∧ loading.graph.edges = [])
        (step : loadNode svIntFromString loading json = .ok next) :=
      read.1.loadNode read.2 step
    have placed : LoadingRead svIntFromString noded ∧ noded.graph.edges = [] :=
      holds_of_loop (fun loading json _ => nodesKeep loading json) ⟨tables.loading, tables.edges⟩
        nodesLooped
    exact (holds_of_loop (fun _ _ _ _ read step => read.loadEdge step) placed.1
      edgesLooped).readable

end NetlistSerializer

end SlangNetlist
