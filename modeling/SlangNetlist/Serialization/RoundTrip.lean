import Mathlib.Data.List.Nodup
import SlangNetlist.Serialization.Decode

/-!
# The round trip of a graph

The reader puts the edges back with `addEdge`, which keeps one edge between two
nodes.  A graph is restored exactly if no node has two edges to one target.
-/

namespace SlangNetlist

open Library
open NetlistGraph (nodeID node?_eq nodeID_eq)

namespace NetlistSerializer

/-! ## What a graph looks like from outside -/

/-- An out-edge, its target named by ID. -/
structure EdgeView where
  target : Nat
  semantics : EdgeSemantics
  symbol : Option SymbolReference
  bounds : DriverBitRange
  disabled : Bool
  deriving DecidableEq, Repr

/-- A node with its out-edges in order. -/
structure NodeView where
  ID : Nat
  data : NodeData
  outEdges : List EdgeView
  deriving DecidableEq, Repr

def edgeView (graph : NetlistGraph) (edge : NetlistEdge) : EdgeView where
  target := nodeID graph edge.target
  semantics := edge.semantics
  symbol := symbolRecord graph edge
  bounds := edge.bounds
  disabled := edge.disabled

def nodeView (graph : NetlistGraph) (node : NetlistNode) : NodeView where
  ID := node.ID
  data := node.data
  outEdges := (graph.outEdges node.ref).map (edgeView graph)

/-- The loaded graph has the tables, the artifact identifier, the nodes and the edges. -/
structure Restores (drawn : String) (graph loaded : NetlistGraph) : Prop where
  fileTable : loaded.fileTable = graph.fileTable
  blackBoxPaths : loaded.blackBoxPaths = graph.blackBoxPaths
  artifactId : loaded.artifactId = graph.getArtifactId drawn
  nodes : loaded.nodes.map (nodeView loaded) = graph.nodes.map (nodeView graph)

instance (drawn : String) (graph loaded : NetlistGraph) :
    Decidable (Restores drawn graph loaded) :=
  decidable_of_iff (loaded.fileTable = graph.fileTable ∧
      loaded.blackBoxPaths = graph.blackBoxPaths ∧
      loaded.artifactId = graph.getArtifactId drawn ∧
      loaded.nodes.map (nodeView loaded) = graph.nodes.map (nodeView graph))
    ⟨fun ⟨files, boxes, id, nodes⟩ => ⟨files, boxes, id, nodes⟩,
      fun restores => ⟨restores.fileTable, restores.blackBoxPaths, restores.artifactId,
        restores.nodes⟩⟩

/-- No two out-edges of a node have one target. -/
def SimpleEdges (graph : NetlistGraph) : Prop :=
  ∀ node ∈ graph.nodes, ((graph.outEdges node.ref).map NetlistEdge.target).Nodup

/-! ## The tables -/

theorem foldlM_loadFile {files : List String} {graph : NetlistGraph}
    (distinct : (graph.fileTable ++ files).Nodup) :
    (files.map Json.string).foldlM loadFile graph =
      .ok { graph with fileTable := graph.fileTable ++ files } := by
  induction files generalizing graph with
  | nil => simp [pure, Except.pure]
  | cons name rest ih =>
      have fresh : graph.fileTable.findIdx? (fun file => file = name) = none := by
        rw [List.findIdx?_eq_none_iff]
        intro file member
        have apart := (List.nodup_append.mp distinct).2.2 file member name List.mem_cons_self
        simpa using apart
      have added : (graph.addFile name).2 =
          { graph with fileTable := graph.fileTable ++ [name] } := by
        simp [NetlistGraph.addFile, fresh]
      have next : ((graph.addFile name).2.fileTable ++ rest).Nodup := by
        rw [added]
        simpa using distinct
      have loadedOne : loadFile graph (.string name) = .ok (graph.addFile name).2 := rfl
      rw [List.map_cons, List.foldlM_cons, loadedOne]
      refine (ih next).trans ?_
      rw [added]
      simp

theorem foldlM_loadBlackBox (paths : List String) (graph : NetlistGraph) :
    (paths.map Json.string).foldlM loadBlackBox graph =
      .ok { graph with blackBoxPaths := graph.blackBoxPaths ++ paths } := by
  induction paths generalizing graph with
  | nil => simp [pure, Except.pure]
  | cons path rest ih =>
      have loadedOne : loadBlackBox graph (.string path) =
          .ok { graph with blackBoxPaths := graph.blackBoxPaths ++ [path] } := rfl
      rw [List.map_cons, List.foldlM_cons, loadedOne]
      refine (ih _).trans ?_
      simp

/-! ## The nodes -/

/-- The nodes as the reader names them, by kind and position. -/
def placeNodes : Nat → List NetlistNode → List NetlistNode
  | _, [] => []
  | start, node :: rest =>
      { node with ref := ⟨0, node.data.kind, start⟩ } :: placeNodes (start + 1) rest

/-- The entries of the map from IDs to nodes. -/
def idEntries (nodes : List NetlistNode) : List (Nat × NodeRef) :=
  nodes.map fun node => (node.ID, node.ref)

section Nodes

variable {valueToString : ConstantValue → String} {svIntFromString : String → Option SVInt}
  {nodes : List NetlistNode}

@[simp] theorem map_ID_placeNodes (start : Nat) (nodes : List NetlistNode) :
    (placeNodes start nodes).map NetlistNode.ID = nodes.map NetlistNode.ID := by
  induction nodes generalizing start with
  | nil => rfl
  | cons node rest ih => simp [placeNodes, ih]

theorem serial_of_mem_placeNodes {start : Nat} {placed : NetlistNode}
    (member : placed ∈ placeNodes start nodes) : start ≤ placed.ref.serial := by
  induction nodes generalizing start with
  | nil => simp [placeNodes] at member
  | cons node rest ih =>
      rcases List.mem_cons.mp member with rfl | member
      · exact Nat.le_refl _
      · exact Nat.le_of_succ_le (ih member)

theorem refs_placeNodes (start : Nat) (nodes : List NetlistNode) :
    ((placeNodes start nodes).map NetlistNode.ref).Nodup := by
  induction nodes generalizing start with
  | nil => simp [placeNodes]
  | cons node rest ih =>
      refine List.nodup_cons.mpr ⟨?_, ih (start + 1)⟩
      rintro member
      obtain ⟨placed, placedMem, same⟩ := List.mem_map.mp member
      have later := serial_of_mem_placeNodes placedMem
      rw [same] at later
      exact Nat.not_succ_le_self start later

/-- A view that agrees on nodes with one ID agrees on the lists. -/
theorem map_placeNodes {β : Type} {start : Nat} {before after : NetlistNode → β}
    (agree : ∀ node ∈ nodes, ∀ placed ∈ placeNodes start nodes, placed.ID = node.ID →
      placed.data = node.data → after placed = before node) :
    (placeNodes start nodes).map after = nodes.map before := by
  induction nodes generalizing start with
  | nil => rfl
  | cons node rest ih =>
      simp only [placeNodes, List.map_cons]
      rw [agree node List.mem_cons_self _ List.mem_cons_self rfl rfl, ih]
      exact fun other otherMem placed placedMem => agree other (List.mem_cons_of_mem _ otherMem)
        placed (List.mem_cons_of_mem _ placedMem)

theorem foldlM_loadNode {loading : Loading}
    (reads : ∀ node ∈ nodes, nodeDataFromJson svIntFromString node.data.kind
      (nodeToJson valueToString node) = .ok node.data) :
    (nodes.map (nodeToJson valueToString)).foldlM (loadNode svIntFromString) loading =
      .ok { graph := { loading.graph with
              nodes := loading.graph.nodes ++
                placeNodes loading.graph.nodes.length nodes },
            idMap := (idEntries (placeNodes loading.graph.nodes.length nodes)).reverse ++
              loading.idMap } := by
  induction nodes generalizing loading with
  | nil => simp [placeNodes, idEntries, pure, Except.pure]
  | cons node rest ih =>
      obtain ⟨data, restReads⟩ := List.forall_mem_cons.mp reads
      have loadedOne : loadNode svIntFromString loading (nodeToJson valueToString node) =
          (nodeDataFromJson svIntFromString
            (nodeKindFromString (nodeKindToString node.data.kind))
            (nodeToJson valueToString node)).bind fun data =>
          .ok { graph := loading.graph.addNode
                  { ref := ⟨0, data.kind, loading.graph.nodes.length⟩,
                    ID := node.ID, data := data },
                idMap := (node.ID, ⟨0, data.kind, loading.graph.nodes.length⟩) ::
                  loading.idMap } := rfl
      rw [List.map_cons, List.foldlM_cons, loadedOne, nodeKindFromString_toString, data]
      refine (ih restReads).trans ?_
      simp [NetlistGraph.addNode, placeNodes, idEntries]

end Nodes

/-! ## The edges -/

theorem addEdge_eq (graph : NetlistGraph) (source target : NodeRef) :
    ∃ edges, graph.addEdge source target = { graph with edges := edges } := by
  unfold NetlistGraph.addEdge
  split
  · exact ⟨graph.edges, rfl⟩
  · exact ⟨_, rfl⟩

theorem intern_eq (graph : NetlistGraph) (reference : SymbolReference) :
    ∃ table, (graph.intern reference).2 = { graph with symbolTable := table } := by
  unfold NetlistGraph.intern
  split
  · exact ⟨graph.symbolTable, rfl⟩
  · exact ⟨_, rfl⟩

/-- The ends of an edge. -/
def ends (edge : NetlistEdge) : NodeRef × NodeRef := (edge.source, edge.target)

theorem joins_iff_ends {edge other : NetlistEdge} :
    other.joins edge.source edge.target = true ↔ ends other = ends edge := by
  simp [NetlistEdge.joins, ends]

/-- `addEdge` with the annotations of an edge: write the first edge with its ends, or add it. -/
def placeEdge (edges : List NetlistEdge) (edge : NetlistEdge) : List NetlistEdge :=
  if ends edge ∈ edges.map ends then
    modifyFirst (NetlistEdge.joins edge.source edge.target) (fun _ => edge) edges
  else edges ++ [edge]

section Edges

variable {edges : List NetlistEdge} {edge : NetlistEdge}

/-- Adding and annotating an edge places it. -/
theorem edges_setEdge_addEdge (graph : NetlistGraph) (edge : NetlistEdge) :
    ((graph.addEdge edge.source edge.target).setEdge edge.source edge.target edge).edges =
      placeEdge graph.edges edge := by
  unfold NetlistGraph.addEdge placeEdge NetlistGraph.lookupOutEdge
  cases found : graph.edges.find? (NetlistEdge.joins edge.source edge.target) with
  | some other =>
      have present : ends edge ∈ graph.edges.map ends :=
        List.mem_map.mpr ⟨other, List.mem_of_find?_eq_some found,
          joins_iff_ends.mp (List.find?_some found)⟩
      rw [if_pos present]
      rfl
  | none =>
      have unmatched := List.find?_eq_none.mp found
      have absent : ends edge ∉ graph.edges.map ends := by
        rintro member
        obtain ⟨other, otherMem, same⟩ := List.mem_map.mp member
        exact unmatched other otherMem (joins_iff_ends.mpr same)
      rw [if_neg absent]
      exact modifyFirst_append unmatched (by simp [NetlistEdge.joins])

theorem ends_placeEdge (edges : List NetlistEdge) (edge : NetlistEdge) :
    (placeEdge edges edge).map ends =
      if ends edge ∈ edges.map ends then edges.map ends else edges.map ends ++ [ends edge] := by
  unfold placeEdge
  split
  · exact map_modifyFirst (fun other joins => (joins_iff_ends.mp joins).symm) edges
  · simp

/-- Placed edges have distinct ends. -/
theorem nodup_foldl_placeEdge {added : List NetlistEdge} (distinct : (edges.map ends).Nodup) :
    ((added.foldl placeEdge edges).map ends).Nodup := by
  induction added generalizing edges with
  | nil => exact distinct
  | cons head rest ih =>
      refine ih ?_
      rw [ends_placeEdge]
      split
      · exact distinct
      · next absent =>
          refine List.nodup_append.mpr ⟨distinct, by simp, ?_⟩
          rintro pair member _ single rfl
          exact absent (List.mem_singleton.mp single ▸ member)

/-- Edges with distinct ends are placed one after another. -/
theorem foldl_placeEdge {added : List NetlistEdge} (distinct : ((edges ++ added).map ends).Nodup) :
    added.foldl placeEdge edges = edges ++ added := by
  induction added generalizing edges with
  | nil => simp
  | cons head rest ih =>
      have absent : ends head ∉ edges.map ends := by
        rw [List.map_append, List.map_cons] at distinct
        intro member
        exact (List.nodup_append.mp distinct).2.2 _ member _ List.mem_cons_self rfl
      have placed : placeEdge edges head = edges ++ [head] := if_neg absent
      rw [List.foldl_cons, placed, ih (by simpa using distinct)]
      simp

theorem mem_foldl_placeEdge {added : List NetlistEdge}
    (member : edge ∈ added.foldl placeEdge edges) : edge ∈ edges ∨ edge ∈ added := by
  induction added generalizing edges with
  | nil => exact Or.inl member
  | cons head rest ih =>
      rcases ih member with placed | added
      · unfold placeEdge at placed
        split at placed
        · rcases mem_modifyFirst placed with old | ⟨_, _, _, rfl⟩
          · exact Or.inl old
          · exact Or.inr List.mem_cons_self
        · rcases List.mem_append.mp placed with old | new
          · exact Or.inl old
          · exact Or.inr (List.mem_singleton.mp new ▸ List.mem_cons_self)
      · exact Or.inr (List.mem_cons_of_mem _ added)

end Edges

/-- The address that the reader gives the node at an address. -/
def moved (graph : NetlistGraph) (ref : NodeRef) : NodeRef :=
  (((placeNodes 0 graph.nodes).find? fun placed => placed.ID = nodeID graph ref).map
    NetlistNode.ref).getD ref

/-- An edge between the loaded nodes. -/
def movedEdge (graph : NetlistGraph) (edge : NetlistEdge) : NetlistEdge :=
  { edge with source := moved graph edge.source, target := moved graph edge.target }

section Moved

variable {graph : NetlistGraph} (wellFormed : graph.WellFormed)

include wellFormed

/-- A node moves to the address of the loaded node with its ID. -/
theorem moved_eq {node placed : NetlistNode} (member : node ∈ graph.nodes)
    (placedMem : placed ∈ placeNodes 0 graph.nodes) (same : placed.ID = node.ID) :
    moved graph node.ref = placed.ref := by
  have ids : ((placeNodes 0 graph.nodes).map NetlistNode.ID).Nodup := by
    rw [map_ID_placeNodes]
    exact wellFormed.ids
  unfold moved
  rw [nodeID_eq wellFormed.refs member]
  cases found : (placeNodes 0 graph.nodes).find? fun other => other.ID = node.ID with
  | none =>
      have absent := List.find?_eq_none.mp found placed placedMem
      simp [same] at absent
  | some other =>
      have otherID : other.ID = node.ID := by simpa using List.find?_some found
      rw [List.inj_on_of_nodup_map ids (List.mem_of_find?_eq_some found) placedMem
        (otherID.trans same.symm)]
      rfl

/-- Every node has a loaded node with its ID. -/
theorem exists_placed {ref : NodeRef} (hasNode : graph.HasNode ref) :
    ∃ node ∈ graph.nodes, node.ref = ref ∧ ∃ placed ∈ placeNodes 0 graph.nodes,
      placed.ID = node.ID ∧ moved graph ref = placed.ref := by
  obtain ⟨node, member, rfl⟩ := List.mem_map.mp hasNode
  have inIDs : node.ID ∈ (placeNodes 0 graph.nodes).map NetlistNode.ID := by
    rw [map_ID_placeNodes]
    exact List.mem_map_of_mem member
  obtain ⟨placed, placedMem, same⟩ := List.mem_map.mp inIDs
  exact ⟨node, member, rfl, placed, placedMem, same, moved_eq wellFormed member placedMem same⟩

/-- Different nodes move to different addresses. -/
theorem moved_injective {first second : NodeRef} (firstNode : graph.HasNode first)
    (secondNode : graph.HasNode second) (same : moved graph first = moved graph second) :
    first = second := by
  obtain ⟨left, leftMem, rfl, leftPlaced, leftPlacedMem, leftID, leftMoved⟩ :=
    exists_placed wellFormed firstNode
  obtain ⟨right, rightMem, rfl, rightPlaced, rightPlacedMem, rightID, rightMoved⟩ :=
    exists_placed wellFormed secondNode
  have placedEq : leftPlaced = rightPlaced :=
    List.inj_on_of_nodup_map (refs_placeNodes 0 graph.nodes) leftPlacedMem rightPlacedMem
      (leftMoved.symm.trans (same.trans rightMoved))
  have nodeEq : left = right := List.inj_on_of_nodup_map wellFormed.ids leftMem rightMem
    (leftID.symm.trans ((congrArg NetlistNode.ID placedEq).trans rightID))
  rw [nodeEq]

/-- The map from IDs finds the loaded node. -/
theorem find_idEntries {loading : Loading}
    (idMap : loading.idMap = (idEntries (placeNodes 0 graph.nodes)).reverse) {ref : NodeRef}
    (hasNode : graph.HasNode ref) :
    loading.find (nodeID graph ref) = some (moved graph ref) := by
  obtain ⟨node, member, rfl, placed, placedMem, same, movedEq⟩ := exists_placed wellFormed hasNode
  rw [nodeID_eq wellFormed.refs member, movedEq, Loading.find, idMap]
  have keys : ((idEntries (placeNodes 0 graph.nodes)).reverse.map Prod.fst).Nodup := by
    rw [List.map_reverse, List.nodup_reverse, idEntries, List.map_map]
    have ids := wellFormed.ids
    rw [← map_ID_placeNodes 0 graph.nodes] at ids
    exact ids
  have entryMem : (node.ID, placed.ref) ∈ (idEntries (placeNodes 0 graph.nodes)).reverse :=
    List.mem_reverse.mpr (List.mem_map.mpr ⟨placed, placedMem, by rw [same]⟩)
  cases found : (idEntries (placeNodes 0 graph.nodes)).reverse.find? fun entry =>
      entry.1 = node.ID with
  | none =>
      have absent := List.find?_eq_none.mp found _ entryMem
      simp at absent
  | some entry =>
      have entryID : entry.1 = node.ID := by simpa using List.find?_some found
      rw [List.inj_on_of_nodup_map keys (List.mem_of_find?_eq_some found) entryMem entryID]
      rfl

end Moved

/-! ## The loop over the edges -/

/-- The loop over some edges of a graph has placed them between the loaded nodes. -/
structure EdgesLoaded (graph : NetlistGraph) (before after : Loading)
    (edges : List NetlistEdge) : Prop where
  idMap : after.idMap = before.idMap
  nodes : after.graph.nodes = before.graph.nodes
  fileTable : after.graph.fileTable = before.graph.fileTable
  blackBoxPaths : after.graph.blackBoxPaths = before.graph.blackBoxPaths
  artifactId : after.graph.artifactId = before.graph.artifactId
  placed : after.graph.edges = (edges.map (movedEdge graph)).foldl placeEdge before.graph.edges
  records : ∀ entry ∈ after.graph.symbolTable,
    entry ∈ before.graph.symbolTable ∨ entry ∈ graph.symbolTable
  keeps : ∀ path, before.graph.Interned path → after.graph.Interned path
  interned : ∀ edge ∈ edges, ∀ path, edge.symbol = some path → after.graph.Interned path

theorem EdgesLoaded.nil (graph : NetlistGraph) (loading : Loading) :
    EdgesLoaded graph loading loading [] :=
  ⟨rfl, rfl, rfl, rfl, rfl, rfl, fun _ old => Or.inl old, fun _ old => old, by simp⟩

theorem EdgesLoaded.cons {graph : NetlistGraph} {before middle after : Loading}
    {edge : NetlistEdge} {rest : List NetlistEdge} (first : EdgesLoaded graph before middle [edge])
    (others : EdgesLoaded graph middle after rest) :
    EdgesLoaded graph before after (edge :: rest) where
  idMap := others.idMap.trans first.idMap
  nodes := others.nodes.trans first.nodes
  fileTable := others.fileTable.trans first.fileTable
  blackBoxPaths := others.blackBoxPaths.trans first.blackBoxPaths
  artifactId := others.artifactId.trans first.artifactId
  placed := by
    rw [others.placed, first.placed]
    rfl
  records entry member := by
    rcases others.records entry member with inMiddle | inGraph
    · exact first.records entry inMiddle
    · exact Or.inr inGraph
  keeps path interned := others.keeps path (first.keeps path interned)
  interned other otherMem path carried := by
    rcases List.mem_cons.mp otherMem with rfl | otherMem
    · exact others.keeps path (first.interned other List.mem_cons_self path carried)
    · exact others.interned other otherMem path carried

section Loop

variable {graph : NetlistGraph}

/-- The record of an interned path. -/
theorem find?_interned {path : String} (interned : graph.Interned path) :
    ∃ entry ∈ graph.symbolTable, entry.hierarchicalPath = path ∧
      (graph.symbolTable.find? fun entry => entry.hierarchicalPath = path) = some entry := by
  obtain ⟨entry, member, same⟩ := List.mem_map.mp interned
  cases found : graph.symbolTable.find? fun entry => entry.hierarchicalPath = path with
  | none =>
      have absent := List.find?_eq_none.mp found entry member
      simp [same] at absent
  | some other =>
      exact ⟨other, List.mem_of_find?_eq_some found, by simpa using List.find?_some found, rfl⟩

/-- The JSON value of the symbol of an edge. -/
def symbolJson (graph : NetlistGraph) (edge : NetlistEdge) : Json :=
  match symbolRecord graph edge with
  | some symbol => symbolToJson symbol
  | none => .object []

/-- Reading the symbol of an edge gives its path and interns a record of the graph. -/
theorem loadSymbol_symbolJson {edge : NetlistEdge} (fits : graph.EdgeFits edge)
    (target : NetlistGraph) :
    ∃ result, loadSymbol target (symbolJson graph edge) = .ok (edge.symbol, result) ∧
      (result = target ∨ ∃ entry ∈ graph.symbolTable, result = (target.intern entry).2) ∧
      ∀ path, edge.symbol = some path → result.Interned path := by
  cases carried : edge.symbol with
  | none =>
      have missing : symbolRecord graph edge = none := by rw [symbolRecord, carried]; rfl
      refine ⟨target, ?_, Or.inl rfl, by simp⟩
      rw [symbolJson, missing]
      rfl
  | some path =>
      obtain ⟨entry, member, samePath, found⟩ := find?_interned (fits.symbol path carried)
      have record : symbolRecord graph edge = some entry := by
        rw [symbolRecord, carried]
        exact found
      refine ⟨(target.intern entry).2, ?_, Or.inr ⟨entry, member, rfl⟩, ?_⟩
      · have read : loadSymbol target (symbolToJson entry) =
            .ok (some (target.intern entry).1.hierarchicalPath, (target.intern entry).2) := rfl
        rw [symbolJson, record]
        exact read.trans (by rw [NetlistGraph.hierarchicalPath_intern, samePath])
      · rintro _ ⟨⟩
        unfold NetlistGraph.Interned
        rw [NetlistGraph.symbolTable_intern]
        split
        · next present => exact samePath ▸ present
        · rw [List.map_append]
          exact List.mem_append_right _ (by simp [samePath])

theorem semanticsFromJson_edgeToJson (graph : NetlistGraph) (edge : NetlistEdge) :
    semanticsFromJson formatVersion (edgeToJson graph edge) = .ok edge.semantics := by
  have read : semanticsFromJson formatVersion (edgeToJson graph edge) =
      .ok { edgeKind := edgeKindFromString (edgeKindToString edge.semantics.edgeKind),
            role := dependencyRoleFromString (dependencyRoleToString edge.semantics.role),
            precision := dependencyPrecisionFromString
              (dependencyPrecisionToString edge.semantics.precision) } := rfl
  simpa using read

/-- Reading one edge places it. -/
theorem loadEdge_edgeToJson {edge : NetlistEdge} (fits : graph.EdgeFits edge)
    {loading : Loading}
    (source : loading.find (nodeID graph edge.source) = some (moved graph edge.source))
    (target : loading.find (nodeID graph edge.target) = some (moved graph edge.target)) :
    ∃ result, loadEdge formatVersion loading (edgeToJson graph edge) = .ok result ∧
      EdgesLoaded graph loading result [edge] := by
  obtain ⟨tables, symbolRead, tablesEq, interned⟩ := loadSymbol_symbolJson fits
    (loading.graph.addEdge (moved graph edge.source) (moved graph edge.target))
  have read : loadEdge formatVersion loading (edgeToJson graph edge) =
      .ok { loading with
        graph := tables.setEdge (moved graph edge.source) (moved graph edge.target)
          (movedEdge graph edge) } := by
    have unfolded (sourceNode targetNode : NodeRef)
        (sourceFound : loading.find (nodeID graph edge.source) = some sourceNode)
        (targetFound : loading.find (nodeID graph edge.target) = some targetNode) :
        loadEdge formatVersion loading (edgeToJson graph edge) =
          (semanticsFromJson formatVersion (edgeToJson graph edge)).bind fun semantics =>
          (loadSymbol (loading.graph.addEdge sourceNode targetNode) (symbolJson graph edge)).bind
            fun read =>
          (boundsFromJson (boundsToJson edge.bounds)).bind fun bounds =>
          .ok { loading with
            graph := read.2.setEdge sourceNode targetNode
              { source := sourceNode, target := targetNode, semantics := semantics,
                symbol := read.1, bounds := bounds, disabled := edge.disabled } } := by
      have sourceRead : (edgeToJson graph edge).field "source" >>= Json.getNat =
          .ok (nodeID graph edge.source) := rfl
      have targetRead : (edgeToJson graph edge).field "target" >>= Json.getNat =
          .ok (nodeID graph edge.target) := rfl
      rw [loadEdge, sourceRead, targetRead]
      simp only [bind, Except.bind, sourceFound, targetFound]
      rfl
    rw [unfolded _ _ source target]
    simp only [semanticsFromJson_edgeToJson, symbolRead, boundsFromJson_toJson fits.bounds,
      Except.bind]
    rfl
  obtain ⟨edges, added⟩ := addEdge_eq loading.graph (moved graph edge.source)
    (moved graph edge.target)
  have placed := edges_setEdge_addEdge loading.graph (movedEdge graph edge)
  have interns : ∀ other ∈ [edge], ∀ path, other.symbol = some path → tables.Interned path := by
    rintro other single
    rw [List.mem_singleton.mp single]
    exact interned
  rcases tablesEq with rfl | ⟨entry, member, rfl⟩
  · refine ⟨_, read, ⟨rfl, ?_, ?_, ?_, ?_, placed, ?_, ?_, interns⟩⟩
    · simp only [NetlistGraph.setEdge, added]
    · simp only [NetlistGraph.setEdge, added]
    · simp only [NetlistGraph.setEdge, added]
    · simp only [NetlistGraph.setEdge, added]
    · simp only [NetlistGraph.setEdge, added]
      exact fun entry old => Or.inl old
    · simp only [NetlistGraph.setEdge, added]
      exact fun path old => old
  · obtain ⟨table, internedEq⟩ := intern_eq (loading.graph.addEdge (moved graph edge.source)
      (moved graph edge.target)) entry
    have kept : ((loading.graph.addEdge (moved graph edge.source)
        (moved graph edge.target)).intern entry).2 =
        { loading.graph with edges := edges, symbolTable := table } :=
      internedEq.trans (by rw [added])
    have nodes := congrArg NetlistGraph.nodes kept
    have files := congrArg NetlistGraph.fileTable kept
    have boxes := congrArg NetlistGraph.blackBoxPaths kept
    have artifact := congrArg NetlistGraph.artifactId kept
    refine ⟨_, read, ⟨rfl, nodes, files, boxes, artifact, ?_, ?_, ?_, interns⟩⟩
    · simp only [NetlistGraph.setEdge, NetlistGraph.edges_intern]
      exact placed
    · intro other otherMem
      change other ∈ (NetlistGraph.intern _ entry).2.symbolTable at otherMem
      rw [NetlistGraph.symbolTable_intern] at otherMem
      split at otherMem
      · rw [added] at otherMem
        exact Or.inl otherMem
      · rw [added] at otherMem
        rcases List.mem_append.mp otherMem with old | new
        · exact Or.inl old
        · exact Or.inr (List.mem_singleton.mp new ▸ member)
    · intro path old
      have before : (loading.graph.addEdge (moved graph edge.source)
          (moved graph edge.target)).Interned path := by
        rw [added]
        exact old
      exact before.intern entry

/-- The loop places the edges in order. -/
theorem foldlM_loadEdge {edges : List NetlistEdge} (fit : ∀ edge ∈ edges, graph.EdgeFits edge)
    {loading : Loading} (finds : ∀ ref, graph.HasNode ref →
      loading.find (nodeID graph ref) = some (moved graph ref)) :
    ∃ result, (edges.map (edgeToJson graph)).foldlM (loadEdge formatVersion) loading =
        .ok result ∧ EdgesLoaded graph loading result edges := by
  induction edges generalizing loading with
  | nil => exact ⟨loading, rfl, EdgesLoaded.nil graph loading⟩
  | cons edge rest ih =>
      obtain ⟨edgeFits, restFit⟩ := List.forall_mem_cons.mp fit
      obtain ⟨middle, first, firstLoaded⟩ := loadEdge_edgeToJson edgeFits
        (finds _ edgeFits.source) (finds _ edgeFits.target)
      have findsMiddle : ∀ ref, graph.HasNode ref →
          middle.find (nodeID graph ref) = some (moved graph ref) := by
        unfold Loading.find
        rw [firstLoaded.idMap]
        exact finds
      obtain ⟨result, others, othersLoaded⟩ := ih restFit findsMiddle
      refine ⟨result, ?_, firstLoaded.cons othersLoaded⟩
      rw [List.map_cons, List.foldlM_cons, first]
      exact others

end Loop

/-! ## The whole graph -/

/-- What the reader makes of a written graph. -/
structure Loaded (drawn : String) (graph loaded : NetlistGraph) : Prop where
  fileTable : loaded.fileTable = graph.fileTable
  blackBoxPaths : loaded.blackBoxPaths = graph.blackBoxPaths
  artifactId : loaded.artifactId = graph.getArtifactId drawn
  nodes : loaded.nodes = placeNodes 0 graph.nodes
  edges : loaded.edges = ((allOutEdges graph).map (movedEdge graph)).foldl placeEdge []
  records : ∀ entry ∈ loaded.symbolTable, entry ∈ graph.symbolTable
  interned : ∀ edge ∈ allOutEdges graph, ∀ path, edge.symbol = some path → loaded.Interned path

theorem mem_allOutEdges {graph : NetlistGraph} {edge : NetlistEdge}
    (member : edge ∈ allOutEdges graph) : edge ∈ graph.edges := by
  obtain ⟨node, _, inNode⟩ := List.mem_flatMap.mp member
  exact (List.mem_filter.mp inNode).1

section Whole

variable {valueToString : ConstantValue → String} {svIntFromString : String → Option SVInt}
  {drawn : String} {graph loaded : NetlistGraph}

/-- A written graph can be read. -/
theorem exists_loaded (drawn : String) (wellFormed : graph.WellFormed)
    (reads : ∀ node ∈ graph.nodes, ReadsBack valueToString svIntFromString node.data) :
    ∃ loaded, deserialize svIntFromString (serialize valueToString drawn graph) {} = .ok loaded ∧
      Loaded drawn graph loaded := by
  have unfolded : deserialize svIntFromString (serialize valueToString drawn graph) {} =
      ((graph.fileTable.map Json.string).foldlM loadFile
        { artifactId := graph.getArtifactId drawn }).bind fun files =>
      ((graph.blackBoxPaths.map Json.string).foldlM loadBlackBox files).bind fun boxes =>
      ((graph.nodes.map (nodeToJson valueToString)).foldlM (loadNode svIntFromString)
        { graph := boxes }).bind fun loading =>
      (((allOutEdges graph).map (edgeToJson graph)).foldlM (loadEdge formatVersion)
        loading).bind fun loading => .ok loading.graph := rfl
  let titled : NetlistGraph := { artifactId := graph.getArtifactId drawn }
  have files : (graph.fileTable.map Json.string).foldlM loadFile titled =
      .ok { titled with fileTable := graph.fileTable } := by
    simpa [titled] using foldlM_loadFile (show (titled.fileTable ++ graph.fileTable).Nodup by
      simpa [titled] using wellFormed.files)
  have boxes : (graph.blackBoxPaths.map Json.string).foldlM loadBlackBox
      { titled with fileTable := graph.fileTable } =
      .ok { titled with fileTable := graph.fileTable, blackBoxPaths := graph.blackBoxPaths } := by
    simpa [titled] using foldlM_loadBlackBox graph.blackBoxPaths
      { titled with fileTable := graph.fileTable }
  let listed : Loading :=
    { graph := { titled with
        fileTable := graph.fileTable
        blackBoxPaths := graph.blackBoxPaths
        nodes := placeNodes 0 graph.nodes }
      idMap := (idEntries (placeNodes 0 graph.nodes)).reverse }
  have nodes : (graph.nodes.map (nodeToJson valueToString)).foldlM (loadNode svIntFromString)
      { graph := { titled with
          fileTable := graph.fileTable, blackBoxPaths := graph.blackBoxPaths } } =
      .ok listed := by
    rw [foldlM_loadNode fun node member =>
      nodeDataFromJson_toJson (wellFormed.proper node member) (reads node member)]
    simp [listed, titled]
  obtain ⟨result, edges, placed⟩ := foldlM_loadEdge
    (fun edge member => wellFormed.edges edge (mem_allOutEdges member))
    (fun ref hasNode => find_idEntries wellFormed (show listed.idMap = _ from rfl) hasNode)
  refine ⟨result.graph, ?_, ?_⟩
  · rw [unfolded, files, Except.bind, boxes, Except.bind, nodes, Except.bind, edges, Except.bind]
  · exact ⟨placed.fileTable, placed.blackBoxPaths, placed.artifactId, placed.nodes,
      placed.placed, fun entry member => (placed.records entry member).resolve_left (by simp
        [listed, titled]), placed.interned⟩

/-- The out-edges of a node among all out-edges. -/
theorem filter_allOutEdges (refs : (graph.nodes.map NetlistNode.ref).Nodup) {node : NetlistNode}
    (member : node ∈ graph.nodes) :
    (allOutEdges graph).filter (fun edge => edge.source = node.ref) =
      graph.outEdges node.ref := by
  unfold allOutEdges
  generalize graph.nodes = nodes at member refs
  have others : ∀ rest : List NetlistNode, node.ref ∉ rest.map NetlistNode.ref →
      (rest.flatMap fun other => graph.outEdges other.ref).filter
        (fun edge => edge.source = node.ref) = [] := by
    intro rest absent
    rw [List.filter_eq_nil_iff]
    intro edge inRest
    obtain ⟨other, otherMem, inOther⟩ := List.mem_flatMap.mp inRest
    have source : edge.source = other.ref := by simpa using (List.mem_filter.mp inOther).2
    simp only [source, decide_eq_true_eq]
    exact fun same => absent (List.mem_map.mpr ⟨other, otherMem, same⟩)
  have own : (graph.outEdges node.ref).filter (fun edge => edge.source = node.ref) =
      graph.outEdges node.ref :=
    List.filter_eq_self.mpr fun edge inNode => (List.mem_filter.mp inNode).2
  induction nodes with
  | nil => simp at member
  | cons head rest ih =>
      obtain ⟨headFresh, restRefs⟩ := List.nodup_cons.mp refs
      rw [List.flatMap_cons, List.filter_append]
      rcases List.mem_cons.mp member with rfl | member
      · rw [own, others rest headFresh, List.append_nil]
      · have differ : node.ref ≠ head.ref := fun same =>
          headFresh (same ▸ List.mem_map_of_mem member)
        have headOnly := others [head] (by simpa using differ)
        rw [List.flatMap_singleton] at headOnly
        rw [headOnly, List.nil_append, ih member restRefs]

/-- In a simple graph all edges have distinct ends. -/
theorem SimpleEdges.nodup_ends (simpleEdges : SimpleEdges graph) (wellFormed : graph.WellFormed) :
    ((allOutEdges graph).map ends).Nodup := by
  have endsOf : ∀ ref, (graph.outEdges ref).map ends =
      ((graph.outEdges ref).map NetlistEdge.target).map fun target => (ref, target) := by
    intro ref
    rw [List.map_map]
    refine List.map_congr_left fun edge inNode => ?_
    have source : edge.source = ref := by simpa using (List.mem_filter.mp inNode).2
    simp [ends, source]
  rw [allOutEdges, List.map_flatMap, List.nodup_flatMap]
  refine ⟨fun node member => ?_, ?_⟩
  · rw [endsOf]
    exact (simpleEdges node member).map fun _ _ same => (Prod.mk.inj same).2
  · refine (List.pairwise_map.mp wellFormed.refs).imp fun differ => ?_
    intro pair inFirst inSecond
    simp only [endsOf] at inFirst inSecond
    obtain ⟨_, _, rfl⟩ := List.mem_map.mp inFirst
    obtain ⟨_, _, same⟩ := List.mem_map.mp inSecond
    exact differ (Prod.mk.inj same).1.symm

namespace Loaded

variable (restored : Loaded drawn graph loaded)

include restored

/-- A loaded edge is an edge of the graph between the loaded nodes. -/
theorem exists_edge {edge : NetlistEdge} (member : edge ∈ loaded.edges) :
    ∃ old ∈ allOutEdges graph, edge = movedEdge graph old := by
  rw [restored.edges] at member
  obtain ⟨old, oldMem, rfl⟩ := List.mem_map.mp
    ((mem_foldl_placeEdge member).resolve_left (by simp))
  exact ⟨old, oldMem, rfl⟩

theorem refs : (loaded.nodes.map NetlistNode.ref).Nodup := by
  rw [restored.nodes]
  exact refs_placeNodes 0 graph.nodes

variable (wellFormed : graph.WellFormed)

include wellFormed

/-- A loaded node has the ID of the node. -/
theorem nodeID_moved {ref : NodeRef} (hasNode : graph.HasNode ref) :
    nodeID loaded (moved graph ref) = nodeID graph ref := by
  obtain ⟨node, member, rfl, placed, placedMem, same, movedEq⟩ := exists_placed wellFormed hasNode
  rw [movedEq, nodeID_eq restored.refs (restored.nodes ▸ placedMem),
    nodeID_eq wellFormed.refs member, same]

/-- A loaded edge has the symbol of the edge. -/
theorem symbolRecord_moved {edge : NetlistEdge} (member : edge ∈ allOutEdges graph) :
    symbolRecord loaded (movedEdge graph edge) = symbolRecord graph edge := by
  have fits := wellFormed.edges edge (mem_allOutEdges member)
  unfold symbolRecord movedEdge
  cases carried : edge.symbol with
  | none => rfl
  | some path =>
      obtain ⟨entry, entryMem, samePath, found⟩ := find?_interned (fits.symbol path carried)
      obtain ⟨other, otherMem, otherPath, otherFound⟩ :=
        find?_interned (restored.interned edge member path carried)
      have sameEntry : other = entry := List.inj_on_of_nodup_map wellFormed.paths
        (restored.records other otherMem) entryMem (otherPath.trans samePath.symm)
      exact otherFound.trans (sameEntry ▸ found.symm)

theorem edgeView_moved {edge : NetlistEdge} (member : edge ∈ allOutEdges graph) :
    edgeView loaded (movedEdge graph edge) = edgeView graph edge := by
  have fits := wellFormed.edges edge (mem_allOutEdges member)
  have target : nodeID loaded (movedEdge graph edge).target = nodeID graph edge.target :=
    restored.nodeID_moved wellFormed fits.target
  unfold edgeView
  rw [target, restored.symbolRecord_moved wellFormed member]
  rfl

/-- The edges of a simple graph are loaded one by one. -/
theorem edges_of_simple (simpleEdges : SimpleEdges graph) :
    loaded.edges = (allOutEdges graph).map (movedEdge graph) := by
  have distinct : (((allOutEdges graph).map (movedEdge graph)).map ends).Nodup := by
    have moves : ((allOutEdges graph).map (movedEdge graph)).map ends =
        ((allOutEdges graph).map ends).map fun pair =>
          (moved graph pair.1, moved graph pair.2) := by
      rw [List.map_map, List.map_map]
      rfl
    rw [moves]
    refine (simpleEdges.nodup_ends wellFormed).map_on ?_
    rintro _ firstMem _ secondMem same
    obtain ⟨first, inFirst, rfl⟩ := List.mem_map.mp firstMem
    obtain ⟨second, inSecond, rfl⟩ := List.mem_map.mp secondMem
    have firstFits := wellFormed.edges first (mem_allOutEdges inFirst)
    have secondFits := wellFormed.edges second (mem_allOutEdges inSecond)
    obtain ⟨source, target⟩ := Prod.mk.inj same
    exact Prod.ext (moved_injective wellFormed firstFits.source secondFits.source source)
      (moved_injective wellFormed firstFits.target secondFits.target target)
  rw [restored.edges, foldl_placeEdge (by simpa using distinct), List.nil_append]

/-- The out-edges of a loaded node. -/
theorem outEdges_moved (simpleEdges : SimpleEdges graph) {node : NetlistNode}
    (member : node ∈ graph.nodes) :
    loaded.outEdges (moved graph node.ref) =
      (graph.outEdges node.ref).map (movedEdge graph) := by
  rw [NetlistGraph.outEdges, restored.edges_of_simple wellFormed simpleEdges, List.filter_map,
    ← filter_allOutEdges wellFormed.refs member]
  congr 1
  refine List.filter_congr fun edge inAll => ?_
  have fits := wellFormed.edges edge (mem_allOutEdges inAll)
  have hasNode : graph.HasNode node.ref := List.mem_map_of_mem member
  have sameSource : moved graph edge.source = moved graph node.ref ↔ edge.source = node.ref :=
    ⟨moved_injective wellFormed fits.source hasNode, fun same => by rw [same]⟩
  simp [movedEdge, sameSource]

/-- A simple graph is restored. -/
theorem restores (simpleEdges : SimpleEdges graph) : Restores drawn graph loaded := by
  refine ⟨restored.fileTable, restored.blackBoxPaths, restored.artifactId, ?_⟩
  rw [restored.nodes]
  refine map_placeNodes fun node member placed placedMem sameID sameData => ?_
  have movedEq := moved_eq wellFormed member placedMem sameID
  unfold nodeView
  rw [sameID, sameData, ← movedEq, restored.outEdges_moved wellFormed simpleEdges member,
    List.map_map]
  congr 1
  refine List.map_congr_left fun edge inNode => restored.edgeView_moved wellFormed ?_
  exact List.mem_flatMap.mpr ⟨node, member, inNode⟩

/-- A restored graph is simple: the reader never makes two edges between two nodes. -/
theorem simple_of_restores (restoring : Restores drawn graph loaded) : SimpleEdges graph := by
  intro node member
  have viewMem : nodeView graph node ∈ loaded.nodes.map (nodeView loaded) := by
    rw [restoring.nodes]
    exact List.mem_map_of_mem member
  obtain ⟨placed, placedMem, viewEq⟩ := List.mem_map.mp viewMem
  have targets := congrArg (fun view => view.outEdges.map EdgeView.target) viewEq
  simp only [nodeView, List.map_map] at targets
  have distinct : (loaded.edges.map ends).Nodup := by
    rw [restored.edges]
    exact nodup_foldl_placeEdge (by simp)
  have loadedTargets : ((loaded.outEdges placed.ref).map
      (EdgeView.target ∘ edgeView loaded)).Nodup := by
    have ofNode : ((loaded.outEdges placed.ref).map ends).Nodup :=
      distinct.sublist (List.filter_sublist.map ends)
    refine List.Nodup.map_on ?_ ofNode.of_map
    intro first firstMem second secondMem same
    obtain ⟨firstIn, firstSource⟩ := List.mem_filter.mp firstMem
    obtain ⟨secondIn, secondSource⟩ := List.mem_filter.mp secondMem
    refine List.inj_on_of_nodup_map ofNode firstMem secondMem (Prod.ext ?_ ?_)
    · simp only [decide_eq_true_eq] at firstSource secondSource
      exact firstSource.trans secondSource.symm
    · obtain ⟨firstOld, firstOldMem, rfl⟩ := restored.exists_edge firstIn
      obtain ⟨secondOld, secondOldMem, rfl⟩ := restored.exists_edge secondIn
      have firstFits := wellFormed.edges firstOld (mem_allOutEdges firstOldMem)
      have secondFits := wellFormed.edges secondOld (mem_allOutEdges secondOldMem)
      have ids : nodeID graph firstOld.target = nodeID graph secondOld.target := by
        rw [← restored.nodeID_moved wellFormed firstFits.target,
          ← restored.nodeID_moved wellFormed secondFits.target]
        exact same
      obtain ⟨left, leftMem, leftRef⟩ := List.mem_map.mp firstFits.target
      obtain ⟨right, rightMem, rightRef⟩ := List.mem_map.mp secondFits.target
      rw [← leftRef, ← rightRef, nodeID_eq wellFormed.refs leftMem,
        nodeID_eq wellFormed.refs rightMem] at ids
      have sameNode := List.inj_on_of_nodup_map wellFormed.ids leftMem rightMem ids
      simp only [ends, movedEdge, ← leftRef, ← rightRef, sameNode]
  rw [targets] at loadedTargets
  have targetIDs : ((graph.outEdges node.ref).map NetlistEdge.target).map (nodeID graph) =
      (graph.outEdges node.ref).map (EdgeView.target ∘ edgeView graph) := by
    rw [List.map_map]
    rfl
  rw [← targetIDs] at loadedTargets
  exact loadedTargets.of_map

end Loaded

end Whole

/--
A graph that the builder makes, with integer constants that are read back from
their texts, is restored exactly if no node has two out-edges to one target.
-/
theorem deserialize_serialize_iff (valueToString : ConstantValue → String)
    (svIntFromString : String → Option SVInt) (drawn : String)
    {operations : List GraphOperation} {graph : NetlistGraph}
    (run : GuardedRun NetlistGraph.operate NetlistGraph.Accepts {} operations graph)
    (reads : ∀ node ∈ graph.nodes, ReadsBack valueToString svIntFromString node.data) :
    (∃ loaded, deserialize svIntFromString (serialize valueToString drawn graph) {} =
      .ok loaded ∧ Restores drawn graph loaded) ↔ SimpleEdges graph := by
  have wellFormed := NetlistGraph.wellFormed_of_run run
  obtain ⟨loaded, read, restored⟩ := exists_loaded drawn wellFormed reads
  constructor
  · rintro ⟨other, otherRead, restores⟩
    rw [read] at otherRead
    cases otherRead
    exact restored.simple_of_restores wellFormed restores
  · exact fun simpleEdges => ⟨loaded, read, restored.restores wellFormed simpleEdges⟩

/-- The graph after a list of operations, for runs on fixed operations. -/
def built (operations : List GraphOperation) : NetlistGraph :=
  (operations.foldlM NetlistGraph.operate {}).getD {}

/-- The signal `t`. -/
def signal : ValueSymbol := { id := 0, name := "t", hierarchicalPath := "m.t" }

/-- Two assignments and a constant. -/
def threeNodes : List GraphOperation := [
  .addNode ⟨⟨0, .assignment, 0⟩, 1, .assignment {}⟩,
  .addNode ⟨⟨0, .assignment, 1⟩, 2, .assignment {}⟩,
  .addNode ⟨⟨0, .constant, 2⟩, 3, .constant (.integer ⟨[.one]⟩) 1 {}⟩,
  .toSymbolRef signal]

/-- A dependency on a bit of `t`. -/
def bitDependency (bit : Int) : GraphOperation :=
  .addDependency
    { source := ⟨0, .assignment, 0⟩, target := ⟨0, .assignment, 1⟩, symbol := "m.t",
      bounds := ⟨bit, bit⟩ }

/-- The text of the one-bit constant one. -/
def bitToString (value : ConstantValue) : String :=
  if value = .integer ⟨[.one]⟩ then "1'b1" else ""

def bitFromString (text : String) : Option SVInt :=
  if text = "1'b1" then some ⟨[.one]⟩ else none

/-- One edge that carries a bit of `t` and one edge from a constant. -/
theorem deserialize_serialize_iff_simple :
    (∃ loaded, deserialize bitFromString (serialize bitToString "a1"
        (built (threeNodes ++ [bitDependency 0,
          .addUnannotated ⟨0, .constant, 2⟩ ⟨0, .assignment, 1⟩ .data .exact]))) {} =
        .ok loaded ∧
      Restores "a1" (built (threeNodes ++ [bitDependency 0,
        .addUnannotated ⟨0, .constant, 2⟩ ⟨0, .assignment, 1⟩ .data .exact])) loaded) ↔
      SimpleEdges (built (threeNodes ++ [bitDependency 0,
        .addUnannotated ⟨0, .constant, 2⟩ ⟨0, .assignment, 1⟩ .data .exact])) := by
  have run : GuardedRun NetlistGraph.operate NetlistGraph.Accepts {}
      (threeNodes ++ [bitDependency 0,
        .addUnannotated ⟨0, .constant, 2⟩ ⟨0, .assignment, 1⟩ .data .exact])
      (built (threeNodes ++ [bitDependency 0,
        .addUnannotated ⟨0, .constant, 2⟩ ⟨0, .assignment, 1⟩ .data .exact])) :=
    GuardedRun.of_foldlM (by decide +kernel)
  refine deserialize_serialize_iff bitToString bitFromString "a1" run ?_
  decide +kernel

/-- Two edges that carry the bits 0 and 5 of `t`: the first one is lost. -/
theorem deserialize_serialize_loses_edge :
    ∃ graph, GuardedRun NetlistGraph.operate NetlistGraph.Accepts {}
        (threeNodes ++ [bitDependency 0, bitDependency 5]) graph ∧
      ¬ ∃ loaded, deserialize bitFromString (serialize bitToString "a1" graph) {} = .ok loaded ∧
        Restores "a1" graph loaded := by
  refine ⟨built (threeNodes ++ [bitDependency 0, bitDependency 5]),
    GuardedRun.of_foldlM (by decide +kernel), ?_⟩
  rintro ⟨loaded, read, restores⟩
  have lost : ((deserialize bitFromString (serialize bitToString "a1"
      (built (threeNodes ++ [bitDependency 0, bitDependency 5]))) {}).toOption.map fun loaded =>
        decide (Restores "a1" (built (threeNodes ++ [bitDependency 0, bitDependency 5]))
          loaded)) = some false := by decide +kernel
  rw [read] at lost
  exact of_decide_eq_false (Option.some.inj lost) restores

end NetlistSerializer

end SlangNetlist
