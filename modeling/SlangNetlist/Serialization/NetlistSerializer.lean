import SlangNetlist.Graph.GraphRuns
import SlangNetlist.Serialization.Json

/-!
# The netlist serialiser

The writer and the reader of a graph.  The texts of integer constants are
parameters: `toString` of a constant value and `SVInt::fromString`, which
throws on other texts.
-/

namespace SlangNetlist

open Library
open NetlistGraph (nodeID)

namespace NetlistSerializer

def formatVersion : Int := 4

/-! ## Strings -/

def nodeKindToString : NodeKind → String
  | .none => "None"
  | .port => "Port"
  | .variable => "Variable"
  | .assignment => "Assignment"
  | .conditional => "Conditional"
  | .case => "Case"
  | .merge => "Merge"
  | .state => "State"
  | .constant => "Constant"

def nodeKindFromString (text : String) : NodeKind :=
  if text = "Port" then .port
  else if text = "Variable" then .variable
  else if text = "Assignment" then .assignment
  else if text = "Conditional" then .conditional
  else if text = "Case" then .case
  else if text = "Merge" then .merge
  else if text = "State" then .state
  else if text = "Constant" then .constant
  else .none

def edgeKindToString : EdgeKind → String
  | .none => "None"
  | .posEdge => "PosEdge"
  | .negEdge => "NegEdge"
  | .bothEdges => "BothEdges"

def edgeKindFromString (text : String) : EdgeKind :=
  if text = "PosEdge" then .posEdge
  else if text = "NegEdge" then .negEdge
  else if text = "BothEdges" then .bothEdges
  else .none

def dependencyRoleToString : DependencyRole → String
  | .data => "data"
  | .control => "control"
  | .index => "index"
  | .address => "address"
  | .event => "event"
  | .clock => "clock"
  | .reset => "reset"
  | .portConnection => "port_connection"
  | .unknown => "unknown"

def dependencyRoleFromString (text : String) : DependencyRole :=
  if text = "data" then .data
  else if text = "control" then .control
  else if text = "index" then .index
  else if text = "address" then .address
  else if text = "event" then .event
  else if text = "clock" then .clock
  else if text = "reset" then .reset
  else if text = "port_connection" then .portConnection
  else .unknown

def dependencyPrecisionToString : DependencyPrecision → String
  | .exact => "exact"
  | .range => "range"
  | .signal => "signal"
  | .unknown => "unknown"

def dependencyPrecisionFromString (text : String) : DependencyPrecision :=
  if text = "exact" then .exact
  else if text = "range" then .range
  else if text = "signal" then .signal
  else .unknown

def directionToString : ArgumentDirection → String
  | .inDir => "In"
  | .outDir => "Out"
  | .inOutDir => "InOut"
  | .refDir => "Ref"

def directionFromString (text : String) : ArgumentDirection :=
  if text = "Out" then .outDir
  else if text = "InOut" then .inOutDir
  else if text = "Ref" then .refDir
  else .inDir

/-! ## JSON helpers -/

def locationToJson (location : TextLocation) : Json :=
  .object [("fileIndex", .number location.fileIndex), ("line", .number location.line),
    ("column", .number location.column)]

def locationFromJson (json : Json) : Except LoadError TextLocation := do
  let fileIndex ← json.field "fileIndex" >>= Json.getNat
  let line ← json.field "line" >>= Json.getNat
  let column ← json.field "column" >>= Json.getNat
  .ok { fileIndex := fileIndex, line := line, column := column }

def symbolToJson (symbol : SymbolReference) : Json :=
  .object [("name", .string symbol.name), ("path", .string symbol.hierarchicalPath),
    ("location", locationToJson symbol.location)]

def symbolFromJson (json : Json) : Except LoadError SymbolReference := do
  let name ← json.field "name" >>= Json.getString
  let path ← json.field "path" >>= Json.getString
  let location ← json.field "location" >>= locationFromJson
  .ok { name := name, hierarchicalPath := path, location := location }

def boundsToJson (bounds : DriverBitRange) : Json :=
  .array [.number bounds.lower, .number bounds.upper]

def boundsFromJson (json : Json) : Except LoadError DriverBitRange := do
  match ← json.items with
  | first :: second :: _ => do
      let left ← first.getInt
      let right ← second.getInt
      .ok ⟨left, right⟩
  | _ => .error .typeError

/-! ## Serialise -/

/-- The fields of a node beside its ID and its kind. -/
def nodeFields (valueToString : ConstantValue → String) : NodeData → List (String × Json)
  | .port name path location direction bounds =>
      [("path", .string path), ("name", .string name), ("bounds", boundsToJson bounds),
        ("direction", .string (directionToString direction)),
        ("location", locationToJson location)]
  | .variable name path location bounds =>
      [("path", .string path), ("name", .string name), ("bounds", boundsToJson bounds),
        ("location", locationToJson location)]
  | .state name path location bounds =>
      [("path", .string path), ("name", .string name), ("bounds", boundsToJson bounds),
        ("location", locationToJson location)]
  | .assignment location => [("location", locationToJson location)]
  | .conditional location => [("location", locationToJson location)]
  | .case location => [("location", locationToJson location)]
  | .constant value width location =>
      [("location", locationToJson location), ("width", .number width),
        ("value", .string (valueToString value))]
  | .merge => []
  | .none => []

def nodeToJson (valueToString : ConstantValue → String) (node : NetlistNode) : Json :=
  .object ([("id", .number node.ID), ("kind", .string (nodeKindToString node.data.kind))] ++
    nodeFields valueToString node.data)

/-- The record that the symbol pointer of an edge points to. -/
def symbolRecord (graph : NetlistGraph) (edge : NetlistEdge) : Option SymbolReference :=
  edge.symbol.bind fun path =>
    graph.symbolTable.find? fun entry => entry.hierarchicalPath = path

def edgeToJson (graph : NetlistGraph) (edge : NetlistEdge) : Json :=
  .object [("source", .number (nodeID graph edge.source)),
    ("target", .number (nodeID graph edge.target)),
    ("edgeKind", .string (edgeKindToString edge.semantics.edgeKind)),
    ("role", .string (dependencyRoleToString edge.semantics.role)),
    ("precision", .string (dependencyPrecisionToString edge.semantics.precision)),
    ("symbol", match symbolRecord graph edge with
      | some symbol => symbolToJson symbol
      | none => .object []),
    ("bounds", boundsToJson edge.bounds),
    ("disabled", .bool edge.disabled)]

/-- The out-edges of all nodes, node by node. -/
def allOutEdges (graph : NetlistGraph) : List NetlistEdge :=
  graph.nodes.flatMap fun node => graph.outEdges node.ref

/-- Write a graph; `drawn` is the identifier drawn for a graph without one. -/
def serialize (valueToString : ConstantValue → String) (drawn : String)
    (graph : NetlistGraph) : Json :=
  .object [("version", .number formatVersion),
    ("artifactId", .string (graph.getArtifactId drawn)),
    ("fileTable", .array (graph.fileTable.map .string)),
    ("blackBoxes", .array (graph.blackBoxPaths.map .string)),
    ("nodes", .array (graph.nodes.map (nodeToJson valueToString))),
    ("edges", .array ((allOutEdges graph).map (edgeToJson graph)))]

/-! ## Deserialise -/

/-- The value of a constant node; texts that are not integers give a bad value. -/
def valueFromString (svIntFromString : String → Option SVInt) (text : String) : ConstantValue :=
  if text = "" then .bad
  else match svIntFromString text with
    | some value => .integer value
    | none => .bad

def nodeDataFromJson (svIntFromString : String → Option SVInt) (kind : NodeKind) (json : Json) :
    Except LoadError NodeData :=
  match kind with
  | .port => do
      let bounds ← json.field "bounds"
      let name ← json.field "name" >>= Json.getString
      let path ← json.field "path" >>= Json.getString
      let location ← json.field "location" >>= locationFromJson
      let direction ← json.field "direction" >>= Json.getString
      let range ← boundsFromJson bounds
      .ok (.port name path location (directionFromString direction) range)
  | .variable => do
      let bounds ← json.field "bounds"
      let name ← json.field "name" >>= Json.getString
      let path ← json.field "path" >>= Json.getString
      let location ← json.field "location" >>= locationFromJson
      let range ← boundsFromJson bounds
      .ok (.variable name path location range)
  | .state => do
      let bounds ← json.field "bounds"
      let name ← json.field "name" >>= Json.getString
      let path ← json.field "path" >>= Json.getString
      let location ← json.field "location" >>= locationFromJson
      let range ← boundsFromJson bounds
      .ok (.state name path location range)
  | .assignment => do
      let location ← json.field "location" >>= locationFromJson
      .ok (.assignment location)
  | .conditional => do
      let location ← json.field "location" >>= locationFromJson
      .ok (.conditional location)
  | .case => do
      let location ← json.field "location" >>= locationFromJson
      .ok (.case location)
  | .constant => do
      let width ← json.field "width" >>= Json.getNat
      let text ← json.field "value" >>= Json.getString
      let location ← json.field "location" >>= locationFromJson
      .ok (.constant (valueFromString svIntFromString text) width location)
  | .merge => .ok .merge
  | .none => .ok .none

/-- The graph read so far and the map from IDs to nodes, latest first. -/
structure Loading where
  graph : NetlistGraph
  idMap : List (Nat × NodeRef) := []

def Loading.find (loading : Loading) (id : Nat) : Option NodeRef :=
  (loading.idMap.find? fun entry => entry.1 = id).map Prod.snd

/-- Read one node; the nodes are named by their kinds and positions. -/
def loadNode (svIntFromString : String → Option SVInt) (loading : Loading) (json : Json) :
    Except LoadError Loading := do
  let id ← json.field "id" >>= Json.getNat
  let kind ← json.field "kind" >>= Json.getString
  let data ← nodeDataFromJson svIntFromString (nodeKindFromString kind) json
  let ref : NodeRef := ⟨0, data.kind, loading.graph.nodes.length⟩
  .ok { graph := loading.graph.addNode { ref := ref, ID := id, data := data },
        idMap := (id, ref) :: loading.idMap }

def semanticsFromJson (version : Int) (json : Json) : Except LoadError EdgeSemantics := do
  let edgeKind ← json.field "edgeKind" >>= Json.getString
  if version ≥ 4 then
    let role ← json.valueOr "role" "unknown"
    let precision ← json.valueOr "precision" "unknown"
    .ok { edgeKind := edgeKindFromString edgeKind, role := dependencyRoleFromString role,
          precision := dependencyPrecisionFromString precision }
  else
    .ok { edgeKind := edgeKindFromString edgeKind, role := .unknown, precision := .unknown }

/-- The symbol of an edge, interned, or the null pointer. -/
def loadSymbol (graph : NetlistGraph) (json : Json) :
    Except LoadError (Option String × NetlistGraph) :=
  if json.contains "name" then do
    let symbol ← symbolFromJson json
    let (entry, graph) := graph.intern symbol
    .ok (some entry.hierarchicalPath, graph)
  else .ok (none, graph)

/-- Read one edge: the first edge between its nodes, or a new one, gets its annotations. -/
def loadEdge (version : Int) (loading : Loading) (json : Json) : Except LoadError Loading := do
  let sourceId ← json.field "source" >>= Json.getNat
  let targetId ← json.field "target" >>= Json.getNat
  match loading.find sourceId, loading.find targetId with
  | some source, some target => do
      let graph := loading.graph.addEdge source target
      let semantics ← semanticsFromJson version json
      let symbolJson ← json.field "symbol"
      let (symbol, graph) ← loadSymbol graph symbolJson
      let boundsJson ← json.field "bounds"
      let bounds ← boundsFromJson boundsJson
      let disabled ← json.field "disabled" >>= Json.getBool
      .ok { loading with
        graph := graph.setEdge source target
          { source := source, target := target, semantics := semantics, symbol := symbol,
            bounds := bounds, disabled := disabled } }
  | _, _ => .error (.runtimeError "edge references unknown node ID")

/-- `addFile` for an entry of the file table. -/
def loadFile (graph : NetlistGraph) (json : Json) : Except LoadError NetlistGraph := do
  let name ← json.getString
  .ok (graph.addFile name).2

/-- `addBlackBoxPath` for an entry of the list. -/
def loadBlackBox (graph : NetlistGraph) (json : Json) : Except LoadError NetlistGraph := do
  let path ← json.getString
  .ok { graph with blackBoxPaths := graph.blackBoxPaths ++ [path] }

/-- Restore the artifact identifier, which a graph of version 3 does not have. -/
def loadArtifactId (version : Int) (graph : NetlistGraph) (root : Json) :
    Except LoadError NetlistGraph :=
  if version ≥ 4 ∧ root.contains "artifactId" then do
    let id ← root.field "artifactId" >>= Json.getString
    .ok { graph with artifactId := id }
  else .ok graph

/-- The black boxes may be absent. -/
def loadBlackBoxes (graph : NetlistGraph) (root : Json) : Except LoadError NetlistGraph :=
  if root.contains "blackBoxes" then do
    let entries ← root.field "blackBoxes" >>= Json.items
    entries.foldlM loadBlackBox graph
  else .ok graph

/-- Read a graph into an empty one. -/
def deserialize (svIntFromString : String → Option SVInt) (root : Json) (graph : NetlistGraph) :
    Except LoadError NetlistGraph := do
  let version ← root.field "version" >>= Json.getInt
  if version ≠ 3 ∧ version ≠ formatVersion then
    throw (.runtimeError ("unsupported netlist format version: " ++ toString version))
  let graph ← loadArtifactId version graph root
  let files ← root.field "fileTable" >>= Json.items
  let graph ← files.foldlM loadFile graph
  let graph ← loadBlackBoxes graph root
  let nodes ← root.field "nodes" >>= Json.items
  let loading ← nodes.foldlM (loadNode svIntFromString) { graph := graph }
  let edges ← root.field "edges" >>= Json.items
  let loading ← edges.foldlM (loadEdge version) loading
  .ok loading.graph

end NetlistSerializer

end SlangNetlist
