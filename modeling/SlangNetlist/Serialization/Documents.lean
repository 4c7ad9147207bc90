import SlangNetlist.Serialization.AcceptedDocuments

/-!
# Documents in range

The program reads the integers of a document into types of 32 and 64 bits: a
number out of range wraps, and a boolean is taken for a number.  In a document
in range nothing of this happens, and what is saved of a graph that was loaded
from such a document is in range again.
-/

namespace SlangNetlist

namespace Json

/-- A number is in the range of an integer type, and no boolean is taken for one. -/
def fits (least greatest : Int) : Json → Bool
  | .number value => least ≤ value ∧ value ≤ greatest
  | .bool _ => false
  | _ => true

/-- Read into an `int` or `int32_t`. -/
def fitsInt : Json → Bool := fits (-2147483648) 2147483647

def maxUInt : Nat := 4294967295

def maxSize : Nat := 18446744073709551615

/-- Read into a `uint32_t`. -/
def fitsUInt : Json → Bool := fits 0 maxUInt

/-- Read into a `size_t` or `uint64_t`. -/
def fitsSize : Json → Bool := fits 0 maxSize

/-- A condition on the value of a key, where an object has the key. -/
def fieldFits (key : String) (condition : Json → Bool) (json : Json) : Bool :=
  match json.field key with
  | .ok value => condition value
  | .error _ => true

/-- An array whose items meet a condition. -/
def itemsFit (condition : Json → Bool) : Json → Bool
  | .array items => items.all condition
  | _ => false

section Read

variable {json : Json}

theorem getInt_fits {least greatest : Int} (inRange : json.fits least greatest = true) {value : Int}
    (read : json.getInt = .ok value) : least ≤ value ∧ value ≤ greatest := by
  cases json with
  | number stored =>
      cases read
      simpa [fits] using inRange
  | null | bool _ | string _ | array _ | object _ => cases read

theorem getNat_fits {greatest : Nat} (inRange : json.fits 0 greatest = true) {value : Nat}
    (read : json.getNat = .ok value) : value ≤ greatest := by
  cases json with
  | number stored =>
      cases read
      have bounds : 0 ≤ stored ∧ stored ≤ greatest := by simpa [fits] using inRange
      omega
  | null | bool _ | string _ | array _ | object _ => cases read

/-- What is read from a key meets what the condition on its value says. -/
theorem read_fieldFits {α : Type} {key : String} {condition : Json → Bool}
    {reader : Json → Except LoadError α} {value : α}
    (inRange : json.fieldFits key condition = true)
    (read : (json.field key >>= reader) = .ok value) :
    ∃ stored, condition stored = true ∧ reader stored = .ok value := by
  obtain ⟨stored, found, read⟩ := NetlistSerializer.bind_eq_ok.mp read
  rw [fieldFits, found] at inRange
  exact ⟨stored, inRange, read⟩

theorem items_fit {condition : Json → Bool} {items : List Json}
    (inRange : json.itemsFit condition = true) (read : json.items = .ok items) :
    ∀ item ∈ items, condition item = true := by
  cases json with
  | array stored =>
      cases read
      simpa [itemsFit] using inRange
  | null | bool _ | number _ | string _ | object _ => cases read

end Read

end Json

/-! ## What fits in the types of the program -/

def TextLocation.Fits (location : TextLocation) : Prop :=
  location.fileIndex ≤ Json.maxUInt ∧ location.line ≤ Json.maxSize ∧
    location.column ≤ Json.maxSize

def DriverBitRange.Fits (bounds : DriverBitRange) : Prop :=
  (-2147483648 ≤ bounds.left ∧ bounds.left ≤ 2147483647) ∧
    (-2147483648 ≤ bounds.right ∧ bounds.right ≤ 2147483647)

def NodeData.Fits : NodeData → Prop
  | .port _ _ location _ bounds => location.Fits ∧ bounds.Fits
  | .variable _ _ location bounds | .state _ _ location bounds => location.Fits ∧ bounds.Fits
  | .assignment location | .conditional location | .case location => location.Fits
  | .constant _ width location => width ≤ Json.maxSize ∧ location.Fits
  | .merge | .none => True

/-- The numbers of a graph that the serialiser writes are in range. -/
structure NetlistGraph.Fits (graph : NetlistGraph) : Prop where
  ids : ∀ node ∈ graph.nodes, node.ID ≤ Json.maxSize
  nodes : ∀ node ∈ graph.nodes, node.data.Fits
  edges : ∀ edge ∈ graph.edges, edge.bounds.Fits
  symbols : ∀ entry ∈ graph.symbolTable, entry.location.Fits

namespace NetlistSerializer

open Json (fieldFits itemsFit fitsInt fitsUInt fitsSize)
open NetlistGraph (nodeID)

/-! ## Documents -/

def locationFits (json : Json) : Bool :=
  json.fieldFits "fileIndex" fitsUInt && json.fieldFits "line" fitsSize &&
    json.fieldFits "column" fitsSize

def boundsFit : Json → Bool
  | .array (first :: second :: _) => first.fitsInt && second.fitsInt
  | _ => true

def nodeFits (json : Json) : Bool :=
  json.fieldFits "id" fitsSize && json.fieldFits "location" locationFits &&
    json.fieldFits "bounds" boundsFit && json.fieldFits "width" fitsSize

def edgeFits (json : Json) : Bool :=
  json.fieldFits "source" fitsSize && json.fieldFits "target" fitsSize &&
    json.fieldFits "symbol" (fieldFits "location" locationFits) &&
    json.fieldFits "bounds" boundsFit

/-- The numbers of a document are in range, and its lists are arrays. -/
def documentFits (root : Json) : Bool :=
  root.fieldFits "version" fitsInt && root.fieldFits "fileTable" (itemsFit fun _ => true) &&
    root.fieldFits "blackBoxes" (itemsFit fun _ => true) &&
    root.fieldFits "nodes" (itemsFit nodeFits) && root.fieldFits "edges" (itemsFit edgeFits)

/-- A document whose numbers are read as they are. -/
structure Document where
  root : Json
  fits : documentFits root = true

/-! ## Loading -/

section Load

variable {svIntFromString : String → Option SVInt} {json : Json}

theorem locationFromJson_fits (inRange : locationFits json = true) {location : TextLocation}
    (read : locationFromJson json = .ok location) : location.Fits := by
  simp only [locationFits, Bool.and_eq_true] at inRange
  obtain ⟨⟨fileFits, lineFits⟩, columnFits⟩ := inRange
  obtain ⟨fileIndex, fileRead, read⟩ := bind_eq_ok.mp read
  obtain ⟨line, lineRead, read⟩ := bind_eq_ok.mp read
  obtain ⟨column, columnRead, read⟩ := bind_eq_ok.mp read
  cases read
  obtain ⟨_, fits, read⟩ := Json.read_fieldFits fileFits fileRead
  have file := Json.getNat_fits fits read
  obtain ⟨_, fits, read⟩ := Json.read_fieldFits lineFits lineRead
  have line := Json.getNat_fits fits read
  obtain ⟨_, fits, read⟩ := Json.read_fieldFits columnFits columnRead
  have column := Json.getNat_fits fits read
  exact ⟨file, line, column⟩

theorem boundsFromJson_fits (inRange : boundsFit json = true) {bounds : DriverBitRange}
    (read : boundsFromJson json = .ok bounds) : bounds.Fits := by
  obtain ⟨items, found, matched⟩ := bind_eq_ok.mp read
  obtain rfl : json = .array items := by
    cases json with
    | array stored =>
        cases found
        rfl
    | null | bool _ | number _ | string _ | object _ => cases found
  split at matched
  · obtain ⟨left, leftRead, matched⟩ := bind_eq_ok.mp matched
    obtain ⟨right, rightRead, matched⟩ := bind_eq_ok.mp matched
    cases matched
    simp only [boundsFit, Bool.and_eq_true] at inRange
    exact ⟨Json.getInt_fits inRange.1 leftRead, Json.getInt_fits inRange.2 rightRead⟩
  · cases matched

/-- The fields of a node are read in range. -/
theorem nodeDataFromJson_fits (inRange : nodeFits json = true) {kind : NodeKind} {data : NodeData}
    (read : nodeDataFromJson svIntFromString kind json = .ok data) : data.Fits := by
  simp only [nodeFits, Bool.and_eq_true] at inRange
  obtain ⟨⟨⟨_, locationIn⟩, boundsIn⟩, widthIn⟩ := inRange
  have located {location : TextLocation}
      (read : (json.field "location" >>= locationFromJson) = .ok location) : location.Fits := by
    obtain ⟨_, fits, read⟩ := Json.read_fieldFits locationIn read
    exact locationFromJson_fits fits read
  have ranged {stored : Json} {bounds : DriverBitRange} (found : json.field "bounds" = .ok stored)
      (read : boundsFromJson stored = .ok bounds) : bounds.Fits := by
    obtain ⟨_, fits, read⟩ := Json.read_fieldFits boundsIn
      (bind_eq_ok.mpr ⟨stored, found, read⟩)
    exact boundsFromJson_fits fits read
  match kind, read with
  | .port, read =>
      obtain ⟨_, boundsFound, read⟩ := bind_eq_ok.mp read
      obtain ⟨_, _, read⟩ := bind_eq_ok.mp read
      obtain ⟨_, _, read⟩ := bind_eq_ok.mp read
      obtain ⟨_, locationRead, read⟩ := bind_eq_ok.mp read
      obtain ⟨_, _, read⟩ := bind_eq_ok.mp read
      obtain ⟨_, boundsRead, read⟩ := bind_eq_ok.mp read
      cases read
      exact ⟨located locationRead, ranged boundsFound boundsRead⟩
  | .variable, read | .state, read =>
      obtain ⟨_, boundsFound, read⟩ := bind_eq_ok.mp read
      obtain ⟨_, _, read⟩ := bind_eq_ok.mp read
      obtain ⟨_, _, read⟩ := bind_eq_ok.mp read
      obtain ⟨_, locationRead, read⟩ := bind_eq_ok.mp read
      obtain ⟨_, boundsRead, read⟩ := bind_eq_ok.mp read
      cases read
      exact ⟨located locationRead, ranged boundsFound boundsRead⟩
  | .assignment, read | .conditional, read | .case, read =>
      obtain ⟨_, locationRead, read⟩ := bind_eq_ok.mp read
      cases read
      exact located locationRead
  | .constant, read =>
      obtain ⟨width, widthRead, read⟩ := bind_eq_ok.mp read
      obtain ⟨_, _, read⟩ := bind_eq_ok.mp read
      obtain ⟨_, locationRead, read⟩ := bind_eq_ok.mp read
      cases read
      obtain ⟨_, fits, widthRead⟩ := Json.read_fieldFits widthIn widthRead
      exact ⟨Json.getNat_fits fits widthRead, located locationRead⟩
  | .merge, read | .none, read =>
      cases read
      trivial

/-- The graph and the tables, before there are nodes. -/
theorem TablesRead.fits {graph : NetlistGraph} (read : TablesRead graph) : graph.Fits := by
  refine ⟨?_, ?_, ?_, ?_⟩ <;> simp [read.nodes, read.edges, read.symbols]

theorem loadNode_fits (inRange : nodeFits json = true) {loading next : Loading}
    (fits : loading.graph.Fits) (loaded : loadNode svIntFromString loading json = .ok next) :
    next.graph.Fits := by
  have idIn : json.fieldFits "id" fitsSize = true := by
    simp only [nodeFits, Bool.and_eq_true] at inRange
    exact inRange.1.1.1
  obtain ⟨id, idRead, loaded⟩ := bind_eq_ok.mp loaded
  obtain ⟨kind, _, loaded⟩ := bind_eq_ok.mp loaded
  obtain ⟨data, decoded, added⟩ := bind_eq_ok.mp loaded
  cases added
  obtain ⟨_, sizeIn, idRead⟩ := Json.read_fieldFits idIn idRead
  have idFits : id ≤ Json.maxSize := Json.getNat_fits sizeIn idRead
  refine ⟨fun node member => ?_, fun node member => ?_, fits.edges, fits.symbols⟩
  · rcases List.mem_append.mp member with old | new
    · exact fits.ids node old
    · obtain rfl := List.mem_singleton.mp new
      exact idFits
  · rcases List.mem_append.mp member with old | new
    · exact fits.nodes node old
    · obtain rfl := List.mem_singleton.mp new
      exact nodeDataFromJson_fits inRange decoded

theorem loadEdge_fits (inRange : edgeFits json = true) {version : Int} {loading next : Loading}
    (fits : loading.graph.Fits) (loaded : loadEdge version loading json = .ok next) :
    next.graph.Fits := by
  simp only [edgeFits, Bool.and_eq_true] at inRange
  obtain ⟨⟨_, symbolIn⟩, boundsIn⟩ := inRange
  obtain ⟨edge, record, rfl, _, _, _, boundsRead, entries⟩ := loadEdge_cases loaded
  obtain ⟨_, rangeIn, boundsRead⟩ := Json.read_fieldFits boundsIn boundsRead
  refine ⟨?_, ?_, fun other member => ?_, fun entry member => ?_⟩
  · rw [nodes_writeEdge]
    exact fits.ids
  · rw [nodes_writeEdge]
    exact fits.nodes
  · rw [edges_writeEdge] at member
    have placed : other ∈ [edge].foldl placeEdge loading.graph.edges := member
    rcases mem_foldl_placeEdge placed with old | new
    · exact fits.edges other old
    · obtain rfl := List.mem_singleton.mp new
      exact boundsFromJson_fits rangeIn boundsRead
  · rw [symbolTable_writeEdge] at member
    rcases mem_internSymbol member with old | new
    · exact fits.symbols entry old
    · obtain ⟨_, locationIn, read⟩ := Json.read_fieldFits symbolIn (entries entry new)
      obtain ⟨_, _, read⟩ := bind_eq_ok.mp read
      obtain ⟨_, _, read⟩ := bind_eq_ok.mp read
      obtain ⟨_, locationRead, read⟩ := bind_eq_ok.mp read
      cases read
      obtain ⟨_, located, locationRead⟩ := Json.read_fieldFits locationIn locationRead
      exact locationFromJson_fits located locationRead

/-- What is loaded from a document in range is in range. -/
theorem fits_of_deserialize {document : Document} {graph : NetlistGraph}
    (accepted : deserialize svIntFromString document.root {} = .ok graph) : graph.Fits := by
  obtain ⟨root, inRange⟩ := document
  simp only [documentFits, Bool.and_eq_true] at inRange
  obtain ⟨⟨_, nodesIn⟩, edgesIn⟩ := inRange
  obtain ⟨version, _, accepted⟩ := bind_eq_ok.mp accepted
  split at accepted
  · cases accepted
  · obtain ⟨titled, artifact, accepted⟩ := bind_eq_ok.mp accepted
    obtain ⟨names, _, accepted⟩ := bind_eq_ok.mp accepted
    obtain ⟨listed, files, accepted⟩ := bind_eq_ok.mp accepted
    obtain ⟨boxed, boxes, accepted⟩ := bind_eq_ok.mp accepted
    obtain ⟨nodes, nodesRead, accepted⟩ := bind_eq_ok.mp accepted
    obtain ⟨noded, nodesLooped, accepted⟩ := bind_eq_ok.mp accepted
    obtain ⟨edges, edgesRead, accepted⟩ := bind_eq_ok.mp accepted
    obtain ⟨edged, edgesLooped, result⟩ := bind_eq_ok.mp accepted
    cases result
    have tables : TablesRead boxed :=
      (holds_of_loop (fun _ _ _ _ read step => read.loadFile step)
        (tablesRead_loadArtifactId artifact) files).loadBlackBoxes boxes
    obtain ⟨_, fits, read⟩ := Json.read_fieldFits nodesIn nodesRead
    have nodesFit := Json.items_fit fits read
    obtain ⟨_, fits, read⟩ := Json.read_fieldFits edgesIn edgesRead
    have edgesFit := Json.items_fit fits read
    have placed : noded.graph.Fits :=
      @holds_of_loop _ _ _ _ (fun loading : Loading => loading.graph.Fits) _
        (fun _ json member _ fits step => loadNode_fits (nodesFit json member) fits step)
        _ _ tables.fits nodesLooped
    exact @holds_of_loop _ _ _ _ (fun loading : Loading => loading.graph.Fits) _
      (fun _ json member _ fits step => loadEdge_fits (edgesFit json member) fits step)
      _ _ placed edgesLooped

end Load

/-! ## Saving -/

section Save

variable {graph : NetlistGraph} (fits : graph.Fits) (valueToString : ConstantValue → String)

theorem fits_number {greatest value : Nat} (small : value ≤ greatest) :
    (Json.number value).fits 0 greatest = true := by
  simp [Json.fits, small]

theorem locationToJson_fits {location : TextLocation} (fits : location.Fits) :
    locationFits (locationToJson location) = true := by
  obtain ⟨file, line, column⟩ := fits
  simp only [locationFits, Bool.and_eq_true]
  exact ⟨⟨fits_number file, fits_number line⟩, fits_number column⟩

theorem boundsToJson_fits {bounds : DriverBitRange} (fits : bounds.Fits) :
    boundsFit (boundsToJson bounds) = true := by
  obtain ⟨left, right⟩ := fits
  have lower : -2147483648 ≤ bounds.lower ∧ bounds.lower ≤ 2147483647 := by
    unfold DriverBitRange.lower
    omega
  have upper : -2147483648 ≤ bounds.upper ∧ bounds.upper ≤ 2147483647 := by
    unfold DriverBitRange.upper
    omega
  simp [boundsFit, boundsToJson, fitsInt, Json.fits, lower, upper]

theorem nodeToJson_fits {node : NetlistNode} (id : node.ID ≤ Json.maxSize)
    (fits : node.data.Fits) : nodeFits (nodeToJson valueToString node) = true := by
  obtain ⟨ref, ID, data⟩ := node
  have idFits := fits_number id
  simp only [nodeFits, Bool.and_eq_true]
  match data, fits with
  | .port .., ⟨location, bounds⟩ =>
      exact ⟨⟨⟨idFits, locationToJson_fits location⟩, boundsToJson_fits bounds⟩, rfl⟩
  | .variable .., ⟨location, bounds⟩ | .state .., ⟨location, bounds⟩ =>
      exact ⟨⟨⟨idFits, locationToJson_fits location⟩, boundsToJson_fits bounds⟩, rfl⟩
  | .assignment _, location | .conditional _, location | .case _, location =>
      exact ⟨⟨⟨idFits, locationToJson_fits location⟩, rfl⟩, rfl⟩
  | .constant .., ⟨width, location⟩ =>
      exact ⟨⟨⟨idFits, locationToJson_fits location⟩, rfl⟩, fits_number width⟩
  | .merge, _ | .none, _ => exact ⟨⟨⟨idFits, rfl⟩, rfl⟩, rfl⟩

include fits

theorem nodeID_fits (ref : NodeRef) : nodeID graph ref ≤ Json.maxSize := by
  unfold NetlistGraph.nodeID
  cases found : graph.node? ref with
  | none => exact Nat.zero_le _
  | some node => exact fits.ids node (List.mem_of_find?_eq_some found)

theorem edgeToJson_fits {edge : NetlistEdge} (member : edge ∈ graph.edges) :
    edgeFits (edgeToJson graph edge) = true := by
  have symbolFits : (edgeToJson graph edge).fieldFits "symbol"
      (fieldFits "location" locationFits) = true := by
    unfold edgeToJson
    cases found : symbolRecord graph edge with
    | none => rfl
    | some entry =>
        obtain ⟨path, _, recorded⟩ := Option.bind_eq_some_iff.mp found
        exact locationToJson_fits (fits.symbols entry (List.mem_of_find?_eq_some recorded))
  simp only [edgeFits, Bool.and_eq_true]
  exact ⟨⟨⟨fits_number (nodeID_fits fits edge.source), fits_number (nodeID_fits fits edge.target)⟩,
    symbolFits⟩, boundsToJson_fits (fits.edges edge member)⟩

/-- A graph in range is saved as a document in range. -/
theorem documentFits_serialize (drawn : String) :
    documentFits (serialize valueToString drawn graph) = true := by
  have nodes : (Json.array (graph.nodes.map (nodeToJson valueToString))).itemsFit nodeFits =
      true := by
    simp only [itemsFit, List.all_map, List.all_eq_true]
    exact fun node member =>
      nodeToJson_fits valueToString (fits.ids node member) (fits.nodes node member)
  have edges : (Json.array ((allOutEdges graph).map (edgeToJson graph))).itemsFit edgeFits =
      true := by
    simp only [itemsFit, List.all_map, List.all_eq_true]
    intro edge member
    obtain ⟨node, _, out⟩ := List.mem_flatMap.mp member
    exact edgeToJson_fits fits (List.mem_of_mem_filter out)
  have free (names : List Json) : (Json.array names).itemsFit (fun _ => true) = true := by
    simp [itemsFit]
  simp only [documentFits, Bool.and_eq_true]
  exact ⟨⟨⟨⟨rfl, free _⟩, free _⟩, nodes⟩, edges⟩

end Save

end NetlistSerializer

end SlangNetlist
