import SlangNetlist.Query.BlackBoxCoverage
import SlangNetlist.Query.RenamedSearch
import SlangNetlist.Query.SameEnds
import SlangNetlist.Query.Sensitivity

/-!
# Queries on a graph with other addresses

Two graphs with the same nodes and edges under different addresses answer
alike.  Where the order of the out-edges is the same, forward queries answer in
the same order; the order of the in-edges may differ.  The drivers of one range
are in the order of their addresses, which may be another one.
-/

namespace SlangNetlist

open Library

/-- The loop over renamed results finds the renamed result. -/
theorem firstNonempty_renamed {α β γ : Type} {f : β → γ} {search : α → Option (List β)}
    {renamed : α → Option (List γ)} {list : List α}
    (same : ∀ element ∈ list, renamed element = (search element).map (List.map f)) :
    firstNonempty renamed list = (firstNonempty search list).map (List.map f) := by
  induction list with
  | nil => rfl
  | cons head rest ih =>
      obtain ⟨atHead, later⟩ := List.forall_mem_cons.mp same
      rw [firstNonempty, firstNonempty, atHead]
      cases search head with
      | none => rfl
      | some path =>
          cases path with
          | nil => exact ih later
          | cons node path => rfl

/-- The search over all pairs of points. -/
theorem firstNonempty_renamed_pairs {α β : Type} {f : α → β} (find : α → α → Option (List α))
    (renamed : β → β → Option (List β)) {fromPoints toPoints : List α}
    (finds : ∀ fromPoint ∈ fromPoints, ∀ toPoint ∈ toPoints,
      renamed (f fromPoint) (f toPoint) = (find fromPoint toPoint).map (List.map f)) :
    firstNonempty (fun fromPoint => firstNonempty (renamed fromPoint) (toPoints.map f))
        (fromPoints.map f) =
      (firstNonempty (fun fromPoint => firstNonempty (find fromPoint) toPoints) fromPoints).map
        (List.map f) := by
  rw [firstNonempty_map]
  refine firstNonempty_renamed fun fromPoint fromMem => ?_
  rw [firstNonempty_map]
  exact firstNonempty_renamed (finds fromPoint fromMem)

/-- Whether the loop finds something does not depend on the order of its elements. -/
theorem isEmpty_firstNonempty_perm {α β : Type} {search : α → Option (List β)}
    {list others : List α} (total : ∀ element ∈ list, ∃ path, search element = some path)
    (perm : list.Perm others) :
    (firstNonempty search list).map List.isEmpty =
      (firstNonempty search others).map List.isEmpty := by
  have foundNonempty : ∀ {element path}, search element = some path → path ≠ [] →
      search element ≠ some [] := fun found nonempty same =>
    nonempty (Option.some.inj (found.symm.trans same))
  have otherTotal : ∀ element ∈ others, ∃ path, search element = some path :=
    fun element member => total element (perm.mem_iff.mpr member)
  rcases firstNonempty_cases list total with
    ⟨empty, result⟩ | ⟨_, element, _, path, split, _, found, nonempty, result⟩ <;>
  rcases firstNonempty_cases others otherTotal with
    ⟨otherEmpty, otherResult⟩ |
    ⟨_, other, _, otherPath, otherSplit, _, otherFound, otherNonempty, otherResult⟩
  · rw [result, otherResult]
  · have member : other ∈ list := perm.mem_iff.mpr (by simp [otherSplit])
    exact absurd (empty other member) (foundNonempty otherFound otherNonempty)
  · have member : element ∈ others := perm.mem_iff.mp (by simp [split])
    exact absurd (otherEmpty element member) (foundNonempty found nonempty)
  · have isEmpty : path.isEmpty = otherPath.isEmpty := by
      rw [List.isEmpty_eq_false_iff.mpr nonempty, List.isEmpty_eq_false_iff.mpr otherNonempty]
    rw [result, otherResult, Option.map_some, Option.map_some, isEmpty]

namespace NetlistGraph

/-- A chain of edges from a node of the graph stays in the graph. -/
theorem hasNode_of_chain {graph : NetlistGraph} (linked : graph.Linked)
    {selected : NetlistEdge → Bool} {start : NodeRef} {rest : List NodeRef}
    (startMem : graph.HasNode start) (chain : (start :: rest).IsChain (graph.StepsTo selected)) :
    ∀ node ∈ start :: rest, graph.HasNode node := by
  induction rest generalizing start with
  | nil => simpa using startMem
  | cons next rest ih =>
      obtain ⟨⟨edge, edgeMem, _, _, target⟩, later⟩ := List.isChain_cons_cons.mp chain
      have nextMem : graph.HasNode next := target ▸ (linked.ends edge edgeMem).2
      exact List.forall_mem_cons.mpr ⟨startMem, ih nextMem later⟩

theorem IsPath.hasNode {graph : NetlistGraph} (linked : graph.Linked)
    {selected : NetlistEdge → Bool} {startNode endNode : NodeRef} {path : List NodeRef}
    (isPath : graph.IsPath selected startNode endNode path) (startMem : graph.HasNode startNode) :
    ∀ node ∈ path, graph.HasNode node := by
  cases path with
  | nil => simp
  | cons head rest =>
      obtain rfl : head = startNode := Option.some.inj isPath.head
      exact hasNode_of_chain linked startMem isPath.joined

/-- The edge between the nodes at the new addresses. -/
def renamedEdge (onNode : NodeRef → NodeRef) (edge : NetlistEdge) : NetlistEdge :=
  { edge with source := onNode edge.source, target := onNode edge.target }

/-- The driver at its new address. -/
def onEntry (onNode : NodeRef → NodeRef) (entry : DriverBitRange × NodeRef) :
    DriverBitRange × NodeRef :=
  (entry.1, onNode entry.2)

/-- The clock or reset at its new address. -/
def onSource (onNode : NodeRef → NodeRef) (source : SensitivitySource) : SensitivitySource :=
  ⟨onNode source.source, source.edgeKind⟩

/--
The other graph has the nodes and the edges at new addresses, with the nodes and
the out-edges of each in the same order.
-/
structure Mirrors (graph other : NetlistGraph) (onNode : NodeRef → NodeRef) : Prop where
  injective : Set.InjOn onNode {ref | graph.HasNode ref}
  nodes : other.nodes = graph.nodes.map (renamedNode onNode)
  outEdges : ∀ ref, graph.HasNode ref →
    other.outEdges (onNode ref) = (graph.outEdges ref).map (renamedEdge onNode)
  edges : other.edges.Perm (graph.edges.map (renamedEdge onNode))

/-- The nodes of the graph have their addresses in the order of the new ones. -/
def SameOrder (graph : NetlistGraph) (onNode : NodeRef → NodeRef)
    (addresses otherAddresses : Addresses) : Prop :=
  ∀ node other, graph.HasNode node → graph.HasNode other →
    (addresses node ≤ addresses other ↔
      otherAddresses (onNode node) ≤ otherAddresses (onNode other))

namespace Mirrors

variable {graph other : NetlistGraph} {onNode : NodeRef → NodeRef} {linked : graph.Linked}
  {otherLinked : other.Linked} (mirrors : graph.Mirrors other onNode)

include mirrors

omit mirrors in
theorem isImage (old : NetlistEdge) : IsImage onNode old (renamedEdge onNode old) :=
  ⟨rfl, rfl, rfl⟩

theorem mem_edges {edge : NetlistEdge} :
    edge ∈ other.edges ↔ ∃ old ∈ graph.edges, renamedEdge onNode old = edge := by
  rw [mirrors.edges.mem_iff, List.mem_map]

theorem sameEnds : graph.SameEnds other onNode where
  injective := mirrors.injective
  nodes := mirrors.nodes
  image edge member := by
    obtain ⟨old, oldMem, rfl⟩ := mirrors.mem_edges.mp member
    exact ⟨old, oldMem, isImage old⟩
  kept old oldMem := ⟨_, mirrors.mem_edges.mpr ⟨old, oldMem, rfl⟩, isImage old⟩

/-- An edge leads into a register exactly if its image does. -/
theorem combEdge (linked : graph.Linked) : ∀ edge ∈ graph.edges,
    other.combEdge (renamedEdge onNode edge) = graph.combEdge edge :=
  fun old oldMem => mirrors.sameEnds.selects_comb linked old oldMem _ (isImage old)

/-- The forward search of the one graph is that of the other. -/
def forward (linked : graph.Linked) (otherLinked : other.Linked) :
    Renaming (graph.directed linked) (other.directed otherLinked) .forward where
  onNode := onNode
  onEdge := renamedEdge onNode
  injective := mirrors.injective
  source _ _ := rfl
  target _ _ := rfl
  edgesOf node member := mirrors.outEdges node member

/-! ## Forward queries -/

theorem find {startNode endNode : NodeRef} (startMem : graph.HasNode startNode)
    (endMem : graph.HasNode endNode) :
    other.find otherLinked (onNode startNode) (onNode endNode) =
      (graph.find linked startNode endNode).map (List.map onNode) :=
  PathFinder.findPath_renamed (mirrors.forward linked otherLinked) (fun _ _ => rfl)
    startMem endMem

theorem findComb {startNode endNode : NodeRef} (startMem : graph.HasNode startNode)
    (endMem : graph.HasNode endNode) :
    other.findComb otherLinked (onNode startNode) (onNode endNode) =
      (graph.findComb linked startNode endNode).map (List.map onNode) :=
  PathFinder.findPath_renamed (mirrors.forward linked otherLinked)
    (mirrors.combEdge linked) startMem endMem

theorem getCombFanOut {node : NodeRef} (member : graph.HasNode node) :
    other.getCombFanOut otherLinked (onNode node) =
      (graph.getCombFanOut linked node).map (List.map onNode) :=
  DepthFirstSearch.collect_renamed (mirrors.forward linked otherLinked)
    (mirrors.combEdge linked) member

theorem getAllLoops :
    other.getAllLoops otherLinked =
      (graph.getAllLoops linked).map (List.map (List.map onNode)) :=
  CycleDetector.detectCycles_renamed (mirrors.forward linked otherLinked) mirrors.sameEnds.refs
    mirrors.sameEnds.ID (mirrors.combEdge linked)

/-! ## The edges of a symbol -/

variable {name : String} {bounds : DriverBitRange}

theorem edgesOfSymbol (name : String) :
    other.edgesOfSymbol name = (graph.edgesOfSymbol name).map (renamedEdge onNode) := by
  have perNode (netlist : NetlistGraph) :
      (netlist.nodes.flatMap fun node => netlist.outEdges node.ref) =
        (netlist.nodes.map NetlistNode.ref).flatMap netlist.outEdges := by
    rw [List.flatMap_map]
  unfold NetlistGraph.edgesOfSymbol
  rw [perNode, perNode, mirrors.sameEnds.refs, List.flatMap_map]
  have moved : (graph.nodes.map NetlistNode.ref).flatMap (fun ref => other.outEdges (onNode ref)) =
      ((graph.nodes.map NetlistNode.ref).flatMap graph.outEdges).map (renamedEdge onNode) := by
    rw [List.map_flatMap]
    exact List.flatMap_congr fun ref member => mirrors.outEdges ref member
  rw [moved, List.filter_map]
  rfl

omit mirrors in
theorem onEntry_injOn (injective : Set.InjOn onNode {ref | graph.HasNode ref}) :
    Set.InjOn (onEntry onNode) {entry | graph.HasNode entry.2} := by
  rintro ⟨range, node⟩ nodeMem ⟨otherRange, otherNode⟩ otherMem same
  obtain ⟨sameRange, sameNode⟩ := Prod.mk.inj same
  exact Prod.ext sameRange (injective nodeMem otherMem sameNode)

/-- The drivers of a range are the same, in the same order if their addresses are. -/
theorem getBitDrivers (linked : graph.Linked) {addresses otherAddresses : Addresses}
    (sameOrder : graph.SameOrder onNode addresses otherAddresses) (name : String)
    (bounds : DriverBitRange) :
    other.getBitDrivers otherAddresses name bounds =
      (graph.getBitDrivers addresses name bounds).map (onEntry onNode) := by
  have entries : (other.edgesOfSymbol name).filterMap (fun edge =>
        (edge.bounds.intersection bounds).map fun clipped => (clipped, edge.source)) =
      ((graph.edgesOfSymbol name).filterMap fun edge =>
        (edge.bounds.intersection bounds).map fun clipped => (clipped, edge.source)).map
          (onEntry onNode) := by
    rw [mirrors.edgesOfSymbol, List.filterMap_map, List.map_filterMap]
    refine List.filterMap_congr fun edge _ => ?_
    rw [Function.comp_apply, Option.map_map]
    rfl
  have inside : ∀ entry ∈ (graph.edgesOfSymbol name).filterMap (fun edge =>
      (edge.bounds.intersection bounds).map fun clipped => (clipped, edge.source)),
      graph.HasNode entry.2 := by
    intro entry member
    obtain ⟨edge, edgeMem, clipped⟩ := List.mem_filterMap.mp member
    obtain ⟨_, _, rfl⟩ := Option.map_eq_some_iff.mp clipped
    exact (linked.ends edge (mem_edgesOfSymbol.mp edgeMem).1).1
  have sameKeys : ∀ entry, graph.HasNode entry.2 → ∀ later, graph.HasNode later.2 →
      keyLe addresses entry later =
        keyLe otherAddresses (onEntry onNode entry) (onEntry onNode later) := by
    intro entry entryMem later laterMem
    simp only [keyLe, onEntry, sameOrder entry.2 later.2 entryMem laterMem]
    rfl
  rw [NetlistGraph.getBitDrivers, entries, NetlistGraph.getBitDrivers,
    ← List.map_mergeSort fun entry entryMem later laterMem =>
      sameKeys entry (inside entry entryMem) later (inside later laterMem)]
  exact eraseDups_map (onEntry_injOn mirrors.injective) fun entry member =>
    inside entry (List.mem_mergeSort.mp member)

omit mirrors in
theorem drivers_inside {addresses : Addresses} :
    ∀ entry ∈ graph.getBitDrivers addresses name bounds, graph.HasNode entry.2 := by
  intro entry member
  obtain ⟨edge, edgeMem, present, _, _, rfl⟩ := mem_getBitDrivers_iff.mp member
  exact present

/-- Whatever the addresses, the drivers of a range are the same up to their order. -/
theorem getBitDrivers_perm (linked : graph.Linked) (addresses otherAddresses : Addresses)
    (name : String) (bounds : DriverBitRange) :
    (other.getBitDrivers otherAddresses name bounds).Perm
      ((graph.getBitDrivers addresses name bounds).map (onEntry onNode)) := by
  refine perm_map_of_mem (onEntry_injOn mirrors.injective) drivers_inside
    (nodup_eraseDups _) (nodup_eraseDups _) fun image => ?_
  simp only [mem_getBitDrivers_iff]
  constructor
  · rintro ⟨edge, edgeMem, present, carried, overlapping, rfl⟩
    obtain ⟨old, oldMem, rfl⟩ := mirrors.mem_edges.mp edgeMem
    exact ⟨_, ⟨old, oldMem, (linked.ends old oldMem).1, carried, overlapping, rfl⟩, rfl⟩
  · rintro ⟨_, ⟨old, oldMem, present, carried, overlapping, rfl⟩, rfl⟩
    exact ⟨renamedEdge onNode old, mirrors.mem_edges.mpr ⟨old, oldMem, rfl⟩,
      mirrors.sameEnds.hasNode.mpr ⟨old.source, present, rfl⟩, carried, overlapping, rfl⟩

/-- The ranges are in the same order. -/
theorem getBitDrivers_ranges (linked : graph.Linked) (addresses otherAddresses : Addresses)
    (name : String) (bounds : DriverBitRange) :
    (other.getBitDrivers otherAddresses name bounds).map Prod.fst =
      (graph.getBitDrivers addresses name bounds).map Prod.fst := by
  have perm := (mirrors.getBitDrivers_perm linked addresses otherAddresses name bounds).map Prod.fst
  rw [List.map_map] at perm
  have sorted (netlist : NetlistGraph) (addresses : Addresses) :
      ((netlist.getBitDrivers addresses name bounds).map Prod.fst).Pairwise fun first second =>
        first.lower < second.lower ∨ first.lower = second.lower ∧ first.upper ≤ second.upper :=
    List.pairwise_map.mpr (netlist.ranges_sorted_getBitDrivers addresses name bounds)
  refine List.Perm.eq_of_pairwise ?_ (sorted other otherAddresses) (sorted graph addresses) perm
  have ascending (range : DriverBitRange)
      (member : range ∈ (graph.getBitDrivers addresses name bounds).map Prod.fst) :
      range.left ≤ range.right := by
    obtain ⟨entry, entryMem, rfl⟩ := List.mem_map.mp member
    obtain ⟨edge, _, _, _, overlapping, rfl⟩ := mem_getBitDrivers_iff.mp entryMem
    exact DriverBitRange.intersect_ascending overlapping
  rintro first second firstMem secondMem firstLe secondLe
  have firstAscending := ascending first (perm.mem_iff.mp firstMem)
  have secondAscending := ascending second secondMem
  obtain ⟨firstLeft, firstRight⟩ := first
  obtain ⟨secondLeft, secondRight⟩ := second
  simp only [DriverBitRange.lower, DriverBitRange.upper] at *
  rw [DriverBitRange.mk.injEq]
  omega

omit mirrors in
theorem drivers_hasNode (linked : graph.Linked) {addresses : Addresses} {name : String}
    {range : Option DriverBitRange} : ∀ node ∈ graph.drivers addresses name range,
    graph.HasNode node := by
  intro node member
  obtain ⟨edge, edgeMem, _, _, rfl⟩ := (mem_drivers linked).mp member
  exact (linked.ends edge edgeMem).1

/-- The drivers of the range without their ranges. -/
theorem drivers (linked : graph.Linked) {addresses otherAddresses : Addresses}
    (sameOrder : graph.SameOrder onNode addresses otherAddresses) (name : String)
    (range : Option DriverBitRange) :
    other.drivers otherAddresses name range = (graph.drivers addresses name range).map onNode := by
  have inside : ∀ ref ∈ (graph.getBitDrivers addresses name (rangeOrWhole range)).map Prod.snd,
      graph.HasNode ref := by
    intro ref member
    obtain ⟨entry, entryMem, rfl⟩ := List.mem_map.mp member
    exact drivers_inside entry entryMem
  rw [NetlistGraph.drivers, NetlistGraph.drivers, mirrors.getBitDrivers linked sameOrder,
    ← eraseDups_map mirrors.injective inside, List.map_map, List.map_map]
  rfl

theorem mem_drivers_other (linked : graph.Linked) {otherAddresses : Addresses} (addresses : Addresses)
    {name : String} {range : Option DriverBitRange} (image : NodeRef) :
    image ∈ other.drivers otherAddresses name range ↔
      ∃ ref ∈ graph.drivers addresses name range, onNode ref = image := by
  have perm := mirrors.getBitDrivers_perm linked addresses otherAddresses name (rangeOrWhole range)
  simp only [NetlistGraph.drivers, List.mem_eraseDups, List.mem_map, perm.mem_iff]
  constructor
  · rintro ⟨_, ⟨entry, member, rfl⟩, rfl⟩
    exact ⟨entry.2, ⟨entry, member, rfl⟩, rfl⟩
  · rintro ⟨_, ⟨entry, member, rfl⟩, rfl⟩
    exact ⟨_, ⟨entry, member, rfl⟩, rfl⟩

theorem drivers_perm (linked : graph.Linked) (addresses otherAddresses : Addresses)
    (name : String) (range : Option DriverBitRange) :
    (other.drivers otherAddresses name range).Perm
      ((graph.drivers addresses name range).map onNode) :=
  perm_map_of_mem mirrors.injective (drivers_hasNode linked) (nodup_eraseDups _)
    (nodup_eraseDups _) (mirrors.mem_drivers_other linked addresses)

/-- The targets of the enabled edges of a symbol in the range. -/
theorem enabledTargets (name : String) (bounds : DriverBitRange) :
    ((other.edgesOfSymbol name).filter fun edge =>
        !edge.disabled && edge.bounds.overlaps bounds).map NetlistEdge.target =
      (((graph.edgesOfSymbol name).filter fun edge =>
        !edge.disabled && edge.bounds.overlaps bounds).map NetlistEdge.target).map onNode := by
  rw [mirrors.edgesOfSymbol, List.filter_map, List.map_map, List.map_map]
  rfl

theorem consumers (linked : graph.Linked) (name : String) (range : Option DriverBitRange) :
    other.consumers name range = (graph.consumers name range).map onNode := by
  have inside : ∀ ref ∈ ((graph.edgesOfSymbol name).filter fun edge =>
      !edge.disabled && edge.bounds.overlaps (rangeOrWhole range)).map NetlistEdge.target,
      graph.HasNode ref := by
    intro ref member
    obtain ⟨edge, edgeMem, rfl⟩ := List.mem_map.mp member
    exact (linked.ends edge (mem_edgesOfSymbol.mp (List.mem_of_mem_filter edgeMem)).1).2
  rw [NetlistGraph.consumers, NetlistGraph.consumers, mirrors.enabledTargets,
    eraseDups_map mirrors.injective inside]

/-! ## Path queries -/

theorem statesOn {path : List NodeRef} (inside : ∀ node ∈ path, graph.HasNode node) :
    other.statesOn (path.map onNode) = graph.statesOn path := by
  rw [NetlistGraph.statesOn, NetlistGraph.statesOn, List.countP_map]
  refine List.countP_congr fun node member => ?_
  rw [Function.comp_apply, mirrors.sameEnds.kind node (inside node member)]

theorem pathQuery {fromPoints toPoints : List NodeRef}
    (fromIn : ∀ node ∈ fromPoints, graph.HasNode node)
    (toIn : ∀ node ∈ toPoints, graph.HasNode node) (policy : CrossStatePolicy) :
    other.pathQuery otherLinked policy (fromPoints.map onNode) (toPoints.map onNode) =
      (graph.pathQuery linked policy fromPoints toPoints).map (List.map onNode) := by
  have structural := firstNonempty_renamed_pairs (graph.find linked) (other.find otherLinked)
    fun fromPoint fromMem toPoint toMem => mirrors.find (fromIn _ fromMem) (toIn _ toMem)
  have combinational := firstNonempty_renamed_pairs (graph.findComb linked)
    (other.findComb otherLinked)
    fun fromPoint fromMem toPoint toMem => mirrors.findComb (fromIn _ fromMem) (toIn _ toMem)
  unfold NetlistGraph.pathQuery
  cases policy with
  | never =>
      simp only [if_true, combinational, reduceCtorEq, false_and, if_false, Option.map_id']
  | unlimited =>
      simp only [reduceCtorEq, if_false, structural, false_and, Option.map_id']
  | once =>
      simp only [reduceCtorEq, if_false, structural, true_and]
      rcases search_cases linked fromPoints toPoints with ⟨_, result⟩ | ⟨path, first, _, result⟩
      · rw [result]
        rfl
      · obtain ⟨fromPoint, fromMem, _, _, _, isPath⟩ := first.connected
        have inside := isPath.hasNode linked (fromIn fromPoint fromMem)
        rw [result, Option.map_some, Option.map_some, Option.map_some, Option.map_some,
          mirrors.statesOn inside]
        split <;> rfl

omit mirrors in
/-- Where no path is dropped, an answer is empty whatever the order of the points. -/
theorem isEmpty_pathQuery_perm {fromPoints toPoints others : List NodeRef}
    {policy : CrossStatePolicy} (keeps : policy ≠ .once) (perm : toPoints.Perm others) :
    (graph.pathQuery linked policy fromPoints toPoints).map List.isEmpty =
      (graph.pathQuery linked policy fromPoints others).map List.isEmpty := by
  have anyOrder (selected : NetlistEdge → Bool) :
      (firstNonempty (fun fromPoint => firstNonempty
        (PathFinder.findPath (graph.directed linked) selected fromPoint) toPoints) fromPoints).map
          List.isEmpty =
      (firstNonempty (fun fromPoint => firstNonempty
        (PathFinder.findPath (graph.directed linked) selected fromPoint) others) fromPoints).map
          List.isEmpty := by
    rw [firstNonempty_product, firstNonempty_product]
    refine isEmpty_firstNonempty_perm (fun pair _ => ?_) ((List.Perm.refl fromPoints).product perm)
    obtain ⟨path, found, _⟩ := @findPath_found graph linked selected pair.1 pair.2
    exact ⟨path, found⟩
  have kept (path : List NodeRef) :
      (if policy = .once ∧ graph.statesOn path > 1 then [] else path) = path :=
    if_neg fun dropped => keeps dropped.1
  simp only [NetlistGraph.pathQuery, kept, Option.map_id']
  split
  · exact anyOrder graph.combEdge
  · exact anyOrder enabledEdge

omit mirrors in
theorem consumers_hasNode (linked : graph.Linked) {name : String} {range : Option DriverBitRange} :
    ∀ node ∈ graph.consumers name range, graph.HasNode node := by
  intro node member
  obtain ⟨edge, edgeMem, _, _, _, rfl⟩ := (mem_consumers linked).mp member
  exact (linked.ends edge edgeMem).2

/-- The query between two signals, with its errors, if the addresses are in the same order. -/
theorem signalPath {addresses otherAddresses : Addresses}
    (sameOrder : graph.SameOrder onNode addresses otherAddresses) (policy : CrossStatePolicy)
    (fromSignal : String) (fromRange : Option DriverBitRange) (toSignal : String)
    (toRange : Option DriverBitRange) :
    other.signalPath otherLinked otherAddresses policy fromSignal fromRange toSignal toRange =
      (graph.signalPath linked addresses policy fromSignal fromRange toSignal toRange).map
        (Option.map (List.map onNode)) := by
  simp only [NetlistGraph.signalPath, mirrors.consumers linked, mirrors.drivers linked sameOrder,
    List.isEmpty_map]
  split
  · rfl
  · rw [mirrors.pathQuery (consumers_hasNode linked) (drivers_hasNode linked)]
    rfl

/-- Whatever the addresses, both queries find a path or none, where no path is dropped. -/
theorem signalPath_isEmpty (addresses otherAddresses : Addresses) {policy : CrossStatePolicy}
    (keeps : policy ≠ .once) (fromSignal : String) (fromRange : Option DriverBitRange)
    (toSignal : String) (toRange : Option DriverBitRange) :
    (other.signalPath otherLinked otherAddresses policy fromSignal fromRange toSignal toRange).map
        (Option.map List.isEmpty) =
      (graph.signalPath linked addresses policy fromSignal fromRange toSignal toRange).map
        (Option.map List.isEmpty) := by
  have perm := mirrors.drivers_perm linked addresses otherAddresses toSignal toRange
  have sameEmpty : (other.drivers otherAddresses toSignal toRange).isEmpty =
      (graph.drivers addresses toSignal toRange).isEmpty := by
    rw [perm.isEmpty_eq, List.isEmpty_map]
  simp only [NetlistGraph.signalPath, mirrors.consumers linked, sameEmpty, List.isEmpty_map]
  split
  · rfl
  · have renamed := @pathQuery _ _ _ linked otherLinked mirrors _ _
      (@consumers_hasNode _ linked fromSignal fromRange)
      (@drivers_hasNode _ linked addresses toSignal toRange) policy
    simp only [Except.map, isEmpty_pathQuery_perm keeps perm, renamed, Option.map_map]
    congr 2
    funext path
    exact List.isEmpty_map

/-! ## The fan-out of a signal -/

theorem combTargets (linked : graph.Linked) {node : NodeRef} (member : graph.HasNode node) :
    other.combTargets (onNode node) = (graph.combTargets node).map onNode := by
  have kept : (graph.outEdges node).filter (fun edge =>
      other.combFanForward (renamedEdge onNode edge)) =
      (graph.outEdges node).filter graph.combFanForward :=
    List.filter_congr fun edge edgeMem => mirrors.combEdge linked edge (List.mem_of_mem_filter edgeMem)
  rw [NetlistGraph.combTargets, NetlistGraph.combTargets, mirrors.outEdges node member,
    List.filter_map, List.map_map, List.map_map]
  exact congrArg (List.map _) kept

theorem length_nodes : other.nodes.length = graph.nodes.length := by
  rw [mirrors.nodes, List.length_map]

theorem getSignalCombFanOut (linked : graph.Linked) (name : String) (bounds : DriverBitRange)
    (maxDepth : Nat) :
    other.getSignalCombFanOut name bounds maxDepth =
      (graph.getSignalCombFanOut name bounds maxDepth).map (List.map onNode) := by
  have targets : ∀ ref ∈ ((graph.edgesOfSymbol name).filter fun edge =>
      !edge.disabled && edge.bounds.overlaps bounds).map NetlistEdge.target, graph.HasNode ref := by
    intro ref member
    obtain ⟨edge, edgeMem, rfl⟩ := List.mem_map.mp member
    exact (linked.ends edge (mem_edgesOfSymbol.mp (List.mem_of_mem_filter edgeMem)).1).2
  have seeds : other.fanOutSeeds name bounds = (graph.fanOutSeeds name bounds).map onNode := by
    rw [fanOutSeeds, mirrors.enabledTargets]
    exact unseen_map mirrors.injective (fun _ none => absurd none List.not_mem_nil) targets
  have seedsIn : ∀ node ∈ graph.fanOutSeeds name bounds, graph.HasNode node :=
    fun node member => targets node (mem_unseen.mp member).1
  have closed : ∀ node, graph.HasNode node → ∀ next ∈ graph.combTargets node,
      graph.HasNode next := by
    intro node _ next nextMem
    obtain ⟨edge, edgeMem, rfl⟩ := List.mem_map.mp nextMem
    exact (linked.ends edge (List.mem_of_mem_filter (List.mem_of_mem_filter edgeMem))).2
  have queued : ∀ entry ∈ (graph.fanOutSeeds name bounds).map (fun node => (node, 0)),
      graph.HasNode entry.1 := by
    intro entry entryMem
    obtain ⟨node, nodeMem, rfl⟩ := List.mem_map.mp entryMem
    exact seedsIn node nodeMem
  have levelled := @levels_map _ _ onNode _ _ _ mirrors.injective graph.combTargets other.combTargets
    maxDepth graph.nodes.length _ _ (fun node member => mirrors.combTargets linked member) closed
    queued seedsIn
  rw [List.map_map] at levelled
  rw [NetlistGraph.getSignalCombFanOut, NetlistGraph.getSignalCombFanOut, signalCone, signalCone,
    mirrors.length_nodes, seeds, List.map_map]
  exact levelled

/-! ## The fan-in of a signal -/

theorem mem_combSources {node : NodeRef} (linked : graph.Linked) (member : graph.HasNode node)
    (image : NodeRef) :
    image ∈ other.combSources (onNode node) ↔
      ∃ before ∈ graph.combSources node, onNode before = image := by
  simp only [NetlistGraph.mem_combSources, mirrors.sameEnds.kind node member]
  constructor
  · rintro ⟨combinational, edge, edgeMem, enabled, target, rfl⟩
    obtain ⟨old, oldMem, rfl⟩ := mirrors.mem_edges.mp edgeMem
    have atNode := mirrors.injective (linked.ends old oldMem).2 member target
    exact ⟨old.source, ⟨combinational, old, oldMem, enabled, atNode, rfl⟩, rfl⟩
  · rintro ⟨before, ⟨combinational, old, oldMem, enabled, rfl, rfl⟩, rfl⟩
    exact ⟨combinational, renamedEdge onNode old, mirrors.mem_edges.mpr ⟨old, oldMem, rfl⟩,
      enabled, rfl, rfl⟩

/-- The seeds are the same up to their order. -/
theorem mem_fanInSeeds_other (linked : graph.Linked) (otherLinked : other.Linked)
    (addresses otherAddresses : Addresses) (name : String) (bounds : DriverBitRange)
    (image : NodeRef) :
    image ∈ other.fanInSeeds otherAddresses name bounds ↔
      ∃ ref ∈ graph.fanInSeeds addresses name bounds, onNode ref = image := by
  have members := @mem_drivers_other _ _ _ mirrors linked otherAddresses addresses name (some bounds)
  rw [NetlistGraph.mem_fanInSeeds otherLinked, ← mem_drivers otherLinked, members]
  simp only [NetlistGraph.mem_fanInSeeds linked, mem_drivers linked]

theorem getSignalCombFanIn (linked : graph.Linked) (otherLinked : other.Linked)
    (addresses otherAddresses : Addresses) (name : String) (bounds : DriverBitRange)
    (maxDepth : Nat) :
    Agree (other.getSignalCombFanIn otherAddresses name bounds maxDepth)
      ((graph.getSignalCombFanIn addresses name bounds maxDepth).map (List.map onNode)) := by
  obtain ⟨cone, found, nodup, _, members⟩ :=
    exists_getSignalCombFanIn linked addresses name bounds maxDepth
  obtain ⟨otherCone, otherFound, otherNodup, _, otherMembers⟩ :=
    exists_getSignalCombFanIn otherLinked otherAddresses name bounds maxDepth
  have seedsIn : ∀ node ∈ graph.fanInSeeds addresses name bounds, graph.HasNode node := by
    intro node member
    obtain ⟨edge, edgeMem, _, _, rfl⟩ := (mem_fanInSeeds linked).mp member
    exact (linked.ends edge edgeMem).1
  have closed : ∀ node, graph.HasNode node → ∀ next ∈ graph.combSources node,
      graph.HasNode next := by
    intro node _ next nextMem
    obtain ⟨_, edge, edgeMem, _, _, rfl⟩ := NetlistGraph.mem_combSources.mp nextMem
    exact (linked.ends edge edgeMem).1
  have within := @within_image _ _ onNode {ref | graph.HasNode ref} graph.combSources
    other.combSources _ (other.fanInSeeds otherAddresses name bounds) seedsIn closed
    (mirrors.mem_fanInSeeds_other linked otherLinked addresses otherAddresses name bounds)
    fun node member image => mirrors.mem_combSources linked member image
  refine ⟨otherCone, cone.map onNode, otherFound, by rw [found]; rfl, ?_⟩
  refine perm_map_of_mem mirrors.injective (fun node nodeMem => ?_) nodup otherNodup fun image => ?_
  · obtain ⟨steps, _, reported⟩ := (members node).mp nodeMem
    exact mem_of_within seedsIn closed reported
  · rw [otherMembers]
    simp only [members, within]
    constructor
    · rintro ⟨steps, few, node, reported, same⟩
      exact ⟨node, ⟨steps, few, reported⟩, same⟩
    · rintro ⟨node, ⟨steps, few, reported⟩, same⟩
      exact ⟨steps, few, node, reported, same⟩

/-! ## Sensitivity -/

theorem reaches_iff (linked : graph.Linked) {node : NodeRef} (member : graph.HasNode node)
    (image : NodeRef) :
    other.Reaches other.combEdge (onNode node) image ↔
      ∃ next, graph.Reaches graph.combEdge node next ∧ onNode next = image := by
  have otherLinked := mirrors.sameEnds.linked_other linked
  simp only [← @reachable_iff graph linked, ← @reachable_iff other otherLinked]
  exact mirrors.sameEnds.reachable_iff (mirrors.sameEnds.selects_comb linked) linked member image

theorem clocks_iff (linked : graph.Linked) {register : NodeRef} (member : graph.HasNode register)
    (image : SensitivitySource) :
    other.Clocks (onNode register) image ↔
      ∃ source, graph.Clocks register source ∧ onSource onNode source = image := by
  simp only [Clocks, inEdges, List.mem_filter, decide_eq_true_eq]
  constructor
  · rintro ⟨edge, ⟨edgeMem, target⟩, enabled, clocked, rfl⟩
    obtain ⟨old, oldMem, rfl⟩ := mirrors.mem_edges.mp edgeMem
    exact ⟨_, ⟨old, ⟨oldMem, mirrors.injective (linked.ends old oldMem).2 member target⟩, enabled,
      clocked, rfl⟩, rfl⟩
  · rintro ⟨_, ⟨old, ⟨oldMem, rfl⟩, enabled, clocked, rfl⟩, rfl⟩
    exact ⟨renamedEdge onNode old, ⟨mirrors.mem_edges.mpr ⟨old, oldMem, rfl⟩, rfl⟩, enabled,
      clocked, rfl⟩

theorem onFrontier_iff (linked : graph.Linked) {node : NodeRef} (member : graph.HasNode node)
    (image : NodeRef) :
    other.OnFrontier (onNode node) image ↔
      ∃ register, (graph.HasNode register ∧ graph.OnFrontier node register) ∧
        onNode register = image := by
  have inside : ∀ {before}, graph.Reaches graph.combEdge node before → graph.HasNode before :=
    fun reached => SameEnds.hasNode_of_reachable member
      ((@reachable_iff graph linked _ _ _).mpr reached)
  constructor
  · rintro ⟨register, before, reached, edge, edgeMem, enabled, rfl⟩
    obtain ⟨origin, leads, rfl⟩ := (mirrors.reaches_iff linked member before).mp reached
    rw [mirrors.outEdges origin (inside leads)] at edgeMem
    obtain ⟨old, oldMem, rfl⟩ := List.mem_map.mp edgeMem
    have targetMem := (linked.ends old (List.mem_of_mem_filter oldMem)).2
    exact ⟨old.target, ⟨targetMem, (mirrors.sameEnds.kind _ targetMem).symm.trans register, origin,
      leads, old, oldMem, enabled, rfl⟩, rfl⟩
  · rintro ⟨_, ⟨targetMem, register, before, reached, old, oldMem, enabled, rfl⟩, rfl⟩
    refine ⟨(mirrors.sameEnds.kind _ targetMem).trans register, onNode before,
      (mirrors.reaches_iff linked member _).mpr ⟨before, reached, rfl⟩, renamedEdge onNode old, ?_,
      enabled, rfl⟩
    rw [mirrors.outEdges before (inside reached)]
    exact List.mem_map_of_mem oldMem

omit mirrors in
theorem hasNode_of_clocks (linked : graph.Linked) {register : NodeRef}
    {source : SensitivitySource} (clocks : graph.Clocks register source) :
    graph.HasNode source.source := by
  obtain ⟨edge, edgeMem, _, _, rfl⟩ := clocks
  exact (linked.ends edge (List.mem_of_mem_filter edgeMem)).1

theorem getSensitivity (linked : graph.Linked) (otherLinked : other.Linked) {node : NodeRef}
    (member : graph.HasNode node) :
    Agree (other.getSensitivity (onNode node))
      ((graph.getSensitivity node).map (List.map (onSource onNode))) := by
  have apart : Set.InjOn (onSource onNode) {source | graph.HasNode source.source} := by
    rintro ⟨source, kind⟩ sourceMem ⟨otherSource, otherKind⟩ otherMem same
    obtain ⟨sameSource, sameKind⟩ := SensitivitySource.mk.inj same
    exact congrArg₂ SensitivitySource.mk (mirrors.injective sourceMem otherMem sameSource) sameKind
  obtain ⟨result, found, exact⟩ := getSensitivity_exact graph linked node member
  obtain ⟨otherResult, otherFound, otherExact⟩ := getSensitivity_exact other otherLinked
    (onNode node) (mirrors.sameEnds.hasNode.mpr ⟨node, member, rfl⟩)
  refine ⟨otherResult, result.map (onSource onNode), otherFound, by rw [found]; rfl, ?_⟩
  by_cases register : graph.kindOf node = .state
  · refine perm_map_of_mem apart (fun source sourceMem => hasNode_of_clocks linked
      ((exact.register register source).mp sourceMem)) exact.nodup otherExact.nodup fun image => ?_
    rw [otherExact.register ((mirrors.sameEnds.kind node member).trans register),
      mirrors.clocks_iff linked member]
    simp only [exact.register register]
  · have combinational := exact.combinational register
    refine perm_map_of_mem apart (fun source sourceMem => ?_) exact.nodup otherExact.nodup
      fun image => ?_
    · obtain ⟨_, _, clocks⟩ := (combinational source).mp sourceMem
      exact hasNode_of_clocks linked clocks
    · rw [otherExact.combinational fun state =>
        register ((mirrors.sameEnds.kind node member).symm.trans state)]
      simp only [combinational]
      constructor
      · rintro ⟨_, frontier, clocks⟩
        obtain ⟨place, ⟨placeMem, onFrontier⟩, rfl⟩ :=
          (mirrors.onFrontier_iff linked member _).mp frontier
        obtain ⟨source, clocked, same⟩ := (mirrors.clocks_iff linked placeMem image).mp clocks
        exact ⟨source, ⟨place, onFrontier, clocked⟩, same⟩
      · rintro ⟨source, ⟨place, onFrontier, clocked⟩, same⟩
        have placeMem : graph.HasNode place := by
          obtain ⟨_, _, _, edge, edgeMem, _, rfl⟩ := onFrontier
          exact (linked.ends edge (List.mem_of_mem_filter edgeMem)).2
        exact ⟨onNode place, (mirrors.onFrontier_iff linked member _).mpr
          ⟨place, ⟨placeMem, onFrontier⟩, rfl⟩,
          (mirrors.clocks_iff linked placeMem image).mpr ⟨source, clocked, same⟩⟩

end Mirrors

/-! ## All queries -/

/--
The nodes are the same at other addresses, and every query answers alike: by
name and forward in the same order, backward in some order.  The drivers of a
range have the same ranges in the same order.  If the addresses are in the same
order, so are all drivers of a range, and the path between two signals is the
same; otherwise both paths or none are found, where no path is dropped.
-/
structure AnswersAlike (graph other : NetlistGraph) (linked : graph.Linked)
    (otherLinked : other.Linked) (onNode : NodeRef → NodeRef) : Prop where
  nodes : other.nodes = graph.nodes.map (renamedNode onNode)
  coverage : ∀ node ∈ graph.nodes,
    other.getBlackBoxCoverage (renamedNode onNode node) = graph.getBlackBoxCoverage node
  scan : ∀ name, other.scan name = (graph.scan name).map onNode
  bitDrivers : ∀ addresses otherAddresses name bounds,
    (other.getBitDrivers otherAddresses name bounds).Perm
        ((graph.getBitDrivers addresses name bounds).map (onEntry onNode)) ∧
      (other.getBitDrivers otherAddresses name bounds).map Prod.fst =
        (graph.getBitDrivers addresses name bounds).map Prod.fst
  sameBitDrivers : ∀ addresses otherAddresses, graph.SameOrder onNode addresses otherAddresses →
    ∀ name bounds, other.getBitDrivers otherAddresses name bounds =
      (graph.getBitDrivers addresses name bounds).map (onEntry onNode)
  find : ∀ startNode endNode, graph.HasNode startNode → graph.HasNode endNode →
    other.find otherLinked (onNode startNode) (onNode endNode) =
      (graph.find linked startNode endNode).map (List.map onNode)
  findComb : ∀ startNode endNode, graph.HasNode startNode → graph.HasNode endNode →
    other.findComb otherLinked (onNode startNode) (onNode endNode) =
      (graph.findComb linked startNode endNode).map (List.map onNode)
  signalPath : ∀ addresses otherAddresses policy, policy ≠ .once →
    ∀ fromSignal fromRange toSignal toRange,
      (other.signalPath otherLinked otherAddresses policy fromSignal fromRange toSignal
          toRange).map (Option.map List.isEmpty) =
        (graph.signalPath linked addresses policy fromSignal fromRange toSignal toRange).map
          (Option.map List.isEmpty)
  sameSignalPath : ∀ addresses otherAddresses, graph.SameOrder onNode addresses otherAddresses →
    ∀ policy fromSignal fromRange toSignal toRange,
      other.signalPath otherLinked otherAddresses policy fromSignal fromRange toSignal toRange =
        (graph.signalPath linked addresses policy fromSignal fromRange toSignal toRange).map
          (Option.map (List.map onNode))
  loops : other.getAllLoops otherLinked =
    (graph.getAllLoops linked).map (List.map (List.map onNode))
  combFanOut : ∀ node, graph.HasNode node →
    other.getCombFanOut otherLinked (onNode node) =
      (graph.getCombFanOut linked node).map (List.map onNode)
  signalCombFanOut : ∀ name bounds maxDepth,
    other.getSignalCombFanOut name bounds maxDepth =
      (graph.getSignalCombFanOut name bounds maxDepth).map (List.map onNode)
  combFanIn : ∀ node, graph.HasNode node →
    Agree (other.getCombFanIn otherLinked (onNode node))
      ((graph.getCombFanIn linked node).map (List.map onNode))
  signalCombFanIn : ∀ addresses otherAddresses name bounds maxDepth,
    Agree (other.getSignalCombFanIn otherAddresses name bounds maxDepth)
      ((graph.getSignalCombFanIn addresses name bounds maxDepth).map (List.map onNode))
  constantDrivers : ∀ node, graph.HasNode node →
    Agree (other.getConstantDrivers otherLinked (onNode node))
      ((graph.getConstantDrivers linked node).map (List.map onNode))
  sensitivity : ∀ node, graph.HasNode node →
    Agree (other.getSensitivity (onNode node))
      ((graph.getSensitivity node).map (List.map (onSource onNode)))

/-- Graphs that differ in their addresses answer alike. -/
theorem Mirrors.answersAlike {graph other : NetlistGraph} {onNode : NodeRef → NodeRef}
    (mirrors : graph.Mirrors other onNode) (linked : graph.Linked) (otherLinked : other.Linked)
    (boxes : other.blackBoxPaths = graph.blackBoxPaths) :
    AnswersAlike graph other linked otherLinked onNode where
  nodes := mirrors.nodes
  coverage node _ := by
    rw [getBlackBoxCoverage, getBlackBoxCoverage, boxes]
    rfl
  scan := mirrors.sameEnds.scan
  bitDrivers addresses otherAddresses name bounds :=
    ⟨mirrors.getBitDrivers_perm linked addresses otherAddresses name bounds,
      mirrors.getBitDrivers_ranges linked addresses otherAddresses name bounds⟩
  sameBitDrivers _ _ := mirrors.getBitDrivers linked
  find _ _ := mirrors.find
  findComb _ _ := mirrors.findComb
  signalPath addresses otherAddresses _ := mirrors.signalPath_isEmpty addresses otherAddresses
  sameSignalPath _ _ := mirrors.signalPath
  loops := mirrors.getAllLoops
  combFanOut _ := mirrors.getCombFanOut
  signalCombFanOut := mirrors.getSignalCombFanOut linked
  combFanIn _ := mirrors.sameEnds.getCombFanIn
  signalCombFanIn := mirrors.getSignalCombFanIn linked otherLinked
  constantDrivers _ := mirrors.sameEnds.getConstantDrivers
  sensitivity _ := mirrors.getSensitivity linked otherLinked

end NetlistGraph

end SlangNetlist
