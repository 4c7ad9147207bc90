import Mathlib.Data.List.Find
import SlangNetlist.Graph.NameIndex
import SlangNetlist.Library.RenamedLists
import SlangNetlist.Query.DisabledEdges

/-!
# Queries that depend on the ends of edges

Two graphs with the same nodes under different addresses, whose enabled and
disabled edges join the same nodes, agree on what reaches what.  The number, the
order and the annotations of the edges between two nodes do not matter.
-/

namespace SlangNetlist

open Library

namespace NetlistGraph

/-- The node at its new address. -/
def renamedNode (onNode : NodeRef → NodeRef) (node : NetlistNode) : NetlistNode :=
  { node with ref := onNode node.ref }

/-- The edge joins the nodes at the new addresses, and both edges are enabled or none is. -/
structure IsImage (onNode : NodeRef → NodeRef) (old edge : NetlistEdge) : Prop where
  source : edge.source = onNode old.source
  target : edge.target = onNode old.target
  disabled : edge.disabled = old.disabled

/-- The other graph has the nodes at new addresses, and each edge has an image and is one. -/
structure SameEnds (graph other : NetlistGraph) (onNode : NodeRef → NodeRef) : Prop where
  injective : Set.InjOn onNode {ref | graph.HasNode ref}
  nodes : other.nodes = graph.nodes.map (renamedNode onNode)
  image : ∀ edge ∈ other.edges, ∃ old ∈ graph.edges, IsImage onNode old edge
  kept : ∀ old ∈ graph.edges, ∃ edge ∈ other.edges, IsImage onNode old edge

namespace SameEnds

variable {graph other : NetlistGraph} {onNode : NodeRef → NodeRef} {linked : graph.Linked}
  {otherLinked : other.Linked} (same : graph.SameEnds other onNode)

include same

/-! ## Nodes -/

theorem refs : other.nodes.map NetlistNode.ref = (graph.nodes.map NetlistNode.ref).map onNode := by
  rw [same.nodes, List.map_map, List.map_map]
  rfl

theorem hasNode {ref : NodeRef} :
    other.HasNode ref ↔ ∃ node, graph.HasNode node ∧ onNode node = ref := by
  rw [HasNode, same.refs, List.mem_map]
  rfl

/-- The node at a new address is the node at the old one. -/
theorem node? {ref : NodeRef} (member : graph.HasNode ref) :
    other.node? (onNode ref) = (graph.node? ref).map (renamedNode onNode) := by
  rw [NetlistGraph.node?, NetlistGraph.node?, same.nodes, List.find?_map]
  have found : graph.nodes.find? ((fun node => decide (node.ref = onNode ref)) ∘
      renamedNode onNode) = graph.nodes.find? fun node => decide (node.ref = ref) := by
    refine List.find?_congr fun node nodeMem => decide_eq_decide.mpr ?_
    exact ⟨fun equal => same.injective (List.mem_map_of_mem nodeMem) member equal,
      congrArg onNode⟩
  rw [found]

theorem ID : ∀ ref, graph.HasNode ref → other.nodeID (onNode ref) = graph.nodeID ref := by
  intro ref member
  rw [nodeID, nodeID, same.node? member, Option.map_map]
  rfl

theorem kind : ∀ ref, graph.HasNode ref → other.kindOf (onNode ref) = graph.kindOf ref := by
  intro ref member
  rw [kindOf, kindOf, same.node? member, Option.map_map]
  rfl

/-- A graph with other addresses is linked. -/
theorem linked_other (linked : graph.Linked) : other.Linked where
  refs := by
    rw [same.refs]
    exact linked.refs.map_on fun _ firstMem _ secondMem => same.injective firstMem secondMem
  ids := by
    rw [same.nodes, List.map_map]
    exact linked.ids
  ends edge member := by
    obtain ⟨old, oldMem, image⟩ := same.image edge member
    have ends := linked.ends old oldMem
    exact ⟨same.hasNode.mpr ⟨_, ends.1, image.source.symm⟩,
      same.hasNode.mpr ⟨_, ends.2, image.target.symm⟩⟩

/-- The nodes of a path are the same, in the same order. -/
theorem scan (name : String) : other.scan name = (graph.scan name).map onNode := by
  have named : other.namedNodes = graph.namedNodes.map fun entry => (entry.1, onNode entry.2) := by
    rw [namedNodes, namedNodes, same.nodes, List.filterMap_map, List.map_filterMap]
    refine List.filterMap_congr fun node _ => ?_
    rw [Function.comp_apply, Option.map_map]
    rfl
  rw [NetlistGraph.scan, NetlistGraph.scan, named, valuesOf, valuesOf, List.filter_map, List.map_map,
    List.map_map]
  rfl

/-! ## Edges -/

/-- A predicate on edges that sees their ends and whether they are enabled. -/
def SelectsAlike (graph : NetlistGraph) (onNode : NodeRef → NodeRef)
    (selected otherSelected : NetlistEdge → Bool) : Prop :=
  ∀ old ∈ graph.edges, ∀ edge, IsImage onNode old edge → otherSelected edge = selected old

omit same in
theorem selects_enabled : SelectsAlike graph onNode enabledEdge enabledEdge := by
  intro old _ edge image
  rw [enabledEdge, enabledEdge, image.disabled]

theorem selects_comb (linked : graph.Linked) :
    SelectsAlike graph onNode graph.combEdge other.combEdge := by
  intro old oldMem edge image
  rw [combEdge, combEdge, image.disabled, image.target, same.kind _ (linked.ends old oldMem).2]

theorem selects_backward (linked : graph.Linked) :
    SelectsAlike graph onNode graph.combFanBackward other.combFanBackward := by
  intro old oldMem edge image
  rw [combFanBackward, combFanBackward, image.disabled, image.source,
    same.kind _ (linked.ends old oldMem).1]

variable {direction : Direction} {selected otherSelected : NetlistEdge → Bool} {node : NodeRef}

/-- The edges at the image of a node lead to the images of its neighbours. -/
theorem joined_iff (selects : SelectsAlike graph onNode selected otherSelected)
    (member : graph.HasNode node) (image : NodeRef) :
    (other.directed otherLinked).Joined direction otherSelected (onNode node) image ↔
      ∃ next, (graph.directed linked).Joined direction selected node next ∧
        onNode next = image := by
  have back (ref : NodeRef) (refMem : graph.HasNode ref) : onNode ref = onNode node ↔ ref = node :=
    ⟨fun equal => same.injective refMem member equal, congrArg onNode⟩
  cases direction with
  | forward =>
      simp only [DirectedGraph.Joined, DirectedGraph.edgesOf, DirectedGraph.nextNode, directed,
        List.mem_filter]
      constructor
      · rintro ⟨edge, ⟨edgeMem, source⟩, followed, rfl⟩
        obtain ⟨old, oldMem, isImage⟩ := same.image edge edgeMem
        have atNode := isImage.source.symm.trans (of_decide_eq_true source)
        exact ⟨old.target, ⟨old, ⟨oldMem, decide_eq_true ((back _ (linked.ends old oldMem).1).mp
          atNode)⟩, (selects old oldMem edge isImage).symm.trans followed, rfl⟩,
          isImage.target.symm⟩
      · rintro ⟨_, ⟨old, ⟨oldMem, source⟩, followed, rfl⟩, rfl⟩
        obtain ⟨edge, edgeMem, isImage⟩ := same.kept old oldMem
        exact ⟨edge, ⟨edgeMem, decide_eq_true (isImage.source.trans
          (congrArg onNode (of_decide_eq_true source)))⟩,
          (selects old oldMem edge isImage).trans followed, isImage.target⟩
  | backward =>
      simp only [DirectedGraph.Joined, DirectedGraph.edgesOf, DirectedGraph.nextNode, directed,
        List.mem_filter]
      constructor
      · rintro ⟨edge, ⟨edgeMem, target⟩, followed, rfl⟩
        obtain ⟨old, oldMem, isImage⟩ := same.image edge edgeMem
        have atNode := isImage.target.symm.trans (of_decide_eq_true target)
        exact ⟨old.source, ⟨old, ⟨oldMem, decide_eq_true ((back _ (linked.ends old oldMem).2).mp
          atNode)⟩, (selects old oldMem edge isImage).symm.trans followed, rfl⟩,
          isImage.source.symm⟩
      · rintro ⟨_, ⟨old, ⟨oldMem, target⟩, followed, rfl⟩, rfl⟩
        obtain ⟨edge, edgeMem, isImage⟩ := same.kept old oldMem
        exact ⟨edge, ⟨edgeMem, decide_eq_true (isImage.target.trans
          (congrArg onNode (of_decide_eq_true target)))⟩,
          (selects old oldMem edge isImage).trans followed, isImage.source⟩

/-- What the image of a node reaches is the image of what the node reaches. -/
theorem reachable_iff (selects : SelectsAlike graph onNode selected otherSelected)
    (linked : graph.Linked) (member : graph.HasNode node) (image : NodeRef) :
    (other.directed otherLinked).Reachable direction otherSelected (onNode node) image ↔
      ∃ next, (graph.directed linked).Reachable direction selected node next ∧
        onNode next = image :=
  @reflTransGen_image _ _ onNode {ref | graph.HasNode ref} _ _ (fun _ _ _ joined => joined.mem.2)
    (fun _ member image => same.joined_iff selects member image) node member image

omit same in
theorem hasNode_of_reachable (member : graph.HasNode node) {next : NodeRef}
    (reachable : (graph.directed linked).Reachable direction selected node next) :
    graph.HasNode next :=
  DirectedGraph.Reachable.mem member reachable

theorem reachable_image_iff (selects : SelectsAlike graph onNode selected otherSelected)
    (linked : graph.Linked) (member : graph.HasNode node) {next : NodeRef}
    (nextMem : graph.HasNode next) :
    (other.directed otherLinked).Reachable direction otherSelected (onNode node) (onNode next) ↔
      (graph.directed linked).Reachable direction selected node next := by
  rw [same.reachable_iff selects linked member]
  constructor
  · rintro ⟨reached, reachable, equal⟩
    exact same.injective (hasNode_of_reachable member reachable) nextMem equal ▸ reachable
  · exact fun reachable => ⟨next, reachable, rfl⟩

/-! ## Cones -/

/-- The searches from a node and from its image collect the same nodes. -/
theorem collected (selects : SelectsAlike graph onNode selected otherSelected)
    (member : graph.HasNode node) :
    Agree ((DepthFirstSearch.traverse (other.directed otherLinked) direction CollectVisitor
        otherSelected [] (onNode node)).map DepthFirstSearch.visitor)
      (((DepthFirstSearch.traverse (graph.directed linked) direction CollectVisitor selected []
        node).map DepthFirstSearch.visitor).map (List.map onNode)) := by
  obtain ⟨nodes, found, nodup, members⟩ :=
    exists_collected (graph.directed linked) direction selected node
  obtain ⟨others, otherFound, otherNodup, otherMembers⟩ :=
    exists_collected (other.directed otherLinked) direction otherSelected (onNode node)
  refine ⟨others, nodes.map onNode, otherFound, by rw [found]; rfl, ?_⟩
  refine perm_map_of_mem same.injective
    (fun next nextMem => hasNode_of_reachable member ((members next).mp nextMem)) nodup
    otherNodup fun image => ?_
  rw [otherMembers, same.reachable_iff selects linked member]
  simp only [members]

theorem getCombFanOut (member : graph.HasNode node) :
    Agree (other.getCombFanOut otherLinked (onNode node))
      ((graph.getCombFanOut linked node).map (List.map onNode)) :=
  same.collected (same.selects_comb linked) member

theorem getCombFanIn (member : graph.HasNode node) :
    Agree (other.getCombFanIn otherLinked (onNode node))
      ((graph.getCombFanIn linked node).map (List.map onNode)) :=
  same.collected (same.selects_backward linked) member

theorem isDriven (linked : graph.Linked) (member : graph.HasNode node) :
    other.isDriven (onNode node) = graph.isDriven node := by
  rw [Bool.eq_iff_iff, NetlistGraph.isDriven, NetlistGraph.isDriven, List.any_eq_true,
    List.any_eq_true]
  simp only [decide_eq_true_eq]
  constructor
  · rintro ⟨edge, edgeMem, target⟩
    obtain ⟨old, oldMem, isImage⟩ := same.image edge edgeMem
    exact ⟨old, oldMem, same.injective (linked.ends old oldMem).2 member
      (isImage.target.symm.trans target)⟩
  · rintro ⟨old, oldMem, rfl⟩
    obtain ⟨edge, edgeMem, isImage⟩ := same.kept old oldMem
    exact ⟨edge, edgeMem, isImage.target⟩

theorem isSource_iff (linked : graph.Linked) (member : graph.HasNode node) :
    other.IsSource (onNode node) ↔ graph.IsSource node := by
  rw [IsSource, IsSource, same.kind node member, same.isDriven linked member]

/-- Some other source feeds the image exactly if some other source feeds the node. -/
theorem exists_source_iff (linked : graph.Linked) (member : graph.HasNode node) :
    (∃ port, port ≠ onNode node ∧ other.CombFanIn otherLinked (onNode node) port ∧
        other.IsSource port) ↔
      ∃ port, port ≠ node ∧ graph.CombFanIn linked node port ∧ graph.IsSource port := by
  have selects := same.selects_backward linked
  constructor
  · rintro ⟨_, apart, reached, source⟩
    obtain ⟨port, feeds, rfl⟩ := (same.reachable_iff selects linked member _).mp reached
    exact ⟨port, mt (congrArg onNode) apart, feeds,
      (same.isSource_iff linked (hasNode_of_reachable member feeds)).mp source⟩
  · rintro ⟨port, apart, feeds, source⟩
    have portMem := hasNode_of_reachable member feeds
    exact ⟨onNode port, fun equal => apart (same.injective portMem member equal),
      (same.reachable_iff selects linked member _).mpr ⟨port, feeds, rfl⟩,
      (same.isSource_iff linked portMem).mpr source⟩

theorem getConstantDrivers (member : graph.HasNode node) :
    Agree (other.getConstantDrivers otherLinked (onNode node))
      ((graph.getConstantDrivers linked node).map (List.map onNode)) := by
  obtain ⟨constants, found, nodup, members⟩ := exists_getConstantDrivers graph linked node
  obtain ⟨others, otherFound, otherNodup, otherMembers⟩ :=
    exists_getConstantDrivers other otherLinked (onNode node)
  have selects := same.selects_backward linked
  refine ⟨others, constants.map onNode, otherFound, by rw [found]; rfl, ?_⟩
  refine perm_map_of_mem same.injective (fun constant constantMem =>
    hasNode_of_reachable member ((members constant).mp constantMem).2.2.1) nodup otherNodup
    fun image => ?_
  rw [otherMembers, same.exists_source_iff linked member]
  constructor
  · rintro ⟨apart, kind, reached, absent⟩
    obtain ⟨constant, feeds, rfl⟩ := (same.reachable_iff selects linked member _).mp reached
    rw [same.kind constant (hasNode_of_reachable member feeds)] at kind
    exact ⟨constant, (members constant).mpr ⟨mt (congrArg onNode) apart, kind, feeds, absent⟩, rfl⟩
  · rintro ⟨constant, constantMem, rfl⟩
    obtain ⟨apart, kind, feeds, absent⟩ := (members constant).mp constantMem
    have inside := hasNode_of_reachable member feeds
    exact ⟨fun equal => apart (same.injective inside member equal),
      (same.kind constant inside).trans kind,
      (same.reachable_iff selects linked member _).mpr ⟨constant, feeds, rfl⟩, absent⟩

/-! ## Paths and loops -/

omit same in
/-- The finder finds a path exactly between different nodes of which one reaches the other. -/
theorem findPath_ne_nil (graph : NetlistGraph) (linked : graph.Linked)
    (selected : NetlistEdge → Bool) (startNode endNode : NodeRef) :
    ∃ path, PathFinder.findPath (graph.directed linked) selected startNode endNode = some path ∧
      (path ≠ [] ↔ startNode ≠ endNode ∧
        (graph.directed linked).Reachable .forward selected startNode endNode) := by
  rcases PathFinder.findPath_spec (graph.directed linked) selected startNode endNode with
    ⟨missed, found⟩ | ⟨differ, path, first, found⟩
  · refine ⟨[], found, fun nonempty => absurd rfl nonempty, fun ⟨differ, reachable⟩ => ?_⟩
    rcases missed with equal | unreachable
    · exact absurd equal differ
    · exact absurd reachable unreachable
  · refine ⟨path, found, fun _ => ⟨differ, DirectedGraph.reachable_of_firstPath first⟩, fun _ => ?_⟩
    rintro rfl
    cases first.head

/-- A path is found between images exactly if one is found between the nodes. -/
theorem findPath (selects : SelectsAlike graph onNode selected otherSelected)
    (linked : graph.Linked) (otherLinked : other.Linked) {startNode endNode : NodeRef}
    (startMem : graph.HasNode startNode) (endMem : graph.HasNode endNode) :
    ∃ path otherPath,
      PathFinder.findPath (graph.directed linked) selected startNode endNode = some path ∧
      PathFinder.findPath (other.directed otherLinked) otherSelected (onNode startNode)
        (onNode endNode) = some otherPath ∧
      (otherPath ≠ [] ↔ path ≠ []) := by
  obtain ⟨path, found, exact⟩ := findPath_ne_nil graph linked selected startNode endNode
  obtain ⟨otherPath, otherFound, otherExact⟩ :=
    findPath_ne_nil other otherLinked otherSelected (onNode startNode) (onNode endNode)
  refine ⟨path, otherPath, found, otherFound, ?_⟩
  rw [exact, otherExact, same.reachable_image_iff selects linked startMem endMem]
  exact and_congr_left fun _ => not_congr
    ⟨fun equal => same.injective startMem endMem equal, congrArg onNode⟩

omit same in
/-- A node is on a reported loop exactly if it leads back to itself. -/
theorem exists_loop_iff (graph : NetlistGraph) (linked : graph.Linked) :
    ∃ loops, graph.getAllLoops linked = some loops ∧
      ∀ node, (∃ loop ∈ loops, node ∈ loop) ↔
        Relation.TransGen ((graph.directed linked).Joined .forward graph.combEdge) node node := by
  obtain ⟨loops, found, exact⟩ := CycleDetector.exists_detectCycles (graph.directed linked)
    graph.combEdge graph.nodeID (nodeID_injective linked)
  refine ⟨loops, found, fun node => (exact.covered node).trans ⟨?_, fun returns => ?_⟩⟩
  · rintro ⟨cycle, isCycle, member⟩
    exact isCycle.returns member
  · obtain ⟨search, _, reported, closed⟩ := CycleDetector.traverse_cycles (graph.directed linked)
      graph.combEdge graph.nodeID node
    obtain ⟨cycle, cycleMem, member⟩ := closed returns
    exact ⟨cycle, (reported cycle cycleMem).1, member⟩

theorem returns_iff (selects : SelectsAlike graph onNode selected otherSelected)
    (linked : graph.Linked) (member : graph.HasNode node) :
    Relation.TransGen ((other.directed otherLinked).Joined .forward otherSelected) (onNode node)
        (onNode node) ↔
      Relation.TransGen ((graph.directed linked).Joined .forward selected) node node := by
  rw [Relation.TransGen.head'_iff, Relation.TransGen.head'_iff]
  constructor
  · rintro ⟨_, joined, back⟩
    obtain ⟨next, step, rfl⟩ := (same.joined_iff selects member _).mp joined
    exact ⟨next, step, (same.reachable_image_iff selects linked step.mem.2 member).mp back⟩
  · rintro ⟨next, step, back⟩
    exact ⟨onNode next, (same.joined_iff selects member _).mpr ⟨next, step, rfl⟩,
      (same.reachable_image_iff selects linked step.mem.2 member).mpr back⟩

theorem getAllLoops (linked : graph.Linked) (otherLinked : other.Linked) :
    ∃ loops otherLoops, graph.getAllLoops linked = some loops ∧
      other.getAllLoops otherLinked = some otherLoops ∧
      ∀ node, graph.HasNode node →
        ((∃ loop ∈ otherLoops, onNode node ∈ loop) ↔ ∃ loop ∈ loops, node ∈ loop) := by
  obtain ⟨loops, found, exact⟩ := exists_loop_iff graph linked
  obtain ⟨otherLoops, otherFound, otherExact⟩ := exists_loop_iff other otherLinked
  refine ⟨loops, otherLoops, found, otherFound, fun node member => ?_⟩
  rw [exact, otherExact, same.returns_iff (same.selects_comb linked) linked member]

end SameEnds

/-! ## All queries about what reaches what -/

/-- The graphs have the same nodes at different addresses and agree on what reaches what. -/
structure ReachesAlike (graph other : NetlistGraph) (linked : graph.Linked)
    (otherLinked : other.Linked) (onNode : NodeRef → NodeRef) : Prop where
  nodes : other.nodes = graph.nodes.map (renamedNode onNode)
  find : ∀ startNode endNode, graph.HasNode startNode → graph.HasNode endNode →
    ∃ path otherPath, graph.find linked startNode endNode = some path ∧
      other.find otherLinked (onNode startNode) (onNode endNode) = some otherPath ∧
      (otherPath ≠ [] ↔ path ≠ [])
  findComb : ∀ startNode endNode, graph.HasNode startNode → graph.HasNode endNode →
    ∃ path otherPath, graph.findComb linked startNode endNode = some path ∧
      other.findComb otherLinked (onNode startNode) (onNode endNode) = some otherPath ∧
      (otherPath ≠ [] ↔ path ≠ [])
  loops : ∃ loops otherLoops, graph.getAllLoops linked = some loops ∧
    other.getAllLoops otherLinked = some otherLoops ∧
    ∀ node, graph.HasNode node →
      ((∃ loop ∈ otherLoops, onNode node ∈ loop) ↔ ∃ loop ∈ loops, node ∈ loop)
  combFanOut : ∀ node, graph.HasNode node →
    Agree (other.getCombFanOut otherLinked (onNode node))
      ((graph.getCombFanOut linked node).map (List.map onNode))
  combFanIn : ∀ node, graph.HasNode node →
    Agree (other.getCombFanIn otherLinked (onNode node))
      ((graph.getCombFanIn linked node).map (List.map onNode))
  constantDrivers : ∀ node, graph.HasNode node →
    Agree (other.getConstantDrivers otherLinked (onNode node))
      ((graph.getConstantDrivers linked node).map (List.map onNode))

/-- Graphs whose edges have the same ends agree on what reaches what. -/
theorem SameEnds.reachesAlike {graph other : NetlistGraph} {onNode : NodeRef → NodeRef}
    (same : graph.SameEnds other onNode) (linked : graph.Linked) (otherLinked : other.Linked) :
    ReachesAlike graph other linked otherLinked onNode where
  nodes := same.nodes
  find _ _ := same.findPath selects_enabled linked otherLinked
  findComb _ _ := same.findPath (same.selects_comb linked) linked otherLinked
  loops := same.getAllLoops linked otherLinked
  combFanOut _ := same.getCombFanOut
  combFanIn _ := same.getCombFanIn
  constantDrivers _ := same.getConstantDrivers

end NetlistGraph

end SlangNetlist
