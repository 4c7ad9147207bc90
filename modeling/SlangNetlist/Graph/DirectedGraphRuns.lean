import Mathlib.Data.List.Nodup
import Mathlib.Data.Option.Basic
import SlangNetlist.Graph.DirectedGraph
import SlangNetlist.Library.FirstMatch
import SlangNetlist.Library.GuardedRun

/-!
# Runs of the adjacency lists

The lists of all nodes represent one list of edges, in the order in which the
edges were added.  Every operation acts on that list, so that the out-edges, the
in-edges and the indices stay mirrors of each other in every run.
-/

namespace SlangNetlist

namespace Adjacency

open Library

variable {Ref : Type} [DecidableEq Ref]

/-- The edge leads from the source to the target. -/
def DirectedEdge.joins (sourceNode targetNode : Ref) (edge : DirectedEdge Ref) : Bool :=
  edge.sourceNode = sourceNode && edge.targetNode = targetNode

/-! ## The index of a node -/

namespace Node

/-- The index, if there is one, maps each target to the first edge to it, and nothing else. -/
def Indexed (node : Node Ref) : Prop :=
  ∀ index, node.outEdgeIndex = some index →
    ∀ targetNode, index targetNode = node.findEdgeTo targetNode

variable {node : Node Ref}

theorem Indexed.lookupOutEdge (indexed : node.Indexed) (targetNode : Ref) :
    node.lookupOutEdge targetNode = node.findEdgeTo targetNode := by
  unfold Node.lookupOutEdge
  split
  · next index found => exact indexed index found targetNode
  · rfl

theorem tryEmplace_apply (index : OutEdgeIndex Ref) (targetNode other : Ref)
    (edge : DirectedEdge Ref) :
    index.tryEmplace targetNode edge other =
      (index other).or (if other = targetNode then some edge else none) := by
  unfold OutEdgeIndex.tryEmplace
  by_cases same : other = targetNode
  · subst same
    cases found : index other <;> simp [found]
  · cases index targetNode <;> simp [same]

theorem foldl_tryEmplace (edges : List (DirectedEdge Ref)) (index : OutEdgeIndex Ref)
    (targetNode : Ref) :
    edges.foldl (fun index edge => index.tryEmplace edge.targetNode edge) index targetNode =
      (index targetNode).or (edges.find? fun edge => edge.targetNode = targetNode) := by
  induction edges generalizing index with
  | nil => simp
  | cons edge rest ih =>
      rw [List.foldl_cons, ih, tryEmplace_apply, Option.or_assoc, List.find?_cons]
      by_cases same : edge.targetNode = targetNode
      · simp [same]
      · simp [same, Ne.symm same]

theorem indexed_buildOutEdgeIndex (node : Node Ref) : node.buildOutEdgeIndex.Indexed := by
  rintro _ ⟨⟩ targetNode
  rw [foldl_tryEmplace]
  rfl

/-- Appending an edge and entering it into the index. -/
theorem Indexed.insert (indexed : node.Indexed) (edge : DirectedEdge Ref) :
    ({ node with outEdges := node.outEdges ++ [edge] }.insertOutEdgeIndex edge.targetNode
      edge).Indexed := by
  unfold insertOutEdgeIndex
  split
  · next index found =>
      rintro _ ⟨⟩ targetNode
      rw [tryEmplace_apply, indexed index found, findEdgeTo, findEdgeTo, List.find?_append]
      by_cases same : edge.targetNode = targetNode
      · simp [same]
      · simp [same, Ne.symm same]
  · next missing =>
      split
      · exact indexed_buildOutEdgeIndex _
      · intro index found
        cases missing.symm.trans found

@[simp] theorem outEdges_insertOutEdgeIndex (node : Node Ref) (targetNode : Ref)
    (edge : DirectedEdge Ref) :
    (node.insertOutEdgeIndex targetNode edge).outEdges = node.outEdges := by
  unfold insertOutEdgeIndex
  split
  · rfl
  · split <;> rfl

@[simp] theorem inEdges_insertOutEdgeIndex (node : Node Ref) (targetNode : Ref)
    (edge : DirectedEdge Ref) :
    (node.insertOutEdgeIndex targetNode edge).inEdges = node.inEdges := by
  unfold insertOutEdgeIndex
  split
  · rfl
  · split <;> rfl

@[simp] theorem outEdges_repointOutEdgeIndex (node : Node Ref) (targetNode : Ref) :
    (node.repointOutEdgeIndex targetNode).outEdges = node.outEdges := by
  unfold repointOutEdgeIndex
  split <;> rfl

@[simp] theorem inEdges_repointOutEdgeIndex (node : Node Ref) (targetNode : Ref) :
    (node.repointOutEdgeIndex targetNode).inEdges = node.inEdges := by
  unfold repointOutEdgeIndex
  split <;> rfl

/-- Removing the first edge to a target changes the entry of that target only. -/
theorem Indexed.repoint (indexed : node.Indexed) (targetNode : Ref) :
    ({ node with outEdges := node.outEdges.eraseP fun edge => edge.targetNode = targetNode
      }.repointOutEdgeIndex targetNode).Indexed := by
  unfold repointOutEdgeIndex
  split
  · next index found =>
      rintro _ ⟨⟩ other
      unfold OutEdgeIndex.assign
      split
      · next same => rw [same]; rfl
      · next differ =>
          rw [indexed index found]
          have kept := @filter_eraseP_of_disjoint (DirectedEdge Ref)
            (fun edge => edge.targetNode = targetNode) (fun edge => edge.targetNode = other) (by
              simp only [decide_eq_true_eq]
              rintro edge rfl same
              exact differ same.symm) node.outEdges
          simp only [findEdgeTo, ← List.head?_filter, kept]
  · next missing =>
      intro index found
      cases missing.symm.trans found

/-- Removing an in-edge leaves the rest of the node alone. -/
theorem removeInEdge_cases (node : Node Ref) (sourceNode : Ref) :
    node.removeInEdge sourceNode =
      ((node.findEdgeFrom sourceNode).isSome, { node with
        inEdges := node.inEdges.eraseP fun edge => edge.sourceNode = sourceNode }) := by
  unfold removeInEdge
  cases found : node.findEdgeFrom sourceNode with
  | some edge => rfl
  | none =>
      have missing : node.inEdges.eraseP (fun edge => edge.sourceNode = sourceNode) =
          node.inEdges := List.eraseP_of_forall_not (by simpa [findEdgeFrom] using found)
      rw [missing]
      rfl

end Node

/-! ## The edges that the lists represent -/

namespace DirectedGraph

@[simp] theorem nodes_modify (graph : DirectedGraph Ref) (ref : Ref)
    (change : Node Ref → Node Ref) : (graph.modify ref change).nodes = graph.nodes :=
  rfl

/-- What a change of one node does to a field of any node. -/
theorem field_modify {Field : Type} (field : Node Ref → Field) (graph : DirectedGraph Ref)
    (ref other : Ref) (change : Node Ref → Node Ref) :
    field ((graph.modify ref change).node other) =
      if other = ref then field (change (graph.node other)) else field (graph.node other) :=
  apply_ite field _ _ _

/-- A field that the change keeps. -/
theorem field_modify_of_kept {Field : Type} (field : Node Ref → Field) (graph : DirectedGraph Ref)
    (ref other : Ref) {change : Node Ref → Node Ref}
    (kept : field (change (graph.node ref)) = field (graph.node ref)) :
    field ((graph.modify ref change).node other) = field (graph.node other) := by
  rw [field_modify field]
  split
  · next same => rw [same, kept]
  · rfl

/-- The out-edges and the in-edges of all nodes are parts of one list of edges. -/
structure Represents (graph : DirectedGraph Ref) (edges : List (DirectedEdge Ref)) : Prop where
  nodup : graph.nodes.Nodup
  ends : ∀ edge ∈ edges, edge.sourceNode ∈ graph.nodes ∧ edge.targetNode ∈ graph.nodes
  addresses : (edges.map DirectedEdge.address).Nodup
  outEdges : ∀ ref, (graph.node ref).outEdges = edges.filter fun edge => edge.sourceNode = ref
  inEdges : ∀ ref, (graph.node ref).inEdges = edges.filter fun edge => edge.targetNode = ref
  indexed : ∀ ref, (graph.node ref).Indexed

theorem represents_empty : ({} : DirectedGraph Ref).Represents [] := by
  constructor <;> simp [Node.Indexed]

variable {graph next : DirectedGraph Ref} {edges : List (DirectedEdge Ref)}

/-- The first edge between two nodes, as either of them sees it. -/
theorem Represents.findEdgeTo (represents : graph.Represents edges) (sourceNode targetNode : Ref) :
    (graph.node sourceNode).findEdgeTo targetNode =
      edges.find? (DirectedEdge.joins sourceNode targetNode) := by
  rw [Node.findEdgeTo, represents.outEdges, List.find?_filter]
  congr 1
  funext edge
  simp [DirectedEdge.joins]

theorem Represents.findEdgeFrom (represents : graph.Represents edges)
    (sourceNode targetNode : Ref) :
    (graph.node targetNode).findEdgeFrom sourceNode =
      edges.find? (DirectedEdge.joins sourceNode targetNode) := by
  rw [Node.findEdgeFrom, represents.inEdges, List.find?_filter]
  congr 1
  funext edge
  simp [DirectedEdge.joins, Bool.and_comm]

/-- A node that is not in the graph has no edges. -/
theorem Represents.filter_eq_nil (represents : graph.Represents edges) {ref : Ref}
    (fresh : ref ∉ graph.nodes) :
    (edges.filter fun edge => edge.sourceNode = ref) = [] ∧
      (edges.filter fun edge => edge.targetNode = ref) = [] := by
  simp only [List.filter_eq_nil_iff, decide_eq_true_eq]
  refine ⟨?_, ?_⟩
  · rintro edge member rfl
    exact fresh (represents.ends edge member).1
  · rintro edge member rfl
    exact fresh (represents.ends edge member).2

/-- A node without edges is written or freed. -/
theorem Represents.reset (represents : graph.Represents edges) {ref : Ref}
    (noOut : (edges.filter fun edge => edge.sourceNode = ref) = [])
    (noIn : (edges.filter fun edge => edge.targetNode = ref) = []) :
    (graph.modify ref fun _ => {}).Represents edges := by
  refine ⟨represents.nodup, represents.ends, represents.addresses, fun other => ?_, fun other => ?_,
    fun other => ?_⟩
  · rw [field_modify Node.outEdges]
    split
    · next same => rw [same, noOut]
    · exact represents.outEdges other
  · rw [field_modify Node.inEdges]
    split
    · next same => rw [same, noIn]
    · exact represents.inEdges other
  · rw [field_modify Node.Indexed]
    split
    · exact fun _ found => by cases found
    · exact represents.indexed other

/-- The list of nodes changes, and keeps the ends of the edges. -/
theorem Represents.withNodes (represents : graph.Represents edges) {nodes : List Ref}
    (nodup : nodes.Nodup)
    (ends : ∀ edge ∈ edges, edge.sourceNode ∈ nodes ∧ edge.targetNode ∈ nodes) :
    ({ graph with nodes := nodes } : DirectedGraph Ref).Represents edges :=
  ⟨nodup, ends, represents.addresses, represents.outEdges, represents.inEdges, represents.indexed⟩

theorem Represents.addNode (represents : graph.Represents edges) {ref : Ref}
    (fresh : ref ∉ graph.nodes) : (graph.addNode ref).Represents edges := by
  obtain ⟨noOut, noIn⟩ := represents.filter_eq_nil fresh
  have apart : ∀ other ∈ graph.nodes, other ≠ ref := fun other member same => fresh (same ▸ member)
  refine (represents.reset noOut noIn).withNodes ?_ fun edge member => ?_
  · exact List.nodup_append.mpr ⟨represents.nodup, by simp, by simpa using apart⟩
  · have ends := represents.ends edge member
    exact ⟨List.mem_append_left _ ends.1, List.mem_append_left _ ends.2⟩

/-- Append an edge to the two lists and to the index. -/
def append (graph : DirectedGraph Ref) (edge : DirectedEdge Ref) : DirectedGraph Ref :=
  (graph.modify edge.sourceNode fun node =>
    { node with outEdges := node.outEdges ++ [edge] }.insertOutEdgeIndex edge.targetNode
      edge).modify edge.targetNode fun node => { node with inEdges := node.inEdges ++ [edge] }

theorem Represents.append (represents : graph.Represents edges) {edge : DirectedEdge Ref}
    (source : edge.sourceNode ∈ graph.nodes) (target : edge.targetNode ∈ graph.nodes)
    (unused : graph.Unused edge.address) : (graph.append edge).Represents (edges ++ [edge]) := by
  refine ⟨represents.nodup, ?_, ?_, fun ref => ?_, fun ref => ?_, fun ref => ?_⟩
  · intro other member
    rcases List.mem_append.mp member with old | new
    · exact represents.ends other old
    · obtain rfl := List.mem_singleton.mp new
      exact ⟨source, target⟩
  · rw [List.map_append, List.nodup_append]
    refine ⟨represents.addresses, by simp, ?_⟩
    rintro address member _ single rfl
    obtain ⟨other, otherMem, rfl⟩ := List.mem_map.mp member
    have listed : other ∈ (graph.node other.sourceNode).outEdges := by
      rw [represents.outEdges]
      simpa using otherMem
    exact unused _ (represents.ends other otherMem).1 other listed (by simpa using single)
  · refine (field_modify_of_kept Node.outEdges _ _ _ ?_).trans ?_
    · rfl
    · rw [field_modify Node.outEdges, Node.outEdges_insertOutEdgeIndex, represents.outEdges,
        List.filter_append]
      by_cases same : ref = edge.sourceNode
      · simp [same]
      · simp [same, Ne.symm same]
  · rw [DirectedGraph.append, field_modify Node.inEdges, field_modify_of_kept Node.inEdges,
      represents.inEdges, List.filter_append]
    · by_cases same : ref = edge.targetNode
      · simp [same]
      · simp [same, Ne.symm same]
    · exact Node.inEdges_insertOutEdgeIndex _ _ _
  · refine (field_modify_of_kept Node.Indexed _ _ _ ?_).mpr ?_
    · rfl
    · rw [field_modify Node.Indexed]
      split
      · exact (represents.indexed ref).insert edge
      · exact represents.indexed ref

/-- `Node::addEdge` is the linear scan: the first edge to the target, or a new one. -/
theorem Represents.nodeAddEdge (represents : graph.Represents edges) (sourceNode targetNode : Ref)
    (address : Nat) :
    graph.nodeAddEdge sourceNode targetNode address =
      match edges.find? (DirectedEdge.joins sourceNode targetNode) with
      | some existing => (existing, graph)
      | none => (⟨address, sourceNode, targetNode⟩, graph.append ⟨address, sourceNode, targetNode⟩) := by
  unfold DirectedGraph.nodeAddEdge
  rw [(represents.indexed sourceNode).lookupOutEdge, represents.findEdgeTo]
  rfl

theorem nodeAddNewEdge_eq (graph : DirectedGraph Ref) (sourceNode targetNode : Ref)
    (address : Nat) :
    graph.nodeAddNewEdge sourceNode targetNode address =
      (⟨address, sourceNode, targetNode⟩, graph.append ⟨address, sourceNode, targetNode⟩) :=
  rfl

/-- Removing an edge removes the first one between the two nodes, and the assertion holds. -/
theorem Represents.nodeRemoveEdge (represents : graph.Represents edges)
    (sourceNode targetNode : Ref) :
    ∃ success next, graph.nodeRemoveEdge sourceNode targetNode = some (success, next) ∧
      next.nodes = graph.nodes ∧
      next.Represents (edges.eraseP (DirectedEdge.joins sourceNode targetNode)) := by
  unfold DirectedGraph.nodeRemoveEdge
  rw [represents.findEdgeTo, Node.removeInEdge_cases, represents.findEdgeFrom]
  cases found : edges.find? (DirectedEdge.joins sourceNode targetNode) with
  | none =>
      have missing := List.eraseP_of_forall_not (by simpa using found)
      exact ⟨false, graph, rfl, rfl, missing.symm ▸ represents⟩
  | some edge =>
      refine ⟨true, _, rfl, rfl, represents.nodup, ?_, ?_, fun ref => ?_, fun ref => ?_, fun ref => ?_⟩
      · exact fun other member => represents.ends other (List.mem_of_mem_eraseP member)
      · exact represents.addresses.sublist ((List.eraseP_sublist).map _)
      · refine (field_modify Node.outEdges _ _ _ _).trans ?_
        simp only [Node.outEdges_repointOutEdgeIndex]
        rw [field_modify_of_kept Node.outEdges graph targetNode ref rfl, represents.outEdges]
        split
        · next same =>
            subst same
            rw [List.eraseP_filter]
            simp only [Bool.and_comm]
            rfl
        · next differ =>
            refine (filter_eraseP_of_disjoint (fun other joins => ?_) edges).symm
            simp only [DirectedEdge.joins, Bool.and_eq_true, decide_eq_true_eq] at joins ⊢
            exact fun same => differ (same.symm.trans joins.1)
      · refine (field_modify_of_kept Node.inEdges _ _ _ ?_).trans ?_
        · exact Node.inEdges_repointOutEdgeIndex _ _
        · rw [field_modify Node.inEdges, represents.inEdges, represents.inEdges]
          split
          · next same =>
              subst same
              exact List.eraseP_filter
          · next differ =>
              refine (filter_eraseP_of_disjoint (fun other joins => ?_) edges).symm
              simp only [DirectedEdge.joins, Bool.and_eq_true, decide_eq_true_eq] at joins ⊢
              exact fun same => differ (same.symm.trans joins.2)
      · refine (field_modify Node.Indexed _ _ _ _).mpr ?_
        split
        · refine Node.Indexed.repoint
            ((field_modify_of_kept Node.Indexed _ _ _ ?_).mpr (represents.indexed ref)) targetNode
          rfl
        · refine (field_modify_of_kept Node.Indexed _ _ _ ?_).mpr (represents.indexed ref)
          rfl

/-! ## Clearing a node -/

/--
The first loop of `clearAllEdges` has come to the out-edges `ahead`: the edges
behind it are gone from the in-edges only.
-/
structure Clearing (graph : DirectedGraph Ref) (ref : Ref) (ahead edges : List (DirectedEdge Ref))
    (current : DirectedGraph Ref) : Prop where
  nodes : current.nodes = graph.nodes
  outEdges : ∀ other, (current.node other).outEdges = (graph.node other).outEdges
  outEdgeIndex : ∀ other, (current.node other).outEdgeIndex = (graph.node other).outEdgeIndex
  inEdges : ∀ other, (current.node other).inEdges =
    edges.filter fun edge => edge.targetNode = other
  ahead : ahead = edges.filter fun edge => edge.sourceNode = ref

/-- One pass of the first loop takes the next out-edge from the in-edges of its target. -/
theorem Clearing.step {current : DirectedGraph Ref} {ref : Ref} {edge : DirectedEdge Ref}
    {rest : List (DirectedEdge Ref)} (clearing : Clearing graph ref (edge :: rest) edges current) :
    Clearing graph ref rest (edges.eraseP fun edge => edge.sourceNode = ref)
      (current.modify edge.targetNode fun node => (node.removeInEdge ref).2) := by
  obtain ⟨nodes, outEdges, outEdgeIndex, inEdges, ahead⟩ := clearing
  have source : edge.sourceNode = ref := by
    have member : edge ∈ edges.filter fun edge => edge.sourceNode = ref :=
      ahead ▸ List.mem_cons_self
    simpa using (List.mem_filter.mp member).2
  have first : edges.eraseP (DirectedEdge.joins ref edge.targetNode) =
      edges.eraseP fun edge => edge.sourceNode = ref :=
    eraseP_congr_of_filter (by simp +contextual [DirectedEdge.joins]) ahead.symm
      (by simp [DirectedEdge.joins, source])
  refine ⟨nodes, fun other => ?_, fun other => ?_, fun other => ?_, ?_⟩
  · refine (field_modify_of_kept Node.outEdges _ _ _ ?_).trans (outEdges other)
    rw [Node.removeInEdge_cases]
  · refine (field_modify_of_kept Node.outEdgeIndex _ _ _ ?_).trans (outEdgeIndex other)
    rw [Node.removeInEdge_cases]
  · rw [field_modify Node.inEdges, Node.removeInEdge_cases, inEdges, ← first]
    split
    · next same =>
        subst same
        exact List.eraseP_filter
    · next differ =>
        refine (filter_eraseP_of_disjoint (fun other joins => ?_) edges).symm
        simp only [DirectedEdge.joins, Bool.and_eq_true, decide_eq_true_eq] at joins ⊢
        exact fun same => differ (same.symm.trans joins.2)
  · exact (filter_eraseP_of_filter_eq ahead.symm).symm

/-- The first loop of `clearAllEdges`. -/
theorem Clearing.run {current : DirectedGraph Ref} {ref : Ref} {ahead : List (DirectedEdge Ref)}
    (clearing : Clearing graph ref ahead edges current) :
    Clearing graph ref [] (edges.filter fun edge => edge.sourceNode ≠ ref)
      (ahead.foldl (fun current edge =>
        current.modify edge.targetNode fun node => (node.removeInEdge ref).2) current) := by
  induction ahead generalizing edges current with
  | nil =>
      have none : edges.filter (fun edge => edge.sourceNode ≠ ref) = edges := by
        have missing := List.filter_eq_nil_iff.mp clearing.ahead.symm
        exact List.filter_eq_self.mpr (by simpa using missing)
      rw [none]
      exact clearing
  | cons edge rest ih =>
      have stepped := ih clearing.step
      rwa [filter_eraseP_of_disjoint (by simp)] at stepped

/-- Forgetting the out-edges of the node after the first loop. -/
theorem Clearing.represents {current : DirectedGraph Ref} {ref : Ref}
    (represents : graph.Represents edges)
    (clearing : Clearing graph ref [] (edges.filter fun edge => edge.sourceNode ≠ ref) current) :
    (current.modify ref fun node =>
      { node with outEdges := [], outEdgeIndex := none }).Represents
        (edges.filter fun edge => edge.sourceNode ≠ ref) := by
  refine ⟨?_, ?_, ?_, fun other => ?_, fun other => ?_, fun other => ?_⟩
  · rw [nodes_modify, clearing.nodes]
    exact represents.nodup
  · rw [nodes_modify, clearing.nodes]
    exact fun edge member => represents.ends edge (List.mem_of_mem_filter member)
  · exact represents.addresses.sublist (List.filter_sublist.map _)
  · rw [field_modify Node.outEdges]
    split
    · next same => rw [same]; exact clearing.ahead
    · next differ =>
        rw [clearing.outEdges, represents.outEdges, List.filter_filter]
        refine List.filter_congr fun edge _ => ?_
        by_cases same : edge.sourceNode = other
        · simp [same, differ]
        · simp [same]
  · refine (field_modify_of_kept Node.inEdges _ _ _ ?_).trans (clearing.inEdges other)
    rfl
  · rw [field_modify Node.Indexed]
    split
    · exact fun _ found => by cases found
    · intro index found targetNode
      rw [clearing.outEdgeIndex] at found
      rw [represents.indexed other index found, Node.findEdgeTo, Node.findEdgeTo, clearing.outEdges]

/-- The second loop of `clearAllEdges` removes the edges from the sources listed. -/
theorem Represents.removeSources (represents : graph.Represents edges) {ref : Ref}
    {sources : List Ref}
    (listed : (edges.filter fun edge => edge.targetNode = ref).map DirectedEdge.sourceNode =
      sources) :
    ∃ next, sources.foldlM (fun graph sourceNode =>
        (graph.nodeRemoveEdge sourceNode ref).map Prod.snd) graph = some next ∧
      next.nodes = graph.nodes ∧
      next.Represents (edges.filter fun edge => edge.targetNode ≠ ref) := by
  induction sources generalizing graph edges with
  | nil =>
      have missing := List.filter_eq_nil_iff.mp (List.map_eq_nil_iff.mp listed)
      have all : edges.filter (fun edge => edge.targetNode ≠ ref) = edges :=
        List.filter_eq_self.mpr (by simpa using missing)
      exact ⟨graph, rfl, rfl, all.symm ▸ represents⟩
  | cons source rest ih =>
      obtain ⟨edge, others, split, rfl, listedRest⟩ := List.map_eq_cons_iff.mp listed
      have first : edges.eraseP (DirectedEdge.joins edge.sourceNode ref) =
          edges.eraseP fun edge => edge.targetNode = ref := by
        refine eraseP_congr_of_filter (by simp +contextual [DirectedEdge.joins]) split ?_
        have member : edge ∈ edges.filter fun edge => edge.targetNode = ref :=
          split ▸ List.mem_cons_self
        simpa [DirectedEdge.joins] using (List.mem_filter.mp member).2
      obtain ⟨success, middle, removed, nodes, middleRepresents⟩ :=
        represents.nodeRemoveEdge edge.sourceNode ref
      rw [first] at middleRepresents
      obtain ⟨next, folded, nextNodes, nextRepresents⟩ := ih middleRepresents
        ((congrArg _ (filter_eraseP_of_filter_eq split)).trans listedRest)
      refine ⟨next, ?_, nextNodes.trans nodes, ?_⟩
      · rw [List.foldlM_cons, removed]
        exact folded
      · rwa [filter_eraseP_of_disjoint (by simp)] at nextRepresents

/-- Clearing a node removes the edges from it and to it, and the assertions hold. -/
theorem Represents.clearAllEdges (represents : graph.Represents edges) (ref : Ref) :
    ∃ next, graph.clearAllEdges ref = some next ∧ next.nodes = graph.nodes ∧
      next.Represents (edges.filter fun edge => edge.targetNode ≠ ref ∧ edge.sourceNode ≠ ref) := by
  have start : Clearing graph ref (graph.node ref).outEdges edges graph :=
    ⟨rfl, fun _ => rfl, fun _ => rfl, represents.inEdges, represents.outEdges ref⟩
  have cleared := start.run
  have middle := Clearing.represents represents cleared
  obtain ⟨next, folded, nodes, nextRepresents⟩ := middle.removeSources
    (congrArg _ (middle.inEdges ref).symm)
  rw [List.filter_filter] at nextRepresents
  have empty : (next.node ref).inEdges = [] := by
    rw [nextRepresents.inEdges, List.filter_filter, List.filter_eq_nil_iff]
    simp +contextual
  refine ⟨next, ?_, nodes.trans cleared.nodes, by simpa using nextRepresents⟩
  unfold DirectedGraph.clearAllEdges
  simp only [folded, Option.bind_eq_bind, Option.bind_some, empty, if_true]

theorem Represents.removeNode (represents : graph.Represents edges) {ref : Ref}
    (present : ref ∈ graph.nodes) :
    ∃ removed next, graph.removeNode ref = some (removed, next) ∧ next.Represents
      (edges.filter fun edge => edge.targetNode ≠ ref ∧ edge.sourceNode ≠ ref) := by
  obtain ⟨next, cleared, nodes, nextRepresents⟩ := represents.clearAllEdges ref
  have erased : graph.nodes.erase ref = graph.nodes.eraseP fun other => other = ref := by
    rw [List.erase_eq_eraseP]
    simp only [beq_eq_decide, eq_comm]
  cases found : graph.findNode ref with
  | none =>
      have missing := List.findIdx?_eq_none_iff.mp found ref present
      simp at missing
  | some nodeToRemoveDesc =>
      have left : next.nodes.eraseIdx nodeToRemoveDesc = graph.nodes.erase ref := by
        rw [DirectedGraph.findNode] at found
        rw [erased, List.eraseP_eq_eraseIdx, found, nodes]
      refine ⟨true, { next.modify ref fun _ => {} with
        nodes := next.nodes.eraseIdx nodeToRemoveDesc }, ?_, ?_⟩
      · simp [DirectedGraph.removeNode, found, cleared]
      refine (nextRepresents.reset ?_ ?_).withNodes ?_ ?_
      · simp +contextual [List.filter_filter, List.filter_eq_nil_iff]
      · simp +contextual [List.filter_filter, List.filter_eq_nil_iff]
      · rw [left]
        exact represents.nodup.erase ref
      · rw [left]
        intro edge member
        have ends := represents.ends edge (List.mem_of_mem_filter member)
        have differ := (List.mem_filter.mp member).2
        simp only [ne_eq, decide_eq_true_eq] at differ
        exact ⟨(List.mem_erase_of_ne differ.2).mpr ends.1,
          (List.mem_erase_of_ne differ.1).mpr ends.2⟩

/-! ## Runs -/

theorem isSome_findNode {ref : Ref} : (graph.findNode ref).isSome = true ↔ ref ∈ graph.nodes := by
  simp [findNode, List.findIdx?_isSome]

/-- Every accepted operation succeeds, and the lists represent edges after it. -/
theorem Represents.operate (represents : graph.Represents edges) {operation : Operation Ref}
    (accepted : graph.Accepts operation) :
    ∃ next, graph.operate operation = some next ∧ ∃ after, next.Represents after := by
  cases operation with
  | addNode ref => exact ⟨_, rfl, edges, represents.addNode accepted⟩
  | addEdge sourceNode targetNode address =>
      obtain ⟨source, target, unused⟩ := accepted
      refine ⟨(graph.nodeAddEdge sourceNode targetNode address).2, ?_, ?_⟩
      · simp [DirectedGraph.operate, DirectedGraph.addEdge, isSome_findNode, source, target]
      · rw [represents.nodeAddEdge]
        split
        · exact ⟨edges, represents⟩
        · exact ⟨_, represents.append source target unused⟩
  | addNewEdge sourceNode targetNode address =>
      obtain ⟨source, target, unused⟩ := accepted
      refine ⟨(graph.nodeAddNewEdge sourceNode targetNode address).2, ?_, ?_⟩
      · simp [DirectedGraph.operate, DirectedGraph.addNewEdge, isSome_findNode, source, target]
      · rw [nodeAddNewEdge_eq]
        exact ⟨_, represents.append source target unused⟩
  | removeEdge sourceNode targetNode =>
      obtain ⟨source, target⟩ := accepted
      obtain ⟨success, next, removed, _, after⟩ := represents.nodeRemoveEdge sourceNode targetNode
      refine ⟨next, ?_, _, after⟩
      simp [DirectedGraph.operate, DirectedGraph.removeEdge, isSome_findNode, source, target,
        removed]
  | clearAllEdges ref =>
      obtain ⟨next, cleared, _, after⟩ := represents.clearAllEdges ref
      exact ⟨next, cleared, _, after⟩
  | removeNode ref =>
      obtain ⟨removed, next, stepped, after⟩ := represents.removeNode accepted
      exact ⟨next, by simp [DirectedGraph.operate, stepped], _, after⟩

/-- After every run the lists represent one list of edges. -/
theorem represents_run {operations : List (Operation Ref)}
    (run : GuardedRun operate Accepts {} operations graph) : ∃ edges, graph.Represents edges := by
  induction run with
  | nil => exact ⟨[], represents_empty⟩
  | snoc _ accepted stepped ih =>
      obtain ⟨edges, represents⟩ := ih
      obtain ⟨next, operated, after⟩ := represents.operate accepted
      cases stepped.symm.trans operated
      exact after

/-- The out-edges, the in-edges and the indices of the nodes agree. -/
structure Mirrored (graph : DirectedGraph Ref) : Prop where
  outEdges : ∀ ref ∈ graph.nodes, ∀ edge ∈ (graph.node ref).outEdges,
    edge.sourceNode = ref ∧ edge.targetNode ∈ graph.nodes ∧
      (graph.node edge.targetNode).inEdges.count edge = 1
  inEdges : ∀ ref ∈ graph.nodes, ∀ edge ∈ (graph.node ref).inEdges,
    edge.targetNode = ref ∧ edge.sourceNode ∈ graph.nodes ∧
      edge ∈ (graph.node edge.sourceNode).outEdges
  indexed : ∀ ref ∈ graph.nodes, (graph.node ref).Indexed

theorem Represents.mirrored (represents : graph.Represents edges) : graph.Mirrored where
  outEdges ref _ edge member := by
    rw [represents.outEdges] at member
    obtain ⟨listed, source⟩ := List.mem_filter.mp member
    refine ⟨by simpa using source, (represents.ends edge listed).2, ?_⟩
    rw [represents.inEdges]
    exact List.count_eq_one_of_mem (represents.addresses.of_map.filter _) (by simpa using listed)
  inEdges ref _ edge member := by
    rw [represents.inEdges] at member
    obtain ⟨listed, target⟩ := List.mem_filter.mp member
    refine ⟨by simpa using target, (represents.ends edge listed).1, ?_⟩
    rw [represents.outEdges]
    simpa using listed
  indexed ref _ := represents.indexed ref

/-- The graph without the indices. -/
def withoutIndices (graph : DirectedGraph Ref) : DirectedGraph Ref :=
  { graph with node := fun ref => { graph.node ref with outEdgeIndex := none } }

/-- `addEdge` by a linear scan: the first edge to the target, or a new one at the end. -/
def scanEdge (graph : DirectedGraph Ref) (sourceNode targetNode : Ref) (address : Nat) :
    DirectedEdge Ref × DirectedGraph Ref :=
  match (graph.node sourceNode).findEdgeTo targetNode with
  | some existing => (existing, graph)
  | none =>
      let edge : DirectedEdge Ref := ⟨address, sourceNode, targetNode⟩
      (edge, (graph.modify sourceNode fun node =>
        { node with outEdges := node.outEdges ++ [edge] }).modify targetNode fun node =>
          { node with inEdges := node.inEdges ++ [edge] })

theorem withoutIndices_append (graph : DirectedGraph Ref) (edge : DirectedEdge Ref) :
    (graph.append edge).withoutIndices =
      (graph.withoutIndices.modify edge.sourceNode fun node =>
        { node with outEdges := node.outEdges ++ [edge] }).modify edge.targetNode fun node =>
          { node with inEdges := node.inEdges ++ [edge] } := by
  simp only [withoutIndices, append, modify, DirectedGraph.mk.injEq, true_and]
  funext ref
  split <;> split <;> simp

/--
After every run the out-edges, the in-edges and the indices agree, every
operation on nodes of the graph succeeds, and `addEdge` does what a linear scan
does.
-/
theorem mirrored_run {operations : List (Operation Ref)}
    (run : GuardedRun operate Accepts {} operations graph) :
    graph.Mirrored ∧
      (∀ operation, graph.Accepts operation → (graph.operate operation).isSome = true) ∧
      ∀ sourceNode targetNode address, graph.Accepts (.addEdge sourceNode targetNode address) →
        ∃ edge next, graph.addEdge sourceNode targetNode address = some (edge, next) ∧
          (edge, next.withoutIndices) =
            graph.withoutIndices.scanEdge sourceNode targetNode address := by
  obtain ⟨edges, represents⟩ := represents_run run
  refine ⟨represents.mirrored, fun operation accepted => ?_, ?_⟩
  · obtain ⟨next, operated, _⟩ := represents.operate accepted
    rw [operated]
    rfl
  · intro sourceNode targetNode address accepted
    obtain ⟨source, target, _⟩ := accepted
    refine ⟨(graph.nodeAddEdge sourceNode targetNode address).1,
      (graph.nodeAddEdge sourceNode targetNode address).2, ?_, ?_⟩
    · simp [DirectedGraph.addEdge, isSome_findNode, source, target]
    · have scanned : (graph.withoutIndices.node sourceNode).findEdgeTo targetNode =
          (graph.node sourceNode).findEdgeTo targetNode := rfl
      rw [represents.nodeAddEdge, scanEdge, scanned, represents.findEdgeTo]
      cases edges.find? (DirectedEdge.joins sourceNode targetNode) with
      | some existing => rfl
      | none => exact congrArg _ (withoutIndices_append graph _)

/-- Two nodes with a loop and more parallel edges than the threshold, one of them removed again. -/
def loopAndParallel : List (Operation Nat) :=
  [.addNode 0, .addNode 1, .addEdge 0 0 0] ++
    (List.range 17).map (fun address => .addNewEdge 0 1 (address + 1)) ++
    [.removeEdge 0 1, .removeEdge 0 0]

theorem loopAndParallel_accepted :
    (loopAndParallel.foldlM (GuardedRun.guarded operate Accepts)
      ({} : DirectedGraph Nat)).isSome := by
  decide +kernel

/-- The graph after the run. -/
def loopAndParallelGraph : DirectedGraph Nat :=
  (loopAndParallel.foldlM (GuardedRun.guarded operate Accepts) {}).get loopAndParallel_accepted

theorem mirrored_run_loopAndParallel :
    loopAndParallelGraph.Mirrored ∧
      (∀ operation, loopAndParallelGraph.Accepts operation →
        (loopAndParallelGraph.operate operation).isSome = true) ∧
      ∀ sourceNode targetNode address,
        loopAndParallelGraph.Accepts (.addEdge sourceNode targetNode address) →
        ∃ edge next, loopAndParallelGraph.addEdge sourceNode targetNode address =
            some (edge, next) ∧
          (edge, next.withoutIndices) =
            loopAndParallelGraph.withoutIndices.scanEdge sourceNode targetNode address :=
  mirrored_run (GuardedRun.of_foldlM (Option.some_get loopAndParallel_accepted).symm)

example : ((loopAndParallelGraph.node 0).outEdgeIndex.bind fun index => index 1) =
    some ⟨2, 0, 1⟩ := by
  decide +kernel

end DirectedGraph

end Adjacency

end SlangNetlist
