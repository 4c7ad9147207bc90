import Mathlib.Data.List.Basic

/-!
# Adjacency lists

The graph of `DirectedGraph.hpp`.  A node owns its out-edges and lists its
in-edges, and keeps an index of its out-edges once there are many of them.
Nodes and edges are named by their addresses, and the allocator may return any
address that is not in use.  A failed assertion is `none`.
-/

namespace SlangNetlist

namespace Adjacency

variable {Ref : Type} [DecidableEq Ref]

/-- An edge at its address. -/
structure DirectedEdge (Ref : Type) where
  address : Nat
  sourceNode : Ref
  targetNode : Ref
  deriving DecidableEq, Repr

/-- The map from targets to edges. -/
abbrev OutEdgeIndex (Ref : Type) := Ref → Option (DirectedEdge Ref)

structure Node (Ref : Type) where
  outEdges : List (DirectedEdge Ref) := []
  inEdges : List (DirectedEdge Ref) := []
  outEdgeIndex : Option (OutEdgeIndex Ref) := none

structure DirectedGraph (Ref : Type) where
  nodes : List Ref := []
  /-- The node at an address. -/
  node : Ref → Node Ref := fun _ => {}

/-- `try_emplace`, and `emplace` as well: an entry that exists is kept. -/
def OutEdgeIndex.tryEmplace (index : OutEdgeIndex Ref) (targetNode : Ref)
    (edge : DirectedEdge Ref) : OutEdgeIndex Ref :=
  match index targetNode with
  | some _ => index
  | none => fun other => if other = targetNode then some edge else index other

/-- Write or erase the entry of a target. -/
def OutEdgeIndex.assign (index : OutEdgeIndex Ref) (targetNode : Ref)
    (entry : Option (DirectedEdge Ref)) : OutEdgeIndex Ref :=
  fun other => if other = targetNode then entry else index other

namespace Node

/-- The first edge from the source node. -/
def findEdgeFrom (node : Node Ref) (sourceNode : Ref) : Option (DirectedEdge Ref) :=
  node.inEdges.find? fun edge => edge.sourceNode = sourceNode

/-- The first edge to the target node. -/
def findEdgeTo (node : Node Ref) (targetNode : Ref) : Option (DirectedEdge Ref) :=
  node.outEdges.find? fun edge => edge.targetNode = targetNode

/-- The first edge to the target node, by the index if there is one. -/
def lookupOutEdge (node : Node Ref) (targetNode : Ref) : Option (DirectedEdge Ref) :=
  match node.outEdgeIndex with
  | some index => index targetNode
  | none => node.findEdgeTo targetNode

def outEdgeIndexThreshold : Nat := 16

def buildOutEdgeIndex (node : Node Ref) : Node Ref :=
  { node with
    outEdgeIndex := some (node.outEdges.foldl
      (fun index edge => index.tryEmplace edge.targetNode edge) fun _ => none) }

/-- Enter an edge that is already the last of `outEdges`. -/
def insertOutEdgeIndex (node : Node Ref) (targetNode : Ref) (edge : DirectedEdge Ref) :
    Node Ref :=
  match node.outEdgeIndex with
  | some index => { node with outEdgeIndex := some (index.tryEmplace targetNode edge) }
  | none =>
      if node.outEdges.length > outEdgeIndexThreshold then node.buildOutEdgeIndex else node

/-- The variant for `addNewEdge`. -/
def tryInsertOutEdgeIndex (node : Node Ref) (targetNode : Ref) (edge : DirectedEdge Ref) :
    Node Ref :=
  match node.outEdgeIndex with
  | some index => { node with outEdgeIndex := some (index.tryEmplace targetNode edge) }
  | none =>
      if node.outEdges.length > outEdgeIndexThreshold then node.buildOutEdgeIndex else node

/-- Remove the first edge from the source node, if there is one. -/
def removeInEdge (node : Node Ref) (sourceNode : Ref) : Bool × Node Ref :=
  match node.findEdgeFrom sourceNode with
  | some _ => (true, { node with
      inEdges := node.inEdges.eraseP fun edge => edge.sourceNode = sourceNode })
  | none => (false, node)

/-- Point the entry of a target to the first edge that is left, or drop it. -/
def repointOutEdgeIndex (node : Node Ref) (targetNode : Ref) : Node Ref :=
  match node.outEdgeIndex with
  | some index => { node with
      outEdgeIndex := some (index.assign targetNode (node.findEdgeTo targetNode)) }
  | none => node

end Node

namespace DirectedGraph

/-- Change the node at an address. -/
def modify (graph : DirectedGraph Ref) (ref : Ref) (change : Node Ref → Node Ref) :
    DirectedGraph Ref :=
  { graph with
    node := fun other => if other = ref then change (graph.node other) else graph.node other }

/-- `findNode`: the position of a node. -/
def findNode (graph : DirectedGraph Ref) (ref : Ref) : Option Nat :=
  graph.nodes.findIdx? fun other => other = ref

/-- Add a node at the address that the allocator returns. -/
def addNode (graph : DirectedGraph Ref) (ref : Ref) : DirectedGraph Ref :=
  { graph.modify ref fun _ => {} with nodes := graph.nodes ++ [ref] }

/-- `Node::addEdge`; `address` is the one that the allocator returns if asked. -/
def nodeAddEdge (graph : DirectedGraph Ref) (sourceNode targetNode : Ref) (address : Nat) :
    DirectedEdge Ref × DirectedGraph Ref :=
  match (graph.node sourceNode).lookupOutEdge targetNode with
  | some existing => (existing, graph)
  | none =>
      let edge : DirectedEdge Ref := ⟨address, sourceNode, targetNode⟩
      let graph := graph.modify sourceNode fun node =>
        { node with outEdges := node.outEdges ++ [edge] }.insertOutEdgeIndex targetNode edge
      (edge, graph.modify targetNode fun node => { node with inEdges := node.inEdges ++ [edge] })

/-- `Node::addNewEdge`. -/
def nodeAddNewEdge (graph : DirectedGraph Ref) (sourceNode targetNode : Ref) (address : Nat) :
    DirectedEdge Ref × DirectedGraph Ref :=
  let edge : DirectedEdge Ref := ⟨address, sourceNode, targetNode⟩
  let graph := graph.modify sourceNode fun node =>
    { node with outEdges := node.outEdges ++ [edge] }.tryInsertOutEdgeIndex targetNode edge
  (edge, graph.modify targetNode fun node => { node with inEdges := node.inEdges ++ [edge] })

/-- `Node::removeEdge`. -/
def nodeRemoveEdge (graph : DirectedGraph Ref) (sourceNode targetNode : Ref) :
    Option (Bool × DirectedGraph Ref) :=
  match (graph.node sourceNode).findEdgeTo targetNode with
  | none => some (false, graph)
  | some _ =>
      let (success, node) := (graph.node targetNode).removeInEdge sourceNode
      if ¬ success then none
      else
        let graph := graph.modify targetNode fun _ => node
        some (success, graph.modify sourceNode fun node =>
          { node with outEdges := node.outEdges.eraseP fun edge => edge.targetNode = targetNode
            }.repointOutEdgeIndex targetNode)

/-- `Node::clearAllEdges`. -/
def clearAllEdges (graph : DirectedGraph Ref) (ref : Ref) : Option (DirectedGraph Ref) := do
  let graph := (graph.node ref).outEdges.foldl (fun graph edge =>
    graph.modify edge.targetNode fun node => (node.removeInEdge ref).2) graph
  let graph := graph.modify ref fun node => { node with outEdges := [], outEdgeIndex := none }
  let sourceNodes := (graph.node ref).inEdges.map DirectedEdge.sourceNode
  let graph ← sourceNodes.foldlM (fun graph sourceNode =>
    (graph.nodeRemoveEdge sourceNode ref).map Prod.snd) graph
  if (graph.node ref).inEdges = [] then some graph else none

def addEdge (graph : DirectedGraph Ref) (sourceNode targetNode : Ref) (address : Nat) :
    Option (DirectedEdge Ref × DirectedGraph Ref) := do
  guard (graph.findNode sourceNode).isSome
  guard (graph.findNode targetNode).isSome
  some (graph.nodeAddEdge sourceNode targetNode address)

def addNewEdge (graph : DirectedGraph Ref) (sourceNode targetNode : Ref) (address : Nat) :
    Option (DirectedEdge Ref × DirectedGraph Ref) := do
  guard (graph.findNode sourceNode).isSome
  guard (graph.findNode targetNode).isSome
  some (graph.nodeAddNewEdge sourceNode targetNode address)

def removeEdge (graph : DirectedGraph Ref) (sourceNode targetNode : Ref) :
    Option (Bool × DirectedGraph Ref) := do
  guard (graph.findNode sourceNode).isSome
  guard (graph.findNode targetNode).isSome
  graph.nodeRemoveEdge sourceNode targetNode

/-- Remove a node with its edges; its storage is freed. -/
def removeNode (graph : DirectedGraph Ref) (ref : Ref) : Option (Bool × DirectedGraph Ref) :=
  match graph.findNode ref with
  | none => some (false, graph)
  | some nodeToRemoveDesc => do
      let graph ← graph.clearAllEdges ref
      some (true, { graph.modify ref fun _ => {} with
        nodes := graph.nodes.eraseIdx nodeToRemoveDesc })

end DirectedGraph

/-- The operations on a graph, with the addresses that the allocator returns. -/
inductive Operation (Ref : Type) where
  | addNode (ref : Ref)
  | addEdge (sourceNode targetNode : Ref) (address : Nat)
  | addNewEdge (sourceNode targetNode : Ref) (address : Nat)
  | removeEdge (sourceNode targetNode : Ref)
  | clearAllEdges (ref : Ref)
  | removeNode (ref : Ref)
  deriving DecidableEq, Repr

namespace DirectedGraph

/-- One operation. -/
def operate (graph : DirectedGraph Ref) : Operation Ref → Option (DirectedGraph Ref)
  | .addNode ref => some (graph.addNode ref)
  | .addEdge sourceNode targetNode address =>
      (graph.addEdge sourceNode targetNode address).map Prod.snd
  | .addNewEdge sourceNode targetNode address =>
      (graph.addNewEdge sourceNode targetNode address).map Prod.snd
  | .removeEdge sourceNode targetNode => (graph.removeEdge sourceNode targetNode).map Prod.snd
  | .clearAllEdges ref => graph.clearAllEdges ref
  | .removeNode ref => (graph.removeNode ref).map Prod.snd

/-- No edge of the graph is at the address. -/
def Unused (graph : DirectedGraph Ref) (address : Nat) : Prop :=
  ∀ ref ∈ graph.nodes, ∀ edge ∈ (graph.node ref).outEdges, edge.address ≠ address

/-- The node arguments are in the graph, and new nodes and edges are at unused addresses. -/
def Accepts (graph : DirectedGraph Ref) : Operation Ref → Prop
  | .addNode ref => ref ∉ graph.nodes
  | .addEdge sourceNode targetNode address =>
      sourceNode ∈ graph.nodes ∧ targetNode ∈ graph.nodes ∧ graph.Unused address
  | .addNewEdge sourceNode targetNode address =>
      sourceNode ∈ graph.nodes ∧ targetNode ∈ graph.nodes ∧ graph.Unused address
  | .removeEdge sourceNode targetNode => sourceNode ∈ graph.nodes ∧ targetNode ∈ graph.nodes
  | .clearAllEdges ref => ref ∈ graph.nodes
  | .removeNode ref => ref ∈ graph.nodes

instance (graph : DirectedGraph Ref) (address : Nat) : Decidable (graph.Unused address) :=
  inferInstanceAs (Decidable (∀ ref ∈ graph.nodes, ∀ edge ∈ _, _))

instance (graph : DirectedGraph Ref) (operation : Operation Ref) :
    Decidable (graph.Accepts operation) := by
  unfold Accepts
  split <;> infer_instance

end DirectedGraph

end Adjacency

end SlangNetlist
