import SlangNetlist.Graph.GraphRuns
import SlangNetlist.Query.CycleDetector

/-!
# Combinational loops

The netlist as a directed graph, and the cycles of enabled edges that do not
lead into a register.
-/

namespace SlangNetlist

namespace NetlistGraph

/-- Nodes have distinct addresses and IDs, and edges join nodes of the graph. -/
structure Linked (graph : NetlistGraph) : Prop where
  refs : (graph.nodes.map NetlistNode.ref).Nodup
  ids : (graph.nodes.map NetlistNode.ID).Nodup
  ends : ∀ edge ∈ graph.edges, graph.HasNode edge.source ∧ graph.HasNode edge.target

instance (graph : NetlistGraph) : Decidable graph.Linked :=
  decidable_of_iff ((graph.nodes.map NetlistNode.ref).Nodup ∧
      (graph.nodes.map NetlistNode.ID).Nodup ∧
      ∀ edge ∈ graph.edges, graph.HasNode edge.source ∧ graph.HasNode edge.target)
    ⟨fun ⟨refs, ids, ends⟩ => ⟨refs, ids, ends⟩, fun ⟨refs, ids, ends⟩ => ⟨refs, ids, ends⟩⟩

theorem WellFormed.linked {graph : NetlistGraph} (wellFormed : graph.WellFormed) : graph.Linked where
  refs := wellFormed.refs
  ids := wellFormed.ids
  ends edge member :=
    ⟨(wellFormed.edges edge member).source, (wellFormed.edges edge member).target⟩

/-- The graph that searches see. -/
def directed (graph : NetlistGraph) (linked : graph.Linked) : DirectedGraph NodeRef NetlistEdge where
  nodes := graph.nodes.map NetlistNode.ref
  edges := graph.edges
  source := NetlistEdge.source
  target := NetlistEdge.target
  source_mem edge member := (linked.ends edge member).1
  target_mem edge member := (linked.ends edge member).2

/-- The kind of the node at an address. -/
def kindOf (graph : NetlistGraph) (ref : NodeRef) : NodeKind :=
  ((graph.node? ref).map fun node => node.data.kind).getD .none

/-- `CombEdgePredicate`: an enabled edge, not into a register. -/
def combEdge (graph : NetlistGraph) (edge : NetlistEdge) : Bool :=
  !edge.disabled && graph.kindOf edge.target != .state

/-- `CombLoops::getAllLoops`. -/
def getAllLoops (graph : NetlistGraph) (linked : graph.Linked) : Option (List (List NodeRef)) :=
  CycleDetector.detectCycles (graph.directed linked) graph.combEdge graph.nodeID

/-- Nodes with one ID are the same node. -/
theorem nodeID_injective {graph : NetlistGraph} (linked : graph.Linked) :
    ∀ ref ∈ graph.nodes.map NetlistNode.ref, ∀ other ∈ graph.nodes.map NetlistNode.ref,
      graph.nodeID ref = graph.nodeID other → ref = other := by
  intro ref member other otherMem same
  obtain ⟨first, firstMem, rfl⟩ := List.mem_map.mp member
  obtain ⟨second, secondMem, rfl⟩ := List.mem_map.mp otherMem
  rw [nodeID_eq linked.refs firstMem, nodeID_eq linked.refs secondMem] at same
  rw [List.inj_on_of_nodup_map linked.ids firstMem secondMem same]

end NetlistGraph

open CycleDetector

/--
For every graph with distinct IDs and every edge predicate, and so for the
combinational loops of a netlist, the cycles reported are exact.
-/
theorem detectCycles_exact :
    (∀ (Node Edge : Type) [DecidableEq Node] (graph : DirectedGraph Node Edge)
      (selected : Edge → Bool) (ID : Node → Nat),
      (∀ node ∈ graph.nodes, ∀ other ∈ graph.nodes, ID node = ID other → node = other) →
        ∃ cycles, detectCycles graph selected ID = some cycles ∧
          Exact graph selected ID cycles) ∧
    ∀ (netlist : NetlistGraph) (linked : netlist.Linked),
      ∃ loops, netlist.getAllLoops linked = some loops ∧
        Exact (netlist.directed linked) netlist.combEdge netlist.nodeID loops := by
  constructor
  · intro Node Edge _ graph selected ID distinct
    exact exists_detectCycles graph selected ID distinct
  · intro netlist linked
    exact exists_detectCycles _ _ _ (NetlistGraph.nodeID_injective linked)

/-- A merge and an assignment that drive each other, and a register that the assignment loads. -/
def ringNetlist : NetlistGraph where
  nodes := [
    { ref := ⟨0, .merge, 0⟩, ID := 3, data := .merge },
    { ref := ⟨0, .assignment, 0⟩, ID := 1, data := .assignment {} },
    { ref := ⟨0, .state, 0⟩, ID := 2, data := .state "q" "m.q" {} {} }]
  edges := [
    { source := ⟨0, .merge, 0⟩, target := ⟨0, .assignment, 0⟩ },
    { source := ⟨0, .assignment, 0⟩, target := ⟨0, .merge, 0⟩ },
    { source := ⟨0, .assignment, 0⟩, target := ⟨0, .state, 0⟩ },
    { source := ⟨0, .state, 0⟩, target := ⟨0, .assignment, 0⟩ }]

theorem ringNetlist_linked : ringNetlist.Linked := by
  decide

example : ringNetlist.getAllLoops ringNetlist_linked =
    some [[⟨0, .assignment, 0⟩, ⟨0, .merge, 0⟩]] := by
  decide +kernel

theorem detectCycles_exact_ring :
    (∃ cycles, detectCycles (ringNetlist.directed ringNetlist_linked) (fun _ => true)
        ringNetlist.nodeID = some cycles ∧
      Exact (ringNetlist.directed ringNetlist_linked) (fun _ => true) ringNetlist.nodeID cycles) ∧
    ∃ loops, ringNetlist.getAllLoops ringNetlist_linked = some loops ∧
      Exact (ringNetlist.directed ringNetlist_linked) ringNetlist.combEdge ringNetlist.nodeID
        loops :=
  ⟨detectCycles_exact.1 _ _ _ _ _ (by decide), detectCycles_exact.2 _ ringNetlist_linked⟩

end SlangNetlist
