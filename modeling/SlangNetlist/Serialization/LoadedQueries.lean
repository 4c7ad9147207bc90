import SlangNetlist.Library.FilteredList
import SlangNetlist.Query.MirroredQueries
import SlangNetlist.Serialization.RoundTrip

/-!
# Queries on a loaded netlist

The driver answers its queries on a netlist that it has just built or on one
that it has loaded.  The reader names the nodes anew and keeps one edge between
two nodes.  What reaches what is the same before and after, and a netlist
without two edges between two nodes answers every query alike.
-/

namespace SlangNetlist

open Library

/-! ## The builder disables no edge -/

namespace NetlistGraph

def AllEnabled (graph : NetlistGraph) : Prop := ∀ edge ∈ graph.edges, edge.disabled = false

variable {graph : NetlistGraph}

theorem AllEnabled.addEdge (enabled : graph.AllEnabled) (source target : NodeRef) :
    (graph.addEdge source target).AllEnabled := by
  unfold NetlistGraph.addEdge
  split
  · exact enabled
  · intro edge member
    rcases List.mem_append.mp member with old | new
    · exact enabled edge old
    · exact List.mem_singleton.mp new ▸ rfl

theorem AllEnabled.setEdge (enabled : graph.AllEnabled) {source target : NodeRef}
    {edge : NetlistEdge} (kept : edge.disabled = false) :
    (graph.setEdge source target edge).AllEnabled := by
  intro other member
  rcases mem_modifyFirst member with old | ⟨_, _, _, rfl⟩
  · exact enabled other old
  · exact kept

theorem AllEnabled.addUnannotated (enabled : graph.AllEnabled) (source target : NodeRef)
    (role : DependencyRole) (precision : DependencyPrecision) :
    (graph.addUnannotated source target role precision).AllEnabled := by
  have added := enabled.addEdge source target
  unfold NetlistGraph.addUnannotated
  dsimp only
  split
  · exact added
  · next edge found => exact added.setEdge (added edge (List.mem_of_find?_eq_some found))

theorem AllEnabled.addDependency (enabled : graph.AllEnabled) (dependency : Dependency) :
    (graph.addDependency dependency).AllEnabled := by
  have added := enabled.addEdge dependency.source dependency.target
  unfold NetlistGraph.addDependency
  dsimp only
  split
  · exact added
  · next edge found =>
      split
      · next changed set =>
          refine added.setEdge ?_
          exact (NetlistEdge.setVariable_eq set).2.2.1.trans
            (added edge (List.mem_of_find?_eq_some found))
      · intro other member
        rcases List.mem_append.mp member with old | new
        · exact added other old
        · exact List.mem_singleton.mp new ▸ rfl

theorem AllEnabled.operate (enabled : graph.AllEnabled) {operation : GraphOperation}
    {result : NetlistGraph} (operated : graph.operate operation = some result) :
    result.AllEnabled := by
  cases operation <;> cases operated
  case addNode node => exact enabled
  case addUnannotated source target role precision =>
    exact enabled.addUnannotated source target role precision
  case addDependency dependency => exact enabled.addDependency dependency
  case toSymbolRef symbol =>
    intro edge member
    rw [toSymbolRef, edges_intern, edges_toTextLocation] at member
    exact enabled edge member
  case toTextLocation location =>
    intro edge member
    rw [edges_toTextLocation] at member
    exact enabled edge member
  case addBlackBoxPath path => exact enabled
  case getArtifactId drawn => exact enabled

/-- The edges of the graphs that the builder makes are enabled. -/
theorem allEnabled_of_run {operations : List GraphOperation}
    (run : GuardedRun operate Accepts {} operations graph) : graph.AllEnabled :=
  run.invariant (fun _ none => absurd none List.not_mem_nil)
    fun _ _ _ enabled _ operated => enabled.operate operated

end NetlistGraph

/-! ## The loaded graph -/

namespace NetlistSerializer

variable {drawn : String} {graph loaded : NetlistGraph}

/-- The out-edges of all nodes are the edges of the graph. -/
theorem allOutEdges_perm (linked : graph.Linked) : (allOutEdges graph).Perm graph.edges := by
  have grouped := @flatMap_filter_perm _ _ _ NetlistEdge.source
    (graph.nodes.map NetlistNode.ref) graph.edges linked.refs
  have whole : graph.edges.filter (fun edge =>
      edge.source ∈ graph.nodes.map NetlistNode.ref) = graph.edges :=
    List.filter_eq_self.mpr fun edge member => decide_eq_true (linked.ends edge member).1
  rw [List.flatMap_map, whole] at grouped
  exact grouped

/-- The ends of the edges that the reader places are those of its edges. -/
theorem ends_mem_foldl_placeEdge {added : List NetlistEdge} {pair : NodeRef × NodeRef}
    (edges : List NetlistEdge) (member : pair ∈ added.map ends) :
    pair ∈ (added.foldl placeEdge edges).map ends := by
  have stays : ∀ (added edges : List NetlistEdge), pair ∈ edges.map ends →
      pair ∈ (added.foldl placeEdge edges).map ends := by
    intro added
    induction added with
    | nil => exact fun _ old => old
    | cons head rest ih =>
        refine fun edges old => ih _ ?_
        rw [ends_placeEdge]
        split
        · exact old
        · exact List.mem_append_left _ old
  induction added generalizing edges with
  | nil => cases member
  | cons head rest ih =>
      rw [List.map_cons, List.mem_cons] at member
      rcases member with rfl | later
      · refine stays rest _ ?_
        rw [ends_placeEdge]
        split
        · next present => exact present
        · exact List.mem_append_right _ List.mem_cons_self
      · exact ih _ later

namespace Loaded

variable (restored : Loaded drawn graph loaded)

include restored

/-- The loaded nodes are the nodes at the addresses of the reader. -/
theorem nodes_moved (wellFormed : graph.WellFormed) :
    loaded.nodes = graph.nodes.map (NetlistGraph.renamedNode (moved graph)) := by
  rw [restored.nodes, ← List.map_id (placeNodes 0 graph.nodes)]
  refine map_placeNodes fun node member placed placedMem sameID sameData => ?_
  obtain ⟨ref, ID, data⟩ := placed
  obtain rfl : ID = node.ID := sameID
  obtain rfl : data = node.data := sameData
  exact congrArg (fun ref => { node with ref }) (moved_eq wellFormed member placedMem rfl).symm

/-- Two nodes are joined by a loaded edge exactly if they were joined by an edge. -/
theorem sameEnds (wellFormed : graph.WellFormed) (enabled : graph.AllEnabled) :
    graph.SameEnds loaded (moved graph) where
  injective _ firstMem _ secondMem := moved_injective wellFormed firstMem secondMem
  nodes := restored.nodes_moved wellFormed
  image edge member := by
    obtain ⟨old, oldMem, rfl⟩ := restored.exists_edge member
    exact ⟨old, mem_allOutEdges oldMem, rfl, rfl, rfl⟩
  kept old oldMem := by
    have inAll : movedEdge graph old ∈ (allOutEdges graph).map (movedEdge graph) :=
      List.mem_map_of_mem ((allOutEdges_perm wellFormed.linked).mem_iff.mpr oldMem)
    have placed := ends_mem_foldl_placeEdge [] (List.mem_map_of_mem inAll)
    rw [← restored.edges] at placed
    obtain ⟨edge, edgeMem, sameEnds⟩ := List.mem_map.mp placed
    obtain ⟨source, target⟩ := Prod.mk.inj sameEnds
    obtain ⟨other, otherMem, rfl⟩ := restored.exists_edge edgeMem
    have otherEnabled := enabled other (mem_allOutEdges otherMem)
    exact ⟨_, edgeMem, source, target, otherEnabled.trans (enabled old oldMem).symm⟩

/-- A simple graph is loaded as it is, at other addresses. -/
theorem mirrors (wellFormed : graph.WellFormed) (simpleEdges : SimpleEdges graph) :
    graph.Mirrors loaded (moved graph) where
  injective _ firstMem _ secondMem := moved_injective wellFormed firstMem secondMem
  nodes := restored.nodes_moved wellFormed
  outEdges ref member := by
    obtain ⟨node, nodeMem, rfl⟩ := List.mem_map.mp member
    exact restored.outEdges_moved wellFormed simpleEdges nodeMem
  edges := by
    rw [restored.edges_of_simple wellFormed simpleEdges]
    exact (allOutEdges_perm wellFormed.linked).map _

end Loaded

end NetlistSerializer

open NetlistSerializer

/--
Whatever the builder makes, with integer constants that are read back from
their texts, agrees after saving and loading on what reaches what.
-/
theorem loaded_reachesAlike (valueToString : ConstantValue → String)
    (svIntFromString : String → Option SVInt) (drawn : String)
    {operations : List GraphOperation} {graph : NetlistGraph}
    (run : GuardedRun NetlistGraph.operate NetlistGraph.Accepts {} operations graph)
    (reads : ∀ node ∈ graph.nodes, ReadsBack valueToString svIntFromString node.data) :
    ∃ loaded, deserialize svIntFromString (serialize valueToString drawn graph) {} = .ok loaded ∧
      ∃ linked loadedLinked, graph.ReachesAlike loaded linked loadedLinked (moved graph) := by
  have wellFormed := NetlistGraph.wellFormed_of_run run
  obtain ⟨loaded, read, restored⟩ := exists_loaded drawn wellFormed reads
  have same := restored.sameEnds wellFormed (NetlistGraph.allEnabled_of_run run)
  exact ⟨loaded, read, wellFormed.linked, same.linked_other wellFormed.linked,
    same.reachesAlike _ _⟩

/-- Two edges that carry the bits 0 and 5 of `t` are loaded as one. -/
theorem loaded_reachesAlike_merged :
    ∃ loaded, deserialize bitFromString (serialize bitToString "a1"
        (built (threeNodes ++ [bitDependency 0, bitDependency 5]))) {} = .ok loaded ∧
      ∃ linked loadedLinked, (built (threeNodes ++ [bitDependency 0, bitDependency 5])).ReachesAlike
        loaded linked loadedLinked
        (moved (built (threeNodes ++ [bitDependency 0, bitDependency 5]))) := by
  have run : GuardedRun NetlistGraph.operate NetlistGraph.Accepts {}
      (threeNodes ++ [bitDependency 0, bitDependency 5])
      (built (threeNodes ++ [bitDependency 0, bitDependency 5])) :=
    GuardedRun.of_foldlM (by decide +kernel)
  exact loaded_reachesAlike bitToString bitFromString "a1" run (by decide +kernel)

/--
A netlist that the builder makes without two edges between two nodes, with
integer constants that are read back from their texts, answers every query
alike after saving and loading; only what depends on the order of addresses may
come in another order.
-/
theorem loaded_answersAlike (valueToString : ConstantValue → String)
    (svIntFromString : String → Option SVInt) (drawn : String)
    {operations : List GraphOperation} {graph : NetlistGraph}
    (run : GuardedRun NetlistGraph.operate NetlistGraph.Accepts {} operations graph)
    (reads : ∀ node ∈ graph.nodes, ReadsBack valueToString svIntFromString node.data)
    (simpleEdges : SimpleEdges graph) :
    ∃ loaded, deserialize svIntFromString (serialize valueToString drawn graph) {} = .ok loaded ∧
      ∃ linked loadedLinked, graph.AnswersAlike loaded linked loadedLinked (moved graph) := by
  have wellFormed := NetlistGraph.wellFormed_of_run run
  obtain ⟨loaded, read, restored⟩ := exists_loaded drawn wellFormed reads
  have mirrors := restored.mirrors wellFormed simpleEdges
  exact ⟨loaded, read, wellFormed.linked, mirrors.sameEnds.linked_other wellFormed.linked,
    mirrors.answersAlike _ _ restored.blackBoxPaths⟩

/-- One edge that carries a bit of `t` and one edge from a constant. -/
def savedOperations : List GraphOperation :=
  threeNodes ++ [bitDependency 0,
    .addUnannotated ⟨0, .constant, 2⟩ ⟨0, .assignment, 1⟩ .data .exact]

theorem loaded_answersAlike_saved :
    ∃ loaded, deserialize bitFromString (serialize bitToString "a1" (built savedOperations)) {} =
        .ok loaded ∧
      ∃ linked loadedLinked, (built savedOperations).AnswersAlike loaded linked loadedLinked
        (moved (built savedOperations)) := by
  have run : GuardedRun NetlistGraph.operate NetlistGraph.Accepts {} savedOperations
      (built savedOperations) := GuardedRun.of_foldlM (by decide +kernel)
  refine loaded_answersAlike bitToString bitFromString "a1" run (by decide +kernel) ?_
  unfold SimpleEdges
  decide +kernel

end SlangNetlist
