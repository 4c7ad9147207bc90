import Mathlib.Data.List.Nodup
import SlangNetlist.Graph.NetlistEdge
import SlangNetlist.Library.FirstMatch

/-!
# The netlist graph

The edges of all nodes are kept in one list; the out-edges of a node are the
edges with that source, in order.  The edge that `addEdge` returns is the first
one between the two nodes, so that writes through the reference change the
first match.
-/

namespace SlangNetlist

open Library

/-- The arguments of `NetlistBuilder::addDependency` with a symbol. -/
structure Dependency where
  source : NodeRef
  target : NodeRef
  symbol : String
  bounds : DriverBitRange
  semantics : EdgeSemantics := {}
  deriving DecidableEq, Repr

structure NetlistGraph where
  nodes : List NetlistNode := []
  edges : List NetlistEdge := []
  /-- The file names of the `FileTable`, without duplicates. -/
  fileTable : List String := []
  /-- The records of the `SymbolTable`, one for each hierarchical path. -/
  symbolTable : List SymbolReference := []
  blackBoxPaths : List String := []
  artifactId : String := ""
  deriving DecidableEq, Repr

namespace NetlistGraph

/-- The node at an address. -/
def node? (graph : NetlistGraph) (ref : NodeRef) : Option NetlistNode :=
  graph.nodes.find? fun node => node.ref = ref

/-- `NetlistNode::getBounds` of the node at an address. -/
def getBounds (graph : NetlistGraph) (ref : NodeRef) : Option DriverBitRange :=
  (graph.node? ref).bind fun node => node.data.getBounds

/-- The ID of the node at an address. -/
def nodeID (graph : NetlistGraph) (ref : NodeRef) : Nat :=
  ((graph.node? ref).map NetlistNode.ID).getD 0

def addNode (graph : NetlistGraph) (node : NetlistNode) : NetlistGraph :=
  { graph with nodes := graph.nodes ++ [node] }

/-- The edges between two nodes, in the order of the out-edges of the source. -/
def edgesBetween (graph : NetlistGraph) (source target : NodeRef) : List NetlistEdge :=
  graph.edges.filter (NetlistEdge.joins source target)

/-- `getOutEdges`. -/
def outEdges (graph : NetlistGraph) (source : NodeRef) : List NetlistEdge :=
  graph.edges.filter fun edge => edge.source = source

/-- `lookupOutEdge`: the first edge to the target. -/
def lookupOutEdge (graph : NetlistGraph) (source target : NodeRef) : Option NetlistEdge :=
  graph.edges.find? (NetlistEdge.joins source target)

/-- Add an edge unless there is one; the edge referred to is then the first match. -/
def addEdge (graph : NetlistGraph) (source target : NodeRef) : NetlistGraph :=
  match graph.lookupOutEdge source target with
  | some _ => graph
  | none => { graph with edges := graph.edges ++ [{ source := source, target := target }] }

/-- Add an edge, which is the last of the list, even if there is one. -/
def addNewEdge (graph : NetlistGraph) (edge : NetlistEdge) : NetlistGraph :=
  { graph with edges := graph.edges ++ [edge] }

/-- Write through the reference to the first edge between two nodes. -/
def setEdge (graph : NetlistGraph) (source target : NodeRef) (edge : NetlistEdge) :
    NetlistGraph :=
  { graph with
    edges := modifyFirst (NetlistEdge.joins source target) (fun _ => edge) graph.edges }

/-- `NetlistBuilder::addDependency` without a symbol. -/
def addUnannotated (graph : NetlistGraph) (source target : NodeRef) (role : DependencyRole)
    (precision : DependencyPrecision) : NetlistGraph :=
  let graph := graph.addEdge source target
  match graph.lookupOutEdge source target with
  | none => graph
  | some edge => graph.setEdge source target
      { edge with semantics := { edge.semantics with role := role, precision := precision } }

/-- The part of the bounds that the source node drives, if it has overlapping bounds of its own. -/
def clip (nodeBounds : Option DriverBitRange) (bounds : DriverBitRange) : DriverBitRange :=
  match nodeBounds with
  | some own => if bounds.overlaps own then bounds.intersect own else bounds
  | none => bounds

/-- A data dependency with an edge kind is an event. -/
def eventSemantics (semantics : EdgeSemantics) : EdgeSemantics :=
  if semantics.edgeKind ≠ .none ∧ semantics.role = .data then
    { semantics with role := .event }
  else semantics

/-- `NetlistBuilder::addDependency` with a symbol. -/
def addDependency (graph : NetlistGraph) (dependency : Dependency) : NetlistGraph :=
  let source := dependency.source
  let target := dependency.target
  let semantics := eventSemantics dependency.semantics
  let edgeBounds := clip (graph.getBounds source) dependency.bounds
  let graph := graph.addEdge source target
  match graph.lookupOutEdge source target with
  | none => graph
  | some edge =>
      match edge.setVariable dependency.symbol edgeBounds with
      | some changed => graph.setEdge source target (changed.setSemantics semantics)
      | none =>
          -- A range of the same symbol that is not contiguous: add a parallel edge.
          graph.addNewEdge
            { source := source, target := target, symbol := some dependency.symbol,
              bounds := edgeBounds, semantics := semantics }

/-- The edges between two nodes after one annotated dependency. -/
def emitBetween (source target : NodeRef) (symbol : String) (edgeBounds : DriverBitRange)
    (semantics : EdgeSemantics) : List NetlistEdge → List NetlistEdge
  | [] => [{ source := source, target := target, symbol := some symbol, bounds := edgeBounds,
             semantics := semantics }]
  | first :: rest =>
      match first.setVariable symbol edgeBounds with
      | some changed => changed.setSemantics semantics :: rest
      | none => first :: rest ++
          [{ source := source, target := target, symbol := some symbol, bounds := edgeBounds,
             semantics := semantics }]

section Lemmas

variable {graph : NetlistGraph} {source target : NodeRef}

/-- The node at an address is found there. -/
theorem node?_eq (refs : (graph.nodes.map NetlistNode.ref).Nodup) {node : NetlistNode}
    (member : node ∈ graph.nodes) : graph.node? node.ref = some node := by
  unfold node?
  cases found : graph.nodes.find? fun other => other.ref = node.ref with
  | none =>
      have absent := List.find?_eq_none.mp found node member
      simp at absent
  | some other =>
      have same : other.ref = node.ref := by simpa using List.find?_some found
      rw [List.inj_on_of_nodup_map refs (List.mem_of_find?_eq_some found) member same]

theorem nodeID_eq (refs : (graph.nodes.map NetlistNode.ref).Nodup) {node : NetlistNode}
    (member : node ∈ graph.nodes) : graph.nodeID node.ref = node.ID := by
  rw [nodeID, node?_eq refs member]
  rfl

theorem lookupOutEdge_eq (graph : NetlistGraph) (source target : NodeRef) :
    graph.lookupOutEdge source target = (graph.edgesBetween source target).head? := by
  simp [lookupOutEdge, edgesBetween, List.head?_filter]

theorem joins_iff {edge : NetlistEdge} :
    edge.joins source target = true ↔ edge.source = source ∧ edge.target = target := by
  simp [NetlistEdge.joins]

theorem mem_edgesBetween {edge : NetlistEdge} :
    edge ∈ graph.edgesBetween source target ↔
      edge ∈ graph.edges ∧ edge.source = source ∧ edge.target = target := by
  simp [edgesBetween, joins_iff]

theorem mem_of_mem_clip {own : Option DriverBitRange} {bounds : DriverBitRange} {bit : Int}
    (inside : bit ∈ clip own bounds) : bit ∈ bounds := by
  unfold clip at inside
  split at inside
  · split at inside
    · next overlaps => exact ((DriverBitRange.mem_intersect overlaps).mp inside).1
    · exact inside
  · exact inside

/-- Dependencies leave the nodes alone. -/
@[simp] theorem nodes_addDependency (graph : NetlistGraph) (dependency : Dependency) :
    (graph.addDependency dependency).nodes = graph.nodes := by
  have added : (graph.addEdge dependency.source dependency.target).nodes = graph.nodes := by
    unfold addEdge
    split <;> rfl
  unfold addDependency
  dsimp only
  split
  · exact added
  · split <;> exact added

@[simp] theorem getBounds_addDependency (graph : NetlistGraph) (dependency : Dependency)
    (ref : NodeRef) :
    (graph.addDependency dependency).getBounds ref = graph.getBounds ref := by
  simp [getBounds, node?]

theorem getBounds_addDependencies (graph : NetlistGraph) (dependencies : List Dependency)
    (ref : NodeRef) :
    (dependencies.foldl addDependency graph).getBounds ref = graph.getBounds ref := by
  induction dependencies generalizing graph with
  | nil => rfl
  | cons head rest ih => rw [List.foldl_cons, ih, getBounds_addDependency]

@[simp] theorem nodes_addDependencies (graph : NetlistGraph) (dependencies : List Dependency) :
    (dependencies.foldl addDependency graph).nodes = graph.nodes := by
  induction dependencies generalizing graph with
  | nil => rfl
  | cons head rest ih => rw [List.foldl_cons, ih, nodes_addDependency]

/-- Two pairs of ends that join one edge are the same pair. -/
theorem joins_unique {edge : NetlistEdge} {start finish : NodeRef}
    (joins : edge.joins source target = true) (others : edge.joins start finish = true) :
    start = source ∧ finish = target := by
  rw [joins_iff] at joins others
  exact ⟨others.1.symm.trans joins.1, others.2.symm.trans joins.2⟩

theorem edgesBetween_addNewEdge (graph : NetlistGraph) (edge : NetlistEdge)
    (start finish : NodeRef) :
    (graph.addNewEdge edge).edgesBetween start finish =
      if edge.source = start ∧ edge.target = finish then
        graph.edgesBetween start finish ++ [edge]
      else graph.edgesBetween start finish := by
  simp only [edgesBetween, addNewEdge, List.filter_append, List.filter_cons, List.filter_nil,
    joins_iff]
  split <;> simp

theorem edgesBetween_addEdge (graph : NetlistGraph) (source target start finish : NodeRef) :
    (graph.addEdge source target).edgesBetween start finish =
      if start = source ∧ finish = target ∧ graph.edgesBetween source target = [] then
        [{ source := source, target := target }]
      else graph.edgesBetween start finish := by
  unfold addEdge
  split
  · next edge found =>
      rw [lookupOutEdge_eq] at found
      have nonempty : graph.edgesBetween source target ≠ [] := by
        rintro empty
        simp [empty] at found
      simp [nonempty]
  · next missing =>
      rw [lookupOutEdge_eq, List.head?_eq_none_iff] at missing
      have added := edgesBetween_addNewEdge graph { source := source, target := target } start
        finish
      simp only [addNewEdge] at added
      rw [added]
      by_cases same : source = start ∧ target = finish
      · obtain ⟨rfl, rfl⟩ := same
        simp [missing]
      · rw [if_neg same, if_neg]
        rintro ⟨rfl, rfl, _⟩
        exact same ⟨rfl, rfl⟩

theorem edgesBetween_setEdge (graph : NetlistGraph) {edge : NetlistEdge}
    (joins : edge.joins source target = true) (start finish : NodeRef) :
    (graph.setEdge source target edge).edgesBetween start finish =
      if start = source ∧ finish = target then
        (graph.edgesBetween source target).modifyHead fun _ => edge
      else graph.edgesBetween start finish := by
  simp only [edgesBetween, setEdge]
  split
  · next same =>
      obtain ⟨rfl, rfl⟩ := same
      exact filter_modifyFirst (fun _ _ => joins) graph.edges
  · next differ =>
      refine filter_modifyFirst_of_disjoint (fun old oldJoins => ⟨fun others => ?_, fun others =>
        ?_⟩) graph.edges
      · exact differ (joins_unique oldJoins others)
      · exact differ (joins_unique joins others)

/-- A dependency acts on the edges between its two nodes, and on no other edge. -/
theorem edgesBetween_addDependency (graph : NetlistGraph) (dependency : Dependency)
    (start finish : NodeRef) :
    (graph.addDependency dependency).edgesBetween start finish =
      if start = dependency.source ∧ finish = dependency.target then
        emitBetween dependency.source dependency.target dependency.symbol
          (clip (graph.getBounds dependency.source) dependency.bounds)
          (eventSemantics dependency.semantics)
          (graph.edgesBetween dependency.source dependency.target)
      else graph.edgesBetween start finish := by
  obtain ⟨source, target, symbol, bounds, semantics⟩ := dependency
  have added := edgesBetween_addEdge graph source target
  have ends := fun edge (edgeMem : edge ∈ (graph.addEdge source target).edgesBetween source
    target) => mem_edgesBetween.mp edgeMem
  unfold addDependency
  simp only [lookupOutEdge_eq]
  cases before : graph.edgesBetween source target with
  | nil =>
      have fresh : (graph.addEdge source target).edgesBetween source target =
          [{ source := source, target := target }] := by simp [added, before]
      simp only [fresh, List.head?_cons, NetlistEdge.setVariable_fresh]
      rw [edgesBetween_setEdge _ (by simp [joins_iff, NetlistEdge.setSemantics]), fresh]
      split
      · rfl
      · next differ =>
          rw [added, if_neg]
          rintro ⟨rfl, rfl, _⟩
          exact differ ⟨rfl, rfl⟩
  | cons first rest =>
      have same : (graph.addEdge source target).edgesBetween source target = first :: rest := by
        simp [added, before]
      obtain ⟨_, firstSource, firstTarget⟩ := ends first (by simp [same])
      have kept : ¬ (start = source ∧ finish = target) →
          (graph.addEdge source target).edgesBetween start finish =
            graph.edgesBetween start finish := by
        intro differ
        rw [added, if_neg]
        rintro ⟨rfl, rfl, _⟩
        exact differ ⟨rfl, rfl⟩
      simp only [same, List.head?_cons, emitBetween]
      cases set : first.setVariable symbol (clip (graph.getBounds source) bounds) with
      | none =>
          simp only
          rw [edgesBetween_addNewEdge]
          split
          · next joins =>
              obtain ⟨rfl, rfl⟩ := joins
              simp [same]
          · next differ =>
              rw [if_neg (fun joins => differ ⟨joins.1.symm, joins.2.symm⟩)]
              exact kept fun joins => differ ⟨joins.1.symm, joins.2.symm⟩
      | some changed =>
          obtain ⟨sourceEq, targetEq, _⟩ := NetlistEdge.setVariable_eq set
          simp only
          rw [edgesBetween_setEdge _ (by
            simp [joins_iff, NetlistEdge.setSemantics, sourceEq, targetEq, firstSource,
              firstTarget]), same]
          split
          · rfl
          · next differ => exact kept differ

/-- Some edge between the nodes carries the symbol on a range with the bit. -/
def Carries (graph : NetlistGraph) (source target : NodeRef) (symbol : String) (bit : Int) :
    Prop :=
  ∃ edge ∈ graph.edgesBetween source target, edge.Carries symbol bit

instance (graph : NetlistGraph) (source target : NodeRef) (symbol : String) (bit : Int) :
    Decidable (graph.Carries source target symbol bit) :=
  inferInstanceAs (Decidable (∃ edge ∈ _, _))

/-- A dependency adds its clipped range to what its symbol is carried on. -/
theorem carries_emitBetween (source target : NodeRef) (symbol : String)
    (edgeBounds : DriverBitRange) (semantics : EdgeSemantics) (edges : List NetlistEdge)
    (bit : Int) :
    (∃ edge ∈ emitBetween source target symbol edgeBounds semantics edges,
        edge.Carries symbol bit) ↔
      (∃ edge ∈ edges, edge.Carries symbol bit) ∨ bit ∈ edgeBounds := by
  cases edges with
  | nil => simp [emitBetween, NetlistEdge.Carries]
  | cons first rest =>
      simp only [emitBetween]
      cases set : first.setVariable symbol edgeBounds with
      | some changed =>
          have carries : changed.Carries symbol bit ↔ first.Carries symbol bit ∨ bit ∈ edgeBounds :=
            NetlistEdge.carries_setVariable set
          simp only [List.mem_cons, exists_eq_or_imp, NetlistEdge.carries_setSemantics, carries]
          exact or_right_comm
      | none =>
          simp only [List.mem_append, List.mem_singleton, or_and_right, exists_or,
            exists_eq_left, NetlistEdge.Carries, true_and]

theorem carries_addDependency (graph : NetlistGraph) (dependency : Dependency)
    (start finish : NodeRef) (bit : Int) :
    (graph.addDependency dependency).Carries start finish dependency.symbol bit ↔
      graph.Carries start finish dependency.symbol bit ∨
        (start = dependency.source ∧ finish = dependency.target ∧
          bit ∈ clip (graph.getBounds start) dependency.bounds) := by
  unfold Carries
  rw [edgesBetween_addDependency]
  split
  · next same =>
      obtain ⟨rfl, rfl⟩ := same
      simp [carries_emitBetween]
  · next differ =>
      have impossible : ¬ (start = dependency.source ∧ finish = dependency.target ∧
          bit ∈ clip (graph.getBounds start) dependency.bounds) :=
        fun ⟨sourceEq, targetEq, _⟩ => differ ⟨sourceEq, targetEq⟩
      simp [impossible]

/-- Dependencies for one symbol add their clipped ranges to what the symbol is carried on. -/
theorem carries_addDependencies {symbol : String} {dependencies : List Dependency}
    (only : ∀ dependency ∈ dependencies, dependency.symbol = symbol) (graph : NetlistGraph)
    (source target : NodeRef) (bit : Int) :
    (dependencies.foldl addDependency graph).Carries source target symbol bit ↔
      graph.Carries source target symbol bit ∨
        ∃ dependency ∈ dependencies, dependency.source = source ∧ dependency.target = target ∧
          bit ∈ clip (graph.getBounds source) dependency.bounds := by
  induction dependencies generalizing graph with
  | nil => simp
  | cons head rest ih =>
      have restOnly := fun dependency member => only dependency (List.mem_cons_of_mem head member)
      obtain rfl := only head List.mem_cons_self
      rw [List.foldl_cons, ih restOnly, carries_addDependency]
      simp only [getBounds_addDependency, List.mem_cons, exists_eq_or_imp, or_assoc,
        @eq_comm _ source head.source, @eq_comm _ target head.target]

end Lemmas

end NetlistGraph

end SlangNetlist
