import Mathlib.Data.List.Find
import SlangNetlist.Build.DeferredBlocks

/-!
# What a block sees of the builder

A block acts on its own nodes and on those of the collecting phase.  Two
builders that agree on these, on the nodes that the block looks up and on its
ports look the same to it: it does the same to both of them, and nothing else.
-/

namespace SlangNetlist

open Library

/-! ## The variable table -/

namespace VariableTracker

variable {tracker : VariableTracker} {symbol : Nat} {node : NodeRef}

/-- The ranges of each symbol are in ascending order of their starts. -/
def Sorted (tracker : VariableTracker) : Prop :=
  ∀ symbol, (tracker.variableMap symbol).entries.Pairwise fun left right =>
    left.first ≤ right.first

theorem sorted_empty : ({} : VariableTracker).Sorted := fun _ => List.Pairwise.nil

theorem sorted_insertEntry {entry : Interval NodeRef} {entries : List (Interval NodeRef)}
    (sorted : entries.Pairwise fun left right => left.first ≤ right.first) :
    (IntervalMap.insertEntry entry entries).Pairwise fun left right =>
      left.first ≤ right.first := by
  induction entries with
  | nil => exact List.pairwise_singleton _ _
  | cons head rest ih =>
      obtain ⟨first, later⟩ := List.pairwise_cons.mp sorted
      rw [IntervalMap.insertEntry]
      split
      · next before =>
          refine List.pairwise_cons.mpr ⟨fun other member => ?_, sorted⟩
          rcases List.mem_cons.mp member with rfl | inRest
          · exact before.le
          · exact before.le.trans (first other inRest)
      · next after =>
          refine List.pairwise_cons.mpr ⟨fun other member => ?_, ih later⟩
          rcases IntervalMap.mem_insertEntry.mp member with rfl | inRest
          · exact not_lt.mp after
          · exact first other inRest

theorem Sorted.insert (sorted : tracker.Sorted) (bounds : DriverBitRange) :
    (tracker.insert symbol bounds node).Sorted := by
  intro other
  simp only [VariableTracker.insert]
  split
  · exact sorted_insertEntry (sorted symbol)
  · exact sorted other

/-- An inserted entry stands behind those that start with it. -/
theorem find?_insertEntry_sorted {test : Interval NodeRef → Bool} {entry : Interval NodeRef}
    {entries : List (Interval NodeRef)}
    (sorted : entries.Pairwise fun left right => left.first ≤ right.first)
    (same : ∀ other, test other = true → test entry = true → other.first = entry.first) :
    (IntervalMap.insertEntry entry entries).find? test =
      (entries.find? test).or (if test entry then some entry else none) := by
  induction entries with
  | nil => cases found : test entry <;> simp [IntervalMap.insertEntry, found]
  | cons head rest ih =>
      obtain ⟨first, later⟩ := List.pairwise_cons.mp sorted
      rw [IntervalMap.insertEntry]
      split
      · next before =>
          cases found : test entry with
          | false => simp [found]
          | true =>
              have absent : (head :: rest).find? test = none := by
                refine List.find?_eq_none.mpr fun other member holds => ?_
                have starts := same other holds found
                rcases List.mem_cons.mp member with rfl | inRest
                · omega
                · have := first other inRest
                  omega
              rw [absent, List.find?_cons, found]
              rfl
      · rw [List.find?_cons, List.find?_cons]
        cases test head with
        | true => rfl
        | false => exact ih later

/-- A lookup of the bounds finds a node that has been registered for the inserted range. -/
def Finds (inserted bounds : DriverBitRange) : Prop :=
  inserted.lower ≤ bounds.upper ∧ bounds.lower ≤ inserted.upper ∧
    inserted.lower = bounds.left ∧ inserted.upper = bounds.right

instance (inserted bounds : DriverBitRange) : Decidable (Finds inserted bounds) :=
  inferInstanceAs (Decidable (_ ∧ _))

/-- A lookup finds what it found before, and the inserted node only after that. -/
theorem lookup_insert_sorted (sorted : tracker.Sorted) (inserted : DriverBitRange) (other : Nat)
    (bounds : DriverBitRange) :
    (tracker.insert symbol inserted node).lookup other bounds =
      (tracker.lookup other bounds).or
        (if other = symbol ∧ Finds inserted bounds then some node else none) := by
  by_cases same : other = symbol
  · subst same
    simp only [lookup, insert, if_true, IntervalMap.find, IntervalMap.insert, List.find?_filter]
    rw [find?_insertEntry_sorted (sorted other)]
    · cases found : ((tracker.variableMap other).entries.find? _) with
      | some entry => rfl
      | none =>
          simp only [Option.none_or, true_and, Option.map_none, Option.map_some,
            apply_ite (Option.map Interval.value)]
          refine if_congr (decide_eq_true_iff.trans ?_) rfl rfl
          exact (and_congr decide_eq_true_iff decide_eq_true_iff).trans and_assoc
    · intro entry holds here
      simp only [decide_eq_true_eq] at holds here
      exact holds.2.1.trans here.2.1.symm
  · rw [lookup_insert_of_ne same, if_neg fun both => same both.1, Option.or_none]

end VariableTracker

/-! ## The graph -/

/-- The address of a node and, if it has bounds, its path and bounds. -/
def NetlistNode.shape (node : NetlistNode) : NodeRef × Option (String × DriverBitRange) :=
  (node.ref,
    match node.data with
    | .port _ path _ _ bounds => some (path, bounds)
    | .variable _ path _ bounds => some (path, bounds)
    | .state _ path _ bounds => some (path, bounds)
    | _ => none)

namespace NetlistGraph

variable {graph : NetlistGraph}

/-- The nodes of a task. -/
def nodesOf (graph : NetlistGraph) (task : Nat) :
    List (NodeRef × Option (String × DriverBitRange)) :=
  (graph.nodes.map NetlistNode.shape).filter fun shape => shape.1.task = task

/-- The bounds of a node are among the nodes of its task. -/
theorem getBounds_eq (graph : NetlistGraph) (ref : NodeRef) :
    graph.getBounds ref = ((graph.nodesOf ref.task).find? fun shape => shape.1 = ref).bind
      fun shape => shape.2.map Prod.snd := by
  unfold getBounds node? nodesOf
  rw [List.find?_filter, List.find?_map]
  have test : ((fun shape : NodeRef × Option (String × DriverBitRange) =>
      decide (decide (shape.1.task = ref.task) = true ∧ decide (shape.1 = ref) = true)) ∘
        NetlistNode.shape) = fun node => decide (node.ref = ref) := by
    funext node
    refine Bool.eq_iff_iff.mpr ⟨fun holds => ?_, fun same => ?_⟩
    · exact decide_eq_true (of_decide_eq_true (of_decide_eq_true holds).2)
    · exact decide_eq_true ⟨decide_eq_true (congrArg NodeRef.task (of_decide_eq_true same)), same⟩
  rw [test]
  cases graph.nodes.find? fun node => decide (node.ref = ref) with
  | none => rfl
  | some node =>
      rw [Option.map_some, Option.bind_some, Option.bind_some]
      cases data : node.data <;> simp [NetlistNode.shape, data, NodeData.getBounds]

theorem nodesOf_addNode (graph : NetlistGraph) (node : NetlistNode) (task : Nat) :
    (graph.addNode node).nodesOf task =
      graph.nodesOf task ++ if node.ref.task = task then [node.shape] else [] := by
  simp only [nodesOf, addNode, List.map_append, List.filter_append, List.map_cons, List.map_nil,
    List.filter_cons, List.filter_nil, decide_eq_true_eq]
  rfl

/-- The edges between two nodes after a dependency without a symbol. -/
def labelBetween (source target : NodeRef) (role : DependencyRole)
    (precision : DependencyPrecision) : List NetlistEdge → List NetlistEdge
  | [] => [{ source := source, target := target,
             semantics := { role := role, precision := precision } }]
  | first :: rest =>
      { first with semantics := { first.semantics with role := role, precision := precision } } ::
        rest

theorem nodes_addUnannotated (graph : NetlistGraph) (source target : NodeRef)
    (role : DependencyRole) (precision : DependencyPrecision) :
    (graph.addUnannotated source target role precision).nodes = graph.nodes := by
  have added : (graph.addEdge source target).nodes = graph.nodes := by
    unfold addEdge
    split <;> rfl
  unfold addUnannotated
  dsimp only
  split <;> exact added

/-- A dependency without a symbol acts on the edges between its two nodes, and on no other edge. -/
theorem edgesBetween_addUnannotated (graph : NetlistGraph) (source target : NodeRef)
    (role : DependencyRole) (precision : DependencyPrecision) (start finish : NodeRef) :
    (graph.addUnannotated source target role precision).edgesBetween start finish =
      if start = source ∧ finish = target then
        labelBetween source target role precision (graph.edgesBetween source target)
      else graph.edgesBetween start finish := by
  have added := edgesBetween_addEdge graph source target
  have kept : ¬ (start = source ∧ finish = target) →
      (graph.addEdge source target).edgesBetween start finish =
        graph.edgesBetween start finish := fun differ => by
    rw [added, if_neg fun all => differ ⟨all.1, all.2.1⟩]
  have ends := fun edge (edgeMem : edge ∈ (graph.addEdge source target).edgesBetween source
    target) => mem_edgesBetween.mp edgeMem
  have labelled : labelBetween source target role precision (graph.edgesBetween source target) =
      ((graph.addEdge source target).edgesBetween source target).modifyHead fun edge =>
        { edge with semantics := { edge.semantics with role := role, precision := precision } } := by
    rw [added]
    cases graph.edgesBetween source target <;> simp [labelBetween]
  unfold addUnannotated
  simp only [lookupOutEdge_eq]
  cases before : (graph.addEdge source target).edgesBetween source target with
  | nil =>
      rw [added] at before
      split at before
      · cases before
      · next absent => exact absurd ⟨rfl, rfl, before⟩ absent
  | cons first rest =>
      obtain ⟨_, firstSource, firstTarget⟩ := ends first (by simp [before])
      simp only [List.head?_cons]
      rw [edgesBetween_setEdge _ (by simp [joins_iff, firstSource, firstTarget]), before, labelled,
        before]
      split
      · rfl
      · next differ => exact kept differ

end NetlistGraph

/-! ## The nodes of a task -/

/-- The node is of the task or of the collecting phase. -/
def Near (task : Nat) (ref : NodeRef) : Prop := ref.task = task ∨ ref.task = 0

/-- An edge between a node of the task and another one or one of the collecting phase. -/
structure Owns (task : Nat) (source target : NodeRef) : Prop where
  nearSource : Near task source
  nearTarget : Near task target
  either : source.task = task ∨ target.task = task

theorem Owns.ofSource {task : Nat} {source target : NodeRef} (own : source.task = task)
    (near : Near task target) : Owns task source target :=
  ⟨Or.inl own, near, Or.inl own⟩

theorem Owns.ofTarget {task : Nat} {source target : NodeRef} (near : Near task source)
    (own : target.task = task) : Owns task source target :=
  ⟨near, Or.inl own, Or.inr own⟩

/-- An edge is owned by one task only. -/
theorem Owns.unique {task other : Nat} {source target : NodeRef} (owns : Owns task source target)
    (owned : Owns other source target) (deferred : 0 < task) : task = other := by
  rcases owns.either with rfl | rfl
  · exact owned.nearSource.resolve_right deferred.ne'
  · exact owned.nearTarget.resolve_right deferred.ne'

/--
Two graphs look the same to a task: `left`, which was `start` before, has all
that is not of the task as it was.
-/
structure GraphView (task : Nat) (start left right : NetlistGraph) : Prop where
  edges : ∀ source target, Owns task source target →
    left.edgesBetween source target = right.edgesBetween source target
  otherEdges : ∀ source target, ¬ Owns task source target →
    left.edgesBetween source target = start.edgesBetween source target
  nodes : ∀ other, other = task ∨ other = 0 → left.nodesOf other = right.nodesOf other
  otherNodes : ∀ other, other ≠ task → left.nodesOf other = start.nodesOf other

namespace GraphView

variable {task : Nat} {start left right leftNext rightNext : NetlistGraph}

theorem getBounds (view : GraphView task start left right) {ref : NodeRef} (near : Near task ref) :
    left.getBounds ref = right.getBounds ref := by
  rw [NetlistGraph.getBounds_eq, NetlistGraph.getBounds_eq, view.nodes ref.task near]

/-- Nothing but the tables is changed. -/
theorem ofTables (view : GraphView task start left right)
    (leftNodes : leftNext.nodes = left.nodes) (leftEdges : leftNext.edges = left.edges)
    (rightNodes : rightNext.nodes = right.nodes) (rightEdges : rightNext.edges = right.edges) :
    GraphView task start leftNext rightNext := by
  constructor
  · intro source target owns
    simpa only [NetlistGraph.edgesBetween, leftEdges, rightEdges] using
      view.edges source target owns
  · intro source target other
    simpa only [NetlistGraph.edgesBetween, leftEdges] using view.otherEdges source target other
  · intro other here
    simpa only [NetlistGraph.nodesOf, leftNodes, rightNodes] using view.nodes other here
  · intro other ne
    simpa only [NetlistGraph.nodesOf, leftNodes] using view.otherNodes other ne

/-- The edges between two nodes that the task owns are changed, in one way. -/
theorem ofEdges (view : GraphView task start left right) {source target : NodeRef}
    (owns : Owns task source target) (change : List NetlistEdge → List NetlistEdge)
    (leftNodes : leftNext.nodes = left.nodes) (rightNodes : rightNext.nodes = right.nodes)
    (leftEdges : ∀ first last, leftNext.edgesBetween first last =
      if first = source ∧ last = target then change (left.edgesBetween source target)
      else left.edgesBetween first last)
    (rightEdges : ∀ first last, rightNext.edgesBetween first last =
      if first = source ∧ last = target then change (right.edgesBetween source target)
      else right.edgesBetween first last) :
    GraphView task start leftNext rightNext := by
  constructor
  · intro first last here
    rw [leftEdges, rightEdges, view.edges source target owns, view.edges first last here]
  · intro first last other
    rw [leftEdges, if_neg]
    · exact view.otherEdges first last other
    · rintro ⟨rfl, rfl⟩
      exact other owns
  · intro other here
    simpa only [NetlistGraph.nodesOf, leftNodes, rightNodes] using view.nodes other here
  · intro other ne
    simpa only [NetlistGraph.nodesOf, leftNodes] using view.otherNodes other ne

theorem addDependency (view : GraphView task start left right) {dependency : Dependency}
    (owns : Owns task dependency.source dependency.target) :
    GraphView task start (left.addDependency dependency) (right.addDependency dependency) := by
  refine view.ofEdges owns
    (NetlistGraph.emitBetween dependency.source dependency.target dependency.symbol
      (NetlistGraph.clip (right.getBounds dependency.source) dependency.bounds)
      (NetlistGraph.eventSemantics dependency.semantics))
    (left.nodes_addDependency _) (right.nodes_addDependency _) (fun first last => ?_)
    (right.edgesBetween_addDependency dependency)
  rw [left.edgesBetween_addDependency, view.getBounds owns.nearSource]

theorem addUnannotated (view : GraphView task start left right) {source target : NodeRef}
    (owns : Owns task source target) (role : DependencyRole) (precision : DependencyPrecision) :
    GraphView task start (left.addUnannotated source target role precision)
      (right.addUnannotated source target role precision) :=
  view.ofEdges owns (NetlistGraph.labelBetween source target role precision)
    (left.nodes_addUnannotated ..) (right.nodes_addUnannotated ..)
    (left.edgesBetween_addUnannotated source target role precision)
    (right.edgesBetween_addUnannotated source target role precision)

/-- A node of the task is added, with the same shape. -/
theorem addNode (view : GraphView task start left right) {node other : NetlistNode}
    (own : node.ref.task = task) (same : node.shape = other.shape) :
    GraphView task start (left.addNode node) (right.addNode other) := by
  have ref : node.ref = other.ref := congrArg Prod.fst same
  refine ⟨view.edges, view.otherEdges, fun task' here => ?_, fun task' ne => ?_⟩
  · rw [NetlistGraph.nodesOf_addNode, NetlistGraph.nodesOf_addNode, view.nodes task' here, ref, same]
  · rw [NetlistGraph.nodesOf_addNode, view.otherNodes task' ne, own, if_neg ne.symm, List.append_nil]

end GraphView

/-! ## The builder -/

/--
Two variable tables look the same to a task that looks up the keys and the
ports: what it finds there is near.
-/
structure TableView (task : Nat) (keys : List (Nat × DriverBitRange)) (ports : List Nat)
    (left right : VariableTracker) : Prop where
  found : ∀ key ∈ keys, left.lookup key.1 key.2 = right.lookup key.1 key.2
  nearFound : ∀ key ∈ keys, ∀ ref, left.lookup key.1 key.2 = some ref → Near task ref
  atPorts : ∀ port ∈ ports, left.variableMap port = right.variableMap port
  nearPorts : ∀ port ∈ ports, ∀ ref ∈ left.lookupAll port, Near task ref
  leftSorted : left.Sorted
  rightSorted : right.Sorted

/--
Two builders look the same to a task: `left`, which was `start` before, and
`right`, which was `base` before.  The central driver map does not matter.
-/
structure Beside (task : Nat) (keys : List (Nat × DriverBitRange)) (ports : List Nat)
    (start base left right : NetlistBuilder) : Prop where
  graph : GraphView task start.graph left.graph right.graph
  table : TableView task keys ports left.variableTracker right.variableTracker
  queue : ∃ added, left.pendingQueue = start.pendingQueue ++ added ∧
    right.pendingQueue = base.pendingQueue ++ added

section Builder

variable {task : Nat} {keys : List (Nat × DriverBitRange)} {ports : List Nat}
  {start base left right next : NetlistBuilder} {resolveInterfaceRef : InterfaceRefs}
  {symbol : ValueSymbol} {bounds : DriverBitRange}

/-- The insertion of a node of the task looks the same, too. -/
theorem TableView.insert {left right : VariableTracker} (view : TableView task keys ports left right)
    {ref : NodeRef} (own : ref.task = task) (symbol : Nat) (bounds : DriverBitRange) :
    TableView task keys ports (left.insert symbol bounds ref) (right.insert symbol bounds ref) where
  found key member := by
    rw [VariableTracker.lookup_insert_sorted view.leftSorted,
      VariableTracker.lookup_insert_sorted view.rightSorted, view.found key member]
  nearFound key member other found := by
    rcases @VariableTracker.lookup_insert left symbol key.2 ref bounds key.1 with same | same
    · exact view.nearFound key member other (same.symm.trans found)
    · rw [same] at found
      exact Option.some.inj found ▸ Or.inl own
  atPorts port member := by
    simp only [VariableTracker.insert]
    split
    · next same => rw [← same, view.atPorts port member]
    · exact view.atPorts port member
  nearPorts port member other registered := by
    obtain ⟨entry, listed, rfl⟩ := List.mem_map.mp registered
    simp only [VariableTracker.insert] at listed
    split at listed
    · next same =>
        rcases IntervalMap.mem_insert.mp listed with rfl | old
        · exact Or.inl own
        · exact view.nearPorts port member _ (List.mem_map_of_mem (same ▸ old))
    · exact view.nearPorts port member _ (List.mem_map_of_mem listed)
  leftSorted := view.leftSorted.insert bounds
  rightSorted := view.rightSorted.insert bounds

namespace Beside

theorem withGraph (beside : Beside task keys ports start base left right)
    {leftGraph rightGraph : NetlistGraph} (graph : GraphView task start.graph leftGraph rightGraph) :
    Beside task keys ports start base { left with graph := leftGraph }
      { right with graph := rightGraph } :=
  ⟨graph, beside.table, beside.queue⟩

theorem addDependency (beside : Beside task keys ports start base left right)
    {dependency : Dependency} (owns : Owns task dependency.source dependency.target) :
    Beside task keys ports start base (left.addDependency dependency)
      (right.addDependency dependency) :=
  beside.withGraph (beside.graph.addDependency owns)

theorem internSymbol (beside : Beside task keys ports start base left right)
    (symbol : ValueSymbol) :
    Beside task keys ports start base (left.internSymbol symbol) (right.internSymbol symbol) :=
  beside.withGraph (beside.graph.ofTables (NetlistGraph.nodes_toSymbolRef _ _)
    (NetlistGraph.edges_toSymbolRef _ _) (NetlistGraph.nodes_toSymbolRef _ _)
    (NetlistGraph.edges_toSymbolRef _ _))

theorem enqueue (beside : Beside task keys ports start base left right)
    (pending : PendingRvalue) :
    Beside task keys ports start base (left.enqueue pending) (right.enqueue pending) := by
  obtain ⟨added, leftQueue, rightQueue⟩ := beside.queue
  refine ⟨beside.graph, beside.table, added ++ [pending], ?_, ?_⟩
  · simp only [NetlistBuilder.enqueue, leftQueue, List.append_assoc]
  · simp only [NetlistBuilder.enqueue, rightQueue, List.append_assoc]

/-! ## Lookups -/

theorem getVariable (beside : Beside task keys ports start base left right) {key : Nat}
    (looked : (key, bounds) ∈ keys) : left.getVariable key bounds = right.getVariable key bounds :=
  beside.table.found _ looked

theorem near_getVariable (beside : Beside task keys ports start base left right) {key : Nat}
    (looked : (key, bounds) ∈ keys) {ref : NodeRef}
    (found : left.getVariable key bounds = some ref) : Near task ref :=
  beside.table.nearFound _ looked ref found

/-- The port node is the same one, and near. -/
theorem outputPort (beside : Beside task keys ports start base left right)
    (listed : ∀ port ∈ symbol.portBackrefs, port ∈ ports) (bounds : DriverBitRange) :
    left.outputPort symbol bounds = right.outputPort symbol bounds ∧
      ∀ ref, left.outputPort symbol bounds = some ref → Near task ref := by
  unfold NetlistBuilder.outputPort
  match single : symbol.portBackrefs with
  | [] => exact ⟨rfl, fun ref found => by cases found⟩
  | _ :: _ :: _ => exact ⟨rfl, fun ref found => by cases found⟩
  | [port] =>
      have member : port ∈ ports := listed port (by rw [single]; exact List.mem_singleton_self port)
      have same := beside.table.atPorts port member
      have registered := beside.table.nearPorts port member
      have looked : left.getVariable port bounds = right.getVariable port bounds := by
        simp only [NetlistBuilder.getVariable, VariableTracker.lookup, same]
      have all : left.variableTracker.lookupAll port = right.variableTracker.lookupAll port := by
        simp only [VariableTracker.lookupAll, same]
      dsimp only
      constructor
      · rw [looked, ← all]
        congr 1
        exact List.find?_congr fun ref inTable => by
          rw [beside.graph.getBounds (registered ref inTable)]
      · intro ref found
        rcases Option.or_eq_some_iff.mp found with exactly | ⟨_, containing⟩
        · exact registered ref (List.mem_map_of_mem (VariableTracker.mem_of_lookup exactly))
        · exact registered ref (List.mem_of_find?_eq_some containing)

end Beside

end Builder

end SlangNetlist
