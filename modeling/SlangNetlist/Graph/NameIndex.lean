import SlangNetlist.Common.Wildcard
import SlangNetlist.Graph.NetlistGraph
import SlangNetlist.Library.GroupedIndex
import SlangNetlist.Library.GuardedRun
import SlangNetlist.Library.PartialMap

/-!
# The name index

The lookups by name go through an index that the first of them builds.  Nodes
are added and removed through the base class, which does not know the index.
Graph construction and deserialisation are runs that add nodes and edges.
-/

namespace SlangNetlist

open Library

/-- The order in which an `unordered_map` visits its entries. -/
structure HashOrder where
  iterate : List (String × List NodeRef) → List (String × List NodeRef)
  perm : ∀ entries, (iterate entries).Perm entries

namespace NetlistGraph

variable (graph : NetlistGraph)

/-- The nodes with a hierarchical path, in node order. -/
def namedNodes : List (String × NodeRef) :=
  graph.nodes.filterMap fun node => node.data.getHierarchicalPath.map fun path => (path, node.ref)

/-- A scan of the node list for a path. -/
def scan (name : String) : List NodeRef := valuesOf graph.namedNodes name

/-- Remove a node with the edges at it; `false` if there is none. -/
def removeNode (ref : NodeRef) : Bool × NetlistGraph :=
  if graph.nodes.any fun node => node.ref = ref then
    (true, { graph with
      nodes := graph.nodes.eraseP fun node => node.ref = ref
      edges := graph.edges.filter fun edge => edge.source ≠ ref ∧ edge.target ≠ ref })
  else (false, graph)

end NetlistGraph

/-- A graph with its index from names to nodes. -/
structure IndexedGraph where
  graph : NetlistGraph := {}
  indexBuilt : Bool := false
  nodeIndex : List (String × List NodeRef) := []
  deriving DecidableEq, Repr

namespace IndexedGraph

variable (state : IndexedGraph)

def buildIndex : IndexedGraph :=
  if state.indexBuilt then state
  else { state with
    nodeIndex := state.graph.nodes.foldl (fun index node =>
      match node.data.getHierarchicalPath with
      | some path => pushBack path node.ref index
      | none => index) state.nodeIndex
    indexBuilt := true }

def lookup (name : String) : Option NodeRef × IndexedGraph :=
  let state := state.buildIndex
  ((findBucket state.nodeIndex name).bind List.head?, state)

def lookupAll (name : String) : List NodeRef × IndexedGraph :=
  let state := state.buildIndex
  ((findBucket state.nodeIndex name).getD [], state)

/-- The nodes whose bounds overlap a range; `none` when a pointer dangles. -/
def overlapping (bounds : DriverBitRange) : List NodeRef → Option (List NodeRef)
  | [] => some []
  | ref :: rest => do
      let node ← state.graph.node? ref
      let result ← overlapping bounds rest
      match node.data.getBounds with
      | some nodeBounds => some (if nodeBounds.overlaps bounds then ref :: result else result)
      | none => some result

/-- `lookup` with a range. -/
def lookupRange (name : String) (bounds : DriverBitRange) :
    Option (List NodeRef) × IndexedGraph :=
  let state := state.buildIndex
  (state.overlapping bounds ((findBucket state.nodeIndex name).getD []), state)

def findNodes (order : HashOrder) (pattern : String) : List NodeRef × IndexedGraph :=
  let state := state.buildIndex
  (((order.iterate state.nodeIndex).filter fun entry =>
      Wildcard.wildcardMatch (Wildcard.cStr entry.1) (Wildcard.cStr pattern) = some true).flatMap
    Prod.snd, state)

/-- The calls on a graph. -/
inductive Call where
  | addNode (node : NetlistNode)
  | addEdge (edge : NetlistEdge)
  | removeNode (ref : NodeRef)
  | lookup (name : String)
  | lookupAll (name : String)
  | lookupRange (name : String) (bounds : DriverBitRange)
  | findNodes (pattern : String)
  deriving DecidableEq, Repr

/-- A call; a new node is at an address that is not in use. -/
def step (order : HashOrder) (state : IndexedGraph) : Call → Option IndexedGraph
  | .addNode node =>
      if state.graph.nodes.any fun other => other.ref = node.ref then none
      else some { state with graph := state.graph.addNode node }
  | .addEdge edge =>
      some { state with graph := { state.graph with edges := state.graph.edges ++ [edge] } }
  | .removeNode ref => some { state with graph := (state.graph.removeNode ref).2 }
  | .lookup name => some (state.lookup name).2
  | .lookupAll name => some (state.lookupAll name).2
  | .lookupRange name bounds => some (state.lookupRange name bounds).2
  | .findNodes pattern => some (state.findNodes order pattern).2

/-- Every lookup answers as a scan of the nodes that are in the graph. -/
structure LookupsExact (order : HashOrder) (state : IndexedGraph) : Prop where
  lookup : ∀ name, (state.lookup name).1 = (state.graph.scan name).head?
  lookupAll : ∀ name, (state.lookupAll name).1 = state.graph.scan name
  lookupRange : ∀ name bounds, (state.lookupRange name bounds).1 =
    some ((state.graph.scan name).filter fun ref =>
      ((state.graph.getBounds ref).map fun nodeBounds => nodeBounds.overlaps bounds).getD false)
  findNodes : ∀ pattern, ∃ names : List String, names.Nodup ∧
    (∀ name, name ∈ names ↔ (∃ ref, ref ∈ state.graph.scan name) ∧
      Wildcard.wildcardMatch (Wildcard.cStr name) (Wildcard.cStr pattern) = some true) ∧
    (state.findNodes order pattern).1 = names.flatMap state.graph.scan

/-- The call adds or removes no node with a path, or no lookup came before it. -/
def Harmless (state : IndexedGraph) (call : Call) : Prop :=
  state.indexBuilt = true →
    match call with
    | .addNode node => node.data.getHierarchicalPath = none
    | .removeNode ref => ∀ node, state.graph.node? ref = some node →
        node.data.getHierarchicalPath = none
    | _ => True

/-- What every run keeps: addresses are distinct and an index not yet built is empty. -/
structure Valid (state : IndexedGraph) : Prop where
  distinct : (state.graph.nodes.map NetlistNode.ref).Nodup
  unbuilt : state.indexBuilt = false → state.nodeIndex = []

/-- A built index agrees with the nodes of the graph. -/
def InStep (state : IndexedGraph) : Prop :=
  state.indexBuilt = true → Indexes state.graph.namedNodes state.nodeIndex

variable {state next : IndexedGraph} {order : HashOrder} {call : Call}

theorem indexes_foldl (nodes : List NetlistNode) {pairs : List (String × NodeRef)}
    {index : List (String × List NodeRef)} (indexes : Indexes pairs index) :
    Indexes (pairs ++ nodes.filterMap fun node =>
        node.data.getHierarchicalPath.map fun path => (path, node.ref))
      (nodes.foldl (fun index node =>
        match node.data.getHierarchicalPath with
        | some path => pushBack path node.ref index
        | none => index) index) := by
  induction nodes generalizing pairs index with
  | nil => simpa using indexes
  | cons node rest ih =>
      rw [List.foldl_cons, List.filterMap_cons]
      cases node.data.getHierarchicalPath with
      | none => exact ih indexes
      | some path => simpa using ih (indexes.pushBack path node.ref)

@[simp] theorem buildIndex_graph : state.buildIndex.graph = state.graph := by
  unfold buildIndex
  split <;> rfl

@[simp] theorem buildIndex_indexBuilt : state.buildIndex.indexBuilt = true := by
  unfold buildIndex
  split
  · assumption
  · rfl

/-- Once built, the index stays. -/
theorem buildIndex_of_built (built : state.indexBuilt = true) : state.buildIndex = state := by
  simp [buildIndex, built]

/-- After a lookup the index agrees with the graph, if it did so before. -/
theorem indexes_buildIndex (valid : state.Valid) (inStep : state.InStep) :
    Indexes state.graph.namedNodes state.buildIndex.nodeIndex := by
  unfold buildIndex
  split
  · next built => exact inStep built
  · next unbuilt =>
      have empty := valid.unbuilt (by simpa using unbuilt)
      simpa [empty, NetlistGraph.namedNodes] using
        indexes_foldl state.graph.nodes indexes_nil

theorem Valid.buildIndex (valid : state.Valid) : state.buildIndex.Valid :=
  ⟨by simpa using valid.distinct, fun unbuilt => by simp at unbuilt⟩

theorem InStep.buildIndex (valid : state.Valid) (inStep : state.InStep) :
    state.buildIndex.InStep :=
  fun _ => by simpa using indexes_buildIndex valid inStep

/-! ## Scans -/

section Scans

variable {graph : NetlistGraph} {node : NetlistNode} {ref : NodeRef} {name : String}

theorem exists_node_of_mem_scan (member : ref ∈ graph.scan name) :
    ∃ node, graph.node? ref = some node := by
  obtain ⟨found, foundMem, named⟩ := List.mem_filterMap.mp (mem_valuesOf.mp member)
  obtain ⟨path, _, same⟩ := Option.map_eq_some_iff.mp named
  cases same
  cases present : graph.node? found.ref with
  | some node => exact ⟨node, rfl⟩
  | none => exact absurd (List.find?_eq_none.mp present found foundMem) (by simp)

theorem namedNodes_addNode : (graph.addNode node).namedNodes = graph.namedNodes ++
    [node].filterMap fun node => node.data.getHierarchicalPath.map fun path => (path, node.ref) := by
  simp only [NetlistGraph.namedNodes, NetlistGraph.addNode, List.filterMap_append]

/-- The removed node is the one that the address finds. -/
theorem split_of_node? (found : graph.node? ref = some node) : ∃ front back,
    graph.nodes = front ++ node :: back ∧ (graph.removeNode ref).2.nodes = front ++ back := by
  have isRef : node.ref = ref := by simpa using List.find?_some found
  have member := List.mem_of_find?_eq_some found
  obtain ⟨first, front, back, none, isFirst, split, erased⟩ :=
    List.exists_of_eraseP (p := fun node : NetlistNode => decide (node.ref = ref)) member
      (by simpa using isRef)
  have same : first = node := by
    have found := found
    rw [NetlistGraph.node?, split, List.find?_append, List.find?_eq_none.mpr (by simpa using none),
      Option.none_or] at found
    simpa [isFirst] using found
  have present : (graph.nodes.any fun node => node.ref = ref) = true :=
    List.any_eq_true.mpr ⟨node, member, by simpa using isRef⟩
  refine ⟨front, back, same ▸ split, ?_⟩
  simp only [NetlistGraph.removeNode, present, if_true]
  exact erased

theorem removeNode_of_node?_eq_none (absent : graph.node? ref = none) :
    (graph.removeNode ref).2 = graph := by
  have notAny : ¬ (graph.nodes.any fun node => node.ref = ref) = true := by
    simpa [NetlistGraph.node?] using absent
  simp only [NetlistGraph.removeNode, notAny, if_false, Bool.false_eq_true]

end Scans

/-! ## Exact lookups -/

theorem overlapping_eq {bounds : DriverBitRange} {refs : List NodeRef}
    (present : ∀ ref ∈ refs, ∃ node, state.graph.node? ref = some node) :
    state.overlapping bounds refs = some (refs.filter fun ref =>
      ((state.graph.getBounds ref).map fun nodeBounds => nodeBounds.overlaps bounds).getD false) := by
  induction refs with
  | nil => rfl
  | cons ref rest ih =>
      obtain ⟨⟨node, found⟩, restPresent⟩ := List.forall_mem_cons.mp present
      have bounded : state.graph.getBounds ref = node.data.getBounds := by
        simp [NetlistGraph.getBounds, found]
      simp only [overlapping, found, ih restPresent, Option.bind_eq_bind, Option.bind_some,
        List.filter_cons, bounded]
      cases node.data.getBounds with
      | none => simp
      | some nodeBounds => cases nodeBounds.overlaps bounds <;> simp

/-- While the index agrees with the graph, the lookups are exact. -/
theorem InStep.lookupsExact (valid : state.Valid) (inStep : state.InStep) (order : HashOrder) :
    state.LookupsExact order := by
  have indexes := indexes_buildIndex valid inStep
  refine ⟨fun name => ?_, fun name => ?_, fun name bounds => ?_, fun pattern => ?_⟩
  · have scanned : _ = state.graph.scan name := indexes.findBucket name
    simp only [lookup, ← scanned]
    cases findBucket state.buildIndex.nodeIndex name <;> rfl
  · exact indexes.findBucket name
  · have scanned : _ = state.graph.scan name := indexes.findBucket name
    simp only [lookupRange, scanned]
    simpa using @overlapping_eq state.buildIndex bounds _
      (by simpa using fun ref => @exists_node_of_mem_scan state.graph ref name)
  · have iterated := order.perm state.buildIndex.nodeIndex
    refine ⟨((order.iterate state.buildIndex.nodeIndex).filter fun entry =>
      Wildcard.wildcardMatch (Wildcard.cStr entry.1) (Wildcard.cStr pattern) = some true).map
        Prod.fst, ?_, fun name => ?_, ?_⟩
    · exact ((iterated.map Prod.fst).nodup_iff.mpr indexes.nodup).sublist
        (List.filter_sublist.map Prod.fst)
    · have known := indexes.keys name
      simp only [List.mem_map, List.mem_filter, iterated.mem_iff, decide_eq_true_eq] at known ⊢
      simp only [NetlistGraph.scan, mem_valuesOf, ← known]
      constructor
      · rintro ⟨entry, ⟨member, matching⟩, rfl⟩
        exact ⟨⟨entry, member, rfl⟩, matching⟩
      · rintro ⟨⟨entry, member, rfl⟩, matching⟩
        exact ⟨entry, ⟨member, matching⟩, rfl⟩
    · rw [List.flatMap_map]
      refine List.flatMap_congr fun entry member => ?_
      exact indexes.bucket entry (iterated.mem_iff.mp (List.mem_of_mem_filter member))

/-! ## Steps -/

theorem step_addNode {node : NetlistNode} (stepped : step order state (.addNode node) = some next) :
    (∀ other ∈ state.graph.nodes, other.ref ≠ node.ref) ∧
      next = { state with graph := state.graph.addNode node } := by
  simp only [step, Option.ite_none_left_eq_some, Option.some.injEq, List.any_eq_true,
    decide_eq_true_eq, not_exists, not_and] at stepped
  exact ⟨stepped.1, stepped.2.symm⟩

theorem Valid.step (valid : state.Valid) (stepped : step order state call = some next) :
    next.Valid := by
  cases call with
  | addNode node =>
      obtain ⟨fresh, rfl⟩ := step_addNode stepped
      refine ⟨?_, valid.unbuilt⟩
      simp only [NetlistGraph.addNode, List.map_append, List.map_cons, List.map_nil]
      refine List.nodup_append.mpr ⟨valid.distinct, List.nodup_singleton _, ?_⟩
      rintro _ old _ new
      obtain ⟨other, member, rfl⟩ := List.mem_map.mp old
      exact (List.mem_singleton.mp new) ▸ fresh other member
  | removeNode ref =>
      cases stepped
      refine ⟨?_, valid.unbuilt⟩
      cases found : state.graph.node? ref with
      | none => simpa only [removeNode_of_node?_eq_none found] using valid.distinct
      | some node =>
          obtain ⟨front, back, split, left⟩ := split_of_node? found
          have distinct := valid.distinct
          rw [split] at distinct
          simp only [left]
          exact distinct.sublist
            (((List.sublist_cons_self node back).append_left front).map NetlistNode.ref)
  | addEdge edge =>
      cases stepped
      exact ⟨valid.distinct, valid.unbuilt⟩
  | lookup name =>
      cases stepped
      exact valid.buildIndex
  | lookupAll name =>
      cases stepped
      exact valid.buildIndex
  | lookupRange name bounds =>
      cases stepped
      exact valid.buildIndex
  | findNodes pattern =>
      cases stepped
      exact valid.buildIndex

/-- A harmless call keeps the index in step. -/
theorem InStep.step (valid : state.Valid) (inStep : state.InStep)
    (harmless : state.Harmless call) (stepped : step order state call = some next) :
    next.InStep := by
  cases call with
  | addNode node =>
      obtain ⟨_, rfl⟩ := step_addNode stepped
      intro built
      have pathless : node.data.getHierarchicalPath = none := harmless built
      rw [namedNodes_addNode]
      simpa [pathless] using inStep built
  | removeNode ref =>
      cases stepped
      intro built
      cases found : state.graph.node? ref with
      | none => simpa only [removeNode_of_node?_eq_none found] using inStep built
      | some node =>
          have pathless := harmless built node found
          obtain ⟨front, back, split, left⟩ := split_of_node? found
          have same : (state.graph.removeNode ref).2.namedNodes = state.graph.namedNodes := by
            simp [NetlistGraph.namedNodes, left, split, pathless]
          simpa only [same] using inStep built
  | addEdge edge =>
      cases stepped
      exact inStep
  | lookup name =>
      cases stepped
      exact inStep.buildIndex valid
  | lookupAll name =>
      cases stepped
      exact inStep.buildIndex valid
  | lookupRange name bounds =>
      cases stepped
      exact inStep.buildIndex valid
  | findNodes pattern =>
      cases stepped
      exact inStep.buildIndex valid

/-- Before and after a call that adds or removes a node with a path, the same
index cannot give both scans. -/
theorem harmless_of_lookupsExact (exact : state.LookupsExact order)
    (nextExact : next.LookupsExact order) (stepped : step order state call = some next) :
    state.Harmless call := by
  intro built
  -- A built index answers for both graphs.
  have scans (graph : NetlistGraph) (same : next = { state with graph := graph }) (name : String) :
      (graph.scan name).length = (state.graph.scan name).length := by
    have before := exact.lookupAll name
    have after := nextExact.lookupAll name
    subst same
    simp only [IndexedGraph.lookupAll, buildIndex_of_built built] at before
    rw [IndexedGraph.lookupAll, buildIndex_of_built (by exact built)] at after
    rw [← before, ← after]
  cases call with
  | addNode node =>
      obtain ⟨_, same⟩ := step_addNode stepped
      cases named : node.data.getHierarchicalPath with
      | none => exact named
      | some path =>
          have longer := scans _ same path
          rw [NetlistGraph.scan, namedNodes_addNode, valuesOf_append] at longer
          simp [named, valuesOf, NetlistGraph.scan] at longer
  | removeNode ref =>
      intro node found
      cases named : node.data.getHierarchicalPath with
      | none => rfl
      | some path =>
          have shorter := scans _ (Option.some.inj stepped).symm path
          obtain ⟨front, back, split, left⟩ := split_of_node? found
          simp [NetlistGraph.scan, NetlistGraph.namedNodes, left, split, named, valuesOf] at shorter
  | _ => trivial

/-! ## Runs -/

theorem valid_start : (({} : IndexedGraph)).Valid := ⟨List.nodup_nil, fun _ => rfl⟩

/-- After a run of harmless calls the index agrees with the graph. -/
theorem inStep_of_harmless {calls : List Call}
    (run : GuardedRun (step order) Harmless {} calls state) : state.Valid ∧ state.InStep := by
  refine @GuardedRun.invariant _ _ _ _ _ _ _ (fun state => state.Valid ∧ state.InStep)
    ⟨valid_start, fun built => nomatch built⟩ ?_ run
  rintro state call next ⟨valid, inStep⟩ harmless stepped
  exact ⟨valid.step stepped, inStep.step valid harmless stepped⟩

/--
In a run the lookups are exact in every state if and only if no call after the
first lookup adds or removes a node with a path.
-/
theorem lookupsExact_iff_harmless (order : HashOrder) (calls : List Call) (final : IndexedGraph)
    (run : Run (step order) {} calls final) :
    (∀ front back state, calls = front ++ back → Run (step order) {} front state →
        state.LookupsExact order) ↔
      ∀ front call back state, calls = front ++ call :: back →
        Run (step order) {} front state → state.Harmless call := by
  constructor
  · intro exact front call back state split reached
    have folded := run.folded
    rw [split, List.foldlM_append, reached.folded] at folded
    obtain ⟨next, stepped, _⟩ := foldlM_cons_eq_some.mp folded
    exact harmless_of_lookupsExact (exact front (call :: back) state split reached)
      (exact (front ++ [call]) back next (by simp [split]) (reached.snoc trivial stepped)) stepped
  · intro harmless front back state split reached
    have guarded : GuardedRun (step order) Harmless {} front state := by
      refine .of_foldlM_of_forall reached.folded fun earlier call later middle splitFront
        middleReached => ?_
      refine harmless earlier call (later ++ back) middle (by simp [split, splitFront]) ?_
      exact .of_foldlM_of_forall middleReached fun _ _ _ _ _ _ => trivial
    obtain ⟨valid, inStep⟩ := inStep_of_harmless guarded
    exact inStep.lookupsExact valid order

/-- Entries are visited in the order of insertion. -/
def insertionOrder : HashOrder := ⟨id, fun _ => .refl _⟩

/-- A variable `a` of the top level. -/
def variableA : NetlistNode := ⟨⟨0, .variable, 0⟩, 1, .variable "a" "top.a" {} {}⟩

/-- The run ends in a graph with a node that the index lists. -/
def builtGraph : IndexedGraph where
  graph := { nodes := [variableA] }
  indexBuilt := true
  nodeIndex := [("top.a", [⟨0, .variable, 0⟩])]

theorem run_builtGraph :
    Run (step insertionOrder) {} [.addNode variableA, .lookup "top.a"] builtGraph :=
  .of_foldlM_of_forall rfl fun _ _ _ _ _ _ => trivial

theorem lookupsExact_iff_harmless_builtGraph :
    (∀ front back state, [Call.addNode variableA, .lookup "top.a"] = front ++ back →
        Run (step insertionOrder) {} front state → state.LookupsExact insertionOrder) ↔
      ∀ front call back state, [Call.addNode variableA, .lookup "top.a"] = front ++ call :: back →
        Run (step insertionOrder) {} front state → state.Harmless call :=
  lookupsExact_iff_harmless insertionOrder _ builtGraph run_builtGraph

/--
A node added behind the first lookup is not found, and a node removed behind it
is still returned.
-/
theorem lookups_stale :
    (∃ state, Run (step insertionOrder) {} [.lookup "top.a", .addNode variableA] state ∧
      (state.lookupAll "top.a").1 = [] ∧ state.graph.scan "top.a" = [⟨0, .variable, 0⟩]) ∧
    (∃ state, Run (step insertionOrder) {}
        [.addNode variableA, .lookup "top.a", .removeNode ⟨0, .variable, 0⟩] state ∧
      (state.lookupAll "top.a").1 = [⟨0, .variable, 0⟩] ∧ state.graph.nodes = [] ∧
      (state.lookupRange "top.a" {}).1 = none) :=
  ⟨⟨{ graph := { nodes := [variableA] }, indexBuilt := true },
      .of_foldlM_of_forall rfl fun _ _ _ _ _ _ => trivial, by decide +kernel, by decide +kernel⟩,
    ⟨{ builtGraph with graph := {} },
      .of_foldlM_of_forall rfl fun _ _ _ _ _ _ => trivial, by decide +kernel, by decide +kernel,
      by decide +kernel⟩⟩

end IndexedGraph

end SlangNetlist
