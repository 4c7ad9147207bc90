import SlangNetlist.Library.Worklist
import SlangNetlist.Query.ConstantDrivers
import SlangNetlist.Query.PathQuery

/-!
# Fan-in, fan-out and sensitivity

The cones of a signal are grown by a worklist from its drivers or consumers, and
the sensitivity of a node is collected at the registers that it reaches.
-/

namespace SlangNetlist

open Library

/-- A clock or reset with its edge kind. -/
structure SensitivitySource where
  source : NodeRef
  edgeKind : EdgeKind
  deriving DecidableEq, Repr

/-- The state of the walk of `getSensitivity`: the top of the stack is the first of the list. -/
structure SensitivityWalk where
  visited : List NodeRef
  stack : List NodeRef
  result : List SensitivitySource
  deriving DecidableEq, Repr

namespace NetlistGraph

variable (graph : NetlistGraph)

/-- `getInEdges`. -/
def inEdges (target : NodeRef) : List NetlistEdge :=
  graph.edges.filter fun edge => edge.target = target

/-! ## The fan-out of a node -/

/-- `CombFanPredicate`: an enabled edge, not into a register. -/
def combFanForward (edge : NetlistEdge) : Bool :=
  !edge.disabled && graph.kindOf edge.target != .state

def getCombFanOut (linked : graph.Linked) (node : NodeRef) : Option (List NodeRef) :=
  (DepthFirstSearch.traverse (graph.directed linked) .forward CollectVisitor graph.combFanForward
    [] node).map DepthFirstSearch.visitor

/-! ## The cones of a signal -/

/-- The sources of the enabled edges into a node that is not a register. -/
def combSources (node : NodeRef) : List NodeRef :=
  if graph.kindOf node = .state then []
  else ((graph.inEdges node).filter fun edge => !edge.disabled).map NetlistEdge.source

/-- The targets of the enabled edges out of a node that do not lead into registers. -/
def combTargets (node : NodeRef) : List NodeRef :=
  ((graph.outEdges node).filter graph.combFanForward).map NetlistEdge.target

/-- The worklist of both cones, from seeds without duplicates. -/
def signalCone (successors : NodeRef → List NodeRef) (maxDepth : Nat) (seeds : List NodeRef) :
    Option (List NodeRef) :=
  levels successors maxDepth graph.nodes.length (seeds.map fun node => (node, 0)) seeds

/-- The drivers from which the fan-in of a signal is collected. -/
def fanInSeeds (addresses : Addresses) (name : String) (bounds : DriverBitRange) :
    List NodeRef :=
  unseen [] ((graph.getBitDrivers addresses name bounds).map Prod.snd)

def getSignalCombFanIn (addresses : Addresses) (name : String) (bounds : DriverBitRange)
    (maxDepth : Nat) : Option (List NodeRef) :=
  graph.signalCone graph.combSources maxDepth (graph.fanInSeeds addresses name bounds)

/-- The consumers from which the fan-out of a signal is collected. -/
def fanOutSeeds (name : String) (bounds : DriverBitRange) : List NodeRef :=
  unseen [] (((graph.edgesOfSymbol name).filter fun edge =>
    !edge.disabled && edge.bounds.overlaps bounds).map NetlistEdge.target)

def getSignalCombFanOut (name : String) (bounds : DriverBitRange) (maxDepth : Nat) :
    Option (List NodeRef) :=
  graph.signalCone graph.combTargets maxDepth (graph.fanOutSeeds name bounds)

/-! ## Sensitivity -/

/-- Add the clocks and resets of a register. -/
def collectFromState (state : NodeRef) (result : List SensitivitySource) :
    List SensitivitySource :=
  (graph.inEdges state).foldl (fun result edge =>
    let source : SensitivitySource := ⟨edge.source, edge.semantics.edgeKind⟩
    if edge.disabled = true ∨ edge.semantics.edgeKind = .none then result
    else if source ∈ result then result
    else result ++ [source]) result

/-- One out-edge of the current node. -/
def lookAt (walk : SensitivityWalk) (edge : NetlistEdge) : SensitivityWalk :=
  if edge.disabled then walk
  else if graph.kindOf edge.target = .state then
    { walk with result := graph.collectFromState edge.target walk.result }
  else if edge.target ∈ walk.visited then walk
  else { walk with visited := edge.target :: walk.visited, stack := edge.target :: walk.stack }

/-- The walk until the stack is empty, `none` when the fuel does not suffice. -/
def sensitivityLoop : Nat → SensitivityWalk → Option (List SensitivitySource)
  | _, ⟨_, [], result⟩ => some result
  | 0, ⟨_, _ :: _, _⟩ => none
  | fuel + 1, ⟨visited, cur :: rest, result⟩ =>
      sensitivityLoop fuel ((graph.outEdges cur).foldl graph.lookAt ⟨visited, rest, result⟩)

def getSensitivity (node : NodeRef) : Option (List SensitivitySource) :=
  if graph.kindOf node = .state then some (graph.collectFromState node [])
  else graph.sensitivityLoop graph.nodes.length ⟨[node], [node], []⟩

/-! ## The queries end -/

variable {graph} {node other : NodeRef} {addresses : Addresses} {name : String}
  {bounds : DriverBitRange}

/-- The fan-out is found, each node once. -/
theorem exists_getCombFanOut (graph : NetlistGraph) (linked : graph.Linked) (node : NodeRef) :
    ∃ fanOut, graph.getCombFanOut linked node = some fanOut ∧ fanOut.Nodup ∧
      ∀ other, other ∈ fanOut ↔ graph.Reaches graph.combFanForward node other := by
  obtain ⟨fanOut, found, nodup, members⟩ :=
    exists_collected (graph.directed linked) .forward graph.combFanForward node
  exact ⟨fanOut, found, nodup, fun other => (members other).trans reachable_iff⟩

theorem mem_combSources : other ∈ graph.combSources node ↔
    graph.kindOf node ≠ .state ∧ ∃ edge ∈ graph.edges, edge.disabled = false ∧
      edge.target = node ∧ edge.source = other := by
  unfold combSources
  split
  · next register => simp [register]
  · next combinational =>
      simp only [inEdges, List.mem_map, List.mem_filter, decide_eq_true_eq, Bool.not_eq_true',
        combinational, ne_eq, not_false_eq_true, true_and]
      constructor
      · rintro ⟨edge, ⟨⟨member, target⟩, enabled⟩, source⟩
        exact ⟨edge, member, enabled, target, source⟩
      · rintro ⟨edge, member, enabled, target, source⟩
        exact ⟨edge, ⟨⟨member, target⟩, enabled⟩, source⟩

/-- The seeds of the fan-in are the drivers of the range. -/
theorem mem_fanInSeeds (linked : graph.Linked) :
    other ∈ graph.fanInSeeds addresses name bounds ↔ graph.Drives name (some bounds) other := by
  rw [fanInSeeds, mem_unseen, and_iff_left List.not_mem_nil, ← mem_drivers linked, drivers,
    List.mem_eraseDups]
  rfl

/-- The seeds of the fan-out are the consumers of the range. -/
theorem mem_fanOutSeeds (linked : graph.Linked) :
    other ∈ graph.fanOutSeeds name bounds ↔ graph.Consumes name (some bounds) other := by
  rw [fanOutSeeds, mem_unseen, and_iff_left List.not_mem_nil, ← mem_consumers linked, consumers,
    List.mem_eraseDups]
  rfl

/-- A cone within the nodes of the graph ends with the nodes within the bound, each once. -/
theorem exists_signalCone {successors : NodeRef → List NodeRef} {seeds : List NodeRef}
    (inside : ∀ node next, next ∈ successors node → graph.HasNode next)
    (seeded : ∀ node ∈ seeds, graph.HasNode node) (nodup : seeds.Nodup) (maxDepth : Nat) :
    ∃ cone, graph.signalCone successors maxDepth seeds = some cone ∧ cone.Nodup ∧
      Reported successors seeds maxDepth cone := by
  have found := @exists_levels_seeds _ _ successors seeds (graph.nodes.map NetlistNode.ref)
    (fun node _ next member => inside node next member) seeded nodup maxDepth
  rw [List.length_map] at found
  exact found

theorem exists_getSignalCombFanIn (linked : graph.Linked) (addresses : Addresses) (name : String)
    (bounds : DriverBitRange) (maxDepth : Nat) :
    ∃ cone, graph.getSignalCombFanIn addresses name bounds maxDepth = some cone ∧ cone.Nodup ∧
      Reported graph.combSources (graph.fanInSeeds addresses name bounds) maxDepth cone := by
  refine exists_signalCone (fun node next member => ?_) (fun node member => ?_)
    (nodup_unseen _ _) maxDepth
  · obtain ⟨_, edge, edgeMem, _, _, rfl⟩ := mem_combSources.mp member
    exact (linked.ends edge edgeMem).1
  · obtain ⟨edge, edgeMem, _, _, rfl⟩ := (mem_fanInSeeds linked).mp member
    exact (linked.ends edge edgeMem).1

theorem exists_getSignalCombFanOut (linked : graph.Linked) (name : String)
    (bounds : DriverBitRange) (maxDepth : Nat) :
    ∃ cone, graph.getSignalCombFanOut name bounds maxDepth = some cone ∧ cone.Nodup ∧
      Reported graph.combTargets (graph.fanOutSeeds name bounds) maxDepth cone := by
  refine exists_signalCone (fun node next member => ?_) (fun node member => ?_)
    (nodup_unseen _ _) maxDepth
  · obtain ⟨edge, edgeMem, rfl⟩ := List.mem_map.mp member
    exact (linked.ends edge (List.mem_of_mem_filter (List.mem_of_mem_filter edgeMem))).2
  · obtain ⟨edge, edgeMem, _, _, _, rfl⟩ := (mem_fanOutSeeds linked).mp member
    exact (linked.ends edge edgeMem).2

/-- The visited nodes are distinct nodes of the graph, and those on the stack are among them. -/
structure Walked (graph : NetlistGraph) (fuel : Nat) (walk : SensitivityWalk) : Prop where
  inside : ∀ node ∈ walk.visited, graph.HasNode node
  nodup : walk.visited.Nodup
  enough : walk.stack.length + graph.nodes.length ≤ fuel + walk.visited.length

/-- An edge to a new node adds one to the stack and to the visited nodes. -/
theorem Walked.lookAt {fuel : Nat} {walk : SensitivityWalk} (linked : graph.Linked)
    (walked : Walked graph fuel walk) {edge : NetlistEdge} (member : edge ∈ graph.edges) :
    Walked graph fuel (graph.lookAt walk edge) := by
  unfold NetlistGraph.lookAt
  split
  · exact walked
  · split
    · exact ⟨walked.inside, walked.nodup, walked.enough⟩
    · split
      · exact walked
      · next fresh =>
          refine ⟨?_, List.nodup_cons.mpr ⟨fresh, walked.nodup⟩, ?_⟩
          · rintro node (_ | ⟨_, old⟩)
            · exact (linked.ends edge member).2
            · exact walked.inside node old
          · have := walked.enough
            simp only [List.length_cons]
            omega

theorem exists_sensitivityLoop (linked : graph.Linked) {fuel : Nat} {walk : SensitivityWalk}
    (walked : Walked graph fuel walk) : ∃ result, graph.sensitivityLoop fuel walk = some result := by
  induction fuel generalizing walk with
  | zero =>
      obtain ⟨visited, stack, result⟩ := walk
      cases stack with
      | nil => exact ⟨result, rfl⟩
      | cons cur rest =>
          have shorter := (List.subperm_of_subset walked.nodup
            (show visited ⊆ graph.nodes.map NetlistNode.ref from walked.inside)).length_le
          have := walked.enough
          simp only [List.length_cons, List.length_map] at this shorter
          omega
  | succ fuel ih =>
      obtain ⟨visited, stack, result⟩ := walk
      cases stack with
      | nil => exact ⟨result, rfl⟩
      | cons cur rest =>
          have taken : Walked graph fuel ⟨visited, rest, result⟩ := by
            refine ⟨walked.inside, walked.nodup, ?_⟩
            have := walked.enough
            simp only [List.length_cons] at this ⊢
            omega
          rw [sensitivityLoop]
          refine ih (List.foldlRecOn (graph.outEdges cur) graph.lookAt taken
            fun walk later edge member => later.lookAt linked (List.mem_of_mem_filter member))

theorem exists_getSensitivity (linked : graph.Linked) (present : graph.HasNode node) :
    ∃ result, graph.getSensitivity node = some result := by
  unfold getSensitivity
  split
  · exact ⟨_, rfl⟩
  · refine exists_sensitivityLoop linked ⟨?_, List.nodup_singleton node, ?_⟩
    · rintro other (_ | ⟨_, absurdity⟩)
      · exact present
      · cases absurdity
    · simp [Nat.add_comm]

end NetlistGraph

end SlangNetlist
