import SlangNetlist.Driver.NameAndRange
import SlangNetlist.Graph.NameIndex
import SlangNetlist.Query.SameEnds

/-!
# The path command

`--from` and `--to` in JSON format: the end points are two signals, or two nodes
when an ID or a kind is given for one of them.  The answer has the path that was
found or, if none is and registers must not be crossed, a register in the way.
-/

namespace SlangNetlist

open Library

/-- The options of the path command. -/
structure PathOptions where
  fromPointName : String
  toPointName : String
  fromNodeId : Option Nat := none
  toNodeId : Option Nat := none
  fromKind : Option String := none
  toKind : Option String := none
  crossState : CrossStatePolicy := .never
  deriving DecidableEq, Repr

/-- The end points are signals when no ID and no kind is given. -/
def PathOptions.signalEndpoints (options : PathOptions) : Bool :=
  options.fromNodeId.isNone && options.toNodeId.isNone && options.fromKind.isNone &&
    options.toKind.isNone

/-- The answer to the path command: its query, its data and its summary. -/
structure PathEnvelope where
  fromPointName : String
  toPointName : String
  crossState : CrossStatePolicy
  nodes : List NodeRef
  edges : List NetlistEdge
  boundaries : List NodeRef
  status : String
  complete : Bool
  returned : Nat
  total : Nat
  deriving DecidableEq, Repr

def parseNodeKind (value : String) : Option NodeKind :=
  if value = "port" then some .port
  else if value = "variable" then some .variable
  else if value = "assignment" then some .assignment
  else if value = "conditional" then some .conditional
  else if value = "case" then some .case
  else if value = "merge" then some .merge
  else if value = "state" then some .state
  else if value = "constant" then some .constant
  else none

namespace NetlistGraph

/-- The first node with the ID. -/
def lookupById (graph : NetlistGraph) (id : Nat) : Option NodeRef :=
  (graph.nodes.find? fun node => node.ID = id).map NetlistNode.ref

end NetlistGraph

namespace IndexedGraph

/-- The only one of the candidates, or the message if there is none or are several. -/
def onlyCandidate (name label : String) : List NodeRef → Except String NodeRef
  | [] => .error ("could not find " ++ label ++ " point: " ++ name)
  | [node] => .ok node
  | _ => .error ("ambiguous " ++ label ++ " point: " ++ name ++ "; use --" ++ label ++
      "-kind or --" ++ label ++ "-node-id")

/-- A node by its ID, or the only node of the name and of the kind, if one is given. -/
def resolvePathNode (state : IndexedGraph) (name : String) (id : Option Nat)
    (kind : Option String) (label : String) : Except String NodeRef × IndexedGraph :=
  match id with
  | some id =>
      match state.graph.lookupById id with
      | none => (.error ("could not find " ++ label ++ " node ID: " ++ toString id), state)
      | some node => (.ok node, state)
  | none =>
      let (candidates, state) := state.lookupAll name
      match kind with
      | none => (onlyCandidate name label candidates, state)
      | some kind =>
          match parseNodeKind kind with
          | none => (.error ("invalid " ++ label ++ " node kind: " ++ kind), state)
          | some parsed =>
              (onlyCandidate name label (candidates.filter fun node =>
                state.graph.kindOf node = parsed), state)

end IndexedGraph

namespace NetlistGraph

variable (graph : NetlistGraph) (linked : graph.Linked)

/-- For each node but the last the first edge to the next one. -/
def pathEdges : List NodeRef → List NetlistEdge
  | node :: next :: rest => (graph.lookupOutEdge node next).toList ++ pathEdges (next :: rest)
  | _ => []

/-- The first register on the path of the first pair that has a path with a register. -/
def pathBoundaries (fromPoints toPoints : List NodeRef) : Option (List NodeRef) :=
  firstNonempty (fun fromPoint =>
    firstNonempty (fun toPoint => (graph.find linked fromPoint toPoint).map fun structural =>
      (structural.find? fun node => graph.kindOf node = .state).toList) toPoints) fromPoints

/-- The registers in the way, which are looked for if no register must be crossed. -/
def reportedBoundaries (policy : CrossStatePolicy) (fromPoints toPoints : List NodeRef) :
    Option (List NodeRef) :=
  if policy = .never then graph.pathBoundaries linked fromPoints toPoints else some []

/-- The answer between the points and the exit code. -/
def pathAnswer (options : PathOptions) (fromPoints toPoints : List NodeRef) :
    Option (PathEnvelope × Nat) := do
  let path ← graph.pathQuery linked options.crossState fromPoints toPoints
  if path ≠ [] then
    some ({ fromPointName := options.fromPointName
            toPointName := options.toPointName
            crossState := options.crossState
            nodes := path
            edges := graph.pathEdges path
            boundaries := []
            status := "ok"
            complete := true
            returned := path.length
            total := path.length }, 0)
  else
    let boundaries ← graph.reportedBoundaries linked options.crossState fromPoints toPoints
    some ({ fromPointName := options.fromPointName
            toPointName := options.toPointName
            crossState := options.crossState
            nodes := []
            edges := []
            boundaries := boundaries
            status := "empty"
            complete := true
            returned := 0
            total := 0 }, 3)

end NetlistGraph

/-! ## What the answer says -/

namespace NetlistGraph

/-- The edges that the search of a policy follows. -/
def policyEdge (graph : NetlistGraph) (policy : CrossStatePolicy) : NetlistEdge → Bool :=
  if policy = .never then graph.combEdge else enabledEdge

/-- The register is the first one on a path between two of the points. -/
def InTheWay (graph : NetlistGraph) (fromPoints toPoints : List NodeRef) (register : NodeRef) :
    Prop :=
  ∃ fromPoint ∈ fromPoints, ∃ toPoint ∈ toPoints, ∃ before after,
    graph.IsPath enabledEdge fromPoint toPoint (before ++ register :: after) ∧
      graph.kindOf register = .state ∧ ∀ node ∈ before, graph.kindOf node ≠ .state

/-- What an answer and its exit code say about the graph. -/
structure AnswerExact (graph : NetlistGraph) (policy : CrossStatePolicy)
    (fromPoints toPoints : List NodeRef) (answer : PathEnvelope) (code : Nat) : Prop where
  code : code = if answer.nodes = [] then 3 else 0
  isPath : answer.nodes ≠ [] → ∃ fromPoint ∈ fromPoints, ∃ toPoint ∈ toPoints,
    fromPoint ≠ toPoint ∧ graph.IsPath (graph.policyEdge policy) fromPoint toPoint answer.nodes
  complete : policy ≠ .once → answer.nodes = [] → ∀ fromPoint ∈ fromPoints, ∀ toPoint ∈ toPoints,
    fromPoint ≠ toPoint → ¬ graph.Reaches (graph.policyEdge policy) fromPoint toPoint
  edges : answer.edges.map (fun edge => (edge.source, edge.target)) =
    answer.nodes.zip answer.nodes.tail
  member : ∀ edge ∈ answer.edges, edge ∈ graph.edges
  combinational : policy = .never → ∀ node ∈ answer.nodes.tail, graph.kindOf node ≠ .state
  once : policy = .once → graph.statesOn answer.nodes ≤ 1
  boundaries : answer.boundaries ≠ [] ↔ policy = .never ∧ answer.nodes = [] ∧
    ∃ fromPoint ∈ fromPoints, ∃ toPoint ∈ toPoints, graph.Connected (fromPoint, toPoint)
  single : answer.boundaries.length ≤ 1
  inTheWay : ∀ register ∈ answer.boundaries, graph.InTheWay fromPoints toPoints register

variable {graph : NetlistGraph} {linked : graph.Linked} {selected : NetlistEdge → Bool}
  {fromPoints toPoints path : List NodeRef} {fromPoint toPoint : NodeRef}

theorem find_policy (linked : graph.Linked) (policy : CrossStatePolicy) :
    (if policy = .never then graph.findComb linked else graph.find linked) =
      PathFinder.findPath (graph.directed linked) (graph.policyEdge policy) := by
  unfold policyEdge
  split <;> rfl

/-- A search between two nodes finds a path between different nodes if there is one. -/
theorem findPath_cases (linked : graph.Linked) (selected : NetlistEdge → Bool)
    (fromPoint toPoint : NodeRef) :
    ((fromPoint ≠ toPoint → ¬ graph.Reaches selected fromPoint toPoint) ∧
      PathFinder.findPath (graph.directed linked) selected fromPoint toPoint = some []) ∨
    fromPoint ≠ toPoint ∧ ∃ path, graph.IsPath selected fromPoint toPoint path ∧
      PathFinder.findPath (graph.directed linked) selected fromPoint toPoint = some path := by
  rcases PathFinder.findPath_spec (graph.directed linked) selected fromPoint toPoint with
    ⟨missed, found⟩ | ⟨differ, path, first, found⟩
  · refine Or.inl ⟨fun differ reaches => ?_, found⟩
    exact missed.resolve_left differ (reachable_iff.mpr reaches)
  · exact Or.inr ⟨differ, path, isPath_of_firstPath first, found⟩

theorem IsPath.ne_nil (isPath : graph.IsPath selected fromPoint toPoint path) : path ≠ [] := by
  rintro rfl
  cases isPath.head

/-- The nodes of a path are reached from its first node. -/
theorem IsPath.reaches (isPath : graph.IsPath selected fromPoint toPoint path) :
    graph.Reaches selected fromPoint toPoint := by
  obtain ⟨rest, rfl⟩ := List.head?_eq_some_iff.mp isPath.head
  have last := isPath.last
  rw [List.getLast?_eq_some_getLast (List.cons_ne_nil _ _)] at last
  exact Option.some.inj last ▸ List.relationReflTransGen_of_exists_isChain_cons rest isPath.joined rfl

/-- The loops over the points find a path if two different points have one. -/
theorem searchPoints (linked : graph.Linked) (selected : NetlistEdge → Bool)
    (fromPoints toPoints : List NodeRef) :
    ∃ path, firstNonempty (fun fromPoint => firstNonempty
        (PathFinder.findPath (graph.directed linked) selected fromPoint) toPoints) fromPoints =
          some path ∧
      (path ≠ [] → ∃ fromPoint ∈ fromPoints, ∃ toPoint ∈ toPoints, fromPoint ≠ toPoint ∧
        graph.IsPath selected fromPoint toPoint path) ∧
      (path = [] → ∀ fromPoint ∈ fromPoints, ∀ toPoint ∈ toPoints, fromPoint ≠ toPoint →
        ¬ graph.Reaches selected fromPoint toPoint) := by
  have total : ∀ pair ∈ fromPoints ×ˢ toPoints, ∃ path,
      PathFinder.findPath (graph.directed linked) selected pair.1 pair.2 = some path := by
    intro pair _
    rcases findPath_cases linked selected pair.1 pair.2 with ⟨_, found⟩ | ⟨_, path, _, found⟩
    · exact ⟨[], found⟩
    · exact ⟨path, found⟩
  rw [firstNonempty_product]
  rcases firstNonempty_cases _ total with
    ⟨empty, result⟩ | ⟨before, pair, after, path, split, _, found, nonempty, result⟩
  · refine ⟨[], result, fun differ => absurd rfl differ, fun _ fromPoint fromMem toPoint toMem => ?_⟩
    have missed := empty (fromPoint, toPoint) (List.pair_mem_product.mpr ⟨fromMem, toMem⟩)
    rcases findPath_cases linked selected fromPoint toPoint with
      ⟨apart, _⟩ | ⟨_, other, isPath, found⟩
    · exact apart
    · cases missed.symm.trans found
      exact absurd rfl isPath.ne_nil
  · have member : pair ∈ fromPoints ×ˢ toPoints := by simp [split]
    obtain ⟨fromMem, toMem⟩ := List.mem_product.mp member
    refine ⟨path, result, fun _ => ⟨pair.1, fromMem, pair.2, toMem, ?_⟩,
      fun empty => absurd empty nonempty⟩
    rcases findPath_cases linked selected pair.1 pair.2 with ⟨_, also⟩ | ⟨differ, other, isPath, also⟩
    · cases found.symm.trans also
      exact absurd rfl nonempty
    · cases found.symm.trans also
      exact ⟨differ, isPath⟩

/-- The answer has one edge of the graph for each step of the path. -/
theorem pathEdges_spec (joined : path.IsChain (graph.StepsTo selected)) :
    (graph.pathEdges path).map (fun edge => (edge.source, edge.target)) = path.zip path.tail ∧
      ∀ edge ∈ graph.pathEdges path, edge ∈ graph.edges := by
  induction path with
  | nil => simp [pathEdges]
  | cons node rest ih =>
      cases rest with
      | nil => simp [pathEdges]
      | cons next rest =>
          obtain ⟨step, later⟩ := List.isChain_cons_cons.mp joined
          obtain ⟨ends, members⟩ := ih later
          obtain ⟨edge, member, _, source, target⟩ := step
          -- The first edge between the nodes need not be the one that the search followed.
          have joins : (graph.edges.find? (NetlistEdge.joins node next)).isSome = true :=
            List.find?_isSome.mpr ⟨edge, member, by simp [NetlistEdge.joins, source, target]⟩
          obtain ⟨first, found⟩ := Option.isSome_iff_exists.mp joins
          have looked : graph.lookupOutEdge node next = some first := found
          have firstEnds := List.find?_some found
          simp only [NetlistEdge.joins, decide_eq_true_eq] at firstEnds
          simp only [pathEdges, looked, Option.toList_some, List.singleton_append, List.map_cons,
            ends, List.mem_cons, forall_eq_or_imp]
          exact ⟨by simp [firstEnds], List.mem_of_find?_eq_some found, members⟩

/-- A combinational path comes to no register. -/
theorem IsPath.combinational (isPath : graph.IsPath graph.combEdge fromPoint toPoint path) :
    ∀ node ∈ path.tail, graph.kindOf node ≠ .state := by
  obtain ⟨rest, rfl⟩ := List.head?_eq_some_iff.mp isPath.head
  have joined := isPath.joined
  clear isPath
  rw [List.tail_cons]
  induction rest generalizing fromPoint with
  | nil => simp
  | cons next rest ih =>
      obtain ⟨step, later⟩ := List.isChain_cons_cons.mp joined
      obtain ⟨edge, _, selects, _, rfl⟩ := step
      simp only [combEdge, Bool.and_eq_true, bne_iff_ne] at selects
      exact List.forall_mem_cons.mpr ⟨selects.2, ih later⟩

/-- A path that comes to no register is combinational. -/
theorem joined_of_combinational (joined : path.IsChain (graph.StepsTo enabledEdge))
    (free : ∀ node ∈ path, graph.kindOf node ≠ .state) :
    path.IsChain (graph.StepsTo graph.combEdge) := by
  induction path with
  | nil => exact .nil
  | cons node rest ih =>
      obtain ⟨_, restFree⟩ := List.forall_mem_cons.mp free
      cases rest with
      | nil => exact List.isChain_singleton _
      | cons next rest =>
          obtain ⟨⟨edge, member, enabled, source, rfl⟩, later⟩ := List.isChain_cons_cons.mp joined
          have nextFree := restFree _ List.mem_cons_self
          have selects : graph.combEdge edge = true := by
            simpa [combEdge, enabledEdge, nextFree] using enabled
          exact List.isChain_cons_cons.mpr
            ⟨⟨edge, member, selects, source, rfl⟩, ih later restFree⟩

/-- Between points without a combinational path, a path has a register. -/
theorem exists_register (isPath : graph.IsPath enabledEdge fromPoint toPoint path)
    (apart : ¬ graph.Reaches graph.combEdge fromPoint toPoint) :
    ∃ register before after,
      (path.find? fun node => graph.kindOf node = .state) = some register ∧
      path = before ++ register :: after ∧ graph.kindOf register = .state ∧
      ∀ node ∈ before, graph.kindOf node ≠ .state := by
  cases found : path.find? fun node => graph.kindOf node = .state with
  | none =>
      have free : ∀ node ∈ path, graph.kindOf node ≠ .state := by
        simpa using List.find?_eq_none.mp found
      have comb : graph.IsPath graph.combEdge fromPoint toPoint path :=
        ⟨isPath.head, isPath.last, isPath.nodup, joined_of_combinational isPath.joined free⟩
      exact absurd comb.reaches apart
  | some register =>
      obtain ⟨isState, before, after, split, free⟩ := List.find?_eq_some_iff_append.mp found
      exact ⟨register, before, after, rfl, split, by simpa using isState, by simpa using free⟩

/-- Without a combinational path a register is reported, if there is a path at all. -/
theorem pathBoundaries_spec (linked : graph.Linked)
    (apart : ∀ fromPoint ∈ fromPoints, ∀ toPoint ∈ toPoints, fromPoint ≠ toPoint →
      ¬ graph.Reaches graph.combEdge fromPoint toPoint) :
    ∃ boundaries, graph.pathBoundaries linked fromPoints toPoints = some boundaries ∧
      (boundaries ≠ [] ↔ ∃ fromPoint ∈ fromPoints, ∃ toPoint ∈ toPoints,
        graph.Connected (fromPoint, toPoint)) ∧
      boundaries.length ≤ 1 ∧
      ∀ register ∈ boundaries, graph.InTheWay fromPoints toPoints register := by
  have searched : ∀ pair ∈ fromPoints ×ˢ toPoints,
      (¬ graph.Connected pair ∧ (graph.find linked pair.1 pair.2).map (fun structural =>
        (structural.find? fun node => graph.kindOf node = .state).toList) = some []) ∨
      graph.Connected pair ∧ ∃ register, graph.InTheWay fromPoints toPoints register ∧
        (graph.find linked pair.1 pair.2).map (fun structural =>
          (structural.find? fun node => graph.kindOf node = .state).toList) = some [register] := by
    intro pair member
    obtain ⟨fromMem, toMem⟩ := List.mem_product.mp member
    rcases find_cases linked pair with ⟨unconnected, found⟩ | ⟨connected, path, first, found⟩
    · exact Or.inl ⟨unconnected, by simp [found]⟩
    · have isPath := isPath_of_firstPath first
      obtain ⟨register, before, after, firstState, split, isState, free⟩ :=
        exists_register isPath (apart _ fromMem _ toMem connected.1)
      exact Or.inr ⟨connected, register, ⟨_, fromMem, _, toMem, before, after, split ▸ isPath,
        isState, free⟩, by simp [found, firstState]⟩
  unfold pathBoundaries
  rw [firstNonempty_product]
  have total : ∀ pair ∈ fromPoints ×ˢ toPoints, ∃ boundaries,
      (graph.find linked pair.1 pair.2).map (fun structural =>
        (structural.find? fun node => graph.kindOf node = .state).toList) = some boundaries := by
    intro pair member
    rcases searched pair member with ⟨_, found⟩ | ⟨_, register, _, found⟩
    · exact ⟨_, found⟩
    · exact ⟨_, found⟩
  rcases firstNonempty_cases _ total with
    ⟨empty, result⟩ | ⟨before, pair, after, boundaries, split, _, found, nonempty, result⟩
  · refine ⟨[], result, ⟨fun differ => absurd rfl differ, ?_⟩, by simp, by simp⟩
    rintro ⟨fromPoint, fromMem, toPoint, toMem, connected⟩
    have member := List.pair_mem_product.mpr ⟨fromMem, toMem⟩
    rcases searched _ member with ⟨unconnected, _⟩ | ⟨_, register, _, found⟩
    · exact absurd connected unconnected
    · cases (empty _ member).symm.trans found
  · have member : pair ∈ fromPoints ×ˢ toPoints := by simp [split]
    obtain ⟨fromMem, toMem⟩ := List.mem_product.mp member
    rcases searched pair member with ⟨_, also⟩ | ⟨connected, register, inTheWay, also⟩
    · cases found.symm.trans also
      exact absurd rfl nonempty
    · cases found.symm.trans also
      exact ⟨[register], result, ⟨fun _ => ⟨pair.1, fromMem, pair.2, toMem, connected⟩,
        fun _ => by simp⟩, by simp, by simpa using inTheWay⟩

/-- The boundaries of an answer without a path. -/
theorem reported_spec (linked : graph.Linked) (policy : CrossStatePolicy)
    (apart : policy ≠ .once → ∀ fromPoint ∈ fromPoints, ∀ toPoint ∈ toPoints,
      fromPoint ≠ toPoint → ¬ graph.Reaches (graph.policyEdge policy) fromPoint toPoint) :
    ∃ boundaries, graph.reportedBoundaries linked policy fromPoints toPoints = some boundaries ∧
      (boundaries ≠ [] ↔ policy = .never ∧ ∃ fromPoint ∈ fromPoints, ∃ toPoint ∈ toPoints,
        graph.Connected (fromPoint, toPoint)) ∧
      boundaries.length ≤ 1 ∧
      ∀ register ∈ boundaries, graph.InTheWay fromPoints toPoints register := by
  cases policy with
  | never => simpa [reportedBoundaries] using pathBoundaries_spec linked (apart (by decide))
  | once => exact ⟨[], rfl, by simp, by simp, by simp⟩
  | unlimited => exact ⟨[], rfl, by simp, by simp, by simp⟩

end NetlistGraph

namespace IndexedGraph

/-- The points between which paths are searched. -/
def pathPoints (state : IndexedGraph) (addresses : Addresses) (options : PathOptions) :
    Except String (List NodeRef × List NodeRef) :=
  if options.signalEndpoints then
    let (fromSignal, fromRange) := parseNameAndRange options.fromPointName.toList
    let (toSignal, toRange) := parseNameAndRange options.toPointName.toList
    let fromPoints := state.graph.consumers (String.ofList fromSignal) fromRange
    let toPoints := state.graph.drivers addresses (String.ofList toSignal) toRange
    if fromPoints.isEmpty || toPoints.isEmpty then .error "could not resolve signal endpoint"
    else .ok (fromPoints, toPoints)
  else
    let (fromPoint, state) :=
      state.resolvePathNode options.fromPointName options.fromNodeId options.fromKind "from"
    fromPoint.bind fun fromPoint =>
      (state.resolvePathNode options.toPointName options.toNodeId options.toKind "to").1.map
        fun toPoint => ([fromPoint], [toPoint])

/-- The answer of the command, or the message of the exception. -/
def pathCommand (state : IndexedGraph) (linked : state.graph.Linked) (addresses : Addresses)
    (options : PathOptions) : Except String (Option (PathEnvelope × Nat)) :=
  (state.pathPoints addresses options).map fun points =>
    state.graph.pathAnswer linked options points.1 points.2

/-- `message.starts_with("ambiguous ")`. -/
def isAmbiguous (message : String) : Bool :=
  "ambiguous ".toList.isPrefixOf message.toList

/-- The exit code: that of the answer, or one for the message of the exception. -/
def exitCode : Except String (Option (PathEnvelope × Nat)) → Option Nat
  | .ok answer => answer.map Prod.snd
  | .error message => some (if isAmbiguous message then 7 else 6)

end IndexedGraph

/--
Whatever the points are, the command answers: a path with its edges, or a
register in the way if registers must not be crossed and only they are.
-/
theorem NetlistGraph.exists_pathAnswer (graph : NetlistGraph) (linked : graph.Linked)
    (options : PathOptions) (fromPoints toPoints : List NodeRef) :
    ∃ answer code, graph.pathAnswer linked options fromPoints toPoints = some (answer, code) ∧
      graph.AnswerExact options.crossState fromPoints toPoints answer code := by
  obtain ⟨path, searched, isPath, complete⟩ := NetlistGraph.searchPoints linked
    (graph.policyEdge options.crossState) fromPoints toPoints
  let kept := if options.crossState = .once ∧ graph.statesOn path > 1 then [] else path
  have queried : graph.pathQuery linked options.crossState fromPoints toPoints = some kept := by
    rw [NetlistGraph.pathQuery, NetlistGraph.find_policy, searched, Option.map_some]
  by_cases empty : kept = []
  · -- No path is left, which tells about the graph unless the policy dropped one.
    have apart : options.crossState ≠ .once → ∀ fromPoint ∈ fromPoints, ∀ toPoint ∈ toPoints,
        fromPoint ≠ toPoint →
          ¬ graph.Reaches (graph.policyEdge options.crossState) fromPoint toPoint := by
      intro policy
      exact complete (by simpa [kept, policy] using empty)
    obtain ⟨boundaries, looked, nonempty, single, inTheWay⟩ :=
      NetlistGraph.reported_spec linked options.crossState apart
    refine ⟨_, 3, by
      simp only [NetlistGraph.pathAnswer, queried, empty, Option.bind_eq_bind, Option.bind_some,
        ne_eq, not_true_eq_false, if_false, looked]
      rfl, ?_⟩
    exact {
      code := rfl
      isPath := fun differ => absurd rfl differ
      complete := fun policy _ => apart policy
      edges := rfl
      member := by simp
      combinational := by simp
      once := by simp [NetlistGraph.statesOn]
      boundaries := by simpa using nonempty
      single := single
      inTheWay := inTheWay }
  · have fewStates : ¬ (options.crossState = .once ∧ graph.statesOn path > 1) :=
      fun many => empty (if_pos many)
    have same : kept = path := if_neg fewStates
    rw [same] at queried empty
    obtain ⟨fromPoint, fromMem, toPoint, toMem, differ, onPath⟩ := isPath empty
    obtain ⟨ends, members⟩ := NetlistGraph.pathEdges_spec onPath.joined
    refine ⟨_, 0, by simp [NetlistGraph.pathAnswer, queried, empty]; rfl, ?_⟩
    exact {
      code := by simp [empty]
      isPath := fun _ => ⟨fromPoint, fromMem, toPoint, toMem, differ, onPath⟩
      complete := fun _ missing => absurd missing empty
      edges := ends
      member := members
      combinational := by
        intro never
        rw [never, NetlistGraph.policyEdge, if_pos rfl] at onPath
        exact onPath.combinational
      once := fun once => Nat.not_lt.mp fun many => fewStates ⟨once, many⟩
      boundaries := by simp [empty]
      single := by simp
      inTheWay := by simp }

/-! ## The end points -/

/-- At least two have the property. -/
def Several (Holds : NodeRef → Prop) : Prop :=
  ∃ first second, Holds first ∧ Holds second ∧ first ≠ second

theorem Several.exists {Holds : NodeRef → Prop} (several : Several Holds) : ∃ ref, Holds ref :=
  ⟨several.choose, several.choose_spec.choose_spec.1⟩

/-- The only node with the property. -/
theorem mem_singleton_iff_of_few {Holds : NodeRef → Prop} {ref other : NodeRef} (holds : Holds ref)
    (few : ¬ Several Holds) : other ∈ [ref] ↔ Holds other := by
  rw [List.mem_singleton]
  constructor
  · rintro rfl
    exact holds
  · intro otherHolds
    by_contra differ
    exact few ⟨other, ref, otherHolds, holds, differ⟩

namespace NetlistGraph

/-- An ID or else a name, with a kind if one is given, stands for the node. -/
def Candidate (graph : NetlistGraph) (name : String) (id : Option Nat) (kind : Option String)
    (ref : NodeRef) : Prop :=
  match id with
  | some id => ∃ node ∈ graph.nodes, node.ID = id ∧ node.ref = ref
  | none => ref ∈ graph.scan name ∧
      ∀ text, kind = some text → parseNodeKind text = some (graph.kindOf ref)

def FromPoint (graph : NetlistGraph) (options : PathOptions) (ref : NodeRef) : Prop :=
  if options.signalEndpoints then
    graph.Consumes (String.ofList (parseNameAndRange options.fromPointName.toList).1)
      (parseNameAndRange options.fromPointName.toList).2 ref
  else graph.Candidate options.fromPointName options.fromNodeId options.fromKind ref

def ToPoint (graph : NetlistGraph) (options : PathOptions) (ref : NodeRef) : Prop :=
  if options.signalEndpoints then
    graph.Drives (String.ofList (parseNameAndRange options.toPointName.toList).1)
      (parseNameAndRange options.toPointName.toList).2 ref
  else graph.Candidate options.toPointName options.toNodeId options.toKind ref

/-- Both end points stand for nodes, and for one each if they are no signals. -/
def Resolved (graph : NetlistGraph) (options : PathOptions) : Prop :=
  (∃ ref, graph.FromPoint options ref) ∧ (∃ ref, graph.ToPoint options ref) ∧
    (options.signalEndpoints = false →
      ¬ Several (graph.FromPoint options) ∧ ¬ Several (graph.ToPoint options))

/-- The first end point that does not stand for one node stands for several ones. -/
def Ambiguous (graph : NetlistGraph) (options : PathOptions) : Prop :=
  options.signalEndpoints = false ∧ (Several (graph.FromPoint options) ∨
    (∃ ref, graph.FromPoint options ref) ∧ Several (graph.ToPoint options))

/-- The first end point that is wrong stands for no node. -/
def Missing (graph : NetlistGraph) (options : PathOptions) : Prop :=
  (¬ ∃ ref, graph.FromPoint options ref) ∨
    (options.signalEndpoints = true ∨ ¬ Several (graph.FromPoint options)) ∧
      ¬ ∃ ref, graph.ToPoint options ref

variable {graph : NetlistGraph} {options : PathOptions}

/-- Nodes are listed once under a path. -/
theorem nodup_scan (linked : graph.Linked) (name : String) : (graph.scan name).Nodup := by
  have sublist : (graph.scan name).Sublist (graph.nodes.map NetlistNode.ref) := by
    unfold scan namedNodes
    generalize graph.nodes = nodes
    induction nodes with
    | nil => exact .slnil
    | cons node rest ih =>
        cases named : node.data.getHierarchicalPath with
        | none => simpa [named] using ih.cons _
        | some path =>
            by_cases same : path = name
            · simpa [named, valuesOf, same] using ih
            · simpa [named, valuesOf, same] using ih.cons _
  exact linked.refs.sublist sublist

end NetlistGraph

namespace IndexedGraph

variable {state : IndexedGraph} {name label : String} {id : Option Nat} {kind : Option String}

theorem lookupById_cases (linked : state.graph.Linked) (id : Nat) :
    (∃ ref, state.graph.lookupById id = some ref ∧ state.graph.Candidate name (some id) kind ref ∧
      ¬ Several (state.graph.Candidate name (some id) kind)) ∨
    state.graph.lookupById id = none ∧ ¬ ∃ ref, state.graph.Candidate name (some id) kind ref := by
  unfold NetlistGraph.lookupById NetlistGraph.Candidate
  cases found : state.graph.nodes.find? fun node => node.ID = id with
  | none =>
      refine Or.inr ⟨rfl, ?_⟩
      rintro ⟨ref, node, member, same, _⟩
      simpa [same] using List.find?_eq_none.mp found node member
  | some node =>
      have same : node.ID = id := by simpa using List.find?_some found
      refine Or.inl ⟨node.ref, rfl, ⟨node, List.mem_of_find?_eq_some found, same, rfl⟩, ?_⟩
      rintro ⟨_, _, ⟨first, firstMem, firstID, rfl⟩, ⟨second, secondMem, secondID, rfl⟩, differ⟩
      have equal := List.inj_on_of_nodup_map linked.ids firstMem secondMem
        (firstID.trans secondID.symm)
      exact differ (congrArg NetlistNode.ref equal)

/-- A list without repetition has no element, one or several. -/
theorem candidates_cases {Holds : NodeRef → Prop} {candidates : List NodeRef}
    (nodup : candidates.Nodup) (exact : ∀ ref, ref ∈ candidates ↔ Holds ref) :
    (candidates = [] ∧ ¬ ∃ ref, Holds ref) ∨
    (∃ ref, candidates = [ref] ∧ Holds ref ∧ ¬ Several Holds) ∨
    ∃ first second rest, candidates = first :: second :: rest ∧ Several Holds := by
  match candidates with
  | [] => exact Or.inl ⟨rfl, fun ⟨ref, holds⟩ => List.not_mem_nil ((exact ref).mpr holds)⟩
  | [ref] =>
      refine Or.inr (Or.inl ⟨ref, rfl, (exact ref).mp List.mem_cons_self, ?_⟩)
      rintro ⟨first, second, firstHolds, secondHolds, differ⟩
      have firstSame := List.mem_singleton.mp ((exact first).mpr firstHolds)
      have secondSame := List.mem_singleton.mp ((exact second).mpr secondHolds)
      exact differ (firstSame.trans secondSame.symm)
  | first :: second :: rest =>
      have differ : first ≠ second := by
        rintro rfl
        exact (List.nodup_cons.mp nodup).1 List.mem_cons_self
      exact Or.inr (Or.inr ⟨first, second, rest, rfl, first, second,
        (exact first).mp (by simp), (exact second).mp (by simp), differ⟩)

/-- What the resolution of an end point tells about its candidates. -/
def ResolvedAs (Holds : NodeRef → Prop) : Except String NodeRef → Prop
  | .ok ref => Holds ref ∧ ¬ Several Holds
  | .error message =>
      if isAmbiguous message then Several Holds else ¬ ∃ ref, Holds ref

theorem onlyCandidate_spec {Holds : NodeRef → Prop} {candidates : List NodeRef}
    (nodup : candidates.Nodup) (exact : ∀ ref, ref ∈ candidates ↔ Holds ref)
    (name label : String) : ResolvedAs Holds (onlyCandidate name label candidates) := by
  rcases candidates_cases nodup exact with
    ⟨rfl, none⟩ | ⟨ref, rfl, holds, few⟩ | ⟨first, second, rest, rfl, several⟩
  · have plain : ∀ rest, isAmbiguous ("could not find " ++ rest) = false := by
      simp [isAmbiguous, List.isPrefixOf]
    simpa [onlyCandidate, ResolvedAs, String.append_assoc, plain] using none
  · exact ⟨holds, few⟩
  · have marked : ∀ rest, isAmbiguous ("ambiguous " ++ rest) = true := by
      simp [isAmbiguous]
    simpa [onlyCandidate, ResolvedAs, String.append_assoc, marked] using several

theorem resolvePathNode_spec (valid : state.Valid) (inStep : state.InStep)
    (linked : state.graph.Linked) (name : String) (id : Option Nat) (kind : Option String)
    (label : String) :
    ResolvedAs (state.graph.Candidate name id kind) (state.resolvePathNode name id kind label).1 ∧
      (state.resolvePathNode name id kind label).2.graph = state.graph ∧
      (state.resolvePathNode name id kind label).2.Valid ∧
      (state.resolvePathNode name id kind label).2.InStep := by
  cases id with
  | some id =>
      rcases @lookupById_cases state name kind linked id with
        ⟨ref, found, holds, few⟩ | ⟨missing, none⟩
      · simp only [resolvePathNode, found]
        exact ⟨⟨holds, few⟩, trivial, valid, inStep⟩
      · simp only [resolvePathNode, missing]
        refine ⟨?_, trivial, valid, inStep⟩
        have plain : ∀ rest, isAmbiguous ("could not find " ++ rest) = false := by
          simp [isAmbiguous, List.isPrefixOf]
        simpa [ResolvedAs, String.append_assoc, plain] using none
  | none =>
      have scanned : (state.lookupAll name).1 = state.graph.scan name :=
        (inStep.lookupsExact valid ⟨id, fun _ => .refl _⟩).lookupAll name
      have same : (state.lookupAll name).2.graph = state.graph := buildIndex_graph
      have kept : (state.lookupAll name).2.Valid ∧ (state.lookupAll name).2.InStep :=
        ⟨valid.buildIndex, inStep.buildIndex valid⟩
      have nodup := NetlistGraph.nodup_scan linked name
      cases kind with
      | none =>
          simp only [resolvePathNode, scanned]
          exact ⟨onlyCandidate_spec nodup (by simp [NetlistGraph.Candidate]) name label, same, kept⟩
      | some kind =>
          cases parsed : parseNodeKind kind with
          | none =>
              simp only [resolvePathNode, parsed]
              refine ⟨?_, same, kept⟩
              have plain : ∀ rest, isAmbiguous ("invalid " ++ rest) = false := by
                simp [isAmbiguous, List.isPrefixOf]
              simp [ResolvedAs, String.append_assoc, plain, NetlistGraph.Candidate, parsed]
          | some parsedKind =>
              simp only [resolvePathNode, parsed, scanned, same]
              refine ⟨onlyCandidate_spec (nodup.filter _) (fun ref => ?_) name label, trivial, kept⟩
              simp [NetlistGraph.Candidate, parsed, eq_comm]

theorem pathPoints_signals (linked : state.graph.Linked) {addresses : Addresses}
    {options : PathOptions} (signals : options.signalEndpoints = true) :
    (∃ fromPoints toPoints, state.pathPoints addresses options = .ok (fromPoints, toPoints) ∧
      (∀ ref, ref ∈ fromPoints ↔ state.graph.FromPoint options ref) ∧
      (∀ ref, ref ∈ toPoints ↔ state.graph.ToPoint options ref) ∧
      state.graph.Resolved options) ∨
    state.pathPoints addresses options = .error "could not resolve signal endpoint" ∧
      state.graph.Missing options := by
  have isFrom : ∀ ref, ref ∈ state.graph.consumers _ _ ↔ state.graph.FromPoint options ref :=
    fun ref => by rw [NetlistGraph.mem_consumers linked, NetlistGraph.FromPoint, if_pos signals]
  have isTo : ∀ ref, ref ∈ state.graph.drivers addresses _ _ ↔ state.graph.ToPoint options ref :=
    fun ref => by rw [NetlistGraph.mem_drivers linked, NetlistGraph.ToPoint, if_pos signals]
  simp only [pathPoints, signals, if_true]
  split
  · next empty =>
      rw [Bool.or_eq_true, List.isEmpty_iff, List.isEmpty_iff] at empty
      refine Or.inr ⟨rfl, ?_⟩
      rcases empty with noConsumer | noDriver
      · exact Or.inl fun ⟨ref, holds⟩ => by simpa [noConsumer] using (isFrom ref).mpr holds
      · exact Or.inr ⟨Or.inl signals, fun ⟨ref, holds⟩ => by
          simpa [noDriver] using (isTo ref).mpr holds⟩
  · next present =>
      rw [Bool.or_eq_true, not_or, List.isEmpty_iff, List.isEmpty_iff] at present
      obtain ⟨consumer, consumes⟩ := List.exists_mem_of_ne_nil _ present.1
      obtain ⟨driver, drives⟩ := List.exists_mem_of_ne_nil _ present.2
      exact Or.inl ⟨_, _, rfl, isFrom, isTo, ⟨consumer, (isFrom _).mp consumes⟩,
        ⟨driver, (isTo _).mp drives⟩, by simp [signals]⟩

theorem pathPoints_nodes (valid : state.Valid) (inStep : state.InStep)
    (linked : state.graph.Linked) {addresses : Addresses} {options : PathOptions}
    (nodes : options.signalEndpoints = false) :
    (∃ fromPoints toPoints, state.pathPoints addresses options = .ok (fromPoints, toPoints) ∧
      (∀ ref, ref ∈ fromPoints ↔ state.graph.FromPoint options ref) ∧
      (∀ ref, ref ∈ toPoints ↔ state.graph.ToPoint options ref) ∧
      state.graph.Resolved options) ∨
    ∃ message, state.pathPoints addresses options = .error message ∧
      if isAmbiguous message then state.graph.Ambiguous options
      else state.graph.Missing options := by
  have isFrom : state.graph.FromPoint options = state.graph.Candidate options.fromPointName
      options.fromNodeId options.fromKind := by
    funext ref
    simp [NetlistGraph.FromPoint, nodes]
  have isTo : state.graph.ToPoint options = state.graph.Candidate options.toPointName
      options.toNodeId options.toKind := by
    funext ref
    simp [NetlistGraph.ToPoint, nodes]
  obtain ⟨fromSpec, same, nextValid, nextInStep⟩ := resolvePathNode_spec valid inStep linked
    options.fromPointName options.fromNodeId options.fromKind "from"
  obtain ⟨toSpec, _⟩ := resolvePathNode_spec nextValid nextInStep (same ▸ linked)
    options.toPointName options.toNodeId options.toKind "to"
  rw [← isFrom] at fromSpec
  rw [same, ← isTo] at toSpec
  simp only [pathPoints, nodes, Bool.false_eq_true, if_false]
  generalize state.resolvePathNode options.fromPointName options.fromNodeId options.fromKind
    "from" = resolvedFrom at fromSpec toSpec ⊢
  obtain ⟨fromResult, next⟩ := resolvedFrom
  cases fromResult with
  | error message =>
      refine Or.inr ⟨message, rfl, ?_⟩
      dsimp only [ResolvedAs] at fromSpec
      split at fromSpec
      · next ambiguous => exact (if_pos ambiguous).mpr ⟨nodes, Or.inl fromSpec⟩
      · next plain => exact (if_neg plain).mpr (Or.inl fromSpec)
  | ok fromPoint =>
      obtain ⟨fromHolds, fromFew⟩ := fromSpec
      cases toResult : (next.resolvePathNode options.toPointName options.toNodeId options.toKind
          "to").1 with
      | error message =>
          refine Or.inr ⟨message, by simp [Except.bind, Except.map], ?_⟩
          rw [toResult] at toSpec
          dsimp only [ResolvedAs] at toSpec
          split at toSpec
          · next ambiguous =>
              exact (if_pos ambiguous).mpr ⟨nodes, Or.inr ⟨⟨_, fromHolds⟩, toSpec⟩⟩
          · next plain => exact (if_neg plain).mpr (Or.inr ⟨Or.inr fromFew, toSpec⟩)
      | ok toPoint =>
          rw [toResult] at toSpec
          obtain ⟨toHolds, toFew⟩ := toSpec
          refine Or.inl ⟨[fromPoint], [toPoint], by simp [Except.bind, Except.map],
            fun ref => ?_, fun ref => ?_, ⟨_, fromHolds⟩, ⟨_, toHolds⟩, fun _ => ⟨fromFew, toFew⟩⟩
          · exact mem_singleton_iff_of_few fromHolds fromFew
          · exact mem_singleton_iff_of_few toHolds toFew

/-- The points are resolved, or the message tells which end point is wrong. -/
theorem pathPoints_cases (valid : state.Valid) (inStep : state.InStep)
    (linked : state.graph.Linked) (addresses : Addresses) (options : PathOptions) :
    (∃ fromPoints toPoints, state.pathPoints addresses options = .ok (fromPoints, toPoints) ∧
      (∀ ref, ref ∈ fromPoints ↔ state.graph.FromPoint options ref) ∧
      (∀ ref, ref ∈ toPoints ↔ state.graph.ToPoint options ref) ∧
      state.graph.Resolved options) ∨
    ∃ message, state.pathPoints addresses options = .error message ∧
      if isAmbiguous message then state.graph.Ambiguous options
      else state.graph.Missing options := by
  cases signals : options.signalEndpoints with
  | false => exact pathPoints_nodes valid inStep linked signals
  | true =>
      rcases pathPoints_signals linked signals with resolved | ⟨failed, missing⟩
      · exact Or.inl resolved
      · have plain : isAmbiguous "could not resolve signal endpoint" = false := by
          simp [isAmbiguous, List.isPrefixOf]
        refine Or.inr ⟨_, failed, ?_⟩
        simpa only [plain, Bool.false_eq_true, if_false] using missing

end IndexedGraph

namespace NetlistGraph

/-- What the exit code of the path command says about the graph. -/
structure ExitCodes (graph : NetlistGraph) (options : PathOptions)
    (result : Except String (Option (PathEnvelope × Nat))) (code : Nat) : Prop where
  known : code ∈ [0, 3, 6, 7]
  ambiguous : code = 7 ↔ graph.Ambiguous options
  missing : code = 6 ↔ graph.Missing options
  resolved : (code = 0 ∨ code = 3) ↔ graph.Resolved options
  answered : graph.Resolved options → ∃ fromPoints toPoints answer,
    (∀ ref, ref ∈ fromPoints ↔ graph.FromPoint options ref) ∧
    (∀ ref, ref ∈ toPoints ↔ graph.ToPoint options ref) ∧
    result = .ok (some (answer, code)) ∧
    graph.AnswerExact options.crossState fromPoints toPoints answer code

variable {graph : NetlistGraph} {options : PathOptions}

theorem Resolved.not_ambiguous (resolved : graph.Resolved options) : ¬ graph.Ambiguous options := by
  rintro ⟨nodes, several | ⟨_, several⟩⟩
  · exact (resolved.2.2 nodes).1 several
  · exact (resolved.2.2 nodes).2 several

theorem Resolved.not_missing (resolved : graph.Resolved options) : ¬ graph.Missing options := by
  rintro (missing | ⟨_, missing⟩)
  · exact missing resolved.1
  · exact missing resolved.2.1

theorem Ambiguous.not_missing (ambiguous : graph.Ambiguous options) :
    ¬ graph.Missing options := by
  obtain ⟨nodes, several | ⟨_, several⟩⟩ := ambiguous
  · rintro (missing | ⟨signals | few, _⟩)
    · exact missing several.exists
    · simp [nodes] at signals
    · exact few several
  · rintro (missing | ⟨_, missing⟩)
    · exact missing ‹_›
    · exact missing several.exists

end NetlistGraph

/--
The exit code tells ambiguous end points, missing ones and an answer apart, and
the answer is about the nodes that the end points stand for.
-/
theorem pathCommand_exitCode (state : IndexedGraph) (valid : state.Valid) (inStep : state.InStep)
    (linked : state.graph.Linked) (addresses : Addresses) (options : PathOptions) :
    ∃ code, IndexedGraph.exitCode (state.pathCommand linked addresses options) = some code ∧
      state.graph.ExitCodes options (state.pathCommand linked addresses options) code := by
  rcases IndexedGraph.pathPoints_cases valid inStep linked addresses options with
    ⟨fromPoints, toPoints, points, isFrom, isTo, resolved⟩ | ⟨message, failed, told⟩
  · obtain ⟨answer, code, answered, exact⟩ :=
      state.graph.exists_pathAnswer linked options fromPoints toPoints
    have called : state.pathCommand linked addresses options = .ok (some (answer, code)) := by
      simp [IndexedGraph.pathCommand, points, Except.map, answered]
    have codes : code = 0 ∨ code = 3 := by
      rw [exact.code]
      split
      · exact Or.inr rfl
      · exact Or.inl rfl
    refine ⟨code, by rw [called]; rfl, ?_⟩
    exact {
      known := by rcases codes with rfl | rfl <;> decide
      ambiguous := iff_of_false (by omega) resolved.not_ambiguous
      missing := iff_of_false (by omega) resolved.not_missing
      resolved := iff_of_true codes resolved
      answered := fun _ => ⟨fromPoints, toPoints, answer, isFrom, isTo, called, exact⟩ }
  · have called : state.pathCommand linked addresses options = .error message := by
      simp [IndexedGraph.pathCommand, failed, Except.map]
    rw [called]
    split at told
    · next marked =>
        have unresolved : ¬ state.graph.Resolved options := fun resolved =>
          resolved.not_ambiguous told
        refine ⟨7, by simp [IndexedGraph.exitCode, marked], ?_⟩
        exact {
          known := by decide
          ambiguous := iff_of_true rfl told
          missing := iff_of_false (by decide) told.not_missing
          resolved := iff_of_false (by decide) unresolved
          answered := fun resolved => absurd resolved unresolved }
    · next plain =>
        have unresolved : ¬ state.graph.Resolved options := fun resolved =>
          resolved.not_missing told
        refine ⟨6, by simp [IndexedGraph.exitCode, plain], ?_⟩
        exact {
          known := by decide
          ambiguous := iff_of_false (by decide) fun ambiguous => ambiguous.not_missing told
          missing := iff_of_true rfl told
          resolved := iff_of_false (by decide) unresolved
          answered := fun resolved => absurd resolved unresolved }

/-- From the merge to the register, which are given by their IDs. -/
def mergeToRegister : PathOptions where
  fromPointName := "merge"
  toPointName := "m.q"
  fromNodeId := some 3
  toNodeId := some 2

-- The register is the boundary of its own query.
example : ({ graph := ringNetlist } : IndexedGraph).pathCommand ringNetlist_linked NodeRef.serial
    mergeToRegister = .ok (some ({
      fromPointName := "merge", toPointName := "m.q", crossState := .never, nodes := [],
      edges := [], boundaries := [⟨0, .state, 0⟩], status := "empty", complete := true,
      returned := 0, total := 0 }, 3)) := by
  decide +kernel

theorem pathCommand_exitCode_merge :
    ∃ code, IndexedGraph.exitCode (({ graph := ringNetlist } : IndexedGraph).pathCommand
        ringNetlist_linked NodeRef.serial mergeToRegister) = some code ∧
      ringNetlist.ExitCodes mergeToRegister (({ graph := ringNetlist } : IndexedGraph).pathCommand
        ringNetlist_linked NodeRef.serial mergeToRegister) code :=
  pathCommand_exitCode { graph := ringNetlist } ⟨ringNetlist_linked.refs, fun _ => rfl⟩
    (fun built => nomatch built) ringNetlist_linked NodeRef.serial mergeToRegister

end SlangNetlist
