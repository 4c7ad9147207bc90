import SlangNetlist.Query.DriverQueries
import SlangNetlist.Query.PathFinder

/-!
# Path queries

The point-to-point query of the command line.  Two signals are resolved to the
nodes that consume the one and the nodes that drive the other, and the pairs are
tried one after another until a path is found.
-/

namespace SlangNetlist

open Library

/-- The values of `--cross-state`. -/
inductive CrossStatePolicy where
  | never
  | once
  | unlimited
  deriving DecidableEq, Repr

section FirstNonempty

variable {α β : Type}

/-- The nested loops of the query: the first result that is not empty. -/
def firstNonempty (search : α → Option (List β)) : List α → Option (List β)
  | [] => some []
  | head :: rest =>
      (search head).bind fun path =>
        if path.isEmpty then firstNonempty search rest else some path

variable {search : α → Option (List β)}

theorem firstNonempty_append (first second : List α) :
    firstNonempty search (first ++ second) =
      (firstNonempty search first).bind fun path =>
        if path.isEmpty then firstNonempty search second else some path := by
  induction first with
  | nil => simp [firstNonempty]
  | cons head rest ih =>
      simp only [List.cons_append, firstNonempty, Option.bind_assoc, ih]
      congr 1
      funext path
      cases path <;> simp

theorem firstNonempty_map {γ : Type} (f : γ → α) (list : List γ) :
    firstNonempty search (list.map f) = firstNonempty (fun element => search (f element)) list := by
  induction list with
  | nil => rfl
  | cons head rest ih => simp only [List.map_cons, firstNonempty, ih]

/-- Two nested loops are a loop over the pairs. -/
theorem firstNonempty_product {γ : Type} (find : α → γ → Option (List β)) (first : List α)
    (second : List γ) :
    firstNonempty (fun element => firstNonempty (find element) second) first =
      firstNonempty (fun pair => find pair.1 pair.2) (first ×ˢ second) := by
  induction first with
  | nil => rfl
  | cons head rest ih =>
      rw [List.product_cons, firstNonempty_append, firstNonempty_map, ← ih, firstNonempty]

/-- The loop finds nothing, or the result at the first element that has one. -/
theorem firstNonempty_cases (list : List α) (total : ∀ element ∈ list, ∃ path,
      search element = some path) :
    ((∀ element ∈ list, search element = some []) ∧ firstNonempty search list = some []) ∨
    ∃ before element after path, list = before ++ element :: after ∧
      (∀ earlier ∈ before, search earlier = some []) ∧ search element = some path ∧ path ≠ [] ∧
      firstNonempty search list = some path := by
  induction list with
  | nil => exact Or.inl ⟨by simp, rfl⟩
  | cons head rest ih =>
      obtain ⟨path, found⟩ := total head List.mem_cons_self
      cases path with
      | cons node path =>
          exact Or.inr ⟨[], head, rest, node :: path, rfl, by simp, found, by simp,
            by simp [firstNonempty, found]⟩
      | nil =>
          have skipped : firstNonempty search (head :: rest) = firstNonempty search rest := by
            simp [firstNonempty, found]
          rw [skipped]
          rcases ih fun element member => total element (List.mem_cons_of_mem _ member) with
            ⟨empty, result⟩ | ⟨before, element, after, path, rfl, earlier, at_element, result⟩
          · exact Or.inl ⟨List.forall_mem_cons.mpr ⟨found, empty⟩, result⟩
          · exact Or.inr ⟨head :: before, element, after, path, rfl,
              List.forall_mem_cons.mpr ⟨found, earlier⟩, at_element, result⟩

end FirstNonempty

namespace NetlistGraph

variable (graph : NetlistGraph) (linked : graph.Linked)

/-- The number of registers on a path. -/
def statesOn (path : List NodeRef) : Nat :=
  path.countP fun ref => graph.kindOf ref = .state

/-- The search over all pairs and the policy. -/
def pathQuery (policy : CrossStatePolicy) (fromPoints toPoints : List NodeRef) :
    Option (List NodeRef) :=
  let find := if policy = .never then graph.findComb linked else graph.find linked
  (firstNonempty (fun fromPoint => firstNonempty (find fromPoint) toPoints) fromPoints).map
    fun path => if policy = .once ∧ graph.statesOn path > 1 then [] else path

/-- A range, or the whole signal. -/
def rangeOrWhole (range : Option DriverBitRange) : DriverBitRange :=
  range.getD ⟨0, 2147483647⟩

/-- The targets of enabled edges that carry the signal in the range. -/
def consumers (name : String) (range : Option DriverBitRange) : List NodeRef :=
  (((graph.edgesOfSymbol name).filter fun edge =>
    !edge.disabled && edge.bounds.overlaps (rangeOrWhole range)).map NetlistEdge.target).eraseDups

/-- The drivers of the signal in the range. -/
def drivers (addresses : Addresses) (name : String) (range : Option DriverBitRange) :
    List NodeRef :=
  ((graph.getBitDrivers addresses name (rangeOrWhole range)).map Prod.snd).eraseDups

/-- The query between two signals. -/
def signalPath (addresses : Addresses) (policy : CrossStatePolicy) (fromSignal : String)
    (fromRange : Option DriverBitRange) (toSignal : String) (toRange : Option DriverBitRange) :
    Except String (Option (List NodeRef)) :=
  let fromPoints := graph.consumers fromSignal fromRange
  let toPoints := graph.drivers addresses toSignal toRange
  if fromPoints.isEmpty || toPoints.isEmpty then .error "could not resolve signal endpoint"
  else .ok (graph.pathQuery linked policy fromPoints toPoints)

/-- The node consumes the signal in the range over an enabled edge. -/
def Consumes (name : String) (range : Option DriverBitRange) (ref : NodeRef) : Prop :=
  ∃ edge ∈ graph.edges, edge.disabled = false ∧ edge.symbol = some name ∧
    edge.bounds.overlaps (rangeOrWhole range) = true ∧ edge.target = ref

/-- The node drives the signal in the range. -/
def Drives (name : String) (range : Option DriverBitRange) (ref : NodeRef) : Prop :=
  ∃ edge ∈ graph.edges, edge.symbol = some name ∧
    edge.bounds.overlaps (rangeOrWhole range) = true ∧ edge.source = ref

/-- Enabled edges lead from the one node to another one. -/
def Connected (pair : NodeRef × NodeRef) : Prop :=
  pair.1 ≠ pair.2 ∧ graph.Reaches enabledEdge pair.1 pair.2

variable {graph} {linked}

theorem mem_consumers (linked : graph.Linked) {name : String} {range : Option DriverBitRange}
    {ref : NodeRef} : ref ∈ graph.consumers name range ↔ graph.Consumes name range ref := by
  simp only [consumers, List.mem_eraseDups, List.mem_map, List.mem_filter, mem_edgesOfSymbol,
    Bool.and_eq_true, Bool.not_eq_true', Consumes]
  constructor
  · rintro ⟨edge, ⟨⟨member, _, carried⟩, enabled, overlapping⟩, rfl⟩
    exact ⟨edge, member, enabled, carried, overlapping, rfl⟩
  · rintro ⟨edge, member, enabled, carried, overlapping, rfl⟩
    exact ⟨edge, ⟨⟨member, (linked.ends edge member).1, carried⟩, enabled, overlapping⟩, rfl⟩

theorem mem_drivers (linked : graph.Linked) {addresses : Addresses} {name : String}
    {range : Option DriverBitRange} {ref : NodeRef} :
    ref ∈ graph.drivers addresses name range ↔ graph.Drives name range ref := by
  simp only [drivers, getBitDrivers, List.mem_eraseDups, List.mem_map, List.mem_mergeSort,
    List.mem_filterMap, mem_edgesOfSymbol, Option.map_eq_some_iff, Drives]
  constructor
  · rintro ⟨_, ⟨edge, ⟨member, _, carried⟩, clipped, found, rfl⟩, rfl⟩
    refine ⟨edge, member, carried, ?_, rfl⟩
    unfold DriverBitRange.intersection at found
    split at found
    · next overlapping => exact overlapping
    · cases found
  · rintro ⟨edge, member, carried, overlapping, rfl⟩
    exact ⟨(_, edge.source), ⟨edge, ⟨member, (linked.ends edge member).1, carried⟩, _,
      by rw [DriverBitRange.intersection, if_pos overlapping], rfl⟩, rfl⟩

/-- The finder returns the first path between connected nodes. -/
theorem find_cases (linked : graph.Linked) (pair : NodeRef × NodeRef) :
    (¬ graph.Connected pair ∧ graph.find linked pair.1 pair.2 = some []) ∨
    graph.Connected pair ∧ ∃ path,
      FirstPath ((graph.directed linked).successors .forward enabledEdge) pair.1 pair.2 path ∧
      graph.find linked pair.1 pair.2 = some path := by
  rcases PathFinder.findPath_spec (graph.directed linked) enabledEdge pair.1 pair.2 with
    ⟨missed, found⟩ | ⟨differ, path, first, found⟩
  · refine Or.inl ⟨fun connected => ?_, found⟩
    rcases missed with same | unreachable
    · exact connected.1 same
    · exact unreachable (reachable_iff.mpr connected.2)
  · exact Or.inr ⟨⟨differ, reachable_iff.mp (DirectedGraph.reachable_of_firstPath first)⟩, path,
      first, found⟩

/-- The first connected pair, in the order of the loops, and the first path between its nodes. -/
def FirstConnected (linked : graph.Linked) (fromPoints toPoints : List NodeRef)
    (path : List NodeRef) : Prop :=
  ∃ before pair after, fromPoints ×ˢ toPoints = before ++ pair :: after ∧
    (∀ earlier ∈ before, ¬ graph.Connected earlier) ∧ graph.Connected pair ∧
    FirstPath ((graph.directed linked).successors .forward enabledEdge) pair.1 pair.2 path

theorem FirstConnected.unique {fromPoints toPoints path other : List NodeRef}
    (first : graph.FirstConnected linked fromPoints toPoints path)
    (second : graph.FirstConnected linked fromPoints toPoints other) : path = other := by
  obtain ⟨before, pair, after, split, earlier, connected, firstPath⟩ := first
  obtain ⟨otherBefore, otherPair, otherAfter, otherSplit, otherEarlier, otherConnected,
    otherPath⟩ := second
  rw [split] at otherSplit
  have same : pair = otherPair := by
    rcases List.append_eq_append_iff.mp otherSplit with ⟨middle, front, back⟩ | ⟨middle, front, back⟩
    · cases middle with
      | nil => exact (List.cons.inj back).1
      | cons head middle =>
          obtain ⟨rfl, _⟩ := List.cons.inj back
          exact absurd connected (otherEarlier pair (by simp [front]))
    · cases middle with
      | nil => exact (List.cons.inj back).1.symm
      | cons head middle =>
          obtain ⟨rfl, _⟩ := List.cons.inj back
          exact absurd otherConnected (earlier otherPair (by simp [front]))
  subst same
  exact firstPath.unique otherPath

/-- The search over all pairs finds the first path between the first connected pair. -/
theorem search_cases (linked : graph.Linked) (fromPoints toPoints : List NodeRef) :
    ((∀ fromPoint ∈ fromPoints, ∀ toPoint ∈ toPoints, ¬ graph.Connected (fromPoint, toPoint)) ∧
      firstNonempty (fun fromPoint => firstNonempty (graph.find linked fromPoint) toPoints)
        fromPoints = some []) ∨
    ∃ path, graph.FirstConnected linked fromPoints toPoints path ∧ path ≠ [] ∧
      firstNonempty (fun fromPoint => firstNonempty (graph.find linked fromPoint) toPoints)
        fromPoints = some path := by
  have total : ∀ pair ∈ fromPoints ×ˢ toPoints, ∃ path,
      graph.find linked pair.1 pair.2 = some path := by
    intro pair _
    rcases find_cases linked pair with ⟨_, found⟩ | ⟨_, path, _, found⟩
    · exact ⟨[], found⟩
    · exact ⟨path, found⟩
  have apart : ∀ pair, graph.find linked pair.1 pair.2 = some [] → ¬ graph.Connected pair := by
    rintro pair found
    rcases find_cases linked pair with ⟨apart, _⟩ | ⟨_, path, first, also⟩
    · exact apart
    · cases found.symm.trans also
      cases first.head
  rw [firstNonempty_product]
  rcases firstNonempty_cases _ total with
    ⟨empty, result⟩ | ⟨before, pair, after, path, split, earlier, found, nonempty, result⟩
  · refine Or.inl ⟨fun fromPoint fromMem toPoint toMem => ?_, result⟩
    exact apart (fromPoint, toPoint) (empty _ (List.pair_mem_product.mpr ⟨fromMem, toMem⟩))
  · refine Or.inr ⟨path, ⟨before, pair, after, split, fun other member => ?_, ?_⟩, nonempty, result⟩
    · exact apart other (earlier other member)
    · rcases find_cases linked pair with ⟨_, also⟩ | ⟨connected, other, first, also⟩
      · cases found.symm.trans also
        exact absurd rfl nonempty
      · cases found.symm.trans also
        exact ⟨connected, first⟩

/-- Some connected pair has a first path, namely the first connected pair. -/
theorem FirstConnected.connected {fromPoints toPoints path : List NodeRef}
    (first : graph.FirstConnected linked fromPoints toPoints path) :
    ∃ fromPoint ∈ fromPoints, ∃ toPoint ∈ toPoints, graph.Connected (fromPoint, toPoint) ∧
      graph.IsPath enabledEdge fromPoint toPoint path := by
  obtain ⟨before, pair, after, split, _, connected, firstPath⟩ := first
  have member : pair ∈ fromPoints ×ˢ toPoints := by simp [split]
  obtain ⟨fromMem, toMem⟩ := List.mem_product.mp member
  exact ⟨pair.1, fromMem, pair.2, toMem, connected, isPath_of_firstPath firstPath⟩

/-- The query between two signals tells whether a consumer of the one reaches a driver of the other. -/
def AnswersReachability (graph : NetlistGraph) (linked : graph.Linked) (addresses : Addresses)
    (fromSignal : String) (fromRange : Option DriverBitRange) (toSignal : String)
    (toRange : Option DriverBitRange) : Prop :=
  ∃ path, graph.signalPath linked addresses .unlimited fromSignal fromRange toSignal toRange =
      .ok (some path) ∧
    (path ≠ [] ↔ ∃ consumer driver, graph.Consumes fromSignal fromRange consumer ∧
      graph.Drives toSignal toRange driver ∧ graph.Reaches enabledEdge consumer driver)

/-- Some simple path between the points crosses at most one register. -/
def CrossesOnce (graph : NetlistGraph) (fromPoints toPoints : List NodeRef) : Prop :=
  ∃ fromPoint ∈ fromPoints, ∃ toPoint ∈ toPoints, ∃ simple,
    graph.IsPath enabledEdge fromPoint toPoint simple ∧ graph.statesOn simple ≤ 1

/-- The policy `once` depends on the graph and not on the search. -/
def OnceOfGraph (graph : NetlistGraph) (linked : graph.Linked)
    (fromPoints toPoints : List NodeRef) : Prop :=
  ∃ path, graph.pathQuery linked .once fromPoints toPoints = some path ∧
    (path ≠ [] ↔ graph.CrossesOnce fromPoints toPoints) ∧ graph.statesOn path ≤ 1

/-- Some search result is not empty exactly if some pair is connected. -/
theorem exists_search (linked : graph.Linked) (fromPoints toPoints : List NodeRef) :
    ∃ path, firstNonempty (fun fromPoint => firstNonempty (graph.find linked fromPoint) toPoints)
        fromPoints = some path ∧
      (path ≠ [] ↔ ∃ fromPoint ∈ fromPoints, ∃ toPoint ∈ toPoints,
        graph.Connected (fromPoint, toPoint)) := by
  rcases search_cases linked fromPoints toPoints with ⟨apart, result⟩ | ⟨path, first, nonempty, result⟩
  · refine ⟨[], result, fun differ => absurd rfl differ, ?_⟩
    rintro ⟨fromPoint, fromMem, toPoint, toMem, connected⟩
    exact absurd connected (apart fromPoint fromMem toPoint toMem)
  · obtain ⟨fromPoint, fromMem, toPoint, toMem, connected, _⟩ := first.connected
    exact ⟨path, result, fun _ => ⟨fromPoint, fromMem, toPoint, toMem, connected⟩, fun _ => nonempty⟩

end NetlistGraph

open NetlistGraph

/--
The query is right exactly if a node that consumes the one signal and drives
the other is not the only reason for a path: no path is returned for it.
-/
theorem signalPath_iff (graph : NetlistGraph) (linked : graph.Linked) (addresses : Addresses)
    (fromSignal : String) (fromRange : Option DriverBitRange) (toSignal : String)
    (toRange : Option DriverBitRange)
    (consumed : ∃ consumer, graph.Consumes fromSignal fromRange consumer)
    (driven : ∃ driver, graph.Drives toSignal toRange driver) :
    graph.AnswersReachability linked addresses fromSignal fromRange toSignal toRange ↔
      ((∃ node, graph.Consumes fromSignal fromRange node ∧ graph.Drives toSignal toRange node) →
        ∃ consumer driver, graph.Consumes fromSignal fromRange consumer ∧
          graph.Drives toSignal toRange driver ∧ consumer ≠ driver ∧
          graph.Reaches enabledEdge consumer driver) := by
  obtain ⟨path, searched, exact⟩ := exists_search linked
    (graph.consumers fromSignal fromRange) (graph.drivers addresses toSignal toRange)
  have queried : graph.signalPath linked addresses .unlimited fromSignal fromRange toSignal toRange =
      .ok (some path) := by
    obtain ⟨consumer, consumes⟩ := consumed
    obtain ⟨driver, drives⟩ := driven
    have someConsumer := List.ne_nil_of_mem ((mem_consumers linked).mpr consumes)
    have someDriver : graph.drivers addresses toSignal toRange ≠ [] :=
      List.ne_nil_of_mem ((mem_drivers linked).mpr drives)
    simp [signalPath, pathQuery, someConsumer, someDriver, searched]
  simp only [mem_consumers linked, mem_drivers linked, Connected] at exact
  simp only [AnswersReachability, queried, Except.ok.injEq, Option.some.injEq, exists_eq_left']
  rw [exact]
  constructor
  · rintro answers ⟨node, consumes, drives⟩
    obtain ⟨consumer, consumed, driver, driven, differ, reaches⟩ :=
      answers.mpr ⟨node, node, consumes, drives, .refl⟩
    exact ⟨consumer, driver, consumed, driven, differ, reaches⟩
  · intro other
    constructor
    · rintro ⟨consumer, consumed, driver, driven, _, reaches⟩
      exact ⟨consumer, driver, consumed, driven, reaches⟩
    · rintro ⟨consumer, driver, consumed, driven, reaches⟩
      by_cases same : consumer = driver
      · obtain ⟨consumer, driver, consumed, driven, differ, reaches⟩ :=
          other ⟨consumer, consumed, same ▸ driven⟩
        exact ⟨consumer, consumed, driver, driven, differ, reaches⟩
      · exact ⟨consumer, consumed, driver, driven, same, reaches⟩

/-- The graph of the assignment `y = a`. -/
def wireNetlist : NetlistGraph where
  nodes := [
    { ref := ⟨0, .port, 0⟩, ID := 1, data := .port "a" "m.a" {} .inDir {} },
    { ref := ⟨0, .assignment, 0⟩, ID := 2, data := .assignment {} },
    { ref := ⟨0, .port, 1⟩, ID := 3, data := .port "y" "m.y" {} .outDir {} }]
  edges := [
    { source := ⟨0, .port, 0⟩, target := ⟨0, .assignment, 0⟩, symbol := some "m.a" },
    { source := ⟨0, .assignment, 0⟩, target := ⟨0, .port, 1⟩, symbol := some "m.y" }]

theorem wireNetlist_linked : wireNetlist.Linked := by
  decide

/-- The assignment consumes `a` and drives `y`, and no path is returned. -/
theorem signalPath_wire :
    ¬ wireNetlist.AnswersReachability wireNetlist_linked NodeRef.serial "m.a" none "m.y" none := by
  rintro ⟨path, queried, exact⟩
  have nothing : wireNetlist.signalPath wireNetlist_linked NodeRef.serial .unlimited "m.a" none
      "m.y" none = .ok (some []) := by decide +kernel
  obtain rfl : path = [] := by
    rw [nothing] at queried
    cases queried
    rfl
  have consumes : wireNetlist.Consumes "m.a" none ⟨0, .assignment, 0⟩ :=
    ⟨_, List.mem_cons_self, by decide⟩
  have drives : wireNetlist.Drives "m.y" none ⟨0, .assignment, 0⟩ :=
    ⟨_, List.mem_cons_of_mem _ List.mem_cons_self, by decide⟩
  exact exact.mpr ⟨_, _, consumes, drives, .refl⟩ rfl

theorem signalPath_iff_wire :
    wireNetlist.AnswersReachability wireNetlist_linked NodeRef.serial "m.a" none "m.y" none ↔
      ((∃ node, wireNetlist.Consumes "m.a" none node ∧ wireNetlist.Drives "m.y" none node) →
        ∃ consumer driver, wireNetlist.Consumes "m.a" none consumer ∧
          wireNetlist.Drives "m.y" none driver ∧ consumer ≠ driver ∧
          wireNetlist.Reaches enabledEdge consumer driver) :=
  signalPath_iff wireNetlist wireNetlist_linked NodeRef.serial "m.a" none "m.y" none
    ⟨⟨0, .assignment, 0⟩, _, List.mem_cons_self, by decide⟩
    ⟨⟨0, .assignment, 0⟩, _, List.mem_cons_of_mem _ List.mem_cons_self, by decide⟩

/--
The policy is right exactly if the first path between the first connected pair
crosses at most one register wherever some simple path does.
-/
theorem once_iff (graph : NetlistGraph) (linked : graph.Linked)
    (fromPoints toPoints : List NodeRef) :
    graph.OnceOfGraph linked fromPoints toPoints ↔
      (graph.CrossesOnce fromPoints toPoints →
        ∃ path, graph.FirstConnected linked fromPoints toPoints path ∧
          graph.statesOn path ≤ 1) := by
  unfold OnceOfGraph
  rcases search_cases linked fromPoints toPoints with
    ⟨apart, result⟩ | ⟨path, first, nonempty, result⟩
  · have queried : graph.pathQuery linked .once fromPoints toPoints = some [] := by
      simp [pathQuery, result]
    simp only [queried, Option.some.injEq, exists_eq_left', ne_eq, not_true_eq_false, false_iff]
    constructor
    · rintro ⟨never, _⟩ crosses
      exact absurd crosses never
    · intro given
      refine ⟨fun crosses => ?_, by simp [statesOn]⟩
      obtain ⟨path, first, _⟩ := given crosses
      obtain ⟨fromPoint, fromMem, toPoint, toMem, connected, _⟩ := first.connected
      exact apart fromPoint fromMem toPoint toMem connected
  · by_cases few : graph.statesOn path ≤ 1
    · have queried : graph.pathQuery linked .once fromPoints toPoints = some path := by
        simp [pathQuery, result, Nat.not_lt.mpr few]
      obtain ⟨fromPoint, fromMem, toPoint, toMem, _, isPath⟩ := first.connected
      simp only [queried, Option.some.injEq, exists_eq_left', nonempty, ne_eq, not_false_eq_true,
        true_iff, few, and_true]
      exact ⟨fun _ _ => ⟨path, first, few⟩,
        fun _ => ⟨fromPoint, fromMem, toPoint, toMem, path, isPath, few⟩⟩
    · have queried : graph.pathQuery linked .once fromPoints toPoints = some [] := by
        simp [pathQuery, result, Nat.not_le.mp few]
      simp only [queried, Option.some.injEq, exists_eq_left', ne_eq, not_true_eq_false, false_iff]
      constructor
      · rintro ⟨never, _⟩ crosses
        exact absurd crosses never
      · intro given
        refine ⟨fun crosses => ?_, by simp [statesOn]⟩
        obtain ⟨other, otherFirst, otherFew⟩ := given crosses
        exact few (first.unique otherFirst ▸ otherFew)

/-- An assignment that feeds another one directly and, as its first edge, through two registers. -/
def detourNetlist : NetlistGraph where
  nodes := [
    { ref := ⟨0, .assignment, 0⟩, ID := 1, data := .assignment {} },
    { ref := ⟨0, .state, 0⟩, ID := 2, data := .state "p" "m.p" {} {} },
    { ref := ⟨0, .state, 1⟩, ID := 3, data := .state "q" "m.q" {} {} },
    { ref := ⟨0, .assignment, 1⟩, ID := 4, data := .assignment {} }]
  edges := [
    { source := ⟨0, .assignment, 0⟩, target := ⟨0, .state, 0⟩ },
    { source := ⟨0, .state, 0⟩, target := ⟨0, .state, 1⟩ },
    { source := ⟨0, .state, 1⟩, target := ⟨0, .assignment, 1⟩ },
    { source := ⟨0, .assignment, 0⟩, target := ⟨0, .assignment, 1⟩ }]

theorem detourNetlist_linked : detourNetlist.Linked := by
  decide

/-- The path through both registers is found and dropped, the direct one is not tried. -/
theorem once_detour :
    ¬ detourNetlist.OnceOfGraph detourNetlist_linked [⟨0, .assignment, 0⟩]
      [⟨0, .assignment, 1⟩] := by
  rintro ⟨path, queried, exact, _⟩
  have nothing : detourNetlist.pathQuery detourNetlist_linked .once [⟨0, .assignment, 0⟩]
      [⟨0, .assignment, 1⟩] = some [] := by decide +kernel
  obtain rfl : path = [] := by
    rw [nothing] at queried
    cases queried
    rfl
  have direct : detourNetlist.IsPath enabledEdge ⟨0, .assignment, 0⟩ ⟨0, .assignment, 1⟩
      [⟨0, .assignment, 0⟩, ⟨0, .assignment, 1⟩] :=
    ⟨rfl, rfl, by decide, by
      simpa using ⟨{ source := ⟨0, .assignment, 0⟩, target := ⟨0, .assignment, 1⟩ }, by decide⟩⟩
  exact exact.mpr ⟨_, List.mem_cons_self, _, List.mem_cons_self, _, direct, by decide⟩ rfl

theorem once_iff_detour :
    detourNetlist.OnceOfGraph detourNetlist_linked [⟨0, .assignment, 0⟩] [⟨0, .assignment, 1⟩] ↔
      (detourNetlist.CrossesOnce [⟨0, .assignment, 0⟩] [⟨0, .assignment, 1⟩] →
        ∃ path, detourNetlist.FirstConnected detourNetlist_linked [⟨0, .assignment, 0⟩]
          [⟨0, .assignment, 1⟩] path ∧ detourNetlist.statesOn path ≤ 1) :=
  once_iff detourNetlist detourNetlist_linked _ _

end SlangNetlist
