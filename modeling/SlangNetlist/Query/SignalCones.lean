import SlangNetlist.Query.FanQueries

/-!
# The cones of a signal

The fan-in of a signal goes back from its drivers and the fan-out on from its
consumers, both breadth first and up to a depth.  The fan-in does not expand
registers; the fan-out expands a register that consumes the signal.
-/

namespace SlangNetlist

open Library

namespace NetlistGraph

variable (graph : NetlistGraph)

/-! ## Distances -/

/-- An enabled edge into a node that is not a register leads back to its source. -/
def StepsBack (node before : NodeRef) : Prop :=
  graph.kindOf node ≠ .state ∧
    ∃ edge ∈ graph.inEdges node, edge.disabled = false ∧ edge.source = before

/-- A driver that `getBitDrivers` returns, whatever the addresses. -/
def IsBitDriver (name : String) (bounds : DriverBitRange) (node : NodeRef) : Prop :=
  ∀ addresses, ∃ range, (range, node) ∈ graph.getBitDrivers addresses name bounds

/-- The breadth-first distance of a node, back from the drivers. -/
abbrev FanInDistance (name : String) (bounds : DriverBitRange) : NodeRef → Nat → Prop :=
  Distance graph.StepsBack (graph.IsBitDriver name bounds)

/-- An enabled edge joins two nodes that are not registers. -/
def StepsOn (node next : NodeRef) : Prop :=
  graph.kindOf node ≠ .state ∧ graph.kindOf next ≠ .state ∧
    ∃ edge ∈ graph.outEdges node, edge.disabled = false ∧ edge.target = next

/-- The breadth-first distance of a node, on from the consumers. -/
abbrev FanOutDistance (name : String) (bounds : DriverBitRange) : NodeRef → Nat → Prop :=
  Distance graph.StepsOn (graph.Consumes name (some bounds))

/-- What the fan-in of a signal is. -/
structure FanInExact (name : String) (bounds : DriverBitRange) (maxDepth : Nat)
    (cone : List NodeRef) : Prop where
  nodup : cone.Nodup
  ordered : cone.Pairwise fun node other => ∀ near far, graph.FanInDistance name bounds node near →
    graph.FanInDistance name bounds other far → near ≤ far
  exact : ∀ node, node ∈ cone ↔ ∃ distance, (maxDepth = 0 ∨ distance ≤ maxDepth) ∧
    graph.FanInDistance name bounds node distance

/-- What the fan-out of a signal is. -/
structure FanOutExact (name : String) (bounds : DriverBitRange) (maxDepth : Nat)
    (cone : List NodeRef) : Prop where
  nodup : cone.Nodup
  exact : ∀ node, node ∈ cone ↔ graph.Consumes name (some bounds) node ∨
    graph.kindOf node ≠ .state ∧ ∃ distance, (maxDepth = 0 ∨ distance ≤ maxDepth) ∧
      graph.FanOutDistance name bounds node distance

/--
What lies within the depth behind a register that consumes the signal also
lies within the depth of a consumer on a way that leaves no register.
-/
def RegistersAddNothing (name : String) (bounds : DriverBitRange) (maxDepth : Nat) : Prop :=
  ∀ register, graph.Consumes name (some bounds) register → graph.kindOf register = .state →
    ∀ node steps, (maxDepth = 0 ∨ steps ≤ maxDepth) →
      Walk (graph.StepsTo graph.combEdge) (· = register) steps node →
        ∃ steps, (maxDepth = 0 ∨ steps ≤ maxDepth) ∧
          Walk graph.StepsOn (graph.Consumes name (some bounds)) steps node

variable {graph} {addresses : Addresses} {name : String} {bounds : DriverBitRange}
  {maxDepth steps : Nat} {node : NodeRef}

/-! ## The fan-in -/

theorem mem_combSources_iff {before : NodeRef} :
    before ∈ graph.combSources node ↔ graph.StepsBack node before := by
  rw [mem_combSources, StepsBack]
  refine and_congr_right fun _ => ⟨?_, ?_⟩
  · rintro ⟨edge, member, enabled, rfl, rfl⟩
    exact ⟨edge, List.mem_filter.mpr ⟨member, decide_eq_true rfl⟩, enabled, rfl⟩
  · rintro ⟨edge, member, enabled, rfl⟩
    obtain ⟨member, target⟩ := List.mem_filter.mp member
    exact ⟨edge, member, enabled, of_decide_eq_true target, rfl⟩

theorem mem_fanInSeeds_iff :
    node ∈ graph.fanInSeeds addresses name bounds ↔ graph.IsBitDriver name bounds node := by
  rw [fanInSeeds, mem_unseen, and_iff_left List.not_mem_nil, List.mem_map]
  constructor
  · rintro ⟨⟨range, _⟩, member, rfl⟩ other
    exact ⟨range, mem_getBitDrivers_iff.mpr (mem_getBitDrivers_iff.mp member)⟩
  · intro drives
    obtain ⟨range, member⟩ := drives addresses
    exact ⟨(range, node), member, rfl⟩

/-- The distances of the worklist are those back from the drivers. -/
theorem fanInDistance_iff {distance : Nat} :
    Distance (fun node before => before ∈ graph.combSources node)
        (· ∈ graph.fanInSeeds addresses name bounds) node distance ↔
      graph.FanInDistance name bounds node distance :=
  distance_congr (fun _ _ => mem_combSources_iff) fun _ => mem_fanInSeeds_iff

theorem exists_fanInExact (linked : graph.Linked) (addresses : Addresses) (name : String)
    (bounds : DriverBitRange) (maxDepth : Nat) :
    ∃ cone, graph.getSignalCombFanIn addresses name bounds maxDepth = some cone ∧
      graph.FanInExact name bounds maxDepth cone := by
  obtain ⟨cone, found, nodup, ordered, members⟩ :=
    exists_getSignalCombFanIn linked addresses name bounds maxDepth
  refine ⟨cone, found, nodup, ordered.imp ?_, fun node => ?_⟩
  · intro node other noFarther near far nearest farthest
    exact noFarther.le (fanInDistance_iff.mpr nearest) (fanInDistance_iff.mpr farthest)
  · rw [members, exists_within_iff]
    simp only [fanInDistance_iff]

/-- A larger depth keeps the nodes of a cone. -/
theorem FanInExact.mono {deeper : Nat} {cone larger : List NodeRef}
    (exact : graph.FanInExact name bounds maxDepth cone)
    (deeperExact : graph.FanInExact name bounds deeper larger) (positive : maxDepth ≠ 0)
    (more : maxDepth ≤ deeper) : cone ⊆ larger := by
  intro node member
  obtain ⟨distance, near, shortest⟩ := (exact.exact node).mp member
  exact (deeperExact.exact node).mpr
    ⟨distance, Or.inr (Nat.le_trans (near.resolve_left positive) more), shortest⟩

/-- A depth beyond the number of nodes is no limit. -/
theorem getSignalCombFanIn_of_deep (graph : NetlistGraph) (addresses : Addresses) (name : String)
    (bounds : DriverBitRange) (deep : graph.nodes.length ≤ maxDepth) :
    graph.getSignalCombFanIn addresses name bounds maxDepth =
      graph.getSignalCombFanIn addresses name bounds 0 := by
  refine levels_of_fuel fun item member => ?_
  obtain ⟨seed, _, rfl⟩ := List.mem_map.mp member
  rwa [Nat.zero_add]

/--
On every graph the fan-in of a signal is exact for each depth, a larger depth
removes no node, and some depth gives the fan-in without a limit.
-/
theorem getSignalCombFanIn_exact (graph : NetlistGraph) (linked : graph.Linked)
    (addresses : Addresses) (name : String) (bounds : DriverBitRange) :
    (∀ maxDepth, ∃ cone, graph.getSignalCombFanIn addresses name bounds maxDepth = some cone ∧
      graph.FanInExact name bounds maxDepth cone) ∧
    (∀ maxDepth deeper cone larger, maxDepth ≠ 0 → maxDepth ≤ deeper →
      graph.getSignalCombFanIn addresses name bounds maxDepth = some cone →
      graph.getSignalCombFanIn addresses name bounds deeper = some larger → cone ⊆ larger) ∧
    ∃ maxDepth, maxDepth ≠ 0 ∧
      graph.getSignalCombFanIn addresses name bounds maxDepth =
        graph.getSignalCombFanIn addresses name bounds 0 := by
  refine ⟨exists_fanInExact linked addresses name bounds, ?_, graph.nodes.length + 1,
    Nat.succ_ne_zero _, getSignalCombFanIn_of_deep graph addresses name bounds (Nat.le_succ _)⟩
  intro maxDepth deeper cone larger positive more found deeperFound
  obtain ⟨_, coneFound, coneExact⟩ := exists_fanInExact linked addresses name bounds maxDepth
  obtain ⟨_, largerFound, largerExact⟩ := exists_fanInExact linked addresses name bounds deeper
  cases found.symm.trans coneFound
  cases deeperFound.symm.trans largerFound
  exact coneExact.mono largerExact positive more

/-! ## The fan-out -/

theorem mem_combTargets_iff {next : NodeRef} :
    next ∈ graph.combTargets node ↔ graph.StepsTo graph.combEdge node next := by
  simp only [combTargets, outEdges, List.mem_map, List.mem_filter, StepsTo]
  constructor
  · rintro ⟨edge, ⟨⟨member, source⟩, selects⟩, target⟩
    exact ⟨edge, member, selects, of_decide_eq_true source, target⟩
  · rintro ⟨edge, member, selects, source, target⟩
    exact ⟨edge, ⟨⟨member, decide_eq_true source⟩, selects⟩, target⟩

/-- A step of the search from a node that is not a register. -/
theorem stepsOn_iff {next : NodeRef} : graph.StepsOn node next ↔
    graph.kindOf node ≠ .state ∧ graph.StepsTo graph.combEdge node next := by
  simp only [StepsOn, StepsTo, outEdges, List.mem_filter, combEdge, Bool.and_eq_true,
    Bool.not_eq_true', bne_iff_ne]
  refine and_congr_right fun _ => ⟨?_, ?_⟩
  · rintro ⟨combinational, edge, ⟨member, source⟩, enabled, rfl⟩
    exact ⟨edge, member, ⟨enabled, combinational⟩, of_decide_eq_true source, rfl⟩
  · rintro ⟨edge, member, ⟨enabled, combinational⟩, source, rfl⟩
    exact ⟨combinational, edge, ⟨member, decide_eq_true source⟩, enabled, rfl⟩

/-- The nodes of the cone are those with a walk within the depth. -/
theorem exists_fanOut (linked : graph.Linked) (name : String) (bounds : DriverBitRange)
    (maxDepth : Nat) :
    ∃ cone, graph.getSignalCombFanOut name bounds maxDepth = some cone ∧ cone.Nodup ∧
      ∀ node, node ∈ cone ↔ ∃ steps, (maxDepth = 0 ∨ steps ≤ maxDepth) ∧
        Walk (graph.StepsTo graph.combEdge) (graph.Consumes name (some bounds)) steps node := by
  obtain ⟨cone, found, nodup, _, members⟩ :=
    exists_getSignalCombFanOut linked name bounds maxDepth
  refine ⟨cone, found, nodup, fun node => ?_⟩
  rw [members]
  constructor
  · rintro ⟨depth, near, within⟩
    obtain ⟨steps, few, walk⟩ := within_iff_walk.mp within
    exact ⟨steps, near.imp_right fun bounded => Nat.le_trans few bounded,
      walk.imp (fun _ _ => mem_combTargets_iff.mp) fun _ => (mem_fanOutSeeds linked).mp⟩
  · rintro ⟨steps, near, walk⟩
    exact ⟨steps, near, within_iff_walk.mpr ⟨steps, Nat.le_refl steps,
      walk.imp (fun _ _ => mem_combTargets_iff.mpr) fun _ => (mem_fanOutSeeds linked).mpr⟩⟩

/-- A walk that leaves no register ends in a register only where it starts. -/
theorem start_of_register {Start : NodeRef → Prop} (register : graph.kindOf node = .state)
    (walk : Walk graph.StepsOn Start steps node) : steps = 0 ∧ Start node := by
  cases walk with
  | start starting => exact ⟨rfl, starting⟩
  | step _ last => exact absurd register last.2.1

/-- A walk of the search leaves no register, or it starts at one. -/
theorem walk_cases {Start : NodeRef → Prop}
    (walk : Walk (graph.StepsTo graph.combEdge) Start steps node) :
    Walk graph.StepsOn Start steps node ∨ ∃ register, Start register ∧
      graph.kindOf register = .state ∧
      Walk (graph.StepsTo graph.combEdge) (· = register) steps node := by
  induction walk with
  | start starting => exact Or.inl (.start starting)
  | @step steps before node _ last ih =>
      rcases ih with stateless | ⟨register, starting, state, walked⟩
      · by_cases register : graph.kindOf before = .state
        · obtain ⟨rfl, starting⟩ := start_of_register register stateless
          have here : Walk (graph.StepsTo graph.combEdge) (· = before) 0 before := .start rfl
          exact Or.inr ⟨before, starting, register, here.step last⟩
        · exact Or.inl (stateless.step (stepsOn_iff.mpr ⟨register, last⟩))
      · exact Or.inr ⟨register, starting, state, walked.step last⟩

/-- What the fan-out is, by walks that leave no register. -/
theorem fanOutExact_iff {cone : List NodeRef} (nodup : cone.Nodup) :
    graph.FanOutExact name bounds maxDepth cone ↔ ∀ node, node ∈ cone ↔
      ∃ steps, (maxDepth = 0 ∨ steps ≤ maxDepth) ∧
        Walk graph.StepsOn (graph.Consumes name (some bounds)) steps node := by
  have same : ∀ node, (graph.Consumes name (some bounds) node ∨
      graph.kindOf node ≠ .state ∧ ∃ distance, (maxDepth = 0 ∨ distance ≤ maxDepth) ∧
        graph.FanOutDistance name bounds node distance) ↔
      ∃ steps, (maxDepth = 0 ∨ steps ≤ maxDepth) ∧
        Walk graph.StepsOn (graph.Consumes name (some bounds)) steps node := by
    intro node
    constructor
    · rintro (consumes | ⟨_, distance, near, shortest⟩)
      · exact ⟨0, Or.inr (Nat.zero_le maxDepth), .start consumes⟩
      · exact ⟨distance, near, shortest.1⟩
    · rintro ⟨steps, near, walk⟩
      by_cases register : graph.kindOf node = .state
      · exact Or.inl (start_of_register register walk).2
      · obtain ⟨distance, few, shortest⟩ := walk.distance
        exact Or.inr ⟨register, distance,
          near.imp_right fun bounded => Nat.le_trans few bounded, shortest⟩
  simp only [← same]
  exact ⟨fun exact => exact.exact, fun exact => ⟨nodup, exact⟩⟩

/--
The fan-out of a signal is exact if and only if the registers among the
consumers lead to no node that is not in it without them.
-/
theorem getSignalCombFanOut_exact_iff (graph : NetlistGraph) (linked : graph.Linked)
    (name : String) (bounds : DriverBitRange) (maxDepth : Nat) :
    ∃ cone, graph.getSignalCombFanOut name bounds maxDepth = some cone ∧
      (graph.FanOutExact name bounds maxDepth cone ↔
        graph.RegistersAddNothing name bounds maxDepth) := by
  obtain ⟨cone, found, nodup, members⟩ := exists_fanOut linked name bounds maxDepth
  refine ⟨cone, found, ?_⟩
  rw [fanOutExact_iff nodup]
  constructor
  · intro exact register consumes _ node steps near walk
    refine (exact node).mp ((members node).mpr ⟨steps, near, walk.imp (fun _ _ => id) ?_⟩)
    rintro _ rfl
    exact consumes
  · intro nothing node
    rw [members]
    constructor
    · rintro ⟨steps, near, walk⟩
      rcases walk_cases walk with stateless | ⟨register, consumes, state, walked⟩
      · exact ⟨steps, near, stateless⟩
      · exact nothing register consumes state node steps near walked
    · rintro ⟨steps, near, walk⟩
      exact ⟨steps, near, walk.imp (fun _ _ last => (stepsOn_iff.mp last).2) fun _ => id⟩

/-- A register loads `d`, and an assignment reads the register. -/
def pipelineNetlist : NetlistGraph where
  nodes := [
    { ref := ⟨0, .assignment, 0⟩, ID := 1, data := .assignment {} },
    { ref := ⟨0, .state, 0⟩, ID := 2, data := .state "q" "m.q" {} {} },
    { ref := ⟨0, .assignment, 1⟩, ID := 3, data := .assignment {} }]
  edges := [
    { source := ⟨0, .assignment, 0⟩, target := ⟨0, .state, 0⟩, symbol := some "m.d" },
    { source := ⟨0, .state, 0⟩, target := ⟨0, .assignment, 1⟩, symbol := some "m.q" }]

theorem pipelineNetlist_linked : pipelineNetlist.Linked := by
  decide

theorem getSignalCombFanIn_exact_pipeline :
    (∀ maxDepth, ∃ cone,
      pipelineNetlist.getSignalCombFanIn NodeRef.serial "m.q" {} maxDepth = some cone ∧
        pipelineNetlist.FanInExact "m.q" {} maxDepth cone) ∧
    (∀ maxDepth deeper cone larger, maxDepth ≠ 0 → maxDepth ≤ deeper →
      pipelineNetlist.getSignalCombFanIn NodeRef.serial "m.q" {} maxDepth = some cone →
      pipelineNetlist.getSignalCombFanIn NodeRef.serial "m.q" {} deeper = some larger →
        cone ⊆ larger) ∧
    ∃ maxDepth, maxDepth ≠ 0 ∧
      pipelineNetlist.getSignalCombFanIn NodeRef.serial "m.q" {} maxDepth =
        pipelineNetlist.getSignalCombFanIn NodeRef.serial "m.q" {} 0 :=
  getSignalCombFanIn_exact pipelineNetlist pipelineNetlist_linked NodeRef.serial "m.q" {}

theorem getSignalCombFanOut_exact_iff_pipeline :
    ∃ cone, pipelineNetlist.getSignalCombFanOut "m.q" {} 0 = some cone ∧
      (pipelineNetlist.FanOutExact "m.q" {} 0 cone ↔
        pipelineNetlist.RegistersAddNothing "m.q" {} 0) :=
  getSignalCombFanOut_exact_iff pipelineNetlist pipelineNetlist_linked "m.q" {} 0

/-- The register consumes `d`, and the reader behind it is returned as well. -/
theorem getSignalCombFanOut_leaves_register :
    pipelineNetlist.getSignalCombFanOut "m.d" {} 0 =
        some [⟨0, .state, 0⟩, ⟨0, .assignment, 1⟩] ∧
      ¬ pipelineNetlist.FanOutExact "m.d" {} 0 [⟨0, .state, 0⟩, ⟨0, .assignment, 1⟩] := by
  refine ⟨by decide +kernel, fun exact => ?_⟩
  have consumers : ∀ node, pipelineNetlist.Consumes "m.d" (some {}) node → node = ⟨0, .state, 0⟩ := by
    rintro node ⟨edge, member, _, carried, _, rfl⟩
    revert carried
    rcases List.mem_cons.mp member with rfl | other
    · exact fun _ => rfl
    · obtain rfl := List.mem_singleton.mp other
      exact fun other => absurd other (by decide)
  -- A walk that leaves no register stays at the register.
  have stays : ∀ steps node,
      Walk pipelineNetlist.StepsOn (pipelineNetlist.Consumes "m.d" (some {})) steps node →
        node = ⟨0, .state, 0⟩ := by
    intro steps node walk
    induction walk with
    | start consumes => exact consumers _ consumes
    | step _ last ih => exact absurd (ih ▸ by decide +kernel) last.1
  have reader := (exact.exact ⟨0, .assignment, 1⟩).mp (by simp)
  rcases reader with consumes | ⟨_, _, _, shortest⟩
  · exact absurd (consumers _ consumes) (by decide)
  · exact absurd (stays _ _ shortest.1) (by decide)

end NetlistGraph

end SlangNetlist
