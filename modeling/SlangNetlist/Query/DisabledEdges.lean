import SlangNetlist.Query.FanQueries
import SlangNetlist.Query.SelectedSearch

/-!
# Disabled edges

The edges of a set are disabled or removed.  All queries but two see the enabled
edges only: the drivers of a signal and the test for driven ports look at every
edge, and the answers agree exactly where these make no difference.
-/

namespace SlangNetlist

open Library

namespace NetlistGraph

section Definitions

variable (graph : NetlistGraph) (marked : Nat → Bool)

/-- The edges, and whether the edge at each position is in the set. -/
def markedEdges : List (NetlistEdge × Bool) :=
  graph.edges.mapIdx fun index edge => (edge, marked index)

/-- The graph with the edges of the set disabled. -/
def disableMarked : NetlistGraph :=
  { graph with
    edges := (graph.markedEdges marked).map fun item =>
      if item.2 then { item.1 with disabled := true } else item.1 }

/-- The graph without the edges of the set. -/
def removeMarked : NetlistGraph :=
  { graph with
    edges := ((graph.markedEdges marked).filter fun item => !item.2).map Prod.fst }

end Definitions

section Marked

variable {graph : NetlistGraph} {marked : Nat → Bool}

theorem map_markedEdges : (graph.markedEdges marked).map Prod.fst = graph.edges :=
  List.ext_getElem (by simp [markedEdges]) fun index inMap inEdges => by simp [markedEdges]

theorem mem_disableMarked {edge : NetlistEdge} :
    edge ∈ (graph.disableMarked marked).edges ↔ ∃ item ∈ graph.markedEdges marked,
      edge = if item.2 then { item.1 with disabled := true } else item.1 := by
  simp only [disableMarked, List.mem_map, eq_comm]

theorem mem_removeMarked {edge : NetlistEdge} :
    edge ∈ (graph.removeMarked marked).edges ↔ (edge, false) ∈ graph.markedEdges marked := by
  simp only [removeMarked, List.mem_map, List.mem_filter, Bool.not_eq_true']
  constructor
  · rintro ⟨⟨_, _⟩, ⟨member, rfl⟩, rfl⟩
    exact member
  · exact fun member => ⟨_, ⟨member, rfl⟩, rfl⟩

theorem mem_edges_of_marked {item : NetlistEdge × Bool}
    (member : item ∈ graph.markedEdges marked) : item.1 ∈ graph.edges := by
  rw [← @map_markedEdges graph marked]
  exact List.mem_map.mpr ⟨item, member, rfl⟩

theorem Linked.disableMarked (linked : graph.Linked) (marked : Nat → Bool) :
    (graph.disableMarked marked).Linked where
  refs := linked.refs
  ids := linked.ids
  ends edge member := by
    obtain ⟨item, itemMem, rfl⟩ := mem_disableMarked.mp member
    have ends := linked.ends item.1 (mem_edges_of_marked itemMem)
    split <;> exact ends

theorem Linked.removeMarked (linked : graph.Linked) (marked : Nat → Bool) :
    (graph.removeMarked marked).Linked where
  refs := linked.refs
  ids := linked.ids
  ends edge member := linked.ends edge (mem_edges_of_marked (mem_removeMarked.mp member))

/-- A predicate of enabled edges selects the same edges of both graphs. -/
theorem filter_marked {selected : NetlistEdge → Bool}
    (enabled : ∀ edge, selected edge = true → edge.disabled = false) :
    (graph.disableMarked marked).edges.filter selected =
      (graph.removeMarked marked).edges.filter selected := by
  simp only [disableMarked, removeMarked]
  induction graph.markedEdges marked with
  | nil => rfl
  | cons item rest ih =>
      obtain ⟨edge, inSet⟩ := item
      cases inSet with
      | false =>
          simp only [List.map_cons, List.filter_cons, Bool.not_false, if_true, Bool.false_eq_true,
            if_false, ih]
      | true =>
          have skipped : selected { edge with disabled := true } = false := by
            by_contra chosen
            have := enabled _ (Bool.eq_true_of_not_eq_false chosen)
            simp at this
          simpa [skipped] using ih

theorem filter_inEdges {selected : NetlistEdge → Bool}
    (enabled : ∀ edge, selected edge = true → edge.disabled = false) (node : NodeRef) :
    ((graph.disableMarked marked).inEdges node).filter selected =
      ((graph.removeMarked marked).inEdges node).filter selected := by
  simp only [inEdges, List.filter_filter]
  exact filter_marked fun edge both => enabled edge (Bool.and_eq_true_iff.mp both).1

theorem filter_outEdges {selected : NetlistEdge → Bool}
    (enabled : ∀ edge, selected edge = true → edge.disabled = false) (node : NodeRef) :
    ((graph.disableMarked marked).outEdges node).filter selected =
      ((graph.removeMarked marked).outEdges node).filter selected := by
  simp only [outEdges, List.filter_filter]
  exact filter_marked fun edge both => enabled edge (Bool.and_eq_true_iff.mp both).1

/-! ## Searches -/

/-- A search with a predicate of enabled edges sees the same graph. -/
theorem select_marked (linked : graph.Linked) {selected : NetlistEdge → Bool}
    (enabled : ∀ edge, selected edge = true → edge.disabled = false) :
    ((graph.disableMarked marked).directed (linked.disableMarked marked)).select selected =
      ((graph.removeMarked marked).directed (linked.removeMarked marked)).select selected :=
  DirectedGraph.select_congr rfl (filter_marked enabled) rfl rfl

theorem enabled_of_enabledEdge (edge : NetlistEdge) (selected : enabledEdge edge = true) :
    edge.disabled = false := by
  simpa [enabledEdge] using selected

theorem enabled_of_combEdge (edge : NetlistEdge) (selected : graph.combEdge edge = true) :
    edge.disabled = false := by
  simp only [combEdge, Bool.and_eq_true, Bool.not_eq_true'] at selected
  exact selected.1

theorem enabled_of_combFanForward (edge : NetlistEdge)
    (selected : graph.combFanForward edge = true) : edge.disabled = false := by
  simp only [combFanForward, Bool.and_eq_true, Bool.not_eq_true'] at selected
  exact selected.1

theorem enabled_of_combFanBackward (edge : NetlistEdge)
    (selected : graph.combFanBackward edge = true) : edge.disabled = false := by
  simp only [combFanBackward, Bool.and_eq_true, Bool.not_eq_true'] at selected
  exact selected.1

variable (linked : graph.Linked) (marked)

theorem findPath_marked {selected : NetlistEdge → Bool}
    (enabled : ∀ edge, selected edge = true → edge.disabled = false) (startNode endNode : NodeRef) :
    PathFinder.findPath ((graph.disableMarked marked).directed (linked.disableMarked marked))
        selected startNode endNode =
      PathFinder.findPath ((graph.removeMarked marked).directed (linked.removeMarked marked))
        selected startNode endNode := by
  rw [PathFinder.findPath_select, select_marked linked enabled, ← PathFinder.findPath_select]

theorem find_marked (startNode endNode : NodeRef) :
    (graph.disableMarked marked).find (linked.disableMarked marked) startNode endNode =
      (graph.removeMarked marked).find (linked.removeMarked marked) startNode endNode :=
  findPath_marked marked linked enabled_of_enabledEdge startNode endNode

theorem findComb_marked (startNode endNode : NodeRef) :
    (graph.disableMarked marked).findComb (linked.disableMarked marked) startNode endNode =
      (graph.removeMarked marked).findComb (linked.removeMarked marked) startNode endNode :=
  findPath_marked marked linked (@enabled_of_combEdge graph) startNode endNode

theorem getAllLoops_marked :
    (graph.disableMarked marked).getAllLoops (linked.disableMarked marked) =
      (graph.removeMarked marked).getAllLoops (linked.removeMarked marked) := by
  have enabled := @enabled_of_combEdge graph
  change CycleDetector.detectCycles _ graph.combEdge graph.nodeID =
    CycleDetector.detectCycles _ graph.combEdge graph.nodeID
  rw [CycleDetector.detectCycles_select, select_marked linked enabled,
    ← CycleDetector.detectCycles_select]

theorem getCombFanIn_marked (node : NodeRef) :
    (graph.disableMarked marked).getCombFanIn (linked.disableMarked marked) node =
      (graph.removeMarked marked).getCombFanIn (linked.removeMarked marked) node := by
  have enabled := @enabled_of_combFanBackward graph
  change Option.map _ (DepthFirstSearch.traverse _ _ _ graph.combFanBackward _ _) =
    Option.map _ (DepthFirstSearch.traverse _ _ _ graph.combFanBackward _ _)
  rw [DepthFirstSearch.visitor_traverse_select, select_marked linked enabled,
    ← DepthFirstSearch.visitor_traverse_select]

theorem getCombFanOut_marked (node : NodeRef) :
    (graph.disableMarked marked).getCombFanOut (linked.disableMarked marked) node =
      (graph.removeMarked marked).getCombFanOut (linked.removeMarked marked) node := by
  have enabled := @enabled_of_combFanForward graph
  change Option.map _ (DepthFirstSearch.traverse _ _ _ graph.combFanForward _ _) =
    Option.map _ (DepthFirstSearch.traverse _ _ _ graph.combFanForward _ _)
  rw [DepthFirstSearch.visitor_traverse_select, select_marked linked enabled,
    ← DepthFirstSearch.visitor_traverse_select]

/-! ## Worklists -/

variable {linked} (graph)

theorem combSources_marked :
    (graph.disableMarked marked).combSources = (graph.removeMarked marked).combSources := by
  funext node
  have same := @filter_inEdges graph marked (fun edge => !edge.disabled) (by simp) node
  simp only [combSources, same]
  rfl

theorem combTargets_marked :
    (graph.disableMarked marked).combTargets = (graph.removeMarked marked).combTargets := by
  funext node
  have same := @filter_outEdges graph marked graph.combFanForward enabled_of_combFanForward node
  exact congrArg (List.map NetlistEdge.target) same

theorem fanOutSeeds_marked (name : String) (bounds : DriverBitRange) :
    (graph.disableMarked marked).fanOutSeeds name bounds =
      (graph.removeMarked marked).fanOutSeeds name bounds := by
  have same : ((graph.disableMarked marked).edgesOfSymbol name).filter
        (fun edge => !edge.disabled && edge.bounds.overlaps bounds) =
      ((graph.removeMarked marked).edgesOfSymbol name).filter
        fun edge => !edge.disabled && edge.bounds.overlaps bounds := by
    simp only [edgesOfSymbol, List.filter_filter, List.filter_flatMap]
    refine List.flatMap_congr fun node _ => filter_outEdges (fun edge chosen => ?_) node.ref
    simp only [Bool.and_eq_true, Bool.not_eq_true'] at chosen
    exact chosen.1.1
  rw [fanOutSeeds, fanOutSeeds, same]

theorem getSignalCombFanOut_marked (name : String) (bounds : DriverBitRange) (maxDepth : Nat) :
    (graph.disableMarked marked).getSignalCombFanOut name bounds maxDepth =
      (graph.removeMarked marked).getSignalCombFanOut name bounds maxDepth := by
  rw [getSignalCombFanOut, getSignalCombFanOut, combTargets_marked, fanOutSeeds_marked]
  rfl

/-! ## Sensitivity -/

/-- A fold that passes over some elements is the fold over the others. -/
theorem foldl_filter_of_skip {Item State : Type} {step : State → Item → State}
    {selected : Item → Bool} (skip : ∀ state item, selected item = false → step state item = state)
    (items : List Item) (state : State) :
    items.foldl step state = (items.filter selected).foldl step state := by
  induction items generalizing state with
  | nil => rfl
  | cons item rest ih =>
      cases chosen : selected item with
      | true => rw [List.filter_cons_of_pos chosen, List.foldl_cons, List.foldl_cons, ih]
      | false => rw [List.filter_cons_of_neg (by simp [chosen]), List.foldl_cons, skip _ _ chosen, ih]

theorem collectFromState_marked :
    (graph.disableMarked marked).collectFromState = (graph.removeMarked marked).collectFromState := by
  funext state result
  have same := @filter_inEdges graph marked (fun edge => !edge.disabled) (by simp) state
  unfold collectFromState
  rw [@foldl_filter_of_skip _ _ _ (fun edge : NetlistEdge => !edge.disabled) (fun _ edge skipped => by
      rw [if_pos (Or.inl (by simpa using skipped))]),
    same, ← foldl_filter_of_skip (fun _ edge skipped => by
      rw [if_pos (Or.inl (by simpa using skipped))])]

theorem lookAt_marked :
    (graph.disableMarked marked).lookAt = (graph.removeMarked marked).lookAt := by
  funext walk edge
  simp only [lookAt, collectFromState_marked]
  rfl

theorem sensitivityLoop_marked (fuel : Nat) (walk : SensitivityWalk) :
    (graph.disableMarked marked).sensitivityLoop fuel walk =
      (graph.removeMarked marked).sensitivityLoop fuel walk := by
  induction fuel generalizing walk with
  | zero =>
      obtain ⟨visited, _ | ⟨cur, rest⟩, result⟩ := walk <;> rfl
  | succ fuel ih =>
      obtain ⟨visited, _ | ⟨cur, rest⟩, result⟩ := walk
      · rfl
      · have same := @filter_outEdges graph marked (fun edge => !edge.disabled) (by simp) cur
        have skip (walk : SensitivityWalk) (edge : NetlistEdge)
            (skipped : (!edge.disabled) = false) :
            (graph.removeMarked marked).lookAt walk edge = walk := by
          rw [lookAt, if_pos (by simpa using skipped)]
        rw [sensitivityLoop, sensitivityLoop, ih, lookAt_marked, foldl_filter_of_skip skip, same,
          ← foldl_filter_of_skip skip]

theorem getSensitivity_marked (node : NodeRef) :
    (graph.disableMarked marked).getSensitivity node =
      (graph.removeMarked marked).getSensitivity node := by
  simp only [getSensitivity, collectFromState_marked, sensitivityLoop_marked]
  rfl

end Marked

/-! ## The answers -/

/-- Both queries end, with the same items in some order. -/
def Agree {Item : Type} (first second : Option (List Item)) : Prop :=
  ∃ one other, first = some one ∧ second = some other ∧ one.Perm other

theorem agree_of_eq {Item : Type} {first second : Option (List Item)} (same : first = second)
    (found : ∃ result, second = some result) : Agree first second := by
  obtain ⟨result, found⟩ := found
  exact ⟨result, result, same.trans found, found, List.Perm.refl _⟩

/-- Lists without duplicates agree if they have the same members. -/
theorem agree_iff_of_nodup {Item : Type} {first second : Option (List Item)}
    {one other : List Item} (found : first = some one) (otherFound : second = some other)
    (nodup : one.Nodup) (otherNodup : other.Nodup) :
    Agree first second ↔ ∀ item, item ∈ one ↔ item ∈ other := by
  constructor
  · rintro ⟨same, otherSame, found', otherFound', perm⟩ item
    obtain rfl := Option.some.inj (found.symm.trans found')
    obtain rfl := Option.some.inj (otherFound.symm.trans otherFound')
    exact perm.mem_iff
  · exact fun members =>
      ⟨one, other, found, otherFound, (List.perm_ext_iff_of_nodup nodup otherNodup).mpr members⟩

variable (graph : NetlistGraph) (linked : graph.Linked) (marked : Nat → Bool)

/-- The queries answer alike whether the edges of the set are disabled or removed. -/
structure DisabledInvisible : Prop where
  find : ∀ startNode endNode, ∃ path,
    (graph.disableMarked marked).find (linked.disableMarked marked) startNode endNode =
        some path ∧
      (graph.removeMarked marked).find (linked.removeMarked marked) startNode endNode = some path
  findComb : ∀ startNode endNode, ∃ path,
    (graph.disableMarked marked).findComb (linked.disableMarked marked) startNode endNode =
        some path ∧
      (graph.removeMarked marked).findComb (linked.removeMarked marked) startNode endNode =
        some path
  loops : Agree ((graph.disableMarked marked).getAllLoops (linked.disableMarked marked))
    ((graph.removeMarked marked).getAllLoops (linked.removeMarked marked))
  combFanIn : ∀ node, Agree
    ((graph.disableMarked marked).getCombFanIn (linked.disableMarked marked) node)
    ((graph.removeMarked marked).getCombFanIn (linked.removeMarked marked) node)
  combFanOut : ∀ node, Agree
    ((graph.disableMarked marked).getCombFanOut (linked.disableMarked marked) node)
    ((graph.removeMarked marked).getCombFanOut (linked.removeMarked marked) node)
  signalCombFanIn : ∀ addresses name bounds maxDepth, Agree
    ((graph.disableMarked marked).getSignalCombFanIn addresses name bounds maxDepth)
    ((graph.removeMarked marked).getSignalCombFanIn addresses name bounds maxDepth)
  signalCombFanOut : ∀ name bounds maxDepth, Agree
    ((graph.disableMarked marked).getSignalCombFanOut name bounds maxDepth)
    ((graph.removeMarked marked).getSignalCombFanOut name bounds maxDepth)
  sensitivity : ∀ node, graph.HasNode node → Agree
    ((graph.disableMarked marked).getSensitivity node)
    ((graph.removeMarked marked).getSensitivity node)
  constantDrivers : ∀ node, Agree
    ((graph.disableMarked marked).getConstantDrivers (linked.disableMarked marked) node)
    ((graph.removeMarked marked).getConstantDrivers (linked.removeMarked marked) node)

/-- A driver of the range, or a node that feeds a driver that is not a register directly. -/
def NearDriver (name : String) (bounds : DriverBitRange) (node : NodeRef) : Prop :=
  graph.Drives name (some bounds) node ∨
    ∃ driver, graph.Drives name (some bounds) driver ∧ node ∈ graph.combSources driver

/--
The source of every marked edge of a signal, and what feeds it directly, are
near the drivers of the signal over the other edges.
-/
def SeedsKept : Prop :=
  ∀ name bounds edge, (edge, true) ∈ graph.markedEdges marked → edge.symbol = some name →
    edge.bounds.overlaps bounds = true →
    (graph.removeMarked marked).NearDriver name bounds edge.source ∧
      ∀ source ∈ (graph.removeMarked marked).combSources edge.source,
        (graph.removeMarked marked).NearDriver name bounds source

/--
Where the fan-in of a node has another constant and another port that no
unmarked edge drives, it has another port that no edge drives.
-/
def PortsKept : Prop :=
  ∀ node,
    (∃ constant, constant ≠ node ∧ graph.kindOf constant = .constant ∧
      (graph.removeMarked marked).CombFanIn (linked.removeMarked marked) node constant) →
    (∃ port, port ≠ node ∧ graph.kindOf port = .port ∧
      (graph.removeMarked marked).CombFanIn (linked.removeMarked marked) node port ∧
        (graph.removeMarked marked).isDriven port = false) →
    ∃ port, port ≠ node ∧ graph.kindOf port = .port ∧
      (graph.removeMarked marked).CombFanIn (linked.removeMarked marked) node port ∧
        graph.isDriven port = false

variable {graph} {marked}

/-! ## The fan-in of a signal -/

theorem within_one {addresses : Addresses} {name : String} {bounds : DriverBitRange}
    {node : NodeRef} :
    Within graph.combSources (graph.fanInSeeds addresses name bounds) 1 node ↔
      node ∈ graph.fanInSeeds addresses name bounds ∨
        ∃ driver ∈ graph.fanInSeeds addresses name bounds, node ∈ graph.combSources driver :=
  Iff.rfl

/-- The drivers with the marked edges disabled: those over the other edges, and the sources. -/
theorem drives_disableMarked {name : String} {bounds : DriverBitRange} {node : NodeRef} :
    (graph.disableMarked marked).Drives name (some bounds) node ↔
      (graph.removeMarked marked).Drives name (some bounds) node ∨
        ∃ edge, (edge, true) ∈ graph.markedEdges marked ∧ edge.symbol = some name ∧
          edge.bounds.overlaps bounds = true ∧ edge.source = node := by
  constructor
  · rintro ⟨_, member, carried, overlapping, rfl⟩
    obtain ⟨⟨edge, inSet⟩, itemMem, rfl⟩ := mem_disableMarked.mp member
    cases inSet with
    | false => exact Or.inl ⟨edge, mem_removeMarked.mpr itemMem, carried, overlapping, rfl⟩
    | true => exact Or.inr ⟨edge, itemMem, carried, overlapping, rfl⟩
  · rintro (⟨edge, member, carried, overlapping, rfl⟩ | ⟨edge, member, carried, overlapping, rfl⟩)
    · exact ⟨edge, mem_disableMarked.mpr ⟨_, mem_removeMarked.mp member, rfl⟩, carried,
        overlapping, rfl⟩
    · exact ⟨{ edge with disabled := true }, mem_disableMarked.mpr ⟨_, member, rfl⟩, carried,
        overlapping, rfl⟩

theorem nearDriver_iff (linked : graph.Linked) {addresses : Addresses} {name : String}
    {bounds : DriverBitRange} {node : NodeRef} :
    Within graph.combSources (graph.fanInSeeds addresses name bounds) 1 node ↔
      graph.NearDriver name bounds node := by
  simp only [within_one, mem_fanInSeeds linked, NearDriver]

/-- The two cones agree if the nodes within the bound are the same. -/
theorem signalCombFanIn_agree_iff (linked : graph.Linked) {addresses : Addresses} {name : String}
    {bounds : DriverBitRange} {maxDepth : Nat} :
    Agree ((graph.disableMarked marked).getSignalCombFanIn addresses name bounds maxDepth)
        ((graph.removeMarked marked).getSignalCombFanIn addresses name bounds maxDepth) ↔
      ∀ node, (∃ steps, (maxDepth = 0 ∨ steps ≤ maxDepth) ∧
          Within (graph.removeMarked marked).combSources
            ((graph.disableMarked marked).fanInSeeds addresses name bounds) steps node) ↔
        ∃ steps, (maxDepth = 0 ∨ steps ≤ maxDepth) ∧
          Within (graph.removeMarked marked).combSources
            ((graph.removeMarked marked).fanInSeeds addresses name bounds) steps node := by
  obtain ⟨one, found, nodup, _, members⟩ :=
    exists_getSignalCombFanIn (linked.disableMarked marked) addresses name bounds maxDepth
  obtain ⟨other, otherFound, otherNodup, _, otherMembers⟩ :=
    exists_getSignalCombFanIn (linked.removeMarked marked) addresses name bounds maxDepth
  rw [agree_iff_of_nodup found otherFound nodup otherNodup]
  simp only [members, otherMembers, combSources_marked]

theorem fanInSeeds_mono (linked : graph.Linked) {addresses : Addresses} {name : String}
    {bounds : DriverBitRange} {node : NodeRef}
    (seed : node ∈ (graph.removeMarked marked).fanInSeeds addresses name bounds) :
    node ∈ (graph.disableMarked marked).fanInSeeds addresses name bounds :=
  (mem_fanInSeeds (linked.disableMarked marked)).mpr
    (drives_disableMarked.mpr (Or.inl ((mem_fanInSeeds (linked.removeMarked marked)).mp seed)))

/-- Where the seeds are kept, one step from either list of seeds comes to the same nodes. -/
theorem SeedsKept.within_one (keeps : graph.SeedsKept marked) (linked : graph.Linked)
    (addresses : Addresses) (name : String) (bounds : DriverBitRange) (node : NodeRef) :
    Within (graph.removeMarked marked).combSources
        ((graph.disableMarked marked).fanInSeeds addresses name bounds) 1 node ↔
      Within (graph.removeMarked marked).combSources
        ((graph.removeMarked marked).fanInSeeds addresses name bounds) 1 node := by
  have settled (driver : NodeRef)
      (seed : driver ∈ (graph.disableMarked marked).fanInSeeds addresses name bounds) :
      (graph.removeMarked marked).NearDriver name bounds driver ∧
        ∀ source ∈ (graph.removeMarked marked).combSources driver,
          (graph.removeMarked marked).NearDriver name bounds source := by
    rcases drives_disableMarked.mp ((mem_fanInSeeds (linked.disableMarked marked)).mp seed) with
      drives | ⟨edge, edgeMem, carried, overlapping, rfl⟩
    · exact ⟨Or.inl drives, fun source member => Or.inr ⟨driver, drives, member⟩⟩
    · exact keeps name bounds edge edgeMem carried overlapping
  constructor
  · rw [nearDriver_iff (linked.removeMarked marked)]
    rintro (seed | ⟨driver, seed, member⟩)
    · exact (settled node seed).1
    · exact (settled driver seed).2 node member
  · exact Or.imp (fanInSeeds_mono linked) fun ⟨driver, seed, member⟩ =>
      ⟨driver, fanInSeeds_mono linked seed, member⟩

theorem signalCombFanIn_iff (linked : graph.Linked) :
    (∀ addresses name bounds maxDepth, Agree
      ((graph.disableMarked marked).getSignalCombFanIn addresses name bounds maxDepth)
      ((graph.removeMarked marked).getSignalCombFanIn addresses name bounds maxDepth)) ↔
      graph.SeedsKept marked := by
  constructor
  · intro agree name bounds edge edgeMem carried overlapping
    let addresses : Addresses := NodeRef.serial
    -- At depth one the cone is what is near the drivers.
    have same := (signalCombFanIn_agree_iff linked).mp (agree addresses name bounds 1)
    have atOne {node : NodeRef} (within : Within (graph.removeMarked marked).combSources
        ((graph.disableMarked marked).fanInSeeds addresses name bounds) 1 node) :
        (graph.removeMarked marked).NearDriver name bounds node := by
      obtain ⟨steps, few, reached⟩ := (same node).mp ⟨1, Or.inr le_rfl, within⟩
      exact (nearDriver_iff (linked.removeMarked marked)).mp
        (reached.mono (few.resolve_left Nat.one_ne_zero))
    have seed : edge.source ∈ (graph.disableMarked marked).fanInSeeds addresses name bounds :=
      (mem_fanInSeeds (linked.disableMarked marked)).mpr
        (drives_disableMarked.mpr (Or.inr ⟨edge, edgeMem, carried, overlapping, rfl⟩))
    exact ⟨atOne (Or.inl seed), fun source member => atOne (Or.inr ⟨edge.source, seed, member⟩)⟩
  · intro keeps addresses name bounds maxDepth
    rw [signalCombFanIn_agree_iff linked]
    have one := keeps.within_one linked addresses name bounds
    intro node
    constructor
    · rintro ⟨steps, few, reached⟩
      cases steps with
      | zero =>
          -- A seed of a cone without depth bound, or within one step.
          refine ⟨1, by omega, (one node).mp (Or.inl reached)⟩
      | succ steps =>
          exact ⟨steps + 1, few, (within_congr one (Nat.succ_pos steps) node).mp reached⟩
    · rintro ⟨steps, few, reached⟩
      cases steps with
      | zero => exact ⟨0, few, fanInSeeds_mono linked reached⟩
      | succ steps =>
          exact ⟨steps + 1, few, (within_congr one (Nat.succ_pos steps) node).mpr reached⟩

/-! ## Constant drivers -/

theorem isDriven_disableMarked (ref : NodeRef) :
    (graph.disableMarked marked).isDriven ref = graph.isDriven ref := by
  have plain : graph.isDriven ref =
      ((graph.markedEdges marked).map Prod.fst).any fun edge => edge.target = ref := by
    rw [map_markedEdges]
    rfl
  rw [plain, isDriven, disableMarked, List.any_map, List.any_map]
  refine congrArg _ (funext fun item => ?_)
  simp only [Function.comp]
  split <;> rfl

theorem isDriven_of_removeMarked {ref : NodeRef}
    (driven : (graph.removeMarked marked).isDriven ref = true) : graph.isDriven ref = true := by
  obtain ⟨edge, member, target⟩ := List.any_eq_true.mp driven
  exact List.any_eq_true.mpr
    ⟨edge, mem_edges_of_marked (mem_removeMarked.mp member), target⟩

theorem combFanIn_marked (linked : graph.Linked) {node other : NodeRef} :
    (graph.disableMarked marked).CombFanIn (linked.disableMarked marked) node other ↔
      (graph.removeMarked marked).CombFanIn (linked.removeMarked marked) node other := by
  obtain ⟨one, found, _, members⟩ :=
    exists_getCombFanIn (graph.disableMarked marked) (linked.disableMarked marked) node
  obtain ⟨two, otherFound, _, otherMembers⟩ :=
    exists_getCombFanIn (graph.removeMarked marked) (linked.removeMarked marked) node
  rw [getCombFanIn_marked marked linked node, otherFound] at found
  obtain rfl := Option.some.inj found
  rw [← members, otherMembers]

/-- No register is in the fan-in of another node, so that only ports are sources there. -/
theorem exists_source_iff {netlist : NetlistGraph} {netlistLinked : netlist.Linked}
    {node : NodeRef} :
    (∃ port, port ≠ node ∧ netlist.CombFanIn netlistLinked node port ∧ netlist.IsSource port) ↔
      ∃ port, port ≠ node ∧ netlist.kindOf port = .port ∧
        netlist.CombFanIn netlistLinked node port ∧ netlist.isDriven port = false := by
  constructor
  · rintro ⟨port, differ, inside, state | ⟨kind, undriven⟩⟩
    · exact absurd state (inside.last differ).2
    · exact ⟨port, differ, kind, inside, undriven⟩
  · rintro ⟨port, differ, kind, inside, undriven⟩
    exact ⟨port, differ, inside, Or.inr ⟨kind, undriven⟩⟩

theorem constantDrivers_iff (linked : graph.Linked) :
    (∀ node, Agree
      ((graph.disableMarked marked).getConstantDrivers (linked.disableMarked marked) node)
      ((graph.removeMarked marked).getConstantDrivers (linked.removeMarked marked) node)) ↔
      graph.PortsKept linked marked := by
  refine forall_congr' fun node => ?_
  obtain ⟨one, found, nodup, members⟩ :=
    exists_getConstantDrivers (graph.disableMarked marked) (linked.disableMarked marked) node
  obtain ⟨two, otherFound, otherNodup, otherMembers⟩ :=
    exists_getConstantDrivers (graph.removeMarked marked) (linked.removeMarked marked) node
  have kinds (ref : NodeRef) : (graph.disableMarked marked).kindOf ref = graph.kindOf ref := rfl
  have otherKinds (ref : NodeRef) : (graph.removeMarked marked).kindOf ref = graph.kindOf ref := rfl
  simp only [exists_source_iff, kinds, otherKinds] at members otherMembers
  simp only [combFanIn_marked linked, isDriven_disableMarked] at members
  rw [agree_iff_of_nodup found otherFound nodup otherNodup]
  constructor
  · rintro same ⟨constant, differ, kind, inside⟩ undriven
    by_contra absent
    have listed := (same constant).mp ((members constant).mpr ⟨differ, kind, inside, absent⟩)
    exact ((otherMembers constant).mp listed).2.2.2 undriven
  · intro keeps other
    rw [members, otherMembers]
    refine and_congr_right fun differ => and_congr_right fun kind => and_congr_right fun inside =>
      not_congr ⟨?_, fun undriven => keeps ⟨other, differ, kind, inside⟩ undriven⟩
    rintro ⟨port, portDiffer, portKind, portInside, undriven⟩
    refine ⟨port, portDiffer, portKind, portInside, ?_⟩
    by_contra driven
    rw [isDriven_of_removeMarked (Bool.eq_true_of_not_eq_false driven)] at undriven
    cases undriven

/--
Disabling a set of edges is the same as removing it, for all queries and
arguments, if and only if the drivers and the undriven ports are kept.
-/
theorem disabledInvisible_iff (graph : NetlistGraph) (linked : graph.Linked)
    (marked : Nat → Bool) :
    graph.DisabledInvisible linked marked ↔
      graph.SeedsKept marked ∧ graph.PortsKept linked marked := by
  constructor
  · exact fun invisible => ⟨(signalCombFanIn_iff linked).mp invisible.signalCombFanIn,
      (constantDrivers_iff linked).mp invisible.constantDrivers⟩
  rintro ⟨seedsKept, portsKept⟩
  have removed := linked.removeMarked marked
  exact {
    find := fun startNode endNode => by
      obtain ⟨path, found, _⟩ := @findPath_found _ removed enabledEdge startNode endNode
      exact ⟨path, (find_marked marked linked startNode endNode).trans found, found⟩
    findComb := fun startNode endNode => by
      obtain ⟨path, found, _⟩ := @findPath_found _ removed (graph.removeMarked marked).combEdge
        startNode endNode
      exact ⟨path, (findComb_marked marked linked startNode endNode).trans found, found⟩
    loops := by
      obtain ⟨cycles, found, _⟩ := CycleDetector.exists_detectCycles
        ((graph.removeMarked marked).directed removed) (graph.removeMarked marked).combEdge
        (graph.removeMarked marked).nodeID (nodeID_injective removed)
      exact agree_of_eq (getAllLoops_marked marked linked) ⟨cycles, found⟩
    combFanIn := fun node => by
      obtain ⟨fanIn, found, _⟩ := exists_getCombFanIn _ removed node
      exact agree_of_eq (getCombFanIn_marked marked linked node) ⟨fanIn, found⟩
    combFanOut := fun node => by
      obtain ⟨fanOut, found, _⟩ := exists_getCombFanOut _ removed node
      exact agree_of_eq (getCombFanOut_marked marked linked node) ⟨fanOut, found⟩
    signalCombFanIn := (signalCombFanIn_iff linked).mpr seedsKept
    signalCombFanOut := fun name bounds maxDepth => by
      obtain ⟨cone, found, _⟩ := exists_getSignalCombFanOut removed name bounds maxDepth
      exact agree_of_eq (getSignalCombFanOut_marked graph marked name bounds maxDepth) ⟨cone, found⟩
    sensitivity := fun node present =>
      agree_of_eq (getSensitivity_marked graph marked node) (exists_getSensitivity removed present)
    constantDrivers := (constantDrivers_iff linked).mpr portsKept }

/-- The edge from the port `q` to the port `p` carries `m.q`; an assignment reads `p` and a one. -/
def passedNetlist : NetlistGraph where
  nodes := [
    { ref := ⟨0, .port, 0⟩, ID := 1, data := .port "q" "m.q" {} .inDir {} },
    { ref := ⟨0, .port, 1⟩, ID := 2, data := .port "p" "m.p" {} .inDir {} },
    { ref := ⟨0, .constant, 0⟩, ID := 3, data := .constant (.integer ⟨[.one]⟩) 1 {} },
    { ref := ⟨0, .assignment, 0⟩, ID := 4, data := .assignment {} }]
  edges := [
    { source := ⟨0, .port, 0⟩, target := ⟨0, .port, 1⟩, symbol := some "m.q" },
    { source := ⟨0, .port, 1⟩, target := ⟨0, .assignment, 0⟩ },
    { source := ⟨0, .constant, 0⟩, target := ⟨0, .assignment, 0⟩ }]

theorem passedNetlist_linked : passedNetlist.Linked := by
  decide

/-- The disabled edge from `q` still drives the signal `m.q` and the port `p`. -/
theorem disabledInvisible_passed :
    (passedNetlist.disableMarked (· = 0)).getSignalCombFanIn NodeRef.serial "m.q" {} 0 =
        some [⟨0, .port, 0⟩] ∧
      (passedNetlist.removeMarked (· = 0)).getSignalCombFanIn NodeRef.serial "m.q" {} 0 = some [] ∧
      ¬ passedNetlist.DisabledInvisible passedNetlist_linked (· = 0) := by
  have disabled : (passedNetlist.disableMarked (· = 0)).getSignalCombFanIn NodeRef.serial "m.q" {} 0 =
      some [⟨0, .port, 0⟩] := by decide +kernel
  have removed : (passedNetlist.removeMarked (· = 0)).getSignalCombFanIn NodeRef.serial "m.q" {} 0 =
      some [] := by decide +kernel
  refine ⟨disabled, removed, fun invisible => ?_⟩
  obtain ⟨one, other, found, otherFound, perm⟩ := invisible.signalCombFanIn NodeRef.serial "m.q" {} 0
  obtain rfl := Option.some.inj (disabled.symm.trans found)
  obtain rfl := Option.some.inj (removed.symm.trans otherFound)
  exact absurd perm.length_eq (by decide)

/-- The edge from `p` carries no symbol and drives no port, so that it may as well be removed. -/
theorem disabledInvisible_iff_passed :
    passedNetlist.DisabledInvisible passedNetlist_linked (· = 1) := by
  have unnamed : ∀ item ∈ passedNetlist.markedEdges (· = 1), item.2 = true →
      item.1.symbol = .none := by decide
  have driven : ∀ edge ∈ passedNetlist.edges, passedNetlist.kindOf edge.target = .port →
      edge ∈ (passedNetlist.removeMarked (· = 1)).edges := by decide +kernel
  refine (disabledInvisible_iff passedNetlist passedNetlist_linked (· = 1)).mpr
    ⟨fun name bounds edge member carried => ?_, ?_⟩
  · have absent := unnamed _ member rfl
    rw [carried] at absent
    cases absent
  · rintro node _ ⟨port, differ, kind, inside, undriven⟩
    refine ⟨port, differ, kind, inside, ?_⟩
    simp only [isDriven, List.any_eq_false, decide_eq_true_eq] at undriven ⊢
    rintro edge member rfl
    exact undriven edge (driven edge member kind) rfl

end NetlistGraph

end SlangNetlist
