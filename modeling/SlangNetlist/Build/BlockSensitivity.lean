import Mathlib.Data.List.Forall2
import SlangNetlist.Build.BlockOrder

/-!
# The events of a block

The sensitivity list of an `always` or `always_ff` block says whether the block
is sequential.  An unqualified event empties it; an event on an expression that
is not a named signal does not enter it.
-/

namespace SlangNetlist

open Library

inductive ProceduralBlockKind where
  | initial
  | final
  | always
  | alwaysComb
  | alwaysLatch
  | alwaysFF
  deriving DecidableEq, Repr

/-- The expression of an event. -/
inductive EventExpression where
  /-- A `ValueExpressionBase`: a signal by its name. -/
  | value (symbol : ValueSymbol)
  /-- A select, a concatenation or any other expression. -/
  | other
  deriving DecidableEq, Repr

structure SignalEventControl where
  edge : EdgeKind
  expr : EventExpression
  /-- The address of the expression. -/
  lsp : Nat
  deriving DecidableEq, Repr

inductive TimingControl where
  | signalEvent (event : SignalEventControl)
  | eventList (events : List SignalEventControl)
  /-- A delay, an implicit event or any other control. -/
  | other
  deriving DecidableEq, Repr

def TimingControl.events : TimingControl → List SignalEventControl
  | .signalEvent event => [event]
  | .eventList events => events
  | .other => []

/-- The statement of a procedural block, by what `collectSensitivity` reads of it. -/
inductive BlockBody where
  | timed (timing : TimingControl)
  /-- A `begin … end` block around a concurrent assertion. -/
  | assertion
  | other
  deriving DecidableEq, Repr

structure ProceduralBlockSymbol where
  procedureKind : ProceduralBlockKind
  body : BlockBody
  deriving DecidableEq, Repr

/-- The two variables of `collectSensitivity`. -/
structure EventScan where
  result : List SensitivityEntry := []
  sawCombEvent : Bool := false

def EventScan.recordEvent (scan : EventScan) (sec : SignalEventControl) : EventScan :=
  if sec.edge = .none then { scan with sawCombEvent := true }
  else
    match sec.expr with
    | .value symbol => { scan with result := scan.result ++ [⟨symbol, sec.lsp, sec.edge⟩] }
    | .other => scan

def collectSensitivity (symbol : ProceduralBlockSymbol) : List SensitivityEntry :=
  if symbol.procedureKind ≠ .alwaysFF ∧ symbol.procedureKind ≠ .always then []
  else
    match symbol.body with
    | .assertion | .other => []
    | .timed timing =>
        let scan := timing.events.foldl EventScan.recordEvent {}
        if scan.sawCombEvent then [] else scan.result

/-- An event without an edge: the block is combinational. -/
def SignalEventControl.Unqualified (event : SignalEventControl) : Prop := event.edge = .none

/-- An event on a signal by its name. -/
def SignalEventControl.Named (event : SignalEventControl) : Prop :=
  ∃ symbol, event.expr = .value symbol

namespace EventScan

variable {scan : EventScan} {events : List SignalEventControl}

theorem sawCombEvent_foldl (scan : EventScan) (events : List SignalEventControl) :
    (events.foldl recordEvent scan).sawCombEvent = true ↔
      scan.sawCombEvent = true ∨ ∃ event ∈ events, event.Unqualified := by
  induction events generalizing scan with
  | nil => simp
  | cons event rest ih =>
      have recorded : (scan.recordEvent event).sawCombEvent = true ↔
          scan.sawCombEvent = true ∨ event.Unqualified := by
        unfold recordEvent SignalEventControl.Unqualified
        split
        · next unqualified => simp [unqualified]
        · next qualified => cases event.expr <;> simp [qualified]
      rw [List.foldl_cons, ih, recorded, List.exists_mem_cons_iff, or_assoc]

/-- Without unqualified events, the named signals are collected. -/
theorem result_foldl (qualified : ¬ ∃ event ∈ events, event.Unqualified) :
    (events.foldl recordEvent scan).result = [] ↔
      scan.result = [] ∧ ¬ ∃ event ∈ events, event.Named := by
  induction events generalizing scan with
  | nil => simp
  | cons event rest ih =>
      rw [List.exists_mem_cons_iff, not_or] at qualified
      have recorded : (scan.recordEvent event).result = [] ↔
          scan.result = [] ∧ ¬ event.Named := by
        rw [recordEvent, if_neg (show ¬ event.edge = .none from qualified.1),
          SignalEventControl.Named]
        cases event.expr <;> simp
      rw [List.foldl_cons, ih qualified.2, recorded, List.exists_mem_cons_iff, not_or, and_assoc]

end EventScan

/-- A block of events is taken for a sequential one if it names a signal, and every event an edge. -/
theorem collectSensitivity_eq_nil {symbol : ProceduralBlockSymbol} {timing : TimingControl}
    (kind : symbol.procedureKind = .always ∨ symbol.procedureKind = .alwaysFF)
    (body : symbol.body = .timed timing) :
    collectSensitivity symbol = [] ↔
      (∃ event ∈ timing.events, event.Unqualified) ∨ ¬ ∃ event ∈ timing.events, event.Named := by
  have always : ¬ (symbol.procedureKind ≠ .alwaysFF ∧ symbol.procedureKind ≠ .always) := by
    rcases kind with kind | kind <;> simp [kind]
  rw [collectSensitivity, if_neg always, body]
  by_cases unqualified : ∃ event ∈ timing.events, event.Unqualified
  · have saw := (EventScan.sawCombEvent_foldl {} timing.events).mpr (Or.inr unqualified)
    simp only [saw, if_true, unqualified, true_or]
  · have saw : (timing.events.foldl EventScan.recordEvent {}).sawCombEvent ≠ true := by
      rw [Ne, EventScan.sawCombEvent_foldl]
      simpa using unqualified
    simp only [saw, Bool.false_eq_true, if_false, unqualified, false_or]
    rw [EventScan.result_foldl unqualified]
    exact and_iff_right rfl

namespace NetlistBuilder

variable {before middle after : NetlistBuilder} {task : Nat} {resolveInterfaceRef : InterfaceRefs}
  {sensitivity : List SensitivityEntry} {write : BlockWrite} {writes : List BlockWrite}

/-- The node is a new State node of the interval, with an edge from each of its drivers. -/
structure Registered (before after : NetlistBuilder) (write : BlockWrite) (state : NetlistNode) :
    Prop where
  isNew : before.graph.New state.ref
  data : ∃ name location,
    state.data = .state name write.symbol.hierarchicalPath location write.bounds
  linked : ∀ source, some source ∈ write.drivers.nodes → after.graph.Joined source state.ref

/--
A block is merged as its events say.  If all have an edge, each interval gets a
State node of its own and no other node is added; if one has none, no node is
added and the intervals are merged into the central driver map.
-/
structure MergedByEvents (events : List SignalEventControl) (before after : NetlistBuilder)
    (writes : List BlockWrite) : Prop where
  sequential : (∀ event ∈ events, ¬ event.Unqualified) →
    ∃ states, after.graph.nodes = before.graph.nodes ++ states ∧
      (states.map NetlistNode.ref).Nodup ∧ List.Forall₂ (Registered before after) writes states
  combinational : (∃ event ∈ events, event.Unqualified) →
    after.graph.nodes = before.graph.nodes ∧
      (writes.map fun write => (⟨write.symbol, write.bounds, write.drivers, true⟩ : DriverCall)).foldlM
        TrackerState.step before.central = some after.central

theorem Registered.mono {state : NetlistNode} (registered : Registered middle after write state)
    (registering : Registering before middle) : Registered before after write state :=
  ⟨registering.new registered.isNew, registered.data, registered.linked⟩

/-- A run of a sequential block adds one State node for each interval. -/
theorem registered_run (sequential : sensitivity ≠ [])
    (merged : writes.foldlM (mergeWrite task resolveInterfaceRef sensitivity) before = some after) :
    ∃ states, after.graph.nodes = before.graph.nodes ++ states ∧
      (states.map NetlistNode.ref).Nodup ∧
      List.Forall₂ (Registered before after) writes states := by
  induction writes generalizing before with
  | nil =>
      cases merged
      exact ⟨[], (List.append_nil _).symm, List.nodup_nil, List.Forall₂.nil⟩
  | cons write rest ih =>
      obtain ⟨middle, stepped, merged⟩ := foldlM_cons_eq_some.mp merged
      obtain ⟨states, laterNodes, apart, registered⟩ := ih merged
      obtain ⟨state, ref, data, nodes, _⟩ := createState_graph before task write.symbol write.bounds
      have only := mergeWrite_sequential sequential stepped
      have created : middle.graph.nodes = before.graph.nodes ++ [state] := only.nodes.trans nodes
      have firstStep := Registering.step sequential stepped
      have isNew : ∀ other ∈ states, middle.graph.New other.ref := by
        obtain ⟨_, sameNodes, ofStates⟩ := (Registering.run sequential merged).states
        obtain rfl := List.append_cancel_left (laterNodes.symm.trans sameNodes)
        exact fun other member => (ofStates other member).1
      refine ⟨state :: states, ?_, ?_, List.Forall₂.cons ⟨?_, data, fun source driver => ?_⟩
        (registered.imp fun _ _ later => later.mono firstStep)⟩
      · rw [laterNodes, created, List.append_assoc, List.singleton_append]
      · rw [List.map_cons, List.nodup_cons]
        refine ⟨fun member => ?_, apart⟩
        obtain ⟨other, otherMem, same⟩ := List.mem_map.mp member
        exact NetlistGraph.new_iff.mp (isNew other otherMem) state (by simp [created]) same.symm
      · exact ref ▸ new_freshRef before task .state
      · refine (Registering.run sequential merged).joined source state.ref ?_
        exact (joined_mergeWrite sequential stepped source state.ref).mpr
          (Or.inr (Or.inl (Or.inl ⟨ref, driver⟩)))

theorem nodes_combinational_run
    (merged : writes.foldlM (mergeWrite task resolveInterfaceRef []) before = some after) :
    after.graph.nodes = before.graph.nodes :=
  holds_of_foldlM (fun after => after.graph.nodes = before.graph.nodes) rfl
    (fun _ _ _ _ same stepped => (nodes_combinational stepped).trans same) merged

/--
The block is merged as its events say if and only if one of its events has no
edge, or one is on a signal by its name, or it drives nothing.
-/
theorem mergedByEvents_iff {symbol : ProceduralBlockSymbol} {timing : TimingControl}
    {slots : List (ValueSymbol × DriverMap)}
    (kind : symbol.procedureKind = .always ∨ symbol.procedureKind = .alwaysFF)
    (body : symbol.body = .timed timing)
    (driven : blockWrites slots = some writes)
    (merged : before.mergeDrivers task resolveInterfaceRef (collectSensitivity symbol) slots =
      some after) :
    MergedByEvents timing.events before after writes ↔
      (∃ event ∈ timing.events, event.Unqualified) ∨ (∃ event ∈ timing.events, event.Named) ∨
        writes = [] := by
  simp only [mergeDrivers, driven, Option.bind_eq_bind, Option.bind_some] at merged
  have classified := collectSensitivity_eq_nil kind body
  constructor
  · intro mergedBy
    by_contra neither
    rw [not_or, not_or] at neither
    obtain ⟨qualified, unnamed, drives⟩ := neither
    rw [classified.mpr (Or.inr unnamed)] at merged
    obtain ⟨states, nodes, _, registered⟩ := mergedBy.sequential fun event member unqualified =>
      qualified ⟨event, member, unqualified⟩
    rw [nodes_combinational_run merged, List.self_eq_append_right] at nodes
    rw [nodes] at registered
    exact drives (List.forall₂_nil_right_iff.mp registered)
  · intro condition
    refine ⟨fun qualified => ?_, fun unqualified => ?_⟩
    · have noneUnqualified : ¬ ∃ event ∈ timing.events, event.Unqualified := by
        rintro ⟨event, member, unqualified⟩
        exact qualified event member unqualified
      rcases condition with unqualified | named | rfl
      · exact absurd unqualified noneUnqualified
      · refine registered_run (fun empty => ?_) merged
        exact (classified.mp empty).elim noneUnqualified fun unnamed => unnamed named
      · cases merged
        exact ⟨[], (List.append_nil _).symm, List.nodup_nil, List.Forall₂.nil⟩
    · rw [classified.mpr (Or.inl unqualified)] at merged
      exact ⟨nodes_combinational_run merged, central_combinational_run merged⟩

/-- `@(posedge clk or negedge rst[0])`. -/
def resetEvents : List SignalEventControl :=
  [⟨.posEdge, .value { id := 8, name := "clk", hierarchicalPath := "m.clk" }, 1⟩,
    ⟨.negEdge, .other, 2⟩]

/-- `@(posedge clks[0])`. -/
def selectEvent : SignalEventControl := ⟨.posEdge, .other, 1⟩

theorem resetEvents_merged :
    (interfaceBuilder.mergeDrivers 1 (fun _ _ => [])
      (collectSensitivity ⟨.alwaysFF, .timed (.eventList resetEvents)⟩) interfaceSlots).isSome := by
  decide +kernel

theorem mergedByEvents_iff_reset :
    MergedByEvents resetEvents interfaceBuilder
        ((interfaceBuilder.mergeDrivers 1 (fun _ _ => [])
          (collectSensitivity ⟨.alwaysFF, .timed (.eventList resetEvents)⟩) interfaceSlots).get
            resetEvents_merged) interfaceWrites ↔
      (∃ event ∈ resetEvents, event.Unqualified) ∨ (∃ event ∈ resetEvents, event.Named) ∨
        interfaceWrites = [] :=
  @mergedByEvents_iff interfaceBuilder _ 1 (fun _ _ => []) interfaceWrites _
    (.eventList resetEvents) interfaceSlots (Or.inr rfl) rfl
    (by decide +kernel) (Option.some_get resetEvents_merged).symm

theorem selectEvent_merged :
    (interfaceBuilder.mergeDrivers 1 (fun _ _ => [])
      (collectSensitivity ⟨.alwaysFF, .timed (.signalEvent selectEvent)⟩) interfaceSlots).isSome := by
  decide +kernel

/-- The netlist after `always_ff @(posedge clks[0]) bus.x <= d;`. -/
def selectAfter : NetlistBuilder :=
  (interfaceBuilder.mergeDrivers 1 (fun _ _ => [])
    (collectSensitivity ⟨.alwaysFF, .timed (.signalEvent selectEvent)⟩) interfaceSlots).get
      selectEvent_merged

/-- The block is clocked by an edge, and there is no State node. -/
theorem selectEvent_not_mergedByEvents :
    ¬ MergedByEvents [selectEvent] interfaceBuilder selectAfter interfaceWrites := by
  intro mergedBy
  have qualified : ∀ event ∈ [selectEvent], ¬ event.Unqualified := by
    simp [selectEvent, SignalEventControl.Unqualified]
  obtain ⟨states, nodes, _, registered⟩ := mergedBy.sequential qualified
  have same : selectAfter.graph.nodes = interfaceBuilder.graph.nodes := by decide +kernel
  rw [same, List.self_eq_append_right] at nodes
  rw [nodes] at registered
  cases registered

end NetlistBuilder

end SlangNetlist
