import SlangNetlist.Build.BlockView
import SlangNetlist.Build.ModportLinks

/-!
# The registers of a sequential block

A sequential block is to reach the ports, the variable nodes and the R-values
outside it through its State nodes only.  Whether it does so is decided by the
netlist before the block: by the nodes that its variable table holds for the
written symbols.
-/

namespace SlangNetlist

open Library

/-- The variables that an interval writes, with their ranges: those behind a modport port. -/
def BlockWrite.Writes (write : BlockWrite) (resolveInterfaceRef : InterfaceRefs)
    (var : ValueSymbol) (range : DriverBitRange) : Prop :=
  if write.symbol.kind = .modportPort then
    ∃ driver ∈ write.drivers, driver.node ≠ none ∧
      ∃ lsp, driver.lsp = some lsp ∧ (var, range) ∈ resolveInterfaceRef write.symbol lsp
  else var = write.symbol ∧ range = write.bounds

namespace NetlistBuilder

/-- A bit of the node of a variable that the interval writes. -/
def WrittenBit (resolveInterfaceRef : InterfaceRefs) (builder : NetlistBuilder)
    (write : BlockWrite) (varNode : NodeRef) (bit : Int) : Prop :=
  ∃ var range, write.Writes resolveInterfaceRef var range ∧
    builder.VariableNode var range varNode ∧ bit ∈ range ∧ builder.HasBit varNode bit

/--
The node is the new State node of the interval: each driver has an edge to it
that carries the whole interval, and it has one to the output port, if there is
one, and to the node of each variable that is written, on the written bits.
-/
structure Registers (resolveInterfaceRef : InterfaceRefs) (before middle next : NetlistBuilder)
    (write : BlockWrite) (state : NetlistNode) : Prop where
  nodes : next.graph.nodes = middle.graph.nodes ++ [state]
  isNew : before.graph.New state.ref
  data : ∃ name location,
    state.data = .state name write.symbol.hierarchicalPath location write.bounds
  drivers : ∀ source, some source ∈ write.drivers.nodes → ∀ bit ∈ write.bounds,
    next.graph.Carries source state.ref write.symbol.hierarchicalPath bit
  port : ∀ portNode, before.outputPort write.symbol write.bounds = some portNode →
    ∀ bit ∈ write.bounds,
      next.graph.Carries state.ref portNode write.symbol.hierarchicalPath bit
  varNodes : ∀ varNode bit, before.WrittenBit resolveInterfaceRef write varNode bit →
    next.graph.Carries state.ref varNode write.symbol.hierarchicalPath bit

/--
A sequential block is connected to the outside through its State nodes only.  It
adds nothing but State nodes; each interval has one, with the edges that it needs;
every other edge has such a node at one of its ends.  An R-value gets State nodes
or what it got before the block, and the readers get every bit of a written
interval from a new State node that has this bit.
-/
structure RegistersWrites (task : Nat) (resolveInterfaceRef : InterfaceRefs)
    (sensitivity : List SensitivityEntry) (before after : NetlistBuilder)
    (writes : List BlockWrite) (readers : List PendingRvalue) : Prop where
  states : ∃ created, after.graph.nodes = before.graph.nodes ++ created ∧
    ∀ node ∈ created, before.graph.New node.ref ∧ node.data.kind = .state
  intervals : ∀ front write back middle next, writes = front ++ write :: back →
    front.foldlM (mergeWrite task resolveInterfaceRef sensitivity) before = some middle →
    middle.mergeWrite task resolveInterfaceRef sensitivity write = some next →
    (∃ state, Registers resolveInterfaceRef before middle next write state) ∧
      ∀ source target, next.graph.Joined source target → after.graph.Joined source target
  outside : ∀ source target, after.graph.Joined source target →
    before.graph.Joined source target ∨ before.graph.New source ∨ before.graph.New target
  later : ∀ pending node dependencies, after.emissions pending node = some dependencies →
    before.emissions pending node = some dependencies ∨
      ∀ dependency ∈ dependencies, before.graph.New dependency.source
  readers : ∀ pending ∈ readers, ∀ node, ∀ write ∈ writes, write.symbol.id = pending.symbol.id →
    ∀ bit ∈ pending.bounds, bit ∈ write.bounds →
      ∃ dependencies, after.emissions pending node = some dependencies ∧
        ∃ dependency ∈ dependencies, bit ∈ dependency.bounds ∧
          ∃ state ∈ after.graph.nodes, state.ref = dependency.source ∧
            before.graph.New state.ref ∧ state.data.kind = .state ∧
              ∃ own, state.data.getBounds = some own ∧ bit ∈ own

/--
The netlist before a block.  The edges, the variable table and the sources of the
readers are nodes of the graph; the drivers of the block are as well, and have no
bounds of their own; the block writes no port.
-/
structure Ready (before : NetlistBuilder) (writes : List BlockWrite)
    (readers : List PendingRvalue) : Prop where
  edges : ∀ source target, before.graph.Joined source target → ¬ before.graph.New source
  table : ∀ symbol, ∀ ref ∈ before.variableTracker.lookupAll symbol, ¬ before.graph.New ref
  sorted : before.variableTracker.Sorted
  sources : ∀ pending ∈ readers, ∀ node dependencies,
    before.emissions pending node = some dependencies →
      ∀ dependency ∈ dependencies, ¬ before.graph.New dependency.source
  drivers : ∀ write ∈ writes, ∀ source, some source ∈ write.drivers.nodes →
    ¬ before.graph.New source ∧ before.graph.getBounds source = none
  ports : ∀ write ∈ writes, ∀ port ∈ write.symbol.portBackrefs, ∀ other ∈ writes,
    other.symbol.id ≠ port

/--
Every variable node that is looked up for a driver has an edge from it already;
every node of a written variable is the output port of the interval, on the
written bits; and every reader of a written bit reads exactly an interval of the
block, for which no node was registered before.
-/
structure RegisterView (resolveInterfaceRef : InterfaceRefs) (before : NetlistBuilder)
    (writes : List BlockWrite) (readers : List PendingRvalue) : Prop where
  hookups : ∀ write ∈ writes, ∀ driver ∈ write.drivers, ∀ source, driver.node = some source →
    ∀ target ∈ hookupTargets resolveInterfaceRef before write.symbol write.bounds driver,
      before.graph.Joined source target
  varNodes : ∀ write ∈ writes, ∀ varNode bit,
    before.WrittenBit resolveInterfaceRef write varNode bit →
      before.outputPort write.symbol write.bounds = some varNode ∧ bit ∈ write.bounds
  readers : ∀ pending ∈ readers,
    (∃ write ∈ writes, write.symbol.id = pending.symbol.id ∧
      ∃ bit ∈ pending.bounds, bit ∈ write.bounds) →
    before.getVariable pending.symbol.id pending.bounds = none ∧
      ∃ write ∈ writes, write.symbol.id = pending.symbol.id ∧
        VariableTracker.Finds write.bounds pending.bounds

variable {before middle next after : NetlistBuilder} {task : Nat}
  {resolveInterfaceRef : InterfaceRefs} {sensitivity : List SensitivityEntry} {write : BlockWrite}
  {writes front back : List BlockWrite} {readers : List PendingRvalue}

/-! ## The variable table -/

/-- The node is a State node that the block has made for an interval of these bounds. -/
def Made (before middle : NetlistBuilder) (bounds : DriverBitRange) (ref : NodeRef) : Prop :=
  ∃ state ∈ middle.graph.nodes, state.ref = ref ∧ before.graph.New state.ref ∧
    state.data.kind = .state ∧ state.data.getBounds = some bounds

/-- The table finds what it found before, and else the State nodes of the intervals. -/
structure Enters (before middle : NetlistBuilder) (done : List BlockWrite) : Prop where
  registering : Registering before middle
  sorted : middle.variableTracker.Sorted
  kept : ∀ symbol bounds ref, before.getVariable symbol bounds = some ref →
    middle.getVariable symbol bounds = some ref
  made : ∀ symbol bounds ref, before.getVariable symbol bounds = none →
    middle.getVariable symbol bounds = some ref →
      ∃ write ∈ done, write.symbol.id = symbol ∧ VariableTracker.Finds write.bounds bounds ∧
        Made before middle write.bounds ref
  found : ∀ write ∈ done, ∀ bounds, VariableTracker.Finds write.bounds bounds →
    middle.getVariable write.symbol.id bounds ≠ none
  others : ∀ symbol, (∀ write ∈ done, write.symbol.id ≠ symbol) →
    middle.variableTracker.variableMap symbol = before.variableTracker.variableMap symbol

theorem Enters.refl (sorted : before.variableTracker.Sorted) : Enters before before [] where
  registering := Registering.refl before
  sorted := sorted
  kept _ _ _ found := found
  made _ _ _ absent found := by simp [absent] at found
  found _ member := by cases member
  others _ _ := rfl

theorem Enters.trans (first : Enters before middle front) (second : Enters middle next back) :
    Enters before next (front ++ back) where
  registering := first.registering.trans second.registering
  sorted := second.sorted
  kept symbol bounds ref found := second.kept symbol bounds ref (first.kept symbol bounds ref found)
  made symbol bounds ref absent found := by
    cases here : middle.getVariable symbol bounds with
    | none =>
        obtain ⟨write, member, same, finds, state, stateMem, rfl, isNew, rest⟩ :=
          second.made symbol bounds ref here found
        exact ⟨write, List.mem_append_right _ member, same, finds, state, stateMem, rfl,
          first.registering.new isNew, rest⟩
    | some other =>
        obtain rfl : other = ref :=
          Option.some.inj ((second.kept symbol bounds other here).symm.trans found)
        obtain ⟨write, member, same, finds, state, stateMem, rest⟩ :=
          first.made symbol bounds other absent here
        obtain ⟨created, nodes, _⟩ := second.registering.states
        exact ⟨write, List.mem_append_left _ member, same, finds, state,
          nodes ▸ List.mem_append_left _ stateMem, rest⟩
  found write member bounds finds := by
    rcases List.mem_append.mp member with early | late
    · obtain ⟨ref, here⟩ := Option.ne_none_iff_exists'.mp (first.found write early bounds finds)
      rw [second.kept _ bounds ref here]
      exact Option.some_ne_none ref
    · exact second.found write late bounds finds
  others symbol absent :=
    (second.others symbol fun write member => absent write (List.mem_append_right _ member)).trans
      (first.others symbol fun write member => absent write (List.mem_append_left _ member))

/-- One interval of a sequential block enters its State node, behind those with equal bounds. -/
theorem Enters.step (sequential : sensitivity ≠ []) (sorted : before.variableTracker.Sorted)
    (merged : before.mergeWrite task resolveInterfaceRef sensitivity write = some next) :
    Enters before next [write] := by
  have only := mergeWrite_sequential sequential merged
  obtain ⟨node, ref, ⟨name, location, data⟩, nodes, _⟩ :=
    createState_graph before task write.symbol write.bounds
  have looked (symbol : Nat) (bounds : DriverBitRange) : next.getVariable symbol bounds =
      (before.getVariable symbol bounds).or
        (if symbol = write.symbol.id ∧ VariableTracker.Finds write.bounds bounds then
          some (before.freshRef task .state) else none) := by
    rw [only.getVariable]
    exact VariableTracker.lookup_insert_sorted sorted write.bounds symbol bounds
  refine ⟨Registering.step sequential merged, ?_, ?_, ?_, ?_, ?_⟩
  · rw [only.variableTracker]
    exact sorted.insert write.bounds
  · intro symbol bounds ref found
    rw [looked, found, Option.some_or]
  · intro symbol bounds ref absent found
    rw [looked, absent, Option.none_or] at found
    split at found
    · next here =>
        obtain rfl := Option.some.inj found
        refine ⟨write, List.mem_singleton_self _, here.1.symm, here.2, node, ?_, ref,
          ref ▸ new_freshRef before task .state, by rw [data]; rfl, by rw [data]; rfl⟩
        rw [only.nodes, nodes]
        exact List.mem_append_right _ (List.mem_singleton_self _)
    · cases found
  · intro other member bounds finds
    obtain rfl := List.mem_singleton.mp member
    rw [looked, if_pos ⟨rfl, finds⟩]
    cases before.getVariable other.symbol.id bounds <;> simp
  · intro symbol other
    rw [only.variableTracker]
    exact if_neg fun same => other write (List.mem_singleton_self _) same.symm

theorem Enters.run (sequential : sensitivity ≠ []) (sorted : before.variableTracker.Sorted)
    (merged : writes.foldlM (mergeWrite task resolveInterfaceRef sensitivity) before = some after) :
    Enters before after writes := by
  induction writes generalizing before with
  | nil =>
      cases merged
      exact Enters.refl sorted
  | cons write rest ih =>
      obtain ⟨middle, stepped, merged⟩ := foldlM_cons_eq_some.mp merged
      have first := Enters.step sequential sorted stepped
      exact first.trans (ih first.sorted merged)

/-! ## One interval of the run -/

theorem Registering.node? (registering : Registering before middle) {ref : NodeRef}
    (known : ¬ before.graph.New ref) : middle.graph.node? ref = before.graph.node? ref := by
  obtain ⟨created, nodes, _⟩ := registering.states
  obtain ⟨node, found⟩ := Option.ne_none_iff_exists'.mp known
  rw [NetlistGraph.node?] at found
  rw [NetlistGraph.node?, NetlistGraph.node?, nodes, List.find?_append, found, Option.some_or]

theorem Registering.notNew (registering : Registering before middle) {ref : NodeRef}
    (known : ¬ before.graph.New ref) : ¬ middle.graph.New ref :=
  fun isNew => known (registering.new isNew)

theorem Registering.getBounds (registering : Registering before middle) {ref : NodeRef}
    (known : ¬ before.graph.New ref) :
    middle.graph.getBounds ref = before.graph.getBounds ref := by
  rw [NetlistGraph.getBounds, registering.node? known, NetlistGraph.getBounds]

/-- The edges of a run start at nodes of the graph, if those before it do. -/
theorem notNew_of_joined (sequential : sensitivity ≠ [])
    (edges : ∀ source target, before.graph.Joined source target → ¬ before.graph.New source)
    (drivers : ∀ write ∈ writes, ∀ source, some source ∈ write.drivers.nodes →
      ¬ before.graph.New source)
    (merged : writes.foldlM (mergeWrite task resolveInterfaceRef sensitivity) before = some after)
    (source target : NodeRef) (joined : after.graph.Joined source target) :
    ¬ after.graph.New source := by
  rcases (joined_run sequential merged source target).mp joined with old |
    ⟨front, write, back, middle, split, reached, joins⟩
  · exact (Registering.run sequential merged).notNew (edges source target old)
  · have member : write ∈ writes := split ▸ List.mem_append_cons_self
    rcases joins with (⟨_, driver⟩ | ⟨rfl, _⟩) | ⟨driver, driverMem, found, _⟩
    · exact (Registering.run sequential merged).notNew (drivers write member source driver)
    · obtain ⟨reachedState, next, reachedAgain, stepped, rest⟩ :=
        foldlM_append_cons_eq_some.mp (split ▸ merged)
      obtain rfl : middle = reachedState := Option.some.inj (reached.symm.trans reachedAgain)
      obtain ⟨node, ref, _, nodes, _⟩ := createState_graph middle task write.symbol write.bounds
      refine (Registering.run sequential rest).notNew fun isNew => ?_
      refine NetlistGraph.new_iff.mp isNew node ?_ ref
      rw [(mergeWrite_sequential sequential stepped).nodes, nodes]
      exact List.mem_append_right _ (List.mem_singleton_self _)
    · exact (Registering.run sequential merged).notNew (drivers write member source
        (DriverList.mem_nodes.mpr ⟨driver, driverMem, found⟩))

/-- The output port of an interval is that of the netlist before the block. -/
theorem Ready.outputPort (ready : Ready before writes readers) (member : write ∈ writes)
    {done : List BlockWrite} (among : ∀ other ∈ done, other ∈ writes)
    (enters : Enters before middle done) :
    (middle.createState task write.symbol write.bounds).2.outputPort write.symbol write.bounds =
      before.outputPort write.symbol write.bounds := by
  unfold NetlistBuilder.outputPort
  match single : write.symbol.portBackrefs with
  | [] => rfl
  | _ :: _ :: _ => rfl
  | [port] =>
      have listed : port ∈ write.symbol.portBackrefs := by
        rw [single]
        exact List.mem_singleton_self port
      have same : (middle.createState task write.symbol
          write.bounds).2.variableTracker.variableMap port =
            before.variableTracker.variableMap port := by
        rw [← enters.others port fun other otherMem =>
          ready.ports write member port listed other (among other otherMem)]
        exact if_neg fun same => ready.ports write member port listed write member same.symm
      dsimp only
      simp only [NetlistBuilder.getVariable, VariableTracker.lookup, VariableTracker.lookupAll, same]
      congr 1
      refine List.find?_congr fun ref inTable => ?_
      have known := ready.table port ref inTable
      rw [(getBounds_createState_of_node (enters.registering.notNew known) task write.symbol
        write.bounds).2, enters.registering.getBounds known]

/-- The output port of an interval is a node of the table. -/
theorem Ready.notNew_outputPort (ready : Ready before writes readers) {symbol : ValueSymbol}
    {bounds : DriverBitRange} {portNode : NodeRef}
    (found : before.outputPort symbol bounds = some portNode) : ¬ before.graph.New portNode := by
  unfold NetlistBuilder.outputPort at found
  split at found
  · rcases Option.or_eq_some_iff.mp found with exactly | ⟨_, containing⟩
    · exact ready.table _ portNode (List.mem_map_of_mem (VariableTracker.mem_of_lookup exactly))
    · exact ready.table _ portNode (List.mem_of_find?_eq_some containing)
  · cases found

/-- The State node of an interval has all its edges exactly if no other variable is written. -/
theorem registers_iff (sequential : sensitivity ≠ []) (ready : Ready before writes readers)
    (split : writes = front ++ write :: back)
    (reached : front.foldlM (mergeWrite task resolveInterfaceRef sensitivity) before = some middle)
    (stepped : middle.mergeWrite task resolveInterfaceRef sensitivity write = some next) :
    (∃ state, Registers resolveInterfaceRef before middle next write state) ↔
      ∀ varNode bit, before.WrittenBit resolveInterfaceRef write varNode bit →
        before.outputPort write.symbol write.bounds = some varNode ∧ bit ∈ write.bounds := by
  have member : write ∈ writes := split ▸ List.mem_append_cons_self
  have among : ∀ other ∈ front, other ∈ writes := fun other otherMem =>
    split ▸ List.mem_append_left _ otherMem
  have enters := Enters.run sequential ready.sorted reached
  have only := mergeWrite_sequential sequential stepped
  obtain ⟨node, ref, data, nodes, same⟩ :=
    createState_graph middle task write.symbol write.bounds
  have created : next.graph.nodes = middle.graph.nodes ++ [node] := only.nodes.trans nodes
  have live : Live middle write := by
    refine ⟨fun source target => notNew_of_joined sequential ready.edges (fun other otherMem source
      driver => (ready.drivers other (among other otherMem) source driver).1) reached source target,
      fun source driver => enters.registering.notNew (ready.drivers write member source driver).1⟩
  have fromState (target : NodeRef) (known : ¬ before.graph.New target) (bit : Int) :
      next.graph.Carries node.ref target write.symbol.hierarchicalPath bit ↔
        before.outputPort write.symbol write.bounds = some target ∧ bit ∈ write.bounds := by
    rw [ref, carries_fromState sequential live stepped (enters.registering.notNew known),
      ready.outputPort member among enters]
  have notNew (varNode : NodeRef) (bit : Int)
      (written : before.WrittenBit resolveInterfaceRef write varNode bit) :
      ¬ before.graph.New varNode := by
    obtain ⟨_, _, _, variableNode, _⟩ := written
    exact ready.table _ varNode variableNode.registered
  constructor
  · rintro ⟨state, registers⟩ varNode bit written
    obtain rfl : node = state := by
      have ends := created.symm.trans registers.nodes
      exact (List.cons.inj (List.append_cancel_left ends)).1
    exact (fromState varNode (notNew varNode bit written) bit).mp
      (registers.varNodes varNode bit written)
  · intro condition
    refine ⟨node, created, enters.registering.new (ref ▸ new_freshRef middle task .state), data,
      fun source driver bit inside => ?_, fun portNode found bit inside => ?_,
      fun varNode bit written => (fromState varNode (notNew varNode bit written) bit).mpr
        (condition varNode bit written)⟩
    · obtain ⟨known, unbounded⟩ := ready.drivers write member source driver
      rw [only.carries symbol_of_mem_sequential]
      refine Or.inr ⟨
        { source := source, target := node.ref, symbol := write.symbol.hierarchicalPath,
          bounds := write.bounds }, ?_, rfl, rfl, ?_⟩
      · refine List.mem_append_left _ (List.mem_append_left _ (mem_driverDependencies.mpr
          ⟨driver, ?_⟩))
        rw [ref]
      · rw [(getBounds_createState_of_node (enters.registering.notNew known) task write.symbol
          write.bounds).2, enters.registering.getBounds known, unbounded]
        exact inside
    · exact (fromState portNode (ready.notNew_outputPort found) bit).mpr ⟨found, inside⟩

/-! ## What is looked up -/

theorem exists_lookup_of_mem_hookupTargets {builder : NetlistBuilder} {symbol : ValueSymbol}
    {bounds : DriverBitRange} {driver : DriverInfo} {target : NodeRef}
    (looked : target ∈ hookupTargets resolveInterfaceRef builder symbol bounds driver) :
    ∃ key range, builder.getVariable key range = some target ∧
      ∀ (other : NetlistBuilder) ref, other.getVariable key range = some ref →
        ref ∈ hookupTargets resolveInterfaceRef other symbol bounds driver := by
  unfold hookupTargets at looked ⊢
  split at looked
  · obtain ⟨⟨var, range⟩, member, found⟩ := List.mem_filterMap.mp looked
    exact ⟨var.id, range, found, fun other ref here => List.mem_filterMap.mpr ⟨_, member, here⟩⟩
  · exact ⟨symbol.id, bounds, Option.mem_toList.mp looked, fun other ref here =>
      Option.mem_toList.mpr here⟩
  · cases looked

theorem Ready.notNew (ready : Ready before writes readers) {key : Nat} {range : DriverBitRange}
    {ref : NodeRef} (found : before.getVariable key range = some ref) : ¬ before.graph.New ref :=
  ready.table key ref (List.mem_map_of_mem (VariableTracker.mem_of_lookup found))

/-- Every edge of the block has a new node at one end exactly if no driver is hooked up to an old. -/
theorem outside_iff (sequential : sensitivity ≠ []) (ready : Ready before writes readers)
    (merged : writes.foldlM (mergeWrite task resolveInterfaceRef sensitivity) before = some after) :
    (∀ source target, after.graph.Joined source target →
        before.graph.Joined source target ∨ before.graph.New source ∨ before.graph.New target) ↔
      ∀ write ∈ writes, ∀ driver ∈ write.drivers, ∀ source, driver.node = some source →
        ∀ target ∈ hookupTargets resolveInterfaceRef before write.symbol write.bounds driver,
          before.graph.Joined source target := by
  have edges := joined_run sequential merged
  constructor
  · intro outside write member driver driverMem source found target looked
    obtain ⟨key, range, here, targets⟩ := exists_lookup_of_mem_hookupTargets looked
    obtain ⟨front, back, split⟩ := List.append_of_mem member
    obtain ⟨middle, next, reached, stepped, _⟩ := foldlM_append_cons_eq_some.mp (split ▸ merged)
    have kept := (Enters.run sequential ready.sorted reached).kept key range target here
    have entered : (middle.createState task write.symbol write.bounds).2.getVariable key range =
        some target := by
      have inserted := @VariableTracker.lookup_insert_sorted middle.variableTracker
        write.symbol.id (middle.freshRef task .state)
        (Enters.run sequential ready.sorted reached).sorted write.bounds key range
      exact inserted.trans (by rw [show middle.variableTracker.lookup key range = _ from kept,
        Option.some_or])
    have joined := (edges source target).mpr (Or.inr ⟨front, write, back, middle, split, reached,
      Or.inr ⟨driver, driverMem, found, targets _ target entered⟩⟩)
    rcases outside source target joined with old | isNew | isNew
    · exact old
    · exact absurd isNew (ready.drivers write member source
        (DriverList.mem_nodes.mpr ⟨driver, driverMem, found⟩)).1
    · exact absurd isNew (ready.notNew here)
  · intro hookups source target joined
    rcases (edges source target).mp joined with old | ⟨front, write, back, middle, split, reached,
      joins⟩
    · exact Or.inl old
    · have earlier := (Registering.run sequential reached).new (new_freshRef middle task .state)
      rcases joins with (⟨rfl, _⟩ | ⟨rfl, _⟩) | ⟨driver, driverMem, found, looked⟩
      · exact Or.inr (Or.inr earlier)
      · exact Or.inr (Or.inl earlier)
      · obtain ⟨key, range, here, targets⟩ := exists_lookup_of_mem_hookupTargets looked
        have member : write ∈ writes := split ▸ List.mem_append_cons_self
        obtain same | fresh := @VariableTracker.lookup_insert middle.variableTracker write.symbol.id
          range (middle.freshRef task .state) write.bounds key
        · rcases (Registering.run sequential reached).lookups key range with old | ⟨state, isState,
            isNew⟩
          · refine Or.inl (hookups write member driver driverMem source found target
              (targets before target ?_))
            exact old.symm.trans (same.symm.trans here)
          · obtain rfl : target = state :=
              Option.some.inj (here.symm.trans (same.trans isState))
            exact Or.inr (Or.inr isNew)
        · obtain rfl : target = middle.freshRef task .state :=
            Option.some.inj (here.symm.trans fresh)
          exact Or.inr (Or.inr earlier)

/-- The bits of a range that finds an interval are those of the interval. -/
theorem mem_of_finds {inserted bounds : DriverBitRange}
    (finds : VariableTracker.Finds inserted bounds) {bit : Int} (inside : bit ∈ bounds) :
    bit ∈ inserted := by
  obtain ⟨_, _, left, right⟩ := finds
  have ordered := inserted.lower_le_upper
  simp only [DriverBitRange.mem_iff, DriverBitRange.lower, DriverBitRange.upper] at *
  omega

/-- The readers get the State nodes exactly if their bounds are looked up for the first time. -/
theorem readers_iff (sequential : sensitivity ≠ []) (ready : Ready before writes readers)
    (merged : writes.foldlM (mergeWrite task resolveInterfaceRef sensitivity) before = some after) :
    (∀ pending ∈ readers, ∀ node, ∀ write ∈ writes, write.symbol.id = pending.symbol.id →
        ∀ bit ∈ pending.bounds, bit ∈ write.bounds →
          ∃ dependencies, after.emissions pending node = some dependencies ∧
            ∃ dependency ∈ dependencies, bit ∈ dependency.bounds ∧
              ∃ state ∈ after.graph.nodes, state.ref = dependency.source ∧
                before.graph.New state.ref ∧ state.data.kind = .state ∧
                  ∃ own, state.data.getBounds = some own ∧ bit ∈ own) ↔
      ∀ pending ∈ readers,
        (∃ write ∈ writes, write.symbol.id = pending.symbol.id ∧
          ∃ bit ∈ pending.bounds, bit ∈ write.bounds) →
        before.getVariable pending.symbol.id pending.bounds = none ∧
          ∃ write ∈ writes, write.symbol.id = pending.symbol.id ∧
            VariableTracker.Finds write.bounds pending.bounds := by
  have enters := Enters.run sequential ready.sorted merged
  refine forall₂_congr fun pending pendingMem => ⟨?_, ?_⟩
  · rintro reads ⟨write, member, same, bit, inside, written⟩
    obtain ⟨dependencies, emitted, dependency, dependencyMem, _, state, _, ref, isNew, _⟩ :=
      reads ⟨task, .state, 0⟩ write member same bit inside written
    rw [ref] at isNew
    have absent : before.getVariable pending.symbol.id pending.bounds = none := by
      by_contra found
      obtain ⟨known, found⟩ := Option.ne_none_iff_exists'.mp found
      have kept := enters.kept _ _ known found
      simp only [emissions, kept, Option.some.injEq] at emitted
      rw [← emitted] at dependencyMem
      obtain rfl := List.mem_singleton.mp dependencyMem
      exact ready.notNew found isNew
    refine ⟨absent, ?_⟩
    cases found : after.getVariable pending.symbol.id pending.bounds with
    | some ref =>
        obtain ⟨other, otherMem, sameSymbol, finds, _⟩ := enters.made _ _ ref absent found
        exact ⟨other, otherMem, sameSymbol, finds⟩
    | none =>
        have early : before.emissions pending ⟨task, .state, 0⟩ = some dependencies := by
          rw [← emitted]
          simp only [emissions, absent, found, enters.registering.driverMap,
            enters.registering.drivers]
        exact absurd isNew (ready.sources pending pendingMem _ dependencies early dependency
          dependencyMem)
  · intro condition node write member same bit inside written
    obtain ⟨absent, other, otherMem, sameSymbol, finds⟩ :=
      condition ⟨write, member, same, bit, inside, written⟩
    obtain ⟨ref, found⟩ := Option.ne_none_iff_exists'.mp
      (enters.found other otherMem pending.bounds finds)
    rw [sameSymbol] at found
    obtain ⟨maker, _, _, made, state, stateMem, rfl, isNew, kind, own⟩ :=
      enters.made _ _ ref absent found
    refine ⟨_, by rw [emissions, found], _, List.mem_singleton_self _, inside, state, stateMem, rfl,
      isNew, kind, maker.bounds, own, mem_of_finds made inside⟩

/-! ## The block -/

/--
In every run of a sequential block, whatever the order of its symbols, the
writes are registered if and only if the netlist before it has no other nodes
for them.
-/
theorem registersWrites_iff (task : Nat) (resolveInterfaceRef : InterfaceRefs)
    (sequential : sensitivity ≠ []) {slots : List (ValueSymbol × DriverMap)}
    (driven : blockWrites slots = some writes) (ready : Ready before writes readers)
    (merged : before.mergeDrivers task resolveInterfaceRef sensitivity slots = some after) :
    RegistersWrites task resolveInterfaceRef sensitivity before after writes readers ↔
      RegisterView resolveInterfaceRef before writes readers := by
  simp only [mergeDrivers, driven, Option.bind_eq_bind, Option.bind_some] at merged
  have registering := Registering.run sequential merged
  constructor
  · intro registers
    refine ⟨(outside_iff sequential ready merged).mp registers.outside, ?_,
      (readers_iff sequential ready merged).mp registers.readers⟩
    intro write member
    obtain ⟨front, back, split⟩ := List.append_of_mem member
    obtain ⟨middle, next, reached, stepped, _⟩ := foldlM_append_cons_eq_some.mp (split ▸ merged)
    exact (registers_iff sequential ready split reached stepped).mp
      (registers.intervals front write back middle next split reached stepped).1
  · intro view
    refine ⟨registering.states, ?_, (outside_iff sequential ready merged).mpr view.hookups,
      fun _ _ _ => registering.readers, (readers_iff sequential ready merged).mpr view.readers⟩
    intro front write back middle next split reached stepped
    refine ⟨(registers_iff sequential ready split reached stepped).mpr
      (view.varNodes write (split ▸ List.mem_append_cons_self)), ?_⟩
    obtain ⟨middleAgain, nextAgain, reachedAgain, steppedAgain, rest⟩ :=
      foldlM_append_cons_eq_some.mp (split ▸ merged)
    obtain rfl := Option.some.inj (reached.symm.trans reachedAgain)
    obtain rfl := Option.some.inj (stepped.symm.trans steppedAgain)
    exact (Registering.run sequential rest).joined

theorem interfaceWrites_merged :
    (interfaceBuilder.mergeDrivers 1 (fun _ _ => []) clockEvents interfaceSlots).isSome := by
  decide +kernel

/-- The builder after the block. -/
def interfaceAfter : NetlistBuilder :=
  (interfaceBuilder.mergeDrivers 1 (fun _ _ => []) clockEvents interfaceSlots).get
    interfaceWrites_merged

/-- An R-value of `bus.x` in another block. -/
def interfaceReader : PendingRvalue :=
  { symbol := interfaceVariable, bounds := ⟨0, 7⟩, lsp := 0, node := some ⟨2, .assignment, 0⟩ }

theorem interfaceBuilder_ready : Ready interfaceBuilder interfaceWrites [interfaceReader] where
  edges source target joined := absurd rfl joined
  table symbol ref member := by
    simp only [VariableTracker.lookupAll, interfaceBuilder, VariableTracker.insert] at member
    split at member
    · obtain rfl := List.mem_singleton.mp member
      decide
    · cases member
  sorted := VariableTracker.sorted_empty.insert _
  sources pending member node dependencies emitted := by
    obtain rfl := List.mem_singleton.mp member
    have found : interfaceBuilder.getVariable interfaceReader.symbol.id interfaceReader.bounds =
        some ⟨0, .variable, 0⟩ := by decide
    simp only [emissions, found, Option.some.injEq] at emitted
    intro dependency inList
    rw [← emitted] at inList
    obtain rfl := List.mem_singleton.mp inList
    exact (by decide : ¬ interfaceBuilder.graph.New ⟨0, .variable, 0⟩)
  drivers write member source driver := by
    obtain rfl := List.mem_singleton.mp member
    obtain rfl : source = ⟨1, .assignment, 0⟩ := by simpa [DriverList.nodes] using driver
    decide
  ports write member port listed := by
    obtain rfl := List.mem_singleton.mp member
    cases listed

theorem registersWrites_iff_interface :
    RegistersWrites 1 (fun _ _ => []) clockEvents interfaceBuilder interfaceAfter
        interfaceWrites [interfaceReader] ↔
      RegisterView (fun _ _ => []) interfaceBuilder interfaceWrites [interfaceReader] :=
  @registersWrites_iff interfaceBuilder interfaceAfter clockEvents interfaceWrites
    [interfaceReader] 1 (fun _ _ => []) (by decide) interfaceSlots (by decide +kernel)
    interfaceBuilder_ready (Option.some_get interfaceWrites_merged).symm

/-- The assignment gets an edge to the node of the interface variable, past its State node. -/
theorem interfaceWrites_not_registered :
    ¬ RegistersWrites 1 (fun _ _ => []) clockEvents interfaceBuilder interfaceAfter
      interfaceWrites [] := by
  intro registers
  rcases registers.outside ⟨1, .assignment, 0⟩ ⟨0, .variable, 0⟩ (by decide +kernel) with
    old | source | target
  · exact absurd old (by decide +kernel)
  · exact absurd source (by decide +kernel)
  · exact absurd target (by decide +kernel)

end NetlistBuilder

end SlangNetlist
