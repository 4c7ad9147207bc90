import SlangNetlist.Build.ModportAccess

/-!
# The links of an access through a modport

Which bits the edges of a read and of a write through a modport carry.  The
edge of a read is labelled with the bits of the port, the edge of a write with
those of the variable; both are clipped to the bounds of the node at which the
edge starts.
-/

namespace SlangNetlist

open Library

/--
The bits of interface variables that the bits of an access denote: those of the
ranges that its chain of connections reaches.
-/
structure AccessedBits (connections : Connections) (lsp : Nat) (bounds : DriverBitRange) where
  Denotes : Int → ValueSymbol → Int → Prop
  reached : ∀ var place, (∃ bit ∈ bounds, Denotes bit var place) ↔
    ∃ range, connections.Denotes lsp var range ∧ place ∈ range

namespace NetlistBuilder

variable {builder next : NetlistBuilder} {source target : NodeRef} {bit : Int}

/-! ## The bits on the edges of one interval -/

/-- The State node has the bounds of its interval. -/
theorem getBounds_createState (builder : NetlistBuilder) (task : Nat) (symbol : ValueSymbol)
    (bounds : DriverBitRange) :
    (builder.createState task symbol bounds).2.graph.getBounds (builder.freshRef task .state) =
      some bounds := by
  obtain ⟨node, ref, ⟨name, location, data⟩, nodes, _⟩ :=
    createState_graph builder task symbol bounds
  have found : (builder.createState task symbol bounds).2.graph.node?
      (builder.freshRef task .state) = some node := by
    have absent : builder.graph.nodes.find? (fun node => node.ref = builder.freshRef task .state) =
        none := new_freshRef builder task .state
    rw [NetlistGraph.node?, nodes, List.find?_append, absent]
    simp [ref]
  rw [NetlistGraph.getBounds, found, Option.bind_some, data]
  rfl

/-- The other nodes keep their bounds. -/
theorem getBounds_createState_of_node {ref : NodeRef} (known : ¬ builder.graph.New ref) (task : Nat)
    (symbol : ValueSymbol) (bounds : DriverBitRange) :
    (builder.createState task symbol bounds).2.graph.node? ref = builder.graph.node? ref ∧
      (builder.createState task symbol bounds).2.graph.getBounds ref =
        builder.graph.getBounds ref := by
  obtain ⟨node, _, _, nodes, _⟩ := createState_graph builder task symbol bounds
  have same : (builder.createState task symbol bounds).2.graph.node? ref =
      builder.graph.node? ref := by
    obtain ⟨found, isFound⟩ := Option.ne_none_iff_exists'.mp known
    rw [NetlistGraph.node?] at isFound
    rw [NetlistGraph.node?, NetlistGraph.node?, nodes, List.find?_append, isFound, Option.some_or]
  exact ⟨same, by rw [NetlistGraph.getBounds, NetlistGraph.getBounds, same]⟩

/-- What the hookup of a driver of a modport port carries. -/
theorem carries_hookup_modport {resolveInterfaceRef : InterfaceRefs} {symbol : ValueSymbol}
    (modport : symbol.kind = .modportPort) {bounds : DriverBitRange} {driver : DriverInfo}
    {own : Option DriverBitRange} :
    (∃ dependency ∈ hookupDependencies resolveInterfaceRef builder symbol bounds driver,
        dependency.source = source ∧ dependency.target = target ∧
          bit ∈ NetlistGraph.clip own dependency.bounds) ↔
      driver.node = some source ∧ ∃ lsp, driver.lsp = some lsp ∧
        ∃ ref ∈ resolveInterfaceRef symbol lsp, builder.getVariable ref.1.id ref.2 = some target ∧
          bit ∈ NetlistGraph.clip own ref.2 := by
  unfold hookupDependencies
  simp only [modport]
  constructor
  · rintro ⟨dependency, member, rfl, rfl, inside⟩
    obtain ⟨node, found, member⟩ := List.mem_flatMap.mp member
    obtain ⟨ref, refMem, looked, same⟩ := mem_refDependencies.mp member
    obtain ⟨lsp, given, refMem⟩ := List.mem_flatMap.mp refMem
    rw [same] at inside ⊢
    exact ⟨Option.mem_toList.mp found, lsp, Option.mem_toList.mp given, ref, refMem, looked, inside⟩
  · rintro ⟨found, lsp, given, ref, refMem, looked, inside⟩
    refine ⟨
      { source := source, target := target, symbol := symbol.hierarchicalPath, bounds := ref.2 },
      List.mem_flatMap.mpr ⟨source, Option.mem_toList.mpr found, mem_refDependencies.mpr
        ⟨ref, List.mem_flatMap.mpr ⟨lsp, Option.mem_toList.mpr given, refMem⟩, looked, rfl⟩⟩,
      rfl, rfl, inside⟩

variable {task : Nat} {resolveInterfaceRef : InterfaceRefs} {sensitivity : List SensitivityEntry}
  {write : BlockWrite}

/-- What a combinational interval of a modport port carries. -/
theorem carries_combinational (modport : write.symbol.kind = .modportPort)
    (merged : builder.mergeWrite task resolveInterfaceRef [] write = some next) :
    next.graph.Carries source target write.symbol.hierarchicalPath bit ↔
      builder.graph.Carries source target write.symbol.hierarchicalPath bit ∨
        (builder.outputPort write.symbol write.bounds = some target ∧
            some source ∈ write.drivers.nodes ∧
            bit ∈ NetlistGraph.clip (builder.graph.getBounds source) write.bounds) ∨
          ∃ driver ∈ write.drivers, driver.node = some source ∧ ∃ lsp, driver.lsp = some lsp ∧
            ∃ ref ∈ resolveInterfaceRef write.symbol lsp,
              builder.getVariable ref.1.id ref.2 = some target ∧
                bit ∈ NetlistGraph.clip (builder.graph.getBounds source) ref.2 := by
  obtain ⟨entered, merges, only⟩ := mergeWrite_combinational merged
  rw [only.carries symbol_of_mem_combinational, (mergeCentral_some merges).1]
  simp only [combinationalDependencies, List.mem_append, or_and_right, exists_or]
  refine or_congr_right (or_congr ⟨?_, ?_⟩ ?_)
  · rintro ⟨dependency, member, rfl, rfl, inside⟩
    obtain ⟨port, driver, same⟩ := mem_portDependencies.mp member
    rw [same] at inside
    exact ⟨port, driver, inside⟩
  · rintro ⟨port, driver, inside⟩
    exact ⟨
      { source := source, target := target, symbol := write.symbol.hierarchicalPath,
        bounds := write.bounds, semantics := { role := .portConnection, precision := .range } },
      mem_portDependencies.mpr ⟨port, driver, rfl⟩, rfl, rfl, inside⟩
  · constructor
    · rintro ⟨dependency, member, rest⟩
      obtain ⟨driver, driverMem, inDriver⟩ := List.mem_flatMap.mp member
      exact ⟨driver, driverMem, (carries_hookup_modport modport).mp ⟨dependency, inDriver, rest⟩⟩
    · rintro ⟨driver, driverMem, hooked⟩
      obtain ⟨dependency, inDriver, rest⟩ := (carries_hookup_modport modport).mpr hooked
      exact ⟨dependency, List.mem_flatMap.mpr ⟨driver, driverMem, inDriver⟩, rest⟩

/-- The edges and the drivers start at nodes of the graph. -/
structure Live (builder : NetlistBuilder) (write : BlockWrite) : Prop where
  joined : ∀ source target, builder.graph.Joined source target → ¬ builder.graph.New source
  drivers : ∀ source, some source ∈ write.drivers.nodes → ¬ builder.graph.New source

theorem Live.not_carries (live : Live builder write) (isNew : builder.graph.New source)
    (symbol : String) : ¬ builder.graph.Carries source target symbol bit := by
  rintro ⟨edge, member, _⟩
  exact live.joined source target (List.ne_nil_of_mem member) isNew

theorem mem_clip_self {bounds : DriverBitRange} :
    bit ∈ NetlistGraph.clip (some bounds) bounds ↔ bit ∈ bounds := by
  have overlaps : bounds.overlaps bounds = true :=
    DriverBitRange.overlaps_iff.mpr ⟨bounds.lower_le_upper, bounds.lower_le_upper⟩
  simp only [NetlistGraph.clip, overlaps, if_true, DriverBitRange.mem_intersect overlaps, and_self]

/-- From the State node of an interval the output port is reached, and no other old node. -/
theorem carries_fromState (sequential : sensitivity ≠ []) (live : Live builder write)
    (merged : builder.mergeWrite task resolveInterfaceRef sensitivity write = some next)
    (old : ¬ builder.graph.New target) :
    next.graph.Carries (builder.freshRef task .state) target write.symbol.hierarchicalPath bit ↔
      (builder.createState task write.symbol write.bounds).2.outputPort write.symbol write.bounds =
        some target ∧ bit ∈ write.bounds := by
  have fresh := new_freshRef builder task .state
  obtain ⟨_, _, _, _, same⟩ := createState_graph builder task write.symbol write.bounds
  have before : ¬ (builder.createState task write.symbol write.bounds).2.graph.Carries
      (builder.freshRef task .state) target write.symbol.hierarchicalPath bit := by
    rw [NetlistGraph.Carries, same]
    exact live.not_carries fresh _
  rw [(mergeWrite_sequential sequential merged).carries symbol_of_mem_sequential, or_iff_right before,
    getBounds_createState]
  simp only [sequentialDependencies, stateDependencies, List.mem_append]
  constructor
  · rintro ⟨dependency, (driven | port) | hooked, atSource, rfl, inside⟩
    · rw [(mem_driverDependencies.mp driven).2] at old
      exact absurd fresh old
    · obtain ⟨found, _, shape⟩ := mem_portDependencies.mp port
      rw [shape, mem_clip_self] at inside
      exact ⟨found, inside⟩
    · obtain ⟨driver, driverMem, inDriver⟩ := List.mem_flatMap.mp hooked
      have found := (symbol_of_mem_hookupDependencies inDriver).2
      rw [atSource] at found
      exact absurd fresh (live.drivers _ (DriverList.mem_nodes.mpr ⟨driver, driverMem, found⟩))
  · rintro ⟨found, inside⟩
    refine ⟨
      { source := builder.freshRef task .state, target := target,
        symbol := write.symbol.hierarchicalPath, bounds := write.bounds,
        semantics := { role := .portConnection, precision := .range } },
      Or.inl (Or.inr (mem_portDependencies.mpr ⟨found, ?_, rfl⟩)), rfl, rfl,
      mem_clip_self.mpr inside⟩
    simp [DriverList.nodes]

/-! ## Reads and writes -/

section Access

variable (connections : Connections) (builder next : NetlistBuilder)

/-- The node stands for the bit. -/
def HasBit (ref : NodeRef) (place : Int) : Prop :=
  ∃ own, builder.graph.getBounds ref = some own ∧ place ∈ own

/-- The node is registered for exactly the range of some variable that the chain reaches. -/
def LooksUp (lsp : Nat) (varNode : NodeRef) (range : DriverBitRange) : Prop :=
  ∃ var, connections.Denotes lsp var range ∧ builder.getVariable var.id range = some varNode

/--
A node of a variable that the chain reaches, and a bit of it in the range that
is reached.
-/
def Touches (lsp : Nat) (var : ValueSymbol) (varNode : NodeRef) (place : Int) : Prop :=
  ∃ range, connections.Denotes lsp var range ∧ builder.VariableNode var range varNode ∧
    place ∈ range ∧ builder.HasBit varNode place

/--
A read gives its node an edge from every node of a variable that the chain
reaches: the edge carries the port on each bit that denotes a bit of the node.
-/
def ReadLinked {lsp : Nat} {bounds : DriverBitRange}
    (accessed : AccessedBits connections lsp bounds) (symbol : ValueSymbol) (node : NodeRef) :
    Prop :=
  ∀ var varNode place, builder.Touches connections lsp var varNode place →
    ∀ bit ∈ bounds, accessed.Denotes bit var place →
      next.graph.Carries varNode node symbol.hierarchicalPath bit

/--
A write gives every node of a variable that the chain reaches an edge from the
driver, or from its State node, that carries the port on each bit that is reached.
-/
def WriteLinked (task : Nat) (sensitivity : List SensitivityEntry) (write : BlockWrite) : Prop :=
  ∀ driver ∈ write.drivers, ∀ source, driver.node = some source → ∀ lsp, driver.lsp = some lsp →
    ∀ var varNode place, builder.Touches connections lsp var varNode place →
      next.graph.Carries (if sensitivity = [] then source else builder.freshRef task .state) varNode
        write.symbol.hierarchicalPath place

/--
For each bit the edge is there already, or the node is one that is looked up and
the bit of the port, taken as a number, lies in the node's own bounds, or these
do not meet the access at all.
-/
def ReadsExactly {lsp : Nat} {bounds : DriverBitRange}
    (accessed : AccessedBits connections lsp bounds) (symbol : ValueSymbol) (node : NodeRef) :
    Prop :=
  ∀ var varNode place, builder.Touches connections lsp var varNode place →
    ∀ bit ∈ bounds, accessed.Denotes bit var place →
      builder.graph.Carries varNode node symbol.hierarchicalPath bit ∨
        ((∃ range, builder.LooksUp connections lsp varNode range) ∧
          bit ∈ NetlistGraph.clip (builder.graph.getBounds varNode) bounds)

/--
For each bit the edge is there already, or the node is looked up for a driver
with a range that has the bit, or it is the node of the output port.  A State
node is connected to an output port only.
-/
def WritesExactly (task : Nat) (sensitivity : List SensitivityEntry) (write : BlockWrite) : Prop :=
  ∀ driver ∈ write.drivers, ∀ source, driver.node = some source → ∀ lsp, driver.lsp = some lsp →
    ∀ var varNode place, builder.Touches connections lsp var varNode place →
      if sensitivity = [] then
        builder.graph.Carries source varNode write.symbol.hierarchicalPath place ∨
          (builder.outputPort write.symbol write.bounds = some varNode ∧
            place ∈ NetlistGraph.clip (builder.graph.getBounds source) write.bounds) ∨
          ∃ other ∈ write.drivers, other.node = some source ∧ ∃ otherLsp,
            other.lsp = some otherLsp ∧ ∃ range, builder.LooksUp connections otherLsp varNode range ∧
              place ∈ NetlistGraph.clip (builder.graph.getBounds source) range
      else (builder.createState task write.symbol write.bounds).2.outputPort write.symbol
        write.bounds = some varNode ∧ place ∈ write.bounds

/-- The write overwrites no label: the edges between its nodes have its own symbol or none. -/
def KeepsLabels (task : Nat) (resolveInterfaceRef : InterfaceRefs)
    (sensitivity : List SensitivityEntry) (write : BlockWrite) : Prop :=
  ∀ dependency ∈ builder.writeDependencies task resolveInterfaceRef sensitivity write,
    NetlistGraph.Labels write.symbol.hierarchicalPath
      (builder.graph.edgesBetween dependency.source dependency.target)

variable {connections} {builder} {next}

theorem Touches.notNew {lsp : Nat} {var : ValueSymbol} {varNode : NodeRef} {place : Int}
    (touches : builder.Touches connections lsp var varNode place) : ¬ builder.graph.New varNode := by
  obtain ⟨_, _, variableNode, _⟩ := touches
  obtain ⟨node, found, _⟩ := variableNode.overlapping
  simp [NetlistGraph.New, found]

/-- The ranges that are looked up are those that the chain reaches. -/
theorem exists_ref_iff {symbol : ValueSymbol} {lsp : Nat} {varNode : NodeRef}
    {holds : DriverBitRange → Prop} :
    (∃ ref ∈ connections.resolveInterfaceRef symbol lsp,
        builder.getVariable ref.1.id ref.2 = some varNode ∧ holds ref.2) ↔
      ∃ range, builder.LooksUp connections lsp varNode range ∧ holds range := by
  constructor
  · rintro ⟨⟨var, range⟩, member, looked, holds⟩
    exact ⟨range, ⟨var, Connections.mem_resolveInterfaceRef.mp member, looked⟩, holds⟩
  · rintro ⟨range, ⟨var, denotes, looked⟩, holds⟩
    exact ⟨(var, range), Connections.mem_resolveInterfaceRef.mpr denotes, looked, holds⟩

/-- A read through a modport links its bits exactly if the nodes are looked up and hold them. -/
theorem readLinked_iff (builder : NetlistBuilder) {symbol : ValueSymbol}
    (modport : symbol.kind = .modportPort) {lsp : Nat} {bounds : DriverBitRange}
    (accessed : AccessedBits connections lsp bounds) (node : NodeRef) (role : DependencyRole)
    (precision : DependencyPrecision) :
    builder.ReadLinked connections
        (builder.addRvalue connections.resolveInterfaceRef symbol lsp bounds (some node) role
          precision) accessed symbol node ↔
      builder.ReadsExactly connections accessed symbol node := by
  refine forall₄_congr fun var varNode place _ => forall₃_congr fun bit _ _ => ?_
  rw [carries_addRvalue builder connections.resolveInterfaceRef modport, eq_self, true_and]
  have looked := @exists_ref_iff connections builder symbol lsp varNode fun _ => True
  simp only [and_true] at looked
  rw [looked]

/-- A write through a modport links its bits exactly if the nodes are looked up for it. -/
theorem writeLinked_iff (modport : write.symbol.kind = .modportPort) (live : Live builder write)
    (merged : builder.mergeWrite task connections.resolveInterfaceRef sensitivity write =
      some next) :
    builder.WriteLinked connections next task sensitivity write ↔
      builder.WritesExactly connections task sensitivity write := by
  refine forall₅_congr fun driver driverMem source found lsp => forall₅_congr fun given var varNode
    place touches => ?_
  by_cases combinational : sensitivity = []
  · subst combinational
    have node : some source ∈ write.drivers.nodes :=
      DriverList.mem_nodes.mpr ⟨driver, driverMem, found⟩
    have looked (otherLsp : Nat) := @exists_ref_iff connections builder write.symbol otherLsp varNode
      fun range => place ∈ NetlistGraph.clip (builder.graph.getBounds source) range
    rw [if_pos rfl, if_pos rfl, carries_combinational modport merged]
    simp only [node, true_and, looked]
  · rw [if_neg combinational, if_neg combinational,
      carries_fromState combinational live merged touches.notNew]

/-- A write that overwrites no label keeps what the edges carry. -/
theorem KeepsLabels.carries (keeps : builder.KeepsLabels task resolveInterfaceRef sensitivity write)
    (merged : builder.mergeWrite task resolveInterfaceRef sensitivity write = some next)
    {symbol : String} (carries : builder.graph.Carries source target symbol bit) :
    next.graph.Carries source target symbol bit := by
  obtain ⟨base, same, only⟩ := mergeWrite_adds merged
  rw [NetlistGraph.Carries, only.edges]
  refine NetlistGraph.carries_of_labels symbol_of_mem_writeDependencies
    (fun dependency member => ?_) ?_
  · rw [same]
    exact keeps dependency member
  · rw [NetlistGraph.Carries, same]
    exact carries

/-- Every write of a block, at the state of the builder before it. -/
def EachWrite (task : Nat) (resolveInterfaceRef : InterfaceRefs)
    (sensitivity : List SensitivityEntry) (builder : NetlistBuilder) (writes : List BlockWrite)
    (Holds : NetlistBuilder → BlockWrite → Prop) : Prop :=
  ∀ front write back middle, writes = front ++ write :: back →
    front.foldlM (mergeWrite task resolveInterfaceRef sensitivity) builder = some middle →
    Holds middle write

theorem EachWrite.tail {writes : List BlockWrite} {Holds : NetlistBuilder → BlockWrite → Prop}
    (each : EachWrite task resolveInterfaceRef sensitivity builder (write :: writes) Holds)
    (stepped : builder.mergeWrite task resolveInterfaceRef sensitivity write = some next) :
    EachWrite task resolveInterfaceRef sensitivity next writes Holds := by
  intro front later back middle split reached
  refine each (write :: front) later back middle (by rw [split, List.cons_append]) ?_
  rw [List.foldlM_cons, stepped]
  exact reached

theorem carries_of_keepsLabels {writes : List BlockWrite}
    (merged : writes.foldlM (mergeWrite task resolveInterfaceRef sensitivity) builder = some next)
    (keeps : EachWrite task resolveInterfaceRef sensitivity builder writes fun middle write =>
      middle.KeepsLabels task resolveInterfaceRef sensitivity write)
    {symbol : String} (carries : builder.graph.Carries source target symbol bit) :
    next.graph.Carries source target symbol bit := by
  induction writes generalizing builder with
  | nil =>
      cases merged
      exact carries
  | cons write rest ih =>
      obtain ⟨middle, stepped, merged⟩ := foldlM_cons_eq_some.mp merged
      exact ih merged (keeps.tail stepped)
        ((keeps [] write rest builder rfl rfl).carries stepped carries)

/-- What holds of every write of a block holds at the end of the block. -/
theorem eachWrite_linked {writes : List BlockWrite}
    (merged : writes.foldlM (mergeWrite task connections.resolveInterfaceRef sensitivity) builder =
      some next)
    (keeps : EachWrite task connections.resolveInterfaceRef sensitivity builder writes
      fun middle write => middle.KeepsLabels task connections.resolveInterfaceRef sensitivity write)
    (exactly : EachWrite task connections.resolveInterfaceRef sensitivity builder writes
      fun middle write => write.symbol.kind = .modportPort → Live middle write →
        middle.WritesExactly connections task sensitivity write) :
    EachWrite task connections.resolveInterfaceRef sensitivity builder writes
      fun middle write => write.symbol.kind = .modportPort → Live middle write →
        middle.WriteLinked connections next task sensitivity write := by
  intro front write back middle split reached modport live
  have condition := exactly front write back middle split reached modport live
  obtain ⟨middleAgain, after, reachedAgain, stepped, rest⟩ :=
    foldlM_append_cons_eq_some.mp (split ▸ merged)
  obtain rfl : middle = middleAgain := Option.some.inj (reached.symm.trans reachedAgain)
  have later : EachWrite task connections.resolveInterfaceRef sensitivity after back
      fun middle write => middle.KeepsLabels task connections.resolveInterfaceRef sensitivity
        write := by
    intro first other last state splitBack ran
    refine keeps (front ++ write :: first) other last state (by simp [split, splitBack]) ?_
    rw [List.foldlM_append, reached]
    simp only [Option.bind_eq_bind, Option.bind_some, List.foldlM_cons, stepped]
    exact ran
  intro driver driverMem source found lsp given var varNode place touches
  exact carries_of_keepsLabels rest later ((writeLinked_iff modport live stepped).mpr condition
    driver driverMem source found lsp given var varNode place touches)

end Access

/--
For every chain of connections, a read and a write through a modport link all
bits exactly if the nodes are looked up with the range that the chain reaches,
and a read only the bits that the node's own bounds contain as numbers; a State
node is never linked to an ordinary node.  In every run of a block whose writes
meet this and overwrite no label, all of them are linked at the end.
-/
theorem modportLinked_iff (connections : Connections) :
    (∀ (builder : NetlistBuilder) (symbol : ValueSymbol), symbol.kind = .modportPort →
      ∀ (lsp : Nat) (bounds : DriverBitRange) (accessed : AccessedBits connections lsp bounds)
        (node : NodeRef) (role : DependencyRole) (precision : DependencyPrecision),
        builder.ReadLinked connections
            (builder.addRvalue connections.resolveInterfaceRef symbol lsp bounds (some node) role
              precision) accessed symbol node ↔
          builder.ReadsExactly connections accessed symbol node) ∧
    (∀ (builder next : NetlistBuilder) (task : Nat) (sensitivity : List SensitivityEntry)
      (write : BlockWrite), write.symbol.kind = .modportPort → Live builder write →
      builder.mergeWrite task connections.resolveInterfaceRef sensitivity write = some next →
        (builder.WriteLinked connections next task sensitivity write ↔
          builder.WritesExactly connections task sensitivity write)) ∧
    ∀ (builder after : NetlistBuilder) (task : Nat) (sensitivity : List SensitivityEntry)
      (slots : List (ValueSymbol × DriverMap)) (writes : List BlockWrite),
      blockWrites slots = some writes →
      builder.mergeDrivers task connections.resolveInterfaceRef sensitivity slots = some after →
      EachWrite task connections.resolveInterfaceRef sensitivity builder writes
        (fun middle write =>
          middle.KeepsLabels task connections.resolveInterfaceRef sensitivity write) →
      EachWrite task connections.resolveInterfaceRef sensitivity builder writes
        (fun middle write => write.symbol.kind = .modportPort → Live middle write →
          middle.WritesExactly connections task sensitivity write) →
      EachWrite task connections.resolveInterfaceRef sensitivity builder writes
        fun middle write => write.symbol.kind = .modportPort → Live middle write →
          middle.WriteLinked connections after task sensitivity write := by
  refine ⟨fun builder symbol modport lsp bounds accessed node role precision =>
    readLinked_iff builder modport accessed node role precision,
    fun builder next task sensitivity write modport live merged =>
      writeLinked_iff modport live merged, ?_⟩
  intro builder after task sensitivity slots writes driven merged keeps exactly
  simp only [mergeDrivers, driven, Option.bind_eq_bind, Option.bind_some] at merged
  exact eachWrite_linked merged keeps exactly

/-- A modport port whose connection expression `1` is `x[3:0]`, and `2` is `x`. -/
def busPort : ValueSymbol :=
  { id := 9, name := "p", hierarchicalPath := "m.bus.p", kind := .modportPort }

def busConnections : Connections where
  expandIndirectRefs prefixExpr :=
    if prefixExpr = 1 then
      [{ lsp := some 3, rootSymbol := some interfaceVariable, lspBounds := ⟨0, 3⟩ }]
    else [{ lsp := some 3, rootSymbol := some interfaceVariable, lspBounds := ⟨0, 7⟩ }]
  depth _ := 0
  nested := by
    intro prefixExpr path member symbol lsp root kind
    have variable_root : path.rootSymbol = some interfaceVariable := by
      split at member
      · rw [List.mem_singleton.mp member]
      · rw [List.mem_singleton.mp member]
    obtain rfl := Option.some.inj (variable_root.symm.trans root)
    cases kind

/-- The bits of `p[3:0]` denote those of `x[3:0]`. -/
def busBits : AccessedBits busConnections 1 ⟨0, 3⟩ where
  Denotes bit var place := var = interfaceVariable ∧ place = bit
  reached var place := by
    have denotes (range : DriverBitRange) : busConnections.Denotes 1 var range ↔
        var = interfaceVariable ∧ range = ⟨0, 3⟩ := by
      rw [← @Connections.mem_resolveInterfaceRef busConnections busPort]
      exact List.mem_singleton.trans Prod.mk_inj
    simp only [denotes]
    constructor
    · rintro ⟨bit, inside, rfl, rfl⟩
      exact ⟨_, ⟨rfl, rfl⟩, inside⟩
    · rintro ⟨_, ⟨rfl, rfl⟩, inside⟩
      exact ⟨place, inside, rfl, rfl⟩

/-- The write `p <= d` of a sequential block. -/
def busWrite : BlockWrite :=
  ⟨busPort, ⟨0, 7⟩, [{ node := some ⟨1, .assignment, 0⟩, lsp := some 2 }]⟩

theorem busWrite_merged :
    (interfaceBuilder.mergeWrite 1 busConnections.resolveInterfaceRef clockEvents
      busWrite).isSome := by
  decide +kernel

/-- The builder after the write. -/
def busAfter : NetlistBuilder :=
  (interfaceBuilder.mergeWrite 1 busConnections.resolveInterfaceRef clockEvents busWrite).get
    busWrite_merged

theorem busTouches (lsp : Nat) (range : DriverBitRange)
    (reached : (interfaceVariable, range) ∈ busConnections.resolveInterfaceRef busPort lsp)
    (overlapping : (⟨0, 7⟩ : DriverBitRange).overlaps range = true) (inside : 0 ∈ range) :
    interfaceBuilder.Touches busConnections lsp interfaceVariable ⟨0, .variable, 0⟩ 0 :=
  ⟨range, Connections.mem_resolveInterfaceRef.mp reached,
    ⟨by decide, { ref := ⟨0, .variable, 0⟩, ID := 1, data := .variable "x" "m.bus.x" {} ⟨0, 7⟩ },
      rfl, rfl, ⟨0, 7⟩, rfl, overlapping⟩, inside, ⟨0, 7⟩, rfl, by decide⟩

/-- The read of `x[3:0]` misses the node of `x[7:0]`, and a State node never has an edge to it. -/
theorem modport_unlinked :
    ¬ interfaceBuilder.ReadLinked busConnections
        (interfaceBuilder.addRvalue busConnections.resolveInterfaceRef busPort 1 ⟨0, 3⟩
          (some ⟨1, .assignment, 0⟩) .data .range) busBits busPort ⟨1, .assignment, 0⟩ ∧
      ¬ interfaceBuilder.WriteLinked busConnections busAfter 1 clockEvents busWrite := by
  constructor
  · intro linked
    obtain ⟨edge, member, _⟩ := linked _ _ _ (busTouches 1 ⟨0, 3⟩ (by decide) (by decide)
      (by decide)) 0 (by decide) ⟨rfl, rfl⟩
    cases member
  · intro linked
    obtain ⟨edge, member, _⟩ := linked _ List.mem_cons_self _ rfl 2 rfl _ _ _
      (busTouches 2 ⟨0, 7⟩ (by decide) (by decide) (by decide))
    have none : busAfter.graph.edgesBetween (interfaceBuilder.freshRef 1 .state)
        ⟨0, .variable, 0⟩ = [] := by decide +kernel
    exact absurd (none ▸ member) List.not_mem_nil

/-- The drivers of the write of a combinational block. -/
def busSlots : List (ValueSymbol × DriverMap) :=
  [(busPort, (({} : DriverMap).addDrivers ⟨0, 7⟩
    [{ node := some ⟨1, .assignment, 0⟩, lsp := some 2 }] false).getD {})]

theorem busSlots_merged :
    (interfaceBuilder.mergeDrivers 1 busConnections.resolveInterfaceRef [] busSlots).isSome := by
  decide +kernel

/-- The node of `x[7:0]` is looked up for a write to `p`. -/
theorem busWrite_exact :
    interfaceBuilder.WritesExactly busConnections 1 [] busWrite := by
  intro driver member source found lsp given var varNode place touches
  obtain rfl := List.mem_singleton.mp member
  obtain rfl := Option.some.inj found
  obtain rfl := Option.some.inj given
  obtain ⟨range, denotes, touched, inside, _⟩ := touches
  have only : (var, range) ∈ [(interfaceVariable, (⟨0, 7⟩ : DriverBitRange))] :=
    (@Connections.mem_resolveInterfaceRef busConnections busPort 2 var range).mpr denotes
  obtain ⟨rfl, rfl⟩ := Prod.mk.inj (List.mem_singleton.mp only)
  obtain rfl : varNode = ⟨0, .variable, 0⟩ := List.mem_singleton.mp touched.registered
  exact Or.inr (Or.inr ⟨_, List.mem_singleton_self _, rfl, 2, rfl, ⟨0, 7⟩,
    ⟨interfaceVariable, denotes, by decide⟩, inside⟩)

theorem modportLinked_iff_bus :
    (interfaceBuilder.ReadLinked busConnections
        (interfaceBuilder.addRvalue busConnections.resolveInterfaceRef busPort 1 ⟨0, 3⟩
          (some ⟨1, .assignment, 0⟩) .data .range) busBits busPort ⟨1, .assignment, 0⟩ ↔
      interfaceBuilder.ReadsExactly busConnections busBits busPort ⟨1, .assignment, 0⟩) ∧
    (interfaceBuilder.WriteLinked busConnections busAfter 1 clockEvents busWrite ↔
      interfaceBuilder.WritesExactly busConnections 1 clockEvents busWrite) ∧
    ∃ after, interfaceBuilder.mergeDrivers 1 busConnections.resolveInterfaceRef [] busSlots =
        some after ∧
      EachWrite 1 busConnections.resolveInterfaceRef [] interfaceBuilder [busWrite]
        fun middle write => write.symbol.kind = .modportPort → Live middle write →
          middle.WriteLinked busConnections after 1 [] write := by
  have live : Live interfaceBuilder busWrite := by
    refine ⟨fun source target joined => ?_, fun source driver => ?_⟩
    · exact absurd (show ([] : List NetlistEdge) ≠ [] from joined) (by simp)
    · obtain ⟨info, member, same⟩ := DriverList.mem_nodes.mp driver
      obtain rfl := List.mem_singleton.mp member
      obtain rfl := Option.some.inj same
      decide
  have single {Holds : NetlistBuilder → BlockWrite → Prop} (first : Holds interfaceBuilder busWrite) :
      EachWrite 1 busConnections.resolveInterfaceRef [] interfaceBuilder [busWrite] Holds := by
    intro front write back middle split reached
    cases front with
    | nil =>
        cases split
        cases reached
        exact first
    | cons head front =>
        have empty := (List.cons.inj split).2
        simp at empty
  have merged := (Option.some_get busSlots_merged).symm
  refine ⟨(modportLinked_iff busConnections).1 _ busPort rfl _ _ _ _ _ _,
    (modportLinked_iff busConnections).2.1 _ _ _ _ _ rfl live
      (Option.some_get busWrite_merged).symm, _, merged,
    (modportLinked_iff busConnections).2.2 _ _ _ _ _ _ (by decide +kernel) merged
      (single fun dependency _ => ?_) (single fun _ _ => busWrite_exact)⟩
  intro first member
  cases member

end NetlistBuilder

end SlangNetlist
