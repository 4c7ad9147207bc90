import Mathlib.Data.Finset.Image
import Mathlib.Logic.Equiv.Defs
import SlangNetlist.Build.BlockSteps

/-!
# The order of the deferred blocks

The tasks of Phase 2 take effect in an arbitrary order.  A block that looks up
only what the collecting phase has registered does what it does alone, so that
the result does not depend on the order; a block that finds the State node of
another one connects to it only if it comes later.
-/

namespace SlangNetlist

open Library

/-! ## The central driver map -/

/--
After a run of merging calls that reach across no shared list, a bit has the
drivers that it had before and those of all calls that cover it.
-/
theorem TrackerState.driversAt_merges {start state : TrackerState} {calls : List DriverCall}
    (sound : start.Sound) (run : GuardedRun TrackerState.step TrackerState.Writable start calls state)
    (merges : ∀ call ∈ calls, call.merge = true) :
    state.Sound ∧ ∀ symbol bit driver, driver ∈ state.driversAt symbol bit ↔
      driver ∈ start.driversAt symbol bit ∨
        ∃ call ∈ calls, Covering symbol bit call ∧ driver ∈ call.driverList.nodes := by
  induction run with
  | nil => exact ⟨sound, fun symbol bit driver => by simp⟩
  | snoc run writable stepped ih =>
      next calls state next call =>
      obtain ⟨soundHere, drivers⟩ := ih fun other member =>
        merges other (List.mem_append_left _ member)
      obtain ⟨result, resultEq, resultSound, adds⟩ := soundHere.step_adds writable
      obtain rfl : next = result := Option.some.inj (stepped.symm.trans resultEq)
      have merging : call.merge = true := merges call (List.mem_append_right _ (by simp))
      refine ⟨resultSound, fun symbol bit driver => ?_⟩
      simp only [List.mem_append, List.mem_singleton, or_and_right, exists_or, exists_eq_left]
      rw [adds symbol bit, ← or_assoc, ← drivers, merging]
      by_cases covers : symbol.id = call.symbol.id ∧ bit ∈ call.bounds
      · simp [Covering, covers]
      · simp [Covering, covers]

namespace NetlistBuilder

variable {builder next : NetlistBuilder} {resolveInterfaceRef : InterfaceRefs}

theorem OnlyAdds.central {dependencies : List Dependency}
    (only : OnlyAdds builder next dependencies) : next.central = builder.central := by
  rw [NetlistBuilder.central, NetlistBuilder.central, only.driverMap, only.drivers]

theorem central_applyCall (builderCall : BuilderCall) :
    (builder.applyCall resolveInterfaceRef builderCall).central = builder.central := by
  cases builderCall with
  | addNode | addUnannotated | addDependency => rfl
  | addRvalue symbol lsp bounds node role precision =>
      change (builder.addRvalue resolveInterfaceRef symbol lsp bounds node role precision).central = _
      unfold NetlistBuilder.addRvalue
      split
      · next node modport =>
          have only := OnlyAdds.addRvalue builder resolveInterfaceRef modport lsp bounds node role
            precision
          simp only [NetlistBuilder.addRvalue, modport] at only
          exact only.central
      · rfl

theorem central_applyCalls (calls : List BuilderCall) :
    (calls.foldl (applyCall resolveInterfaceRef) builder).central = builder.central := by
  induction calls generalizing builder with
  | nil => rfl
  | cons head rest ih => rw [List.foldl_cons, ih, central_applyCall]

/-- An interval of a combinational block is one call of `addDrivers`. -/
theorem central_combinational {task : Nat} {write : BlockWrite}
    (merged : builder.mergeWrite task resolveInterfaceRef [] write = some next) :
    builder.central.step ⟨write.symbol, write.bounds, write.drivers, true⟩ = some next.central := by
  obtain ⟨entered, merges, only⟩ := mergeWrite_combinational merged
  rw [only.central]
  simp only [mergeCentral, Option.bind_eq_bind, Option.bind_eq_some_iff] at merges
  obtain ⟨⟨driverMap, drivers⟩, added, same⟩ := merges
  cases same
  simp only [TrackerState.step, central, added, Option.bind_eq_bind, Option.bind_some]

/-- A combinational block makes a merging call for each interval, in order. -/
theorem central_combinational_run {task : Nat} {writes : List BlockWrite}
    (merged : writes.foldlM (mergeWrite task resolveInterfaceRef []) builder = some next) :
    (writes.map fun write =>
        (⟨write.symbol, write.bounds, write.drivers, true⟩ : DriverCall)).foldlM
      TrackerState.step builder.central = some next.central := by
  induction writes generalizing builder with
  | nil =>
      cases merged
      rfl
  | cons write rest ih =>
      obtain ⟨middle, stepped, merged⟩ := foldlM_cons_eq_some.mp merged
      rw [List.map_cons, List.foldlM_cons, central_combinational stepped]
      exact ih merged

/-- An interval of a sequential block does not enter the central driver map. -/
theorem central_sequential {task : Nat} {sensitivity : List SensitivityEntry}
    (sequential : sensitivity ≠ []) {write : BlockWrite}
    (merged : builder.mergeWrite task resolveInterfaceRef sensitivity write = some next) :
    next.central = builder.central :=
  (mergeWrite_sequential sequential merged).central

/-- A block makes its central calls, in order. -/
theorem central_runBlock {block : DeferredBlock}
    (ran : builder.runBlock resolveInterfaceRef block = some next) :
    block.centralCalls.foldlM TrackerState.step builder.central = some next.central := by
  simp only [runBlock, mergeDrivers, Option.bind_eq_bind, Option.bind_eq_some_iff] at ran
  obtain ⟨writes, driven, ran⟩ := ran
  have same : block.writes = writes := by rw [DeferredBlock.writes, driven, Option.getD_some]
  rw [← @central_applyCalls builder resolveInterfaceRef block.analysis.calls,
    DeferredBlock.centralCalls, same]
  generalize block.analysis.calls.foldl _ builder = called at ran
  split
  · next combinational =>
      rw [combinational] at ran
      exact central_combinational_run ran
  · next sequential =>
      exact congrArg some (holds_of_foldlM (fun next => called.central = next.central) rfl
        (fun _ _ _ _ same merged => same.trans (central_sequential sequential merged).symm) ran)

/-! ## Runs of blocks -/

/-- The start of Phase 2: all registered nodes are of the collecting phase. -/
structure Collected (base : NetlistBuilder) : Prop where
  registered : ∀ symbol, ∀ ref ∈ base.variableTracker.lookupAll symbol, ref.task = 0
  sorted : base.variableTracker.Sorted
  sound : base.central.Sound

variable {base state : NetlistBuilder} {block : DeferredBlock} {blocks order : List DeferredBlock}

/--
A block is undisturbed by the blocks before it: it looks up what the collecting
phase has registered, and its calls of `addDrivers` reach across no shared list.
-/
structure Undisturbed (resolveInterfaceRef : InterfaceRefs) (base state : NetlistBuilder)
    (block : DeferredBlock) : Prop where
  found : ∀ key ∈ block.lookups resolveInterfaceRef,
    state.getVariable key.1 key.2 = base.getVariable key.1 key.2
  atPorts : ∀ port ∈ block.ports,
    state.variableTracker.variableMap port = base.variableTracker.variableMap port
  writable : ∃ central, GuardedRun TrackerState.step TrackerState.Writable state.central
    block.centralCalls central

instance (resolveInterfaceRef : InterfaceRefs) (base state : NetlistBuilder)
    (block : DeferredBlock) : Decidable (Undisturbed resolveInterfaceRef base state block) :=
  decidable_of_iff
    ((∀ key ∈ block.lookups resolveInterfaceRef,
        state.getVariable key.1 key.2 = base.getVariable key.1 key.2) ∧
      (∀ port ∈ block.ports,
        state.variableTracker.variableMap port = base.variableTracker.variableMap port) ∧
      (block.centralCalls.foldlM (GuardedRun.guarded TrackerState.step TrackerState.Writable)
        state.central).isSome)
    ⟨fun ⟨found, atPorts, writable⟩ =>
        ⟨found, atPorts, GuardedRun.exists_iff_isSome.mpr writable⟩,
      fun ⟨found, atPorts, writable⟩ =>
        ⟨found, atPorts, GuardedRun.exists_iff_isSome.mp writable⟩⟩

/-- What the block does alone, apart from the central driver map. -/
def alone (resolveInterfaceRef : InterfaceRefs) (base : NetlistBuilder) (block : DeferredBlock) :
    NetlistBuilder :=
  (base.connectBlock resolveInterfaceRef block).getD base

/-- The R-values that the block queues alone. -/
def queued (resolveInterfaceRef : InterfaceRefs) (base : NetlistBuilder) (block : DeferredBlock) :
    List PendingRvalue :=
  (alone resolveInterfaceRef base block).pendingQueue.drop base.pendingQueue.length

/-- The blocks have been merged: each has done what it does alone. -/
structure Merged (resolveInterfaceRef : InterfaceRefs) (base : NetlistBuilder)
    (done : List DeferredBlock) (state : NetlistBuilder) : Prop where
  edges : ∀ block ∈ done, ∀ source target, Owns block.task source target →
    state.graph.edgesBetween source target =
      (alone resolveInterfaceRef base block).graph.edgesBetween source target
  otherEdges : ∀ source target, (∀ block ∈ done, ¬ Owns block.task source target) →
    state.graph.edgesBetween source target = base.graph.edgesBetween source target
  nodes : ∀ block ∈ done, state.graph.nodesOf block.task =
    (alone resolveInterfaceRef base block).graph.nodesOf block.task
  otherNodes : ∀ task, (∀ block ∈ done, block.task ≠ task) →
    state.graph.nodesOf task = base.graph.nodesOf task
  queue : state.pendingQueue =
    base.pendingQueue ++ done.flatMap (queued resolveInterfaceRef base)
  sorted : state.variableTracker.Sorted
  central : GuardedRun TrackerState.step TrackerState.Writable base.central
    (done.flatMap DeferredBlock.centralCalls) state.central

theorem merged_nil (collected : Collected base) : Merged resolveInterfaceRef base [] base where
  edges _ member := absurd member List.not_mem_nil
  otherEdges _ _ _ := rfl
  nodes _ member := absurd member List.not_mem_nil
  otherNodes _ _ := rfl
  queue := (List.append_nil _).symm
  sorted := collected.sorted
  central := .nil

/-- To a further block the state looks like the start of Phase 2. -/
theorem Merged.beside {done : List DeferredBlock} (merged : Merged resolveInterfaceRef base done state)
    (collected : Collected base) (distinct : ∀ other ∈ done, other.task ≠ block.task)
    (undisturbed : Undisturbed resolveInterfaceRef base state block) :
    Beside block.task (block.lookups resolveInterfaceRef) block.ports state base state base where
  graph :=
    { edges := fun source target owns => merged.otherEdges source target fun other member owned =>
        distinct other member (owned.unique owns other.deferred)
      otherEdges := fun _ _ _ => rfl
      nodes := fun task here => merged.otherNodes task fun other member same => by
        rcases here with rfl | rfl
        · exact distinct other member same
        · exact other.deferred.ne' same
      otherNodes := fun _ _ => rfl }
  table :=
    { found := undisturbed.found
      nearFound := fun key member ref found => by
        have inBase := (undisturbed.found key member).symm.trans found
        exact Or.inr (collected.registered key.1 ref
          (List.mem_map_of_mem (VariableTracker.mem_of_lookup inBase)))
      atPorts := undisturbed.atPorts
      nearPorts := fun port member ref registered => by
        refine Or.inr (collected.registered port ref ?_)
        simpa only [VariableTracker.lookupAll, undisturbed.atPorts port member] using registered
      leftSorted := merged.sorted
      rightSorted := collected.sorted }
  queue := ⟨[], (List.append_nil _).symm, (List.append_nil _).symm⟩

/-- One more block. -/
theorem Merged.step {done : List DeferredBlock} (merged : Merged resolveInterfaceRef base done state)
    (collected : Collected base) (distinct : ∀ other ∈ done, other.task ≠ block.task)
    (undisturbed : Undisturbed resolveInterfaceRef base state block)
    (ran : state.runBlock resolveInterfaceRef block = some next) :
    Merged resolveInterfaceRef base (done ++ [block]) next := by
  obtain ⟨result, connected, beside⟩ :=
    (merged.beside collected distinct undisturbed).runBlock ran
  have result_eq : alone resolveInterfaceRef base block = result := by
    rw [alone, connected, Option.getD_some]
  have others : ∀ other ∈ done, ∀ source target, Owns other.task source target →
      ¬ Owns block.task source target := fun other member source target owned owns =>
    distinct other member (owned.unique owns other.deferred)
  constructor
  · intro other member source target owned
    rcases List.mem_append.mp member with early | last
    · rw [beside.graph.otherEdges source target (others other early source target owned),
        merged.edges other early source target owned]
    · obtain rfl := List.mem_singleton.mp last
      rw [beside.graph.edges source target owned, result_eq]
  · intro source target unowned
    rw [beside.graph.otherEdges source target (unowned block (by simp)),
      merged.otherEdges source target fun other member =>
        unowned other (List.mem_append_left _ member)]
  · intro other member
    rcases List.mem_append.mp member with early | last
    · rw [beside.graph.otherNodes other.task (distinct other early), merged.nodes other early]
    · obtain rfl := List.mem_singleton.mp last
      rw [beside.graph.nodes other.task (Or.inl rfl), result_eq]
  · intro task absent
    rw [beside.graph.otherNodes task (absent block (by simp)).symm,
      merged.otherNodes task fun other member => absent other (List.mem_append_left _ member)]
  · obtain ⟨added, leftQueue, rightQueue⟩ := beside.queue
    have same : queued resolveInterfaceRef base block = added := by
      rw [queued, result_eq, rightQueue, List.drop_left]
    rw [leftQueue, merged.queue, List.flatMap_append, List.flatMap_singleton, same,
      List.append_assoc]
  · exact beside.table.leftSorted
  · obtain ⟨central, run⟩ := undisturbed.writable
    obtain rfl : next.central = central :=
      Option.some.inj ((central_runBlock ran).symm.trans run.folded)
    rw [List.flatMap_append, List.flatMap_singleton]
    exact merged.central.append run

/-- After a run of undisturbed blocks each has done what it does alone. -/
theorem merged_of_run (collected : Collected base)
    (distinct : (blocks.map DeferredBlock.task).Nodup)
    (run : GuardedRun (runBlock resolveInterfaceRef) (Undisturbed resolveInterfaceRef base) base
      blocks state) : Merged resolveInterfaceRef base blocks state := by
  induction run with
  | nil => exact merged_nil collected
  | snoc _ undisturbed ran ih =>
      rw [List.map_append, List.nodup_append] at distinct
      refine (ih distinct.1).step collected (fun other member => ?_) undisturbed ran
      exact distinct.2.2 _ (List.mem_map_of_mem member) _ (by simp)

end NetlistBuilder

/-! ## Results -/

/-- Some edge between the nodes says this of the bit. -/
def NetlistGraph.HasFact (graph : NetlistGraph) (source target : NodeRef) (symbol : Option String)
    (bit : Int) (kind : EdgeKind) (role : DependencyRole) : Prop :=
  ∃ edge ∈ graph.edgesBetween source target, edge.symbol = symbol ∧ bit ∈ edge.bounds ∧
    edge.semantics.edgeKind = kind ∧ edge.semantics.role = role

instance (graph : NetlistGraph) (source target : NodeRef) (symbol : Option String) (bit : Int)
    (kind : EdgeKind) (role : DependencyRole) :
    Decidable (graph.HasFact source target symbol bit kind role) :=
  inferInstanceAs (Decidable (∃ edge ∈ _, _))

namespace NetlistBuilder

/-- The State nodes with their paths and bounds. -/
def stateNodes (builder : NetlistBuilder) : List (NodeRef × Option (String × DriverBitRange)) :=
  (builder.graph.nodes.map NetlistNode.shape).filter fun shape => shape.1.kind = .state

/-- The results of two builds are the same up to a renaming of the nodes. -/
structure SameUpTo (rename : NodeRef ≃ NodeRef) (left right : NetlistBuilder) : Prop where
  central : ∀ symbol bit driver, driver ∈ left.central.driversAt symbol bit ↔
    driver.map rename ∈ right.central.driversAt symbol bit
  states : (left.stateNodes.map fun shape => (rename shape.1, shape.2)).Perm right.stateNodes
  queue : (left.pendingQueue.map fun pending =>
    { pending with node := pending.node.map rename }).Perm right.pendingQueue
  facts : ∀ source target symbol bit kind role,
    left.graph.HasFact source target symbol bit kind role ↔
      right.graph.HasFact (rename source) (rename target) symbol bit kind role

def SameResult (left right : NetlistBuilder) : Prop :=
  ∃ rename, SameUpTo rename left right

variable {base left right : NetlistBuilder} {resolveInterfaceRef : InterfaceRefs}
  {blocks order : List DeferredBlock}

/-- Graphs with the same nodes of each task have the same State nodes. -/
theorem stateNodes_perm (same : ∀ task, left.graph.nodesOf task = right.graph.nodesOf task) :
    left.stateNodes.Perm right.stateNodes := by
  refine List.Perm.filter _ (List.perm_iff_count.mpr fun shape => ?_)
  have counts (graph : NetlistGraph) : (graph.nodesOf shape.1.task).count shape =
      (graph.nodes.map NetlistNode.shape).count shape :=
    List.count_filter (by simp)
  rw [← counts, ← counts, same]

/-- The blocks that have each done what they do alone, in two orders. -/
theorem Merged.sameResult (merged : Merged resolveInterfaceRef base blocks left)
    (other : Merged resolveInterfaceRef base order right) (perm : order.Perm blocks)
    (sound : base.central.Sound) : SameResult left right := by
  have edges (source target : NodeRef) :
      left.graph.edgesBetween source target = right.graph.edgesBetween source target := by
    by_cases owned : ∃ block ∈ blocks, Owns block.task source target
    · obtain ⟨block, member, owns⟩ := owned
      rw [merged.edges block member source target owns,
        other.edges block (perm.mem_iff.mpr member) source target owns]
    · have unowned : ∀ block ∈ blocks, ¬ Owns block.task source target :=
        fun block member owns => owned ⟨block, member, owns⟩
      rw [merged.otherEdges source target unowned, other.otherEdges source target fun block member =>
        unowned block (perm.mem_iff.mp member)]
  have nodes (task : Nat) : left.graph.nodesOf task = right.graph.nodesOf task := by
    by_cases made : ∃ block ∈ blocks, block.task = task
    · obtain ⟨block, member, rfl⟩ := made
      rw [merged.nodes block member, other.nodes block (perm.mem_iff.mpr member)]
    · have absent : ∀ block ∈ blocks, block.task ≠ task :=
        fun block member same => made ⟨block, member, same⟩
      rw [merged.otherNodes task absent, other.otherNodes task fun block member =>
        absent block (perm.mem_iff.mp member)]
  have queue : left.pendingQueue.Perm right.pendingQueue := by
    rw [merged.queue, other.queue]
    exact (perm.symm.flatMap_right _).append_left _
  have merges (done : List DeferredBlock) :
      ∀ call ∈ done.flatMap DeferredBlock.centralCalls, call.merge = true := by
    intro call member
    obtain ⟨block, _, inBlock⟩ := List.mem_flatMap.mp member
    unfold DeferredBlock.centralCalls at inBlock
    split at inBlock
    · obtain ⟨_, _, rfl⟩ := List.mem_map.mp inBlock
      rfl
    · cases inBlock
  refine ⟨Equiv.refl NodeRef, ⟨fun symbol bit driver => ?_, ?_, ?_, fun source target => ?_⟩⟩
  · have calls : ∀ call, call ∈ blocks.flatMap DeferredBlock.centralCalls ↔
        call ∈ order.flatMap DeferredBlock.centralCalls := fun call =>
      (perm.symm.flatMap_right _).mem_iff
    simp only [Equiv.coe_refl, Option.map_id, id_eq,
      (TrackerState.driversAt_merges sound merged.central (merges blocks)).2,
      (TrackerState.driversAt_merges sound other.central (merges order)).2, calls]
  · simpa using stateNodes_perm nodes
  · simpa using queue
  · simp only [NetlistGraph.HasFact, edges, Equiv.refl_apply, implies_true]

/--
The deferred blocks can be merged in any order: two runs over the same blocks,
each with a task of its own, have the same result if no block is disturbed by
those before it.
-/
theorem runPhase2_perm (resolveInterfaceRef : InterfaceRefs) (collected : Collected base)
    (distinct : (blocks.map DeferredBlock.task).Nodup) (perm : order.Perm blocks)
    (run : GuardedRun (runBlock resolveInterfaceRef) (Undisturbed resolveInterfaceRef base) base
      blocks left)
    (reordered : GuardedRun (runBlock resolveInterfaceRef) (Undisturbed resolveInterfaceRef base)
      base order right) : SameResult left right := by
  have orderDistinct : (order.map DeferredBlock.task).Nodup :=
    (perm.map DeferredBlock.task).nodup_iff.mpr distinct
  exact (merged_of_run collected distinct run).sameResult
    (merged_of_run collected orderDistinct reordered) perm collected.sound

/-! ## A register with two writers -/

/-- The register `q` of a module. -/
def registerSymbol : ValueSymbol :=
  { id := 3, name := "q", hierarchicalPath := "m.q", selectableWidth := 8 }

/-- The wire `w` of the module. -/
def wireSymbol : ValueSymbol :=
  { id := 4, name := "w", hierarchicalPath := "m.w", selectableWidth := 8 }

/-- An assignment of a literal to some bits of the register. -/
def assignRegister (isBlocking : Bool) (left right : Int) : Stmt :=
  .assign
    { isBlocking := isBlocking
      left := .value .literal
        { rootSymbol := some registerSymbol, lsp := some 0, lspBounds := ⟨left, right⟩ }
      right := .literal
      integral := false }

/-- The block with one such assignment. -/
def registerBlock (task : Nat) (deferred : 0 < task) (sensitivity : List SensitivityEntry)
    (body : Stmt) (runs : (DataFlowAnalysis.runBody true (.initial task none) body).isSome) :
    DeferredBlock :=
  .ofProcedural task deferred sensitivity (Option.some_get runs).symm
    (((DataFlowAnalysis.runBody true (.initial task none) body).get runs).state.valueDrivers.map
      (registerSymbol, ·))
    (by
      intro slot member
      obtain ⟨map, inDrivers, rfl⟩ := List.mem_map.mp member
      exact inDrivers)

/-- `initial q = 0;` -/
def initialBlock : DeferredBlock :=
  registerBlock 1 (by decide) [] (assignRegister true 7 0) (by decide +kernel)

/-- `initial q[3:0] = 0;` -/
def initialHalf : DeferredBlock :=
  registerBlock 1 (by decide) [] (assignRegister true 3 0) (by decide +kernel)

/-- `always_ff @(posedge clk) q <= 1;` -/
def clockedBlock : DeferredBlock :=
  registerBlock 2 (by decide) clockEvents (assignRegister false 7 0) (by decide +kernel)

/-- `assign w = 1;` -/
def wireAssignment : AssignmentExpression where
  isBlocking := true
  left := .value .literal
    { rootSymbol := some wireSymbol, lsp := some 0, lspBounds := ⟨7, 0⟩ }
  right := .literal
  integral := false

def continuousBlock : DeferredBlock :=
  have runs : (DataFlowAnalysis.handleAssignment true (.initial 3 none) wireAssignment).isSome := by
    decide +kernel
  .ofContinuousAssign 3 (by decide) (Option.some_get runs).symm
    (((DataFlowAnalysis.handleAssignment true (.initial 3 none) wireAssignment).get
      runs).state.valueDrivers.map (wireSymbol, ·))
    (by
      intro slot member
      obtain ⟨map, inDrivers, rfl⟩ := List.mem_map.mp member
      exact inDrivers)

theorem collected_empty : Collected {} :=
  ⟨fun _ _ member => absurd member List.not_mem_nil, VariableTracker.sorted_empty,
    TrackerState.sound_empty⟩

/-- The builder after some blocks. -/
def afterBlocks (blocks : List DeferredBlock)
    (runs : (runPhase2 (fun _ _ => []) {} blocks).isSome) : NetlistBuilder :=
  (runPhase2 (fun _ _ => []) {} blocks).get runs

/-- The State node of the register is not registered for the half that the initial block writes. -/
theorem runPhase2_perm_half :
    ∃ left right,
      runPhase2 (fun _ _ => []) {} [initialHalf, continuousBlock, clockedBlock] = some left ∧
      runPhase2 (fun _ _ => []) {} [clockedBlock, initialHalf, continuousBlock] = some right ∧
      SameResult left right := by
  have runs (blocks : List DeferredBlock)
      (succeeds : (blocks.foldlM (GuardedRun.guarded (runBlock fun _ _ => [])
        (Undisturbed (fun _ _ => []) {})) {}).isSome) :
      ∃ state, GuardedRun (runBlock fun _ _ => []) (Undisturbed (fun _ _ => []) {}) {} blocks state :=
    GuardedRun.exists_iff_isSome.mpr succeeds
  obtain ⟨left, run⟩ := runs [initialHalf, continuousBlock, clockedBlock] (by decide +kernel)
  obtain ⟨right, reordered⟩ := runs [clockedBlock, initialHalf, continuousBlock]
    (by decide +kernel)
  have rotated : [clockedBlock, initialHalf, continuousBlock].Perm
      [initialHalf, continuousBlock, clockedBlock] :=
    (List.perm_append_comm : ([clockedBlock] ++ [initialHalf, continuousBlock]).Perm _)
  exact ⟨left, right, run.folded, reordered.folded,
    runPhase2_perm _ collected_empty (by decide) rotated run reordered⟩

/-- The initial block is connected to the State node only if it comes after the other block. -/
theorem runPhase2_order_matters :
    ∃ left right, runPhase2 (fun _ _ => []) {} [initialBlock, clockedBlock] = some left ∧
      runPhase2 (fun _ _ => []) {} [clockedBlock, initialBlock] = some right ∧
      ¬ SameResult left right := by
  refine ⟨afterBlocks [initialBlock, clockedBlock] (by decide +kernel),
    afterBlocks [clockedBlock, initialBlock] (by decide +kernel), (Option.some_get _).symm,
    (Option.some_get _).symm, ?_⟩
  rintro ⟨rename, same⟩
  -- Only the clocked assignment is connected in one order, both assignments in the other one.
  have only : ∀ edge ∈ (afterBlocks [initialBlock, clockedBlock] (by decide +kernel)).graph.edges,
      edge.source = ⟨2, .assignment, 0⟩ := by decide +kernel
  have source (late : NodeRef)
      (fact : (afterBlocks [clockedBlock, initialBlock] (by decide +kernel)).graph.HasFact late
        ⟨2, .state, 1⟩ (some "m.q") 0 .none .data) : rename.symm late = ⟨2, .assignment, 0⟩ := by
    obtain ⟨edge, member, _⟩ := (same.facts (rename.symm late) (rename.symm ⟨2, .state, 1⟩)
      (some "m.q") 0 .none .data).mpr (by simpa using fact)
    obtain ⟨inGraph, sourceEq, _⟩ := NetlistGraph.mem_edgesBetween.mp member
    exact sourceEq.symm.trans (only edge inGraph)
  have first := source ⟨2, .assignment, 0⟩ (by decide +kernel)
  have second := source ⟨1, .assignment, 0⟩ (by decide +kernel)
  exact absurd (rename.symm.injective (first.trans second.symm)) (by decide)

end NetlistBuilder

end SlangNetlist
