import SlangNetlist.Analysis.AssignmentSteps
import SlangNetlist.Build.ModportAccess

/-!
# The calls of a read

What the builder does with the calls that an analysis makes for a read: edges
are added, and parts of the read are queued, unless they are read through a
modport.
-/

namespace SlangNetlist

namespace NetlistBuilder

/-- The dependencies that a call adds. -/
def callDependencies (resolveInterfaceRef : InterfaceRefs) (builder : NetlistBuilder) :
    BuilderCall → List Dependency
  | .addDependency dependency => [dependency]
  | .addRvalue symbol lsp bounds (some node) role precision =>
      if symbol.kind = .modportPort then
        builder.accessDependencies (resolveInterfaceRef symbol lsp) symbol bounds node
          { role := role, precision := precision }
      else []
  | _ => []

/-- The R-values that a call queues. -/
def callPending : BuilderCall → List PendingRvalue
  | .addRvalue symbol lsp bounds node role precision =>
      if symbol.kind = .modportPort ∧ node ≠ none then []
      else [{ symbol := symbol, bounds := bounds, lsp := lsp, node := node,
              semantics := { role := role, precision := precision } }]
  | _ => []

/-- A read through a modport queues nothing. -/
theorem pendingQueue_addRvalue (builder : NetlistBuilder) (resolveInterfaceRef : InterfaceRefs)
    {symbol : ValueSymbol} (modport : symbol.kind = .modportPort) (lsp : Nat)
    (bounds : DriverBitRange) (node : NodeRef) (role : DependencyRole)
    (precision : DependencyPrecision) :
    (builder.addRvalue resolveInterfaceRef symbol lsp bounds (some node) role
      precision).pendingQueue = builder.pendingQueue := by
  unfold NetlistBuilder.addRvalue
  simp only [modport]
  induction resolveInterfaceRef symbol lsp generalizing builder with
  | nil => rfl
  | cons ref rest ih =>
      rw [List.foldl_cons, ih]
      split <;> rfl

/-- `addRvalue` adds the dependencies of its call and queues its R-value. -/
theorem addRvalue_adds (builder : NetlistBuilder) (resolveInterfaceRef : InterfaceRefs)
    (symbol : ValueSymbol) (lsp : Nat) (bounds : DriverBitRange) (node : Option NodeRef)
    (role : DependencyRole) (precision : DependencyPrecision) :
    OnlyAdds builder
        (builder.addRvalue resolveInterfaceRef symbol lsp bounds node role precision)
        (callDependencies resolveInterfaceRef builder
          (.addRvalue symbol lsp bounds node role precision)) ∧
      (builder.addRvalue resolveInterfaceRef symbol lsp bounds node role precision).pendingQueue =
        builder.pendingQueue ++ callPending (.addRvalue symbol lsp bounds node role precision) := by
  by_cases through : symbol.kind = .modportPort ∧ node ≠ none
  · obtain ⟨modport, given⟩ := through
    obtain ⟨node, rfl⟩ := Option.ne_none_iff_exists'.mp given
    have only := OnlyAdds.addRvalue builder resolveInterfaceRef modport lsp bounds node role
      precision
    have queue := pendingQueue_addRvalue builder resolveInterfaceRef modport lsp bounds node role
      precision
    simp only [callDependencies, callPending, modport, true_and, ne_eq, reduceCtorEq,
      not_false_eq_true, if_true, List.append_nil]
    exact ⟨only, queue⟩
  · have queued : builder.addRvalue resolveInterfaceRef symbol lsp bounds node role precision =
        builder.enqueue
          { symbol := symbol, bounds := bounds, lsp := lsp, node := node,
            semantics := { role := role, precision := precision } } := by
      unfold NetlistBuilder.addRvalue
      split
      · next node kind => exact absurd ⟨kind, Option.some_ne_none node⟩ through
      · rfl
    have none : callDependencies resolveInterfaceRef builder
        (.addRvalue symbol lsp bounds node role precision) = [] := by
      cases node with
      | none => rfl
      | some node =>
          have plain : symbol.kind ≠ .modportPort := fun modport =>
            through ⟨modport, Option.some_ne_none node⟩
          simp [callDependencies, plain]
    rw [none, queued, callPending, if_neg through]
    exact ⟨⟨rfl, rfl, rfl, rfl, fun _ _ => rfl⟩, rfl⟩

theorem mem_callDependencies_rvalue {resolveInterfaceRef : InterfaceRefs}
    {builder : NetlistBuilder} {symbol : ValueSymbol} {lsp : Nat} {range : DriverBitRange}
    {node : NodeRef} {role : DependencyRole} {precision : DependencyPrecision}
    {dependency : Dependency} :
    dependency ∈ callDependencies resolveInterfaceRef builder
        (.addRvalue symbol lsp range (some node) role precision) ↔
      symbol.kind = .modportPort ∧ (∃ ref ∈ resolveInterfaceRef symbol lsp,
        builder.getVariable ref.1.id ref.2 = some dependency.source) ∧ dependency =
          { source := dependency.source, target := node, symbol := symbol.hierarchicalPath,
            bounds := range, semantics := { role := role, precision := precision } } := by
  unfold callDependencies
  by_cases modport : symbol.kind = .modportPort
  · simp only [modport, if_true, mem_accessDependencies, true_and]
  · simp [modport]

end NetlistBuilder

namespace DataFlowAnalysis

/-- The calls of a read for the node: edges to it, and parts that are passed on for it. -/
structure ReadFor (dfa : DataFlowAnalysis) (symbol : ValueSymbol) (lsp : Nat)
    (bounds : DriverBitRange) (node : NodeRef) (calls : List BuilderCall) : Prop where
  read : dfa.ReadCalls symbol lsp bounds node calls
  shape : ∀ call ∈ calls, (∃ dependency, call = .addDependency dependency) ∨
    ∃ range, call = .addRvalue symbol lsp range (some node) dfa.dependencyRole
      dfa.dependencyPrecision

variable {dfa : DataFlowAnalysis} {node : NodeRef} {calls : List BuilderCall}

/-- What is queued by a read: the pending part, unless the read is through a modport. -/
theorem ReadFor.mem_pending {symbol : ValueSymbol} {lsp : Nat} {bounds : DriverBitRange}
    (reads : dfa.ReadFor symbol lsp bounds node calls) {bit : Int} :
    (∃ pending ∈ calls.flatMap NetlistBuilder.callPending, pending.symbol = symbol ∧
        pending.lsp = lsp ∧ pending.node = some node ∧ bit ∈ pending.bounds) ↔
      symbol.kind ≠ .modportPort ∧ (dfa.definitions symbol).Pended bounds bit := by
  constructor
  · rintro ⟨pending, member, _, _, _, within⟩
    obtain ⟨call, callMem, inCall⟩ := List.mem_flatMap.mp member
    rcases reads.shape call callMem with ⟨added, rfl⟩ | ⟨range, rfl⟩
    · cases inCall
    · by_cases modport : symbol.kind = .modportPort
      · simp [NetlistBuilder.callPending, modport] at inCall
      · simp only [NetlistBuilder.callPending, modport, false_and, if_false,
          List.mem_singleton] at inCall
        rw [inCall] at within
        exact ⟨modport, (reads.read.pended bit).mp ⟨range, callMem, within⟩⟩
  · rintro ⟨plain, pended⟩
    obtain ⟨range, callMem, within⟩ := (reads.read.pended bit).mpr pended
    refine ⟨
      { symbol := symbol, bounds := range, lsp := lsp, node := some node,
        semantics := { role := dfa.dependencyRole, precision := dfa.dependencyPrecision } },
      List.mem_flatMap.mpr ⟨_, callMem, ?_⟩, rfl, rfl, rfl, within⟩
    simp [NetlistBuilder.callPending, plain]

/-- The calls of a read that succeeds in a state with a current node. -/
theorem readFor_of_read {access : Access}
    (ordered : (dfa.definitions access.symbol).driverIntervals.Ordered)
    (current : dfa.state.node = some node)
    (handled : dfa.read access = some (dfa.appendCalls calls)) :
    (dfa.accessing access).ReadFor access.symbol access.lsp access.bounds node calls := by
  obtain ⟨others, same, shape⟩ := read_calls handled
  obtain rfl := appendCalls_inj same
  obtain ⟨others, same, spec⟩ := read_spec ordered current (live_of_read ordered current handled)
  obtain rfl := appendCalls_inj (Option.some.inj (handled.symm.trans same))
  rw [current, Option.some_or] at shape
  exact ⟨spec, shape⟩

end DataFlowAnalysis

end SlangNetlist
