import SlangNetlist.Analysis.AssignmentSteps
import SlangNetlist.Build.DeferredBlocks
import SlangNetlist.Build.ReadCalls

/-!
# The bits of a read

Which bits of a read reach the builder: by an edge from the drivers of their
definition, or by an R-value that is queued.  A definition over one end of the
read is subtracted from the pending part but gives no edge, and a read through a
modport queues nothing.
-/

namespace SlangNetlist

open Library

namespace NetlistGraph

/--
The edges to the target account for the driver of a bit: one of them carries
the bit, or the bit is outside the driver's own bounds and one carries the symbol.
-/
def DriverLinked (graph : NetlistGraph) (source target : NodeRef) (symbol : String)
    (bit : Int) : Prop :=
  graph.Carries source target symbol bit ∨
    (∃ own, graph.getBounds source = some own ∧ bit ∉ own) ∧
      ∃ other, graph.Carries source target symbol other

/-- A range accounts for its bits and for those outside the bounds of the source. -/
def Accounts (graph : NetlistGraph) (source : NodeRef) (bounds : DriverBitRange) (bit : Int) :
    Prop :=
  bit ∈ bounds ∨ ∃ own, graph.getBounds source = some own ∧ bit ∉ own

theorem lower_mem_clip (own : Option DriverBitRange) (bounds : DriverBitRange) :
    (clip own bounds).lower ∈ clip own bounds :=
  ⟨le_rfl, DriverBitRange.lower_le_upper _⟩

/-- A clipped range holds the bits of the range that the source has, or all of them. -/
theorem mem_clip_or (own : Option DriverBitRange) {bounds : DriverBitRange} {bit : Int}
    (inside : bit ∈ bounds) :
    bit ∈ clip own bounds ∨ ∃ range, own = some range ∧ bit ∉ range := by
  cases own with
  | none => exact Or.inl inside
  | some range =>
      by_cases overlaps : bounds.overlaps range
      · by_cases within : bit ∈ range
        · left
          simp only [clip, overlaps, if_true]
          exact (DriverBitRange.mem_intersect overlaps).mpr ⟨inside, within⟩
        · exact Or.inr ⟨range, rfl, within⟩
      · left
        simpa [clip, overlaps] using inside

/-- A driver is accounted for after dependencies exactly if it was before or one accounts for it. -/
theorem driverLinked_addDependencies {symbol : String} {dependencies : List Dependency}
    (only : ∀ dependency ∈ dependencies, dependency.symbol = symbol) (graph : NetlistGraph)
    {source target : NodeRef} {bit : Int} :
    (dependencies.foldl addDependency graph).DriverLinked source target symbol bit ↔
      graph.DriverLinked source target symbol bit ∨
        ∃ dependency ∈ dependencies, dependency.source = source ∧ dependency.target = target ∧
          graph.Accounts source dependency.bounds bit := by
  unfold DriverLinked
  simp only [carries_addDependencies only, getBounds_addDependencies]
  constructor
  · rintro ((old | ⟨dependency, member, sourceEq, targetEq, inside⟩) |
      ⟨own, other, old | ⟨dependency, member, sourceEq, targetEq, _⟩⟩)
    · exact Or.inl (Or.inl old)
    · exact Or.inr ⟨dependency, member, sourceEq, targetEq, Or.inl (mem_of_mem_clip inside)⟩
    · exact Or.inl (Or.inr ⟨own, other, old⟩)
    · exact Or.inr ⟨dependency, member, sourceEq, targetEq, Or.inr own⟩
  · rintro ((old | ⟨own, other, old⟩) | ⟨dependency, member, sourceEq, targetEq, accounts⟩)
    · exact Or.inl (Or.inl old)
    · exact Or.inr ⟨own, other, Or.inl old⟩
    · have kept : bit ∈ clip (graph.getBounds source) dependency.bounds ∨
          ∃ own, graph.getBounds source = some own ∧ bit ∉ own :=
        accounts.elim (mem_clip_or (graph.getBounds source)) Or.inr
      rcases kept with inside | own
      · exact Or.inl (Or.inr ⟨dependency, member, sourceEq, targetEq, inside⟩)
      · exact Or.inr ⟨own, _, Or.inr ⟨dependency, member, sourceEq, targetEq,
          lower_mem_clip (graph.getBounds source) dependency.bounds⟩⟩

end NetlistGraph

namespace NetlistBuilder

variable {builder next : NetlistBuilder} {resolveInterfaceRef : InterfaceRefs}

theorem OnlyAdds.driverLinked {dependencies : List Dependency}
    (only : OnlyAdds builder next dependencies) {source target : NodeRef} {symbol : String}
    {bit : Int} : next.graph.DriverLinked source target symbol bit ↔
      (dependencies.foldl NetlistGraph.addDependency builder.graph).DriverLinked source target
        symbol bit := by
  simp only [NetlistGraph.DriverLinked, NetlistGraph.Carries, only.edges, only.getBounds,
    NetlistGraph.getBounds_addDependencies]

/-! ## The calls of a read -/

/-- The call makes annotated edges or passes an R-value on. -/
def ReadCall : BuilderCall → Prop
  | .addDependency _ | .addRvalue .. => True
  | _ => False

theorem applyCall_readCall {builderCall : BuilderCall} (isRead : ReadCall builderCall) :
    OnlyAdds builder (builder.applyCall resolveInterfaceRef builderCall)
        (callDependencies resolveInterfaceRef builder builderCall) ∧
      (builder.applyCall resolveInterfaceRef builderCall).pendingQueue =
        builder.pendingQueue ++ callPending builderCall := by
  cases builderCall with
  | addNode | addUnannotated => exact isRead.elim
  | addDependency dependency =>
      exact ⟨OnlyAdds.addDependency builder dependency, (List.append_nil _).symm⟩
  | addRvalue symbol lsp bounds node role precision =>
      exact addRvalue_adds builder resolveInterfaceRef symbol lsp bounds node role precision

/-- The calls of a read add their dependencies and queue their R-values, in order. -/
theorem foldl_readCalls {calls : List BuilderCall} (reads : ∀ call ∈ calls, ReadCall call) :
    OnlyAdds builder (calls.foldl (applyCall resolveInterfaceRef) builder)
        (calls.flatMap (callDependencies resolveInterfaceRef builder)) ∧
      (calls.foldl (applyCall resolveInterfaceRef) builder).pendingQueue =
        builder.pendingQueue ++ calls.flatMap callPending := by
  induction calls generalizing builder with
  | nil => exact ⟨OnlyAdds.refl builder, (List.append_nil _).symm⟩
  | cons head rest ih =>
      obtain ⟨first, queued⟩ := @applyCall_readCall builder resolveInterfaceRef head
        (reads head List.mem_cons_self)
      obtain ⟨later, laterQueued⟩ := @ih (builder.applyCall resolveInterfaceRef head)
        fun call member => reads call (List.mem_cons_of_mem _ member)
      have same : callDependencies resolveInterfaceRef
          (builder.applyCall resolveInterfaceRef head) =
            callDependencies resolveInterfaceRef builder := by
        funext call
        cases call with
        | addRvalue _ _ _ node =>
            cases node with
            | none => rfl
            | some node =>
                simp only [callDependencies, accessDependencies, first.getVariable]
        | _ => rfl
      rw [same] at later
      rw [List.foldl_cons, List.flatMap_cons, List.flatMap_cons, laterQueued, queued,
        List.append_assoc]
      exact ⟨first.trans later, rfl⟩

end NetlistBuilder

namespace DataFlowAnalysis

/-! ## No bit of a read is lost -/

section Kept

variable (resolveInterfaceRef : InterfaceRefs) (builder after : NetlistBuilder)
  (definitions : DriverMap) (symbol : ValueSymbol) (lsp : Nat) (bounds : DriverBitRange)
  (node : NodeRef)

/--
A bit of a read is kept: it lies in a definition all of whose drivers have an
edge to the node, or in an R-value that has been queued for the node.
-/
def KeepsBit (bit : Int) : Prop :=
  (∃ entry ∈ definitions.driverIntervals.entries, entry.Covers bit ∧
    ∀ list, definitions.getDriverList entry.value = some list →
      ∀ source, some source ∈ list.nodes →
        after.graph.DriverLinked source node symbol.hierarchicalPath bit) ∨
  ∃ queued, after.pendingQueue = builder.pendingQueue ++ queued ∧ ∃ pending ∈ queued,
    pending.symbol = symbol ∧ pending.lsp = lsp ∧ pending.node = some node ∧ bit ∈ pending.bounds

/--
Each definition over one end of the read is made up for: its bit is the upper
one and another definition ends just below, or its drivers have the edge
already or drive a definition that lies inside the read.
-/
def EndsKept (graph : NetlistGraph) : Prop :=
  ∀ entry ∈ definitions.driverIntervals.entries, OverOneEnd entry bounds →
    ∀ bit ∈ bounds, entry.Covers bit →
      (bit = bounds.upper ∧ IntervalMapUtils.EndsBelow definitions.driverIntervals.entries
        bounds.lower bounds.upper) ∨
      ∀ list, definitions.getDriverList entry.value = some list →
        ∀ source, some source ∈ list.nodes →
          graph.DriverLinked source node symbol.hierarchicalPath bit ∨
            definitions.Linked bounds source

/--
The node is that of an interface variable which is looked up, and the part of
the read that is passed on has the bit, or the bit is outside the node's bounds.
-/
def ReadThrough (source : NodeRef) (bit : Int) : Prop :=
  (∃ ref ∈ resolveInterfaceRef symbol lsp, builder.getVariable ref.1.id ref.2 = some source) ∧
    ∃ other, definitions.Pended bounds other ∧
      (other = bit ∨ ∃ own, builder.graph.getBounds source = some own ∧ bit ∉ own)

/--
A read through a modport has a definition for each bit, whose drivers have the
edge already, drive a definition that lies inside the read, or are read through
the modport.
-/
def DefinitionsKept : Prop :=
  ∀ bit ∈ bounds, ∃ entry ∈ definitions.driverIntervals.entries, entry.Covers bit ∧
    ∀ list, definitions.getDriverList entry.value = some list →
      ∀ source, some source ∈ list.nodes →
        builder.graph.DriverLinked source node symbol.hierarchicalPath bit ∨
          definitions.Linked bounds source ∨
            ReadThrough resolveInterfaceRef builder definitions symbol lsp bounds source bit

/-- The condition on the state before a read under which it loses no bit. -/
def BitsKept : Prop :=
  if symbol.kind = .modportPort then
    DefinitionsKept resolveInterfaceRef builder definitions symbol lsp bounds node
  else EndsKept definitions symbol bounds node builder.graph

end Kept

section Read

variable {dfa : DataFlowAnalysis} {builder : NetlistBuilder} {resolveInterfaceRef : InterfaceRefs}
  {symbol : ValueSymbol} {lsp : Nat} {bounds : DriverBitRange} {node : NodeRef}
  {calls : List BuilderCall}

theorem ReadFor.readCall (reads : dfa.ReadFor symbol lsp bounds node calls) :
    ∀ call ∈ calls, NetlistBuilder.ReadCall call := by
  intro call member
  rcases reads.shape call member with ⟨dependency, rfl⟩ | ⟨range, rfl⟩ <;> trivial

/-- What the edges account for after a read. -/
theorem ReadFor.driverLinked (reads : dfa.ReadFor symbol lsp bounds node calls)
    {source : NodeRef} {bit : Int} (inside : bit ∈ bounds) :
    (calls.foldl (NetlistBuilder.applyCall resolveInterfaceRef) builder).graph.DriverLinked source
        node symbol.hierarchicalPath bit ↔
      builder.graph.DriverLinked source node symbol.hierarchicalPath bit ∨
        (dfa.definitions symbol).Linked bounds source ∨
          symbol.kind = .modportPort ∧ ReadThrough resolveInterfaceRef builder
            (dfa.definitions symbol) symbol lsp bounds source bit := by
  have adds := (@NetlistBuilder.foldl_readCalls builder resolveInterfaceRef calls
    reads.readCall).1
  rw [adds.driverLinked, NetlistGraph.driverLinked_addDependencies]
  · refine or_congr_right ⟨?_, ?_⟩
    · rintro ⟨dependency, member, rfl, _, accounts⟩
      obtain ⟨call, callMem, inCall⟩ := List.mem_flatMap.mp member
      rcases reads.shape call callMem with ⟨added, rfl⟩ | ⟨range, rfl⟩
      · obtain rfl := List.mem_singleton.mp inCall
        exact Or.inl ((reads.read.linked dependency).mp callMem).1
      · obtain ⟨modport, looked, same⟩ := NetlistBuilder.mem_callDependencies_rvalue.mp inCall
        rw [same] at accounts
        refine Or.inr ⟨modport, looked, ?_⟩
        rcases accounts with within | outside
        · exact ⟨bit, (reads.read.pended bit).mp ⟨range, callMem, within⟩, Or.inl rfl⟩
        · exact ⟨range.lower, (reads.read.pended range.lower).mp
            ⟨range, callMem, ⟨le_rfl, range.lower_le_upper⟩⟩, Or.inr outside⟩
    · rintro (linked | ⟨modport, looked, other, pended, accounts⟩)
      · refine ⟨
          { source := source, target := node, symbol := symbol.hierarchicalPath, bounds := bounds,
            semantics := { role := dfa.dependencyRole, precision := dfa.dependencyPrecision } },
          List.mem_flatMap.mpr ⟨_, (reads.read.linked _).mpr ⟨linked, rfl⟩,
            List.mem_singleton_self _⟩, rfl, rfl, Or.inl inside⟩
      · obtain ⟨range, callMem, within⟩ := (reads.read.pended other).mpr pended
        refine ⟨
          { source := source, target := node, symbol := symbol.hierarchicalPath, bounds := range,
            semantics := { role := dfa.dependencyRole, precision := dfa.dependencyPrecision } },
          List.mem_flatMap.mpr ⟨_, callMem, NetlistBuilder.mem_callDependencies_rvalue.mpr
            ⟨modport, looked, rfl⟩⟩, rfl, rfl,
          accounts.imp (fun same => by rw [← same]; exact within) id⟩
  · intro dependency member
    obtain ⟨call, callMem, inCall⟩ := List.mem_flatMap.mp member
    rcases reads.shape call callMem with ⟨added, rfl⟩ | ⟨range, rfl⟩
    · obtain rfl := List.mem_singleton.mp inCall
      rw [((reads.read.linked dependency).mp callMem).2]
    · rw [(NetlistBuilder.mem_callDependencies_rvalue.mp inCall).2.2]

/-- What is queued by a read: the pending part, unless the read is through a modport. -/
theorem ReadFor.queued (reads : dfa.ReadFor symbol lsp bounds node calls) (bit : Int) :
    (∃ queued, (calls.foldl (NetlistBuilder.applyCall resolveInterfaceRef) builder).pendingQueue =
        builder.pendingQueue ++ queued ∧ ∃ pending ∈ queued, pending.symbol = symbol ∧
          pending.lsp = lsp ∧ pending.node = some node ∧ bit ∈ pending.bounds) ↔
      symbol.kind ≠ .modportPort ∧ (dfa.definitions symbol).Pended bounds bit := by
  rw [(@NetlistBuilder.foldl_readCalls builder resolveInterfaceRef calls reads.readCall).2,
    ← reads.mem_pending]
  simp only [List.append_right_inj, exists_eq_left']

/-- A read of a symbol that is no modport port keeps its bits if the ends are made up for. -/
theorem ReadFor.keeps_plain (reads : dfa.ReadFor symbol lsp bounds node calls)
    (plain : symbol.kind ≠ .modportPort)
    (ordered : (dfa.definitions symbol).driverIntervals.Ordered) :
    (∀ bit ∈ bounds, KeepsBit builder
        (calls.foldl (NetlistBuilder.applyCall resolveInterfaceRef) builder)
        (dfa.definitions symbol) symbol lsp node bit) ↔
      EndsKept (dfa.definitions symbol) symbol bounds node builder.graph := by
  have linked {source : NodeRef} {bit : Int} (inside : bit ∈ bounds) :=
    @driverLinked dfa builder resolveInterfaceRef symbol lsp bounds node calls reads source bit
      inside
  have queued := @queued dfa builder resolveInterfaceRef symbol lsp bounds node calls reads
  simp only [plain, false_and, or_false] at linked
  simp only [plain, ne_eq, not_false_eq_true, true_and] at queued
  unfold KeepsBit
  simp only [queued]
  constructor
  · intro kept entry entryMem overEnd bit inside covers
    rcases kept bit inside with ⟨other, otherMem, otherCovers, driven⟩ | pended
    · cases ordered.unique otherMem entryMem otherCovers covers
      exact Or.inr fun list listed source member =>
        (linked inside).mp (driven list listed source member)
    · obtain ⟨_, _, uncovered | atEnd⟩ := pended
      · exact absurd ⟨entry, entryMem, covers⟩ uncovered
      · exact Or.inl atEnd
  · intro ends bit inside
    by_cases covered : (dfa.definitions symbol).driverIntervals.Covers bit
    · obtain ⟨entry, entryMem, covers⟩ := covered
      have overlaps : entry.Overlaps bounds.lower bounds.upper := by
        simp only [Interval.Overlaps, Interval.Covers, DriverBitRange.mem_iff] at *
        omega
      have found : entry ∈ (dfa.definitions symbol).find bounds :=
        IntervalMap.mem_find.mpr ⟨entryMem, overlaps⟩
      by_cases relevant : CoversRead entry bounds ∨ entry.Inside bounds.lower bounds.upper
      · exact Or.inl ⟨entry, entryMem, covers, fun list listed source driven =>
          (linked inside).mpr (Or.inr ⟨entry, found, relevant, list, listed, driven⟩)⟩
      · rw [not_or] at relevant
        rcases ends entry entryMem ⟨overlaps, relevant⟩ bit inside covers with atEnd | driven
        · refine Or.inr ⟨inside, fun other otherMem otherCovers => ?_, Or.inr atEnd⟩
          cases alone_of_coversRead ordered otherMem otherCovers found
          exact relevant.1 otherCovers
        · exact Or.inl ⟨entry, entryMem, covers, fun list listed source member =>
            (linked inside).mpr (driven list listed source member)⟩
    · refine Or.inr ⟨inside, fun other otherMem otherCovers => ?_, Or.inl covered⟩
      refine covered ⟨other, (IntervalMap.mem_find.mp otherMem).1, ?_⟩
      simp only [Interval.Covers, CoversRead, DriverBitRange.mem_iff] at *
      omega

/-- A read through a modport keeps only bits with a definition. -/
theorem ReadFor.keeps_modport (reads : dfa.ReadFor symbol lsp bounds node calls)
    (modport : symbol.kind = .modportPort) :
    (∀ bit ∈ bounds, KeepsBit builder
        (calls.foldl (NetlistBuilder.applyCall resolveInterfaceRef) builder)
        (dfa.definitions symbol) symbol lsp node bit) ↔
      DefinitionsKept resolveInterfaceRef builder (dfa.definitions symbol) symbol lsp bounds
        node := by
  have linked {source : NodeRef} {bit : Int} (inside : bit ∈ bounds) :=
    @driverLinked dfa builder resolveInterfaceRef symbol lsp bounds node calls reads source bit
      inside
  have queued := @queued dfa builder resolveInterfaceRef symbol lsp bounds node calls reads
  simp only [modport, true_and] at linked
  simp only [modport, ne_eq, not_true_eq_false, false_and] at queued
  unfold KeepsBit DefinitionsKept
  simp only [queued, or_false]
  refine forall₂_congr fun bit inside => exists_congr fun entry => and_congr_right fun _ =>
    and_congr_right fun _ => ?_
  exact forall₄_congr fun _ _ _ _ => linked inside

end Read

/--
With a current node and disjoint definitions, `handleRvalue` keeps every bit of
the read exactly if every definition over one end of it is made up for; through
a modport, exactly if every bit has a definition that gives the edges.
-/
theorem handleRvalue_keeps_iff (dfa : DataFlowAnalysis) (builder : NetlistBuilder)
    (resolveInterfaceRef : InterfaceRefs) (symbol : ValueSymbol) (lsp : Nat)
    (bounds : DriverBitRange) (node : NodeRef) (current : dfa.state.node = some node)
    (ordered : (dfa.definitions symbol).driverIntervals.Ordered)
    (live : ∀ entry ∈ (dfa.definitions symbol).driverIntervals.entries,
      (dfa.definitions symbol).Live entry) :
    ∃ calls, dfa.handleRvalue symbol lsp bounds = some (dfa.appendCalls calls) ∧
      ((∀ bit ∈ bounds, KeepsBit builder
          (calls.foldl (NetlistBuilder.applyCall resolveInterfaceRef) builder)
          (dfa.definitions symbol) symbol lsp node bit) ↔
        BitsKept resolveInterfaceRef builder (dfa.definitions symbol) symbol lsp bounds node) := by
  obtain ⟨calls, handled, read⟩ := handleRvalue_spec ordered current lsp bounds
    fun entry found => live entry (IntervalMap.mem_find.mp found).1
  obtain ⟨others, same, shape⟩ := handleRvalue_calls handled
  obtain rfl := appendCalls_inj same
  rw [current, Option.some_or] at shape
  have reads : dfa.ReadFor symbol lsp bounds node calls := ⟨read, shape⟩
  refine ⟨calls, handled, ?_⟩
  unfold BitsKept
  split
  · next modport => exact reads.keeps_modport modport
  · next plain => exact reads.keeps_plain plain ordered

/--
The read of `t[7:0]` after `t[3:0]`, where the definition lies inside the read,
and a read through a modport, which has no definition.
-/
theorem handleRvalue_keeps_iff_wide :
    (∃ calls, lowerHalfDefined.handleRvalue signal 0 ⟨7, 0⟩ =
        some (lowerHalfDefined.appendCalls calls) ∧
      ((∀ bit ∈ (⟨7, 0⟩ : DriverBitRange), KeepsBit {}
          (calls.foldl (NetlistBuilder.applyCall fun _ _ => []) {})
          (lowerHalfDefined.definitions signal) signal 0 ⟨0, .assignment, 1⟩ bit) ↔
        BitsKept (fun _ _ => []) {} (lowerHalfDefined.definitions signal) signal 0 ⟨7, 0⟩
          ⟨0, .assignment, 1⟩)) ∧
    ∃ calls, lowerHalfDefined.handleRvalue { signal with kind := .modportPort } 0 ⟨7, 0⟩ =
        some (lowerHalfDefined.appendCalls calls) ∧
      ((∀ bit ∈ (⟨7, 0⟩ : DriverBitRange), KeepsBit {}
          (calls.foldl (NetlistBuilder.applyCall fun _ _ => []) {})
          (lowerHalfDefined.definitions { signal with kind := .modportPort })
          { signal with kind := .modportPort } 0 ⟨0, .assignment, 1⟩ bit) ↔
        BitsKept (fun _ _ => []) {}
          (lowerHalfDefined.definitions { signal with kind := .modportPort })
          { signal with kind := .modportPort } 0 ⟨7, 0⟩ ⟨0, .assignment, 1⟩) :=
  ⟨handleRvalue_keeps_iff lowerHalfDefined {} (fun _ _ => []) signal 0 ⟨7, 0⟩ ⟨0, .assignment, 1⟩
      rfl lowerHalfDefined_ordered lowerHalfDefined_live,
    handleRvalue_keeps_iff lowerHalfDefined {} (fun _ _ => []) { signal with kind := .modportPort } 0
      ⟨7, 0⟩ ⟨0, .assignment, 1⟩ rfl lowerHalfDefined_ordered lowerHalfDefined_live⟩

/-- The read of `t[5:2]` after `t[3:0]` loses the bits 2 and 3. -/
theorem handleRvalue_loses_bits :
    ∃ calls, lowerHalfDefined.handleRvalue signal 0 ⟨5, 2⟩ =
        some (lowerHalfDefined.appendCalls calls) ∧
      ¬ ∀ bit ∈ (⟨5, 2⟩ : DriverBitRange), KeepsBit {}
        (calls.foldl (NetlistBuilder.applyCall fun _ _ => []) {})
        (lowerHalfDefined.definitions signal) signal 0 ⟨0, .assignment, 1⟩ bit := by
  have current : lowerHalfDefined.state.node = some ⟨0, .assignment, 1⟩ := rfl
  obtain ⟨calls, handled, read⟩ := handleRvalue_spec lowerHalfDefined_ordered current 0 ⟨5, 2⟩
    fun entry found => lowerHalfDefined_live entry (IntervalMap.mem_find.mp found).1
  obtain ⟨others, same, shape⟩ := handleRvalue_calls handled
  obtain rfl := appendCalls_inj same
  have reads : lowerHalfDefined.ReadFor signal 0 ⟨5, 2⟩ ⟨0, .assignment, 1⟩ calls := ⟨read, shape⟩
  refine ⟨calls, handled, fun kept => ?_⟩
  have ends := (reads.keeps_plain (by decide) lowerHalfDefined_ordered).mp kept
  rcases ends ⟨0, 3, 0⟩ (by decide) (by decide) 2 (by decide) (by decide) with atEnd | linked
  · exact absurd atEnd.1 (by decide)
  · rcases linked _ rfl ⟨0, .assignment, 0⟩ (by decide) with old | ⟨entry, entryMem, inside, _⟩
    · simp [NetlistGraph.DriverLinked, NetlistGraph.Carries, NetlistGraph.edgesBetween] at old
    · rw [show (lowerHalfDefined.definitions signal).find ⟨5, 2⟩ = [⟨0, 3, 0⟩] from rfl,
        List.mem_singleton] at entryMem
      subst entryMem
      exact absurd inside (by decide)

end DataFlowAnalysis

end SlangNetlist
