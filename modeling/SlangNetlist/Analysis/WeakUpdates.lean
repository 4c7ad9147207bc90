import SlangNetlist.Analysis.RootlessSelects
import SlangNetlist.Tracking.NamedLists

/-!
# Weak updates

A dynamic select may write any bit of its longest static prefix.  The segments
of an assignment write as many bits as the select has, from the first bit of
the prefix on, and a write changes no driver list: a bit with a driver never
gets a further one.
-/

namespace SlangNetlist

open Library AssignmentStep BitSliceList SliceExpr

/-- A blocking assignment whose left side is a select with a selector that is not constant. -/
structure DynamicWrite (cuts : Option CutRegistry) extends DecomposedAssignment cuts where
  isBlocking : expr.isBlocking = true
  width : Nat
  path : ValuePath
  selectors : List Selector
  target : left = .value width path selectors
  dynamic : ∃ selector ∈ selectors, selector.constant = false
  symbol : ValueSymbol
  rootSymbol : path.rootSymbol = some symbol
  lsp : Nat
  lspExpr : path.lsp = some lsp
  /-- The select is a part of its longest static prefix. -/
  within : (width : Int) ≤ path.lspBounds.upper + 1 - path.lspBounds.lower

namespace AssignmentStep

variable {context : WalkContext} {fallbackLoc : SourceLocation} {segment : Segment}
  {symbol : ValueSymbol} {lsp : Nat} {bounds : DriverBitRange}

/-- The right side of a segment writes nothing. -/
theorem write_notMem_ofRhsSource {source : BitSliceSource} :
    .write symbol lsp bounds ∉ ofRhsSource context fallbackLoc segment source := by
  intro member
  rcases mem_ofRhsSource member with ⟨_, _, visited⟩ | ⟨_, read⟩ | ⟨_, _, _, constant⟩ | stop
  · exact DataFlowAnalysis.write_not_mem_ofExpr _ _ _ visited
  · cases read
  · cases constant
  · cases stop

end AssignmentStep

namespace DynamicWrite

open DataFlowAnalysis

variable {cuts : Option CutRegistry} (write : DynamicWrite cuts) {resolveAssignBits : Bool}
  {before : DataFlowAnalysis} {segment : Segment} {bit : Int}

/-- The number of bits that the slices of the left side have. -/
def sliceBits : Nat := sliceWidth cuts (.value write.width write.path write.selectors)

/-- The bit is one of those that the slices stand for. -/
def Sliced (bit : Int) : Prop :=
  ∃ place < write.sliceBits, bit = write.path.lspBounds.lower + (place : Nat)

/-- The slices stay in the longest static prefix. -/
theorem Sliced.within {write : DynamicWrite cuts} (sliced : write.Sliced bit) :
    bit ∈ write.path.lspBounds := by
  obtain ⟨place, below, rfl⟩ := sliced
  have fits := write.within
  have ascending := write.path.lspBounds.lower_le_upper
  simp only [sliceBits, sliceWidth] at below
  rw [DriverBitRange.mem_iff]
  split_ifs at below <;> omega

/-- The segments of the assignment. -/
def segments : List Segment := alignSegments write.expr.lhsList write.expr.rhsList

theorem segments_spec (aligned : Aligned resolveAssignBits write.expr) :
    Tiles Segment.concatLo Segment.concatHi 0 write.segments write.sliceBits ∧
      ∀ segment ∈ write.segments,
        (∀ source ∈ segment.lhsSources, source.srcLo ≤ segment.concatLo) ∧
        ∀ place, segment.Holds place → segment.lhsSources.map (segment.passes place) =
          [.leaf write.path write.selectors (write.path.lspBounds.lower + (place : Nat))] := by
  have sameWidth : BitSliceList.width (build write.left true cuts) =
      BitSliceList.width (build write.right true cuts) := by
    by_contra differs
    rw [← write.lhsList, ← write.rhsList] at differs
    exact aligned (Or.inr (Or.inr differs))
  rw [width_build, width_build] at sameWidth
  have leftDenotes := denotes_build cuts write.left
  have rightDenotes := denotes_build cuts write.right
  rw [← sameWidth] at rightDenotes
  obtain ⟨tiles, joined⟩ := alignSegments_spec leftDenotes rightDenotes
  rw [← write.lhsList, ← write.rhsList, write.target] at tiles joined
  refine ⟨tiles, fun segment member => ?_⟩
  obtain ⟨placed, stands⟩ := joined segment member
  exact ⟨fun source sourceMem => placed source (List.mem_append_left _ sourceMem),
    fun place holds => (stands place holds).1⟩

/-- A segment writes the bits of the prefix at its places. -/
theorem writes_segment (aligned : Aligned resolveAssignBits write.expr)
    (member : segment ∈ write.segments) :
    ∃ bounds, segment.lhsSources.flatMap (ofLhsSource segment) =
        [.write write.symbol write.lsp bounds] ∧
      ∀ bit, bit ∈ bounds ↔
        ∃ place, segment.Holds place ∧ bit = write.path.lspBounds.lower + (place : Nat) := by
  obtain ⟨tiles, spec⟩ := write.segments_spec aligned
  obtain ⟨placed, stands⟩ := spec segment member
  have proper := (tiles.bounds member).2.1
  have first := stands segment.concatLo ⟨le_rfl, proper⟩
  obtain ⟨source, sources, passes⟩ := List.map_eq_singleton_iff.mp first
  rw [sources] at placed stands
  have below := placed source (List.mem_singleton_self _)
  cases source with
  | lsp path selectors srcLo =>
      obtain ⟨rfl, rfl, _⟩ := BitSource.leaf.inj passes
      refine ⟨segmentBounds write.path srcLo segment, ?_, fun bit => ?_⟩
      · rw [sources, List.flatMap_singleton]
        simp only [ofLhsSource, write.rootSymbol, write.lspExpr]
        exact if_pos below
      · rw [mem_segmentBounds proper]
        refine exists_congr fun place => and_congr_right fun holds => ?_
        have same := List.singleton_inj.mp (stands place holds)
        rw [← (BitSource.leaf.inj same).2.2]
  | padding | opaqueExpr | portNode | constant => cases passes

/-- A write of a segment is that of the prefix at its places. -/
theorem writes_mem_segment (aligned : Aligned resolveAssignBits write.expr)
    (member : segment ∈ write.segments) {symbol : ValueSymbol} {lsp : Nat}
    {bounds : DriverBitRange}
    (writes : .write symbol lsp bounds ∈ ofSegment before.walkContext before.prohibitLValue
      write.expr (before.state.node, before.state.condition) segment) :
    before.prohibitLValue = false ∧ symbol = write.symbol ∧ ∀ bit, bit ∈ bounds ↔
      ∃ place, segment.Holds place ∧ bit = write.path.lspBounds.lower + (place : Nat) := by
  obtain ⟨own, written, bits⟩ := write.writes_segment aligned member
  rcases mem_ofSegment.mp writes with head | ⟨allowed, left⟩ | ⟨_, source, _, inner⟩
  · cases head
  · have here := List.mem_flatMap.mpr left
    rw [written] at here
    cases List.mem_singleton.mp here
    exact ⟨allowed, rfl, bits⟩
  · exact absurd inner write_notMem_ofRhsSource

/-- The assignment writes exactly the bits of its slices. -/
theorem written_iff (aligned : Aligned resolveAssignBits write.expr) :
    Written (assignmentSteps resolveAssignBits before write.expr) write.symbol bit ↔
      before.prohibitLValue = false ∧ write.Sliced bit := by
  obtain ⟨tiles, _⟩ := write.segments_spec aligned
  rw [assignmentSteps_aligned aligned]
  constructor
  · rintro ⟨symbol, lsp, bounds, member, _, inside⟩
    obtain ⟨segment, segmentMem, writes⟩ := List.mem_flatMap.mp member
    obtain ⟨allowed, _, bits⟩ := write.writes_mem_segment aligned segmentMem writes
    obtain ⟨place, holds, same⟩ := (bits bit).mp inside
    exact ⟨allowed, place, lt_of_lt_of_le holds.2 (tiles.bounds segmentMem).2.2, same⟩
  · rintro ⟨allowed, place, below, rfl⟩
    obtain ⟨segment, segmentMem, _, holds⟩ := tiles.exists_find (Nat.zero_le place) below
    obtain ⟨bounds, written, bits⟩ := write.writes_segment aligned segmentMem
    refine ⟨write.symbol, write.lsp, bounds, List.mem_flatMap.mpr ⟨segment, segmentMem, ?_⟩, rfl,
      (bits _).mpr ⟨place, holds, rfl⟩⟩
    refine List.mem_cons_of_mem _ (List.mem_append_left _ ?_)
    rw [if_neg (by simp [allowed]), written]
    exact List.mem_singleton_self _

/-- No two writes of the assignment share a bit. -/
theorem writes_apart (aligned : Aligned resolveAssignBits write.expr) :
    (assignmentSteps resolveAssignBits before write.expr).Pairwise fun first second =>
      ∀ symbol bit, Written [second] symbol bit → ¬ Written [first] symbol bit := by
  obtain ⟨tiles, _⟩ := write.segments_spec aligned
  rw [assignmentSteps_aligned aligned, List.pairwise_flatMap]
  have silent {move : AssignmentStep} {symbol : ValueSymbol} {bit : Int}
      (other : ∀ symbol lsp bounds, .write symbol lsp bounds ≠ move) :
      ¬ Written [move] symbol bit := by
    rintro ⟨written, lsp, bounds, member, _⟩
    exact other written lsp bounds (List.mem_singleton.mp member)
  constructor
  · intro segment member
    obtain ⟨bounds, written, _⟩ := write.writes_segment aligned member
    have right {move : AssignmentStep} (inRight : move ∈ if write.expr.isLValueArg then []
        else segment.rhsSources.flatMap
          (ofRhsSource before.walkContext write.expr.location segment)) :
        ∀ symbol lsp bounds, .write symbol lsp bounds ≠ move := by
      rintro symbol lsp bounds rfl
      split at inRight
      · cases inRight
      · obtain ⟨source, _, inner⟩ := List.mem_flatMap.mp inRight
        exact write_notMem_ofRhsSource inner
    refine List.pairwise_cons.mpr ⟨fun move _ symbol bit _ => silent (by simp), ?_⟩
    refine List.pairwise_append.mpr ⟨?_, ?_, ?_⟩
    · rw [written]
      split
      · exact List.Pairwise.nil
      · exact List.pairwise_singleton _ _
    · exact List.pairwise_of_forall_mem_list fun first firstMem second _ symbol bit _ =>
        silent (right firstMem)
    · exact fun first _ second secondMem symbol bit writes => absurd writes
        (silent (right secondMem))
  · refine tiles.pairwise.imp_of_mem ?_
    rintro first second firstMem secondMem before_ front frontMem back backMem symbol bit
      ⟨backSymbol, _, _, backWrites, _, inBack⟩ ⟨frontSymbol, _, _, frontWrites, _, inFront⟩
    obtain rfl := List.mem_singleton.mp backWrites
    obtain rfl := List.mem_singleton.mp frontWrites
    obtain ⟨_, _, frontBits⟩ := write.writes_mem_segment aligned firstMem frontMem
    obtain ⟨_, _, backBits⟩ := write.writes_mem_segment aligned secondMem backMem
    obtain ⟨place, holds, same⟩ := (frontBits bit).mp inFront
    obtain ⟨other, otherHolds, otherSame⟩ := (backBits bit).mp inBack
    have inside := holds.2
    have above := otherHolds.1
    omega

/-- A bit of a write is in no earlier one. -/
theorem not_written_before (aligned : Aligned resolveAssignBits write.expr)
    {front back : List AssignmentStep} {symbol : ValueSymbol} {lsp : Nat}
    {bounds : DriverBitRange}
    (steps : assignmentSteps resolveAssignBits before write.expr =
      front ++ .write symbol lsp bounds :: back)
    (inside : bit ∈ bounds) : ¬ Written front symbol bit := by
  have apart := @writes_apart cuts write resolveAssignBits before aligned
  rw [steps, List.pairwise_append] at apart
  rintro ⟨written, own, range, member, same, inRange⟩
  exact apart.2.2 _ member _ List.mem_cons_self symbol bit
    ⟨symbol, lsp, bounds, List.mem_singleton_self _, rfl, inside⟩
    ⟨written, own, range, List.mem_singleton_self _, same, inRange⟩

end DynamicWrite

namespace DataFlowAnalysis

/-! ## Flow states -/

/-- A state between two statements whose definitions are well formed and have drivers. -/
structure FlowState (dfa : DataFlowAnalysis) : Prop extends dfa.Sound where
  tidy : dfa.tracked.Tidy
  driven : ∀ symbol bit, dfa.tracked.Defines symbol bit →
    (dfa.tracked.driversAt symbol bit).Nonempty
  isLValue : dfa.isLValue = false

theorem flowState_initial (task : Nat) (externalNode : Option NodeRef) :
    (initial task externalNode).FlowState where
  tracked := TrackerState.sound_empty
  created := (sound_initial task).created
  tidy := TrackerState.tidy_empty
  driven _ bit defines := absurd defines (IntervalMap.not_covers_nil bit)
  isLValue := rfl

/-- The node is an assignment that the analysis has yet to create. -/
def NewAssignment (before : DataFlowAnalysis) (node : NodeRef) : Prop :=
  node.kind = .assignment ∧ ¬ before.HasCreated node

variable {before dfa next : DataFlowAnalysis} {resolveAssignBits : Bool} {symbol : ValueSymbol}
  {bit : Int} {list : DriverList}

/-- The nodes of the definitions of a flow state exist. -/
theorem FlowState.created_of_names (flow : before.FlowState)
    (names : (before.tracked.driverMap symbol).Names list) {node : NodeRef}
    (member : some node ∈ list.nodes) : before.HasCreated node := by
  obtain ⟨entry, entryMem, listed⟩ := names
  have ordered := flow.tidy.ordered symbol
  refine flow.created symbol entry.first node ((DriverMap.mem_driversAt ordered).mpr
    ⟨entry, entryMem, ?_, list, listed, member⟩)
  exact ⟨le_rfl, ordered.proper entry entryMem⟩

/-- A list that an interval of a flow state names is not empty. -/
theorem FlowState.nonempty_of_names (flow : before.FlowState)
    (names : (before.tracked.driverMap symbol).Names list) : list.nodes.Nonempty := by
  obtain ⟨entry, entryMem, listed⟩ := names
  have ordered := flow.tidy.ordered symbol
  have covers : entry.Covers entry.first := ⟨le_rfl, ordered.proper entry entryMem⟩
  obtain ⟨driver, drives⟩ := flow.driven symbol entry.first ⟨entry, entryMem, covers⟩
  exact ⟨driver, (DriverMap.drives_of_covers ordered entryMem listed covers).mp
    ((DriverMap.mem_driversAt ordered).mp drives)⟩

theorem defines_of_mem_driversAt (tidy : dfa.tracked.Tidy) {driver : Option NodeRef}
    (drives : driver ∈ dfa.tracked.driversAt symbol bit) : dfa.tracked.Defines symbol bit := by
  obtain ⟨entry, entryMem, covers, _⟩ :=
    (DriverMap.mem_driversAt (tidy.ordered symbol)).mp drives
  exact ⟨entry, entryMem, covers⟩

/-! ## The lists after an assignment -/

/-- In an assignment, each list was named before it or holds one of its nodes alone. -/
structure Renewed (before dfa : DataFlowAnalysis) : Prop where
  tidy : dfa.tracked.Tidy
  names : ∀ symbol list, (dfa.tracked.driverMap symbol).Names list →
    (before.tracked.driverMap symbol).Names list ∨
      ∃ node, before.NewAssignment node ∧ list.nodes = {some node}
  current : ∃ node, dfa.state.node = some node ∧ before.NewAssignment node
  serial : before.serial ≤ dfa.serial
  task : dfa.task = before.task

theorem Renewed.keep (renewed : Renewed before dfa) (tracked : next.tracked = dfa.tracked)
    (current : ∃ node, next.state.node = some node ∧ before.NewAssignment node)
    (serial : dfa.serial ≤ next.serial) (task : next.task = dfa.task) :
    Renewed before next where
  tidy := tracked ▸ renewed.tidy
  names := tracked ▸ renewed.names
  current := current
  serial := renewed.serial.trans serial
  task := task.trans renewed.task

theorem Renewed.step (renewed : Renewed before dfa) (isBlocking : dfa.isBlocking = true)
    {move : AssignmentStep} (stepped : dfa.step move = some next) : Renewed before next := by
  cases move with
  | enter saved location =>
      cases stepped
      refine renewed.keep (enter_tracked dfa saved location)
        ⟨_, enter_node dfa saved location, rfl, fun created => ?_⟩ ?_
        (SameWalk.enter dfa saved location).task
      · exact absurd (created renewed.task) (not_lt.mpr renewed.serial)
      · rw [enter_serial]
        exact Nat.le_succ _
  | write symbol lsp bounds =>
      rw [DataFlowAnalysis.step, handleLvalue_eq isBlocking, Option.map_eq_some_iff] at stepped
      obtain ⟨tracked, stepped, rfl⟩ := stepped
      obtain ⟨node, current, fresh⟩ := renewed.current
      refine ⟨(renewed.tidy.step stepped).1, fun other list names => ?_,
        ⟨node, current, fresh⟩, renewed.serial, renewed.task⟩
      rcases TrackerState.step_renews renewed.tidy.fits rfl stepped other list names with old | new
      · exact renewed.names other list old
      · refine Or.inr ⟨node, fresh, new.trans ?_⟩
        rw [writeCall, current]
        rfl
  | read access | readLeft access =>
      obtain ⟨calls, rfl⟩ := read_appends stepped
      exact renewed.keep rfl renewed.current le_rfl rfl
  | constant value srcLo location segment fallbackLoc =>
      simp only [DataFlowAnalysis.step, driveRhsSource] at stepped
      split at stepped <;> cases stepped
      · exact renewed.keep rfl renewed.current le_rfl rfl
      · exact renewed.keep rfl renewed.current (Nat.le_succ _) rfl
  | stop => cases stepped

theorem Renewed.run {moves : List AssignmentStep} (renewed : Renewed before dfa)
    (isBlocking : dfa.isBlocking = true) (ran : moves.foldlM DataFlowAnalysis.step dfa = some next) :
    Renewed before next :=
  (holds_of_foldlM (fun dfa => Renewed before dfa ∧ dfa.isBlocking = true) ⟨renewed, isBlocking⟩
    (fun _ _ _ _ here stepped => ⟨here.1.step here.2 stepped,
      (SameWalk.step stepped).isBlocking.trans here.2⟩) ran).1

theorem assignmentStart_aligned {expr : AssignmentExpression}
    (aligned : Aligned resolveAssignBits expr) :
    assignmentStart resolveAssignBits before expr = { before with isBlocking := expr.isBlocking } :=
  if_neg fun forced => aligned forced.1

/-- A blocking assignment changes no list that was named before it. -/
theorem names_assignment (tidy : before.tracked.Tidy) {expr : AssignmentExpression}
    (aligned : Aligned resolveAssignBits expr) (isBlocking : expr.isBlocking = true)
    (ran : (assignmentSteps resolveAssignBits before expr).foldlM step
      (assignmentStart resolveAssignBits before expr) = some next) :
    ∀ symbol list, (next.tracked.driverMap symbol).Names list →
      (before.tracked.driverMap symbol).Names list ∨
        ∃ node, before.NewAssignment node ∧ list.nodes = {some node} := by
  rw [assignmentStart_aligned aligned] at ran
  cases steps : assignmentSteps resolveAssignBits before expr with
  | nil =>
      rw [steps] at ran
      cases ran
      exact fun _ _ => Or.inl
  | cons first rest =>
      obtain ⟨saved, location, rfl⟩ := assignmentSteps_head resolveAssignBits before expr steps
      rw [steps, List.foldlM_cons, Option.bind_eq_bind, Option.bind_eq_some_iff] at ran
      obtain ⟨entered, stepped, ran⟩ := ran
      cases stepped
      have tracked := enter_tracked { before with isBlocking := expr.isBlocking } saved location
      have walk := SameWalk.enter { before with isBlocking := expr.isBlocking } saved location
      refine (Renewed.run ⟨?_, ?_, ⟨_, enter_node _ saved location, rfl, by simp [HasCreated]⟩,
        ?_, walk.task⟩ (walk.isBlocking.trans isBlocking) ran).names
      · rw [tracked]
        exact tidy
      · rw [tracked]
        exact fun _ _ => Or.inl
      · rw [enter_serial]
        exact Nat.le_succ _

/-- A new node does not join the drivers that a bit had. -/
theorem FlowState.undefined_of_new (flow : before.FlowState)
    (names : ∀ symbol list, (next.tracked.driverMap symbol).Names list →
      (before.tracked.driverMap symbol).Names list ∨
        ∃ node, before.NewAssignment node ∧ list.nodes = {some node})
    {node : NodeRef} (fresh : before.NewAssignment node)
    (drives : some node ∈ next.tracked.driversAt symbol bit)
    (kept : before.tracked.driversAt symbol bit ⊆ next.tracked.driversAt symbol bit) :
    ¬ before.tracked.Defines symbol bit := by
  intro defines
  obtain ⟨list, named, same⟩ := DriverMap.names_of_mem_driversAt drives
  have listed : some node ∈ list.nodes := same ▸ drives
  rcases names symbol list named with old | ⟨own, ownFresh, alone⟩
  · exact fresh.2 (flow.created_of_names old listed)
  · obtain ⟨driver, driven⟩ := flow.driven symbol bit defines
    have inList : driver ∈ list.nodes := same ▸ kept driven
    rw [alone, Finset.mem_singleton] at inList
    exact ownFresh.2 (flow.created symbol bit own (inList ▸ driven))

/-- A bit that the assignment has written is driven by one of its nodes. -/
theorem FlowState.exists_new_of_written (flow : before.FlowState) (tidy : next.tracked.Tidy)
    {moves : List AssignmentStep} (midway : Midway before moves next)
    (names : ∀ symbol list, (next.tracked.driverMap symbol).Names list →
      (before.tracked.driverMap symbol).Names list ∨
        ∃ node, before.NewAssignment node ∧ list.nodes = {some node})
    (written : Written moves symbol bit) (defines : next.tracked.Defines symbol bit) :
    ∃ node, before.NewAssignment node ∧ some node ∈ next.tracked.driversAt symbol bit := by
  obtain ⟨entry, entryMem, covers⟩ := defines
  have ordered := tidy.ordered symbol
  obtain ⟨list, listed⟩ := (midway.tracked.wellFormed symbol).live entry entryMem
  have drives {driver : Option NodeRef} :=
    (@DriverMap.mem_driversAt _ ordered bit driver).trans
      (DriverMap.drives_of_covers ordered entryMem listed covers)
  rcases names symbol list ⟨entry, entryMem, listed⟩ with old | ⟨own, fresh, alone⟩
  · obtain ⟨driver, member⟩ := flow.nonempty_of_names old
    obtain ⟨own, rfl, fresh⟩ := midway.written symbol bit written driver (drives.mpr member)
    exact absurd (flow.created_of_names old member) fresh
  · exact ⟨own, fresh, drives.mpr (by rw [alone, Finset.mem_singleton])⟩

/-! ## The first definition -/

variable {cuts : Option CutRegistry} {write : DynamicWrite cuts}

/--
The walk ends, and each bit of the longest static prefix has a node of the
assignment and all drivers that it had.
-/
def WeakUpdate (resolveAssignBits : Bool) (before : DataFlowAnalysis)
    (write : DynamicWrite cuts) : Prop :=
  ∃ next, before.handleAssignment resolveAssignBits write.expr = some next ∧
    ∀ bit ∈ write.path.lspBounds,
      (∃ node, before.NewAssignment node ∧ some node ∈ next.tracked.driversAt write.symbol bit) ∧
        before.tracked.driversAt write.symbol bit ⊆ next.tracked.driversAt write.symbol bit

/--
L-values are tracked, no segment takes a value without a root, no bit of the
prefix has a definition, and the slices have all its bits.
-/
structure FirstDefinition (before : DataFlowAnalysis) (write : DynamicWrite cuts) : Prop where
  allowed : before.prohibitLValue = false
  rooted : ¬ before.DrivesRootless write.toDecomposedAssignment
  undefined : ∀ bit ∈ write.path.lspBounds, ¬ before.tracked.Defines write.symbol bit
  sliced : ∀ bit ∈ write.path.lspBounds, write.Sliced bit

/-- A write of the assignment finds no definition. -/
theorem FirstDefinition.separated (first : before.FirstDefinition write)
    (aligned : Aligned resolveAssignBits write.expr) {front back : List AssignmentStep} {lsp : Nat}
    {bounds : DriverBitRange}
    (steps : assignmentSteps resolveAssignBits before write.expr =
      front ++ .write symbol lsp bounds :: back)
    (defining : Defining { before with isBlocking := write.expr.isBlocking } dfa (Written front)) :
    (dfa.definitions symbol).Separated bounds := by
  have member : .write symbol lsp bounds ∈
      assignmentSteps resolveAssignBits before write.expr := by
    rw [steps]
    exact List.mem_append_right _ List.mem_cons_self
  obtain rfl : symbol = write.symbol := by
    rw [assignmentSteps_aligned aligned] at member
    obtain ⟨segment, segmentMem, writes⟩ := List.mem_flatMap.mp member
    exact (write.writes_mem_segment aligned segmentMem writes).2.1
  intro entry entryMem inside
  have proper := (defining.tidy.ordered write.symbol).proper entry entryMem
  have inBounds : entry.first ∈ bounds := ⟨inside.1, proper.trans inside.2⟩
  have defines : dfa.tracked.Defines write.symbol entry.first :=
    ⟨entry, entryMem, le_rfl, proper⟩
  rcases (defining.defines write.symbol entry.first).mp defines with old | written
  · have sliced := ((write.written_iff aligned).mp
      ⟨write.symbol, lsp, bounds, member, rfl, inBounds⟩).2
    exact absurd old (first.undefined _ sliced.within)
  · exact absurd written (write.not_written_before aligned steps inBounds)

/-- A first definition is made without a failed assertion. -/
theorem FirstDefinition.exists_run (flow : before.FlowState) (first : before.FirstDefinition write)
    (aligned : Aligned resolveAssignBits write.expr) :
    ∃ next, GuardedRun step BlockingWrite (assignmentStart resolveAssignBits before write.expr)
      (assignmentSteps resolveAssignBits before write.expr) next := by
  refine GuardedRun.of_progress fun front move back dfa steps run => ?_
  have reached := run.folded
  rw [assignmentStart_aligned aligned] at reached
  have isBlocking : dfa.isBlocking = true :=
    (SameWalk.run reached).isBlocking.trans write.isBlocking
  have midway (other : ∀ saved location, move ≠ .enter saved location) :
      Midway before front dfa := by
    refine (midway_of_guardedRun flow.toSound run steps).resolve_left ?_
    rintro rfl
    obtain ⟨saved, location, same⟩ := assignmentSteps_head resolveAssignBits before _ steps
    exact other saved location same
  cases move with
  | enter saved location => exact ⟨trivial, _, rfl⟩
  | write symbol lsp bounds =>
      have separated := first.separated aligned steps
        (@run_defining { before with isBlocking := write.expr.isBlocking } dfa front flow.tidy
          write.isBlocking reached)
      obtain ⟨result, stepped, _⟩ := (midway (by simp)).tracked.step_adds
        (show dfa.tracked.Writable (dfa.writeCall symbol lsp bounds) from separated)
      refine ⟨⟨isBlocking, separated⟩, ?_⟩
      rw [DataFlowAnalysis.step, handleLvalue_eq isBlocking, stepped]
      exact ⟨_, rfl⟩
  | read access | readLeft access =>
      obtain ⟨calls, handled, _⟩ := (midway (by simp)).read_spec access
      exact ⟨trivial, _, handled⟩
  | constant value srcLo location segment fallbackLoc =>
      refine ⟨trivial, ?_⟩
      rw [DataFlowAnalysis.step, driveRhsSource]
      split <;> exact ⟨_, rfl⟩
  | stop =>
      have member : .stop ∈ assignmentSteps resolveAssignBits before write.expr := by
        rw [steps]
        exact List.mem_append_right _ List.mem_cons_self
      exact absurd ((stop_mem_iff write.toDecomposedAssignment).mp member).2 first.rooted

/--
From every flow state, an assignment to a dynamic select is a weak update of
its longest static prefix if and only if it is the first definition of all bits
of that prefix.
-/
theorem weakUpdate_iff (resolveAssignBits : Bool) {before : DataFlowAnalysis}
    (flow : before.FlowState) {cuts : Option CutRegistry} (write : DynamicWrite cuts)
    (aligned : Aligned resolveAssignBits write.expr) :
    WeakUpdate resolveAssignBits before write ↔ before.FirstDefinition write := by
  have start := @assignmentStart_aligned before resolveAssignBits write.expr aligned
  rw [WeakUpdate, handleAssignment_eq resolveAssignBits before write.expr flow.isLValue]
  constructor
  · rintro ⟨next, ran, weak⟩
    have names := names_assignment flow.tidy aligned write.isBlocking ran
    have noStop := stop_notMem_of_run ran
    rw [start] at ran
    have defining := @run_defining { before with isBlocking := write.expr.isBlocking } next _
      flow.tidy write.isBlocking ran
    have undefined : ∀ bit ∈ write.path.lspBounds,
        ¬ before.tracked.Defines write.symbol bit := by
      intro bit inside
      obtain ⟨⟨node, fresh, drives⟩, kept⟩ := weak bit inside
      exact flow.undefined_of_new names fresh drives kept
    have written : ∀ bit ∈ write.path.lspBounds,
        before.prohibitLValue = false ∧ write.Sliced bit := by
      intro bit inside
      obtain ⟨⟨node, _, drives⟩, _⟩ := weak bit inside
      have defines := (defining.defines write.symbol bit).mp
        (defines_of_mem_driversAt defining.tidy drives)
      exact (write.written_iff aligned).mp (defines.resolve_left (undefined bit inside))
    have low : write.path.lspBounds.lower ∈ write.path.lspBounds :=
      ⟨le_rfl, write.path.lspBounds.lower_le_upper⟩
    exact ⟨(written _ low).1, fun rootless =>
      noStop ((stop_mem_iff write.toDecomposedAssignment).mpr ⟨aligned, rootless⟩), undefined,
      fun bit inside => (written bit inside).2⟩
  · intro first
    obtain ⟨next, run⟩ := first.exists_run flow aligned
    have ran := run.folded
    have names := names_assignment flow.tidy aligned write.isBlocking ran
    have midway := midway_of_guardedRun flow.toSound run (List.append_nil _).symm
    rw [start] at ran
    have defining := @run_defining { before with isBlocking := write.expr.isBlocking } next _
      flow.tidy write.isBlocking ran
    refine ⟨next, run.folded, fun bit inside => ?_⟩
    have written : Written (assignmentSteps resolveAssignBits before write.expr) write.symbol
        bit := (write.written_iff aligned).mpr ⟨first.allowed, first.sliced bit inside⟩
    replace midway := midway.resolve_left fun empty => by
      rw [empty] at written
      obtain ⟨_, _, _, member, _⟩ := written
      cases member
    constructor
    · exact flow.exists_new_of_written defining.tidy midway names written
        ((defining.defines write.symbol bit).mpr (Or.inr written))
    · intro driver driven
      exact absurd (defines_of_mem_driversAt flow.tidy driven) (first.undefined bit inside)

/-- `x[i] = b;` for `x` with eight bits. -/
def byteWrite : DynamicWrite none where
  expr :=
    { left := bitSelect.visited
      right := (wholeValue 3 1).visited
      lhsList := build bitSelect true none
      rhsList := build (wholeValue 3 1) true none }
  left := bitSelect
  right := wholeValue 3 1
  integral := rfl
  lhsList := rfl
  rhsList := rfl
  isBlocking := rfl
  width := 1
  path := bytePath
  selectors := [byteSelector]
  target := rfl
  dynamic := ⟨byteSelector, List.mem_singleton_self _, rfl⟩
  symbol := { id := 1, name := "x", hierarchicalPath := "m.x" }
  rootSymbol := rfl
  lsp := 1
  lspExpr := rfl
  within := by decide

/-- `x` has been assigned by the node 0. -/
def byteDefined : DataFlowAnalysis where
  serial := 1
  valueTracker := ⟨[byteWrite.symbol]⟩
  state := { valueDrivers := [DriverMap.single 0 7 [{ node := some ⟨0, .assignment, 0⟩ }]] }

theorem byteDefined_flowState : byteDefined.FlowState where
  tracked := TrackerState.sound_single (by decide)
  created symbol bit source member := by
    obtain ⟨_, _, driven⟩ := (TrackerState.mem_driversAt_single (by decide)).mp
      (show some source ∈ (TrackerState.single byteWrite.symbol 0 7
        [{ node := some ⟨0, .assignment, 0⟩ }]).driversAt symbol bit from member)
    obtain rfl : source = ⟨0, .assignment, 0⟩ := by simpa [DriverList.nodes] using driven
    decide
  tidy := {
    fits := Nat.le_refl _
    distinct := List.nodup_singleton _
    ordered := fun symbol => ((TrackerState.sound_single (by decide)).wellFormed symbol).ordered }
  driven symbol bit defines := by
    have covers : ((TrackerState.single byteWrite.symbol 0 7
        [{ node := some ⟨0, .assignment, 0⟩ }]).driverMap symbol).driverIntervals.Covers bit :=
      defines
    rw [TrackerState.driverMap_single] at covers
    split at covers
    · next same =>
        obtain ⟨entry, member, inside⟩ := covers
        obtain rfl := List.mem_singleton.mp member
        exact ⟨some ⟨0, .assignment, 0⟩, (TrackerState.mem_driversAt_single (by decide)).mpr
          ⟨same, inside, by simp [DriverList.nodes]⟩⟩
    · exact absurd covers (IntervalMap.not_covers_nil bit)
  isLValue := rfl

theorem weakUpdate_iff_byteWrite :
    WeakUpdate true byteDefined byteWrite ↔ byteDefined.FirstDefinition byteWrite :=
  weakUpdate_iff true byteDefined_flowState byteWrite (by unfold Aligned; decide)

/-- The assignment to `x[i]` drives `x[0]` alone. -/
theorem byteWrite_not_weakUpdate :
    (initial 0 none).FlowState ∧ Aligned true byteWrite.expr ∧
      ¬ WeakUpdate true (initial 0 none) byteWrite := by
  refine ⟨flowState_initial 0 none, by unfold Aligned; decide, ?_⟩
  rintro ⟨next, handled, weak⟩
  obtain ⟨⟨node, _, drives⟩, _⟩ := weak 7 (by decide)
  have undriven : ((initial 0 none).handleAssignment true byteWrite.expr).map
      (fun next => next.tracked.driversAt byteWrite.symbol 7) = some ∅ := by decide +kernel
  rw [handled, Option.map_some, Option.some.injEq] at undriven
  rw [undriven] at drives
  cases drives

end DataFlowAnalysis

end SlangNetlist
