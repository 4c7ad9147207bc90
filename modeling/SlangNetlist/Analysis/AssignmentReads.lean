import SlangNetlist.Analysis.AssignmentSteps
import SlangNetlist.Tracking.DriverRuns

/-!
# What the right side of a blocking assignment reads

Each node of an assignment writes its left side before it reads its right side.
A read is resolved against the definitions before the assignment as long as it
names no bit that the assignment has written by then.
-/

namespace SlangNetlist

open Library

namespace DataFlowAnalysis

/-- The tracker of the analysis with the definitions of the current state. -/
def tracked (dfa : DataFlowAnalysis) : TrackerState :=
  ⟨dfa.valueTracker, dfa.state.valueDrivers⟩

/-- The node is not one that the analysis has yet to create. -/
def HasCreated (dfa : DataFlowAnalysis) (source : NodeRef) : Prop :=
  source.task = dfa.task → source.serial < dfa.serial

instance (dfa : DataFlowAnalysis) (source : NodeRef) : Decidable (dfa.HasCreated source) :=
  inferInstanceAs (Decidable (_ → _))

/-- The definitions are well formed and name nodes that exist. -/
structure Sound (dfa : DataFlowAnalysis) : Prop where
  tracked : dfa.tracked.Sound
  created : ∀ symbol bit source,
    some source ∈ dfa.tracked.driversAt symbol bit → dfa.HasCreated source

theorem sound_initial (task : Nat) : Sound { task := task } where
  tracked := TrackerState.sound_empty
  created symbol bit source member := by
    simp [DataFlowAnalysis.tracked, TrackerState.driversAt, TrackerState.driverMap,
      ValueTracker.driverMap, ValueTracker.getSlot, DriverMap.driversAt, DriverMap.listAt,
      IntervalMap.nil] at member

/-- The write changes the bits of its bounds only: it reaches across no shared list. -/
def SeparatedWrite (dfa : DataFlowAnalysis) : AssignmentStep → Prop
  | .write symbol _ bounds => (dfa.definitions symbol).Separated bounds
  | _ => True

/-- A write of the list has the bit of the symbol in its bounds. -/
def Written (moves : List AssignmentStep) (symbol : ValueSymbol) (bit : Int) : Prop :=
  ∃ written lsp bounds, .write written lsp bounds ∈ moves ∧ written.id = symbol.id ∧ bit ∈ bounds

instance (dfa : DataFlowAnalysis) (move : AssignmentStep) : Decidable (dfa.SeparatedWrite move) :=
  match move with
  | .write symbol _ bounds =>
      inferInstanceAs (Decidable ((dfa.definitions symbol).Separated bounds))
  | .enter _ _ | .read _ | .readLeft _ | .constant _ _ _ _ _ | .stop => isTrue trivial

/-- A separated write of an analysis that handles a blocking assignment. -/
def BlockingWrite (dfa : DataFlowAnalysis) : AssignmentStep → Prop
  | .write symbol _ bounds => dfa.isBlocking = true ∧ (dfa.definitions symbol).Separated bounds
  | _ => True

section Steps

variable {before dfa next : DataFlowAnalysis} {front : List AssignmentStep}

/-- The state in an assignment, after its first node and the given steps. -/
structure Midway (before : DataFlowAnalysis) (front : List AssignmentStep)
    (dfa : DataFlowAnalysis) : Prop where
  tracked : dfa.tracked.Sound
  current : ∃ node, dfa.state.node = some node ∧ ¬ before.HasCreated node
  written : ∀ symbol bit, Written front symbol bit →
    ∀ driver ∈ dfa.tracked.driversAt symbol bit,
      ∃ own, driver = some own ∧ ¬ before.HasCreated own
  unwritten : ∀ symbol bit, ¬ Written front symbol bit →
    dfa.tracked.driversAt symbol bit = before.tracked.driversAt symbol bit
  serial : before.serial ≤ dfa.serial
  task : dfa.task = before.task

theorem written_append {move : AssignmentStep} {symbol : ValueSymbol} {bit : Int} :
    Written (front ++ [move]) symbol bit ↔
      Written front symbol bit ∨
        ∃ written lsp bounds, move = .write written lsp bounds ∧ written.id = symbol.id ∧
          bit ∈ bounds := by
  simp only [Written, List.mem_append, List.mem_singleton]
  constructor
  · rintro ⟨written, lsp, bounds, member | same, rest⟩
    · exact .inl ⟨written, lsp, bounds, member, rest⟩
    · exact .inr ⟨written, lsp, bounds, same.symm, rest⟩
  · rintro (⟨written, lsp, bounds, member, rest⟩ | ⟨written, lsp, bounds, same, rest⟩)
    · exact ⟨written, lsp, bounds, .inl member, rest⟩
    · exact ⟨written, lsp, bounds, .inr same.symm, rest⟩

/-- Steps that are not writes leave the written bits alone. -/
theorem written_append_of_ne {move : AssignmentStep} {symbol : ValueSymbol} {bit : Int}
    (other : ∀ written lsp bounds, move ≠ .write written lsp bounds) :
    Written (front ++ [move]) symbol bit ↔ Written front symbol bit := by
  rw [written_append]
  refine or_iff_left ?_
  rintro ⟨written, lsp, bounds, same, _⟩
  exact other written lsp bounds same

theorem enter_tracked (dfa : DataFlowAnalysis)
    (saved : Option (Option NodeRef × Option NodeRef)) (location : SourceLocation) :
    (dfa.enter saved location).tracked = dfa.tracked := by
  cases saved <;> simp only [enter, updateNode] <;> split <;> rfl

theorem enter_node (dfa : DataFlowAnalysis)
    (saved : Option (Option NodeRef × Option NodeRef)) (location : SourceLocation) :
    (dfa.enter saved location).state.node = some ⟨dfa.task, .assignment, dfa.serial⟩ := by
  cases saved <;> simp only [enter, updateNode] <;> split <;> rfl

/-- Only a new node changes the current one. -/
theorem step_node {move : AssignmentStep} (stepped : dfa.step move = some next) :
    (∃ saved location, move = .enter saved location) ∨ next.state.node = dfa.state.node := by
  cases move with
  | enter saved location => exact Or.inl ⟨saved, location, rfl⟩
  | write symbol lsp bounds =>
      simp only [step, handleLvalue] at stepped
      split at stepped
      · cases stepped
        exact Or.inr rfl
      · simp only [addDrivers, Option.bind_eq_bind, Option.bind_eq_some_iff,
          Option.some.injEq] at stepped
        obtain ⟨_, _, rfl⟩ := stepped
        exact Or.inr rfl
  | read access | readLeft access =>
      obtain ⟨calls, rfl⟩ := read_appends stepped
      exact Or.inr rfl
  | constant value srcLo location segment fallbackLoc =>
      simp only [step, driveRhsSource] at stepped
      split at stepped <;> cases stepped <;> exact Or.inr rfl
  | stop => cases stepped

theorem enter_serial (dfa : DataFlowAnalysis)
    (saved : Option (Option NodeRef × Option NodeRef)) (location : SourceLocation) :
    (dfa.enter saved location).serial = dfa.serial + 1 := by
  cases saved <;> simp only [enter, updateNode] <;> split <;> rfl

/-- The first node of an assignment. -/
theorem midway_enter (sound : before.Sound) (isBlocking : Bool)
    (saved : Option (Option NodeRef × Option NodeRef)) (location : SourceLocation) :
    Midway before [.enter saved location]
      (({ before with isBlocking := isBlocking } : DataFlowAnalysis).enter saved location) where
  tracked := (enter_tracked _ saved location).symm ▸ sound.tracked
  current := ⟨_, enter_node _ saved location, by simp [HasCreated]⟩
  written symbol bit written := by
    obtain ⟨_, _, _, member, _⟩ := written
    cases List.mem_singleton.mp member
  unwritten symbol bit _ := by
    rw [enter_tracked]
    rfl
  serial := by
    rw [enter_serial]
    exact Nat.le_succ _
  task := (SameWalk.enter _ saved location).task

/-- A further step that only makes calls or a node. -/
theorem Midway.keep {move : AssignmentStep} (midway : Midway before front dfa)
    (other : ∀ written lsp bounds, move ≠ .write written lsp bounds)
    (tracked : next.tracked = dfa.tracked)
    (current : ∃ node, next.state.node = some node ∧ ¬ before.HasCreated node)
    (serial : dfa.serial ≤ next.serial) (task : next.task = dfa.task) :
    Midway before (front ++ [move]) next where
  tracked := tracked ▸ midway.tracked
  current := current
  written symbol bit written := by
    rw [tracked]
    exact midway.written symbol bit ((written_append_of_ne other).mp written)
  unwritten symbol bit unwritten := by
    rw [tracked]
    exact midway.unwritten symbol bit (mt (written_append_of_ne other).mpr unwritten)
  serial := midway.serial.trans serial
  task := task.trans midway.task

/-- The call of the tracker for a blocking write. -/
def writeCall (dfa : DataFlowAnalysis) (symbol : ValueSymbol) (lsp : Nat)
    (bounds : DriverBitRange) : DriverCall where
  symbol := symbol
  bounds := bounds
  driverList := [{ node := dfa.state.node, lsp := some lsp }]

/-- A blocking write is a step of the tracker with the current node. -/
theorem handleLvalue_eq (isBlocking : dfa.isBlocking = true) (symbol : ValueSymbol) (lsp : Nat)
    (bounds : DriverBitRange) :
    dfa.handleLvalue symbol lsp bounds =
      (dfa.tracked.step (dfa.writeCall symbol lsp bounds)).map fun tracked =>
          { dfa with
            valueTracker := tracked.tracker
            state := { dfa.state with valueDrivers := tracked.drivers } } := by
  simp only [handleLvalue, isBlocking, not_true, if_false, addDrivers, TrackerState.step,
    tracked, Option.bind_eq_bind, Option.map_bind]
  rfl

/-- A write of separated bounds replaces the drivers of their bits by the current node. -/
theorem Midway.write (midway : Midway before front dfa) (isBlocking : dfa.isBlocking = true)
    {symbol : ValueSymbol} {lsp : Nat} {bounds : DriverBitRange}
    (separated : (dfa.definitions symbol).Separated bounds)
    (stepped : dfa.handleLvalue symbol lsp bounds = some next) :
    Midway before (front ++ [.write symbol lsp bounds]) next := by
  obtain ⟨node, current, own⟩ := midway.current
  have writable : dfa.tracked.Writable (dfa.writeCall symbol lsp bounds) := separated
  obtain ⟨result, ran, sound, adds⟩ := midway.tracked.step_adds writable
  rw [handleLvalue_eq isBlocking, ran] at stepped
  cases stepped
  have nodes : (dfa.writeCall symbol lsp bounds).driverList.nodes = {some node} := by
    rw [writeCall, current]
    rfl
  have drivers : ∀ other bit, result.driversAt other bit =
      if other.id = symbol.id ∧ bit ∈ bounds then {some node}
      else dfa.tracked.driversAt other bit := by
    intro other bit
    rw [adds other bit, nodes]
    rfl
  refine ⟨sound, ⟨node, current, own⟩, ?_, ?_, midway.serial, midway.task⟩
  · intro other bit written driver member
    change driver ∈ result.driversAt other bit at member
    rw [drivers] at member
    split at member
    · exact ⟨node, Finset.mem_singleton.mp member, own⟩
    · next outside =>
        refine midway.written other bit ?_ driver member
        refine (written_append.mp written).resolve_right ?_
        rintro ⟨_, _, _, same, sameId, bitMem⟩
        cases same
        exact outside ⟨sameId.symm, bitMem⟩
  · intro other bit unwritten
    change result.driversAt other bit = _
    rw [drivers, if_neg]
    · exact midway.unwritten other bit fun written =>
        unwritten (written_append.mpr (.inl written))
    · rintro ⟨sameId, bitMem⟩
      exact unwritten (written_append.mpr (.inr ⟨symbol, lsp, bounds, rfl, sameId.symm, bitMem⟩))

/-- Every step of an assignment. -/
theorem Midway.step {move : AssignmentStep} (midway : Midway before front dfa)
    (allowed : dfa.BlockingWrite move) (stepped : dfa.step move = some next) :
    Midway before (front ++ [move]) next := by
  have walk := SameWalk.step stepped
  cases move with
  | enter saved location =>
      cases stepped
      refine midway.keep (by simp) (enter_tracked dfa saved location) ?_ ?_
        walk.task
      · refine ⟨_, enter_node dfa saved location, fun created => ?_⟩
        have := created midway.task
        exact absurd midway.serial (Nat.not_le.mpr this)
      · rw [enter_serial]
        exact Nat.le_succ _
  | write symbol lsp bounds => exact midway.write allowed.1 allowed.2 stepped
  | read access | readLeft access =>
      obtain ⟨calls, rfl⟩ := read_appends stepped
      exact midway.keep (by simp) rfl midway.current le_rfl rfl
  | constant value srcLo location segment fallbackLoc =>
      simp only [DataFlowAnalysis.step, driveRhsSource] at stepped
      split at stepped
      · cases stepped
        exact midway.keep (by simp) rfl midway.current le_rfl rfl
      · next node found =>
          cases stepped
          refine midway.keep (by simp) rfl midway.current ?_ rfl
          exact Nat.le_succ _
  | stop => cases stepped

end Steps

/-! ## The reads of the right side -/

/-- The read makes an edge from a driver that its definition of the bit names. -/
def Gets (dfa : DataFlowAnalysis) (calls : List BuilderCall) (access : Access) (bit : Int)
    (source : NodeRef) : Prop :=
  some source ∈ dfa.tracked.driversAt access.symbol bit ∧
    ∃ dependency, .addDependency dependency ∈ calls ∧ dependency.source = source

/--
A read is resolved against the definitions before the assignment: it makes no
edge from a node of the assignment, and each bit gets the drivers it had.
-/
def ReadsAsBefore (before dfa : DataFlowAnalysis) (access : Access) : Prop :=
  ∃ calls, dfa.read access = some (dfa.appendCalls calls) ∧
    (∀ dependency, .addDependency dependency ∈ calls → before.HasCreated dependency.source) ∧
    ∀ bit ∈ access.bounds, ∀ source,
      dfa.Gets calls access bit source ↔
        some source ∈ before.tracked.driversAt access.symbol bit

/-- Every read of the right side is resolved against the definitions before the assignment. -/
def AssignmentReadsBefore (resolveAssignBits : Bool) (before : DataFlowAnalysis)
    (expr : AssignmentExpression) : Prop :=
  ∀ front access back dfa,
    assignmentSteps resolveAssignBits before expr = front ++ .read access :: back →
    front.foldlM step (assignmentStart resolveAssignBits before expr) = some dfa →
    before.ReadsAsBefore dfa access

/--
No bit of the read is written before, unless the bit had no driver and its new
definition gives no edge; and every driver of another bit of the read is the
driver of a definition that covers the read or lies inside it.
-/
def ReadKept (before dfa : DataFlowAnalysis) (front : List AssignmentStep) (access : Access) :
    Prop :=
  ∀ bit ∈ access.bounds,
    (Written front access.symbol bit →
      (∀ source, some source ∉ before.tracked.driversAt access.symbol bit) ∧
        ∀ source, some source ∈ dfa.tracked.driversAt access.symbol bit →
          ¬ (dfa.definitions access.symbol).Linked access.bounds source) ∧
    (¬ Written front access.symbol bit →
      ∀ source, some source ∈ before.tracked.driversAt access.symbol bit →
        (dfa.definitions access.symbol).Linked access.bounds source)

/-- The condition at every read of the right side. -/
def AssignmentReadsKept (resolveAssignBits : Bool) (before : DataFlowAnalysis)
    (expr : AssignmentExpression) : Prop :=
  ∀ front access back dfa,
    assignmentSteps resolveAssignBits before expr = front ++ .read access :: back →
    front.foldlM step (assignmentStart resolveAssignBits before expr) = some dfa →
    before.ReadKept dfa front access

/-- No write of the assignment reaches across a shared list. -/
def AssignmentSeparated (resolveAssignBits : Bool) (before : DataFlowAnalysis)
    (expr : AssignmentExpression) : Prop :=
  ∀ front move back dfa,
    assignmentSteps resolveAssignBits before expr = front ++ move :: back →
    front.foldlM step (assignmentStart resolveAssignBits before expr) = some dfa →
    dfa.SeparatedWrite move

section Reads

variable {before dfa : DataFlowAnalysis} {front : List AssignmentStep} {access : Access}

/-- The calls of a read name the drivers that its definitions link. -/
theorem Midway.read_spec (midway : Midway before front dfa) (access : Access) :
    ∃ calls, dfa.read access = some (dfa.appendCalls calls) ∧
      ∀ source, (∃ dependency, .addDependency dependency ∈ calls ∧
        dependency.source = source) ↔
          (dfa.definitions access.symbol).Linked access.bounds source := by
  obtain ⟨node, current, _⟩ := midway.current
  have wellFormed : (dfa.definitions access.symbol).WellFormed :=
    midway.tracked.wellFormed access.symbol
  obtain ⟨calls, handled, reads⟩ := DataFlowAnalysis.read_spec wellFormed.ordered current
    fun entry found => wellFormed.live entry (IntervalMap.mem_find.mp found).1
  refine ⟨calls, handled, fun source => ?_⟩
  constructor
  · rintro ⟨dependency, member, rfl⟩
    exact ((reads.linked dependency).mp member).1
  · intro linked
    exact ⟨_, (reads.linked
      { source := source, target := node, symbol := access.symbol.hierarchicalPath,
        bounds := access.bounds,
        semantics := { role := access.role, precision := access.precision } }).mpr
      ⟨linked, rfl⟩, rfl⟩

/-- A linked driver drives a bit of the read. -/
theorem exists_bit_of_linked (sound : dfa.tracked.Sound) {symbol : ValueSymbol}
    {bounds : DriverBitRange} {source : NodeRef}
    (linked : (dfa.definitions symbol).Linked bounds source) :
    ∃ bit ∈ bounds, some source ∈ dfa.tracked.driversAt symbol bit := by
  obtain ⟨entry, entryMem, _, list, listed, driven⟩ := linked
  have ordered := (sound.wellFormed symbol).ordered
  obtain ⟨stored, overlaps⟩ := IntervalMap.mem_find.mp entryMem
  have proper := ordered.proper entry stored
  have low := bounds.lower_le_upper
  refine ⟨max entry.first bounds.lower, ?_, (DriverMap.mem_driversAt ordered).mpr
    ⟨entry, stored, ?_, list, listed, driven⟩⟩
  · rw [DriverBitRange.mem_iff]
    simp only [Interval.Overlaps] at overlaps
    omega
  · simp only [Interval.Overlaps, Interval.Covers] at *
    omega

/-- A read in the middle of an assignment is resolved as before exactly if it is kept. -/
theorem Midway.readsAsBefore_iff (sound : before.Sound) (midway : Midway before front dfa)
    (access : Access) :
    before.ReadsAsBefore dfa access ↔ before.ReadKept dfa front access := by
  obtain ⟨calls, handled, linkedIff⟩ := midway.read_spec access
  constructor
  · rintro ⟨others, same, _, asBefore⟩ bit inside
    obtain rfl : calls = others := appendCalls_inj (Option.some.inj (handled.symm.trans same))
    have gets := asBefore bit inside
    simp only [Gets, linkedIff] at gets
    refine ⟨fun written => ⟨fun source old => ?_, fun source new linked => ?_⟩,
      fun _ source old => ((gets source).mpr old).2⟩
    · obtain ⟨own, sameOwn, fresh⟩ :=
        midway.written access.symbol bit written _ ((gets source).mpr old).1
      cases sameOwn
      exact fresh (sound.created access.symbol bit source old)
    · obtain ⟨own, sameOwn, fresh⟩ := midway.written access.symbol bit written _ new
      cases sameOwn
      exact fresh (sound.created access.symbol bit source ((gets source).mp ⟨new, linked⟩))
  · intro kept
    have asBefore : ∀ bit ∈ access.bounds, ∀ source,
        dfa.Gets calls access bit source ↔
          some source ∈ before.tracked.driversAt access.symbol bit := by
      intro bit inside source
      rw [Gets, linkedIff]
      by_cases written : Written front access.symbol bit
      · obtain ⟨undriven, unlinked⟩ := (kept bit inside).1 written
        exact iff_of_false (fun gets => unlinked source gets.1 gets.2) (undriven source)
      · rw [midway.unwritten access.symbol bit written]
        exact ⟨fun gets => gets.1, fun old => ⟨old, (kept bit inside).2 written source old⟩⟩
    refine ⟨calls, handled, fun dependency member => ?_, asBefore⟩
    have linked := (linkedIff dependency.source).mp ⟨dependency, member, rfl⟩
    obtain ⟨bit, inside, driven⟩ := exists_bit_of_linked midway.tracked linked
    exact sound.created access.symbol bit _ ((asBefore bit inside _).mp
      ⟨driven, dependency, member, rfl⟩)

/-- The steps of an assignment begin with a node. -/
theorem assignmentSteps_head (resolveAssignBits : Bool) (before : DataFlowAnalysis)
    (expr : AssignmentExpression) {move : AssignmentStep} {rest : List AssignmentStep}
    (steps : assignmentSteps resolveAssignBits before expr = move :: rest) :
    ∃ saved location, move = .enter saved location := by
  unfold assignmentSteps at steps
  split at steps
  · cases steps
    exact ⟨none, expr.location, rfl⟩
  · cases segments : BitSliceList.alignSegments expr.lhsList expr.rhsList with
    | nil => simp [segments] at steps
    | cons segment others =>
        rw [segments, List.flatMap_cons, AssignmentStep.ofSegment, List.cons_append] at steps
        cases steps
        exact ⟨_, expr.location, rfl⟩

/-- A step that makes no node comes after one that does. -/
theorem exists_enter_before {resolveAssignBits : Bool} {start saved dfa : DataFlowAnalysis}
    {expr : AssignmentExpression} {front back : List AssignmentStep} {move : AssignmentStep}
    (steps : assignmentSteps resolveAssignBits start expr = front ++ move :: back)
    (other : ∀ saved location, move ≠ .enter saved location)
    (ran : front.foldlM step saved = some dfa) :
    ∃ before location rest, front = .enter before location :: rest ∧
      rest.foldlM step (saved.enter before location) = some dfa := by
  cases front with
  | nil =>
      obtain ⟨before, location, rfl⟩ := assignmentSteps_head resolveAssignBits start expr steps
      exact absurd rfl (other before location)
  | cons first rest =>
      obtain ⟨before, location, rfl⟩ := assignmentSteps_head resolveAssignBits start expr steps
      obtain ⟨middle, entered, ran⟩ := foldlM_cons_eq_some.mp ran
      cases entered
      exact ⟨before, location, rest, rfl, ran⟩

/-- A visit that does not track L-values writes nothing. -/
theorem write_not_mem_ofExpr (context : WalkContext) (left : Bool) (expr : Expr)
    {symbol : ValueSymbol} {lsp : Nat} {bounds : DriverBitRange} :
    .write symbol lsp bounds ∉ AssignmentStep.ofExpr context left false expr := by
  induction expr with
  | literal => exact List.not_mem_nil
  | value selectors path ih =>
      rw [AssignmentStep.ofExpr, List.mem_append, not_or]
      refine ⟨ih, ?_⟩
      unfold AssignmentStep.ofPath
      split
      · exact List.not_mem_nil
      · split
        · split
          · exact List.not_mem_nil
          · cases left <;> simp
        · exact List.not_mem_nil
  | operator first second firstIh secondIh =>
      rw [AssignmentStep.ofExpr, List.mem_append, not_or]
      exact ⟨firstIh, secondIh⟩

/-- A force writes nothing. -/
theorem write_not_mem_force {resolveAssignBits : Bool} {start : DataFlowAnalysis}
    {expr : AssignmentExpression} (prohibited : start.prohibitLValue = true)
    {symbol : ValueSymbol} {lsp : Nat} {bounds : DriverBitRange} :
    .write symbol lsp bounds ∉ assignmentSteps resolveAssignBits start expr := by
  intro member
  unfold assignmentSteps at member
  split at member
  · rcases AssignmentStep.mem_ofLegacy.mp member with head | left | ⟨_, right⟩
    · cases head
    · rw [prohibited] at left
      exact write_not_mem_ofExpr _ _ _ left
    · exact write_not_mem_ofExpr _ _ _ right
  · obtain ⟨segment, _, inSegment⟩ := List.mem_flatMap.mp member
    rcases AssignmentStep.mem_ofSegment.mp inSegment with head | ⟨allowed, _⟩ |
      ⟨_, source, _, inSource⟩
    · cases head
    · exact absurd (prohibited.symm.trans allowed) (by simp)
    · rcases AssignmentStep.mem_ofRhsSource inSource with ⟨_, _, inner⟩ | ⟨_, same⟩ |
        ⟨_, _, _, same⟩ | same
      · exact write_not_mem_ofExpr _ _ _ inner
      · cases same
      · cases same
      · cases same

/-- An assignment with a write sets the flag of a blocking one. -/
theorem isBlocking_of_write {resolveAssignBits : Bool} {expr : AssignmentExpression}
    (isBlocking : expr.isBlocking = true) {symbol : ValueSymbol} {lsp : Nat}
    {bounds : DriverBitRange}
    (member : .write symbol lsp bounds ∈ assignmentSteps resolveAssignBits before expr) :
    (assignmentStart resolveAssignBits before expr).isBlocking = true := by
  unfold assignmentStart
  split
  · next forced =>
      rw [assignmentSteps, if_pos forced.1, forced.2] at member
      rcases AssignmentStep.mem_ofLegacy.mp member with head | left | ⟨_, right⟩
      · cases head
      · exact absurd left (write_not_mem_ofExpr _ _ _)
      · exact absurd right (write_not_mem_ofExpr _ _ _)
  · exact isBlocking

/-- A guarded run of the first steps of an assignment is midway, if there is a step. -/
theorem midway_of_guardedRun {resolveAssignBits : Bool} {expr : AssignmentExpression}
    (sound : before.Sound)
    (run : GuardedRun step BlockingWrite (assignmentStart resolveAssignBits before expr) front dfa)
    {back : List AssignmentStep}
    (steps : assignmentSteps resolveAssignBits before expr = front ++ back) :
    front = [] ∨ Midway before front dfa := by
  induction run generalizing back with
  | nil => exact Or.inl rfl
  | @snoc earlier dfa next move run allowed stepped ih =>
      rw [List.append_assoc, List.singleton_append] at steps
      refine Or.inr ?_
      rcases ih steps with rfl | midway
      · obtain ⟨saved, location, rfl⟩ := assignmentSteps_head resolveAssignBits before expr steps
        cases run.folded
        cases stepped
        unfold assignmentStart
        split
        · exact midway_enter sound before.isBlocking saved location
        · exact midway_enter sound expr.isBlocking saved location
      · exact midway.step allowed stepped

/-- The run up to a later step is midway. -/
theorem midway_of_run {resolveAssignBits : Bool} {expr : AssignmentExpression}
    (sound : before.Sound) (isBlocking : expr.isBlocking = true)
    (separated : AssignmentSeparated resolveAssignBits before expr) {move : AssignmentStep}
    {back : List AssignmentStep}
    (steps : assignmentSteps resolveAssignBits before expr = front ++ move :: back)
    (other : ∀ saved location, move ≠ .enter saved location)
    (ran : front.foldlM step (assignmentStart resolveAssignBits before expr) = some dfa) :
    Midway before front dfa := by
  have run : GuardedRun step BlockingWrite (assignmentStart resolveAssignBits before expr) front
      dfa := by
    refine GuardedRun.of_foldlM_of_forall ran fun earlier later behind middle split reached => ?_
    have whole : assignmentSteps resolveAssignBits before expr =
        earlier ++ later :: (behind ++ move :: back) := by
      rw [steps, split]
      simp
    have apart := separated _ _ _ _ whole reached
    cases later with
    | write symbol lsp bounds =>
        have member : .write symbol lsp bounds ∈
            assignmentSteps resolveAssignBits before expr := by
          rw [whole]
          exact List.mem_append_right _ List.mem_cons_self
        exact ⟨(SameWalk.run reached).isBlocking.trans (isBlocking_of_write isBlocking member),
          apart⟩
    | enter | read | readLeft | constant | stop => trivial
  refine (midway_of_guardedRun sound run steps).resolve_left ?_
  rintro rfl
  obtain ⟨saved, location, same⟩ := assignmentSteps_head resolveAssignBits before expr steps
  exact other saved location same

end Reads

/--
A blocking assignment is the run of its steps.  When no write reaches across a
shared list, all reads of its right side are resolved against the definitions
before it exactly if each of them is kept.
-/
theorem assignmentReadsBefore_iff (resolveAssignBits : Bool) (before : DataFlowAnalysis)
    (expr : AssignmentExpression) (sound : before.Sound) (flagged : before.isLValue = false)
    (isBlocking : expr.isBlocking = true)
    (separated : AssignmentSeparated resolveAssignBits before expr) :
    before.handleAssignment resolveAssignBits expr =
        (assignmentSteps resolveAssignBits before expr).foldlM step
          (assignmentStart resolveAssignBits before expr) ∧
      (AssignmentReadsBefore resolveAssignBits before expr ↔
        AssignmentReadsKept resolveAssignBits before expr) := by
  refine ⟨handleAssignment_eq resolveAssignBits before expr flagged, ?_⟩
  have each : ∀ front access back dfa,
      assignmentSteps resolveAssignBits before expr = front ++ .read access :: back →
      front.foldlM step (assignmentStart resolveAssignBits before expr) = some dfa →
      (before.ReadsAsBefore dfa access ↔ before.ReadKept dfa front access) := by
    intro front access back dfa steps ran
    exact (midway_of_run sound isBlocking separated steps (by simp) ran).readsAsBefore_iff sound
      access
  constructor
  · intro asBefore front access back dfa steps ran
    exact (each front access back dfa steps ran).mp (asBefore front access back dfa steps ran)
  · intro kept front access back dfa steps ran
    exact (each front access back dfa steps ran).mpr (kept front access back dfa steps ran)

/-- The path of the bits `[high:0]` of a signal. -/
def lowBits (symbol : ValueSymbol) (high : Int) : ValuePath where
  rootSymbol := some symbol
  lsp := some 0
  lspBounds := ⟨high, 0⟩

/-- The signal `u`. -/
def otherSignal : ValueSymbol := { id := 1, name := "u", hierarchicalPath := "m.u" }

/-- `u[3:0] = t[3:0];` in one aligned segment. -/
def copyAssignment : AssignmentExpression where
  left := .value .literal (lowBits otherSignal 3)
  right := .value .literal (lowBits signal 3)
  lhsList := [⟨0, 4, [.lsp (lowBits otherSignal 3) [] 0]⟩]
  rhsList := [⟨0, 4, [.lsp (lowBits signal 3) [] 0]⟩]

/-- `t[3:0] = t[3:0] + 1;`, whose right side is an opaque leaf of the one segment. -/
def incrementAssignment : AssignmentExpression where
  left := .value .literal (lowBits signal 3)
  right := .operator (.value .literal (lowBits signal 3)) .literal
  lhsList := [⟨0, 4, [.lsp (lowBits signal 3) [] 0]⟩]
  rhsList := [⟨0, 4, [.opaqueExpr (.operator (.value .literal (lowBits signal 3)) .literal)]⟩]

/-- The definition of `t[3:0]` is well formed, and its node exists. -/
theorem lowerHalfDefined_sound : lowerHalfDefined.Sound where
  tracked := TrackerState.sound_single (by decide)
  created symbol bit source member := by
    obtain ⟨_, _, driven⟩ := (TrackerState.mem_driversAt_single (by decide)).mp
      (show some source ∈ (TrackerState.single signal 0 3
        [{ node := some ⟨0, .assignment, 0⟩ }]).driversAt symbol bit from member)
    obtain rfl : source = ⟨0, .assignment, 0⟩ := by simpa [DriverList.nodes] using driven
    decide

/-- The increment after `t[3:0]` has been assigned. -/
theorem assignmentReadsBefore_iff_increment :
    lowerHalfDefined.handleAssignment true incrementAssignment =
        (assignmentSteps true lowerHalfDefined incrementAssignment).foldlM step
          (assignmentStart true lowerHalfDefined incrementAssignment) ∧
      (AssignmentReadsBefore true lowerHalfDefined incrementAssignment ↔
        AssignmentReadsKept true lowerHalfDefined incrementAssignment) := by
  have run : GuardedRun step SeparatedWrite
      (assignmentStart true lowerHalfDefined incrementAssignment)
      (assignmentSteps true lowerHalfDefined incrementAssignment)
      (((assignmentSteps true lowerHalfDefined incrementAssignment).foldlM step
        (assignmentStart true lowerHalfDefined incrementAssignment)).getD {}) :=
    GuardedRun.of_foldlM (by decide +kernel)
  exact assignmentReadsBefore_iff true lowerHalfDefined incrementAssignment lowerHalfDefined_sound
    rfl rfl fun _ _ _ _ split reached => run.guard_of_split split reached

/-- The steps of the increment before its read. -/
def incrementFront : List AssignmentStep :=
  [.enter (some (some ⟨0, .assignment, 1⟩, none)) none, .write signal 0 ⟨0, 3⟩]

/--
After `t[3:0]` has been assigned by the node 0, the read of the increment gets
the node of the increment itself and not the node 0.
-/
theorem increment_reads_itself :
    ¬ AssignmentReadsBefore true lowerHalfDefined incrementAssignment := by
  intro claim
  obtain ⟨_, _, _, asBefore⟩ := claim incrementFront ⟨signal, 0, ⟨3, 0⟩, .data, .range⟩ []
    ((incrementFront.foldlM step
      (assignmentStart true lowerHalfDefined incrementAssignment)).getD {})
    (by decide +kernel) (by decide +kernel)
  have gets := (asBefore 0 (by decide) ⟨0, .assignment, 0⟩).mpr (by decide +kernel)
  exact absurd gets.1 (by decide +kernel)

end DataFlowAnalysis

end SlangNetlist
