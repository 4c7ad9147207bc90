import SlangNetlist.Analysis.JoinedDefinitions
import SlangNetlist.Build.ReadCalls

/-!
# Values that enter a block from outside

A read passes on the bits that have no definition in the state, as the parts
that are defined outside of the block.  A join unites the definitions of its
arms, so that a bit assigned on one path counts as defined on all of them.
-/

namespace SlangNetlist

open Library

namespace DataFlowAnalysis

/-! ## The reads of a body -/

/-- The state in which the steps of a leaf start. -/
def leafStart (resolveAssignBits : Bool) (before : DataFlowAnalysis) : Stmt → DataFlowAnalysis
  | .assign expr => assignmentStart resolveAssignBits before expr
  | .force expr => assignmentStart resolveAssignBits { before with prohibitLValue := true } expr
  | .decide kind location _ => before.enterDecision kind location
  | _ => before

/-- The steps of a leaf. -/
def leafSteps (resolveAssignBits : Bool) (before : DataFlowAnalysis) :
    Stmt → List AssignmentStep
  | .assign expr => assignmentSteps resolveAssignBits before expr
  | .force expr => assignmentSteps resolveAssignBits { before with prohibitLValue := true } expr
  | .decide _ _ condition => AssignmentStep.ofExpr before.walkContext false false condition
  | _ => []

/-- The walk runs through the steps of the leaf at the position. -/
def ComesTo (resolveAssignBits : Bool) (start : DataFlowAnalysis) (body : Stmt)
    (position : Position) (front : List AssignmentStep) (move : AssignmentStep)
    (back : List AssignmentStep) (dfa : DataFlowAnalysis) : Prop :=
  ∃ leaf before, body.leafAt position = some leaf ∧
    stateAt resolveAssignBits body position start = some before ∧
    leafSteps resolveAssignBits before leaf = front ++ move :: back ∧
    front.foldlM step (leafStart resolveAssignBits before leaf) = some dfa

/-- The walk comes to a read, after the given steps of the statement at the position. -/
def ReadAt (resolveAssignBits : Bool) (start : DataFlowAnalysis) (body : Stmt)
    (position : Position) (front : List AssignmentStep) (access : Access)
    (dfa : DataFlowAnalysis) : Prop :=
  ∃ move back, ComesTo resolveAssignBits start body position front move back dfa ∧
    (move = .read access ∨ move = .readLeft access)

/-- The node that writes the bit last in the assignment at the position. -/
def WrittenAt (resolveAssignBits : Bool) (start : DataFlowAnalysis) (body : Stmt)
    (position : Position) (symbol : ValueSymbol) (bit : Int) (node : NodeRef) : Prop :=
  ∃ front written lsp bounds back dfa,
    ComesTo resolveAssignBits start body position front (.write written lsp bounds) back dfa ∧
      dfa.state.node = some node ∧ written.id = symbol.id ∧ bit ∈ bounds ∧
      ¬ Written back symbol bit

/-- The node is a definition of the bit that reaches the position along some path. -/
def Reaches (resolveAssignBits : Bool) (start : DataFlowAnalysis) (body : Stmt)
    (position : Position) (symbol : ValueSymbol) (bit : Int) (node : NodeRef) : Prop :=
  ∃ front assigned back, front ++ assigned :: back ∈ body.pathsTo position ∧
    ¬ body.Assigns resolveAssignBits back symbol bit ∧
    WrittenAt resolveAssignBits start body assigned symbol bit node

/-- Some path reaches the position without assigning the bit. -/
def EntersAt (resolveAssignBits : Bool) (body : Stmt) (position : Position)
    (symbol : ValueSymbol) (bit : Int) : Prop :=
  ∃ path ∈ body.pathsTo position, ¬ body.Assigns resolveAssignBits path symbol bit

/--
Every bit that enters the block and is read is enqueued as a pending R-value,
besides the edges from the definitions that reach the read.
-/
def EntryValuesEnqueued (resolveAssignBits : Bool) (start : DataFlowAnalysis) (body : Stmt) :
    Prop :=
  ∀ position front access dfa bit,
    ReadAt resolveAssignBits start body position front access dfa → bit ∈ access.bounds →
    EntersAt resolveAssignBits body position access.symbol bit →
    ∃ node calls, dfa.state.node = some node ∧ dfa.read access = some (dfa.appendCalls calls) ∧
      (∃ pending ∈ calls.flatMap NetlistBuilder.callPending, pending.symbol = access.symbol ∧
        pending.lsp = access.lsp ∧ pending.node = some node ∧ bit ∈ pending.bounds) ∧
      ∀ source, Reaches resolveAssignBits start body position access.symbol bit source →
        .addDependency
          { source := source, target := node, symbol := access.symbol.hierarchicalPath,
            bounds := access.bounds,
            semantics := { role := access.role, precision := access.precision } } ∈ calls

/--
A bit of a read that enters the block is not read through a modport, the lists
of the definitions that meet the read exist, and no path assigns the bit.  The
last bit of a read is enqueued also behind a definition that ends below it: then
it may be assigned if the definitions that reach the read are linked.
-/
def EntryValuesUnassigned (resolveAssignBits : Bool) (start : DataFlowAnalysis) (body : Stmt) :
    Prop :=
  ∀ position front access dfa bit,
    ReadAt resolveAssignBits start body position front access dfa → bit ∈ access.bounds →
    EntersAt resolveAssignBits body position access.symbol bit →
    access.symbol.kind ≠ .modportPort ∧
    (∀ entry ∈ (dfa.definitions access.symbol).find access.bounds,
      (dfa.definitions access.symbol).Live entry) ∧
    (((∀ path ∈ body.pathsTo position,
        ¬ body.Assigns resolveAssignBits path access.symbol bit) ∧
        ¬ Written front access.symbol bit) ∨
      ((∀ entry ∈ (dfa.definitions access.symbol).find access.bounds,
          ¬ CoversRead entry access.bounds) ∧
        bit = access.bounds.upper ∧
        IntervalMapUtils.EndsBelow (dfa.definitions access.symbol).driverIntervals.entries
          access.bounds.lower access.bounds.upper ∧
        ∀ source, Reaches resolveAssignBits start body position access.symbol bit source →
          (dfa.definitions access.symbol).Linked access.bounds source))

variable {resolveAssignBits : Bool} {start before dfa : DataFlowAnalysis} {body leaf : Stmt}
  {position : Position} {front : List AssignmentStep} {access : Access}

/-! ## The state at a step -/

/-- A step keeps a current node. -/
theorem step_current {move : AssignmentStep} {next : DataFlowAnalysis}
    (current : ∃ node, dfa.state.node = some node) (stepped : dfa.step move = some next) :
    ∃ node, next.state.node = some node := by
  rcases step_node stepped with ⟨saved, location, rfl⟩ | same
  · cases stepped
    exact ⟨_, enter_node dfa saved location⟩
  · rw [same]
    exact current

theorem run_current {moves : List AssignmentStep} {next : DataFlowAnalysis}
    (current : ∃ node, dfa.state.node = some node) (ran : moves.foldlM step dfa = some next) :
    ∃ node, next.state.node = some node :=
  holds_of_foldlM (fun dfa => ∃ node, dfa.state.node = some node) current
    (fun _ _ _ _ here stepped => step_current here stepped) ran

/-- Only assignments and the heads of decisions have steps. -/
theorem leaf_of_mem_leafSteps {move : AssignmentStep}
    (member : move ∈ leafSteps resolveAssignBits before leaf) :
    (∃ expr, leaf = .assign expr) ∨ (∃ expr, leaf = .force expr) ∨
      ∃ kind location condition, leaf = .decide kind location condition := by
  cases leaf with
  | assign expr => exact Or.inl ⟨expr, rfl⟩
  | force expr => exact Or.inr (Or.inl ⟨expr, rfl⟩)
  | decide kind location condition => exact Or.inr (Or.inr ⟨kind, location, condition, rfl⟩)
  | skip | seq | either | jump => cases member

/-- A write is a step of an assignment that is no force. -/
theorem assign_of_write_mem {symbol : ValueSymbol} {lsp : Nat} {bounds : DriverBitRange}
    (member : .write symbol lsp bounds ∈ leafSteps resolveAssignBits before leaf) :
    ∃ expr, leaf = .assign expr := by
  rcases leaf_of_mem_leafSteps member with assign | ⟨expr, rfl⟩ | ⟨kind, location, condition, rfl⟩
  · exact assign
  · exact absurd member (write_not_mem_force rfl)
  · exact absurd member (write_not_mem_ofExpr _ _ _)

/-- Reads have a current node. -/
theorem ReadAt.current
    (read : ReadAt resolveAssignBits start body position front access dfa) :
    ∃ node, dfa.state.node = some node := by
  obtain ⟨move, back, ⟨leaf, before, _, _, steps, ran⟩, reads⟩ := read
  have member : move ∈ leafSteps resolveAssignBits before leaf := by
    rw [steps]
    exact List.mem_append_right _ List.mem_cons_self
  have isRead : ∀ saved location, move ≠ .enter saved location := by
    rcases reads with rfl | rfl <;> simp
  rcases leaf_of_mem_leafSteps member with ⟨expr, rfl⟩ | ⟨expr, rfl⟩ |
    ⟨kind, location, condition, rfl⟩
  · obtain ⟨saved, location, rest, _, ran⟩ := exists_enter_before steps isRead ran
    exact run_current ⟨_, enter_node _ saved location⟩ ran
  · obtain ⟨saved, location, rest, _, ran⟩ := exists_enter_before steps isRead ran
    exact run_current ⟨_, enter_node _ saved location⟩ ran
  · refine run_current ?_ ran
    simp only [leafStart, enterDecision, updateNode]
    split <;> exact ⟨_, rfl⟩

/-- At a step the bits are defined that a path assigns or that its statement has written. -/
theorem ComesTo.defining {move : AssignmentStep} {back : List AssignmentStep}
    (plain : body.Plain) (walking : Walking start) (tidy : start.tracked.Tidy)
    (comes : ComesTo resolveAssignBits start body position front move back dfa) :
    Defining start dfa fun symbol bit =>
      body.SomeAssigns resolveAssignBits (body.pathsTo position) symbol bit ∨
        Written front symbol bit := by
  obtain ⟨leaf, before, found, at_, steps, ran⟩ := comes
  obtain ⟨toBefore, inBefore⟩ := stateAt_defining plain walking tidy at_
  refine toBefore.trans ?_ fun _ _ => Iff.rfl
  have member : move ∈ leafSteps resolveAssignBits before leaf := by
    rw [steps]
    exact List.mem_append_right _ List.mem_cons_self
  rcases leaf_of_mem_leafSteps member with ⟨expr, rfl⟩ | ⟨expr, rfl⟩ |
    ⟨kind, location, condition, rfl⟩
  · rw [leafStart, assignmentStart, if_neg (by simp [inBefore.prohibitLValue])] at ran
    have blocking : expr.isBlocking = true := (Stmt.plain_iff_built.mp plain).of_leafAt found
    have inLeaf := @run_defining { before with isBlocking := expr.isBlocking } dfa front
      toBefore.tidy blocking ran
    exact ⟨inLeaf.tidy, inLeaf.grows, inLeaf.defines⟩
  · exact absurd ((Stmt.plain_iff_built.mp plain).of_leafAt found) id
  · have reads : ∀ move ∈ front, ∃ access, move = .read access ∨ move = .readLeft access :=
      fun move member => reads_ofExpr _ _ _ move (by
        rw [show AssignmentStep.ofExpr _ false false condition = front ++ _ from steps]
        exact List.mem_append_left _ member)
    obtain ⟨calls, rfl⟩ := run_appends reads ran
    refine Defining.same toBefore.tidy (enterDecision_tracked before kind location) ?_
    rintro symbol bit ⟨written, lsp, bounds, member, _⟩
    obtain ⟨access, same | same⟩ := reads _ member <;> cases same

/-- An assignment assigns the bits that it writes at its position. -/
theorem WrittenAt.assigns (plain : body.Plain) (walking : Walking start)
    (tidy : start.tracked.Tidy) {symbol : ValueSymbol} {bit : Int} {node : NodeRef}
    (written : WrittenAt resolveAssignBits start body position symbol bit node) :
    ∃ expr, body.leafAt position = some (.assign expr) ∧
      expr.Assigns resolveAssignBits symbol bit := by
  obtain ⟨front, target, lsp, bounds, back, dfa, ⟨leaf, before, found, at_, steps, _⟩, _, same,
    inside, _⟩ := written
  have inBefore := (stateAt_defining plain walking tidy at_).2
  have member : .write target lsp bounds ∈ leafSteps resolveAssignBits before leaf := by
    rw [steps]
    exact List.mem_append_right _ List.mem_cons_self
  obtain ⟨expr, rfl⟩ := assign_of_write_mem member
  exact ⟨expr, found, (written_assignmentSteps inBefore).mp
    ⟨target, lsp, bounds, member, same, inside⟩⟩

/-- A definition that reaches a position is on a path that assigns the bit. -/
theorem Reaches.assigns (plain : body.Plain) (walking : Walking start)
    (tidy : start.tracked.Tidy) {symbol : ValueSymbol} {bit : Int} {node : NodeRef}
    (reaches : Reaches resolveAssignBits start body position symbol bit node) :
    ∃ path ∈ body.pathsTo position, body.Assigns resolveAssignBits path symbol bit := by
  obtain ⟨front, assigned, back, path, _, written⟩ := reaches
  obtain ⟨expr, found, assigns⟩ := written.assigns plain walking tidy
  exact ⟨_, path, assigned, List.mem_append_right _ List.mem_cons_self, expr, found, assigns⟩

/--
In every body of blocking assignments and non-constant branches, each bit that
enters the block and is read is enqueued if and only if no path to the read
assigns it, but for the last bit of a read behind a definition that ends below
it.
-/
theorem entryValuesEnqueued_iff (resolveAssignBits : Bool) (task : Nat)
    (externalNode : Option NodeRef) {body : Stmt} (plain : body.Plain) :
    EntryValuesEnqueued resolveAssignBits (initial task externalNode) body ↔
      EntryValuesUnassigned resolveAssignBits (initial task externalNode) body := by
  have walking := walking_initial task externalNode
  have tidy : (initial task externalNode).tracked.Tidy := TrackerState.tidy_empty
  have nothing (symbol : ValueSymbol) (bit : Int) :
      ¬ (initial task externalNode).tracked.Defines symbol bit := by
    rintro ⟨_, member, _⟩
    cases member
  refine forall_congr' fun position => forall_congr' fun front => forall_congr' fun access =>
    forall_congr' fun dfa => forall_congr' fun bit => forall_congr' fun read =>
      forall_congr' fun inside => forall_congr' fun enters => ?_
  obtain ⟨move, back, comes, reads⟩ := id read
  have defining := comes.defining plain walking tidy
  have ordered := defining.tidy.ordered access.symbol
  obtain ⟨node, current⟩ := read.current
  have covered_iff : (dfa.definitions access.symbol).driverIntervals.Covers bit ↔
      body.SomeAssigns resolveAssignBits (body.pathsTo position) access.symbol bit ∨
        Written front access.symbol bit :=
    (defining.defines access.symbol bit).trans (or_iff_right (nothing access.symbol bit))
  constructor
  · rintro ⟨other, calls, otherCurrent, handled, enqueued, linked⟩
    obtain rfl : node = other := Option.some.inj (current.symm.trans otherCurrent)
    have live := live_of_read ordered current handled
    have reads := readFor_of_read ordered current handled
    obtain ⟨direct, _, uncovered, undefined⟩ := reads.mem_pending.mp enqueued
    refine ⟨direct, live, ?_⟩
    by_cases covers : (dfa.definitions access.symbol).driverIntervals.Covers bit
    · obtain ⟨last, below⟩ := undefined.resolve_left (not_not.mpr covers)
      exact Or.inr ⟨uncovered, last, below, fun source reaches =>
        ((reads.read.linked _).mp (linked source reaches)).1⟩
    · rw [covered_iff, not_or] at covers
      exact Or.inl ⟨fun path member assigns => covers.1 ⟨path, member, assigns⟩, covers.2⟩
  · rintro ⟨direct, live, condition⟩
    obtain ⟨calls, handled, spec⟩ := read_spec ordered current live
    refine ⟨node, calls, current, handled, (readFor_of_read ordered current handled).mem_pending.mpr
      ⟨direct, ?_⟩, fun source reaches => ?_⟩
    · rcases condition with ⟨unassigned, unwritten⟩ | ⟨uncovered, last, below, _⟩
      · have undefined : ¬ (dfa.definitions access.symbol).driverIntervals.Covers bit := by
          rw [covered_iff, not_or]
          exact ⟨fun ⟨path, member, assigns⟩ => unassigned path member assigns, unwritten⟩
        refine ⟨inside, fun entry entryMem covers => undefined ?_, Or.inl undefined⟩
        obtain ⟨low, high⟩ := DriverBitRange.mem_iff.mp inside
        exact ⟨entry, (IntervalMap.mem_find.mp entryMem).1, covers.1.trans low,
          high.trans covers.2⟩
      · exact ⟨inside, uncovered, Or.inr ⟨last, below⟩⟩
    · rcases condition with ⟨unassigned, _⟩ | ⟨_, _, _, linked⟩
      · obtain ⟨path, member, assigns⟩ := reaches.assigns plain walking tidy
        exact absurd assigns (unassigned path member)
      · exact (spec.linked _).mpr ⟨linked source reaches, rfl⟩

/-- `if (u) t = t + 1; u = t;` -/
def partlyAssigned : Stmt :=
  .seq
    (.seq (.decide .conditional none (.value .literal (lowBits otherSignal 3)))
      (.either none false (.assign incrementAssignment) .skip))
    (.assign copyAssignment)

theorem entryValuesEnqueued_iff_partlyAssigned :
    EntryValuesEnqueued true (initial 0 none) partlyAssigned ↔
      EntryValuesUnassigned true (initial 0 none) partlyAssigned :=
  entryValuesEnqueued_iff true 0 none
    (show partlyAssigned.Plain from ⟨⟨trivial, rfl, rfl, trivial⟩, rfl⟩)

/-- The read of `t` gets an edge from its assignment only, though the else path skips it. -/
theorem partlyAssigned_loses_entry :
    ¬ EntryValuesEnqueued true (initial 0 none) partlyAssigned := by
  intro enqueued
  let before := (stateAt true partlyAssigned [.second] (initial 0 none)).getD {}
  let front := (assignmentSteps true before copyAssignment).take 2
  let access : Access := ⟨signal, 0, ⟨0, 3⟩, .data, .range⟩
  let dfa := (front.foldlM step (assignmentStart true before copyAssignment)).getD {}
  have enters : EntersAt true partlyAssigned [.second] signal 0 := by
    refine ⟨[[.first, .first], [.first, .second, .second]], by decide +kernel, ?_⟩
    rintro ⟨position, member, expr, found, _⟩
    rcases List.mem_pair.mp member with rfl | rfl <;> cases found
  let link : BuilderCall := .addDependency
    { source := ⟨0, .assignment, 1⟩, target := ⟨0, .assignment, 3⟩, symbol := "m.t",
      bounds := ⟨0, 3⟩ }
  have linkedOnly : dfa.read access = some (dfa.appendCalls [link]) := by decide +kernel
  obtain ⟨node, calls, _, handled, ⟨pending, member, _⟩, _⟩ :=
    enqueued [.second] front access dfa 0
      ⟨.read access, [], ⟨.assign copyAssignment, before, rfl, by decide +kernel,
        by decide +kernel, by decide +kernel⟩, Or.inl rfl⟩ (by decide) enters
  rw [← appendCalls_inj (Option.some.inj (linkedOnly.symm.trans handled))] at member
  simp [link, NetlistBuilder.callPending] at member

end DataFlowAnalysis

end SlangNetlist
