import SlangNetlist.Analysis.ReachingDefinitions

/-!
# The sources of a read

The edges that a read makes come from definitions of its bits: from the last write
in the same blocking assignment or, where it has not written the bit, from an
assignment that reaches the statement along a live path.  As long as no definition
overlaps the read over one end only, no such definition is left out.
-/

namespace SlangNetlist

open Library TrackerState

namespace DataFlowAnalysis

variable {resolveAssignBits : Bool} {start before dfa middle : DataFlowAnalysis}
  {body leaf : Stmt} {position : Position} {symbol : ValueSymbol} {bit : Int} {node : NodeRef}
  {move : AssignmentStep} {front back : List AssignmentStep}

/-! ## The calls before a step -/

theorem stepCalls_append (ran : front.foldlM step dfa = some middle) :
    stepCalls (front ++ back) dfa = stepCalls front dfa ++ stepCalls back middle := by
  induction front generalizing dfa with
  | nil =>
      cases ran
      rfl
  | cons move rest ih =>
      obtain ⟨next, stepped, ran⟩ := foldlM_cons_eq_some.mp ran
      rw [List.cons_append, stepCalls, stepCalls, stepped, Option.elim_some, Option.elim_some,
        ih ran, List.append_assoc]

/-- The calls of a leaf are calls of the body. -/
theorem trackerCalls_at (found : body.leafAt position = some leaf)
    (at_ : stateAt resolveAssignBits body position start = some before) :
    trackerCalls resolveAssignBits leaf before ⊆ trackerCalls resolveAssignBits body start := by
  induction body generalizing position start before with
  | skip | assign | force | decide | jump =>
      cases position with
      | nil =>
          cases found
          cases at_
          exact List.Subset.refl _
      | cons side rest => cases at_
  | seq first second firstIh secondIh =>
      cases position with
      | nil => cases at_
      | cons side rest =>
          cases side with
          | first => exact List.subset_append_of_subset_left _ (firstIh found at_)
          | second =>
              simp only [stateAt, Option.bind_eq_bind, Option.bind_eq_some_iff] at at_
              obtain ⟨middle, handled, at_⟩ := at_
              simp only [trackerCalls, handled, Option.elim_some]
              exact List.subset_append_of_subset_right _ (secondIh found at_)
  | either dead intoFirst first second firstIh secondIh =>
      cases position with
      | nil => cases at_
      | cons side rest =>
          cases side with
          | first => exact List.subset_append_of_subset_left _ (firstIh found at_)
          | second =>
              simp only [stateAt, Option.bind_eq_bind, Option.bind_eq_some_iff] at at_
              obtain ⟨middle, handled, at_⟩ := at_
              simp only [trackerCalls, handled, Option.elim_some]
              exact List.subset_append_of_subset_right _
                (List.subset_append_of_subset_left _ (secondIh found at_))

/-! ## The drivers at a step -/

/-- The statement at the position is a blocking assignment. -/
def BlocksAt (body : Stmt) (position : Position) : Prop :=
  ∃ expr, body.leafAt position = some (.assign expr) ∧ expr.isBlocking = true

/-- The node with which the first steps of the blocking assignment write the bit last. -/
def WrittenBefore (resolveAssignBits : Bool) (start : DataFlowAnalysis) (body : Stmt)
    (position : Position) (front : List AssignmentStep) (symbol : ValueSymbol) (bit : Int)
    (node : NodeRef) : Prop :=
  ∃ expr before, body.leafAt position = some (.assign expr) ∧ expr.isBlocking = true ∧
    stateAt resolveAssignBits body position start = some before ∧
    RunWrites (assignmentStart resolveAssignBits before expr) front symbol bit (some node)

/-- The node defines the bit behind the first steps of the statement at the position. -/
def DefinesHere (resolveAssignBits : Bool) (start : DataFlowAnalysis) (body : Stmt)
    (position : Position) (front : List AssignmentStep) (symbol : ValueSymbol) (bit : Int)
    (node : NodeRef) : Prop :=
  WrittenBefore resolveAssignBits start body position front symbol bit node ∨
    ¬ (BlocksAt body position ∧ Written front symbol bit) ∧
      ∃ path ∈ body.livePathsTo position,
        ReachesAlong resolveAssignBits start body path symbol bit node

/-- The writes of the first steps of an assignment have a node. -/
theorem RunWrites.current_of_front {expr : AssignmentExpression} {saved : DataFlowAnalysis}
    {driver : Option NodeRef}
    (steps : assignmentSteps resolveAssignBits start expr = front ++ back)
    (writes : RunWrites saved front symbol bit driver) : ∃ node, driver = some node := by
  obtain ⟨others, written, lsp, bounds, rest, mid, rfl, ran, rfl, _⟩ := writes
  rw [List.append_assoc, List.cons_append] at steps
  obtain ⟨put, location, tail, _, ran⟩ := exists_enter_before steps (by simp) ran
  exact run_current ⟨_, enter_node saved put location⟩ ran

/-- Behind steps that write nothing the drivers are those that reach the statement. -/
theorem driversAt_of_reaches {task : Nat} {externalNode : Option NodeRef}
    (unblocked : ¬ BlocksAt body position)
    (delivers : Delivers resolveAssignBits (initial task externalNode) body
      (body.livePathsTo position) dfa.tracked) :
    dfa.tracked.Sound ∧ ∀ symbol bit driver, driver ∈ dfa.tracked.driversAt symbol bit ↔
      ∃ node, driver = some node ∧ DefinesHere resolveAssignBits (initial task externalNode) body
        position front symbol bit node := by
  refine ⟨delivers.sound, fun symbol bit driver => delivers.mem_driversAt.trans
    (exists_congr fun node => and_congr_right fun _ => ?_)⟩
  constructor
  · exact fun reaches => Or.inr ⟨fun overwritten => unblocked overwritten.1, reaches⟩
  · rintro (⟨expr, _, found, isBlocking, _⟩ | ⟨_, reaches⟩)
    · exact (unblocked ⟨expr, found, isBlocking⟩).elim
    · exact reaches

theorem not_blocksAt (found : body.leafAt position = some leaf)
    (other : ∀ expr, leaf = .assign expr → expr.isBlocking = false) :
    ¬ BlocksAt body position := by
  rintro ⟨expr, same, isBlocking⟩
  exact absurd ((other expr (Option.some.inj (found.symm.trans same))).symm.trans isBlocking)
    (by simp)

/-- Behind steps of a blocking assignment its own writes hide those that reach it. -/
theorem driversAt_of_blocking {task : Nat} {externalNode : Option NodeRef}
    {expr : AssignmentExpression} (found : body.leafAt position = some (.assign expr))
    (isBlocking : expr.isBlocking = true)
    (at_ : stateAt resolveAssignBits body position (initial task externalNode) = some before)
    (walking : Walking before)
    (separated : Separated (trackerCalls resolveAssignBits body (initial task externalNode)))
    (delivers : Delivers resolveAssignBits (initial task externalNode) body
      (body.livePathsTo position) before.tracked)
    (steps : assignmentSteps resolveAssignBits before expr = front ++ back)
    (ran : front.foldlM step (assignmentStart resolveAssignBits before expr) = some dfa) :
    dfa.tracked.Sound ∧ ∀ symbol bit driver, driver ∈ dfa.tracked.driversAt symbol bit ↔
      ∃ node, driver = some node ∧ DefinesHere resolveAssignBits (initial task externalNode) body
        position front symbol bit node := by
  have started : assignmentStart resolveAssignBits before expr =
      { before with isBlocking := expr.isBlocking } := by
    rw [assignmentStart, if_neg (by simp [walking.prohibitLValue])]
  have tracked := assignmentStart_tracked resolveAssignBits before expr
  have own : Separated (trackerCalls resolveAssignBits (.assign expr) before) :=
    fun call member => separated call (trackerCalls_at found at_ member)
  rw [trackerCalls, if_pos walking.reachable, steps, stepCalls_append ran] at own
  obtain ⟨sound, drivers⟩ := run_driversAt (tracked ▸ delivers.sound)
    (by rw [started]; exact isBlocking) (separated_append.mp own).1 ran
  have blocks : BlocksAt body position := ⟨expr, found, isBlocking⟩
  refine ⟨sound, fun symbol bit driver => (drivers symbol bit driver).trans ?_⟩
  rw [tracked, delivers.mem_driversAt]
  constructor
  · rintro (writes | ⟨unwritten, node, rfl, reaches⟩)
    · obtain ⟨node, rfl⟩ := writes.current_of_front steps
      exact ⟨node, rfl, Or.inl ⟨expr, before, found, isBlocking, at_, writes⟩⟩
    · exact ⟨node, rfl, Or.inr ⟨fun overwritten => unwritten overwritten.2, reaches⟩⟩
  · rintro ⟨node, rfl, ⟨other, otherBefore, otherFound, _, otherAt, writes⟩ |
      ⟨unwritten, reaches⟩⟩
    · cases found.symm.trans otherFound
      cases at_.symm.trans otherAt
      exact Or.inl writes
    · exact Or.inr ⟨fun written => unwritten ⟨blocks, written⟩, node, rfl, reaches⟩

/-- The drivers where the walk comes to a step. -/
theorem ComesTo.driversAt {task : Nat} {externalNode : Option NodeRef}
    (separated : Separated (trackerCalls resolveAssignBits body (initial task externalNode)))
    (live : body.livePathsTo position ≠ [])
    (comes : ComesTo resolveAssignBits (initial task externalNode) body position front move back
      dfa) :
    dfa.tracked.Sound ∧ ∀ symbol bit driver, driver ∈ dfa.tracked.driversAt symbol bit ↔
      ∃ node, driver = some node ∧ DefinesHere resolveAssignBits (initial task externalNode) body
        position front symbol bit node := by
  obtain ⟨leaf, before, found, at_, steps, ran⟩ := comes
  have ready := ready_initial task externalNode
  have reached := (reachable_stateAt ready.isLValue ready.prohibitLValue at_).mpr
    ⟨ready.reachable, live⟩
  have delivers := stateAt_delivers ready separated at_ reached
  obtain ⟨_, inBlock⟩ := Continues.stateAt ready.isLValue ready.prohibitLValue ready.tidy at_
  have walking := ready.of_sameBlock inBlock reached
  have member : move ∈ leafSteps resolveAssignBits before leaf := by
    rw [steps]
    exact List.mem_append_right _ List.mem_cons_self
  rcases leaf_of_mem_leafSteps member with ⟨expr, rfl⟩ | ⟨expr, rfl⟩ |
    ⟨kind, location, condition, rfl⟩
  · cases isBlocking : expr.isBlocking with
    | true =>
        exact driversAt_of_blocking found isBlocking at_ walking separated delivers steps ran
    | false =>
        have started : (assignmentStart resolveAssignBits before expr).isBlocking = false := by
          rw [assignmentStart, if_neg (by simp [walking.prohibitLValue])]
          exact isBlocking
        obtain ⟨_, queues, _⟩ := run_queues started ran
        have tracked := queues.tracked.trans (assignmentStart_tracked resolveAssignBits before expr)
        refine driversAt_of_reaches (not_blocksAt found ?_) (tracked ▸ delivers)
        rintro _ ⟨⟩
        exact isBlocking
  · have unwritten : ∀ move ∈ front, ∀ written lsp bounds, move ≠ .write written lsp bounds := by
      rintro _ frontMem written lsp bounds rfl
      have inLeaf : .write written lsp bounds ∈
          leafSteps resolveAssignBits before (.force expr) := by
        rw [steps]
        exact List.mem_append_left _ frontMem
      obtain ⟨_, same⟩ := assign_of_write_mem inLeaf
      cases same
    have tracked := (run_tracked (Or.inr unwritten) ran).trans (assignmentStart_tracked
      resolveAssignBits { before with prohibitLValue := true } expr)
    exact driversAt_of_reaches (not_blocksAt found (by rintro _ ⟨⟩)) (tracked ▸ delivers)
  · have reads : ∀ move ∈ front, ∃ access, move = .read access ∨ move = .readLeft access :=
      fun move member => reads_ofExpr _ _ _ move (by
        rw [show AssignmentStep.ofExpr _ false false condition = front ++ _ from steps]
        exact List.mem_append_left _ member)
    obtain ⟨calls, rfl⟩ := run_appends reads ran
    have tracked : ((before.enterDecision kind location).appendCalls calls).tracked =
        before.tracked := enterDecision_tracked before kind location
    exact driversAt_of_reaches (not_blocksAt found (by rintro _ ⟨⟩)) (tracked ▸ delivers)

/-! ## The edges of a read -/

/-- A driver of a bit is linked, unless its definition overlaps the read over one end only. -/
theorem linked_of_mem_driversAt (sound : dfa.tracked.Sound) {bounds : DriverBitRange}
    (aligned : ∀ entry ∈ (dfa.definitions symbol).find bounds,
      CoversRead entry bounds ∨ entry.Inside bounds.lower bounds.upper)
    (inside : bit ∈ bounds) (drives : some node ∈ dfa.tracked.driversAt symbol bit) :
    (dfa.definitions symbol).Linked bounds node := by
  obtain ⟨entry, stored, covers, list, listed, driven⟩ :=
    (DriverMap.mem_driversAt (sound.wellFormed symbol).ordered).mp drives
  have found : entry ∈ (dfa.definitions symbol).find bounds := by
    refine IntervalMap.mem_find.mpr ⟨stored, ?_⟩
    rw [DriverBitRange.mem_iff] at inside
    simp only [Interval.Overlaps, Interval.Covers] at *
    omega
  exact ⟨entry, found, aligned entry found, list, listed, driven⟩

/--
In every body, the edges of a read come from definitions of its bits that reach it
along a live path or that its own assignment has written; if every definition that
meets the read lies inside it or covers it, from all of them.
-/
theorem readSources (resolveAssignBits : Bool) (task : Nat) (externalNode : Option NodeRef)
    {body : Stmt} {position : Position} {front : List AssignmentStep} {access : Access}
    {dfa : DataFlowAnalysis} {calls : List BuilderCall}
    (separated : Separated (trackerCalls resolveAssignBits body (initial task externalNode)))
    (live : body.livePathsTo position ≠ [])
    (read : ReadAt resolveAssignBits (initial task externalNode) body position front access dfa)
    (handled : dfa.read access = some (dfa.appendCalls calls)) (source : NodeRef) :
    ((∃ dependency, .addDependency dependency ∈ calls ∧ dependency.source = source) →
      ∃ bit ∈ access.bounds, DefinesHere resolveAssignBits (initial task externalNode) body
        position front access.symbol bit source) ∧
    ((∀ entry ∈ (dfa.definitions access.symbol).find access.bounds,
        CoversRead entry access.bounds ∨
          entry.Inside access.bounds.lower access.bounds.upper) →
      (∃ bit ∈ access.bounds, DefinesHere resolveAssignBits (initial task externalNode) body
        position front access.symbol bit source) →
      ∃ dependency, .addDependency dependency ∈ calls ∧ dependency.source = source) := by
  obtain ⟨target, current⟩ := read.current
  obtain ⟨move, back, comes, _⟩ := id read
  obtain ⟨sound, drivers⟩ := comes.driversAt separated live
  have defines (bit : Int) : some source ∈ dfa.tracked.driversAt access.symbol bit ↔
      DefinesHere resolveAssignBits (initial task externalNode) body position front access.symbol
        bit source := by
    rw [drivers]
    exact ⟨fun ⟨_, same, here⟩ => Option.some.inj same ▸ here, fun here => ⟨source, rfl, here⟩⟩
  have wellFormed : (dfa.definitions access.symbol).WellFormed := sound.wellFormed access.symbol
  obtain ⟨others, again, reads⟩ := read_spec wellFormed.ordered current
    fun entry found => wellFormed.live entry (IntervalMap.mem_find.mp found).1
  obtain rfl : calls = others := appendCalls_inj (Option.some.inj (handled.symm.trans again))
  constructor
  · rintro ⟨dependency, member, rfl⟩
    obtain ⟨bit, inside, drives⟩ :=
      exists_bit_of_linked sound ((reads.linked dependency).mp member).1
    exact ⟨bit, inside, (defines bit).mp drives⟩
  · rintro aligned ⟨bit, inside, here⟩
    have linked := linked_of_mem_driversAt sound aligned inside ((defines bit).mpr here)
    exact ⟨_, (reads.linked
      { source := source, target := target, symbol := access.symbol.hierarchicalPath,
        bounds := access.bounds,
        semantics := { role := access.role, precision := access.precision } }).mpr
      ⟨linked, rfl⟩, rfl⟩

/-- The steps of the copy in `if (u) t = t + 1; u = t;` before its read. -/
def copyFront : List AssignmentStep :=
  [.enter (some (some ⟨0, .merge, 2⟩, some ⟨0, .conditional, 0⟩)) none,
    .write otherSignal 0 ⟨0, 3⟩]

/-- The copy reads the increment. -/
theorem readSources_partlyAssigned : ∃ bit ∈ (⟨0, 3⟩ : DriverBitRange),
    DefinesHere true (initial 0 none) partlyAssigned [.second] copyFront signal bit
      ⟨0, .assignment, 1⟩ := by
  let before := (stateAt true partlyAssigned [.second] (initial 0 none)).getD {}
  let access : Access := ⟨signal, 0, ⟨0, 3⟩, .data, .range⟩
  let dfa := (copyFront.foldlM step (assignmentStart true before copyAssignment)).getD {}
  let link : Dependency :=
    { source := ⟨0, .assignment, 1⟩, target := ⟨0, .assignment, 3⟩, symbol := "m.t",
      bounds := ⟨0, 3⟩ }
  have read : ReadAt true (initial 0 none) partlyAssigned [.second] copyFront access dfa :=
    ⟨.read access, [], ⟨.assign copyAssignment, before, rfl, by decide +kernel,
      by decide +kernel, by decide +kernel⟩, Or.inl rfl⟩
  have sources := readSources true 0 none
    (show Separated (trackerCalls true partlyAssigned (initial 0 none)) by decide +kernel)
    (by decide) read
    (show dfa.read access = some (dfa.appendCalls [.addDependency link]) by decide +kernel)
    ⟨0, .assignment, 1⟩
  exact sources.1 ⟨link, List.mem_singleton_self _, rfl⟩

end DataFlowAnalysis

end SlangNetlist
