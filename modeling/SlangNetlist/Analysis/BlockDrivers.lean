import SlangNetlist.Analysis.ReachingDefinitions

/-!
# The drivers at the end of a block

Non-blocking assignments queue their writes in the order of the text, and the end
of the analysis replays the queue over the definitions.  So the last non-blocking
assignment of the text drives a bit, on whichever path it stands; where there is
none, the blocking assignments that reach the end do.
-/

namespace SlangNetlist

open Library TrackerState

namespace DataFlowAnalysis

/-- The non-blocking assignment at the position writes the bit. -/
def QueuesAt (resolveAssignBits : Bool) (start : DataFlowAnalysis) (body : Stmt)
    (symbol : ValueSymbol) (bit : Int) (position : Position) : Prop :=
  (∃ expr, body.leafAt position = some (.assign expr) ∧ expr.isBlocking = false) ∧
    ∃ node, WrittenAt resolveAssignBits start body position symbol bit node

/-- The last non-blocking assignment of the text to the bit writes it with the node. -/
def QueuedLast (resolveAssignBits : Bool) (start : DataFlowAnalysis) (body : Stmt)
    (symbol : ValueSymbol) (bit : Int) (node : NodeRef) : Prop :=
  ∃ position, LastMatch (QueuesAt resolveAssignBits start body symbol bit) body.positions position ∧
    WrittenAt resolveAssignBits start body position symbol bit node

/-- The queue that a body adds, in the order of the text. -/
structure TextQueue (resolveAssignBits : Bool) (start : DataFlowAnalysis) (body : Stmt)
    (next : DataFlowAnalysis) (added : List PendingLvalue) : Prop where
  pendingLValues : next.pendingLValues = start.pendingLValues ++ added
  last : ∀ symbol bit driver, LastQueued added symbol bit driver ↔
    ∃ node, driver = some node ∧ QueuedLast resolveAssignBits start body symbol bit node

variable {resolveAssignBits : Bool} {start secondStart middle after next : DataFlowAnalysis}
  {body part first second leaf : Stmt} {position rest : Position} {symbol : ValueSymbol}
  {bit : Int} {node : NodeRef} {added front back : List PendingLvalue} {side : Side}

theorem exists_lastQueued :
    (∃ driver, LastQueued added symbol bit driver) ↔
      ∃ pending ∈ added, PendingLvalue.Covers symbol bit pending := by
  constructor
  · rintro ⟨_, pending, last, _⟩
    exact ⟨pending, last.mem, last.holds⟩
  · intro covers
    obtain ⟨pending, last⟩ := exists_lastMatch covers
    exact ⟨_, pending, last, rfl⟩

/-- The queue covers what some non-blocking assignment of the text writes. -/
theorem TextQueue.covers (queue : TextQueue resolveAssignBits start body next added) :
    (∃ pending ∈ added, PendingLvalue.Covers symbol bit pending) ↔
      ∃ position ∈ body.positions, QueuesAt resolveAssignBits start body symbol bit position := by
  rw [← exists_lastQueued]
  simp only [queue.last]
  constructor
  · rintro ⟨_, node, _, position, last, _⟩
    exact ⟨position, last.mem, last.holds⟩
  · intro queues
    obtain ⟨position, last⟩ := exists_lastMatch queues
    obtain ⟨_, node, written⟩ := last.holds
    exact ⟨_, node, rfl, position, last, written⟩

/-! ## Leaves -/

theorem not_queuesAt
    (none : ∀ expr, body.leafAt position = some (.assign expr) → expr.isBlocking = true) :
    ¬ QueuesAt resolveAssignBits start body symbol bit position := by
  rintro ⟨⟨expr, found, isBlocking⟩, _⟩
  exact absurd ((none expr found).symm.trans isBlocking) (by simp)

/-- A leaf that is no non-blocking assignment queues nothing. -/
theorem TextQueue.silent (positions : leaf.positions = [[]])
    (none : ∀ expr, leaf.leafAt [] = some (.assign expr) → expr.isBlocking = true)
    (pendingLValues : next.pendingLValues = start.pendingLValues) :
    TextQueue resolveAssignBits start leaf next [] := by
  refine ⟨pendingLValues.trans (List.append_nil _).symm, fun symbol bit driver => ⟨?_, ?_⟩⟩
  · rintro ⟨pending, last, _⟩
    exact absurd last not_lastMatch_nil
  · rintro ⟨node, _, position, last, _⟩
    have here := last.mem
    rw [positions, List.mem_singleton] at here
    subst here
    exact absurd last.holds (not_queuesAt none)

/-- A non-blocking assignment queues its writes. -/
theorem TextQueue.assign (flagged : start.isLValue = false)
    (allowed : start.prohibitLValue = false) {expr : AssignmentExpression}
    (isBlocking : expr.isBlocking = false)
    (handled : start.handleAssignment resolveAssignBits expr = some next) :
    ∃ added, TextQueue resolveAssignBits start (.assign expr) next added := by
  rw [handleAssignment_eq resolveAssignBits start expr flagged] at handled
  have started : assignmentStart resolveAssignBits start expr =
      { start with isBlocking := expr.isBlocking } := by
    rw [assignmentStart, if_neg (by simp [allowed])]
  obtain ⟨added, queues, writes⟩ := run_queues
    (show (assignmentStart resolveAssignBits start expr).isBlocking = false by
      rw [started]; exact isBlocking) handled
  have asBefore : next.pendingLValues = start.pendingLValues ++ added := by
    rw [queues.pendingLValues, started]
  refine ⟨added, asBefore, fun symbol bit driver => ?_⟩
  rw [(writes symbol bit).2]
  constructor
  · intro runs
    obtain ⟨node, rfl⟩ := runs.current
    have written := writtenAt_assign.mpr runs
    exact ⟨node, rfl, [], ⟨[], [], rfl, ⟨⟨expr, rfl, isBlocking⟩, node, written⟩, by simp⟩,
      written⟩
  · rintro ⟨node, rfl, position, last, written⟩
    obtain rfl := List.mem_singleton.mp last.mem
    exact writtenAt_assign.mp written

/-- A run without queued writes leaves the queue alone. -/
theorem step_pendingLValues {dfa : DataFlowAnalysis} {move : AssignmentStep}
    (own : dfa.isBlocking = true ∨ ∀ written lsp bounds, move ≠ .write written lsp bounds)
    (stepped : dfa.step move = some next) : next.pendingLValues = dfa.pendingLValues := by
  cases move with
  | write written lsp bounds =>
      have isBlocking := own.resolve_right fun other => other written lsp bounds rfl
      rw [step, handleLvalue_eq isBlocking, Option.map_eq_some_iff] at stepped
      obtain ⟨_, _, rfl⟩ := stepped
      rfl
  | enter saved location =>
      cases stepped
      simpa using (Queues.enter dfa saved location).pendingLValues
  | read access | readLeft access =>
      obtain ⟨calls, rfl⟩ := read_appends stepped
      rfl
  | constant value srcLo location segment fallbackLoc =>
      simp only [step, driveRhsSource] at stepped
      split at stepped <;> cases stepped <;> rfl
  | stop => cases stepped

theorem run_pendingLValues {dfa : DataFlowAnalysis} {moves : List AssignmentStep}
    (own : dfa.isBlocking = true ∨
      ∀ move ∈ moves, ∀ written lsp bounds, move ≠ .write written lsp bounds)
    (ran : moves.foldlM step dfa = some next) : next.pendingLValues = dfa.pendingLValues := by
  induction moves generalizing dfa with
  | nil =>
      cases ran
      rfl
  | cons move rest ih =>
      obtain ⟨middle, stepped, ran⟩ := foldlM_cons_eq_some.mp ran
      rw [List.forall_mem_cons] at own
      refine (ih ?_ ran).trans (step_pendingLValues (own.imp_right And.left) stepped)
      exact own.imp (SameWalk.step stepped).isBlocking.trans And.right

/-! ## Parts of a body -/

theorem PartAt.writtenAt
    (partAt : PartAt resolveAssignBits start body side middle part) :
    WrittenAt resolveAssignBits start body (side :: rest) symbol bit node ↔
      WrittenAt resolveAssignBits middle part rest symbol bit node :=
  writtenAt_part (partAt.leaves rest) (partAt.states rest)

theorem PartAt.queuesAt
    (partAt : PartAt resolveAssignBits start body side middle part) :
    QueuesAt resolveAssignBits start body symbol bit (side :: rest) ↔
      QueuesAt resolveAssignBits middle part symbol bit rest := by
  simp only [QueuesAt, partAt.leaves, partAt.writtenAt]

/-- The last non-blocking assignment of a text in two parts. -/
theorem queuedLast_parts {firstStart : DataFlowAnalysis}
    (text : body.positions =
      first.positions.map (.first :: ·) ++ second.positions.map (.second :: ·))
    (firstAt : PartAt resolveAssignBits start body .first firstStart first)
    (secondAt : PartAt resolveAssignBits start body .second secondStart second) :
    QueuedLast resolveAssignBits start body symbol bit node ↔
      QueuedLast resolveAssignBits secondStart second symbol bit node ∨
        QueuedLast resolveAssignBits firstStart first symbol bit node ∧
          ¬ ∃ position ∈ second.positions,
            QueuesAt resolveAssignBits secondStart second symbol bit position := by
  simp only [QueuedLast, text, lastMatch_append, lastMatch_map, List.forall_mem_map,
    firstAt.queuesAt, secondAt.queuesAt]
  constructor
  · rintro ⟨_, ⟨rest, rfl, last⟩ | ⟨⟨rest, rfl, last⟩, none⟩, written⟩
    · exact Or.inl ⟨rest, last, secondAt.writtenAt.mp written⟩
    · exact Or.inr ⟨⟨rest, last, firstAt.writtenAt.mp written⟩, fun ⟨other, member, queues⟩ =>
        none other member queues⟩
  · rintro (⟨rest, last, written⟩ | ⟨⟨rest, last, written⟩, none⟩)
    · exact ⟨_, Or.inl ⟨rest, rfl, last⟩, secondAt.writtenAt.mpr written⟩
    · exact ⟨_, Or.inr ⟨⟨rest, rfl, last⟩, fun other member queues =>
        none ⟨other, member, queues⟩⟩, firstAt.writtenAt.mpr written⟩

theorem TextQueue.parts {firstStart : DataFlowAnalysis}
    (text : body.positions =
      first.positions.map (.first :: ·) ++ second.positions.map (.second :: ·))
    (firstAt : PartAt resolveAssignBits start body .first firstStart first)
    (secondAt : PartAt resolveAssignBits start body .second secondStart second)
    (firstQueue : TextQueue resolveAssignBits firstStart first middle front)
    (secondQueue : TextQueue resolveAssignBits secondStart second after back)
    (pendingLValues : next.pendingLValues = start.pendingLValues ++ (front ++ back)) :
    TextQueue resolveAssignBits start body next (front ++ back) := by
  refine ⟨pendingLValues, fun symbol bit driver => ?_⟩
  rw [lastQueued_append, firstQueue.last, secondQueue.last, secondQueue.covers]
  simp only [queuedLast_parts text firstAt secondAt, and_or_left, exists_or, ← and_assoc,
    exists_and_right]

/-- A join leaves the queue alone. -/
theorem joinState_pendingLValues {dfa : DataFlowAnalysis} {result other : AnalysisState}
    (joined : dfa.joinState result other = some next) :
    next.pendingLValues = dfa.pendingLValues := by
  unfold joinState at joined
  split at joined
  · obtain ⟨_, _, _, _, only⟩ := mergeStates_eq joined
    exact only.pendingLValues
  · split at joined <;> cases joined <;> rfl

/-- Every body queues its non-blocking assignments in the order of the text. -/
theorem exists_textQueue (flagged : start.isLValue = false)
    (allowed : start.prohibitLValue = false)
    (handled : handleStmt resolveAssignBits body start = some next) :
    ∃ added, TextQueue resolveAssignBits start body next added := by
  induction body generalizing start next with
  | skip | jump =>
      cases handled
      exact ⟨[], TextQueue.silent rfl (by simp [Stmt.leafAt]) rfl⟩
  | assign expr =>
      cases isBlocking : expr.isBlocking with
      | true =>
          rw [handleStmt, handleAssignment_eq resolveAssignBits start expr flagged, assignmentStart,
            if_neg (by simp [allowed])] at handled
          have started : ({ start with isBlocking := expr.isBlocking } :
            DataFlowAnalysis).isBlocking = true := isBlocking
          have kept := run_pendingLValues (Or.inl started) handled
          refine ⟨[], TextQueue.silent rfl (fun other found => ?_) kept⟩
          cases found
          exact isBlocking
      | false => exact TextQueue.assign flagged allowed isBlocking handled
  | force expr =>
      simp only [handleStmt, Option.bind_eq_bind, Option.bind_eq_some_iff, Option.some.injEq]
        at handled
      obtain ⟨forced, handled, rfl⟩ := handled
      have flagged : ({ start with prohibitLValue := true } : DataFlowAnalysis).isLValue = false :=
        flagged
      rw [handleAssignment_eq resolveAssignBits _ expr flagged] at handled
      refine ⟨[], TextQueue.silent rfl (by simp [Stmt.leafAt])
        ((run_pendingLValues (Or.inr ?_) handled).trans ?_)⟩
      · rintro _ member written lsp bounds rfl
        exact write_not_mem_force rfl member
      · unfold assignmentStart
        split <;> rfl
  | decide kind location condition =>
      have visited : visit (start.enterDecision kind location) condition = some next := handled
      rw [visit_eq _ false, (SameBlock.enterDecision start kind location).1.isLValue, flagged]
        at visited
      obtain ⟨calls, rfl⟩ := run_appends (reads_ofExpr _ _ _) visited
      refine ⟨[], TextQueue.silent rfl (by simp [Stmt.leafAt]) ?_⟩
      simp only [appendCalls, enterDecision, updateNode]
      split <;> rfl
  | seq first second firstIh secondIh =>
      simp only [handleStmt, Option.bind_eq_bind, Option.bind_eq_some_iff] at handled
      obtain ⟨middle, firstHandled, secondHandled⟩ := handled
      have same := (SameBlock.handleStmt first flagged allowed firstHandled).1
      obtain ⟨front, firstQueue⟩ := firstIh flagged allowed firstHandled
      obtain ⟨back, secondQueue⟩ := secondIh (same.isLValue.trans flagged)
        (same.prohibitLValue.trans allowed) secondHandled
      refine ⟨_, TextQueue.parts rfl PartAt.seqFirst (PartAt.seqSecond firstHandled) firstQueue
        secondQueue ?_⟩
      rw [secondQueue.pendingLValues, firstQueue.pendingLValues, List.append_assoc]
  | either dead intoFirst first second firstIh secondIh =>
      simp only [handleStmt, Option.bind_eq_bind, Option.bind_eq_some_iff] at handled
      obtain ⟨afterFirst, firstArm, afterSecond, secondArm, joined⟩ := handled
      have toFirst := SameBlock.setState start (start.state.armState dead .first)
      have firstFlagged := toFirst.isLValue.trans flagged
      have firstAllowed := toFirst.prohibitLValue.trans allowed
      have same := (SameBlock.handleStmt first firstFlagged firstAllowed firstArm).1.trans
        (SameBlock.setState afterFirst (start.state.armState dead .second))
      obtain ⟨front, firstQueue⟩ := firstIh firstFlagged firstAllowed firstArm
      obtain ⟨back, secondQueue⟩ := secondIh (same.isLValue.trans firstFlagged)
        (same.prohibitLValue.trans firstAllowed) secondArm
      have kept : next.pendingLValues = afterSecond.pendingLValues := by
        split at joined <;> exact joinState_pendingLValues joined
      refine ⟨_, TextQueue.parts rfl (PartAt.eitherFirst dead intoFirst first second)
        (PartAt.eitherSecond intoFirst second firstArm) firstQueue secondQueue ?_⟩
      rw [kept, secondQueue.pendingLValues]
      exact (congrArg (· ++ back) firstQueue.pendingLValues).trans (List.append_assoc _ _ _)

/-! ## The replay -/

/-- The replay gives each bit that the queue covers the driver that is queued last. -/
theorem replay_driversAt {queue : List PendingLvalue} {state result : TrackerState}
    (sound : state.Sound) (separated : Separated (trace (queue.map replayCall) state))
    (ran : (queue.map replayCall).foldlM TrackerState.step state = some result) :
    ∀ symbol bit driver, driver ∈ result.driversAt symbol bit ↔
      LastQueued queue symbol bit driver ∨
        (¬ ∃ pending ∈ queue, PendingLvalue.Covers symbol bit pending) ∧
          driver ∈ state.driversAt symbol bit := by
  induction queue generalizing state with
  | nil =>
      cases ran
      simp [LastQueued, not_lastMatch_nil]
  | cons pending rest ih =>
      rw [List.map_cons] at ran separated
      obtain ⟨middle, stepped, ran⟩ := foldlM_cons_eq_some.mp ran
      rw [trace, stepped, Option.elim_some] at separated
      obtain ⟨writable, separated⟩ := List.forall_mem_cons.mp separated
      obtain ⟨middleSound, first⟩ := sound.mem_driversAt writable stepped
      intro symbol bit driver
      have covering : Covering symbol bit (replayCall pending) ↔
          PendingLvalue.Covers symbol bit pending := and_congr_left' eq_comm
      have own : driver ∈ (replayCall pending).driverList.nodes ↔ pending.node = driver := by
        simp [replayCall, DriverList.nodes, eq_comm]
      have replaces : (replayCall pending).merge = true ↔ False := by simp [replayCall]
      rw [ih middleSound separated ran, first, covering, own, replaces]
      simp only [LastQueued, lastMatch_cons, List.exists_mem_cons_iff, or_and_right, exists_or,
        not_or]
      grind

/--
In every body whose end control gets to, the drivers of a bit at the end of the
analysis are the last non-blocking assignment of the text to it; if there is none,
they are the blocking assignments that reach the end along a live path.
-/
theorem driversAt_finalize_iff (resolveAssignBits : Bool) (task : Nat)
    (externalNode : Option NodeRef) {body : Stmt} {walked final : DataFlowAnalysis}
    (separated : Separated (trackerCalls resolveAssignBits body (initial task externalNode)))
    (walk : handleStmt resolveAssignBits body (initial task externalNode) = some walked)
    (live : body.livePaths ≠ [])
    (replaySeparated : Separated (trace (walked.pendingLValues.map replayCall) walked.tracked))
    (finalized : walked.finalize = some final) (symbol : ValueSymbol) (bit : Int)
    (driver : Option NodeRef) :
    driver ∈ final.tracked.driversAt symbol bit ↔ ∃ node, driver = some node ∧
      (QueuedLast resolveAssignBits (initial task externalNode) body symbol bit node ∨
        (∀ position ∈ body.positions, ¬ QueuesAt resolveAssignBits (initial task externalNode) body
          symbol bit position) ∧
        ∃ path ∈ body.livePaths,
          ReachesAlong resolveAssignBits (initial task externalNode) body path symbol bit
            node) := by
  have ready := ready_initial task externalNode
  have reached := (reachable_handleStmt ready.isLValue ready.prohibitLValue walk).mpr
    ⟨ready.reachable, live⟩
  have delivers := handleStmt_delivers ready separated walk reached
  obtain ⟨added, queue⟩ := exists_textQueue ready.isLValue ready.prohibitLValue walk
  have queued : walked.pendingLValues = added := queue.pendingLValues
  rw [finalize_eq, Option.map_eq_some_iff] at finalized
  obtain ⟨tracked, ran, rfl⟩ := finalized
  refine (replay_driversAt delivers.sound replaySeparated ran symbol bit driver).trans ?_
  rw [queued, queue.last, queue.covers, delivers.mem_driversAt]
  simp only [and_or_left, exists_or, not_exists, not_and]
  grind

/-- `u = t; if (u) t <= 0; else t <= t + 1;` -/
def copyThenCount : Stmt := .seq (.assign copyAssignment) resetOrCount

/-- The count drives `t` as it is queued last, and the copy reaches the end for `u`. -/
theorem driversAt_finalize_iff_copyThenCount :
    (QueuedLast true (initial 0 none) copyThenCount signal 0 ⟨0, .assignment, 4⟩ ∨
      (∀ position ∈ copyThenCount.positions,
        ¬ QueuesAt true (initial 0 none) copyThenCount signal 0 position) ∧
      ∃ path ∈ copyThenCount.livePaths,
        ReachesAlong true (initial 0 none) copyThenCount path signal 0 ⟨0, .assignment, 4⟩) ∧
    (QueuedLast true (initial 0 none) copyThenCount otherSignal 0 ⟨0, .assignment, 0⟩ ∨
      (∀ position ∈ copyThenCount.positions,
        ¬ QueuesAt true (initial 0 none) copyThenCount otherSignal 0 position) ∧
      ∃ path ∈ copyThenCount.livePaths,
        ReachesAlong true (initial 0 none) copyThenCount path otherSignal 0
          ⟨0, .assignment, 0⟩) := by
  let walked := (handleStmt true copyThenCount (initial 0 none)).getD {}
  let final := walked.finalize.getD {}
  have drivers := driversAt_finalize_iff true 0 none
    (show Separated (trackerCalls true copyThenCount (initial 0 none)) by decide +kernel)
    (show handleStmt true copyThenCount (initial 0 none) = some walked by decide +kernel)
    (by decide)
    (show Separated (trace (walked.pendingLValues.map replayCall) walked.tracked) by
      decide +kernel)
    (show walked.finalize = some final by decide +kernel)
  constructor
  · obtain ⟨node, same, drives⟩ := (drivers signal 0 (some ⟨0, .assignment, 4⟩)).mp
      (by decide +kernel)
    cases same
    exact drives
  · obtain ⟨node, same, drives⟩ := (drivers otherSignal 0 (some ⟨0, .assignment, 0⟩)).mp
      (by decide +kernel)
    cases same
    exact drives

end DataFlowAnalysis

end SlangNetlist
