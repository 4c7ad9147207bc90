import SlangNetlist.Analysis.EntryValues
import SlangNetlist.Library.LastMatch

/-!
# Non-blocking assignments

The L-values of non-blocking assignments are queued in the order of the text and
replayed at the end of the block.  The replay does not know of control paths, so
that of the assignments to one bit it keeps the last one in the text.
-/

namespace SlangNetlist

open Library

namespace Stmt

/-- Non-blocking assignments, sequences and branches on conditions that are not constant. -/
def NonBlocking (body : Stmt) : Prop :=
  body.Built fun expr => expr.isBlocking = false

/-- The positions of the leaves in the order of the text. -/
def positions : Stmt → List Position
  | .seq first second =>
      first.positions.map (.first :: ·) ++ second.positions.map (.second :: ·)
  | .either _ _ first second =>
      first.positions.map (.first :: ·) ++ second.positions.map (.second :: ·)
  | _ => [[]]

/-- The assignment at the position writes the bit of the symbol. -/
def AssignsAt (resolveAssignBits : Bool) (body : Stmt) (symbol : ValueSymbol) (bit : Int)
    (position : Position) : Prop :=
  ∃ expr, body.leafAt position = some (.assign expr) ∧
    expr.Assigns resolveAssignBits symbol bit

variable {resolveAssignBits : Bool} {body first second : Stmt} {position : Position}
  {path : List Position} {symbol : ValueSymbol} {bit : Int}

/-! ## Paths and the text -/

theorem nodup_positions (body : Stmt) : body.positions.Nodup := by
  induction body with
  | skip | assign | force | decide | jump => exact List.nodup_singleton []
  | seq first second firstIh secondIh | either dead intoFirst first second firstIh secondIh =>
      refine List.Nodup.append (firstIh.map (List.cons_injective))
        (secondIh.map (List.cons_injective)) ?_
      intro position inFirst inSecond
      obtain ⟨_, _, rfl⟩ := List.mem_map.mp inFirst
      obtain ⟨_, _, same⟩ := List.mem_map.mp inSecond
      cases same

/-- A path runs through its positions in the order of the text. -/
theorem sublist_positions (member : path ∈ body.paths) : path.Sublist body.positions := by
  induction body generalizing path with
  | skip | assign | force | decide | jump =>
      rw [List.mem_singleton.mp member]
      exact List.Sublist.refl _
  | seq first second firstIh secondIh =>
      obtain ⟨front, frontMem, member⟩ := List.mem_flatMap.mp member
      obtain ⟨back, backMem, rfl⟩ := List.mem_map.mp member
      exact ((firstIh frontMem).map _).append ((secondIh backMem).map _)
  | either dead intoFirst first second firstIh secondIh =>
      rcases List.mem_append.mp member with member | member
      · obtain ⟨front, frontMem, rfl⟩ := List.mem_map.mp member
        exact ((firstIh frontMem).map _).trans (List.sublist_append_left _ _)
      · obtain ⟨back, backMem, rfl⟩ := List.mem_map.mp member
        exact ((secondIh backMem).map _).trans (List.sublist_append_right _ _)

/-- Every position is on some path. -/
theorem exists_path (member : position ∈ body.positions) :
    ∃ path ∈ body.paths, position ∈ path := by
  induction body generalizing position with
  | skip | assign | force | decide | jump => exact ⟨_, List.mem_singleton_self _, member⟩
  | seq first second firstIh secondIh =>
      rcases List.mem_append.mp member with member | member
      · obtain ⟨rest, restMem, rfl⟩ := List.mem_map.mp member
        obtain ⟨front, frontMem, onFront⟩ := firstIh restMem
        obtain ⟨back, backMem⟩ := List.exists_mem_of_ne_nil _ second.paths_ne_nil
        exact ⟨_, List.mem_flatMap.mpr ⟨front, frontMem, List.mem_map_of_mem backMem⟩,
          List.mem_append_left _ (List.mem_map_of_mem onFront)⟩
      · obtain ⟨rest, restMem, rfl⟩ := List.mem_map.mp member
        obtain ⟨back, backMem, onBack⟩ := secondIh restMem
        obtain ⟨front, frontMem⟩ := List.exists_mem_of_ne_nil _ first.paths_ne_nil
        exact ⟨_, List.mem_flatMap.mpr ⟨front, frontMem, List.mem_map_of_mem backMem⟩,
          List.mem_append_right _ (List.mem_map_of_mem onBack)⟩
  | either dead intoFirst first second firstIh secondIh =>
      rcases List.mem_append.mp member with member | member
      · obtain ⟨rest, restMem, rfl⟩ := List.mem_map.mp member
        obtain ⟨front, frontMem, onFront⟩ := firstIh restMem
        exact ⟨_, List.mem_append_left _ (List.mem_map_of_mem frontMem),
          List.mem_map_of_mem onFront⟩
      · obtain ⟨rest, restMem, rfl⟩ := List.mem_map.mp member
        obtain ⟨back, backMem, onBack⟩ := secondIh restMem
        exact ⟨_, List.mem_append_right _ (List.mem_map_of_mem backMem),
          List.mem_map_of_mem onBack⟩

/-- The leaves are at the positions. -/
theorem mem_positions {leaf : Stmt} (found : body.leafAt position = some leaf) :
    position ∈ body.positions := by
  induction body generalizing position with
  | skip | assign | force | decide | jump =>
      cases position with
      | nil => exact List.mem_singleton_self _
      | cons side rest => cases found
  | seq first second firstIh secondIh | either dead intoFirst first second firstIh secondIh =>
      cases position with
      | nil => cases found
      | cons side rest =>
          cases side with
          | first => exact List.mem_append_left _ (List.mem_map_of_mem (firstIh found))
          | second => exact List.mem_append_right _ (List.mem_map_of_mem (secondIh found))

/-- The last position in the text that assigns the bit is the last one on every path through it. -/
theorem lastMatch_path (member : path ∈ body.paths)
    (last : LastMatch (body.AssignsAt resolveAssignBits symbol bit) body.positions position)
    (through : position ∈ path) :
    LastMatch (body.AssignsAt resolveAssignBits symbol bit) path position :=
  last.of_sublist (sublist_positions member) body.nodup_positions through

/-- Every path that assigns a bit runs through the assignment to it that is last in the text. -/
def PathsEndAlike (resolveAssignBits : Bool) (body : Stmt) : Prop :=
  ∀ symbol bit last,
    LastMatch (body.AssignsAt resolveAssignBits symbol bit) body.positions last →
      ∀ path ∈ body.paths, body.Assigns resolveAssignBits path symbol bit → last ∈ path

/-- The last assignment of the text behind a split into two parts. -/
theorem lastMatch_parts {body : Stmt}
    (inFirst : ∀ rest, body.leafAt (.first :: rest) = first.leafAt rest)
    (inSecond : ∀ rest, body.leafAt (.second :: rest) = second.leafAt rest) :
    LastMatch (body.AssignsAt resolveAssignBits symbol bit)
        (first.positions.map (.first :: ·) ++ second.positions.map (.second :: ·)) position ↔
      (∃ rest, .second :: rest = position ∧
        LastMatch (second.AssignsAt resolveAssignBits symbol bit) second.positions rest) ∨
      (∃ rest, .first :: rest = position ∧
        LastMatch (first.AssignsAt resolveAssignBits symbol bit) first.positions rest) ∧
        ¬ second.Assigns resolveAssignBits second.positions symbol bit := by
  rw [lastMatch_append, lastMatch_map, lastMatch_map, List.forall_mem_map]
  simp only [AssignsAt, inFirst, inSecond, Assigns]
  refine or_congr_right (and_congr_right fun _ => ?_)
  constructor
  · rintro none ⟨rest, member, assigns⟩
    exact none rest member assigns
  · intro none rest member assigns
    exact none ⟨rest, member, assigns⟩

end Stmt

/-- The queued L-value has the bit of the symbol in its bounds. -/
def PendingLvalue.Covers (symbol : ValueSymbol) (bit : Int) (pending : PendingLvalue) : Prop :=
  pending.symbol.id = symbol.id ∧ bit ∈ pending.bounds

/-- The last L-value of the queue that covers the bit belongs to the driver. -/
def LastQueued (queue : List PendingLvalue) (symbol : ValueSymbol) (bit : Int)
    (driver : Option NodeRef) : Prop :=
  ∃ pending, LastMatch (PendingLvalue.Covers symbol bit) queue pending ∧ pending.node = driver

theorem lastQueued_append {front back : List PendingLvalue} {symbol : ValueSymbol} {bit : Int}
    {driver : Option NodeRef} :
    LastQueued (front ++ back) symbol bit driver ↔
      LastQueued back symbol bit driver ∨
        LastQueued front symbol bit driver ∧
          ¬ ∃ pending ∈ back, PendingLvalue.Covers symbol bit pending := by
  simp only [LastQueued, lastMatch_append, or_and_right, exists_or, not_exists, not_and]
  refine or_congr_right ⟨?_, ?_⟩
  · rintro ⟨pending, ⟨last, none⟩, same⟩
    exact ⟨⟨pending, last, same⟩, none⟩
  · rintro ⟨⟨pending, last, same⟩, none⟩
    exact ⟨pending, ⟨last, none⟩, same⟩

namespace DataFlowAnalysis

variable {resolveAssignBits : Bool} {dfa middle next : DataFlowAnalysis}

/-! ## The queue of an assignment -/

/-- The analysis goes on with the definitions before it and a longer queue. -/
structure Queues (dfa next : DataFlowAnalysis) (added : List PendingLvalue) : Prop where
  tracked : next.tracked = dfa.tracked
  serial : dfa.serial ≤ next.serial
  pendingLValues : next.pendingLValues = dfa.pendingLValues ++ added

theorem Queues.same (tracked : next.tracked = dfa.tracked) (serial : dfa.serial ≤ next.serial)
    (pendingLValues : next.pendingLValues = dfa.pendingLValues) : Queues dfa next [] :=
  ⟨tracked, serial, pendingLValues.trans (List.append_nil _).symm⟩

theorem Queues.trans {front back : List PendingLvalue} (first : Queues dfa middle front)
    (second : Queues middle next back) : Queues dfa next (front ++ back) :=
  ⟨second.tracked.trans first.tracked, first.serial.trans second.serial, by
    rw [second.pendingLValues, first.pendingLValues, List.append_assoc]⟩

/-- The L-values that a step of a non-blocking assignment queues. -/
def queuedBy (dfa : DataFlowAnalysis) : AssignmentStep → List PendingLvalue
  | .write symbol lsp bounds =>
      [{ symbol := symbol, lsp := lsp, bounds := bounds, node := dfa.state.node }]
  | _ => []

theorem Queues.enter (dfa : DataFlowAnalysis)
    (saved : Option (Option NodeRef × Option NodeRef)) (location : SourceLocation) :
    Queues dfa (dfa.enter saved location) [] := by
  refine Queues.same (enter_tracked dfa saved location) ?_ ?_
  · rw [enter_serial]
    exact Nat.le_succ _
  · cases saved <;> simp only [DataFlowAnalysis.enter, updateNode] <;> split <;> rfl

theorem Queues.step (isBlocking : dfa.isBlocking = false) {move : AssignmentStep}
    (stepped : dfa.step move = some next) : Queues dfa next (dfa.queuedBy move) := by
  cases move with
  | enter saved location =>
      cases stepped
      exact Queues.enter dfa saved location
  | write symbol lsp bounds =>
      rw [DataFlowAnalysis.step, handleLvalue, if_pos (by simp [isBlocking])] at stepped
      cases stepped
      exact ⟨rfl, le_rfl, rfl⟩
  | read access | readLeft access =>
      obtain ⟨calls, rfl⟩ := read_appends stepped
      exact Queues.same rfl le_rfl rfl
  | constant value srcLo location segment fallbackLoc =>
      simp only [DataFlowAnalysis.step, driveRhsSource] at stepped
      split at stepped <;> cases stepped
      · exact Queues.same rfl le_rfl rfl
      · exact Queues.same rfl (Nat.le_succ _) rfl
  | stop => cases stepped

/-- The node that writes the bit last in a run of steps. -/
def RunWrites (dfa : DataFlowAnalysis) (moves : List AssignmentStep) (symbol : ValueSymbol)
    (bit : Int) (driver : Option NodeRef) : Prop :=
  ∃ front written lsp bounds back mid, moves = front ++ .write written lsp bounds :: back ∧
    front.foldlM DataFlowAnalysis.step dfa = some mid ∧ mid.state.node = driver ∧
    written.id = symbol.id ∧ bit ∈ bounds ∧ ¬ Written back symbol bit

variable {moves rest : List AssignmentStep} {move : AssignmentStep} {symbol : ValueSymbol}
  {bit : Int} {driver : Option NodeRef}

theorem runWrites_cons (stepped : dfa.step move = some middle) :
    RunWrites dfa (move :: rest) symbol bit driver ↔
      RunWrites middle rest symbol bit driver ∨
        LastQueued (dfa.queuedBy move) symbol bit driver ∧ ¬ Written rest symbol bit := by
  constructor
  · rintro ⟨front, written, lsp, bounds, back, mid, split, ran, node, same, inside, none⟩
    cases front with
    | nil =>
        cases split
        cases ran
        exact Or.inr ⟨⟨_, lastMatch_cons.mpr (Or.inr ⟨rfl, ⟨same, inside⟩, by simp⟩), node⟩, none⟩
    | cons first others =>
        cases split
        rw [List.foldlM_cons, stepped] at ran
        exact Or.inl ⟨others, written, lsp, bounds, back, mid, rfl, ran, node, same, inside, none⟩
  · rintro (⟨front, written, lsp, bounds, back, mid, rfl, ran, node, same, inside, none⟩ |
      ⟨⟨pending, last, node⟩, none⟩)
    · refine ⟨move :: front, written, lsp, bounds, back, mid, rfl, ?_, node, same, inside, none⟩
      rw [List.foldlM_cons, stepped]
      exact ran
    · cases move with
      | write written lsp bounds =>
          obtain rfl := List.mem_singleton.mp last.mem
          exact ⟨[], written, lsp, bounds, rest, dfa, rfl, rfl, node, last.holds.1, last.holds.2,
            none⟩
      | enter | read | readLeft | constant | stop => exact absurd last not_lastMatch_nil

/-- A run of a non-blocking assignment queues its writes. -/
theorem run_queues (isBlocking : dfa.isBlocking = false)
    (ran : moves.foldlM DataFlowAnalysis.step dfa = some next) :
    ∃ added, Queues dfa next added ∧ ∀ symbol bit,
      ((∃ pending ∈ added, PendingLvalue.Covers symbol bit pending) ↔
        Written moves symbol bit) ∧
      ∀ driver, LastQueued added symbol bit driver ↔ RunWrites dfa moves symbol bit driver := by
  induction moves generalizing dfa with
  | nil =>
      cases ran
      refine ⟨[], Queues.same rfl le_rfl rfl, fun symbol bit => ⟨?_, fun driver => ?_⟩⟩
      · simp [Written]
      · simp [LastQueued, RunWrites, not_lastMatch_nil]
  | cons move rest ih =>
      obtain ⟨middle, stepped, ran⟩ := foldlM_cons_eq_some.mp ran
      obtain ⟨added, queues, covers⟩ :=
        ih ((SameWalk.step stepped).isBlocking.trans isBlocking) ran
      refine ⟨_, (Queues.step isBlocking stepped).trans queues, fun symbol bit => ⟨?_, fun driver => ?_⟩⟩
      · simp only [List.mem_append, or_and_right, exists_or, (covers symbol bit).1]
        rw [written_cons]
        refine or_congr_left ?_
        cases move with
        | write written lsp bounds =>
            simp [queuedBy, PendingLvalue.Covers, Written]
        | enter | read | readLeft | constant | stop => simp [queuedBy, Written]
      · rw [lastQueued_append, runWrites_cons stepped, (covers symbol bit).1,
          (covers symbol bit).2]

/-! ## The queue of a body -/

/--
The queue that a body adds: the last L-value of a bit is that of the last
assignment to it.  Each assignment writes with nodes of its own.
-/
structure BodyQueue (resolveAssignBits : Bool) (body : Stmt) (start next : DataFlowAnalysis)
    (added : List PendingLvalue) : Prop where
  queues : Queues start next added
  covers : ∀ symbol bit, (∃ pending ∈ added, PendingLvalue.Covers symbol bit pending) ↔
    body.Assigns resolveAssignBits body.positions symbol bit
  last : ∀ symbol bit driver, LastQueued added symbol bit driver ↔
    ∃ position node, driver = some node ∧
      LastMatch (body.AssignsAt resolveAssignBits symbol bit) body.positions position ∧
      WrittenAt resolveAssignBits start body position symbol bit node
  written : ∀ symbol bit position, body.AssignsAt resolveAssignBits symbol bit position →
    ∃ node, WrittenAt resolveAssignBits start body position symbol bit node
  own : ∀ symbol bit position node,
    WrittenAt resolveAssignBits start body position symbol bit node →
      start.serial ≤ node.serial ∧ node.serial < next.serial
  once : ∀ symbol bit position other node,
    WrittenAt resolveAssignBits start body position symbol bit node →
      WrittenAt resolveAssignBits start body other symbol bit node → position = other

variable {start secondStart : DataFlowAnalysis} {body first second : Stmt} {node : NodeRef}

/-- A body whose leaves are no assignments queues nothing. -/
theorem BodyQueue.silent (queues : Queues start next [])
    (none : ∀ position expr, body.leafAt position ≠ some (.assign expr)) :
    BodyQueue resolveAssignBits body start next [] := by
  have unassigned (symbol : ValueSymbol) (bit : Int) (position : Position) :
      ¬ body.AssignsAt resolveAssignBits symbol bit position := by
    rintro ⟨expr, found, _⟩
    exact none position expr found
  have unwritten (symbol : ValueSymbol) (bit : Int) (position : Position) (node : NodeRef) :
      ¬ WrittenAt resolveAssignBits start body position symbol bit node := by
    rintro ⟨front, written, lsp, bounds, back, dfa, ⟨leaf, before, found, _, steps, _⟩, _⟩
    have member : .write written lsp bounds ∈ leafSteps resolveAssignBits before leaf := by
      rw [steps]
      exact List.mem_append_right _ List.mem_cons_self
    obtain ⟨expr, rfl⟩ := assign_of_write_mem member
    exact none position expr found
  refine ⟨queues, fun symbol bit => ?_, fun symbol bit driver => ⟨?_, ?_⟩,
    fun symbol bit position assigns => absurd assigns (unassigned symbol bit position),
    fun symbol bit position node written => absurd written (unwritten symbol bit position node),
    fun symbol bit position _ node written => absurd written (unwritten symbol bit position node)⟩
  · simp [Stmt.Assigns, none]
  · rintro ⟨pending, last, _⟩
    exact absurd last not_lastMatch_nil
  · rintro ⟨position, _, _, last, _⟩
    exact absurd last.holds (unassigned symbol bit position)

/-- What is written in an assignment is written by its run. -/
theorem writtenAt_assign {expr : AssignmentExpression} :
    WrittenAt resolveAssignBits start (.assign expr) [] symbol bit node ↔
      RunWrites (assignmentStart resolveAssignBits start expr)
        (assignmentSteps resolveAssignBits start expr) symbol bit (some node) := by
  constructor
  · rintro ⟨front, written, lsp, bounds, back, dfa, ⟨leaf, before, found, at_, steps, ran⟩, rest⟩
    cases found
    cases at_
    exact ⟨front, written, lsp, bounds, back, dfa, steps, ran, rest⟩
  · rintro ⟨front, written, lsp, bounds, back, dfa, steps, ran, rest⟩
    exact ⟨front, written, lsp, bounds, back, dfa, ⟨_, start, rfl, rfl, steps, ran⟩, rest⟩

/-- The writes of an assignment have a node. -/
theorem RunWrites.current {expr : AssignmentExpression} {saved : DataFlowAnalysis}
    (writes : RunWrites saved (assignmentSteps resolveAssignBits start expr) symbol bit driver) :
    ∃ node, driver = some node := by
  obtain ⟨front, written, lsp, bounds, back, mid, steps, ran, rfl, _⟩ := writes
  obtain ⟨before, location, others, _, ran⟩ := exists_enter_before steps (by simp) ran
  exact run_current ⟨_, enter_node _ before location⟩ ran

/-- A new node stays the current one, and later nodes are newer. -/
theorem run_own {low : Nat} (isBlocking : dfa.isBlocking = false) (low_le : low ≤ dfa.serial)
    (own : ∃ node, dfa.state.node = some node ∧ low ≤ node.serial ∧ node.serial < dfa.serial)
    (ran : moves.foldlM DataFlowAnalysis.step dfa = some next) :
    ∃ node, next.state.node = some node ∧ low ≤ node.serial ∧ node.serial < next.serial := by
  induction moves generalizing dfa with
  | nil =>
      cases ran
      exact own
  | cons move rest ih =>
      obtain ⟨middle, stepped, ran⟩ := foldlM_cons_eq_some.mp ran
      have later := (Queues.step isBlocking stepped).serial
      refine ih ((SameWalk.step stepped).isBlocking.trans isBlocking) (low_le.trans later) ?_ ran
      rcases step_node stepped with ⟨saved, location, rfl⟩ | same
      · cases stepped
        refine ⟨_, enter_node dfa saved location, low_le, ?_⟩
        rw [enter_serial]
        exact Nat.lt_succ_self _
      · obtain ⟨node, current, above, below⟩ := own
        exact ⟨node, same.trans current, above, lt_of_lt_of_le below later⟩

/-- An assignment writes with nodes that it has made. -/
theorem RunWrites.own {expr : AssignmentExpression} {saved : DataFlowAnalysis}
    (isBlocking : saved.isBlocking = false)
    (ran : (assignmentSteps resolveAssignBits start expr).foldlM DataFlowAnalysis.step saved =
      some next)
    (writes : RunWrites saved (assignmentSteps resolveAssignBits start expr) symbol bit
      (some node)) : saved.serial ≤ node.serial ∧ node.serial < next.serial := by
  obtain ⟨front, written, lsp, bounds, back, mid, steps, toMid, current, _⟩ := writes
  rw [steps, List.foldlM_append, toMid] at ran
  have midBlocking := (SameWalk.run toMid).isBlocking.trans isBlocking
  obtain ⟨_, later, _⟩ := run_queues midBlocking (show _ = some next from ran)
  obtain ⟨before, location, others, _, toMid⟩ := exists_enter_before steps (by simp) toMid
  have entered := enter_serial saved before location
  obtain ⟨own, ownCurrent, above, below⟩ := @run_own _ mid others saved.serial
    ((SameWalk.enter saved before location).isBlocking.trans isBlocking)
    (by rw [entered]; exact Nat.le_succ _)
    ⟨_, enter_node saved before location, le_rfl, by rw [entered]; exact Nat.lt_succ_self _⟩
    toMid
  obtain rfl : own = node := Option.some.inj (ownCurrent.symm.trans current)
  exact ⟨above, lt_of_lt_of_le below later.serial⟩

theorem handleAssignment_queues (walking : Walking start) {expr : AssignmentExpression}
    (isBlocking : expr.isBlocking = false)
    (handled : start.handleAssignment resolveAssignBits expr = some next) :
    ∃ added, BodyQueue resolveAssignBits (.assign expr) start next added := by
  rw [handleAssignment_eq resolveAssignBits start expr walking.isLValue] at handled
  have started : assignmentStart resolveAssignBits start expr =
      { start with isBlocking := expr.isBlocking } := by
    rw [assignmentStart, if_neg (by simp [walking.prohibitLValue])]
  have startBlocking : (assignmentStart resolveAssignBits start expr).isBlocking = false := by
    rw [started]
    exact isBlocking
  obtain ⟨added, queues, covers⟩ := run_queues startBlocking handled
  have only_nil {position : Position} {node : NodeRef} {symbol : ValueSymbol} {bit : Int}
      (written : WrittenAt resolveAssignBits start (.assign expr) position symbol bit node) :
      position = [] := by
    obtain ⟨_, _, _, _, _, _, ⟨_, _, found, _⟩, _⟩ := written
    exact List.mem_singleton.mp (Stmt.mem_positions found)
  have asQueue : Queues start next added := by
    rw [started] at queues
    exact ⟨queues.tracked, queues.serial, queues.pendingLValues⟩
  have assigned (symbol : ValueSymbol) (bit : Int) :
      Written (assignmentSteps resolveAssignBits start expr) symbol bit ↔
        expr.Assigns resolveAssignBits symbol bit := written_assignmentSteps walking
  refine ⟨added, asQueue, fun symbol bit => ?_, fun symbol bit driver => ?_,
    fun symbol bit position assigns => ?_, fun symbol bit position node written => ?_,
    fun symbol bit position other node written otherWritten =>
      (only_nil written).trans (only_nil otherWritten).symm⟩
  · rw [(covers symbol bit).1, assigned]
    simp [Stmt.Assigns, Stmt.positions, Stmt.leafAt]
  · rw [(covers symbol bit).2]
    have only : LastMatch ((Stmt.assign expr).AssignsAt resolveAssignBits symbol bit) [[]] [] ↔
        expr.Assigns resolveAssignBits symbol bit := by
      simp [lastMatch_cons, not_lastMatch_nil, Stmt.AssignsAt, Stmt.leafAt]
    constructor
    · intro writes
      obtain ⟨node, rfl⟩ := writes.current
      refine ⟨[], node, rfl, only.mpr ?_, writtenAt_assign.mpr writes⟩
      obtain ⟨front, written, lsp, bounds, back, _, steps, _, _, same, inside, _⟩ := writes
      refine (written_assignmentSteps walking).mp ⟨written, lsp, bounds, ?_, same, inside⟩
      rw [steps]
      exact List.mem_append_right _ List.mem_cons_self
    · rintro ⟨position, node, rfl, last, writtenAt⟩
      obtain rfl := List.mem_singleton.mp last.mem
      exact writtenAt_assign.mp writtenAt
  · obtain ⟨own, found, assigns⟩ := assigns
    obtain rfl := List.mem_singleton.mp (Stmt.mem_positions found)
    cases found
    have queued := (covers symbol bit).1.mpr ((assigned symbol bit).mpr assigns)
    obtain ⟨pending, last⟩ := exists_lastMatch queued
    have writes := ((covers symbol bit).2 pending.node).mp ⟨pending, last, rfl⟩
    obtain ⟨node, same⟩ := writes.current
    rw [same] at writes
    exact ⟨node, writtenAt_assign.mpr writes⟩
  · obtain rfl := only_nil written
    have own := (writtenAt_assign.mp written).own startBlocking handled
    rw [started] at own
    exact own

/-- What is written in a part of a body is written in the body. -/
theorem writtenAt_part {part : Stmt} {partStart : DataFlowAnalysis} {side : Side}
    {rest : Position} (leaves : body.leafAt (side :: rest) = part.leafAt rest)
    (states : stateAt resolveAssignBits body (side :: rest) start =
      stateAt resolveAssignBits part rest partStart) :
    WrittenAt resolveAssignBits start body (side :: rest) symbol bit node ↔
      WrittenAt resolveAssignBits partStart part rest symbol bit node := by
  simp only [WrittenAt, ComesTo, leaves, states]

/-- The queue of a body with two parts. -/
theorem BodyQueue.parts {front back : List PendingLvalue} {after : DataFlowAnalysis}
    (text : body.positions =
      first.positions.map (.first :: ·) ++ second.positions.map (.second :: ·))
    (inFirst : ∀ rest, body.leafAt (.first :: rest) = first.leafAt rest)
    (inSecond : ∀ rest, body.leafAt (.second :: rest) = second.leafAt rest)
    (atFirst : ∀ rest, stateAt resolveAssignBits body (.first :: rest) start =
      stateAt resolveAssignBits first rest start)
    (atSecond : ∀ rest, stateAt resolveAssignBits body (.second :: rest) start =
      stateAt resolveAssignBits second rest secondStart)
    (firstQueue : BodyQueue resolveAssignBits first start middle front)
    (secondQueue : BodyQueue resolveAssignBits second secondStart after back)
    (between : middle.serial ≤ secondStart.serial) (behind : after.serial ≤ next.serial)
    (queues : Queues start next (front ++ back)) :
    BodyQueue resolveAssignBits body start next (front ++ back) := by
  have toFirst (symbol : ValueSymbol) (bit : Int) (rest : Position) (node : NodeRef) :=
    @writtenAt_part resolveAssignBits symbol bit start body node first start .first rest
      (inFirst rest) (atFirst rest)
  have toSecond (symbol : ValueSymbol) (bit : Int) (rest : Position) (node : NodeRef) :=
    @writtenAt_part resolveAssignBits symbol bit start body node second secondStart .second rest
      (inSecond rest) (atSecond rest)
  have split {position : Position} {symbol : ValueSymbol} {bit : Int} {node : NodeRef}
      (written : WrittenAt resolveAssignBits start body position symbol bit node) :
      (∃ rest, position = .first :: rest ∧
        WrittenAt resolveAssignBits start first rest symbol bit node) ∨
      ∃ rest, position = .second :: rest ∧
        WrittenAt resolveAssignBits secondStart second rest symbol bit node := by
    obtain ⟨_, _, _, _, _, _, ⟨_, _, found, _⟩, _⟩ := id written
    have member := Stmt.mem_positions found
    rw [text] at member
    rcases List.mem_append.mp member with member | member
    · obtain ⟨rest, _, rfl⟩ := List.mem_map.mp member
      exact Or.inl ⟨rest, rfl, (toFirst symbol bit rest node).mp written⟩
    · obtain ⟨rest, _, rfl⟩ := List.mem_map.mp member
      exact Or.inr ⟨rest, rfl, (toSecond symbol bit rest node).mp written⟩
  have firstBefore := firstQueue.queues.serial
  have secondBefore := secondQueue.queues.serial
  refine ⟨queues, fun symbol bit => ?_, fun symbol bit driver => ?_,
    fun symbol bit position assigns => ?_, fun symbol bit position node written => ?_,
    fun symbol bit position other node written otherWritten => ?_⟩
  · simp only [List.mem_append, or_and_right, exists_or, firstQueue.covers, secondQueue.covers]
    rw [text, Stmt.assigns_append, Stmt.assigns_map inFirst, Stmt.assigns_map inSecond]
  · rw [lastQueued_append, firstQueue.last, secondQueue.last, secondQueue.covers, text]
    simp only [Stmt.lastMatch_parts inFirst inSecond]
    constructor
    · rintro (⟨rest, node, rfl, last, written⟩ | ⟨⟨rest, node, rfl, last, written⟩, none⟩)
      · exact ⟨_, node, rfl, Or.inl ⟨rest, rfl, last⟩, (toSecond symbol bit rest node).mpr written⟩
      · exact ⟨_, node, rfl, Or.inr ⟨⟨rest, rfl, last⟩, none⟩,
          (toFirst symbol bit rest node).mpr written⟩
    · rintro ⟨_, node, rfl, ⟨rest, rfl, last⟩ | ⟨⟨rest, rfl, last⟩, none⟩, written⟩
      · exact Or.inl ⟨rest, node, rfl, last, (toSecond symbol bit rest node).mp written⟩
      · exact Or.inr ⟨⟨rest, node, rfl, last, (toFirst symbol bit rest node).mp written⟩, none⟩
  · obtain ⟨expr, found, assigns⟩ := assigns
    have member := Stmt.mem_positions found
    rw [text] at member
    rcases List.mem_append.mp member with member | member
    · obtain ⟨rest, _, rfl⟩ := List.mem_map.mp member
      obtain ⟨node, written⟩ := firstQueue.written symbol bit rest
        ⟨expr, (inFirst rest).symm.trans found, assigns⟩
      exact ⟨node, (toFirst symbol bit rest node).mpr written⟩
    · obtain ⟨rest, _, rfl⟩ := List.mem_map.mp member
      obtain ⟨node, written⟩ := secondQueue.written symbol bit rest
        ⟨expr, (inSecond rest).symm.trans found, assigns⟩
      exact ⟨node, (toSecond symbol bit rest node).mpr written⟩
  · rcases split written with ⟨rest, rfl, inPart⟩ | ⟨rest, rfl, inPart⟩
    · have := firstQueue.own symbol bit rest node inPart
      omega
    · have := secondQueue.own symbol bit rest node inPart
      omega
  · rcases split written with ⟨rest, rfl, inPart⟩ | ⟨rest, rfl, inPart⟩
    · rcases split otherWritten with ⟨others, rfl, otherPart⟩ | ⟨others, rfl, otherPart⟩
      · rw [firstQueue.once symbol bit rest others node inPart otherPart]
      · have := firstQueue.own symbol bit rest node inPart
        have := secondQueue.own symbol bit others node otherPart
        omega
    · rcases split otherWritten with ⟨others, rfl, otherPart⟩ | ⟨others, rfl, otherPart⟩
      · have := secondQueue.own symbol bit rest node inPart
        have := firstQueue.own symbol bit others node otherPart
        omega
      · rw [secondQueue.once symbol bit rest others node inPart otherPart]

/-- A join of two states without definitions changes neither the definitions nor the queue. -/
theorem Queues.joinState {result other : AnalysisState} (idle : dfa.valueTracker = {})
    (resultIdle : result.valueDrivers = []) (otherIdle : other.valueDrivers = [])
    (same : result.reachable = other.reachable)
    (joined : dfa.joinState result other = some next) :
    next.tracked = {} ∧ dfa.serial ≤ next.serial ∧
      next.pendingLValues = dfa.pendingLValues := by
  have nodes (start : DataFlowAnalysis) (a b : Option NodeRef) :
      start.serial ≤ (start.mergeNodes a b).2.serial := by
    unfold DataFlowAnalysis.mergeNodes
    split
    · split
      · exact le_rfl
      · exact Nat.le_succ _
    · exact le_rfl
    · exact le_rfl
  rw [DataFlowAnalysis.joinState, if_pos same] at joined
  simp only [mergeStates, otherIdle, List.zipIdx_nil, List.foldlM_nil, Option.bind_eq_bind,
    Option.pure_def, Option.bind_some, Option.some.injEq] at joined
  have first := OnlyCalls.mergeNodes (dfa.setState result) (dfa.setState result).state.node
    other.node
  have both := first.trans (OnlyCalls.mergeNodes _ ((dfa.setState result).mergeNodes
    (dfa.setState result).state.node other.node).2.state.condition other.condition)
  subst joined
  refine ⟨?_, ?_, ?_⟩
  · exact congrArg₂ TrackerState.mk (both.valueTracker.trans idle)
      ((congrArg AnalysisState.valueDrivers both.state).trans resultIdle)
  · exact (nodes (dfa.setState result) _ _).trans (nodes _ _ _)
  · exact both.pendingLValues

/-- A body of non-blocking assignments only queues L-values. -/
theorem handleStmt_queues (nonBlocking : body.NonBlocking) (walking : Walking start)
    (idle : start.tracked = {}) (handled : handleStmt resolveAssignBits body start = some next) :
    ∃ added, BodyQueue resolveAssignBits body start next added := by
  induction body generalizing start next with
  | skip =>
      cases handled
      refine ⟨[], BodyQueue.silent (Queues.same rfl le_rfl rfl) ?_⟩
      rintro position expr
      cases position <;> simp [Stmt.leafAt]
  | assign expr => exact handleAssignment_queues walking nonBlocking handled
  | force | jump => cases nonBlocking
  | decide kind location condition =>
      have visited : visit (start.enterDecision kind location) condition = some next := handled
      rw [visit_eq _ false, (SameBlock.enterDecision start kind location).1.isLValue,
        walking.isLValue] at visited
      obtain ⟨calls, rfl⟩ := run_appends (reads_ofExpr _ _ _) visited
      refine ⟨[], BodyQueue.silent (Queues.same (enterDecision_tracked start kind location) ?_ ?_)
        ?_⟩
      · simp only [appendCalls, enterDecision, updateNode]
        split <;> exact Nat.le_succ _
      · simp only [appendCalls, enterDecision, updateNode]
        split <;> rfl
      · rintro position expr
        cases position <;> simp [Stmt.leafAt]
  | seq first second firstIh secondIh =>
      simp only [handleStmt, Option.bind_eq_bind, Option.bind_eq_some_iff] at handled
      obtain ⟨middle, front, back⟩ := handled
      obtain ⟨same, reached⟩ := SameBlock.handleStmt first walking.isLValue
        walking.prohibitLValue front
      have later := walking.of_sameBlock same
        (by rw [reached, walking.reachable, nonBlocking.1.leaves])
      obtain ⟨firstAdded, firstQueue⟩ := firstIh nonBlocking.1 walking idle front
      obtain ⟨secondAdded, secondQueue⟩ := secondIh nonBlocking.2 later
        (firstQueue.queues.tracked.trans idle) back
      refine ⟨_, BodyQueue.parts rfl (fun _ => rfl) (fun _ => rfl) (fun _ => rfl)
        (fun rest => ?_) firstQueue secondQueue le_rfl le_rfl
        (firstQueue.queues.trans secondQueue.queues)⟩
      simp [stateAt, front]
  | either dead intoFirst first second firstIh secondIh =>
      obtain ⟨rfl, firstBuilt, secondBuilt⟩ := nonBlocking
      simp only [handleStmt, Option.bind_eq_bind, Option.bind_eq_some_iff] at handled
      obtain ⟨afterFirst, firstArm, afterSecond, secondArm, joined⟩ := handled
      have starts (side : Side) : start.state.armState none side = start.state := rfl
      rw [starts] at firstArm secondArm
      obtain ⟨firstSame, firstReached⟩ := SameBlock.handleStmt first walking.isLValue
        walking.prohibitLValue firstArm
      have secondWalking : Walking (afterFirst.setState start.state) :=
        walking.of_sameBlock (firstSame.trans (SameBlock.setState afterFirst start.state))
          walking.reachable
      obtain ⟨firstAdded, firstQueue⟩ := @firstIh afterFirst (start.setState start.state)
        firstBuilt walking idle firstArm
      have tracker : afterFirst.valueTracker = start.valueTracker :=
        congrArg (·.tracker) firstQueue.queues.tracked
      have toSecond : Queues start (afterFirst.setState start.state) firstAdded :=
        ⟨by simp only [DataFlowAnalysis.tracked, setState, tracker], firstQueue.queues.serial,
          firstQueue.queues.pendingLValues⟩
      obtain ⟨secondAdded, secondQueue⟩ := secondIh secondBuilt secondWalking
        (toSecond.tracked.trans idle) secondArm
      have both := toSecond.trans secondQueue.queues
      have reached : afterFirst.state.reachable = afterSecond.state.reachable := by
        rw [firstReached, (SameBlock.handleStmt second secondWalking.isLValue
            secondWalking.prohibitLValue secondArm).2]
        simp only [setState, walking.reachable, firstBuilt.leaves, secondBuilt.leaves]
      have joins : next.tracked = {} ∧ afterSecond.serial ≤ next.serial ∧
          next.pendingLValues = afterSecond.pendingLValues := by
        have trackerIdle := congrArg (·.tracker) (both.tracked.trans idle)
        have firstIdle := congrArg (·.drivers) (firstQueue.queues.tracked.trans idle)
        have secondIdle := congrArg (·.drivers) (both.tracked.trans idle)
        cases intoFirst with
        | true => exact Queues.joinState trackerIdle firstIdle secondIdle reached joined
        | false => exact Queues.joinState trackerIdle secondIdle firstIdle reached.symm joined
      refine ⟨_, BodyQueue.parts rfl (fun _ => rfl) (fun _ => rfl) (fun _ => rfl)
        (fun rest => ?_) firstQueue secondQueue le_rfl joins.2.1 ⟨joins.1.trans idle.symm,
          both.serial.trans joins.2.1, joins.2.2.trans both.pendingLValues⟩⟩
      simp [stateAt, starts, firstArm]

/-! ## The replay -/

/-- The call of the tracker that the replay of an L-value makes. -/
def replayCall (pending : PendingLvalue) : DriverCall where
  symbol := pending.symbol
  bounds := pending.bounds
  driverList := [{ node := pending.node, lsp := some pending.lsp }]

/-- The end of the analysis is a run of calls. -/
theorem finalize_eq (dfa : DataFlowAnalysis) :
    dfa.finalize =
      ((dfa.pendingLValues.map replayCall).foldlM TrackerState.step dfa.tracked).map fun tracked =>
        { dfa.setDrivers tracked with pendingLValues := [] } := by
  simp only [finalize, processNonBlockingLvalues, Option.bind_eq_bind]
  have replayed (queue : List PendingLvalue) (dfa : DataFlowAnalysis) :
      queue.foldlM (fun dfa pending => dfa.addDrivers pending.symbol pending.bounds
        [{ node := pending.node, lsp := some pending.lsp }]) dfa =
      ((queue.map replayCall).foldlM TrackerState.step dfa.tracked).map dfa.setDrivers := by
    induction queue generalizing dfa with
    | nil => rfl
    | cons pending rest ih =>
        rw [List.foldlM_cons, List.map_cons, List.foldlM_cons, TrackerState.step,
          DataFlowAnalysis.addDrivers]
        simp only [DataFlowAnalysis.tracked, replayCall, Option.bind_eq_bind]
        cases dfa.valueTracker.addDrivers dfa.state.valueDrivers pending.symbol pending.bounds
            [{ node := pending.node, lsp := some pending.lsp }] false with
        | none => rfl
        | some added => exact ih _
  rw [replayed]
  cases (dfa.pendingLValues.map replayCall).foldlM TrackerState.step dfa.tracked <;> rfl

/-- The replay reaches across no shared list. -/
def ReplaySeparated (walked : DataFlowAnalysis) : Prop :=
  ∃ state, GuardedRun TrackerState.step TrackerState.Writable {}
    (walked.pendingLValues.map replayCall) state

/-- The replay gives each bit the driver that is queued last. -/
theorem finalize_replays {walked : DataFlowAnalysis} (idle : walked.tracked = {})
    (separated : ReplaySeparated walked) :
    ∃ final, walked.finalize = some final ∧ ∀ symbol bit driver,
      driver ∈ final.tracked.driversAt symbol bit ↔
        LastQueued walked.pendingLValues symbol bit driver := by
  obtain ⟨state, run⟩ := separated
  have replaces : ∀ call ∈ walked.pendingLValues.map replayCall, call.merge = false := by
    intro call member
    obtain ⟨pending, _, rfl⟩ := List.mem_map.mp member
    rfl
  refine ⟨{ walked.setDrivers state with pendingLValues := [] }, ?_, fun symbol bit driver => ?_⟩
  · rw [finalize_eq, idle, run.folded]
    rfl
  · refine ((TrackerState.driversAt_run run replaces).2 symbol bit driver).trans ?_
    have covers : (fun pending => TrackerState.Covering symbol bit (replayCall pending)) =
        PendingLvalue.Covers symbol bit := by
      funext pending
      exact propext (and_congr_left fun _ => eq_comm)
    simp only [lastMatch_map, covers]
    constructor
    · rintro ⟨_, ⟨pending, rfl, last⟩, member⟩
      exact ⟨pending, last, by simpa [replayCall, DriverList.nodes, eq_comm] using member⟩
    · rintro ⟨pending, last, rfl⟩
      exact ⟨_, ⟨pending, rfl, last⟩, by simp [replayCall, DriverList.nodes]⟩

/-- The node writes the bit last on some control path through the body. -/
def LastAssignedBy (resolveAssignBits : Bool) (start : DataFlowAnalysis) (body : Stmt)
    (symbol : ValueSymbol) (bit : Int) (node : NodeRef) : Prop :=
  ∃ path ∈ body.paths, ∃ position,
    LastMatch (body.AssignsAt resolveAssignBits symbol bit) path position ∧
      WrittenAt resolveAssignBits start body position symbol bit node

/--
At the end of the analysis the drivers of each bit are the nodes that write it
last on the control paths through the body.
-/
def DriversAreLastAssignments (resolveAssignBits : Bool) (start : DataFlowAnalysis) (body : Stmt)
    (walked : DataFlowAnalysis) : Prop :=
  ∃ final, walked.finalize = some final ∧ ∀ symbol bit driver,
    driver ∈ final.tracked.driversAt symbol bit ↔
      ∃ node, driver = some node ∧
        LastAssignedBy resolveAssignBits start body symbol bit node

/--
In every body of non-blocking assignments and non-constant branches whose replay
reaches across no shared list, the drivers are the last assignments of the
control paths if and only if every path that assigns a bit runs through the
assignment to it that is last in the text.
-/
theorem driversAreLastAssignments_iff (resolveAssignBits : Bool) (task : Nat)
    (externalNode : Option NodeRef) {body : Stmt} (nonBlocking : body.NonBlocking)
    {walked : DataFlowAnalysis}
    (walk : handleStmt resolveAssignBits body (initial task externalNode) = some walked)
    (separated : ReplaySeparated walked) :
    DriversAreLastAssignments resolveAssignBits (initial task externalNode) body walked ↔
      body.PathsEndAlike resolveAssignBits := by
  obtain ⟨added, queue⟩ := handleStmt_queues nonBlocking (walking_initial task externalNode) rfl
    walk
  obtain ⟨final, finalized, drivers⟩ := finalize_replays queue.queues.tracked separated
  have queued : walked.pendingLValues = added := queue.queues.pendingLValues
  simp only [queued, queue.last] at drivers
  have onPath {symbol : ValueSymbol} {bit : Int} {last : Position}
      (inText : LastMatch (body.AssignsAt resolveAssignBits symbol bit) body.positions last)
      {path : List Position} (member : path ∈ body.paths) (through : last ∈ path)
      {position : Position}
      (ends : LastMatch (body.AssignsAt resolveAssignBits symbol bit) path position) :
      last = position :=
    (Stmt.lastMatch_path member inText through).unique ends
  constructor
  · rintro ⟨_, again, exact_⟩ symbol bit last inText path member assigns
    obtain rfl := Option.some.inj (finalized.symm.trans again)
    obtain ⟨position, ends⟩ := exists_lastMatch assigns
    obtain ⟨node, written⟩ := queue.written symbol bit position ends.holds
    obtain ⟨other, own, same, otherLast, otherWritten⟩ := (drivers symbol bit (some node)).mp
      ((exact_ symbol bit (some node)).mpr ⟨node, rfl, path, member, position, ends, written⟩)
    obtain rfl := Option.some.inj same
    obtain rfl := inText.unique otherLast
    rw [queue.once symbol bit last position node otherWritten written]
    exact ends.mem
  · intro alike
    refine ⟨final, finalized, fun symbol bit driver => ?_⟩
    rw [drivers]
    constructor
    · rintro ⟨last, node, rfl, inText, written⟩
      obtain ⟨path, member, through⟩ := Stmt.exists_path inText.mem
      exact ⟨node, rfl, path, member, last, Stmt.lastMatch_path member inText through, written⟩
    · rintro ⟨node, rfl, path, member, position, ends, written⟩
      have assigned := (Stmt.sublist_positions member).subset ends.mem
      obtain ⟨last, inText⟩ := exists_lastMatch ⟨position, assigned, ends.holds⟩
      have through := alike symbol bit last inText path member ⟨position, ends.mem, ends.holds⟩
      obtain rfl := onPath inText member through ends
      exact ⟨last, node, rfl, inText, written⟩

/-- The constant `4'b0`. -/
def resetValue : ConstantValue := .integer ⟨[.zero, .zero, .zero, .zero]⟩

/-- `t[3:0] <= 0;` -/
def resetAssignment : AssignmentExpression where
  isBlocking := false
  left := .value .literal (lowBits signal 3)
  right := .literal
  lhsList := [⟨0, 4, [.lsp (lowBits signal 3) [] 0]⟩]
  rhsList := [⟨0, 4, [.constant resetValue 0 none]⟩]

/-- `if (u) t <= 0; else t <= t + 1;` -/
def resetOrCount : Stmt :=
  .seq (.decide .conditional none (.value .literal (lowBits otherSignal 3)))
    (.either none false (.assign resetAssignment)
      (.assign { incrementAssignment with isBlocking := false }))

theorem resetOrCount_walked :
    (handleStmt true resetOrCount (initial 0 none)).isSome := by
  decide +kernel

/-- The analysis after the walk of the body. -/
def resetOrCountWalked : DataFlowAnalysis :=
  (handleStmt true resetOrCount (initial 0 none)).get resetOrCount_walked

theorem driversAreLastAssignments_iff_resetOrCount :
    DriversAreLastAssignments true (initial 0 none) resetOrCount resetOrCountWalked ↔
      resetOrCount.PathsEndAlike true := by
  have run : GuardedRun TrackerState.step TrackerState.Writable {}
      (resetOrCountWalked.pendingLValues.map replayCall)
      (((resetOrCountWalked.pendingLValues.map replayCall).foldlM TrackerState.step {}).getD {}) :=
    GuardedRun.of_foldlM (by decide +kernel)
  exact driversAreLastAssignments_iff true 0 none
    (show resetOrCount.NonBlocking from ⟨trivial, rfl, rfl, rfl⟩)
    (Option.some_get resetOrCount_walked).symm ⟨_, run⟩

/-- The node of the reset arm writes `t` last on its path and does not drive it. -/
theorem resetOrCount_loses_reset :
    ¬ DriversAreLastAssignments true (initial 0 none) resetOrCount resetOrCountWalked := by
  rintro ⟨final, finalized, drivers⟩
  let node : NodeRef := ⟨0, .assignment, 1⟩
  let before := (stateAt true resetOrCount [.second, .first] (initial 0 none)).getD {}
  let steps := assignmentSteps true before resetAssignment
  let entered := ((steps.take 1).foldlM step (assignmentStart true before resetAssignment)).getD {}
  have written : WrittenAt true (initial 0 none) resetOrCount [.second, .first] signal 0 node := by
    refine ⟨steps.take 1, signal, 0, ⟨0, 3⟩, steps.drop 2, entered,
      ⟨.assign resetAssignment, before, rfl, by decide +kernel, by decide +kernel,
        by decide +kernel⟩, by decide +kernel, rfl, by decide, ?_⟩
    rintro ⟨_, _, _, member, _⟩
    have onlyConstant : steps.drop 2 = [.constant resetValue 0 none
        ⟨0, 4, resetAssignment.lhsList.flatMap (·.sources),
          resetAssignment.rhsList.flatMap (·.sources)⟩ none] := by decide +kernel
    rw [onlyConstant] at member
    cases List.mem_singleton.mp member
  have assigns : resetAssignment.Assigns true signal 0 :=
    ⟨signal, 0, ⟨0, 3⟩, by decide +kernel, rfl, by decide⟩
  have last : LastMatch (resetOrCount.AssignsAt true signal 0) [[.first], [.second, .first]]
      [.second, .first] :=
    ⟨[[.first]], [], rfl, ⟨resetAssignment, rfl, assigns⟩, by simp⟩
  have drives := (drivers signal 0 (some node)).mpr
    ⟨node, rfl, [[.first], [.second, .first]], by decide, _, last, written⟩
  have lost : (resetOrCountWalked.finalize.map fun final =>
      decide (some node ∈ final.tracked.driversAt signal 0)) = some false := by decide +kernel
  rw [finalized, Option.map_some, Option.some.injEq, decide_eq_false_iff_not] at lost
  exact lost drives

end DataFlowAnalysis

end SlangNetlist
