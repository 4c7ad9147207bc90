import SlangNetlist.Analysis.ControlCarry
import SlangNetlist.Analysis.NonBlockingWrites

/-!
# Control dependence in the arms of a decision

A decision controls the assignment nodes of its arms exactly if each assignment
is come to with the decision, or a condition below it, pending.
-/

namespace SlangNetlist

namespace Stmt

/-- The part of a statement at a position. -/
def partAt : Stmt → Position → Option Stmt
  | body, [] => some body
  | .seq first _, .first :: rest => first.partAt rest
  | .seq _ second, .second :: rest => second.partAt rest
  | .either _ _ first _, .first :: rest => first.partAt rest
  | .either _ _ _ second, .second :: rest => second.partAt rest
  | _, _ :: _ => none

/-- In the arms of every decision, all assignments are governed. -/
def ArmsGoverned (resolveAssignBits : Bool) (body : Stmt) : Prop :=
  ∀ position kind location head dead intoFirst first second,
    body.partAt position =
      some (.seq (.decide kind location head) (.either dead intoFirst first second)) →
    (Stmt.either dead intoFirst first second).Governed resolveAssignBits .kept

end Stmt

namespace DataFlowAnalysis

variable {resolveAssignBits : Bool} {base dfa middle next : DataFlowAnalysis}
  {made : List BuilderCall} {calls : List BuilderCall} {decision : NodeRef} {carry : Carry}
  {allowed : AssignmentExpression → Prop}

/-- The assignment makes the assignment node. -/
def Creates (dfa next : DataFlowAnalysis) (node : NodeRef) : Prop :=
  ∃ made location, next.calls = dfa.calls ++ made ∧ .addNode node location none ∈ made ∧
    node.kind = .assignment

/-- The assignment at a position makes the assignment node. -/
def CreatedAt (resolveAssignBits : Bool) (start : DataFlowAnalysis) (body : Stmt)
    (position : Position) (node : NodeRef) : Prop :=
  ∃ expr before after, AssignmentAt resolveAssignBits start body position expr before ∧
    before.handleAssignment resolveAssignBits expr = some after ∧ before.Creates after node

/-- The analysis as it comes to the part at a position. -/
def enterAt (resolveAssignBits : Bool) : Stmt → Position → DataFlowAnalysis →
    Option DataFlowAnalysis
  | _, [], dfa => some dfa
  | .seq first _, .first :: rest, dfa => enterAt resolveAssignBits first rest dfa
  | .seq first second, .second :: rest, dfa => do
      let dfa ← handleStmt resolveAssignBits first dfa
      enterAt resolveAssignBits second rest dfa
  | .either dead _ first _, .first :: rest, dfa =>
      enterAt resolveAssignBits first rest (dfa.setState (dfa.state.armState dead .first))
  | .either dead _ first second, .second :: rest, dfa => do
      let afterFirst ← handleStmt resolveAssignBits first
        (dfa.setState (dfa.state.armState dead .first))
      enterAt resolveAssignBits second rest
        (afterFirst.setState (dfa.state.armState dead .second))
  | _, _ :: _, _ => none

/--
Every assignment node that is made in an arm of a decision is reached from the
node of the decision, along the edges from pending conditions and into merges.
-/
def ControlsArms (resolveAssignBits : Bool) (start : DataFlowAnalysis) (body : Stmt)
    (final : DataFlowAnalysis) : Prop :=
  ∀ position kind location head dead intoFirst first second before entered leaf node,
    body.partAt position =
      some (.seq (.decide kind location head) (.either dead intoFirst first second)) →
    enterAt resolveAssignBits body position start = some before →
    handleStmt resolveAssignBits (.decide kind location head) before = some entered →
    CreatedAt resolveAssignBits entered (.either dead intoFirst first second) leaf node →
    Controls final.calls (before.createNode kind location none).1 node

/-! ## Statements -/

/-- What the walk of a statement does to the pending condition and to the control edges. -/
structure Passes (resolveAssignBits : Bool) (body : Stmt) (dfa next : DataFlowAnalysis) :
    Prop where
  appends : ∃ made, Appends dfa next made
  grounded : next.Grounded
  carries : ∀ decision : NodeRef, decision.serial < dfa.serial →
    Carries decision dfa next.calls next.state.condition (body.carry resolveAssignBits)
  created : ∀ position node, CreatedAt resolveAssignBits dfa body position node →
    node.serial < next.serial

theorem Attaches.edges_grounded {pending : Option NodeRef} (grounded : dfa.Grounded)
    (attaches : Attaches pending dfa next made)
    (old : ∀ node, pending = some node → node.serial < dfa.serial) :
    ∀ source target, ControlEdge next.calls source target →
      source.serial < next.serial ∧ target.serial < next.serial := by
  intro source target edge
  rw [attaches.calls] at edge
  rcases controlEdge_append.mp edge with early | late
  · obtain ⟨sourceOld, targetOld⟩ := grounded.edges source target early
    exact ⟨sourceOld.trans_le attaches.serial, targetOld.trans_le attaches.serial⟩
  · obtain ⟨same, _, targetNew⟩ := attaches.edges source target late
    exact ⟨(old source same).trans_le attaches.serial, targetNew⟩

/-- The assignment nodes of an assignment are controlled through the pending condition. -/
theorem Attaches.controls_iff (grounded : dfa.Grounded)
    (attaches : Attaches dfa.state.condition dfa next made) {node : NodeRef}
    (creates : dfa.Creates next node) :
    node.serial < next.serial ∧ ∀ decision : NodeRef, decision.serial < dfa.serial →
      (Controls next.calls decision node ↔
        ControlsPending dfa.calls decision dfa.state.condition) := by
  obtain ⟨same, location, calls, member, kind⟩ := creates
  obtain rfl : made = same := List.append_cancel_left (attaches.calls.symm.trans calls)
  obtain ⟨low, high, attached⟩ := attaches.nodes node location member kind
  refine ⟨high, fun decision old => ?_⟩
  have other : node ≠ decision := by
    rintro rfl
    exact absurd old (Nat.not_lt.mpr low)
  rw [controls_iff_of_ne other,
    ← attaches.appends.controlsPending_iff grounded grounded.condition]
  constructor
  · rintro ⟨source, controls, edge⟩
    rw [attaches.calls, controlEdge_append] at edge
    have late := edge.resolve_left fun early =>
      absurd (grounded.edges source node early).2 (Nat.not_lt.mpr low)
    exact ⟨source, (attaches.edges source node late).1, controls⟩
  · rintro ⟨source, pending, controls⟩
    refine ⟨source, controls, ?_⟩
    rw [attaches.calls, controlEdge_append]
    exact Or.inr (attached source pending)

variable {body first second : Stmt} {expr : AssignmentExpression} {position : Position}
  {node : NodeRef} {intoFirst : Bool}

/-- The nodes of a statement that is one assignment. -/
theorem createdAt_assign (handled : dfa.handleAssignment resolveAssignBits expr = some next) :
    CreatedAt resolveAssignBits dfa (.assign expr) position node ↔
      position = [] ∧ dfa.Creates next node := by
  constructor
  · rintro ⟨_, before, after, ⟨_, comes, ⟨found, rfl⟩ | ⟨found, _⟩⟩, ran, creates⟩
    · cases position with
      | nil =>
          cases found
          cases comes
          rw [handled] at ran
          cases ran
          exact ⟨rfl, creates⟩
      | cons side rest => cases found
    · cases position <;> cases found
  · rintro ⟨rfl, creates⟩
    exact ⟨expr, dfa, next, ⟨dfa, rfl, Or.inl ⟨rfl, rfl⟩⟩, handled, creates⟩

/-- Statements that are not assignments make no assignment nodes. -/
theorem not_createdAt (body : Stmt)
    (none : ∀ position expr, body.leafAt position ≠ some (.assign expr) ∧
      body.leafAt position ≠ some (.force expr)) :
    ¬ CreatedAt resolveAssignBits dfa body position node := by
  rintro ⟨expr, _, _, ⟨_, _, ⟨found, _⟩ | ⟨found, _⟩⟩, _⟩
  · exact (none position expr).1 found
  · exact (none position expr).2 found

theorem createdAt_seq (handled : handleStmt resolveAssignBits first dfa = some middle) :
    CreatedAt resolveAssignBits dfa (.seq first second) position node ↔
      (∃ rest, position = .first :: rest ∧ CreatedAt resolveAssignBits dfa first rest node) ∨
        ∃ rest, position = .second :: rest ∧
          CreatedAt resolveAssignBits middle second rest node := by
  cases position with
  | nil =>
      refine iff_of_false ?_ (by simp)
      rintro ⟨_, _, _, ⟨_, comes, _⟩, _⟩
      cases comes
  | cons side rest =>
      have into : stateAt resolveAssignBits (.seq first second) (.second :: rest) dfa =
          stateAt resolveAssignBits second rest middle := by
        rw [stateAt, handled]
        rfl
      cases side with
      | first => simp [CreatedAt, AssignmentAt, stateAt, Stmt.leafAt]
      | second => simp [CreatedAt, AssignmentAt, into, Stmt.leafAt]

theorem createdAt_either (handled : handleStmt resolveAssignBits first dfa = some middle) :
    CreatedAt resolveAssignBits dfa (.either none intoFirst first second) position node ↔
      (∃ rest, position = .first :: rest ∧ CreatedAt resolveAssignBits dfa first rest node) ∨
        ∃ rest, position = .second :: rest ∧
          CreatedAt resolveAssignBits (middle.setState dfa.state) second rest node := by
  cases position with
  | nil =>
      refine iff_of_false ?_ (by simp)
      rintro ⟨_, _, _, ⟨_, comes, _⟩, _⟩
      cases comes
  | cons side rest =>
      have intoFirstArm : stateAt resolveAssignBits (.either none intoFirst first second)
          (.first :: rest) dfa = stateAt resolveAssignBits first rest dfa := rfl
      have intoSecondArm : stateAt resolveAssignBits (.either none intoFirst first second)
          (.second :: rest) dfa =
          stateAt resolveAssignBits second rest (middle.setState dfa.state) := by
        change Option.bind (handleStmt resolveAssignBits first dfa) _ = _
        rw [handled]
        rfl
      cases side with
      | first => simp [CreatedAt, AssignmentAt, intoFirstArm, Stmt.leafAt]
      | second => simp [CreatedAt, AssignmentAt, intoSecondArm, Stmt.leafAt]

/-- An assignment, with or without a node. -/
theorem passes_assign (flagged : dfa.isLValue = false) (grounded : dfa.Grounded)
    (handled : dfa.handleAssignment resolveAssignBits expr = some next) :
    Passes resolveAssignBits (.assign expr) dfa next := by
  cases creates : expr.createsNode resolveAssignBits with
  | false =>
      obtain ⟨state, serial, calls⟩ := handleAssignment_silent flagged creates handled
      refine ⟨⟨[], Appends.of_eq calls serial⟩, grounded.of_state calls serial
        (by rw [state]; exact grounded.node) (by rw [state]; exact grounded.condition),
        fun decision _ => ?_, fun position node created => ?_⟩
      · simp only [Stmt.carry, creates]
        exact congrArg AnalysisState.condition state
      · obtain ⟨_, made, location, same, member, _⟩ := (createdAt_assign handled).mp created
        rw [calls] at same
        obtain rfl : [] = made := List.append_cancel_left ((List.append_nil _).trans same)
        cases member
  | true =>
      obtain ⟨made, attaches, used, nodes, _⟩ :=
        handleAssignment_attaches flagged creates handled
      refine ⟨⟨made, attaches.appends⟩, ⟨nodes, fun _ pending => ?_,
        attaches.edges_grounded grounded grounded.condition⟩, fun decision _ => ?_,
        fun position node created => ?_⟩
      · rw [used] at pending
        cases pending
      · simp only [Stmt.carry, creates]
        exact used
      · exact (attaches.controls_iff grounded ((createdAt_assign handled).mp created).2).1

/-- The head of a decision. -/
theorem passes_decide {kind : NodeKind} {location : SourceLocation} {head : Expr}
    (grounded : dfa.Grounded)
    (handled : handleStmt resolveAssignBits (.decide kind location head) dfa = some next) :
    Passes resolveAssignBits (.decide kind location head) dfa next := by
  obtain ⟨made, calls, serial, current, pending, edges⟩ := decide_takes handled
  have appends : Appends dfa next made :=
    ⟨calls, serial.le, fun source target edge => by
      rw [((edges source target).mp edge).2]
      exact le_rfl⟩
  refine ⟨⟨made, appends⟩, ⟨fun node same => ?_, fun node same => ?_, fun source target edge => ?_⟩,
    fun decision old => ?_, fun position node created => ?_⟩
  · cases current.symm.trans same
    exact serial
  · cases pending.symm.trans same
    exact serial
  · rw [calls] at edge
    rcases controlEdge_append.mp edge with early | late
    · obtain ⟨sourceOld, targetOld⟩ := grounded.edges source target early
      exact ⟨sourceOld.trans serial, targetOld.trans serial⟩
    · obtain ⟨same, rfl⟩ := (edges source target).mp late
      exact ⟨(grounded.condition source same).trans serial, serial⟩
  · refine ⟨⟨_, pending, le_rfl⟩, ?_⟩
    have other : (dfa.createNode kind location none).1 ≠ decision := by
      rintro rfl
      exact absurd old (lt_irrefl _)
    have own : ∀ source,
        ControlEdge next.calls source (dfa.createNode kind location none).1 ↔
          dfa.state.condition = some source := by
      intro source
      rw [calls, controlEdge_append, edges, and_iff_left rfl]
      exact or_iff_right fun early => absurd (grounded.edges _ _ early).2 (lt_irrefl _)
    rw [pending]
    constructor
    · rintro ⟨_, same, controls⟩
      cases same
      obtain ⟨source, reached, edge⟩ := (controls_iff_of_ne other).mp controls
      exact ⟨source, (own source).mp edge, reached⟩
    · rintro ⟨source, found, reached⟩
      exact ⟨_, rfl, (controls_iff_of_ne other).mpr ⟨source, reached, (own source).mpr found⟩⟩
  · refine absurd created (not_createdAt _ fun position expr => ?_)
    cases position <;> simp [Stmt.leafAt]

theorem Walking.after (walking : Walking dfa) (built : body.Built allowed)
    (handled : handleStmt resolveAssignBits body dfa = some next) : Walking next := by
  obtain ⟨same, reached⟩ :=
    SameBlock.handleStmt body walking.isLValue walking.prohibitLValue handled
  exact walking.of_sameBlock same (by rw [reached, walking.reachable, built.leaves])

/-- The second arm starts in the state in which the first one started. -/
theorem Walking.secondArm (walking : Walking dfa)
    (handled : handleStmt resolveAssignBits first dfa = some middle) :
    Walking (middle.setState dfa.state) :=
  walking.of_sameBlock ((SameBlock.handleStmt first walking.isLValue walking.prohibitLValue
    handled).1.trans (SameBlock.setState middle dfa.state)) walking.reachable

theorem handleStmt_seq_eq :
    handleStmt resolveAssignBits (.seq first second) dfa = some next ↔
      ∃ middle, handleStmt resolveAssignBits first dfa = some middle ∧
        handleStmt resolveAssignBits second middle = some next := by
  simp only [handleStmt, Option.bind_eq_bind, Option.bind_eq_some_iff]

/-- The two arms and their join. -/
theorem handleStmt_either_eq :
    handleStmt resolveAssignBits (.either none intoFirst first second) dfa = some next ↔
      ∃ afterFirst, handleStmt resolveAssignBits first dfa = some afterFirst ∧
        ∃ afterSecond,
          handleStmt resolveAssignBits second (afterFirst.setState dfa.state) = some afterSecond ∧
          (if intoFirst then afterSecond.joinState afterFirst.state afterSecond.state
            else afterSecond.joinState afterSecond.state afterFirst.state) = some next := by
  simp only [handleStmt, Option.bind_eq_bind, Option.bind_eq_some_iff]
  exact Iff.rfl

/-- The second arm goes on with the calls of the first one. -/
theorem Passes.secondArm (grounded : dfa.Grounded)
    (firstPasses : Passes resolveAssignBits first dfa middle) :
    dfa.serial ≤ middle.serial ∧ (middle.setState dfa.state).Grounded := by
  obtain ⟨_, appends⟩ := firstPasses.appends
  refine ⟨appends.serial, firstPasses.grounded.of_state rfl rfl (fun node same => ?_)
    fun node same => ?_⟩
  · exact (grounded.node node same).trans_le appends.serial
  · exact (grounded.condition node same).trans_le appends.serial

/-- The join of two walked arms. -/
theorem passes_either {afterFirst afterSecond : DataFlowAnalysis} (grounded : dfa.Grounded)
    (firstArm : handleStmt resolveAssignBits first dfa = some afterFirst)
    (firstPasses : Passes resolveAssignBits first dfa afterFirst)
    (secondPasses : Passes resolveAssignBits second (afterFirst.setState dfa.state) afterSecond)
    (reached : afterFirst.state.reachable = afterSecond.state.reachable)
    (joined : (if intoFirst then afterSecond.joinState afterFirst.state afterSecond.state
      else afterSecond.joinState afterSecond.state afterFirst.state) = some next) :
    Passes resolveAssignBits (.either none intoFirst first second) dfa next ∧
      ∃ made, Appends afterSecond next made := by
  obtain ⟨toSecond, secondGrounded⟩ := Passes.secondArm grounded firstPasses
  obtain ⟨firstMade, firstAppends⟩ := firstPasses.appends
  obtain ⟨secondMade, secondAppends⟩ := secondPasses.appends
  have firstToSecond : Appends afterFirst afterSecond secondMade :=
    ⟨secondAppends.calls, secondAppends.serial, secondAppends.fresh⟩
  have serial := firstAppends.serial.trans firstToSecond.serial
  have firstNode : ∀ node, afterFirst.state.node = some node → node.serial < afterSecond.serial :=
    fun node same => (firstPasses.grounded.node node same).trans_le firstToSecond.serial
  have firstCondition : ∀ node, afterFirst.state.condition = some node →
      node.serial < afterSecond.serial :=
    fun node same => (firstPasses.grounded.condition node same).trans_le firstToSecond.serial
  have firstCarries : ∀ decision : NodeRef, decision.serial < dfa.serial →
      Carries decision dfa afterSecond.calls afterFirst.state.condition
        (first.carry resolveAssignBits) := fun decision old =>
    (firstPasses.carries decision old).later firstToSecond firstPasses.grounded
      firstPasses.grounded.condition fun node same =>
        (grounded.condition node same).trans_le firstAppends.serial
  have secondCarries : ∀ decision : NodeRef, decision.serial < dfa.serial →
      Carries decision dfa afterSecond.calls afterSecond.state.condition
        (second.carry resolveAssignBits) := fun decision old =>
    (secondPasses.carries decision (old.trans_le toSecond)).rebase rfl toSecond
  -- A new condition of the second arm is no node of the first one.
  have distinct : ∀ node, afterFirst.state.condition = some node →
      afterSecond.state.condition = some node → node.serial < dfa.serial := by
    intro node firstPending secondPending
    have old := firstPasses.grounded.condition node firstPending
    rcases (secondPasses.carries node old).fresh_or secondPending with before | new
    · exact grounded.condition node before
    · exact absurd old (Nat.not_lt.mpr new)
  have created {final : DataFlowAnalysis} (later : afterSecond.serial ≤ final.serial) :
      ∀ position node,
        CreatedAt resolveAssignBits dfa (.either none intoFirst first second) position node →
          node.serial < final.serial := by
    intro position node created
    rcases (createdAt_either firstArm).mp created with ⟨rest, _, inner⟩ | ⟨rest, _, inner⟩
    · exact (firstPasses.created rest node inner).trans_le
        (firstToSecond.serial.trans later)
    · exact (secondPasses.created rest node inner).trans_le later
  have whole := firstAppends.trans firstToSecond
  cases intoFirst with
  | true =>
      obtain ⟨⟨made, appends⟩, after, carries⟩ := joinState_carries secondPasses.grounded reached
        joined firstNode secondPasses.grounded.node firstCondition secondPasses.grounded.condition
        grounded.condition serial distinct
      exact ⟨⟨⟨_, whole.trans appends⟩, after, fun decision old =>
        carries decision old (firstCarries decision old) (secondCarries decision old),
        created appends.serial⟩, made, appends⟩
  | false =>
      obtain ⟨⟨made, appends⟩, after, carries⟩ := joinState_carries secondPasses.grounded
        reached.symm joined secondPasses.grounded.node firstNode secondPasses.grounded.condition
        firstCondition grounded.condition serial fun node second first => distinct node first second
      refine ⟨⟨⟨_, whole.trans appends⟩, after, fun decision old => ?_, created appends.serial⟩,
        made, appends⟩
      rw [Stmt.carry, Carry.join_comm]
      exact carries decision old (secondCarries decision old) (firstCarries decision old)

theorem handleStmt_passes (built : body.Built allowed) (walking : Walking dfa)
    (grounded : dfa.Grounded) (handled : handleStmt resolveAssignBits body dfa = some next) :
    Passes resolveAssignBits body dfa next := by
  induction body generalizing dfa next with
  | skip =>
      cases handled
      refine ⟨⟨[], Appends.refl _⟩, grounded, fun _ _ => rfl, fun position node created => ?_⟩
      refine absurd created (not_createdAt _ fun position expr => ?_)
      cases position <;> simp [Stmt.leafAt]
  | assign expr => exact passes_assign walking.isLValue grounded handled
  | force | jump => cases built
  | decide kind location head => exact passes_decide grounded handled
  | seq first second firstIh secondIh =>
      obtain ⟨middle, front, back⟩ := handleStmt_seq_eq.mp handled
      have firstPasses := firstIh built.1 walking grounded front
      have secondPasses := secondIh built.2 (walking.after built.1 front) firstPasses.grounded back
      obtain ⟨firstMade, firstAppends⟩ := firstPasses.appends
      obtain ⟨secondMade, secondAppends⟩ := secondPasses.appends
      refine ⟨⟨_, firstAppends.trans secondAppends⟩, secondPasses.grounded,
        fun decision old => ?_, fun position node created => ?_⟩
      · exact ((firstPasses.carries decision old).later secondAppends firstPasses.grounded
          firstPasses.grounded.condition fun node same =>
            (grounded.condition node same).trans_le firstAppends.serial).andThen
          firstAppends.serial (secondPasses.carries decision (old.trans_le firstAppends.serial))
      · rcases (createdAt_seq front).mp created with ⟨rest, _, inner⟩ | ⟨rest, _, inner⟩
        · exact (firstPasses.created rest node inner).trans_le secondAppends.serial
        · exact secondPasses.created rest node inner
  | either dead intoFirst first second firstIh secondIh =>
      obtain ⟨rfl, firstBuilt, secondBuilt⟩ := built
      obtain ⟨afterFirst, firstArm, afterSecond, secondArm, joined⟩ :=
        handleStmt_either_eq.mp handled
      have firstPasses := firstIh firstBuilt walking grounded firstArm
      have secondWalking := walking.secondArm firstArm
      have secondPasses := secondIh secondBuilt secondWalking
        (Passes.secondArm grounded firstPasses).2 secondArm
      have reached : afterFirst.state.reachable = afterSecond.state.reachable := by
        rw [(walking.after firstBuilt firstArm).reachable,
          (secondWalking.after secondBuilt secondArm).reachable]
      exact (passes_either grounded firstArm firstPasses secondPasses reached joined).1

/-! ## Walked parts -/

/-- The second of two statements goes on after the first. -/
theorem seq_passes (built : (Stmt.seq first second).Built allowed) (walking : Walking dfa)
    (grounded : dfa.Grounded)
    (handled : handleStmt resolveAssignBits (.seq first second) dfa = some next) :
    ∃ middle, handleStmt resolveAssignBits first dfa = some middle ∧
      handleStmt resolveAssignBits second middle = some next ∧
      Passes resolveAssignBits first dfa middle ∧ Walking middle ∧
      ∃ made, Appends middle next made := by
  obtain ⟨middle, front, back⟩ := handleStmt_seq_eq.mp handled
  have firstPasses := handleStmt_passes built.1 walking grounded front
  have secondWalking := walking.after built.1 front
  exact ⟨middle, front, back, firstPasses, secondWalking,
    (handleStmt_passes built.2 secondWalking firstPasses.grounded back).appends⟩

/-- The walks of the two arms, and the calls made after each of them. -/
structure ArmsWalked (resolveAssignBits : Bool) (first second : Stmt)
    (dfa afterFirst afterSecond next : DataFlowAnalysis) : Prop where
  firstArm : handleStmt resolveAssignBits first dfa = some afterFirst
  secondArm : handleStmt resolveAssignBits second (afterFirst.setState dfa.state) =
    some afterSecond
  firstPasses : Passes resolveAssignBits first dfa afterFirst
  secondPasses : Passes resolveAssignBits second (afterFirst.setState dfa.state) afterSecond
  walking : Walking (afterFirst.setState dfa.state)
  grounded : (afterFirst.setState dfa.state).Grounded
  serial : dfa.serial ≤ afterFirst.serial
  firstAppends : ∃ made, Appends afterFirst next made
  secondAppends : ∃ made, Appends afterSecond next made

theorem exists_armsWalked (built : (Stmt.either none intoFirst first second).Built allowed)
    (walking : Walking dfa) (grounded : dfa.Grounded)
    (handled : handleStmt resolveAssignBits (.either none intoFirst first second) dfa =
      some next) :
    ∃ afterFirst afterSecond,
      ArmsWalked resolveAssignBits first second dfa afterFirst afterSecond next := by
  obtain ⟨_, firstBuilt, secondBuilt⟩ := built
  obtain ⟨afterFirst, firstArm, afterSecond, secondArm, joined⟩ := handleStmt_either_eq.mp handled
  have firstPasses := handleStmt_passes firstBuilt walking grounded firstArm
  have secondWalking := walking.secondArm firstArm
  obtain ⟨serial, secondGrounded⟩ := Passes.secondArm grounded firstPasses
  have secondPasses := handleStmt_passes secondBuilt secondWalking secondGrounded secondArm
  have reached : afterFirst.state.reachable = afterSecond.state.reachable := by
    rw [(walking.after firstBuilt firstArm).reachable,
      (secondWalking.after secondBuilt secondArm).reachable]
  obtain ⟨joinMade, joinAppends⟩ :=
    (passes_either grounded firstArm firstPasses secondPasses reached joined).2
  obtain ⟨secondMade, secondAppends⟩ := secondPasses.appends
  have firstToNext : Appends afterFirst next (secondMade ++ joinMade) :=
    Appends.trans ⟨secondAppends.calls, secondAppends.serial, secondAppends.fresh⟩ joinAppends
  exact ⟨afterFirst, afterSecond, firstArm, secondArm, firstPasses, secondPasses, secondWalking,
    secondGrounded, serial, ⟨_, firstToNext⟩, ⟨_, joinAppends⟩⟩

/-- What controls the assignment nodes of a statement is settled once it is walked. -/
theorem Passes.controls_iff (passes : Passes resolveAssignBits body dfa middle)
    (appends : ∃ made, Appends middle next made) :
    (∀ position node, CreatedAt resolveAssignBits dfa body position node →
        Controls next.calls decision node) ↔
      ∀ position node, CreatedAt resolveAssignBits dfa body position node →
        Controls middle.calls decision node := by
  obtain ⟨_, appends⟩ := appends
  exact forall_congr' fun position => forall_congr' fun node => forall_congr' fun created =>
    appends.controls_iff passes.grounded (passes.created position node created)

theorem forall_createdAt_seq {Holds : NodeRef → Prop}
    (front : handleStmt resolveAssignBits first dfa = some middle) :
    (∀ position node, CreatedAt resolveAssignBits dfa (.seq first second) position node →
        Holds node) ↔
      (∀ position node, CreatedAt resolveAssignBits dfa first position node → Holds node) ∧
        ∀ position node, CreatedAt resolveAssignBits middle second position node →
          Holds node := by
  constructor
  · intro holds
    exact ⟨fun rest node created =>
        holds _ node ((createdAt_seq front).mpr (Or.inl ⟨rest, rfl, created⟩)),
      fun rest node created =>
        holds _ node ((createdAt_seq front).mpr (Or.inr ⟨rest, rfl, created⟩))⟩
  · rintro ⟨inFirst, inSecond⟩ position node created
    rcases (createdAt_seq front).mp created with ⟨rest, _, inner⟩ | ⟨rest, _, inner⟩
    · exact inFirst rest node inner
    · exact inSecond rest node inner

theorem forall_createdAt_either {Holds : NodeRef → Prop}
    (firstArm : handleStmt resolveAssignBits first dfa = some middle) :
    (∀ position node, CreatedAt resolveAssignBits dfa (.either none intoFirst first second)
        position node → Holds node) ↔
      (∀ position node, CreatedAt resolveAssignBits dfa first position node → Holds node) ∧
        ∀ position node, CreatedAt resolveAssignBits (middle.setState dfa.state) second
          position node → Holds node := by
  constructor
  · intro holds
    exact ⟨fun rest node created =>
        holds _ node ((createdAt_either firstArm).mpr (Or.inl ⟨rest, rfl, created⟩)),
      fun rest node created =>
        holds _ node ((createdAt_either firstArm).mpr (Or.inr ⟨rest, rfl, created⟩))⟩
  · rintro ⟨inFirst, inSecond⟩ position node created
    rcases (createdAt_either firstArm).mp created with ⟨rest, _, inner⟩ | ⟨rest, _, inner⟩
    · exact inFirst rest node inner
    · exact inSecond rest node inner

/-! ## The arms of a decision -/

/-- The node of an assignment is controlled if and only if the pending condition is. -/
theorem controls_assign_iff (flagged : dfa.isLValue = false) (grounded : dfa.Grounded)
    (old : decision.serial < dfa.serial)
    (handled : dfa.handleAssignment resolveAssignBits expr = some next) :
    (∀ position node, CreatedAt resolveAssignBits dfa (.assign expr) position node →
        Controls next.calls decision node) ↔
      (expr.createsNode resolveAssignBits = true →
        ControlsPending dfa.calls decision dfa.state.condition) := by
  cases creates : expr.createsNode resolveAssignBits with
  | false =>
      obtain ⟨_, _, calls⟩ := handleAssignment_silent flagged creates handled
      refine iff_of_true (fun position node created => ?_) (by simp)
      obtain ⟨_, made, location, same, member, _⟩ := (createdAt_assign handled).mp created
      rw [calls] at same
      obtain rfl : [] = made := List.append_cancel_left ((List.append_nil _).trans same)
      cases member
  | true =>
      obtain ⟨made, attaches, _, _, node, member, kind⟩ :=
        handleAssignment_attaches flagged creates handled
      constructor
      · intro controls _
        have own : dfa.Creates next node := ⟨made, _, attaches.calls, member, kind⟩
        exact ((attaches.controls_iff grounded own).2 decision old).mp
          (controls [] node ((createdAt_assign handled).mpr ⟨rfl, own⟩))
      · intro pending position other created
        exact ((attaches.controls_iff grounded ((createdAt_assign handled).mp created).2).2
          decision old).mpr (pending rfl)

/-- All assignment nodes of a statement are controlled if and only if it is governed. -/
theorem controls_iff_governed (built : body.Built allowed) (walking : Walking dfa)
    (grounded : dfa.Grounded) (baseOld : ∀ node, base.state.condition = some node →
      node.serial < base.serial) (serial : base.serial ≤ dfa.serial)
    (start : base.state.condition = some decision)
    (carries : Carries decision base dfa.calls dfa.state.condition carry)
    (handled : handleStmt resolveAssignBits body dfa = some next) :
    (∀ position node, CreatedAt resolveAssignBits dfa body position node →
      Controls next.calls decision node) ↔ body.Governed resolveAssignBits carry := by
  have old : decision.serial < dfa.serial := (baseOld decision start).trans_le serial
  induction body generalizing dfa next carry with
  | skip | decide =>
      refine iff_of_true (fun position node created => ?_) trivial
      refine absurd created (not_createdAt _ fun position expr => ?_)
      cases position <;> simp [Stmt.leafAt]
  | assign expr =>
      rw [controls_assign_iff walking.isLValue grounded old handled, carries.governs_iff start]
      rfl
  | force | jump => cases built
  | seq first second firstIh secondIh =>
      obtain ⟨middle, front, back, firstPasses, secondWalking, secondAppends⟩ :=
        seq_passes built walking grounded handled
      obtain ⟨firstMade, firstAppends⟩ := firstPasses.appends
      have later : Carries decision base middle.calls middle.state.condition
          (carry.andThen (first.carry resolveAssignBits)) :=
        (carries.later firstAppends grounded grounded.condition fun node same =>
          (baseOld node same).trans_le serial).andThen serial (firstPasses.carries decision old)
      rw [forall_createdAt_seq front, firstPasses.controls_iff secondAppends]
      exact and_congr (firstIh built.1 walking grounded serial carries front old)
        (secondIh built.2 secondWalking firstPasses.grounded (serial.trans firstAppends.serial)
          later back (old.trans_le firstAppends.serial))
  | either dead intoFirst first second firstIh secondIh =>
      obtain ⟨rfl, firstBuilt, secondBuilt⟩ := id built
      obtain ⟨afterFirst, afterSecond, arms⟩ := exists_armsWalked built walking grounded handled
      obtain ⟨firstMade, firstAppends⟩ := arms.firstPasses.appends
      have later : Carries decision base afterFirst.calls dfa.state.condition carry :=
        carries.later firstAppends grounded grounded.condition fun node same =>
          (baseOld node same).trans_le serial
      rw [forall_createdAt_either arms.firstArm, arms.firstPasses.controls_iff arms.firstAppends,
        arms.secondPasses.controls_iff arms.secondAppends]
      exact and_congr (firstIh firstBuilt walking grounded serial carries arms.firstArm old)
        (@secondIh (afterFirst.setState dfa.state) afterSecond carry secondBuilt arms.walking
          arms.grounded (serial.trans arms.serial) later arms.secondArm (old.trans_le arms.serial))

/-- The walk of a part of a body. -/
theorem partAt_passes {part : Stmt} (built : body.Built allowed) (walking : Walking dfa)
    (grounded : dfa.Grounded) (found : body.partAt position = some part)
    (handled : handleStmt resolveAssignBits body dfa = some next) :
    ∃ before after made, enterAt resolveAssignBits body position dfa = some before ∧
      handleStmt resolveAssignBits part before = some after ∧ part.Built allowed ∧
      Walking before ∧ before.Grounded ∧ Appends after next made := by
  induction body generalizing dfa next position with
  | skip | assign | decide =>
      cases position with
      | nil =>
          cases found
          exact ⟨dfa, next, [], rfl, handled, built, walking, grounded, Appends.refl next⟩
      | cons side rest => simp [Stmt.partAt] at found
  | force | jump => cases built
  | seq first second firstIh secondIh =>
      obtain ⟨middle, front, back, firstPasses, secondWalking, _, secondAppends⟩ :=
        seq_passes built walking grounded handled
      match position with
      | [] =>
          cases found
          exact ⟨dfa, next, [], rfl, handled, built, walking, grounded, Appends.refl next⟩
      | .first :: rest =>
          obtain ⟨before, after, made, comes, ran, partBuilt, partWalking, partGrounded, appends⟩ :=
            firstIh built.1 walking grounded found front
          exact ⟨before, after, _, comes, ran, partBuilt, partWalking, partGrounded,
            appends.trans secondAppends⟩
      | .second :: rest =>
          obtain ⟨before, after, made, comes, walked⟩ :=
            secondIh built.2 secondWalking firstPasses.grounded found back
          refine ⟨before, after, made, ?_, walked⟩
          rw [enterAt, front]
          exact comes
  | either dead intoFirst first second firstIh secondIh =>
      obtain ⟨rfl, firstBuilt, secondBuilt⟩ := id built
      obtain ⟨afterFirst, afterSecond, arms⟩ := exists_armsWalked built walking grounded handled
      obtain ⟨_, firstAppends⟩ := arms.firstAppends
      obtain ⟨_, secondAppends⟩ := arms.secondAppends
      match position with
      | [] =>
          cases found
          exact ⟨dfa, next, [], rfl, handled, built, walking, grounded, Appends.refl next⟩
      | .first :: rest =>
          obtain ⟨before, after, made, comes, ran, partBuilt, partWalking, partGrounded, appends⟩ :=
            firstIh firstBuilt walking grounded found arms.firstArm
          exact ⟨before, after, _, comes, ran, partBuilt, partWalking, partGrounded,
            appends.trans firstAppends⟩
      | .second :: rest =>
          obtain ⟨before, after, made, comes, ran, partBuilt, partWalking, partGrounded, appends⟩ :=
            @secondIh (afterFirst.setState dfa.state) afterSecond rest secondBuilt arms.walking
              arms.grounded found arms.secondArm
          refine ⟨before, after, _, ?_, ran, partBuilt, partWalking, partGrounded,
            appends.trans secondAppends⟩
          change Option.bind (handleStmt resolveAssignBits first dfa) _ = _
          rw [arms.firstArm]
          exact comes

/-- The end of the analysis makes no calls. -/
theorem finalize_appends (finalized : dfa.finalize = some next) : Appends dfa next [] := by
  simp only [finalize, processNonBlockingLvalues, Option.bind_eq_bind, Option.bind_eq_some_iff,
    Option.some.injEq] at finalized
  obtain ⟨walked, replayed, rfl⟩ := finalized
  generalize dfa.pendingLValues = pending at replayed
  induction pending generalizing dfa with
  | nil =>
      cases replayed
      exact Appends.of_eq rfl rfl
  | cons first rest ih =>
      simp only [List.foldlM_cons, addDrivers, Option.bind_eq_bind, Option.bind_eq_some_iff,
        Option.some.injEq] at replayed
      obtain ⟨_, ⟨_, _, rfl⟩, replayed⟩ := replayed
      have later := ih replayed
      exact ⟨later.calls, later.serial, later.fresh⟩

theorem grounded_initial (task : Nat) (externalNode : Option NodeRef) :
    (initial task externalNode).Grounded :=
  ⟨by simp [initial], by simp [initial], fun _ _ edge => absurd edge not_controlEdge_nil⟩

/--
In every body of assignments and nested non-constant decisions, the decisions
control all assignment nodes in their arms if and only if each assignment with a
node is come to with the decision, or a condition below it, pending.
-/
theorem controlsArms_iff (resolveAssignBits : Bool) (task : Nat) (externalNode : Option NodeRef)
    {body : Stmt} (built : body.Built fun _ => True) {final : DataFlowAnalysis}
    (ran : runBody resolveAssignBits (initial task externalNode) body = some final) :
    ControlsArms resolveAssignBits (initial task externalNode) body final ↔
      body.ArmsGoverned resolveAssignBits := by
  have walking := walking_initial task externalNode
  have grounded := grounded_initial task externalNode
  simp only [runBody, Option.bind_eq_bind, Option.bind_eq_some_iff] at ran
  obtain ⟨walked, handled, finalized⟩ := ran
  -- One decision: its arms start with its own node pending.
  have decides {position : Position} {kind : NodeKind} {location : SourceLocation} {head : Expr}
      {dead : Option Side} {intoFirst : Bool} {first second : Stmt}
      (found : body.partAt position =
        some (.seq (.decide kind location head) (.either dead intoFirst first second))) :
      ∃ before entered, enterAt resolveAssignBits body position (initial task externalNode) =
          some before ∧
        handleStmt resolveAssignBits (.decide kind location head) before = some entered ∧
        ((∀ leaf node,
            CreatedAt resolveAssignBits entered (.either dead intoFirst first second) leaf node →
              Controls final.calls (before.createNode kind location none).1 node) ↔
          (Stmt.either dead intoFirst first second).Governed resolveAssignBits .kept) := by
    obtain ⟨before, after, made, comes, partRan, partBuilt, partWalking, partGrounded, appends⟩ :=
      partAt_passes built walking grounded found handled
    obtain ⟨entered, headRan, armsRan⟩ := handleStmt_seq_eq.mp partRan
    obtain ⟨_, _, low, _, pending, _⟩ := decide_takes headRan
    have enteredGrounded := (passes_decide partGrounded headRan).grounded
    have enteredWalking := partWalking.after partBuilt.1 headRan
    have arms := handleStmt_passes partBuilt.2 enteredWalking enteredGrounded armsRan
    have toFinal := appends.trans (finalize_appends finalized)
    refine ⟨before, entered, comes, headRan, Iff.trans ?_ (controls_iff_governed partBuilt.2
      enteredWalking enteredGrounded enteredGrounded.condition le_rfl pending
      (show Carries _ entered entered.calls entered.state.condition .kept from rfl) armsRan)⟩
    exact arms.controls_iff ⟨_, toFinal⟩
  constructor
  · intro controls position kind location head dead intoFirst first second found
    obtain ⟨before, entered, comes, headRan, controls_iff⟩ := decides found
    exact controls_iff.mp fun leaf node created =>
      controls position kind location head dead intoFirst first second before entered leaf node
        found comes headRan created
  · intro governed position kind location head dead intoFirst first second before entered leaf node
      found comes headRan created
    obtain ⟨same, sameEntered, sameComes, sameRan, controls_iff⟩ := decides found
    obtain rfl : same = before := Option.some.inj (sameComes.symm.trans comes)
    obtain rfl : sameEntered = entered := Option.some.inj (sameRan.symm.trans headRan)
    exact controls_iff.mpr
      (governed position kind location head dead intoFirst first second found) leaf node created

theorem resetOrCount_runs : (runBody true (initial 0 none) resetOrCount).isSome := by
  decide +kernel

theorem controlsArms_iff_resetOrCount :
    ControlsArms true (initial 0 none) resetOrCount
        ((runBody true (initial 0 none) resetOrCount).get resetOrCount_runs) ↔
      resetOrCount.ArmsGoverned true :=
  controlsArms_iff true 0 none
    (show resetOrCount.Built fun _ => True from ⟨trivial, rfl, trivial, trivial⟩)
    (Option.some_get resetOrCount_runs).symm

/-- `u[3:0] <= 0;` -/
def resetOther : AssignmentExpression :=
  { resetAssignment with
    left := .value .literal (lowBits otherSignal 3)
    lhsList := [⟨0, 4, [.lsp (lowBits otherSignal 3) [] 0]⟩] }

/-- `if (u) begin t <= 0; u <= 0; end` -/
def resetBoth : Stmt :=
  .seq (.decide .conditional none (.value .literal (lowBits otherSignal 3)))
    (.either none true (.seq (.assign resetAssignment) (.assign resetOther)) .skip)

theorem resetBoth_runs : (runBody true (initial 0 none) resetBoth).isSome := by
  decide +kernel

/-- The analysis at the end of the body. -/
def resetBothFinal : DataFlowAnalysis :=
  (runBody true (initial 0 none) resetBoth).get resetBoth_runs

/-- A call makes an edge between two nodes of the analysis. -/
def Linked (calls : List BuilderCall) (source target : NodeRef) : Prop :=
  (∃ role precision, .addUnannotated source target role precision ∈ calls) ∨
    ∃ dependency, .addDependency dependency ∈ calls ∧ dependency.source = source ∧
      dependency.target = target

theorem linked_of_controlEdge {source target : NodeRef} (edge : ControlEdge calls source target) :
    Linked calls source target := by
  rcases edge with control | ⟨_, merge⟩
  · exact Or.inl ⟨_, _, control⟩
  · exact Or.inl ⟨_, _, merge⟩

/-- No edges at all lead from the conditional to the node of the second assignment. -/
theorem resetBoth_uncontrolled :
    ¬ ControlsArms true (initial 0 none) resetBoth resetBothFinal ∧
      ¬ Relation.ReflTransGen (Linked resetBothFinal.calls) ⟨0, .conditional, 0⟩
        ⟨0, .assignment, 3⟩ := by
  have calls : resetBothFinal.calls =
      [.addNode ⟨0, .conditional, 0⟩ none none,
        .addRvalue otherSignal 0 ⟨3, 0⟩ (some ⟨0, .conditional, 0⟩) .data .range,
        .addNode ⟨0, .assignment, 1⟩ none none,
        .addUnannotated ⟨0, .conditional, 0⟩ ⟨0, .assignment, 1⟩ .control .signal,
        .addNode ⟨0, .constant, 2⟩ none (some (resetValue, 4)),
        .addUnannotated ⟨0, .constant, 2⟩ ⟨0, .assignment, 1⟩ .data .exact,
        .addNode ⟨0, .assignment, 3⟩ none none,
        .addNode ⟨0, .constant, 4⟩ none (some (resetValue, 4)),
        .addUnannotated ⟨0, .constant, 4⟩ ⟨0, .assignment, 3⟩ .data .exact,
        .addNode ⟨0, .merge, 5⟩ none none,
        .addUnannotated ⟨0, .assignment, 3⟩ ⟨0, .merge, 5⟩ .data .exact,
        .addUnannotated ⟨0, .conditional, 0⟩ ⟨0, .merge, 5⟩ .data .exact] := by decide +kernel
  have apart : ∀ node, Relation.ReflTransGen (Linked resetBothFinal.calls) ⟨0, .conditional, 0⟩
      node → node ≠ ⟨0, .assignment, 3⟩ ∧ node ≠ ⟨0, .constant, 4⟩ := by
    intro node reached
    induction reached with
    | refl => decide
    | tail _ edge ih =>
        obtain ⟨notNode, notConstant⟩ := ih
        rcases edge with ⟨role, precision, member⟩ | ⟨dependency, member, _⟩
        · rw [calls] at member
          simp only [List.mem_cons, reduceCtorEq, BuilderCall.addUnannotated.injEq,
            List.not_mem_nil, false_or, or_false] at member
          rcases member with ⟨_, rfl, _⟩ | ⟨_, rfl, _⟩ | ⟨rfl, _⟩ | ⟨_, rfl, _⟩ | ⟨_, rfl, _⟩
          · decide
          · decide
          · exact absurd rfl notConstant
          · decide
          · decide
        · rw [calls] at member
          simp at member
  refine ⟨fun controls => ?_, fun reached => (apart _ reached).1 rfl⟩
  let before := initial 0 none
  let entered := (handleStmt true (.decide .conditional none
    (.value .literal (lowBits otherSignal 3))) before).getD {}
  let mid := (handleStmt true (.assign resetAssignment) entered).getD {}
  let after := (mid.handleAssignment true resetOther).getD {}
  have reached := controls [] .conditional none (.value .literal (lowBits otherSignal 3)) none true
    (.seq (.assign resetAssignment) (.assign resetOther)) .skip before entered [.first, .second]
    ⟨0, .assignment, 3⟩ rfl rfl (by decide +kernel)
    ⟨resetOther, mid, after, ⟨mid, by decide +kernel, Or.inl ⟨rfl, rfl⟩⟩, by decide +kernel,
      after.calls.drop mid.calls.length, none, by decide +kernel, by decide +kernel, rfl⟩
  exact (apart _ (Relation.ReflTransGen.mono (fun _ _ => linked_of_controlEdge) _ _ reached)).1 rfl

end DataFlowAnalysis

end SlangNetlist
