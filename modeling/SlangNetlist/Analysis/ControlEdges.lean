import SlangNetlist.Analysis.JoinedDefinitions
import Mathlib.Logic.Relation

/-!
# Control edges

Control goes from a pending condition to the node that takes it up, and from two
conditions to their merge.  The edges of a run end in its own nodes, so that what
controls a node is settled once the node exists.
-/

namespace SlangNetlist

open Library

/-- A call makes an edge from a pending condition or into a merge. -/
def ControlEdge (calls : List BuilderCall) (source target : NodeRef) : Prop :=
  .addUnannotated source target .control .signal ∈ calls ∨
    target.kind = .merge ∧ .addUnannotated source target .data .exact ∈ calls

instance (calls : List BuilderCall) (source target : NodeRef) :
    Decidable (ControlEdge calls source target) :=
  inferInstanceAs (Decidable (_ ∨ _))

/-- Control edges lead from one node to the other. -/
def Controls (calls : List BuilderCall) : NodeRef → NodeRef → Prop :=
  Relation.ReflTransGen (ControlEdge calls)

variable {calls front back : List BuilderCall} {source target decision node : NodeRef}

theorem controlEdge_append :
    ControlEdge (front ++ back) source target ↔
      ControlEdge front source target ∨ ControlEdge back source target := by
  simp only [ControlEdge, List.mem_append]
  tauto

theorem not_controlEdge_nil : ¬ ControlEdge [] source target := by
  simp [ControlEdge]

theorem Controls.append (controls : Controls front decision node) :
    Controls (front ++ back) decision node :=
  Relation.ReflTransGen.mono (fun _ _ edge => controlEdge_append.mpr (Or.inl edge)) _ _ controls

/-- Another node is controlled through the edges that end in it. -/
theorem controls_iff_of_ne (other : node ≠ decision) :
    Controls calls decision node ↔
      ∃ middle, Controls calls decision middle ∧ ControlEdge calls middle node := by
  rw [Controls, Relation.ReflTransGen.cases_tail_iff]
  exact or_iff_right other

namespace AssignmentStep

/-- The step makes no node. -/
def Quiet : AssignmentStep → Prop
  | .enter _ _ => False
  | .constant _ _ _ _ _ => False
  | _ => True

/-- The step makes an assignment node from the given node and condition only. -/
def Below (saved : Option NodeRef × Option NodeRef) : AssignmentStep → Prop
  | .enter entered _ => entered = some saved
  | _ => True

variable {context : WalkContext} {saved : Option NodeRef × Option NodeRef} {move : AssignmentStep}

theorem Quiet.below (quiet : move.Quiet) : move.Below saved := by
  cases move with
  | enter => exact quiet.elim
  | write | read | readLeft | constant | stop => trivial

theorem quiet_ofPath {left isLValue : Bool} {path : ValuePath}
    (member : move ∈ ofPath context left isLValue path) : move.Quiet := by
  unfold ofPath at member
  split at member
  · cases member
  · split at member
    · simp only at member
      split at member
      · cases member
      · split at member
        · rw [List.mem_singleton.mp member]
          trivial
        · split at member <;> rw [List.mem_singleton.mp member] <;> trivial
    · cases member

theorem quiet_ofExpr {left isLValue : Bool} {expr : Expr}
    (member : move ∈ ofExpr context left isLValue expr) : move.Quiet := by
  induction expr generalizing isLValue with
  | literal => cases member
  | value selectors path ih =>
      rcases List.mem_append.mp member with inner | outer
      · exact ih inner
      · exact quiet_ofPath outer
  | operator first second firstIh secondIh =>
      rcases List.mem_append.mp member with inner | outer
      · exact firstIh inner
      · exact secondIh outer

theorem quiet_ofLhsSource {segment : Segment} {source : BitSliceSource}
    (member : move ∈ ofLhsSource segment source) : move.Quiet := by
  unfold ofLhsSource at member
  split at member
  · split at member
    · split at member <;> rw [List.mem_singleton.mp member] <;> trivial
    · rw [List.mem_singleton.mp member]
      trivial
  · cases member

theorem below_ofRhsSource {fallbackLoc : SourceLocation} {segment : Segment}
    {source : BitSliceSource} (member : move ∈ ofRhsSource context fallbackLoc segment source) :
    move.Below saved := by
  rcases mem_ofRhsSource member with ⟨_, _, visited⟩ | ⟨_, rfl⟩ | ⟨_, _, _, rfl⟩ | rfl
  · exact (quiet_ofExpr visited).below
  · trivial
  · trivial
  · trivial

/-- All nodes of a segment but constants are below the saved condition. -/
theorem below_ofSegment {prohibitLValue : Bool} {expr : AssignmentExpression} {segment : Segment}
    (member : move ∈ ofSegment context prohibitLValue expr saved segment) : move.Below saved := by
  rcases mem_ofSegment.mp member with rfl | ⟨_, source, _, inner⟩ | ⟨_, source, _, inner⟩
  · rfl
  · exact (quiet_ofLhsSource inner).below
  · exact below_ofRhsSource inner

end AssignmentStep

/-- Whether the handler makes an assignment node: it makes none for lists without bits. -/
def AssignmentExpression.createsNode (resolveAssignBits : Bool) (expr : AssignmentExpression) :
    Bool :=
  decide (¬ resolveAssignBits ∨ ¬ expr.integral ∨
    BitSliceList.width expr.lhsList ≠ BitSliceList.width expr.rhsList ∨
      BitSliceList.alignSegments expr.lhsList expr.rhsList ≠ [])

namespace DataFlowAnalysis

variable {resolveAssignBits : Bool} {dfa middle next : DataFlowAnalysis}
  {made first second : List BuilderCall} {condition : Option NodeRef} {expr : AssignmentExpression}

/-- The current nodes and the control edges are between nodes that exist. -/
structure Grounded (dfa : DataFlowAnalysis) : Prop where
  node : ∀ node, dfa.state.node = some node → node.serial < dfa.serial
  condition : ∀ condition, dfa.state.condition = some condition → condition.serial < dfa.serial
  edges : ∀ source target, ControlEdge dfa.calls source target →
    source.serial < dfa.serial ∧ target.serial < dfa.serial

/-- The calls made meanwhile, whose control edges end in new nodes. -/
structure Appends (dfa next : DataFlowAnalysis) (made : List BuilderCall) : Prop where
  calls : next.calls = dfa.calls ++ made
  serial : dfa.serial ≤ next.serial
  fresh : ∀ source target, ControlEdge made source target → dfa.serial ≤ target.serial

theorem Appends.refl (dfa : DataFlowAnalysis) : Appends dfa dfa [] :=
  ⟨(List.append_nil _).symm, le_rfl, fun _ _ edge => absurd edge not_controlEdge_nil⟩

theorem Appends.trans (front : Appends dfa middle first) (back : Appends middle next second) :
    Appends dfa next (first ++ second) where
  calls := by rw [back.calls, front.calls, List.append_assoc]
  serial := front.serial.trans back.serial
  fresh source target edge := by
    rcases controlEdge_append.mp edge with early | late
    · exact front.fresh source target early
    · exact front.serial.trans (back.fresh source target late)

/-- What controls an old node is settled. -/
theorem Appends.controls_iff (appends : Appends dfa next made) (grounded : dfa.Grounded)
    {decision node : NodeRef} (old : node.serial < dfa.serial) :
    Controls next.calls decision node ↔ Controls dfa.calls decision node := by
  rw [appends.calls]
  refine ⟨fun controls => ?_, Controls.append⟩
  induction controls with
  | refl => exact Relation.ReflTransGen.refl
  | tail _ edge ih =>
      rcases controlEdge_append.mp edge with early | late
      · exact (ih (grounded.edges _ _ early).1).tail early
      · exact absurd old (Nat.not_lt.mpr (appends.fresh _ _ late))

/--
The calls made meanwhile, whose control edges lead from the condition to new
nodes, and to every new assignment node.
-/
structure Attaches (condition : Option NodeRef) (dfa next : DataFlowAnalysis)
    (made : List BuilderCall) : Prop where
  calls : next.calls = dfa.calls ++ made
  serial : dfa.serial ≤ next.serial
  edges : ∀ source target, ControlEdge made source target →
    condition = some source ∧ dfa.serial ≤ target.serial ∧ target.serial < next.serial
  nodes : ∀ node location, .addNode node location none ∈ made → node.kind = .assignment →
    dfa.serial ≤ node.serial ∧ node.serial < next.serial ∧
      ∀ source, condition = some source → ControlEdge made source node

theorem Attaches.appends (attaches : Attaches condition dfa next made) : Appends dfa next made :=
  ⟨attaches.calls, attaches.serial, fun source target edge =>
    (attaches.edges source target edge).2.1⟩

/-- No control edges and no assignment nodes. -/
theorem Attaches.of_silent (calls : next.calls = dfa.calls ++ made)
    (serial : dfa.serial ≤ next.serial)
    (edges : ∀ source target, ¬ ControlEdge made source target)
    (nodes : ∀ node location, .addNode node location none ∉ made) :
    Attaches condition dfa next made :=
  ⟨calls, serial, fun source target edge => absurd edge (edges source target),
    fun node location member => absurd member (nodes node location)⟩

theorem Attaches.refl (condition : Option NodeRef) (dfa : DataFlowAnalysis) :
    Attaches condition dfa dfa [] :=
  Attaches.of_silent (List.append_nil _).symm le_rfl (fun _ _ => not_controlEdge_nil)
    fun _ _ => List.not_mem_nil

theorem Attaches.trans (front : Attaches condition dfa middle first)
    (back : Attaches condition middle next second) :
    Attaches condition dfa next (first ++ second) where
  calls := by rw [back.calls, front.calls, List.append_assoc]
  serial := front.serial.trans back.serial
  edges source target edge := by
    rcases controlEdge_append.mp edge with early | late
    · obtain ⟨same, low, high⟩ := front.edges source target early
      exact ⟨same, low, high.trans_le back.serial⟩
    · obtain ⟨same, low, high⟩ := back.edges source target late
      exact ⟨same, front.serial.trans low, high⟩
  nodes node location member kind := by
    rcases List.mem_append.mp member with early | late
    · obtain ⟨low, high, attached⟩ := front.nodes node location early kind
      exact ⟨low, high.trans_le back.serial, fun source same =>
        controlEdge_append.mpr (Or.inl (attached source same))⟩
    · obtain ⟨low, high, attached⟩ := back.nodes node location late kind
      exact ⟨front.serial.trans low, high, fun source same =>
        controlEdge_append.mpr (Or.inr (attached source same))⟩

/-! ## Assignments -/

/-- A node below the condition of the state is one below a saved condition. -/
theorem enter_none (dfa : DataFlowAnalysis) (location : SourceLocation) :
    dfa.enter none location = dfa.enter (some (dfa.state.node, dfa.state.condition)) location :=
  rfl

theorem enter_some_calls (dfa : DataFlowAnalysis) (saved : Option NodeRef × Option NodeRef)
    (location : SourceLocation) :
    (dfa.enter (some saved) location).calls =
      dfa.calls ++ .addNode ⟨dfa.task, .assignment, dfa.serial⟩ location none ::
        saved.2.toList.map fun source =>
          .addUnannotated source ⟨dfa.task, .assignment, dfa.serial⟩ .control .signal := by
  obtain ⟨node, _ | source⟩ := saved
  · rfl
  · exact List.append_assoc _ _ _

theorem enter_condition (dfa : DataFlowAnalysis)
    (saved : Option (Option NodeRef × Option NodeRef)) (location : SourceLocation) :
    (dfa.enter saved location).state.condition = none := by
  cases saved <;> simp only [enter, updateNode] <;> split <;> rfl

theorem Attaches.enter (dfa : DataFlowAnalysis) (saved : Option NodeRef × Option NodeRef)
    (location : SourceLocation) :
    ∃ made, Attaches saved.2 dfa (dfa.enter (some saved) location) made ∧
      .addNode ⟨dfa.task, .assignment, dfa.serial⟩ location none ∈ made := by
  refine ⟨_, ⟨enter_some_calls dfa saved location, ?_, ?_, ?_⟩, List.mem_cons_self⟩
  · rw [enter_serial]
    exact Nat.le_succ _
  · intro source target edge
    have linked : saved.2 = some source ∧ target = ⟨dfa.task, .assignment, dfa.serial⟩ := by
      simpa [ControlEdge, eq_comm] using edge
    obtain ⟨same, rfl⟩ := linked
    exact ⟨same, le_rfl, by rw [enter_serial]; exact Nat.lt_succ_self _⟩
  · intro node place member _
    obtain ⟨rfl, _⟩ : node = ⟨dfa.task, .assignment, dfa.serial⟩ ∧ place = location := by
      simpa using member
    refine ⟨le_rfl, by rw [enter_serial]; exact Nat.lt_succ_self _, fun source same => ?_⟩
    exact Or.inl (List.mem_cons_of_mem _ (List.mem_map.mpr ⟨source, by simp [same], rfl⟩))

/-- Only a new node changes the pending condition. -/
theorem step_condition {move : AssignmentStep} (stepped : dfa.step move = some next) :
    (∃ saved location, move = .enter saved location) ∨
      next.state.condition = dfa.state.condition := by
  cases move with
  | enter saved location => exact Or.inl ⟨saved, location, rfl⟩
  | write symbol lsp bounds =>
      simp only [step, handleLvalue] at stepped
      split at stepped
      · cases stepped
        exact Or.inr rfl
      · simp only [addDrivers, Option.bind_eq_bind, Option.bind_eq_some_iff,
          Option.some.injEq] at stepped
        obtain ⟨_, _, rfl⟩ := stepped
        exact Or.inr rfl
  | read access | readLeft access =>
      obtain ⟨calls, rfl⟩ := read_appends stepped
      exact Or.inr rfl
  | constant value srcLo location segment fallbackLoc =>
      simp only [step, driveRhsSource] at stepped
      split at stepped <;> cases stepped <;> exact Or.inr rfl
  | stop => cases stepped

/-- A read makes no control edges and no nodes. -/
theorem Attaches.read {access : Access} (handled : dfa.read access = some next) :
    ∃ made, Attaches condition dfa next made := by
  obtain ⟨own, rfl, shape⟩ := read_calls handled
  refine ⟨own, Attaches.of_silent rfl le_rfl (fun source target edge => ?_)
    fun node location member => ?_⟩
  · rcases edge with control | ⟨_, merge⟩
    · rcases shape _ control with ⟨_, same⟩ | ⟨_, same⟩ <;> cases same
    · rcases shape _ merge with ⟨_, same⟩ | ⟨_, same⟩ <;> cases same
  · rcases shape _ member with ⟨_, same⟩ | ⟨_, same⟩ <;> cases same

/-- A write makes no calls and no nodes. -/
theorem Attaches.write {symbol : ValueSymbol} {lsp : Nat} {bounds : DriverBitRange}
    (handled : dfa.handleLvalue symbol lsp bounds = some next) :
    Attaches condition dfa next [] := by
  refine Attaches.of_silent ?_ ?_ (fun _ _ => not_controlEdge_nil) fun _ _ => List.not_mem_nil
  all_goals
    unfold handleLvalue at handled
    split at handled
    · cases handled
      simp [addNonBlockingLvalue]
    · simp only [addDrivers, Option.bind_eq_bind, Option.bind_eq_some_iff,
        Option.some.injEq] at handled
      obtain ⟨_, _, rfl⟩ := handled
      simp

/-- A step below an assignment node makes control edges to new assignment nodes only. -/
theorem Attaches.step {saved : Option NodeRef × Option NodeRef} {move : AssignmentStep}
    (below : move.Below saved) (current : ∃ node, dfa.state.node = some node ∧
      node.kind = .assignment) (stepped : dfa.step move = some next) :
    ∃ made, Attaches saved.2 dfa next made := by
  cases move with
  | enter entered location =>
      cases stepped
      obtain rfl : entered = some saved := below
      obtain ⟨made, attaches, _⟩ := Attaches.enter dfa saved location
      exact ⟨made, attaches⟩
  | write symbol lsp bounds => exact ⟨[], Attaches.write stepped⟩
  | read access | readLeft access => exact Attaches.read stepped
  | constant value srcLo location segment fallbackLoc =>
      obtain ⟨node, found, kind⟩ := current
      simp only [DataFlowAnalysis.step, driveRhsSource, found] at stepped
      cases stepped
      refine ⟨_, Attaches.of_silent (List.append_assoc _ _ _) (Nat.le_succ _)
        (fun source target edge => ?_) fun other place member => ?_⟩
      · rcases edge with control | ⟨merge, data⟩
        · simp at control
        · simp only [List.singleton_append, List.mem_cons, reduceCtorEq,
            BuilderCall.addUnannotated.injEq, List.not_mem_nil, or_false, false_or] at data
          rw [data.2.1, kind] at merge
          cases merge
      · simp at member
  | stop => cases stepped

/-- A run of steps below one condition, with an assignment node current from the start. -/
theorem Attaches.run {saved : Option NodeRef × Option NodeRef} {moves : List AssignmentStep}
    (below : ∀ move ∈ moves, move.Below saved)
    (current : ∃ node, dfa.state.node = some node ∧ node.kind = .assignment)
    (used : dfa.state.condition = none)
    (ran : moves.foldlM DataFlowAnalysis.step dfa = some next) :
    (∃ made, Attaches saved.2 dfa next made) ∧ next.state.condition = none ∧
      ∀ node, next.state.node = some node →
        dfa.state.node = some node ∨ node.serial < next.serial := by
  induction moves generalizing dfa with
  | nil =>
      cases ran
      exact ⟨⟨[], Attaches.refl _ _⟩, used, fun _ => Or.inl⟩
  | cons move rest ih =>
      obtain ⟨middle, stepped, ran⟩ := foldlM_cons_eq_some.mp ran
      obtain ⟨first, front⟩ := Attaches.step (below move List.mem_cons_self) current stepped
      have restBelow : ∀ move ∈ rest, move.Below saved :=
        fun other member => below other (List.mem_cons_of_mem _ member)
      rcases step_node stepped with ⟨entered, location, rfl⟩ | sameNode
      · obtain rfl : dfa.enter entered location = middle := Option.some.inj stepped
        obtain ⟨⟨second, back⟩, usedAfter, nodes⟩ := ih restBelow
          ⟨_, enter_node dfa entered location, rfl⟩ (enter_condition dfa entered location) ran
        refine ⟨⟨_, front.trans back⟩, usedAfter, fun node found => ?_⟩
        rcases nodes node found with here | later
        · refine Or.inr (lt_of_lt_of_le ?_ back.serial)
          obtain rfl := Option.some.inj ((enter_node dfa entered location).symm.trans here)
          rw [enter_serial]
          exact Nat.lt_succ_self _
        · exact Or.inr later
      · have sameCondition : middle.state.condition = none := by
          rcases step_condition stepped with ⟨entered, location, rfl⟩ | same
          · cases stepped
            exact enter_condition dfa entered location
          · exact same.trans used
        obtain ⟨⟨second, back⟩, usedAfter, nodes⟩ := ih restBelow (sameNode ▸ current)
          sameCondition ran
        refine ⟨⟨_, front.trans back⟩, usedAfter, fun node found => ?_⟩
        rw [← sameNode]
        exact nodes node found

/-- The steps of an assignment with a node begin with a node, and stay below one condition. -/
theorem assignmentSteps_below (creates : expr.createsNode resolveAssignBits = true)
    (dfa : DataFlowAnalysis) :
    ∃ saved rest, assignmentSteps resolveAssignBits dfa expr = .enter saved expr.location :: rest ∧
      (saved = none ∨ saved = some (dfa.state.node, dfa.state.condition)) ∧
      ∀ move ∈ rest, move.Below (dfa.state.node, dfa.state.condition) := by
  unfold assignmentSteps
  split
  · refine ⟨none, _, rfl, Or.inl rfl, fun move member => ?_⟩
    rcases List.mem_append.mp member with left | right
    · exact (AssignmentStep.quiet_ofExpr left).below
    · split at right
      · cases right
      · exact (AssignmentStep.quiet_ofExpr right).below
  · next aligned =>
      cases segments : BitSliceList.alignSegments expr.lhsList expr.rhsList with
      | nil =>
          simp only [AssignmentExpression.createsNode, segments, ne_eq, not_true_eq_false,
            or_false, decide_eq_true_eq] at creates
          exact absurd creates aligned
      | cons segment rest =>
          refine ⟨_, _, rfl, Or.inr rfl, fun move member => ?_⟩
          have inSteps : move ∈ (segment :: rest).flatMap (AssignmentStep.ofSegment dfa.walkContext
              dfa.prohibitLValue expr (dfa.state.node, dfa.state.condition)) :=
            List.mem_cons_of_mem _ member
          obtain ⟨part, _, inner⟩ := List.mem_flatMap.mp inSteps
          exact AssignmentStep.below_ofSegment inner

theorem assignmentSteps_eq_nil (creates : expr.createsNode resolveAssignBits = false)
    (dfa : DataFlowAnalysis) : assignmentSteps resolveAssignBits dfa expr = [] := by
  simp only [AssignmentExpression.createsNode, decide_eq_false_iff_not, not_or, not_not] at creates
  obtain ⟨aligned, integral, widths, segments⟩ := creates
  rw [assignmentSteps, if_neg (by simp [aligned, integral, widths]), segments]
  rfl

theorem assignmentStart_keeps (resolveAssignBits : Bool) (dfa : DataFlowAnalysis)
    (expr : AssignmentExpression) :
    (assignmentStart resolveAssignBits dfa expr).state = dfa.state ∧
      (assignmentStart resolveAssignBits dfa expr).serial = dfa.serial ∧
        (assignmentStart resolveAssignBits dfa expr).calls = dfa.calls := by
  unfold assignmentStart
  split <;> exact ⟨rfl, rfl, rfl⟩

/-- An assignment without nodes makes no calls. -/
theorem handleAssignment_silent (flagged : dfa.isLValue = false)
    (creates : expr.createsNode resolveAssignBits = false)
    (handled : dfa.handleAssignment resolveAssignBits expr = some next) :
    next.state = dfa.state ∧ next.serial = dfa.serial ∧ next.calls = dfa.calls := by
  rw [handleAssignment_eq resolveAssignBits dfa expr flagged, assignmentSteps_eq_nil creates]
    at handled
  cases handled
  exact assignmentStart_keeps resolveAssignBits dfa expr

/-- An assignment with nodes attaches each of them to the pending condition. -/
theorem handleAssignment_attaches (flagged : dfa.isLValue = false)
    (creates : expr.createsNode resolveAssignBits = true)
    (handled : dfa.handleAssignment resolveAssignBits expr = some next) :
    ∃ made, Attaches dfa.state.condition dfa next made ∧
      next.state.condition = none ∧
      (∀ node, next.state.node = some node → node.serial < next.serial) ∧
      ∃ node, .addNode node expr.location none ∈ made ∧ node.kind = .assignment := by
  rw [handleAssignment_eq resolveAssignBits dfa expr flagged] at handled
  obtain ⟨saved, rest, steps, same, below⟩ :=
    @assignmentSteps_below resolveAssignBits expr creates dfa
  obtain ⟨state, serial, calls⟩ := assignmentStart_keeps resolveAssignBits dfa expr
  generalize assignmentStart resolveAssignBits dfa expr = start at handled state serial calls
  have entered : start.enter saved expr.location =
      start.enter (some (dfa.state.node, dfa.state.condition)) expr.location := by
    rcases same with rfl | rfl
    · rw [enter_none, state]
    · rfl
  rw [steps, List.foldlM_cons, Option.bind_eq_bind] at handled
  change ((rest.foldlM step) (start.enter saved expr.location)) = some next at handled
  rw [entered] at handled
  obtain ⟨first, front, member⟩ := Attaches.enter start
    (dfa.state.node, dfa.state.condition) expr.location
  have own := enter_node start (some (dfa.state.node, dfa.state.condition)) expr.location
  obtain ⟨⟨second, back⟩, used, nodes⟩ := Attaches.run below ⟨_, own, rfl⟩
    (enter_condition _ _ _) handled
  have both := front.trans back
  refine ⟨first ++ second, ⟨?_, ?_, ?_, ?_⟩, used, fun node found => ?_, _,
    List.mem_append_left _ member, rfl⟩
  · rw [both.calls, calls]
  · exact serial ▸ both.serial
  · exact serial ▸ both.edges
  · exact serial ▸ both.nodes
  · rcases nodes node found with here | later
    · obtain rfl := Option.some.inj (own.symm.trans here)
      refine lt_of_lt_of_le ?_ back.serial
      rw [enter_serial]
      exact Nat.lt_succ_self _
    · exact later

/-! ## Decisions -/

/-- Steps without nodes make no control edges and keep the current node and condition. -/
theorem quiet_run {moves : List AssignmentStep} (quiet : ∀ move ∈ moves, move.Quiet)
    (ran : moves.foldlM step dfa = some next) :
    (∃ made, Attaches none dfa next made) ∧ next.state.node = dfa.state.node ∧
      next.state.condition = dfa.state.condition := by
  induction moves generalizing dfa with
  | nil =>
      cases ran
      exact ⟨⟨[], Attaches.refl _ _⟩, rfl, rfl⟩
  | cons move rest ih =>
      obtain ⟨middle, stepped, ran⟩ := foldlM_cons_eq_some.mp ran
      have silent : ∃ made, Attaches none dfa middle made := by
        cases move with
        | enter | constant => exact (quiet _ List.mem_cons_self).elim
        | write symbol lsp bounds => exact ⟨[], Attaches.write stepped⟩
        | read access | readLeft access => exact Attaches.read stepped
        | stop => cases stepped
      have entered : ∀ saved location, move ≠ .enter saved location := by
        rintro saved location rfl
        exact (quiet _ List.mem_cons_self).elim
      obtain ⟨first, front⟩ := silent
      obtain ⟨⟨second, back⟩, node, condition⟩ :=
        ih (fun other member => quiet other (List.mem_cons_of_mem _ member)) ran
      refine ⟨⟨_, front.trans back⟩, node.trans ?_, condition.trans ?_⟩
      · exact (step_node stepped).resolve_left fun ⟨saved, location, same⟩ =>
          entered saved location same
      · exact (step_condition stepped).resolve_left fun ⟨saved, location, same⟩ =>
          entered saved location same

/-- A decision takes up the pending condition and becomes the pending condition itself. -/
theorem decide_takes {kind : NodeKind} {location : SourceLocation} {head : Expr}
    (handled : handleStmt resolveAssignBits (.decide kind location head) dfa = some next) :
    ∃ made, next.calls = dfa.calls ++ made ∧ dfa.serial < next.serial ∧
      next.state.node = some (dfa.createNode kind location none).1 ∧
      next.state.condition = some (dfa.createNode kind location none).1 ∧
      ∀ source target, ControlEdge made source target ↔
        dfa.state.condition = some source ∧ target = (dfa.createNode kind location none).1 := by
  have visited : visit (dfa.enterDecision kind location) head = some next := handled
  rw [visit_eq _ false] at visited
  obtain ⟨⟨reads, silent⟩, node, condition⟩ :=
    quiet_run (fun move member => AssignmentStep.quiet_ofExpr member) visited
  have noEdge : ∀ source target, ¬ ControlEdge reads source target := fun source target edge =>
    absurd (silent.edges source target edge).1 (by simp)
  let own := (dfa.createNode kind location none).1
  have entered : (dfa.enterDecision kind location).calls = dfa.calls ++
      .addNode own location none :: dfa.state.condition.toList.map fun source =>
        .addUnannotated source own .control .signal := by
    simp only [enterDecision, updateNode, createNode, call, setState]
    cases dfa.state.condition with
    | none => rfl
    | some source => exact List.append_assoc _ _ _
  have serial : (dfa.enterDecision kind location).serial = dfa.serial + 1 := by
    simp only [enterDecision, updateNode, createNode, call, setState]
    cases dfa.state.condition <;> rfl
  have current : (dfa.enterDecision kind location).state.node = some own ∧
      (dfa.enterDecision kind location).state.condition = some own := by
    simp only [enterDecision, updateNode, createNode, call, setState]
    cases dfa.state.condition <;> exact ⟨rfl, rfl⟩
  refine ⟨_, by rw [silent.calls, entered, List.append_assoc], ?_, node.trans current.1,
    condition.trans current.2, fun source target => ?_⟩
  · have := silent.serial
    omega
  · rw [controlEdge_append, or_iff_left (noEdge source target)]
    simp [ControlEdge, own, eq_comm]

/-! ## Joins -/

/-- The node after a join, and the edges of a new merge. -/
theorem mergeNodes_cases (dfa : DataFlowAnalysis) (a b : Option NodeRef) :
    (a = b ∧ dfa.mergeNodes a b = (none, dfa)) ∨
      (a = none ∧ dfa.mergeNodes a b = (b, dfa)) ∨ (b = none ∧ dfa.mergeNodes a b = (a, dfa)) ∨
        ∃ first second, a = some first ∧ b = some second ∧ first ≠ second ∧
          dfa.mergeNodes a b = (some (dfa.merge first second).1, (dfa.merge first second).2) := by
  cases a with
  | none => exact Or.inr (Or.inl ⟨rfl, by cases b <;> rfl⟩)
  | some first =>
      cases b with
      | none => exact Or.inr (Or.inr (Or.inl ⟨rfl, rfl⟩))
      | some second =>
          by_cases same : first = second
          · exact Or.inl ⟨congrArg some same, by simp [mergeNodes, same]⟩
          · exact Or.inr (Or.inr (Or.inr ⟨first, second, rfl, rfl, same, by
              simp [mergeNodes, same]⟩))

/-- The edges of a merge. -/
theorem merge_edges (dfa : DataFlowAnalysis) (first second : NodeRef) :
    ∃ made, (dfa.merge first second).2.calls = dfa.calls ++ made ∧
      ∀ source target, ControlEdge made source target ↔
        (source = first ∨ source = second) ∧ target = (dfa.merge first second).1 := by
  refine ⟨_, by simp only [merge, call, createNode, List.append_assoc]; rfl, ?_⟩
  intro source target
  simp only [ControlEdge, merge, createNode, List.mem_append, List.mem_singleton, reduceCtorEq,
    BuilderCall.addUnannotated.injEq, false_or, and_true, and_false, or_false]
  constructor
  · rintro ⟨_, ⟨rfl, rfl⟩ | ⟨rfl, rfl⟩⟩
    · exact ⟨Or.inl rfl, rfl⟩
    · exact ⟨Or.inr rfl, rfl⟩
  · rintro ⟨rfl | rfl, rfl⟩
    · exact ⟨rfl, Or.inl ⟨rfl, rfl⟩⟩
    · exact ⟨rfl, Or.inr ⟨rfl, rfl⟩⟩

end DataFlowAnalysis

end SlangNetlist
