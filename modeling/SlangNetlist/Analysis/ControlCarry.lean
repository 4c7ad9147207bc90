import SlangNetlist.Analysis.ControlEdges

/-!
# What becomes of a pending condition

An assignment uses the pending condition up, a decision takes its place, and a
join keeps what either arm leaves unless both leave the same.  The carry of a
statement says so from the statement alone.
-/

namespace SlangNetlist

/-- What has become of the condition that was pending before some statements. -/
inductive Carry where
  | kept
  | dropped
  /-- Another condition below it is pending. -/
  | below
  /-- A condition apart from it is pending. -/
  | apart
  deriving DecidableEq, Repr

namespace Carry

/-- Further statements. -/
def andThen : Carry → Carry → Carry
  | front, .kept => front
  | _, .dropped => .dropped
  | .kept, .below => .below
  | .below, .below => .below
  | _, _ => .apart

/-- The join of two arms from one state. -/
def join : Carry → Carry → Carry
  -- Two conditions that are the same are dropped.
  | .kept, .kept => .dropped
  | .dropped, other => other
  | result, .dropped => result
  | .apart, .apart => .apart
  | _, _ => .below

/-- The pending condition is the first one or one below it. -/
def Governs (carry : Carry) : Prop := carry = .kept ∨ carry = .below

instance (carry : Carry) : Decidable carry.Governs := inferInstanceAs (Decidable (_ ∨ _))

theorem join_comm (front back : Carry) : front.join back = back.join front := by
  cases front <;> cases back <;> rfl

theorem join_of_governs {carry back : Carry} (governs : carry.Governs) (present : back ≠ .dropped)
    (different : ¬ (carry = .kept ∧ back = .kept)) : carry.join back = .below := by
  rcases governs with rfl | rfl <;> cases back <;> simp_all [join]

end Carry

namespace Stmt

/-- What becomes of the condition that is pending before a statement. -/
def carry (resolveAssignBits : Bool) : Stmt → Carry
  | .skip => .kept
  | .assign expr | .force expr => if expr.createsNode resolveAssignBits then .dropped else .kept
  | .decide _ _ _ => .below
  | .seq first second => (first.carry resolveAssignBits).andThen (second.carry resolveAssignBits)
  | .either _ _ first second =>
      (first.carry resolveAssignBits).join (second.carry resolveAssignBits)
  | .jump => .dropped

/-- Each assignment with a node is come to with the first condition or one below it. -/
def Governed (resolveAssignBits : Bool) : Stmt → Carry → Prop
  | .assign expr, before | .force expr, before =>
      expr.createsNode resolveAssignBits = true → before.Governs
  | .seq first second, before =>
      first.Governed resolveAssignBits before ∧
        second.Governed resolveAssignBits (before.andThen (first.carry resolveAssignBits))
  | .either _ _ first second, before =>
      first.Governed resolveAssignBits before ∧ second.Governed resolveAssignBits before
  | _, _ => True

end Stmt

/-- Control edges lead from the decision to a pending condition. -/
def ControlsPending (calls : List BuilderCall) (decision : NodeRef)
    (condition : Option NodeRef) : Prop :=
  ∃ node, condition = some node ∧ Controls calls decision node

theorem not_controlsPending_none {calls : List BuilderCall} {decision : NodeRef} :
    ¬ ControlsPending calls decision none := by
  rintro ⟨_, found, _⟩
  cases found

namespace DataFlowAnalysis

variable {resolveAssignBits : Bool} {base dfa middle next : DataFlowAnalysis}
  {made : List BuilderCall} {calls : List BuilderCall} {condition other : Option NodeRef}
  {decision : NodeRef} {carry back : Carry}

/-! ## Conditions and their carry -/

/-- The condition is a node made since. -/
def Fresh (dfa : DataFlowAnalysis) (condition : Option NodeRef) : Prop :=
  ∃ node, condition = some node ∧ dfa.serial ≤ node.serial

/-- What the carry says of a later condition. -/
def Carries (decision : NodeRef) (dfa : DataFlowAnalysis) (calls : List BuilderCall)
    (condition : Option NodeRef) : Carry → Prop
  | .kept => condition = dfa.state.condition
  | .dropped => condition = none
  | .below => dfa.Fresh condition ∧
      (ControlsPending calls decision condition ↔
        ControlsPending calls decision dfa.state.condition)
  | .apart => dfa.Fresh condition ∧ ¬ ControlsPending calls decision condition

/-- What controls an old condition is settled. -/
theorem Appends.controlsPending_iff (appends : Appends dfa next made) (grounded : dfa.Grounded)
    (old : ∀ node, condition = some node → node.serial < dfa.serial) :
    ControlsPending next.calls decision condition ↔
      ControlsPending dfa.calls decision condition :=
  exists_congr fun node => and_congr_right fun same =>
    appends.controls_iff grounded (old node same)

/-- The carry holds on after further calls. -/
theorem Carries.later (carries : Carries decision base dfa.calls condition carry)
    (appends : Appends dfa next made) (grounded : dfa.Grounded)
    (old : ∀ node, condition = some node → node.serial < dfa.serial)
    (baseOld : ∀ node, base.state.condition = some node → node.serial < dfa.serial) :
    Carries decision base next.calls condition carry := by
  cases carry with
  | kept | dropped => exact carries
  | below =>
      refine ⟨carries.1, ?_⟩
      rw [appends.controlsPending_iff grounded old, appends.controlsPending_iff grounded baseOld]
      exact carries.2
  | apart =>
      refine ⟨carries.1, ?_⟩
      rw [appends.controlsPending_iff grounded old]
      exact carries.2

/-- The carry of statements that follow others. -/
theorem Carries.andThen (front : Carries decision base calls middle.state.condition carry)
    (serial : base.serial ≤ middle.serial)
    (later : Carries decision middle calls condition back) :
    Carries decision base calls condition (carry.andThen back) := by
  have fresh : middle.Fresh condition → base.Fresh condition := fun ⟨node, same, low⟩ =>
    ⟨node, same, serial.trans low⟩
  have absent : middle.state.condition = none →
      ¬ ControlsPending calls decision middle.state.condition := fun none controls =>
    not_controlsPending_none (none ▸ controls)
  cases back with
  | kept =>
      obtain rfl : condition = middle.state.condition := later
      cases carry <;> exact front
  | dropped => cases carry <;> exact later
  | apart => cases carry <;> exact ⟨fresh later.1, later.2⟩
  | below =>
      obtain ⟨isFresh, same⟩ := later
      cases carry with
      | kept =>
          have kept : middle.state.condition = base.state.condition := front
          exact ⟨fresh isFresh, kept ▸ same⟩
      | dropped => exact ⟨fresh isFresh, fun controls => absent front (same.mp controls)⟩
      | below => exact ⟨fresh isFresh, same.trans front.2⟩
      | apart => exact ⟨fresh isFresh, fun controls => front.2 (same.mp controls)⟩

/-- A pending condition is the one before or a new one. -/
theorem Carries.fresh_or (carries : Carries decision dfa calls condition carry) {node : NodeRef}
    (pending : condition = some node) :
    dfa.state.condition = some node ∨ dfa.serial ≤ node.serial := by
  have new : dfa.Fresh condition → dfa.serial ≤ node.serial := by
    rintro ⟨_, same, low⟩
    rw [pending] at same
    cases same
    exact low
  cases carry with
  | kept =>
      obtain rfl : condition = dfa.state.condition := carries
      exact Or.inl pending
  | dropped =>
      obtain rfl : condition = none := carries
      cases pending
  | below | apart => exact Or.inr (new carries.1)

/-- Another start with the same condition. -/
theorem Carries.rebase (carries : Carries decision middle calls condition carry)
    (same : middle.state.condition = dfa.state.condition) (serial : dfa.serial ≤ middle.serial) :
    Carries decision dfa calls condition carry := by
  have fresh : middle.Fresh condition → dfa.Fresh condition := fun ⟨node, found, low⟩ =>
    ⟨node, found, serial.trans low⟩
  cases carry with
  | kept => exact Eq.trans carries same
  | dropped => exact carries
  | below => exact ⟨fresh carries.1, same ▸ carries.2⟩
  | apart => exact ⟨fresh carries.1, carries.2⟩

/-- Below a decision that is the condition of the start, the carry governs. -/
theorem Carries.governs_iff (carries : Carries decision base calls condition carry)
    (start : base.state.condition = some decision) :
    ControlsPending calls decision condition ↔ carry.Governs := by
  have own : ControlsPending calls decision base.state.condition :=
    ⟨decision, start, Relation.ReflTransGen.refl⟩
  cases carry with
  | kept =>
      obtain rfl : condition = base.state.condition := carries
      exact iff_of_true own (Or.inl rfl)
  | dropped =>
      obtain rfl : condition = none := carries
      exact iff_of_false not_controlsPending_none (by simp [Carry.Governs])
  | below => exact iff_of_true (carries.2.mpr own) (Or.inr rfl)
  | apart => exact iff_of_false carries.2 (by simp [Carry.Governs])

/-! ## Joins -/

/-- A new merge is controlled through the two nodes that it merges. -/
theorem merge_passes (grounded : dfa.Grounded) {first second : NodeRef}
    (firstOld : first.serial < dfa.serial) (secondOld : second.serial < dfa.serial) :
    (∃ made, Appends dfa (dfa.merge first second).2 made) ∧ (dfa.merge first second).2.Grounded ∧
      ∀ decision, decision.serial < dfa.serial →
        (Controls (dfa.merge first second).2.calls decision (dfa.merge first second).1 ↔
          Controls dfa.calls decision first ∨ Controls dfa.calls decision second) := by
  obtain ⟨made, calls, edges⟩ := merge_edges dfa first second
  have appends : Appends dfa (dfa.merge first second).2 made :=
    ⟨calls, Nat.le_succ _, fun source target edge => by
      rw [((edges source target).mp edge).2]
      exact le_rfl⟩
  refine ⟨⟨made, appends⟩, ⟨?_, ?_, ?_⟩, fun decision old => ?_⟩
  · exact fun node same => (grounded.node node same).trans (Nat.lt_succ_self _)
  · exact fun node same => (grounded.condition node same).trans (Nat.lt_succ_self _)
  · intro source target edge
    rw [calls] at edge
    rcases controlEdge_append.mp edge with early | late
    · obtain ⟨sourceOld, targetOld⟩ := grounded.edges source target early
      exact ⟨sourceOld.trans (Nat.lt_succ_self _), targetOld.trans (Nat.lt_succ_self _)⟩
    · obtain ⟨ends, rfl⟩ := (edges source target).mp late
      refine ⟨?_, Nat.lt_succ_self _⟩
      rcases ends with rfl | rfl
      · exact firstOld.trans (Nat.lt_succ_self _)
      · exact secondOld.trans (Nat.lt_succ_self _)
  · have new : (dfa.merge first second).1 ≠ decision := by
      rintro rfl
      exact absurd old (lt_irrefl _)
    have own (source : NodeRef) :
        ControlEdge (dfa.merge first second).2.calls source (dfa.merge first second).1 ↔
          source = first ∨ source = second := by
      rw [calls, controlEdge_append, edges, and_iff_left rfl]
      refine or_iff_right fun early => ?_
      exact absurd (grounded.edges _ _ early).2 (lt_irrefl _)
    rw [controls_iff_of_ne new, ← appends.controls_iff grounded firstOld,
      ← appends.controls_iff grounded secondOld]
    constructor
    · rintro ⟨source, controls, edge⟩
      rcases (own source).mp edge with rfl | rfl
      · exact Or.inl controls
      · exact Or.inr controls
    · rintro (controls | controls)
      · exact ⟨first, controls, (own first).mpr (Or.inl rfl)⟩
      · exact ⟨second, controls, (own second).mpr (Or.inr rfl)⟩

/-- The node after a join exists, and a merge is controlled as the two nodes are. -/
theorem mergeNodes_passes (grounded : dfa.Grounded)
    (old : ∀ node, condition = some node → node.serial < dfa.serial)
    (otherOld : ∀ node, other = some node → node.serial < dfa.serial) :
    (∃ made, Appends dfa (dfa.mergeNodes condition other).2 made) ∧
      (dfa.mergeNodes condition other).2.Grounded ∧
      ∀ node, (dfa.mergeNodes condition other).1 = some node →
        node.serial < (dfa.mergeNodes condition other).2.serial := by
  rcases mergeNodes_cases dfa condition other with ⟨_, merged⟩ | ⟨_, merged⟩ | ⟨_, merged⟩ |
    ⟨first, second, rfl, rfl, _, merged⟩
  all_goals rw [merged]
  · exact ⟨⟨[], Appends.refl dfa⟩, grounded, fun _ found => absurd found (by simp)⟩
  · exact ⟨⟨[], Appends.refl dfa⟩, grounded, otherOld⟩
  · exact ⟨⟨[], Appends.refl dfa⟩, grounded, old⟩
  · obtain ⟨appends, after, _⟩ := merge_passes grounded (old first rfl) (otherOld second rfl)
    refine ⟨appends, after, fun node found => ?_⟩
    cases found
    exact Nat.lt_succ_self _

/-- The join with an arm without a pending condition. -/
theorem Carries.join_none (carries : Carries decision base calls none carry)
    (otherCarries : Carries decision base calls other back) :
    Carries decision base calls other (carry.join back) := by
  have noFresh : ¬ base.Fresh none := by
    rintro ⟨_, found, _⟩
    cases found
  cases carry with
  | below | apart => exact absurd carries.1 noFresh
  | dropped => cases back <;> exact otherCarries
  | kept =>
      have absent : none = base.state.condition := carries
      cases back with
      | kept => exact Eq.trans otherCarries carries.symm
      | dropped => exact Eq.trans otherCarries carries
      | below => exact otherCarries
      | apart =>
          refine ⟨otherCarries.1, iff_of_false otherCarries.2 ?_⟩
          rw [← absent]
          exact not_controlsPending_none

/-- The join of two arms with the same condition, which is the one before them. -/
theorem Carries.join_same (carries : Carries decision base calls condition carry)
    (otherCarries : Carries decision base calls condition back)
    (old : ¬ base.Fresh condition) :
    Carries decision base calls none (carry.join back) := by
  cases carry with
  | below | apart => exact absurd carries.1 old
  | kept =>
      cases back with
      | below | apart => exact absurd otherCarries.1 old
      | kept => exact rfl
      | dropped => exact Eq.trans (Eq.symm otherCarries) carries
  | dropped =>
      cases back with
      | below | apart => exact absurd otherCarries.1 old
      | kept => exact Eq.trans (Eq.symm carries) otherCarries
      | dropped => exact rfl

/-- A condition that is pending is controlled as the first one is, or apart from it. -/
theorem Carries.of_some {node : NodeRef} (carries : Carries decision base calls (some node) carry) :
    carry.Governs ∧ (ControlsPending calls decision (some node) ↔
        ControlsPending calls decision base.state.condition) ∨
      carry = .apart ∧ ¬ ControlsPending calls decision (some node) := by
  cases carry with
  | dropped => cases carries
  | kept =>
      have same : some node = base.state.condition := carries
      exact Or.inl ⟨Or.inl rfl, same ▸ Iff.rfl⟩
  | below => exact Or.inl ⟨Or.inr rfl, carries.2⟩
  | apart => exact Or.inr ⟨rfl, carries.2⟩

/-- The join of two arms whose conditions are merged. -/
theorem Carries.join_merged {first second merged : NodeRef} {after : List BuilderCall}
    (carries : Carries decision base calls (some first) carry)
    (otherCarries : Carries decision base calls (some second) back) (differ : first ≠ second)
    (fresh : base.Fresh (some merged))
    (merges : ControlsPending after decision (some merged) ↔
      ControlsPending calls decision (some first) ∨ ControlsPending calls decision (some second))
    (settled : ControlsPending after decision base.state.condition ↔
      ControlsPending calls decision base.state.condition) :
    Carries decision base after (some merged) (carry.join back) := by
  have different : ¬ (carry = .kept ∧ back = .kept) := by
    rintro ⟨rfl, rfl⟩
    exact differ (Option.some.inj (Eq.trans carries (Eq.symm otherCarries)))
  rcases carries.of_some with ⟨governs, controls⟩ | ⟨rfl, apart⟩
  · have join : carry.join back = .below :=
      Carry.join_of_governs governs (fun dropped => by subst dropped; cases otherCarries) different
    rw [join]
    refine ⟨fresh, ?_⟩
    rw [merges, settled, controls]
    rcases otherCarries.of_some with ⟨_, otherControls⟩ | ⟨_, otherApart⟩
    · rw [otherControls, or_self]
    · rw [or_iff_left otherApart]
  · rcases otherCarries.of_some with ⟨governs, otherControls⟩ | ⟨rfl, otherApart⟩
    · rw [Carry.join_comm, Carry.join_of_governs governs (by simp) (by simp)]
      refine ⟨fresh, ?_⟩
      rw [merges, settled, otherControls, or_iff_right apart]
    · refine ⟨fresh, ?_⟩
      rw [merges]
      exact not_or.mpr ⟨apart, otherApart⟩

/-- The carry of a join, from those of its arms. -/
theorem Carries.join {result back : Carry} (grounded : dfa.Grounded)
    (carries : Carries decision base dfa.calls condition result)
    (otherCarries : Carries decision base dfa.calls other back)
    (old : ∀ node, condition = some node → node.serial < dfa.serial)
    (otherOld : ∀ node, other = some node → node.serial < dfa.serial)
    (baseOld : ∀ node, base.state.condition = some node → node.serial < base.serial)
    (serial : base.serial ≤ dfa.serial) (decisionOld : decision.serial < dfa.serial)
    (distinct : ∀ node, condition = some node → other = some node → node.serial < base.serial) :
    Carries decision base (dfa.mergeNodes condition other).2.calls
      (dfa.mergeNodes condition other).1 (result.join back) := by
  rcases mergeNodes_cases dfa condition other with ⟨rfl, merged⟩ | ⟨rfl, merged⟩ |
    ⟨rfl, merged⟩ | ⟨first, second, rfl, rfl, differ, merged⟩
  all_goals rw [merged]
  · exact carries.join_same otherCarries fun ⟨node, found, low⟩ =>
      absurd (distinct node found found) (Nat.not_lt.mpr low)
  · exact carries.join_none otherCarries
  · rw [Carry.join_comm]
    exact otherCarries.join_none carries
  · obtain ⟨⟨made, appends⟩, _, controls⟩ :=
      merge_passes grounded (old first rfl) (otherOld second rfl)
    have pending (node : NodeRef) (calls : List BuilderCall) :
        ControlsPending calls decision (some node) ↔ Controls calls decision node := by
      simp [ControlsPending]
    refine carries.join_merged otherCarries differ ⟨_, rfl, serial⟩ ?_
      (appends.controlsPending_iff grounded fun node found => (baseOld node found).trans_le serial)
    rw [pending, pending, pending]
    exact controls decision decisionOld

/-- A join of two states that are reached alike merges the nodes and then the conditions. -/
theorem joinState_merges {result other : AnalysisState} (same : result.reachable = other.reachable)
    (joined : dfa.joinState result other = some next) :
    ∃ start : DataFlowAnalysis, start.calls = dfa.calls ∧ start.serial = dfa.serial ∧
      start.state.node = result.node ∧ start.state.condition = result.condition ∧
      let nodes := start.mergeNodes result.node other.node
      let conditions := nodes.2.mergeNodes result.condition other.condition
      next.calls = conditions.2.calls ∧ next.serial = conditions.2.serial ∧
        next.state.node = nodes.1 ∧ next.state.condition = conditions.1 := by
  rw [joinState, if_pos same] at joined
  simp only [mergeStates, Option.bind_eq_bind, Option.bind_eq_some_iff, Option.some.injEq]
    at joined
  obtain ⟨middle, folded, rfl⟩ := joined
  obtain ⟨tracked, rfl⟩ := mergeAll_eq folded
  have kept := (OnlyCalls.mergeNodes ((dfa.setState result).setDrivers tracked) result.node
    other.node).state
  exact ⟨(dfa.setState result).setDrivers tracked, rfl, rfl, rfl, rfl,
    by rw [show ((dfa.setState result).setDrivers tracked).state.node = result.node from rfl, kept]
       exact ⟨rfl, rfl, rfl, rfl⟩⟩

/-- A state whose node and condition exist. -/
theorem Grounded.of_state (grounded : dfa.Grounded) (calls : next.calls = dfa.calls)
    (serial : next.serial = dfa.serial)
    (node : ∀ node, next.state.node = some node → node.serial < dfa.serial)
    (condition : ∀ condition, next.state.condition = some condition →
      condition.serial < dfa.serial) : next.Grounded where
  node found same := serial ▸ node found same
  condition found same := serial ▸ condition found same
  edges source target edge := by
    rw [calls] at edge
    rw [serial]
    exact grounded.edges source target edge

theorem Appends.of_eq (calls : next.calls = dfa.calls) (serial : next.serial = dfa.serial) :
    Appends dfa next [] :=
  ⟨by rw [calls, List.append_nil], serial.ge, fun _ _ edge => absurd edge not_controlEdge_nil⟩

/-- The join of two arms. -/
theorem joinState_carries {result other : AnalysisState} {resultCarry otherCarry : Carry}
    (grounded : dfa.Grounded) (same : result.reachable = other.reachable)
    (joined : dfa.joinState result other = some next)
    (resultNode : ∀ node, result.node = some node → node.serial < dfa.serial)
    (otherNode : ∀ node, other.node = some node → node.serial < dfa.serial)
    (resultOld : ∀ node, result.condition = some node → node.serial < dfa.serial)
    (otherOld : ∀ node, other.condition = some node → node.serial < dfa.serial)
    (baseOld : ∀ node, base.state.condition = some node → node.serial < base.serial)
    (serial : base.serial ≤ dfa.serial)
    (distinct : ∀ node, result.condition = some node → other.condition = some node →
      node.serial < base.serial) :
    (∃ made, Appends dfa next made) ∧ next.Grounded ∧
      ∀ decision, decision.serial < base.serial →
        Carries decision base dfa.calls result.condition resultCarry →
        Carries decision base dfa.calls other.condition otherCarry →
        Carries decision base next.calls next.state.condition (resultCarry.join otherCarry) := by
  obtain ⟨start, calls, startSerial, node, condition, nextCalls, nextSerial, nextNode,
    nextCondition⟩ := joinState_merges same joined
  have startGrounded : start.Grounded := grounded.of_state calls startSerial
    (fun found same => resultNode found (node ▸ same))
    (fun found same => resultOld found (condition ▸ same))
  rw [← startSerial] at resultNode otherNode resultOld otherOld serial
  obtain ⟨⟨first, front⟩, between, nodeMade⟩ :=
    mergeNodes_passes startGrounded resultNode otherNode
  have later {node : NodeRef} (old : node.serial < start.serial) :
      node.serial < (start.mergeNodes result.node other.node).2.serial :=
    old.trans_le front.serial
  obtain ⟨⟨second, back⟩, last, conditionMade⟩ := mergeNodes_passes between
    (fun node same => later (resultOld node same)) fun node same => later (otherOld node same)
  have whole := ((Appends.of_eq calls startSerial).trans front).trans
    (back.trans (Appends.of_eq nextCalls nextSerial))
  refine ⟨⟨_, whole⟩, last.of_state nextCalls nextSerial (fun found same => ?_)
    (fun found same => ?_), fun decision old resultCarries otherCarries => ?_⟩
  · exact (nodeMade found (nextNode ▸ same)).trans_le back.serial
  · exact conditionMade found (nextCondition ▸ same)
  · rw [nextCalls, nextCondition]
    rw [← calls] at resultCarries otherCarries
    have startOld : ∀ node, base.state.condition = some node → node.serial < start.serial :=
      fun node same => (baseOld node same).trans_le serial
    exact Carries.join between
      (resultCarries.later front startGrounded resultOld startOld)
      (otherCarries.later front startGrounded otherOld startOld)
      (fun node same => later (resultOld node same)) (fun node same => later (otherOld node same))
      baseOld (serial.trans front.serial) (later (old.trans_le serial)) distinct

end DataFlowAnalysis

end SlangNetlist
