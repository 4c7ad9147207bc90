import SlangNetlist.Analysis.EntryValues
import SlangNetlist.Analysis.LivePaths
import SlangNetlist.Analysis.TrackerCalls
import SlangNetlist.Library.Transfer

/-!
# Reaching definitions

The analysis of a block as a forward data flow analysis.  Each assignment is a
transfer function from bits to the nodes that drive them.  The drivers of a state
are the join of these functions over the live control paths, so that they are the
definitions that reach it along some path.
-/

namespace SlangNetlist

open Library TrackerState

/-- The drivers of all bits. -/
def TrackerState.facts (state : TrackerState) : ValueSymbol × Int → Set (Option NodeRef) :=
  fun key => { driver | driver ∈ state.driversAt key.1 key.2 }

/-- The blocking assignment at the position writes the bit. -/
def Stmt.DefinesAt (resolveAssignBits : Bool) (body : Stmt) (symbol : ValueSymbol) (bit : Int)
    (position : Position) : Prop :=
  ∃ expr, body.leafAt position = some (.assign expr) ∧ expr.isBlocking = true ∧
    expr.Assigns resolveAssignBits symbol bit

namespace DataFlowAnalysis

/-- The node with which the blocking assignment at the position writes the bit last. -/
def DefinedAt (resolveAssignBits : Bool) (start : DataFlowAnalysis) (body : Stmt)
    (position : Position) (symbol : ValueSymbol) (bit : Int) (node : NodeRef) : Prop :=
  (∃ expr, body.leafAt position = some (.assign expr) ∧ expr.isBlocking = true) ∧
    WrittenAt resolveAssignBits start body position symbol bit node

/-- What the leaf at a position does to the drivers. -/
def leafTransfer (resolveAssignBits : Bool) (start : DataFlowAnalysis) (body : Stmt)
    (position : Position) : Transfer (ValueSymbol × Int) (Option NodeRef) where
  made key := { driver | ∃ node, driver = some node ∧
    DefinedAt resolveAssignBits start body position key.1 key.2 node }
  kept := { key | ¬ body.DefinesAt resolveAssignBits key.1 key.2 position }

/-- What the leaves on one of some paths do to the drivers. -/
def pathsTransfer (resolveAssignBits : Bool) (start : DataFlowAnalysis) (body : Stmt)
    (paths : List (List Position)) : Transfer (ValueSymbol × Int) (Option NodeRef) :=
  Transfer.join (paths.map (·.map (leafTransfer resolveAssignBits start body)))

/-- The calls of the tracker that the walk of a statement makes where control gets to. -/
def trackerCalls (resolveAssignBits : Bool) :
    Stmt → DataFlowAnalysis → List (TrackerState × DriverCall)
  | .assign expr, dfa =>
      if dfa.state.reachable then
        stepCalls (assignmentSteps resolveAssignBits dfa expr)
          (assignmentStart resolveAssignBits dfa expr)
      else []
  | .seq first second, dfa =>
      trackerCalls resolveAssignBits first dfa ++
        (handleStmt resolveAssignBits first dfa).elim [] (trackerCalls resolveAssignBits second)
  | .either dead intoFirst first second, dfa =>
      let firstStart := dfa.setState (dfa.state.armState dead .first)
      trackerCalls resolveAssignBits first firstStart ++
        (handleStmt resolveAssignBits first firstStart).elim [] fun afterFirst =>
          let secondStart := afterFirst.setState (dfa.state.armState dead .second)
          trackerCalls resolveAssignBits second secondStart ++
            (handleStmt resolveAssignBits second secondStart).elim [] fun afterSecond =>
              if intoFirst then
                joinCalls afterSecond.valueTracker afterFirst.state afterSecond.state
              else joinCalls afterSecond.valueTracker afterSecond.state afterFirst.state
  | _, _ => []

/-- The drivers behind some paths through a body are those before it, through the paths. -/
structure Delivers (resolveAssignBits : Bool) (start : DataFlowAnalysis) (body : Stmt)
    (paths : List (List Position)) (state : TrackerState) : Prop where
  sound : state.Sound
  facts : state.facts =
    (pathsTransfer resolveAssignBits start body paths).apply start.tracked.facts

variable {resolveAssignBits : Bool} {start partStart middle next : DataFlowAnalysis}
  {body part first second leaf : Stmt} {position : Position} {symbol : ValueSymbol} {bit : Int}
  {node : NodeRef}

/-! ## Leaves -/

/-- The same drivers under a tracker with more slots. -/
theorem Sound.facts_grow {state : TrackerState} (sound : state.Sound) {later : ValueTracker}
    (grows : state.tracker.Grows later) :
    TrackerState.facts ⟨later, state.drivers⟩ = state.facts := by
  ext key driver
  simp only [TrackerState.facts, (sound.grow grows).2]

theorem Delivers.grow {paths : List (List Position)} {state : TrackerState}
    (delivers : Delivers resolveAssignBits start body paths state) {later : ValueTracker}
    (grows : state.tracker.Grows later) :
    Delivers resolveAssignBits start body paths ⟨later, state.drivers⟩ :=
  ⟨(delivers.sound.grow grows).1, (Sound.facts_grow delivers.sound grows).trans delivers.facts⟩

/-- A leaf that is no blocking assignment does nothing to the drivers. -/
theorem leafTransfer_idle
    (none : ∀ expr, body.leafAt position = some (.assign expr) → expr.isBlocking = false) :
    leafTransfer resolveAssignBits start body position = Transfer.idle := by
  have silent {expr : AssignmentExpression} (found : body.leafAt position = some (.assign expr))
      (isBlocking : expr.isBlocking = true) : False :=
    absurd (isBlocking.symm.trans (none expr found)) (by simp)
  ext key driver
  · constructor
    · rintro ⟨_, _, ⟨expr, found, isBlocking⟩, _⟩
      exact (silent found isBlocking).elim
    · exact fun absent => absent.elim
  · constructor
    · exact fun _ => Set.mem_univ key
    · rintro _ ⟨expr, found, isBlocking, _⟩
      exact silent found isBlocking

/-- The path of one leaf. -/
theorem pathsTransfer_leaf :
    pathsTransfer resolveAssignBits start body [[position]] =
      leafTransfer resolveAssignBits start body position :=
  Transfer.join_single _

/-- A statement that leaves the drivers alone. -/
theorem Delivers.idle (sound : start.tracked.Sound) (tracked : next.tracked = start.tracked)
    (none : ∀ expr, leaf.leafAt [] = some (.assign expr) → expr.isBlocking = false) :
    Delivers resolveAssignBits start leaf [[[]]] next.tracked := by
  refine ⟨tracked ▸ sound, ?_⟩
  rw [tracked, pathsTransfer_leaf, leafTransfer_idle none, Transfer.apply_idle]

/-- Nothing changes on the way to a leaf. -/
theorem Delivers.here (sound : start.tracked.Sound) :
    Delivers resolveAssignBits start body [[]] start.tracked := by
  refine ⟨sound, ?_⟩
  rw [pathsTransfer, List.map_singleton, List.map_nil, Transfer.join_idle, Transfer.apply_idle]

/-- A blocking assignment replaces the drivers of the bits that it writes. -/
theorem Delivers.assign (walking : Walking start) (sound : start.tracked.Sound)
    {expr : AssignmentExpression} (isBlocking : expr.isBlocking = true)
    (separated : Separated (trackerCalls resolveAssignBits (.assign expr) start))
    (handled : start.handleAssignment resolveAssignBits expr = some next) :
    Delivers resolveAssignBits start (.assign expr) [[[]]] next.tracked := by
  rw [handleAssignment_eq resolveAssignBits start expr walking.isLValue] at handled
  rw [trackerCalls, if_pos walking.reachable] at separated
  have same := assignmentStart_tracked resolveAssignBits start expr
  have startBlocking : (assignmentStart resolveAssignBits start expr).isBlocking = true := by
    rw [assignmentStart, if_neg (by simp [walking.prohibitLValue])]
    exact isBlocking
  obtain ⟨nextSound, drivers⟩ := run_driversAt (same ▸ sound) startBlocking separated handled
  refine ⟨nextSound, ?_⟩
  rw [pathsTransfer_leaf]
  ext key driver
  refine (drivers key.1 key.2 driver).trans (or_congr ?_ (and_congr ?_ (by rw [same]; rfl)))
  · constructor
    · intro writes
      obtain ⟨node, rfl⟩ := writes.current
      exact ⟨node, rfl, ⟨expr, rfl, isBlocking⟩, writtenAt_assign.mpr writes⟩
    · rintro ⟨node, rfl, _, written⟩
      exact writtenAt_assign.mp written
  · refine not_congr ((written_assignmentSteps walking).trans ⟨fun assigns => ?_, ?_⟩)
    · exact ⟨expr, rfl, isBlocking, assigns⟩
    · rintro ⟨_, found, _, assigns⟩
      cases found
      exact assigns

theorem force_tracked {expr : AssignmentExpression} (flagged : start.isLValue = false)
    (handled : handleStmt resolveAssignBits (.force expr) start = some next) :
    next.tracked = start.tracked := by
  simp only [handleStmt, Option.bind_eq_bind, Option.bind_eq_some_iff, Option.some.injEq]
    at handled
  obtain ⟨forced, handled, rfl⟩ := handled
  have flagged : ({ start with prohibitLValue := true } : DataFlowAnalysis).isLValue = false :=
    flagged
  rw [handleAssignment_eq resolveAssignBits _ expr flagged] at handled
  refine (run_tracked (Or.inr ?_) handled).trans (assignmentStart_tracked resolveAssignBits _ expr)
  rintro _ member written lsp bounds rfl
  exact write_not_mem_force rfl member

/-! ## Parts of a body -/

/-- The part on one side of a body, and the state in which the walk comes to the part. -/
structure PartAt (resolveAssignBits : Bool) (start : DataFlowAnalysis) (body : Stmt)
    (side : Side) (partStart : DataFlowAnalysis) (part : Stmt) : Prop where
  leaves : ∀ rest, body.leafAt (side :: rest) = part.leafAt rest
  states : ∀ rest, stateAt resolveAssignBits body (side :: rest) start =
    stateAt resolveAssignBits part rest partStart

theorem PartAt.seqFirst : PartAt resolveAssignBits start (.seq first second) .first start first :=
  ⟨fun _ => rfl, fun _ => rfl⟩

theorem PartAt.seqSecond (handled : handleStmt resolveAssignBits first start = some middle) :
    PartAt resolveAssignBits start (.seq first second) .second middle second :=
  ⟨fun _ => rfl, fun _ => by simp [stateAt, handled]⟩

theorem PartAt.eitherFirst (dead : Option Side) (intoFirst : Bool) (first second : Stmt) :
    PartAt resolveAssignBits start (.either dead intoFirst first second) .first
      (start.setState (start.state.armState dead .first)) first :=
  ⟨fun _ => rfl, fun _ => rfl⟩

theorem PartAt.eitherSecond {dead : Option Side} (intoFirst : Bool) (second : Stmt)
    (handled : handleStmt resolveAssignBits first
      (start.setState (start.state.armState dead .first)) = some middle) :
    PartAt resolveAssignBits start (.either dead intoFirst first second) .second
      (middle.setState (start.state.armState dead .second)) second :=
  ⟨fun _ => rfl, fun _ => by simp [stateAt, handled]⟩

variable {side : Side}

/-- A leaf of a part is a leaf of the body. -/
theorem PartAt.leafTransfer
    (partAt : PartAt resolveAssignBits start body side partStart part) (rest : Position) :
    leafTransfer resolveAssignBits start body (side :: rest) =
      leafTransfer resolveAssignBits partStart part rest := by
  simp only [DataFlowAnalysis.leafTransfer, DefinedAt, Stmt.DefinesAt, partAt.leaves,
    writtenAt_part (partAt.leaves rest) (partAt.states rest)]

theorem PartAt.pathsTransfer
    (partAt : PartAt resolveAssignBits start body side partStart part)
    (paths : List (List Position)) :
    pathsTransfer resolveAssignBits start body (paths.map (·.map (side :: ·))) =
      pathsTransfer resolveAssignBits partStart part paths := by
  simp only [DataFlowAnalysis.pathsTransfer, List.map_map, Function.comp_def,
    partAt.leafTransfer]

/-- What a part delivers, the body delivers along the paths in the part. -/
theorem Delivers.of_part {paths : List (List Position)} {state : TrackerState}
    (partAt : PartAt resolveAssignBits start body side partStart part)
    (facts : partStart.tracked.facts = start.tracked.facts)
    (delivers : Delivers resolveAssignBits partStart part paths state) :
    Delivers resolveAssignBits start body (paths.map (·.map (side :: ·))) state := by
  refine ⟨delivers.sound, ?_⟩
  rw [partAt.pathsTransfer, ← facts, delivers.facts]

/-- The paths through a sequence are those of its parts, one after the other. -/
theorem pathsTransfer_seq {front back : List (List Position)} (entered : front ≠ [])
    (handled : handleStmt resolveAssignBits first start = some middle) :
    pathsTransfer resolveAssignBits start (.seq first second)
        (front.flatMap fun entry => back.map fun rest =>
          entry.map (.first :: ·) ++ rest.map (.second :: ·)) =
      (pathsTransfer resolveAssignBits start first front).comp
        (pathsTransfer resolveAssignBits middle second back) := by
  have inFirst := (PartAt.seqFirst : PartAt resolveAssignBits start (.seq first second) .first
    start first).leafTransfer
  have inSecond := (PartAt.seqSecond handled : PartAt resolveAssignBits start
    (.seq first second) .second middle second).leafTransfer
  have entered : front.map (·.map (leafTransfer resolveAssignBits start first)) ≠ [] := by
    simpa using entered
  rw [pathsTransfer, pathsTransfer, pathsTransfer, ← Transfer.join_comp entered]
  simp only [List.map_flatMap, List.flatMap_map, List.map_map, List.map_append, Function.comp_def,
    inFirst, inSecond]

/-- One part after the other. -/
theorem Delivers.seq {front back : List (List Position)} {state : TrackerState}
    (entered : front ≠ [])
    (handled : handleStmt resolveAssignBits first start = some middle)
    (deliversFirst : Delivers resolveAssignBits start first front middle.tracked)
    (deliversSecond : Delivers resolveAssignBits middle second back state) :
    Delivers resolveAssignBits start (.seq first second)
      (front.flatMap fun entry => back.map fun rest =>
        entry.map (.first :: ·) ++ rest.map (.second :: ·)) state := by
  refine ⟨deliversSecond.sound, ?_⟩
  rw [pathsTransfer_seq entered handled, Transfer.apply_comp, ← deliversFirst.facts,
    deliversSecond.facts]

/-! ## Joins -/

/-- A state delivers the drivers along some paths if control gets to it; else there is none. -/
structure DeliversArm (resolveAssignBits : Bool) (start : DataFlowAnalysis) (body : Stmt)
    (paths : List (List Position)) (tracker : ValueTracker) (state : AnalysisState) : Prop where
  tidy : TrackerState.Tidy ⟨tracker, state.valueDrivers⟩
  live : state.reachable = true →
    Delivers resolveAssignBits start body paths ⟨tracker, state.valueDrivers⟩
  dead : state.reachable = false → paths = []

/-- A join delivers the drivers along the paths of both arms. -/
theorem DeliversArm.join {front back : List (List Position)} {dfa : DataFlowAnalysis}
    {result other : AnalysisState}
    (resultArm : DeliversArm resolveAssignBits start body front dfa.valueTracker result)
    (otherArm : DeliversArm resolveAssignBits start body back dfa.valueTracker other)
    (separated : Separated (joinCalls dfa.valueTracker result other))
    (joined : dfa.joinState result other = some next) (reached : next.state.reachable = true) :
    Delivers resolveAssignBits start body (front ++ back) next.tracked := by
  cases resultReached : result.reachable with
  | true =>
      have carried := resultArm.live resultReached
      cases otherReached : other.reachable with
      | true =>
          obtain ⟨sound, drivers⟩ := joinState_driversAt carried.sound otherArm.tidy resultReached
            otherReached separated joined
          refine ⟨sound, ?_⟩
          rw [pathsTransfer, List.map_append, Transfer.apply_join_append, ← pathsTransfer,
            ← pathsTransfer, ← carried.facts, ← (otherArm.live otherReached).facts]
          ext key driver
          exact drivers key.1 key.2 driver
      | false =>
          rw [joinState, if_neg (by simp [resultReached, otherReached]),
            if_neg (by simp [resultReached])] at joined
          cases joined
          rw [otherArm.dead otherReached, List.append_nil]
          exact carried
  | false =>
      rw [resultArm.dead resultReached, List.nil_append]
      rw [(SameBlock.joinState joined).2, resultReached, Bool.false_or] at reached
      rw [joinState, if_neg (by simp [resultReached, reached]),
        if_pos (by simp [resultReached])] at joined
      cases joined
      exact otherArm.live reached

theorem Delivers.swap {front back : List (List Position)} {state : TrackerState}
    (delivers : Delivers resolveAssignBits start body (front ++ back) state) :
    Delivers resolveAssignBits start body (back ++ front) state := by
  refine ⟨delivers.sound, delivers.facts.trans ?_⟩
  simp only [pathsTransfer, List.map_append, Transfer.apply_join_append, Set.union_comm]

/-- An arm delivers the drivers along its paths, unless it is dead. -/
theorem DeliversArm.of_part {dead : Option Side} {tracker : ValueTracker}
    (partAt : PartAt resolveAssignBits start body side partStart part)
    (facts : dead ≠ some side → partStart.tracked.facts = start.tracked.facts)
    (tidy : TrackerState.Tidy ⟨tracker, next.state.valueDrivers⟩)
    (grows : next.valueTracker.Grows tracker)
    (reached : next.state.reachable = true ↔ dead ≠ some side ∧ part.livePaths ≠ [])
    (delivers : next.state.reachable = true →
      Delivers resolveAssignBits partStart part part.livePaths next.tracked) :
    DeliversArm resolveAssignBits start body
      (if dead = some side then [] else part.livePaths.map (·.map (side :: ·))) tracker
      next.state := by
  refine ⟨tidy, fun live => ?_, fun unreached => ?_⟩
  · obtain ⟨alive, _⟩ := reached.mp live
    rw [if_neg alive]
    exact ((delivers live).grow grows).of_part partAt (facts alive)
  · split
    · rfl
    · next alive =>
        have none : part.livePaths = [] := by
          by_contra nonempty
          exact absurd (unreached.symm.trans (reached.mpr ⟨alive, nonempty⟩)) (by simp)
        rw [none]
        rfl

/-! ## Statements -/

theorem armState_of_ne {state : AnalysisState} {dead : Option Side} {side : Side}
    (alive : dead ≠ some side) : state.armState dead side = state :=
  if_neg alive

/-- A state in which control gets to a statement. -/
structure Ready (dfa : DataFlowAnalysis) : Prop extends Walking dfa where
  sound : dfa.tracked.Sound
  tidy : dfa.tracked.Tidy

theorem ready_initial (task : Nat) (externalNode : Option NodeRef) :
    Ready (initial task externalNode) :=
  ⟨walking_initial task externalNode, TrackerState.sound_empty, TrackerState.tidy_empty⟩

theorem Ready.after (ready : Ready start)
    (handled : handleStmt resolveAssignBits body start = some next)
    (reached : next.state.reachable = true) (sound : next.tracked.Sound) : Ready next :=
  ⟨ready.of_sameBlock (SameBlock.handleStmt body ready.isLValue ready.prohibitLValue handled).1
      reached, sound,
    (Continues.handleStmt ready.isLValue ready.prohibitLValue ready.tidy handled).tidy⟩

/-- The start of the first arm of a branch. -/
structure FirstStart (start firstStart : DataFlowAnalysis) (dead : Option Side) : Prop where
  same : SameBlock start firstStart
  tidy : firstStart.tracked.Tidy
  tracked : dead ≠ some .first → firstStart.tracked = start.tracked
  reachable : firstStart.state.reachable = true ↔ dead ≠ some .first

theorem Ready.firstStart (ready : Ready start) (dead : Option Side) :
    FirstStart start (start.setState (start.state.armState dead .first)) dead where
  same := SameBlock.setState start _
  tidy := tidy_armState ready.tidy (ValueTracker.Grows.refl _) ready.tidy.distinct dead .first
  tracked alive := by
    simp only [armState_of_ne alive]
    rfl
  reachable := by simp [setState, armState_reachable, ready.reachable]

/-- The start of the second arm: a copy of the state before the branch, with the slots by then. -/
structure SecondStart (start secondStart : DataFlowAnalysis) (dead : Option Side) : Prop where
  same : SameBlock start secondStart
  tidy : secondStart.tracked.Tidy
  grows : start.valueTracker.Grows secondStart.valueTracker
  tracked : dead ≠ some .second →
    secondStart.tracked = ⟨secondStart.valueTracker, start.state.valueDrivers⟩
  reachable : secondStart.state.reachable = true ↔ dead ≠ some .second

theorem Ready.secondStart (ready : Ready start) {dead : Option Side} {afterFirst : DataFlowAnalysis}
    (firstArm : handleStmt resolveAssignBits first
      (start.setState (start.state.armState dead .first)) = some afterFirst) :
    SecondStart start (afterFirst.setState (start.state.armState dead .second)) dead := by
  obtain ⟨same, tidy, _, _⟩ := ready.firstStart dead
  have flagged := same.isLValue.trans ready.isLValue
  have allowed := same.prohibitLValue.trans ready.prohibitLValue
  have continues := Continues.handleStmt flagged allowed tidy firstArm
  exact
    { same := (same.trans (SameBlock.handleStmt first flagged allowed firstArm).1).trans
        (SameBlock.setState afterFirst _)
      tidy := tidy_armState ready.tidy continues.grows continues.tidy.distinct dead .second
      grows := continues.grows
      tracked := fun alive => by
        simp only [armState_of_ne alive]
        rfl
      reachable := by simp [setState, armState_reachable, ready.reachable] }

theorem FirstStart.ready {firstStart : DataFlowAnalysis} {dead : Option Side}
    (enters : FirstStart start firstStart dead) (ready : Ready start)
    (alive : dead ≠ some .first) : Ready firstStart :=
  ⟨ready.of_sameBlock enters.same (enters.reachable.mpr alive),
    enters.tracked alive ▸ ready.sound, enters.tidy⟩

theorem SecondStart.ready {secondStart : DataFlowAnalysis} {dead : Option Side}
    (enters : SecondStart start secondStart dead) (ready : Ready start)
    (alive : dead ≠ some .second) : Ready secondStart :=
  ⟨ready.of_sameBlock enters.same (enters.reachable.mpr alive),
    enters.tracked alive ▸ (ready.sound.grow enters.grows).1, enters.tidy⟩

theorem SecondStart.facts {secondStart : DataFlowAnalysis} {dead : Option Side}
    (enters : SecondStart start secondStart dead) (ready : Ready start)
    (alive : dead ≠ some .second) : secondStart.tracked.facts = start.tracked.facts := by
  rw [enters.tracked alive]
  exact Sound.facts_grow ready.sound enters.grows

/-- A statement delivers the drivers along its live paths. -/
theorem handleStmt_delivers (ready : Ready start)
    (separated : Separated (trackerCalls resolveAssignBits body start))
    (handled : handleStmt resolveAssignBits body start = some next)
    (reached : next.state.reachable = true) :
    Delivers resolveAssignBits start body body.livePaths next.tracked := by
  induction body generalizing start next with
  | skip =>
      cases handled
      exact Delivers.idle ready.sound rfl (by simp [Stmt.leafAt])
  | assign expr =>
      cases isBlocking : expr.isBlocking with
      | true => exact Delivers.assign ready.toWalking ready.sound isBlocking separated handled
      | false =>
          obtain ⟨added, queue⟩ := handleAssignment_queues ready.toWalking isBlocking handled
          refine Delivers.idle ready.sound queue.queues.tracked fun other found => ?_
          cases found
          exact isBlocking
  | force expr =>
      exact Delivers.idle ready.sound (force_tracked ready.isLValue handled)
        (by simp [Stmt.leafAt])
  | decide kind location condition =>
      have visited : visit (start.enterDecision kind location) condition = some next := handled
      rw [visit_eq _ false, (SameBlock.enterDecision start kind location).1.isLValue,
        ready.isLValue] at visited
      obtain ⟨calls, rfl⟩ := run_appends (reads_ofExpr _ _ _) visited
      exact Delivers.idle ready.sound (enterDecision_tracked start kind location)
        (by simp [Stmt.leafAt])
  | jump =>
      cases handled
      cases reached
  | seq first second firstIh secondIh =>
      simp only [handleStmt, Option.bind_eq_bind, Option.bind_eq_some_iff] at handled
      obtain ⟨middle, front, back⟩ := handled
      rw [trackerCalls, front, Option.elim_some, separated_append] at separated
      obtain ⟨firstSeparated, secondSeparated⟩ := separated
      have same := (SameBlock.handleStmt first ready.isLValue ready.prohibitLValue front).1
      obtain ⟨middleReached, _⟩ := (reachable_handleStmt (same.isLValue.trans ready.isLValue)
        (same.prohibitLValue.trans ready.prohibitLValue) back).mp reached
      have entered :=
        ((reachable_handleStmt ready.isLValue ready.prohibitLValue front).mp middleReached).2
      have deliversFirst := firstIh ready firstSeparated front middleReached
      have middleReady := ready.after front middleReached deliversFirst.sound
      exact Delivers.seq entered front deliversFirst
        (secondIh middleReady secondSeparated back reached)
  | either dead intoFirst first second firstIh secondIh =>
      simp only [handleStmt, Option.bind_eq_bind, Option.bind_eq_some_iff] at handled
      obtain ⟨afterFirst, firstArm, afterSecond, secondArm, joined⟩ := handled
      simp only [trackerCalls, firstArm, secondArm, Option.elim_some, separated_append]
        at separated
      obtain ⟨firstSeparated, secondSeparated, joinSeparated⟩ := separated
      have firstStart := ready.firstStart dead
      have secondStart := ready.secondStart firstArm
      have firstFlagged := firstStart.same.isLValue.trans ready.isLValue
      have firstAllowed := firstStart.same.prohibitLValue.trans ready.prohibitLValue
      have secondFlagged := secondStart.same.isLValue.trans ready.isLValue
      have secondAllowed := secondStart.same.prohibitLValue.trans ready.prohibitLValue
      have firstContinues := Continues.handleStmt firstFlagged firstAllowed firstStart.tidy
        firstArm
      have secondContinues := Continues.handleStmt secondFlagged secondAllowed secondStart.tidy
        secondArm
      have firstReached := (reachable_handleStmt firstFlagged firstAllowed firstArm).trans
        (and_congr_left' firstStart.reachable)
      have secondReached := (reachable_handleStmt secondFlagged secondAllowed secondArm).trans
        (and_congr_left' secondStart.reachable)
      have firstDelivers := DeliversArm.of_part
        (PartAt.eitherFirst dead intoFirst first second)
        (fun alive => congrArg TrackerState.facts (firstStart.tracked alive))
        (firstContinues.tidy.grow secondContinues.grows secondContinues.tidy.distinct).1
        secondContinues.grows firstReached fun live =>
          firstIh (firstStart.ready ready (firstReached.mp live).1) firstSeparated firstArm live
      have secondDelivers := DeliversArm.of_part
        (PartAt.eitherSecond intoFirst second firstArm) (secondStart.facts ready)
        secondContinues.tidy (ValueTracker.Grows.refl _) secondReached fun live =>
          secondIh (secondStart.ready ready (secondReached.mp live).1) secondSeparated secondArm
            live
      cases intoFirst with
      | true => exact firstDelivers.join secondDelivers joinSeparated joined reached
      | false => exact (secondDelivers.join firstDelivers joinSeparated joined reached).swap

/-- The walk comes to a position with the drivers along the live paths to it. -/
theorem stateAt_delivers (ready : Ready start)
    (separated : Separated (trackerCalls resolveAssignBits body start))
    (at_ : stateAt resolveAssignBits body position start = some next)
    (reached : next.state.reachable = true) :
    Delivers resolveAssignBits start body (body.livePathsTo position) next.tracked := by
  induction body generalizing position start next with
  | skip | assign | force | decide | jump =>
      cases position with
      | nil =>
          cases at_
          exact Delivers.here ready.sound
      | cons side rest => cases at_
  | seq first second firstIh secondIh =>
      cases position with
      | nil => cases at_
      | cons side rest =>
          cases side with
          | first =>
              refine Delivers.of_part PartAt.seqFirst rfl (firstIh ready ?_ at_ reached)
              exact (separated_append.mp separated).1
          | second =>
              simp only [stateAt, Option.bind_eq_bind, Option.bind_eq_some_iff] at at_
              obtain ⟨middle, front, at_⟩ := at_
              rw [trackerCalls, front, Option.elim_some, separated_append] at separated
              obtain ⟨firstSeparated, secondSeparated⟩ := separated
              have same := (SameBlock.handleStmt first ready.isLValue ready.prohibitLValue front).1
              obtain ⟨middleReached, _⟩ := (reachable_stateAt (same.isLValue.trans ready.isLValue)
                (same.prohibitLValue.trans ready.prohibitLValue) at_).mp reached
              obtain ⟨_, entered⟩ :=
                (reachable_handleStmt ready.isLValue ready.prohibitLValue front).mp middleReached
              have deliversFirst := handleStmt_delivers ready firstSeparated front middleReached
              have middleReady := ready.after front middleReached deliversFirst.sound
              exact Delivers.seq entered front deliversFirst
                (secondIh middleReady secondSeparated at_ reached)
  | either dead intoFirst first second firstIh secondIh =>
      cases position with
      | nil => cases at_
      | cons side rest =>
          cases side with
          | first =>
              have firstStart := ready.firstStart dead
              have alive := firstStart.reachable.mp ((reachable_stateAt
                (firstStart.same.isLValue.trans ready.isLValue)
                (firstStart.same.prohibitLValue.trans ready.prohibitLValue) at_).mp reached).1
              rw [Stmt.livePathsTo, if_neg alive]
              refine Delivers.of_part (PartAt.eitherFirst dead intoFirst first second)
                (congrArg TrackerState.facts (firstStart.tracked alive))
                (firstIh (firstStart.ready ready alive) ?_ at_ reached)
              exact (separated_append.mp separated).1
          | second =>
              simp only [stateAt, Option.bind_eq_bind, Option.bind_eq_some_iff] at at_
              obtain ⟨afterFirst, firstArm, at_⟩ := at_
              simp only [trackerCalls, firstArm, Option.elim_some, separated_append] at separated
              have secondStart := ready.secondStart firstArm
              have alive := secondStart.reachable.mp ((reachable_stateAt
                (secondStart.same.isLValue.trans ready.isLValue)
                (secondStart.same.prohibitLValue.trans ready.prohibitLValue) at_).mp reached).1
              rw [Stmt.livePathsTo, if_neg alive]
              exact Delivers.of_part (PartAt.eitherSecond intoFirst second firstArm)
                (secondStart.facts ready alive)
                (secondIh (secondStart.ready ready alive) separated.2.1 at_ reached)

/-! ## Definitions along a path -/

/-- A blocking assignment on the path writes the bit with the node, and no later one writes it. -/
def ReachesAlong (resolveAssignBits : Bool) (start : DataFlowAnalysis) (body : Stmt)
    (path : List Position) (symbol : ValueSymbol) (bit : Int) (node : NodeRef) : Prop :=
  ∃ front assigned back, path = front ++ assigned :: back ∧
    DefinedAt resolveAssignBits start body assigned symbol bit node ∧
    ∀ later ∈ back, ¬ body.DefinesAt resolveAssignBits symbol bit later

theorem mem_made_pathsTransfer {paths : List (List Position)} {driver : Option NodeRef} :
    driver ∈ (pathsTransfer resolveAssignBits start body paths).made (symbol, bit) ↔
      ∃ node, driver = some node ∧ ∃ path ∈ paths,
        ReachesAlong resolveAssignBits start body path symbol bit node := by
  simp only [pathsTransfer, Transfer.mem_made_join, List.mem_map, exists_exists_and_eq_and,
    Transfer.mem_made_path]
  constructor
  · rintro ⟨path, member, front, _, back, split, made, kept⟩
    obtain ⟨before, rest, rfl, rfl, tail⟩ := List.map_eq_append_iff.mp split
    obtain ⟨assigned, after, rfl, rfl, rfl⟩ := List.map_eq_cons_iff.mp tail
    obtain ⟨node, rfl, defined⟩ := made
    exact ⟨node, rfl, _, member, before, assigned, after, rfl, defined, fun later laterMem =>
      kept _ (List.mem_map_of_mem laterMem)⟩
  · rintro ⟨node, rfl, path, member, front, assigned, back, rfl, defined, none⟩
    refine ⟨_, member, front.map _, _, back.map _, List.map_append.trans rfl,
      ⟨node, rfl, defined⟩, fun later laterMem => ?_⟩
    obtain ⟨position, positionMem, rfl⟩ := List.mem_map.mp laterMem
    exact none position positionMem

/-- The drivers at the start of a block, of which there are none. -/
theorem not_mem_driversAt_initial (task : Nat) (externalNode : Option NodeRef)
    (driver : Option NodeRef) :
    driver ∉ (initial task externalNode).tracked.driversAt symbol bit := fun drives =>
  absurd ((DriverMap.mem_driversAt (TrackerState.tidy_empty.ordered symbol)).mp drives)
    (DriverMap.not_drives_empty bit driver)

/-- At the start of a block no bit has a driver, so that only definitions on the paths are left. -/
theorem Delivers.mem_driversAt {task : Nat} {externalNode : Option NodeRef}
    {paths : List (List Position)} {state : TrackerState}
    (delivers : Delivers resolveAssignBits (initial task externalNode) body paths state)
    {driver : Option NodeRef} :
    driver ∈ state.driversAt symbol bit ↔ ∃ node, driver = some node ∧ ∃ path ∈ paths,
      ReachesAlong resolveAssignBits (initial task externalNode) body path symbol bit node := by
  rw [← mem_made_pathsTransfer]
  refine (Set.ext_iff.mp (congrFun delivers.facts (symbol, bit)) driver).trans
    (Transfer.mem_apply.trans (or_iff_left ?_))
  rintro ⟨_, before⟩
  exact not_mem_driversAt_initial task externalNode driver before

/--
In every body, the walk comes to a position with control exactly if a live path
leads there, and the drivers of a bit are then the blocking assignments that reach
the position along such a path.
-/
theorem driversAt_iff_reaches (resolveAssignBits : Bool) (task : Nat)
    (externalNode : Option NodeRef) {body : Stmt} {position : Position} {before : DataFlowAnalysis}
    (separated : Separated (trackerCalls resolveAssignBits body (initial task externalNode)))
    (at_ : stateAt resolveAssignBits body position (initial task externalNode) = some before) :
    (before.state.reachable = true ↔ body.livePathsTo position ≠ []) ∧
      (before.state.reachable = true → ∀ symbol bit driver,
        driver ∈ before.tracked.driversAt symbol bit ↔ ∃ node, driver = some node ∧
          ∃ path ∈ body.livePathsTo position,
            ReachesAlong resolveAssignBits (initial task externalNode) body path symbol bit
              node) := by
  have ready := ready_initial task externalNode
  refine ⟨(reachable_stateAt ready.isLValue ready.prohibitLValue at_).trans
    (and_iff_right ready.reachable), fun reached symbol bit driver => ?_⟩
  exact (stateAt_delivers ready separated at_ reached).mem_driversAt

/-- The increment of `t` in `if (u) t = t + 1; u = t;` reaches the copy. -/
theorem driversAt_iff_reaches_partlyAssigned :
    ∃ path ∈ partlyAssigned.livePathsTo [.second],
      ReachesAlong true (initial 0 none) partlyAssigned path signal 0 ⟨0, .assignment, 1⟩ := by
  let before := (stateAt true partlyAssigned [.second] (initial 0 none)).getD {}
  have at_ : stateAt true partlyAssigned [.second] (initial 0 none) = some before := by
    decide +kernel
  obtain ⟨_, drivers⟩ := driversAt_iff_reaches true 0 none
    (show Separated (trackerCalls true partlyAssigned (initial 0 none)) by decide +kernel) at_
  obtain ⟨node, same, reaches⟩ := (drivers (by decide +kernel) signal 0
    (some ⟨0, .assignment, 1⟩)).mp (by decide +kernel)
  cases same
  exact reaches

end DataFlowAnalysis

end SlangNetlist
