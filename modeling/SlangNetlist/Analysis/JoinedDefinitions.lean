import SlangNetlist.Analysis.AssignmentReads
import SlangNetlist.Analysis.ControlPaths
import SlangNetlist.Tracking.Coverage

/-!
# The definitions at a position

At every position of a body of blocking assignments, a bit has a definition
exactly if some control path to the position assigns it: assignments add the
bits that they write, and joins unite the definitions of the two arms.
-/

namespace SlangNetlist

open Library DataFlowAnalysis

/-- The assignment writes the bit of the symbol. -/
def AssignmentExpression.Assigns (resolveAssignBits : Bool) (expr : AssignmentExpression)
    (symbol : ValueSymbol) (bit : Int) : Prop :=
  Written (assignmentSteps resolveAssignBits (initial 0 none) expr) symbol bit

namespace Stmt

/-- Allowed assignments, sequences and branches on conditions that are not constant. -/
def Built (allowed : AssignmentExpression → Prop) : Stmt → Prop
  | .assign expr => allowed expr
  | .force _ => False
  | .seq first second => first.Built allowed ∧ second.Built allowed
  | .either dead _ first second => dead = none ∧ first.Built allowed ∧ second.Built allowed
  | .jump => False
  | .skip => True
  | .decide _ _ _ => True

/-- Blocking assignments, sequences and branches on conditions that are not constant. -/
def Plain : Stmt → Prop
  | .assign expr => expr.isBlocking = true
  | .force _ => False
  | .seq first second => first.Plain ∧ second.Plain
  | .either dead _ first second => dead = none ∧ first.Plain ∧ second.Plain
  | .jump => False
  | .skip => True
  | .decide _ _ _ => True

/-- Some assignment on the path writes the bit of the symbol. -/
def Assigns (resolveAssignBits : Bool) (body : Stmt) (path : List Position)
    (symbol : ValueSymbol) (bit : Int) : Prop :=
  ∃ position ∈ path, ∃ expr, body.leafAt position = some (.assign expr) ∧
    expr.Assigns resolveAssignBits symbol bit

variable {resolveAssignBits : Bool} {first second : Stmt} {symbol : ValueSymbol} {bit : Int}
  {dead : Option Side} {intoFirst : Bool}

theorem assigns_append {body : Stmt} {front back : List Position} :
    body.Assigns resolveAssignBits (front ++ back) symbol bit ↔
      body.Assigns resolveAssignBits front symbol bit ∨
        body.Assigns resolveAssignBits back symbol bit := by
  simp [Assigns, or_and_right, exists_or]

/-- The assignments of a part are those of the whole at the positions of that part. -/
theorem assigns_map {body part : Stmt} {side : Side}
    (leaves : ∀ position, body.leafAt (side :: position) = part.leafAt position)
    {path : List Position} :
    body.Assigns resolveAssignBits (path.map (side :: ·)) symbol bit ↔
      part.Assigns resolveAssignBits path symbol bit := by
  simp [Assigns, leaves]

theorem paths_ne_nil (body : Stmt) : body.paths ≠ [] := by
  induction body with
  | skip | assign | force | decide | jump => exact List.cons_ne_nil _ _
  | seq first second firstIh secondIh =>
      obtain ⟨front, frontMem⟩ := List.exists_mem_of_ne_nil _ firstIh
      obtain ⟨back, backMem⟩ := List.exists_mem_of_ne_nil _ secondIh
      exact List.ne_nil_of_mem (List.mem_flatMap.mpr ⟨front, frontMem,
        List.mem_map_of_mem backMem⟩)
  | either dead intoFirst first second firstIh _ =>
      obtain ⟨front, frontMem⟩ := List.exists_mem_of_ne_nil _ firstIh
      exact List.ne_nil_of_mem (List.mem_append_left _ (List.mem_map_of_mem frontMem))

/-- A leaf is on some path. -/
theorem pathsTo_ne_nil {body leaf : Stmt} {position : Position}
    (found : body.leafAt position = some leaf) : body.pathsTo position ≠ [] := by
  induction body generalizing position with
  | skip | assign | force | decide | jump =>
      cases position with
      | nil => exact List.cons_ne_nil _ _
      | cons side rest => cases found
  | seq first second firstIh secondIh =>
      match position with
      | [] => cases found
      | .first :: rest =>
          obtain ⟨front, frontMem⟩ := List.exists_mem_of_ne_nil _ (firstIh found)
          exact List.ne_nil_of_mem (List.mem_map_of_mem frontMem)
      | .second :: rest =>
          obtain ⟨front, frontMem⟩ := List.exists_mem_of_ne_nil _ first.paths_ne_nil
          obtain ⟨back, backMem⟩ := List.exists_mem_of_ne_nil _ (secondIh found)
          exact List.ne_nil_of_mem (List.mem_flatMap.mpr ⟨front, frontMem,
            List.mem_map_of_mem backMem⟩)
  | either dead intoFirst first second firstIh secondIh =>
      match position with
      | [] => cases found
      | .first :: rest =>
          obtain ⟨front, frontMem⟩ := List.exists_mem_of_ne_nil _ (firstIh found)
          exact List.ne_nil_of_mem (List.mem_map_of_mem frontMem)
      | .second :: rest =>
          obtain ⟨back, backMem⟩ := List.exists_mem_of_ne_nil _ (secondIh found)
          exact List.ne_nil_of_mem (List.mem_map_of_mem backMem)

/-- Some path of the list assigns the bit. -/
def SomeAssigns (resolveAssignBits : Bool) (body : Stmt) (paths : List (List Position))
    (symbol : ValueSymbol) (bit : Int) : Prop :=
  ∃ path ∈ paths, body.Assigns resolveAssignBits path symbol bit

theorem someAssigns_seq {paths : List (List Position)} (some : paths ≠ []) :
    (Stmt.seq first second).SomeAssigns resolveAssignBits
        (first.paths.flatMap fun front => paths.map fun back =>
          front.map (.first :: ·) ++ back.map (.second :: ·)) symbol bit ↔
      first.SomeAssigns resolveAssignBits first.paths symbol bit ∨
        second.SomeAssigns resolveAssignBits paths symbol bit := by
  have inFirst := @assigns_map resolveAssignBits symbol bit (.seq first second) first .first
    fun _ => rfl
  have inSecond := @assigns_map resolveAssignBits symbol bit (.seq first second) second .second
    fun _ => rfl
  simp only [SomeAssigns, List.mem_flatMap, List.mem_map]
  constructor
  · rintro ⟨_, ⟨front, frontMem, back, backMem, rfl⟩, assigns⟩
    rw [assigns_append, inFirst, inSecond] at assigns
    exact assigns.imp (fun assigned => ⟨front, frontMem, assigned⟩)
      fun assigned => ⟨back, backMem, assigned⟩
  · rintro (⟨front, frontMem, assigned⟩ | ⟨back, backMem, assigned⟩)
    · obtain ⟨back, backMem⟩ := List.exists_mem_of_ne_nil _ some
      exact ⟨_, ⟨front, frontMem, back, backMem, rfl⟩,
        assigns_append.mpr (Or.inl (inFirst.mpr assigned))⟩
    · obtain ⟨front, frontMem⟩ := List.exists_mem_of_ne_nil _ first.paths_ne_nil
      exact ⟨_, ⟨front, frontMem, back, backMem, rfl⟩,
        assigns_append.mpr (Or.inr (inSecond.mpr assigned))⟩

theorem someAssigns_map {body part : Stmt} {side : Side}
    (leaves : ∀ position, body.leafAt (side :: position) = part.leafAt position)
    {paths : List (List Position)} :
    body.SomeAssigns resolveAssignBits (paths.map (·.map (side :: ·))) symbol bit ↔
      part.SomeAssigns resolveAssignBits paths symbol bit := by
  simp [SomeAssigns, assigns_map leaves]

theorem someAssigns_either :
    (Stmt.either dead intoFirst first second).SomeAssigns resolveAssignBits
        (Stmt.either dead intoFirst first second).paths symbol bit ↔
      first.SomeAssigns resolveAssignBits first.paths symbol bit ∨
        second.SomeAssigns resolveAssignBits second.paths symbol bit := by
  have inFirst := @someAssigns_map resolveAssignBits symbol bit
    (.either dead intoFirst first second) first .first (fun _ => rfl) first.paths
  have inSecond := @someAssigns_map resolveAssignBits symbol bit
    (.either dead intoFirst first second) second .second (fun _ => rfl) second.paths
  rw [← inFirst, ← inSecond]
  simp only [SomeAssigns, paths, List.mem_append, or_and_right, exists_or]

variable {body leaf : Stmt} {allowed : AssignmentExpression → Prop} {position : Position}

/-- Control leaves a body without jumps at its end. -/
theorem Built.leaves (built : body.Built allowed) : body.leaves true = true := by
  induction body with
  | skip | assign | decide => rfl
  | force | jump => cases built
  | seq first second firstIh secondIh =>
      rw [Stmt.leaves, firstIh built.1, secondIh built.2]
  | either dead intoFirst first second firstIh secondIh =>
      obtain ⟨rfl, firstBuilt, secondBuilt⟩ := built
      have := firstIh firstBuilt
      simpa [Stmt.leaves] using Or.inl this

/-- The leaves of a body are built like the body. -/
theorem Built.of_leafAt (built : body.Built allowed) (found : body.leafAt position = some leaf) :
    leaf.Built allowed := by
  induction body generalizing position with
  | skip | assign | decide =>
      cases position with
      | nil =>
          cases found
          exact built
      | cons side rest => cases found
  | force | jump => cases built
  | seq first second firstIh secondIh =>
      cases position with
      | nil => cases found
      | cons side rest =>
          cases side with
          | first => exact firstIh built.1 found
          | second => exact secondIh built.2 found
  | either dead intoFirst first second firstIh secondIh =>
      cases position with
      | nil => cases found
      | cons side rest =>
          cases side with
          | first => exact firstIh built.2.1 found
          | second => exact secondIh built.2.2 found

theorem plain_iff_built : body.Plain ↔ body.Built fun expr => expr.isBlocking = true := by
  induction body with
  | skip | assign | force | decide | jump => exact Iff.rfl
  | seq first second firstIh secondIh => exact and_congr firstIh secondIh
  | either dead intoFirst first second firstIh secondIh =>
      exact and_congr_right fun _ => and_congr firstIh secondIh

theorem Plain.leaves (plain : body.Plain) : body.leaves true = true :=
  (plain_iff_built.mp plain).leaves

end Stmt

namespace DataFlowAnalysis

variable {resolveAssignBits : Bool} {dfa middle next : DataFlowAnalysis}

/-- The next analysis is tidy, and the given bits have been defined in addition. -/
structure Defining (dfa next : DataFlowAnalysis) (bits : ValueSymbol → Int → Prop) : Prop where
  tidy : next.tracked.Tidy
  grows : dfa.valueTracker.Grows next.valueTracker
  defines : ∀ symbol bit,
    next.tracked.Defines symbol bit ↔ dfa.tracked.Defines symbol bit ∨ bits symbol bit

/-- A step that leaves the definitions alone. -/
theorem Defining.same {bits : ValueSymbol → Int → Prop} (tidy : dfa.tracked.Tidy)
    (tracked : next.tracked = dfa.tracked) (none : ∀ symbol bit, ¬ bits symbol bit) :
    Defining dfa next bits :=
  ⟨tracked ▸ tidy,
    by
      rw [show next.valueTracker = dfa.valueTracker from congrArg (·.tracker) tracked]
      exact List.prefix_refl _,
    fun symbol bit => by simp [tracked, none]⟩

theorem Defining.trans {front back bits : ValueSymbol → Int → Prop}
    (first : Defining dfa middle front) (second : Defining middle next back)
    (split : ∀ symbol bit, bits symbol bit ↔ front symbol bit ∨ back symbol bit) :
    Defining dfa next bits :=
  ⟨second.tidy, first.grows.trans second.grows, fun symbol bit => by
    rw [second.defines, first.defines, split, or_assoc]⟩

/-! ## Assignments -/

theorem written_cons {move : AssignmentStep} {rest : List AssignmentStep} {symbol : ValueSymbol}
    {bit : Int} : Written (move :: rest) symbol bit ↔
      Written [move] symbol bit ∨ Written rest symbol bit := by
  simp [Written, or_and_right, exists_or]

theorem not_written_of_ne {move : AssignmentStep}
    (other : ∀ written lsp bounds, move ≠ .write written lsp bounds) (symbol : ValueSymbol)
    (bit : Int) : ¬ Written [move] symbol bit := by
  rintro ⟨written, lsp, bounds, member, _⟩
  exact other written lsp bounds (List.mem_singleton.mp member).symm

/-- A step of a blocking assignment defines what it writes. -/
theorem step_defining (tidy : dfa.tracked.Tidy) (isBlocking : dfa.isBlocking = true)
    {move : AssignmentStep} (stepped : dfa.step move = some next) :
    Defining dfa next (Written [move]) := by
  cases move with
  | enter saved location =>
      cases stepped
      exact Defining.same tidy (enter_tracked dfa saved location) (not_written_of_ne (by simp))
  | write symbol lsp bounds =>
      rw [step, handleLvalue_eq isBlocking, Option.map_eq_some_iff] at stepped
      obtain ⟨tracked, stepped, rfl⟩ := stepped
      obtain ⟨resultTidy, grows, defines⟩ := tidy.step stepped
      refine ⟨resultTidy, grows, fun other bit => ?_⟩
      refine (defines other bit).trans (or_congr_right ?_)
      simp [Written, writeCall, eq_comm]
  | read access | readLeft access =>
      obtain ⟨calls, rfl⟩ := read_appends stepped
      exact Defining.same tidy rfl (not_written_of_ne (by simp))
  | constant value srcLo location segment fallbackLoc =>
      refine Defining.same tidy ?_ (not_written_of_ne (by simp))
      simp only [step, driveRhsSource] at stepped
      split at stepped <;> cases stepped <;> rfl
  | stop => cases stepped

theorem run_defining {moves : List AssignmentStep} (tidy : dfa.tracked.Tidy)
    (isBlocking : dfa.isBlocking = true) (ran : moves.foldlM step dfa = some next) :
    Defining dfa next (Written moves) := by
  induction moves generalizing dfa with
  | nil =>
      cases ran
      exact Defining.same tidy rfl (by simp [Written])
  | cons move rest ih =>
      obtain ⟨middle, stepped, ran⟩ := foldlM_cons_eq_some.mp ran
      have front := step_defining tidy isBlocking stepped
      exact front.trans (ih front.tidy ((SameWalk.step stepped).isBlocking.trans isBlocking) ran)
        fun _ _ => written_cons

/-- The analysis walks a reachable statement outside of expressions. -/
structure Walking (dfa : DataFlowAnalysis) : Prop where
  isLValue : dfa.isLValue = false
  prohibitLValue : dfa.prohibitLValue = false
  context : dfa.walkContext = (initial 0 none).walkContext

theorem walking_initial (task : Nat) (externalNode : Option NodeRef) :
    Walking (initial task externalNode) :=
  ⟨rfl, rfl, rfl⟩

theorem Walking.of_sameBlock (walking : Walking dfa) (same : SameBlock dfa next)
    (reached : next.state.reachable = true) : Walking next := by
  refine ⟨same.isLValue.trans walking.isLValue, same.prohibitLValue.trans walking.prohibitLValue,
    ?_⟩
  obtain ⟨_, role, precision⟩ := WalkContext.mk.inj walking.context
  simp only [walkContext, reached, same.role.trans role, same.precision.trans precision]
  rfl

theorem Walking.reachable (walking : Walking dfa) : dfa.state.reachable = true :=
  (WalkContext.mk.inj walking.context).1

/-- What an assignment writes does not depend on the node and the condition before it. -/
theorem written_assignmentSteps (walking : Walking dfa) {expr : AssignmentExpression}
    {symbol : ValueSymbol} {bit : Int} :
    Written (assignmentSteps resolveAssignBits dfa expr) symbol bit ↔
      expr.Assigns resolveAssignBits symbol bit := by
  have writes (written : ValueSymbol) (lsp : Nat) (bounds : DriverBitRange) :
      .write written lsp bounds ∈ assignmentSteps resolveAssignBits dfa expr ↔
        .write written lsp bounds ∈ assignmentSteps resolveAssignBits (initial 0 none) expr := by
    simp only [assignmentSteps, walking.context, walking.prohibitLValue,
      show (initial 0 none).prohibitLValue = false from rfl]
    split
    · exact Iff.rfl
    · simp [AssignmentStep.ofSegment]
  simp only [Written, AssignmentExpression.Assigns, writes]

theorem handleAssignment_defining (walking : Walking dfa) (tidy : dfa.tracked.Tidy)
    {expr : AssignmentExpression} (isBlocking : expr.isBlocking = true)
    (handled : dfa.handleAssignment resolveAssignBits expr = some next) :
    Defining dfa next (expr.Assigns resolveAssignBits) := by
  rw [handleAssignment_eq resolveAssignBits dfa expr walking.isLValue, assignmentStart,
    if_neg (by simp [walking.prohibitLValue])] at handled
  have ran := @run_defining { dfa with isBlocking := expr.isBlocking } next _ tidy isBlocking
    handled
  exact ⟨ran.tidy, ran.grows, fun symbol bit => (ran.defines symbol bit).trans
    (or_congr_right (written_assignmentSteps walking))⟩

/-! ## Joins -/

/-- Merging a slot is one call for each of its intervals. -/
theorem mergeDefinitions_calls {slot : Nat} {definitions : DriverMap}
    (merged : dfa.mergeDefinitions slot definitions = some next) :
    ∃ symbol, dfa.valueTracker.slotToValue[slot]? = some symbol ∧ ∃ calls : List DriverCall,
      calls.foldlM TrackerState.step dfa.tracked = some next.tracked ∧
      calls.map (fun call => (call.symbol, call.bounds)) =
        definitions.driverIntervals.entries.map fun entry =>
          (symbol, (⟨entry.first, entry.second⟩ : DriverBitRange)) := by
  simp only [mergeDefinitions, Option.bind_eq_bind, Option.bind_eq_some_iff] at merged
  obtain ⟨symbol, found, merged⟩ := merged
  refine ⟨symbol, found, ?_⟩
  clear found
  generalize definitions.driverIntervals.entries = entries at merged
  induction entries generalizing dfa with
  | nil =>
      cases merged
      exact ⟨[], rfl, rfl⟩
  | cons entry rest ih =>
      simp only [List.foldlM_cons, Option.bind_eq_bind, Option.bind_eq_some_iff,
        Option.some.injEq] at merged
      obtain ⟨_, ⟨driverList, _, added, adds, rfl⟩, merged⟩ := merged
      obtain ⟨calls, ran, same⟩ := ih merged
      refine ⟨⟨symbol, ⟨entry.first, entry.second⟩, driverList, true⟩ :: calls, ?_,
        by simp [same]⟩
      rw [List.foldlM_cons, TrackerState.step]
      simp only [tracked, adds, Option.bind_eq_bind, Option.bind_some]
      exact ran

/-- Merging a slot defines the bits of its intervals for the symbol of the slot. -/
theorem mergeDefinitions_defining (tidy : dfa.tracked.Tidy) {slot : Nat} {definitions : DriverMap}
    (ordered : definitions.driverIntervals.Ordered)
    (merged : dfa.mergeDefinitions slot definitions = some next) :
    ∃ symbol, dfa.valueTracker.slotToValue[slot]? = some symbol ∧
      Defining dfa next fun other bit =>
        other.id = symbol.id ∧ definitions.driverIntervals.Covers bit := by
  obtain ⟨symbol, found, calls, ran, same⟩ := mergeDefinitions_calls merged
  obtain ⟨resultTidy, grows, defines⟩ := tidy.run ran
  have member (call : ValueSymbol × DriverBitRange) :
      (∃ made ∈ calls, (made.symbol, made.bounds) = call) ↔
        ∃ entry ∈ definitions.driverIntervals.entries,
          (symbol, (⟨entry.first, entry.second⟩ : DriverBitRange)) = call := by
    rw [← List.mem_map, same, List.mem_map]
  have inside {entry : Interval Nat} (entryMem : entry ∈ definitions.driverIntervals.entries)
      {bit : Int} : bit ∈ (⟨entry.first, entry.second⟩ : DriverBitRange) ↔ entry.Covers bit := by
    have proper := ordered.proper entry entryMem
    rw [DriverBitRange.mem_iff, DriverBitRange.lower_mk proper, DriverBitRange.upper_mk proper]
    rfl
  refine ⟨symbol, found, resultTidy, grows, fun other bit => (defines other bit).trans
    (or_congr_right ⟨?_, ?_⟩)⟩
  · rintro ⟨call, callMem, sameId, bitMem⟩
    obtain ⟨entry, entryMem, callEq⟩ := (member (call.symbol, call.bounds)).mp ⟨call, callMem, rfl⟩
    obtain ⟨symbolEq, boundsEq⟩ := Prod.mk.inj callEq
    exact ⟨symbolEq ▸ sameId, entry, entryMem, (inside entryMem).mp (boundsEq ▸ bitMem)⟩
  · rintro ⟨sameId, entry, entryMem, covers⟩
    obtain ⟨call, callMem, callEq⟩ := (member _).mpr ⟨entry, entryMem, rfl⟩
    obtain ⟨symbolEq, boundsEq⟩ := Prod.mk.inj callEq
    exact ⟨call, callMem, symbolEq ▸ sameId, boundsEq ▸ (inside entryMem).mpr covers⟩

/-- A call for a symbol with a slot allocates none. -/
theorem slotFor_of_mem {tracker : ValueTracker} {symbol : ValueSymbol}
    (member : symbol ∈ tracker.slotToValue) : (tracker.slotFor symbol).2 = tracker := by
  unfold ValueTracker.slotFor
  split
  · rfl
  · next unslotted =>
      have := List.findIdx?_eq_none_iff.mp unslotted symbol member
      simp at this

/-- Merging leaves the slots alone. -/
theorem mergeDefinitions_tracker {slot : Nat} {definitions : DriverMap}
    (merged : dfa.mergeDefinitions slot definitions = some next) :
    next.valueTracker = dfa.valueTracker := by
  simp only [mergeDefinitions, Option.bind_eq_bind, Option.bind_eq_some_iff] at merged
  obtain ⟨symbol, found, merged⟩ := merged
  have member := List.mem_of_getElem? found
  clear found
  generalize definitions.driverIntervals.entries = entries at merged
  induction entries generalizing dfa with
  | nil =>
      cases merged
      rfl
  | cons entry rest ih =>
      simp only [List.foldlM_cons, Option.bind_eq_bind, Option.bind_eq_some_iff,
        Option.some.injEq] at merged
      obtain ⟨_, ⟨driverList, _, added, adds, rfl⟩, merged⟩ := merged
      have same : added.1 = dfa.valueTracker := by
        simp only [ValueTracker.addDrivers, Option.bind_eq_bind, Option.bind_eq_some_iff,
          Option.some.injEq] at adds
        obtain ⟨_, _, rfl⟩ := adds
        exact slotFor_of_mem member
      exact (ih (by simpa only [same] using member) merged).trans same

theorem mergeAll_defining (tidy : dfa.tracked.Tidy) {maps : List (DriverMap × Nat)}
    (ordered : ∀ map ∈ maps, map.1.driverIntervals.Ordered)
    (merged : dfa.mergeAll maps = some next) :
    next.valueTracker = dfa.valueTracker ∧ Defining dfa next fun other bit =>
      ∃ map ∈ maps, ∃ symbol, dfa.valueTracker.slotToValue[map.2]? = some symbol ∧
        other.id = symbol.id ∧ map.1.driverIntervals.Covers bit := by
  induction maps generalizing dfa with
  | nil =>
      cases merged
      exact ⟨rfl, Defining.same tidy rfl (by simp)⟩
  | cons map rest ih =>
      rw [mergeAll, List.foldlM_cons, Option.bind_eq_bind, Option.bind_eq_some_iff] at merged
      obtain ⟨middle, first, merged⟩ := merged
      have sameTracker := mergeDefinitions_tracker first
      obtain ⟨symbol, found, front⟩ := mergeDefinitions_defining tidy
        (ordered map List.mem_cons_self) first
      obtain ⟨restTracker, back⟩ := ih front.tidy
        (fun other member => ordered other (List.mem_cons_of_mem map member)) merged
      refine ⟨restTracker.trans sameTracker, front.trans back fun other bit => ?_⟩
      rw [sameTracker, List.exists_mem_cons_iff]
      simp only [found, Option.some.injEq, exists_eq_left']

/-- The slots of a vector are the definitions of their symbols. -/
theorem defines_iff_zipIdx {tracker : ValueTracker} {drivers : ValueDrivers}
    (tidy : TrackerState.Tidy ⟨tracker, drivers⟩) {other : ValueSymbol} {bit : Int} :
    (∃ map ∈ drivers.zipIdx, ∃ symbol, tracker.slotToValue[map.2]? = some symbol ∧
        other.id = symbol.id ∧ map.1.driverIntervals.Covers bit) ↔
      TrackerState.Defines ⟨tracker, drivers⟩ other bit := by
  simp only [TrackerState.Defines, TrackerState.driverMap, ValueTracker.driverMap]
  constructor
  · rintro ⟨⟨map, slot⟩, member, symbol, found, same, covers⟩
    have slotted := ValueTracker.getSlot_of_getElem? tidy.distinct found
    have stored : drivers[slot]? = some map := List.mk_mem_zipIdx_iff_getElem?.mp member
    simp only [tracker.getSlot_congr same, slotted, stored, Option.getD_some]
    exact covers
  · intro covers
    cases slot : tracker.getSlot other with
    | none => simp [slot] at covers
    | some index =>
        simp only [slot] at covers
        obtain ⟨inside, same, _⟩ := List.findIdx?_eq_some_iff_getElem.mp slot
        cases found : drivers[index]? with
        | none => simp [found] at covers
        | some map =>
            simp only [found, Option.getD_some] at covers
            exact ⟨(map, index), List.mk_mem_zipIdx_iff_getElem?.mpr found,
              tracker.slotToValue[index], List.getElem?_eq_getElem inside,
              (of_decide_eq_true same).symm, covers⟩

theorem ordered_of_mem_zipIdx {tracker : ValueTracker} {drivers : ValueDrivers}
    (tidy : TrackerState.Tidy ⟨tracker, drivers⟩) {map : DriverMap × Nat}
    (member : map ∈ drivers.zipIdx) : map.1.driverIntervals.Ordered := by
  have found := List.mk_mem_zipIdx_iff_getElem?.mp member
  have inside : map.2 < tracker.slotToValue.length :=
    lt_of_lt_of_le (List.getElem?_eq_some_iff.mp found).1 tidy.fits
  have slot := ValueTracker.getSlot_of_getElem? tidy.distinct (List.getElem?_eq_getElem inside)
  have ordered := tidy.ordered tracker.slotToValue[map.2]
  simpa only [TrackerState.driverMap, ValueTracker.driverMap, slot, found, Option.getD_some]
    using ordered

/-- A join of two reachable states unites their definitions. -/
theorem joinState_defining {result other : AnalysisState}
    (tidyResult : TrackerState.Tidy ⟨dfa.valueTracker, result.valueDrivers⟩)
    (tidyOther : TrackerState.Tidy ⟨dfa.valueTracker, other.valueDrivers⟩)
    (same : result.reachable = other.reachable)
    (joined : dfa.joinState result other = some next) :
    next.valueTracker = dfa.valueTracker ∧ Defining (dfa.setState result) next fun symbol bit =>
      TrackerState.Defines ⟨dfa.valueTracker, other.valueDrivers⟩ symbol bit := by
  rw [joinState, if_pos same] at joined
  obtain ⟨tracked, merged, node, condition, only⟩ := mergeStates_eq joined
  obtain ⟨sameTracker, defining⟩ := @mergeAll_defining (dfa.setState result) _ tidyResult _
    (fun map member => ordered_of_mem_zipIdx tidyOther member) merged
  have sameTracked : next.tracked = ((dfa.setState result).setDrivers tracked).tracked := by
    simp only [DataFlowAnalysis.tracked, only.valueTracker, only.state]
    rfl
  refine ⟨only.valueTracker.trans sameTracker, sameTracked ▸ defining.tidy, ?_,
    fun symbol bit => ?_⟩
  · rw [only.valueTracker]
    exact defining.grows
  · rw [sameTracked, defining.defines]
    exact or_congr_right (defines_iff_zipIdx tidyOther)

/-! ## Statements -/

/-- Reads only make calls. -/
theorem run_appends {moves : List AssignmentStep}
    (reads : ∀ move ∈ moves, ∃ access, move = .read access ∨ move = .readLeft access)
    (ran : moves.foldlM step dfa = some next) : ∃ calls, next = dfa.appendCalls calls := by
  induction moves generalizing dfa with
  | nil =>
      cases ran
      exact ⟨[], (appendCalls_nil _).symm⟩
  | cons move rest ih =>
      obtain ⟨middle, stepped, ran⟩ := foldlM_cons_eq_some.mp ran
      obtain ⟨access, same⟩ := reads move List.mem_cons_self
      have handled : dfa.read access = some middle := by
        rcases same with rfl | rfl <;> exact stepped
      obtain ⟨first, rfl⟩ := read_appends handled
      obtain ⟨calls, rfl⟩ := ih (fun other member => reads other (List.mem_cons_of_mem move member))
        ran
      exact ⟨first ++ calls, appendCalls_appendCalls dfa first calls⟩

/-- The visit of an R-value reads. -/
theorem reads_ofExpr (context : WalkContext) (left : Bool) (expr : Expr) :
    ∀ move ∈ AssignmentStep.ofExpr context left false expr,
      ∃ access, move = .read access ∨ move = .readLeft access := by
  induction expr with
  | literal => exact fun _ member => absurd member List.not_mem_nil
  | value selectors path ih =>
      intro move member
      rw [AssignmentStep.ofExpr] at member
      rcases List.mem_append.mp member with selected | noted
      · exact ih move selected
      · unfold AssignmentStep.ofPath at noted
        split at noted
        · cases noted
        · split at noted
          · split at noted
            · cases noted
            · rw [if_neg Bool.false_ne_true] at noted
              split at noted
              · exact ⟨_, Or.inr (List.mem_singleton.mp noted)⟩
              · exact ⟨_, Or.inl (List.mem_singleton.mp noted)⟩
          · cases noted
  | operator first second firstIh secondIh =>
      intro move member
      rw [AssignmentStep.ofExpr] at member
      exact (List.mem_append.mp member).elim (firstIh move) (secondIh move)

theorem enterDecision_tracked (dfa : DataFlowAnalysis) (kind : NodeKind)
    (location : SourceLocation) : (dfa.enterDecision kind location).tracked = dfa.tracked := by
  simp only [enterDecision, updateNode]
  split <;> rfl

theorem someAssigns_leaf {leaf : Stmt} {symbol : ValueSymbol} {bit : Int} :
    leaf.SomeAssigns resolveAssignBits [[[]]] symbol bit ↔
      ∃ expr, leaf.leafAt [] = some (.assign expr) ∧
        expr.Assigns resolveAssignBits symbol bit := by
  simp [Stmt.SomeAssigns, Stmt.Assigns]

/-- The definitions of one arm under the slots that the other arm has added. -/
theorem Defining.arm {bits : ValueSymbol → Int → Prop} (tidy : dfa.tracked.Tidy)
    (first : Defining dfa middle bits) :
    TrackerState.Tidy ⟨middle.valueTracker, dfa.state.valueDrivers⟩ ∧ ∀ symbol bit,
      TrackerState.Defines ⟨middle.valueTracker, dfa.state.valueDrivers⟩ symbol bit ↔
        dfa.tracked.Defines symbol bit :=
  tidy.grow first.grows first.tidy.distinct

/-- A body adds the bits that one of its paths assigns. -/
theorem handleStmt_defining {body : Stmt} (plain : body.Plain) (walking : Walking dfa)
    (tidy : dfa.tracked.Tidy) (handled : handleStmt resolveAssignBits body dfa = some next) :
    Defining dfa next (body.SomeAssigns resolveAssignBits body.paths) := by
  induction body generalizing dfa next with
  | skip =>
      cases handled
      exact Defining.same tidy rfl fun _ _ => by simp [Stmt.paths, someAssigns_leaf, Stmt.leafAt]
  | assign expr =>
      have defining := handleAssignment_defining walking tidy plain handled
      refine ⟨defining.tidy, defining.grows, fun symbol bit => ?_⟩
      rw [defining.defines, Stmt.paths, someAssigns_leaf]
      · simp [Stmt.leafAt]
      all_goals simp
  | force | jump => cases plain
  | decide kind location condition =>
      have visited : visit (dfa.enterDecision kind location) condition = some next := handled
      rw [visit_eq _ false] at visited
      rw [(SameBlock.enterDecision dfa kind location).1.isLValue, walking.isLValue] at visited
      obtain ⟨calls, rfl⟩ := run_appends (reads_ofExpr _ _ _) visited
      exact Defining.same tidy (enterDecision_tracked dfa kind location) fun _ _ => by
        simp [Stmt.paths, someAssigns_leaf, Stmt.leafAt]
  | seq first second firstIh secondIh =>
      simp only [handleStmt, Option.bind_eq_bind, Option.bind_eq_some_iff] at handled
      obtain ⟨middle, front, back⟩ := handled
      have firstDefines := firstIh plain.1 walking tidy front
      obtain ⟨same, reached⟩ := SameBlock.handleStmt first walking.isLValue
        walking.prohibitLValue front
      have later := walking.of_sameBlock same (by rw [reached, walking.reachable, plain.1.leaves])
      exact firstDefines.trans (secondIh plain.2 later firstDefines.tidy back)
        fun _ _ => Stmt.someAssigns_seq second.paths_ne_nil
  | either dead intoFirst first second firstIh secondIh =>
      obtain ⟨rfl, firstPlain, secondPlain⟩ := plain
      simp only [handleStmt, Option.bind_eq_bind, Option.bind_eq_some_iff] at handled
      obtain ⟨afterFirst, firstArm, afterSecond, secondArm, joined⟩ := handled
      have starts (side : Side) : dfa.state.armState none side = dfa.state := rfl
      rw [starts] at firstArm secondArm
      have firstDefines := @firstIh (dfa.setState dfa.state) afterFirst firstPlain walking tidy
        firstArm
      have same := (SameBlock.handleStmt first walking.isLValue walking.prohibitLValue firstArm).1
      have secondWalking : Walking (afterFirst.setState dfa.state) :=
        walking.of_sameBlock (same.trans (SameBlock.setState afterFirst dfa.state))
          walking.reachable
      obtain ⟨secondTidy, asBefore⟩ := firstDefines.arm tidy
      have secondDefines := secondIh secondPlain secondWalking secondTidy secondArm
      obtain ⟨firstTidy, firstAsBefore⟩ := firstDefines.tidy.grow secondDefines.grows
        secondDefines.tidy.distinct
      have reached : afterFirst.state.reachable = afterSecond.state.reachable := by
        rw [(SameBlock.handleStmt first walking.isLValue walking.prohibitLValue firstArm).2,
          (SameBlock.handleStmt second secondWalking.isLValue secondWalking.prohibitLValue
            secondArm).2]
        simp only [setState, walking.reachable, firstPlain.leaves, secondPlain.leaves]
      have toSecond := firstDefines.grows.trans secondDefines.grows
      have first_iff (symbol : ValueSymbol) (bit : Int) := (firstAsBefore symbol bit).trans
        (firstDefines.defines symbol bit)
      have second_iff (symbol : ValueSymbol) (bit : Int) :=
        (secondDefines.defines symbol bit).trans (or_congr_left (asBefore symbol bit))
      cases intoFirst with
      | true =>
          obtain ⟨_, join⟩ := joinState_defining firstTidy secondDefines.tidy reached joined
          refine ⟨join.tidy, toSecond.trans join.grows, fun symbol bit => ?_⟩
          rw [join.defines, Stmt.someAssigns_either]
          exact (or_congr (first_iff symbol bit) (second_iff symbol bit)).trans or_or_distrib_left.symm
      | false =>
          obtain ⟨_, join⟩ := joinState_defining secondDefines.tidy firstTidy reached.symm joined
          refine ⟨join.tidy, toSecond.trans join.grows, fun symbol bit => ?_⟩
          rw [join.defines, Stmt.someAssigns_either]
          refine (or_congr (second_iff symbol bit) (first_iff symbol bit)).trans ?_
          rw [or_comm]
          exact or_or_distrib_left.symm

/-- The analysis comes to leaves only. -/
theorem leafAt_of_stateAt {body : Stmt} {position : Position}
    (at_ : stateAt resolveAssignBits body position dfa = some next) :
    ∃ leaf, body.leafAt position = some leaf := by
  induction body generalizing position dfa next with
  | skip | assign | force | decide | jump =>
      cases position with
      | nil => exact ⟨_, rfl⟩
      | cons side rest => cases at_
  | seq first second firstIh secondIh =>
      match position with
      | [] => cases at_
      | .first :: rest => exact firstIh at_
      | .second :: rest =>
          simp only [stateAt, Option.bind_eq_bind, Option.bind_eq_some_iff] at at_
          obtain ⟨_, _, at_⟩ := at_
          exact secondIh at_
  | either dead intoFirst first second firstIh secondIh =>
      match position with
      | [] => cases at_
      | .first :: rest => exact firstIh at_
      | .second :: rest =>
          simp only [stateAt, Option.bind_eq_bind, Option.bind_eq_some_iff] at at_
          obtain ⟨_, _, at_⟩ := at_
          exact secondIh at_

/-- A leaf starts with the definitions before it. -/
theorem defining_leaf {leaf : Stmt} (tidy : dfa.tracked.Tidy) :
    Defining dfa dfa (leaf.SomeAssigns resolveAssignBits [[]]) :=
  Defining.same tidy rfl fun _ _ => by simp [Stmt.SomeAssigns, Stmt.Assigns]

/-- At a position the bits are defined that some path to it assigns. -/
theorem stateAt_defining {body : Stmt} {position : Position} (plain : body.Plain)
    (walking : Walking dfa) (tidy : dfa.tracked.Tidy)
    (at_ : stateAt resolveAssignBits body position dfa = some next) :
    Defining dfa next (body.SomeAssigns resolveAssignBits (body.pathsTo position)) ∧
      Walking next := by
  induction body generalizing position dfa next with
  | skip | assign | decide =>
      cases position with
      | nil =>
          cases at_
          exact ⟨defining_leaf tidy, walking⟩
      | cons side rest => cases at_
  | force | jump => cases plain
  | seq first second firstIh secondIh =>
      match position with
      | [] => cases at_
      | .first :: rest =>
          obtain ⟨defining, later⟩ := firstIh plain.1 walking tidy at_
          exact ⟨⟨defining.tidy, defining.grows, fun symbol bit =>
            (defining.defines symbol bit).trans
              (or_congr_right (Stmt.someAssigns_map fun _ => rfl).symm)⟩, later⟩
      | .second :: rest =>
          simp only [stateAt, Option.bind_eq_bind, Option.bind_eq_some_iff] at at_
          obtain ⟨middle, front, at_⟩ := at_
          have firstDefines := handleStmt_defining plain.1 walking tidy front
          obtain ⟨same, reached⟩ := SameBlock.handleStmt first walking.isLValue
            walking.prohibitLValue front
          have later := walking.of_sameBlock same
            (by rw [reached, walking.reachable, plain.1.leaves])
          obtain ⟨defining, atEnd⟩ := secondIh plain.2 later firstDefines.tidy at_
          refine ⟨firstDefines.trans defining fun symbol bit => ?_, atEnd⟩
          obtain ⟨leaf, found⟩ := leafAt_of_stateAt at_
          exact Stmt.someAssigns_seq (Stmt.pathsTo_ne_nil found)
  | either dead intoFirst first second firstIh secondIh =>
      obtain ⟨rfl, firstPlain, secondPlain⟩ := plain
      match position with
      | [] => cases at_
      | .first :: rest =>
          obtain ⟨defining, later⟩ := @firstIh (dfa.setState dfa.state) next rest firstPlain
            walking tidy at_
          exact ⟨⟨defining.tidy, defining.grows, fun symbol bit =>
            (defining.defines symbol bit).trans
              (or_congr_right (Stmt.someAssigns_map fun _ => rfl).symm)⟩, later⟩
      | .second :: rest =>
          simp only [stateAt, Option.bind_eq_bind, Option.bind_eq_some_iff] at at_
          obtain ⟨afterFirst, firstArm, at_⟩ := at_
          have starts (side : Side) : dfa.state.armState none side = dfa.state := rfl
          rw [starts] at firstArm at_
          have firstDefines := @handleStmt_defining _ (dfa.setState dfa.state) afterFirst first
            firstPlain walking tidy firstArm
          have same := (SameBlock.handleStmt first walking.isLValue walking.prohibitLValue
            firstArm).1
          have secondWalking : Walking (afterFirst.setState dfa.state) :=
            walking.of_sameBlock (same.trans (SameBlock.setState afterFirst dfa.state))
              walking.reachable
          obtain ⟨secondTidy, asBefore⟩ := firstDefines.arm tidy
          obtain ⟨defining, later⟩ := secondIh secondPlain secondWalking secondTidy at_
          exact ⟨⟨defining.tidy, firstDefines.grows.trans defining.grows, fun symbol bit =>
            (defining.defines symbol bit).trans (or_congr (asBefore symbol bit)
              (Stmt.someAssigns_map fun _ => rfl).symm)⟩, later⟩

end DataFlowAnalysis

end SlangNetlist
