import SlangNetlist.Analysis.JoinedDefinitions

/-!
# Live control paths

The control paths that the analysis takes into account: those through no arm that
a constant condition rules out, and past no jump.  Control gets to a place
exactly if such a path leads there.
-/

namespace SlangNetlist

namespace Stmt

/-- The live control paths from the start to the end. -/
def livePaths : Stmt → List (List Position)
  | .seq first second =>
      first.livePaths.flatMap fun front => second.livePaths.map fun back =>
        front.map (.first :: ·) ++ back.map (.second :: ·)
  | .either dead _ first second =>
      (if dead = some .first then [] else first.livePaths.map (·.map (.first :: ·))) ++
        (if dead = some .second then [] else second.livePaths.map (·.map (.second :: ·)))
  | .jump => []
  | _ => [[[]]]

/-- The live control paths from the start to just before a position. -/
def livePathsTo : Stmt → Position → List (List Position)
  | .seq first _, .first :: rest => (first.livePathsTo rest).map (·.map (.first :: ·))
  | .seq first second, .second :: rest =>
      first.livePaths.flatMap fun front => (second.livePathsTo rest).map fun back =>
        front.map (.first :: ·) ++ back.map (.second :: ·)
  | .either dead _ first _, .first :: rest =>
      if dead = some .first then [] else (first.livePathsTo rest).map (·.map (.first :: ·))
  | .either dead _ _ second, .second :: rest =>
      if dead = some .second then [] else (second.livePathsTo rest).map (·.map (.second :: ·))
  | .seq _ _, [] => []
  | .either _ _ _ _, [] => []
  | _, [] => [[]]
  | _, _ :: _ => []

variable {body first second : Stmt} {position : Position} {path : List Position}

/-! ## Reachability -/

/-- Two parts have a path through both if each of them has one. -/
theorem through_ne_nil {front back : List (List Position)}
    {through : List Position → List Position → List Position} :
    (front.flatMap fun entry => back.map (through entry)) ≠ [] ↔ front ≠ [] ∧ back ≠ [] := by
  cases front with
  | nil => simp
  | cons entry rest =>
      cases back with
      | nil => simp
      | cons other others => simp

theorem leaves_iff {entered : Bool} :
    body.leaves entered = true ↔ entered = true ∧ body.livePaths ≠ [] := by
  induction body generalizing entered with
  | skip | assign | force | decide | jump => simp [leaves, livePaths]
  | seq first second firstIh secondIh =>
      rw [leaves, secondIh, firstIh, and_assoc, livePaths, through_ne_nil]
  | either dead intoFirst first second firstIh secondIh =>
      rw [leaves, Bool.or_eq_true, firstIh, secondIh]
      cases dead with
      | none => simp [livePaths, ← and_or_left, imp_iff_not_or]
      | some side => cases side <;> simp [livePaths]

end Stmt

namespace DataFlowAnalysis

variable {resolveAssignBits : Bool} {start before next : DataFlowAnalysis} {body : Stmt}
  {position : Position}

/-- Control gets to the end of a statement exactly if a live path leads there. -/
theorem reachable_handleStmt (flagged : start.isLValue = false)
    (allowed : start.prohibitLValue = false)
    (handled : handleStmt resolveAssignBits body start = some next) :
    next.state.reachable = true ↔ start.state.reachable = true ∧ body.livePaths ≠ [] := by
  rw [(SameBlock.handleStmt body flagged allowed handled).2, Stmt.leaves_iff]

/-- Control gets to a position exactly if a live path leads there. -/
theorem reachable_stateAt (flagged : start.isLValue = false)
    (allowed : start.prohibitLValue = false)
    (at_ : stateAt resolveAssignBits body position start = some before) :
    before.state.reachable = true ↔
      start.state.reachable = true ∧ body.livePathsTo position ≠ [] := by
  induction body generalizing position start before with
  | skip | assign | force | decide | jump =>
      cases position with
      | nil =>
          cases at_
          simp [Stmt.livePathsTo]
      | cons side rest => cases at_
  | seq first second firstIh secondIh =>
      cases position with
      | nil => cases at_
      | cons side rest =>
          cases side with
          | first =>
              rw [firstIh flagged allowed at_]
              simp [Stmt.livePathsTo]
          | second =>
              simp only [stateAt, Option.bind_eq_bind, Option.bind_eq_some_iff] at at_
              obtain ⟨middle, front, at_⟩ := at_
              have same := (SameBlock.handleStmt first flagged allowed front).1
              rw [secondIh (same.isLValue.trans flagged) (same.prohibitLValue.trans allowed) at_,
                reachable_handleStmt flagged allowed front, and_assoc, Stmt.livePathsTo,
                Stmt.through_ne_nil]
  | either dead intoFirst first second firstIh secondIh =>
      have enters (side : Side) : (start.state.armState dead side).reachable = true ↔
          start.state.reachable = true ∧ dead ≠ some side := by
        simp [armState_reachable]
      cases position with
      | nil => cases at_
      | cons side rest =>
          cases side with
          | first =>
              rw [@firstIh (start.setState (start.state.armState dead .first)) before rest flagged
                allowed at_]
              refine (and_congr_left' (enters .first)).trans ?_
              simp [Stmt.livePathsTo, and_assoc]
          | second =>
              simp only [stateAt, Option.bind_eq_bind, Option.bind_eq_some_iff] at at_
              obtain ⟨afterFirst, firstArm, at_⟩ := at_
              have same := (@SameBlock.handleStmt resolveAssignBits first
                (start.setState (start.state.armState dead .first)) afterFirst flagged allowed
                firstArm).1
              rw [@secondIh (afterFirst.setState (start.state.armState dead .second)) before rest
                (same.isLValue.trans flagged) (same.prohibitLValue.trans allowed) at_]
              refine (and_congr_left' (enters .second)).trans ?_
              simp [Stmt.livePathsTo, and_assoc]

end DataFlowAnalysis

end SlangNetlist
