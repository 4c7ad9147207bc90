import SlangNetlist.Analysis.Statements

/-!
# Positions and control paths

A position names one leaf of a body by the sides that lead to it.  The analysis
comes to each position once, while any number of control paths may lead there.
-/

namespace SlangNetlist

abbrev Position := List Side

namespace Stmt

/-- The leaf at a position. -/
def leafAt : Stmt → Position → Option Stmt
  | .seq first _, .first :: rest => first.leafAt rest
  | .seq _ second, .second :: rest => second.leafAt rest
  | .either _ _ first _, .first :: rest => first.leafAt rest
  | .either _ _ _ second, .second :: rest => second.leafAt rest
  | .seq _ _, [] => none
  | .either _ _ _ _, [] => none
  | leaf, [] => some leaf
  | _, _ :: _ => none

/-- The positions of the leaves on each control path from the start to the end. -/
def paths : Stmt → List (List Position)
  | .seq first second =>
      first.paths.flatMap fun front => second.paths.map fun back =>
        front.map (.first :: ·) ++ back.map (.second :: ·)
  | .either _ _ first second =>
      first.paths.map (·.map (.first :: ·)) ++ second.paths.map (·.map (.second :: ·))
  | _ => [[[]]]

/-- The positions on each control path from the start to just before a position. -/
def pathsTo : Stmt → Position → List (List Position)
  | .seq first _, .first :: rest => (first.pathsTo rest).map (·.map (.first :: ·))
  | .seq first second, .second :: rest =>
      first.paths.flatMap fun front => (second.pathsTo rest).map fun back =>
        front.map (.first :: ·) ++ back.map (.second :: ·)
  | .either _ _ first _, .first :: rest => (first.pathsTo rest).map (·.map (.first :: ·))
  | .either _ _ _ second, .second :: rest => (second.pathsTo rest).map (·.map (.second :: ·))
  | .seq _ _, [] => []
  | .either _ _ _ _, [] => []
  | _, [] => [[]]
  | _, _ :: _ => []

end Stmt

namespace DataFlowAnalysis

/-- The analysis as it comes to a position. -/
def stateAt (resolveAssignBits : Bool) : Stmt → Position → DataFlowAnalysis →
    Option DataFlowAnalysis
  | .seq first _, .first :: rest, dfa => stateAt resolveAssignBits first rest dfa
  | .seq first second, .second :: rest, dfa => do
      let dfa ← handleStmt resolveAssignBits first dfa
      stateAt resolveAssignBits second rest dfa
  | .either dead _ first _, .first :: rest, dfa =>
      stateAt resolveAssignBits first rest (dfa.setState (dfa.state.armState dead .first))
  | .either dead _ first second, .second :: rest, dfa => do
      let afterFirst ← handleStmt resolveAssignBits first
        (dfa.setState (dfa.state.armState dead .first))
      stateAt resolveAssignBits second rest
        (afterFirst.setState (dfa.state.armState dead .second))
  | .seq _ _, [], _ => none
  | .either _ _ _ _, [], _ => none
  | _, [], dfa => some dfa
  | _, _ :: _, _ => none

/-- The analysis comes to an assignment; a force prohibits its L-values. -/
def AssignmentAt (resolveAssignBits : Bool) (start : DataFlowAnalysis) (body : Stmt)
    (position : Position) (expr : AssignmentExpression) (dfa : DataFlowAnalysis) : Prop :=
  ∃ before, stateAt resolveAssignBits body position start = some before ∧
    (body.leafAt position = some (.assign expr) ∧ dfa = before ∨
      body.leafAt position = some (.force expr) ∧ dfa = { before with prohibitLValue := true })

/-- The analysis of a block before its first statement. -/
def initial (task : Nat) (externalNode : Option NodeRef) : DataFlowAnalysis :=
  { task := task, externalNode := externalNode }

end DataFlowAnalysis

end SlangNetlist
