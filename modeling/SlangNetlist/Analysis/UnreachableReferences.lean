import SlangNetlist.Analysis.AssignmentReads
import SlangNetlist.Analysis.ControlPaths

/-!
# Unreachable references

The visit of an expression notes no reference in an unreachable state and none
to an automatic variable.  The loop over aligned segments calls the handlers of
L- and R-values without that filter.
-/

namespace SlangNetlist

open Library

namespace ValueSymbol

/-- A variable of automatic lifetime. -/
def IsAutomatic (symbol : ValueSymbol) : Prop := symbol.kind = .variable ∧ symbol.automatic

instance (symbol : ValueSymbol) : Decidable symbol.IsAutomatic :=
  inferInstanceAs (Decidable (_ ∧ _))

end ValueSymbol

namespace AssignmentStep

/-- The symbol whose L-value or R-value the step records. -/
def recorded : AssignmentStep → Option ValueSymbol
  | .write symbol _ _ => some symbol
  | .read access => some access.symbol
  | .readLeft access => some access.symbol
  | _ => none

/-- Some step records an L-value or R-value of the symbol. -/
def Records (steps : List AssignmentStep) (symbol : ValueSymbol) : Prop :=
  ∃ move ∈ steps, move.recorded = some symbol

variable {context : WalkContext} {left : Bool} {symbol : ValueSymbol}

theorem records_append {first second : List AssignmentStep} :
    Records (first ++ second) symbol ↔ Records first symbol ∨ Records second symbol := by
  simp [Records, or_and_right, exists_or]

theorem records_flatMap {Source : Type} {sources : List Source}
    {steps : Source → List AssignmentStep} :
    Records (sources.flatMap steps) symbol ↔
      ∃ source ∈ sources, Records (steps source) symbol := by
  simp only [Records, List.mem_flatMap]
  constructor
  · rintro ⟨move, ⟨source, sourceMem, member⟩, recorded⟩
    exact ⟨source, sourceMem, move, member, recorded⟩
  · rintro ⟨source, sourceMem, move, member, recorded⟩
    exact ⟨move, ⟨source, sourceMem, member⟩, recorded⟩

/-- The filter of `noteReference`. -/
def Tracked (context : WalkContext) (symbol : ValueSymbol) : Prop :=
  context.reachable = true ∧ ¬ symbol.IsAutomatic

theorem tracked_of_records_ofPath {isLValue : Bool} {path : ValuePath}
    (records : Records (ofPath context left isLValue path) symbol) : Tracked context symbol := by
  obtain ⟨move, member, recorded⟩ := records
  unfold ofPath at member
  split at member
  · cases member
  · next reached =>
      split at member
      · next root _ _ _ =>
          split at member
          · cases member
          · next shared =>
              have same : root = symbol := by
                split at member <;> (try split at member) <;>
                  cases List.mem_singleton.mp member <;> cases recorded <;> rfl
              exact ⟨not_not.mp reached, same ▸ shared⟩
      · cases member

/-- A visit records tracked symbols only. -/
theorem tracked_of_records_ofExpr {isLValue : Bool} {expr : Expr}
    (records : Records (ofExpr context left isLValue expr) symbol) : Tracked context symbol := by
  induction expr generalizing isLValue with
  | literal =>
      obtain ⟨_, member, _⟩ := records
      cases member
  | value selectors path ih =>
      rw [ofExpr, records_append] at records
      exact records.elim ih tracked_of_records_ofPath
  | operator first second firstIh secondIh =>
      rw [ofExpr, records_append] at records
      exact records.elim firstIh secondIh

theorem tracked_of_records_ofSelector {selector : Selector}
    (records : Records (ofSelector context selector) symbol) : Tracked context symbol := by
  unfold ofSelector at records
  split at records
  · obtain ⟨_, member, _⟩ := records
    cases member
  · have tracked := tracked_of_records_ofExpr records
    exact tracked

/-- A visit in an unreachable state does nothing. -/
theorem ofExpr_unreachable (unreached : context.reachable = false) (isLValue : Bool)
    (expr : Expr) : ofExpr context left isLValue expr = [] := by
  induction expr generalizing isLValue with
  | literal => rfl
  | value selectors path ih =>
      rw [ofExpr, ih, List.nil_append, ofPath, if_pos (by simp [unreached])]
  | operator first second firstIh secondIh => rw [ofExpr, firstIh, secondIh, List.append_nil]

end AssignmentStep

namespace BitSliceSource

/-- The symbol with which the segment loop calls a handler directly. -/
def handled (segment : Segment) : BitSliceSource → Option ValueSymbol
  | .lsp path _ srcLo =>
      if segment.concatLo ≥ srcLo ∧ path.lsp.isSome then path.rootSymbol else none
  | _ => none

/-- Whether the source has references. -/
def refers : BitSliceSource → Bool
  | .lsp _ _ _ => true
  | .opaqueExpr _ => true
  | _ => false

end BitSliceSource

open AssignmentStep

section Sources

variable {context : WalkContext} {segment : Segment} {symbol : ValueSymbol}
  {fallbackLoc : SourceLocation}

theorem records_ofLhsSource {source : BitSliceSource} :
    Records (ofLhsSource segment source) symbol ↔ source.handled segment = some symbol := by
  cases source with
  | lsp path selectors srcLo =>
      simp only [ofLhsSource, BitSliceSource.handled]
      cases path.rootSymbol with
      | none => simp [Records, recorded]
      | some root =>
          cases path.lsp with
          | none => simp [Records, recorded]
          | some lsp =>
              by_cases inside : segment.concatLo ≥ srcLo <;> simp [Records, recorded, inside]
  | padding => simp [ofLhsSource, Records, BitSliceSource.handled]
  | opaqueExpr expr => simp [ofLhsSource, Records, BitSliceSource.handled]
  | portNode node => simp [ofLhsSource, Records, BitSliceSource.handled]
  | constant value srcLo location => simp [ofLhsSource, Records, BitSliceSource.handled]

/-- A source of the right side records its own symbol, and what its visits track. -/
theorem handled_or_tracked {source : BitSliceSource}
    (records : Records (ofRhsSource context fallbackLoc segment source) symbol) :
    source.handled segment = some symbol ∨ Tracked context symbol := by
  cases source with
  | lsp path selectors srcLo =>
      simp only [ofRhsSource] at records
      split at records
      · next root lsp rooted found =>
          split at records
          · next inside =>
              rw [records_append, records_flatMap] at records
              rcases records with ⟨selector, _, visits⟩ | ⟨move, member, same⟩
              · exact Or.inr (tracked_of_records_ofSelector visits)
              · obtain rfl := List.mem_singleton.mp member
                simp only [recorded, Option.some.injEq] at same
                simp [BitSliceSource.handled, inside, found, rooted, same]
          · simp [Records, recorded] at records
      · simp [Records, recorded] at records
  | opaqueExpr expr => exact Or.inr (tracked_of_records_ofExpr records)
  | padding => simp [ofRhsSource, Records] at records
  | portNode node => simp [ofRhsSource, Records, recorded] at records
  | constant value srcLo location => simp [ofRhsSource, Records, recorded] at records

theorem records_of_handled {source : BitSliceSource}
    (handled : source.handled segment = some symbol) :
    Records (ofRhsSource context fallbackLoc segment source) symbol := by
  cases source with
  | lsp path selectors srcLo =>
      simp only [BitSliceSource.handled] at handled
      split at handled
      · next inside =>
          obtain ⟨lsp, found⟩ := Option.isSome_iff_exists.mp inside.2
          simp only [ofRhsSource, handled, found, inside.1, if_true, records_append]
          exact Or.inr ⟨_, List.mem_singleton_self _, rfl⟩
      · cases handled
  | padding | opaqueExpr | portNode | constant => cases handled

end Sources

namespace DataFlowAnalysis

/-- The assignment is decomposed into aligned segments. -/
def Aligned (resolveAssignBits : Bool) (expr : AssignmentExpression) : Prop :=
  ¬ (¬ resolveAssignBits ∨ ¬ expr.integral ∨
    BitSliceList.width expr.lhsList ≠ BitSliceList.width expr.rhsList)

/-- The sources that the loop over the segments goes through. -/
def segmentSources (dfa : DataFlowAnalysis) (expr : AssignmentExpression) (segment : Segment) :
    List BitSliceSource :=
  (if dfa.prohibitLValue then [] else segment.lhsSources) ++
    if expr.isLValueArg then [] else segment.rhsSources

/--
An unreachable assignment records no L-value and no R-value, and no assignment
records one of an automatic variable.
-/
def RuledOut (resolveAssignBits : Bool) (dfa : DataFlowAnalysis) (expr : AssignmentExpression) :
    Prop :=
  (dfa.state.reachable = false →
    ∀ symbol, ¬ Records (assignmentSteps resolveAssignBits dfa expr) symbol) ∧
  ∀ symbol, symbol.IsAutomatic → ¬ Records (assignmentSteps resolveAssignBits dfa expr) symbol

/--
Every value that the segment loop hands to a handler would have passed the
filter of `noteReference`.
-/
def SourcesTracked (resolveAssignBits : Bool) (dfa : DataFlowAnalysis)
    (expr : AssignmentExpression) : Prop :=
  Aligned resolveAssignBits expr →
    ∀ segment ∈ BitSliceList.alignSegments expr.lhsList expr.rhsList,
      ∀ source ∈ dfa.segmentSources expr segment, ∀ symbol,
        source.handled segment = some symbol → Tracked dfa.walkContext symbol

variable {resolveAssignBits : Bool} {dfa next : DataFlowAnalysis} {expr : AssignmentExpression}

theorem assignmentSteps_aligned (aligned : Aligned resolveAssignBits expr) :
    assignmentSteps resolveAssignBits dfa expr =
      (BitSliceList.alignSegments expr.lhsList expr.rhsList).flatMap
        (ofSegment dfa.walkContext dfa.prohibitLValue expr
          (dfa.state.node, dfa.state.condition)) :=
  if_neg aligned

theorem assignmentSteps_legacy (legacy : ¬ Aligned resolveAssignBits expr) :
    assignmentSteps resolveAssignBits dfa expr =
      ofLegacy dfa.walkContext dfa.prohibitLValue expr :=
  if_pos (not_not.mp legacy)

theorem records_ofSegment {saved : Option NodeRef × Option NodeRef} {segment : Segment}
    {symbol : ValueSymbol} :
    Records (ofSegment dfa.walkContext dfa.prohibitLValue expr saved segment) symbol ↔
      (∃ source ∈ if dfa.prohibitLValue then [] else segment.lhsSources,
        source.handled segment = some symbol) ∨
      ∃ source ∈ if expr.isLValueArg then [] else segment.rhsSources,
        Records (ofRhsSource dfa.walkContext expr.location segment source) symbol := by
  have entered (steps : List AssignmentStep) :
      Records (.enter (some saved) expr.location :: steps) symbol ↔ Records steps symbol := by
    simp [Records, recorded]
  rw [ofSegment, entered, records_append]
  refine or_congr ?_ ?_
  · split
    · simp [Records]
    · simp only [records_flatMap, records_ofLhsSource]
  · split
    · simp [Records]
    · simp only [records_flatMap]

/-- An assignment as one node records what its visits track. -/
theorem tracked_of_records_ofLegacy {context : WalkContext} {prohibitLValue : Bool}
    {symbol : ValueSymbol} (records : Records (ofLegacy context prohibitLValue expr) symbol) :
    Tracked context symbol := by
  obtain ⟨move, member, same⟩ := records
  rcases mem_ofLegacy.mp member with rfl | left | ⟨_, right⟩
  · cases same
  · exact tracked_of_records_ofExpr ⟨move, left, same⟩
  · exact tracked_of_records_ofExpr ⟨move, right, same⟩

/-- The references of an assignment are ruled out exactly if its direct sources are tracked. -/
theorem ruledOut_iff :
    RuledOut resolveAssignBits dfa expr ↔ SourcesTracked resolveAssignBits dfa expr := by
  constructor
  · rintro ⟨unreachable, automatic⟩ aligned segment segmentMem source sourceMem symbol handled
    have records : Records (assignmentSteps resolveAssignBits dfa expr) symbol := by
      rw [assignmentSteps_aligned aligned, records_flatMap]
      refine ⟨segment, segmentMem, records_ofSegment.mpr ?_⟩
      rcases List.mem_append.mp sourceMem with left | right
      · exact Or.inl ⟨source, left, handled⟩
      · exact Or.inr ⟨source, right, records_of_handled handled⟩
    refine ⟨?_, fun isAutomatic => automatic symbol isAutomatic records⟩
    by_contra unreached
    exact unreachable (Bool.eq_false_of_not_eq_true unreached) symbol records
  · intro tracked
    have records : ∀ symbol, Records (assignmentSteps resolveAssignBits dfa expr) symbol →
        Tracked dfa.walkContext symbol := by
      intro symbol records
      by_cases aligned : Aligned resolveAssignBits expr
      · rw [assignmentSteps_aligned aligned, records_flatMap] at records
        obtain ⟨segment, segmentMem, records⟩ := records
        rcases records_ofSegment.mp records with ⟨source, sourceMem, handled⟩ |
          ⟨source, sourceMem, records⟩
        · exact tracked aligned segment segmentMem source
            (List.mem_append_left _ sourceMem) symbol handled
        · rcases handled_or_tracked records with handled | visited
          · exact tracked aligned segment segmentMem source
              (List.mem_append_right _ sourceMem) symbol handled
          · exact visited
      · rw [assignmentSteps_legacy aligned] at records
        exact tracked_of_records_ofLegacy records
    refine ⟨fun unreached symbol found => ?_, fun symbol automatic found =>
      (records symbol found).2 automatic⟩
    have reached := (records symbol found).1
    rw [show dfa.walkContext.reachable = dfa.state.reachable from rfl, unreached] at reached
    cases reached

/-! ## No-ops -/

end DataFlowAnalysis

namespace BitSlice

/-- The slice without its references. -/
def strip (slice : BitSlice) : BitSlice :=
  { slice with sources := slice.sources.filter fun source => ! source.refers }

end BitSlice

namespace Segment

def strip (segment : Segment) : Segment :=
  { segment with
    lhsSources := segment.lhsSources.filter fun source => ! source.refers
    rhsSources := segment.rhsSources.filter fun source => ! source.refers }

end Segment

namespace BitSliceList

theorem width_map_strip (list : BitSliceList) : width (list.map BitSlice.strip) = width list := by
  simp only [width, List.getLast?_map]
  cases list.getLast? <;> rfl

theorem sourcesAt_map_strip (list : BitSliceList) (bit : Nat) :
    sourcesAt (list.map BitSlice.strip) bit =
      (sourcesAt list bit).filter fun source => ! source.refers := by
  have found : findSliceContaining (list.map BitSlice.strip) bit =
      (findSliceContaining list bit).map BitSlice.strip := by
    simp only [findSliceContaining, List.find?_map]
    rfl
  simp only [sourcesAt, found]
  cases findSliceContaining list bit <;> rfl

/-- The segments of stripped lists are the stripped segments. -/
theorem alignSegments_map_strip (lhs rhs : BitSliceList) :
    alignSegments (lhs.map BitSlice.strip) (rhs.map BitSlice.strip) =
      (alignSegments lhs rhs).map Segment.strip := by
  have cuts (list : BitSliceList) : collectCuts (list.map BitSlice.strip) = collectCuts list := by
    simp [collectCuts, BitSlice.strip]
  simp only [alignSegments, cuts, List.map_map, sourcesAt_map_strip]
  rfl

end BitSliceList

namespace AssignmentExpression

/-- The assignment without its references: its nodes and its constants. -/
def noop (expr : AssignmentExpression) : AssignmentExpression :=
  { expr with
    left := .literal
    right := .literal
    lhsList := expr.lhsList.map BitSlice.strip
    rhsList := expr.rhsList.map BitSlice.strip }

end AssignmentExpression

namespace DataFlowAnalysis

variable {resolveAssignBits : Bool} {dfa next : DataFlowAnalysis} {expr : AssignmentExpression}

theorem aligned_noop : Aligned resolveAssignBits expr.noop ↔ Aligned resolveAssignBits expr := by
  simp only [Aligned, AssignmentExpression.noop, BitSliceList.width_map_strip]

/-- The step for a stripped segment. -/
def strip : AssignmentStep → AssignmentStep
  | .constant value srcLo location segment fallbackLoc =>
      .constant value srcLo location segment.strip fallbackLoc
  | move => move

/-- A step does not look at the sources of its segment. -/
theorem foldlM_strip (moves : List AssignmentStep) :
    (moves.map strip).foldlM step dfa = moves.foldlM step dfa := by
  rw [List.foldlM_map]
  congr 1
  funext middle move
  cases move <;> rfl

/-- Sources without steps may be left out. -/
theorem flatMap_strip {sources : List BitSliceSource}
    {steps stripped : BitSliceSource → List AssignmentStep}
    (silent : ∀ source ∈ sources, source.refers = true → steps source = [])
    (same : ∀ source ∈ sources, source.refers = false → stripped source = (steps source).map strip) :
    (sources.filter fun source => ! source.refers).flatMap stripped =
      (sources.flatMap steps).map strip := by
  induction sources with
  | nil => rfl
  | cons source rest ih =>
      have restEq := ih (fun other member => silent other (List.mem_cons_of_mem source member))
        fun other member => same other (List.mem_cons_of_mem source member)
      cases refers : source.refers with
      | true =>
          rw [List.filter_cons_of_neg (by simp [refers]), restEq, List.flatMap_cons,
            silent source List.mem_cons_self refers, List.nil_append]
      | false =>
          rw [List.filter_cons_of_pos (by simp [refers]), List.flatMap_cons, restEq,
            List.flatMap_cons, List.map_append, same source List.mem_cons_self refers]

theorem ofLhsSource_strip (segment : Segment) {source : BitSliceSource}
    (refers : source.refers = false) :
    ofLhsSource segment.strip source = (ofLhsSource segment source).map strip := by
  cases source with
  | padding | portNode | constant => rfl
  | lsp | opaqueExpr => cases refers

theorem ofRhsSource_strip (context : WalkContext) (fallbackLoc : SourceLocation)
    (segment : Segment) {source : BitSliceSource} (refers : source.refers = false) :
    ofRhsSource context fallbackLoc segment.strip source =
      (ofRhsSource context fallbackLoc segment source).map strip := by
  cases source with
  | padding | portNode | constant => rfl
  | lsp | opaqueExpr => cases refers

/-- In an unreachable state a source that is not tracked is a failed assertion, or it is silent. -/
theorem silent_of_unreachable (unreached : dfa.state.reachable = false) {segment : Segment}
    {source : BitSliceSource} {steps : BitSliceSource → List AssignmentStep}
    (side : steps = ofLhsSource segment ∨
      steps = ofRhsSource dfa.walkContext expr.location segment)
    (tracked : ∀ symbol, source.handled segment = some symbol → Tracked dfa.walkContext symbol)
    (runs : .stop ∉ steps source) (refers : source.refers = true) : steps source = [] := by
  have unhandled : source.handled segment = none := by
    cases handled : source.handled segment with
    | none => rfl
    | some symbol =>
        have reached := (tracked symbol handled).1
        rw [show dfa.walkContext.reachable = dfa.state.reachable from rfl, unreached] at reached
        cases reached
  cases source with
  | lsp path selectors srcLo =>
      have outside (rooted : path.rootSymbol.isSome) (found : path.lsp.isSome) :
          ¬ segment.concatLo ≥ srcLo := by
        intro inside
        rw [BitSliceSource.handled, if_pos ⟨inside, found⟩] at unhandled
        simp [unhandled] at rooted
      refine absurd ?_ runs
      rcases side with rfl | rfl <;> simp only [ofLhsSource, ofRhsSource] <;> split
      · next rooted found => simp [outside (by simp [rooted]) (by simp [found])]
      · exact List.mem_singleton_self _
      · next rooted found => simp [outside (by simp [rooted]) (by simp [found])]
      · exact List.mem_singleton_self _
  | opaqueExpr expr =>
      rcases side with rfl | rfl
      · rfl
      · exact ofExpr_unreachable unreached false expr
  | padding | portNode | constant => cases refers

/-- An unreachable assignment whose references are ruled out has the steps of a no-op. -/
theorem assignmentSteps_noop (unreached : dfa.state.reachable = false)
    (tracked : SourcesTracked resolveAssignBits dfa expr)
    (runs : .stop ∉ assignmentSteps resolveAssignBits dfa expr) :
    assignmentSteps resolveAssignBits dfa expr.noop =
      (assignmentSteps resolveAssignBits dfa expr).map strip := by
  by_cases aligned : Aligned resolveAssignBits expr
  · rw [assignmentSteps_aligned aligned] at runs ⊢
    rw [assignmentSteps_aligned (aligned_noop.mpr aligned)]
    simp only [AssignmentExpression.noop, BitSliceList.alignSegments_map_strip,
      List.flatMap_map, List.map_flatMap]
    refine List.flatMap_congr fun segment segmentMem => ?_
    have runsHere : .stop ∉ ofSegment dfa.walkContext dfa.prohibitLValue expr
        (dfa.state.node, dfa.state.condition) segment :=
      fun member => runs (List.mem_flatMap.mpr ⟨segment, segmentMem, member⟩)
    have trackedHere := tracked aligned segment segmentMem
    simp only [ofSegment, List.mem_cons, List.mem_append, not_or, segmentSources]
      at runsHere trackedHere
    rw [ofSegment, ofSegment, List.map_cons, List.map_append]
    refine congrArg₂ List.cons rfl (congrArg₂ (· ++ ·) ?_ ?_)
    · split
      · rfl
      · next allowed =>
          rw [if_neg allowed] at runsHere trackedHere
          refine flatMap_strip (fun source member refers => ?_)
            fun source _ silent => ofLhsSource_strip segment silent
          exact @silent_of_unreachable dfa expr unreached segment source _ (Or.inl rfl)
            (trackedHere source (Or.inl member))
            (fun stops => runsHere.2.1 (List.mem_flatMap.mpr ⟨source, member, stops⟩)) refers
    · split
      · rfl
      · next visited =>
          have visits : ¬ expr.isLValueArg = true := visited
          rw [if_neg visits] at runsHere trackedHere
          refine flatMap_strip (fun source member refers => ?_)
            fun source _ silent => ofRhsSource_strip dfa.walkContext expr.location segment silent
          exact @silent_of_unreachable dfa expr unreached segment source _ (Or.inr rfl)
            (trackedHere source (Or.inr member))
            (fun stops => runsHere.2.2 (List.mem_flatMap.mpr ⟨source, member, stops⟩)) refers
  · rw [assignmentSteps_legacy aligned, assignmentSteps_legacy (mt aligned_noop.mp aligned)]
    have unreached' : dfa.walkContext.reachable = false := unreached
    simp only [ofLegacy, ofExpr_unreachable unreached', ite_self, List.append_nil]
    rfl

/-- An unreachable assignment whose references are ruled out acts as a no-op. -/
theorem handleAssignment_noop (flagged : dfa.isLValue = false)
    (unreached : dfa.state.reachable = false)
    (tracked : SourcesTracked resolveAssignBits dfa expr)
    (handled : dfa.handleAssignment resolveAssignBits expr = some next) :
    dfa.handleAssignment resolveAssignBits expr.noop = some next := by
  rw [handleAssignment_eq resolveAssignBits dfa _ flagged] at handled ⊢
  have start : assignmentStart resolveAssignBits dfa expr.noop =
      assignmentStart resolveAssignBits dfa expr := by
    simp only [assignmentStart, AssignmentExpression.noop, BitSliceList.width_map_strip]
  rw [start, assignmentSteps_noop unreached tracked (stop_notMem_of_run handled), foldlM_strip]
  exact handled

end DataFlowAnalysis

namespace Stmt

/-- The body with no-ops for the assignments that are not entered. -/
def withoutUnreachable : Stmt → Bool → Stmt
  | .assign expr, entered => .assign (if entered then expr else expr.noop)
  | .force expr, entered => .force (if entered then expr else expr.noop)
  | .seq first second, entered =>
      .seq (first.withoutUnreachable entered)
        (second.withoutUnreachable (first.leaves entered))
  | .either dead intoFirst first second, entered =>
      .either dead intoFirst (first.withoutUnreachable (entered && dead ≠ some .first))
        (second.withoutUnreachable (entered && dead ≠ some .second))
  | leaf, _ => leaf

end Stmt

namespace DataFlowAnalysis

/-- Every assignment of the body has its references ruled out. -/
def AllRuledOut (resolveAssignBits : Bool) (start : DataFlowAnalysis) (body : Stmt) : Prop :=
  ∀ position expr dfa, AssignmentAt resolveAssignBits start body position expr dfa →
    RuledOut resolveAssignBits dfa expr

/-- The segment loop meets only tracked values in the assignments of the body. -/
def AllSourcesTracked (resolveAssignBits : Bool) (start : DataFlowAnalysis) (body : Stmt) :
    Prop :=
  ∀ position expr dfa, AssignmentAt resolveAssignBits start body position expr dfa →
    SourcesTracked resolveAssignBits dfa expr

/-- No-ops for the unreachable assignments leave the driver sets at the end as they are. -/
def NoopsKeepDrivers (resolveAssignBits : Bool) (start : DataFlowAnalysis) (body : Stmt) : Prop :=
  ∀ after, start.runBody resolveAssignBits body = some after →
    ∃ without, start.runBody resolveAssignBits
        (body.withoutUnreachable start.state.reachable) = some without ∧
      ∀ symbol bit, without.tracked.driversAt symbol bit = after.tracked.driversAt symbol bit

/-- No-ops for the unreachable assignments do not change the walk. -/
theorem handleStmt_withoutUnreachable {resolveAssignBits : Bool} (body : Stmt)
    {dfa next : DataFlowAnalysis} (flagged : dfa.isLValue = false)
    (allowed : dfa.prohibitLValue = false)
    (tracked : AllSourcesTracked resolveAssignBits dfa body)
    (handled : handleStmt resolveAssignBits body dfa = some next) :
    handleStmt resolveAssignBits (body.withoutUnreachable dfa.state.reachable) dfa =
      some next := by
  induction body generalizing dfa next with
  | skip | decide | jump => exact handled
  | assign expr =>
      simp only [Stmt.withoutUnreachable]
      split
      · exact handled
      · next unreached =>
          exact handleAssignment_noop flagged (Bool.eq_false_of_not_eq_true unreached)
            (tracked [] expr dfa ⟨dfa, rfl, Or.inl ⟨rfl, rfl⟩⟩) handled
  | force expr =>
      simp only [Stmt.withoutUnreachable]
      split
      · exact handled
      · next unreached =>
          simp only [handleStmt, Option.bind_eq_bind, Option.bind_eq_some_iff] at handled ⊢
          obtain ⟨middle, assigned, rest⟩ := handled
          refine ⟨middle, ?_, rest⟩
          exact @handleAssignment_noop resolveAssignBits { dfa with prohibitLValue := true } middle
            expr flagged (Bool.eq_false_of_not_eq_true unreached)
            (tracked [] expr _ ⟨dfa, rfl, Or.inr ⟨rfl, rfl⟩⟩) assigned
  | seq first second firstIh secondIh =>
      simp only [handleStmt, Stmt.withoutUnreachable, Option.bind_eq_bind,
        Option.bind_eq_some_iff] at handled ⊢
      obtain ⟨middle, front, back⟩ := handled
      obtain ⟨same, reached⟩ := SameBlock.handleStmt first flagged allowed front
      refine ⟨middle, firstIh flagged allowed ?_ front, ?_⟩
      · rintro position expr before ⟨state, at_, found⟩
        exact tracked (.first :: position) expr before ⟨state, at_, found⟩
      · rw [← reached]
        refine secondIh (same.isLValue.trans flagged) (same.prohibitLValue.trans allowed) ?_ back
        rintro position expr before ⟨state, at_, found⟩
        refine tracked (.second :: position) expr before ⟨state, ?_, found⟩
        simpa only [stateAt, front, Option.bind_eq_bind, Option.bind_some] using at_
  | either dead intoFirst first second firstIh secondIh =>
      simp only [handleStmt, Stmt.withoutUnreachable, Option.bind_eq_bind,
        Option.bind_eq_some_iff] at handled ⊢
      obtain ⟨afterFirst, firstArm, afterSecond, secondArm, joined⟩ := handled
      obtain ⟨same, _⟩ := @SameBlock.handleStmt resolveAssignBits first
        (dfa.setState (dfa.state.armState dead .first)) afterFirst flagged allowed firstArm
      refine ⟨afterFirst, ?_, afterSecond, ?_, joined⟩
      · rw [← armState_reachable]
        refine @firstIh (dfa.setState (dfa.state.armState dead .first)) afterFirst flagged allowed
          ?_ firstArm
        rintro position expr before ⟨state, at_, found⟩
        exact tracked (.first :: position) expr before ⟨state, at_, found⟩
      · rw [← armState_reachable]
        refine @secondIh (afterFirst.setState (dfa.state.armState dead .second)) afterSecond
          (same.isLValue.trans flagged) (same.prohibitLValue.trans allowed) ?_ secondArm
        rintro position expr before ⟨state, at_, found⟩
        refine tracked (.second :: position) expr before ⟨state, ?_, found⟩
        simpa only [stateAt, firstArm, Option.bind_eq_bind, Option.bind_some] using at_

/--
In every body unreachable assignments and automatic variables are ruled out, and
no-ops for the unreachable assignments keep the driver sets, exactly if the
segment loop meets only reachable values that are not automatic.
-/
theorem references_ruledOut_iff (resolveAssignBits : Bool) (task : Nat)
    (externalNode : Option NodeRef) (body : Stmt) :
    AllRuledOut resolveAssignBits (initial task externalNode) body ∧
        NoopsKeepDrivers resolveAssignBits (initial task externalNode) body ↔
      AllSourcesTracked resolveAssignBits (initial task externalNode) body := by
  constructor
  · rintro ⟨ruledOut, _⟩ position expr dfa at_
    exact ruledOut_iff.mp (ruledOut position expr dfa at_)
  · intro tracked
    refine ⟨fun position expr dfa at_ => ruledOut_iff.mpr (tracked position expr dfa at_), ?_⟩
    intro after ran
    simp only [runBody, Option.bind_eq_bind, Option.bind_eq_some_iff] at ran
    obtain ⟨middle, handled, finalized⟩ := ran
    refine ⟨after, ?_, fun _ _ => rfl⟩
    simp only [runBody, Option.bind_eq_bind, Option.bind_eq_some_iff]
    exact ⟨middle, handleStmt_withoutUnreachable body rfl rfl tracked handled, finalized⟩

/-- `t[3:0] <= u[3:0];` in one aligned segment. -/
def deferredCopy (target source : ValueSymbol) : AssignmentExpression where
  isBlocking := false
  left := .value .literal (lowBits target 3)
  right := .value .literal (lowBits source 3)
  lhsList := [⟨0, 4, [.lsp (lowBits target 3) [] 0]⟩]
  rhsList := [⟨0, 4, [.lsp (lowBits source 3) [] 0]⟩]

/-- `if (1) t[3:0] <= u[3:0]; else t[3:0] <= t[3:0];` -/
def deadElse : Stmt :=
  .either (some .second) false (.assign (deferredCopy signal otherSignal))
    (.assign (deferredCopy signal signal))

/-- The dead arm records its references, and its L-value replaces that of the other arm. -/
theorem deadElse_not_ruledOut :
    ¬ AllRuledOut true (initial 0 none) deadElse ∧
      ¬ NoopsKeepDrivers true (initial 0 none) deadElse := by
  constructor
  · intro ruledOut
    have dead := (ruledOut [.second] (deferredCopy signal signal)
      ((stateAt true deadElse [.second] (initial 0 none)).getD {})
      ⟨(stateAt true deadElse [.second] (initial 0 none)).getD {}, by decide +kernel,
        Or.inl ⟨rfl, rfl⟩⟩).1 (by decide +kernel) signal
    exact dead ⟨.write signal 0 ⟨0, 3⟩, by decide +kernel, rfl⟩
  · intro keeps
    obtain ⟨without, ran, same⟩ := keeps (((initial 0 none).runBody true deadElse).getD {})
      (by decide +kernel)
    obtain rfl : ((initial 0 none).runBody true (deadElse.withoutUnreachable true)).getD {} =
        without := by
      rw [show (initial 0 none).state.reachable = true from rfl] at ran
      rw [ran]
      rfl
    exact absurd (same signal 0) (by decide +kernel)

end DataFlowAnalysis

end SlangNetlist
