import SlangNetlist.Analysis.SelectorReads

/-!
# Selects without a root

A select of a concatenation, a call or a cast has a path without a root symbol.
It is a slice of a value as any other select, and the drivers of the segments
take the root of every such slice for granted.
-/

namespace SlangNetlist

open Library AssignmentStep BitSliceList SliceExpr

/-- No named value is at the base of the path. -/
def ValuePath.Rootless (path : ValuePath) : Prop :=
  path.rootSymbol = none ∨ path.lsp = none

instance (path : ValuePath) : Decidable path.Rootless :=
  inferInstanceAs (Decidable (_ ∨ _))

namespace Reference

/-- A value whose path has no root. -/
def Rootless : Reference → Prop
  | .leaf _ path _ => path.Rootless
  | .visited _ => False

end Reference

namespace AssignmentStep

variable {cuts : Option CutRegistry} {context : WalkContext} {fallbackLoc : SourceLocation}

theorem stop_notMem_ofExpr (left : Bool) (isLValue : Bool) (expr : Expr) :
    .stop ∉ ofExpr context left isLValue expr := by
  have noted (isLValue : Bool) (path : ValuePath) : .stop ∉ ofPath context left isLValue path := by
    unfold ofPath
    split
    · exact List.not_mem_nil
    · split
      · split_ifs <;> simp
      · exact List.not_mem_nil
  induction expr generalizing isLValue with
  | literal => exact List.not_mem_nil
  | value selectors path ih =>
      rw [ofExpr, List.mem_append, not_or]
      exact ⟨ih false, noted isLValue path⟩
  | operator first second firstIh secondIh =>
      rw [ofExpr, List.mem_append, not_or]
      exact ⟨firstIh isLValue, secondIh isLValue⟩

theorem ofLhsSource_rootless {path : ValuePath} (rootless : path.Rootless) (segment : Segment)
    (selectors : List Selector) (srcLo : Nat) :
    ofLhsSource segment (.lsp path selectors srcLo) = [.stop] := by
  rcases rootless with none | none
  · simp only [ofLhsSource, none]
  · cases rooted : path.rootSymbol <;> simp only [ofLhsSource, rooted, none]

theorem ofRhsSource_rootless {path : ValuePath} (rootless : path.Rootless) (segment : Segment)
    (selectors : List Selector) (srcLo : Nat) :
    ofRhsSource context fallbackLoc segment (.lsp path selectors srcLo) = [.stop] := by
  rcases rootless with none | none
  · simp only [ofRhsSource, none]
  · cases rooted : path.rootSymbol <;> simp only [ofRhsSource, rooted, none]

/-- A value whose path has a root does not stop the walk. -/
theorem stop_notMem_lsp {path : ValuePath} (rooted : ¬ path.Rootless) {segment : Segment}
    {selectors : List Selector} {srcLo : Nat} (placed : srcLo ≤ segment.concatLo) :
    .stop ∉ ofLhsSource segment (.lsp path selectors srcLo) ∧
      .stop ∉ ofRhsSource context fallbackLoc segment (.lsp path selectors srcLo) := by
  rw [ValuePath.Rootless, not_or] at rooted
  obtain ⟨symbol, root⟩ := Option.ne_none_iff_exists'.mp rooted.1
  obtain ⟨lsp, prefix_⟩ := Option.ne_none_iff_exists'.mp rooted.2
  simp only [ofLhsSource, ofRhsSource, root, prefix_, ge_iff_le, placed, if_true]
  refine ⟨by simp, fun member => ?_⟩
  rcases List.mem_append.mp member with selected | read
  · obtain ⟨selector, _, visits⟩ := List.mem_flatMap.mp selected
    unfold ofSelector at visits
    split at visits
    · exact List.not_mem_nil visits
    · exact stop_notMem_ofExpr false false _ visits
  · cases List.mem_singleton.mp read

/-- A source without a root. -/
def RootlessSource (source : BitSliceSource) : Prop :=
  ∃ path selectors srcLo, source = .lsp path selectors srcLo ∧ path.Rootless

/-- A source of the left side stops the walk if its path has no root. -/
theorem stop_mem_ofLhsSource {segment : Segment} {source : BitSliceSource}
    (placed : source.srcLo ≤ segment.concatLo) :
    .stop ∈ ofLhsSource segment source ↔ RootlessSource source := by
  constructor
  · intro stops
    cases source with
    | lsp path selectors srcLo =>
        refine ⟨path, selectors, srcLo, rfl, ?_⟩
        by_contra rooted
        exact (@stop_notMem_lsp ⟨true, .data, .range⟩ none path rooted segment selectors srcLo
          placed).1 stops
    | padding | opaqueExpr | portNode | constant => cases stops
  · rintro ⟨path, selectors, srcLo, rfl, rootless⟩
    rw [ofLhsSource_rootless rootless]
    exact List.mem_singleton_self _

/-- So does one of the right side, and a port. -/
theorem stop_mem_ofRhsSource {segment : Segment} {source : BitSliceSource}
    (placed : source.srcLo ≤ segment.concatLo) :
    .stop ∈ ofRhsSource context fallbackLoc segment source ↔
      RootlessSource source ∨ ∃ node, source = .portNode node := by
  constructor
  · intro stops
    cases source with
    | lsp path selectors srcLo =>
        refine Or.inl ⟨path, selectors, srcLo, rfl, ?_⟩
        by_contra rooted
        exact (stop_notMem_lsp rooted placed).2 stops
    | portNode node => exact Or.inr ⟨node, rfl⟩
    | opaqueExpr expr => exact absurd stops (stop_notMem_ofExpr false false expr)
    | padding => cases stops
    | constant => cases List.mem_singleton.mp stops
  · rintro (⟨path, selectors, srcLo, rfl, rootless⟩ | ⟨node, rfl⟩)
    · rw [ofRhsSource_rootless rootless]
      exact List.mem_singleton_self _
    · exact List.mem_singleton_self _

end AssignmentStep

section Segments

variable {cuts : Option CutRegistry}

/-- The sources of a side of the segments are those of the bits that they stand for. -/
theorem exists_source_iff {segments : List Segment} {side : Segment → List BitSliceSource}
    {finish : Nat} {bits : Nat → List BitSource}
    (tiles : Tiles Segment.concatLo Segment.concatHi 0 segments finish)
    (stands : ∀ segment ∈ segments, ∀ bit, segment.Holds bit →
      (side segment).map (segment.passes bit) = bits bit)
    {given : BitSliceSource → Prop} {meant : BitSource → Prop}
    (same : ∀ segment bit source, meant (Segment.passes segment bit source) ↔ given source) :
    (∃ segment ∈ segments, ∃ source ∈ side segment, given source) ↔
      ∃ bit < finish, ∃ source ∈ bits bit, meant source := by
  constructor
  · rintro ⟨segment, member, source, sourceMem, holds⟩
    have inside := tiles.bounds member
    refine ⟨segment.concatLo, by omega, segment.passes segment.concatLo source, ?_,
      (same _ _ _).mpr holds⟩
    rw [← stands segment member segment.concatLo ⟨le_rfl, inside.2.1⟩]
    exact List.mem_map_of_mem sourceMem
  · rintro ⟨bit, below, source, sourceMem, holds⟩
    obtain ⟨segment, member, _, inside⟩ := tiles.exists_find (Nat.zero_le bit) below
    rw [← stands segment member bit inside] at sourceMem
    obtain ⟨own, ownMem, rfl⟩ := List.mem_map.mp sourceMem
    exact ⟨segment, member, own, ownMem, (same _ _ _).mp holds⟩

/-- A bit of a value without a root. -/
def RootlessBit (source : BitSource) : Prop :=
  ∃ path selectors bit, source = .leaf path selectors bit ∧ path.Rootless

theorem rootlessBit_passes (segment : Segment) (bit : Nat) (source : BitSliceSource) :
    RootlessBit (segment.passes bit source) ↔ RootlessSource source := by
  cases source with
  | lsp path selectors srcLo => simp [RootlessBit, RootlessSource, Segment.passes]
  | padding | opaqueExpr | portNode | constant =>
      simp [RootlessBit, RootlessSource, Segment.passes, BitSliceSource.bitAt]

/-- A value with bits has slices. -/
theorem sliceWidth_pos {width : Nat} (some : width ≠ 0) (path : ValuePath)
    (selectors : List Selector) : 0 < sliceWidth cuts (.value width path selectors) := by
  have ends := path.lspBounds.lower_le_upper
  rw [sliceWidth, if_neg some]
  split
  · omega
  · omega

theorem leaf_notMem_visitedAt {width count : Nat} {path : ValuePath} {selectors : List Selector}
    {expr : Expr} : Reference.leaf width path selectors ∉ visitedAt count expr := by
  unfold visitedAt
  split <;> simp

mutual

/-- A value that is referred to has bits. -/
theorem width_ne_zero_of_mem {width : Nat} {path : ValuePath} {selectors : List Selector} :
    ∀ {expr : SliceExpr}, Reference.leaf width path selectors ∈ references cuts expr → width ≠ 0
  | .value own _ _, member => by
      rw [references] at member
      split at member
      · cases member
      · next some =>
          obtain ⟨rfl, _, _⟩ := Reference.leaf.inj (List.mem_singleton.mp member)
          exact some
  | .concatenation operands, member => width_ne_zero_of_mem_operands member
  | .replication own count concat expr, member => by
      cases count with
      | none => exact absurd member leaf_notMem_visitedAt
      | some count =>
          rw [references] at member
          split at member
          · cases member
          · exact width_ne_zero_of_mem member
  | .conversion own folded isSignExt operand expr location, member => by
      rw [references] at member
      split at member
      · cases member
      · split at member
        · exact width_ne_zero_of_mem member
        · exact absurd member leaf_notMem_visitedAt
  | .conditionalOp own plain condition left right expr, member => by
      rw [references] at member
      split at member
      · split at member
        · cases member
        · rcases List.mem_append.mp member with arms | visited
          · exact (List.mem_append.mp arms).elim width_ne_zero_of_mem width_ne_zero_of_mem
          · cases List.mem_singleton.mp visited
      · exact absurd member leaf_notMem_visitedAt
  | .other own folded expr location, member => by
      rw [references] at member
      split at member
      · cases member
      · exact absurd member leaf_notMem_visitedAt

theorem width_ne_zero_of_mem_operands {width : Nat} {path : ValuePath}
    {selectors : List Selector} : ∀ {operands : List SliceExpr},
    Reference.leaf width path selectors ∈ operandsReferences cuts operands → width ≠ 0
  | [], member => by cases member
  | operand :: rest, member => (List.mem_append.mp member).elim
      width_ne_zero_of_mem_operands width_ne_zero_of_mem

end

theorem exists_rootlessBit_iff {expr : SliceExpr} :
    (∃ bit < sliceWidth cuts expr, ∃ source ∈ bitSources (sliceWidth cuts) expr bit,
        RootlessBit source) ↔ ∃ reference ∈ references cuts expr, reference.Rootless := by
  constructor
  · rintro ⟨bit, below, _, sourceMem, path, selectors, index, rfl, rootless⟩
    obtain ⟨reference, member, shows_⟩ := (hasSource_iff
      (show Refers (.leaf path selectors index) from trivial) expr).mp ⟨bit, below, sourceMem⟩
    cases reference with
    | leaf width other own =>
        obtain ⟨_, _, same⟩ := shows_
        obtain ⟨rfl, _, _⟩ := BitSource.leaf.inj same
        exact ⟨_, member, rootless⟩
    | visited => cases shows_
  · rintro ⟨reference, member, rootless⟩
    cases reference with
    | leaf width path selectors =>
        have first : Shows cuts (.leaf path selectors (path.lspBounds.lower + (0 : Nat)))
            (.leaf width path selectors) :=
          ⟨0, sliceWidth_pos (width_ne_zero_of_mem member) path selectors, rfl⟩
        obtain ⟨bit, below, sourceMem⟩ := (hasSource_iff
          (show Refers (.leaf path selectors _) from trivial) expr).mpr ⟨_, member, first⟩
        exact ⟨bit, below, _, sourceMem, path, selectors, _, rfl, rootless⟩
    | visited => cases rootless

/-- No slice stands for a port. -/
theorem not_exists_port {expr : SliceExpr} : ¬ ∃ bit < sliceWidth cuts expr,
    ∃ source ∈ bitSources (sliceWidth cuts) expr bit, ∃ node, source = .port node := by
  rintro ⟨bit, below, _, sourceMem, node, rfl⟩
  obtain ⟨reference, _, shows_⟩ := (hasSource_iff (show Refers (.port node) from trivial) expr).mp
    ⟨bit, below, sourceMem⟩
  cases reference with
  | leaf width path selectors =>
      obtain ⟨_, _, same⟩ := shows_
      cases same
  | visited => cases shows_

end Segments

/-- An assignment of integral types, with the two sides of its decomposition. -/
structure DecomposedAssignment (cuts : Option CutRegistry) where
  expr : AssignmentExpression
  left : SliceExpr
  right : SliceExpr
  integral : expr.integral = true
  lhsList : expr.lhsList = build left true cuts
  rhsList : expr.rhsList = build right true cuts

/-- The expressions that the visit of an expression comes to. -/
def Expr.operands : Expr → List Expr
  | .literal => [.literal]
  | .value selectors path => .value selectors path :: selectors.operands
  | .operator first second => .operator first second :: (first.operands ++ second.operands)

/--
A select whose base is not a named value, as a leaf of the decomposition of one
side.  The visit of that side comes to its base and to its selectors.
-/
structure RootlessSelect {cuts : Option CutRegistry} (assignment : DecomposedAssignment cuts) where
  onLeft : Bool
  width : Nat
  path : ValuePath
  selectors : List Selector
  base : Expr
  rootless : path.Rootless
  leaf : .leaf width path selectors ∈
    references cuts (if onLeft then assignment.left else assignment.right)
  visited : .value (.operator base
      (selectors.foldr (fun selector rest => .operator selector.expr rest) .literal)) path ∈
    (if onLeft then assignment.expr.left else assignment.expr.right).operands

namespace RootlessSelect

variable {cuts : Option CutRegistry} {assignment : DecomposedAssignment cuts}

/-- The signals that are read inside the base and the selectors. -/
def reads (select : RootlessSelect assignment) : List SignalRead :=
  select.base.signals ++ select.selectors.flatMap fun selector => selector.expr.signals

end RootlessSelect

namespace AssignmentStep

variable {context : WalkContext} {left : Bool} {read : SignalRead}

/-- The visit of an expression reads what is inside the base and the selectors of its selects. -/
theorem readsSignal_operands (reached : context.reachable = true) {isLValue : Bool}
    {expr selectors : Expr} {path : ValuePath} (part : .value selectors path ∈ expr.operands)
    (member : read ∈ selectors.signals) : ReadsSignal (ofExpr context left isLValue expr) read := by
  induction expr generalizing isLValue with
  | literal => cases List.mem_singleton.mp part
  | value own other ih =>
      rw [ofExpr]
      rcases List.mem_cons.mp part with same | inside
      · obtain ⟨rfl, rfl⟩ := Expr.value.inj same
        exact (readsSignal_ofExpr reached member).mono fun _ => List.mem_append_left _
      · exact (ih inside).mono fun _ => List.mem_append_left _
  | operator first second firstIh secondIh =>
      rw [ofExpr]
      rcases List.mem_cons.mp part with same | inside
      · cases same
      · rcases List.mem_append.mp inside with inFirst | inSecond
        · exact (firstIh inFirst).mono fun _ => List.mem_append_left _
        · exact (secondIh inSecond).mono fun _ => List.mem_append_right _

end AssignmentStep

namespace DataFlowAnalysis

variable {cuts : Option CutRegistry} {resolveAssignBits : Bool} {dfa : DataFlowAnalysis}

/-- A side that the segments drive or read has a value without a root. -/
def DrivesRootless (dfa : DataFlowAnalysis) (assignment : DecomposedAssignment cuts) : Prop :=
  (dfa.prohibitLValue = false ∧
    ∃ reference ∈ references cuts assignment.left, reference.Rootless) ∨
  (assignment.expr.isLValueArg = false ∧
    ∃ reference ∈ references cuts assignment.right, reference.Rootless)

/-- The walk uses a missing root if and only if it takes the segments of such a side. -/
theorem stop_mem_iff (assignment : DecomposedAssignment cuts) :
    .stop ∈ assignmentSteps resolveAssignBits dfa assignment.expr ↔
      Aligned resolveAssignBits assignment.expr ∧ dfa.DrivesRootless assignment := by
  by_cases aligned : Aligned resolveAssignBits assignment.expr
  · have sameWidth : width (build assignment.left true cuts) =
        width (build assignment.right true cuts) := by
      by_contra differs
      rw [← assignment.lhsList, ← assignment.rhsList] at differs
      exact aligned (Or.inr (Or.inr differs))
    rw [width_build, width_build] at sameWidth
    have leftDenotes := denotes_build cuts assignment.left
    rw [sameWidth] at leftDenotes
    obtain ⟨tiles, joined⟩ := alignSegments_spec leftDenotes (denotes_build cuts assignment.right)
    rw [← assignment.lhsList, ← assignment.rhsList] at tiles joined
    have inLeft := (exists_source_iff tiles (fun segment member bit holds =>
      ((joined segment member).2 bit holds).1) rootlessBit_passes).trans
        (sameWidth ▸ exists_rootlessBit_iff)
    have inRight := (exists_source_iff tiles (fun segment member bit holds =>
      ((joined segment member).2 bit holds).2) rootlessBit_passes).trans exists_rootlessBit_iff
    have noPort := (not_congr (exists_source_iff tiles (fun segment member bit holds =>
      ((joined segment member).2 bit holds).2) (fun segment bit source =>
        show (∃ node, segment.passes bit source = .port node) ↔ ∃ node, source = .portNode node by
          cases source <;> simp [Segment.passes, BitSliceSource.bitAt]))).mpr not_exists_port
    rw [and_iff_right aligned, DrivesRootless, ← inLeft, ← inRight, assignmentSteps_aligned aligned]
    simp only [List.mem_flatMap, mem_ofSegment, reduceCtorEq, false_or]
    have placed {segment : Segment}
        (member : segment ∈ alignSegments assignment.expr.lhsList assignment.expr.rhsList) :=
      (joined segment member).1
    constructor
    · rintro ⟨segment, member, ⟨driven, source, sourceMem, stops⟩ |
        ⟨read, source, sourceMem, stops⟩⟩
      · exact Or.inl ⟨driven, segment, member, source, sourceMem,
          (stop_mem_ofLhsSource (placed member source (List.mem_append_left _ sourceMem))).mp stops⟩
      · rcases (stop_mem_ofRhsSource
          (placed member source (List.mem_append_right _ sourceMem))).mp stops with rootless | port
        · exact Or.inr ⟨read, segment, member, source, sourceMem, rootless⟩
        · exact absurd ⟨segment, member, source, sourceMem, port⟩ noPort
    · rintro (⟨driven, segment, member, source, sourceMem, rootless⟩ |
        ⟨read, segment, member, source, sourceMem, rootless⟩)
      · exact ⟨segment, member, Or.inl ⟨driven, source, sourceMem, (stop_mem_ofLhsSource
          (placed member source (List.mem_append_left _ sourceMem))).mpr rootless⟩⟩
      · exact ⟨segment, member, Or.inr ⟨read, source, sourceMem, (stop_mem_ofRhsSource
          (placed member source (List.mem_append_right _ sourceMem))).mpr (Or.inl rootless)⟩⟩
  · rw [assignmentSteps_legacy aligned]
    refine iff_of_false (fun stops => ?_) fun drives => aligned drives.1
    rcases mem_ofLegacy.mp stops with first | left | ⟨_, right⟩
    · cases first
    · exact stop_notMem_ofExpr _ _ _ left
    · exact stop_notMem_ofExpr _ _ _ right

/-- The walk of one node reads all signals inside a select without a root. -/
theorem readsSignal_rootless {assignment : DecomposedAssignment cuts}
    (select : RootlessSelect assignment) (reached : dfa.state.reachable = true)
    (legacy : ¬ Aligned resolveAssignBits assignment.expr)
    (walked : select.onLeft = true ∨ assignment.expr.isLValueArg = false) {read : SignalRead}
    (member : read ∈ select.reads) :
    ReadsSignal (assignmentSteps resolveAssignBits dfa assignment.expr) read := by
  have inside : read ∈ (Expr.operator select.base
      (select.selectors.foldr (fun selector rest => .operator selector.expr rest)
        .literal)).signals := by
    rw [Expr.signals]
    refine List.mem_append.mpr ((List.mem_append.mp member).imp_right fun selected => ?_)
    generalize select.selectors = selectors at selected ⊢
    induction selectors with
    | nil => cases selected
    | cons selector rest ih =>
        rw [List.flatMap_cons] at selected
        rw [List.foldr_cons, Expr.signals]
        exact List.mem_append.mpr ((List.mem_append.mp selected).imp_right ih)
  have part := select.visited
  rw [assignmentSteps_legacy legacy, ofLegacy]
  cases side : select.onLeft with
  | true =>
      rw [side, if_pos rfl] at part
      exact (readsSignal_operands reached part inside).mono fun _ visited =>
        List.mem_cons_of_mem _ (List.mem_append_left _ visited)
  | false =>
      rw [side, if_neg Bool.false_ne_true] at part
      have visits : ¬ assignment.expr.isLValueArg = true := by
        rcases walked with onLeft | visits
        · rw [side] at onLeft
          cases onLeft
        · simp [visits]
      rw [if_neg visits]
      exact (readsSignal_operands reached part inside).mono fun _ visited =>
        List.mem_cons_of_mem _ (List.mem_append_right _ visited)

section Handled

variable (resolveInterfaceRef : InterfaceRefs) (builder : NetlistBuilder)

/--
No step of the walk uses a missing root, and when the walk ends each signal
inside the select has an edge or a pending R-value to a node of the assignment.
-/
structure SelectHandled (resolveAssignBits : Bool) (dfa : DataFlowAnalysis)
    {assignment : DecomposedAssignment cuts} (select : RootlessSelect assignment) : Prop where
  runs : .stop ∉ assignmentSteps resolveAssignBits dfa assignment.expr
  recorded : ∀ next, dfa.handleAssignment resolveAssignBits assignment.expr = some next →
    ∀ read ∈ select.reads, ∃ bit ∈ read.2,
      Recorded resolveInterfaceRef builder dfa next read.1 bit

/--
The assignment is walked as one node, or the sides that its segments take have
roots; and some reference of the assignment reads each signal inside the select.
-/
structure WalkedWhole (resolveAssignBits : Bool) (dfa : DataFlowAnalysis)
    {assignment : DecomposedAssignment cuts} (select : RootlessSelect assignment) : Prop where
  rooted : Aligned resolveAssignBits assignment.expr → ¬ dfa.DrivesRootless assignment
  read : ∀ read ∈ select.reads, ∃ bit ∈ read.2,
    ReadsBit resolveInterfaceRef builder resolveAssignBits dfa assignment.expr read.1 bit

/--
Every select without a root in every assignment of every block is handled if the
segments take no value without a root and references of the assignment read its
signals; and only then, unless the assertion on a driver list ends the walk.
Walked as one node, the assignment has a reference to each signal.
-/
theorem selectHandled_iff (task : Nat) (externalNode : Option NodeRef) {body : Stmt}
    {position : Position} {assignment : DecomposedAssignment cuts}
    (select : RootlessSelect assignment)
    (at_ : AssignmentAt resolveAssignBits (initial task externalNode) body position
      assignment.expr dfa) :
    (WalkedWhole resolveInterfaceRef builder resolveAssignBits dfa select →
      SelectHandled resolveInterfaceRef builder resolveAssignBits dfa select) ∧
    (.stop ∈ assignmentSteps resolveAssignBits dfa assignment.expr ∨
        dfa.handleAssignment resolveAssignBits assignment.expr ≠ none →
      (SelectHandled resolveInterfaceRef builder resolveAssignBits dfa select ↔
        WalkedWhole resolveInterfaceRef builder resolveAssignBits dfa select)) ∧
    (¬ Aligned resolveAssignBits assignment.expr → dfa.state.reachable = true →
      (select.onLeft = true ∨ assignment.expr.isLValueArg = false) → ∀ read ∈ select.reads,
        ReadsSignal (assignmentSteps resolveAssignBits dfa assignment.expr) read) := by
  obtain ⟨flagged, tidy, driven⟩ := at_.walks
  have stops := @stop_mem_iff cuts resolveAssignBits dfa assignment
  have enough : WalkedWhole resolveInterfaceRef builder resolveAssignBits dfa select →
      SelectHandled resolveInterfaceRef builder resolveAssignBits dfa select := by
    rintro ⟨rooted, reads⟩
    refine ⟨fun member => rooted (stops.mp member).1 (stops.mp member).2, ?_⟩
    intro next handled read member
    obtain ⟨bit, inside, found⟩ := reads read member
    exact ⟨bit, inside, (recorded_iff flagged tidy driven handled).mpr found⟩
  refine ⟨enough, fun ends => ⟨?_, enough⟩, fun legacy reachable walked read member =>
    readsSignal_rootless select reachable legacy walked member⟩
  rintro ⟨runs, recorded⟩
  refine ⟨fun aligned drives => runs (stops.mpr ⟨aligned, drives⟩), fun read member => ?_⟩
  obtain ⟨next, handled⟩ := Option.ne_none_iff_exists'.mp (ends.resolve_left runs)
  obtain ⟨bit, inside, record⟩ := recorded next handled read member
  exact ⟨bit, inside, (recorded_iff flagged tidy driven handled).mp record⟩

end Handled

/-- `{x, i}[1:0]`: the path of a select of a concatenation. -/
def concatPath : ValuePath := { rootSymbol := none, lsp := none, lspBounds := ⟨0, 1⟩ }

/-- The concatenation `{x, i}`, as its visit sees it. -/
def concatBase : Expr := .operator (.value .literal bytePath) byteSelector.expr

/-- `y = {x, i}[1:0];` for `y` of the given width. -/
def concatSelect (width : Nat) : DecomposedAssignment none where
  expr :=
    { left := (wholeValue 0 width).visited
      right := .value (.operator concatBase .literal) concatPath
      lhsList := build (wholeValue 0 width) true none
      rhsList := build (.value 2 concatPath []) true none }
  left := wholeValue 0 width
  right := .value 2 concatPath []
  integral := rfl
  lhsList := rfl
  rhsList := rfl

def concatLeaf (width : Nat) : RootlessSelect (concatSelect width) where
  onLeft := false
  width := 2
  path := concatPath
  selectors := []
  base := concatBase
  rootless := Or.inl rfl
  leaf := List.mem_singleton_self _
  visited := List.mem_cons_self

/-- The reads of `x` and `i` in the walk as one node. -/
def byteRead : Access :=
  ⟨{ id := 1, name := "x", hierarchicalPath := "m.x" }, 1, ⟨0, 7⟩, .data, .range⟩

def indexRead : Access :=
  ⟨{ id := 2, name := "i", hierarchicalPath := "m.i" }, 2, ⟨0, 2⟩, .data, .range⟩

/-- For a target of another width the assignment is walked as one node. -/
theorem concatLeaf_walkedWhole :
    WalkedWhole (fun _ _ => []) {} true (initial 0 none) (concatLeaf 3) where
  rooted aligned := absurd aligned (by unfold Aligned; decide +kernel)
  read read member := by
    have steps : assignmentSteps true (initial 0 none) (concatSelect 3).expr =
        [.enter none none, .write { id := 0 } 0 ⟨0, 2⟩, .read byteRead, .read indexRead] := by
      decide +kernel
    have free (front : List AssignmentStep) (access : Access)
        (unwritten : (initial 0 none).endsBefore (concatSelect 3).expr front access.symbol = [])
        (inside : 0 ∈ access.bounds) :
        Ends.Free access.bounds
          ((initial 0 none).endsBefore (concatSelect 3).expr front access.symbol) 0 := by
      rw [unwritten]
      exact ⟨inside, by simp, Or.inl (by simp)⟩
    have reads : (concatLeaf 3).reads =
        [(byteRead.symbol, byteRead.bounds), (indexRead.symbol, indexRead.bounds)] := by
      decide +kernel
    rw [reads] at member
    simp only [List.mem_cons, List.not_mem_nil, or_false] at member
    rcases member with rfl | rfl
    · exact ⟨0, by decide, [.enter none none, .write { id := 0 } 0 ⟨0, 2⟩], _, _, byteRead, steps,
        Or.inl rfl, Or.inr ⟨free _ _ (by decide +kernel) (by decide), rfl⟩⟩
    · exact ⟨0, by decide, [.enter none none, .write { id := 0 } 0 ⟨0, 2⟩, .read byteRead], _, _,
        indexRead, steps, Or.inl rfl, Or.inr ⟨free _ _ (by decide +kernel) (by decide), rfl⟩⟩

theorem selectHandled_iff_concat :
    SelectHandled (fun _ _ => []) {} true (initial 0 none) (concatLeaf 3) ∧
      (SelectHandled (fun _ _ => []) {} true (initial 0 none) (concatLeaf 3) ↔
        WalkedWhole (fun _ _ => []) {} true (initial 0 none) (concatLeaf 3)) := by
  have spec := @selectHandled_iff none true (initial 0 none) (fun _ _ => []) {} 0 none
    (.assign (concatSelect 3).expr) [] _ (concatLeaf 3) ⟨initial 0 none, rfl, Or.inl ⟨rfl, rfl⟩⟩
  exact ⟨spec.1 concatLeaf_walkedWhole, spec.2.1 (Or.inr (by decide +kernel))⟩

/-- The segment of `y = {x, i}[1:0]` uses the root that the select does not have. -/
theorem concatSelect_not_handled :
    AssignmentAt true (initial 0 none) (.assign (concatSelect 2).expr) [] (concatSelect 2).expr
        (initial 0 none) ∧
      ∀ resolveInterfaceRef builder, ¬ SelectHandled resolveInterfaceRef builder true
        (initial 0 none) (concatLeaf 2) :=
  ⟨⟨initial 0 none, rfl, Or.inl ⟨rfl, rfl⟩⟩, fun _ _ handled =>
    handled.runs (by decide +kernel)⟩

end DataFlowAnalysis

end SlangNetlist
