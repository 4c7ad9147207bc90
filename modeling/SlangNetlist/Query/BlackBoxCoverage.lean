import SlangNetlist.Graph.NetlistGraph

/-!
# Black-box coverage

A node is classified against the recorded paths of the black-boxed instances:
contained in a box, on the boundary of one, or outside.  The loop over the
paths stops at the first box that contains the node, and otherwise keeps the
last verdict written.
-/

namespace SlangNetlist

inductive BlackBoxCoverage where
  | outside
  | boundary
  | contained
  deriving DecidableEq, Repr

/-- The loop over the recorded paths, with the verdict so far. -/
def coverageLoop (kind : NodeKind) (path : List Char) :
    List String → BlackBoxCoverage → BlackBoxCoverage
  | [], result => result
  | bbPath :: rest, result =>
      if bbPath.toList.isPrefixOf path then
        if path.length = bbPath.toList.length then .contained
        -- The prefix must end on a path segment boundary.
        else if path[bbPath.toList.length]? = some '.' then
          let remainder := path.drop (bbPath.toList.length + 1)
          if kind = .port ∧ '.' ∉ remainder then coverageLoop kind path rest .boundary
          else .contained
        else coverageLoop kind path rest result
      else coverageLoop kind path rest result

/-- `NetlistGraph::getBlackBoxCoverage`. -/
def NetlistGraph.getBlackBoxCoverage (graph : NetlistGraph) (node : NetlistNode) :
    BlackBoxCoverage :=
  match node.data.getHierarchicalPath with
  | none => .outside
  | some path => coverageLoop node.data.kind path.toList graph.blackBoxPaths .outside

/-- The path runs on behind the box: a dot and a remainder. -/
def Below (bbPath : String) (path remainder : List Char) : Prop :=
  path = bbPath.toList ++ '.' :: remainder

/-- The box is at the path, or above it and the node is no port directly below. -/
def BoxContains (kind : NodeKind) (path : List Char) (bbPath : String) : Prop :=
  path = bbPath.toList ∨
    ∃ remainder, Below bbPath path remainder ∧ (kind ≠ .port ∨ '.' ∈ remainder)

/-- The node is a port directly below the box. -/
def BoxBorders (kind : NodeKind) (path : List Char) (bbPath : String) : Prop :=
  kind = .port ∧ ∃ remainder, Below bbPath path remainder ∧ '.' ∉ remainder

variable {kind : NodeKind} {path remainder : List Char} {bbPath : String}
  {bbPaths : List String} {result : BlackBoxCoverage}

/-- A path that runs on behind the box has a dot there. -/
theorem Below.passes (below : Below bbPath path remainder) :
    bbPath.toList.isPrefixOf path = true ∧ path.length ≠ bbPath.toList.length ∧
      path[bbPath.toList.length]? = some '.' ∧
      path.drop (bbPath.toList.length + 1) = remainder := by
  subst below
  refine ⟨by simp, by simp, by simp, ?_⟩
  rw [← List.drop_drop, List.drop_left]
  rfl

/-- The three tests of the loop find the remainder. -/
theorem below_of_tests (isPrefix : bbPath.toList.isPrefixOf path = true)
    (dot : path[bbPath.toList.length]? = some '.') :
    Below bbPath path (path.drop (bbPath.toList.length + 1)) := by
  obtain ⟨rest, rfl⟩ := List.isPrefixOf_iff_prefix.mp isPrefix
  cases rest with
  | nil => simp at dot
  | cons first rest =>
      have isDot : first = '.' := by simpa using dot
      subst isDot
      simp [Below, ← List.drop_drop]

theorem below_unique {other : List Char} (below : Below bbPath path remainder)
    (otherBelow : Below bbPath path other) : other = remainder :=
  otherBelow.passes.2.2.2.symm.trans below.passes.2.2.2

/-- No box both contains the node and borders on it. -/
theorem not_borders_of_contains (contains : BoxContains kind path bbPath) :
    ¬ BoxBorders kind path bbPath := by
  rintro ⟨isPort, remainder, below, direct⟩
  rcases contains with same | ⟨other, otherBelow, deep⟩
  · exact below.passes.2.1 (congrArg List.length same)
  · rw [below_unique below otherBelow] at deep
    exact deep.elim (fun notPort => notPort isPort) direct

/-- A box that contains the node ends the loop. -/
theorem coverageLoop_cons_of_contains (contains : BoxContains kind path bbPath) :
    coverageLoop kind path (bbPath :: bbPaths) result = .contained := by
  unfold coverageLoop
  rcases contains with rfl | ⟨remainder, below, deep⟩
  · simp
  · obtain ⟨isPrefix, longer, dot, rest⟩ := below.passes
    have notDirect : ¬ (kind = .port ∧ '.' ∉ remainder) := by
      rintro ⟨isPort, direct⟩
      exact deep.elim (fun notPort => notPort isPort) direct
    simp only [isPrefix, longer, dot, rest, notDirect, if_true, if_false]

/-- A box that borders on the node overwrites the verdict. -/
theorem coverageLoop_cons_of_borders (borders : BoxBorders kind path bbPath) :
    coverageLoop kind path (bbPath :: bbPaths) result =
      coverageLoop kind path bbPaths .boundary := by
  obtain ⟨isPort, remainder, below, direct⟩ := borders
  obtain ⟨isPrefix, longer, dot, rest⟩ := below.passes
  conv => lhs; unfold coverageLoop
  simp only [isPrefix, longer, dot, rest, isPort, direct, not_false_eq_true, and_self, if_true,
    if_false]

/-- Any other box is passed over. -/
theorem coverageLoop_cons_of_other (notContains : ¬ BoxContains kind path bbPath)
    (notBorders : ¬ BoxBorders kind path bbPath) :
    coverageLoop kind path (bbPath :: bbPaths) result =
      coverageLoop kind path bbPaths result := by
  conv => lhs; unfold coverageLoop
  by_cases isPrefix : bbPath.toList.isPrefixOf path
  · have longer : path.length ≠ bbPath.toList.length := fun sameLength =>
      notContains (.inl ((List.isPrefixOf_iff_prefix.mp isPrefix).eq_of_length
        sameLength.symm).symm)
    have noDot : path[bbPath.toList.length]? ≠ some '.' := by
      intro dot
      have below := below_of_tests isPrefix dot
      by_cases deep : kind ≠ .port ∨ '.' ∈ path.drop (bbPath.toList.length + 1)
      · exact notContains (.inr ⟨_, below, deep⟩)
      · obtain ⟨isPort, direct⟩ := not_or.mp deep
        exact notBorders ⟨not_not.mp isPort, _, below, direct⟩
    simp only [isPrefix, longer, noDot, if_true, if_false]
  · simp only [isPrefix, if_false, Bool.false_eq_true]

/-- The loop has found a container, or a bordering box, or nothing new. -/
theorem coverageLoop_eq (kind : NodeKind) (path : List Char) (bbPaths : List String)
    (result : BlackBoxCoverage) :
    ((∃ bbPath ∈ bbPaths, BoxContains kind path bbPath) ∧
        coverageLoop kind path bbPaths result = .contained) ∨
      ((∀ bbPath ∈ bbPaths, ¬ BoxContains kind path bbPath) ∧
        (((∃ bbPath ∈ bbPaths, BoxBorders kind path bbPath) ∧
            coverageLoop kind path bbPaths result = .boundary) ∨
          ((∀ bbPath ∈ bbPaths, ¬ BoxBorders kind path bbPath) ∧
            coverageLoop kind path bbPaths result = result))) := by
  induction bbPaths generalizing result with
  | nil => simp [coverageLoop]
  | cons bbPath rest ih =>
      by_cases contains : BoxContains kind path bbPath
      · exact .inl ⟨⟨bbPath, List.mem_cons_self, contains⟩,
          coverageLoop_cons_of_contains contains⟩
      · by_cases borders : BoxBorders kind path bbPath
        · rw [coverageLoop_cons_of_borders borders]
          have := ih .boundary
          grind
        · rw [coverageLoop_cons_of_other contains borders]
          have := ih result
          grind

namespace NetlistGraph

variable {graph other : NetlistGraph} {node : NetlistNode}

/-- A recorded box contains the node. -/
def Contained (graph : NetlistGraph) (node : NetlistNode) : Prop :=
  ∃ path, node.data.getHierarchicalPath = some path ∧
    ∃ bbPath ∈ graph.blackBoxPaths, BoxContains node.data.kind path.toList bbPath

/-- The node is a port directly below a recorded box. -/
def OnBoundary (graph : NetlistGraph) (node : NetlistNode) : Prop :=
  ∃ path, node.data.getHierarchicalPath = some path ∧
    ∃ bbPath ∈ graph.blackBoxPaths, BoxBorders node.data.kind path.toList bbPath

/-- The verdict by the boxes, containment first. -/
theorem getBlackBoxCoverage_cases (graph : NetlistGraph) (node : NetlistNode) :
    (graph.Contained node ∧ graph.getBlackBoxCoverage node = .contained) ∨
      (¬ graph.Contained node ∧ graph.OnBoundary node ∧
        graph.getBlackBoxCoverage node = .boundary) ∨
      (¬ graph.Contained node ∧ ¬ graph.OnBoundary node ∧
        graph.getBlackBoxCoverage node = .outside) := by
  unfold Contained OnBoundary getBlackBoxCoverage
  cases node.data.getHierarchicalPath with
  | none => simp
  | some path =>
      have cases := coverageLoop_eq node.data.kind path.toList graph.blackBoxPaths .outside
      simp only [Option.some.injEq, exists_eq_left']
      rcases cases with ⟨contained, same⟩ | ⟨notContained, ⟨borders, same⟩ | ⟨notBorders, same⟩⟩
      · exact .inl ⟨contained, same⟩
      · exact .inr (.inl ⟨by simpa using notContained, borders, same⟩)
      · exact .inr (.inr ⟨by simpa using notContained, by simpa using notBorders, same⟩)

theorem contained_congr
    (same : ∀ bbPath, bbPath ∈ graph.blackBoxPaths ↔ bbPath ∈ other.blackBoxPaths) :
    graph.Contained node ↔ other.Contained node := by
  simp only [Contained, same]

theorem onBoundary_congr
    (same : ∀ bbPath, bbPath ∈ graph.blackBoxPaths ↔ bbPath ∈ other.blackBoxPaths) :
    graph.OnBoundary node ↔ other.OnBoundary node := by
  simp only [OnBoundary, same]

/-- Containment wins over the boundary, a node without a path is outside, and
only the set of recorded paths matters. -/
theorem getBlackBoxCoverage_classifies (graph : NetlistGraph) (node : NetlistNode) :
    (graph.getBlackBoxCoverage node = .contained ↔ graph.Contained node) ∧
      (graph.getBlackBoxCoverage node = .boundary ↔
        ¬ graph.Contained node ∧ graph.OnBoundary node) ∧
      (graph.getBlackBoxCoverage node = .outside ↔
        ¬ graph.Contained node ∧ ¬ graph.OnBoundary node) ∧
      (node.data.getHierarchicalPath = none → graph.getBlackBoxCoverage node = .outside) ∧
      ∀ other : NetlistGraph,
        (∀ bbPath, bbPath ∈ other.blackBoxPaths ↔ bbPath ∈ graph.blackBoxPaths) →
          other.getBlackBoxCoverage node = graph.getBlackBoxCoverage node := by
  have verdict := graph.getBlackBoxCoverage_cases node
  refine ⟨by grind, by grind, by grind, ?_, fun other same => ?_⟩
  · intro pathless
    simp [getBlackBoxCoverage, pathless]
  · have otherVerdict := other.getBlackBoxCoverage_cases node
    rw [contained_congr same, onBoundary_congr same] at otherVerdict
    grind

end NetlistGraph

end SlangNetlist
