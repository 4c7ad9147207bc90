import SlangNetlist.Graph.NetlistNode

/-!
# Netlist edges

A dependency between two nodes with its annotations.  The pointer to an
interned `SymbolReference` is modelled by its hierarchical path: the symbol
table holds one record for each path, so two pointers agree exactly if their
paths do.
-/

namespace SlangNetlist

inductive EdgeKind where
  | none
  | posEdge
  | negEdge
  | bothEdges
  deriving DecidableEq, Repr

inductive DependencyRole where
  | data
  | control
  | index
  | address
  | event
  | clock
  | reset
  | portConnection
  | unknown
  deriving DecidableEq, Repr

inductive DependencyPrecision where
  | exact
  | range
  | signal
  | unknown
  deriving DecidableEq, Repr

/-- The annotations that `setEdgeKind` and `setSemantics` write. -/
structure EdgeSemantics where
  edgeKind : EdgeKind := .none
  role : DependencyRole := .data
  precision : DependencyPrecision := .range
  deriving DecidableEq, Repr

structure NetlistEdge where
  source : NodeRef
  target : NodeRef
  semantics : EdgeSemantics := {}
  /-- The hierarchical path of the symbol, `none` for the null pointer. -/
  symbol : Option String := none
  bounds : DriverBitRange := {}
  disabled : Bool := false
  deriving DecidableEq, Repr

namespace NetlistEdge

/-- `setEdgeKind` and `setSemantics`. -/
def setSemantics (edge : NetlistEdge) (semantics : EdgeSemantics) : NetlistEdge :=
  { edge with semantics := semantics }

/--
Associate a symbol and a range.  `none` is the result `false`: the edge carries
a range of the same symbol that is not contiguous with the new one.
-/
def setVariable (edge : NetlistEdge) (symbol : String) (newBounds : DriverBitRange) :
    Option NetlistEdge :=
  if edge.symbol = some symbol then
    if edge.bounds.isContiguousWith newBounds then
      some { edge with bounds := edge.bounds.unionWith newBounds }
    else none
  else some { edge with symbol := some symbol, bounds := newBounds }

/-- The edge leads from the source to the target. -/
def joins (source target : NodeRef) (edge : NetlistEdge) : Bool :=
  edge.source = source ∧ edge.target = target

/-- The edge carries the symbol on a range with the bit. -/
def Carries (edge : NetlistEdge) (symbol : String) (bit : Int) : Prop :=
  edge.symbol = some symbol ∧ bit ∈ edge.bounds

instance (edge : NetlistEdge) (symbol : String) (bit : Int) :
    Decidable (edge.Carries symbol bit) :=
  inferInstanceAs (Decidable (_ ∧ _))

section Lemmas

variable {edge changed : NetlistEdge} {symbol : String} {newBounds : DriverBitRange}

@[simp] theorem carries_setSemantics {semantics : EdgeSemantics} {bit : Int} :
    (edge.setSemantics semantics).Carries symbol bit ↔ edge.Carries symbol bit :=
  Iff.rfl

/-- The two ways in which `setVariable` succeeds. -/
theorem setVariable_some (set : edge.setVariable symbol newBounds = some changed) :
    (edge.symbol = some symbol ∧ edge.bounds.isContiguousWith newBounds = true ∧
      changed = { edge with bounds := edge.bounds.unionWith newBounds }) ∨
    (edge.symbol ≠ some symbol ∧
      changed = { edge with symbol := some symbol, bounds := newBounds }) := by
  unfold setVariable at set
  split at set
  · next same =>
      split at set
      · next contiguous =>
          cases set
          exact Or.inl ⟨same, contiguous, rfl⟩
      · cases set
  · next other =>
      cases set
      exact Or.inr ⟨other, rfl⟩

/-- The one way in which `setVariable` fails. -/
theorem setVariable_none (set : edge.setVariable symbol newBounds = none) :
    edge.symbol = some symbol ∧ ¬ edge.bounds.isContiguousWith newBounds = true := by
  unfold setVariable at set
  split at set
  · next same =>
      split at set
      · cases set
      · next apart => exact ⟨same, apart⟩
  · cases set

/-- A changed edge has its ends and its `disabled` flag. -/
theorem setVariable_eq (set : edge.setVariable symbol newBounds = some changed) :
    changed.source = edge.source ∧ changed.target = edge.target ∧
      changed.disabled = edge.disabled ∧ changed.symbol = some symbol := by
  rcases setVariable_some set with ⟨same, _, rfl⟩ | ⟨_, rfl⟩
  · exact ⟨rfl, rfl, rfl, same⟩
  · exact ⟨rfl, rfl, rfl, rfl⟩

/-- A changed edge carries its symbol on the old range of that symbol and on the new range. -/
theorem carries_setVariable (set : edge.setVariable symbol newBounds = some changed)
    {bit : Int} :
    changed.Carries symbol bit ↔ edge.Carries symbol bit ∨ bit ∈ newBounds := by
  rcases setVariable_some set with ⟨same, contiguous, rfl⟩ | ⟨other, rfl⟩
  · simp [Carries, same, DriverBitRange.mem_unionWith contiguous]
  · simp [Carries, other]

/-- On a fresh edge `setVariable` succeeds. -/
theorem setVariable_fresh (source target : NodeRef) (symbol : String)
    (newBounds : DriverBitRange) :
    ({ source := source, target := target } : NetlistEdge).setVariable symbol newBounds =
      some { source := source, target := target, symbol := some symbol, bounds := newBounds } :=
  rfl

end Lemmas

end NetlistEdge

end SlangNetlist
