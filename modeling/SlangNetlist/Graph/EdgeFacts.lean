import SlangNetlist.Graph.NetlistGraph

/-!
# What the edges between two nodes say

The facts that a graph states, and the annotations that a list of dependencies
makes on the edges between two nodes.
-/

namespace SlangNetlist

/-- A source depends on a bit of a symbol at a target, with the annotations of the edge. -/
structure EdgeFact where
  source : NodeRef
  target : NodeRef
  symbol : String
  bit : Int
  semantics : EdgeSemantics
  deriving DecidableEq, Repr

/-- An annotation of the edges between two nodes. -/
structure Annotation where
  symbol : String
  bounds : DriverBitRange
  semantics : EdgeSemantics
  deriving DecidableEq, Repr

/-- The edge with one annotation. -/
def Annotation.edge (made : Annotation) (source target : NodeRef) : NetlistEdge where
  source := source
  target := target
  symbol := some made.symbol
  bounds := made.bounds
  semantics := made.semantics

namespace NetlistEdge

/-- The edge carries the symbol on a range with the bit, with the semantics. -/
def States (edge : NetlistEdge) (symbol : String) (bit : Int) (semantics : EdgeSemantics) :
    Prop :=
  edge.Carries symbol bit ∧ edge.semantics = semantics

instance (edge : NetlistEdge) (symbol : String) (bit : Int) (semantics : EdgeSemantics) :
    Decidable (edge.States symbol bit semantics) :=
  inferInstanceAs (Decidable (_ ∧ _))

/-- Some edge of a list states a fact. -/
def Stated (edges : List NetlistEdge) (symbol : String) (bit : Int)
    (semantics : EdgeSemantics) : Prop :=
  ∃ edge ∈ edges, edge.States symbol bit semantics

instance (edges : List NetlistEdge) (symbol : String) (bit : Int) (semantics : EdgeSemantics) :
    Decidable (Stated edges symbol bit semantics) :=
  inferInstanceAs (Decidable (∃ edge ∈ _, _))

end NetlistEdge

namespace NetlistGraph

/-- The facts that the edges of a graph state. -/
def facts (graph : NetlistGraph) : Set EdgeFact :=
  { fact | NetlistEdge.Stated (graph.edgesBetween fact.source fact.target) fact.symbol fact.bit
      fact.semantics }

/-- Make one annotation. -/
def annotate (source target : NodeRef) (edges : List NetlistEdge) (note : Annotation) :
    List NetlistEdge :=
  emitBetween source target note.symbol note.bounds note.semantics edges

/-- The annotation that a dependency makes. -/
def annotationOf (graph : NetlistGraph) (dependency : Dependency) : Annotation where
  symbol := dependency.symbol
  bounds := clip (graph.getBounds dependency.source) dependency.bounds
  semantics := eventSemantics dependency.semantics

/-- The annotations that a list of dependencies makes between two nodes. -/
def annotationsBetween (graph : NetlistGraph) (source target : NodeRef)
    (dependencies : List Dependency) : List Annotation :=
  (dependencies.filter fun dependency =>
    dependency.source = source ∧ dependency.target = target).map graph.annotationOf

theorem mem_annotationsBetween {graph : NetlistGraph} {source target : NodeRef}
    {dependencies : List Dependency} {made : Annotation} :
    made ∈ graph.annotationsBetween source target dependencies ↔
      ∃ dependency ∈ dependencies, dependency.source = source ∧ dependency.target = target ∧
        graph.annotationOf dependency = made := by
  simp [annotationsBetween, and_assoc]

/-- Dependencies annotate the edges between two nodes one after another. -/
theorem edgesBetween_addDependencies (graph : NetlistGraph) (dependencies : List Dependency)
    (source target : NodeRef) :
    (dependencies.foldl addDependency graph).edgesBetween source target =
      (graph.annotationsBetween source target dependencies).foldl (annotate source target)
        (graph.edgesBetween source target) := by
  induction dependencies generalizing graph with
  | nil => rfl
  | cons head rest ih =>
      have annotations : (graph.addDependency head).annotationsBetween source target rest =
          graph.annotationsBetween source target rest := by
        simp [annotationsBetween, annotationOf]
      rw [List.foldl_cons, ih, annotations, edgesBetween_addDependency]
      by_cases ends : source = head.source ∧ target = head.target
      · obtain ⟨rfl, rfl⟩ := ends
        simp [annotationsBetween, annotate, annotationOf]
      · have differ : ¬ (head.source = source ∧ head.target = target) :=
          fun same => ends ⟨same.1.symm, same.2.symm⟩
        simp [annotationsBetween, ends, differ]

/-! ## Stated facts -/

section Stated

open NetlistEdge

variable {symbol : String} {semantics : EdgeSemantics} {bit : Int}

@[simp] theorem stated_nil (symbol : String) (bit : Int) (semantics : EdgeSemantics) :
    ¬ Stated [] symbol bit semantics := by
  simp [Stated]

@[simp] theorem stated_cons {first : NetlistEdge} {rest : List NetlistEdge} :
    Stated (first :: rest) symbol bit semantics ↔
      first.States symbol bit semantics ∨ Stated rest symbol bit semantics := by
  simp [Stated]

@[simp] theorem stated_append {first second : List NetlistEdge} :
    Stated (first ++ second) symbol bit semantics ↔
      Stated first symbol bit semantics ∨ Stated second symbol bit semantics := by
  simp [Stated, or_and_right, exists_or]

end Stated

end NetlistGraph

end SlangNetlist
