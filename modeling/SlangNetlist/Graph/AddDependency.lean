import SlangNetlist.Graph.EdgeFacts
import SlangNetlist.Library.GuardedRun

/-!
# Sequences of annotated dependencies

What a sequence of calls of `addDependency` on one pair of nodes leaves of its
annotations.  A call changes no edge but the first one: it widens the range
there, or it replaces the symbol, the kind and the role.
-/

namespace SlangNetlist

open Library

namespace NetlistGraph

/-- An edge that carries the symbol on a range with the bit has the kind and the role. -/
def Noted (edges : List NetlistEdge) (symbol : String) (bit : Int) (kind : EdgeKind)
    (role : DependencyRole) : Prop :=
  ∃ edge ∈ edges, edge.Carries symbol bit ∧ edge.semantics.edgeKind = kind ∧
    edge.semantics.role = role

instance (edges : List NetlistEdge) (symbol : String) (bit : Int) (kind : EdgeKind)
    (role : DependencyRole) : Decidable (Noted edges symbol bit kind role) :=
  inferInstanceAs (Decidable (∃ edge ∈ _, _))

/-- The edge has the kind and the role of the annotation. -/
def Agrees (edge : NetlistEdge) (note : Annotation) : Prop :=
  edge.semantics.edgeKind = note.semantics.edgeKind ∧ edge.semantics.role = note.semantics.role

instance (edge : NetlistEdge) (note : Annotation) : Decidable (Agrees edge note) :=
  inferInstanceAs (Decidable (_ ∧ _))

/--
The annotation overwrites nothing: the first edge has its symbol, and its kind
and role unless a parallel edge is opened; or the other edges say what the
first one said.
-/
def Spares (edges : List NetlistEdge) (note : Annotation) : Prop :=
  match edges with
  | [] => True
  | first :: rest =>
      (first.symbol = some note.symbol ∧
        (first.bounds.isContiguousWith note.bounds = true → Agrees first note)) ∨
      ∀ symbol bit, first.Carries symbol bit →
        Noted rest symbol bit first.semantics.edgeKind first.semantics.role

/-- What a sequence of calls on a pair of nodes requires of the edges between them. -/
structure AnnotationsKept (own : Option DriverBitRange) (calls : List Dependency)
    (edges : List NetlistEdge) : Prop where
  kept : ∀ call ∈ calls, ∀ bit ∈ clip own call.bounds,
    Noted edges call.symbol bit call.semantics.edgeKind (eventSemantics call.semantics).role
  requested : ∀ edge ∈ edges, ∀ symbol bit, edge.Carries symbol bit →
    ∃ call ∈ calls, call.symbol = symbol ∧ bit ∈ call.bounds

section Annotate

variable {source target : NodeRef} {edges : List NetlistEdge} {note : Annotation}

/-- The four outcomes of an annotation. -/
theorem annotate_cases (source target : NodeRef) (edges : List NetlistEdge) (note : Annotation) :
    (edges = [] ∧ annotate source target edges note = [note.edge source target]) ∨
    ∃ first rest, edges = first :: rest ∧
      ((first.symbol = some note.symbol ∧ first.bounds.isContiguousWith note.bounds = true ∧
        annotate source target edges note =
          { first with
            bounds := first.bounds.unionWith note.bounds
            semantics := note.semantics } :: rest) ∨
      (first.symbol = some note.symbol ∧ ¬ first.bounds.isContiguousWith note.bounds = true ∧
        annotate source target edges note = first :: rest ++ [note.edge source target]) ∨
      (first.symbol ≠ some note.symbol ∧
        annotate source target edges note =
          { first with
            symbol := some note.symbol
            bounds := note.bounds
            semantics := note.semantics } :: rest)) := by
  cases edges with
  | nil => exact Or.inl ⟨rfl, rfl⟩
  | cons first rest =>
      refine Or.inr ⟨first, rest, rfl, ?_⟩
      cases set : first.setVariable note.symbol note.bounds with
      | none =>
          obtain ⟨same, apart⟩ := NetlistEdge.setVariable_none set
          exact Or.inr (Or.inl ⟨same, apart, by simp [annotate, emitBetween, set, Annotation.edge]⟩)
      | some changed =>
          have annotated : annotate source target (first :: rest) note =
              changed.setSemantics note.semantics :: rest := by
            simp [annotate, emitBetween, set]
          rcases NetlistEdge.setVariable_some set with ⟨same, contiguous, rfl⟩ | ⟨differ, rfl⟩
          · exact Or.inl ⟨same, contiguous, annotated⟩
          · exact Or.inr (Or.inr ⟨differ, annotated⟩)

/-- An annotation is noted. -/
theorem noted_annotate (source target : NodeRef) (edges : List NetlistEdge) {bit : Int}
    (inside : bit ∈ note.bounds) :
    Noted (annotate source target edges note) note.symbol bit note.semantics.edgeKind
      note.semantics.role := by
  rcases annotate_cases source target edges note with ⟨_, after⟩ | ⟨first, rest, _,
    ⟨same, contiguous, after⟩ | ⟨_, _, after⟩ | ⟨_, after⟩⟩
  · exact ⟨_, after ▸ List.mem_singleton_self _, ⟨rfl, inside⟩, rfl, rfl⟩
  · rw [after]
    exact ⟨_, List.mem_cons_self,
      ⟨same, (DriverBitRange.mem_unionWith contiguous).mpr (Or.inr inside)⟩, rfl, rfl⟩
  · exact ⟨_, after ▸ List.mem_append_right _ (List.mem_singleton_self _), ⟨rfl, inside⟩, rfl, rfl⟩
  · exact ⟨_, after ▸ List.mem_cons_self, ⟨rfl, inside⟩, rfl, rfl⟩

/-- What an annotation that spares the edges keeps, and no other annotation does. -/
theorem spares_iff (source target : NodeRef) (edges : List NetlistEdge) (note : Annotation) :
    Spares edges note ↔ ∀ symbol bit kind role, Noted edges symbol bit kind role →
      Noted (annotate source target edges note) symbol bit kind role := by
  rcases annotate_cases source target edges note with ⟨rfl, after⟩ | ⟨first, rest, rfl,
    ⟨same, contiguous, after⟩ | ⟨same, apart, after⟩ | ⟨differ, after⟩⟩
  · simp [Spares, Noted]
  · constructor
    · rintro spared symbol bit kind role ⟨edge, member, carries, rfl, rfl⟩
      rw [after]
      rcases List.mem_cons.mp member with rfl | other
      · rcases spared with ⟨_, agrees⟩ | elsewhere
        · obtain ⟨sameKind, sameRole⟩ := agrees contiguous
          exact ⟨_, List.mem_cons_self, ⟨carries.1,
            (DriverBitRange.mem_unionWith contiguous).mpr (Or.inl carries.2)⟩,
            sameKind.symm, sameRole.symm⟩
        · obtain ⟨other, otherMem, notes⟩ := elsewhere symbol bit carries
          exact ⟨other, List.mem_cons_of_mem _ otherMem, notes⟩
      · exact ⟨edge, List.mem_cons_of_mem _ other, carries, rfl, rfl⟩
    · intro keeps
      by_cases agrees : Agrees first note
      · exact Or.inl ⟨same, fun _ => agrees⟩
      · refine Or.inr fun symbol bit carries => ?_
        have noted := keeps symbol bit _ _ ⟨first, List.mem_cons_self, carries, rfl, rfl⟩
        rw [after] at noted
        obtain ⟨edge, member, notes⟩ := noted
        rcases List.mem_cons.mp member with rfl | other
        · exact absurd ⟨notes.2.1.symm, notes.2.2.symm⟩ agrees
        · exact ⟨edge, other, notes⟩
  · refine ⟨fun _ symbol bit kind role noted => ?_, fun _ =>
      Or.inl ⟨same, fun contiguous => absurd contiguous apart⟩⟩
    obtain ⟨edge, member, notes⟩ := noted
    exact ⟨edge, after ▸ List.mem_append_left _ member, notes⟩
  · constructor
    · rintro (⟨same, _⟩ | elsewhere) symbol bit kind role ⟨edge, member, carries, rfl, rfl⟩
      · exact absurd same differ
      · rw [after]
        rcases List.mem_cons.mp member with rfl | other
        · obtain ⟨other, otherMem, notes⟩ := elsewhere symbol bit carries
          exact ⟨other, List.mem_cons_of_mem _ otherMem, notes⟩
        · exact ⟨edge, List.mem_cons_of_mem _ other, carries, rfl, rfl⟩
    · intro keeps
      refine Or.inr fun symbol bit carries => ?_
      have noted := keeps symbol bit _ _ ⟨first, List.mem_cons_self, carries, rfl, rfl⟩
      rw [after] at noted
      obtain ⟨edge, member, notes⟩ := noted
      rcases List.mem_cons.mp member with rfl | other
      · exact absurd (carries.1.trans notes.1.1.symm) differ
      · exact ⟨edge, other, notes⟩

/-- An edge carries nothing but what was carried before or is annotated. -/
theorem carries_annotate {edge : NetlistEdge} (member : edge ∈ annotate source target edges note)
    {symbol : String} {bit : Int} (carries : edge.Carries symbol bit) :
    (∃ old ∈ edges, old.Carries symbol bit) ∨ (note.symbol = symbol ∧ bit ∈ note.bounds) := by
  rcases annotate_cases source target edges note with ⟨rfl, after⟩ | ⟨first, rest, rfl,
    ⟨same, contiguous, after⟩ | ⟨same, apart, after⟩ | ⟨differ, after⟩⟩
  · rw [after] at member
    obtain rfl := List.mem_singleton.mp member
    exact Or.inr ⟨Option.some.inj carries.1, carries.2⟩
  · rw [after] at member
    rcases List.mem_cons.mp member with rfl | other
    · rcases (DriverBitRange.mem_unionWith contiguous).mp carries.2 with old | new
      · exact Or.inl ⟨first, List.mem_cons_self, carries.1, old⟩
      · exact Or.inr ⟨Option.some.inj (same.symm.trans carries.1), new⟩
    · exact Or.inl ⟨edge, List.mem_cons_of_mem _ other, carries⟩
  · rw [after] at member
    rcases List.mem_append.mp member with old | new
    · exact Or.inl ⟨edge, old, carries⟩
    · obtain rfl := List.mem_singleton.mp new
      exact Or.inr ⟨Option.some.inj carries.1, carries.2⟩
  · rw [after] at member
    rcases List.mem_cons.mp member with rfl | other
    · exact Or.inr ⟨Option.some.inj carries.1, carries.2⟩
    · exact Or.inl ⟨edge, List.mem_cons_of_mem _ other, carries⟩

end Annotate

@[simp] theorem edgeKind_eventSemantics (semantics : EdgeSemantics) :
    (eventSemantics semantics).edgeKind = semantics.edgeKind := by
  unfold eventSemantics
  split <;> rfl

/-- One call of `addDependency` between two nodes that overwrites nothing there. -/
def SparingCall (source target : NodeRef) (graph : NetlistGraph) (call : Dependency) : Prop :=
  call.source = source ∧ call.target = target ∧
    Spares (graph.edgesBetween source target) (graph.annotationOf call)

/-- A sparing call keeps the annotations of the calls before it and adds its own. -/
theorem AnnotationsKept.addDependency {source target : NodeRef} {graph : NetlistGraph}
    {calls : List Dependency}
    (holds : AnnotationsKept (graph.getBounds source) calls (graph.edgesBetween source target))
    {call : Dependency} (sparing : SparingCall source target graph call) :
    AnnotationsKept (graph.getBounds source) (calls ++ [call])
      ((graph.addDependency call).edgesBetween source target) := by
  obtain ⟨rfl, rfl, spares⟩ := sparing
  have after : (graph.addDependency call).edgesBetween call.source call.target =
      annotate call.source call.target (graph.edgesBetween call.source call.target)
        (graph.annotationOf call) := by
    rw [edgesBetween_addDependency, if_pos ⟨rfl, rfl⟩]
    rfl
  rw [after]
  constructor
  · intro other member bit inside
    rcases List.mem_append.mp member with old | new
    · exact (spares_iff _ _ _ _).mp spares _ _ _ _ (holds.kept other old bit inside)
    · obtain rfl := List.mem_singleton.mp new
      have noted := @noted_annotate (graph.annotationOf other) other.source other.target
        (graph.edgesBetween other.source other.target) bit inside
      simpa [annotationOf] using noted
  · intro edge member symbol bit carries
    rcases carries_annotate member carries with ⟨old, oldMem, oldCarries⟩ | ⟨symbolEq, inside⟩
    · obtain ⟨other, otherMem, requested⟩ := holds.requested old oldMem symbol bit oldCarries
      exact ⟨other, List.mem_append_left _ otherMem, requested⟩
    · exact ⟨call, List.mem_append_right _ (List.mem_singleton_self _), symbolEq,
        mem_of_mem_clip inside⟩

/--
In every run of calls between two nodes that overwrite nothing, all annotations
are kept and nothing else is carried; and a call keeps everything that the
edges say if and only if it overwrites nothing.
-/
theorem addDependency_keeps_annotations {graph : NetlistGraph} {source target : NodeRef}
    (fresh : graph.edgesBetween source target = []) :
    (∀ calls final,
      GuardedRun (fun graph call => some (graph.addDependency call))
        (SparingCall source target) graph calls final →
      AnnotationsKept (graph.getBounds source) calls (final.edgesBetween source target)) ∧
    ∀ edges note, Spares edges note ↔ ∀ symbol bit kind role, Noted edges symbol bit kind role →
      Noted (annotate source target edges note) symbol bit kind role := by
  refine ⟨fun calls final run => ?_, spares_iff source target⟩
  have bounds : final.getBounds source = graph.getBounds source ∧
      AnnotationsKept (graph.getBounds source) calls (final.edgesBetween source target) := by
    induction run with
    | nil => exact ⟨rfl, by simp, by simp [fresh]⟩
    | snoc _ sparing stepped ih =>
        cases stepped
        obtain ⟨bounds, holds⟩ := ih
        rw [← bounds] at holds ⊢
        exact ⟨getBounds_addDependency _ _ _, holds.addDependency sparing⟩
  exact bounds.2

/-- Two assignment nodes. -/
def pairNetlist : NetlistGraph where
  nodes := [
    { ref := ⟨0, .assignment, 0⟩, ID := 1, data := .assignment {} },
    { ref := ⟨0, .assignment, 1⟩, ID := 2, data := .assignment {} }]

/-- The second node depends on a bit of a symbol that the first one drives. -/
def pairDependency (symbol : String) (bit : Int) (kind : EdgeKind) : Dependency where
  source := ⟨0, .assignment, 0⟩
  target := ⟨0, .assignment, 1⟩
  symbol := symbol
  bounds := ⟨bit, bit⟩
  semantics := { edgeKind := kind }

/-- Abutting bits of one symbol with the same annotations. -/
theorem addDependency_keeps_annotations_abutting :
    AnnotationsKept (pairNetlist.getBounds ⟨0, .assignment, 0⟩)
      [pairDependency "m.x" 0 .none, pairDependency "m.x" 1 .none]
      (([pairDependency "m.x" 0 .none, pairDependency "m.x" 1 .none].foldl addDependency
        pairNetlist).edgesBetween ⟨0, .assignment, 0⟩ ⟨0, .assignment, 1⟩) := by
  have second : SparingCall ⟨0, .assignment, 0⟩ ⟨0, .assignment, 1⟩
      (pairNetlist.addDependency (pairDependency "m.x" 0 .none))
      (pairDependency "m.x" 1 .none) := ⟨rfl, rfl, Or.inl (by decide)⟩
  exact (addDependency_keeps_annotations (by decide)).1 _ _
    (.snoc (.snoc .nil ⟨rfl, rfl, trivial⟩ rfl) second rfl)

/-- A second symbol replaces the first one, and a second edge of the clock the first one. -/
theorem addDependency_overwrites :
    (¬ AnnotationsKept (pairNetlist.getBounds ⟨0, .assignment, 0⟩)
      [pairDependency "m.x" 0 .none, pairDependency "m.y" 0 .none]
      (([pairDependency "m.x" 0 .none, pairDependency "m.y" 0 .none].foldl addDependency
        pairNetlist).edgesBetween ⟨0, .assignment, 0⟩ ⟨0, .assignment, 1⟩)) ∧
    ¬ AnnotationsKept (pairNetlist.getBounds ⟨0, .assignment, 0⟩)
      [pairDependency "m.x" 0 .posEdge, pairDependency "m.x" 0 .negEdge]
      (([pairDependency "m.x" 0 .posEdge, pairDependency "m.x" 0 .negEdge].foldl addDependency
        pairNetlist).edgesBetween ⟨0, .assignment, 0⟩ ⟨0, .assignment, 1⟩) := by
  refine ⟨fun holds => ?_, fun holds => ?_⟩
  · exact absurd (holds.kept _ List.mem_cons_self 0 (by decide)) (by decide)
  · exact absurd (holds.kept _ List.mem_cons_self 0 (by decide)) (by decide)

end NetlistGraph

end SlangNetlist
