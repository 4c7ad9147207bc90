import SlangNetlist.Graph.EdgeFacts

/-!
# Annotations that share an edge

Annotations with one symbol that touch the range of the first edge are merged
into it, and the last one gives the semantics.  Where those that come together
have one semantics the order of the annotations does not matter; where two
semantics come together, the one that comes first is lost.
-/

namespace SlangNetlist

namespace NetlistGraph

open NetlistEdge

/--
What comes together on a range has one semantics: that of what has been merged
into it so far, if there is any.
-/
def Together : DriverBitRange → Option EdgeSemantics → List Annotation → Prop
  | _, _, [] => True
  | range, merged, made :: rest =>
      if range.isContiguousWith made.bounds then
        (merged = none ∨ merged = some made.semantics) ∧
          Together (range.unionWith made.bounds) (some made.semantics) rest
      else Together range merged rest

/--
The annotations that come together on the first edge have one semantics.  They
come together on its range if it has their symbol, and on the range of the first
annotation if it has another one or does not exist.
-/
def Unmixed (first : Option NetlistEdge) : List Annotation → Prop
  | [] => True
  | made :: rest =>
      if first.bind NetlistEdge.symbol = some made.symbol then
        Together ((first.map NetlistEdge.bounds).getD {}) none (made :: rest)
      else Together made.bounds (some made.semantics) rest

instance decidableTogether (range : DriverBitRange) (merged : Option EdgeSemantics) :
    (annotations : List Annotation) → Decidable (Together range merged annotations)
  | [] => inferInstanceAs (Decidable True)
  | made :: rest =>
      have := decidableTogether (range.unionWith made.bounds) (some made.semantics) rest
      have := decidableTogether range merged rest
      inferInstanceAs (Decidable (if range.isContiguousWith made.bounds then
        (merged = none ∨ merged = some made.semantics) ∧
          Together (range.unionWith made.bounds) (some made.semantics) rest
        else Together range merged rest))

instance (first : Option NetlistEdge) :
    (annotations : List Annotation) → Decidable (Unmixed first annotations)
  | [] => inferInstanceAs (Decidable True)
  | made :: rest => inferInstanceAs (Decidable (if first.bind NetlistEdge.symbol =
        some made.symbol then Together ((first.map NetlistEdge.bounds).getD {}) none (made :: rest)
      else Together made.bounds (some made.semantics) rest))

variable {source target : NodeRef} {symbol : String} {semantics : EdgeSemantics}
  {annotations others : List Annotation} {edges rest : List NetlistEdge} {first : NetlistEdge}
  {range : DriverBitRange} {made : Annotation} {bit : Int}

/-! ## One annotation -/

/-- The first edge with another symbol is overwritten. -/
theorem annotate_other (other : first.symbol ≠ some made.symbol) :
    annotate source target (first :: rest) made =
      { first with symbol := some made.symbol, bounds := made.bounds,
                   semantics := made.semantics } :: rest := by
  cases set : first.setVariable made.symbol made.bounds with
  | none => exact absurd (setVariable_none set).1 other
  | some changed =>
      rcases setVariable_some set with ⟨same, _⟩ | ⟨_, rfl⟩
      · exact absurd same other
      · simp [annotate, emitBetween, set, setSemantics]

/-- The first edge with the symbol takes a range that touches its own. -/
theorem annotate_near (same : first.symbol = some made.symbol)
    (near : first.bounds.isContiguousWith made.bounds = true) :
    annotate source target (first :: rest) made =
      { first with bounds := first.bounds.unionWith made.bounds,
                   semantics := made.semantics } :: rest := by
  cases set : first.setVariable made.symbol made.bounds with
  | none => exact absurd near (setVariable_none set).2
  | some changed =>
      rcases setVariable_some set with ⟨_, _, rfl⟩ | ⟨other, _⟩
      · simp [annotate, emitBetween, set, setSemantics]
      · exact absurd same other

/-- A range apart from that of the first edge makes an edge of its own. -/
theorem annotate_apart (same : first.symbol = some made.symbol)
    (apart : ¬ first.bounds.isContiguousWith made.bounds = true) :
    annotate source target (first :: rest) made =
      first :: (rest ++ [made.edge source target]) := by
  cases set : first.setVariable made.symbol made.bounds with
  | none => simp [annotate, emitBetween, set, Annotation.edge]
  | some changed =>
      rcases setVariable_some set with ⟨_, near, _⟩ | ⟨other, _⟩
      · exact absurd near apart
      · exact absurd same other

/-- A range that touches a part touches the whole. -/
theorem contiguous_union {own added made : DriverBitRange}
    (near : own.isContiguousWith made = true) :
    (own.unionWith added).isContiguousWith made = true := by
  have := own.lower_le_upper
  have := added.lower_le_upper
  have ascending : min own.lower added.lower ≤ max own.upper added.upper := by omega
  rw [DriverBitRange.isContiguousWith_iff] at *
  simp only [DriverBitRange.unionWith, DriverBitRange.lower_mk ascending,
    DriverBitRange.upper_mk ascending]
  omega

/-! ## One semantics on the first edge -/

/-- What touches a range with a semantics has that semantics. -/
theorem Together.semantics_eq (together : Together range (some semantics) annotations)
    (member : made ∈ annotations) (near : range.isContiguousWith made.bounds = true) :
    made.semantics = semantics := by
  induction annotations generalizing range with
  | nil => cases member
  | cons head tail ih =>
      rw [Together] at together
      split at together
      · obtain ⟨same, together⟩ := together
        have headSame : head.semantics = semantics := by simpa [eq_comm] using same
        rcases List.mem_cons.mp member with rfl | member
        · exact headSame
        · exact ih (headSame ▸ together) member (contiguous_union near)
      · next apart =>
          rcases List.mem_cons.mp member with rfl | member
          · exact absurd near apart
          · exact ih together member near

/-- All that touches the range has one semantics. -/
theorem Together.semantics_unique (together : Together range none annotations)
    {other : Annotation} (member : made ∈ annotations) (otherMem : other ∈ annotations)
    (near : range.isContiguousWith made.bounds = true)
    (otherNear : range.isContiguousWith other.bounds = true) :
    made.semantics = other.semantics := by
  induction annotations with
  | nil => cases member
  | cons head tail ih =>
      rw [Together] at together
      split at together
      · next touches =>
          have all : ∀ made ∈ head :: tail, range.isContiguousWith made.bounds = true →
              made.semantics = head.semantics := by
            intro made member near
            rcases List.mem_cons.mp member with rfl | member
            · rfl
            · exact together.2.semantics_eq member (contiguous_union near)
          exact (all made member near).trans (all other otherMem otherNear).symm
      · next apart =>
          rcases List.mem_cons.mp member with rfl | member
          · exact absurd near apart
          · rcases List.mem_cons.mp otherMem with rfl | otherMem
            · exact absurd otherNear apart
            · exact ih together member otherMem

/-- The semantics that the annotations leave on the first edge. -/
def finalSemantics (first : NetlistEdge) (annotations : List Annotation) : EdgeSemantics :=
  ((annotations.find? fun made => first.bounds.isContiguousWith made.bounds).map
    Annotation.semantics).getD first.semantics

theorem finalSemantics_of_together
    (together : Together first.bounds (some first.semantics) annotations) :
    finalSemantics first annotations = first.semantics := by
  unfold finalSemantics
  cases found : annotations.find? fun made => first.bounds.isContiguousWith made.bounds with
  | none => rfl
  | some made =>
      exact together.semantics_eq (List.mem_of_find?_eq_some found)
        (by simpa using List.find?_some found)

/-- Nothing is lost where what comes together on the first edge has one semantics. -/
theorem stated_together {merged : Option EdgeSemantics} (same : first.symbol = some symbol)
    (alike : ∀ made ∈ annotations, made.symbol = symbol)
    (known : ∀ semantics, merged = some semantics → first.semantics = semantics)
    (together : Together first.bounds merged annotations) (other : String) (kind : EdgeSemantics) :
    Stated (annotations.foldl (annotate source target) (first :: rest)) other bit kind ↔
      Stated rest other bit kind ∨
        (∃ made ∈ annotations, other = symbol ∧ bit ∈ made.bounds ∧ kind = made.semantics) ∨
          (other = symbol ∧ bit ∈ first.bounds ∧ kind = finalSemantics first annotations) := by
  induction annotations generalizing first rest merged with
  | nil =>
      simp only [List.foldl_nil, stated_cons, States, NetlistEdge.Carries, same,
        Option.some.injEq, finalSemantics, List.find?_nil, Option.map_none, Option.getD_none]
      grind
  | cons made tail ih =>
      obtain ⟨rfl, tailAlike⟩ := List.forall_mem_cons.mp alike
      rw [Together] at together
      rw [List.foldl_cons]
      split at together
      · next near =>
          obtain ⟨_, together⟩ := together
          have final : finalSemantics first (made :: tail) = made.semantics := by
            simp [finalSemantics, near]
          let merged : NetlistEdge :=
            { first with bounds := first.bounds.unionWith made.bounds,
                         semantics := made.semantics }
          have grown : Together merged.bounds (some merged.semantics) tail := together
          have kept : finalSemantics merged tail = made.semantics :=
            finalSemantics_of_together grown
          have mergedSame : merged.symbol = some made.symbol := same
          rw [annotate_near same near]
          refine (ih mergedSame tailAlike (by simp) grown).trans ?_
          rw [kept, final]
          simp only [List.exists_mem_cons_iff, merged, DriverBitRange.mem_unionWith near]
          grind
      · next apart =>
          have final : finalSemantics first (made :: tail) = finalSemantics first tail := by
            simp [finalSemantics, apart]
          rw [annotate_apart same apart, ih same tailAlike known together, final, stated_append,
            stated_cons]
          simp only [stated_nil, or_false, States, NetlistEdge.Carries, Annotation.edge,
            List.exists_mem_cons_iff, Option.some.injEq]
          grind

/-- Where one semantics comes together the order does not change what is left. -/
theorem finalSemantics_perm (together : Together first.bounds none annotations)
    (perm : annotations.Perm others) :
    finalSemantics first annotations = finalSemantics first others := by
  unfold finalSemantics
  cases found : annotations.find? fun made => first.bounds.isContiguousWith made.bounds with
  | none =>
      have none : others.find? (fun made => first.bounds.isContiguousWith made.bounds) = none :=
        List.find?_eq_none.mpr fun made member =>
          List.find?_eq_none.mp found made (perm.mem_iff.mpr member)
      rw [none]
  | some made =>
      have near : first.bounds.isContiguousWith made.bounds = true := by
        simpa using List.find?_some found
      have member := List.mem_of_find?_eq_some found
      cases otherFound : others.find? fun made => first.bounds.isContiguousWith made.bounds with
      | none =>
          exact absurd near (by
            simpa using List.find?_eq_none.mp otherFound made (perm.mem_iff.mp member))
      | some other =>
          exact together.semantics_unique member
            (perm.mem_iff.mpr (List.mem_of_find?_eq_some otherFound)) near
            (by simpa using List.find?_some otherFound)

/-- The facts after annotations with one symbol that do not mix. -/
theorem stated_unmixed (nonempty : annotations ≠ [])
    (alike : ∀ made ∈ annotations, made.symbol = symbol)
    (unmixed : Unmixed edges.head? annotations) (other : String) (kind : EdgeSemantics) :
    Stated (annotations.foldl (annotate source target) edges) other bit kind ↔
      Stated edges.tail other bit kind ∨
        (∃ made ∈ annotations, other = symbol ∧ bit ∈ made.bounds ∧ kind = made.semantics) ∨
          ∃ first, edges.head? = some first ∧ first.symbol = some symbol ∧ other = symbol ∧
            bit ∈ first.bounds ∧ kind = finalSemantics first annotations := by
  cases annotations with
  | nil => exact absurd rfl nonempty
  | cons made tail =>
      obtain ⟨rfl, tailAlike⟩ := List.forall_mem_cons.mp alike
      -- A new first edge has the range and the semantics of the first annotation.
      have fresh (first : NetlistEdge) (rest : List NetlistEdge)
          (symbolEq : first.symbol = some made.symbol) (boundsEq : first.bounds = made.bounds)
          (semanticsEq : first.semantics = made.semantics)
          (together : Together made.bounds (some made.semantics) tail) :
          Stated (tail.foldl (annotate source target) (first :: rest)) other bit kind ↔
            Stated rest other bit kind ∨ ∃ note ∈ made :: tail, other = made.symbol ∧
              bit ∈ note.bounds ∧ kind = note.semantics := by
        rw [← boundsEq, ← semanticsEq] at together
        rw [stated_together symbolEq tailAlike (by simp) together, boundsEq,
          finalSemantics_of_together together, semanticsEq, List.exists_mem_cons_iff]
        exact or_congr_right or_comm
      cases edges with
      | nil =>
          have together : Together made.bounds (some made.semantics) tail := unmixed
          have annotated : annotate source target [] made = [made.edge source target] := rfl
          rw [List.foldl_cons, annotated, fresh _ _ rfl rfl rfl together]
          simp
      | cons first rest =>
          by_cases same : first.symbol = some made.symbol
          · have together : Together first.bounds none (made :: tail) := by
              simpa [Unmixed, same] using unmixed
            rw [stated_together same alike (by simp) together]
            simp [same]
          · have together : Together made.bounds (some made.semantics) tail := by
              simpa [Unmixed, same] using unmixed
            rw [List.foldl_cons, annotate_other same, fresh _ _ rfl rfl rfl together]
            simp [same]

/-- Annotations with one symbol state the same facts in two orders that do not mix them. -/
theorem stated_unmixed_perm (alike : ∀ made ∈ annotations, made.symbol = symbol)
    (perm : annotations.Perm others) (unmixed : Unmixed edges.head? annotations)
    (othersUnmixed : Unmixed edges.head? others) (other : String) (kind : EdgeSemantics) :
    Stated (annotations.foldl (annotate source target) edges) other bit kind ↔
      Stated (others.foldl (annotate source target) edges) other bit kind := by
  by_cases empty : annotations = []
  · subst empty
    rw [List.perm_nil.mp perm.symm]
  · have othersEmpty : others ≠ [] := fun none => empty (List.perm_nil.mp (none ▸ perm))
    have othersAlike : ∀ made ∈ others, made.symbol = symbol := fun made member =>
      alike made (perm.mem_iff.mpr member)
    rw [stated_unmixed empty alike unmixed, stated_unmixed othersEmpty othersAlike othersUnmixed]
    refine or_congr_right (or_congr (by simp only [perm.mem_iff]) (exists_congr fun first => ?_))
    refine and_congr_right fun head => and_congr_right fun same => ?_
    have final : finalSemantics first annotations = finalSemantics first others := by
      cases annotations with
      | nil => exact absurd rfl empty
      | cons made tail =>
          have symbolEq : first.symbol = some made.symbol := by
            rw [same, alike made List.mem_cons_self]
          refine finalSemantics_perm ?_ perm
          simpa [Unmixed, head, symbolEq] using unmixed
    rw [final]

/-! ## Annotations of one kind -/

theorem together_uniform {merged : Option EdgeSemantics}
    (known : merged = none ∨ merged = some semantics)
    (uniform : ∀ made ∈ annotations, made.semantics = semantics) :
    Together range merged annotations := by
  induction annotations generalizing range merged with
  | nil => trivial
  | cons made tail ih =>
      obtain ⟨rfl, tailUniform⟩ := List.forall_mem_cons.mp uniform
      rw [Together]
      split
      · exact ⟨known, ih (Or.inr rfl) tailUniform⟩
      · exact ih known tailUniform

theorem unmixed_uniform (first : Option NetlistEdge)
    (uniform : ∀ made ∈ annotations, made.semantics = semantics) : Unmixed first annotations := by
  cases annotations with
  | nil => trivial
  | cons made tail =>
      obtain ⟨rfl, tailUniform⟩ := List.forall_mem_cons.mp uniform
      rw [Unmixed]
      split
      · exact together_uniform (Or.inl rfl) uniform
      · exact together_uniform (Or.inr rfl) tailUniform

/-- Annotations of one kind that are made last are stated. -/
theorem stated_last (uniform : ∀ made ∈ annotations,
      made.symbol = symbol ∧ made.semantics = semantics) (edges : List NetlistEdge)
    (covered : ∃ made ∈ annotations, bit ∈ made.bounds) :
    Stated (annotations.foldl (annotate source target) edges) symbol bit semantics := by
  obtain ⟨made, member, inside⟩ := covered
  have unmixed := unmixed_uniform edges.head? fun made member => (uniform made member).2
  exact (stated_unmixed (List.ne_nil_of_mem member) (fun made member => (uniform made member).1)
    unmixed symbol semantics).mpr
      (Or.inr (Or.inl ⟨made, member, rfl, inside, (uniform made member).2.symm⟩))

end NetlistGraph

end SlangNetlist
