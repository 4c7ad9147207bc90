import SlangNetlist.Graph.SharedEdges

/-!
# Annotations that lose a fact

An annotation overwrites what the first edge says under another symbol, and it
takes over the bits that its range touches there under another semantics.  Some
order of the entries then loses a fact that another order states.
-/

namespace SlangNetlist

namespace NetlistGraph

open NetlistEdge

variable {source target : NodeRef} {symbol : String} {semantics : EdgeSemantics}
  {annotations others : List Annotation} {edges rest : List NetlistEdge} {first : NetlistEdge}
  {range : DriverBitRange} {made : Annotation} {bit : Int}

/-! ## Facts that are lost -/

/-- The first edge has the bit of the symbol, and no further edge states it with the semantics. -/
def Holds (symbol : String) (bit : Int) (semantics : EdgeSemantics) (edges : List NetlistEdge) :
    Prop :=
  ∃ first rest, edges = first :: rest ∧ first.symbol = some symbol ∧ bit ∈ first.bounds ∧
    ¬ Stated rest symbol bit semantics

/-- The range of the annotation touches that of the first edge, which has the symbol. -/
def Near (symbol : String) (made : Annotation) (edges : List NetlistEdge) : Prop :=
  ∃ first rest, edges = first :: rest ∧ first.symbol = some symbol ∧
    first.bounds.isContiguousWith made.bounds = true

theorem Holds.annotate (holds : Holds symbol bit semantics edges) (same : made.symbol = symbol) :
    Holds symbol bit semantics (annotate source target edges made) := by
  obtain ⟨first, rest, rfl, symbolEq, inside, unstated⟩ := holds
  subst same
  by_cases near : first.bounds.isContiguousWith made.bounds = true
  · rw [annotate_near symbolEq near]
    exact ⟨_, rest, rfl, symbolEq, (DriverBitRange.mem_unionWith near).mpr (Or.inl inside),
      unstated⟩
  · rw [annotate_apart symbolEq near]
    refine ⟨first, _, rfl, symbolEq, inside, ?_⟩
    rw [stated_append, not_or]
    refine ⟨unstated, fun stated => ?_⟩
    obtain ⟨edge, member, ⟨_, within⟩, _⟩ := stated
    rw [List.mem_singleton.mp member] at within
    have between : bit ∈ made.bounds := within
    rw [DriverBitRange.isContiguousWith_iff] at near
    rw [DriverBitRange.mem_iff] at inside between
    omega

theorem Near.annotate {note : Annotation} (near : Near symbol note edges)
    (same : made.symbol = symbol) : Near symbol note (annotate source target edges made) := by
  obtain ⟨first, rest, rfl, symbolEq, touches⟩ := near
  subst same
  by_cases meets : first.bounds.isContiguousWith made.bounds = true
  · rw [annotate_near symbolEq meets]
    exact ⟨_, rest, rfl, symbolEq, contiguous_union touches⟩
  · rw [annotate_apart symbolEq meets]
    exact ⟨first, _, rfl, symbolEq, touches⟩

theorem Holds.annotateAll (holds : Holds symbol bit semantics edges)
    (alike : ∀ made ∈ annotations, made.symbol = symbol) :
    Holds symbol bit semantics (annotations.foldl (NetlistGraph.annotate source target) edges) := by
  induction annotations generalizing edges with
  | nil => exact holds
  | cons made tail ih =>
      obtain ⟨same, tailAlike⟩ := List.forall_mem_cons.mp alike
      exact ih (holds.annotate same) tailAlike

theorem Near.annotateAll {note : Annotation} (near : Near symbol note edges)
    (alike : ∀ made ∈ annotations, made.symbol = symbol) :
    Near symbol note (annotations.foldl (NetlistGraph.annotate source target) edges) := by
  induction annotations generalizing edges with
  | nil => exact near
  | cons made tail ih =>
      obtain ⟨same, tailAlike⟩ := List.forall_mem_cons.mp alike
      exact ih (near.annotate same) tailAlike

/-- An annotation with another symbol overwrites the first edge. -/
theorem Holds.overwrite (holds : Holds symbol bit semantics edges) (other : made.symbol ≠ symbol) :
    ¬ Stated (NetlistGraph.annotate source target edges made) symbol bit semantics := by
  obtain ⟨first, rest, rfl, symbolEq, _, unstated⟩ := holds
  have differs : first.symbol ≠ some made.symbol := fun same =>
    other (Option.some.inj (same.symm.trans symbolEq))
  rw [annotate_other differs, stated_cons, not_or]
  refine ⟨?_, unstated⟩
  rintro ⟨⟨same, _⟩, _⟩
  exact other (Option.some.inj same)

/-- Annotations with other symbols do not state a fact again. -/
theorem unstated_annotateAll (unstated : ¬ Stated edges symbol bit semantics)
    (others : ∀ made ∈ annotations, made.symbol ≠ symbol) :
    ¬ Stated (annotations.foldl (annotate source target) edges) symbol bit semantics := by
  induction annotations generalizing edges with
  | nil => exact unstated
  | cons made tail ih =>
      obtain ⟨other, tailOthers⟩ := List.forall_mem_cons.mp others
      refine ih ?_ tailOthers
      have own (edge : NetlistEdge) (symbolEq : edge.symbol = some made.symbol) :
          ¬ edge.States symbol bit semantics := by
        rintro ⟨⟨same, _⟩, _⟩
        exact other (Option.some.inj (symbolEq.symm.trans same))
      cases edges with
      | nil =>
          rw [show annotate source target [] made = [made.edge source target] from rfl,
            stated_cons, not_or]
          exact ⟨own _ rfl, stated_nil _ _ _⟩
      | cons first rest =>
          rw [stated_cons, not_or] at unstated
          by_cases same : first.symbol = some made.symbol
          · by_cases near : first.bounds.isContiguousWith made.bounds = true
            · rw [annotate_near same near, stated_cons, not_or]
              exact ⟨own _ same, unstated.2⟩
            · rw [annotate_apart same near, stated_cons, stated_append, stated_cons]
              simp only [stated_nil, or_false, not_or]
              exact ⟨unstated.1, unstated.2, own _ rfl⟩
          · rw [annotate_other same, stated_cons, not_or]
            exact ⟨own _ rfl, unstated.2⟩

/-- An annotation with another semantics that touches the first edge takes its bits over. -/
theorem Holds.lost {other : EdgeSemantics} (holds : Holds symbol bit semantics edges)
    (differs : other ≠ semantics)
    (alike : ∀ made ∈ annotations, made.symbol = symbol ∧ made.semantics = other)
    (touched : (∀ first, edges.head? = some first → first.semantics = other) ∨
      ∃ made ∈ annotations, Near symbol made edges) :
    ¬ Stated (annotations.foldl (NetlistGraph.annotate source target) edges) symbol bit
      semantics := by
  induction annotations generalizing edges with
  | nil =>
      obtain ⟨first, rest, rfl, _, _, unstated⟩ := holds
      have kept := (touched.resolve_right (by simp)) first rfl
      rw [List.foldl_nil, stated_cons, not_or]
      exact ⟨fun states => differs (kept.symm.trans states.2), unstated⟩
  | cons made tail ih =>
      obtain ⟨⟨same, own⟩, tailAlike⟩ := List.forall_mem_cons.mp alike
      refine ih (holds.annotate same) tailAlike ?_
      obtain ⟨first, rest, rfl, symbolEq, _, _⟩ := holds
      rw [← same] at symbolEq
      by_cases near : first.bounds.isContiguousWith made.bounds = true
      · left
        rw [annotate_near symbolEq near]
        rintro _ ⟨⟩
        exact own
      · rcases touched with kept | ⟨note, member, touches⟩
        · left
          rw [annotate_apart symbolEq near]
          rintro _ ⟨⟩
          exact kept first rfl
        · rcases List.mem_cons.mp member with rfl | member
          · obtain ⟨_, _, split, _, meets⟩ := touches
            cases split
            exact absurd meets near
          · exact Or.inr ⟨note, member, touches.annotate same⟩

/-! ## Orders that mix two semantics -/

/-- Annotations apart from the first edge become edges of their own. -/
theorem annotateAll_apart (same : first.symbol = some symbol)
    (apart : ∀ made ∈ annotations,
      made.symbol = symbol ∧ ¬ first.bounds.isContiguousWith made.bounds = true) :
    annotations.foldl (annotate source target) (first :: rest) =
      first :: (rest ++ annotations.map fun made => made.edge source target) := by
  induction annotations generalizing rest with
  | nil => simp
  | cons made tail ih =>
      obtain ⟨⟨rfl, headApart⟩, tailApart⟩ := List.forall_mem_cons.mp apart
      rw [List.foldl_cons, annotate_apart same headApart, ih tailApart]
      simp

theorem together_apart {merged : Option EdgeSemantics}
    (apart : ∀ made ∈ annotations, ¬ range.isContiguousWith made.bounds = true) :
    Together range merged (annotations ++ others) ↔ Together range merged others := by
  induction annotations with
  | nil => rfl
  | cons made tail ih =>
      obtain ⟨headApart, tailApart⟩ := List.forall_mem_cons.mp apart
      rw [List.cons_append, Together, if_neg headApart]
      exact ih tailApart

/-- Annotations with the semantics of the first edge only widen it. -/
theorem together_same (same : first.symbol = some symbol)
    (alike : ∀ made ∈ annotations, made.symbol = symbol ∧ made.semantics = semantics)
    (more : List Annotation) :
    ∃ last tail, annotations.foldl (annotate source target) (first :: rest) = last :: tail ∧
      last.symbol = some symbol ∧
      (Together first.bounds (some semantics) (annotations ++ more) ↔
        Together last.bounds (some semantics) more) := by
  induction annotations generalizing first rest with
  | nil => exact ⟨first, rest, rfl, same, Iff.rfl⟩
  | cons made tail ih =>
      obtain ⟨⟨rfl, rfl⟩, tailAlike⟩ := List.forall_mem_cons.mp alike
      rw [List.foldl_cons, List.cons_append]
      by_cases near : first.bounds.isContiguousWith made.bounds = true
      · rw [annotate_near same near, Together, if_pos near, and_iff_right (Or.inr rfl)]
        exact @ih rest
          { first with bounds := first.bounds.unionWith made.bounds,
                       semantics := made.semantics } same tailAlike
      · rw [annotate_apart same near, Together, if_neg near]
        exact ih same tailAlike

section Entries

variable {ι : Type*} {notes : ι → List Annotation} {kind : ι → EdgeSemantics} {order : List ι}

/--
Where two semantics come together on the first edge, some entry of another
semantics touches what the entries before it have left.
-/
theorem exists_mixed (same : first.symbol = some symbol)
    (alike : ∀ entry ∈ order, ∀ made ∈ notes entry,
      made.symbol = symbol ∧ made.semantics = kind entry)
    (mixed : ¬ Together first.bounds (some semantics) (order.flatMap notes)) :
    ∃ front entry back, order = front ++ entry :: back ∧ kind entry ≠ semantics ∧
      ∃ made ∈ notes entry, Near symbol made
        ((front.flatMap notes).foldl (annotate source target) (first :: rest)) := by
  induction order generalizing first rest with
  | nil => exact absurd trivial mixed
  | cons entry others ih =>
      obtain ⟨headAlike, restAlike⟩ := List.forall_mem_cons.mp alike
      rw [List.flatMap_cons] at mixed
      by_cases own : kind entry = semantics
      · obtain ⟨last, tail, widened, lastSame, together⟩ := @together_same source target symbol
          (kind entry) (notes entry) rest first same headAlike (others.flatMap notes)
        rw [own] at together
        obtain ⟨front, other, back, split, differs, made, member, near⟩ :=
          @ih tail last lastSame restAlike (mt together.mpr mixed)
        refine ⟨entry :: front, other, back, by rw [split]; rfl, differs, made, member, ?_⟩
        rw [List.flatMap_cons, List.foldl_append, widened]
        exact near
      · by_cases touches : ∃ made ∈ notes entry, first.bounds.isContiguousWith made.bounds = true
        · obtain ⟨made, member, near⟩ := touches
          exact ⟨[], entry, others, rfl, own, made, member, first, rest, rfl, same, near⟩
        · push Not at touches
          rw [together_apart touches] at mixed
          obtain ⟨front, other, back, split, differs, made, member, near⟩ :=
            @ih _ first same restAlike mixed
          refine ⟨entry :: front, other, back, by rw [split]; rfl, differs, made, member, ?_⟩
          rw [List.flatMap_cons, List.foldl_append, annotateAll_apart same fun made member =>
            ⟨(headAlike made member).1, touches made member⟩]
          exact near

/-- What has come together after some entries: the bit of the last one, with its semantics. -/
def Merged (notes : ι → List Annotation) (kind : ι → EdgeSemantics) (source target : NodeRef)
    (symbol : String) (edges : List NetlistEdge) (order front : List ι) (entry : ι)
    (back : List ι) (bit : Int) : Prop :=
  order = front ++ entry :: back ∧ (∃ made ∈ notes entry, bit ∈ made.bounds) ∧
    ∃ first rest, ((front ++ [entry]).flatMap notes).foldl (annotate source target) edges =
        first :: rest ∧
      first.symbol = some symbol ∧ Holds symbol bit (kind entry) (first :: rest) ∧
      ¬ Together first.bounds (some (kind entry)) (back.flatMap notes)

/-- The rest of an entry whose first part has come together. -/
theorem merged_rest {entry : ι} {front back : List ι} {made : Annotation}
    {before after : List Annotation} (split : notes entry = before ++ made :: after)
    (alike : ∀ made ∈ notes entry, made.symbol = symbol ∧ made.semantics = kind entry)
    (same : first.symbol = some symbol) (inside : bit ∈ made.bounds)
    (came : (front.flatMap notes ++ (before ++ [made])).foldl (annotate source target) edges =
      first :: rest)
    (holds : Holds symbol bit (kind entry) (first :: rest))
    (mixed : ¬ Together first.bounds (some (kind entry)) (after ++ back.flatMap notes)) :
    Merged notes kind source target symbol edges (front ++ entry :: back) front entry back bit := by
  have afterAlike : ∀ made ∈ after, made.symbol = symbol ∧ made.semantics = kind entry :=
    fun note member => alike note (by rw [split]; simp [member])
  obtain ⟨last, tail, widened, lastSame, together⟩ := @together_same source target symbol
    (kind entry) after rest first same afterAlike (back.flatMap notes)
  refine ⟨rfl, ⟨made, by rw [split]; simp, inside⟩, last, tail, ?_, lastSame, ?_,
    mt together.mpr mixed⟩
  · rw [← widened, ← came, ← List.foldl_append]
    simp [split]
  · rw [← widened]
    exact holds.annotateAll fun note member => (afterAlike note member).1

/-- On a new first edge the first annotation comes together with what follows. -/
theorem exists_merged_new (other : edges.head?.bind NetlistEdge.symbol ≠ some symbol)
    (alike : ∀ entry ∈ order, ∀ made ∈ notes entry,
      made.symbol = symbol ∧ made.semantics = kind entry)
    (fresh : ∀ made ∈ order.flatMap notes, ∀ bit ∈ made.bounds,
      ¬ Stated edges.tail symbol bit made.semantics)
    (mixed : ¬ Unmixed edges.head? (order.flatMap notes)) :
    ∃ front entry back bit,
      Merged notes kind source target symbol edges order front entry back bit := by
  induction order with
  | nil => exact absurd trivial mixed
  | cons entry others ih =>
      obtain ⟨headAlike, restAlike⟩ := List.forall_mem_cons.mp alike
      cases notesEq : notes entry with
      | nil =>
          rw [List.flatMap_cons, notesEq, List.nil_append] at mixed fresh
          obtain ⟨front, other, back, bit, split, made, first, rest, came, spec⟩ :=
            ih restAlike fresh mixed
          refine ⟨entry :: front, other, back, bit, by rw [split]; rfl, made, first, rest, ?_, spec⟩
          rw [List.cons_append, List.flatMap_cons, notesEq]
          exact came
      | cons made after =>
          obtain ⟨symbolEq, semanticsEq⟩ := headAlike made (by simp [notesEq])
          rw [List.flatMap_cons, notesEq, List.cons_append, Unmixed,
            if_neg (symbolEq ▸ other)] at mixed
          have inside : made.bounds.lower ∈ made.bounds :=
            DriverBitRange.mem_iff.mpr ⟨Int.le_refl _, made.bounds.lower_le_upper⟩
          have unstated := fresh made (by simp [notesEq]) made.bounds.lower inside
          have came : ∃ first, annotate source target edges made = first :: edges.tail ∧
              first.symbol = some symbol ∧ first.bounds = made.bounds := by
            cases edges with
            | nil => exact ⟨made.edge source target, rfl, congrArg some symbolEq, rfl⟩
            | cons first rest =>
                exact ⟨_, annotate_other (symbolEq ▸ other), congrArg some symbolEq, rfl⟩
          obtain ⟨first, came, same, boundsEq⟩ := came
          refine ⟨[], entry, others, made.bounds.lower,
            @merged_rest source target symbol edges edges.tail first made.bounds.lower ι notes kind
              entry [] others made [] after notesEq headAlike same inside came ?_ ?_⟩
          · refine ⟨first, edges.tail, rfl, same, ?_, semanticsEq ▸ unstated⟩
            rw [boundsEq]
            exact inside
          · rw [boundsEq, ← semanticsEq]
            exact mixed

/-- Apart from a range there is no bit next to it. -/
theorem outside_of_apart {note : Annotation}
    (apart : ¬ range.isContiguousWith note.bounds = true) (low : range.lower - 1 ≤ bit)
    (high : bit ≤ range.upper + 1) : bit ∉ note.bounds := by
  have := range.lower_le_upper
  rw [DriverBitRange.isContiguousWith_iff] at apart
  rw [DriverBitRange.mem_iff]
  omega

theorem unstated_apart (apart : ∀ made ∈ annotations, ¬ range.isContiguousWith made.bounds = true)
    (low : range.lower - 1 ≤ bit) (high : bit ≤ range.upper + 1) :
    ¬ Stated (annotations.map fun made => made.edge source target) symbol bit semantics := by
  rintro ⟨edge, edgeMem, ⟨_, within⟩, _⟩
  obtain ⟨note, noteMem, sameEdge⟩ := List.mem_map.mp edgeMem
  rw [← sameEdge] at within
  exact outside_of_apart (apart note noteMem) low high within

/-- On an edge with the symbol the first annotation that touches it comes together with it. -/
theorem exists_merged_old (same : first.symbol = some symbol)
    (alike : ∀ entry ∈ order, ∀ made ∈ notes entry,
      made.symbol = symbol ∧ made.semantics = kind entry)
    (fresh : ∀ made ∈ order.flatMap notes, ∀ bit ∈ made.bounds,
      first.bounds.lower - 1 ≤ bit → bit ≤ first.bounds.upper + 1 →
        ¬ Stated rest symbol bit made.semantics)
    (mixed : ¬ Together first.bounds none (order.flatMap notes)) :
    ∃ front entry back bit,
      Merged notes kind source target symbol (first :: rest) order front entry back bit := by
  induction order generalizing rest with
  | nil => exact absurd trivial mixed
  | cons entry others ih =>
      obtain ⟨headAlike, restAlike⟩ := List.forall_mem_cons.mp alike
      rw [List.flatMap_cons] at mixed fresh
      by_cases touches : ∃ made ∈ notes entry, first.bounds.isContiguousWith made.bounds = true
      · -- The annotations of the entry up to the first that touches the edge.
        obtain ⟨made, found⟩ := Option.isSome_iff_exists.mp (List.find?_isSome.mpr touches)
        obtain ⟨near, before, after, split, apart⟩ := List.find?_eq_some_iff_append.mp found
        have beforeApart : ∀ note ∈ before,
            note.symbol = symbol ∧ ¬ first.bounds.isContiguousWith note.bounds = true :=
          fun note member => ⟨(headAlike note (by rw [split]; simp [member])).1,
            by simpa using apart note member⟩
        obtain ⟨symbolEq, semanticsEq⟩ := headAlike made (by rw [split]; simp)
        have touching : made.bounds.lower ≤ first.bounds.upper + 1 ∧
            first.bounds.lower ≤ made.bounds.upper + 1 := DriverBitRange.isContiguousWith_iff.mp near
        have firstRange := first.bounds.lower_le_upper
        have madeRange := made.bounds.lower_le_upper
        have inside : max made.bounds.lower (first.bounds.lower - 1) ∈ made.bounds :=
          DriverBitRange.mem_iff.mpr (by omega)
        refine ⟨[], entry, others, max made.bounds.lower (first.bounds.lower - 1), ?_⟩
        refine @merged_rest source target symbol (first :: rest) _
          { first with bounds := first.bounds.unionWith made.bounds, semantics := made.semantics }
          _ ι notes kind entry [] others made before after split headAlike same inside
          (by
            rw [List.flatMap_nil, List.nil_append, List.foldl_append,
              annotateAll_apart same beforeApart]
            exact annotate_near (symbolEq ▸ same) near) ⟨_, _, rfl, same,
              (DriverBitRange.mem_unionWith near).mpr (Or.inr inside), ?_⟩ ?_
        · rw [stated_append, not_or, ← semanticsEq]
          exact ⟨fresh made (List.mem_append_left _ (by rw [split]; simp)) _ inside (by omega)
            (by omega), unstated_apart (fun note member => (beforeApart note member).2) (by omega)
              (by omega)⟩
        · rw [split, List.append_assoc, List.cons_append,
            together_apart fun note member => (beforeApart note member).2, Together, if_pos near,
            and_iff_right (Or.inl rfl)] at mixed
          rw [← semanticsEq]
          exact mixed
      · push Not at touches
        have apart : ∀ made ∈ notes entry,
            made.symbol = symbol ∧ ¬ first.bounds.isContiguousWith made.bounds = true :=
          fun made member => ⟨(headAlike made member).1, touches made member⟩
        have cameApart := @annotateAll_apart source target symbol (notes entry) rest first same apart
        rw [together_apart touches] at mixed
        obtain ⟨front, other, back, bit, split, made, last, tail, came, spec⟩ :=
          @ih (rest ++ (notes entry).map fun made => made.edge source target) restAlike
            (fun made member bit inside low high => by
              rw [stated_append, not_or]
              exact ⟨fresh made (List.mem_append_right _ member) bit inside low high,
                unstated_apart touches low high⟩) mixed
        refine ⟨entry :: front, other, back, bit, by rw [split]; rfl, made, last, tail, ?_, spec⟩
        rw [List.cons_append, List.flatMap_cons, List.foldl_append, cameApart]
        exact came

/-- An order that mixes two semantics can be changed into one that loses a fact. -/
theorem exists_lost_semantics
    (alike : ∀ entry ∈ order, ∀ made ∈ notes entry,
      made.symbol = symbol ∧ made.semantics = kind entry)
    (fresh : ∀ made ∈ order.flatMap notes, ∀ bit ∈ made.bounds,
      ¬ Stated edges.tail symbol bit made.semantics)
    (mixed : ¬ Unmixed edges.head? (order.flatMap notes)) :
    ∃ other : List ι, other.Perm order ∧ ∃ entry ∈ order, ∃ bit,
      (∃ made ∈ notes entry, bit ∈ made.bounds) ∧
        ¬ Stated ((other.flatMap notes).foldl (annotate source target) edges) symbol bit
          (kind entry) := by
  have merged : ∃ front entry back bit,
      Merged notes kind source target symbol edges order front entry back bit := by
    by_cases other : edges.head?.bind NetlistEdge.symbol = some symbol
    · cases edges with
      | nil => cases other
      | cons first rest =>
          refine exists_merged_old other alike (fun made member bit inside _ _ =>
            fresh made member bit inside) fun together => mixed ?_
          cases flat : order.flatMap notes with
          | nil => trivial
          | cons made tail =>
              obtain ⟨entry, entryMem, madeMem⟩ := List.mem_flatMap.mp
                (show made ∈ order.flatMap notes by rw [flat]; exact List.mem_cons_self)
              rw [Unmixed, (alike entry entryMem made madeMem).1, if_pos other, ← flat]
              exact together
    · exact exists_merged_new other alike fresh mixed
  obtain ⟨front, entry, back, bit, rfl, covered, first, rest, came, same, holds, apart⟩ := merged
  have backAlike : ∀ entry ∈ back, ∀ made ∈ notes entry,
      made.symbol = symbol ∧ made.semantics = kind entry :=
    fun entry member => alike entry (by simp [member])
  obtain ⟨middle, other, tail, rfl, differs, made, madeMem, near⟩ :=
    @exists_mixed source target symbol (kind entry) rest first ι notes kind back same backAlike apart
  have symbols : ∀ entries : List ι, (∀ entry ∈ entries, entry ∈ middle ++ other :: tail) →
      ∀ made ∈ entries.flatMap notes, made.symbol = symbol := by
    intro entries part made member
    obtain ⟨entry, entryMem, madeMem⟩ := List.mem_flatMap.mp member
    exact (backAlike entry (part entry entryMem) made madeMem).1
  refine ⟨front ++ entry :: (middle ++ tail) ++ [other], ?_, entry, by simp, bit, covered, ?_⟩
  · have moved : (tail ++ [other]).Perm (other :: tail) := List.perm_append_singleton other tail
    simp only [List.append_assoc, List.cons_append]
    exact List.Perm.append_left front (List.Perm.cons entry (moved.append_left middle))
  · have walked : ((front ++ entry :: (middle ++ tail) ++ [other]).flatMap notes).foldl
        (annotate source target) edges = (notes other).foldl (annotate source target)
          ((tail.flatMap notes).foldl (annotate source target)
            ((middle.flatMap notes).foldl (annotate source target) (first :: rest))) := by
      rw [← came]
      simp only [← List.foldl_append]
      congr 1
      simp
    rw [walked]
    have tailSymbols := symbols tail fun entry member => by simp [member]
    refine ((holds.annotateAll (symbols middle fun entry member => by simp [member])).annotateAll
      tailSymbols).lost differs (backAlike other (by simp)) (Or.inr ⟨made, madeMem, ?_⟩)
    exact near.annotateAll tailSymbols

/-- Entries with another symbol after those with a symbol that the first edge has not. -/
theorem exists_lost_symbol {made : Annotation} {after later : List Annotation}
    (other : edges.head?.bind NetlistEdge.symbol ≠ some made.symbol)
    (fresh : ¬ Stated edges.tail made.symbol made.bounds.lower made.semantics)
    (alike : ∀ note ∈ after, note.symbol = made.symbol)
    (differ : ∀ note ∈ later, note.symbol ≠ made.symbol) (nonempty : later ≠ []) :
    ¬ Stated ((made :: after ++ later).foldl (annotate source target) edges) made.symbol
      made.bounds.lower made.semantics := by
  have inside : made.bounds.lower ∈ made.bounds :=
    DriverBitRange.mem_iff.mpr ⟨Int.le_refl _, made.bounds.lower_le_upper⟩
  have holds : Holds made.symbol made.bounds.lower made.semantics
      (annotate source target edges made) := by
    cases edges with
    | nil => exact ⟨made.edge source target, [], rfl, rfl, inside, stated_nil _ _ _⟩
    | cons first rest =>
        rw [annotate_other other]
        exact ⟨_, rest, rfl, rfl, inside, fresh⟩
  rw [List.cons_append, List.foldl_cons, List.foldl_append]
  cases later with
  | nil => exact absurd rfl nonempty
  | cons note rest =>
      obtain ⟨noteDiffers, restDiffer⟩ := List.forall_mem_cons.mp differ
      rw [List.foldl_cons]
      exact unstated_annotateAll ((holds.annotateAll alike).overwrite noteDiffers) restDiffer

end Entries

end NetlistGraph

end SlangNetlist
