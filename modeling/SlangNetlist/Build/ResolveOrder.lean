import SlangNetlist.Build.PendingRvalueQueue
import SlangNetlist.Graph.LostFacts
import SlangNetlist.Library.FilteredList

/-!
# The order of the queue

The parallel resolution sorts the queue by target node, and the sort is not
stable.  The order matters when two entries for one target annotate the edge
from one source with different symbols, or when two semantics come together on
its range: the last one stays.
-/

namespace SlangNetlist

/--
The queue in runs: the entries of each target node are together, in any order,
and the runs are in any order.
-/
inductive Grouped : List PendingRvalue → Prop
  | nil : Grouped []
  | run {node : Option NodeRef} {entries rest : List PendingRvalue} :
      (∀ pending ∈ entries, pending.node = node) → (∀ pending ∈ rest, pending.node ≠ node) →
      Grouped rest → Grouped (entries ++ rest)

/-- Every queue can be brought into runs. -/
theorem exists_grouped (queue : List PendingRvalue) :
    ∃ order : List PendingRvalue, order.Perm queue ∧ Grouped order := by
  induction lengthEq : queue.length using Nat.strong_induction_on generalizing queue with
  | _ length ih =>
    cases queue with
    | nil => exact ⟨[], List.Perm.refl _, Grouped.nil⟩
    | cons head tail =>
        have shorter : (tail.filter fun pending => ¬ pending.node = head.node).length < length := by
          have := List.length_filter_le (fun pending => ¬ pending.node = head.node) tail
          rw [List.length_cons] at lengthEq
          omega
        obtain ⟨rest, perm, grouped⟩ := ih _ shorter _ rfl
        refine ⟨(head :: tail.filter fun pending => pending.node = head.node) ++ rest, ?_,
          @Grouped.run head.node _ _ ?_ ?_ grouped⟩
        · rw [List.cons_append]
          refine List.Perm.cons head ((List.Perm.append_left _ perm).trans ?_)
          simpa using List.filter_append_perm
            (fun pending : PendingRvalue => decide (pending.node = head.node)) tail
        · simp
        · intro pending member
          simpa using (List.mem_filter.mp (perm.mem_iff.mp member)).2

namespace NetlistBuilder

/-- The builder with another graph. -/
def withGraph (builder : NetlistBuilder) (graph : NetlistGraph) : NetlistBuilder :=
  { builder with graph := graph }

/-- The facts of the graph after the queue has been resolved in an order. -/
def factsAfter (builder : NetlistBuilder) (order : List PendingRvalue) :
    Option (Set EdgeFact) :=
  (builder.resolveQueue order).map fun result => result.graph.facts

/--
The resolution in runs, in whatever order, gives the facts that the resolution
in the order of the queue gives.
-/
def OrderIrrelevant (builder : NetlistBuilder) (queue : List PendingRvalue) : Prop :=
  ∀ order : List PendingRvalue, order.Perm queue → Grouped order →
    builder.factsAfter order = builder.factsAfter queue

/-- The list of a central interval that an entry meets is dead, and resolving fails. -/
def Fails (builder : NetlistBuilder) (queue : List PendingRvalue) : Prop :=
  ∃ pending ∈ queue, ∃ node, pending.node = some node ∧ builder.emissions pending node = none

/-- The entry gives its node a dependency on the source. -/
def EmitsFrom (builder : NetlistBuilder) (pending : PendingRvalue) (node source : NodeRef) :
    Prop :=
  ∃ dependencies, builder.emissions pending node = some dependencies ∧
    ∃ dependency ∈ dependencies, dependency.source = source

/-- The dependencies that one entry adds. -/
def entryEmissions (builder : NetlistBuilder) (pending : PendingRvalue) : List Dependency :=
  match pending.node with
  | none => []
  | some node => (builder.emissions pending node).getD []

/-- The dependencies that a queue adds, in order. -/
def queueEmissions (builder : NetlistBuilder) (queue : List PendingRvalue) : List Dependency :=
  queue.flatMap builder.entryEmissions

/--
Entries that give one node a dependency on one source have the same symbol, and
what comes together on the first edge has the same edge kind, role and precision
in every order of the queue.
-/
structure SharesAlike (builder : NetlistBuilder) (queue : List PendingRvalue) : Prop where
  oneSymbol : ∀ first ∈ queue, ∀ second ∈ queue, ∀ node source,
    first.node = some node → second.node = some node →
    builder.EmitsFrom first node source → builder.EmitsFrom second node source →
      first.symbol.hierarchicalPath = second.symbol.hierarchicalPath
  unmixed : ∀ order : List PendingRvalue, order.Perm queue → ∀ source target,
    NetlistGraph.Unmixed (builder.graph.edgesBetween source target).head?
      (builder.graph.annotationsBetween source target (builder.queueEmissions order))

/-- Parallel edges behind the first one state nothing yet that the queue states. -/
def Unstated (builder : NetlistBuilder) (queue : List PendingRvalue) : Prop :=
  ∀ source target,
    ∀ made ∈ builder.graph.annotationsBetween source target (builder.queueEmissions queue),
      ∀ bit ∈ made.bounds, ¬ NetlistEdge.Stated (builder.graph.edgesBetween source target).tail
        made.symbol bit made.semantics

section Order

variable {builder : NetlistBuilder} {queue order : List PendingRvalue}

/-- A dependency of an entry comes from it, and has its symbol and semantics. -/
theorem mem_entryEmissions {pending : PendingRvalue} {dependency : Dependency}
    (member : dependency ∈ builder.entryEmissions pending) :
    ∃ node, pending.node = some node ∧ builder.EmitsFrom pending node dependency.source ∧
      dependency = pending.dependency dependency.source node dependency.bounds := by
  unfold entryEmissions at member
  split at member
  · simp at member
  · next node target =>
      cases emitted : builder.emissions pending node with
      | none => simp [emitted] at member
      | some dependencies =>
          rw [emitted, Option.getD_some] at member
          exact ⟨node, target, ⟨dependencies, emitted, dependency, member, rfl⟩,
            eq_dependency_of_mem_emissions emitted member⟩

theorem EmitsFrom.exists_mem {pending : PendingRvalue} {node source : NodeRef}
    (emits : builder.EmitsFrom pending node source) (target : pending.node = some node) :
    ∃ dependency ∈ builder.entryEmissions pending, dependency.source = source := by
  obtain ⟨dependencies, emitted, dependency, member, sourceEq⟩ := emits
  refine ⟨dependency, ?_, sourceEq⟩
  simpa [entryEmissions, target, emitted] using member

/-- The annotations of a queue depend on the bounds of the nodes alone. -/
theorem annotationsBetween_congr {graph other : NetlistGraph}
    (same : ∀ ref, other.getBounds ref = graph.getBounds ref) (source target : NodeRef)
    (dependencies : List Dependency) :
    other.annotationsBetween source target dependencies =
      graph.annotationsBetween source target dependencies := by
  have sameAnnotations : other.annotationOf = graph.annotationOf := by
    funext dependency
    simp [NetlistGraph.annotationOf, same]
  rw [NetlistGraph.annotationsBetween, sameAnnotations, NetlistGraph.annotationsBetween]

/-- Resolving annotates the edges between two nodes in the order of the queue. -/
theorem resolveQueue_spec (builder : NetlistBuilder) (queue : List PendingRvalue)
    (succeeds : ¬ builder.Fails queue) :
    ∃ graph, builder.resolveQueue queue = some (builder.withGraph graph) ∧
      ∀ source target, graph.edgesBetween source target =
        (builder.graph.annotationsBetween source target (builder.queueEmissions queue)).foldl
          (NetlistGraph.annotate source target) (builder.graph.edgesBetween source target) := by
  induction queue generalizing builder with
  | nil => exact ⟨builder.graph, rfl, fun _ _ => rfl⟩
  | cons pending rest ih =>
      have restSucceeds : ¬ builder.Fails rest := fun ⟨other, otherMem, fails⟩ =>
        succeeds ⟨other, List.mem_cons_of_mem _ otherMem, fails⟩
      cases target : pending.node with
      | none =>
          obtain ⟨graph, resolved, edges⟩ := ih builder restSucceeds
          refine ⟨graph, ?_, fun source target' => ?_⟩
          · rw [resolveQueue, List.foldlM_cons, emitEdgesFor_none builder target]
            exact resolved
          · rw [edges]
            simp [queueEmissions, entryEmissions, target]
      | some node =>
          cases emitted : builder.emissions pending node with
          | none => exact absurd ⟨pending, List.mem_cons_self, node, target, emitted⟩ succeeds
          | some dependencies =>
              obtain ⟨graph, resolved, edges⟩ := ih
                ((builder.internSymbol pending.symbol).addDependencies dependencies)
                restSucceeds
              refine ⟨graph, ?_, fun source target' => ?_⟩
              · rw [resolveQueue, List.foldlM_cons, emitEdgesFor_eq builder target, emitted]
                exact resolved
              · have bounds : ∀ ref, ((builder.internSymbol pending.symbol).addDependencies
                    dependencies).graph.getBounds ref = builder.graph.getBounds ref := fun ref => by
                  simp only [addDependencies, NetlistGraph.getBounds_addDependencies, internSymbol,
                    NetlistGraph.getBounds_toSymbolRef]
                have interned : ∀ ref, (builder.internSymbol pending.symbol).graph.getBounds ref =
                    builder.graph.getBounds ref := fun ref =>
                  NetlistGraph.getBounds_toSymbolRef _ _ _
                have split : builder.queueEmissions (pending :: rest) =
                    dependencies ++ builder.queueEmissions rest := by
                  simp [queueEmissions, entryEmissions, target, emitted]
                rw [edges, annotationsBetween_congr bounds, split, addDependencies,
                  NetlistGraph.edgesBetween_addDependencies, annotationsBetween_congr interned]
                simp only [internSymbol, NetlistGraph.edgesBetween_toSymbolRef]
                rw [← List.foldl_append]
                simp [NetlistGraph.annotationsBetween, queueEmissions]
                rfl

/-- A failing entry makes the resolution fail. -/
theorem resolveQueue_none (fails : builder.Fails queue) : builder.resolveQueue queue = none := by
  induction queue generalizing builder with
  | nil =>
      obtain ⟨_, member, _⟩ := fails
      simp at member
  | cons pending rest ih =>
      cases step : builder.emitEdgesFor pending with
      | none => simp [resolveQueue, step]
      | some next =>
          have nextFails : next.Fails rest := by
            obtain ⟨other, otherMem, node, target, failing⟩ := fails
            cases targetEq : pending.node with
            | none =>
                rw [emitEdgesFor_none builder targetEq] at step
                cases step
                rcases List.mem_cons.mp otherMem with rfl | otherMem
                · rw [targetEq] at target
                  cases target
                · exact ⟨other, otherMem, node, target, failing⟩
            | some own =>
                rw [emitEdgesFor_eq builder targetEq] at step
                obtain ⟨dependencies, emitted, rfl⟩ := Option.map_eq_some_iff.mp step
                rcases List.mem_cons.mp otherMem with rfl | otherMem
                · rw [targetEq] at target
                  cases target
                  rw [emitted] at failing
                  cases failing
                · exact ⟨other, otherMem, node, target, failing⟩
          rw [resolveQueue, List.foldlM_cons, step]
          exact ih nextFails

theorem fails_perm (perm : order.Perm queue) : builder.Fails order ↔ builder.Fails queue := by
  simp only [Fails, perm.mem_iff]

/-- An annotation of a queue comes from an entry for the target that emits from the source. -/
theorem mem_annotationsBetween {graph : NetlistGraph} {source target : NodeRef}
    {made : Annotation}
    (member : made ∈ graph.annotationsBetween source target (builder.queueEmissions queue)) :
    ∃ pending ∈ queue, pending.node = some target ∧ builder.EmitsFrom pending target source ∧
      made.symbol = pending.symbol.hierarchicalPath ∧
      made.semantics = NetlistGraph.eventSemantics pending.semantics := by
  obtain ⟨dependency, dependencyMem, sourceEq, targetEq, annotated⟩ :=
    NetlistGraph.mem_annotationsBetween.mp member
  obtain ⟨pending, pendingMem, inEntry⟩ := List.mem_flatMap.mp dependencyMem
  obtain ⟨node, nodeEq, emits, shape⟩ := mem_entryEmissions inEntry
  obtain rfl : node = target := by rw [← targetEq, shape]; rfl
  subst sourceEq
  refine ⟨pending, pendingMem, nodeEq, emits, ?_, ?_⟩ <;> rw [← annotated, shape] <;> rfl

/-! ## Orders that agree -/

/-- Orders without mixed edges state the same facts. -/
theorem SharesAlike.facts_eq (alike : builder.SharesAlike queue) (perm : order.Perm queue) :
    builder.factsAfter order = builder.factsAfter queue := by
  by_cases fails : builder.Fails queue
  · rw [factsAfter, factsAfter, resolveQueue_none fails,
      resolveQueue_none ((fails_perm perm).mpr fails)]
  · obtain ⟨first, firstEq, firstEdges⟩ := resolveQueue_spec builder order
      (mt (fails_perm perm).mp fails)
    obtain ⟨second, secondEq, secondEdges⟩ := resolveQueue_spec builder queue fails
    rw [factsAfter, factsAfter, firstEq, secondEq, Option.map_some, Option.map_some,
      Option.some.injEq]
    ext ⟨source, target, symbol, bit, semantics⟩
    change NetlistEdge.Stated (first.edgesBetween source target) symbol bit semantics ↔
      NetlistEdge.Stated (second.edgesBetween source target) symbol bit semantics
    rw [firstEdges, secondEdges]
    have permuted : (builder.graph.annotationsBetween source target
        (builder.queueEmissions order)).Perm
          (builder.graph.annotationsBetween source target (builder.queueEmissions queue)) :=
      ((perm.flatMap_right _).filter _).map _
    cases annotations : builder.graph.annotationsBetween source target
        (builder.queueEmissions order) with
    | nil =>
        rw [annotations] at permuted
        rw [List.perm_nil.mp permuted.symm]
    | cons head rest =>
        have headMem : head ∈ builder.graph.annotationsBetween source target
            (builder.queueEmissions order) := by simp [annotations]
        obtain ⟨like, likeMem, likeTarget, likeEmits, headSymbol, _⟩ :=
          mem_annotationsBetween headMem
        have oneSymbol : ∀ made ∈ builder.graph.annotationsBetween source target
            (builder.queueEmissions order), made.symbol = head.symbol := by
          intro made madeMem
          obtain ⟨other, otherMem, otherTarget, otherEmits, symbolEq, _⟩ :=
            mem_annotationsBetween madeMem
          rw [symbolEq, headSymbol]
          exact alike.oneSymbol other (perm.mem_iff.mp otherMem) like (perm.mem_iff.mp likeMem)
            target source otherTarget likeTarget otherEmits likeEmits
        rw [← annotations]
        exact NetlistGraph.stated_unmixed_perm oneSymbol permuted (alike.unmixed order perm _ _)
          (alike.unmixed queue (List.Perm.refl _) _ _) symbol semantics

/-! ## Orders that lose a fact -/

/-- The entries for a node. -/
def entriesFor (queue : List PendingRvalue) (node : NodeRef) : List PendingRvalue :=
  queue.filter fun pending => pending.node = some node

/-- The annotations of one entry between two nodes. -/
def notes (builder : NetlistBuilder) (source target : NodeRef) (pending : PendingRvalue) :
    List Annotation :=
  builder.graph.annotationsBetween source target (builder.entryEmissions pending)

theorem annotationsBetween_eq_flatMap (source target : NodeRef) :
    builder.graph.annotationsBetween source target (builder.queueEmissions queue) =
      queue.flatMap (builder.notes source target) := by
  induction queue with
  | nil => rfl
  | cons pending rest ih =>
      rw [List.flatMap_cons, ← ih, notes, queueEmissions, List.flatMap_cons]
      simp [NetlistGraph.annotationsBetween, queueEmissions]

/-- The annotations of an entry for the target have its symbol and semantics. -/
theorem mem_notes {source target : NodeRef} {pending : PendingRvalue} {made : Annotation}
    (member : made ∈ builder.notes source target pending) :
    pending.node = some target ∧ builder.EmitsFrom pending target source ∧
      made.symbol = pending.symbol.hierarchicalPath ∧
      made.semantics = NetlistGraph.eventSemantics pending.semantics := by
  have inQueue : made ∈ builder.graph.annotationsBetween source target
      (builder.queueEmissions [pending]) := by
    rw [annotationsBetween_eq_flatMap]
    simpa using member
  obtain ⟨other, otherMem, spec⟩ := mem_annotationsBetween inQueue
  rw [← List.mem_singleton.mp otherMem]
  exact spec

/-- An entry that emits from the source annotates an edge. -/
theorem EmitsFrom.exists_note {pending : PendingRvalue} {node source : NodeRef}
    (emits : builder.EmitsFrom pending node source) (target : pending.node = some node) :
    ∃ made rest, builder.notes source node pending = made :: rest := by
  obtain ⟨dependency, dependencyMem, sourceEq⟩ := emits.exists_mem target
  obtain ⟨own, ownTarget, _, shape⟩ := mem_entryEmissions dependencyMem
  rw [target] at ownTarget
  cases ownTarget
  have member : builder.graph.annotationOf dependency ∈ builder.notes source node pending :=
    NetlistGraph.mem_annotationsBetween.mpr
      ⟨dependency, dependencyMem, sourceEq, by rw [shape]; rfl, rfl⟩
  exact List.exists_cons_of_ne_nil (List.ne_nil_of_mem member)

/-- Entries for other nodes do not count. -/
theorem flatMap_notes_entriesFor (source node : NodeRef) (entries : List PendingRvalue) :
    (entriesFor entries node).flatMap (builder.notes source node) =
      entries.flatMap (builder.notes source node) := by
  induction entries with
  | nil => rfl
  | cons pending rest ih =>
      by_cases own : pending.node = some node
      · rw [entriesFor, List.filter_cons_of_pos (by simpa using own), List.flatMap_cons,
          List.flatMap_cons, ← ih, entriesFor]
      · have none : builder.notes source node pending = [] :=
          List.eq_nil_iff_forall_not_mem.mpr fun made member => own (mem_notes member).1
        rw [entriesFor, List.filter_cons_of_neg (by simpa using own), List.flatMap_cons, none,
          List.nil_append, ← ih, entriesFor]

/-- An order in runs with the entries for a node in any order. -/
theorem exists_order (queue : List PendingRvalue) (node : NodeRef) :
    ∃ rest : List PendingRvalue, ∀ entries : List PendingRvalue,
      entries.Perm (entriesFor queue node) →
        (entries ++ rest).Perm queue ∧ Grouped (entries ++ rest) ∧
          entriesFor (entries ++ rest) node = entries := by
  obtain ⟨rest, restPerm, grouped⟩ :=
    exists_grouped (queue.filter fun pending => ¬ pending.node = some node)
  have outside : ∀ pending ∈ rest, pending.node ≠ some node := fun pending member => by
    simpa using (List.mem_filter.mp (restPerm.mem_iff.mp member)).2
  refine ⟨rest, fun entries perm => ?_⟩
  have inside : ∀ pending ∈ entries, pending.node = some node := fun pending member => by
    simpa using (List.mem_filter.mp (perm.mem_iff.mp member)).2
  refine ⟨(perm.append restPerm).trans ?_, Grouped.run inside outside grouped, ?_⟩
  · simpa [entriesFor] using List.filter_append_perm
      (fun pending : PendingRvalue => decide (pending.node = some node)) queue
  · rw [entriesFor, List.filter_append, List.filter_eq_self.mpr (by simpa using inside),
      List.filter_eq_nil_iff.mpr (by simpa using outside), List.append_nil]

/-- Where the order is irrelevant, all orders of the entries for a node state the same facts. -/
theorem OrderIrrelevant.stated_iff (irrelevant : builder.OrderIrrelevant queue)
    (succeeds : ¬ builder.Fails queue) {node : NodeRef} {first second : List PendingRvalue}
    (firstPerm : first.Perm (entriesFor queue node))
    (secondPerm : second.Perm (entriesFor queue node)) (source : NodeRef) (symbol : String)
    (bit : Int) (semantics : EdgeSemantics) :
    NetlistEdge.Stated ((first.flatMap (builder.notes source node)).foldl
        (NetlistGraph.annotate source node) (builder.graph.edgesBetween source node))
        symbol bit semantics ↔
      NetlistEdge.Stated ((second.flatMap (builder.notes source node)).foldl
        (NetlistGraph.annotate source node) (builder.graph.edgesBetween source node))
        symbol bit semantics := by
  obtain ⟨rest, orders⟩ := exists_order queue node
  have resolved (entries : List PendingRvalue) (perm : entries.Perm (entriesFor queue node)) :
      ∃ graph : NetlistGraph, builder.factsAfter queue = some graph.facts ∧
        graph.edgesBetween source node = (entries.flatMap (builder.notes source node)).foldl
          (NetlistGraph.annotate source node) (builder.graph.edgesBetween source node) := by
    obtain ⟨whole, grouped, only⟩ := orders entries perm
    obtain ⟨graph, found, edges⟩ := resolveQueue_spec builder (entries ++ rest)
      (mt (fails_perm whole).mp succeeds)
    refine ⟨graph, ?_, ?_⟩
    · rw [← irrelevant _ whole grouped, factsAfter, found]
      rfl
    · rw [edges, annotationsBetween_eq_flatMap, ← flatMap_notes_entriesFor, only]
  obtain ⟨one, oneFacts, oneEdges⟩ := resolved first firstPerm
  obtain ⟨two, twoFacts, twoEdges⟩ := resolved second secondPerm
  rw [← oneEdges, ← twoEdges]
  have same : one.facts = two.facts := Option.some.inj (oneFacts.symm.trans twoFacts)
  exact Set.ext_iff.mp same ⟨source, node, symbol, bit, semantics⟩

/-- The facts of an entry are stated if it is resolved last. -/
theorem stated_of_last (irrelevant : builder.OrderIrrelevant queue)
    (succeeds : ¬ builder.Fails queue) {node source : NodeRef} {entries : List PendingRvalue}
    (perm : entries.Perm (entriesFor queue node)) {pending : PendingRvalue}
    (member : pending ∈ entries) {bit : Int}
    (covered : ∃ made ∈ builder.notes source node pending, bit ∈ made.bounds) :
    NetlistEdge.Stated ((entries.flatMap (builder.notes source node)).foldl
      (NetlistGraph.annotate source node) (builder.graph.edgesBetween source node))
      pending.symbol.hierarchicalPath bit (NetlistGraph.eventSemantics pending.semantics) := by
  obtain ⟨before, after, rfl⟩ := List.append_of_mem member
  have moved : (before ++ after ++ [pending]).Perm (entriesFor queue node) := by
    refine List.Perm.trans ?_ perm
    rw [List.append_assoc]
    exact (List.perm_append_singleton pending after).append_left before
  rw [irrelevant.stated_iff succeeds perm moved, List.flatMap_append, List.foldl_append,
    List.flatMap_singleton]
  exact NetlistGraph.stated_last (fun made madeMem => (mem_notes madeMem).2.2) _ covered

/-- Two symbols on the dependencies of one node on one source lose a fact in some order. -/
theorem symbols_ne (irrelevant : builder.OrderIrrelevant queue)
    (succeeds : ¬ builder.Fails queue) (unstated : builder.Unstated queue)
    {first second : PendingRvalue} (firstMem : first ∈ queue) (secondMem : second ∈ queue)
    {node source : NodeRef} (firstTarget : first.node = some node)
    (secondTarget : second.node = some node) (firstEmits : builder.EmitsFrom first node source)
    (secondEmits : builder.EmitsFrom second node source)
    (differ : first.symbol.hierarchicalPath ≠ second.symbol.hierarchicalPath) :
    (builder.graph.edgesBetween source node).head?.bind NetlistEdge.symbol =
      some first.symbol.hierarchicalPath := by
  by_contra other
  have firstFor : first ∈ entriesFor queue node := List.mem_filter.mpr ⟨firstMem, by simpa⟩
  have secondFor : second ∈ entriesFor queue node := List.mem_filter.mpr ⟨secondMem, by simpa⟩
  -- The entries with the symbol, the first one ahead, and then those with other symbols.
  obtain ⟨like, perm, alike⟩ := Library.exists_perm_ahead
    (fun pending : PendingRvalue =>
      decide (pending.symbol.hierarchicalPath = first.symbol.hierarchicalPath))
    firstFor (by simp)
  obtain ⟨made, tail, firstNotes⟩ := firstEmits.exists_note firstTarget
  obtain ⟨secondMade, secondTail, secondNotes⟩ := secondEmits.exists_note secondTarget
  have ownMem : made ∈ builder.notes source node first := by simp [firstNotes]
  obtain ⟨_, _, symbolEq, semanticsEq⟩ := mem_notes ownMem
  have inside : made.bounds.lower ∈ made.bounds :=
    DriverBitRange.mem_iff.mpr ⟨Int.le_refl _, made.bounds.lower_le_upper⟩
  have stated := stated_of_last irrelevant succeeds perm List.mem_cons_self
    ⟨made, ownMem, inside⟩
  rw [← symbolEq, ← semanticsEq, List.flatMap_append, List.flatMap_cons, firstNotes] at stated
  refine NetlistGraph.exists_lost_symbol (symbolEq ▸ other) ?_ ?_ ?_ ?_ stated
  · refine unstated source node made ?_ made.bounds.lower inside
    rw [annotationsBetween_eq_flatMap]
    exact List.mem_flatMap.mpr ⟨first, firstMem, ownMem⟩
  · intro note member
    rcases List.mem_append.mp member with own | others
    · rw [(mem_notes (show note ∈ builder.notes source node first by simp [firstNotes, own])).2.2.1,
        symbolEq]
    · obtain ⟨pending, pendingMem, noteMem⟩ := List.mem_flatMap.mp others
      rw [(mem_notes noteMem).2.2.1, symbolEq]
      simpa using alike pending pendingMem
  · intro note member
    obtain ⟨pending, pendingMem, noteMem⟩ := List.mem_flatMap.mp member
    rw [(mem_notes noteMem).2.2.1]
    simpa using (List.mem_filter.mp pendingMem).2
  · exact List.ne_nil_of_mem (List.mem_flatMap.mpr ⟨second,
      List.mem_filter.mpr ⟨secondFor, by simpa [symbolEq] using differ.symm⟩,
      show secondMade ∈ _ by simp [secondNotes]⟩)

/-- Where the order is irrelevant and no fact is stated before, nothing is mixed. -/
theorem OrderIrrelevant.sharesAlike (irrelevant : builder.OrderIrrelevant queue)
    (succeeds : ¬ builder.Fails queue) (unstated : builder.Unstated queue) :
    builder.SharesAlike queue := by
  have oneSymbol : ∀ first ∈ queue, ∀ second ∈ queue, ∀ node source,
      first.node = some node → second.node = some node →
      builder.EmitsFrom first node source → builder.EmitsFrom second node source →
        first.symbol.hierarchicalPath = second.symbol.hierarchicalPath := by
    intro first firstMem second secondMem node source firstTarget secondTarget firstEmits
      secondEmits
    by_contra differ
    have one := symbols_ne irrelevant succeeds unstated firstMem secondMem firstTarget
      secondTarget firstEmits secondEmits differ
    have two := symbols_ne irrelevant succeeds unstated secondMem firstMem secondTarget
      firstTarget secondEmits firstEmits (Ne.symm differ)
    exact differ (Option.some.inj (one.symm.trans two))
  refine ⟨oneSymbol, fun order perm source target => ?_⟩
  by_contra mixed
  have orderFor : (entriesFor order target).Perm (entriesFor queue target) := perm.filter _
  rw [annotationsBetween_eq_flatMap, ← flatMap_notes_entriesFor] at mixed
  cases flat : (entriesFor order target).flatMap (builder.notes source target) with
  | nil => exact mixed (by rw [flat]; trivial)
  | cons head rest =>
      obtain ⟨like, likeMem, headMem⟩ := List.mem_flatMap.mp
        (show head ∈ (entriesFor order target).flatMap (builder.notes source target) by
          rw [flat]; exact List.mem_cons_self)
      obtain ⟨likeTarget, likeEmits, _, _⟩ := mem_notes headMem
      have inQueue {pending : PendingRvalue} (member : pending ∈ entriesFor order target) :
          pending ∈ queue := (List.mem_filter.mp (orderFor.mem_iff.mp member)).1
      have alike : ∀ pending ∈ entriesFor order target,
          ∀ made ∈ builder.notes source target pending,
            made.symbol = like.symbol.hierarchicalPath ∧
              made.semantics = NetlistGraph.eventSemantics pending.semantics := by
        intro pending member made madeMem
        obtain ⟨pendingTarget, emits, symbolEq, semanticsEq⟩ := mem_notes madeMem
        exact ⟨symbolEq.trans (oneSymbol pending (inQueue member) like (inQueue likeMem) target
          source pendingTarget likeTarget emits likeEmits), semanticsEq⟩
      have fresh : ∀ made ∈ (entriesFor order target).flatMap (builder.notes source target),
          ∀ bit ∈ made.bounds, ¬ NetlistEdge.Stated (builder.graph.edgesBetween source target).tail
            like.symbol.hierarchicalPath bit made.semantics := by
        intro made member bit inside
        obtain ⟨pending, pendingMem, madeMem⟩ := List.mem_flatMap.mp member
        rw [← (alike pending pendingMem made madeMem).1]
        refine unstated source target made ?_ bit inside
        rw [annotationsBetween_eq_flatMap]
        exact List.mem_flatMap.mpr ⟨pending, inQueue pendingMem, madeMem⟩
      obtain ⟨other, otherPerm, pending, pendingMem, bit, covered, lost⟩ :=
        NetlistGraph.exists_lost_semantics alike fresh mixed
      have stated := stated_of_last irrelevant succeeds (otherPerm.trans orderFor)
        (otherPerm.mem_iff.mpr pendingMem) covered
      obtain ⟨made, madeMem, _⟩ := covered
      rw [← (mem_notes madeMem).2.2.1, (alike pending pendingMem made madeMem).1] at stated
      exact lost stated

end Order

/--
The parallel resolution states the facts of the sequential one in every order of
the runs if resolving fails, or if the entries that share an edge are alike.
Unless facts that an order loses are stated by parallel edges already, only then.
-/
theorem orderIrrelevant_iff (builder : NetlistBuilder) (queue : List PendingRvalue) :
    (builder.Fails queue ∨ builder.SharesAlike queue → builder.OrderIrrelevant queue) ∧
      (builder.Unstated queue →
        (builder.OrderIrrelevant queue ↔ builder.Fails queue ∨ builder.SharesAlike queue)) := by
  have enough : builder.Fails queue ∨ builder.SharesAlike queue →
      builder.OrderIrrelevant queue := by
    rintro (fails | alike) order perm _
    · rw [factsAfter, factsAfter, resolveQueue_none fails,
        resolveQueue_none ((fails_perm perm).mpr fails)]
    · exact alike.facts_eq perm
  refine ⟨enough, fun unstated => ⟨fun irrelevant => ?_, enough⟩⟩
  by_cases fails : builder.Fails queue
  · exact Or.inl fails
  · exact Or.inr (irrelevant.sharesAlike fails unstated)

/-- A signal that the assignment node 0 drives. -/
def drivenSignal (id : Nat) (path : String) : ValueSymbol :=
  { id := id, name := path, hierarchicalPath := path }

/-- `x` on eight bits, driven by the assignment node 0. -/
def wordDriven : NetlistBuilder where
  driverMap := ⟨[drivenSignal 0 "x"]⟩
  drivers := [
    { driverIntervals := ⟨[⟨0, 7, 0⟩]⟩
      driverLists := { slots := [some [{ node := some ⟨0, .assignment, 0⟩ }]] } }]

/-- A read of a bit of `x` in the assignment node 1, with a role. -/
def readBit (bit : Int) (role : DependencyRole) : PendingRvalue where
  symbol := drivenSignal 0 "x"
  bounds := ⟨bit, bit⟩
  lsp := 0
  node := some ⟨1, .assignment, 0⟩
  semantics := { role := role }

/-- Reads of two bits apart share no edge. -/
theorem sharesAlike_apart : wordDriven.SharesAlike [readBit 0 .index, readBit 5 .data] := by
  refine ⟨?_, ?_⟩
  · intro first firstMem second secondMem _ _ _ _ _ _
    have onePath : ∀ pending ∈ [readBit 0 .index, readBit 5 .data],
        pending.symbol.hierarchicalPath = "x" := by decide
    rw [onePath first firstMem, onePath second secondMem]
  · intro order perm source target
    have member : order = [readBit 0 .index, readBit 5 .data] ∨
        order = [readBit 5 .data, readBit 0 .index] := by
      obtain ⟨first, second, rfl⟩ := List.length_eq_two.mp perm.length_eq
      have low : readBit 0 .index ∈ [first, second] := perm.mem_iff.mpr (by simp)
      have high : readBit 5 .data ∈ [first, second] := perm.mem_iff.mpr (by simp)
      have apart : readBit 0 .index ≠ readBit 5 .data := by decide
      simp only [List.mem_cons, List.not_mem_nil, or_false] at low high
      grind
    by_cases ends : source = ⟨0, .assignment, 0⟩ ∧ target = ⟨1, .assignment, 0⟩
    · obtain ⟨rfl, rfl⟩ := ends
      rcases member with rfl | rfl <;> exact of_decide_eq_true rfl
    · have none : wordDriven.graph.annotationsBetween source target
          (wordDriven.queueEmissions order) = [] := by
        have own : ∀ dependency ∈ wordDriven.queueEmissions order,
            dependency.source = ⟨0, .assignment, 0⟩ ∧ dependency.target = ⟨1, .assignment, 0⟩ := by
          rcases member with rfl | rfl <;> decide
        rw [NetlistGraph.annotationsBetween, List.map_eq_nil_iff, List.filter_eq_nil_iff]
        intro dependency inQueue
        obtain ⟨sourceEq, targetEq⟩ := own dependency inQueue
        rw [sourceEq, targetEq, decide_eq_true_iff]
        exact fun same => ends ⟨same.1.symm, same.2.symm⟩
      rw [none]
      trivial

/-- `z[x[0]] = x[5]`: the bits keep their roles on parallel edges in both orders. -/
theorem orderIrrelevant_iff_apart :
    wordDriven.OrderIrrelevant [readBit 0 .index, readBit 5 .data] ∧
      (wordDriven.OrderIrrelevant [readBit 0 .index, readBit 5 .data] ↔
        wordDriven.Fails [readBit 0 .index, readBit 5 .data] ∨
          wordDriven.SharesAlike [readBit 0 .index, readBit 5 .data]) := by
  have unstated : wordDriven.Unstated [readBit 0 .index, readBit 5 .data] :=
    fun _ _ _ _ _ _ => NetlistGraph.stated_nil _ _ _
  exact ⟨(orderIrrelevant_iff wordDriven _).1 (Or.inr sharesAlike_apart),
    (orderIrrelevant_iff wordDriven _).2 unstated⟩

/-- `{x, y} = f` as one node, which drives both signals. -/
def pairDriven : NetlistBuilder where
  driverMap := ⟨[drivenSignal 0 "x", drivenSignal 1 "y"]⟩
  drivers := [
    { driverIntervals := ⟨[⟨0, 0, 0⟩]⟩
      driverLists := { slots := [some [{ node := some ⟨0, .assignment, 0⟩ }]] } },
    { driverIntervals := ⟨[⟨0, 0, 0⟩]⟩
      driverLists := { slots := [some [{ node := some ⟨0, .assignment, 0⟩ }]] } }]

/-- A read of a signal in the assignment node 1. -/
def readSignal (id : Nat) (path : String) : PendingRvalue where
  symbol := drivenSignal id path
  bounds := ⟨0, 0⟩
  lsp := 0
  node := some ⟨1, .assignment, 0⟩

/-- `z = x + y`: the signal that is resolved last is the one on the edge. -/
theorem pairDriven_order_matters :
    ¬ pairDriven.OrderIrrelevant [readSignal 0 "x", readSignal 1 "y"] := by
  intro irrelevant
  have grouped : Grouped ([readSignal 1 "y", readSignal 0 "x"] ++ []) :=
    @Grouped.run (some ⟨1, .assignment, 0⟩) _ _ (by simp [readSignal]) (by simp) Grouped.nil
  have swapped := irrelevant _ (List.Perm.swap _ _ _) grouped
  have lost : (pairDriven.resolveQueue [readSignal 1 "y", readSignal 0 "x"]).map
      (fun result => decide (NetlistEdge.Stated (result.graph.edgesBetween ⟨0, .assignment, 0⟩
        ⟨1, .assignment, 0⟩) "y" 0 {})) = some false := by decide
  have kept : (pairDriven.resolveQueue [readSignal 0 "x", readSignal 1 "y"]).map
      (fun result => decide (NetlistEdge.Stated (result.graph.edgesBetween ⟨0, .assignment, 0⟩
        ⟨1, .assignment, 0⟩) "y" 0 {})) = some true := by decide
  obtain ⟨first, firstEq, unstated⟩ := Option.map_eq_some_iff.mp lost
  obtain ⟨second, secondEq, stated⟩ := Option.map_eq_some_iff.mp kept
  rw [factsAfter, factsAfter, firstEq, secondEq] at swapped
  have same := Option.some.inj swapped
  have fact : NetlistEdge.Stated (first.graph.edgesBetween ⟨0, .assignment, 0⟩
        ⟨1, .assignment, 0⟩) "y" 0 {} ↔
      NetlistEdge.Stated (second.graph.edgesBetween ⟨0, .assignment, 0⟩
        ⟨1, .assignment, 0⟩) "y" 0 {} :=
    Set.ext_iff.mp same ⟨⟨0, .assignment, 0⟩, ⟨1, .assignment, 0⟩, "y", 0, {}⟩
  exact of_decide_eq_false unstated (fact.mpr (of_decide_eq_true stated))

end NetlistBuilder

end SlangNetlist
