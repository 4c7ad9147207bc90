import SlangNetlist.Analysis.HandleRvalue
import SlangNetlist.Query.DriverQueries
import SlangNetlist.Tracking.DriverMapInvariant

/-!
# How precise the edges of a read are

The edges of a read carry the whole range of the read, so an edge is precise
only when its definition covers the read.
-/

namespace SlangNetlist

open Library

namespace NetlistGraph

/-- A query at the bit reports the source. -/
def Reports (graph : NetlistGraph) (name : String) (bit : Int) (source : NodeRef) : Prop :=
  source ∈ graph.getDrivers name ⟨bit, bit⟩ ∨
    ∃ addresses range, (range, source) ∈ graph.getBitDrivers addresses name ⟨bit, bit⟩

theorem reports_iff {graph : NetlistGraph} {name : String} {bit : Int} {source : NodeRef} :
    graph.Reports name bit source ↔
      graph.HasNode source ∧ ∃ target, graph.Carries source target name bit := by
  simp only [Reports, mem_getBitDrivers, exists_const, or_self, mem_getDrivers]

end NetlistGraph

namespace DriverMap

/-- The dependency carries the common bits of the read and of a definition that its source drives. -/
def CarriesDefinition (definitions : DriverMap) (bounds : DriverBitRange)
    (dependency : Dependency) : Prop :=
  ∃ entry ∈ definitions.find bounds,
    (∃ list, definitions.getDriverList entry.value = some list ∧
      some dependency.source ∈ list.nodes) ∧
    ∀ bit, bit ∈ dependency.bounds ↔ bit ∈ bounds ∧ entry.Covers bit

/-- A definition with a driver lies inside the read and does not cover it. -/
def PartlyDefined (definitions : DriverMap) (bounds : DriverBitRange) : Prop :=
  ∃ entry ∈ definitions.find bounds, entry.Inside bounds.lower bounds.upper ∧
    ¬ CoversRead entry bounds ∧
      ∃ list source, definitions.getDriverList entry.value = some list ∧ some source ∈ list.nodes

end DriverMap

namespace DataFlowAnalysis

variable {dfa : DataFlowAnalysis} {symbol : ValueSymbol} {lsp : Nat} {bounds : DriverBitRange}
  {node : NodeRef} {calls : List BuilderCall}

/--
The edges of a read are precise: each carries a definition, and a query at a
bit reports no more than before and the drivers of the bit.
-/
structure PreciseRead (dfa : DataFlowAnalysis) (symbol : ValueSymbol) (bounds : DriverBitRange)
    (graph : NetlistGraph) (calls : List BuilderCall) : Prop where
  carried : ∀ dependency, .addDependency dependency ∈ calls →
    (dfa.definitions symbol).CarriesDefinition bounds dependency
  reported : ∀ bit source,
    (linkedGraph graph calls).Reports symbol.hierarchicalPath bit source →
      graph.Reports symbol.hierarchicalPath bit source ∨
        (dfa.definitions symbol).Drives bit (some source)

/-- A definition that covers the read has its common bits on the edge. -/
theorem mem_iff_of_coversRead {entry : Interval Nat} (covers : CoversRead entry bounds)
    (bit : Int) : bit ∈ bounds ↔ bit ∈ bounds ∧ entry.Covers bit := by
  refine ⟨fun inside => ⟨inside, ?_⟩, fun both => both.1⟩
  simp only [CoversRead, Interval.Covers, DriverBitRange.mem_iff] at *
  omega

/-- A definition that has all bits of the read covers it. -/
theorem coversRead_of_mem {entry : Interval Nat}
    (whole : ∀ bit, bit ∈ bounds ↔ bit ∈ bounds ∧ entry.Covers bit) :
    CoversRead entry bounds := by
  have low := ((whole bounds.lower).mp ⟨le_rfl, bounds.lower_le_upper⟩).2
  have high := ((whole bounds.upper).mp ⟨bounds.lower_le_upper, le_rfl⟩).2
  exact ⟨low.1, high.2⟩

theorem ReadCalls.carried_iff (read : dfa.ReadCalls symbol lsp bounds node calls)
    (ordered : (dfa.definitions symbol).driverIntervals.Ordered) :
    (∀ dependency, .addDependency dependency ∈ calls →
      (dfa.definitions symbol).CarriesDefinition bounds dependency) ↔
      ¬ (dfa.definitions symbol).PartlyDefined bounds := by
  constructor
  · rintro carried ⟨entry, entryMem, inside, uncovered, list, source, listed, driven⟩
    obtain ⟨other, otherMem, _, whole⟩ := carried _ ((read.linked
      { source := source, target := node, symbol := symbol.hierarchicalPath,
        bounds := bounds,
        semantics := { role := dfa.dependencyRole, precision := dfa.dependencyPrecision } }).mpr
      ⟨⟨entry, entryMem, Or.inr inside, list, listed, driven⟩, rfl⟩)
    have covers := coversRead_of_mem whole
    exact uncovered (alone_of_coversRead ordered otherMem covers entryMem ▸ covers)
  · intro whole dependency member
    obtain ⟨⟨entry, entryMem, relevant, list, listed, driven⟩, same⟩ :=
      (read.linked dependency).mp member
    have covers : CoversRead entry bounds := by
      by_contra uncovered
      rcases relevant with covers | inside
      · exact uncovered covers
      · exact whole ⟨entry, entryMem, inside, uncovered, list, _, listed, driven⟩
    refine ⟨entry, entryMem, ⟨list, listed, driven⟩, ?_⟩
    rw [same]
    exact mem_iff_of_coversRead covers

/-- Edges that carry their definitions add no wrong driver to a query. -/
theorem ReadCalls.reports (read : dfa.ReadCalls symbol lsp bounds node calls)
    (carried : ∀ dependency, .addDependency dependency ∈ calls →
      (dfa.definitions symbol).CarriesDefinition bounds dependency)
    (graph : NetlistGraph) {bit : Int} {source : NodeRef}
    (reported : (linkedGraph graph calls).Reports symbol.hierarchicalPath bit source) :
    graph.Reports symbol.hierarchicalPath bit source ∨
      (dfa.definitions symbol).Drives bit (some source) := by
  rw [NetlistGraph.reports_iff] at reported ⊢
  obtain ⟨present, target, carries⟩ := reported
  rw [linkedGraph, NetlistGraph.carries_addDependencies
    (fun dependency member => (read.shape member).2.2.1)] at carries
  rcases carries with before | ⟨dependency, member, rfl, _, inside⟩
  · refine Or.inl ⟨?_, target, before⟩
    simpa [NetlistGraph.HasNode, linkedGraph] using present
  · obtain ⟨entry, entryMem, ⟨list, listed, driven⟩, whole⟩ :=
      carried dependency (BuilderCall.mem_dependencies.mp member)
    have covers := ((whole bit).mp (NetlistGraph.mem_of_mem_clip inside)).2
    exact Or.inr ⟨entry, (IntervalMap.mem_find.mp entryMem).1, covers, list, listed, driven⟩

/--
With a current node and disjoint definitions, the edges of `handleRvalue` are
precise if and only if no definition with a driver lies properly inside the read.
-/
theorem handleRvalue_precise_iff (dfa : DataFlowAnalysis) (graph : NetlistGraph)
    (symbol : ValueSymbol) (lsp : Nat) (bounds : DriverBitRange) (node : NodeRef)
    (current : dfa.state.node = some node)
    (ordered : (dfa.definitions symbol).driverIntervals.Ordered)
    (live : ∀ entry ∈ (dfa.definitions symbol).driverIntervals.entries,
      (dfa.definitions symbol).Live entry) :
    ∃ calls, dfa.handleRvalue symbol lsp bounds = some (dfa.appendCalls calls) ∧
      (dfa.PreciseRead symbol bounds graph calls ↔
        ¬ (dfa.definitions symbol).PartlyDefined bounds) := by
  obtain ⟨calls, handled, read⟩ := handleRvalue_spec ordered current lsp bounds
    fun entry found => live entry (IntervalMap.mem_find.mp found).1
  refine ⟨calls, handled, fun precise => (read.carried_iff ordered).mp precise.carried,
    fun whole => ?_⟩
  have carried := (read.carried_iff ordered).mpr whole
  exact ⟨carried, fun _ _ reported => read.reports carried graph reported⟩

/-- The read of `t[1:0]` after `t[3:0]`: the definition covers the read. -/
theorem handleRvalue_precise_iff_narrow :
    ∃ calls, lowerHalfDefined.handleRvalue signal 0 ⟨1, 0⟩ =
        some (lowerHalfDefined.appendCalls calls) ∧
      (lowerHalfDefined.PreciseRead signal ⟨1, 0⟩ {} calls ↔
        ¬ (lowerHalfDefined.definitions signal).PartlyDefined ⟨1, 0⟩) :=
  handleRvalue_precise_iff lowerHalfDefined {} signal 0 ⟨1, 0⟩ ⟨0, .assignment, 1⟩ rfl
    lowerHalfDefined_ordered lowerHalfDefined_live

/-- The nodes 0 and 1 of `lowerHalfDefined`. -/
def halvesNetlist : NetlistGraph where
  nodes := [
    { ref := ⟨0, .assignment, 0⟩, ID := 1, data := .assignment {} },
    { ref := ⟨0, .assignment, 1⟩, ID := 2, data := .assignment {} }]

/-- The read of `t[7:0]` after `t[3:0]` reports the driver of `t[3:0]` at the bit 7. -/
theorem handleRvalue_imprecise :
    ∃ calls, lowerHalfDefined.handleRvalue signal 0 ⟨7, 0⟩ =
        some (lowerHalfDefined.appendCalls calls) ∧
      ⟨0, .assignment, 0⟩ ∈ (linkedGraph halvesNetlist calls).getDrivers "m.t" ⟨7, 7⟩ ∧
      ¬ (lowerHalfDefined.definitions signal).Drives 7 (some ⟨0, .assignment, 0⟩) ∧
      ¬ lowerHalfDefined.PreciseRead signal ⟨7, 0⟩ halvesNetlist calls := by
  have undriven : ¬ (lowerHalfDefined.definitions signal).Drives 7 (some ⟨0, .assignment, 0⟩) := by
    rw [← DriverMap.mem_driversAt lowerHalfDefined_ordered]
    decide +kernel
  refine ⟨[
    .addDependency
      { source := ⟨0, .assignment, 0⟩, target := ⟨0, .assignment, 1⟩, symbol := "m.t",
        bounds := ⟨7, 0⟩ },
    .addRvalue signal 0 ⟨4, 7⟩ (some ⟨0, .assignment, 1⟩) .data .range],
    rfl, by decide +kernel, undriven, fun precise => ?_⟩
  rcases precise.reported 7 ⟨0, .assignment, 0⟩ (Or.inl (by decide +kernel)) with before | driven
  · rw [NetlistGraph.reports_iff] at before
    obtain ⟨_, _, edge, member, _⟩ := before
    simp [NetlistGraph.edgesBetween, halvesNetlist] at member
  · exact undriven driven

end DataFlowAnalysis

end SlangNetlist
