import SlangNetlist.Analysis.DataFlowAnalysis

/-!
# Reads inside a block

What `handleRvalue` sends to the builder: edges from the drivers of the
definitions that cover the read or lie inside it, and the parts of the read that
no definition covers.
-/

namespace SlangNetlist

open Library

namespace BuilderCall

/-- The dependency that a call adds, if it is such a call. -/
def dependency? : BuilderCall → Option Dependency
  | .addDependency dependency => some dependency
  | _ => none

/-- The annotated dependencies of a list of calls, in order. -/
def dependencies (calls : List BuilderCall) : List Dependency :=
  calls.filterMap dependency?

theorem mem_dependencies {calls : List BuilderCall} {dependency : Dependency} :
    dependency ∈ dependencies calls ↔ .addDependency dependency ∈ calls := by
  simp only [dependencies, List.mem_filterMap]
  constructor
  · rintro ⟨builderCall, member, found⟩
    cases builderCall <;> cases found
    exact member
  · exact fun member => ⟨_, member, rfl⟩

end BuilderCall

namespace DataFlowAnalysis

/-- Append calls to the list of recorded calls. -/
def appendCalls (dfa : DataFlowAnalysis) (calls : List BuilderCall) : DataFlowAnalysis :=
  { dfa with calls := dfa.calls ++ calls }

@[simp] theorem appendCalls_nil (dfa : DataFlowAnalysis) : dfa.appendCalls [] = dfa := by
  simp [appendCalls]

@[simp] theorem appendCalls_appendCalls (dfa : DataFlowAnalysis)
    (first second : List BuilderCall) :
    (dfa.appendCalls first).appendCalls second = dfa.appendCalls (first ++ second) := by
  simp [appendCalls]

theorem appendCalls_inj {dfa : DataFlowAnalysis} {calls others : List BuilderCall}
    (same : dfa.appendCalls calls = dfa.appendCalls others) : calls = others :=
  List.append_cancel_left (congrArg (·.calls) same)

/-- The calls of `addDriversToNode`. -/
def driverCalls (dfa : DataFlowAnalysis) (drivers : DriverList) (node : NodeRef)
    (symbol : String) (bounds : DriverBitRange) : List BuilderCall :=
  drivers.filterMap fun driver => driver.node.map fun source =>
    .addDependency
      { source := source, target := node, symbol := symbol, bounds := bounds,
        semantics := { role := dfa.dependencyRole, precision := dfa.dependencyPrecision } }

theorem addDriversToNode_eq (dfa : DataFlowAnalysis) (drivers : DriverList) (node : NodeRef)
    (symbol : String) (bounds : DriverBitRange) :
    dfa.addDriversToNode drivers node symbol bounds =
      dfa.appendCalls (dfa.driverCalls drivers node symbol bounds) := by
  unfold addDriversToNode
  induction drivers generalizing dfa with
  | nil => simp [driverCalls]
  | cons driver rest ih =>
      rw [List.foldl_cons, ih]
      cases found : driver.node <;> simp [driverCalls, found, call, appendCalls]

theorem mem_driverCalls {dfa : DataFlowAnalysis} {drivers : DriverList} {node : NodeRef}
    {symbol : String} {bounds : DriverBitRange} {builderCall : BuilderCall} :
    builderCall ∈ dfa.driverCalls drivers node symbol bounds ↔
      ∃ source, some source ∈ drivers.nodes ∧
        builderCall = .addDependency
          { source := source, target := node, symbol := symbol, bounds := bounds,
            semantics := { role := dfa.dependencyRole, precision := dfa.dependencyPrecision } } := by
  simp only [driverCalls, List.mem_filterMap, Option.map_eq_some_iff, DriverList.mem_nodes]
  constructor
  · rintro ⟨info, infoMem, source, found, rfl⟩
    exact ⟨source, ⟨info, infoMem, found⟩, rfl⟩
  · rintro ⟨source, ⟨info, infoMem, found⟩, rfl⟩
    exact ⟨info, infoMem, source, found, rfl⟩

end DataFlowAnalysis

/-- The definition covers the whole read. -/
def CoversRead (entry : Interval Nat) (bounds : DriverBitRange) : Prop :=
  entry.first ≤ bounds.lower ∧ bounds.upper ≤ entry.second

instance (entry : Interval Nat) (bounds : DriverBitRange) : Decidable (CoversRead entry bounds) :=
  inferInstanceAs (Decidable (_ ∧ _))

/-- The definition meets the read, but neither covers it nor lies inside it. -/
def OverOneEnd (entry : Interval Nat) (bounds : DriverBitRange) : Prop :=
  entry.Overlaps bounds.lower bounds.upper ∧ ¬ CoversRead entry bounds ∧
    ¬ entry.Inside bounds.lower bounds.upper

instance (entry : Interval Nat) (bounds : DriverBitRange) : Decidable (OverOneEnd entry bounds) :=
  inferInstanceAs (Decidable (_ ∧ _))

namespace DriverMap

/-- Some definition that covers the read or lies inside it is driven by the node. -/
def Linked (definitions : DriverMap) (bounds : DriverBitRange) (source : NodeRef) : Prop :=
  ∃ entry ∈ definitions.find bounds,
    (CoversRead entry bounds ∨ entry.Inside bounds.lower bounds.upper) ∧
      ∃ list, definitions.getDriverList entry.value = some list ∧ some source ∈ list.nodes

/-- The bits that `handleRvalue` passes to `addRvalue`. -/
def Pended (definitions : DriverMap) (bounds : DriverBitRange) (bit : Int) : Prop :=
  bit ∈ bounds ∧ (∀ entry ∈ definitions.find bounds, ¬ CoversRead entry bounds) ∧
    (¬ definitions.driverIntervals.Covers bit ∨
      (bit = bounds.upper ∧ IntervalMapUtils.EndsBelow definitions.driverIntervals.entries
        bounds.lower bounds.upper))

end DriverMap

namespace DataFlowAnalysis

/-- The definitions of a symbol in the current state. -/
def definitions (dfa : DataFlowAnalysis) (symbol : ValueSymbol) : DriverMap :=
  dfa.valueTracker.driverMap dfa.state.valueDrivers symbol

/-- The calls of the loop over the definitions. -/
theorem linkDefinitions_spec {definitions : DriverMap} (symbol : String)
    (bounds : DriverBitRange) (node : NodeRef) (dfa : DataFlowAnalysis)
    {entries : List (Interval Nat)} (live : ∀ entry ∈ entries, definitions.Live entry)
    (alone : ∀ entry ∈ entries, CoversRead entry bounds → ∀ other ∈ entries, other = entry) :
    ∃ links, linkDefinitions definitions symbol bounds node dfa entries =
        some (dfa.appendCalls links, decide (∃ entry ∈ entries, CoversRead entry bounds)) ∧
      ∀ builderCall, builderCall ∈ links ↔ ∃ entry ∈ entries,
        (CoversRead entry bounds ∨ entry.Inside bounds.lower bounds.upper) ∧
          ∃ list, definitions.getDriverList entry.value = some list ∧
            builderCall ∈ dfa.driverCalls list node symbol bounds := by
  induction entries generalizing dfa with
  | nil => exact ⟨[], by simp [linkDefinitions], by simp⟩
  | cons entry rest ih =>
      obtain ⟨list, listed⟩ := live entry List.mem_cons_self
      have restLive := fun other otherMem => live other (List.mem_cons_of_mem entry otherMem)
      have restAlone : ∀ other ∈ rest, CoversRead other bounds → ∀ third ∈ rest,
          third = other :=
        fun other otherMem covers third thirdMem => alone other
          (List.mem_cons_of_mem _ otherMem) covers third (List.mem_cons_of_mem _ thirdMem)
      by_cases covers : CoversRead entry bounds
      · refine ⟨dfa.driverCalls list node symbol bounds, ?_, ?_⟩
        · have covers' := covers
          unfold CoversRead at covers'
          simp [linkDefinitions, listed, covers', addDriversToNode_eq, covers]
        · intro builderCall
          constructor
          · intro member
            exact ⟨entry, List.mem_cons_self, Or.inl covers, list, listed, member⟩
          · rintro ⟨other, otherMem, _, found, foundEq, member⟩
            cases alone entry List.mem_cons_self covers other otherMem
            rw [listed] at foundEq
            cases foundEq
            exact member
      · have uncovered : ¬ (entry.first ≤ bounds.lower ∧ bounds.upper ≤ entry.second) := covers
        by_cases inside : entry.Inside bounds.lower bounds.upper
        · obtain ⟨links, looped, members⟩ := ih
            (dfa.appendCalls (dfa.driverCalls list node symbol bounds)) restLive restAlone
          refine ⟨dfa.driverCalls list node symbol bounds ++ links, ?_, ?_⟩
          · simp only [linkDefinitions, listed, Option.bind_eq_bind, Option.bind_some, uncovered,
              if_false, inside, if_true, addDriversToNode_eq, looped, appendCalls_appendCalls,
              List.mem_cons, exists_eq_or_imp, covers, false_or]
          · intro builderCall
            simp only [List.mem_append, members builderCall, List.mem_cons, exists_eq_or_imp,
              covers, inside, or_true, true_and, listed, Option.some.injEq, exists_eq_left']
            rfl
        · obtain ⟨links, looped, members⟩ := ih dfa restLive restAlone
          refine ⟨links, ?_, ?_⟩
          · simp only [linkDefinitions, listed, Option.bind_eq_bind, Option.bind_some, uncovered,
              if_false, inside, looped, List.mem_cons, exists_eq_or_imp, covers, false_or]
          · intro builderCall
            simp only [members builderCall, List.mem_cons, exists_eq_or_imp, covers, inside,
              false_or, or_self, false_and]

/-- The definitions are those of the slot, or none. -/
theorem definitions_eq (dfa : DataFlowAnalysis) (symbol : ValueSymbol) :
    dfa.definitions symbol = (((dfa.valueTracker.getSlot symbol).bind fun slot =>
      dfa.state.valueDrivers[slot]?).getD {}) := by
  unfold definitions ValueTracker.driverMap
  cases dfa.valueTracker.getSlot symbol <;> rfl

/-- The calls that pass the parts of a read to `addRvalue`. -/
def rvalueCalls (dfa : DataFlowAnalysis) (symbol : ValueSymbol) (lsp : Nat) (node : NodeRef)
    (parts : List (Interval Nat)) : List BuilderCall :=
  parts.map fun part => .addRvalue symbol lsp ⟨part.first, part.second⟩ (some node)
    dfa.dependencyRole dfa.dependencyPrecision

theorem foldl_addRvalue (dfa : DataFlowAnalysis) (symbol : ValueSymbol) (lsp : Nat)
    (node : NodeRef) (parts : List (Interval Nat)) :
    parts.foldl (fun dfa part => dfa.addRvalue symbol lsp ⟨part.first, part.second⟩ (some node))
        dfa = dfa.appendCalls (dfa.rvalueCalls symbol lsp node parts) := by
  induction parts generalizing dfa with
  | nil => simp [rvalueCalls]
  | cons part rest ih =>
      rw [List.foldl_cons, ih]
      simp [rvalueCalls, addRvalue, call, appendCalls]

theorem covers_undefinedParts {definitions : DriverMap}
    (ordered : definitions.driverIntervals.Ordered) (bounds : DriverBitRange) (bit : Int) :
    (∃ part ∈ undefinedParts definitions bounds, part.Covers bit) ↔
      bit ∈ bounds ∧ (¬ definitions.driverIntervals.Covers bit ∨
        (bit = bounds.upper ∧ IntervalMapUtils.EndsBelow definitions.driverIntervals.entries
          bounds.lower bounds.upper)) := by
  have covers := IntervalMapUtils.covers_difference_single ordered bounds.lower bounds.upper
    0 bit
  rw [DriverBitRange.mem_iff, and_assoc]
  exact covers

theorem mem_part {definitions : DriverMap} {bounds : DriverBitRange} {part : Interval Nat}
    (partMem : part ∈ undefinedParts definitions bounds) {bit : Int} :
    bit ∈ (⟨part.first, part.second⟩ : DriverBitRange) ↔ part.Covers bit := by
  have proper : part.first ≤ part.second :=
    IntervalMapUtils.proper_difference_single _ bounds.lower_le_upper 0 part partMem
  rw [DriverBitRange.mem_iff, DriverBitRange.lower_mk proper, DriverBitRange.upper_mk proper]
  rfl

/-- The calls of `handleRvalue` for a current node. -/
structure ReadCalls (dfa : DataFlowAnalysis) (symbol : ValueSymbol) (lsp : Nat)
    (bounds : DriverBitRange) (node : NodeRef) (calls : List BuilderCall) : Prop where
  linked : ∀ dependency, .addDependency dependency ∈ calls ↔
    (dfa.definitions symbol).Linked bounds dependency.source ∧
      dependency =
        { source := dependency.source, target := node, symbol := symbol.hierarchicalPath,
          bounds := bounds,
          semantics := { role := dfa.dependencyRole, precision := dfa.dependencyPrecision } }
  pended : ∀ bit, (∃ range,
    .addRvalue symbol lsp range (some node) dfa.dependencyRole dfa.dependencyPrecision ∈ calls ∧
      bit ∈ range) ↔ (dfa.definitions symbol).Pended bounds bit

/-- At most one definition covers a read, and then no other one meets it. -/
theorem alone_of_coversRead {definitions : DriverMap}
    (ordered : definitions.driverIntervals.Ordered) {bounds : DriverBitRange}
    {entry other : Interval Nat} (entryMem : entry ∈ definitions.find bounds)
    (covers : CoversRead entry bounds) (otherMem : other ∈ definitions.find bounds) :
    other = entry := by
  obtain ⟨entryMem, _⟩ := IntervalMap.mem_find.mp entryMem
  obtain ⟨otherMem, overlaps⟩ := IntervalMap.mem_find.mp otherMem
  by_contra ne
  have apart := ordered.apart otherMem entryMem ne
  have := ordered.proper other otherMem
  simp only [Interval.Apart, Interval.Overlaps, CoversRead] at *
  omega

/-- With a current node, `handleRvalue` only makes calls. -/
theorem handleRvalue_spec {dfa : DataFlowAnalysis} {symbol : ValueSymbol}
    (ordered : (dfa.definitions symbol).driverIntervals.Ordered)
    {node : NodeRef} (current : dfa.state.node = some node) (lsp : Nat)
    (bounds : DriverBitRange)
    (live : ∀ entry ∈ (dfa.definitions symbol).find bounds, (dfa.definitions symbol).Live entry) :
    ∃ calls, dfa.handleRvalue symbol lsp bounds = some (dfa.appendCalls calls) ∧
      dfa.ReadCalls symbol lsp bounds node calls := by
  unfold handleRvalue
  cases slot : (dfa.valueTracker.getSlot symbol).bind fun slot =>
      dfa.state.valueDrivers[slot]? with
  | none =>
      have empty : dfa.definitions symbol = {} := by rw [definitions_eq, slot]; rfl
      refine ⟨[.addRvalue symbol lsp bounds (some node) dfa.dependencyRole
        dfa.dependencyPrecision], ?_, ⟨?_, ?_⟩⟩
      · simp [addRvalue, call, appendCalls, current]
      · intro dependency
        simp [empty, DriverMap.Linked, DriverMap.find, IntervalMap.find, IntervalMap.nil]
      · intro bit
        simp [empty, DriverMap.Pended, DriverMap.find, IntervalMap.find, IntervalMap.nil,
          IntervalMap.Covers]
  | some definitions =>
      have same : dfa.definitions symbol = definitions := by rw [definitions_eq, slot]; rfl
      rw [same] at ordered live
      have alone : ∀ entry ∈ definitions.find bounds, CoversRead entry bounds →
          ∀ other ∈ definitions.find bounds, other = entry :=
        fun entry entryMem covers other otherMem =>
          alone_of_coversRead ordered entryMem covers otherMem
      obtain ⟨links, looped, members⟩ :=
        linkDefinitions_spec symbol.hierarchicalPath bounds node dfa live alone
      have linked : ∀ dependency, .addDependency dependency ∈ links ↔
          definitions.Linked bounds dependency.source ∧
            dependency =
              { source := dependency.source, target := node, symbol := symbol.hierarchicalPath,
                bounds := bounds,
                semantics :=
                  { role := dfa.dependencyRole, precision := dfa.dependencyPrecision } } := by
        intro dependency
        rw [members]
        simp only [mem_driverCalls, BuilderCall.addDependency.injEq]
        constructor
        · rintro ⟨entry, entryMem, relevant, list, listed, source, driven, rfl⟩
          exact ⟨⟨entry, entryMem, relevant, list, listed, driven⟩, rfl⟩
        · rintro ⟨⟨entry, entryMem, relevant, list, listed, driven⟩, same⟩
          exact ⟨entry, entryMem, relevant, list, listed, _, driven, same⟩
      have noRvalue : ∀ range, .addRvalue symbol lsp range (some node) dfa.dependencyRole
          dfa.dependencyPrecision ∉ links := by
        intro range member
        rw [members] at member
        obtain ⟨_, _, _, _, _, inCalls⟩ := member
        obtain ⟨_, _, impossible⟩ := mem_driverCalls.mp inCalls
        cases impossible
      by_cases covered : ∃ entry ∈ definitions.find bounds, CoversRead entry bounds
      · refine ⟨links, by simp [current, looped, covered], ?_, ?_⟩
        · rw [same]
          exact linked
        · intro bit
          obtain ⟨entry, entryMem, covers⟩ := covered
          rw [same]
          constructor
          · rintro ⟨range, member, _⟩
            exact absurd member (noRvalue range)
          · rintro ⟨_, uncovered, _⟩
            exact absurd covers (uncovered entry entryMem)
      · refine ⟨links ++ dfa.rvalueCalls symbol lsp node (undefinedParts definitions bounds),
          ?_, ?_, ?_⟩
        · simp only [current, looped, covered, Option.bind_eq_bind, Option.bind_some,
            decide_false, Bool.false_eq_true, if_false, foldl_addRvalue]
          exact congrArg some (appendCalls_appendCalls dfa links _)
        · rw [same]
          intro dependency
          rw [List.mem_append, linked]
          simp [rvalueCalls]
        · intro bit
          rw [same]
          have parts := covers_undefinedParts ordered bounds bit
          constructor
          · rintro ⟨range, member, inside⟩
            rcases List.mem_append.mp member with inLinks | inParts
            · exact absurd inLinks (noRvalue range)
            · obtain ⟨part, partMem, callEq⟩ := List.mem_map.mp inParts
              cases callEq
              obtain ⟨bitMem, open_⟩ := parts.mp ⟨part, partMem, (mem_part partMem).mp inside⟩
              exact ⟨bitMem, fun entry entryMem covers => covered ⟨entry, entryMem, covers⟩,
                open_⟩
          · rintro ⟨bitMem, _, open_⟩
            obtain ⟨part, partMem, covers⟩ := parts.mpr ⟨bitMem, open_⟩
            exact ⟨⟨part.first, part.second⟩,
              List.mem_append_right _ (List.mem_map.mpr ⟨part, partMem, rfl⟩),
              (mem_part partMem).mpr covers⟩

/-- The loop over the definitions looks up their lists, up to one that covers the read. -/
theorem live_of_linkDefinitions {definitions : DriverMap} {symbol : String}
    {bounds : DriverBitRange} {node : NodeRef} {dfa : DataFlowAnalysis}
    {entries : List (Interval Nat)} {linked : DataFlowAnalysis × Bool}
    (links : linkDefinitions definitions symbol bounds node dfa entries = some linked)
    (alone : ∀ entry ∈ entries, CoversRead entry bounds → ∀ other ∈ entries, other = entry) :
    ∀ entry ∈ entries, definitions.Live entry := by
  induction entries generalizing dfa with
  | nil => exact fun _ member => absurd member List.not_mem_nil
  | cons entry rest ih =>
      have restAlone : ∀ other ∈ rest, CoversRead other bounds → ∀ third ∈ rest,
          third = other :=
        fun other otherMem covers third thirdMem => alone other
          (List.mem_cons_of_mem _ otherMem) covers third (List.mem_cons_of_mem _ thirdMem)
      simp only [linkDefinitions, Option.bind_eq_bind, Option.bind_eq_some_iff] at links
      obtain ⟨list, listed, links⟩ := links
      intro other otherMem
      by_cases same : other = entry
      · exact ⟨list, same ▸ listed⟩
      · have later := (List.mem_cons.mp otherMem).resolve_left same
        split at links
        · next covers => exact absurd (alone entry List.mem_cons_self covers other otherMem) same
        · split at links <;> exact ih links restAlone other later

/-- A read that succeeds finds live lists. -/
theorem live_of_handleRvalue {dfa next : DataFlowAnalysis} {symbol : ValueSymbol}
    (ordered : (dfa.definitions symbol).driverIntervals.Ordered) {node : NodeRef}
    (current : dfa.state.node = some node) {lsp : Nat} {bounds : DriverBitRange}
    (handled : dfa.handleRvalue symbol lsp bounds = some next) :
    ∀ entry ∈ (dfa.definitions symbol).find bounds, (dfa.definitions symbol).Live entry := by
  unfold handleRvalue at handled
  rw [definitions_eq] at ordered ⊢
  cases slot : (dfa.valueTracker.getSlot symbol).bind fun slot =>
      dfa.state.valueDrivers[slot]? with
  | none => simp [DriverMap.find, IntervalMap.find, IntervalMap.nil]
  | some definitions =>
      rw [slot] at ordered
      simp only [slot, current, Option.bind_eq_bind, Option.bind_eq_some_iff] at handled
      obtain ⟨linked, links, _⟩ := handled
      exact live_of_linkDefinitions links fun entry entryMem covers other otherMem =>
        alone_of_coversRead ordered entryMem covers otherMem

/-- The edges of a graph after a list of calls of the analysis. -/
def linkedGraph (graph : NetlistGraph) (calls : List BuilderCall) : NetlistGraph :=
  (BuilderCall.dependencies calls).foldl NetlistGraph.addDependency graph

/-- The dependencies of a read. -/
theorem ReadCalls.shape {dfa : DataFlowAnalysis} {symbol : ValueSymbol} {lsp : Nat}
    {bounds : DriverBitRange} {node : NodeRef} {calls : List BuilderCall}
    (read : dfa.ReadCalls symbol lsp bounds node calls)
    {dependency : Dependency} (member : dependency ∈ BuilderCall.dependencies calls) :
    (dfa.definitions symbol).Linked bounds dependency.source ∧ dependency.target = node ∧
      dependency.symbol = symbol.hierarchicalPath ∧ dependency.bounds = bounds := by
  obtain ⟨linked, same⟩ := (read.linked dependency).mp (BuilderCall.mem_dependencies.mp member)
  rw [same]
  exact ⟨linked, rfl, rfl, rfl⟩

/-- The signal `t`. -/
def signal : ValueSymbol := { id := 0, name := "t", hierarchicalPath := "m.t" }

/-- `t[3:0]` has been assigned by the node 0, and the node 1 is current. -/
def lowerHalfDefined : DataFlowAnalysis where
  serial := 2
  valueTracker := ⟨[signal]⟩
  state := {
    valueDrivers := [{
      driverIntervals := ⟨[⟨0, 3, 0⟩]⟩
      driverLists := { slots := [some [{ node := some ⟨0, .assignment, 0⟩ }]] } }]
    node := some ⟨0, .assignment, 1⟩ }

theorem lowerHalfDefined_ordered :
    (lowerHalfDefined.definitions signal).driverIntervals.Ordered :=
  ⟨List.pairwise_singleton _ _, by decide⟩

theorem lowerHalfDefined_live :
    ∀ entry ∈ (lowerHalfDefined.definitions signal).driverIntervals.entries,
      (lowerHalfDefined.definitions signal).Live entry := by
  intro entry entryMem
  rw [show (lowerHalfDefined.definitions signal).driverIntervals.entries = [⟨0, 3, 0⟩] from rfl,
    List.mem_singleton] at entryMem
  exact entryMem ▸ ⟨_, rfl⟩

end DataFlowAnalysis

end SlangNetlist
