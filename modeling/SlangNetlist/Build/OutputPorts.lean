import SlangNetlist.Build.SequentialWrites

/-!
# Output ports

The drivers of an interval are connected to one node of the output port, whose
bounds are those of the interval or contain them.  Other nodes of the port that
the interval overlaps are left without an edge.
-/

namespace SlangNetlist

namespace NetlistBuilder

/-- The bounds of the node contain the range. -/
def NodeContains (builder : NetlistBuilder) (bounds : DriverBitRange) (ref : NodeRef) : Prop :=
  ∃ own, builder.graph.getBounds ref = some own ∧ own.contains bounds = true

instance (builder : NetlistBuilder) (bounds : DriverBitRange) (ref : NodeRef) :
    Decidable (builder.NodeContains bounds ref) :=
  decidable_of_iff ((builder.graph.getBounds ref).any fun own => own.contains bounds) (by
    rw [Option.any_eq_true]
    rfl)

/-- The node is registered for exactly the range, or else is the first one that contains it. -/
def PortChosen (builder : NetlistBuilder) (port : Nat) (bounds : DriverBitRange)
    (portNode : NodeRef) : Prop :=
  builder.getVariable port bounds = some portNode ∨
  builder.getVariable port bounds = none ∧ builder.NodeContains bounds portNode ∧
    ∃ before after, builder.variableTracker.lookupAll port = before ++ portNode :: after ∧
      ∀ earlier ∈ before, ¬ builder.NodeContains bounds earlier

/-- A driver of the list and a node of the port whose bounds share a bit with the interval. -/
structure Overlapping (builder : NetlistBuilder) (port : Nat) (bounds : DriverBitRange)
    (drivers : DriverList) (source portNode : NodeRef) (bit : Int) : Prop where
  driver : some source ∈ drivers.nodes
  registered : portNode ∈ builder.variableTracker.lookupAll port
  own : ∃ own, builder.graph.getBounds portNode = some own ∧ bit ∈ own
  inside : bit ∈ bounds

/-- Every driver has edges to the nodes of the port that cover the bits shared with the interval. -/
def PortsCovered (builder : NetlistBuilder) (symbol : ValueSymbol) (port : Nat)
    (bounds : DriverBitRange) (drivers : DriverList) : Prop :=
  ∀ source portNode bit, builder.Overlapping port bounds drivers source portNode bit →
    (builder.hookupOutputPort symbol bounds drivers).graph.Carries source portNode
      symbol.hierarchicalPath bit

section Lemmas

variable {builder : NetlistBuilder} {symbol : ValueSymbol} {port : Nat} {bounds : DriverBitRange}
  {drivers : DriverList}

/-- The lookup of the port node, for a symbol with one port. -/
theorem outputPort_eq (single : symbol.portBackrefs = [port]) :
    builder.outputPort symbol bounds = (builder.getVariable port bounds).or
      ((builder.variableTracker.lookupAll port).find? fun ref =>
        builder.NodeContains bounds ref) := by
  have tests : ∀ ref, decide (builder.NodeContains bounds ref) =
      (builder.graph.getBounds ref).any fun own => own.contains bounds := by
    intro ref
    rw [Bool.eq_iff_iff, decide_eq_true_iff, Option.any_eq_true]
    rfl
  unfold outputPort
  rw [single]
  dsimp only
  congr 2
  funext ref
  rw [tests]
  cases builder.graph.getBounds ref <;> rfl

theorem outputPort_eq_some_iff (single : symbol.portBackrefs = [port]) {portNode : NodeRef} :
    builder.outputPort symbol bounds = some portNode ↔ builder.PortChosen port bounds portNode := by
  rw [outputPort_eq single, Option.or_eq_some_iff, List.find?_eq_some_iff_append, PortChosen]
  simp only [decide_eq_true_eq, Bool.not_eq_true', decide_eq_false_iff_not]

/-- The dependencies on the drivers of a list. -/
theorem graph_connectDrivers (builder : NetlistBuilder) (drivers : DriverList)
    (target : NodeRef) (symbol : ValueSymbol) (bounds : DriverBitRange)
    (semantics : EdgeSemantics) :
    (builder.connectDrivers drivers target symbol bounds semantics).graph =
      ((drivers.filterMap DriverInfo.node).map fun source =>
        { source := source, target := target, symbol := symbol.hierarchicalPath,
          bounds := bounds, semantics := semantics }).foldl
        NetlistGraph.addDependency builder.graph := by
  unfold connectDrivers
  induction drivers generalizing builder with
  | nil => rfl
  | cons driver rest ih =>
      rw [List.foldl_cons, ih]
      cases found : driver.node with
      | none => rw [List.filterMap_cons_none found]
      | some source =>
          rw [List.filterMap_cons_some found]
          rfl

/-- The target gets the symbol from each driver, on the bits of the bounds that are its own. -/
theorem carries_connectDrivers (builder : NetlistBuilder) (drivers : DriverList)
    (target : NodeRef) (symbol : ValueSymbol) (bounds : DriverBitRange)
    (semantics : EdgeSemantics) (source other : NodeRef) (bit : Int) :
    (builder.connectDrivers drivers target symbol bounds semantics).graph.Carries source other
        symbol.hierarchicalPath bit ↔
      builder.graph.Carries source other symbol.hierarchicalPath bit ∨
        (some source ∈ drivers.nodes ∧ target = other ∧
          bit ∈ NetlistGraph.clip (builder.graph.getBounds source) bounds) := by
  rw [graph_connectDrivers, NetlistGraph.carries_addDependencies (by
    intro dependency member
    obtain ⟨_, _, rfl⟩ := List.mem_map.mp member
    rfl)]
  refine or_congr_right ⟨?_, ?_⟩
  · rintro ⟨_, member, rfl, same, inside⟩
    obtain ⟨origin, originMem, rfl⟩ := List.mem_map.mp member
    exact ⟨DriverList.mem_nodes.mpr (List.mem_filterMap.mp originMem), same, inside⟩
  · rintro ⟨driver, same, inside⟩
    have origin := List.mem_filterMap.mpr (DriverList.mem_nodes.mp driver)
    exact ⟨_, List.mem_map_of_mem origin, rfl, same, inside⟩

theorem carries_hookupOutputPort (single : symbol.portBackrefs = [port]) (source other : NodeRef)
    (bit : Int) :
    (builder.hookupOutputPort symbol bounds drivers).graph.Carries source other
        symbol.hierarchicalPath bit ↔
      builder.graph.Carries source other symbol.hierarchicalPath bit ∨
        (some source ∈ drivers.nodes ∧ builder.PortChosen port bounds other ∧
          bit ∈ NetlistGraph.clip (builder.graph.getBounds source) bounds) := by
  rw [← outputPort_eq_some_iff single]
  unfold hookupOutputPort
  cases builder.outputPort symbol bounds with
  | none => simp
  | some portNode => simp [carries_connectDrivers]

end Lemmas

end NetlistBuilder

open NetlistBuilder

/--
All driven bits reach the port exactly if every overlapping bit is carried
already, or belongs to the one node that is chosen and is not clipped off by
the bounds of the driver.
-/
theorem portsCovered_iff (builder : NetlistBuilder) (symbol : ValueSymbol) (port : Nat)
    (single : symbol.portBackrefs = [port]) (bounds : DriverBitRange) (drivers : DriverList) :
    builder.PortsCovered symbol port bounds drivers ↔
      ∀ source portNode bit, builder.Overlapping port bounds drivers source portNode bit →
        builder.graph.Carries source portNode symbol.hierarchicalPath bit ∨
          (builder.PortChosen port bounds portNode ∧
            bit ∈ NetlistGraph.clip (builder.graph.getBounds source) bounds) := by
  unfold PortsCovered
  refine forall₄_congr fun source portNode bit overlapping => ?_
  rw [carries_hookupOutputPort single]
  simp only [overlapping.driver, true_and]

/-- The symbol of an output port of eight bits. -/
def splitSymbol : ValueSymbol where
  id := 1
  name := "y"
  hierarchicalPath := "m.y"
  selectableWidth := 8
  portBackrefs := [2]

/-- The port has a node for each half, and an assignment drives the whole of it. -/
def splitBuilder : NetlistBuilder where
  graph := {
    nodes := [
      { ref := ⟨0, .port, 0⟩, ID := 1, data := .port "y" "m.y" {} .outDir ⟨0, 3⟩ },
      { ref := ⟨0, .port, 1⟩, ID := 2, data := .port "y" "m.y" {} .outDir ⟨4, 7⟩ },
      { ref := ⟨1, .assignment, 0⟩, ID := 3, data := .assignment {} }] }
  variableTracker :=
    ((VariableTracker.insert {} 2 ⟨0, 3⟩ ⟨0, .port, 0⟩).insert 2 ⟨4, 7⟩ ⟨0, .port, 1⟩)

/-- Neither half contains the interval, so that the driver gets no edge to the port. -/
theorem splitBuilder_uncovered :
    ¬ splitBuilder.PortsCovered splitSymbol 2 ⟨0, 7⟩ [{ node := some ⟨1, .assignment, 0⟩ }] := by
  intro covered
  have carried := covered ⟨1, .assignment, 0⟩ ⟨0, .port, 0⟩ 0
    ⟨by decide, by decide, ⟨⟨0, 3⟩, by decide⟩, by decide⟩
  exact absurd carried (by decide)

theorem portsCovered_iff_split :
    splitBuilder.PortsCovered splitSymbol 2 ⟨0, 7⟩ [{ node := some ⟨1, .assignment, 0⟩ }] ↔
      ∀ source portNode bit, splitBuilder.Overlapping 2 ⟨0, 7⟩
          [{ node := some ⟨1, .assignment, 0⟩ }] source portNode bit →
        splitBuilder.graph.Carries source portNode splitSymbol.hierarchicalPath bit ∨
          (splitBuilder.PortChosen 2 ⟨0, 7⟩ portNode ∧
            bit ∈ NetlistGraph.clip (splitBuilder.graph.getBounds source) ⟨0, 7⟩) :=
  portsCovered_iff splitBuilder splitSymbol 2 rfl ⟨0, 7⟩ _

end SlangNetlist
