import SlangNetlist.Graph.GraphRuns

/-!
# Driver queries

The drivers of a symbol are the sources of the edges that carry it.
-/

namespace SlangNetlist

open Library

/-- The addresses of the nodes, by which pointers to them are compared. -/
abbrev Addresses := NodeRef → Nat

namespace NetlistGraph

/-- The edges with the symbol, in the order of the loops over nodes and out-edges. -/
def edgesOfSymbol (graph : NetlistGraph) (name : String) : List NetlistEdge :=
  (graph.nodes.flatMap fun node => graph.outEdges node.ref).filter fun edge =>
    edge.symbol = some name

/-- The sources of edges with the symbol on an overlapping range, each once. -/
def getDrivers (graph : NetlistGraph) (name : String) (bounds : DriverBitRange) : List NodeRef :=
  (((graph.edgesOfSymbol name).filter fun edge => edge.bounds.overlaps bounds).map
    NetlistEdge.source).eraseDups

/-- The order of the tuples of the lower end, the upper end and the driver. -/
def keyLe (addresses : Addresses) (first second : DriverBitRange × NodeRef) : Bool :=
  first.1.lower < second.1.lower ∨ first.1.lower = second.1.lower ∧
    (first.1.upper < second.1.upper ∨ first.1.upper = second.1.upper ∧
      addresses first.2 ≤ addresses second.2)

/--
The clipped range and the source of each edge with the symbol, sorted by their
keys.  Equal entries are next to each other, and one of them stays.
-/
def getBitDrivers (graph : NetlistGraph) (addresses : Addresses) (name : String)
    (bounds : DriverBitRange) : List (DriverBitRange × NodeRef) :=
  (((graph.edgesOfSymbol name).filterMap fun edge =>
      (edge.bounds.intersection bounds).map fun clipped => (clipped, edge.source)).mergeSort
    (keyLe addresses)).eraseDups

/-- The key by which the entries of `getBitDrivers` are told apart. -/
def bitDriverKey (entry : DriverBitRange × NodeRef) : Int × Int × NodeRef :=
  (entry.1.lower, entry.1.upper, entry.2)

section Lemmas

variable {graph : NetlistGraph} {addresses : Addresses} {name : String} {bounds : DriverBitRange}
  {source : NodeRef}

theorem mem_edgesOfSymbol {edge : NetlistEdge} :
    edge ∈ graph.edgesOfSymbol name ↔
      edge ∈ graph.edges ∧ graph.HasNode edge.source ∧ edge.symbol = some name := by
  simp only [edgesOfSymbol, outEdges, HasNode, List.mem_filter, List.mem_flatMap, List.mem_map,
    decide_eq_true_eq]
  constructor
  · rintro ⟨⟨node, nodeMem, edgeMem, same⟩, carried⟩
    exact ⟨edgeMem, ⟨node, nodeMem, same.symm⟩, carried⟩
  · rintro ⟨edgeMem, ⟨node, nodeMem, same⟩, carried⟩
    exact ⟨⟨node, nodeMem, edgeMem, same.symm⟩, carried⟩

/-- The sources that `getDrivers` reports at a bit. -/
theorem mem_getDrivers {bit : Int} :
    source ∈ graph.getDrivers name ⟨bit, bit⟩ ↔
      graph.HasNode source ∧ ∃ target, graph.Carries source target name bit := by
  have atBit : ∀ edge : NetlistEdge,
      edge.bounds.overlaps ⟨bit, bit⟩ = true ↔ bit ∈ edge.bounds := by
    intro edge
    have low : (⟨bit, bit⟩ : DriverBitRange).lower = bit := DriverBitRange.lower_mk (Int.le_refl bit)
    have high : (⟨bit, bit⟩ : DriverBitRange).upper = bit := DriverBitRange.upper_mk (Int.le_refl bit)
    rw [DriverBitRange.overlaps_iff, low, high]
    rfl
  simp only [getDrivers, List.mem_eraseDups, List.mem_map, List.mem_filter, mem_edgesOfSymbol,
    atBit, Carries, mem_edgesBetween, NetlistEdge.Carries]
  constructor
  · rintro ⟨edge, ⟨⟨edgeMem, present, carried⟩, inside⟩, rfl⟩
    exact ⟨present, edge.target, edge, ⟨edgeMem, rfl, rfl⟩, carried, inside⟩
  · rintro ⟨present, target, edge, ⟨edgeMem, rfl, _⟩, carried, inside⟩
    exact ⟨edge, ⟨⟨edgeMem, present, carried⟩, inside⟩, rfl⟩

/-- `getBitDrivers` reports the same sources at a bit. -/
theorem mem_getBitDrivers {bit : Int} :
    (∃ range, (range, source) ∈ graph.getBitDrivers addresses name ⟨bit, bit⟩) ↔
      source ∈ graph.getDrivers name ⟨bit, bit⟩ := by
  simp only [getBitDrivers, getDrivers, List.mem_mergeSort, List.mem_eraseDups, List.mem_filterMap,
    List.mem_map, List.mem_filter, Option.map_eq_some_iff, Prod.mk.injEq]
  constructor
  · rintro ⟨range, edge, edgeMem, clipped, found, rfl, rfl⟩
    refine ⟨edge, ⟨edgeMem, ?_⟩, rfl⟩
    unfold DriverBitRange.intersection at found
    split at found
    · next overlapping => exact overlapping
    · cases found
  · rintro ⟨edge, ⟨edgeMem, overlapping⟩, rfl⟩
    exact ⟨_, edge, edgeMem, _, by rw [DriverBitRange.intersection, if_pos overlapping], rfl, rfl⟩

/-- An entry of the drivers of a range, in terms of the edges. -/
theorem mem_getBitDrivers_iff {entry : DriverBitRange × NodeRef} :
    entry ∈ graph.getBitDrivers addresses name bounds ↔
      ∃ edge ∈ graph.edges, graph.HasNode edge.source ∧ edge.symbol = some name ∧
        edge.bounds.overlaps bounds = true ∧
          entry = (edge.bounds.intersect bounds, edge.source) := by
  simp only [getBitDrivers, List.mem_mergeSort, List.mem_eraseDups, List.mem_filterMap,
    mem_edgesOfSymbol, DriverBitRange.intersection, Option.map_eq_some_iff,
    Option.ite_none_right_eq_some, Option.some.injEq]
  constructor
  · rintro ⟨edge, ⟨edgeMem, present, carried⟩, _, ⟨overlapping, rfl⟩, rfl⟩
    exact ⟨edge, edgeMem, present, carried, overlapping, rfl⟩
  · rintro ⟨edge, edgeMem, present, carried, overlapping, rfl⟩
    exact ⟨edge, ⟨edgeMem, present, carried⟩, _, ⟨overlapping, rfl⟩, rfl⟩

/-- The entries are in ascending order already, so that their keys tell them apart. -/
theorem bitDriverKey_injOn {first second : DriverBitRange × NodeRef}
    (firstMem : first ∈ graph.getBitDrivers addresses name bounds)
    (secondMem : second ∈ graph.getBitDrivers addresses name bounds)
    (same : bitDriverKey first = bitDriverKey second) : first = second := by
  obtain ⟨edge, _, _, _, overlapping, rfl⟩ := mem_getBitDrivers_iff.mp firstMem
  obtain ⟨other, _, _, _, otherOverlapping, rfl⟩ := mem_getBitDrivers_iff.mp secondMem
  have ascending := DriverBitRange.intersect_ascending overlapping
  have otherAscending := DriverBitRange.intersect_ascending otherOverlapping
  simp only [DriverBitRange.intersect] at *
  simp only [bitDriverKey, DriverBitRange.lower_mk ascending, DriverBitRange.upper_mk ascending,
    DriverBitRange.lower_mk otherAscending, DriverBitRange.upper_mk otherAscending,
    Prod.mk.injEq] at same
  obtain ⟨low, high, source⟩ := same
  rw [low, high, source]

theorem nodup_getBitDrivers (graph : NetlistGraph) (addresses : Addresses) (name : String)
    (bounds : DriverBitRange) :
    ((graph.getBitDrivers addresses name bounds).map bitDriverKey).Nodup := by
  have distinct : (graph.getBitDrivers addresses name bounds).Nodup := nodup_eraseDups _
  exact distinct.map_on fun first firstMem second secondMem same =>
    bitDriverKey_injOn firstMem secondMem same

theorem sorted_getBitDrivers (graph : NetlistGraph) (addresses : Addresses) (name : String)
    (bounds : DriverBitRange) :
    (graph.getBitDrivers addresses name bounds).Pairwise fun first second =>
      keyLe addresses first second = true := by
  refine (List.pairwise_mergeSort ?_ ?_ _).sublist (eraseDups_sublist _)
  · intro first second third firstLe secondLe
    simp only [keyLe, decide_eq_true_eq] at *
    omega
  · intro first second
    simp only [keyLe, Bool.or_eq_true, decide_eq_true_eq]
    omega

theorem ranges_sorted_getBitDrivers (graph : NetlistGraph) (addresses : Addresses) (name : String)
    (bounds : DriverBitRange) :
    (graph.getBitDrivers addresses name bounds).Pairwise fun first second =>
      first.1.lower < second.1.lower ∨
        first.1.lower = second.1.lower ∧ first.1.upper ≤ second.1.upper := by
  refine (graph.sorted_getBitDrivers addresses name bounds).imp fun ordered => ?_
  simp only [keyLe, decide_eq_true_eq] at ordered
  omega

end Lemmas

/-- What the drivers of a range are, as entries of a clipped range and a node. -/
structure BitDriversExact (graph : NetlistGraph) (name : String) (bounds : DriverBitRange)
    (entries : List (DriverBitRange × NodeRef)) : Prop where
  covers : ∀ bit node, (∃ entry ∈ entries, entry.2 = node ∧ bit ∈ entry.1) ↔
    bit ∈ bounds ∧ graph.HasNode node ∧ ∃ edge ∈ graph.outEdges node, edge.Carries name bit
  inside : ∀ entry ∈ entries, bounds.contains entry.1 = true
  sorted : entries.Pairwise fun first second => first.1.lower < second.1.lower ∨
    first.1.lower = second.1.lower ∧ first.1.upper ≤ second.1.upper
  nodup : (entries.map bitDriverKey).Nodup
  agrees : ∀ node, node ∈ graph.getDrivers name bounds ↔ ∃ entry ∈ entries, entry.2 = node

/-- On every graph the entries are exact, and they name the nodes that `getDrivers` returns. -/
theorem getBitDrivers_exact (graph : NetlistGraph) (addresses : Addresses) (name : String)
    (bounds : DriverBitRange) :
    graph.BitDriversExact name bounds (graph.getBitDrivers addresses name bounds) where
  covers bit node := by
    simp only [mem_getBitDrivers_iff, outEdges, List.mem_filter, decide_eq_true_eq,
      NetlistEdge.Carries]
    constructor
    · rintro ⟨_, ⟨edge, edgeMem, present, carried, overlapping, rfl⟩, rfl, inside⟩
      obtain ⟨inEdge, inBounds⟩ := (DriverBitRange.mem_intersect overlapping).mp inside
      exact ⟨inBounds, present, edge, ⟨edgeMem, rfl⟩, carried, inEdge⟩
    · rintro ⟨inBounds, present, edge, ⟨edgeMem, rfl⟩, carried, inEdge⟩
      have overlapping : edge.bounds.overlaps bounds = true := by
        rw [DriverBitRange.overlaps_iff]
        rw [DriverBitRange.mem_iff] at inBounds inEdge
        omega
      exact ⟨_, ⟨edge, edgeMem, present, carried, overlapping, rfl⟩, rfl,
        (DriverBitRange.mem_intersect overlapping).mpr ⟨inEdge, inBounds⟩⟩
  inside entry member := by
    obtain ⟨edge, _, _, _, overlapping, rfl⟩ := mem_getBitDrivers_iff.mp member
    have ascending := DriverBitRange.intersect_ascending overlapping
    rw [DriverBitRange.contains_iff, DriverBitRange.intersect,
      DriverBitRange.lower_mk ascending, DriverBitRange.upper_mk ascending]
    omega
  sorted := graph.ranges_sorted_getBitDrivers addresses name bounds
  nodup := graph.nodup_getBitDrivers addresses name bounds
  agrees node := by
    simp only [getDrivers, List.mem_eraseDups, List.mem_map, List.mem_filter, mem_edgesOfSymbol,
      mem_getBitDrivers_iff]
    constructor
    · rintro ⟨edge, ⟨⟨edgeMem, present, carried⟩, overlapping⟩, rfl⟩
      exact ⟨_, ⟨edge, edgeMem, present, carried, overlapping, rfl⟩, rfl⟩
    · rintro ⟨_, ⟨edge, edgeMem, present, carried, overlapping, rfl⟩, rfl⟩
      exact ⟨edge, ⟨⟨edgeMem, present, carried⟩, overlapping⟩, rfl⟩

end NetlistGraph

end SlangNetlist
