import SlangNetlist.Analysis.AlignedBits
import SlangNetlist.Build.BlockOrder
import SlangNetlist.Build.PortConnectionHandler

/-!
# The bits of port connections

The slices of a port lie on the cuts of all its nodes, which may overlap.  Each
segment of a connection is mapped back to the bits of a value of the actual, so
that a node is connected to the bits of the values at its own positions.
-/

namespace SlangNetlist

open Library

/-- What is not an opaque expression or a port node. -/
def BitSource.Exact : BitSource → Prop
  | .opaqueExpr _ => False
  | .port _ => False
  | _ => True

/-- The bit of a value. -/
def BitSource.leaf? : BitSource → Option (ValuePath × Int)
  | .leaf path _ bit => some (path, bit)
  | _ => none

namespace SliceExpr

mutual

/-- The bit of a value at a position; a conversion keeps the low bits of its operand. -/
def leafAt : SliceExpr → Nat → Option (ValuePath × Int)
  | .value _ path _, position => some (path, path.lspBounds.lower + position)
  | .concatenation operands, position => operandsLeafAt operands position
  | .replication _ count concat _, position =>
      match count with
      | none => none
      | some _ => leafAt concat (position % concat.width)
  | .conversion width folded _ operand _ _, position =>
      match foldedAt width folded with
      | some _ => none
      | none => if position < operand.width then leafAt operand position else none
  | .conditionalOp .., _ => none
  | .other .., _ => none

/-- The last operand of a concatenation has the low positions. -/
def operandsLeafAt : List SliceExpr → Nat → Option (ValuePath × Int)
  | [], _ => none
  | operand :: rest, position =>
      if position < operandsWidth rest then operandsLeafAt rest position
      else leafAt operand (position - operandsWidth rest)

end

mutual

/--
An expression of values, concatenations, replications with a constant count,
constants, and conversions that fold to a constant or are not narrower than the
operand.
-/
def Traceable : SliceExpr → Prop
  | .value .. => True
  | .concatenation operands => OperandsTraceable operands
  | .replication _ count concat _ => count ≠ none ∧ concat.Traceable
  | .conversion width folded _ operand _ _ =>
      foldedAt width folded ≠ none ∨ operand.width ≤ width ∧ operand.Traceable
  | .conditionalOp .. => False
  | .other width folded _ _ => foldedAt width folded ≠ none

def OperandsTraceable : List SliceExpr → Prop
  | [] => True
  | operand :: rest => operand.Traceable ∧ OperandsTraceable rest

end

/-- The sources of a bit are one bit of a value, a bit of a constant or padding. -/
def OneSource (sources : List BitSource) (leaf : Option (ValuePath × Int)) : Prop :=
  ∃ source : BitSource, sources = [source] ∧ source.leaf? = leaf ∧ source.Exact

mutual

theorem bitSources_traceable : ∀ (expr : SliceExpr), expr.Traceable → expr.Fits →
    ∀ position, position < expr.width →
      OneSource (bitSources SliceExpr.width expr position) (expr.leafAt position)
  | .value width path selectors, _, _, position, _ => ⟨_, rfl, rfl, trivial⟩
  | .concatenation operands, traceable, fits, position, below => by
      simp only [Traceable] at traceable
      simp only [Fits] at fits
      simp only [SliceExpr.width] at below
      simp only [bitSources, leafAt]
      exact operandsBits_traceable operands traceable fits position below
  | .replication width count concat expr, traceable, fits, position, below => by
      cases count with
      | none => exact absurd rfl traceable.1
      | some count =>
          simp only [Fits] at fits
          simp only [SliceExpr.width, fits.1] at below
          have unit : 0 < concat.width := Nat.pos_of_ne_zero fun zero => by
            rw [zero, Nat.mul_zero] at below
            exact Nat.not_lt_zero _ below
          exact bitSources_traceable concat traceable.2 fits.2 _ (Nat.mod_lt _ unit)
  | .conversion width folded isSignExt operand expr location, traceable, fits, position, below => by
      simp only [Fits] at fits
      simp only [SliceExpr.width] at below
      simp only [Traceable] at traceable
      simp only [bitSources, leafAt]
      cases found : foldedAt width folded with
      | some number => exact ⟨_, rfl, rfl, trivial⟩
      | none =>
          obtain ⟨wide, inner⟩ := traceable.resolve_left (absurd found)
          have operandBits := bitSources_traceable operand inner fits position
          dsimp only
          by_cases equal : width = operand.width
          · rw [if_pos equal, if_pos (equal ▸ below)]
            exact operandBits (equal ▸ below)
          · rw [if_neg equal, if_pos (Nat.lt_of_le_of_ne wide (Ne.symm equal))]
            by_cases inOperand : position < operand.width
            · rw [if_pos inOperand, if_pos inOperand]
              exact operandBits inOperand
            · rw [if_neg inOperand, if_neg inOperand]
              cases isSignExt with
              | true => exact ⟨_, rfl, rfl, trivial⟩
              | false => exact ⟨_, rfl, rfl, trivial⟩
  | .conditionalOp .., traceable, _, _, _ => absurd traceable id
  | .other width folded expr location, traceable, _, position, _ => by
      simp only [Traceable] at traceable
      simp only [bitSources, leafAt]
      cases found : foldedAt width folded with
      | some number => exact ⟨_, rfl, rfl, trivial⟩
      | none => exact absurd found traceable

theorem operandsBits_traceable : ∀ (operands : List SliceExpr), OperandsTraceable operands →
    OperandsFit operands → ∀ position, position < operandsWidth operands →
      OneSource (operandsBits SliceExpr.width operands position) (operandsLeafAt operands position)
  | [], _, _, position, below => absurd below (Nat.not_lt_zero position)
  | operand :: rest, traceable, fits, position, below => by
      simp only [OperandsTraceable] at traceable
      simp only [OperandsFit] at fits
      simp only [operandsWidth] at below
      rw [operandsBits, operandsLeafAt, operandsMeasure_width]
      split
      · next inRest => exact operandsBits_traceable rest traceable.2 fits.2 position inRest
      · exact bitSources_traceable operand traceable.1 fits.1 _ (by omega)

end

end SliceExpr

/-! ## The slices of a port -/

namespace NetlistBuilder

/-- The bounds of the node contain the range of positions. -/
def CoversSlice (builder : NetlistBuilder) (lo hi : Nat) (node : NodeRef) : Prop :=
  ∃ bounds, builder.graph.getBounds node = some bounds ∧ bounds.lower.toNat ≤ lo ∧
    hi ≤ bounds.upper.toNat + 1

instance (builder : NetlistBuilder) (lo hi : Nat) (node : NodeRef) :
    Decidable (builder.CoversSlice lo hi node) :=
  decidable_of_iff ((builder.graph.getBounds node).any fun bounds =>
    bounds.lower.toNat ≤ lo ∧ hi ≤ bounds.upper.toNat + 1) (by
      simp [CoversSlice, Option.any_eq_true])

/-- The bounds of the node contain the position. -/
def HasPosition (builder : NetlistBuilder) (position : Nat) (node : NodeRef) : Prop :=
  ∃ bounds, builder.graph.getBounds node = some bounds ∧ (position : Int) ∈ bounds

instance (builder : NetlistBuilder) (position : Nat) (node : NodeRef) :
    Decidable (builder.HasPosition position node) :=
  decidable_of_iff ((builder.graph.getBounds node).any fun bounds =>
    decide ((position : Int) ∈ bounds)) (by simp [HasPosition, Option.any_eq_true])

/-- The bounds of the nodes of the port lie in the range of the port. -/
def PortNodesInside (builder : NetlistBuilder) (port : PortSymbol) : Prop :=
  ∀ node ∈ builder.variableTracker.lookupAll port.id, ∀ bounds,
    builder.graph.getBounds node = some bounds →
      0 ≤ bounds.lower ∧ bounds.upper < port.selectableWidth

variable {builder next : NetlistBuilder} {port : PortSymbol}

/-- The cuts of a port: its ends and those of its nodes. -/
def portCuts (builder : NetlistBuilder) (port : PortSymbol) : List Nat :=
  CutRegistry.sortCuts (0 :: port.selectableWidth ::
    (builder.variableTracker.lookupAll port.id).flatMap fun node =>
      match builder.graph.getBounds node with
      | some bounds => [bounds.lower.toNat, bounds.upper.toNat + 1]
      | none => [])

theorem mem_portCuts {cut : Nat} : cut ∈ builder.portCuts port ↔
    cut = 0 ∨ cut = port.selectableWidth ∨
      ∃ node ∈ builder.variableTracker.lookupAll port.id, ∃ bounds,
        builder.graph.getBounds node = some bounds ∧
          (cut = bounds.lower.toNat ∨ cut = bounds.upper.toNat + 1) := by
  simp only [portCuts, CutRegistry.sortCuts, List.mem_dedup, List.mem_insertionSort, List.mem_cons,
    List.mem_flatMap]
  refine or_congr_right (or_congr_right (exists_congr fun node => and_congr_right fun _ => ?_))
  cases builder.graph.getBounds node <;> simp

/-- The slices of a port that is not empty. -/
theorem buildPortSliceList_eq (some : port.selectableWidth ≠ 0) :
    builder.buildPortSliceList port = (neighbours (builder.portCuts port)).map fun pair =>
      { concatLo := pair.1
        concatHi := pair.2
        sources := ((builder.variableTracker.lookupAll port.id).filter fun node =>
          builder.CoversSlice pair.1 pair.2 node).map .portNode } := by
  unfold buildPortSliceList
  rw [if_neg some]
  refine List.map_congr_left fun ⟨lo, hi⟩ _ => ?_
  simp only [BitSlice.mk.injEq, true_and]
  refine congrArg (List.map BitSliceSource.portNode) (List.filter_congr fun node _ => ?_)
  cases bounded : builder.graph.getBounds node <;> simp [CoversSlice, bounded]

/-- The cuts of a port tile its range. -/
theorem tiles_portCuts (inside : builder.PortNodesInside port) :
    Tiles Prod.fst Prod.snd 0 (neighbours (builder.portCuts port)) port.selectableWidth := by
  refine tiles_of_mem (CutRegistry.sorted_sortCuts _) (mem_portCuts.mpr (.inl rfl))
    (mem_portCuts.mpr (.inr (.inl rfl))) fun cut member => ⟨Nat.zero_le _, ?_⟩
  rcases mem_portCuts.mp member with rfl | rfl | ⟨node, nodeMem, bounds, bounded, which⟩
  · exact Nat.zero_le _
  · exact le_rfl
  · have proper := bounds.lower_le_upper
    have := inside node nodeMem bounds bounded
    omega

/-- Between two cuts a node contains all positions or none. -/
theorem coversSlice_iff (inside : builder.PortNodesInside port) {node : NodeRef}
    (nodeMem : node ∈ builder.variableTracker.lookupAll port.id) {pair : Nat × Nat}
    (pairMem : pair ∈ neighbours (builder.portCuts port)) {position : Nat}
    (above : pair.1 ≤ position) (below : position < pair.2) :
    builder.CoversSlice pair.1 pair.2 node ↔ builder.HasPosition position node := by
  refine exists_congr fun bounds => and_congr_right fun bounded => ?_
  have proper := bounds.lower_le_upper
  have := inside node nodeMem bounds bounded
  have sorted : (builder.portCuts port).Pairwise (· < ·) := CutRegistry.sorted_sortCuts _
  have lower := not_between sorted pairMem
    (mem_portCuts.mpr (.inr (.inr ⟨node, nodeMem, bounds, bounded, .inl rfl⟩)))
  have upper := not_between sorted pairMem
    (mem_portCuts.mpr (.inr (.inr ⟨node, nodeMem, bounds, bounded, .inr rfl⟩)))
  rw [DriverBitRange.mem_iff]
  omega

/-- The slices of a port tile its range, and each lists the nodes that contain it. -/
theorem buildPortSliceList_spec (inside : builder.PortNodesInside port) :
    BitSliceList.Denotes (builder.buildPortSliceList port) 0 port.selectableWidth (fun position =>
      ((builder.variableTracker.lookupAll port.id).filter fun node =>
        builder.HasPosition position node).map .port) ∧
    ∀ slice ∈ builder.buildPortSliceList port, slice.sources =
      ((builder.variableTracker.lookupAll port.id).filter fun node =>
        builder.CoversSlice slice.concatLo slice.concatHi node).map .portNode := by
  by_cases zero : port.selectableWidth = 0
  · have empty : builder.buildPortSliceList port = [] := by simp [buildPortSliceList, zero]
    rw [empty, zero]
    exact ⟨BitSliceList.denotes_nil _ _, fun _ none => absurd none List.not_mem_nil⟩
  · rw [buildPortSliceList_eq zero]
    refine ⟨⟨?_, fun slice member position above below => ?_, fun slice member source among => ?_⟩,
      fun slice member => ?_⟩
    · exact (tiles_portCuts inside).map_of_mem fun _ _ => ⟨rfl, rfl⟩
    · obtain ⟨pair, pairMem, rfl⟩ := List.mem_map.mp member
      rw [List.map_map]
      refine congrArg (List.map BitSource.port) (List.filter_congr fun node nodeMem => ?_)
      rw [decide_eq_decide, Nat.sub_zero]
      exact coversSlice_iff inside nodeMem pairMem above below
    · obtain ⟨pair, _, rfl⟩ := List.mem_map.mp member
      obtain ⟨node, _, rfl⟩ := List.mem_map.mp among
      exact Nat.zero_le _
    · obtain ⟨pair, _, rfl⟩ := List.mem_map.mp member
      rfl

end NetlistBuilder

/-! ## Segments -/

namespace Segment

variable {segment : Segment} {path : ValuePath} {srcLo : Nat}

theorem mem_portNodes {node : NodeRef} (position : Nat) :
    node ∈ segment.portNodes ↔ .port node ∈ segment.lhsSources.map (segment.passes position) := by
  simp only [portNodes, List.mem_filterMap, List.mem_map]
  refine exists_congr fun source => and_congr_right fun _ => ?_
  cases source <;> simp [passes, BitSliceSource.bitAt]

/-- The bits that a segment takes of a value are those at its positions. -/
theorem mem_mapped {bit : Int} (proper : segment.concatLo < segment.concatHi)
    (selectors : List Selector) :
    bit ∈ segment.mapped path srcLo ↔ ∃ position, segment.Holds position ∧
      (segment.passes position (.lsp path selectors srcLo)).leaf? = some (path, bit) := by
  have wide : segment.width = segment.concatHi - segment.concatLo := rfl
  simp only [passes, BitSource.leaf?, mapped, DataFlowAnalysis.segmentBounds, Option.some.injEq,
    Prod.mk.injEq, true_and, Holds, DriverBitRange.mem_iff]
  rw [DriverBitRange.lower_mk (by omega), DriverBitRange.upper_mk (by omega)]
  constructor
  · rintro ⟨above, below⟩
    refine ⟨segment.concatLo + (bit - (path.lspBounds.lower + (segment.concatLo - srcLo))).toNat,
      ?_, ?_⟩ <;> omega
  · rintro ⟨position, holds, rfl⟩
    omega

/-- The R-values that a segment queues for its port nodes. -/
def reads (segment : Segment) : List PendingRvalue :=
  segment.rhsSources.flatMap fun source =>
    match source with
    | .lsp path _ srcLo =>
        match path.rootSymbol, path.lsp with
        | some root, some lsp => segment.portNodes.map fun node =>
            { symbol := root, bounds := segment.mapped path srcLo, lsp := lsp, node := some node
              semantics := { role := .portConnection, precision := .exact } }
        | _, _ => []
    | _ => []

/-- The calls that merge the port nodes of a segment as drivers. -/
def merges (segment : Segment) : List DriverCall :=
  segment.rhsSources.flatMap fun source =>
    match source with
    | .lsp path _ srcLo =>
        match path.rootSymbol with
        | some root => segment.portNodes.map fun node =>
            { symbol := root, bounds := segment.mapped path srcLo
              driverList := [{ node := some node, lsp := path.lsp }], merge := true }
        | none => []
    | _ => []

theorem mem_reads {pending : PendingRvalue} :
    pending ∈ segment.reads ↔ ∃ path selectors srcLo root lsp node,
      .lsp path selectors srcLo ∈ segment.rhsSources ∧ path.rootSymbol = some root ∧
        path.lsp = some lsp ∧ node ∈ segment.portNodes ∧
        pending = { symbol := root, bounds := segment.mapped path srcLo, lsp := lsp
                    node := some node
                    semantics := { role := .portConnection, precision := .exact } } := by
  simp only [reads, List.mem_flatMap]
  constructor
  · rintro ⟨source, among, inSource⟩
    split at inSource
    · next path selectors srcLo =>
        split at inSource
        · next root lsp rooted isLsp =>
            obtain ⟨node, nodeMem, rfl⟩ := List.mem_map.mp inSource
            exact ⟨path, selectors, srcLo, root, lsp, node, among, rooted, isLsp, nodeMem, rfl⟩
        · exact absurd inSource List.not_mem_nil
    · exact absurd inSource List.not_mem_nil
  · rintro ⟨path, selectors, srcLo, root, lsp, node, among, rooted, isLsp, nodeMem, rfl⟩
    refine ⟨_, among, ?_⟩
    simp only [rooted, isLsp]
    exact List.mem_map_of_mem nodeMem

theorem mem_merges {call : DriverCall} :
    call ∈ segment.merges ↔ ∃ path selectors srcLo root node,
      .lsp path selectors srcLo ∈ segment.rhsSources ∧ path.rootSymbol = some root ∧
        node ∈ segment.portNodes ∧
        call = { symbol := root, bounds := segment.mapped path srcLo
                 driverList := [{ node := some node, lsp := path.lsp }], merge := true } := by
  simp only [merges, List.mem_flatMap]
  constructor
  · rintro ⟨source, among, inSource⟩
    split at inSource
    · next path selectors srcLo =>
        split at inSource
        · next root rooted =>
            obtain ⟨node, nodeMem, rfl⟩ := List.mem_map.mp inSource
            exact ⟨path, selectors, srcLo, root, node, among, rooted, nodeMem, rfl⟩
        · exact absurd inSource List.not_mem_nil
    · exact absurd inSource List.not_mem_nil
  · rintro ⟨path, selectors, srcLo, root, node, among, rooted, nodeMem, rfl⟩
    refine ⟨_, among, ?_⟩
    simp only [rooted]
    exact List.mem_map_of_mem nodeMem

end Segment

namespace NetlistBuilder

/-- The segments of a port and its actual. -/
def portSegments (builder : NetlistBuilder) (port : PortSymbol) (expr : SliceExpr) :
    List Segment :=
  BitSliceList.alignSegments (builder.buildPortSliceList port) (BitSliceList.build expr true none)

/-- The calls of `mergeDrivers` for an output. -/
def portMerges (builder : NetlistBuilder) (port : PortSymbol) (expr : SliceExpr) :
    List DriverCall :=
  (builder.portSegments port expr).flatMap Segment.merges

/-- A node of the port has a position at which the actual has the bit of the value. -/
def Connected (builder : NetlistBuilder) (port : PortSymbol) (expr : SliceExpr) (node : NodeRef)
    (symbol : ValueSymbol) (lsp : Nat) (bit : Int) : Prop :=
  ∃ position path, node ∈ builder.variableTracker.lookupAll port.id ∧
    builder.HasPosition position node ∧ expr.leafAt position = some (path, bit) ∧
    path.rootSymbol = some symbol ∧ path.lsp = some lsp

/-- The segment has the nodes and the one source of all its positions. -/
structure Wired (builder : NetlistBuilder) (port : PortSymbol) (expr : SliceExpr)
    (segment : Segment) : Prop where
  proper : segment.concatLo < segment.concatHi
  within : segment.concatHi ≤ expr.width
  nodes : ∀ position, segment.Holds position → ∀ node, node ∈ segment.portNodes ↔
    node ∈ builder.variableTracker.lookupAll port.id ∧ builder.HasPosition position node
  source : ∃ source, segment.rhsSources = [source] ∧ ∀ position, segment.Holds position →
    (segment.passes position source).leaf? = expr.leafAt position ∧
      (segment.passes position source).Exact

section Wired

variable {builder next : NetlistBuilder} {port : PortSymbol} {expr : SliceExpr}

/-- The segments tile the range of the port, and each is wired. -/
theorem portSegments_spec (inside : builder.PortNodesInside port)
    (sameWidth : expr.width = port.selectableWidth) (fits : expr.Fits)
    (traceable : expr.Traceable) :
    Tiles Segment.concatLo Segment.concatHi 0 (builder.portSegments port expr) expr.width ∧
      ∀ segment ∈ builder.portSegments port expr, builder.Wired port expr segment := by
  have portDenotes := (buildPortSliceList_spec inside).1
  rw [← sameWidth] at portDenotes
  obtain ⟨tiles, stands⟩ := BitSliceList.alignSegments_spec portDenotes
    (BitSliceList.denotes_of_fits none fits)
  refine ⟨tiles, fun segment member => ?_⟩
  obtain ⟨_, proper, within⟩ := tiles.bounds member
  have passed := (stands segment member).2
  have oneSource : ∀ position, segment.Holds position → SliceExpr.OneSource
      (segment.rhsSources.map (segment.passes position)) (expr.leafAt position) := by
    intro position holds
    rw [(passed position holds).2]
    exact SliceExpr.bitSources_traceable expr traceable fits position
      (lt_of_lt_of_le holds.2 within)
  refine ⟨proper, within, fun position holds node => ?_, ?_⟩
  · rw [Segment.mem_portNodes position, (passed position holds).1]
    simp
  · obtain ⟨_, only, _, _⟩ := oneSource segment.concatLo ⟨le_rfl, proper⟩
    obtain ⟨source, single, _⟩ := List.map_eq_singleton_iff.mp only
    refine ⟨source, single, fun position holds => ?_⟩
    obtain ⟨bitSource, same, leaf, exactly⟩ := oneSource position holds
    rw [single, List.map_singleton, List.singleton_inj] at same
    rw [same]
    exact ⟨leaf, exactly⟩

/-- The bits that a segment passes to a node are those at the common positions. -/
theorem Wired.mem_mapped {segment : Segment} (wired : builder.Wired port expr segment)
    {path : ValuePath} {selectors : List Selector} {srcLo : Nat}
    (single : segment.rhsSources = [.lsp path selectors srcLo]) {bit : Int} :
    bit ∈ segment.mapped path srcLo ↔
      ∃ position, segment.Holds position ∧ expr.leafAt position = some (path, bit) := by
  rw [Segment.mem_mapped wired.proper selectors]
  refine exists_congr fun position => and_congr_right fun holds => ?_
  obtain ⟨source, only, leaf⟩ := wired.source
  obtain rfl := List.singleton_inj.mp (single.symm.trans only)
  rw [(leaf position holds).1]

/-- A node is connected to the bits that the segments with the node are mapped to. -/
theorem connected_iff (inside : builder.PortNodesInside port)
    (sameWidth : expr.width = port.selectableWidth) (fits : expr.Fits)
    (traceable : expr.Traceable) {node : NodeRef} {symbol : ValueSymbol} {lsp : Nat} {bit : Int} :
    builder.Connected port expr node symbol lsp bit ↔
      ∃ segment ∈ builder.portSegments port expr, ∃ path selectors srcLo,
        .lsp path selectors srcLo ∈ segment.rhsSources ∧ path.rootSymbol = some symbol ∧
          path.lsp = some lsp ∧ node ∈ segment.portNodes ∧ bit ∈ segment.mapped path srcLo := by
  obtain ⟨tiles, wired⟩ := portSegments_spec inside sameWidth fits traceable
  constructor
  · rintro ⟨position, path, nodeMem, ⟨bounds, bounded, atPosition⟩, leaf, root, isLsp⟩
    have below : position < expr.width := by
      have := inside node nodeMem bounds bounded
      have := atPosition.2
      omega
    obtain ⟨segment, member, _, holds⟩ := tiles.exists_find (Nat.zero_le position) below
    have here := wired segment member
    obtain ⟨source, single, stands⟩ := here.source
    have passed := (stands position holds).1
    rw [leaf] at passed
    cases source with
    | lsp other selectors srcLo =>
        obtain rfl : other = path := by
          simp only [Segment.passes, BitSource.leaf?, Option.some.injEq, Prod.mk.injEq] at passed
          exact passed.1
        exact ⟨segment, member, other, selectors, srcLo, by simp [single], root, isLsp,
          (here.nodes position holds node).mpr ⟨nodeMem, bounds, bounded, atPosition⟩,
          (here.mem_mapped single).mpr ⟨position, holds, leaf⟩⟩
    | padding | opaqueExpr | portNode | constant =>
        simp [Segment.passes, BitSliceSource.bitAt, BitSource.leaf?] at passed
  · rintro ⟨segment, member, path, selectors, srcLo, among, root, isLsp, nodeMem, inMapped⟩
    have here := wired segment member
    obtain ⟨source, single, _⟩ := here.source
    obtain rfl := List.mem_singleton.mp (single ▸ among)
    obtain ⟨position, holds, leaf⟩ := (here.mem_mapped single).mp inMapped
    obtain ⟨known, hasPosition⟩ := (here.nodes position holds node).mp nodeMem
    exact ⟨position, path, known, hasPosition, leaf, root, isLsp⟩

end Wired

/-! ## The walk over the segments -/

/-- The values of an actual have a root and an LSP; an input reads no modport port. -/
def Named (expr : SliceExpr) (isOutput : Bool) : Prop :=
  ∀ position < expr.width, ∀ path bit, expr.leafAt position = some (path, bit) →
    ∃ root lsp, path.rootSymbol = some root ∧ path.lsp = some lsp ∧
      (isOutput = false → root.kind ≠ .modportPort)

section Walk

variable {resolveInterfaceRef : InterfaceRefs} {task : Nat} {builder next : NetlistBuilder}

/-- A read that is not of a modport port is queued. -/
theorem addRvalue_of_ne {symbol : ValueSymbol} (plain : symbol.kind ≠ .modportPort) (lsp : Nat)
    (bounds : DriverBitRange) (node : Option NodeRef) (role : DependencyRole)
    (precision : DependencyPrecision) :
    builder.addRvalue resolveInterfaceRef symbol lsp bounds node role precision =
      builder.enqueue { symbol := symbol, bounds := bounds, lsp := lsp, node := node
                        semantics := { role := role, precision := precision } } := by
  unfold addRvalue
  split
  · next modport => exact absurd modport plain
  · rfl

/-- The nodes of an input read the bits, in order. -/
theorem drivePortLsp_reads {path : ValuePath} {root : ValueSymbol} {lsp : Nat}
    (rooted : path.rootSymbol = some root) (isLsp : path.lsp = some lsp)
    (plain : root.kind ≠ .modportPort) (bounds : DriverBitRange) (nodes : List NodeRef)
    (builder : NetlistBuilder) :
    builder.drivePortLsp resolveInterfaceRef false nodes path bounds =
      some { builder with pendingQueue := builder.pendingQueue ++ nodes.map fun node =>
        { symbol := root, bounds := bounds, lsp := lsp, node := some node
          semantics := { role := .portConnection, precision := .exact } } } := by
  unfold drivePortLsp
  rw [rooted]
  simp only [Bool.false_eq_true, if_false, isLsp, Option.bind_eq_bind, Option.bind_some,
    addRvalue_of_ne plain]
  induction nodes generalizing builder with
  | nil => simp
  | cons node rest ih =>
      rw [List.foldlM_cons, Option.bind_eq_bind, Option.bind_some, ih]
      simp [enqueue]

theorem pendingQueue_connectDrivers (builder : NetlistBuilder) (drivers : DriverList)
    (target : NodeRef) (symbol : ValueSymbol) (bounds : DriverBitRange)
    (semantics : EdgeSemantics) :
    (builder.connectDrivers drivers target symbol bounds semantics).pendingQueue =
      builder.pendingQueue := by
  unfold connectDrivers
  induction drivers generalizing builder with
  | nil => rfl
  | cons driver rest ih =>
      rw [List.foldl_cons, ih]
      cases driver.node <;> rfl

theorem pendingQueue_hookupOutputPort (builder : NetlistBuilder) (symbol : ValueSymbol)
    (bounds : DriverBitRange) (drivers : DriverList) :
    (builder.hookupOutputPort symbol bounds drivers).pendingQueue = builder.pendingQueue := by
  unfold hookupOutputPort
  cases builder.outputPort symbol bounds with
  | none => rfl
  | some portNode => exact pendingQueue_connectDrivers builder drivers portNode symbol bounds _

/-- Merging a node is one call on the central map. -/
theorem mergePortNode_merges {symbol : ValueSymbol} {lsp : Option Nat} {bounds : DriverBitRange}
    {node : NodeRef} {central : TrackerState}
    (stepped : builder.central.step ⟨symbol, bounds, [{ node := some node, lsp := lsp }], true⟩ =
      some central) :
    ∃ next, builder.mergePortNode symbol lsp bounds node = some next ∧ next.central = central ∧
      next.pendingQueue = builder.pendingQueue := by
  simp only [TrackerState.step, Option.bind_eq_bind, Option.bind_eq_some_iff] at stepped
  obtain ⟨⟨driverMap, drivers⟩, added, same⟩ := stepped
  cases same
  unfold mergePortNode mergeCentral
  simp only [NetlistBuilder.central] at added
  simp only [added, Option.bind_eq_bind, Option.bind_some, Option.some.injEq, exists_eq_left']
  split
  · have toPort := (OnlyAdds.internSymbol
      { builder with driverMap := driverMap, drivers := drivers } symbol).trans
        (OnlyAdds.hookupOutputPort _ symbol bounds [{ node := some node }])
    refine ⟨toPort.central, ?_⟩
    rw [pendingQueue_hookupOutputPort]
    rfl
  · exact ⟨rfl, rfl⟩

/-- The nodes of an output are merged as drivers of the bits, in order. -/
theorem drivePortLsp_merges {path : ValuePath} {root : ValueSymbol}
    (rooted : path.rootSymbol = some root) {bounds : DriverBitRange} {nodes : List NodeRef}
    {builder : NetlistBuilder} {central : TrackerState}
    (ran : (nodes.map fun node => (⟨root, bounds, [{ node := some node, lsp := path.lsp }], true⟩ :
      DriverCall)).foldlM TrackerState.step builder.central = some central) :
    ∃ next, builder.drivePortLsp resolveInterfaceRef true nodes path bounds = some next ∧
      next.central = central ∧ next.pendingQueue = builder.pendingQueue := by
  unfold drivePortLsp
  rw [rooted]
  simp only [if_true]
  induction nodes generalizing builder with
  | nil =>
      cases ran
      exact ⟨builder, rfl, rfl, rfl⟩
  | cons node rest ih =>
      rw [List.map_cons] at ran
      obtain ⟨middle, stepped, ran⟩ := foldlM_cons_eq_some.mp ran
      obtain ⟨here, merged, rfl, queue⟩ := mergePortNode_merges stepped
      obtain ⟨next, folded, same, later⟩ := ih ran
      exact ⟨next, foldlM_cons_eq_some.mpr ⟨here, merged, folded⟩, same, later.trans queue⟩

variable {base : NetlistBuilder} {port : PortSymbol} {expr : SliceExpr} {segment : Segment}

/-- The value of a segment has its root and its LSP. -/
theorem Wired.named {isOutput : Bool} (wired : base.Wired port expr segment)
    (named : Named expr isOutput) {path : ValuePath} {selectors : List Selector} {srcLo : Nat}
    (single : segment.rhsSources = [.lsp path selectors srcLo]) :
    ∃ root lsp, path.rootSymbol = some root ∧ path.lsp = some lsp ∧
      (isOutput = false → root.kind ≠ .modportPort) := by
  have proper := wired.proper
  have within := wired.within
  have placed : path.lspBounds.lower + ((segment.concatLo : Int) - srcLo) ∈
      segment.mapped path srcLo := by
    have wide : segment.width = segment.concatHi - segment.concatLo := rfl
    rw [DriverBitRange.mem_iff, Segment.mapped]
    rw [DriverBitRange.lower_mk (by omega), DriverBitRange.upper_mk (by omega)]
    omega
  obtain ⟨position, holds, leaf⟩ := (wired.mem_mapped single).mp placed
  exact named position (lt_of_lt_of_le holds.2 within) path _ leaf

/-- What a segment with nodes does is done by its one source. -/
theorem drivePortSegment_eq {isOutput : Bool} {source : BitSliceSource}
    (some : segment.portNodes ≠ []) (single : segment.rhsSources = [source]) :
    builder.drivePortSegment resolveInterfaceRef task isOutput segment =
      builder.drivePortSource resolveInterfaceRef task isOutput segment source := by
  unfold drivePortSegment
  rw [if_neg some, single, List.foldlM_cons]
  simp

/-- A segment of an input queues its reads. -/
theorem drivePortSegment_reads (wired : base.Wired port expr segment) (named : Named expr false)
    (builder : NetlistBuilder) :
    ∃ next, builder.drivePortSegment resolveInterfaceRef task false segment = some next ∧
      next.pendingQueue = builder.pendingQueue ++ segment.reads ∧
      next.central = builder.central := by
  obtain ⟨source, single, stands⟩ := wired.source
  have proper := wired.proper
  have exactly := (stands segment.concatLo ⟨le_rfl, proper⟩).2
  have wide : 0 < segment.width := Nat.sub_pos_of_lt proper
  by_cases noNodes : segment.portNodes = []
  · refine ⟨builder, by rw [drivePortSegment, if_pos noNodes], ?_, rfl⟩
    cases source with
    | lsp path selectors srcLo =>
        obtain ⟨root, lsp, rooted, isLsp, _⟩ := wired.named named single
        simp [Segment.reads, single, noNodes, rooted, isLsp]
    | padding | opaqueExpr | portNode | constant => simp [Segment.reads, single]
  · rw [drivePortSegment_eq noNodes single]
    cases source with
    | lsp path selectors srcLo =>
        obtain ⟨root, lsp, rooted, isLsp, plain⟩ := wired.named named single
        refine ⟨{ builder with pendingQueue := builder.pendingQueue ++ segment.reads }, ?_, rfl,
          rfl⟩
        simp [drivePortSource, wide, drivePortLsp_reads rooted isLsp (plain rfl), Segment.reads,
          single, rooted, isLsp]
    | padding => exact ⟨builder, rfl, by simp [Segment.reads, single], rfl⟩
    | constant value srcLo location => exact ⟨_, rfl, by simp [Segment.reads, single], rfl⟩
    | opaqueExpr _ => exact absurd exactly id
    | portNode _ => exact absurd exactly id

/-- A segment of an output makes its calls on the central map. -/
theorem drivePortSegment_merges (wired : base.Wired port expr segment) (named : Named expr true)
    {builder : NetlistBuilder} {central : TrackerState}
    (ran : segment.merges.foldlM TrackerState.step builder.central = some central) :
    ∃ next, builder.drivePortSegment resolveInterfaceRef task true segment = some next ∧
      next.central = central ∧ next.pendingQueue = builder.pendingQueue := by
  obtain ⟨source, single, stands⟩ := wired.source
  have proper := wired.proper
  have exactly := (stands segment.concatLo ⟨le_rfl, proper⟩).2
  have wide : 0 < segment.width := Nat.sub_pos_of_lt proper
  by_cases noNodes : segment.portNodes = []
  · have none : segment.merges = [] := by
      cases source with
      | lsp path selectors srcLo =>
          obtain ⟨root, lsp, rooted, isLsp, _⟩ := wired.named named single
          simp [Segment.merges, single, noNodes, rooted]
      | padding | opaqueExpr | portNode | constant => simp [Segment.merges, single]
    rw [none] at ran
    cases ran
    exact ⟨builder, by rw [drivePortSegment, if_pos noNodes], rfl, rfl⟩
  · rw [drivePortSegment_eq noNodes single]
    cases source with
    | lsp path selectors srcLo =>
        obtain ⟨root, lsp, rooted, isLsp, _⟩ := wired.named named single
        have calls : segment.merges = segment.portNodes.map fun node =>
            ⟨root, segment.mapped path srcLo, [{ node := some node, lsp := path.lsp }], true⟩ := by
          simp [Segment.merges, single, rooted]
        rw [calls] at ran
        obtain ⟨next, drove, same, queue⟩ :=
          @drivePortLsp_merges resolveInterfaceRef path root rooted _ _ builder central ran
        exact ⟨next, by simpa [drivePortSource, wide] using drove, same, queue⟩
    | padding =>
        rw [show segment.merges = [] by simp [Segment.merges, single]] at ran
        cases ran
        exact ⟨builder, rfl, rfl, rfl⟩
    | constant value srcLo location =>
        rw [show segment.merges = [] by simp [Segment.merges, single]] at ran
        cases ran
        exact ⟨builder, rfl, rfl, rfl⟩
    | opaqueExpr _ => exact absurd exactly id
    | portNode _ => exact absurd exactly id

/-- The segments of an input queue their reads, in order. -/
theorem drivePortSegments_read {segments : List Segment}
    (wired : ∀ segment ∈ segments, base.Wired port expr segment) (named : Named expr false)
    (builder : NetlistBuilder) :
    ∃ next, segments.foldlM (drivePortSegment resolveInterfaceRef task false) builder =
        some next ∧
      next.pendingQueue = builder.pendingQueue ++ segments.flatMap Segment.reads ∧
      next.central = builder.central := by
  induction segments generalizing builder with
  | nil => exact ⟨builder, rfl, (List.append_nil _).symm, rfl⟩
  | cons segment rest ih =>
      obtain ⟨middle, drove, queue, central⟩ := @drivePortSegment_reads resolveInterfaceRef task
        base port expr segment (wired segment List.mem_cons_self) named builder
      obtain ⟨next, folded, allQueue, allCentral⟩ :=
        ih (fun other member => wired other (List.mem_cons_of_mem _ member)) middle
      refine ⟨next, foldlM_cons_eq_some.mpr ⟨middle, drove, folded⟩, ?_, allCentral.trans central⟩
      rw [allQueue, queue, List.flatMap_cons, List.append_assoc]

/-- The segments of an output make their calls, in order. -/
theorem drivePortSegments_merge {segments : List Segment}
    (wired : ∀ segment ∈ segments, base.Wired port expr segment) (named : Named expr true)
    {builder : NetlistBuilder} {central : TrackerState}
    (ran : (segments.flatMap Segment.merges).foldlM TrackerState.step builder.central =
      some central) :
    ∃ next, segments.foldlM (drivePortSegment resolveInterfaceRef task true) builder =
        some next ∧
      next.central = central ∧ next.pendingQueue = builder.pendingQueue := by
  induction segments generalizing builder with
  | nil =>
      cases ran
      exact ⟨builder, rfl, rfl, rfl⟩
  | cons segment rest ih =>
      rw [List.flatMap_cons, List.foldlM_append, Option.bind_eq_bind,
        Option.bind_eq_some_iff] at ran
      obtain ⟨_, first, ran⟩ := ran
      obtain ⟨middle, drove, rfl, queue⟩ := @drivePortSegment_merges resolveInterfaceRef task
        base port expr segment (wired segment List.mem_cons_self) named builder _ first
      obtain ⟨next, folded, same, later⟩ :=
        ih (fun other member => wired other (List.mem_cons_of_mem _ member)) ran
      exact ⟨next, foldlM_cons_eq_some.mpr ⟨middle, drove, folded⟩, same, later.trans queue⟩

/-- A connection of integral types and equal widths walks over the segments. -/
theorem handlePortConnection_eq {connection : PortConnection} {actual : ConnectionExpr}
    (expression : connection.expression = some actual)
    (integral : connection.port.integral = true ∧ actual.integral = true)
    (inside : builder.PortNodesInside connection.port)
    (sameWidth : actual.expr.width = connection.port.selectableWidth) (fits : actual.expr.Fits)
    (traceable : actual.expr.Traceable) :
    builder.handlePortConnection resolveInterfaceRef task true connection =
      (builder.portSegments connection.port actual.expr).foldlM
        (drivePortSegment resolveInterfaceRef task actual.isAssignment) builder := by
  obtain ⟨tiles, _⟩ := portSegments_spec inside sameWidth fits traceable
  have portTiles := (buildPortSliceList_spec inside).1.tiles
  have portWidth : BitSliceList.width (builder.buildPortSliceList connection.port) =
      connection.port.selectableWidth := @BitSliceList.width_append [] _ _ portTiles
  have actualWidth : BitSliceList.width (BitSliceList.build actual.expr true none) =
      connection.port.selectableWidth := by
    rw [BitSliceList.width_build, SliceExpr.sliceWidth_eq none actual.expr fits, sameWidth]
  unfold handlePortConnection
  rw [expression]
  simp only [not_true_eq_false, integral, or_self, if_false, portWidth, actualWidth, ne_eq]
  split
  · next zero =>
      rw [sameWidth, zero] at tiles
      cases segments : builder.portSegments connection.port actual.expr with
      | nil => rfl
      | cons segment rest =>
          have := tiles.bounds (segments ▸ List.mem_cons_self : segment ∈ _)
          omega
  · rfl

end Walk

section Connected

variable {builder : NetlistBuilder} {port : PortSymbol} {expr : SliceExpr}
  (inside : builder.PortNodesInside port) (sameWidth : expr.width = port.selectableWidth)
  (fits : expr.Fits) (traceable : expr.Traceable)

include inside sameWidth fits traceable

/-- The reads of the segments connect each node to the bits at its positions. -/
theorem reads_connected_iff {node : NodeRef} {symbol : ValueSymbol} {lsp : Nat} {bit : Int} :
    (∃ pending ∈ (builder.portSegments port expr).flatMap Segment.reads,
      pending.node = some node ∧ pending.symbol = symbol ∧ pending.lsp = lsp ∧
        bit ∈ pending.bounds) ↔
      builder.Connected port expr node symbol lsp bit := by
  rw [connected_iff inside sameWidth fits traceable]
  simp only [List.mem_flatMap, Segment.mem_reads]
  constructor
  · rintro ⟨_, ⟨segment, member, path, selectors, srcLo, root, isLsp, own, among, rooted, named,
      nodeMem, rfl⟩, sameNode, rfl, rfl, inBounds⟩
    obtain rfl := Option.some.inj sameNode
    exact ⟨segment, member, path, selectors, srcLo, among, rooted, named, nodeMem, inBounds⟩
  · rintro ⟨segment, member, path, selectors, srcLo, among, rooted, named, nodeMem, inBounds⟩
    exact ⟨_, ⟨segment, member, path, selectors, srcLo, symbol, lsp, node, among, rooted, named,
      nodeMem, rfl⟩, rfl, rfl, rfl, inBounds⟩

/-- The merges of the segments drive the bits at the positions of each node. -/
theorem merges_connected_iff {isOutput : Bool} (named : Named expr isOutput)
    {symbol : ValueSymbol} {bit : Int} {driver : Option NodeRef} :
    (∃ call ∈ builder.portMerges port expr,
      TrackerState.Covering symbol bit call ∧ driver ∈ call.driverList.nodes) ↔
    ∃ node root lsp, driver = some node ∧ symbol.id = root.id ∧
      builder.Connected port expr node root lsp bit := by
  obtain ⟨_, wired⟩ := portSegments_spec inside sameWidth fits traceable
  have connected := fun node symbol lsp bit =>
    @connected_iff builder port expr inside sameWidth fits traceable node symbol lsp bit
  simp only [portMerges, List.mem_flatMap, Segment.mem_merges]
  constructor
  · rintro ⟨_, ⟨segment, member, path, selectors, srcLo, root, node, among, rooted, nodeMem,
      rfl⟩, ⟨sameSymbol, inBounds⟩, isDriver⟩
    obtain ⟨source, single, _⟩ := (wired segment member).source
    rw [single] at among
    obtain rfl := List.mem_singleton.mp among
    obtain ⟨_, lsp, _, isLsp, _⟩ := (wired segment member).named named single
    have isNode : driver = some node := by simpa [DriverList.nodes] using isDriver
    exact ⟨node, root, lsp, isNode, sameSymbol, (connected node root lsp bit).mpr
      ⟨segment, member, path, selectors, srcLo, by simp [single], rooted, isLsp, nodeMem,
        inBounds⟩⟩
  · rintro ⟨node, root, lsp, rfl, sameSymbol, isConnected⟩
    obtain ⟨segment, member, path, selectors, srcLo, among, rooted, isLsp, nodeMem, inBounds⟩ :=
      (connected node root lsp bit).mp isConnected
    exact ⟨_, ⟨segment, member, path, selectors, srcLo, root, node, among, rooted, nodeMem, rfl⟩,
      ⟨sameSymbol, inBounds⟩, by simp [DriverList.nodes]⟩

end Connected

/-- The calls of the port nodes merge. -/
theorem merge_of_mem_portMerges {builder : NetlistBuilder} {port : PortSymbol} {expr : SliceExpr}
    {call : DriverCall} (member : call ∈ builder.portMerges port expr) : call.merge = true := by
  obtain ⟨segment, _, inSegment⟩ := List.mem_flatMap.mp member
  obtain ⟨_, _, _, _, _, _, _, _, rfl⟩ := Segment.mem_merges.mp inSegment
  rfl

/-- An input: each node has pending R-values of exactly the bits at its positions. -/
structure InputExact (builder next : NetlistBuilder) (port : PortSymbol) (expr : SliceExpr) :
    Prop where
  reads : ∃ reads, next.pendingQueue = builder.pendingQueue ++ reads ∧
    ∀ node symbol lsp bit,
      (∃ pending ∈ reads, pending.node = some node ∧ pending.symbol = symbol ∧
        pending.lsp = lsp ∧ bit ∈ pending.bounds) ↔
      builder.Connected port expr node symbol lsp bit
  drivers : next.central = builder.central

/-- An output: each node is a merged driver of exactly the bits at its positions. -/
structure OutputExact (builder next : NetlistBuilder) (port : PortSymbol) (expr : SliceExpr) :
    Prop where
  drivers : ∀ symbol bit driver, driver ∈ next.central.driversAt symbol bit ↔
    driver ∈ builder.central.driversAt symbol bit ∨ ∃ node root lsp, driver = some node ∧
      symbol.id = root.id ∧ builder.Connected port expr node root lsp bit
  reads : next.pendingQueue = builder.pendingQueue

/--
The slices of a port partition its range and list the nodes that contain them.
A connection to an actual of the same width, of values, concatenations,
replications, constants and conversions that do not narrow a value, connects
each node to exactly the bits at its positions: an input reads them, and an
output is merged into their drivers when no merge reaches across a shared list.
-/
theorem handlePortConnection_exact (resolveInterfaceRef : InterfaceRefs) (task : Nat)
    (builder : NetlistBuilder) (connection : PortConnection) {actual : ConnectionExpr}
    (expression : connection.expression = some actual)
    (integral : connection.port.integral = true ∧ actual.integral = true)
    (inside : builder.PortNodesInside connection.port)
    (sameWidth : actual.expr.width = connection.port.selectableWidth) (fits : actual.expr.Fits)
    (traceable : actual.expr.Traceable) (named : Named actual.expr actual.isAssignment) :
    Tiles BitSlice.concatLo BitSlice.concatHi 0 (builder.buildPortSliceList connection.port)
      connection.port.selectableWidth ∧
    (∀ slice ∈ builder.buildPortSliceList connection.port, slice.sources =
      ((builder.variableTracker.lookupAll connection.port.id).filter fun node =>
        builder.CoversSlice slice.concatLo slice.concatHi node).map .portNode) ∧
    (actual.isAssignment = false →
      ∃ next, builder.handlePortConnection resolveInterfaceRef task true connection = some next ∧
        InputExact builder next connection.port actual.expr) ∧
    (actual.isAssignment = true → ∀ central, builder.central.Sound →
      GuardedRun TrackerState.step TrackerState.Writable builder.central
        (builder.portMerges connection.port actual.expr) central →
      ∃ next, builder.handlePortConnection resolveInterfaceRef task true connection = some next ∧
        OutputExact builder next connection.port actual.expr) := by
  obtain ⟨portDenotes, listed⟩ := buildPortSliceList_spec inside
  obtain ⟨_, wired⟩ := portSegments_spec inside sameWidth fits traceable
  rw [handlePortConnection_eq expression integral inside sameWidth fits traceable]
  refine ⟨portDenotes.tiles, listed, fun input => ?_, fun output central sound run => ?_⟩
  · rw [input] at named ⊢
    obtain ⟨next, folded, queue, same⟩ := @drivePortSegments_read resolveInterfaceRef task builder
      connection.port actual.expr _ wired named builder
    exact ⟨next, folded, ⟨_, queue, fun _ _ _ _ =>
      reads_connected_iff inside sameWidth fits traceable⟩, same⟩
  · obtain ⟨_, drivers⟩ := TrackerState.driversAt_merges sound run
      fun _ member => merge_of_mem_portMerges member
    have merged := fun symbol bit driver => @merges_connected_iff builder connection.port
      actual.expr inside sameWidth fits traceable _ named symbol bit driver
    rw [output] at named ⊢
    obtain ⟨next, folded, same, queue⟩ := @drivePortSegments_merge resolveInterfaceRef task builder
      connection.port actual.expr _ wired named builder central run.folded
    refine ⟨next, folded, fun symbol bit driver => ?_, queue⟩
    rw [same, drivers, merged]

/-- A port of `width` bits, its inner symbol, and its nodes. -/
def portOf (width : Nat) : PortSymbol where
  id := 0
  selectableWidth := width
  internalSymbol := some { id := 1, selectableWidth := width }

def withNodes (width : Nat) (bounds : List DriverBitRange) : NetlistBuilder :=
  bounds.foldl (fun builder range => (builder.createPort 0 (portOf width)
    { id := 1, selectableWidth := width } range).2) {}

/-- `x` of the given kind and width. -/
def actualPath (kind : SymbolKind) (width : Nat) : ValuePath where
  rootSymbol := some { id := 2, kind := kind, selectableWidth := width }
  lsp := some 0
  lspBounds := ⟨0, (width : Int) - 1⟩

/-- The input port of `width` bits is connected to the expression. -/
def inputOf (width : Nat) (expr : SliceExpr) : PortConnection where
  port := portOf width
  expression := some { expr := expr }

/-- The output port of `width` bits is connected to the expression. -/
def outputOf (width : Nat) (expr : SliceExpr) : PortConnection where
  port := portOf width
  expression := some { expr := expr, isAssignment := true }

/-- Nodes for `[3:0]` and `[2:1]` of a port, connected to `{x[2:0], 1'b1}`. -/
def overlappingActual : SliceExpr :=
  .concatenation [.value 3 (actualPath .variable 3) [], .other 1 (some ⟨[.one]⟩) .literal none]

/-- All four bits of `x`, for an output. -/
def wholeActual : SliceExpr :=
  .value 4 (actualPath .variable 4) []

theorem portNodesInside_overlapping :
    (withNodes 4 [⟨0, 3⟩, ⟨1, 2⟩]).PortNodesInside (portOf 4) := by
  have nodes : (withNodes 4 [⟨0, 3⟩, ⟨1, 2⟩]).variableTracker.lookupAll (portOf 4).id =
      [⟨0, .port, 1⟩, ⟨0, .port, 2⟩] := by
    decide +kernel
  have first : (withNodes 4 [⟨0, 3⟩, ⟨1, 2⟩]).graph.getBounds ⟨0, .port, 1⟩ = some ⟨0, 3⟩ := by
    decide +kernel
  have second : (withNodes 4 [⟨0, 3⟩, ⟨1, 2⟩]).graph.getBounds ⟨0, .port, 2⟩ = some ⟨1, 2⟩ := by
    decide +kernel
  intro node member bounds bounded
  rw [nodes] at member
  simp only [List.mem_cons, List.not_mem_nil, or_false] at member
  rcases member with rfl | rfl
  · obtain rfl := Option.some.inj (first.symm.trans bounded)
    decide
  · obtain rfl := Option.some.inj (second.symm.trans bounded)
    decide

theorem handlePortConnection_exact_overlapping :
    (Tiles BitSlice.concatLo BitSlice.concatHi 0
        ((withNodes 4 [⟨0, 3⟩, ⟨1, 2⟩]).buildPortSliceList (portOf 4)) 4 ∧
      ∃ next, (withNodes 4 [⟨0, 3⟩, ⟨1, 2⟩]).handlePortConnection (fun _ _ => []) 0 true
          (inputOf 4 overlappingActual) = some next ∧
        InputExact (withNodes 4 [⟨0, 3⟩, ⟨1, 2⟩]) next (portOf 4) overlappingActual) ∧
    ∃ next, (withNodes 4 [⟨0, 3⟩, ⟨1, 2⟩]).handlePortConnection (fun _ _ => []) 0 true
        (outputOf 4 wholeActual) = some next ∧
      OutputExact (withNodes 4 [⟨0, 3⟩, ⟨1, 2⟩]) next (portOf 4) wholeActual := by
  have namedInput : Named overlappingActual false := by
    intro position _ path bit leaf
    simp only [overlappingActual, SliceExpr.leafAt, SliceExpr.operandsLeafAt] at leaf
    split at leaf
    · cases leaf
    · cases leaf
      exact ⟨_, _, rfl, rfl, fun _ => by decide⟩
  have namedOutput : Named wholeActual true := by
    intro position _ path bit leaf
    cases leaf
    exact ⟨_, _, rfl, rfl, fun input => by cases input⟩
  obtain ⟨tiles, _, input, _⟩ := handlePortConnection_exact (fun _ _ => []) 0
    (withNodes 4 [⟨0, 3⟩, ⟨1, 2⟩]) (inputOf 4 overlappingActual) rfl ⟨rfl, rfl⟩
    portNodesInside_overlapping rfl ⟨⟨by decide, by decide⟩, trivial, trivial⟩
    ⟨trivial, by simp [SliceExpr.Traceable, SliceExpr.foldedAt], trivial⟩ namedInput
  obtain ⟨_, _, _, output⟩ := handlePortConnection_exact (fun _ _ => []) 0
    (withNodes 4 [⟨0, 3⟩, ⟨1, 2⟩]) (outputOf 4 wholeActual) rfl ⟨rfl, rfl⟩
    portNodesInside_overlapping rfl ⟨by decide, by decide⟩ trivial namedOutput
  have merges : (((withNodes 4 [⟨0, 3⟩, ⟨1, 2⟩]).portMerges (portOf 4) wholeActual).foldlM
      (GuardedRun.guarded TrackerState.step TrackerState.Writable)
      (withNodes 4 [⟨0, 3⟩, ⟨1, 2⟩]).central).isSome = true := by
    decide +kernel
  obtain ⟨central, folded⟩ := Option.isSome_iff_exists.mp merges
  exact ⟨⟨tiles, input rfl⟩,
    output rfl central TrackerState.sound_empty (GuardedRun.of_foldlM folded)⟩

/-- `2'(x)` for four bits of `x`. -/
def narrowedActual : SliceExpr :=
  .conversion 2 none false (.value 4 (actualPath .variable 4) [])
    (.value .literal (actualPath .variable 4)) none

/--
A port of two bits is connected to `2'(x)`: it reads all four bits of `x`.  A
port of one bit that is connected to a port of a modport queues no read of it.
-/
theorem handlePortConnection_inexact :
    (narrowedActual.Fits ∧ narrowedActual.width = 2 ∧
      ∃ next, (withNodes 2 [⟨0, 1⟩]).handlePortConnection (fun _ _ => []) 0 true
          (inputOf 2 narrowedActual) = some next ∧
        ¬ InputExact (withNodes 2 [⟨0, 1⟩]) next (portOf 2) narrowedActual) ∧
    ∃ next, (withNodes 1 [⟨0, 0⟩]).handlePortConnection (fun _ _ => []) 0 true
        (inputOf 1 (.value 1 (actualPath .modportPort 1) [])) = some next ∧
      ¬ InputExact (withNodes 1 [⟨0, 0⟩]) next (portOf 1)
        (.value 1 (actualPath .modportPort 1) []) := by
  refine ⟨⟨⟨by decide, by decide⟩, rfl, ?_⟩, ?_⟩
  · have succeeds : ((withNodes 2 [⟨0, 1⟩]).handlePortConnection (fun _ _ => []) 0 true
        (inputOf 2 narrowedActual)).isSome = true := by
      decide +kernel
    obtain ⟨next, connected⟩ := Option.isSome_iff_exists.mp succeeds
    have queue : (((withNodes 2 [⟨0, 1⟩]).handlePortConnection (fun _ _ => []) 0 true
        (inputOf 2 narrowedActual)).map NetlistBuilder.pendingQueue) = some [{
          symbol := { id := 2, selectableWidth := 4 }, bounds := ⟨0, 3⟩, lsp := 0
          node := some ⟨0, .port, 1⟩
          semantics := { role := .portConnection, precision := .signal } }] := by
      decide +kernel
    have bounded : (withNodes 2 [⟨0, 1⟩]).graph.getBounds ⟨0, .port, 1⟩ = some ⟨0, 1⟩ := by
      decide +kernel
    refine ⟨next, connected, ?_⟩
    rintro ⟨⟨reads, split, exactly⟩, _⟩
    rw [connected, Option.map_some, Option.some.injEq] at queue
    obtain rfl : reads = _ := split.symm.trans queue
    obtain ⟨position, path, _, ⟨own, ownBounds, inOwn⟩, leaf, _⟩ :=
      (exactly ⟨0, .port, 1⟩ { id := 2, selectableWidth := 4 } 0 3).mp
        ⟨_, List.mem_singleton_self _, rfl, rfl, rfl, by decide⟩
    obtain rfl := Option.some.inj (bounded.symm.trans ownBounds)
    have below : position ≤ 1 := by
      have := inOwn.2
      simp [DriverBitRange.upper] at this
      omega
    simp only [narrowedActual, SliceExpr.leafAt, SliceExpr.foldedAt, Option.filter_none] at leaf
    split at leaf
    · simp [actualPath, DriverBitRange.lower] at leaf
      omega
    · cases leaf
  · have succeeds : ((withNodes 1 [⟨0, 0⟩]).handlePortConnection (fun _ _ => []) 0 true
        (inputOf 1 (.value 1 (actualPath .modportPort 1) []))).isSome = true := by
      decide +kernel
    obtain ⟨next, connected⟩ := Option.isSome_iff_exists.mp succeeds
    have queue : (((withNodes 1 [⟨0, 0⟩]).handlePortConnection (fun _ _ => []) 0 true
        (inputOf 1 (.value 1 (actualPath .modportPort 1) []))).map
          NetlistBuilder.pendingQueue) = some [] := by
      decide +kernel
    have known : ⟨0, .port, 1⟩ ∈ (withNodes 1 [⟨0, 0⟩]).variableTracker.lookupAll (portOf 1).id ∧
        (withNodes 1 [⟨0, 0⟩]).HasPosition 0 ⟨0, .port, 1⟩ := by
      decide +kernel
    refine ⟨next, connected, ?_⟩
    rintro ⟨⟨reads, split, exactly⟩, _⟩
    rw [connected, Option.map_some, Option.some.injEq] at queue
    obtain rfl : reads = _ := split.symm.trans queue
    obtain ⟨_, none, _⟩ := (exactly ⟨0, .port, 1⟩
      { id := 2, kind := .modportPort, selectableWidth := 1 } 0 0).mpr
        ⟨0, actualPath .modportPort 1, known.1, known.2, rfl, rfl, rfl⟩
    exact absurd none List.not_mem_nil

end NetlistBuilder

end SlangNetlist
