import SlangNetlist.Analysis.BitSliceBits
import SlangNetlist.Build.DeferredBlocks
import SlangNetlist.Build.PortConnectionHandler
import SlangNetlist.Tracking.Coverage

/-!
# The cuts of port nodes

Two walks follow the structure of an actual: `buildInto` appends slices to a
list, and `collectActualCuts` adds the widths to a base offset.  Where a slice
of the first ends inside the actual, the second has a cut, and the nodes of the
port are split there.
-/

namespace SlangNetlist

open Library

namespace SliceExpr

mutual

/-- An expression without `?:` in which replications are as wide as their copies. -/
def Cuttable : SliceExpr → Prop
  | .value .. => True
  | .concatenation operands => OperandsCuttable operands
  | .replication width count concat _ =>
      match count with
      | none => True
      | some count => width = count.toNat * concat.width ∧ concat.Cuttable
  | .conversion _ _ _ operand _ _ => operand.Cuttable
  | .conditionalOp .. => False
  | .other .. => True

def OperandsCuttable : List SliceExpr → Prop
  | [] => True
  | operand :: rest => operand.Cuttable ∧ OperandsCuttable rest

end

mutual

/-- Without cuts the slices of a value have its width. -/
theorem sliceWidth_cuttable : ∀ expr : SliceExpr, expr.Cuttable → sliceWidth none expr = expr.width
  | .value width path selectors, _ => by
      simp only [sliceWidth, SliceExpr.width, BitSliceList.innerCuts, if_true]
      split
      · next zero => exact zero.symm
      · rfl
  | .concatenation operands, cuttable => operandsSliceWidth_cuttable operands cuttable
  | .replication width count concat expr, cuttable => by
      cases count with
      | none => rfl
      | some count =>
          simp only [Cuttable] at cuttable
          simp only [sliceWidth, SliceExpr.width, sliceWidth_cuttable concat cuttable.2, cuttable.1]
  | .conversion width folded isSignExt operand expr location, cuttable => by
      have inner := sliceWidth_cuttable operand cuttable
      simp only [sliceWidth, SliceExpr.width, inner]
      cases foldedAt width folded with
      | some number => rfl
      | none =>
          dsimp only
          split
          · next equal => exact equal.symm
          · split
            · next wider => exact Nat.add_sub_cancel' (Nat.le_of_lt wider)
            · rfl
  | .conditionalOp .., cuttable => absurd cuttable id
  | .other .., _ => rfl

theorem operandsSliceWidth_cuttable : ∀ operands : List SliceExpr, OperandsCuttable operands →
    operandsSliceWidth none operands = operandsWidth operands
  | [], _ => rfl
  | operand :: rest, cuttable => by
      rw [operandsSliceWidth, operandsWidth, sliceWidth_cuttable operand cuttable.1,
        operandsSliceWidth_cuttable rest cuttable.2, Nat.add_comm]

end

end SliceExpr

/-! ## The two walks -/

namespace BitSliceList

/-- The appended slices end at the given offsets, or where all of them end. -/
def EndsAt (out result : BitSliceList) (count : Nat) (offsets : Nat → Prop) : Prop :=
  ∃ added, result = out ++ added ∧ ∀ slice ∈ added, ∃ offset, 0 < offset ∧
    slice.concatHi = width out + offset ∧ (offset = count ∨ offsets offset)

section EndsAt

variable {out list result : BitSliceList} {count more : Nat} {first second both : Nat → Prop}

theorem EndsAt.refl (out : BitSliceList) (count : Nat) (offsets : Nat → Prop) :
    EndsAt out out count offsets :=
  ⟨[], (List.append_nil out).symm, by simp⟩

theorem EndsAt.imp (ends : EndsAt out result count first)
    (implies : ∀ offset, first offset → second offset) : EndsAt out result count second := by
  obtain ⟨added, split, places⟩ := ends
  refine ⟨added, split, fun slice member => ?_⟩
  obtain ⟨offset, positive, place, which⟩ := places slice member
  exact ⟨offset, positive, place, which.imp_right (implies offset)⟩

/-- One walk after another: the place between them must be an offset too. -/
theorem EndsAt.trans (front : EndsAt out list count first) (back : EndsAt list result more second)
    (middle : width list = width out + count) (inFront : ∀ offset, first offset → both offset)
    (between : count = 0 ∨ more = 0 ∨ both count)
    (inBack : ∀ offset, second offset → both (count + offset)) :
    EndsAt out result (count + more) both := by
  obtain ⟨added, rfl, places⟩ := front
  obtain ⟨later, rfl, laterPlaces⟩ := back
  refine ⟨added ++ later, List.append_assoc _ _ _, fun slice member => ?_⟩
  rcases List.mem_append.mp member with inAdded | inLater
  · obtain ⟨offset, positive, place, atEnd | atOffset⟩ := places slice inAdded
    · subst atEnd
      refine ⟨offset, positive, place, ?_⟩
      rcases between with zero | zero | holds
      · omega
      · exact .inl (by omega)
      · exact .inr holds
    · exact ⟨offset, positive, place, .inr (inFront offset atOffset)⟩
  · obtain ⟨offset, positive, place, which⟩ := laterPlaces slice inLater
    refine ⟨count + offset, by omega, by omega, ?_⟩
    rcases which with rfl | atOffset
    · exact .inl rfl
    · exact .inr (inBack offset atOffset)

/-- A single slice ends where the walk does. -/
theorem endsAt_pushSource (out : BitSliceList) (count : Nat) (source : Nat → BitSliceSource)
    (offsets : Nat → Prop) : EndsAt out (pushSource out count source) count offsets := by
  unfold pushSource
  split
  · exact .refl out count offsets
  · next some =>
      refine ⟨_, rfl, fun slice member => ⟨count, Nat.pos_of_ne_zero some, ?_, .inl rfl⟩⟩
      rw [List.mem_singleton.mp member]

theorem endsAt_pushPadding (out : BitSliceList) {count : Nat} (proper : 0 < count)
    (isSignExt : Bool) (offsets : Nat → Prop) :
    EndsAt out (pushPadding out count isSignExt) count offsets := by
  refine ⟨_, rfl, fun slice member => ⟨count, proper, ?_, .inl rfl⟩⟩
  rw [List.mem_singleton.mp member]

end EndsAt

variable (registry : CutRegistry)

/-- The offset of an expression is among its cuts, wherever the expression lies. -/
def CutIn (expr : SliceExpr) (offset : Nat) : Prop :=
  ∀ baseOffset, baseOffset + offset ∈ collectActualCuts registry baseOffset expr

/-- The same for the last operands of a concatenation that is `total` bits wide. -/
def OperandsCutIn (operands : List SliceExpr) (total offset : Nat) : Prop :=
  ∀ baseOffset,
    baseOffset + offset ∈ collectOperandCuts registry baseOffset (baseOffset + total) operands

/-- The end of the last operands is a cut, unless the concatenation ends there. -/
theorem operandsCutIn_width {operands : List SliceExpr} {total : Nat}
    (some : operands ≠ []) (inside : SliceExpr.operandsWidth operands ≠ total) :
    OperandsCutIn registry operands total (SliceExpr.operandsWidth operands) := by
  intro baseOffset
  cases operands with
  | nil => exact absurd rfl some
  | cons operand rest =>
      have place : baseOffset + SliceExpr.operandsWidth rest + operand.width =
          baseOffset + SliceExpr.operandsWidth (operand :: rest) := by
        simp only [SliceExpr.operandsWidth]
        omega
      simp only [collectOperandCuts, List.mem_append]
      refine .inr ?_
      rw [place, if_pos (by omega)]
      exact List.mem_singleton_self _

theorem width_buildInto {expr : SliceExpr} (cuttable : expr.Cuttable) (out : BitSliceList) :
    width (buildInto none out expr) = width out + expr.width := by
  rw [(extends_buildInto none expr out).width_eq, SliceExpr.sliceWidth_cuttable expr cuttable]

theorem width_buildOperands {operands : List SliceExpr}
    (cuttable : SliceExpr.OperandsCuttable operands) (out : BitSliceList) :
    width (buildOperands none out operands) = width out + SliceExpr.operandsWidth operands := by
  rw [(extends_buildOperands none operands out).width_eq,
    SliceExpr.operandsSliceWidth_cuttable operands cuttable]

/-- The copies of a replication end at cuts. -/
theorem endsAt_repeat {concat : SliceExpr} {count : Int} {expr : Expr}
    (cuttable : concat.Cuttable)
    (once : ∀ out, EndsAt out (buildInto none out concat) concat.width (CutIn registry concat))
    (out : BitSliceList) {times : Nat} (within : times ≤ count.toNat) :
    EndsAt out (times.repeat (fun out => buildInto none out concat) out) (times * concat.width)
      (CutIn registry (.replication (count.toNat * concat.width) (some count) concat expr)) ∧
    width (times.repeat (fun out => buildInto none out concat) out) =
      width out + times * concat.width := by
  induction times with
  | zero => exact ⟨.refl out _ _, by simp [Nat.repeat]⟩
  | succ times ih =>
      obtain ⟨ends, middle⟩ := ih (by omega)
      rw [Nat.succ_mul]
      refine ⟨ends.trans (once _) middle (fun _ => id) ?_ ?_, ?_⟩
      · -- the place between two copies is pushed after the earlier one
        by_cases zero : times * concat.width = 0
        · exact .inl zero
        · have nonzero := Nat.mul_ne_zero_iff.mp zero
          refine .inr (.inr fun baseOffset => ?_)
          simp only [collectActualCuts, List.mem_flatMap, List.mem_range, List.mem_append]
          refine ⟨times - 1, by omega, .inr ?_⟩
          have less : times * concat.width < count.toNat * concat.width :=
            Nat.mul_lt_mul_of_pos_right (by omega) (by omega)
          rw [Nat.sub_add_cancel (by omega), if_pos (by omega)]
          exact List.mem_singleton_self _
      · intro offset holds baseOffset
        simp only [collectActualCuts, List.mem_flatMap, List.mem_range, List.mem_append]
        refine ⟨times, by omega, .inl ?_⟩
        rw [← Nat.add_assoc]
        exact holds _
      · rw [Nat.repeat, width_buildInto cuttable, middle, Nat.add_assoc]

mutual

/-- The slices of an expression end at its cuts. -/
theorem endsAt_buildInto : ∀ (expr : SliceExpr), expr.Cuttable → ∀ out : BitSliceList,
    EndsAt out (buildInto none out expr) expr.width (CutIn registry expr)
  | .value width path selectors, _, out => by
      simp only [buildInto, pushLsp, innerCuts]
      split
      · exact .refl out _ _
      · exact endsAt_pushSource out width _ _
  | .concatenation operands, cuttable, out => by
      refine (endsAt_buildOperands operands (SliceExpr.operandsWidth operands) cuttable
        (Nat.le_refl _) out).imp fun offset holds baseOffset => ?_
      simpa only [collectActualCuts] using holds baseOffset
  | .replication width count concat expr, cuttable, out => by
      cases count with
      | none => exact endsAt_pushSource out width (fun _ => .opaqueExpr expr) _
      | some count =>
          simp only [SliceExpr.Cuttable] at cuttable
          obtain ⟨rfl, inner⟩ := cuttable
          exact (endsAt_repeat registry inner (endsAt_buildInto concat inner) out
            (Nat.le_refl _)).1
  | .conversion width folded isSignExt operand expr location, cuttable, out => by
      have inner := endsAt_buildInto operand cuttable out
      simp only [buildInto]
      cases folded.filter fun value => value.bits.length = width with
      | some number => exact endsAt_pushSource out width _ _
      | none =>
          dsimp only
          by_cases equal : width = operand.width
          · rw [if_pos equal]
            subst equal
            refine inner.imp fun offset holds baseOffset => ?_
            simpa only [collectActualCuts, if_true] using holds baseOffset
          · rw [if_neg equal]
            by_cases wider : width > operand.width
            · have whole : width = operand.width + (width - operand.width) := by omega
              rw [if_pos wider]
              have ends : EndsAt out
                  (pushPadding (buildInto none out operand) (width - operand.width) isSignExt)
                  (operand.width + (width - operand.width))
                  (CutIn registry (.conversion width folded isSignExt operand expr location)) := by
                refine inner.trans (endsAt_pushPadding _ (Nat.sub_pos_of_lt wider) isSignExt
                  fun _ => False) (@width_buildInto operand cuttable out) ?_ (.inr (.inr ?_)) ?_
                · intro offset holds baseOffset
                  simp only [collectActualCuts, equal, if_false, wider, if_true, List.mem_append]
                  exact .inl (holds baseOffset)
                · intro baseOffset
                  simp [collectActualCuts, equal, wider]
                · exact fun _ none => absurd none id
              rwa [← whole] at ends
            · rw [if_neg wider]
              exact endsAt_pushSource out width _ _
  | .conditionalOp .., cuttable, _ => absurd cuttable id
  | .other width folded expr location, _, out => by
      simp only [buildInto]
      cases folded.filter fun value => value.bits.length = width with
      | some number => exact endsAt_pushSource out width _ _
      | none => exact endsAt_pushSource out width _ _

/-- The slices of the last operands of a concatenation that is `total` bits wide. -/
theorem endsAt_buildOperands : ∀ (operands : List SliceExpr) (total : Nat),
    SliceExpr.OperandsCuttable operands → SliceExpr.operandsWidth operands ≤ total →
    ∀ out : BitSliceList, EndsAt out (buildOperands none out operands)
      (SliceExpr.operandsWidth operands) (OperandsCutIn registry operands total)
  | [], _, _, _, out => .refl out _ _
  | operand :: rest, total, cuttable, within, out => by
      have wider : SliceExpr.operandsWidth (operand :: rest) =
          SliceExpr.operandsWidth rest + operand.width := Nat.add_comm _ _
      rw [wider] at within ⊢
      refine (endsAt_buildOperands rest total cuttable.2 (by omega) out).trans
        (endsAt_buildInto operand cuttable.1 _) (width_buildOperands cuttable.2 out) ?_ ?_ ?_
      · intro offset holds baseOffset
        simp only [collectOperandCuts, List.mem_append]
        exact .inl (.inl (holds baseOffset))
      · by_cases some : rest = []
        · exact .inl (by rw [some, SliceExpr.operandsWidth])
        · by_cases last : operand.width = 0
          · exact .inr (.inl last)
          · refine .inr (.inr fun baseOffset => ?_)
            simp only [collectOperandCuts, List.mem_append]
            exact .inl (.inl (operandsCutIn_width registry some (by omega) baseOffset))
      · intro offset holds baseOffset
        simp only [collectOperandCuts, List.mem_append]
        refine .inl (.inr ?_)
        rw [← Nat.add_assoc]
        exact holds _

end

/-- A place inside of a list where a slice ends. -/
def Interior (list : BitSliceList) (boundary : Nat) : Prop :=
  boundary ∈ collectCuts list ∧ 0 < boundary ∧ boundary < width list

instance (list : BitSliceList) (boundary : Nat) : Decidable (Interior list boundary) :=
  inferInstanceAs (Decidable (_ ∧ _ ∧ _))

/-- The boundaries of the slices are among the cuts. -/
theorem mem_collectActualCuts_of_interior {expr : SliceExpr} (cuttable : expr.Cuttable)
    {boundary : Nat} (interior : Interior (build expr true none) boundary) :
    boundary ∈ collectActualCuts registry 0 expr ∧ boundary < expr.width := by
  obtain ⟨among, positive, inside⟩ := interior
  rw [width_build, SliceExpr.sliceWidth_cuttable expr cuttable] at inside
  obtain ⟨added, built, places⟩ := endsAt_buildInto registry expr cuttable []
  rw [List.nil_append] at built
  rw [show build expr true none = buildInto none [] expr from rfl, built, collectCuts] at among
  rcases List.mem_cons.mp among with zero | atEnd
  · omega
  · obtain ⟨slice, member, rfl⟩ := List.mem_map.mp atEnd
    obtain ⟨offset, _, place, which⟩ := places slice member
    rw [show width ([] : BitSliceList) = 0 from rfl, Nat.zero_add] at place
    rcases which with whole | cut
    · omega
    · have atCut := cut 0
      rw [Nat.zero_add, ← place] at atCut
      exact ⟨atCut, inside⟩

end BitSliceList

/-! ## The registry -/

section Registry

variable {registry : CutRegistry} {symbol other : ValueSymbol} {cut : Nat}

/-- The cuts of a symbol after others have been added: the endpoints are dropped. -/
theorem mem_cutsFor_addCuts {width : Nat} {cuts : List Nat} :
    cut ∈ ((registry.addCuts symbol width cuts).cutsFor other).getD [] ↔
      cut ∈ (registry.cutsFor other).getD [] ∨
        other.id = symbol.id ∧ cut ∈ cuts ∧ 0 < cut ∧ cut < width := by
  unfold CutRegistry.addCuts
  by_cases empty : cuts = []
  · simp [empty]
  · rw [if_neg empty]
    by_cases same : other.id = symbol.id
    · have old : registry.cutsFor symbol = registry.cutsFor other := by
        simp only [CutRegistry.cutsFor, same]
      simp [CutRegistry.cutsFor, CutRegistry.sortCuts, same]
    · have kept : (registry.entries.filter fun entry => entry.1 ≠ symbol.id).find?
          (fun entry => entry.1 = other.id) =
            registry.entries.find? fun entry => entry.1 = other.id := by
        rw [List.find?_filter]
        congr 1
        funext entry
        by_cases found : entry.1 = other.id <;> simp [found, same]
      simp only [CutRegistry.cutsFor, List.find?_cons, Ne.symm same, decide_false, kept, same,
        false_and, or_false]

/-- Recording a connection keeps the cuts that are there. -/
theorem mem_cutsFor_record {connections : List PortConnection}
    (known : cut ∈ (registry.cutsFor symbol).getD []) :
    cut ∈ ((recordCutsFromPortConnections registry connections).cutsFor symbol).getD [] := by
  unfold recordCutsFromPortConnections
  induction connections generalizing registry with
  | nil => exact known
  | cons connection rest ih =>
      rw [List.foldl_cons]
      refine ih ?_
      unfold recordCuts
      split
      · split
        · exact known
        · exact mem_cutsFor_addCuts.mpr (.inl known)
      · exact known

end Registry

/-! ## The segments of a driver -/

namespace DriverBitRange

/-- The half-open range of bits, for the bounds of a driver. -/
def lo (range : DriverBitRange) : Nat := range.lower.toNat

def hi (range : DriverBitRange) : Nat := range.upper.toNat + 1

end DriverBitRange

section Segments

variable {hints : Option (List Nat)} {driver : ValueDriver}

/-- The segments partition the range of the driver. -/
theorem tiles_driverSegments (sorted : ∀ cuts, hints = some cuts → cuts.Pairwise (· < ·)) :
    Tiles DriverBitRange.lo DriverBitRange.hi driver.first (driverSegments hints driver)
      (driver.second + 1) := by
  have proper := driver.ascending
  cases hints with
  | none =>
      have bounds : driver.bounds.lo = driver.first ∧ driver.bounds.hi = driver.second + 1 := by
        simp [ValueDriver.bounds, DriverBitRange.lo, DriverBitRange.hi, proper]
      refine .cons bounds.1 (by omega) ?_
      rw [bounds.2]
      exact .nil
  | some cuts =>
      have pieces := tiles_cutsBetween (sorted cuts rfl) (Nat.lt_succ_of_le proper)
      have places : ∀ pair ∈ neighbours (driver.first :: cutsBetween driver.first
          (driver.second + 1) cuts ++ [driver.second + 1]),
          (⟨pair.1, (pair.2 : Int) - 1⟩ : DriverBitRange).lo = pair.1 ∧
            (⟨pair.1, (pair.2 : Int) - 1⟩ : DriverBitRange).hi = pair.2 := by
        intro pair member
        have nonempty := (pieces.bounds member).2.1
        simp only [DriverBitRange.lo, DriverBitRange.hi]
        rw [DriverBitRange.lower_mk (by omega), DriverBitRange.upper_mk (by omega)]
        omega
      exact pieces.map_of_mem places

/-- No cut lies strictly inside a segment. -/
theorem driverSegments_uncut {cuts : List Nat} (sorted : cuts.Pairwise (· < ·))
    {segment : DriverBitRange} (member : segment ∈ driverSegments (some cuts) driver) {cut : Nat}
    (cutMem : cut ∈ cuts) : cut ≤ segment.lo ∨ segment.hi ≤ cut := by
  have proper := Nat.lt_succ_of_le driver.ascending
  obtain ⟨pair, pairMem, rfl⟩ := List.mem_map.mp member
  have nonempty := ((tiles_cutsBetween sorted proper).bounds pairMem).2.1
  have outside := not_inside_cutsBetween sorted proper pairMem cutMem
  simp only [DriverBitRange.lo, DriverBitRange.hi]
  rw [DriverBitRange.lower_mk (by omega), DriverBitRange.upper_mk (by omega)]
  omega

/-- The segments have bits of the driver only, and no bit in common. -/
theorem driverSegments_apart (sorted : ∀ cuts, hints = some cuts → cuts.Pairwise (· < ·)) :
    (∀ segment ∈ driverSegments hints driver, ∀ bit ∈ segment, bit ∈ driver.bounds) ∧
      (driverSegments hints driver).Pairwise fun first second => ∀ bit ∈ first, bit ∉ second := by
  have tiles := @tiles_driverSegments hints driver sorted
  have nonnegative : ∀ segment ∈ driverSegments hints driver, 0 ≤ segment.lower := by
    intro segment member
    cases hints with
    | none =>
        obtain rfl := List.mem_singleton.mp member
        simp [ValueDriver.bounds, driver.ascending]
    | some cuts =>
        obtain ⟨pair, pairMem, rfl⟩ := List.mem_map.mp member
        have nonempty := ((tiles_cutsBetween (sorted cuts rfl)
          (Nat.lt_succ_of_le driver.ascending)).bounds pairMem).2.1
        rw [DriverBitRange.lower_mk (by omega)]
        omega
  constructor
  · intro segment member bit inside
    have := tiles.bounds member
    have := nonnegative segment member
    have := driver.ascending
    rw [DriverBitRange.mem_iff] at inside ⊢
    simp only [DriverBitRange.lo, DriverBitRange.hi] at *
    simp only [ValueDriver.bounds]
    rw [DriverBitRange.lower_mk (by omega), DriverBitRange.upper_mk (by omega)]
    omega
  · refine tiles.pairwise.imp_of_mem fun {first second} firstMem secondMem before bit inFirst
      inSecond => ?_
    have := nonnegative first firstMem
    have := nonnegative second secondMem
    rw [DriverBitRange.mem_iff] at inFirst inSecond
    simp only [DriverBitRange.lo, DriverBitRange.hi] at before
    omega

end Segments

/-! ## The nodes of a port -/

/-- A port node with the given bounds. -/
def NetlistNode.IsPort (node : NetlistNode) (bounds : DriverBitRange) : Prop :=
  node.data.kind = .port ∧ node.data.getBounds = some bounds

namespace NetlistBuilder

variable {task : Nat} {port : PortSymbol} {symbol : ValueSymbol} {isInputPort : Bool}
  {builder middle next : NetlistBuilder}

theorem nodes_createPort (builder : NetlistBuilder) (bounds : DriverBitRange) :
    ∃ node : NetlistNode, node.IsPort bounds ∧
      (builder.createPort task port symbol bounds).2.graph.nodes =
        builder.graph.nodes ++ [node] := by
  obtain ⟨symRef, interned⟩ : ∃ symRef, (builder.graph.toSymbolRef symbol).1 = symRef := ⟨_, rfl⟩
  refine ⟨{
      ref := builder.freshRef task .port
      ID := builder.nextID
      data := .port symRef.name symRef.hierarchicalPath symRef.location port.direction bounds },
    ⟨rfl, rfl⟩, ?_⟩
  simp only [← interned, createPort, NetlistGraph.addNode, NetlistGraph.nodes_toSymbolRef]

theorem graph_addDriver {lsp : Option Nat} {bounds : DriverBitRange} {node : NodeRef}
    (added : builder.addDriver symbol lsp bounds node = some next) :
    next.graph = builder.graph := by
  unfold addDriver at added
  rw [Option.bind_eq_bind, Option.bind_eq_some_iff] at added
  obtain ⟨_, _, same⟩ := added
  cases same
  rfl

/-- A segment gets one node. -/
theorem materializeSegment_adds {segment : DriverBitRange}
    (made : materializeSegment task port symbol isInputPort builder segment = some next) :
    ∃ node : NetlistNode, node.IsPort segment ∧
      next.graph.nodes = builder.graph.nodes ++ [node] := by
  obtain ⟨node, isPort, nodes⟩ := @nodes_createPort task port symbol builder segment
  refine ⟨node, isPort, ?_⟩
  cases isInputPort with
  | true =>
      have same := graph_addDriver (show addDriver _ symbol none segment _ = some next from made)
      rw [same]
      exact nodes
  | false =>
      cases made
      exact nodes

/-- Every segment of a driver gets one node. -/
theorem materializeSegments_add {segments : List DriverBitRange}
    (made : segments.foldlM (materializeSegment task port symbol isInputPort) builder =
      some next) :
    ∃ nodes : List NetlistNode, List.Forall₂ NetlistNode.IsPort nodes segments ∧
      next.graph.nodes = builder.graph.nodes ++ nodes := by
  induction segments generalizing builder with
  | nil =>
      cases made
      exact ⟨[], .nil, (List.append_nil _).symm⟩
  | cons segment rest ih =>
      obtain ⟨middle, stepped, made⟩ := foldlM_cons_eq_some.mp made
      obtain ⟨node, isPort, nodes⟩ := materializeSegment_adds stepped
      obtain ⟨others, ports, all⟩ := ih made
      exact ⟨node :: others, .cons isPort ports, by rw [all, nodes, List.append_assoc]; rfl⟩

/-- The nodes of the segments of each driver, in order. -/
theorem materializeDrivers_add {hints : Option (List Nat)} {drivers : List ValueDriver}
    (made : drivers.foldlM (fun builder driver => (driverSegments hints driver).foldlM
      (materializeSegment task port symbol driver.isInputPort) builder) builder = some next) :
    ∃ nodes : List (List NetlistNode),
      List.Forall₂ (fun driver nodes =>
        List.Forall₂ NetlistNode.IsPort nodes (driverSegments hints driver)) drivers nodes ∧
      next.graph.nodes = builder.graph.nodes ++ nodes.flatten := by
  induction drivers generalizing builder with
  | nil =>
      cases made
      exact ⟨[], .nil, (List.append_nil _).symm⟩
  | cons driver rest ih =>
      obtain ⟨middle, stepped, made⟩ := foldlM_cons_eq_some.mp made
      obtain ⟨first, ports, nodes⟩ := materializeSegments_add stepped
      obtain ⟨others, otherPorts, all⟩ := ih made
      exact ⟨first :: others, .cons ports otherPorts, by
        rw [all, nodes, List.append_assoc, List.flatten_cons]⟩

/-! ## Assertions -/

/-- The central map is sound, and the new definitions of a symbol are among the bits. -/
structure Defined (builder next : NetlistBuilder) (symbol : ValueSymbol) (bits : Int → Prop) :
    Prop where
  sound : next.central.Sound
  tidy : next.central.Tidy
  defines : ∀ bit, next.central.Defines symbol bit →
    builder.central.Defines symbol bit ∨ bits bit

theorem Defined.trans {first second both : Int → Prop} (front : Defined builder middle symbol first)
    (back : Defined middle next symbol second) (inFront : ∀ bit, first bit → both bit)
    (inBack : ∀ bit, second bit → both bit) : Defined builder next symbol both where
  sound := back.sound
  tidy := back.tidy
  defines bit defines := by
    rcases back.defines bit defines with old | new
    · exact (front.defines bit old).imp_right (inFront bit)
    · exact .inr (inBack bit new)

/-- A range without definitions can be driven. -/
theorem addDriver_succeeds (sound : builder.central.Sound) (tidy : builder.central.Tidy)
    {bounds : DriverBitRange} (undefined : ∀ bit ∈ bounds, ¬ builder.central.Defines symbol bit)
    (lsp : Option Nat) (node : NodeRef) :
    ∃ next, builder.addDriver symbol lsp bounds node = some next ∧
      Defined builder next symbol (· ∈ bounds) := by
  have separated : (builder.central.driverMap symbol).Separated bounds := by
    intro entry entryMem inside
    have proper := (tidy.ordered symbol).proper entry entryMem
    exact absurd ⟨entry, entryMem, le_rfl, proper⟩
      (undefined entry.first ⟨inside.1, proper.trans inside.2⟩)
  obtain ⟨result, stepped, resultSound, _⟩ := sound.step_adds
    (show builder.central.Writable ⟨symbol, bounds, [{ node := some node, lsp := lsp }], false⟩ from
      separated.writable _ _)
  obtain ⟨resultTidy, _, defines⟩ := tidy.step stepped
  simp only [TrackerState.step, Option.bind_eq_bind, Option.bind_eq_some_iff] at stepped
  obtain ⟨added, addedEq, same⟩ := stepped
  cases same
  refine ⟨{ builder with driverMap := added.1, drivers := added.2 }, ?_, resultSound, resultTidy,
    fun bit defined => ?_⟩
  · simp only [addDriver, Option.bind_eq_bind, Option.bind_eq_some_iff]
    exact ⟨added, addedEq, rfl⟩
  · exact ((defines symbol bit).mp defined).imp_right And.right

/-- The segments of a driver can be made: only an input port drives its bits. -/
theorem materializeSegments_succeed (sound : builder.central.Sound) (tidy : builder.central.Tidy)
    {segments : List DriverBitRange}
    (apart : segments.Pairwise fun first second => ∀ bit ∈ first, bit ∉ second)
    (undefined : isInputPort = true → ∀ segment ∈ segments, ∀ bit ∈ segment,
      ¬ builder.central.Defines symbol bit) :
    ∃ next, segments.foldlM (materializeSegment task port symbol isInputPort) builder =
        some next ∧
      Defined builder next symbol fun bit =>
        isInputPort = true ∧ ∃ segment ∈ segments, bit ∈ segment := by
  induction segments generalizing builder with
  | nil => exact ⟨builder, rfl, sound, tidy, fun _ => .inl⟩
  | cons segment rest ih =>
      obtain ⟨fromFirst, apart⟩ := List.pairwise_cons.mp apart
      have made : ∃ middle, materializeSegment task port symbol isInputPort builder segment =
          some middle ∧
          Defined builder middle symbol fun bit => isInputPort = true ∧ bit ∈ segment := by
        unfold materializeSegment
        cases isInputPort with
        | false => exact ⟨_, rfl, sound, tidy, fun _ => .inl⟩
        | true =>
            obtain ⟨middle, added, defined⟩ := @addDriver_succeeds symbol
              (builder.createPort task port symbol segment).2 sound tidy segment
              (undefined rfl segment List.mem_cons_self) none
              (builder.createPort task port symbol segment).1
            exact ⟨middle, added, defined.sound, defined.tidy, fun bit holds =>
              (defined.defines bit holds).imp_right fun inside => ⟨rfl, inside⟩⟩
      obtain ⟨middle, stepped, defined⟩ := made
      obtain ⟨next, folded, later⟩ := ih defined.sound defined.tidy apart fun isInput other member
          bit inside holds => by
        rcases defined.defines bit holds with old | ⟨_, new⟩
        · exact undefined isInput other (List.mem_cons_of_mem _ member) bit inside old
        · exact fromFirst other member bit new inside
      refine ⟨next, foldlM_cons_eq_some.mpr ⟨middle, stepped, folded⟩, defined.trans later ?_ ?_⟩
      · exact fun bit ⟨isInput, inside⟩ => ⟨isInput, segment, List.mem_cons_self, inside⟩
      · exact fun bit ⟨isInput, other, member, inside⟩ =>
          ⟨isInput, other, List.mem_cons_of_mem _ member, inside⟩

/-- No two input drivers have a bit in common, and no bit of one is driven yet. -/
structure Undriven (builder : NetlistBuilder) (symbol : ValueSymbol)
    (drivers : List ValueDriver) : Prop where
  sound : builder.central.Sound
  tidy : builder.central.Tidy
  apart : drivers.Pairwise fun first second => first.isInputPort = true →
    second.isInputPort = true → ∀ bit ∈ first.bounds, bit ∉ second.bounds
  undefined : ∀ driver ∈ drivers, driver.isInputPort = true → ∀ bit ∈ driver.bounds,
    ¬ builder.central.Defines symbol bit

/-- The nodes of the drivers can be made. -/
theorem Undriven.materializes {hints : Option (List Nat)} {drivers : List ValueDriver}
    (sorted : ∀ cuts, hints = some cuts → cuts.Pairwise (· < ·))
    (undriven : builder.Undriven symbol drivers) :
    ∃ next, drivers.foldlM (fun builder driver => (driverSegments hints driver).foldlM
      (materializeSegment task port symbol driver.isInputPort) builder) builder = some next := by
  induction drivers generalizing builder with
  | nil => exact ⟨builder, rfl⟩
  | cons driver rest ih =>
      obtain ⟨sound, tidy, apart, undefined⟩ := undriven
      obtain ⟨fromFirst, apart⟩ := List.pairwise_cons.mp apart
      obtain ⟨within, segmentsApart⟩ := @driverSegments_apart hints driver sorted
      obtain ⟨middle, stepped, defined⟩ := @materializeSegments_succeed task port symbol
        driver.isInputPort builder sound tidy _ segmentsApart
          fun isInput segment member bit inside =>
            undefined driver List.mem_cons_self isInput bit (within segment member bit inside)
      obtain ⟨next, folded⟩ := ih ⟨defined.sound, defined.tidy, apart,
        fun other member isInput bit inside holds => by
          rcases defined.defines bit holds with old | ⟨firstInput, segment, segmentMem, new⟩
          · exact undefined other (List.mem_cons_of_mem _ member) isInput bit inside old
          · exact fromFirst other member firstInput isInput bit
              (within segment segmentMem bit new) inside⟩
      exact ⟨next, foldlM_cons_eq_some.mpr ⟨middle, stepped, folded⟩⟩

/-- The nodes made for a driver: they partition its range, and no boundary is inside of one. -/
structure SplitAt (boundaries : Nat → Prop) (driver : ValueDriver) (nodes : List NetlistNode) :
    Prop where
  partition : ∃ segments, List.Forall₂ NetlistNode.IsPort nodes segments ∧
    Tiles DriverBitRange.lo DriverBitRange.hi driver.first segments (driver.second + 1)
  uncut : ∀ node ∈ nodes, ∀ bounds, node.data.getBounds = some bounds →
    ∀ boundary, boundaries boundary → boundary ≤ bounds.lo ∨ bounds.hi ≤ boundary

theorem exists_isPort {nodes : List NetlistNode} {segments : List DriverBitRange}
    (ports : List.Forall₂ NetlistNode.IsPort nodes segments) {node : NetlistNode}
    (member : node ∈ nodes) : ∃ segment ∈ segments, node.IsPort segment := by
  induction ports with
  | nil => cases member
  | @cons first segment _ others isPort _ ih =>
      rcases List.mem_cons.mp member with rfl | later
      · exact ⟨segment, List.mem_cons_self, isPort⟩
      · obtain ⟨other, otherMem, otherPort⟩ := ih later
        exact ⟨other, List.mem_cons_of_mem _ otherMem, otherPort⟩

theorem splitAt_of_isPort {registry : CutRegistry} {boundaries : Nat → Prop}
    {driver : ValueDriver} {nodes : List NetlistNode}
    (known : ∀ boundary, boundaries boundary → boundary ∈ (registry.cutsFor symbol).getD [])
    (ports : List.Forall₂ NetlistNode.IsPort nodes
      (driverSegments (registry.cutsFor symbol) driver)) : SplitAt boundaries driver nodes := by
  have sorted := registry.sorted_cutsFor symbol
  cases hints : registry.cutsFor symbol with
  | none =>
      rw [hints] at known ports
      exact ⟨⟨_, ports, tiles_driverSegments fun _ absent => nomatch absent⟩,
        fun _ _ _ _ boundary holds => absurd (known boundary holds) List.not_mem_nil⟩
  | some cuts =>
      rw [hints] at known ports sorted
      refine ⟨⟨_, ports, tiles_driverSegments fun other same => Option.some.inj same ▸ sorted⟩, ?_⟩
      intro node member bounds isBounds boundary holds
      obtain ⟨segment, segmentMem, _, same⟩ := exists_isPort ports member
      obtain rfl : segment = bounds := Option.some.inj (same.symm.trans isBounds)
      exact driverSegments_uncut sorted segmentMem (known boundary holds)

/--
The boundaries of the slices of an actual are among the cuts collected from it
and recorded on the inner symbol of the port.  The nodes that the port gets with
these cuts can be made; those of a driver partition its range, and no boundary
is strictly inside of one.
-/
theorem actual_cuts_split_port (registry : CutRegistry) (before after : List PortConnection)
    (connection : PortConnection) {actual : ConnectionExpr} {symbol : ValueSymbol}
    (isPort : connection.isPort = true) (expression : connection.expression = some actual)
    (inner : connection.port.internalSymbol = some symbol)
    (integral : connection.port.integral = true ∧ actual.integral = true)
    (sameWidth : connection.port.selectableWidth = actual.expr.width)
    (inside : connection.port.selectableWidth ≤ symbol.selectableWidth)
    (cuttable : actual.expr.Cuttable) :
    (∀ boundary, BitSliceList.Interior (BitSliceList.build actual.expr true none) boundary →
      boundary ∈ collectActualCuts (recordCutsFromPortConnections registry before) 0 actual.expr ∧
      boundary ∈ ((recordCutsFromPortConnections registry
        (before ++ connection :: after)).cutsFor symbol).getD []) ∧
    ∀ (task : Nat) (getDrivers : ValueSymbol → List ValueDriver) (builder : NetlistBuilder),
      (builder.Undriven symbol (getDrivers symbol) →
        ∃ next, builder.materializePortNodes task true (recordCutsFromPortConnections registry
          (before ++ connection :: after)) getDrivers connection.port = some next) ∧
      ∀ next, builder.materializePortNodes task true (recordCutsFromPortConnections registry
          (before ++ connection :: after)) getDrivers connection.port = some next →
        ∃ nodes : List (List NetlistNode),
          next.graph.nodes = builder.graph.nodes ++ nodes.flatten ∧
          List.Forall₂ (SplitAt (BitSliceList.Interior (BitSliceList.build actual.expr true none)))
            (getDrivers symbol) nodes := by
  have collected := fun boundary interior =>
    @BitSliceList.mem_collectActualCuts_of_interior (recordCutsFromPortConnections registry before)
      actual.expr cuttable boundary interior
  have recorded : ∀ boundary,
      BitSliceList.Interior (BitSliceList.build actual.expr true none) boundary →
      boundary ∈ ((recordCutsFromPortConnections registry
        (before ++ connection :: after)).cutsFor symbol).getD [] := by
    intro boundary interior
    obtain ⟨among, below⟩ := collected boundary interior
    unfold recordCutsFromPortConnections
    rw [List.foldl_append, List.foldl_cons]
    refine mem_cutsFor_record ?_
    have added : recordCuts (before.foldl recordCuts registry) connection =
        (before.foldl recordCuts registry).addCuts symbol symbol.selectableWidth
          (collectActualCuts (before.foldl recordCuts registry) 0 actual.expr) := by
      simp [recordCuts, expression, inner, isPort, integral, sameWidth]
    rw [added]
    exact mem_cutsFor_addCuts.mpr (.inr ⟨rfl, among, interior.2.1, by omega⟩)
  refine ⟨fun boundary interior => ⟨(collected boundary interior).1, recorded boundary interior⟩,
    fun task getDrivers builder => ?_⟩
  unfold materializePortNodes
  rw [inner]
  simp only [if_true]
  refine ⟨fun undriven => undriven.materializes fun cuts hints => ?_, fun next made => ?_⟩
  · have sorted := CutRegistry.sorted_cutsFor (recordCutsFromPortConnections registry
      (before ++ connection :: after)) symbol
    rwa [hints] at sorted
  · obtain ⟨nodes, ports, all⟩ := materializeDrivers_add made
    exact ⟨nodes, all, ports.imp fun _ _ isPorts => splitAt_of_isPort recorded isPorts⟩

/-- `.p({a[i], 3'(b)})` with a dynamic select of one bit and two bits of `b`. -/
def slicedConnection : PortConnection where
  port := {
    id := 0
    selectableWidth := 4
    internalSymbol := some { id := 1, selectableWidth := 4 } }
  expression := some { expr := .concatenation [
    .value 1 { rootSymbol := some { id := 2 }, lsp := some 0, lspBounds := ⟨0, 7⟩ } [],
    .conversion 3 none false
      (.value 2 { rootSymbol := some { id := 3 }, lsp := some 1, lspBounds := ⟨0, 1⟩ } [])
      .literal none] }

/-- The input port drives all its bits. -/
def inputDriver : ValueDriver where
  first := 0
  second := 3
  ascending := by decide
  isInputPort := true

theorem actual_cuts_split_port_sliced :
    2 ∈ ((recordCutsFromPortConnections {} [slicedConnection]).cutsFor { id := 1 }).getD [] ∧
    ∃ next, ({} : NetlistBuilder).materializePortNodes 0 true
        (recordCutsFromPortConnections {} [slicedConnection]) (fun _ => [inputDriver])
        slicedConnection.port = some next ∧
      ∃ nodes : List (List NetlistNode), next.graph.nodes = [] ++ nodes.flatten ∧
        List.Forall₂ (SplitAt (BitSliceList.Interior (BitSliceList.build (.concatenation [
          .value 1 { rootSymbol := some { id := 2 }, lsp := some 0, lspBounds := ⟨0, 7⟩ } [],
          .conversion 3 none false
            (.value 2 { rootSymbol := some { id := 3 }, lsp := some 1, lspBounds := ⟨0, 1⟩ } [])
            .literal none]) true none))) [inputDriver] nodes := by
  obtain ⟨recorded, made⟩ := @actual_cuts_split_port {} [] [] slicedConnection _
    { id := 1, selectableWidth := 4 } rfl rfl rfl ⟨rfl, rfl⟩ rfl (by decide)
    ⟨trivial, trivial, trivial⟩
  obtain ⟨succeeds, split⟩ := made 0 (fun _ => [inputDriver]) {}
  obtain ⟨next, materialized⟩ := succeeds {
    sound := TrackerState.sound_empty
    tidy := TrackerState.tidy_empty
    apart := List.pairwise_singleton _ _
    undefined := fun _ _ _ bit _ => IntervalMap.not_covers_nil bit }
  exact ⟨(recorded 2 (by decide +kernel)).2, next, materialized, split next materialized⟩

end NetlistBuilder

end SlangNetlist
