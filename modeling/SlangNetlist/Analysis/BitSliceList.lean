import Mathlib.Data.List.Dedup
import SlangNetlist.Analysis.BitSlice

/-!
# The decomposition of an expression

`BitSliceList::build` walks the structural kinds of expressions and appends the
slices of each operand, the least significant operand first.
-/

namespace SlangNetlist

/-- The sorted cuts of each symbol, at inner bit offsets. -/
structure CutRegistry where
  entries : List (Nat × List Nat) := []
  sorted : ∀ entry ∈ entries, entry.2.Pairwise (· < ·) := by simp

namespace CutRegistry

/-- The cuts of a symbol, `none` without an entry. -/
def cutsFor (registry : CutRegistry) (symbol : ValueSymbol) : Option (List Nat) :=
  (registry.entries.find? fun entry => entry.1 = symbol.id).map Prod.snd

/-- Sort the offsets and drop duplicates. -/
def sortCuts (cuts : List Nat) : List Nat := (cuts.insertionSort (· ≤ ·)).dedup

theorem sorted_sortCuts (cuts : List Nat) : (sortCuts cuts).Pairwise (· < ·) := by
  have ascending : (sortCuts cuts).Pairwise (· ≤ ·) :=
    (List.pairwise_insertionSort (· ≤ ·) cuts).sublist (List.dedup_sublist _)
  exact (ascending.and (List.nodup_dedup _)).imp fun both => lt_of_le_of_ne both.1 both.2

/-- Union the inner offsets of a symbol of the given width into its cuts. -/
def addCuts (registry : CutRegistry) (symbol : ValueSymbol) (width : Nat) (cuts : List Nat) :
    CutRegistry :=
  if cuts = [] then registry
  else {
    entries :=
      (symbol.id, sortCuts (((registry.cutsFor symbol).getD []) ++
        cuts.filter fun cut => 0 < cut ∧ cut < width)) ::
        registry.entries.filter fun entry => entry.1 ≠ symbol.id
    sorted := by
      intro entry member
      rcases List.mem_cons.mp member with rfl | other
      · exact sorted_sortCuts _
      · exact registry.sorted entry (List.mem_of_mem_filter other) }

end CutRegistry

/-- An expression as its decomposition sees it; `width` is its selectable width. -/
inductive SliceExpr where
  /-- A named or hierarchical value, a select or a member access. -/
  | value (width : Nat) (path : ValuePath) (selectors : List Selector)
  | concatenation (operands : List SliceExpr)
  /-- `count` is `none` when it is not a constant of 64 bits. -/
  | replication (width : Nat) (count : Option Int) (concat : SliceExpr) (expr : Expr)
  /-- `folded` is the integer that an integral expression evaluates to. -/
  | conversion (width : Nat) (folded : Option SVInt) (isSignExt : Bool) (operand : SliceExpr)
      (expr : Expr) (location : SourceLocation)
  /-- `plain`: there is one condition, without a pattern. -/
  | conditionalOp (width : Nat) (plain : Bool) (condition : Expr) (left right : SliceExpr)
      (expr : Expr)
  | other (width : Nat) (folded : Option SVInt) (expr : Expr) (location : SourceLocation)

namespace SliceExpr

mutual

/-- `exprWidth`: the selectable width of the type. -/
def width : SliceExpr → Nat
  | .value width _ _ => width
  | .concatenation operands => operandsWidth operands
  | .replication width _ _ _ => width
  | .conversion width _ _ _ _ _ => width
  | .conditionalOp width _ _ _ _ _ => width
  | .other width _ _ _ => width

/-- A packed concatenation has the bits of its operands. -/
def operandsWidth : List SliceExpr → Nat
  | [] => 0
  | operand :: rest => operand.width + operandsWidth rest

end

mutual

/-- The expression as its visit sees it. -/
def visited : SliceExpr → Expr
  | .value _ path selectors =>
      .value (selectors.foldr (fun selector rest => .operator selector.expr rest) .literal) path
  | .concatenation operands => operandsVisited operands
  | .replication _ _ _ expr => expr
  | .conversion _ _ _ _ expr _ => expr
  | .conditionalOp _ _ _ _ _ expr => expr
  | .other _ _ expr _ => expr

def operandsVisited : List SliceExpr → Expr
  | [] => .literal
  | operand :: rest => .operator operand.visited (operandsVisited rest)

end

end SliceExpr

namespace BitSliceSource

/-- Move a source of an arm into the frame of the enclosing list. -/
def translate (baseOffset : Nat) : BitSliceSource → BitSliceSource
  | .lsp path selectors srcLo => .lsp path selectors (srcLo + baseOffset)
  | .constant value srcLo location => .constant value (srcLo + baseOffset) location
  | source => source

end BitSliceSource

namespace BitSliceList

/-- Append a slice of a given width, unless it is empty. -/
def pushSource (out : BitSliceList) (width : Nat) (source : Nat → BitSliceSource) : BitSliceList :=
  if width = 0 then out
  else
    let lo := BitSliceList.width out
    out ++ [{ concatLo := lo, concatHi := lo + width, sources := [source lo] }]

def pushOpaque (out : BitSliceList) (width : Nat) (expr : Expr) : BitSliceList :=
  pushSource out width fun _ => .opaqueExpr expr

def pushConstant (out : BitSliceList) (width : Nat) (value : SVInt) (location : SourceLocation) :
    BitSliceList :=
  pushSource out width fun lo => .constant (.integer value) lo (some location)

/-- The cuts of the root symbol that fall inside the bounds: `upper_bound` to `lower_bound`. -/
def innerCuts (cuts : Option CutRegistry) (path : ValuePath) : List Nat :=
  match cuts, path.rootSymbol with
  | some registry, some rootSymbol =>
      let lspLo := path.lspBounds.lower.toNat
      let lspHi := path.lspBounds.upper.toNat + 1
      (((registry.cutsFor rootSymbol).getD []).dropWhile (· ≤ lspLo)).takeWhile (· < lspHi)
  | _, _ => []

/-- Append a value, split at the cuts inside its bounds. -/
def pushLsp (out : BitSliceList) (cuts : Option CutRegistry) (width : Nat) (path : ValuePath)
    (selectors : List Selector) : BitSliceList :=
  if width = 0 then out
  else
    match innerCuts cuts path with
    | [] => pushSource out width (.lsp path selectors)
    | inner =>
        let lo := BitSliceList.width out
        let lspLo := path.lspBounds.lower.toNat
        let lspHi := path.lspBounds.upper.toNat + 1
        let points := lspLo :: inner ++ [lspHi]
        out ++ (points.zip points.tail).map fun (segLo, segHi) =>
          { concatLo := lo + (segLo - lspLo), concatHi := lo + (segHi - lspLo),
            sources := [.lsp path selectors lo] }

/-- The arms of a conditional on their common cuts, each slice with the condition. -/
def pushUnified (out : BitSliceList) (condition : Expr) (left right : BitSliceList) :
    BitSliceList :=
  let unifiedCuts := mergeCuts (collectCuts left) (collectCuts right)
  let baseOffset := BitSliceList.width out
  out ++ (unifiedCuts.zip unifiedCuts.tail).map fun (low, high) =>
    { concatLo := baseOffset + low, concatHi := baseOffset + high,
      sources := (sourcesAt left low).map (BitSliceSource.translate baseOffset) ++
        (sourcesAt right low).map (BitSliceSource.translate baseOffset) ++
        [.opaqueExpr condition] }

/-- The padding above the operand of a widening conversion. -/
def pushPadding (out : BitSliceList) (width : Nat) (isSignExt : Bool) : BitSliceList :=
  let lo := BitSliceList.width out
  let source : BitSliceSource :=
    if isSignExt then .padding
    else .constant (.integer ⟨List.replicate width .zero⟩) lo none
  out ++ [{ concatLo := lo, concatHi := lo + width, sources := [source] }]

mutual

/-- Append the slices of an expression. -/
def buildInto (cuts : Option CutRegistry) (out : BitSliceList) : SliceExpr → BitSliceList
  | .value width path selectors => pushLsp out cuts width path selectors
  | .concatenation operands => buildOperands cuts out operands
  | .replication width count concat expr =>
      match count with
      | none => pushOpaque out width expr
      | some count => count.toNat.repeat (fun out => buildInto cuts out concat) out
  | .conversion width folded isSignExt operand expr location =>
      match folded.filter fun value => value.bits.length = width with
      | some value => pushConstant out width value location
      | none =>
          if width = operand.width then buildInto cuts out operand
          else if width > operand.width then
            pushPadding (buildInto cuts out operand) (width - operand.width) isSignExt
          else pushOpaque out width expr
  | .conditionalOp width plain condition left right expr =>
      if left.width ≠ right.width ∨ left.width ≠ width ∨ ¬ plain then pushOpaque out width expr
      else
        let l := buildInto cuts [] left
        let r := buildInto cuts [] right
        if BitSliceList.width l ≠ BitSliceList.width r then pushOpaque out width expr
        else pushUnified out condition l r
  | .other width folded expr location =>
      match folded.filter fun value => value.bits.length = width with
      | some value => pushConstant out width value location
      | none => pushOpaque out width expr

/-- Append the operands of a concatenation, the last one first. -/
def buildOperands (cuts : Option CutRegistry) (out : BitSliceList) :
    List SliceExpr → BitSliceList
  | [] => out
  | operand :: rest => buildInto cuts (buildOperands cuts out rest) operand

end

/-- The slices of an expression; without `enabled`, a single opaque one. -/
def build (expr : SliceExpr) (enabled : Bool) (cuts : Option CutRegistry) : BitSliceList :=
  if enabled then buildInto cuts [] expr else pushOpaque [] expr.width expr.visited

end BitSliceList

end SlangNetlist
