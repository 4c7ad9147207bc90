import Mathlib.Data.List.Sort
import SlangNetlist.Graph.NetlistEdge

/-!
# Expressions and bit slices

The parts of slang's expressions that the analysis visits, and the bit slices
into which the two sides of an assignment are decomposed and aligned.
-/

namespace SlangNetlist

/-- A path to a value: its root symbol, its longest static prefix and the bits of that prefix. -/
structure ValuePath where
  rootSymbol : Option ValueSymbol
  /-- The longest static prefix, as the identity of its expression. -/
  lsp : Option Nat
  lspBounds : DriverBitRange
  /-- `path.empty()`: the expression has no path. -/
  empty : Bool := false
  deriving DecidableEq, Repr

/-- An expression as its visit sees it. -/
inductive Expr where
  /-- An expression without references. -/
  | literal
  /-- A named value or a select: its selectors are visited before the path is noted. -/
  | value (selectors : Expr) (path : ValuePath)
  /-- An operator, its operands visited in order. -/
  | operator (left right : Expr)
  deriving DecidableEq, Repr

/-- A selector of an element or range select, with the role of its reads. -/
structure Selector where
  expr : Expr
  role : DependencyRole := .index
  /-- Whether `selector.eval` finds a constant. -/
  constant : Bool := false
  deriving DecidableEq, Repr

/-- One contributing source of a bit slice. -/
inductive BitSliceSource where
  | lsp (path : ValuePath) (selectors : List Selector) (srcLo : Nat)
  | padding
  | opaqueExpr (expr : Expr)
  | portNode (node : NodeRef)
  | constant (value : ConstantValue) (srcLo : Nat) (location : Option SourceLocation)
  deriving DecidableEq, Repr

/-- The half-open range `[concatLo, concatHi)` with its sources. -/
structure BitSlice where
  concatLo : Nat
  concatHi : Nat
  sources : List BitSliceSource
  deriving DecidableEq, Repr

abbrev BitSliceList := List BitSlice

/-- A range in which each side has the sources of one slice. -/
structure Segment where
  concatLo : Nat
  concatHi : Nat
  lhsSources : List BitSliceSource
  rhsSources : List BitSliceSource
  deriving DecidableEq, Repr

namespace Segment

def width (segment : Segment) : Nat := segment.concatHi - segment.concatLo

end Segment

namespace BitSliceList

/-- The end of the last slice. -/
def width (list : BitSliceList) : Nat :=
  match list.getLast? with
  | some slice => slice.concatHi
  | none => 0

def collectCuts (list : BitSliceList) : List Nat :=
  0 :: list.map BitSlice.concatHi

/-- Sort the cuts of both lists and drop duplicates. -/
def mergeCuts (left right : List Nat) : List Nat :=
  ((left ++ right).insertionSort (· ≤ ·)).dedup

/-- The slice that contains a bit. -/
def findSliceContaining (list : BitSliceList) (bit : Nat) : Option BitSlice :=
  list.find? fun slice => bit ≥ slice.concatLo ∧ bit < slice.concatHi

/-- The sources of the slice that contains a bit. -/
def sourcesAt (list : BitSliceList) (bit : Nat) : List BitSliceSource :=
  match findSliceContaining list bit with
  | some slice => slice.sources
  | none => []

/-- Align two lists of equal width on their common cuts. -/
def alignSegments (lhs rhs : BitSliceList) : List Segment :=
  let cuts := mergeCuts (collectCuts lhs) (collectCuts rhs)
  (cuts.zip cuts.tail).map fun (low, high) =>
    { concatLo := low, concatHi := high, lhsSources := sourcesAt lhs low,
      rhsSources := sourcesAt rhs low }

end BitSliceList

end SlangNetlist
