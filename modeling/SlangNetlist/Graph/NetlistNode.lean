import SlangNetlist.Graph.Symbols
import SlangNetlist.Tracking.DriverBitRange

/-!
# Netlist nodes

A `NodeRef` is the address of a node.  Addresses are named by the task that
creates the node (zero for the sequential collecting phase), the kind and a
serial number, so that the nodes of one task are named without reference to
the other tasks.  The `ID` field, drawn from a global counter, is separate.
-/

namespace SlangNetlist

inductive NodeKind where
  | none
  | port
  | variable
  | assignment
  | conditional
  | case
  | merge
  | state
  | constant
  deriving DecidableEq, Repr

/-- The address of a node. -/
structure NodeRef where
  task : Nat
  kind : NodeKind
  serial : Nat
  deriving DecidableEq, Repr

inductive ArgumentDirection where
  | inDir
  | outDir
  | inOutDir
  | refDir
  deriving DecidableEq, Repr

/-- A four-state bit. -/
inductive LogicBit where
  | zero
  | one
  | x
  | z
  deriving DecidableEq, Repr

/-- A sized integer, least significant bit first. -/
structure SVInt where
  bits : List LogicBit
  deriving DecidableEq, Repr

/-- The bits `lsb` to `msb`. -/
def SVInt.slice (value : SVInt) (msb lsb : Nat) : SVInt :=
  ⟨(value.bits.drop lsb).take (msb + 1 - lsb)⟩

/-- A constant: an integer, another kind of value shown by its text, or bad. -/
inductive ConstantValue where
  | bad
  | integer (value : SVInt)
  | other (text : String)
  deriving DecidableEq, Repr

/-- The fields of each node class. -/
inductive NodeData where
  | none
  | port (name hierarchicalPath : String) (location : TextLocation)
      (direction : ArgumentDirection) (bounds : DriverBitRange)
  | variable (name hierarchicalPath : String) (location : TextLocation)
      (bounds : DriverBitRange)
  | assignment (location : TextLocation)
  | conditional (location : TextLocation)
  | case (location : TextLocation)
  | merge
  | state (name hierarchicalPath : String) (location : TextLocation)
      (bounds : DriverBitRange)
  | constant (value : ConstantValue) (width : Nat) (location : TextLocation)
  deriving DecidableEq, Repr

namespace NodeData

def kind : NodeData → NodeKind
  | .none => .none
  | .port .. => .port
  | .variable .. => .variable
  | .assignment .. => .assignment
  | .conditional .. => .conditional
  | .case .. => .case
  | .merge => .merge
  | .state .. => .state
  | .constant .. => .constant

/-- `NetlistNode::getBounds`: only ports, variables and states have bounds. -/
def getBounds : NodeData → Option DriverBitRange
  | .port _ _ _ _ bounds => some bounds
  | .variable _ _ _ bounds => some bounds
  | .state _ _ _ bounds => some bounds
  | _ => Option.none

/-- `NetlistNode::getHierarchicalPath`: only the nodes with bounds have a path. -/
def getHierarchicalPath : NodeData → Option String
  | .port _ path .. => some path
  | .variable _ path .. => some path
  | .state _ path .. => some path
  | _ => Option.none

end NodeData

/-- A node of the graph: its address, its ID and its fields. -/
structure NetlistNode where
  ref : NodeRef
  ID : Nat
  data : NodeData
  deriving DecidableEq, Repr

end SlangNetlist
