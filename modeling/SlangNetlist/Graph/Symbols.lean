/-!
# Symbols and locations

The parts of slang's symbols that the netlist code reads, and the records it
extracts from them.  A `ValueSymbol` stands for the address of an AST symbol:
`id` tells two symbols apart that agree in everything else.
-/

namespace SlangNetlist

/-- A slang source location: file name, line and column, or `NoLocation`. -/
abbrev SourceLocation := Option (String × Nat × Nat)

/-- A serialisable location: index into the file table, line and column. -/
structure TextLocation where
  /-- `FileTable::NoFile` is `UINT32_MAX`. -/
  fileIndex : Nat := 4294967295
  line : Nat := 0
  column : Nat := 0
  deriving DecidableEq, Repr

/-- The extracted identity of an AST symbol. -/
structure SymbolReference where
  name : String
  hierarchicalPath : String
  location : TextLocation
  deriving DecidableEq, Repr

inductive SymbolKind where
  | variable
  | net
  | modportPort
  | other
  deriving DecidableEq, Repr

/-- A value symbol as the builder sees it. -/
structure ValueSymbol where
  id : Nat
  name : String := ""
  hierarchicalPath : String := ""
  location : SourceLocation := none
  kind : SymbolKind := .variable
  /-- Whether the symbol is a variable of automatic lifetime. -/
  automatic : Bool := false
  /-- The selectable width of the symbol's type. -/
  selectableWidth : Nat := 1
  /-- The port symbols that the chain of port back-references names. -/
  portBackrefs : List Nat := []
  deriving DecidableEq, Repr

end SlangNetlist
