import SlangNetlist.Graph.NetlistGraph

/-!
# The file table and the symbol table

Both tables hold one record for each key, added at its first use.  Interning a
symbol twice changes nothing, so the cache of interned symbols that each thread
keeps (`Concurrency.TaskBuffers`) does not show here.
-/

namespace SlangNetlist

namespace NetlistGraph

/-- `FileTable::addFile`: the index of a name, added at its first use. -/
def addFile (graph : NetlistGraph) (name : String) : Nat × NetlistGraph :=
  match graph.fileTable.findIdx? fun file => file = name with
  | some index => (index, graph)
  | none => (graph.fileTable.length, { graph with fileTable := graph.fileTable ++ [name] })

/-- `SymbolTable::intern`: the record of a path, added at its first use. -/
def intern (graph : NetlistGraph) (reference : SymbolReference) :
    SymbolReference × NetlistGraph :=
  match graph.symbolTable.find? fun entry =>
      entry.hierarchicalPath = reference.hierarchicalPath with
  | some entry => (entry, graph)
  | none => (reference, { graph with symbolTable := graph.symbolTable ++ [reference] })

/-- A serialisable location. -/
def toTextLocation (graph : NetlistGraph) : SourceLocation → TextLocation × NetlistGraph
  | none => ({}, graph)
  | some (name, line, column) =>
      let (index, graph) := graph.addFile name
      ({ fileIndex := index, line := line, column := column }, graph)

/-- The interned record of a symbol. -/
def toSymbolRef (graph : NetlistGraph) (symbol : ValueSymbol) :
    SymbolReference × NetlistGraph :=
  let (location, graph) := graph.toTextLocation symbol.location
  graph.intern
    { name := symbol.name, hierarchicalPath := symbol.hierarchicalPath, location := location }

section Lemmas

variable (graph : NetlistGraph)

@[simp] theorem nodes_addFile (name : String) : (graph.addFile name).2.nodes = graph.nodes := by
  unfold addFile
  split <;> rfl

@[simp] theorem edges_addFile (name : String) : (graph.addFile name).2.edges = graph.edges := by
  unfold addFile
  split <;> rfl

@[simp] theorem nodes_toTextLocation (location : SourceLocation) :
    (graph.toTextLocation location).2.nodes = graph.nodes := by
  unfold toTextLocation
  split <;> simp

@[simp] theorem edges_toTextLocation (location : SourceLocation) :
    (graph.toTextLocation location).2.edges = graph.edges := by
  unfold toTextLocation
  split <;> simp

@[simp] theorem nodes_intern (reference : SymbolReference) :
    (graph.intern reference).2.nodes = graph.nodes := by
  unfold intern
  split <;> rfl

@[simp] theorem edges_intern (reference : SymbolReference) :
    (graph.intern reference).2.edges = graph.edges := by
  unfold intern
  split <;> rfl

/-- The interned record has the path that was asked for. -/
theorem hierarchicalPath_intern (reference : SymbolReference) :
    (graph.intern reference).1.hierarchicalPath = reference.hierarchicalPath := by
  unfold intern
  split
  · next entry found => simpa using List.find?_some found
  · rfl

@[simp] theorem nodes_toSymbolRef (symbol : ValueSymbol) :
    (graph.toSymbolRef symbol).2.nodes = graph.nodes := by
  simp [toSymbolRef]

@[simp] theorem edges_toSymbolRef (symbol : ValueSymbol) :
    (graph.toSymbolRef symbol).2.edges = graph.edges := by
  simp [toSymbolRef]

@[simp] theorem hierarchicalPath_toSymbolRef (symbol : ValueSymbol) :
    (graph.toSymbolRef symbol).1.hierarchicalPath = symbol.hierarchicalPath :=
  hierarchicalPath_intern _ _

@[simp] theorem getBounds_toSymbolRef (symbol : ValueSymbol) (ref : NodeRef) :
    (graph.toSymbolRef symbol).2.getBounds ref = graph.getBounds ref := by
  simp [getBounds, node?]

@[simp] theorem edgesBetween_toSymbolRef (symbol : ValueSymbol) (source target : NodeRef) :
    (graph.toSymbolRef symbol).2.edgesBetween source target =
      graph.edgesBetween source target := by
  simp [edgesBetween]

@[simp] theorem carries_toSymbolRef (symbol : ValueSymbol) {source target : NodeRef}
    {path : String} {bit : Int} :
    (graph.toSymbolRef symbol).2.Carries source target path bit ↔
      graph.Carries source target path bit := by
  simp [Carries]

end Lemmas

end NetlistGraph

end SlangNetlist
