import SlangNetlist.Graph.SymbolTable
import SlangNetlist.Library.Linearization

/-!
# The intern tables

Threads that call `FileTable::addFile` or `SymbolTable::intern`.  A lookup takes
no lock; an insertion takes the mutex of the table and looks up once more.
A step of a thread is one access to the shared data.
-/

namespace SlangNetlist.InternTables

open Library

variable {Record Key Value Thread : Type}

/-- What the two tables differ in. -/
structure Table (Record Key Value : Type) where
  key : Record → Key
  /-- What a call returns for the record at a position. -/
  value : Nat → Record → Value

/-- Where a thread stands in a call. -/
inductive Phase (Value : Type) where
  /-- Before the lookup without the mutex. -/
  | start
  /-- The lookup has missed, and the mutex is wanted. -/
  | missed
  /-- With the mutex, before the second lookup. -/
  | locked
  /-- The second lookup has missed. -/
  | absent
  /-- The record is appended, and the index does not have it yet. -/
  | stored (value : Value)
  /-- The release of the mutex ends the call. -/
  | returning (value : Value)
  deriving DecidableEq, Repr

/-- Whether the mutex is held in a phase. -/
def Phase.holds : Phase Value → Bool
  | .start => false
  | .missed => false
  | .locked => true
  | .absent => true
  | .stored _ => true
  | .returning _ => true

/-- How far a thread is in its list of calls, and what it has got. -/
structure Progress (Record Value : Type) where
  position : Nat := 0
  phase : Phase Value := .start
  results : List (Record × Value) := []

structure State (Record Key Value Thread : Type) where
  indexMap : Key → Option Value := fun _ => none
  entries : List Record := []
  insertMutex : Option Thread := none
  progress : Thread → Progress Record Value := fun _ => {}

/-- The records that each thread looks up or adds. -/
abbrev Program (Record Thread : Type) := Thread → List Record

/-- The record that a thread is about, unless it is finished. -/
def current (program : Program Record Thread) (state : State Record Key Value Thread)
    (thread : Thread) : Option Record :=
  (program thread)[(state.progress thread).position]?

/-- `emplace`: an entry that exists is kept. -/
def emplace [DecidableEq Key] (indexMap : Key → Option Value) (key : Key) (value : Value) :
    Key → Option Value :=
  fun other => if other = key then some ((indexMap key).getD value) else indexMap other

/-- The progress after the call has returned. -/
def Progress.returns (progress : Progress Record Value) (record : Record) (value : Value) :
    Progress Record Value where
  position := progress.position + 1
  results := progress.results ++ [(record, value)]

section Steps

variable [DecidableEq Thread]

/-- Write the progress of a thread. -/
def State.update (state : State Record Key Value Thread) (thread : Thread)
    (progress : Progress Record Value) : State Record Key Value Thread :=
  { state with progress := Function.update state.progress thread progress }

/-- Go on with another phase of the call. -/
def State.goto (state : State Record Key Value Thread) (thread : Thread) (phase : Phase Value) :
    State Record Key Value Thread :=
  state.update thread { state.progress thread with phase := phase }

variable [DecidableEq Key]

/-- The step of a thread in its call on a record; none while it waits for the mutex. -/
def move (table : Table Record Key Value) (state : State Record Key Value Thread)
    (thread : Thread) (record : Record) : Option (State Record Key Value Thread) :=
  match (state.progress thread).phase with
  | .start =>
      match state.indexMap (table.key record) with
      | some value => some (state.update thread ((state.progress thread).returns record value))
      | none => some (state.goto thread .missed)
  | .missed =>
      match state.insertMutex with
      | some _ => none
      | none => some ({ state with insertMutex := some thread }.goto thread .locked)
  | .locked =>
      match state.indexMap (table.key record) with
      | some value => some (state.goto thread (.returning value))
      | none => some (state.goto thread .absent)
  | .absent =>
      let value := table.value state.entries.length record
      some ({ state with entries := state.entries ++ [record] }.goto thread (.stored value))
  | .stored value =>
      some ({ state with indexMap := emplace state.indexMap (table.key record) value }.goto thread
        (.returning value))
  | .returning value =>
      some ({ state with insertMutex := none }.update thread
        ((state.progress thread).returns record value))

/-- A step of a thread, if it has one. -/
def advance (table : Table Record Key Value) (program : Program Record Thread)
    (state : State Record Key Value Thread) (thread : Thread) :
    Option (State Record Key Value Thread) :=
  (current program state thread).bind (move table state thread)

end Steps

/-! ## The sequential tables -/

section Sequential

variable [DecidableEq Key]

/-- The value of a key. -/
def Table.lookup (table : Table Record Key Value) (entries : List Record) (key : Key) :
    Option Value :=
  (entries.findIdx? fun entry => table.key entry = key).bind fun index =>
    (entries[index]?).map (table.value index)

/-- The table that has the records, before any thread has started. -/
def initial (table : Table Record Key Value) (entries : List Record) :
    State Record Key Value Thread where
  indexMap := table.lookup entries
  entries := entries

/-- A call on the records alone: the value it returns, and the records after it. -/
def Table.intern (table : Table Record Key Value) (entries : List Record) (record : Record) :
    Value × List Record :=
  match table.lookup entries (table.key record) with
  | some value => (value, entries)
  | none => (table.value entries.length record, entries ++ [record])

/-- A call with its value, where the sequential table returns this value. -/
def Table.accept [DecidableEq Value] (table : Table Record Key Value) (entries : List Record)
    (call : Record × Value) : Option (List Record) :=
  let (value, entries) := table.intern entries call.1
  if value = call.2 then some entries else none

end Sequential

/-! ## The two tables -/

/-- `FileTable`: the records are the names, and an index has 32 bits. -/
def fileTable : Table String String UInt32 where
  key name := name
  value index _ := UInt32.ofNat index

/-- `FileTable::NoFile`. -/
def noFile : UInt32 :=
  UInt32.ofNat (UInt32.size - 1)

/-- `FileTable::getFilename`; none if the index is out of range. -/
def getFilename (filenames : List String) (index : UInt32) : Option String :=
  if index = noFile then some "" else filenames[index.toNat]?

/-- `SymbolTable`: the records are keyed by their paths, and a call returns the record. -/
def symbolTable : Table SymbolReference String SymbolReference where
  key reference := reference.hierarchicalPath
  value _ reference := reference

end SlangNetlist.InternTables
