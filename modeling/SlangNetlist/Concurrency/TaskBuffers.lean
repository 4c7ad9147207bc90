import Mathlib.Logic.Function.Basic
import SlangNetlist.Build.NetlistBuilder
import SlangNetlist.Graph.SymbolTable
import SlangNetlist.Library.GuardedRun

/-!
# The tasks of phase 2

A pool of threads runs one task for each deferred block.  A thread has a pointer
to the buffer of its task and a cache of interned symbols, and both are left
from whatever the thread did before.
-/

namespace SlangNetlist.TaskBuffers

open Library

variable {Error Thread : Type}

/-- What a task does with the thread-local data. -/
inductive TaskAction where
  | enqueue (pending : PendingRvalue)
  | toSymbolRef (symbol : ValueSymbol)
  deriving DecidableEq, Repr

namespace TaskAction

def pending? : TaskAction → Option PendingRvalue
  | enqueue pending => some pending
  | toSymbolRef _ => none

def symbol? : TaskAction → Option ValueSymbol
  | enqueue _ => none
  | toSymbolRef symbol => some symbol

end TaskAction

/-- A deferred block: what it does, and the exception that ends it if there is one. -/
structure Task (Error : Type) where
  actions : List TaskAction
  throws : Option Error := none

namespace Task

/-- The R-values that a task enqueues. -/
def pendingRValues (task : Task Error) : List PendingRvalue :=
  task.actions.filterMap TaskAction.pending?

end Task

/-- The thread-local data of a thread, and what is ahead of it in its task. -/
structure Local where
  running : Option (Nat × List TaskAction) := none
  threadLocalDeferredWork : Option Nat := none
  threadLocalSymbolRefCache : Nat → Option SymbolReference := fun _ => none

structure State (Error Thread : Type) where
  graph : NetlistGraph := {}
  queue : List PendingRvalue := []
  /-- The buffer of each task. -/
  allWork : Nat → List PendingRvalue := fun _ => []
  pendingException : Option Error := none
  /-- The tasks that some thread has taken. -/
  taken : List Nat := []
  locals : Thread → Local
  /-- The records that `toSymbolRef` has returned. -/
  returned : List (ValueSymbol × SymbolReference) := []

/-- A thread takes a task, or goes on in the one it has. -/
inductive Move (Thread : Type) where
  | take (thread : Thread) (task : Nat)
  | resume (thread : Thread)

section Steps

variable [DecidableEq Thread]

/-- Write the thread-local data of a thread. -/
def State.update (state : State Error Thread) (thread : Thread) (data : Local) :
    State Error Thread :=
  { state with locals := Function.update state.locals thread data }

/-- `PendingRvalueQueue::enqueue`. -/
def enqueue (state : State Error Thread) (thread : Thread) (pending : PendingRvalue) :
    State Error Thread :=
  match (state.locals thread).threadLocalDeferredWork with
  | some buffer => { state with
      allWork := Function.update state.allWork buffer (state.allWork buffer ++ [pending]) }
  | none => { state with queue := state.queue ++ [pending] }

/-- `NetlistBuilder::toSymbolRef`. -/
def toSymbolRef (state : State Error Thread) (thread : Thread) (symbol : ValueSymbol) :
    State Error Thread :=
  let data := state.locals thread
  match data.threadLocalSymbolRefCache symbol.id with
  | some record => { state with returned := state.returned ++ [(symbol, record)] }
  | none =>
      let (record, graph) := state.graph.toSymbolRef symbol
      { state with
        graph := graph
        returned := state.returned ++ [(symbol, record)] }.update thread
          { data with threadLocalSymbolRefCache :=
              Function.update data.threadLocalSymbolRefCache symbol.id (some record) }

/-- One action of a task. -/
def perform (state : State Error Thread) (thread : Thread) : TaskAction → State Error Thread
  | .enqueue pending => enqueue state thread pending
  | .toSymbolRef symbol => toSymbolRef state thread symbol

/-- One step of the pool. -/
def step (tasks : List (Task Error)) (state : State Error Thread) :
    Move Thread → Option (State Error Thread)
  | .take thread index =>
      match tasks[index]?, (state.locals thread).running with
      | some task, none =>
          if index ∈ state.taken then none
          else some ({ state with taken := index :: state.taken }.update thread
            { running := some (index, task.actions), threadLocalDeferredWork := some index })
      | _, _ => none
  | .resume thread =>
      match (state.locals thread).running with
      | none => none
      | some (index, action :: ahead) =>
          let state := perform state thread action
          some (state.update thread
            { state.locals thread with running := some (index, ahead) })
      | some (index, []) =>
          let thrown := tasks[index]?.bind Task.throws
          some ({ state with pendingException := state.pendingException.or thrown }.update thread
            { state.locals thread with running := none, threadLocalDeferredWork := none })

end Steps

/-- `PendingRvalueQueue::drain` for the buffers of the first tasks. -/
def drain (state : State Error Thread) (count : Nat) : List PendingRvalue :=
  (List.range count).foldl (fun queue index => queue ++ state.allWork index) state.queue

/-- `threadPool->wait()` returns: all tasks are taken, and no thread has one. -/
def Finished (tasks : List (Task Error)) (state : State Error Thread) : Prop :=
  (∀ index < tasks.length, index ∈ state.taken) ∧ ∀ thread, (state.locals thread).running = none

/-- The end of `runPhase2Parallel`: the exception, or the drained queue. -/
def finish (tasks : List (Task Error)) (state : State Error Thread) :
    Except Error (List PendingRvalue) :=
  match state.pendingException with
  | some error => .error error
  | none => .ok (drain state tasks.length)

/-- `runPhase2Sequential`: the tasks enqueue into the main queue, and the first exception ends it. -/
def runPhase2Sequential (queue : List PendingRvalue) :
    List (Task Error) → Except Error (List PendingRvalue)
  | [] => .ok queue
  | task :: rest =>
      match task.throws with
      | some error => .error error
      | none => runPhase2Sequential (queue ++ task.pendingRValues) rest

end SlangNetlist.TaskBuffers
