import Mathlib.Data.Fintype.Basic
import Mathlib.Logic.Function.Basic
import SlangNetlist.Library.GuardedRun

/-!
# The locks of edge insertion

Threads that call `addEdge` and `addNewEdge`, each node with an `edgeMutex`.
A step of a thread acquires or releases one lock; what the source does under a
lock is part of the step that acquires it.
-/

namespace SlangNetlist.EdgeLocks

open Library

variable {Node Thread : Type}

/-- A call on `source`, with the node it passes. -/
inductive Call (Node : Type) where
  | addEdge (source target : Node)
  | addNewEdge (source target : Node)
  deriving DecidableEq, Repr

namespace Call

def source : Call Node → Node
  | addEdge source _ => source
  | addNewEdge source _ => source

def target : Call Node → Node
  | addEdge _ target => target
  | addNewEdge _ target => target

/-- The edge that the call is about. -/
def ends (call : Call Node) : Node × Node :=
  (call.source, call.target)

/-- The test `isSelfEdge`. -/
def isSelfEdge [DecidableEq Node] (call : Call Node) : Bool :=
  call.source = call.target

end Call

/-- Where a thread stands in a call. -/
inductive Phase where
  /-- Before the lock of the source. -/
  | start
  /-- `addEdge` holds the source and is about to lock the target. -/
  | targetWanted
  /-- `addEdge` holds the source and the target. -/
  | bothLocked
  /-- `addNewEdge` holds the source. -/
  | sourceLocked
  /-- `addNewEdge` has released the source and is about to lock the target. -/
  | targetPending
  /-- `addNewEdge` holds the target. -/
  | targetLocked
  /-- The source is held and its release ends the call. -/
  | finishing
  deriving DecidableEq, Repr

/-- The locks held in a phase of a call. -/
def Call.locks (call : Call Node) : Phase → List Node
  | .start => []
  | .targetWanted => [call.source]
  | .bothLocked => [call.source, call.target]
  | .sourceLocked => [call.source]
  | .targetPending => []
  | .targetLocked => [call.target]
  | .finishing => [call.source]

/-- `outEdges` and `inEdges` of all nodes. -/
structure Edges (Node : Type) where
  outEdges : List (Node × Node) := []
  inEdges : List (Node × Node) := []
  deriving DecidableEq, Repr

/-- One step of a call: the lock it acquires, the next phase unless the call returns, the edges. -/
structure Move (Node : Type) where
  lock : Option Node := none
  phase : Option Phase
  edges : Edges Node

def Edges.addOut (edges : Edges Node) (call : Call Node) : Edges Node :=
  { edges with outEdges := edges.outEdges ++ [call.ends] }

def Edges.addIn (edges : Edges Node) (call : Call Node) : Edges Node :=
  { edges with inEdges := edges.inEdges ++ [call.ends] }

/-- What happens under the lock of the source: the next phase and the edges. -/
def Call.enter [DecidableEq Node] (edges : Edges Node) : Call Node → Phase × Edges Node
  | addEdge source target =>
      let call := addEdge source target
      if call.ends ∈ edges.outEdges then (.finishing, edges)
      else if call.isSelfEdge then (.finishing, (edges.addOut call).addIn call)
      else (.targetWanted, edges.addOut call)
  | addNewEdge source target =>
      let call := addNewEdge source target
      if call.isSelfEdge then (.finishing, (edges.addOut call).addIn call)
      else (.sourceLocked, edges.addOut call)

/-- The step of a call from a phase. -/
def Call.move [DecidableEq Node] (call : Call Node) (edges : Edges Node) : Phase → Move Node
  | .start =>
      let (phase, edges) := call.enter edges
      { lock := some call.source, phase := some phase, edges := edges }
  | .targetWanted =>
      { lock := some call.target, phase := some .bothLocked, edges := edges.addIn call }
  | .bothLocked => { phase := some .finishing, edges := edges }
  | .sourceLocked => { phase := some .targetPending, edges := edges }
  | .targetPending =>
      { lock := some call.target, phase := some .targetLocked, edges := edges.addIn call }
  | .targetLocked => { phase := none, edges := edges }
  | .finishing => { phase := none, edges := edges }

/-- How far a thread is in its list of calls. -/
structure Progress where
  position : Nat := 0
  phase : Phase := .start
  deriving DecidableEq, Repr

structure State (Node Thread : Type) where
  progress : Thread → Progress
  edges : Edges Node

/-- The calls of each thread. -/
abbrev Program (Node Thread : Type) := Thread → List (Call Node)

/-- No thread has started. -/
def initial (edges : Edges Node) : State Node Thread :=
  { progress := fun _ => {}, edges := edges }

section Steps

variable (program : Program Node Thread)

/-- The call that a thread is in or before, unless it is finished. -/
def current (state : State Node Thread) (thread : Thread) : Option (Call Node) :=
  (program thread)[(state.progress thread).position]?

/-- The locks that a thread holds. -/
def held (state : State Node Thread) (thread : Thread) : List Node :=
  match current program state thread with
  | none => []
  | some call => call.locks (state.progress thread).phase

/-- No thread holds the lock of the node. -/
def Free (state : State Node Thread) (node : Node) : Prop :=
  ∀ thread, node ∉ held program state thread

instance [Fintype Thread] [DecidableEq Node] (state : State Node Thread) (node : Node) :
    Decidable (Free program state node) :=
  inferInstanceAs (Decidable (∀ thread, node ∉ held program state thread))

/-- The progress after a move. -/
def Progress.after (progress : Progress) : Option Phase → Progress
  | some phase => { progress with phase := phase }
  | none => { position := progress.position + 1 }

/-- A move of one thread. -/
def State.apply [DecidableEq Thread] (state : State Node Thread) (thread : Thread)
    (move : Move Node) : State Node Thread :=
  { progress :=
      Function.update state.progress thread ((state.progress thread).after move.phase)
    edges := move.edges }

/-- A step of a thread, if it has one: a lock is acquired only when no thread holds it. -/
def advance [Fintype Thread] [DecidableEq Thread] [DecidableEq Node]
    (state : State Node Thread) (thread : Thread) : Option (State Node Thread) :=
  match current program state thread with
  | none => none
  | some call =>
      let move := call.move state.edges (state.progress thread).phase
      if ∀ node ∈ move.lock, Free program state node then some (state.apply thread move) else none

/-- Some thread is unfinished and no thread can take a step. -/
def Deadlocked [Fintype Thread] [DecidableEq Thread] [DecidableEq Node]
    (state : State Node Thread) : Prop :=
  (∃ thread, current program state thread ≠ none) ∧ ∀ thread, advance program state thread = none

/-- No interleaving of the threads from the given edges reaches a deadlock. -/
def DeadlockFree [Fintype Thread] [DecidableEq Thread] [DecidableEq Node]
    (edges : Edges Node) : Prop :=
  ∀ state, Reaches (advance program) (initial edges) state → ¬ Deadlocked program state

end Steps

end SlangNetlist.EdgeLocks
