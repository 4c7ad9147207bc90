import Mathlib.Logic.Function.Basic
import SlangNetlist.Build.ResolveOrder
import SlangNetlist.Library.FilteredList
import SlangNetlist.Library.GuardedRun

/-!
# The parallel resolution

`resolveParallel` deals the runs of the sorted queue out to the threads, so that
the entries of a target node are all with one thread.  The threads share the
graph.  A reference to an edge stays good while others add edges; it is modelled
by the index of the edge.
-/

namespace SlangNetlist.ParallelResolve

open Library

variable {Thread : Type}

/-- Where a thread is in `addDependency`, with the edge to which it has a reference. -/
inductive Place where
  | start
  /-- `addEdge` has returned. -/
  | found (edge : Nat)
  /-- `setVariable` has returned `false`. -/
  | refused
  /-- `addNewEdge` has returned. -/
  | appended (edge : Nat)
  /-- `setVariable` has written the edge. -/
  | written (edge : Nat)
  /-- `setEdgeKind` has returned. -/
  | labelled (edge : Nat)

/-- The entries ahead of a thread, and the dependencies of the entry that it is in. -/
structure Local where
  pending : List PendingRvalue := []
  dependencies : List Dependency := []
  place : Place := .start

/-- The thread after a step of its call; `rest` are the dependencies after the current one. -/
def Local.resume (data : Local) (rest : List Dependency) : Option Place → Local
  | some place => { data with place := place }
  | none => { data with dependencies := rest, place := .start }

structure State (Thread : Type) where
  graph : NetlistGraph
  pendingException : Bool := false
  locals : Thread → Local

/-- Write through a reference. -/
def writeThrough (graph : NetlistGraph) (edge : Nat) (change : NetlistEdge → NetlistEdge) :
    NetlistGraph :=
  { graph with edges := graph.edges.modify edge change }

/-- One step of `addDependency`; without a place the call returns. -/
def addDependencyStep (graph : NetlistGraph) (dependency : Dependency) :
    Place → NetlistGraph × Option Place
  | .start =>
      let added := graph.addEdge dependency.source dependency.target
      (added, some (.found
        (added.edges.findIdx (NetlistEdge.joins dependency.source dependency.target))))
  | .found edge =>
      let made := graph.annotationOf dependency
      match (graph.edges[edge]?).bind (·.setVariable made.symbol made.bounds) with
      | some changed => (writeThrough graph edge fun _ => changed, some (.written edge))
      | none => (graph, some .refused)
  | .refused =>
      (graph.addNewEdge { source := dependency.source, target := dependency.target },
        some (.appended graph.edges.length))
  | .appended edge =>
      let made := graph.annotationOf dependency
      (writeThrough graph edge fun fresh =>
        (fresh.setVariable made.symbol made.bounds).getD fresh, some (.written edge))
  | .written edge =>
      let semantics := NetlistGraph.eventSemantics dependency.semantics
      (writeThrough graph edge fun own =>
        { own with semantics := { own.semantics with edgeKind := semantics.edgeKind } },
        some (.labelled edge))
  | .labelled edge =>
      let semantics := NetlistGraph.eventSemantics dependency.semantics
      (writeThrough graph edge fun own =>
        { own with semantics := { own.semantics with
            role := semantics.role, precision := semantics.precision } }, none)

section Steps

variable [DecidableEq Thread]

/-- One step of a thread; `builder` has the drivers and the variables, which do not change. -/
def step (builder : NetlistBuilder) (state : State Thread) (thread : Thread) :
    Option (State Thread) :=
  let data := state.locals thread
  match data.dependencies, data.pending with
  | dependency :: rest, _ =>
      let (graph, place) := addDependencyStep state.graph dependency data.place
      some { state with
        graph := graph
        locals := Function.update state.locals thread (data.resume rest place) }
  | [], pending :: rest =>
      match pending.node with
      | none => some { state with
          locals := Function.update state.locals thread { pending := rest } }
      | some node =>
          -- The exception of an entry is kept, and the thread goes on.
          let emitted := builder.emissions pending node
          some {
            graph := (state.graph.toSymbolRef pending.symbol).2
            pendingException := state.pendingException || emitted.isNone
            locals := Function.update state.locals thread
              { pending := rest, dependencies := emitted.getD [] } }
  | [], [] => none

end Steps

/-- The entries of the nodes that a thread owns, in the order of the sorted queue. -/
def entriesOf [DecidableEq Thread] (owner : NodeRef → Thread) (order : List PendingRvalue)
    (thread : Thread) : List PendingRvalue :=
  order.filter fun pending => pending.node.map owner = some thread

/-- The threads before their first step. -/
def initial [DecidableEq Thread] (builder : NetlistBuilder) (owner : NodeRef → Thread)
    (order : List PendingRvalue) : State Thread where
  graph := builder.graph
  locals thread := { pending := entriesOf owner order thread }

end SlangNetlist.ParallelResolve
