import SlangNetlist.Query.DepthFirstSearch

/-!
# The events of a search

The calls that a search makes on its visitor, in order.  The nodes entered and
not yet popped form a path of selected edges from the start, each reachable
node is entered once, and each but the start by an edge from the end of the
path.
-/

namespace SlangNetlist

/-- A call on the visitor. -/
inductive SearchEvent (Node Edge : Type) where
  | visitedNode (node : Node)
  | visitNode (node : Node)
  | visitEdge (edge : Edge)
  | popNode
  deriving DecidableEq, Repr

namespace SearchEvent

variable {Node Edge View : Type}

/-- What a visitor does at an event. -/
def apply (visitor : Visitor Node Edge View) : SearchEvent Node Edge → View → View
  | .visitedNode node => visitor.visitedNode node
  | .visitNode node => visitor.visitNode node
  | .visitEdge edge => visitor.visitEdge edge
  | .popNode => visitor.popNode

/-- The visitor that writes every call down. -/
def recorder : Visitor Node Edge (List (SearchEvent Node Edge)) where
  visitedNode node log := log ++ [.visitedNode node]
  visitNode node log := log ++ [.visitNode node]
  visitEdge edge log := log ++ [.visitEdge edge]
  popNode log := log ++ [.popNode]

/-- The nodes entered and not yet popped, the last first; `none` if too many are popped. -/
def openPath : List Node → List (SearchEvent Node Edge) → Option (List Node)
  | path, [] => some path
  | path, .visitNode node :: rest => openPath (node :: path) rest
  | _ :: path, .popNode :: rest => openPath path rest
  | [], .popNode :: _ => none
  | path, .visitedNode _ :: rest => openPath path rest
  | path, .visitEdge _ :: rest => openPath path rest

/-- The node that an event enters. -/
def entered? : SearchEvent Node Edge → Option Node
  | .visitNode node => some node
  | _ => none

/-- The edge that an event follows. -/
def crossed? : SearchEvent Node Edge → Option Edge
  | .visitEdge edge => some edge
  | _ => none

theorem openPath_append (path : List Node) (front back : List (SearchEvent Node Edge)) :
    openPath path (front ++ back) = (openPath path front).bind fun middle => openPath middle back := by
  fun_induction openPath path front with
  | case1 path => rfl
  | case2 path node rest ih => exact ih
  | case3 node path rest ih => exact ih
  | case4 rest => rfl
  | case5 path node rest ih => simpa only [List.cons_append, openPath] using ih
  | case6 path edge rest ih => simpa only [List.cons_append, openPath] using ih

end SearchEvent

namespace DepthFirstSearch

open SearchEvent

variable {Node Edge View : Type} [DecidableEq Node]

section Definitions

variable (graph : DirectedGraph Node Edge) (direction : Direction) (selected : Edge → Bool)
  (start : Node)

/-- A path of selected edges from the start, its end first. -/
def SelectedPath (path : List Node) : Prop :=
  path.getLast? = some start ∧
    path.IsChain fun upper lower => graph.Joined direction selected lower upper

/--
What an event says in its place: a node visited before is joined to the end of
the open path; an edge leads from the end of the open path to the node entered
next; and a node entered is the start, or the edge just before leads to it.
-/
def EventOk (front : List (SearchEvent Node Edge)) :
    SearchEvent Node Edge → List (SearchEvent Node Edge) → Prop
  | .visitedNode node, _ => ∃ top below, openPath [] front = some (top :: below) ∧
      SelectedPath graph direction selected start (top :: below) ∧
      graph.Joined direction selected top node
  | .visitEdge edge, back => ∃ top below, openPath [] front = some (top :: below) ∧
      SelectedPath graph direction selected start (top :: below) ∧
      edge ∈ graph.edgesOf direction top ∧ selected edge = true ∧
      ∃ after, back = .visitNode (graph.nextNode direction edge) :: after
  | .visitNode node, _ => (front = [] ∧ node = start) ∨
      ∃ earlier edge, front = earlier ++ [.visitEdge edge] ∧ graph.nextNode direction edge = node
  | .popNode, _ => True

def EventsOk (log : List (SearchEvent Node Edge)) : Prop :=
  ∀ front event back, log = front ++ event :: back →
    EventOk graph direction selected start front event back

/-- What the calls of a whole search are. -/
structure Traced (log : List (SearchEvent Node Edge)) : Prop where
  balanced : openPath [] log = some []
  visitNode : ∀ node, (graph.Reachable direction selected start node →
      (log.filterMap entered?).count node = 1) ∧
    (¬ graph.Reachable direction selected start node → node ∉ log.filterMap entered?)
  visitEdge : ∀ node, (graph.Reachable direction selected start node → node ≠ start →
      ((log.filterMap crossed?).map (graph.nextNode direction)).count node = 1) ∧
    (node = start ∨ ¬ graph.Reachable direction selected start node →
      node ∉ (log.filterMap crossed?).map (graph.nextNode direction))
  events : EventsOk graph direction selected start log

/-- What the calls so far say about the members of the search. -/
structure Logged (search : DepthFirstSearch Node Edge (List (SearchEvent Node Edge))) : Prop where
  path : openPath [] search.visitor = some (search.visitStack.map Prod.fst)
  entered : search.visitor.filterMap entered? = search.visitedNodes.reverse
  crossed : start :: (search.visitor.filterMap crossed?).map (graph.nextNode direction) =
    search.visitedNodes.reverse
  events : EventsOk graph direction selected start search.visitor

end Definitions

variable {graph : DirectedGraph Node Edge} {direction : Direction} {selected : Edge → Bool}
  {start : Node} {log more front back : List (SearchEvent Node Edge)}
  {event : SearchEvent Node Edge}

/-- Later calls do not change what an event says. -/
theorem EventOk.append (ok : EventOk graph direction selected start front event back) :
    EventOk graph direction selected start front event (back ++ more) := by
  cases event with
  | visitEdge edge =>
      obtain ⟨top, below, here, path, member, followed, after, rfl⟩ := ok
      exact ⟨top, below, here, path, member, followed, after ++ more, rfl⟩
  | _ => exact ok

theorem EventsOk.append (ok : EventsOk graph direction selected start log)
    (okMore : ∀ front event back, more = front ++ event :: back →
      EventOk graph direction selected start (log ++ front) event back) :
    EventsOk graph direction selected start (log ++ more) := by
  intro front event back split
  rcases List.append_eq_append_iff.mp split with ⟨between, rfl, rest⟩ | ⟨between, same, rest⟩
  · exact okMore between event back rest
  · cases between with
    | nil =>
        obtain rfl : log = front := by simpa using same
        simpa using okMore [] event back (by simpa using rest.symm)
    | cons head between =>
        obtain ⟨rfl, rfl⟩ : head = event ∧ between ++ more = back := by simpa using rest.symm
        exact (ok front head between same).append

/-- One more call. -/
theorem EventsOk.snoc (ok : EventsOk graph direction selected start log)
    (okLast : EventOk graph direction selected start log event []) :
    EventsOk graph direction selected start (log ++ [event]) := by
  refine ok.append fun front other back split => ?_
  obtain ⟨rfl, rfl, rfl⟩ : front = [] ∧ event = other ∧ back = [] := by
    cases front <;> simp_all
  simpa using okLast

theorem logged_setup (start : Node) :
    Logged graph direction selected start (setup graph direction recorder [] start) where
  path := rfl
  entered := rfl
  crossed := rfl
  events := by
    have nothing : EventsOk graph direction selected start [] := fun front event back split => by
      simp at split
    exact nothing.snoc (.inl ⟨rfl, rfl⟩)

/-- A step writes down what it does. -/
theorem Logged.step {search next : DepthFirstSearch Node Edge (List (SearchEvent Node Edge))}
    (searching : Searching graph direction selected start search)
    (logged : Logged graph direction selected start search)
    (stepped : DepthFirstSearch.step graph direction recorder selected search = some next) :
    Logged graph direction selected start next := by
  have selectedPath (nonempty : search.visitStack ≠ []) :
      SelectedPath graph direction selected start (search.visitStack.map Prod.fst) :=
    ⟨searching.bottom nonempty, searching.path⟩
  obtain ⟨path, entered, crossed, events⟩ := logged
  rcases step_cases stepped with ⟨node, below, stack, rfl⟩ | ⟨node, edge, rest, below, stack,
    ⟨skipped, rfl⟩ | ⟨followed, visited, rfl⟩ | ⟨followed, fresh, rfl⟩⟩
  · refine ⟨?_, ?_, ?_, events.snoc trivial⟩
    · simp only [recorder, openPath_append, path, stack, List.map_cons, Option.bind_some, openPath]
    · simpa [recorder, List.filterMap_cons, entered?] using entered
    · simpa [recorder, List.filterMap_cons, crossed?] using crossed
  · rw [stack] at path
    exact ⟨path, entered, crossed, events⟩
  · have here := selectedPath (by simp [stack])
    rw [stack] at path here
    refine ⟨?_, ?_, ?_, events.snoc ⟨node, _, path, here, searching.joined stack followed⟩⟩
    · simp only [recorder, openPath_append, path, List.map_cons, Option.bind_some, openPath]
    · simpa [recorder, List.filterMap_cons, entered?] using entered
    · simpa [recorder, List.filterMap_cons, crossed?] using crossed
  · have here := selectedPath (by simp [stack])
    have ahead : edge ∈ graph.edgesOf direction node :=
      searching.remaining (node, edge :: rest) (by simp [stack]) List.mem_cons_self
    rw [stack] at path here
    refine ⟨?_, ?_, ?_, ?_⟩
    · simp only [recorder, openPath_append, path, List.map_cons, Option.bind_some, openPath]
    · simpa [recorder, List.filterMap_cons, entered?] using entered
    · simp [recorder, List.filterMap_cons, crossed?, ← crossed]
    · have both : EventsOk graph direction selected start (search.visitor ++
          [.visitEdge edge, .visitNode (graph.nextNode direction edge)]) := by
        refine events.append fun front event back split => ?_
        rcases front with _ | ⟨first, _ | ⟨second, others⟩⟩
        · obtain ⟨rfl, rfl⟩ : .visitEdge edge = event ∧
              [.visitNode (graph.nextNode direction edge)] = back := by simpa using split
          rw [List.append_nil]
          exact ⟨node, _, path, here, ahead, followed, [], rfl⟩
        · obtain ⟨rfl, rfl, rfl⟩ : .visitEdge edge = first ∧
              .visitNode (graph.nextNode direction edge) = event ∧ [] = back := by
            simpa using split
          exact .inr ⟨search.visitor, edge, rfl, rfl⟩
        · simp at split
      simpa [recorder] using both

/-- A list without repetitions counts each element once. -/
theorem Logged.traced {search : DepthFirstSearch Node Edge (List (SearchEvent Node Edge))}
    (searching : Searching graph direction selected start search)
    (logged : Logged graph direction selected start search) (ended : search.visitStack = []) :
    Traced graph direction selected start search.visitor := by
  have nodup : search.visitedNodes.reverse.Nodup := List.nodup_reverse.mpr searching.fresh
  have reached (node : Node) : node ∈ search.visitedNodes.reverse ↔
      graph.Reachable direction selected start node := by
    rw [List.mem_reverse, searching.visited_iff ended]
  refine ⟨?_, fun node => ?_, fun node => ?_, logged.events⟩
  · simpa [ended] using logged.path
  · rw [logged.entered, reached]
    exact ⟨fun reachable => List.count_eq_one_of_mem nodup ((reached node).mpr reachable), id⟩
  · rw [← logged.crossed] at nodup reached
    obtain ⟨startAbsent, nodup⟩ := List.nodup_cons.mp nodup
    have others := reached node
    rw [List.mem_cons] at others
    refine ⟨fun reachable other => ?_, ?_⟩
    · exact List.count_eq_one_of_mem nodup ((others.mpr reachable).resolve_left other)
    · rintro (rfl | unreachable) member
      · exact startAbsent member
      · exact unreachable (others.mp (.inr member))

/-- A search with any visitor next to the one that writes the calls down. -/
structure Alongside (visitor : Visitor Node Edge View) (view : View)
    (search : DepthFirstSearch Node Edge View)
    (logged : DepthFirstSearch Node Edge (List (SearchEvent Node Edge))) : Prop where
  visitedNodes : search.visitedNodes = logged.visitedNodes
  visitStack : search.visitStack = logged.visitStack
  replayed : search.visitor = logged.visitor.foldl (fun seen event => event.apply visitor seen) view

theorem Alongside.step {visitor : Visitor Node Edge View} {view : View}
    {search : DepthFirstSearch Node Edge View}
    {logged next : DepthFirstSearch Node Edge (List (SearchEvent Node Edge))}
    (alongside : Alongside visitor view search logged)
    (stepped : DepthFirstSearch.step graph direction recorder selected logged = some next) :
    ∃ other, DepthFirstSearch.step graph direction visitor selected search = some other ∧
      Alongside visitor view other next := by
  obtain ⟨visitedNodes, visitStack, replayed⟩ := alongside
  rcases step_cases stepped with ⟨node, below, stack, rfl⟩ | ⟨node, edge, rest, below, stack,
    ⟨skipped, rfl⟩ | ⟨followed, visited, rfl⟩ | ⟨followed, fresh, rfl⟩⟩
  all_goals rw [stack] at visitStack
  · refine ⟨{ search with
      visitStack := below
      visitor := visitor.popNode search.visitor }, ?_, visitedNodes, rfl, ?_⟩
    · simp only [DepthFirstSearch.step, visitStack]
    · simp only [recorder, List.foldl_append, List.foldl_cons, List.foldl_nil, ← replayed]
      rfl
  · refine ⟨{ search with visitStack := (node, rest) :: below }, ?_, visitedNodes, rfl, replayed⟩
    simp only [DepthFirstSearch.step, visitStack, skipped, if_true]
  · rw [← visitedNodes] at visited
    refine ⟨{ search with
      visitStack := (node, rest) :: below
      visitor := visitor.visitedNode (graph.nextNode direction edge) search.visitor }, ?_,
        visitedNodes, rfl, ?_⟩
    · simp only [DepthFirstSearch.step, visitStack, followed, Bool.true_eq_false, visited,
        if_true, if_false]
    · simp only [recorder, List.foldl_append, List.foldl_cons, List.foldl_nil, ← replayed]
      rfl
  · rw [← visitedNodes] at fresh
    refine ⟨{
      visitStack := (graph.nextNode direction edge,
          graph.edgesOf direction (graph.nextNode direction edge)) :: (node, rest) :: below
      visitedNodes := graph.nextNode direction edge :: search.visitedNodes
      visitor := visitor.visitNode (graph.nextNode direction edge)
        (visitor.visitEdge edge search.visitor) }, ?_, congrArg _ visitedNodes, rfl, ?_⟩
    · simp only [DepthFirstSearch.step, visitStack, followed, Bool.true_eq_false, fresh, if_false]
    · simp only [recorder, List.foldl_append, List.foldl_cons, List.foldl_nil, ← replayed]
      rfl

theorem Alongside.run {visitor : Visitor Node Edge View} {view : View} {fuel : Nat}
    {search : DepthFirstSearch Node Edge View}
    {logged final : DepthFirstSearch Node Edge (List (SearchEvent Node Edge))}
    (alongside : Alongside visitor view search logged)
    (ran : DepthFirstSearch.run graph direction recorder selected fuel logged = some final) :
    ∃ other, DepthFirstSearch.run graph direction visitor selected fuel search = some other ∧
      Alongside visitor view other final := by
  induction fuel generalizing search logged with
  | zero => cases ran
  | succ fuel ih =>
      rw [DepthFirstSearch.run] at ran
      split at ran
      · next ended =>
          cases ran
          have empty : search.visitStack = [] := alongside.visitStack.trans (step_eq_none.mp ended)
          exact ⟨search, by rw [DepthFirstSearch.run, step_eq_none.mpr empty], alongside⟩
      · next next stepped =>
          obtain ⟨other, otherStepped, later⟩ := alongside.step stepped
          obtain ⟨otherFinal, otherRan, atEnd⟩ := ih later ran
          exact ⟨otherFinal, by rw [DepthFirstSearch.run, otherStepped]; exact otherRan, atEnd⟩

/--
A search ends, its calls are balanced and each in its place, and any visitor
ends as these calls leave it.
-/
theorem traverse_traced (graph : DirectedGraph Node Edge) (direction : Direction)
    (selected : Edge → Bool) (start : Node) :
    ∃ final, traverse graph direction recorder selected [] start = some final ∧
      Traced graph direction selected start final.visitor ∧
      ∀ (View : Type) (visitor : Visitor Node Edge View) (view : View),
        ∃ other, traverse graph direction visitor selected view start = some other ∧
          other.visitor =
            final.visitor.foldl (fun seen event => event.apply visitor seen) view := by
  obtain ⟨final, ran, ended, searching, logged⟩ :=
    @traverse_spec _ _ _ _ graph direction recorder selected
      (Logged graph direction selected start) start [] (logged_setup start)
      fun _ _ searching logged stepped => logged.step searching stepped
  refine ⟨final, ran, logged.traced searching ended, fun View visitor view => ?_⟩
  have alongside : Alongside visitor view (setup graph direction visitor view start)
      (setup graph direction recorder [] start) := ⟨rfl, rfl, rfl⟩
  obtain ⟨other, otherRan, atEnd⟩ := alongside.run ran
  exact ⟨other, otherRan, atEnd.replayed⟩

end DepthFirstSearch

end SlangNetlist
