import Mathlib.Algebra.Order.BigOperators.Group.Finset
import SlangNetlist.Concurrency.ParallelResolve

/-!
# Runs of the parallel resolution

The edges between two nodes are changed by one thread only, the owner of the
target.  What these edges will be when the owner is done is the same in every
state, so that no schedule gives other edges than the walk over the sorted queue.
-/

namespace SlangNetlist.ParallelResolve

open Library

/-! ## One step of `addDependency` -/

section Dependency

variable {graph after : NetlistGraph} {source target start finish : NodeRef}
  {dependency : Dependency} {place : Place} {next : Option Place} {made : Annotation}
  {edges : List NetlistEdge} {edge : Nat}

/-- The edge at the index leads from the source to the target. -/
def JoinsAt (graph : NetlistGraph) (source target : NodeRef) (edge : Nat) : Prop :=
  ∃ own, graph.edges[edge]? = some own ∧ own.joins source target = true

/-- The place of an edge among those between its two nodes. -/
def rankOf (graph : NetlistGraph) (source target : NodeRef) (edge : Nat) : Nat :=
  rank (NetlistEdge.joins source target) graph.edges edge

/-- The reference that a thread has is to an edge of its dependency. -/
def Held (graph : NetlistGraph) (source target : NodeRef) : Option Place → Prop
  | some (.found edge) => JoinsAt graph source target edge ∧ rankOf graph source target edge = 0
  | some (.appended edge) => JoinsAt graph source target edge
  | some (.written edge) => JoinsAt graph source target edge
  | some (.labelled edge) => JoinsAt graph source target edge
  | _ => True

/-- The edges between two nodes when the call that is under way between them has returned. -/
def settle (source target : NodeRef) (made : Annotation) (rankOf : Nat → Nat)
    (edges : List NetlistEdge) : Option Place → List NetlistEdge
  | some .start => NetlistGraph.annotate source target edges made
  | some (.found _) => NetlistGraph.annotate source target edges made
  | some .refused => edges ++ [made.edge source target]
  | some (.appended edge) => edges.modify (rankOf edge) fun fresh =>
      ((fresh.setVariable made.symbol made.bounds).getD fresh).setSemantics made.semantics
  | some (.written edge) => edges.modify (rankOf edge) (·.setSemantics made.semantics)
  | some (.labelled edge) => edges.modify (rankOf edge) fun own =>
      { own with semantics := { own.semantics with
          role := made.semantics.role, precision := made.semantics.precision } }
  | none => edges

/-- Only the edges between two nodes have changed, and each is still at its index. -/
structure Touches (source target : NodeRef) (graph after : NetlistGraph) : Prop where
  nodes : after.nodes = graph.nodes
  length : graph.edges.length ≤ after.edges.length
  others : ∀ start finish, (start, finish) ≠ (source, target) →
    after.edgesBetween start finish = graph.edgesBetween start finish
  joins : ∀ start finish edge, JoinsAt graph start finish edge → JoinsAt after start finish edge
  ranks : ∀ start finish edge, edge < graph.edges.length →
    rankOf after start finish edge = rankOf graph start finish edge

theorem Touches.refl (source target : NodeRef) (graph : NetlistGraph) :
    Touches source target graph graph :=
  ⟨rfl, le_rfl, fun _ _ _ => rfl, fun _ _ _ joins => joins, fun _ _ _ _ => rfl⟩

theorem not_joins_of_ne {own : NetlistEdge} (joins : own.joins source target = true)
    (differ : (start, finish) ≠ (source, target)) : own.joins start finish = false := by
  rw [Bool.eq_false_iff]
  intro others
  obtain ⟨rfl, rfl⟩ := NetlistGraph.joins_unique joins others
  exact differ rfl

theorem touches_append (graph : NetlistGraph) {own : NetlistEdge}
    (joins : own.joins source target = true) :
    Touches source target graph { graph with edges := graph.edges ++ [own] } where
  nodes := rfl
  length := by simp
  others start finish differ := by
    simp [NetlistGraph.edgesBetween, not_joins_of_ne joins differ]
  joins start finish edge := by
    rintro ⟨old, found, others⟩
    have within : edge < graph.edges.length := List.getElem?_eq_some_iff.mp found |>.1
    exact ⟨old, by rw [← found, List.getElem?_append_left within], others⟩
  ranks start finish edge within := rank_append within.le

theorem touches_writeThrough {change : NetlistEdge → NetlistEdge}
    (at_ : JoinsAt graph source target edge)
    (ends : ∀ own, graph.edges[edge]? = some own →
      (change own).source = own.source ∧ (change own).target = own.target) :
    Touches source target graph (writeThrough graph edge change) := by
  obtain ⟨own, found, joins⟩ := at_
  have same (start finish : NodeRef) :
      (change own).joins start finish = own.joins start finish := by
    simp [NetlistEdge.joins, ends own found]
  exact {
    nodes := rfl
    length := by simp [writeThrough]
    others := fun start finish differ => by
      have apart := not_joins_of_ne joins differ
      exact filter_modify_of_neg found apart ((same start finish).trans apart)
    joins := fun start finish other => by
      rintro ⟨old, oldFound, oldJoins⟩
      simp only [JoinsAt, writeThrough, List.getElem?_modify, oldFound]
      split
      · next same_ =>
          obtain rfl : own = old := Option.some.inj (found.symm.trans (same_ ▸ oldFound))
          exact ⟨change own, rfl, (same start finish).trans oldJoins⟩
      · exact ⟨old, rfl, oldJoins⟩
    ranks := fun start finish other _ => rank_modify found (same start finish) }

/-- Writing through a reference changes the edge at its rank. -/
theorem edgesBetween_writeThrough {change : NetlistEdge → NetlistEdge}
    (at_ : JoinsAt graph source target edge)
    (ends : ∀ own, graph.edges[edge]? = some own →
      (change own).source = own.source ∧ (change own).target = own.target) :
    (writeThrough graph edge change).edgesBetween source target =
      (graph.edgesBetween source target).modify (rankOf graph source target edge) change := by
  obtain ⟨own, found, joins⟩ := at_
  refine filter_modify_of_pos found joins ?_
  rw [← joins]
  simp [NetlistEdge.joins, ends own found]

/-- A step of a call changes its own edges only, and what they will be afterwards is the same. -/
structure Advances (source target : NodeRef) (made : Annotation) (graph after : NetlistGraph)
    (place next : Option Place) : Prop where
  touches : Touches source target graph after
  held : Held after source target next
  settles : settle source target made (rankOf after source target)
      (after.edgesBetween source target) next =
    settle source target made (rankOf graph source target) (graph.edgesBetween source target) place

/-- A write through the reference keeps it. -/
theorem advances_writeThrough {change : NetlistEdge → NetlistEdge}
    (at_ : JoinsAt graph source target edge)
    (ends : ∀ own, graph.edges[edge]? = some own →
      (change own).source = own.source ∧ (change own).target = own.target)
    (held : JoinsAt (writeThrough graph edge change) source target edge →
      Held (writeThrough graph edge change) source target next)
    (settles : ∀ ranks : Nat → Nat, ranks edge = rankOf graph source target edge →
      settle source target made ranks
          ((graph.edgesBetween source target).modify (rankOf graph source target edge) change) next =
        settle source target made (rankOf graph source target) (graph.edgesBetween source target)
          (some place)) :
    Advances source target made graph (writeThrough graph edge change) (some place) next := by
  have touches := touches_writeThrough at_ ends
  obtain ⟨own, found, _⟩ := id at_
  have kept := touches.ranks source target edge (List.getElem?_eq_some_iff.mp found).1
  refine ⟨touches, held (touches.joins source target edge at_), ?_⟩
  rw [edgesBetween_writeThrough at_ ends]
  exact settles _ kept

/-- Annotating fresh edges is the same with the edge of `addEdge` as without. -/
theorem annotate_addEdge (graph : NetlistGraph) (source target : NodeRef) (made : Annotation) :
    NetlistGraph.annotate source target
        ((graph.addEdge source target).edgesBetween source target) made =
      NetlistGraph.annotate source target (graph.edgesBetween source target) made := by
  rw [NetlistGraph.edgesBetween_addEdge]
  split
  · next fresh =>
      rw [fresh.2.2]
      rfl
  · rfl

theorem advances_start (graph : NetlistGraph) (source target : NodeRef) (made : Annotation) :
    Advances source target made graph (graph.addEdge source target) (some .start)
      (some (.found ((graph.addEdge source target).edges.findIdx
        (NetlistEdge.joins source target)))) := by
  have touches : Touches source target graph (graph.addEdge source target) := by
    unfold NetlistGraph.addEdge
    split
    · exact .refl _ _ _
    · exact touches_append graph (by simp [NetlistEdge.joins])
  have exists_ : ∃ own ∈ (graph.addEdge source target).edges,
      own.joins source target = true := by
    have nonempty : (graph.addEdge source target).edgesBetween source target ≠ [] := by
      rw [NetlistGraph.edgesBetween_addEdge]
      split
      · simp
      · next old => exact fun empty => old ⟨rfl, rfl, empty⟩
    obtain ⟨own, member⟩ := List.exists_mem_of_ne_nil _ nonempty
    exact ⟨own, List.mem_filter.mp member⟩
  refine ⟨touches, ⟨?_, rank_findIdx⟩, annotate_addEdge graph source target made⟩
  have within := List.findIdx_lt_length.mpr exists_
  exact ⟨_, List.getElem?_eq_getElem within, List.findIdx_getElem⟩

theorem advances_found (at_ : JoinsAt graph source target edge)
    (first : rankOf graph source target edge = 0) :
    match (graph.edges[edge]?).bind (·.setVariable made.symbol made.bounds) with
    | some changed => Advances source target made graph (writeThrough graph edge fun _ => changed)
        (some (.found edge)) (some (.written edge))
    | none => Advances source target made graph graph (some (.found edge)) (some .refused) := by
  obtain ⟨own, found, joins⟩ := at_
  obtain ⟨rest, edges⟩ : ∃ rest, graph.edgesBetween source target = own :: rest := by
    have head := getElem?_filter found joins
    rw [show rank _ _ _ = 0 from first] at head
    cases edges : graph.edgesBetween source target with
    | nil =>
        rw [NetlistGraph.edgesBetween] at edges
        rw [edges] at head
        cases head
    | cons other rest =>
        rw [NetlistGraph.edgesBetween] at edges
        rw [edges] at head
        cases head
        exact ⟨rest, rfl⟩
  rw [found, Option.bind_some]
  split
  · next changed set =>
      have ends : ∀ other, graph.edges[edge]? = some other →
          changed.source = other.source ∧ changed.target = other.target := by
        intro other same
        obtain rfl : own = other := Option.some.inj (found.symm.trans same)
        exact ⟨(NetlistEdge.setVariable_eq set).1, (NetlistEdge.setVariable_eq set).2.1⟩
      refine advances_writeThrough ⟨own, found, joins⟩ ends id fun ranks same => ?_
      simp only [settle, same, first, edges, NetlistGraph.annotate, NetlistGraph.emitBetween, set]
      rfl
  · next refused =>
      refine ⟨.refl _ _ _, trivial, ?_⟩
      simp only [settle, edges, NetlistGraph.annotate, NetlistGraph.emitBetween, refused]
      rfl

theorem advances_refused (graph : NetlistGraph) (source target : NodeRef) (made : Annotation) :
    Advances source target made graph
      (graph.addNewEdge { source := source, target := target }) (some .refused)
      (some (.appended graph.edges.length)) := by
  have joins : NetlistEdge.joins source target { source := source, target := target } = true := by
    simp [NetlistEdge.joins]
  refine ⟨touches_append graph joins, ⟨_, List.getElem?_concat_length, joins⟩, ?_⟩
  have last : rankOf (graph.addNewEdge { source := source, target := target }) source target
      graph.edges.length = (graph.edgesBetween source target).length :=
    (rank_append le_rfl).trans rank_length
  rw [NetlistGraph.edgesBetween_addNewEdge]
  simp only [settle, last, and_self, if_true, modify_concat_length]
  rfl

/-- Every step of `addDependency`. -/
theorem addDependencyStep_advances
    (held : Held graph dependency.source dependency.target (some place)) :
    Advances dependency.source dependency.target (graph.annotationOf dependency) graph
      (addDependencyStep graph dependency place).1 (some place)
      (addDependencyStep graph dependency place).2 := by
  cases place with
  | start => exact advances_start graph _ _ _
  | found edge =>
      have advances := @advances_found graph _ _ (graph.annotationOf dependency) edge held.1 held.2
      simp only [addDependencyStep]
      split
      · next changed set =>
          rw [set] at advances
          exact advances
      · next refused =>
          rw [refused] at advances
          exact advances
  | refused => exact advances_refused graph _ _ _
  | appended edge =>
      have ends : ∀ own, graph.edges[edge]? = some own →
          ((own.setVariable dependency.symbol (graph.annotationOf dependency).bounds).getD
            own).source = own.source ∧
          ((own.setVariable dependency.symbol (graph.annotationOf dependency).bounds).getD
            own).target = own.target := by
        intro own _
        cases set : own.setVariable dependency.symbol (graph.annotationOf dependency).bounds with
        | none => exact ⟨rfl, rfl⟩
        | some changed =>
            exact ⟨(NetlistEdge.setVariable_eq set).1, (NetlistEdge.setVariable_eq set).2.1⟩
      refine advances_writeThrough held ends id fun ranks same => ?_
      simp only [addDependencyStep, settle, same, List.modify_modify_eq]
      rfl
  | written edge =>
      refine advances_writeThrough held (fun _ _ => ⟨rfl, rfl⟩) id fun ranks same => ?_
      simp only [addDependencyStep, settle, same, List.modify_modify_eq]
      rfl
  | labelled edge =>
      exact advances_writeThrough held (fun _ _ => ⟨rfl, rfl⟩) (fun _ => trivial) fun _ _ => rfl

end Dependency

/-! ## What the edges between two nodes will be -/

section Outlook

variable {builder : NetlistBuilder} {graph after : NetlistGraph} {data : Local}
  {source target : NodeRef} {dependency : Dependency} {rest : List Dependency}

/-- The edges between two nodes when a thread has made all that is ahead of it. -/
def outlook (builder : NetlistBuilder) (graph : NetlistGraph) (data : Local)
    (source target : NodeRef) : List NetlistEdge :=
  let ahead := builder.graph.annotationsBetween source target
    (data.dependencies.tail ++ builder.queueEmissions data.pending)
  ahead.foldl (NetlistGraph.annotate source target)
    (match data.dependencies.head? with
    | some dependency =>
        if dependency.source = source ∧ dependency.target = target then
          settle source target (builder.graph.annotationOf dependency)
            (rankOf graph source target) (graph.edgesBetween source target) (some data.place)
        else graph.edgesBetween source target
    | none => graph.edgesBetween source target)

/-- Between two dependencies nothing is under way. -/
theorem outlook_of_start (atStart : data.dependencies ≠ [] → data.place = .start) :
    outlook builder graph data source target =
      (builder.graph.annotationsBetween source target
        (data.dependencies ++ builder.queueEmissions data.pending)).foldl
        (NetlistGraph.annotate source target) (graph.edgesBetween source target) := by
  obtain ⟨pending, dependencies, place⟩ := data
  cases dependencies with
  | nil => rfl
  | cons dependency rest =>
      obtain rfl : place = .start := atStart (by simp)
      by_cases ends : dependency.source = source ∧ dependency.target = target
      · simp [outlook, NetlistGraph.annotationsBetween, settle, ends]
      · simp [outlook, NetlistGraph.annotationsBetween, ends]

/-- The outlook of a pair of nodes is the same if its edges and their places are. -/
theorem outlook_congr (edges : after.edgesBetween source target = graph.edgesBetween source target)
    (ranks : ∀ dependency, data.dependencies.head? = some dependency →
      dependency.source = source → dependency.target = target →
        settle source target (builder.graph.annotationOf dependency) (rankOf after source target)
            (graph.edgesBetween source target) (some data.place) =
          settle source target (builder.graph.annotationOf dependency) (rankOf graph source target)
            (graph.edgesBetween source target) (some data.place)) :
    outlook builder after data source target = outlook builder graph data source target := by
  simp only [outlook, edges]
  cases head : data.dependencies.head? with
  | none => rfl
  | some dependency =>
      by_cases ends : dependency.source = source ∧ dependency.target = target
      · simp only [ends, and_self, if_true, ranks dependency head ends.1 ends.2]
      · simp only [ends, if_false]

theorem outlook_cons (current : data.dependencies = dependency :: rest) :
    outlook builder graph data source target =
      (builder.graph.annotationsBetween source target
        (rest ++ builder.queueEmissions data.pending)).foldl (NetlistGraph.annotate source target)
        (if dependency.source = source ∧ dependency.target = target then
          settle source target (builder.graph.annotationOf dependency)
            (rankOf graph source target) (graph.edgesBetween source target) (some data.place)
        else graph.edgesBetween source target) := by
  simp [outlook, current]

/-- The outlook is of the edges alone. -/
theorem outlook_of_edges (same : after.edges = graph.edges) :
    outlook builder after data source target = outlook builder graph data source target := by
  simp only [outlook, NetlistGraph.edgesBetween, same]
  rw [show rankOf after = rankOf graph from by funext; simp only [rankOf, same]]

theorem touches_of_edges (nodes : after.nodes = graph.nodes) (same : after.edges = graph.edges)
    (source target : NodeRef) : Touches source target graph after where
  nodes := nodes
  length := by rw [same]
  others start finish _ := by simp only [NetlistGraph.edgesBetween, same]
  joins start finish edge at_ := by
    rw [JoinsAt, same]
    exact at_
  ranks start finish edge _ := by simp only [rankOf, same]

/-- The references of a call stay good while other edges change. -/
theorem settle_of_touches {first second : NodeRef} {place : Option Place} {made : Annotation}
    (touches : Touches first second graph after) (held : Held graph source target place)
    (edges : List NetlistEdge) :
    settle source target made (rankOf after source target) edges place =
      settle source target made (rankOf graph source target) edges place := by
  have same {edge : Nat} (at_ : JoinsAt graph source target edge) :
      rankOf after source target edge = rankOf graph source target edge := by
    obtain ⟨own, found, _⟩ := at_
    exact touches.ranks source target edge (List.getElem?_eq_some_iff.mp found).1
  cases place with
  | none => rfl
  | some place =>
      cases place with
      | start | found _ | refused => rfl
      | appended edge | written edge | labelled edge => simp only [settle, same held]

theorem held_of_touches {first second : NodeRef} {place : Option Place}
    (touches : Touches first second graph after) (held : Held graph source target place) :
    Held after source target place := by
  cases place with
  | none => trivial
  | some place =>
      cases place with
      | start | refused => trivial
      | found edge =>
          obtain ⟨joins, first⟩ := held
          obtain ⟨own, found, _⟩ := id joins
          have same := touches.ranks source target edge (List.getElem?_eq_some_iff.mp found).1
          exact ⟨touches.joins source target edge joins, same.trans first⟩
      | appended edge | written edge | labelled edge =>
          exact touches.joins source target edge held

end Outlook

/-! ## The states of the threads -/

section Runs

variable [DecidableEq Thread] {builder : NetlistBuilder} {owner : NodeRef → Thread}
  {order : List PendingRvalue} {state next : State Thread} {thread : Thread}

/-- The state on the way from the first step of the threads. -/
structure Resolving (builder : NetlistBuilder) (owner : NodeRef → Thread)
    (order : List PendingRvalue) (state : State Thread) : Prop where
  nodes : state.graph.nodes = builder.graph.nodes
  owned : ∀ thread, ∀ pending ∈ (state.locals thread).pending, ∀ node,
    pending.node = some node → owner node = thread
  current : ∀ thread, ∀ dependency ∈ (state.locals thread).dependencies,
    owner dependency.target = thread
  held : ∀ thread, ∀ dependency, (state.locals thread).dependencies.head? = some dependency →
    Held state.graph dependency.source dependency.target (some (state.locals thread).place)
  outlook : ∀ source target,
    outlook builder state.graph (state.locals (owner target)) source target =
      (builder.graph.annotationsBetween source target (builder.queueEmissions order)).foldl
        (NetlistGraph.annotate source target) (builder.graph.edgesBetween source target)
  fails : builder.Fails order ↔
    state.pendingException = true ∨ ∃ thread, builder.Fails (state.locals thread).pending

/-- What a step does: a call goes on, or an entry is taken. -/
inductive StepCases (builder : NetlistBuilder) (state : State Thread) (thread : Thread)
    (next : State Thread) : Prop where
  | goesOn (dependency : Dependency) (rest : List Dependency)
      (current : (state.locals thread).dependencies = dependency :: rest)
      (graph : next.graph =
        (addDependencyStep state.graph dependency (state.locals thread).place).1)
      (exception : next.pendingException = state.pendingException)
      (locals : next.locals = Function.update state.locals thread
        ((state.locals thread).resume rest
          (addDependencyStep state.graph dependency (state.locals thread).place).2))
  | skips (pending : PendingRvalue) (rest : List PendingRvalue)
      (idle : (state.locals thread).dependencies = [])
      (current : (state.locals thread).pending = pending :: rest) (noNode : pending.node = none)
      (graph : next.graph = state.graph)
      (exception : next.pendingException = state.pendingException)
      (locals : next.locals = Function.update state.locals thread { pending := rest })
  | takes (pending : PendingRvalue) (rest : List PendingRvalue) (node : NodeRef)
      (idle : (state.locals thread).dependencies = [])
      (current : (state.locals thread).pending = pending :: rest)
      (target : pending.node = some node)
      (graph : next.graph = (state.graph.toSymbolRef pending.symbol).2)
      (exception : next.pendingException =
        (state.pendingException || (builder.emissions pending node).isNone))
      (locals : next.locals = Function.update state.locals thread
        { pending := rest, dependencies := (builder.emissions pending node).getD [] })

theorem step_cases (stepped : step builder state thread = some next) :
    StepCases builder state thread next := by
  unfold step at stepped
  dsimp only at stepped
  split at stepped
  · next dependency rest current =>
      cases stepped
      exact .goesOn dependency rest current rfl rfl rfl
  · next pending rest idle current =>
      split at stepped
      · next noNode =>
          cases stepped
          exact .skips pending rest idle current noNode rfl rfl rfl
      · next node target =>
          cases stepped
          exact .takes pending rest node idle current target rfl rfl rfl
  · cases stepped

/-- An entry makes dependencies on its own node only. -/
theorem target_of_mem_entryEmissions {pending : PendingRvalue} {dependency : Dependency}
    (member : dependency ∈ builder.entryEmissions pending) :
    pending.node = some dependency.target := by
  obtain ⟨node, target, _, same⟩ := NetlistBuilder.mem_entryEmissions member
  rw [target, same]
  rfl

/-- The dependencies on a node are those of its owner's entries. -/
theorem annotationsBetween_entriesOf (builder : NetlistBuilder) (owner : NodeRef → Thread)
    (order : List PendingRvalue) (source target : NodeRef) :
    builder.graph.annotationsBetween source target
        (builder.queueEmissions (entriesOf owner order (owner target))) =
      builder.graph.annotationsBetween source target (builder.queueEmissions order) := by
  unfold NetlistGraph.annotationsBetween
  congr 1
  induction order with
  | nil => rfl
  | cons pending rest ih =>
      have split : builder.queueEmissions (pending :: rest) =
          builder.entryEmissions pending ++ builder.queueEmissions rest := rfl
      by_cases own : pending.node.map owner = some (owner target)
      · have front : entriesOf owner (pending :: rest) (owner target) =
            pending :: entriesOf owner rest (owner target) :=
          List.filter_cons_of_pos (decide_eq_true own)
        have frontSplit : builder.queueEmissions (pending :: entriesOf owner rest (owner target)) =
            builder.entryEmissions pending ++
              builder.queueEmissions (entriesOf owner rest (owner target)) := rfl
        rw [front, frontSplit, split, List.filter_append, List.filter_append, ih]
      · have front : entriesOf owner (pending :: rest) (owner target) =
            entriesOf owner rest (owner target) :=
          List.filter_cons_of_neg (by rwa [decide_eq_true_iff])
        have silent : (builder.entryEmissions pending).filter (fun dependency =>
            dependency.source = source ∧ dependency.target = target) = [] := by
          rw [List.filter_eq_nil_iff]
          intro dependency member ends
          obtain ⟨_, rfl⟩ := of_decide_eq_true ends
          exact own (by rw [target_of_mem_entryEmissions member]; rfl)
        rw [front, ih, split, List.filter_append, silent, List.nil_append]

theorem fails_cons {pending : PendingRvalue} {rest : List PendingRvalue} :
    builder.Fails (pending :: rest) ↔
      (∃ node, pending.node = some node ∧ builder.emissions pending node = none) ∨
        builder.Fails rest := by
  simp [NetlistBuilder.Fails]

/-- An entry that fails is with the owner of its node. -/
theorem fails_iff_entriesOf (owner : NodeRef → Thread) : builder.Fails order ↔
    ∃ thread, builder.Fails (entriesOf owner order thread) := by
  constructor
  · rintro ⟨pending, member, node, target, failing⟩
    exact ⟨owner node, pending, List.mem_filter.mpr ⟨member, by simp [target]⟩, node, target,
      failing⟩
  · rintro ⟨thread, pending, member, holds⟩
    exact ⟨pending, List.mem_of_mem_filter member, holds⟩

theorem resolving_initial :
    Resolving builder owner order (initial builder owner order) where
  nodes := rfl
  owned thread pending member node target := by
    have own := of_decide_eq_true (List.mem_filter.mp member).2
    rw [target] at own
    exact Option.some.inj own
  current thread dependency member := by cases member
  held thread dependency head := by cases head
  outlook source target := by
    rw [outlook_of_start fun nonempty => absurd rfl nonempty]
    have same := annotationsBetween_entriesOf builder owner order source target
    exact congrArg (List.foldl _ _) same
  fails := by
    rw [fails_iff_entriesOf owner]
    simp [initial]

theorem annotationOf_of_nodes {graph : NetlistGraph} (nodes : graph.nodes = builder.graph.nodes)
    (dependency : Dependency) :
    graph.annotationOf dependency = builder.graph.annotationOf dependency := by
  simp only [NetlistGraph.annotationOf, NetlistGraph.getBounds, NetlistGraph.node?, nodes]

/-- A step of a call. -/
theorem Resolving.goesOn {dependency : Dependency} {rest : List Dependency} {place : Option Place}
    (resolving : Resolving builder owner order state)
    (current : (state.locals thread).dependencies = dependency :: rest)
    (advances : Advances dependency.source dependency.target
      (builder.graph.annotationOf dependency) state.graph next.graph
      (some (state.locals thread).place) place)
    (exception : next.pendingException = state.pendingException)
    (locals : next.locals = Function.update state.locals thread
      ((state.locals thread).resume rest place)) :
    Resolving builder owner order next := by
  obtain ⟨touches, held, settles⟩ := advances
  have mine : owner dependency.target = thread :=
    resolving.current thread dependency (by rw [current]; exact List.mem_cons_self)
  have others {other : Thread} (apart : other ≠ thread) :
      next.locals other = state.locals other := by
    rw [locals, Function.update_of_ne apart]
  have pending (other : Thread) : (next.locals other).pending = (state.locals other).pending := by
    by_cases same : other = thread
    · rw [same, locals, Function.update_self]
      cases place <;> rfl
    · rw [others same]
  have dependencies : ∀ other, ∀ later ∈ (next.locals other).dependencies,
      later ∈ (state.locals other).dependencies := by
    intro other later member
    by_cases same : other = thread
    · rw [same, locals, Function.update_self] at member
      rw [same, current]
      cases place with
      | none => exact List.mem_cons_of_mem _ member
      | some place => exact current ▸ member
    · rwa [others same] at member
  exact {
    nodes := touches.nodes.trans resolving.nodes
    owned := fun other entry member => resolving.owned other entry (pending other ▸ member)
    current := fun other later member => resolving.current other later
      (dependencies other later member)
    held := fun other later head => by
      by_cases same : other = thread
      · rw [same, locals, Function.update_self] at head ⊢
        cases place with
        | none => trivial
        | some place =>
            have first : later = dependency := by
              rw [Local.resume, current] at head
              exact (Option.some.inj head).symm
            rw [first]
            exact held
      · rw [others same] at head ⊢
        exact held_of_touches touches (resolving.held other later head)
    outlook := fun source target => by
      rw [← resolving.outlook source target]
      by_cases same : owner target = thread
      · have edges : (if dependency.source = source ∧ dependency.target = target then
            settle source target (builder.graph.annotationOf dependency)
              (rankOf next.graph source target) (next.graph.edgesBetween source target) place
            else next.graph.edgesBetween source target) =
            if dependency.source = source ∧ dependency.target = target then
              settle source target (builder.graph.annotationOf dependency)
                (rankOf state.graph source target) (state.graph.edgesBetween source target)
                (some (state.locals thread).place)
            else state.graph.edgesBetween source target := by
          split
          · next ends =>
              obtain ⟨rfl, rfl⟩ := ends
              exact settles
          · next differ =>
              refine touches.others source target fun ends => differ ?_
              exact ⟨(Prod.mk.inj ends).1.symm, (Prod.mk.inj ends).2.symm⟩
        rw [same, outlook_cons current, ← edges, locals, Function.update_self]
        cases place with
        | none =>
            rw [outlook_of_start fun _ => rfl]
            simp only [settle, ite_self]
            rfl
        | some place => exact outlook_cons current
      · rw [others same]
        have apart : (source, target) ≠ (dependency.source, dependency.target) := by
          intro ends
          exact same ((Prod.mk.inj ends).2 ▸ mine)
        refine outlook_congr (touches.others source target apart) fun later head first second => ?_
        subst first
        subst second
        exact settle_of_touches touches (resolving.held _ later head) _
    fails := by
      rw [resolving.fails, exception]
      simp only [pending] }

/-- An entry is taken, or left out for want of a node. -/
theorem Resolving.enters {pending : PendingRvalue} {rest : List PendingRvalue}
    (resolving : Resolving builder owner order state)
    (idle : (state.locals thread).dependencies = [])
    (current : (state.locals thread).pending = pending :: rest)
    (nodes : next.graph.nodes = state.graph.nodes) (edges : next.graph.edges = state.graph.edges)
    (exception : next.pendingException = true ↔ state.pendingException = true ∨
      ∃ node, pending.node = some node ∧ builder.emissions pending node = none)
    (locals : next.locals = Function.update state.locals thread
      { pending := rest, dependencies := builder.entryEmissions pending }) :
    Resolving builder owner order next := by
  have others {other : Thread} (apart : other ≠ thread) :
      next.locals other = state.locals other := by
    rw [locals, Function.update_of_ne apart]
  have mine : next.locals thread =
      { pending := rest, dependencies := builder.entryEmissions pending } := by
    rw [locals, Function.update_self]
  have owned := resolving.owned thread
  rw [current] at owned
  exact {
    nodes := nodes.trans resolving.nodes
    owned := fun other entry member => by
      by_cases same : other = thread
      · rw [same, mine] at member
        rw [same]
        exact owned entry (List.mem_cons_of_mem _ member)
      · exact resolving.owned other entry (others same ▸ member)
    current := fun other later member => by
      by_cases same : other = thread
      · rw [same, mine] at member
        rw [same]
        exact owned pending List.mem_cons_self later.target (target_of_mem_entryEmissions member)
      · exact resolving.current other later (others same ▸ member)
    held := fun other later head => by
      by_cases same : other = thread
      · rw [same, mine]
        trivial
      · rw [others same] at head ⊢
        exact held_of_touches (touches_of_edges nodes edges later.source later.target)
          (resolving.held other later head)
    outlook := fun source target => by
      rw [← resolving.outlook source target, outlook_of_edges edges]
      by_cases same : owner target = thread
      · rw [same, mine, outlook_of_start fun _ => rfl,
          outlook_of_start fun nonempty => absurd idle nonempty, idle, current]
        rfl
      · rw [others same]
    fails := by
      have split : (∃ other, builder.Fails (state.locals other).pending) ↔
          (∃ node, pending.node = some node ∧ builder.emissions pending node = none) ∨
            ∃ other, builder.Fails (next.locals other).pending := by
        constructor
        · rintro ⟨other, fails⟩
          by_cases same : other = thread
          · rw [same, current, fails_cons] at fails
            exact fails.imp_right fun later => ⟨thread, by rwa [mine]⟩
          · exact .inr ⟨other, by rwa [others same]⟩
        · rintro (failing | ⟨other, fails⟩)
          · exact ⟨thread, by rw [current, fails_cons]; exact .inl failing⟩
          · by_cases same : other = thread
            · rw [same, mine] at fails
              exact ⟨thread, by rw [current, fails_cons]; exact .inr fails⟩
            · exact ⟨other, by rwa [← others same]⟩
      rw [resolving.fails, exception, split, or_assoc] }

theorem Resolving.step (resolving : Resolving builder owner order state)
    (stepped : step builder state thread = some next) :
    Resolving builder owner order next := by
  cases step_cases stepped with
  | goesOn dependency rest current graph exception locals =>
      have held := resolving.held thread dependency (by rw [current]; rfl)
      have advances := addDependencyStep_advances held
      rw [annotationOf_of_nodes resolving.nodes, ← graph] at advances
      exact resolving.goesOn current advances exception locals
  | skips pending rest idle current noNode graph exception locals =>
      refine resolving.enters idle current (by rw [graph]) (by rw [graph]) ?_ ?_
      · simp [exception, noNode]
      · rw [locals, NetlistBuilder.entryEmissions, noNode]
  | takes pending rest node idle current target graph exception locals =>
      refine resolving.enters idle current ?_ ?_ ?_ ?_
      · rw [graph, NetlistGraph.nodes_toSymbolRef]
      · rw [graph, NetlistGraph.edges_toSymbolRef]
      · simp [exception, target]
      · rw [locals, NetlistBuilder.entryEmissions, target]

theorem resolving_of_reaches
    (reached : Reaches (step builder) (initial builder owner order) state) :
    Resolving builder owner order state :=
  reached.invariant resolving_initial fun _ _ _ resolving stepped => resolving.step stepped

theorem idle_of_finished (finished : step builder state thread = none) :
    (state.locals thread).dependencies = [] ∧ (state.locals thread).pending = [] := by
  unfold ParallelResolve.step at finished
  dsimp only at finished
  split at finished
  · cases finished
  · split at finished <;> cases finished
  · next idle done => exact ⟨idle, done⟩

/-! ## The length of a schedule -/

/-- The steps that are left of a call. -/
def Place.weight : Place → Nat
  | .start => 6
  | .found _ => 5
  | .refused => 4
  | .appended _ => 3
  | .written _ => 2
  | .labelled _ => 1

/-- At most as many steps are ahead of a thread. -/
def Local.weight (builder : NetlistBuilder) (data : Local) : Nat :=
  data.pending.length + 6 * (builder.queueEmissions data.pending).length +
    match data.dependencies with
    | [] => 0
    | _ :: rest => data.place.weight + 6 * rest.length

theorem weight_resume {data : Local} {graph : NetlistGraph} {dependency : Dependency}
    {rest : List Dependency} (current : data.dependencies = dependency :: rest) :
    (data.resume rest (addDependencyStep graph dependency data.place).2).weight builder <
      data.weight builder := by
  obtain ⟨pending, dependencies, place⟩ := data
  obtain rfl : dependencies = dependency :: rest := current
  cases place with
  | found edge =>
      simp only [addDependencyStep]
      split <;> simp only [Local.resume, Local.weight, Place.weight] <;> omega
  | labelled edge =>
      cases rest <;>
        simp only [addDependencyStep, Local.resume, Local.weight, Place.weight,
          List.length_cons, List.length_nil] <;> omega
  | start | refused | appended edge | written edge =>
      simp only [addDependencyStep, Local.resume, Local.weight, Place.weight]
      omega

theorem weight_enter {data : Local} {pending : PendingRvalue} {rest : List PendingRvalue}
    (idle : data.dependencies = []) (current : data.pending = pending :: rest) :
    ({ pending := rest, dependencies := builder.entryEmissions pending } : Local).weight builder <
      data.weight builder := by
  have split : builder.queueEmissions (pending :: rest) =
      builder.entryEmissions pending ++ builder.queueEmissions rest := rfl
  simp only [Local.weight, idle, current, split, List.length_append, List.length_cons]
  cases builder.entryEmissions pending with
  | nil =>
      simp only [List.length_nil]
      omega
  | cons dependency others =>
      simp only [Place.weight, List.length_cons]
      omega

/-- A step takes from the weight of its thread and leaves the other threads alone. -/
theorem weight_step (stepped : step builder state thread = some next) :
    (next.locals thread).weight builder < (state.locals thread).weight builder ∧
      ∀ other, other ≠ thread → next.locals other = state.locals other := by
  have moves {data : Local} (locals : next.locals = Function.update state.locals thread data)
      (lighter : data.weight builder < (state.locals thread).weight builder) :
      (next.locals thread).weight builder < (state.locals thread).weight builder ∧
        ∀ other, other ≠ thread → next.locals other = state.locals other := by
    rw [locals, Function.update_self]
    exact ⟨lighter, fun other apart => Function.update_of_ne apart _ _⟩
  cases step_cases stepped with
  | goesOn dependency rest current _ _ locals => exact moves locals (weight_resume current)
  | skips pending rest idle current noNode _ _ locals =>
      refine moves locals ?_
      have lighter := @weight_enter builder _ _ _ idle current
      rwa [NetlistBuilder.entryEmissions, noNode] at lighter
  | takes pending rest node idle current target _ _ locals =>
      refine moves locals ?_
      have lighter := @weight_enter builder _ _ _ idle current
      rwa [NetlistBuilder.entryEmissions, target] at lighter

/-- The entries of all threads are no more than those of the queue. -/
theorem sum_weight_initial [Fintype Thread] (builder : NetlistBuilder)
    (owner : NodeRef → Thread) (order : List PendingRvalue) :
    ∑ thread, ((initial builder owner order).locals thread).weight builder ≤
      order.length + 6 * (builder.queueEmissions order).length := by
  simp only [initial, Local.weight, add_zero]
  induction order with
  | nil => simp [entriesOf, NetlistBuilder.queueEmissions]
  | cons pending rest ih =>
      have split : builder.queueEmissions (pending :: rest) =
          builder.entryEmissions pending ++ builder.queueEmissions rest := rfl
      have weigh (thread : Thread) :
          (entriesOf owner (pending :: rest) thread).length +
              6 * (builder.queueEmissions (entriesOf owner (pending :: rest) thread)).length =
            ((entriesOf owner rest thread).length +
              6 * (builder.queueEmissions (entriesOf owner rest thread)).length) +
            if pending.node.map owner = some thread then
              1 + 6 * (builder.entryEmissions pending).length else 0 := by
        by_cases own : pending.node.map owner = some thread
        · have front : entriesOf owner (pending :: rest) thread =
              pending :: entriesOf owner rest thread :=
            List.filter_cons_of_pos (decide_eq_true own)
          have frontSplit : builder.queueEmissions (pending :: entriesOf owner rest thread) =
              builder.entryEmissions pending ++
                builder.queueEmissions (entriesOf owner rest thread) := rfl
          rw [front, frontSplit, if_pos own, List.length_append, List.length_cons]
          omega
        · have front : entriesOf owner (pending :: rest) thread = entriesOf owner rest thread :=
            List.filter_cons_of_neg (by rwa [decide_eq_true_iff])
          rw [front, if_neg own, add_zero]
      have own : ∑ thread, (if pending.node.map owner = some thread then
          1 + 6 * (builder.entryEmissions pending).length else 0) ≤
          1 + 6 * (builder.entryEmissions pending).length := by
        cases pending.node with
        | none => simp
        | some node =>
            rw [Finset.sum_eq_single (owner node)]
            · simp
            · exact fun other _ apart => if_neg fun same => apart (Option.some.inj same).symm
            · exact fun absent => absurd (Finset.mem_univ _) absent
      rw [Finset.sum_congr rfl fun thread _ => weigh thread, Finset.sum_add_distrib, split,
        List.length_append, List.length_cons]
      omega

theorem length_schedule [Fintype Thread] {schedule : List Thread}
    (run : Run (step builder) (initial builder owner order) schedule state) :
    schedule.length ≤ order.length + 6 * (builder.queueEmissions order).length := by
  suffices schedule.length + ∑ thread, (state.locals thread).weight builder ≤
      ∑ thread, ((initial builder owner order).locals thread).weight builder by
    have initially := sum_weight_initial builder owner order
    omega
  induction run with
  | nil => simp
  | @snoc front middle after thread _ _ stepped ih =>
      obtain ⟨lighter, others⟩ := weight_step stepped
      have less : ∑ other, (after.locals other).weight builder <
          ∑ other, (middle.locals other).weight builder := by
        refine Finset.sum_lt_sum (fun other _ => ?_) ⟨thread, Finset.mem_univ _, lighter⟩
        by_cases same : other = thread
        · rw [same]
          exact lighter.le
        · rw [others other same]
      rw [List.length_append, List.length_singleton]
      omega

/--
Every schedule of the threads is finite.  When all of them are done, the edges
between any two nodes are those of the walk over the sorted queue, in the same order,
and there is an exception exactly if that walk fails.
-/
theorem resolveParallel_agrees [Fintype Thread] (builder : NetlistBuilder)
    (owner : NodeRef → Thread) (order : List PendingRvalue) {schedule : List Thread}
    {state : State Thread}
    (run : Run (step builder) (initial builder owner order) schedule state) :
    schedule.length ≤ order.length + 6 * (builder.queueEmissions order).length ∧
      ((∀ thread, step builder state thread = none) →
        (state.pendingException = true ↔ builder.resolveQueue order = none) ∧
        state.graph.nodes = builder.graph.nodes ∧
        ∀ result, builder.resolveQueue order = some result → ∀ source target,
          state.graph.edgesBetween source target = result.graph.edgesBetween source target) := by
  refine ⟨length_schedule run, fun finished => ?_⟩
  have resolving := resolving_of_reaches ⟨schedule, run⟩
  have failing : state.pendingException = true ↔ builder.Fails order := by
    rw [resolving.fails]
    refine ⟨.inl, fun either => either.elim id fun ⟨thread, fails⟩ => ?_⟩
    rw [(idle_of_finished (finished thread)).2] at fails
    obtain ⟨pending, member, _⟩ := fails
    cases member
  refine ⟨failing.trans ⟨NetlistBuilder.resolveQueue_none, fun none => ?_⟩, resolving.nodes,
    fun result resolved source target => ?_⟩
  · by_contra succeeds
    obtain ⟨graph, resolved, _⟩ := NetlistBuilder.resolveQueue_spec builder order succeeds
    rw [none] at resolved
    cases resolved
  · have succeeds : ¬ builder.Fails order := fun fails => by
      rw [NetlistBuilder.resolveQueue_none fails] at resolved
      cases resolved
    obtain ⟨graph, same, edges⟩ := NetlistBuilder.resolveQueue_spec builder order succeeds
    obtain rfl : builder.withGraph graph = result := Option.some.inj (same.symm.trans resolved)
    obtain ⟨idle, done⟩ := idle_of_finished (finished (owner target))
    have settled := resolving.outlook source target
    rw [outlook_of_start fun nonempty => absurd idle nonempty, idle, done] at settled
    exact settled.trans (edges source target).symm

end Runs

open NetlistBuilder

/-- The node of task 2 is with the second thread. -/
def ownerByTask (node : NodeRef) : Bool :=
  node.task == 2

/-- `u = x` and `v = y`, where one node drives both signals. -/
def twoReads : List PendingRvalue :=
  [readSignal 0 "x", { readSignal 1 "y" with node := some ⟨2, .assignment, 0⟩ }]

/-- Both threads add an edge to the one source at the same time. -/
def sameSource : List Bool :=
  [false, true, false, true, true, false, true, false, false, true]

theorem sameSource_runs : (sameSource.foldlM (step pairDriven)
    (initial pairDriven ownerByTask twoReads)).isSome = true := by
  decide +kernel

def sameSourceState : State Bool :=
  (sameSource.foldlM (step pairDriven) (initial pairDriven ownerByTask twoReads)).get
    sameSource_runs

theorem resolveParallel_agrees_sameSource :
    sameSource.length ≤ 14 ∧ sameSourceState.pendingException = false ∧
      ∃ result, pairDriven.resolveQueue twoReads = some result ∧
        sameSourceState.graph.edgesBetween ⟨0, .assignment, 0⟩ ⟨1, .assignment, 0⟩ =
          result.graph.edgesBetween ⟨0, .assignment, 0⟩ ⟨1, .assignment, 0⟩ := by
  have run : Run (step pairDriven) (initial pairDriven ownerByTask twoReads) sameSource
      sameSourceState :=
    .of_foldlM_of_forall (Option.some_get sameSource_runs).symm fun _ _ _ _ _ _ => trivial
  obtain ⟨bounded, agrees⟩ := resolveParallel_agrees pairDriven ownerByTask twoReads run
  obtain ⟨failing, _, edges⟩ := agrees (by
    have idle : ∀ thread : Bool, (step pairDriven sameSourceState thread).isSome = false := by
      decide +kernel
    exact fun thread => Option.isNone_iff_eq_none.mp (by simpa using idle thread))
  have resolved : (pairDriven.resolveQueue twoReads).isSome = true := by decide +kernel
  obtain ⟨result, resolved⟩ := Option.isSome_iff_exists.mp resolved
  refine ⟨by decide, ?_, result, resolved, edges result resolved _ _⟩
  rw [resolved] at failing
  simpa using failing

end SlangNetlist.ParallelResolve
