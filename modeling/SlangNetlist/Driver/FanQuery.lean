import SlangNetlist.Common.Wildcard
import SlangNetlist.Driver.NameAndRange
import SlangNetlist.Query.SignalCones

/-!
# The fan-in and fan-out queries of the driver

A JSON query answers with the cone of a signal up to a depth, restricted by the
scope and name filters and cut at a number of results.  The summary says
whether the answer is complete.
-/

namespace SlangNetlist

/-- The options that restrict and bound a machine query. -/
structure QueryOptions where
  scopeFilters : List String := []
  nameFilters : List String := []
  maxResults : Option Nat := none
  maxDepth : Option Nat := none
  deriving DecidableEq, Repr

/-- The path is the scope or a descendant of it. -/
def pathInScope (path scope : List Char) : Bool :=
  if !scope.isPrefixOf path then false
  else path.length = scope.length || path[scope.length]? = some '.'

namespace QueryOptions

def passesFilters (options : QueryOptions) (path : String) : Bool :=
  (options.scopeFilters.isEmpty ||
      options.scopeFilters.any fun scope => pathInScope path.toList scope.toList) &&
    (options.nameFilters.isEmpty ||
      options.nameFilters.any fun pattern =>
        Wildcard.wildcardMatch (Wildcard.cStr path) (Wildcard.cStr pattern) = some true)

/-- The number of results shown, zero for all. -/
def limit (options : QueryOptions) : Nat := options.maxResults.getD 200

/-- The depth of the traversal, zero for any. -/
def depth (options : QueryOptions) : Nat := options.maxDepth.getD 64

end QueryOptions

/-- The answer to a node query: its data and its summary. -/
structure NodeGraphEnvelope where
  command : String
  signal : String
  max_depth : Nat
  nodes : List NodeRef
  edges : List NetlistEdge
  status : String
  complete : Bool
  returned : Nat
  total : Nat
  deriving DecidableEq, Repr

namespace NetlistGraph

variable (graph : NetlistGraph)

def hasSignal (name : String) : Bool :=
  graph.nodes.any fun node => (graph.outEdges node.ref).any fun edge => edge.symbol = some name

/-- A node without a path passes every filter. -/
def passes (options : QueryOptions) (node : NodeRef) : Bool :=
  match (graph.node? node).bind fun found => found.data.getHierarchicalPath with
  | some path => options.passesFilters path
  | none => true

/-- The envelope and the exit code; edges are listed in the order of the nodes. -/
def emitNodeGraph (command signal : String) (options : QueryOptions) (input : List NodeRef)
    (knownTotal : Option Nat) : NodeGraphEnvelope × Nat :=
  let count := if options.limit = 0 then input.length else min input.length options.limit
  let included := input.take count
  let total := knownTotal.getD input.length
  let complete : Bool := count = input.length ∧ total = input.length
  let status := if !complete then "truncated" else if count = 0 then "empty" else "ok"
  ({ command := command
     signal := signal
     max_depth := options.depth
     nodes := included
     edges := included.eraseDups.flatMap fun node =>
       (graph.outEdges node).filter fun edge => edge.target ∈ included
     status := status
     complete := complete
     returned := count
     total := total },
    if complete then if count = 0 then 3 else 0 else 4)

/-- The signal and the bits that a query names. -/
def querySignal (signal : String) : String × DriverBitRange :=
  let (path, range) := parseNameAndRange signal.toList
  (String.ofList path, range.getD ⟨0, 2147483647⟩)

/-- A cone query in JSON format. -/
def coneQuery (command : String) (cone : String → DriverBitRange → Nat → Option (List NodeRef))
    (options : QueryOptions) (signal : String) :
    Except String (Option (NodeGraphEnvelope × Nat)) :=
  let (path, queryRange) := querySignal signal
  if !graph.hasSignal path then .error ("could not find signal: " ++ path)
  else .ok do
    let found ← cone path queryRange options.depth
    let queryTotal ←
      if options.depth ≠ 0 then (cone path queryRange 0).map fun all => some all.length
      else some none
    let kept :=
      if !options.scopeFilters.isEmpty || !options.nameFilters.isEmpty then
        found.filter (graph.passes options)
      else found
    some (graph.emitNodeGraph command signal options kept queryTotal)

/-- The query `--fan-out`. -/
def fanOutQuery (options : QueryOptions) (signal : String) :
    Except String (Option (NodeGraphEnvelope × Nat)) :=
  graph.coneQuery "fan-out" graph.getSignalCombFanOut options signal

/-- The query `--fan-in`. -/
def fanInQuery (addresses : Addresses) (options : QueryOptions) (signal : String) :
    Except String (Option (NodeGraphEnvelope × Nat)) :=
  graph.coneQuery "fan-in" (graph.getSignalCombFanIn addresses) options signal

/-- A node of the unlimited answer passes the filters and is not in the response. -/
def LeavesOut (options : QueryOptions) (unlimited : List NodeRef) (response : NodeGraphEnvelope) :
    Prop :=
  ∃ node ∈ unlimited, graph.passes options node = true ∧ node ∉ response.nodes

/--
There is no depth limit, or no node of the unlimited answer fails the filters,
or one that passes lies beyond the depth limit, or more of the limited answer
pass than are shown.
-/
def FlagExact (options : QueryOptions) (limited unlimited : List NodeRef) : Prop :=
  options.depth = 0 ∨ (∀ node ∈ unlimited, graph.passes options node = true) ∨
    (∃ node ∈ unlimited, graph.passes options node = true ∧ node ∉ limited) ∨
    (options.limit ≠ 0 ∧ options.limit < (limited.filter (graph.passes options)).length)

/-- The completeness flag of a query tells the truth exactly under `FlagExact`. -/
def FlagTold (cone : String → DriverBitRange → Nat → Option (List NodeRef))
    (query : QueryOptions → String → Except String (Option (NodeGraphEnvelope × Nat)))
    (options : QueryOptions) (signal : String) : Prop :=
  ∃ limited unlimited response exitCode,
    cone (querySignal signal).1 (querySignal signal).2 options.depth = some limited ∧
    cone (querySignal signal).1 (querySignal signal).2 0 = some unlimited ∧
    query options signal = .ok (some (response, exitCode)) ∧
    (exitCode = 4 ↔ response.complete = false) ∧
    (response.status = "truncated" ↔ response.complete = false) ∧
    ((response.complete = false ↔ graph.LeavesOut options unlimited response) ↔
      graph.FlagExact options limited unlimited)

variable {graph} {options : QueryOptions} {limited unlimited kept : List NodeRef}

/-- Without filters every node passes. -/
theorem passes_of_no_filters (noScopes : options.scopeFilters = [])
    (noNames : options.nameFilters = []) (node : NodeRef) : graph.passes options node = true := by
  unfold passes
  split
  · simp [QueryOptions.passesFilters, noScopes, noNames]
  · rfl

/-- The filters are applied also where the source skips them. -/
theorem kept_eq (found : List NodeRef) :
    (if !options.scopeFilters.isEmpty || !options.nameFilters.isEmpty then
        found.filter (graph.passes options)
      else found) = found.filter (graph.passes options) := by
  split
  · rfl
  · next noFilters =>
      simp only [Bool.or_eq_true, Bool.not_eq_true', List.isEmpty_eq_false_iff, not_or,
        ne_eq, not_not] at noFilters
      exact (List.filter_eq_self.mpr fun node _ =>
        passes_of_no_filters noFilters.1 noFilters.2 node).symm

/-- A cone for every depth, each node once, and larger the deeper it goes. -/
structure Deepens (cone : Nat → Option (List NodeRef)) (depth : Nat)
    (limited unlimited : List NodeRef) : Prop where
  found : cone depth = some limited
  all : cone 0 = some unlimited
  nodup : limited.Nodup
  nodupAll : unlimited.Nodup
  subset : limited ⊆ unlimited

/-- The total that a query knows: the size of the unlimited answer, if the depth is limited. -/
def knownTotal (options : QueryOptions) (unlimited : List NodeRef) : Option Nat :=
  if options.depth ≠ 0 then some unlimited.length else none

theorem coneQuery_eq {cone : String → DriverBitRange → Nat → Option (List NodeRef)}
    {command signal : String} (present : graph.hasSignal (querySignal signal).1 = true)
    (deepens : Deepens (cone (querySignal signal).1 (querySignal signal).2) options.depth limited
      unlimited) :
    graph.coneQuery command cone options signal = .ok (some (graph.emitNodeGraph command signal
      options (limited.filter (graph.passes options)) (knownTotal options unlimited))) := by
  simp only [coneQuery, present, Bool.not_true, Bool.false_eq_true, if_false, deepens.found,
    deepens.all, Option.bind_eq_bind, Option.bind_some, Option.map_some, kept_eq, knownTotal]
  split <;> rfl

variable {command signal : String} {total : Option Nat}

theorem emitNodeGraph_complete : (graph.emitNodeGraph command signal options kept total).1.complete
      = true ↔
    ¬ (options.limit ≠ 0 ∧ options.limit < kept.length) ∧ total.getD kept.length = kept.length := by
  simp only [emitNodeGraph, decide_eq_true_eq]
  refine and_congr_left fun _ => ?_
  split <;> omega

theorem emitNodeGraph_exitCode :
    (graph.emitNodeGraph command signal options kept total).2 = 4 ↔
      (graph.emitNodeGraph command signal options kept total).1.complete = false := by
  have code : (graph.emitNodeGraph command signal options kept total).2 =
      if (graph.emitNodeGraph command signal options kept total).1.complete then
        if (graph.emitNodeGraph command signal options kept total).1.returned = 0 then 3 else 0
      else 4 := rfl
  rw [code]
  cases (graph.emitNodeGraph command signal options kept total).1.complete with
  | false => simp
  | true =>
      simp only [if_true]
      split <;> simp

theorem emitNodeGraph_status :
    (graph.emitNodeGraph command signal options kept total).1.status = "truncated" ↔
      (graph.emitNodeGraph command signal options kept total).1.complete = false := by
  have text : (graph.emitNodeGraph command signal options kept total).1.status =
      if !(graph.emitNodeGraph command signal options kept total).1.complete then "truncated"
      else if (graph.emitNodeGraph command signal options kept total).1.returned = 0 then "empty"
      else "ok" := rfl
  rw [text]
  cases (graph.emitNodeGraph command signal options kept total).1.complete with
  | false => simp
  | true =>
      simp only [Bool.not_true, Bool.false_eq_true, if_false]
      split <;> simp

/-- A list without duplicates has an element behind the limit that is not before it. -/
theorem exists_not_mem_take {bound : Nat} (nodup : kept.Nodup) (longer : bound < kept.length) :
    ∃ node ∈ kept, node ∉ kept.take bound := by
  refine ⟨kept[bound], List.getElem_mem longer, fun member => ?_⟩
  obtain ⟨index, few, same⟩ := List.getElem_of_mem member
  rw [List.getElem_take, nodup.getElem_inj_iff] at same
  rw [List.length_take] at few
  omega

/-- What is left out lies beyond the depth limit or beyond the result limit. -/
theorem leavesOut_iff (nodup : limited.Nodup) (subset : limited ⊆ unlimited) :
    graph.LeavesOut options unlimited (graph.emitNodeGraph command signal options
        (limited.filter (graph.passes options)) total).1 ↔
      (∃ node ∈ unlimited, graph.passes options node = true ∧ node ∉ limited) ∨
        (options.limit ≠ 0 ∧ options.limit < (limited.filter (graph.passes options)).length) := by
  have kept := nodup.filter (graph.passes options)
  simp only [LeavesOut, emitNodeGraph]
  constructor
  · rintro ⟨node, member, passing, absent⟩
    by_cases inside : node ∈ limited
    · refine .inr ?_
      by_contra few
      refine absent ?_
      rw [List.take_of_length_le (by split <;> omega)]
      exact List.mem_filter.mpr ⟨inside, passing⟩
    · exact .inl ⟨node, member, passing, inside⟩
  · rintro (⟨node, member, passing, beyond⟩ | ⟨limits, longer⟩)
    · exact ⟨node, member, passing, fun shown =>
        beyond (List.mem_of_mem_filter (List.mem_of_mem_take shown))⟩
    · obtain ⟨node, member, absent⟩ := exists_not_mem_take kept longer
      obtain ⟨inside, passing⟩ := List.mem_filter.mp member
      refine ⟨node, subset inside, passing, ?_⟩
      rwa [if_neg limits, Nat.min_eq_right (Nat.le_of_lt longer)]

/-- Two lists without duplicates, one within the other, of one length have the same elements. -/
theorem subset_of_length_eq {part whole : List NodeRef} (nodup : part.Nodup)
    (subset : part ⊆ whole) (length : whole.length = part.length) : whole ⊆ part :=
  ((List.subperm_of_subset nodup subset).perm_of_length_le length.le).symm.subset

/-- The flag tells the truth exactly if the filters do not make up the difference. -/
theorem flag_iff {cone : Nat → Option (List NodeRef)}
    (deepens : Deepens cone options.depth limited unlimited) :
    (((graph.emitNodeGraph command signal options (limited.filter (graph.passes options))
          (knownTotal options unlimited)).1.complete = false ↔
        graph.LeavesOut options unlimited (graph.emitNodeGraph command signal options
          (limited.filter (graph.passes options)) (knownTotal options unlimited)).1) ↔
      graph.FlagExact options limited unlimited) := by
  rw [← Bool.not_eq_true, emitNodeGraph_complete,
    leavesOut_iff deepens.nodup deepens.subset, FlagExact]
  have keptNodup := deepens.nodup.filter (graph.passes options)
  have keptSubset : limited.filter (graph.passes options) ⊆ unlimited :=
    fun node member => deepens.subset (List.mem_of_mem_filter member)
  by_cases anyDepth : options.depth = 0
  · -- The answer is the unlimited one, so that only the result limit counts.
    have same : limited = unlimited := by
      have found := deepens.found
      rw [anyDepth, deepens.all] at found
      exact (Option.some.inj found).symm
    have noneBeyond : ¬ ∃ node ∈ unlimited, graph.passes options node = true ∧ node ∉ limited := by
      rintro ⟨node, member, _, beyond⟩
      exact beyond (same ▸ member)
    simp only [knownTotal, anyDepth, ne_eq, not_true_eq_false, if_false, Option.getD_none,
      and_true, not_not, noneBeyond, false_or, true_or]
  · have sameLength : unlimited.length = (limited.filter (graph.passes options)).length ↔
        ∀ node ∈ unlimited, node ∈ limited ∧ graph.passes options node = true := by
      constructor
      · intro length node member
        exact List.mem_filter.mp (subset_of_length_eq keptNodup keptSubset length member)
      · intro all
        exact Nat.le_antisymm
          (List.subperm_of_subset deepens.nodupAll
            fun node member => List.mem_filter.mpr (all node member)).length_le
          (List.subperm_of_subset keptNodup keptSubset).length_le
    simp only [knownTotal, anyDepth, ne_eq, not_false_eq_true, if_true, Option.getD_some,
      sameLength, false_or]
    grind

theorem flagTold {cone : String → DriverBitRange → Nat → Option (List NodeRef)}
    (present : graph.hasSignal (querySignal signal).1 = true)
    (deepens : Deepens (cone (querySignal signal).1 (querySignal signal).2) options.depth limited
      unlimited) : graph.FlagTold cone (graph.coneQuery command cone) options signal :=
  ⟨limited, unlimited, _, _, deepens.found, deepens.all, coneQuery_eq present deepens,
    emitNodeGraph_exitCode, emitNodeGraph_status, flag_iff deepens⟩

/-- A worklist of larger depth reports more nodes. -/
theorem exists_deepens {successors : NodeRef → List NodeRef} {seeds : List NodeRef}
    {cone : Nat → Option (List NodeRef)}
    (exact : ∀ maxDepth, ∃ found, cone maxDepth = some found ∧ found.Nodup ∧
      Library.Reported successors seeds maxDepth found) (depth : Nat) :
    ∃ limited unlimited, Deepens cone depth limited unlimited := by
  obtain ⟨limited, found, nodup, _, members⟩ := exact depth
  obtain ⟨unlimited, all, nodupAll, _, membersAll⟩ := exact 0
  refine ⟨limited, unlimited, found, all, nodup, nodupAll, fun node member => ?_⟩
  obtain ⟨steps, _, within⟩ := (members node).mp member
  exact (membersAll node).mpr ⟨steps, .inl rfl, within⟩

/-- When the completeness flag of the fan-in and the fan-out query tells the truth. -/
theorem fanQueries_flagTold (graph : NetlistGraph) (linked : graph.Linked)
    (addresses : Addresses) (options : QueryOptions) (signal : String)
    (present : graph.hasSignal (querySignal signal).1 = true) :
    graph.FlagTold (graph.getSignalCombFanIn addresses) (graph.fanInQuery addresses) options
        signal ∧
      graph.FlagTold graph.getSignalCombFanOut graph.fanOutQuery options signal := by
  constructor
  · obtain ⟨_, _, deepens⟩ := exists_deepens
      (exists_getSignalCombFanIn linked addresses (querySignal signal).1 (querySignal signal).2)
      options.depth
    exact flagTold present deepens
  · obtain ⟨_, _, deepens⟩ := exists_deepens
      (exists_getSignalCombFanOut linked (querySignal signal).1 (querySignal signal).2)
      options.depth
    exact flagTold present deepens

theorem fanQueries_flagTold_pipeline :
    pipelineNetlist.FlagTold (pipelineNetlist.getSignalCombFanIn NodeRef.serial)
        (pipelineNetlist.fanInQuery NodeRef.serial) {} "m.q" ∧
      pipelineNetlist.FlagTold pipelineNetlist.getSignalCombFanOut pipelineNetlist.fanOutQuery {}
        "m.q" :=
  fanQueries_flagTold pipelineNetlist pipelineNetlist_linked NodeRef.serial {} "m.q"
    (by decide +kernel)

/-- The fan-out of `d` without its register. -/
def filteredAnswer : NodeGraphEnvelope where
  command := "fan-out"
  signal := "m.d"
  max_depth := 64
  nodes := [⟨0, .assignment, 1⟩]
  edges := []
  status := "truncated"
  complete := false
  returned := 1
  total := 2

/--
The filter removes the register from the fan-out of `d`; the one node that is
left is shown, and the answer is called truncated.
-/
theorem fanOutQuery_filtered_truncated :
    pipelineNetlist.fanOutQuery { scopeFilters := ["m.r"] } "m.d" =
        .ok (some (filteredAnswer, 4)) ∧
      filteredAnswer.complete = false ∧ filteredAnswer.status = "truncated" ∧
      pipelineNetlist.getSignalCombFanOut "m.d" ⟨0, 2147483647⟩ 0 =
        some [⟨0, .state, 0⟩, ⟨0, .assignment, 1⟩] ∧
      ¬ pipelineNetlist.LeavesOut { scopeFilters := ["m.r"] }
        [⟨0, .state, 0⟩, ⟨0, .assignment, 1⟩] filteredAnswer := by
  refine ⟨by rfl, rfl, rfl, by decide +kernel, ?_⟩
  unfold LeavesOut
  decide +kernel

end NetlistGraph

end SlangNetlist
