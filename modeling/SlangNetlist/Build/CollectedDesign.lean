import SlangNetlist.Build.CollectSteps

/-!
# What the traversal collects

The traversal as the list of its events.  The blocks that it defers are those at
the places of the design that no black box and no uninstantiated scope encloses,
in the order of the text, and the black boxes that it records are the outermost
ones.
-/

namespace SlangNetlist

open Library

/-! ## Events -/

/-- One action of the traversal. -/
inductive CollectEvent where
  | recordCuts (connections : List PortConnection)
  | addBlackBoxPath (path : String)
  | port (symbol : PortSymbol)
  /-- A variable of an interface. -/
  | variable (symbol : ValueSymbol)
  | defer (block : DeferredSymbol)
  | connect (connection : PortConnection)

namespace CollectState

/-- Carry out an event. -/
def perform (context : CollectContext) (state : CollectState) :
    CollectEvent → Option CollectState
  | .recordCuts connections => some (state.recordCuts context connections)
  | .addBlackBoxPath path => some (state.addBlackBoxPath path)
  | .port symbol => state.handlePort context symbol
  | .variable symbol => some (state.handleVariable context true symbol)
  | .defer block => some (state.deferBlock block.symbol block.isProcedural)
  | .connect connection => state.connectPort context connection

end CollectState

namespace DesignTree

/-- The events of a visit of the members of a scope. -/
def events (blackBoxes : List String) (inInterface : Bool) : DesignTree → List CollectEvent
  | .empty => []
  | .member symbol members next =>
      (match symbol with
      | .port symbol => [.port symbol]
      | .variable symbol => if inInterface then [.variable symbol] else []
      | .proceduralBlock block => [.defer ⟨block, true⟩]
      | .continuousAssign block => [.defer ⟨block, false⟩]
      | .generateBlock isUninstantiated =>
          if ¬ isUninstantiated then events blackBoxes inInterface members else []
      | .instanceSymbol symbol =>
          if symbol.uninstantiated then []
          else
            .recordCuts symbol.portConnections ::
              (if isBlackBoxInstance blackBoxes symbol then
                .addBlackBoxPath symbol.hierarchicalPath :: members.ports.map .port
              else events blackBoxes symbol.isInterface members) ++
              symbol.portConnections.map .connect
      | .other => events blackBoxes inInterface members) ++
        events blackBoxes inInterface next

end DesignTree

namespace CollectState

variable {context : CollectContext} {state next : CollectState} {inInterface : Bool}
  {design : DesignTree}

/-- The traversal carries out its events. -/
theorem collect_eq : state.collect context inInterface design =
    (design.events context.options.blackBoxes inInterface).foldlM (perform context) state := by
  induction design generalizing inInterface state with
  | empty => rfl
  | member symbol members rest membersIh restIh =>
      have visits {first : Option CollectState} {events : List CollectEvent}
          (same : first = events.foldlM (perform context) state) :
          (first >>= collect context inInterface rest) =
            (events ++ rest.events context.options.blackBoxes inInterface).foldlM
              (perform context) state := by
        rw [List.foldlM_append, same]
        exact congrArg _ (funext fun _ => restIh)
      cases symbol with
      | port symbol => exact visits (by simp [perform])
      | «variable» symbol => exact visits (by cases inInterface <;> simp [perform, handleVariable])
      | proceduralBlock block | continuousAssign block => exact visits (by simp [perform])
      | generateBlock isUninstantiated =>
          cases isUninstantiated with
          | false => exact visits (@membersIh state inInterface)
          | true => exact @visits (some state) [] rfl
      | instanceSymbol symbol =>
          simp only [collect, DesignTree.events]
          split
          · exact @visits (some state) [] rfl
          · split <;>
              simp [perform, List.foldlM_append, List.foldlM_map, membersIh, restIh]
      | other => exact visits membersIh

end CollectState

/-! ## Places -/

namespace DesignMember

/-- The visitor goes on to what is inside of the member. -/
def isEntered (blackBoxes : List String) : DesignMember → Bool
  | .generateBlock isUninstantiated => !isUninstantiated
  | .instanceSymbol symbol => !symbol.uninstantiated && !isBlackBoxInstance blackBoxes symbol
  | .other => true
  | _ => false

/-- The block that phase 2 has to analyse. -/
def block? : DesignMember → Option DeferredSymbol
  | .proceduralBlock block => some ⟨block, true⟩
  | .continuousAssign block => some ⟨block, false⟩
  | _ => none

/-- The path of an instance that is black-boxed. -/
def blackBoxPath? (blackBoxes : List String) : DesignMember → Option String
  | .instanceSymbol symbol =>
      if !symbol.uninstantiated && isBlackBoxInstance blackBoxes symbol then
        some symbol.hierarchicalPath
      else none
  | _ => none

end DesignMember

/-- A member of the design, with those that enclose it, the innermost first. -/
structure Place where
  enclosing : List DesignMember
  symbol : DesignMember

namespace Place

def isVisited (blackBoxes : List String) (place : Place) : Bool :=
  place.enclosing.all (DesignMember.isEntered blackBoxes)

end Place

namespace DesignTree

/-- The places of a scope, in the order of the text. -/
def places (enclosing : List DesignMember) : DesignTree → List Place
  | .empty => []
  | .member symbol members next =>
      ⟨enclosing, symbol⟩ :: (places (symbol :: enclosing) members ++ places enclosing next)

/-- The members that the traversal visits, in the order of the text. -/
def visited (blackBoxes : List String) (enclosing : List DesignMember) (design : DesignTree) :
    List DesignMember :=
  ((design.places enclosing).filter (Place.isVisited blackBoxes)).map Place.symbol

end DesignTree

/-! ## Blocks and black boxes -/

namespace CollectEvent

def block? : CollectEvent → Option DeferredSymbol
  | .defer block => some block
  | _ => none

def blackBoxPath? : CollectEvent → Option String
  | .addBlackBoxPath path => some path
  | _ => none

/-- The event records a block or a black box. -/
def isRecord : CollectEvent → Bool
  | .defer _ => true
  | .addBlackBoxPath _ => true
  | _ => false

end CollectEvent

namespace DesignMember

/-- What the visit of a member records by itself. -/
def record? (blackBoxes : List String) (symbol : DesignMember) : Option CollectEvent :=
  (symbol.block?.map .defer).or ((symbol.blackBoxPath? blackBoxes).map .addBlackBoxPath)

variable {blackBoxes : List String} {symbol : DesignMember}

theorem record?_block? : (symbol.record? blackBoxes).bind CollectEvent.block? = symbol.block? := by
  cases symbol with
  | instanceSymbol symbol =>
      simp only [record?, block?, blackBoxPath?]
      split <;> rfl
  | _ => rfl

theorem record?_blackBoxPath? : (symbol.record? blackBoxes).bind CollectEvent.blackBoxPath? =
    symbol.blackBoxPath? blackBoxes := by
  cases symbol with
  | instanceSymbol symbol =>
      simp only [record?, block?, blackBoxPath?]
      split <;> rfl
  | _ => rfl

end DesignMember

namespace DesignTree

variable {blackBoxes : List String} {inInterface : Bool} {enclosing : List DesignMember}
  {design : DesignTree}

/-- Nothing is visited inside of a member that is not entered. -/
theorem visited_eq_nil (shut : enclosing.all (DesignMember.isEntered blackBoxes) = false) :
    design.visited blackBoxes enclosing = [] := by
  suffices ∀ place ∈ design.places enclosing, place.isVisited blackBoxes = false by
    rw [visited, List.map_eq_nil_iff, List.filter_eq_nil_iff]
    simpa using this
  induction design generalizing enclosing with
  | empty => simp [places]
  | member symbol members next membersIh nextIh =>
      intro place member
      rcases List.mem_cons.mp member with rfl | member
      · exact shut
      · rcases List.mem_append.mp member with inside | after
        · exact membersIh (by rw [List.all_cons, shut, Bool.and_false]) place inside
        · exact nextIh shut place after

/-- The visit of a member, of what is inside of it, and of the members after it. -/
theorem visited_member {symbol : DesignMember} {members next : DesignTree}
    (entered : enclosing.all (DesignMember.isEntered blackBoxes) = true) :
    (DesignTree.member symbol members next).visited blackBoxes enclosing =
      symbol :: ((if symbol.isEntered blackBoxes then
          members.visited blackBoxes (symbol :: enclosing) else []) ++
        next.visited blackBoxes enclosing) := by
  have inside : (if symbol.isEntered blackBoxes then
      members.visited blackBoxes (symbol :: enclosing) else []) =
        members.visited blackBoxes (symbol :: enclosing) := by
    split
    · rfl
    · next shut => exact (visited_eq_nil (by simp [shut])).symm
  rw [inside]
  simp [visited, places, Place.isVisited, entered]

/-- The records of the traversal are those of the members that it visits. -/
theorem filter_events (entered : enclosing.all (DesignMember.isEntered blackBoxes) = true) :
    (design.events blackBoxes inInterface).filter CollectEvent.isRecord =
      (design.visited blackBoxes enclosing).filterMap (DesignMember.record? blackBoxes) := by
  induction design generalizing enclosing inInterface with
  | empty => rfl
  | member symbol members next membersIh nextIh =>
      have visits {first : List CollectEvent}
          (same : first.filter CollectEvent.isRecord = (symbol.record? blackBoxes).toList ++
            (if symbol.isEntered blackBoxes then
              members.visited blackBoxes (symbol :: enclosing) else []).filterMap
                (DesignMember.record? blackBoxes)) :
          (first ++ next.events blackBoxes inInterface).filter CollectEvent.isRecord =
            ((member symbol members next).visited blackBoxes enclosing).filterMap
              (DesignMember.record? blackBoxes) := by
        rw [visited_member entered, List.filter_append, same, nextIh entered,
          List.filterMap_cons, List.filterMap_append]
        cases symbol.record? blackBoxes <;> rfl
      have inside (isEntered : symbol.isEntered blackBoxes = true) (inInterface : Bool) :=
        @membersIh inInterface (symbol :: enclosing) (by simp [isEntered, entered])
      cases symbol with
      | port symbol => exact visits rfl
      | «variable» symbol => exact visits (by cases inInterface <;> rfl)
      | proceduralBlock block | continuousAssign block => exact visits rfl
      | generateBlock isUninstantiated =>
          cases isUninstantiated with
          | false => exact visits (inside rfl inInterface)
          | true => exact @visits [] rfl
      | instanceSymbol symbol =>
          simp only [events]
          refine visits ?_
          have silentPorts : (members.ports.map CollectEvent.port).filter CollectEvent.isRecord =
              [] := by simp [CollectEvent.isRecord]
          have silentConnections : (symbol.portConnections.map CollectEvent.connect).filter
              CollectEvent.isRecord = [] := by simp [CollectEvent.isRecord]
          cases isBare : symbol.uninstantiated with
          | true => simp [DesignMember.record?, DesignMember.block?, DesignMember.blackBoxPath?,
              DesignMember.isEntered, isBare]
          | false =>
              cases isBlackBox : isBlackBoxInstance blackBoxes symbol with
              | true =>
                  simp [DesignMember.record?, DesignMember.block?, DesignMember.blackBoxPath?,
                    DesignMember.isEntered, isBare, isBlackBox, List.filter_cons,
                    silentPorts, silentConnections, CollectEvent.isRecord]
              | false =>
                  have isEntered : DesignMember.isEntered blackBoxes (.instanceSymbol symbol) =
                      true := by simp [DesignMember.isEntered, isBare, isBlackBox]
                  simp [DesignMember.record?, DesignMember.block?, DesignMember.blackBoxPath?,
                    isEntered, isBare, isBlackBox, silentConnections, CollectEvent.isRecord,
                    inside isEntered symbol.isInterface]
      | other => exact visits (inside rfl inInterface)

end DesignTree

/-! ## Runs of events -/

/-- A node that the event adds to the graph. -/
def CollectEvent.Makes (node : NetlistNode) : CollectEvent → Prop
  | .port symbol => ∃ inner, symbol.internalSymbol = some inner ∧ node.Names .port inner
  | .variable symbol => node.Names .variable symbol
  | .connect _ => node.data.getHierarchicalPath = none
  | _ => False

/-- What a list of events does: nothing is taken out, and all that is new is of the events. -/
structure Collects (context : CollectContext) (events : List CollectEvent)
    (state next : CollectState) : Prop where
  keeps : ∀ node ∈ state.builder.graph.nodes, node ∈ next.builder.graph.nodes
  makes : ∀ node ∈ next.builder.graph.nodes,
    node ∈ state.builder.graph.nodes ∨ ∃ event ∈ events, event.Makes node
  covers : ∀ port inner, .port port ∈ events → port.internalSymbol = some inner →
    ∀ driver ∈ context.getDrivers inner, ∀ bit, driver.first ≤ bit ∧ bit ≤ driver.second →
      ∃ node ∈ next.builder.graph.nodes, node.Names .port inner ∧ node.HasBit bit
  deferredBlocks : next.deferredBlocks =
    state.deferredBlocks ++ events.filterMap CollectEvent.block?
  blackBoxPaths : next.builder.graph.blackBoxPaths =
    state.builder.graph.blackBoxPaths ++ events.filterMap CollectEvent.blackBoxPath?

namespace Collects

variable {context : CollectContext} {event : CollectEvent} {events : List CollectEvent}
  {state middle next : CollectState} {made : NetlistNode → Prop}

/-- The builder has grown by nodes of the event, which records nothing. -/
theorem of_grows (grows : Grows made state.builder next.builder)
    (own : ∀ node, made node → event.Makes node)
    (notPort : ∀ port, event ≠ .port port)
    (deferredBlocks : next.deferredBlocks = state.deferredBlocks)
    (silent : event.isRecord = false) : Collects context [event] state next where
  keeps _ member := grows.keeps member
  makes node member := (grows.mem_nodes member).imp_right fun isMade =>
    ⟨event, List.mem_singleton_self event, own node isMade⟩
  covers port _ member := absurd (List.mem_singleton.mp member).symm (notPort port)
  deferredBlocks := by
    rw [deferredBlocks]
    cases event <;> simp_all [CollectEvent.isRecord, CollectEvent.block?]
  blackBoxPaths := by
    rw [grows.blackBoxPaths]
    cases event <;> simp_all [CollectEvent.isRecord, CollectEvent.blackBoxPath?]

/-- One event. -/
theorem perform (performed : state.perform context event = some next) :
    Collects context [event] state next := by
  cases event with
  | recordCuts connections =>
      cases performed
      have kept : (state.recordCuts context connections).builder = state.builder ∧
          (state.recordCuts context connections).deferredBlocks = state.deferredBlocks := by
        unfold CollectState.recordCuts
        split <;> exact ⟨rfl, rfl⟩
      have grows : Grows (fun _ => False) state.builder
          (state.recordCuts context connections).builder := by
        rw [kept.1]
        exact .refl _
      exact of_grows grows (fun _ isMade => isMade.elim) (fun _ => by simp) kept.2 rfl
  | addBlackBoxPath path =>
      cases performed
      exact {
        keeps := fun _ member => member
        makes := fun _ member => .inl member
        covers := fun _ _ member => by simp at member
        deferredBlocks := (List.append_nil _).symm
        blackBoxPaths := rfl }
  | port symbol =>
      obtain ⟨builder, created, same⟩ := Option.bind_eq_some_iff.mp performed
      cases same
      have grows := NetlistBuilder.grows_materializePortNodes created
      exact {
        keeps := fun _ member => grows.keeps member
        makes := fun node member => (grows.mem_nodes member).imp_right fun isMade =>
          ⟨_, List.mem_singleton_self _, isMade⟩
        covers := fun port inner member named driver driverMem bit driven => by
          cases List.mem_singleton.mp member
          exact NetlistBuilder.covers_materializePortNodes created named driverMem driven
        deferredBlocks := (List.append_nil _).symm
        blackBoxPaths := grows.blackBoxPaths.trans (List.append_nil _).symm }
  | «variable» symbol =>
      cases performed
      have grows : Grows (·.Names .variable symbol) state.builder
          (state.handleVariable context true symbol).builder :=
        .foldl fun here driver => NetlistBuilder.grows_createVariable here driver.bounds
      exact of_grows grows (fun _ isMade => isMade) (fun _ => by simp) rfl rfl
  | defer block =>
      cases performed
      exact {
        keeps := fun _ member => member
        makes := fun _ member => .inl member
        covers := fun _ _ member => by simp at member
        deferredBlocks := rfl
        blackBoxPaths := (List.append_nil _).symm }
  | connect connection =>
      have unfolded : state.connectPort context connection = some next := performed
      unfold CollectState.connectPort at unfolded
      split at unfolded
      · obtain ⟨builder, connected, same⟩ := Option.bind_eq_some_iff.mp unfolded
        cases same
        exact of_grows (NetlistBuilder.grows_handlePortConnection connected)
          (fun _ pathless => pathless) (fun _ => by simp) rfl rfl
      · cases unfolded
        exact of_grows (.refl _) (fun _ pathless => pathless) (fun _ => by simp) rfl rfl

theorem nil (state : CollectState) : Collects context [] state state where
  keeps _ member := member
  makes _ member := .inl member
  covers _ _ member := by cases member
  deferredBlocks := (List.append_nil _).symm
  blackBoxPaths := (List.append_nil _).symm

theorem cons (first : Collects context [event] state middle)
    (others : Collects context events middle next) :
    Collects context (event :: events) state next where
  keeps node member := others.keeps node (first.keeps node member)
  makes node member := by
    rcases others.makes node member with old | ⟨other, otherMem, isMade⟩
    · exact (first.makes node old).imp_right fun ⟨only, onlyMem, isMade⟩ =>
        ⟨only, List.mem_cons.mpr (.inl (List.mem_singleton.mp onlyMem)), isMade⟩
    · exact .inr ⟨other, List.mem_cons_of_mem _ otherMem, isMade⟩
  covers port inner member named driver driverMem bit driven := by
    rcases List.mem_cons.mp member with same | later
    · obtain ⟨node, nodeMem, holds⟩ := first.covers port inner
        (List.mem_singleton.mpr same) named driver driverMem bit driven
      exact ⟨node, others.keeps node nodeMem, holds⟩
    · exact others.covers port inner later named driver driverMem bit driven
  deferredBlocks := by
    rw [others.deferredBlocks, first.deferredBlocks, List.append_assoc, ← List.filterMap_append]
    rfl
  blackBoxPaths := by
    rw [others.blackBoxPaths, first.blackBoxPaths, List.append_assoc, ← List.filterMap_append]
    rfl

/-- A run of events. -/
theorem run (ran : events.foldlM (CollectState.perform context) state = some next) :
    Collects context events state next := by
  induction events generalizing state with
  | nil =>
      cases ran
      exact nil _
  | cons event rest ih =>
      obtain ⟨middle, performed, ran⟩ := foldlM_cons_eq_some.mp ran
      exact (perform performed).cons (ih ran)

end Collects

/-! ## The work list -/

namespace CollectEvent

/-- What is drawn from the records alone is drawn from all events. -/
theorem filterMap_isRecord {α : Type} {pick : CollectEvent → Option α}
    (silent : ∀ event, event.isRecord = false → pick event = none) (events : List CollectEvent) :
    (events.filter isRecord).filterMap pick = events.filterMap pick := by
  rw [List.filterMap_filter]
  refine List.filterMap_congr fun event _ => ?_
  cases isRecord : event.isRecord with
  | true => rfl
  | false => exact (silent event isRecord).symm

end CollectEvent

section Phase1

variable {context : CollectContext} {root : DesignTree} {state collected : CollectState}

theorem collects_runPhase1 (ran : runPhase1 context root state = some collected) :
    Collects context (root.events context.options.blackBoxes false) state collected :=
  .run (CollectState.collect_eq.symm.trans ran)

theorem deferredBlocks_runPhase1 (ran : runPhase1 context root state = some collected) :
    collected.deferredBlocks = state.deferredBlocks ++
      (root.visited context.options.blackBoxes []).filterMap DesignMember.block? := by
  have records := @DesignTree.filter_events context.options.blackBoxes false [] root rfl
  rw [(collects_runPhase1 ran).deferredBlocks, ← CollectEvent.filterMap_isRecord
    (fun event notRecord => by cases event <;> first | rfl | cases notRecord), records,
    List.filterMap_filterMap]
  exact congrArg _ (congrArg (List.filterMap · _) (funext fun _ => DesignMember.record?_block?))

theorem blackBoxPaths_runPhase1 (ran : runPhase1 context root state = some collected) :
    collected.builder.graph.blackBoxPaths = state.builder.graph.blackBoxPaths ++
      (root.visited context.options.blackBoxes []).filterMap
        (DesignMember.blackBoxPath? context.options.blackBoxes) := by
  have records := @DesignTree.filter_events context.options.blackBoxes false [] root rfl
  rw [(collects_runPhase1 ran).blackBoxPaths, ← CollectEvent.filterMap_isRecord
    (fun event notRecord => by cases event <;> first | rfl | cases notRecord), records,
    List.filterMap_filterMap]
  exact congrArg _
    (congrArg (List.filterMap · _) (funext fun _ => DesignMember.record?_blackBoxPath?))

end Phase1

/--
Phase 1 defers the blocks at the places of the design that no uninstantiated
scope and no black box encloses, and records the boxes at such places, each in
the order of the text.
-/
theorem runPhase1_records (context : CollectContext) (root : DesignTree)
    {state collected : CollectState} (ran : runPhase1 context root state = some collected) :
    collected.deferredBlocks = state.deferredBlocks ++
        (root.visited context.options.blackBoxes []).filterMap DesignMember.block? ∧
      collected.builder.graph.blackBoxPaths = state.builder.graph.blackBoxPaths ++
        (root.visited context.options.blackBoxes []).filterMap
          (DesignMember.blackBoxPath? context.options.blackBoxes) :=
  ⟨deferredBlocks_runPhase1 ran, blackBoxPaths_runPhase1 ran⟩

def topInstance : InstanceSymbol := { definitionName := "top", hierarchicalPath := "top" }

def boxInstance : InstanceSymbol := { definitionName := "ram", hierarchicalPath := "top.u" }

def registerInstance : InstanceSymbol :=
  { definitionName := "register", hierarchicalPath := "top.v" }

/-- A port of two bits. -/
def boxedPort (id : Nat) (path : String) : PortSymbol where
  id := id
  selectableWidth := 2
  internalSymbol := some { id := id, hierarchicalPath := path, selectableWidth := 2 }

/-- A memory that is black-boxed, a branch that is not generated, and a register. -/
def boxedDesign : DesignTree :=
  .member (.instanceSymbol topInstance)
    (.member (.proceduralBlock 1) .empty
      (.member (.instanceSymbol boxInstance)
        (.member (.port (boxedPort 10 "top.u.d")) .empty
          (.member (.proceduralBlock 2) .empty .empty))
        (.member (.generateBlock true) (.member (.proceduralBlock 3) .empty .empty)
          (.member (.instanceSymbol registerInstance)
            (.member (.port (boxedPort 20 "top.v.q")) .empty
              (.member (.proceduralBlock 4) .empty .empty))
            (.member (.continuousAssign 5) .empty .empty))))) .empty

def boxedContext : CollectContext where
  options := { blackBoxes := ["ra*"] }
  getDrivers _ := [{ first := 0, second := 1, ascending := by simp, isInputPort := true }]
  resolveInterfaceRef _ _ := []

theorem runPhase1_records_boxed : ∃ collected, runPhase1 boxedContext boxedDesign {} =
      some collected ∧
    collected.deferredBlocks = [⟨1, true⟩, ⟨4, true⟩, ⟨5, false⟩] ∧
    collected.builder.graph.blackBoxPaths = ["top.u"] := by
  have isSome : (runPhase1 boxedContext boxedDesign {}).isSome = true := by decide +kernel
  obtain ⟨collected, ran⟩ := Option.isSome_iff_exists.mp isSome
  obtain ⟨blocks, boxes⟩ := runPhase1_records boxedContext boxedDesign ran
  exact ⟨collected, ran, blocks.trans (by decide +kernel), boxes.trans (by decide +kernel)⟩

end SlangNetlist
