import SlangNetlist.Build.CollectedDesign
import SlangNetlist.Query.BlackBoxCoverage

/-!
# The coverage of what is collected

A query classifies a node by its path and the recorded paths of the black boxes
alone.  In a design whose paths nest as its scopes do, the verdict is right for
what the traversal has collected: no node is inside of a box, and those on a
boundary are the ports of the boxes.
-/

namespace SlangNetlist

/-! ## The ports in reach -/

namespace DesignMember

/-- The value symbol of a port or of a variable. -/
def value? : DesignMember → Option ValueSymbol
  | .port symbol => symbol.internalSymbol
  | .variable symbol => some symbol
  | _ => none

end DesignMember

namespace Place

/-- The place is directly in an instance that is black-boxed. -/
def bordersBox (blackBoxes : List String) (place : Place) : Bool :=
  match place.enclosing with
  | .instanceSymbol symbol :: outer =>
      !symbol.uninstantiated && isBlackBoxInstance blackBoxes symbol &&
        outer.all (DesignMember.isEntered blackBoxes)
  | _ => false

/-- The traversal makes nodes for a port at the place. -/
def IsReached (blackBoxes : List String) (place : Place) : Prop :=
  place.isVisited blackBoxes = true ∨ place.bordersBox blackBoxes = true

variable {blackBoxes : List String} {place : Place}

theorem isVisited_iff : place.isVisited blackBoxes = true ↔
    ∀ outer ∈ place.enclosing, outer.isEntered blackBoxes = true := by
  rw [isVisited, List.all_eq_true]

theorem bordersBox_iff : place.bordersBox blackBoxes = true ↔
    ∃ symbol outer, place.enclosing = .instanceSymbol symbol :: outer ∧
      symbol.uninstantiated = false ∧ isBlackBoxInstance blackBoxes symbol = true ∧
      ∀ scope ∈ outer, scope.isEntered blackBoxes = true := by
  obtain ⟨enclosing, symbol⟩ := place
  unfold bordersBox
  split
  · next box outer same =>
      dsimp only at same
      subst same
      simp [and_assoc]
  · next other =>
      refine iff_of_false (by simp) ?_
      rintro ⟨box, outer, same, _⟩
      exact other box outer same

/-- A place that is reached inside of a member is directly in it when the member is not entered. -/
theorem IsReached.direct {symbol : DesignMember} {enclosing : List DesignMember}
    (reached : place.IsReached blackBoxes) (inside : symbol :: enclosing <:+ place.enclosing)
    (shut : symbol.isEntered blackBoxes = false) :
    place.enclosing = symbol :: enclosing ∧ place.bordersBox blackBoxes = true := by
  have member : symbol ∈ place.enclosing := inside.subset List.mem_cons_self
  rcases reached with visited | borders
  · rw [isVisited_iff.mp visited symbol member] at shut
    cases shut
  · obtain ⟨box, outer, same, _, _, entered⟩ := bordersBox_iff.mp borders
    refine ⟨?_, borders⟩
    rw [same] at inside ⊢
    rcases List.suffix_cons_iff.mp inside with direct | deeper
    · exact direct.symm
    · rw [entered symbol (deeper.subset List.mem_cons_self)] at shut
      cases shut

end Place

namespace DesignTree

variable {blackBoxes : List String} {inInterface : Bool} {enclosing : List DesignMember}
  {design : DesignTree} {place : Place} {port : PortSymbol}

/-- The places of a scope are inside of what encloses it. -/
theorem suffix_of_mem_places (member : place ∈ design.places enclosing) :
    enclosing <:+ place.enclosing := by
  induction design generalizing enclosing with
  | empty => cases member
  | member symbol members next membersIh nextIh =>
      rcases List.mem_cons.mp member with rfl | member
      · exact List.suffix_rfl
      · rcases List.mem_append.mp member with inside | after
        · exact (List.suffix_cons symbol enclosing).trans (membersIh inside)
        · exact nextIh after

/-- The ports of a scope are the ports directly in it. -/
theorem mem_ports : port ∈ design.ports ↔ ⟨enclosing, .port port⟩ ∈ design.places enclosing := by
  induction design with
  | empty => simp [ports, places]
  | member symbol members next _ nextIh =>
      have notInside : ⟨enclosing, .port port⟩ ∉ members.places (symbol :: enclosing) := by
        intro inside
        have longer := (suffix_of_mem_places inside).length_le
        simp only [List.length_cons] at longer
        omega
      rw [places, List.mem_cons, List.mem_append, or_iff_right notInside, ← nextIh]
      cases symbol <;> simp [ports, eq_comm]

/-- In a black box the ports directly in it are reached. -/
theorem mem_ports_of_box {symbol : InstanceSymbol} (instantiated : symbol.uninstantiated = false)
    (isBox : isBlackBoxInstance blackBoxes symbol = true)
    (entered : ∀ scope ∈ enclosing, scope.isEntered blackBoxes = true) :
    port ∈ design.ports ↔ ∃ place ∈ design.places (.instanceSymbol symbol :: enclosing),
      place.symbol = .port port ∧ place.IsReached blackBoxes := by
  constructor
  · intro member
    refine ⟨_, mem_ports.mp member, rfl, .inr ?_⟩
    exact Place.bordersBox_iff.mpr ⟨symbol, enclosing, rfl, instantiated, isBox, entered⟩
  · rintro ⟨⟨scopes, own⟩, member, rfl, reached⟩
    have shut : DesignMember.isEntered blackBoxes (.instanceSymbol symbol) = false := by
      simp [DesignMember.isEntered, isBox]
    obtain ⟨rfl, _⟩ := reached.direct (suffix_of_mem_places member) shut
    exact mem_ports.mpr member

/-- The port events are those of the ports in reach. -/
theorem mem_events_port (entered : ∀ scope ∈ enclosing, scope.isEntered blackBoxes = true) :
    .port port ∈ design.events blackBoxes inInterface ↔
      ∃ place ∈ design.places enclosing, place.symbol = .port port ∧
        place.IsReached blackBoxes := by
  induction design generalizing enclosing inInterface with
  | empty => simp [events, places]
  | member symbol members next membersIh nextIh =>
      have visits {first : List CollectEvent}
          (own : .port port ∈ first ↔ symbol = .port port ∨
            ∃ place ∈ members.places (symbol :: enclosing), place.symbol = .port port ∧
              place.IsReached blackBoxes) :
          .port port ∈ first ++ next.events blackBoxes inInterface ↔
            ∃ place ∈ (member symbol members next).places enclosing,
              place.symbol = .port port ∧ place.IsReached blackBoxes := by
        have here : (⟨enclosing, symbol⟩ : Place).IsReached blackBoxes :=
          .inl (Place.isVisited_iff.mpr entered)
        rw [List.mem_append, own, nextIh entered]
        simp only [places, List.mem_cons, List.mem_append, or_and_right, exists_or,
          exists_eq_left, here, and_true, or_assoc]
      have inside (isEntered : symbol.isEntered blackBoxes = true) (inInterface : Bool) :
          .port port ∈ members.events blackBoxes inInterface ↔
            ∃ place ∈ members.places (symbol :: enclosing), place.symbol = .port port ∧
              place.IsReached blackBoxes :=
        membersIh (List.forall_mem_cons.mpr ⟨isEntered, entered⟩)
      have nothing (shut : symbol.isEntered blackBoxes = false)
          (notBox : ∀ box, symbol = .instanceSymbol box → box.uninstantiated = true) :
          ¬ ∃ place ∈ members.places (symbol :: enclosing), place.symbol = .port port ∧
            place.IsReached blackBoxes := by
        rintro ⟨place, member, _, reached⟩
        obtain ⟨direct, borders⟩ := reached.direct (suffix_of_mem_places member) shut
        obtain ⟨box, _, same, instantiated, _⟩ := Place.bordersBox_iff.mp borders
        obtain ⟨rfl, _⟩ := List.cons.inj (direct.symm.trans same)
        rw [notBox box rfl] at instantiated
        cases instantiated
      cases symbol with
      | port symbol =>
          exact visits (by simp [nothing rfl (fun _ => by simp), eq_comm])
      | «variable» symbol =>
          exact visits (by cases inInterface <;> simp [nothing rfl (fun _ => by simp)])
      | proceduralBlock block | continuousAssign block =>
          exact visits (by simp [nothing rfl (fun _ => by simp)])
      | generateBlock isUninstantiated =>
          cases isUninstantiated with
          | false => exact visits (by simpa using inside rfl inInterface)
          | true => exact @visits [] (by simp [nothing rfl (fun _ => by simp)])
      | instanceSymbol symbol =>
          simp only [events]
          refine visits ?_
          cases isBare : symbol.uninstantiated with
          | true =>
              have notReached := nothing (by simp [DesignMember.isEntered, isBare])
                (fun _ same => by rwa [← DesignMember.instanceSymbol.inj same])
              simp [notReached]
          | false =>
              cases isBox : isBlackBoxInstance blackBoxes symbol with
              | true => simp [← mem_ports_of_box isBare isBox entered]
              | false =>
                  have isEntered : DesignMember.isEntered blackBoxes (.instanceSymbol symbol) =
                      true := by simp [DesignMember.isEntered, isBare, isBox]
                  simp [inside isEntered symbol.isInterface]
      | other => exact visits (by simpa using inside rfl inInterface)

/-- A variable event is that of a variable that is visited. -/
theorem exists_place_of_variable {value : ValueSymbol}
    (entered : ∀ scope ∈ enclosing, scope.isEntered blackBoxes = true)
    (member : .variable value ∈ design.events blackBoxes inInterface) :
    ∃ place ∈ design.places enclosing, place.symbol = .variable value ∧
      place.isVisited blackBoxes = true := by
  induction design generalizing enclosing inInterface with
  | empty => cases member
  | member symbol members next membersIh nextIh =>
      have later (after : .variable value ∈ next.events blackBoxes inInterface) :
          ∃ place ∈ (DesignTree.member symbol members next).places enclosing,
            place.symbol = .variable value ∧ place.isVisited blackBoxes = true := by
        obtain ⟨place, placeMem, holds⟩ := nextIh entered after
        exact ⟨place, List.mem_cons_of_mem _ (List.mem_append_right _ placeMem), holds⟩
      have deeper (isEntered : symbol.isEntered blackBoxes = true) {inInterface : Bool}
          (inside : .variable value ∈ members.events blackBoxes inInterface) :
          ∃ place ∈ (DesignTree.member symbol members next).places enclosing,
            place.symbol = .variable value ∧ place.isVisited blackBoxes = true := by
        obtain ⟨place, placeMem, holds⟩ :=
          membersIh (List.forall_mem_cons.mpr ⟨isEntered, entered⟩) inside
        exact ⟨place, List.mem_cons_of_mem _ (List.mem_append_left _ placeMem), holds⟩
      cases symbol with
      | «variable» symbol =>
          simp only [events] at member
          rcases List.mem_append.mp member with own | after
          · cases inInterface with
            | false => cases own
            | true =>
                cases List.mem_singleton.mp own
                exact ⟨_, List.mem_cons_self, rfl, Place.isVisited_iff.mpr entered⟩
          · exact later after
      | port symbol => exact later (by simpa [events] using member)
      | proceduralBlock block | continuousAssign block =>
          exact later (by simpa [events] using member)
      | generateBlock isUninstantiated =>
          simp only [events] at member
          rcases List.mem_append.mp member with own | after
          · cases isUninstantiated with
            | false => exact deeper rfl own
            | true => cases own
          · exact later after
      | instanceSymbol symbol =>
          simp only [events] at member
          rcases List.mem_append.mp member with own | after
          · cases isBare : symbol.uninstantiated with
            | true => simp [isBare] at own
            | false =>
                cases isBox : isBlackBoxInstance blackBoxes symbol with
                | true => simp [isBare, isBox] at own
                | false =>
                    refine @deeper ?_ symbol.isInterface (by simpa [isBare, isBox] using own)
                    simp [DesignMember.isEntered, isBare, isBox]
          · exact later after
      | other =>
          simp only [events] at member
          exact (List.mem_append.mp member).elim (deeper rfl) later

end DesignTree

/-! ## Coverage -/

/-- The path is that of the instance or runs on behind it. -/
def AtOrBelow (symbol : InstanceSymbol) (path : String) : Prop :=
  path.toList = symbol.hierarchicalPath.toList ∨
    ∃ remainder, Below symbol.hierarchicalPath path.toList remainder

/-- The paths of the values nest as the instances do. -/
structure PathsNest (root : DesignTree) : Prop where
  /-- Only what is inside of an instance has a path at it or below. -/
  nested : ∀ place ∈ root.places [], ∀ value, place.symbol.value? = some value →
    ∀ other ∈ root.places [], ∀ symbol, other.symbol = .instanceSymbol symbol →
      AtOrBelow symbol value.hierarchicalPath → .instanceSymbol symbol ∈ place.enclosing
  /-- A port is directly in its instance, under a name without a dot. -/
  direct : ∀ place ∈ root.places [], ∀ port inner, place.symbol = .port port →
    port.internalSymbol = some inner → ∀ symbol outer,
      place.enclosing = .instanceSymbol symbol :: outer →
        ∃ name, Below symbol.hierarchicalPath inner.hierarchicalPath.toList name ∧ '.' ∉ name

section Coverage

variable {context : CollectContext} {root : DesignTree} {collected : CollectState}

/-- A recorded box is an instance of the design that is not entered. -/
theorem exists_box_of_mem {blackBoxes : List String} {path : String}
    (member : path ∈ (root.visited blackBoxes []).filterMap
      (DesignMember.blackBoxPath? blackBoxes)) :
    ∃ place ∈ root.places [], ∃ symbol, place.symbol = .instanceSymbol symbol ∧
      symbol.hierarchicalPath = path ∧
      DesignMember.isEntered blackBoxes (.instanceSymbol symbol) = false := by
  obtain ⟨symbol, symbolMem, isPath⟩ := List.mem_filterMap.mp member
  obtain ⟨place, placeMem, rfl⟩ := List.mem_map.mp symbolMem
  cases isBox : place.symbol with
  | instanceSymbol symbol =>
      rw [isBox] at isPath
      simp only [DesignMember.blackBoxPath?] at isPath
      split at isPath
      · next matched =>
          refine ⟨place, List.mem_of_mem_filter placeMem, symbol, isBox,
            Option.some.inj isPath, ?_⟩
          simp only [Bool.and_eq_true, Bool.not_eq_true'] at matched
          simp [DesignMember.isEntered, matched.2]
      · cases isPath
  | _ =>
      rw [isBox] at isPath
      cases isPath

/-- What encloses a place directly is at a place itself. -/
theorem mem_places_of_enclosing {design : DesignTree} {enclosing outer : List DesignMember}
    {place : Place} {scope : DesignMember} (member : place ∈ design.places enclosing)
    (inside : place.enclosing = scope :: outer) :
    place.enclosing = enclosing ∨ ⟨outer, scope⟩ ∈ design.places enclosing := by
  induction design generalizing enclosing with
  | empty => cases member
  | member symbol members next membersIh nextIh =>
      rcases List.mem_cons.mp member with rfl | member
      · exact .inl rfl
      · rcases List.mem_append.mp member with within | after
        · rcases membersIh within with direct | deeper
          · obtain ⟨rfl, rfl⟩ := List.cons.inj (inside.symm.trans direct)
            exact .inr List.mem_cons_self
          · exact .inr (List.mem_cons_of_mem _ (List.mem_append_left _ deeper))
        · exact (nextIh after).imp_right fun found =>
            List.mem_cons_of_mem _ (List.mem_append_right _ found)

/-- A port of a black box is directly in a recorded one. -/
theorem recorded_of_bordersBox {blackBoxes : List String} {place : Place}
    {symbol : InstanceSymbol} {outer : List DesignMember} (member : place ∈ root.places [])
    (inside : place.enclosing = .instanceSymbol symbol :: outer)
    (borders : place.bordersBox blackBoxes = true) :
    symbol.hierarchicalPath ∈ (root.visited blackBoxes []).filterMap
      (DesignMember.blackBoxPath? blackBoxes) := by
  obtain ⟨box, scopes, same, instantiated, isBox, entered⟩ := Place.bordersBox_iff.mp borders
  obtain ⟨sameBox, rfl⟩ := List.cons.inj (inside.symm.trans same)
  obtain rfl := DesignMember.instanceSymbol.inj sameBox
  have atPlace : (⟨outer, .instanceSymbol symbol⟩ : Place) ∈ root.places [] :=
    (mem_places_of_enclosing member inside).resolve_left (by simp [inside])
  refine List.mem_filterMap.mpr ⟨.instanceSymbol symbol, List.mem_map.mpr ⟨_,
    List.mem_filter.mpr ⟨atPlace, Place.isVisited_iff.mpr entered⟩, rfl⟩, ?_⟩
  simp [DesignMember.blackBoxPath?, instantiated, isBox]

/-- The place that a collected node is of. -/
inductive MadeAt (blackBoxes : List String) (root : DesignTree) (node : NetlistNode) : Prop where
  | pathless (none : node.data.getHierarchicalPath = none)
  | port (place : Place) (member : place ∈ root.places []) (symbol : PortSymbol)
      (isPort : place.symbol = .port symbol) (inner : ValueSymbol)
      (named : symbol.internalSymbol = some inner) (names : node.Names .port inner)
      (reached : place.IsReached blackBoxes)
  | variable (place : Place) (member : place ∈ root.places []) (symbol : ValueSymbol)
      (isVariable : place.symbol = .variable symbol) (names : node.Names .variable symbol)
      (visited : place.isVisited blackBoxes = true)

theorem madeAt_of_collected (ran : runPhase1 context root {} = some collected)
    {node : NetlistNode} (member : node ∈ collected.builder.graph.nodes) :
    MadeAt context.options.blackBoxes root node := by
  obtain old | ⟨event, eventMem, isMade⟩ := (collects_runPhase1 ran).makes node member
  · cases old
  · cases event with
    | port symbol =>
        obtain ⟨inner, named, names⟩ := isMade
        obtain ⟨place, placeMem, isPort, reached⟩ :=
          (DesignTree.mem_events_port (List.forall_mem_nil _)).mp eventMem
        exact .port place placeMem symbol isPort inner named names reached
    | «variable» symbol =>
        obtain ⟨place, placeMem, isVariable, visited⟩ :=
          DesignTree.exists_place_of_variable (List.forall_mem_nil _) eventMem
        exact .variable place placeMem symbol isVariable isMade visited
    | connect connection => exact .pathless isMade
    | recordCuts connections => exact isMade.elim
    | addBlackBoxPath path => exact isMade.elim
    | defer block => exact isMade.elim

variable {node : NetlistNode} {place : Place} {value : ValueSymbol}

/-- A recorded box that contains or borders on a node encloses the place of its path. -/
theorem enclosing_of_recorded (nests : PathsNest root)
    (ran : runPhase1 context root {} = some collected) (placeMem : place ∈ root.places [])
    (isValue : place.symbol.value? = some value) {bbPath : String}
    (recorded : bbPath ∈ collected.builder.graph.blackBoxPaths)
    (covers : BoxContains node.data.kind value.hierarchicalPath.toList bbPath ∨
      BoxBorders node.data.kind value.hierarchicalPath.toList bbPath) :
    ∃ symbol : InstanceSymbol, symbol.hierarchicalPath = bbPath ∧
      .instanceSymbol symbol ∈ place.enclosing ∧
      DesignMember.isEntered context.options.blackBoxes (.instanceSymbol symbol) = false := by
  rw [blackBoxPaths_runPhase1 ran] at recorded
  obtain ⟨other, otherMem, symbol, isBox, rfl, shut⟩ := exists_box_of_mem recorded
  refine ⟨symbol, rfl, nests.nested place placeMem value isValue other otherMem symbol isBox ?_,
    shut⟩
  rcases covers with (same | ⟨remainder, below, _⟩) | ⟨_, remainder, below, _⟩
  · exact .inl same
  · exact .inr ⟨remainder, below⟩
  · exact .inr ⟨remainder, below⟩

/-- A node of a visited place is outside. -/
theorem outside_of_visited (nests : PathsNest root)
    (ran : runPhase1 context root {} = some collected) (placeMem : place ∈ root.places [])
    (isValue : place.symbol.value? = some value)
    (path : node.data.getHierarchicalPath = some value.hierarchicalPath)
    (visited : place.isVisited context.options.blackBoxes = true) :
    ¬ collected.builder.graph.Contained node ∧ ¬ collected.builder.graph.OnBoundary node := by
  have impossible : ∀ bbPath ∈ collected.builder.graph.blackBoxPaths,
      ¬ (BoxContains node.data.kind value.hierarchicalPath.toList bbPath ∨
        BoxBorders node.data.kind value.hierarchicalPath.toList bbPath) := by
    intro bbPath recorded covers
    obtain ⟨symbol, _, inside, shut⟩ :=
      enclosing_of_recorded nests ran placeMem isValue recorded covers
    rw [Place.isVisited_iff.mp visited _ inside] at shut
    cases shut
  constructor
  · rintro ⟨own, isOwn, bbPath, recorded, contains⟩
    obtain rfl := Option.some.inj (path.symm.trans isOwn)
    exact impossible bbPath recorded (.inl contains)
  · rintro ⟨own, isOwn, bbPath, recorded, borders⟩
    obtain rfl := Option.some.inj (path.symm.trans isOwn)
    exact impossible bbPath recorded (.inr borders)

/-- A port node of a black box is on its boundary and in no other box. -/
theorem boundary_of_bordersBox (nests : PathsNest root)
    (ran : runPhase1 context root {} = some collected) (placeMem : place ∈ root.places [])
    {port : PortSymbol} (isPort : place.symbol = .port port)
    (named : port.internalSymbol = some value) (names : node.Names .port value)
    (borders : place.bordersBox context.options.blackBoxes = true) :
    ¬ collected.builder.graph.Contained node ∧ collected.builder.graph.OnBoundary node := by
  obtain ⟨kind, path⟩ := names
  have isValue : place.symbol.value? = some value := by
    rw [isPort]
    exact named
  obtain ⟨box, outer, inside, _, _, entered⟩ := Place.bordersBox_iff.mp borders
  obtain ⟨name, below, direct⟩ :=
    nests.direct place placeMem port value isPort named box outer inside
  constructor
  · rintro ⟨own, isOwn, bbPath, recorded, contains⟩
    obtain rfl := Option.some.inj (path.symm.trans isOwn)
    obtain ⟨symbol, rfl, scopeMem, shut⟩ :=
      enclosing_of_recorded nests ran placeMem isValue recorded (.inl contains)
    rw [inside] at scopeMem
    rcases List.mem_cons.mp scopeMem with same | further
    · obtain rfl := DesignMember.instanceSymbol.inj same
      exact not_borders_of_contains contains ⟨kind, name, below, direct⟩
    · rw [entered _ further] at shut
      cases shut
  · refine ⟨_, path, box.hierarchicalPath, ?_, kind, name, below, direct⟩
    rw [blackBoxPaths_runPhase1 ran]
    exact recorded_of_bordersBox placeMem inside borders

end Coverage

/-- The node is of a port directly in an instance that is black-boxed. -/
def BoxPort (blackBoxes : List String) (root : DesignTree) (node : NetlistNode) : Prop :=
  ∃ place ∈ root.places [], place.bordersBox blackBoxes = true ∧
    ∃ port inner, place.symbol = .port port ∧ port.internalSymbol = some inner ∧
      node.Names .port inner

/--
In a design whose paths nest, the verdict on a node that phase 1 has collected is
never that it is inside of a black box, and it is on a boundary exactly when it is
a node of a port directly in an instance that has been black-boxed.
-/
theorem coverage_collected {context : CollectContext} {root : DesignTree} {collected : CollectState}
    (nests : PathsNest root) (ran : runPhase1 context root {} = some collected)
    {node : NetlistNode} (member : node ∈ collected.builder.graph.nodes) :
    collected.builder.graph.getBlackBoxCoverage node ≠ .contained ∧
      (collected.builder.graph.getBlackBoxCoverage node = .boundary ↔
        BoxPort context.options.blackBoxes root node) := by
  have verdict := collected.builder.graph.getBlackBoxCoverage_cases node
  have bordering : BoxPort context.options.blackBoxes root node →
      ¬ collected.builder.graph.Contained node ∧ collected.builder.graph.OnBoundary node := by
    rintro ⟨place, placeMem, borders, port, inner, isPort, named, names⟩
    exact boundary_of_bordersBox nests ran placeMem isPort named names borders
  have placed : (¬ collected.builder.graph.Contained node ∧
      ¬ collected.builder.graph.OnBoundary node) ∨
        BoxPort context.options.blackBoxes root node := by
    cases madeAt_of_collected ran member with
    | pathless none => exact .inl (by simp [NetlistGraph.Contained, NetlistGraph.OnBoundary, none])
    | port place placeMem port isPort inner named names reached =>
        rcases reached with visited | borders
        · exact .inl (outside_of_visited nests ran placeMem (by rw [isPort]; exact named) names.2
            visited)
        · exact .inr ⟨place, placeMem, borders, port, inner, isPort, named, names⟩
    | «variable» place placeMem symbol isVariable names visited =>
        exact .inl (outside_of_visited nests ran placeMem (by rw [isVariable]; rfl) names.2 visited)
  grind

theorem AtOrBelow.isPrefix {symbol : InstanceSymbol} {path : String}
    (below : AtOrBelow symbol path) :
    symbol.hierarchicalPath.toList.isPrefixOf path.toList = true := by
  rcases below with same | ⟨remainder, below⟩
  · rw [same]
    simp
  · exact below.passes.1

theorem boxedDesign_values {place : Place} (member : place ∈ boxedDesign.places [])
    {value : ValueSymbol} (isValue : place.symbol.value? = some value) :
    (value.hierarchicalPath = "top.u.d" ∧
        place.enclosing = [.instanceSymbol boxInstance, .instanceSymbol topInstance]) ∨
      (value.hierarchicalPath = "top.v.q" ∧
        place.enclosing = [.instanceSymbol registerInstance, .instanceSymbol topInstance]) := by
  simp only [boxedDesign, DesignTree.places, List.cons_append, List.nil_append, List.append_nil,
    List.mem_cons, List.not_mem_nil, or_false] at member
  rcases member with rfl | rfl | rfl | rfl | rfl | rfl | rfl | rfl | rfl | rfl | rfl <;>
    cases isValue
  · exact .inl ⟨rfl, rfl⟩
  · exact .inr ⟨rfl, rfl⟩

theorem boxedDesign_instances {place : Place} (member : place ∈ boxedDesign.places [])
    {symbol : InstanceSymbol} (isInstance : place.symbol = .instanceSymbol symbol) :
    symbol = topInstance ∨ symbol = boxInstance ∨ symbol = registerInstance := by
  simp only [boxedDesign, DesignTree.places, List.cons_append, List.nil_append, List.append_nil,
    List.mem_cons, List.not_mem_nil, or_false] at member
  rcases member with rfl | rfl | rfl | rfl | rfl | rfl | rfl | rfl | rfl | rfl | rfl <;>
    cases isInstance
  · exact .inl rfl
  · exact .inr (.inl rfl)
  · exact .inr (.inr rfl)

theorem boxedDesign_nests : PathsNest boxedDesign where
  nested place placeMem value isValue other otherMem symbol isInstance below := by
    have isPrefix := below.isPrefix
    rcases boxedDesign_values placeMem isValue with ⟨path, inside⟩ | ⟨path, inside⟩ <;>
      rw [path] at isPrefix <;> rw [inside] <;>
      rcases boxedDesign_instances otherMem isInstance with rfl | rfl | rfl <;>
      first | exact absurd isPrefix (by decide) | simp
  direct place placeMem port inner isPort named symbol outer inside := by
    have isValue : place.symbol.value? = some inner := by
      rw [isPort]
      exact named
    rcases boxedDesign_values placeMem isValue with ⟨path, own⟩ | ⟨path, own⟩
    · obtain ⟨same, _⟩ := List.cons.inj (inside.symm.trans own)
      obtain rfl := DesignMember.instanceSymbol.inj same
      exact ⟨['d'], by rw [path]; unfold Below; decide, by decide⟩
    · obtain ⟨same, _⟩ := List.cons.inj (inside.symm.trans own)
      obtain rfl := DesignMember.instanceSymbol.inj same
      exact ⟨['q'], by rw [path]; unfold Below; decide, by decide⟩

theorem coverage_collected_boxed : ∃ collected,
    runPhase1 boxedContext boxedDesign {} = some collected ∧
      (collected.builder.graph.nodes.map fun node => (node.data.getHierarchicalPath,
        collected.builder.graph.getBlackBoxCoverage node)) =
        [(some "top.u.d", .boundary), (some "top.v.q", .outside)] ∧
      ∀ node ∈ collected.builder.graph.nodes,
        collected.builder.graph.getBlackBoxCoverage node ≠ .contained ∧
          (collected.builder.graph.getBlackBoxCoverage node = .boundary ↔
            BoxPort ["ra*"] boxedDesign node) := by
  have verdicts : (runPhase1 boxedContext boxedDesign {}).map (fun collected =>
      collected.builder.graph.nodes.map fun node => (node.data.getHierarchicalPath,
        collected.builder.graph.getBlackBoxCoverage node)) =
      some [(some "top.u.d", .boundary), (some "top.v.q", .outside)] := by decide +kernel
  obtain ⟨collected, ran, same⟩ := Option.map_eq_some_iff.mp verdicts
  exact ⟨collected, ran, same, fun node member =>
    coverage_collected boxedDesign_nests ran member⟩

/--
The port nodes that phase 1 makes are those of the ports in reach, which are in a
visited instance or directly in a black box, and each driven bit of such a port has one.
-/
theorem portNodes_collected {context : CollectContext} {root : DesignTree}
    {collected : CollectState} (ran : runPhase1 context root {} = some collected) :
    (∀ node ∈ collected.builder.graph.nodes, node.data.kind = .port →
      ∃ place ∈ root.places [], place.IsReached context.options.blackBoxes ∧
        ∃ port inner, place.symbol = .port port ∧ port.internalSymbol = some inner ∧
          node.Names .port inner) ∧
    ∀ place ∈ root.places [], place.IsReached context.options.blackBoxes →
      ∀ port inner, place.symbol = .port port → port.internalSymbol = some inner →
        ∀ driver ∈ context.getDrivers inner, ∀ bit, driver.first ≤ bit ∧ bit ≤ driver.second →
          ∃ node ∈ collected.builder.graph.nodes, node.Names .port inner ∧ node.HasBit bit := by
  constructor
  · intro node member kind
    cases madeAt_of_collected ran member with
    | pathless none =>
        cases data : node.data <;> simp_all [NodeData.kind, NodeData.getHierarchicalPath]
    | port place placeMem port isPort inner named names reached =>
        exact ⟨place, placeMem, reached, port, inner, isPort, named, names⟩
    | «variable» place placeMem symbol isVariable names visited =>
        rw [names.1] at kind
        cases kind
  · intro place placeMem reached port inner isPort named
    have event := (@DesignTree.mem_events_port context.options.blackBoxes false [] root port
      (List.forall_mem_nil _)).mpr ⟨place, placeMem, isPort, reached⟩
    exact (collects_runPhase1 ran).covers port inner event named

theorem portNodes_collected_boxed : ∃ collected,
    runPhase1 boxedContext boxedDesign {} = some collected ∧
      ∃ node ∈ collected.builder.graph.nodes,
        node.data.getHierarchicalPath = some "top.u.d" ∧ node.HasBit 1 := by
  have isSome : (runPhase1 boxedContext boxedDesign {}).isSome = true := by decide +kernel
  obtain ⟨collected, ran⟩ := Option.isSome_iff_exists.mp isSome
  have place : ⟨[.instanceSymbol boxInstance, .instanceSymbol topInstance],
      .port (boxedPort 10 "top.u.d")⟩ ∈ boxedDesign.places [] := by
    simp [boxedDesign, DesignTree.places]
  obtain ⟨node, member, names, hasBit⟩ := (portNodes_collected ran).2 _ place
    (.inr (by decide +kernel)) _ _ rfl rfl _ List.mem_cons_self 1 (by decide)
  exact ⟨collected, ran, node, member, names.2, hasBit⟩

end SlangNetlist
