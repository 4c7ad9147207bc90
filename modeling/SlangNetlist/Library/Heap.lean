import Mathlib.Data.List.Basic

/-!
# Owning pointers

A pointer is the index of a cell.  Objects are made in new cells, read, written
and released.  An owner holds a list of pointers, some of them null.  What it does
with its own pointers leaves the objects of every other owner alone.
-/

namespace SlangNetlist.Library

/-- The cells of a memory.  A released cell stays empty. -/
structure Heap (T : Type) where
  cells : List (Option T) := []
  deriving DecidableEq, Repr

namespace Heap

variable {T : Type} {heap next : Heap T} {pointer other : Nat} {value old : T}
  {pointers replaced others copies : List (Option Nat)} {position : Nat}

/-- The object behind a pointer, unless it is released. -/
def read (heap : Heap T) (pointer : Nat) : Option T :=
  heap.cells[pointer]?.join

/-- Make an object in a new cell. -/
def make (heap : Heap T) (value : T) : Nat × Heap T :=
  (heap.cells.length, { cells := heap.cells ++ [some value] })

/-- Assign to the object behind a pointer. -/
def write (heap : Heap T) (pointer : Nat) (value : T) : Heap T :=
  { cells := heap.cells.set pointer (some value) }

/-- Delete the object behind a pointer. -/
def release (heap : Heap T) (pointer : Nat) : Heap T :=
  { cells := heap.cells.set pointer none }

theorem read_make_self : heap.read (heap.make value).1 = none := by
  simp [read, make]

theorem lt_of_read (found : heap.read pointer = some value) : pointer < heap.cells.length := by
  by_contra outside
  rw [read, List.getElem?_eq_none (Nat.le_of_not_lt outside)] at found
  cases found

theorem read_make : (heap.make value).2.read other =
    if other = (heap.make value).1 then some value else heap.read other := by
  simp only [read, make, List.getElem?_append]
  grind

theorem read_make_new : (heap.make value).2.read (heap.make value).1 = some value := by
  rw [read_make, if_pos rfl]

theorem read_write (live : heap.read pointer = some old) : (heap.write pointer value).read other =
    if other = pointer then some value else heap.read other := by
  have inside := lt_of_read live
  simp only [read, write, List.getElem?_set]
  grind

theorem read_release : (heap.release pointer).read other =
    if other = pointer then none else heap.read other := by
  simp only [read, release, List.getElem?_set]
  grind

/-! ## Lists of pointers -/

/-- The objects of an owner. -/
def readAll (heap : Heap T) (pointers : List (Option Nat)) : List (Option T) :=
  pointers.map (·.bind heap.read)

/-- Copy the object behind every pointer into a new cell; `none` is a dangling pointer. -/
def copyAll (heap : Heap T) : List (Option Nat) → Option (Heap T × List (Option Nat))
  | [] => some (heap, [])
  | none :: rest => do
      let (heap, copies) ← heap.copyAll rest
      some (heap, none :: copies)
  | some pointer :: rest => do
      let value ← heap.read pointer
      let (copy, heap) := heap.make value
      let (heap, copies) ← heap.copyAll rest
      some (heap, some copy :: copies)

/-- Delete the objects of an owner. -/
def releaseAll (heap : Heap T) : List (Option Nat) → Heap T
  | [] => heap
  | none :: rest => heap.releaseAll rest
  | some pointer :: rest => (heap.release pointer).releaseAll rest

/-- The pointers of an owner lead to objects, each to one of its own. -/
structure Owns (heap : Heap T) (pointers : List (Option Nat)) : Prop where
  live : ∀ {pointer}, some pointer ∈ pointers → ∃ value, heap.read pointer = some value
  once : ∀ {position place pointer : Nat}, pointers[position]? = some (some pointer) →
    pointers[place]? = some (some pointer) → position = place

/-- What an owner may do: its pointers stay or lead to new cells, and the objects of others
stay as they are. -/
structure Replaces (heap next : Heap T) (pointers replaced : List (Option Nat)) : Prop where
  owns : next.Owns replaced
  own : ∀ {pointer}, some pointer ∈ replaced → some pointer ∈ pointers ∨ heap.read pointer = none
  frame : ∀ {pointer value}, heap.read pointer = some value → some pointer ∉ pointers →
    next.read pointer = some value

/-! ## The operations of an owner -/

theorem Owns.nil : heap.Owns [] where
  live member := absurd member List.not_mem_nil
  once found := by cases found

/-- A new cell belongs to no owner. -/
theorem Owns.make_not_mem (owns : heap.Owns pointers) :
    some (heap.make value).1 ∉ pointers := by
  intro member
  obtain ⟨_, found⟩ := owns.live member
  rw [read_make_self] at found
  cases found

theorem read_make_of_read (found : heap.read pointer = some old) :
    (heap.make value).2.read pointer = some old := by
  rw [read_make, if_neg, found]
  intro same
  rw [same, read_make_self] at found
  cases found

/-- An owner gets a new object. -/
theorem Owns.withNew (owns : heap.Owns pointers) (value : T)
    (members : ∀ {pointer}, some pointer ∈ replaced →
      some pointer ∈ pointers ∨ pointer = (heap.make value).1)
    (once : ∀ {position place pointer : Nat}, replaced[position]? = some (some pointer) →
      replaced[place]? = some (some pointer) → position = place) :
    heap.Replaces (heap.make value).2 pointers replaced where
  owns := {
    live := fun member => by
      rcases members member with kept | rfl
      · obtain ⟨stored, found⟩ := owns.live kept
        exact ⟨stored, read_make_of_read found⟩
      · exact ⟨value, read_make_new⟩
    once := once }
  own member := by
    rcases members member with kept | rfl
    · exact Or.inl kept
    · exact Or.inr read_make_self
  frame found _ := read_make_of_read found

/-- An owner appends a new object. -/
theorem Owns.push (owns : heap.Owns pointers) (value : T) :
    heap.Replaces (heap.make value).2 pointers (pointers ++ [some (heap.make value).1]) := by
  refine owns.withNew value (fun member => ?_) fun {position place pointer} found again => ?_
  · rcases List.mem_append.mp member with kept | new
    · exact Or.inl kept
    · exact Or.inr (Option.some.inj (List.mem_singleton.mp new))
  · have fresh := @Owns.make_not_mem T heap value pointers owns
    have kept := @owns.once position place pointer
    have first := @List.mem_of_getElem? _ pointers position (some pointer)
    have second := @List.mem_of_getElem? _ pointers place (some pointer)
    simp only [List.getElem?_append] at found again
    grind

/-- An owner puts a new object at a position. -/
theorem Owns.fill (owns : heap.Owns pointers) (position : Nat) (value : T) :
    heap.Replaces (heap.make value).2 pointers
      (pointers.set position (some (heap.make value).1)) := by
  refine owns.withNew value (fun member => ?_) fun {place another pointer} found again => ?_
  · rcases List.mem_or_eq_of_mem_set member with kept | new
    · exact Or.inl kept
    · exact Or.inr (Option.some.inj new)
  · have fresh := @Owns.make_not_mem T heap value pointers owns
    have kept := @owns.once place another pointer
    have first := @List.mem_of_getElem? _ pointers place (some pointer)
    have second := @List.mem_of_getElem? _ pointers another (some pointer)
    simp only [List.getElem?_set] at found again
    grind

/-- An owner deletes one of its objects. -/
theorem Owns.drop (owns : heap.Owns pointers) (held : pointers[position]? = some (some pointer)) :
    heap.Replaces (heap.release pointer) pointers (pointers.set position none) where
  owns := {
    live := fun {other} member => by
      obtain ⟨place, found⟩ := List.mem_iff_getElem?.mp member
      rw [List.getElem?_set] at found
      split at found
      · split at found <;> cases found
      · next apart =>
          obtain ⟨stored, live⟩ := owns.live (List.mem_of_getElem? found)
          refine ⟨stored, ?_⟩
          rw [read_release, if_neg, live]
          rintro rfl
          exact apart (owns.once held found)
    once := fun {place another other} found again => by
      have kept := @owns.once place another other
      simp only [List.getElem?_set] at found again
      grind }
  own member := by
    rcases List.mem_or_eq_of_mem_set member with kept | new
    · exact Or.inl kept
    · cases new
  frame {other value} found outside := by
    rw [read_release, if_neg, found]
    rintro rfl
    exact outside (List.mem_of_getElem? held)

/-- An owner assigns to one of its objects. -/
theorem Owns.assign (owns : heap.Owns pointers) (member : some pointer ∈ pointers) (value : T) :
    heap.Replaces (heap.write pointer value) pointers pointers := by
  obtain ⟨_, live⟩ := owns.live member
  refine ⟨⟨fun {other} kept => ?_, owns.once⟩, Or.inl, fun {other stored} found outside => ?_⟩
  · obtain ⟨stored, found⟩ := owns.live kept
    rw [read_write live]
    split
    · exact ⟨value, rfl⟩
    · exact ⟨stored, found⟩
  · rw [read_write live, if_neg, found]
    rintro rfl
    exact outside member

/-! ## The objects after an operation -/

theorem getElem?_readAll :
    (heap.readAll pointers)[position]? = pointers[position]?.map (·.bind heap.read) :=
  List.getElem?_map

/-- The objects of an owner are the same in two memories that agree on its pointers. -/
theorem readAll_congr (same : ∀ {pointer}, some pointer ∈ pointers →
    next.read pointer = heap.read pointer) : next.readAll pointers = heap.readAll pointers := by
  refine List.map_congr_left fun pointer member => ?_
  cases pointer with
  | none => rfl
  | some pointer => exact same member

theorem readAll_make (live : ∀ {pointer}, some pointer ∈ pointers →
    ∃ value, heap.read pointer = some value) :
    (heap.make value).2.readAll pointers = heap.readAll pointers := by
  refine readAll_congr fun member => ?_
  obtain ⟨_, found⟩ := live member
  rw [read_make_of_read found, found]

theorem Owns.readAll_push (owns : heap.Owns pointers) (value : T) :
    (heap.make value).2.readAll (pointers ++ [some (heap.make value).1]) =
      heap.readAll pointers ++ [some value] := by
  rw [readAll, List.map_append, ← readAll, readAll_make owns.live, List.map_singleton,
    Option.bind_some, read_make_new]

theorem Owns.readAll_fill (owns : heap.Owns pointers) (value : T) (position : Nat) :
    (heap.make value).2.readAll (pointers.set position (some (heap.make value).1)) =
      (heap.readAll pointers).set position (some value) := by
  rw [readAll, List.map_set, ← readAll, readAll_make owns.live, Option.bind_some,
    read_make_new]

theorem Owns.readAll_drop (owns : heap.Owns pointers)
    (held : pointers[position]? = some (some pointer)) :
    (heap.release pointer).readAll (pointers.set position none) =
      (heap.readAll pointers).set position none := by
  apply List.ext_getElem?
  intro place
  rw [getElem?_readAll, List.getElem?_set, List.getElem?_set, getElem?_readAll, readAll,
    List.length_map]
  split
  · split <;> rfl
  · next apart =>
      refine Option.map_congr fun other member => ?_
      cases other with
      | none => rfl
      | some other =>
          refine read_release.trans (if_neg ?_)
          rintro rfl
          exact apart (owns.once held member)

theorem Owns.readAll_assign (owns : heap.Owns pointers)
    (held : pointers[position]? = some (some pointer)) (value : T) :
    (heap.write pointer value).readAll pointers =
      (heap.readAll pointers).set position (some value) := by
  obtain ⟨_, live⟩ := owns.live (List.mem_of_getElem? held)
  apply List.ext_getElem?
  intro place
  rw [getElem?_readAll, List.getElem?_set, getElem?_readAll, readAll, List.length_map]
  split
  · next here =>
      have inside := (List.getElem?_eq_some_iff.mp held).1
      rw [← here, held, if_pos inside, Option.map_some, Option.bind_some, read_write live,
        if_pos rfl]
  · next apart =>
      refine Option.map_congr fun other member => ?_
      cases other with
      | none => rfl
      | some other =>
          refine (read_write live).trans (if_neg ?_)
          rintro rfl
          exact apart (owns.once held member)

/-! ## Copies -/

theorem Replaces.consNull (replaces : heap.Replaces next [] copies) :
    heap.Replaces next [] (none :: copies) where
  owns := {
    live := fun member => by
      rcases List.mem_cons.mp member with null | member
      · cases null
      · exact replaces.owns.live member
    once := fun {position place pointer} found again => by
      have once := @replaces.owns.once (position - 1) (place - 1) pointer
      cases position <;> cases place <;> grind }
  own member := by
    rcases List.mem_cons.mp member with null | member
    · cases null
    · exact replaces.own member
  frame := replaces.frame

/-- A copy made before the copies of the rest. -/
theorem Replaces.consNew (replaces : (heap.make value).2.Replaces next [] copies) :
    next.read (heap.make value).1 = some value ∧
      heap.Replaces next [] (some (heap.make value).1 :: copies) := by
  have made : next.read (heap.make value).1 = some value :=
    replaces.frame read_make_new List.not_mem_nil
  -- the copies of the rest are in later cells
  have later : ∀ other, some other ∈ copies →
      other ≠ (heap.make value).1 ∧ heap.read other = none := by
    intro other member
    have new := (replaces.own member).resolve_left List.not_mem_nil
    rw [read_make] at new
    split at new
    · cases new
    · next apart => exact ⟨apart, new⟩
  refine ⟨made, ⟨fun member => ?_, fun {position place other} taken again => ?_⟩,
    fun member => ?_, fun kept _ => replaces.frame (read_make_of_read kept) List.not_mem_nil⟩
  · rcases List.mem_cons.mp member with new | member
    · cases new
      exact ⟨value, made⟩
    · exact replaces.owns.live member
  · have once := @replaces.owns.once (position - 1) (place - 1) other
    have apart := later other
    have first := @List.mem_of_getElem? _ copies (position - 1) (some other)
    have second := @List.mem_of_getElem? _ copies (place - 1) (some other)
    cases position <;> cases place <;> grind
  · rcases List.mem_cons.mp member with new | member
    · cases new
      exact Or.inr read_make_self
    · exact Or.inr (later _ member).2

/-- A copy has the objects of the original in new cells, and leaves all old cells alone. -/
theorem exists_copyAll (live : ∀ {pointer}, some pointer ∈ pointers →
    ∃ value, heap.read pointer = some value) :
    ∃ next copies, heap.copyAll pointers = some (next, copies) ∧
      heap.Replaces next [] copies ∧ next.readAll copies = heap.readAll pointers := by
  induction pointers generalizing heap with
  | nil => exact ⟨heap, [], rfl, ⟨Owns.nil, Or.inl, fun found _ => found⟩, rfl⟩
  | cons pointer rest ih =>
      cases pointer with
      | none =>
          obtain ⟨next, copies, copied, replaces, same⟩ :=
            @ih heap fun member => live (List.mem_cons_of_mem _ member)
          refine ⟨next, none :: copies, ?_, replaces.consNull, congrArg _ same⟩
          rw [copyAll, copied]
          rfl
      | some pointer =>
          obtain ⟨value, found⟩ := live List.mem_cons_self
          obtain ⟨next, copies, copied, replaces, same⟩ := @ih (heap.make value).2 fun member => by
            obtain ⟨stored, kept⟩ := live (List.mem_cons_of_mem _ member)
            exact ⟨stored, read_make_of_read kept⟩
          obtain ⟨made, extended⟩ := replaces.consNew
          refine ⟨next, some (heap.make value).1 :: copies, ?_, extended, ?_⟩
          · simp only [copyAll, found, Option.bind_eq_bind, Option.bind_some, copied]
          · have others := @readAll_make T heap value rest fun member =>
              live (List.mem_cons_of_mem _ member)
            change next.read _ :: next.readAll copies = heap.read pointer :: heap.readAll rest
            rw [made, found, same, others]

theorem read_releaseAll : (heap.releaseAll pointers).read other =
    if some other ∈ pointers then none else heap.read other := by
  induction pointers generalizing heap with
  | nil => simp [releaseAll]
  | cons pointer rest ih =>
      cases pointer with
      | none => simpa [releaseAll] using @ih heap
      | some pointer =>
          rw [releaseAll, ih, read_release]
          grind

/-- Copies replace the objects of an owner that are deleted after copying. -/
theorem Replaces.releaseAll (replaces : heap.Replaces next [] copies)
    (owns : heap.Owns pointers) :
    heap.Replaces (next.releaseAll pointers) pointers copies ∧
      (next.releaseAll pointers).readAll copies = next.readAll copies := by
  -- a deleted object is an old one
  have outside : ∀ pointer, some pointer ∈ copies → some pointer ∉ pointers := by
    intro pointer member old
    obtain ⟨_, found⟩ := owns.live old
    rw [(replaces.own member).resolve_left List.not_mem_nil] at found
    cases found
  refine ⟨⟨⟨fun member => ?_, replaces.owns.once⟩, fun member => ?_, fun found apart => ?_⟩, ?_⟩
  · obtain ⟨value, found⟩ := replaces.owns.live member
    exact ⟨value, by rw [read_releaseAll, if_neg (outside _ member), found]⟩
  · exact Or.inr ((replaces.own member).resolve_left List.not_mem_nil)
  · rw [read_releaseAll, if_neg apart]
    exact replaces.frame found List.not_mem_nil
  · exact readAll_congr fun member => by rw [read_releaseAll, if_neg (outside _ member)]

/-! ## Other owners -/

section Others

variable (replaces : heap.Replaces next pointers replaced) (owns : heap.Owns others)
  (apart : ∀ {pointer}, some pointer ∈ others → some pointer ∉ pointers)

include replaces owns apart

theorem Replaces.owns_others : next.Owns others where
  live member := by
    obtain ⟨value, found⟩ := owns.live member
    exact ⟨value, replaces.frame found (apart member)⟩
  once := owns.once

/-- The objects of other owners stay. -/
theorem Replaces.readAll_others : next.readAll others = heap.readAll others := by
  refine readAll_congr fun member => ?_
  obtain ⟨value, found⟩ := owns.live member
  rw [replaces.frame found (apart member), found]

/-- The pointers of two owners stay apart. -/
theorem Replaces.disjoint {pointer : Nat} (member : some pointer ∈ replaced) :
    some pointer ∉ others := by
  intro shared
  rcases replaces.own member with old | new
  · exact apart shared old
  · obtain ⟨_, found⟩ := owns.live shared
    rw [new] at found
    cases found

end Others

end Heap

end SlangNetlist.Library
