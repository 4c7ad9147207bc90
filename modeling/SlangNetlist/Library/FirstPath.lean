import Mathlib.Data.List.Chain
import Mathlib.Data.List.Nodup
import Mathlib.Logic.Relation
import Mathlib.Tactic.Common

/-!
# First paths

A graph in which the successors of each node are listed in an order.  The first
path to a node goes, at each of its nodes, to the first successor from which
the end can be reached without the nodes already on the path; it is the first
one of the simple paths in the lexicographic order.  A depth-first search finds
the first path to every node that it visits.
-/

namespace SlangNetlist.Library

variable {Node : Type} (successors : Node → List Node)

/-- A walk leads from the start to the finish and comes to no node of the list. -/
def ReachesAvoiding (avoided : List Node) (start finish : Node) : Prop :=
  start ∉ avoided ∧
    Relation.ReflTransGen (fun node next => next ∈ successors node ∧ next ∉ avoided) start finish

/-- The first one of the simple paths from the start to the finish. -/
structure FirstPath (start finish : Node) (path : List Node) : Prop where
  head : path.head? = some start
  last : path.getLast? = some finish
  nodup : path.Nodup
  first : ∀ front node next back, path = front ++ node :: next :: back →
    ∃ before after, successors node = before ++ next :: after ∧
      ∀ earlier ∈ before, ¬ ReachesAvoiding successors (front ++ [node]) earlier finish

variable {successors} {start finish : Node} {path other : List Node}

theorem ReachesAvoiding.mono {avoided fewer : List Node}
    (reaches : ReachesAvoiding successors avoided start finish) (subset : fewer ⊆ avoided) :
    ReachesAvoiding successors fewer start finish :=
  ⟨fun member => reaches.1 (subset member), reaches.2.lift id
    fun _ _ step => ⟨step.1, fun member => step.2 (subset member)⟩⟩

/-- A chain leads from its first to its last node. -/
theorem reaches_of_isChain {avoided rest : List Node}
    (chain : (start :: rest).IsChain fun node next => next ∈ successors node)
    (last : (start :: rest).getLast? = some finish) (apart : (start :: rest).Disjoint avoided) :
    ReachesAvoiding successors avoided start finish := by
  refine ⟨apart List.mem_cons_self, ?_⟩
  induction rest generalizing start with
  | nil =>
      cases last
      exact Relation.ReflTransGen.refl
  | cons next rest ih =>
      obtain ⟨step, later⟩ := List.isChain_cons_cons.mp chain
      rw [List.getLast?_cons_cons] at last
      have restApart : (next :: rest).Disjoint avoided :=
        fun _ member => apart (List.mem_cons_of_mem _ member)
      exact Relation.ReflTransGen.head ⟨step, restApart List.mem_cons_self⟩
        (ih later last restApart)

namespace FirstPath

/-- A path of a single node. -/
theorem singleton (successors : Node → List Node) (start : Node) :
    FirstPath successors start start [start] where
  head := rfl
  last := rfl
  nodup := by simp
  first := by
    intro front node next back split
    cases front with
    | nil => cases split
    | cons head front =>
        have empty := (List.cons.inj split).2
        simp at empty

theorem isChain (first : FirstPath successors start finish path) :
    path.IsChain fun node next => next ∈ successors node := by
  refine List.isChain_iff_forall_rel_of_append_cons_cons.mpr fun _ _ _ _ split => ?_
  obtain ⟨before, after, listed, _⟩ := first.first _ _ _ _ split
  simp [listed]

/-- The rest of the path avoids what is before it. -/
theorem reaches (first : FirstPath successors start finish path) {front back : List Node}
    {node next : Node} (split : path = front ++ node :: next :: back) :
    ReachesAvoiding successors (front ++ [node]) next finish := by
  have regrouped : path = (front ++ [node]) ++ next :: back := by simp [split]
  have chain := first.isChain
  have nodup := first.nodup
  have last := first.last
  rw [regrouped] at chain nodup last
  refine reaches_of_isChain chain.right_of_append ?_ ?_
  · rwa [List.getLast?_append_cons] at last
  · exact fun _ inBack inFront => List.disjoint_of_nodup_append nodup inFront inBack

/-- A first path does not turn before another one does. -/
theorem turn_eq (first : FirstPath successors start finish path)
    (second : FirstPath successors start finish other) {front back rest : List Node}
    {node next turned : Node} (split : path = front ++ node :: next :: back)
    (otherSplit : other = front ++ node :: turned :: rest) : next = turned := by
  obtain ⟨before, after, listed, avoids⟩ := first.first _ _ _ _ split
  obtain ⟨otherBefore, otherAfter, otherListed, otherAvoids⟩ := second.first _ _ _ _ otherSplit
  rw [listed] at otherListed
  rcases List.append_eq_append_iff.mp otherListed with ⟨middle, same, tail⟩ | ⟨middle, same, tail⟩
  · cases middle with
    | nil => exact (List.cons.inj tail).1
    | cons head middle =>
        obtain ⟨rfl, _⟩ := List.cons.inj tail
        exact absurd (first.reaches split) (otherAvoids next (by simp [same]))
  · cases middle with
    | nil => exact (List.cons.inj tail).1.symm
    | cons head middle =>
        obtain ⟨rfl, _⟩ := List.cons.inj tail
        exact absurd (second.reaches otherSplit) (avoids turned (by simp [same]))

/-- No first path ends where another one goes on. -/
theorem not_finish (first : FirstPath successors start finish path) {front back : List Node}
    {node next : Node} (split : path = front ++ node :: next :: back) : node ≠ finish := by
  rintro rfl
  have last := first.last
  have nodup := first.nodup
  rw [split] at nodup last
  rw [List.getLast?_append_cons, List.getLast?_cons_cons] at last
  exact (List.nodup_cons.mp nodup.of_append_right).1 (List.mem_of_getLast? last)

/-- Two first paths with a common front are the same. -/
theorem eq_of_front (first : FirstPath successors start finish path)
    (second : FirstPath successors start finish other) {front back rest : List Node}
    {node : Node} (split : path = front ++ node :: back)
    (otherSplit : other = front ++ node :: rest) : back = rest := by
  induction back generalizing front node rest with
  | nil =>
      have ends : node = finish := by simpa [split] using first.last
      cases rest with
      | nil => rfl
      | cons turned rest => exact absurd ends (second.not_finish otherSplit)
  | cons next back ih =>
      cases rest with
      | nil =>
          have ends : node = finish := by simpa [otherSplit] using second.last
          exact absurd ends (first.not_finish split)
      | cons turned rest =>
          obtain rfl := first.turn_eq second split otherSplit
          have split : path = (front ++ [node]) ++ next :: back := by simp [split]
          have otherSplit : other = (front ++ [node]) ++ next :: rest := by simp [otherSplit]
          rw [ih split otherSplit]

theorem unique (first : FirstPath successors start finish path)
    (second : FirstPath successors start finish other) : path = other := by
  obtain ⟨back, rfl⟩ := List.head?_eq_some_iff.mp first.head
  obtain ⟨rest, rfl⟩ := List.head?_eq_some_iff.mp second.head
  rw [first.eq_of_front second (List.nil_append _).symm (List.nil_append _).symm]

end FirstPath

/--
The nodes listed before the one that the path goes to next lead, without the
path up to there, to visited nodes only.  The last node of the path comes first.
-/
def Settled (successors : Node → List Node) (visited : List Node) : List Node → Prop
  | upper :: node :: below =>
      (∃ before after, successors node = before ++ upper :: after ∧
        ∀ earlier ∈ before, ∀ reached,
          ReachesAvoiding successors (node :: below) earlier reached → reached ∈ visited) ∧
      Settled successors visited (node :: below)
  | _ => True

namespace Settled

variable {visited more path : List Node}

theorem mono (settled : Settled successors visited path) (grows : visited ⊆ more) :
    Settled successors more path := by
  induction path using Settled.induct with
  | case1 upper node below ih =>
      obtain ⟨⟨before, after, listed, earlier⟩, rest⟩ := settled
      exact ⟨⟨before, after, listed, fun next member reached reaches =>
        grows (earlier next member reached reaches)⟩, ih rest⟩
  | case2 path short =>
      unfold Settled
      split
      · next upper node below => exact absurd rfl (short upper node below)
      · trivial

/-- The rest of a path is settled when the path is. -/
theorem of_append {above below : List Node} (settled : Settled successors visited (above ++ below)) :
    Settled successors visited below := by
  induction above with
  | nil => exact settled
  | cons upper above ih =>
      refine ih ?_
      cases rest : above ++ below with
      | nil => trivial
      | cons node lower =>
          rw [List.cons_append, rest] at settled
          exact settled.2

/-- A path to a node that is not visited yet is the first one. -/
theorem firstPath {last : Node} {below : List Node}
    (settled : Settled successors visited (last :: below)) (fresh : last ∉ visited)
    (nodup : (last :: below).Nodup) (bottom : (last :: below).getLast? = some start) :
    FirstPath successors start last (last :: below).reverse where
  head := by rw [List.head?_reverse, bottom]
  last := by rw [List.getLast?_reverse]; rfl
  nodup := List.nodup_reverse.mpr nodup
  first := by
    intro front node next back split
    have turned : last :: below = (back.reverse) ++ next :: node :: front.reverse := by
      rw [← List.reverse_reverse (last :: below), split]
      simp
    rw [turned] at settled
    obtain ⟨⟨before, after, listed, earlier⟩, _⟩ := settled.of_append
    refine ⟨before, after, listed, fun other member reaches => fresh ?_⟩
    refine earlier other member last (reaches.mono fun avoided within => ?_)
    simpa [or_comm] using within

end Settled

end SlangNetlist.Library
