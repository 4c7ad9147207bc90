import Mathlib.Data.List.Nodup
import Mathlib.Data.List.Pairwise
import SlangNetlist.Build.CanonicalBodyResolver

/-!
# Paired bodies

A redirected body is paired with the canonical body that slang gives it, and below
two paired bodies the instances at the same positions are paired.  Under slang's
instance caching every body has at most one partner, and a partner has none.
-/

namespace SlangNetlist

open Library

/-- Two values or two instance bodies at the same position of two scopes. -/
inductive PairedMember where
  | values (symbol canonical : Nat)
  | bodies (body canonical : InstanceBody)

namespace PairedMember

def swap : PairedMember → PairedMember
  | .values symbol canonical => .values canonical symbol
  | .bodies body canonical => .bodies canonical body

/-- The place of the paired body. -/
def place? (enclosing : List InstanceBody) : PairedMember → Option BodyPlace
  | .values _ _ => none
  | .bodies body _ => some ⟨body, enclosing⟩

/-- The paired value and the bodies around it. -/
def value? (enclosing : List InstanceBody) : PairedMember → Option (Nat × List InstanceBody)
  | .values symbol _ => some (symbol, enclosing)
  | .bodies _ _ => none

end PairedMember

namespace Scope

variable {scope other : Scope} {enclosing : List InstanceBody}

/-- The values and the instances at the same positions of two scopes. -/
def pairedMembers : Scope → Scope → List PairedMember
  | .member symbol members next, .member symbol' members' next' =>
      (match symbol, symbol' with
      | .valueSymbol value, .valueSymbol value' => [.values value value']
      | .instanceSymbol canonicalBody body, .instanceSymbol canonicalBody' body' =>
          [.bodies ⟨canonicalBody, body, members⟩ ⟨canonicalBody', body', members'⟩]
      | .scopeSymbol kind, .scopeSymbol kind' =>
          if kind = kind' ∧ kind.isPaired then members.pairedMembers members' else []
      | _, _ => []) ++ next.pairedMembers next'
  | _, _ => []

/-- The bodies inside a body are listed with the body. -/
theorem bodies_sublist {place : BodyPlace} (listed : place ∈ scope.bodies enclosing) :
    (place.body.members.bodies place.chain).Sublist (scope.bodies enclosing) := by
  induction scope generalizing enclosing with
  | empty => cases listed
  | member symbol members next ihMembers ihNext =>
      rcases List.mem_append.mp listed with head | tail
      · apply List.Sublist.trans _ (List.sublist_append_left _ _)
        cases symbol with
        | valueSymbol value => cases head
        | instanceSymbol canonicalBody id =>
            rcases List.mem_cons.mp head with rfl | inner
            · exact List.sublist_cons_self _ _
            · exact (ihMembers inner).trans (List.sublist_cons_self _ _)
        | scopeSymbol kind => exact ihMembers head
      · exact (ihNext tail).trans (List.sublist_append_right _ _)

/-- The values inside a body are listed with it. -/
theorem values_sublist {place : BodyPlace} (listed : place ∈ scope.bodies enclosing) :
    (place.body.members.values place.chain).Sublist (scope.values enclosing) := by
  induction scope generalizing enclosing with
  | empty => cases listed
  | member symbol members next ihMembers ihNext =>
      rcases List.mem_append.mp listed with head | tail
      · apply List.Sublist.trans _ (List.sublist_append_left _ _)
        cases symbol with
        | valueSymbol value => cases head
        | instanceSymbol canonicalBody id =>
            rcases List.mem_cons.mp head with rfl | inner
            · exact List.Sublist.refl _
            · exact ihMembers inner
        | scopeSymbol kind => exact ihMembers head
      · exact (ihNext tail).trans (List.sublist_append_right _ _)

/-- The body around a listed body is listed too. -/
theorem outer_mem {place outer : BodyPlace} (listed : place ∈ scope.bodies enclosing)
    (inside : place.enclosing = outer.chain) :
    outer.chain = enclosing ∨ outer ∈ scope.bodies enclosing := by
  induction scope generalizing enclosing with
  | empty => cases listed
  | member symbol members next ihMembers ihNext =>
      rcases List.mem_append.mp listed with head | tail
      · apply Or.imp id (List.mem_append_left _)
        cases symbol with
        | valueSymbol value => cases head
        | instanceSymbol canonicalBody id =>
            rcases List.mem_cons.mp head with rfl | inner
            · exact Or.inl inside.symm
            · right
              rcases ihMembers inner with here | deeper
              · obtain ⟨bodyEq, enclosingEq⟩ := List.cons.inj here
                cases outer
                cases bodyEq
                cases enclosingEq
                exact List.mem_cons_self
              · exact List.mem_cons_of_mem _ deeper
        | scopeSymbol kind => exact ihMembers head
      · exact (ihNext tail).imp id (List.mem_append_right _)

/-- The pairing does not prefer a side. -/
theorem pairedMembers_swap :
    scope.pairedMembers other = (other.pairedMembers scope).map PairedMember.swap := by
  induction scope generalizing other with
  | empty => cases other <;> rfl
  | member symbol members next ihMembers ihNext =>
      cases other with
      | empty => rfl
      | member symbol' members' next' =>
          change _ ++ next.pairedMembers next' = (_ ++ next'.pairedMembers next).map _
          rw [List.map_append, ← ihNext]
          congr 1
          cases symbol <;> cases symbol'
          case scopeSymbol.scopeSymbol kind kind' =>
            by_cases same : kind = kind'
            · subst same
              cases paired : kind.isPaired with
              | false => simp only [paired, Bool.false_eq_true, and_false, if_false, List.map_nil]
              | true => simp only [paired, and_self, if_true, ihMembers]
            · simp only [same, Ne.symm same, false_and, if_false, List.map_nil]
          all_goals rfl

/-- The instances that are paired are bodies of the scope, each one once. -/
theorem paired_bodies_sublist :
    ((scope.pairedMembers other).filterMap (PairedMember.place? enclosing)).Sublist
      (scope.bodies enclosing) := by
  induction scope generalizing other with
  | empty => exact List.nil_sublist _
  | member symbol members next ihMembers ihNext =>
      cases other with
      | empty => exact List.nil_sublist _
      | member symbol' members' next' =>
          change ((_ ++ next.pairedMembers next').filterMap _).Sublist (_ ++ next.bodies enclosing)
          rw [List.filterMap_append]
          apply List.Sublist.append _ ihNext
          cases symbol <;> cases symbol'
          case instanceSymbol.instanceSymbol =>
            exact List.Sublist.cons_cons _ (List.nil_sublist _)
          case scopeSymbol.scopeSymbol kind kind' =>
            dsimp only
            split
            · exact ihMembers
            · exact List.nil_sublist _
          all_goals exact List.nil_sublist _

/-- The values that are paired are values of the scope, each one once. -/
theorem paired_values_sublist :
    ((scope.pairedMembers other).filterMap (PairedMember.value? enclosing)).Sublist
      (scope.values enclosing) := by
  induction scope generalizing other with
  | empty => exact List.nil_sublist _
  | member symbol members next ihMembers ihNext =>
      cases other with
      | empty => exact List.nil_sublist _
      | member symbol' members' next' =>
          change ((_ ++ next.pairedMembers next').filterMap _).Sublist (_ ++ next.values enclosing)
          rw [List.filterMap_append]
          apply List.Sublist.append _ ihNext
          cases symbol <;> cases symbol'
          case valueSymbol.valueSymbol => exact List.Sublist.refl _
          case scopeSymbol.scopeSymbol kind kind' =>
            dsimp only
            split
            · exact ihMembers
            · exact List.nil_sublist _
          all_goals exact List.nil_sublist _

variable (enclosing) in
theorem mem_bodies_of_paired {body canonical : InstanceBody}
    (paired : .bodies body canonical ∈ scope.pairedMembers other) :
    ⟨body, enclosing⟩ ∈ scope.bodies enclosing ∧
      ⟨canonical, enclosing⟩ ∈ other.bodies enclosing := by
  constructor
  · exact paired_bodies_sublist.subset (List.mem_filterMap.mpr ⟨_, paired, rfl⟩)
  · rw [pairedMembers_swap] at paired
    obtain ⟨member, listed, swapped⟩ := List.mem_map.mp paired
    apply paired_bodies_sublist.subset (List.mem_filterMap.mpr ⟨member, listed, _⟩)
    cases member <;> cases swapped
    rfl

variable (enclosing) in
theorem mem_values_of_paired {symbol canonical : Nat}
    (paired : .values symbol canonical ∈ scope.pairedMembers other) :
    (symbol, enclosing) ∈ scope.values enclosing ∧
      (canonical, enclosing) ∈ other.values enclosing := by
  constructor
  · exact paired_values_sublist.subset (List.mem_filterMap.mpr ⟨_, paired, rfl⟩)
  · rw [pairedMembers_swap] at paired
    obtain ⟨member, listed, swapped⟩ := List.mem_map.mp paired
    apply paired_values_sublist.subset (List.mem_filterMap.mpr ⟨member, listed, _⟩)
    cases member <;> cases swapped
    rfl

end Scope

/-- In a list whose images are distinct, members with one image are equal. -/
private theorem eq_of_filterMap_nodup {Member Image : Type} {list : List Member}
    {image? : Member → Option Image} (distinct : (list.filterMap image?).Nodup)
    {first second : Member} {image : Image} (firstMem : first ∈ list) (secondMem : second ∈ list)
    (firstImage : image? first = some image) (secondImage : image? second = some image) :
    first = second := by
  by_contra different
  have apart := List.pairwise_filterMap.mp distinct
  have symmetric : Std.Symm fun first second : Member => ∀ image, image? first = some image →
      ∀ image', image? second = some image' → image ≠ image' :=
    ⟨fun _ _ apart _ found _ found' => Ne.symm (apart _ found' _ found)⟩
  exact apart.forall firstMem secondMem different _ firstImage _ secondImage rfl

namespace InstanceBody

variable {body : InstanceBody} {direct : Nat}

theorem ciBody_of_redirect (redirected : body.redirect = some direct) : body.ciBody = direct := by
  unfold ciBody
  rw [(Option.filter_eq_some_iff.mp redirected).1]
  rfl

theorem ciBody_of_canonical (canonical : body.redirect = none) : body.ciBody = body.id := by
  unfold ciBody
  cases pointer : body.canonicalBody with
  | none => rfl
  | some direct =>
      by_contra other
      have different : (direct != body.id) = true := bne_iff_ne.mpr other
      unfold redirect at canonical
      rw [pointer, Option.filter_some, if_pos different] at canonical
      cases canonical

end InstanceBody

namespace Design

variable {design : Design} {place other : BodyPlace}

/-- The address determines the body and its place. -/
theorem place_eq (listed : place ∈ design.places) (otherListed : other ∈ design.places)
    (same : place.body.id = other.body.id) : place = other :=
  List.inj_on_of_nodup_map design.bodies_nodup listed otherListed same

theorem place?_some {id : Nat} (found : design.place? id = some place) :
    place ∈ design.places ∧ place.body.id = id := by
  have same := List.find?_some found
  rw [beq_iff_eq] at same
  exact ⟨List.mem_of_find?_eq_some found, same⟩

theorem place?_eq (listed : place ∈ design.places) :
    design.place? place.body.id = some place := by
  cases found : design.place? place.body.id with
  | none =>
      have missing := List.find?_eq_none.mp found place listed
      exact absurd (beq_self_eq_true _) missing
  | some other =>
      obtain ⟨otherListed, same⟩ := place?_some found
      rw [place_eq otherListed listed same]

theorem membersOf_eq (listed : place ∈ design.places) :
    design.membersOf place.body.id = place.body.members := by
  unfold membersOf
  rw [place?_eq listed]
  rfl

theorem inner_mem (listed : place ∈ design.places) {body : InstanceBody}
    (inside : ⟨body, place.chain⟩ ∈ place.body.members.bodies place.chain) :
    ⟨body, place.chain⟩ ∈ design.places :=
  (Scope.bodies_sublist listed).subset inside

theorem outer_mem (listed : place ∈ design.places) (inside : place.enclosing = other.chain) :
    other ∈ design.places :=
  (Scope.outer_mem listed inside).resolve_left (List.cons_ne_nil _ _)

/-- An instance of a listed body is paired with one instance. -/
theorem paired_body_unique (listed : place ∈ design.places) {scope : Scope}
    {body first second : InstanceBody}
    (firstPaired : .bodies body first ∈ place.body.members.pairedMembers scope)
    (secondPaired : .bodies body second ∈ place.body.members.pairedMembers scope) :
    first = second := by
  have distinct : (place.body.members.bodies place.chain).Nodup :=
    (List.Nodup.of_map _ design.bodies_nodup).sublist (Scope.bodies_sublist listed)
  have pairedDistinct := distinct.sublist (@Scope.paired_bodies_sublist _ scope _)
  exact (PairedMember.bodies.inj
    (eq_of_filterMap_nodup pairedDistinct firstPaired secondPaired rfl rfl)).2

/-- A value of a listed body is paired with one value. -/
theorem paired_value_unique (listed : place ∈ design.places) {scope : Scope}
    {symbol first second : Nat}
    (firstPaired : .values symbol first ∈ place.body.members.pairedMembers scope)
    (secondPaired : .values symbol second ∈ place.body.members.pairedMembers scope) :
    first = second := by
  have distinct : (place.body.members.values place.chain).Nodup :=
    (List.Nodup.of_map _ design.values_nodup).sublist (Scope.values_sublist listed)
  have pairedDistinct := distinct.sublist (@Scope.paired_values_sublist _ scope _)
  exact (PairedMember.values.inj
    (eq_of_filterMap_nodup pairedDistinct firstPaired secondPaired rfl rfl)).2

end Design

theorem BodyPlace.eq_of_chain {place other : BodyPlace} (same : place.chain = other.chain) :
    place = other := by
  obtain ⟨bodyEq, enclosingEq⟩ := List.cons.inj same
  cases place
  cases bodyEq
  cases enclosingEq
  rfl

/-- A body and the canonical body it is paired with. -/
inductive Pairs (design : Design) : BodyPlace → BodyPlace → Prop
  | redirected {place canonical : BodyPlace} : place ∈ design.places →
      canonical ∈ design.places → place.body.redirect = some canonical.body.id →
      Pairs design place canonical
  | nested {place canonical outer outerCanonical : BodyPlace} {ci : InstanceBody} :
      Pairs design outer outerCanonical → place.enclosing = outer.chain →
      .bodies place.body ci ∈ outer.body.members.pairedMembers outerCanonical.body.members →
      canonical ∈ design.places → canonical.body.id = ci.ciBody →
      Pairs design place canonical

/-- What slang's instance caching ensures about the canonical pointers: a canonical body has no
redirect around it, and the instances at the same positions of paired bodies have one canonical
body. -/
structure SlangCached (design : Design) : Prop where
  canonical : ∀ place ∈ design.places, ∀ direct, place.body.redirect = some direct →
    ∃ canonical ∈ design.places, canonical.body.id = direct ∧
      ∀ body ∈ canonical.chain, body.redirect = none
  agree : ∀ {outer outerCanonical body ci direct}, Pairs design outer outerCanonical →
    .bodies body ci ∈ outer.body.members.pairedMembers outerCanonical.body.members →
    body.redirect = some direct → ci.ciBody = direct

namespace Pairs

variable {design : Design} {place canonical other outer outerCanonical : BodyPlace}

theorem mem_left (pairs : Pairs design place canonical) : place ∈ design.places := by
  induction pairs with
  | redirected listed _ _ => exact listed
  | @nested place _ outer _ _ _ inside paired _ _ ih =>
      have inner := (Scope.mem_bodies_of_paired outer.chain paired).1
      have listed := Design.inner_mem ih inner
      rw [← inside] at listed
      exact listed

theorem mem_right (pairs : Pairs design place canonical) : canonical ∈ design.places := by
  cases pairs with
  | redirected _ listed _ => exact listed
  | nested _ _ _ listed _ => exact listed

/-- A body that is paired has a redirect around it. -/
theorem exists_redirect (pairs : Pairs design place canonical) :
    ∃ body ∈ place.chain, ∃ direct, body.redirect = some direct := by
  induction pairs with
  | redirected _ _ redirect => exact ⟨_, List.mem_cons_self, _, redirect⟩
  | nested _ inside _ _ _ ih =>
      obtain ⟨body, listed, redirected⟩ := ih
      rw [← inside] at listed
      exact ⟨body, List.mem_cons_of_mem _ listed, redirected⟩

/-- Without a redirect of its own a body is paired through the body around it. -/
theorem outer_of_unredirected (pairs : Pairs design place canonical)
    (unredirected : place.body.redirect = none) (inside : place.enclosing = outer.chain) :
    ∃ outerCanonical ci, Pairs design outer outerCanonical ∧
      .bodies place.body ci ∈ outer.body.members.pairedMembers outerCanonical.body.members ∧
      canonical.body.id = ci.ciBody := by
  cases pairs with
  | redirected _ _ redirect =>
      rw [unredirected] at redirect
      cases redirect
  | nested outerPairs inside' paired _ target =>
      have same := BodyPlace.eq_of_chain (inside.symm.trans inside')
      subst same
      exact ⟨_, _, outerPairs, paired, target⟩

section Cached

variable (cached : SlangCached design)

include cached

/-- There is no redirect around a canonical body. -/
theorem canonical_unredirected (pairs : Pairs design place canonical) :
    ∀ body ∈ canonical.chain, body.redirect = none := by
  induction pairs with
  | @redirected place canonical listed canonicalListed redirect =>
      obtain ⟨target, targetListed, same, unredirected⟩ :=
        cached.canonical place listed _ redirect
      rw [Design.place_eq canonicalListed targetListed same.symm]
      exact unredirected
  | @nested place canonical outer outerCanonical ci outerPairs _ paired listed target ih =>
      have ciListed := Design.inner_mem outerPairs.mem_right
        (Scope.mem_bodies_of_paired outerCanonical.chain paired).2
      cases redirect : ci.redirect with
      | some direct =>
          obtain ⟨other, otherListed, same, unredirected⟩ :=
            cached.canonical _ ciListed direct redirect
          rw [InstanceBody.ciBody_of_redirect redirect] at target
          rw [Design.place_eq listed otherListed (target.trans same.symm)]
          exact unredirected
      | none =>
          rw [InstanceBody.ciBody_of_canonical redirect] at target
          rw [Design.place_eq listed ciListed target]
          exact List.forall_mem_cons.mpr ⟨redirect, ih⟩

theorem canonical_unpaired (pairs : Pairs design place canonical) :
    ¬Pairs design canonical other := by
  intro again
  obtain ⟨body, listed, direct, redirected⟩ := again.exists_redirect
  rw [pairs.canonical_unredirected cached body listed] at redirected
  cases redirected

/-- A body is paired with another body. -/
theorem id_ne (pairs : Pairs design place canonical) : place.body.id ≠ canonical.body.id := by
  intro same
  have itself := Design.place_eq pairs.mem_left pairs.mem_right same
  subst itself
  exact pairs.canonical_unpaired cached pairs

/-- A body is paired with at most one canonical body. -/
theorem unique (pairs : Pairs design place canonical) (otherPairs : Pairs design place other) :
    canonical = other := by
  apply Design.place_eq pairs.mem_right otherPairs.mem_right
  induction pairs generalizing other with
  | redirected _ _ redirect =>
      cases otherPairs with
      | redirected _ _ redirect' => exact Option.some.inj (redirect.symm.trans redirect')
      | nested outerPairs _ paired _ target =>
          exact (cached.agree outerPairs paired redirect).symm.trans target.symm
  | nested outerPairs inside paired _ target ih =>
      cases otherPairs with
      | redirected _ _ redirect => exact target.trans (cached.agree outerPairs paired redirect)
      | nested outerPairs' inside' paired' _ target' =>
          have sameOuter := BodyPlace.eq_of_chain (inside.symm.trans inside')
          subst sameOuter
          have sameCanonical := Design.place_eq outerPairs.mem_right outerPairs'.mem_right
            (ih outerPairs')
          subst sameCanonical
          rw [target, target', Design.paired_body_unique outerPairs.mem_left paired paired']

end Cached

end Pairs

end SlangNetlist
