import SlangNetlist.Build.PairedBodies

/-!
# The resolver and the pairs

Every entry of the two caches is the answer of the pairing, and a body that is
cached with another body has all its values cached.  So a query has the same result
after every sequence of queries.
-/

namespace SlangNetlist

open Library

namespace CanonicalBodyResolver

/-- The partner of a value or of a body. -/
def Paired (design : Design) : Query → Nat → Prop
  | .value symbol, canonical => ∃ outer outerCanonical, Pairs design outer outerCanonical ∧
      .values symbol canonical ∈ outer.body.members.pairedMembers outerCanonical.body.members
  | .body id, canonical => ∃ place partner, Pairs design place partner ∧
      place.body.id = id ∧ partner.body.id = canonical

/-- The partner, or the symbol itself if it has none. -/
def Answer (design : Design) (query : Query) (canonical : Nat) : Prop :=
  Paired design query canonical ∨
    (canonical = query.address ∧ ∀ partner, ¬Paired design query partner)

section Answers

variable {design : Design} {query : Query} {outer other outerCanonical : BodyPlace}
  {symbol canonical first second : Nat}

/-- A value is in one body. -/
theorem outer_eq (listed : (symbol, outer.chain) ∈ design.values)
    (otherListed : (symbol, other.chain) ∈ design.values) : outer = other :=
  BodyPlace.eq_of_chain
    (congrArg Prod.snd (List.inj_on_of_nodup_map design.values_nodup listed otherListed rfl))

theorem paired_values_mem (pairs : Pairs design outer outerCanonical)
    (paired : .values symbol canonical ∈
      outer.body.members.pairedMembers outerCanonical.body.members) :
    (symbol, outer.chain) ∈ design.values ∧ (canonical, outerCanonical.chain) ∈ design.values := by
  constructor
  · apply (Scope.values_sublist pairs.mem_left).subset
    exact (Scope.mem_values_of_paired outer.chain paired).1
  · apply (Scope.values_sublist pairs.mem_right).subset
    exact (Scope.mem_values_of_paired outerCanonical.chain paired).2

variable (cached : SlangCached design)

include cached

theorem Paired.unique (firstPaired : Paired design query first)
    (secondPaired : Paired design query second) : first = second := by
  cases query with
  | value symbol =>
      obtain ⟨outer, outerCanonical, pairs, paired⟩ := firstPaired
      obtain ⟨other, otherCanonical, otherPairs, otherPaired⟩ := secondPaired
      have sameOuter := outer_eq (paired_values_mem pairs paired).1
        (paired_values_mem otherPairs otherPaired).1
      subst sameOuter
      have sameCanonical := pairs.unique cached otherPairs
      subst sameCanonical
      exact Design.paired_value_unique pairs.mem_left paired otherPaired
  | body id =>
      obtain ⟨place, partner, pairs, rfl, rfl⟩ := firstPaired
      obtain ⟨other, otherPartner, otherPairs, same, rfl⟩ := secondPaired
      have samePlace := Design.place_eq otherPairs.mem_left pairs.mem_left same
      subst samePlace
      rw [pairs.unique cached otherPairs]

/-- A partner has no partner. -/
theorem Paired.partner_unpaired (paired : Paired design query canonical) (partner : Nat) :
    ¬Paired design (query.withAddress canonical) partner := by
  intro again
  cases query with
  | value symbol =>
      obtain ⟨outer, outerCanonical, pairs, paired⟩ := paired
      obtain ⟨other, otherCanonical, otherPairs, otherPaired⟩ := again
      have sameOuter := outer_eq (paired_values_mem pairs paired).2
        (paired_values_mem otherPairs otherPaired).1
      subst sameOuter
      exact pairs.canonical_unpaired cached otherPairs
  | body id =>
      obtain ⟨place, canonicalPlace, pairs, _, rfl⟩ := paired
      obtain ⟨other, otherPartner, otherPairs, same, _⟩ := again
      have samePlace := Design.place_eq otherPairs.mem_left pairs.mem_right same
      subst samePlace
      exact pairs.canonical_unpaired cached otherPairs

theorem Answer.unique (firstAnswer : Answer design query first)
    (secondAnswer : Answer design query second) : first = second := by
  rcases firstAnswer with paired | ⟨itself, unpaired⟩
  · rcases secondAnswer with paired' | ⟨_, unpaired'⟩
    · exact paired.unique cached paired'
    · exact absurd paired (unpaired' _)
  · rcases secondAnswer with paired' | ⟨itself', _⟩
    · exact absurd paired' (unpaired _)
    · exact itself.trans itself'.symm

/-- An answer is its own answer. -/
theorem Answer.answer_self (answer : Answer design query canonical) :
    Answer design (query.withAddress canonical) canonical := by
  rcases answer with paired | ⟨itself, unpaired⟩
  · refine Or.inr ⟨?_, paired.partner_unpaired cached⟩
    cases query <;> rfl
  · subst itself
    have same : query.withAddress query.address = query := by cases query <;> rfl
    rw [same]
    exact Or.inr ⟨rfl, unpaired⟩

end Answers

section Entries

variable {design : Design} {resolver : CanonicalBodyResolver}

/-- The two caches as one table. -/
def table (resolver : CanonicalBodyResolver) : Memo Query Nat
  | .value symbol => resolver.valueCache symbol
  | .body id => resolver.bodyCache id

theorem table_emplaceValue (symbol canonical : Nat) :
    (resolver.emplaceValue symbol canonical).table =
      resolver.table.emplace (.value symbol) canonical := by
  funext query
  cases query with
  | value other =>
      by_cases same : other = symbol
      · simp only [table, emplaceValue, Memo.emplace, same, if_true]
      · simp only [table, emplaceValue, Memo.emplace, same, if_false, Query.value.injEq]
  | body id => rfl

theorem table_emplaceBody (id canonical : Nat) :
    (resolver.emplaceBody id canonical).table =
      resolver.table.emplace (.body id) canonical := by
  funext query
  cases query with
  | value symbol => rfl
  | body other =>
      by_cases same : other = id
      · simp only [table, emplaceBody, Memo.emplace, same, if_true]
      · simp only [table, emplaceBody, Memo.emplace, same, if_false, Query.body.injEq]

/-- What a walk over two scopes registers, in order. -/
def entries (design : Design) : Scope → Scope → List (Query × Nat)
  | .member symbol members next, .member symbol' members' next' =>
      (match symbol, symbol' with
      | .valueSymbol value, .valueSymbol value' => [(.value value, value')]
      | .instanceSymbol _ body, .instanceSymbol canonicalBody' body' =>
          let ciBody := canonicalBody'.getD body'
          if body ≠ ciBody then
            (.body body, ciBody) :: entries design members (design.membersOf ciBody)
          else [(.body body, body)]
      | .scopeSymbol kind, .scopeSymbol kind' =>
          if kind = kind' ∧ kind.isPaired then entries design members members' else []
      | _, _ => []) ++ entries design next next'
  | _, _ => []

theorem table_populatePairedBodies (scope canonical : Scope) :
    (populatePairedBodies design scope canonical resolver).table =
      resolver.table.emplaceAll (entries design scope canonical) := by
  induction scope generalizing canonical resolver with
  | empty => rfl
  | member symbol members next ihMembers ihNext =>
      cases canonical with
      | empty => rfl
      | member symbol' members' next' =>
          change (populatePairedBodies design next next' _).table =
            resolver.table.emplaceAll (_ ++ entries design next next')
          rw [ihNext, Memo.emplaceAll_append]
          congr 1
          cases symbol <;> cases symbol'
          case valueSymbol.valueSymbol value value' => exact table_emplaceValue value value'
          case instanceSymbol.instanceSymbol canonicalBody body canonicalBody' body' =>
            dsimp only
            split
            · rw [ihMembers, table_emplaceBody]
              rfl
            · exact table_emplaceBody body body
          case scopeSymbol.scopeSymbol kind kind' =>
            dsimp only
            split
            · exact ihMembers _
            · rfl
          all_goals rfl

/-- What is registered for two members at the same position. -/
def entryOf : PairedMember → Query × Nat
  | .values symbol canonical => (.value symbol, canonical)
  | .bodies body ci => (.body body.id, ci.ciBody)

/-- Members at the same position are registered. -/
theorem mem_entries_of_paired {scope other : Scope} {member : PairedMember}
    (paired : member ∈ scope.pairedMembers other) :
    entryOf member ∈ entries design scope other := by
  induction scope generalizing other with
  | empty => cases paired
  | member head members next ihMembers ihNext =>
      cases other with
      | empty => cases paired
      | member head' members' next' =>
          rcases List.mem_append.mp paired with here | later
          · apply List.mem_append_left
            cases head <;> cases head'
            case valueSymbol.valueSymbol =>
              cases List.mem_singleton.mp here
              exact List.mem_cons_self
            case instanceSymbol.instanceSymbol =>
              cases List.mem_singleton.mp here
              dsimp only [entryOf, InstanceBody.ciBody]
              split
              · exact List.mem_cons_self
              · next same =>
                  rw [← not_not.mp same]
                  exact List.mem_cons_self
            case scopeSymbol.scopeSymbol kind kind' =>
              dsimp only at here ⊢
              split at here
              · next both =>
                  rw [if_pos both]
                  exact ihMembers here
              · cases here
            all_goals cases here
          · exact List.mem_append_right _ (ihNext later)

theorem exists_ciBody (cached : SlangCached design) {place : BodyPlace}
    (listed : place ∈ design.places) :
    ∃ canonical ∈ design.places, canonical.body.id = place.body.ciBody := by
  cases redirect : place.body.redirect with
  | none => exact ⟨place, listed, (InstanceBody.ciBody_of_canonical redirect).symm⟩
  | some direct =>
      obtain ⟨canonical, canonicalListed, same, _⟩ := cached.canonical place listed direct redirect
      rw [InstanceBody.ciBody_of_redirect redirect]
      exact ⟨canonical, canonicalListed, same⟩

/-- An entry for paired values, or for paired bodies below which all is registered. -/
def EntryOrigin (design : Design) (registered : List (Query × Nat)) (entry : Query × Nat) : Prop :=
  (∃ symbol canonical, entry = (.value symbol, canonical) ∧
    Paired design (.value symbol) canonical) ∨
  ∃ place canonical, entry = (.body place.body.id, canonical.body.id) ∧
    Pairs design place canonical ∧
    entries design place.body.members canonical.body.members ⊆ registered

theorem EntryOrigin.mono {registered more : List (Query × Nat)} {entry : Query × Nat}
    (origin : EntryOrigin design registered entry) (subset : registered ⊆ more) :
    EntryOrigin design more entry := by
  rcases origin with value | ⟨place, canonical, same, pairs, below⟩
  · exact Or.inl value
  · exact Or.inr ⟨place, canonical, same, pairs, List.Subset.trans below subset⟩

/-- The walk over two paired bodies registers pairs only, and with two bodies all below them. -/
theorem entry_origin (cached : SlangCached design) {scope other : Scope}
    {outer outerCanonical : BodyPlace} (pairs : Pairs design outer outerCanonical)
    (within : scope.pairedMembers other ⊆
      outer.body.members.pairedMembers outerCanonical.body.members)
    {entry : Query × Nat} (listed : entry ∈ entries design scope other) :
    EntryOrigin design (entries design scope other) entry := by
  induction scope generalizing other outer outerCanonical with
  | empty => cases listed
  | member head members next ihMembers ihNext =>
      cases other with
      | empty => cases listed
      | member head' members' next' =>
          obtain ⟨withinHead, withinNext⟩ := List.append_subset.mp within
          rcases List.mem_append.mp listed with here | later
          · apply EntryOrigin.mono _ (List.subset_append_left _ _)
            cases head <;> cases head'
            case valueSymbol.valueSymbol value value' =>
              cases List.mem_singleton.mp here
              exact Or.inl ⟨value, value', rfl, outer, outerCanonical, pairs,
                withinHead List.mem_cons_self⟩
            case instanceSymbol.instanceSymbol canonicalBody body canonicalBody' body' =>
              have paired := withinHead List.mem_cons_self
              have ciListed := Design.inner_mem pairs.mem_right
                (Scope.mem_bodies_of_paired outerCanonical.chain paired).2
              obtain ⟨canonical, canonicalListed, target⟩ := exists_ciBody cached ciListed
              have inner : Pairs design ⟨⟨canonicalBody, body, members⟩, outer.chain⟩ canonical :=
                .nested pairs rfl paired canonicalListed target
              have different : body ≠ canonicalBody'.getD body' :=
                fun same => inner.id_ne cached (same.trans target.symm)
              have membersEq : design.membersOf (canonicalBody'.getD body') =
                  canonical.body.members := by
                rw [← Design.membersOf_eq canonicalListed, target]
                rfl
              dsimp only at here ⊢
              rw [if_pos different, membersEq] at here ⊢
              rcases List.mem_cons.mp here with rfl | below
              · exact Or.inr ⟨_, canonical, Prod.ext rfl target.symm, inner,
                  List.subset_cons_self _ _⟩
              · exact (ihMembers inner (List.Subset.refl _) below).mono (List.subset_cons_self _ _)
            case scopeSymbol.scopeSymbol kind kind' =>
              dsimp only at here withinHead ⊢
              split at here
              · next both =>
                  rw [if_pos both] at withinHead ⊢
                  exact ihMembers pairs withinHead here
              · cases here
            all_goals cases here
          · exact (ihNext pairs withinNext later).mono (List.subset_append_right _ _)

end Entries

section Anchors

variable {design : Design} {anchor place outer canonical : BodyPlace}
  {resolver : CanonicalBodyResolver} {chain : List InstanceBody}

/-- The bodies from a place up to an anchor have no redirect. -/
inductive Below (anchor : BodyPlace) : BodyPlace → Prop
  | here : Below anchor anchor
  | under {place outer : BodyPlace} : Below anchor outer → place.enclosing = outer.chain →
      place.body.redirect = none → Below anchor place

theorem Below.anchor_mem (below : Below anchor place) (listed : place ∈ design.places) :
    anchor ∈ design.places := by
  induction below with
  | here => exact listed
  | under _ inside _ ih => exact ih (Design.outer_mem listed inside)

/-- Below a body without a partner nothing has one. -/
theorem Below.unpaired (below : Below anchor place)
    (unpaired : ∀ canonical, ¬Pairs design anchor canonical) (canonical : BodyPlace) :
    ¬Pairs design place canonical := by
  induction below generalizing canonical with
  | here => exact unpaired canonical
  | under _ inside unredirected ih =>
      intro pairs
      obtain ⟨outerCanonical, _, outerPairs, _⟩ :=
        pairs.outer_of_unredirected unredirected inside
      exact ih outerCanonical outerPairs

/-- The walk over an anchor and its partner reaches every paired body below the anchor. -/
theorem Below.registered (cached : SlangCached design) {anchorCanonical : BodyPlace}
    (below : Below anchor place) (anchorPairs : Pairs design anchor anchorCanonical)
    (pairs : Pairs design place canonical) :
    place = anchor ∨ ∃ stored, (.body place.body.id, stored) ∈
      entries design anchor.body.members anchorCanonical.body.members := by
  induction below generalizing canonical with
  | here => exact Or.inl rfl
  | @under place outer _ inside unredirected ih =>
      right
      obtain ⟨outerCanonical, ci, outerPairs, paired, _⟩ :=
        pairs.outer_of_unredirected unredirected inside
      rcases ih outerPairs with rfl | ⟨stored, registered⟩
      · have same := outerPairs.unique cached anchorPairs
        subst same
        exact ⟨_, mem_entries_of_paired paired⟩
      · rcases entry_origin cached anchorPairs (List.Subset.refl _) registered with
          ⟨_, _, entryEq, _⟩ | ⟨other, otherCanonical, entryEq, otherPairs, deeper⟩
        · cases entryEq
        · have sameId : outer.body.id = other.body.id :=
            Query.body.inj (congrArg Prod.fst entryEq)
          have same := Design.place_eq outerPairs.mem_left otherPairs.mem_left sameId
          subst same
          have sameCanonical := outerPairs.unique cached otherPairs
          subst sameCanonical
          exact ⟨_, deeper (mem_entries_of_paired paired)⟩

/-- The walk stops at a body that is cached or redirected, and passes the others. -/
theorem findAnchor_cons {cur : InstanceBody} (anchor : Option (InstanceBody × Nat))
    (walked : resolver.findAnchor (cur :: chain) = anchor) :
    (∃ target, anchor = some (cur, target) ∧
      (resolver.bodyCache cur.id = some target ∨ cur.redirect = some target)) ∨
    (cur.redirect = none ∧ resolver.findAnchor chain = anchor) := by
  unfold findAnchor at walked
  cases hit : resolver.bodyCache cur.id with
  | some canonical =>
      rw [hit] at walked
      exact Or.inl ⟨canonical, walked.symm, Or.inl rfl⟩
  | none =>
      rw [hit] at walked
      cases redirect : cur.redirect with
      | some direct =>
          rw [redirect] at walked
          exact Or.inl ⟨direct, walked.symm, Or.inr rfl⟩
      | none =>
          rw [redirect] at walked
          exact Or.inr ⟨rfl, walked⟩

theorem findAnchor_none (missing : resolver.findAnchor chain = none) :
    ∀ body ∈ chain, body.redirect = none := by
  induction chain with
  | nil => exact fun body listed => absurd listed List.not_mem_nil
  | cons cur enclosing ih =>
      rcases findAnchor_cons none missing with ⟨_, found, _⟩ | ⟨unredirected, missing⟩
      · cases found
      · exact List.forall_mem_cons.mpr ⟨unredirected, ih missing⟩

/-- An anchor is cached or redirected, and the bodies below it have no redirect. -/
theorem findAnchor_some {body : InstanceBody} {target : Nat}
    (found : resolver.findAnchor place.chain = some (body, target)) :
    ∃ anchor, anchor.body = body ∧ Below anchor place ∧
      (resolver.bodyCache body.id = some target ∨ body.redirect = some target) := by
  obtain ⟨cur, enclosing⟩ := place
  induction enclosing generalizing cur with
  | nil =>
      rcases findAnchor_cons _ found with ⟨_, same, known⟩ | ⟨_, found⟩
      · cases same
        exact ⟨_, rfl, .here, known⟩
      · cases found
  | cons outer enclosing ih =>
      rcases findAnchor_cons _ found with ⟨_, same, known⟩ | ⟨unredirected, found⟩
      · cases same
        exact ⟨_, rfl, .here, known⟩
      · obtain ⟨anchor, bodyEq, below, known⟩ := ih outer found
        exact ⟨anchor, bodyEq, .under below rfl unredirected, known⟩

end Anchors

/-- What the caches hold between queries. -/
structure Sound (design : Design) (resolver : CanonicalBodyResolver) : Prop where
  answers : ∀ {query canonical}, resolver.table query = some canonical →
    Answer design query canonical
  complete : ∀ {place canonical}, Pairs design place canonical →
    resolver.bodyCache place.body.id = some canonical.body.id → ∀ {symbol target},
    .values symbol target ∈ place.body.members.pairedMembers canonical.body.members →
    ∃ stored, resolver.valueCache symbol = some stored

namespace Sound

variable {design : Design} {resolver : CanonicalBodyResolver} {place anchor canonical : BodyPlace}

theorem fresh : Sound design fresh where
  answers found := by
    rename_i query _
    cases query <;> cases found
  complete _ found := by cases found

/-- A symbol without a partner is cached with itself. -/
theorem emplaceValue (sound : Sound design resolver) {symbol : Nat}
    (unpaired : ∀ partner, ¬Paired design (.value symbol) partner) :
    Sound design (resolver.emplaceValue symbol symbol) where
  answers found := by
    rw [table_emplaceValue] at found
    rcases Memo.of_emplace found with found | ⟨rfl, rfl⟩
    · exact sound.answers found
    · exact Or.inr ⟨rfl, unpaired⟩
  complete pairs hit _ _ paired := by
    obtain ⟨stored, found⟩ := sound.complete pairs hit paired
    exact ⟨stored, Memo.emplace_of_some found⟩

theorem emplaceBody (sound : Sound design resolver) {id : Nat}
    (unpaired : ∀ partner, ¬Paired design (.body id) partner) :
    Sound design (resolver.emplaceBody id id) where
  answers found := by
    rw [table_emplaceBody] at found
    rcases Memo.of_emplace found with found | ⟨rfl, rfl⟩
    · exact sound.answers found
    · exact Or.inr ⟨rfl, unpaired⟩
  complete pairs hit _ _ paired := by
    rcases Memo.of_emplace hit with hit | ⟨rfl, _⟩
    · exact sound.complete pairs hit paired
    · exact absurd ⟨_, _, pairs, rfl, rfl⟩ (unpaired _)

/-- Pairing an anchor with its partner keeps the caches sound. -/
theorem populate (sound : Sound design resolver) (cached : SlangCached design)
    (pairs : Pairs design anchor canonical) :
    Sound design (populatePairedBodies design anchor.body.members canonical.body.members
      (resolver.emplaceBody anchor.body.id canonical.body.id)) where
  answers found := by
    rw [table_populatePairedBodies, table_emplaceBody] at found
    rcases Memo.of_emplaceAll found with found | registered
    · rcases Memo.of_emplace found with found | ⟨rfl, rfl⟩
      · exact sound.answers found
      · exact Or.inl ⟨_, _, pairs, rfl, rfl⟩
    · rcases entry_origin cached pairs (List.Subset.refl _) registered with
        ⟨_, _, entryEq, paired⟩ | ⟨_, _, entryEq, inner, _⟩
      · cases entryEq
        exact Or.inl paired
      · cases entryEq
        exact Or.inl ⟨_, _, inner, rfl, rfl⟩
  complete := by
    intro place partner inner hit symbol target paired
    -- both caches are read through the table
    change (populatePairedBodies ..).table (.body place.body.id) = _ at hit
    change ∃ stored, (populatePairedBodies ..).table (.value symbol) = some stored
    rw [table_populatePairedBodies, table_emplaceBody] at hit ⊢
    rcases Memo.of_emplaceAll hit with hit | registered
    · rcases Memo.of_emplace hit with hit | ⟨placeEq, partnerEq⟩
      · obtain ⟨stored, found⟩ := sound.complete inner hit paired
        have kept : resolver.table (.value symbol) = some stored := found
        exact ⟨stored, Memo.emplaceAll_of_some (Memo.emplace_of_some kept)⟩
      · have samePlace := Design.place_eq inner.mem_left pairs.mem_left (Query.body.inj placeEq)
        have samePartner := Design.place_eq inner.mem_right pairs.mem_right partnerEq
        subst samePlace samePartner
        exact Memo.exists_emplaceAll (mem_entries_of_paired paired)
    · rcases entry_origin cached pairs (List.Subset.refl _) registered with
        ⟨_, _, entryEq, _⟩ | ⟨other, otherPartner, entryEq, otherPairs, below⟩
      · cases entryEq
      · obtain ⟨placeEq, partnerEq⟩ := Prod.mk.inj entryEq
        have samePlace :=
          Design.place_eq inner.mem_left otherPairs.mem_left (Query.body.inj placeEq)
        have samePartner := Design.place_eq inner.mem_right otherPairs.mem_right partnerEq
        subst samePlace samePartner
        exact Memo.exists_emplaceAll (below (mem_entries_of_paired paired))

end Sound

section Queries

variable {design : Design} {resolver : CanonicalBodyResolver} {place : BodyPlace}

theorem chainOf_eq (listed : place ∈ design.places) :
    design.chainOf place.body.id = place.chain := by
  unfold Design.chainOf
  rw [Design.place?_eq listed]
  rfl

/-- A body without a partner, in terms of places. -/
theorem unpaired_of_places (listed : place ∈ design.places)
    (unpaired : ∀ canonical, ¬Pairs design place canonical) (partner : Nat) :
    ¬Paired design (.body place.body.id) partner := by
  rintro ⟨other, canonical, pairs, same, _⟩
  have samePlace := Design.place_eq pairs.mem_left listed same
  subst samePlace
  exact unpaired canonical pairs

/-- Every address that is not one of a body of the design has no partner. -/
theorem unpaired_of_missing {id : Nat} (missing : design.place? id = none) (partner : Nat) :
    ¬Paired design (.body id) partner := by
  rintro ⟨place, canonical, pairs, rfl, _⟩
  rw [Design.place?_eq pairs.mem_left] at missing
  cases missing

/-- What a query for a body leaves and returns. -/
structure BodyResult (design : Design) (body : Nat) (result : Nat × CanonicalBodyResolver) :
    Prop where
  sound : Sound design result.2
  answer : Answer design (.body body) result.1
  stored : result.2.bodyCache body = some result.1

/-- A body without a partner is stored as its own canonical body. -/
theorem BodyResult.itself (sound : Sound design resolver) {body : Nat}
    (missing : resolver.bodyCache body = none)
    (unpaired : ∀ partner, ¬Paired design (.body body) partner) :
    BodyResult design body (body, resolver.emplaceBody body body) where
  sound := sound.emplaceBody unpaired
  answer := Or.inr ⟨rfl, unpaired⟩
  stored := by
    change resolver.bodyCache.emplace body body body = some body
    rw [Memo.emplace, if_pos rfl, missing]
    rfl

/-- The partner of an anchor that is cached with another body or redirected. -/
theorem anchor_pairs (sound : Sound design resolver) (cached : SlangCached design)
    {anchor : BodyPlace} (listed : anchor ∈ design.places) {target : Nat}
    (known : resolver.bodyCache anchor.body.id = some target ∨ anchor.body.redirect = some target)
    (other : target ≠ anchor.body.id) :
    ∃ canonical, Pairs design anchor canonical ∧ canonical.body.id = target := by
  rcases known with hit | redirect
  · have answer : Answer design (.body anchor.body.id) target := sound.answers hit
    rcases answer with ⟨place, canonical, pairs, same, rfl⟩ | ⟨itself, _⟩
    · have samePlace := Design.place_eq pairs.mem_left listed same
      subst samePlace
      exact ⟨canonical, pairs, rfl⟩
    · exact absurd itself other
  · obtain ⟨canonical, canonicalListed, rfl, _⟩ := cached.canonical anchor listed target redirect
    exact ⟨canonical, .redirected listed canonicalListed redirect, rfl⟩

theorem redirect_ne {body : InstanceBody} {direct : Nat}
    (redirected : body.redirect = some direct) : direct ≠ body.id :=
  bne_iff_ne.mp (Option.filter_eq_some_iff.mp redirected).2

/-- An anchor that is cached with itself has no partner. -/
theorem anchor_unpaired (sound : Sound design resolver) (cached : SlangCached design)
    {anchor : BodyPlace} (known : resolver.bodyCache anchor.body.id = some anchor.body.id ∨
      anchor.body.redirect = some anchor.body.id) (canonical : BodyPlace) :
    ¬Pairs design anchor canonical := by
  rcases known with hit | redirect
  · have answer : Answer design (.body anchor.body.id) anchor.body.id := sound.answers hit
    rcases answer with ⟨place, partner, pairs, same, back⟩ | ⟨_, unpaired⟩
    · exact absurd (same.trans back.symm) (pairs.id_ne cached)
    · exact fun pairs => unpaired _ ⟨anchor, canonical, pairs, rfl, rfl⟩
  · exact absurd rfl (redirect_ne redirect)

/-- After the walk over an anchor every paired body below it is cached. -/
theorem populated_of_below (cached : SlangCached design) {anchor canonical partner : BodyPlace}
    (below : Below anchor place) (anchorPairs : Pairs design anchor canonical)
    (pairs : Pairs design place partner) :
    ∃ stored, (populatePairedBodies design anchor.body.members canonical.body.members
      (resolver.emplaceBody anchor.body.id canonical.body.id)).bodyCache place.body.id =
        some stored := by
  change ∃ stored, (populatePairedBodies ..).table (.body place.body.id) = some stored
  rw [table_populatePairedBodies, table_emplaceBody]
  rcases below.registered cached anchorPairs pairs with rfl | ⟨stored, registered⟩
  · obtain ⟨stored, hit⟩ := @Memo.exists_emplace_self _ _ _ resolver.table
      (.body place.body.id) canonical.body.id
    exact ⟨stored, Memo.emplaceAll_of_some hit⟩
  · exact Memo.exists_emplaceAll registered

theorem getCanonicalBody_result (cached : SlangCached design) (sound : Sound design resolver)
    (body : Nat) : BodyResult design body (resolver.getCanonicalBody design body) := by
  unfold getCanonicalBody
  cases hit : resolver.bodyCache body with
  | some canonical => exact ⟨sound, sound.answers hit, hit⟩
  | none =>
      dsimp only
      cases found : design.place? body with
      | none =>
          have chainEq : design.chainOf body = [] := by
            unfold Design.chainOf
            rw [found]
            rfl
          rw [chainEq]
          exact BodyResult.itself sound hit (unpaired_of_missing found)
      | some place =>
          obtain ⟨listed, rfl⟩ := Design.place?_some found
          rw [chainOf_eq listed]
          cases walked : resolver.findAnchor place.chain with
          | none =>
              apply BodyResult.itself sound hit (unpaired_of_places listed _)
              intro canonical pairs
              obtain ⟨inner, innerMem, direct, redirected⟩ := pairs.exists_redirect
              rw [findAnchor_none walked inner innerMem] at redirected
              cases redirected
          | some found =>
              obtain ⟨anchorBody, target⟩ := found
              obtain ⟨anchor, rfl, below, known⟩ := findAnchor_some walked
              have anchorListed := below.anchor_mem listed
              dsimp only
              split
              · next itself =>
                  subst itself
                  exact BodyResult.itself sound hit (unpaired_of_places listed
                    (below.unpaired (anchor_unpaired sound cached known)))
              · next other =>
                  obtain ⟨canonical, anchorPairs, rfl⟩ :=
                    anchor_pairs sound cached anchorListed known other
                  rw [Design.membersOf_eq anchorPairs.mem_right]
                  have populated := sound.populate cached anchorPairs
                  split
                  · next stored => exact ⟨populated, populated.answers stored, stored⟩
                  · next missing =>
                      apply BodyResult.itself populated missing (unpaired_of_places listed _)
                      intro partner pairs
                      obtain ⟨stored, hit⟩ := populated_of_below cached below anchorPairs pairs
                      rw [missing] at hit
                      cases hit

/-- The body around a paired value is its containing instance. -/
theorem getContainingInstance_eq {outer : BodyPlace} {symbol : Nat}
    (listed : (symbol, outer.chain) ∈ design.values) :
    design.getContainingInstance symbol = some outer.body := by
  unfold Design.getContainingInstance
  cases found : design.values.find? (·.1 == symbol) with
  | none =>
      have missing := List.find?_eq_none.mp found _ listed
      exact absurd (beq_self_eq_true _) missing
  | some value =>
      have same := List.find?_some found
      rw [beq_iff_eq] at same
      have member := List.mem_of_find?_eq_some found
      rw [List.inj_on_of_nodup_map design.values_nodup member listed same]
      rfl

theorem getCanonicalValueSymbol_result (cached : SlangCached design)
    (sound : Sound design resolver) (symbol : Nat) :
    Sound design (resolver.getCanonicalValueSymbol design symbol).2 ∧
      Answer design (.value symbol) (resolver.getCanonicalValueSymbol design symbol).1 := by
  unfold getCanonicalValueSymbol
  cases hit : resolver.valueCache symbol with
  | some canonical => exact ⟨sound, sound.answers hit⟩
  | none =>
      dsimp only
      cases found : design.getContainingInstance symbol with
      | none =>
          have unpaired : ∀ partner, ¬Paired design (.value symbol) partner := by
            rintro partner ⟨outer, outerCanonical, pairs, paired⟩
            rw [getContainingInstance_eq (paired_values_mem pairs paired).1] at found
            cases found
          exact ⟨sound.emplaceValue unpaired, Or.inr ⟨rfl, unpaired⟩⟩
      | some body =>
          have result := getCanonicalBody_result cached sound body.id
          dsimp only
          split
          · next stored => exact ⟨result.sound, result.sound.answers stored⟩
          · next missing =>
              have unpaired : ∀ partner, ¬Paired design (.value symbol) partner := by
                rintro partner ⟨outer, outerCanonical, pairs, paired⟩
                rw [getContainingInstance_eq (paired_values_mem pairs paired).1] at found
                cases found
                -- the body is cached with its partner, so the value is cached too
                have answerEq := result.answer.unique cached
                  (Or.inl ⟨outer, outerCanonical, pairs, rfl, rfl⟩)
                have stored := result.stored
                rw [answerEq] at stored
                obtain ⟨_, hit⟩ := result.sound.complete pairs stored paired
                rw [missing] at hit
                cases hit
              exact ⟨result.sound.emplaceValue unpaired, Or.inr ⟨rfl, unpaired⟩⟩

theorem memoised (cached : SlangCached design) :
    Memoised (resolve design) (Sound design) (Answer design) where
  keeps sound query := by
    cases query with
    | value symbol => exact (getCanonicalValueSymbol_result cached sound symbol).1
    | body id => exact (getCanonicalBody_result cached sound id).sound
  answers sound query := by
    cases query with
    | value symbol => exact (getCanonicalValueSymbol_result cached sound symbol).2
    | body id => exact (getCanonicalBody_result cached sound id).answer
  unique := Answer.unique cached

/-- Under slang's instance caching a query has the result of a fresh resolver after all earlier
queries, and its result is its own canonical symbol. -/
theorem resolve_afterQueries (cached : SlangCached design) (earlier later : List Query)
    (query : Query) :
    let asked := afterQueries (resolve design) CanonicalBodyResolver.fresh earlier
    let answer := (resolve design asked query).1
    answer = (resolve design CanonicalBodyResolver.fresh query).1 ∧
      (resolve design (afterQueries (resolve design) CanonicalBodyResolver.fresh later)
        (query.withAddress answer)).1 = answer := by
  intro asked answer
  have sound : Sound design asked := (memoised cached).inv_afterQueries Sound.fresh earlier
  have laterSound := (memoised cached).inv_afterQueries Sound.fresh later
  refine ⟨(memoised cached).result_eq sound Sound.fresh query, ?_⟩
  have known : Answer design query answer := (memoised cached).answers sound query
  exact ((memoised cached).answers laterSound _).unique cached (known.answer_self cached)

end Queries

section TwoChildren

/-- A module instantiated twice, with an instance inside a generate block.  Slang redirects the
second instance only. -/
def twoChildren : Design where
  root := .member (.instanceSymbol none 0)
    (.member (.instanceSymbol none 1)
      (.member (.valueSymbol 10) .empty (.member (.scopeSymbol .generateBlock)
        (.member (.instanceSymbol none 2) (.member (.valueSymbol 20) .empty .empty) .empty)
        .empty))
      (.member (.instanceSymbol (some 1) 3)
        (.member (.valueSymbol 11) .empty (.member (.scopeSymbol .generateBlock)
          (.member (.instanceSymbol none 4) (.member (.valueSymbol 21) .empty .empty) .empty)
          .empty)) .empty)) .empty
  bodies_nodup := by decide
  values_nodup := by decide

theorem twoChildren_cached : SlangCached twoChildren where
  canonical place listed direct redirected := by
    have pointers : ∀ place ∈ twoChildren.places,
        place.body.redirect = none ∨ place.body.redirect = some 1 := by decide
    have first : ∃ canonical ∈ twoChildren.places, canonical.body.id = 1 ∧
        ∀ body ∈ canonical.chain, body.redirect = none := by decide
    rcases pointers place listed with none | one
    · rw [none] at redirected
      cases redirected
    · rw [one] at redirected
      cases redirected
      exact first
  agree {outer outerCanonical body ci direct} pairs paired redirected := by
    -- no body around the redirected one is paired
    have outermost : ∀ place ∈ twoChildren.places, place.body.redirect ≠ none →
        ∀ body ∈ place.enclosing, body.redirect = none := by decide
    have listed := Design.inner_mem pairs.mem_left
      (Scope.mem_bodies_of_paired outer.chain paired).1
    have redirects : body.redirect ≠ none := fun missing => by
      rw [missing] at redirected
      cases redirected
    obtain ⟨inner, innerMem, _, innerRedirect⟩ := pairs.exists_redirect
    rw [outermost _ listed redirects inner innerMem] at innerRedirect
    cases innerRedirect

theorem resolve_afterQueries_twoChildren :
    let asked := afterQueries (resolve twoChildren) CanonicalBodyResolver.fresh
      [.value 21, .body 2]
    let answer := (resolve twoChildren asked (.body 4)).1
    answer = (resolve twoChildren CanonicalBodyResolver.fresh (.body 4)).1 ∧
      (resolve twoChildren (afterQueries (resolve twoChildren) CanonicalBodyResolver.fresh
        [.body 3]) (Query.withAddress (.body 4) answer)).1 = answer :=
  resolve_afterQueries twoChildren_cached [.value 21, .body 2] [.body 3] (.body 4)

/-- The inner instance of the second instance has the inner one of the first as canonical body. -/
example : (resolve twoChildren CanonicalBodyResolver.fresh (.body 4)).1 = 2 := by decide

end TwoChildren

end CanonicalBodyResolver

end SlangNetlist
