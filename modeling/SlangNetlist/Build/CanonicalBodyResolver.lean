import SlangNetlist.Library.Memo

/-!
# Canonical bodies

Slang sets a canonical pointer on the outermost non-canonical instance only.
The resolver walks up from a body to an anchor whose canonical body is known, and
pairs the anchor with it member by member.  The pairs are memoised.
-/

namespace SlangNetlist

open Library

/-- The kinds of scope inside an instance body. -/
inductive ScopeKind where
  | generateBlock
  | generateBlockArray
  | instanceArray
  | other (kind : Nat)
  deriving DecidableEq

/-- The scopes that are paired member by member. -/
def ScopeKind.isPaired : ScopeKind → Bool
  | .other _ => false
  | _ => true

/-- A member of a scope.  A value symbol and an instance body are named by their addresses. -/
inductive MemberSymbol where
  | valueSymbol (symbol : Nat)
  | instanceSymbol (canonicalBody : Option Nat) (body : Nat)
  | scopeSymbol (kind : ScopeKind)
  deriving DecidableEq

/-- The members of a scope: the first one, what is inside it, and the members after it.  Inside
an instance are the members of its body; inside a value there is nothing. -/
inductive Scope where
  | empty
  | member (symbol : MemberSymbol) (members next : Scope)
  deriving DecidableEq

/-- An instance body, with the canonical body that its parent instance points to. -/
structure InstanceBody where
  canonicalBody : Option Nat
  id : Nat
  members : Scope
  deriving DecidableEq

namespace InstanceBody

/-- The canonical body of the parent instance, where it is another body. -/
def redirect (body : InstanceBody) : Option Nat :=
  body.canonicalBody.filter (· != body.id)

/-- `ciCanon != nullptr ? *ciCanon : ci.body`. -/
def ciBody (body : InstanceBody) : Nat :=
  body.canonicalBody.getD body.id

end InstanceBody

/-- An instance body, and the bodies that enclose it from the inside out. -/
structure BodyPlace where
  body : InstanceBody
  enclosing : List InstanceBody
  deriving DecidableEq

/-- The body and those that enclose it. -/
def BodyPlace.chain (place : BodyPlace) : List InstanceBody :=
  place.body :: place.enclosing

namespace Scope

/-- The instance bodies below a scope that `enclosing` encloses. -/
def bodies (enclosing : List InstanceBody) : Scope → List BodyPlace
  | .empty => []
  | .member symbol members next =>
      (match symbol with
      | .valueSymbol _ => []
      | .instanceSymbol canonicalBody id =>
          ⟨⟨canonicalBody, id, members⟩, enclosing⟩ ::
            members.bodies (⟨canonicalBody, id, members⟩ :: enclosing)
      | .scopeSymbol _ => members.bodies enclosing) ++ next.bodies enclosing

/-- The value symbols below a scope, each with the bodies around it. -/
def values (enclosing : List InstanceBody) : Scope → List (Nat × List InstanceBody)
  | .empty => []
  | .member symbol members next =>
      (match symbol with
      | .valueSymbol symbol => [(symbol, enclosing)]
      | .instanceSymbol canonicalBody id =>
          members.values (⟨canonicalBody, id, members⟩ :: enclosing)
      | .scopeSymbol _ => members.values enclosing) ++ next.values enclosing

end Scope

/-- The tree of a compilation.  Different symbols have different addresses. -/
structure Design where
  root : Scope
  bodies_nodup : ((root.bodies []).map fun place => place.body.id).Nodup
  values_nodup : ((root.values []).map Prod.fst).Nodup

namespace Design

def places (design : Design) : List BodyPlace :=
  design.root.bodies []

def values (design : Design) : List (Nat × List InstanceBody) :=
  design.root.values []

/-- The body at an address. -/
def place? (design : Design) (id : Nat) : Option BodyPlace :=
  design.places.find? (·.body.id == id)

/-- The members of the body at an address. -/
def membersOf (design : Design) (id : Nat) : Scope :=
  ((design.place? id).map (·.body.members)).getD .empty

/-- The bodies from the one at an address outwards. -/
def chainOf (design : Design) (id : Nat) : List InstanceBody :=
  ((design.place? id).map BodyPlace.chain).getD []

/-- `symbol.getParentScope()->getContainingInstance()`. -/
def getContainingInstance (design : Design) (symbol : Nat) : Option InstanceBody :=
  (design.values.find? (·.1 == symbol)).bind (·.2.head?)

end Design

structure CanonicalBodyResolver where
  valueCache : Memo Nat Nat
  bodyCache : Memo Nat Nat

namespace CanonicalBodyResolver

/-- A resolver that nothing has been asked yet. -/
def fresh : CanonicalBodyResolver where
  valueCache := fun _ => none
  bodyCache := fun _ => none

def emplaceValue (resolver : CanonicalBodyResolver) (symbol canonical : Nat) :
    CanonicalBodyResolver :=
  { resolver with valueCache := resolver.valueCache.emplace symbol canonical }

def emplaceBody (resolver : CanonicalBodyResolver) (body canonical : Nat) :
    CanonicalBodyResolver :=
  { resolver with bodyCache := resolver.bodyCache.emplace body canonical }

/-- Walk two scopes in lockstep and register the values and the bodies at the same positions. -/
def populatePairedBodies (design : Design) :
    Scope → Scope → CanonicalBodyResolver → CanonicalBodyResolver
  | .member symbol members next, .member symbol' members' next', resolver =>
      populatePairedBodies design next next'
        (match symbol, symbol' with
        | .valueSymbol value, .valueSymbol value' => resolver.emplaceValue value value'
        | .instanceSymbol _ body, .instanceSymbol canonicalBody' body' =>
            let ciBody := canonicalBody'.getD body'
            if body ≠ ciBody then
              populatePairedBodies design members (design.membersOf ciBody)
                (resolver.emplaceBody body ciBody)
            else resolver.emplaceBody body body
        | .scopeSymbol kind, .scopeSymbol kind' =>
            if kind = kind' ∧ kind.isPaired then
              populatePairedBodies design members members' resolver
            else resolver
        | _, _ => resolver)
  | _, _, resolver => resolver

/-- The first body of a chain that is cached or redirected, and its canonical body. -/
def findAnchor (resolver : CanonicalBodyResolver) :
    List InstanceBody → Option (InstanceBody × Nat)
  | [] => none
  | cur :: enclosing =>
      match resolver.bodyCache cur.id with
      | some canonical => some (cur, canonical)
      | none =>
          match cur.redirect with
          | some direct => some (cur, direct)
          | none => resolver.findAnchor enclosing

def getCanonicalBody (design : Design) (resolver : CanonicalBodyResolver) (body : Nat) :
    Nat × CanonicalBodyResolver :=
  match resolver.bodyCache body with
  | some canonical => (canonical, resolver)
  | none =>
      match resolver.findAnchor (design.chainOf body) with
      | none => (body, resolver.emplaceBody body body)
      | some (anchor, anchorCanonical) =>
          if anchorCanonical = anchor.id then (body, resolver.emplaceBody body body)
          else
            let populated := populatePairedBodies design anchor.members
              (design.membersOf anchorCanonical) (resolver.emplaceBody anchor.id anchorCanonical)
            match populated.bodyCache body with
            | some canonical => (canonical, populated)
            -- a structural mismatch between the anchor and its canonical body
            | none => (body, populated.emplaceBody body body)

def getCanonicalValueSymbol (design : Design) (resolver : CanonicalBodyResolver)
    (symbol : Nat) : Nat × CanonicalBodyResolver :=
  match resolver.valueCache symbol with
  | some canonical => (canonical, resolver)
  | none =>
      match design.getContainingInstance symbol with
      | none => (symbol, resolver.emplaceValue symbol symbol)
      | some body =>
          let resolved := (resolver.getCanonicalBody design body.id).2
          match resolved.valueCache symbol with
          | some canonical => (canonical, resolved)
          | none => (symbol, resolved.emplaceValue symbol symbol)

/-- What a resolver can be asked about. -/
inductive Query where
  | value (symbol : Nat)
  | body (id : Nat)
  deriving DecidableEq

def Query.address : Query → Nat
  | .value symbol => symbol
  | .body id => id

/-- The same question about another symbol. -/
def Query.withAddress : Query → Nat → Query
  | .value _, symbol => .value symbol
  | .body _, id => .body id

/-- Ask a resolver for the canonical value symbol or the canonical body. -/
def resolve (design : Design) (resolver : CanonicalBodyResolver) :
    Query → Nat × CanonicalBodyResolver
  | .value symbol => resolver.getCanonicalValueSymbol design symbol
  | .body id => resolver.getCanonicalBody design id

end CanonicalBodyResolver

end SlangNetlist
