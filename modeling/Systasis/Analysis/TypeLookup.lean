import Systasis.Analysis.Queries
import Systasis.Graph.Cycle

/-!
# TypeLookup — unfolding the types of other registrations

Model of `TypeLookup` in `systasis-macros/src/analysis.rs`.  A concrete lookup becomes a clone of
the type it names and is visited again, so the recursion is not structural; the first argument of
`visitType` bounds how deep lookups unfold, and `none` says that the bound was too small.
-/

namespace Systasis
namespace Analysis

open Syntax

variable {n : Nat}

/-! ## Lookups -/

/-- The tokens of a type lookup, with whether its name is `resolve_type_from`. -/
structure TypeSite where
  isFrom : Bool
  tokens : Tokens
  deriving DecidableEq, Repr

def typeSite (label : Label) : Option TypeSite :=
  match label.form with
  | .typeInvocation mac =>
      match mac.ident with
      | some ident =>
          if ident.is "registered_type" || ident.is "resolve_type" then some ⟨false, mac.tokens⟩
          else if ident.is "resolve_type_from" then some ⟨true, mac.tokens⟩
          else none
      | none => none
  | _ => none

/-- Whether `dyn` was written, and the key that is asked for. -/
def lookupKey (site : TypeSite) : Option (Bool × String) :=
  match site.tokens with
  | .query dynamic interface path =>
      (namespaceQuery site.isFrom path).map fun ns => (dynamic, namespaceKey ns interface)
  | .unparsed _ => none

/-! ## The visitor -/

/-- The tables of `TypeLookup`. -/
structure Types (n : Nat) where
  indices : String → Option (Fin n)
  names : Fin n → String
  types : Fin n → Node
  dynamic : Fin n → Option Node

inductive LookupError (n : Nat) where
  | syntaxError
  | unregistered
  | notDynamic
  | cycle (path : List (Fin n))
  deriving DecidableEq, Repr

/-- The diagnostic of an error. -/
def LookupError.diagnostic (names : Fin n → String) : LookupError n → Diagnostic
  | .syntaxError => .syntaxError
  | .unregistered => .message "unregistered type lookup"
  | .notDynamic => .message "dyn type lookup requires an as dyn registration"
  | .cycle path =>
      .message ("registered type lookup cycle: " ++ String.intercalate " -> " (path.map names))

/-- `TypeLookup`, its tables apart. -/
structure Lookup (n : Nat) where
  active : List (Fin n)
  dependencies : Finset (Fin n)
  error : Option (LookupError n)

/-- `parse_quote!((#target))` -/
def parenthesized (target : Node) : Node :=
  .node ⟨.type "(..)", [], false⟩ [target]

section Visit

variable (tables : Types n)

/-- The branch of `visit_type_mut` for a lookup, where `unfold` visits the type it names. -/
def enterLookup (unfold : Node → Lookup n → Option (Node × Lookup n)) (site : TypeSite)
    (ty : Node) (s : Lookup n) : Option (Node × Lookup n) :=
  match lookupKey site with
  | none => some (ty, { s with error := some .syntaxError })
  | some (dynamic, key) =>
      match tables.indices key with
      | none => some (ty, { s with error := some .unregistered })
      | some index =>
          -- A trait object ends the unfolding: its target is not visited.
          if dynamic then
            match tables.dynamic index with
            | none => some (ty, { s with error := some .notDynamic })
            | some target =>
                some (parenthesized target,
                  { s with dependencies := insert index s.dependencies })
          -- `self.active.iter().position(..)`: the path from the first visit, closed.
          else if index ∈ s.active then
            let cycle := s.active.drop (s.active.idxOf index) ++ [index]
            some (ty, { s with error := some (.cycle cycle) })
          else
            let s :=
              { s with
                active := s.active ++ [index]
                dependencies := insert index s.dependencies }
            -- A clone of the registered type takes the place of the lookup and is visited in turn.
            match unfold (tables.types index) s with
            | some (ty, s) => some (ty, { s with active := s.active.dropLast })
            | none => none

mutual

def visitWith (unfold : Node → Lookup n → Option (Node × Lookup n)) :
    Node → Lookup n → Option (Node × Lookup n)
  | .node label children, s =>
      match typeSite label with
      | some site => enterLookup tables unfold site (.node label children) s
      | none =>
          match visitAllWith unfold children s with
          | some (children, s) => some (.node label children, s)
          | none => none

def visitAllWith (unfold : Node → Lookup n → Option (Node × Lookup n)) :
    List Node → Lookup n → Option (List Node × Lookup n)
  | [], s => some ([], s)
  | node :: rest, s =>
      match visitWith unfold node s with
      | none => none
      | some (node, s) =>
          match visitAllWith unfold rest s with
          | none => none
          | some (rest, s) => some (node :: rest, s)

end

/-- `TypeLookup::visit_type_mut` -/
def visitType : Nat → Node → Lookup n → Option (Node × Lookup n)
  | 0, _, _ => none
  | fuel + 1, node, s => visitWith tables (visitType fuel) node s

end Visit

/-! ## The tables of a declaration -/

/-- `parse::Registration`: a winning registration as the passes see it. -/
structure Registration where
  fresh : Bool
  constructor : Option Node
  fallible : Bool
  dynamic : Bool
  value : Node
  ty : Node
  /-- The paths of the `InterfaceGroup`, and its key. -/
  paths : List Node
  interface : String
  ns : Option String

/-- `registration.namespace.key(&registration.interface)` -/
def Registration.key (registration : Registration) : String :=
  namespaceKey registration.ns registration.interface

/-- The map collected from the registration names; the last one of a name counts. -/
def indices (registrations : Fin n → Registration) (key : String) : Option (Fin n) :=
  (List.finRange n).reverse.find? fun index => (registrations index).key == key

/-- The type of `dyn_targets::generate`: the trait object itself, or a nominal trait for a group. -/
def dynTarget (index : Fin n) (registration : Registration) : Option Node :=
  if registration.dynamic then
    some
      (match registration.paths with
        | [path] => .node ⟨.type "dyn", [], false⟩ [path]
        | _ => .node ⟨.type ("dyn __systasis_injected::__systasis_Dyn" ++ toString index.val), [],
            false⟩ [])
  else none

def Types.of (registrations : Fin n → Registration) : Types n where
  indices := Analysis.indices registrations
  names := fun index => (registrations index).key
  types := fun index => (registrations index).ty
  dynamic := fun index => dynTarget index (registrations index)

/-! ## What lookups name -/

/-- The lookups of a type, outermost ones. -/
def sites (ty : Node) : List TypeSite :=
  Rose.found typeSite ty

section Names

variable (tables : Types n)

/-- The registration a lookup names, with whether it asks for the trait object. -/
def names (site : TypeSite) : Option (Bool × Fin n) :=
  match lookupKey site with
  | none => none
  | some (dynamic, key) => (tables.indices key).map fun index => (dynamic, index)

/-- A lookup that can be answered: a registered key, and for `dyn` an `as dyn` registration. -/
def Answered (site : TypeSite) : Prop :=
  ∃ dynamic index, names tables site = some (dynamic, index) ∧
    (dynamic = true → (tables.dynamic index).isSome)

/-- The registrations whose types the lookups unfold. -/
def concrete (lookups : List TypeSite) : Finset (Fin n) :=
  Finset.univ.filter fun index => ∃ site ∈ lookups, names tables site = some (false, index)

/-- The concrete lookup edges between registrations. -/
def edges (index : Fin n) : Finset (Fin n) :=
  concrete tables (sites (tables.types index))

/-- A chain of concrete lookups, each in the type the one before it names. -/
def Chain (lookups : List TypeSite) : List (Fin n) → Prop
  | [] => True
  | index :: rest =>
      index ∈ concrete tables lookups ∧ Chain (sites (tables.types index)) rest

/-- The lookups at the end of a chain. -/
def reachedBy (lookups : List TypeSite) : List (Fin n) → List TypeSite
  | [] => lookups
  | index :: rest => reachedBy (sites (tables.types index)) rest

/-- The lookups that a visit comes across. -/
def Reached (lookups : List TypeSite) (site : TypeSite) : Prop :=
  ∃ chain, Chain tables lookups chain ∧ site ∈ reachedBy tables lookups chain

/-- The registrations that a visit comes across. -/
def Registered (lookups : List TypeSite) (index : Fin n) : Prop :=
  ∃ site dynamic, Reached tables lookups site ∧ names tables site = some (dynamic, index)

mutual

/-- The full recursive unfolding of a type. -/
inductive Unfolds : Node → Node → Prop
  | descend {label : Label} {children unfolded : List Node} :
      typeSite label = none → UnfoldsAll children unfolded →
        Unfolds (.node label children) (.node label unfolded)
  | concrete {label : Label} {children : List Node} {site : TypeSite} {index : Fin n}
      {unfolded : Node} :
      typeSite label = some site → names tables site = some (false, index) →
        Unfolds (tables.types index) unfolded → Unfolds (.node label children) unfolded
  | dynamic {label : Label} {children : List Node} {site : TypeSite} {index : Fin n}
      {target : Node} :
      typeSite label = some site → names tables site = some (true, index) →
        tables.dynamic index = some target → Unfolds (.node label children) (parenthesized target)

inductive UnfoldsAll : List Node → List Node → Prop
  | nil : UnfoldsAll [] []
  | cons {node unfolded : Node} {rest others : List Node} :
      Unfolds node unfolded → UnfoldsAll rest others →
        UnfoldsAll (node :: rest) (unfolded :: others)

end

end Names

end Analysis
end Systasis
