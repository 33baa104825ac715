import Mathlib.Data.Finset.Insert
import Systasis.Syntax

/-!
# Queries — recognising and replacing resolution queries

Model of `systasis-macros/src/analysis.rs` (`Queries`) and of `systasis-macros/src/child_queries.rs`,
with the token grammar of `Namespace::query`.  Both visitors override `visit_expr_mut`, so a query
is seen where it is an expression (`Form.invocation`).
-/

namespace Systasis
namespace Analysis

open Syntax

/-! ## Query names -/

/-- The names the visitors list, without `_from`. -/
inductive Query where
  | tryResolve
  | resolve
  | tryResolveRef
  | tryResolveRefMut
  | tryResolveClone
  | resolveRef
  | resolveClone
  | resolveDynRef
  | tryResolveDynRef
  | resolveUnchecked
  | resolveRefUnchecked
  | resolveRefMutUnchecked
  deriving DecidableEq, Repr

namespace Query

def text : Query → String
  | tryResolve => "try_resolve"
  | resolve => "resolve"
  | tryResolveRef => "try_resolve_ref"
  | tryResolveRefMut => "try_resolve_ref_mut"
  | tryResolveClone => "try_resolve_clone"
  | resolveRef => "resolve_ref"
  | resolveClone => "resolve_clone"
  | resolveDynRef => "resolve_dyn_ref"
  | tryResolveDynRef => "try_resolve_dyn_ref"
  | resolveUnchecked => "resolve_unchecked"
  | resolveRefUnchecked => "resolve_ref_unchecked"
  | resolveRefMutUnchecked => "resolve_ref_mut_unchecked"

def all : List Query :=
  [tryResolve, resolve, tryResolveRef, tryResolveRefMut, tryResolveClone, resolveRef, resolveClone,
    resolveDynRef, tryResolveDynRef, resolveUnchecked, resolveRefUnchecked, resolveRefMutUnchecked]

/-- `removed_borrow_query`; the same names are those `Queries` records as borrowing. -/
def removed : Query → Bool
  | resolveRef | tryResolveRef | tryResolveRefMut | resolveDynRef | tryResolveDynRef
  | resolveRefUnchecked | resolveRefMutUnchecked => true
  | _ => false

/-- The operation of `scoped::op` a child query asks for. -/
def operation : Query → String
  | resolve => "Owned"
  | tryResolve => "TryOwned"
  | resolveRef => "Shared"
  | tryResolveRef => "TryShared"
  | tryResolveRefMut => "TryExclusive"
  | resolveClone => "CloneValue"
  | tryResolveClone => "TryCloneValue"
  | resolveDynRef => "DynShared"
  | tryResolveDynRef => "TryDynShared"
  | resolveUnchecked => "UncheckedOwned"
  | resolveRefUnchecked => "UncheckedShared"
  | resolveRefMutUnchecked => "UncheckedExclusive"

/-- `name.contains("unchecked")` -/
def unchecked : Query → Bool
  | resolveUnchecked | resolveRefUnchecked | resolveRefMutUnchecked => true
  | _ => false

end Query

def removedBorrowMessage : String :=
  "borrowed resolvers have been removed; register a reference explicitly, or resolve an owned value and borrow it"

/-- What a visitor reports: an error of `syn`'s parsers, or a text of its own. -/
inductive Diagnostic where
  | syntaxError
  | message (text : String)
  deriving DecidableEq, Repr

/-- `ident.to_string()` -/
def identText (ident : Ident) : String :=
  if ident.raw then "r#" ++ ident.name else ident.name

/-- The name of a macro as a query and whether it ends in `_from`. -/
def parseName (text : String) : Option (Query × Bool) :=
  (Query.all.flatMap fun query => [(query, false), (query, true)]).find? fun entry =>
    text == entry.1.text ++ if entry.2 then "_from" else ""

/-- An invocation of a query. -/
structure Invocation where
  query : Query
  isFrom : Bool
  tokens : Tokens
  deriving DecidableEq, Repr

def Invocation.of (mac : Macro) : Option Invocation :=
  match mac.ident with
  | none => none
  | some ident =>
      (parseName (identText ident)).map fun entry => ⟨entry.1, entry.2, mac.tokens⟩

/-! ## Tokens -/

/-- The segments of a path that `Ident`'s parser refuses. -/
def isKeyword (ident : Ident) : Bool :=
  !ident.raw && ["super", "self", "Self", "crate", "try"].contains ident.name

/-- `Namespace::named` -/
def namedNamespace (ident : Ident) : Option String :=
  if ident.name ≠ "default" then some ident.name else none

/-- `Namespace::query`, with the check of `parse2` that nothing follows. -/
def namespaceQuery (isFrom : Bool) (path : Option QueryPath) : Option (Option String) :=
  match isFrom, path with
  | false, none => some none
  | true, some ⟨false, [(ident, false)]⟩ =>
      if isKeyword ident then none else some (namedNamespace ident)
  | _, _ => none

/-- `Namespace::key` -/
def namespaceKey (ns : Option String) (interface : String) : String :=
  match ns with
  | none => interface
  | some name => interface ++ " in " ++ name

/-- The key a local query asks for; `dyn` is no interface. -/
def localKey (isFrom : Bool) : Tokens → Option String
  | .query false interface path =>
      (namespaceQuery isFrom path).map fun ns => namespaceKey ns interface
  | _ => none

/-! ## Local queries -/

/-- A query that is an expression. -/
def expressionQuery (label : Label) : Option Invocation :=
  match label.form with
  | .invocation mac => Invocation.of mac
  | _ => none

/-- A generated call in the place of an expression. -/
def generatedCall (call : Generated) : Node → Node
  | .node label _ => .node ⟨.expr (.generated call), [], label.semi⟩ []

/-- `analysis::Queries`, its tables apart. -/
structure Queries (n : Nat) where
  dependencies : Finset (Fin n)
  borrowed : Finset (Fin n)
  error : Option Diagnostic

section Local

variable {n : Nat} (indices : String → Option (Fin n))
  (replacements : Option (Fin n → Query → Option Generated))

/-- `Queries::visit_expr_mut` -/
def enterQuery : Node → Queries n → Option (Node × Queries n)
  | .node label children, s =>
      (expressionQuery label).map fun invocation =>
        let expression : Node := .node label children
        if invocation.query.removed then
          (expression, { s with error := some (.message removedBorrowMessage) })
        else
          -- `syn::parse2` of the tokens, with `Namespace::query` after the interface.
          match localKey invocation.isFrom invocation.tokens with
          | none => (expression, { s with error := some .syntaxError })
          | some key =>
              match indices key with
              | none => (expression, { s with error := some (.message "unregistered dependency") })
              | some index =>
                  let s := { s with dependencies := insert index s.dependencies }
                  let s :=
                    -- Never so here: the removed names have been refused above.
                    if invocation.query.removed then
                      { s with borrowed := insert index s.borrowed }
                    else s
                  match replacements with
                  | none => (expression, s)
                  | some replacements =>
                      match replacements index invocation.query with
                      | some call => (generatedCall call expression, s)
                      | none =>
                          (expression,
                            { s with
                              error := some (.message
                                "requested resolver is unavailable for this constructor") })

/-- `queries.visit_expr_mut(..)` and `queries.visit_expr_closure_mut(..)` -/
def visitQueries : Node → Queries n → Node × Queries n :=
  Rose.visit (enterQuery indices replacements)

end Local

/-! ## Child queries -/

/-- `child::ChildRegistration`: its name and the type of the container. -/
structure ChildRegistration where
  name : Ident
  ty : Node

/-- `child_queries::Call`, by the texts its keys are made of. -/
structure Call where
  child : String
  path : List String
  interface : String
  operation : String
  unchecked : Bool
  deriving DecidableEq, Repr

/-- `child_queries::Queries`, its tables apart. -/
structure ChildQueries where
  error : Option Diagnostic
  borrowed : List (Nat × List String × String)
  calls : List Call

/-- The places `child_queries::Queries` looks at. -/
inductive ChildSite where
  | query (invocation : Invocation)
  | type (tokens : Tokens)

def childSite (label : Label) : Option ChildSite :=
  match label.form with
  | .invocation mac =>
      match Invocation.of mac with
      | some invocation =>
          if invocation.query.removed || invocation.isFrom then some (.query invocation) else none
      | none => none
  | .typeInvocation mac =>
      match mac.ident with
      | some ident => if ident.is "resolve_type_from" then some (.type mac.tokens) else none
      | none => none
  | _ => none

section Children

variable (children : List ChildRegistration)

/-- `Queries::target`: the child, the interface, whether `dyn` was written, and the names after the
child's. -/
def target : Tokens → Except Diagnostic (Option (Nat × String × Bool × List String))
  | .query dynamic interface (some path) =>
      match path.segments with
      | [] => .ok none
      | (first, _) :: rest =>
          -- Only a path that starts with a child is checked any further.
          match children.findIdx? fun child => child.name.name == first.name with
          | none => .ok none
          | some index =>
              if path.leadingColon || path.segments.any fun segment => segment.2 then
                .error (.message "child lookup paths contain only child or namespace names")
              else .ok (some (index, interface, dynamic, rest.map fun segment => segment.1.name))
  | _ => .error .syntaxError

/-- `There<.., Here>` over the names after the child's. -/
def pathTokens (names : List String) : String :=
  names.foldr (fun name rest => "There<" ++ name ++ ", " ++ rest ++ ">") "Here"

/-- `<child as Registered<path, key>>::Value<'_>`, or the target of a `dyn` registration. -/
def projection (child : Node) (path : List String) (interface : String) (dynamic : Bool) : Node :=
  let segment (name : String) : Ident := ⟨false, name⟩
  let tokens (text : String) : Node := .node ⟨.type text, [], false⟩ []
  .node
    ⟨.typePath
      ⟨true, true,
        [segment "systasis", segment "scoped",
          segment (if dynamic then "DynRegistered" else "Registered"),
          segment (if dynamic then "Target" else "Value")]⟩, [], false⟩
    [child, tokens (pathTokens path), tokens interface]

variable (inConstructor : Bool)

/-- `child_queries::Queries::{visit_expr_mut, visit_type_mut}` -/
def enterChild : Node → ChildQueries → Option (Node × ChildQueries)
  | .node label below, s =>
      (childSite label).map fun site =>
        let node : Node := .node label below
        match site with
        | .query invocation =>
            if invocation.query.removed then
              (node, { s with error := some (.message removedBorrowMessage) })
            else
              match target children invocation.tokens with
              | .error error => (node, { s with error := some error })
              -- The first name is no child, so the query is left to the local pass.
              | .ok none => (node, s)
              | .ok (some (index, interface, _, path)) =>
                  let s :=
                    if invocation.query.removed then
                      { s with borrowed := s.borrowed ++ [(index, path, interface)] }
                    else s
                  let call : Call :=
                    ⟨((children[index]?).map fun child => child.name.name).getD "", path, interface,
                      invocation.query.operation, invocation.query.unchecked⟩
                  (generatedCall
                      (.dispatch index path interface invocation.query.operation inConstructor) node,
                    { s with calls := s.calls ++ [call] })
        | .type tokens =>
            match target children tokens with
            | .error error => (node, { s with error := some error })
            | .ok none => (node, s)
            | .ok (some (index, interface, dynamic, path)) =>
                match children[index]? with
                | some child => (projection child.ty path interface dynamic, s)
                | none => (node, s)

def visitChildren : Node → ChildQueries → Node × ChildQueries :=
  Rose.visit (enterChild children inConstructor)

end Children

end Analysis
end Systasis
