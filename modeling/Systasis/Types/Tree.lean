import Systasis.Syntax

/-!
# Tree — the syntax of types and of the generics they mention

As in `Syntax`, a tree follows `visit_mut`: the children of a node are the nodes its default
traversal visits, in that order.  A node of `syn` whose only content is another one (a generic
argument that is a type, an expression that is a path) is that other one.
-/

namespace Systasis
namespace Types

open Syntax (Ident)

/-- What the first segment of a path is looked up as. -/
inductive Role where
  /-- The path of a type or of a trait. -/
  | type
  /-- The path of an expression. -/
  | value
  | invocation
  deriving DecidableEq, Repr

inductive Form where
  /-- A lifetime among generic arguments or bounds, or a label. -/
  | lifetime (name : Ident)
  /-- `for<..>`; its children are parameters. -/
  | binder
  /-- Children: the bounds, which are lifetimes. -/
  | lifetimeParam (name : Ident)
  | typeParam (ident : Ident)
  | constParam (ident : Ident)
  /-- Child: the type referred to. -/
  | reference (lifetime : Option Ident) (mutable : Bool)
  /-- Children: the binder, if there is one, the arguments and the output. -/
  | fnPtr (qualifiers : List String)
  | fnArg (name : Option Ident)
  | output
  /-- Children: the binder, if there is one, and the path. -/
  | traitBound (parenthesized : Bool) (modifiers : List String)
  /-- Children: the `qself`, if there is one, and the segments. -/
  | path (role : Role) (leadingColon : Bool)
  | qself (position : Nat)
  /-- Child: the generic arguments, if there are any. -/
  | segment (ident : Ident)
  | angle (turbofish : Bool)
  /-- The arguments and the output of `Fn(..) -> ..` -/
  | parenthesized
  | assoc (ident : Ident)
  | constraint (ident : Ident)
  | paren
  /-- A type captured by a macro fragment, between invisible delimiters. -/
  | group
  | tuple
  | slice
  /-- Children: the type of the elements and the length. -/
  | array
  | ptr (mutable : Bool)
  | never
  | infer
  | traitObject (dyn : Bool)
  | implTrait
  /-- Child: the path.  No visitor looks at the tokens. -/
  | invocation (tokens : String)
  | verbatim (tokens : String)
  /-- A const expression: the tokens around the nodes a visitor stops at. -/
  | expr (pieces : List String)
  deriving DecidableEq, Repr

abbrev Node : Type := Rose Form

/-- `syn::Type` -/
def Form.isType : Form → Bool
  | .path role _ => role = .type
  | .reference _ _ | .fnPtr _ | .paren | .group | .tuple | .slice | .array | .ptr _ | .never
  | .infer | .traitObject _ | .implTrait | .invocation _ | .verbatim _ => true
  | _ => false

/-- `name<arguments>` -/
def simplePath (role : Role) (name : String) (arguments : List Node) : Node :=
  .node (.path role false)
    [.node (.segment ⟨false, name⟩)
      (if arguments.isEmpty then [] else [.node (.angle false) arguments])]

def Form.segmentIdent : Form → Option Ident
  | .segment ident => some ident
  | _ => none

/-- The first segment among the children of a path. -/
def firstSegment (cs : List Node) : Option Ident :=
  cs.findSome? fun c => c.label.segmentIdent

/-! ## Binders -/

/-- The lifetime a parameter of a binder introduces. -/
def Form.bound : Form → Option Ident
  | .lifetimeParam name => some name
  | _ => none

/-- The lifetimes introduced by the binder among the children of a node. -/
def boundBy (cs : List Node) : List Ident :=
  (cs.filter fun c => c.label = .binder).flatMap fun binder =>
    binder.children.filterMap fun param => param.label.bound

/-! ## Generics -/

/-- `syn::GenericParam` -/
inductive Param where
  | lifetime (name : Ident) (bounds : List Ident)
  | type (ident : Ident) (bounds : List Node) (default : Option Node)
  | const (ident : Ident) (ty : Node) (default : Option Node)

/-- `syn::WherePredicate`; the binder is a list of at most one node. -/
inductive Predicate where
  | type (binder : List Node) (bounded : Node) (bounds : List Node)
  | lifetime (name : Ident) (bounds : List Ident)

structure Generics where
  params : List Param
  whereClause : Option (List Predicate)

def Generics.predicates (g : Generics) : List Predicate :=
  g.whereClause.getD []

end Types
end Systasis
