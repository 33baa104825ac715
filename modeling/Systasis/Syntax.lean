import Systasis.Lib.Rose

/-!
# Syntax — the part of `syn`'s syntax the passes look at

A tree follows `visit_mut`: the children of a node are the nodes its default traversal visits, in
that order.  Patterns and items are data of the node that holds them; the types written inside a
pattern are children of that node.
-/

namespace Systasis
namespace Syntax

/-! ## Identifiers and paths -/

/-- An identifier; `raw` when it is spelled with `r#`. -/
structure Ident where
  raw : Bool
  name : String
  deriving DecidableEq, Repr

/-- `ident == text` -/
def Ident.is (ident : Ident) (text : String) : Bool :=
  !ident.raw && ident.name == text

/-- The path of an `ExprPath`, its generic arguments apart. -/
structure ValuePath where
  qself : Bool
  leadingColon : Bool
  segments : List Ident
  deriving DecidableEq, Repr

/-- The condition under which `visit_expr_mut` looks a path up as a variable. -/
def ValuePath.single (path : ValuePath) : Option Ident :=
  match path with
  | ⟨false, false, [ident]⟩ => some ident
  | _ => none

inductive UseTree where
  | path (ident : Ident) (tree : UseTree)
  | name (ident : Ident)
  | rename (ident rename : Ident)
  | group (trees : List UseTree)
  | glob

/-! ## Attributes -/

/-- The content of an attribute.  Predicates stay opaque; a `cfg_attr` whose arguments do not parse
as a condition and entries is `other`. -/
inductive MetaItem where
  | cfg (predicate : String)
  | cfgAttr (condition : String) (entries : List MetaItem)
  | other (tokens : String)

structure Attribute where
  inner : Bool
  content : MetaItem

/-! ## Macros -/

/-- A path inside the tokens of a query: each segment with whether it has arguments. -/
structure QueryPath where
  leadingColon : Bool
  segments : List (Ident × Bool)
  deriving DecidableEq, Repr

/-- The tokens of an invocation, as far as the two query grammars read them: an optional `dyn`, an
interface group (by its key) and a path after a comma. -/
inductive Tokens where
  | query (dynamic : Bool) (interface : String) (path : Option QueryPath)
  | unparsed (text : String)
  deriving DecidableEq, Repr

structure Macro where
  path : ValuePath
  tokens : Tokens
  deriving DecidableEq, Repr

/-- `path.get_ident()` -/
def Macro.ident (mac : Macro) : Option Ident :=
  mac.path.single

/-! ## Patterns and items -/

inductive Pat where
  | ident (ident : Ident) (subpattern : Option Pat)
  | compound (elements : List Pat)
  | invocation (mac : Macro)
  | verbatim (tokens : String)
  /-- Wildcards, rests, literals, ranges and paths, which bind nothing. -/
  | constant (tokens : String)

inductive Item where
  | function (ident : Ident)
  | constItem (ident : Ident)
  | staticItem (ident : Ident)
  | structItem (ident : Ident) (namedFields : Bool)
  | useItem (tree : UseTree)
  | invocation (mac : Macro)
  /-- `extern { .. }` with the functions and statics it declares. -/
  | foreignMod (items : List Ident)
  /-- Items without a name in the value namespace. -/
  | other (tokens : String)

/-! ## Nodes -/

inductive Member where
  | named (ident : Ident)
  | unnamed (index : Nat)
  deriving DecidableEq, Repr

/-- A call the expansion puts in place of a query: a resolver of a local registration, or a typed
dispatch to a child. -/
inductive Generated where
  | resolver (target : Nat) (method : String)
  | dispatch (position : Nat) (path : List String) (interface : String) (operation : String)
      (inConstructor : Bool)
  deriving DecidableEq, Repr

/-- Expressions that no pass of this development treats in its own way. -/
inductive ExprKind where
  | array | assign | asyncBlock | awaitExpr | binary (op : String) | block (label : String)
  | breakExpr (label : String) | call | cast | constBlock | continueExpr (label : String)
  | field (member : Member) | group | index | infer | lit (tokens : String)
  | loopExpr (label : String) | matchOn | methodCall (method : Ident) | paren | range (closed : Bool)
  | rawAddr (mutable : Bool) | reference (mutable : Bool) | repeatExpr | returnExpr
  | structExpr (path : String)
  | tryExpr | tryBlock | tuple | unary (op : String) | unsafeBlock | yieldExpr
  | generated (call : Generated)
  deriving DecidableEq, Repr

inductive Form where
  /-- Children: the generic arguments, of the type forms below. -/
  | path (path : ValuePath)
  | invocation (mac : Macro)
  | verbatim (tokens : String)
  | closure (inputs : List Pat)
  /-- Children: the iterator and the `forBody`. -/
  | forLoop (label : String)
  | forBody (pat : Pat)
  /-- Children: a `branch` with the condition and the block it guards, and the `else` expression. -/
  | cond
  /-- Child: a `branch` with the condition and the body. -/
  | whileLoop (label : String)
  | branch
  | letCond (pat : Pat)
  | expr (kind : ExprKind)
  /-- The identifier bound to the captures; its span keeps it apart from every written name. -/
  | captureRoot
  /-- Children: the guard, if there is one, and the body. -/
  | arm (pat : Pat)
  | fieldValue (member : Member)
  /-- A field value without a colon, which is the variable of that name. -/
  | shorthand (ident : Ident)
  | block
  /-- Children: the initializer and the diverging block, as far as there are any. -/
  | localStmt (pat : Pat)
  | itemStmt (item : Item)
  | macroStmt (mac : Macro)
  | type (tokens : String)
  | typePath (path : ValuePath)
  | typeInvocation (mac : Macro)

/-- The children of a block are its statements; an expression statement is its expression, with
`semi` when a semicolon follows. -/
structure Label where
  form : Form
  attrs : List Attribute
  semi : Bool

abbrev Node : Type := Rose Label

end Syntax
end Systasis
