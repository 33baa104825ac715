import Systasis.Syntax

/-!
# Visitor — reconstructing the captures of a constructor

Model of `reconstruct` and of its `Visitor` in `systasis-macros/src/captures.rs`.  The visitor goes
through the closure once with a stack of scopes and replaces every name that no scope binds and the
enclosing function does by a field of the captures.
-/

namespace Systasis
namespace Captures

open Syntax

/-- The part of `Bindings` that `reconstruct` reads: the names of the enclosing function, each with
its type if that could be determined. -/
structure Bindings where
  types : String → Option (Option Node)
  uncertain : Bool

def Bindings.containsKey (bindings : Bindings) (name : String) : Bool :=
  (bindings.types name).isSome

/-! ## Names introduced by patterns, imports and items -/

mutual

/-- `pattern_names`: the names, and whether some of them are unknown. -/
def patternNames : Pat → List String × Bool
  | .ident ident none => ([ident.name], false)
  | .ident ident (some subpattern) =>
      let (names, unknown) := patternNames subpattern
      (ident.name :: names, unknown)
  | .compound elements => patternsNames elements
  | .invocation _ => ([], true)
  | .verbatim _ => ([], true)
  | .constant _ => ([], false)

def patternsNames : List Pat → List String × Bool
  | [] => ([], false)
  | pattern :: rest =>
      let (names, unknown) := patternNames pattern
      let (others, unknowns) := patternsNames rest
      (names ++ others, unknown || unknowns)

end

mutual

/-- `import_names`: the names, and whether all of them are known. -/
def importNames : UseTree → List String × Bool
  | .path _ tree => importNames tree
  | .name ident => if ident.is "self" then ([], false) else ([ident.name], true)
  | .rename _ rename => ([rename.name], true)
  | .group trees => importsNames trees
  | .glob => ([], false)

/-- `group.items.iter().all(..)`, which stops at the first tree that is not known. -/
def importsNames : List UseTree → List String × Bool
  | [] => ([], true)
  | tree :: rest =>
      let (names, known) := importNames tree
      if known then
        let (others, knowns) := importsNames rest
        (names ++ others, knowns)
      else (names, false)

end

mutual

def containsGlob : UseTree → Bool
  | .glob => true
  | .path _ tree => containsGlob tree
  | .group trees => anyContainsGlob trees
  | .name _ => false
  | .rename _ _ => false

def anyContainsGlob : List UseTree → Bool
  | [] => false
  | tree :: rest => containsGlob tree || anyContainsGlob rest

end

def itemName : Item → Option Ident
  | .function ident => some ident
  | .constItem ident => some ident
  | .staticItem ident => some ident
  | .structItem ident false => some ident
  | _ => none

/-! ## The visitor -/

/-- The innermost scope comes first. -/
structure Visitor where
  scopes : List (List String)
  globScopes : List (Option UseTree)
  captures : List (Ident × Node)
  errors : List String

namespace Visitor

def reject (v : Visitor) (message : String) : Visitor :=
  { v with errors := v.errors ++ [message] }

def push (v : Visitor) (scope : List String) : Visitor :=
  { v with scopes := scope :: v.scopes }

def pop (v : Visitor) : Visitor :=
  { v with scopes := v.scopes.tail }

def pushGlob (v : Visitor) (glob : Option UseTree) : Visitor :=
  { v with globScopes := glob :: v.globScopes }

def popGlob (v : Visitor) : Visitor :=
  { v with globScopes := v.globScopes.tail }

/-- `pattern_names(pattern, scope)`, which inserts into the innermost scope. -/
def insert (v : Visitor) (names : List String) : Visitor :=
  match v.scopes with
  | scope :: scopes => { v with scopes := (names ++ scope) :: scopes }
  | [] => v

def bind (v : Visitor) (pattern : Pat) : Visitor :=
  let (names, unknown) := patternNames pattern
  let v := v.insert names
  if unknown then
    v.reject "constructor capture analysis cannot inspect this pattern macro"
  else v

def bindAll (v : Visitor) (patterns : List Pat) : Visitor :=
  patterns.foldl bind v

/-- `capture_index` -/
def captureIndex (bindings : Bindings) (ident : Ident) (v : Visitor) : Option Nat × Visitor :=
  if v.scopes.any fun scope => scope.contains ident.name then (none, v)
  else
    match bindings.types ident.name with
    | none => (none, v)
    | some annotation =>
        if v.globScopes.any Option.isSome then
          (none, v.reject "constructor capture analysis cannot determine whether this glob import shadows the referenced outer binding")
        else
          match annotation with
          | none =>
              (none, v.reject "captured constructor bindings require an explicit type annotation from which the binding's type can be determined")
          | some ty =>
              -- One field for each name, however often it is used.
              match v.captures.findIdx? fun capture => capture.1.name == ident.name with
              | some index => (some index, v)
              | none => (some v.captures.length, { v with captures := v.captures ++ [(ident, ty)] })

end Visitor

/-- What `visit_block_mut` collects from the items of a block before it visits the statements. -/
def declareItem (bindings : Bindings) (state : List String × Option UseTree × Visitor)
    (item : Item) : List String × Option UseTree × Visitor :=
  let (scope, glob, v) := state
  let scope := match itemName item with
    | some ident => ident.name :: scope
    | none => scope
  match item with
  | .useItem tree =>
      -- A later glob replaces an earlier one of the same block.
      if containsGlob tree then (scope, some tree, v)
      else
        let (imported, known) := importNames tree
        if !known || imported.any bindings.containsKey then
          (scope, glob,
            v.reject "constructor capture analysis cannot resolve this block-local import")
        else (imported ++ scope, glob, v)
  | .invocation _ =>
      (scope, glob,
        v.reject "constructor capture analysis cannot inspect block-local imports or item macros")
  | _ => (scope, glob, v)

/-- The items among the statements of a block. -/
def blockItems (statements : List Node) : List Item :=
  statements.filterMap fun statement =>
    match statement with
    | .node ⟨.itemStmt item, _, _⟩ _ => some item
    | _ => none

def declare (bindings : Bindings) (items : List Item) (v : Visitor) :
    List String × Option UseTree × Visitor :=
  items.foldl (declareItem bindings) ([], none, v)

/-- `#(#attrs)* #root.#index` -/
def captureField (attrs : List Attribute) (semi : Bool) (index : Nat) : Node :=
  .node ⟨.expr (.field (.unnamed index)), attrs, semi⟩ [.node ⟨.captureRoot, [], false⟩ []]

mutual

/-- `visit_expr_mut` and the other overridden methods, by the form of the node. -/
def visit (bindings : Bindings) : Node → Visitor → Node × Visitor
  | .node ⟨form, attrs, semi⟩ children, v =>
      match form with
      | .path path =>
          -- The children are generic arguments, which `visit_type_mut` leaves alone.
          match path.single with
          | some ident =>
              match v.captureIndex bindings ident with
              | (some index, v) => (captureField attrs semi index, v)
              | (none, v) => (.node ⟨form, attrs, semi⟩ children, v)
          | none => (.node ⟨form, attrs, semi⟩ children, v)
      | .invocation _ | .macroStmt _ =>
          (.node ⟨form, attrs, semi⟩ children,
            v.reject "constructor capture analysis cannot inspect opaque macros")
      | .verbatim _ =>
          (.node ⟨form, attrs, semi⟩ children,
            v.reject "constructor capture analysis cannot inspect this syntax")
      -- `visit_expr_closure_mut`
      | .closure inputs =>
          let v := ((v.push []).pushGlob none).bindAll inputs
          let (children, v) := visitAll bindings children v
          (.node ⟨form, attrs, semi⟩ children, v.pop.popGlob)
      -- The scope of a loop body or an arm, with the guard of the arm.
      | .forBody pat | .arm pat =>
          let (children, v) := visitAll bindings children ((v.push []).bind pat)
          (.node ⟨form, attrs, semi⟩ children, v.pop)
      -- A condition and what it guards share a scope, for the names of `let` conditions.
      | .branch =>
          let (children, v) := visitAll bindings children (v.push [])
          (.node ⟨form, attrs, semi⟩ children, v.pop)
      -- The initializer comes before the names it initializes.
      | .letCond pat | .localStmt pat =>
          let (children, v) := visitAll bindings children v
          (.node ⟨form, attrs, semi⟩ children, v.bind pat)
      -- Items are in scope throughout the block, before their declaration.
      | .block =>
          let (scope, glob, v) := declare bindings (blockItems children) v
          let (children, v) := visitAll bindings children ((v.push scope).pushGlob glob)
          (.node ⟨form, attrs, semi⟩ children, v.pop.popGlob)
      -- `visit_field_value_mut`: a rewritten shorthand needs its colon.
      | .shorthand ident =>
          match v.captureIndex bindings ident with
          | (some index, v) =>
              (.node ⟨.fieldValue (.named ident), attrs, semi⟩ [captureField [] false index], v)
          | (none, v) => (.node ⟨form, attrs, semi⟩ children, v)
      -- `visit_item_mut` and `visit_type_mut` have empty bodies.
      | .itemStmt _ | .type _ | .typePath _ | .typeInvocation _ | .captureRoot =>
          (.node ⟨form, attrs, semi⟩ children, v)
      | .forLoop _ | .cond | .whileLoop _ | .expr _ | .fieldValue _ =>
          let (children, v) := visitAll bindings children v
          (.node ⟨form, attrs, semi⟩ children, v)

def visitAll (bindings : Bindings) : List Node → Visitor → List Node × Visitor
  | [], v => ([], v)
  | node :: rest, v =>
      let (node, v) := visit bindings node v
      let (rest, v) := visitAll bindings rest v
      (node :: rest, v)

end

/-! ## Reconstruction -/

mutual

/-- `CaptureProjection` -/
def projects : Node → Bool
  | .node ⟨.typePath path, _, _⟩ children =>
      (path.qself && (path.segments.head?.any fun segment => segment.is "__systasis_injected") &&
          path.segments.any fun segment =>
            !segment.raw && "__systasis_Capture".isPrefixOf segment.name) ||
        anyProjects children
  | .node _ children => anyProjects children

def anyProjects : List Node → Bool
  | [] => false
  | node :: rest => projects node || anyProjects rest

end

structure Plan where
  captures : List (Ident × Node)
  closure : Node
  requiresRecord : Bool
  native : Bool

def reconstruct (closure : Node) (bindings : Bindings) : Except (List String) Plan :=
  if bindings.uncertain then
    .error ["constructor capture analysis cannot inspect bindings introduced by opaque macros or function-local imports"]
  else
    let (closure, v) := visit bindings closure ⟨[[]], [none], [], []⟩
    if v.errors = [] then
      .ok
        { captures := v.captures
          closure
          requiresRecord := v.captures.any fun capture => projects capture.2
          native := false }
    else .error v.errors

end Captures
end Systasis
