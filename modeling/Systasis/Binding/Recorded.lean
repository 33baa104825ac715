import Systasis.Binding.Annotated

/-!
# Recorded — recorded types and what is in scope

The history of a function up to its container: the parameters, the items of the body, and the
statements before the container, each with what it brings into scope.  The code sees patterns and the
items it has names for; a recorded type is right as long as nothing else shadows the variable.
-/

namespace Systasis
namespace Binding

open Syntax

variable {constants : Constants}

/-! ## Histories -/

/-- Something that brings names of the value namespace into scope. -/
inductive Event where
  /-- A pattern with its annotation, and the variables it binds. -/
  | pattern (p : Pat) (annotated : Option Ty) (bound : List (String × Shape))
  /-- A function, constant, static or constructor. -/
  | item (name : String)
  /-- Foreign items, imports, and what a macro expands to. -/
  | unseen (brought : Scope)

def Event.scope : Event → Scope
  | .pattern _ _ bound => entries bound
  | .item name => [(name, .item)]
  | .unseen brought => brought

/-- The name is written out as that of a variable or an item. -/
def Event.Writes (name : String) : Event → Prop
  | .pattern _ _ bound => name ∈ bound.map Prod.fst
  | .item other => name = other
  | .unseen _ => False

/-- The names that an import can bring. -/
inductive Imports : UseTree → String → Prop
  | path {ident : Ident} {tree : UseTree} {name : String} :
      Imports tree name → Imports (.path ident tree) name
  | name {ident : Ident} : Imports (.name ident) ident.name
  | rename {ident rename : Ident} : Imports (.rename ident rename) rename.name
  | group {trees : List UseTree} {tree : UseTree} {name : String} : tree ∈ trees →
      Imports tree name → Imports (.group trees) name
  | glob {name : String} : Imports .glob name

/-- What an item brings into the block it stands in. -/
inductive Brings (item : BlockItem) : Event → Prop
  | function {ident : Ident} : item.item = .function ident → Brings item (.item ident.name)
  | constItem {ident : Ident} : item.item = .constItem ident → Brings item (.item ident.name)
  | staticItem {ident : Ident} : item.item = .staticItem ident → Brings item (.item ident.name)
  | tupleStruct {ident : Ident} : item.item = .structItem ident false →
      Brings item (.item ident.name)
  /-- A struct with named fields has no constructor. -/
  | structItem {ident : Ident} : item.item = .structItem ident true → Brings item (.unseen [])
  | foreignMod {items : List Ident} : item.item = .foreignMod items →
      Brings item (.unseen (items.map fun ident => (ident.name, .item)))
  /-- Which of the names are values is not written in the import. -/
  | useItem {tree : UseTree} {brought : Scope} : item.item = .useItem tree →
      (∀ entry ∈ brought, Imports tree entry.1 ∧ entry.2 = .item) → Brings item (.unseen brought)
  | definition {mac : Macro} : item.item = .invocation mac →
      plainMacroDefinition item mac = true → Brings item (.unseen [])
  | invocation {mac : Macro} {brought : Scope} : item.item = .invocation mac →
      plainMacroDefinition item mac = false → (∀ entry ∈ brought, entry.2 = .item) →
      Brings item (.unseen brought)
  | other {tokens : String} : item.item = .other tokens → Brings item (.unseen [])

/-- The last that is written out for a name is a variable of this type, to which its annotation gives
the type; `later` is what comes after it. -/
structure Annotated (generics : List String) (name : String) (shape : Shape)
    (later history : List Event) : Prop where
  pattern : ∃ p annotated Γ earlier q ty, history = later ++ .pattern p annotated Γ :: earlier ∧
    (name, shape) ∈ Γ ∧ p.ascribed annotated = (q, some ty) ∧ Gives generics name q ty
  last : ∀ event ∈ later, ¬event.Writes name

/-- A type is recorded for exactly the variables with an annotation, and it is the variable's. -/
structure Agrees (constants : Constants) (generics : List String) (b : Bindings)
    (history : List Event) : Prop where
  genericNames : b.genericNames = generics
  types : ∀ name shape, (∃ t, b.types name = some (some t) ∧ t.shape constants = shape) ↔
    ∃ later, Annotated generics name shape later history
  nodup : ∀ p annotated Γ, .pattern p annotated Γ ∈ history → (Γ.map Prod.fst).Nodup

section Agrees

variable {generics : List String} {b b' : Bindings} {history : List Event}

end Agrees

end Binding
end Systasis
