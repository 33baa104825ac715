import Mathlib.Data.List.Basic

/-!
# Hoist — moving source into one generated module

Model of `systasis-macros/src/rebase.rs`.  The visitor only treats paths, `use` trees, inline
modules and restricted visibilities; every other node of the syntax is traversed by default and
appears here as a node with children.  Identifiers are strings, and an inline module carries the
identity by which the meaning of a path refers to it.
-/

namespace Systasis
namespace Rebase

/-! ## Syntax -/

/-- `syn::UseTree` -/
inductive UseTree where
  | path (ident : String) (tree : UseTree)
  | name (ident : String)
  | rename (ident : String) (rename : String)
  | glob
  | group (items : List UseTree)
  deriving Repr

/-- `syn::Visibility`; the path of a restricted one has no generic arguments. -/
inductive Visibility where
  | inherited
  | pub
  | restricted (inToken : Bool) (leadingColon : Bool) (path : List String)
  deriving DecidableEq, Repr

/-- The kinds of item `item_visibility` distinguishes. -/
inductive ItemKind where
  | fn
  | struct
  | type
  | trait
  | const
  | other
  deriving DecidableEq, Repr

mutual

inductive Node (M : Type) where
  /-- A path, with the type and the position of its `QSelf` when it is qualified. -/
  | path (qself : List (Node M)) (position : Nat) (leadingColon : Bool)
      (segments : List (Segment M))
  | item (kind : ItemKind) (attrs : List (Node M)) (vis : Visibility) (children : List (Node M))
  | field (attrs : List (Node M)) (vis : Visibility) (children : List (Node M))
  | itemMod (id : M) (attrs : List (Node M)) (vis : Visibility) (content : List (Node M))
  | itemUse (attrs : List (Node M)) (vis : Visibility) (leadingColon : Bool) (tree : UseTree)
  | other (children : List (Node M))

inductive Segment (M : Type) where
  | mk (ident : String) (arguments : List (Node M))

end

def Segment.ident {M : Type} : Segment M → String
  | .mk ident _ => ident

/-! ## Paths -/

/-- What `visit_path_mut` does to the segments of a path. -/
inductive Change where
  | keep
  | insert
  | rename
  deriving DecidableEq, Repr

/-- Leading `super` segments. -/
def parents (idents : List String) : Nat :=
  (idents.takeWhile (· == "super")).length

/-- The decision of `visit_path_mut` after its subtrees are visited. -/
def change (nestedModules : Nat) (leadingColon : Bool) (idents : List String) : Change :=
  if leadingColon then
    .keep
  -- The path climbs out of every module that moves with it.
  else if 0 < parents idents ∧ nestedModules ≤ parents idents then
    .insert
  else if nestedModules = 0 ∧ 1 < idents.length ∧ idents.head? = some "self" then
    .rename
  else
    .keep

def Change.idents : Change → List String → List String
  | .keep, idents => idents
  | .insert, idents => "super" :: idents
  | .rename, _ :: idents => "super" :: idents
  | .rename, [] => []

def Change.segments {M : Type} : Change → List (Segment M) → List (Segment M)
  | .keep, segments => segments
  | .insert, segments => .mk "super" [] :: segments
  | .rename, .mk _ arguments :: segments => .mk "super" arguments :: segments
  | .rename, [] => []

/-! ## `use` trees -/

/-- The `super` segments a tree begins with. -/
def UseTree.parents : UseTree → Nat
  | .path ident tree => if ident = "super" then tree.parents + 1 else 0
  | _ => 0

/-- The rewriting of a tree that is not a group. -/
def useTreePath (nestedModules : Nat) (tree : UseTree) : UseTree :=
  if 0 < tree.parents ∧ nestedModules ≤ tree.parents then
    .path "super" tree
  else
    match nestedModules, tree with
    | 0, .path ident rest => if ident = "self" then .path "super" rest else tree
    | _, _ => tree

mutual

/-- `Rebase::use_tree` -/
def useTree (nestedModules : Nat) : UseTree → UseTree
  | .group items => .group (useTrees nestedModules items)
  | .path ident tree => useTreePath nestedModules (.path ident tree)
  | .name ident => useTreePath nestedModules (.name ident)
  | .rename ident rename => useTreePath nestedModules (.rename ident rename)
  | .glob => useTreePath nestedModules .glob

def useTrees (nestedModules : Nat) : List UseTree → List UseTree
  | [] => []
  | tree :: trees => useTree nestedModules tree :: useTrees nestedModules trees

end

/-! ## The visitor -/

def visitVisibility (nestedModules : Nat) : Visibility → Visibility
  | .restricted inToken leadingColon path =>
      .restricted inToken leadingColon ((change nestedModules leadingColon path).idents path)
  | vis => vis

variable {M : Type}

mutual

/-- `Rebase::visit_item_mut` and the visits it makes by default. -/
def visit (nestedModules : Nat) : Node M → Node M
  -- The subtrees first, then the segments; `position` counts segments and stays.
  | .path qself position leadingColon segments =>
      .path (visitAll nestedModules qself) position leadingColon
        ((change nestedModules leadingColon (segments.map Segment.ident)).segments
          (visitSegments nestedModules segments))
  | .item kind attrs vis children =>
      .item kind (visitAll nestedModules attrs) (visitVisibility nestedModules vis)
        (visitAll nestedModules children)
  | .field attrs vis children =>
      .field (visitAll nestedModules attrs) (visitVisibility nestedModules vis)
        (visitAll nestedModules children)
  -- The counter is raised before the attributes and the visibility of the module are visited.
  | .itemMod id attrs vis content =>
      .itemMod id (visitAll (nestedModules + 1) attrs) (visitVisibility (nestedModules + 1) vis)
        (visitAll (nestedModules + 1) content)
  -- `visit_item_use_mut` treats the tree and nothing else.
  | .itemUse attrs vis leadingColon tree =>
      .itemUse attrs vis leadingColon (if leadingColon then tree else useTree nestedModules tree)
  | .other children => .other (visitAll nestedModules children)

def visitAll (nestedModules : Nat) : List (Node M) → List (Node M)
  | [] => []
  | node :: nodes => visit nestedModules node :: visitAll nestedModules nodes

def visitSegments (nestedModules : Nat) : List (Segment M) → List (Segment M)
  | [] => []
  | .mk ident arguments :: segments =>
      .mk ident (visitAll nestedModules arguments) :: visitSegments nestedModules segments

end

/-! ## The generated module -/

/-- The import `use super::*` of the generated module itself. -/
def isParentImport : Node M → Bool
  | .itemUse _ _ _ (.path ident .glob) => ident == "super"
  | _ => false

/-- `item_visibility` is defined on these kinds. -/
def ItemKind.restored : ItemKind → Bool
  | .other => false
  | _ => true

/-- Copies the visibilities of fields back. -/
def restoreFields : List (Node M) → List (Node M) → List (Node M)
  | .field _ vis _ :: originals, .field attrs _ children :: nodes =>
      .field attrs vis children :: restoreFields originals nodes
  | _ :: originals, node :: nodes => node :: restoreFields originals nodes
  | _, nodes => nodes

/-- Puts back the visibilities the generator chose. -/
def restore : Node M → Node M → Node M
  | .item kind _ vis originals, .item _ attrs current children =>
      .item kind attrs (if kind.restored then vis else current)
        (if kind = .struct then restoreFields originals children else children)
  | _, node => node

/-- The body of the loop of `generated_module`. -/
def rebaseItem (item : Node M) : Node M :=
  if isParentImport item then item else restore item (visit 0 item)

def generatedModule (items : List (Node M)) : List (Node M) :=
  items.map rebaseItem

end Rebase
end Systasis
