import Systasis.Rebase.Hoist

/-!
# Denotation — what a relative path names, before and after the move

A path is resolved against the modules that enclose it, innermost first.  The move puts the
generated module between the inline modules of the moved source and the module it came from, and
changes nothing else, so a path keeps its meaning when it climbs one module further exactly if it
used to leave the moved source.
-/

namespace Systasis
namespace Rebase

variable {M : Type}

/-! ## Resolution -/

/-- What a path names: the modules `self` and `super` reach, with the segments that follow. -/
inductive Target (M : Type) where
  | global (path : List String)
  | crate (path : List String)
  | module (m : Option M) (path : List String)
  /-- A path that is looked up by name. -/
  | named (path : List String)
  deriving DecidableEq, Repr

/-- How many modules an anchored path climbs: `super` segments after an optional `self`. -/
def escape (idents : List String) : Option Nat :=
  if idents.head? = some "self" then
    some (parents idents.tail)
  else if parents idents = 0 then
    none
  else
    some (parents idents)

/-- What follows the anchor. -/
def remainder (idents : List String) : List String :=
  if idents.head? = some "self" then
    idents.tail.drop (parents idents.tail)
  else
    idents.drop (parents idents)

/-- The modules in scope are the enclosing ones, innermost first. -/
def resolve (scope : List M) (leadingColon : Bool) (idents : List String) : Target M :=
  if leadingColon then
    .global idents
  else
    match escape idents with
    | some k => .module scope[k]? (remainder idents)
    | none => if idents.head? = some "crate" then .crate idents.tail else .named idents

/-- How a leaf of a `use` tree binds what it names. -/
inductive LeafKind where
  | name
  | itself
  | rename (name : String)
  | glob
  deriving DecidableEq, Repr

mutual

/-- The paths a `use` tree imports.  `self` below a prefix names the prefix. -/
def leaves (root : Bool) : UseTree → List (List String × LeafKind)
  | .path ident tree => (leaves false tree).map fun leaf => (ident :: leaf.1, leaf.2)
  | .name ident => if ident = "self" ∧ root = false then [([], .itself)] else [([ident], .name)]
  | .rename ident rename =>
      if ident = "self" ∧ root = false then [([], .rename rename)]
      else [([ident], .rename rename)]
  | .glob => [([], .glob)]
  | .group items => leavesAll root items

def leavesAll (root : Bool) : List UseTree → List (List String × LeafKind)
  | [] => []
  | tree :: trees => leaves root tree ++ leavesAll root trees

end

/-! ## References -/

/-- One construct that mentions modules. -/
inductive Reference where
  /-- A path in a type, an expression, a pattern or a bound, with the position of its `QSelf`. -/
  | path (position : Option Nat) (leadingColon : Bool) (idents : List String)
  | visibility (inToken : Bool) (leadingColon : Bool) (idents : List String)
  | use (leadingColon : Bool) (tree : UseTree)

inductive Meaning (M : Type) where
  /-- The method receiver `self`. -/
  | receiver
  | path (target : Target M)
  /-- `<T as target>::associated` -/
  | qualified (target : Target M) (associated : List String)
  | visibility (target : Target M)
  | use (leaves : List (Target M × LeafKind))
  deriving DecidableEq, Repr

def Reference.meaning (scope : List M) : Reference → Meaning M
  | .path none leadingColon idents =>
      if idents = ["self"] then .receiver else .path (resolve scope leadingColon idents)
  | .path (some position) leadingColon idents =>
      .qualified (resolve scope leadingColon (idents.take position)) (idents.drop position)
  | .visibility _ leadingColon idents => .visibility (resolve scope leadingColon idents)
  | .use leadingColon tree =>
      .use ((leaves true tree).map fun leaf => (resolve scope leadingColon leaf.1, leaf.2))

/-- A restricted visibility without `in` admits one keyword only. -/
def Reference.Grammatical : Reference → Prop
  | .visibility false leadingColon idents =>
      leadingColon = false ∧ (idents = ["crate"] ∨ idents = ["self"] ∨ idents = ["super"])
  | _ => True

/-- A reference with the inline modules around it, and how far the visitor's counter is ahead of
them; a position that is not visited has no counter. -/
structure Occurrence (M : Type) where
  inner : List M
  drift : Option Nat
  reference : Reference

def visibilityOccurrences (drift : Option Nat) (inner : List M) : Visibility → List (Occurrence M)
  | .restricted inToken leadingColon path => [⟨inner, drift, .visibility inToken leadingColon path⟩]
  | _ => []

mutual

/-- The references of a tree, in the order of the visit. -/
def occurrences (drift : Option Nat) (inner : List M) : Node M → List (Occurrence M)
  | .path qself position leadingColon segments =>
      occurrencesAll drift inner qself ++ segmentOccurrences drift inner segments ++
        [⟨inner, drift, .path (if qself.isEmpty then none else some position) leadingColon
          (segments.map Segment.ident)⟩]
  | .item _ attrs vis children =>
      occurrencesAll drift inner attrs ++ visibilityOccurrences drift inner vis ++
        occurrencesAll drift inner children
  | .field attrs vis children =>
      occurrencesAll drift inner attrs ++ visibilityOccurrences drift inner vis ++
        occurrencesAll drift inner children
  -- The header of a module stands outside it, but is visited with the counter raised.
  | .itemMod id attrs vis content =>
      occurrencesAll (drift.map (· + 1)) inner attrs ++
        visibilityOccurrences (drift.map (· + 1)) inner vis ++
        occurrencesAll drift (id :: inner) content
  -- Of an import only the tree is visited.
  | .itemUse attrs vis leadingColon tree =>
      occurrencesAll none inner attrs ++ visibilityOccurrences none inner vis ++
        [⟨inner, drift, .use leadingColon tree⟩]
  | .other children => occurrencesAll drift inner children

def occurrencesAll (drift : Option Nat) (inner : List M) : List (Node M) → List (Occurrence M)
  | [] => []
  | node :: nodes => occurrences drift inner node ++ occurrencesAll drift inner nodes

def segmentOccurrences (drift : Option Nat) (inner : List M) :
    List (Segment M) → List (Occurrence M)
  | [] => []
  | .mk _ arguments :: segments =>
      occurrencesAll drift inner arguments ++ segmentOccurrences drift inner segments

end

/-! ## What the visitor does to a reference -/

def Reference.rewrite (nestedModules : Nat) : Reference → Reference
  | .path position leadingColon idents =>
      .path position leadingColon ((change nestedModules leadingColon idents).idents idents)
  | .visibility inToken leadingColon idents =>
      .visibility inToken leadingColon ((change nestedModules leadingColon idents).idents idents)
  | .use leadingColon tree =>
      .use leadingColon (if leadingColon then tree else useTree nestedModules tree)

def Occurrence.rewrite (o : Occurrence M) : Occurrence M :=
  match o.drift with
  | none => o
  | some ahead => { o with reference := o.reference.rewrite (o.inner.length + ahead) }

theorem map_ident_visitSegments (nestedModules : Nat) (segments : List (Segment M)) :
    (visitSegments nestedModules segments).map Segment.ident = segments.map Segment.ident := by
  induction segments with
  | nil => simp [visitSegments]
  | cons segment segments ih =>
      cases segment with
      | mk ident arguments => simpa [visitSegments, Segment.ident] using ih

theorem map_ident_segments (c : Change) (segments : List (Segment M)) :
    (c.segments segments).map Segment.ident = c.idents (segments.map Segment.ident) := by
  cases c with
  | keep => rfl
  | insert => rfl
  | rename =>
      cases segments with
      | nil => rfl
      | cons segment segments =>
          cases segment with
          | mk ident arguments => rfl

theorem segmentOccurrences_change (drift : Option Nat) (inner : List M) (c : Change)
    (segments : List (Segment M)) :
    segmentOccurrences drift inner (c.segments segments) =
      segmentOccurrences drift inner segments := by
  cases c with
  | keep => rfl
  | insert => simp [Change.segments, segmentOccurrences, occurrencesAll]
  | rename =>
      cases segments with
      | nil => rfl
      | cons segment segments =>
          cases segment with
          | mk ident arguments => simp [Change.segments, segmentOccurrences]

theorem isEmpty_visitAll (nestedModules : Nat) (nodes : List (Node M)) :
    (visitAll nestedModules nodes).isEmpty = nodes.isEmpty := by
  cases nodes <;> simp [visitAll]

theorem visibilityOccurrences_visit (ahead : Nat) (inner : List M) (vis : Visibility) :
    visibilityOccurrences (some ahead) inner (visitVisibility (inner.length + ahead) vis) =
      (visibilityOccurrences (some ahead) inner vis).map Occurrence.rewrite := by
  cases vis <;> simp [visitVisibility, visibilityOccurrences, Occurrence.rewrite, Reference.rewrite]

theorem visibilityOccurrences_unvisited (inner : List M) (vis : Visibility) :
    (visibilityOccurrences none inner vis).map Occurrence.rewrite =
      visibilityOccurrences none inner vis := by
  cases vis <;> simp [visibilityOccurrences, Occurrence.rewrite]

mutual

/-- A position that is not visited keeps its references. -/
theorem occurrences_unvisited (inner : List M) (node : Node M) :
    (occurrences none inner node).map Occurrence.rewrite = occurrences none inner node := by
  cases node with
  | path qself position leadingColon segments =>
      simp [occurrences, occurrencesAll_unvisited inner qself,
        segmentOccurrences_unvisited inner segments, Occurrence.rewrite]
  | item kind attrs vis children =>
      simp [occurrences, occurrencesAll_unvisited inner attrs,
        visibilityOccurrences_unvisited inner vis, occurrencesAll_unvisited inner children]
  | field attrs vis children =>
      simp [occurrences, occurrencesAll_unvisited inner attrs,
        visibilityOccurrences_unvisited inner vis, occurrencesAll_unvisited inner children]
  | itemMod id attrs vis content =>
      simp [occurrences, occurrencesAll_unvisited inner attrs,
        visibilityOccurrences_unvisited inner vis, occurrencesAll_unvisited (id :: inner) content]
  | itemUse attrs vis leadingColon tree =>
      simp [occurrences, occurrencesAll_unvisited inner attrs,
        visibilityOccurrences_unvisited inner vis, Occurrence.rewrite]
  | other children => simp [occurrences, occurrencesAll_unvisited inner children]

theorem occurrencesAll_unvisited (inner : List M) (nodes : List (Node M)) :
    (occurrencesAll none inner nodes).map Occurrence.rewrite = occurrencesAll none inner nodes := by
  cases nodes with
  | nil => simp [occurrencesAll]
  | cons node nodes =>
      simp [occurrencesAll, occurrences_unvisited inner node, occurrencesAll_unvisited inner nodes]

theorem segmentOccurrences_unvisited (inner : List M) (segments : List (Segment M)) :
    (segmentOccurrences none inner segments).map Occurrence.rewrite =
      segmentOccurrences none inner segments := by
  cases segments with
  | nil => simp [segmentOccurrences]
  | cons segment segments =>
      cases segment with
      | mk ident arguments =>
          simp [segmentOccurrences, occurrencesAll_unvisited inner arguments,
            segmentOccurrences_unvisited inner segments]

end

mutual

/-- The references of the visited tree are the rewritten references of the tree, one by one. -/
theorem occurrences_visit (ahead : Nat) (inner : List M) (node : Node M) :
    occurrences (some ahead) inner (visit (inner.length + ahead) node) =
      (occurrences (some ahead) inner node).map Occurrence.rewrite := by
  cases node with
  | path qself position leadingColon segments =>
      simp [visit, occurrences, occurrencesAll_visit ahead inner qself,
        segmentOccurrences_change, segmentOccurrences_visit ahead inner segments,
        isEmpty_visitAll, map_ident_segments, map_ident_visitSegments, Occurrence.rewrite,
        Reference.rewrite]
  | item kind attrs vis children =>
      simp [visit, occurrences, occurrencesAll_visit ahead inner attrs,
        visibilityOccurrences_visit, occurrencesAll_visit ahead inner children]
  | field attrs vis children =>
      simp [visit, occurrences, occurrencesAll_visit ahead inner attrs,
        visibilityOccurrences_visit, occurrencesAll_visit ahead inner children]
  | itemMod id attrs vis content =>
      have hattrs := occurrencesAll_visit (ahead + 1) inner attrs
      have hvis := visibilityOccurrences_visit (ahead + 1) inner vis
      have hcontent := occurrencesAll_visit ahead (id :: inner) content
      have hlength : (id :: inner).length + ahead = inner.length + ahead + 1 := by
        simp [Nat.add_right_comm]
      rw [hlength] at hcontent
      simp only [← Nat.add_assoc] at hattrs hvis
      simp [visit, occurrences, hattrs, hvis, hcontent]
  | itemUse attrs vis leadingColon tree =>
      simp [visit, occurrences, occurrencesAll_unvisited, visibilityOccurrences_unvisited,
        Occurrence.rewrite, Reference.rewrite]
  | other children => simp [visit, occurrences, occurrencesAll_visit ahead inner children]

theorem occurrencesAll_visit (ahead : Nat) (inner : List M) (nodes : List (Node M)) :
    occurrencesAll (some ahead) inner (visitAll (inner.length + ahead) nodes) =
      (occurrencesAll (some ahead) inner nodes).map Occurrence.rewrite := by
  cases nodes with
  | nil => simp [visitAll, occurrencesAll]
  | cons node nodes =>
      simp [visitAll, occurrencesAll, occurrences_visit ahead inner node,
        occurrencesAll_visit ahead inner nodes]

theorem segmentOccurrences_visit (ahead : Nat) (inner : List M) (segments : List (Segment M)) :
    segmentOccurrences (some ahead) inner (visitSegments (inner.length + ahead) segments) =
      (segmentOccurrences (some ahead) inner segments).map Occurrence.rewrite := by
  cases segments with
  | nil => simp [visitSegments, segmentOccurrences]
  | cons segment segments =>
      cases segment with
      | mk ident arguments =>
          simp [visitSegments, segmentOccurrences, occurrencesAll_visit ahead inner arguments,
            segmentOccurrences_visit ahead inner segments]

end

end Rebase
end Systasis
