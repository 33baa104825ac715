import Mathlib.Algebra.Group.Nat.Defs
import Systasis.Captures.Visitor

/-!
# Observe — the types of the bindings before a container

Model of `Bindings` in `systasis-macros/src/captures.rs`: the parameters of the function and the
statements before the container are observed in order, and each name is recorded with its type where
the annotation of its pattern determines it.

An observation of a pattern reads nothing of `Bindings` but the generic names, so it is given by the
updates it makes, in order.  It is `none` where a subtraction would underflow or an index would be
out of range.  The arms of the source that only take off a layer of the annotation (parentheses,
groups, and references under a tuple or slice pattern) are the functions `Ty.ungroup` and `Ty.peel`.
-/

namespace Systasis
namespace Binding

open Syntax

/-! ## Types -/

/-- A path segment; `plain` when it has no arguments. -/
structure Segment where
  ident : Ident
  plain : Bool
  deriving DecidableEq, Repr

inductive BinOp where
  | sub
  | other (op : String)
  deriving DecidableEq, Repr

/-- The length of an array type. -/
inductive Length where
  | int (value : Nat)
  /-- A literal that is not an integer. -/
  | literal (tokens : String)
  | path (qself : Bool) (segments : List Segment)
  | binary (op : BinOp) (left right : Length)
  | unary (op : String) (operand : Length)
  | paren (inner : Length)
  | group (inner : Length)
  | other (tokens : String)
  deriving DecidableEq, Repr

/-- Written types, and the projections the macro puts around them. -/
inductive Ty where
  | paren (elem : Ty)
  | group (elem : Ty)
  | reference (lifetime : Option String) (mutable : Bool) (elem : Ty)
  | tuple (elems : List Ty)
  | array (elem : Ty) (len : Length)
  | slice (elem : Ty)
  | path (segments : List Segment)
  /-- A path with a `qself` that is written in the source. -/
  | qualified (tokens : String)
  | other (tokens : String)
  /-- `<source as __systasis_CaptureTuple{arity}_{index}>::Output` -/
  | tupleElement (arity index : Nat) (source : Ty)
  /-- `<source as __systasis_CaptureElement>::Output` -/
  | element (source : Ty)
  /-- `<source as __systasis_CaptureWholeSequence>::Output` -/
  | wholeSequence (source : Ty)
  /-- `<source as __systasis_CaptureArrayTail<{<annotation as __systasis_CaptureLength<explicit>>
  ::REMAINING}>>::Output` -/
  | arrayTail (annotated : Ty) (explicit : Nat) (source : Ty)
  /-- `<source as __systasis_CaptureSliceTail>::Output` -/
  | sliceTail (source : Ty)
  /-- `<source as ::core::ops::Deref>::Target` -/
  | derefTarget (source : Ty)

/-- `Type::Path` -/
def Ty.isPath : Ty → Bool
  | .path _ => true
  | .qualified _ => true
  | .tupleElement _ _ _ => true
  | .element _ => true
  | .wholeSequence _ => true
  | .arrayTail _ _ _ => true
  | .sliceTail _ => true
  | .derefTarget _ => true
  | _ => false

inductive BindingMode where
  | move
  | ref
  | refMut
  deriving DecidableEq, Repr

def BindingMode.dereferenced : BindingMode → Bool → BindingMode
  | .ref, _ => .ref
  | _, false => .ref
  | _, true => .refMut

def BindingMode.boundType : BindingMode → Ty → Ty
  | .move, annotated => annotated
  | .ref, annotated => .reference (some "_") false annotated
  | .refMut, annotated => .reference (some "_") true annotated

/-- An annotation under its parentheses and groups. -/
def Ty.ungroup : Ty → Ty
  | .paren elem => elem.ungroup
  | .group elem => elem.ungroup
  | annotated => annotated

/-- What a tuple or slice pattern meets in an annotation, with the binding mode there. -/
def Ty.peel : Ty → BindingMode → Ty × BindingMode
  | .paren elem, mode => elem.peel mode
  | .group elem, mode => elem.peel mode
  | .reference _ mutable elem, mode => elem.peel (mode.dereferenced mutable)
  | annotated, mode => (annotated, mode)

/-- `integer.base10_parse::<usize>().ok()` of a literal length. -/
def Length.literalLength : Length → Option Nat
  | .int value => if value < 2 ^ 64 then some value else none
  | _ => none

def concreteLength (generics : List String) : Length → Bool
  | .int _ => true
  | .literal _ => true
  | .path qself segments =>
      !qself && segments.all fun segment =>
        !segment.ident.is "Self" && !generics.contains segment.ident.name && segment.plain
  | .binary _ left right => concreteLength generics left && concreteLength generics right
  | .unary _ operand => concreteLength generics operand
  | .paren inner => concreteLength generics inner
  | .group inner => concreteLength generics inner
  | .other _ => false

/-- Whether an alias permits the associated constant of the remainder. -/
def Ty.concrete (generics : List String) : Ty → Bool
  | .path segments =>
      segments.all fun segment => !generics.contains segment.ident.name && segment.plain
  | _ => false

/-! ## Patterns -/

inductive Pat where
  | ident (byRef mutable : Bool) (ident : Ident) (subpattern : Option Pat)
  | wild
  | rest
  | paren (pattern : Pat)
  | reference (mutable : Bool) (pattern : Pat)
  | tuple (elements : List Pat)
  | slice (elements : List Pat)
  | typed (pattern : Pat) (ty : Ty)
  /-- Structs, tuple structs, alternatives and guards. -/
  | compound (elements : List Pat)
  | invocation (mac : Macro)
  | verbatim (tokens : String)
  /-- Literals, ranges and paths. -/
  | constant (tokens : String)

mutual

/-- The pattern as the passes over bodies see it. -/
def Pat.erase : Pat → Syntax.Pat
  | .ident _ _ name none => .ident name none
  | .ident _ _ name (some subpattern) => .ident name (some subpattern.erase)
  | .wild => .constant "_"
  | .rest => .constant ".."
  | .paren pattern => .compound [pattern.erase]
  | .reference _ pattern => .compound [pattern.erase]
  | .tuple elements => .compound (Pat.eraseAll elements)
  | .slice elements => .compound (Pat.eraseAll elements)
  | .typed pattern _ => .compound [pattern.erase]
  | .compound elements => .compound (Pat.eraseAll elements)
  | .invocation mac => .invocation mac
  | .verbatim tokens => .verbatim tokens
  | .constant tokens => .constant tokens

def Pat.eraseAll : List Pat → List Syntax.Pat
  | [] => []
  | first :: others => first.erase :: Pat.eraseAll others

end

def Pat.isRest : Pat → Bool
  | .rest => true
  | _ => false

def sliceRest : Pat → Bool
  | .rest => true
  | .ident _ _ _ (some .rest) => true
  | _ => false

/-! ## Observing an annotated pattern -/

inductive Update where
  | insert (name : String) (ty : Ty)
  | tupleProjection (arity index : Nat)
  | sequenceProjections

/-- A subtraction of `usize`. -/
def checkedSub (a b : Nat) : Option Nat :=
  if b ≤ a then some (a - b) else none

/-- The mode of a binding with explicit modifiers. -/
def BindingMode.explicit (byRef mutable : Bool) (mode : BindingMode) : BindingMode :=
  match byRef, mutable with
  | true, true => .refMut
  | true, false => .ref
  | false, true => .move
  | false, false => mode

def observeIdent (byRef mutable : Bool) (ident : Ident) (annotated : Ty) (mode : BindingMode) :
    List Update :=
  [.insert ident.name ((mode.explicit byRef mutable).boundType annotated.ungroup)]

/-- Which type element `index` of a tuple pattern of `total` elements has. -/
def typeIndex (total : Nat) (rest : Option Nat) (count index : Nat) : Option Nat :=
  if rest.any (· < index) then do
    let fromEnd ← checkedSub total index
    checkedSub count fromEnd
  else some index

/-- The type of a rest binding under an array type. -/
def arrayRest (generics : List String) (elem : Ty) (len : Length) (explicit : Nat) :
    Option (Option Ty) :=
  if explicit = 0 then some (some (.array elem len))
  else
    match len.literalLength with
    | some length => (checkedSub length explicit).map fun remaining =>
        some (.array elem (.int remaining))
    | none =>
        some (if concreteLength generics len then
          some (.array elem (.binary .sub (.paren len) (.int explicit)))
        else none)

/-- The type of a rest binding under an alias. -/
def aliasRest (generics : List String) (refutable : Bool) (annotated source : Ty) (explicit : Nat) :
    Option Ty :=
  if explicit = 0 then some (.wholeSequence source)
  else if annotated.concrete generics then some (.arrayTail annotated explicit source)
  else if !refutable then none
  else some (.sliceTail source)

/-- The rest arm of `observe_slice_element`. -/
def observeRest (pattern : Pat) (rest : Option Ty) (mode : BindingMode) : List Update :=
  match pattern, rest with
  | .ident byRef mutable ident _, some rest => observeIdent byRef mutable ident rest mode
  | _, _ => []

/-- An identifier with `ref`. -/
def Pat.borrows : Pat → Bool
  | .ident true _ _ _ => true
  | _ => false

/-- Under an alias, a rest borrowed by `ref` projects the borrowed source. -/
def observeBorrowedRest (pattern : Pat) (source : Ty) : List Update :=
  match pattern with
  | .ident byRef mutable ident _ =>
      [.insert ident.name
        (.wholeSequence ((BindingMode.explicit byRef mutable .move).boundType source))]
  | _ => []

section Annotated

variable (generics : List String) (refutable : Bool)

mutual

/-- `observe_annotated_pattern` -/
def observeAnnotated : Pat → Ty → BindingMode → Option (List Update)
  | .paren pattern, annotated, mode => observeAnnotated pattern annotated mode
  -- A subpattern leaves the type to the last arm, which records nothing.
  | .ident byRef mutable ident none, annotated, mode =>
      some (observeIdent byRef mutable ident annotated mode)
  -- An explicit reference pattern resets the binding mode.
  | .reference _ pattern, annotated, _ =>
      match annotated.ungroup with
      | .reference _ _ elem => observeAnnotated pattern elem .move
      | annotated =>
          if annotated.isPath then observeAnnotated pattern (.derefTarget annotated) .move
          else some []
  | .tuple elements, annotated, mode =>
      match annotated.peel mode with
      -- The type is written out: its elements follow the elements of the pattern.
      | (.tuple types, mode) => do
          let rest := elements.findIdx? Pat.isRest
          let explicit ← checkedSub elements.length rest.isSome.toNat
          if explicit > types.length || (rest.isNone && explicit != types.length) then some []
          else observeTuple elements 0 elements.length rest types mode
      | (annotated, mode) =>
          -- An alias may be a tuple; without a rest its arity is that of the pattern.
          if annotated.isPath && !elements.any Pat.isRest then
            observeProjected elements 0 elements.length (mode.boundType annotated)
          else some []
  | .slice elements, annotated, mode =>
      match annotated.peel mode with
      -- A literal length is checked against the pattern, any other length only by rustc.
      | (.array elem len, mode) => do
          let explicit := elements.countP (!sliceRest ·)
          let rests ← checkedSub elements.length explicit
          if rests > 1 || len.literalLength.any (fun length =>
              explicit > length || (rests == 0 && explicit != length)) then some []
          else
            let rest ← arrayRest generics elem len explicit
            observeElements elements elem rest mode
      -- The rest of a slice is a slice again.
      | (.slice elem, mode) =>
          if elements.countP sliceRest > 1 then some []
          else observeElements elements elem (some (.slice elem)) mode
      | (annotated, mode) =>
          if annotated.isPath then do
            let source := mode.boundType annotated
            let explicit := elements.countP (!sliceRest ·)
            let updates ← observeSequence elements explicit source
              (aliasRest generics refutable annotated source explicit)
            some (.sequenceProjections :: updates)
          else some []
  | _, _, _ => some []

/-- The elements of a tuple pattern of `total` elements, the first being number `index`. -/
def observeTuple : List Pat → Nat → Nat → Option Nat → List Ty → BindingMode →
    Option (List Update)
  | [], _, _, _, _, _ => some []
  | element :: elements, index, total, rest, types, mode => do
      let first ← (
        if element.isRest then some []
        else do
          let typeIndex ← typeIndex total rest types.length index
          let ty ← types[typeIndex]?
          observeAnnotated element ty mode)
      let others ← observeTuple elements (index + 1) total rest types mode
      some (first ++ others)

/-- The elements of a tuple pattern under an alias. -/
def observeProjected : List Pat → Nat → Nat → Ty → Option (List Update)
  | [], _, _, _ => some []
  -- No trait is generated for a place nobody binds.
  | .wild :: elements, index, arity, source => observeProjected elements (index + 1) arity source
  | element :: elements, index, arity, source => do
      let first ← observeAnnotated element (.tupleElement arity index source) .move
      let others ← observeProjected elements (index + 1) arity source
      some (.tupleProjection arity index :: first ++ others)

/-- `observe_slice_element` for each element of a slice pattern. -/
def observeElements : List Pat → Ty → Option Ty → BindingMode → Option (List Update)
  | [], _, _, _ => some []
  | element :: elements, elem, rest, mode => do
      let first ← (
        if sliceRest element then some (observeRest element rest mode)
        else observeAnnotated element elem mode)
      let others ← observeElements elements elem rest mode
      some (first ++ others)

/-- The elements of a slice pattern under an alias. -/
def observeSequence : List Pat → Nat → Ty → Option Ty → Option (List Update)
  | [], _, _, _ => some []
  | element :: elements, explicit, source, rest => do
      let first ← (
        -- `[ref whole @ ..]` borrows the sequence before it is projected.
        if explicit = 0 ∧ element.borrows then some (observeBorrowedRest element source)
        else if sliceRest element then some (observeRest element rest .move)
        else observeAnnotated element (.element source) .move)
      let others ← observeSequence elements explicit source rest
      some (first ++ others)

end

attribute [grind =] observeAnnotated observeTuple observeProjected observeElements observeSequence

end Annotated

/-! ## Bindings -/

structure Bindings where
  types : String → Option (Option Ty)
  uncertain : Bool
  imports : List UseTree
  genericNames : List String
  tupleProjections : List (Nat × Nat)
  sequenceProjections : Bool

namespace Bindings

def insert (b : Bindings) (name : String) (ty : Option Ty) : Bindings :=
  { b with types := fun other => if other = name then some ty else b.types other }

def remove (b : Bindings) (name : String) : Bindings :=
  { b with types := fun other => if other = name then none else b.types other }

def update (b : Bindings) : Update → Bindings
  | .insert name ty => b.insert name (some ty)
  | .tupleProjection arity index =>
      { b with tupleProjections := (arity, index) :: b.tupleProjections }
  | .sequenceProjections => { b with sequenceProjections := true }

/-- The names of a pattern, without types. -/
def introduce (b : Bindings) (pattern : Pat) : Bindings :=
  let (names, opaque_) := Captures.patternNames pattern.erase
  names.foldl (fun b name => b.insert name none) { b with uncertain := b.uncertain || opaque_ }

def observePattern (b : Bindings) : Pat → Option Ty → Bool → Option Bindings
  | .typed pattern ty, _, refutable => b.observePattern pattern (some ty) refutable
  | pattern, none, _ => some (b.introduce pattern)
  | pattern, some annotated, refutable =>
      (observeAnnotated b.genericNames refutable pattern annotated .move).map fun updates =>
        updates.foldl update (b.introduce pattern)

end Bindings

/-! ## Functions -/

/-- An item of a function body. -/
structure BlockItem where
  item : Item
  /-- The name of a module, type alias, struct, enum, union or extern crate. -/
  typeName : Option Ident
  /-- Whether an import starts with `::`. -/
  leadingColon : Bool
  /-- The name of a macro definition. -/
  macroName : Option Ident
  attributes : List String

inductive Stmt where
  /-- `diverges` when there is an `else` block. -/
  | localStmt (pattern : Pat) (diverges : Bool)
  | item (item : BlockItem)
  | macroStmt
  | expr

inductive FnArg where
  | receiver
  | typed (pattern : Pat) (ty : Ty)

structure ItemFn where
  /-- Type and constant parameters. -/
  generics : List Ident
  inputs : List FnArg
  stmts : List Stmt

mutual

def importRoots : UseTree → List String
  | .path ident _ => [ident.name]
  | .name ident => [ident.name]
  | .rename ident _ => [ident.name]
  | .group trees => importsRoots trees
  | .glob => []

def importsRoots : List UseTree → List String
  | [] => []
  | tree :: rest => importRoots tree ++ importsRoots rest

end

def plainMacroDefinition (item : BlockItem) (mac : Macro) : Bool :=
  item.macroName.isSome && mac.ident.any (·.is "macro_rules") &&
    item.attributes.all fun path =>
      ["cfg", "allow", "warn", "deny", "forbid", "expect", "doc"].contains path

def anchored (item : BlockItem) : UseTree → Bool
  | .path ident _ => item.leadingColon || ident.is "crate" || ident.is "self" || ident.is "super"
  | _ => item.leadingColon

def ItemFn.localItems (function : ItemFn) : List String :=
  function.stmts.filterMap fun
    | .item item => item.typeName.map Ident.name
    | _ => none

namespace Bindings

def observeArgument (b : Bindings) : FnArg → Option Bindings
  | .receiver => some b
  | .typed pattern ty => b.observePattern pattern (some ty) false

/-- An item hides the parameter of its name. -/
def forget (b : Bindings) (item : BlockItem) : Bindings :=
  match Captures.itemName item.item with
  | some ident => b.remove ident.name
  | none => b

def observeImport (localItems : List String) (b : Bindings) (item : BlockItem) : Bindings :=
  match item.item with
  | .useItem tree =>
      let (names, known) := Captures.importNames tree
      -- An import whose root is no item of the function means the same inside the generated module.
      let independent := anchored item tree ||
        (importRoots tree).all fun root => !localItems.contains root
      if independent && known && names.all (fun name => (b.types name).isNone) then
        { b with imports := b.imports ++ [tree] }
      else { b with uncertain := true }
  | .invocation mac =>
      if plainMacroDefinition item mac then b else { b with uncertain := true }
  | _ => b

def observeStmtItem (localItems : List String) (b : Bindings) : Stmt → Bindings
  | .item item => (b.forget item).observeImport localItems item
  | _ => b

def ofGenerics (generics : List Ident) : Bindings :=
  { types := fun _ => none, uncertain := false, imports := [],
    genericNames := generics.map Ident.name, tupleProjections := [], sequenceProjections := false }

def fromFunction (function : ItemFn) : Option Bindings := do
  let b ← function.inputs.foldlM observeArgument (ofGenerics function.generics)
  some (function.stmts.foldl (observeStmtItem function.localItems) b)

def observeStatement (b : Bindings) : Stmt → Option Bindings
  -- Only `let .. else` may have a refutable pattern.
  | .localStmt pattern diverges => b.observePattern pattern none diverges
  | .macroStmt => some { b with uncertain := true }
  | .item _ => some b
  | .expr => some b

/-- The bindings at the statement of a function that has `before` statements before it. -/
def atStatement (function : ItemFn) (before : Nat) : Option Bindings := do
  let b ← fromFunction function
  (function.stmts.take before).foldlM observeStatement b

end Bindings

end Binding
end Systasis
