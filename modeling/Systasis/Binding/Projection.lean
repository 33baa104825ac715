import Systasis.Binding.Scope

/-!
# Projection — annotations behind a type alias

Model of `Bindings::projection_helpers`.  Under an alias the recorded types are projections, which
Rust normalizes through the generated traits.  The mode that the analysis of a written type carries
along is there part of the projected type.

The two agree on a binding as long as the mode in the projected type is the binding mode.  It is not
where an explicit modifier or a reference pattern overrides the binding mode: the projected type
keeps its reference.
-/

namespace Systasis
namespace Binding

open Syntax

/-! ## The generated traits -/

/-- `__systasis_CaptureOwned`, `__systasis_CaptureShared` and `__systasis_CaptureMutable` -/
inductive CaptureMode where
  | owned
  | shared
  | mutable
  deriving DecidableEq, Repr

/-- `__systasis_CaptureWrap` -/
def CaptureMode.wrap : CaptureMode → Shape → Shape
  | .owned, shape => shape
  | .shared, shape => .reference false shape
  | .mutable, shape => .reference true shape

/-- `__systasis_CaptureSliceWrap`, which owned slices do not have. -/
def CaptureMode.sliceWrap : CaptureMode → Shape → Option Shape
  | .owned, _ => none
  | .shared, elem => some (.reference false (.slice elem))
  | .mutable, elem => some (.reference true (.slice elem))

/-- `__systasis_CaptureThroughMut` -/
def CaptureMode.throughMut : CaptureMode → CaptureMode
  | .owned => .mutable
  | .shared => .shared
  | .mutable => .mutable

/-- A projection trait: its implementations for references, over those for other types. -/
def projection (impl : CaptureMode → Shape → Option Shape) : CaptureMode → Shape → Option Shape
  -- `&T` makes every mode shared, and `&mut T` keeps a shared one.
  | _, .reference false target => projection impl .shared target
  | mode, .reference true target => projection impl mode.throughMut target
  | mode, shape => impl mode shape

/-- The type parameters are sized. -/
def tupleImpl (arity index : Nat) (mode : CaptureMode) : Shape → Option Shape
  | .tuple elems =>
      if elems.length = arity ∧ elems.all Shape.sized then (elems[index]?).map mode.wrap else none
  | _ => none

def elementImpl (mode : CaptureMode) : Shape → Option Shape
  | .array elem _ => some (mode.wrap elem)
  | .slice elem => some (mode.wrap elem)
  | _ => none

def arrayTailImpl (remaining : Nat) (mode : CaptureMode) : Shape → Option Shape
  | .array elem _ => some (mode.wrap (.array elem remaining))
  | .slice elem => mode.sliceWrap elem
  | _ => none

def wholeSequenceImpl (mode : CaptureMode) : Shape → Option Shape
  | .array elem length => some (mode.wrap (.array elem length))
  | .slice elem => mode.sliceWrap elem
  | _ => none

def sliceTailImpl (mode : CaptureMode) : Shape → Option Shape
  | .slice elem => mode.sliceWrap elem
  | _ => none

/-- `__systasis_CaptureTuple{arity}_{index}` -/
def captureTuple (arity index : Nat) : CaptureMode → Shape → Option Shape :=
  projection (tupleImpl arity index)

/-- `__systasis_CaptureElement` -/
def captureElement : CaptureMode → Shape → Option Shape :=
  projection elementImpl

/-- `__systasis_CaptureArrayTail` -/
def captureArrayTail (remaining : Nat) : CaptureMode → Shape → Option Shape :=
  projection (arrayTailImpl remaining)

/-- `__systasis_CaptureWholeSequence` -/
def captureWholeSequence : CaptureMode → Shape → Option Shape :=
  projection wholeSequenceImpl

/-- `__systasis_CaptureSliceTail` -/
def captureSliceTail : CaptureMode → Shape → Option Shape :=
  projection sliceTailImpl

/-- `__systasis_CaptureLength`: a constant that does not evaluate is an error. -/
def captureLength (explicit : Nat) : Shape → Option Nat
  | .array _ length => checkedSub length explicit
  | .slice _ => some 0
  | .reference _ target => captureLength explicit target
  | _ => none

/-- `<_ as ::core::ops::Deref>::Target` of a reference. -/
def derefTarget : Shape → Option Shape
  | .reference _ target => some target
  | _ => none

section Normalize

variable (b : Bindings) (aliased : List Segment → Option Shape) (constants : Constants)

mutual

/-- What a recorded type stands for, with the traits that `b` has generated and the aliases in
scope. -/
def normalize : Ty → Option Shape
  | .paren elem => normalize elem
  | .group elem => normalize elem
  | .reference _ mutable elem => (normalize elem).map (.reference mutable)
  | .tuple elems => (normalizeAll elems).map .tuple
  | .array elem len => (normalize elem).map fun elem => .array elem (len.value constants)
  | .slice elem => (normalize elem).map .slice
  -- A path is an alias or a type of its own.
  | .path segments => some ((aliased segments).getD (.named (.path segments)))
  | .qualified tokens => some (.named (.qualified tokens))
  | .other tokens => some (.named (.other tokens))
  | .tupleElement arity index source =>
      if b.tupleProjections.contains (arity, index) then
        (normalize source).bind (captureTuple arity index .owned)
      else none
  | .element source =>
      if b.sequenceProjections then (normalize source).bind (captureElement .owned) else none
  | .wholeSequence source =>
      if b.sequenceProjections then (normalize source).bind (captureWholeSequence .owned) else none
  | .arrayTail annotated explicit source =>
      if b.sequenceProjections then do
        let shape ← normalize annotated
        -- The constant is that of the annotation, the sequence that of the source.
        let remaining ← captureLength explicit shape
        (normalize source).bind (captureArrayTail remaining .owned)
      else none
  | .sliceTail source =>
      if b.sequenceProjections then (normalize source).bind (captureSliceTail .owned) else none
  | .derefTarget source => (normalize source).bind derefTarget

def normalizeAll : List Ty → Option (List Shape)
  | [] => some []
  | elem :: elems => do
      let shape ← normalize elem
      let shapes ← normalizeAll elems
      some (shape :: shapes)

end

attribute [grind =] normalize normalizeAll

end Normalize

/-! ## Where the two analyses agree -/

/-- A type without a size. -/
def Ty.sized (ty : Ty) : Bool :=
  match ty.ungroup with
  | .slice _ => false
  | _ => true

/-- The mode in the projected type below a reference pattern: a pattern that does not meet it in move
mode takes off the reference of that mode and leaves its own. -/
def belowReference (mutable : Bool) : BindingMode → BindingMode
  | .move => .move
  | _ => BindingMode.move.dereferenced mutable

/-- A variable whose type has the pushed mode, if it has a type at all. -/
def identAgrees (byRef mutable : Bool) (mode : BindingMode) : Option BindingMode → Bool
  | none => false
  | some pushed => if byRef || mutable then pushed == .move else pushed == mode

/-- The rest of a pattern without other elements. -/
def wholeAgrees (byRef mutable : Bool) (mode : BindingMode) (pushed : Option BindingMode) : Bool :=
  if byRef then
    match pushed with
    | none => false
    | some pushed => !mutable || pushed != .ref
  else identAgrees byRef mutable mode pushed

/-- Whether the analysis of an array type gives a rest a type. -/
def restKnown (generics : List String) (len : Length) (explicit : Nat) : Bool :=
  explicit == 0 || len.literalLength.isSome || concreteLength generics len

def arrayRestAgrees (generics : List String) (refutable concrete byRef mutable : Bool) (len : Length)
    (explicit : Nat) (mode : BindingMode) (pushed : Option BindingMode) : Bool :=
  !restKnown generics len explicit ||
    if explicit = 0 then wholeAgrees byRef mutable mode pushed
    else if concrete then identAgrees byRef mutable mode pushed
    else !refutable

def sliceRestAgrees (refutable concrete byRef mutable : Bool) (explicit : Nat) (mode : BindingMode)
    (pushed : Option BindingMode) : Bool :=
  if explicit = 0 then wholeAgrees byRef mutable mode pushed
  else if concrete || refutable then !byRef && !mutable && pushed == some mode
  else true

section Agrees

variable (generics : List String) (refutable : Bool)

mutual

/-- The condition on a pattern and a type: `mode` is the binding mode there, `pushed` the mode in the
projected type if that exists, and `concrete` says that the alias itself is meant, without generic
arguments. -/
def agrees : Pat → Ty → BindingMode → Option BindingMode → Bool → Bool
  | .paren pattern, ty, mode, pushed, concrete => agrees pattern ty mode pushed concrete
  | .ident byRef mutable _ none, _, mode, pushed, _ => identAgrees byRef mutable mode pushed
  | .reference _ pattern, ty, _, pushed, _ =>
      match ty.ungroup with
      | .reference _ mutable elem =>
          agrees pattern elem .move (pushed.map (belowReference mutable)) false
      | _ => true
  | .tuple elements, ty, mode, pushed, _ =>
      match ty.peel mode with
      | (.tuple types, mode) =>
          elements.any Pat.isRest || agreesAll elements types mode
            (if types.all Ty.sized then pushed.map fun pushed => (ty.peel pushed).2 else none)
      | _ => true
  | .slice elements, ty, mode, pushed, concrete =>
      match ty.peel mode with
      | (.array elem len, mode) =>
          let explicit := elements.countP (!sliceRest ·)
          let pushed := pushed.map fun pushed => (ty.peel pushed).2
          agreesElements elements elem mode pushed fun byRef mutable =>
            arrayRestAgrees generics refutable concrete byRef mutable len explicit mode pushed
      | (.slice elem, mode) =>
          let explicit := elements.countP (!sliceRest ·)
          let pushed := pushed.map fun pushed => (ty.peel pushed).2
          agreesElements elements elem mode pushed fun byRef mutable =>
            sliceRestAgrees refutable concrete byRef mutable explicit mode pushed
      | _ => true
  | _, _, _, _, _ => true

def agreesAll : List Pat → List Ty → BindingMode → Option BindingMode → Bool
  | element :: elements, ty :: types, mode, pushed =>
      agrees element ty mode pushed false && agreesAll elements types mode pushed
  | _, _, _, _ => true

def agreesElements : List Pat → Ty → BindingMode → Option BindingMode → (Bool → Bool → Bool) → Bool
  | [], _, _, _, _ => true
  | .ident byRef mutable _ (some .rest) :: elements, elem, mode, pushed, restAgrees =>
      restAgrees byRef mutable && agreesElements elements elem mode pushed restAgrees
  | element :: elements, elem, mode, pushed, restAgrees =>
      agrees element elem mode pushed false && agreesElements elements elem mode pushed restAgrees

end

attribute [grind =] agrees agreesAll agreesElements

end Agrees

end Binding
end Systasis
