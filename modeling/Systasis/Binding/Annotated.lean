import Systasis.Binding.Scope

/-!
# Annotated — the variables that an annotation gives a type

A written annotation determines the types of the variables of its pattern, except where a name is
bound together with a subpattern or in a pattern that is not taken apart, and except for the rest of
an array whose length is not known.  These are the variables an observation records with a type.
-/

namespace Systasis
namespace Binding

open Syntax

variable {constants : Constants}

/-- What a tuple or slice pattern meets in an annotation. -/
def Ty.core : Ty → Ty
  | .paren elem => elem.core
  | .group elem => elem.core
  | .reference _ _ elem => elem.core
  | annotated => annotated

/-- A length that an expression for the rest can mention. -/
def Length.Known (generics : List String) (len : Length) : Prop :=
  (∃ length, len.literalLength = some length) ∨ concreteLength generics len = true

/-- The annotation of a pattern gives a variable a type. -/
inductive Gives (generics : List String) (name : String) : Pat → Ty → Prop
  | ident {byRef mutable : Bool} {ident : Ident} {ty : Ty} : ident.name = name →
      Gives generics name (.ident byRef mutable ident none) ty
  | paren {p : Pat} {ty : Ty} : Gives generics name p ty → Gives generics name (.paren p) ty
  | reference {mutable mutable' : Bool} {p : Pat} {ty elem : Ty} {lifetime : Option String} :
      ty.ungroup = .reference lifetime mutable' elem → Gives generics name p elem →
      Gives generics name (.reference mutable p) ty
  /-- Before the rest the elements are counted from the front, after it from the back. -/
  | tuple {front back : List Pat} {p : Pat} {before after : List Ty} {ty elem : Ty} :
      ty.core = .tuple (before ++ elem :: after) →
      (.rest ∉ front → before.length = front.length) →
      (.rest ∈ front → after.length = back.length) →
      Gives generics name p elem → Gives generics name (.tuple (front ++ p :: back)) ty
  | array {elements : List Pat} {p : Pat} {ty elem : Ty} {len : Length} :
      ty.core = .array elem len → p ∈ elements → Gives generics name p elem →
      Gives generics name (.slice elements) ty
  /-- The rest of an array has the length the other elements leave. -/
  | arrayRest {elements : List Pat} {byRef mutable : Bool} {ident : Ident} {ty elem : Ty}
      {len : Length} :
      ty.core = .array elem len → .ident byRef mutable ident (some .rest) ∈ elements →
      elements.length = 1 ∨ len.Known generics → ident.name = name →
      Gives generics name (.slice elements) ty
  | slice {elements : List Pat} {p : Pat} {ty elem : Ty} :
      ty.core = .slice elem → p ∈ elements → Gives generics name p elem →
      Gives generics name (.slice elements) ty
  | sliceRest {elements : List Pat} {byRef mutable : Bool} {ident : Ident} {ty elem : Ty} :
      ty.core = .slice elem → .ident byRef mutable ident (some .rest) ∈ elements →
      ident.name = name → Gives generics name (.slice elements) ty

section Gives

variable {generics : List String} {refutable : Bool}

/-! ## Tuples -/

theorem Gives.isRest {name : String} {p : Pat} {ty : Ty} (h : Gives generics name p ty) :
    p.isRest = false := by
  cases h <;> rfl

end Gives

end Binding
end Systasis
