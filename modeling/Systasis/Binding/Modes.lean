import Mathlib.Data.List.Nodup
import Systasis.Binding.Updates

/-!
# Modes — default binding modes

What the bindings of a pattern have as types in Rust: a tuple or slice pattern that meets a reference
looks through it and changes the default binding mode, a reference pattern starts again with moves,
and explicit modifiers override the mode.  Every type recorded for the scope of a container is the
type of the innermost binding of its name there.
-/

namespace Systasis
namespace Binding

open Syntax

/-! ## Shapes -/

/-- What a type stands for, up to lifetimes.  Types that are not built structurally are opaque. -/
inductive Shape where
  | reference (mutable : Bool) (target : Shape)
  | tuple (elems : List Shape)
  | array (elem : Shape) (length : Nat)
  | slice (elem : Shape)
  | named (ty : Ty)

/-- Variables have sized types; of an opaque type that is not known here. -/
def Shape.sized : Shape → Bool
  | .slice _ => false
  | _ => true

/-- The values of constants. -/
structure Constants where
  literal : String → Nat
  path : Bool → List Segment → Nat
  binary : String → Nat → Nat → Nat
  unary : String → Nat → Nat
  other : String → Nat

def Length.value (constants : Constants) : Length → Nat
  | .int value => value
  | .literal tokens => constants.literal tokens
  | .path qself segments => constants.path qself segments
  | .binary .sub left right => left.value constants - right.value constants
  | .binary (.other op) left right =>
      constants.binary op (left.value constants) (right.value constants)
  | .unary op operand => constants.unary op (operand.value constants)
  | .paren inner => inner.value constants
  | .group inner => inner.value constants
  | .other tokens => constants.other tokens

mutual

def Ty.shape (constants : Constants) : Ty → Shape
  | .paren elem => elem.shape constants
  | .group elem => elem.shape constants
  | .reference _ mutable elem => .reference mutable (elem.shape constants)
  | .tuple elems => .tuple (Ty.shapes constants elems)
  | .array elem len => .array (elem.shape constants) (len.value constants)
  | .slice elem => .slice (elem.shape constants)
  | ty => .named ty

def Ty.shapes (constants : Constants) : List Ty → List Shape
  | [] => []
  | elem :: elems => elem.shape constants :: Ty.shapes constants elems

end

attribute [grind =] Ty.shape Ty.shapes

/-! ## Rust's rules -/

/-- The type of a variable bound in a mode. -/
def BindingMode.bound : BindingMode → Shape → Shape
  | .move, shape => shape
  | .ref, shape => .reference false shape
  | .refMut, shape => .reference true shape

/-- The default binding mode behind a reference: never more than a shared borrow behind `&`. -/
def BindingMode.behind (mode : BindingMode) (mutable : Bool) : BindingMode :=
  if mutable = true ∧ mode ≠ .ref then .refMut else .ref

/-- Patterns whose variables the annotation does not determine. -/
def Pat.unsupported : Pat → Bool
  | .ident _ _ _ (some .rest) => false
  | .ident _ _ _ (some _) => true
  | .compound _ => true
  | .constant _ => true
  | _ => false

/-- Tuple and slice patterns look through references. -/
def Pat.destructures : Pat → Bool
  | .tuple _ => true
  | .slice _ => true
  | _ => false

mutual

/-- `Typed mode p shape Γ`: in a default binding mode, a pattern matches values of a shape and binds
the variables `Γ`. -/
inductive Typed : BindingMode → Pat → Shape → List (String × Shape) → Prop
  | plain {mode : BindingMode} {ident : Ident} {shape : Shape} :
      (mode.bound shape).sized = true →
      Typed mode (.ident false false ident none) shape [(ident.name, mode.bound shape)]
  | byMove {mode : BindingMode} {ident : Ident} {shape : Shape} : shape.sized = true →
      Typed mode (.ident false true ident none) shape [(ident.name, shape)]
  | byRef {mode : BindingMode} {mutable : Bool} {ident : Ident} {shape : Shape} :
      Typed mode (.ident true mutable ident none) shape
        [(ident.name, .reference mutable shape)]
  | wild {mode : BindingMode} {shape : Shape} : Typed mode .wild shape []
  | paren {mode : BindingMode} {p : Pat} {shape : Shape} {Γ : List (String × Shape)} :
      Typed mode p shape Γ → Typed mode (.paren p) shape Γ
  | reference {mode : BindingMode} {mutable : Bool} {p : Pat} {shape : Shape}
      {Γ : List (String × Shape)} :
      Typed .move p shape Γ → Typed mode (.reference mutable p) (.reference mutable shape) Γ
  | through {mode : BindingMode} {mutable : Bool} {p : Pat} {shape : Shape}
      {Γ : List (String × Shape)} : p.destructures = true →
      Typed (mode.behind mutable) p shape Γ → Typed mode p (.reference mutable shape) Γ
  | tuple {mode : BindingMode} {elements : List Pat} {shapes : List Shape}
      {Γ : List (String × Shape)} :
      TypedAll mode elements shapes Γ → Typed mode (.tuple elements) (.tuple shapes) Γ
  | tupleRest {mode : BindingMode} {front back : List Pat} {shapes skipped shapes' : List Shape}
      {Γ Γ' : List (String × Shape)} :
      TypedAll mode front shapes Γ → TypedAll mode back shapes' Γ' →
      Typed mode (.tuple (front ++ .rest :: back)) (.tuple (shapes ++ skipped ++ shapes')) (Γ ++ Γ')
  | array {mode : BindingMode} {elements : List Pat} {shape : Shape} {Γ : List (String × Shape)} :
      TypedAll mode elements (List.replicate elements.length shape) Γ →
      Typed mode (.slice elements) (.array shape elements.length) Γ
  | arrayRest {mode : BindingMode} {front back : List Pat} {tail : Pat} {shape : Shape}
      {remaining : Nat} {Γ Δ Γ' : List (String × Shape)} :
      TypedAll mode front (List.replicate front.length shape) Γ →
      TypedRest mode tail (.array shape remaining) Δ →
      TypedAll mode back (List.replicate back.length shape) Γ' →
      Typed mode (.slice (front ++ tail :: back))
        (.array shape (front.length + remaining + back.length)) (Γ ++ Δ ++ Γ')
  | slice {mode : BindingMode} {elements : List Pat} {shape : Shape} {Γ : List (String × Shape)} :
      TypedAll mode elements (List.replicate elements.length shape) Γ →
      Typed mode (.slice elements) (.slice shape) Γ
  | sliceRest {mode : BindingMode} {front back : List Pat} {tail : Pat} {shape : Shape}
      {Γ Δ Γ' : List (String × Shape)} :
      TypedAll mode front (List.replicate front.length shape) Γ →
      TypedRest mode tail (.slice shape) Δ →
      TypedAll mode back (List.replicate back.length shape) Γ' →
      Typed mode (.slice (front ++ tail :: back)) (.slice shape) (Γ ++ Δ ++ Γ')
  | unsupported {mode : BindingMode} {p : Pat} {shape : Shape} {Γ : List (String × Shape)} :
      p.unsupported = true →
      (∀ name, name ∈ Γ.map Prod.fst ↔ name ∈ (Captures.patternNames p.erase).1) →
      Typed mode p shape Γ

/-- The rest of a slice pattern, with a variable or without. -/
inductive TypedRest : BindingMode → Pat → Shape → List (String × Shape) → Prop
  | unbound {mode : BindingMode} {shape : Shape} : TypedRest mode .rest shape []
  | bound {mode : BindingMode} {byRef mutable : Bool} {ident : Ident} {shape : Shape}
      {Γ : List (String × Shape)} :
      Typed mode (.ident byRef mutable ident none) shape Γ →
      TypedRest mode (.ident byRef mutable ident (some .rest)) shape Γ

inductive TypedAll : BindingMode → List Pat → List Shape → List (String × Shape) → Prop
  | nil {mode : BindingMode} : TypedAll mode [] [] []
  | cons {mode : BindingMode} {element : Pat} {elements : List Pat} {shape : Shape}
      {shapes : List Shape} {Γ Γ' : List (String × Shape)} :
      Typed mode element shape Γ → TypedAll mode elements shapes Γ' →
      TypedAll mode (element :: elements) (shape :: shapes) (Γ ++ Γ')

end

/-! ## Shapes of written types -/

variable {constants : Constants}

theorem Ty.shape_ungroup (ty : Ty) : ty.ungroup.shape constants = ty.shape constants := by
  induction ty, BindingMode.move using Ty.layers with
  | paren elem _ ih => exact ih
  | group elem _ ih => exact ih
  | reference lifetime mutable elem _ _ => rfl
  | core ty _ h =>
      cases ty <;> first
        | rfl
        | exact Bool.noConfusion h

theorem BindingMode.shape_boundType (mode : BindingMode) (ty : Ty) :
    (mode.boundType ty).shape constants = mode.bound (ty.shape constants) := by
  cases mode <;> rfl

theorem BindingMode.dereferenced_eq_behind (mode : BindingMode) (mutable : Bool) :
    mode.dereferenced mutable = mode.behind mutable := by
  cases mode <;> cases mutable <;> rfl

theorem Ty.shapes_getElem? (types : List Ty) (k : Nat) :
    (Ty.shapes constants types)[k]? = (types[k]?).map (Ty.shape constants) := by
  induction types generalizing k with
  | nil => simp [Ty.shapes]
  | cons ty types ih =>
      cases k with
      | zero => simp [Ty.shapes]
      | succ k => simpa [Ty.shapes] using ih k

theorem Ty.shapes_length (types : List Ty) :
    (Ty.shapes constants types).length = types.length := by
  induction types with
  | nil => rfl
  | cons ty types ih => simp [Ty.shapes, ih]

theorem Length.value_of_literalLength {len : Length} {length : Nat}
    (h : len.literalLength = some length) : len.value constants = length := by
  cases len with
  | int value =>
      simp only [Length.literalLength] at h
      split at h
      · exact Option.some.inj h
      · cases h
  | _ => cases h

/-- Every way to write the type of a rest subtracts the other elements. -/
theorem arrayRest_shape {generics : List String} {elem t : Ty} {len : Length} {explicit : Nat}
    (h : arrayRest generics elem len explicit = some (some t)) :
    t.shape constants = .array (elem.shape constants) (len.value constants - explicit) := by
  simp only [arrayRest] at h
  split at h
  · rename_i hzero
    cases h
    simp [Ty.shape, hzero]
  · split at h
    · rename_i length hlength
      rcases Option.map_eq_some_iff.1 h with ⟨remaining, hremaining, heq⟩
      cases heq
      have hvalue : remaining = length - explicit := by
        have hsum := add_eq_of_checkedSub hremaining
        omega
      simp [Ty.shape, Length.value, hvalue, Length.value_of_literalLength hlength]
    · split at h
      · cases h
        simp [Ty.shape, Length.value]
      · cases h

/-! ## Typed patterns -/

theorem typed_ident {mode : BindingMode} {byRef mutable : Bool} {ident : Ident} {shape : Shape}
    {Γ : List (String × Shape)} (h : Typed mode (.ident byRef mutable ident none) shape Γ) :
    Γ = [(ident.name, (mode.explicit byRef mutable).bound shape)] := by
  cases h with
  | plain => rfl
  | byMove => rfl
  | byRef => cases mutable <;> rfl
  | through hdestructures => cases hdestructures
  | unsupported hunsupported => cases hunsupported

theorem sliceRest_of_typed {mode : BindingMode} {p : Pat} {shape : Shape}
    {Γ : List (String × Shape)} (h : Typed mode p shape Γ) : sliceRest p = false := by
  cases h with
  | through hdestructures _ =>
      cases p <;> first
        | rfl
        | exact Bool.noConfusion hdestructures
  | unsupported hunsupported _ =>
      rw [← Bool.not_eq_true]
      intro hrest
      cases p with
      | ident byRef mutable ident subpattern =>
          cases subpattern with
          | none => cases hrest
          | some subpattern =>
              cases subpattern <;> first
                | exact Bool.noConfusion hrest
                | exact Bool.noConfusion hunsupported
      | _ => first
        | exact Bool.noConfusion hrest
        | exact Bool.noConfusion hunsupported
  | _ => rfl

theorem isRest_of_typed {mode : BindingMode} {p : Pat} {shape : Shape}
    {Γ : List (String × Shape)} (h : Typed mode p shape Γ) : p.isRest = false := by
  have hrest := sliceRest_of_typed h
  cases p <;> first
    | rfl
    | exact Bool.noConfusion hrest

theorem TypedAll.length_eq {mode : BindingMode} {elements : List Pat} {shapes : List Shape}
    {Γ : List (String × Shape)} (h : TypedAll mode elements shapes Γ) :
    elements.length = shapes.length := by
  induction elements generalizing shapes Γ with
  | nil =>
      cases h
      rfl
  | cons p elements ih =>
      cases h with
      | cons _ hrest => simp [ih hrest]

theorem TypedAll.get {mode : BindingMode} {elements : List Pat} {shapes : List Shape}
    {Γ : List (String × Shape)} (h : TypedAll mode elements shapes Γ) {i : Nat} {p : Pat}
    (hp : elements[i]? = some p) :
    ∃ shape Δ, shapes[i]? = some shape ∧ Typed mode p shape Δ ∧ Δ ⊆ Γ := by
  induction elements generalizing shapes Γ i with
  | nil => cases hp
  | cons q elements ih =>
      cases h with
      | cons hfirst hrest =>
          cases i with
          | zero =>
              cases hp
              exact ⟨_, _, rfl, hfirst, List.subset_append_left _ _⟩
          | succ i =>
              rcases ih hrest (by simpa using hp) with ⟨shape, Δ, hshape, htyped, hsubset⟩
              exact ⟨shape, Δ, by simpa using hshape, htyped,
                fun x hx => List.mem_append_right _ (hsubset hx)⟩

theorem TypedAll.mem {mode : BindingMode} {elements : List Pat} {shape : Shape}
    {Γ : List (String × Shape)} {n : Nat} (h : TypedAll mode elements (List.replicate n shape) Γ)
    {p : Pat} (hp : p ∈ elements) : ∃ Δ, Typed mode p shape Δ ∧ Δ ⊆ Γ := by
  rcases List.mem_iff_getElem?.1 hp with ⟨i, hi⟩
  rcases h.get hi with ⟨shape', Δ, hshape, htyped, hsubset⟩
  rcases List.getElem?_eq_some_iff.1 hshape with ⟨_, heq⟩
  rw [List.getElem_replicate] at heq
  exact ⟨Δ, heq ▸ htyped, hsubset⟩

/-- A tuple or slice pattern has the type it has under the layers of the annotation. -/
theorem typed_peel {p : Pat} (hp : p.destructures = true) (ty : Ty) (mode : BindingMode)
    {Γ : List (String × Shape)} (h : Typed mode p (ty.shape constants) Γ) :
    Typed (ty.peel mode).2 p ((ty.peel mode).1.shape constants) Γ := by
  induction ty, mode using Ty.layers with
  | paren elem mode ih => exact ih h
  | group elem mode ih => exact ih h
  | reference lifetime mutable elem mode ih =>
      refine ih ?_
      rw [BindingMode.dereferenced_eq_behind]
      cases h with
      | through _ htyped => exact htyped
      | unsupported hunsupported =>
          cases p <;> first
            | exact Bool.noConfusion hp
            | exact Bool.noConfusion hunsupported
      | _ => exact Bool.noConfusion hp
  | core ty mode hcore =>
      rw [Ty.peel_of_not_layered hcore]
      exact h

theorem typed_paren {mode : BindingMode} {p : Pat} {shape : Shape} {Γ : List (String × Shape)}
    (h : Typed mode (.paren p) shape Γ) : Typed mode p shape Γ := by
  cases h with
  | paren htyped => exact htyped
  | through hdestructures => cases hdestructures
  | unsupported hunsupported => cases hunsupported

theorem typed_reference {mode : BindingMode} {mutable : Bool} {p : Pat} {shape : Shape}
    {Γ : List (String × Shape)} (h : Typed mode (.reference mutable p) shape Γ) :
    ∃ target, shape = .reference mutable target ∧ Typed .move p target Γ := by
  cases h with
  | reference htyped => exact ⟨_, rfl, htyped⟩
  | through hdestructures => cases hdestructures
  | unsupported hunsupported => cases hunsupported

theorem Ty.shape_eq_reference {ty : Ty} {mutable : Bool} {target : Shape}
    (h : ty.shape constants = .reference mutable target) :
    ∃ lifetime elem, ty.ungroup = .reference lifetime mutable elem ∧
      elem.shape constants = target := by
  induction ty, BindingMode.move using Ty.layers with
  | paren elem _ ih => exact ih h
  | group elem _ ih => exact ih h
  | reference lifetime mutable elem _ _ =>
      cases h
      exact ⟨lifetime, elem, rfl, rfl⟩
  | core ty _ hcore =>
      cases ty <;> first
        | exact Bool.noConfusion hcore
        | cases h

/-- What a typed tuple pattern meets under the layers of the annotation. -/
theorem typed_tuple_core {mode : BindingMode} {elements : List Pat} {ty : Ty}
    {Γ : List (String × Shape)} (hcore : ty.layered = false)
    (h : Typed mode (.tuple elements) (ty.shape constants) Γ) : ∃ types, ty = .tuple types := by
  generalize hshape : ty.shape constants = shape at h
  cases h with
  | unsupported hunsupported => cases hunsupported
  | _ =>
      cases ty <;> first
        | exact ⟨_, rfl⟩
        | exact Bool.noConfusion hcore
        | cases hshape

theorem typed_slice_core {mode : BindingMode} {elements : List Pat} {ty : Ty}
    {Γ : List (String × Shape)} (hcore : ty.layered = false)
    (h : Typed mode (.slice elements) (ty.shape constants) Γ) :
    (∃ elem len, ty = .array elem len) ∨ ∃ elem, ty = .slice elem := by
  generalize hshape : ty.shape constants = shape at h
  cases h with
  | unsupported hunsupported => cases hunsupported
  | _ =>
      cases ty <;> first
        | exact Or.inl ⟨_, _, rfl⟩
        | exact Or.inr ⟨_, rfl⟩
        | exact Bool.noConfusion hcore
        | cases hshape

/-! ## Recorded types -/

section Recorded

variable {generics : List String} {refutable : Bool}

/-- The type of an element after the rest of a tuple pattern. -/
theorem typeIndex_back {total r count i k : Nat} (hlt : r < i) (hi : i < total)
    (h : typeIndex total (some r) count i = some k) : k + (total - i) = count := by
  simp only [typeIndex, Option.any_some, hlt, decide_true, if_true,
    checkedSub_of_le (Nat.le_of_lt hi), Option.bind_eq_bind, Option.bind_some] at h
  exact add_eq_of_checkedSub h

theorem typeIndex_front {total r count i k : Nat} (hle : i ≤ r)
    (h : typeIndex total (some r) count i = some k) : k = i := by
  have hnot : ¬ r < i := Nat.not_lt.2 hle
  simpa [typeIndex, hnot, eq_comm] using h

theorem findIdx?_rest {mode : BindingMode} {front back : List Pat} {shapes : List Shape}
    {Γ : List (String × Shape)} (h : TypedAll mode front shapes Γ) :
    (front ++ Pat.rest :: back).findIdx? Pat.isRest = some front.length := by
  refine List.findIdx?_eq_some_iff_getElem.2 ⟨by simp, by simp [Pat.isRest], ?_⟩
  intro j hj
  rw [List.getElem_append_left hj]
  rcases h.get (List.getElem?_eq_getElem hj) with ⟨shape, Δ, _, htyped, _⟩
  simp [isRest_of_typed htyped]

theorem findIdx?_no_rest {mode : BindingMode} {elements : List Pat} {shapes : List Shape}
    {Γ : List (String × Shape)} (h : TypedAll mode elements shapes Γ) :
    elements.findIdx? Pat.isRest = none := by
  rw [List.findIdx?_eq_none_iff]
  intro p hp
  rcases List.mem_iff_getElem?.1 hp with ⟨i, hi⟩
  rcases h.get hi with ⟨shape, Δ, _, htyped, _⟩
  exact isRest_of_typed htyped

/-- An element of a typed tuple pattern is typed at the type the observation takes for it. -/
theorem typed_tuple_element {mode : BindingMode} {elements : List Pat} {types : List Ty}
    {Γ : List (String × Shape)}
    (h : Typed mode (.tuple elements) (.tuple (Ty.shapes constants types)) Γ) {i k : Nat} {p : Pat}
    {elem : Ty} (hp : elements[i]? = some p) (hrest : p.isRest = false)
    (hk : typeIndex elements.length (elements.findIdx? Pat.isRest) types.length i = some k)
    (helem : types[k]? = some elem) :
    ∃ Δ, Typed mode p (elem.shape constants) Δ ∧ Δ ⊆ Γ := by
  have hshape : (Ty.shapes constants types)[k]? = some (elem.shape constants) := by
    rw [Ty.shapes_getElem?, helem]
    rfl
  have hlength := @Ty.shapes_length constants types
  generalize Ty.shapes constants types = shapes at h hshape hlength
  cases h with
  | tuple htyped =>
      rw [findIdx?_no_rest htyped] at hk
      cases hk
      rcases htyped.get hp with ⟨shape, Δ, hshape', htyped, hsubset⟩
      rw [hshape] at hshape'
      cases hshape'
      exact ⟨Δ, htyped, hsubset⟩
  | @tupleRest _ front back shapes skipped shapes' Γ Γ' hfront hback =>
      rw [findIdx?_rest hfront] at hk
      have hsize := hfront.length_eq
      have hsize' := hback.length_eq
      rcases List.getElem?_eq_some_iff.1 hp with ⟨hi, _⟩
      simp only [List.length_append, List.length_cons] at hk hi hlength
      by_cases hlt : front.length < i
      · -- Counted from the end, the suffix of the pattern is the suffix of the type.
        have hend := typeIndex_back hlt hi hk
        rcases Nat.exists_eq_add_of_lt hlt with ⟨j, rfl⟩
        have hp' : back[j]? = some p := by
          rw [List.getElem?_append_right (by omega)] at hp
          simpa [show front.length + j + 1 - front.length = j + 1 by omega] using hp
        rcases hback.get hp' with ⟨shape, Δ, hshape', htyped, hsubset⟩
        rw [List.getElem?_append_right (by simp; omega)] at hshape
        rw [show k - (shapes ++ skipped).length = j by simp; omega, hshape'] at hshape
        cases hshape
        exact ⟨Δ, htyped, fun x hx => List.mem_append_right _ (hsubset hx)⟩
      · -- The prefix keeps its positions, and the rest itself is excluded.
        have hk' := typeIndex_front (Nat.not_lt.1 hlt) hk
        subst hk'
        have hne : k ≠ front.length := by
          intro heq
          rw [heq, List.getElem?_append_right (Nat.le_refl _)] at hp
          simp only [Nat.sub_self, List.getElem?_cons_zero, Option.some.injEq] at hp
          rw [← hp] at hrest
          cases hrest
        rw [List.getElem?_append_left (by omega)] at hp
        rcases hfront.get hp with ⟨shape, Δ, hshape', htyped, hsubset⟩
        rw [List.append_assoc, List.getElem?_append_left (by omega), hshape'] at hshape
        cases hshape
        exact ⟨Δ, htyped, fun x hx => List.mem_append_left _ (hsubset hx)⟩
  | unsupported hunsupported => cases hunsupported

theorem countP_sliceRest {mode : BindingMode} {elements : List Pat} {shapes : List Shape}
    {Γ : List (String × Shape)} (h : TypedAll mode elements shapes Γ) :
    elements.countP (!sliceRest ·) = elements.length := by
  rw [List.countP_eq_length]
  intro p hp
  rcases List.mem_iff_getElem?.1 hp with ⟨i, hi⟩
  rcases h.get hi with ⟨shape, Δ, _, htyped, _⟩
  simp [sliceRest_of_typed htyped]

theorem sliceRest_of_typedRest {mode : BindingMode} {p : Pat} {shape : Shape}
    {Γ : List (String × Shape)} (h : TypedRest mode p shape Γ) : sliceRest p = true := by
  cases h <;> rfl

theorem countP_sliceRest_append {mode : BindingMode} {front back : List Pat} {tail : Pat}
    {shapes shapes' : List Shape} {shape : Shape} {Γ Δ Γ' : List (String × Shape)}
    (hfront : TypedAll mode front shapes Γ) (htail : TypedRest mode tail shape Δ)
    (hback : TypedAll mode back shapes' Γ') :
    (front ++ tail :: back).countP (!sliceRest ·) = front.length + back.length := by
  rw [List.countP_append, List.countP_cons, countP_sliceRest hfront, countP_sliceRest hback,
    sliceRest_of_typedRest htail]
  rfl

/-- A typed array pattern passes the guard of the observation. -/
theorem typed_array_fits {mode : BindingMode} {elements : List Pat} {shape : Shape} {length : Nat}
    {Γ : List (String × Shape)} (h : Typed mode (.slice elements) (.array shape length) Γ) :
    elements.countP sliceRest ≤ 1 ∧ elements.countP (!sliceRest ·) ≤ length ∧
      (elements.countP sliceRest = 0 → elements.countP (!sliceRest ·) = length) := by
  have hsum := length_sub_countP elements
  cases h with
  | array htyped =>
      rw [countP_sliceRest htyped] at hsum ⊢
      exact ⟨by omega, Nat.le_refl _, fun _ => rfl⟩
  | arrayRest hfront htail hback =>
      rw [countP_sliceRest_append hfront htail hback] at hsum ⊢
      simp only [List.length_append, List.length_cons] at hsum
      exact ⟨by omega, by omega, fun hzero => by omega⟩
  | unsupported hunsupported => cases hunsupported

theorem typed_slice_fits {mode : BindingMode} {elements : List Pat} {shape : Shape}
    {Γ : List (String × Shape)} (h : Typed mode (.slice elements) (.slice shape) Γ) :
    elements.countP sliceRest ≤ 1 := by
  have hsum := length_sub_countP elements
  cases h with
  | slice htyped =>
      rw [countP_sliceRest htyped] at hsum
      omega
  | sliceRest hfront htail hback =>
      rw [countP_sliceRest_append hfront htail hback] at hsum
      simp only [List.length_append, List.length_cons] at hsum
      omega
  | unsupported hunsupported => cases hunsupported

/-- The rest of a slice pattern records the type of its variable. -/
theorem observeRest_typed {mode : BindingMode} {p : Pat} {ty t : Ty} {name : String}
    {Γ : List (String × Shape)} (h : TypedRest mode p (ty.shape constants) Γ)
    (hmem : Update.insert name t ∈ observeRest p (some ty) mode) :
    (name, t.shape constants) ∈ Γ := by
  cases h with
  | unbound => cases hmem
  | bound htyped =>
      cases List.mem_singleton.1 hmem
      rw [typed_ident htyped, BindingMode.shape_boundType, Ty.shape_ungroup]
      exact List.mem_singleton_self _

/-- A typed element of a slice pattern records the types of its variables. -/
theorem elementEmits_typed {mode : BindingMode} {p : Pat} {elem t : Ty} {tail : Option Ty}
    {name : String} {Γ : List (String × Shape)}
    (ih : ∀ {ty mode Γ}, Typed mode p (ty.shape constants) Γ → ∀ {name t},
      Emits generics refutable p ty mode (.insert name t) → (name, t.shape constants) ∈ Γ)
    (h : Typed mode p (elem.shape constants) Γ)
    (hemits : ElementEmits generics refutable elem tail mode p (.insert name t)) :
    (name, t.shape constants) ∈ Γ := by
  rw [ElementEmits, sliceRest_of_typed h] at hemits
  exact ih h hemits

/-- An element of a typed array pattern is typed at the element type, or it is the rest. -/
theorem typed_array_element {mode : BindingMode} {elements : List Pat} {elem : Ty} {len : Length}
    {Γ : List (String × Shape)}
    (h : Typed mode (.slice elements) (.array (elem.shape constants) (len.value constants)) Γ)
    {p : Pat} (hp : p ∈ elements) :
    (∃ Δ, Typed mode p (elem.shape constants) Δ ∧ Δ ⊆ Γ) ∨
      ∃ remaining Δ, len.value constants - elements.countP (!sliceRest ·) = remaining ∧
        TypedRest mode p (.array (elem.shape constants) remaining) Δ ∧ Δ ⊆ Γ := by
  generalize elem.shape constants = shape, hvalue : len.value constants = length at h
  cases h with
  | array htyped => exact Or.inl (htyped.mem hp)
  | @arrayRest _ front back tail _ remaining Γ Δ Γ' hfront htail hback =>
      rcases List.mem_append.1 hp with hp | hp
      · rcases hfront.mem hp with ⟨Δ', htyped, hsubset⟩
        exact Or.inl ⟨Δ', htyped, fun x hx =>
          List.mem_append_left _ (List.mem_append_left _ (hsubset hx))⟩
      · rcases List.mem_cons.1 hp with rfl | hp
        · refine Or.inr ⟨remaining, Δ, ?_, htail, fun x hx =>
            List.mem_append_left _ (List.mem_append_right _ hx)⟩
          rw [List.countP_append, List.countP_cons, countP_sliceRest hfront, countP_sliceRest hback,
            sliceRest_of_typedRest htail]
          simp
          omega
        · rcases hback.mem hp with ⟨Δ', htyped, hsubset⟩
          exact Or.inl ⟨Δ', htyped, fun x hx => List.mem_append_right _ (hsubset hx)⟩
  | unsupported hunsupported => cases hunsupported

theorem typed_slice_element {mode : BindingMode} {elements : List Pat} {shape : Shape}
    {Γ : List (String × Shape)} (h : Typed mode (.slice elements) (.slice shape) Γ) {p : Pat}
    (hp : p ∈ elements) :
    (∃ Δ, Typed mode p shape Δ ∧ Δ ⊆ Γ) ∨ ∃ Δ, TypedRest mode p (.slice shape) Δ ∧ Δ ⊆ Γ := by
  cases h with
  | slice htyped => exact Or.inl (htyped.mem hp)
  | @sliceRest _ front back tail _ Γ Δ Γ' hfront htail hback =>
      rcases List.mem_append.1 hp with hp | hp
      · rcases hfront.mem hp with ⟨Δ', htyped, hsubset⟩
        exact Or.inl ⟨Δ', htyped, fun x hx =>
          List.mem_append_left _ (List.mem_append_left _ (hsubset hx))⟩
      · rcases List.mem_cons.1 hp with rfl | hp
        · exact Or.inr ⟨Δ, htail, fun x hx =>
            List.mem_append_left _ (List.mem_append_right _ hx)⟩
        · rcases hback.mem hp with ⟨Δ', htyped, hsubset⟩
          exact Or.inl ⟨Δ', htyped, fun x hx => List.mem_append_right _ (hsubset hx)⟩
  | unsupported hunsupported => cases hunsupported

/-- What is recorded for a typed pattern is the type of a variable it binds. -/
theorem emits_typed (p : Pat) : ∀ {ty mode Γ}, Typed mode p (ty.shape constants) Γ →
    ∀ {name t}, Emits generics refutable p ty mode (.insert name t) →
      (name, t.shape constants) ∈ Γ := by
  induction p using Pat.induct with
  | ident byRef mutable ident subpattern =>
      intro ty mode Γ h name t hemits
      cases subpattern with
      | none =>
          cases emits_ident.1 hemits
          rw [typed_ident h, BindingMode.shape_boundType, Ty.shape_ungroup]
          exact List.mem_singleton_self _
      | some subpattern => exact absurd hemits (not_emits_of_eq_nil rfl)
  | paren p ih =>
      intro ty mode Γ h name t hemits
      exact ih (typed_paren h) hemits
  | reference mutable p ih =>
      intro ty mode Γ h name t hemits
      rcases typed_reference h with ⟨target, hshape, htyped⟩
      rcases Ty.shape_eq_reference hshape with ⟨lifetime, elem, hty, rfl⟩
      exact ih htyped ((emits_reference hty).1 hemits)
  | tuple elements ih =>
      intro ty mode Γ h name t hemits
      -- Under the references of the type, with the mode they leave.
      have hcore := Ty.layered_peel ty mode
      have htyped := typed_peel rfl ty mode h
      rw [emits_tuple_peel] at hemits
      generalize (ty.peel mode).1 = ty, (ty.peel mode).2 = mode at hemits hcore htyped
      rcases typed_tuple_core hcore htyped with ⟨types, rfl⟩
      rcases ((emits_tuple rfl).1 hemits).2 with ⟨i, p, hp, hrest, k, elem, hk, helem, hemits⟩
      rcases typed_tuple_element htyped hp hrest hk helem with ⟨Δ, htyped, hsubset⟩
      exact hsubset (ih p (List.mem_of_getElem? hp) htyped hemits)
  | slice elements ih =>
      intro ty mode Γ h name t hemits
      have hcore := Ty.layered_peel ty mode
      have htyped := typed_peel rfl ty mode h
      rw [emits_slice_peel] at hemits
      generalize (ty.peel mode).1 = ty, (ty.peel mode).2 = mode at hemits hcore htyped
      rcases typed_slice_core hcore htyped with ⟨elem, len, rfl⟩ | ⟨elem, rfl⟩
      · -- An array: the rest has the length the other elements leave.
        rcases ((emits_array rfl).1 hemits).2 with ⟨tail, htail, p, hp, hemits⟩
        rcases typed_array_element htyped hp with
          ⟨Δ, htyped, hsubset⟩ | ⟨remaining, Δ, hlength, htyped, hsubset⟩
        · exact hsubset (elementEmits_typed (ih p hp) htyped hemits)
        · rw [ElementEmits, sliceRest_of_typedRest htyped] at hemits
          cases tail with
          | none =>
              cases p <;> cases hemits
          | some tail =>
              refine hsubset (observeRest_typed ?_ hemits)
              rw [arrayRest_shape htail, hlength]
              exact htyped
      · -- A slice: the rest is a slice again.
        rcases ((emits_slice rfl).1 hemits).2 with ⟨p, hp, hemits⟩
        rcases typed_slice_element htyped hp with ⟨Δ, htyped, hsubset⟩ | ⟨Δ, htyped, hsubset⟩
        · exact hsubset (elementEmits_typed (ih p hp) htyped hemits)
        · rw [ElementEmits, sliceRest_of_typedRest htyped] at hemits
          exact hsubset (observeRest_typed htyped hemits)
  | _ =>
      intro ty mode Γ h name t hemits
      exact absurd hemits (not_emits_of_eq_nil rfl)

end Recorded

/-! ## Variables of typed patterns -/

/-- A tuple or slice pattern, typed under all references. -/
theorem typed_core {p : Pat} (hp : p.destructures = true) : ∀ (shape : Shape) {mode : BindingMode}
    {Γ : List (String × Shape)}, Typed mode p shape Γ →
    ∃ mode' core, (∀ mutable target, core ≠ .reference mutable target) ∧ Typed mode' p core Γ
  | .reference mutable target, mode, Γ, h => by
      cases h with
      | through _ htyped => exact typed_core hp target htyped
      | unsupported hunsupported =>
          cases p <;> first
            | exact Bool.noConfusion hp
            | exact Bool.noConfusion hunsupported
      | _ => exact Bool.noConfusion hp
  | .tuple _, _, _, h => ⟨_, _, fun _ _ heq => Shape.noConfusion heq, h⟩
  | .array _ _, _, _, h => ⟨_, _, fun _ _ heq => Shape.noConfusion heq, h⟩
  | .slice _, _, _, h => ⟨_, _, fun _ _ heq => Shape.noConfusion heq, h⟩
  | .named _, _, _, h => ⟨_, _, fun _ _ heq => Shape.noConfusion heq, h⟩

/-- The variables of a pattern are the names of the pattern. -/
def Binds (p : Pat) : Prop :=
  ∀ {mode : BindingMode} {shape : Shape} {Γ : List (String × Shape)}, Typed mode p shape Γ →
    ∀ name, name ∈ Γ.map Prod.fst ↔ name ∈ p.names

theorem binds_all {mode : BindingMode} {elements : List Pat} {shapes : List Shape}
    {Γ : List (String × Shape)} (hbinds : ∀ p ∈ elements, Binds p)
    (h : TypedAll mode elements shapes Γ) (name : String) :
    name ∈ Γ.map Prod.fst ↔ ∃ p ∈ elements, name ∈ p.names := by
  induction elements generalizing shapes Γ with
  | nil =>
      cases h
      simp
  | cons p elements ih =>
      cases h with
      | cons hfirst hothers =>
          rw [List.map_append, List.mem_append, hbinds p List.mem_cons_self hfirst,
            ih (fun p hp => hbinds p (List.mem_cons_of_mem _ hp)) hothers]
          simp

theorem binds_ident {byRef mutable : Bool} {ident : Ident} :
    Binds (.ident byRef mutable ident none) := by
  intro mode shape Γ h name
  rw [typed_ident h]
  rfl

theorem binds_rest {mode : BindingMode} {p : Pat} {shape : Shape} {Γ : List (String × Shape)}
    (h : TypedRest mode p shape Γ) (name : String) :
    name ∈ Γ.map Prod.fst ↔ name ∈ p.names := by
  cases h with
  | unbound => rfl
  | bound htyped => exact binds_ident htyped name

theorem binds (p : Pat) : Binds p := by
  induction p using Pat.induct with
  | ident byRef mutable ident subpattern =>
      cases subpattern with
      | none => exact binds_ident
      | some subpattern =>
          intro mode shape Γ h name
          cases h with
          | through hdestructures => cases hdestructures
          | unsupported _ hnames => exact hnames name
  | wild =>
      intro mode shape Γ h name
      cases h with
      | wild => rfl
      | through hdestructures => cases hdestructures
      | unsupported hunsupported => cases hunsupported
  | paren p ih =>
      intro mode shape Γ h name
      rw [names_paren]
      exact ih (typed_paren h) name
  | reference mutable p ih =>
      intro mode shape Γ h name
      rcases typed_reference h with ⟨target, _, htyped⟩
      rw [names_reference]
      exact ih htyped name
  | tuple elements ih =>
      intro mode shape Γ h name
      rw [mem_names_tuple]
      rcases typed_core rfl shape h with ⟨mode', core, hcore, htyped⟩
      cases htyped with
      | through => exact absurd rfl (hcore _ _)
      | tuple htyped => exact binds_all ih htyped name
      | @tupleRest _ front back _ _ _ _ _ hfront hback =>
          rw [List.map_append, List.mem_append,
            binds_all (fun p hp => ih p (List.mem_append_left _ hp)) hfront,
            binds_all (fun p hp => ih p (List.mem_append_right _ (List.mem_cons_of_mem _ hp))) hback]
          have hnone : name ∉ Pat.rest.names := List.not_mem_nil
          simp [or_and_right, exists_or, hnone]
      | unsupported hunsupported => cases hunsupported
  | slice elements ih =>
      intro mode shape Γ h name
      rw [mem_names_slice]
      -- The rest stands between elements, with the variable it has.
      have hrest : ∀ {front back : List Pat} {tail : Pat} {shape tailShape : Shape} {mode Γ Δ Γ'},
          elements = front ++ tail :: back →
          TypedAll mode front (List.replicate front.length shape) Γ →
          TypedRest mode tail tailShape Δ →
          TypedAll mode back (List.replicate back.length shape) Γ' →
          (name ∈ (Γ ++ Δ ++ Γ').map Prod.fst ↔ ∃ p ∈ elements, name ∈ p.names) := by
        intro front back tail shape tailShape mode Γ Δ Γ' heq hfront htail hback
        subst heq
        rw [List.map_append, List.mem_append, List.map_append, List.mem_append,
          binds_all (fun p hp => ih p (List.mem_append_left _ hp)) hfront, binds_rest htail,
          binds_all (fun p hp => ih p (List.mem_append_right _ (List.mem_cons_of_mem _ hp))) hback]
        simp [or_and_right, exists_or, or_assoc]
      rcases typed_core rfl shape h with ⟨mode', core, hcore, htyped⟩
      cases htyped with
      | through => exact absurd rfl (hcore _ _)
      | array htyped => exact binds_all ih htyped name
      | arrayRest hfront htail hback => exact hrest rfl hfront htail hback
      | slice htyped => exact binds_all ih htyped name
      | sliceRest hfront htail hback => exact hrest rfl hfront htail hback
      | unsupported hunsupported => cases hunsupported
  | compound elements =>
      intro mode shape Γ h name
      cases h with
      | through hdestructures => cases hdestructures
      | unsupported _ hnames => exact hnames name
  | constant tokens =>
      intro mode shape Γ h name
      cases h with
      | through hdestructures => cases hdestructures
      | unsupported _ hnames => exact hnames name
  | _ =>
      intro mode shape Γ h name
      cases h with
      | through hdestructures => cases hdestructures
      | unsupported hunsupported => cases hunsupported

end Binding
end Systasis
