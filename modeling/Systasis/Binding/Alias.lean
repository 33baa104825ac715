import Systasis.Binding.Projection

/-!
# Alias — when an alias gives the same types

The types recorded under an alias normalize to those recorded for the written type exactly where the
mode in the projected type is the one the binding has.
-/

namespace Systasis
namespace Binding

open Syntax

/-! ## Modes of projections -/

/-- The mode of a projection that carries a binding mode. -/
def BindingMode.capture : BindingMode → CaptureMode
  | .move => .owned
  | .ref => .shared
  | .refMut => .mutable

theorem BindingMode.wrap_capture (mode : BindingMode) (shape : Shape) :
    mode.capture.wrap shape = mode.bound shape := by
  cases mode <;> rfl

theorem projection_reference (impl : CaptureMode → Shape → Option Shape) (mode : BindingMode)
    (mutable : Bool) (target : Shape) :
    projection impl mode.capture (.reference mutable target) =
      projection impl (mode.dereferenced mutable).capture target := by
  cases mode <;> cases mutable <;> rfl

/-- A projection meets what a tuple or slice pattern meets, in the mode it has there. -/
theorem projection_shape (impl : CaptureMode → Shape → Option Shape) (constants : Constants)
    (ty : Ty) (mode : BindingMode) :
    projection impl mode.capture (ty.shape constants) =
      impl (ty.peel mode).2.capture ((ty.peel mode).1.shape constants) := by
  induction ty, mode using Ty.layers with
  | paren elem mode ih => exact ih
  | group elem mode ih => exact ih
  | reference lifetime mutable elem mode ih =>
      rw [Ty.shape, projection_reference]
      exact ih
  | core ty mode hcore =>
      rw [Ty.peel_of_not_layered hcore]
      cases ty <;> first
        | rfl
        | exact Bool.noConfusion hcore

theorem Ty.peel_fst (ty : Ty) (mode mode' : BindingMode) :
    (ty.peel mode).1 = (ty.peel mode').1 := by
  induction ty, mode using Ty.layers generalizing mode' with
  | paren elem mode ih => exact ih mode'
  | group elem mode ih => exact ih mode'
  | reference lifetime mutable elem mode ih => exact ih (mode'.dereferenced mutable)
  | core ty mode hcore => rw [Ty.peel_of_not_layered hcore, Ty.peel_of_not_layered hcore]

/-- The mode behind the reference that a mode stands for. -/
def BindingMode.then : BindingMode → BindingMode → BindingMode
  | mode, .move => mode
  | mode, .ref => mode.dereferenced false
  | mode, .refMut => mode.dereferenced true

theorem projection_bound (impl : CaptureMode → Shape → Option Shape) (mode pushed : BindingMode)
    (shape : Shape) :
    projection impl mode.capture (pushed.bound shape) =
      projection impl (mode.then pushed).capture shape := by
  cases pushed with
  | move => rfl
  | ref => exact projection_reference impl mode false shape
  | refMut => exact projection_reference impl mode true shape

theorem BindingMode.move_then (pushed : BindingMode) : BindingMode.move.then pushed = pushed := by
  cases pushed <;> rfl

/-- Behind a shared reference every mode is shared. -/
theorem Ty.peel_ref (ty : Ty) : (ty.peel .ref).2 = .ref := by
  have h : ∀ mode, mode = .ref → (ty.peel mode).2 = .ref := by
    intro mode hmode
    induction ty, mode using Ty.layers with
    | paren elem mode ih => exact ih hmode
    | group elem mode ih => exact ih hmode
    | reference lifetime mutable elem mode ih =>
        refine ih ?_
        rw [hmode]
        rfl
    | core ty mode hcore => rw [Ty.peel_of_not_layered hcore, hmode]
  exact h .ref rfl

/-- A mutable borrow of a source is shared exactly where the source is. -/
theorem Ty.peel_refMut_then (ty : Ty) (pushed : BindingMode) :
    (ty.peel (BindingMode.refMut.then pushed)).2 = .refMut ↔ (ty.peel pushed).2 ≠ .ref := by
  induction ty, pushed using Ty.layers with
  | paren elem pushed ih => exact ih
  | group elem pushed ih => exact ih
  | reference lifetime mutable elem pushed ih =>
      have hstep : (BindingMode.refMut.then pushed).dereferenced mutable =
          BindingMode.refMut.then (pushed.dereferenced mutable) := by
        cases pushed <;> cases mutable <;> rfl
      rw [Ty.peel, Ty.peel, hstep]
      exact ih
  | core ty pushed hcore =>
      rw [Ty.peel_of_not_layered hcore, Ty.peel_of_not_layered hcore]
      cases pushed <;> simp [BindingMode.then, BindingMode.dereferenced]

/-! ## Shapes differ by their references -/

@[simp] theorem BindingMode.bound_move (shape : Shape) : BindingMode.move.bound shape = shape := rfl

@[simp] theorem BindingMode.bound_ref (shape : Shape) :
    BindingMode.ref.bound shape = .reference false shape := rfl

@[simp] theorem BindingMode.bound_refMut (shape : Shape) :
    BindingMode.refMut.bound shape = .reference true shape := rfl

theorem reference_ne_self (mutable : Bool) (shape : Shape) : .reference mutable shape ≠ shape := by
  intro h
  have hsize := congrArg sizeOf h
  simp at hsize

theorem bound_eq_self {mode : BindingMode} {shape : Shape} :
    mode.bound shape = shape ↔ mode = .move := by
  cases mode with
  | move => simp
  | ref => simp [reference_ne_self]
  | refMut => simp [reference_ne_self]

theorem bound_inj {mode mode' : BindingMode} {shape : Shape} :
    mode.bound shape = mode'.bound shape ↔ mode = mode' := by
  cases mode with
  | move =>
      rw [eq_comm, eq_comm (a := BindingMode.move)]
      exact bound_eq_self
  | ref =>
      cases mode' with
      | move => simp [reference_ne_self]
      | ref => simp
      | refMut => simp
  | refMut =>
      cases mode' with
      | move => simp [reference_ne_self]
      | ref => simp
      | refMut => simp

/-! ## Types under an alias -/

section Alias

variable {b : Bindings} {aliased : List Segment → Option Shape} {constants : Constants}
variable {generics : List String} {refutable : Bool}

/-- A source stands for a type with a mode pushed into it, or for none. -/
def Reads (b : Bindings) (aliased : List Segment → Option Shape) (constants : Constants)
    (source : Ty) (pushed : Option BindingMode) (ty : Ty) : Prop :=
  normalize b aliased constants source = pushed.map fun pushed => pushed.bound (ty.shape constants)

/-- The traits that an observation under an alias uses have been generated. -/
structure Declared (b : Bindings) (generics : List String) (refutable : Bool) (p : Pat)
    (source : Ty) : Prop where
  tuple : ∀ arity index, Emits generics refutable p source .move (.tupleProjection arity index) →
    b.tupleProjections.contains (arity, index) = true
  sequence : Emits generics refutable p source .move .sequenceProjections →
    b.sequenceProjections = true

/-- Where both observations record a type, they are the same. -/
def Same (b : Bindings) (aliased : List Segment → Option Shape) (constants : Constants)
    (direct underAlias : String → Ty → Prop) : Prop :=
  ∀ name t₁ t₂, direct name t₁ → underAlias name t₂ →
    normalize b aliased constants t₂ = some (t₁.shape constants)

theorem normalize_boundType (mode : BindingMode) (ty : Ty) :
    normalize b aliased constants (mode.boundType ty) =
      (normalize b aliased constants ty).map mode.bound := by
  cases mode with
  | move =>
      rw [show BindingMode.move.bound = id from rfl, Option.map_id]
      rfl
  | ref => rfl
  | refMut => rfl

theorem identAgrees_iff {byRef mutable : Bool} {mode : BindingMode} {pushed : Option BindingMode}
    {shape : Shape} :
    (pushed.map fun pushed => pushed.bound shape).map
        (BindingMode.move.explicit byRef mutable).bound =
      some ((mode.explicit byRef mutable).bound shape) ↔
      identAgrees byRef mutable mode pushed = true := by
  cases pushed with
  | none => simp [identAgrees]
  | some pushed =>
      simp only [Option.map_some, Option.some.injEq, identAgrees]
      cases byRef with
      | true =>
          cases mutable <;> simp [BindingMode.explicit, bound_eq_self]
      | false =>
          cases mutable <;> simp [BindingMode.explicit, bound_eq_self, bound_inj]

theorem same_ident {byRef mutable : Bool} {ident : Ident} {ty source : Ty} {mode : BindingMode}
    {pushed : Option BindingMode} (hpath : source.isPath = true)
    (hreads : Reads b aliased constants source pushed ty) :
    Same b aliased constants
        (fun name t => Emits generics refutable (.ident byRef mutable ident none) ty mode
          (.insert name t))
        (fun name t => Emits generics refutable (.ident byRef mutable ident none) source .move
          (.insert name t)) ↔
      identAgrees byRef mutable mode pushed = true := by
  rw [← @identAgrees_iff byRef mutable mode pushed (ty.shape constants), ← hreads,
    ← normalize_boundType]
  simp only [Same, emits_ident, Ty.ungroup_of_isPath hpath]
  refine ⟨?_, ?_⟩
  · intro h
    rw [h _ _ _ rfl rfl, BindingMode.shape_boundType, Ty.shape_ungroup]
  · intro h name t₁ t₂ h₁ h₂
    cases h₁
    cases h₂
    rw [h, BindingMode.shape_boundType, Ty.shape_ungroup]

/-- Below a reference pattern. -/
theorem reads_deref {source ty elem : Ty} {pushed : Option BindingMode} {lifetime : Option String}
    {mutable : Bool} (hreads : Reads b aliased constants source pushed ty)
    (hty : ty.ungroup = .reference lifetime mutable elem) :
    Reads b aliased constants (.derefTarget source) (pushed.map (belowReference mutable)) elem := by
  have hshape : ty.shape constants = .reference mutable (elem.shape constants) := by
    rw [← Ty.shape_ungroup, hty]
    rfl
  rw [Reads, normalize, hreads, hshape]
  cases pushed with
  | none => rfl
  | some pushed =>
      cases pushed with
      | move => rfl
      | ref => cases mutable <;> rfl
      | refMut => cases mutable <;> rfl

/-- What a projection of the source, or of a borrow of it, is. -/
theorem reads_projection {source ty : Ty} {pushed : Option BindingMode}
    (hreads : Reads b aliased constants source pushed ty)
    (impl : CaptureMode → Shape → Option Shape) (start mode : BindingMode) :
    (normalize b aliased constants (start.boundType source)).bind (projection impl .owned) =
      pushed.bind fun pushed =>
        impl (ty.peel (start.then pushed)).2.capture ((ty.peel mode).1.shape constants) := by
  rw [normalize_boundType, hreads]
  cases pushed with
  | none => rfl
  | some pushed =>
      have hstart := projection_bound impl .move start (pushed.bound (ty.shape constants))
      rw [BindingMode.move_then] at hstart
      calc
        projection impl .owned (start.bound (pushed.bound (ty.shape constants)))
            = projection impl start.capture (pushed.bound (ty.shape constants)) := hstart
        _ = projection impl (start.then pushed).capture (ty.shape constants) :=
              projection_bound impl start pushed _
        _ = impl (ty.peel (start.then pushed)).2.capture ((ty.peel mode).1.shape constants) := by
              rw [projection_shape, Ty.peel_fst ty (start.then pushed) mode]

theorem bind_wrap (pushed : Option BindingMode) (shape : Shape) :
    (pushed.bind fun pushed => some (pushed.capture.wrap shape)) =
      pushed.map fun pushed => pushed.bound shape := by
  cases pushed with
  | none => rfl
  | some pushed => exact congrArg some (BindingMode.wrap_capture pushed shape)

/-- A projection of the source itself. -/
theorem reads_projection_move {source ty : Ty} {pushed : Option BindingMode}
    (hreads : Reads b aliased constants source pushed ty)
    (impl : CaptureMode → Shape → Option Shape) (mode : BindingMode) :
    (normalize b aliased constants source).bind (projection impl .owned) =
      (pushed.map fun pushed => (ty.peel pushed).2).bind fun pushed =>
        impl pushed.capture ((ty.peel mode).1.shape constants) := by
  have h := reads_projection hreads impl .move mode
  simp only [BindingMode.move_then] at h
  rw [Option.bind_map]
  exact h

theorem captureLength_bound (explicit : Nat) (pushed : BindingMode) (shape : Shape) :
    captureLength explicit (pushed.bound shape) = captureLength explicit shape := by
  cases pushed <;> rfl

theorem captureLength_peel (explicit : Nat) (ty : Ty) (mode : BindingMode) :
    captureLength explicit (ty.shape constants) =
      captureLength explicit ((ty.peel mode).1.shape constants) := by
  induction ty, mode using Ty.layers with
  | paren elem mode ih => exact ih
  | group elem mode ih => exact ih
  | reference lifetime mutable elem mode ih => exact ih
  | core ty mode hcore => rw [Ty.peel_of_not_layered hcore]

/-- The tail of a source whose length is known. -/
theorem normalize_arrayTail {source ty : Ty} {pushed : Option BindingMode}
    (hreads : Reads b aliased constants source pushed ty) (hsequence : b.sequenceProjections = true)
    {explicit remaining : Nat} (mode : BindingMode)
    (hlength : captureLength explicit ((ty.peel mode).1.shape constants) = some remaining) :
    normalize b aliased constants (.arrayTail source explicit source) =
      (pushed.map fun pushed => (ty.peel pushed).2).bind fun pushed =>
        arrayTailImpl remaining pushed.capture ((ty.peel mode).1.shape constants) := by
  rw [normalize, if_pos hsequence, ← reads_projection_move hreads _ mode]
  cases pushed with
  | none =>
      rw [show normalize b aliased constants source = none from hreads]
      rfl
  | some pushed =>
      rw [show normalize b aliased constants source = some _ from hreads]
      simp [captureLength_bound, captureLength_peel explicit ty mode, hlength, captureArrayTail]

theorem normalize_sequence {source ty : Ty} {pushed : Option BindingMode}
    (hreads : Reads b aliased constants source pushed ty) (hsequence : b.sequenceProjections = true)
    (mode : BindingMode) :
    (normalize b aliased constants (.element source) =
      (pushed.map fun pushed => (ty.peel pushed).2).bind fun pushed =>
        elementImpl pushed.capture ((ty.peel mode).1.shape constants)) ∧
    (normalize b aliased constants (.wholeSequence source) =
      (pushed.map fun pushed => (ty.peel pushed).2).bind fun pushed =>
        wholeSequenceImpl pushed.capture ((ty.peel mode).1.shape constants)) ∧
    normalize b aliased constants (.sliceTail source) =
      (pushed.map fun pushed => (ty.peel pushed).2).bind fun pushed =>
        sliceTailImpl pushed.capture ((ty.peel mode).1.shape constants) := by
  refine ⟨?_, ?_, ?_⟩
  · rw [normalize, if_pos hsequence]
    exact reads_projection_move hreads _ mode
  · rw [normalize, if_pos hsequence]
    exact reads_projection_move hreads _ mode
  · rw [normalize, if_pos hsequence]
    exact reads_projection_move hreads _ mode

/-! ### Tuples -/

theorem agreesAll_iff {elements : List Pat} {types : List Ty} {mode : BindingMode}
    {pushed : Option BindingMode} :
    agreesAll generics refutable elements types mode pushed = true ↔
      ∀ (i : Nat) (p : Pat) (ty : Ty), elements[i]? = some p → types[i]? = some ty →
        agrees generics refutable p ty mode pushed false = true := by
  induction elements generalizing types with
  | nil => simp [agreesAll]
  | cons p elements ih =>
      cases types with
      | nil => simp [agreesAll]
      | cons ty types =>
          simp only [agreesAll, Bool.and_eq_true, ih]
          refine ⟨?_, ?_⟩
          · intro h i p' ty' hp' hty'
            cases i with
            | zero =>
                cases hp'
                cases hty'
                exact h.1
            | succ i => exact h.2 i p' ty' (by simpa using hp') (by simpa using hty')
          · intro h
            refine ⟨h 0 p ty rfl rfl, ?_⟩
            intro i p' ty' hp' hty'
            exact h (i + 1) p' ty' (by simpa using hp') (by simpa using hty')

theorem nodup_reached {elements : List Pat} (h : (Pat.reachedAll elements).Nodup) :
    (∀ p ∈ elements, p.reached.Nodup) ∧ ∀ (i j : Nat) (p p' : Pat) (name : String),
      elements[i]? = some p → elements[j]? = some p' → name ∈ p.reached → name ∈ p'.reached →
        i = j := by
  induction elements with
  | nil => simp
  | cons first elements ih =>
      rcases List.nodup_append.1 h with ⟨hfirst, hothers, hdisjoint⟩
      rcases ih hothers with ⟨hnodup, hindex⟩
      refine ⟨?_, ?_⟩
      · intro p hp
        rcases List.mem_cons.1 hp with rfl | hp
        · exact hfirst
        · exact hnodup p hp
      · -- A name of the first element is not one of the others.
        have hsplit : ∀ {j : Nat} {p' : Pat} {name : String}, name ∈ first.reached →
            elements[j]? = some p' → name ∉ p'.reached := by
          intro j p' name hname hp' hname'
          exact hdisjoint name hname name
            (mem_reachedAll.2 ⟨p', List.mem_of_getElem? hp', hname'⟩) rfl
        intro i j p p' name hp hp' hname hname'
        cases i with
        | zero =>
            cases j with
            | zero => rfl
            | succ j =>
                cases hp
                exact absurd hname' (hsplit hname (by simpa using hp'))
        | succ i =>
            cases j with
            | zero =>
                cases hp'
                exact absurd hname (hsplit hname' (by simpa using hp))
            | succ j =>
                exact congrArg Nat.succ
                  (hindex i j p p' name (by simpa using hp) (by simpa using hp') hname hname')

theorem Ty.sized_shape (ty : Ty) : (ty.shape constants).sized = ty.sized := by
  induction ty, BindingMode.move using Ty.layers with
  | paren elem _ ih => exact ih
  | group elem _ ih => exact ih
  | reference lifetime mutable elem _ _ => rfl
  | core ty _ hcore =>
      cases ty <;> first
        | rfl
        | exact Bool.noConfusion hcore

theorem Ty.sized_shapes (types : List Ty) :
    (Ty.shapes constants types).all Shape.sized = types.all Ty.sized := by
  induction types with
  | nil => rfl
  | cons ty types ih => rw [Ty.shapes, List.all_cons, List.all_cons, ih, Ty.sized_shape]

/-- An element of a tuple under an alias. -/
theorem reads_tupleElement {source ty elem : Ty} {types : List Ty} {pushed : Option BindingMode}
    {mode : BindingMode} {i : Nat} (hreads : Reads b aliased constants source pushed ty)
    (hty : (ty.peel mode).1 = .tuple types) (helem : types[i]? = some elem)
    (hdeclared : b.tupleProjections.contains (types.length, i) = true) :
    Reads b aliased constants (.tupleElement types.length i source)
      (if types.all Ty.sized then pushed.map fun pushed => (ty.peel pushed).2 else none) elem := by
  rw [Reads, normalize, if_pos hdeclared, captureTuple, reads_projection_move hreads _ mode, hty]
  simp only [Ty.shape, tupleImpl, Ty.shapes_length, Ty.sized_shapes, Ty.shapes_getElem?, helem,
    true_and, Option.map_some, BindingMode.wrap_capture]
  cases types.all Ty.sized with
  | true => cases pushed <;> rfl
  | false => cases pushed <;> rfl

theorem typed_tuple_length {mode : BindingMode} {elements : List Pat} {types : List Ty}
    {Γ : List (String × Shape)} (hrest : elements.any Pat.isRest = false)
    (h : Typed mode (.tuple elements) (.tuple (Ty.shapes constants types)) Γ) :
    elements.length = types.length ∧ ∀ (i : Nat) (p : Pat) (elem : Ty), elements[i]? = some p →
      types[i]? = some elem → ∃ Δ, Typed mode p (elem.shape constants) Δ := by
  have hlength := @Ty.shapes_length constants types
  have hget := @Ty.shapes_getElem? constants types
  generalize Ty.shapes constants types = shapes at h hlength hget
  cases h with
  | tuple htyped =>
      refine ⟨htyped.length_eq.trans hlength, ?_⟩
      intro i p elem hp helem
      rcases htyped.get hp with ⟨shape, Δ, hshape, htyped, _⟩
      rw [hget, helem] at hshape
      cases hshape
      exact ⟨Δ, htyped⟩
  | tupleRest => simp [Pat.isRest] at hrest
  | unsupported hunsupported => cases hunsupported

/-- The rest index of a tuple pattern without a rest. -/
theorem findIdx?_eq_none {elements : List Pat} (hrest : elements.any Pat.isRest = false) :
    elements.findIdx? Pat.isRest = none := by
  rw [List.findIdx?_eq_none_iff]
  simpa using hrest

theorem emits_tuple_exact {elements : List Pat} {ty : Ty} {types : List Ty} {mode mode' : BindingMode}
    {u : Update} (hpeel : ty.peel mode = (.tuple types, mode'))
    (hrest : elements.any Pat.isRest = false) (hlength : elements.length = types.length) :
    Emits generics refutable (.tuple elements) ty mode u ↔
      ∃ (i : Nat) (p : Pat) (elem : Ty), elements[i]? = some p ∧ types[i]? = some elem ∧
        Emits generics refutable p elem mode' u := by
  rw [emits_tuple hpeel, findIdx?_eq_none hrest]
  refine ⟨?_, ?_⟩
  · intro h
    rcases h.2 with ⟨i, p, hp, _, k, elem, hk, helem, hemits⟩
    cases hk
    exact ⟨i, p, elem, hp, helem, hemits⟩
  · intro h
    rcases h with ⟨i, p, elem, hp, helem, hemits⟩
    refine ⟨⟨Nat.le_of_eq hlength, fun _ => hlength⟩, i, p, hp, ?_, i, elem, rfl, helem, hemits⟩
    have hall := List.any_eq_false.1 hrest p (List.mem_of_getElem? hp)
    simpa using hall

/-- The types of a pattern under an alias are those of the written type exactly when it agrees. -/
def Decides (b : Bindings) (aliased : List Segment → Option Shape) (constants : Constants)
    (generics : List String) (refutable : Bool) (p : Pat) : Prop :=
  ∀ {ty : Ty} {mode : BindingMode} {Γ : List (String × Shape)} {source : Ty}
    {pushed : Option BindingMode}, Typed mode p (ty.shape constants) Γ → p.reached.Nodup →
    source.isPath = true → Reads b aliased constants source pushed ty →
    Declared b generics refutable p source →
    (Same b aliased constants (fun name t => Emits generics refutable p ty mode (.insert name t))
        (fun name t => Emits generics refutable p source .move (.insert name t)) ↔
      agrees generics refutable p ty mode pushed (source.concrete generics) = true)

theorem decides_tuple {elements : List Pat}
    (ih : ∀ p ∈ elements, Decides b aliased constants generics refutable p) :
    Decides b aliased constants generics refutable (.tuple elements) := by
  intro ty mode Γ source pushed htyped hnodup hpath hreads hdeclared
  cases hrest : elements.any Pat.isRest with
  | true =>
      -- A tuple pattern with a rest records nothing under an alias.
      have hnone : observeAnnotated generics refutable (.tuple elements) source .move = some [] := by
        simp only [observeAnnotated, Ty.peel_of_isPath hpath, hrest]
        cases source <;> first
          | rfl
          | exact Bool.noConfusion hpath
      refine iff_of_true (fun name t₁ t₂ _ h₂ => absurd h₂ (not_emits_of_eq_nil hnone)) ?_
      simp only [agrees, hrest]
      split <;> rfl
  | false =>
      have hcore := Ty.layered_peel ty mode
      have htyped' := typed_peel rfl ty mode htyped
      rcases hpeel : ty.peel mode with ⟨core, mode'⟩
      rw [hpeel] at hcore htyped'
      rcases typed_tuple_core hcore htyped' with ⟨types, rfl⟩
      rcases typed_tuple_length hrest htyped' with ⟨hlength, helements⟩
      have htypes : (ty.peel mode).1 = .tuple types := by rw [hpeel]
      rcases nodup_reached hnodup with ⟨hreached, hindex⟩
      simp only [agrees, hpeel, hrest, Bool.false_or, agreesAll_iff]
      -- What is known of one element.
      have helement : ∀ (i : Nat) (p : Pat) (elem : Ty), elements[i]? = some p →
          types[i]? = some elem → p ≠ .wild →
          (Same b aliased constants
            (fun name t => Emits generics refutable p elem mode' (.insert name t))
            (fun name t => Emits generics refutable p (.tupleElement elements.length i source) .move
              (.insert name t)) ↔
          agrees generics refutable p elem mode'
            (if types.all Ty.sized then pushed.map fun pushed => (ty.peel pushed).2 else none)
            false = true) := by
        intro i p elem hp helem hwild
        rcases helements i p elem hp helem with ⟨Δ, htyped⟩
        have hemits : ∀ u, u = .tupleProjection elements.length i ∨
            Emits generics refutable p (.tupleElement elements.length i source) .move u →
            Emits generics refutable (.tuple elements) source .move u :=
          fun u hu => (emits_projected hpath hrest).2 ⟨i, p, hp, hwild, hu⟩
        rw [hlength] at hemits ⊢
        refine ih p (List.mem_of_getElem? hp) htyped (hreached p (List.mem_of_getElem? hp)) rfl
          (reads_tupleElement hreads htypes helem (hdeclared.tuple _ _ (hemits _ (Or.inl rfl)))) ?_
        exact ⟨fun arity index h => hdeclared.tuple arity index (hemits _ (Or.inr h)),
          fun h => hdeclared.sequence (hemits _ (Or.inr h))⟩
      refine ⟨?_, ?_⟩
      · intro h i p elem hp helem
        by_cases hwild : p = .wild
        · rw [hwild]
          rfl
        · refine (helement i p elem hp helem hwild).1 ?_
          intro name t₁ t₂ h₁ h₂
          exact h name t₁ t₂ ((emits_tuple_exact hpeel hrest hlength).2 ⟨i, p, elem, hp, helem, h₁⟩)
            ((emits_projected hpath hrest).2 ⟨i, p, hp, hwild, Or.inr h₂⟩)
      · intro h name t₁ t₂ h₁ h₂
        rcases (emits_tuple_exact hpeel hrest hlength).1 h₁ with ⟨i, p, elem, hp, helem, h₁⟩
        rcases (emits_projected hpath hrest).1 h₂ with ⟨j, p', hp', hwild, hprojection | h₂⟩
        · cases hprojection
        · have heq := hindex i j p p' name hp hp' (mem_reached_of_emits p h₁)
            (mem_reached_of_emits p' h₂)
          subst heq
          rw [hp] at hp'
          cases hp'
          exact (helement i p elem hp helem hwild).2 (h i p elem hp helem) name t₁ t₂ h₁ h₂

/-! ### Arrays and slices -/

theorem agreesElements_iff {elements : List Pat} {elem : Ty} {mode : BindingMode}
    {pushed : Option BindingMode} {restAgrees : Bool → Bool → Bool} :
    agreesElements generics refutable elements elem mode pushed restAgrees = true ↔
      (∀ p ∈ elements, sliceRest p = false →
        agrees generics refutable p elem mode pushed false = true) ∧
      ∀ byRef mutable ident, .ident byRef mutable ident (some .rest) ∈ elements →
        restAgrees byRef mutable = true := by
  induction elements with
  | nil => simp [agreesElements]
  | cons p elements ih =>
      cases hrest : sliceRest p with
      | false =>
          -- No bound rest, so the general equation applies.
          have hstep : agreesElements generics refutable (p :: elements) elem mode pushed restAgrees =
              (agrees generics refutable p elem mode pushed false &&
                agreesElements generics refutable elements elem mode pushed restAgrees) := by
            rw [agreesElements]
            intro byRef mutable ident heq
            rw [heq] at hrest
            cases hrest
          rw [hstep, Bool.and_eq_true, ih]
          have hne : ∀ byRef mutable ident, .ident byRef mutable ident (some .rest) ≠ p := by
            intro byRef mutable ident heq
            rw [← heq] at hrest
            cases hrest
          simp only [List.mem_cons, forall_eq_or_imp, hrest, forall_const, hne, false_or]
          exact and_assoc.symm
      | true =>
          cases p with
          | rest =>
              rw [agreesElements, Bool.and_eq_true, ih]
              · simp [agrees, sliceRest]
              · simp
          | ident byRef mutable ident subpattern =>
              cases subpattern with
              | none => cases hrest
              | some subpattern =>
                  cases subpattern with
                  | rest =>
                      -- A bound rest is judged by its modifiers alone.
                      rw [agreesElements, Bool.and_eq_true, ih]
                      simp only [List.mem_cons, forall_eq_or_imp, hrest, Bool.true_eq_false,
                        false_imp_iff, true_and]
                      refine ⟨?_, ?_⟩
                      · intro h
                        refine ⟨h.2.1, ?_⟩
                        intro byRef' mutable' ident' hmem
                        rcases hmem with heq | hmem
                        · cases heq
                          exact h.1
                        · exact h.2.2 byRef' mutable' ident' hmem
                      · intro h
                        exact ⟨h.2 byRef mutable ident (Or.inl rfl), h.1,
                          fun byRef' mutable' ident' hmem =>
                            h.2 byRef' mutable' ident' (Or.inr hmem)⟩
                  | _ => cases hrest
          | _ => cases hrest

/-- Two recorded types of one variable. -/
theorem same_singleton {x : String} {t₁ t₂ : Ty} {direct underAlias : String → Ty → Prop}
    (hdirect : ∀ name t, direct name t ↔ name = x ∧ t = t₁)
    (hunder : ∀ name t, underAlias name t ↔ name = x ∧ t = t₂) :
    Same b aliased constants direct underAlias ↔
      normalize b aliased constants t₂ = some (t₁.shape constants) := by
  refine ⟨?_, ?_⟩
  · intro h
    exact h x t₁ t₂ ((hdirect _ _).2 ⟨rfl, rfl⟩) ((hunder _ _).2 ⟨rfl, rfl⟩)
  · intro h name t t' hone htwo
    rw [((hdirect _ _).1 hone).2, ((hunder _ _).1 htwo).2]
    exact h

theorem mem_observeRest {byRef mutable : Bool} {ident : Ident} {tail : Ty} {mode : BindingMode}
    (name : String) (t : Ty) :
    Update.insert name t ∈
        observeRest (.ident byRef mutable ident (some .rest)) (some tail) mode ↔
      name = ident.name ∧ t = (mode.explicit byRef mutable).boundType tail.ungroup := by
  simp [observeRest, observeIdent]

theorem BindingMode.ref_then (pushed : BindingMode) : BindingMode.ref.then pushed = .ref := by
  cases pushed <;> rfl

/-- When a borrowed rest has the borrow of the binding. -/
theorem borrowed_agrees {ty : Ty} {pushed : Option BindingMode} {mutable : Bool}
    {mode : BindingMode} {shape : Shape} {project : BindingMode → Option Shape}
    (hproject : ∀ mode' : BindingMode, project mode' = some (.reference mutable shape) ↔
      mode' = BindingMode.move.explicit true mutable) :
    (pushed.bind fun pushed =>
        project (ty.peel ((BindingMode.move.explicit true mutable).then pushed)).2) =
      some (.reference mutable shape) ↔
      wholeAgrees true mutable mode (pushed.map fun pushed => (ty.peel pushed).2) = true := by
  cases pushed with
  | none => simp [wholeAgrees]
  | some pushed =>
      simp only [Option.bind_some, hproject, wholeAgrees, Option.map_some, if_true]
      cases mutable with
      | false => simp [BindingMode.explicit, BindingMode.ref_then, Ty.peel_ref]
      | true => simp [BindingMode.explicit, Ty.peel_refMut_then]

theorem sliceWrap_capture {mode mode' : BindingMode} {elem : Shape} (hmode : mode' ≠ .move) :
    mode.capture.sliceWrap elem = some (mode'.bound (.slice elem)) ↔ mode = mode' := by
  cases mode <;> cases mode' <;>
    simp_all [BindingMode.capture, CaptureMode.sliceWrap]

theorem explicit_borrowed_ne_move (mutable : Bool) :
    BindingMode.move.explicit true mutable ≠ .move := by
  cases mutable <;> decide

theorem bound_explicit_borrowed (mutable : Bool) (shape : Shape) (mode : BindingMode) :
    (mode.explicit true mutable).bound shape = .reference mutable shape := by
  cases mutable <;> rfl

theorem arrayRest_known {elem : Ty} {len : Length} {explicit : Nat} {tail : Option Ty}
    (h : arrayRest generics elem len explicit = some tail) :
    tail.isSome = restKnown generics len explicit := by
  simp only [arrayRest] at h
  split at h
  · rename_i hzero
    cases h
    simp [restKnown, hzero]
  · rename_i hzero
    split at h
    · rename_i length hlength
      rcases Option.map_eq_some_iff.1 h with ⟨remaining, _, heq⟩
      cases heq
      simp [restKnown, hlength]
    · rename_i hlength
      cases h
      cases hconcrete : concreteLength generics len <;> simp [restKnown, hzero, hlength, hconcrete]

/-- What an element of a slice pattern records under an alias. -/
def UnderAlias (generics : List String) (refutable : Bool) (source : Ty) (explicit : Nat) (p : Pat)
    (name : String) (t : Ty) : Prop :=
  if explicit = 0 ∧ p.borrows then Update.insert name t ∈ observeBorrowedRest p source
  else ElementEmits generics refutable (.element source)
    (aliasRest generics refutable source source explicit) .move p (.insert name t)

section Rest

variable {source ty elem : Ty} {pushed : Option BindingMode} {mode mode' : BindingMode}
variable {byRef mutable : Bool} {ident : Ident} {explicit : Nat}

theorem underAlias_borrowed (name : String) (t : Ty) :
    UnderAlias generics refutable source 0 (.ident true mutable ident (some .rest)) name t ↔
      name = ident.name ∧
        t = .wholeSequence ((BindingMode.move.explicit true mutable).boundType source) := by
  simp [UnderAlias, Pat.borrows, observeBorrowedRest]

/-- A rest that is not a borrow of the whole source. -/
theorem underAlias_rest (hborrows : ¬ (explicit = 0 ∧ byRef = true)) (name : String) (t : Ty) :
    UnderAlias generics refutable source explicit (.ident byRef mutable ident (some .rest)) name t ↔
      Update.insert name t ∈ observeRest (.ident byRef mutable ident (some .rest))
        (aliasRest generics refutable source source explicit) .move := by
  have hborrows' :
      ¬ (explicit = 0 ∧ (Pat.ident byRef mutable ident (some .rest)).borrows = true) := by
    intro h
    cases byRef with
    | true => exact hborrows ⟨h.1, rfl⟩
    | false => exact Bool.noConfusion h.2
  have hrest : sliceRest (.ident byRef mutable ident (some .rest)) = true := rfl
  rw [UnderAlias, if_neg hborrows', ElementEmits, if_pos hrest]

/-- The type of a rest that is not a borrow of the whole source. -/
theorem same_rest {direct tail : Ty} (hborrows : ¬ (explicit = 0 ∧ byRef = true))
    (htail : aliasRest generics refutable source source explicit = some tail)
    (hpath : tail.isPath = true) :
    Same b aliased constants
        (fun name t => Update.insert name t ∈
          observeRest (.ident byRef mutable ident (some .rest)) (some direct) mode')
        (UnderAlias generics refutable source explicit (.ident byRef mutable ident (some .rest))) ↔
      (normalize b aliased constants tail).map (BindingMode.move.explicit byRef mutable).bound =
        some ((mode'.explicit byRef mutable).bound (direct.shape constants)) := by
  rw [same_singleton (mem_observeRest ·) fun name t => (underAlias_rest hborrows name t).trans
    (htail ▸ mem_observeRest name t), normalize_boundType, BindingMode.shape_boundType,
    Ty.shape_ungroup, Ty.ungroup_of_isPath hpath]

theorem same_rest_none {direct : Option Ty} (hborrows : ¬ (explicit = 0 ∧ byRef = true))
    (htail : aliasRest generics refutable source source explicit = none) :
    Same b aliased constants
      (fun name t => Update.insert name t ∈
        observeRest (.ident byRef mutable ident (some .rest)) direct mode')
      (UnderAlias generics refutable source explicit (.ident byRef mutable ident (some .rest))) := by
  intro name t₁ t₂ _ h₂
  rw [underAlias_rest hborrows, htail] at h₂
  exact absurd h₂ List.not_mem_nil

/-- The rest of a pattern without other elements that borrows the whole source, where the source is
a sequence. -/
theorem same_borrowed_rest {direct : Ty} (hreads : Reads b aliased constants source pushed ty)
    (hsequence : b.sequenceProjections = true)
    (hdirect : direct.shape constants = (ty.peel mode).1.shape constants)
    (hwhole : ∀ mode'' : BindingMode,
      wholeSequenceImpl mode''.capture ((ty.peel mode).1.shape constants) =
          some ((BindingMode.move.explicit true mutable).bound
            ((ty.peel mode).1.shape constants)) ↔
        mode'' = BindingMode.move.explicit true mutable) :
    Same b aliased constants
        (fun name t => Update.insert name t ∈
          observeRest (.ident true mutable ident (some .rest)) (some direct) mode')
        (UnderAlias generics refutable source 0 (.ident true mutable ident (some .rest))) ↔
      wholeAgrees true mutable mode' (pushed.map fun pushed => (ty.peel pushed).2) = true := by
  rw [same_singleton (mem_observeRest ·) (underAlias_borrowed ·), normalize, if_pos hsequence,
    captureWholeSequence, reads_projection hreads _ _ mode, BindingMode.shape_boundType,
    Ty.shape_ungroup, bound_explicit_borrowed, hdirect]
  refine @borrowed_agrees ty pushed mutable mode' _
    (fun mode'' => wholeSequenceImpl mode''.capture ((ty.peel mode).1.shape constants)) ?_
  intro mode''
  rw [← bound_explicit_borrowed mutable _ .move]
  exact hwhole mode''

/-- The rest of an array pattern. -/
theorem same_array_rest {len : Length} {tail : Option Ty}
    (hreads : Reads b aliased constants source pushed ty) (hsequence : b.sequenceProjections = true)
    (hty : (ty.peel mode).1 = .array elem len)
    (htail : arrayRest generics elem len explicit = some tail)
    (hexplicit : explicit ≤ len.value constants) :
    Same b aliased constants
        (fun name t => Update.insert name t ∈
          observeRest (.ident byRef mutable ident (some .rest)) tail mode')
        (UnderAlias generics refutable source explicit (.ident byRef mutable ident (some .rest))) ↔
      arrayRestAgrees generics refutable (source.concrete generics) byRef mutable len explicit mode'
        (pushed.map fun pushed => (ty.peel pushed).2) = true := by
  have hknown := arrayRest_known htail
  rw [arrayRestAgrees, ← hknown]
  cases tail with
  | none =>
      -- The direct analysis records no type for the rest.
      refine iff_of_true ?_ rfl
      intro name t₁ t₂ h₁ _
      exact absurd h₁ List.not_mem_nil
  | some tail =>
      have hshape := @arrayRest_shape constants _ _ _ _ _ htail
      rcases normalize_sequence hreads hsequence mode with ⟨_, hwhole, hslice⟩
      rw [hty] at hwhole hslice
      simp only [Option.isSome_some, Bool.not_true, Bool.false_or]
      by_cases hzero : explicit = 0
      · -- The rest is the whole sequence.
        subst hzero
        rw [if_pos rfl]
        cases byRef with
        | true =>
            have hdirect : tail.shape constants = (ty.peel mode).1.shape constants := by
              rw [hty]
              exact hshape
            refine same_borrowed_rest hreads hsequence hdirect ?_
            intro mode''
            rw [hty]
            simp [Ty.shape, wholeSequenceImpl, BindingMode.wrap_capture, bound_inj]
        | false =>
            rw [same_rest (by simp) rfl rfl, hwhole.trans (bind_wrap _ _), hshape]
            exact identAgrees_iff
      · rw [if_neg hzero]
        -- A part of the sequence: which trait names it depends on the annotation.
        have hborrows : ¬ (explicit = 0 ∧ byRef = true) := fun h => hzero h.1
        cases hconcrete : source.concrete generics with
        | true =>
            have hrest : aliasRest generics refutable source source explicit =
                some (.arrayTail source explicit source) := by
              simp [aliasRest, hzero, hconcrete]
            have hlength : captureLength explicit ((ty.peel mode).1.shape constants) =
                some (len.value constants - explicit) := by
              rw [hty]
              exact checkedSub_of_le hexplicit
            have htail := normalize_arrayTail hreads hsequence mode hlength
            rw [hty] at htail
            rw [same_rest hborrows hrest rfl, htail.trans (bind_wrap _ _), hshape, if_pos rfl]
            exact identAgrees_iff
        | false =>
            cases refutable with
            | false =>
                refine iff_of_true (same_rest_none hborrows ?_) rfl
                simp [aliasRest, hzero, hconcrete]
            | true =>
                -- Arrays have no `CaptureSliceTail`.
                have hrest : aliasRest generics true source source explicit =
                    some (.sliceTail source) := by
                  simp [aliasRest, hzero, hconcrete]
                rw [same_rest hborrows hrest rfl, hslice]
                cases pushed <;> simp [Ty.shape, sliceTailImpl]

/-- The rest of a slice cannot be moved out of it. -/
theorem typedRest_slice {shape : Shape} {Γ : List (String × Shape)}
    (h : TypedRest mode' (.ident byRef mutable ident (some .rest)) (.slice shape) Γ) :
    byRef = true ∨ byRef = false ∧ mutable = false ∧ mode' ≠ .move := by
  cases h with
  | bound htyped =>
      cases htyped with
      | plain hsized =>
          refine Or.inr ⟨rfl, rfl, ?_⟩
          intro heq
          rw [heq] at hsized
          cases hsized
      | byMove hsized => cases hsized
      | byRef => exact Or.inl rfl
      | unsupported hunsupported => cases hunsupported

/-- A tail of a slice is a reference already. -/
theorem sliceWrap_agrees {shape : Shape}
    (hrest : byRef = true ∨ byRef = false ∧ mutable = false ∧ mode' ≠ .move) :
    (pushed.bind fun pushed => pushed.capture.sliceWrap shape).map
        (BindingMode.move.explicit byRef mutable).bound =
      some ((mode'.explicit byRef mutable).bound (.slice shape)) ↔
      (!byRef && !mutable && pushed == some mode') = true := by
  cases pushed with
  | none => simp
  | some pushed =>
      rcases hrest with rfl | ⟨rfl, rfl, hmove⟩
      · rw [Option.bind_some, bound_explicit_borrowed]
        cases pushed <;> cases mutable <;>
          simp [BindingMode.capture, CaptureMode.sliceWrap, BindingMode.explicit]
      · have hid : (BindingMode.move.explicit false false).bound = id := rfl
        have hmode : mode'.explicit false false = mode' := rfl
        rw [Option.bind_some, hid, Option.map_id, hmode]
        exact (sliceWrap_capture hmove).trans (by simp)

/-- The rest of a slice pattern against a slice. -/
theorem same_slice_rest {Γ : List (String × Shape)}
    (hreads : Reads b aliased constants source pushed ty) (hsequence : b.sequenceProjections = true)
    (hty : (ty.peel mode).1 = .slice elem)
    (htyped : TypedRest mode' (.ident byRef mutable ident (some .rest))
      (.slice (elem.shape constants)) Γ) :
    Same b aliased constants
        (fun name t => Update.insert name t ∈
          observeRest (.ident byRef mutable ident (some .rest)) (some (.slice elem)) mode')
        (UnderAlias generics refutable source explicit (.ident byRef mutable ident (some .rest))) ↔
      sliceRestAgrees refutable (source.concrete generics) byRef mutable explicit mode'
        (pushed.map fun pushed => (ty.peel pushed).2) = true := by
  have hsized := typedRest_slice htyped
  rcases normalize_sequence hreads hsequence mode with ⟨_, hwhole, hslice⟩
  rw [hty] at hwhole hslice
  rw [sliceRestAgrees]
  by_cases hzero : explicit = 0
  · -- The rest is the whole sequence.
    subst hzero
    rw [if_pos rfl]
    cases byRef with
    | true =>
        refine same_borrowed_rest hreads hsequence (by rw [hty]) ?_
        intro mode''
        rw [hty]
        exact sliceWrap_capture (explicit_borrowed_ne_move mutable)
    | false =>
        rcases hsized with hborrowed | ⟨_, rfl, hmove⟩
        · cases hborrowed
        · rw [same_rest (by simp) rfl rfl, hwhole]
          refine (sliceWrap_agrees (Or.inr ⟨rfl, rfl, hmove⟩)).trans ?_
          cases pushed <;> simp [wholeAgrees, identAgrees]
  · rw [if_neg hzero]
    -- A part of the sequence, which is a reference whatever trait names it.
    have hborrows : ¬ (explicit = 0 ∧ byRef = true) := fun h => hzero h.1
    cases hconcrete : source.concrete generics with
    | true =>
        have hrest : aliasRest generics refutable source source explicit =
            some (.arrayTail source explicit source) := by
          simp [aliasRest, hzero, hconcrete]
        have htail := normalize_arrayTail hreads hsequence mode
          (show captureLength explicit ((ty.peel mode).1.shape constants) = some 0 by
            rw [hty]
            rfl)
        rw [hty] at htail
        rw [same_rest hborrows hrest rfl, htail]
        exact sliceWrap_agrees hsized
    | false =>
        cases refutable with
        | true =>
            have hrest : aliasRest generics true source source explicit =
                some (.sliceTail source) := by
              simp [aliasRest, hzero, hconcrete]
            rw [same_rest hborrows hrest rfl, hslice]
            exact sliceWrap_agrees hsized
        | false =>
            refine iff_of_true (same_rest_none hborrows ?_) rfl
            simp [aliasRest, hzero, hconcrete]

end Rest

theorem underAlias_reached {source : Ty} {elements : List Pat} {p : Pat} {name : String} {t : Ty}
    (hp : p ∈ elements)
    (h : UnderAlias generics refutable source (elements.countP (!sliceRest ·)) p name t) :
    name ∈ p.reached := by
  rw [UnderAlias] at h
  split at h
  · rename_i hborrows
    have hrest : sliceRest p = true := by
      simpa using List.countP_eq_zero.1 hborrows.1 p hp
    exact (inserted_observeBorrowedRest hrest _).subset (mem_inserted h)
  · exact elementEmits_reached h

theorem countP_ne_zero {elements : List Pat} {p : Pat} (hp : p ∈ elements)
    (hfalse : sliceRest p = false) : elements.countP (!sliceRest ·) ≠ 0 := by
  intro hzero
  have hall := List.countP_eq_zero.1 hzero p hp
  rw [hfalse] at hall
  exact hall rfl

/-- Elements of a slice pattern, one by one. -/
theorem same_elements {elements : List Pat} {elem source : Ty} {tail : Option Ty}
    {mode : BindingMode} {pushed : Option BindingMode} {restAgrees : Bool → Bool → Bool}
    (ih : ∀ p ∈ elements, Decides b aliased constants generics refutable p)
    (hnodup : (Pat.reachedAll elements).Nodup)
    (htyped : ∀ p ∈ elements, sliceRest p = false → ∃ Δ, Typed mode p (elem.shape constants) Δ)
    (hreads : Reads b aliased constants (.element source) pushed elem)
    (hdeclared : ∀ p ∈ elements, sliceRest p = false →
      Declared b generics refutable p (.element source))
    (hrest : ∀ byRef mutable ident, .ident byRef mutable ident (some .rest) ∈ elements →
      (Same b aliased constants
          (fun name t => Update.insert name t ∈
            observeRest (.ident byRef mutable ident (some .rest)) tail mode)
          (UnderAlias generics refutable source (elements.countP (!sliceRest ·))
            (.ident byRef mutable ident (some .rest))) ↔ restAgrees byRef mutable = true)) :
    Same b aliased constants
        (fun name t => ∃ p ∈ elements,
          ElementEmits generics refutable elem tail mode p (.insert name t))
        (fun name t => ∃ p ∈ elements,
          UnderAlias generics refutable source (elements.countP (!sliceRest ·)) p name t) ↔
      agreesElements generics refutable elements elem mode pushed restAgrees = true := by
  rcases nodup_reached hnodup with ⟨hreached, hindex⟩
  -- Under an alias an element that is not the rest is observed at the element type.
  have hunder : ∀ p ∈ elements, sliceRest p = false → ∀ name t,
      UnderAlias generics refutable source (elements.countP (!sliceRest ·)) p name t ↔
        Emits generics refutable p (.element source) .move (.insert name t) := by
    intro p hp hfalse name t
    have hpos := countP_ne_zero hp hfalse
    rw [UnderAlias, if_neg fun h => hpos h.1, ElementEmits, if_neg (by simp [hfalse])]
  have helement : ∀ p ∈ elements, sliceRest p = false →
      (Same b aliased constants
          (fun name t => Emits generics refutable p elem mode (.insert name t))
          (fun name t => Emits generics refutable p (.element source) .move (.insert name t)) ↔
        agrees generics refutable p elem mode pushed false = true) := by
    intro p hp hfalse
    rcases htyped p hp hfalse with ⟨Δ, htyped⟩
    exact ih p hp htyped (hreached p hp) rfl hreads (hdeclared p hp hfalse)
  rw [agreesElements_iff]
  refine ⟨?_, ?_⟩
  · intro h
    refine ⟨?_, ?_⟩
    · intro p hp hfalse
      refine (helement p hp hfalse).1 ?_
      intro name t₁ t₂ h₁ h₂
      refine h name t₁ t₂ ⟨p, hp, ?_⟩ ⟨p, hp, (hunder p hp hfalse name t₂).2 h₂⟩
      rw [ElementEmits, if_neg (by simp [hfalse])]
      exact h₁
    · intro byRef mutable ident hp
      refine (hrest byRef mutable ident hp).1 ?_
      intro name t₁ t₂ h₁ h₂
      exact h name t₁ t₂ ⟨_, hp, h₁⟩ ⟨_, hp, h₂⟩
  · intro h name t₁ t₂ h₁ h₂
    rcases h₁ with ⟨p, hp, h₁⟩
    rcases h₂ with ⟨p', hp', h₂⟩
    rcases List.mem_iff_getElem?.1 hp with ⟨i, hi⟩
    rcases List.mem_iff_getElem?.1 hp' with ⟨j, hj⟩
    have heq := hindex i j p p' name hi hj (elementEmits_reached h₁) (underAlias_reached hp' h₂)
    subst heq
    rw [hi] at hj
    cases hj
    cases hfalse : sliceRest p with
    | false =>
        rw [ElementEmits, if_neg (by simp [hfalse])] at h₁
        exact (helement p hp hfalse).2 (h.1 p hp hfalse) name t₁ t₂ h₁
          ((hunder p hp hfalse name t₂).1 h₂)
    | true =>
        rw [ElementEmits, if_pos hfalse] at h₁
        cases p with
        | ident byRef mutable ident subpattern =>
            cases subpattern with
            | none => cases hfalse
            | some subpattern =>
                cases subpattern with
                | rest =>
                    exact (hrest byRef mutable ident hp).2 (h.2 byRef mutable ident hp) name t₁ t₂
                      h₁ h₂
                | _ => cases hfalse
        | _ => cases h₁

theorem same_congr {direct direct' underAlias underAlias' : String → Ty → Prop}
    (hdirect : ∀ name t, direct name t ↔ direct' name t)
    (hunder : ∀ name t, underAlias name t ↔ underAlias' name t) :
    Same b aliased constants direct underAlias ↔ Same b aliased constants direct' underAlias' := by
  simp only [Same, hdirect, hunder]

theorem decides_slice {elements : List Pat}
    (ih : ∀ p ∈ elements, Decides b aliased constants generics refutable p) :
    Decides b aliased constants generics refutable (.slice elements) := by
  intro ty mode Γ source pushed htyped hnodup hpath hreads hdeclared
  have hcore := Ty.layered_peel ty mode
  have htyped' := typed_peel rfl ty mode htyped
  have hsequence := hdeclared.sequence ((emits_sequence hpath).2 (Or.inl rfl))
  -- The sources of the elements and what is recorded under the alias.
  have hunder : ∀ name t, Emits generics refutable (.slice elements) source .move (.insert name t) ↔
      ∃ p ∈ elements,
        UnderAlias generics refutable source (elements.countP (!sliceRest ·)) p name t := by
    intro name t
    refine (emits_sequence hpath).trans ⟨?_, Or.inr⟩
    intro h
    rcases h with hflag | h
    · cases hflag
    · exact h
  have hsource : ∀ p ∈ elements, sliceRest p = false →
      Declared b generics refutable p (.element source) := by
    intro p hp hfalse
    have hpos := countP_ne_zero hp hfalse
    have hemits : ∀ u, Emits generics refutable p (.element source) .move u →
        Emits generics refutable (.slice elements) source .move u := by
      intro u hu
      refine (emits_sequence hpath).2 (Or.inr ⟨p, hp, ?_⟩)
      rw [if_neg fun h => hpos h.1, ElementEmits, if_neg (by simp [hfalse])]
      exact hu
    exact ⟨fun arity index h => hdeclared.tuple arity index (hemits _ h),
      fun h => hdeclared.sequence (hemits _ h)⟩
  rcases hpeel : ty.peel mode with ⟨core, mode'⟩
  rw [hpeel] at hcore htyped'
  rcases typed_slice_core hcore htyped' with ⟨elem, len, rfl⟩ | ⟨elem, rfl⟩
  · have hty : (ty.peel mode).1 = .array elem len := by rw [hpeel]
    have helem := (normalize_sequence hreads hsequence mode).1
    rw [hty] at helem
    have hfits := typed_array_fits htyped'
    have hfits' : ArrayFits elements len := by
      refine ⟨hfits.1, ?_⟩
      intro length hlength
      rw [← @Length.value_of_literalLength constants _ _ hlength]
      exact hfits.2
    rcases arrayRest_total generics elem len _ (fun length hlength => (hfits'.2 length hlength).1)
      with ⟨tail, htail⟩
    have hdirect : ∀ name t, Emits generics refutable (.slice elements) ty mode (.insert name t) ↔
        ∃ p ∈ elements, ElementEmits generics refutable elem tail mode' p (.insert name t) := by
      intro name t
      rw [emits_array hpeel, htail]
      simp [hfits']
    simp only [agrees, hpeel]
    rw [same_congr hdirect hunder]
    refine same_elements ih hnodup ?_ (helem.trans (bind_wrap _ _)) hsource ?_
    · intro p hp hfalse
      rcases typed_array_element htyped' hp with ⟨Δ, htyped, _⟩ | ⟨_, Δ, _, htyped, _⟩
      · exact ⟨Δ, htyped⟩
      · rw [sliceRest_of_typedRest htyped] at hfalse
        cases hfalse
    · intro byRef mutable ident _
      exact same_array_rest hreads hsequence hty htail hfits.2.1
  · have hty : (ty.peel mode).1 = .slice elem := by rw [hpeel]
    have helem := (normalize_sequence hreads hsequence mode).1
    rw [hty] at helem
    have hfits := typed_slice_fits htyped'
    simp only [agrees, hpeel]
    rw [same_congr (fun name t => (emits_slice hpeel).trans (and_iff_right hfits)) hunder]
    refine same_elements ih hnodup ?_ (helem.trans (bind_wrap _ _)) hsource ?_
    · intro p hp hfalse
      rcases typed_slice_element htyped' hp with ⟨Δ, htyped, _⟩ | ⟨Δ, htyped, _⟩
      · exact ⟨Δ, htyped⟩
      · rw [sliceRest_of_typedRest htyped] at hfalse
        cases hfalse
    · intro byRef mutable ident hp
      rcases typed_slice_element htyped' hp with ⟨Δ, htyped, _⟩ | ⟨Δ, htyped, _⟩
      · exact absurd (sliceRest_of_typed htyped) (by simp [sliceRest])
      · exact same_slice_rest hreads hsequence hty htyped

theorem decides (p : Pat) : Decides b aliased constants generics refutable p := by
  induction p using Pat.induct with
  | ident byRef mutable ident subpattern =>
      cases subpattern with
      | none =>
          intro ty mode Γ source pushed _ _ hpath hreads _
          exact same_ident hpath hreads
      | some subpattern =>
          intro ty mode Γ source pushed _ _ _ _ _
          exact iff_of_true (fun _ _ _ _ h₂ => absurd h₂ (not_emits_of_eq_nil rfl)) rfl
  | paren p ih =>
      intro ty mode Γ source pushed htyped hnodup hpath hreads hdeclared
      exact ih (typed_paren htyped) hnodup hpath hreads ⟨hdeclared.tuple, hdeclared.sequence⟩
  | reference mutable p ih =>
      intro ty mode Γ source pushed htyped hnodup hpath hreads hdeclared
      rcases typed_reference htyped with ⟨target, hshape, htyped⟩
      rcases Ty.shape_eq_reference hshape with ⟨lifetime, elem, hty, rfl⟩
      rw [same_congr (fun _ _ => emits_reference hty) (fun _ _ => emits_deref hpath)]
      simp only [agrees, hty]
      refine ih htyped hnodup rfl (reads_deref hreads hty) ⟨?_, ?_⟩
      · intro arity index h
        exact hdeclared.tuple arity index ((emits_deref hpath).2 h)
      · intro h
        exact hdeclared.sequence ((emits_deref hpath).2 h)
  | tuple elements ih => exact decides_tuple ih
  | slice elements ih => exact decides_slice ih
  | _ =>
      intro ty mode Γ source pushed _ _ _ _ _
      exact iff_of_true (fun _ _ _ _ h₂ => absurd h₂ (not_emits_of_eq_nil rfl)) rfl

end Alias

/-! ## Observed bindings -/

theorem reachedAll_sublist {mode : BindingMode} {elements : List Pat} {shapes : List Shape}
    {Γ : List (String × Shape)}
    (ih : ∀ p ∈ elements, ∀ {mode shape Γ}, Typed mode p shape Γ →
      p.reached.Sublist (Γ.map Prod.fst)) (h : TypedAll mode elements shapes Γ) :
    (Pat.reachedAll elements).Sublist (Γ.map Prod.fst) := by
  induction elements generalizing shapes Γ with
  | nil => exact List.nil_sublist _
  | cons p elements ihrest =>
      cases h with
      | cons hfirst hothers =>
          rw [List.map_append]
          exact (ih p List.mem_cons_self hfirst).append
            (ihrest (fun p hp => ih p (List.mem_cons_of_mem _ hp)) hothers)

theorem reachedAll_append (front back : List Pat) :
    Pat.reachedAll (front ++ back) = Pat.reachedAll front ++ Pat.reachedAll back := by
  induction front with
  | nil => rfl
  | cons p front ih => rw [List.cons_append, Pat.reachedAll, Pat.reachedAll, ih, List.append_assoc]

/-- The variables an observation reaches are distinct if those of the pattern are. -/
theorem reached_sublist (p : Pat) : ∀ {mode shape Γ}, Typed mode p shape Γ →
    p.reached.Sublist (Γ.map Prod.fst) := by
  induction p using Pat.induct with
  | ident byRef mutable ident subpattern =>
      intro mode shape Γ h
      cases subpattern with
      | none =>
          rw [typed_ident h]
          exact List.Sublist.refl _
      | some subpattern =>
          cases subpattern with
          | rest =>
              -- Arrays and slices share the split around the rest.
              have hrest := sliceRest_of_typed h
              cases hrest
          | _ => exact List.nil_sublist _
  | paren p ih => exact fun h => ih (typed_paren h)
  | reference mutable p ih =>
      intro mode shape Γ h
      rcases typed_reference h with ⟨target, _, htyped⟩
      exact ih htyped
  | tuple elements ih =>
      intro mode shape Γ h
      rcases typed_core rfl shape h with ⟨mode', core, hcore, htyped⟩
      cases htyped with
      | through => exact absurd rfl (hcore _ _)
      | tuple htyped => exact reachedAll_sublist ih htyped
      | tupleRest hfront hback =>
          simp only [Pat.reached, reachedAll_append, Pat.reachedAll, List.nil_append,
            List.map_append]
          exact (reachedAll_sublist (fun p hp => ih p (List.mem_append_left _ hp)) hfront).append
            (reachedAll_sublist
              (fun p hp => ih p (List.mem_append_right _ (List.mem_cons_of_mem _ hp))) hback)
      | unsupported hunsupported => cases hunsupported
  | slice elements ih =>
      intro mode shape Γ h
      have hrest : ∀ {front back : List Pat} {tail : Pat} {shape tailShape : Shape} {mode Γ Δ Γ'},
          elements = front ++ tail :: back →
          TypedAll mode front (List.replicate front.length shape) Γ →
          TypedRest mode tail tailShape Δ →
          TypedAll mode back (List.replicate back.length shape) Γ' →
          (Pat.reachedAll elements).Sublist ((Γ ++ Δ ++ Γ').map Prod.fst) := by
        intro front back tail shape tailShape mode Γ Δ Γ' heq hfront htail hback
        subst heq
        have htail' : tail.reached.Sublist (Δ.map Prod.fst) := by
          cases htail with
          | unbound => exact List.nil_sublist _
          | bound htyped =>
              rw [typed_ident htyped]
              exact List.Sublist.refl _
        rw [reachedAll_append, Pat.reachedAll, List.map_append, List.map_append, List.append_assoc]
        exact (reachedAll_sublist (fun p hp => ih p (List.mem_append_left _ hp)) hfront).append
          (htail'.append (reachedAll_sublist
            (fun p hp => ih p (List.mem_append_right _ (List.mem_cons_of_mem _ hp))) hback))
      rcases typed_core rfl shape h with ⟨mode', core, hcore, htyped⟩
      cases htyped with
      | through => exact absurd rfl (hcore _ _)
      | array htyped => exact reachedAll_sublist ih htyped
      | arrayRest hfront htail hback => exact hrest rfl hfront htail hback
      | slice htyped => exact reachedAll_sublist ih htyped
      | sliceRest hfront htail hback => exact hrest rfl hfront htail hback
      | unsupported hunsupported => cases hunsupported
  | _ => exact fun _ => List.nil_sublist _

/-- Distinct names keep the type they have been given. -/
theorem types_updates_iff {updates : List Update} {b : Bindings} {name : String} {t : Ty}
    (hnodup : (inserted updates).Nodup) (hname : b.types name = some none) :
    (updates.foldl Bindings.update b).types name = some (some t) ↔ .insert name t ∈ updates := by
  -- A name is inserted once, so the last insertion is the only one.
  have hunique : ∀ t', .insert name t' ∈ updates → .insert name t ∈ updates → t' = t := by
    intro t' hmem' hmem
    clear hname
    induction updates with
    | nil => cases hmem
    | cons u updates ih =>
        rcases List.mem_cons.1 hmem' with rfl | hlater'
        · rcases List.mem_cons.1 hmem with heq | hlater
          · cases heq
            rfl
          · exact absurd (mem_inserted hlater) (List.nodup_cons.1 hnodup).1
        · rcases List.mem_cons.1 hmem with rfl | hlater
          · exact absurd (mem_inserted hlater') (List.nodup_cons.1 hnodup).1
          · refine ih ?_ hlater' hlater
            cases u with
            | insert other ty => exact (List.nodup_cons.1 hnodup).2
            | tupleProjection arity index => exact hnodup
            | sequenceProjections => exact hnodup
  rcases b.types_updates updates name with ⟨t', hmem, htypes⟩ | ⟨hnone, htypes⟩
  · rw [htypes]
    refine ⟨?_, ?_⟩
    · intro heq
      cases heq
      exact hmem
    · intro hmem'
      rw [hunique t' hmem hmem']
  · rw [htypes, hname]
    exact iff_of_false (by simp) (hnone t)

theorem tupleProjections_updates {arity index : Nat} (updates : List Update) (b : Bindings)
    (h : .tupleProjection arity index ∈ updates ∨ (arity, index) ∈ b.tupleProjections) :
    (arity, index) ∈ (updates.foldl Bindings.update b).tupleProjections := by
  induction updates generalizing b with
  | nil =>
      rcases h with h | h
      · cases h
      · exact h
  | cons u updates ih =>
      refine ih _ ?_
      rcases h with h | h
      · rcases List.mem_cons.1 h with rfl | h
        · exact Or.inr List.mem_cons_self
        · exact Or.inl h
      · cases u with
        | tupleProjection arity' index' => exact Or.inr (List.mem_cons_of_mem _ h)
        | insert name ty => exact Or.inr h
        | sequenceProjections => exact Or.inr h

theorem sequenceProjections_updates (updates : List Update) (b : Bindings)
    (h : .sequenceProjections ∈ updates ∨ b.sequenceProjections = true) :
    (updates.foldl Bindings.update b).sequenceProjections = true := by
  induction updates generalizing b with
  | nil =>
      rcases h with h | h
      · cases h
      · exact h
  | cons u updates ih =>
      refine ih _ ?_
      rcases h with h | h
      · rcases List.mem_cons.1 h with rfl | h
        · exact Or.inr rfl
        · exact Or.inl h
      · cases u with
        | sequenceProjections => exact Or.inr rfl
        | insert name ty => exact Or.inr h
        | tupleProjection arity index => exact Or.inr h

theorem observePattern_of_typed {mode : BindingMode} {p : Pat} {shape : Shape}
    {Γ : List (String × Shape)} (h : Typed mode p shape Γ) (b : Bindings) (ty : Ty)
    (refutable : Bool) :
    b.observePattern p (some ty) refutable =
      (observeAnnotated b.genericNames refutable p ty .move).map fun updates =>
        updates.foldl Bindings.update (b.introduce p) := by
  cases p with
  | typed p ty =>
      cases h with
      | through hdestructures => cases hdestructures
      | unsupported hunsupported => cases hunsupported
  | _ => rfl

/-- An alias in scope. -/
def aliasFor (segments : List Segment) (shape : Shape) (other : List Segment) : Option Shape :=
  if other = segments then some shape else none

/-- Hiding the annotation of a pattern behind an alias does not change the types of its variables:
where both observations record one, the type under the alias normalizes to the other. -/
def AliasAgrees (constants : Constants) (b : Bindings) (refutable : Bool) (p : Pat)
    (segments : List Segment) (ty : Ty) : Prop :=
  ∀ b₁ b₂, b.observePattern p (some ty) refutable = some b₁ →
    b.observePattern p (some (.path segments)) refutable = some b₂ →
    ∀ name ∈ p.names, ∀ t₁ t₂, b₁.types name = some (some t₁) → b₂.types name = some (some t₂) →
      normalize b₂ (aliasFor segments (ty.shape constants)) constants t₂ =
        some (t₁.shape constants)

/-- An alias keeps the types of a well-typed pattern exactly when the mode pushed into the projected
types is the binding mode at every variable. -/
theorem alias_agrees_iff (constants : Constants) (b : Bindings) (refutable : Bool) (p : Pat)
    (segments : List Segment) (ty : Ty) (Γ : List (String × Shape))
    (htyped : Typed .move p (ty.shape constants) Γ) (hnodup : (Γ.map Prod.fst).Nodup) :
    AliasAgrees constants b refutable p segments ty ↔
      agrees b.genericNames refutable p ty .move (some .move)
        ((Ty.path segments).concrete b.genericNames) = true := by
  have hreached : p.reached.Nodup := hnodup.sublist (reached_sublist p htyped)
  rcases observeAnnotated_total b.genericNames refutable p ty .move with ⟨updates₁, hupdates₁⟩
  rcases observeAnnotated_total b.genericNames refutable p (.path segments) .move with
    ⟨updates₂, hupdates₂⟩
  -- What the observation under the alias has declared is what its projections use.
  have hdeclared : Declared (updates₂.foldl Bindings.update (b.introduce p)) b.genericNames refutable p
      (.path segments) := by
    refine ⟨?_, ?_⟩
    · intro arity index h
      rw [emits_iff_of_eq hupdates₂] at h
      simpa using tupleProjections_updates updates₂ (b.introduce p) (Or.inl h)
    · intro h
      rw [emits_iff_of_eq hupdates₂] at h
      exact sequenceProjections_updates updates₂ (b.introduce p) (Or.inl h)
  have hreads : Reads (updates₂.foldl Bindings.update (b.introduce p))
      (aliasFor segments (ty.shape constants)) constants (.path segments) (some .move) ty := by
    simp [Reads, normalize, aliasFor]
  rw [← decides p htyped hreached rfl hreads hdeclared]
  have htypes : ∀ {updates : List Update} {name : String} {t : Ty},
      (inserted updates).Sublist p.reached → name ∈ p.names →
      ((updates.foldl Bindings.update (b.introduce p)).types name = some (some t) ↔
        .insert name t ∈ updates) := by
    intro updates name t hsublist hname
    refine types_updates_iff (hreached.sublist hsublist) ?_
    rw [Bindings.types_introduce, if_pos hname]
  have hone := inserted_sublist_reached p hupdates₁
  have htwo := inserted_sublist_reached p hupdates₂
  -- Each variable is recorded at most once, so the recorded type is the emitted one.
  refine ⟨?_, ?_⟩
  · intro h name t₁ t₂ h₁ h₂
    have hname := reached_subset_names p (mem_reached_of_emits p h₁)
    rw [emits_iff_of_eq hupdates₁] at h₁
    rw [emits_iff_of_eq hupdates₂] at h₂
    exact h _ _ (by rw [observePattern_of_typed htyped, hupdates₁]; rfl)
      (by rw [observePattern_of_typed htyped, hupdates₂]; rfl) name hname t₁ t₂
      ((htypes hone hname).2 h₁) ((htypes htwo hname).2 h₂)
  · intro h b₁ b₂ hb₁ hb₂ name hname t₁ t₂ ht₁ ht₂
    rw [observePattern_of_typed htyped, hupdates₁] at hb₁
    rw [observePattern_of_typed htyped, hupdates₂] at hb₂
    cases hb₁
    cases hb₂
    exact h name t₁ t₂ ((emits_iff_of_eq hupdates₁).2 ((htypes hone hname).1 ht₁))
      ((emits_iff_of_eq hupdates₂).2 ((htypes htwo hname).1 ht₂))

/-- Lengths that no type of the examples uses. -/
def noConstants : Constants :=
  ⟨fun _ => 0, fun _ _ => 0, fun _ _ _ => 0, fun _ _ => 0, fun _ => 0⟩

/-- `&(u8,)`. -/
def sharedTuple : Ty :=
  .reference none false (.tuple [.ofName "u8"])

/-- `let (x,): A = …;` with `type A<'a> = &'a (u8,);`. -/
theorem alias_agrees_shared_tuple :
    AliasAgrees noConstants (Bindings.ofGenerics []) false (.tuple [.ofName "x"])
      [⟨⟨false, "A"⟩, true⟩] sharedTuple := by
  have htyped : Typed .move (.tuple [.ofName "x"]) (sharedTuple.shape noConstants) _ :=
    .through rfl (.tuple (.cons (.plain rfl) .nil))
  exact (alias_agrees_iff noConstants (Bindings.ofGenerics []) false _ [⟨⟨false, "A"⟩, true⟩] _ _ htyped
    (by simp)).2 (by decide)

/-- `let (ref x,): A = …;` with the same alias: `x` is a `&u8`, and the capture a `&&u8`. -/
theorem alias_disagrees_ref :
    (∃ Γ, Typed .move (.tuple [.ident true false ⟨false, "x"⟩ none])
      (sharedTuple.shape noConstants) Γ ∧ (Γ.map Prod.fst).Nodup) ∧
    ¬ AliasAgrees noConstants (Bindings.ofGenerics []) false
      (.tuple [.ident true false ⟨false, "x"⟩ none]) [⟨⟨false, "A"⟩, true⟩] sharedTuple := by
  refine ⟨⟨_, .through rfl (.tuple (.cons .byRef .nil)), by simp⟩, ?_⟩
  intro h
  have hnormal : some (Shape.reference false (.reference false (.named (.ofName "u8")))) =
      some (.reference false (.named (.ofName "u8"))) :=
    h _ _ rfl rfl "x" (by decide) _ _ rfl rfl
  cases hnormal

end Binding
end Systasis
