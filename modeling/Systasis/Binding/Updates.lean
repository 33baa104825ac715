import Mathlib.Data.List.Basic
import Systasis.Binding.Observe

/-!
# Updates — what an observation records

An observation of a pattern never fails, and it records names of the pattern only.  The updates of a
tuple or slice pattern are those of its elements at their types.
-/

namespace Systasis
namespace Binding

open Syntax

mutual

/-- One case per kind of pattern; for elements, a fact about all of them. -/
@[elab_as_elim]
theorem Pat.induct {motive : Pat → Prop}
    (ident : ∀ byRef mutable ident subpattern, motive (.ident byRef mutable ident subpattern))
    (wild : motive .wild) (rest : motive .rest)
    (paren : ∀ p, motive p → motive (.paren p))
    (reference : ∀ mutable p, motive p → motive (.reference mutable p))
    (tuple : ∀ elements, (∀ p ∈ elements, motive p) → motive (.tuple elements))
    (slice : ∀ elements, (∀ p ∈ elements, motive p) → motive (.slice elements))
    (typed : ∀ p ty, motive p → motive (.typed p ty))
    (compound : ∀ elements, motive (.compound elements))
    (invocation : ∀ mac, motive (.invocation mac))
    (verbatim : ∀ tokens, motive (.verbatim tokens))
    (constant : ∀ tokens, motive (.constant tokens)) : ∀ p, motive p
  | .ident byRef mutable name subpattern => ident byRef mutable name subpattern
  | .wild => wild
  | .rest => rest
  | .paren p => paren p (Pat.induct ident wild rest paren reference tuple slice typed compound
      invocation verbatim constant p)
  | .reference mutable p => reference mutable p (Pat.induct ident wild rest paren reference tuple
      slice typed compound invocation verbatim constant p)
  | .tuple elements => tuple elements (Pat.inductAll ident wild rest paren reference tuple slice
      typed compound invocation verbatim constant elements)
  | .slice elements => slice elements (Pat.inductAll ident wild rest paren reference tuple slice
      typed compound invocation verbatim constant elements)
  | .typed p ty => typed p ty (Pat.induct ident wild rest paren reference tuple slice typed compound
      invocation verbatim constant p)
  | .compound elements => compound elements
  | .invocation mac => invocation mac
  | .verbatim tokens => verbatim tokens
  | .constant tokens => constant tokens

theorem Pat.inductAll {motive : Pat → Prop}
    (ident : ∀ byRef mutable ident subpattern, motive (.ident byRef mutable ident subpattern))
    (wild : motive .wild) (rest : motive .rest)
    (paren : ∀ p, motive p → motive (.paren p))
    (reference : ∀ mutable p, motive p → motive (.reference mutable p))
    (tuple : ∀ elements, (∀ p ∈ elements, motive p) → motive (.tuple elements))
    (slice : ∀ elements, (∀ p ∈ elements, motive p) → motive (.slice elements))
    (typed : ∀ p ty, motive p → motive (.typed p ty))
    (compound : ∀ elements, motive (.compound elements))
    (invocation : ∀ mac, motive (.invocation mac))
    (verbatim : ∀ tokens, motive (.verbatim tokens))
    (constant : ∀ tokens, motive (.constant tokens)) :
    ∀ elements : List Pat, ∀ p ∈ elements, motive p
  | [], _, hmem => absurd hmem List.not_mem_nil
  | first :: others, p, hmem =>
      (List.mem_cons.1 hmem).elim
        (fun heq => heq ▸ Pat.induct ident wild rest paren reference tuple slice typed compound
          invocation verbatim constant first)
        (Pat.inductAll ident wild rest paren reference tuple slice typed compound invocation
          verbatim constant others p)

end

/-! ## Elements -/

/-- The updates of a list of elements one after the other, the first being number `index`. -/
def inOrder (observe : Nat → Pat → Option (List Update)) :
    List Pat → Nat → Option (List Update)
  | [], _ => some []
  | p :: elements, index => do
      let first ← observe index p
      let others ← inOrder observe elements (index + 1)
      some (first ++ others)

theorem inOrder_spec {observe : Nat → Pat → Option (List Update)} {elements : List Pat}
    {index : Nat}
    (h : ∀ i p, elements[i]? = some p → ∃ updates, observe (index + i) p = some updates) :
    ∃ updates, inOrder observe elements index = some updates ∧
      ∀ u, u ∈ updates ↔ ∃ i p own, elements[i]? = some p ∧ observe (index + i) p = some own ∧
        u ∈ own := by
  induction elements generalizing index with
  | nil => exact ⟨[], rfl, by simp⟩
  | cons p elements ih =>
      -- The rest starts one position later.
      have hrest : ∀ i p', elements[i]? = some p' →
          ∃ updates, observe (index + 1 + i) p' = some updates := by
        intro i p' hp'
        have hnext := h (i + 1) p' (by simpa using hp')
        rwa [← Nat.add_assoc, Nat.add_right_comm] at hnext
      rcases h 0 p rfl with ⟨own, hown⟩
      rcases ih hrest with ⟨others, hothers, hmem⟩
      rw [Nat.add_zero] at hown
      refine ⟨own ++ others, by simp [inOrder, hown, hothers], ?_⟩
      intro u
      rw [List.mem_append, hmem]
      refine ⟨?_, ?_⟩
      · intro hu
        rcases hu with hu | ⟨i, p', own', hp', hown', hu⟩
        · exact ⟨0, p, own, rfl, hown, hu⟩
        · refine ⟨i + 1, p', own', by simpa using hp', ?_, hu⟩
          rwa [← Nat.add_assoc, Nat.add_right_comm]
      · intro hu
        rcases hu with ⟨i, p', own', hp', hown', hu⟩
        cases i with
        | zero =>
            cases hp'
            rw [Nat.add_zero, hown] at hown'
            cases hown'
            exact Or.inl hu
        | succ i =>
            refine Or.inr ⟨i, p', own', by simpa using hp', ?_, hu⟩
            rwa [← Nat.add_assoc, Nat.add_right_comm] at hown'

section Loops

variable (generics : List String) (refutable : Bool)

/-- One element of a tuple pattern. -/
def tupleStep (total : Nat) (rest : Option Nat) (types : List Ty) (mode : BindingMode) (index : Nat)
    (p : Pat) : Option (List Update) :=
  if p.isRest then some []
  else do
    let k ← typeIndex total rest types.length index
    let ty ← types[k]?
    observeAnnotated generics refutable p ty mode

theorem observeTuple_eq (elements : List Pat) (index total : Nat) (rest : Option Nat)
    (types : List Ty) (mode : BindingMode) :
    observeTuple generics refutable elements index total rest types mode =
      inOrder (tupleStep generics refutable total rest types mode) elements index := by
  induction elements generalizing index with
  | nil => rfl
  | cons p elements ih =>
      rw [observeTuple, inOrder, ih]
      rfl

/-- One element of a tuple pattern under an alias. -/
def projectedStep (arity : Nat) (source : Ty) (index : Nat) : Pat → Option (List Update)
  | .wild => some []
  | p => (observeAnnotated generics refutable p (.tupleElement arity index source) .move).map
      fun updates => .tupleProjection arity index :: updates

theorem observeProjected_eq (elements : List Pat) (index arity : Nat) (source : Ty) :
    observeProjected generics refutable elements index arity source =
      inOrder (projectedStep generics refutable arity source) elements index := by
  induction elements generalizing index with
  | nil => rfl
  | cons p elements ih =>
      cases p with
      | wild =>
          rw [observeProjected, ih]
          simp [inOrder, projectedStep]
      | _ =>
          rw [observeProjected, ih, inOrder, projectedStep]
          · simp [Option.map_eq_bind, Option.bind_assoc]
          · simp
          · simp

/-- One element of a slice pattern. -/
def elementStep (elem : Ty) (rest : Option Ty) (mode : BindingMode) (p : Pat) :
    Option (List Update) :=
  if sliceRest p then some (observeRest p rest mode)
  else observeAnnotated generics refutable p elem mode

theorem observeElements_eq (elements : List Pat) (index : Nat) (elem : Ty) (rest : Option Ty)
    (mode : BindingMode) :
    observeElements generics refutable elements elem rest mode =
      inOrder (fun _ => elementStep generics refutable elem rest mode) elements index := by
  induction elements generalizing index with
  | nil => rfl
  | cons p elements ih =>
      rw [observeElements, inOrder, ih (index + 1)]
      rfl

/-- One element of a slice pattern under an alias. -/
def sequenceStep (explicit : Nat) (source : Ty) (rest : Option Ty) (p : Pat) :
    Option (List Update) :=
  if explicit = 0 ∧ p.borrows then some (observeBorrowedRest p source)
  else elementStep generics refutable (.element source) rest .move p

theorem observeSequence_eq (elements : List Pat) (index explicit : Nat) (source : Ty)
    (rest : Option Ty) :
    observeSequence generics refutable elements explicit source rest =
      inOrder (fun _ => sequenceStep generics refutable explicit source rest) elements index := by
  induction elements generalizing index with
  | nil => rfl
  | cons p elements ih =>
      rw [observeSequence, inOrder, ih (index + 1)]
      rfl

end Loops

/-! ## Observations do not fail -/

theorem checkedSub_of_le {a b : Nat} (h : b ≤ a) : checkedSub a b = some (a - b) :=
  if_pos h

theorem add_eq_of_checkedSub {a b c : Nat} (h : checkedSub a b = some c) : c + b = a := by
  simp only [checkedSub] at h
  split at h
  · cases h
    omega
  · cases h

theorem isSome_toNat_le_length {elements : List Pat} :
    (elements.findIdx? Pat.isRest).isSome.toNat ≤ elements.length := by
  cases elements with
  | nil => simp
  | cons p elements =>
      cases (List.findIdx? Pat.isRest (p :: elements)).isSome <;> simp

/-- The suffix of a tuple pattern is matched from the end, inside the type. -/
theorem typeIndex_lt {elements : List Pat} {count i : Nat} {p : Pat}
    (hcount : elements.length - (elements.findIdx? Pat.isRest).isSome.toNat ≤ count)
    (hexact : (elements.findIdx? Pat.isRest).isNone = true → elements.length = count)
    (hp : elements[i]? = some p) (hrest : p.isRest = false) :
    ∃ k, typeIndex elements.length (elements.findIdx? Pat.isRest) count i = some k ∧ k < count := by
  rcases List.getElem?_eq_some_iff.1 hp with ⟨hi, hget⟩
  cases hfind : elements.findIdx? Pat.isRest with
  | none =>
      rw [hfind] at hexact
      exact ⟨i, rfl, hexact rfl ▸ hi⟩
  | some r =>
      rw [hfind] at hcount
      rcases List.findIdx?_eq_some_iff_getElem.1 hfind with ⟨hr, hisRest, _⟩
      have hcount' : elements.length - 1 ≤ count := hcount
      by_cases hlt : r < i
      · have hone : checkedSub elements.length i = some (elements.length - i) :=
          checkedSub_of_le (Nat.le_of_lt hi)
        have htwo : checkedSub count (elements.length - i) = some (count - (elements.length - i)) :=
          checkedSub_of_le (by omega)
        exact ⟨count - (elements.length - i), by simp [typeIndex, hlt, hone, htwo], by omega⟩
      · -- The rest itself is not at this index.
        have hne : i ≠ r := by
          intro heq
          subst heq
          rw [hget, hrest] at hisRest
          cases hisRest
        exact ⟨i, by simp [typeIndex, hlt], by omega⟩

theorem arrayRest_total (generics : List String) (elem : Ty) (len : Length) (explicit : Nat)
    (h : ∀ length, len.literalLength = some length → explicit ≤ length) :
    ∃ rest, arrayRest generics elem len explicit = some rest := by
  simp only [arrayRest]
  split
  · exact ⟨_, rfl⟩
  · cases hlength : len.literalLength with
    | none => exact ⟨_, rfl⟩
    | some length =>
        refine ⟨some (.array elem (.int (length - explicit))), ?_⟩
        simp [checkedSub_of_le (h length hlength)]

section Total

variable (generics : List String) (refutable : Bool)

theorem elementStep_total {p : Pat}
    (h : ∀ ty mode, ∃ updates, observeAnnotated generics refutable p ty mode = some updates)
    (elem : Ty) (rest : Option Ty) (mode : BindingMode) :
    ∃ updates, elementStep generics refutable elem rest mode p = some updates := by
  rw [elementStep]
  split
  · exact ⟨_, rfl⟩
  · exact h elem mode

theorem sequenceStep_total {p : Pat}
    (h : ∀ ty mode, ∃ updates, observeAnnotated generics refutable p ty mode = some updates)
    (explicit : Nat) (source : Ty) (rest : Option Ty) :
    ∃ updates, sequenceStep generics refutable explicit source rest p = some updates := by
  rw [sequenceStep]
  split
  · exact ⟨_, rfl⟩
  · exact elementStep_total generics refutable h _ _ _

theorem projectedStep_total {p : Pat}
    (h : ∀ ty mode, ∃ updates, observeAnnotated generics refutable p ty mode = some updates)
    (arity : Nat) (source : Ty) (index : Nat) :
    ∃ updates, projectedStep generics refutable arity source index p = some updates := by
  rw [projectedStep.eq_def]
  split
  · exact ⟨_, rfl⟩
  · rcases h (.tupleElement arity index source) .move with ⟨updates, hupdates⟩
    exact ⟨_, by rw [hupdates]; rfl⟩

theorem tupleStep_total {elements : List Pat} {types : List Ty} {mode : BindingMode} {i : Nat}
    {p : Pat}
    (h : ∀ ty, ∃ updates, observeAnnotated generics refutable p ty mode = some updates)
    (hcount : elements.length - (elements.findIdx? Pat.isRest).isSome.toNat ≤ types.length)
    (hexact : (elements.findIdx? Pat.isRest).isNone = true → elements.length = types.length)
    (hp : elements[i]? = some p) :
    ∃ updates, tupleStep generics refutable elements.length (elements.findIdx? Pat.isRest) types
      mode (0 + i) p = some updates := by
  rw [tupleStep, Nat.zero_add]
  split
  · exact ⟨_, rfl⟩
  · rename_i hrest
    rcases typeIndex_lt hcount hexact hp (by simpa using hrest) with ⟨k, hk, hlt⟩
    rcases h types[k] with ⟨updates, hupdates⟩
    exact ⟨updates, by simp [hk, hlt, hupdates]⟩

/-- The guard of a tuple pattern against a tuple type. -/
theorem tuple_guard {elements : List Pat} {count : Nat} :
    (decide (elements.length - (elements.findIdx? Pat.isRest).isSome.toNat > count) ||
      ((elements.findIdx? Pat.isRest).isNone &&
        elements.length - (elements.findIdx? Pat.isRest).isSome.toNat != count)) = false ↔
      elements.length - (elements.findIdx? Pat.isRest).isSome.toNat ≤ count ∧
        ((elements.findIdx? Pat.isRest).isNone = true → elements.length = count) := by
  cases elements.findIdx? Pat.isRest <;> simp

theorem observeAnnotated_total (p : Pat) : ∀ ty mode,
    ∃ updates, observeAnnotated generics refutable p ty mode = some updates := by
  induction p using Pat.induct with
  | paren p ih => exact ih
  | reference mutable p ih =>
      intro ty mode
      simp only [observeAnnotated]
      split
      · exact ih _ _
      · split
        · exact ih _ _
        · exact ⟨_, rfl⟩
  | ident byRef mutable ident subpattern =>
      intro ty mode
      cases subpattern <;> exact ⟨_, rfl⟩
  | tuple elements ih =>
      intro ty mode
      simp only [observeAnnotated]
      split
      · -- A written tuple: behind the guard every index is in range.
        rename_i types mode' _
        simp only [checkedSub_of_le isSome_toNat_le_length, Option.bind_eq_bind, Option.bind_some]
        split
        · exact ⟨_, rfl⟩
        · rename_i hguard
          rcases tuple_guard.1 (Bool.not_eq_true _ ▸ hguard) with ⟨hcount, hexact⟩
          rw [observeTuple_eq]
          rcases inOrder_spec fun i p hp => tupleStep_total generics refutable
            (fun ty => ih p (List.mem_of_getElem? hp) ty mode') hcount hexact hp with
            ⟨updates, hupdates, _⟩
          exact ⟨updates, hupdates⟩
      · split
        · -- A path: the projections take no index of the type.
          rw [observeProjected_eq]
          rcases @inOrder_spec _ elements 0 (fun i p hp =>
            projectedStep_total generics refutable (ih p (List.mem_of_getElem? hp)) elements.length
              _ (0 + i)) with ⟨updates, hupdates, _⟩
          exact ⟨updates, hupdates⟩
        · exact ⟨_, rfl⟩
  | slice elements ih =>
      intro ty mode
      have helements := fun elem rest mode => @inOrder_spec
        (fun _ => elementStep generics refutable elem rest mode) elements 0 (fun i p hp =>
        elementStep_total generics refutable (ih p (List.mem_of_getElem? hp)) elem rest mode)
      have hsequence := fun explicit source rest => @inOrder_spec
        (fun _ => sequenceStep generics refutable explicit source rest) elements 0 (fun i p hp =>
        sequenceStep_total generics refutable (ih p (List.mem_of_getElem? hp)) explicit source rest)
      simp only [observeAnnotated]
      split
      · -- An array: a literal length has passed the comparison.
        rename_i elem len mode' _
        simp only [checkedSub_of_le List.countP_le_length, Option.bind_eq_bind, Option.bind_some]
        split
        · exact ⟨_, rfl⟩
        · rename_i hguard
          have hlength : ∀ length, len.literalLength = some length →
              elements.countP (fun p => !sliceRest p) ≤ length := by
            intro length hlength
            simp only [hlength, Option.any_some, Bool.or_eq_true, decide_eq_true_eq, not_or,
              Nat.not_lt] at hguard
            exact hguard.2.1
          rcases arrayRest_total generics elem len _ hlength with ⟨rest, hrest⟩
          rcases helements elem rest mode' with ⟨updates, hupdates, _⟩
          rw [hrest, Option.bind_some, observeElements_eq generics refutable elements 0, hupdates]
          exact ⟨_, rfl⟩
      · -- A slice: the rest has the type of the slice itself.
        rename_i elem mode' _
        split
        · exact ⟨_, rfl⟩
        · rcases helements elem (some (.slice elem)) mode' with ⟨updates, hupdates, _⟩
          rw [observeElements_eq generics refutable elements 0, hupdates]
          exact ⟨_, rfl⟩
      · -- A path, or a type the observation leaves alone.
        rename_i ty' mode' _ _ _
        split
        · rcases hsequence (elements.countP (!sliceRest ·)) (mode'.boundType ty')
            (aliasRest generics refutable ty' (mode'.boundType ty') _) with ⟨updates, hupdates, _⟩
          rw [observeSequence_eq generics refutable elements 0, hupdates]
          exact ⟨_, rfl⟩
        · exact ⟨_, rfl⟩
  | _ => exact fun _ _ => ⟨_, rfl⟩

/-! ## Updates by pattern -/

/-- The observation makes an update. -/
def Emits (p : Pat) (ty : Ty) (mode : BindingMode) (u : Update) : Prop :=
  ∃ updates, observeAnnotated generics refutable p ty mode = some updates ∧ u ∈ updates

/-- An element of a slice pattern makes an update. -/
def ElementEmits (elem : Ty) (rest : Option Ty) (mode : BindingMode) (p : Pat) (u : Update) : Prop :=
  if sliceRest p then u ∈ observeRest p rest mode
  else Emits generics refutable p elem mode u

variable {generics refutable} {u : Update} {mode mode' : BindingMode} {ty : Ty}

theorem emits_iff_of_eq {p : Pat} {updates : List Update}
    (h : observeAnnotated generics refutable p ty mode = some updates) :
    Emits generics refutable p ty mode u ↔ u ∈ updates := by
  refine ⟨?_, fun hmem => ⟨updates, h, hmem⟩⟩
  intro hemits
  rcases hemits with ⟨updates', hupdates, hmem⟩
  rw [h] at hupdates
  cases hupdates
  exact hmem

theorem not_emits_of_eq_nil {p : Pat}
    (h : observeAnnotated generics refutable p ty mode = some []) :
    ¬ Emits generics refutable p ty mode u := by
  rw [emits_iff_of_eq h]
  exact List.not_mem_nil

theorem emits_ident {byRef mutable : Bool} {ident : Ident} :
    Emits generics refutable (.ident byRef mutable ident none) ty mode u ↔
      u = .insert ident.name ((mode.explicit byRef mutable).boundType ty.ungroup) := by
  rw [emits_iff_of_eq (p := .ident byRef mutable ident none) rfl]
  exact List.mem_singleton

theorem emits_reference {mutable : Bool} {p : Pat} {lifetime : Option String} {mutable' : Bool}
    {elem : Ty} (h : ty.ungroup = .reference lifetime mutable' elem) :
    Emits generics refutable (.reference mutable p) ty mode u ↔
      Emits generics refutable p elem .move u := by
  simp only [Emits, observeAnnotated, h]

theorem Ty.ungroup_of_isPath (h : ty.isPath = true) : ty.ungroup = ty := by
  cases ty <;> first
    | rfl
    | cases h

theorem Ty.peel_of_isPath (h : ty.isPath = true) : ty.peel mode = (ty, mode) := by
  cases ty <;> first
    | rfl
    | cases h

theorem emits_deref {mutable : Bool} {p : Pat} (h : ty.isPath = true) :
    Emits generics refutable (.reference mutable p) ty mode u ↔
      Emits generics refutable p (.derefTarget ty) .move u := by
  simp only [Emits, observeAnnotated, Ty.ungroup_of_isPath h]
  cases ty <;> first
    | rfl
    | cases h

theorem mem_of_inOrder {observe : Nat → Pat → Option (List Update)} {elements : List Pat}
    {index : Nat} {updates : List Update} (h : inOrder observe elements index = some updates)
    (htotal : ∀ i p, elements[i]? = some p → ∃ own, observe (index + i) p = some own) :
    u ∈ updates ↔ ∃ i p own, elements[i]? = some p ∧ observe (index + i) p = some own ∧
      u ∈ own := by
  rcases inOrder_spec htotal with ⟨updates', hupdates, hmem⟩
  rw [h] at hupdates
  cases hupdates
  exact hmem u

theorem tupleStep_some {p : Pat} {total index : Nat} {rest : Option Nat} {types : List Ty} :
    (∃ own, tupleStep generics refutable total rest types mode index p = some own ∧ u ∈ own) ↔
      p.isRest = false ∧ ∃ k elem, typeIndex total rest types.length index = some k ∧
        types[k]? = some elem ∧ Emits generics refutable p elem mode u := by
  rw [tupleStep]
  cases p.isRest with
  | true => simp
  | false =>
      simp only [Bool.false_eq_true, if_false, true_and]
      cases hk : typeIndex total rest types.length index with
      | none => simp
      | some k =>
          cases helem : types[k]? with
          | none => simp [helem]
          | some elem => simp [helem, Emits]

theorem emits_tuple {elements : List Pat} {types : List Ty}
    (h : ty.peel mode = (.tuple types, mode')) :
    Emits generics refutable (.tuple elements) ty mode u ↔
      (elements.length - (elements.findIdx? Pat.isRest).isSome.toNat ≤ types.length ∧
        ((elements.findIdx? Pat.isRest).isNone = true → elements.length = types.length)) ∧
      ∃ i p, elements[i]? = some p ∧ p.isRest = false ∧ ∃ k elem,
        typeIndex elements.length (elements.findIdx? Pat.isRest) types.length i = some k ∧
        types[k]? = some elem ∧ Emits generics refutable p elem mode' u := by
  rcases observeAnnotated_total generics refutable (.tuple elements) ty mode with
    ⟨updates, hupdates⟩
  rw [emits_iff_of_eq hupdates]
  simp only [observeAnnotated, h, checkedSub_of_le isSome_toNat_le_length, Option.bind_eq_bind,
    Option.bind_some] at hupdates
  split at hupdates
  · rename_i hguard
    cases hupdates
    refine iff_of_false List.not_mem_nil ?_
    intro hemits
    rw [tuple_guard.2 hemits.1] at hguard
    cases hguard
  · rename_i hguard
    rcases tuple_guard.1 (Bool.not_eq_true _ ▸ hguard) with ⟨hcount, hexact⟩
    rw [observeTuple_eq] at hupdates
    rw [mem_of_inOrder hupdates fun i p hp => tupleStep_total generics refutable
      (fun ty => observeAnnotated_total generics refutable p ty mode') hcount hexact hp]
    simp only [Nat.zero_add, exists_and_left, tupleStep_some]
    exact ⟨fun hemits => ⟨⟨hcount, hexact⟩, hemits⟩, fun hemits => hemits.2⟩

theorem exists_getElem?_iff {elements : List Pat} {Q : Pat → Prop} :
    (∃ (i : Nat) (p : Pat), elements[i]? = some p ∧ Q p) ↔ ∃ p ∈ elements, Q p := by
  refine ⟨?_, ?_⟩
  · intro h
    rcases h with ⟨i, p, hp, hQ⟩
    exact ⟨p, List.mem_of_getElem? hp, hQ⟩
  · intro h
    rcases h with ⟨p, hp, hQ⟩
    rcases List.mem_iff_getElem?.1 hp with ⟨i, hi⟩
    exact ⟨i, p, hi, hQ⟩

theorem projectedStep_some {p : Pat} {arity index : Nat} {source : Ty} :
    (∃ own, projectedStep generics refutable arity source index p = some own ∧ u ∈ own) ↔
      p ≠ .wild ∧ (u = .tupleProjection arity index ∨
        Emits generics refutable p (.tupleElement arity index source) .move u) := by
  rcases observeAnnotated_total generics refutable p (.tupleElement arity index source) .move with
    ⟨updates, hupdates⟩
  rw [emits_iff_of_eq hupdates, projectedStep.eq_def]
  split
  · simp
  · rename_i hwild
    simp only [hupdates, Option.map_some, Option.some.injEq, exists_eq_left', List.mem_cons]
    exact ⟨fun hmem => ⟨hwild, hmem⟩, fun hmem => hmem.2⟩

theorem emits_projected {elements : List Pat} (h : ty.isPath = true)
    (hrest : elements.any Pat.isRest = false) :
    Emits generics refutable (.tuple elements) ty mode u ↔
      ∃ i p, elements[i]? = some p ∧ p ≠ .wild ∧ (u = .tupleProjection elements.length i ∨
        Emits generics refutable p (.tupleElement elements.length i (mode.boundType ty)) .move u) := by
  have hobserve : observeAnnotated generics refutable (.tuple elements) ty mode =
      observeProjected generics refutable elements 0 elements.length (mode.boundType ty) := by
    simp only [observeAnnotated, Ty.peel_of_isPath h, hrest]
    cases ty <;> first
      | rfl
      | cases h
  rcases observeAnnotated_total generics refutable (.tuple elements) ty mode with
    ⟨updates, hupdates⟩
  rw [emits_iff_of_eq hupdates]
  rw [hobserve, observeProjected_eq] at hupdates
  rw [mem_of_inOrder hupdates fun i p _ => projectedStep_total generics refutable
    (observeAnnotated_total generics refutable p) elements.length _ (0 + i)]
  simp only [Nat.zero_add, exists_and_left, projectedStep_some]

theorem elementStep_some {p : Pat} {elem : Ty} {rest : Option Ty} :
    (∃ own, elementStep generics refutable elem rest mode p = some own ∧ u ∈ own) ↔
      ElementEmits generics refutable elem rest mode p u := by
  rw [elementStep, ElementEmits]
  split
  · simp
  · rfl

/-- The updates of a slice pattern, its elements and rest being of given types. -/
theorem mem_observeElements {elements : List Pat} {elem : Ty} {rest : Option Ty}
    {updates : List Update}
    (h : observeElements generics refutable elements elem rest mode = some updates) :
    u ∈ updates ↔ ∃ p ∈ elements, ElementEmits generics refutable elem rest mode p u := by
  rw [observeElements_eq generics refutable elements 0] at h
  rw [mem_of_inOrder h fun i p _ => elementStep_total generics refutable
    (observeAnnotated_total generics refutable p) elem rest mode]
  simp only [exists_and_left, elementStep_some]
  exact exists_getElem?_iff

/-- The guard of a slice pattern against an array type. -/
def ArrayFits (elements : List Pat) (len : Length) : Prop :=
  elements.countP sliceRest ≤ 1 ∧ ∀ length, len.literalLength = some length →
    elements.countP (!sliceRest ·) ≤ length ∧
      (elements.countP sliceRest = 0 → elements.countP (!sliceRest ·) = length)

theorem length_sub_countP (elements : List Pat) :
    elements.length - elements.countP (!sliceRest ·) = elements.countP sliceRest := by
  have hsum := List.length_eq_countP_add_countP sliceRest (l := elements)
  simp only [Bool.not_eq_true, Bool.decide_eq_false] at hsum
  omega

theorem array_guard {elements : List Pat} {len : Length} :
    (decide (elements.length - elements.countP (!sliceRest ·) > 1) ||
      len.literalLength.any (fun length => decide (elements.countP (!sliceRest ·) > length) ||
        (elements.length - elements.countP (!sliceRest ·) == 0 &&
          elements.countP (!sliceRest ·) != length))) = false ↔ ArrayFits elements len := by
  rw [length_sub_countP, ArrayFits]
  cases len.literalLength <;> simp

theorem emits_array {elements : List Pat} {elem : Ty} {len : Length}
    (h : ty.peel mode = (.array elem len, mode')) :
    Emits generics refutable (.slice elements) ty mode u ↔ ArrayFits elements len ∧
      ∃ rest, arrayRest generics elem len (elements.countP (!sliceRest ·)) = some rest ∧
        ∃ p ∈ elements, ElementEmits generics refutable elem rest mode' p u := by
  rcases observeAnnotated_total generics refutable (.slice elements) ty mode with
    ⟨updates, hupdates⟩
  rw [emits_iff_of_eq hupdates]
  simp only [observeAnnotated, h, checkedSub_of_le List.countP_le_length, Option.bind_eq_bind,
    Option.bind_some] at hupdates
  split at hupdates
  · rename_i hguard
    cases hupdates
    refine iff_of_false List.not_mem_nil ?_
    intro hemits
    rw [array_guard.2 hemits.1] at hguard
    cases hguard
  · rename_i hguard
    have hfits := array_guard.1 (Bool.not_eq_true _ ▸ hguard)
    rcases arrayRest_total generics elem len _ (fun length hlength => (hfits.2 length hlength).1)
      with ⟨rest, hrest⟩
    rw [hrest, Option.bind_some] at hupdates
    rw [mem_observeElements hupdates, hrest]
    simp [hfits]

theorem emits_slice {elements : List Pat} {elem : Ty}
    (h : ty.peel mode = (.slice elem, mode')) :
    Emits generics refutable (.slice elements) ty mode u ↔ elements.countP sliceRest ≤ 1 ∧
      ∃ p ∈ elements, ElementEmits generics refutable elem (some (.slice elem)) mode' p u := by
  rcases observeAnnotated_total generics refutable (.slice elements) ty mode with
    ⟨updates, hupdates⟩
  rw [emits_iff_of_eq hupdates]
  simp only [observeAnnotated, h] at hupdates
  split at hupdates
  · rename_i hguard
    cases hupdates
    exact iff_of_false List.not_mem_nil fun hemits => absurd hemits.1 (Nat.not_le.2 hguard)
  · rename_i hguard
    rw [mem_observeElements hupdates]
    exact ⟨fun hemits => ⟨Nat.not_lt.1 hguard, hemits⟩, fun hemits => hemits.2⟩

theorem sequenceStep_some {p : Pat} {explicit : Nat} {source : Ty} {rest : Option Ty} :
    (∃ own, sequenceStep generics refutable explicit source rest p = some own ∧ u ∈ own) ↔
      if explicit = 0 ∧ p.borrows then u ∈ observeBorrowedRest p source
      else ElementEmits generics refutable (.element source) rest .move p u := by
  rw [sequenceStep]
  split
  · simp
  · exact elementStep_some

theorem emits_sequence {elements : List Pat} (h : ty.isPath = true) :
    Emits generics refutable (.slice elements) ty mode u ↔ u = .sequenceProjections ∨
      ∃ p ∈ elements,
        if elements.countP (!sliceRest ·) = 0 ∧ p.borrows then
          u ∈ observeBorrowedRest p (mode.boundType ty)
        else ElementEmits generics refutable (.element (mode.boundType ty))
          (aliasRest generics refutable ty (mode.boundType ty) (elements.countP (!sliceRest ·)))
          .move p u := by
  have hobserve : observeAnnotated generics refutable (.slice elements) ty mode =
      (observeSequence generics refutable elements (elements.countP (!sliceRest ·))
        (mode.boundType ty) (aliasRest generics refutable ty (mode.boundType ty)
          (elements.countP (!sliceRest ·)))).bind fun updates =>
            some (.sequenceProjections :: updates) := by
    simp only [observeAnnotated, Ty.peel_of_isPath h]
    cases ty <;> first
      | rfl
      | cases h
  rcases @inOrder_spec (fun _ => sequenceStep generics refutable (elements.countP (!sliceRest ·))
      (mode.boundType ty) (aliasRest generics refutable ty (mode.boundType ty)
        (elements.countP (!sliceRest ·)))) elements 0
    (fun i p _ => sequenceStep_total generics refutable
      (observeAnnotated_total generics refutable p) _ _ _) with ⟨updates, hupdates, hmem⟩
  rw [observeSequence_eq generics refutable elements 0, hupdates, Option.bind_some] at hobserve
  rw [emits_iff_of_eq hobserve, List.mem_cons, hmem]
  simp only [exists_and_left, sequenceStep_some]
  exact or_congr_right exists_getElem?_iff

/-! ## Names -/

/-- `pattern_names` -/
def Pat.names (p : Pat) : List String :=
  (Captures.patternNames p.erase).1

theorem mem_patternsNames {name : String} {elements : List Pat} :
    name ∈ (Captures.patternsNames (Pat.eraseAll elements)).1 ↔ ∃ p ∈ elements, name ∈ p.names := by
  induction elements with
  | nil => simp [Pat.eraseAll, Captures.patternsNames]
  | cons p elements ih =>
      simp only [Pat.eraseAll, Captures.patternsNames, List.mem_append, ih, List.mem_cons,
        exists_eq_or_imp]
      rfl

theorem mem_names_tuple {name : String} {elements : List Pat} :
    name ∈ (Pat.tuple elements).names ↔ ∃ p ∈ elements, name ∈ p.names :=
  mem_patternsNames

theorem mem_names_slice {name : String} {elements : List Pat} :
    name ∈ (Pat.slice elements).names ↔ ∃ p ∈ elements, name ∈ p.names :=
  mem_patternsNames

theorem names_paren (p : Pat) : (Pat.paren p).names = p.names :=
  List.append_nil _

theorem names_typed (p : Pat) (ty : Ty) : (Pat.typed p ty).names = p.names :=
  List.append_nil _

theorem names_reference (mutable : Bool) (p : Pat) : (Pat.reference mutable p).names = p.names :=
  List.append_nil _

mutual

/-- The variables that the observation of a pattern can reach. -/
def Pat.reached : Pat → List String
  | .ident _ _ name none => [name.name]
  | .ident _ _ name (some .rest) => [name.name]
  | .paren pattern => pattern.reached
  | .reference _ pattern => pattern.reached
  | .tuple elements => Pat.reachedAll elements
  | .slice elements => Pat.reachedAll elements
  | _ => []

def Pat.reachedAll : List Pat → List String
  | [] => []
  | first :: others => first.reached ++ Pat.reachedAll others

end

theorem mem_reachedAll {name : String} {elements : List Pat} :
    name ∈ Pat.reachedAll elements ↔ ∃ p ∈ elements, name ∈ p.reached := by
  induction elements with
  | nil => simp [Pat.reachedAll]
  | cons p elements ih => simp [Pat.reachedAll, ih]

/-- The layers that a tuple or slice pattern looks through. -/
def Ty.layered : Ty → Bool
  | .paren _ => true
  | .group _ => true
  | .reference _ _ _ => true
  | _ => false

@[elab_as_elim]
theorem Ty.layers {motive : Ty → BindingMode → Prop}
    (paren : ∀ elem mode, motive elem mode → motive (.paren elem) mode)
    (group : ∀ elem mode, motive elem mode → motive (.group elem) mode)
    (reference : ∀ lifetime mutable elem mode, motive elem (mode.dereferenced mutable) →
      motive (.reference lifetime mutable elem) mode)
    (core : ∀ ty mode, ty.layered = false → motive ty mode) :
    ∀ ty mode, motive ty mode
  | .paren elem, mode => paren elem mode (Ty.layers paren group reference core elem mode)
  | .group elem, mode => group elem mode (Ty.layers paren group reference core elem mode)
  | .reference lifetime mutable elem, mode =>
      reference lifetime mutable elem mode (Ty.layers paren group reference core elem _)
  | .tuple _, mode => core _ mode rfl
  | .array _ _, mode => core _ mode rfl
  | .slice _, mode => core _ mode rfl
  | .path _, mode => core _ mode rfl
  | .qualified _, mode => core _ mode rfl
  | .other _, mode => core _ mode rfl
  | .tupleElement _ _ _, mode => core _ mode rfl
  | .element _, mode => core _ mode rfl
  | .wholeSequence _, mode => core _ mode rfl
  | .arrayTail _ _ _, mode => core _ mode rfl
  | .sliceTail _, mode => core _ mode rfl
  | .derefTarget _, mode => core _ mode rfl

theorem Ty.peel_of_not_layered (h : ty.layered = false) : ty.peel mode = (ty, mode) := by
  cases ty <;> first
    | rfl
    | cases h

theorem Ty.layered_peel (ty : Ty) (mode : BindingMode) : (ty.peel mode).1.layered = false := by
  induction ty, mode using Ty.layers with
  | paren elem mode ih => exact ih
  | group elem mode ih => exact ih
  | reference lifetime mutable elem mode ih => exact ih
  | core ty mode h => rw [Ty.peel_of_not_layered h, h]

theorem emits_tuple_peel {elements : List Pat} :
    Emits generics refutable (.tuple elements) ty mode u ↔
      Emits generics refutable (.tuple elements) (ty.peel mode).1 (ty.peel mode).2 u := by
  simp only [Emits, observeAnnotated, Ty.peel_of_not_layered (Ty.layered_peel ty mode)]

theorem emits_slice_peel {elements : List Pat} :
    Emits generics refutable (.slice elements) ty mode u ↔
      Emits generics refutable (.slice elements) (ty.peel mode).1 (ty.peel mode).2 u := by
  simp only [Emits, observeAnnotated, Ty.peel_of_not_layered (Ty.layered_peel ty mode)]

/-! ## Inserted names -/

/-- The names that updates insert, in order. -/
def inserted (updates : List Update) : List String :=
  updates.filterMap fun
    | .insert name _ => some name
    | _ => none

theorem mem_inserted {updates : List Update} {name : String} {t : Ty}
    (h : Update.insert name t ∈ updates) : name ∈ inserted updates :=
  List.mem_filterMap.2 ⟨_, h, rfl⟩

theorem inserted_inOrder {observe : Nat → Pat → Option (List Update)} {elements : List Pat}
    {index : Nat} {updates : List Update} (h : inOrder observe elements index = some updates)
    (hstep : ∀ i, ∀ p ∈ elements, ∀ own, observe i p = some own →
      (inserted own).Sublist p.reached) :
    (inserted updates).Sublist (Pat.reachedAll elements) := by
  induction elements generalizing index updates with
  | nil =>
      cases h
      exact List.Sublist.refl _
  | cons p elements ih =>
      simp only [inOrder, Option.bind_eq_bind, Option.bind_eq_some_iff] at h
      rcases h with ⟨own, hown, others, hothers, heq⟩
      cases heq
      rw [inserted, List.filterMap_append]
      exact (hstep index p List.mem_cons_self own hown).append
        (ih hothers fun i p hp => hstep i p (List.mem_cons_of_mem _ hp))

theorem inserted_observeRest {p : Pat} (hrest : sliceRest p = true) (tail : Option Ty)
    (mode : BindingMode) : (inserted (observeRest p tail mode)).Sublist p.reached := by
  cases p with
  | ident byRef mutable ident subpattern =>
      cases tail with
      | none => exact List.nil_sublist _
      | some tail =>
          cases subpattern with
          | none => cases hrest
          | some subpattern =>
              cases subpattern <;> first
                | exact List.Sublist.refl _
                | exact Bool.noConfusion hrest
  | _ => exact List.nil_sublist _

theorem inserted_observeBorrowedRest {p : Pat} (hrest : sliceRest p = true) (source : Ty) :
    (inserted (observeBorrowedRest p source)).Sublist p.reached := by
  cases p with
  | ident byRef mutable ident subpattern =>
      exact inserted_observeRest hrest (some source) .move
  | _ => exact List.nil_sublist _

theorem inserted_elementStep {p : Pat} {elem : Ty} {tail : Option Ty} {own : List Update}
    (ih : ∀ {ty mode updates}, observeAnnotated generics refutable p ty mode = some updates →
      (inserted updates).Sublist p.reached)
    (h : elementStep generics refutable elem tail mode p = some own) :
    (inserted own).Sublist p.reached := by
  rw [elementStep] at h
  split at h
  · rename_i hrest
    cases h
    exact inserted_observeRest hrest tail mode
  · exact ih h

/-- Each variable the observation reaches is recorded at most once, in order. -/
theorem inserted_sublist_reached (p : Pat) : ∀ {ty mode updates},
    observeAnnotated generics refutable p ty mode = some updates →
    (inserted updates).Sublist p.reached := by
  induction p using Pat.induct with
  | ident byRef mutable ident subpattern =>
      intro ty mode updates h
      cases subpattern with
      | none =>
          cases h
          exact List.Sublist.refl _
      | some subpattern =>
          cases h
          exact List.nil_sublist _
  | paren p ih => exact fun h => ih h
  | reference mutable p ih =>
      intro ty mode updates h
      simp only [observeAnnotated] at h
      split at h
      · exact ih h
      · split at h
        · exact ih h
        · cases h
          exact List.nil_sublist _
  | tuple elements ih =>
      intro ty mode updates h
      simp only [observeAnnotated] at h
      split at h
      · simp only [checkedSub_of_le isSome_toNat_le_length, Option.bind_eq_bind,
          Option.bind_some] at h
        split at h
        · cases h
          exact List.nil_sublist _
        · -- A written tuple: each element with the type at its index.
          rw [observeTuple_eq] at h
          refine inserted_inOrder h ?_
          intro i p hp own hown
          rw [tupleStep] at hown
          split at hown
          · cases hown
            exact List.nil_sublist _
          · simp only [Option.bind_eq_bind, Option.bind_eq_some_iff] at hown
            rcases hown with ⟨k, _, elem, _, hown⟩
            exact ih p hp hown
      · split at h
        · -- A path: a declared projection inserts no variable.
          rw [observeProjected_eq] at h
          refine inserted_inOrder h ?_
          intro i p hp own hown
          rw [projectedStep.eq_def] at hown
          split at hown
          · cases hown
            exact List.nil_sublist _
          · rcases Option.map_eq_some_iff.1 hown with ⟨updates, hupdates, rfl⟩
            change (inserted updates).Sublist p.reached
            exact ih p hp hupdates
        · cases h
          exact List.nil_sublist _
  | slice elements ih =>
      intro ty mode updates h
      have helements : ∀ {elem tail mode updates},
          observeElements generics refutable elements elem tail mode = some updates →
          (inserted updates).Sublist (Pat.reachedAll elements) := by
        intro elem tail mode updates h
        rw [observeElements_eq generics refutable elements 0] at h
        exact inserted_inOrder h fun _ p hp _ hown => inserted_elementStep (ih p hp) hown
      simp only [observeAnnotated] at h
      split at h
      · simp only [checkedSub_of_le List.countP_le_length, Option.bind_eq_bind,
          Option.bind_some] at h
        split at h
        · cases h
          exact List.nil_sublist _
        · -- An array.
          rcases Option.bind_eq_some_iff.1 h with ⟨tail, _, h⟩
          exact helements h
      · split at h
        · cases h
          exact List.nil_sublist _
        · exact helements h
      · split at h
        · rcases Option.bind_eq_some_iff.1 h with ⟨others, hothers, heq⟩
          cases heq
          rw [observeSequence_eq generics refutable elements 0] at hothers
          change (inserted others).Sublist (Pat.reachedAll elements)
          refine inserted_inOrder hothers ?_
          intro i p hp own hown
          rw [sequenceStep] at hown
          split at hown
          · -- A borrowed rest is the only element.
            rename_i hborrows
            have hrest : sliceRest p = true := by
              simpa using List.countP_eq_zero.1 hborrows.1 p hp
            cases hown
            exact inserted_observeBorrowedRest hrest _
          · exact inserted_elementStep (ih p hp) hown
        · cases h
          exact List.nil_sublist _
  | _ =>
      intro ty mode updates h
      cases h
      exact List.nil_sublist _

/-- Only variables the observation reaches are recorded. -/
theorem mem_reached_of_emits (p : Pat) {name : String} {t : Ty}
    (h : Emits generics refutable p ty mode (.insert name t)) : name ∈ p.reached := by
  rcases h with ⟨updates, hupdates, hmem⟩
  exact (inserted_sublist_reached p hupdates).subset (mem_inserted hmem)

theorem elementEmits_reached {p : Pat} {elem : Ty} {tail : Option Ty} {name : String} {t : Ty}
    (h : ElementEmits generics refutable elem tail mode p (.insert name t)) : name ∈ p.reached := by
  rw [ElementEmits] at h
  split at h
  · rename_i hrest
    exact (inserted_observeRest hrest tail mode).subset (mem_inserted h)
  · exact mem_reached_of_emits p h

theorem reached_subset_names (p : Pat) : p.reached ⊆ p.names := by
  induction p using Pat.induct with
  | ident byRef mutable ident subpattern =>
      intro name hname
      cases subpattern with
      | none => exact hname
      | some subpattern =>
          cases subpattern with
          | rest => exact hname
          | _ => cases hname
  | paren p ih =>
      rw [names_paren]
      exact ih
  | reference mutable p ih =>
      rw [names_reference]
      exact ih
  | tuple elements ih =>
      intro name hname
      rcases mem_reachedAll.1 hname with ⟨p, hp, hname⟩
      exact mem_names_tuple.2 ⟨p, hp, ih p hp hname⟩
  | slice elements ih =>
      intro name hname
      rcases mem_reachedAll.1 hname with ⟨p, hp, hname⟩
      exact mem_names_slice.2 ⟨p, hp, ih p hp hname⟩
  | _ => exact List.nil_subset _

end Total

end Binding
end Systasis
