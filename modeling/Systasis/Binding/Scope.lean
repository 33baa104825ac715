import Systasis.Binding.Modes

/-!
# Scope — what patterns bring into scope

Observing a pattern leaves other names as they were, and its own without a type or with the one its
annotation gives, which is the type of the variable.
-/

namespace Systasis
namespace Binding

open Syntax

variable {constants : Constants}

/-! ## Observing a pattern -/

/-- A pattern under its type ascriptions, with the innermost of them. -/
def Pat.ascribed : Pat → Option Ty → Pat × Option Ty
  | .typed pattern ty, _ => pattern.ascribed (some ty)
  | pattern, annotated => (pattern, annotated)

namespace Bindings

theorem types_inserted (names : List String) (b : Bindings) (name : String) :
    (names.foldl (fun b name => b.insert name none) b).types name =
      if name ∈ names then some none else b.types name := by
  induction names generalizing b with
  | nil => simp
  | cons first names ih =>
      rw [List.foldl_cons, ih]
      by_cases hmem : name ∈ names
      · simp [hmem]
      · by_cases heq : name = first <;> simp [hmem, heq, insert]

theorem genericNames_inserted (names : List String) (b : Bindings) :
    (names.foldl (fun b name => b.insert name none) b).genericNames = b.genericNames := by
  induction names generalizing b with
  | nil => rfl
  | cons first names ih => exact ih _

theorem types_introduce (b : Bindings) (p : Pat) (name : String) :
    (b.introduce p).types name = if name ∈ p.names then some none else b.types name :=
  types_inserted _ _ name

theorem types_updates (updates : List Update) (b : Bindings) (name : String) :
    (∃ t, .insert name t ∈ updates ∧ (updates.foldl update b).types name = some (some t)) ∨
      (∀ t, .insert name t ∉ updates) ∧ (updates.foldl update b).types name = b.types name := by
  induction updates generalizing b with
  | nil => simp
  | cons u updates ih =>
      -- A later insertion wins; without one, this update decides.
      rcases ih (b.update u) with ⟨t, hmem, htypes⟩ | ⟨hnone, htypes⟩
      · exact Or.inl ⟨t, List.mem_cons_of_mem _ hmem, htypes⟩
      · rw [List.foldl_cons, htypes]
        cases u with
        | insert other t =>
            by_cases heq : name = other
            · subst heq
              exact Or.inl ⟨t, List.mem_cons_self, by simp [update, insert]⟩
            · refine Or.inr ⟨?_, by simp [update, insert, heq]⟩
              intro t' hmem
              rcases List.mem_cons.1 hmem with hmem | hmem
              · cases hmem
                exact heq rfl
              · exact hnone t' hmem
        | tupleProjection arity index =>
            refine Or.inr ⟨?_, rfl⟩
            intro t' hmem
            rcases List.mem_cons.1 hmem with hmem | hmem
            · cases hmem
            · exact hnone t' hmem
        | sequenceProjections =>
            refine Or.inr ⟨?_, rfl⟩
            intro t' hmem
            rcases List.mem_cons.1 hmem with hmem | hmem
            · cases hmem
            · exact hnone t' hmem

theorem genericNames_updates (updates : List Update) (b : Bindings) :
    (updates.foldl update b).genericNames = b.genericNames := by
  induction updates generalizing b with
  | nil => rfl
  | cons u updates ih =>
      rw [List.foldl_cons, ih]
      cases u <;> rfl

/-- What observing a pattern leaves: other names as they were, its own names without a type or with
one its own annotation gives. -/
structure Observed (b : Bindings) (p : Pat) (annotated : Option Ty) (refutable : Bool)
    (b' : Bindings) : Prop where
  genericNames : b'.genericNames = b.genericNames
  others : ∀ name, name ∉ p.names → b'.types name = b.types name
  own : ∀ name ∈ p.names, b'.types name = some none ∨ ∃ q ty t, p.ascribed annotated = (q, some ty) ∧
    Emits b.genericNames refutable q ty .move (.insert name t) ∧ b'.types name = some (some t)
  recorded : ∀ q ty name t, p.ascribed annotated = (q, some ty) →
    Emits b.genericNames refutable q ty .move (.insert name t) →
    ∃ t', Emits b.genericNames refutable q ty .move (.insert name t') ∧
      b'.types name = some (some t')

theorem observed_plain {b : Bindings} {p : Pat} {refutable : Bool}
    (hascribed : ∀ annotated, p.ascribed annotated = (p, annotated))
    (hnone : b.observePattern p none refutable = some (b.introduce p))
    (hsome : ∀ ty, b.observePattern p (some ty) refutable =
      (observeAnnotated b.genericNames refutable p ty .move).map fun updates =>
        updates.foldl update (b.introduce p)) (annotated : Option Ty) :
    ∃ b', b.observePattern p annotated refutable = some b' ∧
      Observed b p annotated refutable b' := by
  cases annotated with
  | none =>
      refine ⟨_, hnone, genericNames_inserted _ _, ?_, ?_, ?_⟩
      · intro name hname
        simp [types_introduce, hname]
      · intro name hname
        exact Or.inl (by simp [types_introduce, hname])
      · intro q ty name t heq
        rw [hascribed] at heq
        cases heq
  | some ty =>
      rcases observeAnnotated_total b.genericNames refutable p ty .move with ⟨updates, hupdates⟩
      refine ⟨_, by rw [hsome, hupdates]; rfl, ?_, ?_, ?_, ?_⟩
      · exact (genericNames_updates _ _).trans (genericNames_inserted _ _)
      · intro name hname
        rcases types_updates updates (b.introduce p) name with ⟨t, hmem, _⟩ | ⟨_, htypes⟩
        · exact absurd (reached_subset_names p (mem_reached_of_emits p ⟨updates, hupdates, hmem⟩))
            hname
        · rw [htypes, types_introduce, if_neg hname]
      · intro name hname
        rcases types_updates updates (b.introduce p) name with ⟨t, hmem, htypes⟩ | ⟨_, htypes⟩
        · exact Or.inr ⟨p, ty, t, hascribed _, ⟨updates, hupdates, hmem⟩, htypes⟩
        · exact Or.inl (by rw [htypes, types_introduce, if_pos hname])
      · intro q ty' name t heq hemits
        rw [hascribed] at heq
        cases heq
        rw [emits_iff_of_eq hupdates] at hemits
        rcases types_updates updates (b.introduce p) name with ⟨t', hmem, htypes⟩ | ⟨hnot, _⟩
        · exact ⟨t', ⟨updates, hupdates, hmem⟩, htypes⟩
        · exact absurd hemits (hnot t)

theorem observePattern_spec (b : Bindings) (refutable : Bool) (p : Pat) : ∀ annotated,
    ∃ b', b.observePattern p annotated refutable = some b' ∧
      Observed b p annotated refutable b' := by
  induction p using Pat.induct with
  | typed p ty ih =>
      intro annotated
      rcases ih (some ty) with ⟨b', hobserve, hgeneric, hothers, hown, hrecorded⟩
      refine ⟨b', hobserve, hgeneric, ?_, ?_, hrecorded⟩
      · rw [names_typed]
        exact hothers
      · rw [names_typed]
        exact hown
  | _ =>
      exact observed_plain (fun _ => rfl) rfl (fun _ => rfl)

end Bindings

/-! ## Scopes -/

/-- What a name of the value namespace stands for. -/
inductive Entity where
  | value (shape : Shape)
  | item

/-- Innermost first. -/
abbrev Scope : Type := List (String × Entity)

def entries (Γ : List (String × Shape)) : Scope :=
  Γ.map fun (name, shape) => (name, .value shape)

/-- A pattern binds variables: typed by its annotation, or by a type Rust infers. -/
inductive Introduces (constants : Constants) :
    Pat → Option Ty → List (String × Shape) → Prop
  | ascribed {p : Pat} {ty : Ty} {annotated : Option Ty} {Γ : List (String × Shape)} :
      Introduces constants p (some ty) Γ → Introduces constants (.typed p ty) annotated Γ
  | annotated {p : Pat} {ty : Ty} {Γ : List (String × Shape)} :
      Typed .move p (ty.shape constants) Γ → (Γ.map Prod.fst).Nodup →
      Introduces constants p (some ty) Γ
  | inferred {p : Pat} {shape : Shape} {Γ : List (String × Shape)} :
      Typed .move p shape Γ → (Γ.map Prod.fst).Nodup → Introduces constants p none Γ

/-! ## Recorded types in a scope -/

/-- Every recorded type is that of the innermost binding. -/
def Faithful (constants : Constants) (b : Bindings) (scope : Scope) : Prop :=
  ∀ name t, b.types name = some (some t) →
    scope.lookup name = some (.value (t.shape constants))

theorem lookup_entries {Γ : List (String × Shape)} {scope : Scope} {name : String} {shape : Shape}
    (hnodup : (Γ.map Prod.fst).Nodup) (hmem : (name, shape) ∈ Γ) :
    (entries Γ ++ scope).lookup name = some (.value shape) := by
  induction Γ with
  | nil => cases hmem
  | cons first Γ ih =>
      rcases first with ⟨other, shape'⟩
      rcases List.nodup_cons.1 hnodup with ⟨hfresh, hnodup⟩
      rcases List.mem_cons.1 hmem with hmem | hlater
      · cases hmem
        simp [entries]
      · have hne : (name == other) = false := by
          rw [beq_eq_false_iff_ne]
          intro heq
          subst heq
          exact hfresh (List.mem_map.2 ⟨_, hlater, rfl⟩)
        simpa [entries, List.lookup_cons, hne] using ih hnodup hlater

theorem lookup_others {front scope : Scope} {name : String} (h : name ∉ front.map Prod.fst) :
    (front ++ scope).lookup name = scope.lookup name := by
  induction front with
  | nil => rfl
  | cons first front ih =>
      rcases first with ⟨other, entity⟩
      simp only [List.map_cons, List.mem_cons, not_or] at h
      have hne : (name == other) = false := beq_eq_false_iff_ne.2 h.1
      simpa [List.lookup_cons, hne] using ih h.2

theorem map_fst_entries (Γ : List (String × Shape)) :
    (entries Γ).map Prod.fst = Γ.map Prod.fst := by
  simp [entries, Function.comp_def]

/-- A typed pattern has no ascription of its own. -/
theorem ascribed_of_typed {mode : BindingMode} {p : Pat} {shape : Shape}
    {Γ : List (String × Shape)} (h : Typed mode p shape Γ) (annotated : Option Ty) :
    p.ascribed annotated = (p, annotated) := by
  cases p with
  | typed p ty =>
      cases h with
      | through hdestructures => cases hdestructures
      | unsupported hunsupported => cases hunsupported
  | _ => rfl

/-- A pattern keeps recorded types those of the innermost bindings. -/
theorem faithful_introduces {b b' : Bindings} {scope : Scope} {refutable : Bool} {p : Pat}
    {annotated : Option Ty} {Γ : List (String × Shape)} (hfaithful : Faithful constants b scope)
    (h : Introduces constants p annotated Γ) (hobserved : b.Observed p annotated refutable b') :
    Faithful constants b' (entries Γ ++ scope) := by
  induction h with
  | ascribed _ ih =>
      refine ih ⟨hobserved.genericNames, ?_, ?_, hobserved.recorded⟩
      · have hothers := hobserved.others
        rwa [names_typed] at hothers
      · have hown := hobserved.own
        rwa [names_typed] at hown
  | @annotated p ty Γ htyped hnodup =>
      intro name t htypes
      -- Own names: the recorded type is one the annotation gives the pattern.
      by_cases hname : name ∈ p.names
      · rcases hobserved.own name hname with hnone | ⟨q, ty', t', hascribed, hemits, hsome⟩
        · rw [hnone] at htypes
          cases htypes
        · rw [htypes] at hsome
          cases hsome
          rw [ascribed_of_typed htyped] at hascribed
          cases hascribed
          exact lookup_entries hnodup (emits_typed p htyped hemits)
      · -- Other names: nothing was recorded and nothing is shadowed.
        rw [hobserved.others name hname] at htypes
        rw [lookup_others (by rwa [map_fst_entries, binds p htyped])]
        exact hfaithful name t htypes
  | @inferred p shape Γ htyped hnodup =>
      intro name t htypes
      -- Without an annotation no own name has a recorded type.
      by_cases hname : name ∈ p.names
      · rcases hobserved.own name hname with hnone | ⟨q, ty', t', hascribed, _, _⟩
        · rw [hnone] at htypes
          cases htypes
        · rw [ascribed_of_typed htyped] at hascribed
          cases hascribed
      · rw [hobserved.others name hname] at htypes
        rw [lookup_others (by rwa [map_fst_entries, binds p htyped])]
        exact hfaithful name t htypes

/-! ## Items -/

/-- The names `from_function` takes out of the types. -/
def forgottenNames (stmts : List Stmt) : List String :=
  stmts.filterMap fun
    | .item item => (Captures.itemName item.item).map Ident.name
    | _ => none

/-- An item takes away the type of its name and records none. -/
theorem types_observeStmtItem (localItems : List String) (b : Bindings) (s : Stmt) (name : String) :
    (b.observeStmtItem localItems s).types name =
      if name ∈ forgottenNames [s] then none else b.types name := by
  cases s with
  | item item =>
      have himport : ∀ b : Bindings, (b.observeImport localItems item).types = b.types := by
        intro b
        simp only [Bindings.observeImport]
        split
        · split <;> rfl
        · split <;> rfl
        · rfl
      rcases (Captures.itemName item.item).eq_none_or_eq_some with hname | ⟨ident, hname⟩
      · simp [Bindings.observeStmtItem, himport, Bindings.forget, forgottenNames, hname]
      · simp [Bindings.observeStmtItem, himport, Bindings.forget, forgottenNames, hname,
          Bindings.remove]
  | _ => simp [Bindings.observeStmtItem, forgottenNames]

theorem types_observeItems (localItems : List String) (stmts : List Stmt) (b : Bindings)
    (name : String) :
    (stmts.foldl (Bindings.observeStmtItem localItems) b).types name =
      if name ∈ forgottenNames stmts then none else b.types name := by
  induction stmts generalizing b with
  | nil => simp [forgottenNames]
  | cons s stmts ih =>
      have hcons : forgottenNames (s :: stmts) = forgottenNames [s] ++ forgottenNames stmts := by
        simp [forgottenNames, List.filterMap_cons]
        split <;> simp
      rw [List.foldl_cons, ih, types_observeStmtItem, hcons]
      by_cases hmem : name ∈ forgottenNames stmts <;> simp [hmem]

/-! ## Observations of whole functions -/

theorem observeArguments_total (inputs : List FnArg) (b : Bindings) :
    ∃ b', inputs.foldlM Bindings.observeArgument b = some b' := by
  induction inputs generalizing b with
  | nil => exact ⟨b, rfl⟩
  | cons argument inputs ih =>
      cases argument with
      | receiver => exact ih b
      | typed p ty =>
          rcases b.observePattern_spec false p (some ty) with ⟨b₁, hpattern, _⟩
          rw [List.foldlM_cons, Bindings.observeArgument, hpattern]
          exact ih b₁

theorem observeStatements_total (stmts : List Stmt) (b : Bindings) :
    ∃ b', stmts.foldlM Bindings.observeStatement b = some b' := by
  induction stmts generalizing b with
  | nil => exact ⟨b, rfl⟩
  | cons s stmts ih =>
      cases s with
      | localStmt p diverges =>
          rcases b.observePattern_spec diverges p none with ⟨b₁, hpattern, _⟩
          rw [List.foldlM_cons, Bindings.observeStatement, hpattern]
          exact ih b₁
      | item item => exact ih _
      | macroStmt => exact ih _
      | expr => exact ih _

theorem atStatement_total (function : ItemFn) (before : Nat) :
    ∃ b, Bindings.atStatement function before = some b := by
  rcases observeArguments_total function.inputs (Bindings.ofGenerics function.generics) with
    ⟨b₁, harguments⟩
  rcases observeStatements_total (function.stmts.take before)
    (function.stmts.foldl (Bindings.observeStmtItem function.localItems) b₁) with ⟨b, hstatements⟩
  exact ⟨b, by simp [Bindings.atStatement, Bindings.fromFunction, harguments, hstatements]⟩

/-- A type given by one name. -/
def Ty.ofName (name : String) : Ty :=
  .path [⟨⟨false, name⟩, true⟩]

/-- A variable without modifiers. -/
def Pat.ofName (name : String) : Pat :=
  .ident false false ⟨false, name⟩ none

end Binding
end Systasis
