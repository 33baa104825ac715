import Mathlib.Data.List.Forall2
import Systasis.Binding.Recorded

/-!
# Declared — the types of values registered without one

Model of `Bindings::declared_value_type` in `captures.rs` and of the pass of `expand_inner` that fills
in the types of winning registrations.

Macros and globs before the container bind names that nobody sees.  A scope here may hold any names
for them, and `uncertain` is what keeps a recorded type from being used there.
-/

namespace Systasis
namespace Binding

open Syntax

variable {constants : Constants}

/-! ## The pass -/

/-- A registered value. -/
inductive ValueExpr where
  | path (qself : Bool) (segments : List Segment)
  | cast (expr : ValueExpr) (ty : Ty)
  | paren (expr : ValueExpr)
  | group (expr : ValueExpr)
  | other (tokens : String)

/-- `Path::get_ident` -/
def getIdent : List Segment → Option Ident
  | [segment] => if segment.plain then some segment.ident else none
  | _ => none

/-- `Bindings::declared_value_type` -/
def Bindings.declaredValueType (b : Bindings) : ValueExpr → Option Ty
  | .path qself segments =>
      if !qself && !b.uncertain then do
        let ident ← getIdent segments
        (b.types ident.name).join
      else none
  | .cast _ ty => some ty
  | .paren expr => b.declaredValueType expr
  | .group expr => b.declaredValueType expr
  | .other _ => none

structure Registration where
  value : ValueExpr
  ty : Ty
  inferValueType : Bool

/-- The winning registrations with their types filled in, or the first value whose type cannot be
determined. -/
def fillTypes (b : Bindings) : List Registration → Except ValueExpr (List Registration)
  | [] => .ok []
  | registration :: others => do
      let registration ←
        if registration.inferValueType then
          match b.declaredValueType registration.value with
          | some ty => .ok { registration with ty }
          | none => .error registration.value
        else .ok registration
      let others ← fillTypes b others
      .ok (registration :: others)

/-! ## Scopes with code that is not seen -/

/-- `pattern_names` meets a macro or tokens it does not know. -/
def Pat.hides (p : Pat) : Bool :=
  (Captures.patternNames p.erase).2

/-- What a pattern brings into scope: anything, where it hides names. -/
inductive Enters (constants : Constants) : Pat → Option Ty → Scope → Prop
  | seen {p : Pat} {annotated : Option Ty} {Γ : List (String × Shape)} :
      Introduces constants p annotated Γ → Enters constants p annotated (entries Γ)
  | hidden {p : Pat} {annotated : Option Ty} {unseen : Scope} :
      p.hides = true → Enters constants p annotated unseen

inductive ParametersAround (constants : Constants) : Scope → List FnArg → Scope → Prop
  | nil {scope : Scope} : ParametersAround constants scope [] scope
  | receiver {scope scope' : Scope} {inputs : List FnArg} :
      ParametersAround constants scope inputs scope' →
      ParametersAround constants scope (.receiver :: inputs) scope'
  | typed {scope scope' bound : Scope} {p : Pat} {ty : Ty} {inputs : List FnArg} :
      Enters constants p (some ty) bound → ParametersAround constants (bound ++ scope) inputs scope' →
      ParametersAround constants scope (.typed p ty :: inputs) scope'

def ItemsAround (stmts : List Stmt) (items : Scope) : Prop :=
  ∀ entry ∈ items, ∃ item event, .item item ∈ stmts ∧ Brings item event ∧ entry ∈ event.scope

inductive StatementsAround (constants : Constants) : Scope → List Stmt → Scope → Prop
  | nil {scope : Scope} : StatementsAround constants scope [] scope
  | localStmt {scope scope' bound : Scope} {p : Pat} {diverges : Bool} {stmts : List Stmt} :
      Enters constants p none bound → StatementsAround constants (bound ++ scope) stmts scope' →
      StatementsAround constants scope (.localStmt p diverges :: stmts) scope'
  | item {scope scope' : Scope} {item : BlockItem} {stmts : List Stmt} :
      StatementsAround constants scope stmts scope' →
      StatementsAround constants scope (.item item :: stmts) scope'
  /-- A macro can expand to `let` statements with names of its arguments. -/
  | macroStmt {scope scope' unseen : Scope} {stmts : List Stmt} :
      StatementsAround constants (unseen ++ scope) stmts scope' →
      StatementsAround constants scope (.macroStmt :: stmts) scope'
  | expr {scope scope' : Scope} {stmts : List Stmt} :
      StatementsAround constants scope stmts scope' →
      StatementsAround constants scope (.expr :: stmts) scope'

/-- A scope at the statement of a function that has `before` statements before it. -/
def Around (constants : Constants) (function : ItemFn) (before : Nat) (scope : Scope) : Prop :=
  ∃ parameters items, ParametersAround constants [] function.inputs parameters ∧
    ItemsAround function.stmts items ∧
      StatementsAround constants (items ++ parameters) (function.stmts.take before) scope

/-- The type of a value, where it does not depend on the types of calls and constructors: a cast has
its target type, a variable that of its innermost binding. -/
inductive HasShape (constants : Constants) (scope : Scope) : ValueExpr → Shape → Prop
  | variable {segments : List Segment} {ident : Ident} {shape : Shape} :
      getIdent segments = some ident → scope.lookup ident.name = some (.value shape) →
        HasShape constants scope (.path false segments) shape
  | cast {expr : ValueExpr} {ty : Ty} : HasShape constants scope (.cast expr ty) (ty.shape constants)
  | paren {expr : ValueExpr} {shape : Shape} :
      HasShape constants scope expr shape → HasShape constants scope (.paren expr) shape
  | group {expr : ValueExpr} {shape : Shape} :
      HasShape constants scope expr shape → HasShape constants scope (.group expr) shape

/-- No foreign item of the body has the name of a parameter. -/
def ItemFn.ForeignApart (function : ItemFn) : Prop :=
  ∀ item items, .item item ∈ function.stmts → item.item = .foreignMod items → ∀ ident ∈ items,
    ∀ p ty, .typed p ty ∈ function.inputs → ident.name ∉ p.names

/-! ## Uncertainty -/

namespace Bindings

theorem uncertain_inserted (names : List String) (b : Bindings) :
    (names.foldl (fun b name => b.insert name none) b).uncertain = b.uncertain := by
  induction names generalizing b with
  | nil => rfl
  | cons first names ih => exact ih _

theorem uncertain_updates (updates : List Update) (b : Bindings) :
    (updates.foldl update b).uncertain = b.uncertain := by
  induction updates generalizing b with
  | nil => rfl
  | cons u updates ih =>
      rw [List.foldl_cons, ih]
      cases u <;> rfl

theorem uncertain_introduce (b : Bindings) (p : Pat) :
    (b.introduce p).uncertain = (b.uncertain || p.hides) :=
  uncertain_inserted _ _

/-- An observed pattern makes the types uncertain exactly when it hides names. -/
theorem uncertain_observePattern {refutable : Bool} (p : Pat) : ∀ {b b' : Bindings} {annotated},
    b.observePattern p annotated refutable = some b' →
      b'.uncertain = (b.uncertain || p.hides) := by
  induction p using Pat.induct with
  | typed p ty ih =>
      intro b b' annotated hobserve
      have hhides : (Pat.typed p ty).hides = p.hides := by
        simp [Pat.hides, Pat.erase, Captures.patternNames, Captures.patternsNames]
      rw [hhides]
      exact ih hobserve
  | _ =>
      intro b b' annotated hobserve
      cases annotated with
      | none =>
          cases hobserve
          exact uncertain_introduce _ _
      | some ty =>
          rcases Option.map_eq_some_iff.1 hobserve with ⟨updates, -, rfl⟩
          rw [uncertain_updates, uncertain_introduce]

theorem uncertain_observeStmtItem {localItems : List String} {b : Bindings} {s : Stmt}
    (h : (b.observeStmtItem localItems s).uncertain = false) : b.uncertain = false := by
  cases s with
  | item item =>
      have hforget : (b.forget item).uncertain = b.uncertain := by
        unfold forget
        split <;> rfl
      rw [← hforget]
      revert h
      simp only [observeStmtItem, observeImport]
      split
      · split <;> simp
      · split <;> simp
      · exact id
  | _ => exact h

theorem uncertain_observeItems {localItems : List String} (stmts : List Stmt) {b : Bindings}
    (h : (stmts.foldl (observeStmtItem localItems) b).uncertain = false) : b.uncertain = false := by
  induction stmts generalizing b with
  | nil => exact h
  | cons s stmts ih => exact uncertain_observeStmtItem (ih h)

end Bindings

/-! ## Recorded types around code that is not seen -/

/-- Every recorded type is that of the innermost binding, as long as the types are certain. -/
def Certain (constants : Constants) (b : Bindings) (scope : Scope) : Prop :=
  b.uncertain = false → Faithful constants b scope

theorem certain_enters {b b' : Bindings} {scope bound : Scope} {refutable : Bool} {p : Pat}
    {annotated : Option Ty} (hcertain : Certain constants b scope)
    (h : Enters constants p annotated bound)
    (hobserve : b.observePattern p annotated refutable = some b') :
    Certain constants b' (bound ++ scope) := by
  intro huncertain
  rw [Bindings.uncertain_observePattern p hobserve, Bool.or_eq_false_iff] at huncertain
  rcases b.observePattern_spec refutable p annotated with ⟨b₁, hpattern, hobserved⟩
  cases hpattern.symm.trans hobserve
  cases h with
  | seen hintroduces => exact faithful_introduces (hcertain huncertain.1) hintroduces hobserved
  | hidden hhides => exact absurd hhides (by simp [huncertain.2])

theorem observeArguments_certain {inputs : List FnArg} {scope scope' : Scope} {b b' : Bindings}
    (hcertain : Certain constants b scope) (h : ParametersAround constants scope inputs scope')
    (hobserve : inputs.foldlM Bindings.observeArgument b = some b') :
    Certain constants b' scope' := by
  induction h generalizing b with
  | nil =>
      cases hobserve
      exact hcertain
  | receiver _ ih => exact ih hcertain hobserve
  | typed henters _ ih =>
      rw [List.foldlM_cons] at hobserve
      rcases Option.bind_eq_some_iff.1 hobserve with ⟨b₁, hpattern, hrest⟩
      exact ih (certain_enters hcertain henters hpattern) hrest

theorem observeStatements_certain {stmts : List Stmt} {scope scope' : Scope} {b b' : Bindings}
    (hcertain : Certain constants b scope) (h : StatementsAround constants scope stmts scope')
    (hobserve : stmts.foldlM Bindings.observeStatement b = some b') :
    Certain constants b' scope' := by
  induction h generalizing b with
  | nil =>
      cases hobserve
      exact hcertain
  | localStmt henters _ ih =>
      rw [List.foldlM_cons] at hobserve
      rcases Option.bind_eq_some_iff.1 hobserve with ⟨b₁, hpattern, hrest⟩
      exact ih (certain_enters hcertain henters hpattern) hrest
  | item _ ih => exact ih hcertain hobserve
  | macroStmt _ ih => exact ih (fun huncertain => absurd huncertain (by simp)) hobserve
  | expr _ ih => exact ih hcertain hobserve

theorem importsNames_known {trees : List UseTree} (h : (Captures.importsNames trees).2 = true)
    {tree : UseTree} (hmem : tree ∈ trees) :
    (Captures.importNames tree).2 = true ∧
      (Captures.importNames tree).1 ⊆ (Captures.importsNames trees).1 := by
  induction trees with
  | nil => cases hmem
  | cons first trees ih =>
      rw [Captures.importsNames] at h ⊢
      cases hfirst : (Captures.importNames first).2 with
      | false => simp [hfirst] at h
      | true =>
          simp only [hfirst, if_true] at h ⊢
          rcases List.mem_cons.1 hmem with rfl | hmem
          · exact ⟨hfirst, List.subset_append_left _ _⟩
          · exact ⟨(ih h hmem).1, fun name hname =>
              List.mem_append_right _ ((ih h hmem).2 hname)⟩

/-- An import whose names are all known brings no other. -/
theorem Imports.mem_importNames {tree : UseTree} {name : String} (h : Imports tree name)
    (hknown : (Captures.importNames tree).2 = true) : name ∈ (Captures.importNames tree).1 := by
  induction h with
  | path _ ih => exact ih hknown
  | name =>
      rw [Captures.importNames] at hknown ⊢
      split at hknown
      · cases hknown
      · rename_i hself
        rw [if_neg hself]
        exact List.mem_singleton_self _
  | rename => exact List.mem_singleton_self _
  | group hmem _ ih =>
      have htree := importsNames_known hknown hmem
      exact htree.2 (ih htree.1)
  | glob => cases hknown

/-- What an item brings into the block has no recorded type, unless the types are uncertain or it is
foreign. -/
theorem types_brings {localItems : List String} {b : Bindings} {item : BlockItem} {event : Event}
    {entry : String × Entity} (hbrings : Brings item event) (hentry : entry ∈ event.scope)
    (hforeign : ∀ items, item.item = .foreignMod items → ∀ ident ∈ items, b.types ident.name = none)
    (huncertain : (b.observeStmtItem localItems (.item item)).uncertain = false) :
    (b.observeStmtItem localItems (.item item)).types entry.1 = none := by
  rw [types_observeStmtItem]
  split
  · rfl
  rename_i hname
  have hnamed : ∀ {ident : Ident}, Captures.itemName item.item = some ident →
      entry ∈ (Event.item ident.name).scope → b.types entry.1 = none := by
    intro ident hitem hmem
    rw [List.mem_singleton.1 hmem] at hname
    exact absurd (by simp [forgottenNames, hitem]) hname
  have hforget : Captures.itemName item.item = none → b.forget item = b := by
    intro hitem
    rw [Bindings.forget, hitem]
  cases hbrings with
  | function hitem | constItem hitem | staticItem hitem | tupleStruct hitem =>
      exact hnamed (by rw [hitem, Captures.itemName]) hentry
  | structItem _ | definition _ _ | other _ => cases hentry
  | foreignMod hitem =>
      rcases List.mem_map.1 hentry with ⟨ident, hident, rfl⟩
      exact hforeign _ hitem ident hident
  | @useItem tree _ hitem himports =>
      -- An import has been accepted: its names are known and none of them was recorded.
      simp only [Bindings.observeStmtItem, Bindings.observeImport,
        hforget (by rw [hitem, Captures.itemName] <;> simp), hitem] at huncertain
      split at huncertain
      · rename_i hknown
        simp only [Bool.and_eq_true, List.all_eq_true, Option.isNone_iff_eq_none] at hknown
        exact hknown.2 _ ((himports entry hentry).1.mem_importNames hknown.1.2)
      · cases huncertain
  | invocation hitem hplain =>
      simp [Bindings.observeStmtItem, Bindings.observeImport,
        hforget (by rw [hitem, Captures.itemName] <;> simp), hitem, hplain] at huncertain

theorem types_observeStmtItem_none {localItems : List String} {b : Bindings} {s : Stmt}
    {name : String} (h : b.types name = none) :
    (b.observeStmtItem localItems s).types name = none := by
  rw [types_observeStmtItem, h, ite_self]

theorem types_observeItems_none {localItems : List String} (stmts : List Stmt) {b : Bindings}
    {name : String} (h : b.types name = none) :
    (stmts.foldl (Bindings.observeStmtItem localItems) b).types name = none := by
  rw [types_observeItems, h, ite_self]

theorem types_itemsAround {localItems : List String} {stmts : List Stmt} {b : Bindings}
    {item : BlockItem} {event : Event} {entry : String × Entity} (hitem : .item item ∈ stmts)
    (hbrings : Brings item event) (hentry : entry ∈ event.scope)
    (hforeign : ∀ items, item.item = .foreignMod items → ∀ ident ∈ items, b.types ident.name = none)
    (huncertain : (stmts.foldl (Bindings.observeStmtItem localItems) b).uncertain = false) :
    (stmts.foldl (Bindings.observeStmtItem localItems) b).types entry.1 = none := by
  induction stmts generalizing b with
  | nil => cases hitem
  | cons s stmts ih =>
      rcases List.mem_cons.1 hitem with rfl | hitem
      · have hbefore := Bindings.uncertain_observeItems stmts huncertain
        exact types_observeItems_none stmts (types_brings hbrings hentry hforeign hbefore)
      · exact ih hitem (fun items hitems ident hident =>
          types_observeStmtItem_none (hforeign items hitems ident hident)) huncertain

theorem observeItems_certain {localItems : List String} {stmts : List Stmt} {b : Bindings}
    {scope items : Scope} (hcertain : Certain constants b scope) (h : ItemsAround stmts items)
    (hforeign : ∀ item foreign, .item item ∈ stmts → item.item = .foreignMod foreign →
      ∀ ident ∈ foreign, b.types ident.name = none) :
    Certain constants (stmts.foldl (Bindings.observeStmtItem localItems) b) (items ++ scope) := by
  intro huncertain name t htypes
  have hname : name ∉ items.map Prod.fst := by
    intro hmem
    rcases List.mem_map.1 hmem with ⟨entry, hentry, rfl⟩
    rcases h entry hentry with ⟨item, event, hitem, hbrings, hmem'⟩
    rw [types_itemsAround hitem hbrings hmem' (fun foreign => hforeign item foreign hitem)
      huncertain] at htypes
    cases htypes
  rw [lookup_others hname]
  apply hcertain (Bindings.uncertain_observeItems stmts huncertain)
  rw [types_observeItems] at htypes
  split at htypes
  · cases htypes
  · exact htypes

/-- Observing the parameters records names of their patterns only. -/
theorem types_observeArguments {inputs : List FnArg} {b b' : Bindings} {name : String}
    (hobserve : inputs.foldlM Bindings.observeArgument b = some b')
    (hname : ∀ p ty, .typed p ty ∈ inputs → name ∉ p.names) : b'.types name = b.types name := by
  induction inputs generalizing b with
  | nil =>
      cases hobserve
      rfl
  | cons argument inputs ih =>
      have hrest : ∀ p ty, .typed p ty ∈ inputs → name ∉ p.names := fun p ty hmem =>
        hname p ty (List.mem_cons_of_mem _ hmem)
      cases argument with
      | receiver => exact ih hobserve hrest
      | typed p ty =>
          rcases b.observePattern_spec false p (some ty) with ⟨b₁, hpattern, hobserved⟩
          rw [List.foldlM_cons, Bindings.observeArgument, hpattern] at hobserve
          rw [ih hobserve hrest, hobserved.others name (hname p ty List.mem_cons_self)]

theorem atStatement_certain {function : ItemFn} {before : Nat} {b : Bindings} {scope : Scope}
    (hforeign : function.ForeignApart) (hobserve : Bindings.atStatement function before = some b)
    (h : Around constants function before scope) : Certain constants b scope := by
  rcases h with ⟨parameters, items, hparameters, hitems, hstatements⟩
  rcases observeArguments_total function.inputs (Bindings.ofGenerics function.generics) with
    ⟨b₁, harguments⟩
  simp only [Bindings.atStatement, Bindings.fromFunction, harguments, Option.bind_eq_bind,
    Option.bind_some] at hobserve
  have hempty : Certain constants (Bindings.ofGenerics function.generics) [] := by
    intro _ name t htypes
    cases htypes
  have hnone : ∀ item foreign, .item item ∈ function.stmts → item.item = .foreignMod foreign →
      ∀ ident ∈ foreign, b₁.types ident.name = none := by
    intro item foreign hitem hmod ident hident
    exact types_observeArguments harguments (hforeign item foreign hitem hmod ident hident)
  exact observeStatements_certain
    (observeItems_certain (observeArguments_certain hempty hparameters harguments) hitems hnone)
    hstatements hobserve

/-! ## Values -/

theorem declaredValueType_hasShape {b : Bindings} {scope : Scope}
    (hcertain : Certain constants b scope) (value : ValueExpr) : ∀ {ty : Ty},
      b.declaredValueType value = some ty → HasShape constants scope value (ty.shape constants) := by
  induction value with
  | path qself segments =>
      intro ty hdeclared
      simp only [Bindings.declaredValueType] at hdeclared
      split at hdeclared
      · rename_i hplain
        simp only [Bool.and_eq_true, Bool.not_eq_true'] at hplain
        rcases Option.bind_eq_some_iff.1 hdeclared with ⟨ident, hident, htypes⟩
        have hrecorded : b.types ident.name = some (some ty) := Option.join_eq_some_iff.1 htypes
        rw [hplain.1]
        exact .variable hident (hcertain hplain.2 _ _ hrecorded)
      · cases hdeclared
  | cast expr ty _ =>
      intro _ hdeclared
      cases hdeclared
      exact .cast
  | paren expr ih => exact fun hdeclared => .paren (ih hdeclared)
  | group expr ih => exact fun hdeclared => .group (ih hdeclared)
  | other tokens =>
      intro _ hdeclared
      cases hdeclared

/-- A value has at most one type. -/
theorem HasShape.unique {scope : Scope} {value : ValueExpr} {shape shape' : Shape}
    (h : HasShape constants scope value shape) (h' : HasShape constants scope value shape') :
    shape = shape' := by
  induction h with
  | «variable» hident hlookup =>
      cases h' with
      | «variable» hident' hlookup' =>
          cases hident.symm.trans hident'
          cases hlookup.symm.trans hlookup'
          rfl
  | cast =>
      cases h'
      rfl
  | paren _ ih =>
      cases h' with
      | paren h' => exact ih h'
  | group _ ih =>
      cases h' with
      | group h' => exact ih h'

/-- A type filled in for a value is the type the value has in every scope the function can have at
the container, whatever macros and globs before it bind; written types stay. -/
theorem omitted_types_determined {function : ItemFn} {before : Nat} {b : Bindings} {scope : Scope}
    (hforeign : function.ForeignApart) (hobserve : Bindings.atStatement function before = some b)
    (hscope : Around constants function before scope) {registrations : List Registration} :
    ∀ {filled : List Registration}, fillTypes b registrations = .ok filled →
      List.Forall₂ (fun r r' => r'.value = r.value ∧ (r.inferValueType = false → r' = r) ∧
        (r.inferValueType = true →
          ∀ shape, HasShape constants scope r.value shape ↔ shape = r'.ty.shape constants))
        registrations filled := by
  have hcertain := atStatement_certain hforeign hobserve hscope
  induction registrations with
  | nil =>
      intro filled hfill
      cases hfill
      exact .nil
  | cons r others ih =>
      intro filled hfill
      simp only [fillTypes] at hfill
      cases hinfer : r.inferValueType with
      | false =>
          simp only [hinfer, Bool.false_eq_true, if_false] at hfill
          cases hothers : fillTypes b others with
          | error value => simp [hothers, bind, Except.bind] at hfill
          | ok rest =>
              simp only [hothers, bind, Except.bind, Except.ok.injEq] at hfill
              subst hfill
              exact .cons ⟨rfl, fun _ => rfl, by simp [hinfer]⟩ (ih hothers)
      | true =>
          simp only [hinfer, if_true] at hfill
          cases hdeclared : b.declaredValueType r.value with
          | none => simp [hdeclared, bind, Except.bind] at hfill
          | some ty =>
              cases hothers : fillTypes b others with
              | error value => simp [hdeclared, hothers, bind, Except.bind] at hfill
              | ok rest =>
                  simp only [hdeclared, hothers, bind, Except.bind, Except.ok.injEq] at hfill
                  subst hfill
                  have hshape := declaredValueType_hasShape hcertain r.value hdeclared
                  refine .cons ⟨rfl, by simp [hinfer], ?_⟩ (ih hothers)
                  rintro _ shape
                  exact ⟨fun h => h.unique hshape, fun h => h ▸ hshape⟩

/-- `fn main(limit: Bytes) { let name: Text = ..; systasis_container! { .. } }` -/
def limitFunction : ItemFn where
  generics := []
  inputs := [.typed (.ofName "limit") (.ofName "Bytes")]
  stmts := [.localStmt (.typed (.ofName "name") (.ofName "Text")) false]

/-- `register_value!(name as IName)` and `register_value!(limit as Wide as ILimit)` -/
def limitRegistrations : List Registration :=
  [⟨.path false [⟨⟨false, "name"⟩, true⟩], .other "_", true⟩,
    ⟨.cast (.path false [⟨⟨false, "limit"⟩, true⟩]) (.ofName "Wide"), .other "_", true⟩]

theorem omitted_types_determined_limit :
    let constants : Constants :=
      ⟨fun _ => 0, fun _ _ => 0, fun _ _ _ => 0, fun _ _ => 0, fun _ => 0⟩
    ∃ b filled, Bindings.atStatement limitFunction 1 = some b ∧
      fillTypes b limitRegistrations = .ok filled ∧
      List.Forall₂ (fun r r' => r'.value = r.value ∧ (r.inferValueType = false → r' = r) ∧
        (r.inferValueType = true → ∀ shape,
          HasShape constants (entries [("name", .named (.ofName "Text")),
            ("limit", .named (.ofName "Bytes"))]) r.value shape ↔
              shape = r'.ty.shape constants)) limitRegistrations filled := by
  intro constants
  have hname : Enters constants (.typed (.ofName "name") (.ofName "Text")) none
      (entries [("name", .named (.ofName "Text"))]) :=
    .seen (.ascribed (.annotated (.plain rfl) (List.nodup_singleton _)))
  have hlimit : Enters constants (.ofName "limit") (some (.ofName "Bytes"))
      (entries [("limit", .named (.ofName "Bytes"))]) :=
    .seen (.annotated (.plain rfl) (List.nodup_singleton _))
  have hscope : Around constants limitFunction 1
      (entries [("name", .named (.ofName "Text")), ("limit", .named (.ofName "Bytes"))]) :=
    ⟨_, [], .typed hlimit .nil, by simp [ItemsAround], .localStmt hname .nil⟩
  have hforeign : limitFunction.ForeignApart := by simp [ItemFn.ForeignApart, limitFunction]
  rcases atStatement_total limitFunction 1 with ⟨b, hobserve⟩
  cases hfill : fillTypes b limitRegistrations with
  | error value =>
      rcases Option.some.inj hobserve with rfl
      cases hfill
  | ok filled =>
      exact ⟨b, filled, hobserve, hfill, omitted_types_determined hforeign hobserve hscope hfill⟩

end Binding
end Systasis
