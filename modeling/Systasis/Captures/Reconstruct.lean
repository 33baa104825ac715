import Systasis.Captures.Correspondence
import Systasis.Captures.Evaluation

/-!
# Reconstruct — when a reconstructed constructor means what was written

The visitor knows every scope of Rust but one: the functions and statics of a foreign module declared
inside the closure.  Reconstruction is faithful exactly when no name it captures is declared there.
-/

namespace Systasis
namespace Captures

open Syntax

/-! ## Faithful plans -/

/-- The occurrences of a tree that a test selects. -/
def occurrences (captured : String → Env → Bool) (node : Node) : List (String × Env) :=
  (lexical captured (fun _ => 0) node .empty).2.1

/-- The variables of the enclosing function. -/
def functionValues {D : Type} (bindings : Bindings) (outer : String → D) : Values D :=
  fun name => if bindings.containsKey name then some (outer name) else none

/-- What a plan promises: the occurrences that refer to the enclosing function, and no others, are
fields of the captures; the captures have distinct names and their recorded types; and the rewritten
closure means what the closure did. -/
structure Faithful (bindings : Bindings) (members : UseTree → List String) (closure : Node)
    (plan : Plan) : Prop where
  rewritten : plan.closure =
    (lexical (resolvesOuter bindings members) (position plan.captures) closure .empty).1
  named : ∀ site ∈ occurrences (resolvesOuter bindings members) closure,
    ∃ capture, plan.captures[position plan.captures site.1]? = some capture ∧
      capture.1.name = site.1
  distinct : (plan.captures.map fun capture => capture.1.name).Nodup
  typed : ∀ capture ∈ plan.captures, bindings.types capture.1.name = some (some capture.2)
  evaluates : ∀ (D : Type) (meaning : Meaning D) (outer : String → D),
    let root := meaning.tuple (plan.captures.map fun capture => outer capture.1.name)
    eval meaning members root plan.closure (fun _ => none) (fun _ result => result) =
      eval meaning members root closure (functionValues bindings outer) (fun _ result => result)

/-- No captured occurrence is in a block that declares a foreign item of its name. -/
def Unshadowed (bindings : Bindings) (closure : Node) : Prop :=
  ∀ site ∈ occurrences (unbound bindings) closure, site.1 ∉ site.2.foreign

/-! ## Positions -/

mutual

theorem lexical_index (captured : String → Env → Bool) (index index' : String → Nat) (node : Node)
    (env : Env) :
    (lexical captured index node env).2 = (lexical captured index' node env).2 := by
  rcases node with ⟨⟨form, attrs, semi⟩, children⟩
  have hall := fun env => lexicalAll_index captured index index' children env
  cases form with
  | path path =>
      simp only [lexical]
      split
      · split
        · rfl
        · rfl
      · rfl
  | shorthand ident =>
      simp only [lexical]
      split
      · rfl
      · rfl
  | _ => simp only [lexical, hall]

theorem lexicalAll_index (captured : String → Env → Bool) (index index' : String → Nat)
    (nodes : List Node) (env : Env) :
    (lexicalAll captured index nodes env).2 = (lexicalAll captured index' nodes env).2 := by
  cases nodes with
  | nil => rfl
  | cons node rest =>
      simp only [lexicalAll, lexical_index captured index index' node env,
        lexicalAll_index captured index index' rest]

end

theorem occurrences_eq (captured : String → Env → Bool) (index : String → Nat) (node : Node) :
    (lexical captured index node .empty).2.1 = occurrences captured node := by
  rw [occurrences, lexical_index captured index fun _ => 0]

/-! ## Reconstruction -/

theorem reconstruct_follows {closure : Node} {bindings : Bindings} {plan : Plan}
    (h : reconstruct closure bindings = .ok plan) :
    ∃ v, v.captures = plan.captures ∧ Follows bindings (plan.closure, v)
      (lexical (unbound bindings) (position plan.captures) closure .empty) := by
  simp only [reconstruct] at h
  split at h
  · cases h
  · split at h
    · rename_i hnone
      cases h
      have hinitial : Matches ⟨[[]], [none], [], []⟩ .empty := by
        refine ⟨by simp, ?_, ?_⟩
        · intro name
          simp [Env.empty]
        · simp [Env.empty]
      exact ⟨_, rfl, visit_follows closure hinitial ⟨List.nodup_nil, by simp⟩ hnone
        (List.prefix_refl _)⟩
    · cases h

section Plan

variable {closure : Node} {bindings : Bindings} {members : UseTree → List String} {plan : Plan}

/-- On the occurrences a plan captures, Rust's scoping only adds foreign items. -/
theorem selects_iff (members : UseTree → List String)
    (h : reconstruct closure bindings = .ok plan) :
    Selects (resolvesOuter bindings members) (occurrences (unbound bindings) closure) ↔
      Unshadowed bindings closure := by
  rcases reconstruct_follows h with ⟨v, _, hfollows⟩
  have hsites := hfollows.sites
  rw [occurrences_eq] at hsites
  refine forall₂_congr fun site hsite => ?_
  rcases hsites site hsite with ⟨hunbound, hglobs, _⟩
  rw [unbound] at hunbound
  rw [resolvesOuter, hunbound, hglobs]
  simp

theorem unshadowed_of_faithful (h : reconstruct closure bindings = .ok plan)
    (hfaithful : Faithful bindings members closure plan) : Unshadowed bindings closure := by
  rcases reconstruct_follows h with ⟨v, _, hfollows⟩
  refine (selects_iff members h).1 ?_
  rw [← occurrences_eq _ (position plan.captures)]
  refine selects_of_lexical_eq (fun name env => unbound_of_resolvesOuter) closure .empty ?_
  exact hfollows.node.symm.trans hfaithful.rewritten

/-- With the captures as a tuple, every replaced occurrence has its value. -/
theorem holds_tuple {D : Type} (meaning : Meaning D) (outer : String → D)
    {captures : List (Ident × Node)} {sites : List (String × Env)}
    (hsites : ∀ site ∈ sites, ∃ capture ∈ captures, capture.1.name = site.1) :
    Holds meaning (meaning.tuple (captures.map fun capture => outer capture.1.name)) outer
      (position captures) sites := by
  intro site hsite
  rcases hsites site hsite with ⟨capture, hcapture, hname⟩
  rcases position_spec hcapture with ⟨found, hfound, hfoundName⟩
  refine meaning.tuple_field _ _ _ ?_
  rw [← hname, List.getElem?_map, hfound, Option.map_some, hfoundName]

theorem faithful_of_unshadowed (h : reconstruct closure bindings = .ok plan)
    (hunshadowed : Unshadowed bindings closure) : Faithful bindings members closure plan := by
  rcases reconstruct_follows h with ⟨v, hcaptures, hfollows⟩
  have hselects := (selects_iff members h).2 hunshadowed
  rw [← occurrences_eq _ (position plan.captures)] at hselects
  rw [lexical_congr (fun name env => unbound_of_resolvesOuter) closure .empty hselects] at hfollows
  have hnode : plan.closure =
      (lexical (resolvesOuter bindings members) (position plan.captures) closure .empty).1 :=
    hfollows.node
  have hsites := hfollows.sites
  have hrecorded := hfollows.recorded
  simp only [hcaptures] at hsites hrecorded
  have hcaptured : ∀ site ∈ (lexical (resolvesOuter bindings members) (position plan.captures)
      closure .empty).2.1, ∃ capture ∈ plan.captures, capture.1.name = site.1 := by
    intro site hsite
    exact (hsites site hsite).2.2
  refine ⟨hnode, ?_, hrecorded.nodup, hrecorded.typed, ?_⟩
  · intro site hsite
    rw [← occurrences_eq _ (position plan.captures)] at hsite
    rcases hcaptured site hsite with ⟨capture, hcapture, hname⟩
    rw [← hname]
    exact position_spec hcapture
  · intro D meaning outer
    have hinitial : Agree bindings members outer .empty (functionValues bindings outer)
        (fun _ => none) := by
      refine ⟨?_, ?_⟩
      · intro name hinner
        simp [Env.Inner, Env.empty] at hinner
      · intro name _
        exact ⟨rfl, rfl⟩
    have hsame : ∀ (values values' : Values D) (result : D),
        Agree bindings members outer (lexical (resolvesOuter bindings members)
          (position plan.captures) closure .empty).2.2 values values' → result = result := by
      intro _ _ result _
      rfl
    rw [hnode]
    exact (eval_lexical closure hinitial hsame (holds_tuple meaning outer hcaptured)).symm

end Plan

/-- Reconstruction keeps the meaning of a constructor exactly when no name it captures is declared
by a foreign module in scope. -/
theorem reconstruct_faithful_iff (members : UseTree → List String) {closure : Node}
    {bindings : Bindings} {plan : Plan} (h : reconstruct closure bindings = .ok plan) :
    Faithful bindings members closure plan ↔ Unshadowed bindings closure :=
  ⟨unshadowed_of_faithful h, faithful_of_unshadowed h⟩

/-! ## Two closures -/

/-- `fn run(config: Config, url: Config)` -/
def runBindings : Bindings where
  types := fun name =>
    if name = "config" ∨ name = "url" then some (some (.node ⟨.type "Config", [], false⟩ []))
    else none
  uncertain := false

def nameExpr (name : String) : Node :=
  .node ⟨.path ⟨false, false, [⟨false, name⟩]⟩, [], false⟩ []

/-- `|| { let url = url; Output { config, url } }` -/
def shadowingClosure : Node :=
  .node ⟨.closure [], [], false⟩
    [ .node ⟨.block, [], false⟩
        [ .node ⟨.localStmt (.ident ⟨false, "url"⟩ none), [], false⟩ [nameExpr "url"],
          .node ⟨.expr (.structExpr "Output"), [], false⟩
            [ .node ⟨.shorthand ⟨false, "config"⟩, [], false⟩ [],
              .node ⟨.shorthand ⟨false, "url"⟩, [], false⟩ [] ] ] ]

/-- `|| { extern { fn config(); } config }` -/
def foreignClosure : Node :=
  .node ⟨.closure [], [], false⟩
    [ .node ⟨.block, [], false⟩
        [ .node ⟨.itemStmt (.foreignMod [⟨false, "config"⟩]), [], false⟩ [], nameExpr "config" ] ]

theorem reconstruct_shadowing :
    reconstruct shadowingClosure runBindings = .ok
      { captures := [(⟨false, "url"⟩, .node ⟨.type "Config", [], false⟩ []),
          (⟨false, "config"⟩, .node ⟨.type "Config", [], false⟩ [])]
        closure := .node ⟨.closure [], [], false⟩
          [ .node ⟨.block, [], false⟩
              [ .node ⟨.localStmt (.ident ⟨false, "url"⟩ none), [], false⟩ [captureField [] false 0],
                .node ⟨.expr (.structExpr "Output"), [], false⟩
                  [ .node ⟨.fieldValue (.named ⟨false, "config"⟩), [], false⟩
                      [captureField [] false 1],
                    .node ⟨.shorthand ⟨false, "url"⟩, [], false⟩ [] ] ] ]
        requiresRecord := false
        native := false } := by
  simp [reconstruct, shadowingClosure, nameExpr, visit, visitAll, runBindings, declare, blockItems,
    ValuePath.single, Visitor.captureIndex, Visitor.push, Visitor.pushGlob, Visitor.pop,
    Visitor.popGlob, Visitor.bind, Visitor.bindAll, Visitor.insert, patternNames, projects,
    anyProjects]

theorem reconstruct_faithful_iff_shadowing :
    ∃ plan, reconstruct shadowingClosure runBindings = .ok plan ∧
      Faithful runBindings (fun _ => []) shadowingClosure plan := by
  refine ⟨_, reconstruct_shadowing,
    (reconstruct_faithful_iff (fun _ => []) reconstruct_shadowing).2 ?_⟩
  simp [Unshadowed, occurrences, shadowingClosure, nameExpr, lexical, lexicalAll, blockItems,
    ValuePath.single, unbound, Bindings.containsKey, runBindings, Env.declare, Env.bind, Env.empty,
    patternNames, patternsNames]

theorem reconstruct_captures_foreign :
    ∃ plan, reconstruct foreignClosure runBindings = .ok plan ∧
      ∀ members, ¬Faithful runBindings members foreignClosure plan := by
  have hplan : ∃ plan, reconstruct foreignClosure runBindings = .ok plan := by
    simp [reconstruct, foreignClosure, nameExpr, visit, visitAll, runBindings, declare, blockItems,
      declareItem, itemName, ValuePath.single, Visitor.captureIndex, Visitor.push,
      Visitor.pushGlob, Visitor.pop, Visitor.popGlob, Visitor.bindAll]
  rcases hplan with ⟨plan, hplan⟩
  refine ⟨plan, hplan, ?_⟩
  intro members hfaithful
  have hunshadowed := unshadowed_of_faithful hplan hfaithful
  simp [Unshadowed, occurrences, foreignClosure, nameExpr, lexical, lexicalAll, blockItems,
    ValuePath.single, unbound, Bindings.containsKey, runBindings, Env.declare, Env.bind, Env.empty,
    patternsNames, itemNames, itemName, foreignNames] at hunshadowed

end Captures
end Systasis
