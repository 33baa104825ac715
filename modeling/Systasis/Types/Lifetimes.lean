import Systasis.Types.Tree

/-!
# Lifetimes — the output type of a constructor under its two rewrites

`CallLifetime` of `generate.rs` writes the output type of the constructor helper, `OutputLifetime`
of `scopegen.rs` the one of scope signatures and metadata.
-/

namespace Systasis
namespace Types

open Syntax (Ident)

/-! ## The visitors -/

/-- Visiting the lifetimes a node writes itself. -/
def Form.mapLifetime (f : Ident → Ident) : Form → Form
  | .lifetime name => .lifetime (f name)
  | .lifetimeParam name => .lifetimeParam (f name)
  | .reference written mutable => .reference (written.map f) mutable
  | form => form

/-- `CallLifetime::visit_lifetime_mut` -/
def callLifetime (replacement name : Ident) : Ident :=
  if name.is "_" then replacement else name

mutual

/-- `CallLifetime(replacement).visit_type_mut` -/
def call (replacement : Ident) : Node → Node
  | .node form cs => .node (form.mapLifetime (callLifetime replacement)) (callAll replacement cs)

def callAll (replacement : Ident) : List Node → List Node
  | [] => []
  | c :: cs => call replacement c :: callAll replacement cs

end

attribute [grind =] call callAll

structure OutputLifetime where
  replacement : Ident
  methodLifetimes : List Ident

namespace OutputLifetime

/-- `visit_lifetime_mut` -/
def lifetime (v : OutputLifetime) (name : Ident) : Ident :=
  if name.is "_" || v.methodLifetimes.contains name then v.replacement else name

/-- The method lifetimes that a trait bound does not bind again. -/
def bind (v : OutputLifetime) (names : List Ident) : OutputLifetime :=
  { v with methodLifetimes := v.methodLifetimes.filter fun name => !names.contains name }

mutual

/-- `visit_type_mut` -/
def visit (v : OutputLifetime) : Node → Node
  | .node form cs =>
      match form with
      -- A function signature keeps its own elision.
      | .fnPtr _ | .parenthesized => .node form cs
      -- `visit_trait_bound_mut` visits the path of the bound alone.
      | .traitBound _ _ => .node form (visitAll (v.bind (boundBy cs)) cs)
      | .binder => .node form cs
      -- `get_or_insert_with`, and then the default traversal.
      | .reference written mutable =>
          .node (.reference (some (v.lifetime (written.getD v.replacement))) mutable)
            (visitAll v cs)
      | _ => .node (form.mapLifetime v.lifetime) (visitAll v cs)

def visitAll (v : OutputLifetime) : List Node → List Node
  | [] => []
  | c :: cs => visit v c :: visitAll v cs

end

attribute [grind =] visit visitAll

end OutputLifetime

/-- What a constructor produces: the annotated output of its closure, or the registered type. -/
def constructorOutput (annotated : Option Node) (registered : Node) : Node :=
  annotated.getD registered

/-- `helper_output` -/
def helperOutput (lifetime : Ident) (annotated : Option Node) (registered : Node) : Node :=
  call lifetime (constructorOutput annotated registered)

/-- `output_type`, of a method that returns what the constructor produces. -/
def outputType (lifetime : Ident) (methodLifetimes : List Ident) (output : Node) : Node :=
  OutputLifetime.visit ⟨lifetime, methodLifetimes⟩ output

/-! ## Elision -/

mutual

/-- The second type is the first with every elided lifetime of the signature made explicit. -/
def Elides (r : Ident) : Node → Node → Prop
  | .node form cs, .node form' cs' =>
      match form with
      -- What is elided in a function signature is bound there, and a binder introduces names.
      | .fnPtr _ | .parenthesized | .binder => form' = form ∧ cs' = cs
      -- What is elided in the body of a const expression is inferred there.
      | .expr _ | .path .value _ => True
      | .reference none mutable => form' = .reference (some r) mutable ∧ ElidesAll r cs cs'
      | _ =>
          form' = form.mapLifetime (fun name => if name.is "_" then r else name) ∧
            ElidesAll r cs cs'

def ElidesAll (r : Ident) : List Node → List Node → Prop
  | [], [] => True
  | c :: cs, c' :: cs' => Elides r c c' ∧ ElidesAll r cs cs'
  | _, _ => False

end

/-- The lifetimes a node writes itself. -/
def Form.lifetimes : Form → List Ident
  | .lifetime name | .lifetimeParam name => [name]
  | .reference written _ => written.toList
  | _ => []

mutual

/-- `'_` is written somewhere in the tree. -/
def placeholder : Node → Bool
  | .node form cs => form.lifetimes.any (fun name => name.is "_") || placeholderAny cs

def placeholderAny : List Node → Bool
  | [] => false
  | c :: cs => placeholder c || placeholderAny cs

end

attribute [grind =] placeholder placeholderAny

mutual

/-- References outside function signatures write their lifetimes, and no `'_` is written inside
one or in a binder.  Where `'_` is itself the replacement it may stand anywhere. -/
def writes (r : Ident) : Node → Bool
  | .node form cs =>
      match form with
      | .fnPtr _ | .parenthesized | .binder => r.is "_" || !placeholder (.node form cs)
      | .reference written _ => written.isSome && writesAll r cs
      | _ => writesAll r cs

def writesAll (r : Ident) : List Node → Bool
  | [] => true
  | c :: cs => writes r c && writesAll r cs

end

attribute [grind =] writes writesAll

/-! ## Their equations -/

@[simp]
theorem callAll_eq (r : Ident) (cs : List Node) : callAll r cs = cs.map (call r) := by
  induction cs with
  | nil => rfl
  | cons c cs ih => rw [callAll, ih, List.map_cons]

@[simp]
theorem visitAll_eq (v : OutputLifetime) (cs : List Node) :
    v.visitAll cs = cs.map v.visit := by
  induction cs with
  | nil => rfl
  | cons c cs ih => rw [OutputLifetime.visitAll, ih, List.map_cons]

@[simp]
theorem placeholderAny_eq (cs : List Node) : placeholderAny cs = cs.any placeholder := by
  induction cs with
  | nil => rfl
  | cons c cs ih => rw [placeholderAny, ih, List.any_cons]

@[simp]
theorem writesAll_eq (r : Ident) (cs : List Node) : writesAll r cs = cs.all (writes r) := by
  induction cs with
  | nil => rfl
  | cons c cs ih => rw [writesAll, ih, List.all_cons]

theorem elidesAll_map {r : Ident} {cs : List Node} {f : Node → Node}
    (h : ∀ c ∈ cs, Elides r c (f c)) : ElidesAll r cs (cs.map f) := by
  induction cs with
  | nil => trivial
  | cons c cs ih =>
      exact ⟨h c List.mem_cons_self, ih fun c' hc' => h c' (List.mem_cons_of_mem _ hc')⟩

theorem Form.mapLifetime_eq_self_iff {f : Ident → Ident} {form : Form} :
    form.mapLifetime f = form ↔ ∀ name ∈ form.lifetimes, f name = name := by
  cases form with
  | lifetime name => simp [Form.mapLifetime, Form.lifetimes]
  | lifetimeParam name => simp [Form.mapLifetime, Form.lifetimes]
  | reference written mutable => cases written <;> simp [Form.mapLifetime, Form.lifetimes]
  | _ => simp [Form.mapLifetime, Form.lifetimes]

theorem is_iff {ident : Ident} {text : String} : ident.is text = true ↔ ident = ⟨false, text⟩ := by
  rcases ident with ⟨raw, name⟩
  simp [Ident.is]

theorem callLifetime_eq_self_iff {r name : Ident} :
    callLifetime r name = name ↔ r.is "_" = true ∨ name.is "_" = false := by
  by_cases hname : name.is "_" = true
  · rw [callLifetime, if_pos hname, is_iff.1 hname, ← is_iff]
    simp [Ident.is]
  · simp [callLifetime, hname]

/-- The visitor of a method that names no lifetimes. -/
theorem lifetime_nil (r name : Ident) :
    OutputLifetime.lifetime ⟨r, []⟩ name = callLifetime r name := by
  simp [OutputLifetime.lifetime, callLifetime]

@[simp]
theorem bind_nil (r : Ident) (names : List Ident) :
    OutputLifetime.bind ⟨r, []⟩ names = ⟨r, []⟩ := rfl

/-! ## Where the rewrites agree -/

/-- The helper's rewrite leaves a type alone exactly when it has nothing to write. -/
theorem call_eq_self_iff (r : Ident) (t : Node) :
    call r t = t ↔ r.is "_" = true ∨ placeholder t = false := by
  induction t using Rose.induct with
  | node form cs ih =>
      have hform : form.mapLifetime (callLifetime r) = form ↔
          r.is "_" = true ∨ form.lifetimes.any (fun name => name.is "_") = false := by
        rw [Form.mapLifetime_eq_self_iff]
        simp only [callLifetime_eq_self_iff, List.any_eq_false, Bool.not_eq_true]
        constructor
        · intro h
          by_cases hr : r.is "_" = true
          · exact .inl hr
          · exact .inr fun name hname => (h name hname).resolve_left hr
        · rintro (hr | h) name hname
          · exact .inl hr
          · exact .inr (h name hname)
      have hchildren : cs.map (call r) = cs ↔
          r.is "_" = true ∨ cs.any placeholder = false := by
        have hmap : cs.map (call r) = cs ↔ ∀ c ∈ cs, call r c = c := by
          rw [← List.map_inj_left, List.map_id']
        rw [hmap]
        simp only [List.any_eq_false, Bool.not_eq_true]
        constructor
        · intro h
          by_cases hr : r.is "_" = true
          · exact .inl hr
          · exact .inr fun c hc => ((ih c hc).1 (h c hc)).resolve_left hr
        · rintro (hr | h) c hc
          · exact (ih c hc).2 (.inl hr)
          · exact (ih c hc).2 (.inr (h c hc))
      rw [call, placeholder, callAll_eq, placeholderAny_eq, Rose.node.injEq, hform, hchildren,
        Bool.or_eq_false_iff]
      tauto

/-- The two rewrites agree on a type exactly when its references write their lifetimes and its
function signatures none to be elided. -/
theorem call_eq_visit_iff (r : Ident) (t : Node) :
    call r t = OutputLifetime.visit ⟨r, []⟩ t ↔ writes r t = true := by
  induction t using Rose.induct with
  | node form cs ih =>
      have hchildren : cs.map (call r) = cs.map (OutputLifetime.visit ⟨r, []⟩) ↔
          cs.all (writes r) = true := by
        rw [List.map_inj_left, List.all_eq_true]
        exact forall₂_congr ih
      have hself : call r (.node form cs) = .node form cs ↔
          (r.is "_" || !placeholder (.node form cs)) = true := by
        rw [call_eq_self_iff, Bool.or_eq_true, Bool.not_eq_true']
      cases form with
      | fnPtr qualifiers => exact hself
      | parenthesized => exact hself
      | binder => exact hself
      | reference written mutable =>
          cases written with
          | none => simp [call, OutputLifetime.visit, writes, Form.mapLifetime]
          | some name =>
              simpa [call, OutputLifetime.visit, writes, Form.mapLifetime, lifetime_nil]
                using hchildren
      | _ =>
          simpa [call, OutputLifetime.visit, writes, Form.mapLifetime, lifetime_nil]
            using hchildren

/-- `OutputLifetime` makes every elision explicit. -/
theorem visit_elides (r : Ident) (t : Node) : Elides r t (OutputLifetime.visit ⟨r, []⟩ t) := by
  induction t using Rose.induct with
  | node form cs ih =>
      have hchildren : ElidesAll r cs (cs.map (OutputLifetime.visit ⟨r, []⟩)) := elidesAll_map ih
      cases form with
      | fnPtr qualifiers => exact ⟨rfl, rfl⟩
      | parenthesized => exact ⟨rfl, rfl⟩
      | binder => exact ⟨rfl, rfl⟩
      | expr pieces => trivial
      | path role leadingColon =>
          cases role with
          | value => trivial
          | type => exact ⟨rfl, by simpa using hchildren⟩
          | invocation => exact ⟨rfl, by simpa using hchildren⟩
      | reference written mutable =>
          cases written with
          -- The inserted lifetime is visited in turn, and stays the replacement.
          | none => simpa [OutputLifetime.visit, Elides, lifetime_nil, callLifetime] using hchildren
          | some name =>
              simpa [OutputLifetime.visit, Elides, Form.mapLifetime, lifetime_nil, callLifetime]
                using hchildren
      | _ =>
          simpa [OutputLifetime.visit, Form.mapLifetime, Elides, lifetime_nil, callLifetime]
            using hchildren

/-! ## The output of a constructor -/

/-- The two rewrites write one type, in which every elided lifetime is explicit. -/
def Agree (r : Ident) (annotated : Option Node) (registered : Node) : Prop :=
  helperOutput r annotated registered =
      outputType r [] (constructorOutput annotated registered) ∧
    Elides r (constructorOutput annotated registered) (helperOutput r annotated registered)

/-- The constructor helper and the scope signatures have the same output type exactly when the
constructor's references write their lifetimes and its function signatures leave none to be
elided by name. -/
theorem constructor_lifetimes_agree_iff (r : Ident) (annotated : Option Node)
    (registered : Node) :
    Agree r annotated registered ↔ writes r (constructorOutput annotated registered) = true := by
  have hagree := call_eq_visit_iff r (constructorOutput annotated registered)
  constructor
  · rintro ⟨heq, _⟩
    exact hagree.1 heq
  · intro hwrites
    have heq := hagree.2 hwrites
    refine ⟨heq, ?_⟩
    rw [helperOutput, heq]
    exact visit_elides r _

/-- A registration of `&str`: the helper's output keeps its reference elided. -/
theorem constructor_lifetimes_differ :
    ¬Agree ⟨false, "__systasis_call"⟩ none
      (.node (.reference none false) [simplePath .type "str" []]) := by
  rintro ⟨heq, _⟩
  have hform := congrArg Rose.label heq
  cases hform

end Types
end Systasis
