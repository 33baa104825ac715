import Systasis.Captures.Visitor

/-!
# Lexical — what a name of the closure refers to

Rust's scoping of variables inside a constructor, as an environment handed down the tree: which names
are bound where, and which occurrences are left to the enclosing function.  `lexical` replaces the
occurrences a given test selects and reports them; the visitor and Rust differ in the test only.
-/

namespace Systasis
namespace Captures

open Syntax

/-! ## Scopes -/

/-- The names bound at a point of the closure: by patterns and by items the visitor knows, by the
functions and statics of foreign modules, and by imports that end in a glob. -/
structure Env where
  bound : List String
  foreign : List String
  globs : List UseTree

/-- The scope outside the closure. -/
def Env.empty : Env := ⟨[], [], []⟩

def Env.bind (env : Env) (names : List String) : Env :=
  { env with bound := names ++ env.bound }

/-- The names of the value namespace an item declares, foreign modules and globs apart. -/
def itemNames (item : Item) : List String :=
  (itemName item).toList.map Ident.name ++
    match item with
    | .useItem tree => if containsGlob tree then [] else (importNames tree).1
    | _ => []

def foreignNames : Item → List String
  | .foreignMod items => items.map Ident.name
  | _ => []

def globTrees : Item → List UseTree
  | .useItem tree => if containsGlob tree then [tree] else []
  | _ => []

/-- The items of a block are in scope throughout the block. -/
def Env.declare (env : Env) (items : List Item) : Env where
  bound := items.flatMap itemNames ++ env.bound
  foreign := items.flatMap foreignNames ++ env.foreign
  globs := items.flatMap globTrees ++ env.globs

/-- Rust resolves the name to the binding of the enclosing function.  `members` lists what an import
with a glob brings into scope. -/
def resolvesOuter (bindings : Bindings) (members : UseTree → List String) (name : String)
    (env : Env) : Bool :=
  bindings.containsKey name && !env.bound.contains name && !env.foreign.contains name &&
    env.globs.all fun tree => !(members tree).contains name

/-- The test `capture_index` makes. -/
def unbound (bindings : Bindings) (name : String) (env : Env) : Bool :=
  bindings.containsKey name && !env.bound.contains name

theorem unbound_of_resolvesOuter {bindings : Bindings} {members : UseTree → List String}
    {name : String} {env : Env} (h : resolvesOuter bindings members name env) :
    unbound bindings name env := by
  simp only [resolvesOuter, Bool.and_eq_true] at h
  simpa [unbound] using h.1.1

/-! ## Replacing occurrences -/

section Lexical

variable (captured : String → Env → Bool) (index : String → Nat)

mutual

/-- The tree with every captured occurrence replaced, the occurrences that were, and the scope in
which what follows is read. -/
def lexical : Node → Env → Node × List (String × Env) × Env
  | .node ⟨form, attrs, semi⟩ children, env =>
      match form with
      | .path path =>
          match path.single with
          | some ident =>
              if captured ident.name env then
                (captureField attrs semi (index ident.name), [(ident.name, env)], env)
              else (.node ⟨form, attrs, semi⟩ children, [], env)
          | none => (.node ⟨form, attrs, semi⟩ children, [], env)
      | .closure inputs =>
          -- The parameters are bound in the body alone.
          let (children, sites, _) := lexicalAll children (env.bind (patternsNames inputs).1)
          (.node ⟨form, attrs, semi⟩ children, sites, env)
      | .forBody pat | .arm pat =>
          let (children, sites, _) := lexicalAll children (env.bind (patternNames pat).1)
          (.node ⟨form, attrs, semi⟩ children, sites, env)
      | .branch =>
          -- What the condition binds is bound in the block it guards, not in the `else` branch.
          let (children, sites, _) := lexicalAll children env
          (.node ⟨form, attrs, semi⟩ children, sites, env)
      | .letCond pat | .localStmt pat =>
          -- The initializer and the diverging block are read before the pattern binds.
          let (children, sites, env) := lexicalAll children env
          (.node ⟨form, attrs, semi⟩ children, sites, env.bind (patternNames pat).1)
      | .block =>
          let (children, sites, _) := lexicalAll children (env.declare (blockItems children))
          (.node ⟨form, attrs, semi⟩ children, sites, env)
      | .shorthand ident =>
          if captured ident.name env then
            (.node ⟨.fieldValue (.named ident), attrs, semi⟩
              [captureField [] false (index ident.name)], [(ident.name, env)], env)
          else (.node ⟨form, attrs, semi⟩ children, [], env)
      | .itemStmt _ | .type _ | .typePath _ | .typeInvocation _ | .invocation _ | .macroStmt _
      | .verbatim _ | .captureRoot =>
          (.node ⟨form, attrs, semi⟩ children, [], env)
      | .forLoop _ | .cond | .whileLoop _ | .expr _ | .fieldValue _ =>
          let (children, sites, env) := lexicalAll children env
          (.node ⟨form, attrs, semi⟩ children, sites, env)

def lexicalAll : List Node → Env → List Node × List (String × Env) × Env
  | [], env => ([], [], env)
  | node :: rest, env =>
      let (node, sites, env) := lexical node env
      let (rest, others, env) := lexicalAll rest env
      (node :: rest, sites ++ others, env)

end

end Lexical

/-! ## Two tests that agree -/

section Agreement

variable {captured captured' : String → Env → Bool} {index : String → Nat}

/-- Every occurrence the first test selects is one the second selects. -/
def Selects (captured' : String → Env → Bool) (sites : List (String × Env)) : Prop :=
  ∀ site ∈ sites, captured' site.1 site.2

theorem Selects.append {sites others : List (String × Env)} :
    Selects captured' (sites ++ others) ↔ Selects captured' sites ∧ Selects captured' others := by
  simp only [Selects, List.mem_append, or_imp, forall_and]

mutual

/-- Where the second test selects every occurrence the first does, and no others, the results are
the same. -/
theorem lexical_congr (hle : ∀ name env, captured' name env → captured name env) (node : Node)
    (env : Env) (hsites : Selects captured' (lexical captured index node env).2.1) :
    lexical captured index node env = lexical captured' index node env := by
  rcases node with ⟨⟨form, attrs, semi⟩, children⟩
  have hall := fun env => lexicalAll_congr hle children env
  have hoccurrence : ∀ {name : String} {env : Env}, captured name env = false →
      captured' name env = false := by
    intro name env hnone
    by_contra hsome
    rw [Bool.not_eq_false] at hsome
    rw [hle name env hsome] at hnone
    cases hnone
  cases form with
  | path path =>
      cases hsingle : path.single with
      | none => simp [lexical, hsingle]
      | some ident =>
          cases hcaptured : captured ident.name env with
          | true =>
              simp only [lexical, hsingle, hcaptured, if_true] at hsites ⊢
              have hsome : captured' ident.name env := hsites _ List.mem_cons_self
              simp [hsome]
          | false => simp [lexical, hsingle, hcaptured, hoccurrence hcaptured]
  | shorthand ident =>
      cases hcaptured : captured ident.name env with
      | true =>
          simp only [lexical, hcaptured, if_true] at hsites ⊢
          have hsome : captured' ident.name env := hsites _ List.mem_cons_self
          simp [hsome]
      | false =>
          simp [lexical, hcaptured, hoccurrence hcaptured]
  | itemStmt item => simp [lexical]
  | type tokens => simp [lexical]
  | typePath path => simp [lexical]
  | typeInvocation mac => simp [lexical]
  | invocation mac => simp [lexical]
  | macroStmt mac => simp [lexical]
  | verbatim tokens => simp [lexical]
  | captureRoot => simp [lexical]
  | _ =>
      simp only [lexical] at hsites ⊢
      rw [hall _ hsites]

theorem lexicalAll_congr (hle : ∀ name env, captured' name env → captured name env)
    (nodes : List Node) (env : Env)
    (hsites : Selects captured' (lexicalAll captured index nodes env).2.1) :
    lexicalAll captured index nodes env = lexicalAll captured' index nodes env := by
  cases nodes with
  | nil => simp [lexicalAll]
  | cons node rest =>
      simp only [lexicalAll, Selects.append] at hsites ⊢
      have hnode := lexical_congr hle node env hsites.1
      rw [hnode] at hsites ⊢
      rw [lexicalAll_congr hle rest _ hsites.2]

end

mutual

/-- Where the resulting trees are the same, the second test selects what the first does. -/
theorem selects_of_lexical_eq (hle : ∀ name env, captured' name env → captured name env)
    (node : Node) (env : Env)
    (heq : (lexical captured index node env).1 = (lexical captured' index node env).1) :
    Selects captured' (lexical captured index node env).2.1 := by
  rcases node with ⟨⟨form, attrs, semi⟩, children⟩
  have hall := fun env => selects_of_lexicalAll_eq hle children env
  have hnone : Selects captured' [] := by
    intro site hsite
    cases hsite
  have hone : ∀ {name : String} {env : Env}, captured' name env = true →
      Selects captured' [(name, env)] := by
    intro name env hcaptured site hsite
    rcases List.mem_singleton.1 hsite with rfl
    exact hcaptured
  cases form with
  | path path =>
      cases hsingle : path.single with
      | none =>
          simp only [lexical, hsingle]
          exact hnone
      | some ident =>
          cases hcaptured : captured ident.name env with
          | true =>
              cases hcaptured' : captured' ident.name env with
              | true =>
                  simp only [lexical, hsingle, hcaptured, if_true]
                  exact hone hcaptured'
              | false =>
                  -- Only the first tree has a field of the captures here.
                  simp [lexical, hsingle, hcaptured, hcaptured', captureField] at heq
          | false =>
              simp only [lexical, hsingle, hcaptured, Bool.false_eq_true, if_false]
              exact hnone
  | shorthand ident =>
      cases hcaptured : captured ident.name env with
      | true =>
          cases hcaptured' : captured' ident.name env with
          | true =>
              simp only [lexical, hcaptured, if_true]
              exact hone hcaptured'
          | false => simp [lexical, hcaptured, hcaptured'] at heq
      | false =>
          simp only [lexical, hcaptured, Bool.false_eq_true, if_false]
          exact hnone
  | itemStmt item => simpa only [lexical] using hnone
  | type tokens => simpa only [lexical] using hnone
  | typePath path => simpa only [lexical] using hnone
  | typeInvocation mac => simpa only [lexical] using hnone
  | invocation mac => simpa only [lexical] using hnone
  | macroStmt mac => simpa only [lexical] using hnone
  | verbatim tokens => simpa only [lexical] using hnone
  | captureRoot => simpa only [lexical] using hnone
  | _ =>
      simp only [lexical, Rose.node.injEq, true_and] at heq ⊢
      exact hall _ heq

theorem selects_of_lexicalAll_eq (hle : ∀ name env, captured' name env → captured name env)
    (nodes : List Node) (env : Env)
    (heq : (lexicalAll captured index nodes env).1 = (lexicalAll captured' index nodes env).1) :
    Selects captured' (lexicalAll captured index nodes env).2.1 := by
  cases nodes with
  | nil => simp [lexicalAll, Selects]
  | cons node rest =>
      simp only [lexicalAll, List.cons.injEq] at heq
      have hnode := selects_of_lexical_eq hle node env heq.1
      -- The first trees are the same, so the scopes after them are.
      rw [lexical_congr hle node env hnode] at heq
      simp only [lexicalAll, Selects.append]
      refine ⟨hnode, ?_⟩
      rw [lexical_congr hle node env hnode]
      exact selects_of_lexicalAll_eq hle rest _ heq.2

end

end Agreement

end Captures
end Systasis
