import Systasis.Captures.Lexical

/-!
# Evaluation — replacing captures keeps the meaning of a body

A meaning interprets every construct except variables and scopes: what a block, a pattern or a call
does is up to it.  Evaluation supplies the values of the variables, as Rust's scoping determines
them.  Replacing the occurrences that refer to the enclosing function by fields of a tuple of its
values changes nothing that a meaning could observe.
-/

namespace Systasis
namespace Captures

open Syntax

/-- An interpretation of the constructs of the language. -/
structure Meaning (D : Type) where
  /-- A path that is not a variable in scope. -/
  global : ValuePath → List Node → D
  /-- Items, types and other syntax without occurrences of variables. -/
  quoted : Label → List Node → D
  construct : Form → List D → D
  /-- A block, by which of its statements end in a semicolon. -/
  block : List Bool → List D → D
  /-- Matching what `construct` was given against the pattern of the form, and going on with the
  values it binds. -/
  bind : Form → List D → ((String → D) → D) → D
  /-- A body that depends on the values its patterns bind when it is entered. -/
  scope : Form → ((String → D) → D) → D
  /-- The value of a name the items of a block declare. -/
  declared : List Item → String → D
  tuple : List D → D
  tuple_field : ∀ (values : List D) (k : Nat) (value : D), values[k]? = some value →
    construct (.expr (.field (.unnamed k))) [tuple values] = value

/-- Which statements of a block end in a semicolon. -/
def semicolons (statements : List Node) : List Bool :=
  statements.map fun statement =>
    match statement with
    | .node label _ => label.semi

/-- The values of the variables in scope. -/
abbrev Values (D : Type) : Type := String → Option D

section Eval

variable {D : Type} (meaning : Meaning D) (members : UseTree → List String) (root : D)

def Values.bind (values : Values D) (names : List String) (bound : String → D) : Values D :=
  fun name => if name ∈ names then some (bound name) else values name

/-- The names of the value namespace the items of a block declare. -/
def declaredNames (items : List Item) : List String :=
  items.flatMap itemNames ++ items.flatMap foreignNames ++
    (items.flatMap globTrees).flatMap members

/-- A name as an expression. -/
def variableValue (values : Values D) (path : ValuePath) (ident : Ident) (arguments : List Node) :
    D :=
  match values ident.name with
  | some value => value
  | none => meaning.global path arguments

mutual

/-- The meaning of a node among the given values; what follows it goes on with the values it leaves
in scope. -/
def eval : Node → Values D → (Values D → D → D) → D
  | .node ⟨form, attrs, semi⟩ children, values, next =>
      match form with
      | .path path =>
          match path.single with
          | some ident => next values (variableValue meaning values path ident children)
          | none => next values (meaning.global path children)
      | .closure inputs =>
          next values (meaning.scope form fun bound =>
            evalAll children (Values.bind values (patternsNames inputs).1 bound)
              fun _ results => meaning.construct form results)
      | .forBody pat | .arm pat =>
          next values (meaning.scope form fun bound =>
            evalAll children (Values.bind values (patternNames pat).1 bound)
              fun _ results => meaning.construct form results)
      | .branch =>
          next values (evalAll children values fun _ results => meaning.construct form results)
      | .letCond pat | .localStmt pat =>
          evalAll children values fun values results =>
            meaning.bind form results fun bound =>
              next (Values.bind values (patternNames pat).1 bound) (meaning.construct form results)
      | .block =>
          let items := blockItems children
          next values (evalAll children
            (Values.bind values (declaredNames members items) (meaning.declared items))
            fun _ results => meaning.block (semicolons children) results)
      | .shorthand ident =>
          -- `Struct { name }` is `Struct { name: name }`.
          next values (meaning.construct (.fieldValue (.named ident))
            [variableValue meaning values ⟨false, false, [ident]⟩ ident []])
      | .captureRoot => next values root
      | .itemStmt _ | .type _ | .typePath _ | .typeInvocation _ | .invocation _ | .macroStmt _
      | .verbatim _ =>
          next values (meaning.quoted ⟨form, attrs, semi⟩ children)
      | .forLoop _ | .cond | .whileLoop _ | .expr _ | .fieldValue _ =>
          evalAll children values fun values results =>
            next values (meaning.construct form results)

def evalAll : List Node → Values D → (Values D → List D → D) → D
  | [], values, next => next values []
  | node :: rest, values, next =>
      eval node values fun values result =>
        evalAll rest values fun values results => next values (result :: results)

end

end Eval

/-! ## The two environments -/

section Agree

variable {D : Type} {meaning : Meaning D} {bindings : Bindings} {members : UseTree → List String}

/-- The name is bound inside the closure. -/
def Env.Inner (members : UseTree → List String) (env : Env) (name : String) : Prop :=
  name ∈ env.bound ∨ name ∈ env.foreign ∨ name ∈ env.globs.flatMap members

theorem resolvesOuter_iff {name : String} {env : Env} :
    resolvesOuter bindings members name env = true ↔
      bindings.containsKey name = true ∧ ¬env.Inner members name := by
  simp only [resolvesOuter, Env.Inner, Bool.and_eq_true, Bool.not_eq_true', List.contains_eq_mem,
    decide_eq_false_iff_not, List.all_eq_true, List.mem_flatMap, not_or, not_exists, not_and]
  tauto

/-- The values of the original and of the rewritten body: inside the closure they are the same,
outside it the original has the variables of the function and the rewritten body has none. -/
structure Agree (bindings : Bindings) (members : UseTree → List String) (outer : String → D)
    (env : Env) (values values' : Values D) : Prop where
  inner : ∀ name, env.Inner members name → values name = values' name
  outside : ∀ name, ¬env.Inner members name →
    values name = (if bindings.containsKey name then some (outer name) else none) ∧
      values' name = none

theorem Agree.bind {outer : String → D} {env : Env} {values values' : Values D}
    (h : Agree bindings members outer env values values') (names : List String)
    (bound : String → D) :
    Agree bindings members outer (env.bind names) (Values.bind values names bound)
      (Values.bind values' names bound) := by
  refine ⟨?_, ?_⟩
  · intro name hinner
    by_cases hname : name ∈ names
    · simp [Values.bind, hname]
    · have hold : env.Inner members name := by
        simpa [Env.Inner, Env.bind, hname] using hinner
      simpa [Values.bind, hname] using h.inner name hold
  · intro name hinner
    have hname : name ∉ names := by
      intro hmem
      exact hinner (.inl (List.mem_append_left _ hmem))
    have hold : ¬env.Inner members name := by
      simpa [Env.Inner, Env.bind, hname] using hinner
    simpa [Values.bind, hname] using h.outside name hold

theorem inner_declare {env : Env} {items : List Item} {name : String} :
    (env.declare items).Inner members name ↔
      name ∈ declaredNames members items ∨ env.Inner members name := by
  simp only [Env.Inner, Env.declare, declaredNames, List.mem_append, List.flatMap_append]
  tauto

theorem Agree.declare {outer : String → D} {env : Env} {values values' : Values D}
    (h : Agree bindings members outer env values values') (items : List Item)
    (bound : String → D) :
    Agree bindings members outer (env.declare items)
      (Values.bind values (declaredNames members items) bound)
      (Values.bind values' (declaredNames members items) bound) := by
  refine ⟨?_, ?_⟩
  · intro name hinner
    by_cases hname : name ∈ declaredNames members items
    · simp [Values.bind, hname]
    · have hold := (inner_declare.1 hinner).resolve_left hname
      simpa [Values.bind, hname] using h.inner name hold
  · intro name hinner
    rw [inner_declare, not_or] at hinner
    simpa [Values.bind, hinner.1] using h.outside name hinner.2

/-- A name that does not refer to the enclosing function has the same value in both. -/
theorem Agree.variable {outer : String → D} {env : Env} {values values' : Values D}
    (h : Agree bindings members outer env values values') {name : String}
    (hname : resolvesOuter bindings members name env = false) : values name = values' name := by
  by_cases hinner : env.Inner members name
  · exact h.inner name hinner
  · have hkey : bindings.containsKey name = false := by
      by_contra hkey
      rw [Bool.not_eq_false] at hkey
      rw [resolvesOuter_iff.2 ⟨hkey, hinner⟩] at hname
      cases hname
    have houtside := h.outside name hinner
    rw [houtside.1, houtside.2, hkey]
    rfl

/-- One that does has the value of the function's variable. -/
theorem Agree.outer_value {outer : String → D} {env : Env} {values values' : Values D}
    (h : Agree bindings members outer env values values') {name : String}
    (hname : resolvesOuter bindings members name env = true) : values name = some (outer name) := by
  rcases resolvesOuter_iff.1 hname with ⟨hkey, hinner⟩
  rw [(h.outside name hinner).1, hkey]
  rfl

end Agree

/-! ## Replacement and evaluation -/

theorem blockItems_lexicalAll (captured : String → Env → Bool) (index : String → Nat)
    (nodes : List Node) (env : Env) :
    blockItems (lexicalAll captured index nodes env).1 = blockItems nodes ∧
      semicolons (lexicalAll captured index nodes env).1 = semicolons nodes := by
  induction nodes generalizing env with
  | nil => simp [lexicalAll]
  | cons node rest ih =>
      have hrest := ih (lexical captured index node env).2.2
      -- A replaced occurrence is neither an item nor a statement of another kind.
      have hnode : blockItems [(lexical captured index node env).1] = blockItems [node] ∧
          semicolons [(lexical captured index node env).1] = semicolons [node] := by
        rcases node with ⟨⟨form, attrs, semi⟩, children⟩
        cases form with
        | path path =>
            simp only [lexical]
            split
            · split
              · exact ⟨rfl, rfl⟩
              · exact ⟨rfl, rfl⟩
            · exact ⟨rfl, rfl⟩
        | shorthand ident =>
            simp only [lexical]
            split
            · exact ⟨rfl, rfl⟩
            · exact ⟨rfl, rfl⟩
        | _ => exact ⟨rfl, rfl⟩
      have hcons : ∀ (first : Node) (others : List Node),
          blockItems (first :: others) = blockItems [first] ++ blockItems others := by
        intro first others
        exact List.filterMap_append (l := [first])
      refine ⟨?_, ?_⟩
      · rw [lexicalAll, hcons, hcons node, hnode.1, hrest.1]
      · have hsemi := hnode.2
        simp only [semicolons, List.map_cons, List.map_nil, List.cons.injEq, and_true] at hsemi
        have hothers := hrest.2
        simp only [lexicalAll, semicolons, List.map_cons] at hothers ⊢
        rw [hsemi, hothers]

section Preserved

variable {D : Type} {meaning : Meaning D} {bindings : Bindings} {members : UseTree → List String}
  {root : D} {outer : String → D} {index : String → Nat}

/-- The captures hold the value of every name that was replaced. -/
def Holds (meaning : Meaning D) (root : D) (outer : String → D) (index : String → Nat)
    (sites : List (String × Env)) : Prop :=
  ∀ site ∈ sites, meaning.construct (.expr (.field (.unnamed (index site.1)))) [root] = outer site.1

theorem eval_captureField (attrs : List Attribute) (semi : Bool) (k : Nat) (values : Values D)
    (next : Values D → D → D) :
    eval meaning members root (captureField attrs semi k) values next =
      next values (meaning.construct (.expr (.field (.unnamed k))) [root]) := by
  simp [captureField, eval, evalAll]

mutual

theorem eval_lexical (node : Node) {env : Env} {values values' : Values D}
    (h : Agree bindings members outer env values values') {next next' : Values D → D → D}
    (hnext : ∀ values values' result,
      Agree bindings members outer
        (lexical (resolvesOuter bindings members) index node env).2.2 values values' →
      next values result = next' values' result)
    (hsites : Holds meaning root outer index
      (lexical (resolvesOuter bindings members) index node env).2.1) :
    eval meaning members root node values next =
      eval meaning members root
        (lexical (resolvesOuter bindings members) index node env).1 values' next' := by
  rcases node with ⟨⟨form, attrs, semi⟩, children⟩
  cases form with
  | path path =>
      cases hsingle : path.single with
      | none =>
          simp only [lexical, hsingle] at hnext ⊢
          simp only [eval, hsingle]
          exact hnext values values' _ h
      | some ident =>
          cases hcaptured : resolvesOuter bindings members ident.name env with
          | true =>
              -- The occurrence is replaced, and the capture holds the value of the outer variable.
              simp only [lexical, hsingle, hcaptured, if_true] at hnext hsites ⊢
              have hfield := hsites _ List.mem_cons_self
              rw [eval_captureField, hfield]
              simp only [eval, hsingle, variableValue, h.outer_value hcaptured]
              exact hnext values values' _ h
          | false =>
              simp only [lexical, hsingle, hcaptured, Bool.false_eq_true, if_false] at hnext ⊢
              simp only [eval, hsingle, variableValue, h.variable hcaptured]
              exact hnext values values' _ h
  | shorthand ident =>
      cases hcaptured : resolvesOuter bindings members ident.name env with
      | true =>
          simp only [lexical, hcaptured, if_true] at hnext hsites ⊢
          have hfield := hsites _ List.mem_cons_self
          simp only [eval, evalAll, eval_captureField, hfield, variableValue,
            h.outer_value hcaptured]
          exact hnext values values' _ h
      | false =>
          simp only [lexical, hcaptured, Bool.false_eq_true, if_false] at hnext ⊢
          simp only [eval, variableValue, h.variable hcaptured]
          exact hnext values values' _ h
  | itemStmt item => exact hnext values values' _ h
  | type tokens => exact hnext values values' _ h
  | typePath path => exact hnext values values' _ h
  | typeInvocation mac => exact hnext values values' _ h
  | invocation mac => exact hnext values values' _ h
  | macroStmt mac => exact hnext values values' _ h
  | verbatim tokens => exact hnext values values' _ h
  | closure inputs =>
      simp only [lexical, eval] at hnext hsites ⊢
      -- The body is read with its own bindings, which the rest of the constructor does not see.
      refine (hnext values values' _ h).trans (congrArg (next' values') (congrArg _ ?_))
      funext bound
      exact evalAll_lexical children (h.bind _ bound) (fun _ _ _ _ => rfl) hsites
  | forBody pat =>
      simp only [lexical, eval] at hnext hsites ⊢
      refine (hnext values values' _ h).trans (congrArg (next' values') (congrArg _ ?_))
      funext bound
      exact evalAll_lexical children (h.bind _ bound) (fun _ _ _ _ => rfl) hsites
  | arm pat =>
      simp only [lexical, eval] at hnext hsites ⊢
      refine (hnext values values' _ h).trans (congrArg (next' values') (congrArg _ ?_))
      funext bound
      exact evalAll_lexical children (h.bind _ bound) (fun _ _ _ _ => rfl) hsites
  | branch =>
      simp only [lexical, eval] at hnext hsites ⊢
      refine (hnext values values' _ h).trans (congrArg (next' values') ?_)
      exact evalAll_lexical children h (fun _ _ _ _ => rfl) hsites
  | letCond pat =>
      simp only [lexical, eval] at hnext hsites ⊢
      -- The pattern binds for all that follows.
      refine evalAll_lexical children h ?_ hsites
      intro values values' results hafter
      congr 1
      funext bound
      exact hnext _ _ _ (hafter.bind _ bound)
  | localStmt pat =>
      simp only [lexical, eval] at hnext hsites ⊢
      refine evalAll_lexical children h ?_ hsites
      intro values values' results hafter
      congr 1
      funext bound
      exact hnext _ _ _ (hafter.bind _ bound)
  | block =>
      simp only [lexical, eval] at hnext hsites ⊢
      have hitems := blockItems_lexicalAll (resolvesOuter bindings members) index children
        (env.declare (blockItems children))
      rw [hitems.1, hitems.2]
      refine (hnext values values' _ h).trans (congrArg (next' values') ?_)
      exact evalAll_lexical children (h.declare (blockItems children) _) (fun _ _ _ _ => rfl) hsites
  | captureRoot => exact hnext values values' _ h
  | _ =>
      simp only [lexical, eval] at hnext hsites ⊢
      refine evalAll_lexical children h ?_ hsites
      intro values values' results hafter
      exact hnext values values' _ hafter

theorem evalAll_lexical (nodes : List Node) {env : Env} {values values' : Values D}
    (h : Agree bindings members outer env values values') {next next' : Values D → List D → D}
    (hnext : ∀ values values' results,
      Agree bindings members outer
        (lexicalAll (resolvesOuter bindings members) index nodes env).2.2 values values' →
      next values results = next' values' results)
    (hsites : Holds meaning root outer index
      (lexicalAll (resolvesOuter bindings members) index nodes env).2.1) :
    evalAll meaning members root nodes values next =
      evalAll meaning members root
        (lexicalAll (resolvesOuter bindings members) index nodes env).1 values' next' := by
  cases nodes with
  | nil => exact hnext values values' [] h
  | cons node rest =>
      simp only [lexicalAll, evalAll] at hnext hsites ⊢
      refine eval_lexical node h ?_ ?_
      · intro values values' result hafter
        refine evalAll_lexical rest hafter ?_ ?_
        · intro values values' results hrest
          exact hnext values values' (result :: results) hrest
        · intro site hsite
          exact hsites site (List.mem_append_right _ hsite)
      · intro site hsite
        exact hsites site (List.mem_append_left _ hsite)

end

end Preserved

end Captures
end Systasis
