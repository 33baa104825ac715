import Mathlib.Logic.Basic

/-!
# Function — a container declared inside a function

Model of `build_expression`, `registration_expression` and the loop of `expand_inner` over the
statements of the function, with the statements that replace the one of the container.

The declaration stands at the start of a chain of postfix operations.  The macro becomes statements
that make a builder, and its place in the chain becomes the name of the builder.  Operations that
the searches do not enter, and what declarations do themselves, are parameters.
-/

namespace Systasis
namespace Build
namespace Function

/-! ## The function -/

/-- Expressions, with declarations `M` and the expressions `O` that no search enters. -/
inductive Expr (M O T : Type) where
  /-- `systasis_container! { .. }` -/
  | registry (declaration : M)
  /-- `__systasis_builder`; its span keeps it apart from every written name. -/
  | builder
  | question (operand : Expr M O T)
  | paren (inner : Expr M O T)
  | group (inner : Expr M O T)
  | methodCall (receiver : Expr M O T) (method : String) (turbofish : Option (List T))
      (args : List O)
  | other (expr : O)

inductive Stmt (M O T P : Type) where
  /-- The block of an `else` is among the other expressions. -/
  | localStmt (pat : P) (init : Option (Expr M O T × Option O))
  | other (stmt : O)

/-- The statements of the generated function. -/
inductive Generated (M O T P : Type) where
  | source (stmt : Stmt M O T P)
  /-- The checks, the owners of the captures, and the tuple of the children. -/
  | setup (declaration : M)
  /-- `let __systasis_builder = ::systasis::__private::Builder::new(..)` -/
  | builder (declaration : M)

structure BuildCall (O T : Type) where
  turbofish : Option (List T)
  args : List O

variable {M O T P E : Type}

/-- `build_expression` -/
@[grind =]
def buildExpression : Expr M O T → Option (BuildCall O T)
  | .methodCall (.registry _) method turbofish args =>
      -- Below any other method of the declaration there is nothing left to find.
      if method = "build" then some ⟨turbofish, args⟩ else none
  | .methodCall receiver _ _ _ => buildExpression receiver
  | .question operand => buildExpression operand
  | .paren inner => buildExpression inner
  | .group inner => buildExpression inner
  | _ => none

/-- `registration_expression`: the declaration, and the expression with the builder in its place. -/
@[grind =]
def registrationExpression : Expr M O T → Option (M × Expr M O T)
  | .registry declaration => some (declaration, .builder)
  | .question operand =>
      (registrationExpression operand).map fun (found, published) => (found, .question published)
  | .paren inner =>
      (registrationExpression inner).map fun (found, published) => (found, .paren published)
  | .group inner =>
      (registrationExpression inner).map fun (found, published) => (found, .group published)
  | .methodCall receiver method turbofish args =>
      (registrationExpression receiver).map fun (found, published) =>
        (found, .methodCall published method turbofish args)
  | .builder => none
  | .other _ => none

inductive Failure (E : Type) where
  /-- "only one container definition per function is currently supported" -/
  | second
  /-- "build accepts no arguments and at most one error type" -/
  | buildArguments
  | declaration (error : E)

/-- Whether `.build(..)` is called as a builder allows. -/
def BuildCall.valid (call : BuildCall O T) : Bool :=
  call.args.isEmpty && call.turbofish.all fun types => types.length == 1

/-- The error type of the initialization; `_` when it is not written. -/
def BuildCall.errorType (call : BuildCall O T) : Option T :=
  call.turbofish.bind List.head?

/-- The loop over the statements; `emitted` says that a container has been found.  `expand` is the
expansion of a declaration with the error type of its build. -/
@[grind =]
def expandStatements (expand : M → Option T → Except E Unit) : Bool → List (Stmt M O T P) →
    Except (Failure E) (List (Generated M O T P))
  | _, [] => .ok []
  | emitted, .localStmt pat (some (expr, otherwise)) :: rest =>
      match registrationExpression expr with
      | none => do
          let rest ← expandStatements expand emitted rest
          .ok (.source (.localStmt pat (some (expr, otherwise))) :: rest)
      | some (declaration, published) =>
          if emitted then .error .second
          else if (buildExpression expr).any (!·.valid) then .error .buildArguments
          else
            match expand declaration ((buildExpression expr).bind BuildCall.errorType) with
            | .error error => .error (.declaration error)
            | .ok () => do
                let rest ← expandStatements expand true rest
                .ok (.setup declaration :: .builder declaration ::
                  .source (.localStmt pat (some (published, otherwise))) :: rest)
  | emitted, stmt :: rest => do
      let rest ← expandStatements expand emitted rest
      .ok (.source stmt :: rest)

/-! ## Running -/

/-- What the constructs mean, in a monad of effects and early exits.  `Γ` are the variables in
scope; no written expression reads the generated ones. -/
structure Meaning (M O T P Γ V W : Type) (m : Type → Type) where
  /-- What the captures and the children of a declaration evaluate to. -/
  setup : M → Γ → m W
  /-- `Builder::new` runs nothing. -/
  builder : M → W → V
  question : V → m V
  call : String → Option (List T) → V → List V → m V
  expr : O → Γ → m V
  stmt : O → Γ → m Γ
  /-- Binds the variables of a pattern, with the block of an `else` where it does not match. -/
  bind : P → V → Option O → Γ → m Γ
  uninitialized : P → Γ → m Γ
  unbound : m V

section Run

variable {Γ V W : Type} {m : Type → Type} [Monad m] (meaning : Meaning M O T P Γ V W m)

/-- Evaluates an expression with the builder there may be: a receiver comes before the arguments.
A declaration is written for its builder. -/
@[grind =]
def eval (γ : Γ) (builder : Option V) : Expr M O T → m V
  | .registry declaration => do
      let parts ← meaning.setup declaration γ
      pure (meaning.builder declaration parts)
  | .builder =>
      match builder with
      | some value => pure value
      | none => meaning.unbound
  | .question operand => do
      let value ← eval γ builder operand
      meaning.question value
  | .paren inner => eval γ builder inner
  | .group inner => eval γ builder inner
  | .methodCall receiver method turbofish args => do
      let value ← eval γ builder receiver
      let values ← args.mapM (meaning.expr · γ)
      meaning.call method turbofish value values
  | .other expr => meaning.expr expr γ

@[grind =]
def runStmt (γ : Γ) (builder : Option V) : Stmt M O T P → m Γ
  | .localStmt pat none => meaning.uninitialized pat γ
  | .localStmt pat (some (expr, otherwise)) => do
      let value ← eval meaning γ builder expr
      meaning.bind pat value otherwise γ
  | .other stmt => meaning.stmt stmt γ

/-- The function as it is written. -/
@[grind =]
def runWritten : List (Stmt M O T P) → Γ → m Γ
  | [], γ => pure γ
  | stmt :: rest, γ => do
      let γ ← runStmt meaning γ none stmt
      runWritten rest γ

/-- The generated function; the parts and the builder are the generated variables. -/
@[grind =]
def runGenerated : List (Generated M O T P) → Option W → Option V → Γ → m Γ
  | [], _, _, γ => pure γ
  | .source stmt :: rest, parts, builder, γ => do
      let γ ← runStmt meaning γ builder stmt
      runGenerated rest parts builder γ
  | .setup declaration :: rest, _, builder, γ => do
      let parts ← meaning.setup declaration γ
      runGenerated rest (some parts) builder γ
  | .builder declaration :: rest, parts, _, γ =>
      runGenerated rest parts (parts.map (meaning.builder declaration)) γ

end Run

/-! ## The declarations of a function -/

/-- Without the generated name. -/
def Expr.written : Expr M O T → Bool
  | .builder => false
  | .question operand => operand.written
  | .paren inner => inner.written
  | .group inner => inner.written
  | .methodCall receiver _ _ _ => receiver.written
  | .registry _ => true
  | .other _ => true

def Stmt.written : Stmt M O T P → Bool
  | .localStmt _ (some (expr, _)) => expr.written
  | _ => true

/-- The declaration a statement starts with, and its immediate build. -/
def Stmt.declared : Stmt M O T P → Option (M × Option (BuildCall O T))
  | .localStmt _ (some (expr, _)) =>
      (registrationExpression expr).map fun (declaration, _) => (declaration, buildExpression expr)
  | _ => none

/-- A declaration that is accepted where it stands. -/
def Accepts (expand : M → Option T → Except E Unit) (declared : M × Option (BuildCall O T)) : Prop :=
  (∀ call, declared.2 = some call → call.valid = true) ∧
    expand declared.1 (declared.2.bind BuildCall.errorType) = .ok ()

section Expansion

variable {expand : M → Option T → Except E Unit}

theorem expandStatements_source {emitted : Bool} {stmt : Stmt M O T P} {rest : List (Stmt M O T P)}
    (h : stmt.declared = none) :
    expandStatements expand emitted (stmt :: rest) =
      (expandStatements expand emitted rest).map (.source stmt :: ·) := by
  have hmap : ∀ x : Except (Failure E) (List (Generated M O T P)),
      (do let rest ← x; .ok (.source stmt :: rest)) = x.map (.source stmt :: ·) := by
    intro x
    cases x <;> rfl
  rw [← hmap]
  match stmt, h with
  | .other stmt, _ => rfl
  | .localStmt pat none, _ => rfl
  | .localStmt pat (some (expr, otherwise)), h =>
      have hnone : registrationExpression expr = none := Option.map_eq_none_iff.1 h
      simp only [expandStatements, hnone]

/-- The statement of the container, which is accepted once. -/
theorem expandStatements_declared {emitted : Bool} {pat : P} {expr published : Expr M O T}
    {otherwise : Option O} {rest : List (Stmt M O T P)} {declaration : M}
    {out : List (Generated M O T P)}
    (h : registrationExpression expr = some (declaration, published)) :
    expandStatements expand emitted (.localStmt pat (some (expr, otherwise)) :: rest) = .ok out ↔
      emitted = false ∧ Accepts expand (declaration, buildExpression expr) ∧
        ∃ out', expandStatements expand true rest = .ok out' ∧
          out = .setup declaration :: .builder declaration ::
            .source (.localStmt pat (some (published, otherwise))) :: out' := by
  have hvalid : (buildExpression expr).any (!·.valid) = false ↔
      ∀ call, buildExpression expr = some call → call.valid = true := by
    cases buildExpression expr <;> simp
  simp only [expandStatements, h, Accepts]
  cases emitted with
  | true => simp
  | false =>
      cases hbuild : (buildExpression expr).any (!·.valid) with
      | true => simp [← hvalid, hbuild]
      | false =>
          cases hexpand : expand declaration ((buildExpression expr).bind BuildCall.errorType) with
          | error error => simp
          | ok result =>
              cases hout : expandStatements expand true rest with
              | error error => simp [bind, Except.bind]
              | ok out' =>
                  simp only [bind, Except.bind, Bool.false_eq_true, if_false, true_and,
                    Except.ok.injEq, exists_eq_left', and_iff_right (hvalid.1 hbuild)]
                  exact eq_comm

theorem exists_expandStatements (stmts : List (Stmt M O T P)) : ∀ {emitted : Bool},
    (∃ out, expandStatements expand emitted stmts = .ok out) ↔
      (stmts.filterMap Stmt.declared).length + emitted.toNat ≤ 1 ∧
        ∀ declared ∈ stmts.filterMap Stmt.declared, Accepts expand declared := by
  induction stmts with
  | nil =>
      intro emitted
      cases emitted <;> simp [expandStatements]
  | cons stmt rest ih =>
      intro emitted
      cases hdeclared : stmt.declared with
      | none =>
          rw [List.filterMap_cons_none hdeclared, ← ih, expandStatements_source hdeclared]
          cases expandStatements expand emitted rest <;> simp [Except.map]
      | some declared =>
          rw [List.filterMap_cons_some hdeclared, List.forall_mem_cons]
          match stmt, hdeclared with
          | .localStmt pat (some (expr, otherwise)), hdeclared =>
              rcases Option.map_eq_some_iff.1 hdeclared with ⟨⟨declaration, published⟩, hfound, rfl⟩
              simp only [expandStatements_declared hfound]
              constructor
              · rintro ⟨_, rfl, haccepts, out, hout, rfl⟩
                rcases ih.1 ⟨out, hout⟩ with ⟨hlength, hrest⟩
                exact ⟨by simpa using hlength, haccepts, hrest⟩
              · rintro ⟨hlength, haccepts, hrest⟩
                have hfirst : emitted = false ∧ (rest.filterMap Stmt.declared).length = 0 := by
                  cases emitted <;> simp_all
                rcases (@ih true).2 ⟨by simp [hfirst.2], hrest⟩ with ⟨out, hout⟩
                exact ⟨_, hfirst.1, haccepts, out, hout, rfl⟩

end Expansion

/-! ## Meaning -/

section Run

variable {Γ V W : Type} {m : Type → Type} [Monad m] {meaning : Meaning M O T P Γ V W m}

theorem eval_written {γ : Γ} {builder : Option V} {expr : Expr M O T}
    (h : expr.written = true) : eval meaning γ builder expr = eval meaning γ none expr := by
  induction expr with
  | registry declaration => rfl
  | builder => cases h
  | question operand ih => simp only [eval, ih h]
  | paren inner ih => exact ih h
  | group inner ih => exact ih h
  | methodCall receiver method turbofish args ih => simp only [eval, ih h]
  | other expr => rfl

theorem runStmt_written {γ : Γ} {builder : Option V} {stmt : Stmt M O T P}
    (h : stmt.written = true) : runStmt meaning γ builder stmt = runStmt meaning γ none stmt := by
  match stmt, h with
  | .other stmt, _ => rfl
  | .localStmt pat none, _ => rfl
  | .localStmt pat (some (expr, otherwise)), h => simp only [runStmt, eval_written h]

variable [LawfulMonad m]

/-- The declaration is what a chain evaluates first, so it can be evaluated before the chain. -/
theorem eval_published {γ : Γ} {expr : Expr M O T} : ∀ {published : Expr M O T} {declaration : M},
    registrationExpression expr = some (declaration, published) →
      eval meaning γ none expr = (do
        let parts ← meaning.setup declaration γ
        eval meaning γ (some (meaning.builder declaration parts)) published) := by
  induction expr with
  | registry declaration =>
      intro published _ h
      cases h
      rfl
  | builder =>
      intro published _ h
      cases h
  | other expr =>
      intro published _ h
      cases h
  | question operand ih =>
      intro published declaration h
      rcases Option.map_eq_some_iff.1 h with ⟨⟨_, inner⟩, hinner, heq⟩
      cases heq
      simp only [eval, ih hinner, bind_assoc]
  | paren inner ih =>
      intro published declaration h
      rcases Option.map_eq_some_iff.1 h with ⟨⟨_, inner'⟩, hinner, heq⟩
      cases heq
      simp only [eval]
      exact ih hinner
  | group inner ih =>
      intro published declaration h
      rcases Option.map_eq_some_iff.1 h with ⟨⟨_, inner'⟩, hinner, heq⟩
      cases heq
      simp only [eval]
      exact ih hinner
  | methodCall receiver method turbofish args ih =>
      intro published declaration h
      rcases Option.map_eq_some_iff.1 h with ⟨⟨_, receiver'⟩, hreceiver, heq⟩
      cases heq
      simp only [eval, ih hreceiver, bind_assoc]

/-- The generated statements run as the written ones, whatever the generated variables hold. -/
theorem runGenerated_expanded {expand : M → Option T → Except E Unit} (stmts : List (Stmt M O T P)) :
    ∀ {emitted : Bool} {out : List (Generated M O T P)}, (∀ s ∈ stmts, s.written = true) →
      expandStatements expand emitted stmts = .ok out →
        ∀ (parts : Option W) (builder : Option V) (γ : Γ),
          runGenerated meaning out parts builder γ = runWritten meaning stmts γ := by
  induction stmts with
  | nil =>
      intro emitted out _ h parts builder γ
      cases h
      rfl
  | cons stmt rest ih =>
      intro emitted out hwritten h parts builder γ
      rcases List.forall_mem_cons.1 hwritten with ⟨hstmt, hrest⟩
      cases hdeclared : stmt.declared with
      | none =>
          rw [expandStatements_source hdeclared] at h
          cases hout : expandStatements expand emitted rest with
          | error e => simp [hout, Except.map] at h
          | ok out' =>
              rw [hout] at h
              cases h
              rw [runGenerated, runWritten, runStmt_written hstmt]
              exact congrArg _ (funext fun γ => ih hrest hout parts builder γ)
      | some declared =>
          match stmt, hdeclared with
          | .localStmt pat (some (expr, otherwise)), hdeclared =>
              rcases Option.map_eq_some_iff.1 hdeclared with ⟨⟨declaration, published⟩, hfound, _⟩
              rcases (expandStatements_declared hfound).1 h with ⟨_, _, out', hout, rfl⟩
              have hlater := fun parts builder γ => ih hrest hout parts builder γ
              simp only [runGenerated, runWritten, runStmt, eval_published hfound, bind_assoc,
                Option.map_some, hlater]

end Run

/-- A function is expanded exactly when at most one of its statements starts with a declaration, and
that one is accepted.  The generated function then does what the written one does, in the same
order: in a chain of postfix operations the declaration comes before everything else. -/
theorem function_expanded (expand : M → Option T → Except E Unit) (stmts : List (Stmt M O T P))
    (hwritten : ∀ s ∈ stmts, s.written = true) :
    ((∃ out, expandStatements expand false stmts = .ok out) ↔
      (stmts.filterMap Stmt.declared).length ≤ 1 ∧
        ∀ declared ∈ stmts.filterMap Stmt.declared, Accepts expand declared) ∧
      ∀ out, expandStatements expand false stmts = .ok out →
        ∀ (Γ V W : Type) (m : Type → Type) [Monad m] [LawfulMonad m]
          (meaning : Meaning M O T P Γ V W m) (γ : Γ),
          runGenerated meaning out none none γ = runWritten meaning stmts γ := by
  refine ⟨exists_expandStatements stmts, ?_⟩
  intro out hout Γ V W m _ _ meaning γ
  exact runGenerated_expanded stmts hwritten hout none none γ

/-- A meaning that records what is evaluated. -/
def recorded : Meaning String String String String Unit String Unit (StateM (List String)) where
  setup declaration _ := modify (· ++ [declaration])
  builder declaration _ := declaration
  question value := do
    modify (· ++ ["?"])
    pure value
  call method _ value values := do
    modify (· ++ [method])
    pure (value ++ values.foldl (· ++ ·) "")
  expr expr _ := do
    modify (· ++ [expr])
    pure expr
  stmt stmt _ := modify (· ++ [stmt])
  bind pat _ _ _ := modify (· ++ [pat])
  uninitialized _ _ := pure ()
  unbound := pure "unbound"

/-- `log(); let Ok(container) = systasis_container! { .. }.build().map_err(convert);` -/
def recordedFunction : List (Stmt String String String String) :=
  [.other "log()",
    .localStmt "Ok(container)" (some (.methodCall (.methodCall (.registry "declaration") "build"
      none []) "map_err" none ["convert"], none))]

theorem function_expanded_recorded :
    ∃ out, expandStatements (fun _ _ => Except.ok () : String → Option String → Except String Unit)
        false recordedFunction = .ok out ∧
      runGenerated recorded out none none () = runWritten recorded recordedFunction () := by
  have hexpanded := function_expanded
    (fun _ _ => Except.ok () : String → Option String → Except String Unit) recordedFunction
    (by decide)
  exact ⟨_, rfl, hexpanded.2 _ rfl Unit String Unit (StateM (List String)) recorded ()⟩

end Function
end Build
end Systasis
