import Mathlib.Data.List.Basic

/-!
# Sources — routing the early exits of initializers

Model of `systasis-macros/src/declaration_errors.rs`.  In the declaration form every initializer is
the body of a closure that returns a `Result`.  `Sources` wraps the operand of each `?` and `return`
it visits in a call of `propagate_k`, which marks an error as that of source `k`.

Expressions are kept to the constructs that decide where an exit goes.  Every other construct is a
form with sub-expressions, and a form is given by what it does next after the signals its
sub-expressions have produced so far: this covers calls, blocks, conditionals, matches and loops
with their jumps.
-/

namespace Systasis
namespace Declaration

/-! ## Expressions -/

/-- The constructs whose bodies run on their own, if at all. -/
inductive Deferral where
  | closure
  | async
  | item
  deriving DecidableEq, Repr

/-- An initializer, with forms `F` for the constructs that exits pass through. -/
inductive Expr (F : Type) where
  /-- `operand?` -/
  | question (operand : Expr F)
  /-- `return operand` -/
  | ret (operand : Expr F)
  /-- `return` -/
  | retUnit
  /-- `try { body }` -/
  | tryBlock (body : Expr F)
  | deferred (kind : Deferral) (body : Expr F)
  /-- `__systasis_declaration::propagate_k(argument, &mut __systasis_error_marker)` -/
  | propagate (k : Nat) (argument : Expr F)
  | form (form : F) (children : List (Expr F))

variable {F : Type}

/-! ## The visitor -/

structure Sources where
  count : Nat
  deriving DecidableEq, Repr

/-- `Sources::propagate` -/
def Sources.propagate (s : Sources) (source : Expr F) : Expr F × Sources :=
  (.propagate s.count source, ⟨s.count + 1⟩)

mutual

/-- `Sources::visit_expr_mut` -/
def visit : Expr F → Sources → Expr F × Sources
  -- The operand is visited first, so sources are numbered from the inside out.
  | .question operand, s =>
      let (operand, s) := visit operand s
      let (operand, s) := s.propagate operand
      (.question operand, s)
  | .ret operand, s =>
      let (operand, s) := visit operand s
      let (operand, s) := s.propagate operand
      (.ret operand, s)
  | .retUnit, s => (.retUnit, s)
  -- `visit_expr_try_block_mut`, and likewise for closures, async blocks and items.
  | .tryBlock body, s => (.tryBlock body, s)
  | .deferred kind body, s => (.deferred kind body, s)
  | .propagate k argument, s =>
      let (argument, s) := visit argument s
      (.propagate k argument, s)
  | .form form children, s =>
      let (children, s) := visitAll children s
      (.form form children, s)

/-- Sub-expressions, and initializers in schedule order. -/
def visitAll : List (Expr F) → Sources → List (Expr F) × Sources
  | [], s => ([], s)
  | first :: rest, s =>
      let (first, s) := visit first s
      let (rest, s) := visitAll rest s
      (first :: rest, s)

end

attribute [grind =] visit visitAll

/-! ## Sites -/

mutual

/-- The exits that leave the initializer, in the order of the visitor, at their positions; `caught`
says that a `?` ends at a `try` block around it. -/
def leaving (caught : Bool) : Expr F → List Nat → List (List Nat)
  -- A `?` inside a `try` block ends there; a `return` does not.
  | .question operand, position =>
      leaving caught operand (position ++ [0]) ++ if caught then [] else [position]
  | .ret operand, position => leaving caught operand (position ++ [0]) ++ [position]
  | .retUnit, _ => []
  | .tryBlock body, position => leaving true body (position ++ [0])
  | .deferred _ _, _ => []
  | .propagate _ argument, position => leaving caught argument (position ++ [0])
  | .form _ children, position => leavingAll caught children position 0

def leavingAll (caught : Bool) : List (Expr F) → List Nat → Nat → List (List Nat)
  | [], _, _ => []
  | first :: rest, position, index =>
      leaving caught first (position ++ [index]) ++ leavingAll caught rest position (index + 1)

end

attribute [grind =] leaving leavingAll

mutual

/-- The exits that leave the initializer from inside a `try` block. -/
def leavingTry : Expr F → List Nat → List (List Nat)
  | .question operand, position => leavingTry operand (position ++ [0])
  | .ret operand, position => leavingTry operand (position ++ [0])
  | .retUnit, _ => []
  | .tryBlock body, position => leaving true body (position ++ [0])
  | .deferred _ _, _ => []
  | .propagate _ argument, position => leavingTry argument (position ++ [0])
  | .form _ children, position => leavingTryAll children position 0

def leavingTryAll : List (Expr F) → List Nat → Nat → List (List Nat)
  | [], _, _ => []
  | first :: rest, position, index =>
      leavingTry first (position ++ [index]) ++ leavingTryAll rest position (index + 1)

end

attribute [grind =] leavingTry leavingTryAll

/-- The calls directly around an expression. -/
def wraps : Expr F → List Nat
  | .propagate k argument => k :: wraps argument
  | _ => []

/-- An exit: whether it leaves the initializer, and the calls around its operand. -/
structure Exit where
  leaves : Bool
  wraps : List Nat
  deriving DecidableEq, Repr

mutual

/-- Every `?` and every `return` with an operand, anywhere; the flags say which of the two leave the
initializer from here. -/
def exits (question ret : Bool) : Expr F → List Exit
  | .question operand => exits question ret operand ++ [⟨question, wraps operand⟩]
  | .ret operand => exits question ret operand ++ [⟨ret, wraps operand⟩]
  | .retUnit => []
  | .tryBlock body => exits false ret body
  | .deferred _ body => exits false false body
  | .propagate _ argument => exits question ret argument
  | .form _ children => exitsAll question ret children

def exitsAll (question ret : Bool) : List (Expr F) → List Exit
  | [] => []
  | first :: rest => exits question ret first ++ exitsAll question ret rest

end

attribute [grind =] exits exitsAll

mutual

/-- All calls of `propagate_k`. -/
def propagations : Expr F → List Nat
  | .question operand | .ret operand => propagations operand
  | .retUnit => []
  | .tryBlock body | .deferred _ body => propagations body
  | .propagate k argument => propagations argument ++ [k]
  | .form _ children => propagationsAll children

def propagationsAll : List (Expr F) → List Nat
  | [] => []
  | first :: rest => propagations first ++ propagationsAll rest

end

attribute [grind =] propagations propagationsAll

mutual

/-- The expression without calls of `propagate_k`. -/
def strip : Expr F → Expr F
  | .question operand => .question (strip operand)
  | .ret operand => .ret (strip operand)
  | .retUnit => .retUnit
  | .tryBlock body => .tryBlock (strip body)
  | .deferred kind body => .deferred kind (strip body)
  | .propagate _ argument => strip argument
  | .form form children => .form form (stripAll children)

def stripAll : List (Expr F) → List (Expr F)
  | [] => []
  | first :: rest => strip first :: stripAll rest

end

attribute [grind =] strip stripAll

/-! ## Running -/

/-- Values: those of the program, results, and the variants of `InitializationErrors`. -/
inductive Value (B : Type) where
  | base (b : B)
  | ok (v : Value B)
  | err (v : Value B)
  | source (k : Nat) (v : Value B)
  deriving DecidableEq, Repr

/-- What a sub-expression tells the construct around it: its value, or a jump such as `break`. -/
inductive Signal (B J : Type) where
  | value (v : Value B)
  | jump (target : J)
  deriving DecidableEq, Repr

inductive Next (B J : Type) where
  | run (child : Nat)
  | finish (signal : Signal B J)
  deriving DecidableEq, Repr

/-- The language around the exits: what a form does next after the signals it has seen, and what a
deferred body evaluates to. -/
structure Semantics (F B J S : Type) where
  next : F → List (Signal B J) → S → Next B J × S
  delay : Deferral → Expr F → S → Signal B J × S

/-- How an expression ends: with a signal, with an error on its way to the closest `try` block or
out, or with a result returned from the initializer. -/
inductive Outcome (B J σ : Type) where
  | signal (signal : Signal B J)
  | raise (site : σ) (error : Value B)
  | returns (site : σ) (result : Except (Value B) (Value B))

section Eval

variable {B J S σ : Type}

abbrev Run (B J S σ : Type) : Type := S → Option (Outcome B J σ × S)

/-- Goes on with the value of an expression; jumps and exits pass. -/
def onValue (run : Run B J S σ) (f : Value B → Option (Outcome B J σ)) : Run B J S σ := fun s =>
  match run s with
  | some (.signal (.value v), s) => (f v).map fun outcome => (outcome, s)
  | other => other

/-- The turns of a form over its sub-expressions. -/
def turns (next : List (Signal B J) → S → Next B J × S) (children : List (Run B J S σ)) :
    Nat → List (Signal B J) → Run B J S σ
  | 0, _, _ => none
  | fuel + 1, seen, s =>
      match next seen s with
      | (.finish signal, s) => some (.signal signal, s)
      | (.run child, s) =>
          match children[child]? with
          | none => none
          | some run =>
              match run s with
              | some (.signal signal, s) => turns next children fuel (seen ++ [signal]) s
              | other => other

/-- `?` at a site. -/
def questionMark (site : σ) : Value B → Option (Outcome B J σ)
  | .ok v => some (.signal (.value v))
  | .err error => some (.raise site error)
  | _ => none

/-- `return` at a site of a closure that returns a result. -/
def returnResult (site : σ) : Value B → Option (Outcome B J σ)
  | .ok v => some (.returns site (.ok v))
  | .err error => some (.returns site (.error error))
  | _ => none

/-- `result.map_err(InitializationErrors::Source_k)` -/
def propagated (k : Nat) : Value B → Option (Outcome B J σ)
  | .ok v => some (.signal (.value (.ok v)))
  | .err error => some (.signal (.value (.err (.source k error))))
  | _ => none

/-- The end of a `try` block. -/
def caughtAt : Outcome B J σ → Outcome B J σ
  | .signal (.value v) => .signal (.value (.ok v))
  | .raise _ error => .signal (.value (.err error))
  | other => other

variable (semantics : Semantics F B J S) (fuel : Nat) (mark : List Nat → σ)

mutual

/-- Evaluates an expression at a position; `fuel` bounds the turns of each form. -/
def eval : Expr F → List Nat → Run B J S σ
  | .question operand, position =>
      onValue (eval operand (position ++ [0])) (questionMark (mark position))
  | .ret operand, position =>
      onValue (eval operand (position ++ [0])) (returnResult (mark position))
  -- The closure of an initializer returns a `Result`, so this does not compile.
  | .retUnit, _ => fun _ => none
  | .tryBlock body, position => fun s =>
      (eval body (position ++ [0]) s).map fun (outcome, s) => (caughtAt outcome, s)
  | .deferred kind body, _ => fun s =>
      let (signal, s) := semantics.delay kind body s
      some (.signal signal, s)
  | .propagate k argument, position =>
      onValue (eval argument (position ++ [0])) (propagated k)
  | .form form children, position =>
      turns (semantics.next form) (evalAll children position 0) fuel []

def evalAll : List (Expr F) → List Nat → Nat → List (Run B J S σ)
  | [], _, _ => []
  | first :: rest, position, index =>
      eval first (position ++ [index]) :: evalAll rest position (index + 1)

end

attribute [grind =] eval evalAll

/-- What an initializer has put into its slot: the value it was given, or the slot its closure has
returned itself. -/
inductive Entry (B : Type) where
  | stored (v : Value B)
  | returned (v : Value B)
  deriving DecidableEq, Repr

/-- All slots, or the error of the first initializer that failed. -/
inductive Built (B σ : Type) where
  | done (entries : List (Entry B))
  | failed (site : σ) (error : Value B)

/-- The initializers one after the other, the first being number `index`; the others are skipped
after a failure. -/
def runAll : List (Expr F) → Nat → S → Option (Built B σ × S)
  | [], _, s => some (.done [], s)
  | first :: rest, index, s =>
      match eval semantics fuel mark first [index] s with
      | some (.signal (.value v), s) => (runAll rest (index + 1) s).map (before (.stored v))
      | some (.returns _ (.ok v), s) => (runAll rest (index + 1) s).map (before (.returned v))
      | some (.raise site error, s) => some (.failed site error, s)
      | some (.returns site (.error error), s) => some (.failed site error, s)
      | some (.signal (.jump _), _) => none
      | none => none
where
  before (entry : Entry B) : Built B σ × S → Built B σ × S
    | (.done entries, s) => (.done (entry :: entries), s)
    | other => other

end Eval

end Declaration
end Systasis
