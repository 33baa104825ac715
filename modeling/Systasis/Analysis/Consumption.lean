import Systasis.Analysis.TypeLookup
import Systasis.Graph.Schedule

/-!
# Consumption — what constructors take, directly and through one another

Model of `consumed_dependencies` and `propagate_child_calls` in
`systasis-macros/src/scopegen.rs`.  Both visit the constructors in schedule order and add, for every
constructor that is called, what has been accumulated for it.
-/

namespace Systasis
namespace Analysis

open Syntax Systasis.Graph

variable {n : Nat}

/-! ## Local calls -/

/-- `matches!(operation, "resolve" | "try_resolve" | "resolve_unchecked")` -/
def Query.calls : Query → Bool
  | .resolve | .tryResolve | .resolveUnchecked => true
  | _ => false

/-- Every macro that is an expression: `visit_expr_macro_mut` is overridden. -/
def expressionMacro (label : Label) : Option Macro :=
  match label.form with
  | .invocation mac => some mac
  | _ => none

/-- The registration a macro calls, with whether it asks for more than `resolve`. -/
def localCall (indices : String → Option (Fin n)) (mac : Macro) :
    Except Diagnostic (Option (Fin n × Bool)) :=
  match Invocation.of mac with
  | none => .ok none
  | some invocation =>
      if invocation.query.calls then
        match localKey invocation.isFrom invocation.tokens with
        | none => .error .syntaxError
        | some key =>
            .ok ((indices key).map fun index => (index, decide (invocation.query ≠ .resolve)))
      else .ok none

/-- The visitor `Calls` of `consumed_dependencies`. -/
structure Calls (n : Nat) where
  calls : List (Fin n × Bool)
  error : Option Diagnostic

def noteCall (indices : String → Option (Fin n)) (s : Calls n) (mac : Macro) : Calls n :=
  match localCall indices mac with
  | .error error => { s with error := some error }
  | .ok none => s
  | .ok (some call) => { s with calls := s.calls ++ [call] }

/-- `Calls::visit_expr_macro_mut` -/
def enterCall (indices : String → Option (Fin n)) : Node → Calls n → Option (Node × Calls n)
  | .node label children, s =>
      (expressionMacro label).map fun mac => (.node label children, noteCall indices s mac)

/-- The visitor `Targets` of `propagate_child_calls`. -/
structure Targets (n : Nat) where
  targets : Finset (Fin n)
  error : Option Diagnostic

def noteTarget (indices : String → Option (Fin n)) (s : Targets n) (mac : Macro) : Targets n :=
  match localCall indices mac with
  | .error error => { s with error := some error }
  | .ok none => s
  | .ok (some call) => { s with targets := insert call.1 s.targets }

/-- `Targets::visit_expr_macro_mut` -/
def enterTarget (indices : String → Option (Fin n)) : Node → Targets n → Option (Node × Targets n)
  | .node label children, s =>
      (expressionMacro label).map fun mac => (.node label children, noteTarget indices s mac)

/-! ## The two passes -/

section Passes

variable (registrations : Fin n → Registration) (indices : String → Option (Fin n))

/-- `for (target, takes) in calls.calls { .. }` -/
def consumeCall (index : Fin n) (consumed : Dependencies n) (call : Fin n × Bool) :
    Dependencies n :=
  if (registrations call.1).constructor.isSome then
    Function.update consumed index (consumed index ∪ consumed call.1)
  else if call.2 && !(registrations call.1).fresh then
    Function.update consumed index (insert call.1 (consumed index))
  else consumed

def consumeStep (consumed : Dependencies n) (index : Fin n) : Except Diagnostic (Dependencies n) :=
  match (registrations index).constructor with
  | none => .ok consumed
  | some closure =>
      let calls := (Rose.visit (enterCall indices) closure ⟨[], none⟩).2
      match calls.error with
      | some error => .error error
      | none => .ok (calls.calls.foldl (consumeCall registrations index) consumed)

/-- `consumed_dependencies` -/
def consumedDependencies (order : List (Fin n)) : Except Diagnostic (Dependencies n) :=
  order.foldlM (consumeStep registrations indices) fun _ => ∅

/-- `for target in targets.targets { .. }` -/
def inheritCalls (index : Fin n) (calls : Fin n → List Call) (target : Fin n) :
    Fin n → List Call :=
  if (registrations target).constructor.isSome then
    Function.update calls index (calls index ++ calls target)
  else calls

def propagateStep (calls : Fin n → List Call) (index : Fin n) :
    Except Diagnostic (Fin n → List Call) :=
  match (registrations index).constructor with
  | none => .ok calls
  | some closure =>
      let targets := (Rose.visit (enterTarget indices) closure ⟨∅, none⟩).2
      match targets.error with
      | some error => .error error
      | none => .ok ((iter targets.targets).foldl (inheritCalls registrations index) calls)

/-- `propagate_child_calls` -/
def propagateChildCalls (order : List (Fin n)) (calls : Fin n → List Call) :
    Except Diagnostic (Fin n → List Call) :=
  order.foldlM (propagateStep registrations indices) calls

end Passes

end Analysis
end Systasis
