import Systasis.Analysis.Consumption
import Systasis.Wiring

/-!
# Expansion — the passes over the registrations, in order

Model of the part of `expand_inner` in `systasis-macros/src/generate.rs` that turns the queries of
initializers and constructors into generated calls: child queries, type lookups and analysis, the
schedule, what constructors consume and call, and rewriting.
-/

namespace Systasis
namespace Analysis

open Syntax Systasis.Graph

variable {n : Nat}

/-- A loop over the registrations that returns at the first error. -/
def sequence {ε α : Type} : {n : Nat} → (Fin n → Except ε α) → Except ε (Fin n → α)
  | 0, _ => .ok Fin.elim0
  | _ + 1, f =>
      match f 0 with
      | .error error => .error error
      | .ok first =>
          match sequence fun i => f i.succ with
          | .error error => .error error
          | .ok rest => .ok (Fin.cons first rest)

theorem sequence_ok {ε α : Type} {n : Nat} {f : Fin n → Except ε α} {results : Fin n → α}
    (h : sequence f = .ok results) (i : Fin n) : f i = .ok (results i) := by
  induction n with
  | zero => exact i.elim0
  | succ n ih =>
      simp only [sequence] at h
      split at h
      · cases h
      · rename_i first hfirst
        split at h
        · cases h
        · rename_i rest hrest
          cases h
          refine Fin.cases ?_ ?_ i
          · simpa using hfirst
          · intro j
            simpa using ih hrest j

/-! ## Child queries -/

/-- A visit of the constructor, if there is one. -/
def visitConstructor {S : Type} (visit : Node → S → Node × S) :
    Option Node → S → Option Node × S
  | none, s => (none, s)
  | some closure, s =>
      let (closure, s) := visit closure s
      (some closure, s)

/-- The child queries of one registration, with the calls of its constructor. -/
def childPass (children : List ChildRegistration) (r : Registration) :
    Except Diagnostic (Registration × List Call) :=
  let (ty, s) := visitChildren children false r.ty ⟨none, [], []⟩
  let (value, s) := visitChildren children false r.value s
  -- Temporary initializer reads do not count.
  let s := { s with borrowed := [], calls := [] }
  let (constructor, s) := visitConstructor (visitChildren children true) r.constructor s
  match s.error with
  | some error => .error error
  | none => .ok ({ r with ty, value, constructor }, s.calls)

/-! ## Type lookups and analysis -/

/-- `lookup.visit_type_mut(..)`, to a depth that `typeLookup_exact` shows to be enough. -/
def lookupTypes (tables : Types n) (node : Node) (s : Lookup n) : Node × Lookup n :=
  (visitType tables (n + 1) node s).getD (node, s)

def typePass (tables : Types n) (r : Registration) :
    Except Diagnostic (Registration × Finset (Fin n)) :=
  let (ty, s) := lookupTypes tables r.ty ⟨[], ∅, none⟩
  let (value, s) := lookupTypes tables r.value s
  let (constructor, s) := visitConstructor (lookupTypes tables) r.constructor s
  match s.error with
  | some error => .error (error.diagnostic tables.names)
  | none => .ok ({ r with ty, value, constructor }, s.dependencies)

/-- The visits of `Queries` over one registration, the constructor with replacements of its own. -/
def queryPass (indices : String → Option (Fin n))
    (building running : Option (Fin n → Query → Option Generated)) (r : Registration)
    (dependencies : Finset (Fin n)) : Except Diagnostic (Registration × Finset (Fin n)) :=
  let (value, s) := visitQueries indices building r.value ⟨dependencies, ∅, none⟩
  let (constructor, s) := visitConstructor (visitQueries indices running) r.constructor s
  match s.error with
  | some error => .error error
  | none => .ok ({ r with value, constructor }, s.dependencies)

/-- Type lookups and analysis of one registration. -/
def analyse (tables : Types n) (r : Registration) :
    Except Diagnostic (Registration × Finset (Fin n)) :=
  match typePass tables r with
  | .error error => .error error
  | .ok (r, looked) =>
      match queryPass tables.indices none none r looked with
      | .error error => .error error
      | .ok (_, dependencies) => .ok (r, dependencies)

/-! ## Rewriting -/

/-- The key of a query in the map of replacements. -/
def Query.method : Query → Option Wiring.Method
  | .resolve => some .resolve
  | .tryResolve => some .tryResolve
  | .resolveClone => some .resolveClone
  | .tryResolveClone => some .tryResolveClone
  | .resolveUnchecked => some .resolveUnchecked
  | _ => none

/-- What the wiring reads of a registration, and of the capture analysis of its constructor. -/
def Registration.wiring (native : Bool) (r : Registration) : Wiring.Registration :=
  if r.constructor.isSome then .factory r.fallible native else if r.fresh then .fresh else .value

/-- The entry of `wiring::replacements` for a target and a query; constructors have not been
prepared yet. -/
def replacement (registrations : Fin n → Registration) (all : Dependencies n)
    (building unchecked : Bool) (target : Fin n) (query : Query) : Option Generated :=
  match query.method with
  | none => none
  | some method =>
      (Wiring.replacements (fun i => (registrations i).wiring false) all building unchecked target
        method).map fun _ => .resolver target query.text

/-- The declaration after all passes, with what they recorded. -/
structure Expansion (n : Nat) where
  /-- After the child queries. -/
  dispatched : Fin n → Registration
  /-- After the type lookups: what the analysis is given. -/
  looked : Fin n → Registration
  /-- After rewriting. -/
  emitted : Fin n → Registration
  dependencies : Dependencies n
  order : List (Fin n)
  consumed : Dependencies n
  calls : Fin n → List Call

/-- `unchecked` is the feature `resolve_unchecked`. -/
def expandQueries (children : List ChildRegistration) (unchecked : Bool)
    (registrations : Fin n → Registration) : Except Diagnostic (Expansion n) :=
  match sequence fun i => childPass children (registrations i) with
  | .error error => .error error
  | .ok passed =>
      let dispatched := fun i => (passed i).1
      let tables := Types.of dispatched
      match sequence fun i => analyse tables (dispatched i) with
      | .error error => .error error
      | .ok analysed =>
          let looked := fun i => (analysed i).1
          let dependencies := fun i => (analysed i).2
          match schedule dependencies with
          | .err cycle =>
              .error (.message ("registration dependency cycle: " ++
                String.intercalate " -> " (cycle.map tables.names)))
          | .unreachable message => .error (.message message)
          | .ok order =>
              let all := Wiring.transitive dependencies order
              match consumedDependencies looked tables.indices order with
              | .error error => .error error
              | .ok consumed =>
                  match propagateChildCalls looked tables.indices order fun i => (passed i).2 with
                  | .error error => .error error
                  | .ok calls =>
                      match sequence fun i =>
                        queryPass tables.indices (some (replacement looked all true unchecked))
                          (some (replacement looked all false unchecked)) (looked i) ∅ with
                      | .error error => .error error
                      | .ok rewritten =>
                          .ok
                            { dispatched
                              looked
                              emitted := fun i => (rewritten i).1
                              dependencies
                              order
                              consumed
                              calls }

end Analysis
end Systasis
