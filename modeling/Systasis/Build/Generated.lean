import Systasis.Wiring

/-!
# Generated — the build closure `expand_inner` emits

Model of the initialization block at the end of `systasis-macros/src/generate.rs`, with the
helpers `initialize_once`, `split` and `discard` of `src/lib.rs`.

User code is an arbitrary *behaviour*: a tree that issues local queries, sees their replies and
finally returns.  A query carries the evidence the analysis and rewriting passes leave behind:
its target is one of the recorded dependencies and a replacement exists for it.  Everything the
generated code would reject or panic on is kept as a `Stuck` outcome of the evaluation, so that
its absence is a theorem and not a convention.
-/

namespace Systasis
namespace Build

open Systasis.Graph Wiring

/-! ## Slots -/

/-- `container::Error` -/
inductive AccessError where
  | valueAlreadyConsumed
  | valueAccessContention
  deriving DecidableEq, Repr

/-- The stored representation a policy selects: `CopySlot`, `ReadSlot`, or one of the two
consumable slots. -/
inductive Storage where
  | copy
  | read
  | take
  deriving DecidableEq, Repr

/-- What a slot holds.  Only consumable storage can be emptied. -/
inductive Contents (V C : Type) where
  | copy (value : V)
  | read (value : V)
  | take (value : Option V)
  | fresh (value : V)
  | factory (captures : C)
  deriving DecidableEq, Repr

/-- A slot, tagged with the registration whose initializer created it. -/
structure Slot (n : Nat) (V C : Type) where
  registration : Fin n
  contents : Contents V C
  deriving DecidableEq, Repr

/-- The locals `__systasis_slot_i` of the build closure. -/
abbrev Slots (n : Nat) (V C : Type) : Type := Fin n → Option (Slot n V C)

/-- `<Policy as Select<_>>::store` -/
def store {V C : Type} : Storage → V → Contents V C
  | .copy, value => .copy value
  | .read, value => .read value
  | .take, value => .take (some value)

/-- The methods that transfer ownership out of consumable storage. -/
def takes : Method → Bool
  | .tryResolve => true
  | .resolveUnchecked => true
  | _ => false

/-- A query method on a slot: its reply and what remains.  The reply of `resolve_unchecked` is
that of the checked acquisition it forwards to. -/
def access {V C : Type} (method : Method) : Contents V C → Except AccessError V × Contents V C
  | .copy value => (.ok value, .copy value)
  | .read value => (.ok value, .read value)
  | .fresh value => (.ok value, .fresh value)
  | .take (some value) => (.ok value, .take (if takes method then none else some value))
  | .take none => (.error .valueAlreadyConsumed, .take none)
  -- A constructor target is called through its helper, never accessed.
  | .factory captures => (.error .valueAccessContention, .factory captures)

/-! ## Behaviours of user code -/

/-- A computation that issues queries `Q`, sees replies and returns an `R`. -/
inductive Behaviour (Q V R : Type) where
  | done (result : R)
  | query (q : Q) (next : Except AccessError V → Behaviour Q V R)

variable {n : Nat}

/-- A local query that expansion accepted: its target was recorded among the `recorded`
dependencies, and the target has a replacement for the method. -/
structure Query (registrations : Fin n → Registration) (unchecked : Bool)
    (recorded : Finset (Fin n)) where
  target : Fin n
  mem : target ∈ recorded
  method : Method
  available : (replacements registrations (fun _ => ∅) true unchecked target method).isSome

/-- The winning registrations of one declaration, with the behaviour of the user's code. -/
structure Declaration (n : Nat) (V E C : Type) where
  registrations : Fin n → Registration
  /-- The feature `resolve_unchecked`. -/
  unchecked : Bool
  dependencies : Dependencies n
  storage : Fin n → Storage
  /-- The initializer expression of a stored value. -/
  value : ∀ i, Behaviour (Query registrations unchecked (dependencies i)) V (Except E V)
  /-- The closure of a constructor, given its captures. -/
  constructor : ∀ i, C → Behaviour (Query registrations unchecked (dependencies i)) V V
  /-- The captures held by `__systasis_capture_owner_i`. -/
  captures : Fin n → C
  /-- `T::default()` of a fresh registration. -/
  fresh : Fin n → V

variable {V E C : Type}

/-! ## Evaluating replacements -/

/-- Ways in which the generated code would not return. -/
inductive Stuck (n : Nat) where
  | unreachable (message : String)
  | missingField (index : Fin n)
  | unavailable (index : Fin n)
  | notAFactory (index : Fin n)
  | recursion
  deriving DecidableEq, Repr

/-- A slot expression denotes a reference to a slot: the unwrapped local of the build closure,
or a field of the constructor's context. -/
def locate (context : List (Fin n)) (slots : Slots n V C) :
    SlotExpr n → Except (Stuck n) (Fin n × Slot n V C)
  | .unwrapped index =>
      match slots index with
      | some slot => .ok (index, slot)
      | none => .error (.unreachable "dependency layer completed before this initializer")
  | .field index =>
      match slots index with
      | some slot => if index ∈ context then .ok (index, slot) else .error (.missingField index)
      | none => .error (.missingField index)

/-- Evaluate all arguments of a helper call. -/
def locateAll (context : List (Fin n)) (slots : Slots n V C) :
    List (SlotExpr n) → Except (Stuck n) Unit
  | [] => .ok ()
  | argument :: rest =>
      match locate context slots argument with
      | .ok _ => locateAll context slots rest
      | .error stuck => .error stuck

/-- The value of a replacement, where `construct` runs a constructor helper. -/
def evaluate (construct : Fin n → Slots n V C → Except (Stuck n) (V × Slots n V C))
    (context : List (Fin n)) (slots : Slots n V C) :
    Replacement n → Except (Stuck n) (Except AccessError V × Slots n V C)
  | .access owner method =>
      match locate context slots owner with
      | .ok (index, slot) =>
          let (reply, contents) := access method slot.contents
          .ok (reply, Function.update slots index (some { slot with contents }))
      | .error stuck => .error stuck
  | .call index arguments => call index arguments
  | .okCall index arguments => call index arguments
where
  call (index : Fin n) (arguments : List (SlotExpr n)) :
      Except (Stuck n) (Except AccessError V × Slots n V C) :=
    match locateAll context slots arguments with
    | .ok () =>
        match construct index slots with
        | .ok (value, slots) => .ok (.ok value, slots)
        | .error stuck => .error stuck
    | .error stuck => .error stuck

/-- Run user code, every query of which has been replaced through `replace`. -/
def run {registrations : Fin n → Registration} {unchecked : Bool} {recorded : Finset (Fin n)}
    {R : Type} (construct : Fin n → Slots n V C → Except (Stuck n) (V × Slots n V C))
    (replace : Fin n → Method → Option (Replacement n)) (context : List (Fin n)) :
    Behaviour (Query registrations unchecked recorded) V R → Slots n V C →
      Except (Stuck n) (R × Slots n V C)
  | .done result, slots => .ok (result, slots)
  | .query q next, slots =>
      match replace q.target q.method with
      | none => .error (.unavailable q.target)
      | some replacement =>
          match evaluate construct context slots replacement with
          | .ok (reply, slots) => run construct replace context (next reply) slots
          | .error stuck => .error stuck

/-- The helper `__systasis_construct_index`: invoke the constructor in its context.  The first
argument bounds the chain of helpers calling helpers. -/
def construct (decl : Declaration n V E C) (order : List (Fin n)) :
    Nat → Fin n → Slots n V C → Except (Stuck n) (V × Slots n V C)
  | 0, _, _ => .error .recursion
  | depth + 1, index, slots =>
      match slots index with
      | some ⟨_, .factory captures⟩ =>
          -- A helper sees its context and no local of the closure.
          let all := transitive decl.dependencies order
          run (construct decl order depth)
            (replacements decl.registrations all false decl.unchecked)
            (contextArguments decl.registrations all index)
            (decl.constructor index captures) slots
      | _ => .error (.notAFactory index)

/-! ## The build closure -/

/-- The locals of the build closure, with what it has done so far: which initializers ran and
with which error, and which capture owners were dropped. -/
structure State (n : Nat) (V E C : Type) where
  slots : Slots n V C
  owners : Fin n → Option C
  error : Option E
  ran : List (Fin n × Option E)
  dropped : List (Fin n)

/-- `__private::split` -/
def split {T : Type} : Except E T → Option T × Option E
  | .ok value => (some value, none)
  | .error error => (none, some error)

/-- The closure passed to `initialize_once` for registration `i`: the moved capture owner, a
fresh descriptor, or the user's expression stored by the selected policy. -/
def initializeOnce (decl : Declaration n V E C) (order : List (Fin n)) (state : State n V E C)
    (i : Fin n) : Except (Stuck n) (Except E (Slot n V C) × Slots n V C) :=
  match decl.registrations i with
  -- The captures were evaluated before the closure; here they only change owner.
  | .factory _ _ =>
      match state.owners i with
      | some captures => .ok (.ok ⟨i, .factory captures⟩, state.slots)
      | none => .error (.notAFactory i)
  | .fresh => .ok (.ok ⟨i, .fresh (decl.fresh i)⟩, state.slots)
  | .value =>
      let all := transitive decl.dependencies order
      match run (construct decl order n) (replacements decl.registrations all true decl.unchecked)
        [] (decl.value i) state.slots with
      | .ok (.ok value, slots) => .ok (.ok ⟨i, store (decl.storage i) value⟩, slots)
      | .ok (.error error, slots) => .ok (.error error, slots)
      | .error stuck => .error stuck

/-- `discard(capture_owner)` -/
def discardOwner (state : State n V E C) (i : Fin n) : State n V E C :=
  match state.owners i with
  | some _ =>
      { state with owners := Function.update state.owners i none, dropped := state.dropped ++ [i] }
  | none => state

/-- `let (slot_i, error) = match error { … };` -/
def step (decl : Declaration n V E C) (order : List (Fin n)) (state : State n V E C)
    (i : Fin n) : Except (Stuck n) (State n V E C) :=
  match state.error with
  | some error =>
      -- After an error nothing is initialized, and a capture owner that was not moved is dropped.
      let state := if (decl.registrations i).constructor then discardOwner state i else state
      .ok { state with slots := Function.update state.slots i none, error := some error }
  | none =>
      match initializeOnce decl order state i with
      | .error stuck => .error stuck
      | .ok (result, slots) =>
          let (slot, error) := split result
          -- A constructor's owner has been moved into its slot.
          .ok
            { slots := Function.update slots i slot
              owners :=
                if (decl.registrations i).constructor then Function.update state.owners i none
                else state.owners
              error := error
              ran := state.ran ++ [(i, error)]
              dropped := state.dropped }

/-- The initialization statements, in `order`. -/
def steps (decl : Declaration n V E C) (order : List (Fin n)) :
    List (Fin n) → State n V E C → Except (Stuck n) (State n V E C)
  | [], state => .ok state
  | i :: rest, state =>
      match step decl order state i with
      | .ok state => steps decl order rest state
      | .error stuck => .error stuck

/-- Dropping a slot drops the captures it owns. -/
def dropSlot : Option (Slot n V C) → List (Fin n)
  | some ⟨i, .factory _⟩ => [i]
  | _ => []

/-- `Result<SystasisContainer, E>`, a container being its slots by field. -/
inductive Built (n : Nat) (V E C : Type) where
  | ok (fields : Fin n → Slot n V C)
  | err (error : E)

/-- The result of `build()` with what happened on the way. -/
structure Report (n : Nat) (V E C : Type) where
  result : Built n V E C
  ran : List (Fin n × Option E)
  dropped : List (Fin n)

/-- The final `match error`: publish every slot, or discard the slots in reverse order. -/
def finish (order : List (Fin n)) (state : State n V E C) : Except (Stuck n) (Report n V E C) :=
  match state.error with
  | some error =>
      .ok
        { result := .err error
          ran := state.ran
          dropped := state.dropped ++ order.reverse.flatMap fun i => dropSlot (state.slots i) }
  | none =>
      if h : ∀ i, (state.slots i).isSome then
        .ok
          { result := .ok fun i => (state.slots i).get (h i)
            ran := state.ran
            dropped := state.dropped }
      else .error (.unreachable "successful build initialized every slot")

/-- Before the closure runs: no slot is bound and every constructor's captures have an owner. -/
def initial (decl : Declaration n V E C) : State n V E C where
  slots := fun _ => none
  owners := fun i => if (decl.registrations i).constructor then some (decl.captures i) else none
  error := none
  ran := []
  dropped := []

/-- The closure given to `Builder::new`. -/
def build (decl : Declaration n V E C) (order : List (Fin n)) :
    Except (Stuck n) (Report n V E C) :=
  match steps decl order order (initial decl) with
  | .ok state => finish order state
  | .error stuck => .error stuck

end Build
end Systasis
