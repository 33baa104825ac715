import Systasis.Build.Generated
import Systasis.Lib.Run

/-!
# TakeSlot — the synchronized consumable slot, one step at a time

Model of `src/storage/standard.rs` and of its twin `src/storage/spin.rs`, with the unchecked
accessors of `src/storage/unchecked.rs`.

A call of an accessor is cut into the steps another thread can observe between: the try-lock, the
check of the reservation flag, the payload access, the user's `Clone`, setting the flag, releasing
the guard, and returning.  Any number of clients interleave these steps.  The read-write lock is
external: it is a relation between the guards outstanding and the answer it gives, and every result
names what it assumes about that relation.
-/

namespace Systasis
namespace Storage

open Lib
open Build (AccessError)

/-! ## The lock -/

inductive Access where
  | read
  | write
  deriving DecidableEq, Repr

abbrev GuardId : Type := Nat

/-- What `try_read` or `try_write` may answer while the given guards are outstanding. -/
abbrev Lock : Type := Access → (GuardId → Option Access) → Bool → Prop

/-- A guard of the second access cannot be granted beside one of the first. -/
def Incompatible (held wanted : Access) : Prop :=
  held = .write ∨ wanted = .write

/-- `try_write` is granted only while no guard is held, `try_read` only while no write guard is. -/
structure Lock.Sound (lock : Lock) : Prop where
  write : ∀ held, lock .write held true → ∀ g, held g = none
  read : ∀ held, lock .read held true → ∀ g, held g ≠ some .write

/-- A try-lock is refused only while an incompatible guard is held. -/
def Lock.Obliging (lock : Lock) : Prop :=
  ∀ wanted held, lock wanted held false → ∃ g access, held g = some access ∧
    Incompatible access wanted

/-- A lock that grants whatever is compatible. -/
def Lock.standard : Lock
  | .write, held, granted => granted = true ↔ ∀ g, held g = none
  | .read, held, granted => granted = true ↔ ∀ g, held g ≠ some .write

theorem Lock.standard_sound : Lock.standard.Sound where
  write := fun _ hgranted => hgranted.1 rfl
  read := fun _ hgranted => hgranted.1 rfl

theorem Lock.standard_obliging : Lock.standard.Obliging := by
  intro wanted held hrefused
  cases wanted with
  | read =>
      have hsome : ¬∀ g, held g ≠ some .write := fun h => Bool.false_ne_true (hrefused.2 h)
      push Not at hsome
      rcases hsome with ⟨g, hg⟩
      exact ⟨g, .write, hg, .inl rfl⟩
  | write =>
      have hsome : ¬∀ g, held g = none := fun h => Bool.false_ne_true (hrefused.2 h)
      push Not at hsome
      rcases hsome with ⟨g, hg⟩
      rcases Option.ne_none_iff_exists'.1 hg with ⟨access, haccess⟩
      exact ⟨g, access, haccess, .inr rfl⟩

/-! ## Calls -/

/-- The accessors of a `TakeSlot`. -/
inductive Call where
  | tryResolve
  | tryResolveRef
  | tryResolveRefMut
  | tryResolveClone
  | tryReserveRef
  | resolveUnchecked
  | resolveRefUnchecked
  | resolveRefMutUnchecked
  deriving DecidableEq, Repr

/-- The checked accessor each call runs: an unchecked one only treats its error differently. -/
def Call.operation : Call → Call
  | .resolveUnchecked => .tryResolve
  | .resolveRefUnchecked => .tryResolveRef
  | .resolveRefMutUnchecked => .tryResolveRefMut
  | call => call

def Call.unchecked (call : Call) : Bool :=
  call.operation != call

/-- `self.read()` or `self.write()` -/
def Call.access (call : Call) : Access :=
  match call.operation with
  | .tryResolveRef | .tryResolveClone => .read
  | _ => .write

/-- The accessors that begin with `if *guard { return Err(..) }`. -/
def Call.checks (call : Call) : Bool :=
  match call.operation with
  | .tryResolve | .tryResolveRefMut => true
  | _ => false

/-- How the body of a checked accessor ends. -/
inductive Exit (V : Type) where
  | taken (value : V)
  | ref (guard : GuardId)
  | refMut (guard : GuardId)
  | cloned (value : V)
  | reference
  | failed (error : AccessError)
  /-- The user's `Clone` panicked. -/
  | unwound
  deriving DecidableEq, Repr

/-- What the caller observes. -/
inductive Reply (V : Type) where
  | ok (exit : Exit V)
  | error (error : AccessError)
  | panic
  deriving DecidableEq, Repr

/-- An unchecked accessor turns an error into its `unreachable!`. -/
def Call.reply {V : Type} (call : Call) : Exit V → Reply V
  | .failed error => if call.unchecked then .panic else .error error
  | .unwound => .panic
  | exit => .ok exit

/-! ## State -/

inductive Owner (Client : Type) where
  /-- A running call of the client. -/
  | call (client : Client)
  | user
  /-- The guard was forgotten: nothing will ever release it. -/
  | nobody
  deriving DecidableEq, Repr

/-- What wraps a lock guard. -/
inductive Kind where
  | bare
  | ref
  | refMut
  deriving DecidableEq, Repr

/-- An outstanding guard of the lock.  `seen` is what its holder has read from the flag. -/
structure Guard (Client : Type) where
  access : Access
  owner : Owner Client
  kind : Kind
  seen : Option Bool
  deriving DecidableEq, Repr

/-- Where a client stands in the accessor it is running. -/
inductive Phase (V : Type) where
  | idle
  | acquiring (call : Call)
  /-- The write guard is held and the flag not yet read. -/
  | locked (call : Call) (guard : GuardId)
  /-- The payload is about to be accessed. -/
  | entered (call : Call) (guard : GuardId)
  /-- `T::clone(&guard)` runs under its own `Ref`. -/
  | cloning (call : Call) (guard : GuardId)
  /-- The value was found present and `*guard = true` comes next. -/
  | reserving (call : Call) (guard : GuardId)
  /-- The result is known and the guard about to be dropped. -/
  | leaving (call : Call) (guard : GuardId) (exit : Exit V)
  | returning (call : Call) (exit : Exit V)
  deriving DecidableEq, Repr

structure State (Client V : Type) where
  held : GuardId → Option (Guard Client)
  /-- The identity of the next guard. -/
  next : GuardId
  reserved : Bool
  value : Option V
  phase : Client → Phase V
  /-- Live references returned by `try_reserve_ref`, which hold no guard. -/
  references : Nat

section Steps

variable {Client V : Type} [DecidableEq Client]

/-- `TakeSlot::new` -/
def new (value : V) : State Client V where
  held := fun _ => none
  next := 0
  reserved := false
  value := some value
  phase := fun _ => .idle
  references := 0

/-- The guards the lock knows about. -/
def State.accesses (s : State Client V) : GuardId → Option Access :=
  fun g => (s.held g).map Guard.access

def State.goto (s : State Client V) (c : Client) (phase : Phase V) : State Client V :=
  { s with phase := Function.update s.phase c phase }

def State.set (s : State Client V) (g : GuardId) (guard : Option (Guard Client)) :
    State Client V :=
  { s with held := Function.update s.held g guard }

/-- A granted guard. -/
def grant (c : Client) (call : Call) : Guard Client where
  access := call.access
  owner := .call c
  kind := .bare
  seen := none

/-- The statement after a granted try-lock: the flag check where there is one. -/
def afterGrant (call : Call) (g : GuardId) : Phase V :=
  if call.checks then .locked call g else .entered call g

/-- `if *guard { return Err(Error::ValueAccessContention); }` -/
def afterCheck (call : Call) (g : GuardId) (reserved : Bool) : Phase V :=
  if reserved then .leaving call g (.failed .valueAccessContention) else .entered call g

/-- The payload access: the value it leaves, what then wraps the guard, and what follows. -/
def payload (call : Call) (g : GuardId) : Option V → Option V × Kind × Phase V
  | none => (none, .bare, .leaving call g (.failed .valueAlreadyConsumed))
  | some value =>
      match call.operation with
      -- `.take()`, under a guard that is dropped at the end of the call.
      | .tryResolve => (none, .bare, .leaving call g (.taken value))
      -- The guard moves into the result.
      | .tryResolveRef => (some value, .ref, .returning call (.ref g))
      | .tryResolveRefMut => (some value, .refMut, .returning call (.refMut g))
      -- `try_resolve_ref` has succeeded, and its `Ref` lives while `Clone` runs.
      | .tryResolveClone => (some value, .ref, .cloning call g)
      -- `try_reserve_ref` does not look at the flag before it sets it.
      | _ => (some value, .bare, .reserving call g)

/-- Handing the result to the caller: guards become the user's, a reservation one more live
reference. -/
def deliver (s : State Client V) : Exit V → State Client V
  | .ref g | .refMut g =>
      s.set g ((s.held g).map fun guard => { guard with owner := .user })
  | .reference => { s with references := s.references + 1 }
  | _ => s

/-! ## Steps -/

inductive Label (Client V : Type) where
  | start (c : Client) (call : Call)
  | acquire (c : Client) (granted : Bool)
  | check (c : Client)
  | access (c : Client)
  /-- `none` when the user's `Clone` panics. -/
  | clone (c : Client) (result : Option V)
  | reserve (c : Client)
  | release (c : Client)
  | return (c : Client) (call : Call) (exit : Exit V)
  | map (g : GuardId)
  | drop (g : GuardId)
  | forget (g : GuardId)
  /-- A mutation through `DerefMut` of a `RefMut`. -/
  | mutate (g : GuardId) (f : V → V)
  /-- The last use of a reference returned by `try_reserve_ref`. -/
  | expire

/-- The client whose call takes the step. -/
def Label.client : Label Client V → Option Client
  | .start c _ | .acquire c _ | .check c | .access c | .clone c _ | .reserve c | .release c
  | .return c _ _ => some c
  | _ => none

inductive Step (lock : Lock) : State Client V → Label Client V → State Client V → Prop
  -- The steps of a call, in the order of its body.
  | start {s : State Client V} {c : Client} {call : Call} :
      s.phase c = .idle →
      Step lock s (.start c call) (s.goto c (.acquiring call))
  | refuse {s : State Client V} {c : Client} {call : Call} :
      s.phase c = .acquiring call →
      lock call.access s.accesses false →
      Step lock s (.acquire c false)
        (s.goto c (.returning call (.failed .valueAccessContention)))
  | grant {s : State Client V} {c : Client} {call : Call} :
      s.phase c = .acquiring call →
      lock call.access s.accesses true →
      Step lock s (.acquire c true)
        (({ s with next := s.next + 1 }.set s.next (some (grant c call))).goto c
          (afterGrant call s.next))
  | check {s : State Client V} {c : Client} {call : Call} {g : GuardId} {guard : Guard Client} :
      s.phase c = .locked call g →
      s.held g = some guard →
      Step lock s (.check c)
        ((s.set g (some { guard with seen := some s.reserved })).goto c
          (afterCheck call g s.reserved))
  | access {s : State Client V} {c : Client} {call : Call} {g : GuardId} {guard : Guard Client} :
      s.phase c = .entered call g →
      s.held g = some guard →
      Step lock s (.access c)
        (({ s with value := (payload call g s.value).1 }.set g
            (some { guard with kind := (payload call g s.value).2.1 })).goto c
          (payload call g s.value).2.2)
  | clone {s : State Client V} {c : Client} {call : Call} {g : GuardId} {result : Option V} :
      s.phase c = .cloning call g →
      Step lock s (.clone c result)
        (s.goto c (.leaving call g (result.elim .unwound .cloned)))
  | reserve {s : State Client V} {c : Client} {call : Call} {g : GuardId} :
      s.phase c = .reserving call g →
      Step lock s (.reserve c)
        ({ s with reserved := true }.goto c (.leaving call g .reference))
  | release {s : State Client V} {c : Client} {call : Call} {g : GuardId} {exit : Exit V} :
      s.phase c = .leaving call g exit →
      Step lock s (.release c) ((s.set g none).goto c (.returning call exit))
  | return {s : State Client V} {c : Client} {call : Call} {exit : Exit V} :
      s.phase c = .returning call exit →
      Step lock s (.return c call exit) ((deliver s exit).goto c .idle)
  -- What users do with what they were given.
  | map {s : State Client V} {g : GuardId} {guard : Guard Client} :
      s.held g = some guard → guard.owner = .user → guard.kind = .ref →
      Step lock s (.map g) s
  | drop {s : State Client V} {g : GuardId} {guard : Guard Client} :
      s.held g = some guard → guard.owner = .user →
      Step lock s (.drop g) (s.set g none)
  | forget {s : State Client V} {g : GuardId} {guard : Guard Client} :
      s.held g = some guard → guard.owner = .user →
      Step lock s (.forget g) (s.set g (some { guard with owner := .nobody }))
  | mutate {s : State Client V} {g : GuardId} {guard : Guard Client} {f : V → V} :
      s.held g = some guard → guard.owner = .user → guard.kind = .refMut →
      Step lock s (.mutate g f) { s with value := s.value.map f }
  | expire {s : State Client V} :
      0 < s.references →
      Step lock s .expire { s with references := s.references - 1 }

end Steps

end Storage
end Systasis
