import Systasis.Storage.Safety

/-!
# Local — the unsynchronized consumable slot

Model of `src/storage/local.rs`: a `RefCell` around the optional value.  The slot never crosses a
thread, so every accessor is one function of the slot, and a program is a list of operations.  A
guard is named by the number of borrows granted before it.
-/

namespace Systasis
namespace Storage

open Build (AccessError)

/-- What one thread does with a slot and with the guards it was given. -/
inductive Op (V : Type) where
  | tryResolve
  | tryResolveRef
  | tryResolveRefMut
  /-- `clone` is the user's `Clone`, which may panic. -/
  | tryResolveClone (clone : V → Option V)
  /-- A mutation through `DerefMut` of a `RefMut`. -/
  | write (g : GuardId) (f : V → V)
  | drop (g : GuardId)
  | forget (g : GuardId)

/-- What the thread observes.  A guard comes with the value it points at. -/
inductive Outcome (V : Type) where
  | taken (value : V)
  | ref (g : GuardId) (value : V)
  | refMut (g : GuardId) (value : V)
  | cloned (value : V)
  | failed (error : AccessError)
  | unwound
  | done
  deriving DecidableEq, Repr

/-- `LocalTakeSlot`, with the guards its user still holds.  `borrow` is the flag of the `RefCell`:
the number of shared borrows, or -1 under an exclusive one. -/
structure LocalTakeSlot (V : Type) where
  borrow : Int
  value : Option V
  guards : GuardId → Option Access
  /-- The number of borrows granted so far. -/
  next : GuardId

namespace LocalTakeSlot

variable {V : Type}

/-- `LocalTakeSlot::new` -/
def new (value : V) : LocalTakeSlot V where
  borrow := 0
  value := some value
  guards := fun _ => none
  next := 0

/-! ## The `RefCell` -/

/-- `RefCell::try_borrow` -/
def tryBorrow (l : LocalTakeSlot V) : Option (LocalTakeSlot V) :=
  if 0 ≤ l.borrow then some { l with borrow := l.borrow + 1, next := l.next + 1 } else none

/-- `RefCell::try_borrow_mut` -/
def tryBorrowMut (l : LocalTakeSlot V) : Option (LocalTakeSlot V) :=
  if l.borrow = 0 then some { l with borrow := -1, next := l.next + 1 } else none

/-- Dropping a `Ref` or a `RefMut` of the cell. -/
def release (access : Access) (l : LocalTakeSlot V) : LocalTakeSlot V :=
  match access with
  | .read => { l with borrow := l.borrow - 1 }
  | .write => { l with borrow := l.borrow + 1 }

/-- Handing a guard to the user, or taking it back. -/
def hold (g : GuardId) (access : Option Access) (l : LocalTakeSlot V) : LocalTakeSlot V :=
  { l with guards := Function.update l.guards g access }

/-! ## The accessors -/

def tryResolve (l : LocalTakeSlot V) : Outcome V × LocalTakeSlot V :=
  match l.tryBorrowMut with
  | none => (.failed .valueAccessContention, l)
  | some held =>
      -- The guard is a temporary: it is dropped whether or not a value was taken.
      match held.value with
      | none => (.failed .valueAlreadyConsumed, held.release .write)
      | some value => (.taken value, { held with value := none }.release .write)

def tryResolveRef (l : LocalTakeSlot V) : Outcome V × LocalTakeSlot V :=
  match l.tryBorrow with
  | none => (.failed .valueAccessContention, l)
  | some held =>
      -- `Ref::filter_map` gives the guard back on failure, and `map_err` drops it.
      match held.value with
      | none => (.failed .valueAlreadyConsumed, held.release .read)
      | some value => (.ref l.next value, held.hold l.next (some .read))

def tryResolveRefMut (l : LocalTakeSlot V) : Outcome V × LocalTakeSlot V :=
  match l.tryBorrowMut with
  | none => (.failed .valueAccessContention, l)
  | some held =>
      match held.value with
      | none => (.failed .valueAlreadyConsumed, held.release .write)
      | some value => (.refMut l.next value, held.hold l.next (some .write))

/-- The guard is dropped after `T::clone`, also when it unwinds. -/
def tryResolveClone (clone : V → Option V) (l : LocalTakeSlot V) : Outcome V × LocalTakeSlot V :=
  match l.tryResolveRef with
  | (.ref g value, held) =>
      ((clone value).elim .unwound .cloned, (held.hold g none).release .read)
  | failure => failure

/-! ## What they answer -/

section Answers

variable {l : LocalTakeSlot V} {v : V}

theorem tryResolve_contended (hborrow : l.borrow ≠ 0) :
    l.tryResolve = (.failed .valueAccessContention, l) := by
  simp [tryResolve, tryBorrowMut, hborrow]

theorem tryResolve_consumed (hborrow : l.borrow = 0) (hvalue : l.value = none) :
    l.tryResolve = (.failed .valueAlreadyConsumed, { l with next := l.next + 1 }) := by
  simp [tryResolve, tryBorrowMut, release, hborrow, hvalue]

theorem tryResolve_taken (hborrow : l.borrow = 0) (hvalue : l.value = some v) :
    l.tryResolve = (.taken v, { l with value := none, next := l.next + 1 }) := by
  simp [tryResolve, tryBorrowMut, release, hborrow, hvalue]

theorem tryResolveRef_contended (hborrow : ¬0 ≤ l.borrow) :
    l.tryResolveRef = (.failed .valueAccessContention, l) := by
  simp [tryResolveRef, tryBorrow, hborrow]

theorem tryResolveRef_consumed (hborrow : 0 ≤ l.borrow) (hvalue : l.value = none) :
    l.tryResolveRef = (.failed .valueAlreadyConsumed, { l with next := l.next + 1 }) := by
  simp [tryResolveRef, tryBorrow, release, hborrow, hvalue]

theorem tryResolveRef_ref (hborrow : 0 ≤ l.borrow) (hvalue : l.value = some v) :
    l.tryResolveRef =
      (.ref l.next v,
        { l with
          borrow := l.borrow + 1
          guards := Function.update l.guards l.next (some .read)
          next := l.next + 1 }) := by
  simp [tryResolveRef, tryBorrow, hold, hborrow, hvalue]

theorem tryResolveRefMut_contended (hborrow : l.borrow ≠ 0) :
    l.tryResolveRefMut = (.failed .valueAccessContention, l) := by
  simp [tryResolveRefMut, tryBorrowMut, hborrow]

theorem tryResolveRefMut_consumed (hborrow : l.borrow = 0) (hvalue : l.value = none) :
    l.tryResolveRefMut = (.failed .valueAlreadyConsumed, { l with next := l.next + 1 }) := by
  simp [tryResolveRefMut, tryBorrowMut, release, hborrow, hvalue]

theorem tryResolveRefMut_refMut (hborrow : l.borrow = 0) (hvalue : l.value = some v) :
    l.tryResolveRefMut =
      (.refMut l.next v,
        { l with
          borrow := -1
          guards := Function.update l.guards l.next (some .write)
          next := l.next + 1 }) := by
  simp [tryResolveRefMut, tryBorrowMut, hold, hborrow, hvalue]

variable (clone : V → Option V)

theorem tryResolveClone_contended (hborrow : ¬0 ≤ l.borrow) :
    l.tryResolveClone clone = (.failed .valueAccessContention, l) := by
  rw [tryResolveClone, tryResolveRef_contended hborrow]

theorem tryResolveClone_consumed (hborrow : 0 ≤ l.borrow) (hvalue : l.value = none) :
    l.tryResolveClone clone =
      (.failed .valueAlreadyConsumed, { l with next := l.next + 1 }) := by
  rw [tryResolveClone, tryResolveRef_consumed hborrow hvalue]

/-- The temporary guard leaves no trace but its number. -/
theorem tryResolveClone_cloned (hborrow : 0 ≤ l.borrow) (hvalue : l.value = some v)
    (hfree : l.guards l.next = none) :
    l.tryResolveClone clone =
      ((clone v).elim .unwound .cloned, { l with next := l.next + 1 }) := by
  have hguards : Function.update l.guards l.next none = l.guards := by
    rw [← hfree, Function.update_eq_self]
  rw [tryResolveClone, tryResolveRef_ref hborrow hvalue]
  simp [hold, release, hguards]

end Answers

/-! ## Programs -/

/-- One operation, defined when the guard it names is one the user holds, and exclusive where it
is written through. -/
def step (l : LocalTakeSlot V) : Op V → Option (Outcome V × LocalTakeSlot V)
  | .tryResolve => some l.tryResolve
  | .tryResolveRef => some l.tryResolveRef
  | .tryResolveRefMut => some l.tryResolveRefMut
  | .tryResolveClone clone => some (l.tryResolveClone clone)
  | .write g f =>
      match l.guards g with
      | some .write => some (.done, { l with value := l.value.map f })
      | _ => none
  | .drop g => (l.guards g).map fun access => (.done, (l.hold g none).release access)
  -- Nothing runs: the flag keeps the borrow for good.
  | .forget g => (l.guards g).map fun _ => (.done, l.hold g none)

/-- The user holds what the operation uses. -/
def Holds (l : LocalTakeSlot V) : Op V → Prop
  | .write g _ => l.guards g = some .write
  | .drop g | .forget g => l.guards g ≠ none
  | .tryResolve | .tryResolveRef | .tryResolveRefMut | .tryResolveClone _ => True

theorem step_isSome_iff {l : LocalTakeSlot V} {op : Op V} : (l.step op).isSome ↔ l.Holds op := by
  cases op with
  | tryResolve => simp [step, Holds]
  | tryResolveRef => simp [step, Holds]
  | tryResolveRefMut => simp [step, Holds]
  | tryResolveClone clone => simp [step, Holds]
  | write g f =>
      cases hg : l.guards g with
      | none => simp [step, Holds, hg]
      | some access => cases access <;> simp [step, Holds, hg]
  | drop g => simp [step, Holds, Option.isSome_iff_ne_none]
  | forget g => simp [step, Holds, Option.isSome_iff_ne_none]

def run (l : LocalTakeSlot V) : List (Op V) → Option (List (Outcome V) × LocalTakeSlot V)
  | [] => some ([], l)
  | op :: ops =>
      match l.step op with
      | none => none
      | some (outcome, next) => (next.run ops).map fun rest => (outcome :: rest.1, rest.2)

/-- Readers exclude taking and writing until they are dropped, and a forgotten writer excludes
everything. -/
example :
    ((new 7).run [.tryResolveRef, .tryResolveRef, .tryResolve, .drop 0, .drop 1, .tryResolveRefMut,
        .write 2 (· + 1), .forget 2, .tryResolveClone some]).map Prod.fst =
      some [.ref 0 7, .ref 1 7, .failed .valueAccessContention, .done, .done, .refMut 2 7, .done,
        .done, .failed .valueAccessContention] := by
  decide

end LocalTakeSlot

end Storage
end Systasis
