import Mathlib.Algebra.BigOperators.Pi
import Mathlib.Algebra.Order.BigOperators.Group.Finset
import Mathlib.Logic.Relation
import Systasis.Storage.Local

/-!
# Sequential — one thread on a `TakeSlot` is one thread on a `LocalTakeSlot`

A single thread runs its calls one after the other, each from its first step to its return.  The
flag of the `RefCell` then counts what the guards of the read-write lock weigh, and the two slots
answer every operation alike.
-/

namespace Systasis
namespace Storage

open Lib
open Build (AccessError)

variable {V : Type}

/-! ## One thread on a `TakeSlot` -/

/-- The accessor an operation calls. -/
def Op.call : Op V → Option Call
  | .tryResolve => some .tryResolve
  | .tryResolveRef => some .tryResolveRef
  | .tryResolveRefMut => some .tryResolveRefMut
  | .tryResolveClone _ => some .tryResolveClone
  | .write _ _ | .drop _ | .forget _ => none

/-- What the user's `Clone` answers when the operation runs it on the stored value. -/
def Op.Clones (op : Op V) (value : Option V) (result : Option V) : Prop :=
  ∃ clone v, op = .tryResolveClone clone ∧ value = some v ∧ result = clone v

/-- A step between the start of a call and its return. -/
inductive Proceeds (op : Op V) : State Unit V → State Unit V → Prop
  | acquire {s t : State Unit V} {granted : Bool} :
      Step Lock.standard s (.acquire () granted) t → Proceeds op s t
  | check {s t : State Unit V} : Step Lock.standard s (.check ()) t → Proceeds op s t
  | access {s t : State Unit V} : Step Lock.standard s (.access ()) t → Proceeds op s t
  | clone {s t : State Unit V} {result : Option V} :
      op.Clones s.value result → Step Lock.standard s (.clone () result) t → Proceeds op s t
  | reserve {s t : State Unit V} : Step Lock.standard s (.reserve ()) t → Proceeds op s t
  | release {s t : State Unit V} : Step Lock.standard s (.release ()) t → Proceeds op s t

/-- What the caller finds in a result. -/
def State.outcome (s : State Unit V) : Exit V → Option (Outcome V)
  | .taken value => some (.taken value)
  | .ref g => s.value.map (.ref g)
  | .refMut g => s.value.map (.refMut g)
  | .cloned value => some (.cloned value)
  | .reference => none
  | .failed error => some (.failed error)
  | .unwound => some .unwound

theorem State.outcome_ref {s : State Unit V} {v : V} (g : GuardId) (h : s.value = some v) :
    s.outcome (.ref g) = some (.ref g v) := by
  rw [State.outcome, h, Option.map_some]

theorem State.outcome_refMut {s : State Unit V} {v : V} (g : GuardId) (h : s.value = some v) :
    s.outcome (.refMut g) = some (.refMut g v) := by
  rw [State.outcome, h, Option.map_some]

/-- One operation of the thread, run from beginning to end. -/
inductive Serves : State Unit V → Op V → Outcome V → State Unit V → Prop
  | call {s m n t : State Unit V} {op : Op V} {call : Call} {exit : Exit V}
      {outcome : Outcome V} :
      op.call = some call →
      Step Lock.standard s (.start () call) m →
      Relation.ReflTransGen (Proceeds op) m n →
      Step Lock.standard n (.return () call exit) t →
      t.outcome exit = some outcome →
      Serves s op outcome t
  | write {s t : State Unit V} {g : GuardId} {f : V → V} :
      Step Lock.standard s (.mutate g f) t → Serves s (.write g f) .done t
  | drop {s t : State Unit V} {g : GuardId} :
      Step Lock.standard s (.drop g) t → Serves s (.drop g) .done t
  | forget {s t : State Unit V} {g : GuardId} :
      Step Lock.standard s (.forget g) t → Serves s (.forget g) .done t

/-- A program of the thread, with what it observes at each operation. -/
inductive ServesAll : State Unit V → List (Op V) → List (Outcome V) → State Unit V → Prop
  | nil (s : State Unit V) : ServesAll s [] [] s
  | cons {s m t : State Unit V} {op : Op V} {ops : List (Op V)} {outcome : Outcome V}
      {outcomes : List (Outcome V)} :
      Serves s op outcome m → ServesAll m ops outcomes t →
      ServesAll s (op :: ops) (outcome :: outcomes) t

/-! ## Its runs -/

theorem Proceeds.step {op : Op V} {s t : State Unit V} (h : Proceeds op s t) :
    ∃ l, Step Lock.standard s l t := by
  cases h with
  | acquire h => exact ⟨_, h⟩
  | check h => exact ⟨_, h⟩
  | access h => exact ⟨_, h⟩
  | clone _ h => exact ⟨_, h⟩
  | reserve h => exact ⟨_, h⟩
  | release h => exact ⟨_, h⟩

theorem Proceeds.run {op : Op V} {s t : State Unit V}
    (h : Relation.ReflTransGen (Proceeds op) s t) :
    ∃ trace, Run (Step Lock.standard) s trace t := by
  induction h with
  | refl => exact ⟨[], .nil s⟩
  | tail _ hlast ih =>
      rcases ih with ⟨trace, hrun⟩
      rcases hlast.step with ⟨l, hstep⟩
      exact ⟨_, hrun.snoc hstep⟩

/-- An operation of the thread is a run of the interleaved slot. -/
theorem Serves.run {s t : State Unit V} {op : Op V} {outcome : Outcome V}
    (h : Serves s op outcome t) : ∃ trace, Run (Step Lock.standard) s trace t := by
  cases h with
  | call _ hstart hmid hreturn _ =>
      rcases Proceeds.run hmid with ⟨trace, hrun⟩
      exact ⟨_, (((Run.nil s).snoc hstart).append hrun).snoc hreturn⟩
  | write hstep => exact ⟨_, (Run.nil s).snoc hstep⟩
  | drop hstep => exact ⟨_, (Run.nil s).snoc hstep⟩
  | forget hstep => exact ⟨_, (Run.nil s).snoc hstep⟩

theorem Serves.inv {s t : State Unit V} {op : Op V} {outcome : Outcome V}
    (h : Serves s op outcome t) (hs : Inv none s) : Inv none t := by
  rcases h.run with ⟨trace, hrun⟩
  exact hs.run Lock.standard_sound hrun

/-! ## Determinism -/

/-- The lock gives one answer. -/
theorem Lock.standard_unique {access : Access} {held : GuardId → Option Access}
    {granted granted' : Bool} (h : Lock.standard access held granted)
    (h' : Lock.standard access held granted') : granted = granted' := by
  cases access <;> exact Bool.eq_iff_iff.2 (h.trans h'.symm)

/-- Where a call goes from each of its positions. -/
def Phase.Next (op : Op V) (s t : State Unit V) : Phase V → Prop
  | .acquiring call =>
      (Lock.standard call.access s.accesses false ∧
          t = s.goto () (.returning call (.failed .valueAccessContention))) ∨
        (Lock.standard call.access s.accesses true ∧
          t = ({ s with next := s.next + 1 }.set s.next (some (grant () call))).goto ()
            (afterGrant call s.next))
  | .locked call g =>
      ∃ guard, s.held g = some guard ∧
        t = (s.set g (some { guard with seen := some s.reserved })).goto ()
          (afterCheck call g s.reserved)
  | .entered call g =>
      ∃ guard, s.held g = some guard ∧
        t = ({ s with value := (payload call g s.value).1 }.set g
          (some { guard with kind := (payload call g s.value).2.1 })).goto ()
            (payload call g s.value).2.2
  | .cloning call g =>
      ∃ result, op.Clones s.value result ∧
        t = s.goto () (.leaving call g (result.elim .unwound .cloned))
  | .reserving call g => t = { s with reserved := true }.goto () (.leaving call g .reference)
  | .leaving call g exit => t = (s.set g none).goto () (.returning call exit)
  | .idle | .returning _ _ => False

theorem Proceeds.next {op : Op V} {s t : State Unit V} (h : Proceeds op s t) :
    (s.phase ()).Next op s t := by
  cases h with
  | acquire h =>
      cases h with
      | refuse hphase hlock =>
          rw [hphase]
          exact .inl ⟨hlock, rfl⟩
      | grant hphase hlock =>
          rw [hphase]
          exact .inr ⟨hlock, rfl⟩
  | check h =>
      cases h with
      | check hphase hheld =>
          rw [hphase]
          exact ⟨_, hheld, rfl⟩
  | access h =>
      cases h with
      | access hphase hheld =>
          rw [hphase]
          exact ⟨_, hheld, rfl⟩
  | clone hclones h =>
      cases h with
      | clone hphase =>
          rw [hphase]
          exact ⟨_, hclones, rfl⟩
  | reserve h =>
      cases h with
      | reserve hphase =>
          rw [hphase]
          exact rfl
  | release h =>
      cases h with
      | release hphase =>
          rw [hphase]
          exact rfl

theorem Op.Clones.unique {op : Op V} {value result result' : Option V}
    (h : op.Clones value result) (h' : op.Clones value result') : result = result' := by
  rcases h with ⟨clone, v, rfl, rfl, rfl⟩
  rcases h' with ⟨_, _, hop, hvalue, rfl⟩
  cases hop
  cases hvalue
  rfl

/-- A call has one next step. -/
theorem Proceeds.rightUnique (op : Op V) : Relator.RightUnique (Proceeds op) := by
  intro s t t' h h'
  have hnext := h.next
  have hnext' := h'.next
  cases hphase : s.phase () with
  | idle =>
      rw [hphase] at hnext
      exact hnext.elim
  | acquiring call =>
      rw [hphase] at hnext hnext'
      rcases hnext with ⟨hlock, rfl⟩ | ⟨hlock, rfl⟩ <;>
        rcases hnext' with ⟨hlock', rfl⟩ | ⟨hlock', rfl⟩
      · rfl
      · cases Lock.standard_unique hlock hlock'
      · cases Lock.standard_unique hlock hlock'
      · rfl
  | locked call g =>
      rw [hphase] at hnext hnext'
      rcases hnext with ⟨guard, hheld, rfl⟩
      rcases hnext' with ⟨guard', hheld', rfl⟩
      cases hheld.symm.trans hheld'
      rfl
  | entered call g =>
      rw [hphase] at hnext hnext'
      rcases hnext with ⟨guard, hheld, rfl⟩
      rcases hnext' with ⟨guard', hheld', rfl⟩
      cases hheld.symm.trans hheld'
      rfl
  | cloning call g =>
      rw [hphase] at hnext hnext'
      rcases hnext with ⟨result, hclones, rfl⟩
      rcases hnext' with ⟨result', hclones', rfl⟩
      rw [hclones.unique hclones']
  | reserving call g =>
      rw [hphase] at hnext hnext'
      exact hnext.trans hnext'.symm
  | leaving call g exit =>
      rw [hphase] at hnext hnext'
      exact hnext.trans hnext'.symm
  | returning call exit =>
      rw [hphase] at hnext
      exact hnext.elim

/-- A call that is about to return takes no other step first. -/
theorem Proceeds.returning {op : Op V} {s t : State Unit V} {call : Call} {exit : Exit V}
    (hphase : s.phase () = .returning call exit) (h : Relation.ReflTransGen (Proceeds op) s t) :
    t = s := by
  rcases Relation.ReflTransGen.cases_head h with rfl | ⟨m, hfirst, _⟩
  · rfl
  · have hnext := hfirst.next
    rw [hphase] at hnext
    exact hnext.elim

/-- An operation has one outcome and leaves one state. -/
theorem Serves.unique {s t t' : State Unit V} {op : Op V} {outcome outcome' : Outcome V}
    (h : Serves s op outcome t) (h' : Serves s op outcome' t') : outcome = outcome' ∧ t = t' := by
  cases h with
  | @call m n _ _ call exit _ hcall hstart hmid hreturn houtcome =>
      cases h' with
      | @call m' n' _ _ call' exit' _ hcall' hstart' hmid' hreturn' houtcome' =>
          cases hcall.symm.trans hcall'
          cases hstart
          cases hstart'
          -- Both runs stop where the result is ready, so neither goes past the other.
          have hn : n = n' := by
            cases hreturn with
            | «return» hphase =>
                cases hreturn' with
                | «return» hphase' =>
                    rcases hmid.total_of_right_unique (Proceeds.rightUnique op) hmid' with
                      hlater | hlater
                    · exact (Proceeds.returning hphase hlater).symm
                    · exact Proceeds.returning hphase' hlater
          subst hn
          cases hreturn with
          | «return» hphase =>
              cases hreturn' with
              | «return» hphase' =>
                  cases hphase.symm.trans hphase'
                  exact ⟨Option.some.inj (houtcome.symm.trans houtcome'), rfl⟩
      | write _ => cases hcall
      | drop _ => cases hcall
      | forget _ => cases hcall
  | write h =>
      cases h' with
      | call hcall _ _ _ _ => cases hcall
      | write h' =>
          cases h
          cases h'
          exact ⟨rfl, rfl⟩
  | drop h =>
      cases h' with
      | call hcall _ _ _ _ => cases hcall
      | drop h' =>
          cases h
          cases h'
          exact ⟨rfl, rfl⟩
  | forget h =>
      cases h' with
      | call hcall _ _ _ _ => cases hcall
      | forget h' =>
          cases h with
          | forget hheld _ =>
              cases h' with
              | forget hheld' _ =>
                  cases hheld.symm.trans hheld'
                  exact ⟨rfl, rfl⟩

/-! ## The flag of the `RefCell` -/

/-- What a guard adds to the flag. -/
def weight : Option Access → Int
  | none => 0
  | some .read => 1
  | some .write => -1

/-- The flag under the first `n` guards. -/
def borrowed (accesses : GuardId → Option Access) (n : Nat) : Int :=
  ∑ g ∈ Finset.range n, weight (accesses g)

/-- The guards numbered so far, none of them beside a writer. -/
structure Numbered (accesses : GuardId → Option Access) (n : Nat) : Prop where
  fresh : ∀ g, n ≤ g → accesses g = none
  exclusive : ∀ g g', accesses g = some .write → accesses g' ≠ none → g = g'

section Flag

variable {accesses : GuardId → Option Access} {n : Nat}

theorem borrowed_update {g : GuardId} (hlt : g < n) (x : Option Access) :
    borrowed (Function.update accesses g x) n =
      borrowed accesses n - weight (accesses g) + weight x := by
  have hmem : g ∈ Finset.range n := Finset.mem_range.2 hlt
  have hsplit := Finset.sum_erase_add (Finset.range n) (fun g => weight (accesses g)) hmem
  have hrest : ∑ g' ∈ (Finset.range n).erase g, weight (Function.update accesses g x g') =
      ∑ g' ∈ (Finset.range n).erase g, weight (accesses g') := by
    apply Finset.sum_congr rfl
    intro g' hg'
    rw [Function.update_of_ne (Finset.ne_of_mem_erase hg')]
  calc
    borrowed (Function.update accesses g x) n
        = ∑ g' ∈ (Finset.range n).erase g, weight (Function.update accesses g x g') +
            weight (Function.update accesses g x g) :=
          (Finset.sum_erase_add _ _ hmem).symm
    _ = ∑ g' ∈ (Finset.range n).erase g, weight (accesses g') + weight x := by
          rw [hrest, Function.update_self]
    _ = borrowed accesses n - weight (accesses g) + weight x := by
          rw [borrowed, ← hsplit, add_sub_cancel_right]

/-- Numbers not given out yet add nothing. -/
theorem borrowed_of_le {n' : Nat} (hle : n ≤ n') (hfresh : ∀ g, n ≤ g → accesses g = none) :
    borrowed accesses n' = borrowed accesses n := by
  symm
  apply Finset.sum_subset (Finset.range_mono hle)
  intro g _ hg
  rw [hfresh g (not_lt.1 fun hlt => hg (Finset.mem_range.2 hlt))]
  rfl

theorem Numbered.borrowed_write (h : Numbered accesses n) {g : GuardId}
    (hg : accesses g = some .write) : borrowed accesses n = -1 := by
  have hlt : g < n := by
    by_contra hnot
    rw [h.fresh g (not_lt.1 hnot)] at hg
    cases hg
  calc
    borrowed accesses n
        = weight (accesses g) := by
          apply Finset.sum_eq_single_of_mem g (Finset.mem_range.2 hlt)
          intro g' _ hne
          by_cases hnone : accesses g' = none
          · rw [hnone]
            rfl
          · exact absurd (h.exclusive g g' hg hnone).symm hne
    _ = -1 := by rw [hg]; rfl

theorem weight_nonneg {access : Option Access} (h : access ≠ some .write) : 0 ≤ weight access := by
  cases access with
  | none => exact le_rfl
  | some access =>
      cases access with
      | read => exact Int.one_nonneg
      | write => exact absurd rfl h

/-- `flag >= 0` is what `try_read` asks of the lock. -/
theorem Numbered.read_iff (h : Numbered accesses n) :
    (∀ g, accesses g ≠ some .write) ↔ 0 ≤ borrowed accesses n := by
  constructor
  · intro hread
    exact Finset.sum_nonneg fun g _ => weight_nonneg (hread g)
  · intro hflag g hwrite
    rw [h.borrowed_write hwrite] at hflag
    omega

/-- `flag == 0` is what `try_write` asks of the lock. -/
theorem Numbered.write_iff (h : Numbered accesses n) :
    (∀ g, accesses g = none) ↔ borrowed accesses n = 0 := by
  constructor
  · intro hnone
    apply Finset.sum_eq_zero
    intro g _
    rw [hnone g]
    rfl
  · intro hflag g
    have hread : ∀ g, accesses g ≠ some .write := h.read_iff.2 (le_of_eq hflag.symm)
    by_cases hlt : g < n
    · -- Nonnegative weights that add up to nothing are all zero.
      have hzero := (Finset.sum_eq_zero_iff_of_nonneg fun g _ => weight_nonneg (hread g)).1 hflag g
        (Finset.mem_range.2 hlt)
      cases hg : accesses g with
      | none => rfl
      | some access =>
          rw [hg] at hzero
          cases access <;> cases hzero
    · exact h.fresh g (not_lt.1 hlt)

end Flag

/-! ## The two slots -/

/-- A guard in its user's hands. -/
def userGuard (access : Access) : Guard Unit where
  access := access
  owner := .user
  kind := match access with
    | .read => .ref
    | .write => .refMut
  seen := match access with
    | .read => none
    | .write => some false

/-- What the user holds of a guard. -/
def userAccess (guard : Option (Guard Unit)) : Option Access :=
  (guard.filter fun guard => guard.owner = .user).map Guard.access

/-- A `TakeSlot` between two operations of the thread, and the `LocalTakeSlot` it stands for. -/
structure Agrees (l : LocalTakeSlot V) (s : State Unit V) : Prop where
  inv : Inv none s
  idle : s.phase () = .idle
  reserved : s.reserved = false
  value : s.value = l.value
  next : s.next = l.next
  borrow : l.borrow = borrowed s.accesses s.next
  guards : ∀ g, l.guards g = userAccess (s.held g)
  shape : ∀ g guard, s.held g = some guard → guard.owner = .user → guard = userGuard guard.access

namespace Agrees

variable {l : LocalTakeSlot V} {s : State Unit V}

theorem new (v : V) : Agrees (LocalTakeSlot.new v) (Storage.new v) where
  inv := .new v
  idle := rfl
  reserved := rfl
  value := rfl
  next := rfl
  borrow := rfl
  guards := fun _ => rfl
  shape := nofun

theorem numbered (h : Agrees l s) : Numbered s.accesses s.next where
  fresh := fun g hle => by rw [State.accesses, h.inv.fresh g hle]; rfl
  exclusive := by
    intro g g' hg hg'
    rcases Option.map_eq_some_iff.1 hg with ⟨guard, hheld, hwrite⟩
    rcases Option.ne_none_iff_exists'.1 hg' with ⟨access, haccess⟩
    rcases Option.map_eq_some_iff.1 haccess with ⟨guard', hheld', _⟩
    exact h.inv.exclusive g g' guard guard' hheld hheld' hwrite

theorem free (h : Agrees l s) : l.guards l.next = none := by
  rw [h.guards, ← h.next, h.inv.fresh s.next le_rfl]
  rfl

/-- `try_read` and `try_borrow` answer alike. -/
theorem lock_read (h : Agrees l s) (granted : Bool) :
    Lock.standard .read s.accesses granted ↔ (granted = true ↔ 0 ≤ l.borrow) := by
  rw [h.borrow, ← h.numbered.read_iff]
  exact Iff.rfl

/-- `try_write` and `try_borrow_mut` answer alike. -/
theorem lock_write (h : Agrees l s) (granted : Bool) :
    Lock.standard .write s.accesses granted ↔ (granted = true ↔ l.borrow = 0) := by
  rw [h.borrow, ← h.numbered.write_iff]
  exact Iff.rfl

/-- Between two operations at most one guard changes hands, and at most one number is given out. -/
theorem update (h : Agrees l s) {t : State Unit V} {g : GuardId} {x : Option (Guard Unit)}
    (hinv : Inv none t) (hidle : t.phase () = .idle) (hreserved : t.reserved = false)
    (hheld : t.held = Function.update s.held g x) (hle : s.next ≤ t.next) (hlt : g < t.next)
    (hshape : ∀ guard, x = some guard → guard.owner = .user → guard = userGuard guard.access) :
    Agrees
      { borrow := l.borrow - weight (s.accesses g) + weight (x.map Guard.access)
        value := t.value
        guards := Function.update l.guards g (userAccess x)
        next := t.next } t where
  inv := hinv
  idle := hidle
  reserved := hreserved
  value := rfl
  next := rfl
  borrow := by
    have haccesses : t.accesses = Function.update s.accesses g (x.map Guard.access) := by
      funext g'
      rw [State.accesses, hheld]
      by_cases hg : g' = g
      · rw [hg, Function.update_self, Function.update_self]
      · rw [Function.update_of_ne hg, Function.update_of_ne hg, State.accesses]
    rw [haccesses, borrowed_update hlt, borrowed_of_le hle h.numbered.fresh, h.borrow]
  guards := by
    intro g'
    change Function.update l.guards g (userAccess x) g' = userAccess (t.held g')
    rw [hheld]
    by_cases hg : g' = g
    · rw [hg, Function.update_self, Function.update_self]
    · rw [Function.update_of_ne hg, Function.update_of_ne hg, h.guards]
  shape := by
    intro g' guard hguard
    rw [hheld] at hguard
    by_cases hg : g' = g
    · rw [hg, Function.update_self] at hguard
      exact hshape guard hguard
    · rw [Function.update_of_ne hg] at hguard
      exact h.shape g' guard hguard

end Agrees

/-! ## Calls of the thread -/

section Calls

variable {l : LocalTakeSlot V} {s m t : State Unit V} {op : Op V} {call : Call}

/-- The call has its guard and is about to access the payload. -/
structure Entered (s : State Unit V) (op : Op V) (call : Call) (m : State Unit V) : Prop where
  reached : ∃ n, Step Lock.standard s (.start () call) n ∧
    Relation.ReflTransGen (Proceeds op) n m
  phase : m.phase () = .entered call s.next
  next : m.next = s.next + 1
  value : m.value = s.value
  reserved : m.reserved = s.reserved
  held : m.held = Function.update s.held s.next
    (some ⟨call.access, .call (), .bare, if call.checks then some false else none⟩)

/-- The call is over, and its guard became `x`. -/
structure Leaves (s : State Unit V) (x : Option (Guard Unit)) (value : Option V)
    (t : State Unit V) : Prop where
  idle : t.phase () = .idle
  next : t.next = s.next + 1
  value : t.value = value
  reserved : t.reserved = s.reserved
  held : t.held = Function.update s.held s.next x

/-- A refused call changes nothing. -/
theorem Agrees.contends (h : Agrees l s) (hcall : op.call = some call)
    (hlock : Lock.standard call.access s.accesses false) :
    ∃ t, Serves s op (.failed .valueAccessContention) t ∧ Agrees l t := by
  have hstart : Step Lock.standard s (.start () call) (s.goto () (.acquiring call)) :=
    .start h.idle
  have hrefuse : Step Lock.standard (s.goto () (.acquiring call)) (.acquire () false)
      ((s.goto () (.acquiring call)).goto ()
        (.returning call (.failed .valueAccessContention))) :=
    .refuse (by simp [State.goto]) hlock
  have hreturn : Step Lock.standard
      ((s.goto () (.acquiring call)).goto () (.returning call (.failed .valueAccessContention)))
      (.return () call (.failed .valueAccessContention)) _ :=
    .return (by simp [State.goto])
  have hserves : Serves s op (.failed .valueAccessContention) _ :=
    .call hcall hstart (.single (.acquire hrefuse)) hreturn rfl
  refine ⟨_, hserves, hserves.inv h.inv, ?_, h.reserved, h.value, h.next, h.borrow, h.guards,
    h.shape⟩
  simp [State.goto]

/-- A granted call reaches the payload: without a reservation the check lets it through. -/
theorem Agrees.enters (h : Agrees l s) (op : Op V)
    (hlock : Lock.standard call.access s.accesses true) : ∃ m, Entered s op call m := by
  have hstart : Step Lock.standard s (.start () call) (s.goto () (.acquiring call)) :=
    .start h.idle
  have hgrant : Step Lock.standard (s.goto () (.acquiring call)) (.acquire () true) _ :=
    .grant (by simp [State.goto]) hlock
  by_cases hchecks : call.checks = true
  · let n := ({ s.goto () (.acquiring call) with next := s.next + 1 }.set s.next
      (some (grant () call))).goto () (afterGrant call s.next)
    have hphase : n.phase () = .locked call s.next := by
      simp [n, State.goto, afterGrant, hchecks]
    have hheld : n.held s.next = some (grant () call) := by simp [n, State.goto, State.set]
    have hcheck : Step Lock.standard n (.check ()) _ := .check hphase hheld
    refine ⟨_, ⟨_, hstart, .tail (.single (.acquire hgrant)) (.check hcheck)⟩, ?_, rfl, rfl, rfl,
      ?_⟩
    · simp [n, State.goto, State.set, afterCheck, h.reserved]
    · simp [n, State.goto, State.set, grant, hchecks, h.reserved]
  · refine ⟨_, ⟨_, hstart, .single (.acquire hgrant)⟩, ?_, rfl, rfl, rfl, ?_⟩
    · simp [State.goto, afterGrant, hchecks]
    · simp [State.goto, State.set, grant, hchecks]

/-- The payload access of a call. -/
theorem Entered.access (h : Entered s op call m) :
    ∃ n, (∃ n', Step Lock.standard s (.start () call) n' ∧
        Relation.ReflTransGen (Proceeds op) n' n) ∧
      n.phase () = (payload call s.next s.value).2.2 ∧ n.next = s.next + 1 ∧
      n.value = (payload call s.next s.value).1 ∧ n.reserved = s.reserved ∧
      n.held = Function.update s.held s.next
        (some ⟨call.access, .call (), (payload call s.next s.value).2.1,
          if call.checks then some false else none⟩) := by
  have hheld : m.held s.next =
      some ⟨call.access, .call (), .bare, if call.checks then some false else none⟩ := by
    rw [h.held, Function.update_self]
  rcases h.reached with ⟨n', hstart, hreach⟩
  refine ⟨_, ⟨n', hstart, hreach.tail (.access (.access h.phase hheld))⟩, ?_, h.next, ?_,
    h.reserved, ?_⟩
  · simp [State.goto, h.value]
  · simp [State.goto, State.set, h.value]
  · simp [State.goto, State.set, h.value, h.held]

/-- A call whose guard ends before it returns. -/
theorem Leaves.of_release {n' n : State Unit V} {exit : Exit V} {value : Option V}
    {outcome : Outcome V} {x : Option (Guard Unit)} (hcall : op.call = some call)
    (hstart : Step Lock.standard s (.start () call) n')
    (hreach : Relation.ReflTransGen (Proceeds op) n' n)
    (hphase : n.phase () = .leaving call s.next exit) (hnext : n.next = s.next + 1)
    (hvalue : n.value = value) (hreserved : n.reserved = s.reserved)
    (hheld : n.held = Function.update s.held s.next x)
    (hplain : ∀ s : State Unit V, deliver s exit = s ∧ s.outcome exit = some outcome) :
    ∃ t, Serves s op outcome t ∧ Leaves s none value t := by
  have hrelease : Step Lock.standard n (.release ()) _ := .release hphase
  have hreturn : Step Lock.standard ((n.set s.next none).goto () (.returning call exit))
      (.return () call exit) _ :=
    .return (by simp [State.goto])
  rw [(hplain _).1] at hreturn
  refine ⟨_, .call hcall hstart (hreach.tail (.release hrelease)) hreturn (hplain _).2, ?_⟩
  refine ⟨by simp [State.goto], hnext, hvalue, hreserved, ?_⟩
  simp [State.goto, State.set, hheld]

/-- A call that finds the slot empty, or takes the value. -/
theorem Entered.leaves (h : Entered s op call m) (hcall : op.call = some call) {exit : Exit V}
    {value : Option V} {outcome : Outcome V}
    (hpayload : payload call s.next s.value = (value, .bare, .leaving call s.next exit))
    (hplain : ∀ s : State Unit V, deliver s exit = s ∧ s.outcome exit = some outcome) :
    ∃ t, Serves s op outcome t ∧ Leaves s none value t := by
  rcases h.access with ⟨n, ⟨n', hstart, hreach⟩, hphase, hnext, hvalue, hreserved, hheld⟩
  rw [hpayload] at hphase hvalue
  exact Leaves.of_release hcall hstart hreach hphase hnext hvalue hreserved hheld hplain

/-- A call that clones the value under its guard. -/
theorem Entered.clones {clone : V → Option V} {v : V}
    (h : Entered s (.tryResolveClone clone) .tryResolveClone m) (hvalue : s.value = some v) :
    ∃ t, Serves s (.tryResolveClone clone) ((clone v).elim .unwound .cloned) t ∧
      Leaves s none (some v) t := by
  rcases h.access with ⟨n, ⟨n', hstart, hreach⟩, hphase, hnext, hpayload, hreserved, hheld⟩
  rw [hvalue] at hphase hpayload
  have hclone : Step Lock.standard n (.clone () (clone v)) _ := .clone hphase
  have hclones : (Op.tryResolveClone clone).Clones n.value (clone v) :=
    ⟨clone, v, rfl, hpayload, rfl⟩
  have hplain : ∀ s : State Unit V,
      deliver s ((clone v).elim .unwound .cloned) = s ∧
        s.outcome ((clone v).elim .unwound .cloned) =
          some ((clone v).elim .unwound .cloned) := by
    intro s
    cases clone v <;> exact ⟨rfl, rfl⟩
  exact Leaves.of_release rfl hstart (hreach.tail (.clone hclones hclone)) (by simp [State.goto])
    hnext hpayload hreserved hheld hplain

/-- A call whose result keeps the guard. -/
theorem Entered.keeps (h : Entered s op call m) (hcall : op.call = some call) {exit : Exit V}
    {v : V} {kind : Kind}
    (hpayload : payload call s.next s.value = (some v, kind, .returning call exit))
    (hexit : exit = .ref s.next ∨ exit = .refMut s.next) {outcome : Outcome V}
    (houtcome : ∀ t : State Unit V, t.value = some v → t.outcome exit = some outcome) :
    ∃ t, Serves s op outcome t ∧
      Leaves s (some ⟨call.access, .user, kind, if call.checks then some false else none⟩) (some v)
        t := by
  rcases h.access with ⟨n, ⟨n', hstart, hreach⟩, hphase, hnext, hvalue, hreserved, hheld⟩
  rw [hpayload] at hphase hvalue hheld
  have hreturn : Step Lock.standard n (.return () call exit) _ := .return hphase
  have hdeliver : deliver n exit = n.set s.next
      (some ⟨call.access, .user, kind, if call.checks then some false else none⟩) := by
    rcases hexit with rfl | rfl <;> simp [deliver, hheld]
  rw [hdeliver] at hreturn
  refine ⟨_, .call hcall hstart hreach hreturn (houtcome _ hvalue), ?_⟩
  refine ⟨by simp [State.goto], hnext, hvalue, hreserved, ?_⟩
  simp [State.goto, State.set, hheld]

/-- The two slots after a call that got its guard. -/
theorem Leaves.agrees {outcome : Outcome V} {x : Option (Guard Unit)} {value : Option V}
    (hleaves : Leaves s x value t) (hserves : Serves s op outcome t) (h : Agrees l s)
    (hshape : ∀ guard, x = some guard → guard = userGuard guard.access) :
    Agrees
      { borrow := l.borrow + weight (x.map Guard.access)
        value := value
        guards := Function.update l.guards l.next (x.map Guard.access)
        next := l.next + 1 } t := by
  have hfree : s.accesses s.next = none := h.numbered.fresh _ le_rfl
  have hagrees := h.update (g := s.next) (hserves.inv h.inv) hleaves.idle
    (hleaves.reserved.trans h.reserved) hleaves.held (by rw [hleaves.next]; exact Nat.le_succ _)
    (by rw [hleaves.next]; exact Nat.lt_succ_self _) fun guard hx _ => hshape guard hx
  have haccess : userAccess x = x.map Guard.access := by
    cases x with
    | none => rfl
    | some guard =>
        rw [hshape guard rfl]
        rfl
  rw [hfree, haccess, hleaves.value, hleaves.next, h.next] at hagrees
  simpa [weight] using hagrees

theorem Leaves.agrees_none {outcome : Outcome V} {value : Option V}
    (hleaves : Leaves s none value t) (hserves : Serves s op outcome t) (h : Agrees l s) :
    Agrees { l with value := value, next := l.next + 1 } t := by
  have hagrees := hleaves.agrees hserves h nofun
  have hguards : Function.update l.guards l.next none = l.guards := by
    rw [← h.free, Function.update_eq_self]
  simpa [weight, hguards] using hagrees

theorem Leaves.agrees_some {outcome : Outcome V} {value : Option V} (access : Access)
    (hleaves : Leaves s (some (userGuard access)) value t) (hserves : Serves s op outcome t)
    (h : Agrees l s) :
    Agrees
      { borrow := l.borrow + weight (some access)
        value := value
        guards := Function.update l.guards l.next (some access)
        next := l.next + 1 } t := by
  refine hleaves.agrees hserves h ?_
  intro guard heq
  cases heq
  rfl

end Calls

/-! ## Operations -/

section Operations

variable {l : LocalTakeSlot V} {s : State Unit V}

/-- A call that finds the slot empty. -/
theorem Agrees.consumed {op : Op V} {call : Call} (h : Agrees l s) (hcall : op.call = some call)
    (hlock : Lock.standard call.access s.accesses true) (hvalue : l.value = none) :
    ∃ t, Serves s op (.failed .valueAlreadyConsumed) t ∧
      Agrees { l with next := l.next + 1 } t := by
  rcases h.enters op hlock with ⟨m, hentered⟩
  have hpayload : payload call s.next s.value =
      (none, .bare, .leaving call s.next (.failed .valueAlreadyConsumed)) := by
    rw [h.value, hvalue]
    rfl
  rcases hentered.leaves hcall hpayload fun _ => ⟨rfl, rfl⟩ with ⟨t, hserves, hleaves⟩
  have hagrees := hleaves.agrees_none hserves h
  rw [← hvalue] at hagrees
  exact ⟨t, hserves, hagrees⟩

theorem Agrees.tryResolve (h : Agrees l s) :
    ∃ t, Serves s .tryResolve l.tryResolve.1 t ∧ Agrees l.tryResolve.2 t := by
  by_cases hborrow : l.borrow = 0
  · have hlock : Lock.standard .write s.accesses true := (h.lock_write true).2 (by simp [hborrow])
    cases hvalue : l.value with
    | none =>
        rw [LocalTakeSlot.tryResolve_consumed hborrow hvalue]
        exact h.consumed rfl hlock hvalue
    | some v =>
        rw [LocalTakeSlot.tryResolve_taken hborrow hvalue]
        have henters : ∃ m, Entered s .tryResolve .tryResolve m := h.enters _ hlock
        rcases henters with ⟨m, hentered⟩
        rcases hentered.leaves rfl (by rw [h.value, hvalue]; rfl) fun _ => ⟨rfl, rfl⟩ with
          ⟨t, hserves, hleaves⟩
        exact ⟨t, hserves, hleaves.agrees_none hserves h⟩
  · have hlock : Lock.standard .write s.accesses false :=
      (h.lock_write false).2 (by simp [hborrow])
    rw [LocalTakeSlot.tryResolve_contended hborrow]
    exact h.contends rfl hlock

theorem Agrees.tryResolveRef (h : Agrees l s) :
    ∃ t, Serves s .tryResolveRef l.tryResolveRef.1 t ∧ Agrees l.tryResolveRef.2 t := by
  by_cases hborrow : 0 ≤ l.borrow
  · have hlock : Lock.standard .read s.accesses true := (h.lock_read true).2 (by simp [hborrow])
    cases hvalue : l.value with
    | none =>
        rw [LocalTakeSlot.tryResolveRef_consumed hborrow hvalue]
        exact h.consumed rfl hlock hvalue
    | some v =>
        rw [LocalTakeSlot.tryResolveRef_ref hborrow hvalue]
        have henters : ∃ m, Entered s .tryResolveRef .tryResolveRef m := h.enters _ hlock
        rcases henters with ⟨m, hentered⟩
        rcases hentered.keeps rfl (by rw [h.value, hvalue]; rfl) (.inl rfl)
          (fun _ => State.outcome_ref s.next) with ⟨t, hserves, hleaves⟩
        rw [h.next] at hserves
        have hagrees := Leaves.agrees_some .read hleaves hserves h
        exact ⟨t, hserves, by simpa [weight, hvalue] using hagrees⟩
  · have hlock : Lock.standard .read s.accesses false :=
      (h.lock_read false).2 (by simp [hborrow])
    rw [LocalTakeSlot.tryResolveRef_contended hborrow]
    exact h.contends rfl hlock

theorem Agrees.tryResolveRefMut (h : Agrees l s) :
    ∃ t, Serves s .tryResolveRefMut l.tryResolveRefMut.1 t ∧ Agrees l.tryResolveRefMut.2 t := by
  by_cases hborrow : l.borrow = 0
  · have hlock : Lock.standard .write s.accesses true := (h.lock_write true).2 (by simp [hborrow])
    cases hvalue : l.value with
    | none =>
        rw [LocalTakeSlot.tryResolveRefMut_consumed hborrow hvalue]
        exact h.consumed rfl hlock hvalue
    | some v =>
        rw [LocalTakeSlot.tryResolveRefMut_refMut hborrow hvalue]
        have henters : ∃ m, Entered s .tryResolveRefMut .tryResolveRefMut m := h.enters _ hlock
        rcases henters with ⟨m, hentered⟩
        rcases hentered.keeps rfl (by rw [h.value, hvalue]; rfl) (.inr rfl)
          (fun _ => State.outcome_refMut s.next) with ⟨t, hserves, hleaves⟩
        rw [h.next] at hserves
        have hagrees := Leaves.agrees_some .write hleaves hserves h
        exact ⟨t, hserves, by simpa [weight, hvalue, hborrow] using hagrees⟩
  · have hlock : Lock.standard .write s.accesses false :=
      (h.lock_write false).2 (by simp [hborrow])
    rw [LocalTakeSlot.tryResolveRefMut_contended hborrow]
    exact h.contends rfl hlock

theorem Agrees.tryResolveClone (h : Agrees l s) (clone : V → Option V) :
    ∃ t, Serves s (.tryResolveClone clone) (l.tryResolveClone clone).1 t ∧
      Agrees (l.tryResolveClone clone).2 t := by
  by_cases hborrow : 0 ≤ l.borrow
  · have hlock : Lock.standard .read s.accesses true := (h.lock_read true).2 (by simp [hborrow])
    cases hvalue : l.value with
    | none =>
        rw [LocalTakeSlot.tryResolveClone_consumed clone hborrow hvalue]
        exact h.consumed rfl hlock hvalue
    | some v =>
        rw [LocalTakeSlot.tryResolveClone_cloned clone hborrow hvalue h.free]
        have henters : ∃ m, Entered s (.tryResolveClone clone) .tryResolveClone m :=
          h.enters _ hlock
        rcases henters with ⟨m, hentered⟩
        rcases hentered.clones (h.value.trans hvalue) with ⟨t, hserves, hleaves⟩
        have hagrees := hleaves.agrees_none hserves h
        rw [← hvalue] at hagrees
        exact ⟨t, hserves, hagrees⟩
  · have hlock : Lock.standard .read s.accesses false :=
      (h.lock_read false).2 (by simp [hborrow])
    rw [LocalTakeSlot.tryResolveClone_contended clone hborrow]
    exact h.contends rfl hlock

/-- A guard the user of one slot holds is held by the user of the other. -/
theorem Agrees.held (h : Agrees l s) {g : GuardId} {access : Access} :
    l.guards g = some access ↔ s.held g = some (userGuard access) := by
  rw [h.guards]
  constructor
  · intro haccess
    rcases Option.map_eq_some_iff.1 haccess with ⟨guard, hfilter, rfl⟩
    rcases Option.filter_eq_some_iff.1 hfilter with ⟨hheld, howner⟩
    rw [hheld, ← h.shape g guard hheld (of_decide_eq_true howner)]
  · intro hheld
    rw [hheld]
    rfl

theorem Agrees.write (h : Agrees l s) {g : GuardId} (f : V → V) (hg : l.guards g = some .write) :
    Serves s (.write g f) .done { s with value := s.value.map f } ∧
      Agrees { l with value := l.value.map f } { s with value := s.value.map f } := by
  have hstep : Step Lock.standard s (.mutate g f) { s with value := s.value.map f } :=
    .mutate (h.held.1 hg) rfl rfl
  refine ⟨.write hstep, (Serves.write hstep).inv h.inv, h.idle, h.reserved, ?_, h.next, h.borrow,
    h.guards, h.shape⟩
  exact congrArg (Option.map f) h.value

theorem Agrees.drop (h : Agrees l s) {g : GuardId} {access : Access}
    (hg : l.guards g = some access) :
    Serves s (.drop g) .done (s.set g none) ∧
      Agrees ((l.hold g none).release access) (s.set g none) := by
  have hheld := h.held.1 hg
  have hstep : Step Lock.standard s (.drop g) (s.set g none) := .drop hheld rfl
  refine ⟨.drop hstep, ?_⟩
  have hagrees := h.update (x := none) ((Serves.drop hstep).inv h.inv) h.idle h.reserved rfl le_rfl
    (h.inv.lt_next hheld) nofun
  have haccess : s.accesses g = some access := by
    rw [State.accesses, hheld]
    rfl
  rw [haccess] at hagrees
  cases access <;>
    simpa [State.set, LocalTakeSlot.hold, LocalTakeSlot.release, weight, userAccess, h.value,
      h.next] using hagrees

theorem Agrees.forget (h : Agrees l s) {g : GuardId} {access : Access}
    (hg : l.guards g = some access) :
    ∃ t, Serves s (.forget g) .done t ∧ Agrees (l.hold g none) t := by
  have hheld := h.held.1 hg
  have hstep : Step Lock.standard s (.forget g) _ := .forget hheld rfl
  refine ⟨_, .forget hstep, ?_⟩
  have hagrees := h.update ((Serves.forget hstep).inv h.inv) h.idle h.reserved rfl le_rfl
    (h.inv.lt_next hheld) (by rintro guard ⟨⟩ ⟨⟩)
  have haccess : s.accesses g = some access := by
    rw [State.accesses, hheld]
    rfl
  rw [haccess] at hagrees
  simpa [State.set, LocalTakeSlot.hold, userAccess, userGuard, Option.filter, h.value, h.next]
    using hagrees

/-- What one slot does, the other does. -/
theorem Agrees.step (h : Agrees l s) {op : Op V} {outcome : Outcome V} {l' : LocalTakeSlot V}
    (hstep : l.step op = some (outcome, l')) : ∃ t, Serves s op outcome t ∧ Agrees l' t := by
  cases op with
  | tryResolve =>
      have hserves := h.tryResolve
      rw [Option.some.inj hstep] at hserves
      exact hserves
  | tryResolveRef =>
      have hserves := h.tryResolveRef
      rw [Option.some.inj hstep] at hserves
      exact hserves
  | tryResolveRefMut =>
      have hserves := h.tryResolveRefMut
      rw [Option.some.inj hstep] at hserves
      exact hserves
  | tryResolveClone clone =>
      have hserves := h.tryResolveClone clone
      rw [Option.some.inj hstep] at hserves
      exact hserves
  | write g f =>
      rw [LocalTakeSlot.step] at hstep
      split at hstep
      · rename_i hg
        cases hstep
        exact ⟨_, h.write f hg⟩
      · cases hstep
  | drop g =>
      rcases Option.map_eq_some_iff.1 hstep with ⟨access, hg, heq⟩
      cases heq
      exact ⟨_, h.drop hg⟩
  | forget g =>
      rcases Option.map_eq_some_iff.1 hstep with ⟨access, hg, heq⟩
      cases heq
      exact h.forget hg

/-- A guard the thread uses on one slot is one it holds on the other. -/
theorem Agrees.defined (h : Agrees l s) {op : Op V} {outcome : Outcome V} {t : State Unit V}
    (hserves : Serves s op outcome t) : ∃ outcome' l', l.step op = some (outcome', l') := by
  have hguard : ∀ {g : GuardId} {guard : Guard Unit}, s.held g = some guard →
      guard.owner = .user → l.guards g = some guard.access := by
    intro g guard hheld howner
    exact h.held.2 (hheld.trans (congrArg some (h.shape g guard hheld howner)))
  cases hserves with
  | call hcall _ _ _ _ =>
      cases op with
      | tryResolve => exact ⟨_, _, rfl⟩
      | tryResolveRef => exact ⟨_, _, rfl⟩
      | tryResolveRefMut => exact ⟨_, _, rfl⟩
      | tryResolveClone clone => exact ⟨_, _, rfl⟩
      | write g f => cases hcall
      | drop g => cases hcall
      | forget g => cases hcall
  | write hstep =>
      cases hstep with
      | mutate hheld howner hkind =>
          have hvalid := h.inv.guards _ _ hheld
          have hwrite := (hvalid.seen (hvalid.refMut hkind)).1
          have hg := hguard hheld howner
          rw [hwrite] at hg
          exact ⟨_, _, by rw [LocalTakeSlot.step, hg]⟩
  | drop hstep =>
      cases hstep with
      | drop hheld howner => exact ⟨_, _, by rw [LocalTakeSlot.step, hguard hheld howner]; rfl⟩
  | forget hstep =>
      cases hstep with
      | forget hheld howner => exact ⟨_, _, by rw [LocalTakeSlot.step, hguard hheld howner]; rfl⟩

/-- An operation gives on both slots what it gives on one. -/
theorem Agrees.serves_iff (h : Agrees l s) {op : Op V} {outcome : Outcome V} :
    (∃ t, Serves s op outcome t) ↔ ∃ l', l.step op = some (outcome, l') := by
  constructor
  · rintro ⟨t, hserves⟩
    rcases h.defined hserves with ⟨outcome', l', hstep⟩
    rcases h.step hstep with ⟨t', hserves', _⟩
    rw [(hserves.unique hserves').1]
    exact ⟨l', hstep⟩
  · rintro ⟨l', hstep⟩
    rcases h.step hstep with ⟨t, hserves, _⟩
    exact ⟨t, hserves⟩

theorem Agrees.run (h : Agrees l s) {ops : List (Op V)} {outcomes : List (Outcome V)}
    {l' : LocalTakeSlot V} (hrun : l.run ops = some (outcomes, l')) :
    ∃ t, ServesAll s ops outcomes t ∧ Agrees l' t := by
  induction ops generalizing l s outcomes with
  | nil =>
      cases hrun
      exact ⟨s, .nil s, h⟩
  | cons op ops ih =>
      rw [LocalTakeSlot.run] at hrun
      split at hrun
      · cases hrun
      · rename_i outcome next hstep
        rcases Option.map_eq_some_iff.1 hrun with ⟨rest, hrest, heq⟩
        cases heq
        rcases h.step hstep with ⟨m, hserves, hm⟩
        rcases ih hm hrest with ⟨t, hall, ht⟩
        exact ⟨t, .cons hserves hall, ht⟩

theorem Agrees.servesAll {t : State Unit V} {ops : List (Op V)} {outcomes : List (Outcome V)}
    (hall : ServesAll s ops outcomes t) (h : Agrees l s) :
    ∃ l', l.run ops = some (outcomes, l') ∧ Agrees l' t := by
  induction hall generalizing l with
  | nil s => exact ⟨l, rfl, h⟩
  | @cons s m t op ops outcome outcomes hserves _ ih =>
      rcases h.serves_iff.1 ⟨m, hserves⟩ with ⟨next, hstep⟩
      rcases h.step hstep with ⟨m', hserves', hm⟩
      cases (hserves.unique hserves').2
      rcases ih hm with ⟨l', hrun, ht⟩
      exact ⟨l', by rw [LocalTakeSlot.run, hstep]; simp [hrun], ht⟩

/-- One thread observes on a `LocalTakeSlot` what it observes on a `TakeSlot`: the same programs
run, every operation has the same outcome, and the same value is left. -/
theorem localTakeSlot_agrees (v : V) (ops : List (Op V)) (outcomes : List (Outcome V))
    (value : Option V) :
    (∃ l, (LocalTakeSlot.new v).run ops = some (outcomes, l) ∧ l.value = value) ↔
      ∃ s, ServesAll (new v) ops outcomes s ∧ s.value = value := by
  constructor
  · rintro ⟨l, hrun, hvalue⟩
    rcases (Agrees.new v).run hrun with ⟨s, hall, hs⟩
    exact ⟨s, hall, hs.value.trans hvalue⟩
  · rintro ⟨s, hall, hvalue⟩
    rcases Agrees.servesAll hall (.new v) with ⟨l, hrun, hl⟩
    exact ⟨l, hrun, hl.value.symm.trans hvalue⟩

end Operations

end Storage
end Systasis
