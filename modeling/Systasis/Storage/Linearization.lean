import Systasis.Lib.Atomic
import Systasis.Storage.Transfer

/-!
# Linearization — a `TakeSlot` is an atomic slot

The atomic slot is what the accessors are for: a value that is there or gone, a reservation, and the
loans outstanding, with every accessor done at once.  Contention is allowed while another call is
open and required while a loan or the reservation is in the way.  The synchronized slot, cut into the
steps its callers interleave, simulates the canonical automaton of the atomic one, and so every
interleaving is explained by a sequence of whole calls.
-/

namespace Systasis
namespace Storage

open Lib
open Build (AccessError)

/-! ## The atomic slot -/

structure AtomicSlot (V : Type) where
  value : Option V
  reserved : Bool
  /-- The guards handed out and not dropped. -/
  loans : GuardId → Option Access

/-- What users do with their guards. -/
inductive Act (V : Type) where
  | map (g : GuardId)
  | drop (g : GuardId)
  | forget (g : GuardId)
  | mutate (g : GuardId) (f : V → V)

namespace AtomicSlot

variable {V : Type}

def new (value : V) : AtomicSlot V where
  value := some value
  reserved := false
  loans := fun _ => none

/-- A loan or the reservation is in the way of an accessor. -/
def Conflicts (a : AtomicSlot V) (call : Call) : Prop :=
  (∃ g access, a.loans g = some access ∧ Incompatible access call.access) ∨
    call.checks = true ∧ a.reserved = true

/-- What an accessor does at once.  The result of a `Clone` is the user's. -/
inductive Performs (overlapped : Bool) : AtomicSlot V → Call → Exit V → AtomicSlot V → Prop
  | contended {a : AtomicSlot V} {call : Call} :
      overlapped = true ∨ a.Conflicts call →
      Performs overlapped a call (.failed .valueAccessContention) a
  | consumed {a : AtomicSlot V} {call : Call} :
      ¬a.Conflicts call → a.value = none →
      Performs overlapped a call (.failed .valueAlreadyConsumed) a
  | taken {a : AtomicSlot V} {call : Call} {v : V} :
      ¬a.Conflicts call → a.value = some v → call.operation = .tryResolve →
      Performs overlapped a call (.taken v) { a with value := none }
  | ref {a : AtomicSlot V} {call : Call} {v : V} {g : GuardId} :
      ¬a.Conflicts call → a.value = some v → call.operation = .tryResolveRef →
      a.loans g = none →
      Performs overlapped a call (.ref g)
        { a with loans := Function.update a.loans g (some .read) }
  | refMut {a : AtomicSlot V} {call : Call} {v : V} {g : GuardId} :
      ¬a.Conflicts call → a.value = some v → call.operation = .tryResolveRefMut →
      a.loans g = none →
      Performs overlapped a call (.refMut g)
        { a with loans := Function.update a.loans g (some .write) }
  | cloned {a : AtomicSlot V} {call : Call} {v : V} {result : Option V} :
      ¬a.Conflicts call → a.value = some v → call.operation = .tryResolveClone →
      Performs overlapped a call (result.elim .unwound .cloned) a
  | reference {a : AtomicSlot V} {call : Call} {v : V} :
      ¬a.Conflicts call → a.value = some v → call.operation = .tryReserveRef →
      Performs overlapped a call .reference { a with reserved := true }

inductive Acts : AtomicSlot V → Act V → AtomicSlot V → Prop
  | map {a : AtomicSlot V} {g : GuardId} :
      a.loans g = some .read → Acts a (.map g) a
  | drop {a : AtomicSlot V} {g : GuardId} {access : Access} :
      a.loans g = some access →
      Acts a (.drop g) { a with loans := Function.update a.loans g none }
  -- A forgotten guard stays outstanding.
  | forget {a : AtomicSlot V} {g : GuardId} {access : Access} :
      a.loans g = some access → Acts a (.forget g) a
  | mutate {a : AtomicSlot V} {g : GuardId} {f : V → V} :
      a.loans g = some .write → Acts a (.mutate g f) { a with value := a.value.map f }

/-- The atomic slot as an object. -/
def object (V : Type) : Object (AtomicSlot V) Call (Exit V) (Act V) where
  perform := Performs
  act := Acts

end AtomicSlot

/-! ## The slot as an atomic one -/

section Abstraction

variable {Client V : Type}

/-- The position of a client, from outside: its result is known once it is decided. -/
def Phase.pending : Phase V → Pending Call (Exit V)
  | .idle => .idle
  | .acquiring call | .locked call _ | .entered call _ | .cloning call _ | .reserving call _ =>
      .opened call
  | .leaving call _ exit | .returning call exit => .committed call exit

/-- The guard a call is about to hand to its caller. -/
def Phase.lends : Phase V → Option GuardId
  | .returning _ (.ref g) | .returning _ (.refMut g) => some g
  | _ => none

/-- The loan a guard stands for, once the call that acquired it has decided its result. -/
def State.lent (s : State Client V) (g : GuardId) (guard : Guard Client) : Option Access :=
  match guard.owner with
  | .call c => if (s.phase c).lends = some g then some guard.access else none
  | _ => some guard.access

def State.loan (s : State Client V) (g : GuardId) : Option Access :=
  (s.held g).bind (s.lent g)

def State.atomic (s : State Client V) : AtomicSlot V where
  value := s.value
  reserved := s.reserved
  loans := s.loan

def State.abstract (s : State Client V) : Atomic.State (AtomicSlot V) Client Call (Exit V) where
  object := s.atomic
  pending := fun c => (s.phase c).pending

/-- What a step shows: calls, returns, and what users do with guards. -/
def Label.view : Label Client V → Option (Event Client Call (Exit V) (Act V))
  | .start c call => some (.invoke c call)
  | .return c call exit => some (.respond c call exit)
  | .map g => some (.act (.map g))
  | .drop g => some (.act (.drop g))
  | .forget g => some (.act (.forget g))
  | .mutate g f => some (.act (.mutate g f))
  | _ => none

end Abstraction

/-! ## Loans under updates -/

section Loans

variable {Client V : Type} {s : State Client V} {c : Client} {g : GuardId} {guard : Guard Client}

theorem State.lent_call (howner : guard.owner = .call c) :
    s.lent g guard = if (s.phase c).lends = some g then some guard.access else none := by
  simp [State.lent, howner]

theorem State.loan_of_held (hheld : s.held g = some guard) : s.loan g = s.lent g guard := by
  simp [State.loan, hheld]

theorem State.lent_congr {s' : State Client V} (h : ∀ d, (s'.phase d).lends = (s.phase d).lends) :
    s'.lent g = s.lent g := by
  funext guard
  simp only [State.lent, h]

theorem State.held_of_loan {access : Access} (hloan : s.loan g = some access) :
    ∃ guard, s.held g = some guard ∧ guard.access = access ∧
      ∀ c, guard.owner = .call c → (s.phase c).lends = some g := by
  rcases Option.bind_eq_some_iff.1 hloan with ⟨guard, hheld, hlent⟩
  refine ⟨guard, hheld, ?_⟩
  cases howner : guard.owner with
  | call d =>
      rw [State.lent_call howner] at hlent
      split at hlent
      · rename_i hlends
        exact ⟨Option.some.inj hlent, fun c hc => by cases hc; exact hlends⟩
      · cases hlent
  | user =>
      simp only [State.lent, howner, Option.some.injEq] at hlent
      exact ⟨hlent, nofun⟩
  | nobody =>
      simp only [State.lent, howner, Option.some.injEq] at hlent
      exact ⟨hlent, nofun⟩

/-- A guard in a user's hands is a loan. -/
theorem State.loan_user (hheld : s.held g = some guard) (howner : guard.owner = .user) :
    s.loan g = some guard.access := by
  simp [State.loan_of_held hheld, State.lent, howner]

/-- The guard of a call that has not decided its result is no loan. -/
theorem State.loan_hidden (hheld : s.held g = some guard) (howner : guard.owner = .call c)
    (hlends : (s.phase c).lends = none) : s.loan g = none := by
  simp [State.loan_of_held hheld, State.lent_call howner, hlends]

theorem State.loan_set (x : Option (Guard Client)) :
    (s.set g x).loan = Function.update s.loan g (x.bind (s.lent g)) := by
  funext g'
  have hlent : (s.set g x).lent g' = s.lent g' := State.lent_congr fun _ => rfl
  change (Function.update s.held g x g').bind ((s.set g x).lent g') = _
  rw [hlent]
  by_cases hg : g' = g
  · subst hg
    simp
  · simp [State.loan, hg]

/-- While the call keeps its guard to itself, what it does to that guard is no loan. -/
theorem State.loan_private {guard' : Guard Client} (hheld : s.held g = some guard)
    (howner : guard.owner = .call c) (hlends : (s.phase c).lends = none)
    (howner' : guard'.owner = .call c) : (s.set g (some guard')).loan = s.loan := by
  have hnone : s.lent g guard' = none := by simp [State.lent_call howner', hlends]
  calc
    (s.set g (some guard')).loan
        = Function.update s.loan g (s.lent g guard') := by simp [State.loan_set]
    _ = Function.update s.loan g (s.loan g) := by
          rw [hnone, State.loan_hidden hheld howner hlends]
    _ = s.loan := Function.update_eq_self g s.loan

variable [DecidableEq Client]

theorem State.loan_goto {p : Phase V} (hlends : p.lends = (s.phase c).lends) :
    (s.goto c p).loan = s.loan := by
  have hsame : ∀ d, ((s.goto c p).phase d).lends = (s.phase d).lends := by
    intro d
    by_cases hd : d = c
    · subst hd
      simpa [State.goto] using hlends
    · simp [State.goto, hd]
  funext g
  exact congrArg (s.held g).bind (State.lent_congr hsame)

/-- Deciding for a guard turns it into a loan. -/
theorem State.loan_goto_lends {p : Phase V} (hheld : s.held g = some guard)
    (howner : guard.owner = .call c) (hrest : (s.phase c).lends = none)
    (hlends : p.lends = some g) :
    (s.goto c p).loan = Function.update s.loan g (some guard.access) := by
  funext g'
  by_cases hg : g' = g
  · subst hg
    have hheld' : (s.goto c p).held g' = some guard := hheld
    simp [State.loan_of_held hheld', State.lent_call howner, hlends]
  · rw [Function.update_of_ne hg]
    unfold State.loan
    change (s.held g').bind ((s.goto c p).lent g') = (s.held g').bind (s.lent g')
    cases hheld' : s.held g' with
    | none => rfl
    | some guard' =>
        cases howner' : guard'.owner with
        | call d =>
            by_cases hd : d = c
            · subst hd
              simp [State.lent_call howner', hrest, hlends, Ne.symm hg]
            · simp [State.lent_call howner', State.goto, hd]
        | user => simp [State.lent, howner']
        | nobody => simp [State.lent, howner']

/-- A step of a call that keeps its guard to itself changes no loan. -/
theorem State.loan_within {value : Option V} {guard' : Guard Client} {p : Phase V}
    (hheld : s.held g = some guard) (howner : guard.owner = .call c)
    (hlends : (s.phase c).lends = none) (howner' : guard'.owner = .call c)
    (hp : p.lends = none) :
    (({ s with value }.set g (some guard')).goto c p).loan = s.loan :=
  calc
    (({ s with value }.set g (some guard')).goto c p).loan
        = ({ s with value }.set g (some guard')).loan :=
          State.loan_goto (s := { s with value }.set g (some guard')) (hp.trans hlends.symm)
    _ = s.loan := State.loan_private (s := { s with value }) hheld howner hlends howner'

/-- Handing the guard out makes it a loan. -/
theorem State.loan_handed {value : Option V} {guard' : Guard Client} {p : Phase V}
    (hheld : s.held g = some guard) (howner : guard.owner = .call c)
    (hlends : (s.phase c).lends = none) (howner' : guard'.owner = .call c)
    (hp : p.lends = some g) :
    (({ s with value }.set g (some guard')).goto c p).loan =
      Function.update s.loan g (some guard'.access) := by
  have hset : ({ s with value }.set g (some guard')).held g = some guard' := by simp [State.set]
  calc
    (({ s with value }.set g (some guard')).goto c p).loan
        = Function.update ({ s with value }.set g (some guard')).loan g (some guard'.access) :=
          State.loan_goto_lends hset howner' hlends hp
    _ = Function.update s.loan g (some guard'.access) := by
          rw [State.loan_private (s := { s with value }) hheld howner hlends howner']
          rfl

end Loans

/-! ## Steps -/

section Steps

variable {Client V : Type} {s : State Client V} {c : Client} {g : GuardId}
  {guard : Guard Client} {call : Call}

/-- A client whose call holds a guard has a call open. -/
theorem Phase.pending_of_guard {p : Phase V} (hguard : p.guard = some g) : p.pending ≠ .idle := by
  cases p with
  | idle => cases hguard
  | _ => exact nofun

/-- The guard of a call excludes every loan it would conflict with, and a check that passed still
holds. -/
theorem Inv.no_conflict (h : Inv none s) (hheld : s.held g = some guard)
    (howner : guard.owner = .call c) (hlends : (s.phase c).lends = none)
    (haccess : guard.access = call.access)
    (hseen : call.checks = true → guard.seen = some false) : ¬s.atomic.Conflicts call := by
  rintro (⟨g', access, hloan, hincompatible⟩ | ⟨hchecks, hreserved⟩)
  · rcases State.held_of_loan hloan with ⟨guard', hheld', rfl, howner'⟩
    have heq : g' = g := by
      rcases hincompatible with hwrite | hwrite
      · exact h.exclusive g' g guard' guard hheld' hheld hwrite
      · exact (h.exclusive g g' guard guard' hheld hheld' (haccess.trans hwrite)).symm
    subst heq
    cases hheld.symm.trans hheld'
    cases hlends.symm.trans (howner' c howner)
  · have hfree := ((h.guards g guard hheld).seen (hseen hchecks)).2
    exact Bool.false_ne_true (hfree.symm.trans hreserved)

variable [DecidableEq Client]

theorem abstract_goto {m : State Client V} {p : Phase V} (hphase : m.phase = s.phase) :
    (m.goto c p).abstract =
      ⟨(m.goto c p).atomic, Function.update s.abstract.pending c p.pending⟩ := by
  have hpending : (fun d => ((m.goto c p).phase d).pending) =
      Function.update s.abstract.pending c p.pending := by
    funext d
    by_cases hd : d = c
    · subst hd
      simp
    · simp [State.goto, State.abstract, hphase, hd]
  exact congrArg (Atomic.State.mk _) hpending

/-- A step that decides the result of a call. -/
theorem commits {m : State Client V} {p : Phase V} {exit : Exit V} {overlapped : Bool}
    (hphase : m.phase = s.phase) (hopened : (s.phase c).pending = .opened call)
    (hcommitted : p.pending = .committed call exit)
    (hoverlapped : overlapped = true → ∃ d, d ≠ c ∧ (s.phase d).pending ≠ .idle)
    (hperforms : AtomicSlot.Performs overlapped s.atomic call exit (m.goto c p).atomic) :
    Atomic.Step (AtomicSlot.object V) s.abstract (.commit c call exit overlapped)
      (m.goto c p).abstract := by
  rw [abstract_goto hphase, hcommitted]
  exact .commit hopened hoverlapped hperforms

/-- A step that decides the result of a call without regard to the others. -/
theorem commits_alone {m : State Client V} {p : Phase V} {exit : Exit V}
    (hphase : m.phase = s.phase) (hopened : (s.phase c).pending = .opened call)
    (hcommitted : p.pending = .committed call exit)
    (hperforms : AtomicSlot.Performs false s.atomic call exit (m.goto c p).atomic) :
    Atomic.Step (AtomicSlot.object V) s.abstract (.commit c call exit false)
      (m.goto c p).abstract :=
  commits hphase hopened hcommitted (fun h => absurd h Bool.false_ne_true) hperforms

/-- A step of a user. -/
theorem acts {m : State Client V} {a : Act V} (hphase : m.phase = s.phase)
    (hacts : AtomicSlot.Acts s.atomic a m.atomic) :
    Atomic.Step (AtomicSlot.object V) s.abstract (.event (.act a)) m.abstract := by
  have hpending : m.abstract = ⟨m.atomic, s.abstract.pending⟩ := by
    simp [State.abstract, hphase]
  rw [hpending]
  exact .act hacts

/-- A step that changes nothing an outsider could know. -/
theorem stutters {m : State Client V} {p : Phase V} (hphase : m.phase = s.phase)
    (hpending : p.pending = (s.phase c).pending) (hatomic : (m.goto c p).atomic = s.atomic) :
    (m.goto c p).abstract = s.abstract := by
  rw [abstract_goto hphase, hatomic, hpending]
  exact congrArg (Atomic.State.mk _) (Function.update_eq_self c _)

variable {lock : Lock}

/-- A refused try-lock met a loan or another open call. -/
theorem Inv.refuse_commits (hobliging : lock.Obliging) (h : Inv none s)
    (hphase : s.phase c = .acquiring call) (hrefused : lock call.access s.accesses false) :
    ∃ overlapped, Atomic.Step (AtomicSlot.object V) s.abstract
      (.commit c call (.failed .valueAccessContention) overlapped)
      (s.goto c (.returning call (.failed .valueAccessContention))).abstract := by
  have hatomic : (s.goto c (.returning call (.failed .valueAccessContention))).atomic =
      s.atomic := by
    have hloan : (s.goto c (.returning call (.failed .valueAccessContention))).loan = s.loan :=
      State.loan_goto (by simp [hphase, Phase.lends])
    exact congrArg (AtomicSlot.mk s.value s.reserved) hloan
  rcases hobliging call.access s.accesses hrefused with ⟨g, access, haccess, hincompatible⟩
  rcases Option.map_eq_some_iff.1 haccess with ⟨guard, hheld, rfl⟩
  -- Either the guard has been handed out, or its call is another one.
  by_cases hloan : s.loan g = some guard.access
  · refine ⟨false, commits_alone rfl (by simp [hphase, Phase.pending]) rfl ?_⟩
    rw [hatomic]
    exact .contended (.inr (.inl ⟨g, guard.access, hloan, hincompatible⟩))
  · refine ⟨true, commits rfl (by simp [hphase, Phase.pending]) rfl ?_ ?_⟩
    · intro _
      cases howner : guard.owner with
      | call d =>
          refine ⟨d, ?_, Phase.pending_of_guard (h.guard_eq hheld howner)⟩
          rintro rfl
          exact h.no_guard (by simp [hphase, Phase.guard]) hheld howner
      | user => exact absurd (by simp [State.loan_of_held hheld, State.lent, howner]) hloan
      | nobody => exact absurd (by simp [State.loan_of_held hheld, State.lent, howner]) hloan
    · rw [hatomic]
      exact .contended (.inl rfl)

/-- A granted guard belongs to the call alone. -/
theorem Inv.grant_stutters (h : Inv none s) (hphase : s.phase c = .acquiring call) :
    (({ s with next := s.next + 1 }.set s.next (some (grant c call))).goto c
      (afterGrant call s.next)).abstract = s.abstract := by
  have hlends : (s.phase c).lends = none := by simp [hphase, Phase.lends]
  have hnew : (afterGrant (V := V) call s.next).lends = none := by
    cases hchecks : call.checks <;> simp [afterGrant, hchecks, Phase.lends]
  refine stutters rfl ?_ ?_
  · cases hchecks : call.checks <;> simp [afterGrant, hchecks, Phase.pending, hphase]
  · have hfresh : s.loan s.next = none := by simp [State.loan, h.fresh s.next le_rfl]
    have hnone : s.lent s.next (grant c call) = none := by
      simp [State.lent_call (show (grant c call).owner = .call c from rfl), hlends]
    have hloan : ((s.set s.next (some (grant c call))).goto c
        (afterGrant call s.next)).loan = s.loan := by
      calc
        ((s.set s.next (some (grant c call))).goto c (afterGrant call s.next)).loan
            = (s.set s.next (some (grant c call))).loan :=
              State.loan_goto (hnew.trans hlends.symm)
        _ = Function.update s.loan s.next (s.lent s.next (grant c call)) := by
              simp [State.loan_set]
        _ = s.loan := by rw [hnone, ← hfresh, Function.update_eq_self]
    exact congrArg (AtomicSlot.mk s.value s.reserved) hloan

theorem Inv.check_matches (h : Inv none s) (hphase : s.phase c = .locked call g)
    (hheld : s.held g = some guard) :
    let t := (s.set g (some { guard with seen := some s.reserved })).goto c
      (afterCheck call g s.reserved)
    t.abstract = s.abstract ∨
      Atomic.Step (AtomicSlot.object V) s.abstract
        (.commit c call (.failed .valueAccessContention) false) t.abstract := by
  intro t
  have hvalid := h.phases c nofun
  simp only [hphase, Phase.Valid] at hvalid
  cases hheld.symm.trans hvalid.2
  have hlends : (s.phase c).lends = none := by simp [hphase, Phase.lends]
  have hatomic : t.atomic = s.atomic := by
    have hnew : (afterCheck (V := V) call g s.reserved).lends = none := by
      cases hreserved : s.reserved <;> simp [afterCheck, Phase.lends]
    have hloan : t.loan = s.loan :=
      State.loan_within hvalid.2 rfl hlends rfl hnew
    exact congrArg (AtomicSlot.mk s.value s.reserved) hloan
  cases hreserved : s.reserved with
  | false =>
      refine .inl (stutters rfl ?_ hatomic)
      simp [afterCheck, hreserved, hphase, Phase.pending]
  | true =>
      refine .inr (commits_alone rfl (by simp [hphase, Phase.pending]) ?_ ?_)
      · simp [afterCheck, hreserved, Phase.pending]
      · rw [hatomic]
        exact .contended (.inr (.inr ⟨hvalid.1, hreserved⟩))

/-- The payload access decides every accessor except the two with a step to come. -/
theorem Inv.access_matches (h : Inv none s) (hphase : s.phase c = .entered call g)
    (hheld : s.held g = some guard) {value : Option V} {kind : Kind} {p : Phase V}
    (hpayload : payload call g s.value = (value, kind, p)) :
    let t := ({ s with value }.set g (some { guard with kind })).goto c p
    t.abstract = s.abstract ∨ ∃ exit,
      Atomic.Step (AtomicSlot.object V) s.abstract (.commit c call exit false) t.abstract := by
  intro t
  have hvalid := h.phases c nofun
  simp only [hphase, Phase.Valid] at hvalid
  cases hheld.symm.trans hvalid
  have hlends : (s.phase c).lends = none := by simp [hphase, Phase.lends]
  have hopened : (s.phase c).pending = .opened call := by simp [hphase, Phase.pending]
  have hclear : ¬s.atomic.Conflicts call :=
    h.no_conflict hvalid rfl hlends rfl fun hchecks => by simp [hchecks]
  have hhidden : s.loan g = none := State.loan_hidden hvalid rfl hlends
  rcases payload_cases call g s.value with
    ⟨hnone, heq⟩ | ⟨v, hsome, ⟨hop, heq⟩ | ⟨hop, heq⟩ | ⟨hop, heq⟩ | ⟨hop, heq⟩ | ⟨hop, heq⟩⟩
  all_goals cases hpayload.symm.trans heq
  · have hloan : t.loan = s.loan := State.loan_within hvalid rfl hlends rfl rfl
    have hatomic : t.atomic = s.atomic := by
      change AtomicSlot.mk none s.reserved t.loan = AtomicSlot.mk s.value s.reserved s.loan
      rw [hloan, hnone]
    refine .inr ⟨_, commits_alone rfl hopened rfl ?_⟩
    rw [hatomic]
    exact .consumed hclear hnone
  · have hloan : t.loan = s.loan := State.loan_within hvalid rfl hlends rfl rfl
    have hatomic : t.atomic = { s.atomic with value := none } :=
      congrArg (AtomicSlot.mk none s.reserved) hloan
    refine .inr ⟨_, commits_alone rfl hopened rfl ?_⟩
    rw [hatomic]
    exact .taken hclear hsome hop
  · have haccess : call.access = .read := by simp [Call.access, hop]
    have hloan : t.loan = Function.update s.loan g (some .read) :=
      haccess ▸ State.loan_handed hvalid rfl hlends rfl rfl
    have hatomic : t.atomic = { s.atomic with loans := Function.update s.loan g (some .read) } := by
      change AtomicSlot.mk (some v) s.reserved t.loan = AtomicSlot.mk s.value s.reserved _
      rw [hloan, hsome]
    refine .inr ⟨_, commits_alone rfl hopened rfl ?_⟩
    rw [hatomic]
    exact .ref hclear hsome hop hhidden
  · have haccess : call.access = .write := by simp [Call.access, hop]
    have hloan : t.loan = Function.update s.loan g (some .write) :=
      haccess ▸ State.loan_handed hvalid rfl hlends rfl rfl
    have hatomic : t.atomic = { s.atomic with loans := Function.update s.loan g (some .write) } := by
      change AtomicSlot.mk (some v) s.reserved t.loan = AtomicSlot.mk s.value s.reserved _
      rw [hloan, hsome]
    refine .inr ⟨_, commits_alone rfl hopened rfl ?_⟩
    rw [hatomic]
    exact .refMut hclear hsome hop hhidden
  all_goals
    have hloan : t.loan = s.loan := State.loan_within hvalid rfl hlends rfl rfl
    have hatomic : t.atomic = s.atomic := by
      change AtomicSlot.mk (some v) s.reserved t.loan = AtomicSlot.mk s.value s.reserved s.loan
      rw [hloan, hsome]
    exact .inl (stutters rfl (by simp [hphase, Phase.pending]) hatomic)

theorem Inv.clone_commits (h : Inv none s) (hphase : s.phase c = .cloning call g)
    (hop : call.operation = .tryResolveClone) (result : Option V) :
    ∃ exit, Atomic.Step (AtomicSlot.object V) s.abstract (.commit c call exit false)
      (s.goto c (.leaving call g (result.elim .unwound .cloned))).abstract := by
  have hvalid := h.phases c nofun
  simp only [hphase, Phase.Valid] at hvalid
  have hlends : (s.phase c).lends = none := by simp [hphase, Phase.lends]
  have hclear : ¬s.atomic.Conflicts call :=
    h.no_conflict hvalid rfl hlends (by simp [Call.access, hop]) fun hchecks => by
      simp [Call.checks, hop] at hchecks
  have hloan : (s.goto c (.leaving call g (result.elim .unwound .cloned))).loan = s.loan :=
    State.loan_goto hlends.symm
  have hatomic : (s.goto c (.leaving call g (result.elim .unwound .cloned))).atomic = s.atomic :=
    congrArg (AtomicSlot.mk s.value s.reserved) hloan
  rcases Option.isSome_iff_exists.1 ((h.guards g _ hvalid).present (by simp)) with ⟨v, hsome⟩
  refine ⟨_, commits_alone rfl (by simp [hphase, Phase.pending]) rfl ?_⟩
  rw [hatomic]
  exact .cloned hclear hsome hop

theorem Inv.reserve_commits (h : Inv none s) (hphase : s.phase c = .reserving call g)
    (hop : call.operation = .tryReserveRef) :
    Atomic.Step (AtomicSlot.object V) s.abstract (.commit c call .reference false)
      ({ s with reserved := true }.goto c (.leaving call g .reference)).abstract := by
  have hvalid := h.phases c nofun
  simp only [hphase, Phase.Valid] at hvalid
  have hlends : (s.phase c).lends = none := by simp [hphase, Phase.lends]
  have hclear : ¬s.atomic.Conflicts call :=
    h.no_conflict hvalid.1 rfl hlends (by simp [Call.access, hop]) fun hchecks => by
      simp [Call.checks, hop] at hchecks
  have hloan : ({ s with reserved := true }.goto c (.leaving call g .reference)).loan = s.loan :=
    State.loan_goto (s := { s with reserved := true }) hlends.symm
  have hatomic : ({ s with reserved := true }.goto c (.leaving call g .reference)).atomic =
      { s.atomic with reserved := true } :=
    congrArg (AtomicSlot.mk s.value true) hloan
  rcases Option.isSome_iff_exists.1 hvalid.2 with ⟨v, hsome⟩
  refine commits_alone rfl (by simp [hphase, Phase.pending]) rfl ?_
  rw [hatomic]
  exact .reference hclear hsome hop

/-- The guard of a decided call is dropped before anyone else could have known it. -/
theorem Inv.release_stutters {exit : Exit V} (h : Inv none s)
    (hphase : s.phase c = .leaving call g exit) :
    ((s.set g none).goto c (.returning call exit)).abstract = s.abstract := by
  have hvalid := h.phases c nofun
  simp only [hphase, Phase.Valid] at hvalid
  rcases hvalid with ⟨⟨guard, hheld, howner⟩, -, hplain⟩
  have hlends : (s.phase c).lends = none := by simp [hphase, Phase.lends]
  have hnew : (Phase.returning call exit).lends = none := by
    cases exit <;> simp_all [Phase.guard, Phase.lends]
  have hloan : ((s.set g none).goto c (.returning call exit)).loan = s.loan :=
    calc
      ((s.set g none).goto c (.returning call exit)).loan
          = (s.set g none).loan := State.loan_goto (s := s.set g none) (hnew.trans hlends.symm)
      _ = Function.update s.loan g none := by simp [State.loan_set]
      _ = s.loan := by rw [← State.loan_hidden hheld howner hlends, Function.update_eq_self]
  exact stutters rfl (by simp [hphase, Phase.pending])
    (congrArg (AtomicSlot.mk s.value s.reserved) hloan)

/-- A guard keeps being lent when its call returns it. -/
theorem Inv.loan_delivered (h : Inv none s) (hheld : s.held g = some guard)
    (howner : guard.owner = .call c) (hlends : (s.phase c).lends = some g) :
    ((s.set g (some { guard with owner := .user })).goto c .idle).loan = s.loan := by
  funext g'
  unfold State.loan
  change (Function.update s.held g _ g').bind _ = _
  by_cases hg : g' = g
  · subst hg
    simp [hheld, State.lent, howner, hlends]
  · rw [Function.update_of_ne hg]
    cases hheld' : s.held g' with
    | none => rfl
    | some guard' =>
        cases howner' : guard'.owner with
        | call d =>
            -- A client holds at most the guard its position names.
            have hd : d ≠ c := by
              rintro rfl
              have hguard := (h.guard_eq hheld' howner').symm.trans (h.guard_eq hheld howner)
              exact hg (Option.some.inj hguard)
            simp [State.lent_call howner', State.goto, State.set, hd]
        | user => simp [State.lent, howner']
        | nobody => simp [State.lent, howner']

theorem Inv.return_responds {exit : Exit V} (h : Inv none s)
    (hphase : s.phase c = .returning call exit) :
    Atomic.Step (AtomicSlot.object V) s.abstract (.event (.respond c call exit))
      ((deliver s exit).goto c .idle).abstract := by
  have hvalid := h.phases c nofun
  simp only [hphase, Phase.Valid] at hvalid
  have hatomic : ((deliver s exit).goto c .idle).atomic = s.atomic := by
    have hplain : (s.phase c).lends = none → (s.goto c .idle).loan = s.loan :=
      fun hlends => State.loan_goto hlends.symm
    cases exit with
    | ref g =>
        have hloan := h.loan_delivered hvalid rfl (by simp [hphase, Phase.lends])
        simp only [deliver, Exit.Valid] at hvalid ⊢
        rw [hvalid]
        exact congrArg (AtomicSlot.mk s.value s.reserved) hloan
    | refMut g =>
        have hloan := h.loan_delivered hvalid rfl (by simp [hphase, Phase.lends])
        simp only [deliver, Exit.Valid] at hvalid ⊢
        rw [hvalid]
        exact congrArg (AtomicSlot.mk s.value s.reserved) hloan
    | _ =>
        exact congrArg (AtomicSlot.mk s.value s.reserved)
          (hplain (by simp [hphase, Phase.lends]))
  have hsame : (deliver s exit).phase = s.phase := by cases exit <;> rfl
  rw [abstract_goto hsame, hatomic]
  exact .respond (by simp [State.abstract, hphase, Phase.pending])

/-- Every step of the slot is matched by the atomic one: by the instant at which a call takes
effect, by the event an outsider sees, or by nothing. -/
theorem simulates (hlock : lock.Sound) (hobliging : lock.Obliging) (v : V) :
    Simulation (S := State Client V) (Step lock) Label.view
      (Atomic.Step (AtomicSlot.object V)) Atomic.Label.view
      (fun s => ∃ trace, Run (Step lock) (new v) trace s) (fun s a => a = s.abstract) where
  keeps := fun _ _ _ ⟨_, hrun⟩ hstep => ⟨_, hrun.snoc hstep⟩
  matched := by
    rintro s l t _ ⟨trace, hrun⟩ rfl hstep
    have h : Inv none s := (Inv.new v).run hlock hrun
    -- The answer is nothing, one commit, or the event itself.
    have hstutter : l.view = none → t.abstract = s.abstract →
        ∃ t', Shows (Atomic.Step (AtomicSlot.object V)) Atomic.Label.view s.abstract
          l.view.toList t' ∧ t' = t.abstract := by
      intro hview heq
      rw [hview, heq]
      exact ⟨s.abstract, .nil _, rfl⟩
    have hsingle : ∀ {l'}, Atomic.Step (AtomicSlot.object V) s.abstract l' t.abstract →
        l'.view = l.view →
        ∃ t', Shows (Atomic.Step (AtomicSlot.object V)) Atomic.Label.view s.abstract
          l.view.toList t' ∧ t' = t.abstract := by
      intro l' hstep' hview
      rw [← hview]
      exact ⟨t.abstract, .single hstep', rfl⟩
    cases hstep with
    | @start c call hphase =>
        have hatomic : (s.goto c (.acquiring call)).atomic = s.atomic :=
          congrArg (AtomicSlot.mk s.value s.reserved)
            (State.loan_goto (by simp [hphase, Phase.lends]))
        have hinvoke : Atomic.Step (AtomicSlot.object V) s.abstract (.event (.invoke c call))
            (s.goto c (.acquiring call)).abstract := by
          rw [abstract_goto rfl, hatomic]
          exact .invoke (by simp [State.abstract, hphase, Phase.pending])
        exact hsingle hinvoke rfl
    | refuse hphase hrefused =>
        rcases h.refuse_commits hobliging hphase hrefused with ⟨overlapped, hcommit⟩
        exact hsingle hcommit rfl
    | grant hphase _ => exact hstutter rfl (h.grant_stutters hphase)
    | check hphase hheld =>
        rcases h.check_matches hphase hheld with hsame | hcommit
        · exact hstutter rfl hsame
        · exact hsingle hcommit rfl
    | access hphase hheld =>
        rcases h.access_matches hphase hheld rfl with hsame | ⟨exit, hcommit⟩
        · exact hstutter rfl hsame
        · exact hsingle hcommit rfl
    | @clone c call g result hphase =>
        have hobserved := observed hlock hrun c
        simp only [hphase, Phase.Observed] at hobserved
        rcases h.clone_commits hphase hobserved.1 result with ⟨exit, hcommit⟩
        exact hsingle hcommit rfl
    | @reserve c call g hphase =>
        have hobserved := observed hlock hrun c
        simp only [hphase, Phase.Observed] at hobserved
        exact hsingle (h.reserve_commits hphase hobserved.1) rfl
    | release hphase => exact hstutter rfl (h.release_stutters hphase)
    | «return» hphase => exact hsingle (h.return_responds hphase) rfl
    | @map g guard hheld howner hkind =>
        have hread := (h.guards g guard hheld).ref hkind
        have hloan : s.loan g = some .read := hread ▸ State.loan_user hheld howner
        exact hsingle (acts rfl (.map hloan)) rfl
    | @drop g guard hheld howner =>
        have hatomic : (s.set g none).atomic =
            { s.atomic with loans := Function.update s.loan g none } := by
          have hloan : (s.set g none).loan = Function.update s.loan g none := by
            simp [State.loan_set]
          exact congrArg (AtomicSlot.mk s.value s.reserved) hloan
        refine hsingle (acts rfl ?_) rfl
        rw [hatomic]
        exact .drop (State.loan_user hheld howner)
    | @forget g guard hheld howner =>
        have hloan : (s.set g (some { guard with owner := .nobody })).loan = s.loan := by
          have hlent : s.lent g { guard with owner := .nobody } = s.loan g :=
            (State.loan_user hheld howner).symm
          rw [State.loan_set, Option.bind_some, hlent, Function.update_eq_self]
        have hatomic : (s.set g (some { guard with owner := .nobody })).atomic = s.atomic :=
          congrArg (AtomicSlot.mk s.value s.reserved) hloan
        refine hsingle (acts rfl ?_) rfl
        rw [hatomic]
        exact .forget (State.loan_user hheld howner)
    | @mutate g guard f hheld howner hkind =>
        have hvalid := h.guards g guard hheld
        have hwrite : guard.access = .write := (hvalid.seen (hvalid.refMut hkind)).1
        have hloan : s.loan g = some .write := hwrite ▸ State.loan_user hheld howner
        exact hsingle (acts rfl (.mutate hloan)) rfl
    | expire _ => exact hstutter rfl rfl

/-! ## Linearizability -/

/-- Every interleaving of accessors and uses of guards is explained by a sequence of whole accessors
on the atomic slot, which starts with the same value and ends with what the slot holds. -/
theorem takeSlot_linearizable (hlock : lock.Sound) (hobliging : lock.Obliging) {v : V}
    {trace : Trace Client V} {s : State Client V} (hrun : Run (Step lock) (new v) trace s) :
    ∃ history, Atomic.Linearizes (AtomicSlot.object V) (.new v) (visible Label.view trace) history
      s.atomic := by
  rcases (simulates hlock hobliging v).run ⟨[], .nil _⟩ rfl hrun with
    ⟨_, ⟨trace', hrun', hvisible⟩, rfl⟩
  have hnew : (new v : State Client V).abstract = Atomic.init (.new v) := by
    have hloan : (new v : State Client V).loan = fun _ => none := rfl
    exact congrArg₂ Atomic.State.mk (congrArg (AtomicSlot.mk (some v) false) hloan) rfl
  rw [hnew] at hrun'
  exact ⟨_, hvisible ▸ Atomic.linearizes hrun'⟩

/-- Two clients race for the value 7: one is granted the lock, the other is refused. -/
theorem takeSlot_linearizable_race :
    ∃ trace, ∃ s : State Bool Nat, Run (Step Lock.standard) (new 7) trace s ∧
      visible Label.view trace = [.invoke false .tryResolve, .invoke true .tryResolve,
        .respond true .tryResolve (.failed .valueAccessContention),
        .respond false .tryResolve (.taken 7)] ∧
      ∃ history, Atomic.Linearizes (AtomicSlot.object Nat) (.new 7) (visible Label.view trace)
        history s.atomic := by
  have hnew : Run (Step Lock.standard) (new 7 : State Bool Nat) [] (new 7) := .nil _
  have hfirst : Step Lock.standard (new 7 : State Bool Nat) (.start false .tryResolve) _ :=
    .start rfl
  have hsecond := hnew.snoc hfirst
    |>.snoc (.grant (c := false) rfl ⟨fun _ _ => rfl, fun _ => rfl⟩)
    |>.snoc (show Step Lock.standard _ (.start true .tryResolve) _ from .start rfl)
  have hheld : ∀ {held : GuardId → Option Access}, held 0 = some .write →
      Lock.standard .write held false := fun h =>
    ⟨nofun, fun hfree => by cases h.symm.trans (hfree 0)⟩
  have hrun := hsecond
    |>.snoc (.refuse (c := true) rfl (hheld rfl))
    |>.snoc (.return (c := true) rfl)
    |>.snoc (.check (c := false) rfl rfl)
    |>.snoc (.access (c := false) rfl rfl)
    |>.snoc (.release (c := false) rfl)
    |>.snoc (.return (c := false) rfl)
  exact ⟨_, _, hrun, rfl,
    takeSlot_linearizable Lock.standard_sound Lock.standard_obliging hrun⟩

/-! ## Progress -/

/-- The steps a call has still to take. -/
def Phase.remaining : Phase V → Nat
  | .idle => 0
  | .acquiring _ => 5
  | .locked _ _ => 4
  | .entered call _ => if call.checks then 3 else 4
  | .cloning _ _ | .reserving _ _ => 3
  | .leaving _ _ _ => 2
  | .returning _ _ => 1

/-- Every step of a call brings it nearer to its end. -/
theorem Step.remaining {l : Label Client V} {t : State Client V} (h : Inv none s)
    (hstep : Step lock s l t) (hc : l.client = some c) (hstart : l.isStart = false) :
    (t.phase c).remaining < (s.phase c).remaining := by
  have hvalid := h.phases c nofun
  cases hstep with
  | start _ => cases hstart
  | refuse hphase _ =>
      cases hc
      simp [hphase, Phase.remaining]
  | @grant _ call hphase _ =>
      cases hc
      cases hchecks : call.checks <;> simp [hphase, afterGrant, hchecks, Phase.remaining]
  | check hphase _ =>
      cases hc
      simp only [hphase, Phase.Valid] at hvalid
      cases hreserved : s.reserved <;>
        simp [hphase, afterCheck, Phase.remaining, hvalid.1]
  | @access _ call g guard hphase _ =>
      cases hc
      simp only [goto_phase, hphase]
      -- Only an accessor without a check has a step between the payload and its exit.
      rcases payload_cases call g s.value with
        ⟨_, heq⟩ | ⟨_, _, ⟨hop, heq⟩ | ⟨hop, heq⟩ | ⟨hop, heq⟩ | ⟨hop, heq⟩ | ⟨hop, heq⟩⟩
      · simp only [heq, Phase.remaining]
        split <;> omega
      all_goals simp [heq, Phase.remaining, Call.checks, hop]
  | clone hphase =>
      cases hc
      simp [hphase, Phase.remaining]
  | reserve hphase =>
      cases hc
      simp [hphase, Phase.remaining]
  | release hphase =>
      cases hc
      simp [hphase, Phase.remaining]
  | «return» hphase =>
      cases hc
      simp [hphase, Phase.remaining]
  | _ => cases hc

/-- Accessors are wait-free: in every run a call takes at most six steps of its own, and until it
has returned it has one to take, whatever the other clients do. -/
theorem takeSlot_waitFree (hlock : lock.Sound)
    (hanswers : ∀ wanted held, ∃ granted, lock wanted held granted) {v : V}
    {trace : Trace Client V} {s : State Client V} (hrun : Run (Step lock) (new v) trace s)
    (c : Client) :
    (own c trace).length ≤ 6 ∧
      (s.phase c ≠ .idle → ∃ l t, l.client = some c ∧ Step lock s l t) := by
  refine ⟨?_, ((Inv.new v).run hlock hrun).progress hanswers⟩
  have hbound : (own c trace).length + (s.phase c).remaining ≤ 6 := by
    refine own_invariant (Q := fun c steps s => steps.length + (s.phase c).remaining ≤ 6)
      hlock ?_ ?_ ?_ ?_ hrun c
    · intro c
      simp [new, Phase.remaining]
    · intro c steps s l s' _ hc hstep hle
      simpa only [hstep.phase_other hc] using hle
    · intro c call s _
      simp [Phase.remaining]
    · intro c steps s l s' hinv hc hstart hstep hle
      have hless := hstep.remaining hinv hc hstart
      simp only [List.length_append, List.length_singleton]
      omega
  omega

/-- A clone takes all six. -/
theorem takeSlot_waitFree_clone :
    ∃ trace, ∃ s : State Unit Nat, Run (Step Lock.standard) (new 7) trace s ∧
      (own () trace).length = 6 ∧ (own () trace).length ≤ 6 := by
  have hnew : Run (Step Lock.standard) (new 7 : State Unit Nat) [] (new 7) := .nil _
  have hstart : Step Lock.standard (new 7 : State Unit Nat) (.start () .tryResolveClone) _ :=
    .start rfl
  have hrun := hnew.snoc hstart
    |>.snoc (.grant (c := ()) rfl ⟨fun _ _ => nofun, fun _ => rfl⟩)
    |>.snoc (.access (c := ()) rfl rfl)
    |>.snoc (show Step Lock.standard _ (.clone () (some 7)) _ from .clone rfl)
    |>.snoc (.release (c := ()) rfl)
    |>.snoc (.return (c := ()) rfl)
  have hanswers : ∀ wanted held, ∃ granted, Lock.standard wanted held granted := by
    intro wanted held
    cases wanted with
    | read =>
        by_cases hfree : ∀ g, held g ≠ some .write
        · exact ⟨true, fun _ => hfree, fun _ => rfl⟩
        · exact ⟨false, nofun, fun h => absurd h hfree⟩
    | write =>
        by_cases hfree : ∀ g, held g = none
        · exact ⟨true, fun _ => hfree, fun _ => rfl⟩
        · exact ⟨false, nofun, fun h => absurd h hfree⟩
  exact ⟨_, _, hrun, rfl, (takeSlot_waitFree Lock.standard_sound hanswers hrun ()).1⟩

end Steps

end Storage
end Systasis
