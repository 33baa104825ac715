import Systasis.Storage.TakeSlot

/-!
# Safety — what every interleaving of a `TakeSlot` preserves

The invariant joins the flag, the payload, the outstanding guards and the position of every client.
It is stated with one client left out, the one that is between two positions, so that a step is the
composition of small updates: lift the client out, change one guard or one field, put the client
back.
-/

namespace Systasis
namespace Storage

open Lib

variable {Client V : Type}

/-! ## The invariant -/

/-- The guard a client's call still holds. -/
def Phase.guard : Phase V → Option GuardId
  | .locked _ g | .entered _ g | .cloning _ g | .reserving _ g | .leaving _ g _ => some g
  | .returning _ (.ref g) | .returning _ (.refMut g) => some g
  | _ => none

/-- What an outstanding guard says about the slot. -/
structure Guard.Valid (s : State Client V) (guard : Guard Client) : Prop where
  ref : guard.kind = .ref → guard.access = .read
  refMut : guard.kind = .refMut → guard.seen = some false
  seen : guard.seen = some false → guard.access = .write ∧ s.reserved = false
  present : guard.kind ≠ .bare → s.value.isSome

/-- What a result on its way to the caller says about the slot. -/
def Exit.Valid (s : State Client V) (c : Client) : Exit V → Prop
  | .ref g => s.held g = some ⟨.read, .call c, .ref, none⟩
  | .refMut g => s.held g = some ⟨.write, .call c, .refMut, some false⟩
  | .reference => s.reserved = true
  | _ => True

/-- What a client's position says about the guard it holds. -/
def Phase.Valid (s : State Client V) (c : Client) : Phase V → Prop
  | .idle | .acquiring _ => True
  | .locked call g =>
      call.checks = true ∧ s.held g = some ⟨call.access, .call c, .bare, none⟩
  | .entered call g =>
      s.held g =
        some ⟨call.access, .call c, .bare, if call.checks then some false else none⟩
  | .cloning _ g => s.held g = some ⟨.read, .call c, .ref, none⟩
  | .reserving _ g => s.held g = some ⟨.write, .call c, .bare, none⟩ ∧ s.value.isSome
  | .leaving _ g exit =>
      (∃ guard, s.held g = some guard ∧ guard.owner = .call c) ∧
        (exit = .reference → s.reserved = true) ∧ (Phase.returning .tryResolve exit).guard = none
  | .returning _ exit => exit.Valid s c

/-- The invariant, with `moving` between two positions. -/
structure Inv (moving : Option Client) (s : State Client V) : Prop where
  fresh : ∀ g, s.next ≤ g → s.held g = none
  exclusive : ∀ g g' guard guard', s.held g = some guard → s.held g' = some guard' →
    guard.access = .write → g = g'
  guards : ∀ g guard, s.held g = some guard → guard.Valid s
  reserved : s.reserved = true → s.value.isSome
  references : 0 < s.references → s.reserved = true
  phases : ∀ c, moving ≠ some c → (s.phase c).Valid s c
  owned : ∀ g guard c, moving ≠ some c → s.held g = some guard → guard.owner = .call c →
    (s.phase c).guard = some g

theorem Inv.new (value : V) : Inv none (new value : State Client V) := by
  constructor <;> simp [Storage.new, Phase.Valid]

/-- A position stays valid when the guards of its client are kept and the slot is not emptied
under a reservation. -/
theorem Phase.Valid.frame {s s' : State Client V} {c : Client} {p : Phase V}
    (hvalid : p.Valid s c)
    (hheld : ∀ g guard, s.held g = some guard → guard.owner = .call c → s'.held g = some guard)
    (hreserved : s.reserved = true → s'.reserved = true)
    (hvalue : ∀ call g, p = .reserving call g → s.value.isSome → s'.value.isSome) :
    p.Valid s' c := by
  cases p with
  | idle => trivial
  | acquiring call => trivial
  | locked call g => exact ⟨hvalid.1, hheld _ _ hvalid.2 rfl⟩
  | entered call g => exact hheld _ _ hvalid rfl
  | cloning call g => exact hheld _ _ hvalid rfl
  | reserving call g => exact ⟨hheld _ _ hvalid.1 rfl, hvalue call g rfl hvalid.2⟩
  | leaving call g exit =>
      rcases hvalid with ⟨⟨guard, hguard, howner⟩, hreference, hplain⟩
      exact ⟨⟨guard, hheld _ _ hguard howner, howner⟩, fun h => hreserved (hreference h), hplain⟩
  | returning call exit =>
      cases exit with
      | ref g => exact hheld _ _ hvalid rfl
      | refMut g => exact hheld _ _ hvalid rfl
      | reference => exact hreserved hvalid
      | taken value => trivial
      | cloned value => trivial
      | failed error => trivial
      | unwound => trivial

namespace Inv

variable {s : State Client V} {moving : Option Client} {g : GuardId} {guard : Guard Client}

/-! ## Updates -/

theorem lift (h : Inv none s) (c : Client) : Inv (some c) s where
  fresh := h.fresh
  exclusive := h.exclusive
  guards := h.guards
  reserved := h.reserved
  references := h.references
  phases := fun c' _ => h.phases c' nofun
  owned := fun g guard c' _ => h.owned g guard c' nofun

theorem lt_next (h : Inv moving s) (hheld : s.held g = some guard) : g < s.next := by
  by_contra hle
  rw [h.fresh g (not_lt.1 hle)] at hheld
  cases hheld

/-- Replacing what stands at one guard that no resting client owns. -/
theorem set (h : Inv moving s) {x : Option (Guard Client)} (hlt : g < s.next)
    (hfree : ∀ guard c, s.held g = some guard → guard.owner = .call c → moving = some c)
    (hvalid : ∀ guard, x = some guard → guard.Valid s)
    (howner : ∀ guard c, x = some guard → guard.owner = .call c → moving = some c)
    (hshared : ∀ guard g' guard', x = some guard → g' ≠ g → s.held g' = some guard' →
      guard.access ≠ .write ∧ guard'.access ≠ .write) :
    Inv moving (s.set g x) where
  fresh := by
    intro g' hle
    have hne : g' ≠ g := fun heq => absurd (heq ▸ hlt) (not_lt.2 hle)
    simpa [State.set, hne] using h.fresh g' hle
  exclusive := by
    intro g₁ g₂ guard₁ guard₂ h₁ h₂ hwrite
    simp only [State.set, Function.update_apply] at h₁ h₂
    split at h₁ <;> split at h₂
    · simp_all
    · rename_i hg₁ hg₂
      exact absurd hwrite (hshared guard₁ g₂ guard₂ h₁ hg₂ h₂).1
    · rename_i hg₁ hg₂
      exact absurd hwrite (hshared guard₂ g₁ guard₁ h₂ hg₁ h₁).2
    · exact h.exclusive g₁ g₂ guard₁ guard₂ h₁ h₂ hwrite
  guards := by
    intro g' guard hheld
    simp only [State.set, Function.update_apply] at hheld
    have hguard : guard.Valid s := by
      split at hheld
      · exact hvalid guard hheld
      · exact h.guards g' guard hheld
    exact ⟨hguard.ref, hguard.refMut, hguard.seen, hguard.present⟩
  reserved := h.reserved
  references := h.references
  phases := by
    intro c hc
    refine (h.phases c hc).frame ?_ id fun _ _ _ => id
    intro g' guard hheld howner'
    have hne : g' ≠ g := by
      rintro rfl
      exact hc (hfree guard c hheld howner')
    simpa [State.set, hne] using hheld
  owned := by
    intro g' guard c hc hheld howner'
    simp only [State.set, Function.update_apply] at hheld
    split at hheld
    · exact absurd (howner guard c hheld howner') hc
    · exact h.owned g' guard c hc hheld howner'

/-- Releasing a guard. -/
theorem unset (h : Inv moving s) (hheld : s.held g = some guard)
    (hfree : ∀ c, guard.owner = .call c → moving = some c) : Inv moving (s.set g none) := by
  refine h.set (h.lt_next hheld) ?_ ?_ ?_ ?_
  · intro guard' c hheld' howner
    rw [hheld] at hheld'
    cases hheld'
    exact hfree c howner
  · intro _ hnone
    cases hnone
  · intro _ _ hnone
    cases hnone
  · intro _ _ _ hnone
    cases hnone

/-- Changing a guard without changing its access. -/
theorem modify (h : Inv moving s) (hheld : s.held g = some guard) (guard' : Guard Client)
    (hfree : ∀ c, guard.owner = .call c → moving = some c)
    (haccess : guard'.access = guard.access) (hvalid : guard'.Valid s)
    (howner : ∀ c, guard'.owner = .call c → moving = some c) :
    Inv moving (s.set g (some guard')) := by
  refine h.set (h.lt_next hheld) ?_ ?_ ?_ ?_
  · intro guard'' c hheld' hcall
    rw [hheld] at hheld'
    cases hheld'
    exact hfree c hcall
  · intro _ heq
    cases heq
    exact hvalid
  · intro _ c heq
    cases heq
    exact howner c
  · intro _ g' guard'' heq hne hheld'
    cases heq
    -- Either access being exclusive would make the two guards one.
    constructor
    · intro hwrite
      exact hne (h.exclusive g g' guard guard'' hheld hheld' (haccess ▸ hwrite)).symm
    · intro hwrite
      exact hne (h.exclusive g' g guard'' guard hheld' hheld hwrite)

/-- Storing another value. -/
theorem store (h : Inv moving s) {value : Option V} (hvalue : s.value.isSome → value.isSome) :
    Inv moving { s with value := value } where
  fresh := h.fresh
  exclusive := h.exclusive
  guards := fun g guard hheld =>
    let hguard := h.guards g guard hheld
    ⟨hguard.ref, hguard.refMut, hguard.seen, fun hkind => hvalue (hguard.present hkind)⟩
  reserved := fun hreserved => hvalue (h.reserved hreserved)
  references := h.references
  phases := fun c hc =>
    (h.phases c hc).frame (fun _ _ hheld _ => hheld) id fun _ _ _ => hvalue
  owned := h.owned

/-- Taking the value under a bare write guard of the moving client that saw no reservation. -/
theorem take {c : Client} (h : Inv (some c) s) (hheld : s.held g = some guard)
    (hwrite : guard.access = .write) (howner : guard.owner = .call c) (hbare : guard.kind = .bare)
    (hreserved : s.reserved = false) : Inv (some c) { s with value := none } where
  fresh := h.fresh
  exclusive := h.exclusive
  guards := by
    intro g' guard' hheld'
    have hguard := h.guards g' guard' hheld'
    refine ⟨hguard.ref, hguard.refMut, hguard.seen, ?_⟩
    intro hkind
    have heq := h.exclusive g g' guard guard' hheld hheld' hwrite
    subst heq
    rw [hheld] at hheld'
    cases hheld'
    exact absurd hbare hkind
  reserved := by
    intro htrue
    exact absurd htrue (by simp [hreserved])
  references := h.references
  phases := by
    intro c' hc'
    refine (h.phases c' hc').frame (fun _ _ hheld _ => hheld) id ?_
    intro call g' hphase _
    -- Another client about to reserve would hold the same write guard.
    have hother := h.phases c' hc'
    rw [hphase] at hother
    have heq := h.exclusive g g' guard _ hheld hother.1 hwrite
    subst heq
    have hsame := hheld.symm.trans hother.1
    simp only [Option.some.injEq] at hsame
    rw [hsame] at howner
    cases howner
    exact absurd rfl hc'
  owned := h.owned

/-- Setting the flag under a write guard that has not read it. -/
theorem reserve {c : Client} (h : Inv (some c) s)
    (hheld : s.held g = some ⟨.write, .call c, .bare, none⟩) (hvalue : s.value.isSome) :
    Inv (some c) { s with reserved := true } where
  fresh := h.fresh
  exclusive := h.exclusive
  guards := by
    intro g' guard' hheld'
    have hguard := h.guards g' guard' hheld'
    refine ⟨hguard.ref, hguard.refMut, ?_, hguard.present⟩
    intro hseen
    have heq := h.exclusive g g' _ guard' hheld hheld' rfl
    subst heq
    rw [hheld] at hheld'
    cases hheld'
    cases hseen
  reserved := fun _ => hvalue
  references := fun _ => rfl
  phases := fun c' hc' =>
    (h.phases c' hc').frame (fun _ _ hheld _ => hheld) (fun _ => rfl) fun _ _ _ => id
  owned := h.owned

/-- Putting the moving client back. -/
theorem goto [DecidableEq Client] {c : Client} {p : Phase V} (h : Inv (some c) s) (hvalid : p.Valid s c)
    (howned : ∀ g guard, s.held g = some guard → guard.owner = .call c → p.guard = some g) :
    Inv none (s.goto c p) where
  fresh := h.fresh
  exclusive := h.exclusive
  guards := fun g guard hheld =>
    let hguard := h.guards g guard hheld
    ⟨hguard.ref, hguard.refMut, hguard.seen, hguard.present⟩
  reserved := h.reserved
  references := h.references
  phases := by
    intro c' _
    by_cases hc : c' = c
    · subst hc
      have hphase : (s.goto c' p).phase c' = p := by simp [State.goto]
      rw [hphase]
      exact hvalid.frame (fun _ _ hheld _ => hheld) id fun _ _ _ => id
    · have hphase : (s.goto c p).phase c' = s.phase c' := by simp [State.goto, hc]
      rw [hphase]
      exact (h.phases c' (by simpa using Ne.symm hc)).frame (fun _ _ hheld _ => hheld) id
        fun _ _ _ => id
  owned := by
    intro g guard c' _ hheld howner
    by_cases hc : c' = c
    · subst hc
      simpa [State.goto] using howned g guard hheld howner
    · simpa [State.goto, hc] using
        h.owned g guard c' (by simpa using Ne.symm hc) hheld howner

/-- A guard that a client holds is the one its position names. -/
theorem guard_eq (h : Inv none s) {c : Client} (hheld : s.held g = some guard)
    (howner : guard.owner = .call c) : (s.phase c).guard = some g :=
  h.owned g guard c nofun hheld howner

/-- After an update of the one guard a client holds, it holds no other. -/
theorem only_guard (h : Inv none s) {c : Client} (hphase : (s.phase c).guard = some g)
    {x : Option (Guard Client)} {g' : GuardId} {guard' : Guard Client}
    (hheld : (s.set g x).held g' = some guard') (howner : guard'.owner = .call c) :
    g' = g ∧ x = some guard' := by
  by_cases heq : g' = g
  · subst heq
    exact ⟨rfl, by simpa [State.set] using hheld⟩
  · have hother := h.guard_eq (g := g') (by simpa [State.set, heq] using hheld) howner
    rw [hphase] at hother
    cases hother
    exact absurd rfl heq

/-- A client at rest holds no guard. -/
theorem no_guard (h : Inv none s) {c : Client} (hphase : (s.phase c).guard = none)
    (hheld : s.held g = some guard) : guard.owner ≠ .call c := by
  intro howner
  have hsome := h.guard_eq hheld howner
  rw [hphase] at hsome
  cases hsome

end Inv

/-! ## Steps -/

/-- What the payload access of each accessor does. -/
theorem payload_cases (call : Call) (g : GuardId) (value : Option V) :
    (value = none ∧
      payload call g value = (none, .bare, .leaving call g (.failed .valueAlreadyConsumed))) ∨
    ∃ v, value = some v ∧
      ((call.operation = .tryResolve ∧
          payload call g value = (none, .bare, .leaving call g (.taken v))) ∨
        (call.operation = .tryResolveRef ∧
          payload call g value = (some v, .ref, .returning call (.ref g))) ∨
        (call.operation = .tryResolveRefMut ∧
          payload call g value = (some v, .refMut, .returning call (.refMut g))) ∨
        (call.operation = .tryResolveClone ∧
          payload call g value = (some v, .ref, .cloning call g)) ∨
        (call.operation = .tryReserveRef ∧
          payload call g value = (some v, .bare, .reserving call g))) := by
  cases value with
  | none => exact .inl ⟨rfl, rfl⟩
  | some v => cases call <;> simp [payload, Call.operation]

section Steps

variable [DecidableEq Client] {lock : Lock} {s : State Client V} {c : Client} {call : Call}
  {g : GuardId} {guard : Guard Client}

theorem Inv.grant_step (hlock : lock.Sound) (h : Inv none s) (hphase : s.phase c = .acquiring call)
    (hgranted : lock call.access s.accesses true) :
    Inv none (({ s with next := s.next + 1 }.set s.next (some (grant c call))).goto c
      (afterGrant call s.next)) := by
  have hbumped : Inv (some c) { s with next := s.next + 1 } :=
    { h.lift c with
      fresh := fun g hle => h.fresh g (Nat.le_of_succ_le hle)
      guards := fun g guard hheld =>
        let hguard := h.guards g guard hheld
        ⟨hguard.ref, hguard.refMut, hguard.seen, hguard.present⟩
      phases := fun c' hc' =>
        ((h.lift c).phases c' hc').frame (fun _ _ hheld _ => hheld) id fun _ _ _ => id }
  have hfresh : s.held s.next = none := h.fresh s.next le_rfl
  have hset : Inv (some c)
      ({ s with next := s.next + 1 }.set s.next (some (grant c call))) := by
    refine hbumped.set (Nat.lt_succ_self _) ?_ ?_ ?_ ?_
    · intro guard _ hheld
      rw [hfresh] at hheld
      cases hheld
    · rintro _ ⟨⟩
      constructor <;> simp [grant]
    · rintro _ _ ⟨⟩ howner
      simpa [grant] using howner
    · rintro _ g' guard' ⟨⟩ - hheld
      have hother : s.accesses g' = some guard'.access := by
        simp only [State.accesses]
        rw [show s.held g' = some guard' from hheld]
        rfl
      -- The lock promises that nothing incompatible is outstanding.
      cases haccess : call.access with
      | read =>
          rw [haccess] at hgranted
          refine ⟨by simp [grant, haccess], ?_⟩
          intro hwrite
          exact hlock.read _ hgranted g' (by rw [hother, hwrite])
      | write =>
          rw [haccess] at hgranted
          rw [hlock.write _ hgranted g'] at hother
          cases hother
  refine hset.goto ?_ ?_
  · unfold afterGrant
    split
    · exact ⟨‹_›, by simp [State.set, grant]⟩
    · simp_all [Phase.Valid, State.set, grant]
  · intro g' guard' hheld howner
    have heq : g' = s.next := by
      by_contra hne
      have hold : s.held g' = some guard' := by simpa [State.set, hne] using hheld
      exact h.no_guard (by rw [hphase]; rfl) hold howner
    subst heq
    unfold afterGrant
    split <;> rfl

theorem Inv.check_step (h : Inv none s) (hphase : s.phase c = .locked call g)
    (hheld : s.held g = some guard) :
    Inv none ((s.set g (some { guard with seen := some s.reserved })).goto c
      (afterCheck call g s.reserved)) := by
  have hvalid := h.phases c nofun
  rw [hphase] at hvalid
  rcases hvalid with ⟨hchecks, hlocked⟩
  cases hheld.symm.trans hlocked
  have hwrite : call.access = .write := by
    cases call <;> simp_all [Call.checks, Call.access, Call.operation]
  have hset := (h.lift c).modify hheld ⟨call.access, .call c, .bare, some s.reserved⟩
    (fun _ howner => by cases howner; rfl) rfl
    ⟨nofun, nofun, fun hseen => ⟨hwrite, by simpa using hseen⟩, fun hkind => absurd rfl hkind⟩
    (fun _ howner => by cases howner; rfl)
  refine hset.goto ?_ ?_
  · unfold afterCheck
    split
    · exact ⟨⟨_, Function.update_self .., rfl⟩, nofun, rfl⟩
    · simp_all [Phase.Valid, State.set]
  · intro g' guard' hheld' howner
    rw [(h.only_guard (by rw [hphase]; rfl) hheld' howner).1]
    unfold afterCheck
    split <;> rfl

theorem Inv.access_step (h : Inv none s) (hphase : s.phase c = .entered call g)
    (hheld : s.held g = some guard) :
    Inv none (({ s with value := (payload call g s.value).1 }.set g
        (some { guard with kind := (payload call g s.value).2.1 })).goto c
      (payload call g s.value).2.2) := by
  have hentered := h.phases c nofun
  rw [hphase] at hentered
  cases hheld.symm.trans hentered
  have hbare := h.guards g _ hheld
  have hmine : ∀ c', (Owner.call c : Owner Client) = .call c' → some c = some c' :=
    fun _ heq => by cases heq; rfl
  -- What the updated state still owes: the guard with its new wrapper, and the new position.
  suffices hgoal : ∀ value kind p, payload call g s.value = (value, kind, p) →
      Inv (some c) { s with value := value } ∧
      Guard.Valid { s with value := value } ⟨call.access, .call c, kind,
        if call.checks then some false else none⟩ ∧
      p.Valid ({ s with value := value }.set g (some ⟨call.access, .call c, kind,
        if call.checks then some false else none⟩)) c ∧ p.guard = some g by
    rcases hgoal _ _ _ rfl with ⟨hstore, hguard, hvalid, hp⟩
    refine (hstore.modify hheld ⟨call.access, .call c, (payload call g s.value).2.1,
      if call.checks then some false else none⟩ hmine rfl hguard hmine).goto hvalid ?_
    intro g' guard' hheld' howner
    rw [(h.only_guard (by rw [hphase]; rfl) hheld' howner).1]
    exact hp
  intro value kind p hpayload
  have hsame : ∀ value, s.value = value → Inv (some c) { s with value := value } := by
    rintro _ rfl
    exact h.lift c
  rcases payload_cases call g s.value with
    ⟨hnone, heq⟩ | ⟨v, hsome, ⟨hop, heq⟩ | ⟨hop, heq⟩ | ⟨hop, heq⟩ | ⟨hop, heq⟩ | ⟨hop, heq⟩⟩
  all_goals
    rw [heq] at hpayload
    cases hpayload
  · refine ⟨hsame _ hnone, ⟨hbare.ref, hbare.refMut, hbare.seen, fun hkind => absurd rfl hkind⟩, ?_, rfl⟩
    exact ⟨⟨_, Function.update_self .., rfl⟩, nofun, rfl⟩
  · have hchecks : call.checks = true := by simp [Call.checks, hop]
    have hseen := hbare.seen (by simp [hchecks])
    refine ⟨(h.lift c).take hheld hseen.1 rfl rfl hseen.2,
      ⟨hbare.ref, hbare.refMut, hbare.seen, fun hkind => absurd rfl hkind⟩, ?_, rfl⟩
    exact ⟨⟨_, Function.update_self .., rfl⟩, nofun, rfl⟩
  · have hchecks : call.checks = false := by simp [Call.checks, hop]
    have hread : call.access = .read := by simp [Call.access, hop]
    refine ⟨hsame _ hsome, ⟨fun _ => hread, nofun, hbare.seen, fun _ => rfl⟩, ?_, rfl⟩
    simp [Phase.Valid, Exit.Valid, State.set, hchecks, hread]
  · have hchecks : call.checks = true := by simp [Call.checks, hop]
    have hwrite : call.access = .write := by simp [Call.access, hop]
    refine ⟨hsame _ hsome, ⟨nofun, fun _ => by simp [hchecks], hbare.seen, fun _ => rfl⟩, ?_, rfl⟩
    simp [Phase.Valid, Exit.Valid, State.set, hchecks, hwrite]
  · have hchecks : call.checks = false := by simp [Call.checks, hop]
    have hread : call.access = .read := by simp [Call.access, hop]
    refine ⟨hsame _ hsome, ⟨fun _ => hread, nofun, hbare.seen, fun _ => rfl⟩, ?_, rfl⟩
    simp [Phase.Valid, State.set, hchecks, hread]
  · have hchecks : call.checks = false := by simp [Call.checks, hop]
    have hwrite : call.access = .write := by simp [Call.access, hop]
    refine ⟨hsame _ hsome, ⟨hbare.ref, hbare.refMut, hbare.seen, fun hkind => absurd rfl hkind⟩, ?_, rfl⟩
    simp [Phase.Valid, State.set, hchecks, hwrite]

theorem Inv.release_step {exit : Exit V} (h : Inv none s) (hphase : s.phase c = .leaving call g exit) :
    Inv none ((s.set g none).goto c (.returning call exit)) := by
  have hleaving := h.phases c nofun
  rw [hphase] at hleaving
  rcases hleaving with ⟨⟨guard, hheld, howner⟩, hreference, hplain⟩
  have hset := (h.lift c).unset hheld fun c' hc' => by rw [howner] at hc'; cases hc'; rfl
  refine hset.goto ?_ ?_
  · cases exit with
    | ref g => cases hplain
    | refMut g => cases hplain
    | reference => exact hreference rfl
    | taken value => trivial
    | cloned value => trivial
    | failed error => trivial
    | unwound => trivial
  · intro g' guard' hheld' howner'
    cases (h.only_guard (by rw [hphase]; rfl) hheld' howner').2

theorem Inv.return_step {exit : Exit V} (h : Inv none s) (hphase : s.phase c = .returning call exit) :
    Inv none ((deliver s exit).goto c .idle) := by
  have hreturning := h.phases c nofun
  rw [hphase] at hreturning
  have hrest : (Phase.returning call exit).guard = none → Inv none (s.goto c .idle) := by
    intro hplain
    refine (h.lift c).goto trivial ?_
    intro g' guard' hheld' howner
    exact absurd howner (h.no_guard (by rw [hphase]; exact hplain) hheld')
  -- A returned guard leaves the call and becomes the user's.
  have hhand : ∀ g guard, s.held g = some guard → guard.owner = .call c →
      (s.phase c).guard = some g →
      Inv none ((s.set g ((s.held g).map fun guard => { guard with owner := .user })).goto c
        .idle) := by
    intro g guard hheld howner hguard
    have hvalid := h.guards g guard hheld
    rw [hheld]
    refine ((h.lift c).modify hheld { guard with owner := .user }
      (fun c' hc' => by rw [howner] at hc'; cases hc'; rfl) rfl
      ⟨hvalid.ref, hvalid.refMut, hvalid.seen, hvalid.present⟩ nofun).goto trivial ?_
    intro g' guard' hheld' howner'
    have honly := (h.only_guard hguard hheld' howner').2
    cases honly
    cases howner'
  cases exit with
  | ref g => exact hhand g _ hreturning rfl (by rw [hphase]; rfl)
  | refMut g => exact hhand g _ hreturning rfl (by rw [hphase]; rfl)
  | reference =>
      have hidle := hrest rfl
      exact
        { hidle with
          guards := fun g guard hheld =>
            let hguard := hidle.guards g guard hheld
            ⟨hguard.ref, hguard.refMut, hguard.seen, hguard.present⟩
          references := fun _ => hreturning
          phases := fun c' hc' =>
            (hidle.phases c' hc').frame (fun _ _ hheld _ => hheld) id fun _ _ _ => id }
  | taken value => exact hrest rfl
  | cloned value => exact hrest rfl
  | failed error => exact hrest rfl
  | unwound => exact hrest rfl

/-- Every step of every client preserves the invariant. -/
theorem Inv.step (hlock : lock.Sound) {s' : State Client V} {l : Label Client V}
    (h : Inv none s) (hstep : Step lock s l s') : Inv none s' := by
  -- The positions of a client that holds the same guard before and after.
  have hkeep : ∀ {c : Client} {p : Phase V}, p.Valid s c → p.guard = (s.phase c).guard →
      Inv none (s.goto c p) := by
    intro c p hvalid hguard
    refine (h.lift c).goto hvalid ?_
    intro g guard hheld howner
    rw [hguard]
    exact h.guard_eq hheld howner
  cases hstep with
  | start hphase => exact hkeep trivial (by rw [hphase]; rfl)
  | refuse hphase _ => exact hkeep trivial (by rw [hphase]; rfl)
  | grant hphase hgranted => exact h.grant_step hlock hphase hgranted
  | check hphase hheld => exact h.check_step hphase hheld
  | access hphase hheld => exact h.access_step hphase hheld
  | @clone c call g result hphase =>
      have hcloning := h.phases c nofun
      rw [hphase] at hcloning
      refine hkeep ⟨⟨_, hcloning, rfl⟩, ?_, ?_⟩ (by rw [hphase]; rfl)
      · cases result <;> nofun
      · cases result <;> rfl
  | @reserve c call g hphase =>
      have hreserving := h.phases c nofun
      rw [hphase] at hreserving
      refine ((h.lift c).reserve hreserving.1 hreserving.2).goto
        ⟨⟨_, hreserving.1, rfl⟩, fun _ => rfl, rfl⟩ ?_
      intro g' guard' hheld' howner
      have hguard := h.guard_eq hheld' howner
      rw [hphase] at hguard
      exact hguard
  | release hphase => exact h.release_step hphase
  | «return» hphase => exact h.return_step hphase
  | map _ _ _ => exact h
  | drop hheld howner => exact h.unset hheld fun _ hc => by rw [howner] at hc; cases hc
  | @forget g guard hheld howner =>
      have hvalid := h.guards g guard hheld
      exact h.modify hheld { guard with owner := .nobody }
        (fun _ hc => by rw [howner] at hc; cases hc) rfl
        ⟨hvalid.ref, hvalid.refMut, hvalid.seen, hvalid.present⟩ nofun
  | mutate _ _ _ => exact h.store fun hvalue => by simpa using hvalue
  | expire hpositive =>
      exact
        { h with
          guards := fun g guard hheld =>
            let hguard := h.guards g guard hheld
            ⟨hguard.ref, hguard.refMut, hguard.seen, hguard.present⟩
          references := fun _ => h.references hpositive
          phases := fun c hc =>
            (h.phases c hc).frame (fun _ _ hheld _ => hheld) id fun _ _ _ => id }

theorem Inv.run (hlock : lock.Sound) {s' : State Client V}
    {trace : List (Transition (State Client V) (Label Client V))} (h : Inv none s)
    (hrun : Run (Step lock) s trace s') : Inv none s' :=
  hrun.preserves (fun _ _ _ hm hstep => hm.step hlock hstep) h

/-- No accessor ever waits: whatever the other clients do, a client inside a call has a step to
take. -/
theorem Inv.progress (hanswers : ∀ wanted held, ∃ granted, lock wanted held granted)
    (h : Inv none s) (hbusy : s.phase c ≠ .idle) :
    ∃ l s', l.client = some c ∧ Step lock s l s' := by
  have hvalid := h.phases c nofun
  cases hphase : s.phase c with
  | idle => exact absurd hphase hbusy
  | acquiring call =>
      rcases hanswers call.access s.accesses with ⟨granted, hanswer⟩
      cases granted with
      | false => exact ⟨_, _, rfl, .refuse hphase hanswer⟩
      | true => exact ⟨_, _, rfl, .grant hphase hanswer⟩
  | locked call g =>
      simp only [hphase, Phase.Valid] at hvalid
      exact ⟨_, _, rfl, .check hphase hvalid.2⟩
  | entered call g =>
      simp only [hphase, Phase.Valid] at hvalid
      exact ⟨_, _, rfl, .access hphase hvalid⟩
  | cloning call g => exact ⟨.clone c none, _, rfl, .clone hphase⟩
  | reserving call g => exact ⟨_, _, rfl, .reserve hphase⟩
  | leaving call g exit => exact ⟨_, _, rfl, .release hphase⟩
  | returning call exit => exact ⟨_, _, rfl, .return hphase⟩

/-! ## Conflicts -/

/-- A `Ref` is outstanding; the one a forgotten guard leaves behind counts too. -/
def HasRef (s : State Client V) (g : GuardId) : Prop :=
  ∃ guard, s.held g = some guard ∧ guard.kind = .ref

def HasRefMut (s : State Client V) (g : GuardId) : Prop :=
  ∃ guard, s.held g = some guard ∧ guard.kind = .refMut

/-- A reference returned by `try_reserve_ref`, or on its way to the caller. -/
def HasReference (s : State Client V) : Prop :=
  0 < s.references ∨ ∃ c call, s.phase c = .returning call .reference

/-- A step takes the payload or mutates it. -/
def Writes (s : State Client V) (l : Label Client V) (s' : State Client V) : Prop :=
  s'.value ≠ s.value ∨ ∃ g f, l = .mutate g f

/-- The step acts through this guard: it mutates through its `RefMut`, or its call holds it. -/
def Through (s : State Client V) (l : Label Client V) (g : GuardId) : Prop :=
  (∃ f, l = .mutate g f) ∨ ∃ c call, l = .access c ∧ s.phase c = .entered call g

/-- What a guard's holder has read from the flag was read by a check under that guard. -/
theorem Step.seen {s' : State Client V} {l : Label Client V} (hstep : Step lock s l s')
    {b : Bool} (hheld : s'.held g = some guard) (hseen : guard.seen = some b) :
    (∃ guard, s.held g = some guard ∧ guard.seen = some b) ∨
      ∃ c call, l = .check c ∧ s.phase c = .locked call g ∧ s.reserved = b := by
  -- Apart from the check, a step leaves a guard alone, or keeps what it has seen.
  have hkeep : ∀ {m : State Client V} {g' : GuardId} {x : Option (Guard Client)},
      m.held = s.held →
      (∀ guard, x = some guard → guard.seen = some b →
        ∃ guard', s.held g' = some guard' ∧ guard'.seen = some b) →
      (m.set g' x).held g = some guard → ∃ guard, s.held g = some guard ∧ guard.seen = some b := by
    intro m g' x hm hx hset
    simp only [State.set, Function.update_apply, hm] at hset
    split at hset
    · rename_i heq
      subst heq
      exact hx guard hset hseen
    · exact ⟨guard, hset, hseen⟩
  cases hstep with
  | start _ => exact .inl ⟨guard, hheld, hseen⟩
  | refuse _ _ => exact .inl ⟨guard, hheld, hseen⟩
  | grant _ _ =>
      refine .inl (hkeep rfl ?_ hheld)
      intro guard' hgrant hnone
      cases hgrant
      cases hnone
  | @check c call g' guard' hphase hguard =>
      simp only [State.goto, State.set, Function.update_apply] at hheld
      split at hheld
      · rename_i heq
        subst heq
        cases hheld
        exact .inr ⟨c, call, rfl, hphase, by simpa using hseen⟩
      · exact .inl ⟨guard, hheld, hseen⟩
  | access _ hguard =>
      refine .inl (hkeep rfl ?_ hheld)
      intro guard' hsome hseen'
      cases hsome
      exact ⟨_, hguard, hseen'⟩
  | clone _ => exact .inl ⟨guard, hheld, hseen⟩
  | reserve _ => exact .inl ⟨guard, hheld, hseen⟩
  | release _ =>
      refine .inl (hkeep rfl ?_ hheld)
      intro guard' hnone
      cases hnone
  | @«return» c call exit _ =>
      cases exit with
      | ref g' =>
          refine .inl (hkeep rfl ?_ hheld)
          intro guard' hguard' hseen'
          rcases Option.map_eq_some_iff.1 hguard' with ⟨old, hold, rfl⟩
          exact ⟨old, hold, hseen'⟩
      | refMut g' =>
          refine .inl (hkeep rfl ?_ hheld)
          intro guard' hguard' hseen'
          rcases Option.map_eq_some_iff.1 hguard' with ⟨old, hold, rfl⟩
          exact ⟨old, hold, hseen'⟩
      | reference => exact .inl ⟨guard, hheld, hseen⟩
      | taken value => exact .inl ⟨guard, hheld, hseen⟩
      | cloned value => exact .inl ⟨guard, hheld, hseen⟩
      | failed error => exact .inl ⟨guard, hheld, hseen⟩
      | unwound => exact .inl ⟨guard, hheld, hseen⟩
  | map _ _ _ => exact .inl ⟨guard, hheld, hseen⟩
  | drop _ _ =>
      refine .inl (hkeep rfl ?_ hheld)
      intro guard' hnone
      cases hnone
  | forget hguard _ =>
      refine .inl (hkeep rfl ?_ hheld)
      intro guard' hsome hseen'
      cases hsome
      exact ⟨_, hguard, hseen'⟩
  | mutate _ _ _ => exact .inl ⟨guard, hheld, hseen⟩
  | expire _ => exact .inl ⟨guard, hheld, hseen⟩

theorem Run.seen {v : V} {trace : List (Transition (State Client V) (Label Client V))}
    (hrun : Run (Step lock) (new v) trace s) {b : Bool} (hheld : s.held g = some guard)
    (hseen : guard.seen = some b) :
    ∃ t ∈ trace, ∃ c call, t.label = .check c ∧ t.pre.phase c = .locked call g ∧
      t.pre.reserved = b := by
  induction hrun generalizing guard with
  | nil => cases hheld
  | snoc _ hstep ih =>
      rcases hstep.seen hheld hseen with ⟨guard', hheld', hseen'⟩ | ⟨c, call, hl, hphase, hb⟩
      · rcases ih hheld' hseen' with ⟨t, ht, hcheck⟩
        exact ⟨t, List.mem_append_left _ ht, hcheck⟩
      · exact ⟨_, List.mem_append_right _ (List.mem_singleton_self _), c, call, hl, hphase, hb⟩

/-- Only the holder of the write guard that read `reserved = false` writes the payload. -/
theorem Inv.writes (h : Inv none s) {s' : State Client V} {l : Label Client V}
    (hstep : Step lock s l s') (hwrites : Writes s l s') :
    ∃ g guard, Through s l g ∧ s.held g = some guard ∧ guard.access = .write ∧
      guard.seen = some false ∧ s.reserved = false := by
  have hunchanged : s'.value = s.value → (∀ g f, l ≠ .mutate g f) → False := by
    intro hvalue hlabel
    rcases hwrites with hne | ⟨g, f, hl⟩
    · exact hne hvalue
    · exact hlabel g f hl
  cases hstep with
  | @access c call g guard hphase hheld =>
      have hentered := h.phases c nofun
      rw [hphase] at hentered
      have hchecks : call.checks = true := by
        by_contra hnot
        refine hunchanged ?_ nofun
        -- An accessor that does not check leaves the payload as it found it.
        rcases payload_cases call g s.value with
          ⟨hnone, heq⟩ | ⟨v, hsome, ⟨hop, heq⟩ | ⟨hop, heq⟩ | ⟨hop, heq⟩ | ⟨hop, heq⟩ | ⟨hop, heq⟩⟩
        · exact (congrArg Prod.fst heq).trans hnone.symm
        · exact absurd (by simp [Call.checks, hop]) hnot
        all_goals exact (congrArg Prod.fst heq).trans hsome.symm
      have hvalid := h.guards g _ hentered
      have hseen := hvalid.seen (by simp [hchecks])
      exact ⟨g, _, .inr ⟨c, call, rfl, hphase⟩, hentered, hseen.1, by simp [hchecks], hseen.2⟩
  | @mutate g guard f hheld _ hkind =>
      have hvalid := h.guards g guard hheld
      have hseen := hvalid.refMut hkind
      exact ⟨g, guard, .inl ⟨f, rfl⟩, hheld, (hvalid.seen hseen).1, hseen, (hvalid.seen hseen).2⟩
  | @«return» c call exit _ =>
      refine (hunchanged ?_ nofun).elim
      cases exit <;> rfl
  | start _ => exact (hunchanged rfl nofun).elim
  | refuse _ _ => exact (hunchanged rfl nofun).elim
  | grant _ _ => exact (hunchanged rfl nofun).elim
  | check _ _ => exact (hunchanged rfl nofun).elim
  | clone _ => exact (hunchanged rfl nofun).elim
  | reserve _ => exact (hunchanged rfl nofun).elim
  | release _ => exact (hunchanged rfl nofun).elim
  | map _ _ _ => exact (hunchanged rfl nofun).elim
  | drop _ _ => exact (hunchanged rfl nofun).elim
  | forget _ _ => exact (hunchanged rfl nofun).elim
  | expire _ => exact (hunchanged rfl nofun).elim

/-- The flag is never cleared. -/
theorem Step.reserved {s' : State Client V} {l : Label Client V} (hstep : Step lock s l s')
    (hreserved : s.reserved = true) : s'.reserved = true := by
  cases hstep with
  | @«return» c call exit _ => cases exit <;> exact hreserved
  | reserve _ => rfl
  | _ => exact hreserved

/-- A reservation freezes the slot for the rest of the run. -/
theorem Inv.frozen (hlock : lock.Sound) (h : Inv none s) (hreserved : s.reserved = true)
    {s' : State Client V} {trace : List (Transition (State Client V) (Label Client V))}
    (hrun : Run (Step lock) s trace s') : s'.reserved = true ∧ s'.value = s.value := by
  have hfrozen : Inv none s' ∧ s'.reserved = true ∧ s'.value = s.value := by
    refine Run.preserves (P := fun m => Inv none m ∧ m.reserved = true ∧ m.value = s.value) ?_ hrun
      ⟨h, hreserved, rfl⟩
    rintro m l t ⟨hm, hset, hvalue⟩ hstep
    refine ⟨hm.step hlock hstep, hstep.reserved hset, ?_⟩
    rw [← hvalue]
    by_contra hne
    rcases hm.writes hstep (.inl hne) with ⟨_, _, _, _, _, _, hclear⟩
    rw [hset] at hclear
    cases hclear
  exact hfrozen.2

/-- In every state any interleaving reaches, a reference and a conflicting access never coexist:
`RefMut` is exclusive; the payload is written only through a write guard whose holder read the flag
clear, and never beside a shared reference; a live reference has a value to point at; and a
reservation, which keeps no guard, holds the value for the rest of the run. -/
theorem takeSlot_excludes_conflicts (hlock : lock.Sound) {v : V}
    {trace : List (Transition (State Client V) (Label Client V))}
    (hrun : Run (Step lock) (new v) trace s) :
    (∀ g g', HasRefMut s g → HasRefMut s g' → g = g') ∧
    (∀ g g', HasRefMut s g → ¬HasRef s g') ∧
    (∀ l s', Step lock s l s' → Writes s l s' →
      (∃ g guard, Through s l g ∧ s.held g = some guard ∧ guard.access = .write ∧
        (∃ t ∈ trace, ∃ c call, t.label = .check c ∧ t.pre.phase c = .locked call g ∧
          t.pre.reserved = false) ∧ s.reserved = false) ∧
      (∀ g, ¬HasRef s g) ∧ ¬HasReference s) ∧
    ((∃ g, HasRef s g) ∨ (∃ g, HasRefMut s g) ∨ HasReference s → s.value.isSome) ∧
    (s.reserved = true → s.value.isSome ∧ ∀ later s', Run (Step lock) s later s' →
      s'.reserved = true ∧ s'.value = s.value) := by
  have h : Inv none s := (Inv.new v).run hlock hrun
  have hreference : HasReference s → s.reserved = true := by
    rintro (hpositive | ⟨c, call, hphase⟩)
    · exact h.references hpositive
    · have hvalid := h.phases c nofun
      rw [hphase] at hvalid
      exact hvalid
  -- No write guard stands beside a `Ref`.
  have hshared : ∀ g g' guard, s.held g = some guard → guard.access = .write → ¬HasRef s g' := by
    rintro g g' guard hheld hwrite ⟨guard', hheld', hkind⟩
    have heq := h.exclusive g g' guard guard' hheld hheld' hwrite
    subst heq
    cases hheld.symm.trans hheld'
    have hread := (h.guards g guard hheld).ref hkind
    rw [hwrite] at hread
    cases hread
  have hmut : ∀ g guard, s.held g = some guard → guard.kind = .refMut → guard.access = .write := by
    intro g guard hheld hkind
    have hvalid := h.guards g guard hheld
    exact (hvalid.seen (hvalid.refMut hkind)).1
  refine ⟨?_, ?_, ?_, ?_, ?_⟩
  · rintro g g' ⟨guard, hheld, hkind⟩ ⟨guard', hheld', _⟩
    exact h.exclusive g g' guard guard' hheld hheld' (hmut g guard hheld hkind)
  · rintro g g' ⟨guard, hheld, hkind⟩
    exact hshared g g' guard hheld (hmut g guard hheld hkind)
  · intro l s' hstep hwrites
    rcases h.writes hstep hwrites with ⟨g, guard, hthrough, hheld, hwrite, hseen, hclear⟩
    refine ⟨⟨g, guard, hthrough, hheld, hwrite, Run.seen hrun hheld hseen, hclear⟩,
      fun g' => hshared g g' guard hheld hwrite, ?_⟩
    intro href
    rw [hreference href] at hclear
    cases hclear
  · rintro (⟨g, guard, hheld, hkind⟩ | ⟨g, guard, hheld, hkind⟩ | href)
    · exact (h.guards g guard hheld).present (by simp [hkind])
    · exact (h.guards g guard hheld).present (by simp [hkind])
    · exact h.reserved (hreference href)
  · intro hreserved
    exact ⟨h.reserved hreserved, fun later s' hlater => h.frozen hlock hreserved hlater⟩

/-- A lone client reserves the value 7: nothing changes it afterwards, though no guard is left. -/
theorem takeSlot_excludes_conflicts_reserved :
    ∃ trace, ∃ s : State Unit Nat, Run (Step Lock.standard) (new 7) trace s ∧ s.held 0 = none ∧
      ∀ later s', Run (Step Lock.standard) s later s' → s'.value = some 7 := by
  have hnew : Run (Step Lock.standard) (new 7 : State Unit Nat) [] (new 7) := .nil _
  have hstart : Step Lock.standard (new 7 : State Unit Nat) (.start () .tryReserveRef) _ :=
    .start rfl
  have hrun := hnew.snoc hstart
    |>.snoc (.grant (c := ()) rfl ⟨fun _ _ => rfl, fun _ => rfl⟩)
    |>.snoc (.access (c := ()) rfl rfl)
    |>.snoc (.reserve (c := ()) rfl)
    |>.snoc (.release (c := ()) rfl)
    |>.snoc (.return (c := ()) rfl)
  have hsafe := takeSlot_excludes_conflicts Lock.standard_sound hrun
  refine ⟨_, _, hrun, rfl, ?_⟩
  intro later s' hlater
  exact ((hsafe.2.2.2.2 rfl).2 later s' hlater).2

end Steps

end Storage
end Systasis
