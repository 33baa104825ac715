import Systasis.Storage.Safety

/-!
# Transfer — a value leaves a `TakeSlot` at most once, and failures leave no mark

A result is classified by what the steps of its own call saw, between the start of the call and its
return, whatever the other clients did in the meantime.  The transfers of a whole run are counted by
a ledger that follows the value from the slot through the call that took it.
-/

namespace Systasis
namespace Storage

open Lib
open Build (AccessError)

variable {Client V : Type} [DecidableEq Client] {lock : Lock}

/-! ## The steps of one call -/

abbrev Trace (Client V : Type) : Type :=
  List (Transition (State Client V) (Label Client V))

def Label.isStart : Label Client V → Bool
  | .start _ _ => true
  | _ => false

/-- A start opens a new call, every other step of the client belongs to the call it has open. -/
def record (c : Client) (steps : Trace Client V)
    (t : Transition (State Client V) (Label Client V)) : Trace Client V :=
  if t.label.client = some c then
    if t.label.isStart then [t] else steps ++ [t]
  else
    steps

/-- The steps of the client's last call. -/
def own (c : Client) (trace : Trace Client V) : Trace Client V :=
  trace.foldl (record c) []

@[simp]
theorem own_snoc (c : Client) (trace : Trace Client V)
    (t : Transition (State Client V) (Label Client V)) :
    own c (trace ++ [t]) = record c (own c trace) t := by
  simp [own]

theorem own_subset {c : Client} {trace : Trace Client V}
    {t : Transition (State Client V) (Label Client V)} (ht : t ∈ own c trace) : t ∈ trace := by
  induction trace using List.reverseRecOn with
  | nil => simp [own] at ht
  | append_singleton trace x ih =>
      simp only [own_snoc, record] at ht
      split at ht
      · split at ht
        · exact List.mem_append_right _ ht
        · rcases List.mem_append.1 ht with hold | hnew
          · exact List.mem_append_left _ (ih hold)
          · exact List.mem_append_right _ hnew
      · exact List.mem_append_left _ (ih ht)

/-- A step moves no client but its own. -/
theorem Step.phase_other {s s' : State Client V} {l : Label Client V} {c : Client}
    (hstep : Step lock s l s') (hc : l.client ≠ some c) : s'.phase c = s.phase c := by
  have hgoto : ∀ (m : State Client V) (d : Client) (p : Phase V), some d ≠ some c →
      (m.goto d p).phase c = m.phase c := by
    intro m d p hd
    have hne : c ≠ d := fun heq => hd (heq ▸ rfl)
    simp [State.goto, hne]
  cases hstep with
  | @«return» d call exit _ =>
      refine (hgoto _ _ _ hc).trans ?_
      cases exit <;> rfl
  | start _ => exact hgoto _ _ _ hc
  | refuse _ _ => exact hgoto _ _ _ hc
  | grant _ _ => exact hgoto _ _ _ hc
  | check _ _ => exact hgoto _ _ _ hc
  | access _ _ => exact hgoto _ _ _ hc
  | clone _ => exact hgoto _ _ _ hc
  | reserve _ => exact hgoto _ _ _ hc
  | release _ => exact hgoto _ _ _ hc
  | map _ _ _ => rfl
  | drop _ _ => rfl
  | forget _ _ => rfl
  | mutate _ _ _ => rfl
  | expire _ => rfl

/-- Induction over a run for a property of each client's open call: the steps of the others must
keep it, and each of its own steps extend it. -/
theorem own_invariant {v : V} {Q : Client → Trace Client V → State Client V → Prop}
    (hlock : lock.Sound)
    (hinit : ∀ c, Q c [] (new v))
    (hother : ∀ c steps s l s', Inv none s → l.client ≠ some c → Step lock s l s' →
      Q c steps s → Q c steps s')
    (hstart : ∀ c call s, s.phase c = .idle →
      Q c [⟨s, .start c call, s.goto c (.acquiring call)⟩] (s.goto c (.acquiring call)))
    (hown : ∀ c steps s l s', Inv none s → l.client = some c → l.isStart = false →
      Step lock s l s' → Q c steps s → Q c (steps ++ [⟨s, l, s'⟩]) s')
    {trace : Trace Client V} {s : State Client V} (hrun : Run (Step lock) (new v) trace s)
    (c : Client) : Q c (own c trace) s := by
  induction hrun with
  | nil => exact hinit c
  | @snoc m t trace l hrun hstep ih =>
      have hinv : Inv none m := (Inv.new v).run hlock hrun
      simp only [own_snoc, record]
      split
      · rename_i hc
        split
        · rename_i hisStart
          cases hstep with
          | start hphase =>
              cases hc
              exact hstart c _ m hphase
          | _ => cases hisStart
        · rename_i hisStart
          exact hown c _ m l t hinv hc (by simpa using hisStart) hstep ih
      · rename_i hc
        exact hother c _ m l t hinv hc hstep ih

/-! ## What a call saw -/

/-- What one step of a call learned about the slot. -/
inductive Observation where
  | lock (granted : Bool)
  | flag (reserved : Bool)
  | payload (present : Bool)
  deriving DecidableEq, Repr

def observe (t : Transition (State Client V) (Label Client V)) : Option Observation :=
  match t.label with
  | .acquire _ granted => some (.lock granted)
  | .check _ => some (.flag t.pre.reserved)
  | .access _ => some (.payload t.pre.value.isSome)
  | _ => none

/-- The observations of a call that has reached the payload. -/
def admitted (call : Call) : List Observation :=
  .lock true :: if call.checks then [.flag false] else []

/-- The result of a call, by what it saw. -/
def Exit.Observed (call : Call) (seen : List Observation) : Exit V → Prop
  | .failed .valueAccessContention =>
      seen = [.lock false] ∨ call.checks = true ∧ seen = [.lock true, .flag true]
  | .failed .valueAlreadyConsumed => seen = admitted call ++ [.payload false]
  | .taken _ => call.operation = .tryResolve ∧ seen = admitted call ++ [.payload true]
  | .ref _ => call.operation = .tryResolveRef ∧ seen = admitted call ++ [.payload true]
  | .refMut _ => call.operation = .tryResolveRefMut ∧ seen = admitted call ++ [.payload true]
  | .cloned _ | .unwound =>
      call.operation = .tryResolveClone ∧ seen = admitted call ++ [.payload true]
  | .reference => call.operation = .tryReserveRef ∧ seen = admitted call ++ [.payload true]

def Phase.Observed (seen : List Observation) : Phase V → Prop
  | .idle => True
  | .acquiring _ => seen = []
  | .locked _ _ => seen = [.lock true]
  | .entered call _ => seen = admitted call
  | .cloning call _ =>
      call.operation = .tryResolveClone ∧ seen = admitted call ++ [.payload true]
  | .reserving call _ =>
      call.operation = .tryReserveRef ∧ seen = admitted call ++ [.payload true]
  | .leaving call _ exit | .returning call exit => exit.Observed call seen

@[simp]
theorem goto_phase (s : State Client V) (c : Client) (p : Phase V) :
    (s.goto c p).phase c = p := by
  simp [State.goto]

/-- Along every run, the position of a client is explained by what its own steps saw. -/
theorem observed (hlock : lock.Sound) {v : V} {trace : Trace Client V} {s : State Client V}
    (hrun : Run (Step lock) (new v) trace s) (c : Client) :
    (s.phase c).Observed ((own c trace).filterMap observe) := by
  refine own_invariant (Q := fun c steps s => (s.phase c).Observed (steps.filterMap observe))
    hlock ?_ ?_ ?_ ?_ hrun c
  · intro c
    trivial
  · -- The steps of others do not move this client.
    intro c steps s l s' _ hc hstep h
    simpa only [hstep.phase_other hc] using h
  · intro c call s _
    simp [Phase.Observed, observe]
  · -- Each step of its own adds what it saw.
    intro c steps s l s' hinv hc hstart hstep h
    have hvalid := hinv.phases c nofun
    cases hstep with
    | start _ => cases hstart
    | refuse hphase _ =>
        cases hc
        simp_all [Phase.Observed, Exit.Observed, observe]
    | @grant _ call hphase _ =>
        cases hc
        cases hchecks : call.checks <;>
          simp_all [Phase.Observed, afterGrant, admitted, observe]
    | check hphase _ =>
        cases hc
        simp only [hphase, Phase.Valid, Phase.Observed] at hvalid h
        cases hreserved : s.reserved <;>
          simp [Phase.Observed, Exit.Observed, afterCheck, admitted, observe, h, hreserved, hvalid.1]
    | @access _ call g guard hphase _ =>
        cases hc
        simp only [hphase, Phase.Observed] at h
        simp only [goto_phase, List.filterMap_append, h]
        rcases payload_cases call g s.value with
          ⟨hnone, heq⟩ | ⟨v, hsome, ⟨hop, heq⟩ | ⟨hop, heq⟩ | ⟨hop, heq⟩ | ⟨hop, heq⟩ | ⟨hop, heq⟩⟩
        · simp only [heq]
          simp [Phase.Observed, Exit.Observed, observe, hnone]
        all_goals
          simp only [heq]
          simp [Phase.Observed, Exit.Observed, observe, hsome, hop]
    | @clone _ call g result hphase =>
        cases hc
        simp only [hphase, Phase.Observed] at h
        cases result <;> simp [Phase.Observed, Exit.Observed, observe, h]
    | reserve hphase =>
        cases hc
        simp only [hphase, Phase.Observed] at h
        simp [Phase.Observed, Exit.Observed, observe, h]
    | release hphase =>
        cases hc
        simp only [hphase, Phase.Observed] at h
        simpa [Phase.Observed, observe, List.filterMap_cons] using h
    | «return» hphase =>
        cases hc
        simp [Phase.Observed]
    | _ => cases hc

/-! ## What a call leaves behind -/

def Phase.call : Phase V → Option Call
  | .idle => none
  | .acquiring call | .locked call _ | .entered call _ | .cloning call _ | .reserving call _
  | .leaving call _ _ | .returning call _ => some call

/-- The results of calls that changed the slot. -/
def Exit.writes : Exit V → Bool
  | .taken _ | .reference => true
  | _ => false

/-- The call may have changed the slot already. -/
def Phase.wrote : Phase V → Bool
  | .idle => true
  | .leaving _ _ exit | .returning _ exit => exit.writes
  | _ => false

def Untouched (t : Transition (State Client V) (Label Client V)) : Prop :=
  t.post.value = t.pre.value ∧ t.post.reserved = t.pre.reserved

section Steps

variable {s s' : State Client V} {l : Label Client V} {c : Client}

theorem payload_call (call : Call) (g : GuardId) (value : Option V) :
    (payload call g value).2.2.call = some call := by
  rcases payload_cases call g value with
    ⟨_, heq⟩ | ⟨_, _, ⟨_, heq⟩ | ⟨_, heq⟩ | ⟨_, heq⟩ | ⟨_, heq⟩ | ⟨_, heq⟩⟩ <;>
    simp [heq, Phase.call]

theorem payload_guard (call : Call) (g : GuardId) (value : Option V) :
    (payload call g value).2.2.guard = some g := by
  rcases payload_cases call g value with
    ⟨_, heq⟩ | ⟨_, _, ⟨_, heq⟩ | ⟨_, heq⟩ | ⟨_, heq⟩ | ⟨_, heq⟩ | ⟨_, heq⟩⟩ <;>
    simp [heq, Phase.guard]

theorem Step.call (hstep : Step lock s l s') (hc : l.client = some c) (hstart : l.isStart = false)
    {call : Call} (hcall : (s'.phase c).call = some call) : (s.phase c).call = some call := by
  cases hstep with
  | start _ => cases hstart
  | refuse hphase _ =>
      cases hc
      simpa [hphase, Phase.call] using hcall
  | @grant _ call' hphase _ =>
      cases hc
      cases hchecks : call'.checks <;> simpa [hphase, afterGrant, hchecks, Phase.call] using hcall
  | check hphase _ =>
      cases hc
      cases hreserved : s.reserved <;>
        simpa [hphase, afterCheck, hreserved, Phase.call] using hcall
  | access hphase _ =>
      cases hc
      simp only [goto_phase, payload_call] at hcall
      simpa [hphase, Phase.call] using hcall
  | clone hphase =>
      cases hc
      simpa [hphase, Phase.call] using hcall
  | reserve hphase =>
      cases hc
      simpa [hphase, Phase.call] using hcall
  | release hphase =>
      cases hc
      simpa [hphase, Phase.call] using hcall
  | «return» hphase =>
      cases hc
      simp [Phase.call] at hcall
  | _ => cases hc

theorem Step.untouched (hstep : Step lock s l s') (hc : l.client = some c)
    (hstart : l.isStart = false) (hwrote : (s'.phase c).wrote = false) :
    (s.phase c).wrote = false ∧ Untouched ⟨s, l, s'⟩ := by
  cases hstep with
  | start _ => cases hstart
  | refuse hphase _ =>
      cases hc
      exact ⟨by simp [hphase, Phase.wrote], rfl, rfl⟩
  | grant hphase _ =>
      cases hc
      exact ⟨by simp [hphase, Phase.wrote], rfl, rfl⟩
  | check hphase _ =>
      cases hc
      exact ⟨by simp [hphase, Phase.wrote], rfl, rfl⟩
  | @access _ call g guard hphase _ =>
      cases hc
      refine ⟨by simp [hphase, Phase.wrote], ?_, rfl⟩
      simp only [goto_phase] at hwrote
      -- The one access that empties the slot has written.
      change (payload call g s.value).1 = s.value
      rcases payload_cases call g s.value with
        ⟨hnone, heq⟩ | ⟨v, hsome, ⟨_, heq⟩ | ⟨_, heq⟩ | ⟨_, heq⟩ | ⟨_, heq⟩ | ⟨_, heq⟩⟩
      · exact (congrArg Prod.fst heq).trans hnone.symm
      · simp [heq, Phase.wrote, Exit.writes] at hwrote
      all_goals exact (congrArg Prod.fst heq).trans hsome.symm
  | clone hphase =>
      cases hc
      exact ⟨by simp [hphase, Phase.wrote], rfl, rfl⟩
  | reserve hphase =>
      cases hc
      simp [Phase.wrote, Exit.writes] at hwrote
  | release hphase =>
      cases hc
      exact ⟨by simpa [hphase, Phase.wrote] using hwrote, rfl, rfl⟩
  | «return» hphase =>
      cases hc
      simp [Phase.wrote] at hwrote
  | _ => cases hc

/-- A released guard never comes back. -/
theorem Step.released (hstep : Step lock s l s') {g : GuardId} (hlt : g < s.next)
    (hheld : s.held g = none) : g < s'.next ∧ s'.held g = none := by
  have hset : ∀ {g' : GuardId} {guard : Guard Client} (x : Option (Guard Client)),
      s.held g' = some guard → Function.update s.held g' x g = none := by
    intro g' guard x hheld'
    have hne : g ≠ g' := by
      rintro rfl
      cases hheld.symm.trans hheld'
    simpa [hne] using hheld
  cases hstep with
  | grant _ _ =>
      refine ⟨Nat.lt_succ_of_lt hlt, ?_⟩
      simpa [State.goto, State.set, hlt.ne] using hheld
  | check _ hheld' => exact ⟨hlt, hset _ hheld'⟩
  | access _ hheld' => exact ⟨hlt, hset _ hheld'⟩
  | @release _ _ g' _ _ =>
      refine ⟨hlt, ?_⟩
      simp only [State.goto, State.set, Function.update_apply]
      split
      · rfl
      · exact hheld
  | @«return» _ _ exit _ =>
      -- Delivering a guard changes its owner, so an absent one stays absent.
      have hmap : ∀ g' : GuardId, Function.update s.held g'
          ((s.held g').map fun guard => { guard with owner := .user }) g = none := by
        intro g'
        simp only [Function.update_apply]
        split
        · rename_i heq
          simp [← heq, hheld]
        · exact hheld
      cases exit with
      | ref g' => exact ⟨hlt, hmap g'⟩
      | refMut g' => exact ⟨hlt, hmap g'⟩
      | _ => exact ⟨hlt, hheld⟩
  | drop hheld' _ => exact ⟨hlt, hset _ hheld'⟩
  | forget hheld' _ => exact ⟨hlt, hset _ hheld'⟩
  | _ => exact ⟨hlt, hheld⟩

/-- A guard that the call acquired is held by it, or released for good. -/
def Accounted (s : State Client V) (c : Client) (g : GuardId) : Prop :=
  g < s.next ∧ ((s.phase c).guard = some g ∨ s.held g = none)

theorem Step.accounted (hstep : Step lock s l s') (hc : l.client = some c)
    (hstart : l.isStart = false) {call : Call} (hcall : (s'.phase c).call = some call)
    {g : GuardId} (h : Accounted s c g) : Accounted s' c g := by
  -- While the call goes on its guard is passed along; `release` gives it up.
  rcases h with ⟨hlt, hguard | hheld⟩
  · cases hstep with
    | start _ => cases hstart
    | refuse hphase _ =>
        cases hc
        simp [hphase, Phase.guard] at hguard
    | grant hphase _ =>
        cases hc
        simp [hphase, Phase.guard] at hguard
    | check hphase _ =>
        cases hc
        refine ⟨hlt, .inl ?_⟩
        cases hreserved : s.reserved <;>
          simpa [hphase, afterCheck, hreserved, Phase.guard] using hguard
    | access hphase _ =>
        cases hc
        refine ⟨hlt, .inl ?_⟩
        simp only [goto_phase, payload_guard]
        simpa [hphase, Phase.guard] using hguard
    | clone hphase =>
        cases hc
        refine ⟨hlt, .inl ?_⟩
        simpa [hphase, Phase.guard] using hguard
    | reserve hphase =>
        cases hc
        refine ⟨hlt, .inl ?_⟩
        simpa [hphase, Phase.guard] using hguard
    | release hphase =>
        cases hc
        refine ⟨hlt, .inr ?_⟩
        simp only [hphase, Phase.guard, Option.some.injEq] at hguard
        simp [State.goto, State.set, hguard]
    | «return» hphase =>
        cases hc
        simp [Phase.call] at hcall
    | _ => cases hc
  · exact ⟨(hstep.released hlt hheld).1, .inr (hstep.released hlt hheld).2⟩

end Steps

/-- What the steps of an open call have done to the slot and to the lock. -/
structure Footprint (c : Client) (steps : Trace Client V) (s : State Client V) : Prop where
  call : ∀ call, (s.phase c).call = some call → ∀ t ∈ steps, (t.post.phase c).call = some call
  untouched : (s.phase c).wrote = false → ∀ t ∈ steps, Untouched t
  acquired : ∀ call, (s.phase c).call = some call → ∀ t ∈ steps, t.label = .acquire c true →
    Accounted s c t.pre.next

theorem footprint (hlock : lock.Sound) {v : V} {trace : Trace Client V} {s : State Client V}
    (hrun : Run (Step lock) (new v) trace s) (c : Client) : Footprint c (own c trace) s := by
  refine own_invariant (Q := Footprint) hlock ?_ ?_ ?_ ?_ hrun c
  · intro c
    constructor <;> simp
  · intro c steps s l s' _ hc hstep h
    have hphase := hstep.phase_other hc
    refine ⟨?_, ?_, ?_⟩
    · simpa only [hphase] using h.call
    · simpa only [hphase] using h.untouched
    · intro call hcall t ht hl
      rcases h.acquired call (hphase ▸ hcall) t ht hl with ⟨hlt, hguard | hheld⟩
      · refine ⟨?_, .inl (hphase ▸ hguard)⟩
        -- Identities of guards are only ever counted up.
        cases hstep with
        | grant _ _ => exact Nat.lt_succ_of_lt hlt
        | @«return» _ _ exit _ => cases exit <;> exact hlt
        | _ => exact hlt
      · exact ⟨(hstep.released hlt hheld).1, .inr (hstep.released hlt hheld).2⟩
  · intro c call s _
    refine ⟨?_, ?_, ?_⟩
    · intro call' hcall t ht
      cases List.mem_singleton.1 ht
      exact hcall
    · intro _ t ht
      cases List.mem_singleton.1 ht
      exact ⟨rfl, rfl⟩
    · intro call' _ t ht hl
      cases List.mem_singleton.1 ht
      cases hl
  · intro c steps s l s' _ hc hstart hstep h
    refine ⟨?_, ?_, ?_⟩
    · intro call hcall t ht
      rcases List.mem_append.1 ht with hold | hnew
      · exact h.call call (hstep.call hc hstart hcall) t hold
      · cases List.mem_singleton.1 hnew
        exact hcall
    · intro hwrote t ht
      rcases List.mem_append.1 ht with hold | hnew
      · exact h.untouched (hstep.untouched hc hstart hwrote).1 t hold
      · cases List.mem_singleton.1 hnew
        exact (hstep.untouched hc hstart hwrote).2
    · intro call hcall t ht hl
      rcases List.mem_append.1 ht with hold | hnew
      · exact hstep.accounted hc hstart hcall
          (h.acquired call (hstep.call hc hstart hcall) t hold hl)
      · cases List.mem_singleton.1 hnew
        cases hstep with
        | @grant d call' hphase _ =>
            cases hl
            refine ⟨Nat.lt_succ_self _, .inl ?_⟩
            cases hchecks : call'.checks <;> simp [afterGrant, hchecks, Phase.guard]
        | _ => cases hl

/-! ## The ledger of transfers -/

/-- The value a step hands over: the return of a `try_resolve` that took it. -/
def Label.transferred : Label Client V → Option V
  | .return _ _ (.taken value) => some value
  | _ => none

def transfers (trace : Trace Client V) : List V :=
  trace.filterMap fun t => t.label.transferred

/-- The effect of a step's mutation through a `RefMut`. -/
def Label.mutation : Label Client V → V → V
  | .mutate _ f => f
  | _ => id

/-- A value changed by the mutations of a run, in order. -/
def mutated (value : V) (trace : Trace Client V) : V :=
  trace.foldl (fun value t => t.label.mutation value) value

omit [DecidableEq Client] in
@[simp]
theorem transfers_snoc (trace : Trace Client V)
    (t : Transition (State Client V) (Label Client V)) :
    transfers (trace ++ [t]) = transfers trace ++ t.label.transferred.toList := by
  cases h : t.label.transferred <;> simp [transfers, h]

omit [DecidableEq Client] in
@[simp]
theorem mutated_snoc (value : V) (trace : Trace Client V)
    (t : Transition (State Client V) (Label Client V)) :
    mutated value (trace ++ [t]) = t.label.mutation (mutated value trace) := by
  simp [mutated]

/-- The value a call has taken and not yet returned. -/
def Phase.taken : Phase V → Option V
  | .leaving _ _ (.taken value) | .returning _ (.taken value) => some value
  | _ => none

/-- Where the value of a slot is: stored, in the hands of one call, or transferred. -/
inductive Ledger (v : V) (trace : Trace Client V) (s : State Client V) : Prop
  | stored : s.value = some (mutated v trace) → transfers trace = [] →
      (∀ c, (s.phase c).taken = none) → Ledger v trace s
  | carried (c : Client) : s.value = none → transfers trace = [] →
      (s.phase c).taken = some (mutated v trace) → (∀ d, d ≠ c → (s.phase d).taken = none) →
      Ledger v trace s
  | transferred : s.value = none → transfers trace = [mutated v trace] →
      (∀ c, (s.phase c).taken = none) → Ledger v trace s

namespace Ledger

variable {v : V} {trace : Trace Client V} {s s' : State Client V} {l : Label Client V}

omit [DecidableEq Client] in
/-- A step that moves neither the value nor a taken one. -/
theorem keep (h : Ledger v trace s) (hvalue : s'.value = s.value) (hmutation : l.mutation = id)
    (htransferred : l.transferred = none) (htaken : ∀ c, (s'.phase c).taken = (s.phase c).taken) :
    Ledger v (trace ++ [⟨s, l, s'⟩]) s' := by
  have hm : mutated v (trace ++ [⟨s, l, s'⟩]) = mutated v trace := by
    simp [hmutation]
  have ht : transfers (trace ++ [⟨s, l, s'⟩]) = transfers trace := by
    simp [htransferred]
  cases h with
  | stored hstored hnone hfree =>
      refine .stored ?_ (ht.trans hnone) fun c => (htaken c).trans (hfree c)
      rw [hvalue, hm, hstored]
  | carried c hgone hnone hcarried hfree =>
      refine .carried c (hvalue.trans hgone) (ht.trans hnone) ?_
        fun d hd => (htaken d).trans (hfree d hd)
      rw [htaken, hm, hcarried]
  | transferred hgone hone hfree =>
      refine .transferred (hvalue.trans hgone) ?_ fun c => (htaken c).trans (hfree c)
      rw [ht, hm, hone]

/-- Moving one client to a position that carries as much as its old one. -/
theorem taken_goto {c : Client} {p : Phase V} {m : State Client V} (hphase : m.phase = s.phase)
    (hp : p.taken = (s.phase c).taken) (d : Client) :
    ((m.goto c p).phase d).taken = (s.phase d).taken := by
  by_cases hd : d = c
  · subst hd
    simpa using hp
  · simp [State.goto, hd, hphase]

theorem step (hinv : Inv none s) (h : Ledger v trace s) (hstep : Step lock s l s') :
    Ledger v (trace ++ [⟨s, l, s'⟩]) s' := by
  cases hstep with
  | start hphase =>
      exact h.keep rfl rfl rfl (taken_goto rfl (by simp [hphase, Phase.taken]))
  | refuse hphase _ =>
      exact h.keep rfl rfl rfl (taken_goto rfl (by simp [hphase, Phase.taken]))
  | @grant c call hphase _ =>
      refine h.keep rfl rfl rfl (taken_goto rfl ?_)
      cases hchecks : call.checks <;> simp [hphase, afterGrant, hchecks, Phase.taken]
  | check hphase _ =>
      refine h.keep rfl rfl rfl (taken_goto rfl ?_)
      cases s.reserved <;> simp [hphase, afterCheck, Phase.taken]
  | @access c call g guard hphase _ =>
      rcases payload_cases call g s.value with
        ⟨hnone, heq⟩ | ⟨u, hsome, ⟨_, heq⟩ | ⟨_, heq⟩ | ⟨_, heq⟩ | ⟨_, heq⟩ | ⟨_, heq⟩⟩
      · refine h.keep ((congrArg Prod.fst heq).trans hnone.symm) rfl rfl (taken_goto rfl ?_)
        simp [heq, hphase, Phase.taken]
      · -- The one step that takes the value out of the slot.
        cases h with
        | stored hstored hempty hfree =>
            refine .carried c (congrArg Prod.fst heq) ?_ ?_ ?_
            · simpa [Label.transferred] using hempty
            · have hu : u = mutated v trace := by simpa [hsome] using hstored
              simp [heq, Phase.taken, hu, Label.mutation]
            · intro d hd
              simpa [State.goto, State.set, hd] using hfree d
        | carried _ hgone _ _ _ => cases hgone.symm.trans hsome
        | transferred hgone _ _ => cases hgone.symm.trans hsome
      all_goals
        refine h.keep ((congrArg Prod.fst heq).trans hsome.symm) rfl rfl (taken_goto rfl ?_)
        simp [heq, hphase, Phase.taken]
  | @clone c call g result hphase =>
      refine h.keep rfl rfl rfl (taken_goto rfl ?_)
      cases result <;> simp [hphase, Phase.taken]
  | reserve hphase =>
      exact h.keep rfl rfl rfl (taken_goto rfl (by simp [hphase, Phase.taken]))
  | @release c call g exit hphase =>
      refine h.keep rfl rfl rfl (taken_goto rfl ?_)
      cases exit <;> simp [hphase, Phase.taken]
  | @«return» c call exit hphase =>
      cases exit with
      | taken w =>
          -- Only the client that carries the value can return it.
          have hw : (s.phase c).taken = some w := by simp [hphase, Phase.taken]
          cases h with
          | stored _ _ hfree => cases (hfree c).symm.trans hw
          | carried d hgone hempty hcarried hfree =>
              have hd : c = d := by
                by_contra hne
                cases (hfree c hne).symm.trans hw
              subst hd
              have hw' : w = mutated v trace := by simpa [hw] using hcarried
              refine .transferred hgone ?_ ?_
              · simp [hempty, Label.transferred, Label.mutation, hw']
              · intro d
                by_cases hd : d = c
                · subst hd
                  simp [Phase.taken]
                · simpa [State.goto, deliver, hd] using hfree d hd
          | transferred _ _ hfree => cases (hfree c).symm.trans hw
      | ref g => exact h.keep rfl rfl rfl (taken_goto rfl (by simp [hphase, Phase.taken]))
      | refMut g => exact h.keep rfl rfl rfl (taken_goto rfl (by simp [hphase, Phase.taken]))
      | cloned w => exact h.keep rfl rfl rfl (taken_goto rfl (by simp [hphase, Phase.taken]))
      | reference => exact h.keep rfl rfl rfl (taken_goto rfl (by simp [hphase, Phase.taken]))
      | failed e => exact h.keep rfl rfl rfl (taken_goto rfl (by simp [hphase, Phase.taken]))
      | unwound => exact h.keep rfl rfl rfl (taken_goto rfl (by simp [hphase, Phase.taken]))
  | @mutate g guard f hheld _ hkind =>
      -- An exclusive guard means that the value is there.
      have hpresent := (hinv.guards g guard hheld).present (by simp [hkind])
      cases h with
      | stored hstored hempty hfree =>
          refine .stored ?_ (by simpa [Label.transferred] using hempty) hfree
          simp [hstored, Label.mutation]
      | carried _ hgone _ _ _ => simp [hgone] at hpresent
      | transferred hgone _ _ => simp [hgone] at hpresent
  | map _ _ _ => exact h.keep rfl rfl rfl fun _ => rfl
  | drop _ _ => exact h.keep rfl rfl rfl fun _ => rfl
  | forget _ _ => exact h.keep rfl rfl rfl fun _ => rfl
  | expire _ => exact h.keep rfl rfl rfl fun _ => rfl

end Ledger

theorem ledger (hlock : lock.Sound) {v : V} {trace : Trace Client V} {s : State Client V}
    (hrun : Run (Step lock) (new v) trace s) : Ledger v trace s := by
  refine hrun.invariant (P := fun trace s => Ledger v trace s) ?_ ?_
  · exact .stored rfl rfl fun _ => rfl
  · intro trace m l t hbefore h hstep
    exact h.step ((Inv.new v).run hlock hbefore) hstep

/-- An empty slot is never filled again. -/
theorem Step.stays_empty {s s' : State Client V} {l : Label Client V} (hstep : Step lock s l s')
    (hempty : s.value = none) : s'.value = none := by
  cases hstep with
  | @access c call g guard _ _ => simp [State.goto, State.set, hempty, payload]
  | @«return» c call exit _ => cases exit <;> exact hempty
  | mutate _ _ _ => simp [hempty]
  | _ => exact hempty

/-! ## Results -/

section Results

variable {c : Client} {trace : Trace Client V}

theorem own_client {t : Transition (State Client V) (Label Client V)} (ht : t ∈ own c trace) :
    t.label.client = some c := by
  induction trace using List.reverseRecOn with
  | nil => simp [own] at ht
  | append_singleton trace x ih =>
      simp only [own_snoc, record] at ht
      split at ht
      · rename_i hx
        split at ht
        · cases List.mem_singleton.1 ht
          exact hx
        · rcases List.mem_append.1 ht with hold | hnew
          · exact ih hold
          · cases List.mem_singleton.1 hnew
            exact hx
      · exact ih ht

/-- A call opened in the later part of a run has all its steps there. -/
theorem own_append_of_start {front back : Trace Client V}
    (hstart : ∃ x ∈ back, ∃ call, x.label = .start c call) : own c (front ++ back) = own c back := by
  induction back using List.reverseRecOn with
  | nil => simp at hstart
  | append_singleton back x ih =>
      rw [← List.append_assoc, own_snoc, own_snoc]
      by_cases hx : ∃ call, x.label = .start c call
      · rcases hx with ⟨call, hx⟩
        simp [record, hx, Label.client, Label.isStart]
      · rcases hstart with ⟨y, hy, hcall⟩
        rcases List.mem_append.1 hy with hold | hnew
        · rw [ih ⟨y, hold, hcall⟩]
        · cases List.mem_singleton.1 hnew
          exact absurd hcall hx

theorem lock_mem {b : Bool} : .lock b ∈ (own c trace).filterMap observe ↔
    ∃ x ∈ own c trace, x.label = .acquire c b := by
  simp only [List.mem_filterMap]
  constructor
  · rintro ⟨x, hx, hobserve⟩
    have hclient := own_client hx
    refine ⟨x, hx, ?_⟩
    cases hl : x.label <;> simp_all [observe, Label.client]
  · rintro ⟨x, hx, hl⟩
    exact ⟨x, hx, by simp [observe, hl]⟩

theorem flag_mem {b : Bool} : .flag b ∈ (own c trace).filterMap observe ↔
    ∃ x ∈ own c trace, x.label = .check c ∧ x.pre.reserved = b := by
  simp only [List.mem_filterMap]
  constructor
  · rintro ⟨x, hx, hobserve⟩
    have hclient := own_client hx
    refine ⟨x, hx, ?_⟩
    cases hl : x.label <;> simp_all [observe, Label.client]
  · rintro ⟨x, hx, hl, hb⟩
    exact ⟨x, hx, by simp [observe, hl, hb]⟩

theorem payload_mem {b : Bool} : .payload b ∈ (own c trace).filterMap observe ↔
    ∃ x ∈ own c trace, x.label = .access c ∧ x.pre.value.isSome = b := by
  simp only [List.mem_filterMap]
  constructor
  · rintro ⟨x, hx, hobserve⟩
    have hclient := own_client hx
    refine ⟨x, hx, ?_⟩
    cases hl : x.label <;> simp_all [observe, Label.client]
  · rintro ⟨x, hx, hl, hb⟩
    exact ⟨x, hx, by simp [observe, hl, hb]⟩

theorem Exit.Observed.contention_iff {call : Call} {seen : List Observation} {exit : Exit V}
    (h : exit.Observed call seen) : exit = .failed .valueAccessContention ↔
      .lock false ∈ seen ∨ call.checks = true ∧ .flag true ∈ seen := by
  cases hchecks : call.checks
  all_goals
    cases exit with
    | failed e =>
        cases e
        · simp_all [Exit.Observed, admitted]
        · rcases h with rfl | ⟨_, rfl⟩ <;> simp_all
    | _ => simp_all [Exit.Observed, admitted]

theorem Exit.Observed.consumed_iff {call : Call} {seen : List Observation} {exit : Exit V}
    (h : exit.Observed call seen) : exit = .failed .valueAlreadyConsumed ↔
      .lock true ∈ seen ∧ (call.checks = true → .flag false ∈ seen) ∧ .payload false ∈ seen := by
  cases hchecks : call.checks
  all_goals
    cases exit with
    | failed e =>
        cases e
        · simp_all [Exit.Observed, admitted]
        · rcases h with rfl | ⟨_, rfl⟩ <;> simp_all
    | _ => simp_all [Exit.Observed, admitted]

/-- A call that did not fail found the value. -/
theorem Exit.Observed.present {call : Call} {seen : List Observation} {exit : Exit V}
    (h : exit.Observed call seen) : (∃ e, exit = .failed e) ∨ .payload true ∈ seen := by
  cases exit with
  | failed e => exact .inl ⟨e, rfl⟩
  | _ => exact .inr (by simp [h.2])

theorem Step.return_inv {s s' : State Client V} {call : Call} {exit : Exit V}
    (hstep : Step lock s (.return c call exit) s') :
    s.phase c = .returning call exit ∧ s' = (deliver s exit).goto c .idle := by
  cases hstep with
  | «return» hphase => exact ⟨hphase, rfl⟩

/-- The try-lock of a call was refused, beside a guard it could not have joined. -/
def Refused (c : Client) (call : Call) (steps : Trace Client V) : Prop :=
  ∃ x ∈ steps, x.label = .acquire c false ∧
    ∃ g guard, x.pre.held g = some guard ∧ Incompatible guard.access call.access

def Granted (c : Client) (steps : Trace Client V) : Prop :=
  ∃ x ∈ steps, x.label = .acquire c true

/-- The call read this from the reservation flag. -/
def ReadFlag (c : Client) (steps : Trace Client V) (reserved : Bool) : Prop :=
  ∃ x ∈ steps, x.label = .check c ∧ x.pre.reserved = reserved

def FoundAbsent (c : Client) (steps : Trace Client V) : Prop :=
  ∃ x ∈ steps, x.label = .access c ∧ x.pre.value = none

/-- Every refused try-lock of a call met a guard incompatible with that call. -/
theorem refused_iff (hlock : lock.Sound) (hobliging : lock.Obliging) {v : V}
    {s : State Client V} (hrun : Run (Step lock) (new v) trace s) {call : Call}
    (hcall : (s.phase c).call = some call) :
    Refused c call (own c trace) ↔ ∃ x ∈ own c trace, x.label = .acquire c false := by
  constructor
  · rintro ⟨x, hx, hl, _⟩
    exact ⟨x, hx, hl⟩
  · rintro ⟨x, hx, hl⟩
    refine ⟨x, hx, hl, ?_⟩
    have hsame := (footprint hlock hrun c).call call hcall x hx
    rcases List.append_of_mem (own_subset hx) with ⟨front, back, rfl⟩
    have hstep := (hrun.split_at).2.1
    rcases x with ⟨pre, l, post⟩
    cases hl
    simp only at hstep hsame ⊢
    cases hstep with
    | refuse hphase hrefused =>
        cases (show some _ = some call by simpa [Phase.call] using hsame)
        rcases hobliging _ _ hrefused with ⟨g, access, hheld, hincompatible⟩
        rcases Option.map_eq_some_iff.1 hheld with ⟨guard, hguard, rfl⟩
        exact ⟨g, guard, hguard, hincompatible⟩

/-- The value a call returns is the slot's, with the mutations made before, and the slot is empty
from then on. -/
theorem taken_spec (hlock : lock.Sound) {v : V} {s : State Client V}
    (hrun : Run (Step lock) (new v) trace s) {call : Call} {w : V}
    (hphase : s.phase c = .returning call (.taken w)) : w = mutated v trace ∧ s.value = none := by
  have hw : (s.phase c).taken = some w := by simp [hphase, Phase.taken]
  cases ledger hlock hrun with
  | stored _ _ hfree => cases (hfree c).symm.trans hw
  | carried d hgone _ hcarried hfree =>
      have hd : c = d := by
        by_contra hne
        cases (hfree c hne).symm.trans hw
      subst hd
      exact ⟨by simpa [hw] using hcarried, hgone⟩
  | transferred _ _ hfree => cases (hfree c).symm.trans hw

/-- A call opened on an empty slot fails. -/
theorem fails_when_empty (hlock : lock.Sound) {v : V} {front back : Trace Client V}
    {m s : State Client V} (hfront : Run (Step lock) (new v) front m) (hempty : m.value = none)
    (hback : Run (Step lock) m back s) {call : Call} {exit : Exit V}
    (hstart : ∃ x ∈ back, ∃ call, x.label = .start c call)
    (hphase : s.phase c = .returning call exit) : ∃ e, exit = .failed e := by
  have hobserved := observed hlock (hfront.append hback) c
  simp only [hphase, Phase.Observed] at hobserved
  rcases hobserved.present with hfailed | hpresent
  · exact hfailed
  · -- Its payload access, made after the slot was emptied, would have found a value.
    rcases payload_mem.1 hpresent with ⟨x, hx, _, hsome⟩
    rw [own_append_of_start hstart] at hx
    have hnone := hback.preserves_at (P := fun m => m.value = none)
      (fun _ _ _ hm hstep => hstep.stays_empty hm) hempty (own_subset hx)
    simp [hnone] at hsome

/-- Over every interleaved run of a new slot, at most one call takes the value; it returns the
value as the mutations made before changed it, and every call opened after that fails.  A call
fails with contention exactly when its try-lock was refused or, for the two accessors that check,
the slot was reserved, and with consumption exactly when it was let through and the value was
absent.  A call that fails changed neither the value nor the flag and leaves no guard behind. -/
theorem takeSlot_transfers_once (hlock : lock.Sound) (hobliging : lock.Obliging) {v : V}
    {s : State Client V} (hrun : Run (Step lock) (new v) trace s) :
    (transfers trace).length ≤ 1 ∧
    ∀ before t after c call exit, trace = before ++ t :: after → t.label = .return c call exit →
      (call.operation = .tryResolve → (∃ w, exit = .taken w) ∨ ∃ e, exit = .failed e) ∧
      (∀ w, exit = .taken w → call.operation = .tryResolve ∧ w = mutated v before ∧
        ∀ mid u rest d call' exit', after = mid ++ u :: rest → u.label = .return d call' exit' →
          (∃ x ∈ mid, ∃ call'', x.label = .start d call'') → ∃ e, exit' = .failed e) ∧
      (exit = .failed .valueAccessContention ↔
        Refused c call (own c before) ∨ call.checks = true ∧ ReadFlag c (own c before) true) ∧
      (exit = .failed .valueAlreadyConsumed ↔
        Granted c (own c before) ∧ (call.checks = true → ReadFlag c (own c before) false) ∧
          FoundAbsent c (own c before)) ∧
      (∀ e, exit = .failed e → Untouched t ∧ (∀ x ∈ own c before, Untouched x) ∧
        (∀ x ∈ own c before, x.label = .acquire c true → t.post.held x.pre.next = none) ∧
        ∀ g guard, t.post.held g = some guard → guard.owner ≠ .call c) := by
  constructor
  · -- The value is stored, carried by one call, or transferred; never two of these.
    cases ledger hlock hrun with
    | stored _ hnone _ => simp [hnone]
    | carried _ _ hnone _ _ => simp [hnone]
    | transferred _ hone _ => simp [hone]
  · rintro before ⟨pre, l, post⟩ after c call exit rfl hl
    cases hl
    rcases hrun.split_at with ⟨hbefore, hstep, hafter⟩
    simp only at hbefore hstep hafter ⊢
    rcases hstep.return_inv with ⟨hphase, rfl⟩
    -- At its return a call is explained by what its own steps saw and wrote.
    have hobserved := observed hlock hbefore c
    have hfoot := footprint hlock hbefore c
    simp only [hphase, Phase.Observed] at hobserved
    have hcall : (pre.phase c).call = some call := by simp [hphase, Phase.call]
    refine ⟨?_, ?_, ?_, ?_, ?_⟩
    · intro hop
      cases exit with
      | taken w => exact .inl ⟨w, rfl⟩
      | failed e => exact .inr ⟨e, rfl⟩
      | _ => cases hop.symm.trans hobserved.1
    · rintro w rfl
      rcases taken_spec hlock hbefore hphase with ⟨hw, hempty⟩
      refine ⟨hobserved.1, hw, ?_⟩
      rintro mid ⟨upre, ul, upost⟩ rest d call' exit' rfl hul hstarted
      cases hul
      rcases hafter.split_at with ⟨hmid, hreturn, _⟩
      -- The slot stays empty, and a call that starts now finds it so.
      exact fails_when_empty hlock (hbefore.snoc hstep) hempty hmid hstarted
        hreturn.return_inv.1
    · rw [refused_iff hlock hobliging hbefore hcall, ← lock_mem, ReadFlag, ← flag_mem]
      exact hobserved.contention_iff
    · have habsent : FoundAbsent c (own c before) ↔
          .payload false ∈ (own c before).filterMap observe := by
        rw [payload_mem]
        simp [FoundAbsent]
      rw [Granted, ReadFlag, habsent, ← lock_mem, ← flag_mem]
      exact hobserved.consumed_iff
    · rintro e rfl
      have hquiet : (pre.phase c).wrote = false := by simp [hphase, Phase.wrote, Exit.writes]
      have hnone : (pre.phase c).guard = none := by simp [hphase, Phase.guard]
      refine ⟨⟨rfl, rfl⟩, hfoot.untouched hquiet, ?_, ?_⟩
      · intro x hx hacquired
        rcases hfoot.acquired call hcall x hx hacquired with ⟨_, hguard | hreleased⟩
        · cases hnone.symm.trans hguard
        · exact hreleased
      · intro g guard hheld
        exact ((Inv.new v).run hlock hbefore).no_guard hnone hheld

/-- One client takes the value 7, and its second try finds nothing. -/
theorem takeSlot_transfers_once_then_consumed :
    ∃ trace, ∃ s : State Unit Nat, Run (Step Lock.standard) (new 7) trace s ∧
      transfers trace = [7] ∧ (transfers trace).length ≤ 1 ∧
      ∃ e t, t ∈ trace ∧ t.label = .return () .tryResolveClone (.failed e) := by
  have hnew : Run (Step Lock.standard) (new 7 : State Unit Nat) [] (new 7) := .nil _
  have hstart : Step Lock.standard (new 7 : State Unit Nat) (.start () .resolveUnchecked) _ :=
    .start rfl
  have htaken := hnew.snoc hstart
    |>.snoc (.grant (c := ()) rfl ⟨fun _ _ => rfl, fun _ => rfl⟩)
    |>.snoc (.check (c := ()) rfl rfl)
    |>.snoc (.access (c := ()) rfl rfl)
    |>.snoc (.release (c := ()) rfl)
    |>.snoc (.return (c := ()) rfl)
  have hagain := htaken.snoc
    (show Step Lock.standard _ (.start () .tryResolveClone) _ from .start rfl)
  have hrun := hagain
    |>.snoc (.grant (c := ()) rfl ⟨fun _ g => by cases g <;> exact nofun, fun _ => rfl⟩)
    |>.snoc (.access (c := ()) rfl rfl)
    |>.snoc (.release (c := ()) rfl)
    |>.snoc (.return (c := ()) rfl)
  have honce := takeSlot_transfers_once Lock.standard_sound Lock.standard_obliging hrun
  exact ⟨_, _, hrun, rfl, honce.1, _, _, List.mem_append_right _ (List.mem_singleton_self _), rfl⟩

end Results

end Storage
end Systasis
