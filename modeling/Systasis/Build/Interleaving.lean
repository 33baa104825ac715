import Systasis.Build.Runtime
import Systasis.Storage.Linearization

/-!
# Interleaving — a container shared by any number of clients

Clients call resolvers of one built container side by side.  Every query method takes effect at one
instant, as the slots underneath allow; a consumable slot may refuse a method while another client
is inside one of the same slot.  What the clients interleave never sticks, never changes a slot that
cannot be consumed or that no running resolver reaches, hands out every consumable value at most
once, and leaves a resolver that shares no consumable slot to do what it does alone.
-/

namespace Systasis
namespace Build

open Systasis.Graph Wiring Lib

variable {n : Nat} {V E C : Type} {decl : Declaration n V E C} {order : List (Fin n)}

/-! ## Slots beside others -/

/-- What a slot may answer while the given questions are open elsewhere. -/
inductive Answers (others : Ask n → Prop) :
    Container n V C → Ask n → Except AccessError V → Container n V C → Prop
  | answer {container : Container n V C} {q : Ask n} :
      Answers others container q (serve q container).1 (serve q container).2
  | contend {container : Container n V C} {q : Ask n} {value : Option V} :
      (container q.1).contents = .take value → (∃ method, others (q.1, method)) →
      Answers others container q (.error .valueAccessContention) container

/-- The accessor of consumable storage behind a query method. -/
def accessor : Method → Option Storage.Call
  | .tryResolve => some .tryResolve
  | .tryResolveClone => some .tryResolveClone
  | .resolveUnchecked => some .resolveUnchecked
  | _ => none

/-- What a caller gets from an accessor that transfers or clones. -/
def exitReply : Storage.Exit V → Option (Except AccessError V)
  | .taken value | .cloned value => some (.ok value)
  | .failed error => some (.error error)
  | _ => none

/-- The atomic slot behind consumable contents on which no guard is outstanding. -/
def atomicSlot (value : Option V) : Storage.AtomicSlot V where
  value := value
  reserved := false
  loans := fun _ => none

/-- On a consumable slot an answer is what the accessor does at its instant, with a `Clone` that
returns what it is given. -/
theorem answers_of_performs {others : Ask n → Prop} {container : Container n V C} {q : Ask n}
    {value : Option V} (hcontents : (container q.1).contents = .take value)
    {call : Storage.Call} (hcall : accessor q.2 = some call) {overlapped : Bool}
    (hothers : overlapped = true → ∃ method, others (q.1, method))
    {exit : Storage.Exit V} {a : Storage.AtomicSlot V}
    (h : Storage.AtomicSlot.Performs overlapped (atomicSlot value) call exit a)
    (hclone : exit ≠ .unwound ∧ ∀ copy, exit = .cloned copy → value = some copy) :
    ∃ reply remains, exitReply exit = some reply ∧ a = atomicSlot remains ∧
      Answers others container q reply
        (Function.update container q.1 { container q.1 with contents := .take remains }) := by
  -- Answers that leave the contents leave the container.
  have hsame : Function.update container q.1 { container q.1 with contents := .take value } =
      container := by
    rw [← hcontents]
    exact Function.update_eq_self q.1 container
  have haccess : ∀ reply remains, access q.2 (.take value : Contents V C) =
      (reply, .take remains) → Answers others container q reply
        (Function.update container q.1 { container q.1 with contents := .take remains }) := by
    intro reply remains heq
    have hserve : serve q container = (reply, Function.update container q.1
        { container q.1 with contents := .take remains }) := by
      simp only [serve, hcontents, heq]
    have hanswer : Answers others container q (serve q container).1 (serve q container).2 :=
      .answer
    rwa [hserve] at hanswer
  cases h with
  | contended hwhy =>
      refine ⟨_, value, rfl, rfl, ?_⟩
      rcases hwhy with hoverlapped | ⟨g, access, hloan, -⟩ | ⟨-, hreserved⟩
      · rw [hsame]
        exact .contend hcontents (hothers hoverlapped)
      · cases hloan
      · cases hreserved
  | consumed _ hnone =>
      have hvalue : value = none := hnone
      subst hvalue
      exact ⟨_, none, rfl, rfl, haccess _ _ rfl⟩
  | taken _ hsome hop =>
      have hvalue : value = some _ := hsome
      subst hvalue
      refine ⟨_, none, rfl, rfl, haccess _ _ ?_⟩
      cases hmethod : q.2 <;> simp only [hmethod, accessor] at hcall <;> cases hcall
      · rfl
      · cases hop
      · rfl
  | ref _ _ hop => cases hmethod : q.2 <;> simp only [hmethod, accessor] at hcall <;> cases hcall <;>
      cases hop
  | refMut _ _ hop =>
      cases hmethod : q.2 <;> simp only [hmethod, accessor] at hcall <;> cases hcall <;> cases hop
  | @cloned _ result _ _ hop =>
      cases result with
      | none => exact absurd rfl hclone.1
      | some copy =>
          have hvalue : value = some copy := hclone.2 copy rfl
          subst hvalue
          refine ⟨_, some copy, rfl, rfl, haccess _ _ ?_⟩
          cases hmethod : q.2 <;> simp only [hmethod, accessor] at hcall <;> cases hcall
          · cases hop
          · rfl
          · cases hop
  | reference _ _ hop =>
      cases hmethod : q.2 <;> simp only [hmethod, accessor] at hcall <;> cases hcall <;> cases hop

/-! ## The shared container -/

section Shared

variable (Client : Type)

abbrev Shared (n : Nat) (V C : Type) : Type :=
  Pool.State (Container n V C) Client (Ask n) (Except AccessError V)
    (Except (Stuck n) (Except AccessError V))

abbrev SharedLabel (decl : Declaration n V E C) : Type :=
  Pool.Label Client (Resolver decl.registrations) (Ask n) (Except AccessError V)
    (Except (Stuck n) (Except AccessError V))

/-- A container nobody uses yet. -/
def opened (container : Container n V C) : Shared Client n V C where
  store := container
  thread := fun _ => .idle

/-- Clients calling resolvers side by side. -/
abbrev Interleaves [DecidableEq Client] (decl : Declaration n V E C) (order : List (Fin n)) :
    Shared Client n V C → SharedLabel Client decl → Shared Client n V C → Prop :=
  Pool.Step (Resolver.code decl order) Answers

end Shared

/-- A consumable slot. -/
def Consumable (decl : Declaration n V E C) (i : Fin n) : Prop :=
  decl.registrations i = .value ∧ decl.storage i = .take

theorem Matches.consumable {i : Fin n} {value : Option V}
    (h : Matches decl i (.take value : Contents V C)) : Consumable decl i := by
  unfold Matches at h
  cases hkind : decl.registrations i with
  | factory fallible native => simp [hkind] at h
  | fresh => simp [hkind] at h
  | value =>
      refine ⟨hkind, ?_⟩
      cases hstorage : decl.storage i <;> simp [hkind, hstorage] at h ⊢

/-- An access changes contents only by emptying them. -/
theorem access_contents (method : Method) (contents : Contents V C) :
    (access method contents).2 = contents ∨
      ∃ v, contents = .take (some v) ∧ takes method = true ∧
        access method contents = (.ok v, .take none) := by
  cases contents with
  | take value =>
      cases value with
      | none => exact .inl rfl
      | some v =>
          cases htakes : takes method with
          | true => exact .inr ⟨v, rfl, rfl, by simp [access, htakes]⟩
          | false => exact .inl (by simp [access, htakes])
  | _ => exact .inl rfl

section Answers

variable {others : Ask n → Prop} {container container' : Container n V C} {q : Ask n}
  {a : Except AccessError V}

theorem Own.answers (h : Own decl container) (hanswer : Answers others container q a container') :
    Own decl container' := by
  cases hanswer with
  | answer => exact h.serve q
  | contend _ _ => exact h

/-- An answer concerns the slot asked. -/
theorem Answers.other (hanswer : Answers others container q a container') {i : Fin n}
    (hi : i ≠ q.1) : container' i = container i := by
  cases hanswer with
  | answer => simp [serve, hi]
  | contend _ _ => rfl

/-- Contents that cannot be consumed are left as they are. -/
theorem Answers.fixed (hanswer : Answers others container q a container')
    (hfixed : ∀ value, (container q.1).contents ≠ .take value) : container' = container := by
  cases hanswer with
  | contend _ _ => rfl
  | answer =>
      rcases access_contents q.2 (container q.1).contents with hsame | ⟨v, htake, -⟩
      · simp only [serve, hsame]
        exact Function.update_eq_self q.1 container
      · exact absurd htake (hfixed _)

/-- A consumable slot hands out its value and is empty, or keeps what it has. -/
theorem Answers.take (hanswer : Answers others container q a container') {value : Option V}
    (htake : (container q.1).contents = .take value) :
    (container' = container ∧ (takes q.2 = true → ∀ v, a ≠ .ok v)) ∨
      ∃ v, value = some v ∧ takes q.2 = true ∧ a = .ok v ∧
        (container' q.1).contents = .take none := by
  cases hanswer with
  | contend _ _ => exact .inl ⟨rfl, by simp⟩
  | answer =>
      have hkeep : (access q.2 (container q.1).contents).2 = (container q.1).contents →
          (serve q container).2 = container := by
        intro hsame
        simp only [serve, hsame]
        exact Function.update_eq_self q.1 container
      cases value with
      | none =>
          refine .inl ⟨hkeep (by simp [htake, access]), fun _ v hv => ?_⟩
          simp [serve, htake, access] at hv
      | some v =>
          cases htakes : takes q.2 with
          | false => exact .inl ⟨hkeep (by simp [htake, access, htakes]), by simp⟩
          | true =>
              exact .inr ⟨v, rfl, rfl, by simp [serve, htake, access],
                by simp [serve, htake, access, htakes]⟩

end Answers

/-! ## Whole runs -/

/-- A successful build leaves every slot with its own registration's contents. -/
theorem own_of_build (hfirst : DependencyFirst decl.dependencies order)
    {report : Report n V E C} (hbuild : build decl order = .ok report)
    {fields : Container n V C} (hfields : report.result = .ok fields) : Own decl fields := by
  rcases Running.steps hfirst order [] (initial decl) rfl (running_initial decl) with
    ⟨state, hsteps, hrunning | ⟨done, k, rest, e, -, hfailed⟩⟩
  · have hsome : ∀ i, (state.slots i).isSome = true := by
      intro i
      rw [hrunning.well.isSome i]
      simpa using hfirst.complete i
    simp only [build, hsteps, finish, hrunning.error, dif_pos hsome, Except.ok.injEq] at hbuild
    subst hbuild
    cases hfields
    intro i
    exact hrunning.well.own i _ (Option.some_get (hsome i)).symm
  · simp only [build, hsteps, finish, hfailed.error, Except.ok.injEq] at hbuild
    subst hbuild
    cases hfields

section Runs

variable {Client : Type} [DecidableEq Client] {s : Shared Client n V C}
  {trace : List (Transition (Shared Client n V C) (SharedLabel Client decl))}
  {fields : Container n V C}

omit [DecidableEq Client] in
/-- Nothing is running in a container just opened. -/
theorem opened_within {P : Client → Ask n → Prop}
    {T : Except (Stuck n) (Except AccessError V) → Prop} (c : Client) :
    ((opened Client fields).thread c).Within (P c) T :=
  trivial

theorem own_run (hfirst : DependencyFirst decl.dependencies order) (hown : Own decl fields)
    (hrun : Run (Interleaves Client decl order) (opened Client fields) trace s) :
    Own decl s.store :=
  Pool.invariant (P := fun _ _ => True) (T := fun _ => True) (I := Own decl) hrun opened_within
    (fun _ resolver _ => (resolver.within hfirst).mono (fun _ _ => trivial) fun _ _ => trivial)
    hown fun _ _ _ _ _ _ hI _ hanswer => hI.answers hanswer

/-- Whatever the interleaving, every resolver that returns returns a reply, every slot keeps its
own registration's contents, a slot that cannot be consumed keeps its contents, and so does every
slot that no resolver called so far touches. -/
theorem container_shared_safely (h : schedule decl.dependencies = .ok order)
    {report : Report n V E C} (hbuild : build decl order = .ok report)
    (hfields : report.result = .ok fields)
    (hrun : Run (Interleaves Client decl order) (opened Client fields) trace s) :
    (∀ x ∈ trace, ∀ c result, x.label = .return c result → ∃ reply, result = .ok reply) ∧
      Own decl s.store ∧
      (∀ i, ¬Consumable decl i → s.store i = fields i) ∧
      ∀ i, (∀ c resolver, Pool.Starts trace c resolver → ¬resolver.Touches decl i) →
        s.store i = fields i := by
  have hfirst := dependencyFirst_of_schedule_ok h
  have hown := own_of_build hfirst hbuild hfields
  refine ⟨?_, own_run hfirst hown hrun, ?_, ?_⟩
  · rintro ⟨pre, l, post⟩ hx c result hl
    cases hl
    rcases List.append_of_mem hx with ⟨front, back, rfl⟩
    rcases hrun.split_at with ⟨hfront, hstep, -⟩
    -- What a thread still returns is a reply.
    have hwithin := Pool.within (P := fun _ _ => True) (T := fun result => ∃ reply, result = .ok reply)
      hfront opened_within (fun _ resolver _ =>
        (resolver.within hfirst).mono (fun _ _ => trivial) fun _ => id) c
    simp only at hstep hwithin
    cases hstep with
    | «return» hdone =>
        rw [hdone] at hwithin
        exact hwithin
  · intro i hi
    have hkeep : Own decl s.store ∧ s.store i = fields i := by
      refine Pool.invariant (P := fun _ _ => True) (T := fun _ => True)
        (I := fun container => Own decl container ∧ container i = fields i) hrun opened_within
        (fun _ resolver _ => (resolver.within hfirst).mono (fun _ _ => trivial) fun _ _ => trivial)
        ⟨hown, rfl⟩ ?_
      intro c others container q a container' ⟨hcontainer, hsame⟩ _ hanswer
      refine ⟨hcontainer.answers hanswer, ?_⟩
      by_cases hq : i = q.1
      · subst hq
        rw [hanswer.fixed ?_, hsame]
        intro value hvalue
        have hmatches := (hcontainer q.1).2
        rw [hvalue] at hmatches
        exact hi hmatches.consumable
      · rw [hanswer.other hq, hsame]
    exact hkeep.2
  · intro i hi
    refine Pool.invariant (P := fun _ q => q.1 ≠ i) (T := fun _ => True)
      (I := fun container => container i = fields i) hrun opened_within ?_ rfl ?_
    · intro c resolver hstart
      refine (resolver.within hfirst).mono (fun q hq heq => ?_) fun _ _ => trivial
      exact hi c resolver hstart (heq ▸ hq.1)
    · intro c others container q a container' hsame hq hanswer
      rw [hanswer.other (Ne.symm hq), hsame]

end Runs

theorem sample_consumable : 0 < 3 := by decide

def sampleRegistrations (i : Fin 3) : Registration :=
  if i.val = 1 then .factory false false else .value

def sampleDependencies (i : Fin 3) : Finset (Fin 3) :=
  if i.val = 1 then {⟨0, sample_consumable⟩} else ∅

theorem sample_recorded {i : Fin 3} (h : i.val = 1) :
    ⟨0, sample_consumable⟩ ∈ sampleDependencies i := by
  simp [sampleDependencies, h]

theorem sample_available :
    (replacements sampleRegistrations (fun _ => ∅) true false ⟨0, sample_consumable⟩
      .tryResolve).isSome := by
  decide

/-- A consumable value, a constructor that takes it, and a value that is copied. -/
def sample : Declaration 3 Nat String Unit where
  registrations := sampleRegistrations
  unchecked := false
  dependencies := sampleDependencies
  storage := fun i => if i.val = 0 then .take else .copy
  value := fun i => .done (.ok (if i.val = 0 then 7 else 5))
  constructor := fun i _ =>
    if h : i.val = 1 then
      .query ⟨⟨0, sample_consumable⟩, sample_recorded h, .tryResolve, sample_available⟩ fun reply =>
        .done (reply.toOption.getD 0)
    else .done 0
  captures := fun _ => ()
  fresh := fun _ => 0

def sampleFields : Container 3 Nat Unit := fun i =>
  ⟨i, if i.val = 0 then .take (some 7) else if i.val = 1 then .factory () else .copy 5⟩

theorem sample_schedule : schedule sample.dependencies = .ok [0, 2, 1] := by decide +kernel

theorem sample_build :
    ∃ report, build sample [0, 2, 1] = .ok report ∧ report.result = .ok sampleFields := by
  refine ⟨⟨.ok sampleFields, [(0, none), (2, none), (1, none)], []⟩, ?_, rfl⟩
  have hbuild : build sample [0, 2, 1] =
      .ok ⟨.ok _, [(0, none), (2, none), (1, none)], []⟩ := rfl
  have hfields : ∀ {fields : Container 3 Nat Unit}, fields 0 = sampleFields 0 →
      fields 1 = sampleFields 1 → fields 2 = sampleFields 2 → fields = sampleFields := by
    intro fields hzero hone htwo
    funext i
    match i with
    | 0 => exact hzero
    | 1 => exact hone
    | 2 => exact htwo
  rw [hbuild]
  exact congrArg
    (fun fields => Except.ok (⟨Built.ok fields, _, _⟩ : Report 3 Nat String Unit))
    (hfields rfl rfl rfl)

/-- A resolver of the copied value runs beside the constructor. -/
theorem container_shared_safely_pair :
    ∃ trace, ∃ s : Shared Bool 3 Nat Unit,
      Run (Interleaves Bool sample [0, 2, 1]) (opened Bool sampleFields) trace s ∧
        Own sample s.store ∧ s.store 2 = sampleFields 2 := by
  rcases sample_build with ⟨report, hbuild, hfields⟩
  have hstart : Interleaves Bool sample [0, 2, 1] (opened Bool sampleFields)
      (.start false (.constructor 1 rfl)) _ := .start rfl
  have hrun := (Run.nil (opened Bool sampleFields)).snoc hstart
    |>.snoc (show Interleaves Bool sample [0, 2, 1] _
      (.start true (.slot 2 .resolve rfl)) _ from .start rfl)
    |>.snoc (.answer (c := true) (q := (2, .resolve)) rfl .answer)
    |>.snoc (.answer (c := false) (q := (0, .tryResolve)) rfl .answer)
  have hsafe := container_shared_safely sample_schedule hbuild hfields hrun
  exact ⟨_, _, hrun, hsafe.2.1, hsafe.2.2.1 2 (by simp [Consumable, sample])⟩

section Runs

variable {Client : Type} [DecidableEq Client] {s : Shared Client n V C}
  {trace : List (Transition (Shared Client n V C) (SharedLabel Client decl))}
  {fields : Container n V C}

/-! ## Deliveries -/

/-- The value a taking method on this slot hands out. -/
def delivered (i : Fin n) : SharedLabel Client decl → Option V
  | .answer _ q (.ok value) => if q.1 = i ∧ takes q.2 = true then some value else none
  | _ => none

def deliveries (i : Fin n)
    (trace : List (Transition (Shared Client n V C) (SharedLabel Client decl))) : List V :=
  trace.filterMap fun t => delivered i t.label

omit [DecidableEq Client] in
@[simp]
theorem deliveries_snoc (i : Fin n)
    (trace : List (Transition (Shared Client n V C) (SharedLabel Client decl)))
    (t : Transition (Shared Client n V C) (SharedLabel Client decl)) :
    deliveries i (trace ++ [t]) = deliveries i trace ++ (delivered i t.label).toList := by
  cases h : delivered i t.label <;> simp [deliveries, h]

omit [DecidableEq Client] in
/-- An answer of another slot, or one that hands nothing out, delivers nothing. -/
theorem delivered_none {i : Fin n} {c : Client} {q : Ask n} {a : Except AccessError V}
    (h : q.1 = i → takes q.2 = true → ∀ v, a ≠ .ok v) :
    delivered i (.answer c q a : SharedLabel Client decl) = none := by
  cases a with
  | error e => rfl
  | ok v =>
      refine if_neg ?_
      rintro ⟨hq, htakes⟩
      exact h hq htakes v rfl

/-- A consumable slot still has what it was built with, or has handed it out. -/
def Delivers (i : Fin n) (value : Option V)
    (trace : List (Transition (Shared Client n V C) (SharedLabel Client decl)))
    (container : Container n V C) : Prop :=
  (deliveries i trace = [] ∧ (container i).contents = .take value) ∨
    ∃ v, value = some v ∧ deliveries i trace = [v] ∧ (container i).contents = .take none

omit [DecidableEq Client] in
theorem Delivers.keep {i : Fin n} {value : Option V} {container container' : Container n V C}
    {t : Transition (Shared Client n V C) (SharedLabel Client decl)}
    (h : Delivers i value trace container) (hnone : delivered i t.label = none)
    (hsame : container' i = container i) : Delivers i value (trace ++ [t]) container' := by
  unfold Delivers at h ⊢
  rw [deliveries_snoc, hnone, hsame]
  simpa using h

theorem delivers_run (i : Fin n) {value : Option V} (hvalue : (fields i).contents = .take value)
    (hrun : Run (Interleaves Client decl order) (opened Client fields) trace s) :
    Delivers i value trace s.store := by
  refine hrun.invariant (P := fun trace s => Delivers i value trace s.store)
    (.inl ⟨rfl, hvalue⟩) ?_
  intro trace m l t _ ih hstep
  rcases hstep.store with ⟨hno, hstore⟩ | ⟨c, q, next, a, rfl, -, hanswer⟩
  · refine ih.keep ?_ (by rw [hstore])
    cases l with
    | answer c q a => exact absurd rfl (hno c q a)
    | _ => rfl
  · by_cases hq : i = q.1
    · subst hq
      have hcontents : ∃ value', (m.store q.1).contents = .take value' := by
        rcases ih with ⟨-, htake⟩ | ⟨-, -, -, htake⟩
        · exact ⟨_, htake⟩
        · exact ⟨_, htake⟩
      rcases hcontents with ⟨value', htake⟩
      rcases hanswer.take htake with ⟨hsame, hquiet⟩ | ⟨v, rfl, htakes, rfl, hempty⟩
      · exact ih.keep (delivered_none fun _ => hquiet) (by rw [hsame])
      · -- The one transfer: what was built is still there.
        rcases ih with ⟨hnone, hbuilt⟩ | ⟨-, -, -, hgone⟩
        · cases htake.symm.trans hbuilt
          refine .inr ⟨v, rfl, ?_, hempty⟩
          simp [hnone, delivered, htakes]
        · cases htake.symm.trans hgone
    · exact ih.keep (delivered_none fun heq => absurd heq.symm hq) (hanswer.other hq)

/-- Whatever the interleaving, a consumable slot hands out at most the value it was built with, once;
after that every query method of it fails. -/
theorem container_delivers_once (h : schedule decl.dependencies = .ok order)
    {report : Report n V E C} (hbuild : build decl order = .ok report)
    (hfields : report.result = .ok fields)
    (hrun : Run (Interleaves Client decl order) (opened Client fields) trace s)
    {i : Fin n} (hi : Consumable decl i) :
    ∃ value, (fields i).contents = .take value ∧ Delivers i value trace s.store ∧
      ∀ front x back c q a, trace = front ++ x :: back → deliveries i front ≠ [] →
        x.label = .answer c q a → q.1 = i → ∃ e, a = .error e := by
  have hown := own_of_build (dependencyFirst_of_schedule_ok h) hbuild hfields
  have hcontents : ∃ value, (fields i).contents = .take value := by
    have hmatches := (hown i).2
    unfold Matches at hmatches
    simpa only [hi.1, hi.2] using hmatches
  rcases hcontents with ⟨value, hvalue⟩
  refine ⟨value, hvalue, delivers_run i hvalue hrun, ?_⟩
  rintro front ⟨pre, l, post⟩ back c q a rfl hfront hl hq
  cases hl
  subst hq
  rcases hrun.split_at with ⟨hbefore, hstep, -⟩
  -- The slot has been empty since the delivery.
  have hempty : (pre.store q.1).contents = .take none := by
    rcases delivers_run q.1 hvalue hbefore with ⟨hnone, -⟩ | ⟨-, -, -, hgone⟩
    · exact absurd hnone hfront
    · exact hgone
  simp only at hstep
  cases hstep with
  | answer _ hanswer =>
      cases hanswer with
      | answer => exact ⟨.valueAlreadyConsumed, by simp [serve, hempty, access]⟩
      | contend _ _ => exact ⟨_, rfl⟩

end Runs

/-- A client calls the constructor while another takes its dependency from the slot. -/
theorem container_delivers_once_race :
    ∃ trace, ∃ s : Shared Bool 3 Nat Unit,
      Run (Interleaves Bool sample [0, 2, 1]) (opened Bool sampleFields) trace s ∧
        deliveries 0 trace = [7] ∧
        ∃ value, (sampleFields 0).contents = .take value ∧ Delivers 0 value trace s.store := by
  rcases sample_build with ⟨report, hbuild, hfields⟩
  have hstart : Interleaves Bool sample [0, 2, 1] (opened Bool sampleFields)
      (.start false (.constructor 1 rfl)) _ := .start rfl
  have hrun := (Run.nil (opened Bool sampleFields)).snoc hstart
    |>.snoc (show Interleaves Bool sample [0, 2, 1] _
      (.start true (.slot 0 .tryResolve rfl)) _ from .start rfl)
    |>.snoc (.answer (c := true) (q := (0, .tryResolve)) rfl .answer)
    |>.snoc (.answer (c := false) (q := (0, .tryResolve)) rfl
      (.contend rfl ⟨.tryResolve, true, by decide, rfl⟩))
    |>.snoc (.take (c := false) rfl)
    |>.snoc (show Interleaves Bool sample [0, 2, 1] _ (.return false (.ok (.ok 0))) _ from
      .return rfl)
  rcases container_delivers_once sample_schedule hbuild hfields hrun (i := 0) ⟨rfl, rfl⟩ with
    ⟨value, hvalue, hdelivers, -⟩
  exact ⟨_, _, hrun, rfl, value, hvalue, hdelivers⟩

section Runs

variable {Client : Type} [DecidableEq Client] {s : Shared Client n V C}
  {trace : List (Transition (Shared Client n V C) (SharedLabel Client decl))}
  {fields : Container n V C}

/-! ## Isolation -/

/-- A question that does not concern a resolver. -/
def Apart (decl : Declaration n V E C) (resolver : Resolver decl.registrations) (q : Ask n) :
    Prop :=
  ¬(Consumable decl q.1 ∧ resolver.Touches decl q.1)

/-- The containers a resolver cannot tell apart. -/
def Alike (decl : Declaration n V E C) (resolver : Resolver decl.registrations)
    (container container' : Container n V C) : Prop :=
  Own decl container ∧ Own decl container' ∧
    ∀ i, resolver.Touches decl i → container i = container' i

theorem isolates (resolver : Resolver decl.registrations) :
    Pool.Isolates Answers serve (Alike decl resolver)
      (fun q => resolver.Touches decl q.1) (Apart decl resolver) where
  own := by
    rintro others container q a t container' hq hothers hanswer ⟨hown, hown', halike⟩
    cases hanswer with
    | answer =>
        have hslot := halike q.1 hq
        refine ⟨by simp only [serve, hslot], hown.serve q, hown'.serve q, ?_⟩
        intro i hi
        by_cases hiq : i = q.1
        · subst hiq
          simp [serve, hslot]
        · simpa [serve, hiq] using halike i hi
    | contend hcontents hopen =>
        rcases hopen with ⟨method, hmethod⟩
        have hmatches := (hown q.1).2
        rw [hcontents] at hmatches
        exact absurd ⟨hmatches.consumable, hq⟩ (hothers _ hmethod)
  other := by
    rintro others container q a t container' hq hanswer ⟨hown, hown', halike⟩
    refine ⟨hown.answers hanswer, hown', ?_⟩
    intro i hi
    by_cases hiq : i = q.1
    · subst hiq
      rw [hanswer.fixed ?_]
      · exact halike q.1 hi
      · intro value hvalue
        have hmatches := (hown q.1).2
        rw [hvalue] at hmatches
        exact hq ⟨hmatches.consumable, hi⟩
    · rw [hanswer.other hiq]
      exact halike i hi

/-- A resolver that shares no consumable slot with what the others do meanwhile returns what it
returns when nobody else uses the container, and leaves the slots it touches as it would alone. -/
theorem resolver_isolated (h : schedule decl.dependencies = .ok order)
    {report : Report n V E C} (hbuild : build decl order = .ok report)
    (hfields : report.result = .ok fields) {m m' t : Shared Client n V C} {c : Client}
    {resolver : Resolver decl.registrations} {result : Except (Stuck n) (Except AccessError V)}
    {during : List (Transition (Shared Client n V C) (SharedLabel Client decl))}
    (hbefore : Run (Interleaves Client decl order) (opened Client fields) trace s)
    (hcall : Interleaves Client decl order s (.start c resolver) m)
    (hduring : Run (Interleaves Client decl order) m during m')
    (hreturn : Interleaves Client decl order m' (.return c result) t)
    (hbusy : ∀ d, d ≠ c → (s.thread d).Within (Apart decl resolver) fun _ => True)
    (hothers : ∀ d other, Pool.Starts during d other → d ≠ c ∧
      ∀ i, Consumable decl i → other.Touches decl i → ¬resolver.Touches decl i) :
    ∃ reply slots, resolver.call decl order s.store.slots = .ok (reply, slots) ∧
      result = .ok reply ∧ ∀ i, resolver.Touches decl i → slots i = some (t.store i) := by
  have hfirst := dependencyFirst_of_schedule_ok h
  have hown := own_run hfirst (own_of_build hfirst hbuild hfields) hbefore
  have hwithin := resolver.within hfirst
  cases hcall with
  | start _ =>
      have halone := Pool.alone (isolates resolver) (T := fun _ => True) hduring hreturn
        (Pool.State.set_thread _ _ _) (hwithin.mono (fun _ hq => hq.1) fun _ _ => trivial)
        ⟨hown, hown, fun _ _ => rfl⟩ ?_ ?_
      · -- Alone, the code is the resolver as the container runs it.
        rcases hwithin.run serve s.store with ⟨reply, hreply⟩
        refine ⟨reply, Container.slots ((resolver.code decl order).run serve s.store).2, ?_,
          halone.1.trans hreply, ?_⟩
        · rw [resolver.call_slots s.store hown]
          simp only [outcome, hreply]
        · intro i hi
          exact congrArg some (halone.2.2.2 i hi).symm
      · intro d hd
        rw [Pool.State.set_other _ _ hd]
        exact hbusy d hd
      · intro d other hstart
        refine ⟨(hothers d other hstart).1, ?_⟩
        refine (other.within hfirst).mono (fun q hq hshared => ?_) fun _ _ => trivial
        exact (hothers d other hstart).2 q.1 hshared.1 hq.1 hshared.2

end Runs

/-- The constructor returns the value although another client reads the copied one meanwhile. -/
theorem resolver_isolated_pair :
    ∃ reply slots, (Resolver.constructor 1 rfl : Resolver sample.registrations).call sample
        [0, 2, 1] sampleFields.slots = .ok (reply, slots) ∧
      (.ok (.ok 7) : Except (Stuck 3) (Except AccessError Nat)) = .ok reply := by
  rcases sample_build with ⟨report, hbuild, hfields⟩
  have hstart : Interleaves Bool sample [0, 2, 1] (opened Bool sampleFields)
      (.start false (.constructor 1 rfl)) _ := .start rfl
  have hduring := (Run.nil ((opened Bool sampleFields).set false
      (.running ((Resolver.constructor 1 rfl).code sample [0, 2, 1])))).snoc
      (show Interleaves Bool sample [0, 2, 1] _ (.start true (.slot 2 .resolve rfl)) _ from
        .start rfl)
    |>.snoc (.answer (c := true) (q := (2, .resolve)) rfl .answer)
    |>.snoc (.answer (c := false) (q := (0, .tryResolve)) rfl .answer)
    |>.snoc (.take (c := false) rfl)
  refine Exists.elim (resolver_isolated sample_schedule hbuild hfields (.nil _) hstart hduring
    (show Interleaves Bool sample [0, 2, 1] _ (.return false (.ok (.ok 7))) _ from .return rfl)
    (fun d _ => trivial) ?_) ?_
  · rintro d other ⟨x, hx, hl⟩
    simp only [List.nil_append, List.cons_append, List.mem_cons, List.not_mem_nil, or_false] at hx
    rcases hx with rfl | rfl | rfl | rfl
    · cases hl
      refine ⟨by decide, fun i hi htouch => ?_⟩
      cases htouch
      simp [Consumable, sample] at hi
    all_goals cases hl
  · rintro reply ⟨slots, hcall, hreply, -⟩
    exact ⟨reply, slots, hcall, hreply⟩

end Build
end Systasis
