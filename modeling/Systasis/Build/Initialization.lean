import Systasis.Build.Generated

/-!
# Initialization — what the initializers of a declaration compute

The build closure is read here without slots, owners or replacements.  Every registration has
contents or none yet; a query is a question to the contents at its target, and a constructor
answers it by running its own code.  `Declaration.Initializes` runs the initializers one after the
other and keeps the trace of what they returned.  It has one outcome, and it is the outcome of the
generated statements whenever these return.
-/

namespace Systasis
namespace Build

open Systasis.Graph Wiring

variable {n : Nat} {V E C : Type}

/-! ## What the initializers compute -/

/-- What the registrations hold, as far as they have been initialized. -/
abbrev Store (n : Nat) (V C : Type) : Type := Fin n → Option (Contents V C)

namespace Declaration

section

variable (decl : Declaration n V E C)

mutual

/-- The reply of registration `target` to a query method, and what the registrations hold after
it. -/
inductive Replies : Store n V C → Fin n → Method → Except AccessError V → Store n V C → Prop
  | access {store : Store n V C} {target : Fin n} {method : Method} {contents : Contents V C} :
      (decl.registrations target).constructor = false → store target = some contents →
        Replies store target method (access method contents).1
          (Function.update store target (some (access method contents).2))
  | construct {store after : Store n V C} {target : Fin n} {method : Method} {captures : C}
      {value : V} :
      (decl.registrations target).constructor = true → store target = some (.factory captures) →
        Runs (decl.constructor target captures) store value after →
          Replies store target method (.ok value) after

/-- A piece of user code returns a result. -/
inductive Runs : {recorded : Finset (Fin n)} → {R : Type} →
    Behaviour (Query decl.registrations decl.unchecked recorded) V R → Store n V C → R →
      Store n V C → Prop
  | done {recorded : Finset (Fin n)} {R : Type} (result : R) (store : Store n V C) :
      Runs (.done result : Behaviour (Query decl.registrations decl.unchecked recorded) V R) store
        result store
  | query {recorded : Finset (Fin n)} {R : Type}
      {q : Query decl.registrations decl.unchecked recorded}
      {next : Except AccessError V →
        Behaviour (Query decl.registrations decl.unchecked recorded) V R}
      {store middle after : Store n V C} {reply : Except AccessError V} {result : R} :
      Replies store q.target q.method reply middle → Runs (next reply) middle result after →
        Runs (.query q next) store result after

end

/-- The registrations are initialized one after the other, up to the first error: which of them
ran and what each one failed with, and what the registrations hold in the end or the error. -/
inductive Initializes : List (Fin n) → Store n V C → List (Fin n × Option E) →
    Except E (Store n V C) → Prop
  | nil (store : Store n V C) : Initializes [] store [] (.ok store)
  | factory {i : Fin n} {rest : List (Fin n)} {store : Store n V C} {fallible native : Bool} {ran}
      {result} :
      decl.registrations i = .factory fallible native →
        Initializes rest (Function.update store i (some (.factory (decl.captures i)))) ran result →
          Initializes (i :: rest) store ((i, none) :: ran) result
  | fresh {i : Fin n} {rest : List (Fin n)} {store : Store n V C} {ran} {result} :
      decl.registrations i = .fresh →
        Initializes rest (Function.update store i (some (.fresh (decl.fresh i)))) ran result →
          Initializes (i :: rest) store ((i, none) :: ran) result
  | value {i : Fin n} {rest : List (Fin n)} {store after : Store n V C} {value : V} {ran} {result} :
      decl.registrations i = .value → Runs decl (decl.value i) store (.ok value) after →
        Initializes rest (Function.update after i (some (Build.store (decl.storage i) value))) ran
            result →
          Initializes (i :: rest) store ((i, none) :: ran) result
  | failed {i : Fin n} {rest : List (Fin n)} {store after : Store n V C} {error : E} :
      decl.registrations i = .value → Runs decl (decl.value i) store (.error error) after →
        Initializes (i :: rest) store [(i, some error)] (.error error)

end

/-! ## One outcome -/

variable {decl : Declaration n V E C}

mutual

theorem Replies.unique {store after after' : Store n V C} {target : Fin n} {method : Method}
    {reply reply' : Except AccessError V} (h : decl.Replies store target method reply after)
    (h' : decl.Replies store target method reply' after') : reply = reply' ∧ after = after' := by
  match h, h' with
  | .access _ hcontents, .access _ hcontents' =>
      cases hcontents.symm.trans hcontents'
      exact ⟨rfl, rfl⟩
  | .access hstored _, .construct hconstructor _ _ => cases hstored.symm.trans hconstructor
  | .construct hconstructor _ _, .access hstored _ => cases hstored.symm.trans hconstructor
  | .construct _ hcaptures hruns, .construct _ hcaptures' hruns' =>
      cases hcaptures.symm.trans hcaptures'
      rcases Runs.unique hruns hruns' with ⟨rfl, rfl⟩
      exact ⟨rfl, rfl⟩

theorem Runs.unique {recorded : Finset (Fin n)} {R : Type}
    {behaviour : Behaviour (Query decl.registrations decl.unchecked recorded) V R}
    {store after after' : Store n V C} {result result' : R}
    (h : decl.Runs behaviour store result after) (h' : decl.Runs behaviour store result' after') :
    result = result' ∧ after = after' := by
  match h, h' with
  | .done _ _, .done _ _ => exact ⟨rfl, rfl⟩
  | .query hreplies hruns, .query hreplies' hruns' =>
      rcases Replies.unique hreplies hreplies' with ⟨rfl, rfl⟩
      exact Runs.unique hruns hruns'

end

/-- The kind of a registration decides how it is initialized, and the code of a stored value what
comes of it. -/
theorem Initializes.unique {order : List (Fin n)} {store : Store n V C}
    {ran ran' : List (Fin n × Option E)} {result result' : Except E (Store n V C)}
    (h : decl.Initializes order store ran result) (h' : decl.Initializes order store ran' result') :
    ran = ran' ∧ result = result' := by
  induction h generalizing ran' with
  | nil store =>
      cases h'
      exact ⟨rfl, rfl⟩
  | factory hkind _ ih =>
      cases h' with
      | factory _ hrest =>
          rcases ih hrest with ⟨rfl, rfl⟩
          exact ⟨rfl, rfl⟩
      | fresh hkind' _ => cases hkind.symm.trans hkind'
      | value hkind' _ _ => cases hkind.symm.trans hkind'
      | failed hkind' _ => cases hkind.symm.trans hkind'
  | fresh hkind _ ih =>
      cases h' with
      | factory hkind' _ => cases hkind.symm.trans hkind'
      | fresh _ hrest =>
          rcases ih hrest with ⟨rfl, rfl⟩
          exact ⟨rfl, rfl⟩
      | value hkind' _ _ => cases hkind.symm.trans hkind'
      | failed hkind' _ => cases hkind.symm.trans hkind'
  | value hkind hruns _ ih =>
      cases h' with
      | factory hkind' _ => cases hkind.symm.trans hkind'
      | fresh hkind' _ => cases hkind.symm.trans hkind'
      | value _ hruns' hrest =>
          rcases hruns.unique hruns' with ⟨heq, rfl⟩
          cases heq
          rcases ih hrest with ⟨rfl, rfl⟩
          exact ⟨rfl, rfl⟩
      | failed _ hruns' => cases (hruns.unique hruns').1
  | failed hkind hruns =>
      cases h' with
      | factory hkind' _ => cases hkind.symm.trans hkind'
      | fresh hkind' _ => cases hkind.symm.trans hkind'
      | value _ hruns' _ => cases (hruns.unique hruns').1
      | failed _ hruns' =>
          cases (hruns.unique hruns').1
          exact ⟨rfl, rfl⟩

end Declaration

/-! ## The generated code computes it -/

/-- The store that the locals of the build closure stand for. -/
def contentsOf (slots : Slots n V C) : Store n V C :=
  fun i => (slots i).map Slot.contents

theorem contentsOf_update (slots : Slots n V C) (i : Fin n) (slot : Option (Slot n V C)) :
    contentsOf (Function.update slots i slot) =
      Function.update (contentsOf slots) i (slot.map Slot.contents) := by
  funext j
  by_cases hj : j = i
  · subst hj
    simp [contentsOf]
  · simp [contentsOf, hj]

/-- A slot expression that evaluates to a slot names it. -/
theorem locate_slot {context : List (Fin n)} {slots : Slots n V C} {building : Bool}
    {j index : Fin n} {slot : Slot n V C}
    (hlocate : locate context slots (Wiring.slot building j) = .ok (index, slot)) :
    index = j ∧ slots j = some slot := by
  cases building with
  | true =>
      simp only [Wiring.slot, if_true, locate] at hlocate
      split at hlocate
      · cases hlocate
        exact ⟨rfl, by assumption⟩
      · cases hlocate
  | false =>
      simp only [Wiring.slot, Bool.false_eq_true, if_false, locate] at hlocate
      split at hlocate
      · split at hlocate
        · cases hlocate
          exact ⟨rfl, by assumption⟩
        · cases hlocate
      · cases hlocate

variable {decl : Declaration n V E C} {order : List (Fin n)}

/-- A helper that only returns what the constructor of `j` computes. -/
def Sound (decl : Declaration n V E C) (j : Fin n)
    (helper : Slots n V C → Except (Stuck n) (V × Slots n V C)) : Prop :=
  ∀ slots value slots', helper slots = .ok (value, slots') →
    ∃ captures, contentsOf slots j = some (.factory captures) ∧
      decl.Runs (decl.constructor j captures) (contentsOf slots) value (contentsOf slots')

/-- A replacement that evaluates answers the query it stands for. -/
theorem evaluate_sound {all : Dependencies n} {building : Bool} {target : Fin n} {method : Method}
    {replacement : Replacement n}
    (hreplacement : replacements decl.registrations all building decl.unchecked target method =
      some replacement)
    {helper : Fin n → Slots n V C → Except (Stuck n) (V × Slots n V C)}
    (hhelper : ∀ j, Sound decl j (helper j)) {context : List (Fin n)} {slots slots' : Slots n V C}
    {reply : Except AccessError V}
    (heval : evaluate helper context slots replacement = .ok (reply, slots')) :
    decl.Replies (contentsOf slots) target method reply (contentsOf slots') := by
  rcases replacement_slots hreplacement with ⟨rfl, hstored⟩ | ⟨hconstructor, hcall⟩
  · simp only [evaluate] at heval
    split at heval
    · rename_i index slot hlocate
      rcases locate_slot hlocate with ⟨rfl, hslot⟩
      cases heval
      rw [contentsOf_update]
      apply Declaration.Replies.access hstored
      simp [contentsOf, hslot]
    · cases heval
  · -- Both forms of a call evaluate their arguments and run the helper of the target.
    have hcalled : evaluate.call helper context slots target
        ((arguments target all).map (Wiring.slot building)) = .ok (reply, slots') := by
      rcases hcall with rfl | rfl <;> exact heval
    simp only [evaluate.call] at hcalled
    split at hcalled
    · split at hcalled
      · rename_i value after hhelps
        cases hcalled
        rcases hhelper _ slots value slots' hhelps with ⟨captures, hcaptures, hruns⟩
        exact .construct hconstructor hcaptures hruns
      · cases hcalled
    · cases hcalled

theorem run_sound {all : Dependencies n} {building : Bool}
    {helper : Fin n → Slots n V C → Except (Stuck n) (V × Slots n V C)}
    (hhelper : ∀ j, Sound decl j (helper j)) {context : List (Fin n)} {recorded : Finset (Fin n)}
    {R : Type} (behaviour : Behaviour (Query decl.registrations decl.unchecked recorded) V R) :
    ∀ {slots slots' : Slots n V C} {result : R},
      run helper (replacements decl.registrations all building decl.unchecked) context behaviour
          slots = .ok (result, slots') →
        decl.Runs behaviour (contentsOf slots) result (contentsOf slots') := by
  induction behaviour with
  | done result =>
      intro slots slots' result' hrun
      cases hrun
      exact .done _ _
  | query q next ih =>
      intro slots slots' result hrun
      simp only [run] at hrun
      split at hrun
      · cases hrun
      · rename_i replacement hreplacement
        split at hrun
        · rename_i reply middle heval
          exact .query (evaluate_sound hreplacement hhelper heval) (ih reply hrun)
        · cases hrun

theorem construct_sound (depth : Nat) (j : Fin n) : Sound decl j (construct decl order depth j) := by
  induction depth generalizing j with
  | zero =>
      intro slots value slots' hconstruct
      cases hconstruct
  | succ depth ih =>
      intro slots value slots' hconstruct
      simp only [construct] at hconstruct
      split at hconstruct
      · rename_i registration captures hslot
        exact ⟨captures, by simp [contentsOf, hslot], run_sound ih _ hconstruct⟩
      · cases hconstruct

/-- Once an error is set, no statement clears it, and none runs. -/
theorem steps_error {e : E} :
    ∀ {rest : List (Fin n)} {state state' : State n V E C}, state.error = some e →
      steps decl order rest state = .ok state' →
        state'.error = some e ∧ state'.ran = state.ran := by
  intro rest
  induction rest with
  | nil =>
      intro state state' herror hsteps
      cases hsteps
      exact ⟨herror, rfl⟩
  | cons i rest ih =>
      intro state state' herror hsteps
      simp only [steps, step, herror] at hsteps
      rcases ih rfl hsteps with ⟨herror', hran⟩
      refine ⟨herror', hran.trans ?_⟩
      simp only [discardOwner]
      split <;> (try split) <;> rfl

/-- The result of a build whose statements have all been run. -/
def State.outcome (state : State n V E C) : Except E (Store n V C) :=
  match state.error with
  | some error => .error error
  | none => .ok (contentsOf state.slots)

/-- The owners that have not been moved hold their own captures. -/
def State.Owns (decl : Declaration n V E C) (state : State n V E C) : Prop :=
  ∀ i captures, state.owners i = some captures → captures = decl.captures i

theorem owns_initial : (initial decl).Owns decl := by
  intro i captures howner
  simp only [initial] at howner
  split at howner
  · cases howner
    rfl
  · cases howner

/-- Filling a slot adds its contents to the store. -/
theorem contentsOf_fill (slots : Slots n V C) (i : Fin n) (contents : Contents V C) :
    contentsOf (Function.update slots i (some ⟨i, contents⟩)) =
      Function.update (contentsOf slots) i (some contents) :=
  contentsOf_update slots i (some ⟨i, contents⟩)

/-- The owner that a statement moves leaves the others with their own captures. -/
theorem State.Owns.move {state : State n V E C} (h : state.Owns decl) (moved : Bool) (i : Fin n) :
    ∀ j captures, (if moved then Function.update state.owners i none else state.owners) j =
      some captures → captures = decl.captures j := by
  intro j captures howner
  split at howner
  · by_cases hj : j = i
    · simp [hj] at howner
    · exact h j captures (by simpa [hj] using howner)
  · exact h j captures howner

/-- A statement that has no error yet runs its initializer: the rest is initialized from what it
leaves behind, or its error is the result. -/
theorem step_initializes {state next : State n V E C} {i : Fin n} (herror : state.error = none)
    (howns : state.Owns decl) (hstep : step decl order state i = .ok next) :
    (next.error = none ∧ next.Owns decl ∧ next.ran = state.ran ++ [(i, none)] ∧
        ∀ rest ran result, decl.Initializes rest (contentsOf next.slots) ran result →
          decl.Initializes (i :: rest) (contentsOf state.slots) ((i, none) :: ran) result) ∨
      ∃ e, next.error = some e ∧ next.ran = state.ran ++ [(i, some e)] ∧
        ∀ rest, decl.Initializes (i :: rest) (contentsOf state.slots) [(i, some e)] (.error e) := by
  simp only [step, herror] at hstep
  split at hstep
  · cases hstep
  · rename_i result slots hinitialized
    cases hstep
    simp only [initializeOnce] at hinitialized
    split at hinitialized
    · rename_i fallible native hkind
      split at hinitialized
      · rename_i captures howner
        cases hinitialized
        refine .inl ⟨rfl, howns.move _ i, rfl, fun rest ran result hrest => .factory hkind ?_⟩
        cases howns i captures howner
        rwa [← contentsOf_fill]
      · cases hinitialized
    · rename_i hkind
      cases hinitialized
      refine .inl ⟨rfl, howns.move _ i, rfl, fun rest ran result hrest => .fresh hkind ?_⟩
      rwa [← contentsOf_fill]
    · rename_i hkind
      split at hinitialized
      · rename_i value after hrun
        cases hinitialized
        have hruns := run_sound (construct_sound n) (decl.value i) hrun
        refine .inl ⟨rfl, howns.move _ i, rfl, fun rest ran result hrest => .value hkind hruns ?_⟩
        rwa [← contentsOf_fill]
      · rename_i error after hrun
        cases hinitialized
        have hruns := run_sound (construct_sound n) (decl.value i) hrun
        exact .inr ⟨error, rfl, rfl, fun rest => .failed hkind hruns⟩
      · cases hinitialized

/-- The statements initialize what the declaration says, in the order they stand in, and record
what each initializer returned. -/
theorem steps_initialize :
    ∀ {rest : List (Fin n)} {state state' : State n V E C}, state.error = none →
      state.Owns decl → steps decl order rest state = .ok state' →
        ∃ ran, state'.ran = state.ran ++ ran ∧
          decl.Initializes rest (contentsOf state.slots) ran state'.outcome := by
  intro rest
  induction rest with
  | nil =>
      intro state state' herror _ hsteps
      cases hsteps
      refine ⟨[], by simp, ?_⟩
      simp only [State.outcome, herror]
      exact .nil _
  | cons i rest ih =>
      intro state state' herror howns hsteps
      simp only [steps] at hsteps
      split at hsteps
      · rename_i next hstep
        rcases step_initializes herror howns hstep with
          ⟨hnone, howns', hran, hinitializes⟩ | ⟨e, hsome, hran, hinitializes⟩
        · rcases ih hnone howns' hsteps with ⟨ran, hrest, hresult⟩
          exact ⟨(i, none) :: ran, by simp [hrest, hran], hinitializes rest ran _ hresult⟩
        · rcases steps_error hsome hsteps with ⟨hfailed, hrest⟩
          refine ⟨[(i, some e)], by rw [hrest, hran], ?_⟩
          simp only [State.outcome, hfailed]
          exact hinitializes rest
      · cases hsteps

/-- What a caller of `build()` is given: the slots of the container by their contents, or the error.
-/
def Built.meaning : Built n V E C → Except E (Store n V C)
  | .ok fields => .ok fun i => some (fields i).contents
  | .err error => .error error

theorem finish_meaning {state : State n V E C} {report : Report n V E C}
    (hfinish : finish order state = .ok report) :
    report.result.meaning = state.outcome ∧ report.ran = state.ran := by
  unfold finish at hfinish
  split at hfinish
  · rename_i error herror
    cases hfinish
    simp [Built.meaning, State.outcome, herror]
  · rename_i herror
    split at hfinish
    · rename_i hbound
      cases hfinish
      refine ⟨?_, rfl⟩
      simp only [Built.meaning, State.outcome, herror]
      congr 1
      funext i
      calc
        some ((state.slots i).get (hbound i)).contents
            = (some ((state.slots i).get (hbound i))).map Slot.contents := rfl
        _ = contentsOf state.slots i := by rw [Option.some_get, contentsOf]
    · cases hfinish

/-- A build that returns has run the initializers, and returns what came of them. -/
theorem build_initializes {report : Report n V E C} (hbuild : build decl order = .ok report)
    (ran : List (Fin n × Option E)) (result : Except E (Store n V C)) :
    decl.Initializes order (fun _ => none) ran result ↔
      ran = report.ran ∧ result = report.result.meaning := by
  have hmeans : decl.Initializes order (fun _ => none) report.ran report.result.meaning := by
    simp only [build] at hbuild
    split at hbuild
    · rename_i state hsteps
      rcases steps_initialize rfl owns_initial hsteps with ⟨ran, hran, hinitializes⟩
      rcases finish_meaning hbuild with ⟨hmeaning, hrecorded⟩
      have htrace : report.ran = ran := by rw [hrecorded, hran, initial, List.nil_append]
      rw [hmeaning, htrace]
      exact hinitializes
    · cases hbuild
  constructor
  · intro hinitializes
    exact hinitializes.unique hmeans
  · rintro ⟨rfl, rfl⟩
    exact hmeans

end Build
end Systasis
