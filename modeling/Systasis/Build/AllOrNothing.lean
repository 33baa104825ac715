import Systasis.Build.Initialization

/-!
# AllOrNothing — a build either publishes every slot or releases everything

The build closure is run on a dependency-first order.  Two invariants carry the argument:

* while user code runs, the set of filled slots does not change and every filled slot keeps its
  own registration's contents (`Well`), so that no replacement finds an empty slot;
* between initializers, the filled slots, the remaining capture owners, the trace and the drops
  are determined by the position in the order and the first error (`Progress`).
-/

namespace Systasis
namespace Build

open Systasis.Graph Wiring Lib

variable {n : Nat} {V E C : Type} {decl : Declaration n V E C} {order : List (Fin n)}

/-! ## Slots that hold their own registration -/

/-- The contents a slot of registration `i` can have: the kind the declaration selected, with
the constructor's own captures. -/
def Matches (decl : Declaration n V E C) (i : Fin n) (contents : Contents V C) : Prop :=
  match decl.registrations i with
  | .factory _ _ => contents = .factory (decl.captures i)
  | .fresh => contents = .fresh (decl.fresh i)
  | .value =>
      match decl.storage i with
      | .copy => ∃ value, contents = .copy value
      | .read => ∃ value, contents = .read value
      | .take => ∃ value, contents = .take value

/-- Exactly the slots in `filled` are bound, each by its own registration. -/
structure Well (decl : Declaration n V E C) (filled : Fin n → Bool) (slots : Slots n V C) :
    Prop where
  isSome : ∀ i, (slots i).isSome = filled i
  own : ∀ i slot, slots i = some slot → slot.registration = i ∧ Matches decl i slot.contents

/-- An access never changes the kind of a slot's contents. -/
theorem Matches.access {i : Fin n} {contents : Contents V C} (h : Matches decl i contents)
    (method : Method) : Matches decl i (access method contents).2 := by
  unfold Matches at h ⊢
  cases hkind : decl.registrations i with
  | factory fallible native =>
      rw [hkind] at h
      have h' : contents = .factory (decl.captures i) := h
      simp [h', Build.access]
  | fresh =>
      rw [hkind] at h
      have h' : contents = .fresh (decl.fresh i) := h
      simp [h', Build.access]
  | value =>
      rw [hkind] at h
      cases hstorage : decl.storage i with
      | copy =>
          simp only [hstorage] at h ⊢
          rcases h with ⟨value, rfl⟩
          exact ⟨value, rfl⟩
      | read =>
          simp only [hstorage] at h ⊢
          rcases h with ⟨value, rfl⟩
          exact ⟨value, rfl⟩
      | take =>
          simp only [hstorage] at h ⊢
          rcases h with ⟨value, rfl⟩
          cases value with
          | none => exact ⟨none, rfl⟩
          | some value => exact ⟨_, rfl⟩

theorem matches_store {i : Fin n} (h : decl.registrations i = .value) (value : V) :
    Matches decl i (store (decl.storage i) value) := by
  unfold Matches
  rw [h]
  cases hstorage : decl.storage i with
  | copy => exact ⟨value, rfl⟩
  | read => exact ⟨value, rfl⟩
  | take => exact ⟨some value, rfl⟩

/-- The captures found in the slot of a constructor are its own. -/
theorem Well.factory {filled : Fin n → Bool} {slots : Slots n V C} (h : Well decl filled slots)
    {i : Fin n} (hfilled : filled i = true) (hconstructor : (decl.registrations i).constructor) :
    ∃ slot, slots i = some slot ∧ slot.contents = .factory (decl.captures i) := by
  have hsome : (slots i).isSome = true := (h.isSome i).trans hfilled
  rcases Option.isSome_iff_exists.1 hsome with ⟨slot, hslot⟩
  refine ⟨slot, hslot, ?_⟩
  have hmatches := (h.own i slot hslot).2
  unfold Matches at hmatches
  cases hkind : decl.registrations i with
  | factory fallible native =>
      rw [hkind] at hmatches
      exact hmatches
  | fresh => simp [hkind, Registration.constructor] at hconstructor
  | value => simp [hkind, Registration.constructor] at hconstructor

/-! ## Replacements evaluate -/

/-- A slot expression is usable: its slot is filled and, inside a constructor, a field. -/
def Usable (filled : Fin n → Bool) (context : List (Fin n)) : SlotExpr n → Prop
  | .unwrapped index => filled index = true
  | .field index => filled index = true ∧ index ∈ context

theorem locate_ok {filled : Fin n → Bool} {slots : Slots n V C} (h : Well decl filled slots)
    {context : List (Fin n)} {s : SlotExpr n} (hs : Usable filled context s) :
    ∃ index slot, locate context slots s = .ok (index, slot) ∧ slots index = some slot := by
  cases s with
  | unwrapped index =>
      rcases Option.isSome_iff_exists.1 ((h.isSome index).trans hs) with ⟨slot, hslot⟩
      exact ⟨index, slot, by simp [locate, hslot], hslot⟩
  | field index =>
      rcases Option.isSome_iff_exists.1 ((h.isSome index).trans hs.1) with ⟨slot, hslot⟩
      exact ⟨index, slot, by simp [locate, hslot, hs.2], hslot⟩

theorem locateAll_ok {filled : Fin n → Bool} {slots : Slots n V C} (h : Well decl filled slots)
    {context : List (Fin n)} {arguments : List (SlotExpr n)}
    (hs : ∀ s ∈ arguments, Usable filled context s) :
    locateAll context slots arguments = .ok () := by
  induction arguments with
  | nil => rfl
  | cons argument rest ih =>
      rcases locate_ok h (hs argument (by simp)) with ⟨index, slot, hlocate, -⟩
      simp only [locateAll, hlocate]
      exact ih fun s hmem => hs s (List.mem_cons_of_mem argument hmem)

/-- Writing the remains of an access back keeps the slots well. -/
theorem Well.update {filled : Fin n → Bool} {slots : Slots n V C} (h : Well decl filled slots)
    {index : Fin n} {slot : Slot n V C} (hslot : slots index = some slot) (method : Method) :
    Well decl filled
      (Function.update slots index
        (some { slot with contents := (access method slot.contents).2 })) where
  isSome := by
    intro i
    by_cases hi : i = index
    · subst hi
      have hfilled : filled i = true := by
        rw [← h.isSome i, hslot]
        rfl
      simp [hfilled]
    · simpa [Function.update_of_ne hi] using h.isSome i
  own := by
    intro i slot' hslot'
    by_cases hi : i = index
    · subst hi
      have hown := h.own i slot hslot
      have heq : slot' = { slot with contents := (access method slot.contents).2 } := by
        simpa using hslot'.symm
      subst heq
      exact ⟨hown.1, hown.2.access method⟩
    · exact h.own i slot' (by simpa [Function.update_of_ne hi] using hslot')

/-- A helper call succeeds from every well state in which the slots it takes are filled. -/
def Constructs (decl : Declaration n V E C) (order : List (Fin n)) (filled : Fin n → Bool)
    (j : Fin n) (helper : Slots n V C → Except (Stuck n) (V × Slots n V C)) : Prop :=
  ∀ slots, Well decl filled slots →
    (∀ k ∈ arguments j (transitive decl.dependencies order), filled k = true) →
    ∃ value slots', helper slots = .ok (value, slots') ∧ Well decl filled slots'

/-- Evaluating a replacement whose slots are usable yields a reply and keeps the slots well. -/
theorem evaluate_ok {filled : Fin n → Bool} {context : List (Fin n)} {building unchecked : Bool}
    {index : Fin n} {method : Method} {replacement : Replacement n}
    {helper : Fin n → Slots n V C → Except (Stuck n) (V × Slots n V C)}
    (hreplacement : replacements decl.registrations (transitive decl.dependencies order)
      building unchecked index method = some replacement)
    (husable : ∀ s ∈ replacement.slots, Usable filled context s)
    (hhelper : (decl.registrations index).constructor = true →
      Constructs decl order filled index (helper index))
    {slots : Slots n V C} (hwell : Well decl filled slots) :
    ∃ reply slots', evaluate helper context slots replacement = .ok (reply, slots') ∧
      Well decl filled slots' := by
  rcases replacement_slots hreplacement with ⟨rfl, -⟩ | ⟨hconstructor, hcall⟩
  · have howner : Usable filled context (Wiring.slot building index) :=
      husable _ (by simp [Replacement.slots])
    rcases locate_ok hwell howner with ⟨i, slot, hlocate, hslot⟩
    refine ⟨(access method slot.contents).1, _, ?_, hwell.update hslot method⟩
    simp [evaluate, hlocate]
  · -- Both call forms evaluate their arguments and then run the helper.
    have hslots : replacement.slots =
        (arguments index (transitive decl.dependencies order)).map (slot building) := by
      rcases hcall with rfl | rfl <;> rfl
    have heval : evaluate helper context slots replacement =
        evaluate.call helper context slots index
          ((arguments index (transitive decl.dependencies order)).map (slot building)) := by
      rcases hcall with rfl | rfl <;> rfl
    have hfilled : ∀ k ∈ arguments index (transitive decl.dependencies order),
        filled k = true := by
      intro k hk
      have hmem : slot building k ∈ replacement.slots := by
        rw [hslots]
        exact List.mem_map_of_mem hk
      have hk' := husable _ hmem
      cases building with
      | true => exact hk'
      | false => exact hk'.1
    rcases hhelper hconstructor slots hwell hfilled with ⟨value, slots', hcall', hwell'⟩
    refine ⟨.ok value, slots', ?_, hwell'⟩
    rw [heval]
    simp only [evaluate.call, locateAll_ok hwell (hslots ▸ husable), hcall']

/-- A method that is available for a target is replaced for every dependency family, while
building and inside constructors. -/
theorem replacements_isSome {registrations : Fin n → Registration} {unchecked : Bool}
    {index : Fin n} {method : Method}
    (h : (replacements registrations (fun _ => ∅) true unchecked index method).isSome)
    (dependencies : Dependencies n) (building : Bool) :
    ∃ replacement,
      replacements registrations dependencies building unchecked index method =
        some replacement := by
  rw [← Option.isSome_iff_exists]
  unfold replacements at h ⊢
  cases hconstructor : (registrations index).constructor with
  | false => cases method <;> simp_all
  | true =>
      cases method <;> simp_all
      -- `try_resolve` of a constructor: both forms of the call are replacements.
      cases (registrations index).fallible <;> rfl

/-- Running user code all of whose queries evaluate. -/
theorem run_ok {filled : Fin n → Bool} {recorded : Finset (Fin n)} {R : Type}
    {helper : Fin n → Slots n V C → Except (Stuck n) (V × Slots n V C)}
    {replace : Fin n → Method → Option (Replacement n)} {context : List (Fin n)}
    (hquery : ∀ q : Query decl.registrations decl.unchecked recorded, ∀ slots,
      Well decl filled slots → ∃ replacement reply slots',
        replace q.target q.method = some replacement ∧
          evaluate helper context slots replacement = .ok (reply, slots') ∧
          Well decl filled slots')
    (behaviour : Behaviour (Query decl.registrations decl.unchecked recorded) V R) :
    ∀ slots, Well decl filled slots →
      ∃ result slots', run helper replace context behaviour slots = .ok (result, slots') ∧
        Well decl filled slots' := by
  induction behaviour with
  | done result =>
      intro slots hwell
      exact ⟨result, slots, rfl, hwell⟩
  | query q next ih =>
      intro slots hwell
      rcases hquery q slots hwell with ⟨replacement, reply, slots', hreplace, heval, hwell'⟩
      rcases ih reply slots' hwell' with ⟨result, slots'', hrun, hwell''⟩
      refine ⟨result, slots'', ?_, hwell''⟩
      simpa only [run, hreplace, heval] using hrun

/-! ## Constructors and initializers run -/

/-- A helper call returns whenever the slots it takes are filled.  The chain of helpers is
bounded by the position of the constructor in the order. -/
theorem construct_ok (hfirst : DependencyFirst decl.dependencies order)
    (filled : Fin n → Bool) (depth : Nat) (index : Fin n)
    (hdepth : order.idxOf index < depth)
    (hconstructor : (decl.registrations index).constructor = true) :
    Constructs decl order filled index (construct decl order depth index) := by
  induction depth generalizing index with
  | zero => omega
  | succ depth ih =>
      intro slots hwell hfilled
      rcases hwell.factory (hfilled index (by simp [arguments])) hconstructor with
        ⟨slot, hslot, hcontents⟩
      -- Every query of the body names fields of the context, all of which are filled.
      have hquery : ∀ q : Query decl.registrations decl.unchecked (decl.dependencies index),
          ∀ slots, Well decl filled slots → ∃ replacement reply slots',
            replacements decl.registrations (transitive decl.dependencies order) false
                decl.unchecked q.target q.method = some replacement ∧
              evaluate (construct decl order depth)
                  (contextArguments decl.registrations (transitive decl.dependencies order) index)
                  slots replacement = .ok (reply, slots') ∧
              Well decl filled slots' := by
        intro q slots hwell
        rcases replacements_isSome q.available (transitive decl.dependencies order) false with
          ⟨replacement, hreplacement⟩
        have husable : ∀ s ∈ replacement.slots, Usable filled
            (contextArguments decl.registrations (transitive decl.dependencies order) index)
            s := by
          intro s hs
          rcases context_closed hfirst q.mem hreplacement s hs with ⟨k, rfl, hk⟩
          exact ⟨hfilled k (List.mem_of_mem_filter hk), hk⟩
        have hlt : order.idxOf q.target < depth := by
          have := hfirst.idxOf_lt q.mem
          omega
        rcases evaluate_ok hreplacement husable (fun hc => ih q.target hlt hc) hwell with
          ⟨reply, slots', heval, hwell'⟩
        exact ⟨replacement, reply, slots', hreplacement, heval, hwell'⟩
      rcases run_ok hquery (decl.constructor index (decl.captures index)) slots hwell with
        ⟨value, slots', hrun, hwell'⟩
      refine ⟨value, slots', ?_, hwell'⟩
      rcases slot with ⟨registration, contents⟩
      have hcontents' : contents = .factory (decl.captures index) := hcontents
      subst hcontents'
      simp only [construct, hslot]
      exact hrun

/-- The expression of a stored value returns whenever its dependencies are filled and the
filled set is closed under dependencies. -/
theorem value_ok (hfirst : DependencyFirst decl.dependencies order) {filled : Fin n → Bool}
    (i : Fin n) (hfilled : ∀ j, Reaches decl.dependencies i j → filled j = true)
    {slots : Slots n V C} (hwell : Well decl filled slots) :
    ∃ result slots',
      run (construct decl order n)
          (replacements decl.registrations (transitive decl.dependencies order) true
            decl.unchecked) [] (decl.value i) slots = .ok (result, slots') ∧
        Well decl filled slots' := by
  refine run_ok ?_ (decl.value i) slots hwell
  intro q slots hwell
  rcases replacements_isSome q.available (transitive decl.dependencies order) true with
    ⟨replacement, hreplacement⟩
  have harguments : ∀ k ∈ arguments q.target (transitive decl.dependencies order),
      filled k = true := by
    intro k hk
    rcases (mem_arguments hfirst).1 hk with rfl | hk
    · exact hfilled _ (Reaches.of_edge q.mem)
    · exact hfilled k ((Reaches.of_edge q.mem).trans hk)
  have husable : ∀ s ∈ replacement.slots, Usable filled [] s := by
    intro s hs
    rcases replacement_slots hreplacement with ⟨rfl, -⟩ | ⟨-, rfl | rfl⟩
    · have hs' : s = .unwrapped q.target := by simpa [Replacement.slots, slot] using hs
      subst hs'
      exact hfilled _ (Reaches.of_edge q.mem)
    · rcases List.mem_map.1 hs with ⟨k, hk, rfl⟩
      exact harguments k hk
    · rcases List.mem_map.1 hs with ⟨k, hk, rfl⟩
      exact harguments k hk
  have hlt : order.idxOf q.target < n := by
    have hperm : order.length ≤ n := by
      have hsub : order.Subperm (List.finRange n) :=
        List.subperm_of_subset hfirst.nodup fun i _ => List.mem_finRange i
      simpa using hsub.length_le
    exact lt_of_lt_of_le (List.idxOf_lt_length_of_mem (hfirst.complete _)) hperm
  rcases evaluate_ok hreplacement husable
      (fun hc => construct_ok hfirst filled n q.target hlt hc) hwell with
    ⟨reply, slots', heval, hwell'⟩
  exact ⟨replacement, reply, slots', hreplacement, heval, hwell'⟩

/-! ## Progress of the build closure -/

/-- No initializer has failed: the processed prefix is filled and the owners of the remaining
constructors are still held. -/
structure Running (decl : Declaration n V E C) (front : List (Fin n))
    (state : State n V E C) : Prop where
  error : state.error = none
  well : Well decl (fun i => decide (i ∈ front)) state.slots
  owners : ∀ i, state.owners i =
    if (decl.registrations i).constructor ∧ i ∉ front then some (decl.captures i) else none
  ran : state.ran = front.map fun i => (i, none)
  dropped : state.dropped = []

/-- Initializer `k` failed with `e` after those of `done`; the owners of the constructors in
`rest`, which were skipped, have been dropped. -/
structure Failed (decl : Declaration n V E C) (done : List (Fin n)) (k : Fin n)
    (rest : List (Fin n)) (e : E) (state : State n V E C) : Prop where
  error : state.error = some e
  well : Well decl (fun i => decide (i ∈ done)) state.slots
  owners : ∀ i, state.owners i =
    if (decl.registrations i).constructor ∧ i ∉ done ++ k :: rest then some (decl.captures i)
    else none
  ran : state.ran = (done.map fun i => (i, none)) ++ [(k, some e)]
  dropped : state.dropped = rest.filter fun i => (decl.registrations i).constructor
  failing : (decl.registrations k).constructor = false

theorem running_initial (decl : Declaration n V E C) : Running decl [] (initial decl) where
  error := rfl
  well := ⟨by simp [initial], by simp [initial]⟩
  owners := by simp [initial]
  ran := rfl
  dropped := rfl

/-- Binding one more slot. -/
theorem Well.bind {front : List (Fin n)} {slots : Slots n V C} {i : Fin n}
    (h : Well decl (fun j => decide (j ∈ front)) slots) {contents : Contents V C}
    (hmatches : Matches decl i contents) :
    Well decl (fun j => decide (j ∈ front ++ [i]))
      (Function.update slots i (some ⟨i, contents⟩)) where
  isSome := by
    intro j
    by_cases hj : j = i
    · subst hj
      simp
    · simpa [Function.update_of_ne hj, hj] using h.isSome j
  own := by
    intro j slot hslot
    by_cases hj : j = i
    · subst hj
      have heq : slot = ⟨j, contents⟩ := by simpa using hslot.symm
      subst heq
      exact ⟨rfl, hmatches⟩
    · exact h.own j slot (by simpa [Function.update_of_ne hj] using hslot)

/-- Leaving a slot that was not bound unbound. -/
theorem Well.skip {front : List (Fin n)} {slots : Slots n V C} {i : Fin n}
    (h : Well decl (fun j => decide (j ∈ front)) slots) (hi : i ∉ front) :
    Well decl (fun j => decide (j ∈ front)) (Function.update slots i none) := by
  have hnone : slots i = none := by
    have := h.isSome i
    simpa [hi] using this
  have hsame : Function.update slots i none = slots :=
    Function.update_eq_self_iff.2 hnone.symm
  rw [hsame]
  exact h

/-- The owners after the turn of `i`, whether its captures were moved, dropped or absent. -/
theorem owners_update {front : List (Fin n)} {owners : Fin n → Option C} {i : Fin n}
    (h : ∀ j, owners j =
      if (decl.registrations j).constructor ∧ j ∉ front then some (decl.captures j) else none) :
    ∀ j, (if (decl.registrations i).constructor then Function.update owners i none
        else owners) j =
      if (decl.registrations j).constructor ∧ j ∉ front ++ [i] then some (decl.captures j)
      else none := by
  intro j
  by_cases hj : j = i
  · subst hj
    cases hc : (decl.registrations j).constructor <;> simp [hc, h j]
  · cases hc : (decl.registrations i).constructor <;> simp [hj, h j]

/-- The statement of `i` once its initializer has returned. -/
theorem step_of_initialized {state : State n V E C} {i : Fin n}
    {result : Except E (Slot n V C)} {slots : Slots n V C} (herror : state.error = none)
    (hinit : initializeOnce decl order state i = .ok (result, slots)) :
    step decl order state i = .ok
      { slots := Function.update slots i (split result).1
        owners :=
          if (decl.registrations i).constructor then Function.update state.owners i none
          else state.owners
        error := (split result).2
        ran := state.ran ++ [(i, (split result).2)]
        dropped := state.dropped } := by
  simp [step, herror, hinit]

/-- A returned slot grows the filled prefix. -/
theorem Running.step_ok {front : List (Fin n)} {state : State n V E C} {i : Fin n}
    {contents : Contents V C} {slots : Slots n V C} (h : Running decl front state)
    (hinit : initializeOnce decl order state i = .ok (.ok ⟨i, contents⟩, slots))
    (hwell : Well decl (fun j => decide (j ∈ front)) slots)
    (hmatches : Matches decl i contents) :
    ∃ state', step decl order state i = .ok state' ∧ Running decl (front ++ [i]) state' := by
  refine ⟨_, step_of_initialized h.error hinit, rfl, hwell.bind hmatches,
    owners_update h.owners, ?_, h.dropped⟩
  simp [h.ran, split]

/-- The turn of an initializer when none has failed: it runs, and either the prefix grows or
this one is the failing one. -/
theorem Running.step (hfirst : DependencyFirst decl.dependencies order)
    {front back : List (Fin n)} {i : Fin n} (horder : order = front ++ i :: back)
    {state : State n V E C} (h : Running decl front state) :
    ∃ state', step decl order state i = .ok state' ∧
      (Running decl (front ++ [i]) state' ∨ ∃ e, Failed decl front i [] e state') := by
  have hi : i ∉ front := by
    have hnodup := hfirst.nodup
    rw [horder] at hnodup
    exact fun hmem => List.disjoint_of_nodup_append hnodup hmem (by simp)
  cases hkind : decl.registrations i with
  | factory fallible native =>
      have howner : state.owners i = some (decl.captures i) := by
        simp [h.owners i, hkind, Registration.constructor, hi]
      have hinit : initializeOnce decl order state i =
          .ok (.ok ⟨i, .factory (decl.captures i)⟩, state.slots) := by
        simp [initializeOnce, hkind, howner]
      rcases h.step_ok hinit h.well (by simp [Matches, hkind]) with ⟨state', hstep, h'⟩
      exact ⟨state', hstep, Or.inl h'⟩
  | fresh =>
      have hinit : initializeOnce decl order state i =
          .ok (.ok ⟨i, .fresh (decl.fresh i)⟩, state.slots) := by
        simp [initializeOnce, hkind]
      rcases h.step_ok hinit h.well (by simp [Matches, hkind]) with ⟨state', hstep, h'⟩
      exact ⟨state', hstep, Or.inl h'⟩
  | value =>
      -- Everything the expression can reach stands before it in the order.
      have hfilled : ∀ j, Reaches decl.dependencies i j → decide (j ∈ front) = true := by
        intro j hj
        have hlt : order.idxOf j < order.idxOf i := hfirst.idxOf_lt_of_reaches hj
        have hidx : order.idxOf i = front.length := by
          rw [horder, List.idxOf_append_of_notMem hi]
          simp
        by_contra hnot
        have hnot' : j ∉ front := by simpa using hnot
        rw [hidx, horder, List.idxOf_append_of_notMem hnot'] at hlt
        omega
      rcases value_ok hfirst i hfilled h.well with ⟨result, slots, hrun, hwell⟩
      cases result with
      | ok value =>
          have hinit : initializeOnce decl order state i =
              .ok (.ok ⟨i, store (decl.storage i) value⟩, slots) := by
            simp [initializeOnce, hkind, hrun]
          rcases h.step_ok hinit hwell (matches_store hkind value) with ⟨state', hstep, h'⟩
          exact ⟨state', hstep, Or.inl h'⟩
      | error e =>
          have hinit : initializeOnce decl order state i = .ok (.error e, slots) := by
            simp [initializeOnce, hkind, hrun]
          refine ⟨_, step_of_initialized h.error hinit, Or.inr ⟨e, rfl, hwell.skip hi,
            owners_update h.owners, ?_, ?_, ?_⟩⟩
          · simp [h.ran, split]
          · simp [h.dropped]
          · simp [hkind, Registration.constructor]

/-- The turn of an initializer after a failure: nothing runs, and a constructor's captures are
dropped. -/
theorem Failed.step (hnodup : order.Nodup) {done rest back : List (Fin n)} {k i : Fin n} {e : E}
    (horder : order = (done ++ k :: rest) ++ i :: back) {state : State n V E C}
    (h : Failed decl done k rest e state) :
    ∃ state', step decl order state i = .ok state' ∧
      Failed decl done k (rest ++ [i]) e state' := by
  rw [horder] at hnodup
  have hi : i ∉ done ++ k :: rest :=
    fun hmem => List.disjoint_of_nodup_append hnodup hmem (by simp)
  have hdone : i ∉ done := fun hmem => hi (List.mem_append_left _ hmem)
  have howners := owners_update (i := i) h.owners
  have happend : done ++ k :: (rest ++ [i]) = (done ++ k :: rest) ++ [i] := by simp
  cases hc : (decl.registrations i).constructor with
  | true =>
      have howner : state.owners i = some (decl.captures i) := by
        rw [h.owners i, if_pos ⟨hc, hi⟩]
      have hstep : Build.step decl order state i = .ok
          { slots := Function.update state.slots i none
            owners := Function.update state.owners i none
            error := some e
            ran := state.ran
            dropped := state.dropped ++ [i] } := by
        simp [Build.step, h.error, hc, discardOwner, howner]
      refine ⟨_, hstep, rfl, h.well.skip hdone, ?_, h.ran, ?_, h.failing⟩
      · simpa only [hc, if_true, happend] using howners
      · simp [h.dropped, List.filter_append, hc]
  | false =>
      have hstep : Build.step decl order state i = .ok
          { state with slots := Function.update state.slots i none, error := some e } := by
        simp [Build.step, h.error, hc]
      refine ⟨_, hstep, rfl, h.well.skip hdone, ?_, h.ran, ?_, h.failing⟩
      · simpa only [hc, Bool.false_eq_true, if_false, happend] using howners
      · simp [h.dropped, List.filter_append, hc]

theorem Failed.steps (hnodup : order.Nodup) {done : List (Fin n)} {k : Fin n} {e : E} :
    ∀ (back rest : List (Fin n)) (state : State n V E C),
      order = (done ++ k :: rest) ++ back → Failed decl done k rest e state →
      ∃ state', steps decl order back state = .ok state' ∧
        Failed decl done k (rest ++ back) e state' := by
  intro back
  induction back with
  | nil =>
      intro rest state _ h
      exact ⟨state, rfl, by simpa using h⟩
  | cons i back ih =>
      intro rest state horder h
      rcases h.step hnodup horder with ⟨state', hstep, h'⟩
      rcases ih (rest ++ [i]) state' (by simp [horder]) h' with ⟨state'', hsteps, h''⟩
      refine ⟨state'', ?_, by simpa using h''⟩
      simpa only [Build.steps, hstep] using hsteps

/-- Every run of the initialization statements ends, with all slots bound or after exactly one
failure. -/
theorem Running.steps (hfirst : DependencyFirst decl.dependencies order) :
    ∀ (back front : List (Fin n)) (state : State n V E C), order = front ++ back →
      Running decl front state →
      ∃ state', steps decl order back state = .ok state' ∧
        (Running decl order state' ∨
          ∃ done k rest e, order = done ++ k :: rest ∧ Failed decl done k rest e state') := by
  intro back
  induction back with
  | nil =>
      intro front state horder h
      refine ⟨state, rfl, Or.inl ?_⟩
      have hfront : order = front := by simpa using horder
      exact hfront ▸ h
  | cons i back ih =>
      intro front state horder h
      rcases h.step hfirst horder with ⟨state', hstep, h' | ⟨e, hfailed⟩⟩
      · rcases ih (front ++ [i]) state' (by simp [horder]) h' with ⟨state'', hsteps, h''⟩
        refine ⟨state'', ?_, h''⟩
        simpa only [Build.steps, hstep] using hsteps
      · rcases hfailed.steps hfirst.nodup back [] state' (by simp [horder]) with
          ⟨state'', hsteps, h''⟩
        refine ⟨state'', ?_, Or.inr ⟨front, i, back, e, horder, by simpa using h''⟩⟩
        simpa only [Build.steps, hstep] using hsteps

/-! ## Dropping the captures -/

/-- Discarding a bound slot drops the captures of a constructor and nothing else. -/
theorem dropSlot_eq {done : List (Fin n)} {slots : Slots n V C}
    (h : Well decl (fun i => decide (i ∈ done)) slots) (i : Fin n) :
    dropSlot (slots i) =
      if decide (i ∈ done) && (decl.registrations i).constructor then [i] else [] := by
  cases hslot : slots i with
  | none =>
      have hnot : decide (i ∈ done) = false := by
        rw [← h.isSome i, hslot]
        rfl
      simp [dropSlot, hnot]
  | some slot =>
      have hmem : decide (i ∈ done) = true := by
        rw [← h.isSome i, hslot]
        rfl
      rcases h.own i slot hslot with ⟨rfl, hmatches⟩
      rcases slot with ⟨i, contents⟩
      unfold Matches at hmatches
      cases hkind : decl.registrations i with
      | factory fallible native =>
          simp only [hkind] at hmatches
          have hmem' : i ∈ done := by simpa using hmem
          simp [dropSlot, hmatches, hmem', Registration.constructor]
      | fresh =>
          simp only [hkind] at hmatches
          simp [dropSlot, hmatches, Registration.constructor]
      | value =>
          simp only [hkind] at hmatches
          cases hstorage : decl.storage i <;> simp only [hstorage] at hmatches <;>
            rcases hmatches with ⟨value, rfl⟩ <;> simp [dropSlot, Registration.constructor]

/-- The reverse discard list drops the captures of the bound constructors. -/
theorem flatMap_dropSlot {done : List (Fin n)} {slots : Slots n V C}
    (h : Well decl (fun i => decide (i ∈ done)) slots) (indices : List (Fin n)) :
    (indices.flatMap fun i => dropSlot (slots i)) =
      indices.filter fun i => decide (i ∈ done) && (decl.registrations i).constructor := by
  induction indices with
  | nil => rfl
  | cons i indices ih =>
      rw [List.flatMap_cons, dropSlot_eq h i, ih, List.filter_cons]
      cases decide (i ∈ done) && (decl.registrations i).constructor <;> simp

/-- After a failure every constructor's captures are dropped exactly once: with its slot if it
was bound, by the skipped statement otherwise. -/
theorem Failed.dropped_count (hfirst : DependencyFirst decl.dependencies order)
    {done rest : List (Fin n)} {k : Fin n} {e : E} {state : State n V E C}
    (horder : order = done ++ k :: rest) (h : Failed decl done k rest e state) {j : Fin n}
    (hj : (decl.registrations j).constructor = true) :
    (state.dropped ++ order.reverse.flatMap fun i => dropSlot (state.slots i)).count j = 1 := by
  have hk : j ≠ k := by
    rintro rfl
    simp [h.failing] at hj
  have hcount : order.count j = 1 :=
    List.count_eq_one_of_mem hfirst.nodup (hfirst.complete j)
  have hnodup := hfirst.nodup
  rw [horder] at hnodup
  rw [h.dropped, flatMap_dropSlot h.well, List.count_append, List.filter_reverse,
    List.count_reverse]
  by_cases hdone : j ∈ done
  · -- bound before the failure
    have hrest : j ∉ rest := fun hmem =>
      List.disjoint_of_nodup_append hnodup hdone (List.mem_cons_of_mem k hmem)
    have hzero : (rest.filter fun i => (decl.registrations i).constructor).count j = 0 :=
      List.count_eq_zero.2 fun hmem => hrest (List.mem_of_mem_filter hmem)
    rw [hzero, List.count_filter (by simp [hdone, hj]), hcount]
  · -- skipped after the failure
    have hrest : j ∈ rest := by
      have hmem := hfirst.complete j
      rw [horder] at hmem
      simpa [hdone, hk] using hmem
    have hnodupRest : rest.Nodup := (List.nodup_cons.1 (List.nodup_append.1 hnodup).2.1).2
    have hzero : (order.filter fun i =>
        decide (i ∈ done) && (decl.registrations i).constructor).count j = 0 :=
      List.count_eq_zero.2 fun hmem => by simp [hdone] at hmem
    have hone : (rest.filter fun i => (decl.registrations i).constructor).count j = 1 := by
      refine List.count_eq_one_of_mem (hnodupRest.filter _) ?_
      exact List.mem_filter.2 ⟨hrest, hj⟩
    rw [hzero, hone]

/-! ## The whole build -/

/-- A declaration whose dependencies were scheduled is never stuck. -/
theorem build_returns (decl : Declaration n V E C) (h : schedule decl.dependencies = .ok order) :
    ∃ report, build decl order = .ok report := by
  have hfirst := dependencyFirst_of_schedule_ok h
  rcases Running.steps hfirst order [] (initial decl) rfl (running_initial decl) with
    ⟨state, hsteps, hrunning | ⟨_, _, _, error, _, hfailed⟩⟩
  · have hbound : ∀ i, (state.slots i).isSome := by
      intro i
      rw [hrunning.well.isSome i]
      simpa using hfirst.complete i
    simp [build, hsteps, finish, hrunning.error, hbound]
  · simp [build, hsteps, finish, hfailed.error]

/-- Whatever the user's code does, the build closure returns.  Its initializers run in the order
of the schedule, each at most once and none after a failing one.  What they compute, run one after
the other on the registrations initialized before them, is what the build returns: the trace of
their errors, the contents of the fields, the error.  Without a failure the container holds every
registration's own slot and nothing is dropped; if an initializer fails, exactly its error is
returned and the captures of every constructor are dropped, once. -/
theorem build_all_or_nothing (decl : Declaration n V E C) (order : List (Fin n))
    (h : schedule decl.dependencies = .ok order) :
    ∃ report, build decl order = .ok report ∧
      report.ran.map Prod.fst <+: order ∧
      (report.ran.map Prod.fst).Nodup ∧
      (∀ ran result, decl.Initializes order (fun _ => none) ran result ↔
        ran = report.ran ∧ result = report.result.meaning) ∧
      (∀ before i e after, report.ran = before ++ (i, some e) :: after → after = []) ∧
      ((∀ i e, (i, some e) ∉ report.ran) →
        report.ran.map Prod.fst = order ∧ report.dropped = [] ∧
        ∃ fields, report.result = .ok fields ∧
          ∀ i, (fields i).registration = i ∧ Matches decl i (fields i).contents) ∧
      ∀ i e, (i, some e) ∈ report.ran →
        report.result = .err e ∧
        ∀ j, (decl.registrations j).constructor = true → report.dropped.count j = 1 := by
  have hfirst := dependencyFirst_of_schedule_ok h
  rcases Running.steps hfirst order [] (initial decl) rfl (running_initial decl) with
    ⟨state, hsteps, hrunning | ⟨done, k, rest, e, horder, hfailed⟩⟩
  · have hsome : ∀ i, (state.slots i).isSome = true := by
      intro i
      rw [hrunning.well.isSome i]
      simpa using hfirst.complete i
    have hran : state.ran.map Prod.fst = order := by
      rw [hrunning.ran]
      simp [Function.comp_def]
    have hnone : ∀ i e, (i, some e) ∉ state.ran := by
      intro i e hmem
      rw [hrunning.ran] at hmem
      simp at hmem
    have hbuild : build decl order = .ok
        { result := .ok fun i => (state.slots i).get (hsome i)
          ran := state.ran
          dropped := state.dropped } := by
      simp only [build, hsteps, finish, hrunning.error, dif_pos hsome]
    refine ⟨_, hbuild, ?_, ?_, build_initializes hbuild, ?_, ?_, ?_⟩
    · exact hran ▸ List.prefix_refl _
    · exact hran ▸ hfirst.nodup
    · intro before i e after heq
      have hmem : (i, some e) ∈ state.ran := by
        have heq' : state.ran = before ++ (i, some e) :: after := heq
        simp [heq']
      exact absurd hmem (hnone i e)
    · intro _
      refine ⟨hran, hrunning.dropped, _, rfl, ?_⟩
      intro i
      exact hrunning.well.own i _ (Option.some_get (hsome i)).symm
    · intro i e hmem
      exact absurd hmem (hnone i e)
  · have hran : state.ran.map Prod.fst = done ++ [k] := by
      rw [hfailed.ran]
      simp [Function.comp_def]
    have hmem : ∀ i e', (i, some e') ∈ state.ran → e' = e := by
      intro i e' hmem
      rw [hfailed.ran] at hmem
      have : i = k ∧ e' = e := by simpa using hmem
      exact this.2
    have hbuild : build decl order = .ok
        { result := .err e
          ran := state.ran
          dropped := state.dropped ++ order.reverse.flatMap fun i => dropSlot (state.slots i) } := by
      simp only [build, hsteps, finish, hfailed.error]
    refine ⟨_, hbuild, ?_, ?_, build_initializes hbuild, ?_, ?_, ?_⟩
    · exact ⟨rest, by simp [hran, horder]⟩
    · have hnodup := hfirst.nodup
      have hsplit : order = (done ++ [k]) ++ rest := by simp [horder]
      rw [hsplit] at hnodup
      exact hran ▸ (List.nodup_append.1 hnodup).1
    · intro before i e' after heq
      -- The only failing entry of the trace is its last one.
      have heq' : (done.map fun i => (i, none)) ++ [(k, some e)] =
          before ++ (i, some e') :: after := hfailed.ran ▸ heq
      rcases List.eq_nil_or_concat' after with rfl | ⟨front, last, rfl⟩
      · rfl
      · have hinit : (done.map fun i => (i, (none : Option E))) =
            before ++ (i, some e') :: front := by
          have hcut : before ++ (i, some e') :: (front ++ [last]) =
              (before ++ (i, some e') :: front) ++ [last] := by simp
          exact (List.append_inj' (heq'.trans hcut) rfl).1
        have hbad : (i, some e') ∈ done.map fun i => (i, (none : Option E)) := by
          rw [hinit]
          simp
        simp at hbad
    · intro hnone
      have hlast : (k, some e) ∈ state.ran := by simp [hfailed.ran]
      exact absurd hlast (hnone k e)
    · intro i e' hfail
      refine ⟨by rw [hmem i e' hfail], ?_⟩
      intro j hj
      exact hfailed.dropped_count hfirst horder hj

/-- A stored value, a constructor that takes it, and a value that calls the constructor and then
fails. -/
def rejected : Declaration 3 Nat String Unit where
  registrations := fun i => if i = 1 then .factory false false else .value
  unchecked := false
  dependencies := fun i => if i = 1 then {0} else if i = 2 then {1} else ∅
  storage := fun _ => .take
  value := fun i =>
    match i with
    | 0 => .done (.ok 7)
    | 1 => .done (.ok 0)
    | 2 => .query ⟨1, by decide, .resolve, by decide⟩ fun _ => .done (.error "rejected")
  constructor := fun i _ =>
    match i with
    | 1 => .query ⟨0, by decide, .tryResolve, by decide⟩ fun reply =>
        match reply with
        | .ok value => .done value
        | .error _ => .done 0
    | _ => .done 0
  captures := fun _ => ()
  fresh := fun _ => 0

theorem build_all_or_nothing_rejected :
    schedule rejected.dependencies = .ok [0, 1, 2] ∧
      ∃ report, build rejected [0, 1, 2] = .ok report ∧
        report.ran = [(0, none), (1, none), (2, some "rejected")] ∧
        (2, some "rejected") ∈ report.ran ∧ report.result = .err "rejected" ∧
        report.dropped.count 1 = 1 := by
  have hok : schedule rejected.dependencies = .ok [0, 1, 2] := by decide +kernel
  rcases build_all_or_nothing rejected [0, 1, 2] hok with
    ⟨report, hbuild, -, -, hmeans, -, -, hfail⟩
  -- The third initializer takes the value out of the first through the constructor, and fails.
  have hinitializes : rejected.Initializes [0, 1, 2] (fun _ => none)
      [(0, none), (1, none), (2, some "rejected")] (.error "rejected") :=
    .value rfl (.done _ _) (.factory rfl (.failed rfl
      (.query (.construct rfl rfl (.query (.access rfl rfl) (.done _ _))) (.done _ _))))
  have hran := ((hmeans _ _).1 hinitializes).1
  have hmem : (2, some "rejected") ∈ report.ran := by simp [← hran]
  exact ⟨hok, report, hbuild, hran.symm, hmem, (hfail 2 _ hmem).1, (hfail 2 _ hmem).2 1 rfl⟩

end Build
end Systasis
