import Systasis.Build.AllOrNothing
import Systasis.Lib.Program

/-!
# Runtime — the resolvers of a built container

Model of the resolver methods `expand_inner` implements on the container, and of the constructor
helpers behind them, as programs that access one slot after the other.  Alone, such a program does
what the helper of the build closure does; unlike that helper it can be interleaved with others.
-/

namespace Systasis
namespace Build

open Systasis.Graph Wiring Lib

variable {n : Nat} {V E C : Type} {decl : Declaration n V E C} {order : List (Fin n)}

/-! ## The container -/

/-- A container is its slots by field. -/
abbrev Container (n : Nat) (V C : Type) : Type := Fin n → Slot n V C

/-- The container as the slots a helper takes. -/
def Container.slots (container : Container n V C) : Slots n V C :=
  fun i => some (container i)

/-- One query method on one slot. -/
abbrev Ask (n : Nat) : Type := Fin n × Method

/-- A slot answers a query method. -/
def serve (q : Ask n) (container : Container n V C) : Except AccessError V × Container n V C :=
  let slot := container q.1
  let answer := access q.2 slot.contents
  (answer.1, Function.update container q.1 { slot with contents := answer.2 })

/-- Code that accesses slots. -/
abbrev Code (n : Nat) (V R : Type) : Type :=
  Program (Ask n) (Except AccessError V) (Except (Stuck n) R)

/-! ## Replaced queries as code -/

/-- The slot an expression names, in a constructor with this context. -/
def reference (context : List (Fin n)) : SlotExpr n → Except (Stuck n) (Fin n)
  | .unwrapped index => .ok index
  | .field index => if index ∈ context then .ok index else .error (.missingField index)

def references (context : List (Fin n)) : List (SlotExpr n) → Except (Stuck n) Unit
  | [] => .ok ()
  | argument :: rest =>
      match reference context argument with
      | .ok _ => references context rest
      | .error stuck => .error stuck

/-- Go on with a value unless the code is stuck. -/
def proceed {R R' : Type} (f : R → Code n V R') : Except (Stuck n) R → Code n V R'
  | .ok result => f result
  | .error stuck => .done (.error stuck)

/-- The code of a replacement, where `helper` is the code of the constructor helpers. -/
def expression (helper : Fin n → Code n V V) (context : List (Fin n)) :
    Replacement n → Code n V (Except AccessError V)
  | .access owner method =>
      match reference context owner with
      | .ok index => .ask (index, method) fun reply => .done (.ok reply)
      | .error stuck => .done (.error stuck)
  | .call index arguments => call index arguments
  | .okCall index arguments => call index arguments
where
  call (index : Fin n) (arguments : List (SlotExpr n)) : Code n V (Except AccessError V) :=
    match references context arguments with
    | .ok () => (helper index).bind (proceed fun value => .done (.ok (.ok value)))
    | .error stuck => .done (.error stuck)

/-- User code with its queries replaced. -/
def body {registrations : Fin n → Registration} {unchecked : Bool} {recorded : Finset (Fin n)}
    {R : Type} (helper : Fin n → Code n V V) (replace : Fin n → Method → Option (Replacement n))
    (context : List (Fin n)) :
    Behaviour (Query registrations unchecked recorded) V R → Code n V R
  | .done result => .done (.ok result)
  | .query q next =>
      match replace q.target q.method with
      | none => .done (.error (.unavailable q.target))
      | some replacement =>
          (expression helper context replacement).bind
            (proceed fun reply => body helper replace context (next reply))

/-- The helper `__systasis_construct_index`. -/
def helper (decl : Declaration n V E C) (order : List (Fin n)) : Nat → Fin n → Code n V V
  | 0, _ => .done (.error .recursion)
  | depth + 1, index =>
      if (decl.registrations index).constructor then
        let all := transitive decl.dependencies order
        body (helper decl order depth) (replacements decl.registrations all false decl.unchecked)
          (contextArguments decl.registrations all index)
          (decl.constructor index (decl.captures index))
      else .done (.error (.notAFactory index))

/-! ## Resolvers -/

/-- A resolver method of the container: a query method of a slot, or a constructor. -/
inductive Resolver (registrations : Fin n → Registration) where
  | slot (index : Fin n) (method : Method) (stored : (registrations index).constructor = false)
  | constructor (index : Fin n) (constructor : (registrations index).constructor = true)

/-- The body of a resolver: a method call on its field, or a call of its helper with the fields it
takes. -/
def Resolver.replacement (decl : Declaration n V E C) (order : List (Fin n)) :
    Resolver decl.registrations → Replacement n
  | .slot index method _ => .access (.field index) method
  | .constructor index _ =>
      .okCall index ((arguments index (transitive decl.dependencies order)).map .field)

/-- `pub fn #method(&self)`, called while nobody else uses the container. -/
def Resolver.call (decl : Declaration n V E C) (order : List (Fin n))
    (resolver : Resolver decl.registrations) (slots : Slots n V C) :
    Except (Stuck n) (Except AccessError V × Slots n V C) :=
  evaluate (construct decl order n) (List.finRange n) slots (resolver.replacement decl order)

/-- `pub fn #method(&self)`, one access after the other. -/
def Resolver.code (decl : Declaration n V E C) (order : List (Fin n))
    (resolver : Resolver decl.registrations) : Code n V (Except AccessError V) :=
  expression (helper decl order n) (List.finRange n) (resolver.replacement decl order)

/-- The slots a resolver may access: its own, or all that its constructor reaches. -/
def Resolver.Touches (decl : Declaration n V E C) : Resolver decl.registrations → Fin n → Prop
  | .slot index _ _, j => j = index
  | .constructor index _, j => Reaches decl.dependencies index j

/-! ## Alone, the code is what the build closure runs -/

/-- Every slot holds its own registration's contents, as a successful build leaves them. -/
def Own (decl : Declaration n V E C) (container : Container n V C) : Prop :=
  ∀ i, (container i).registration = i ∧ Matches decl i (container i).contents

/-- A result of code, as a result over the slots of the build closure. -/
def outcome {R : Type} (x : Except (Stuck n) R × Container n V C) :
    Except (Stuck n) (R × Slots n V C) :=
  match x.1 with
  | .ok result => .ok (result, Container.slots x.2)
  | .error stuck => .error stuck

theorem Container.slots_update (container : Container n V C) (i : Fin n) (slot : Slot n V C) :
    Container.slots (Function.update container i slot) =
      Function.update (Container.slots container) i (some slot) := by
  funext j
  by_cases hj : j = i
  · subst hj
    simp [Container.slots]
  · simp [Container.slots, hj]

theorem Own.serve {container : Container n V C} (h : Own decl container) (q : Ask n) :
    Own decl (serve q container).2 := by
  intro i
  by_cases hq : i = q.1
  · subst hq
    simpa [Build.serve] using ⟨(h q.1).1, (h q.1).2.access q.2⟩
  · simpa [Build.serve, hq] using h i

/-- A slot holds captures exactly when its registration is a constructor, and then its own. -/
theorem Own.factory {container : Container n V C} (h : Own decl container) (i : Fin n) :
    ((decl.registrations i).constructor = true →
        (container i).contents = .factory (decl.captures i)) ∧
      ((decl.registrations i).constructor = false →
        ∀ captures, (container i).contents ≠ .factory captures) := by
  have hmatches := (h i).2
  unfold Matches at hmatches
  cases hkind : decl.registrations i with
  | factory fallible native =>
      rw [hkind] at hmatches
      exact ⟨fun _ => hmatches, by simp [Wiring.Registration.constructor]⟩
  | fresh =>
      rw [hkind] at hmatches
      have hmatches' : (container i).contents = .fresh (decl.fresh i) := hmatches
      exact ⟨by simp [Wiring.Registration.constructor], fun _ captures => by simp [hmatches']⟩
  | value =>
      refine ⟨by simp [Wiring.Registration.constructor], fun _ captures => ?_⟩
      rw [hkind] at hmatches
      cases hstorage : decl.storage i <;> simp only [hstorage] at hmatches <;>
        rcases hmatches with ⟨value, heq⟩ <;> simp [heq]

theorem locate_slots (container : Container n V C) (context : List (Fin n)) (s : SlotExpr n) :
    locate context container.slots s =
      match reference context s with
      | .ok index => .ok (index, container index)
      | .error stuck => .error stuck := by
  cases s with
  | unwrapped index => rfl
  | field index =>
      by_cases hindex : index ∈ context <;> simp [locate, reference, Container.slots, hindex]

theorem locateAll_slots (container : Container n V C) (context : List (Fin n))
    (arguments : List (SlotExpr n)) :
    locateAll context container.slots arguments = references context arguments := by
  induction arguments with
  | nil => rfl
  | cons argument rest ih =>
      simp only [locateAll, references, locate_slots, ih]
      cases reference context argument <;> rfl

/-- Code that goes on after other code. -/
theorem outcome_bind {R R' : Type} (p : Code n V R) (f : R → Code n V R')
    (container : Container n V C) :
    outcome ((p.bind (proceed f)).run serve container) =
      match outcome (p.run serve container) with
      | .ok (result, _) => outcome ((f result).run serve (p.run serve container).2)
      | .error stuck => .error stuck := by
  rw [Program.run_bind]
  unfold outcome
  cases (p.run serve container).1 <;> rfl

section Alone

variable {construct : Fin n → Slots n V C → Except (Stuck n) (V × Slots n V C)}
  {helper : Fin n → Code n V V} {context : List (Fin n)}

theorem evaluate_slots {container : Container n V C}
    (hhelper : ∀ i, construct i container.slots = outcome ((helper i).run serve container))
    (replacement : Replacement n) :
    evaluate construct context container.slots replacement =
      outcome ((expression helper context replacement).run serve container) := by
  have hcall : ∀ index arguments,
      evaluate.call construct context container.slots index arguments =
        outcome ((expression.call helper context index arguments).run serve container) := by
    intro index arguments
    simp only [evaluate.call, expression.call, locateAll_slots]
    cases references context arguments with
    | error stuck => rfl
    | ok _ =>
        simp only [hhelper, outcome_bind]
        unfold outcome
        cases ((helper index).run serve container).1 <;> rfl
  cases replacement with
  | call index arguments => exact hcall index arguments
  | okCall index arguments => exact hcall index arguments
  | access owner method =>
      simp only [evaluate, expression, locate_slots]
      cases reference context owner with
      | error stuck => rfl
      | ok index =>
          simp only [Program.run_ask, Program.run_done, outcome, serve, Container.slots_update]

theorem run_slots {registrations : Fin n → Registration} {unchecked : Bool}
    {recorded : Finset (Fin n)} {R : Type} {replace : Fin n → Method → Option (Replacement n)}
    (hhelper : ∀ i container, Own decl container →
      construct i container.slots = outcome ((helper i).run serve container))
    (behaviour : Behaviour (Query registrations unchecked recorded) V R) :
    ∀ container : Container n V C, Own decl container →
      run construct replace context behaviour container.slots =
        outcome ((body helper replace context behaviour).run serve container) := by
  induction behaviour with
  | done result =>
      intro container _
      rfl
  | query q next ih =>
      intro container hown
      simp only [run, body]
      cases replace q.target q.method with
      | none => rfl
      | some replacement =>
          simp only [outcome_bind, evaluate_slots (fun i => hhelper i container hown)]
          have hafter : Own decl
              ((expression helper context replacement).run serve container).2 :=
            Program.run_preserves (fun q _ h => h.serve q) _ hown
          unfold outcome
          cases ((expression helper context replacement).run serve container).1 with
          | error stuck => rfl
          | ok reply => exact ih reply _ hafter

end Alone

/-- On a container the helper of a constructor does what its code does alone. -/
theorem construct_slots (depth : Nat) (i : Fin n) (container : Container n V C)
    (hown : Own decl container) :
    construct decl order depth i container.slots =
      outcome ((helper decl order depth i).run serve container) := by
  induction depth generalizing i container with
  | zero => rfl
  | succ depth ih =>
      have hslot : container.slots i = some (container i) := rfl
      cases hconstructor : (decl.registrations i).constructor with
      | true =>
          have hcontents := (hown.factory i).1 hconstructor
          rcases hself : container i with ⟨registration, contents⟩
          rw [hself] at hslot hcontents
          subst hcontents
          simp only [construct, hslot, helper, hconstructor, if_true]
          exact run_slots (fun i container hown => ih i container hown) _ container hown
      | false =>
          have hcontents := (hown.factory i).2 hconstructor
          rcases hself : container i with ⟨registration, contents⟩
          rw [hself] at hslot hcontents
          simp only [helper, hconstructor, Bool.false_eq_true, if_false]
          cases contents with
          | factory captures => exact absurd rfl (hcontents captures)
          | _ =>
              simp only [construct, hslot]
              rfl

theorem Resolver.call_slots (resolver : Resolver decl.registrations)
    (container : Container n V C) (hown : Own decl container) :
    resolver.call decl order container.slots =
      outcome ((resolver.code decl order).run serve container) :=
  evaluate_slots (fun i => construct_slots n i container hown) _

/-! ## The code of a resolver stays within its reach -/

/-- Code that accesses only slots of stored values and fresh types that `i` reaches, and is never
stuck. -/
def Confined (decl : Declaration n V E C) (i : Fin n) {R : Type} (code : Code n V R) : Prop :=
  code.Within
    (fun q => Reaches decl.dependencies i q.1 ∧ (decl.registrations q.1).constructor = false)
    (fun result => ∃ value, result = .ok value)

theorem Confined.mono {i j : Fin n} {R : Type} {code : Code n V R} (h : Confined decl j code)
    (hreach : ∀ k, Reaches decl.dependencies j k → Reaches decl.dependencies i k) :
    Confined decl i code :=
  Program.Within.mono h (fun q hq => ⟨hreach q.1 hq.1, hq.2⟩) fun _ => id

theorem Confined.proceed {i : Fin n} {R R' : Type} {code : Code n V R} {f : R → Code n V R'}
    (hcode : Confined decl i code) (hf : ∀ result, Confined decl i (f result)) :
    Confined decl i (code.bind (proceed f)) := by
  refine Program.Within.bind hcode ?_
  rintro result ⟨value, rfl⟩
  exact hf value

theorem references_ok {context : List (Fin n)} {arguments : List (SlotExpr n)}
    (h : ∀ s ∈ arguments, ∃ k, s = .field k ∧ k ∈ context) :
    references context arguments = .ok () := by
  induction arguments with
  | nil => rfl
  | cons argument rest ih =>
      rcases h argument (by simp) with ⟨k, rfl, hk⟩
      simp only [references, reference, hk, if_true]
      exact ih fun s hs => h s (List.mem_cons_of_mem _ hs)

/-- The code of a query in a constructor's body stays within what the constructor reaches. -/
theorem expression_confined (hfirst : DependencyFirst decl.dependencies order)
    {helper : Fin n → Code n V V} {i j : Fin n} {method : Method} {replacement : Replacement n}
    (hquery : j ∈ decl.dependencies i)
    (hreplacement : replacements decl.registrations (transitive decl.dependencies order) false
      decl.unchecked j method = some replacement)
    (hhelper : (decl.registrations j).constructor = true → Confined decl j (helper j)) :
    Confined decl i (expression helper
      (contextArguments decl.registrations (transitive decl.dependencies order) i)
      replacement) := by
  have hreach : Reaches decl.dependencies i j := Reaches.of_edge hquery
  have hfields := context_closed hfirst hquery hreplacement
  rcases replacement_slots hreplacement with ⟨rfl, hstored⟩ | ⟨hconstructor, hcall⟩
  · rcases hfields (Wiring.slot false j) (by simp [Replacement.slots]) with ⟨k, hk, hmem⟩
    have hjk : j = k := by simpa [Wiring.slot] using hk
    subst hjk
    simp only [expression, Wiring.slot, Bool.false_eq_true, if_false, reference, hmem, if_true]
    exact ⟨⟨hreach, hstored⟩, fun reply => ⟨reply, rfl⟩⟩
  · have hexpression : expression helper
        (contextArguments decl.registrations (transitive decl.dependencies order) i) replacement =
        (helper j).bind (Build.proceed fun value => .done (.ok (.ok value))) := by
      rcases hcall with rfl | rfl
      all_goals
        have hreferences : references
            (contextArguments decl.registrations (transitive decl.dependencies order) i)
            ((arguments j (transitive decl.dependencies order)).map (Wiring.slot false)) = .ok () :=
          references_ok hfields
        simp only [expression, expression.call, hreferences]
    rw [hexpression]
    refine Confined.proceed ((hhelper hconstructor).mono fun k hk => hreach.trans hk) ?_
    exact fun value => ⟨_, rfl⟩

/-- The code of a constructor's helper is never stuck and stays within what the constructor
reaches, whatever the slots answer. -/
theorem helper_confined (hfirst : DependencyFirst decl.dependencies order) (depth : Nat)
    (i : Fin n) (hdepth : order.idxOf i < depth)
    (hconstructor : (decl.registrations i).constructor = true) :
    Confined decl i (helper decl order depth i) := by
  induction depth generalizing i with
  | zero => omega
  | succ depth ih =>
      simp only [helper, hconstructor, if_true]
      induction decl.constructor i (decl.captures i) with
      | done result => exact ⟨result, rfl⟩
      | query q next ihnext =>
          rcases replacements_isSome q.available (transitive decl.dependencies order) false with
            ⟨replacement, hreplacement⟩
          have hlt : order.idxOf q.target < depth := by
            have hbefore := hfirst.idxOf_lt q.mem
            omega
          simp only [body, hreplacement]
          refine Confined.proceed ?_ ihnext
          exact expression_confined hfirst q.mem hreplacement fun hc => ih q.target hlt hc

theorem idxOf_lt_count (hfirst : DependencyFirst decl.dependencies order) (i : Fin n) :
    order.idxOf i < n := by
  have hsub : order.Subperm (List.finRange n) :=
    List.subperm_of_subset hfirst.nodup fun i _ => List.mem_finRange i
  have hlength : order.length ≤ n := by simpa using hsub.length_le
  exact lt_of_lt_of_le (List.idxOf_lt_length_of_mem (hfirst.complete i)) hlength

/-- A resolver accesses only slots it touches, none of a constructor, and is never stuck. -/
theorem Resolver.within (hfirst : DependencyFirst decl.dependencies order)
    (resolver : Resolver decl.registrations) :
    (resolver.code decl order).Within
      (fun q => resolver.Touches decl q.1 ∧ (decl.registrations q.1).constructor = false)
      (fun result => ∃ reply, result = .ok reply) := by
  cases resolver with
  | slot index method stored =>
      simp only [Resolver.code, Resolver.replacement, expression, reference, List.mem_finRange,
        if_true]
      exact ⟨⟨rfl, stored⟩, fun reply => ⟨reply, rfl⟩⟩
  | constructor index constructor =>
      have hreferences : references (List.finRange n)
          ((arguments index (transitive decl.dependencies order)).map .field) = .ok () := by
        refine references_ok fun s hs => ?_
        rcases List.mem_map.1 hs with ⟨k, -, rfl⟩
        exact ⟨k, rfl, List.mem_finRange k⟩
      have hhelper := helper_confined hfirst n index (idxOf_lt_count hfirst index) constructor
      simp only [Resolver.code, Resolver.replacement, expression, expression.call, hreferences]
      exact Confined.proceed hhelper fun value => ⟨_, rfl⟩

end Build
end Systasis
