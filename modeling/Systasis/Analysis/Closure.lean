import Systasis.Analysis.Rewriting
import Systasis.Build.Generated
import Systasis.Lib.Gather

/-!
# Closure — what a constructor can reach

A local query that is rewritten has its target among the recorded dependencies, and these come
first in the schedule.  From that the three closures taken in schedule order are exact: the slots of
a constructor's context, the slots it can empty, and the child operations it can ask for.
-/

namespace Systasis
namespace Analysis

open Syntax Systasis.Graph Lib

variable {n : Nat}

/-! ## Contexts -/

/-- Capture analysis decides nothing about replacements. -/
theorem replacements_native (registrations : Fin n → Registration) (all : Dependencies n)
    (building unchecked : Bool) (native : Fin n → Bool) (j : Fin n) (method : Wiring.Method) :
    Wiring.replacements (fun k => (registrations k).wiring (native k)) all building unchecked j
        method =
      Wiring.replacements (fun k => (registrations k).wiring false) all building unchecked j
        method := by
  cases hconstructor : (registrations j).constructor.isSome with
  | true =>
      simp [Wiring.replacements, Registration.wiring, hconstructor,
        Wiring.Registration.constructor, Wiring.Registration.fallible]
  | false =>
      simp [Wiring.replacements, Registration.wiring, hconstructor]

section Expanded

variable {children : List ChildRegistration} {unchecked : Bool}
  {registrations : Fin n → Registration} {out : Expansion n}

/-- A query in a constructor that has been rewritten: its target is recorded and the runtime
replacement exists. -/
theorem Expands.constructor_query (h : Expands children unchecked registrations out) {i : Fin n}
    {closure : Node} (hclosure : closure ∈ (out.looked i).constructor) {invocation : Invocation}
    (hfound : invocation ∈ Rose.found expressionQuery closure) :
    ∃ j method replacement, queryTarget (indices out.dispatched) invocation = some j ∧
      j ∈ out.dependencies i ∧ invocation.query.method = some method ∧
      Wiring.replacements (fun k => (out.looked k).wiring false)
        (Wiring.transitive out.dependencies out.order) false unchecked j method =
          some replacement := by
  rcases analyse_ok (h.analysed i) with ⟨looked, _, _, hanalysed⟩
  rcases queryPass_ok hanalysed with ⟨_, _, _, _, hdependencies⟩
  rcases h.rewritten i with ⟨_, hrewritten⟩
  rcases queryPass_ok hrewritten with ⟨_, _, _, hanswered, _⟩
  rcases hanswered closure hclosure invocation hfound with ⟨j, htarget, havailable⟩
  have hrecorded : j ∈ out.dependencies i := by
    refine (hdependencies j).2 (Or.inr ⟨closure, ?_, invocation, hfound, htarget⟩)
    exact List.mem_cons_of_mem _ (Option.mem_toList.2 hclosure)
  have hreplacement := havailable _ rfl
  simp only [replacement] at hreplacement
  cases hmethod : invocation.query.method with
  | none => simp [hmethod] at hreplacement
  | some method =>
      simp only [hmethod, Option.isSome_map] at hreplacement
      rcases Option.isSome_iff_exists.1 hreplacement with ⟨found, hreplaced⟩
      exact ⟨j, method, found, htarget, hrecorded, rfl, hreplaced⟩

end Expanded

/-- The accumulated dependencies are what a node reaches, and every slot that a constructor's
queries name is a field of its context.  Its queries are those in the place of an expression, which
are the ones that are replaced. -/
theorem constructor_wiring_closed (dependencies : Dependencies n)
    (hacyclic : ¬ HasCycle dependencies) :
    ∃ order, schedule dependencies = .ok order ∧
      (∀ i j, j ∈ Wiring.transitive dependencies order i ↔ Reaches dependencies i j) ∧
      (∀ i, i ∉ Wiring.transitive dependencies order i) ∧
      ∀ children unchecked registrations out,
        expandQueries children unchecked registrations = .ok out →
        out.dependencies = dependencies →
        ∀ (native : Fin n → Bool) (i : Fin n), ∀ closure ∈ (out.looked i).constructor,
        ∀ invocation ∈ Rose.found expressionQuery closure,
        ∃ j method replacement,
          queryTarget (indices out.dispatched) invocation = some j ∧
          invocation.query.method = some method ∧
          Wiring.replacements (fun k => (out.looked k).wiring (native k))
            (Wiring.transitive dependencies order) false unchecked j method = some replacement ∧
          replacement.slots =
            (if (out.looked j).constructor.isSome then
              (Wiring.arguments j (Wiring.transitive dependencies order)).map .field
            else [.field j]) ∧
          ∀ slot ∈ replacement.slots, ∃ k, slot = .field k ∧
            k ∈ Wiring.contextArguments (fun k => (out.looked k).wiring (native k))
              (Wiring.transitive dependencies order) i := by
  rcases schedule_cases dependencies with ⟨order, _, horder, _, _⟩ | ⟨cycle, _, hcycle⟩
  · have hfirst := dependencyFirst_of_schedule_ok horder
    refine ⟨order, horder, fun i j => Wiring.mem_transitive hfirst, ?_, ?_⟩
    · intro i hself
      exact hfirst.not_reaches_self i ((Wiring.mem_transitive hfirst).1 hself)
    · intro children unchecked registrations out hout hdependencies native i closure hclosure
        invocation hfound
      have hexpands := expandQueries_ok hout
      -- The order is a function of the dependencies.
      have hsame : out.order = order := by
        have hscheduled := hexpands.scheduled
        rw [hdependencies, horder] at hscheduled
        injection hscheduled with hscheduled
        exact hscheduled.symm
      rcases hexpands.constructor_query hclosure hfound with
        ⟨j, method, replacement, htarget, hrecorded, hmethod, hreplacement⟩
      rw [hdependencies, hsame] at hreplacement
      rw [hdependencies] at hrecorded
      rw [← replacements_native out.looked _ false unchecked native] at hreplacement
      refine ⟨j, method, replacement, htarget, hmethod, hreplacement, ?_,
        Wiring.context_closed hfirst hrecorded hreplacement⟩
      rcases Wiring.replacement_slots hreplacement with ⟨rfl, hstored⟩ | ⟨hconstructor, hcall⟩
      · -- A stored value is read from its own field, a constructor is called with its arguments.
        have hnone : (out.looked j).constructor.isSome = false := by
          cases hconstructor : (out.looked j).constructor.isSome with
          | false => rfl
          | true => simp [Registration.wiring, hconstructor, Wiring.Registration.constructor] at hstored
        simp [Wiring.Replacement.slots, Wiring.slot, hnone]
      · have hsome : (out.looked j).constructor.isSome = true := by
          cases hconstructor' : (out.looked j).constructor.isSome with
          | true => rfl
          | false =>
              simp only [Registration.wiring, hconstructor', Bool.false_eq_true, if_false]
                at hconstructor
              split at hconstructor <;> cases hconstructor
        rcases hcall with rfl | rfl <;> simp [Wiring.Replacement.slots, Wiring.slot, hsome]
  · exact absurd hcycle.hasCycle hacyclic

/-- A constructor `|| try_resolve!(IName)` for `IReader`. -/
def maker : Registration :=
  { nameValue with
    constructor :=
      some (.node ⟨.closure [], [], false⟩
        [queryExpression "try_resolve" (.query false "IName" none)])
    value := .node ⟨.expr .tuple, [], false⟩ []
    fresh := true
    interface := "IReader" }

/-- The stored value `as IName`, and the constructor that takes it. -/
def making : Fin 2 → Registration
  | 0 => nameValue
  | 1 => maker

theorem constructor_wiring_closed_making :
    ¬ HasCycle (fun i : Fin 2 => if i = 1 then {0} else ∅) ∧
      ∃ out, expandQueries [] false making = .ok out ∧
        ∀ native : Fin 2 → Bool, ∀ closure ∈ (out.looked 1).constructor,
          ∀ invocation ∈ Rose.found expressionQuery closure, ∃ j method replacement,
            queryTarget (indices out.dispatched) invocation = some j ∧
            Wiring.replacements (fun k => (out.looked k).wiring (native k))
              (Wiring.transitive out.dependencies [0, 1]) false false j method =
                some replacement ∧
            ∀ slot ∈ replacement.slots, ∃ k, slot = .field k ∧
              k ∈ Wiring.contextArguments (fun k => (out.looked k).wiring (native k))
                (Wiring.transitive out.dependencies [0, 1]) 1 := by
  have hscheduled : schedule (fun i : Fin 2 => if i = 1 then {0} else ∅) = .ok [0, 1] := by
    decide +kernel
  have hacyclic : ¬ HasCycle (fun i : Fin 2 => if i = 1 then {0} else ∅) :=
    not_hasCycle_of_wellFounded (wellFounded_of_schedule_ok hscheduled)
  have hok : (expandQueries [] false making).toOption.any
      (fun out => decide (out.dependencies = fun i : Fin 2 => if i = 1 then {0} else ∅)) =
        true := by decide +kernel
  refine ⟨hacyclic, ?_⟩
  cases hout : expandQueries [] false making with
  | error error => simp [hout, Except.toOption] at hok
  | ok out =>
      have hdependencies : out.dependencies = fun i : Fin 2 => if i = 1 then {0} else ∅ := by
        simpa [hout, Except.toOption] using hok
      refine ⟨out, rfl, ?_⟩
      intro native closure hclosure invocation hfound
      rcases constructor_wiring_closed _ hacyclic with ⟨order, horder, _, _, hclosed⟩
      have hsame : order = [0, 1] := by
        rw [hscheduled] at horder
        injection horder with horder
        exact horder.symm
      subst hsame
      rcases hclosed [] false making out hout hdependencies native 1 closure hclosure invocation
        hfound with ⟨j, method, replacement, htarget, _, hreplacement, _, hslots⟩
      rw [hdependencies]
      exact ⟨j, method, replacement, htarget, hreplacement, hslots⟩

/-! ## Calls between constructors -/

section Calls

variable (registrations : Fin n → Registration) (indices : String → Option (Fin n))

/-- The constructor of `i` queries `j`, by `resolve` or by one of the others. -/
def LocalCall (i j : Fin n) (takes : Bool) : Prop :=
  ∃ closure ∈ (registrations i).constructor, ∃ mac ∈ Rose.found expressionMacro closure,
    localCall indices mac = .ok (some (j, takes))

/-- One constructor queries another. -/
def Constructs (i j : Fin n) : Prop :=
  (registrations j).constructor.isSome ∧ ∃ takes, LocalCall registrations indices i j takes

/-- A constructor takes a stored value. -/
def Takes (i s : Fin n) : Prop :=
  LocalCall registrations indices i s true ∧ (registrations s).constructor = none ∧
    (registrations s).fresh = false

end Calls

section Calls

variable {registrations : Fin n → Registration} {indices : String → Option (Fin n)}

theorem foldl_noteCall_ok {macs : List Macro} {s : Calls n}
    (h : (macs.foldl (noteCall indices) s).error = none) :
    s.error = none ∧ ∀ call, call ∈ (macs.foldl (noteCall indices) s).calls ↔
      call ∈ s.calls ∨ ∃ mac ∈ macs, localCall indices mac = .ok (some call) := by
  induction macs generalizing s with
  | nil => exact ⟨h, by simp⟩
  | cons mac rest ih =>
      rcases ih h with ⟨herror, hcalls⟩
      cases hcall : localCall indices mac with
      | error error => simp [noteCall, hcall] at herror
      | ok outcome =>
          cases outcome with
          | none =>
              simp only [List.foldl_cons, noteCall, hcall] at herror hcalls ⊢
              refine ⟨herror, fun call => (hcalls call).trans ?_⟩
              simp [hcall]
          | some found =>
              simp only [List.foldl_cons, noteCall, hcall] at herror hcalls ⊢
              refine ⟨herror, fun call => (hcalls call).trans ?_⟩
              simp [hcall, or_assoc, eq_comm]

theorem foldl_noteTarget_ok {macs : List Macro} {s : Targets n}
    (h : (macs.foldl (noteTarget indices) s).error = none) :
    s.error = none ∧ ∀ j, j ∈ (macs.foldl (noteTarget indices) s).targets ↔
      j ∈ s.targets ∨ ∃ mac ∈ macs, ∃ call, localCall indices mac = .ok (some call) ∧
        call.1 = j := by
  induction macs generalizing s with
  | nil => exact ⟨h, by simp⟩
  | cons mac rest ih =>
      rcases ih h with ⟨herror, htargets⟩
      cases hcall : localCall indices mac with
      | error error => simp [noteTarget, hcall] at herror
      | ok outcome =>
          cases outcome with
          | none =>
              simp only [List.foldl_cons, noteTarget, hcall] at herror htargets ⊢
              refine ⟨herror, fun j => (htargets j).trans ?_⟩
              simp [hcall]
          | some found =>
              simp only [List.foldl_cons, noteTarget, hcall] at herror htargets ⊢
              refine ⟨herror, fun j => (htargets j).trans ?_⟩
              simp only [Finset.mem_insert, List.mem_cons, exists_eq_or_imp, hcall,
                Except.ok.injEq, Option.some.injEq, exists_eq_left', or_assoc]
              rw [or_left_comm, @eq_comm _ j]

/-- The inner loop of `consumed_dependencies`, for calls of other constructors. -/
theorem mem_foldl_consumeCall {index : Fin n} {calls : List (Fin n × Bool)}
    {consumed : Dependencies n}
    (hother : ∀ call ∈ calls, (registrations call.1).constructor.isSome → call.1 ≠ index) :
    (∀ s, s ∈ calls.foldl (consumeCall registrations index) consumed index ↔
      s ∈ consumed index ∨ ∃ call ∈ calls,
        ((registrations call.1).constructor.isSome ∧ s ∈ consumed call.1) ∨
        ((registrations call.1).constructor = none ∧ call.2 = true ∧
          (registrations call.1).fresh = false ∧ s = call.1)) ∧
    ∀ other ≠ index, calls.foldl (consumeCall registrations index) consumed other =
      consumed other := by
  induction calls generalizing consumed with
  | nil => simp
  | cons call rest ih =>
      have hrest : ∀ call ∈ rest, (registrations call.1).constructor.isSome → call.1 ≠ index :=
        fun other hmem => hother other (List.mem_cons_of_mem _ hmem)
      rcases @ih (consumeCall registrations index consumed call) hrest with ⟨hmem, hothers⟩
      have hstep : ∀ other ≠ index,
          consumeCall registrations index consumed call other = consumed other := by
        intro other hne
        simp only [consumeCall]
        split
        · exact Function.update_of_ne hne _ _
        · split
          · exact Function.update_of_ne hne _ _
          · rfl
      have hhere : ∀ s, s ∈ consumeCall registrations index consumed call index ↔
          s ∈ consumed index ∨
            ((registrations call.1).constructor.isSome ∧ s ∈ consumed call.1) ∨
            ((registrations call.1).constructor = none ∧ call.2 = true ∧
              (registrations call.1).fresh = false ∧ s = call.1) := by
        intro s
        simp only [consumeCall]
        cases hconstructor : (registrations call.1).constructor with
        | some closure => simp
        | none =>
            cases htakes : call.2 <;> cases hfresh : (registrations call.1).fresh <;>
              simp [or_comm]
      refine ⟨?_, ?_⟩
      · intro s
        rw [List.foldl_cons, hmem, hhere, or_assoc]
        refine or_congr Iff.rfl ?_
        simp only [List.mem_cons, exists_eq_or_imp]
        refine or_congr Iff.rfl ?_
        -- The rows read later are not the row that is written.
        refine exists_congr fun other => and_congr_right fun hmem => or_congr ?_ Iff.rfl
        refine and_congr_right fun hconstructor => ?_
        rw [hstep other.1 (hrest other hmem hconstructor)]
      · intro other hne
        rw [List.foldl_cons, hothers other hne, hstep other hne]

theorem consumeStep_collects {consumed consumed' : Dependencies n} {index : Fin n}
    (h : consumeStep registrations indices consumed index = .ok consumed')
    (hempty : ∀ s, s ∉ consumed index)
    (hself : ∀ j, Constructs registrations indices index j → j ≠ index) :
    Collects (Constructs registrations indices) (Takes registrations indices)
      (fun i s => s ∈ consumed i) (fun i s => s ∈ consumed' i) index := by
  simp only [consumeStep] at h
  cases hconstructor : (registrations index).constructor with
  | none =>
      simp only [hconstructor, Except.ok.injEq] at h
      subst h
      refine ⟨?_, fun _ _ _ => Iff.rfl⟩
      intro s
      simp [hempty s, Takes, Constructs, LocalCall, hconstructor]
  | some closure =>
      -- The visitor is a fold over the macros it finds, and the fold collects the local calls.
      have hvisit := @Rose.visit_eq _ _ _ (enterCall indices) expressionMacro
        (fun _ node => node) (noteCall indices) (fun _ _ _ => rfl) closure ⟨[], none⟩
      simp only [hconstructor, hvisit] at h
      split at h
      · cases h
      · rename_i herror
        cases h
        rcases foldl_noteCall_ok herror with ⟨_, hcalls⟩
        have hcall : ∀ j takes, (j, takes) ∈
            ((Rose.found expressionMacro closure).foldl (noteCall indices) ⟨[], none⟩).calls ↔
              LocalCall registrations indices index j takes := by
          intro j takes
          rw [hcalls]
          simp [LocalCall, hconstructor]
        rcases @mem_foldl_consumeCall n registrations index
          ((Rose.found expressionMacro closure).foldl (noteCall indices) ⟨[], none⟩).calls consumed
          (fun call hmem hsome => hself call.1 ⟨hsome, call.2, (hcall call.1 call.2).1 hmem⟩) with
          ⟨hhere, hothers⟩
        refine ⟨?_, fun other hne s => by rw [hothers other hne]⟩
        intro s
        rw [hhere]
        refine ⟨?_, ?_⟩
        · intro hs
          -- A callee that is a constructor passes on what it consumes; a stored value is consumed by
          -- a call that takes it.
          rcases hs with hs | ⟨call, hmem, ⟨hsome, hs⟩ | ⟨hnone, htakes, hfresh, rfl⟩⟩
          · exact absurd hs (hempty s)
          · exact Or.inr ⟨call.1, ⟨hsome, call.2, (hcall _ _).1 hmem⟩, hs⟩
          · refine Or.inl ⟨(hcall _ _).1 ?_, hnone, hfresh⟩
            rw [← htakes]
            exact hmem
        · intro hs
          rcases hs with ⟨hlocal, hnone, hfresh⟩ | ⟨j, ⟨hsome, takes, hlocal⟩, hs⟩
          · exact Or.inr ⟨(s, true), (hcall _ _).2 hlocal, Or.inr ⟨hnone, rfl, hfresh, rfl⟩⟩
          · exact Or.inr ⟨(j, takes), (hcall _ _).2 hlocal, Or.inl ⟨hsome, hs⟩⟩

/-- The inner loop of `propagate_child_calls`. -/
theorem mem_foldl_inheritCalls {index : Fin n} {targets : List (Fin n)} {calls : Fin n → List Call}
    (hother : ∀ target ∈ targets, (registrations target).constructor.isSome → target ≠ index) :
    (∀ call, call ∈ targets.foldl (inheritCalls registrations index) calls index ↔
      call ∈ calls index ∨ ∃ target ∈ targets,
        (registrations target).constructor.isSome ∧ call ∈ calls target) ∧
    ∀ other ≠ index, targets.foldl (inheritCalls registrations index) calls other =
      calls other := by
  induction targets generalizing calls with
  | nil => simp
  | cons target rest ih =>
      have hrest : ∀ target ∈ rest, (registrations target).constructor.isSome → target ≠ index :=
        fun other hmem => hother other (List.mem_cons_of_mem _ hmem)
      rcases @ih (inheritCalls registrations index calls target) hrest with ⟨hmem, hothers⟩
      -- Only the calls of `index` grow, so what it inherits does not depend on the order.
      have hstep : ∀ other ≠ index,
          inheritCalls registrations index calls target other = calls other := by
        intro other hne
        simp only [inheritCalls]
        split
        · exact Function.update_of_ne hne _ _
        · rfl
      refine ⟨?_, ?_⟩
      · intro call
        have hhere : call ∈ inheritCalls registrations index calls target index ↔
            call ∈ calls index ∨
              ((registrations target).constructor.isSome ∧ call ∈ calls target) := by
          simp only [inheritCalls]
          cases hsome : (registrations target).constructor.isSome <;> simp
        rw [List.foldl_cons, hmem, hhere, or_assoc]
        refine or_congr Iff.rfl ?_
        simp only [List.mem_cons, exists_eq_or_imp]
        refine or_congr Iff.rfl ?_
        refine exists_congr fun other => and_congr_right fun hmem => and_congr_right fun hsome => ?_
        rw [hstep other (hrest other hmem hsome)]
      · intro other hne
        rw [List.foldl_cons, hothers other hne, hstep other hne]

theorem propagateStep_collects {calls calls' : Fin n → List Call} {own : Fin n → Call → Prop}
    {index : Fin n} (h : propagateStep registrations indices calls index = .ok calls')
    (hown : ∀ call, call ∈ calls index ↔ own index call)
    (hself : ∀ j, Constructs registrations indices index j → j ≠ index) :
    Collects (Constructs registrations indices) own
      (fun i call => call ∈ calls i) (fun i call => call ∈ calls' i) index := by
  simp only [propagateStep] at h
  cases hconstructor : (registrations index).constructor with
  | none =>
      simp only [hconstructor, Except.ok.injEq] at h
      subst h
      refine ⟨?_, fun _ _ _ => Iff.rfl⟩
      intro call
      simp [hown, Constructs, LocalCall, hconstructor]
  | some closure =>
      -- As for the consumed slots, with the set of the targets for the list of the calls.
      have hvisit := @Rose.visit_eq _ _ _ (enterTarget indices) expressionMacro
        (fun _ node => node) (noteTarget indices) (fun _ _ _ => rfl) closure ⟨∅, none⟩
      simp only [hconstructor, hvisit] at h
      split at h
      · cases h
      · rename_i herror
        cases h
        rcases foldl_noteTarget_ok herror with ⟨_, htargets⟩
        have htarget : ∀ j, j ∈ iter
            ((Rose.found expressionMacro closure).foldl (noteTarget indices) ⟨∅, none⟩).targets ↔
              ∃ takes, LocalCall registrations indices index j takes := by
          intro j
          rw [mem_iter, htargets]
          refine ⟨?_, ?_⟩
          · intro hj
            rcases hj with hj | ⟨mac, hmac, call, hcall, rfl⟩
            · simp at hj
            · exact ⟨call.2, closure, hconstructor, mac, hmac, hcall⟩
          · intro hj
            rcases hj with ⟨takes, closure', hclosure', mac, hmac, hcall⟩
            cases hconstructor.symm.trans hclosure'
            exact Or.inr ⟨mac, hmac, _, hcall, rfl⟩
        rcases @mem_foldl_inheritCalls n registrations index
          (iter ((Rose.found expressionMacro closure).foldl (noteTarget indices) ⟨∅, none⟩).targets)
          calls (fun j hmem hsome => hself j ⟨hsome, (htarget j).1 hmem⟩) with ⟨hhere, hothers⟩
        refine ⟨?_, fun other hne call => by rw [hothers other hne]⟩
        intro call
        rw [hhere, hown]
        refine or_congr Iff.rfl (exists_congr fun j => ?_)
        rw [htarget, Constructs]
        tauto

end Calls

/-! ## Child calls -/

section ChildCalls

variable (children : List ChildRegistration)

/-- The call recorded for a child query. -/
def childCall : ChildSite → Option Call
  | .query invocation =>
      if invocation.query.removed then none
      else
        match target children invocation.tokens with
        | .ok (some (index, interface, _, path)) =>
            some ⟨((children[index]?).map fun child => child.name.name).getD "", path, interface,
              invocation.query.operation, invocation.query.unchecked⟩
        | _ => none
  | .type _ => none

/-- The child calls that occur in a piece of code. -/
def childCalls (node : Node) : List Call :=
  (Rose.found childSite node).filterMap (childCall children)

end ChildCalls

theorem foldl_noteChild_calls {children : List ChildRegistration} (found : List ChildSite)
    (s : ChildQueries) :
    (found.foldl (noteChild children) s).calls = s.calls ++ found.filterMap (childCall children) := by
  induction found generalizing s with
  | nil => simp
  | cons site rest ih =>
      rw [List.foldl_cons, ih]
      cases site with
      | query invocation =>
          simp only [noteChild, childCall, List.filterMap_cons]
          cases hremoved : invocation.query.removed with
          | true => simp
          | false =>
              simp only [Bool.false_eq_true, if_false]
              cases target children invocation.tokens with
              | error error => rfl
              | ok outcome => cases outcome <;> simp
      | type tokens =>
          simp only [noteChild, childCall, List.filterMap_cons]
          cases target children tokens <;> rfl

theorem childPass_calls {children : List ChildRegistration} {r r' : Registration}
    {calls : List Call} (h : childPass children r = .ok (r', calls)) :
    calls = r.constructor.toList.flatMap (childCalls children) := by
  simp only [childPass] at h
  split at h
  · cases h
  · cases h
    cases hconstructor : r.constructor with
    | none => simp [visitConstructor]
    | some closure =>
        simp only [visitConstructor, visitChildren_eq, foldl_noteChild_calls]
        simp [childCalls]

/-! ## Executions -/

section Executes

variable {V C : Type} (children : List ChildRegistration) (registrations : Fin n → Registration)
  (out : Expansion n)

/-- A query of the emitted constructor of `i`: its target and the method called. -/
def Requests (i j : Fin n) (method : Wiring.Method) : Prop :=
  ∃ closure ∈ (out.looked i).constructor, ∃ mac ∈ Rose.found expressionMacro closure,
    ∃ invocation, Invocation.of mac = some invocation ∧
      queryTarget (indices out.dispatched) invocation = some j ∧
      invocation.query.method = some method

/-- What can happen while the constructor of `i` runs: any sequence of the queries and child calls
that occur in its code, stopped anywhere, with the slots after it and the child calls made. -/
inductive Executes : Fin n → (Fin n → Build.Contents V C) → List Call →
    (Fin n → Build.Contents V C) → Prop
  | stop (i : Fin n) (slots : Fin n → Build.Contents V C) : Executes i slots [] slots
  | access {i j : Fin n} {method : Wiring.Method} {slots slots' : Fin n → Build.Contents V C}
      {calls : List Call} :
      Requests out i j method → (out.looked j).constructor = none →
        Executes i (Function.update slots j (Build.access method (slots j)).2) calls slots' →
          Executes i slots calls slots'
  | construct {i j : Fin n} {method : Wiring.Method}
      {slots slots' slots'' : Fin n → Build.Contents V C} {calls calls' : List Call} :
      Requests out i j method → (out.looked j).constructor.isSome →
        Executes j slots calls slots' → Executes i slots' calls' slots'' →
          Executes i slots (calls ++ calls') slots''
  | child {i : Fin n} {closure : Node} {call : Call} {slots slots' : Fin n → Build.Contents V C}
      {calls : List Call} :
      closure ∈ (registrations i).constructor → call ∈ childCalls children closure →
        Executes i slots calls slots' → Executes i slots (call :: calls) slots'

/-- A slot that is as it was, or that has been emptied. -/
def Emptied (before after : Build.Contents V C) : Prop :=
  ∃ value, before = .take (some value) ∧ after = .take none

/-- Slots as a finished build leaves them: a type mapping has no value to take. -/
def Built (slots : Fin n → Build.Contents V C) : Prop :=
  ∀ j, (out.looked j).constructor = none → (out.looked j).fresh = true →
    ∃ value, slots j = .fresh value

end Executes

/-! ## The closures are exact -/

theorem localCall_ok {indices : String → Option (Fin n)} {mac : Macro} {j : Fin n} {takes : Bool} :
    localCall indices mac = .ok (some (j, takes)) ↔
      ∃ invocation, Invocation.of mac = some invocation ∧ invocation.query.calls = true ∧
        queryTarget indices invocation = some j ∧
        takes = decide (invocation.query ≠ .resolve) := by
  cases hof : Invocation.of mac with
  | none => simp [localCall, hof]
  | some invocation =>
      cases hcalls : invocation.query.calls with
      | false => simp [localCall, hof, hcalls]
      | true =>
          have hkept : invocation.query.removed = false := by
            revert hcalls
            cases invocation.query <;> decide
          cases hkey : localKey invocation.isFrom invocation.tokens with
          | none => simp [localCall, hof, hcalls, hkey, queryTarget]
          | some key =>
              cases hindex : indices key with
              | none => simp [localCall, hof, hcalls, hkey, queryTarget, hindex]
              | some index =>
                  simp only [localCall, hof, hcalls, hkey, queryTarget, hindex, hkept, if_true,
                    Bool.false_eq_true, if_false, Option.bind_some, Option.map_some,
                    Except.ok.injEq, Option.some.injEq, Prod.mk.injEq, exists_eq_left', true_and]
                  exact and_congr_right fun _ => eq_comm

theorem mem_expressionQuery {closure : Node} {mac : Macro} {invocation : Invocation}
    (hof : Invocation.of mac = some invocation) (h : mac ∈ Rose.found expressionMacro closure) :
    invocation ∈ Rose.found expressionQuery closure := by
  refine Rose.mem_found_of_refines ?_ ?_ h
  · intro label hnone
    simp only [expressionMacro] at hnone
    split at hnone
    · cases hnone
    · rename_i hform
      simp only [expressionQuery]
  · intro label hsome
    simp only [expressionMacro] at hsome
    split at hsome
    · rename_i mac' hmac'
      cases hsome
      simp [expressionQuery, hmac', hof]
    · cases hsome

section Exact

variable {V C : Type} {children : List ChildRegistration} {unchecked : Bool}
  {registrations : Fin n → Registration} {out : Expansion n}

theorem Expands.localCall_dependency (h : Expands children unchecked registrations out)
    {i j : Fin n} {takes : Bool}
    (hcall : LocalCall out.looked (indices out.dispatched) i j takes) : j ∈ out.dependencies i := by
  rcases hcall with ⟨closure, hclosure, mac, hmac, hlocal⟩
  rcases localCall_ok.1 hlocal with ⟨invocation, hof, _, htarget, _⟩
  rcases h.constructor_query hclosure (mem_expressionQuery hof hmac) with
    ⟨j', _, _, htarget', hrecorded, _, _⟩
  cases htarget.symm.trans htarget'
  exact hrecorded

/-- Constructors come after those they call. -/
theorem Expands.constructs_before (h : Expands children unchecked registrations out)
    (front : List (Fin n)) (i : Fin n) (back : List (Fin n)) (horder : out.order = front ++ i :: back)
    (j : Fin n) (hcall : Constructs out.looked (indices out.dispatched) i j) : j ∈ front := by
  rcases hcall with ⟨_, takes, hlocal⟩
  exact (dependencyFirst_of_schedule_ok h.scheduled).before front i back horder j
    (h.localCall_dependency hlocal)

theorem Expands.mem_consumed (h : Expands children unchecked registrations out) (i s : Fin n) :
    s ∈ out.consumed i ↔
      Gathers (Constructs out.looked (indices out.dispatched))
        (Takes out.looked (indices out.dispatched)) i s := by
  have hfirst := dependencyFirst_of_schedule_ok h.scheduled
  have hpass := @foldlM_gathers _ _ _ _ (Constructs out.looked (indices out.dispatched))
    (Takes out.looked (indices out.dispatched))
    (consumeStep out.looked (indices out.dispatched)) (fun consumed i s => s ∈ consumed i) out.order
    hfirst.nodup h.constructs_before (fun _ => ∅) out.consumed ?_ h.consumed
  · exact hpass.1 i (hfirst.complete i) s
  · intro consumed index consumed' hstep hsame hself
    exact consumeStep_collects hstep (fun s => by simp [hsame s]) hself

theorem Expands.mem_calls (h : Expands children unchecked registrations out) (i : Fin n)
    (call : Call) :
    call ∈ out.calls i ↔
      Gathers (Constructs out.looked (indices out.dispatched))
        (fun c call => ∃ closure ∈ (registrations c).constructor,
          call ∈ childCalls children closure) i call := by
  have hfirst := dependencyFirst_of_schedule_ok h.scheduled
  rcases h.dispatched with ⟨calls, hchildren, hpropagated⟩
  have hown : ∀ c call, call ∈ calls c ↔ ∃ closure ∈ (registrations c).constructor,
      call ∈ childCalls children closure := by
    intro c call
    rw [childPass_calls (hchildren c)]
    simp [List.mem_flatMap]
  have hpass := @foldlM_gathers _ _ _ _ (Constructs out.looked (indices out.dispatched))
    (fun c call => ∃ closure ∈ (registrations c).constructor, call ∈ childCalls children closure)
    (propagateStep out.looked (indices out.dispatched)) (fun calls i call => call ∈ calls i)
    out.order hfirst.nodup h.constructs_before calls out.calls ?_ hpropagated
  · exact hpass.1 i (hfirst.complete i) call
  · intro current index current' hstep hsame hself
    exact propagateStep_collects hstep (fun call => (hsame call).trans (hown index call)) hself

/-! ## Executions stay within the closures -/

/-- A method that takes was asked for by a query the visitors count as taking. -/
theorem Requests.takes {i j : Fin n} {method : Wiring.Method} (h : Requests out i j method)
    (hmethod : Build.takes method = true) :
    LocalCall out.looked (indices out.dispatched) i j true := by
  rcases h with ⟨closure, hclosure, mac, hmac, invocation, hof, htarget, hkey⟩
  have hquery : invocation.query.calls = true ∧ decide (invocation.query ≠ .resolve) = true := by
    revert hkey
    cases invocation.query <;> cases method <;> simp_all [Query.method, Query.calls, Build.takes]
  exact ⟨closure, hclosure, mac, hmac,
    localCall_ok.2 ⟨invocation, hof, hquery.1, htarget, hquery.2.symm⟩⟩

/-- A constructor has replacements for `resolve` and `try_resolve` only. -/
theorem Requests.constructs (h : Expands children unchecked registrations out) {i j : Fin n}
    {method : Wiring.Method} (hrequest : Requests out i j method)
    (hconstructor : (out.looked j).constructor.isSome = true) :
    Constructs out.looked (indices out.dispatched) i j := by
  rcases hrequest with ⟨closure, hclosure, mac, hmac, invocation, hof, htarget, hkey⟩
  rcases h.constructor_query hclosure (mem_expressionQuery hof hmac) with
    ⟨j', method', replacement, htarget', _, hkey', hreplacement⟩
  cases htarget.symm.trans htarget'
  cases hkey.symm.trans hkey'
  have hcalls : invocation.query.calls = true := by
    revert hkey
    cases hmethod : method <;> subst hmethod <;>
      simp [Wiring.replacements, Registration.wiring, hconstructor,
        Wiring.Registration.constructor] at hreplacement <;>
      cases invocation.query <;> simp [Query.method, Query.calls]
  exact ⟨hconstructor, decide (invocation.query ≠ .resolve), closure, hclosure, mac, hmac,
    localCall_ok.2 ⟨invocation, hof, hcalls, htarget, rfl⟩⟩

theorem access_cases (method : Wiring.Method) (contents : Build.Contents V C) :
    (Build.access method contents).2 = contents ∨
      (Build.takes method = true ∧ Emptied contents (Build.access method contents).2) := by
  cases contents with
  | copy value => exact Or.inl rfl
  | read value => exact Or.inl rfl
  | fresh value => exact Or.inl rfl
  | factory captures => exact Or.inl rfl
  | take value =>
      cases value with
      | none => exact Or.inl rfl
      | some value =>
          cases htakes : Build.takes method with
          | false => simp [Build.access, htakes]
          | true => exact Or.inr ⟨rfl, value, rfl, by simp [Build.access, htakes]⟩

/-- One access changes a slot only by emptying it, and then the constructor takes it. -/
theorem Requests.access {i j : Fin n} {method : Wiring.Method}
    {slots : Fin n → Build.Contents V C} (hrequest : Requests out i j method)
    (hstored : (out.looked j).constructor = none) (hbuilt : Built out slots) :
    (Build.access method (slots j)).2 = slots j ∨
      (Takes out.looked (indices out.dispatched) i j ∧
        Emptied (slots j) (Build.access method (slots j)).2) := by
  rcases access_cases method (slots j) with hsame | ⟨htakes, hemptied⟩
  · exact Or.inl hsame
  · refine Or.inr ⟨⟨hrequest.takes htakes, hstored, ?_⟩, hemptied⟩
    cases hfresh : (out.looked j).fresh with
    | false => rfl
    | true =>
        rcases hbuilt j hstored hfresh with ⟨value, hvalue⟩
        rcases hemptied with ⟨_, hbefore, _⟩
        cases hvalue.symm.trans hbefore

theorem Built.emptied {slots slots' : Fin n → Build.Contents V C} (h : Built out slots)
    (hchanged : ∀ j, slots' j = slots j ∨ Emptied (slots j) (slots' j)) : Built out slots' := by
  intro j hstored hfresh
  rcases h j hstored hfresh with ⟨value, hvalue⟩
  rcases hchanged j with hsame | ⟨_, hbefore, _⟩
  · exact ⟨value, hsame.trans hvalue⟩
  · cases hvalue.symm.trans hbefore

/-- Changes compose: a slot emptied once stays empty. -/
theorem emptied_trans {P : Prop} {a b c : Build.Contents V C}
    (hab : b = a ∨ (P ∧ Emptied a b)) (hbc : c = b ∨ (P ∧ Emptied b c)) :
    c = a ∨ (P ∧ Emptied a c) := by
  rcases hab with rfl | ⟨hp, value, ha, hb⟩
  · exact hbc
  · rcases hbc with rfl | ⟨_, value', hb', _⟩
    · exact Or.inr ⟨hp, value, ha, hb⟩
    · cases hb.symm.trans hb'

theorem Executes.bounded (h : Expands children unchecked registrations out) {i : Fin n}
    {slots slots' : Fin n → Build.Contents V C} {calls : List Call}
    (hrun : Executes children registrations out i slots calls slots') (hbuilt : Built out slots) :
    (∀ j, slots' j = slots j ∨ (j ∈ out.consumed i ∧ Emptied (slots j) (slots' j))) ∧
      ∀ call ∈ calls, call ∈ out.calls i := by
  induction hrun with
  | stop i slots => exact ⟨fun j => Or.inl rfl, by simp⟩
  | @access i j method slots slots' calls hrequest hstored hrest ih =>
      have hone : ∀ k, Function.update slots j (Build.access method (slots j)).2 k = slots k ∨
          (k ∈ out.consumed i ∧
            Emptied (slots k) (Function.update slots j (Build.access method (slots j)).2 k)) := by
        intro k
        by_cases hk : k = j
        · subst hk
          rw [Function.update_self]
          rcases hrequest.access hstored hbuilt with hsame | ⟨htakes, hemptied⟩
          · exact Or.inl hsame
          · exact Or.inr ⟨(h.mem_consumed i k).2 (gathers_iff.2 (Or.inl htakes)), hemptied⟩
        · exact Or.inl (Function.update_of_ne hk _ _)
      rcases ih (hbuilt.emptied fun k => (hone k).imp id And.right) with ⟨hslots, hcalls⟩
      exact ⟨fun k => emptied_trans (hone k) (hslots k), hcalls⟩
  | @construct i j method slots slots' slots'' calls calls' hrequest hconstructor _ _ ih ih' =>
      have hconstructs := hrequest.constructs h hconstructor
      rcases ih hbuilt with ⟨hslots, hcalls⟩
      -- What the callee may do, its caller may do.
      have hcaller : ∀ k, slots' k = slots k ∨ (k ∈ out.consumed i ∧ Emptied (slots k) (slots' k)) := by
        intro k
        refine (hslots k).imp id fun hemptied => ⟨?_, hemptied.2⟩
        exact (h.mem_consumed i k).2
          (gathers_iff.2 (Or.inr ⟨j, hconstructs, (h.mem_consumed j k).1 hemptied.1⟩))
      rcases ih' (hbuilt.emptied fun k => (hcaller k).imp id And.right) with ⟨hslots', hcalls'⟩
      refine ⟨fun k => emptied_trans (hcaller k) (hslots' k), ?_⟩
      intro call hcall
      rcases List.mem_append.1 hcall with hcall | hcall
      · exact (h.mem_calls i call).2
          (gathers_iff.2 (Or.inr ⟨j, hconstructs, (h.mem_calls j call).1 (hcalls call hcall)⟩))
      · exact hcalls' call hcall
  | @child i closure call slots slots' calls hclosure hcall _ ih =>
      rcases ih hbuilt with ⟨hslots, hcalls⟩
      refine ⟨hslots, ?_⟩
      intro other hother
      rcases List.mem_cons.1 hother with rfl | hother
      · exact (h.mem_calls i other).2 (gathers_iff.2 (Or.inl ⟨closure, hclosure, hcall⟩))
      · exact hcalls other hother

end Exact

/-- The consumed slots and the child calls recorded for a constructor are those of the chains of
constructors it starts, and its executions stay within them. -/
theorem consumption_exact (children : List ChildRegistration) (unchecked : Bool)
    (registrations : Fin n → Registration) (out : Expansion n)
    (hout : expandQueries children unchecked registrations = .ok out) :
    (∀ i s, s ∈ out.consumed i ↔
      (out.looked i).constructor.isSome ∧
        ∃ c, Relation.ReflTransGen (Constructs out.looked (indices out.dispatched)) i c ∧
          Takes out.looked (indices out.dispatched) c s) ∧
    (∀ i call, call ∈ out.calls i ↔
      ∃ c, Relation.ReflTransGen (Constructs out.looked (indices out.dispatched)) i c ∧
        ∃ closure ∈ (registrations c).constructor, call ∈ childCalls children closure) ∧
    ∀ (V C : Type) (i : Fin n) (slots slots' : Fin n → Build.Contents V C) (calls : List Call),
      Built out slots → Executes children registrations out i slots calls slots' →
      (∀ j, slots' j = slots j ∨ (j ∈ out.consumed i ∧ Emptied (slots j) (slots' j))) ∧
        ∀ call ∈ calls, call ∈ out.calls i := by
  have h := expandQueries_ok hout
  refine ⟨?_, fun i call => h.mem_calls i call, ?_⟩
  · intro i s
    rw [h.mem_consumed]
    refine ⟨?_, fun hs => hs.2⟩
    intro hs
    refine ⟨?_, hs⟩
    -- A chain starts with a query of the constructor of `i`.
    rcases gathers_iff.1 hs with ⟨⟨closure, hclosure, _⟩, _⟩ | ⟨_, ⟨_, _, closure, hclosure, _⟩, _⟩
    · exact Option.isSome_iff_exists.2 ⟨closure, hclosure⟩
    · exact Option.isSome_iff_exists.2 ⟨closure, hclosure⟩
  · intro V C i slots slots' calls hbuilt hrun
    exact hrun.bounded h hbuilt

theorem consumption_exact_making :
    ∃ out, expandQueries [] false making = .ok out ∧ out.consumed 1 = {0} ∧
      ∀ (slots' : Fin 2 → Build.Contents Nat Unit) (calls : List Call),
        Executes [] making out 1 (fun _ => .take (some 7)) calls slots' →
          (slots' 0 = .take (some 7) ∨ slots' 0 = .take none) ∧ slots' 1 = .take (some 7) := by
  have hok : (expandQueries [] false making).toOption.any
      (fun out => decide (out.consumed = fun i : Fin 2 => if i = 1 then {0} else ∅) &&
        decide ((out.looked 0).fresh = false) && (out.looked 1).constructor.isSome) =
        true := by decide +kernel
  cases hout : expandQueries [] false making with
  | error error => simp [hout, Except.toOption] at hok
  | ok out =>
      simp only [hout, Except.toOption, Option.any_some, Bool.and_eq_true, decide_eq_true_eq] at hok
      rcases hok with ⟨⟨hconsumed, hfresh⟩, hconstructor⟩
      have hbuilt : Built out (fun _ => (.take (some 7) : Build.Contents Nat Unit)) := by
        intro j hstored hj
        have hcases : j = 0 ∨ j = 1 := by omega
        rcases hcases with rfl | rfl
        · simp [hfresh] at hj
        · simp [hstored] at hconstructor
      refine ⟨out, rfl, by simp [hconsumed], ?_⟩
      intro slots' calls hrun
      rcases (consumption_exact [] false making out hout).2.2 Nat Unit 1 _ slots' calls hbuilt hrun
        with ⟨hslots, _⟩
      refine ⟨?_, ?_⟩
      · exact (hslots 0).imp id fun hemptied => hemptied.2.choose_spec.2
      · rcases hslots 1 with hsame | ⟨hmem, _⟩
        · exact hsame
        · simp [hconsumed] at hmem

end Analysis
end Systasis
