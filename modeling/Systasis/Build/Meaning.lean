import Systasis.Analysis.Closure
import Systasis.Analysis.Written
import Systasis.Build.AllOrNothing

/-!
# Meaning — a declaration read by its keys, and the build that is generated for it

The author of a declaration reads a query as a question to the registration of that key: a stored
value answers for itself, a constructor runs its own code, which asks in turn.  `Replies` and `Runs`
say that, without positions, slots or contexts.  The passes replace every query by an expression
over the slots of the build closure; `Source.generate` is the declaration they leave behind, and the
build it runs computes exactly what was written.
-/

namespace Systasis
namespace Build

open Syntax Systasis.Graph Lib
open Analysis (Invocation Expands Expansion expressionQuery localKey queryTarget queryPass_ok
  analyse_ok expandQueries expandQueries_ok ChildRegistration)

variable {n : Nat} {V E C : Type}

/-! ## The code of a declaration -/

/-- A query that is written in a piece of code. -/
abbrev Written (code : List Node) : Type :=
  { invocation : Invocation // ∃ node ∈ code, invocation ∈ Rose.found expressionQuery node }

/-- A declaration after its child queries and type lookups, with the behaviour of the code in it:
an initializer and a constructor issue no query that is not written there. -/
structure Source (registrations : Fin n → Analysis.Registration) (V E C : Type) where
  storage : Fin n → Storage
  value : ∀ i, Behaviour (Written [(registrations i).value]) V (Except E V)
  constructor : ∀ i, C → Behaviour (Written (registrations i).constructor.toList) V V
  captures : Fin n → C
  fresh : Fin n → V

/-- A query asks for the registration of its key. -/
def Asks (registrations : Fin n → Analysis.Registration) (invocation : Invocation) (j : Fin n) :
    Prop :=
  localKey invocation.isFrom invocation.tokens = some (registrations j).key

section Meaning

variable {registrations : Fin n → Analysis.Registration} (source : Source registrations V E C)

mutual

/-- The reply to a query, and the store after it. -/
inductive Replies : Store n V C → Invocation → Except AccessError V → Store n V C → Prop
  | access {store : Store n V C} {invocation : Invocation} {j : Fin n} {method : Wiring.Method}
      {contents : Contents V C} :
      Asks registrations invocation j → invocation.query.method = some method →
        (registrations j).constructor.isSome = false → store j = some contents →
          Replies store invocation (access method contents).1
            (Function.update store j (some (access method contents).2))
  | construct {store after : Store n V C} {invocation : Invocation} {j : Fin n} {captures : C}
      {value : V} :
      Asks registrations invocation j → (registrations j).constructor.isSome = true →
        store j = some (.factory captures) → Runs (source.constructor j captures) store value after →
          Replies store invocation (.ok value) after

/-- A piece of code returns a result. -/
inductive Runs : {code : List Node} → {R : Type} → Behaviour (Written code) V R → Store n V C → R →
    Store n V C → Prop
  | done {code : List Node} {R : Type} (result : R) (store : Store n V C) :
      Runs (.done result : Behaviour (Written code) V R) store result store
  | query {code : List Node} {R : Type} {q : Written code}
      {next : Except AccessError V → Behaviour (Written code) V R} {store middle after : Store n V C}
      {reply : Except AccessError V} {result : R} :
      Replies store q.1 reply middle → Runs (next reply) middle result after →
        Runs (.query q next) store result after

end

/-- The registrations are initialized one after the other, up to the first error. -/
inductive Initializes : List (Fin n) → Store n V C → Except E (Store n V C) → Prop
  | nil (store : Store n V C) : Initializes [] store (.ok store)
  | factory {i : Fin n} {rest : List (Fin n)} {store : Store n V C} {result} :
      (registrations i).constructor.isSome = true →
        Initializes rest (Function.update store i (some (.factory (source.captures i)))) result →
          Initializes (i :: rest) store result
  | fresh {i : Fin n} {rest : List (Fin n)} {store : Store n V C} {result} :
      (registrations i).constructor.isSome = false → (registrations i).fresh = true →
        Initializes rest (Function.update store i (some (.fresh (source.fresh i)))) result →
          Initializes (i :: rest) store result
  | value {i : Fin n} {rest : List (Fin n)} {store after : Store n V C} {value : V} {result} :
      (registrations i).constructor.isSome = false → (registrations i).fresh = false →
        Runs source (source.value i) store (.ok value) after →
          Initializes rest (Function.update after i (some (Build.store (source.storage i) value)))
              result →
            Initializes (i :: rest) store result
  | failed {i : Fin n} {rest : List (Fin n)} {store after : Store n V C} {error : E} :
      (registrations i).constructor.isSome = false → (registrations i).fresh = false →
        Runs source (source.value i) store (.error error) after →
          Initializes (i :: rest) store (.error error)

end Meaning

/-! ## One meaning -/

section Unique

variable {registrations : Fin n → Analysis.Registration} {source : Source registrations V E C}

/-- Every key has one registration. -/
theorem Asks.unique (hkeys : Function.Injective fun i => (registrations i).key)
    {invocation : Invocation} {i j : Fin n} (hi : Asks registrations invocation i)
    (hj : Asks registrations invocation j) : i = j := by
  apply hkeys
  have hkey : some (registrations i).key = some (registrations j).key := hi.symm.trans hj
  exact Option.some.inj hkey

mutual

theorem Replies.unique (hkeys : Function.Injective fun i => (registrations i).key)
    {store after after' : Store n V C} {invocation : Invocation} {reply reply' : Except AccessError V}
    (h : Replies source store invocation reply after)
    (h' : Replies source store invocation reply' after') : reply = reply' ∧ after = after' := by
  match h, h' with
  | .access hasks hmethod _ hcontents, .access hasks' hmethod' _ hcontents' =>
      cases hasks.unique hkeys hasks'
      cases hmethod.symm.trans hmethod'
      cases hcontents.symm.trans hcontents'
      exact ⟨rfl, rfl⟩
  | .access hasks _ hstored _, .construct hasks' hconstructor _ _ =>
      cases hasks.unique hkeys hasks'
      cases hstored.symm.trans hconstructor
  | .construct hasks hconstructor _ _, .access hasks' _ hstored _ =>
      cases hasks.unique hkeys hasks'
      cases hstored.symm.trans hconstructor
  | .construct hasks _ hcaptures hruns, .construct hasks' _ hcaptures' hruns' =>
      cases hasks.unique hkeys hasks'
      cases hcaptures.symm.trans hcaptures'
      rcases Runs.unique hkeys hruns hruns' with ⟨rfl, rfl⟩
      exact ⟨rfl, rfl⟩

theorem Runs.unique (hkeys : Function.Injective fun i => (registrations i).key) {code : List Node}
    {R : Type} {behaviour : Behaviour (Written code) V R} {store after after' : Store n V C}
    {result result' : R} (h : Runs source behaviour store result after)
    (h' : Runs source behaviour store result' after') : result = result' ∧ after = after' := by
  match h, h' with
  | .done _ _, .done _ _ => exact ⟨rfl, rfl⟩
  | .query hanswers hruns, .query hanswers' hruns' =>
      rcases Replies.unique hkeys hanswers hanswers' with ⟨rfl, rfl⟩
      exact Runs.unique hkeys hruns hruns'

end

theorem Initializes.unique (hkeys : Function.Injective fun i => (registrations i).key)
    {order : List (Fin n)} {store : Store n V C} {result result' : Except E (Store n V C)}
    (h : Initializes source order store result) (h' : Initializes source order store result') :
    result = result' := by
  induction h with
  | nil store =>
      cases h'
      rfl
  | factory hconstructor _ ih =>
      cases h' with
      | factory _ hrest => exact ih hrest
      | fresh hnone _ _ => cases hnone.symm.trans hconstructor
      | value hnone _ _ _ => cases hnone.symm.trans hconstructor
      | failed hnone _ _ => cases hnone.symm.trans hconstructor
  | fresh hnone hfresh _ ih =>
      cases h' with
      | factory hconstructor _ => cases hnone.symm.trans hconstructor
      | fresh _ _ hrest => exact ih hrest
      | value _ hstored _ _ => cases hfresh.symm.trans hstored
      | failed _ hstored _ => cases hfresh.symm.trans hstored
  | value hnone hstored hruns _ ih =>
      cases h' with
      | factory hconstructor _ => cases hnone.symm.trans hconstructor
      | fresh _ hfresh _ => cases hfresh.symm.trans hstored
      | value _ _ hruns' hrest =>
          rcases hruns.unique hkeys hruns' with ⟨heq, rfl⟩
          cases heq
          exact ih hrest
      | failed _ _ hruns' => cases (hruns.unique hkeys hruns').1
  | failed hnone hstored hruns =>
      cases h' with
      | factory hconstructor _ => cases hnone.symm.trans hconstructor
      | fresh _ hfresh _ => cases hfresh.symm.trans hstored
      | value _ _ hruns' _ => cases (hruns.unique hkeys hruns').1
      | failed _ _ hruns' =>
          cases (hruns.unique hkeys hruns').1
          rfl

end Unique

/-! ## The generated declaration -/

/-- The same behaviour, its queries renamed. -/
def Behaviour.map {Q Q' R : Type} (f : Q → Q') : Behaviour Q V R → Behaviour Q' V R
  | .done result => .done result
  | .query q next => .query (f q) fun reply => (next reply).map f

/-- Whether a replacement exists depends neither on where it is used nor on what it passes on. -/
theorem replacements_available {registrations : Fin n → Wiring.Registration}
    {dependencies : Dependencies n} {building unchecked : Bool} {index : Fin n}
    {method : Wiring.Method}
    (h : (Wiring.replacements registrations dependencies building unchecked index method).isSome) :
    (Wiring.replacements registrations (fun _ => ∅) true unchecked index method).isSome := by
  unfold Wiring.replacements at h ⊢
  cases hconstructor : (registrations index).constructor with
  | false => cases method <;> simp_all
  | true =>
      cases method <;> simp_all
      cases (registrations index).fallible <;> rfl

/-- The kind of a registration, whatever capture analysis has decided. -/
theorem wiring_constructor (r : Analysis.Registration) (native : Bool) :
    (r.wiring native).constructor = r.constructor.isSome := by
  cases hconstructor : r.constructor.isSome with
  | true => simp [Analysis.Registration.wiring, hconstructor, Wiring.Registration.constructor]
  | false =>
      cases hfresh : r.fresh <;>
        simp [Analysis.Registration.wiring, hconstructor, hfresh, Wiring.Registration.constructor]

section Generate

variable {children : List ChildRegistration} {unchecked : Bool}
  {registrations : Fin n → Analysis.Registration} {out : Expansion n}

/-- The passes leave the key of a registration alone. -/
theorem looked_key (h : Expands children unchecked registrations out) (i : Fin n) :
    (out.looked i).key = (out.dispatched i).key := by
  rcases analyse_ok (h.analysed i) with ⟨_, _, htypes, _⟩
  simp only [Analysis.typePass] at htypes
  split at htypes
  · cases htypes
  · injection htypes with htypes
    injection htypes with hlooked _
    rw [← hlooked]
    rfl

theorem dispatched_key (h : Expands children unchecked registrations out) (i : Fin n) :
    (out.dispatched i).key = (registrations i).key := by
  rcases h.dispatched with ⟨_, hchildren, _⟩
  have hpassed := hchildren i
  simp only [Analysis.childPass] at hpassed
  split at hpassed
  · cases hpassed
  · injection hpassed with hpassed
    injection hpassed with hdispatched _
    rw [← hdispatched]
    rfl

/-- A query of an accepted declaration asks for a recorded dependency, and can be replaced. -/
theorem query_answered (h : Expands children unchecked registrations out) {i : Fin n} {node : Node}
    (hnode : node ∈ (out.looked i).code) {invocation : Invocation}
    (hfound : invocation ∈ Rose.found expressionQuery node) :
    ∃ j method, queryTarget (Analysis.indices out.dispatched) invocation = some j ∧
      invocation.query.method = some method ∧ j ∈ out.dependencies i ∧
      (Wiring.replacements (fun k => (out.looked k).wiring false) (fun _ => ∅) true unchecked j
        method).isSome := by
  rcases analyse_ok (h.analysed i) with ⟨_, _, _, hanalysed⟩
  rcases queryPass_ok hanalysed with ⟨_, _, _, _, hdependencies⟩
  rcases h.rewritten i with ⟨_, hrewritten⟩
  rcases queryPass_ok hrewritten with ⟨_, _, hvalue, hconstructor, _⟩
  -- The initializer and the constructor are rewritten from two maps with the same keys.
  have hanswered : ∃ building, Analysis.AnsweredQuery (Analysis.indices out.dispatched)
      (some (Analysis.replacement out.looked (Wiring.transitive out.dependencies out.order) building
        unchecked)) invocation := by
    rcases List.mem_cons.1 hnode with rfl | hclosure
    · exact ⟨true, hvalue invocation hfound⟩
    · exact ⟨false, hconstructor node (Option.mem_toList.1 hclosure) invocation hfound⟩
  rcases hanswered with ⟨building, j, htarget, havailable⟩
  have hrecorded : j ∈ out.dependencies i :=
    (hdependencies j).2 (.inr ⟨node, hnode, invocation, hfound, htarget⟩)
  have hreplacement := havailable _ rfl
  simp only [Analysis.replacement] at hreplacement
  cases hmethod : invocation.query.method with
  | none => simp [hmethod] at hreplacement
  | some method =>
      simp only [hmethod, Option.isSome_map] at hreplacement
      exact ⟨j, method, htarget, rfl, hrecorded, replacements_available hreplacement⟩

theorem asks_target (h : Expands children unchecked registrations out) {invocation : Invocation}
    {j : Fin n} (htarget : queryTarget (Analysis.indices out.dispatched) invocation = some j) :
    Asks out.looked invocation j := by
  unfold queryTarget at htarget
  split at htarget
  · cases htarget
  · rcases Option.bind_eq_some_iff.1 htarget with ⟨key, hkey, hindex⟩
    have hname : (out.dispatched j).key = key := by simpa using List.find?_some hindex
    rw [Asks, looked_key h j, hname]
    exact hkey

section Rewritten

variable (h : Expands children unchecked registrations out) {i : Fin n} {code : List Node}
  (hcode : ∀ node ∈ code, node ∈ (out.looked i).code) (q : Written code)

include h hcode

theorem written_answered : ∃ j method,
    queryTarget (Analysis.indices out.dispatched) q.1 = some j ∧
      q.1.query.method = some method ∧ j ∈ out.dependencies i ∧
      (Wiring.replacements (fun k => (out.looked k).wiring false) (fun _ => ∅) true unchecked j
        method).isSome := by
  rcases q.2 with ⟨node, hnode, hfound⟩
  exact query_answered h (hcode node hnode) hfound

theorem target_isSome : (queryTarget (Analysis.indices out.dispatched) q.1).isSome := by
  rcases written_answered h hcode q with ⟨j, _, htarget, _⟩
  simp [htarget]

theorem method_isSome : q.1.query.method.isSome := by
  rcases written_answered h hcode q with ⟨_, method, _, hmethod, _⟩
  simp [hmethod]

theorem target_recorded :
    (queryTarget (Analysis.indices out.dispatched) q.1).get (target_isSome h hcode q) ∈
      out.dependencies i := by
  rcases written_answered h hcode q with ⟨j, _, htarget, _, hrecorded, _⟩
  simpa [htarget] using hrecorded

theorem method_available (native : Fin n → Bool) :
    (Wiring.replacements (fun k => (out.looked k).wiring (native k)) (fun _ => ∅) true unchecked
      ((queryTarget (Analysis.indices out.dispatched) q.1).get (target_isSome h hcode q))
      (q.1.query.method.get (method_isSome h hcode q))).isSome := by
  rcases written_answered h hcode q with ⟨j, method, htarget, hmethod, _, havailable⟩
  simpa [htarget, hmethod, Analysis.replacements_native out.looked _ _ _ native] using havailable

end Rewritten

variable (h : Expands children unchecked registrations out) (native : Fin n → Bool)

/-- What the passes leave of a query: its target and its method. -/
def rewritten {i : Fin n} {code : List Node} (hcode : ∀ node ∈ code, node ∈ (out.looked i).code)
    (q : Written code) :
    Query (fun k => (out.looked k).wiring (native k)) unchecked (out.dependencies i) where
  target := (queryTarget (Analysis.indices out.dispatched) q.1).get (target_isSome h hcode q)
  mem := target_recorded h hcode q
  method := q.1.query.method.get (method_isSome h hcode q)
  available := method_available h hcode q native

theorem value_code (r : Analysis.Registration) : ∀ node ∈ [r.value], node ∈ r.code := by
  simp [Analysis.Registration.code]

theorem constructor_code (r : Analysis.Registration) :
    ∀ node ∈ r.constructor.toList, node ∈ r.code := by
  intro node hnode
  exact List.mem_cons_of_mem _ hnode

/-- The declaration the passes leave behind. -/
def Source.generate (source : Source out.looked V E C) : Declaration n V E C where
  registrations := fun i => (out.looked i).wiring (native i)
  unchecked := unchecked
  dependencies := out.dependencies
  storage := source.storage
  value := fun i => (source.value i).map (rewritten h native (value_code (out.looked i)))
  constructor := fun i captures =>
    (source.constructor i captures).map (rewritten h native (constructor_code (out.looked i)))
  captures := source.captures
  fresh := source.fresh

end Generate

/-! ## The generated declaration computes the meaning -/

section Translate

variable {children : List ChildRegistration} {unchecked : Bool}
  {registrations : Fin n → Analysis.Registration} {out : Expansion n}
  {h : Expands children unchecked registrations out} {native : Fin n → Bool}
  {source : Source out.looked V E C}

/-- Generated code follows written code: it asks for the registrations whose keys are written, by
the methods that are written. -/
def Behaviour.Follows (looked : Fin n → Analysis.Registration)
    {generated : Fin n → Wiring.Registration} {unchecked : Bool} {recorded : Finset (Fin n)}
    {code : List Node} {R : Type} :
    Behaviour (Query generated unchecked recorded) V R → Behaviour (Written code) V R → Prop
  | .done result, .done result' => result = result'
  | .query q next, .query q' next' =>
      (Asks looked q'.1 q.target ∧ q'.1.query.method = some q.method) ∧
        ∀ reply, (next reply).Follows looked (next' reply)
  | _, _ => False

theorem follows_rewritten {i : Fin n} {code : List Node}
    (hcode : ∀ node ∈ code, node ∈ (out.looked i).code) {R : Type}
    (behaviour : Behaviour (Written code) V R) :
    (behaviour.map (rewritten h native hcode)).Follows out.looked behaviour := by
  induction behaviour with
  | done result => rfl
  | query q next ih =>
      exact ⟨⟨asks_target h (Option.some_get _).symm, (Option.some_get _).symm⟩, ih⟩

mutual

/-- What answers a generated query answers the query it was written as. -/
theorem replies_written {store after : Store n V C} {target : Fin n} {method : Wiring.Method}
    {reply : Except AccessError V} {invocation : Invocation}
    (hreplies : (source.generate h native).Replies store target method reply after)
    (hasks : Asks out.looked invocation target) (hmethod : invocation.query.method = some method) :
    Replies source store invocation reply after := by
  have hkind : ((source.generate h native).registrations target).constructor =
      (out.looked target).constructor.isSome := wiring_constructor _ _
  match hreplies with
  | .access hstored hcontents =>
      exact .access hasks hmethod (hkind.symm.trans hstored) hcontents
  | .construct hconstructor hcaptures hruns =>
      exact .construct hasks (hkind.symm.trans hconstructor) hcaptures
        (runs_written hruns _ (follows_rewritten _ _))

/-- Generated code returns what the code it follows returns. -/
theorem runs_written {recorded : Finset (Fin n)} {R : Type}
    {generated : Behaviour (Query (source.generate h native).registrations
      (source.generate h native).unchecked recorded) V R}
    {store after : Store n V C} {result : R}
    (hruns : (source.generate h native).Runs generated store result after) {code : List Node}
    (behaviour : Behaviour (Written code) V R)
    (hfollows : generated.Follows out.looked behaviour) :
    Runs source behaviour store result after := by
  match hruns, behaviour, hfollows with
  | .done _ _, .done _, rfl => exact .done _ _
  | .query hreplies hrest, .query q next, ⟨⟨hasks, hmethod⟩, hnext⟩ =>
      exact .query (replies_written hreplies hasks hmethod) (runs_written hrest _ (hnext _))

end

/-- The generated declaration initializes what the written one does. -/
theorem initializes_written {order : List (Fin n)} {store : Store n V C}
    {ran : List (Fin n × Option E)} {result : Except E (Store n V C)}
    (hinitializes : (source.generate h native).Initializes order store ran result) :
    Initializes source order store result := by
  have hconstructor : ∀ i, (out.looked i).constructor.isSome =
      ((source.generate h native).registrations i).constructor :=
    fun i => (wiring_constructor (out.looked i) (native i)).symm
  have hfresh : ∀ i, (out.looked i).constructor.isSome = false →
      ((out.looked i).fresh = true ↔ (source.generate h native).registrations i = .fresh) := by
    intro i hnone
    cases hf : (out.looked i).fresh <;>
      simp [Source.generate, Analysis.Registration.wiring, hnone, hf]
  induction hinitializes with
  | nil store => exact .nil store
  | factory hkind _ ih =>
      exact .factory (by rw [hconstructor, hkind]; rfl) ih
  | fresh hkind _ ih =>
      have hnone := (hconstructor _).trans (congrArg Wiring.Registration.constructor hkind)
      exact .fresh hnone ((hfresh _ hnone).2 hkind) ih
  | value hkind hruns _ ih =>
      have hnone := (hconstructor _).trans (congrArg Wiring.Registration.constructor hkind)
      have hstored := mt (hfresh _ hnone).1 (by simp [hkind])
      exact .value hnone (by simpa using hstored) (runs_written hruns _ (follows_rewritten _ _)) ih
  | failed hkind hruns =>
      have hnone := (hconstructor _).trans (congrArg Wiring.Registration.constructor hkind)
      have hstored := mt (hfresh _ hnone).1 (by simp [hkind])
      exact .failed hnone (by simpa using hstored) (runs_written hruns _ (follows_rewritten _ _))

end Translate

/-! ## The whole build -/

/-- A declaration that the passes accept is never stuck when it is built, and what the generated
build returns is the one meaning of the declaration: the container with the values its queries have
computed, or the first error. -/
theorem expansion_preserves_meaning (children : List ChildRegistration) (unchecked : Bool)
    (registrations : Fin n → Analysis.Registration) (out : Expansion n)
    (hout : expandQueries children unchecked registrations = .ok out)
    (hkeys : Function.Injective fun i => (registrations i).key) (native : Fin n → Bool)
    (source : Source out.looked V E C) :
    ∃ report, build (source.generate (expandQueries_ok hout) native) out.order = .ok report ∧
      ∀ result, Initializes source out.order (fun _ => none) result ↔
        result = report.result.meaning := by
  rcases build_returns (source.generate (expandQueries_ok hout) native)
    (expandQueries_ok hout).scheduled with ⟨report, hbuild⟩
  refine ⟨report, hbuild, ?_⟩
  have hmeans : Initializes source out.order (fun _ => none) report.result.meaning :=
    initializes_written ((build_initializes hbuild _ _).2 ⟨rfl, rfl⟩)
  have hkeys' : Function.Injective fun i => (out.looked i).key := by
    intro i j hij
    have hlooked : ∀ k, (out.looked k).key = (registrations k).key := fun k =>
      (looked_key (expandQueries_ok hout) k).trans (dispatched_key (expandQueries_ok hout) k)
    apply hkeys
    simpa only [hlooked] using hij
  intro result
  constructor
  · intro hinitializes
    exact hinitializes.unique hkeys' hmeans
  · rintro rfl
    exact hmeans

/-- The initializer of the second registration issues one query and adds one to its reply. -/
def asking (looked : Fin 2 → Analysis.Registration) (q : Written [(looked 1).value]) :
    Source looked Nat Unit Unit where
  storage := fun _ => .copy
  value
    | 0 => .done (.ok 7)
    | 1 => .query q fun
        | .ok value => .done (.ok (value + 1))
        | .error _ => .done (.error ())
  constructor := fun _ _ => .done 0
  captures := fun _ => ()
  fresh := fun _ => 0

theorem expansion_preserves_meaning_asking :
    ∃ out, ∃ hout : expandQueries [] false (Analysis.reading Analysis.readingExpression) = .ok out,
      ∃ q : Written [(out.looked 1).value], ∃ report,
        build ((asking out.looked q).generate (expandQueries_ok hout) fun _ => false) out.order =
            .ok report ∧
          ∀ result, Initializes (asking out.looked q) out.order (fun _ => none) result ↔
            result = report.result.meaning := by
  have hok : (expandQueries [] false (Analysis.reading Analysis.readingExpression)).toOption.any
      (fun out => !(Rose.found expressionQuery (out.looked 1).value).isEmpty) = true := by
    decide +kernel
  have hkeys : Function.Injective fun i =>
      (Analysis.reading Analysis.readingExpression i).key := by decide +kernel
  have hexpands : ∃ out,
      expandQueries [] false (Analysis.reading Analysis.readingExpression) = .ok out ∧
        ∃ invocation, invocation ∈ Rose.found expressionQuery (out.looked 1).value := by
    cases hout : expandQueries [] false (Analysis.reading Analysis.readingExpression) with
    | error error => simp [hout, Except.toOption] at hok
    | ok out =>
        simp only [hout, Except.toOption, Option.any_some, Bool.not_eq_true',
          List.isEmpty_eq_false_iff_exists_mem] at hok
        exact ⟨out, rfl, hok⟩
  rcases hexpands with ⟨out, hout, invocation, hfound⟩
  refine ⟨out, hout, ⟨invocation, _, List.mem_singleton_self _, hfound⟩, ?_⟩
  exact expansion_preserves_meaning [] false _ out hout hkeys (fun _ => false) _

end Build
end Systasis
