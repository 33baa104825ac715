import Systasis.Types.Lifting
import Systasis.Types.Policy

/-!
# Policy — which slot stores a registered value

Model of `src/storage/policy.rs`: the probes that detect `Copy` and `Clone`, the checks made of
generic registrations, and `Select`.  `expand_inner` writes a policy for each registration, either
from the bounds spelled in the enclosing function or from what the probes detect, and repeats it
after lifting the lifetimes of the stored type.

What the compiler establishes about a type is given.  Method probing, the precedence of inherent
constants and trait selection are the rules of the language.
-/

namespace Systasis
namespace Policies

open Syntax (Ident)
open Systasis.Types (Node Generics dependsOnGenerics hasExplicitCopyBound hasExplicitCloneBound
  projectedPolicy selectPolicy ChildProjection lift)

/-! ## What the compiler knows -/

/-- The bounds established for a type where it is registered. -/
structure Known where
  copy : Bool
  clone : Bool
  /-- `Clone` is a supertrait of `Copy`. -/
  supertrait : copy = true → clone = true

/-! ## Probes -/

/-- A method of the name called: the references in its self type, whether the bounds of its
implementation hold, and the evidence it returns. -/
structure Candidate (E : Type) where
  references : Nat
  holds : Bool
  evidence : E

/-- The self types tried for a receiver behind so many references: after each dereference the type
itself, then a reference to it. -/
def selfTypes : Nat → List Nat
  | 0 => [0, 1]
  | references + 1 => (references + 1) :: (references + 2) :: selfTypes references

/-- The method a call selects. -/
def probe {E : Type} (candidates : List (Candidate E)) (references : Nat) : Option E :=
  (selfTypes references).findSome? fun self =>
    (candidates.find? fun c => c.references == self && c.holds).map Candidate.evidence

/-- An associated constant: one of an inherent implementation whose bounds hold is found before one
of a trait in scope.  Each is given with whether its bounds hold. -/
def associated (inherent fallback : Bool × Bool) : Option Bool :=
  ([inherent, fallback].find? Prod.fst).map Prod.snd

/-- `CopyKnown` and `CloneKnown`, `CopyUnknown` and `CloneUnknown` -/
inductive Evidence where
  | known
  | unknown
  deriving DecidableEq, Repr

/-- The implementations of `DetectCopy`, or of `DetectClone`, for `&Pick<T>` and `&&Pick<T>`. -/
def detections (bound : Bool) : List (Candidate Evidence) :=
  [⟨1, true, .unknown⟩, ⟨2, bound, .known⟩]

/-- `(&&Pick::<T>::NEW).evidence()` -/
def Known.copyEvidence (known : Known) : Option Evidence :=
  probe (detections known.copy) 2

/-- `(&&Pick::<T>::NEW).clone_evidence()` -/
def Known.cloneEvidence (known : Known) : Option Evidence :=
  probe (detections known.clone) 2

/-- `Pick::<T>::IS_COPY`, with `CopyFallback` in scope. -/
def Known.isCopy (known : Known) : Option Bool :=
  associated (known.copy, true) (true, false)

/-- `Pick::<T>::IS_CLONE`, with `CloneFallback` in scope. -/
def Known.isClone (known : Known) : Option Bool :=
  associated (known.clone, true) (true, false)

/-- `verify_generic_fallback` and `verify_generic_clone_fallback`: only one of the two kinds of
evidence implements the trait they require. -/
def validFallback : Option Evidence → Bool
  | some .unknown => true
  | _ => false

/-! ## `Select` -/

inductive Slot where
  | copy
  | read
  | localTake
  | take
  deriving DecidableEq, Repr

/-- `Policy<COPY, LOCAL, CLONE>` -/
structure Policy where
  copy : Bool
  localPolicy : Bool
  clone : Bool
  deriving DecidableEq, Repr

/-- An implementation of `Select<T>`: the parameters its head fixes, its bound on `T`, its slot. -/
structure Selector where
  copy : Option Bool
  localPolicy : Option Bool
  clone : Option Bool
  bound : Known → Bool
  slot : Slot

def selectors : List Selector :=
  [⟨some true, none, none, Known.copy, .copy⟩,
    ⟨some false, none, some true, Known.clone, .read⟩,
    ⟨some false, some true, some false, fun _ => true, .localTake⟩,
    ⟨some false, some false, some false, fun _ => true, .take⟩]

/-- The head unifies with the policy. -/
def Selector.covers (selector : Selector) (policy : Policy) : Bool :=
  selector.copy.all (· == policy.copy) && selector.localPolicy.all (· == policy.localPolicy) &&
    selector.clone.all (· == policy.clone)

/-- `<policy as Select<T>>::Slot`; without exactly one implementation the code does not compile. -/
def select (known : Known) (policy : Policy) : Option Slot :=
  match selectors.filter fun s => s.covers policy && s.bound known with
  | [selector] => some selector.slot
  | _ => none

/-! ## What `expand_inner` writes -/

/-- What is emitted for one registration. -/
structure Emitted where
  /-- `policies[i]`; without one the policy reads the constants of `Pick`. -/
  policy : Option Types.Policy
  /-- `alias_policies[i]` -/
  aliasPolicy : Option Types.Policy
  copyCheck : Bool
  cloneCheck : Bool

/-- The registrations as far as their storage is concerned. -/
structure Registered where
  ty : Node
  fresh : Bool
  constructor : Bool

/-- The inherited policy, when neither bound is spelled. -/
def inherited (generics : Generics) (ty : Node) (localPolicy : Bool) : Option Types.Policy :=
  if !hasExplicitCopyBound ty generics && !hasExplicitCloneBound ty generics then
    projectedPolicy ty localPolicy
  else none

/-- An iteration of the loop over the registrations, with the lifetimes lifted so far.  `none` is
the `unreachable!` of a projection lost by lifting. -/
def emit (generics : Generics) (localPolicy : Bool) (registration : Registered)
    (lifetimes : List Ident) : Option Emitted :=
  let ty := registration.ty
  let depends := dependsOnGenerics ty generics
  let copy := hasExplicitCopyBound ty generics
  let clone := hasExplicitCloneBound ty generics
  let projected := depends && (inherited generics ty localPolicy).isSome
  let policy := selectPolicy generics ty localPolicy
  let checks := depends && !projected && !registration.fresh
  let stored := if registration.constructor then ty else (lift ty lifetimes).1
  let emitted (aliasPolicy : Option Types.Policy) : Emitted :=
    { policy, aliasPolicy, copyCheck := checks && !copy, cloneCheck := checks && !clone }
  if projected then (projectedPolicy stored localPolicy).map fun p => emitted (some p)
  else some (emitted policy)

/-- The policy that is written, given those the children of the container have. -/
def resolve (known : Known) (children : Node → Node → Node → Bool → Option Policy)
    (localPolicy : Bool) : Option Types.Policy → Option Policy
  | none => do return ⟨← known.isCopy, localPolicy, ← known.isClone⟩
  | some (.policy copy localPolicy clone) => some ⟨copy, localPolicy, clone⟩
  | some (.registration owner path key localPolicy) => children owner path key localPolicy

/-- The slot of a stored registration, if the generated code compiles: its checks hold and its
policy selects a slot. -/
def Emitted.slot (emitted : Emitted) (known : Known)
    (children : Node → Node → Node → Bool → Option Policy) (localPolicy : Bool) : Option Slot :=
  if (!emitted.copyCheck || validFallback known.copyEvidence) &&
      (!emitted.cloneCheck || validFallback known.cloneEvidence) then
    (resolve known children localPolicy emitted.aliasPolicy).bind (select known)
  else none

/-! ## Selection -/

/-- The slot of a value about which so much is known. -/
def Known.slot (known : Known) (localPolicy : Bool) : Slot :=
  if known.copy then .copy
  else if known.clone then .read
  else if localPolicy then .localTake
  else .take

/-- The evidence of a probe is that of the nearest self type whose bounds hold. -/
theorem validFallback_detections (bound : Bool) :
    validFallback (probe (detections bound) 2) = !bound := by
  cases bound <;> rfl

theorem isCopy_eq (known : Known) : known.isCopy = some known.copy := by
  unfold Known.isCopy
  cases known.copy <;> rfl

theorem isClone_eq (known : Known) : known.isClone = some known.clone := by
  unfold Known.isClone
  cases known.clone <;> rfl

/-- The heads are disjoint and exhaustive: one implementation covers a policy, as far as its bound
holds. -/
theorem select_eq (known : Known) (policy : Policy) :
    select known policy =
      if policy.copy then if known.copy then some .copy else none
      else if policy.clone then if known.clone then some .read else none
      else if policy.localPolicy then some .localTake else some .take := by
  rcases policy with ⟨copy, localPolicy, clone⟩
  cases hcopy : known.copy <;> cases hclone : known.clone <;> cases copy <;> cases localPolicy <;>
    cases clone <;> simp [select, selectors, Selector.covers, hcopy, hclone]

/-- A policy that says what is known selects the slot for it. -/
theorem select_known (known : Known) (localPolicy : Bool) :
    select known ⟨known.copy, localPolicy, known.clone⟩ = some (known.slot localPolicy) := by
  rw [select_eq, Known.slot]
  cases known.copy <;> cases known.clone <;> cases localPolicy <;> rfl

/-! ## Lifting keeps projections -/

/-- Lifting keeps the shape of a projection and lifts its parts. -/
theorem childProjection_lift {owner path key ty : Node} (h : ChildProjection owner path key ty)
    (lifetimes : List Ident) :
    ∃ owner' path' key', ChildProjection owner' path' key' (lift ty lifetimes).1 := by
  rcases h with ⟨hnames⟩
  exact ⟨_, _, _, .mk hnames⟩

/-! ## The slot of a registration -/

/-- The registration takes the policy of a registration of a child. -/
def Inherits (generics : Generics) (ty : Node) : Prop :=
  dependsOnGenerics ty generics = true ∧ hasExplicitCopyBound ty generics = false ∧
    hasExplicitCloneBound ty generics = false ∧ ∃ owner path key, ChildProjection owner path key ty

/-- The bounds spelled for a type of generic code are those established for it. -/
def Spelled (generics : Generics) (ty : Node) (known : Known) : Prop :=
  dependsOnGenerics ty generics = true →
    hasExplicitCopyBound ty generics = known.copy ∧ hasExplicitCloneBound ty generics = known.clone

instance (generics : Generics) (ty : Node) (known : Known) :
    Decidable (Spelled generics ty known) :=
  inferInstanceAs (Decidable (_ → _))

section Slot

variable {generics : Generics} {ty : Node} {localPolicy : Bool}

theorem inherited_isSome_iff :
    (dependsOnGenerics ty generics && (inherited generics ty localPolicy).isSome) = true ↔
      Inherits generics ty := by
  have hprojected : (projectedPolicy ty localPolicy).isSome = true ↔
      ∃ owner path key, ChildProjection owner path key ty := by
    rw [Option.isSome_iff_exists]
    constructor
    · rintro ⟨p, hp⟩
      rcases Types.projectedPolicy_eq_some_iff.1 hp with ⟨owner, path, key, hprojection, _⟩
      exact ⟨owner, path, key, hprojection⟩
    · rintro ⟨owner, path, key, hprojection⟩
      exact ⟨_, Types.projectedPolicy_eq_some_iff.2 ⟨owner, path, key, hprojection, rfl⟩⟩
  cases hcopy : hasExplicitCopyBound ty generics <;>
    cases hclone : hasExplicitCloneBound ty generics <;>
    simp [inherited, Inherits, hcopy, hclone, hprojected]

theorem selectPolicy_eq :
    selectPolicy generics ty localPolicy =
      if dependsOnGenerics ty generics then
        some ((inherited generics ty localPolicy).getD (.policy (hasExplicitCopyBound ty generics)
          localPolicy (hasExplicitCloneBound ty generics)))
      else none :=
  rfl

/-- What is emitted for a stored registration that takes its policy from a child. -/
theorem emit_inherits {registration : Registered} (h : Inherits generics registration.ty)
    (lifetimes : List Ident) :
    ∃ emitted owner path key,
      emit generics localPolicy registration lifetimes = some emitted ∧
        emitted.copyCheck = false ∧ emitted.cloneCheck = false ∧
        emitted.aliasPolicy = some (.registration owner path key localPolicy) ∧
        ChildProjection owner path key
          (if registration.constructor then registration.ty
            else (lift registration.ty lifetimes).1) := by
  have hprojected := (@inherited_isSome_iff generics registration.ty localPolicy).2 h
  rcases h with ⟨_, _, _, owner, path, key, hprojection⟩
  have hstored : ∃ owner path key, ChildProjection owner path key
      (if registration.constructor then registration.ty
        else (lift registration.ty lifetimes).1) := by
    cases registration.constructor with
    | true => exact ⟨owner, path, key, hprojection⟩
    | false => exact childProjection_lift hprojection lifetimes
  rcases hstored with ⟨owner', path', key', hstored⟩
  have hpolicy := Types.projectedPolicy_eq_some_iff.2
    ⟨owner', path', key', hstored, (rfl : _ = Types.Policy.registration _ _ _ localPolicy)⟩
  simp only [emit, hprojected, if_true, hpolicy, Option.map_some]
  exact ⟨_, owner', path', key', rfl, by simp, by simp, rfl, hstored⟩

/-- What is emitted for one that does not. -/
theorem emit_declared {registration : Registered} (h : ¬Inherits generics registration.ty)
    (lifetimes : List Ident) :
    ∃ emitted,
      emit generics localPolicy registration lifetimes = some emitted ∧
        emitted.copyCheck = (dependsOnGenerics registration.ty generics && !registration.fresh &&
          !hasExplicitCopyBound registration.ty generics) ∧
        emitted.cloneCheck = (dependsOnGenerics registration.ty generics && !registration.fresh &&
          !hasExplicitCloneBound registration.ty generics) ∧
        emitted.aliasPolicy =
          if dependsOnGenerics registration.ty generics then
            some (.policy (hasExplicitCopyBound registration.ty generics) localPolicy
              (hasExplicitCloneBound registration.ty generics))
          else none := by
  have hprojected := mt (@inherited_isSome_iff generics registration.ty localPolicy).1 h
  simp only [Bool.not_eq_true] at hprojected
  refine ⟨_, by rw [emit]; simp only [hprojected, Bool.false_eq_true, if_false]; rfl, ?_, ?_, ?_⟩
  · simp
  · simp
  · cases hdepends : dependsOnGenerics registration.ty generics with
    | false => simp [selectPolicy, hdepends]
    | true =>
        have hnone : inherited generics registration.ty localPolicy = none := by
          simpa [hdepends] using hprojected
        simp [selectPolicy_eq, hdepends, hnone]

/-- The checks and the bound of `Select` together accept a policy written from the spelled bounds
exactly when those are the bounds that hold. -/
theorem written_slot (known : Known) (localPolicy copy clone : Bool)
    (himplies : copy = true → clone = true) :
    (if (copy || validFallback known.copyEvidence) &&
        (clone || validFallback known.cloneEvidence) then
      select known ⟨copy, localPolicy, clone⟩ else none) =
      if copy = known.copy ∧ clone = known.clone then some (known.slot localPolicy) else none := by
  have hcopy : validFallback known.copyEvidence = !known.copy := validFallback_detections _
  have hclone : validFallback known.cloneEvidence = !known.clone := validFallback_detections _
  rw [hcopy, hclone, select_eq, Known.slot]
  have hknown := known.supertrait
  cases copy with
  | true =>
      -- Nothing is checked, and `Select` requires `Copy`, which brings `Clone`.
      have hboth : clone = true := himplies rfl
      subst hboth
      cases hk : known.copy with
      | true => simp [hknown hk]
      | false => simp
  | false =>
      cases clone <;> cases hk : known.copy <;> cases hc : known.clone <;> cases localPolicy <;>
        simp [hk, hc] at hknown ⊢

/-- A value whose policy is written where it is declared. -/
theorem declared_slot {registration : Registered} (hdeclared : ¬Inherits generics registration.ty)
    (hstored : registration.fresh = false) (lifetimes : List Ident) (known : Known)
    (children : Node → Node → Node → Bool → Option Policy) {emitted : Emitted}
    (hemit : emit generics localPolicy registration lifetimes = some emitted) :
    emitted.slot known children localPolicy =
      if Spelled generics registration.ty known then some (known.slot localPolicy) else none := by
  rcases @emit_declared generics localPolicy registration hdeclared lifetimes with
    ⟨emitted', hemit', hcopy, hclone, halias⟩
  cases hemit.symm.trans hemit'
  cases hdepends : dependsOnGenerics registration.ty generics with
  | false =>
      -- The constants are what is known, and nothing is checked.
      have hspelled : Spelled generics registration.ty known := by
        intro h
        rw [hdepends] at h
        cases h
      simp [Emitted.slot, hcopy, hclone, halias, hdepends, resolve, isCopy_eq, isClone_eq,
        select_known, hspelled]
  | true =>
      have hwritten := written_slot known localPolicy
        (hasExplicitCopyBound registration.ty generics)
        (hasExplicitCloneBound registration.ty generics) Types.hasExplicitCloneBound_of_copy
      simp only [Emitted.slot, hcopy, hclone, halias, hdepends, hstored, resolve, Spelled,
        if_true, Bool.not_false, Bool.and_true, Bool.true_and, Bool.not_not, Option.bind_some,
        forall_const]
      exact hwritten

/-- A stored value is kept in the slot for what the compiler knows about it, in generic code as
outside of it.  Generic code compiles exactly when the bounds it spells are the bounds that hold; a
value type projected from a child keeps the policy it has there, whatever is known about it. -/
theorem storage_selected (generics : Generics) (localPolicy : Bool) (registration : Registered)
    (lifetimes : List Ident) (known : Known)
    (children : Node → Node → Node → Bool → Option Policy) (hstored : registration.fresh = false) :
    ∃ emitted, emit generics localPolicy registration lifetimes = some emitted ∧
      (¬Inherits generics registration.ty →
        emitted.slot known children localPolicy =
          if Spelled generics registration.ty known then some (known.slot localPolicy)
          else none) ∧
      (Inherits generics registration.ty → ∃ owner path key,
        ChildProjection owner path key
          (if registration.constructor then registration.ty
            else (lift registration.ty lifetimes).1) ∧
        emitted.slot known children localPolicy =
          (children owner path key localPolicy).bind (select known)) := by
  by_cases hinherits : Inherits generics registration.ty
  · rcases @emit_inherits generics localPolicy registration hinherits lifetimes with
      ⟨emitted, owner, path, key, hemit, hcopy, hclone, halias, hprojection⟩
    refine ⟨emitted, hemit, fun h => absurd hinherits h, fun _ => ⟨owner, path, key, ?_, ?_⟩⟩
    · exact hprojection
    · simp [Emitted.slot, hcopy, hclone, halias, resolve]
  · rcases @emit_declared generics localPolicy registration hinherits lifetimes with
      ⟨emitted, hemit, _⟩
    refine ⟨emitted, hemit, fun _ => ?_, fun h => absurd h hinherits⟩
    exact declared_slot hinherits hstored lifetimes known children hemit

/-- `T` of `fn main<T: Clone>` -/
def cloneGenerics : Generics :=
  ⟨[.type ⟨false, "T"⟩ [.node (.traitBound false []) [Types.simplePath .type "Clone" []]] none],
    none⟩

theorem storage_selected_clone :
    ∃ emitted,
      emit cloneGenerics true ⟨Types.simplePath .type "T" [], false, false⟩ [] = some emitted ∧
        emitted.slot ⟨false, true, by simp⟩ (fun _ _ _ _ => none) true = some .read := by
  rcases storage_selected cloneGenerics true ⟨Types.simplePath .type "T" [], false, false⟩ []
    ⟨false, true, by simp⟩ (fun _ _ _ _ => none) rfl with ⟨emitted, hemit, hslot, _⟩
  have hcopy : hasExplicitCopyBound (Types.simplePath .type "T" []) cloneGenerics = false := by
    decide +kernel
  have hclone : hasExplicitCloneBound (Types.simplePath .type "T" []) cloneGenerics = true := by
    decide +kernel
  refine ⟨emitted, hemit, (hslot ?_).trans ?_⟩
  · rintro ⟨_, _, hnone, _⟩
    rw [hclone] at hnone
    cases hnone
  · exact if_pos fun _ => ⟨hcopy, hclone⟩

end Slot

end Policies
end Systasis
