import Systasis.Scoped.Routes
import Systasis.Storage.Policy

/-!
# Inheritance — the policy of a value registered again in a parent

Model of `SlotPolicy` and `RebindPolicy` in `src/scoped.rs` and of the implementations of
`RegistrationPolicy` in `scopegen.rs` and `child_codegen.rs`.  The latter have the heads and the
where-clauses of those of `Registered`, so a policy is found where the value type is.
-/

namespace Systasis
namespace Policies

open Syntax (Ident)
open Systasis.Types (Node Generics dependsOnGenerics hasExplicitCopyBound hasExplicitCloneBound)
open Scoped (Container Child Accepted Spells Scope typeQuery walk accessor reach stored)

/-- What a registration implements `RegistrationPolicy` from: its slot, or the policy written for a
constructor. -/
inductive Origin where
  | slot (slot : Slot)
  | fresh (policy : Policy)
  deriving DecidableEq, Repr

/-- `SlotPolicy` and `RebindPolicy` -/
def Origin.policy (localPolicy : Bool) : Origin → Policy
  | .slot .copy => ⟨true, localPolicy, false⟩
  | .slot .read => ⟨false, localPolicy, true⟩
  | .slot .localTake => ⟨false, localPolicy, false⟩
  | .slot .take => ⟨false, localPolicy, false⟩
  | .fresh policy => ⟨policy.copy, localPolicy, policy.clone⟩

/-- A registration of a container in a tree: the code it is declared in, what the compiler knows
there, and the child query its type was written as, if it was one. -/
structure Value where
  generics : Generics
  localPolicy : Bool
  registration : Registered
  lifetimes : List Ident
  known : Known
  segments : List String
  interface : String
  origin : Origin

/-- The policies projected from the children of a container. -/
def childPolicies (container : Container Value) (value : Value) :
    Node → Node → Node → Bool → Option Policy := fun _ _ _ localPolicy =>
  (typeQuery container value.segments value.interface).map fun found =>
    found.origin.policy localPolicy

/-- The registration compiles to what it implements its policy from. -/
def Settled (container : Container Value) (value : Value) : Prop :=
  ∃ emitted, emit value.generics value.localPolicy value.registration value.lifetimes =
      some emitted ∧
    match value.origin with
    | .slot slot =>
        value.registration.fresh = false ∧
          emitted.slot value.known (childPolicies container value) value.localPolicy = some slot
    | .fresh policy =>
        value.registration.fresh = true ∧
          resolve value.known (childPolicies container value) value.localPolicy
            emitted.aliasPolicy = some policy

/-- Every container of the tree compiles. -/
inductive Compiled : Container Value → Prop
  | mk {container : Container Value} :
      (∀ r ∈ container.registrations, Settled container r.ty) →
      (∀ child ∈ container.children, Compiled child.container) →
      Compiled container

/-- The decision a policy stands for, apart from the setting of the container. -/
inductive Decision where
  | copied
  | read
  | consumed
  deriving DecidableEq, Repr

def Policy.decision (policy : Policy) : Decision :=
  if policy.copy then .copied else if policy.clone then .read else .consumed

/-- The slot that carries out a decision. -/
def Decision.slot (localPolicy : Bool) : Decision → Slot
  | .copied => .copy
  | .read => .read
  | .consumed => if localPolicy then .localTake else .take

/-- The policy written for a value where it is declared. -/
def Value.written (value : Value) : Policy :=
  if dependsOnGenerics value.registration.ty value.generics then
    ⟨hasExplicitCopyBound value.registration.ty value.generics, value.localPolicy,
      hasExplicitCloneBound value.registration.ty value.generics⟩
  else ⟨value.known.copy, value.localPolicy, value.known.clone⟩

/-- Follows a value from container to container until it is declared with a policy of its own. -/
inductive Declares : Container Value → Value → Value → Prop
  | here {container : Container Value} {value : Value} :
      ¬Inherits value.generics value.registration.ty → Declares container value value
  | child {container : Container Value} {value declared : Value} {scope : Scope Value} {index : Nat}
      {r : Scoped.Registration Value} :
      Inherits value.generics value.registration.ty →
      Spells container value.segments value.interface scope index r →
      Declares scope.1 r.ty declared → Declares container value declared

/-! ## Policies and slots -/

theorem select_decision {known : Known} {policy : Policy} {slot : Slot}
    (h : select known policy = some slot) : slot = policy.decision.slot policy.localPolicy := by
  rw [select_eq] at h
  rcases policy with ⟨copy, localPolicy, clone⟩
  cases copy <;> cases clone <;> cases localPolicy <;>
    simp_all [Policy.decision, Decision.slot]

theorem slot_decision (decision : Decision) (localPolicy other : Bool) :
    ((Origin.slot (decision.slot localPolicy)).policy other).decision = decision := by
  cases decision <;> cases localPolicy <;> rfl

theorem fresh_decision (policy : Policy) (localPolicy : Bool) :
    ((Origin.fresh policy).policy localPolicy).decision = policy.decision :=
  rfl

/-- A registration carries out a decision: in its slot, under the setting of its container, and in
what it implements `RegistrationPolicy` from. -/
structure Keeps (value : Value) (decision : Decision) : Prop where
  slot : ∀ slot, value.origin = .slot slot → slot = decision.slot value.localPolicy
  policy : ∀ localPolicy, (value.origin.policy localPolicy).decision = decision

theorem Keeps.of_slot {value : Value} {decision : Decision}
    (h : value.origin = .slot (decision.slot value.localPolicy)) : Keeps value decision where
  slot slot hslot := by
    rw [h] at hslot
    cases hslot
    rfl
  policy localPolicy := by
    rw [h]
    exact slot_decision decision value.localPolicy localPolicy

theorem Keeps.of_fresh {value : Value} {policy : Policy} (h : value.origin = .fresh policy) :
    Keeps value policy.decision where
  slot slot hslot := by
    rw [h] at hslot
    cases hslot
  policy localPolicy := by
    rw [h]
    exact fresh_decision policy localPolicy

theorem slot_eq_decision (known : Known) (localPolicy : Bool) :
    known.slot localPolicy =
      (Policy.decision ⟨known.copy, localPolicy, known.clone⟩).slot localPolicy := by
  unfold Known.slot Policy.decision
  cases known.copy <;> cases known.clone <;> rfl

/-! ## One registration -/

theorem written_of_spelled {value : Value}
    (h : Spelled value.generics value.registration.ty value.known) :
    value.written = ⟨value.known.copy, value.localPolicy, value.known.clone⟩ := by
  unfold Value.written
  by_cases hdepends : dependsOnGenerics value.registration.ty value.generics = true
  · rcases h hdepends with ⟨hcopy, hclone⟩
    simp [hdepends, hcopy, hclone]
  · simp [hdepends]

/-- A registration with a policy of its own keeps what that says. -/
theorem Settled.declared {container : Container Value} {value : Value}
    (h : Settled container value)
    (hdeclared : ¬Inherits value.generics value.registration.ty) :
    Keeps value value.written.decision := by
  rcases h with ⟨emitted, hemit, horigin⟩
  cases hkind : value.origin with
  | slot slot =>
      rw [hkind] at horigin
      rcases horigin with ⟨hstored, hslot⟩
      have hselected := declared_slot hdeclared hstored value.lifetimes value.known
        (childPolicies container value) hemit
      rw [hslot] at hselected
      by_cases hspelled : Spelled value.generics value.registration.ty value.known
      · rw [if_pos hspelled, slot_eq_decision, ← written_of_spelled hspelled] at hselected
        cases hselected
        exact .of_slot hkind
      · rw [if_neg hspelled] at hselected
        cases hselected
  | fresh policy =>
      rw [hkind] at horigin
      rcases @emit_declared value.generics value.localPolicy value.registration hdeclared
        value.lifetimes with ⟨emitted', hemit', _, _, halias⟩
      cases hemit.symm.trans hemit'
      have hwritten : policy = value.written := by
        have hpolicy := horigin.2
        rw [halias] at hpolicy
        unfold Value.written
        by_cases hdepends : dependsOnGenerics value.registration.ty value.generics = true
        · rw [if_pos hdepends] at hpolicy ⊢
          exact (Option.some.inj hpolicy).symm
        · rw [if_neg hdepends] at hpolicy ⊢
          simp only [resolve, isCopy_eq, isClone_eq] at hpolicy
          exact (Option.some.inj hpolicy).symm
      exact hwritten ▸ .of_fresh hkind

/-- A registration that takes its policy from a child finds one there and keeps what it says. -/
theorem Settled.inherits {container : Container Value} {value : Value}
    (h : Settled container value) (hinherits : Inherits value.generics value.registration.ty) :
    ∃ found, typeQuery container value.segments value.interface = some found ∧
      ∀ decision, Keeps found decision → Keeps value decision := by
  rcases h with ⟨emitted, hemit, horigin⟩
  rcases @emit_inherits value.generics value.localPolicy value.registration hinherits
    value.lifetimes with ⟨emitted', owner, path, key, hemit', hcopy, hclone, halias, _⟩
  cases hemit.symm.trans hemit'
  cases hkind : value.origin with
  | slot slot =>
      rw [hkind] at horigin
      have hslot := horigin.2
      simp only [Emitted.slot, hcopy, hclone, halias, resolve, Bool.not_false, Bool.true_or,
        Bool.and_self, if_true] at hslot
      rcases Option.bind_eq_some_iff.1 hslot with ⟨policy, hpolicy, hselect⟩
      rcases Option.map_eq_some_iff.1 hpolicy with ⟨found, hfound, rfl⟩
      refine ⟨found, hfound, fun decision hkeeps => ?_⟩
      have hsame := hkeeps.policy value.localPolicy
      have hlocal : (found.origin.policy value.localPolicy).localPolicy = value.localPolicy := by
        rcases found.origin with (_ | _ | _ | _) | _ <;> rfl
      have hslot := select_decision hselect
      rw [hsame, hlocal] at hslot
      exact .of_slot (hslot ▸ hkind)
  | fresh policy =>
      rw [hkind] at horigin
      have hpolicy := horigin.2
      rw [halias] at hpolicy
      rcases Option.map_eq_some_iff.1 hpolicy with ⟨found, hfound, rfl⟩
      refine ⟨found, hfound, fun decision hkeeps => ?_⟩
      exact hkeeps.policy value.localPolicy ▸ .of_fresh hkind

/-! ## A tree of containers -/

/-- What holds of every registration of a container. -/
def Decided (container : Container Value) : Prop :=
  ∀ r ∈ container.registrations, ∃ declared, Declares container r.ty declared ∧
    Keeps r.ty declared.written.decision

theorem Compiled.inv {container : Container Value} (h : Compiled container) :
    (∀ r ∈ container.registrations, Settled container r.ty) ∧
      ∀ child ∈ container.children, Compiled child.container := by
  cases h with
  | mk hregistrations hchildren => exact ⟨hregistrations, hchildren⟩

/-- The step: a container whose descendants are decided is decided. -/
theorem Compiled.step {container : Container Value} (h : Compiled container)
    (haccepted : Accepted container)
    (hbelow : ∀ names scope, reach container names = some scope → Decided scope.1) :
    Decided container := by
  intro r hr
  have hsettled := h.inv.1 r hr
  by_cases hinherits : Inherits r.ty.generics r.ty.registration.ty
  · rcases hsettled.inherits hinherits with ⟨found, hfound, hkeeps⟩
    rcases Scoped.spells_of_typeQuery haccepted hfound with ⟨scope, index, r', hspells, rfl⟩
    rcases hspells.spelled with ⟨names, ns, _, hreach, _⟩
    rcases hbelow names scope hreach r' (List.mem_of_getElem? hspells.stored) with
      ⟨declared, hdeclares, hkept⟩
    exact ⟨declared, .child hinherits hspells hdeclares, hkeeps _ hkept⟩
  · exact ⟨r.ty, .here hinherits, hsettled.declared hinherits⟩

/-- By induction over the tree, every container reached is decided. -/
theorem Compiled.decided {container : Container Value} (h : Compiled container)
    (haccepted : Accepted container) (mask : Scoped.Mask) (names : List String)
    {scope : Scope Value} (hwalk : walk (container, mask) names = some scope) :
    Decided scope.1 := by
  induction h generalizing mask names scope with
  | @mk container hregistrations hchildren ih =>
      have hchild : ∀ child ∈ container.children, ∀ mask names {scope : Scope Value},
          walk (child.container, mask) names = some scope → Decided scope.1 :=
        fun child hmem mask names _ hwalk =>
          ih child hmem (haccepted.inv.2 child hmem) mask names hwalk
      cases names with
      | nil =>
          cases hwalk
          refine (Compiled.mk hregistrations hchildren).step haccepted ?_
          intro names scope hreach
          cases names with
          | nil => cases hreach
          | cons name names =>
              rcases Option.bind_eq_some_iff.1 hreach with ⟨next, hstored, hrest⟩
              rcases Option.map_eq_some_iff.1 hstored with ⟨⟨_, restrictions, inner⟩, hfind, rfl⟩
              exact hchild _ (List.mem_of_find?_eq_some hfind) restrictions names hrest
      | cons name names =>
          rw [Scoped.walk_cons] at hwalk
          rcases Option.bind_eq_some_iff.1 hwalk with ⟨next, haccessor, hrest⟩
          rcases Scoped.accessor_some haccessor with ⟨front, restrictions, back, hmem, _⟩
          exact hchild (.mk name restrictions next.1) (by simp [hmem]) next.2 names hrest

/-- However many containers a value is projected through, its policy is that written where it is
declared: the projections end there, the slot that holds the value carries out that decision under
the local setting of the container it is in, and so does every policy projected from it. -/
theorem storage_inherited {root : Container Value} (haccepted : Accepted root)
    (hcompiled : Compiled root) {mask : Scoped.Mask} {names : List String} {scope : Scope Value}
    (hwalk : walk (root, mask) names = some scope) {r : Scoped.Registration Value}
    (hr : r ∈ scope.1.registrations) :
    ∃ declared, Declares scope.1 r.ty declared ∧
      (∀ slot, r.ty.origin = .slot slot →
        slot = declared.written.decision.slot r.ty.localPolicy) ∧
      ∀ localPolicy,
        (r.ty.origin.policy localPolicy).decision = declared.written.decision := by
  rcases hcompiled.decided haccepted mask names hwalk r hr with ⟨declared, hdeclares, hkeeps⟩
  exact ⟨declared, hdeclares, hkeeps.slot, hkeeps.policy⟩

/-- `T` of `fn main<T>` -/
def plainGenerics : Generics :=
  ⟨[.type ⟨false, "T"⟩ [] none], none⟩

/-- `<T as systasis::scoped::Registered<Path, Key>>::Value` -/
def projection : Node :=
  .node (.path .type false)
    [.node (.qself 3) [Types.simplePath .type "T" []], .node (.segment ⟨false, "systasis"⟩) [],
      .node (.segment ⟨false, "scoped"⟩) [],
      .node (.segment ⟨false, "Registered"⟩)
        [.node (.angle false)
          [Types.simplePath .type "Path" [], Types.simplePath .type "Key" []]],
      .node (.segment ⟨false, "Value"⟩) []]

/-- Declared in a local container, where neither `Copy` nor `Clone` is known. -/
def leafValue : Value where
  generics := plainGenerics
  localPolicy := true
  registration := ⟨Types.simplePath .type "Text" [], false, false⟩
  lifetimes := []
  known := ⟨false, false, id⟩
  segments := []
  interface := ""
  origin := .slot .localTake

/-- Registered again where the type turns out to be `Copy`. -/
def parentValue : Value where
  generics := plainGenerics
  localPolicy := false
  registration := ⟨projection, false, false⟩
  lifetimes := []
  known := ⟨true, true, fun h => h⟩
  segments := ["leaf"]
  interface := "i"
  origin := .slot .take

def leafContainer : Container Value :=
  .mk 1 [⟨none, "i", leafValue, .take, [], []⟩] []

def parentContainer : Container Value :=
  .mk 0 [⟨none, "i", parentValue, .take, [], []⟩] [.mk "leaf" .empty leafContainer]

theorem parent_inherits : Inherits plainGenerics projection := by
  refine ⟨by decide +kernel, by decide +kernel, by decide +kernel, _, _, _, .mk ?_⟩
  decide +kernel

theorem leaf_declared : ¬Inherits leafValue.generics leafValue.registration.ty := by
  rintro ⟨hdepends, _⟩
  have hplain : dependsOnGenerics leafValue.registration.ty leafValue.generics = false := by
    decide +kernel
  rw [hplain] at hdepends
  cases hdepends

theorem parent_accepted : Accepted parentContainer := by
  have hleaf : Accepted leafContainer := by
    refine @Accepted.mk Value 1 [⟨none, "i", leafValue, .take, [], []⟩] [] _ ?_ (by simp)
    simp [leafContainer, Scoped.expand, Scoped.winners, Scoped.named]
  refine @Accepted.mk Value 0 [⟨none, "i", parentValue, .take, [], []⟩]
    [.mk "leaf" .empty leafContainer] _ ?_ ?_
  · simp [parentContainer, Scoped.expand, Scoped.winners, Scoped.named, Child.name]
  · simp [Child.container, hleaf]

theorem leaf_compiled : Compiled leafContainer := by
  refine .mk ?_ (by simp [leafContainer, Container.children])
  simp only [leafContainer, Container.registrations, List.mem_singleton, forall_eq]
  rcases @emit_declared leafValue.generics true leafValue.registration leaf_declared []
    with ⟨emitted, hemit, _⟩
  refine ⟨emitted, hemit, rfl, ?_⟩
  have hslot := declared_slot leaf_declared rfl [] leafValue.known
    (childPolicies leafContainer leafValue) hemit
  have hspelled : Spelled leafValue.generics leafValue.registration.ty leafValue.known := by
    decide +kernel
  rw [if_pos hspelled] at hslot
  exact hslot

theorem parent_compiled : Compiled parentContainer := by
  refine .mk ?_ ?_
  · simp only [parentContainer, Container.registrations, List.mem_singleton, forall_eq]
    rcases @emit_inherits parentValue.generics false parentValue.registration parent_inherits []
      with ⟨emitted, owner, path, key, hemit, hcopy, hclone, halias, _⟩
    refine ⟨emitted, hemit, rfl, ?_⟩
    have hquery : typeQuery parentContainer ["leaf"] "i" = some leafValue := by
      have hreach : reach parentContainer ["leaf"] = some (leafContainer, .empty) := by
        simp [reach, stored, parentContainer, Container.children, Child.name, walk]
      have hspells : Spells parentContainer ["leaf"] "i" (leafContainer, .empty) 0
          ⟨none, "i", leafValue, .take, [], []⟩ :=
        ⟨⟨["leaf"], none, rfl, hreach, rfl⟩, rfl, rfl⟩
      exact Scoped.typeQuery_of_spells parent_accepted hspells
    have hpolicy : childPolicies parentContainer parentValue owner path key false =
        some ⟨false, false, false⟩ := by
      simp only [childPolicies]
      rw [show parentValue.segments = ["leaf"] from rfl, show parentValue.interface = "i" from rfl,
        hquery]
      rfl
    simp only [Emitted.slot, hcopy, hclone, halias, resolve, Bool.not_false, Bool.true_or,
      Bool.and_self, if_true]
    exact (congrArg (Option.bind · (select parentValue.known)) hpolicy).trans rfl
  · simp [parentContainer, Container.children, Child.container, leaf_compiled]

theorem storage_inherited_pair :
    ∃ declared, Declares parentContainer parentValue declared ∧
      .take = declared.written.decision.slot false := by
  rcases @storage_inherited parentContainer parent_accepted parent_compiled .empty []
    (parentContainer, .empty) rfl ⟨none, "i", parentValue, .take, [], []⟩
    (by simp [parentContainer, Container.registrations]) with ⟨declared, hdeclares, hslot, _⟩
  exact ⟨declared, hdeclares, hslot _ rfl⟩

end Policies
end Systasis
