import Systasis.Scoped.Selection

/-!
# Restriction — a descriptor never gives back what it excludes

Two halves.  Every step between descriptors adds to the mask, seen from the place it leads to.  And
the where-clauses of a resolver cover all that its method can do on the unrestricted container: the
keys it must find unblocked are those of the slots its constructors take, and its child calls must
dispatch under the restrictions the descriptor has for the child.
-/

namespace Systasis
namespace Scoped

open Syntax Build

variable {unchecked : Bool}

/-! ## Masks along chains of steps -/

/-- `Blocked<k>` at a child path. -/
def Mask.blocksAt (mask : Mask) (place : List Key) (k : Key) : Bool :=
  (mask.along place).blocked k

theorem blocksAt_iff {mask : Mask} {place : List Key} {k : Key} :
    mask.blocksAt place k = true ↔ (place, k) ∈ mask.denotes := by
  rw [Mask.blocksAt, blocked_iff_mem, mem_along, List.append_nil]

/-- What steps add on the way: the masks of the stored children they pass, and those of `rescope`,
each seen from the end. -/
inductive Added : Instance unchecked → List Step → List Key → Key → Prop
  | stored {inst : Instance unchecked} {name : String} {p : Fin inst.declaration.children.length}
      {steps : List Step} {path : List Key} {k : Key} :
      inst.position name = some p →
        (inst.restrictions p).blocksAt (placeOf steps ++ path) k = true →
          Added inst (.accessor name :: steps) path k
  | more {inst : Instance unchecked} {more : Mask} {steps : List Step} {path : List Key} {k : Key} :
      more.blocksAt (placeOf steps ++ path) k = true → Added inst (.rescope more :: steps) path k
  | inner {inst : Instance unchecked} {name : String} {p : Fin inst.declaration.children.length}
      {steps : List Step} {path : List Key} {k : Key} :
      inst.position name = some p → Added (inst.instances p) steps path k →
        Added inst (.accessor name :: steps) path k
  | later {inst : Instance unchecked} {more : Mask} {steps : List Step} {path : List Key} {k : Key} :
      Added inst steps path k → Added inst (.rescope more :: steps) path k

theorem added_rescope {inst : Instance unchecked} {more : Mask} {steps : List Step}
    {path : List Key} {k : Key} :
    Added inst (.rescope more :: steps) path k ↔
      more.blocksAt (placeOf steps ++ path) k = true ∨ Added inst steps path k := by
  refine ⟨?_, ?_⟩
  · intro h
    cases h with
    | more h => exact .inl h
    | later h => exact .inr h
  · rintro (h | h)
    · exact .more h
    · exact .later h

theorem added_accessor {inst : Instance unchecked} {name : String}
    {p : Fin inst.declaration.children.length} (hp : inst.position name = some p)
    {steps : List Step} {path : List Key} {k : Key} :
    Added inst (.accessor name :: steps) path k ↔
      (inst.restrictions p).blocksAt (placeOf steps ++ path) k = true ∨
        Added (inst.instances p) steps path k := by
  refine ⟨?_, ?_⟩
  · intro h
    cases h with
    | stored hp' h =>
        cases hp.symm.trans hp'
        exact .inl h
    | inner hp' h =>
        cases hp.symm.trans hp'
        exact .inr h
  · rintro (h | h)
    · exact .stored hp h
    · exact .inner hp h

theorem childName_of_position {inst : Instance unchecked} {name : String}
    {p : Fin inst.declaration.children.length} (h : inst.position name = some p) :
    inst.declaration.childName p = name := by
  have hname := List.find?_some h
  simpa using hname

@[simp] theorem Instance.scope_backing (inst : Instance unchecked) (mask : Mask) :
    (inst.scope mask).backing = inst := by
  cases inst
  rfl

@[simp] theorem Instance.scope_restrictions (inst : Instance unchecked) (mask : Mask) :
    (inst.scope mask).restrictions = mask := by
  cases inst
  rfl

/-- The children of a descriptor are the stored ones, rescoped. -/
theorem accessor_scope (inst : Instance unchecked) (mask : Mask) (name : String) :
    (inst.scope mask).accessor name =
      (inst.position name).map fun p =>
        (inst.stored p).rescope (mask.forChild (key (inst.declaration.childName p))) := by
  cases inst with
  | mk id declaration restrictions instances =>
      simp only [Descriptor.rescope, Instance.stored, Instance.scope_backing,
        Instance.scope_restrictions]
      rfl

/-- Every descriptor a chain reaches is a scope of the instance at its place. -/
theorem follow_scope {inst : Instance unchecked} {mask : Mask} {steps : List Step}
    {d : Descriptor unchecked} (h : (inst.scope mask).follow steps = some d) :
    ∃ node mask', At inst (placeOf steps) node ∧ d = node.scope mask' ∧
      ∀ path k, mask'.blocksAt path k = true ↔
        mask.blocksAt (placeOf steps ++ path) k = true ∨ Added inst steps path k := by
  induction steps generalizing inst mask with
  | nil =>
      cases h
      refine ⟨inst, mask, .here inst, rfl, ?_⟩
      intro path k
      refine ⟨.inl, ?_⟩
      rintro (h | h)
      · exact h
      · cases h
  | cons step steps ih =>
      rw [Descriptor.follow, List.foldlM_cons] at h
      rcases Option.bind_eq_some_iff.1 h with ⟨next, hstep, hrest⟩
      cases step with
      | rescope more =>
          cases hstep
          simp only [Descriptor.rescope, Instance.scope_backing, Instance.scope_restrictions] at hrest
          rcases ih hrest with ⟨node, mask', hat, heq, hblocks⟩
          refine ⟨node, mask', hat, heq, ?_⟩
          intro path k
          rw [hblocks, added_rescope, ← or_assoc]
          refine or_congr ?_ Iff.rfl
          simp [blocksAt_iff, Mask.denotes, placeOf]
      | accessor name =>
          rw [Step.apply, accessor_scope] at hstep
          rcases Option.map_eq_some_iff.1 hstep with ⟨p, hp, rfl⟩
          have hname := childName_of_position hp
          simp only [Descriptor.rescope, Instance.stored, Instance.scope_backing,
            Instance.scope_restrictions] at hrest
          rcases ih hrest with ⟨node, mask', hat, heq, hblocks⟩
          refine ⟨node, mask', ?_, heq, ?_⟩
          · have hhere := At.child p hat
            rw [hname] at hhere
            exact hhere
          · intro path k
            rw [hblocks, added_accessor hp, hname]
            -- The restrictions for the child are those below its name.
            have hunion : (Mask.union (inst.restrictions p) (mask.forChild (key name))).blocksAt
                (placeOf steps ++ path) k = true ↔
                mask.blocksAt (placeOf (.accessor name :: steps) ++ path) k = true ∨
                  (inst.restrictions p).blocksAt (placeOf steps ++ path) k = true := by
              simp only [blocksAt_iff, Mask.denotes, Set.mem_union, mem_forChild]
              exact or_comm
            rw [hunion, or_assoc]

/-! ## What the where-clauses allow -/

/-- The where-clauses that a resolver has for its constructor. -/
structure Allowed (inst : Instance unchecked) (mask : Mask) (i : Fin inst.declaration.size) :
    Prop where
  consumed : ∀ s ∈ inst.declaration.out.consumed i,
    mask.blocked (inst.declaration.maskKey s) = false
  calls : ∀ call ∈ inst.declaration.out.calls i, ∀ op : Operation, op.text = call.operation →
    tupleOf (childHolds unchecked mask (pathOf call.path) (key call.interface) op)
      (key call.child) 0 inst.container.children ≠ []

theorem ChildCall.of_eq {call : Analysis.Call} {op : Operation} (h : op.text = call.operation) :
    ChildCall.of call =
      some ⟨Scoped.key call.child, pathOf call.path, Scoped.key call.interface, op⟩ := by
  rw [ChildCall.of, ← h]
  cases op <;> simp [Operation.all, Operation.text]

theorem scopeHolds_spec {inst : Instance unchecked} {mask : Mask} {op : Operation}
    {i : Fin inst.declaration.size}
    (h : scopeHolds unchecked op (inst.container, mask) (inst.declaration.entry i) = true) :
    Allowed inst mask i ∧
      (op.takes = true → (inst.declaration.slot i).isFresh = false →
        mask.blocked (inst.declaration.maskKey i) = false) := by
  simp only [scopeHolds, permitted, Bool.and_eq_true, List.all_eq_true, Bool.not_eq_true'] at h
  rcases h with ⟨⟨_, hguarded⟩, hcalls⟩
  refine ⟨⟨?_, ?_⟩, ?_⟩
  · intro s hs
    refine hguarded _ (List.mem_append_left _ ?_)
    exact List.mem_map.2 ⟨s, Graph.mem_iter.2 hs, rfl⟩
  · intro call hcall op hop hempty
    have hcallable := hcalls _ (List.mem_filterMap.2 ⟨call, hcall, ChildCall.of_eq hop⟩)
    rw [tupleImplementations_eq, hempty] at hcallable
    cases hcallable
  · intro htakes hstored
    refine hguarded _ (List.mem_append_right _ ?_)
    have hslot : (inst.declaration.entry i).slot.isFresh = false := hstored
    simp only [htakes, hslot, Bool.not_false, Bool.and_self, if_true, List.mem_singleton]
    rfl

theorem slot_isFresh {declaration : Declaration unchecked} {i : Fin declaration.size}
    (hconstructor : (declaration.out.looked i).constructor = none)
    (hfresh : (declaration.out.looked i).fresh = false) :
    (declaration.slot i).isFresh = false := by
  simp only [Declaration.slot, hconstructor, hfresh, Option.isSome_none, Bool.false_eq_true, if_false]
  cases declaration.storage i <;> rfl

theorem takes_slotMethod (op : Operation) : takes op.slotMethod = op.takes := by
  cases op <;> rfl

/-- A constructor called by another is allowed what its caller is. -/
theorem Allowed.sibling {inst : Instance unchecked} {mask : Mask} {i j : Fin inst.declaration.size}
    (h : Allowed inst mask i)
    (hcall : Analysis.Constructs inst.declaration.out.looked
      (Analysis.indices inst.declaration.out.dispatched) i j) : Allowed inst mask j := by
  have hexpands := Analysis.expandQueries_ok inst.declaration.expanded
  refine ⟨?_, ?_⟩
  · intro s hs
    refine h.consumed s ((hexpands.mem_consumed i s).2 ?_)
    exact Lib.gathers_iff.2 (Or.inr ⟨j, hcall, (hexpands.mem_consumed j s).1 hs⟩)
  · intro call hmem
    refine h.calls call ((hexpands.mem_calls i call).2 ?_)
    exact Lib.gathers_iff.2 (Or.inr ⟨j, hcall, (hexpands.mem_calls j call).1 hmem⟩)

/-- All that a query of an allowed constructor can lead to is allowed too, where it leads. -/
theorem Asks.allowed {inst : Instance unchecked} {i : Fin inst.declaration.size}
    {target : Target unchecked} {method : Wiring.Method} (h : Asks inst i target method)
    (haccepted : Accepted inst.container) {mask : Mask} (hallowed : Allowed inst mask i) :
    ∃ place mask', At inst place target.node ∧ Carries mask place mask' ∧
      (target.registration.constructor.isSome → Allowed target.node mask' target.index) ∧
      (takes method = true → target.registration.constructor = none →
        target.registration.fresh = false → mask'.blocked target.maskKey = false) := by
  have hexpands := Analysis.expandQueries_ok inst.declaration.expanded
  cases h with
  | @sibling j method hrequest =>
      refine ⟨[], mask, .here inst, fun _ _ hmem => hmem, ?_, ?_⟩
      · intro hconstructor
        exact hallowed.sibling (hrequest.constructs hexpands hconstructor)
      · intro htakes hconstructor hfresh
        refine hallowed.consumed j ((hexpands.mem_consumed i j).2 ?_)
        exact Lib.gathers_iff.2 (Or.inl ⟨hrequest.takes htakes, hconstructor, hfresh⟩)
  | @child closure call op p target hclosure hcall hop hposition hdispatch =>
      have hrecorded : call ∈ inst.declaration.out.calls i :=
        (hexpands.mem_calls i call).2 (Lib.gathers_iff.2 (Or.inl ⟨closure, hclosure, hcall⟩))
      rcases List.exists_mem_of_ne_nil _ (hallowed.calls call hrecorded op hop) with
        ⟨index, hindex⟩
      rcases child_selected hindex with ⟨p', _, hname, himpls⟩
      -- The where-clause is about the very child that the constructor asks.
      have hsame : p' = p := by
        refine haccepted.childName_injective (key_injective (hname.trans ?_))
        rw [childName_of_position hposition]
      subst hsame
      rcases hdispatch.holds (haccepted.instances p') himpls with
        ⟨place, mask', hat, hcarries, hholds⟩
      rcases scopeHolds_spec hholds with ⟨htarget, htaken⟩
      refine ⟨_, mask', .child p' hat, hcarries.child, fun _ => htarget, ?_⟩
      intro htakes hconstructor hfresh
      rw [takes_slotMethod] at htakes
      exact htaken htakes (slot_isFresh hconstructor hfresh)

/-! ## What executions empty -/

section Executions

variable {V C : Type}

/-- A slot with a place that is not blocked. -/
def Free (inst : Instance unchecked) (mask : Mask) (address : Address) : Prop :=
  ∃ (place : List Key) (target : Target unchecked), At inst place target.node ∧
    target.address = address ∧ (place, target.maskKey) ∉ mask.denotes

/-- The only changes are that slots not blocked have been emptied. -/
def Within (inst : Instance unchecked) (mask : Mask) (slots slots' : Address → Contents V C) :
    Prop :=
  ∀ address, slots' address = slots address ∨
    (Free inst mask address ∧ Analysis.Emptied (slots address) (slots' address))

theorem Within.trans {inst : Instance unchecked} {mask : Mask}
    {slots slots' slots'' : Address → Contents V C} (h : Within inst mask slots slots')
    (h' : Within inst mask slots' slots'') : Within inst mask slots slots'' :=
  fun address => Analysis.emptied_trans (h address) (h' address)

/-- What is within the restrictions of a place below is within those of the whole. -/
theorem Within.lift {inst node : Instance unchecked} {mask mask' : Mask} {place : List Key}
    {slots slots' : Address → Contents V C} (h : Within node mask' slots slots')
    (hat : At inst place node) (hcarries : Carries mask place mask') :
    Within inst mask slots slots' := by
  intro address
  rcases h address with hsame | ⟨⟨place', target, hnode, haddress, hfree⟩, hemptied⟩
  · exact Or.inl hsame
  · refine Or.inr ⟨⟨place ++ place', target, hat.trans hnode, haddress, ?_⟩, hemptied⟩
    exact fun hmem => hfree (hcarries _ _ hmem)

theorem Stands.at {inst node : Instance unchecked} {place : List Key}
    {slots : Address → Contents V C} (h : Stands inst slots) (hat : At inst place node) :
    Stands node slots :=
  fun _ _ hnode => h _ _ (hat.trans hnode)

theorem Stands.within {inst inst' : Instance unchecked} {mask : Mask}
    {slots slots' : Address → Contents V C} (h : Stands inst slots)
    (hwithin : Within inst' mask slots slots') : Stands inst slots' := by
  intro place node hat
  exact (h place node hat).emptied fun j => (hwithin ⟨node.id, j⟩).imp id And.right

theorem accessed_within {target : Target unchecked} {mask : Mask} {method : Wiring.Method}
    {slots : Address → Contents V C} (hstands : Stands target.node slots)
    (hconstructor : target.registration.constructor = none)
    (hunblocked : takes method = true → target.registration.fresh = false →
      mask.blocked target.maskKey = false) :
    Within target.node mask slots (accessed slots target.address method) := by
  intro address
  by_cases haddress : address = target.address
  · subst haddress
    rw [accessed, Function.update_self]
    rcases Analysis.access_cases method (slots target.address) with hsame | ⟨htakes, hemptied⟩
    · exact Or.inl hsame
    · refine Or.inr ⟨⟨[], target, .here _, rfl, ?_⟩, hemptied⟩
      have hfresh : target.registration.fresh = false := by
        cases hfresh : target.registration.fresh with
        | false => rfl
        | true =>
            rcases hstands [] _ (.here _) target.index hconstructor hfresh with ⟨value, hvalue⟩
            rcases hemptied with ⟨_, hbefore, _⟩
            cases hvalue.symm.trans hbefore
      rw [← blocked_iff_mem, hunblocked htakes hfresh]
      exact Bool.false_ne_true
  · exact Or.inl (Function.update_of_ne haddress _ _)

/-- A constructor whose where-clauses hold empties no blocked slot, however it runs. -/
theorem Runs.within {inst : Instance unchecked} {i : Fin inst.declaration.size}
    {slots slots' : Address → Contents V C} (h : Runs inst i slots slots') :
    ∀ mask, Accepted inst.container → Stands inst slots → Allowed inst mask i →
      Within inst mask slots slots' := by
  induction h with
  | stop inst i slots => exact fun _ _ _ _ _ => Or.inl rfl
  | @access inst i target method slots slots' hasks hconstructor _ ih =>
      intro mask haccepted hstands hallowed
      rcases hasks.allowed haccepted hallowed with ⟨place, mask', hat, hcarries, _, htaken⟩
      have hone : Within inst mask slots (accessed slots target.address method) :=
        (accessed_within (hstands.at hat) hconstructor
          fun htakes => htaken htakes hconstructor).lift hat hcarries
      exact hone.trans (ih mask haccepted (hstands.within hone) hallowed)
  | @construct inst i target method slots slots' slots'' hasks hconstructor _ _ ih ih' =>
      intro mask haccepted hstands hallowed
      rcases hasks.allowed haccepted hallowed with ⟨place, mask', hat, hcarries, htarget, _⟩
      -- The callee runs under the restrictions carried to its place.
      have hone : Within inst mask slots slots' :=
        (ih mask' (haccepted.at hat) (hstands.at hat) (htarget hconstructor)).lift hat hcarries
      exact hone.trans (ih' mask haccepted (hstands.within hone) hallowed)

theorem Performs.within {op : Operation} {target : Target unchecked} {mask : Mask}
    {slots slots' : Address → Contents V C} (h : Performs op target slots slots')
    (haccepted : Accepted target.node.container) (hstands : Stands target.node slots)
    (hholds : scopeHolds unchecked op (target.node.container, mask)
      (target.node.declaration.entry target.index) = true) :
    Within target.node mask slots slots' := by
  rcases scopeHolds_spec hholds with ⟨hallowed, htaken⟩
  cases h with
  | access hconstructor =>
      refine accessed_within hstands hconstructor fun htakes hfresh => ?_
      rw [takes_slotMethod] at htakes
      exact htaken htakes (slot_isFresh hconstructor hfresh)
  | construct _ hruns => exact hruns.within mask haccepted hstands hallowed

end Executions

theorem Offers.holds {d : Descriptor unchecked} {op : Operation} {target : Target unchecked}
    (h : Offers d op target) (haccepted : Accepted d.backing.container) :
    ∃ place mask', At d.backing place target.node ∧ Carries d.restrictions place mask' ∧
      scopeHolds unchecked op (target.node.container, mask')
        (target.node.declaration.entry target.index) = true := by
  cases h with
  | @method ns interface _ j hmethod =>
      refine ⟨[], d.restrictions, .here _, fun _ _ hmem => hmem, ?_⟩
      rw [method_eq] at hmethod
      rcases Option.map_eq_some_iff.1 hmethod with ⟨index, hlookup, haddress⟩
      have hindex : index = j := congrArg Address.index haddress
      rcases lookup_spec hlookup with ⟨r, hr, _, _, hholds⟩
      rw [d.backing.container_registrations, hindex, List.getElem?_ofFn] at hr
      simp only [j.isLt, dif_pos, Option.some.injEq] at hr
      subst hr
      exact hholds
  | resolve hdispatch => exact hdispatch.holds haccepted hdispatch.implementations_ne_nil

/-! ## The two halves together -/

/-- No instance is at two places. -/
def Tree (root : Instance unchecked) : Prop :=
  ∀ place place' node node', At root place node → At root place' node' → node.id = node'.id →
    place = place'

/-- A restricted scope never gives back what it excludes.

A chain of accessors and `rescope` reaches a scope of the instance at its place.  Its mask blocks
what the first one blocks there, what the stored children passed on the way block, and what was
added, and nothing else.  And whatever a resolver runs whose where-clauses hold, the only changes to
slots are that slots with an unblocked place have been emptied; in a tree no blocked slot changes. -/
theorem scope_never_restores (root : Instance unchecked) (haccepted : Accepted root.container)
    (mask : Mask) (steps : List Step) (d : Descriptor unchecked)
    (hfollow : (root.scope mask).follow steps = some d) :
    (At root (placeOf steps) d.backing ∧ d = d.backing.scope d.restrictions) ∧
    (∀ path k, d.restrictions.blocksAt path k = true ↔
      mask.blocksAt (placeOf steps ++ path) k = true ∨ Added root steps path k) ∧
    (∀ front back d₀, steps = front ++ back → (root.scope mask).follow front = some d₀ →
      ∀ path k, d₀.restrictions.blocksAt (placeOf back ++ path) k = true →
        d.restrictions.blocksAt path k = true) ∧
    ∀ (V C : Type) (op : Operation) (target : Target unchecked)
      (slots slots' : Address → Contents V C),
      Offers d op target → Stands d.backing slots → Performs op target slots slots' →
      (∀ address, slots' address = slots address ∨
        (Analysis.Emptied (slots address) (slots' address) ∧
          ∃ (place : List Key) (emptied : Target unchecked),
            At d.backing place emptied.node ∧ emptied.address = address ∧
              d.restrictions.blocksAt place emptied.maskKey = false)) ∧
      (Tree root → ∀ (place : List Key) (blocked : Target unchecked),
        At d.backing place blocked.node →
        d.restrictions.blocksAt place blocked.maskKey = true →
          slots' blocked.address = slots blocked.address) := by
  rcases follow_scope hfollow with ⟨node, mask', hat, rfl, hblocks⟩
  simp only [Instance.scope_backing, Instance.scope_restrictions]
  refine ⟨⟨hat, trivial⟩, hblocks, ?_, ?_⟩
  · intro front back d₀ hsteps hfront path k hblocked
    subst hsteps
    rcases follow_scope hfront with ⟨node₀, mask₀, _, rfl, _⟩
    -- What is left of the chain starts at the scope in between.
    have hback : (node₀.scope mask₀).follow back = some (node.scope mask') := by
      rw [Descriptor.follow, List.foldlM_append] at hfollow
      rcases Option.bind_eq_some_iff.1 hfollow with ⟨middle, hmiddle, hrest⟩
      cases hfront.symm.trans hmiddle
      exact hrest
    rcases follow_scope hback with ⟨node₁, mask₁, _, heq, hblocks₁⟩
    have hmask : mask' = mask₁ := by
      simpa using congrArg Descriptor.restrictions heq
    rw [hmask]
    exact (hblocks₁ path k).2 (Or.inl (by simpa using hblocked))
  · intro V C op target slots slots' hoffers hstands hperforms
    have hnode := haccepted.at hat
    -- A where-clause that holds leads to a target whose own clause holds under the mask there.
    rcases hoffers.holds (by simpa using hnode) with ⟨place, carried, hplace, hcarries, hholds⟩
    rw [Instance.scope_backing] at hplace
    rw [Instance.scope_restrictions] at hcarries
    -- A run changes only what its target may reach, and that place lies below this one.
    have hwithin : Within node mask' slots slots' :=
      (hperforms.within (hnode.at hplace) (hstands.at hplace) hholds).lift hplace hcarries
    have hfree : ∀ address, slots' address = slots address ∨
        (Analysis.Emptied (slots address) (slots' address) ∧
          ∃ (place : List Key) (emptied : Target unchecked),
            At node place emptied.node ∧ emptied.address = address ∧
              mask'.blocksAt place emptied.maskKey = false) := by
      intro address
      refine (hwithin address).imp id ?_
      rintro ⟨⟨place, emptied, hemptied, haddress, hunblocked⟩, hchanged⟩
      refine ⟨hchanged, place, emptied, hemptied, haddress, ?_⟩
      rw [← blocksAt_iff] at hunblocked
      exact Bool.eq_false_of_not_eq_true hunblocked
    refine ⟨hfree, ?_⟩
    intro htree place blocked hblocked hmask
    rcases hfree blocked.address with hsame | ⟨_, place', emptied, hemptied, haddress, hunblocked⟩
    · exact hsame
    · -- One instance, one place: the slot emptied would be blocked.
      have hid : emptied.node.id = blocked.node.id := congrArg Address.id haddress
      have hplaces := htree _ _ _ _ (hat.trans hemptied) (hat.trans hblocked) hid
      cases List.append_cancel_left hplaces
      have hkeys : emptied.maskKey = blocked.maskKey := by
        rcases emptied with ⟨inst, index⟩
        rcases blocked with ⟨inst', index'⟩
        cases hemptied.unique hblocked hnode
        have hindex : index = index' := Fin.ext (congrArg Address.index haddress)
        rw [hindex]
      rw [hkeys, hmask] at hunblocked
      cases hunblocked

/-! ## A container with one child -/

/-- The declaration of registrations that expansion accepts. -/
def Declaration.of {n : Nat} (children : List Analysis.ChildRegistration)
    (registrations : Fin n → Analysis.Registration) (storage : Fin n → Storage)
    (default : Fin n → Bool)
    (h : (Analysis.expandQueries children unchecked registrations).toOption.isSome = true) :
    Declaration unchecked where
  size := n
  children := children
  registrations := registrations
  out := (Analysis.expandQueries children unchecked registrations).toOption.get h
  expanded := by
    revert h
    generalize Analysis.expandQueries children unchecked registrations = result
    intro h
    cases result with
    | error error => cases h
    | ok out => rfl
  storage := storage
  default := default

/-- Expansion accepts names that are as it leaves them. -/
theorem expand_eq_ok {T : Type} {id : Nat} {registrations : List (Registration T)}
    {children : List (Child T)} (hnames : ∀ r ∈ registrations, named r.ns = r.ns)
    (hdistinct : registrations.Pairwise fun r r' => r.identity ≠ r'.identity)
    (hdefault : ∀ child ∈ children, child.name ≠ "default")
    (hnodup : (children.map Child.name).Nodup)
    (hapart : ∀ child ∈ children, ∀ r ∈ registrations, r.ns ≠ some child.name) :
    expand id registrations children = .ok (.mk id registrations children) := by
  have hnamed : registrations.map (fun r => { r with ns := named r.ns }) = registrations := by
    refine (List.map_congr_left ?_).trans (List.map_id registrations)
    intro r hr
    rw [hnames r hr]
    rfl
  have hwinners : ∀ l : List (Registration T),
      l.Pairwise (fun r r' => r.identity ≠ r'.identity) → winners l = l := by
    intro l hl
    induction l with
    | nil => rfl
    | cons first rest ih =>
        rcases List.pairwise_cons.1 hl with ⟨hfirst, hrest⟩
        have hlast : rest.any (fun later => later.identity == first.identity) = false := by
          simp only [List.any_eq_false, beq_iff_eq]
          exact fun later hlater heq => hfirst later hlater heq.symm
        simp [winners, hlast, ih hrest]
  have hno : children.any (fun child => child.name == "default") = false := by
    simp only [List.any_eq_false, beq_iff_eq]
    exact hdefault
  have hclear : (children.any fun child => registrations.any fun r => r.ns == some child.name) =
      false := by
    simp only [List.any_eq_false, beq_iff_eq, Bool.not_eq_true]
    exact fun child hchild r hr => hapart child hchild r hr
  simp [expand, hnamed, hwinners registrations hdistinct, hno, hnodup, hclear]

/-- A stored value `as ICount`, a constructor that takes the name, and the value `as IName`. -/
def naming : Declaration false :=
  .of []
    (fun i : Fin 3 =>
      if i.val = 0 then { Analysis.nameValue with interface := "ICount" }
      else if i.val = 1 then Analysis.maker
      else Analysis.nameValue)
    (fun _ => .take) (fun _ => true) (by decide +kernel)

/-- A constructor `|| try_resolve_from!(IReader, inner)` over a child `inner`. -/
def reaching : Declaration false :=
  .of [⟨⟨false, "inner"⟩, Analysis.nameValue.ty⟩]
    (fun _ : Fin 1 =>
      { Analysis.maker with
        constructor :=
          some (.node ⟨.closure [], [], false⟩
            [Analysis.queryExpression "try_resolve_from"
              (.query false "IReader" (some ⟨false, [(⟨false, "inner"⟩, false)]⟩))])
        interface := "IOuter" })
    (fun _ => .take) (fun _ => true) (by decide +kernel)

def inner : Instance false :=
  .mk 1 naming (fun p => p.elim0) (fun p => p.elim0)

def outermost : Instance false :=
  .mk 0 reaching (fun _ => .empty) (fun _ => inner)

/-- The names and the storage of the inner container. -/
theorem naming_entries : (∀ i, (naming.entry i).ns = none) ∧
    (∀ i j, i < j → (naming.entry i).identity ≠ (naming.entry j).identity) ∧
      ∀ j, (naming.out.looked j).constructor.isSome ∨ (naming.out.looked j).fresh = false := by
  decide +kernel

/-- The other value of the inner container: it takes nothing and asks nobody. -/
theorem naming_count : (naming.entry (0 : Fin 3)).interface = "ICount" ∧
    (naming.entry (0 : Fin 3)).slot = .take ∧
      (naming.out.looked (0 : Fin 3)).constructor.isNone = true ∧
        naming.out.consumed (0 : Fin 3) = ∅ ∧ naming.out.calls (0 : Fin 3) = [] ∧
          (naming.out.looked (0 : Fin 3)).interface ≠
            (naming.out.looked (Fin.last 2)).interface := by
  decide +kernel

/-- The names of the outer container. -/
theorem reaching_entries : (∀ i, (reaching.entry i).ns = none) ∧
    (∀ i j, i < j → (reaching.entry i).identity ≠ (reaching.entry j).identity) ∧
      (∀ child ∈ outermost.container.children, child.name ≠ "default") ∧
        (outermost.container.children.map Child.name).Nodup := by
  decide +kernel

theorem accepted_inner : Accepted inner.container := by
  rcases naming_entries with ⟨hentry, hdistinct, _⟩
  refine @Accepted.mk Node 1 (List.ofFn naming.entry) [] _ ?_ (by simp)
  refine expand_eq_ok ?_ ?_ (by simp) (by simp) (by simp)
  · intro r hr
    rcases List.mem_ofFn.1 hr with ⟨i, rfl⟩
    rw [hentry]
    rfl
  · rw [List.pairwise_ofFn]
    exact hdistinct

theorem accepted_outermost : Accepted outermost.container := by
  rcases reaching_entries with ⟨hentry, hdistinct, hdefault, hnodup⟩
  refine @Accepted.mk Node 0 (List.ofFn reaching.entry) outermost.container.children _ ?_ ?_
  · refine expand_eq_ok ?_ ?_ hdefault hnodup ?_
    · intro r hr
      rcases List.mem_ofFn.1 hr with ⟨i, rfl⟩
      rw [hentry]
      rfl
    · rw [List.pairwise_ofFn]
      exact hdistinct
    · intro child _ r hr
      rcases List.mem_ofFn.1 hr with ⟨i, rfl⟩
      simp [hentry]
  · intro child hchild
    rw [outermost.container_children] at hchild
    rcases List.mem_ofFn.1 hchild with ⟨p, rfl⟩
    exact accepted_inner

theorem at_inner {place : List Key} {node : Instance false} (h : At inner place node) :
    place = [] ∧ node = inner := by
  cases h with
  | here => exact ⟨rfl, rfl⟩
  | child p _ => exact p.elim0

theorem at_outermost {place : List Key} {node : Instance false} (h : At outermost place node) :
    (place = [] ∧ node = outermost) ∨ (place = [key "inner"] ∧ node = inner) := by
  cases h with
  | here => exact .inl ⟨rfl, rfl⟩
  | child p hrest =>
      rcases at_inner hrest with ⟨rfl, rfl⟩
      have hp : p = (0 : Fin 1) := Fin.eq_zero (p : Fin 1)
      subst hp
      exact .inr ⟨rfl, rfl⟩

theorem tree_outermost : Tree outermost := by
  intro place place' node node' h h' hid
  rcases at_outermost h with ⟨rfl, rfl⟩ | ⟨rfl, rfl⟩ <;>
    rcases at_outermost h' with ⟨rfl, rfl⟩ | ⟨rfl, rfl⟩
  · rfl
  · cases hid
  · cases hid
  · rfl

/-- What blocks the value `as IName` of the child. -/
def blockName : Mask :=
  .nested (key "inner") (.mask (naming.maskKey (Fin.last 2)) .empty)

/-- The descriptor `scope.inner()`, rescoped with nothing. -/
def unnamed : Descriptor false :=
  inner.scope (.union (.union .empty (blockName.forChild (key "inner"))) .empty)

theorem blocked_unnamed :
    unnamed.restrictions.blocked (naming.maskKey (0 : Fin 3)) = false := by
  rcases naming_count with ⟨_, _, _, _, _, hinterface⟩
  have hkeys : naming.maskKey (0 : Fin 3) ≠ naming.maskKey (Fin.last 2) := by
    intro heq
    exact hinterface (key_injective (Key.pair.inj heq).2)
  simpa [unnamed, blockName, Mask.forChild, Mask.blocked] using hkeys

/-- Taking the other value is allowed: its own key is not blocked and there is no constructor. -/
theorem offers_unnamed : Offers unnamed .tryOwned ⟨inner, (0 : Fin 3)⟩ := by
  rcases naming_count with ⟨hinterface, hslot, _, hempty, hnone, _⟩
  have hconsumed : (naming.entry (0 : Fin 3)).consumed = [] := by
    simp [Declaration.entry, hempty, Graph.iter]
  have hcalls : (naming.entry (0 : Fin 3)).calls = [] := by
    simp [Declaration.entry, hnone]
  have hholds : scopeHolds false .tryOwned (inner.container, unnamed.restrictions)
      (naming.entry (0 : Fin 3)) = true := by
    have hkey : (naming.entry (0 : Fin 3)).maskKey = naming.maskKey (0 : Fin 3) := rfl
    simp [scopeHolds, permitted, Registration.guarded, hslot, hconsumed, hcalls, hkey,
      SlotKind.operations, SlotKind.isFresh, Operation.takes, blocked_unnamed]
  have hns : (naming.entry (0 : Fin 3)).ns = none := naming_entries.1 _
  have hregistration : inner.container.registrations[0]? = some (naming.entry (0 : Fin 3)) := rfl
  have hlookup := lookup_of_getElem? accepted_inner.inv.1 hregistration hholds
  rw [hns, hinterface] at hlookup
  refine @Offers.method _ unnamed none "ICount" .tryOwned (0 : Fin 3) ?_
  rw [method_eq]
  exact congrArg (Option.map fun index => (⟨1, index⟩ : Address)) hlookup

theorem stands_unnamed : Stands unnamed.backing fun _ => (.take (some 7) : Contents Nat Unit) := by
  rcases naming_entries with ⟨_, _, hfresh⟩
  intro place node hat j hconstructor hmapping
  rcases at_inner hat with ⟨rfl, rfl⟩
  rcases hfresh j with hsome | hstored
  · rw [show (naming.out.looked j).constructor = none from hconstructor] at hsome
    cases hsome
  · cases hstored.symm.trans hmapping

/-- `container.inner()` gives the name away, and so does the constructor that takes it.
`scope.inner()` offers neither; it still gives the other value away, and the name stays. -/
theorem scope_never_restores_inner :
    method false none "IName" .tryOwned (inner.container, .empty) = some ⟨1, 2⟩ ∧
      method false none "IReader" .tryOwned (inner.container, .empty) = some ⟨1, 1⟩ ∧
      accessed (fun _ => (.take (some 7) : Contents Nat Unit)) ⟨1, 2⟩ .tryResolve ⟨1, 2⟩ =
        .take none ∧
      (outermost.scope blockName).follow [.accessor "inner", .rescope .empty] = some unnamed ∧
      unnamed.restrictions.blocksAt [] (naming.maskKey (Fin.last 2)) = true ∧
      method false none "IName" .tryOwned (inner.container, unnamed.restrictions) = none ∧
      method false none "IReader" .tryOwned (inner.container, unnamed.restrictions) = none ∧
      accessed (fun _ => (.take (some 7) : Contents Nat Unit)) ⟨1, 0⟩ .tryResolve ⟨1, 0⟩ =
        .take none ∧
      accessed (fun _ => (.take (some 7) : Contents Nat Unit)) ⟨1, 0⟩ .tryResolve ⟨1, 2⟩ =
        .take (some 7) := by
  have hfollow : (outermost.scope blockName).follow [.accessor "inner", .rescope .empty] =
      some unnamed := rfl
  rcases scope_never_restores outermost accepted_outermost blockName _ unnamed hfollow with
    ⟨_, hblocks, _, hruns⟩
  have hmask : unnamed.restrictions.blocksAt [] (naming.maskKey (Fin.last 2)) = true := by
    refine (hblocks [] _).2 (Or.inl ?_)
    simp [blocksAt_iff, blockName, Mask.denotes, placeOf]
  have hconstructor : (naming.out.looked (0 : Fin 3)).constructor = none := by
    rcases naming_count with ⟨_, _, hnone, _⟩
    simpa using hnone
  have hunchanged := (hruns Nat Unit .tryOwned ⟨inner, (0 : Fin 3)⟩ _ _ offers_unnamed
    stands_unnamed (.access hconstructor)).2 tree_outermost [] ⟨inner, Fin.last 2⟩ (.here _)
      hmask
  refine ⟨by decide +kernel, by decide +kernel, by simp [accessed, access, takes], hfollow, hmask,
    by decide +kernel, by decide +kernel, by simp [accessed, access, takes], hunchanged⟩

end Scoped
end Systasis
