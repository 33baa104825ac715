import Systasis.Naming.Resolvers

/-!
# Unambiguous — generated names identify their operations

What the templates keep apart, what `namespace_methods` keeps apart between registrations, and what
`operation` therefore recovers from the name of a generated method.
-/

namespace Systasis
namespace Naming

open Build Syntax

/-! ## Templates -/

namespace Operation

theorem mem_all (op : Operation) : op ∈ all := by
  cases op <;> decide

/-- The characters a template adds to the snake name. -/
def width (op : Operation) : Nat :=
  op.template.1.length + op.template.2.length

def firstLetter (op : Operation) : Option Char :=
  op.template.1.toList.head?

/-- The suffix of an alias. -/
def defaultSuffix (isAlias : Bool) : String :=
  if isAlias then "_in_default" else ""

/-- Names of one length and one first letter have one template, but for the templates of
`tryExclusive` and `tryDynShared`, which differ only after the snake name. -/
theorem template_cases (op op' : Operation) (isAlias isAlias' : Bool)
    (hwidth : op.width + (defaultSuffix isAlias).length =
      op'.width + (defaultSuffix isAlias').length)
    (hfirst : op.firstLetter = op'.firstLetter) :
    isAlias = isAlias' ∧
      (op = op' ∨ op.template.1 = op'.template.1 ∧ op.template.2 ≠ op'.template.2) := by
  have htable : ∀ op ∈ all, ∀ op' ∈ all, ∀ isAlias isAlias' : Bool,
      op.width + (defaultSuffix isAlias).length = op'.width + (defaultSuffix isAlias').length →
        op.firstLetter = op'.firstLetter →
          isAlias = isAlias' ∧
            (op = op' ∨ op.template.1 = op'.template.1 ∧ op.template.2 ≠ op'.template.2) := by
    decide +kernel
  exact htable op op.mem_all op' op'.mem_all isAlias isAlias' hwidth hfirst

theorem template_head (op : Operation) (rest : List Char) :
    (op.template.1.toList ++ rest).head? = op.firstLetter := by
  cases op <;> rfl

end Operation

/-! ## Resolver names -/

/-- The name of an operation on a registration, or its alias. -/
def Registration.resolver (r : Registration) (snake : String) (op : Operation) (isAlias : Bool) :
    String :=
  op.base snake ++ r.suffix ++ Operation.defaultSuffix isAlias

section Names

variable {r : Registration} {snake : String} {op op' : Operation} {isAlias isAlias' : Bool}

theorem resolver_toList :
    (r.resolver snake op isAlias).toList =
      op.template.1.toList ++ (snake.toList ++ (op.template.2.toList ++
        (r.suffix.toList ++ (Operation.defaultSuffix isAlias).toList))) := by
  simp [Registration.resolver, Operation.base]

theorem resolver_length :
    (r.resolver snake op isAlias).toList.length =
      op.width + (Operation.defaultSuffix isAlias).length + (snake.length + r.suffix.length) := by
  rw [resolver_toList]
  simp only [List.length_append, String.length_toList, Operation.width]
  omega

/-- No two of the twelve operations and their aliases share a name, whatever the snake name is. -/
theorem resolver_injective
    (h : r.resolver snake op isAlias = r.resolver snake op' isAlias') :
    op = op' ∧ isAlias = isAlias' := by
  have hlist := congrArg String.toList h
  have hlength := congrArg List.length hlist
  have hhead := congrArg List.head? hlist
  rw [resolver_length, resolver_length, Nat.add_right_cancel_iff] at hlength
  rw [resolver_toList, resolver_toList, op.template_head, op'.template_head] at hhead
  rcases Operation.template_cases op op' isAlias isAlias' hlength hhead with ⟨rfl, rfl | hdiffer⟩
  · exact ⟨rfl, rfl⟩
  · -- The one pair left: cancel the common prefix, the snake name and what follows.
    rw [resolver_toList, resolver_toList, hdiffer.1] at hlist
    have hback := List.append_cancel_left (List.append_cancel_left hlist)
    have hafter := String.toList_injective (List.append_cancel_right hback)
    exact absurd hafter hdiffer.2

end Names

/-! ## Classification -/

/-- A search has the only answer there is. -/
theorem findSome?_eq_of_unique {α β : Type} {f : α → Option β} {l : List α} {a : α} {x : β}
    (ha : a ∈ l) (hx : f a = some x) (hunique : ∀ b ∈ l, ∀ y, f b = some y → y = x) :
    l.findSome? f = some x := by
  cases hfound : l.findSome? f with
  | none =>
      have hnone := List.findSome?_eq_none_iff.1 hfound a ha
      rw [hx] at hnone
      cases hnone
  | some y =>
      rcases List.exists_of_findSome?_eq_some hfound with ⟨b, hb, hy⟩
      rw [hunique b hb y hy]

section Classification

variable {r : Registration} {snake method : String} {op : Operation} {isAlias : Bool}

/-- A row of the table answers for its name, and in the default namespace for its alias. -/
theorem candidate_eq_some_iff {x : Operation × Bool × Bool} :
    candidate method r snake op = some x ↔
      ∃ isAlias, (isAlias = true → r.ns = none) ∧ method = r.resolver snake op isAlias ∧
        x = (op, isAlias, op.takes) := by
  have hprimary : op.base snake ++ r.suffix = r.resolver snake op false := by
    simp [Registration.resolver, Operation.defaultSuffix]
  have halias : r.resolver snake op false ++ "_in_default" = r.resolver snake op true := by
    rw [← hprimary]
    rfl
  have hne : r.resolver snake op true ≠ r.resolver snake op false := by
    intro heq
    cases (resolver_injective heq).2
  simp only [candidate, hprimary, halias, Option.isNone_iff_eq_none]
  constructor
  · intro h
    split at h
    · exact ⟨false, nofun, ‹_›, (Option.some.inj h).symm⟩
    · split at h
      · exact ⟨true, fun _ => (‹_ ∧ _›).1, (‹_ ∧ _›).2, (Option.some.inj h).symm⟩
      · cases h
  · rintro ⟨isAlias, hns, rfl, rfl⟩
    cases isAlias with
    | false => rw [if_pos rfl]
    | true => rw [if_neg hne, if_pos ⟨hns rfl, rfl⟩]

/-- `operation` recovers any of the twelve operations from its name. -/
theorem operation_resolver (hns : isAlias = true → r.ns = none) :
    operation (r.resolver snake op isAlias) r snake = some (op, isAlias, op.takes) := by
  apply findSome?_eq_of_unique op.mem_all
  · exact candidate_eq_some_iff.2 ⟨isAlias, hns, rfl, rfl⟩
  · intro other _ y hy
    rcases candidate_eq_some_iff.1 hy with ⟨isAlias', _, hname, rfl⟩
    rcases resolver_injective hname with ⟨rfl, rfl⟩
    rfl

end Classification

/-! ## What a method does -/

/-- What a slot of a type can hold. -/
def SlotType.Holds {V C : Type} : SlotType → Contents V C → Prop
  | .factory, .factory _ => True
  | .fresh, .fresh _ => True
  | .copy, .copy _ => True
  | .read, .read _ => True
  | .take, .take _ => True
  | _, _ => False

/-- What a body leaves in the slot of its registration; a helper borrows its captures. -/
def Body.leaves {V C : Type} : Body → Contents V C → Contents V C
  | .helper, contents => contents
  | .slot method, contents => (access method contents).2
  | .ok body, contents => body.leaves contents

/-- The method can take the value out of a slot of the type. -/
def Method.Empties (method : Method) (slot : SlotType) : Prop :=
  ∃ (V C : Type) (contents : Contents V C), slot.Holds contents ∧
    method.body.leaves contents ≠ contents

/-- The result is a clone, and the value stays. -/
def Body.clones : Body → Bool
  | .helper => false
  | .slot method => method = .resolveClone || method = .tryResolveClone
  | .ok body => body.clones

/-- The operation a method performs: whether it hands out a clone or the value, reports a failure,
or leaves failures to its caller. -/
def Method.performs (method : Method) : Operation :=
  match method.body.clones, method.safety, method.output with
  | true, _, .value => .cloneValue
  | true, _, .result _ => .tryCloneValue
  | false, true, _ => .uncheckedOwned
  | false, false, .value => .owned
  | false, false, .result _ => .tryOwned

/-- Only consumable storage can be emptied. -/
theorem Body.leaves_of_holds {V C : Type} {slot : SlotType} {contents : Contents V C} (body : Body)
    (hslot : slot ≠ .take) (h : slot.Holds contents) : body.leaves contents = contents := by
  induction body with
  | helper => rfl
  | slot method =>
      cases contents with
      | take value => cases slot <;> first | exact absurd rfl hslot | exact h.elim
      | _ => rfl
  | ok body ih => exact ih

theorem Method.not_empties {method : Method} {slot : SlotType} (hslot : slot ≠ .take) :
    ¬method.Empties slot := by
  rintro ⟨V, C, contents, hholds, hleaves⟩
  exact hleaves (method.body.leaves_of_holds hslot hholds)

/-! ## Generated implementations -/

/-- A method before namespaces: named after what it performs. -/
structure Method.Built (snake : String) (slot : SlotType) (method : Method) : Prop where
  name : method.name = method.performs.base snake
  original : method.isAlias = false
  takes : method.Empties slot → method.performs.takes = true

theorem Method.Built.of_kept {snake : String} {slot : SlotType} {method : Method}
    (hname : method.name = method.performs.base snake) (horiginal : method.isAlias = false)
    (hslot : slot ≠ .take) : method.Built snake slot :=
  ⟨hname, horiginal, fun h => absurd h (method.not_empties hslot)⟩

theorem Operation.base_of_front {op : Operation} (snake : String) (h : op.template.2 = "") :
    op.template.1 ++ snake = op.base snake := by
  rw [Operation.base, h, String.append_empty]

section Built

variable (snake : String)

theorem storedImplementations_built (unchecked : Bool) :
    ∀ impl ∈ storedImplementations unchecked snake, ∀ method ∈ impl.methods,
      method.Built snake impl.slot := by
  have howned := Operation.owned.base_of_front snake rfl
  have htry := Operation.tryOwned.base_of_front snake rfl
  have hclone := Operation.cloneValue.base_of_front snake rfl
  have htryClone := Operation.tryCloneValue.base_of_front snake rfl
  intro impl himpl
  simp only [storedImplementations, List.mem_cons, List.not_mem_nil, or_false] at himpl
  rcases himpl with rfl | rfl | rfl | rfl <;> rw [List.forall_mem_cons]
  -- Slots that keep their value.
  · exact ⟨.of_kept howned rfl SlotType.noConfusion, List.forall_mem_singleton.2 (.of_kept htry rfl SlotType.noConfusion)⟩
  · exact ⟨.of_kept howned rfl SlotType.noConfusion, List.forall_mem_singleton.2 (.of_kept htry rfl SlotType.noConfusion)⟩
  · exact ⟨.of_kept hclone rfl SlotType.noConfusion, List.forall_mem_singleton.2 (.of_kept htryClone rfl SlotType.noConfusion)⟩
  -- Consumable storage: both operations take.
  · refine ⟨⟨htry, rfl, fun _ => rfl⟩, ?_⟩
    cases unchecked with
    | true => exact List.forall_mem_singleton.2 ⟨rfl, rfl, fun _ => rfl⟩
    | false => exact List.forall_mem_nil _

theorem factoryImplementation_built (fallible : Bool) :
    ∀ method ∈ (factoryImplementation fallible snake).methods,
      method.Built snake (factoryImplementation fallible snake).slot := by
  have howned := Operation.owned.base_of_front snake rfl
  have htry := Operation.tryOwned.base_of_front snake rfl
  cases fallible with
  | true => exact List.forall_mem_singleton.2 (.of_kept htry rfl SlotType.noConfusion)
  | false =>
      exact List.forall_mem_cons.2
        ⟨.of_kept howned rfl SlotType.noConfusion, List.forall_mem_singleton.2 (.of_kept htry rfl SlotType.noConfusion)⟩

theorem implementations_built (unchecked : Bool) (kind : Wiring.Registration) :
    ∀ impl ∈ implementations unchecked kind snake, ∀ method ∈ impl.methods,
      method.Built snake impl.slot := by
  cases kind with
  | value => exact storedImplementations_built snake _
  | fresh => exact storedImplementations_built snake _
  | factory fallible native =>
      exact List.forall_mem_singleton.2 (factoryImplementation_built snake fallible)

end Built

/-! ## Renaming -/

/-- A method under its public name. -/
structure Method.Named (r : Registration) (snake : String) (slot : SlotType) (method : Method) :
    Prop where
  name : method.name = r.resolver snake method.performs method.isAlias
  default : method.isAlias = true → r.ns = none
  takes : method.Empties slot → method.performs.takes = true

section Renaming

variable {r : Registration} {snake : String} {slot : SlotType} {method item : Method}

/-- The method in its namespace. -/
theorem Method.Built.renamed (h : method.Built snake slot) :
    (r.renamed method).1.Named r snake slot := by
  unfold Registration.renamed
  cases hns : r.ns with
  | some ns =>
      refine ⟨?_, fun halias => absurd halias (by simp [h.original]), h.takes⟩
      calc
        method.name ++ "_in_" ++ ns.name
            = method.performs.base snake ++ r.suffix := by
              rw [h.name, Registration.suffix, hns, String.append_assoc]
        _ = r.resolver snake method.performs method.isAlias := by
              simp [Registration.resolver, Operation.defaultSuffix, h.original]
  | none =>
      refine ⟨?_, fun halias => absurd halias (by simp [h.original]), h.takes⟩
      calc
        method.name
            = method.performs.base snake ++ r.suffix := by
              rw [h.name, Registration.suffix, hns, String.append_empty]
        _ = r.resolver snake method.performs method.isAlias := by
              simp [Registration.resolver, Operation.defaultSuffix, h.original]

/-- The alias, which only the default namespace has. -/
theorem Method.Built.renamed_alias (h : method.Built snake slot)
    (halias : (r.renamed method).2 = some item) : item.Named r snake slot := by
  unfold Registration.renamed at halias
  cases hns : r.ns with
  | some ns =>
      rw [hns] at halias
      cases halias
  | none =>
      rw [hns] at halias
      cases halias
      refine ⟨?_, fun _ => hns, h.takes⟩
      have hsuffix : r.suffix = "" := by rw [Registration.suffix, hns]
      calc
        method.name ++ "_in_default"
            = method.performs.base snake ++ r.suffix ++ "_in_default" := by
              rw [h.name, hsuffix, String.append_empty]
        _ = r.resolver snake method.performs true := rfl

theorem Impl.renamed_named {impl : Impl}
    (h : ∀ method ∈ impl.methods, method.Built snake impl.slot) :
    ∀ item ∈ (impl.renamed r).methods, item.Named r snake impl.slot := by
  intro item hitem
  rcases List.mem_append.1 hitem with hitem | hitem
  · rcases List.mem_map.1 hitem with ⟨_, hmem, rfl⟩
    rcases List.mem_map.1 hmem with ⟨method, hmethod, rfl⟩
    exact (h method hmethod).renamed
  · rcases List.mem_filterMap.1 hitem with ⟨_, hmem, hsome⟩
    rcases List.mem_map.1 hmem with ⟨method, hmethod, rfl⟩
    exact (h method hmethod).renamed_alias hsome

end Renaming

/-! ## Registered names -/

theorem mem_names {impls : List Impl} {name : String} :
    name ∈ names impls ↔ ∃ method ∈ methods impls, method.name = name := by
  rw [names, List.mem_insertionSort, List.mem_dedup, List.mem_map]

section Registered

variable {source : Source}

/-- A name is registered once: an entry under it would have been reported. -/
theorem register_ok {list : List String} {known known' : Known}
    (h : register source list known = .ok known') :
    (∀ name ∈ list, name ∉ known.names) ∧
      ∀ name, name ∈ known'.names ↔ name ∈ list ∨ name ∈ known.names := by
  induction list generalizing known with
  | nil =>
      cases h
      simp
  | cons first rest ih =>
      rw [register] at h
      cases hfirst : known.lookup first with
      | some previous =>
          rw [hfirst] at h
          cases h
      | none =>
          rw [hfirst] at h
          have hfree : first ∉ known.names := by
            intro hmem
            rcases List.mem_map.1 hmem with ⟨entry, hentry, rfl⟩
            have hne := List.lookup_eq_none_iff.1 hfirst entry hentry
            simp at hne
          rcases ih h with ⟨hrest, hnames⟩
          have hcons : ∀ name, name ∈ Known.names ((first, source) :: known) ↔
              name = first ∨ name ∈ known.names := fun name => List.mem_cons
          refine ⟨?_, ?_⟩
          · intro name hname
            rcases List.mem_cons.1 hname with rfl | hname
            · exact hfree
            · exact fun hmem => hrest name hname ((hcons name).2 (.inr hmem))
          · intro name
            rw [hnames, hcons, List.mem_cons, or_left_comm, or_assoc]

/-- A sequence that succeeds has succeeded at each of its steps. -/
theorem bind_eq_ok {E A B : Type} {x : Except E A} {f : A → Except E B} {b : B} :
    x >>= f = .ok b ↔ ∃ a, x = .ok a ∧ f a = .ok b := by
  cases x with
  | error e => exact ⟨nofun, nofun⟩
  | ok a =>
      constructor
      · intro h
        exact ⟨a, rfl, h⟩
      · rintro ⟨_, ⟨⟩, h⟩
        exact h

theorem namespaceMethods_ok {impls renamed : List Impl} {r : Registration} {known known' : Known}
    (h : namespaceMethods impls r known = .ok (renamed, known')) :
    renamed = impls.map (Impl.renamed r) ∧ (∀ name ∈ names renamed, name ∉ known.names) ∧
      ∀ name, name ∈ known'.names ↔ name ∈ names renamed ∨ name ∈ known.names := by
  rcases bind_eq_ok.1 h with ⟨known'', hregister, heq⟩
  cases heq
  exact ⟨rfl, register_ok hregister⟩

end Registered

/-! ## Expansion -/

section Expansion

variable {isUppercase : Char → Bool} {unchecked : Bool}

/-- The implementations of one registration under their public names. -/
def generated (isUppercase : Char → Bool) (unchecked : Bool) (r : Registration) : List Impl :=
  (implementations unchecked r.kind (snake isUppercase r.interface)).map (Impl.renamed r)

/-- What the loop over the registrations keeps: the names of one are new to those before it. -/
structure Distinct (known : Known) (resolvers : List (List Impl)) (known' : Known) : Prop where
  new : ∀ impls ∈ resolvers, ∀ name ∈ names impls, name ∉ known.names
  apart : resolvers.Pairwise fun left right => (names left).Disjoint (names right)
  names : ∀ name, name ∈ known'.names ↔
    (∃ impls ∈ resolvers, name ∈ names impls) ∨ name ∈ known.names

theorem Distinct.cons {known known' known'' : Known} {impls : List Impl} {rest : List (List Impl)}
    (hnew : ∀ name ∈ Naming.names impls, name ∉ known.names)
    (hnames : ∀ name, name ∈ known'.names ↔ name ∈ Naming.names impls ∨ name ∈ known.names)
    (h : Distinct known' rest known'') : Distinct known (impls :: rest) known'' where
  new := by
    intro other hother name hname hknown
    rcases List.mem_cons.1 hother with rfl | hother
    · exact hnew name hname hknown
    · exact h.new other hother name hname ((hnames name).2 (.inr hknown))
  apart := by
    refine List.pairwise_cons.2 ⟨?_, h.apart⟩
    intro other hother name hname hother'
    exact h.new other hother name hother' ((hnames name).2 (.inl hname))
  names := by
    intro name
    rw [h.names, hnames, List.exists_mem_cons_iff, or_left_comm, or_assoc]

theorem resolvers_ok {registrations : List Registration} {known known' : Known}
    {resolvers : List (List Impl)}
    (h : Naming.resolvers isUppercase unchecked registrations known = .ok (resolvers, known')) :
    resolvers = registrations.map (generated isUppercase unchecked) ∧
      Distinct known resolvers known' := by
  induction registrations generalizing known resolvers known' with
  | nil =>
      cases h
      exact ⟨rfl, nofun, .nil, by simp⟩
  | cons r registrations ih =>
      rcases bind_eq_ok.1 h with ⟨⟨impls, known₁⟩, hfirst, h⟩
      rcases bind_eq_ok.1 h with ⟨⟨rest, known₂⟩, hrest, heq⟩
      cases heq
      rcases namespaceMethods_ok hfirst with ⟨himpls, hnew, hnames⟩
      rcases ih hrest with ⟨hgenerated, hdistinct⟩
      refine ⟨?_, .cons hnew hnames hdistinct⟩
      rw [List.map_cons, ← hgenerated, generated, ← himpls]

theorem accessors_ok {known : Known} {children names : List Ident}
    (h : accessors known children = .ok names) :
    names = children ∧ ∀ child ∈ children, child.name ∉ known.names := by
  induction children generalizing names with
  | nil =>
      cases h
      exact ⟨rfl, nofun⟩
  | cons child children ih =>
      rw [accessors] at h
      split at h
      · cases h
      · rename_i hfree
        rcases bind_eq_ok.1 h with ⟨rest, hrest, heq⟩
        cases heq
        rcases ih hrest with ⟨rfl, hchildren⟩
        exact ⟨rfl, List.forall_mem_cons.2 ⟨hfree, hchildren⟩⟩

/-- `operation` reads off a method's name what the method does. -/
def Classified (isUppercase : Char → Bool) (r : Registration) (impls : List Impl) : Prop :=
  ∀ impl ∈ impls, ∀ method ∈ impl.methods,
    operation method.name r (snake isUppercase r.interface) =
        some (method.performs, method.isAlias, method.performs.takes) ∧
      (method.Empties impl.slot → method.performs.takes = true)

theorem generated_classified (r : Registration) :
    Classified isUppercase r (generated isUppercase unchecked r) := by
  intro impl himpl method hmethod
  rcases List.mem_map.1 himpl with ⟨impl, hmem, rfl⟩
  have hbuilt := implementations_built (snake isUppercase r.interface) unchecked r.kind impl hmem
  have hnamed := Impl.renamed_named hbuilt method hmethod
  refine ⟨?_, hnamed.takes⟩
  rw [hnamed.name]
  exact operation_resolver hnamed.default

/-- A name has one operation: the one `operation` answers. -/
theorem Classified.functional {r : Registration} {impls : List Impl}
    (h : Classified isUppercase r impls) {left right : Method} (hleft : left ∈ methods impls)
    (hright : right ∈ methods impls) (hname : left.name = right.name) :
    left.performs = right.performs ∧ left.isAlias = right.isAlias := by
  rcases List.mem_flatMap.1 hleft with ⟨_, himpl, hmem⟩
  rcases List.mem_flatMap.1 hright with ⟨_, himpl', hmem'⟩
  have hanswer := (h _ himpl left hmem).1
  rw [hname, (h _ himpl' right hmem').1] at hanswer
  have hpair := Option.some.inj hanswer
  exact ⟨(congrArg Prod.fst hpair).symm, (congrArg (fun answer => answer.2.1) hpair).symm⟩

/-- The public methods of a container, and what scope metadata is attached to them. -/
structure Unambiguous (isUppercase : Char → Bool) (registrations : List Registration)
    (children : List Ident) (expansion : Expansion) : Prop where
  /-- No two registrations share a name. -/
  registrationsApart : expansion.resolvers.Pairwise fun left right =>
    ∀ method ∈ methods left, ∀ other ∈ methods right, method.name ≠ other.name
  /-- Methods of one registration that share a name are one operation. -/
  operationsApart : ∀ impls ∈ expansion.resolvers,
    ∀ method ∈ methods impls, ∀ other ∈ methods impls, method.name = other.name →
      method.performs = other.performs ∧ method.isAlias = other.isAlias
  accessors : expansion.accessors = children
  /-- No child accessor shares a name with a resolver. -/
  accessorsApart : ∀ child ∈ children, ∀ impls ∈ expansion.resolvers,
    ∀ method ∈ methods impls, child.name ≠ method.name
  classified : List.Forall₂ (Classified isUppercase) registrations expansion.resolvers

/-- Every accepted declaration has unambiguous resolver names. -/
theorem resolver_names_unambiguous {registrations : List Registration} {children : List Ident}
    {expansion : Expansion}
    (h : expand isUppercase unchecked registrations children = .ok expansion) :
    Unambiguous isUppercase registrations children expansion := by
  rcases bind_eq_ok.1 h with ⟨⟨resolvers, known⟩, hresolvers, h⟩
  rcases bind_eq_ok.1 h with ⟨names, haccessors, heq⟩
  cases heq
  rcases resolvers_ok hresolvers with ⟨hgenerated, hdistinct⟩
  rcases accessors_ok haccessors with ⟨rfl, hchildren⟩
  have hclassified : ∀ impls ∈ resolvers, ∃ r, Classified isUppercase r impls := by
    intro impls himpls
    rw [hgenerated] at himpls
    rcases List.mem_map.1 himpls with ⟨r, _, rfl⟩
    exact ⟨r, generated_classified r⟩
  refine ⟨?_, ?_, rfl, ?_, ?_⟩
  · apply hdistinct.apart.imp
    intro left right hdisjoint method hmethod other hother heq
    exact hdisjoint (mem_names.2 ⟨method, hmethod, heq⟩) (mem_names.2 ⟨other, hother, rfl⟩)
  · intro impls himpls method hmethod other hother
    rcases hclassified impls himpls with ⟨r, hr⟩
    exact hr.functional hmethod hother
  · intro child hchild impls himpls method hmethod heq
    apply hchildren child hchild
    rw [hdistinct.names]
    exact .inl ⟨impls, himpls, mem_names.2 ⟨method, hmethod, heq.symm⟩⟩
  · rw [hgenerated, List.forall₂_map_right_iff, List.forall₂_same]
    exact fun r _ => generated_classified r

end Expansion

/-- Interfaces and namespaces that contain the words of the templates. -/
def modifiers : List Registration :=
  [⟨[⟨[], ⟨false, "RefMut"⟩⟩], some ⟨true, "default"⟩, .value⟩,
    ⟨[⟨[], ⟨false, "Unchecked"⟩⟩, ⟨[], ⟨false, "Clone"⟩⟩], some ⟨true, "in"⟩, .factory false false⟩]

/-- These are accepted.  `resolve_ref_mut` is no reference but the owned value of `RefMut`, and
`try_resolve_ref_mut` is what takes it. -/
theorem resolver_names_unambiguous_modifiers :
    ∃ expansion, expand Char.isUpper true modifiers [⟨false, "resolve"⟩] = .ok expansion ∧
      Unambiguous Char.isUpper modifiers [⟨false, "resolve"⟩] expansion ∧
      (∃ impls ∈ expansion.resolvers, ∃ method ∈ methods impls,
        method.name = "resolve_ref_mut" ∧ method.performs = .owned) ∧
      ∃ impls ∈ expansion.resolvers, ∃ method ∈ methods impls,
        method.name = "try_resolve_ref_mut" ∧ method.performs = .tryOwned := by
  have haccepted : (expand Char.isUpper true modifiers [⟨false, "resolve"⟩]).toOption.any
      (fun expansion => decide
        ((∃ impls ∈ expansion.resolvers, ∃ method ∈ methods impls,
          method.name = "resolve_ref_mut" ∧ method.performs = .owned) ∧
        ∃ impls ∈ expansion.resolvers, ∃ method ∈ methods impls,
          method.name = "try_resolve_ref_mut" ∧ method.performs = .tryOwned)) = true := by
    decide +kernel
  cases h : expand Char.isUpper true modifiers [⟨false, "resolve"⟩] with
  | error error =>
      rw [h] at haccepted
      cases haccepted
  | ok expansion =>
      rw [h] at haccepted
      exact ⟨expansion, rfl, resolver_names_unambiguous h, of_decide_eq_true haccepted⟩

-- A namespace that spells out another interface's name.
example : expand Char.isUpper false
    [⟨[⟨[], ⟨false, "IValue"⟩⟩], some ⟨false, "test"⟩, .factory false false⟩,
      ⟨[⟨[], ⟨false, "IValueInTest"⟩⟩], none, .factory true false⟩] [] =
      .error
        [⟨.source ⟨[⟨[], ⟨false, "IValueInTest"⟩⟩], none⟩,
            "interfaces generate the same resolver name: try_resolve_i_value_in_test"⟩,
          ⟨.source ⟨[⟨[], ⟨false, "IValue"⟩⟩], some ⟨false, "test"⟩⟩,
            "first conflicting interface"⟩] := by
  decide +kernel

end Naming
end Systasis
