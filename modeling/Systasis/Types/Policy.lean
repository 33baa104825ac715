import Systasis.Types.Spelling

/-!
# Policy — the storage policy of a registration in generic code

Model of `generic_policy.rs`, of `projected_policy` in `child_queries.rs` and of the selection
between them in `expand_inner`.
-/

namespace Systasis
namespace Types

open Syntax (Ident)

/-! ## `depends_on_generics` -/

/-- The names of types and constants, and the names of lifetimes. -/
structure Dependencies where
  paths : List Ident
  lifetimes : List Ident

def Generics.dependencies (g : Generics) : Dependencies where
  paths := g.params.filterMap fun
    | .type ident _ _ | .const ident _ _ => some ident
    | .lifetime _ _ => none
  lifetimes := g.params.filterMap fun
    | .lifetime name _ => some name
    | .type _ _ _ | .const _ _ _ => none

namespace Dependencies

/-- What a node itself adds to `found`. -/
def finds (d : Dependencies) (cs : List Node) : Form → Bool
  | .path _ false => (firstSegment cs).any d.paths.contains
  | .lifetime name | .lifetimeParam name | .reference (some name) _ => d.lifetimes.contains name
  | _ => false

mutual

def found (d : Dependencies) : Node → Bool
  | .node form cs => d.finds cs form || d.foundAny cs

def foundAny (d : Dependencies) : List Node → Bool
  | [] => false
  | c :: cs => d.found c || d.foundAny cs

end

end Dependencies

def dependsOnGenerics (ty : Node) (generics : Generics) : Bool :=
  generics.dependencies.found ty

/-! ## Explicit bounds -/

def copyNames : List String :=
  ["Copy", "core::marker::Copy", "::core::marker::Copy", "std::marker::Copy",
    "::std::marker::Copy"]

def cloneNames : List String :=
  ["Clone", "core::clone::Clone", "::core::clone::Clone", "std::clone::Clone",
    "::std::clone::Clone"]

/-- `is_copy` and `is_clone`: a bound without modifiers, on a trait of one of the spellings. -/
def isBound (names : List String) : Node → Bool
  | .node (.traitBound _ modifiers) cs =>
      modifiers.isEmpty && names.contains (String.join ((cs.getLast?.map tokens).getD []))
  | _ => false

/-- A type parameter or a predicate spelled like the type has one of the bounds. -/
def hasBound (names : List String) (ty : Node) (generics : Generics) : Bool :=
  let registered := ungroupedTypeSpelling ty
  generics.params.any (fun
    | .type ident bounds _ => [spelled ident] == registered && bounds.any (isBound names)
    | _ => false) ||
  generics.predicates.any fun
    | .type _ bounded bounds =>
        ungroupedTypeSpelling bounded == registered && bounds.any (isBound names)
    | .lifetime _ _ => false

def hasExplicitCopyBound (ty : Node) (generics : Generics) : Bool :=
  match ty with
  | .node (.reference _ false) _ => true
  | .node .paren [elem] => hasExplicitCopyBound elem generics
  | .node .group [elem] => hasExplicitCopyBound elem generics
  | ty => hasBound copyNames ty generics

def hasExplicitCloneBound (ty : Node) (generics : Generics) : Bool :=
  if hasExplicitCopyBound ty generics then true else hasBound cloneNames ty generics

/-! ## The policy -/

inductive Policy where
  /-- `Policy<copy, local, clone>` -/
  | policy (copy localPolicy clone : Bool)
  /-- `<owner as RegistrationPolicy<path, key, local>>::Policy` -/
  | registration (owner path key : Node) (localPolicy : Bool)

/-- The policy of `<owner as systasis::scoped::Registered<path, key>>::Value`, and of nothing
else. -/
def projectedPolicy (ty : Node) (localPolicy : Bool) : Option Policy :=
  match ty with
  | .node (.path .type _)
      [.node (.qself _) [owner], .node (.segment first) _, .node (.segment second) _,
        .node (.segment third) [.node (.angle _) [path, key]], .node (.segment fourth) _] =>
      if first.is "systasis" && second.is "scoped" && third.is "Registered" && fourth.is "Value"
      then some (.registration owner path key localPolicy)
      else none
  | _ => none

/-- The policy of a registration in `expand_inner`; a type without generic parts is left to trait
selection. -/
def selectPolicy (generics : Generics) (ty : Node) (localPolicy : Bool) : Option Policy :=
  if dependsOnGenerics ty generics then
    let copy := hasExplicitCopyBound ty generics
    let clone := hasExplicitCloneBound ty generics
    let inherited := if !copy && !clone then projectedPolicy ty localPolicy else none
    some (inherited.getD (.policy copy localPolicy clone))
  else none

/-! ## Under regrouping -/

/-- Where no type stands, regrouping changes only what is inside. -/
theorem Regroups.node {t t' : Node} (h : Regroups t t') (hplain : t.label.isType = false) :
    t'.label = t.label ∧ List.Forall₂ Regroups t.children t'.children := by
  have hplain' : t'.label.isType = false := h.isType ▸ hplain
  have hstrip := h.strip
  have hself : ∀ t : Node, t.label.isType = false → Types.strip t = t := by
    rintro ⟨form, cs⟩ hplain
    apply strip_node
    left
    cases form <;> first | rfl | cases hplain
  rw [hself t hplain, hself t' hplain'] at hstrip
  exact ⟨hstrip.1.symm, hstrip.2⟩

theorem firstSegment_regroups {front back : List Node} {c c' : Node} (h : Regroups c c') :
    firstSegment (front ++ c :: back) = firstSegment (front ++ c' :: back) := by
  have hlabel : c.label.segmentIdent = c'.label.segmentIdent := by
    cases hplain : c.label.isType with
    | false => rw [(h.node hplain).1]
    | true =>
        -- A type is no segment, with and without its grouping.
        have hnone : ∀ form : Form, form.isType = true → form.segmentIdent = none := by
          intro form htype
          cases form <;> first | rfl | cases htype
        rw [hnone _ hplain, hnone _ (h.isType ▸ hplain)]
  rw [firstSegment, firstSegment, List.findSome?_append, List.findSome?_append,
    List.findSome?_cons, List.findSome?_cons, hlabel]

theorem Dependencies.foundAny_eq (d : Dependencies) (cs : List Node) :
    d.foundAny cs = cs.any d.found := by
  induction cs with
  | nil => rfl
  | cons c cs ih => rw [foundAny, ih, List.any_cons]

theorem Dependencies.found_regroups (d : Dependencies) {t t' : Node} (h : Regroups t t') :
    d.found t = d.found t' := by
  induction h with
  | refl t => rfl
  | symm _ ih => exact ih.symm
  | trans _ _ ih ih' => exact ih.trans ih'
  | paren _ => simp [found, foundAny, finds]
  | group _ => simp [found, foundAny, finds]
  | @child form front back c c' hc ih =>
      have hfinds : d.finds (front ++ c :: back) form = d.finds (front ++ c' :: back) form := by
        cases form with
        | path role leadingColon =>
            cases leadingColon with
            | true => rfl
            | false => rw [finds, finds, firstSegment_regroups hc]
        | reference written mutable => cases written <;> rfl
        | _ => rfl
      rw [found, found, hfinds, foundAny_eq, foundAny_eq, List.any_append, List.any_append,
        List.any_cons, List.any_cons, ih]

/-- Predicates with regrouped bounded types. -/
inductive RegroupsPredicate : Predicate → Predicate → Prop
  | type {binder bounds : List Node} {bounded bounded' : Node} : Regroups bounded bounded' →
      RegroupsPredicate (.type binder bounded bounds) (.type binder bounded' bounds)
  | lifetime (name : Ident) (bounds : List Ident) :
      RegroupsPredicate (.lifetime name bounds) (.lifetime name bounds)

structure RegroupsGenerics (g g' : Generics) : Prop where
  params : g'.params = g.params
  predicates : List.Forall₂ RegroupsPredicate g.predicates g'.predicates

theorem any_forall₂ {α : Type} {R : α → α → Prop} {f f' : α → Bool} {l l' : List α}
    (h : List.Forall₂ R l l') (hf : ∀ a a', R a a' → f a = f' a') : l.any f = l'.any f' := by
  induction h with
  | nil => rfl
  | cons hhead _ ih => rw [List.any_cons, List.any_cons, hf _ _ hhead, ih]

section Invariance

variable {g g' : Generics} {ty ty' : Node}

theorem dependsOnGenerics_regroups (hg : RegroupsGenerics g g') (hty : Regroups ty ty') :
    dependsOnGenerics ty g = dependsOnGenerics ty' g' := by
  have hdependencies : g'.dependencies = g.dependencies := by
    rw [Generics.dependencies, Generics.dependencies, hg.params]
  rw [dependsOnGenerics, dependsOnGenerics, hdependencies, Dependencies.found_regroups _ hty]

theorem hasBound_regroups (names : List String) (hg : RegroupsGenerics g g')
    (hty : Regroups ty ty') : hasBound names ty g = hasBound names ty' g' := by
  simp only [hasBound, hg.params, hty.spelling_eq]
  congr 1
  apply any_forall₂ hg.predicates
  intro q q' hq
  cases hq with
  | type hbounded => simp only [hbounded.spelling_eq]
  | lifetime name bounds => rfl

theorem hasBound_spelling (names : List String) (g : Generics)
    (h : ungroupedTypeSpelling ty = ungroupedTypeSpelling ty') :
    hasBound names ty g = hasBound names ty' g := by
  rw [hasBound, hasBound, h]

/-- A shared reference. -/
def Form.shared : Form → Bool
  | .reference _ false => true
  | _ => false

/-- The copy flag looks through the outermost grouping for a shared reference, and otherwise for a
bound. -/
theorem hasExplicitCopyBound_eq (ty : Node) (g : Generics) :
    hasExplicitCopyBound ty g = ((strip ty).label.shared || hasBound copyNames ty g) := by
  induction ty using hasExplicitCopyBound.induct with
  | case1 written cs => rfl
  | case2 elem ih =>
      rw [hasExplicitCopyBound, ih, strip_grouping rfl, hasBound_spelling copyNames g rfl]
      rfl
  | case3 elem ih =>
      rw [hasExplicitCopyBound, ih, strip_grouping rfl, hasBound_spelling copyNames g rfl]
      rfl
  | case4 ty hshared hparen hgroup =>
      rcases ty with ⟨form, cs⟩
      have hplain : form.groups = false ∨ cs.length ≠ 1 := by
        by_contra hnot
        push Not at hnot
        rcases List.length_eq_one_iff.1 hnot.2 with ⟨elem, rfl⟩
        cases form with
        | paren => exact hparen elem rfl
        | group => exact hgroup elem rfl
        | _ => exact absurd rfl hnot.1
      have hnone : form.shared = false := by
        cases form with
        | reference written mutable =>
            cases mutable with
            | false => exact absurd rfl (hshared written cs)
            | true => rfl
        | _ => rfl
      rw [strip_node hplain, Rose.label, hnone, Bool.false_or]
      rw [hasExplicitCopyBound]
      · exact hshared
      · exact hparen
      · exact hgroup

theorem hasExplicitCloneBound_eq (ty : Node) (g : Generics) :
    hasExplicitCloneBound ty g = (hasExplicitCopyBound ty g || hasBound cloneNames ty g) := by
  rw [hasExplicitCloneBound]
  cases hasExplicitCopyBound ty g <;> rfl

theorem hasExplicitCopyBound_regroups (hg : RegroupsGenerics g g') (hty : Regroups ty ty') :
    hasExplicitCopyBound ty g = hasExplicitCopyBound ty' g' := by
  rw [hasExplicitCopyBound_eq, hasExplicitCopyBound_eq, hty.strip.1,
    hasBound_regroups copyNames hg hty]

theorem hasExplicitCloneBound_regroups (hg : RegroupsGenerics g g') (hty : Regroups ty ty') :
    hasExplicitCloneBound ty g = hasExplicitCloneBound ty' g' := by
  rw [hasExplicitCloneBound_eq, hasExplicitCloneBound_eq, hasExplicitCopyBound_regroups hg hty,
    hasBound_regroups cloneNames hg hty]

end Invariance

/-! ## The projection -/

/-- `<owner as systasis::scoped::Registered<path, key>>::Value` -/
inductive ChildProjection (owner path key : Node) : Node → Prop
  | mk {leadingColon turbofish : Bool} {position : Nat} {first second third fourth : Ident}
      {arguments₁ arguments₂ arguments₄ : List Node} :
      (first.is "systasis" && second.is "scoped" && third.is "Registered" &&
        fourth.is "Value") = true →
      ChildProjection owner path key
        (.node (.path .type leadingColon)
          [.node (.qself position) [owner], .node (.segment first) arguments₁,
            .node (.segment second) arguments₂,
            .node (.segment third) [.node (.angle turbofish) [path, key]],
            .node (.segment fourth) arguments₄])

theorem projectedPolicy_eq_some_iff {ty : Node} {localPolicy : Bool} {p : Policy} :
    projectedPolicy ty localPolicy = some p ↔
      ∃ owner path key, ChildProjection owner path key ty ∧
        p = .registration owner path key localPolicy := by
  constructor
  · intro h
    rw [projectedPolicy.eq_def] at h
    split at h
    · split at h
      · rename_i hnames
        cases h
        exact ⟨_, _, _, .mk hnames, rfl⟩
      · cases h
    · cases h
  · rintro ⟨owner, path, key, ⟨hnames⟩, rfl⟩
    rw [projectedPolicy, if_pos hnames]

/-- Grouping around the projection hides it. -/
theorem projectedPolicy_grouping {ty : Node} {localPolicy : Bool}
    (h : ty.label.groups = true) : projectedPolicy ty localPolicy = none := by
  cases hprojected : projectedPolicy ty localPolicy with
  | none => rfl
  | some p =>
      rcases projectedPolicy_eq_some_iff.1 hprojected with ⟨owner, path, key, ⟨_⟩, _⟩
      cases h

/-- A child that is no type stays in its place. -/
theorem regroups_cons {form : Form} {cs rest ds : List Node} (hplain : form.isType = false)
    (h : List.Forall₂ Regroups (.node form cs :: rest) ds) :
    ∃ cs' rest', ds = .node form cs' :: rest' ∧ List.Forall₂ Regroups cs cs' ∧
      List.Forall₂ Regroups rest rest' := by
  rcases List.forall₂_cons_left_iff.1 h with ⟨⟨form', cs'⟩, rest', hhead, hrest, rfl⟩
  rcases hhead.node hplain with ⟨hlabel, hchildren⟩
  cases hlabel
  exact ⟨cs', rest', rfl, hchildren, hrest⟩

/-- Regrouping inside a projection leaves a projection with regrouped parts. -/
theorem ChildProjection.regroups {owner path key ty ty' : Node}
    (h : ChildProjection owner path key ty) (hlabel : ty'.label = ty.label)
    (hchildren : List.Forall₂ Regroups ty.children ty'.children) :
    ∃ owner' path' key', ChildProjection owner' path' key' ty' ∧ Regroups owner owner' ∧
      Regroups path path' ∧ Regroups key key' := by
  rcases h with ⟨hnames⟩
  rcases ty' with ⟨form', cs'⟩
  cases hlabel
  rcases regroups_cons rfl hchildren with ⟨owners, _, rfl, howner, hsegments⟩
  rcases regroups_cons rfl hsegments with ⟨_, _, rfl, _, hscoped⟩
  rcases regroups_cons rfl hscoped with ⟨_, _, rfl, _, hregistered⟩
  rcases regroups_cons rfl hregistered with ⟨_, _, rfl, hangles, hvalue⟩
  rcases regroups_cons rfl hvalue with ⟨_, _, rfl, _, hnone⟩
  rcases regroups_cons rfl hangles with ⟨arguments, _, rfl, harguments, honly⟩
  cases hnone
  cases honly
  cases howner with
  | cons howner hnil =>
      cases hnil
      cases harguments with
      | cons hpath harguments =>
          cases harguments with
          | cons hkey hnil =>
              cases hnil
              exact ⟨_, _, _, .mk hnames, howner, hpath, hkey⟩

/-- Two policies that differ in the grouping of the types in them. -/
inductive Policy.Same : Policy → Policy → Prop
  | policy (copy localPolicy clone : Bool) :
      Same (.policy copy localPolicy clone) (.policy copy localPolicy clone)
  | registration {owner owner' path path' key key' : Node} {localPolicy : Bool} :
      Regroups owner owner' → Regroups path path' → Regroups key key' →
      Same (.registration owner path key localPolicy) (.registration owner' path' key' localPolicy)

theorem Policy.Same.symm {p p' : Policy} (h : p.Same p') : p'.Same p := by
  cases h with
  | policy copy localPolicy clone => exact .policy copy localPolicy clone
  | registration howner hpath hkey => exact .registration howner.symm hpath.symm hkey.symm

theorem strip_of_plain {ty : Node} (h : ty.label.groups = false) : strip ty = ty := by
  rcases ty with ⟨form, cs⟩
  exact strip_node (.inl h)

/-- Where neither type is grouped as a whole, both are projections or neither is. -/
theorem projectedPolicy_regroups {ty ty' : Node} {localPolicy : Bool} {p : Policy}
    (hty : Regroups ty ty') (hplain : ty.label.groups = false)
    (hplain' : ty'.label.groups = false) (h : projectedPolicy ty localPolicy = some p) :
    ∃ p', projectedPolicy ty' localPolicy = some p' ∧ p.Same p' := by
  have hstrip := hty.strip
  rw [strip_of_plain hplain, strip_of_plain hplain'] at hstrip
  rcases projectedPolicy_eq_some_iff.1 h with ⟨owner, path, key, hprojection, rfl⟩
  rcases hprojection.regroups hstrip.1.symm hstrip.2 with
    ⟨owner', path', key', hprojection', howner, hpath, hkey⟩
  exact ⟨_, projectedPolicy_eq_some_iff.2 ⟨_, _, _, hprojection', rfl⟩,
    .registration howner hpath hkey⟩

/-! ## Bounds on other types -/

/-- Generics whose only bounds are on one type: in the where clause, or on the parameter itself. -/
inductive BoundOn (t : Node) (bounds : List Node) : Generics → Prop
  | predicate (binder : List Node) : BoundOn t bounds ⟨[], some [.type binder t bounds]⟩
  | parameter (ident : Ident) (default : Option Node) :
      t = .node (.path .type false) [.node (.segment ident) []] →
      BoundOn t bounds ⟨[.type ident bounds default], none⟩

/-- A bound on the first type counts as one on the second. -/
def Confused (t t' : Node) : Prop :=
  ∃ names bounds g, BoundOn t bounds g ∧ hasBound names t' g = true

theorem Confused.spelling_eq {t t' : Node} (h : Confused t t') :
    ungroupedTypeSpelling t = ungroupedTypeSpelling t' := by
  rcases h with ⟨names, bounds, g, hg, hbound⟩
  cases hg with
  | predicate binder =>
      simp only [hasBound, Generics.predicates, List.any_nil, List.any_cons, Option.getD_some,
        Bool.false_or, Bool.or_false, Bool.and_eq_true, beq_iff_eq] at hbound
      exact hbound.1
  | parameter ident default ht =>
      simp only [hasBound, Generics.predicates, List.any_nil, List.any_cons, Option.getD_none,
        Bool.or_false, Bool.and_eq_true, beq_iff_eq] at hbound
      rw [ht, ← hbound.1]
      rfl

theorem Wraps.not_confused {t t' : Node} (h : Wraps t t') : ¬Confused t t' ∧ ¬Confused t' t :=
  ⟨fun hconfused => h.spelling_ne hconfused.spelling_eq,
    fun hconfused => h.spelling_ne hconfused.spelling_eq.symm⟩

/-- `(T,)` and `(T)` -/
theorem tuple_not_confused (t : Node) :
    ¬Confused (.node .paren [t]) (.node .tuple [t]) ∧
      ¬Confused (.node .tuple [t]) (.node .paren [t]) := by
  have hwraps : Wraps t (.node .tuple [t]) := .former rfl rfl List.mem_cons_self .refl
  exact ⟨fun h => hwraps.spelling_ne h.spelling_eq, fun h => hwraps.spelling_ne h.spelling_eq.symm⟩

/-! ## Grouping and the policy -/

/-- The policies of two spellings of one registration agree, up to grouping inside them; bounds on
other types do not count; and a Copy type is cloned. -/
structure PolicyStable (g g' : Generics) (ty ty' : Node) (localPolicy : Bool) : Prop where
  same : Option.Rel Policy.Same (selectPolicy g ty localPolicy) (selectPolicy g' ty' localPolicy)
  tuple : ∀ t, ¬Confused (.node .paren [t]) (.node .tuple [t]) ∧
    ¬Confused (.node .tuple [t]) (.node .paren [t])
  wrapper : ∀ t t', Wraps t t' → ¬Confused t t' ∧ ¬Confused t' t
  copy : hasExplicitCopyBound ty g = true → hasExplicitCloneBound ty g = true

/-- A child projection in generic code, without a bound of its own, whose one spelling is grouped
as a whole and whose other is not. -/
structure Hidden (g : Generics) (ty ty' : Node) : Prop where
  generic : dependsOnGenerics ty g = true
  unbound : hasBound copyNames ty g = false ∧ hasBound cloneNames ty g = false
  projection : ∃ owner path key, ChildProjection owner path key (strip ty)
  grouped : ty.label.groups ≠ ty'.label.groups

theorem hasExplicitCloneBound_of_copy {ty : Node} {g : Generics}
    (h : hasExplicitCopyBound ty g = true) : hasExplicitCloneBound ty g = true := by
  rw [hasExplicitCloneBound_eq, h, Bool.true_or]

theorem ChildProjection.shared {owner path key ty : Node} (h : ChildProjection owner path key ty) :
    ty.label.shared = false := by
  cases h
  rfl

/-- A projection has the flags only by a bound. -/
theorem ChildProjection.flags {owner path key ty : Node} {g : Generics}
    (h : ChildProjection owner path key (strip ty)) (hcopy : hasBound copyNames ty g = false)
    (hclone : hasBound cloneNames ty g = false) :
    hasExplicitCopyBound ty g = false ∧ hasExplicitCloneBound ty g = false := by
  rw [hasExplicitCloneBound_eq, hasExplicitCopyBound_eq, h.shared, hcopy, hclone]
  exact ⟨rfl, rfl⟩

/-- What a generic type without flags inherits. -/
theorem selectPolicy_unbound {g : Generics} {ty : Node} {localPolicy : Bool}
    (hgeneric : dependsOnGenerics ty g = true) (hcopy : hasExplicitCopyBound ty g = false)
    (hclone : hasExplicitCloneBound ty g = false) :
    selectPolicy g ty localPolicy =
      some ((projectedPolicy ty localPolicy).getD (.policy false localPolicy false)) := by
  simp [selectPolicy, hgeneric, hcopy, hclone]

theorem selectPolicy_bound {g : Generics} {ty : Node} {localPolicy : Bool}
    (hgeneric : dependsOnGenerics ty g = true)
    (hflags : hasExplicitCopyBound ty g = true ∨ hasExplicitCloneBound ty g = true) :
    selectPolicy g ty localPolicy =
      some (.policy (hasExplicitCopyBound ty g) localPolicy (hasExplicitCloneBound ty g)) := by
  rcases hflags with h | h <;> simp [selectPolicy, hgeneric, h]

/-- Whether a type is a projection under its outermost grouping does not depend on grouping. -/
theorem projection_regroups {ty ty' : Node} (hty : Regroups ty ty')
    (h : ∃ owner path key, ChildProjection owner path key (strip ty)) :
    ∃ owner path key, ChildProjection owner path key (strip ty') := by
  rcases h with ⟨owner, path, key, hprojection⟩
  rcases hprojection.regroups hty.strip.1.symm hty.strip.2 with ⟨owner', path', key', h', _⟩
  exact ⟨owner', path', key', h'⟩

theorem projectedPolicy_plain {ty : Node} (localPolicy : Bool) (hplain : ty.label.groups = false)
    (h : ∃ owner path key, ChildProjection owner path key (strip ty)) :
    ∃ owner path key,
      projectedPolicy ty localPolicy = some (.registration owner path key localPolicy) := by
  rw [strip_of_plain hplain] at h
  rcases h with ⟨owner, path, key, hprojection⟩
  exact ⟨owner, path, key, projectedPolicy_eq_some_iff.2 ⟨_, _, _, hprojection, rfl⟩⟩

theorem projectedPolicy_none {ty : Node} {localPolicy : Bool}
    (h : ¬∃ owner path key, ChildProjection owner path key (strip ty)) :
    projectedPolicy ty localPolicy = none := by
  cases hgroups : ty.label.groups with
  | true => exact projectedPolicy_grouping hgroups
  | false =>
      cases hprojected : projectedPolicy ty localPolicy with
      | none => rfl
      | some p =>
          rcases projectedPolicy_eq_some_iff.1 hprojected with ⟨owner, path, key, hprojection, _⟩
          rw [strip_of_plain hgroups] at h
          exact absurd ⟨owner, path, key, hprojection⟩ h

section Grouping

variable {g g' : Generics} {ty ty' : Node} {localPolicy : Bool}

/-- What is inherited is the same where both spellings are grouped as a whole, or neither. -/
theorem inherited_regroups (hty : Regroups ty ty')
    (hgroups : ty.label.groups = ty'.label.groups) :
    ((projectedPolicy ty localPolicy).getD (.policy false localPolicy false)).Same
      ((projectedPolicy ty' localPolicy).getD (.policy false localPolicy false)) := by
  cases hplain : ty.label.groups with
  | true =>
      rw [projectedPolicy_grouping hplain, projectedPolicy_grouping (hgroups.symm.trans hplain)]
      exact .policy false localPolicy false
  | false =>
      have hplain' : ty'.label.groups = false := hgroups.symm.trans hplain
      cases hprojected : projectedPolicy ty localPolicy with
      | some p =>
          rcases projectedPolicy_regroups hty hplain hplain' hprojected with ⟨p', hp', hsame⟩
          rw [hp']
          exact hsame
      | none =>
          cases hprojected' : projectedPolicy ty' localPolicy with
          | none => exact .policy false localPolicy false
          | some p' =>
              rcases projectedPolicy_regroups hty.symm hplain' hplain hprojected' with ⟨p, hp, _⟩
              rw [hprojected] at hp
              cases hp

/-- Grouping that hides a projection changes its policy. -/
theorem Hidden.differs (hg : RegroupsGenerics g g') (hty : Regroups ty ty')
    (h : Hidden g ty ty') :
    ¬Option.Rel Policy.Same (selectPolicy g ty localPolicy) (selectPolicy g' ty' localPolicy) := by
  rcases h.projection with ⟨owner, path, key, hprojection⟩
  have hflags := hprojection.flags h.unbound.1 h.unbound.2
  have hcopy' := hasExplicitCopyBound_regroups hg hty ▸ hflags.1
  have hclone' := hasExplicitCloneBound_regroups hg hty ▸ hflags.2
  have hgeneric' := dependsOnGenerics_regroups hg hty ▸ h.generic
  rw [selectPolicy_unbound h.generic hflags.1 hflags.2,
    selectPolicy_unbound hgeneric' hcopy' hclone']
  intro hrel
  cases hrel with
  | some hsame =>
      cases hgroups : ty.label.groups with
      | true =>
          have hplain' : ty'.label.groups = false := by
            have hne := h.grouped
            rw [hgroups] at hne
            simpa using hne.symm
          rcases projectedPolicy_plain localPolicy hplain'
            (projection_regroups hty h.projection) with ⟨_, _, _, hprojected⟩
          rw [projectedPolicy_grouping hgroups, hprojected] at hsame
          cases hsame
      | false =>
          have hgroups' : ty'.label.groups = true := by
            have hne := h.grouped
            rw [hgroups] at hne
            simpa using hne.symm
          rcases projectedPolicy_plain localPolicy hgroups h.projection with
            ⟨_, _, _, hprojected⟩
          rw [projectedPolicy_grouping hgroups', hprojected] at hsame
          cases hsame

/-- Grouping that hides no projection leaves the policy. -/
theorem selectPolicy_regroups (hg : RegroupsGenerics g g') (hty : Regroups ty ty')
    (h : ¬Hidden g ty ty') :
    Option.Rel Policy.Same (selectPolicy g ty localPolicy) (selectPolicy g' ty' localPolicy) := by
  have hcopy := hasExplicitCopyBound_regroups hg hty
  have hclone := hasExplicitCloneBound_regroups hg hty
  have hdepends := dependsOnGenerics_regroups hg hty
  cases hgeneric : dependsOnGenerics ty g with
  | false =>
      rw [hgeneric] at hdepends
      rw [selectPolicy, selectPolicy, hgeneric, ← hdepends]
      exact .none
  | true =>
      by_cases hflags : hasExplicitCopyBound ty g = true ∨ hasExplicitCloneBound ty g = true
      · have hflags' := hflags
        rw [hcopy, hclone] at hflags'
        rw [selectPolicy_bound hgeneric hflags, selectPolicy_bound (hdepends ▸ hgeneric) hflags',
          hcopy, hclone]
        exact .some (.policy _ _ _)
      · rw [not_or, Bool.not_eq_true, Bool.not_eq_true] at hflags
        rw [selectPolicy_unbound hgeneric hflags.1 hflags.2,
          selectPolicy_unbound (hdepends ▸ hgeneric) (hcopy ▸ hflags.1) (hclone ▸ hflags.2)]
        apply Option.Rel.some
        by_cases hprojection : ∃ owner path key, ChildProjection owner path key (strip ty)
        · apply inherited_regroups hty
          by_contra hne
          have hbounds := hflags
          rw [hasExplicitCloneBound_eq, hasExplicitCopyBound_eq, Bool.or_eq_false_iff,
            Bool.or_eq_false_iff] at hbounds
          exact h ⟨hgeneric, ⟨hbounds.1.2, hbounds.2.2⟩, hprojection, hne⟩
        · have hprojection' : ¬∃ owner path key, ChildProjection owner path key (strip ty') :=
            fun h' => hprojection (projection_regroups hty.symm h')
          rw [projectedPolicy_none hprojection, projectedPolicy_none hprojection']
          exact .policy _ _ _

/-- Regrouping a registered type and the bounded types of the where clause keeps its policy exactly
when it does not hide a child projection. -/
theorem policy_stable_iff (hg : RegroupsGenerics g g') (hty : Regroups ty ty') :
    PolicyStable g g' ty ty' localPolicy ↔ ¬Hidden g ty ty' := by
  constructor
  · intro h hhidden
    exact hhidden.differs hg hty h.same
  · intro h
    exact
      { same := selectPolicy_regroups hg hty h
        tuple := tuple_not_confused
        wrapper := fun _ _ hwraps => hwraps.not_confused
        copy := hasExplicitCloneBound_of_copy }

end Grouping

/-- What a query of a child in type position expands to. -/
def registeredValue (owner path key : Node) : Node :=
  .node (.path .type true)
    [.node (.qself 3) [owner], .node (.segment ⟨false, "systasis"⟩) [],
      .node (.segment ⟨false, "scoped"⟩) [],
      .node (.segment ⟨false, "Registered"⟩) [.node (.angle false) [path, key]],
      .node (.segment ⟨false, "Value"⟩) [.node (.angle false) [.node (.lifetime ⟨false, "_"⟩) []]]]

/-- `fn build<T>()` -/
def oneParameter : Generics where
  params := [.type ⟨false, "T"⟩ [] none]
  whereClause := none

/-- Grouping the owner inside a projection keeps the policy. -/
theorem policy_stable_iff_owner :
    PolicyStable oneParameter oneParameter
      (registeredValue (simplePath .type "Child" [simplePath .type "T" []])
        (simplePath .type "Here" []) (simplePath .type "IName" []))
      (registeredValue (.node .paren [simplePath .type "Child" [simplePath .type "T" []]])
        (simplePath .type "Here" []) (simplePath .type "IName" [])) true :=
  (policy_stable_iff ⟨rfl, .nil⟩ (.first (.first (.paren rfl)))).2 fun h => h.grouped rfl

/-- A registered type `(resolve_type_from!(IName, child))` does not inherit the child's policy. -/
theorem policy_lost_under_parentheses :
    RegroupsGenerics oneParameter oneParameter ∧
      Regroups
        (registeredValue (simplePath .type "Child" [simplePath .type "T" []])
          (simplePath .type "Here" []) (simplePath .type "IName" []))
        (.node .paren
          [registeredValue (simplePath .type "Child" [simplePath .type "T" []])
            (simplePath .type "Here" []) (simplePath .type "IName" [])]) ∧
      ¬PolicyStable oneParameter oneParameter
        (registeredValue (simplePath .type "Child" [simplePath .type "T" []])
          (simplePath .type "Here" []) (simplePath .type "IName" []))
        (.node .paren
          [registeredValue (simplePath .type "Child" [simplePath .type "T" []])
            (simplePath .type "Here" []) (simplePath .type "IName" [])]) false := by
  have hg : RegroupsGenerics oneParameter oneParameter := ⟨rfl, .nil⟩
  have hty := Regroups.paren (t := registeredValue (simplePath .type "Child"
    [simplePath .type "T" []]) (simplePath .type "Here" []) (simplePath .type "IName" [])) rfl
  refine ⟨hg, hty, ?_⟩
  intro h
  refine Hidden.differs hg hty ?_ h.same
  exact
    { generic := by decide
      unbound := by decide
      projection := ⟨_, _, _, .mk rfl⟩
      grouped := by decide }

end Types
end Systasis
