import Mathlib.Logic.Relation
import Systasis.Analysis.Rewriting

/-!
# Written — the source that becomes the code of a registration

A type lookup in an initializer or a constructor is replaced by a written type: the type of another
registration, an interface of it, or the type of a child.  `Inserts` is one such replacement, on the
source as it is written.  The code the analysis is given has a query as a statement exactly when one
is written in the code of the registration or in a type that such replacements reach.
-/

namespace Systasis
namespace Analysis

open Syntax Systasis.Graph

variable {n : Nat}

/-! ## What lookups put into the code -/

/-- What is still to be read in a piece of source: the child queries and the type lookups of what
is written in the declaration, the type lookups in the type of a child, and nothing in the interface
that stands for a trait object. -/
inductive Stage where
  | written
  | projected
  | target
  deriving DecidableEq, Repr

/-- A macro in type position that names a child. -/
def NamesChild (children : List ChildRegistration) (mac : Macro) (child : ChildRegistration) :
    Prop :=
  ∃ tokens found, childSite ⟨.typeInvocation mac, [], false⟩ = some (.type tokens) ∧
    target children tokens = .ok (some found) ∧ children[found.1]? = some child

/-- A macro in type position that looks registration `index` up. -/
def LooksUp (tables : Types n) (mac : Macro) (dynamic : Bool) (index : Fin n) : Prop :=
  ∃ site, typeSite ⟨.typeInvocation mac, [], false⟩ = some site ∧
    names tables site = some (dynamic, index)

section

variable (children : List ChildRegistration) (registrations : Fin n → Registration)

/-- A lookup in a piece of source puts another piece of source into its place. -/
inductive Inserts : Stage × Node → Stage × Node → Prop
  | child {node : Node} {mac : Macro} {child : ChildRegistration} :
      .type mac ∈ Rose.found occurrence node → NamesChild children mac child →
        Inserts (.written, node) (.projected, child.ty)
  | concrete {stage : Stage} {node : Node} {mac : Macro} {index : Fin n} :
      stage ≠ .target → .type mac ∈ Rose.found occurrence node →
        (stage = .written → ∀ child, ¬ NamesChild children mac child) →
          LooksUp (Types.of registrations) mac false index →
            Inserts (stage, node) (.written, (registrations index).ty)
  | dynamic {stage : Stage} {node object : Node} {mac : Macro} {index : Fin n} :
      stage ≠ .target → .type mac ∈ Rose.found occurrence node →
        (stage = .written → ∀ child, ¬ NamesChild children mac child) →
          LooksUp (Types.of registrations) mac true index →
            dynTarget index (registrations index) = some object →
              Inserts (stage, node) (.target, object)

end

/-- What there is of a piece of code after its lookups, on the tables they read. -/
inductive Brought (tables : Types n) : Node → Node → Prop
  | self (node : Node) : Brought tables node node
  | concrete {node source : Node} {mac : Macro} {index : Fin n} :
      .type mac ∈ Rose.found occurrence node → LooksUp tables mac false index →
        Brought tables (tables.types index) source → Brought tables node source
  | dynamic {node object : Node} {mac : Macro} {index : Fin n} :
      .type mac ∈ Rose.found occurrence node → LooksUp tables mac true index →
        tables.dynamic index = some object → Brought tables node object

/-! ## Child queries -/

section Children

variable {children : List ChildRegistration} {inConstructor : Bool}

theorem NamesChild.unique {mac : Macro} {child child' : ChildRegistration}
    (h : NamesChild children mac child) (h' : NamesChild children mac child') : child = child' := by
  rcases h with ⟨tokens, found, hsite, htarget, hchild⟩
  rcases h' with ⟨tokens', found', hsite', htarget', hchild'⟩
  cases hsite.symm.trans hsite'
  cases htarget.symm.trans htarget'
  exact Option.some.inj (hchild.symm.trans hchild')

/-- A projection is the type of its child, to any search for macros. -/
theorem found_projection (child : Node) (path : List String) (interface : String) (dynamic : Bool) :
    Rose.found occurrence (projection child path interface dynamic) =
      Rose.found occurrence child := by
  simp [projection, Rose.found, Rose.foundAll, occurrence]

/-- A lookup that names no child stays, and one that does becomes a projection of its type. -/
theorem dispatch_type {mac : Macro} {site : ChildSite}
    (hsite : childSite ⟨.typeInvocation mac, [], false⟩ = some site) (node : Node) :
    (dispatchSite children inConstructor site node = node ∧
        ∀ child, ¬ NamesChild children mac child) ∨
      ∃ child, NamesChild children mac child ∧
        Rose.found occurrence (dispatchSite children inConstructor site node) =
          Rose.found occurrence child.ty := by
  have htype : ∃ tokens, site = .type tokens := by
    simp only [childSite] at hsite
    split at hsite
    · split at hsite <;> cases hsite
      exact ⟨_, rfl⟩
    · cases hsite
  rcases htype with ⟨tokens, rfl⟩
  have hnames : ∀ {child}, NamesChild children mac child →
      ∃ found, target children tokens = .ok (some found) ∧ children[found.1]? = some child := by
    rintro child ⟨tokens', found, hsite', htarget, hchild⟩
    cases hsite.symm.trans hsite'
    exact ⟨found, htarget, hchild⟩
  cases htarget : target children tokens with
  | error error =>
      refine .inl ⟨by simp [dispatchSite, htarget], fun child h => ?_⟩
      rcases hnames h with ⟨_, hfound, _⟩
      simp [htarget] at hfound
  | ok outcome =>
      cases outcome with
      | none =>
          refine .inl ⟨by simp [dispatchSite, htarget], fun child h => ?_⟩
          rcases hnames h with ⟨_, hfound, _⟩
          simp [htarget] at hfound
      | some found =>
          cases hchild : children[found.1]? with
          | none =>
              refine .inl ⟨by simp [dispatchSite, htarget, hchild], fun child h => ?_⟩
              rcases hnames h with ⟨_, hfound, hchild'⟩
              cases htarget.symm.trans hfound
              simp [hchild] at hchild'
          | some child =>
              refine .inr ⟨child, ⟨tokens, found, hsite, htarget, hchild⟩, ?_⟩
              simp only [dispatchSite, htarget, hchild, found_projection]

/-- The child pass makes `o` of a macro `o'` that is no expression: it leaves the macro, or puts the
type of the child there that the macro names. -/
def Becomes (children : List ChildRegistration) (o o' : Occurrence) : Prop :=
  (o = o' ∧ ∀ mac child, o' = .type mac → ¬ NamesChild children mac child) ∨
    ∃ mac child, o' = .type mac ∧ NamesChild children mac child ∧ o ∈ Rose.found occurrence child.ty

/-- A macro the child pass does not look at names no child. -/
theorem becomes_unseen {label : Label} {o o' : Occurrence} (hsite : childSite label = none)
    (hoccurrence : occurrence label = some o') : Becomes children o o' ↔ o = o' := by
  have hplain : ∀ mac child, o' = .type mac → ¬ NamesChild children mac child := by
    rintro mac child rfl ⟨tokens, found, hnames, _⟩
    rcases label with ⟨form, attrs, semi⟩
    cases form <;> simp only [occurrence, Option.some.injEq, reduceCtorEq] at hoccurrence
    cases hoccurrence
    cases hsite.symm.trans hnames
  constructor
  · rintro (⟨rfl, _⟩ | ⟨mac, child, rfl, hnames, _⟩)
    · rfl
    · exact absurd hnames (hplain mac child rfl)
  · rintro rfl
    exact .inl ⟨rfl, hplain⟩

theorem becomes_type {mac : Macro} {attrs : List Attribute} {semi : Bool} {site : ChildSite}
    (hsite : childSite ⟨.typeInvocation mac, attrs, semi⟩ = some site) (below : List Node)
    (o : Occurrence) :
    Becomes children o (.type mac) ↔
      o ∈ Rose.found occurrence
        (dispatchSite children inConstructor site (.node ⟨.typeInvocation mac, attrs, semi⟩ below)) := by
  rcases @dispatch_type children inConstructor mac site hsite
    (.node ⟨.typeInvocation mac, attrs, semi⟩ below) with ⟨hstays, hnone⟩ | ⟨child, hnames, hfound⟩
  · rw [hstays]
    simp only [Rose.found, occurrence, List.mem_singleton]
    constructor
    · rintro (⟨rfl, _⟩ | ⟨_, child, heq, hnames, _⟩)
      · rfl
      · cases heq
        exact absurd hnames (hnone child)
    · rintro rfl
      refine .inl ⟨rfl, ?_⟩
      rintro _ child heq
      cases heq
      exact hnone child
  · rw [hfound]
    constructor
    · rintro (⟨_, hplain⟩ | ⟨_, child', heq, hnames', hmem⟩)
      · exact absurd hnames (hplain mac child rfl)
      · cases heq
        rwa [hnames.unique hnames']
    · intro hmem
      exact .inr ⟨mac, child, rfl, hnames, hmem⟩

/-- A query expression is replaced by a call or stays what it is. -/
theorem notMem_dispatchSite {mac : Macro} {attrs : List Attribute} {semi : Bool} {site : ChildSite}
    (hsite : childSite ⟨.invocation mac, attrs, semi⟩ = some site) (below : List Node)
    {o : Occurrence} (ho : ∀ mac, o ≠ .expression mac) :
    o ∉ Rose.found occurrence
      (dispatchSite children inConstructor site (.node ⟨.invocation mac, attrs, semi⟩ below)) := by
  have hself : o ∉ Rose.found occurrence (.node ⟨.invocation mac, attrs, semi⟩ below) := by
    simp [Rose.found, occurrence, ho mac]
  cases site with
  | query invocation =>
      simp only [dispatchSite]
      split
      · exact hself
      · split
        · simp [generatedCall, Rose.found, occurrence, Rose.foundAll]
        · exact hself
  | type tokens =>
      simp only [childSite] at hsite
      split at hsite
      · split at hsite <;> cases hsite
      · cases hsite

/-- The child pass leaves the macros that are no expressions in place, except for lookups that name
a child: these become a projection of its type. -/
theorem mem_dispatched_iff {o : Occurrence} (ho : ∀ mac, o ≠ .expression mac) {node : Node} :
    o ∈ Rose.found occurrence
        (Rose.replace childSite (dispatchSite children inConstructor) node) ↔
      (o ∈ Rose.found occurrence node ∧ ∀ mac child, o = .type mac → ¬ NamesChild children mac child) ∨
        ∃ mac child, .type mac ∈ Rose.found occurrence node ∧ NamesChild children mac child ∧
          o ∈ Rose.found occurrence child.ty := by
  have hcomes := @Rose.mem_found_replace_iff _ _ _ childSite (dispatchSite children inConstructor)
    occurrence (Becomes children o) node o (fun _ => occurrence_of_childSite)
    (fun _ _ => becomes_unseen) ?_
  · rw [hcomes]
    constructor
    · rintro ⟨o', hmem, ⟨rfl, hnone⟩ | ⟨mac, child, rfl, hnames, hchild⟩⟩
      · exact .inl ⟨hmem, hnone⟩
      · exact .inr ⟨mac, child, hmem, hnames, hchild⟩
    · rintro (⟨hmem, hnone⟩ | ⟨mac, child, hmem, hnames, hchild⟩)
      · exact ⟨o, hmem, .inl ⟨rfl, hnone⟩⟩
      · exact ⟨_, hmem, .inr ⟨mac, child, rfl, hnames, hchild⟩⟩
  · intro site label below o' hsite hoccurrence
    rcases label with ⟨form, attrs, semi⟩
    cases form with
    | invocation mac =>
        cases hoccurrence
        refine iff_of_false ?_ (notMem_dispatchSite hsite below ho)
        rintro (⟨rfl, _⟩ | ⟨_, _, heq, _⟩)
        · exact ho mac rfl
        · cases heq
    | typeInvocation mac =>
        cases hoccurrence
        exact becomes_type hsite below o
    | _ => simp [childSite] at hsite

end Children

/-! ## Type lookups -/

section Lookups

variable {tables : Types n}

/-- What a lookup that is read at a node puts there comes from the macro of the node. -/
theorem brought_of_site {mac : Macro} {attrs : List Attribute} {semi : Bool} {below : List Node}
    {source : Node} (h : Brought tables (.node ⟨.typeInvocation mac, attrs, semi⟩ below) source) :
    source = .node ⟨.typeInvocation mac, attrs, semi⟩ below ∨
      (∃ index, LooksUp tables mac false index ∧ Brought tables (tables.types index) source) ∨
      ∃ index, LooksUp tables mac true index ∧ tables.dynamic index = some source := by
  have hmacro : ∀ {mac'}, .type mac' ∈ Rose.found occurrence
      (.node ⟨.typeInvocation mac, attrs, semi⟩ below) → mac' = mac := by
    intro mac' hmem
    simp only [Rose.found, occurrence, List.mem_singleton, Occurrence.type.injEq] at hmem
    exact hmem
  cases h with
  | self => exact .inl rfl
  | concrete hmem hlooks hbrought =>
      cases hmacro hmem
      exact .inr (.inl ⟨_, hlooks, hbrought⟩)
  | dynamic hmem hlooks hobject =>
      cases hmacro hmem
      exact .inr (.inr ⟨_, hlooks, hobject⟩)

/-- A node without a macro of its own brings in what its children do. -/
theorem exists_brought_children {o : Occurrence} {label : Label} {children : List Node}
    (hlabel : occurrence label = none) :
    (∃ source, Brought tables (.node label children) source ∧ o ∈ Rose.found occurrence source) ↔
      ∃ child ∈ children, ∃ source, Brought tables child source ∧
        o ∈ Rose.found occurrence source := by
  have hfound : ∀ o', o' ∈ Rose.found occurrence (.node label children) ↔
      ∃ child ∈ children, o' ∈ Rose.found occurrence child := by
    intro o'
    simp only [Rose.found, hlabel]
    exact Rose.mem_foundAll
  constructor
  · rintro ⟨source, hbrought, hmem⟩
    cases hbrought with
    | self =>
        rcases (hfound o).1 hmem with ⟨child, hchild, hmem⟩
        exact ⟨child, hchild, child, .self child, hmem⟩
    | concrete hmac hlooks hbrought =>
        rcases (hfound _).1 hmac with ⟨child, hchild, hmac⟩
        exact ⟨child, hchild, source, .concrete hmac hlooks hbrought, hmem⟩
    | dynamic hmac hlooks hobject =>
        rcases (hfound _).1 hmac with ⟨child, hchild, hmac⟩
        exact ⟨child, hchild, source, .dynamic hmac hlooks hobject, hmem⟩
  · rintro ⟨child, hchild, source, hbrought, hmem⟩
    cases hbrought with
    | self => exact ⟨_, .self _, (hfound o).2 ⟨child, hchild, hmem⟩⟩
    | concrete hmac hlooks hbrought =>
        exact ⟨source, .concrete ((hfound _).2 ⟨child, hchild, hmac⟩) hlooks hbrought, hmem⟩
    | dynamic hmac hlooks hobject =>
        exact ⟨source, .dynamic ((hfound _).2 ⟨child, hchild, hmac⟩) hlooks hobject, hmem⟩

/-- The macro of a node that is no lookup brings nothing in. -/
theorem exists_brought_self {o o' : Occurrence} {label : Label} {children : List Node}
    (hlabel : occurrence label = some o') (hsite : typeSite label = none) :
    (∃ source, Brought tables (.node label children) source ∧ o ∈ Rose.found occurrence source) ↔
      o = o' := by
  have hfound : Rose.found occurrence (.node label children) = [o'] := by
    simp only [Rose.found, hlabel]
  have hno : ∀ {mac dynamic index}, .type mac ∈ Rose.found occurrence (.node label children) →
      ¬ LooksUp tables mac dynamic index := by
    rintro mac dynamic index hmac ⟨site, hsite', _⟩
    rw [hfound, List.mem_singleton] at hmac
    subst hmac
    rcases label with ⟨form, attrs, semi⟩
    cases form <;> simp only [occurrence, Option.some.injEq, reduceCtorEq] at hlabel
    cases hlabel
    cases hsite.symm.trans hsite'
  constructor
  · rintro ⟨source, hbrought, hmem⟩
    cases hbrought with
    | self => exact List.mem_singleton.1 (hfound ▸ hmem)
    | concrete hmac hlooks _ => exact absurd hlooks (hno hmac)
    | dynamic hmac hlooks _ => exact absurd hlooks (hno hmac)
  · rintro rfl
    exact ⟨_, .self _, by rw [hfound]; exact List.mem_singleton_self _⟩

section Site

variable {mac mac' : Macro} {attrs : List Attribute} {semi : Bool} {below : List Node} {site : TypeSite}
  {index : Fin n}

/-- A lookup of a registration brings in what its type does. -/
theorem exists_brought_concrete (hsite : typeSite ⟨.typeInvocation mac', attrs, semi⟩ = some site)
    (hnames : names tables site = some (false, index)) :
    (∃ source, Brought tables (.node ⟨.typeInvocation mac', attrs, semi⟩ below) source ∧
        .statement mac ∈ Rose.found occurrence source) ↔
      ∃ source, Brought tables (tables.types index) source ∧
        .statement mac ∈ Rose.found occurrence source := by
  constructor
  · rintro ⟨source, hbrought, hmem⟩
    rcases brought_of_site hbrought with
      rfl | ⟨index', ⟨_, hsite', hnames'⟩, hbrought⟩ | ⟨_, ⟨_, hsite', hnames'⟩, _⟩
    · simp [Rose.found, occurrence] at hmem
    · cases hsite.symm.trans hsite'
      cases hnames.symm.trans hnames'
      exact ⟨source, hbrought, hmem⟩
    · cases hsite.symm.trans hsite'
      cases hnames.symm.trans hnames'
  · rintro ⟨source, hbrought, hmem⟩
    exact ⟨source, .concrete (by simp [Rose.found, occurrence]) ⟨site, hsite, hnames⟩ hbrought, hmem⟩

/-- A lookup of an interface brings the trait object in and reads nothing in it. -/
theorem exists_brought_dynamic {object : Node}
    (hsite : typeSite ⟨.typeInvocation mac', attrs, semi⟩ = some site)
    (hnames : names tables site = some (true, index))
    (hobject : tables.dynamic index = some object) :
    (∃ source, Brought tables (.node ⟨.typeInvocation mac', attrs, semi⟩ below) source ∧
        .statement mac ∈ Rose.found occurrence source) ↔
      .statement mac ∈ Rose.found occurrence object := by
  constructor
  · rintro ⟨source, hbrought, hmem⟩
    rcases brought_of_site hbrought with
      rfl | ⟨_, ⟨_, hsite', hnames'⟩, _⟩ | ⟨index', ⟨_, hsite', hnames'⟩, hobject'⟩
    · simp [Rose.found, occurrence] at hmem
    · cases hsite.symm.trans hsite'
      cases hnames.symm.trans hnames'
    · cases hsite.symm.trans hsite'
      cases hnames.symm.trans hnames'
      cases hobject.symm.trans hobject'
      exact hmem
  · intro hmem
    exact ⟨object, .dynamic (by simp [Rose.found, occurrence]) ⟨site, hsite, hnames⟩ hobject, hmem⟩

end Site

/-- What there is of a macro after the lookups was there before, or in what they brought in. -/
theorem mem_unfolded_iff {mac : Macro} {node unfolded : Node} (h : Unfolds tables node unfolded) :
    .statement mac ∈ Rose.found occurrence unfolded ↔
      ∃ source, Brought tables node source ∧ .statement mac ∈ Rose.found occurrence source := by
  refine @Unfolds.rec n tables
    (fun node unfolded _ => .statement mac ∈ Rose.found occurrence unfolded ↔
      ∃ source, Brought tables node source ∧ .statement mac ∈ Rose.found occurrence source)
    (fun nodes unfolded _ => .statement mac ∈ Rose.foundAll occurrence unfolded ↔
      ∃ node ∈ nodes, ∃ source, Brought tables node source ∧
        .statement mac ∈ Rose.found occurrence source)
    ?_ ?_ ?_ ?_ ?_ node unfolded h
  · intro label children unfolded hsite _ ih
    cases hlabel : occurrence label with
    | none =>
        rw [exists_brought_children hlabel, ← ih]
        simp only [Rose.found, hlabel]
    | some o =>
        rw [exists_brought_self hlabel hsite]
        simp only [Rose.found, hlabel, List.mem_singleton]
  · intro label children site index unfolded hsite hnames _ ih
    rw [ih]
    rcases label with ⟨form, attrs, semi⟩
    cases form with
    | typeInvocation mac' => exact (exists_brought_concrete hsite hnames).symm
    | _ => simp [typeSite] at hsite
  · intro label children site index object hsite hnames hobject
    rcases label with ⟨form, attrs, semi⟩
    cases form with
    | typeInvocation mac' =>
        rw [exists_brought_dynamic hsite hnames hobject]
        simp [parenthesized, Rose.found, Rose.foundAll, occurrence]
    | _ => simp [typeSite] at hsite
  · simp [Rose.foundAll]
  · intro node unfolded rest others _ _ ihnode ihrest
    simp only [Rose.foundAll, List.mem_append, ihnode, ihrest, List.mem_cons, exists_eq_or_imp]

end Lookups

/-! ## From the written source to the code and back -/

section Origins

variable {children : List ChildRegistration} {registrations : Fin n → Registration}
  {tables : Types n}

/-- What the type lookups are given of a piece of source. -/
def Prepares (children : List ChildRegistration) : Stage → Node → Node → Prop
  | .written, node, read =>
      ∃ inConstructor, read = Rose.replace childSite (dispatchSite children inConstructor) node
  | _, node, read => read = node

theorem mem_prepared_iff {stage : Stage} {node read : Node} (h : Prepares children stage node read)
    {o : Occurrence} (ho : ∀ mac, o ≠ .expression mac) :
    o ∈ Rose.found occurrence read ↔
      (o ∈ Rose.found occurrence node ∧
          (stage = .written → ∀ mac child, o = .type mac → ¬ NamesChild children mac child)) ∨
        stage = .written ∧ ∃ mac child, .type mac ∈ Rose.found occurrence node ∧
          NamesChild children mac child ∧ o ∈ Rose.found occurrence child.ty := by
  cases stage with
  | written =>
      rcases h with ⟨inConstructor, rfl⟩
      simp [mem_dispatched_iff ho]
  | projected =>
      cases h
      simp
  | target =>
      cases h
      simp

/-- The tables of the type lookups hold the written types, after their child queries. -/
structure Tabulates (children : List ChildRegistration) (registrations : Fin n → Registration)
    (tables : Types n) : Prop where
  types : ∀ index, Prepares children .written (registrations index).ty (tables.types index)
  names : ∀ site, names tables site = names (Types.of registrations) site
  dynamic : ∀ index, tables.dynamic index = dynTarget index (registrations index)

theorem Tabulates.looksUp (h : Tabulates children registrations tables) {mac : Macro}
    {dynamic : Bool} {index : Fin n} :
    LooksUp tables mac dynamic index ↔ LooksUp (Types.of registrations) mac dynamic index := by
  simp only [LooksUp, h.names]

/-- A lookup that is read is written in the source, or in the type of a child it names. -/
theorem reads_of_type {stage : Stage} {node read : Node} (hstage : stage ≠ .target)
    (h : Prepares children stage node read) {mac : Macro}
    (hmem : .type mac ∈ Rose.found occurrence read) :
    ∃ stage' node', Relation.ReflTransGen (Inserts children registrations) (stage, node)
        (stage', node') ∧ stage' ≠ .target ∧ .type mac ∈ Rose.found occurrence node' ∧
          (stage' = .written → ∀ child, ¬ NamesChild children mac child) := by
  rcases (mem_prepared_iff h (by simp)).1 hmem with
    ⟨hmem, hnone⟩ | ⟨rfl, mac', child, hmac', hnames, hmem⟩
  · exact ⟨stage, node, .refl, hstage, hmem, fun hwritten child => hnone hwritten mac child rfl⟩
  · exact ⟨.projected, child.ty, .single (.child hmac' hnames), by simp, hmem, by simp⟩

/-- A statement in what the lookups bring in is written somewhere the source reaches. -/
theorem reads_of_brought (htables : Tabulates children registrations tables) {read source : Node}
    (h : Brought tables read source) {mac : Macro}
    (hmem : .statement mac ∈ Rose.found occurrence source) :
    ∀ {stage : Stage} {node : Node}, stage ≠ .target → Prepares children stage node read →
      ∃ origin, Relation.ReflTransGen (Inserts children registrations) (stage, node) origin ∧
        .statement mac ∈ Rose.found occurrence origin.2 := by
  induction h with
  | self read =>
      intro stage node _ hprepares
      rcases (mem_prepared_iff hprepares (by simp)).1 hmem with
        ⟨hmem, _⟩ | ⟨rfl, mac', child, hmac', hnames, hmem⟩
      · exact ⟨(stage, node), .refl, hmem⟩
      · exact ⟨(.projected, child.ty), .single (.child hmac' hnames), hmem⟩
  | concrete hmac hlooks _ ih =>
      intro stage node hstage hprepares
      rcases reads_of_type hstage hprepares hmac with ⟨stage', node', hreads, hstage', hmac', hnone⟩
      rcases ih hmem (by simp) (htables.types _) with ⟨origin, horigin, hmem⟩
      refine ⟨origin, hreads.trans (.head ?_ horigin), hmem⟩
      exact .concrete hstage' hmac' hnone (htables.looksUp.1 hlooks)
  | dynamic hmac hlooks hobject =>
      intro stage node hstage hprepares
      rcases reads_of_type hstage hprepares hmac with ⟨stage', node', hreads, hstage', hmac', hnone⟩
      refine ⟨(.target, _), hreads.tail ?_, hmem⟩
      exact .dynamic hstage' hmac' hnone (htables.looksUp.1 hlooks) (htables.dynamic _ ▸ hobject)

/-- A statement that is written somewhere the source reaches is in what the lookups bring in. -/
theorem brought_of_reads (htables : Tabulates children registrations tables)
    {start origin : Stage × Node}
    (h : Relation.ReflTransGen (Inserts children registrations) start origin) {mac : Macro}
    (hmem : .statement mac ∈ Rose.found occurrence origin.2) :
    (start.1 = .target → .statement mac ∈ Rose.found occurrence start.2) ∧
      (start.1 ≠ .target → ∀ read, Prepares children start.1 start.2 read →
        ∃ source, Brought tables read source ∧ .statement mac ∈ Rose.found occurrence source) := by
  induction h using Relation.ReflTransGen.head_induction_on with
  | refl =>
      refine ⟨fun _ => hmem, fun _ read hprepares => ⟨read, .self read, ?_⟩⟩
      exact (mem_prepared_iff hprepares (by simp)).2 (.inl ⟨hmem, by simp⟩)
  | head hstep _ ih =>
      cases hstep with
      | child hmac hnames =>
          refine ⟨by simp, fun _ read hprepares => ?_⟩
          rcases ih.2 (by simp) _ rfl with ⟨source, hbrought, hfound⟩
          -- The projection of the child is part of what is read.
          have hpart : ∀ {o : Occurrence}, (∀ mac, o ≠ .expression mac) →
              o ∈ Rose.found occurrence _ → o ∈ Rose.found occurrence read := fun ho hmem =>
            (mem_prepared_iff hprepares ho).2 (.inr ⟨rfl, _, _, hmac, hnames, hmem⟩)
          cases hbrought with
          | self => exact ⟨read, .self read, hpart (by simp) hfound⟩
          | concrete hmac' hlooks hbrought =>
              exact ⟨source, .concrete (hpart (by simp) hmac') hlooks hbrought, hfound⟩
          | dynamic hmac' hlooks hobject =>
              exact ⟨source, .dynamic (hpart (by simp) hmac') hlooks hobject, hfound⟩
      | concrete hstage hmac hnone hlooks =>
          refine ⟨fun htarget => absurd htarget hstage, fun _ read hprepares => ?_⟩
          rcases ih.2 (by simp) _ (htables.types _) with ⟨source, hbrought, hfound⟩
          refine ⟨source, .concrete ?_ (htables.looksUp.2 hlooks) hbrought, hfound⟩
          refine (mem_prepared_iff hprepares (by simp)).2 (.inl ⟨hmac, fun hwritten mac' child heq => ?_⟩)
          cases heq
          exact hnone hwritten child
      | dynamic hstage hmac hnone hlooks hobject =>
          refine ⟨fun htarget => absurd htarget hstage, fun _ read hprepares => ?_⟩
          refine ⟨_, .dynamic ?_ (htables.looksUp.2 hlooks) ((htables.dynamic _).trans hobject),
            ih.1 rfl⟩
          refine (mem_prepared_iff hprepares (by simp)).2 (.inl ⟨hmac, fun hwritten mac' child heq => ?_⟩)
          cases heq
          exact hnone hwritten child

/-- The code after child queries and type lookups has a statement macro exactly when one is written
in the source that becomes it. -/
theorem mem_statement_iff (htables : Tabulates children registrations tables)
    {node read unfolded : Node} (hprepares : Prepares children .written node read)
    (hunfolds : Unfolds tables read unfolded) {mac : Macro} :
    .statement mac ∈ Rose.found occurrence unfolded ↔
      ∃ origin, Relation.ReflTransGen (Inserts children registrations) (.written, node) origin ∧
        .statement mac ∈ Rose.found occurrence origin.2 := by
  rw [mem_unfolded_iff hunfolds]
  constructor
  · rintro ⟨source, hbrought, hmem⟩
    exact reads_of_brought htables hbrought hmem (by simp) hprepares
  · rintro ⟨origin, hreads, hmem⟩
    exact (brought_of_reads htables hreads hmem).2 (by simp) read hprepares

end Origins

/-! ## Every query -/

/-- A query statement is a macro in statement position, by its name a query. -/
theorem statement_free_iff (node : Node) :
    (∀ o ∈ queries node, o.isStatement = false) ↔
      ∀ mac, .statement mac ∈ Rose.found occurrence node → (Occurrence.statement mac).query = none := by
  constructor
  · intro h mac hmem
    by_contra hquery
    have hsome := Option.isSome_iff_ne_none.2 hquery
    cases h (.statement mac) (List.mem_filter.2 ⟨hmem, hsome⟩)
  · intro h o ho
    rcases List.mem_filter.1 ho with ⟨hmem, hquery⟩
    cases o with
    | statement mac => simp [h mac hmem] at hquery
    | expression mac => rfl
    | type mac => rfl

theorem childPass_written {children : List ChildRegistration} {r r' : Registration}
    {calls : List Call} (h : childPass children r = .ok (r', calls)) :
    Prepares children .written r.ty r'.ty ∧ r'.key = r.key ∧
      ∀ index : Fin n, dynTarget index r' = dynTarget index r := by
  simp only [childPass] at h
  split at h
  · cases h
  · cases h
    exact ⟨⟨false, by simp [visitChildren_eq]⟩, rfl, fun _ => rfl⟩

theorem tabulates_dispatched {children : List ChildRegistration} {unchecked : Bool}
    {registrations : Fin n → Registration} {out : Expansion n}
    (h : Expands children unchecked registrations out) :
    Tabulates children registrations (Types.of out.dispatched) := by
  rcases h.dispatched with ⟨calls, hdispatched, _⟩
  have hwritten := fun i => @childPass_written n _ _ _ _ (hdispatched i)
  have hindices : indices out.dispatched = indices registrations := by
    funext key
    simp only [indices, (hwritten _).2.1]
  refine ⟨fun index => (hwritten index).1, fun site => ?_, fun index => (hwritten index).2.2 index⟩
  simp only [names, Types.of, hindices]

/-- The code the analysis is given is the written code, after its lookups. -/
theorem code_unfolds {children : List ChildRegistration} {unchecked : Bool}
    {registrations : Fin n → Registration} {out : Expansion n}
    (h : Expands children unchecked registrations out) (i : Fin n) :
    (∀ unfolded ∈ (out.looked i).code, ∃ node ∈ (registrations i).code, ∃ read,
        Prepares children .written node read ∧ Unfolds (Types.of out.dispatched) read unfolded) ∧
      ∀ node ∈ (registrations i).code, ∃ unfolded ∈ (out.looked i).code, ∃ read,
        Prepares children .written node read ∧
          Unfolds (Types.of out.dispatched) read unfolded := by
  rcases h.dispatched with ⟨calls, hdispatched, _⟩
  rcases childPass_ok (hdispatched i) with ⟨hvalue, hconstructor⟩
  rcases analyse_ok (h.analysed i) with ⟨_, _, htypes, _⟩
  rcases typePass_ok htypes with ⟨hunfolds, hlooked, hlooked', _⟩
  have hread : Prepares children .written (registrations i).value (out.dispatched i).value :=
    ⟨false, hvalue⟩
  refine ⟨?_, ?_⟩
  · intro unfolded hmem
    rcases List.mem_cons.1 hmem with rfl | hmem
    · exact ⟨_, List.mem_cons_self, _, hread, hunfolds⟩
    · rcases hlooked unfolded (Option.mem_toList.1 hmem) with ⟨read, hclosure, hunfolded⟩
      rw [hconstructor, Option.mem_map] at hclosure
      rcases hclosure with ⟨node, hnode, rfl⟩
      exact ⟨node, List.mem_cons_of_mem _ (Option.mem_toList.2 hnode), _, ⟨true, rfl⟩, hunfolded⟩
  · intro node hmem
    rcases List.mem_cons.1 hmem with rfl | hmem
    · exact ⟨_, List.mem_cons_self, _, hread, hunfolds⟩
    · have hclosure : Rose.replace childSite (dispatchSite children true) node ∈
          (out.dispatched i).constructor := by
        rw [hconstructor, Option.mem_map]
        exact ⟨node, Option.mem_toList.1 hmem, rfl⟩
      rcases hlooked' _ hclosure with ⟨unfolded, hunfolded, hread'⟩
      exact ⟨unfolded, List.mem_cons_of_mem _ (Option.mem_toList.2 hunfolded), _, ⟨true, rfl⟩, hread'⟩

/-- The passes handle every query of a registration exactly when none stands as a statement in the
code of the registration, as it is written, or in a written type that its lookups reach. -/
theorem queries_handled_iff (children : List ChildRegistration) (unchecked : Bool)
    (registrations : Fin n → Registration) (out : Expansion n)
    (h : expandQueries children unchecked registrations = .ok out) (i : Fin n) :
    Handled children unchecked registrations out i ↔
      ∀ node ∈ (registrations i).code, ∀ source,
        Relation.ReflTransGen (Inserts children registrations) (.written, node) source →
          ∀ o ∈ queries source.2, o.isStatement = false := by
  have hexpands := expandQueries_ok h
  have htables := tabulates_dispatched hexpands
  rcases code_unfolds hexpands i with ⟨hbefore, hafter⟩
  rw [handled_iff_looked children unchecked registrations out h i]
  constructor
  · intro hlooked node hnode source hreads
    rcases hafter node hnode with ⟨unfolded, hunfolded, read, hprepares, hunfolds⟩
    have hfree := (statement_free_iff unfolded).1 (hlooked unfolded hunfolded)
    refine (statement_free_iff source.2).2 fun mac hmem => hfree mac ?_
    exact (mem_statement_iff htables hprepares hunfolds).2 ⟨source, hreads, hmem⟩
  · intro hwritten unfolded hunfolded
    rcases hbefore unfolded hunfolded with ⟨node, hnode, read, hprepares, hunfolds⟩
    refine (statement_free_iff unfolded).2 fun mac hmem => ?_
    rcases (mem_statement_iff htables hprepares hunfolds).1 hmem with ⟨source, hreads, hmem⟩
    exact (statement_free_iff source.2).1 (hwritten node hnode source hreads) mac hmem

/-- `name!(tokens);` -/
def queryStatement (name : String) (tokens : Tokens) : Node :=
  .node ⟨.macroStmt ⟨⟨false, false, [⟨false, name⟩]⟩, tokens⟩, [], true⟩ []

/-- A stored value `as IName`, and a value `as IReader` with the given initializer. -/
def reading (initializer : Node) : Fin 2 → Registration
  | 0 => nameValue
  | 1 => { nameValue with value := initializer, interface := "IReader" }

/-- `{ try_resolve!(IName) }` -/
def readingExpression : Node :=
  .node ⟨.block, [], false⟩ [queryExpression "try_resolve" (.query false "IName" none)]

/-- `{ try_resolve!(IName); }` -/
def readingStatement : Node :=
  .node ⟨.block, [], false⟩ [queryStatement "try_resolve" (.query false "IName" none)]

theorem queries_handled_iff_expression :
    ∃ out, expandQueries [] false (reading readingExpression) = .ok out ∧
      Handled [] false (reading readingExpression) out 1 := by
  have hok : (expandQueries [] false (reading readingExpression)).toOption.isSome = true := by
    decide +kernel
  cases hout : expandQueries [] false (reading readingExpression) with
  | error error => simp [hout, Except.toOption] at hok
  | ok out =>
      refine ⟨out, rfl, (queries_handled_iff [] false _ out hout 1).2 ?_⟩
      intro node hnode source hreads
      have hcode : node = readingExpression := List.mem_singleton.1 hnode
      subst hcode
      -- No type is looked up, so the initializer is all there is.
      have htypes : ∀ mac, .type mac ∉ Rose.found occurrence readingExpression := by
        simp [readingExpression, queryExpression, Rose.found, Rose.foundAll, occurrence]
      rcases Relation.ReflTransGen.cases_head hreads with rfl | ⟨_, hstep, _⟩
      · intro o ho
        rcases List.mem_singleton.1 (List.mem_filter.1 ho).1 with rfl
        rfl
      · cases hstep with
        | child hmem _ => exact absurd hmem (htypes _)
        | concrete _ hmem _ _ => exact absurd hmem (htypes _)
        | dynamic _ hmem _ _ _ => exact absurd hmem (htypes _)

/-- A query statement is neither recorded nor replaced, and nothing is reported. -/
theorem queries_miss_statement :
    ∃ out, expandQueries [] false (reading readingStatement) = .ok out ∧
      (0 : Fin 2) ∉ out.dependencies 1 ∧
      ¬ Handled [] false (reading readingStatement) out 1 := by
  have hok : (expandQueries [] false (reading readingStatement)).toOption.any
      (fun out => decide ((0 : Fin 2) ∉ out.dependencies 1) &&
        (out.emitted 1).code.any fun node => !(queries node).isEmpty) = true := by decide +kernel
  cases hout : expandQueries [] false (reading readingStatement) with
  | error error => simp [hout, Except.toOption] at hok
  | ok out =>
      simp only [hout, Except.toOption, Option.any_some, Bool.and_eq_true, decide_eq_true_eq,
        List.any_eq_true] at hok
      rcases hok with ⟨hdependencies, node, hnode, hqueries⟩
      refine ⟨out, rfl, hdependencies, ?_⟩
      intro hhandled
      simp [hhandled.clean node hnode] at hqueries

end Analysis
end Systasis
