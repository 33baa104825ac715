import Systasis.Configuration.Agreement

/-!
# Statements — the body that configuration leaves

`Configured` is the body rustc would be left with, said in terms of the syntax and of the attributes
that are written: which blocks are reached, which statements stay there, and what they keep.  It
names neither the pass nor its gates.  The two passes produce that body unless a statement they
look at carries an inner `cfg`, which they copy onto a field of the helper struct.
-/

namespace Systasis
namespace Configuration

open Syntax

/-! ## Attributes that configure -/

/-- A `cfg`, or a `cfg_attr` with one among its entries, however deep. -/
inductive Configures : MetaItem → Prop
  | cfg (predicate : String) : Configures (.cfg predicate)
  | entry {condition : String} {entries : List MetaItem} {entry : MetaItem} :
      entry ∈ entries → Configures entry → Configures (.cfgAttr condition entries)

mutual

theorem selectsSource_iff (item : MetaItem) : selectsSource item = true ↔ Configures item := by
  cases item with
  | cfg predicate => exact iff_of_true rfl (.cfg predicate)
  | cfgAttr condition entries =>
      rw [selectsSource, anySelectsSource_iff entries]
      constructor
      · rintro ⟨entry, hmem, hentry⟩
        exact .entry hmem hentry
      · intro h
        cases h with
        | entry hmem hentry => exact ⟨_, hmem, hentry⟩
  | other tokens =>
      refine iff_of_false (by simp [selectsSource]) ?_
      intro h
      cases h

theorem anySelectsSource_iff (entries : List MetaItem) :
    anySelectsSource entries = true ↔ ∃ entry ∈ entries, Configures entry := by
  cases entries with
  | nil => simp [anySelectsSource]
  | cons entry rest =>
      simp only [anySelectsSource, Bool.or_eq_true, selectsSource_iff entry,
        anySelectsSource_iff rest, List.mem_cons, exists_eq_or_imp]

end

instance : DecidablePred Configures :=
  fun item => decidable_of_iff (selectsSource item = true) (selectsSource_iff item)

section

variable (t : String → Bool)

mutual

/-- The predicates of the `cfg` attributes that an attribute stands for. -/
def predicates : MetaItem → List String
  | .cfg predicate => [predicate]
  | .cfgAttr condition entries => if t condition then entryPredicates entries else []
  | .other _ => []

def entryPredicates : List MetaItem → List String
  | [] => []
  | entry :: rest => predicates entry ++ entryPredicates rest

end

mutual

/-- What is left of an attribute: nothing of a `cfg`, and the entries of an enabled `cfg_attr` in
its place.  One without a `cfg` in it is left to rustc. -/
def remaining (inner : Bool) : MetaItem → List Attribute
  | .cfg _ => []
  | .cfgAttr condition entries =>
      if Configures (.cfgAttr condition entries) then
        if t condition then entryRemaining entries else []
      else [⟨inner, .cfgAttr condition entries⟩]
  | .other tokens => [⟨inner, .other tokens⟩]

def entryRemaining : List MetaItem → List Attribute
  | [] => []
  | entry :: rest => remaining false entry ++ entryRemaining rest

end

/-- All `cfg` attributes hold. -/
def Holds (attrs : List Attribute) : Prop :=
  ∀ attr ∈ attrs, ∀ predicate ∈ predicates t attr.content, t predicate = true

/-- A statement that stays, with the attributes that are left of it. -/
def stays (label : Label) : Label :=
  { label with attrs := label.attrs.flatMap fun attr => remaining t attr.inner attr.content }

end

/-! ## Syntax by what configuration does to it -/

/-- A `value` is an expression, an arm or a field value, which can be conditional where it is no
statement; a `part` carries no attributes. -/
inductive Role where
  | item
  | verbatim
  | block
  | statement
  | value
  | part
  deriving DecidableEq

def role (form : Form) : Role :=
  match form with
  | .itemStmt _ => .item
  | .verbatim _ => .verbatim
  | .block => .block
  | .localStmt _ | .macroStmt _ => .statement
  | .path _ | .invocation _ | .closure _ | .forLoop _ | .cond | .whileLoop _ | .letCond _ | .expr _
  | .captureRoot | .arm _ | .fieldValue _ | .shorthand _ => .value
  | .forBody _ | .branch | .type _ | .typePath _ | .typeInvocation _ => .part

/-- Whether a node that is no statement is conditional. -/
def Conditional (label : Label) : Prop :=
  role label.form = .value ∧ ∃ attr ∈ label.attrs, Configures attr.content

/-- Whether a node in a block is a local, an expression or a macro. -/
def Selectable (label : Label) : Prop :=
  role label.form ≠ .item ∧ role label.form ≠ .verbatim

section

variable (t : String → Bool)

mutual

/-- What configuration leaves of a node.  Items and what is conditional are left as they are;
everything else is entered, and in a block the statements are selected. -/
inductive Configured : Node → Node → Prop
  | item {label : Label} {children : List Node} :
      role label.form = .item → Configured (.node label children) (.node label children)
  | conditional {label : Label} {children : List Node} :
      Conditional label → Configured (.node label children) (.node label children)
  | block {label : Label} {children statements : List Node} :
      role label.form = .block → ConfiguredStatements children statements →
        Configured (.node label children) (.node label statements)
  | through {label : Label} {children nodes : List Node} :
      role label.form ≠ .item → role label.form ≠ .block → ¬ Conditional label →
        ConfiguredAll children nodes → Configured (.node label children) (.node label nodes)

inductive ConfiguredAll : List Node → List Node → Prop
  | nil : ConfiguredAll [] []
  | cons {child node : Node} {rest nodes : List Node} :
      Configured child node → ConfiguredAll rest nodes → ConfiguredAll (child :: rest) (node :: nodes)

/-- The statements of a block: those that stay are entered with the attributes they keep. -/
inductive ConfiguredStatements : List Node → List Node → Prop
  | nil : ConfiguredStatements [] []
  | other {label : Label} {children rest nodes : List Node} {node : Node} :
      ¬ Selectable label → Configured (.node label children) node →
        ConfiguredStatements rest nodes →
          ConfiguredStatements (.node label children :: rest) (node :: nodes)
  | kept {label : Label} {children rest nodes : List Node} {node : Node} :
      Selectable label → Holds t label.attrs → Configured (.node (stays t label) children) node →
        ConfiguredStatements rest nodes →
          ConfiguredStatements (.node label children :: rest) (node :: nodes)
  | dropped {label : Label} {children rest nodes : List Node} :
      Selectable label → ¬ Holds t label.attrs → ConfiguredStatements rest nodes →
        ConfiguredStatements (.node label children :: rest) nodes

end

end

/-- The statements in the blocks that are reached through unconditional expressions, also inside
statements that do not stay. -/
inductive Reached : Node → Label → Prop
  | statement {label stmt : Label} {children below : List Node} :
      role label.form = .block → .node stmt below ∈ children → Selectable stmt →
        Reached (.node label children) stmt
  | inside {label stmt reached : Label} {children below : List Node} :
      role label.form = .block → .node stmt below ∈ children →
        Reached (.node { stmt with attrs := [] } below) reached →
          Reached (.node label children) reached
  | through {label reached : Label} {children : List Node} {child : Node} :
      role label.form ≠ .item → role label.form ≠ .block → ¬ Conditional label →
        child ∈ children → Reached child reached → Reached (.node label children) reached

/-! ## What the passes look at -/

theorem takesAttributes_iff (label : Label) :
    takesAttributes label.form = true ↔ Selectable label := by
  cases hform : label.form <;> simp [takesAttributes, Selectable, role, hform]

theorem conditional_iff (label : Label) : conditional label = true ↔ Conditional label := by
  cases hform : label.form <;>
    simp [conditional, Conditional, role, hform, selectsSource_iff]

theorem below_nothing {label : Label} (h : role label.form = .item ∨ Conditional label) :
    below label = .nothing := by
  rcases h with hitem | hconditional
  · cases hform : label.form <;> simp [role, hform] at hitem
    simp [below, hform]
  · have hvalue := hconditional.1
    have hcondition := (conditional_iff label).2 hconditional
    cases hform : label.form <;> simp [role, hform] at hvalue <;> simp [below, hform, hcondition]

theorem below_statements {label : Label} (h : role label.form = .block) :
    below label = .statements := by
  cases hform : label.form <;> simp [role, hform] at h
  simp [below, hform]

theorem below_children {label : Label} (hitem : role label.form ≠ .item)
    (hblock : role label.form ≠ .block) (h : ¬ Conditional label) : below label = .children := by
  have hcondition : conditional label = false := by
    rw [← Bool.not_eq_true, conditional_iff]
    exact h
  cases hform : label.form <;> simp [role, hform] at hitem hblock <;> simp [below, hform, hcondition]

/-- What is looked at below a node, by its role. -/
theorem below_cases (label : Label) :
    ((role label.form = .item ∨ Conditional label) ∧ below label = .nothing) ∨
      (role label.form = .block ∧ below label = .statements) ∨
      ((role label.form ≠ .item ∧ role label.form ≠ .block ∧ ¬ Conditional label) ∧
        below label = .children) := by
  by_cases hitem : role label.form = .item
  · exact .inl ⟨.inl hitem, below_nothing (.inl hitem)⟩
  · by_cases hblock : role label.form = .block
    · exact .inr (.inl ⟨hblock, below_statements hblock⟩)
    · by_cases h : Conditional label
      · exact .inl ⟨.inr h, below_nothing (.inr h)⟩
      · exact .inr (.inr ⟨⟨hitem, hblock, h⟩, below_children hitem hblock h⟩)

/-! ## Attributes -/

section Total

variable (t : String → Bool)

mutual

/-- What rustc would ask of an attribute is that its predicates hold. -/
theorem cfgHolds_iff (item : MetaItem) :
    cfgHolds (total t) item = some true ↔ ∀ predicate ∈ predicates t item, t predicate = true := by
  cases item with
  | cfg predicate => simp [cfgHolds, total, predicates]
  | cfgAttr condition entries =>
      have hentries := cfgAllHold_iff entries
      simp only [cfgHolds, total, predicates] at hentries ⊢
      cases t condition with
      | false => simp
      | true => exact hentries
  | other tokens => simp [cfgHolds, predicates]

theorem cfgAllHold_iff (entries : List MetaItem) :
    cfgAllHold (total t) entries = some true ↔
      ∀ predicate ∈ entryPredicates t entries, t predicate = true := by
  cases entries with
  | nil => simp [cfgAllHold, entryPredicates]
  | cons entry rest =>
      have hentry := cfgHolds_iff entry
      simp only [entryPredicates, List.forall_mem_append, ← hentry, ← cfgAllHold_iff rest, cfgAllHold]
      cases cfgHolds (total t) entry with
      | none => simp
      | some holds => cases holds <;> simp

end

theorem holds_iff (attrs : List Attribute) :
    cfgAllHold (total t) (attrs.map Attribute.content) = some true ↔ Holds t attrs := by
  induction attrs with
  | nil => simp [cfgAllHold, Holds]
  | cons first rest ih =>
      simp only [Holds, List.forall_mem_cons, ← cfgHolds_iff] at ih ⊢
      rw [← ih, List.map_cons, cfgAllHold]
      cases cfgHolds (total t) first.content with
      | none => simp
      | some holds => cases holds <;> simp

mutual

/-- An attribute that lets its statement stay leaves what is remaining of it. -/
theorem expandAttribute_remaining {inner : Bool} {item : MetaItem} {output : List Attribute}
    (h : expandAttribute (total t) inner item = some (some output)) :
    output = remaining t inner item := by
  cases item with
  | cfg predicate =>
      simp only [expandAttribute] at h
      split at h <;> cases h
      rfl
  | cfgAttr condition entries =>
      have hselects : anySelectsSource entries = true ↔ Configures (.cfgAttr condition entries) := by
        rw [← selectsSource_iff, selectsSource]
      simp only [expandAttribute, total, hselects] at h
      simp only [remaining]
      split at h
      · rename_i hconfigures
        rw [if_pos hconfigures]
        cases hcondition : t condition with
        | false =>
            simp only [hcondition] at h
            cases h
            rfl
        | true =>
            simp only [hcondition] at h
            exact expandEntries_remaining h
      · rename_i hconfigures
        cases h
        rw [if_neg hconfigures]
  | other tokens =>
      cases h
      rfl

theorem expandEntries_remaining {entries : List MetaItem} {output : List Attribute}
    (h : expandEntries (total t) entries = some (some output)) :
    output = entryRemaining t entries := by
  cases entries with
  | nil =>
      cases h
      rfl
  | cons entry rest =>
      simp only [expandEntries] at h
      split at h
      · rename_i first hfirst
        simp only [Option.map_eq_some_iff] at h
        rcases h with ⟨_, hrest, others, rfl, rfl⟩
        rw [entryRemaining, expandAttribute_remaining hfirst, expandEntries_remaining hrest]
      · rename_i hstopped
        exact absurd h (hstopped output)

end

theorem expandAttributes_remaining {attrs output : List Attribute}
    (h : expandAttributes (total t) attrs = some (some output)) :
    output = attrs.flatMap fun attr => remaining t attr.inner attr.content := by
  induction attrs generalizing output with
  | nil =>
      cases h
      rfl
  | cons first rest ih =>
      simp only [expandAttributes] at h
      split at h
      · rename_i head hfirst
        simp only [Option.map_eq_some_iff] at h
        rcases h with ⟨_, hrest, others, rfl, rfl⟩
        rw [List.flatMap_cons, expandAttribute_remaining t hfirst, ih hrest]
      · rename_i hstopped
        exact absurd h (hstopped output)

/-- A statement stays with what is left of its attributes when all its predicates hold. -/
theorem expandHeader_eq {label : Label} (h : Selectable label) :
    (Holds t label.attrs → expandHeader (total t) label = some (some (stays t label))) ∧
      (¬ Holds t label.attrs → expandHeader (total t) label = some none) := by
  have hsome := expandAttributes_isSome t label.attrs
  have hholds := holds_iff t label.attrs
  rw [expandHeader, if_pos ((takesAttributes_iff label).2 h)]
  rw [← hsome] at hholds
  cases houtcome : expandAttributes (total t) label.attrs with
  | none =>
      have htotal := cfgAllHold_total t (label.attrs.map Attribute.content)
      rw [← hsome, houtcome] at htotal
      cases htotal
  | some outcome =>
      cases outcome with
      | none =>
          refine ⟨fun hall => ?_, fun _ => rfl⟩
          simp [houtcome] at hholds
          exact absurd hall hholds
      | some attrs =>
          refine ⟨fun _ => ?_, fun hnot => ?_⟩
          · rw [expandAttributes_remaining t houtcome]
            rfl
          · simp [houtcome] at hholds
            exact absurd hholds hnot

/-! ## Bodies -/

theorem configured_iff_expandContents {children : List Node} {statements all : Option (List Node)}
    (hstatements : ∀ nodes, ConfiguredStatements t children nodes ↔ statements = some nodes)
    (hall : ∀ nodes, ConfiguredAll t children nodes ↔ all = some nodes) (label : Label) (out : Node) :
    Configured t (.node label children) out ↔
      expandContents label children statements all = some out := by
  rcases below_cases label with ⟨hrole, hbelow⟩ | ⟨hrole, hbelow⟩ | ⟨⟨hitem, hblock, hplain⟩, hbelow⟩
  · have hnotBlock : role label.form ≠ .block := by
      rcases hrole with hitem | hconditional
      · simp [hitem]
      · simp [hconditional.1]
    simp only [expandContents, hbelow, Option.some.injEq]
    constructor
    · intro h
      cases h with
      | item _ => rfl
      | conditional _ => rfl
      | block hblock _ => exact absurd hblock hnotBlock
      | through hitem _ hplain _ => exact absurd hrole (not_or.2 ⟨hitem, hplain⟩)
    · rintro rfl
      rcases hrole with hitem | hconditional
      · exact .item hitem
      · exact .conditional hconditional
  · simp only [expandContents, hbelow, Option.map_eq_some_iff, ← hstatements]
    constructor
    · intro h
      cases h with
      | item hitem => simp [hrole] at hitem
      | conditional hconditional => simp [Conditional, hrole] at hconditional
      | block _ hconfigured => exact ⟨_, hconfigured, rfl⟩
      | through _ hblock _ _ => exact absurd hrole hblock
    · rintro ⟨nodes, hconfigured, rfl⟩
      exact .block hrole hconfigured
  · simp only [expandContents, hbelow, Option.map_eq_some_iff, ← hall]
    constructor
    · intro h
      cases h with
      | item hitem' => exact absurd hitem' hitem
      | conditional hconditional => exact absurd hconditional hplain
      | block hblock' _ => exact absurd hblock' hblock
      | through _ _ _ hconfigured => exact ⟨_, hconfigured, rfl⟩
    · rintro ⟨nodes, hconfigured, rfl⟩
      exact .through hitem hblock hplain hconfigured

mutual

theorem configured_iff_expand (node out : Node) :
    Configured t node out ↔ expand (total t) node = some out := by
  cases node with
  | node label children =>
      rw [expand]
      exact configured_iff_expandContents t (configuredStatements_iff_expand children)
        (configuredAll_iff_expand children) label out

theorem configuredAll_iff_expand (children nodes : List Node) :
    ConfiguredAll t children nodes ↔ expandAll (total t) children = some nodes := by
  cases children with
  | nil =>
      rw [expandAll, Option.some.injEq]
      constructor
      · intro h
        cases h
        rfl
      · rintro rfl
        exact .nil
  | cons child rest =>
      rw [expandAll]
      constructor
      · intro h
        cases h with
        | cons hchild hrest =>
            simp [(configured_iff_expand child _).1 hchild, (configuredAll_iff_expand rest _).1 hrest]
      · intro h
        split at h
        · rename_i node hnode
          rcases Option.map_eq_some_iff.1 h with ⟨others, hothers, rfl⟩
          exact .cons ((configured_iff_expand child node).2 hnode)
            ((configuredAll_iff_expand rest others).2 hothers)
        · cases h

theorem configuredStatements_iff_expand (children nodes : List Node) :
    ConfiguredStatements t children nodes ↔ expandStatements (total t) children = some nodes := by
  cases children with
  | nil =>
      rw [expandStatements, Option.some.injEq]
      constructor
      · intro h
        cases h
        rfl
      · rintro rfl
        exact .nil
  | cons child rest =>
      cases child with
      | node label below =>
          have hcontents := configured_iff_expandContents t
            (configuredStatements_iff_expand below) (configuredAll_iff_expand below)
          have hrest := configuredStatements_iff_expand rest
          rw [expandStatements]
          by_cases hselectable : Selectable label
          · by_cases hholds : Holds t label.attrs
            · rw [(expandHeader_eq t hselectable).1 hholds]
              constructor
              · intro h
                cases h with
                | other hother _ _ => exact absurd hselectable hother
                | kept _ _ hnode hnodes => simp [(hcontents _ _).1 hnode, (hrest _).1 hnodes]
                | dropped _ hdropped _ => exact absurd hholds hdropped
              · intro h
                simp only at h
                split at h
                · rename_i node hnode
                  rcases Option.map_eq_some_iff.1 h with ⟨others, hothers, rfl⟩
                  exact .kept hselectable hholds ((hcontents _ _).2 hnode) ((hrest _).2 hothers)
                · cases h
            · rw [(expandHeader_eq t hselectable).2 hholds]
              constructor
              · intro h
                cases h with
                | other hother _ _ => exact absurd hselectable hother
                | kept _ hkept _ _ => exact absurd hkept hholds
                | dropped _ _ hnodes => exact (hrest _).1 hnodes
              · intro h
                exact .dropped hselectable hholds ((hrest _).2 h)
          · have hheader : expandHeader (total t) label = some (some label) := by
              rw [expandHeader, if_neg (mt (takesAttributes_iff label).1 hselectable)]
            rw [hheader]
            constructor
            · intro h
              cases h with
              | other _ hnode hnodes => simp [(hcontents _ _).1 hnode, (hrest _).1 hnodes]
              | kept hkept _ _ _ => exact absurd hkept hselectable
              | dropped hdropped _ _ => exact absurd hdropped hselectable
            · intro h
              simp only at h
              split at h
              · rename_i node hnode
                rcases Option.map_eq_some_iff.1 h with ⟨others, hothers, rfl⟩
                exact .other hselectable ((hcontents _ _).2 hnode) ((hrest _).2 hothers)
              · cases h

end

end Total

/-! ## Fields that rustc can read -/

/-- None of the `cfg` attributes is written as an inner one. -/
def Outer (attrs : List Attribute) : Prop :=
  ∀ predicate, ⟨true, .cfg predicate⟩ ∉ attrs

/-- A stretch of a pass keeps its gates outer, and adds fields that parse if the source it looks at
is `clean`. -/
structure Copies (s s' : Selection) (clean : Prop) : Prop where
  gates : (∀ gate ∈ s.gates, gate.inner = false) → ∀ gate ∈ s'.gates, gate.inner = false
  fields : (∀ gate ∈ s.gates, gate.inner = false) →
    ((∀ field ∈ s'.fields, field.parses = true) ↔ (∀ field ∈ s.fields, field.parses = true) ∧ clean)

namespace Copies

variable {s s' s'' : Selection} {clean clean' : Prop}

theorem refl (s : Selection) (h : clean) : Copies s s clean :=
  ⟨fun hgates => hgates, fun _ => (and_iff_left h).symm⟩

theorem trans (h : Copies s s' clean) (h' : Copies s' s'' clean') :
    Copies s s'' (clean ∧ clean') where
  gates := fun hgates => h'.gates (h.gates hgates)
  fields := fun hgates => by rw [h'.fields (h.gates hgates), h.fields hgates, and_assoc]

theorem congr (h : Copies s s' clean) (hclean : clean ↔ clean') : Copies s s' clean' :=
  ⟨h.gates, fun hgates => by rw [h.fields hgates, hclean]⟩

/-- Gates are only ever added as outer attributes. -/
theorem extend (s : Selection) (gates : List MetaItem) : Copies s (s.extend gates) True := by
  refine ⟨?_, fun _ => (and_iff_left trivial).symm⟩
  intro hgates gate hmem
  rcases List.mem_append.1 hmem with hmem | hmem
  · exact hgates gate hmem
  · rcases List.mem_map.1 hmem with ⟨_, _, rfl⟩
    rfl

theorem truncate (s : Selection) (before : Nat) : Copies s (s.truncate before) True :=
  ⟨fun hgates gate hmem => hgates gate (List.mem_of_mem_take hmem), fun _ => (and_iff_left trivial).symm⟩

/-- The field of a condition parses when its attribute is an outer one. -/
theorem condition (s : Selection) (attr : Attribute) :
    Copies s (s.condition attr).2 (attr.inner = false) := by
  refine ⟨fun hgates => hgates, fun hgates => ?_⟩
  have hfield : (Field.mk (s.gates ++ [attr]) s.next).parses = true ↔ attr.inner = false := by
    simpa [Field.parses] using fun _ => hgates
  simp [Selection.condition, or_imp, forall_and, hfield]

end Copies

mutual

theorem attributeRound_copies (inner : Bool) (item : MetaItem) (s : Selection) :
    Copies s (attributeRound inner item s).2 (Outer [⟨inner, item⟩]) := by
  cases item with
  | cfg predicate =>
      refine ((Copies.condition s ⟨inner, .cfg predicate⟩).trans (.extend _ _)).congr ?_
      cases inner <;> simp [Outer]
  | cfgAttr condition entries =>
      simp only [attributeRound]
      split
      · -- The condition and the entries become outer attributes, whatever the `cfg_attr` was.
        have hentries := attributeRounds_copies entries
          ((s.condition ⟨false, .cfg condition⟩).2.extend [.cfg condition])
        have hcopies := ((Copies.condition s ⟨false, .cfg condition⟩).trans (.extend _ _)).trans
          ((hentries.trans (.truncate _ (s.condition ⟨false, .cfg condition⟩).2.gates.length)).trans
            (.extend _ [.cfgAttr condition (selectionMetas entries)]))
        exact hcopies.congr (by simp [Outer])
      · exact .refl s (by simp [Outer])
  | other tokens => exact .refl s (by simp [Outer])

theorem attributeRounds_copies (entries : List MetaItem) (s : Selection) :
    Copies s (attributeRounds entries s).2 True := by
  cases entries with
  | nil => exact .refl s trivial
  | cons entry rest =>
      have hentry := attributeRound_copies false entry s
      exact (hentry.trans (attributeRounds_copies rest _)).congr (by simp [Outer])

end

theorem attributesLoop_copies (attrs : List Attribute) (s : Selection) :
    Copies s (attributesLoop attrs s).2 (Outer attrs) := by
  induction attrs generalizing s with
  | nil => exact .refl s (by simp [Outer])
  | cons first rest ih =>
      refine ((attributeRound_copies first.inner first.content s).trans (ih _)).congr ?_
      simp only [Outer, List.mem_cons, List.not_mem_nil, or_false, not_or, forall_and]

theorem header_copies (label : Label) (s : Selection) :
    Copies s (header label s).2.2 (Selectable label → Outer label.attrs) := by
  rw [← takesAttributes_iff, header]
  split
  · rename_i htakes
    have hloop := attributesLoop_copies label.attrs s
    refine ((hloop.trans (.truncate _ s.gates.length)).trans (.extend _ _)).congr ?_
    simp [htakes]
  · rename_i htakes
    exact .refl s (by simp [htakes])

/-- The statements that are reached from a node. -/
def Clean (node : Node) : Prop :=
  ∀ stmt, Reached node stmt → Outer stmt.attrs

/-- A statement is clean with its own attributes and with what is inside it. -/
theorem clean_block {label : Label} {children : List Node} (h : role label.form = .block) :
    Clean (.node label children) ↔ ∀ stmt below, .node stmt below ∈ children →
      (Selectable stmt → Outer stmt.attrs) ∧ Clean (.node { stmt with attrs := [] } below) := by
  constructor
  · intro hclean stmt below hmem
    exact ⟨fun hselectable => hclean stmt (.statement h hmem hselectable),
      fun reached hreached => hclean reached (.inside h hmem hreached)⟩
  · intro hchildren stmt hreached
    cases hreached with
    | statement _ hmem hselectable => exact (hchildren _ _ hmem).1 hselectable
    | inside _ hmem hinside => exact (hchildren _ _ hmem).2 stmt hinside
    | through _ hblock _ _ _ => exact absurd h hblock

theorem clean_through {label : Label} {children : List Node} (hitem : role label.form ≠ .item)
    (hblock : role label.form ≠ .block) (hplain : ¬ Conditional label) :
    Clean (.node label children) ↔ ∀ child ∈ children, Clean child := by
  constructor
  · intro hclean child hmem stmt hreached
    exact hclean stmt (.through hitem hblock hplain hmem hreached)
  · intro hchildren stmt hreached
    cases hreached with
    | statement hblock' _ _ => exact absurd hblock' hblock
    | inside hblock' _ _ => exact absurd hblock' hblock
    | through _ _ _ hmem hinside => exact hchildren _ hmem stmt hinside

theorem clean_closed {label : Label} {children : List Node}
    (h : role label.form = .item ∨ Conditional label) : Clean (.node label children) := by
  intro stmt hreached
  have hnotBlock : role label.form ≠ .block := by
    rcases h with hitem | hconditional
    · simp [hitem]
    · simp [hconditional.1]
  cases hreached with
  | statement hblock _ _ => exact absurd hblock hnotBlock
  | inside hblock _ _ => exact absurd hblock hnotBlock
  | through hitem _ hplain _ _ => exact absurd h (not_or.2 ⟨hitem, hplain⟩)

theorem contents_copies {children : List Node} {statements all : Selection → List Node × Selection}
    (hstatements : ∀ s, Copies s (statements s).2 (∀ stmt below, .node stmt below ∈ children →
      (Selectable stmt → Outer stmt.attrs) ∧ Clean (.node { stmt with attrs := [] } below)))
    (hall : ∀ s, Copies s (all s).2 (∀ child ∈ children, Clean child)) (label : Label)
    (s : Selection) :
    Copies s (contents label children statements all s).2 (Clean (.node label children)) := by
  rcases below_cases label with ⟨hrole, hbelow⟩ | ⟨hrole, hbelow⟩ | ⟨⟨hitem, hblock, hplain⟩, hbelow⟩
  · simp only [contents, hbelow]
    exact .refl s (clean_closed hrole)
  · simp only [contents, hbelow]
    exact (hstatements s).congr (clean_block hrole).symm
  · simp only [contents, hbelow]
    exact (hall s).congr (clean_through hitem hblock hplain).symm

/-- What is reached depends on the attributes only through the conditions in them. -/
theorem clean_congr {label label' : Label} (hrole : role label.form = role label'.form)
    (h : ¬ Conditional label) (h' : ¬ Conditional label') (children : List Node) :
    Clean (.node label children) ↔ Clean (.node label' children) := by
  by_cases hitem : role label.form = .item
  · exact iff_of_true (clean_closed (.inl hitem)) (clean_closed (.inl (hrole ▸ hitem)))
  · by_cases hblock : role label.form = .block
    · rw [clean_block hblock, clean_block (hrole ▸ hblock)]
    · rw [clean_through hitem hblock h, clean_through (hrole ▸ hitem) (hrole ▸ hblock) h']

theorem not_conditional_of_plain_attrs {label : Label} (h : Plain label.attrs) :
    ¬ Conditional label := by
  rw [← conditional_iff, not_conditional_of_plain h]
  simp

/-- What a statement keeps of its attributes makes nothing inside it conditional. -/
theorem clean_header (label : Label) (children : List Node) (s : Selection) :
    Clean (.node (header label s).2.1 children) ↔
      Clean (.node { label with attrs := [] } children) := by
  have hnone : ¬ Conditional { label with attrs := [] } := not_conditional_of_plain_attrs plain_nil
  by_cases htakes : takesAttributes label.form = true
  · simp only [header, htakes, if_true]
    refine clean_congr ?_ ?_ hnone children
    · rfl
    · exact not_conditional_of_plain_attrs (plain_attributesLoop label.attrs s)
  · -- An item or verbatim tokens, which have no conditions of their own.
    have hvalue : role label.form ≠ .value := by
      cases hform : label.form <;> simp [takesAttributes, hform] at htakes <;> simp [role]
    simp only [header, htakes, Bool.false_eq_true, if_false]
    refine clean_congr ?_ (fun hconditional => hvalue hconditional.1) hnone children
    rfl

mutual

/-- The fields a visit adds parse exactly when the statements it reaches are clean. -/
theorem visit_copies (node : Node) (s : Selection) : Copies s (visit node s).2 (Clean node) := by
  cases node with
  | node label children =>
      rw [visit]
      exact contents_copies (visitStatements_copies children) (visitAll_copies children) label s

theorem visitAll_copies (nodes : List Node) (s : Selection) :
    Copies s (visitAll nodes s).2 (∀ child ∈ nodes, Clean child) := by
  cases nodes with
  | nil => exact .refl s (by simp)
  | cons node rest =>
      refine ((visit_copies node s).trans (visitAll_copies rest _)).congr ?_
      simp only [List.forall_mem_cons]

theorem visitStatements_copies (nodes : List Node) (s : Selection) :
    Copies s (visitStatements nodes s).2 (∀ stmt below, .node stmt below ∈ nodes →
      (Selectable stmt → Outer stmt.attrs) ∧ Clean (.node { stmt with attrs := [] } below)) := by
  cases nodes with
  | nil => exact .refl s (by simp)
  | cons node rest =>
      cases node with
      | node label children =>
          have hcontents := contents_copies (visitStatements_copies children)
            (visitAll_copies children) (header label s).2.1 (header label s).2.2
          have hstatement := ((header_copies label s).trans hcontents).trans
            (.truncate _ s.gates.length)
          refine (hstatement.trans (visitStatements_copies rest _)).congr ?_
          simp only [clean_header, and_true, List.mem_cons]
          constructor
          · rintro ⟨hfirst, hrest⟩ stmt below (heq | hmem)
            · cases heq
              exact hfirst
            · exact hrest stmt below hmem
          · intro hall
            exact ⟨hall label children (.inl rfl),
              fun stmt below hmem => hall stmt below (.inr hmem)⟩

end

/-! ## Both passes together -/

/-- What configuring a body in two passes is for: the body comes out as configured, and the
selectors of the second pass are those rustc was asked about in the first. -/
structure Selects (t : String → Bool) (body : Node) : Prop where
  configured : ∀ out, configure (total t) body = some out ↔ Configured t body out
  numbered : ∀ active, (visit body (.new active)).2.fields = (visit body (.new none)).2.fields ∧
    (visit body (.new active)).2.fields.map Field.selector =
      List.range (visit body (.new none)).2.fields.length

/-- With any truth of the predicates, the two passes leave the configured body exactly when no
statement they reach carries an inner `cfg`; its field is one that rustc rejects. -/
theorem configuration_agrees_iff (t : String → Bool) (body : Node) :
    Selects t body ↔ ∀ stmt, Reached body stmt → ∀ predicate, ⟨true, .cfg predicate⟩ ∉ stmt.attrs := by
  have hcopies := (visit_copies body (.new none)).fields (by simp [Selection.new])
  have hfields : (∀ field ∈ (visit body (.new none)).2.fields, field.parses = true) ↔ Clean body :=
    hcopies.trans (and_iff_right (by simp [Selection.new]))
  constructor
  · intro hselects
    -- A field that does not parse leaves no body, and there is one to be left.
    refine hfields.1 ?_
    intro field hmem
    by_contra hfield
    rcases Option.isSome_iff_exists.1 (expand_total t body) with ⟨out, hout⟩
    have hconfigured := (hselects.configured out).2 ((configured_iff_expand t body out).2 hout)
    rw [configure_unparsed _ hmem (by simpa using hfield)] at hconfigured
    cases hconfigured
  · intro hclean
    refine ⟨fun out => ?_, fun active => ?_⟩
    · rw [configure_eq_expand _ body (hfields.2 hclean), configured_iff_expand]
    · exact ⟨(visit_fields body).2 active, by rw [(visit_fields body).2 active, (visit_fields body).1]⟩

/-- `{ #[cfg(a)] let x = 1; #[cfg_attr(a, cfg(b), allow(unused))] { #[cfg(c)] f(); g() } }` -/
def conditionalBody : Node :=
  .node ⟨.block, [], false⟩
    [.node ⟨.localStmt (.ident ⟨false, "x"⟩ none), [⟨false, .cfg "a"⟩], false⟩
      [.node ⟨.expr (.lit "1"), [], false⟩ []],
     .node ⟨.expr (.block ""), [⟨false, .cfgAttr "a" [.cfg "b", .other "allow(unused)"]⟩], false⟩
      [.node ⟨.block, [], false⟩
        [.node ⟨.expr .call, [⟨false, .cfg "c"⟩], true⟩ [], .node ⟨.expr .call, [], false⟩ []]]]

/-- With `a` and `b`, but not `c`: the block stays without the call in it. -/
example : configure (total fun predicate => predicate != "c") conditionalBody = some
    (.node ⟨.block, [], false⟩
      [.node ⟨.localStmt (.ident ⟨false, "x"⟩ none), [], false⟩
        [.node ⟨.expr (.lit "1"), [], false⟩ []],
       .node ⟨.expr (.block ""), [⟨false, .other "allow(unused)"⟩], false⟩
        [.node ⟨.block, [], false⟩ [.node ⟨.expr .call, [], false⟩ []]]]) := rfl

/-- With `a` alone only the local stays. -/
example : configure (total fun predicate => predicate == "a") conditionalBody = some
    (.node ⟨.block, [], false⟩
      [.node ⟨.localStmt (.ident ⟨false, "x"⟩ none), [], false⟩
        [.node ⟨.expr (.lit "1"), [], false⟩ []]]) := rfl

/-- `{ { #![cfg(a)] let x = 1; } }` -/
def innerBody (attrs : List Attribute) : Node :=
  .node ⟨.block, [], false⟩
    [.node ⟨.expr (.block ""), attrs, false⟩
      [.node ⟨.block, [], false⟩
        [.node ⟨.localStmt (.ident ⟨false, "x"⟩ none), [], false⟩
          [.node ⟨.expr (.lit "1"), [], false⟩ []]]]]

/-- With `a` the statement stays in the configured body, but the passes return none. -/
theorem configuration_misses_inner :
    Configured (fun _ => true) (innerBody [⟨true, .cfg "a"⟩]) (innerBody []) ∧
      configure (total fun _ => true) (innerBody [⟨true, .cfg "a"⟩]) = none ∧
      ¬ Selects (fun _ => true) (innerBody [⟨true, .cfg "a"⟩]) := by
  have hconfigured : Configured (fun _ => true) (innerBody [⟨true, .cfg "a"⟩]) (innerBody []) := by
    rw [configured_iff_expand]
    rfl
  have hnone : configure (total fun _ => true) (innerBody [⟨true, .cfg "a"⟩]) = none := rfl
  refine ⟨hconfigured, hnone, fun hselects => ?_⟩
  have hsome := (hselects.configured (innerBody [])).2 hconfigured
  rw [hnone] at hsome
  cases hsome

end Configuration
end Systasis
