import Mathlib.Data.List.Nodup
import Mathlib.Data.List.Range
import Systasis.Configuration.Selection

/-!
# Agreement — two passes select what rustc would have selected

`expand` is rustc's own treatment of the attributes in the source the pass looks at.  Every field of
the helper struct stands for one predicate rustc would look at: its gates hold exactly when rustc
gets there, so the fields that stay say which statements do.
-/

namespace Systasis
namespace Configuration

open Syntax

/-! ## What rustc does -/

section Expand

variable (truth : String → Option Bool)

mutual

/-- An attribute of a statement: `none` when a predicate is malformed, `some none` when the
statement goes, and otherwise what the attribute leaves. -/
def expandAttribute (inner : Bool) : MetaItem → Option (Option (List Attribute))
  | .cfg predicate =>
      match truth predicate with
      | some true => some (some [])
      | some false => some none
      | none => none
  | .cfgAttr condition entries =>
      if anySelectsSource entries then
        match truth condition with
        | some true => expandEntries entries
        | some false => some (some [])
        | none => none
      else some (some [⟨inner, .cfgAttr condition entries⟩])
  | .other tokens => some (some [⟨inner, .other tokens⟩])

def expandEntries : List MetaItem → Option (Option (List Attribute))
  | [] => some (some [])
  | entry :: rest =>
      match expandAttribute false entry with
      | some (some output) => (expandEntries rest).map fun outputs => outputs.map (output ++ ·)
      | stopped => stopped

end

def expandAttributes : List Attribute → Option (Option (List Attribute))
  | [] => some (some [])
  | first :: rest =>
      match expandAttribute truth first.inner first.content with
      | some (some output) => (expandAttributes rest).map fun outputs => outputs.map (output ++ ·)
      | stopped => stopped

/-- The statements of a block, or the children of any other node; nothing below an item or a
conditional expression. -/
def expandContents (label : Label) (children : List Node)
    (statements all : Option (List Node)) : Option Node :=
  match below label with
  | .nothing => some (.node label children)
  | .statements => statements.map (.node label)
  | .children => all.map (.node label)

/-- The attributes with which a statement stays. -/
def expandHeader (label : Label) : Option (Option Label) :=
  if takesAttributes label.form then
    (expandAttributes truth label.attrs).map fun attrs => attrs.map fun attrs =>
      { label with attrs }
  else some (some label)

mutual

def expand : Node → Option Node
  | .node label children =>
      expandContents label children (expandStatements children) (expandAll children)

def expandAll : List Node → Option (List Node)
  | [] => some []
  | node :: rest =>
      match expand node with
      | some node => (expandAll rest).map (node :: ·)
      | none => none

def expandStatements : List Node → Option (List Node)
  | [] => some []
  | .node label children :: rest =>
      match expandHeader truth label with
      | some (some label) =>
          match expandContents label children (expandStatements children) (expandAll children) with
          | some node => (expandStatements rest).map (node :: ·)
          | none => none
      | some none => expandStatements rest
      | none => none

end

end Expand

/-! ## Fields -/

variable {truth : String → Option Bool}

/-- Whether the attributes hold. -/
def gatesHold (truth : String → Option Bool) (gates : List Attribute) : Option Bool :=
  cfgAllHold truth (gates.map Attribute.content)

theorem cfgAllHold_append (items others : List MetaItem) :
    cfgAllHold truth (items ++ others) =
      match cfgAllHold truth items with
      | some true => cfgAllHold truth others
      | some false => some false
      | none => none := by
  induction items with
  | nil => rfl
  | cons item items ih =>
      simp only [List.cons_append, cfgAllHold, ih]
      cases cfgHolds truth item with
      | none => rfl
      | some holds => cases holds <;> rfl

/-- What a stretch of a pass adds to the helper struct. -/
structure Emits (s s' : Selection) (fields : List Field) : Prop where
  fields_eq : s'.fields = s.fields ++ fields
  selectors : fields.map Field.selector = List.range' s.next fields.length
  next : s'.next = s.next + fields.length
  active : s'.active = s.active

namespace Emits

theorem refl (s : Selection) : Emits s s [] := by
  refine ⟨?_, ?_, ?_, rfl⟩ <;> simp

theorem trans {s s' s'' : Selection} {fields fields' : List Field} (h : Emits s s' fields)
    (h' : Emits s' s'' fields') : Emits s s'' (fields ++ fields') where
  fields_eq := by rw [h'.fields_eq, h.fields_eq, List.append_assoc]
  selectors := by
    -- The second stretch counts on from where the first one stopped.
    calc
      (fields ++ fields').map Field.selector =
          List.range' s.next fields.length ++ List.range' s'.next fields'.length := by
        rw [List.map_append, h.selectors, h'.selectors]
      _ = List.range' s.next (fields.length + fields'.length) := by
        rw [h.next, List.range'_append_1]
      _ = List.range' s.next (fields ++ fields').length := by rw [List.length_append]
  next := by rw [h'.next, h.next, List.length_append, Nat.add_assoc]
  active := h'.active.trans h.active

/-- The gates are no part of it. -/
theorem of_gates {s s' : Selection} {fields : List Field} (h : Emits s s' fields) {t t' : Selection}
    (ht : (t.next, t.fields, t.active) = (s.next, s.fields, s.active))
    (ht' : (t'.next, t'.fields, t'.active) = (s'.next, s'.fields, s'.active)) :
    Emits t t' fields := by
  simp only [Prod.mk.injEq] at ht ht'
  exact ⟨by rw [ht.2.1, ht'.2.1, h.fields_eq], by rw [ht.1, h.selectors],
    by rw [ht.1, ht'.1, h.next], by rw [ht.2.2, ht'.2.2, h.active]⟩

theorem condition (s : Selection) (attr : Attribute) :
    Emits s (s.condition attr).2 [⟨s.gates ++ [attr], s.next⟩] := by
  refine ⟨rfl, ?_, rfl, rfl⟩
  simp

end Emits

def fieldHolds (truth : String → Option Bool) (field : Field) : Option Bool :=
  gatesHold truth field.attributes

/-- Exactly the active fields are those rustc keeps. -/
def Consistent (truth : String → Option Bool) (active : Option (List Nat)) (fields : List Field) :
    Prop :=
  ∀ field ∈ fields, fieldHolds truth field = some (Selection.isActive active field.selector)

theorem Consistent.append {active : Option (List Nat)} {fields fields' : List Field} :
    Consistent truth active (fields ++ fields') ↔
      Consistent truth active fields ∧ Consistent truth active fields' := by
  simp only [Consistent, List.mem_append, or_imp, forall_and]

/-- How the fields a stretch of a pass emits follow rustc.  Below discarded source no field stays;
elsewhere rustc finds a malformed predicate in a field only if it finds one in the source; and with
the fields it keeps active, the pass does what it does. -/
structure Tracks {α : Type} (truth : String → Option Bool) (s : Selection) (fields : List Field)
    (specified : Option α) (actual : α) : Prop where
  discarded : gatesHold truth s.gates = some false →
    ∀ field ∈ fields, fieldHolds truth field = some false
  diagnosed : gatesHold truth s.gates = some true → specified ≠ none →
    ∀ field ∈ fields, fieldHolds truth field ≠ none
  selected : gatesHold truth s.gates = some true → Consistent truth s.active fields →
    specified = some actual

/-- Source without predicates. -/
theorem Tracks.plain {α : Type} (s : Selection) (result : α) :
    Tracks truth s [] (some result) result := by
  refine ⟨?_, ?_, ?_⟩
  · intro _ field hfield
    cases hfield
  · intro _ _ field hfield
    cases hfield
  · intro _ _
    rfl

theorem Tracks.map {α β : Type} {s : Selection} {fields : List Field} {specified : Option α}
    {actual : α} (h : Tracks truth s fields specified actual) (f : α → β) :
    Tracks truth s fields (specified.map f) (f actual) := by
  refine ⟨h.discarded, ?_, ?_⟩
  · intro hs hspecified
    refine h.diagnosed hs ?_
    intro hnone
    rw [hnone] at hspecified
    exact hspecified rfl
  · intro hs hconsistent
    rw [h.selected hs hconsistent]
    rfl

/-! ## Attributes -/

/-- What an attribute or a header leaves, if the statement stays. -/
def kept {α : Type} (result : Bool × α) : Option α :=
  if result.1 then some result.2 else none

theorem kept_map {α β : Type} (result : Bool × α) (f : α → β) :
    kept (result.1, f result.2) = (kept result).map f := by
  rcases result with ⟨present, value⟩
  cases present <;> rfl

theorem gatesHold_append (gates : List Attribute) (items : List MetaItem) :
    gatesHold truth (gates ++ items.map fun item => ⟨false, item⟩) =
      match gatesHold truth gates with
      | some true => cfgAllHold truth items
      | some false => some false
      | none => none := by
  have hitems : (items.map fun item => (⟨false, item⟩ : Attribute)).map Attribute.content =
      items := by
    rw [List.map_map]
    exact List.map_id items
  simp only [gatesHold, List.map_append, hitems, cfgAllHold_append]

theorem fieldHolds_condition (gates : List Attribute) (attr : Attribute) (selector : Nat) :
    fieldHolds truth ⟨gates ++ [attr], selector⟩ =
      match gatesHold truth gates with
      | some true => cfgHolds truth attr.content
      | some false => some false
      | none => none := by
  simp only [fieldHolds, gatesHold, List.map_append, List.map_cons, List.map_nil,
    cfgAllHold_append, cfgAllHold]
  cases cfgAllHold truth (gates.map Attribute.content) with
  | none => rfl
  | some holds =>
      cases holds with
      | false => rfl
      | true =>
          simp only
          cases cfgHolds truth attr.content with
          | none => rfl
          | some holds => cases holds <;> rfl

/-- Attributes in a row discard the statement as soon as one of them does. -/
theorem followed_isSome (specified specified' : Option (Option (List Attribute))) :
    Option.map Option.isSome
      (match specified with
        | some (some output) => specified'.map fun outputs => outputs.map (output ++ ·)
        | stopped => stopped) =
      match specified.map Option.isSome with
      | some true => specified'.map Option.isSome
      | some false => some false
      | none => none := by
  cases specified with
  | none => rfl
  | some output =>
      cases output with
      | none => rfl
      | some output =>
          cases specified' with
          | none => rfl
          | some outputs => cases outputs <;> rfl

mutual

/-- The gate an attribute leaves behind holds exactly when the statement stays. -/
theorem cfgAllHold_selectionMeta (inner : Bool) (item : MetaItem) :
    cfgAllHold truth (selectionMeta item).toList =
      (expandAttribute truth inner item).map Option.isSome := by
  cases item with
  | cfg predicate =>
      simp only [selectionMeta, Option.toList_some, cfgAllHold, cfgHolds, expandAttribute]
      cases truth predicate with
      | none => rfl
      | some holds => cases holds <;> rfl
  | cfgAttr condition entries =>
      simp only [selectionMeta, expandAttribute]
      split
      · simp only [Option.toList_some, cfgAllHold, cfgHolds]
        have hentries := cfgAllHold_selectionMetas entries
        cases truth condition with
        | none => rfl
        | some holds =>
            cases holds with
            | false => rfl
            | true =>
                simp only [hentries]
                cases expandEntries truth entries with
                | none => rfl
                | some outputs => cases outputs <;> rfl
      · rfl
  | other tokens => rfl

theorem cfgAllHold_selectionMetas (entries : List MetaItem) :
    cfgAllHold truth (selectionMetas entries) =
      (expandEntries truth entries).map Option.isSome := by
  cases entries with
  | nil => rfl
  | cons entry rest =>
      have hentry := cfgAllHold_selectionMeta false entry
      have hrest := cfgAllHold_selectionMetas rest
      simp only [selectionMetas, cfgAllHold_append, hentry, hrest, expandEntries, followed_isSome]

end

/-- The gates after an attribute, from those before it. -/
theorem gatesHold_round (truth : String → Option Bool) (inner : Bool) (item : MetaItem) {s s' : Selection}
    (hgates : s'.gates = s.gates ++ (selectionMeta item).toList.map fun gate => ⟨false, gate⟩) :
    (gatesHold truth s.gates = some true →
      gatesHold truth s'.gates = (expandAttribute truth inner item).map Option.isSome) ∧
    (gatesHold truth s.gates = some false → gatesHold truth s'.gates = some false) := by
  rw [hgates, gatesHold_append, cfgAllHold_selectionMeta inner]
  refine ⟨?_, ?_⟩
  · intro htrue
    rw [htrue]
  · intro hfalse
    rw [hfalse]

/-- One attribute after another. -/
theorem Tracks.sequence {s s' : Selection} {fields fields' : List Field}
    {specified specified' : Option (Option (List Attribute))} {result result' : Bool × List Attribute}
    (h : Tracks truth s fields specified (kept result))
    (h' : Tracks truth s' fields' specified' (kept result')) (hactive : s'.active = s.active)
    (hgates : gatesHold truth s.gates = some true →
      gatesHold truth s'.gates = specified.map Option.isSome)
    (hfalse : gatesHold truth s.gates = some false → gatesHold truth s'.gates = some false) :
    Tracks truth s (fields ++ fields')
      (match specified with
        | some (some output) => specified'.map fun outputs => outputs.map (output ++ ·)
        | stopped => stopped)
      (kept (result.1 && result'.1, result.2 ++ result'.2)) := by
  refine ⟨?_, ?_, ?_⟩
  · intro hs field hfield
    rcases List.mem_append.1 hfield with hfield | hfield
    · exact h.discarded hs field hfield
    · exact h'.discarded (hfalse hs) field hfield
  · intro hs hspecified field hfield
    have hfirst : specified ≠ none := by
      intro hnone
      rw [hnone] at hspecified
      exact hspecified rfl
    rcases List.mem_append.1 hfield with hfield | hfield
    · exact h.diagnosed hs hfirst field hfield
    · cases specified with
      | none => exact absurd rfl hfirst
      | some outcome =>
          cases outcome with
          | none =>
              -- rustc has stopped here, so nothing below is looked at.
              rw [h'.discarded (hgates hs) field hfield]
              simp
          | some output =>
              refine h'.diagnosed (hgates hs) ?_ field hfield
              intro hnone
              rw [hnone] at hspecified
              exact hspecified rfl
  · intro hs hconsistent
    rcases Consistent.append.1 hconsistent with ⟨hfields, hfields'⟩
    have hfirst := h.selected hs hfields
    rw [hfirst] at hgates
    rw [hfirst]
    rcases result with ⟨present, output⟩
    cases present with
    | false => rfl
    | true =>
        have hsecond := h'.selected (hgates hs) (hactive ▸ hfields')
        rw [hsecond]
        rcases result' with ⟨present', output'⟩
        cases present' <;> rfl

/-- The entries of a `cfg_attr` under the gate of its condition. -/
theorem Tracks.nested {s : Selection} {condition : String} {entries : List MetaItem}
    {fields : List Field} {result : Bool × List Attribute}
    (hselects : anySelectsSource entries = true)
    (h : Tracks truth ((s.condition ⟨false, .cfg condition⟩).2.extend [.cfg condition]) fields
      (expandEntries truth entries) (kept result)) (inner : Bool) :
    Tracks truth s (⟨s.gates ++ [⟨false, .cfg condition⟩], s.next⟩ :: fields)
      (expandAttribute truth inner (.cfgAttr condition entries))
      (kept (!Selection.isActive s.active s.next || result.1,
        if Selection.isActive s.active s.next then result.2 else [])) := by
  -- The gates inside are those of the field the condition gets.
  have hgates : gatesHold truth
      ((s.condition ⟨false, .cfg condition⟩).2.extend [.cfg condition]).gates =
        fieldHolds truth ⟨s.gates ++ [⟨false, .cfg condition⟩], s.next⟩ := rfl
  have hfield := @fieldHolds_condition truth s.gates ⟨false, .cfg condition⟩ s.next
  simp only [expandAttribute, hselects, if_true]
  refine ⟨?_, ?_, ?_⟩
  · intro hs field hmem
    rw [hs] at hfield
    rcases List.mem_cons.1 hmem with rfl | hmem
    · exact hfield
    · exact h.discarded (hgates.trans hfield) field hmem
  · intro hs hspecified field hmem
    rw [hs] at hfield
    simp only [cfgHolds] at hfield
    cases hcondition : truth condition with
    -- rustc reads the condition whenever it gets here, so it is well formed.
    | none => simp [hcondition] at hspecified
    | some holds =>
        rw [hcondition] at hfield hspecified
        rcases List.mem_cons.1 hmem with rfl | hmem
        · rw [hfield]
          simp
        · cases holds with
          | false =>
              -- A condition that fails hides malformed entries from rustc and from the fields alike.
              rw [h.discarded (hgates.trans hfield) field hmem]
              simp
          | true => exact h.diagnosed (hgates.trans hfield) hspecified field hmem
  · intro hs hconsistent
    rw [hs] at hfield
    simp only [cfgHolds] at hfield
    -- The field of the condition says whether its entries are there.
    have hactive := hconsistent _ List.mem_cons_self
    rw [hfield] at hactive
    rw [hactive]
    cases hholds : Selection.isActive s.active s.next with
    | false => rfl
    | true =>
        have hinside : gatesHold truth
            ((s.condition ⟨false, .cfg condition⟩).2.extend [.cfg condition]).gates = some true :=
          calc
            _ = fieldHolds truth ⟨s.gates ++ [⟨false, .cfg condition⟩], s.next⟩ := hgates
            _ = truth condition := hfield
            _ = some (Selection.isActive s.active s.next) := hactive
            _ = some true := by rw [hholds]
        have hselected := h.selected hinside
          (fun field hmem => hconsistent field (List.mem_cons_of_mem _ hmem))
        simpa using hselected

mutual

theorem attributeRound_tracks (inner : Bool) (item : MetaItem) (s : Selection) :
    ∃ fields, Emits s (attributeRound inner item s).2 fields ∧
      (attributeRound inner item s).2.gates =
        s.gates ++ (selectionMeta item).toList.map (fun gate => ⟨false, gate⟩) ∧
      Tracks truth s fields (expandAttribute truth inner item)
        (kept (attributeRound inner item s).1) := by
  cases item with
  | cfg predicate =>
      -- One predicate, one field.
      refine ⟨[⟨s.gates ++ [⟨inner, .cfg predicate⟩], s.next⟩], ?_, rfl, ?_⟩
      · exact (Emits.condition s ⟨inner, .cfg predicate⟩).of_gates rfl rfl
      · refine ⟨?_, ?_, ?_⟩
        · intro hs field hfield
          rcases List.mem_singleton.1 hfield with rfl
          rw [fieldHolds_condition, hs]
        · intro hs hspecified field hfield
          rcases List.mem_singleton.1 hfield with rfl
          rw [fieldHolds_condition, hs]
          intro hnone
          simp only [cfgHolds] at hnone
          simp [expandAttribute, hnone] at hspecified
        · intro hs hconsistent
          have hfield := hconsistent _ List.mem_cons_self
          rw [fieldHolds_condition, hs] at hfield
          simp only [cfgHolds] at hfield
          simp only [expandAttribute, hfield, attributeRound, Selection.condition]
          cases Selection.isActive s.active s.next <;> rfl
  | cfgAttr condition entries =>
      by_cases hselects : anySelectsSource entries = true
      · rcases attributeRounds_tracks entries
          ((s.condition ⟨false, .cfg condition⟩).2.extend [.cfg condition]) with
          ⟨fields, hemits, hgates, htracks⟩
        refine ⟨⟨s.gates ++ [⟨false, .cfg condition⟩], s.next⟩ :: fields, ?_, ?_, ?_⟩
        · simp only [attributeRound, hselects, if_true]
          exact (Emits.condition s ⟨false, .cfg condition⟩).trans (hemits.of_gates rfl rfl)
        · simp only [attributeRound, hselects, if_true, selectionMeta, Selection.extend,
            Selection.truncate] at hgates ⊢
          rw [hgates]
          simp [Selection.condition]
        · have hnested := htracks.nested hselects inner
          simp only [attributeRound, hselects, if_true]
          exact hnested
      · -- A `cfg_attr` that selects no source is left alone, by rustc too.
        refine ⟨[], ?_, ?_, ?_⟩
        · simp only [attributeRound, hselects, Bool.false_eq_true, if_false]
          exact .refl s
        · simp [attributeRound, selectionMeta, hselects]
        · simp only [attributeRound, expandAttribute, hselects, Bool.false_eq_true, if_false]
          exact .plain s _
  | other tokens =>
      refine ⟨[], .refl s, ?_, .plain s _⟩
      simp [attributeRound, selectionMeta]

theorem attributeRounds_tracks (entries : List MetaItem) (s : Selection) :
    ∃ fields, Emits s (attributeRounds entries s).2 fields ∧
      (attributeRounds entries s).2.gates =
        s.gates ++ (selectionMetas entries).map (fun gate => ⟨false, gate⟩) ∧
      Tracks truth s fields (expandEntries truth entries) (kept (attributeRounds entries s).1) := by
  cases entries with
  | nil =>
      refine ⟨[], .refl s, ?_, .plain s _⟩
      simp [attributeRounds, selectionMetas]
  | cons entry rest =>
      rcases attributeRound_tracks false entry s with ⟨fields, hemits, hgates, htracks⟩
      rcases attributeRounds_tracks rest (attributeRound false entry s).2 with
        ⟨fields', hemits', hgates', htracks'⟩
      have hround := gatesHold_round truth false entry hgates
      refine ⟨fields ++ fields', hemits.trans hemits', ?_,
        htracks.sequence htracks' hemits.active hround.1 hround.2⟩
      simp only [attributeRounds, selectionMetas, hgates', hgates, List.append_assoc,
        List.map_append]

end

theorem attributesLoop_tracks (truth : String → Option Bool) (attrs : List Attribute)
    (s : Selection) :
    ∃ fields, Emits s (attributesLoop attrs s).2 fields ∧
      (attributesLoop attrs s).2.gates = s.gates ++
        (selectionMetas (attrs.map Attribute.content)).map (fun gate => ⟨false, gate⟩) ∧
      Tracks truth s fields (expandAttributes truth attrs) (kept (attributesLoop attrs s).1) := by
  induction attrs generalizing s with
  | nil =>
      refine ⟨[], .refl s, ?_, .plain s _⟩
      simp [attributesLoop, selectionMetas]
  | cons first rest ih =>
      rcases attributeRound_tracks first.inner first.content s with
        ⟨fields, hemits, hgates, htracks⟩
      rcases ih (attributeRound first.inner first.content s).2 with
        ⟨fields', hemits', hgates', htracks'⟩
      have hround := gatesHold_round truth first.inner first.content hgates
      refine ⟨fields ++ fields', hemits.trans hemits', ?_,
        htracks.sequence htracks' hemits.active hround.1 hround.2⟩
      simp only [attributesLoop, List.map_cons, selectionMetas, hgates', hgates, List.append_assoc,
        List.map_append]

/-- The gates of the attributes of a statement hold exactly when it stays. -/
theorem cfgAllHold_attributes (attrs : List Attribute) :
    cfgAllHold truth (selectionMetas (attrs.map Attribute.content)) =
      (expandAttributes truth attrs).map Option.isSome := by
  induction attrs with
  | nil => rfl
  | cons first rest ih =>
      simp only [List.map_cons, selectionMetas, cfgAllHold_append,
        cfgAllHold_selectionMeta first.inner, ih, expandAttributes, followed_isSome]

/-! ## Statements -/

/-- The header of a statement, and the gates under which its contents are visited. -/
theorem header_tracks (truth : String → Option Bool) (label : Label) (s : Selection) :
    ∃ fields gates, Emits s (header label s).2.2 fields ∧
      (header label s).2.2.gates = s.gates ++ gates ∧
      (gatesHold truth s.gates = some true → gatesHold truth (s.gates ++ gates) =
        (expandHeader truth label).map Option.isSome) ∧
      (gatesHold truth s.gates = some false → gatesHold truth (s.gates ++ gates) = some false) ∧
      Tracks truth s fields (expandHeader truth label)
        (kept ((header label s).1, (header label s).2.1)) := by
  by_cases htakes : takesAttributes label.form = true
  · rcases attributesLoop_tracks truth label.attrs s with ⟨fields, hemits, hgates, htracks⟩
    -- The loop truncates its gates; the header extends them again for the contents.
    have hrestored : (attributes label.attrs s).2.gates = s.gates := by
      simp [attributes, Selection.truncate, hgates]
    refine ⟨fields, (selectionMetas (label.attrs.map Attribute.content)).map fun gate =>
      ⟨false, gate⟩, ?_, ?_, ?_, ?_, ?_⟩
    · simp only [header, htakes, if_true]
      exact hemits.of_gates rfl rfl
    · simp only [header, htakes, if_true, Selection.extend, hrestored]
    · intro hs
      rw [gatesHold_append, hs, cfgAllHold_attributes]
      simp only [expandHeader, htakes, if_true]
      cases expandAttributes truth label.attrs with
      | none => rfl
      | some attrs => cases attrs <;> rfl
    · intro hs
      rw [gatesHold_append, hs]
    · simp only [header, expandHeader, htakes, if_true]
      have hmapped := htracks.map fun attrs => attrs.map fun attrs => { label with attrs }
      rw [← kept_map] at hmapped
      exact hmapped
  · -- Other forms carry no attributes, and their header changes nothing.
    refine ⟨[], [], ?_, ?_, ?_, ?_, ?_⟩
    · simp only [header, htakes, Bool.false_eq_true, if_false]
      exact .refl s
    · simp [header, htakes]
    · intro hs
      simp [expandHeader, htakes, hs]
    · intro hs
      simp [hs]
    · simp only [header, expandHeader, htakes, Bool.false_eq_true, if_false]
      exact .plain s _

/-! ## Labels without conditions -/

/-- No attribute of the list selects source. -/
def Plain (attrs : List Attribute) : Prop :=
  ∀ attr ∈ attrs, selectsSource attr.content = false

theorem plain_nil : Plain [] := by
  intro attr hattr
  cases hattr

theorem Plain.append {attrs others : List Attribute} (h : Plain attrs) (h' : Plain others) :
    Plain (attrs ++ others) := by
  intro attr hattr
  rcases List.mem_append.1 hattr with hattr | hattr
  · exact h attr hattr
  · exact h' attr hattr

theorem plain_singleton {inner : Bool} {item : MetaItem} (h : selectsSource item = false) :
    Plain [⟨inner, item⟩] := by
  intro attr hattr
  rcases List.mem_singleton.1 hattr with rfl
  exact h

mutual

theorem plain_attributeRound (inner : Bool) (item : MetaItem) (s : Selection) :
    Plain (attributeRound inner item s).1.2 := by
  cases item with
  | cfg predicate => exact plain_nil
  | cfgAttr condition entries =>
      by_cases hselects : anySelectsSource entries = true
      · simp only [attributeRound, hselects, if_true]
        split
        · exact plain_attributeRounds entries _
        · exact plain_nil
      · simp only [attributeRound, hselects, Bool.false_eq_true, if_false]
        exact plain_singleton (by simpa [selectsSource] using hselects)
  | other tokens => exact plain_singleton rfl

theorem plain_attributeRounds (entries : List MetaItem) (s : Selection) :
    Plain (attributeRounds entries s).1.2 := by
  cases entries with
  | nil => exact plain_nil
  | cons entry rest =>
      exact (plain_attributeRound false entry s).append (plain_attributeRounds rest _)

end

theorem plain_attributesLoop (attrs : List Attribute) (s : Selection) :
    Plain (attributesLoop attrs s).1.2 := by
  induction attrs generalizing s with
  | nil => exact plain_nil
  | cons first rest ih =>
      exact (plain_attributeRound first.inner first.content s).append (ih _)

mutual

theorem plain_expandAttribute {inner : Bool} {item : MetaItem} {output : List Attribute}
    (h : expandAttribute truth inner item = some (some output)) : Plain output := by
  cases item with
  | cfg predicate =>
      simp only [expandAttribute] at h
      split at h
      · cases h
        exact plain_nil
      · cases h
      · cases h
  | cfgAttr condition entries =>
      simp only [expandAttribute] at h
      split at h
      · split at h
        · exact plain_expandEntries h
        · cases h
          exact plain_nil
        · cases h
      · rename_i hselects
        cases h
        exact plain_singleton (by simpa [selectsSource] using hselects)
  | other tokens =>
      cases h
      exact plain_singleton rfl

theorem plain_expandEntries {entries : List MetaItem} {output : List Attribute}
    (h : expandEntries truth entries = some (some output)) : Plain output := by
  cases entries with
  | nil =>
      cases h
      exact plain_nil
  | cons entry rest =>
      simp only [expandEntries] at h
      cases hentry : expandAttribute truth false entry with
      | none => simp [hentry] at h
      | some outcome =>
          cases outcome with
          | none => simp [hentry] at h
          | some first =>
              cases hrest : expandEntries truth rest with
              | none => simp [hentry, hrest] at h
              | some outcomes =>
                  cases outcomes with
                  | none => simp [hentry, hrest] at h
                  | some others =>
                      simp only [hentry, hrest, Option.map_some, Option.some.injEq] at h
                      subst h
                      exact (plain_expandAttribute hentry).append (plain_expandEntries hrest)

end

theorem plain_expandAttributes {attrs : List Attribute} {output : List Attribute}
    (h : expandAttributes truth attrs = some (some output)) : Plain output := by
  induction attrs generalizing output with
  | nil =>
      cases h
      exact plain_nil
  | cons first rest ih =>
      simp only [expandAttributes] at h
      cases hfirst : expandAttribute truth first.inner first.content with
      | none => simp [hfirst] at h
      | some outcome =>
          cases outcome with
          | none => simp [hfirst] at h
          | some head =>
              cases hrest : expandAttributes truth rest with
              | none => simp [hfirst, hrest] at h
              | some outcomes =>
                  cases outcomes with
                  | none => simp [hfirst, hrest] at h
                  | some others =>
                      simp only [hfirst, hrest, Option.map_some, Option.some.injEq] at h
                      subst h
                      exact (plain_expandAttribute hfirst).append (ih hrest)

theorem not_conditional_of_plain {label : Label} (h : Plain label.attrs) :
    conditional label = false := by
  have hany : (label.attrs.any fun attr => selectsSource attr.content) = false := by
    simpa [Plain] using h
  simp only [conditional, hany]
  split <;> rfl

theorem below_of_plain {label label' : Label} (hform : label.form = label'.form)
    (h : Plain label.attrs) (h' : Plain label'.attrs) : below label = below label' := by
  simp only [below, hform, not_conditional_of_plain h, not_conditional_of_plain h']

/-- With whatever attributes a statement stays, its contents are visited alike. -/
theorem below_header {label stays : Label} (s : Selection)
    (h : expandHeader truth label = some (some stays)) :
    below stays = below (header label s).2.1 := by
  by_cases htakes : takesAttributes label.form = true
  · simp only [expandHeader, header, htakes, if_true] at h ⊢
    cases hattrs : expandAttributes truth label.attrs with
    | none => simp [hattrs] at h
    | some outcome =>
        cases outcome with
        | none => simp [hattrs] at h
        | some attrs =>
            simp only [hattrs, Option.map_some, Option.some.injEq] at h
            subst h
            exact below_of_plain rfl (plain_expandAttributes hattrs)
              (plain_attributesLoop label.attrs s)
  · simp only [expandHeader, header, htakes, Bool.false_eq_true, if_false, Option.some.injEq] at h ⊢
    rw [h]

theorem expandContents_eq_none {label label' : Label} (hbelow : below label = below label')
    {children : List Node} {statements all : Option (List Node)}
    (h : expandContents label children statements all = none) :
    expandContents label' children statements all = none := by
  simp only [expandContents, hbelow] at h ⊢
  cases hlabel : below label' with
  | nothing => simp [hlabel] at h
  | statements => simpa [hlabel] using h
  | children => simpa [hlabel] using h

/-! ## Nodes -/

/-- A visit that gives its gates back and follows rustc. -/
def Agrees {α : Type} (truth : String → Option Bool) (visit : Selection → α × Selection)
    (specified : Option α) : Prop :=
  ∀ s, ∃ fields, Emits s (visit s).2 fields ∧ (visit s).2.gates = s.gates ∧
    Tracks truth s fields specified (visit s).1

theorem contents_agrees (label : Label) (children : List Node)
    {statements all : Selection → List Node × Selection}
    {expandedStatements expandedAll : Option (List Node)}
    (hstatements : Agrees truth statements expandedStatements)
    (hall : Agrees truth all expandedAll) :
    Agrees truth (contents label children statements all)
      (expandContents label children expandedStatements expandedAll) := by
  intro s
  simp only [contents, expandContents]
  cases below label with
  | nothing => exact ⟨[], .refl s, rfl, .plain s _⟩
  | statements =>
      rcases hstatements s with ⟨fields, hemits, hgates, htracks⟩
      exact ⟨fields, hemits, hgates, htracks.map (Rose.node label)⟩
  | children =>
      rcases hall s with ⟨fields, hemits, hgates, htracks⟩
      exact ⟨fields, hemits, hgates, htracks.map (Rose.node label)⟩

/-- Children one after another, under the same gates. -/
theorem Tracks.cons {s s' : Selection} {fields fields' : List Field} {specified : Option Node}
    {specified' : Option (List Node)} {node : Node} {nodes : List Node}
    (h : Tracks truth s fields specified node) (h' : Tracks truth s' fields' specified' nodes)
    (hgates : s'.gates = s.gates) (hactive : s'.active = s.active) :
    Tracks truth s (fields ++ fields')
      (match specified with
        | some node => specified'.map (node :: ·)
        | none => none)
      (node :: nodes) := by
  refine ⟨?_, ?_, ?_⟩
  · intro hs field hfield
    rcases List.mem_append.1 hfield with hfield | hfield
    · exact h.discarded hs field hfield
    · exact h'.discarded (hgates ▸ hs) field hfield
  · intro hs hspecified field hfield
    cases specified with
    | none => exact absurd rfl hspecified
    | some first =>
        rcases List.mem_append.1 hfield with hfield | hfield
        · exact h.diagnosed hs (by simp) field hfield
        · refine h'.diagnosed (hgates ▸ hs) ?_ field hfield
          intro hnone
          rw [hnone] at hspecified
          exact hspecified rfl
  · intro hs hconsistent
    rcases Consistent.append.1 hconsistent with ⟨hfields, hfields'⟩
    rw [h.selected hs hfields, h'.selected (hgates ▸ hs) (hactive ▸ hfields')]
    rfl

/-- A statement: its header, its contents under the gates of the header, and the statements after
it. -/
theorem Tracks.statement {s s' s'' : Selection} {fields fields' fields'' : List Field}
    {label stays : Label} {present : Bool} {children : List Node} {statements all : Option (List Node)}
    {specified : Option (List Node)} {node : Node} {nodes : List Node}
    (h : Tracks truth s fields (expandHeader truth label) (kept (present, stays)))
    (h' : Tracks truth s' fields' (expandContents stays children statements all) node)
    (h'' : Tracks truth s'' fields'' specified nodes)
    (hopen : gatesHold truth s.gates = some true →
      gatesHold truth s'.gates = (expandHeader truth label).map Option.isSome)
    (hclosed : gatesHold truth s.gates = some false → gatesHold truth s'.gates = some false)
    (hbelow : ∀ other, expandHeader truth label = some (some other) → below other = below stays)
    (hgates : s''.gates = s.gates) (hactive : s'.active = s.active ∧ s''.active = s.active) :
    Tracks truth s (fields ++ (fields' ++ fields''))
      (match expandHeader truth label with
        | some (some label) =>
            match expandContents label children statements all with
            | some node => specified.map (node :: ·)
            | none => none
        | some none => specified
        | none => none)
      (if present then node :: nodes else nodes) := by
  refine ⟨?_, ?_, ?_⟩
  · intro hs field hfield
    rcases List.mem_append.1 hfield with hfield | hfield
    · exact h.discarded hs field hfield
    · rcases List.mem_append.1 hfield with hfield | hfield
      · exact h'.discarded (hclosed hs) field hfield
      · exact h''.discarded (hgates ▸ hs) field hfield
  · intro hs hspecified field hfield
    cases hheader : expandHeader truth label with
    | none =>
        rw [hheader] at hspecified
        exact absurd rfl hspecified
    | some outcome =>
        rw [hheader] at hspecified hopen
        rcases List.mem_append.1 hfield with hfield | hfield
        · exact h.diagnosed hs (by simp [hheader]) field hfield
        · cases outcome with
          | none =>
              -- The statement goes: nothing inside it is looked at.
              rcases List.mem_append.1 hfield with hfield | hfield
              · rw [h'.discarded (hopen hs) field hfield]
                simp
              · exact h''.diagnosed (hgates ▸ hs) hspecified field hfield
          | some other =>
              simp only at hspecified
              cases hcontents : expandContents other children statements all with
              | none =>
                  rw [hcontents] at hspecified
                  exact absurd rfl hspecified
              | some expanded =>
                  rw [hcontents] at hspecified
                  rcases List.mem_append.1 hfield with hfield | hfield
                  · refine h'.diagnosed (hopen hs) ?_ field hfield
                    intro hnone
                    rw [expandContents_eq_none (hbelow other hheader).symm hnone] at hcontents
                    cases hcontents
                  · refine h''.diagnosed (hgates ▸ hs) ?_ field hfield
                    intro hnone
                    rw [hnone] at hspecified
                    exact hspecified rfl
  · intro hs hconsistent
    rcases Consistent.append.1 hconsistent with ⟨hfields, hothers⟩
    rcases Consistent.append.1 hothers with ⟨hfields', hfields''⟩
    have hheader := h.selected hs hfields
    rw [hheader] at hopen ⊢
    have hnodes := h''.selected (hgates ▸ hs) (hactive.2 ▸ hfields'')
    cases present with
    | false => exact hnodes
    | true =>
        have hnode := h'.selected (hopen hs) (hactive.1 ▸ hfields')
        simp only [kept, if_true, hnode, hnodes, Option.map_some]

mutual

theorem visit_agrees (truth : String → Option Bool) (node : Node) :
    Agrees truth (visit node) (expand truth node) := by
  cases node with
  | node label children =>
      intro s
      simp only [visit, expand]
      exact contents_agrees label children (visitStatements_agrees truth children)
        (visitAll_agrees truth children) s

theorem visitAll_agrees (truth : String → Option Bool) (nodes : List Node) :
    Agrees truth (visitAll nodes) (expandAll truth nodes) := by
  intro s
  cases nodes with
  | nil => exact ⟨[], .refl s, rfl, .plain s _⟩
  | cons node rest =>
      rcases visit_agrees truth node s with ⟨fields, hemits, hgates, htracks⟩
      rcases visitAll_agrees truth rest (visit node s).2 with ⟨fields', hemits', hgates', htracks'⟩
      exact ⟨fields ++ fields', hemits.trans hemits', hgates'.trans hgates,
        htracks.cons htracks' hgates hemits.active⟩

theorem visitStatements_agrees (truth : String → Option Bool) (nodes : List Node) :
    Agrees truth (visitStatements nodes) (expandStatements truth nodes) := by
  intro s
  cases nodes with
  | nil => exact ⟨[], .refl s, rfl, .plain s _⟩
  | cons node rest =>
      cases node with
      | node label children =>
          rcases header_tracks truth label s with
            ⟨fields, gates, hemits, hgates, hopen, hclosed, htracks⟩
          rcases contents_agrees (header label s).2.1 children
            (visitStatements_agrees truth children) (visitAll_agrees truth children)
            (header label s).2.2 with
            ⟨fields', hemits', hgates', htracks'⟩
          have hrestored : ((contents (header label s).2.1 children (visitStatements children)
              (visitAll children) (header label s).2.2).2.truncate s.gates.length).gates =
                s.gates := by
            simp [Selection.truncate, hgates', hgates]
          rcases visitStatements_agrees truth rest
            ((contents (header label s).2.1 children (visitStatements children)
              (visitAll children) (header label s).2.2).2.truncate s.gates.length) with
            ⟨fields'', hemits'', hgates'', htracks''⟩
          refine ⟨fields ++ (fields' ++ fields''), ?_, hgates''.trans hrestored, ?_⟩
          · exact hemits.trans (hemits'.trans (hemits''.of_gates rfl rfl))
          · exact htracks.statement htracks' htracks'' (hgates ▸ hopen) (hgates ▸ hclosed)
              (fun other hother => below_header s hother) hrestored
              ⟨hemits.active, hemits'.active.trans hemits.active⟩

end

/-! ## Selectors do not depend on the pass -/

def Selection.withActive (s : Selection) (active : Option (List Nat)) : Selection :=
  { s with active }

section Active

variable (active : Option (List Nat))

mutual

theorem attributeRound_active (inner : Bool) (item : MetaItem) (s : Selection) :
    (attributeRound inner item (s.withActive active)).2 =
      (attributeRound inner item s).2.withActive active := by
  cases item with
  | cfg predicate => rfl
  | cfgAttr condition entries =>
      simp only [attributeRound]
      split
      · have hentries := attributeRounds_active entries
          ((s.condition ⟨false, .cfg condition⟩).2.extend [.cfg condition])
        have hextended : ((s.withActive active).condition ⟨false, .cfg condition⟩).2.extend
            [.cfg condition] = ((s.condition ⟨false, .cfg condition⟩).2.extend
              [.cfg condition]).withActive active := rfl
        rw [hextended, hentries]
        rfl
      · rfl
  | other tokens => rfl

theorem attributeRounds_active (entries : List MetaItem) (s : Selection) :
    (attributeRounds entries (s.withActive active)).2 =
      (attributeRounds entries s).2.withActive active := by
  cases entries with
  | nil => rfl
  | cons entry rest =>
      simp only [attributeRounds, attributeRound_active false entry s]
      exact attributeRounds_active rest _

end

theorem attributesLoop_active (attrs : List Attribute) (s : Selection) :
    (attributesLoop attrs (s.withActive active)).2 =
      (attributesLoop attrs s).2.withActive active := by
  induction attrs generalizing s with
  | nil => rfl
  | cons first rest ih =>
      simp only [attributesLoop, attributeRound_active active first.inner first.content s]
      exact ih _

theorem header_active (label : Label) (s : Selection) :
    (header label (s.withActive active)).2.2 = (header label s).2.2.withActive active ∧
      below (header label (s.withActive active)).2.1 = below (header label s).2.1 := by
  simp only [header]
  split
  · refine ⟨?_, ?_⟩
    · simp only [attributes, attributesLoop_active]
      rfl
    · exact below_of_plain rfl (plain_attributesLoop _ _) (plain_attributesLoop _ _)
  · exact ⟨rfl, rfl⟩

theorem contents_active {label label' : Label} (hbelow : below label = below label')
    (children : List Node) {statements all : Selection → List Node × Selection}
    (hstatements : ∀ s, (statements (s.withActive active)).2 = (statements s).2.withActive active)
    (hall : ∀ s, (all (s.withActive active)).2 = (all s).2.withActive active) (s : Selection) :
    (contents label children statements all (s.withActive active)).2 =
      (contents label' children statements all s).2.withActive active := by
  simp only [contents, hbelow]
  cases below label' with
  | nothing => rfl
  | statements => exact hstatements s
  | children => exact hall s

mutual

theorem visit_active (node : Node) (s : Selection) :
    (visit node (s.withActive active)).2 = (visit node s).2.withActive active := by
  cases node with
  | node label children =>
      simp only [visit]
      exact contents_active active rfl children (visitStatements_active children)
        (visitAll_active children) s

theorem visitAll_active (nodes : List Node) (s : Selection) :
    (visitAll nodes (s.withActive active)).2 = (visitAll nodes s).2.withActive active := by
  cases nodes with
  | nil => rfl
  | cons node rest =>
      simp only [visitAll, visit_active node s]
      exact visitAll_active rest _

theorem visitStatements_active (nodes : List Node) (s : Selection) :
    (visitStatements nodes (s.withActive active)).2 =
      (visitStatements nodes s).2.withActive active := by
  cases nodes with
  | nil => rfl
  | cons node rest =>
      cases node with
      | node label children =>
          have hheader := header_active active label s
          have hcontents := contents_active active hheader.2 children
            (visitStatements_active children) (visitAll_active children) (header label s).2.2
          simp only [visitStatements, hheader.1, hcontents]
          exact visitStatements_active rest ((contents (header label s).2.1 children
            (visitStatements children) (visitAll children) (header label s).2.2).2.truncate
              s.gates.length)

end

end Active

/-! ## Bodies without conditional statements -/

theorem attributeRound_unchanged {inner : Bool} {item : MetaItem} {s : Selection}
    (h : (attributeRound inner item s).2.next = s.next) :
    (attributeRound inner item s).1 = (true, [⟨inner, item⟩]) := by
  cases item with
  | cfg predicate => simp [attributeRound, Selection.condition, Selection.extend] at h
  | cfgAttr condition entries =>
      by_cases hselects : anySelectsSource entries = true
      · rcases @attributeRounds_tracks (fun _ => none) entries
          ((s.condition ⟨false, .cfg condition⟩).2.extend [.cfg condition]) with
          ⟨fields, hemits, _⟩
        have hnext := hemits.next
        simp only [attributeRound, hselects, if_true, Selection.truncate, Selection.extend] at h hnext
        rw [hnext] at h
        simp only [Selection.condition] at h
        omega
      · simp [attributeRound, hselects]
  | other tokens => rfl

theorem attributesLoop_unchanged {attrs : List Attribute} {s : Selection}
    (h : (attributesLoop attrs s).2.next = s.next) :
    (attributesLoop attrs s).1 = (true, attrs) := by
  induction attrs generalizing s with
  | nil => rfl
  | cons first rest ih =>
      rcases @attributeRound_tracks (fun _ => none) first.inner first.content s with
        ⟨fields, hemits, _⟩
      rcases attributesLoop_tracks (fun _ => none) rest
        (attributeRound first.inner first.content s).2 with ⟨fields', hemits', _⟩
      have hnext := hemits.next
      have hnext' := hemits'.next
      simp only [attributesLoop] at h
      have hround : (attributeRound first.inner first.content s).2.next = s.next := by omega
      simp [attributesLoop, attributeRound_unchanged hround, ih (h.trans hround.symm)]

theorem header_unchanged {label : Label} {s : Selection} (h : (header label s).2.2.next = s.next) :
    (header label s).1 = true ∧ (header label s).2.1 = label := by
  simp only [header] at h ⊢
  split at h
  · rename_i htakes
    have hloop : (attributesLoop label.attrs s).1 = (true, label.attrs) :=
      attributesLoop_unchanged h
    simp [htakes, attributes, hloop]
  · rename_i htakes
    simp [htakes]

theorem contents_unchanged {label : Label} {children : List Node}
    {statements all : Selection → List Node × Selection}
    (hstatements : ∀ s, (statements s).2.next = s.next → (statements s).1 = children)
    (hall : ∀ s, (all s).2.next = s.next → (all s).1 = children) {s : Selection}
    (h : (contents label children statements all s).2.next = s.next) :
    (contents label children statements all s).1 = .node label children := by
  simp only [contents] at h ⊢
  cases hbelow : below label with
  | nothing => rfl
  | statements =>
      simp only [hbelow] at h ⊢
      rw [hstatements s h]
  | children =>
      simp only [hbelow] at h ⊢
      rw [hall s h]

mutual

/-- A visit that emits no field changes nothing. -/
theorem visit_unchanged (node : Node) (s : Selection) (h : (visit node s).2.next = s.next) :
    (visit node s).1 = node := by
  cases node with
  | node label children =>
      simp only [visit] at h ⊢
      exact contents_unchanged (visitStatements_unchanged children) (visitAll_unchanged children) h

theorem visitAll_unchanged (nodes : List Node) (s : Selection)
    (h : (visitAll nodes s).2.next = s.next) : (visitAll nodes s).1 = nodes := by
  cases nodes with
  | nil => rfl
  | cons node rest =>
      rcases visit_agrees (fun _ => none) node s with ⟨fields, hemits, _⟩
      rcases visitAll_agrees (fun _ => none) rest (visit node s).2 with ⟨fields', hemits', _⟩
      have hnext := hemits.next
      have hnext' := hemits'.next
      simp only [visitAll] at h ⊢
      rw [visit_unchanged node s (by omega), visitAll_unchanged rest _ (by omega)]

theorem visitStatements_unchanged (nodes : List Node) (s : Selection)
    (h : (visitStatements nodes s).2.next = s.next) : (visitStatements nodes s).1 = nodes := by
  cases nodes with
  | nil => rfl
  | cons node rest =>
      cases node with
      | node label children =>
          rcases header_tracks (fun _ => none) label s with ⟨fields, _, hemits, _⟩
          rcases contents_agrees (header label s).2.1 children
            (visitStatements_agrees (fun _ => none) children)
            (visitAll_agrees (fun _ => none) children) (header label s).2.2 with
            ⟨fields', hemits', _⟩
          rcases visitStatements_agrees (fun _ => none) rest
            ((contents (header label s).2.1 children (visitStatements children)
              (visitAll children) (header label s).2.2).2.truncate s.gates.length) with
            ⟨fields'', hemits'', _⟩
          -- Each of the three stretches only counts up, so none of them counted.
          have hnext := hemits.next
          have hnext' := hemits'.next
          have hnext'' := hemits''.next
          have htruncated : ((contents (header label s).2.1 children (visitStatements children)
              (visitAll children) (header label s).2.2).2.truncate s.gates.length).next =
                (contents (header label s).2.1 children (visitStatements children)
                  (visitAll children) (header label s).2.2).2.next := rfl
          have h : (visitStatements rest ((contents (header label s).2.1 children
              (visitStatements children) (visitAll children) (header label s).2.2).2.truncate
                s.gates.length)).2.next = s.next := h
          have hheader : (header label s).2.2.next = s.next := by omega
          have hcontents : (contents (header label s).2.1 children (visitStatements children)
              (visitAll children) (header label s).2.2).2.next = (header label s).2.2.next := by
            omega
          have hrest := visitStatements_unchanged rest _ (h.trans (by omega))
          have hnode := contents_unchanged (visitStatements_unchanged children)
            (visitAll_unchanged children) hcontents
          rcases header_unchanged hheader with ⟨hpresent, hlabel⟩
          rw [hlabel] at hrest hnode
          simp [visitStatements, hpresent, hlabel, hrest, hnode]

end

/-! ## Between the passes -/

theorem keepFields_eq_none {fields : List Field} (hparses : ∀ field ∈ fields, field.parses = true)
    (h : keepFields truth fields = none) : ∃ field ∈ fields, fieldHolds truth field = none := by
  induction fields with
  | nil => cases h
  | cons field rest ih =>
      have hfield := hparses field List.mem_cons_self
      have ih := ih fun other hother => hparses other (List.mem_cons_of_mem _ hother)
      cases hholds : fieldHolds truth field with
      | none => exact ⟨field, List.mem_cons_self, hholds⟩
      | some holds =>
          have hrest : keepFields truth rest = none := by
            simp only [fieldHolds, gatesHold] at hholds
            cases hkept : keepFields truth rest with
            | none => rfl
            | some kept => cases holds <;> simp [keepFields, hfield, hholds, hkept] at h
          rcases ih hrest with ⟨other, hother, hnone⟩
          exact ⟨other, List.mem_cons_of_mem _ hother, hnone⟩

/-- One field that does not parse, and rustc reads none. -/
theorem keepFields_unparsed {fields : List Field} {field : Field} (hmem : field ∈ fields)
    (h : field.parses = false) : keepFields truth fields = none := by
  induction fields with
  | nil => cases hmem
  | cons first rest ih =>
      rcases List.mem_cons.1 hmem with rfl | hmem
      · simp [keepFields, h]
      · rw [keepFields, ih hmem]
        split
        · split <;> simp_all
        · rfl

theorem mem_keepFields {fields : List Field} {active : List Nat}
    (hparses : ∀ field ∈ fields, field.parses = true) (h : keepFields truth fields = some active) :
    (∀ field ∈ fields, fieldHolds truth field ≠ none) ∧
      ∀ selector, selector ∈ active ↔
        ∃ field ∈ fields, field.selector = selector ∧ fieldHolds truth field = some true := by
  induction fields generalizing active with
  | nil =>
      cases h
      simp
  | cons field rest ih =>
      have hfield := hparses field List.mem_cons_self
      cases hkept : keepFields truth rest with
      | none => simp [keepFields, hkept] at h
      | some kept =>
          rcases ih (fun other hother => hparses other (List.mem_cons_of_mem _ hother)) hkept with
            ⟨hdefined, hmem⟩
          cases hholds : fieldHolds truth field with
          | none =>
              simp only [fieldHolds, gatesHold] at hholds
              -- One malformed field and rustc reports it instead of keeping any.
              simp [keepFields, hholds] at h
          | some holds =>
              have hround := hholds
              simp only [fieldHolds, gatesHold] at hround
              refine ⟨?_, ?_⟩
              · intro other hother
                rcases List.mem_cons.1 hother with rfl | hother
                · simp [hholds]
                · exact hdefined other hother
              · intro selector
                cases holds with
                | false =>
                    simp only [keepFields, hfield, if_true, hround, hkept, Option.some.injEq] at h
                    simp [← h, hmem, hholds]
                | true =>
                    simp only [keepFields, hfield, if_true, hround, hkept, Option.some.injEq] at h
                    simp [← h, hmem, hholds, eq_comm]

/-- No two fields share a name, so those that stay say which hold. -/
theorem keepFields_consistent {fields : List Field} {active : List Nat}
    (hnodup : (fields.map Field.selector).Nodup) (hparses : ∀ field ∈ fields, field.parses = true)
    (h : keepFields truth fields = some active) : Consistent truth (some active) fields := by
  rcases mem_keepFields hparses h with ⟨hdefined, hmem⟩
  intro field hfield
  cases hholds : fieldHolds truth field with
  | none => exact absurd hholds (hdefined field hfield)
  | some holds =>
      have hactive : field.selector ∈ active ↔ holds = true := by
        refine (hmem field.selector).trans ⟨?_, ?_⟩
        · intro hother
          rcases hother with ⟨other, hother, hselector, htrue⟩
          have hsame := List.inj_on_of_nodup_map hnodup hother hfield hselector
          rw [hsame, hholds] at htrue
          exact Option.some.inj htrue
        · intro htrue
          exact ⟨field, hfield, rfl, htrue ▸ hholds⟩
      cases holds <;> simp_all [Selection.isActive]

/-! ## The statements that stay -/

section Total

variable (t : String → Bool)

/-- Every predicate well formed. -/
def total : String → Option Bool := fun predicate => some (t predicate)

mutual

theorem cfgHolds_of_not_selects (item : MetaItem) (h : selectsSource item = false) :
    cfgHolds (total t) item = some true := by
  cases item with
  | cfg predicate => cases h
  | cfgAttr condition entries =>
      have hentries := cfgAllHold_of_not_selects entries h
      simp only [cfgHolds, total] at hentries ⊢
      cases t condition with
      | false => rfl
      | true => exact hentries
  | other tokens => rfl

theorem cfgAllHold_of_not_selects (entries : List MetaItem) (h : anySelectsSource entries = false) :
    cfgAllHold (total t) entries = some true := by
  cases entries with
  | nil => rfl
  | cons entry rest =>
      simp only [anySelectsSource, Bool.or_eq_false_iff] at h
      simp only [cfgAllHold, cfgHolds_of_not_selects entry h.1,
        cfgAllHold_of_not_selects rest h.2]

end

mutual

theorem expandAttribute_isSome (inner : Bool) (item : MetaItem) :
    (expandAttribute (total t) inner item).map Option.isSome = cfgHolds (total t) item := by
  cases item with
  | cfg predicate =>
      simp only [expandAttribute, cfgHolds, total]
      cases t predicate <;> rfl
  | cfgAttr condition entries =>
      by_cases hselects : anySelectsSource entries = true
      · have hentries := expandEntries_isSome entries
        simp only [expandAttribute, hselects, if_true, cfgHolds, ← hentries]
        simp only [total]
        cases t condition <;> rfl
      · -- rustc is left with it, and nothing in it discards the statement.
        have hselects : selectsSource (.cfgAttr condition entries) = false := by
          simpa [selectsSource] using hselects
        rw [cfgHolds_of_not_selects t _ hselects]
        simp only [selectsSource] at hselects
        simp [expandAttribute, hselects]
  | other tokens => rfl

theorem expandEntries_isSome (entries : List MetaItem) :
    (expandEntries (total t) entries).map Option.isSome = cfgAllHold (total t) entries := by
  cases entries with
  | nil => rfl
  | cons entry rest =>
      have hfollowed := followed_isSome (expandAttribute (total t) false entry)
        (expandEntries (total t) rest)
      rw [expandAttribute_isSome false entry, expandEntries_isSome rest] at hfollowed
      exact hfollowed

end

theorem expandAttributes_isSome (attrs : List Attribute) :
    (expandAttributes (total t) attrs).map Option.isSome =
      cfgAllHold (total t) (attrs.map Attribute.content) := by
  induction attrs with
  | nil => rfl
  | cons first rest ih =>
      have hfollowed := followed_isSome (expandAttribute (total t) first.inner first.content)
        (expandAttributes (total t) rest)
      rw [expandAttribute_isSome t first.inner, ih] at hfollowed
      exact hfollowed

mutual

theorem cfgHolds_total (item : MetaItem) : (cfgHolds (total t) item).isSome := by
  cases item with
  | cfg predicate => rfl
  | cfgAttr condition entries =>
      have hentries := cfgAllHold_total entries
      simp only [cfgHolds]
      simp only [total] at hentries ⊢
      cases t condition with
      | false => rfl
      | true => exact hentries
  | other tokens => rfl

theorem cfgAllHold_total (entries : List MetaItem) : (cfgAllHold (total t) entries).isSome := by
  cases entries with
  | nil => rfl
  | cons entry rest =>
      have hentry := cfgHolds_total entry
      simp only [cfgAllHold]
      cases hholds : cfgHolds (total t) entry with
      | none => simp [hholds] at hentry
      | some holds =>
          cases holds with
          | false => rfl
          | true => exact cfgAllHold_total rest

end

theorem expandHeader_total (label : Label) : (expandHeader (total t) label).isSome := by
  simp only [expandHeader]
  split
  · have hattributes := cfgAllHold_total t (label.attrs.map Attribute.content)
    rw [← expandAttributes_isSome] at hattributes
    simpa using hattributes
  · rfl

theorem expandContents_total {label : Label} {children : List Node}
    {statements all : Option (List Node)} (hstatements : statements.isSome) (hall : all.isSome) :
    (expandContents label children statements all).isSome := by
  simp only [expandContents]
  split
  · rfl
  · simpa using hstatements
  · simpa using hall

mutual

theorem expand_total (node : Node) : (expand (total t) node).isSome := by
  cases node with
  | node label children =>
      exact expandContents_total (expandStatements_total children) (expandAll_total children)

theorem expandAll_total (nodes : List Node) : (expandAll (total t) nodes).isSome := by
  cases nodes with
  | nil => rfl
  | cons node rest =>
      rcases Option.isSome_iff_exists.1 (expand_total node) with ⟨node', hnode⟩
      simpa [expandAll, hnode] using expandAll_total rest

theorem expandStatements_total (nodes : List Node) :
    (expandStatements (total t) nodes).isSome := by
  cases nodes with
  | nil => rfl
  | cons node rest =>
      cases node with
      | node label children =>
          rcases Option.isSome_iff_exists.1 (expandHeader_total t label) with ⟨outcome, houtcome⟩
          have hrest := expandStatements_total rest
          cases outcome with
          | none => simpa [expandStatements, houtcome] using hrest
          | some other =>
              rcases Option.isSome_iff_exists.1 (@expandContents_total other children _ _
                (expandStatements_total children) (expandAll_total children)) with ⟨node', hnode⟩
              simpa [expandStatements, houtcome, hnode] using hrest

end

end Total

/-! ## Both passes together -/

theorem visit_fields (body : Node) :
    ((visit body (.new none)).2.fields.map Field.selector =
      List.range (visit body (.new none)).2.fields.length) ∧
    ∀ active, (visit body (.new active)).2.fields = (visit body (.new none)).2.fields := by
  refine ⟨?_, ?_⟩
  · rcases visit_agrees (fun _ => none) body (.new none) with ⟨fields, hemits, _⟩
    have hfields : (visit body (.new none)).2.fields = fields := hemits.fields_eq
    rw [hfields, hemits.selectors, List.range_eq_range']
    rfl
  · intro active
    have hactive : (visit body (.new active)).2 = (visit body (.new none)).2.withActive active :=
      visit_active active body (.new none)
    rw [hactive]
    rfl

/-- Selecting in two passes is what rustc does, whatever the predicates are, malformed ones
included, where rustc can read the fields of the helper struct. -/
theorem configure_eq_expand (truth : String → Option Bool) (body : Node)
    (hparses : ∀ field ∈ (visit body (.new none)).2.fields, field.parses = true) :
    configure truth body = expand truth body := by
  simp only [configure, select]
  split
  · rename_i hselect
    split at hselect
    · rename_i hempty
      -- Without fields the first pass has changed nothing.
      rcases visit_agrees truth body (.new none) with ⟨fields, hemits, _, htracks⟩
      have hfields : fields = [] := by
        rw [List.isEmpty_iff, hemits.fields_eq] at hempty
        exact hempty
      subst hfields
      have hselected := htracks.selected rfl (by intro field hfield; cases hfield)
      rw [hselected, visit_unchanged body (.new none) hemits.next]
    · cases hselect
  · rename_i fields hselect
    split at hselect
    · cases hselect
    · have hsame : fields = (visit body (.new none)).2.fields := (Option.some.inj hselect).symm
      have hnodup : (fields.map Field.selector).Nodup := by
        rw [hsame, (visit_fields body).1]
        exact List.nodup_range
      cases hkept : keepFields truth fields with
      | none =>
          rcases keepFields_eq_none (hsame ▸ hparses) hkept with ⟨field, hfield, hnone⟩
          rcases visit_agrees truth body (.new none) with ⟨emitted, hemits, _, htracks⟩
          have hemitted : fields = emitted := hsame.trans hemits.fields_eq
          cases hexpand : expand truth body with
          | none => rfl
          | some expanded =>
              exact absurd hnone
                (htracks.diagnosed rfl (by simp [hexpand]) field (hemitted ▸ hfield))
      | some active =>
          rcases visit_agrees truth body (.new (some active)) with ⟨emitted, hemits, _, htracks⟩
          have hemitted : fields = emitted :=
            calc
              fields = (visit body (.new none)).2.fields := hsame
              _ = (visit body (.new (some active))).2.fields := ((visit_fields body).2 _).symm
              _ = emitted := hemits.fields_eq
          have hselected := htracks.selected rfl (hemitted ▸ keepFields_consistent hnodup (hsame ▸ hparses) hkept)
          exact hselected.symm

/-- A field that rustc cannot read stops the selection. -/
theorem configure_unparsed (truth : String → Option Bool) {body : Node} {field : Field}
    (hmem : field ∈ (visit body (.new none)).2.fields) (h : field.parses = false) :
    configure truth body = none := by
  simp only [configure, select]
  split
  · rename_i hselect
    split at hselect
    · rename_i hempty
      simp [List.isEmpty_iff.1 hempty] at hmem
    · cases hselect
  · rename_i fields hselect
    split at hselect
    · cases hselect
    · cases hselect
      rw [keepFields_unparsed hmem h]
      rfl

end Configuration
end Systasis
