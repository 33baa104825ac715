import Mathlib.Data.List.Forall2
import Systasis.Types.Tree

/-!
# Spelling — the tokens of a type, and types up to grouping

`generic_policy.rs` compares types by their tokens after the grouping nodes are gone.  A spelling
here is the list of those tokens.
-/

namespace Systasis
namespace Types

open Syntax (Ident)

/-! ## Tokens -/

/-- `ident.to_string()` -/
def spelled (ident : Ident) : String :=
  if ident.raw then "r#" ++ ident.name else ident.name

def spelledLifetime (name : Ident) : String :=
  "'" ++ spelled name

def separated (separator : String) : List (List String) → List String
  | [] => []
  | [ts] => ts
  | ts :: rest => ts ++ separator :: separated separator rest

/-- A colon and the bounds after it. -/
def bounded (bounds : List (List String)) : List String :=
  if bounds.isEmpty then [] else ":" :: separated "+" bounds

/-- The parts of a node: what each child is, and its tokens. -/
abbrev Parts : Type := List (Form × List String)

def Parts.tokens (parts : Parts) : List (List String) :=
  parts.map Prod.snd

/-- Arguments up to the closing parenthesis, and the output after it. -/
def signature : Parts → List String
  | [] => [")"]
  | (.output, ts) :: rest => ")" :: ts ++ (Parts.tokens rest).flatten
  | [(_, ts)] => ts ++ [")"]
  | (_, ts) :: (.output, ts') :: rest => ts ++ ")" :: ts' ++ (Parts.tokens rest).flatten
  | (_, ts) :: rest => ts ++ "," :: signature rest

/-- `<ty as first::segments>::rest` -/
def qualified (position : Nat) (colon : List String) (self : List String)
    (segments : List (List String)) : List String :=
  if position = 0 then
    self ++ ">" :: colon ++ separated "::" segments
  else
    self ++ "as" :: colon ++ separated "::" (segments.take position) ++
      ">" :: "::" :: separated "::" (segments.drop position)

/-- The tokens of an expression around the nodes in it. -/
def interleaved : List String → List (List String) → List String
  | piece :: pieces, ts :: rest => piece :: ts ++ interleaved pieces rest
  | pieces, [] => pieces
  | [], rest => rest.flatten

/-- What a node writes around the tokens of its children. -/
@[grind =]
def Form.tokens (parts : Parts) : Form → List String
  | .lifetime name => spelledLifetime name :: parts.tokens.flatten
  | .binder => "for" :: "<" :: separated "," parts.tokens ++ [">"]
  | .lifetimeParam name => spelledLifetime name :: bounded parts.tokens
  | .typeParam ident => spelled ident :: bounded parts.tokens
  | .constParam ident => "const" :: spelled ident :: ":" :: parts.tokens.flatten
  | .reference written mutable =>
      "&" :: written.toList.map spelledLifetime ++ (if mutable then ["mut"] else []) ++
        parts.tokens.flatten
  | .fnPtr qualifiers =>
      match parts with
      | (.binder, ts) :: rest => ts ++ qualifiers ++ "fn" :: "(" :: signature rest
      | parts => qualifiers ++ "fn" :: "(" :: signature parts
  | .fnArg name => name.toList.flatMap (fun name => [spelled name, ":"]) ++ parts.tokens.flatten
  | .output => "->" :: parts.tokens.flatten
  | .traitBound parens modifiers =>
      let bound := modifiers ++ parts.tokens.flatten
      if parens then "(" :: bound ++ [")"] else bound
  | .path _ leadingColon =>
      let colon := if leadingColon then ["::"] else []
      match parts with
      | (.qself position, ts) :: rest => qualified position colon ts (Parts.tokens rest)
      | parts => colon ++ separated "::" (Parts.tokens parts)
  | .qself _ => "<" :: parts.tokens.flatten
  | .segment ident => spelled ident :: parts.tokens.flatten
  | .angle turbofish =>
      (if turbofish then ["::"] else []) ++ "<" :: separated "," parts.tokens ++ [">"]
  | .parenthesized => "(" :: signature parts
  | .assoc ident => spelled ident :: separated "=" ([] :: parts.tokens)
  | .constraint ident => spelled ident :: ":" :: separated "+" parts.tokens
  | .paren => "(" :: parts.tokens.flatten ++ [")"]
  | .group => parts.tokens.flatten
  | .tuple =>
      match parts with
      | [(_, ts)] => "(" :: ts ++ [",", ")"]
      | parts => "(" :: separated "," (Parts.tokens parts) ++ [")"]
  | .slice | .array => "[" :: separated ";" parts.tokens ++ ["]"]
  | .ptr mutable => "*" :: (if mutable then "mut" else "const") :: parts.tokens.flatten
  | .never => "!" :: parts.tokens.flatten
  | .infer => "_" :: parts.tokens.flatten
  | .traitObject dyn => (if dyn then ["dyn"] else []) ++ separated "+" parts.tokens
  | .implTrait => "impl" :: separated "+" parts.tokens
  | .invocation text => parts.tokens.flatten ++ ["!", text]
  | .verbatim text => text :: parts.tokens.flatten
  | .expr pieces => interleaved pieces parts.tokens

mutual

/-- `to_token_stream()` -/
def tokens : Node → List String
  | .node form cs => form.tokens (tokensAll cs)

def tokensAll : List Node → Parts
  | [] => []
  | c :: cs => (c.label, tokens c) :: tokensAll cs

end

attribute [grind =] tokens tokensAll

/-! ## Grouping -/

mutual

/-- `Ungroup::visit_type_mut` -/
def ungroup : Node → Node
  | .node form cs =>
      match form, cs with
      | .paren, [elem] | .group, [elem] => ungroup elem
      | form, cs => .node form (ungroupAll cs)

def ungroupAll : List Node → List Node
  | [] => []
  | c :: cs => ungroup c :: ungroupAll cs

end

attribute [grind =] ungroup ungroupAll

def ungroupedTypeSpelling (ty : Node) : List String :=
  tokens (ungroup ty)

/-- Grouping nodes inserted or removed around types, anywhere in a tree. -/
inductive Regroups : Node → Node → Prop
  | refl (t : Node) : Regroups t t
  | symm {t t' : Node} : Regroups t t' → Regroups t' t
  | trans {t t' t'' : Node} : Regroups t t' → Regroups t' t'' → Regroups t t''
  | paren {t : Node} : t.label.isType = true → Regroups t (.node .paren [t])
  | group {t : Node} : t.label.isType = true → Regroups t (.node .group [t])
  | child {form : Form} {front back : List Node} {c c' : Node} : Regroups c c' →
      Regroups (.node form (front ++ c :: back)) (.node form (front ++ c' :: back))

theorem Regroups.first {form : Form} {back : List Node} {c c' : Node} (h : Regroups c c') :
    Regroups (.node form (c :: back)) (.node form (c' :: back)) :=
  @Regroups.child form [] back c c' h

/-! ## Spellings up to grouping -/

@[simp]
theorem tokensAll_eq (cs : List Node) : tokensAll cs = cs.map fun c => (c.label, tokens c) := by
  induction cs with
  | nil => rfl
  | cons c cs ih => rw [tokensAll, ih, List.map_cons]

@[simp]
theorem ungroupAll_eq (cs : List Node) : ungroupAll cs = cs.map ungroup := by
  induction cs with
  | nil => rfl
  | cons c cs ih => rw [ungroupAll, ih, List.map_cons]

/-- A grouping node goes away with the type it groups. -/
def Form.groups : Form → Bool
  | .paren | .group => true
  | _ => false

theorem ungroup_grouping {form : Form} (h : form.groups = true) (elem : Node) :
    ungroup (.node form [elem]) = ungroup elem := by
  cases form with
  | paren => rfl
  | group => rfl
  | _ => cases h

theorem ungroup_node {form : Form} {cs : List Node} (h : form.groups = false ∨ cs.length ≠ 1) :
    ungroup (.node form cs) = .node form (cs.map ungroup) := by
  rw [ungroup]
  · rw [ungroupAll_eq]
  · rintro elem rfl rfl
    simp [Form.groups] at h
  · rintro elem rfl rfl
    simp [Form.groups] at h

theorem ungroup_congr (form : Form) {cs cs' : List Node} (h : cs.map ungroup = cs'.map ungroup) :
    ungroup (.node form cs) = ungroup (.node form cs') := by
  have hlength : cs.length = cs'.length := by simpa using congrArg List.length h
  by_cases hplain : form.groups = false ∨ cs.length ≠ 1
  · rw [ungroup_node hplain, ungroup_node (hlength ▸ hplain), h]
  · push Not at hplain
    have hgroups : form.groups = true := by simpa using hplain.1
    rcases List.length_eq_one_iff.1 hplain.2 with ⟨elem, rfl⟩
    rcases List.length_eq_one_iff.1 (hlength.symm.trans hplain.2) with ⟨elem', rfl⟩
    rw [ungroup_grouping hgroups, ungroup_grouping hgroups]
    exact List.head_eq_of_cons_eq h

/-- Grouping does not show in what is left without it. -/
theorem Regroups.ungroup_eq {t t' : Node} (h : Regroups t t') : ungroup t = ungroup t' := by
  induction h with
  | refl t => rfl
  | symm _ ih => exact ih.symm
  | trans _ _ ih ih' => exact ih.trans ih'
  | paren _ => rfl
  | group _ => rfl
  | @child form front back c c' _ ih =>
      apply ungroup_congr
      rw [List.map_append, List.map_append, List.map_cons, List.map_cons, ih]

theorem Regroups.spelling_eq {t t' : Node} (h : Regroups t t') :
    ungroupedTypeSpelling t = ungroupedTypeSpelling t' := by
  rw [ungroupedTypeSpelling, ungroupedTypeSpelling, h.ungroup_eq]

/-! ## The nodes under the grouping -/

/-- The type under the outermost grouping nodes. -/
def strip : Node → Node
  | .node form cs =>
      match form, cs with
      | .paren, [elem] | .group, [elem] => strip elem
      | form, cs => .node form cs

/-- A grouping node cannot stand around anything but a type, so that regrouping keeps what is not
one, and the type under the outermost grouping nodes keeps its form. -/
theorem Regroups.isType {t t' : Node} (h : Regroups t t') :
    t.label.isType = t'.label.isType := by
  induction h with
  | refl t => rfl
  | symm _ ih => exact ih.symm
  | trans _ _ ih ih' => exact ih.trans ih'
  | paren htype => exact htype
  | group htype => exact htype
  | child _ _ => rfl

theorem strip_grouping {form : Form} (h : form.groups = true) (elem : Node) :
    strip (.node form [elem]) = strip elem := by
  cases form with
  | paren => rfl
  | group => rfl
  | _ => cases h

theorem strip_node {form : Form} {cs : List Node} (h : form.groups = false ∨ cs.length ≠ 1) :
    strip (.node form cs) = .node form cs := by
  rw [strip]
  · rintro elem rfl rfl
    simp [Form.groups] at h
  · rintro elem rfl rfl
    simp [Form.groups] at h

theorem regroups_same (cs : List Node) : List.Forall₂ Regroups cs cs :=
  List.forall₂_same.2 fun t _ => .refl t

theorem regroups_child {front back : List Node} {c c' : Node} (h : Regroups c c') :
    List.Forall₂ Regroups (front ++ c :: back) (front ++ c' :: back) := by
  exact List.rel_append (regroups_same front) (.cons h (regroups_same back))

theorem regroups_trans {cs cs' cs'' : List Node} (h : List.Forall₂ Regroups cs cs')
    (h' : List.Forall₂ Regroups cs' cs'') : List.Forall₂ Regroups cs cs'' := by
  induction h generalizing cs'' with
  | nil => exact h'
  | cons hhead _ ih =>
      cases h' with
      | cons hhead' htail' => exact .cons (hhead.trans hhead') (ih htail')

/-- Regrouping keeps the form under the outermost grouping nodes, and regroups the children. -/
theorem Regroups.strip {t t' : Node} (h : Regroups t t') :
    (strip t).label = (Types.strip t').label ∧
      List.Forall₂ Regroups (Types.strip t).children (Types.strip t').children := by
  induction h with
  | refl t => exact ⟨rfl, regroups_same _⟩
  | symm _ ih => exact ⟨ih.1.symm, (ih.2.imp fun _ _ h => h.symm).flip⟩
  | trans _ _ ih ih' => exact ⟨ih.1.trans ih'.1, regroups_trans ih.2 ih'.2⟩
  | paren _ => exact ⟨rfl, regroups_same _⟩
  | group _ => exact ⟨rfl, regroups_same _⟩
  | @child form front back c c' hc ih =>
      by_cases hplain : form.groups = false ∨ (front ++ c :: back).length ≠ 1
      · have hplain' : form.groups = false ∨ (front ++ c' :: back).length ≠ 1 := by
          simpa using hplain
        rw [strip_node hplain, strip_node hplain']
        exact ⟨rfl, regroups_child hc⟩
      · push Not at hplain
        have hgroups : form.groups = true := by simpa using hplain.1
        have hempty : front = [] ∧ back = [] := by
          have hlength := hplain.2
          simp only [List.length_append, List.length_cons] at hlength
          exact ⟨List.length_eq_zero_iff.1 (by omega), List.length_eq_zero_iff.1 (by omega)⟩
        rcases hempty with ⟨rfl, rfl⟩
        rw [List.nil_append, List.nil_append, strip_grouping hgroups, strip_grouping hgroups]
        exact ih

/-! ## Longer spellings -/

theorem separated_length (separator : String) (ts : List (List String)) :
    ts.flatten.length ≤ (separated separator ts).length := by
  induction ts using separated.induct with
  | case1 => exact Nat.le_refl _
  | case2 ts => simp [separated]
  | case3 ts rest _ ih =>
      simp only [separated, List.flatten_cons, List.length_append, List.length_cons]
      omega

theorem signature_length (parts : Parts) :
    parts.tokens.flatten.length ≤ (signature parts).length := by
  induction parts using signature.induct with
  | case1 => simp [Parts.tokens]
  | case2 ts rest =>
      simp only [signature, Parts.tokens, List.map_cons, List.flatten_cons, List.length_append,
        List.length_cons]
      omega
  | case3 form ts => simp [signature, Parts.tokens]
  | case4 form ts ts' rest =>
      simp only [signature, Parts.tokens, List.map_cons, List.flatten_cons, List.length_append,
        List.length_cons]
      omega
  | case5 form ts rest houtput hone hnext ih =>
      rw [signature]
      · simp only [Parts.tokens, List.map_cons, List.flatten_cons, List.length_append,
          List.length_cons] at ih ⊢
        omega
      all_goals assumption

theorem bounded_length (ts : List (List String)) :
    ts.flatten.length ≤ (bounded ts).length := by
  have hlength := separated_length "+" ts
  cases ts with
  | nil => exact Nat.le_refl _
  | cons ts rest =>
      simp only [bounded, List.isEmpty_cons, Bool.false_eq_true, if_false, List.length_cons]
      omega

theorem qualified_length (position : Nat) (colon self : List String)
    (segments : List (List String)) :
    self.length + segments.flatten.length ≤ (qualified position colon self segments).length := by
  rw [qualified]
  split
  · have hlength := separated_length "::" segments
    simp only [List.length_append, List.length_cons]
    omega
  · have htake := separated_length "::" (segments.take position)
    have hdrop := separated_length "::" (segments.drop position)
    have hsplit : segments.flatten.length =
        (segments.take position).flatten.length + (segments.drop position).flatten.length := by
      rw [← List.length_append, ← List.flatten_append, List.take_append_drop]
    simp only [List.length_append, List.length_cons]
    omega

theorem interleaved_length (pieces : List String) (ts : List (List String)) :
    ts.flatten.length ≤ (interleaved pieces ts).length := by
  induction pieces, ts using interleaved.induct with
  | case1 piece pieces ts rest ih =>
      simp only [interleaved, List.flatten_cons, List.length_append, List.length_cons]
      omega
  | case2 pieces => simp
  | case3 rest hne =>
      cases rest with
      | nil => exact absurd rfl hne
      | cons ts rest => exact Nat.le_refl _

/-- The forms that write nothing of their own around some children. -/
def Form.silent : Form → Bool
  | .fnArg _ | .traitBound _ _ | .path _ _ | .group | .traitObject _ | .expr _ => true
  | _ => false

theorem fnPtr_length (qualifiers : List String) (parts : Parts) :
    parts.tokens.flatten.length < ((Form.fnPtr qualifiers).tokens parts).length := by
  have hplain := signature_length parts
  simp only [Form.tokens]
  split
  · rename_i ts rest
    have hsignature := signature_length rest
    simp only [Parts.tokens, List.map_cons, List.flatten_cons, List.length_append,
      List.length_cons] at hsignature ⊢
    omega
  · simp only [List.length_append, List.length_cons]
    omega

theorem path_length (role : Role) (leadingColon : Bool) (parts : Parts) :
    parts.tokens.flatten.length ≤ ((Form.path role leadingColon).tokens parts).length := by
  simp only [Form.tokens]
  split
  · rename_i position ts rest
    have hlength := qualified_length position (if leadingColon then ["::"] else []) ts
      (Parts.tokens rest)
    simp only [Parts.tokens, List.map_cons, List.flatten_cons, List.length_append] at hlength ⊢
    exact hlength
  · have hlength := separated_length "::" parts.tokens
    simp only [List.length_append]
    omega

theorem tuple_length (parts : Parts) :
    parts.tokens.flatten.length < (Form.tuple.tokens parts).length := by
  simp only [Form.tokens]
  split
  · simp only [Parts.tokens, List.map_cons, List.map_nil, List.flatten_cons, List.flatten_nil,
      List.length_append, List.length_cons, List.length_nil]
    omega
  · have hlength := separated_length "," parts.tokens
    simp only [List.length_append, List.length_cons]
    omega

/-- A node writes what its children write, and most write something of their own. -/
theorem Form.tokens_length (form : Form) (parts : Parts) :
    parts.tokens.flatten.length ≤ (form.tokens parts).length ∧
      (form.silent = false → parts.tokens.flatten.length < (form.tokens parts).length) := by
  have hseparated := fun separator => separated_length separator parts.tokens
  have hsignature := signature_length parts
  have hbounded := bounded_length parts.tokens
  cases form with
  | fnPtr qualifiers =>
      exact ⟨Nat.le_of_lt (fnPtr_length qualifiers parts), fun _ => fnPtr_length qualifiers parts⟩
  | path role leadingColon => exact ⟨path_length role leadingColon parts, nofun⟩
  | tuple => exact ⟨Nat.le_of_lt (tuple_length parts), fun _ => tuple_length parts⟩
  | expr pieces => exact ⟨interleaved_length pieces parts.tokens, nofun⟩
  | traitBound parens modifiers =>
      refine ⟨?_, nofun⟩
      simp only [Form.tokens]
      split <;> simp only [List.length_append, List.length_cons] <;> omega
  | group => exact ⟨Nat.le_refl _, nofun⟩
  | traitObject dyn =>
      have hlength := hseparated "+"
      refine ⟨?_, nofun⟩
      simp only [Form.tokens, List.length_append]
      omega
  | fnArg name =>
      refine ⟨?_, nofun⟩
      simp only [Form.tokens, List.length_append]
      omega
  | assoc ident =>
      have hlength := separated_length "=" ([] :: parts.tokens)
      simp only [List.flatten_cons, List.nil_append] at hlength
      simp only [Form.tokens, List.length_cons]
      omega
  | _ =>
      have hcomma := hseparated ","
      have hplus := hseparated "+"
      have hsemicolon := hseparated ";"
      simp only [Form.tokens, List.length_append, List.length_cons]
      exact ⟨by omega, fun _ => by omega⟩

/-- A tree at any depth inside another. -/
inductive Inside (t : Node) : Node → Prop
  | refl : Inside t t
  | child {form : Form} {cs : List Node} {c : Node} : c ∈ cs → Inside t c →
      Inside t (.node form cs)

theorem length_le_flatten {ts : List String} {tss : List (List String)} (h : ts ∈ tss) :
    ts.length ≤ tss.flatten.length := by
  rcases List.append_of_mem h with ⟨front, back, rfl⟩
  simp only [List.flatten_append, List.flatten_cons, List.length_append]
  omega

theorem tokens_child {form : Form} {cs : List Node} {c : Node} (hc : c ∈ cs) :
    (tokens c).length ≤ (tokens (.node form cs)).length ∧
      (form.silent = false → (tokens c).length < (tokens (.node form cs)).length) := by
  rw [tokens, tokensAll_eq]
  have hlength := Form.tokens_length form (cs.map fun c => (c.label, tokens c))
  have hmem : tokens c ∈ Parts.tokens (cs.map fun c => (c.label, tokens c)) := by
    rw [Parts.tokens, List.map_map]
    exact List.mem_map.2 ⟨c, hc, rfl⟩
  have hle := length_le_flatten hmem
  exact ⟨Nat.le_trans hle hlength.1, fun hown => Nat.lt_of_le_of_lt hle (hlength.2 hown)⟩

/-- Without its grouping, what stands inside a node is spelled no longer than the node. -/
theorem spelling_child {form : Form} {cs : List Node} {c : Node} (hc : c ∈ cs) :
    (ungroupedTypeSpelling c).length ≤ (ungroupedTypeSpelling (.node form cs)).length ∧
      (form.silent = false → form.groups = false →
        (ungroupedTypeSpelling c).length < (ungroupedTypeSpelling (.node form cs)).length) := by
  rw [ungroupedTypeSpelling, ungroupedTypeSpelling]
  by_cases hplain : form.groups = false ∨ cs.length ≠ 1
  · rw [ungroup_node hplain]
    have hmem : ungroup c ∈ cs.map ungroup := List.mem_map_of_mem hc
    rcases tokens_child hmem with ⟨hle, hlt⟩
    exact ⟨hle, fun hown _ => hlt hown⟩
  · push Not at hplain
    have hgroups : form.groups = true := by simpa using hplain.1
    rcases List.length_eq_one_iff.1 hplain.2 with ⟨elem, rfl⟩
    cases List.mem_singleton.1 hc
    rw [ungroup_grouping hgroups]
    exact ⟨Nat.le_refl _, fun _ hnot => absurd hnot hplain.1⟩

theorem Inside.spelling {t t' : Node} (h : Inside t t') :
    (ungroupedTypeSpelling t).length ≤ (ungroupedTypeSpelling t').length := by
  induction h with
  | refl => exact Nat.le_refl _
  | child hc _ ih => exact Nat.le_trans ih (spelling_child hc).1

/-- A type built around another: a path with it among its arguments, or a type former. -/
inductive Wraps (t : Node) : Node → Prop
  | argument {role : Role} {leadingColon : Bool} {cs arguments : List Node} {ident : Ident}
      {argument : Node} : .node (.segment ident) arguments ∈ cs → argument ∈ arguments →
      Inside t argument → Wraps t (.node (.path role leadingColon) cs)
  | former {form : Form} {cs : List Node} {c : Node} : form.silent = false →
      form.groups = false → c ∈ cs → Inside t c → Wraps t (.node form cs)

/-- A type is not spelled like one built around it. -/
theorem Wraps.spelling_ne {t t' : Node} (h : Wraps t t') :
    ungroupedTypeSpelling t ≠ ungroupedTypeSpelling t' := by
  have hlt : (ungroupedTypeSpelling t).length < (ungroupedTypeSpelling t').length := by
    cases h with
    | @argument role leadingColon cs arguments ident argument hsegment hargument hinside =>
        calc
          (ungroupedTypeSpelling t).length
              ≤ (ungroupedTypeSpelling argument).length := hinside.spelling
          _ < (ungroupedTypeSpelling (.node (.segment ident) arguments)).length :=
              (spelling_child hargument).2 rfl rfl
          _ ≤ _ := (spelling_child hsegment).1
    | former hown hplain hc hinside =>
        exact Nat.lt_of_le_of_lt hinside.spelling ((spelling_child hc).2 hown hplain)
  intro heq
  rw [heq] at hlt
  exact Nat.lt_irrefl _ hlt

end Types
end Systasis
