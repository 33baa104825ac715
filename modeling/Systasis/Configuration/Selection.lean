import Systasis.Syntax

/-!
# Selection — numbering the conditional statements of a function

Model of `systasis-macros/src/configuration.rs`.  A first pass gives a helper struct one field for
each `cfg` and each selecting `cfg_attr` of a statement, rustc keeps the fields whose attributes
hold, and a second pass over the same source drops the statements whose fields are gone.
-/

namespace Systasis
namespace Configuration

open Syntax

/-! ## Attributes that select source -/

mutual

/-- `selects_source`; the condition of a `cfg_attr` is not looked at. -/
def selectsSource : MetaItem → Bool
  | .cfg _ => true
  | .cfgAttr _ entries => anySelectsSource entries
  | .other _ => false

def anySelectsSource : List MetaItem → Bool
  | [] => false
  | entry :: rest => selectsSource entry || anySelectsSource rest

end

mutual

/-- `selection_meta`, which copies the configuration predicates and nothing else.
`cfg_attr_arguments` is applied to attributes that select source only, and these have parsed. -/
def selectionMeta : MetaItem → Option MetaItem
  | .cfg predicate => some (.cfg predicate)
  | .cfgAttr condition entries =>
      if anySelectsSource entries then some (.cfgAttr condition (selectionMetas entries)) else none
  | .other _ => none

def selectionMetas : List MetaItem → List MetaItem
  | [] => []
  | entry :: rest => (selectionMeta entry).toList ++ selectionMetas rest

end

/-! ## The pass -/

/-- The field `selected_n` of the helper struct, with its attributes. -/
structure Field where
  attributes : List Attribute
  selector : Nat

/-- `active` is absent in the first pass and lists the fields rustc kept in the second. -/
structure Selection where
  next : Nat
  fields : List Field
  active : Option (List Nat)
  gates : List Attribute

namespace Selection

def new (active : Option (List Nat)) : Selection := ⟨0, [], active, []⟩

/-- `active.is_none_or(|active| active.contains(selected_n))` -/
def isActive (active : Option (List Nat)) (selector : Nat) : Bool :=
  match active with
  | none => true
  | some selectors => selectors.contains selector

def condition (s : Selection) (attr : Attribute) : Bool × Selection :=
  (isActive s.active s.next,
    { s with next := s.next + 1, fields := s.fields ++ [⟨s.gates ++ [attr], s.next⟩] })

/-- `self.gates.extend(..)`, each gate as an outer attribute. -/
def extend (s : Selection) (gates : List MetaItem) : Selection :=
  { s with gates := s.gates ++ gates.map fun gate => ⟨false, gate⟩ }

def truncate (s : Selection) (before : Nat) : Selection :=
  { s with gates := s.gates.take before }

end Selection

mutual

/-- One round of the loop of `attributes`: whether the statement stays and what becomes of the
attribute.  Its gate is left for the attributes after it. -/
def attributeRound (inner : Bool) : MetaItem → Selection → (Bool × List Attribute) × Selection
  | .cfg predicate, s =>
      -- The field gets the gates before this attribute, and the attribute.
      let (holds, s) := s.condition ⟨inner, .cfg predicate⟩
      ((holds, []), s.extend [.cfg predicate])
  | .cfgAttr condition entries, s =>
      if anySelectsSource entries then
        let (enabled, s) := s.condition ⟨false, .cfg condition⟩
        let before := s.gates.length
        -- The entries are outer attributes under the gate of the condition.
        let ((present, expanded), s) := attributeRounds entries (s.extend [.cfg condition])
        let s := s.truncate before
        ((!enabled || present, if enabled then expanded else []),
          s.extend [.cfgAttr condition (selectionMetas entries)])
      else ((true, [⟨inner, .cfgAttr condition entries⟩]), s)
  | .other tokens, s => ((true, [⟨inner, .other tokens⟩]), s)

def attributeRounds : List MetaItem → Selection → (Bool × List Attribute) × Selection
  | [], s => ((true, []), s)
  | entry :: rest, s =>
      let ((present, output), s) := attributeRound false entry s
      let ((presents, outputs), s) := attributeRounds rest s
      ((present && presents, output ++ outputs), s)

end

/-- The loop of `attributes`. -/
def attributesLoop : List Attribute → Selection → (Bool × List Attribute) × Selection
  | [], s => ((true, []), s)
  | first :: rest, s =>
      let ((present, output), s) := attributeRound first.inner first.content s
      let ((presents, outputs), s) := attributesLoop rest s
      ((present && presents, output ++ outputs), s)

/-- `Selection::attributes` -/
def attributes (attrs : List Attribute) (s : Selection) : (Bool × List Attribute) × Selection :=
  let before := s.gates.length
  let (result, s) := attributesLoop attrs s
  (result, s.truncate before)

/-- The attributes `visit_block_mut` takes from a statement. -/
def takesAttributes : Form → Bool
  | .itemStmt _ | .verbatim _ => false
  | _ => true

/-- Conditional expressions, arms and field values are left to rustc. -/
def conditional (label : Label) : Bool :=
  match label.form with
  | .localStmt _ | .macroStmt _ | .block | .branch | .forBody _ | .type _ | .typePath _
  | .typeInvocation _ | .itemStmt _ | .verbatim _ => false
  | _ => label.attrs.any fun attr => selectsSource attr.content

/-- What a visit looks at below a node. -/
inductive Below where
  | nothing
  | statements
  | children

def below (label : Label) : Below :=
  match label.form with
  | .itemStmt _ => .nothing
  | .block => .statements
  | _ => if conditional label then .nothing else .children

/-- What becomes of a node, given the visits of its children as statements and as nodes. -/
def contents (label : Label) (children : List Node)
    (statements all : Selection → List Node × Selection) (s : Selection) : Node × Selection :=
  match below label with
  | .nothing => (.node label children, s)
  | .statements =>
      let (children, s) := statements s
      (.node label children, s)
  | .children =>
      let (children, s) := all s
      (.node label children, s)

/-- The attributes of a statement: whether it stays, and with which of them. -/
def header (label : Label) (s : Selection) : Bool × Label × Selection :=
  if takesAttributes label.form then
    let gates := selectionMetas (label.attrs.map Attribute.content)
    let ((present, expanded), s) := attributes label.attrs s
    (present, { label with attrs := expanded }, s.extend gates)
  else (true, label, s)

mutual

def visit : Node → Selection → Node × Selection
  | .node label children, s =>
      contents label children (visitStatements children) (visitAll children) s

def visitAll : List Node → Selection → List Node × Selection
  | [], s => ([], s)
  | node :: rest, s =>
      let (node, s) := visit node s
      let (rest, s) := visitAll rest s
      (node :: rest, s)

/-- `visit_block_mut`: both passes visit the statements that are dropped. -/
def visitStatements : List Node → Selection → List Node × Selection
  | [], s => ([], s)
  | .node label children :: rest, s =>
      let before := s.gates.length
      let (present, label, s) := header label s
      -- Also below a statement that goes, so that both passes number alike.
      let (node, s) := contents label children (visitStatements children) (visitAll children) s
      let (rest, s) := visitStatements rest (s.truncate before)
      (if present then node :: rest else rest, s)

end

/-! ## The two passes and rustc between them -/

/-- The fields of the helper struct; without any, the function is used as it is. -/
def select (body : Node) : Option (List Field) :=
  let fields := (visit body (.new none)).2.fields
  if fields.isEmpty then none else some fields

def resume (active : List Nat) (body : Node) : Node :=
  (visit body (.new (some active))).1

section Rustc

-- The truth of each predicate; `none` for one rustc diagnoses as malformed.
variable (truth : String → Option Bool)

mutual

/-- Whether an attribute lets its owner stay. -/
def cfgHolds : MetaItem → Option Bool
  | .cfg predicate => truth predicate
  | .cfgAttr condition entries =>
      match truth condition with
      | some true => cfgAllHold entries
      | some false => some true
      | none => none
  | .other _ => some true

/-- In order; what follows a predicate that is false is not looked at. -/
def cfgAllHold : List MetaItem → Option Bool
  | [] => some true
  | item :: rest =>
      match cfgHolds item with
      | some true => cfgAllHold rest
      | some false => some false
      | none => none

end

/-- A field of a struct is parsed with outer attributes only. -/
def Field.parses (field : Field) : Bool :=
  field.attributes.all fun attr => !attr.inner

/-- The fields rustc hands to the derive, if it can read the struct and its predicates. -/
def keepFields : List Field → Option (List Nat)
  | [] => some []
  | field :: rest =>
      if field.parses then
        match cfgAllHold truth (field.attributes.map Attribute.content), keepFields rest with
        | some true, some kept => some (field.selector :: kept)
        | some false, some kept => some kept
        | _, _ => none
      else none

/-- `select`, rustc and `resume` in turn. -/
def configure (body : Node) : Option Node :=
  match select body with
  | none => some body
  | some fields => (keepFields truth fields).map fun active => resume active body

end Rustc

end Configuration
end Systasis
