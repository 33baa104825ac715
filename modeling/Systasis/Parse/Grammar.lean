import Systasis.Lib.Parse
import Systasis.Scoped.Group

/-!
# Grammar — reading one registration

Model of the parsers of `Registration`, `InterfaceGroup` and `Namespace` in
`systasis-macros/src/parse.rs`.  `syn`'s parsers of expressions, types, closures and paths are
parameters; of the parser of paths it is used that it is local and where the keyword `as` can stand
in a path.  Groups without delimiters, which only other macros insert, are left out.
-/

namespace Systasis
namespace Parse

open Lib Scoped

/-! ## Tokens -/

/-- `proc_macro2::TokenTree` -/
inductive TokenTree where
  | ident (word : Word)
  | punct (char : Char) (joint : Bool)
  | literal (text : String)
  | group (delimiter : Delimiter) (stream : List TokenTree)

mutual

/-- A tree with its groups written out. -/
def TokenTree.flat : TokenTree → List Token
  | .ident word => [.ident word]
  | .punct char joint => [.punct char joint]
  | .literal text => [.literal text]
  | .group delimiter stream => .opening delimiter :: flatAll stream ++ [.closing delimiter]

def flatAll : List TokenTree → List Token
  | [] => []
  | tree :: trees => tree.flat ++ flatAll trees

end

theorem flatAll_append (front back : List TokenTree) :
    flatAll (front ++ back) = flatAll front ++ flatAll back := by
  induction front with
  | nil => rfl
  | cons tree front ih => simp [flatAll, ih]

/-- `Token![..]` of a keyword. -/
def isKeyword (keyword : String) : TokenTree → Bool
  | .ident word => !word.raw && word.name == keyword
  | _ => false

/-- `Token![..]` of a single character, whatever follows it. -/
def isPunct (char : Char) : TokenTree → Bool
  | .punct other _ => other == char
  | _ => false

/-- The words `Ident`'s parser refuses. -/
def keywords : List String :=
  ["_", "abstract", "as", "async", "await", "become", "box", "break", "const", "continue", "crate",
    "do", "dyn", "else", "enum", "extern", "false", "final", "fn", "for", "if", "impl", "in", "let",
    "loop", "macro", "match", "mod", "move", "mut", "override", "priv", "pub", "ref", "return",
    "Self", "self", "static", "struct", "super", "trait", "true", "try", "type", "typeof", "unsafe",
    "unsized", "use", "virtual", "where", "while", "yield"]

def reserved (word : Word) : Bool :=
  !word.raw && keywords.contains word.name

/-! ## Diagnostics -/

/-- What `syn`'s parsers report, by the token they expect, and the texts of this crate. -/
inductive Diagnostic where
  | expected (what : String)
  /-- A stream that goes on after what `parse2` reads. -/
  | unexpected
  | message (text : String)
  | combined (first second : String)
  deriving DecidableEq

abbrev Reader (α : Type) : Type := Parser TokenTree Diagnostic α

/-- `input.parse::<Token![..]>()` -/
def token (what : String) (is : TokenTree → Bool) : Reader Unit
  | [] => .error (.expected what)
  | t :: rest => if is t then .ok ((), rest) else .error (.expected what)

/-- `input.parse::<Option<Token![..]>>()` -/
def option (is : TokenTree → Bool) : List TokenTree → Bool × List TokenTree
  | [] => (false, [])
  | t :: rest => if is t then (true, rest) else (false, t :: rest)

/-- `Ident::parse` -/
def ident : Reader Word
  | .ident word :: rest => if reserved word then .error (.expected "identifier") else .ok (word, rest)
  | _ => .error (.expected "identifier")

theorem token_eq_ok {what : String} {is : TokenTree → Bool} {tokens rest : List TokenTree} {u : Unit} :
    token what is tokens = .ok (u, rest) ↔ ∃ t, is t = true ∧ tokens = t :: rest := by
  cases tokens with
  | nil => simp [token]
  | cons t tail =>
      by_cases ht : is t = true
      · simp [token, ht]
      · simp only [token, ht, Bool.false_eq_true, if_false, reduceCtorEq, List.cons.injEq, false_iff]
        rintro ⟨t', ht', rfl, _⟩
        exact ht ht'

theorem option_true {is : TokenTree → Bool} {tokens rest : List TokenTree} :
    option is tokens = (true, rest) ↔ ∃ t, is t = true ∧ tokens = t :: rest := by
  cases tokens with
  | nil => simp [option]
  | cons t tail =>
      by_cases ht : is t = true
      · simp [option, ht]
      · simp only [option, ht, Bool.false_eq_true, if_false, Prod.mk.injEq, false_and,
          List.cons.injEq, false_iff]
        rintro ⟨t', ht', rfl, _⟩
        exact ht ht'

theorem option_false {is : TokenTree → Bool} {tokens rest : List TokenTree} :
    option is tokens = (false, rest) ↔ tokens = rest ∧ ∀ t ∈ tokens.head?, is t = false := by
  cases tokens with
  | nil => simp [option]
  | cons t tail =>
      by_cases ht : is t = true
      · simp [option, ht]
      · simp [option, ht]

theorem ident_eq_ok {tokens rest : List TokenTree} {word : Word} :
    ident tokens = .ok (word, rest) ↔ reserved word = false ∧ tokens = .ident word :: rest := by
  cases tokens with
  | nil => simp [ident]
  | cons t tail =>
      cases t with
      | ident other =>
          by_cases hreserved : reserved other = true
          · simp only [ident, hreserved, if_true, reduceCtorEq, List.cons.injEq,
              TokenTree.ident.injEq, false_iff]
            rintro ⟨hword, rfl, _⟩
            cases hword.symm.trans hreserved
          · have hreserved' : reserved other = false := by simpa using hreserved
            simp only [ident, hreserved', Bool.false_eq_true, if_false, Except.ok.injEq,
              Prod.mk.injEq, List.cons.injEq, TokenTree.ident.injEq]
            constructor
            · rintro ⟨rfl, rfl⟩
              exact ⟨hreserved', rfl, rfl⟩
            · rintro ⟨_, rfl, rfl⟩
              exact ⟨rfl, rfl⟩
      | punct char joint => simp [ident]
      | literal text => simp [ident]
      | group delimiter stream => simp [ident]

/-! ## `syn`'s parsers -/

/-- What is asked of a closure. -/
structure Closure (C : Type) where
  noInputs : Bool
  asyncness : Bool
  explicitOutput : Bool
  source : C

structure Syn (E Ty C R : Type) where
  expr : Reader E
  type : Reader Ty
  closure : Reader (Closure C)
  path : Reader Path
  /-- A reference type, with whether it is `&mut`. -/
  reference : Reader (Bool × R)
  /-- `parse_quote!(())` -/
  unit : E
  /-- `parse_quote!(_)` -/
  infer : Ty

/-- The tokens that a path ends at. -/
def pathEnd (t : TokenTree) : Bool :=
  isPunct '+' t || isKeyword "in" t || isPunct ',' t

/-- `syn`'s grammar of paths.  The keyword `as` stands in a path only between angle brackets, as in
`I<<T as U>::V>`, and no path starts with `dyn`. -/
structure PathGrammar (path : Reader Path) : Prop where
  isLocal : Parser.Local path pathEnd
  tokens : ∀ {front : List TokenTree} {p : Path}, path front = .ok (p, []) →
    p.tokens = flatAll front
  inside : ∀ {before after : List TokenTree} {t : TokenTree} {p : Path},
    path (before ++ t :: after) = .ok (p, []) → isKeyword "as" t = true →
      ∃ brackets arrow, scan (flatAll before) .outside = some ⟨0, brackets + 1, arrow⟩
  leading : ∀ {t : TokenTree} {after : List TokenTree} {p : Path},
    path (t :: after) = .ok (p, []) → isKeyword "dyn" t = false

/-! ## Registrations -/

/-- `parse::Registration` -/
structure Registration (E Ty C : Type) where
  fresh : Bool
  constructor : Option (Closure C)
  fallible : Bool
  dynamic : Bool
  value : E
  ty : Ty
  inferValueType : Bool
  interface : List Path
  ns : Option Word

section Parsers

variable {E Ty C R : Type} (print : List Token → String) (syn : Syn E Ty C R)

/-- `Namespace::registration` -/
def namespaceRegistration (tokens : List TokenTree) :
    Except Diagnostic (Option Word × List TokenTree) :=
  match option (isKeyword "in") tokens with
  | (true, rest) => do
      let (name, rest) ← ident rest
      .ok (namedIdent name, rest)
  | (false, rest) => .ok (none, rest)

/-- The paths of `InterfaceGroup::parse`, in the order they are written. -/
def paths : Reader (List Path) :=
  Parser.separated syn.path (isPunct '+') (.expected "path")

/-- `InterfaceGroup::parse` and `Namespace::registration` -/
def interfaceIn (tokens : List TokenTree) :
    Except Diagnostic ((List Path × Option Word) × List TokenTree) := do
  let (written, rest) ← paths syn tokens
  let (ns, rest) ← namespaceRegistration rest
  .ok ((parseGroup print written, ns), rest)

/-- `Registration::parse_value_tail` -/
def parseValueTail (value : E) (ty : Option Ty) : Reader (Registration E Ty C) := fun tokens => do
  let (dynamic, rest) := option (isKeyword "dyn") tokens
  let ((interface, ns), rest) ← interfaceIn print syn rest
  .ok
    ({ fresh := false
       constructor := none
       fallible := false
       dynamic
       value
       ty := ty.getD syn.infer
       inferValueType := ty.isNone
       interface
       ns }, rest)

/-- `Registration::parse_annotated` -/
def parseAnnotated : Reader (Registration E Ty C) := fun tokens => do
  let (value, rest) ← syn.expr tokens
  let (_, rest) ← token ":" (isPunct ':') rest
  let (ty, rest) ← syn.type rest
  let (_, rest) ← token "as" (isKeyword "as") rest
  parseValueTail print syn value (some ty) rest

/-- The two sides of an `as`, if both parse. -/
def parseSides (sides : List TokenTree × List TokenTree) : Option (Registration E Ty C) :=
  match syn.expr.complete .unexpected sides.1 with
  | .error _ => none
  | .ok value =>
      match (parseValueTail print syn value none).complete .unexpected sides.2 with
      | .error _ => none
      | .ok registration => some registration

/-- `Registration::parse` -/
def parseRegistration : Reader (Registration E Ty C) := fun tokens =>
  match parseAnnotated print syn tokens with
  | .ok registration => .ok registration
  | .error error =>
      -- From the last `as` to the first.
      match (splits (isKeyword "as") tokens).reverse.findSome? (parseSides print syn) with
      | some registration => .ok (registration, [])
      | none => .error error

end Parsers

/-! ## What is read -/

section Spelling

variable {E Ty C R : Type}

/-- An interface group with the namespace after it, as they are written. -/
inductive SpellsInterface (syn : Syn E Ty C R) : Written → List TokenTree → Prop
  | plain {first : Path} {rest : List Path} {front : List TokenTree} :
      Parser.Separated syn.path (isPunct '+') (first :: rest) front →
        SpellsInterface syn ⟨none, first, rest⟩ front
  | named {first : Path} {rest : List Path} {front : List TokenTree} {t : TokenTree} {name : Word} :
      Parser.Separated syn.path (isPunct '+') (first :: rest) front → isKeyword "in" t = true →
        reserved name = false → SpellsInterface syn ⟨some name, first, rest⟩ (front ++ [t, .ident name])

/-- What stands after the `as` of a registered value. -/
inductive SpellsTail (syn : Syn E Ty C R) : Bool → Written → List TokenTree → Prop
  | plain {w : Written} {tokens : List TokenTree} :
      SpellsInterface syn w tokens → SpellsTail syn false w tokens
  | dynamic {w : Written} {tokens : List TokenTree} {t : TokenTree} :
      isKeyword "dyn" t = true → SpellsInterface syn w tokens → SpellsTail syn true w (t :: tokens)

end Spelling

section Reading

variable {E Ty C R : Type} {print : List Token → String} {syn : Syn E Ty C R}

theorem pathEnd_plus (t : TokenTree) (h : isPunct '+' t = true) : pathEnd t = true := by
  simp [pathEnd, h]

/-- The keyword `in` is no `+`. -/
theorem isPunct_of_isKeyword {char : Char} {keyword : String} {t : TokenTree}
    (h : isKeyword keyword t = true) : isPunct char t = false := by
  cases t with
  | ident word => rfl
  | punct other joint => cases h
  | literal text => cases h
  | group delimiter stream => cases h

theorem isKeyword_of_isPunct {char : Char} {keyword : String} {t : TokenTree}
    (h : isPunct char t = true) : isKeyword keyword t = false := by
  cases t with
  | ident word => cases h
  | punct other joint => rfl
  | literal text => rfl
  | group delimiter stream => rfl

theorem isPunct_ne {char other : Char} (hne : char ≠ other) {t : TokenTree}
    (h : isPunct char t = true) : isPunct other t = false := by
  cases t with
  | ident word => rfl
  | punct c joint =>
      simp only [isPunct, beq_iff_eq] at h ⊢
      subst h
      simpa using hne
  | literal text => rfl
  | group delimiter stream => rfl

theorem namespaceRegistration_eq_ok {tokens rest : List TokenTree} {ns : Option Word} :
    namespaceRegistration tokens = .ok (ns, rest) ↔
      (∃ t name, isKeyword "in" t = true ∧ reserved name = false ∧ ns = namedIdent name ∧
          tokens = t :: .ident name :: rest) ∨
        (ns = none ∧ tokens = rest ∧ ∀ t ∈ tokens.head?, isKeyword "in" t = false) := by
  unfold namespaceRegistration
  cases hoption : option (isKeyword "in") tokens with
  | mk found after =>
      cases found with
      | true =>
          rcases option_true.1 hoption with ⟨t, ht, rfl⟩
          simp only [bind_eq_ok, Prod.exists, ident_eq_ok, Except.ok.injEq, Prod.mk.injEq]
          constructor
          · rintro ⟨name, after, ⟨hname, rfl⟩, rfl, rfl⟩
            exact .inl ⟨t, name, ht, hname, rfl, rfl⟩
          · rintro (⟨t', name, _, hname, rfl, heq⟩ | ⟨_, _, hother⟩)
            · cases heq
              exact ⟨name, rest, ⟨hname, rfl⟩, rfl, rfl⟩
            · cases (hother t rfl).symm.trans ht
      | false =>
          rcases option_false.1 hoption with ⟨rfl, hother⟩
          simp only [Except.ok.injEq, Prod.mk.injEq]
          constructor
          · rintro ⟨rfl, rfl⟩
            exact .inr ⟨rfl, rfl, hother⟩
          · rintro (⟨t', name, ht', _, _, rfl⟩ | ⟨rfl, rfl, _⟩)
            · cases (hother t' rfl).symm.trans ht'
            · exact ⟨rfl, rfl⟩

/-- A group and its namespace are read up to the end of the stream or a comma. -/
theorem interfaceIn_eq_ok (h : PathGrammar syn.path) {tokens rest : List TokenTree}
    {interface : List Path} {ns : Option Word} (hrest : ∀ t ∈ rest.head?, isPunct ',' t = true) :
    interfaceIn print syn tokens = .ok ((interface, ns), rest) ↔
      ∃ w front, tokens = front ++ rest ∧ SpellsInterface syn w front ∧
        interface = parseGroup print w.paths ∧ ns = w.namespaceOf := by
  simp only [interfaceIn, bind_eq_ok, Prod.exists, Except.ok.injEq, Prod.mk.injEq]
  constructor
  · rintro ⟨written, middle, hpaths, ns', rest', hns, ⟨rfl, rfl⟩, rfl⟩
    rcases Parser.separatedFrom_front h.isLocal hpaths with ⟨front, rfl, hseparated⟩
    cases written with
    | nil => exact absurd rfl hseparated.ne_nil
    | cons first others =>
        rcases namespaceRegistration_eq_ok.1 hns with
          ⟨t, name, ht, hname, rfl, rfl⟩ | ⟨rfl, rfl, _⟩
        · exact ⟨⟨some name, first, others⟩, front ++ [t, .ident name], by simp,
            .named hseparated ht hname, rfl, rfl⟩
        · exact ⟨⟨none, first, others⟩, front, rfl, .plain hseparated, rfl, rfl⟩
  · rintro ⟨w, front, rfl, hspells, rfl, rfl⟩
    cases hspells with
    | @plain first others _ hseparated =>
        refine ⟨first :: others, rest, ?_, none, rest, ?_, ⟨rfl, rfl⟩, rfl⟩
        · apply (Parser.separated_eq_ok h.isLocal pathEnd_plus ?_).2 ⟨front, rfl, hseparated⟩
          intro t ht
          have hcomma := hrest t ht
          exact ⟨by simp [pathEnd, hcomma], isPunct_ne (by decide) hcomma⟩
        · apply namespaceRegistration_eq_ok.2
          exact .inr ⟨rfl, rfl, fun t ht => isKeyword_of_isPunct (hrest t ht)⟩
    | @named first others front t name hseparated ht hname =>
        refine ⟨first :: others, t :: .ident name :: rest, ?_, namedIdent name, rest, ?_,
          ⟨rfl, rfl⟩, rfl⟩
        · apply (Parser.separated_eq_ok h.isLocal pathEnd_plus ?_).2 ⟨front, by simp, hseparated⟩
          intro t' ht'
          cases ht'
          exact ⟨by simp [pathEnd, ht], isPunct_of_isKeyword ht⟩
        · exact namespaceRegistration_eq_ok.2 (.inl ⟨t, name, ht, hname, rfl, rfl⟩)

theorem separated_leading (h : PathGrammar syn.path) {items : List Path} {tokens : List TokenTree}
    (hseparated : Parser.Separated syn.path (isPunct '+') items tokens) :
    ∃ t after, tokens = t :: after ∧ isKeyword "dyn" t = false := by
  have hfront : ∀ {front : List TokenTree} {p : Path}, syn.path front = .ok (p, []) →
      ∃ t after, front = t :: after ∧ isKeyword "dyn" t = false := by
    intro front p hp
    cases front with
    | nil => exact absurd hp h.isLocal.nonempty
    | cons t after => exact ⟨t, after, rfl, h.leading hp⟩
  cases hseparated with
  | one halone => exact hfront halone
  | more halone _ _ =>
      rcases hfront halone with ⟨t, after, rfl, ht⟩
      exact ⟨t, _, rfl, ht⟩

theorem SpellsInterface.leading (h : PathGrammar syn.path) {w : Written} {tokens : List TokenTree}
    (hspells : SpellsInterface syn w tokens) : ∀ t ∈ tokens.head?, isKeyword "dyn" t = false := by
  have hfirst : ∃ t after, tokens = t :: after ∧ isKeyword "dyn" t = false := by
    cases hspells with
    | plain hseparated => exact separated_leading h hseparated
    | named hseparated _ _ =>
        rcases separated_leading h hseparated with ⟨t, after, rfl, ht⟩
        exact ⟨t, _, rfl, ht⟩
  rcases hfirst with ⟨t, after, rfl, ht⟩
  intro t' ht'
  cases ht'
  exact ht

/-- A whole tail gives a value, its type and what is written after the `as`. -/
theorem parseValueTail_eq_ok (h : PathGrammar syn.path) {value : E} {ty : Option Ty}
    {tokens : List TokenTree} {r : Registration E Ty C} :
    parseValueTail print syn value ty tokens = .ok (r, []) ↔
      ∃ dynamic w, SpellsTail syn dynamic w tokens ∧
        r =
          { fresh := false
            constructor := none
            fallible := false
            dynamic
            value
            ty := ty.getD syn.infer
            inferValueType := ty.isNone
            interface := parseGroup print w.paths
            ns := w.namespaceOf } := by
  simp only [parseValueTail]
  cases hoption : option (isKeyword "dyn") tokens with
  | mk dynamic after =>
      simp only [bind_eq_ok, Prod.exists, Except.ok.injEq, Prod.mk.injEq]
      constructor
      · rintro ⟨interface, ns, rest, hinterface, rfl, rfl⟩
        rcases (interfaceIn_eq_ok h (by simp)).1 hinterface with ⟨w, front, rfl, hspells, rfl, rfl⟩
        rw [List.append_nil] at hoption
        refine ⟨dynamic, w, ?_, rfl⟩
        cases dynamic with
        | true =>
            rcases option_true.1 hoption with ⟨t, ht, rfl⟩
            exact .dynamic ht hspells
        | false =>
            rcases option_false.1 hoption with ⟨rfl, _⟩
            exact .plain hspells
      · rintro ⟨dynamic', w, hspells, rfl⟩
        have hread : ∃ front, SpellsInterface syn w front ∧ dynamic = dynamic' ∧ after = front := by
          cases hspells with
          | plain hspells =>
              have hfalse := option_false.2 ⟨rfl, hspells.leading h⟩
              cases hoption.symm.trans hfalse
              exact ⟨_, hspells, rfl, rfl⟩
          | @dynamic _ front t ht hspells =>
              have htrue : option (isKeyword "dyn") (t :: front) = (true, front) :=
                option_true.2 ⟨t, ht, rfl⟩
              cases hoption.symm.trans htrue
              exact ⟨_, hspells, rfl, rfl⟩
        rcases hread with ⟨front, hfront, rfl, rfl⟩
        refine ⟨parseGroup print w.paths, w.namespaceOf, [], ?_, rfl, rfl⟩
        exact (interfaceIn_eq_ok h (by simp)).2 ⟨w, after, by simp, hfront, rfl, rfl⟩

end Reading

end Parse
end Systasis
