import Mathlib.Data.List.Nodup
import Systasis.Parse.Separator

/-!
# Declarations — the two passes over the content of a container

Model of `Input::parse`, `ChildRegistration::parse` and `validate_names` in
`systasis-macros/src/child.rs` and of `Registrations::parse` in `parse.rs`.  A first pass reads the
children and writes every other declaration out again; the second pass reads what was written.
Both passes report the first error they meet.
-/

namespace Systasis
namespace Parse

open Lib Scoped

/-! ## Children -/

/-- `child::ChildRegistration` -/
structure ChildRegistration (R : Type) where
  name : Word
  ty : R

section Children

variable {E Ty C R : Type} (syn : Syn E Ty C R)

/-- `ChildRegistration::parse` -/
def parseChild : Reader (ChildRegistration R) := fun tokens => do
  let (name, rest) ← ident tokens
  if name.name == "default" then
    .error (.message
      "a child container requires a non-default path name; default namespaces cannot be flattened")
  else do
    let (_, rest) ← token ":" (isPunct ':') rest
    let ((mutability, ty), rest) ← syn.reference rest
    if mutability then .error (.message "register a child container by shared reference")
    else .ok (⟨name, ty⟩, rest)

/-- `syn::parse2` of a child. -/
def readChild (body : List TokenTree) : Except Diagnostic (ChildRegistration R) :=
  (parseChild syn).complete .unexpected body

/-- The loop of `validate_names`, after the names in `seen`. -/
def validateFrom (seen : List String) : List (ChildRegistration R) → Except Diagnostic Unit
  | [] => .ok ()
  | child :: rest =>
      if seen.contains child.name.name then
        .error (.combined "duplicate child container path" "first child with this path")
      else validateFrom (child.name.name :: seen) rest

def validateNames (children : List (ChildRegistration R)) : Except Diagnostic Unit :=
  validateFrom [] children

end Children

/-! ## Registrations -/

section Registrations

variable {E Ty C R : Type} (print : List Token → String) (syn : Syn E Ty C R)

/-- The branch of `Registrations::parse` for type registrations. -/
def parseMapping (constructor : Bool) : Reader (Registration E Ty C) := fun tokens => do
  let (ty, rest) ← syn.type tokens
  let (_, rest) ← token "as" (isKeyword "as") rest
  let ((interface, ns), rest) ← interfaceIn print syn rest
  let registration : Registration E Ty C :=
    { fresh := true
      constructor := none
      fallible := false
      dynamic := false
      value := syn.unit
      ty
      inferValueType := false
      interface
      ns }
  if constructor then do
    let (_, rest) ← token "," (isPunct ',') rest
    let (fallible, rest) := option (isKeyword "try") rest
    let (closure, rest) ← syn.closure rest
    if !closure.noInputs || closure.asyncness then
      .error (.message "constructor must be a synchronous zero-argument closure")
    else if fallible && !closure.explicitOutput then
      .error (.message "fallible constructor requires an explicit return type")
    else .ok ({ registration with constructor := some closure, fallible }, rest)
  else .ok (registration, rest)

/-- `ident == text` -/
def named (text : String) (name : Word) : Bool :=
  isKeyword text (.ident name)

/-- The content of the parentheses of a declaration. -/
def parseBody (name : Word) : Reader (Registration E Ty C) :=
  if named "register_type" name || named "register_type_with" name then
    parseMapping print syn (named "register_type_with" name)
  else parseRegistration print syn

/-- `Registrations::parse` -/
def parseRegistrations : List TokenTree → Except Diagnostic (List (Registration E Ty C))
  | [] => .ok []
  | .ident name :: rest =>
      if reserved name then .error (.expected "identifier")
      else if !(named "register_value" name || named "register_type" name ||
          named "register_type_with" name) then
        .error (.message "expected register_value!, register_type!, or register_type_with!")
      else
        match rest with
        | bang :: .group .parenthesis body :: rest =>
            if isPunct '!' bang then
              match parseBody print syn name body with
              | .error error => .error error
              | .ok (_, _ :: _) => .error (.message "unexpected registration tokens")
              | .ok (registration, []) =>
                  match rest with
                  | semicolon :: rest =>
                      if isPunct ';' semicolon then
                        match parseRegistrations rest with
                        | .error error => .error error
                        | .ok registrations => .ok (registration :: registrations)
                      else .error (.expected ";")
                  | [] => .error (.expected ";")
            else .error (.expected "!")
        | bang :: _ =>
            if isPunct '!' bang then .error (.expected "parentheses") else .error (.expected "!")
        | [] => .error (.expected "!")
  | _ :: _ => .error (.expected "identifier")

/-! ## The input -/

/-- `quote!(#name!(#tokens);)` -/
def render (name : Word) (body : List TokenTree) : List TokenTree :=
  [.ident name, .punct '!' false, .group .parenthesis body, .punct ';' false]

/-- The loop of `Input::parse`, with the declarations and children found so far. -/
def collect : List TokenTree → List TokenTree → List (ChildRegistration R) →
    Except Diagnostic (List TokenTree × List (ChildRegistration R))
  | [], declarations, children => .ok (declarations, children)
  | .ident name :: rest, declarations, children =>
      if reserved name then .error (.expected "identifier")
      else
        match rest with
        | bang :: .group .parenthesis body :: semicolon :: rest =>
            if isPunct '!' bang then
              if isPunct ';' semicolon then
                if named "register_container" name then
                  match readChild syn body with
                  | .error error => .error error
                  | .ok child => collect rest declarations (children ++ [child])
                else collect rest (declarations ++ render name body) children
              else .error (.expected ";")
            else .error (.expected "!")
        | bang :: .group .parenthesis _ :: [] =>
            if isPunct '!' bang then .error (.expected ";") else .error (.expected "!")
        | bang :: _ =>
            if isPunct '!' bang then .error (.expected "parentheses") else .error (.expected "!")
        | [] => .error (.expected "!")
  | _ :: _, _, _ => .error (.expected "identifier")

/-- `child::Input` -/
structure Input (E Ty C R : Type) where
  registrations : List (Registration E Ty C)
  children : List (ChildRegistration R)

/-- `Input::parse` -/
def parseInput (stream : List TokenTree) : Except Diagnostic (Input E Ty C R) := do
  let (declarations, children) ← collect syn stream [] []
  validateNames children
  let registrations ← parseRegistrations print syn declarations
  .ok ⟨registrations, children⟩

end Registrations

/-! ## One pass -/

/-- `name!(body);` -/
structure Entry where
  name : Word
  body : List TokenTree

/-- A stream of declarations, however their punctuation is joined to what follows. -/
inductive Spells : List Entry → List TokenTree → Prop
  | nil : Spells [] []
  | cons {name : Word} {body rest : List TokenTree} {bang semicolon : TokenTree}
      {entries : List Entry} :
      reserved name = false → isPunct '!' bang = true → isPunct ';' semicolon = true →
        Spells entries rest →
          Spells (⟨name, body⟩ :: entries)
            (.ident name :: bang :: .group .parenthesis body :: semicolon :: rest)

def Entry.isChild (e : Entry) : Bool :=
  named "register_container" e.name

/-- The declarations of children, and the others. -/
def childEntries (entries : List Entry) : List Entry :=
  entries.filter Entry.isChild

def otherEntries (entries : List Entry) : List Entry :=
  entries.filter fun e => !e.isChild

section OnePass

variable {E Ty C R : Type} (print : List Token → String) (syn : Syn E Ty C R)

/-- One declaration of a registration. -/
def readEntry (e : Entry) : Except Diagnostic (Registration E Ty C) :=
  if !(named "register_value" e.name || named "register_type" e.name ||
      named "register_type_with" e.name) then
    .error (.message "expected register_value!, register_type!, or register_type_with!")
  else (parseBody print syn e.name).complete (.message "unexpected registration tokens") e.body

/-- The children, the check of their names and the registrations, without writing anything out. -/
def readEntries (entries : List Entry) : Except Diagnostic (Input E Ty C R) := do
  let children ← (childEntries entries).mapM fun e => readChild syn e.body
  validateNames children
  let registrations ← (otherEntries entries).mapM (readEntry print syn)
  .ok ⟨registrations, children⟩

variable {print syn}

theorem bind_ok {ε α β : Type} (a : α) (f : α → Except ε β) : Except.ok a >>= f = f a := rfl

theorem collect_spells {entries : List Entry} {stream : List TokenTree}
    (h : Spells entries stream) : ∀ (declarations : List TokenTree)
      (children : List (ChildRegistration R)),
      collect syn stream declarations children = (do
        let found ← (childEntries entries).mapM fun e => readChild syn e.body
        .ok (declarations ++ (otherEntries entries).flatMap fun e => render e.name e.body,
          children ++ found)) := by
  induction h with
  | nil =>
      intro declarations children
      simp [collect, childEntries, otherEntries, bind, Except.bind, pure, Except.pure]
  | @cons name body rest bang semicolon entries hname hbang hsemicolon _ ih =>
      intro declarations children
      simp only [collect, hname, hbang, hsemicolon, Bool.false_eq_true, if_false, if_true]
      cases hchild : named "register_container" name with
      | true =>
          have hentry : childEntries (⟨name, body⟩ :: entries) = ⟨name, body⟩ :: childEntries entries :=
            List.filter_cons_of_pos hchild
          have hother : otherEntries (⟨name, body⟩ :: entries) = otherEntries entries :=
            List.filter_cons_of_neg (by simp [Entry.isChild, hchild])
          rw [hentry, hother, List.mapM_cons, if_pos rfl]
          cases readChild syn body with
          | error error => rfl
          | ok child =>
              simp only [bind_ok, ih, bind_assoc, List.append_assoc]
              rfl
      | false =>
          have hentry : childEntries (⟨name, body⟩ :: entries) = childEntries entries :=
            List.filter_cons_of_neg (by simp [Entry.isChild, hchild])
          have hother : otherEntries (⟨name, body⟩ :: entries) = ⟨name, body⟩ :: otherEntries entries :=
            List.filter_cons_of_pos (by simp [Entry.isChild, hchild])
          rw [hentry, hother, if_neg (by simp), ih]
          simp only [List.flatMap_cons, List.append_assoc]

/-- What is written out reads as the declarations it was written from. -/
theorem parseRegistrations_render {entries : List Entry}
    (h : ∀ e ∈ entries, reserved e.name = false) :
    parseRegistrations print syn (entries.flatMap fun e => render e.name e.body) =
      entries.mapM (readEntry print syn) := by
  induction entries with
  | nil => rfl
  | cons e entries ih =>
      have hname := h e List.mem_cons_self
      have hrest := ih fun e he => h e (List.mem_cons_of_mem _ he)
      rw [List.flatMap_cons, render, List.mapM_cons]
      simp only [List.cons_append, List.nil_append, parseRegistrations, hname, Bool.false_eq_true,
        if_false, isPunct, beq_self_eq_true, if_true, readEntry, Parser.complete]
      split
      · rfl
      · cases hbody : parseBody print syn e.name e.body with
        | error error => rfl
        | ok found =>
            rcases found with ⟨registration, left⟩
            cases left with
            | nil =>
                simp only [hrest, bind_ok]
                cases entries.mapM (readEntry print syn) <;> rfl
            | cons t left => rfl

theorem reserved_of_spells {entries : List Entry} {stream : List TokenTree}
    (h : Spells entries stream) : ∀ e ∈ entries, reserved e.name = false := by
  induction h with
  | nil => simp
  | cons hname _ _ _ ih =>
      intro e he
      rcases List.mem_cons.1 he with rfl | he
      · exact hname
      · exact ih e he

/-- The two passes report and return what one pass over the declarations does. -/
theorem parseInput_spells {entries : List Entry} {stream : List TokenTree}
    (h : Spells entries stream) : parseInput print syn stream = readEntries print syn entries := by
  have hothers : ∀ e ∈ otherEntries entries, reserved e.name = false := fun e he =>
    reserved_of_spells h e (List.mem_of_mem_filter he)
  have hsecond := @parseRegistrations_render _ _ _ _ print syn _ hothers
  simp only [parseInput, readEntries, collect_spells h, bind_assoc, bind_ok, List.nil_append]
  refine bind_congr fun children => ?_
  rw [hsecond]

/-- Only streams of declarations get through the first pass. -/
theorem spells_of_collect {stream declarations : List TokenTree}
    {children : List (ChildRegistration R)} {found : List TokenTree × List (ChildRegistration R)}
    (h : collect syn stream declarations children = .ok found) :
    ∃ entries, Spells entries stream := by
  fun_induction collect syn stream declarations children with
  | case1 declarations children => exact ⟨[], .nil⟩
  | case2 => cases h
  | case3 => cases h
  | case4 name declarations children hname bang body semicolon rest hbang hsemicolon hchild child
      hread ih =>
      rcases ih h with ⟨entries, hentries⟩
      exact ⟨⟨name, body⟩ :: entries, .cons (by simpa using hname) hbang hsemicolon hentries⟩
  | case5 name declarations children hname bang body semicolon rest hbang hsemicolon hother ih =>
      rcases ih h with ⟨entries, hentries⟩
      exact ⟨⟨name, body⟩ :: entries, .cons (by simpa using hname) hbang hsemicolon hentries⟩
  | _ => cases h

/-! ## Names of children -/

theorem validateFrom_eq_ok {children : List (ChildRegistration R)} : ∀ {seen : List String},
    validateFrom seen children = .ok () ↔
      (children.map fun child => child.name.name).Nodup ∧
        ∀ child ∈ children, child.name.name ∉ seen := by
  induction children with
  | nil =>
      intro seen
      simp [validateFrom]
  | cons child children ih =>
      intro seen
      simp only [validateFrom]
      by_cases hseen : child.name.name ∈ seen
      · simp [hseen]
      · simp only [List.contains_eq_mem, decide_eq_true_eq, hseen, if_false, ih, List.map_cons,
          List.nodup_cons, List.mem_map, not_exists, not_and, List.mem_cons, not_or]
        constructor
        · rintro ⟨hnodup, hothers⟩
          refine ⟨⟨fun other hother => (hothers other hother).1, hnodup⟩, ?_⟩
          rintro other (rfl | hother)
          · exact hseen
          · exact (hothers other hother).2
        · rintro ⟨⟨hnot, hnodup⟩, hothers⟩
          exact ⟨hnodup, fun other hother => ⟨hnot other hother, hothers other (.inr hother)⟩⟩

theorem validateNames_eq_ok {children : List (ChildRegistration R)} :
    validateNames children = .ok () ↔ (children.map fun child => child.name.name).Nodup := by
  simp [validateNames, validateFrom_eq_ok]

/-! ## Declarations -/

/-- `name: &Type` -/
inductive DeclaresChild (syn : Syn E Ty C R) : Entry → ChildRegistration R → Prop
  | mk {container name : Word} {colon : TokenTree} {rest : List TokenTree} {ty : R} :
      reserved name = false → name.name ≠ "default" → isPunct ':' colon = true →
        syn.reference rest = .ok ((false, ty), []) →
          DeclaresChild syn ⟨container, .ident name :: colon :: rest⟩ ⟨name, ty⟩

/-- A type registration, without what a constructor adds. -/
def mapped (print : List Token → String) (syn : Syn E Ty C R) (ty : Ty) (w : Written) :
    Registration E Ty C where
  fresh := true
  constructor := none
  fallible := false
  dynamic := false
  value := syn.unit
  ty := ty
  inferValueType := false
  interface := parseGroup print w.paths
  ns := w.namespaceOf

/-- The declarations of registrations, with what each registers. -/
inductive Declares (print : List Token → String) (syn : Syn E Ty C R) :
    Entry → Registration E Ty C → Prop
  | value {name : Word} {body : List TokenTree} {r : Registration E Ty C} :
      named "register_value" name = true → ReadsValue print syn body r →
        Declares print syn ⟨name, body⟩ r
  | type {name : Word} {body front : List TokenTree} {as : TokenTree} {ty : Ty} {w : Written} :
      named "register_type" name = true → syn.type body = .ok (ty, as :: front) →
        isKeyword "as" as = true → SpellsInterface syn w front →
          Declares print syn ⟨name, body⟩ (mapped print syn ty w)
  | typeWith {name : Word} {body front rest code : List TokenTree} {as comma : TokenTree} {ty : Ty}
      {w : Written} {fallible : Bool} {closure : Closure C} :
      named "register_type_with" name = true →
        syn.type body = .ok (ty, as :: (front ++ comma :: rest)) → isKeyword "as" as = true →
          SpellsInterface syn w front → isPunct ',' comma = true →
            option (isKeyword "try") rest = (fallible, code) →
              syn.closure code = .ok (closure, []) → closure.noInputs = true →
                closure.asyncness = false → (fallible = true → closure.explicitOutput = true) →
                  Declares print syn ⟨name, body⟩
                    { mapped print syn ty w with constructor := some closure, fallible }

theorem readChild_eq_ok {e : Entry} {child : ChildRegistration R} :
    readChild syn e.body = .ok child ↔ DeclaresChild syn e child := by
  rcases e with ⟨container, body⟩
  simp only [readChild, Parser.complete_eq_ok, parseChild, bind_eq_ok, Prod.exists, ident_eq_ok]
  constructor
  · rintro ⟨name, rest, ⟨hname, rfl⟩, hread⟩
    split at hread
    · cases hread
    · rename_i hdefault
      simp only [bind_eq_ok, Prod.exists, token_eq_ok] at hread
      rcases hread with ⟨_, rest', ⟨colon, hcolon, rfl⟩, mutability, ty, left, hty, hread⟩
      split at hread
      · cases hread
      · rename_i hshared
        cases hread
        cases mutability with
        | true => exact absurd rfl hshared
        | false => exact .mk hname (by simpa using hdefault) hcolon hty
  · intro hdeclares
    cases hdeclares with
    | @mk _ name colon rest ty hname hdefault hcolon hty =>
        refine ⟨name, _, ⟨hname, rfl⟩, ?_⟩
        rw [if_neg (by simpa using hdefault)]
        simp only [bind_eq_ok, Prod.exists, token_eq_ok]
        exact ⟨(), rest, ⟨colon, hcolon, rfl⟩, false, ty, [], hty, rfl⟩

theorem named_ne {text other : String} (hne : text ≠ other) {name : Word}
    (h : named text name = true) : named other name = false :=
  isKeyword_ne hne h

theorem parseMapping_type (h : PathGrammar syn.path) {body : List TokenTree}
    {r : Registration E Ty C} :
    parseMapping print syn false body = .ok (r, []) ↔
      ∃ ty as front w, syn.type body = .ok (ty, as :: front) ∧ isKeyword "as" as = true ∧
        SpellsInterface syn w front ∧ r = mapped print syn ty w := by
  simp only [parseMapping, bind_eq_ok, Prod.exists, token_eq_ok, Bool.false_eq_true, if_false,
    Except.ok.injEq, Prod.mk.injEq]
  constructor
  · rintro ⟨ty, _, hty, _, front, ⟨as, has, rfl⟩, interface, ns, rest, hinterface, rfl, rfl⟩
    rcases (interfaceIn_eq_ok h (by simp)).1 hinterface with ⟨w, front, rfl, hspells, rfl, rfl⟩
    exact ⟨ty, as, front, w, by simpa using hty, has, hspells, rfl⟩
  · rintro ⟨ty, as, front, w, hty, has, hspells, rfl⟩
    refine ⟨ty, _, hty, (), front, ⟨as, has, rfl⟩, _, _, [], ?_, rfl, rfl⟩
    exact (interfaceIn_eq_ok h (by simp)).2 ⟨w, front, by simp, hspells, rfl, rfl⟩

theorem parseMapping_typeWith (h : PathGrammar syn.path) {body : List TokenTree}
    {r : Registration E Ty C} :
    parseMapping print syn true body = .ok (r, []) ↔
      ∃ ty as front comma rest w fallible code closure,
        syn.type body = .ok (ty, as :: (front ++ comma :: rest)) ∧ isKeyword "as" as = true ∧
          SpellsInterface syn w front ∧ isPunct ',' comma = true ∧
            option (isKeyword "try") rest = (fallible, code) ∧
              syn.closure code = .ok (closure, []) ∧ closure.noInputs = true ∧
                closure.asyncness = false ∧ (fallible = true → closure.explicitOutput = true) ∧
                  r = { mapped print syn ty w with constructor := some closure, fallible } := by
  simp only [parseMapping, bind_eq_ok, Prod.exists, token_eq_ok, if_true]
  constructor
  · rintro ⟨ty, _, hty, _, _, ⟨as, has, rfl⟩, interface, ns, _, hinterface, _, rest,
      ⟨comma, hcomma, rfl⟩, closure, left, hclosure, hread⟩
    have hend : ∀ t ∈ (comma :: rest).head?, isPunct ',' t = true := by
      intro t ht
      cases ht
      exact hcomma
    rcases (interfaceIn_eq_ok h hend).1 hinterface with ⟨w, front, rfl, hspells, rfl, rfl⟩
    rcases hoption : option (isKeyword "try") rest with ⟨fallible, code⟩
    simp only [hoption] at hclosure hread
    split at hread
    · cases hread
    · rename_i hplain
      split at hread
      · cases hread
      · rename_i houtput
        cases hread
        simp only [Bool.or_eq_true, Bool.not_eq_true', not_or, Bool.not_eq_false,
          Bool.not_eq_true] at hplain
        refine ⟨ty, as, front, comma, rest, w, fallible, code, closure, hty, has, hspells, hcomma,
          hoption, hclosure, hplain.1, hplain.2, ?_, rfl⟩
        intro hfallible
        simpa [hfallible] using houtput
  · rintro ⟨ty, as, front, comma, rest, w, fallible, code, closure, hty, has, hspells, hcomma,
      hoption, hclosure, hinputs, hasync, houtput, rfl⟩
    have hend : ∀ t ∈ (comma :: rest).head?, isPunct ',' t = true := by
      intro t ht
      cases ht
      exact hcomma
    refine ⟨ty, _, hty, (), _, ⟨as, has, rfl⟩, _, _, _,
      (interfaceIn_eq_ok h hend).2 ⟨w, front, rfl, hspells, rfl, rfl⟩, (), rest,
      ⟨comma, hcomma, rfl⟩, closure, [], ?_, ?_⟩
    · rw [hoption]
      exact hclosure
    · rw [hoption, if_neg (by simp [hinputs, hasync]), if_neg]
      · rfl
      · cases fallible with
        | false => simp
        | true => simp [houtput rfl]

theorem readEntry_eq_ok (h : PathGrammar syn.path) {e : Entry} {r : Registration E Ty C} :
    readEntry print syn e = .ok r ↔ Declares print syn e r := by
  rcases e with ⟨name, body⟩
  unfold readEntry
  constructor
  · intro hread
    split at hread
    · cases hread
    · rename_i hname
      have hbody := Parser.complete_eq_ok.1 hread
      unfold parseBody at hbody
      simp only [Bool.not_eq_true', Bool.not_eq_false, Bool.or_eq_true] at hname
      split at hbody
      · rename_i hmapping
        simp only [Bool.or_eq_true] at hmapping
        rcases hmapping with htype | hwith
        · have hnot := @named_ne _ "register_type_with" (by decide) name htype
          rw [hnot] at hbody
          rcases (parseMapping_type h).1 hbody with ⟨ty, as, front, w, hty, has, hspells, rfl⟩
          exact .type htype hty has hspells
        · rw [hwith] at hbody
          rcases (parseMapping_typeWith h).1 hbody with
            ⟨ty, as, front, comma, rest, w, fallible, code, closure, hty, has, hspells, hcomma,
              hoption, hclosure, hinputs, hasync, houtput, rfl⟩
          exact .typeWith hwith hty has hspells hcomma hoption hclosure hinputs hasync houtput
      · rename_i hmapping
        simp only [Bool.or_eq_true, not_or] at hmapping
        rcases hname with (hvalue | htype) | hwith
        · exact .value hvalue ((parseRegistration_eq_ok h).1 hbody)
        · exact absurd htype hmapping.1
        · exact absurd hwith hmapping.2
  · intro hdeclares
    cases hdeclares with
    | value hvalue hreads =>
        have htype := @named_ne _ "register_type" (by decide) name hvalue
        have hwith := @named_ne _ "register_type_with" (by decide) name hvalue
        simp only [hvalue, htype, hwith, parseBody, Bool.or_false, Bool.not_true,
          Bool.false_eq_true, if_false, Parser.complete_eq_ok]
        exact (parseRegistration_eq_ok h).2 hreads
    | type htype hty has hspells =>
        have hvalue := @named_ne _ "register_value" (by decide) name htype
        have hwith := @named_ne _ "register_type_with" (by decide) name htype
        simp only [hvalue, htype, hwith, parseBody, Bool.or_false, Bool.or_true, Bool.not_true,
          Bool.false_eq_true, if_false, if_true, Parser.complete_eq_ok]
        exact (parseMapping_type h).2 ⟨_, _, _, _, hty, has, hspells, rfl⟩
    | typeWith hwith hty has hspells hcomma hoption hclosure hinputs hasync houtput =>
        simp only [hwith, parseBody, Bool.or_true, Bool.not_true, Bool.false_eq_true, if_false,
          if_true, Parser.complete_eq_ok]
        exact (parseMapping_typeWith h).2
          ⟨_, _, _, _, _, _, _, _, _, hty, has, hspells, hcomma, hoption, hclosure, hinputs, hasync,
            houtput, rfl⟩

/-! ## What is accepted -/

/-- A container is accepted exactly when its content is a sequence of declarations, the children
among them are declared by shared reference under names of their own, and every other declaration
has a reading; it then has these children and registrations, each in the order they are declared. -/
theorem input_accepted_iff (h : PathGrammar syn.path) (stream : List TokenTree)
    (input : Input E Ty C R) :
    parseInput print syn stream = .ok input ↔
      ∃ entries, Spells entries stream ∧
        List.Forall₂ (DeclaresChild syn) (childEntries entries) input.children ∧
          (input.children.map fun child => child.name.name).Nodup ∧
            List.Forall₂ (Declares print syn) (otherEntries entries) input.registrations := by
  have hread : ∀ entries, readEntries print syn entries = .ok input ↔
      List.Forall₂ (DeclaresChild syn) (childEntries entries) input.children ∧
        (input.children.map fun child => child.name.name).Nodup ∧
          List.Forall₂ (Declares print syn) (otherEntries entries) input.registrations := by
    intro entries
    simp only [readEntries, bind_eq_ok, mapM_eq_ok, readChild_eq_ok, readEntry_eq_ok h,
      Except.ok.injEq]
    constructor
    · rintro ⟨children, hchildren, _, hnames, registrations, hregistrations, rfl⟩
      exact ⟨hchildren, validateNames_eq_ok.1 hnames, hregistrations⟩
    · rintro ⟨hchildren, hnames, hregistrations⟩
      exact ⟨input.children, hchildren, (), validateNames_eq_ok.2 hnames, input.registrations,
        hregistrations, rfl⟩
  constructor
  · intro hparsed
    have hcollected := hparsed
    simp only [parseInput, bind_eq_ok] at hcollected
    rcases hcollected with ⟨_, hcollect, _⟩
    rcases spells_of_collect hcollect with ⟨entries, hentries⟩
    rw [parseInput_spells hentries] at hparsed
    exact ⟨entries, hentries, (hread entries).1 hparsed⟩
  · rintro ⟨entries, hentries, hdeclared⟩
    rw [parseInput_spells hentries]
    exact (hread entries).2 hdeclared

/-- The two passes return and report what one pass over the declarations does: the first child that
is no child, then the first name that is taken, then the first registration that does not parse.
How children and registrations are mixed makes no difference. -/
theorem input_passes_agree (entries : List Entry) (stream : List TokenTree)
    (h : Spells entries stream) :
    parseInput print syn stream = readEntries print syn entries ∧
      ∀ entries' stream', Spells entries' stream' → childEntries entries' = childEntries entries →
        otherEntries entries' = otherEntries entries →
          parseInput print syn stream' = parseInput print syn stream := by
  refine ⟨parseInput_spells h, ?_⟩
  intro entries' stream' h' hchildren hothers
  calc
    parseInput print syn stream' = readEntries print syn entries' := parseInput_spells h'
    _ = readEntries print syn entries := by rw [readEntries, readEntries, hchildren, hothers]
    _ = parseInput print syn stream := (parseInput_spells h).symm

end OnePass

/-! ## A value before a child -/

def registerValue : Word :=
  ⟨false, "register_value", by decide +kernel, by decide +kernel⟩

def registerContainer : Word :=
  ⟨false, "register_container", by decide +kernel, by decide +kernel⟩

/-- `value as u64 as IValue` -/
def valueEntry : Entry :=
  ⟨registerValue, [.ident valueWord, .ident asWord, .ident u64Word] ++
    .ident asWord :: [.ident interfaceWord]⟩

/-- `value: &u64` -/
def childEntry : Entry :=
  ⟨registerContainer, [.ident valueWord, .punct ':' false, .punct '&' false, .ident u64Word]⟩

theorem spells_render {entries : List Entry} (h : ∀ e ∈ entries, reserved e.name = false) :
    Spells entries (entries.flatMap fun e => render e.name e.body) := by
  induction entries with
  | nil => exact .nil
  | cons e entries ih =>
      exact .cons (h e List.mem_cons_self) rfl rfl
        (ih fun e he => h e (List.mem_cons_of_mem _ he))

theorem valueEntry_declares :
    Declares (fun _ => "") casting valueEntry
      (stored (fun _ => "") casting 1 none false ⟨none, wordPath interfaceWord, []⟩) := by
  have htail : SpellsTail casting false ⟨none, wordPath interfaceWord, []⟩ [.ident interfaceWord] :=
    .plain (.plain (.one rfl))
  apply Declares.value rfl
  apply ReadsValue.inferred _ rfl rfl htail
  intro result hok
  have hannotated : parseAnnotated (fun _ => "") casting valueEntry.body = .error (.expected ":") :=
    rfl
  cases hannotated.symm.trans hok

theorem input_accepted_iff_mixed :
    ∃ input, parseInput (fun _ => "") casting
        ([valueEntry, childEntry].flatMap fun e => render e.name e.body) = .ok input ∧
      input.registrations.map Registration.value = [1] ∧
        (input.children.map fun child => child.name) = [valueWord] := by
  have hspells : Spells [valueEntry, childEntry]
      ([valueEntry, childEntry].flatMap fun e => render e.name e.body) :=
    spells_render (by simp [valueEntry, childEntry, reserved, registerValue, registerContainer,
      keywords])
  have hchild : DeclaresChild casting childEntry ⟨valueWord, u64Word⟩ :=
    .mk (by decide +kernel) (by decide +kernel) rfl rfl
  exact ⟨⟨[_], [_]⟩, (input_accepted_iff readWordPath_grammar _ _).2
    ⟨_, hspells, .cons hchild .nil, by simp, .cons valueEntry_declares .nil⟩, rfl, rfl⟩

theorem input_passes_agree_mixed :
    parseInput (fun _ => "") casting
        ([childEntry, valueEntry].flatMap fun e => render e.name e.body) =
      parseInput (fun _ => "") casting
        ([valueEntry, childEntry].flatMap fun e => render e.name e.body) := by
  have hnames : ∀ e ∈ [valueEntry, childEntry], reserved e.name = false := by
    simp [valueEntry, childEntry, reserved, registerValue, registerContainer, keywords]
  exact (input_passes_agree _ _ (spells_render hnames)).2 _ _
    (spells_render fun e he => hnames e (by simpa [or_comm] using he)) rfl rfl

end Parse
end Systasis
