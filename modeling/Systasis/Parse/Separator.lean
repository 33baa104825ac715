import Systasis.Parse.Grammar

/-!
# Separator — a registered value is read in one way

The type of a registered value may be left out, and `Registration::parse` in
`systasis-macros/src/parse.rs` then goes through the `as` of the body from the last to the first,
for one with an expression before and an interface group after it.  A group that ends the body
starts after one `as` only: an `as` inside a group stands between angle brackets, and the bracket
that is open there is not closed by a group that starts after it.  So the search does not choose.
-/

namespace Systasis
namespace Parse

open Lib Scoped

/-! ## Brackets -/


/-- A `+` outside brackets separates the paths of a group. -/
def walkStep (depth : Depth) : Token → Option Depth
  | .punct '+' _ => some { depth with arrow := false }
  | token => depth.step token

def walk (tokens : List Token) (depth : Depth) : Option Depth :=
  tokens.foldlM walkStep depth

theorem walk_append (front back : List Token) (depth : Depth) :
    walk (front ++ back) depth = (walk front depth).bind (walk back) := by
  simp [walk, List.foldlM_append]
  rfl

theorem walkStep_of_step {depth next : Depth} {token : Token}
    (h : depth.step token = some next) : walkStep depth token = some next := by
  unfold walkStep
  split
  · rcases depth with ⟨groups, brackets, arrow⟩
    cases groups with
    | zero =>
        cases brackets with
        | zero => cases arrow <;> simp_all [Depth.step]
        | succ brackets => cases arrow <;> simp_all [Depth.step]
    | succ groups => simp_all [Depth.step]
  · exact h

theorem walk_of_scan {tokens : List Token} : ∀ {depth after : Depth},
    scan tokens depth = some after → walk tokens depth = some after := by
  induction tokens with
  | nil =>
      intro depth after h
      exact h
  | cons token tokens ih =>
      intro depth after h
      simp only [scan, walk, List.foldlM_cons] at h ih ⊢
      rcases Option.bind_eq_some_iff.1 h with ⟨next, hstep, hrest⟩
      exact Option.bind_eq_some_iff.2 ⟨next, walkStep_of_step hstep, ih hrest⟩

/-- The same walk inside more brackets. -/
def within (depth : Depth) (more : Nat) : Depth :=
  { depth with brackets := depth.brackets + more }

/-- A punctuation character outside groups. -/
theorem step_punct {brackets : Nat} {arrow joint : Bool} {char : Char} (hplus : char ≠ '+') :
    Depth.step ⟨0, brackets, arrow⟩ (.punct char joint) =
      if char = '-' ∧ joint = true then some ⟨0, brackets, true⟩
      else if char = '>' ∧ arrow = false then
        if brackets = 0 then none else some ⟨0, brackets - 1, false⟩
      else if char = '<' ∧ arrow = false then some ⟨0, brackets + 1, false⟩
      else some ⟨0, brackets, false⟩ := by
  by_cases hopen : char = '<'
  · subst hopen
    cases arrow <;> simp [Depth.step]
  · by_cases hclose : char = '>'
    · subst hclose
      cases arrow <;> cases brackets <;> simp [Depth.step]
    · unfold Depth.step
      split <;> simp_all

theorem step_grouped {groups brackets : Nat} {arrow joint : Bool} {char : Char} :
    Depth.step ⟨groups + 1, brackets, arrow⟩ (.punct char joint) =
      some ⟨groups + 1, brackets, false⟩ := by
  unfold Depth.step
  split <;> simp_all

theorem walkStep_within {depth next : Depth} {token : Token} (more : Nat)
    (h : walkStep depth token = some next) :
    walkStep (within depth more) token = some (within next more) := by
  rcases depth with ⟨groups, brackets, arrow⟩
  cases token with
  | ident word =>
      cases groups <;> cases arrow <;> simp_all [walkStep, Depth.step, within] <;> simp [← h]
  | literal text =>
      cases groups <;> cases arrow <;> simp_all [walkStep, Depth.step, within] <;> simp [← h]
  | opening delimiter =>
      cases groups <;> cases arrow <;> simp_all [walkStep, Depth.step, within] <;> simp [← h]
  | closing delimiter =>
      cases groups <;> cases arrow <;> simp_all [walkStep, Depth.step, within] <;> simp [← h]
  | punct char joint =>
      by_cases hplus : char = '+'
      · subst hplus
        cases h
        rfl
      · have hstep : ∀ d : Depth, walkStep d (.punct char joint) = d.step (.punct char joint) := by
          intro d
          simp [walkStep, hplus]
        rw [hstep] at h ⊢
        cases groups with
        | succ groups =>
            rw [step_grouped] at h
            cases h
            exact step_grouped
        | zero =>
            rw [step_punct hplus] at h
            rw [within, step_punct hplus]
            split_ifs at h ⊢ <;> simp_all [within] <;> grind

theorem walk_within {tokens : List Token} (more : Nat) : ∀ {depth after : Depth},
    walk tokens depth = some after → walk tokens (within depth more) = some (within after more) := by
  induction tokens with
  | nil =>
      intro depth after h
      cases h
      rfl
  | cons token tokens ih =>
      intro depth after h
      simp only [walk, List.foldlM_cons] at h ih ⊢
      rcases Option.bind_eq_some_iff.1 h with ⟨next, hstep, hrest⟩
      exact Option.bind_eq_some_iff.2 ⟨within next more, walkStep_within more hstep, ih hrest⟩

/-- A keyword leaves a walk outside groups where it is. -/
theorem walk_keyword {keyword : String} {t : TokenTree} (h : isKeyword keyword t = true)
    (brackets : Nat) (arrow : Bool) : walk t.flat ⟨0, brackets, arrow⟩ = some ⟨0, brackets, false⟩ := by
  cases t with
  | ident word =>
      cases brackets <;> cases arrow <;> simp [TokenTree.flat, walk, walkStep, Depth.step]
  | punct other joint => cases h
  | literal text => cases h
  | group delimiter stream => cases h

theorem walk_plus {t : TokenTree} (h : isPunct '+' t = true) :
    walk t.flat .outside = some .outside := by
  cases t with
  | ident word => cases h
  | punct other joint =>
      simp only [isPunct, beq_iff_eq] at h
      subst h
      rfl
  | literal text => cases h
  | group delimiter stream => cases h

section Separator

variable {E Ty C R : Type} {print : List Token → String} {syn : Syn E Ty C R}

theorem walk_path (h : PathGrammar syn.path) {front : List TokenTree} {p : Path}
    (hp : syn.path front = .ok (p, [])) : walk (flatAll front) .outside = some .outside := by
  apply walk_of_scan
  rw [← h.tokens hp]
  exact p.balanced

theorem separated_walk (h : PathGrammar syn.path) {items : List Path} {tokens : List TokenTree}
    (hseparated : Parser.Separated syn.path (isPunct '+') items tokens) :
    walk (flatAll tokens) .outside = some .outside := by
  induction hseparated with
  | one halone => exact walk_path h halone
  | more halone hplus _ ih =>
      rw [flatAll_append, walk_append, walk_path h halone, Option.bind_some, flatAll, walk_append,
        walk_plus hplus, Option.bind_some, ih]

/-- An `as` in a group of paths stands between angle brackets. -/
theorem separated_inside (h : PathGrammar syn.path) {items : List Path} {tokens : List TokenTree}
    (hseparated : Parser.Separated syn.path (isPunct '+') items tokens) :
    ∀ {before after : List TokenTree} {t : TokenTree}, tokens = before ++ t :: after →
      isKeyword "as" t = true →
        ∃ brackets arrow, walk (flatAll before) .outside = some ⟨0, brackets + 1, arrow⟩ := by
  -- Within a path the grammar of paths says so.
  have hinside : ∀ {before after : List TokenTree} {t : TokenTree} {p : Path},
      syn.path (before ++ t :: after) = .ok (p, []) → isKeyword "as" t = true →
        ∃ brackets arrow, walk (flatAll before) .outside = some ⟨0, brackets + 1, arrow⟩ := by
    intro before after t p hp ht
    rcases h.inside hp ht with ⟨brackets, arrow, hscan⟩
    exact ⟨brackets, arrow, walk_of_scan hscan⟩
  induction hseparated with
  | one halone =>
      intro before after t heq ht
      exact hinside (heq ▸ halone) ht
  | @more p items front rest plus halone hplus hrest ih =>
      intro before after t heq ht
      rcases List.append_eq_append_iff.1 heq with ⟨middle, rfl, hmiddle⟩ | ⟨middle, rfl, hmiddle⟩
      · cases middle with
        | nil =>
            cases hmiddle
            cases (isKeyword_of_isPunct hplus).symm.trans ht
        | cons first middle =>
            cases hmiddle
            rcases ih rfl ht with ⟨brackets, arrow, hwalk⟩
            refine ⟨brackets, arrow, ?_⟩
            rw [flatAll_append, walk_append, walk_path h halone, Option.bind_some, flatAll,
              walk_append, walk_plus hplus, Option.bind_some, hwalk]
      · cases middle with
        | nil =>
            cases hmiddle
            cases (isKeyword_of_isPunct hplus).symm.trans ht
        | cons first middle =>
            cases hmiddle
            exact hinside halone ht

theorem reserved_of_isKeyword {keyword : String} {word : Word} (hword : keyword ∈ keywords)
    (h : isKeyword keyword (.ident word) = true) : reserved word = true := by
  simp only [isKeyword, Bool.and_eq_true, beq_iff_eq] at h
  simp only [Bool.not_eq_true'] at h
  simp [reserved, h.1, h.2, hword]

theorem isKeyword_ne {keyword other : String} (hne : keyword ≠ other) {t : TokenTree}
    (h : isKeyword keyword t = true) : isKeyword other t = false := by
  cases t with
  | ident word =>
      simp only [isKeyword, Bool.and_eq_true, beq_iff_eq] at h
      simp [isKeyword, h.2, hne]
  | punct char joint => cases h
  | literal text => cases h
  | group delimiter stream => cases h

theorem SpellsInterface.walk (h : PathGrammar syn.path) {w : Written} {tokens : List TokenTree}
    (hspells : SpellsInterface syn w tokens) :
    Parse.walk (flatAll tokens) .outside = some .outside := by
  cases hspells with
  | plain hseparated => exact separated_walk h hseparated
  | @named first others front t name hseparated ht _ =>
      have hin : Parse.walk t.flat .outside = some .outside := walk_keyword ht 0 false
      rw [flatAll_append, walk_append, separated_walk h hseparated, Option.bind_some, flatAll,
        walk_append, hin]
      rfl

theorem SpellsInterface.inside (h : PathGrammar syn.path) {w : Written} {tokens : List TokenTree}
    (hspells : SpellsInterface syn w tokens) {before after : List TokenTree} {t : TokenTree}
    (heq : tokens = before ++ t :: after) (ht : isKeyword "as" t = true) :
    ∃ brackets arrow, Parse.walk (flatAll before) .outside = some ⟨0, brackets + 1, arrow⟩ := by
  cases hspells with
  | plain hseparated => exact separated_inside h hseparated heq ht
  | @named first others front t' name hseparated ht' hname =>
      rcases List.append_eq_append_iff.1 heq with ⟨middle, rfl, hmiddle⟩ | ⟨middle, rfl, hmiddle⟩
      · -- Neither `in` nor the name is `as`.
        exfalso
        cases middle with
        | nil =>
            cases hmiddle
            cases (isKeyword_ne (by decide) ht').symm.trans ht
        | cons first middle =>
            injection hmiddle with _ hmiddle
            cases middle with
            | nil =>
                cases hmiddle
                cases hname.symm.trans (reserved_of_isKeyword (by decide) ht)
            | cons _ middle => cases middle <;> cases hmiddle
      · cases middle with
        | nil =>
            cases hmiddle
            cases (isKeyword_ne (by decide) ht').symm.trans ht
        | cons first middle =>
            cases hmiddle
            exact separated_inside h hseparated rfl ht

theorem SpellsTail.walk (h : PathGrammar syn.path) {dynamic : Bool} {w : Written}
    {tokens : List TokenTree} (hspells : SpellsTail syn dynamic w tokens) :
    Parse.walk (flatAll tokens) .outside = some .outside := by
  cases hspells with
  | plain hinterface => exact hinterface.walk h
  | @dynamic _ tokens t ht hinterface =>
      have hdyn : Parse.walk t.flat .outside = some .outside := walk_keyword ht 0 false
      rw [flatAll, walk_append, hdyn, Option.bind_some, hinterface.walk h]

theorem SpellsTail.inside (h : PathGrammar syn.path) {dynamic : Bool} {w : Written}
    {tokens : List TokenTree} (hspells : SpellsTail syn dynamic w tokens)
    {before after : List TokenTree} {t : TokenTree} (heq : tokens = before ++ t :: after)
    (ht : isKeyword "as" t = true) :
    ∃ brackets arrow, Parse.walk (flatAll before) .outside = some ⟨0, brackets + 1, arrow⟩ := by
  cases hspells with
  | plain hinterface => exact hinterface.inside h heq ht
  | @dynamic _ tokens t' ht' hinterface =>
      cases before with
      | nil =>
          cases heq
          cases (isKeyword_ne (by decide) ht').symm.trans ht
      | cons first before =>
          cases heq
          rcases hinterface.inside h rfl ht with ⟨brackets, arrow, hwalk⟩
          have hdyn : Parse.walk t'.flat .outside = some .outside := walk_keyword ht' 0 false
          exact ⟨brackets, arrow, by rw [flatAll, walk_append, hdyn, Option.bind_some, hwalk]⟩

/-- What follows an `as` inside a tail is no tail: the bracket that is open there stays open. -/
theorem SpellsTail.no_tail (h : PathGrammar syn.path) {dynamic dynamic' : Bool} {w w' : Written}
    {before after : List TokenTree} {t : TokenTree} (ht : isKeyword "as" t = true)
    (hwhole : SpellsTail syn dynamic w (before ++ t :: after))
    (hafter : SpellsTail syn dynamic' w' after) : False := by
  rcases hwhole.inside h rfl ht with ⟨brackets, arrow, hbefore⟩
  have hend : (Parse.walk (flatAll after) ⟨0, brackets + 1, false⟩) = some .outside := by
    have hwalk := hwhole.walk h
    rw [flatAll_append, walk_append, hbefore, Option.bind_some, flatAll, walk_append,
      walk_keyword ht, Option.bind_some] at hwalk
    exact hwalk
  have hopen : Parse.walk (flatAll after) (within .outside (brackets + 1)) =
      some (within .outside (brackets + 1)) := walk_within _ (hafter.walk h)
  have hsame : within .outside (brackets + 1) = ⟨0, brackets + 1, false⟩ := by
    simp [within, Depth.outside]
  rw [hsame, hend] at hopen
  simp [Depth.outside] at hopen

/-- At most one `as` of a stream has a tail after it. -/
theorem separator_unique (h : PathGrammar syn.path) {front front' back back' : List TokenTree}
    {t t' : TokenTree} {dynamic dynamic' : Bool} {w w' : Written} (ht : isKeyword "as" t = true)
    (ht' : isKeyword "as" t' = true) (hback : SpellsTail syn dynamic w back)
    (hback' : SpellsTail syn dynamic' w' back') (heq : front ++ t :: back = front' ++ t' :: back') :
    front = front' ∧ back = back' := by
  rcases List.append_eq_append_iff.1 heq with ⟨middle, rfl, hmiddle⟩ | ⟨middle, rfl, hmiddle⟩
  · cases middle with
    | nil =>
        cases hmiddle
        exact ⟨by simp, rfl⟩
    | cons first middle =>
        cases hmiddle
        exact (hback.no_tail h ht' hback').elim
  · cases middle with
    | nil =>
        cases hmiddle
        exact ⟨by simp, rfl⟩
    | cons first middle =>
        cases hmiddle
        exact (hback'.no_tail h ht hback).elim

end Separator

/-! ## Registered values -/

section Values

variable {E Ty C R : Type} {print : List Token → String} {syn : Syn E Ty C R}

/-- A registered value. -/
def stored (print : List Token → String) (syn : Syn E Ty C R) (value : E) (ty : Option Ty)
    (dynamic : Bool) (w : Written) : Registration E Ty C where
  fresh := false
  constructor := none
  fallible := false
  dynamic := dynamic
  value := value
  ty := ty.getD syn.infer
  inferValueType := ty.isNone
  interface := parseGroup print w.paths
  ns := w.namespaceOf

/-- The readings of the body of a `register_value!`.  Without a type it is read as an expression and
a tail around an `as`, whichever that is, if no type can be read. -/
inductive ReadsValue (print : List Token → String) (syn : Syn E Ty C R) :
    List TokenTree → Registration E Ty C → Prop
  | annotated {body afterValue afterType : List TokenTree} {colon as : TokenTree} {value : E} {ty : Ty}
      {dynamic : Bool} {w : Written} :
      syn.expr body = .ok (value, colon :: afterValue) → isPunct ':' colon = true →
        syn.type afterValue = .ok (ty, as :: afterType) → isKeyword "as" as = true →
          SpellsTail syn dynamic w afterType →
            ReadsValue print syn body (stored print syn value (some ty) dynamic w)
  | inferred {front back : List TokenTree} {as : TokenTree} {value : E} {dynamic : Bool} {w : Written} :
      (∀ result, parseAnnotated print syn (front ++ as :: back) ≠ .ok result) →
        isKeyword "as" as = true → syn.expr front = .ok (value, []) →
          SpellsTail syn dynamic w back →
            ReadsValue print syn (front ++ as :: back) (stored print syn value none dynamic w)

theorem parseAnnotated_eq_ok (h : PathGrammar syn.path) {body : List TokenTree}
    {r : Registration E Ty C} :
    parseAnnotated print syn body = .ok (r, []) ↔
      ∃ value colon afterValue ty as afterType dynamic w,
        syn.expr body = .ok (value, colon :: afterValue) ∧ isPunct ':' colon = true ∧
          syn.type afterValue = .ok (ty, as :: afterType) ∧ isKeyword "as" as = true ∧
            SpellsTail syn dynamic w afterType ∧ r = stored print syn value (some ty) dynamic w := by
  simp only [parseAnnotated, bind_eq_ok, Prod.exists, token_eq_ok]
  constructor
  · rintro ⟨value, _, hvalue, _, afterValue, ⟨colon, hcolon, rfl⟩, ty, _, hty, _, afterType,
      ⟨as, has, rfl⟩, htail⟩
    rcases (parseValueTail_eq_ok h).1 htail with ⟨dynamic, w, hspells, rfl⟩
    exact ⟨value, colon, afterValue, ty, as, afterType, dynamic, w, hvalue, hcolon, hty, has,
      hspells, rfl⟩
  · rintro ⟨value, colon, afterValue, ty, as, afterType, dynamic, w, hvalue, hcolon, hty, has,
      hspells, rfl⟩
    exact ⟨value, _, hvalue, (), _, ⟨colon, hcolon, rfl⟩, ty, _, hty, (), _, ⟨as, has, rfl⟩,
      (parseValueTail_eq_ok h).2 ⟨dynamic, w, hspells, rfl⟩⟩

theorem parseSides_eq_some (h : PathGrammar syn.path) {sides : List TokenTree × List TokenTree}
    {r : Registration E Ty C} :
    parseSides print syn sides = some r ↔
      ∃ value dynamic w, syn.expr sides.1 = .ok (value, []) ∧ SpellsTail syn dynamic w sides.2 ∧
        r = stored print syn value none dynamic w := by
  unfold parseSides
  cases hvalue : syn.expr.complete .unexpected sides.1 with
  | error error =>
      simp only [reduceCtorEq, false_iff]
      rintro ⟨value, _, _, hread, _⟩
      cases hvalue.symm.trans (Parser.complete_eq_ok.2 hread)
  | ok value =>
      have hread := Parser.complete_eq_ok.1 hvalue
      simp only [hread, Except.ok.injEq, Prod.mk.injEq, and_true]
      cases htail : (parseValueTail print syn value none).complete .unexpected sides.2 with
      | error error =>
          simp only [reduceCtorEq, false_iff]
          rintro ⟨_, dynamic, w, rfl, hspells, _⟩
          have hok := (@parseValueTail_eq_ok _ _ _ _ print syn h value none sides.2 _).2
            ⟨dynamic, w, hspells, rfl⟩
          cases htail.symm.trans (Parser.complete_eq_ok.2 hok)
      | ok found =>
          have hfound := Parser.complete_eq_ok.1 htail
          simp only [Option.some.injEq]
          constructor
          · rintro rfl
            rcases (parseValueTail_eq_ok h).1 hfound with ⟨dynamic, w, hspells, rfl⟩
            exact ⟨value, dynamic, w, rfl, hspells, rfl⟩
          · rintro ⟨_, dynamic, w, rfl, hspells, rfl⟩
            have hok := (@parseValueTail_eq_ok _ _ _ _ print syn h value none sides.2 _).2
              ⟨dynamic, w, hspells, rfl⟩
            have hsame := hfound.symm.trans hok
            injection hsame with hsame
            injection hsame

/-- No two `as` of a stream have an expression before and a tail after them. -/
theorem parseSides_unique (h : PathGrammar syn.path) {body : List TokenTree}
    {sides sides' : List TokenTree × List TokenTree} (hmem : sides ∈ splits (isKeyword "as") body)
    (hmem' : sides' ∈ splits (isKeyword "as") body) {r r' : Registration E Ty C}
    (hr : parseSides print syn sides = some r) (hr' : parseSides print syn sides' = some r') :
    sides = sides' := by
  rcases mem_splits.1 hmem with ⟨t, ht, hsplit⟩
  rcases mem_splits.1 hmem' with ⟨t', ht', hsplit'⟩
  rcases (parseSides_eq_some h).1 hr with ⟨_, _, _, _, hspells, _⟩
  rcases (parseSides_eq_some h).1 hr' with ⟨_, _, _, _, hspells', _⟩
  rcases separator_unique h ht ht' hspells hspells' (hsplit.symm.trans hsplit') with ⟨hfront, hback⟩
  exact Prod.ext hfront hback

/-- A search through the candidates, in whichever order, finds the one that reads. -/
theorem search_eq_some (h : PathGrammar syn.path) {body : List TokenTree}
    {candidates : List (List TokenTree × List TokenTree)}
    (hperm : candidates.Perm (splits (isKeyword "as") body)) {r : Registration E Ty C} :
    candidates.findSome? (parseSides print syn) = some r ↔
      ∃ sides ∈ splits (isKeyword "as") body, parseSides print syn sides = some r := by
  rw [findSome?_eq_some_of_unique]
  · exact exists_congr fun sides => and_congr_left fun _ => hperm.mem_iff
  · intro sides hmem sides' hmem' c d hc hd
    cases parseSides_unique h (hperm.mem_iff.1 hmem) (hperm.mem_iff.1 hmem') hc hd
    exact Option.some.inj (hc.symm.trans hd)

theorem parseRegistration_eq_ok (h : PathGrammar syn.path) {body : List TokenTree}
    {r : Registration E Ty C} :
    parseRegistration print syn body = .ok (r, []) ↔ ReadsValue print syn body r := by
  unfold parseRegistration
  cases hannotated : parseAnnotated print syn body with
  | ok result =>
      simp only [Except.ok.injEq]
      constructor
      · rintro rfl
        rcases (parseAnnotated_eq_ok h).1 hannotated with
          ⟨value, colon, afterValue, ty, as, afterType, dynamic, w, hvalue, hcolon, hty, has,
            hspells, rfl⟩
        exact .annotated hvalue hcolon hty has hspells
      · intro hreads
        cases hreads with
        | annotated hvalue hcolon hty has hspells =>
            have hok := (@parseAnnotated_eq_ok _ _ _ _ print syn h body _).2
              ⟨_, _, _, _, _, _, _, _, hvalue, hcolon, hty, has, hspells, rfl⟩
            exact Except.ok.inj (hannotated.symm.trans hok)
        | inferred hnone _ _ _ => exact absurd hannotated (hnone result)
  | error error =>
      have hfound := @search_eq_some _ _ _ _ print syn h body _
        (List.reverse_perm (splits (isKeyword "as") body)) r
      constructor
      · intro hparsed
        simp only at hparsed
        split at hparsed
        · rename_i found hsome
          cases hparsed
          rcases hfound.1 hsome with ⟨⟨front, back⟩, hmem, hsides⟩
          rcases mem_splits.1 hmem with ⟨as, has, rfl⟩
          rcases (parseSides_eq_some h).1 hsides with ⟨value, dynamic, w, hvalue, hspells, rfl⟩
          refine .inferred ?_ has hvalue hspells
          intro result hok
          cases hannotated.symm.trans hok
        · cases hparsed
      · intro hreads
        cases hreads with
        | annotated hvalue hcolon hty has hspells =>
            have hok := (@parseAnnotated_eq_ok _ _ _ _ print syn h body _).2
              ⟨_, _, _, _, _, _, _, _, hvalue, hcolon, hty, has, hspells, rfl⟩
            cases hannotated.symm.trans hok
        | @inferred front back as value dynamic w _ has hvalue hspells =>
            have hsides : parseSides print syn (front, back) =
                some (stored print syn value none dynamic w) :=
              (parseSides_eq_some h).2 ⟨value, dynamic, w, hvalue, hspells, rfl⟩
            have hsome := hfound.2 ⟨_, mem_splits.2 ⟨as, has, rfl⟩, hsides⟩
            simp only [hsome]

/-- The body of a `register_value!` is accepted exactly when it has a reading, and the search for
the separator finds the same one in whichever order it goes through the candidates. -/
theorem registration_unambiguous (h : PathGrammar syn.path) (body : List TokenTree) :
    (∀ r, parseRegistration print syn body = .ok (r, []) ↔ ReadsValue print syn body r) ∧
      ∀ candidates : List (List TokenTree × List TokenTree),
        candidates.Perm (splits (isKeyword "as") body) →
        candidates.findSome? (parseSides print syn) =
          (splits (isKeyword "as") body).reverse.findSome? (parseSides print syn) := by
  refine ⟨fun r => parseRegistration_eq_ok h, ?_⟩
  intro candidates hperm
  apply Option.ext
  intro r
  rw [search_eq_some h hperm, search_eq_some h (List.reverse_perm _)]

end Values

/-! ## A value with a cast -/

theorem word_complete (word : Word) : Complete [Token.ident word] :=
  ⟨[], .ident word, rfl, by simp⟩

theorem word_balanced (word : Word) : scan [.ident word] .outside = some .outside := rfl

theorem word_ending (word : Word) : ∀ front first last,
    [Token.ident word] = front ++ [.ident first, .ident last] → first.name = "in" →
      ¬Complete front := by
  intro front first last heq
  have hlength := congrArg List.length heq
  simp at hlength

/-- The path of one identifier. -/
def wordPath (word : Word) : Path where
  tokens := [.ident word]
  complete := word_complete word
  balanced := word_balanced word
  ending := word_ending word

/-- Paths of one identifier. -/
def readWordPath : Reader Path := fun tokens =>
  match ident tokens with
  | .error error => .error error
  | .ok (word, rest) => .ok (wordPath word, rest)

theorem readWordPath_eq_ok {tokens rest : List TokenTree} {p : Path} :
    readWordPath tokens = .ok (p, rest) ↔
      ∃ word, reserved word = false ∧ tokens = .ident word :: rest ∧ p = wordPath word := by
  unfold readWordPath
  cases hident : ident tokens with
  | error error =>
      simp only [reduceCtorEq, false_iff]
      rintro ⟨word, hword, rfl, _⟩
      cases hident.symm.trans (ident_eq_ok.2 ⟨hword, rfl⟩)
  | ok found =>
      rcases found with ⟨word, rest'⟩
      rcases ident_eq_ok.1 hident with ⟨hword, rfl⟩
      simp only [Except.ok.injEq, Prod.mk.injEq, List.cons.injEq, TokenTree.ident.injEq]
      constructor
      · rintro ⟨rfl, rfl⟩
        exact ⟨word, hword, ⟨rfl, rfl⟩, rfl⟩
      · rintro ⟨_, _, ⟨rfl, rfl⟩, rfl⟩
        exact ⟨rfl, rfl⟩

theorem readWordPath_grammar : PathGrammar readWordPath where
  isLocal :=
    { front := by
        intro tokens rest p hread
        rcases readWordPath_eq_ok.1 hread with ⟨word, hword, rfl, rfl⟩
        exact ⟨[.ident word], rfl, readWordPath_eq_ok.2 ⟨word, hword, rfl, rfl⟩⟩
      follow := by
        intro front rest p hread _
        rcases readWordPath_eq_ok.1 hread with ⟨word, hword, rfl, rfl⟩
        exact readWordPath_eq_ok.2 ⟨word, hword, rfl, rfl⟩
      nonempty := by
        intro p hread
        rcases readWordPath_eq_ok.1 hread with ⟨word, _, hnil, _⟩
        cases hnil }
  tokens := by
    intro front p hread
    rcases readWordPath_eq_ok.1 hread with ⟨word, _, rfl, rfl⟩
    rfl
  inside := by
    intro before after t p hread ht
    rcases readWordPath_eq_ok.1 hread with ⟨word, hword, heq, _⟩
    cases before with
    | nil =>
        cases heq
        cases hword.symm.trans (reserved_of_isKeyword (by decide) ht)
    | cons first before => cases before <;> cases heq
  leading := by
    intro t after p hread
    rcases readWordPath_eq_ok.1 hread with ⟨word, hword, heq, _⟩
    cases heq
    cases hdyn : isKeyword "dyn" (.ident word) with
    | false => rfl
    | true => cases hword.symm.trans (reserved_of_isKeyword (by decide) hdyn)

/-- The casts after a variable, with their number. -/
def readCasts : List TokenTree → Nat × List TokenTree
  | .ident keyword :: .ident ty :: rest =>
      if isKeyword "as" (.ident keyword) && !reserved ty then
        ((readCasts rest).1 + 1, (readCasts rest).2)
      else (0, .ident keyword :: .ident ty :: rest)
  | rest => (0, rest)

def underscore : Word :=
  ⟨false, "_", by decide, by decide⟩

def asWord : Word :=
  ⟨false, "as", by decide, by decide⟩

def valueWord : Word :=
  ⟨false, "value", by decide, by decide⟩

def u64Word : Word :=
  ⟨false, "u64", by decide, by decide⟩

def interfaceWord : Word :=
  ⟨false, "ITotal", by decide, by decide⟩

/-- `&Type` or `&mut Type` of one identifier. -/
def readReference : Reader (Bool × Word)
  | .punct '&' _ :: rest =>
      match option (isKeyword "mut") rest with
      | (mutability, rest) =>
          match ident rest with
          | .error error => .error error
          | .ok (ty, rest) => .ok ((mutability, ty), rest)
  | _ => .error (.expected "&")

/-- A variable and casts of it, as expressions, with types and paths of one identifier. -/
def casting : Syn Nat Word Unit Word where
  expr := fun tokens =>
    match ident tokens with
    | .error error => .error error
    | .ok (_, rest) => .ok (readCasts rest)
  type := ident
  closure := fun _ => .error (.expected "closure")
  path := readWordPath
  reference := readReference
  unit := 0
  infer := underscore

/-- In `value as u64 as IValue` the cast belongs to the value. -/
theorem registration_unambiguous_cast :
    ∃ r, parseRegistration (fun _ => "") casting
        ([.ident valueWord, .ident asWord, .ident u64Word] ++ .ident asWord :: [.ident interfaceWord]) =
          .ok (r, []) ∧ r.value = 1 := by
  have hannotated : parseAnnotated (fun _ => "") casting
      ([.ident valueWord, .ident asWord, .ident u64Word] ++ .ident asWord :: [.ident interfaceWord]) =
        .error (.expected ":") := rfl
  have htail : SpellsTail casting false ⟨none, wordPath interfaceWord, []⟩ [.ident interfaceWord] :=
    .plain (.plain (.one rfl))
  have hreads : ReadsValue (fun _ => "") casting
      ([.ident valueWord, .ident asWord, .ident u64Word] ++ .ident asWord :: [.ident interfaceWord])
      (stored (fun _ => "") casting 1 none false ⟨none, wordPath interfaceWord, []⟩) := by
    apply ReadsValue.inferred _ rfl rfl htail
    intro result hok
    cases hannotated.symm.trans hok
  exact ⟨_, ((registration_unambiguous readWordPath_grammar _).1 _).2 hreads, rfl⟩

end Parse
end Systasis
