import Mathlib.Data.List.Nodup
import Systasis.Parse.Declarations

/-!
# Requirements — the arguments of the container attribute

Model of `systasis-macros/src/requirements.rs`: nothing, or `require(..)` with a list of the
requirements `Send`, `Sync` and `!Sync`, none of them twice and `Sync` not in both forms.
-/

namespace Systasis
namespace Parse

open Lib Scoped

/-! ## The parser -/

/-- `requirements::Requirements` -/
structure Requirements where
  localPolicy : Bool
  positive : List Word

def Requirements.none : Requirements where
  localPolicy := false
  positive := []

/-- The arms of the `match` on a requirement. -/
def Requirements.add (result : Requirements) (negative : Bool) (name : Word) :
    Except Diagnostic Requirements :=
  if negative && named "Sync" name && !result.localPolicy then
    .ok { result with localPolicy := true }
  else if !negative && (named "Send" name || named "Sync" name) && !result.positive.contains name then
    .ok { result with positive := result.positive ++ [name] }
  else .error (.message "expected distinct Send, Sync, or !Sync requirements")

/-- The loop over the content of `require(..)`, which is not empty; the first argument bounds the
number of requirements. -/
def readRequirements : Nat → List TokenTree → Requirements → Except Diagnostic Requirements
  | 0, _, _ => .error (.expected "identifier")
  | fuel + 1, tokens, result => do
      let (negative, rest) := option (isPunct '!') tokens
      let (name, rest) ← ident rest
      let result ← result.add negative name
      match rest with
      | [] => .ok result
      | comma :: rest =>
          if isPunct ',' comma then
            match rest with
            | [] => .ok result
            | next :: rest => readRequirements fuel (next :: rest) result
          else .error (.expected ",")

/-- `Requirements::parse` -/
def parseRequirements : List TokenTree → Except Diagnostic Requirements
  | [] => .ok .none
  | .ident keyword :: rest =>
      if reserved keyword then .error (.expected "identifier")
      else if !named "require" keyword then .error (.message "expected require(...)")
      else
        match rest with
        | .group .parenthesis content :: rest =>
            if content.isEmpty then .error (.message "require expects Send, Sync, or !Sync")
            else
              match readRequirements content.length content .none with
              | .error error => .error error
              | .ok result =>
                  if result.localPolicy && result.positive.any (named "Sync") then
                    .error (.message "Sync and !Sync cannot be required together")
                  else if !rest.isEmpty then
                    .error (.message "unexpected container attribute arguments")
                  else .ok result
        | _ => .error (.expected "parentheses")
  | _ :: _ => .error (.expected "identifier")

/-! ## Lists of requirements -/

inductive Requirement where
  | send
  | sync
  | notSync
  deriving DecidableEq

def sendWord : Word :=
  ⟨false, "Send", by decide +kernel, by decide +kernel⟩

def syncWord : Word :=
  ⟨false, "Sync", by decide +kernel, by decide +kernel⟩

/-- The requirement a name stands for, after a `!` or without one. -/
def Requirement.of (negative : Bool) (name : Word) : Option Requirement :=
  if negative then
    if name = syncWord then some .notSync else none
  else if name = sendWord then some .send
  else if name = syncWord then some .sync
  else none

/-- The name of a positive requirement. -/
def Requirement.positive : Requirement → Option Word
  | .send => some sendWord
  | .sync => some syncWord
  | .notSync => none

/-- What is recorded of a list of requirements. -/
def Requirements.of (items : List Requirement) : Requirements where
  localPolicy := decide (.notSync ∈ items)
  positive := items.filterMap Requirement.positive

/-- A requirement as it is written. -/
def SpellsRequirement (r : Requirement) (front : List TokenTree) : Prop :=
  (∃ name, front = [.ident name] ∧ Requirement.of false name = some r) ∨
    ∃ bang name, front = [bang, .ident name] ∧ isPunct '!' bang = true ∧
      Requirement.of true name = some r

/-- Requirements between commas; one may follow the last. -/
inductive SpellsRequirements : List Requirement → List TokenTree → Prop
  | last {r : Requirement} {front : List TokenTree} :
      SpellsRequirement r front → SpellsRequirements [r] front
  | trailing {r : Requirement} {front : List TokenTree} {comma : TokenTree} :
      SpellsRequirement r front → isPunct ',' comma = true → SpellsRequirements [r] (front ++ [comma])
  | more {r : Requirement} {others : List Requirement} {front rest : List TokenTree}
      {comma : TokenTree} :
      SpellsRequirement r front → isPunct ',' comma = true → SpellsRequirements others rest →
        SpellsRequirements (r :: others) (front ++ comma :: rest)

theorem named_eq {word : Word} {text : String} (hraw : word.raw = false) (hname : word.name = text)
    (name : Word) : named text name = decide (name = word) := by
  apply Bool.eq_iff_iff.2
  simp only [named, isKeyword, Bool.and_eq_true, Bool.not_eq_true', beq_iff_eq, decide_eq_true_eq]
  constructor
  · rintro ⟨hraw', hname'⟩
    exact Word.ext (hraw'.trans hraw.symm) (hname'.trans hname.symm)
  · rintro rfl
    exact ⟨hraw, hname⟩

theorem syncWord_ne_sendWord : syncWord ≠ sendWord := by decide +kernel

theorem Requirement.positive_injective {r r' : Requirement} {word : Word}
    (hr : r.positive = some word) (hr' : r'.positive = some word) : r = r' := by
  cases r with
  | send =>
      cases r' with
      | send => rfl
      | sync => exact absurd (Option.some.inj (hr'.trans hr.symm)) syncWord_ne_sendWord
      | notSync => cases hr'
  | sync =>
      cases r' with
      | send => exact absurd (Option.some.inj (hr.trans hr'.symm)) syncWord_ne_sendWord
      | sync => rfl
      | notSync => cases hr'
  | notSync => cases hr

theorem mem_positive {items : List Requirement} {r : Requirement} {word : Word}
    (hr : r.positive = some word) :
    word ∈ items.filterMap Requirement.positive ↔ r ∈ items := by
  rw [List.mem_filterMap]
  constructor
  · rintro ⟨other, hother, hword⟩
    exact Requirement.positive_injective hword hr ▸ hother
  · intro hmem
    exact ⟨r, hmem, hr⟩

/-- `Sync` is recorded in both forms exactly when both are in the list. -/
theorem conflict_of {items : List Requirement} :
    ((Requirements.of items).localPolicy &&
        (Requirements.of items).positive.any (named "Sync")) = true ↔
      .sync ∈ items ∧ .notSync ∈ items := by
  rw [Bool.and_eq_true, List.any_eq_true, and_comm]
  apply and_congr
  · rw [← @mem_positive items .sync syncWord rfl]
    constructor
    · rintro ⟨name, hname, hsync⟩
      have hword : name = syncWord :=
        of_decide_eq_true ((@named_eq syncWord _ rfl rfl name).symm.trans hsync)
      exact hword ▸ hname
    · intro hsync
      exact ⟨syncWord, hsync, by decide +kernel⟩
  · exact decide_eq_true_iff

/-- One turn of the `match`: a requirement that is not there yet is added at the end. -/
theorem add_of (items : List Requirement) (negative : Bool) (name : Word) :
    (Requirements.of items).add negative name =
      match Requirement.of negative name with
      | some r =>
          if r ∈ items then
            .error (.message "expected distinct Send, Sync, or !Sync requirements")
          else .ok (Requirements.of (items ++ [r]))
      | none => .error (.message "expected distinct Send, Sync, or !Sync requirements") := by
  have hsend : named "Send" name = decide (name = sendWord) :=
    @named_eq sendWord _ rfl rfl name
  have hsync : named "Sync" name = decide (name = syncWord) :=
    @named_eq syncWord _ rfl rfl name
  unfold Requirements.add
  rw [hsend, hsync]
  cases negative with
  | true =>
      by_cases hname : name = syncWord
      · by_cases hmem : Requirement.notSync ∈ items
        · simp [Requirement.of, hname, hmem, Requirements.of]
        · simp [Requirement.of, hname, hmem, Requirements.of, Requirement.positive]
      · simp [Requirement.of, hname]
  | false =>
      by_cases hname : name = sendWord
      · subst hname
        have hcontains := @mem_positive items .send sendWord rfl
        by_cases hmem : Requirement.send ∈ items
        · simp [Requirement.of, Requirements.of, hcontains, hmem]
        · simp [Requirement.of, Requirements.of, hcontains, hmem, Requirement.positive]
      · by_cases hname' : name = syncWord
        · subst hname'
          have hcontains := @mem_positive items .sync syncWord rfl
          by_cases hmem : Requirement.sync ∈ items
          · simp [Requirement.of, Requirements.of, hcontains, hmem, hname]
          · simp [Requirement.of, Requirements.of, hcontains, hmem, hname, Requirement.positive]
        · simp [Requirement.of, hname, hname']

/-- A requirement at the start of a stream. -/
theorem requirement_eq_ok {items : List Requirement} {tokens rest : List TokenTree}
    {result : Requirements} :
    (∃ name after, ident (option (isPunct '!') tokens).2 = .ok (name, after) ∧
        (Requirements.of items).add (option (isPunct '!') tokens).1 name = .ok result ∧
          after = rest) ↔
      ∃ r front, tokens = front ++ rest ∧ SpellsRequirement r front ∧ r ∉ items ∧
        result = Requirements.of (items ++ [r]) := by
  have hadd : ∀ negative name, (Requirements.of items).add negative name = .ok result ↔
      ∃ r, Requirement.of negative name = some r ∧ r ∉ items ∧
        result = Requirements.of (items ++ [r]) := by
    intro negative name
    rw [add_of]
    cases Requirement.of negative name with
    | none => simp
    | some r =>
        by_cases hmem : r ∈ items
        · simp [hmem]
        · simp [hmem, eq_comm]
  simp only [hadd, ident_eq_ok]
  constructor
  · rintro ⟨name, after, ⟨_, htokens⟩, ⟨r, hof, hmem, rfl⟩, rfl⟩
    cases hoption : option (isPunct '!') tokens with
    | mk negative found =>
        rw [hoption] at htokens hof
        simp only at htokens hof
        subst htokens
        cases negative with
        | true =>
            rcases option_true.1 hoption with ⟨bang, hbang, rfl⟩
            exact ⟨r, [bang, .ident name], rfl, .inr ⟨bang, name, rfl, hbang, hof⟩, hmem, rfl⟩
        | false =>
            rcases option_false.1 hoption with ⟨rfl, _⟩
            exact ⟨r, [.ident name], rfl, .inl ⟨name, rfl, hof⟩, hmem, rfl⟩
  · rintro ⟨r, front, rfl, hspells, hmem, rfl⟩
    have hlegal : ∀ {negative : Bool} {name : Word}, Requirement.of negative name = some r →
        reserved name = false := by
      intro negative name hof
      have hname : name = syncWord ∨ name = sendWord := by
        unfold Requirement.of at hof
        grind
      rcases hname with rfl | rfl
      · decide +kernel
      · decide +kernel
    rcases hspells with ⟨name, rfl, hof⟩ | ⟨bang, name, rfl, hbang, hof⟩
    · have hoption : option (isPunct '!') ([.ident name] ++ rest) = (false, .ident name :: rest) :=
        option_false.2 ⟨rfl, by simp [isPunct]⟩
      rw [hoption]
      exact ⟨name, rest, ⟨hlegal hof, rfl⟩, ⟨r, hof, hmem, rfl⟩, rfl⟩
    · have hoption : option (isPunct '!') ([bang, .ident name] ++ rest) =
          (true, .ident name :: rest) := option_true.2 ⟨bang, hbang, rfl⟩
      rw [hoption]
      exact ⟨name, rest, ⟨hlegal hof, rfl⟩, ⟨r, hof, hmem, rfl⟩, rfl⟩

theorem SpellsRequirement.length_pos {r : Requirement} {front : List TokenTree}
    (h : SpellsRequirement r front) : 0 < front.length := by
  rcases h with ⟨name, rfl, _⟩ | ⟨bang, name, rfl, _, _⟩
  · simp
  · simp

theorem SpellsRequirements.length_pos {items : List Requirement} {tokens : List TokenTree}
    (h : SpellsRequirements items tokens) : 0 < tokens.length := by
  cases h with
  | last hspells => exact hspells.length_pos
  | trailing _ _ => simp
  | more _ _ _ => simp

/-- One turn of the loop. -/
theorem readRequirements_succ {fuel : Nat} {items : List Requirement} {tokens : List TokenTree}
    {result : Requirements} :
    readRequirements (fuel + 1) tokens (Requirements.of items) = .ok result ↔
      ∃ r front rest, tokens = front ++ rest ∧ SpellsRequirement r front ∧ r ∉ items ∧
        ((rest = [] ∧ result = Requirements.of (items ++ [r])) ∨
          ∃ comma after, rest = comma :: after ∧ isPunct ',' comma = true ∧
            ((after = [] ∧ result = Requirements.of (items ++ [r])) ∨
              after ≠ [] ∧
                readRequirements fuel after (Requirements.of (items ++ [r])) = .ok result)) := by
  have hcontinue : ∀ r rest, (match rest with
      | [] => .ok (Requirements.of (items ++ [r]))
      | comma :: rest =>
          if isPunct ',' comma then
            match rest with
            | [] => .ok (Requirements.of (items ++ [r]))
            | next :: rest => readRequirements fuel (next :: rest) (Requirements.of (items ++ [r]))
          else .error (.expected ",") : Except Diagnostic Requirements) = .ok result ↔
      ((rest = [] ∧ result = Requirements.of (items ++ [r])) ∨
        ∃ comma after, rest = comma :: after ∧ isPunct ',' comma = true ∧
          ((after = [] ∧ result = Requirements.of (items ++ [r])) ∨
            after ≠ [] ∧
              readRequirements fuel after (Requirements.of (items ++ [r])) = .ok result)) := by
    intro r rest
    have hresult : (Except.ok (Requirements.of (items ++ [r])) : Except Diagnostic Requirements) =
        .ok result ↔ result = Requirements.of (items ++ [r]) := by
      rw [Except.ok.injEq]
      exact eq_comm
    cases rest with
    | nil => simp [hresult]
    | cons comma after =>
        by_cases hcomma : isPunct ',' comma = true
        · cases after with
          | nil => simp [hcomma, hresult]
          | cons next after => simp [hcomma]
        · simp [hcomma]
  have hturn := fun rest added => @requirement_eq_ok items tokens rest added
  simp only [readRequirements, bind_eq_ok, Prod.exists]
  constructor
  · rintro ⟨name, after, hname, added, hadded, hrest⟩
    rcases (hturn after added).1 ⟨name, after, hname, hadded, rfl⟩ with
      ⟨r, front, htokens, hspells, hmem, rfl⟩
    exact ⟨r, front, after, htokens, hspells, hmem, (hcontinue r after).1 hrest⟩
  · rintro ⟨r, front, rest, htokens, hspells, hmem, hrest⟩
    rcases (hturn rest _).2 ⟨r, front, htokens, hspells, hmem, rfl⟩ with
      ⟨name, after, hname, hadded, rfl⟩
    exact ⟨name, after, hname, _, hadded, (hcontinue r after).2 hrest⟩

/-- The loop accepts exactly the lists of requirements none of which is there already. -/
theorem readRequirements_eq_ok {fuel : Nat} : ∀ {items : List Requirement}
    {tokens : List TokenTree} {result : Requirements}, items.Nodup → tokens.length ≤ fuel →
      (readRequirements fuel tokens (Requirements.of items) = .ok result ↔
        ∃ others, SpellsRequirements others tokens ∧ (items ++ others).Nodup ∧
          result = Requirements.of (items ++ others)) := by
  induction fuel with
  | zero =>
      intro items tokens result _ hlength
      simp only [readRequirements, reduceCtorEq, false_iff]
      rintro ⟨others, hspells, _⟩
      have := hspells.length_pos
      omega
  | succ fuel ih =>
      intro items tokens result hitems hlength
      have hgrown : ∀ {r}, r ∉ items → (items ++ [r]).Nodup := by
        intro r hr
        apply List.nodup_append.2 ⟨hitems, List.nodup_singleton r, _⟩
        intro a ha b hb hab
        exact hr (List.mem_singleton.1 hb ▸ hab ▸ ha)
      have hfresh : ∀ {r others}, (items ++ r :: others).Nodup → r ∉ items := by
        intro r others hnodup hr
        exact (List.nodup_append.1 hnodup).2.2 r hr r List.mem_cons_self rfl
      rw [readRequirements_succ]
      constructor
      · rintro ⟨r, front, rest, rfl, hspells, hr, ⟨rfl, rfl⟩ | ⟨comma, after, rfl, hcomma,
          ⟨rfl, rfl⟩ | ⟨_, hrest⟩⟩⟩
        · exact ⟨[r], by simpa using .last hspells, hgrown hr, rfl⟩
        · exact ⟨[r], .trailing hspells hcomma, hgrown hr, rfl⟩
        · have hpos := hspells.length_pos
          rcases (ih (hgrown hr) (by simp at hlength; omega)).1 hrest with
            ⟨others, hothers, hnodup, rfl⟩
          exact ⟨r :: others, .more hspells hcomma hothers, by simpa using hnodup, by simp⟩
      · rintro ⟨others, hothers, hnodup, rfl⟩
        cases hothers with
        | @last r front hspells =>
            exact ⟨r, tokens, [], by simp, hspells, hfresh hnodup, .inl ⟨rfl, rfl⟩⟩
        | @trailing r front comma hspells hcomma =>
            exact ⟨r, front, [comma], rfl, hspells, hfresh hnodup,
              .inr ⟨comma, [], rfl, hcomma, .inl ⟨rfl, rfl⟩⟩⟩
        | @more r others front rest comma hspells hcomma hothers =>
            have hpos := hspells.length_pos
            have hr := hfresh hnodup
            have hne : rest ≠ [] := List.ne_nil_of_length_pos hothers.length_pos
            refine ⟨r, front, comma :: rest, rfl, hspells, hr,
              .inr ⟨comma, rest, rfl, hcomma, .inr ⟨hne, ?_⟩⟩⟩
            apply (ih (hgrown hr) (by simp at hlength; omega)).2
            exact ⟨others, hothers, by simpa using hnodup, by simp⟩

/-- The checks around the loop. -/
theorem parseRequirements_eq_ok {tokens : List TokenTree} {result : Requirements} :
    parseRequirements tokens = .ok result ↔
      (tokens = [] ∧ result = .none) ∨
        ∃ keyword content, tokens = [.ident keyword, .group .parenthesis content] ∧
          reserved keyword = false ∧ named "require" keyword = true ∧ content ≠ [] ∧
            readRequirements content.length content .none = .ok result ∧
              (result.localPolicy && result.positive.any (named "Sync")) = false := by
  constructor
  · intro hparse
    match tokens with
    | [] => exact .inl ⟨rfl, (Except.ok.inj hparse).symm⟩
    | .ident keyword :: .group .parenthesis content :: after =>
        simp only [parseRequirements] at hparse
        cases hread : readRequirements content.length content .none with
        | error error => grind
        | ok recorded => grind
    | [.ident keyword] => grind [parseRequirements]
    | .ident keyword :: .ident _ :: _ => grind [parseRequirements]
    | .ident keyword :: .punct _ _ :: _ => grind [parseRequirements]
    | .ident keyword :: .literal _ :: _ => grind [parseRequirements]
    | .ident keyword :: .group .brace _ :: _ => grind [parseRequirements]
    | .ident keyword :: .group .bracket _ :: _ => grind [parseRequirements]
    | .ident keyword :: .group .none _ :: _ => grind [parseRequirements]
    | .punct _ _ :: _ => cases hparse
    | .literal _ :: _ => cases hparse
    | .group _ _ :: _ => cases hparse
  · rintro (⟨rfl, rfl⟩ | ⟨keyword, content, rfl, hlegal, hkeyword, hcontent, hread, hconflict⟩)
    · rfl
    · simp [parseRequirements, hlegal, hkeyword, hcontent, hread, hconflict]

/-- The arguments that are accepted: none, or one list of requirements without repetition and
without `Sync` in both forms; these are what is recorded. -/
theorem requirements_accepted_iff (tokens : List TokenTree) (result : Requirements) :
    parseRequirements tokens = .ok result ↔
      (tokens = [] ∧ result = Requirements.of []) ∨
        ∃ keyword content items, tokens = [.ident keyword, .group .parenthesis content] ∧
          named "require" keyword = true ∧ SpellsRequirements items content ∧ items.Nodup ∧
            ¬(.sync ∈ items ∧ .notSync ∈ items) ∧ result = Requirements.of items := by
  have hread : ∀ content, readRequirements content.length content .none = .ok result ↔
      ∃ items, SpellsRequirements items content ∧ items.Nodup ∧ result = Requirements.of items := by
    intro content
    exact @readRequirements_eq_ok content.length [] content result List.nodup_nil le_rfl
  have hlegal : ∀ {keyword}, named "require" keyword = true → reserved keyword = false := by
    intro keyword hkeyword
    have hword : keyword = ⟨false, "require", by decide, by decide⟩ :=
      of_decide_eq_true ((named_eq rfl rfl keyword).symm.trans hkeyword)
    subst hword
    decide +kernel
  rw [parseRequirements_eq_ok]
  apply or_congr Iff.rfl
  constructor
  · rintro ⟨keyword, content, htokens, _, hkeyword, _, hrecorded, hconflict⟩
    rcases (hread content).1 hrecorded with ⟨items, hitems, hnodup, rfl⟩
    refine ⟨keyword, content, items, htokens, hkeyword, hitems, hnodup, ?_, rfl⟩
    exact fun hmem => absurd (conflict_of.2 hmem) (by simp [hconflict])
  · rintro ⟨keyword, content, items, htokens, hkeyword, hitems, hnodup, hmem, rfl⟩
    refine ⟨keyword, content, htokens, hlegal hkeyword, hkeyword,
      List.ne_nil_of_length_pos hitems.length_pos, (hread content).2 ⟨items, hitems, hnodup, rfl⟩, ?_⟩
    exact Bool.eq_false_iff.2 fun h => hmem (conflict_of.1 h)

end Parse
end Systasis
