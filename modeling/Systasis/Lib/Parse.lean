import Mathlib.Data.List.Forall2

/-!
# Parse — parsers that read a prefix of a stream

A parser returns what it has read with the tokens left over.  What such a parser makes of its input
can be stated without the rest of the stream when it is `Local`: it reads a prefix that it would also
read alone, and goes on to do so before every token it ends at.
-/

namespace Systasis
namespace Lib

variable {T ε α β : Type}

abbrev Parser (T ε α : Type) : Type := List T → Except ε (α × List T)

theorem bind_eq_ok {x : Except ε α} {f : α → Except ε β} {b : β} :
    x >>= f = .ok b ↔ ∃ a, x = .ok a ∧ f a = .ok b := by
  cases x with
  | error e => simp [bind, Except.bind]
  | ok a => simp [bind, Except.bind]

theorem mapM_eq_ok {f : α → Except ε β} {items : List α} : ∀ {results : List β},
    items.mapM f = .ok results ↔ List.Forall₂ (fun a b => f a = .ok b) items results := by
  induction items with
  | nil =>
      intro results
      cases results <;> simp [pure, Except.pure]
  | cons a items ih =>
      intro results
      rw [List.mapM_cons, bind_eq_ok]
      simp only [bind_eq_ok, ih, pure, Except.pure, Except.ok.injEq]
      constructor
      · rintro ⟨b, hb, others, hothers, rfl⟩
        exact .cons hb hothers
      · intro hall
        cases hall with
        | cons hb hothers => exact ⟨_, hb, _, hothers, rfl⟩

namespace Parser

/-- Nothing may be left over. -/
def complete (p : Parser T ε α) (leftover : ε) (tokens : List T) : Except ε α :=
  match p tokens with
  | .error e => .error e
  | .ok (a, []) => .ok a
  | .ok (_, _ :: _) => .error leftover

theorem complete_eq_ok {p : Parser T ε α} {leftover : ε} {tokens : List T} {a : α} :
    p.complete leftover tokens = .ok a ↔ p tokens = .ok (a, []) := by
  unfold complete
  split
  · simp_all
  · simp_all
  · simp_all

/-- `ends` are tokens that the parser stops at. -/
structure Local (p : Parser T ε α) (ends : T → Bool) : Prop where
  front : ∀ {tokens rest : List T} {a : α}, p tokens = .ok (a, rest) →
    ∃ front, tokens = front ++ rest ∧ p front = .ok (a, [])
  follow : ∀ {front rest : List T} {a : α}, p front = .ok (a, []) →
    (∀ t ∈ rest.head?, ends t = true) → p (front ++ rest) = .ok (a, rest)
  nonempty : ∀ {a : α}, p [] ≠ .ok (a, [])

/-! ## Separated items -/

section Separated

variable (item : Parser T ε α) (separator : T → Bool)

/-- Items as long as a separator follows; the first argument bounds their number. -/
def separatedFrom (stuck : ε) : Nat → Parser T ε (List α)
  | 0, _ => .error stuck
  | fuel + 1, tokens =>
      match item tokens with
      | .error e => .error e
      | .ok (a, []) => .ok ([a], [])
      | .ok (a, t :: rest) =>
          if separator t then
            match separatedFrom stuck fuel rest with
            | .error e => .error e
            | .ok (others, rest) => .ok (a :: others, rest)
          else .ok ([a], t :: rest)

/-- Every item but the last is followed by a separator, so there are no more than tokens. -/
def separated (stuck : ε) : Parser T ε (List α) := fun tokens =>
  separatedFrom item separator stuck (tokens.length + 1) tokens

inductive Separated : List α → List T → Prop
  | one {a : α} {front : List T} : item front = .ok (a, []) → Separated [a] front
  | more {a : α} {others : List α} {front rest : List T} {t : T} :
      item front = .ok (a, []) → separator t = true → Separated others rest →
        Separated (a :: others) (front ++ t :: rest)

end Separated

variable {item : Parser T ε α} {separator ends : T → Bool}

theorem Separated.ne_nil {items : List α} {front : List T}
    (h : Separated item separator items front) : items ≠ [] := by
  cases h with
  | one _ => simp
  | more _ _ _ => simp

theorem separatedFrom_front (h : Local item ends) {stuck : ε} {fuel : Nat} :
    ∀ {tokens rest : List T} {items : List α},
      separatedFrom item separator stuck fuel tokens = .ok (items, rest) →
        ∃ front, tokens = front ++ rest ∧ Separated item separator items front := by
  induction fuel with
  | zero =>
      intro tokens rest items hread
      cases hread
  | succ fuel ih =>
      intro tokens rest items hread
      simp only [separatedFrom] at hread
      split at hread
      · cases hread
      · rename_i a hitem
        cases hread
        rcases h.front hitem with ⟨front, rfl, halone⟩
        exact ⟨front, rfl, .one halone⟩
      · rename_i a t after hitem
        rcases h.front hitem with ⟨front, rfl, halone⟩
        split at hread
        · rename_i hseparator
          split at hread
          · cases hread
          · rename_i others rest' hothers
            cases hread
            rcases ih hothers with ⟨more, rfl, hmore⟩
            exact ⟨front ++ t :: more, by simp, .more halone hseparator hmore⟩
        · cases hread
          exact ⟨front, rfl, .one halone⟩

/-- What stands alone is read before anything an item ends at, a separator apart. -/
theorem Separated.follow (h : Local item ends) (hends : ∀ t, separator t = true → ends t = true)
    {stuck : ε} {items : List α} {front rest : List T}
    (hseparated : Separated item separator items front)
    (hrest : ∀ t ∈ rest.head?, ends t = true ∧ separator t = false) :
    ∀ {fuel : Nat}, front.length < fuel →
      separatedFrom item separator stuck fuel (front ++ rest) = .ok (items, rest) := by
  induction hseparated with
  | one halone =>
      intro fuel hfuel
      cases fuel with
      | zero => omega
      | succ fuel =>
          have hitem := h.follow halone fun t ht => (hrest t ht).1
          cases rest with
          | nil => simp only [separatedFrom, hitem]
          | cons t rest => simp [separatedFrom, hitem, (hrest t rfl).2]
  | @more a others front more t halone hseparator _ ih =>
      intro fuel hfuel
      cases fuel with
      | zero => omega
      | succ fuel =>
          have hitem : item ((front ++ t :: more) ++ rest) = .ok (a, t :: (more ++ rest)) := by
            rw [List.append_assoc]
            apply h.follow halone
            intro t' ht'
            cases ht'
            exact hends t hseparator
          have hothers := @ih fuel (by simp at hfuel; omega)
          simp only [separatedFrom, hitem, hseparator, if_true, hothers]

/-- A list of items before a token it ends at: exactly the lists that stand alone. -/
theorem separated_eq_ok (h : Local item ends) (hends : ∀ t, separator t = true → ends t = true)
    {stuck : ε} {tokens rest : List T} {items : List α}
    (hrest : ∀ t ∈ rest.head?, ends t = true ∧ separator t = false) :
    separated item separator stuck tokens = .ok (items, rest) ↔
      ∃ front, tokens = front ++ rest ∧ Separated item separator items front := by
  constructor
  · exact separatedFrom_front h
  · rintro ⟨front, rfl, hseparated⟩
    exact hseparated.follow h hends hrest (by rw [List.length_append]; omega)

end Parser

/-! ## Splitting at a token -/

/-- The ways to split a stream at a token of a kind, the first token first. -/
def splits (is : T → Bool) : List T → List (List T × List T)
  | [] => []
  | t :: rest =>
      let later := (splits is rest).map fun split => (t :: split.1, split.2)
      if is t then ([], rest) :: later else later

theorem mem_splits {is : T → Bool} {tokens front back : List T} :
    (front, back) ∈ splits is tokens ↔ ∃ t, is t = true ∧ tokens = front ++ t :: back := by
  induction tokens generalizing front with
  | nil => simp [splits]
  | cons first rest ih =>
      have hlater : (front, back) ∈ (splits is rest).map (fun split => (first :: split.1, split.2)) ↔
          ∃ front', front = first :: front' ∧ ∃ t, is t = true ∧ rest = front' ++ t :: back := by
        simp only [List.mem_map, Prod.mk.injEq, Prod.exists]
        constructor
        · rintro ⟨front', back', hmem, rfl, rfl⟩
          exact ⟨front', rfl, ih.1 hmem⟩
        · rintro ⟨front', rfl, hsplit⟩
          exact ⟨front', back, ih.2 hsplit, rfl, rfl⟩
      have hcons : (front, back) ∈ splits is (first :: rest) ↔
          (front = [] ∧ is first = true ∧ back = rest) ∨
            ∃ front', front = first :: front' ∧ ∃ t, is t = true ∧ rest = front' ++ t :: back := by
        rw [← hlater]
        cases hfirst : is first with
        | true => simp [splits, hfirst]
        | false => simp [splits, hfirst]
      rw [hcons]
      constructor
      · rintro (⟨rfl, hfirst, rfl⟩ | ⟨front', rfl, t, ht, rfl⟩)
        · exact ⟨first, hfirst, rfl⟩
        · exact ⟨t, ht, rfl⟩
      · rintro ⟨t, ht, heq⟩
        cases front with
        | nil =>
            cases heq
            exact .inl ⟨rfl, ht, rfl⟩
        | cons first' front' =>
            cases heq
            exact .inr ⟨front', rfl, t, ht, rfl⟩

/-- A search whose candidates never disagree finds what any of them gives. -/
theorem findSome?_eq_some_of_unique {f : α → Option β} {l : List α} {b : β}
    (hunique : ∀ x ∈ l, ∀ y ∈ l, ∀ c d, f x = some c → f y = some d → c = d) :
    l.findSome? f = some b ↔ ∃ x ∈ l, f x = some b := by
  constructor
  · exact List.exists_of_findSome?_eq_some
  · rintro ⟨x, hx, hfx⟩
    cases hfound : l.findSome? f with
    | none =>
        have hnone := List.findSome?_eq_none_iff.1 hfound x hx
        rw [hfx] at hnone
        cases hnone
    | some c =>
        rcases List.exists_of_findSome?_eq_some hfound with ⟨y, hy, hfy⟩
        rw [hunique y hy x hx c b hfy hfx]

end Lib
end Systasis
