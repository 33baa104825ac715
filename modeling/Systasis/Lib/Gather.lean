import Mathlib.Data.List.Nodup
import Mathlib.Logic.Relation

/-!
# Gather — collecting along a relation in one pass

Every node owns some facts, and gathers those of all nodes it reaches.  A single pass that adds, at
each node, what has been collected at its successors computes this when successors come first.
-/

namespace Systasis
namespace Lib

open Relation

variable {α β σ ε : Type} {next : α → α → Prop} {own : α → β → Prop}

/-- What `a` owns, or something reached from it. -/
def Gathers (next : α → α → Prop) (own : α → β → Prop) (a : α) (b : β) : Prop :=
  ∃ c, ReflTransGen next a c ∧ own c b

theorem gathers_iff {a : α} {b : β} :
    Gathers next own a b ↔ own a b ∨ ∃ c, next a c ∧ Gathers next own c b := by
  refine ⟨?_, ?_⟩
  · intro h
    rcases h with ⟨c, hreach, hown⟩
    rcases hreach.cases_head with rfl | ⟨d, hnext, hrest⟩
    · exact Or.inl hown
    · exact Or.inr ⟨d, hnext, c, hrest, hown⟩
  · intro h
    rcases h with hown | ⟨c, hnext, d, hrest, hown⟩
    · exact ⟨a, .refl, hown⟩
    · exact ⟨d, .head hnext hrest, hown⟩

/-- One step of a collecting pass, at a node whose successors have been passed. -/
structure Collects (next : α → α → Prop) (own : α → β → Prop) (read read' : α → β → Prop)
    (a : α) : Prop where
  here : ∀ b, read' a b ↔ own a b ∨ ∃ c, next a c ∧ read c b
  others : ∀ c, c ≠ a → ∀ b, read' c b ↔ read c b

/-- The pass collects, at the nodes of `order`, what they gather. -/
theorem foldlM_gathers {step : σ → α → Except ε σ} {read : σ → α → β → Prop} {order : List α}
    (hnodup : order.Nodup)
    (hbefore : ∀ front a back, order = front ++ a :: back → ∀ c, next a c → c ∈ front)
    {initial final : σ}
    (hstep : ∀ s a s', step s a = .ok s' → (∀ b, read s a b ↔ read initial a b) →
      (∀ c, next a c → c ≠ a) → Collects next own (read s) (read s') a)
    (h : order.foldlM step initial = .ok final) :
    (∀ a ∈ order, ∀ b, read final a b ↔ Gathers next own a b) ∧
      ∀ a ∉ order, ∀ b, read final a b ↔ read initial a b := by
  -- `front` has been passed and `back` has not.
  have hpass : ∀ back front s, order = front ++ back → back.foldlM step s = .ok final →
      (∀ a ∈ front, ∀ b, read s a b ↔ Gathers next own a b) →
      (∀ a ∉ front, ∀ b, read s a b ↔ read initial a b) →
      (∀ a ∈ order, ∀ b, read final a b ↔ Gathers next own a b) ∧
        ∀ a ∉ order, ∀ b, read final a b ↔ read initial a b := by
    intro back
    induction back with
    | nil =>
        intro front s horder hfold hdone hrest
        have hsame : s = final := by
          simpa [pure, Except.pure] using hfold
        subst hsame
        have hfront : order = front := by simpa using horder
        subst hfront
        exact ⟨hdone, hrest⟩
    | cons a back ih =>
        intro front s horder hfold hdone hrest
        have ha : a ∉ front := by
          have hsplit := hnodup
          rw [horder] at hsplit
          exact fun hmem => List.disjoint_of_nodup_append hsplit hmem List.mem_cons_self
        have hsuccessors := hbefore front a back horder
        rw [List.foldlM_cons] at hfold
        cases hs' : step s a with
        | error e => simp [hs', bind, Except.bind] at hfold
        | ok s' =>
            have hcollects := hstep s a s' hs' (hrest a ha)
              (fun c hnext heq => ha (heq ▸ hsuccessors c hnext))
            refine ih (front ++ [a]) s' (by simp [horder]) ?_ ?_ ?_
            · simpa [hs', bind, Except.bind] using hfold
            · intro c hc b
              by_cases hca : c = a
              · subst hca
                rw [hcollects.here, gathers_iff]
                refine or_congr Iff.rfl (exists_congr fun d => and_congr_right fun hnext => ?_)
                exact hdone d (hsuccessors d hnext) b
              · have hfront : c ∈ front := by simpa [hca] using hc
                exact (hcollects.others c hca b).trans (hdone c hfront b)
            · intro c hc b
              have hc' : c ∉ front ∧ c ≠ a := by simpa using hc
              exact (hcollects.others c hc'.2 b).trans (hrest c hc'.1 b)
  exact hpass order [] initial rfl h (by simp) (by simp)

end Lib
end Systasis
