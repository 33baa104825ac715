import Mathlib.Data.List.Induction

/-!
# Run — labelled transition systems and their recorded runs

A run keeps every transition it made, with the states on both sides, so that a property may speak
about what a step saw and about what it left behind.
-/

namespace Systasis
namespace Lib

/-- One recorded step. -/
structure Transition (S L : Type) where
  pre : S
  label : L
  post : S

section Runs

variable {S L : Type}

/-- The runs of a labelled step relation, with the trace in order of time. -/
inductive Run (step : S → L → S → Prop) : S → List (Transition S L) → S → Prop
  | nil (s : S) : Run step s [] s
  | snoc {s m t : S} {trace : List (Transition S L)} {l : L} :
      Run step s trace m → step m l t → Run step s (trace ++ [⟨m, l, t⟩]) t

variable {step : S → L → S → Prop}

namespace Run

/-- A property of the trace and the state reached that every step extends holds at the end of every
run. -/
theorem invariant {s : S} {P : List (Transition S L) → S → Prop} (hinit : P [] s)
    (hstep : ∀ trace m l t, Run step s trace m → P trace m → step m l t →
      P (trace ++ [⟨m, l, t⟩]) t)
    {trace : List (Transition S L)} {t : S} (hrun : Run step s trace t) : P trace t := by
  induction hrun with
  | nil => exact hinit
  | snoc hrun hlast ih => exact hstep _ _ _ _ hrun ih hlast

/-- A property of single states that every step preserves. -/
theorem preserves {P : S → Prop} (hstep : ∀ m l t, P m → step m l t → P t)
    {s t : S} {trace : List (Transition S L)} (hrun : Run step s trace t) (hs : P s) : P t :=
  invariant (P := fun _ m => P m) hs (fun _ m l t _ hm hlast => hstep m l t hm hlast) hrun

theorem append {s m t : S} {front back : List (Transition S L)} (hfront : Run step s front m)
    (hback : Run step m back t) : Run step s (front ++ back) t := by
  induction hback with
  | nil => simpa using hfront
  | snoc _ hlast ih => simpa using snoc ih hlast

theorem snoc_inv {s t : S} {front : List (Transition S L)} {x : Transition S L}
    (hrun : Run step s (front ++ [x]) t) :
    Run step s front x.pre ∧ step x.pre x.label x.post ∧ t = x.post := by
  generalize htrace : front ++ [x] = trace at hrun
  cases hrun with
  | nil => simp at htrace
  | snoc hfront hlast =>
      rcases List.append_inj' htrace rfl with ⟨rfl, hx⟩
      cases hx
      exact ⟨hfront, hlast, rfl⟩

/-- A run can be cut between any two of its steps. -/
theorem split {s t : S} {front back : List (Transition S L)}
    (hrun : Run step s (front ++ back) t) :
    ∃ m, Run step s front m ∧ Run step m back t := by
  induction back using List.reverseRecOn generalizing t with
  | nil => exact ⟨t, by simpa using hrun, .nil t⟩
  | append_singleton back x ih =>
      have hcut : Run step s ((front ++ back) ++ [x]) t := by simpa using hrun
      rcases snoc_inv hcut with ⟨hinit, hlast, rfl⟩
      rcases ih hinit with ⟨m, hfront, hback⟩
      exact ⟨m, hfront, .snoc hback hlast⟩

/-- The run up to one of its steps, and that step. -/
theorem split_at {s t : S} {front back : List (Transition S L)} {x : Transition S L}
    (hrun : Run step s (front ++ x :: back) t) :
    Run step s front x.pre ∧ step x.pre x.label x.post ∧ Run step x.post back t := by
  have hcut : Run step s ((front ++ [x]) ++ back) t := by simpa using hrun
  rcases split hcut with ⟨m, hfront, hback⟩
  rcases snoc_inv hfront with ⟨hbefore, hx, rfl⟩
  exact ⟨hbefore, hx, hback⟩

/-- A property that every step preserves holds before every later step of a run. -/
theorem preserves_at {P : S → Prop} (hstep : ∀ m l t, P m → step m l t → P t)
    {s t : S} {trace : List (Transition S L)} (hrun : Run step s trace t) (hs : P s)
    {x : Transition S L} (hx : x ∈ trace) : P x.pre := by
  rcases List.append_of_mem hx with ⟨front, back, rfl⟩
  exact preserves hstep (split_at hrun).1 hs

end Run

end Runs

end Lib
end Systasis
