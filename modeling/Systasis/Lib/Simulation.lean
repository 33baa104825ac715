import Systasis.Lib.Run

/-!
# Simulation — runs matched by runs with the same visible events

A forward simulation answers every step of one system by a run of another that shows the same
events.  Steps that show nothing are answered by any run that shows nothing, the empty one included.
-/

namespace Systasis
namespace Lib

section Visible

variable {S L E : Type}

/-- The events a trace shows, through a view of its labels. -/
def visible (view : L → Option E) (trace : List (Transition S L)) : List E :=
  trace.filterMap fun t => view t.label

@[simp]
theorem visible_nil (view : L → Option E) : visible view ([] : List (Transition S L)) = [] := rfl

@[simp]
theorem visible_append (view : L → Option E) (front back : List (Transition S L)) :
    visible view (front ++ back) = visible view front ++ visible view back := by
  simp [visible]

@[simp]
theorem visible_singleton (view : L → Option E) (t : Transition S L) :
    visible view [t] = (view t.label).toList := by
  cases h : view t.label <;> simp [visible, h]

/-- A run leads from one state to another and shows these events. -/
def Shows (step : S → L → S → Prop) (view : L → Option E) (s : S) (events : List E) (t : S) :
    Prop :=
  ∃ trace, Run step s trace t ∧ visible view trace = events

variable {step : S → L → S → Prop} {view : L → Option E}

theorem Shows.nil (s : S) : Shows step view s [] s :=
  ⟨[], .nil s, rfl⟩

theorem Shows.append {s m t : S} {front back : List E} (hfront : Shows step view s front m)
    (hback : Shows step view m back t) : Shows step view s (front ++ back) t := by
  rcases hfront with ⟨trace, hrun, rfl⟩
  rcases hback with ⟨trace', hrun', rfl⟩
  exact ⟨trace ++ trace', hrun.append hrun', visible_append view trace trace'⟩

theorem Shows.single {s t : S} {l : L} (hstep : step s l t) :
    Shows step view s (view l).toList t :=
  ⟨[⟨s, l, t⟩], by simpa using (Run.nil s).snoc hstep, by simp⟩

end Visible

section Simulation

variable {S L S' L' E : Type}

/-- A forward simulation of `step` by `step'`, on the states where `inv` holds. -/
structure Simulation (step : S → L → S → Prop) (view : L → Option E)
    (step' : S' → L' → S' → Prop) (view' : L' → Option E) (inv : S → Prop)
    (rel : S → S' → Prop) : Prop where
  keeps : ∀ s l t, inv s → step s l t → inv t
  matched : ∀ s l t s', inv s → rel s s' → step s l t →
    ∃ t', Shows step' view' s' (view l).toList t' ∧ rel t t'

variable {step : S → L → S → Prop} {view : L → Option E} {step' : S' → L' → S' → Prop}
  {view' : L' → Option E} {inv : S → Prop} {rel : S → S' → Prop}

theorem Simulation.run (h : Simulation step view step' view' inv rel) {s t : S} {s' : S'}
    {trace : List (Transition S L)} (hinv : inv s) (hrel : rel s s')
    (hrun : Run step s trace t) :
    ∃ t', Shows step' view' s' (visible view trace) t' ∧ rel t t' := by
  induction hrun with
  | nil => exact ⟨s', .nil s', hrel⟩
  | @snoc m t trace l hrun hlast ih =>
      rcases ih with ⟨m', hfront, hm⟩
      have hinvm : inv m := hrun.preserves h.keeps hinv
      rcases h.matched m l t m' hinvm hm hlast with ⟨t', hback, ht⟩
      refine ⟨t', ?_, ht⟩
      simpa using hfront.append hback

end Simulation

end Lib
end Systasis
