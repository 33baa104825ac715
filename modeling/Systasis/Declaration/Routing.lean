import Mathlib.Data.List.Infix
import Mathlib.Data.List.Nodup
import Systasis.Declaration.Sources

/-!
# Routing — which exits are routed to their own variant

The exits that leave an initializer are numbered in the order of the visitor.  Unless one of them is
a `return` inside a `try` block, which the visitor does not enter, each is wrapped once, and a run of
the rewritten initializers fails with the variant of a site exactly when the original leaves there.
-/

namespace Systasis
namespace Declaration

variable {F : Type}

mutual

/-- One case per construct; for a form, a fact about all its sub-expressions. -/
@[elab_as_elim]
theorem Expr.induct {motive : Expr F → Prop}
    (question : ∀ operand, motive operand → motive (.question operand))
    (ret : ∀ operand, motive operand → motive (.ret operand))
    (retUnit : motive .retUnit)
    (tryBlock : ∀ body, motive body → motive (.tryBlock body))
    (deferred : ∀ kind body, motive body → motive (.deferred kind body))
    (propagate : ∀ k argument, motive argument → motive (.propagate k argument))
    (form : ∀ f children, (∀ child ∈ children, motive child) → motive (.form f children)) :
    ∀ e, motive e
  | .question operand =>
      question operand
        (Expr.induct question ret retUnit tryBlock deferred propagate form operand)
  | .ret operand =>
      ret operand (Expr.induct question ret retUnit tryBlock deferred propagate form operand)
  | .retUnit => retUnit
  | .tryBlock body =>
      tryBlock body (Expr.induct question ret retUnit tryBlock deferred propagate form body)
  | .deferred kind body =>
      deferred kind body
        (Expr.induct question ret retUnit tryBlock deferred propagate form body)
  | .propagate k argument =>
      propagate k argument
        (Expr.induct question ret retUnit tryBlock deferred propagate form argument)
  | .form f children =>
      form f children
        (Expr.inductAll question ret retUnit tryBlock deferred propagate form children)

theorem Expr.inductAll {motive : Expr F → Prop}
    (question : ∀ operand, motive operand → motive (.question operand))
    (ret : ∀ operand, motive operand → motive (.ret operand))
    (retUnit : motive .retUnit)
    (tryBlock : ∀ body, motive body → motive (.tryBlock body))
    (deferred : ∀ kind body, motive body → motive (.deferred kind body))
    (propagate : ∀ k argument, motive argument → motive (.propagate k argument))
    (form : ∀ f children, (∀ child ∈ children, motive child) → motive (.form f children)) :
    ∀ children : List (Expr F), ∀ child ∈ children, motive child
  | [], _, hmem => absurd hmem List.not_mem_nil
  | first :: rest, child, hmem =>
      (List.mem_cons.1 hmem).elim
        (fun heq => heq ▸ Expr.induct question ret retUnit tryBlock deferred propagate form first)
        (Expr.inductAll question ret retUnit tryBlock deferred propagate form rest child)

end

/-! ## Sites are distinct -/

theorem mem_leavingAll {caught : Bool} {children : List (Expr F)} {position site : List Nat}
    {index : Nat} :
    site ∈ leavingAll caught children position index ↔
      ∃ i child, children[i]? = some child ∧ site ∈ leaving caught child (position ++ [index + i]) := by
  induction children generalizing index with
  | nil => simp [leavingAll]
  | cons first rest ih =>
      rw [leavingAll, List.mem_append, ih]
      refine ⟨?_, ?_⟩
      · intro h
        rcases h with hsite | ⟨i, child, hchild, hsite⟩
        · exact ⟨0, first, rfl, hsite⟩
        · refine ⟨i + 1, child, by simpa using hchild, ?_⟩
          simpa [Nat.add_assoc, Nat.add_comm 1] using hsite
      · intro h
        rcases h with ⟨i, child, hchild, hsite⟩
        cases i with
        | zero =>
            have hfirst : first = child := by simpa using hchild
            exact Or.inl (hfirst ▸ hsite)
        | succ i =>
            refine Or.inr ⟨i, child, by simpa using hchild, ?_⟩
            simpa [Nat.add_assoc, Nat.add_comm 1] using hsite

theorem isPrefix_of_mem_leaving (e : Expr F) : ∀ caught position site,
    site ∈ leaving caught e position → position <+: site := by
  induction e using Expr.induct with
  | question operand ih =>
      intro caught position site hsite
      rcases List.mem_append.1 hsite with hsite | hsite
      · exact (List.prefix_append _ _).trans (ih caught _ site hsite)
      · cases caught
        · rw [List.mem_singleton.1 hsite]
        · cases hsite
  | ret operand ih =>
      intro caught position site hsite
      rcases List.mem_append.1 hsite with hsite | hsite
      · exact (List.prefix_append _ _).trans (ih caught _ site hsite)
      · rw [List.mem_singleton.1 hsite]
  | retUnit => simp [leaving]
  | tryBlock body ih =>
      intro caught position site hsite
      exact (List.prefix_append _ _).trans (ih true _ site hsite)
  | deferred kind body _ => simp [leaving]
  | propagate k argument ih =>
      intro caught position site hsite
      exact (List.prefix_append _ _).trans (ih caught _ site hsite)
  | form f children ih =>
      intro caught position site hsite
      rcases mem_leavingAll.1 hsite with ⟨i, child, hchild, hsite⟩
      exact (List.prefix_append _ _).trans
        (ih child (List.mem_of_getElem? hchild) caught _ site hsite)

/-- A site below a position is not that position. -/
theorem position_notMem_leaving (e : Expr F) (caught : Bool) (position : List Nat) (i : Nat) :
    position ∉ leaving caught e (position ++ [i]) := by
  intro hmem
  have hlength := (isPrefix_of_mem_leaving e caught _ _ hmem).length_le
  rw [List.length_append, List.length_singleton] at hlength
  omega

theorem leavingAll_nodup {children : List (Expr F)} {caught : Bool} {position : List Nat}
    (h : ∀ child ∈ children, ∀ position, (leaving caught child position).Nodup) (index : Nat) :
    (leavingAll caught children position index).Nodup := by
  induction children generalizing index with
  | nil => simp [leavingAll]
  | cons first rest ih =>
      refine List.Nodup.append (h first List.mem_cons_self _)
        (ih (fun child hchild => h child (List.mem_cons_of_mem _ hchild)) (index + 1)) ?_
      -- Two children would share a site only at the same index.
      intro site hfirst hrest
      rcases mem_leavingAll.1 hrest with ⟨i, child, _, hchild⟩
      have hone := isPrefix_of_mem_leaving _ _ _ _ hfirst
      have htwo := isPrefix_of_mem_leaving _ _ _ _ hchild
      have heq : position ++ [index] = position ++ [index + 1 + i] :=
        (List.prefix_of_prefix_length_le hone htwo (by simp)).eq_of_length (by simp)
      simp at heq
      omega

theorem leaving_nodup (e : Expr F) : ∀ caught position, (leaving caught e position).Nodup := by
  induction e using Expr.induct with
  | question operand ih =>
      intro caught position
      refine List.Nodup.append (ih caught _) (by cases caught <;> simp) ?_
      cases caught
      · simpa using position_notMem_leaving operand false position 0
      · simp
  | ret operand ih =>
      intro caught position
      refine List.Nodup.append (ih caught _) (by simp) ?_
      simpa using position_notMem_leaving operand caught position 0
  | retUnit => simp [leaving]
  | tryBlock body ih => exact fun _ position => ih true _
  | deferred kind body _ => simp [leaving]
  | propagate k argument ih => exact fun caught position => ih caught _
  | form f children ih =>
      intro caught position
      exact leavingAll_nodup (fun child hchild => ih child hchild caught) 0

/-! ## Exits end at sites -/

section Eval

variable {B J S σ τ : Type} {semantics : Semantics F B J S} {fuel : Nat}

theorem onValue_some {run : Run B J S σ} {f : Value B → Option (Outcome B J σ)} {s s' : S}
    {outcome : Outcome B J σ} (h : onValue run f s = some (outcome, s')) :
    (∃ v, run s = some (.signal (.value v), s') ∧ f v = some outcome) ∨
      (run s = some (outcome, s') ∧ ∀ v, outcome ≠ .signal (.value v)) := by
  simp only [onValue] at h
  split at h
  · rename_i v s₁ hrun
    rcases Option.map_eq_some_iff.1 h with ⟨outcome', hf, heq⟩
    cases heq
    exact Or.inl ⟨v, hrun, hf⟩
  · rename_i hother
    refine Or.inr ⟨h, ?_⟩
    intro v heq
    exact hother v s' (heq ▸ h)

/-- A form ends with a signal of its own or with an exit of one of its sub-expressions. -/
theorem turns_exit {next : List (Signal B J) → S → Next B J × S} {children : List (Run B J S σ)}
    {seen : List (Signal B J)} {s s' : S} {outcome : Outcome B J σ}
    (h : turns next children fuel seen s = some (outcome, s')) :
    (∃ signal, outcome = .signal signal) ∨
      ∃ (i : Nat) (run : Run B J S σ) (t : S), children[i]? = some run ∧
        run t = some (outcome, s') := by
  induction fuel generalizing seen s with
  | zero => cases h
  | succ fuel ih =>
      simp only [turns] at h
      split at h
      · cases h
        exact Or.inl ⟨_, rfl⟩
      · rename_i child t hnext
        split at h
        · cases h
        · rename_i run hchild
          split at h
          · exact ih h
          · exact Or.inr ⟨child, run, t, hchild, h⟩

theorem evalAll_getElem? (mark : List Nat → σ) (children : List (Expr F)) (position : List Nat)
    (index i : Nat) :
    (evalAll semantics fuel mark children position index)[i]? =
      (children[i]?).map fun child => eval semantics fuel mark child (position ++ [index + i]) := by
  induction children generalizing index i with
  | nil => simp [evalAll]
  | cons first rest ih =>
      cases i with
      | zero => simp [evalAll]
      | succ i => simp [evalAll, ih, Nat.add_assoc, Nat.add_comm 1]

/-- An error that leaves an expression comes from a `?` that is a site of it, and a returned result
from a `return`. -/
theorem eval_site (e : Expr F) : ∀ position (s s' : S),
    (∀ site error, eval semantics fuel id e position s = some (.raise site error, s') →
      site ∈ leaving false e position) ∧
    ∀ site result, eval semantics fuel id e position s = some (.returns site result, s') →
      ∀ caught, site ∈ leaving caught e position := by
  induction e using Expr.induct with
  | question operand ih =>
      intro position s s'
      refine ⟨?_, ?_⟩
      · intro site error h
        -- Either the operand has a value and this `?` exits, or the operand exits itself.
        rcases onValue_some h with ⟨v, _, hf⟩ | ⟨hrun, _⟩
        · cases v with
          | err x =>
              cases hf
              simp [leaving]
          | _ => cases hf
        · exact List.mem_append_left _ ((ih _ s s').1 site error hrun)
      · intro site result h caught
        rcases onValue_some h with ⟨v, _, hf⟩ | ⟨hrun, _⟩
        · cases v <;> cases hf
        · exact List.mem_append_left _ ((ih _ s s').2 site result hrun caught)
  | ret operand ih =>
      intro position s s'
      refine ⟨?_, ?_⟩
      · intro site error h
        rcases onValue_some h with ⟨v, _, hf⟩ | ⟨hrun, _⟩
        · cases v <;> cases hf
        · exact List.mem_append_left _ ((ih _ s s').1 site error hrun)
      · intro site result h caught
        rcases onValue_some h with ⟨v, _, hf⟩ | ⟨hrun, _⟩
        · cases v with
          | ok x =>
              cases hf
              simp [leaving]
          | err x =>
              cases hf
              simp [leaving]
          | _ => cases hf
        · exact List.mem_append_left _ ((ih _ s s').2 site result hrun caught)
  | retUnit =>
      intro position s s'
      simp [eval]
  | tryBlock body ih =>
      intro position s s'
      refine ⟨?_, ?_⟩
      · intro site error h
        rcases Option.map_eq_some_iff.1 h with ⟨⟨outcome, t⟩, _, heq⟩
        -- The errors of a try block stay in it.
        cases outcome with
        | signal signal => cases signal <;> cases heq
        | raise site error => cases heq
        | returns site result => cases heq
      · intro site result h caught
        rcases Option.map_eq_some_iff.1 h with ⟨⟨outcome, t⟩, hrun, heq⟩
        -- A `return` goes through it.
        cases outcome with
        | signal signal => cases signal <;> cases heq
        | raise site error => cases heq
        | returns site result =>
            cases heq
            exact (ih _ s s').2 site result hrun true
  | deferred kind body _ =>
      intro position s s'
      simp [eval]
  | propagate k argument ih =>
      intro position s s'
      refine ⟨?_, ?_⟩
      · intro site error h
        rcases onValue_some h with ⟨v, _, hf⟩ | ⟨hrun, _⟩
        · cases v <;> cases hf
        · exact (ih _ s s').1 site error hrun
      · intro site result h caught
        rcases onValue_some h with ⟨v, _, hf⟩ | ⟨hrun, _⟩
        · cases v <;> cases hf
        · exact (ih _ s s').2 site result hrun caught
  | form f children ih =>
      intro position s s'
      -- A form exits where one of its children does.
      have hchild : ∀ outcome, eval semantics fuel id (.form f children) position s =
          some (outcome, s') → (∃ signal, outcome = .signal signal) ∨
            ∃ i child t, children[i]? = some child ∧
              eval semantics fuel id child (position ++ [i]) t = some (outcome, s') := by
        intro outcome h
        rcases turns_exit h with hsignal | ⟨i, run, t, hrun, hexit⟩
        · exact Or.inl hsignal
        · rw [evalAll_getElem?, Option.map_eq_some_iff] at hrun
          rcases hrun with ⟨child, hchild, rfl⟩
          exact Or.inr ⟨i, child, t, hchild, by simpa using hexit⟩
      refine ⟨?_, ?_⟩
      · intro site error h
        rcases hchild _ h with ⟨_, heq⟩ | ⟨i, child, t, hi, hexit⟩
        · cases heq
        · exact mem_leavingAll.2 ⟨i, child, hi, by
            simpa using (ih child (List.mem_of_getElem? hi) _ t s').1 site error hexit⟩
      · intro site result h caught
        rcases hchild _ h with ⟨_, heq⟩ | ⟨i, child, t, hi, hexit⟩
        · cases heq
        · exact mem_leavingAll.2 ⟨i, child, hi, by
            simpa using (ih child (List.mem_of_getElem? hi) _ t s').2 site result hexit caught⟩

/-! ## Outcomes seen differently -/

/-- A run with its outcomes mapped. -/
def through (h : Outcome B J σ → Outcome B J τ) (run : Run B J S σ) : Run B J S τ := fun s =>
  (run s).map fun (outcome, s) => (h outcome, s)

/-- An outcome that is an exit. -/
def Outcome.IsExit (outcome : Outcome B J σ) : Prop :=
  ∀ signal, outcome ≠ .signal signal

/-- A map that leaves signals alone and makes none. -/
structure Passes (h : Outcome B J σ → Outcome B J τ) : Prop where
  signal : ∀ signal, h (.signal signal) = .signal signal
  exit : ∀ outcome, outcome.IsExit → (h outcome).IsExit

theorem isExit_cases (outcome : Outcome B J σ) :
    (∃ signal, outcome = .signal signal) ∨ outcome.IsExit := by
  cases outcome with
  | signal signal => exact Or.inl ⟨signal, rfl⟩
  | raise site error => exact Or.inr fun signal => by simp
  | returns site result => exact Or.inr fun signal => by simp

theorem onValue_exit {run : Run B J S σ} {f : Value B → Option (Outcome B J σ)} {s t : S}
    {outcome : Outcome B J σ} (hrun : run s = some (outcome, t)) (hexit : outcome.IsExit) :
    onValue run f s = some (outcome, t) := by
  simp only [onValue, hrun]
  split
  · rename_i v t' heq
    exact absurd (Prod.mk.inj (Option.some.inj heq)).1 (hexit _)
  · rfl

theorem onValue_through {h : Outcome B J σ → Outcome B J τ} (hpass : Passes h)
    {run : Run B J S σ} {f : Value B → Option (Outcome B J σ)}
    {f' : Value B → Option (Outcome B J τ)} (hf : ∀ v, f' v = (f v).map h) :
    onValue (through h run) f' = through h (onValue run f) := by
  funext s
  cases hrun : run s with
  | none => simp [onValue, through, hrun]
  | some result =>
      rcases result with ⟨outcome, t⟩
      rcases isExit_cases outcome with ⟨signal, rfl⟩ | hexit
      · cases signal with
        | value v =>
            simp only [onValue, through, hrun, Option.map_some, hpass.signal, hf]
            cases f v <;> rfl
        | jump target => simp [onValue, through, hrun, hpass.signal]
      · have hrun' : through h run s = some (h outcome, t) := by simp [through, hrun]
        rw [onValue_exit hrun' (hpass.exit outcome hexit), through, onValue_exit hrun hexit]
        rfl

theorem turns_through {h : Outcome B J σ → Outcome B J τ} (hpass : Passes h)
    {next : List (Signal B J) → S → Next B J × S} {children : List (Run B J S σ)}
    {children' : List (Run B J S τ)}
    (hchildren : ∀ i : Nat, children'[i]? = (children[i]?).map (through h))
    (seen : List (Signal B J)) :
    turns next children' fuel seen = through h (turns next children fuel seen) := by
  induction fuel generalizing seen with
  | zero => rfl
  | succ fuel ih =>
      funext s
      simp only [turns, through]
      split
      · simp [hpass.signal]
      · rename_i child t _
        rw [hchildren]
        cases hchild : children[child]? with
        | none => rfl
        | some run =>
            simp only [Option.map_some, through]
            cases hrun : run t with
            | none => rfl
            | some result =>
                rcases result with ⟨outcome, t'⟩
                rcases isExit_cases outcome with ⟨signal, rfl⟩ | hexit
                · simp only [Option.map_some, hpass.signal]
                  rw [ih]
                  rfl
                · -- An exit ends the turns on both sides.
                  have hexit' := hpass.exit outcome hexit
                  simp only [Option.map_some]
                  split
                  · rename_i signal t' heq
                    exact absurd (Prod.mk.inj (Option.some.inj heq)).1 (hexit' _)
                  · split
                    · rename_i signal t' heq
                      exact absurd (Prod.mk.inj (Option.some.inj heq)).1 (hexit _)
                    · rfl

/-- An outcome without its site. -/
def unmarked : Outcome B J σ → Outcome B J Unit
  | .signal signal => .signal signal
  | .raise _ error => .raise () error
  | .returns _ result => .returns () result

theorem passes_unmarked : Passes (unmarked : Outcome B J σ → Outcome B J Unit) := by
  refine ⟨fun _ => rfl, ?_⟩
  intro outcome hexit signal h
  cases outcome with
  | signal signal => exact hexit signal rfl
  | raise site error => cases h
  | returns site result => cases h

theorem eval_unmarked (e : Expr F) : ∀ position position',
    eval semantics fuel (fun _ => ()) e position' =
      through unmarked (eval semantics fuel id e position) := by
  induction e using Expr.induct with
  | question operand ih =>
      intro position position'
      simp only [eval]
      rw [ih (position ++ [0]) (position' ++ [0])]
      exact onValue_through passes_unmarked fun v => by cases v <;> rfl
  | ret operand ih =>
      intro position position'
      simp only [eval]
      rw [ih (position ++ [0]) (position' ++ [0])]
      exact onValue_through passes_unmarked fun v => by cases v <;> rfl
  | retUnit => exact fun _ _ => rfl
  | tryBlock body ih =>
      intro position position'
      simp only [eval]
      rw [ih (position ++ [0]) (position' ++ [0])]
      funext s
      simp only [through, Option.map_map]
      cases eval semantics fuel id body (position ++ [0]) s with
      | none => rfl
      | some result =>
          rcases result with ⟨outcome, t⟩
          cases outcome with
          | signal signal => cases signal <;> rfl
          | raise site error => rfl
          | returns site result => rfl
  | deferred kind body _ => exact fun _ _ => rfl
  | propagate k argument ih =>
      intro position position'
      simp only [eval]
      rw [ih (position ++ [0]) (position' ++ [0])]
      exact onValue_through passes_unmarked fun v => by cases v <;> rfl
  | form f children ih =>
      intro position position'
      simp only [eval]
      refine turns_through passes_unmarked ?_ []
      intro i
      rw [evalAll_getElem?, evalAll_getElem?]
      cases hchild : children[i]? with
      | none => rfl
      | some child =>
          simp only [Option.map_some]
          rw [ih child (List.mem_of_getElem? hchild)]

/-! ## Rewritten expressions -/

/-- The outcome of the rewritten expression: an error carries the number of its site. -/
def route (number : List Nat → Nat) : Outcome B J (List Nat) → Outcome B J Unit
  | .signal signal => .signal signal
  | .raise site error => .raise () (.source (number site) error)
  | .returns _ (.ok v) => .returns () (.ok v)
  | .returns site (.error error) => .returns () (.error (.source (number site) error))

theorem passes_route (number : List Nat → Nat) :
    Passes (route number : Outcome B J (List Nat) → Outcome B J Unit) := by
  refine ⟨fun _ => rfl, ?_⟩
  intro outcome hexit signal h
  cases outcome with
  | signal signal => exact hexit signal rfl
  | raise site error => cases h
  | returns site result => cases result <;> cases h

/-- Wrapping the operand and then exiting is exiting with the number of the site. -/
theorem onValue_propagated (number : List Nat → Nat) {run : Run B J S (List Nat)}
    {position : List Nat} {f : Value B → Option (Outcome B J (List Nat))}
    {f' : Value B → Option (Outcome B J Unit)}
    (hok : ∀ v, f' (.ok v) = (f (.ok v)).map (route number))
    (herr : ∀ error, f' (.err (.source (number position) error)) =
      (f (.err error)).map (route number))
    (hbase : ∀ b, f (.base b) = none) (hsource : ∀ k v, f (.source k v) = none) :
    onValue (onValue (through (route number) run) (propagated (number position))) f' =
      through (route number) (onValue run f) := by
  funext s
  simp only [onValue, through]
  cases hrun : run s with
  | none => rfl
  | some result =>
      rcases result with ⟨outcome, t⟩
      cases outcome with
      | signal signal =>
          cases signal with
          | value v =>
              simp only [Option.map_some, route]
              cases v with
              | ok v =>
                  simp only [propagated, Option.map_some, hok]
                  cases f (.ok v) <;> rfl
              | err error =>
                  simp only [propagated, Option.map_some, herr]
                  cases f (.err error) <;> rfl
              -- Neither `?` nor `return` accepts anything else.
              | base b => simp [propagated, hbase]
              | source k v => simp [propagated, hsource]
          | jump target => rfl
      | raise site error => rfl
      | returns site result => cases result <;> rfl

theorem visitAll_count {children : List (Expr F)} {position : List Nat}
    (h : ∀ child ∈ children, ∀ (s : Sources) position, leavingTry child position = [] →
      (visit child s).2.count = s.count + (leaving false child position).length)
    (s : Sources) (index : Nat) (htry : leavingTryAll children position index = []) :
    (visitAll children s).2.count =
      s.count + (leavingAll false children position index).length := by
  induction children generalizing s index with
  | nil => rfl
  | cons first rest ih =>
      rcases List.append_eq_nil_iff.1 htry with ⟨hfirst, hrest⟩
      simp only [visitAll, leavingAll, List.length_append]
      rw [ih (fun child hchild => h child (List.mem_cons_of_mem _ hchild)) _ _ hrest,
        h first List.mem_cons_self s _ hfirst, Nat.add_assoc]

theorem visit_count (e : Expr F) : ∀ (s : Sources) position, leavingTry e position = [] →
    (visit e s).2.count = s.count + (leaving false e position).length := by
  induction e using Expr.induct with
  | question operand ih =>
      intro s position htry
      simp only [visit, Sources.propagate, leaving, List.length_append]
      rw [ih s (position ++ [0]) htry]
      rfl
  | ret operand ih =>
      intro s position htry
      simp only [visit, Sources.propagate, leaving, List.length_append]
      rw [ih s (position ++ [0]) htry]
      rfl
  | retUnit => exact fun _ _ _ => rfl
  | tryBlock body _ =>
      intro s position htry
      simp only [leavingTry] at htry
      simp [visit, leaving, htry]
  | deferred kind body _ => exact fun _ _ _ => rfl
  | propagate k argument ih =>
      intro s position htry
      exact ih s (position ++ [0]) htry
  | form f children ih =>
      intro s position htry
      exact visitAll_count ih s 0 htry

/-- A numbering of two lists in a row numbers both. -/
theorem numbered_append {number : List Nat → Nat} {start : Nat} {front back : List (List Nat)}
    (h : (front ++ back).map number = List.range' start (front ++ back).length) :
    front.map number = List.range' start front.length ∧
      back.map number = List.range' (start + front.length) back.length := by
  rw [List.map_append, List.length_append, ← List.range'_append_1] at h
  exact List.append_inj h (by simp)

/-- Where no exit leaves from inside a `try` block, the rewritten expression runs as the original
one, with the errors of its sites marked. -/
theorem visit_eval (e : Expr F) : ∀ (s : Sources) position position' (number : List Nat → Nat),
    leavingTry e position = [] →
    (leaving false e position).map number =
      List.range' s.count (leaving false e position).length →
    eval semantics fuel (fun _ => ()) (visit e s).1 position' =
      through (route number) (eval semantics fuel id e position) := by
  induction e using Expr.induct with
  | question operand ih =>
      intro s position position' number htry hnumber
      rcases numbered_append hnumber with ⟨hoperand, hhere⟩
      have hposition : number position = (visit operand s).2.count := by
        rw [visit_count operand s (position ++ [0]) htry]
        simpa using hhere
      simp only [visit, Sources.propagate, eval, ← hposition]
      rw [ih s (position ++ [0]) _ number htry hoperand]
      exact onValue_propagated number (fun _ => rfl) (fun _ => rfl) (fun _ => rfl) (fun _ _ => rfl)
  | ret operand ih =>
      intro s position position' number htry hnumber
      rcases numbered_append hnumber with ⟨hoperand, hhere⟩
      have hposition : number position = (visit operand s).2.count := by
        rw [visit_count operand s (position ++ [0]) htry]
        simpa using hhere
      simp only [visit, Sources.propagate, eval, ← hposition]
      rw [ih s (position ++ [0]) _ number htry hoperand]
      exact onValue_propagated number (fun _ => rfl) (fun _ => rfl) (fun _ => rfl) (fun _ _ => rfl)
  | retUnit => exact fun _ _ _ _ _ _ => rfl
  | tryBlock body _ =>
      intro s position position' number htry _
      simp only [leavingTry] at htry
      simp only [visit, eval]
      rw [eval_unmarked body (position ++ [0]) (position' ++ [0])]
      funext t
      simp only [through, Option.map_map]
      cases hrun : eval semantics fuel id body (position ++ [0]) t with
      | none => rfl
      | some result =>
          rcases result with ⟨outcome, t'⟩
          cases outcome with
          | signal signal => cases signal <;> rfl
          | raise site error => rfl
          | returns site result =>
              -- It would leave from inside the block.
              have hsite := (eval_site body (position ++ [0]) t t').2 site result hrun true
              rw [htry] at hsite
              cases hsite
  | deferred kind body _ => exact fun _ _ _ _ _ _ => rfl
  | propagate k argument ih =>
      intro s position position' number htry hnumber
      simp only [visit, eval]
      rw [ih s (position ++ [0]) _ number htry hnumber]
      exact onValue_through (passes_route number) fun v => by cases v <;> rfl
  | form f children ih =>
      intro s position position' number htry hnumber
      have hchildren : ∀ (s : Sources) index index', leavingTryAll children position index = [] →
          (leavingAll false children position index).map number =
            List.range' s.count (leavingAll false children position index).length →
          ∀ i : Nat, (evalAll semantics fuel (fun _ => ()) (visitAll children s).1 position' index')[i]? =
            ((evalAll semantics fuel id children position index)[i]?).map
              (through (route number)) := by
        clear htry hnumber s
        induction children with
        | nil => exact fun _ _ _ _ _ _ => rfl
        | cons first rest ihrest =>
            intro s index index' htry hnumber i
            rcases List.append_eq_nil_iff.1 htry with ⟨hfirst, hrest⟩
            rcases numbered_append hnumber with ⟨hnumber, hnumber'⟩
            rw [← visit_count first s _ hfirst] at hnumber'
            cases i with
            | zero =>
                simp only [visitAll, evalAll, List.getElem?_cons_zero, Option.map_some]
                rw [ih first List.mem_cons_self s _ _ number hfirst hnumber]
            | succ i =>
                exact ihrest (fun child hchild => ih child (List.mem_cons_of_mem _ hchild)) _ _ _
                  hrest hnumber' i
      simp only [visit, eval]
      exact turns_through (passes_route number) (hchildren s 0 0 htry hnumber) []

end Eval

/-! ## Wrapped operands -/

theorem wraps_of_propagations {e : Expr F} (h : propagations e = []) : wraps e = [] := by
  cases e with
  | propagate k argument => simp [propagations] at h
  | _ => rfl

theorem wraps_visit {e : Expr F} (h : propagations e = []) (s : Sources) :
    wraps (visit e s).1 = [] := by
  cases e with
  | propagate k argument => simp [propagations] at h
  | _ => rfl

/-- What is not visited has nothing wrapped. -/
theorem exits_source (e : Expr F) : ∀ question ret, propagations e = [] →
    ∀ exit ∈ exits question ret e, exit.wraps = [] := by
  induction e using Expr.induct with
  | question operand ih =>
      intro question ret h exit hexit
      rcases List.mem_append.1 hexit with hexit | hexit
      · exact ih question ret h exit hexit
      · rw [List.mem_singleton.1 hexit]
        exact wraps_of_propagations h
  | ret operand ih =>
      intro question ret h exit hexit
      rcases List.mem_append.1 hexit with hexit | hexit
      · exact ih question ret h exit hexit
      · rw [List.mem_singleton.1 hexit]
        exact wraps_of_propagations h
  | retUnit => simp [exits]
  | tryBlock body ih => exact fun _ ret h => ih false ret h
  | deferred kind body ih => exact fun _ _ h => ih false false h
  | propagate k argument _ => simp [propagations]
  | form f children ih =>
      intro question ret h
      simp only [propagations, exits] at h ⊢
      induction children with
      | nil => simp [exitsAll]
      | cons first rest ihrest =>
          rcases List.append_eq_nil_iff.1 h with ⟨hfirst, hrest⟩
          intro exit hexit
          rcases List.mem_append.1 hexit with hexit | hexit
          · exact ih first List.mem_cons_self question ret hfirst exit hexit
          · exact ihrest (fun child hchild => ih child (List.mem_cons_of_mem _ hchild)) hrest exit
              hexit

/-- Nothing leaves the initializer from inside a deferred body. -/
theorem exits_deferred (e : Expr F) : ∀ exit ∈ exits false false e, exit.leaves = false := by
  induction e using Expr.induct with
  | question operand ih =>
      intro exit hexit
      rcases List.mem_append.1 hexit with hexit | hexit
      · exact ih exit hexit
      · rw [List.mem_singleton.1 hexit]
  | ret operand ih =>
      intro exit hexit
      rcases List.mem_append.1 hexit with hexit | hexit
      · exact ih exit hexit
      · rw [List.mem_singleton.1 hexit]
  | retUnit => simp [exits]
  | tryBlock body ih => exact ih
  | deferred kind body ih => exact ih
  | propagate k argument ih => exact ih
  | form f children ih =>
      simp only [exits]
      induction children with
      | nil => simp [exitsAll]
      | cons first rest ihrest =>
          intro exit hexit
          rcases List.mem_append.1 hexit with hexit | hexit
          · exact ih first List.mem_cons_self exit hexit
          · exact ihrest (fun child hchild => ih child (List.mem_cons_of_mem _ hchild)) exit hexit

/-- The sites are the exits that leave. -/
theorem leaving_eq_nil_iff (e : Expr F) : ∀ caught position,
    leaving caught e position = [] ↔ ∀ exit ∈ exits (!caught) true e, exit.leaves = false := by
  induction e using Expr.induct with
  | question operand ih =>
      intro caught position
      simp only [leaving, exits, List.append_eq_nil_iff, ih caught, List.mem_append,
        List.mem_singleton, or_imp, forall_and, forall_eq]
      cases caught <;> simp
  | ret operand ih =>
      intro caught position
      simp [leaving, exits]
  | retUnit => simp [leaving, exits]
  | tryBlock body ih => exact fun _ position => ih true _
  | deferred kind body _ =>
      intro caught position
      exact iff_of_true rfl (exits_deferred body)
  | propagate k argument ih => exact fun caught position => ih caught _
  | form f children ih =>
      intro caught position
      -- The positions of the children do not matter for emptiness.
      have hchildren : ∀ index, leavingAll caught children position index = [] ↔
          ∀ exit ∈ exitsAll (!caught) true children, exit.leaves = false := by
        induction children with
        | nil => simp [leavingAll, exitsAll]
        | cons first rest ihrest =>
            intro index
            simp only [leavingAll, exitsAll, List.append_eq_nil_iff, List.mem_append, or_imp,
              forall_and, ih first List.mem_cons_self caught,
              ihrest (fun child hchild => ih child (List.mem_cons_of_mem _ hchild)) (index + 1)]
      exact hchildren 0

/-- The exits of a rewritten expression: the leaving ones wrapped in the next numbers, the others
not at all. -/
structure Wrapped (found : List Exit) (start count : Nat) : Prop where
  leaving : (found.filter Exit.leaves).map Exit.wraps =
    (List.range' start count).map fun k => [k]
  others : ∀ exit ∈ found, exit.leaves = false → exit.wraps = []

theorem Wrapped.append {front back : List Exit} {start count count' : Nat}
    (hfront : Wrapped front start count) (hback : Wrapped back (start + count) count') :
    Wrapped (front ++ back) start (count + count') := by
  refine ⟨?_, ?_⟩
  · calc
      ((front ++ back).filter Exit.leaves).map Exit.wraps =
          (front.filter Exit.leaves).map Exit.wraps ++ (back.filter Exit.leaves).map Exit.wraps := by
        rw [List.filter_append, List.map_append]
      _ = (List.range' start count ++ List.range' (start + count) count').map fun k => [k] := by
        rw [hfront.leaving, hback.leaving, List.map_append]
      _ = (List.range' start (count + count')).map fun k => [k] := by
        rw [List.range'_append_1]
  · intro exit hexit
    rcases List.mem_append.1 hexit with hexit | hexit
    · exact hfront.others exit hexit
    · exact hback.others exit hexit

theorem Wrapped.exit {found : List Exit} {start count : Nat} (h : Wrapped found start count)
    {operand : Expr F} (hoperand : wraps operand = []) :
    Wrapped (found ++ [⟨true, wraps (.propagate (start + count) operand)⟩]) start (count + 1) := by
  rw [wraps, hoperand]
  exact h.append ⟨rfl, by simp⟩

theorem wrapped_source {e : Expr F} {question ret : Bool} {start : Nat} (h : propagations e = [])
    (hquiet : ∀ exit ∈ exits question ret e, exit.leaves = false) :
    Wrapped (exits question ret e) start 0 := by
  refine ⟨?_, fun exit hexit _ => exits_source e question ret h exit hexit⟩
  have hnone : (exits question ret e).filter Exit.leaves = [] := by
    refine List.filter_eq_nil_iff.2 ?_
    intro exit hexit
    simp [hquiet exit hexit]
  simp [hnone]

theorem wrapped_visitAll {children : List (Expr F)} {position : List Nat}
    (h : ∀ child ∈ children, ∀ (s : Sources) position, propagations child = [] →
      leavingTry child position = [] →
      Wrapped (exits true true (visit child s).1) s.count (leaving false child position).length)
    (s : Sources) (index : Nat) (hsource : propagationsAll children = [])
    (htry : leavingTryAll children position index = []) :
    Wrapped (exitsAll true true (visitAll children s).1) s.count
      (leavingAll false children position index).length := by
  induction children generalizing s index with
  | nil => exact ⟨rfl, by simp [visitAll, exitsAll]⟩
  | cons first rest ih =>
      rcases List.append_eq_nil_iff.1 hsource with ⟨hfirst, hrest⟩
      rcases List.append_eq_nil_iff.1 htry with ⟨htry, htry'⟩
      simp only [visitAll, exitsAll, leavingAll, List.length_append]
      refine (h first List.mem_cons_self s _ hfirst htry).append ?_
      rw [← visit_count first s _ htry]
      exact ih (fun child hchild => h child (List.mem_cons_of_mem _ hchild)) _ _ hrest htry'

/-- Each site of a rewritten expression is wrapped once, in visiting order. -/
theorem wrapped_visit (e : Expr F) : ∀ (s : Sources) position, propagations e = [] →
    leavingTry e position = [] →
    Wrapped (exits true true (visit e s).1) s.count (leaving false e position).length := by
  induction e using Expr.induct with
  | question operand ih =>
      intro s position h htry
      have hcount := visit_count operand s (position ++ [0]) htry
      have hoperand : propagations operand = [] := h
      simp only [visit, Sources.propagate, exits, leaving, List.length_append, hcount]
      exact (ih s _ h htry).exit (wraps_visit hoperand s)
  | ret operand ih =>
      intro s position h htry
      have hcount := visit_count operand s (position ++ [0]) htry
      have hoperand : propagations operand = [] := h
      simp only [visit, Sources.propagate, exits, leaving, List.length_append, hcount]
      exact (ih s _ h htry).exit (wraps_visit hoperand s)
  | retUnit => exact fun _ _ _ _ => ⟨rfl, by simp [visit, exits]⟩
  | tryBlock body _ =>
      intro s position h htry
      simp only [leavingTry] at htry
      simp only [visit, exits, leaving, htry, List.length_nil]
      exact wrapped_source h ((leaving_eq_nil_iff body true _).1 htry)
  | deferred kind body _ =>
      intro s position h _
      exact wrapped_source h (exits_deferred body)
  | propagate k argument _ => simp [propagations]
  | form f children ih =>
      intro s position h htry
      exact wrapped_visitAll ih s 0 h htry

theorem exits_visitAll_try {children : List (Expr F)} {position : List Nat}
    (h : ∀ child ∈ children, ∀ (s : Sources) position, propagations child = [] →
      leavingTry child position ≠ [] →
      ∃ exit ∈ exits true true (visit child s).1, exit.leaves = true ∧ exit.wraps = [])
    (s : Sources) (index : Nat) (hsource : propagationsAll children = [])
    (htry : leavingTryAll children position index ≠ []) :
    ∃ exit ∈ exitsAll true true (visitAll children s).1, exit.leaves = true ∧ exit.wraps = [] := by
  induction children generalizing s index with
  | nil => exact absurd rfl htry
  | cons first rest ih =>
      rcases List.append_eq_nil_iff.1 hsource with ⟨hfirst, hrest⟩
      by_cases htry' : leavingTry first (position ++ [index]) = []
      · simp only [leavingTryAll, htry', List.nil_append] at htry
        rcases ih (fun child hchild => h child (List.mem_cons_of_mem _ hchild))
          (visit first s).2 _ hrest htry with ⟨exit, hexit, hleft⟩
        exact ⟨exit, List.mem_append_right _ hexit, hleft⟩
      · rcases h first List.mem_cons_self s _ hfirst htry' with ⟨exit, hexit, hleft⟩
        exact ⟨exit, List.mem_append_left _ hexit, hleft⟩

/-- A `return` inside a `try` block is left as it is. -/
theorem exits_visit_try (e : Expr F) : ∀ (s : Sources) position, propagations e = [] →
    leavingTry e position ≠ [] →
    ∃ exit ∈ exits true true (visit e s).1, exit.leaves = true ∧ exit.wraps = [] := by
  induction e using Expr.induct with
  | question operand ih =>
      intro s position h htry
      rcases ih s (position ++ [0]) h htry with ⟨exit, hexit, hleft⟩
      exact ⟨exit, List.mem_append_left _ hexit, hleft⟩
  | ret operand ih =>
      intro s position h htry
      rcases ih s (position ++ [0]) h htry with ⟨exit, hexit, hleft⟩
      exact ⟨exit, List.mem_append_left _ hexit, hleft⟩
  | retUnit => simp [leavingTry]
  | tryBlock body _ =>
      intro s position h htry
      simp only [leavingTry, ne_eq, leaving_eq_nil_iff body true, not_forall] at htry
      rcases htry with ⟨exit, hexit, hleaves⟩
      exact ⟨exit, hexit, by simpa using hleaves, exits_source body false true h exit hexit⟩
  | deferred kind body _ => simp [leavingTry]
  | propagate k argument _ => simp [propagations]
  | form f children ih =>
      intro s position h htry
      exact exits_visitAll_try ih s 0 h htry

/-- The calls of a rewritten expression, in visiting order. -/
theorem propagations_visitAll {children : List (Expr F)} {position : List Nat}
    (h : ∀ child ∈ children, ∀ (s : Sources) position, propagations child = [] →
      leavingTry child position = [] → propagations (visit child s).1 =
        List.range' s.count (leaving false child position).length)
    (s : Sources) (index : Nat) (hsource : propagationsAll children = [])
    (htry : leavingTryAll children position index = []) :
    propagationsAll (visitAll children s).1 =
      List.range' s.count (leavingAll false children position index).length := by
  induction children generalizing s index with
  | nil => rfl
  | cons first rest ih =>
      rcases List.append_eq_nil_iff.1 hsource with ⟨hfirst, hrest⟩
      rcases List.append_eq_nil_iff.1 htry with ⟨htry, htry'⟩
      simp only [visitAll, propagationsAll, leavingAll, List.length_append]
      rw [h first List.mem_cons_self s _ hfirst htry,
        ih (fun child hchild => h child (List.mem_cons_of_mem _ hchild)) _ _ hrest htry',
        visit_count first s _ htry, List.range'_append_1]

theorem propagations_visit (e : Expr F) : ∀ (s : Sources) position, propagations e = [] →
    leavingTry e position = [] →
    propagations (visit e s).1 = List.range' s.count (leaving false e position).length := by
  induction e using Expr.induct with
  | question operand ih =>
      intro s position h htry
      simp only [visit, Sources.propagate, propagations, leaving, List.length_append]
      rw [ih s (position ++ [0]) h htry, visit_count operand s (position ++ [0]) htry,
        ← List.range'_append_1]
      rfl
  | ret operand ih =>
      intro s position h htry
      simp only [visit, Sources.propagate, propagations, leaving, List.length_append]
      rw [ih s (position ++ [0]) h htry, visit_count operand s (position ++ [0]) htry,
        ← List.range'_append_1]
      rfl
  | retUnit => exact fun _ _ _ _ => rfl
  | tryBlock body _ =>
      intro s position h htry
      have hbody : propagations body = [] := h
      simp only [leavingTry] at htry
      simp [visit, propagations, leaving, htry, hbody]
  | deferred kind body _ => exact fun _ _ h _ => h
  | propagate k argument _ => simp [propagations]
  | form f children ih =>
      intro s position h htry
      exact propagations_visitAll ih s 0 h htry

theorem strip_source (e : Expr F) : propagations e = [] → strip e = e := by
  induction e using Expr.induct with
  | question operand ih =>
      intro h
      rw [strip, ih h]
  | ret operand ih =>
      intro h
      rw [strip, ih h]
  | retUnit => exact fun _ => rfl
  | tryBlock body ih =>
      intro h
      rw [strip, ih h]
  | deferred kind body ih =>
      intro h
      rw [strip, ih h]
  | propagate k argument _ => simp [propagations]
  | form f children ih =>
      intro h
      have hchildren : stripAll children = children := by
        simp only [propagations] at h
        induction children with
        | nil => rfl
        | cons first rest ihrest =>
            rcases List.append_eq_nil_iff.1 h with ⟨hfirst, hrest⟩
            rw [stripAll, ih first List.mem_cons_self hfirst,
              ihrest (fun child hchild => ih child (List.mem_cons_of_mem _ hchild)) hrest]
      rw [strip, hchildren]

theorem strip_visitAll {children : List (Expr F)}
    (h : ∀ child ∈ children, ∀ s : Sources, propagations child = [] →
      strip (visit child s).1 = child) (s : Sources) (hsource : propagationsAll children = []) :
    stripAll (visitAll children s).1 = children := by
  induction children generalizing s with
  | nil => rfl
  | cons first rest ih =>
      rcases List.append_eq_nil_iff.1 hsource with ⟨hfirst, hrest⟩
      simp only [visitAll, stripAll]
      rw [h first List.mem_cons_self s hfirst,
        ih (fun child hchild => h child (List.mem_cons_of_mem _ hchild)) _ hrest]

theorem strip_visit (e : Expr F) : ∀ s : Sources, propagations e = [] →
    strip (visit e s).1 = e := by
  induction e using Expr.induct with
  | question operand ih =>
      intro s h
      simp only [visit, Sources.propagate, strip, ih s h]
  | ret operand ih =>
      intro s h
      simp only [visit, Sources.propagate, strip, ih s h]
  | retUnit => exact fun _ _ => rfl
  | tryBlock body _ => exact fun _ h => strip_source _ h
  | deferred kind body _ => exact fun _ h => strip_source _ h
  | propagate k argument _ => simp [propagations]
  | form f children ih =>
      intro s h
      simp only [visit, strip]
      rw [strip_visitAll ih s h]

/-! ## Declarations -/

section Runs

variable {B J S : Type} {semantics : Semantics F B J S} {fuel : Nat}

/-- A result of the rewritten initializers: a failure is the variant of its site. -/
def Built.route (number : List Nat → Nat) : Built B (List Nat) → Built B Unit
  | .done entries => .done entries
  | .failed site error => .failed () (.source (number site) error)

theorem before_route (number : List Nat → Nat) (entry : Entry B) (built : Built B (List Nat))
    (s : S) :
    runAll.before entry (built.route number, s) =
      ((runAll.before entry (built, s)).1.route number, (runAll.before entry (built, s)).2) := by
  cases built <;> rfl

/-- The rewritten initializers run as the original ones. -/
theorem visitAll_runAll (originals : List (Expr F)) : ∀ (s : Sources) (index : Nat)
    (number : List Nat → Nat) (t : S), leavingTryAll originals [] index = [] →
    (leavingAll false originals [] index).map number =
      List.range' s.count (leavingAll false originals [] index).length →
    runAll semantics fuel (fun _ => ()) (visitAll originals s).1 index t =
      (runAll semantics fuel id originals index t).map
        fun (built, t) => (built.route number, t) := by
  induction originals with
  | nil => exact fun _ _ _ _ _ _ => rfl
  | cons first rest ih =>
      intro s index number t htry hnumber
      rcases List.append_eq_nil_iff.1 htry with ⟨hfirst, hrest⟩
      rcases numbered_append hnumber with ⟨hnumber, hnumber'⟩
      rw [← visit_count first s _ hfirst] at hnumber'
      have heval : eval semantics fuel (fun _ => ()) (visit first s).1 [index] =
          through (route number) (eval semantics fuel id first [index]) :=
        visit_eval first s [index] [index] number hfirst hnumber
      -- After a value, the rest runs from the count the first has left.
      have hgo : ∀ (entry : Entry B) (t : S),
          (runAll semantics fuel (fun _ => ()) (visitAll rest (visit first s).2).1 (index + 1)
            t).map (runAll.before entry) =
          ((runAll semantics fuel id rest (index + 1) t).map (runAll.before entry)).map
            fun (built, t) => (built.route number, t) := by
        intro entry t
        rw [ih _ _ number t hrest hnumber', Option.map_map, Option.map_map]
        congr 1
        funext ⟨built, t⟩
        exact before_route number entry built t
      simp only [visitAll, runAll, heval, through]
      cases hrun : eval semantics fuel id first [index] t with
      | none => rfl
      | some result =>
          rcases result with ⟨outcome, t'⟩
          cases outcome with
          | signal signal =>
              cases signal with
              | value v => exact hgo (.stored v) t'
              | jump target => rfl
          | raise site error => rfl
          | returns site result =>
              cases result with
              | ok v => exact hgo (.returned v) t'
              | error error => rfl

/-- A failure is at a site of the initializers. -/
theorem runAll_site (originals : List (Expr F)) : ∀ (index : Nat) (s s' : S) site error,
    runAll semantics fuel id originals index s = some (.failed site error, s') →
    site ∈ leavingAll false originals [] index := by
  induction originals with
  | nil =>
      intro index s s' site error h
      cases h
  | cons first rest ih =>
      intro index s s' site error h
      -- A failure after this initializer is one of the rest.
      have hlater : ∀ (entry : Entry B) (t : S),
          (runAll semantics fuel id rest (index + 1) t).map (runAll.before entry) =
            some (.failed site error, s') → site ∈ leavingAll false rest [] (index + 1) := by
        intro entry t hmap
        rcases Option.map_eq_some_iff.1 hmap with ⟨⟨built, t'⟩, hrun, heq⟩
        cases built with
        | done entries => cases heq
        | failed site' error' =>
            cases heq
            exact ih (index + 1) t s' site error hrun
      simp only [runAll] at h
      split at h
      · exact List.mem_append_right _ (hlater _ _ h)
      · exact List.mem_append_right _ (hlater _ _ h)
      · -- This initializer fails, by `?` or by `return`.
        rename_i site' error' t heval
        cases h
        exact List.mem_append_left _ ((eval_site first [index] s s').1 site error heval)
      · rename_i site' error' t heval
        cases h
        exact List.mem_append_left _
          ((eval_site first [index] s s').2 site (.error error) heval false)
      · cases h
      · cases h

end Runs

/-- A list without repetition is numbered by the places of its elements. -/
theorem map_idxOf_eq_range {sites : List (List Nat)} (h : sites.Nodup) :
    sites.map (fun site => sites.idxOf site) = List.range' 0 sites.length := by
  refine List.ext_getElem (by simp) ?_
  intro i hi _
  have hlt : i < sites.length := by simpa using hi
  simp [h.idxOf_getElem i hlt]

/-- An initializer as it is written: it has no call of `propagate_k` yet. -/
structure Initializer (F : Type) where
  body : Expr F
  written : propagations body = []

theorem propagationsAll_written (initializers : List (Initializer F)) :
    propagationsAll (initializers.map Initializer.body) = [] := by
  induction initializers with
  | nil => rfl
  | cons first rest ih =>
      rw [List.map_cons, propagationsAll, first.written, ih]
      rfl

/-- Every early exit of the originals goes to its own variant in the rewritten initializers. -/
structure Routed (originals rewritten : List (Expr F)) (count : Nat) : Prop where
  /-- Nothing but calls of `propagate_k` has been added. -/
  same : stripAll rewritten = originals
  /-- The exits that leave an initializer, and no others, have a call around their operand: the
  `k`-th of them one call of `propagate_k`. -/
  wrapped : Wrapped (exitsAll true true rewritten) 0 count
  /-- There are no other calls. -/
  indices : propagationsAll rewritten = List.range count
  fails : ∀ (B J S : Type) (semantics : Semantics F B J S) (fuel : Nat) (s s' : S)
    (failure : Value B),
    runAll semantics fuel (fun _ => ()) rewritten 0 s = some (.failed () failure, s') ↔
      ∃ k site error, failure = .source k error ∧
        (leavingAll false originals [] 0)[k]? = some site ∧
        runAll semantics fuel id originals 0 s = some (.failed site error, s')
  succeeds : ∀ (B J S : Type) (semantics : Semantics F B J S) (fuel : Nat) (s s' : S)
    (entries : List (Entry B)),
    runAll semantics fuel (fun _ => ()) rewritten 0 s = some (.done entries, s') ↔
      runAll semantics fuel id originals 0 s = some (.done entries, s')

/-- The runs of rewritten initializers, where no exit leaves from inside a `try` block. -/
theorem routed_of_leavingTryAll {originals : List (Expr F)} (hsource : propagationsAll originals = [])
    (htry : leavingTryAll originals [] 0 = []) :
    Routed originals (visitAll originals ⟨0⟩).1 (visitAll originals ⟨0⟩).2.count := by
  have hcount : (visitAll originals ⟨0⟩).2.count = (leavingAll false originals [] 0).length := by
    rw [visitAll_count (fun child _ => visit_count child) ⟨0⟩ 0 htry, Nat.zero_add]
  have hnodup : (leavingAll false originals [] 0).Nodup :=
    leavingAll_nodup (fun child _ => leaving_nodup child false) 0
  -- The runs correspond when each site is numbered by its place in the list of sites.
  have hrun := fun (B J S : Type) (semantics : Semantics F B J S) (fuel : Nat) (s : S) =>
    @visitAll_runAll F B J S semantics fuel originals ⟨0⟩ 0
      (fun site => (leavingAll false originals [] 0).idxOf site) s htry (map_idxOf_eq_range hnodup)
  refine ⟨strip_visitAll (fun child _ => strip_visit child) ⟨0⟩ hsource, ?_, ?_, ?_, ?_⟩
  · rw [hcount]
    exact wrapped_visitAll (fun child _ => wrapped_visit child) ⟨0⟩ 0 hsource htry
  · rw [hcount, List.range_eq_range']
    exact propagations_visitAll (fun child _ => propagations_visit child) ⟨0⟩ 0 hsource htry
  · -- A failure carries the number of its site, and the number says which site it was.
    intro B J S semantics fuel s s' failure
    rw [hrun]
    refine ⟨?_, ?_⟩
    · intro h
      rcases Option.map_eq_some_iff.1 h with ⟨⟨built, t⟩, horiginal, heq⟩
      cases built with
      | done entries => cases heq
      | failed site error =>
          cases heq
          have hsite := runAll_site originals 0 s s' site error horiginal
          refine ⟨_, site, error, rfl, ?_, horiginal⟩
          exact List.getElem?_eq_some_iff.2
            ⟨List.idxOf_lt_length_of_mem hsite, List.getElem_idxOf _⟩
    · intro h
      rcases h with ⟨k, site, error, rfl, hsite, horiginal⟩
      rcases List.getElem?_eq_some_iff.1 hsite with ⟨hk, rfl⟩
      rw [horiginal]
      simp [Built.route, hnodup.idxOf_getElem k hk]
  · intro B J S semantics fuel s s' entries
    rw [hrun]
    refine ⟨?_, ?_⟩
    · intro h
      rcases Option.map_eq_some_iff.1 h with ⟨⟨built, t⟩, horiginal, heq⟩
      cases built with
      | done entries =>
          cases heq
          exact horiginal
      | failed site error => cases heq
    · intro h
      rw [h]
      rfl

/-- Error sources are routed exactly when no `return` leaves an initializer from inside a `try`
block. -/
theorem sources_routed_iff (initializers : List (Initializer F)) :
    Routed (initializers.map Initializer.body)
        (visitAll (initializers.map Initializer.body) ⟨0⟩).1
        (visitAll (initializers.map Initializer.body) ⟨0⟩).2.count ↔
      leavingTryAll (initializers.map Initializer.body) [] 0 = [] := by
  have hsource := propagationsAll_written initializers
  refine ⟨?_, routed_of_leavingTryAll hsource⟩
  intro hrouted
  by_contra htry
  rcases exits_visitAll_try (fun child _ => exits_visit_try child) ⟨0⟩ 0 hsource htry with
    ⟨exit, hexit, hleaves, hwraps⟩
  -- It would be among the exits with one call.
  have hmem : exit.wraps ∈ ((exitsAll true true (visitAll (initializers.map Initializer.body)
      ⟨0⟩).1).filter Exit.leaves).map Exit.wraps :=
    List.mem_map_of_mem (List.mem_filter.2 ⟨hexit, hleaves⟩)
  rw [hrouted.wrapped.leaving, hwraps] at hmem
  simp at hmem

/-- `try { return Err(e) }`: the visitor leaves the `return` as it is. -/
theorem sources_not_routed_try :
    ¬ Routed [.tryBlock (.ret (.form () []))]
        (visitAll [.tryBlock (.ret (.form () []))] ⟨0⟩).1
        (visitAll [.tryBlock (.ret (.form () []))] ⟨0⟩).2.count := by
  intro hrouted
  have hleaving := hrouted.wrapped.leaving
  simp [visitAll, visit, exitsAll, exits, wraps] at hleaving

end Declaration
end Systasis
