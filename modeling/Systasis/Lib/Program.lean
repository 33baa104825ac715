import Mathlib.Logic.Function.Basic
import Systasis.Lib.Run

/-!
# Program — programs that ask a shared store, run alone or beside others

A program asks questions of a store and goes on with the answers.  Alone, it is run by a function
that answers.  In a pool, any number of clients run programs side by side: a question is open from
the moment its program stands before it until its answer is taken, the store answers it at one
instant in between, and may take into account which questions the others have open.
-/

namespace Systasis
namespace Lib

inductive Program (Q A R : Type) where
  | done (result : R)
  | ask (q : Q) (next : A → Program Q A R)

namespace Program

variable {Q A R R' S : Type}

def bind : Program Q A R → (R → Program Q A R') → Program Q A R'
  | .done result, f => f result
  | .ask q next, f => .ask q fun a => (next a).bind f

/-- Run alone against a store. -/
def run (answer : Q → S → A × S) : Program Q A R → S → R × S
  | .done result, s => (result, s)
  | .ask q next, s => (next (answer q s).1).run answer (answer q s).2

/-- Whatever is answered, the program asks and returns only this. -/
def Within (P : Q → Prop) (T : R → Prop) : Program Q A R → Prop
  | .done result => T result
  | .ask q next => P q ∧ ∀ a, (next a).Within P T

@[simp]
theorem run_done (answer : Q → S → A × S) (result : R) (s : S) :
    (done result : Program Q A R).run answer s = (result, s) := rfl

@[simp]
theorem run_ask (answer : Q → S → A × S) (q : Q) (next : A → Program Q A R) (s : S) :
    (ask q next).run answer s = (next (answer q s).1).run answer (answer q s).2 := rfl

theorem run_bind (answer : Q → S → A × S) (p : Program Q A R) (f : R → Program Q A R') (s : S) :
    (p.bind f).run answer s = (f (p.run answer s).1).run answer (p.run answer s).2 := by
  induction p generalizing s with
  | done result => rfl
  | ask q next ih => exact ih (answer q s).1 (answer q s).2

/-- What every answer keeps is kept by a run. -/
theorem run_preserves {answer : Q → S → A × S} {I : S → Prop}
    (hanswer : ∀ q s, I s → I (answer q s).2) (p : Program Q A R) {s : S} (hs : I s) :
    I (p.run answer s).2 := by
  induction p generalizing s with
  | done result => exact hs
  | ask q next ih => exact ih (answer q s).1 (hanswer q s hs)

theorem Within.run {P : Q → Prop} {T : R → Prop} {p : Program Q A R} (hp : p.Within P T)
    (answer : Q → S → A × S) (s : S) : T (p.run answer s).1 := by
  induction p generalizing s with
  | done result => exact hp
  | ask q next ih => exact ih (answer q s).1 (hp.2 _) (answer q s).2

theorem Within.bind {P : Q → Prop} {T : R → Prop} {T' : R' → Prop} {p : Program Q A R}
    {f : R → Program Q A R'} (hp : p.Within P T) (hf : ∀ result, T result → (f result).Within P T') :
    (p.bind f).Within P T' := by
  induction p with
  | done result => exact hf result hp
  | ask q next ih => exact ⟨hp.1, fun a => ih a (hp.2 a)⟩

theorem Within.mono {P P' : Q → Prop} {T T' : R → Prop} {p : Program Q A R} (hp : p.Within P T)
    (hP : ∀ q, P q → P' q) (hT : ∀ result, T result → T' result) : p.Within P' T' := by
  induction p with
  | done result => exact hT result hp
  | ask q next ih => exact ⟨hP q hp.1, fun a => ih a (hp.2 a)⟩

end Program

/-! ## Pools -/

inductive Thread (Q A R : Type) where
  | idle
  | running (p : Program Q A R)
  /-- The question is answered and its answer not yet taken. -/
  | answered (q : Q) (p : Program Q A R)

namespace Thread

variable {Q A R : Type}

/-- The question a thread has open. -/
def question : Thread Q A R → Option Q
  | .running (.ask q _) => some q
  | .answered q _ => some q
  | _ => none

/-- What a thread still does is within these questions and results. -/
def Within (P : Q → Prop) (T : R → Prop) : Thread Q A R → Prop
  | .idle => True
  | .running p => p.Within P T
  | .answered q p => P q ∧ p.Within P T

theorem Within.question {P : Q → Prop} {T : R → Prop} {thread : Thread Q A R}
    (h : thread.Within P T) {q : Q} (hq : thread.question = some q) : P q := by
  cases thread with
  | idle => cases hq
  | answered q' p =>
      cases hq
      exact h.1
  | running p =>
      cases p with
      | done result => cases hq
      | ask q' next =>
          cases hq
          exact h.1

end Thread

namespace Pool

structure State (S Client Q A R : Type) where
  store : S
  thread : Client → Thread Q A R

inductive Label (Client K Q A R : Type) where
  | start (c : Client) (k : K)
  | answer (c : Client) (q : Q) (a : A)
  | take (c : Client)
  | return (c : Client) (result : R)

variable {S Client K Q A R : Type}

/-- A question that another client has open. -/
def Elsewhere (s : State S Client Q A R) (c : Client) (q : Q) : Prop :=
  ∃ d, d ≠ c ∧ (s.thread d).question = some q

/-- The requests a trace starts. -/
def Starts (trace : List (Transition (State S Client Q A R) (Label Client K Q A R))) (c : Client)
    (k : K) : Prop :=
  ∃ t ∈ trace, t.label = .start c k

variable [DecidableEq Client]

def State.set (s : State S Client Q A R) (c : Client) (thread : Thread Q A R) :
    State S Client Q A R :=
  { s with thread := Function.update s.thread c thread }

@[simp]
theorem State.set_thread (s : State S Client Q A R) (c : Client) (thread : Thread Q A R) :
    (s.set c thread).thread c = thread := by
  simp [State.set]

theorem State.set_other (s : State S Client Q A R) {c d : Client} (thread : Thread Q A R)
    (hd : d ≠ c) : (s.set c thread).thread d = s.thread d := by
  simp [State.set, hd]

/-- Clients run the programs of requests `K`; `answers` relates the questions open elsewhere, the
store, a question, its answer and the store left. -/
inductive Step (program : K → Program Q A R)
    (answers : (Q → Prop) → S → Q → A → S → Prop) :
    State S Client Q A R → Label Client K Q A R → State S Client Q A R → Prop
  | start {s : State S Client Q A R} {c : Client} {k : K} :
      s.thread c = .idle →
      Step program answers s (.start c k) (s.set c (.running (program k)))
  | answer {s : State S Client Q A R} {c : Client} {q : Q} {next : A → Program Q A R} {a : A}
      {t : S} :
      s.thread c = .running (.ask q next) →
      answers (Elsewhere s c) s.store q a t →
      Step program answers s (.answer c q a) ({ s with store := t }.set c (.answered q (next a)))
  | take {s : State S Client Q A R} {c : Client} {q : Q} {p : Program Q A R} :
      s.thread c = .answered q p →
      Step program answers s (.take c) (s.set c (.running p))
  | return {s : State S Client Q A R} {c : Client} {result : R} :
      s.thread c = .running (.done result) →
      Step program answers s (.return c result) (s.set c .idle)

section Steps

variable {program : K → Program Q A R} {answers : (Q → Prop) → S → Q → A → S → Prop}
  {s t : State S Client Q A R} {l : Label Client K Q A R}

/-- What a step does to the store: nothing, or one answer. -/
theorem Step.store (hstep : Step program answers s l t) :
    ((∀ c q a, l ≠ .answer c q a) ∧ t.store = s.store) ∨
      ∃ c q next a, l = .answer c q a ∧ s.thread c = .running (.ask q next) ∧
        answers (Elsewhere s c) s.store q a t.store := by
  cases hstep with
  | start _ => exact .inl ⟨nofun, rfl⟩
  | answer hthread hanswer => exact .inr ⟨_, _, _, _, rfl, hthread, hanswer⟩
  | take _ => exact .inl ⟨nofun, rfl⟩
  | «return» _ => exact .inl ⟨nofun, rfl⟩

/-- Threads stay within their bounds when the requests started are. -/
theorem Step.within {P : Client → Q → Prop} {T : R → Prop}
    (hs : ∀ c, (s.thread c).Within (P c) T) (hstep : Step program answers s l t)
    (hstart : ∀ c k, l = .start c k → (program k).Within (P c) T) :
    ∀ c, (t.thread c).Within (P c) T := by
  -- Only the thread of the client that steps changes.
  have hset : ∀ {m : State S Client Q A R} {c : Client} {thread : Thread Q A R},
      m.thread = s.thread → thread.Within (P c) T →
      ∀ d, ((m.set c thread).thread d).Within (P d) T := by
    intro m c thread hm hthread d
    by_cases hd : d = c
    · subst hd
      simpa using hthread
    · rw [State.set_other _ _ hd, hm]
      exact hs d
  cases hstep with
  | @start c k _ => exact hset rfl (hstart c k rfl)
  | @answer c q next a _ hthread _ =>
      have hask := hs c
      rw [hthread] at hask
      exact hset rfl ⟨hask.1, hask.2 a⟩
  | @take c q p hthread =>
      have hanswered := hs c
      rw [hthread] at hanswered
      exact hset rfl hanswered.2
  | «return» _ => exact hset rfl trivial

end Steps

section Runs

variable {program : K → Program Q A R} {answers : (Q → Prop) → S → Q → A → S → Prop}
  {trace : List (Transition (State S Client Q A R) (Label Client K Q A R))}
  {s t : State S Client Q A R}

omit [DecidableEq Client] in
theorem Starts.snoc {c : Client} {k : K}
    {x : Transition (State S Client Q A R) (Label Client K Q A R)} (h : Starts trace c k) :
    Starts (trace ++ [x]) c k := by
  rcases h with ⟨y, hy, hl⟩
  exact ⟨y, List.mem_append_left _ hy, hl⟩

theorem within {P : Client → Q → Prop} {T : R → Prop}
    (hrun : Run (Step program answers) s trace t) (hs : ∀ c, (s.thread c).Within (P c) T)
    (hstart : ∀ c k, Starts trace c k → (program k).Within (P c) T) :
    ∀ c, (t.thread c).Within (P c) T := by
  induction hrun with
  | nil => exact hs
  | @snoc m t trace l _ hlast ih =>
      refine hlast.within (ih fun c k h => hstart c k h.snoc) ?_
      rintro c k rfl
      exact hstart c k ⟨_, List.mem_append_right _ (List.mem_singleton_self _), rfl⟩

/-- An invariant of the store that every answer to a permitted question keeps holds in every run
whose requests ask only permitted questions. -/
theorem invariant {P : Client → Q → Prop} {T : R → Prop} {I : S → Prop}
    (hrun : Run (Step program answers) s trace t) (hs : ∀ c, (s.thread c).Within (P c) T)
    (hstart : ∀ c k, Starts trace c k → (program k).Within (P c) T) (hI : I s.store)
    (hanswer : ∀ c others o q a o', I o → P c q → answers others o q a o' → I o') :
    I t.store := by
  induction hrun with
  | nil => exact hI
  | @snoc m t trace l hrun hlast ih =>
      have hstart' : ∀ c k, Starts trace c k → (program k).Within (P c) T :=
        fun c k h => hstart c k h.snoc
      have hm := within hrun hs hstart'
      rcases hlast.store with ⟨-, hsame⟩ | ⟨c, q, next, a, -, hthread, hans⟩
      · exact hsame ▸ ih hstart'
      · have hask := hm c
        rw [hthread] at hask
        exact hanswer c _ _ q a _ (ih hstart') hask.1 hans

end Runs

/-! ## Isolation -/

section Isolation

variable {program : K → Program Q A R} {answers : (Q → Prop) → S → Q → A → S → Prop}
  {answer : Q → S → A × S} {same : S → S → Prop} {F G : Q → Prop}

/-- One client's questions are answered as if it were alone, up to what it can tell about the
store, as long as the others keep to questions that do not concern it. -/
structure Isolates (answers : (Q → Prop) → S → Q → A → S → Prop) (answer : Q → S → A × S)
    (same : S → S → Prop) (F G : Q → Prop) : Prop where
  own : ∀ others s q a t s', F q → (∀ q', others q' → G q') → answers others s q a t → same s s' →
    a = (answer q s').1 ∧ same t (answer q s').2
  other : ∀ others s q a t s', G q → answers others s q a t → same s s' → same t s'

/-- What a thread has still to do, done alone, gives this outcome. -/
def Ahead (answer : Q → S → A × S) (same : S → S → Prop) (outcome : R × S) (s : S) :
    Thread Q A R → Prop
  | .idle => True
  | .running p | .answered _ p => ∃ s', same s s' ∧ p.run answer s' = outcome

theorem Ahead.mono {outcome : R × S} {s t : S} {thread : Thread Q A R}
    (h : Ahead answer same outcome s thread) (hsame : ∀ s', same s s' → same t s') :
    Ahead answer same outcome t thread := by
  cases thread with
  | idle => trivial
  | running p =>
      rcases h with ⟨s', hs', hrun⟩
      exact ⟨s', hsame s' hs', hrun⟩
  | answered q p =>
      rcases h with ⟨s', hs', hrun⟩
      exact ⟨s', hsame s' hs', hrun⟩

variable {c : Client} {s m t : State S Client Q A R} {outcome : R × S}

/-- No step but a new request of its own makes a client leave its outcome. -/
theorem Step.ahead (hisolates : Isolates answers answer same F G) {T : R → Prop}
    {l : Label Client K Q A R} (hstep : Step program answers s l t)
    (hown : (s.thread c).Within F T) (hothers : ∀ d, d ≠ c → (s.thread d).Within G T)
    (hstart : ∀ k, l ≠ .start c k) (h : Ahead answer same outcome s.store (s.thread c)) :
    Ahead answer same outcome t.store (t.thread c) := by
  cases hstep with
  | @start d k _ =>
      have hd : c ≠ d := fun heq => hstart k (by rw [heq])
      rw [State.set_other _ _ hd]
      exact h
  | @answer d q next a o hthread hanswer =>
      by_cases hd : c = d
      · subst hd
        rw [hthread] at h hown
        rcases h with ⟨s', hs', hrun⟩
        have hconcern : ∀ q', Elsewhere s c q' → G q' := by
          rintro q' ⟨d, hd, hq'⟩
          exact (hothers d hd).question hq'
        rcases hisolates.own _ _ q a o s' hown.1 hconcern hanswer hs' with ⟨rfl, ho⟩
        rw [State.set_thread]
        exact ⟨(answer q s').2, ho, hrun⟩
      · rw [State.set_other _ _ hd]
        have hask := hothers d (Ne.symm hd)
        rw [hthread] at hask
        exact h.mono fun s' hs' => hisolates.other _ _ q a o s' hask.1 hanswer hs'
  | @take d q p hthread =>
      by_cases hd : c = d
      · subst hd
        rw [hthread] at h
        rw [State.set_thread]
        exact h
      · rw [State.set_other _ _ hd]
        exact h
  | @«return» d result hthread =>
      by_cases hd : c = d
      · subst hd
        rw [State.set_thread]
        trivial
      · rw [State.set_other _ _ hd]
        exact h

/-- A program whose questions are isolated returns in every interleaving what it returns alone. -/
theorem alone (hisolates : Isolates answers answer same F G) {T : R → Prop}
    {p : Program Q A R} {o : S} {result : R}
    {trace : List (Transition (State S Client Q A R) (Label Client K Q A R))}
    (hrun : Run (Step program answers) s trace m)
    (hreturn : Step program answers m (.return c result) t)
    (hthread : s.thread c = .running p) (hp : p.Within F T) (hsame : same s.store o)
    (hothers : ∀ d, d ≠ c → (s.thread d).Within G T)
    (hstart : ∀ d k, Starts trace d k → d ≠ c ∧ (program k).Within G T) :
    result = (p.run answer o).1 ∧ same t.store (p.run answer o).2 := by
  let P : Client → Q → Prop := fun d q => if d = c then F q else G q
  have hclient : P c = F := by simp [P]
  have hother : ∀ {d}, d ≠ c → P d = G := fun hd => by simp [P, hd]
  have hwithin : ∀ d, (s.thread d).Within (P d) T := by
    intro d
    by_cases hd : d = c
    · subst hd
      rw [hclient, hthread]
      exact hp
    · rw [hother hd]
      exact hothers d hd
  have hprograms : ∀ d k, Starts trace d k → (program k).Within (P d) T := by
    intro d k hk
    rw [hother (hstart d k hk).1]
    exact (hstart d k hk).2
  have hahead : Ahead answer same (p.run answer o) m.store (m.thread c) := by
    clear hreturn
    induction hrun with
    | nil =>
        rw [hthread]
        exact ⟨o, hsame, rfl⟩
    | @snoc m' m trace l hrun hlast ih =>
        have hbefore : ∀ d k, Starts trace d k → d ≠ c ∧ (program k).Within G T :=
          fun d k hk => hstart d k hk.snoc
        have hprograms' : ∀ d k, Starts trace d k → (program k).Within (P d) T :=
          fun d k hk => hprograms d k hk.snoc
        have hm := within hrun hwithin hprograms'
        refine hlast.ahead hisolates (hclient ▸ hm c) (fun d hd => hother hd ▸ hm d) ?_
          (ih hbefore hprograms')
        rintro k rfl
        exact (hstart c k ⟨_, List.mem_append_right _ (List.mem_singleton_self _), rfl⟩).1 rfl
  cases hreturn with
  | «return» hdone =>
      rw [hdone] at hahead
      rcases hahead with ⟨s', hs', hrun'⟩
      rw [← hrun']
      exact ⟨rfl, hs'⟩

end Isolation

end Pool
end Lib
end Systasis
