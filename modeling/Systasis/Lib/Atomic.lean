import Mathlib.Logic.Function.Basic
import Systasis.Lib.Simulation

/-!
# Atomic — objects whose operations take effect at one instant

An object is given by what one operation does to it at once.  Its canonical automaton lets any
number of clients open operations, commits each at one instant between its invocation and its
response, and shows only invocations, responses and the actions of users.  What the automaton shows
is explained by a sequential history that keeps the order of operations that do not overlap.
-/

namespace Systasis
namespace Lib

/-- What an object does.  An operation may be told that another one is open meanwhile. -/
structure Object (S Op Res Act : Type) where
  perform : Bool → S → Op → Res → S → Prop
  /-- What users do with what they were handed. -/
  act : S → Act → S → Prop

inductive Pending (Op Res : Type) where
  | idle
  | opened (op : Op)
  | committed (op : Op) (res : Res)

/-- What is seen of an object from outside. -/
inductive Event (Client Op Res Act : Type) where
  | invoke (c : Client) (op : Op)
  | respond (c : Client) (op : Op) (res : Res)
  | act (a : Act)

/-- One entry of a sequential history. -/
inductive Entry (Client Op Res Act : Type) where
  | op (c : Client) (op : Op) (res : Res) (overlapped : Bool)
  | act (a : Act)

section Object

variable {S Op Res Act Client : Type}

/-- The object used by one client after the other. -/
inductive Object.Does (object : Object S Op Res Act) :
    S → Entry Client Op Res Act → S → Prop
  | op {s t : S} {c : Client} {op : Op} {res : Res} {overlapped : Bool} :
      object.perform overlapped s op res t → Does object s (.op c op res overlapped) t
  | act {s t : S} {a : Act} : object.act s a t → Does object s (.act a) t

end Object

namespace Atomic

variable {S Op Res Act Client : Type}

/-! ## The canonical automaton -/

structure State (S Client Op Res : Type) where
  object : S
  pending : Client → Pending Op Res

def init (s : S) : State S Client Op Res where
  object := s
  pending := fun _ => .idle

inductive Label (Client Op Res Act : Type) where
  | event (e : Event Client Op Res Act)
  | commit (c : Client) (op : Op) (res : Res) (overlapped : Bool)

def Label.view : Label Client Op Res Act → Option (Event Client Op Res Act)
  | .event e => some e
  | .commit _ _ _ _ => none

/-- What a step adds to the history. -/
def Label.entry : Label Client Op Res Act → Option (Entry Client Op Res Act)
  | .event (.act a) => some (.act a)
  | .event _ => none
  | .commit c op res overlapped => some (.op c op res overlapped)

/-- Another client has an operation open. -/
def Overlapped (s : State S Client Op Res) (c : Client) : Prop :=
  ∃ d, d ≠ c ∧ s.pending d ≠ .idle

variable [DecidableEq Client]

inductive Step (object : Object S Op Res Act) :
    State S Client Op Res → Label Client Op Res Act → State S Client Op Res → Prop
  | invoke {s : State S Client Op Res} {c : Client} {op : Op} :
      s.pending c = .idle →
      Step object s (.event (.invoke c op))
        { s with pending := Function.update s.pending c (.opened op) }
  | commit {s : State S Client Op Res} {c : Client} {op : Op} {res : Res} {overlapped : Bool}
      {t : S} :
      s.pending c = .opened op →
      (overlapped = true → Overlapped s c) →
      object.perform overlapped s.object op res t →
      Step object s (.commit c op res overlapped)
        { object := t, pending := Function.update s.pending c (.committed op res) }
  | respond {s : State S Client Op Res} {c : Client} {op : Op} {res : Res} :
      s.pending c = .committed op res →
      Step object s (.event (.respond c op res))
        { s with pending := Function.update s.pending c .idle }
  | act {s : State S Client Op Res} {a : Act} {t : S} :
      object.act s.object a t →
      Step object s (.event (.act a)) { s with object := t }

/-! ## Histories -/

def invocations (c : Client) (events : List (Event Client Op Res Act)) : List Op :=
  events.filterMap fun
    | .invoke d op => if d = c then some op else none
    | _ => none

def responses (c : Client) (events : List (Event Client Op Res Act)) : List (Op × Res) :=
  events.filterMap fun
    | .respond d op res => if d = c then some (op, res) else none
    | _ => none

def acts (events : List (Event Client Op Res Act)) : List Act :=
  events.filterMap fun
    | .act a => some a
    | _ => none

/-- The operations of one client in a history. -/
def performed (c : Client) (history : List (Entry Client Op Res Act)) : List (Op × Res) :=
  history.filterMap fun
    | .op d op res _ => if d = c then some (op, res) else none
    | _ => none

def acted (history : List (Entry Client Op Res Act)) : List Act :=
  history.filterMap fun
    | .act a => some a
    | _ => none

section Projections

variable (c d : Client) (op : Op) (res : Res)

@[simp]
theorem invocations_append (events more : List (Event Client Op Res Act)) :
    invocations c (events ++ more) = invocations c events ++ invocations c more :=
  List.filterMap_append

@[simp]
theorem responses_append (events more : List (Event Client Op Res Act)) :
    responses c (events ++ more) = responses c events ++ responses c more :=
  List.filterMap_append

@[simp]
theorem performed_append (history more : List (Entry Client Op Res Act)) :
    performed c (history ++ more) = performed c history ++ performed c more :=
  List.filterMap_append

@[simp]
theorem invocations_invoke : invocations c [(.invoke d op : Event Client Op Res Act)] =
    if d = c then [op] else [] := by
  by_cases h : d = c <;> simp [invocations, h]

@[simp]
theorem responses_respond : responses c [(.respond d op res : Event Client Op Res Act)] =
    if d = c then [(op, res)] else [] := by
  by_cases h : d = c <;> simp [responses, h]

@[simp]
theorem performed_op (overlapped : Bool) :
    performed c [(.op d op res overlapped : Entry Client Op Res Act)] =
      if d = c then [(op, res)] else [] := by
  by_cases h : d = c <;> simp [performed, h]

end Projections

/-- A client waits for a response. -/
def Waiting (c : Client) (events : List (Event Client Op Res Act)) : Prop :=
  (responses c events).length < (invocations c events).length

/-- A history matches what has been seen: each client's operations contain all that have been
answered, with these answers, and none that has not been invoked. -/
structure Cut (events : List (Event Client Op Res Act))
    (history : List (Entry Client Op Res Act)) : Prop where
  responded : ∀ c, responses c events <+: performed c history
  invoked : ∀ c, (performed c history).map Prod.fst <+: invocations c events
  acts : acted history = acts events

/-- A sequential history explains what was seen.  Every moment of the events cuts the history, so
an operation that was answered before another was invoked comes before it. -/
structure Linearizes (object : Object S Op Res Act) (s : S)
    (events : List (Event Client Op Res Act)) (history : List (Entry Client Op Res Act))
    (t : S) : Prop where
  legal : ∃ trace : List (Transition S (Entry Client Op Res Act)),
    Run object.Does s trace t ∧ trace.map Transition.label = history
  cuts : ∀ front, front <+: events → ∃ before, before <+: history ∧ Cut front before
  /-- An operation told of another was performed while another client waited. -/
  overlaps : ∀ before c op res after, history = before ++ .op c op res true :: after →
    ∃ front, front <+: events ∧ Cut front before ∧ Cut front (before ++ [.op c op res true]) ∧
      ∃ d, d ≠ c ∧ Waiting d front

/-! ## Runs of the automaton are linearized by their commits -/

/-- What the open operation of a client adds to its responses, and to its performed operations. -/
def ahead : Pending Op Res → List (Op × Res) × List Op
  | .idle => ([], [])
  | .opened op => ([], [op])
  | .committed op res => ([(op, res)], [])

/-- The events and the history so far, up to the operations that are open. -/
structure Tracks (events : List (Event Client Op Res Act))
    (history : List (Entry Client Op Res Act)) (s : State S Client Op Res) : Prop where
  responded : ∀ c, performed c history = responses c events ++ (ahead (s.pending c)).1
  invoked : ∀ c, invocations c events =
    (performed c history).map Prod.fst ++ (ahead (s.pending c)).2
  acts : acted history = acts events

section Tracks

variable {object : Object S Op Res Act} {events : List (Event Client Op Res Act)}
  {history : List (Entry Client Op Res Act)} {s t : State S Client Op Res}
  {l : Label Client Op Res Act}

theorem Tracks.cut (h : Tracks events history s) : Cut events history where
  responded := fun c => ⟨_, (h.responded c).symm⟩
  invoked := fun c => ⟨_, (h.invoked c).symm⟩
  acts := h.acts

/-- A client inside an operation waits for its response. -/
theorem Tracks.waiting (h : Tracks events history s) {c : Client} (hc : s.pending c ≠ .idle) :
    Waiting c events := by
  have hresponded := congrArg List.length (h.responded c)
  have hinvoked := congrArg List.length (h.invoked c)
  cases hpending : s.pending c with
  | idle => exact absurd hpending hc
  | opened op =>
      simp only [hpending, ahead, List.append_nil, List.length_append, List.length_map,
        List.length_singleton] at hresponded hinvoked
      unfold Waiting
      omega
  | committed op res =>
      simp only [hpending, ahead, List.append_nil, List.length_append, List.length_map,
        List.length_singleton] at hresponded hinvoked
      unfold Waiting
      omega

theorem Tracks.step (h : Tracks events history s) (hstep : Step object s l t) :
    Tracks (events ++ l.view.toList) (history ++ l.entry.toList) t := by
  have hresponded := h.responded
  have hinvoked := h.invoked
  cases hstep with
  | @invoke c op hidle =>
      have hresponses : ∀ d, responses d [(.invoke c op : Event Client Op Res Act)] = [] :=
        fun _ => rfl
      refine ⟨?_, ?_, ?_⟩
      · intro d
        by_cases hd : d = c
        · subst hd
          simpa [Label.view, Label.entry, hresponses, ahead, hidle] using hresponded d
        · simpa [Label.view, Label.entry, hresponses, hd] using hresponded d
      · intro d
        by_cases hd : d = c
        · subst hd
          simpa [Label.view, Label.entry, ahead, hidle] using hinvoked d
        · simpa [Label.view, Label.entry, hd, Ne.symm hd] using hinvoked d
      · simpa [Label.view, Label.entry, Atomic.acts] using h.acts
  | @commit c op res overlapped object' hopened hoverlapped hperform =>
      refine ⟨?_, ?_, ?_⟩
      · intro d
        by_cases hd : d = c
        · subst hd
          simpa [Label.view, Label.entry, ahead, hopened] using hresponded d
        · simpa [Label.view, Label.entry, hd, Ne.symm hd] using hresponded d
      · intro d
        by_cases hd : d = c
        · subst hd
          simpa [Label.view, Label.entry, ahead, hopened] using hinvoked d
        · simpa [Label.view, Label.entry, hd, Ne.symm hd] using hinvoked d
      · simpa [Label.view, Label.entry, acted] using h.acts
  | @respond c op res hcommitted =>
      have hinvocations : ∀ d, invocations d [(.respond c op res : Event Client Op Res Act)] = [] :=
        fun _ => rfl
      refine ⟨?_, ?_, ?_⟩
      · intro d
        by_cases hd : d = c
        · subst hd
          simpa [Label.view, Label.entry, ahead, hcommitted] using hresponded d
        · simpa [Label.view, Label.entry, hd, Ne.symm hd] using hresponded d
      · intro d
        by_cases hd : d = c
        · subst hd
          simpa [Label.view, Label.entry, hinvocations, ahead, hcommitted] using hinvoked d
        · simpa [Label.view, Label.entry, hinvocations, hd] using hinvoked d
      · simpa [Label.view, Label.entry, Atomic.acts] using h.acts
  | act hact =>
      refine ⟨?_, ?_, ?_⟩
      · intro d
        simpa [Label.view, Label.entry, responses, performed] using hresponded d
      · intro d
        simpa [Label.view, Label.entry, invocations, performed] using hinvoked d
      · simpa [Label.view, Label.entry, Atomic.acts, acted] using h.acts

/-- One step extends the sequential run by its entry, if it has one. -/
theorem Step.does (hstep : Step object s l t) :
    (l.entry = none ∧ t.object = s.object) ∨
      ∃ x, l.entry = some x ∧ object.Does s.object x t.object := by
  cases hstep with
  | invoke _ => exact .inl ⟨rfl, rfl⟩
  | commit _ _ hperform => exact .inr ⟨_, rfl, .op hperform⟩
  | respond _ => exact .inl ⟨rfl, rfl⟩
  | act hact => exact .inr ⟨_, rfl, .act hact⟩

theorem Linearizes.step {o : S} (htracks : Tracks events history s)
    (h : Linearizes object o events history s.object) (hstep : Step object s l t) :
    Linearizes object o (events ++ l.view.toList) (history ++ l.entry.toList) t.object := by
  have htracks' := htracks.step hstep
  refine ⟨?_, ?_, ?_⟩
  · rcases h.legal with ⟨trace, hrun, hlabels⟩
    rcases hstep.does with ⟨hentry, hobject⟩ | ⟨x, hentry, hdoes⟩
    · exact ⟨trace, hobject ▸ hrun, by simp [hlabels, hentry]⟩
    · exact ⟨_, hrun.snoc hdoes, by simp [hlabels, hentry]⟩
  · -- A front of the old events keeps its cut; all the events are cut by all the history.
    intro front hfront
    have hcut : front = events ++ l.view.toList ∨ front <+: events := by
      cases hview : l.view with
      | none => exact .inr (by simpa [hview] using hfront)
      | some e => simpa [hview, List.prefix_concat_iff] using hfront
    rcases hcut with rfl | hold
    · exact ⟨_, List.prefix_rfl, htracks'.cut⟩
    · rcases h.cuts front hold with ⟨before, hbefore, hcut⟩
      exact ⟨before, hbefore.trans (List.prefix_append _ _), hcut⟩
  · intro before c op res after heq
    rcases List.eq_nil_or_concat after with rfl | ⟨after, x, rfl⟩
    · -- The entry is the last one, or an old one.
      cases hentry : l.entry with
      | none =>
          rcases h.overlaps before c op res [] (by simpa [hentry] using heq) with
            ⟨front, hfront, hcut⟩
          exact ⟨front, hfront.trans (List.prefix_append _ _), hcut⟩
      | some x =>
          rw [hentry] at heq htracks'
          rcases List.append_inj' heq rfl with ⟨rfl, hx⟩
          cases hx
          cases hstep with
          | commit _ hoverlapped _ =>
              cases hentry
              rcases hoverlapped rfl with ⟨d, hd, hpending⟩
              refine ⟨events, by simp [Label.view], htracks.cut, ?_, d, hd, htracks.waiting hpending⟩
              simpa [Label.view] using htracks'.cut
          | _ => cases hentry
    · have hold : history = before ++ .op c op res true :: after ∨
          history = before ++ .op c op res true :: (after ++ [x]) := by
        cases hentry : l.entry with
        | none => exact .inr (by simpa [hentry] using heq)
        | some y =>
            rw [hentry] at heq
            have heq' : history ++ [y] = (before ++ .op c op res true :: after) ++ [x] := by
              simpa using heq
            exact .inl (List.append_inj' heq' rfl).1
      rcases hold with hold | hold
      all_goals
        rcases h.overlaps before c op res _ hold with ⟨front, hfront, hcut⟩
        exact ⟨front, hfront.trans (List.prefix_append _ _), hcut⟩

/-- Every run of the canonical automaton is linearized by its commits and acts. -/
theorem linearizes {o : S} {trace : List (Transition (State S Client Op Res)
      (Label Client Op Res Act))} (hrun : Run (Step object) (init o) trace s) :
    Linearizes object o (visible Label.view trace) (visible Label.entry trace) s.object := by
  have hboth : Tracks (visible Label.view trace) (visible Label.entry trace) s ∧
      Linearizes object o (visible Label.view trace) (visible Label.entry trace) s.object := by
    refine hrun.invariant (P := fun trace s =>
      Tracks (visible Label.view trace) (visible Label.entry trace) s ∧
        Linearizes object o (visible Label.view trace) (visible Label.entry trace) s.object) ?_ ?_
    · have htracks : Tracks ([] : List (Event Client Op Res Act)) [] (init o) := by
        constructor <;> simp [performed, responses, invocations, acted, Atomic.acts, init, ahead]
      refine ⟨htracks, ⟨[], .nil o, rfl⟩, ?_, by simp⟩
      intro front hfront
      rw [List.prefix_nil.1 hfront]
      exact ⟨[], List.prefix_rfl, htracks.cut⟩
    · intro trace m l t _ ⟨htracks, hlinear⟩ hstep
      simp only [visible_append, visible_singleton]
      exact ⟨htracks.step hstep, hlinear.step htracks hstep⟩
  exact hboth.2

end Tracks

end Atomic
end Lib
end Systasis
