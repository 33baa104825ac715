import Mathlib.Data.List.Chain
import Systasis.Graph.Schedule

/-!
# Cycle — the cycle report of `schedule` is sound and complete

`schedule` fails exactly on cyclic dependency families, and the path it then reports is one
simple closed walk along real edges.  The argument follows the source's comment: with an empty
ready layer every remaining node has a remaining dependency, so the inner walk can always take a
further step, and it stays among remaining nodes until one of them repeats.
-/

namespace Systasis
namespace Graph

open Lib

variable {n : Nat} {dependencies : Dependencies n} {emitted : Emitted n}

/-- A reported path `[v₀, …, vₖ]`: `k ≥ 1`, `vₖ = v₀`, the nodes before the last are distinct
and every consecutive pair is a dependency edge. -/
structure ClosedPath (dependencies : Dependencies n) (cycle : List (Fin n)) : Prop where
  length : 2 ≤ cycle.length
  closed : cycle.head? = cycle.getLast?
  distinct : cycle.dropLast.Nodup
  edges : cycle.IsChain fun a b => b ∈ dependencies a

/-! ## Closed paths are cycles -/

/-- The first node of a chain reaches every later one. -/
theorem reaches_of_isChain {a : Fin n} {rest : List (Fin n)}
    (h : (a :: rest).IsChain fun a b => b ∈ dependencies a) :
    ∀ b ∈ rest, Reaches dependencies a b := by
  induction rest generalizing a with
  | nil =>
      intro b hb
      cases hb
  | cons c rest ih =>
      intro b hb
      rcases List.isChain_cons_cons.1 h with ⟨hac, htail⟩
      rcases List.mem_cons.1 hb with rfl | hb
      · exact Reaches.of_edge hac
      · exact (Reaches.of_edge hac).trans (ih htail b hb)

/-- Every node of a chain reaches its last one, unless it is the last one. -/
theorem reaches_last_of_isChain {path : List (Fin n)} {last : Fin n}
    (h : (path ++ [last]).IsChain fun a b => b ∈ dependencies a) :
    ∀ a ∈ path, Reaches dependencies a last := by
  intro a ha
  rcases List.append_of_mem ha with ⟨front, back, rfl⟩
  have hsuffix : (a :: (back ++ [last])).IsChain fun a b => b ∈ dependencies a := by
    refine h.suffix ⟨front, ?_⟩
    simp
  exact reaches_of_isChain hsuffix last (by simp)

/-- Only nodes that lie on a cycle are reported. -/
theorem ClosedPath.reaches_self {cycle : List (Fin n)} (h : ClosedPath dependencies cycle) :
    ∀ v ∈ cycle, Reaches dependencies v v := by
  rcases List.eq_nil_or_concat' cycle with rfl | ⟨path, last, rfl⟩
  · have := h.length
    simp at this
  · have hpath : path ≠ [] := by
      rintro rfl
      have := h.length
      simp at this
    rcases List.exists_cons_of_ne_nil hpath with ⟨first, rest, rfl⟩
    have hfirst : first = last := by
      have hclosed := h.closed
      rw [List.getLast?_concat] at hclosed
      simpa using hclosed
    subst hfirst
    have hself : Reaches dependencies first first :=
      reaches_last_of_isChain h.edges first (by simp)
    intro v hv
    rcases List.mem_append.1 hv with hv' | hlast
    · have hback : Reaches dependencies v first := reaches_last_of_isChain h.edges v hv'
      rcases List.mem_cons.1 hv' with rfl | hrest
      · exact hself
      · have hfront : Reaches dependencies first v :=
          reaches_of_isChain h.edges v (by simp [hrest])
        exact hback.trans hfront
    · rw [List.mem_singleton] at hlast
      exact hlast ▸ hself

theorem ClosedPath.hasCycle {cycle : List (Fin n)} (h : ClosedPath dependencies cycle) :
    HasCycle dependencies := by
  have hlen := h.length
  rcases cycle with _ | ⟨v, rest⟩
  · simp at hlen
  · exact ⟨v, h.reaches_self v (by simp)⟩

/-! ## The inner walk -/

/-- Cutting a repeating walk at the first occurrence of the repeated node closes it. -/
theorem closedPath_of_repeat {path : List (Fin n)} {node : Fin n} (hmem : node ∈ path)
    (hnodup : path.Nodup)
    (hchain : (path ++ [node]).IsChain fun a b => b ∈ dependencies a) :
    ClosedPath dependencies (path.drop (path.idxOf node) ++ [node]) := by
  have hlt : path.idxOf node < path.length := List.idxOf_lt_length_of_mem hmem
  have hdrop : path.drop (path.idxOf node) = node :: path.drop (path.idxOf node + 1) := by
    rw [List.drop_eq_getElem_cons hlt, List.getElem_idxOf hlt]
  refine ⟨?_, ?_, ?_, ?_⟩
  · rw [hdrop]
    simp
  · rw [List.getLast?_concat, hdrop]
    simp
  · rw [List.dropLast_concat]
    exact hnodup.sublist (List.drop_sublist _ _)
  · have hsuffix : path.drop (path.idxOf node) ++ [node] <:+ path ++ [node] := by
      refine ⟨path.take (path.idxOf node), ?_⟩
      rw [← List.append_assoc, List.take_append_drop]
    exact hchain.suffix hsuffix

/-- The walk through remaining nodes ends with a closed path: it never finds itself without a
remaining dependency. -/
theorem walk_closedPath (hnext : ∀ i, emitted i = false → ∃ d ∈ dependencies i, emitted d = false)
    (path : List (Fin n)) (node : Fin n) (hnode : emitted node = false) (hnodup : path.Nodup)
    (hchain : (path ++ [node]).IsChain fun a b => b ∈ dependencies a) :
    ∃ cycle, walk dependencies emitted path node = .err cycle ∧
      ClosedPath dependencies cycle := by
  induction path, node using walk.induct dependencies emitted with
  | case1 path node hmem =>
      -- The node has been seen: the path from its first visit on is the cycle.
      refine ⟨_, ?_, closedPath_of_repeat hmem hnodup hchain⟩
      rw [walk, if_pos hmem]
  | case2 path node hmem hfind =>
      -- Every remaining node waits for a remaining one.
      rcases hnext node hnode with ⟨d, hd, hremaining⟩
      have hnone := List.find?_eq_none.1 hfind d (mem_iter.2 hd)
      simp [hremaining] at hnone
  | case3 path node hmem next hfind ih =>
      have hedge : next ∈ dependencies node := mem_iter.1 (List.mem_of_find?_eq_some hfind)
      have hremaining : emitted next = false := by
        have := List.find?_some hfind
        simpa using this
      -- The longer path is still without repetition and still follows edges.
      have hnodup' : (path ++ [node]).Nodup := by
        refine List.nodup_append.2 ⟨hnodup, by simp, ?_⟩
        rintro a ha b hb rfl
        rw [List.mem_singleton] at hb
        exact hmem (hb ▸ ha)
      have hchain' : ((path ++ [node]) ++ [next]).IsChain fun a b => b ∈ dependencies a := by
        refine List.isChain_append.2 ⟨hchain, by simp, ?_⟩
        intro a ha b hb
        have ha' : node = a := by simpa using ha
        have hb' : next = b := by simpa using hb
        subst ha' hb'
        exact hedge
      rcases ih hremaining hnodup' hchain' with ⟨cycle, heq, hclosed⟩
      refine ⟨cycle, ?_, hclosed⟩
      rw [walk, if_neg hmem, hfind]
      exact heq

/-- The inner loop has no successful exit. -/
theorem walk_ne_ok (path : List (Fin n)) (node : Fin n) (order : List (Fin n)) :
    walk dependencies emitted path node ≠ .ok order := by
  induction path, node using walk.induct dependencies emitted with
  | case1 path node hmem =>
      rw [walk, if_pos hmem]
      exact fun h => by cases h
  | case2 path node hmem hfind =>
      rw [walk, if_neg hmem, hfind]
      exact fun h => by cases h
  | case3 path node hmem next hfind ih =>
      rw [walk, if_neg hmem, hfind]
      exact ih

/-! ## The outer loop -/

/-- Every way the outer loop can end, from any state that satisfies its invariant: either all
nodes are emitted after their dependencies, or the report is a closed path. -/
theorem collect_cases (order : List (Fin n)) (hinv : Inv dependencies emitted order) :
    (∃ result emitted', collect dependencies emitted order = .ok result ∧
        Inv dependencies emitted' result ∧ n ≤ result.length) ∨
      ∃ cycle, collect dependencies emitted order = .err cycle ∧
        ClosedPath dependencies cycle := by
  induction emitted, order using collect.induct dependencies with
  | case1 emitted order hlt hempty hfind =>
      rcases hinv.exists_remaining hlt with ⟨i, hi⟩
      have hnone := List.find?_eq_none.1 hfind i (List.mem_finRange i)
      simp [hi] at hnone
  | case2 emitted order hlt hempty node hfind =>
      have hnode : emitted node = false := by
        have := List.find?_some hfind
        simpa using this
      have hnext : ∀ i, emitted i = false → ∃ d ∈ dependencies i, emitted d = false :=
        fun i hi => exists_remaining_dependency hempty hi
      rcases walk_closedPath hnext [] node hnode List.nodup_nil (by simp) with
        ⟨cycle, heq, hclosed⟩
      refine Or.inr ⟨cycle, ?_, hclosed⟩
      rw [collect, if_pos hlt, if_pos hempty, hfind]
      exact heq
  | case3 emitted order hlt hempty ih =>
      have hrec : collect dependencies emitted order =
          collect dependencies (mark emitted (layer dependencies emitted))
            (order ++ layer dependencies emitted) := by
        rw [collect, if_pos hlt, if_neg hempty]
      rw [hrec]
      exact ih hinv.step
  | case4 emitted order hlt =>
      refine Or.inl ⟨order, emitted, ?_, hinv, Nat.le_of_not_lt hlt⟩
      rw [collect, if_neg hlt]

theorem schedule_cases (dependencies : Dependencies n) :
    (∃ order emitted, schedule dependencies = .ok order ∧
        Inv dependencies emitted order ∧ n ≤ order.length) ∨
      ∃ cycle, schedule dependencies = .err cycle ∧ ClosedPath dependencies cycle :=
  collect_cases [] (inv_initial dependencies)

/-- An order as long as the node list holds every node. -/
theorem Inv.mem_of_length {order : List (Fin n)} (h : Inv dependencies emitted order)
    (hlen : n ≤ order.length) (i : Fin n) : i ∈ order := by
  have hperm : order.Perm (List.finRange n) := by
    have hsub : order.Subperm (List.finRange n) :=
      List.subperm_of_subset h.nodup fun i _ => List.mem_finRange i
    exact hsub.perm_of_length_le (by simpa using hlen)
  exact hperm.mem_iff.2 (List.mem_finRange i)

/-- What a consumer of a successful schedule relies on: every node occurs once, after all of its
dependencies. -/
structure DependencyFirst (dependencies : Dependencies n) (order : List (Fin n)) : Prop where
  nodup : order.Nodup
  complete : ∀ i, i ∈ order
  before : ∀ front i back, order = front ++ i :: back → ∀ d ∈ dependencies i, d ∈ front

namespace DependencyFirst

variable {order : List (Fin n)}

theorem idxOf_lt (h : DependencyFirst dependencies order) {a b : Fin n}
    (hb : b ∈ dependencies a) : order.idxOf b < order.idxOf a := by
  rcases List.append_of_mem (h.complete a) with ⟨front, back, heq⟩
  have hmem : b ∈ front := h.before front a back heq b hb
  have hnot : a ∉ front := by
    have hnodup := h.nodup
    rw [heq] at hnodup
    exact fun hfront => List.disjoint_of_nodup_append hnodup hfront (by simp)
  have ha : order.idxOf a = front.length := by
    rw [heq, List.idxOf_append_of_notMem hnot]
    simp
  have hb : order.idxOf b < front.length := by
    rw [heq, List.idxOf_append_of_mem hmem]
    exact List.idxOf_lt_length_of_mem hmem
  omega

theorem idxOf_lt_of_reaches (h : DependencyFirst dependencies order) {a b : Fin n}
    (hab : Reaches dependencies a b) : order.idxOf b < order.idxOf a := by
  induction hab with
  | single hb => exact h.idxOf_lt hb
  | tail _ hc ih => exact (h.idxOf_lt hc).trans ih

theorem not_reaches_self (h : DependencyFirst dependencies order) (i : Fin n) :
    ¬ Reaches dependencies i i :=
  fun hself => lt_irrefl _ (h.idxOf_lt_of_reaches hself)

end DependencyFirst

theorem dependencyFirst_of_schedule_ok {order : List (Fin n)}
    (h : schedule dependencies = .ok order) : DependencyFirst dependencies order := by
  rcases schedule_cases dependencies with ⟨order', emitted, heq, hinv, hlen⟩ | ⟨cycle, heq, -⟩
  · have hsame : order = order' := by
      rw [h] at heq
      injection heq
    subst hsame
    exact ⟨hinv.nodup, hinv.mem_of_length hlen, hinv.before⟩
  · rw [h] at heq
    cases heq

/-- A successful schedule proves its dependency family well-founded. -/
theorem wellFounded_of_schedule_ok {order : List (Fin n)}
    (h : schedule dependencies = .ok order) : WellFounded fun b a => b ∈ dependencies a := by
  rcases schedule_cases dependencies with ⟨order', emitted, heq, hinv, hlen⟩ | ⟨cycle, heq, -⟩
  · exact ⟨fun i => hinv.acc i (hinv.mem_of_length hlen i)⟩
  · rw [h] at heq
    cases heq

/-- `schedule` returns without reaching an `unreachable!` arm, it fails exactly on cyclic
families, and a reported path is a simple closed walk of nodes that lie on a cycle. -/
theorem schedule_reports_cycles (dependencies : Dependencies n) :
    ((∃ order, schedule dependencies = .ok order) ∨
        ∃ cycle, schedule dependencies = .err cycle) ∧
      (∀ message, schedule dependencies ≠ .unreachable message) ∧
      ((∃ cycle, schedule dependencies = .err cycle) ↔ HasCycle dependencies) ∧
      ∀ cycle, schedule dependencies = .err cycle →
        ClosedPath dependencies cycle ∧ ∀ v ∈ cycle, Reaches dependencies v v := by
  rcases schedule_cases dependencies with ⟨order, emitted, heq, -, -⟩ | ⟨cycle, heq, hclosed⟩
  · have hcycle : ¬ HasCycle dependencies :=
      not_hasCycle_of_wellFounded (wellFounded_of_schedule_ok heq)
    refine ⟨Or.inl ⟨order, heq⟩, ?_, ⟨?_, fun h => absurd h hcycle⟩, ?_⟩
    · intro message h
      rw [heq] at h
      cases h
    · rintro ⟨cycle, h⟩
      rw [heq] at h
      cases h
    · intro cycle h
      rw [heq] at h
      cases h
  · refine ⟨Or.inr ⟨cycle, heq⟩, ?_, ⟨fun _ => hclosed.hasCycle, fun _ => ⟨cycle, heq⟩⟩, ?_⟩
    · intro message h
      rw [heq] at h
      cases h
    · intro cycle' h
      have hsame : cycle = cycle' := by
        rw [heq] at h
        injection h
      subst hsame
      exact ⟨hclosed, hclosed.reaches_self⟩

-- A node that only waits on the cycle `1 → 2 → 1` is left out of the report.
example : schedule (fun i : Fin 3 => if i = 0 then {1} else if i = 1 then {2} else {1}) =
    .err [1, 2, 1] := by
  decide +kernel

end Graph
end Systasis
