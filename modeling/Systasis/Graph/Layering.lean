import Mathlib.Data.Prod.Lex
import Systasis.Graph.Cycle

/-!
# Layering — a successful schedule is the canonical longest-path layering

The outer loop of `schedule` only rescans a bitmap, yet the `k`-th layer it freezes is exactly
the set of nodes of depth `k`.  The loop invariant is that a node is emitted before turn `k`
exactly when its depth is below `k`; it needs the bitmap to stay fixed while a layer is being
collected.
-/

namespace Systasis
namespace Graph

open Lib

variable {n : Nat} {dependencies : Dependencies n} {emitted : Emitted n} {depth : Fin n → Nat}

/-! ## The layers a run freezes -/

/-- `layers` are the successive nonempty values of `layer` in a run of the outer loop that
starts from `emitted`. -/
def Frozen (dependencies : Dependencies n) : Emitted n → List (List (Fin n)) → Prop
  | _, [] => True
  | emitted, nodes :: rest =>
      nodes = layer dependencies emitted ∧ nodes ≠ [] ∧
        Frozen dependencies (mark emitted nodes) rest

/-- A run that succeeds appends its frozen layers to the order, one after the other. -/
theorem exists_frozen_of_collect_ok {order result : List (Fin n)}
    (h : collect dependencies emitted order = .ok result) :
    ∃ layers, Frozen dependencies emitted layers ∧ result = order ++ layers.flatten := by
  induction emitted, order using collect.induct dependencies with
  | case1 emitted order hlt hempty hfind =>
      rw [collect, if_pos hlt, if_pos hempty, hfind] at h
      cases h
  | case2 emitted order hlt hempty node hfind =>
      rw [collect, if_pos hlt, if_pos hempty, hfind] at h
      exact absurd h (walk_ne_ok [] node result)
  | case3 emitted order hlt hempty ih =>
      rw [collect, if_pos hlt, if_neg hempty] at h
      rcases ih h with ⟨layers, hfrozen, hresult⟩
      refine ⟨layer dependencies emitted :: layers, ⟨rfl, ?_, hfrozen⟩, ?_⟩
      · simpa using hempty
      · rw [hresult, List.flatten_cons, List.append_assoc]
  | case4 emitted order hlt =>
      rw [collect, if_neg hlt] at h
      injection h with h
      exact ⟨[], trivial, by simp [h]⟩

/-! ## Layers are depth classes -/

/-- The nodes of depth `k`, in declaration order. -/
def depthClass (depth : Fin n → Nat) (k : Nat) : List (Fin n) :=
  (List.finRange n).filter fun i => decide (depth i = k)

@[simp] theorem mem_depthClass {k : Nat} {i : Fin n} : i ∈ depthClass depth k ↔ depth i = k := by
  simp [depthClass]

/-- If exactly the nodes of depth below `k` are emitted, the ready nodes are those of depth `k`. -/
theorem layer_eq_depthClass (hdepth : IsDepth dependencies depth) {k : Nat}
    (hk : ∀ i, emitted i = true ↔ depth i < k) :
    layer dependencies emitted = depthClass depth k := by
  refine List.filter_congr ?_
  intro i _
  rw [Bool.eq_iff_iff]
  have hready : (∀ d ∈ dependencies i, emitted d = true) ↔ depth i ≤ k := by
    rw [hdepth.le_iff]
    exact forall₂_congr fun d _ => hk d
  have hnew : emitted i = false ↔ ¬ depth i < k := by
    rw [← hk i, Bool.not_eq_true]
  simp only [Bool.and_eq_true, Bool.not_eq_true', List.all_eq_true, mem_iter, decide_eq_true_eq]
  rw [hready, hnew]
  omega

/-- After a layer is marked, one more depth class is emitted. -/
theorem mark_depthClass_iff {k : Nat} (hk : ∀ i, emitted i = true ↔ depth i < k) (i : Fin n) :
    mark emitted (depthClass depth k) i = true ↔ depth i < k + 1 := by
  rw [mark_iff, hk, mem_depthClass]
  omega

/-- The `j`-th layer frozen from turn `k` on is the depth class `k + j`. -/
theorem frozen_getElem (hdepth : IsDepth dependencies depth) {layers : List (List (Fin n))}
    {k : Nat} (hk : ∀ i, emitted i = true ↔ depth i < k)
    (hfrozen : Frozen dependencies emitted layers) (j : Nat) (hj : j < layers.length) :
    layers[j] = depthClass depth (k + j) := by
  induction layers generalizing emitted k j with
  | nil => simp at hj
  | cons nodes rest ih =>
      rcases hfrozen with ⟨hnodes, -, hrest⟩
      have hclass : nodes = depthClass depth k := hnodes.trans (layer_eq_depthClass hdepth hk)
      subst hclass
      cases j with
      | zero => simp
      | succ j =>
          have hj' : j < rest.length := by simpa using hj
          have := ih (mark_depthClass_iff hk) hrest j hj'
          rw [List.getElem_cons_succ, this]
          congr 1
          omega

/-! ## The canonical order -/

/-- Nodes compared by depth first and by declaration index second. -/
def canonicalLE (depth : Fin n → Nat) (i j : Fin n) : Bool :=
  decide (depth i < depth j ∨ depth i = depth j ∧ i ≤ j)

/-- All nodes sorted by `(depth, index)`. -/
def canonicalOrder (depth : Fin n → Nat) : List (Fin n) :=
  (List.finRange n).mergeSort (canonicalLE depth)

theorem canonicalLE_trans (depth : Fin n → Nat) (i j k : Fin n) :
    canonicalLE depth i j = true → canonicalLE depth j k = true → canonicalLE depth i k = true := by
  simp only [canonicalLE, decide_eq_true_eq]
  omega

theorem canonicalLE_total (depth : Fin n → Nat) (i j : Fin n) :
    (canonicalLE depth i j || canonicalLE depth j i) = true := by
  simp only [canonicalLE, Bool.or_eq_true, decide_eq_true_eq]
  omega

theorem canonicalLE_antisymm (depth : Fin n → Nat) (i j : Fin n)
    (hij : canonicalLE depth i j = true) (hji : canonicalLE depth j i = true) : i = j := by
  simp only [canonicalLE, decide_eq_true_eq] at hij hji
  omega

/-- Consecutive depth classes from `k` on, concatenated, are sorted. -/
theorem flatten_pairwise_canonicalLE {layers : List (List (Fin n))} {k : Nat}
    (hlayers : ∀ j (hj : j < layers.length), layers[j] = depthClass depth (k + j)) :
    layers.flatten.Pairwise fun i j => canonicalLE depth i j = true := by
  rw [List.pairwise_flatten]
  constructor
  · intro nodes hnodes
    rcases List.getElem_of_mem hnodes with ⟨j, hj, rfl⟩
    rw [hlayers j hj]
    have hsorted : (depthClass depth (k + j)).Pairwise (· < ·) :=
      (List.pairwise_lt_finRange n).filter _
    refine hsorted.imp_of_mem ?_
    intro a b ha hb hab
    rw [mem_depthClass] at ha hb
    simp only [canonicalLE, decide_eq_true_eq]
    exact Or.inr ⟨ha.trans hb.symm, le_of_lt hab⟩
  · rw [List.pairwise_iff_getElem]
    intro j j' hj hj' hlt a ha b hb
    rw [hlayers j hj, mem_depthClass] at ha
    rw [hlayers j' hj', mem_depthClass] at hb
    simp only [canonicalLE, decide_eq_true_eq]
    omega

/-- An order that lists every node once and is sorted is the canonical one. -/
theorem eq_canonicalOrder {order : List (Fin n)} (hperm : order.Perm (List.finRange n))
    (hsorted : order.Pairwise fun i j => canonicalLE depth i j = true) :
    order = canonicalOrder depth := by
  have hcanonical : (canonicalOrder depth).Pairwise fun i j => canonicalLE depth i j = true :=
    List.pairwise_mergeSort (canonicalLE_trans depth) (canonicalLE_total depth) _
  have hboth : order.Perm (canonicalOrder depth) :=
    hperm.trans (List.mergeSort_perm _ _).symm
  exact hboth.eq_of_pairwise (fun a b _ _ => canonicalLE_antisymm depth a b) hsorted hcanonical

/-- In a sorted order of distinct nodes, a strictly smaller node stands strictly earlier. -/
theorem idxOf_lt_of_canonical {order : List (Fin n)} (hmem : ∀ i, i ∈ order)
    (hsorted : order.Pairwise fun i j => canonicalLE depth i j = true) {i j : Fin n}
    (hnot : canonicalLE depth j i = false) : order.idxOf i < order.idxOf j := by
  by_contra hge
  have hi : order.idxOf i < order.length := List.idxOf_lt_length_of_mem (hmem i)
  have hj : order.idxOf j < order.length := List.idxOf_lt_length_of_mem (hmem j)
  rcases Nat.lt_or_eq_of_le (Nat.le_of_not_lt hge) with hlt | heq
  · have hle := List.pairwise_iff_getElem.1 hsorted _ _ hj hi hlt
    rw [List.getElem_idxOf hj, List.getElem_idxOf hi] at hle
    simp [hle] at hnot
  · have hsame : i = j := by
      have := List.getElem_idxOf hi
      simp only [← heq, List.getElem_idxOf hj] at this
      exact this.symm
    subst hsame
    have htotal := canonicalLE_total depth i i
    simp [hnot] at htotal

/-- A successful order is a permutation of the nodes, it is the order by `(depth, index)` for
the one longest-path depth of the graph, and it is cut into frozen layers that are the depth
classes.  So dependencies come first, never share a layer with their dependents, and a layer
keeps the declaration order. -/
theorem schedule_ok_canonical (dependencies : Dependencies n) (order : List (Fin n))
    (h : schedule dependencies = .ok order) :
    ∃ depth : Fin n → Nat,
      IsDepth dependencies depth ∧
      (∀ depth', IsDepth dependencies depth' → depth' = depth) ∧
      order.Perm (List.finRange n) ∧
      order = canonicalOrder depth ∧
      (∃ layers, Frozen dependencies (fun _ => false) layers ∧ order = layers.flatten ∧
        ∀ k (hk : k < layers.length), layers[k] = depthClass depth k) ∧
      (∀ i, ∀ d ∈ dependencies i, order.idxOf d < order.idxOf i ∧ depth d < depth i) ∧
      ∀ i j, depth i = depth j → i < j → order.idxOf i < order.idxOf j := by
  rcases schedule_cases dependencies with ⟨order', emitted, heq, hinv, hlen⟩ | ⟨cycle, heq, -⟩
  swap
  · rw [h] at heq
    cases heq
  have hsame : order = order' := by
    rw [h] at heq
    injection heq
  subst hsame
  rcases exists_isDepth (wellFounded_of_schedule_ok h) with ⟨depth, hdepth⟩
  rcases exists_frozen_of_collect_ok h with ⟨layers, hfrozen, horder⟩
  rw [List.nil_append] at horder
  have hmem : ∀ i, i ∈ order := hinv.mem_of_length hlen
  have hperm : order.Perm (List.finRange n) :=
    (List.perm_ext_iff_of_nodup hinv.nodup (List.nodup_finRange n)).2 fun i =>
      ⟨fun _ => List.mem_finRange i, fun _ => hmem i⟩
  -- Layer `k` is frozen before it is emitted, which makes it the class of depth `k`.
  have hlayers : ∀ k (hk : k < layers.length), layers[k] = depthClass depth (0 + k) :=
    frozen_getElem hdepth (by simp) hfrozen
  -- Classes follow each other by depth and are sorted inside: this is the canonical order.
  have hsorted : order.Pairwise fun i j => canonicalLE depth i j = true := by
    rw [horder]
    exact flatten_pairwise_canonicalLE hlayers
  refine ⟨depth, hdepth, fun depth' h' => h'.unique hdepth, hperm,
    eq_canonicalOrder hperm hsorted, ⟨layers, hfrozen, horder, ?_⟩, ?_, ?_⟩
  · intro k hk
    rw [hlayers k hk, Nat.zero_add]
  · intro i d hd
    have hlt : depth d < depth i := hdepth.lt_of_edge hd
    refine ⟨idxOf_lt_of_canonical hmem hsorted ?_, hlt⟩
    simp only [canonicalLE, decide_eq_false_iff_not]
    omega
  · intro i j hsameDepth hij
    refine idxOf_lt_of_canonical hmem hsorted ?_
    simp only [canonicalLE, decide_eq_false_iff_not]
    omega

/-- The graph of the source's first test: node `0` waits for `1`, and `2` is free. -/
theorem schedule_ok_canonical_freezes_layers :
    schedule (fun i : Fin 3 => if i = 0 then {1} else ∅) = .ok [1, 2, 0] ∧
      ∃ depth : Fin 3 → Nat, IsDepth (fun i : Fin 3 => if i = 0 then {1} else ∅) depth ∧
        [1, 2, 0] = canonicalOrder depth := by
  have hok : schedule (fun i : Fin 3 => if i = 0 then {1} else ∅) = .ok [1, 2, 0] := by
    decide +kernel
  rcases schedule_ok_canonical _ _ hok with ⟨depth, hdepth, -, -, horder, -⟩
  exact ⟨hok, depth, hdepth, horder⟩

end Graph
end Systasis
