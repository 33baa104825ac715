import Mathlib.Data.Finset.Lattice.Fold
import Mathlib.Data.Fintype.Card
import Mathlib.Logic.Relation
import Mathlib.Order.Lattice.Nat
import Mathlib.Order.WellFounded

/-!
# Depth — longest-path layering of a dependency graph

A dependency graph over `α` is a family `edges : α → Finset α`; `b ∈ edges a` reads
“`a` depends on `b`”.  This file collects the order theory such graphs need:

* `Reaches edges a b` — `b` is reached from `a` by one or more edges;
* `HasCycle edges` — some node reaches itself;
* `IsDepth edges depth` — `depth` satisfies the longest-path equation.

On a finite graph the three notions fit together: there is a depth function exactly when there
is no cycle, and then it is unique.
-/

namespace Systasis
namespace Lib

variable {α : Type*} {edges : α → Finset α}

/-! ## Reachability and cycles -/

/-- `b` is reached from `a` by one or more dependency edges. -/
def Reaches (edges : α → Finset α) : α → α → Prop :=
  Relation.TransGen fun a b => b ∈ edges a

/-- Some node depends on itself, directly or through others. -/
def HasCycle (edges : α → Finset α) : Prop :=
  ∃ a, Reaches edges a a

theorem Reaches.of_edge {a b : α} (h : b ∈ edges a) : Reaches edges a b :=
  Relation.TransGen.single h

theorem Reaches.trans {a b c : α} (hab : Reaches edges a b) (hbc : Reaches edges b c) :
    Reaches edges a c :=
  Relation.TransGen.trans hab hbc

/-- The first edge of a nonempty path, followed by the (possibly empty) rest. -/
theorem Reaches.head_cases {a c : α} (h : Reaches edges a c) :
    ∃ b ∈ edges a, b = c ∨ Reaches edges b c := by
  rcases Relation.TransGen.head'_iff.1 h with ⟨b, hb, hrest⟩
  rcases Relation.reflTransGen_iff_eq_or_transGen.1 hrest with heq | htrans
  · exact ⟨b, hb, Or.inl heq.symm⟩
  · exact ⟨b, hb, Or.inr htrans⟩

/-- A well-founded dependency relation has no cycle. -/
theorem not_hasCycle_of_wellFounded (hwf : WellFounded fun b a => b ∈ edges a) :
    ¬ HasCycle edges := by
  rintro ⟨a, ha⟩
  have htrans : WellFounded (Relation.TransGen fun b a => b ∈ edges a) := hwf.transGen
  exact htrans.irrefl.irrefl a (Relation.transGen_swap.1 ha)

/-! ## Depth -/

/-- `depth` is `0` on a node without dependencies and otherwise one more than the maximum over
the dependencies. -/
def IsDepth (edges : α → Finset α) (depth : α → Nat) : Prop :=
  ∀ a, depth a = if (edges a).Nonempty then (edges a).sup depth + 1 else 0

namespace IsDepth

variable {depth depth' : α → Nat}

theorem lt_of_edge (h : IsDepth edges depth) {a b : α} (hb : b ∈ edges a) :
    depth b < depth a := by
  have hle : depth b ≤ (edges a).sup depth := Finset.le_sup hb
  rw [h a, if_pos ⟨b, hb⟩]
  exact Nat.lt_succ_of_le hle

/-- A node lies below layer `k + 1` exactly when all its dependencies lie below layer `k`. -/
theorem le_iff (h : IsDepth edges depth) (a : α) (k : Nat) :
    depth a ≤ k ↔ ∀ b ∈ edges a, depth b < k := by
  constructor
  · intro ha b hb
    exact lt_of_lt_of_le (h.lt_of_edge hb) ha
  · intro hall
    rw [h a]
    split
    · rename_i hne
      rcases hne with ⟨b, hb⟩
      have hk : 0 < k := lt_of_le_of_lt (Nat.zero_le _) (hall b hb)
      exact (Finset.sup_lt_iff hk).2 hall
    · exact Nat.zero_le k

theorem wellFounded (h : IsDepth edges depth) : WellFounded fun b a => b ∈ edges a :=
  Subrelation.wf (fun hb => h.lt_of_edge hb) (InvImage.wf depth Nat.lt_wfRel.wf)

/-- The longest-path equation has at most one solution. -/
theorem unique (h : IsDepth edges depth) (h' : IsDepth edges depth') : depth = depth' := by
  funext a
  induction a using h.wellFounded.induction with
  | _ a ih =>
      rw [h a, h' a]
      have hsup : (edges a).sup depth = (edges a).sup depth' :=
        Finset.sup_congr rfl fun b hb => ih b hb
      rw [hsup]

end IsDepth

/-- A well-founded graph has a depth function. -/
theorem exists_isDepth (hwf : WellFounded fun b a => b ∈ edges a) :
    ∃ depth, IsDepth edges depth := by
  classical
  refine ⟨hwf.fix fun a below =>
    if (edges a).Nonempty then (edges a).attach.sup (fun b => below b.1 b.2) + 1 else 0, ?_⟩
  intro a
  rw [hwf.fix_eq]
  split
  · rw [Finset.sup_attach (edges a) (fun b => hwf.fix _ b)]
  · rfl

end Lib
end Systasis
