import Mathlib.Data.List.FinRange
import Mathlib.Data.Fintype.Basic
import Mathlib.Tactic.Common
import Systasis.Lib.Depth

/-!
# Schedule — dependency-first scheduling with frozen layers

Model of `systasis-macros/src/graph.rs`.  Registrations are numbered `0 .. n`, and the analysis
passes hand `schedule` one `BTreeSet<usize>` of dependencies per registration, every member of
which is itself a registration.  We carry that bound in the type: a family of dependency sets is
a function `Fin n → Finset (Fin n)`.

The source has two loops.  The outer one collects *frozen* layers: readiness of a whole layer is
decided against the bitmap `emitted` left by the previous layer.  When no node is ready, the
inner one walks remaining edges until a node repeats.  Both are translated as recursive
functions over the loop state; the two `unreachable!` arms are kept as an outcome.
-/

namespace Systasis
namespace Graph

variable {n : Nat}

/-- One set of dependencies for each of the `n` nodes. -/
abbrev Dependencies (n : Nat) : Type := Fin n → Finset (Fin n)

/-- The bitmap `emitted`, `vec![false; n]` at the start. -/
abbrev Emitted (n : Nat) : Type := Fin n → Bool

/-- `Result<Vec<usize>, Vec<usize>>`, with a panic of an `unreachable!` arm made explicit. -/
inductive Outcome (n : Nat) where
  | ok (order : List (Fin n))
  | err (cycle : List (Fin n))
  | unreachable (message : String)
  deriving DecidableEq, Repr

/-- Iterating a `BTreeSet` yields its members in ascending order. -/
def iter (s : Finset (Fin n)) : List (Fin n) :=
  (List.finRange n).filter fun i => decide (i ∈ s)

/-- The nodes that are not yet emitted and whose dependencies all are, in declaration order. -/
def layer (dependencies : Dependencies n) (emitted : Emitted n) : List (Fin n) :=
  (List.finRange n).filter fun node =>
    !emitted node && (iter (dependencies node)).all fun dependency => emitted dependency

/-- A node is searched from the front, as `position` does. -/
instance decidablePosition (node : Fin n) (nodes : List (Fin n)) : Decidable (node ∈ nodes) :=
  decidable_of_iff ((nodes.idxOf? node).isSome = true) List.isSome_idxOf?

/-- `for &node in &layer { emitted[node] = true; }` -/
def mark (emitted : Emitted n) (nodes : List (Fin n)) : Emitted n :=
  fun i => emitted i || decide (i ∈ nodes)

/-- The nodes not on `path`; each turn of the inner loop removes one of them. -/
def unvisited (path : List (Fin n)) : Finset (Fin n) :=
  Finset.univ.filter fun i => i ∉ path

theorem unvisited_append_card_lt {path : List (Fin n)} {node : Fin n} (h : node ∉ path) :
    (unvisited (path ++ [node])).card < (unvisited path).card := by
  refine Finset.card_lt_card ⟨?_, ?_⟩
  · intro i hi
    simp only [unvisited, Finset.mem_filter, List.mem_append, not_or] at hi ⊢
    exact ⟨hi.1, hi.2.1⟩
  · intro hsub
    have hmem : node ∈ unvisited path := by simp [unvisited, h]
    have hnot : node ∉ unvisited (path ++ [node]) := by simp [unvisited]
    exact hnot (hsub hmem)

/-- The inner `loop`: follow remaining edges from `node` until it repeats on `path`. -/
def walk (dependencies : Dependencies n) (emitted : Emitted n) (path : List (Fin n))
    (node : Fin n) : Outcome n :=
  if node ∈ path then
    .err (path.drop (path.idxOf node) ++ [node])
  else
    match (iter (dependencies node)).find? fun next => !emitted next with
    | none =>
        .unreachable "empty ready layer means every remaining node has a remaining dependency"
    | some next => walk dependencies emitted (path ++ [node]) next
termination_by (unvisited path).card
decreasing_by exact unvisited_append_card_lt ‹node ∉ path›

/-- The outer `while order.len() < dependencies.len()`. -/
def collect (dependencies : Dependencies n) (emitted : Emitted n) (order : List (Fin n)) :
    Outcome n :=
  if order.length < n then
    if (layer dependencies emitted).isEmpty then
      match (List.finRange n).find? fun i => !emitted i with
      | none => .unreachable "incomplete schedule has at least one unprocessed node"
      | some node => walk dependencies emitted [] node
    else
      collect dependencies (mark emitted (layer dependencies emitted))
        (order ++ layer dependencies emitted)
  else
    .ok order
termination_by n - order.length
decreasing_by
  have hpos : 0 < (layer dependencies emitted).length := by
    rw [List.length_pos_iff]
    simpa using ‹¬ (layer dependencies emitted).isEmpty = true›
  rw [List.length_append]
  omega

/-- Return a schedule, or a closed path identifying an actual dependency cycle. -/
def schedule (dependencies : Dependencies n) : Outcome n :=
  collect dependencies (fun _ => false) []

/-! ## What the pieces of the loop state say -/

@[simp] theorem mem_iter {s : Finset (Fin n)} {i : Fin n} : i ∈ iter s ↔ i ∈ s := by
  simp [iter]

@[simp] theorem mark_iff {emitted : Emitted n} {nodes : List (Fin n)} {i : Fin n} :
    mark emitted nodes i = true ↔ emitted i = true ∨ i ∈ nodes := by
  simp [mark]

theorem mem_layer {dependencies : Dependencies n} {emitted : Emitted n} {i : Fin n} :
    i ∈ layer dependencies emitted ↔
      emitted i = false ∧ ∀ d ∈ dependencies i, emitted d = true := by
  simp [layer]

theorem layer_nodup (dependencies : Dependencies n) (emitted : Emitted n) :
    (layer dependencies emitted).Nodup :=
  (List.nodup_finRange n).filter _

/-! ## The loop invariant -/

/-- What every turn of the outer loop keeps: the bitmap lists exactly the emitted nodes, each of
which was emitted once, after all its dependencies. -/
structure Inv (dependencies : Dependencies n) (emitted : Emitted n)
    (order : List (Fin n)) : Prop where
  emitted_iff : ∀ i, emitted i = true ↔ i ∈ order
  nodup : order.Nodup
  acc : ∀ i ∈ order, Acc (fun b a => b ∈ dependencies a) i
  before : ∀ front i back, order = front ++ i :: back → ∀ d ∈ dependencies i, d ∈ front

theorem inv_initial (dependencies : Dependencies n) :
    Inv dependencies (fun _ => false) [] where
  emitted_iff := by simp
  nodup := List.nodup_nil
  acc := by simp
  before := by simp

/-- One turn of the outer loop that finds a nonempty layer. -/
theorem Inv.step {dependencies : Dependencies n} {emitted : Emitted n} {order : List (Fin n)}
    (h : Inv dependencies emitted order) :
    Inv dependencies (mark emitted (layer dependencies emitted))
      (order ++ layer dependencies emitted) where
  emitted_iff := by
    intro i
    rw [mark_iff, List.mem_append, h.emitted_iff]
  nodup := by
    refine List.nodup_append.2 ⟨h.nodup, layer_nodup _ _, ?_⟩
    rintro i hi j hj rfl
    have htrue : emitted i = true := (h.emitted_iff i).2 hi
    have hfalse : emitted i = false := (mem_layer.1 hj).1
    simp [htrue] at hfalse
  acc := by
    intro i hi
    rcases List.mem_append.1 hi with hold | hnew
    · exact h.acc i hold
    · refine Acc.intro i fun d hd => h.acc d ?_
      exact (h.emitted_iff d).1 ((mem_layer.1 hnew).2 d hd)
  before := by
    intro front i back heq d hd
    rcases List.append_eq_append_iff.1 heq with ⟨middle, hfront, hnew⟩ | ⟨middle, horder, hnew⟩
    · -- `i` belongs to the new layer, so its dependencies were emitted before this turn.
      have hi : i ∈ layer dependencies emitted := by simp [hnew]
      have hold : d ∈ order := (h.emitted_iff d).1 ((mem_layer.1 hi).2 d hd)
      exact hfront ▸ List.mem_append_left middle hold
    · rcases middle with _ | ⟨first, rest⟩
      · have hi : i ∈ layer dependencies emitted := by
          have : i :: back = layer dependencies emitted := by simpa using hnew
          simp [← this]
        have hold : d ∈ order := (h.emitted_iff d).1 ((mem_layer.1 hi).2 d hd)
        simpa [horder] using hold
      · have hfirst : i = first := by
          have := congrArg List.head? hnew
          simpa using this
        subst hfirst
        exact h.before front i rest horder d hd

/-- An order shorter than `n` misses a node. -/
theorem Inv.exists_remaining {dependencies : Dependencies n} {emitted : Emitted n}
    {order : List (Fin n)} (h : Inv dependencies emitted order) (hlt : order.length < n) :
    ∃ i, emitted i = false := by
  by_contra hall
  push Not at hall
  have hsub : List.finRange n ⊆ order := by
    intro i _
    exact (h.emitted_iff i).1 (by simpa using hall i)
  have hle : (List.finRange n).length ≤ order.length :=
    (List.subperm_of_subset (List.nodup_finRange n) hsub).length_le
  rw [List.length_finRange] at hle
  omega

/-- With an empty ready layer every remaining node has a remaining dependency. -/
theorem exists_remaining_dependency {dependencies : Dependencies n} {emitted : Emitted n}
    (hempty : (layer dependencies emitted).isEmpty = true) {i : Fin n} (hi : emitted i = false) :
    ∃ d ∈ dependencies i, emitted d = false := by
  by_contra hnone
  push Not at hnone
  have hmem : i ∈ layer dependencies emitted :=
    mem_layer.2 ⟨hi, fun d hd => by simpa using hnone d hd⟩
  rw [List.isEmpty_iff.1 hempty] at hmem
  cases hmem

end Graph
end Systasis
