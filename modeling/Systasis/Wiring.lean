import Mathlib.Data.Finset.Fold
import Systasis.Graph.Cycle

/-!
# Wiring — shared build-time and resolution-time constructor wiring

Model of `systasis-macros/src/wiring.rs` and of the context fields `expand_inner` gives each
constructor.  A local query is replaced by an expression over the generated slots:

* a stored or fresh target becomes a method call on its slot;
* a constructor target becomes a call of its helper, which takes its own slot and the slots of
  all its transitive dependencies (`arguments`).

While building, a slot is a local `Option` that the expression unwraps; inside a constructor
body it is a field of the constructor's context.  The closure results say that the context of a
constructor has a field for every slot its replacements name.
-/

namespace Systasis
namespace Wiring

open Systasis.Graph Lib

variable {n : Nat} {dependencies : Dependencies n} {order : List (Fin n)}

/-! ## Registrations -/

/-- What a registration stores: a value, a type mapping without state, or a constructor with
its captures.  `fallible` is the `try` of the declaration, `native` records that capture
analysis left the closure to the compiler. -/
inductive Registration where
  | value
  | fresh
  | factory (fallible native : Bool)
  deriving DecidableEq, Repr

namespace Registration

/-- `registration.constructor.is_some()` -/
def constructor : Registration → Bool
  | .factory _ _ => true
  | _ => false

/-- `registration.fallible` -/
def fallible : Registration → Bool
  | .factory fallible _ => fallible
  | _ => false

/-- `factory.native` -/
def native : Registration → Bool
  | .factory _ native => native
  | _ => false

end Registration

/-- The query methods that have replacements. -/
inductive Method where
  | resolve
  | tryResolve
  | resolveClone
  | tryResolveClone
  | resolveUnchecked
  deriving DecidableEq, Repr

/-! ## Transitive dependencies and arguments -/

/-- `for &dependency in &dependencies[index] { all[index].extend(all[dependency].clone()) }` -/
def inherit (dependencies : Dependencies n) (all : Dependencies n) (index : Fin n) :
    Dependencies n :=
  (iter (dependencies index)).foldl
    (fun all dependency => Function.update all index (all index ∪ all dependency)) all

/-- One pass over `order` that accumulates the dependencies of dependencies in place. -/
def transitive (dependencies : Dependencies n) (order : List (Fin n)) : Dependencies n :=
  order.foldl (inherit dependencies) dependencies

/-- The slots a constructor helper takes: its own and those of all its dependencies. -/
def arguments (index : Fin n) (dependencies : Dependencies n) : List (Fin n) :=
  index :: iter (dependencies index)

/-- The fields of a constructor's context.  A native closure never receives its own slot. -/
def contextArguments (registrations : Fin n → Registration) (dependencies : Dependencies n)
    (index : Fin n) : List (Fin n) :=
  (arguments index dependencies).filter fun i => !(registrations index).native || i != index

/-! ## Replacements -/

/-- How a replacement names a slot: the unwrapped local of the build closure, or a field of the
constructor's context. -/
inductive SlotExpr (n : Nat) where
  | unwrapped (index : Fin n)
  | field (index : Fin n)
  deriving DecidableEq, Repr

/-- The expression a query is replaced by.  `okCall` wraps the call of an infallible
constructor in `Ok`. -/
inductive Replacement (n : Nat) where
  | call (index : Fin n) (arguments : List (SlotExpr n))
  | okCall (index : Fin n) (arguments : List (SlotExpr n))
  | access (owner : SlotExpr n) (method : Method)
  deriving DecidableEq, Repr

/-- The `slot` closure of `replacements`. -/
def slot (building : Bool) (index : Fin n) : SlotExpr n :=
  if building then .unwrapped index else .field index

/-- The map `replacements` builds, as a lookup by `(index, method)`.  `unchecked` is the feature
`resolve_unchecked`. -/
def replacements (registrations : Fin n → Registration) (dependencies : Dependencies n)
    (building unchecked : Bool) (index : Fin n) (method : Method) : Option (Replacement n) :=
  if (registrations index).constructor then
    let arguments := (arguments index dependencies).map (slot building)
    match method with
    | .resolve => if (registrations index).fallible then none else some (.call index arguments)
    | .tryResolve =>
        if (registrations index).fallible then some (.call index arguments)
        else some (.okCall index arguments)
    | _ => none
  else
    match method with
    | .resolveUnchecked =>
        if unchecked && registrations index != .fresh then
          some (.access (slot building index) .resolveUnchecked)
        else none
    | method => some (.access (slot building index) method)

namespace Replacement

/-- The slots a replacement names. -/
def slots : Replacement n → List (SlotExpr n)
  | .call _ arguments => arguments
  | .okCall _ arguments => arguments
  | .access owner _ => [owner]

end Replacement

/-- A replacement names the slot of its target, or for a constructor all of `arguments`. -/
theorem replacement_slots {registrations : Fin n → Registration} {building unchecked : Bool}
    {index : Fin n} {method : Method} {replacement : Replacement n}
    (h : replacements registrations dependencies building unchecked index method =
      some replacement) :
    (replacement = .access (slot building index) method ∧
        (registrations index).constructor = false) ∨
      ((registrations index).constructor = true ∧
        (replacement = .call index ((arguments index dependencies).map (slot building)) ∨
          replacement = .okCall index ((arguments index dependencies).map (slot building)))) := by
  unfold replacements at h
  cases hconstructor : (registrations index).constructor <;> cases method <;>
    simp only [hconstructor, if_true, Bool.false_eq_true, if_false] at h
  all_goals
    first
    | exact Or.inl ⟨(Option.some.inj h).symm, rfl⟩
    | (split at h <;> simp_all)
    | simp_all

/-! ## The transitive closure -/

/-- The inner loop of `transitive` changes only the row of `index`. -/
theorem inherit_other (all : Dependencies n) {index i : Fin n} (h : i ≠ index) :
    inherit dependencies all index i = all i := by
  unfold inherit
  induction iter (dependencies index) generalizing all with
  | nil => rfl
  | cons d rest ih =>
      have hupdate : Function.update all index (all index ∪ all d) i = all i :=
        Function.update_of_ne h _ _
      simpa [hupdate] using ih (Function.update all index (all index ∪ all d))

/-- Folding over rows other than `index` collects them into the row of `index`. -/
theorem mem_foldl_union (all : Dependencies n) (index : Fin n) (rows : List (Fin n))
    (hrows : index ∉ rows) (j : Fin n) :
    j ∈ rows.foldl
        (fun all dependency => Function.update all index (all index ∪ all dependency)) all index ↔
      j ∈ all index ∨ ∃ d ∈ rows, j ∈ all d := by
  induction rows generalizing all with
  | nil => simp
  | cons d rest ih =>
      have hd : d ≠ index := fun heq => hrows (by simp [heq])
      have hrest : index ∉ rest := fun hmem => hrows (List.mem_cons_of_mem d hmem)
      have hsame : ∀ e ∈ rest,
          Function.update all index (all index ∪ all d) e = all e := by
        intro e he
        have hne : e ≠ index := fun heq => hrest (heq ▸ he)
        exact Function.update_of_ne hne _ _
      rw [List.foldl_cons, ih _ hrest]
      constructor
      · rintro (hj | ⟨e, he, hj⟩)
        · rcases Finset.mem_union.1 (by simpa using hj) with hj | hj
          · exact Or.inl hj
          · exact Or.inr ⟨d, by simp, hj⟩
        · exact Or.inr ⟨e, by simp [he], (hsame e he) ▸ hj⟩
      · rintro (hj | ⟨e, he, hj⟩)
        · exact Or.inl (by simp [hj])
        · rcases List.mem_cons.1 he with rfl | he
          · exact Or.inl (by simp [hj])
          · exact Or.inr ⟨e, he, (hsame e he).symm ▸ hj⟩

/-- What the pass over `order` keeps: finished rows are closed, the others untouched. -/
structure Closed (dependencies : Dependencies n) (finished : List (Fin n))
    (all : Dependencies n) : Prop where
  done : ∀ i ∈ finished, ∀ j, j ∈ all i ↔ Reaches dependencies i j
  rest : ∀ i, i ∉ finished → all i = dependencies i

/-- Reachability through the dependencies of a node. -/
theorem reaches_iff (i j : Fin n) :
    Reaches dependencies i j ↔
      j ∈ dependencies i ∨ ∃ d ∈ dependencies i, Reaches dependencies d j := by
  constructor
  · intro h
    rcases h.head_cases with ⟨d, hd, rfl | hrest⟩
    · exact Or.inl hd
    · exact Or.inr ⟨d, hd, hrest⟩
  · rintro (h | ⟨d, hd, hrest⟩)
    · exact Reaches.of_edge h
    · exact (Reaches.of_edge hd).trans hrest

/-- One turn of the pass, on a node whose dependencies are finished. -/
theorem Closed.step {finished : List (Fin n)} {all : Dependencies n}
    (h : Closed dependencies finished all) {i : Fin n} (hi : i ∉ finished)
    (hbefore : ∀ d ∈ dependencies i, d ∈ finished) :
    Closed dependencies (finished ++ [i]) (inherit dependencies all i) where
  done := by
    intro k hk j
    rcases List.mem_append.1 hk with hold | hnew
    · have hne : k ≠ i := fun heq => hi (heq ▸ hold)
      simpa [inherit_other all hne] using h.done k hold j
    · have hki : k = i := by simpa using hnew
      subst hki
      have hself : k ∉ iter (dependencies k) := fun hmem => hi (hbefore k (mem_iter.1 hmem))
      have hfold := mem_foldl_union all k (iter (dependencies k)) hself j
      have hrow : all k = dependencies k := h.rest k hi
      -- The rows collected are those of finished dependencies, hence already closed.
      have hrows : (∃ d ∈ iter (dependencies k), j ∈ all d) ↔
          ∃ d ∈ dependencies k, Reaches dependencies d j := by
        constructor
        · rintro ⟨d, hd, hj⟩
          have hd' : d ∈ dependencies k := mem_iter.1 hd
          exact ⟨d, hd', (h.done d (hbefore d hd') j).1 hj⟩
        · rintro ⟨d, hd, hj⟩
          exact ⟨d, mem_iter.2 hd, (h.done d (hbefore d hd) j).2 hj⟩
      rw [inherit, hfold, hrow, hrows, ← reaches_iff]
  rest := by
    intro k hk
    have hk' : k ∉ finished ∧ k ≠ i := by simpa using hk
    rw [inherit_other all hk'.2]
    exact h.rest k hk'.1

theorem closed_foldl (hfirst : DependencyFirst dependencies order) :
    ∀ (back front : List (Fin n)) (all : Dependencies n), order = front ++ back →
      Closed dependencies front all →
      Closed dependencies order (back.foldl (inherit dependencies) all) := by
  intro back
  induction back with
  | nil =>
      intro front all heq hclosed
      have hfront : order = front := by simpa using heq
      exact hfront ▸ hclosed
  | cons i back ih =>
      intro front all heq hclosed
      have hi : i ∉ front := by
        have hnodup := hfirst.nodup
        rw [heq] at hnodup
        exact fun hmem => List.disjoint_of_nodup_append hnodup hmem (by simp)
      have hstep := hclosed.step hi (hfirst.before front i back heq)
      exact ih (front ++ [i]) _ (by simp [heq]) hstep

/-- The accumulated row of a node is exactly what it reaches by one or more edges. -/
theorem mem_transitive (hfirst : DependencyFirst dependencies order) {i j : Fin n} :
    j ∈ transitive dependencies order i ↔ Reaches dependencies i j := by
  have hinitial : Closed dependencies [] dependencies := ⟨by simp, by simp⟩
  have hclosed := closed_foldl hfirst order [] dependencies rfl hinitial
  exact hclosed.done i (hfirst.complete i) j

/-! ## Contexts are closed -/

theorem mem_arguments (hfirst : DependencyFirst dependencies order) {i j : Fin n} :
    j ∈ arguments i (transitive dependencies order) ↔ j = i ∨ Reaches dependencies i j := by
  simp [arguments, mem_transitive hfirst]

/-- Every slot named by the replacement of a query in a constructor body is a field of that
constructor's context, for reconstructed and for native constructors. -/
theorem context_closed {registrations : Fin n → Registration}
    (hfirst : DependencyFirst dependencies order) {unchecked : Bool} {i j : Fin n}
    (hquery : j ∈ dependencies i) {method : Method} {replacement : Replacement n}
    (h : replacements registrations (transitive dependencies order) false unchecked j method =
      some replacement) :
    ∀ s ∈ replacement.slots, ∃ k,
      s = .field k ∧ k ∈ contextArguments registrations (transitive dependencies order) i := by
  have hreach : ∀ k ∈ arguments j (transitive dependencies order), Reaches dependencies i k := by
    intro k hk
    rcases (mem_arguments hfirst).1 hk with rfl | hk
    · exact Reaches.of_edge hquery
    · exact (Reaches.of_edge hquery).trans hk
  have hfield : ∀ k ∈ arguments j (transitive dependencies order),
      k ∈ contextArguments registrations (transitive dependencies order) i := by
    intro k hk
    have hne : k ≠ i := fun heq => hfirst.not_reaches_self i (heq ▸ hreach k hk)
    have hmem : k ∈ arguments i (transitive dependencies order) :=
      (mem_arguments hfirst).2 (Or.inr (hreach k hk))
    simp [contextArguments, hmem, hne]
  intro s hs
  rcases replacement_slots h with ⟨rfl, -⟩ | ⟨-, rfl | rfl⟩
  · have hs' : s = .field j := by simpa [Replacement.slots, slot] using hs
    exact ⟨j, hs', hfield j (by simp [arguments])⟩
  · rcases List.mem_map.1 hs with ⟨k, hk, rfl⟩
    exact ⟨k, by simp [slot], hfield k hk⟩
  · rcases List.mem_map.1 hs with ⟨k, hk, rfl⟩
    exact ⟨k, by simp [slot], hfield k hk⟩

end Wiring
end Systasis
