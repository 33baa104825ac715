import Mathlib.Data.List.Basic

/-!
# Rose — labelled trees with any number of children, and visitors over them

A visitor with one overridden method is given by `enter`: it handles a node itself or leaves it to
the default traversal, which rebuilds the node from its visited children.  When what `enter` does
at a node depends on the node alone, a visit splits into a replacement in the tree and a fold over
what was found in it (`visit_eq`).
-/

namespace Systasis

inductive Rose (L : Type) where
  | node (label : L) (children : List (Rose L))

namespace Rose

variable {L S α β : Type}

def label : Rose L → L
  | .node label _ => label

def children : Rose L → List (Rose L)
  | .node _ children => children

/-- Induction over a tree, with the claim for every child at hand. -/
theorem induct {P : Rose L → Prop}
    (node : ∀ label children, (∀ child ∈ children, P child) → P (.node label children))
    (tree : Rose L) : P tree :=
  Rose.rec (motive_1 := P) (motive_2 := fun trees => ∀ child ∈ trees, P child)
    (fun label children ih => node label children ih)
    (fun _ h => absurd h List.not_mem_nil)
    (fun _ _ hhead htail => List.forall_mem_cons.2 ⟨hhead, htail⟩) tree

/-! ## Visitors -/

section Visit

variable (enter : Rose L → S → Option (Rose L × S))

mutual

def visit : Rose L → S → Rose L × S
  | .node label children, s =>
      match enter (.node label children) s with
      | some result => result
      | none =>
          let (children, s) := visitAll children s
          (.node label children, s)

def visitAll : List (Rose L) → S → List (Rose L) × S
  | [], s => ([], s)
  | tree :: rest, s =>
      let (tree, s) := visit tree s
      let (rest, s) := visitAll rest s
      (tree :: rest, s)

end

end Visit

section Find

variable (find : L → Option α)

mutual

/-- What `find` answers at the topmost labels it answers at, in the order of a visit. -/
def found : Rose L → List α
  | .node label children =>
      match find label with
      | some a => [a]
      | none => foundAll children

def foundAll : List (Rose L) → List α
  | [] => []
  | tree :: rest => found tree ++ foundAll rest

end

theorem mem_foundAll {find : L → Option α} {trees : List (Rose L)} {a : α} :
    a ∈ foundAll find trees ↔ ∃ tree ∈ trees, a ∈ found find tree := by
  induction trees with
  | nil => simp [foundAll]
  | cons tree rest ih => simp [foundAll, ih]

variable (put : α → Rose L → Rose L)

mutual

/-- The tree with `put` applied at those nodes. -/
def replace : Rose L → Rose L
  | .node label children =>
      match find label with
      | some a => put a (.node label children)
      | none => .node label (replaceAll children)

def replaceAll : List (Rose L) → List (Rose L)
  | [] => []
  | tree :: rest => replace tree :: replaceAll rest

end

end Find

/-! ## Visits that do not look at their state -/

section Stateless

variable {enter : Rose L → S → Option (Rose L × S)} {find : L → Option α}
  {put : α → Rose L → Rose L} {note : S → α → S}

mutual

theorem visit_eq
    (h : ∀ label children s, enter (.node label children) s =
      (find label).map fun a => (put a (.node label children), note s a))
    (tree : Rose L) (s : S) :
    visit enter tree s = (replace find put tree, (found find tree).foldl note s) := by
  cases tree with
  | node label children =>
      simp only [visit, replace, found, h]
      cases find label with
      | some a => rfl
      | none => simp only [Option.map_none, visitAll_eq h children s]

theorem visitAll_eq
    (h : ∀ label children s, enter (.node label children) s =
      (find label).map fun a => (put a (.node label children), note s a))
    (trees : List (Rose L)) (s : S) :
    visitAll enter trees s = (replaceAll find put trees, (foundAll find trees).foldl note s) := by
  cases trees with
  | nil => rfl
  | cons tree rest =>
      simp only [visitAll, replaceAll, foundAll, visit_eq h tree s, visitAll_eq h rest,
        List.foldl_append]

end

end Stateless

/-! ## Replacing and finding -/

section Combine

variable {find : L → Option α} {put put' : α → Rose L → Rose L}

mutual

/-- Two replacements agree when they put the same at what there is to find. -/
theorem replace_congr {tree : Rose L}
    (h : ∀ a ∈ found find tree, ∀ label children, find label = some a →
      put a (.node label children) = put' a (.node label children)) :
    replace find put tree = replace find put' tree := by
  cases tree with
  | node label children =>
      simp only [replace, found] at h ⊢
      cases hfind : find label with
      | some a =>
          rw [hfind] at h
          exact h a (List.mem_singleton.2 rfl) label children hfind
      | none =>
          rw [hfind] at h
          simp only [replaceAll_congr h]

theorem replaceAll_congr {trees : List (Rose L)}
    (h : ∀ a ∈ foundAll find trees, ∀ label children, find label = some a →
      put a (.node label children) = put' a (.node label children)) :
    replaceAll find put trees = replaceAll find put' trees := by
  cases trees with
  | nil => rfl
  | cons tree rest =>
      simp only [foundAll, List.mem_append] at h
      simp only [replaceAll, replace_congr fun a ha => h a (Or.inl ha),
        replaceAll_congr fun a ha => h a (Or.inr ha)]

end

mutual

theorem replace_self {tree : Rose L} : replace find (fun _ tree => tree) tree = tree := by
  cases tree with
  | node label children =>
      simp only [replace]
      cases find label with
      | some a => rfl
      | none => simp only [replaceAll_self]

theorem replaceAll_self {trees : List (Rose L)} :
    replaceAll find (fun _ tree => tree) trees = trees := by
  cases trees with
  | nil => rfl
  | cons tree rest => simp only [replaceAll, replace_self, replaceAll_self]

end

variable {find' : L → Option β} {keep : β → Bool}

mutual

/-- What is left to find once some of it has been replaced by trees without any. -/
theorem found_replace {tree : Rose L}
    (hkeep : ∀ label b, find' label = some b → (find label).isSome = !keep b)
    (hnone : ∀ label, find' label = none → find label = none)
    (hput : ∀ a ∈ found find tree, ∀ label children, find label = some a →
      found find' (put a (.node label children)) = []) :
    found find' (replace find put tree) = (found find' tree).filter keep := by
  cases tree with
  | node label children =>
      cases hfind' : find' label with
      | none =>
          have hfind := hnone label hfind'
          simp only [found, hfind] at hput
          simp only [replace, hfind, found, hfind', foundAll_replaceAll hkeep hnone hput]
      | some b =>
          have hb := hkeep label b hfind'
          cases hfind : find label with
          | none =>
              have hb : keep b = true := by simpa [hfind] using hb
              simp [replace, hfind, found, hfind', hb]
          | some a =>
              have hb : keep b = false := by simpa [hfind] using hb
              have ha : a ∈ found find (.node label children) := by
                simp [found, hfind]
              simp only [replace, hfind, hput a ha label children hfind, found, hfind']
              simp [hb]

theorem foundAll_replaceAll {trees : List (Rose L)}
    (hkeep : ∀ label b, find' label = some b → (find label).isSome = !keep b)
    (hnone : ∀ label, find' label = none → find label = none)
    (hput : ∀ a ∈ foundAll find trees, ∀ label children, find label = some a →
      found find' (put a (.node label children)) = []) :
    foundAll find' (replaceAll find put trees) = (foundAll find' trees).filter keep := by
  cases trees with
  | nil => rfl
  | cons tree rest =>
      simp only [foundAll, List.mem_append] at hput
      simp only [replaceAll, foundAll, List.filter_append,
        found_replace hkeep hnone fun a ha => hput a (Or.inl ha),
        foundAll_replaceAll hkeep hnone fun a ha => hput a (Or.inr ha)]

end

mutual

/-- What was found is still there after a replacement that keeps it where it applies. -/
theorem mem_found_replace {P : β → Prop} {tree : Rose L} {b : β}
    (hnone : ∀ label, find' label = none → find label = none)
    (hput : ∀ a ∈ found find tree, ∀ label children, find label = some a → find' label = some b →
      b ∈ found find' (put a (.node label children)) ∨ P b)
    (hb : b ∈ found find' tree) : b ∈ found find' (replace find put tree) ∨ P b := by
  cases tree with
  | node label children =>
      cases hfind' : find' label with
      | none =>
          have hfind := hnone label hfind'
          simp only [found, hfind, hfind'] at hput hb
          simpa only [replace, hfind, found, hfind'] using mem_foundAll_replaceAll hnone hput hb
      | some b' =>
          simp only [found, hfind', List.mem_singleton] at hb
          subst hb
          cases hfind : find label with
          | none => simp [replace, hfind, found, hfind']
          | some a =>
              have ha : a ∈ found find (.node label children) := by
                simp [found, hfind]
              simpa only [replace, hfind] using hput a ha label children hfind hfind'

theorem mem_foundAll_replaceAll {P : β → Prop} {trees : List (Rose L)} {b : β}
    (hnone : ∀ label, find' label = none → find label = none)
    (hput : ∀ a ∈ foundAll find trees, ∀ label children, find label = some a →
      find' label = some b → b ∈ found find' (put a (.node label children)) ∨ P b)
    (hb : b ∈ foundAll find' trees) :
    b ∈ foundAll find' (replaceAll find put trees) ∨ P b := by
  cases trees with
  | nil => cases hb
  | cons tree rest =>
      simp only [foundAll, List.mem_append] at hput hb
      simp only [replaceAll, foundAll, List.mem_append]
      rcases hb with hb | hb
      · rcases mem_found_replace hnone (fun a ha => hput a (Or.inl ha)) hb with h | h
        · exact Or.inl (Or.inl h)
        · exact Or.inr h
      · rcases mem_foundAll_replaceAll hnone (fun a ha => hput a (Or.inr ha)) hb with h | h
        · exact Or.inl (Or.inr h)
        · exact Or.inr h

end

mutual

/-- What there is to find after a replacement, from what there was: `comes b'` says that `b` is what
becomes of `b'`. -/
theorem mem_found_replace_iff {comes : β → Prop} {tree : Rose L} {b : β}
    (hnone : ∀ label, find' label = none → find label = none)
    (hkeep : ∀ label b', find label = none → find' label = some b' → (comes b' ↔ b = b'))
    (hput : ∀ a label children b', find label = some a → find' label = some b' →
      (comes b' ↔ b ∈ found find' (put a (.node label children)))) :
    b ∈ found find' (replace find put tree) ↔ ∃ b' ∈ found find' tree, comes b' := by
  cases tree with
  | node label children =>
      cases hfind' : find' label with
      | none =>
          simpa only [replace, hnone label hfind', found, hfind'] using
            mem_foundAll_replaceAll_iff hnone hkeep hput
      | some b' =>
          cases hfind : find label with
          | none => simp [replace, hfind, found, hfind', hkeep label b' hfind hfind']
          | some a => simp [replace, hfind, found, hfind', hput a label children b' hfind hfind']

theorem mem_foundAll_replaceAll_iff {comes : β → Prop} {trees : List (Rose L)} {b : β}
    (hnone : ∀ label, find' label = none → find label = none)
    (hkeep : ∀ label b', find label = none → find' label = some b' → (comes b' ↔ b = b'))
    (hput : ∀ a label children b', find label = some a → find' label = some b' →
      (comes b' ↔ b ∈ found find' (put a (.node label children)))) :
    b ∈ foundAll find' (replaceAll find put trees) ↔ ∃ b' ∈ foundAll find' trees, comes b' := by
  cases trees with
  | nil => simp [replaceAll, foundAll]
  | cons tree rest =>
      simp only [replaceAll, foundAll, List.mem_append, or_and_right, exists_or,
        mem_found_replace_iff hnone hkeep hput, mem_foundAll_replaceAll_iff hnone hkeep hput]

end

mutual

/-- A finer search finds its own part of what a coarser one finds. -/
theorem mem_found_of_refines {tree : Rose L} {a : α} {b : β}
    (hnone : ∀ label, find' label = none → find label = none)
    (hsome : ∀ label, find' label = some b → find label = some a)
    (hb : b ∈ found find' tree) : a ∈ found find tree := by
  cases tree with
  | node label children =>
      cases hfind' : find' label with
      | none =>
          simp only [found, hfind'] at hb
          simpa only [found, hnone label hfind'] using mem_foundAll_of_refines hnone hsome hb
      | some b' =>
          simp only [found, hfind', List.mem_singleton] at hb
          subst hb
          simp [found, hsome label hfind']

theorem mem_foundAll_of_refines {trees : List (Rose L)} {a : α} {b : β}
    (hnone : ∀ label, find' label = none → find label = none)
    (hsome : ∀ label, find' label = some b → find label = some a)
    (hb : b ∈ foundAll find' trees) : a ∈ foundAll find trees := by
  cases trees with
  | nil => cases hb
  | cons tree rest =>
      simp only [foundAll, List.mem_append] at hb ⊢
      rcases hb with hb | hb
      · exact Or.inl (mem_found_of_refines hnone hsome hb)
      · exact Or.inr (mem_foundAll_of_refines hnone hsome hb)

end

end Combine

end Rose
end Systasis
