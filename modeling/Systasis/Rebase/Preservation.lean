import Systasis.Rebase.Denotation
import Mathlib.Data.List.Nodup
import Mathlib.Data.List.Forall2

/-!
# Preservation — when hoisted source keeps its meaning

The visitor decides by the leading `super` segments of a spelling and by its own counter.  A
reference keeps its meaning exactly when these agree with the modules the reference climbs; when
they do is spelled out by `Handled`.
-/

namespace Systasis
namespace Rebase

variable {M : Type}

/-! ## The generated module in scope -/

section Scope

variable (gen : M) (inner outer : List M)

/-- A climb that left the moved source has to pass the generated module too. -/
theorem climb_further {k : Nat} (hk : inner.length ≤ k) :
    (inner ++ gen :: outer)[k + 1]? = (inner ++ outer)[k]? := by
  rw [List.getElem?_append_right hk, List.getElem?_append_right (Nat.le_succ_of_le hk),
    Nat.succ_sub hk, List.getElem?_cons_succ]

/-- The same climb reaches the same module exactly when it stays in the moved source, or leaves
the crate in both places. -/
theorem climb_same_iff (hnodup : (gen :: outer).Nodup) (k : Nat) :
    (inner ++ gen :: outer)[k]? = (inner ++ outer)[k]? ↔
      k < inner.length ∨ inner.length + outer.length < k := by
  by_cases hk : k < inner.length
  · simp [List.getElem?_append_left hk, hk]
  · replace hk := Nat.le_of_not_lt hk
    rcases Nat.exists_eq_add_of_le hk with ⟨j, rfl⟩
    have hleft : (inner ++ gen :: outer)[inner.length + j]? = (gen :: outer)[j]? := by
      rw [List.getElem?_append_right hk, Nat.add_sub_cancel_left]
    have hright : (inner ++ outer)[inner.length + j]? = outer[j]? := by
      rw [List.getElem?_append_right hk, Nat.add_sub_cancel_left]
    rw [hleft, hright]
    constructor
    · intro heq
      right
      by_contra hle
      have hj : j < (gen :: outer).length := by
        simp only [List.length_cons]
        omega
      have hmem : (gen :: outer)[j]? = (gen :: outer)[j + 1]? := by
        simpa using heq
      -- Two positions of a duplicate-free list hold the same module.
      have hsame := (List.getElem?_inj hj hnodup).1 hmem
      omega
    · rintro (hlt | hbeyond)
      · omega
      · have hj : (gen :: outer).length ≤ j := by
          simp only [List.length_cons]
          omega
        have hj' : outer.length ≤ j := by omega
        rw [List.getElem?_eq_none hj, List.getElem?_eq_none hj']

end Scope

/-! ## Anchors -/

theorem parents_super (idents : List String) : parents ("super" :: idents) = parents idents + 1 := by
  simp [parents]

theorem head_of_parents {idents : List String} (hpos : 0 < parents idents) :
    idents.head? = some "super" := by
  cases idents with
  | nil => simp [parents] at hpos
  | cons ident idents =>
      by_cases hident : ident = "super"
      · simp [hident]
      · simp [parents, hident] at hpos

theorem escape_super (idents : List String) :
    escape ("super" :: idents) = some (parents idents + 1) := by
  simp [escape, parents_super]

theorem remainder_super (idents : List String) :
    remainder ("super" :: idents) = idents.drop (parents idents) := by
  simp [remainder, parents_super]

theorem escape_of_parents {idents : List String} (hpos : 0 < parents idents) :
    escape idents = some (parents idents) := by
  simp [escape, head_of_parents hpos, Nat.ne_of_gt hpos]

theorem remainder_of_parents {idents : List String} (hpos : 0 < parents idents) :
    remainder idents = idents.drop (parents idents) := by
  simp [remainder, head_of_parents hpos]

theorem escape_self (idents : List String) : escape ("self" :: idents) = some (parents idents) := by
  simp [escape]

theorem remainder_self (idents : List String) :
    remainder ("self" :: idents) = idents.drop (parents idents) := by
  simp [remainder]

/-- The path does not climb out of `depth` moved modules, or climbs past the crate root. -/
def Contained (depth height : Nat) (idents : List String) : Prop :=
  ∀ k, escape idents = some k → k < depth ∨ depth + height < k

section Resolve

variable {gen : M} {inner outer : List M}

theorem resolve_keep_iff (hnodup : (gen :: outer).Nodup) (idents : List String) :
    resolve (inner ++ gen :: outer) false idents = resolve (inner ++ outer) false idents ↔
      Contained inner.length outer.length idents := by
  cases hescape : escape idents with
  | none => simp [resolve, Contained, hescape]
  | some k =>
      simp only [resolve, Contained, hescape, Bool.false_eq_true, if_false, Target.module.injEq,
        and_true, Option.some.injEq, forall_eq']
      exact climb_same_iff gen inner outer hnodup k

/-- One more `super` in front of a path that climbs out of the moved source. -/
theorem resolve_insert (gen : M) (outer : List M) {idents : List String} (hpos : 0 < parents idents)
    (hclimb : inner.length ≤ parents idents) :
    resolve (inner ++ gen :: outer) false ("super" :: idents) =
      resolve (inner ++ outer) false idents := by
  simp only [resolve, escape_super, remainder_super, escape_of_parents hpos,
    remainder_of_parents hpos, climb_further gen inner outer hclimb, Bool.false_eq_true, if_false]

/-- `self` outside every inline module becomes `super`. -/
theorem resolve_rename (idents : List String) :
    resolve (gen :: outer) false ("super" :: idents) = resolve outer false ("self" :: idents) := by
  have hclimb := climb_further gen [] outer (Nat.zero_le (parents idents))
  simp only [List.nil_append] at hclimb
  simp only [resolve, escape_super, remainder_super, escape_self, remainder_self, hclimb,
    Bool.false_eq_true, if_false]

end Resolve

/-! ## Decisions -/

theorem change_insert {nestedModules : Nat} {leadingColon : Bool} {idents : List String}
    (h : change nestedModules leadingColon idents = .insert) :
    leadingColon = false ∧ 0 < parents idents ∧ nestedModules ≤ parents idents := by
  unfold change at h
  split at h
  · cases h
  · split at h
    · rename_i hleading hclimb
      exact ⟨by simpa using hleading, hclimb⟩
    · split at h <;> cases h

theorem change_rename {nestedModules : Nat} {leadingColon : Bool} {idents : List String}
    (h : change nestedModules leadingColon idents = .rename) :
    leadingColon = false ∧ nestedModules = 0 ∧ ∃ rest, rest ≠ [] ∧ idents = "self" :: rest := by
  unfold change at h
  split at h
  · cases h
  · rename_i hleading
    split at h
    · cases h
    · split at h
      · rename_i hself
        rcases hself with ⟨hzero, hlength, hhead⟩
        refine ⟨by simpa using hleading, hzero, ?_⟩
        cases idents with
        | nil => cases hhead
        | cons ident rest =>
            cases hhead
            refine ⟨rest, ?_, rfl⟩
            rintro rfl
            simp at hlength
      · cases h

/-- What the visitor does to a path, if it comes by. -/
def decision (counter : Option Nat) (leadingColon : Bool) (idents : List String) : Change :=
  counter.elim .keep fun nestedModules => change nestedModules leadingColon idents

mutual

/-- The trees that are left when outer groups are opened. -/
def branches : UseTree → List UseTree
  | .group items => branchesAll items
  | .path ident tree => [.path ident tree]
  | .name ident => [.name ident]
  | .rename ident rename => [.rename ident rename]
  | .glob => [.glob]

def branchesAll : List UseTree → List UseTree
  | [] => []
  | tree :: trees => branches tree ++ branchesAll trees

end

/-- A branch is rewritten, or none of its leaves climbs out. -/
def BranchHandled (counter : Option Nat) (depth height : Nat) (tree : UseTree) : Prop :=
  (∃ nestedModules, counter = some nestedModules ∧
    (0 < tree.parents ∧ nestedModules ≤ tree.parents ∨
      nestedModules = 0 ∧ ∃ rest, tree = .path "self" rest)) ∨
    ∀ leaf ∈ leaves true tree, Contained depth height leaf.1

/-- The path climbs at least as far as the counter says. -/
def Climbs (counter : Option Nat) (leadingColon : Bool) (idents : List String) : Prop :=
  leadingColon = false ∧ 0 < parents idents ∧
    ∃ nestedModules, counter = some nestedModules ∧ nestedModules ≤ parents idents

/-- A longer path starts with `self` where the counter is zero. -/
def StartsAtSelf (counter : Option Nat) (leadingColon : Bool) (idents : List String) : Prop :=
  leadingColon = false ∧ counter = some 0 ∧ ∃ rest, rest ≠ [] ∧ idents = "self" :: rest

/-- What is rewritten can be, and what is left alone does not leave the moved source. -/
def Reference.Handled (counter : Option Nat) (depth height : Nat) : Reference → Prop
  | .path position leadingColon idents =>
      (Climbs counter leadingColon idents ∧ position = none) ∨
        StartsAtSelf counter leadingColon idents ∨
          ¬Climbs counter leadingColon idents ∧
            (leadingColon = true ∨ (position = none ∧ idents = ["self"]) ∨
              Contained depth height (position.elim idents fun position => idents.take position))
  | .visibility inToken leadingColon idents =>
      (Climbs counter leadingColon idents ∧ inToken = true) ∨
        StartsAtSelf counter leadingColon idents ∨
          ¬Climbs counter leadingColon idents ∧
            (leadingColon = true ∨ Contained depth height idents)
  | .use leadingColon tree =>
      leadingColon = true ∨ ∀ branch ∈ branches tree, BranchHandled counter depth height branch

def Occurrence.Handled (height : Nat) (o : Occurrence M) : Prop :=
  o.reference.Handled (o.drift.map (o.inner.length + ·)) o.inner.length height

/-- What `syn` guarantees of a parsed reference. -/
def Reference.WellFormed : Reference → Prop
  | .path (some position) leadingColon idents =>
      position ≤ idents.length ∧ (position = 0 → leadingColon = true)
  | reference => reference.Grammatical

/-- The rewritten reference names the same modules and items as the original one did, with the same
split of a qualified path, and is grammatical. -/
def Preserves (gen : M) (outer : List M) (o o' : Occurrence M) : Prop :=
  o'.inner = o.inner ∧
    o'.reference.meaning (o.inner ++ gen :: outer) = o.reference.meaning (o.inner ++ outer) ∧
    o'.reference.Grammatical

section Decisions

variable {gen : M} {inner outer : List M} {counter : Option Nat}

theorem decision_insert_iff {leadingColon : Bool} {idents : List String} :
    decision counter leadingColon idents = .insert ↔ Climbs counter leadingColon idents := by
  constructor
  · intro h
    cases counter with
    | none => cases h
    | some nestedModules =>
        rcases change_insert h with ⟨hleading, hpos, hclimb⟩
        exact ⟨hleading, hpos, nestedModules, rfl, hclimb⟩
  · rintro ⟨rfl, hpos, nestedModules, rfl, hclimb⟩
    simp [decision, change, hpos, hclimb]

theorem decision_rename_iff {leadingColon : Bool} {idents : List String} :
    decision counter leadingColon idents = .rename ↔
      StartsAtSelf counter leadingColon idents := by
  constructor
  · intro h
    cases counter with
    | none => cases h
    | some nestedModules =>
        rcases change_rename h with ⟨hleading, rfl, hself⟩
        exact ⟨hleading, rfl, hself⟩
  · rintro ⟨rfl, rfl, rest, hrest, rfl⟩
    simp [decision, change, parents, List.length_pos_iff, hrest]

/-- What a decision asks of a path. -/
theorem handled_path_iff {depth height : Nat} {position : Option Nat} {leadingColon : Bool}
    {idents : List String} :
    (Reference.path position leadingColon idents).Handled counter depth height ↔
      match decision counter leadingColon idents with
      | .insert => position = none
      | .rename => True
      | .keep =>
          leadingColon = true ∨ (position = none ∧ idents = ["self"]) ∨
            Contained depth height (position.elim idents fun position => idents.take position) := by
  rw [Reference.Handled, ← decision_insert_iff, ← decision_rename_iff]
  cases decision counter leadingColon idents <;> simp

/-- What a decision asks of a restricted visibility. -/
theorem handled_visibility_iff {depth height : Nat} {inToken leadingColon : Bool}
    {idents : List String} :
    (Reference.visibility inToken leadingColon idents).Handled counter depth height ↔
      match decision counter leadingColon idents with
      | .insert => inToken = true
      | .rename => True
      | .keep => leadingColon = true ∨ Contained depth height idents := by
  rw [Reference.Handled, ← decision_insert_iff, ← decision_rename_iff]
  cases decision counter leadingColon idents <;> simp

theorem path_preserved_iff (hnodup : (gen :: outer).Nodup)
    (hcounter : ∀ nestedModules, counter = some nestedModules → inner.length ≤ nestedModules)
    {position : Option Nat} {leadingColon : Bool} {idents : List String}
    (hwf : (Reference.path position leadingColon idents).WellFormed) :
    (Reference.path position leadingColon ((decision counter leadingColon idents).idents
        idents)).meaning (inner ++ gen :: outer) =
      (Reference.path position leadingColon idents).meaning (inner ++ outer) ↔
    (Reference.path position leadingColon idents).Handled counter inner.length outer.length := by
  cases hdecision : decision counter leadingColon idents with
  | insert =>
      cases counter with
      | none => cases hdecision
      | some nestedModules =>
          rcases change_insert hdecision with ⟨rfl, hpos, hclimb⟩
          have hhead := head_of_parents hpos
          have hself : idents ≠ ["self"] := by
            rintro rfl
            simp at hhead
          have hresolve := resolve_insert gen outer hpos
            (Nat.le_trans (hcounter nestedModules rfl) hclimb)
          cases position with
          | none =>
              simp [handled_path_iff, hdecision, Reference.meaning, Change.idents, hself, hresolve]
          | some position =>
              -- The split of a qualified path is left where it was, one segment too early.
              have hsplit : ("super" :: idents).drop position ≠ idents.drop position := by
                intro heq
                have hlength := congrArg List.length heq
                rcases hwf with ⟨hle, hzero⟩
                have hpos' : position ≠ 0 := fun h => Bool.false_ne_true (hzero h)
                simp only [List.length_drop, List.length_cons] at hlength
                omega
              simp [handled_path_iff, hdecision, Reference.meaning, Change.idents, hsplit]
  | rename =>
      cases counter with
      | none => cases hdecision
      | some nestedModules =>
          rcases change_rename hdecision with ⟨rfl, rfl, rest, hrest, rfl⟩
          have hinner : inner = [] := List.length_eq_zero_iff.1 (Nat.le_zero.1 (hcounter 0 rfl))
          subst hinner
          cases position with
          | none =>
              simp [handled_path_iff, hdecision, Reference.meaning, Change.idents, hrest,
                resolve_rename]
          | some position =>
              rcases hwf with ⟨_, hzero⟩
              cases position with
              | zero => cases hzero rfl
              | succ position =>
                  simp [handled_path_iff, hdecision, Reference.meaning, Change.idents,
                    resolve_rename]
  | keep =>
      simp only [handled_path_iff, hdecision, Change.idents]
      cases leadingColon with
      | true =>
          cases position <;> simp [Reference.meaning, resolve]
      | false =>
          cases position with
          | none =>
              by_cases hself : idents = ["self"]
              · simp [Reference.meaning, hself]
              · simp [Reference.meaning, hself, resolve_keep_iff hnodup]
          | some position =>
              simp [Reference.meaning, resolve_keep_iff hnodup]

theorem visibility_preserved_iff (hnodup : (gen :: outer).Nodup)
    (hcounter : ∀ nestedModules, counter = some nestedModules → inner.length ≤ nestedModules)
    {inToken leadingColon : Bool} {idents : List String}
    (hwf : (Reference.visibility inToken leadingColon idents).WellFormed) :
    ((Reference.visibility inToken leadingColon ((decision counter leadingColon idents).idents
          idents)).meaning (inner ++ gen :: outer) =
        (Reference.visibility inToken leadingColon idents).meaning (inner ++ outer) ∧
      (Reference.visibility inToken leadingColon ((decision counter leadingColon idents).idents
          idents)).Grammatical) ↔
    (Reference.visibility inToken leadingColon idents).Handled counter inner.length
      outer.length := by
  cases hdecision : decision counter leadingColon idents with
  | insert =>
      cases counter with
      | none => cases hdecision
      | some nestedModules =>
          -- One more `super` makes up for the module in between.
          rcases change_insert hdecision with ⟨rfl, hpos, hclimb⟩
          have hresolve := resolve_insert gen outer hpos
            (Nat.le_trans (hcounter nestedModules rfl) hclimb)
          have hne : idents ≠ [] := by
            rintro rfl
            simp [parents] at hpos
          cases inToken <;>
            simp [handled_visibility_iff, hdecision, Reference.meaning, Change.idents, hresolve,
              Reference.Grammatical, hne]
  | rename =>
      cases counter with
      | none => cases hdecision
      | some nestedModules =>
          rcases change_rename hdecision with ⟨rfl, rfl, rest, hrest, rfl⟩
          -- `self` becomes `super` only at the top, and there it needs `in`.
          have hinner : inner = [] := List.length_eq_zero_iff.1 (Nat.le_zero.1 (hcounter 0 rfl))
          subst hinner
          cases inToken with
          | true =>
              simp [handled_visibility_iff, hdecision, Reference.meaning, Change.idents, resolve_rename,
                Reference.Grammatical]
          | false => simp [Reference.WellFormed, Reference.Grammatical, hrest] at hwf
  | keep =>
      -- What is kept must not climb past the generated module.
      have hgrammatical : (Reference.visibility inToken leadingColon idents).Grammatical := hwf
      simp only [handled_visibility_iff, hdecision, Change.idents, hgrammatical, and_true]
      cases leadingColon with
      | true => simp [Reference.meaning, resolve]
      | false => simp [Reference.meaning, resolve_keep_iff hnodup]

end Decisions

/-! ## Imports -/

/-- What the visitor does to a tree that is not a group, if it comes by. -/
def rewriteBranch (counter : Option Nat) (tree : UseTree) : UseTree :=
  counter.elim tree fun nestedModules => useTreePath nestedModules tree

/-- The three outcomes of `useTreePath`. -/
theorem useTreePath_cases (nestedModules : Nat) (tree : UseTree) :
    (0 < tree.parents ∧ nestedModules ≤ tree.parents ∧
      useTreePath nestedModules tree = .path "super" tree) ∨
    (nestedModules = 0 ∧ ∃ rest, tree = .path "self" rest ∧
      useTreePath nestedModules tree = .path "super" rest) ∨
    (¬(0 < tree.parents ∧ nestedModules ≤ tree.parents) ∧
      ¬(nestedModules = 0 ∧ ∃ rest, tree = .path "self" rest) ∧
      useTreePath nestedModules tree = tree) := by
  unfold useTreePath
  split
  · rename_i hclimb
    exact .inl ⟨hclimb.1, hclimb.2, rfl⟩
  · rename_i hclimb
    right
    split
    · rename_i ident rest
      by_cases hself : ident = "self"
      · subst hself
        exact .inl ⟨rfl, rest, rfl, by simp⟩
      · exact .inr ⟨hclimb, by simp [hself], by simp [hself]⟩
    · rename_i hother
      refine .inr ⟨hclimb, ?_, rfl⟩
      rintro ⟨rfl, rest, rfl⟩
      exact hother _ _ rfl rfl

theorem branches_useTreePath (nestedModules : Nat) {tree : UseTree} (htree : branches tree = [tree]) :
    branches (useTreePath nestedModules tree) = [useTreePath nestedModules tree] := by
  rcases useTreePath_cases nestedModules tree with ⟨_, _, heq⟩ | ⟨_, rest, _, heq⟩ | ⟨_, _, heq⟩
  · rw [heq]
    simp [branches]
  · rw [heq]
    simp [branches]
  · rw [heq, htree]

mutual

theorem branches_useTree (nestedModules : Nat) (tree : UseTree) :
    branches (useTree nestedModules tree) =
      (branches tree).map (useTreePath nestedModules) := by
  cases tree with
  | group items => simpa [useTree, branches] using branchesAll_useTrees nestedModules items
  | path ident tree =>
      simpa [useTree, branches] using branches_useTreePath nestedModules (by simp [branches])
  | name ident =>
      simpa [useTree, branches] using branches_useTreePath nestedModules (by simp [branches])
  | rename ident rename =>
      simpa [useTree, branches] using branches_useTreePath nestedModules (by simp [branches])
  | glob =>
      simpa [useTree, branches] using branches_useTreePath nestedModules (by simp [branches])

theorem branchesAll_useTrees (nestedModules : Nat) (trees : List UseTree) :
    branchesAll (useTrees nestedModules trees) =
      (branchesAll trees).map (useTreePath nestedModules) := by
  cases trees with
  | nil => simp [useTrees, branchesAll]
  | cons tree trees =>
      simp [useTrees, branchesAll, branches_useTree nestedModules tree,
        branchesAll_useTrees nestedModules trees]

end

mutual

theorem leaves_eq_flatMap (tree : UseTree) :
    leaves true tree = (branches tree).flatMap (leaves true) := by
  cases tree with
  | group items => simpa [leaves, branches] using leavesAll_eq_flatMap items
  | _ => simp [branches]

theorem leavesAll_eq_flatMap (trees : List UseTree) :
    leavesAll true trees = (branchesAll trees).flatMap (leaves true) := by
  cases trees with
  | nil => simp [leavesAll, branchesAll]
  | cons tree trees =>
      simp [leavesAll, branchesAll, leaves_eq_flatMap tree, leavesAll_eq_flatMap trees]

end

/-- Every leaf begins with the `super` segments its tree begins with. -/
theorem parents_le_of_mem_leaves (tree : UseTree) (root : Bool) :
    ∀ leaf ∈ leaves root tree, tree.parents ≤ parents leaf.1 := by
  cases tree with
  | path ident tree =>
      intro leaf hleaf
      rcases List.mem_map.1 hleaf with ⟨below, hbelow, rfl⟩
      by_cases hident : ident = "super"
      · subst hident
        simpa [UseTree.parents, parents_super] using
          parents_le_of_mem_leaves tree false below hbelow
      · simp [UseTree.parents, hident]
  | _ => simp [UseTree.parents]

theorem path_of_parents {tree : UseTree} (hpos : 0 < tree.parents) :
    ∃ rest, tree = .path "super" rest := by
  cases tree with
  | path ident rest =>
      by_cases hident : ident = "super"
      · exact ⟨rest, by rw [hident]⟩
      · simp [UseTree.parents, hident] at hpos
  | _ => simp [UseTree.parents] at hpos

/-- Lists put together from pieces of equal lengths are equal piece by piece. -/
theorem flatMap_eq_flatMap_iff {α β : Type} {f g : α → List β} (l : List α)
    (hlength : ∀ x, (f x).length = (g x).length) :
    l.flatMap f = l.flatMap g ↔ ∀ x ∈ l, f x = g x := by
  induction l with
  | nil => simp
  | cons x l ih =>
      simp only [List.flatMap_cons, List.forall_mem_cons, ← ih]
      constructor
      · intro heq
        exact List.append_inj heq (hlength x)
      · rintro ⟨hx, hl⟩
        rw [hx, hl]

section Imports

variable {gen : M} {inner outer : List M} {counter : Option Nat}

/-- What a leaf imports. -/
def importOf (scope : List M) (leaf : List String × LeafKind) : Target M × LeafKind :=
  (resolve scope false leaf.1, leaf.2)

theorem length_leaves_rewriteBranch (counter : Option Nat) (tree : UseTree) :
    (leaves true (rewriteBranch counter tree)).length = (leaves true tree).length := by
  cases counter with
  | none => rfl
  | some nestedModules =>
      simp only [rewriteBranch, Option.elim_some]
      rcases useTreePath_cases nestedModules tree with
        ⟨hpos, _, heq⟩ | ⟨_, rest, rfl, heq⟩ | ⟨_, _, heq⟩
      · rcases path_of_parents hpos with ⟨rest, rfl⟩
        rw [heq]
        simp [leaves]
      · rw [heq]
        simp [leaves]
      · rw [heq]

theorem branch_preserved_iff (hnodup : (gen :: outer).Nodup)
    (hcounter : ∀ nestedModules, counter = some nestedModules → inner.length ≤ nestedModules)
    (tree : UseTree) :
    (leaves true (rewriteBranch counter tree)).map (importOf (inner ++ gen :: outer)) =
      (leaves true tree).map (importOf (inner ++ outer)) ↔
    BranchHandled counter inner.length outer.length tree := by
  have hkeep : (leaves true tree).map (importOf (inner ++ gen :: outer)) =
      (leaves true tree).map (importOf (inner ++ outer)) ↔
      ∀ leaf ∈ leaves true tree, Contained inner.length outer.length leaf.1 := by
    simp [List.map_inj_left, importOf, resolve_keep_iff hnodup]
  cases counter with
  | none => simpa [BranchHandled, rewriteBranch] using hkeep
  | some nestedModules =>
      simp only [rewriteBranch, Option.elim_some]
      rcases useTreePath_cases nestedModules tree with
        ⟨hpos, hclimb, heq⟩ | ⟨rfl, rest, rfl, heq⟩ | ⟨hinsert, hrename, heq⟩
      · -- Every leaf of the branch climbs at least as far as the branch does.
        have hhandled : BranchHandled (some nestedModules) inner.length outer.length tree :=
          .inl ⟨nestedModules, rfl, .inl ⟨hpos, hclimb⟩⟩
        refine iff_of_true ?_ hhandled
        have hleaves : leaves true (.path "super" tree) =
            (leaves true tree).map fun leaf => ("super" :: leaf.1, leaf.2) := by
          rcases path_of_parents hpos with ⟨rest, rfl⟩
          simp [leaves]
        rw [heq, hleaves, List.map_map]
        refine List.map_congr_left ?_
        intro leaf hleaf
        have hparents := parents_le_of_mem_leaves tree true leaf hleaf
        have hresolve := resolve_insert gen outer (Nat.lt_of_lt_of_le hpos hparents)
          (Nat.le_trans (hcounter nestedModules rfl) (Nat.le_trans hclimb hparents))
        simp [importOf, hresolve]
      · have hinner : inner = [] := List.length_eq_zero_iff.1 (Nat.le_zero.1 (hcounter 0 rfl))
        subst hinner
        refine iff_of_true ?_ (.inl ⟨0, rfl, .inr ⟨rfl, rest, rfl⟩⟩)
        rw [heq]
        simp [leaves, importOf, resolve_rename]
      · -- The branch is kept, so each of its leaves decides for itself.
        rw [heq, hkeep]
        constructor
        · exact .inr
        · rintro (⟨_, hsome, hclimb | hself⟩ | hcontained)
          · cases hsome
            exact absurd hclimb hinsert
          · cases hsome
            exact absurd hself hrename
          · exact hcontained

theorem use_preserved_iff (hnodup : (gen :: outer).Nodup)
    (hcounter : ∀ nestedModules, counter = some nestedModules → inner.length ≤ nestedModules)
    {leadingColon : Bool} {tree : UseTree} :
    (Reference.use leadingColon (if leadingColon then tree else
        counter.elim tree fun nestedModules => useTree nestedModules tree)).meaning
          (inner ++ gen :: outer) =
      (Reference.use leadingColon tree).meaning (inner ++ outer) ↔
    (Reference.use leadingColon tree).Handled counter inner.length outer.length := by
  cases leadingColon with
  | true => simp [Reference.meaning, Reference.Handled, resolve]
  | false =>
      have hbranches : branches (counter.elim tree fun nestedModules => useTree nestedModules tree) =
          (branches tree).map (rewriteBranch counter) := by
        cases counter with
        | none => exact (List.map_id (branches tree)).symm
        | some nestedModules => exact branches_useTree nestedModules tree
      -- Rewriting keeps the number of leaves of each branch, so the lists agree branch by branch.
      have hpieces := flatMap_eq_flatMap_iff
        (f := fun branch => (leaves true (rewriteBranch counter branch)).map
          (importOf (inner ++ gen :: outer)))
        (g := fun branch => (leaves true branch).map (importOf (inner ++ outer)))
        (branches tree) (fun branch => by simp [length_leaves_rewriteBranch])
      have himport : ∀ scope : List M,
          (fun leaf : List String × LeafKind => (resolve scope false leaf.1, leaf.2)) =
            importOf scope := fun _ => rfl
      simp only [branch_preserved_iff hnodup hcounter] at hpieces
      simp only [Reference.meaning, Reference.Handled, Bool.false_eq_true, if_false, false_or,
        Meaning.use.injEq, himport, ← hpieces]
      rw [leaves_eq_flatMap (counter.elim tree _), leaves_eq_flatMap tree, hbranches]
      simp [List.map_flatMap, List.flatMap_map]

end Imports

/-! ## The generated module -/

/-- One reference keeps its meaning exactly when it is handled. -/
theorem preserves_rewrite_iff {gen : M} {outer : List M} (hnodup : (gen :: outer).Nodup)
    (o : Occurrence M) (hwf : o.reference.WellFormed) :
    Preserves gen outer o o.rewrite ↔ o.Handled outer.length := by
  rcases o with ⟨inner, drift, reference⟩
  -- The counter may run ahead of the nesting, never behind it.
  have hcounter : ∀ nestedModules, drift.map (inner.length + ·) = some nestedModules →
      inner.length ≤ nestedModules := by
    intro nestedModules hsome
    rcases Option.map_eq_some_iff.1 hsome with ⟨ahead, _, rfl⟩
    exact Nat.le_add_right _ _
  have hshape : Occurrence.rewrite ⟨inner, drift, reference⟩ = ⟨inner, drift,
      (drift.map (inner.length + ·)).elim reference fun nestedModules =>
        reference.rewrite nestedModules⟩ := by
    cases drift <;> rfl
  simp only [hshape, Preserves, Occurrence.Handled, true_and]
  generalize drift.map (inner.length + ·) = counter at hcounter ⊢
  cases reference with
  | path position leadingColon idents =>
      have hrewrite : (counter.elim (Reference.path position leadingColon idents) fun n =>
          (Reference.path position leadingColon idents).rewrite n) =
          .path position leadingColon ((decision counter leadingColon idents).idents idents) := by
        cases counter <;> rfl
      simpa [hrewrite, Reference.Grammatical] using path_preserved_iff hnodup hcounter hwf
  | visibility inToken leadingColon idents =>
      have hrewrite : (counter.elim (Reference.visibility inToken leadingColon idents) fun n =>
          (Reference.visibility inToken leadingColon idents).rewrite n) =
          .visibility inToken leadingColon
            ((decision counter leadingColon idents).idents idents) := by
        cases counter <;> rfl
      rw [hrewrite]
      exact visibility_preserved_iff hnodup hcounter hwf
  | use leadingColon tree =>
      have hrewrite : (counter.elim (Reference.use leadingColon tree) fun n =>
          (Reference.use leadingColon tree).rewrite n) =
          .use leadingColon (if leadingColon then tree else
            counter.elim tree fun nestedModules => useTree nestedModules tree) := by
        cases counter with
        | none => cases leadingColon <;> rfl
        | some nestedModules => rfl
      simpa [hrewrite, Reference.Grammatical] using use_preserved_iff hnodup hcounter

/-- Drops the visibilities that belong to the generator. -/
def hideField : Node M → Node M
  | .field attrs _ children => .field attrs .inherited children
  | node => node

def hide : Node M → Node M
  | .item kind attrs vis children =>
      .item kind attrs (if kind.restored then .inherited else vis)
        (if kind = .struct then children.map hideField else children)
  | node => node

/-- Only the visibility of a field can change. -/
theorem restoreFields_cons (original node : Node M) (originals nodes : List (Node M)) :
    ∃ restored, restoreFields (original :: originals) (node :: nodes) =
      restored :: restoreFields originals nodes ∧ hideField restored = hideField node := by
  cases node with
  | field attrs vis children =>
      cases original with
      | field attrs' vis' children' => exact ⟨.field attrs vis' children, rfl, rfl⟩
      | _ => exact ⟨_, rfl, rfl⟩
  | _ => cases original <;> exact ⟨_, rfl, rfl⟩

theorem map_hideField_restoreFields (originals nodes : List (Node M)) :
    (restoreFields originals nodes).map hideField = nodes.map hideField := by
  induction nodes generalizing originals with
  | nil =>
      cases originals with
      | nil => rfl
      | cons original originals => cases original <;> rfl
  | cons node nodes ih =>
      cases originals with
      | nil => rfl
      | cons original originals =>
          rcases restoreFields_cons original node originals nodes with ⟨restored, heq, hhide⟩
          rw [heq, List.map_cons, List.map_cons, hhide, ih]

theorem map_hideField_visitAll (nestedModules : Nat) (nodes : List (Node M)) :
    (visitAll nestedModules nodes).map hideField =
      visitAll nestedModules (nodes.map hideField) := by
  induction nodes with
  | nil => rfl
  | cons node nodes ih =>
      cases node <;> simp [visitAll, visit, hideField, visitVisibility, ih]

/-- Behind the visibilities that are put back, the loop only visits. -/
theorem hide_rebaseItem {item : Node M} (hitem : isParentImport item = false) :
    hide (rebaseItem item) = visit 0 (hide item) := by
  simp only [rebaseItem, hitem, Bool.false_eq_true, if_false]
  cases item with
  | item kind attrs vis children =>
      have hvis : (if kind.restored then .inherited else if kind.restored then vis else
          visitVisibility 0 vis) =
          visitVisibility 0 (if kind.restored then .inherited else vis) := by
        cases kind.restored <;> rfl
      simp only [visit, restore, hide, hvis]
      by_cases hstruct : kind = .struct
      · simp [hstruct, map_hideField_restoreFields, map_hideField_visitAll]
      · simp [hstruct]
  | _ => simp [visit, restore, hide]

/-- The items that carry source of the caller. -/
def sources (items : List (Node M)) : List (Node M) :=
  items.filter fun item => !isParentImport item

/-- The references the caller wrote. -/
def references (items : List (Node M)) : List (Occurrence M) :=
  items.flatMap fun item => occurrences (some 0) [] (hide item)

theorem references_generatedModule (items : List (Node M)) :
    references (generatedModule (sources items)) =
      (references (sources items)).map Occurrence.rewrite := by
  have hsource : ∀ item ∈ sources items, isParentImport item = false := by
    intro item hmem
    simpa using (List.mem_filter.1 hmem).2
  generalize sources items = moved at hsource
  induction moved with
  | nil => rfl
  | cons item moved ih =>
      have hitem := hide_rebaseItem (hsource item (by simp))
      have hvisit := occurrences_visit 0 [] (hide item)
      have hrest := ih fun item hmem => hsource item (by simp [hmem])
      simp only [List.length_nil, Nat.add_zero] at hvisit
      simp only [references, generatedModule, List.map_cons, List.flatMap_cons, List.map_append]
        at hrest ⊢
      rw [hitem, hvisit, hrest]

/-- Hoisting keeps what the caller's references denote exactly when every one of them is handled. -/
theorem generatedModule_preserves_iff (gen : M) (outer : List M) (items : List (Node M))
    (hnodup : (gen :: outer).Nodup)
    (hwf : ∀ o ∈ references (sources items), o.reference.WellFormed) :
    List.Forall₂ (Preserves gen outer) (references (sources items))
        (references (generatedModule (sources items))) ↔
      ∀ o ∈ references (sources items), o.Handled outer.length := by
  rw [references_generatedModule, List.forall₂_map_right_iff, List.forall₂_same]
  constructor
  · intro h o ho
    exact (preserves_rewrite_iff hnodup o (hwf o ho)).1 (h o ho)
  · intro h o ho
    exact (preserves_rewrite_iff hnodup o (hwf o ho)).2 (h o ho)

/-- `use super::*;` and a function whose inline module mentions `super::Input`. -/
def climbing : List (Node Nat) :=
  [.itemUse [] .inherited false (.path "super" .glob),
    .item .fn [] (.restricted false false ["super"])
      [.itemMod 3 [] .inherited [.path [] 0 false [.mk "super" [], .mk "Input" []]]]]

theorem generatedModule_preserves_iff_climbing :
    List.Forall₂ (Preserves 0 [1, 2]) (references (sources climbing))
      (references (generatedModule (sources climbing))) := by
  have hreferences : references (sources climbing) =
      [⟨[3], some 0, .path none false ["super", "Input"]⟩] := by
    simp [references, sources, climbing, isParentImport, hide, ItemKind.restored, occurrences,
      occurrencesAll, segmentOccurrences, visibilityOccurrences, Segment.ident]
  refine (generatedModule_preserves_iff 0 [1, 2] climbing (by decide) ?_).2 ?_
  · simp [hreferences, Reference.WellFormed, Reference.Grammatical]
  · simp [hreferences, Occurrence.Handled, Reference.Handled, Climbs, parents]

/-- `type Output = <T as super::Trait>::Item;` -/
def projecting : List (Node Nat) :=
  [.item .type [] .inherited
    [.path [.other []] 2 false [.mk "super" [], .mk "Trait" [], .mk "Item" []]]]

/-- The hoisted type reads `<T as super::super>::Trait::Item`. -/
theorem generatedModule_moves_split :
    (∀ o ∈ references (sources projecting), o.reference.WellFormed) ∧
      ¬List.Forall₂ (Preserves 0 [1, 2]) (references (sources projecting))
        (references (generatedModule (sources projecting))) := by
  have hreferences : references (sources projecting) =
      [⟨[], some 0, .path (some 2) false ["super", "Trait", "Item"]⟩] := by
    simp [references, sources, projecting, isParentImport, hide, ItemKind.restored, occurrences,
      occurrencesAll, segmentOccurrences, visibilityOccurrences, Segment.ident]
  constructor
  · simp [hreferences, Reference.WellFormed]
  · rw [references_generatedModule, hreferences]
    intro h
    cases h with
    | cons hpreserves _ =>
        have hmeaning := hpreserves.2.1
        simp [Occurrence.rewrite, Reference.rewrite, Reference.meaning, change, parents,
          Change.idents] at hmeaning

end Rebase
end Systasis
