import Mathlib.Data.Set.Insert
import Systasis.Scoped.Routes

/-!
# Mask — what a restriction denotes

A mask denotes a set of pairs of a child path and a key.  `ForChild` is the derivative of that set
by a child key and `Blocked` asks for the empty path, so following a path and then asking decides
membership.  The masks generated for `Borrowed` denote one pair: the place of the registration.
-/

namespace Systasis
namespace Scoped

variable {T : Type}

/-! ## The implementations -/

/-- `<A as SelectMask<M>>::Out` -/
def selectMask : Answer → Mask → Mask
  | .yes, mask => mask
  | .no, _ => .empty

/-- The implementations of `Blocked<k>`, with their answers. -/
inductive Blocked (k : Key) : Mask → Answer → Prop
  | empty : Blocked k .empty .no
  | mask {key : Key} {tail : Mask} {here there : Answer} :
      Equal k key here → Blocked k tail there → Blocked k (.mask key tail) (here.or there)
  | union {left right : Mask} {first second : Answer} :
      Blocked k left first → Blocked k right second →
        Blocked k (.union left right) (first.or second)
  -- A key of a child says nothing about this container.
  | nested (child : Key) (inner : Mask) : Blocked k (.nested child inner) .no
  | borrowedBy {projected : Mask} {out : Answer} :
      Blocked k projected out → Blocked k (.borrowedBy projected) out

/-- The implementations of `ForChild<k>`, with the masks they select. -/
inductive ForChild (k : Key) : Mask → Mask → Prop
  | empty : ForChild k .empty .empty
  -- A key of this container says nothing about its children.
  | mask {key : Key} {tail out : Mask} : ForChild k tail out → ForChild k (.mask key tail) out
  | union {left right left' right' : Mask} :
      ForChild k left left' → ForChild k right right' →
        ForChild k (.union left right) (.union left' right')
  | nested {child : Key} {inner : Mask} {same : Answer} :
      Equal k child same → ForChild k (.nested child inner) (selectMask same inner)
  | borrowedBy {projected out : Mask} :
      ForChild k projected out → ForChild k (.borrowedBy projected) out

/-- `ForChild<cn>(...ForChild<c1>(M))` -/
inductive ForChildren : List Key → Mask → Mask → Prop
  | nil (mask : Mask) : ForChildren [] mask mask
  | cons {child : Key} {path : List Key} {mask next out : Mask} :
      ForChild child mask next → ForChildren path next out → ForChildren (child :: path) mask out

def Answer.ofBool (b : Bool) : Answer :=
  if b then .yes else .no

theorem Answer.ofBool_or (a b : Bool) :
    (Answer.ofBool a).or (Answer.ofBool b) = Answer.ofBool (a || b) := by
  cases a <;> rfl

theorem answer_eq_ofBool (l r : Key) : answer l r = Answer.ofBool (l == r) := by
  by_cases h : l = r <;> simp [answer, Answer.ofBool, h]

theorem blocked_ofBool (k : Key) (mask : Mask) : Blocked k mask (.ofBool (mask.blocked k)) := by
  induction mask with
  | empty => exact .empty
  | mask key tail ih =>
      rw [Mask.blocked, ← Answer.ofBool_or, ← answer_eq_ofBool]
      exact .mask (equal_answer k key) ih
  | union left right ihleft ihright =>
      rw [Mask.blocked, ← Answer.ofBool_or]
      exact .union ihleft ihright
  | nested child inner _ => exact .nested child inner
  | borrowedBy projected ih => exact .borrowedBy ih

theorem blocked_iff {k : Key} {mask : Mask} {out : Answer} :
    Blocked k mask out ↔ out = .ofBool (mask.blocked k) := by
  refine ⟨?_, fun hout => hout ▸ blocked_ofBool k mask⟩
  intro h
  induction h with
  | empty => rfl
  | mask hequal _ ih =>
      rw [equal_iff.1 hequal, ih, answer_eq_ofBool, Answer.ofBool_or, Mask.blocked]
  | union _ _ ihleft ihright => rw [ihleft, ihright, Answer.ofBool_or, Mask.blocked]
  | nested child inner => rfl
  | borrowedBy _ ih => exact ih

theorem selectMask_answer (k child : Key) (inner : Mask) :
    selectMask (answer k child) inner = (Mask.nested child inner).forChild k := by
  by_cases h : k = child <;> simp [answer, selectMask, Mask.forChild, h]

theorem forChild_out (k : Key) (mask : Mask) : ForChild k mask (mask.forChild k) := by
  induction mask with
  | empty => exact .empty
  | mask key tail ih => exact .mask ih
  | union left right ihleft ihright => exact .union ihleft ihright
  | nested child inner _ =>
      rw [← selectMask_answer]
      exact .nested (equal_answer k child)
  | borrowedBy projected ih => exact .borrowedBy ih

theorem forChild_iff {k : Key} {mask out : Mask} : ForChild k mask out ↔ out = mask.forChild k := by
  refine ⟨?_, fun hout => hout ▸ forChild_out k mask⟩
  intro h
  induction h with
  | empty => rfl
  | mask _ ih => exact ih
  | union _ _ ihleft ihright => rw [ihleft, ihright, Mask.forChild]
  | nested hequal => rw [equal_iff.1 hequal, selectMask_answer]
  | borrowedBy _ ih => exact ih

/-- The restrictions left after a child path. -/
def Mask.along (mask : Mask) (path : List Key) : Mask :=
  path.foldl (fun mask child => mask.forChild child) mask

theorem forChildren_iff {path : List Key} {mask out : Mask} :
    ForChildren path mask out ↔ out = mask.along path := by
  refine ⟨?_, ?_⟩
  · intro h
    induction h with
    | nil mask => rfl
    | cons hchild _ ih => rw [ih, forChild_iff.1 hchild, Mask.along, Mask.along, List.foldl_cons]
  · intro hout
    subst hout
    induction path generalizing mask with
    | nil => exact .nil mask
    | cons child path ih => exact .cons (forChild_out child mask) ih

/-! ## Denotations -/

/-- The pairs of a child path and a key that a mask restricts. -/
def Mask.denotes : Mask → Set (List Key × Key)
  | .empty => ∅
  | .mask key tail => insert ([], key) tail.denotes
  | .union left right => left.denotes ∪ right.denotes
  | .nested child inner => Set.image (fun entry => (child :: entry.1, entry.2)) inner.denotes
  | .borrowedBy projected => projected.denotes

theorem blocked_iff_mem {k : Key} {mask : Mask} : mask.blocked k = true ↔ ([], k) ∈ mask.denotes := by
  induction mask with
  | empty => simp [Mask.blocked, Mask.denotes]
  | mask key tail ih => simp [Mask.blocked, Mask.denotes, ih]
  | union left right ihleft ihright => simp [Mask.blocked, Mask.denotes, ihleft, ihright]
  | nested child inner _ => simp [Mask.blocked, Mask.denotes]
  | borrowedBy projected ih => simpa [Mask.blocked, Mask.denotes] using ih

theorem mem_forChild {child k : Key} {path : List Key} {mask : Mask} :
    (path, k) ∈ (mask.forChild child).denotes ↔ (child :: path, k) ∈ mask.denotes := by
  induction mask with
  | empty => simp [Mask.forChild, Mask.denotes]
  | mask key tail ih => simp [Mask.forChild, Mask.denotes, ih]
  | union left right ihleft ihright => simp [Mask.forChild, Mask.denotes, ihleft, ihright]
  | nested head inner _ =>
      by_cases hchild : child = head
      · subst hchild
        simp [Mask.forChild, Mask.denotes]
      · simp [Mask.forChild, Mask.denotes, hchild, Ne.symm hchild]
  | borrowedBy projected ih => simpa [Mask.forChild, Mask.denotes] using ih

theorem mem_along {path rest : List Key} {k : Key} {mask : Mask} :
    (rest, k) ∈ (mask.along path).denotes ↔ (path ++ rest, k) ∈ mask.denotes := by
  induction path generalizing mask with
  | nil => rfl
  | cons child path ih =>
      rw [Mask.along, List.foldl_cons, List.cons_append, ← mem_forChild]
      exact ih

/-! ## Borrowed registrations -/

mutual

/-- `<C as Borrowed<path, k>>::Mask`; the implementations have the heads and where-clauses of those
of `Registered`. -/
def borrowed (path : PathTy) (k : Key) : Container T → Option Mask
  | .mk id registrations children =>
      match registeredImpls path k (.mk id registrations children), path with
      | [.leaf index], _ => (registrations[index]?).map fun r => .mask r.maskKey .empty
      | [.segment name], _ =>
          match registeredImpls (.here (hereOf name)) k (.mk id registrations children) with
          | [.leaf index] => (registrations[index]?).map fun r => .mask r.maskKey .empty
          | _ => none
      | [.child index], .there child rest => (borrowedChild rest k index children).map (.nested child)
      | _, _ => none

def borrowedChild (rest : PathTy) (k : Key) : Nat → List (Child T) → Option Mask
  | _, [] => none
  | 0, .mk _ _ container :: _ => borrowed rest k container
  | index + 1, _ :: children => borrowedChild rest k index children

end

/-- The path leads to a registration of the container at a child path: directly, by its namespace
spelled as a segment, or through a child. -/
inductive Resolves : Container T → PathTy → Key → List Key → Registration T → Prop
  | here {container : Container T} {r : Registration T} :
      r ∈ container.registrations → Resolves container r.path (key r.interface) [] r
  | segment {container : Container T} {r : Registration T} :
      r ∈ container.registrations →
        Resolves container (.there (key r.namespaceName) (.here none)) (key r.interface) [] r
  | child {container : Container T} {child : Child T} {rest : PathTy} {k : Key} {path : List Key}
      {r : Registration T} :
      child ∈ container.children → Resolves child.container rest k path r →
        Resolves container (.there (key child.name) rest) k (key child.name :: path) r

section Selected

variable {path : PathTy} {k : Key} {container : Container T}

theorem borrowed_eq : borrowed path k container =
    match registeredImpls path k container, path with
    | [.leaf index], _ => (container.registrations[index]?).map fun r => .mask r.maskKey .empty
    | [.segment name], _ =>
        match registeredImpls (.here (hereOf name)) k container with
        | [.leaf index] => (container.registrations[index]?).map fun r => .mask r.maskKey .empty
        | _ => none
    | [.child index], .there child rest =>
        (borrowedChild rest k index container.children).map (.nested child)
    | _, _ => none := by
  cases container
  rfl

theorem borrowed_of_leaf {index : Nat}
    (himpls : registeredImpls path k container = [.leaf index]) :
    borrowed path k container =
      (container.registrations[index]?).map fun r => .mask r.maskKey .empty := by
  rw [borrowed_eq, himpls]

theorem borrowed_of_segment {name : String} {index : Nat}
    (himpls : registeredImpls path k container = [.segment name])
    (hhere : registeredImpls (.here (hereOf name)) k container = [.leaf index]) :
    borrowed path k container =
      (container.registrations[index]?).map fun r => .mask r.maskKey .empty := by
  rw [borrowed_eq, himpls]
  simp only [hhere]

theorem borrowed_of_child {child : Key} {index : Nat}
    (himpls : registeredImpls (.there child path) k container = [.child index]) :
    borrowed (.there child path) k container =
      (borrowedChild path k index container.children).map (.nested child) := by
  rw [borrowed_eq, himpls]

end Selected

theorem borrowedChild_eq (rest : PathTy) (k : Key) (child : Child T) (front back : List (Child T)) :
    borrowedChild rest k front.length (front ++ child :: back) = borrowed rest k child.container := by
  induction front with
  | nil => cases child; simp [borrowedChild, Child.container]
  | cons first front ih => simpa [borrowedChild] using ih

theorem named_namespaceName {r : Registration T} (h : r.ns ≠ some "default") :
    named (some r.namespaceName) = r.ns := by
  cases hns : r.ns with
  | none => simp [Registration.namespaceName, named, hns]
  | some name =>
      have hname : name ≠ "default" := by
        intro heq
        exact h (by rw [hns, heq])
      simp [Registration.namespaceName, named, hns, hname]

/-- No child has the name of a namespace. -/
theorem Sound.child_ne_namespace {container : Container T} (hsound : Sound container)
    {r : Registration T} (hr : r ∈ container.registrations) :
    ∀ child ∈ container.children, child.name ≠ r.namespaceName := by
  intro child hchild heq
  cases hns : r.ns with
  | none => exact hsound.noDefault child hchild (by rw [heq, Registration.namespaceName, hns]; rfl)
  | some name =>
      refine hsound.apart child hchild r hr ?_
      rw [heq, Registration.namespaceName, hns]
      rfl

theorem registeredImpls_path {container : Container T} (hsound : Sound container) {index : Nat}
    {r : Registration T} (hr : container.registrations[index]? = some r) :
    registeredImpls r.path (key r.interface) container = [.leaf index] := by
  rw [Registration.path, registeredImpls_here hsound, lookup_of_getElem? hsound hr rfl]
  rfl

theorem registeredImpls_segment {container : Container T} (hsound : Sound container) {index : Nat}
    {r : Registration T} (hr : container.registrations[index]? = some r) :
    registeredImpls (.there (key r.namespaceName) (.here none)) (key r.interface) container =
      [.segment r.namespaceName] := by
  have hmem := List.mem_of_getElem? hr
  have himpls := registeredImpls_there container r.namespaceName [] r.interface
  rw [selected_segment hsound (hsound.child_ne_namespace hmem),
    named_namespaceName (hsound.named r hmem), lookup_of_getElem? hsound hr rfl] at himpls
  simpa [pathOf] using himpls

/-- A path that starts with the name of a child is left to that child. -/
theorem registeredImpls_child {container : Container T} (hsound : Sound container)
    {front back : List (Child T)} {child : Child T}
    (hchildren : container.children = front ++ child :: back) {rest : PathTy} {k : Key}
    (hinner : registeredImpls rest k child.container ≠ []) :
    registeredImpls (.there (key child.name) rest) k container = [.child front.length] := by
  have hmem : child ∈ container.children := by simp [hchildren]
  have hnamespaces :
      namespaceImpls (fun _ => true) container.registrations (key child.name) rest k = [] := by
    simp only [namespaceImpls, List.map_eq_nil_iff, List.filter_eq_nil_iff]
    intro name hname
    rcases List.mem_map.1 (List.mem_dedup.1 hname) with ⟨r, hr, rfl⟩
    have hne : r.namespaceName ≠ child.name := (hsound.child_ne_namespace hr child hmem).symm
    simp [hne]
  have htuple : tupleRegistered (key child.name) rest k 0 container.children = [front.length] := by
    have hnames := hsound.childNames
    rw [hchildren] at hnames ⊢
    rw [tupleRegistered_eq, tupleOf_found hnames]
    simp [childRegisters, hinner]
  cases container with
  | mk id registrations children =>
      simp only [Container.registrations, Container.children] at hnamespaces htuple
      simp [registeredImpls, hnamespaces, htuple]

/-- The mask of a borrow is defined and restricts its registration, and nothing else. -/
theorem borrowed_denotes {container : Container T} (h : Accepted container) :
    ∀ (path : PathTy) (k : Key) (place : List Key) (r : Registration T),
      Resolves container path k place r →
        registeredImpls path k container ≠ [] ∧
        ∃ mask, borrowed path k container = some mask ∧ mask.denotes = {(place, r.maskKey)} := by
  refine Accepted.induct ?_ h
  intro container hsound ih path k place r hresolves
  cases hresolves with
  | here hr =>
      rcases List.getElem?_of_mem hr with ⟨index, hindex⟩
      have himpls := registeredImpls_path hsound hindex
      refine ⟨by simp [himpls], .mask r.maskKey .empty, ?_, by simp [Mask.denotes]⟩
      rw [borrowed_of_leaf himpls, hindex]
      rfl
  | segment hr =>
      rcases List.getElem?_of_mem hr with ⟨index, hindex⟩
      have himpls := registeredImpls_segment hsound hindex
      have hhere := registeredImpls_path hsound hindex
      rw [Registration.path, ← named_namespaceName (hsound.named r hr), ← hereOf_eq] at hhere
      refine ⟨by simp [himpls], .mask r.maskKey .empty, ?_, by simp [Mask.denotes]⟩
      rw [borrowed_of_segment himpls hhere, hindex]
      rfl
  | @child _ child rest _ inner _ hchild hresolves =>
      rcases List.append_of_mem hchild with ⟨front, back, hchildren⟩
      rcases ih child hchild rest k inner r hresolves with ⟨hinner, mask, hmask, hdenotes⟩
      have himpls := registeredImpls_child hsound hchildren hinner
      refine ⟨by simp [himpls], .nested (key child.name) mask, ?_, ?_⟩
      · rw [borrowed_of_child himpls, hchildren, borrowedChild_eq, hmask]
        rfl
      · simp [Mask.denotes, hdenotes]

/-- Following a child path and asking decides what a mask denotes, and the mask of a borrow denotes
its target alone. -/
theorem mask_membership :
    (∀ (mask : Mask) (path : List Key) (k : Key),
      ∃! out, ForChildren path mask out ∧
        (∃! answer, Blocked k out answer) ∧ (Blocked k out .yes ↔ (path, k) ∈ mask.denotes)) ∧
    ∀ (T : Type) (root : Container T), Accepted root →
      ∀ (path : PathTy) (k : Key) (place : List Key) (r : Registration T),
        Resolves root path k place r →
          ∃ mask, borrowed path k root = some mask ∧ mask.denotes = {(place, r.maskKey)} ∧
            (Mask.borrowedBy mask).denotes = {(place, r.maskKey)} := by
  refine ⟨?_, ?_⟩
  · intro mask path k
    refine ⟨mask.along path, ⟨forChildren_iff.2 rfl, ?_, ?_⟩, ?_⟩
    · exact ⟨_, blocked_ofBool k _, fun out hout => blocked_iff.1 hout⟩
    · have hmem := @mem_along path [] k mask
      rw [List.append_nil] at hmem
      rw [← hmem, ← blocked_iff_mem, blocked_iff]
      cases (mask.along path).blocked k <;> simp [Answer.ofBool]
    · intro out hout
      exact forChildren_iff.1 hout.1
  · intro T root h path k place r hresolves
    rcases (borrowed_denotes h path k place r hresolves).2 with ⟨mask, hmask, hdenotes⟩
    exact ⟨mask, hmask, hdenotes, hdenotes⟩

/-- The registration of `i_value` in the namespace `spare`. -/
def spare : Registration Nat :=
  { ns := some "spare", interface := "i_value", ty := 1, slot := .take, consumed := [], calls := [] }

/-- A borrow of `i_value` in the namespace `spare` of `branch::replica`. -/
theorem mask_membership_spare :
    Accepted (.mk 0 [] outer) ∧
      ∃ mask, borrowed (pathOf ["branch", "replica", "spare"]) (key "i_value") (.mk 0 [] outer) =
          some mask ∧
        mask.denotes =
          {([key "branch", key "replica"], .pair (key "spare") (key "i_value"))} := by
  refine ⟨accepted_outer, ?_⟩
  have hresolves : Resolves (.mk 0 [] outer) (pathOf ["branch", "replica", "spare"])
      (key "i_value") [key "branch", key "replica"] spare := by
    refine @Resolves.child _ _ (.mk "branch" .empty (.mk 1 [] branches)) _ _ _ _
      (by simp [Container.children, outer]) ?_
    refine @Resolves.child _ _ (.mk "replica" .empty (.mk 3 values [])) _ _ _ _
      (by simp [Container.children, Child.container, branches]) ?_
    have hmem : spare ∈ (Container.mk 3 values []).registrations := by
      simp [Container.registrations, values, spare]
    exact .segment hmem
  rcases mask_membership.2 Nat _ accepted_outer _ _ _ _ hresolves with ⟨mask, hmask, hdenotes, _⟩
  exact ⟨mask, hmask, hdenotes⟩

end Scoped
end Systasis
