import Systasis.Scoped.Instance

/-!
# Selection — where a path leads in a tree of instances

The names of an accepted instance keep the generated implementations apart, so a path leads to one
registration whatever the restrictions are.  Restrictions only decide whether it has an
implementation: then the where-clauses of the registration reached hold, under a mask that includes
all the descriptor had for its place.
-/

namespace Systasis
namespace Scoped

open Syntax

variable {unchecked : Bool}

/-! ## The names of an accepted instance -/

section Names

variable (inst : Instance unchecked)

theorem Instance.container_id : inst.container.id = inst.id := by
  cases inst
  rfl

theorem Instance.container_registrations :
    inst.container.registrations = List.ofFn inst.declaration.entry := by
  cases inst
  rfl

theorem Instance.container_children :
    inst.container.children = List.ofFn fun p =>
      .mk (inst.declaration.childName p) (inst.restrictions p) (inst.instances p).container := by
  cases inst
  rfl

end Names

section Accepted

variable {inst : Instance unchecked}

theorem Accepted.instances (h : Accepted inst.container)
    (p : Fin inst.declaration.children.length) : Accepted (inst.instances p).container := by
  refine h.inv.2 (.mk (inst.declaration.childName p) (inst.restrictions p) _) ?_
  rw [inst.container_children]
  exact List.mem_ofFn.2 ⟨p, rfl⟩

theorem Accepted.childName_injective (h : Accepted inst.container) :
    Function.Injective inst.declaration.childName := by
  have hnames := h.inv.1.childNames
  rw [inst.container_children, List.map_ofFn] at hnames
  exact List.nodup_ofFn.1 hnames

theorem Accepted.childName_ne (h : Accepted inst.container)
    (p : Fin inst.declaration.children.length) {r : Registration Node}
    (hr : r ∈ inst.container.registrations) : inst.declaration.childName p ≠ r.namespaceName := by
  refine h.inv.1.child_ne_namespace hr
    (.mk (inst.declaration.childName p) (inst.restrictions p) (inst.instances p).container) ?_
  rw [inst.container_children]
  exact List.mem_ofFn.2 ⟨p, rfl⟩

theorem Accepted.entry_injective (h : Accepted inst.container) {i j : Fin inst.declaration.size}
    (hns : (inst.declaration.entry i).ns = (inst.declaration.entry j).ns)
    (hinterface : (inst.declaration.entry i).interface = (inst.declaration.entry j).interface) :
    i = j := by
  have hdistinct := h.inv.1.distinct
  rw [inst.container_registrations, List.pairwise_ofFn] at hdistinct
  rcases lt_trichotomy i j with hlt | heq | hgt
  · exact absurd ⟨hns, hinterface⟩ (hdistinct hlt)
  · exact heq
  · exact absurd ⟨hns.symm, hinterface.symm⟩ (hdistinct hgt)

theorem Accepted.at {place : List Key} {node : Instance unchecked} (hat : At inst place node)
    (h : Accepted inst.container) : Accepted node.container := by
  induction hat with
  | here inst => exact h
  | child p _ ih => exact ih (h.instances p)

end Accepted

theorem At.trans {inst node node' : Instance unchecked} {place place' : List Key}
    (h : At inst place node) (h' : At node place' node') : At inst (place ++ place') node' := by
  induction h with
  | here inst => exact h'
  | child p _ ih => exact .child p (ih h')

/-- A place holds one instance. -/
theorem At.unique {inst node node' : Instance unchecked} {place : List Key}
    (h : At inst place node) (h' : At inst place node') (haccepted : Accepted inst.container) :
    node = node' := by
  induction h with
  | here inst =>
      cases h' with
      | here => rfl
  | @child inst node place p _ ih =>
      generalize hplace : key (inst.declaration.childName p) :: place = path at h'
      cases h' with
      | here => cases hplace
      | child p' hrest =>
          rcases List.cons.inj hplace with ⟨hname, rfl⟩
          cases haccepted.childName_injective (key_injective hname)
          exact ih hrest (haccepted.instances p)

/-! ## Where a path leads -/

/-- The registration a path leads to and the child path of its container, without regard to
restrictions. -/
inductive Leads (k : Key) : Instance unchecked → PathTy → List Key → Target unchecked → Prop
  | leaf {inst : Instance unchecked} (j : Fin inst.declaration.size) :
      key (inst.declaration.entry j).interface = k →
        Leads k inst (inst.declaration.entry j).path [] ⟨inst, j⟩
  | segment {inst : Instance unchecked} {name : String} {target : Target unchecked} :
      name ∈ namespaceNames inst.container.registrations →
        Leads k inst (.here (hereOf name)) [] target →
          Leads k inst (.there (key name) (.here none)) [] target
  | child {inst : Instance unchecked} {rest : PathTy} {place : List Key}
      {target : Target unchecked} (p : Fin inst.declaration.children.length) :
      Leads k (inst.instances p) rest place target →
        Leads k inst (.there (key (inst.declaration.childName p)) rest)
          (key (inst.declaration.childName p) :: place) target

theorem Leads.at {k : Key} {inst : Instance unchecked} {path : PathTy} {place : List Key}
    {target : Target unchecked} (h : Leads k inst path place target) :
    At inst place target.node := by
  induction h with
  | leaf j _ => exact .here _
  | segment _ _ ih => exact ih
  | child p _ ih => exact .child p ih

theorem Leads.place_eq_nil {k : Key} {inst : Instance unchecked} {path : PathTy} {place : List Key}
    {target : Target unchecked} {namespaceKey : Option Key} (h : Leads k inst path place target)
    (hpath : path = .here namespaceKey) : place = [] := by
  cases h with
  | leaf j _ => rfl
  | segment _ _ => rfl
  | child p _ => cases hpath

theorem Leads.unique {k : Key} {inst : Instance unchecked} {path : PathTy} {place place' : List Key}
    {target target' : Target unchecked} (h : Leads k inst path place target)
    (h' : Leads k inst path place' target') (haccepted : Accepted inst.container) :
    target = target' := by
  induction h generalizing place' target' with
  | @leaf inst j hk =>
      generalize hpath : (inst.declaration.entry j).path = path at h'
      cases h' with
      | leaf j' hk' =>
          have hns : (inst.declaration.entry j).ns = (inst.declaration.entry j').ns :=
            Option.map_injective key_injective (PathTy.here.inj hpath)
          cases haccepted.entry_injective hns (key_injective (hk.trans hk'.symm))
          rfl
      | segment _ _ => cases hpath
      | child p _ => cases hpath
  | @segment inst name target hname _ ih =>
      generalize hpath : PathTy.there (key name) (.here none) = path at h'
      cases h' with
      | leaf j _ => cases hpath
      | segment _ hhere =>
          cases key_injective (PathTy.there.inj hpath).1
          exact ih hhere haccepted
      | child p _ =>
          -- No child is named like a namespace.
          rcases List.mem_map.1 (List.mem_dedup.1 hname) with ⟨r, hr, hnamed⟩
          have hclash := key_injective (PathTy.there.inj hpath).1
          exact absurd (hclash.symm.trans hnamed.symm) (haccepted.childName_ne p hr)
  | @child inst rest place target p _ ih =>
      generalize hpath : PathTy.there (key (inst.declaration.childName p)) rest = path at h'
      cases h' with
      | leaf j _ => cases hpath
      | segment hname _ =>
          rcases List.mem_map.1 (List.mem_dedup.1 hname) with ⟨r, hr, hnamed⟩
          have hclash := key_injective (PathTy.there.inj hpath).1
          exact absurd (hclash.trans hnamed.symm) (haccepted.childName_ne p hr)
      | child p' hrest =>
          rcases PathTy.there.inj hpath with ⟨hname, rfl⟩
          cases haccepted.childName_injective (key_injective hname)
          exact ih hrest (haccepted.instances p)

/-! ## What selection finds -/

section Selection

variable {T : Type}

theorem mem_leaves {holds : Registration T → Bool} {registrations : List (Registration T)}
    {namespaceKey : Option Key} {k : Key} {index : Nat} :
    index ∈ leaves holds registrations namespaceKey k ↔
      ∃ r, registrations[index]? = some r ∧ r.path = .here namespaceKey ∧ key r.interface = k ∧
        holds r = true := by
  simp only [leaves, List.mem_map, List.mem_filter, Bool.and_eq_true, beq_iff_eq]
  refine ⟨?_, ?_⟩
  · rintro ⟨⟨r, position⟩, ⟨hmem, ⟨hpath, hkey⟩, hholds⟩, rfl⟩
    exact ⟨r, List.mem_zipIdx_iff_getElem?.1 hmem, hpath, hkey, hholds⟩
  · rintro ⟨r, hr, hpath, hkey, hholds⟩
    exact ⟨(r, index), ⟨List.mem_zipIdx_iff_getElem?.2 hr, ⟨hpath, hkey⟩, hholds⟩, rfl⟩

theorem mem_tupleOf {inner : Child T → Bool} {name : Key} {start index : Nat}
    {children : List (Child T)} (h : index ∈ tupleOf inner name start children) :
    ∃ position child, index = start + position ∧ children[position]? = some child ∧
      key child.name = name ∧ inner child = true := by
  induction children generalizing start with
  | nil => cases h
  | cons first children ih =>
      have hrest : index ∈ tupleOf inner name (start + 1) children →
          ∃ position child, index = start + position ∧
            (first :: children)[position]? = some child ∧ key child.name = name ∧
              inner child = true := by
        intro hmem
        rcases ih hmem with ⟨position, child, hindex, hchild, hnamed⟩
        exact ⟨position + 1, child, by omega, by simpa using hchild, hnamed⟩
      simp only [tupleOf] at h
      split at h
      · rename_i hfirst
        rcases List.mem_cons.1 h with rfl | hmem
        · simp only [Bool.and_eq_true, beq_iff_eq] at hfirst
          exact ⟨0, first, rfl, rfl, hfirst⟩
        · exact hrest hmem
      · exact hrest h

theorem implementations_here_eq (container : Container T) (mask : Mask) (namespaceKey : Option Key)
    (k : Key) (op : Operation) :
    implementations unchecked mask (.here namespaceKey) k op container =
      (leaves (scopeHolds unchecked op (container, mask)) container.registrations namespaceKey
        k).map .leaf := by
  cases container with
  | mk id registrations children =>
      rw [implementations]
      rfl

theorem implementations_there_eq (container : Container T) (mask : Mask) (child : Key)
    (rest : PathTy) (k : Key) (op : Operation) :
    implementations unchecked mask (.there child rest) k op container =
      namespaceImpls (scopeHolds unchecked op (container, mask)) container.registrations child rest
          k ++
        (tupleOf (childHolds unchecked mask rest k op) child 0 container.children).map .child := by
  rw [← tupleImplementations_eq]
  cases container with
  | mk id registrations children =>
      rw [implementations]
      rfl

theorem mem_namespaceImpls {holds : Registration T → Bool} {registrations : List (Registration T)}
    {child : Key} {rest : PathTy} {k : Key} {impl : Impl}
    (h : impl ∈ namespaceImpls holds registrations child rest k) :
    ∃ name, impl = .segment name ∧ name ∈ namespaceNames registrations ∧ key name = child ∧
      rest = .here none ∧ leaves holds registrations (hereOf name) k ≠ [] := by
  rcases List.mem_map.1 h with ⟨name, hmem, rfl⟩
  rcases List.mem_filter.1 hmem with ⟨hname, hfits⟩
  simp only [Bool.and_eq_true, beq_iff_eq, Bool.not_eq_true', List.isEmpty_eq_false_iff] at hfits
  exact ⟨name, rfl, hname, hfits.1.1, hfits.1.2, hfits.2⟩

end Selection

section Selects

variable {inst : Instance unchecked} {mask : Mask} {k : Key} {op : Operation}

theorem leaf_selected {namespaceKey : Option Key} {index : Nat}
    (h : index ∈ leaves (scopeHolds unchecked op (inst.container, mask))
      inst.container.registrations namespaceKey k) :
    ∃ j : Fin inst.declaration.size, index = j ∧
      Leads k inst (.here namespaceKey) [] ⟨inst, j⟩ ∧
      scopeHolds unchecked op (inst.container, mask) (inst.declaration.entry j) = true := by
  rcases mem_leaves.1 h with ⟨r, hr, hpath, hkey, hholds⟩
  rw [inst.container_registrations, List.getElem?_ofFn] at hr
  split at hr
  · rename_i hindex
    cases hr
    refine ⟨⟨index, hindex⟩, rfl, ?_, hholds⟩
    rw [← hpath]
    exact .leaf _ hkey
  · cases hr

theorem child_selected {child : Key} {rest : PathTy} {index : Nat}
    (h : index ∈ tupleOf (childHolds unchecked mask rest k op) child 0 inst.container.children) :
    ∃ p : Fin inst.declaration.children.length, index = p ∧
      key (inst.declaration.childName p) = child ∧
      implementations unchecked
        (.union (inst.restrictions p) (mask.forChild (key (inst.declaration.childName p)))) rest k
        op (inst.instances p).container ≠ [] := by
  rcases mem_tupleOf h with ⟨position, found, hindex, hfound, hname, hholds⟩
  rw [inst.container_children, List.getElem?_ofFn] at hfound
  split at hfound
  · rename_i hposition
    cases hfound
    refine ⟨⟨position, hposition⟩, by simpa using hindex, hname, ?_⟩
    simpa [childHolds] using hholds
  · cases hfound

/-- The restrictions at a place below include all that the mask has for it. -/
def Carries (mask : Mask) (place : List Key) (mask' : Mask) : Prop :=
  ∀ rest k, (place ++ rest, k) ∈ mask.denotes → (rest, k) ∈ mask'.denotes

theorem Carries.child {inner mask' restrictions : Mask} {name : Key} {place : List Key}
    (h : Carries (.union restrictions (inner.forChild name)) place mask') :
    Carries inner (name :: place) mask' := by
  intro rest k hmem
  exact h rest k (Or.inr (mem_forChild.2 hmem))

/-- A path with an implementation leads to a registration whose where-clauses hold, under
restrictions that include those of the descriptor. -/
theorem leads_of_implementations {path : PathTy}
    (h : implementations unchecked mask path k op inst.container ≠ []) :
    ∃ place target mask', Leads k inst path place target ∧ Carries mask place mask' ∧
      scopeHolds unchecked op (target.node.container, mask')
        (target.node.declaration.entry target.index) = true := by
  induction path generalizing inst mask with
  | here namespaceKey =>
      rw [implementations_here_eq, Ne, List.map_eq_nil_iff] at h
      rcases List.exists_mem_of_ne_nil _ h with ⟨index, hindex⟩
      rcases leaf_selected hindex with ⟨j, _, hleads, hholds⟩
      exact ⟨[], _, mask, hleads, fun _ _ hmem => hmem, hholds⟩
  | there child rest ih =>
      rw [implementations_there_eq] at h
      rcases List.exists_mem_of_ne_nil _ h with ⟨impl, himpl⟩
      rcases List.mem_append.1 himpl with hnamespace | hchild
      · rcases mem_namespaceImpls hnamespace with ⟨name, _, hname, rfl, rfl, hleaves⟩
        rcases List.exists_mem_of_ne_nil _ hleaves with ⟨index, hindex⟩
        rcases leaf_selected hindex with ⟨j, _, hleads, hholds⟩
        exact ⟨[], _, mask, .segment hname hleads, fun _ _ hmem => hmem, hholds⟩
      · rcases List.mem_map.1 hchild with ⟨index, hindex, _⟩
        rcases child_selected hindex with ⟨p, _, rfl, hinner⟩
        rcases ih hinner with ⟨place, target, mask', hleads, hcarries, hholds⟩
        exact ⟨_, target, mask', .child p hleads, hcarries.child, hholds⟩

theorem Dispatches.leads {path : PathTy} {target : Target unchecked}
    (h : Dispatches op k inst mask path target) : ∃ place, Leads k inst path place target := by
  induction h with
  | @leaf inst mask namespaceKey j himpls =>
      rw [implementations_here_eq] at himpls
      have hmem : j.val ∈ leaves (scopeHolds unchecked op (inst.container, mask))
          inst.container.registrations namespaceKey k := by
        have hself : Impl.leaf j.val ∈ [Impl.leaf j.val] := List.mem_cons_self
        rw [← himpls, List.mem_map] at hself
        rcases hself with ⟨index, hindex, heq⟩
        cases heq
        exact hindex
      rcases leaf_selected hmem with ⟨j', hindex, hleads, _⟩
      cases Fin.ext hindex
      exact ⟨[], hleads⟩
  | @segment inst mask child rest name target himpls _ ih =>
      rw [implementations_there_eq] at himpls
      have hself : Impl.segment name ∈ [Impl.segment name] := List.mem_cons_self
      rw [← himpls, List.mem_append] at hself
      rcases hself with hnamespace | hchild
      · rcases mem_namespaceImpls hnamespace with ⟨name', heq, hname, rfl, rfl, _⟩
        cases heq
        rcases ih with ⟨place, hleads⟩
        -- A namespace segment stays on the container.
        cases hleads.place_eq_nil rfl
        exact ⟨[], .segment hname hleads⟩
      · rcases List.mem_map.1 hchild with ⟨_, _, heq⟩
        cases heq
  | @child inst mask child rest p target himpls _ ih =>
      rw [implementations_there_eq] at himpls
      have hself : Impl.child p.val ∈ [Impl.child p.val] := List.mem_cons_self
      rw [← himpls, List.mem_append] at hself
      rcases hself with hnamespace | hchild
      · rcases mem_namespaceImpls hnamespace with ⟨_, heq, _⟩
        cases heq
      · rcases List.mem_map.1 hchild with ⟨index, hindex, heq⟩
        cases heq
        rcases child_selected hindex with ⟨p', hposition, rfl, _⟩
        cases Fin.ext hposition
        rcases ih with ⟨place, hleads⟩
        exact ⟨_, .child p hleads⟩

theorem Dispatches.implementations_ne_nil {path : PathTy} {target : Target unchecked}
    (h : Dispatches op k inst mask path target) :
    implementations unchecked mask path k op inst.container ≠ [] := by
  cases h with
  | leaf himpls => simp [himpls]
  | segment himpls _ => simp [himpls]
  | child himpls _ => simp [himpls]

theorem dispatchChild_getElem? {T : Type} {mask : Mask} {rest : PathTy} {k : Key} {op : Operation}
    {children : List (Child T)} {index : Nat} {name : String} {restrictions : Mask}
    {container : Container T} (h : children[index]? = some (.mk name restrictions container)) :
    dispatchChild unchecked mask rest k op index children =
      dispatch unchecked (.union restrictions (mask.forChild (key name))) rest k op container := by
  rcases List.getElem?_eq_some_iff.1 h with ⟨hindex, hchild⟩
  have hsplit := List.take_append_drop index children
  rw [List.drop_eq_getElem_cons hindex, hchild] at hsplit
  have hlength : (children.take index).length = index := List.length_take_of_le hindex.le
  rw [← hsplit]
  nth_rewrite 1 [← hlength]
  exact dispatchChild_eq mask rest k op name restrictions container _ _

theorem Instance.dispatchChild_position (inst : Instance unchecked) {mask : Mask} {rest : PathTy}
    {k : Key} {op : Operation} (p : Fin inst.declaration.children.length) :
    dispatchChild unchecked mask rest k op p inst.container.children =
      dispatch unchecked
        (.union (inst.restrictions p) (mask.forChild (key (inst.declaration.childName p)))) rest k
        op (inst.instances p).container := by
  refine dispatchChild_getElem? ?_
  rw [inst.container_children, List.getElem?_ofFn, dif_pos p.isLt]

/-- Executions follow the dispatch of the typed paths. -/
theorem Dispatches.dispatch_eq {path : PathTy} {target : Target unchecked}
    (h : Dispatches op k inst mask path target) :
    dispatch unchecked mask path k op inst.container = some target.address := by
  induction h with
  | @leaf inst mask namespaceKey j himpls =>
      rw [dispatch_of_leaf himpls, inst.container_id]
      rfl
  | @segment inst mask child rest name target himpls hhere _ =>
      cases hhere with
      | leaf hleaf =>
          rw [dispatch_of_segment himpls hleaf, inst.container_id]
          rfl
  | @child inst mask child rest p target himpls _ ih =>
      rw [dispatch_of_child himpls, inst.dispatchChild_position, ih]

theorem dispatch_cases {T : Type} {container : Container T} {path : PathTy} {address : Address}
    (h : dispatch unchecked mask path k op container = some address) :
    (∃ index, implementations unchecked mask path k op container = [.leaf index] ∧
      address = ⟨container.id, index⟩) ∨
    (∃ name index, implementations unchecked mask path k op container = [.segment name] ∧
      implementations unchecked mask (.here (hereOf name)) k op container = [.leaf index] ∧
      address = ⟨container.id, index⟩) ∨
    ∃ child rest index, path = .there child rest ∧
      implementations unchecked mask path k op container = [.child index] ∧
      dispatchChild unchecked mask rest k op index container.children = some address := by
  cases container with
  | mk id registrations children =>
      unfold dispatch at h
      split at h
      · rename_i index himpls
        cases h
        exact .inl ⟨index, himpls, rfl⟩
      · rename_i name himpls
        split at h
        · rename_i index hhere
          cases h
          exact .inr (.inl ⟨name, index, himpls, hhere, rfl⟩)
        · cases h
      · rename_i index child rest himpls
        exact .inr (.inr ⟨child, rest, index, rfl, himpls, h⟩)
      · cases h

theorem dispatches_leaf {path : PathTy} {index : Nat}
    (h : implementations unchecked mask path k op inst.container = [.leaf index]) :
    ∃ j : Fin inst.declaration.size, index = j ∧ Dispatches op k inst mask path ⟨inst, j⟩ := by
  have hself : Impl.leaf index ∈ implementations unchecked mask path k op inst.container := by
    rw [h]
    exact List.mem_cons_self
  cases path with
  | here namespaceKey =>
      rw [implementations_here_eq] at hself
      rcases List.mem_map.1 hself with ⟨index', hindex, heq⟩
      cases heq
      rcases leaf_selected hindex with ⟨j, rfl, _, _⟩
      exact ⟨j, rfl, .leaf h⟩
  | there child rest =>
      rw [implementations_there_eq] at hself
      rcases List.mem_append.1 hself with hnamespace | hchild
      · rcases mem_namespaceImpls hnamespace with ⟨_, heq, _⟩
        cases heq
      · rcases List.mem_map.1 hchild with ⟨_, _, heq⟩
        cases heq

/-- Every query with an answer is executed so. -/
theorem exists_dispatches {path : PathTy} {address : Address}
    (h : dispatch unchecked mask path k op inst.container = some address) :
    ∃ target, Dispatches op k inst mask path target ∧ target.address = address := by
  induction path generalizing inst mask with
  | here namespaceKey =>
      rcases dispatch_cases h with ⟨index, himpls, rfl⟩ | ⟨name, _, himpls, _⟩ | ⟨_, _, _, hpath, _⟩
      · rcases dispatches_leaf himpls with ⟨j, rfl, hdispatches⟩
        exact ⟨_, hdispatches, by rw [Target.address, inst.container_id]⟩
      · have hself : Impl.segment name ∈ [Impl.segment name] := List.mem_cons_self
        rw [← himpls, implementations_here_eq] at hself
        rcases List.mem_map.1 hself with ⟨_, _, heq⟩
        cases heq
      · cases hpath
  | there child rest ih =>
      rcases dispatch_cases h with ⟨index, himpls, rfl⟩ | ⟨name, index, himpls, hhere, rfl⟩ |
        ⟨_, _, index, hpath, himpls, hchild⟩
      · rcases dispatches_leaf himpls with ⟨j, rfl, hdispatches⟩
        exact ⟨_, hdispatches, by rw [Target.address, inst.container_id]⟩
      · rcases dispatches_leaf hhere with ⟨j, rfl, hdispatches⟩
        exact ⟨_, .segment himpls hdispatches, by rw [Target.address, inst.container_id]⟩
      · cases hpath
        -- The impl for a child comes from the tuple of children, so its position is in range.
        have hself : Impl.child index ∈ [Impl.child index] := List.mem_cons_self
        rw [← himpls, implementations_there_eq] at hself
        rcases List.mem_append.1 hself with hnamespace | hmem
        · rcases mem_namespaceImpls hnamespace with ⟨_, heq, _⟩
          cases heq
        · rcases List.mem_map.1 hmem with ⟨index', hindex, heq⟩
          cases heq
          rcases child_selected hindex with ⟨p, rfl, _, _⟩
          rw [inst.dispatchChild_position] at hchild
          rcases ih hchild with ⟨target, hdispatches, haddress⟩
          exact ⟨target, .child himpls hdispatches, haddress⟩

/-- Where one descriptor dispatches and another one has an implementation, they lead to the same
registration. -/
theorem Dispatches.holds {mask mask₂ : Mask} {path : PathTy} {target : Target unchecked}
    (h : Dispatches op k inst mask path target) (haccepted : Accepted inst.container)
    (himpls : implementations unchecked mask₂ path k op inst.container ≠ []) :
    ∃ place mask', At inst place target.node ∧ Carries mask₂ place mask' ∧
      scopeHolds unchecked op (target.node.container, mask')
        (target.node.declaration.entry target.index) = true := by
  rcases h.leads with ⟨_, hleads⟩
  rcases leads_of_implementations himpls with ⟨place, target', mask', hleads', hcarries, hholds⟩
  cases hleads.unique hleads' haccepted
  exact ⟨place, mask', hleads'.at, hcarries, hholds⟩

end Selects

end Scoped
end Systasis
