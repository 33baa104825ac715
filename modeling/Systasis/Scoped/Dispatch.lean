import Systasis.Scoped.Tree

/-!
# Dispatch — a typed path reaches the slot the accessors reach

Each generated implementation looks at one segment of a path.  The checks on names make their heads
disjoint, so selection is a function, and by induction over the tree that function is the walk
through the accessors followed by the resolver method.
-/

namespace Systasis
namespace Scoped

variable {T : Type}

/-! ## What expansion guarantees -/

/-- The names of one accepted container. -/
structure Sound (container : Container T) : Prop where
  childNames : (container.children.map Child.name).Nodup
  noDefault : ∀ child ∈ container.children, child.name ≠ "default"
  apart : ∀ child ∈ container.children, ∀ r ∈ container.registrations, r.ns ≠ some child.name
  named : ∀ r ∈ container.registrations, r.ns ≠ some "default"
  distinct : container.registrations.Pairwise fun r r' => ¬(r.ns = r'.ns ∧ r.interface = r'.interface)

theorem identity_congr {r r' : Registration T} (hns : r.ns = r'.ns)
    (hinterface : r.interface = r'.interface) : r.identity = r'.identity := by
  simp [Registration.identity, hns, hinterface]

theorem mem_of_mem_winners {registrations : List (Registration T)} {r : Registration T}
    (hmem : r ∈ winners registrations) : r ∈ registrations := by
  induction registrations with
  | nil => cases hmem
  | cons first rest ih =>
      simp only [winners] at hmem
      split at hmem
      · exact List.mem_cons_of_mem _ (ih hmem)
      · rcases List.mem_cons.1 hmem with rfl | hrest
        · exact List.mem_cons_self
        · exact List.mem_cons_of_mem _ (ih hrest)

/-- Only one declaration of each identity wins. -/
theorem winners_pairwise (registrations : List (Registration T)) :
    (winners registrations).Pairwise fun r r' => r.identity ≠ r'.identity := by
  induction registrations with
  | nil => exact .nil
  | cons first rest ih =>
      simp only [winners]
      split
      · exact ih
      · rename_i hlast
        refine List.pairwise_cons.2 ⟨?_, ih⟩
        intro later hlater heq
        refine hlast (List.any_eq_true.2 ⟨later, mem_of_mem_winners hlater, ?_⟩)
        simp [heq]

theorem named_ne_default (ns : Option String) : named ns ≠ some "default" := by
  cases ns with
  | none => simp [named]
  | some name =>
      simp only [named]
      split
      · rename_i hname
        simpa using hname
      · simp

theorem expand_sound {id : Nat} {declared : List (Registration T)} {children : List (Child T)}
    {container : Container T} (hexpand : expand id declared children = .ok container) :
    Sound container ∧ container.children = children := by
  simp only [expand] at hexpand
  split at hexpand
  · cases hexpand
  · rename_i hdefault
    split at hexpand
    · cases hexpand
    · rename_i hnodup
      split at hexpand
      · cases hexpand
      · rename_i hconflict
        cases hexpand
        refine ⟨⟨by simpa [Container.children] using hnodup, ?_, ?_, ?_, ?_⟩, rfl⟩
        · intro child hchild heq
          exact hdefault (List.any_eq_true.2 ⟨child, hchild, by simp [heq]⟩)
        · intro child hchild r hr heq
          refine hconflict (List.any_eq_true.2 ⟨child, hchild, ?_⟩)
          exact List.any_eq_true.2 ⟨r, hr, by simp [heq]⟩
        · intro r hr heq
          rcases List.mem_map.1 (mem_of_mem_winners hr) with ⟨raw, _, rfl⟩
          exact named_ne_default raw.ns heq
        · refine (winners_pairwise _).imp ?_
          rintro r r' hne ⟨hns, hinterface⟩
          exact hne (identity_congr hns hinterface)

/-- What holds of a container with sound names whenever it holds of its children, holds of every
accepted tree. -/
@[elab_as_elim]
theorem Accepted.induct {motive : Container T → Prop}
    (step : ∀ container, Sound container → (∀ child ∈ container.children, motive child.container) →
      motive container) {container : Container T} (h : Accepted container) : motive container := by
  induction h with
  | mk hexpand _ ih =>
      rcases expand_sound hexpand with ⟨hsound, hchildren⟩
      exact step _ hsound (hchildren ▸ ih)

theorem Accepted.inv {container : Container T} (h : Accepted container) :
    Sound container ∧ ∀ child ∈ container.children, Accepted child.container := by
  cases h with
  | mk hexpand hchildren =>
      rcases expand_sound hexpand with ⟨hsound, heq⟩
      exact ⟨hsound, heq ▸ hchildren⟩

/-! ## Looking a registration up -/

/-- The registration a resolver method belongs to. -/
def lookup (holds : Registration T → Bool) (registrations : List (Registration T))
    (ns : Option String) (interface : String) : Option Nat :=
  (registrations.zipIdx.find? fun entry =>
    entry.1.ns == ns && entry.1.interface == interface && holds entry.1).map Prod.snd

theorem lookup_spec {holds : Registration T → Bool} {registrations : List (Registration T)}
    {ns : Option String} {interface : String} {index : Nat}
    (hlookup : lookup holds registrations ns interface = some index) :
    ∃ r, registrations[index]? = some r ∧ r.ns = ns ∧ r.interface = interface ∧ holds r := by
  rcases Option.map_eq_some_iff.1 hlookup with ⟨⟨r, position⟩, hfind, rfl⟩
  have hentry := List.find?_some hfind
  simp only [Bool.and_eq_true, beq_iff_eq] at hentry
  have hmem := List.mem_zipIdx_iff_getElem?.1 (List.mem_of_find?_eq_some hfind)
  exact ⟨r, hmem, hentry.1.1, hentry.1.2, hentry.2⟩

/-- No registration of a sound container is in a namespace named like a child. -/
theorem lookup_child {holds : Registration T → Bool} {container : Container T}
    (hsound : Sound container) {child : Child T} (hmem : child ∈ container.children)
    (interface : String) :
    lookup holds container.registrations (named (some child.name)) interface = none := by
  by_contra hsome
  rcases Option.ne_none_iff_exists'.1 hsome with ⟨index, hindex⟩
  rcases lookup_spec hindex with ⟨r, hr, hns, _⟩
  refine hsound.apart child hmem r (List.mem_of_getElem? hr) ?_
  simpa [named, hsound.noDefault child hmem] using hns

/-- Where at most one element fits, filtering and finding agree. -/
theorem filter_eq_find?_toList {α : Type} {p : α → Bool} (l : List α)
    (hone : l.Pairwise fun x y => ¬(p x = true ∧ p y = true)) :
    l.filter p = (l.find? p).toList := by
  induction l with
  | nil => rfl
  | cons x l ih =>
      rcases List.pairwise_cons.1 hone with ⟨hx, hl⟩
      by_cases hpx : p x = true
      · have hrest : l.filter p = [] := by
          refine List.filter_eq_nil_iff.2 ?_
          intro y hy hpy
          exact hx y hy ⟨hpx, hpy⟩
        simp [hpx, hrest]
      · simp [hpx, ih hl]

theorem leaves_eq {holds : Registration T → Bool} {registrations : List (Registration T)}
    (hdistinct : registrations.Pairwise fun r r' => ¬(r.ns = r'.ns ∧ r.interface = r'.interface))
    (ns : Option String) (interface : String) :
    leaves holds registrations (ns.map key) (key interface) =
      (lookup holds registrations ns interface).toList := by
  have hkeys : (fun entry : Registration T × Nat => entry.1.path == .here (ns.map key) &&
      key entry.1.interface == key interface && holds entry.1) =
      fun entry => entry.1.ns == ns && entry.1.interface == interface && holds entry.1 := by
    funext entry
    have hpath : (entry.1.path == PathTy.here (ns.map key)) = (entry.1.ns == ns) := by
      simp [Registration.path, (Option.map_injective key_injective).eq_iff,
        Bool.beq_eq_decide_eq]
    have hkey : (key entry.1.interface == key interface) = (entry.1.interface == interface) := by
      simp [Bool.beq_eq_decide_eq]
    rw [hpath, hkey]
  have hone : registrations.zipIdx.Pairwise fun entry entry' =>
      ¬((entry.1.ns == ns && entry.1.interface == interface && holds entry.1) = true ∧
        (entry'.1.ns == ns && entry'.1.interface == interface && holds entry'.1) = true) := by
    have hzip : registrations.zipIdx.Pairwise fun entry entry' =>
        ¬(entry.1.ns = entry'.1.ns ∧ entry.1.interface = entry'.1.interface) := by
      have hmap := List.pairwise_map (f := Prod.fst) (l := registrations.zipIdx)
        (R := fun r r' : Registration T => ¬(r.ns = r'.ns ∧ r.interface = r'.interface))
      exact hmap.1 (by simpa using hdistinct)
    refine hzip.imp ?_
    rintro entry entry' hne ⟨hfirst, hsecond⟩
    simp only [Bool.and_eq_true, beq_iff_eq] at hfirst hsecond
    exact hne ⟨hfirst.1.1.trans hsecond.1.1.symm, hfirst.1.2.trans hsecond.1.2.symm⟩
  rw [leaves, hkeys, filter_eq_find?_toList _ hone, lookup]
  cases registrations.zipIdx.find? _ <;> rfl

theorem hereOf_eq (name : String) : hereOf name = (named (some name)).map key := by
  unfold hereOf named
  by_cases hname : name = "default"
  · simp [hname]
  · simp [hname]

/-! ## Selecting an implementation -/

theorem pathOf_eq_here {segments : List String} : pathOf segments = .here none ↔ segments = [] := by
  cases segments <;> simp [pathOf]

theorem mem_namespaceNames_of_lookup {holds : Registration T → Bool}
    {registrations : List (Registration T)} {name interface : String} {index : Nat}
    (hlookup : lookup holds registrations (named (some name)) interface = some index) :
    name ∈ namespaceNames registrations := by
  rcases lookup_spec hlookup with ⟨r, hr, hns, _⟩
  refine List.mem_dedup.2 (List.mem_map.2 ⟨r, List.mem_of_getElem? hr, ?_⟩)
  rw [Registration.namespaceName, hns]
  by_cases hname : name = "default"
  · simp [named, hname]
  · simp [named, hname]

/-- The namespaces answer a last segment that names one of them. -/
theorem namespaceImpls_eq {holds : Registration T → Bool} {registrations : List (Registration T)}
    (hdistinct : registrations.Pairwise fun r r' => ¬(r.ns = r'.ns ∧ r.interface = r'.interface))
    (segment : String) (rest : List String) (interface : String) :
    namespaceImpls holds registrations (key segment) (pathOf rest) (key interface) =
      if rest = [] ∧ (lookup holds registrations (named (some segment)) interface).isSome then
        [.segment segment]
      else
        [] := by
  -- The impl of a namespace asks for its own name, the end of the path, and a leaf there.
  have hpredicate : ∀ name, (key name == key segment && pathOf rest == .here none &&
      !(leaves holds registrations (hereOf name) (key interface)).isEmpty) =
      decide (name = segment ∧ rest = [] ∧
        (lookup holds registrations (named (some segment)) interface).isSome) := by
    intro name
    by_cases hname : name = segment
    · subst hname
      rw [hereOf_eq, leaves_eq hdistinct]
      cases lookup holds registrations (named (some name)) interface <;>
        simp [pathOf_eq_here, Bool.beq_eq_decide_eq]
    · simp [hname]
  simp only [namespaceImpls, hpredicate]
  split
  · rename_i hfits
    rcases Option.isSome_iff_exists.1 hfits.2 with ⟨index, hindex⟩
    have hmem := mem_namespaceNames_of_lookup hindex
    have hnodup : (namespaceNames registrations).Nodup := List.nodup_dedup _
    simp only [hfits, and_true, and_self]
    rw [List.filter_eq, List.count_eq_one_of_mem hnodup hmem]
    rfl
  · rename_i hfits
    have hnone : ∀ name, decide (name = segment ∧ rest = [] ∧
        (lookup holds registrations (named (some segment)) interface).isSome) = false := by
      intro name
      simp only [decide_eq_false_iff_not]
      rintro ⟨_, hsome⟩
      exact hfits hsome
    simp [hnone]

/-- The forwarding to children, for any trait: `inner` says that the child's type implements it. -/
@[grind =]
def tupleOf (inner : Child T → Bool) (child : Key) (index : Nat) : List (Child T) → List Nat
  | [] => []
  | first :: children =>
      if key first.name == child && inner first then
        index :: tupleOf inner child (index + 1) children
      else
        tupleOf inner child (index + 1) children

theorem tupleOf_absent {inner : Child T → Bool} {segment : String} {children : List (Child T)}
    (habsent : ∀ child ∈ children, child.name ≠ segment) (index : Nat) :
    tupleOf inner (key segment) index children = [] := by
  induction children generalizing index with
  | nil => rfl
  | cons first children ih =>
      have hfirst : first.name ≠ segment := habsent first List.mem_cons_self
      have hrest := ih (fun child hchild => habsent child (List.mem_cons_of_mem _ hchild))
      simp [tupleOf, hfirst, hrest]

theorem tupleOf_found {inner : Child T → Bool} {front back : List (Child T)} {child : Child T}
    (hnodup : ((front ++ child :: back).map Child.name).Nodup) (index : Nat) :
    tupleOf inner (key child.name) index (front ++ child :: back) =
      if inner child then [index + front.length] else [] := by
  induction front generalizing index with
  | nil =>
      simp only [List.nil_append, List.map_cons, List.nodup_cons] at hnodup
      have habsent : ∀ other ∈ back, other.name ≠ child.name := by
        intro other hother heq
        exact hnodup.1 (List.mem_map.2 ⟨other, hother, heq⟩)
      simp [tupleOf, tupleOf_absent habsent]
  | cons first front ih =>
      simp only [List.cons_append, List.map_cons, List.nodup_cons] at hnodup
      have hfirst : first.name ≠ child.name := by
        intro heq
        exact hnodup.1 (List.mem_map.2 ⟨child, by simp, heq.symm⟩)
      simp [tupleOf, hfirst, ih hnodup.2, Nat.add_assoc, Nat.add_comm 1]

/-- All implementations whose head matches the segment and whose where-clauses hold. -/
def selected (holds : Registration T → Bool) (inner : Child T → Bool) (container : Container T)
    (segment : String) (rest : List String) (interface : String) : List Impl :=
  namespaceImpls holds container.registrations (key segment) (pathOf rest) (key interface) ++
    (tupleOf inner (key segment) 0 container.children).map .child

/-- A segment that names a child is answered by the forwarding to it alone. -/
theorem selected_child {holds : Registration T → Bool} {inner : Child T → Bool}
    {container : Container T} (hsound : Sound container) {front back : List (Child T)}
    {child : Child T} (hchildren : container.children = front ++ child :: back) {segment : String}
    (hname : child.name = segment) (rest : List String) (interface : String) :
    selected holds inner container segment rest interface =
      if inner child then [.child front.length] else [] := by
  subst hname
  have hmem : child ∈ container.children := by simp [hchildren]
  have hnames := hsound.childNames
  rw [hchildren] at hnames
  rw [selected, namespaceImpls_eq hsound.distinct, lookup_child hsound hmem, hchildren,
    tupleOf_found hnames]
  cases inner child <;> simp

/-- Any other segment is answered by a namespace, if it is the last one. -/
theorem selected_segment {holds : Registration T → Bool} {inner : Child T → Bool}
    {container : Container T} (hsound : Sound container) {segment : String}
    (habsent : ∀ child ∈ container.children, child.name ≠ segment)
    (rest : List String) (interface : String) :
    selected holds inner container segment rest interface =
      if rest = [] ∧ (lookup holds container.registrations (named (some segment)) interface).isSome
      then [.segment segment] else [] := by
  rw [selected, namespaceImpls_eq hsound.distinct, tupleOf_absent habsent]
  simp

/-! ## Reading a path -/

/-- Reads a path one segment at a time: through the accessor while the segment names a child, and
the last one otherwise as the namespace asked of the scope reached. -/
def readPath {β : Type} (answer : Option String → Scope T → Option β) :
    List String → Scope T → Option β
  | [], scope => answer none scope
  | segment :: rest, scope =>
      match accessor scope segment with
      | some inner => readPath answer rest inner
      | none => if rest = [] then answer (some segment) scope else none

/-- The value type of the registration a scope has under the names. -/
def valueType (interface : String) (ns : Option String) (scope : Scope T) : Option T :=
  (lookup (fun _ => true) scope.1.registrations (named ns) interface).bind fun index =>
    (scope.1.registrations[index]?).map Registration.ty

/-- Either no implementation applies and nothing is found, or exactly one does and it finds what
the walk finds. -/
def Agrees {β : Type} (impls : List Impl) (found walked : Option β) : Prop :=
  (impls = [] ∧ found = none ∧ walked = none) ∨
    ∃ impl answer, impls = [impl] ∧ found = some answer ∧ walked = some answer

theorem lookup_isSome {holds : Registration T → Bool} {registrations : List (Registration T)}
    {r : Registration T} (hmem : r ∈ registrations) (hholds : holds r) :
    (lookup holds registrations r.ns r.interface).isSome := by
  rcases List.getElem?_of_mem hmem with ⟨index, hindex⟩
  rw [lookup, Option.isSome_map, List.find?_isSome]
  exact ⟨(r, index), List.mem_zipIdx_iff_getElem?.2 hindex, by simp [hholds]⟩

theorem accessor_some {scope : Scope T} {segment : String} {inner : Scope T}
    (haccessor : accessor scope segment = some inner) :
    ∃ front restrictions back,
      scope.1.children = front ++ .mk segment restrictions inner.1 :: back ∧
        inner.2 = .union restrictions (scope.2.forChild (key segment)) := by
  rcases Option.map_eq_some_iff.1 haccessor with ⟨⟨name, restrictions, container⟩, hfind, heq⟩
  have hname := List.find?_some hfind
  simp only [Child.name, beq_iff_eq] at hname
  subst hname
  rcases List.append_of_mem (List.mem_of_find?_eq_some hfind) with ⟨front, back, hchildren⟩
  subst heq
  exact ⟨front, restrictions, back, hchildren, rfl⟩

theorem accessor_none {scope : Scope T} {segment : String}
    (haccessor : accessor scope segment = none) :
    ∀ child ∈ scope.1.children, child.name ≠ segment := by
  intro child hchild heq
  have hnone := List.find?_eq_none.1 (Option.map_eq_none_iff.1 haccessor) child hchild
  simp [heq] at hnone

/-! ## Operations -/

section Resolve

variable {unchecked : Bool}

/-- The where-clauses of the resolvers of a scope. -/
def scopeHolds (unchecked : Bool) (op : Operation) (scope : Scope T) : Registration T → Bool :=
  permitted unchecked
    (fun call => !(tupleImplementations unchecked scope.2 call.child call.path call.key
      call.operation 0 scope.1.children).isEmpty) scope.2 op

/-- The child, under what the scope restricts of it, implements the rest of the path. -/
def childHolds (unchecked : Bool) (mask : Mask) (rest : PathTy) (k : Key) (op : Operation) :
    Child T → Bool
  | .mk name restrictions container =>
      !(implementations unchecked (.union restrictions (mask.forChild (key name))) rest k op
        container).isEmpty

theorem tupleImplementations_eq (mask : Mask) (child : Key) (rest : PathTy) (k : Key)
    (op : Operation) (index : Nat) (children : List (Child T)) :
    tupleImplementations unchecked mask child rest k op index children =
      tupleOf (childHolds unchecked mask rest k op) child index children := by
  induction children generalizing index with
  | nil => simp [tupleImplementations, tupleOf]
  | cons first children ih =>
      cases first with
      | mk name restrictions container =>
          simp only [tupleImplementations, tupleOf, ih, childHolds, Child.name]
          rfl

theorem implementations_here (unchecked : Bool) (scope : Scope T) (hsound : Sound scope.1) (ns : Option String)
    (interface : String) (op : Operation) :
    implementations unchecked scope.2 (.here (ns.map key)) (key interface) op scope.1 =
      (lookup (scopeHolds unchecked op scope) scope.1.registrations ns interface).toList.map
        .leaf := by
  rcases scope with ⟨⟨id, registrations, children⟩, mask⟩
  rw [← leaves_eq hsound.distinct, implementations]
  rfl

theorem implementations_there (unchecked : Bool) (scope : Scope T) (segment : String)
    (rest : List String) (interface : String) (op : Operation) :
    implementations unchecked scope.2 (pathOf (segment :: rest)) (key interface) op scope.1 =
      selected (scopeHolds unchecked op scope)
        (childHolds unchecked scope.2 (pathOf rest) (key interface) op) scope.1 segment rest
        interface := by
  rcases scope with ⟨⟨id, registrations, children⟩, mask⟩
  rw [selected, ← tupleImplementations_eq]
  simp only [pathOf, List.foldr_cons, implementations]
  rfl

theorem dispatchChild_eq (mask : Mask) (rest : PathTy) (k : Key) (op : Operation) (name : String)
    (restrictions : Mask) (container : Container T) (front back : List (Child T)) :
    dispatchChild unchecked mask rest k op front.length
        (front ++ .mk name restrictions container :: back) =
      dispatch unchecked (.union restrictions (mask.forChild (key name))) rest k op container := by
  induction front with
  | nil => simp [dispatchChild]
  | cons first front ih => simpa [dispatchChild] using ih

theorem method_eq (ns : Option String) (interface : String) (op : Operation) (scope : Scope T) :
    method unchecked ns interface op scope =
      (lookup (scopeHolds unchecked op scope) scope.1.registrations (named ns) interface).map
        fun index => ⟨scope.1.id, index⟩ := by
  simp only [method, lookup, Option.map_map]
  rfl

section Selected

variable {mask : Mask} {path : PathTy} {k : Key} {op : Operation} {container : Container T}

theorem dispatch_eq : dispatch unchecked mask path k op container =
    match implementations unchecked mask path k op container, path with
    | [.leaf index], _ => some ⟨container.id, index⟩
    | [.segment name], _ =>
        match implementations unchecked mask (.here (hereOf name)) k op container with
        | [.leaf index] => some ⟨container.id, index⟩
        | _ => none
    | [.child index], .there _ rest =>
        dispatchChild unchecked mask rest k op index container.children
    | _, _ => none := by
  cases container
  rfl

theorem dispatch_of_none
    (himpls : implementations unchecked mask path k op container = []) :
    dispatch unchecked mask path k op container = none := by
  rw [dispatch_eq, himpls]

theorem dispatch_of_leaf {index : Nat}
    (himpls : implementations unchecked mask path k op container = [.leaf index]) :
    dispatch unchecked mask path k op container = some ⟨container.id, index⟩ := by
  rw [dispatch_eq, himpls]

theorem dispatch_of_segment {name : String} {index : Nat}
    (himpls : implementations unchecked mask path k op container = [.segment name])
    (hhere : implementations unchecked mask (.here (hereOf name)) k op container = [.leaf index]) :
    dispatch unchecked mask path k op container = some ⟨container.id, index⟩ := by
  rw [dispatch_eq, himpls]
  simp only [hhere]

theorem dispatch_of_child {child : Key} {index : Nat}
    (himpls : implementations unchecked mask (.there child path) k op container =
      [.child index]) :
    dispatch unchecked mask (.there child path) k op container =
      dispatchChild unchecked mask path k op index container.children := by
  rw [dispatch_eq, himpls]

end Selected

/-- Selection follows the walk, at every container of an accepted tree. -/
theorem dispatch_agrees (interface : String) (op : Operation) {container : Container T}
    (h : Accepted container) : ∀ (segments : List String) (mask : Mask),
    Agrees
      (implementations unchecked mask (pathOf segments) (key interface) op container)
      (dispatch unchecked mask (pathOf segments) (key interface) op container)
      (readPath (fun ns => method unchecked ns interface op) segments (container, mask)) := by
  refine Accepted.induct ?_ h
  intro container hsound ih segments mask
  cases segments with
  | nil =>
      have himpls := implementations_here unchecked (container, mask) hsound none interface op
      simp only [readPath, method_eq, named]
      cases hlookup : lookup (scopeHolds unchecked op (container, mask)) container.registrations
        none interface with
      | none =>
          rw [hlookup] at himpls
          exact .inl ⟨himpls, dispatch_of_none himpls, rfl⟩
      | some index =>
          rw [hlookup] at himpls
          exact .inr ⟨.leaf index, ⟨container.id, index⟩, himpls, dispatch_of_leaf himpls, rfl⟩
  | cons segment rest =>
      have himpls := implementations_there unchecked (container, mask) segment rest interface op
      cases haccessor : accessor (container, mask) segment with
      | some inner =>
          -- The segment names a child, so only the forwarding to it can apply.
          rcases accessor_some haccessor with ⟨front, restrictions, back, hchildren, hmask⟩
          have hmem : Child.mk segment restrictions inner.1 ∈ container.children := by
            simp [hchildren]
          replace himpls := himpls.trans (selected_child hsound hchildren rfl rest interface)
          simp only [readPath, haccessor]
          rcases ih _ hmem rest inner.2 with ⟨hnone, _, hwalk⟩ | ⟨impl, answer, hone, hfound, hwalk⟩
          · have hholds : childHolds unchecked mask (pathOf rest) (key interface) op
                (.mk segment restrictions inner.1) = false := by
              rw [hmask] at hnone
              simpa [childHolds, Child.container] using hnone
            rw [hholds] at himpls
            exact .inl ⟨himpls, dispatch_of_none himpls, hwalk⟩
          · have hholds : childHolds unchecked mask (pathOf rest) (key interface) op
                (.mk segment restrictions inner.1) = true := by
              rw [hmask] at hone
              simp only [Child.container] at hone
              simp [childHolds, hone]
            rw [hholds] at himpls
            refine .inr ⟨.child front.length, answer, himpls, ?_, hwalk⟩
            rw [hmask] at hfound
            calc
              _ = dispatchChild unchecked mask (pathOf rest) (key interface) op front.length
                    container.children := dispatch_of_child himpls
              _ = _ := by rw [hchildren, dispatchChild_eq]; exact hfound
      | none =>
          -- No child has the name: the segment can only be a namespace, and the last segment.
          replace himpls := himpls.trans
            (selected_segment hsound (accessor_none haccessor) rest interface)
          simp only [readPath, haccessor, method_eq]
          by_cases hlast : rest = []
          · subst hlast
            cases hlookup : lookup (scopeHolds unchecked op (container, mask))
              container.registrations (named (some segment)) interface with
            | none =>
                simp only [hlookup, Option.isSome_none, Bool.false_eq_true, and_false,
                  if_false] at himpls
                exact .inl ⟨himpls, dispatch_of_none himpls, by simp⟩
            | some index =>
                simp only [hlookup, Option.isSome_some, and_true, if_true] at himpls
                have hhere := implementations_here unchecked (container, mask) hsound
                  (named (some segment)) interface op
                rw [← hereOf_eq, hlookup] at hhere
                exact .inr ⟨.segment segment, ⟨container.id, index⟩, himpls,
                  dispatch_of_segment himpls hhere, by simp⟩
          · simp only [hlast, false_and, if_false] at himpls
            exact .inl ⟨himpls, dispatch_of_none himpls, by simp [hlast]⟩

end Resolve

/-! ## Types -/

section Registered

/-- The child's type implements the rest of the path. -/
def childRegisters (rest : PathTy) (k : Key) (child : Child T) : Bool :=
  !(registeredImpls rest k child.container).isEmpty

theorem tupleRegistered_eq (child : Key) (rest : PathTy) (k : Key) (index : Nat)
    (children : List (Child T)) :
    tupleRegistered child rest k index children =
      tupleOf (childRegisters rest k) child index children := by
  induction children generalizing index with
  | nil => simp [tupleRegistered, tupleOf]
  | cons first children ih =>
      cases first with
      | mk name restrictions container =>
          simp only [tupleRegistered, tupleOf, ih, childRegisters, Child.name, Child.container]
          rfl

theorem registeredImpls_here {container : Container T} (hsound : Sound container)
    (ns : Option String) (interface : String) :
    registeredImpls (.here (ns.map key)) (key interface) container =
      (lookup (fun _ => true) container.registrations ns interface).toList.map .leaf := by
  rcases container with ⟨id, registrations, children⟩
  rw [← leaves_eq hsound.distinct, registeredImpls]
  rfl

theorem registeredImpls_there (container : Container T) (segment : String) (rest : List String)
    (interface : String) :
    registeredImpls (pathOf (segment :: rest)) (key interface) container =
      selected (fun _ => true) (childRegisters (pathOf rest) (key interface)) container segment rest
        interface := by
  rcases container with ⟨id, registrations, children⟩
  rw [selected, ← tupleRegistered_eq]
  simp only [pathOf, List.foldr_cons, registeredImpls]
  rfl

theorem registeredChild_eq (rest : PathTy) (k : Key) (child : Child T)
    (front back : List (Child T)) :
    registeredChild rest k front.length (front ++ child :: back) =
      registered rest k child.container := by
  induction front with
  | nil => cases child; simp [registeredChild, Child.container]
  | cons first front ih => simpa [registeredChild] using ih

section Selected

variable {path : PathTy} {k : Key} {container : Container T}

theorem registered_eq : registered path k container =
    match registeredImpls path k container, path with
    | [.leaf index], _ => (container.registrations[index]?).map Registration.ty
    | [.segment name], _ =>
        match registeredImpls (.here (hereOf name)) k container with
        | [.leaf index] => (container.registrations[index]?).map Registration.ty
        | _ => none
    | [.child index], .there _ rest => registeredChild rest k index container.children
    | _, _ => none := by
  cases container
  rfl

theorem registered_of_none (himpls : registeredImpls path k container = []) :
    registered path k container = none := by
  rw [registered_eq, himpls]

theorem registered_of_leaf {index : Nat}
    (himpls : registeredImpls path k container = [.leaf index]) :
    registered path k container = (container.registrations[index]?).map Registration.ty := by
  rw [registered_eq, himpls]

theorem registered_of_segment {name : String} {index : Nat}
    (himpls : registeredImpls path k container = [.segment name])
    (hhere : registeredImpls (.here (hereOf name)) k container = [.leaf index]) :
    registered path k container = (container.registrations[index]?).map Registration.ty := by
  rw [registered_eq, himpls]
  simp only [hhere]

theorem registered_of_child {child : Key} {index : Nat}
    (himpls : registeredImpls (.there child path) k container = [.child index]) :
    registered (.there child path) k container =
      registeredChild path k index container.children := by
  rw [registered_eq, himpls]

end Selected

/-- The metadata follows the walk too. -/
theorem registered_agrees (interface : String) {container : Container T} (h : Accepted container) :
    ∀ (segments : List String) (mask : Mask),
    Agrees
      (registeredImpls (pathOf segments) (key interface) container)
      (registered (pathOf segments) (key interface) container)
      (readPath (valueType interface) segments (container, mask)) := by
  refine Accepted.induct ?_ h
  intro container hsound ih segments mask
  cases segments with
  | nil =>
      have himpls := registeredImpls_here hsound none interface
      simp only [readPath, valueType, named]
      cases hlookup : lookup (fun _ => true) container.registrations none interface with
      | none =>
          rw [hlookup] at himpls
          exact .inl ⟨himpls, registered_of_none himpls, rfl⟩
      | some index =>
          rw [hlookup] at himpls
          rcases lookup_spec hlookup with ⟨r, hr, _⟩
          refine .inr ⟨.leaf index, r.ty, himpls, ?_, by simp [hr]⟩
          exact (registered_of_leaf himpls).trans (by simp [hr])
  | cons segment rest =>
      have himpls := registeredImpls_there container segment rest interface
      cases haccessor : accessor (container, mask) segment with
      | some inner =>
          -- A child of that name shadows the namespaces: no namespace shares its name.
          rcases accessor_some haccessor with ⟨front, restrictions, back, hchildren, _⟩
          have hmem : Child.mk segment restrictions inner.1 ∈ container.children := by
            simp [hchildren]
          replace himpls := himpls.trans (selected_child hsound hchildren rfl rest interface)
          simp only [readPath, haccessor]
          rcases ih _ hmem rest inner.2 with ⟨hnone, _, hwalk⟩ | ⟨impl, answer, hone, hfound, hwalk⟩
          · simp only [childRegisters, hnone] at himpls
            exact .inl ⟨himpls, registered_of_none himpls, hwalk⟩
          · simp only [childRegisters, hone] at himpls
            refine .inr ⟨.child front.length, answer, himpls, ?_, hwalk⟩
            calc
              _ = registeredChild (pathOf rest) (key interface) front.length container.children :=
                registered_of_child himpls
              _ = _ := by rw [hchildren, registeredChild_eq]; exact hfound
      | none =>
          -- No child has that name, so the segment can only name a namespace, and only at the end.
          replace himpls := himpls.trans
            (selected_segment hsound (accessor_none haccessor) rest interface)
          simp only [readPath, haccessor, valueType]
          by_cases hlast : rest = []
          · subst hlast
            cases hlookup : lookup (fun _ => true) container.registrations (named (some segment))
              interface with
            | none =>
                simp only [hlookup, Option.isSome_none, Bool.false_eq_true, and_false,
                  if_false] at himpls
                exact .inl ⟨himpls, registered_of_none himpls, by simp⟩
            | some index =>
                simp only [hlookup, Option.isSome_some, and_true, if_true] at himpls
                have hhere := registeredImpls_here hsound (named (some segment)) interface
                rw [← hereOf_eq, hlookup] at hhere
                rcases lookup_spec hlookup with ⟨r, hr, _⟩
                refine .inr ⟨.segment segment, r.ty, himpls, ?_, by simp [hr]⟩
                exact (registered_of_segment himpls hhere).trans (by simp [hr])
          · simp only [hlast, false_and, if_false] at himpls
            exact .inl ⟨himpls, registered_of_none himpls, by simp [hlast]⟩

end Registered

end Scoped
end Systasis
