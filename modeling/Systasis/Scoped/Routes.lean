import Systasis.Scoped.Dispatch
import Systasis.Build.Generated

/-!
# Routes — every way to a slot

A typed path and a chain of accessors that spell the same registration reach the same slot, so what
one of them takes is gone for the other.
-/

namespace Systasis
namespace Scoped

open Wiring Build

variable {T : Type}

/-! ## Walks through accepted trees -/

theorem walk_cons (scope : Scope T) (name : String) (names : List String) :
    walk scope (name :: names) = (accessor scope name).bind fun inner => walk inner names := by
  simp only [walk, List.foldlM_cons]
  rfl

theorem Accepted.accessor {scope inner : Scope T} {name : String} (h : Accepted scope.1)
    (haccessor : accessor scope name = some inner) : Accepted inner.1 := by
  rcases accessor_some haccessor with ⟨front, restrictions, back, hchildren, _⟩
  exact h.inv.2 (.mk name restrictions inner.1) (by simp [hchildren])

theorem Accepted.stored {root : Container T} {scope : Scope T} {name : String} (h : Accepted root)
    (hstored : stored root name = some scope) : Accepted scope.1 := by
  rcases Option.map_eq_some_iff.1 hstored with ⟨⟨_, restrictions, inner⟩, hfind, rfl⟩
  exact h.inv.2 _ (List.mem_of_find?_eq_some hfind)

/-- What a scope answers under a name that one of its children has. -/
def Apart {β : Type} (answer : Option String → Scope T → Option β) : Prop :=
  ∀ (scope inner : Scope T) (name : String), Accepted scope.1 → accessor scope name = some inner →
    answer (some name) scope = none

theorem lookup_accessor {holds : Registration T → Bool} {scope inner : Scope T} {name : String}
    (h : Accepted scope.1) (haccessor : accessor scope name = some inner) (interface : String) :
    lookup holds scope.1.registrations (named (some name)) interface = none := by
  rcases accessor_some haccessor with ⟨front, restrictions, back, hchildren, _⟩
  have hmem : Child.mk name restrictions inner.1 ∈ scope.1.children := by simp [hchildren]
  exact lookup_child h.inv.1 hmem interface

theorem apart_method (unchecked : Bool) (interface : String) (op : Operation) :
    Apart (T := T) fun ns => method unchecked ns interface op := by
  intro scope inner name h haccessor
  simp only [method_eq, lookup_accessor h haccessor]
  rfl

theorem apart_valueType (interface : String) : Apart (T := T) (valueType interface) := by
  intro scope inner name h haccessor
  simp only [valueType, lookup_accessor h haccessor]
  rfl

section Read

variable {β : Type} {answer : Option String → Scope T → Option β}

theorem readPath_append {scope inner : Scope T} {names : List String}
    (hwalk : walk scope names = some inner) (rest : List String) :
    readPath answer (names ++ rest) scope = readPath answer rest inner := by
  induction names generalizing scope with
  | nil =>
      cases hwalk
      rfl
  | cons name names ih =>
      rw [walk_cons] at hwalk
      rcases Option.bind_eq_some_iff.1 hwalk with ⟨next, haccessor, hrest⟩
      simpa [readPath, haccessor] using ih hrest

/-- Reading a path is walking its names and asking the last scope, under the remaining segment. -/
theorem readPath_eq_some (hapart : Apart answer) {scope : Scope T} (h : Accepted scope.1)
    (segments : List String) (found : β) :
    readPath answer segments scope = some found ↔
      ∃ names ns inner, segments = names ++ ns.toList ∧ walk scope names = some inner ∧
        answer ns inner = some found := by
  induction segments generalizing scope with
  | nil =>
      refine ⟨fun hread => ⟨[], none, scope, rfl, rfl, hread⟩, ?_⟩
      rintro ⟨names, ns, inner, hsegments, hwalk, hanswer⟩
      rcases List.append_eq_nil_iff.1 hsegments.symm with ⟨rfl, hns⟩
      cases hwalk
      cases Option.toList_eq_nil_iff.1 hns
      exact hanswer
  | cons segment rest ih =>
      cases haccessor : accessor scope segment with
      | some next =>
          simp only [readPath, haccessor]
          rw [ih (h.accessor haccessor)]
          refine ⟨?_, ?_⟩
          · rintro ⟨names, ns, inner, rfl, hwalk, hanswer⟩
            refine ⟨segment :: names, ns, inner, rfl, ?_, hanswer⟩
            simpa [walk_cons, haccessor] using hwalk
          · rintro ⟨names, ns, inner, hsegments, hwalk, hanswer⟩
            cases names with
            | nil =>
                -- The segment would be a namespace named like the child it leads to.
                cases hwalk
                cases ns with
                | none => simp at hsegments
                | some name =>
                    simp only [Option.toList_some, List.nil_append, List.cons.injEq] at hsegments
                    rcases hsegments with ⟨rfl, rfl⟩
                    rw [hapart _ _ _ h haccessor] at hanswer
                    cases hanswer
            | cons name names =>
                simp only [List.cons_append, List.cons.injEq] at hsegments
                rcases hsegments with ⟨rfl, rfl⟩
                refine ⟨names, ns, inner, rfl, ?_, hanswer⟩
                simpa [walk_cons, haccessor] using hwalk
      | none =>
          simp only [readPath, haccessor]
          refine ⟨?_, ?_⟩
          · intro hread
            by_cases hlast : rest = []
            · subst hlast
              exact ⟨[], some segment, scope, rfl, rfl, by simpa using hread⟩
            · simp [hlast] at hread
          · rintro ⟨names, ns, inner, hsegments, hwalk, hanswer⟩
            cases names with
            | nil =>
                cases hwalk
                cases ns with
                | none => simp at hsegments
                | some name =>
                    simp only [Option.toList_some, List.nil_append, List.cons.injEq] at hsegments
                    rcases hsegments with ⟨rfl, rfl⟩
                    simpa using hanswer
            | cons name names =>
                simp only [List.cons_append, List.cons.injEq] at hsegments
                rcases hsegments with ⟨rfl, _⟩
                simp [walk_cons, haccessor] at hwalk

/-- Reading a whole path of a query, the first segment of which names a child of the container. -/
def readFrom (answer : Option String → Scope T → Option β) (root : Container T)
    (segments : List String) : Option β :=
  match segments with
  | [] => none
  | first :: rest => (stored root first).bind (readPath answer rest)

theorem readFrom_append {root : Container T} {scope : Scope T} {names : List String}
    (hreach : reach root names = some scope) (rest : List String) :
    readFrom answer root (names ++ rest) = readPath answer rest scope := by
  cases names with
  | nil => simp [reach] at hreach
  | cons first names =>
      rcases Option.bind_eq_some_iff.1 hreach with ⟨next, hstored, hwalk⟩
      simp [readFrom, hstored, readPath_append hwalk]

theorem readFrom_eq_some (hapart : Apart answer) {root : Container T} (h : Accepted root)
    (segments : List String) (found : β) :
    readFrom answer root segments = some found ↔
      ∃ names ns scope, segments = names ++ ns.toList ∧ reach root names = some scope ∧
        answer ns scope = some found := by
  refine ⟨?_, ?_⟩
  · intro hread
    cases segments with
    | nil => simp [readFrom] at hread
    | cons first rest =>
        rcases Option.bind_eq_some_iff.1 hread with ⟨next, hstored, hrest⟩
        rcases (readPath_eq_some hapart (h.stored hstored) rest found).1 hrest with
          ⟨names, ns, inner, rfl, hwalk, hanswer⟩
        exact ⟨first :: names, ns, inner, rfl, by simp [reach, hstored, hwalk], hanswer⟩
  · rintro ⟨names, ns, scope, rfl, hreach, hanswer⟩
    cases names with
    | nil => simp [reach] at hreach
    | cons first names =>
        rcases Option.bind_eq_some_iff.1 hreach with ⟨next, hstored, hwalk⟩
        have hread := (readPath_eq_some hapart (h.stored hstored) (names ++ ns.toList) found).2
          ⟨names, ns, scope, rfl, hwalk, hanswer⟩
        simpa [readFrom, hstored] using hread

end Read

/-! ## Queries as walks -/

theorem query_eq (unchecked : Bool) {root : Container T} (h : Accepted root)
    (segments : List String) (interface : String) (op : Operation) :
    query unchecked root segments interface op =
      readFrom (fun ns => method unchecked ns interface op) root segments := by
  cases segments with
  | nil => rfl
  | cons first rest =>
      cases hfind : root.children.find? fun child => child.name == first with
      | none => simp [query, target, readFrom, stored, hfind]
      | some child =>
          rcases child with ⟨name, restrictions, inner⟩
          have hinner : Accepted inner := h.inv.2 _ (List.mem_of_find?_eq_some hfind)
          simp only [query, target, readFrom, stored, hfind, Option.map_some, Option.bind_some]
          rcases dispatch_agrees interface op hinner rest restrictions with
            ⟨_, hfound, hwalk⟩ | ⟨_, answer, _, hfound, hwalk⟩
          · exact hfound.trans hwalk.symm
          · exact hfound.trans hwalk.symm

theorem typeQuery_eq {root : Container T} (h : Accepted root) (segments : List String)
    (interface : String) :
    typeQuery root segments interface = readFrom (valueType interface) root segments := by
  cases segments with
  | nil => rfl
  | cons first rest =>
      cases hfind : root.children.find? fun child => child.name == first with
      | none => simp [typeQuery, target, readFrom, stored, hfind]
      | some child =>
          rcases child with ⟨name, restrictions, inner⟩
          have hinner : Accepted inner := h.inv.2 _ (List.mem_of_find?_eq_some hfind)
          simp only [typeQuery, target, readFrom, stored, hfind, Option.map_some, Option.bind_some]
          rcases registered_agrees interface hinner rest restrictions with
            ⟨_, hfound, hwalk⟩ | ⟨_, answer, _, hfound, hwalk⟩
          · exact hfound.trans hwalk.symm
          · exact hfound.trans hwalk.symm

theorem Accepted.walk {scope inner : Scope T} {names : List String} (h : Accepted scope.1)
    (hwalk : walk scope names = some inner) : Accepted inner.1 := by
  induction names generalizing scope with
  | nil =>
      cases hwalk
      exact h
  | cons name names ih =>
      rw [walk_cons] at hwalk
      rcases Option.bind_eq_some_iff.1 hwalk with ⟨next, haccessor, hrest⟩
      exact ih (h.accessor haccessor) hrest

theorem Accepted.reach {root : Container T} {scope : Scope T} {names : List String}
    (h : Accepted root) (hreach : reach root names = some scope) : Accepted scope.1 := by
  cases names with
  | nil => simp [Scoped.reach] at hreach
  | cons first names =>
      rcases Option.bind_eq_some_iff.1 hreach with ⟨next, hstored, hwalk⟩
      exact (h.stored hstored).walk hwalk

theorem Agrees.length_eq {β : Type} {impls : List Impl} {found walked : Option β}
    (h : Agrees impls found walked) : impls.length = walked.toList.length := by
  rcases h with ⟨rfl, _, rfl⟩ | ⟨impl, answer, rfl, _, rfl⟩
  · rfl
  · rfl

/-- The path spells the registration: names of children, and then its namespace unless that is the
default one and is left out. -/
structure Spells (root : Container T) (segments : List String) (interface : String)
    (scope : Scope T) (index : Nat) (r : Registration T) : Prop where
  spelled : ∃ names ns, segments = names ++ ns.toList ∧ reach root names = some scope ∧
    r.ns = named ns
  interface_eq : r.interface = interface
  stored : scope.1.registrations[index]? = some r

theorem lookup_of_getElem? {holds : Registration T → Bool} {container : Container T}
    (hsound : Sound container) {index : Nat} {r : Registration T}
    (hr : container.registrations[index]? = some r) (hholds : holds r = true) :
    lookup holds container.registrations r.ns r.interface = some index := by
  have hsome : (lookup holds container.registrations r.ns r.interface).isSome :=
    lookup_isSome (List.mem_of_getElem? hr) hholds
  rcases Option.isSome_iff_exists.1 hsome with ⟨found, hfound⟩
  rcases lookup_spec hfound with ⟨r', hr', hns, hinterface, _⟩
  rcases List.getElem?_eq_some_iff.1 hr with ⟨hindex, rfl⟩
  rcases List.getElem?_eq_some_iff.1 hr' with ⟨hother, rfl⟩
  have hdistinct := List.pairwise_iff_getElem.1 hsound.distinct
  -- Two positions with the same names would contradict distinctness.
  rcases Nat.lt_trichotomy found index with hlt | heq | hgt
  · exact absurd ⟨hns, hinterface⟩ (hdistinct found index hother hindex hlt)
  · rw [hfound, heq]
  · exact absurd ⟨hns.symm, hinterface.symm⟩ (hdistinct index found hindex hother hgt)

theorem typeQuery_of_spells {root : Container T} (h : Accepted root) {segments : List String}
    {interface : String} {scope : Scope T} {index : Nat} {r : Registration T}
    (hspells : Spells root segments interface scope index r) :
    typeQuery root segments interface = some r.ty := by
  rcases hspells with ⟨⟨names, ns, hsegments, hreach, hns⟩, rfl, hr⟩
  rw [typeQuery_eq h]
  refine (readFrom_eq_some (apart_valueType _) h segments _).2
    ⟨names, ns, scope, hsegments, hreach, ?_⟩
  rw [valueType, ← hns, lookup_of_getElem? (h.reach hreach).inv.1 hr rfl]
  simp [hr]

theorem spells_of_query {unchecked : Bool} {root : Container T} (h : Accepted root)
    {segments : List String} {interface : String} {op : Operation} {address : Address}
    (hquery : query unchecked root segments interface op = some address) :
    ∃ scope r, Spells root segments interface scope address.index r ∧
      scope.1.id = address.id := by
  rw [query_eq unchecked h] at hquery
  rcases (readFrom_eq_some (apart_method unchecked interface op) h segments address).1 hquery with
    ⟨names, ns, scope, hsegments, hreach, hmethod⟩
  rw [method_eq] at hmethod
  rcases Option.map_eq_some_iff.1 hmethod with ⟨index, hlookup, rfl⟩
  rcases lookup_spec hlookup with ⟨r, hr, hns, hinterface, _⟩
  exact ⟨scope, r, ⟨⟨names, ns, hsegments, hreach, hns⟩, hinterface, hr⟩, rfl⟩

theorem spells_of_typeQuery {root : Container T} (h : Accepted root) {segments : List String}
    {interface : String} {ty : T} (hquery : typeQuery root segments interface = some ty) :
    ∃ scope index r, Spells root segments interface scope index r ∧ r.ty = ty := by
  rw [typeQuery_eq h] at hquery
  rcases (readFrom_eq_some (apart_valueType interface) h segments ty).1 hquery with
    ⟨names, ns, scope, hsegments, hreach, hvalue⟩
  rcases Option.bind_eq_some_iff.1 hvalue with ⟨index, hlookup, hty⟩
  rcases lookup_spec hlookup with ⟨r, hr, hns, hinterface, _⟩
  refine ⟨scope, index, r, ⟨⟨names, ns, hsegments, hreach, hns⟩, hinterface, hr⟩, ?_⟩
  simpa [hr] using hty

/-- A namespace written `default` after the names of children changes nothing. -/
theorem readFrom_default {β : Type} {answer : Option String → Scope T → Option β}
    (hdefault : ∀ scope, answer (some "default") scope = answer none scope) {root : Container T}
    (h : Accepted root) {names : List String} (hreach : (reach root names).isSome) :
    readFrom answer root (names ++ ["default"]) = readFrom answer root names := by
  rcases Option.isSome_iff_exists.1 hreach with ⟨scope, hscope⟩
  have hnone : accessor scope "default" = none := by
    by_contra hsome
    rcases Option.ne_none_iff_exists'.1 hsome with ⟨inner, hinner⟩
    rcases accessor_some hinner with ⟨front, restrictions, back, hchildren, _⟩
    exact (h.reach hscope).inv.1.noDefault (.mk "default" restrictions inner.1)
      (by simp [hchildren]) rfl
  have hplain : readFrom answer root names = readPath answer [] scope := by
    simpa using readFrom_append hscope []
  rw [readFrom_append hscope, hplain]
  simp [readPath, hnone, hdefault]

/-! ## Consumption -/

/-- The method of a slot an operation calls. -/
def Operation.slotMethod : Operation → Method
  | .owned => .resolve
  | .tryOwned => .tryResolve
  | .cloneValue => .resolveClone
  | .tryCloneValue => .tryResolveClone
  | .uncheckedOwned => .resolveUnchecked

/-- The two ways to name a slot. -/
inductive Route where
  | path (segments : List String)
  | accessors (names : List String) (ns : Option String)

/-- An operation asked of a container by some route. -/
structure Request (T : Type) where
  root : Container T
  route : Route
  interface : String
  op : Operation

def Request.address (unchecked : Bool) (request : Request T) : Option Address :=
  match request.route with
  | .path segments => query unchecked request.root segments request.interface request.op
  | .accessors names ns => call unchecked request.root names ns request.interface request.op

section Serve

variable {V C : Type}

/-- Performs a request on the slots; one without an address does not compile. -/
def serve (unchecked : Bool) (slots : Address → Contents V C) (request : Request T) :
    Option (Except AccessError V) × (Address → Contents V C) :=
  match request.address unchecked with
  | none => (none, slots)
  | some address =>
      let (reply, contents) := access request.op.slotMethod (slots address)
      (some reply, Function.update slots address contents)

/-- The slots after a run of requests. -/
def serveAll (unchecked : Bool) (slots : Address → Contents V C) (requests : List (Request T)) :
    Address → Contents V C :=
  requests.foldl (fun slots request => (serve unchecked slots request).2) slots

theorem serve_consumed (unchecked : Bool) {slots : Address → Contents V C} {address : Address}
    (hslot : slots address = .take none) (request : Request T) :
    (serve unchecked slots request).2 address = .take none := by
  unfold serve
  cases haddress : request.address unchecked with
  | none => exact hslot
  | some target =>
      by_cases heq : target = address
      · subst heq
        simp [hslot, access]
      · simp [Function.update_of_ne (Ne.symm heq), hslot]

theorem serveAll_consumed (unchecked : Bool) {slots : Address → Contents V C} {address : Address}
    (hslot : slots address = .take none) (requests : List (Request T)) :
    serveAll unchecked slots requests address = .take none := by
  induction requests generalizing slots with
  | nil => exact hslot
  | cons request requests ih => exact ih (serve_consumed unchecked hslot request)

theorem serve_takes (unchecked : Bool) {slots : Address → Contents V C} {address : Address}
    {value : V} (hslot : slots address = .take (some value)) {request : Request T}
    (haddress : request.address unchecked = some address) (htakes : request.op.takes) :
    (serve unchecked slots request).1 = some (.ok value) ∧
      (serve unchecked slots request).2 address = .take none := by
  have hmethod : takes request.op.slotMethod = true := by
    cases hop : request.op <;> simp_all [Operation.takes, Operation.slotMethod, takes]
  simp [serve, haddress, hslot, access, hmethod]

theorem serve_refused (unchecked : Bool) {slots : Address → Contents V C} {address : Address}
    (hslot : slots address = .take none) {request : Request T}
    (haddress : request.address unchecked = some address) :
    (serve unchecked slots request).1 = some (.error .valueAlreadyConsumed) := by
  simp [serve, haddress, hslot, access]

end Serve

/-! ## The correspondence -/

/-- A query by a typed path and the accessors its segments name meet in the same slot.

On every container the path passes exactly one implementation applies if the query has an answer
and none if it has not; the answer is that of the accessors; `default` may be left out; types follow
the same path; a path that spells no registration has no answer; and a value taken by one route is
consumed for every other. -/
theorem typedPath_reaches_accessors (unchecked : Bool) {root : Container T} (h : Accepted root)
    (segments : List String) (interface : String) (op : Operation) :
    (∀ names rest scope, segments = names ++ rest → reach root names = some scope →
      (implementations unchecked scope.2 (pathOf rest) (key interface) op scope.1).length =
          (query unchecked root segments interface op).toList.length ∧
        (registeredImpls (pathOf rest) (key interface) scope.1).length =
          (typeQuery root segments interface).toList.length) ∧
    (∀ address, query unchecked root segments interface op = some address ↔
      ∃ names ns, segments = names ++ ns.toList ∧
        call unchecked root names ns interface op = some address) ∧
    ((reach root segments).isSome →
      query unchecked root (segments ++ ["default"]) interface op =
          query unchecked root segments interface op ∧
        typeQuery root (segments ++ ["default"]) interface = typeQuery root segments interface) ∧
    (∀ address, query unchecked root segments interface op = some address →
      ∃ scope r, Spells root segments interface scope address.index r ∧ scope.1.id = address.id) ∧
    (∀ scope index r, Spells root segments interface scope index r →
      typeQuery root segments interface = some r.ty) ∧
    ((∀ scope index r, ¬Spells root segments interface scope index r) →
      query unchecked root segments interface op = none ∧
        typeQuery root segments interface = none) ∧
    (∀ (V C : Type) (slots : Address → Contents V C) (address : Address) (value : V)
      (first : Request T) (between : List (Request T)) (later : Request T),
      slots address = .take (some value) → first.op.takes →
      first.address unchecked = some address → later.address unchecked = some address →
        (serve unchecked slots first).1 = some (.ok value) ∧
          (serve unchecked (serveAll unchecked (serve unchecked slots first).2 between) later).1 =
            some (.error .valueAlreadyConsumed)) := by
  refine ⟨?_, ?_, ?_, ?_, ?_, ?_, ?_⟩
  · rintro names rest scope rfl hreach
    have haccepted := h.reach hreach
    -- Both traits follow the walk, and after a prefix the walk goes on from where the prefix leads.
    rw [query_eq unchecked h, typeQuery_eq h, readFrom_append hreach, readFrom_append hreach]
    exact ⟨(dispatch_agrees interface op haccepted rest scope.2).length_eq,
      (registered_agrees interface haccepted rest scope.2).length_eq⟩
  · intro address
    -- The walk splits its segments into accessors and at most one namespace.
    rw [query_eq unchecked h, readFrom_eq_some (apart_method unchecked interface op) h]
    refine ⟨?_, ?_⟩
    · rintro ⟨names, ns, scope, hsegments, hreach, hmethod⟩
      exact ⟨names, ns, hsegments, by simpa [call, hreach] using hmethod⟩
    · rintro ⟨names, ns, hsegments, hcall⟩
      rcases Option.bind_eq_some_iff.1 hcall with ⟨scope, hreach, hmethod⟩
      exact ⟨names, ns, scope, hsegments, hreach, hmethod⟩
  · intro hreach
    rw [query_eq unchecked h, query_eq unchecked h, typeQuery_eq h, typeQuery_eq h]
    refine ⟨readFrom_default ?_ h hreach, readFrom_default ?_ h hreach⟩
    · intro scope
      rfl
    · intro scope
      rfl
  · intro address hquery
    exact spells_of_query h hquery
  · intro scope index r hspells
    exact typeQuery_of_spells h hspells
  · intro hnone
    refine ⟨?_, ?_⟩
    · by_contra hsome
      rcases Option.ne_none_iff_exists'.1 hsome with ⟨address, hquery⟩
      rcases spells_of_query h hquery with ⟨scope, r, hspells, _⟩
      exact hnone _ _ _ hspells
    · by_contra hsome
      rcases Option.ne_none_iff_exists'.1 hsome with ⟨ty, hquery⟩
      rcases spells_of_typeQuery h hquery with ⟨scope, index, r, hspells, _⟩
      exact hnone _ _ _ hspells
  · intro V C slots address value first between later hslot htakes hfirst hlater
    -- Requests share the slots by address, so the route does not matter.
    rcases serve_takes unchecked hslot hfirst htakes with ⟨hreply, htaken⟩
    exact ⟨hreply, serve_refused unchecked (serveAll_consumed unchecked htaken between) hlater⟩

/-- One interface in the default namespace and in `spare`. -/
def values : List (Registration Nat) :=
  [ { ns := none, interface := "i_value", ty := 0, slot := .take, consumed := [], calls := [] },
    { ns := some "spare", interface := "i_value", ty := 1, slot := .take, consumed := [],
      calls := [] } ]

def branches : List (Child Nat) :=
  [.mk "primary" .empty (.mk 2 values []), .mk "replica" .empty (.mk 3 values [])]

def outer : List (Child Nat) :=
  [.mk "branch" .empty (.mk 1 [] branches)]

theorem accepted_outer : Accepted (.mk 0 [] outer) := by
  have hleaf : ∀ id, Accepted (.mk id values []) := by
    intro id
    refine @Accepted.mk Nat id values [] _ ?_ (by simp)
    simp [expand, values, winners, named, Registration.identity]
  have hbranch : Accepted (.mk 1 [] branches) := by
    refine @Accepted.mk Nat 1 [] branches _ ?_ ?_
    · simp [expand, winners, branches, Child.name]
    · simp [branches, Child.container, hleaf]
  refine @Accepted.mk Nat 0 [] outer _ ?_ ?_
  · simp [expand, winners, outer, Child.name]
  · simp [outer, Child.container, hbranch]

theorem typedPath_reaches_accessors_spare :
    call false (.mk 0 [] outer) ["branch", "replica"] (some "spare") "i_value" .tryOwned =
        some ⟨3, 1⟩ ∧
      query false (.mk 0 [] outer) ["branch", "replica", "spare"] "i_value" .tryOwned =
        some ⟨3, 1⟩ := by
  have hcall : call false (.mk 0 [] outer) ["branch", "replica"] (some "spare") "i_value"
      .tryOwned = some ⟨3, 1⟩ := by
    simp [call, reach, stored, walk, accessor, method, outer, branches, values, permitted, named,
      Container.children, Container.registrations, Container.id, Child.name, SlotKind.operations,
      Registration.guarded, Operation.takes, SlotKind.isFresh, Mask.blocked, Mask.forChild]
  refine ⟨hcall, ?_⟩
  exact ((typedPath_reaches_accessors false accepted_outer ["branch", "replica", "spare"] "i_value"
    .tryOwned).2.1 ⟨3, 1⟩).2 ⟨["branch", "replica"], some "spare", rfl, hcall⟩

end Scoped
end Systasis
