import Systasis.Analysis.Expansion
import Systasis.Analysis.Unfolding

/-!
# Rewriting — what the passes do with every query

Each visitor is split into the tree it leaves and the fold over the queries it found.  A query that
stands as a statement is a node of its own (`Form.macroStmt`), which none of the visitors takes:
everything else follows from the passes reporting no error.
-/

namespace Systasis
namespace Analysis

open Syntax Systasis.Graph

variable {n : Nat}

/-! ## Occurrences -/

/-- An invocation of a macro, by the position it stands in. -/
inductive Occurrence where
  | expression (mac : Macro)
  | statement (mac : Macro)
  | type (mac : Macro)

def occurrence (label : Label) : Option Occurrence :=
  match label.form with
  | .invocation mac => some (.expression mac)
  | .macroStmt mac => some (.statement mac)
  | .typeInvocation mac => some (.type mac)
  | _ => none

/-- The query that an occurrence in a value position is. -/
def Occurrence.query (o : Occurrence) : Option Invocation :=
  match o with
  | .expression mac | .statement mac =>
      match Invocation.of mac with
      | some invocation => if invocation.query.removed then none else some invocation
      | none => none
  | .type _ => none

def Occurrence.isStatement : Occurrence → Bool
  | .statement _ => true
  | _ => false

/-- The invocations of queries in a piece of code, outside the tokens of other macros. -/
def queries (node : Node) : List Occurrence :=
  (Rose.found occurrence node).filter fun o => o.query.isSome

/-- The code of a registration: its initializer and its constructor. -/
def Registration.code (r : Registration) : List Node :=
  r.value :: r.constructor.toList

/-! ## Local queries -/

section Local

variable (indices : String → Option (Fin n))

/-- The registration a query asks for. -/
def queryTarget (invocation : Invocation) : Option (Fin n) :=
  if invocation.query.removed then none
  else (localKey invocation.isFrom invocation.tokens).bind indices

variable (replacements : Option (Fin n → Query → Option Generated))

def rewriteQuery (invocation : Invocation) (node : Node) : Node :=
  match queryTarget indices invocation, replacements with
  | some index, some replacements =>
      match replacements index invocation.query with
      | some call => generatedCall call node
      | none => node
  | _, _ => node

def noteQuery (s : Queries n) (invocation : Invocation) : Queries n :=
  if invocation.query.removed then { s with error := some (.message removedBorrowMessage) }
  else
    match localKey invocation.isFrom invocation.tokens with
    | none => { s with error := some .syntaxError }
    | some key =>
        match indices key with
        | none => { s with error := some (.message "unregistered dependency") }
        | some index =>
            let s := { s with dependencies := insert index s.dependencies }
            match replacements with
            | none => s
            | some replacements =>
                match replacements index invocation.query with
                | some _ => s
                | none =>
                    { s with
                      error := some (.message
                        "requested resolver is unavailable for this constructor") }

end Local

section Local

variable {indices : String → Option (Fin n)}
  {replacements : Option (Fin n → Query → Option Generated)}

theorem enterQuery_eq (label : Label) (children : List Node) (s : Queries n) :
    enterQuery indices replacements (.node label children) s =
      (expressionQuery label).map fun invocation =>
        (rewriteQuery indices replacements invocation (.node label children),
          noteQuery indices replacements s invocation) := by
  simp only [enterQuery]
  congr 1
  funext invocation
  simp only [rewriteQuery, noteQuery, queryTarget]
  cases hremoved : invocation.query.removed with
  | true => simp
  | false =>
      simp only [Bool.false_eq_true, if_false]
      cases localKey invocation.isFrom invocation.tokens with
      | none => rfl
      | some key =>
          simp only [Option.bind_some]
          cases indices key with
          | none => rfl
          | some index =>
              cases replacements with
              | none => rfl
              | some replacements =>
                  simp only
                  cases replacements index invocation.query <;> rfl

/-- A query that is answered: it has a target, and a replacement if these are asked for. -/
def AnsweredQuery (indices : String → Option (Fin n))
    (replacements : Option (Fin n → Query → Option Generated)) (invocation : Invocation) : Prop :=
  ∃ index, queryTarget indices invocation = some index ∧
    ∀ r ∈ replacements, (r index invocation.query).isSome

theorem noteQuery_ok {s : Queries n} {invocation : Invocation}
    (h : (noteQuery indices replacements s invocation).error = none) :
    s.error = none ∧ AnsweredQuery indices replacements invocation ∧
      ∀ d, d ∈ (noteQuery indices replacements s invocation).dependencies ↔
        d ∈ s.dependencies ∨ queryTarget indices invocation = some d := by
  simp only [noteQuery] at h ⊢
  cases hremoved : invocation.query.removed with
  | true => simp [hremoved] at h
  | false =>
      simp only [hremoved, Bool.false_eq_true, if_false] at h ⊢
      cases hkey : localKey invocation.isFrom invocation.tokens with
      | none => simp [hkey] at h
      | some key =>
          simp only [hkey] at h ⊢
          cases hindex : indices key with
          | none => simp [hindex] at h
          | some index =>
              have htarget : queryTarget indices invocation = some index := by
                simp [queryTarget, hremoved, hkey, hindex]
              simp only [hindex] at h ⊢
              cases replacements with
              | none =>
                  refine ⟨h, ⟨index, htarget, by simp⟩, ?_⟩
                  simp [htarget, or_comm, eq_comm]
              | some r =>
                  simp only at h ⊢
                  cases hr : r index invocation.query with
                  | none => simp [hr] at h
                  | some call =>
                      simp only [hr] at h ⊢
                      refine ⟨h, ⟨index, htarget, by simp [hr]⟩, ?_⟩
                      simp [htarget, or_comm, eq_comm]

theorem foldl_noteQuery_ok {invocations : List Invocation} {s : Queries n}
    (h : (invocations.foldl (noteQuery indices replacements) s).error = none) :
    s.error = none ∧
      (∀ invocation ∈ invocations, AnsweredQuery indices replacements invocation) ∧
      ∀ d, d ∈ (invocations.foldl (noteQuery indices replacements) s).dependencies ↔
        d ∈ s.dependencies ∨ ∃ invocation ∈ invocations, queryTarget indices invocation = some d := by
  induction invocations generalizing s with
  | nil => exact ⟨h, by simp, by simp⟩
  | cons invocation rest ih =>
      rcases ih h with ⟨herror, hrest, hdependencies⟩
      rcases noteQuery_ok herror with ⟨hs, hfirst, hinserted⟩
      refine ⟨hs, ?_, ?_⟩
      · intro other hother
        rcases List.mem_cons.1 hother with rfl | hother
        · exact hfirst
        · exact hrest other hother
      · intro d
        rw [List.foldl_cons, hdependencies, hinserted]
        simp [or_assoc]

/-- A visit that reports no error, from its queries. -/
theorem visitQueries_ok {node : Node} {s : Queries n}
    (h : (visitQueries indices replacements node s).2.error = none) :
    s.error = none ∧
      (∀ invocation ∈ Rose.found expressionQuery node,
        AnsweredQuery indices replacements invocation) ∧
      (visitQueries indices replacements node s).1 =
        Rose.replace expressionQuery (rewriteQuery indices replacements) node ∧
      ∀ d, d ∈ (visitQueries indices replacements node s).2.dependencies ↔
        d ∈ s.dependencies ∨
          ∃ invocation ∈ Rose.found expressionQuery node, queryTarget indices invocation = some d := by
  have heq : visitQueries indices replacements node s =
      (Rose.replace expressionQuery (rewriteQuery indices replacements) node,
        (Rose.found expressionQuery node).foldl (noteQuery indices replacements) s) :=
    Rose.visit_eq enterQuery_eq node s
  rw [heq] at h ⊢
  rcases foldl_noteQuery_ok h with ⟨hs, hanswered, hdependencies⟩
  exact ⟨hs, hanswered, rfl, hdependencies⟩

end Local

/-! ## Child queries -/

section Children

variable (children : List ChildRegistration) (inConstructor : Bool)

/-- What a child query or a child type lookup becomes. -/
def dispatchSite (site : ChildSite) (node : Node) : Node :=
  match site with
  | .query invocation =>
      if invocation.query.removed then node
      else
        match target children invocation.tokens with
        | .ok (some (index, interface, _, path)) =>
            generatedCall
              (.dispatch index path interface invocation.query.operation inConstructor) node
        | _ => node
  | .type tokens =>
      match target children tokens with
      | .ok (some (index, interface, dynamic, path)) =>
          match children[index]? with
          | some child => projection child.ty path interface dynamic
          | none => node
      | _ => node

def noteChild (s : ChildQueries) (site : ChildSite) : ChildQueries :=
  match site with
  | .query invocation =>
      if invocation.query.removed then { s with error := some (.message removedBorrowMessage) }
      else
        match target children invocation.tokens with
        | .error error => { s with error := some error }
        | .ok none => s
        | .ok (some (index, interface, _, path)) =>
            { s with
              calls := s.calls ++
                [⟨((children[index]?).map fun child => child.name.name).getD "", path, interface,
                  invocation.query.operation, invocation.query.unchecked⟩] }
  | .type tokens =>
      match target children tokens with
      | .error error => { s with error := some error }
      | _ => s

/-- A query expression that names a child. -/
def Dispatched (o : Occurrence) : Prop :=
  ∃ invocation found, o.isStatement = false ∧ o.query = some invocation ∧
    invocation.isFrom = true ∧ target children invocation.tokens = .ok (some found)

end Children

section Children

variable {children : List ChildRegistration} {inConstructor : Bool}

theorem enterChild_eq (label : Label) (below : List Node) (s : ChildQueries) :
    enterChild children inConstructor (.node label below) s =
      (childSite label).map fun site =>
        (dispatchSite children inConstructor site (.node label below), noteChild children s site) := by
  simp only [enterChild]
  congr 1
  funext site
  cases site with
  | query invocation =>
      simp only [dispatchSite, noteChild]
      cases hremoved : invocation.query.removed with
      | true => simp
      | false =>
          simp only [Bool.false_eq_true, if_false]
          cases target children invocation.tokens with
          | error error => rfl
          | ok outcome => cases outcome <;> rfl
  | type tokens =>
      simp only [dispatchSite, noteChild]
      cases target children tokens with
      | error error => rfl
      | ok outcome =>
          cases outcome with
          | none => rfl
          | some found =>
              simp only
              cases children[found.1]? <;> rfl

theorem visitChildren_eq (node : Node) (s : ChildQueries) :
    visitChildren children inConstructor node s =
      (Rose.replace childSite (dispatchSite children inConstructor) node,
        (Rose.found childSite node).foldl (noteChild children) s) :=
  Rose.visit_eq enterChild_eq node s

theorem occurrence_of_childSite {label : Label} (h : occurrence label = none) :
    childSite label = none := by
  rcases label with ⟨form, attrs, semi⟩
  cases form <;> simp_all [occurrence, childSite]

/-- A query is dispatched to a child, or it is still there after the child queries. -/
theorem mem_queries_dispatched {node : Node} {o : Occurrence} (ho : o ∈ queries node) :
    o ∈ queries (Rose.replace childSite (dispatchSite children inConstructor) node) ∨
      Dispatched children o := by
  rcases List.mem_filter.1 ho with ⟨hfound, hquery⟩
  have hkept := @Rose.mem_found_replace _ _ _ childSite (dispatchSite children inConstructor)
    occurrence (Dispatched children) node o (fun _ => occurrence_of_childSite) ?_ hfound
  · rcases hkept with hkept | hdispatched
    · exact Or.inl (List.mem_filter.2 ⟨hkept, hquery⟩)
    · exact Or.inr hdispatched
  · intro site _ label below hsite hoccurrence
    rcases label with ⟨form, attrs, semi⟩
    cases form with
    -- Only a query in expression position is a site of the child queries.
    | invocation mac =>
        simp only [occurrence, Option.some.injEq] at hoccurrence
        subst hoccurrence
        have hself : Occurrence.expression mac ∈
            Rose.found occurrence (.node ⟨.invocation mac, attrs, semi⟩ below) := by
          simp [Rose.found, occurrence]
        simp only [childSite] at hsite
        cases hof : Invocation.of mac with
        | none => simp [hof] at hsite
        | some invocation =>
            simp only [hof] at hsite
            split at hsite
            · rename_i htaken
              cases hsite
              have hremoved : invocation.query.removed = false := by
                cases hremoved : invocation.query.removed with
                | false => rfl
                | true => simp [Occurrence.query, hof, hremoved] at hquery
              simp only [dispatchSite, hremoved, Bool.false_eq_true, if_false]
              split
              · rename_i htarget
                have hfrom : invocation.isFrom = true := by simpa [hremoved] using htaken
                exact Or.inr ⟨invocation, _, rfl, by simp [Occurrence.query, hof, hremoved], hfrom,
                  htarget⟩
              · -- No child is named, and the query stays as it is.
                exact Or.inl hself
            · cases hsite
    | typeInvocation mac =>
        simp only [occurrence, Option.some.injEq] at hoccurrence
        subst hoccurrence
        simp [Occurrence.query] at hquery
    | _ => simp [childSite] at hsite

end Children

/-! ## Type lookups -/

section Lookups

variable {tables : Types n}

theorem lookupTypes_visited (node : Node) {s : Lookup n} (hactive : s.active = []) :
    Visited tables s (sites node) (lookupTypes tables node s).2 ∧
      (Clear tables s.active (sites node) →
        Unfolds tables node (lookupTypes tables node s).1) := by
  rcases @visitType_spec n tables (n + 1) node s (by simp [hactive]) (by omega) with
    ⟨result, s', hreturns, hvisited, hunfolds⟩
  have heq : lookupTypes tables node s = (result, s') := by
    simp only [lookupTypes, hreturns, Option.getD_some]
  rw [heq]
  exact ⟨hvisited, hunfolds⟩

theorem lookupTypes_active (node : Node) {s : Lookup n} (hactive : s.active = []) :
    (lookupTypes tables node s).2.active = [] :=
  (lookupTypes_visited node hactive).1.active.trans hactive

theorem lookupTypes_ok {node : Node} {s : Lookup n} (hactive : s.active = [])
    (h : (lookupTypes tables node s).2.error = none) :
    s.error = none ∧ Unfolds tables node (lookupTypes tables node s).1 ∧
      ∀ d, d ∈ (lookupTypes tables node s).2.dependencies ↔
        d ∈ s.dependencies ∨ Registered tables (sites node) d := by
  rcases lookupTypes_visited node hactive with ⟨hvisited, hunfolds⟩
  rcases hvisited.error.1 h with ⟨hs, hclear⟩
  exact ⟨hs, hunfolds hclear, hvisited.dependencies hclear⟩

/-- Type lookups leave every query of the code in place. -/
theorem Unfolds.keeps {node unfolded : Node} (h : Unfolds tables node unfolded) {o : Occurrence}
    (ho : o ∈ queries node) : o ∈ queries unfolded := by
  rcases List.mem_filter.1 ho with ⟨hfound, hquery⟩
  refine List.mem_filter.2 ⟨?_, hquery⟩
  -- A lookup is an occurrence of its own, and no query.
  have hlookup : ∀ label children site, typeSite label = some site →
      o ∉ Rose.found occurrence (.node label children) := by
    intro label children site hsite hmem
    rcases label with ⟨form, attrs, semi⟩
    cases form with
    | typeInvocation mac =>
        simp only [Rose.found, occurrence, List.mem_singleton] at hmem
        subst hmem
        simp [Occurrence.query] at hquery
    | _ => simp [typeSite] at hsite
  refine @Unfolds.rec n tables
    (fun node unfolded _ => o ∈ Rose.found occurrence node → o ∈ Rose.found occurrence unfolded)
    (fun nodes unfolded _ => o ∈ Rose.foundAll occurrence nodes →
      o ∈ Rose.foundAll occurrence unfolded)
    ?_ ?_ ?_ ?_ ?_ node unfolded h hfound
  · intro label children unfolded _ _ ih hfound
    simp only [Rose.found] at hfound ⊢
    cases hoccurrence : occurrence label with
    | none =>
        simp only [hoccurrence] at hfound ⊢
        exact ih hfound
    | some other => simpa only [hoccurrence] using hfound
  · intro label children site index unfolded hsite _ _ _ hfound
    exact absurd hfound (hlookup label children site hsite)
  · intro label children site index target hsite _ _ hfound
    exact absurd hfound (hlookup label children site hsite)
  · intro hfound
    exact hfound
  · intro node unfolded rest others _ _ ihnode ihrest hfound
    simp only [Rose.foundAll, List.mem_append] at hfound ⊢
    rcases hfound with hfound | hfound
    · exact Or.inl (ihnode hfound)
    · exact Or.inr (ihrest hfound)

end Lookups

/-! ## The passes over one registration -/

/-- The visit of a constructor, by the visit of its closure. -/
theorem visitConstructor_fst {S : Type} {visit : Node → S → Node × S} {f : Node → Node}
    (h : ∀ node s, (visit node s).1 = f node) (constructor : Option Node) (s : S) :
    (visitConstructor visit constructor s).1 = constructor.map f := by
  cases constructor with
  | none => rfl
  | some closure => simp [visitConstructor, h]

theorem childPass_ok {children : List ChildRegistration} {r r' : Registration} {calls : List Call}
    (h : childPass children r = .ok (r', calls)) :
    r'.value = Rose.replace childSite (dispatchSite children false) r.value ∧
      r'.constructor =
        r.constructor.map (Rose.replace childSite (dispatchSite children true)) := by
  simp only [childPass] at h
  split at h
  · cases h
  · cases h
    refine ⟨?_, ?_⟩
    · simp [visitChildren_eq]
    · exact visitConstructor_fst (fun node s => by simp [visitChildren_eq]) _ _

theorem typePass_ok {tables : Types n} {r r' : Registration} {looked : Finset (Fin n)}
    (h : typePass tables r = .ok (r', looked)) :
    Unfolds tables r.value r'.value ∧
      (∀ closure' ∈ r'.constructor, ∃ closure ∈ r.constructor, Unfolds tables closure closure') ∧
      (∀ closure ∈ r.constructor, ∃ closure' ∈ r'.constructor, Unfolds tables closure closure') ∧
      ∀ d ∈ looked, ∃ node ∈ r.ty :: r.code, Registered tables (sites node) d := by
  have hty := @lookupTypes_active n tables r.ty ⟨[], ∅, none⟩ rfl
  have hvalue := @lookupTypes_active n tables r.value _ hty
  -- The initializer, once the visits after it are known to have reported nothing.
  have hbefore : ∀ (_ : (lookupTypes tables r.value
      (lookupTypes tables r.ty ⟨[], ∅, none⟩).2).2.error = none),
      Unfolds tables r.value (lookupTypes tables r.value
        (lookupTypes tables r.ty ⟨[], ∅, none⟩).2).1 ∧
      ∀ d, d ∈ (lookupTypes tables r.value
          (lookupTypes tables r.ty ⟨[], ∅, none⟩).2).2.dependencies →
        Registered tables (sites r.ty) d ∨ Registered tables (sites r.value) d := by
    intro herror
    rcases lookupTypes_ok hty herror with ⟨herror', hunfolds, hdependencies⟩
    rcases lookupTypes_ok rfl herror' with ⟨_, _, hdependencies'⟩
    refine ⟨hunfolds, ?_⟩
    intro d hd
    rcases (hdependencies d).1 hd with hd | hd
    · rcases (hdependencies' d).1 hd with hd | hd
      · simp at hd
      · exact Or.inl hd
    · exact Or.inr hd
  simp only [typePass] at h
  cases hconstructor : r.constructor with
  | none =>
      simp only [hconstructor, visitConstructor] at h
      split at h
      · cases h
      · rename_i herror
        cases h
        rcases hbefore herror with ⟨hunfolds, hdependencies⟩
        refine ⟨hunfolds, by simp, by simp, ?_⟩
        intro d hd
        rcases hdependencies d hd with hd | hd
        · exact ⟨r.ty, by simp, hd⟩
        · exact ⟨r.value, by simp [Registration.code], hd⟩
  | some closure =>
      simp only [hconstructor, visitConstructor] at h
      split at h
      · cases h
      · rename_i herror
        cases h
        rcases lookupTypes_ok hvalue herror with ⟨herror', hclosure, hdependencies'⟩
        rcases hbefore herror' with ⟨hunfolds, hdependencies⟩
        refine ⟨hunfolds, ?_, ?_, ?_⟩
        · intro closure' hclosure'
          cases hclosure'
          exact ⟨closure, rfl, hclosure⟩
        · intro other hother
          cases hother
          exact ⟨_, rfl, hclosure⟩
        · intro d hd
          rcases (hdependencies' d).1 hd with hd | hd
          · rcases hdependencies d hd with hd | hd
            · exact ⟨r.ty, by simp, hd⟩
            · exact ⟨r.value, by simp [Registration.code], hd⟩
          · exact ⟨closure, by simp [Registration.code, hconstructor], hd⟩

theorem queryPass_ok {indices : String → Option (Fin n)}
    {building running : Option (Fin n → Query → Option Generated)} {r r' : Registration}
    {dependencies dependencies' : Finset (Fin n)}
    (h : queryPass indices building running r dependencies = .ok (r', dependencies')) :
    r'.value = Rose.replace expressionQuery (rewriteQuery indices building) r.value ∧
      r'.constructor =
        r.constructor.map (Rose.replace expressionQuery (rewriteQuery indices running)) ∧
      (∀ invocation ∈ Rose.found expressionQuery r.value,
        AnsweredQuery indices building invocation) ∧
      (∀ closure ∈ r.constructor, ∀ invocation ∈ Rose.found expressionQuery closure,
        AnsweredQuery indices running invocation) ∧
      ∀ d, d ∈ dependencies' ↔ d ∈ dependencies ∨ ∃ node ∈ r.code,
        ∃ invocation ∈ Rose.found expressionQuery node, queryTarget indices invocation = some d := by
  simp only [queryPass] at h
  cases hconstructor : r.constructor with
  | none =>
      simp only [hconstructor, visitConstructor] at h
      split at h
      · cases h
      · rename_i herror
        cases h
        rcases visitQueries_ok herror with ⟨_, hanswered, hreplaced, hdependencies⟩
        refine ⟨hreplaced, rfl, hanswered, by simp, ?_⟩
        intro d
        rw [hdependencies]
        simp [Registration.code, hconstructor]
  | some closure =>
      simp only [hconstructor, visitConstructor] at h
      split at h
      · cases h
      · rename_i herror
        cases h
        -- The constructor is visited after the value, with the errors and dependencies found so far.
        rcases visitQueries_ok herror with ⟨herror', hanswered', hreplaced', hdependencies'⟩
        rcases visitQueries_ok herror' with ⟨_, hanswered, hreplaced, hdependencies⟩
        refine ⟨hreplaced, by simp [hreplaced'], hanswered, by simpa using hanswered', ?_⟩
        intro d
        rw [hdependencies', hdependencies]
        simp [Registration.code, hconstructor, or_assoc]

theorem analyse_ok {tables : Types n} {r r' : Registration} {dependencies : Finset (Fin n)}
    (h : analyse tables r = .ok (r', dependencies)) :
    ∃ looked r'', typePass tables r = .ok (r', looked) ∧
      queryPass tables.indices none none r' looked = .ok (r'', dependencies) := by
  simp only [analyse] at h
  split at h
  · cases h
  · rename_i r₁ looked htypes
    split at h
    · cases h
    · rename_i r₂ dependencies₂ hqueries
      cases h
      exact ⟨looked, r₂, htypes, hqueries⟩

/-- What the passes have returned when the expansion succeeds. -/
structure Expands (children : List ChildRegistration) (unchecked : Bool)
    (registrations : Fin n → Registration) (out : Expansion n) : Prop where
  dispatched : ∃ calls : Fin n → List Call,
    (∀ i, childPass children (registrations i) = .ok (out.dispatched i, calls i)) ∧
      propagateChildCalls out.looked (indices out.dispatched) out.order calls = .ok out.calls
  analysed : ∀ i, analyse (Types.of out.dispatched) (out.dispatched i) =
    .ok (out.looked i, out.dependencies i)
  scheduled : schedule out.dependencies = .ok out.order
  consumed : consumedDependencies out.looked (indices out.dispatched) out.order = .ok out.consumed
  rewritten : ∀ i, ∃ dependencies, queryPass (indices out.dispatched)
    (some (replacement out.looked (Wiring.transitive out.dependencies out.order) true unchecked))
    (some (replacement out.looked (Wiring.transitive out.dependencies out.order) false unchecked))
    (out.looked i) ∅ = .ok (out.emitted i, dependencies)

theorem expandQueries_ok {children : List ChildRegistration} {unchecked : Bool}
    {registrations : Fin n → Registration} {out : Expansion n}
    (h : expandQueries children unchecked registrations = .ok out) :
    Expands children unchecked registrations out := by
  simp only [expandQueries] at h
  split at h
  · cases h
  · rename_i passed hpassed
    split at h
    · cases h
    · rename_i analysed hanalysed
      split at h
      · cases h
      · cases h
      · rename_i order horder
        split at h
        · cases h
        · rename_i consumed hconsumed
          split at h
          · cases h
          · rename_i calls hcalls
            split at h
            · cases h
            · rename_i rewritten hrewritten
              cases h
              exact
                { dispatched := ⟨fun i => (passed i).2, fun i => sequence_ok hpassed i, hcalls⟩
                  analysed := fun i => sequence_ok hanalysed i
                  scheduled := horder
                  consumed := hconsumed
                  rewritten := fun i => ⟨(rewritten i).2, sequence_ok hrewritten i⟩ }

/-! ## Every query -/

theorem expressionQuery_of_occurrence {label : Label} (h : occurrence label = none) :
    expressionQuery label = none := by
  rcases label with ⟨form, attrs, semi⟩
  cases form <;> simp_all [occurrence, expressionQuery]

/-- The occurrences the rewriting leaves behind. -/
def Occurrence.remains (o : Occurrence) : Bool :=
  match o with
  | .expression mac => (Invocation.of mac).isNone
  | _ => true

theorem expressionQuery_isSome {label : Label} {o : Occurrence} (h : occurrence label = some o) :
    (expressionQuery label).isSome = !o.remains := by
  rcases label with ⟨form, attrs, semi⟩
  cases form <;> simp_all [occurrence, expressionQuery]
  all_goals
    subst h
    simp [Occurrence.remains]

theorem remains_iff {o : Occurrence} (h : o.query.isSome) : o.remains = o.isStatement := by
  cases o with
  | expression mac =>
      cases hof : Invocation.of mac with
      | none => simp [Occurrence.query, hof] at h
      | some invocation => simp [Occurrence.remains, Occurrence.isStatement, hof]
  | statement mac => rfl
  | type mac => simp [Occurrence.query] at h

/-- Once every query expression has been replaced, only query statements are left. -/
theorem queries_rewritten {indices : String → Option (Fin n)}
    {replacements : Fin n → Query → Option Generated} {node : Node}
    (h : ∀ invocation ∈ Rose.found expressionQuery node,
      AnsweredQuery indices (some replacements) invocation) :
    queries (Rose.replace expressionQuery (rewriteQuery indices (some replacements)) node) = [] ↔
      ∀ o ∈ queries node, o.isStatement = false := by
  have hfound : Rose.found occurrence
      (Rose.replace expressionQuery (rewriteQuery indices (some replacements)) node) =
        (Rose.found occurrence node).filter Occurrence.remains := by
    refine Rose.found_replace (fun _ _ => expressionQuery_isSome)
      (fun _ => expressionQuery_of_occurrence) ?_
    intro invocation hinvocation label children _
    rcases h invocation hinvocation with ⟨index, htarget, hreplacement⟩
    rcases Option.isSome_iff_exists.1 (hreplacement replacements rfl) with ⟨call, hcall⟩
    simp [rewriteQuery, htarget, hcall, generatedCall, Rose.found, occurrence, Rose.foundAll]
  simp only [queries, hfound, List.filter_filter, List.filter_eq_nil_iff, List.mem_filter]
  refine ⟨?_, ?_⟩
  · intro hnone o ho
    have hremains := remains_iff ho.2
    cases hstatement : o.isStatement with
    | false => rfl
    | true => exact absurd (by simp [ho.2, hremains, hstatement]) (hnone o ho.1)
  · intro hstatements o ho hquery
    rcases Bool.and_eq_true_iff.1 hquery with ⟨hquery, hremains⟩
    rw [remains_iff hquery, hstatements o ⟨ho, hquery⟩] at hremains
    cases hremains

theorem mem_expressionQueries {node : Node} {o : Occurrence} {invocation : Invocation}
    (ho : o ∈ queries node) (hexpression : o.isStatement = false)
    (hquery : o.query = some invocation) : invocation ∈ Rose.found expressionQuery node := by
  refine Rose.mem_found_of_refines (fun _ => expressionQuery_of_occurrence) ?_
    (List.mem_filter.1 ho).1
  intro label hlabel
  rcases label with ⟨form, attrs, semi⟩
  cases form with
  | invocation mac =>
      cases hlabel
      simp only [Occurrence.query] at hquery
      simp only [expressionQuery]
      cases hof : Invocation.of mac with
      | none => simp [hof] at hquery
      | some other =>
          simp only [hof] at hquery
          split at hquery
          · cases hquery
          · exact hquery
  | macroStmt mac =>
      cases hlabel
      cases hexpression
  | typeInvocation mac =>
      cases hlabel
      cases hquery
  | _ => simp [occurrence] at hlabel

/-- What is asked of the passes for one registration. -/
structure Handled (children : List ChildRegistration) (unchecked : Bool)
    (registrations : Fin n → Registration) (out : Expansion n) (i : Fin n) : Prop where
  /-- A child query has become a typed dispatch call. -/
  dispatched :
    (out.dispatched i).value =
        Rose.replace childSite (dispatchSite children false) (registrations i).value ∧
      (out.dispatched i).constructor =
        (registrations i).constructor.map (Rose.replace childSite (dispatchSite children true))
  /-- Every query was dispatched, or its target has been recorded. -/
  analysed : ∀ node ∈ (registrations i).code, ∀ o ∈ queries node, Dispatched children o ∨
    ∃ invocation j, o.query = some invocation ∧
      queryTarget (indices out.dispatched) invocation = some j ∧ j ∈ out.dependencies i
  /-- Query expressions have become what the replacements give for them, while building and in the
  constructor. -/
  rewritten :
    (out.emitted i).value =
        Rose.replace expressionQuery
          (rewriteQuery (indices out.dispatched)
            (some (replacement out.looked (Wiring.transitive out.dependencies out.order) true
              unchecked))) (out.looked i).value ∧
      (out.emitted i).constructor =
        (out.looked i).constructor.map
          (Rose.replace expressionQuery
            (rewriteQuery (indices out.dispatched)
              (some (replacement out.looked (Wiring.transitive out.dependencies out.order) false
                unchecked))))
  /-- No query is left. -/
  clean : ∀ node ∈ (out.emitted i).code, queries node = []
  /-- Nothing else was recorded. -/
  exact : ∀ j ∈ out.dependencies i,
    (∃ node ∈ (out.looked i).code, ∃ invocation ∈ Rose.found expressionQuery node,
      queryTarget (indices out.dispatched) invocation = some j) ∨
    ∃ node ∈ (out.dispatched i).ty :: (out.dispatched i).code,
      Registered (Types.of out.dispatched) (sites node) j

/-- The code of a registration after a pass over both parts. -/
theorem mem_code_map {r r' : Registration} {f g : Node → Node} (hvalue : r'.value = f r.value)
    (hconstructor : r'.constructor = r.constructor.map g) {node : Node} :
    node ∈ r'.code ↔ node = f r.value ∨ ∃ closure ∈ r.constructor, node = g closure := by
  simp only [Registration.code, hvalue, hconstructor, List.mem_cons]
  cases r.constructor <;> simp

/-- The passes handle every query of a registration exactly when none stands as a statement in the
code that the analysis is given. -/
theorem handled_iff_looked (children : List ChildRegistration) (unchecked : Bool)
    (registrations : Fin n → Registration) (out : Expansion n)
    (h : expandQueries children unchecked registrations = .ok out) (i : Fin n) :
    Handled children unchecked registrations out i ↔
      ∀ node ∈ (out.looked i).code, ∀ o ∈ queries node, o.isStatement = false := by
  have hexpands := expandQueries_ok h
  rcases hexpands.rewritten i with ⟨_, hquery⟩
  rcases queryPass_ok hquery with ⟨hvalue, hconstructor, hanswered, hanswered', _⟩
  have hclean : (∀ node ∈ (out.emitted i).code, queries node = []) ↔
      ∀ node ∈ (out.looked i).code, ∀ o ∈ queries node, o.isStatement = false := by
    have hcode := fun node => @mem_code_map _ _ _ _ hvalue hconstructor node
    simp only [hcode]
    refine ⟨?_, ?_⟩
    · intro hnone node hnode
      rcases List.mem_cons.1 hnode with rfl | hnode
      · exact (queries_rewritten hanswered).1 (hnone _ (Or.inl rfl))
      · have hclosure : node ∈ (out.looked i).constructor := Option.mem_toList.1 hnode
        exact (queries_rewritten (hanswered' node hclosure)).1
          (hnone _ (Or.inr ⟨node, hclosure, rfl⟩))
    · intro hstatements node hnode
      rcases hnode with rfl | ⟨closure, hclosure, rfl⟩
      · exact (queries_rewritten hanswered).2 (hstatements _ (by simp [Registration.code]))
      · refine (queries_rewritten (hanswered' closure hclosure)).2 (hstatements closure ?_)
        exact List.mem_cons_of_mem _ (Option.mem_toList.2 hclosure)
  refine ⟨fun hhandled => hclean.1 hhandled.clean, ?_⟩
  intro hstatements
  rcases hexpands.dispatched with ⟨calls, hdispatched, _⟩
  rcases childPass_ok (hdispatched i) with ⟨hchild, hchild'⟩
  rcases analyse_ok (hexpands.analysed i) with ⟨looked, _, htypes, hanalysed⟩
  rcases typePass_ok htypes with ⟨hunfolds, _, hunfolds', hlooked⟩
  rcases queryPass_ok hanalysed with ⟨_, _, hvalueQueries, hclosureQueries, hdependencies⟩
  refine ⟨⟨hchild, hchild'⟩, ?_, ⟨hvalue, hconstructor⟩, hclean.2 hstatements, ?_⟩
  · intro node hnode o ho
    -- The same occurrence in the code the analysis is given.
    have hkept : Dispatched children o ∨ ∃ node' ∈ (out.looked i).code, o ∈ queries node' := by
      rcases List.mem_cons.1 hnode with rfl | hnode
      · rcases @mem_queries_dispatched children false _ _ ho with hkept | hkept
        · refine Or.inr ⟨_, List.mem_cons_self, ?_⟩
          exact hunfolds.keeps (hchild ▸ hkept)
        · exact Or.inl hkept
      · have hclosure : node ∈ (registrations i).constructor := Option.mem_toList.1 hnode
        rcases @mem_queries_dispatched children true _ _ ho with hkept | hkept
        · have hpassed : Rose.replace childSite (dispatchSite children true) node ∈
              (out.dispatched i).constructor := by
            rw [hchild', Option.mem_map]
            exact ⟨node, hclosure, rfl⟩
          rcases hunfolds' _ hpassed with ⟨closure', hclosure', hclosureUnfolds⟩
          exact Or.inr ⟨closure', List.mem_cons_of_mem _ (Option.mem_toList.2 hclosure'),
            hclosureUnfolds.keeps hkept⟩
        · exact Or.inl hkept
    rcases hkept with hkept | ⟨node', hnode', ho'⟩
    · exact Or.inl hkept
    · rcases Option.isSome_iff_exists.1 (List.mem_filter.1 ho').2 with ⟨invocation, hinvocation⟩
      have hfound := mem_expressionQueries ho' (hstatements node' hnode' o ho') hinvocation
      have hanswered : AnsweredQuery (indices out.dispatched) none invocation := by
        rcases List.mem_cons.1 hnode' with rfl | hclosure
        · exact hvalueQueries invocation hfound
        · exact hclosureQueries node' (Option.mem_toList.1 hclosure) invocation hfound
      rcases hanswered with ⟨j, htarget, _⟩
      exact Or.inr ⟨invocation, j, hinvocation, htarget,
        (hdependencies j).2 (Or.inr ⟨node', hnode', invocation, hfound, htarget⟩)⟩
  · intro j hj
    rcases (hdependencies j).1 hj with hj | hj
    · exact Or.inr (hlooked j hj)
    · exact Or.inl hj

end Analysis
end Systasis
