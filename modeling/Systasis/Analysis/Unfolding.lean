import Mathlib.Data.Fintype.Card
import Systasis.Analysis.TypeLookup

/-!
# Unfolding — type lookups terminate and substitute exactly

The stack of active registrations has no repetition, so it bounds how deep lookups unfold.  Along
that bound, one statement says what a visit of a type does to every component of the state
(`Visited`): the stack comes back, the error appears exactly when a lookup cannot be answered or
comes back to an active registration, and without one the registrations met are recorded.
-/

namespace Systasis
namespace Analysis

open Syntax Systasis.Graph

variable {n : Nat} {tables : Types n}

/-! ## Lookups one step at a time -/

theorem mem_concrete {lookups : List TypeSite} {index : Fin n} :
    index ∈ concrete tables lookups ↔ ∃ site ∈ lookups, names tables site = some (false, index) := by
  simp [concrete]

/-- Every lookup met can be answered, and no chain of concrete lookups meets a registration twice
or one that is active. -/
def Clear (tables : Types n) (active : List (Fin n)) (lookups : List TypeSite) : Prop :=
  (∀ site, Reached tables lookups site → Answered tables site) ∧
    ∀ chain, Chain tables lookups chain → (active ++ chain).Nodup

theorem Reached.of_mem {lookups : List TypeSite} {site : TypeSite} (h : site ∈ lookups) :
    Reached tables lookups site :=
  ⟨[], trivial, h⟩

theorem Reached.of_concrete {lookups : List TypeSite} {site : TypeSite} {index : Fin n}
    (hindex : index ∈ concrete tables lookups)
    (h : Reached tables (sites (tables.types index)) site) : Reached tables lookups site := by
  rcases h with ⟨chain, hchain, hsite⟩
  exact ⟨index :: chain, ⟨hindex, hchain⟩, hsite⟩

/-- A lookup in a type that a lookup met names is met too. -/
theorem Reached.next {lookups : List TypeSite} {first site : TypeSite} {index : Fin n}
    (h : Reached tables lookups first) (hnames : names tables first = some (false, index))
    (hsite : site ∈ sites (tables.types index)) : Reached tables lookups site := by
  rcases h with ⟨chain, hchain, hfirst⟩
  induction chain generalizing lookups with
  | nil => exact .of_concrete (mem_concrete.2 ⟨first, hfirst, hnames⟩) (.of_mem hsite)
  | cons next chain ih => exact .of_concrete hchain.1 (ih hchain.2 hfirst)

theorem clear_iff {active : List (Fin n)} {lookups : List TypeSite} :
    Clear tables active lookups ↔ active.Nodup ∧ ∀ site ∈ lookups, Answered tables site ∧
      ∀ index, names tables site = some (false, index) →
        index ∉ active ∧ Clear tables (active ++ [index]) (sites (tables.types index)) := by
  refine ⟨?_, ?_⟩
  · intro hclear
    refine ⟨by simpa using hclear.2 [] trivial, ?_⟩
    intro site hsite
    refine ⟨hclear.1 site (.of_mem hsite), ?_⟩
    intro index hindex
    have hmem : index ∈ concrete tables lookups := mem_concrete.2 ⟨site, hsite, hindex⟩
    refine ⟨?_, ?_, ?_⟩
    · have hnodup := hclear.2 [index] ⟨hmem, trivial⟩
      intro hactive
      exact List.disjoint_of_nodup_append hnodup hactive (List.mem_singleton.2 rfl)
    · intro other hother
      exact hclear.1 other (.of_concrete hmem hother)
    · intro chain hchain
      simpa using hclear.2 (index :: chain) ⟨hmem, hchain⟩
  · intro h
    rcases h with ⟨hnodup, hsites⟩
    refine ⟨?_, ?_⟩
    · intro site hreached
      rcases hreached with ⟨chain, hchain, hsite⟩
      cases chain with
      | nil => exact (hsites site hsite).1
      | cons index chain =>
          rcases mem_concrete.1 hchain.1 with ⟨first, hfirst, hindex⟩
          exact ((hsites first hfirst).2 index hindex).2.1 site ⟨chain, hchain.2, hsite⟩
    · intro chain hchain
      cases chain with
      | nil => simpa using hnodup
      | cons index chain =>
          rcases mem_concrete.1 hchain.1 with ⟨first, hfirst, hindex⟩
          simpa using ((hsites first hfirst).2 index hindex).2.2 chain hchain.2

theorem clear_append {active : List (Fin n)} {lookups others : List TypeSite} :
    Clear tables active (lookups ++ others) ↔
      Clear tables active lookups ∧ Clear tables active others := by
  rw [clear_iff, @clear_iff n tables active lookups, @clear_iff n tables active others]
  simp only [List.mem_append, or_imp, forall_and]
  tauto

theorem clear_nil {active : List (Fin n)} : Clear tables active [] ↔ active.Nodup := by
  rw [clear_iff]
  simp

theorem registered_iff {lookups : List TypeSite} {index : Fin n} :
    Registered tables lookups index ↔ ∃ site ∈ lookups,
      (∃ dynamic, names tables site = some (dynamic, index)) ∨
        ∃ next, names tables site = some (false, next) ∧
          Registered tables (sites (tables.types next)) index := by
  refine ⟨?_, ?_⟩
  · intro h
    rcases h with ⟨site, dynamic, ⟨chain, hchain, hsite⟩, hindex⟩
    cases chain with
    | nil => exact ⟨site, hsite, Or.inl ⟨dynamic, hindex⟩⟩
    | cons next chain =>
        rcases mem_concrete.1 hchain.1 with ⟨first, hfirst, hnext⟩
        exact ⟨first, hfirst, Or.inr ⟨next, hnext, site, dynamic, ⟨chain, hchain.2, hsite⟩, hindex⟩⟩
  · intro h
    rcases h with ⟨site, hsite, ⟨dynamic, hindex⟩ | ⟨next, hnext, other, dynamic, hother, hindex⟩⟩
    · exact ⟨site, dynamic, .of_mem hsite, hindex⟩
    · exact ⟨other, dynamic, .of_concrete (mem_concrete.2 ⟨site, hsite, hnext⟩) hother, hindex⟩

theorem registered_append {lookups others : List TypeSite} {index : Fin n} :
    Registered tables (lookups ++ others) index ↔
      Registered tables lookups index ∨ Registered tables others index := by
  rw [registered_iff, @registered_iff n tables lookups, @registered_iff n tables others]
  simp only [List.mem_append, or_and_right, exists_or]

/-! ## What a visit does -/

/-- The active registrations follow concrete lookup edges, up to the type that is visited. -/
def Stacked (tables : Types n) (active : List (Fin n)) (lookups : List TypeSite) : Prop :=
  (active.IsChain fun a b => b ∈ edges tables a) ∧
    ∀ last ∈ active.getLast?, concrete tables lookups ⊆ edges tables last

theorem Stacked.mono {active : List (Fin n)} {lookups others : List TypeSite}
    (h : Stacked tables active lookups) (hsub : ∀ site ∈ others, site ∈ lookups) :
    Stacked tables active others := by
  refine ⟨h.1, ?_⟩
  intro last hlast index hindex
  rcases mem_concrete.1 hindex with ⟨site, hsite, hnames⟩
  exact h.2 last hlast (mem_concrete.2 ⟨site, hsub site hsite, hnames⟩)

/-- One more concrete lookup lengthens the chain. -/
theorem Stacked.snoc {active : List (Fin n)} {lookups : List TypeSite} {index : Fin n}
    (h : Stacked tables active lookups) (hindex : index ∈ concrete tables lookups) :
    (active ++ [index]).IsChain fun a b => b ∈ edges tables a := by
  refine List.isChain_append.2 ⟨h.1, List.isChain_singleton _, ?_⟩
  intro last hlast first hfirst
  have hsame : index = first := by simpa using hfirst
  exact hsame ▸ h.2 last hlast hindex

/-- The effect of visiting a type with these lookups. -/
structure Visited (tables : Types n) (s : Lookup n) (lookups : List TypeSite) (s' : Lookup n) :
    Prop where
  active : s'.active = s.active
  error : s'.error = none ↔ s.error = none ∧ Clear tables s.active lookups
  dependencies : Clear tables s.active lookups → ∀ index,
    index ∈ s'.dependencies ↔ index ∈ s.dependencies ∨ Registered tables lookups index
  cycle : Stacked tables s.active lookups → ∀ path, s'.error = some (.cycle path) →
    s.error = some (.cycle path) ∨ ClosedPath (edges tables) path

namespace Visited

theorem nil {s : Lookup n} (hnodup : s.active.Nodup) : Visited tables s [] s where
  active := rfl
  error := by simp [clear_nil, hnodup]
  dependencies := by
    intro _ index
    rw [registered_iff]
    simp
  cycle := by
    intro _ path herror
    exact Or.inl herror

theorem append {s s' s'' : Lookup n} {lookups others : List TypeSite}
    (h : Visited tables s lookups s') (h' : Visited tables s' others s'') :
    Visited tables s (lookups ++ others) s'' where
  active := h'.active.trans h.active
  error := by
    rw [h'.error, h.error, h.active, clear_append, and_assoc]
  dependencies := by
    intro hclear index
    rcases clear_append.1 hclear with ⟨hlookups, hothers⟩
    rw [h'.dependencies (h.active.symm ▸ hothers), h.dependencies hlookups, registered_append,
      or_assoc]
  cycle := by
    intro hstacked path herror
    have hothers : Stacked tables s'.active others := by
      rw [h.active]
      exact hstacked.mono fun site hsite => List.mem_append_right _ hsite
    rcases h'.cycle hothers path herror with hbefore | hclosed
    · exact h.cycle (hstacked.mono fun site hsite => List.mem_append_left _ hsite) path hbefore
    · exact Or.inr hclosed

/-- A lookup that sets the error. -/
theorem failed {s : Lookup n} {site : TypeSite} {error : LookupError n}
    (hclear : ¬ Clear tables s.active [site])
    (hcycle : Stacked tables s.active [site] → ∀ path, error = .cycle path →
      ClosedPath (edges tables) path) :
    Visited tables s [site] { s with error := some error } where
  active := rfl
  error := by simp [hclear]
  dependencies := fun h => absurd h hclear
  cycle := by
    intro hstacked path herror
    exact Or.inr (hcycle hstacked path (Option.some.inj herror))

end Visited

theorem clear_singleton {active : List (Fin n)} {site : TypeSite} :
    Clear tables active [site] ↔ active.Nodup ∧ Answered tables site ∧
      ∀ index, names tables site = some (false, index) →
        index ∉ active ∧ Clear tables (active ++ [index]) (sites (tables.types index)) := by
  rw [clear_iff]
  simp

/-- What the visitor is asked of the types that lookups name. -/
def Unfolding (tables : Types n) (unfold : Node → Lookup n → Option (Node × Lookup n))
    (s : Lookup n) (ty : Node) : Prop :=
  ∃ ty' s', unfold ty s = some (ty', s') ∧ Visited tables s (sites ty) s' ∧
    (Clear tables s.active (sites ty) → Unfolds tables ty ty')

section Enter

variable {unfold : Node → Lookup n → Option (Node × Lookup n)} {s : Lookup n} {label : Label}
  {children : List Node} {site : TypeSite}

/-- The visit of one lookup, as far as its error is concerned. -/
theorem enterLookup_failed (error : LookupError n)
    (heq : enterLookup tables unfold site (.node label children) s =
      some (.node label children, { s with error := some error }))
    (hclear : ¬ Clear tables s.active [site])
    (hcycle : Stacked tables s.active [site] → ∀ path, error = .cycle path →
      ClosedPath (edges tables) path) :
    ∃ ty' s', enterLookup tables unfold site (.node label children) s = some (ty', s') ∧
      Visited tables s [site] s' ∧
        (Clear tables s.active [site] → Unfolds tables (.node label children) ty') :=
  ⟨_, _, heq, .failed hclear hcycle, fun h => absurd h hclear⟩

theorem enterLookup_spec (hnodup : s.active.Nodup)
    (hunfold : ∀ index ∉ s.active, ∀ t : Lookup n, t.active = s.active ++ [index] →
      Unfolding tables unfold t (tables.types index))
    (hsite : typeSite label = some site) :
    ∃ ty' s', enterLookup tables unfold site (.node label children) s = some (ty', s') ∧
      Visited tables s [site] s' ∧
        (Clear tables s.active [site] → Unfolds tables (.node label children) ty') := by
  cases hkey : lookupKey site with
  | none =>
      -- Tokens that are no lookup, a key that is not registered, a target that is not `dyn`: an error.
      have hnames : names tables site = none := by simp [names, hkey]
      refine enterLookup_failed .syntaxError (by simp only [enterLookup, hkey]) ?_ (by simp)
      simp [clear_singleton, Answered, hnames]
  | some entry =>
      rcases entry with ⟨dynamic, key⟩
      cases hindex : tables.indices key with
      | none =>
          have hnames : names tables site = none := by simp [names, hkey, hindex]
          refine enterLookup_failed .unregistered (by simp only [enterLookup, hkey, hindex]) ?_
            (by simp)
          simp [clear_singleton, Answered, hnames]
      | some index =>
          have hnames : names tables site = some (dynamic, index) := by
            simp [names, hkey, hindex]
          cases dynamic with
          | true =>
              cases htarget : tables.dynamic index with
              | none =>
                  refine enterLookup_failed .notDynamic
                    (by simp only [enterLookup, hkey, hindex, htarget, if_true]) ?_ (by simp)
                  simp [clear_singleton, Answered, hnames, htarget]
              | some target =>
                  -- A `dyn` lookup ends at its target.
                  have hclear : Clear tables s.active [site] := by
                    simp [clear_singleton, Answered, hnames, htarget, hnodup]
                  have heq : enterLookup tables unfold site (.node label children) s =
                      some (parenthesized target,
                        { s with dependencies := insert index s.dependencies }) := by
                    simp only [enterLookup, hkey, hindex, htarget, if_true]
                  refine ⟨_, _, heq, ⟨rfl, by simp [hclear], ?_, ?_⟩, ?_⟩
                  · intro _ other
                    rw [registered_iff]
                    simp [hnames, or_comm, eq_comm]
                  · intro _ path herror
                    exact Or.inl herror
                  · intro _
                    exact .dynamic hsite hnames htarget
          | false =>
              have hconcrete : index ∈ concrete tables [site] :=
                mem_concrete.2 ⟨site, List.mem_singleton.2 rfl, hnames⟩
              -- A concrete one unfolds further, unless it closes a cycle.
              by_cases hactive : index ∈ s.active
              · refine enterLookup_failed
                  (.cycle (s.active.drop (s.active.idxOf index) ++ [index]))
                  (by simp only [enterLookup, hkey, hindex, Bool.false_eq_true, if_false, hactive,
                    if_true]) ?_ ?_
                · intro h
                  exact ((clear_singleton.1 h).2.2 index hnames).1 hactive
                · intro hstacked path hpath
                  cases hpath
                  exact closedPath_of_repeat hactive hnodup (hstacked.snoc hconcrete)
              · rcases hunfold index hactive
                  { s with
                    active := s.active ++ [index]
                    dependencies := insert index s.dependencies } rfl with
                  ⟨ty', s', hreturns, hvisited, hunfolds⟩
                -- What is clear below with the registration on the stack is clear here.
                have hclear : Clear tables s.active [site] ↔
                    Clear tables (s.active ++ [index]) (sites (tables.types index)) := by
                  rw [clear_singleton]
                  refine ⟨fun h => (h.2.2 index hnames).2, ?_⟩
                  intro h
                  refine ⟨hnodup, ⟨false, index, hnames, by simp⟩, ?_⟩
                  intro other hother
                  rw [hnames] at hother
                  cases hother
                  exact ⟨hactive, h⟩
                have heq : enterLookup tables unfold site (.node label children) s =
                    some (ty', { s' with active := s'.active.dropLast }) := by
                  simp only [enterLookup, hkey, hindex, Bool.false_eq_true, if_false, hactive,
                    hreturns]
                refine ⟨_, _, heq, ⟨?_, ?_, ?_, ?_⟩, ?_⟩
                · simp [hvisited.active]
                · rw [hclear]
                  exact hvisited.error
                · intro h other
                  refine (hvisited.dependencies (hclear.1 h) other).trans ?_
                  rw [@registered_iff n tables [site]]
                  simp [hnames, eq_comm, or_assoc, or_left_comm]
                · intro hstacked path herror
                  refine hvisited.cycle ⟨hstacked.snoc hconcrete, ?_⟩ path herror
                  intro last hlast
                  have hsame : index = last := by simpa using hlast
                  subst hsame
                  exact fun _ hmem => hmem
                · intro h
                  exact .concrete hsite hnames (hunfolds (hclear.1 h))

end Enter

mutual

theorem visitWith_spec {unfold : Node → Lookup n → Option (Node × Lookup n)} (node : Node)
    (s : Lookup n) (hnodup : s.active.Nodup)
    (hunfold : ∀ index ∉ s.active, ∀ t : Lookup n, t.active = s.active ++ [index] →
      Unfolding tables unfold t (tables.types index)) :
    Unfolding tables (visitWith tables unfold) s node := by
  cases node with
  | node label children =>
      simp only [Unfolding, visitWith, sites, Rose.found]
      cases hsite : typeSite label with
      | some site => exact enterLookup_spec hnodup hunfold hsite
      | none =>
          rcases visitAllWith_spec children s hnodup hunfold with
            ⟨unfolded, s', heq, hvisited, hunfolds⟩
          exact ⟨.node label unfolded, s', by simp only [heq], hvisited,
            fun hclear => .descend hsite (hunfolds hclear)⟩

theorem visitAllWith_spec {unfold : Node → Lookup n → Option (Node × Lookup n)}
    (nodes : List Node) (s : Lookup n) (hnodup : s.active.Nodup)
    (hunfold : ∀ index ∉ s.active, ∀ t : Lookup n, t.active = s.active ++ [index] →
      Unfolding tables unfold t (tables.types index)) :
    ∃ nodes' s', visitAllWith tables unfold nodes s = some (nodes', s') ∧
      Visited tables s (Rose.foundAll typeSite nodes) s' ∧
        (Clear tables s.active (Rose.foundAll typeSite nodes) →
          UnfoldsAll tables nodes nodes') := by
  cases nodes with
  | nil => exact ⟨[], s, rfl, .nil hnodup, fun _ => .nil⟩
  | cons node rest =>
      rcases visitWith_spec node s hnodup hunfold with ⟨node', s', heq, hvisited, hunfolds⟩
      have hactive := hvisited.active
      rcases visitAllWith_spec rest s' (hactive ▸ hnodup) (hactive ▸ hunfold) with
        ⟨rest', s'', heq', hvisited', hunfolds'⟩
      refine ⟨node' :: rest', s'', by simp only [visitAllWith, heq, heq'],
        hvisited.append hvisited', ?_⟩
      intro hclear
      rcases clear_append.1 hclear with ⟨hfirst, hrest⟩
      exact .cons (hunfolds hfirst) (hunfolds' (hactive ▸ hrest))

end

/-- With more depth than there are registrations outside the stack, the visit returns. -/
theorem visitType_spec (fuel : Nat) (node : Node) (s : Lookup n) (hnodup : s.active.Nodup)
    (hfuel : n < fuel + s.active.length) : Unfolding tables (visitType tables fuel) s node := by
  induction fuel generalizing node s with
  | zero =>
      have hlength : s.active.length ≤ n := by
        simpa using hnodup.length_le_card
      omega
  | succ fuel ih =>
      refine visitWith_spec node s hnodup ?_
      intro index hindex t ht
      refine ih (tables.types index) t ?_ ?_
      · rw [ht]
        refine hnodup.append (List.nodup_singleton _) ?_
        simpa using hindex
      · rw [ht, List.length_append, List.length_singleton]
        omega

/-! ## The depth does not matter -/

mutual

theorem visitWith_mono {unfold unfold' : Node → Lookup n → Option (Node × Lookup n)}
    (h : ∀ node s result, unfold node s = some result → unfold' node s = some result)
    {node : Node} {s : Lookup n} {result : Node × Lookup n}
    (hresult : visitWith tables unfold node s = some result) :
    visitWith tables unfold' node s = some result := by
  cases node with
  | node label children =>
      simp only [visitWith] at hresult ⊢
      cases hsite : typeSite label with
      | some site =>
          simp only [hsite, enterLookup] at hresult ⊢
          cases hkey : lookupKey site with
          | none => simpa only [hkey] using hresult
          | some entry =>
              rcases entry with ⟨dynamic, key⟩
              simp only [hkey] at hresult ⊢
              cases hindex : tables.indices key with
              | none => simpa only [hindex] using hresult
              | some index =>
                  simp only [hindex] at hresult ⊢
                  split
                  · rename_i hdynamic
                    simpa only [hdynamic, if_true] using hresult
                  · rename_i hdynamic
                    simp only [hdynamic, Bool.false_eq_true, if_false] at hresult
                    split
                    · rename_i hactive
                      simpa only [hactive, if_true] using hresult
                    · rename_i hactive
                      simp only [hactive, if_false] at hresult
                      split at hresult
                      · rename_i ty' s' hunfold
                        rw [h _ _ _ hunfold]
                        exact hresult
                      · cases hresult
      | none =>
          simp only [hsite] at hresult ⊢
          split at hresult
          · rename_i unfolded s' hunfolded
            rw [visitAllWith_mono h hunfolded]
            exact hresult
          · cases hresult

theorem visitAllWith_mono {unfold unfold' : Node → Lookup n → Option (Node × Lookup n)}
    (h : ∀ node s result, unfold node s = some result → unfold' node s = some result)
    {nodes : List Node} {s : Lookup n} {result : List Node × Lookup n}
    (hresult : visitAllWith tables unfold nodes s = some result) :
    visitAllWith tables unfold' nodes s = some result := by
  cases nodes with
  | nil => exact hresult
  | cons node rest =>
      simp only [visitAllWith] at hresult ⊢
      split at hresult
      · cases hresult
      · rename_i node' s' hnode
        rw [visitWith_mono h hnode]
        simp only
        split at hresult
        · cases hresult
        · rename_i rest' s'' hrest
          rw [visitAllWith_mono h hrest]
          exact hresult

end

theorem visitType_mono {fuel more : Nat} (hle : fuel ≤ more) {node : Node} {s : Lookup n}
    {result : Node × Lookup n} (h : visitType tables fuel node s = some result) :
    visitType tables more node s = some result := by
  induction fuel generalizing more node s result with
  | zero => cases h
  | succ fuel ih =>
      cases more with
      | zero => omega
      | succ more =>
          exact visitWith_mono (fun _ _ _ hinner => ih (Nat.le_of_succ_le_succ hle) hinner) h

/-! ## The unfolding -/

theorem Unfolds.unique {node first second : Node} (h : Unfolds tables node first)
    (h' : Unfolds tables node second) : first = second := by
  refine @Unfolds.rec n tables
    (fun node first _ => ∀ second, Unfolds tables node second → first = second)
    (fun nodes first _ => ∀ second, UnfoldsAll tables nodes second → first = second)
    ?_ ?_ ?_ ?_ ?_ node first h second h'
  · intro label children unfolded hsite _ ih second h'
    cases h' with
    | descend _ hall' => rw [ih _ hall']
    | concrete hsite' _ _ => simp [hsite] at hsite'
    | dynamic hsite' _ _ => simp [hsite] at hsite'
  · intro label children site index unfolded hsite hnames _ ih second h'
    cases h' with
    | descend hsite' _ => simp [hsite] at hsite'
    | concrete hsite' hnames' hunfolds' =>
        cases hsite.symm.trans hsite'
        cases hnames.symm.trans hnames'
        exact ih _ hunfolds'
    | dynamic hsite' hnames' _ =>
        cases hsite.symm.trans hsite'
        cases hnames.symm.trans hnames'
  · intro label children site index target hsite hnames htarget second h'
    cases h' with
    | descend hsite' _ => simp [hsite] at hsite'
    | concrete hsite' hnames' _ =>
        cases hsite.symm.trans hsite'
        cases hnames.symm.trans hnames'
    | dynamic hsite' hnames' htarget' =>
        cases hsite.symm.trans hsite'
        cases hnames.symm.trans hnames'
        cases htarget.symm.trans htarget'
        rfl
  · intro second h'
    cases h'
    rfl
  · intro node unfolded rest others _ _ ihnode ihrest second h'
    cases h' with
    | cons hnode' hrest' => rw [ihnode _ hnode', ihrest _ hrest']

/-- The trait objects a visit puts in place of lookups. -/
def Inserted (tables : Types n) (lookups : List TypeSite) (target : Node) : Prop :=
  ∃ site index, Reached tables lookups site ∧ names tables site = some (true, index) ∧
    tables.dynamic index = some target

theorem sites_parenthesized (target : Node) : sites (parenthesized target) = sites target := by
  simp [sites, parenthesized, Rose.found, typeSite, Rose.foundAll]

/-- The lookups left in an unfolding are those written in a trait object. -/
theorem Unfolds.left {node unfolded : Node} (h : Unfolds tables node unfolded)
    {lookups : List TypeSite} (hreached : ∀ site ∈ sites node, Reached tables lookups site) :
    ∀ site ∈ sites unfolded, ∃ target, Inserted tables lookups target ∧ site ∈ sites target := by
  refine @Unfolds.rec n tables
    (fun node unfolded _ => (∀ site ∈ sites node, Reached tables lookups site) →
      ∀ site ∈ sites unfolded, ∃ target, Inserted tables lookups target ∧ site ∈ sites target)
    (fun nodes unfolded _ => (∀ site ∈ Rose.foundAll typeSite nodes, Reached tables lookups site) →
      ∀ site ∈ Rose.foundAll typeSite unfolded,
        ∃ target, Inserted tables lookups target ∧ site ∈ sites target)
    ?_ ?_ ?_ ?_ ?_ node unfolded h hreached
  · intro label children unfolded hsite _ ih hreached
    simp only [sites, Rose.found, hsite] at hreached ⊢
    exact ih hreached
  · intro label children first index unfolded hsite hnames _ ih hreached
    refine ih ?_
    intro site hmem
    have hfirst : first ∈ sites (.node label children) := by
      simp [sites, Rose.found, hsite]
    exact (hreached first hfirst).next hnames hmem
  · intro label children first index target hsite hnames htarget hreached site hmem
    rw [sites_parenthesized] at hmem
    have hfirst : first ∈ sites (.node label children) := by
      simp [sites, Rose.found, hsite]
    exact ⟨target, ⟨first, index, hreached first hfirst, hnames, htarget⟩, hmem⟩
  · intro _ site hmem
    cases hmem
  · intro node unfolded rest others _ _ ihnode ihrest hreached
    simp only [Rose.foundAll, List.mem_append] at hreached ⊢
    intro site hmem
    rcases hmem with hmem | hmem
    · exact ihnode (fun other hother => hreached other (Or.inl hother)) site hmem
    · exact ihrest (fun other hother => hreached other (Or.inr hother)) site hmem

/-! ## Exactness -/

/-- Type lookup returns, restores its stack and fails exactly on lookups that cannot be answered or
come back; what it returns is the unfolding, with the trait objects inserted as they are. -/
theorem typeLookup_exact (tables : Types n) (start : Node) (s : Lookup n)
    (hnodup : s.active.Nodup) (hstacked : Stacked tables s.active (sites start)) :
    ∃ result s',
      (∀ fuel, n < fuel + s.active.length →
        visitType tables fuel start s = some (result, s')) ∧
      s'.active = s.active ∧
      (s'.error = none ↔ s.error = none ∧
        (∀ site, Reached tables (sites start) site → Answered tables site) ∧
        ∀ chain, Chain tables (sites start) chain → (s.active ++ chain).Nodup) ∧
      (s'.error = none →
        Unfolds tables start result ∧
        (∀ other, Unfolds tables start other → other = result) ∧
        (∀ site ∈ sites result, ∃ target,
          Inserted tables (sites start) target ∧ site ∈ sites target) ∧
        ∀ index, index ∈ s'.dependencies ↔
          index ∈ s.dependencies ∨ Registered tables (sites start) index) ∧
      ∀ path, s'.error = some (.cycle path) →
        s.error = some (.cycle path) ∨ ClosedPath (edges tables) path := by
  have hlength : s.active.length ≤ n := by
    simpa using hnodup.length_le_card
  rcases visitType_spec (n + 1 - s.active.length) start s hnodup (by omega) with
    ⟨result, s', hreturns, hvisited, hunfolds⟩
  refine ⟨result, s', ?_, hvisited.active, hvisited.error, ?_, hvisited.cycle hstacked⟩
  · intro fuel hfuel
    exact visitType_mono (by omega) hreturns
  · intro herror
    have hclear := (hvisited.error.1 herror).2
    have hresult := hunfolds hclear
    refine ⟨hresult, ?_, hresult.left fun site hsite => .of_mem hsite,
      hvisited.dependencies hclear⟩
    intro other hother
    exact hother.unique hresult

/-- `name!(tokens)` as a type. -/
def typeLookup (name : String) (tokens : Tokens) : Node :=
  .node ⟨.typeInvocation ⟨⟨false, false, [⟨false, name⟩]⟩, tokens⟩, [], false⟩ []

/-- `name!(tokens)` as an expression. -/
def queryExpression (name : String) (tokens : Tokens) : Node :=
  .node ⟨.invocation ⟨⟨false, false, [⟨false, name⟩]⟩, tokens⟩, [], false⟩ []

/-- A value of type `String as IName`. -/
def nameValue : Registration where
  fresh := false
  constructor := none
  fallible := false
  dynamic := false
  value := .node ⟨.expr (.lit "name"), [], false⟩ []
  ty := .node ⟨.typePath ⟨false, false, [⟨false, "String"⟩]⟩, [], false⟩ []
  paths := [.node ⟨.typePath ⟨false, false, [⟨false, "IName"⟩]⟩, [], false⟩ []]
  interface := "IName"
  ns := none

/-- The value `as IName`, and one of type `Reader<registered_type!(IName)>` registered
`as dyn IRead<registered_type!(IName)>`. -/
def readers : Fin 2 → Registration
  | 0 => nameValue
  | 1 =>
      { fresh := false
        constructor := none
        fallible := false
        dynamic := true
        value := .node ⟨.expr (.lit "reader"), [], false⟩ []
        ty := .node ⟨.typePath ⟨false, false, [⟨false, "Reader"⟩]⟩, [], false⟩
          [typeLookup "registered_type" (.query false "IName" none)]
        paths := [.node ⟨.typePath ⟨false, false, [⟨false, "IRead"⟩]⟩, [], false⟩
          [typeLookup "registered_type" (.query false "IName" none)]]
        interface := "IRead < registered_type ! (IName) >"
        ns := none }

theorem typeLookup_exact_reader :
    ([] : List (Fin 2)).Nodup ∧
      Stacked (Types.of readers) []
        (sites (typeLookup "registered_type" (.query false "IRead < registered_type ! (IName) >"
          none))) ∧
      ∃ result s',
        visitType (Types.of readers) 3
          (typeLookup "registered_type" (.query false "IRead < registered_type ! (IName) >" none))
          ⟨[], ∅, none⟩ = some (result, s') ∧ s'.active = [] := by
  have hstacked : Stacked (Types.of readers) []
      (sites (typeLookup "registered_type" (.query false "IRead < registered_type ! (IName) >"
        none))) := by
    refine ⟨List.isChain_nil, ?_⟩
    intro last hlast
    cases hlast
  rcases typeLookup_exact (Types.of readers) _ ⟨[], ∅, none⟩ List.nodup_nil hstacked with
    ⟨result, s', hreturns, hactive, _⟩
  exact ⟨List.nodup_nil, hstacked, result, s', hreturns 3 (by decide), hactive⟩

/-- A trait object is inserted as it is, with the lookups its interface was written with. -/
theorem typeLookup_leaves_dyn_lookup :
    ∃ result s',
      visitType (Types.of readers) 3
        (typeLookup "resolve_type" (.query true "IRead < registered_type ! (IName) >" none))
        ⟨[], ∅, none⟩ = some (result, s') ∧
      s'.error = none ∧
      sites result = [⟨false, .query false "IName" none⟩] := by
  refine ⟨parenthesized (.node ⟨.type "dyn", [], false⟩
    [.node ⟨.typePath ⟨false, false, [⟨false, "IRead"⟩]⟩, [], false⟩
      [typeLookup "registered_type" (.query false "IName" none)]]), ⟨[], {1}, none⟩, ?_, rfl, ?_⟩
  · rfl
  · rfl

end Analysis
end Systasis
