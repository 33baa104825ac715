import Systasis.Captures.Lexical

/-!
# Correspondence — the visitor reads scopes as `lexical` does

The stack of scopes holds the names of the environment, and every traversal gives the stack back as
it found it, up to names added to the innermost scope.  A visit without errors is therefore
`lexical` with the test of `capture_index`.
-/

namespace Systasis
namespace Captures

open Syntax

/-! ## What a visit leaves alone -/

/-- A visit only adds: names to the innermost scope, captures and errors. -/
structure Extends (v v' : Visitor) : Prop where
  scopes : v'.scopes.tail = v.scopes.tail
  nonempty : v.scopes ≠ [] → v'.scopes ≠ []
  globScopes : v'.globScopes = v.globScopes
  captures : v.captures <+: v'.captures
  errors : v.errors <+: v'.errors

namespace Extends

theorem refl (v : Visitor) : Extends v v :=
  ⟨rfl, id, rfl, List.prefix_refl _, List.prefix_refl _⟩

theorem trans {v v' v'' : Visitor} (h : Extends v v') (h' : Extends v' v'') : Extends v v'' where
  scopes := h'.scopes.trans h.scopes
  nonempty := fun hne => h'.nonempty (h.nonempty hne)
  globScopes := h'.globScopes.trans h.globScopes
  captures := h.captures.trans h'.captures
  errors := h.errors.trans h'.errors

theorem no_errors {v v' : Visitor} (h : Extends v v') (hnone : v'.errors = []) : v.errors = [] := by
  have herrors := h.errors
  rw [hnone] at herrors
  exact List.prefix_nil.1 herrors

theorem reject (v : Visitor) (message : String) : Extends v (v.reject message) :=
  ⟨rfl, id, rfl, List.prefix_refl _, List.prefix_append _ _⟩

theorem insert (v : Visitor) (names : List String) : Extends v (v.insert names) := by
  rcases v with ⟨scopes, globScopes, captures, errors⟩
  cases scopes with
  | nil => exact refl _
  | cons scope scopes =>
      exact ⟨rfl, fun _ => List.cons_ne_nil _ _, rfl, List.prefix_refl _, List.prefix_refl _⟩

theorem bind (v : Visitor) (pattern : Pat) : Extends v (v.bind pattern) := by
  simp only [Visitor.bind]
  split
  · exact (insert v _).trans (reject _ _)
  · exact insert v _

theorem bindAll (v : Visitor) (patterns : List Pat) : Extends v (v.bindAll patterns) := by
  induction patterns generalizing v with
  | nil => exact refl v
  | cons pattern patterns ih => exact (bind v pattern).trans (ih (v.bind pattern))

theorem captureIndex (bindings : Bindings) (ident : Ident) (v : Visitor) :
    Extends v (v.captureIndex bindings ident).2 := by
  simp only [Visitor.captureIndex]
  split
  · exact refl v
  · split
    · exact refl v
    · split
      · exact reject v _
      · split
        · exact reject v _
        · split
          · exact refl v
          · exact ⟨rfl, id, rfl, List.prefix_append _ _, List.prefix_refl _⟩

/-- A scope pushed before a traversal and popped after it leaves no trace in the stack. -/
theorem pop_scopes {v v' : Visitor} {scope : List String} (h : Extends (v.push scope) v') :
    v'.pop.scopes = v.scopes := by
  simp [Visitor.pop, h.scopes, Visitor.push]

theorem popGlob_scopes {v v' : Visitor} {scope : List String} {glob : Option UseTree}
    (h : Extends ((v.push scope).pushGlob glob) v') :
    v'.pop.popGlob.scopes = v.scopes ∧ v'.pop.popGlob.globScopes = v.globScopes := by
  simp [Visitor.pop, Visitor.popGlob, h.scopes, h.globScopes, Visitor.push, Visitor.pushGlob]

theorem pop {v v' : Visitor} {scope : List String} (h : Extends (v.push scope) v') :
    Extends v v'.pop where
  scopes := by rw [h.pop_scopes]
  nonempty := by rw [h.pop_scopes]; exact id
  globScopes := h.globScopes
  captures := h.captures
  errors := h.errors

theorem popGlob {v v' : Visitor} {scope : List String} {glob : Option UseTree}
    (h : Extends ((v.push scope).pushGlob glob) v') : Extends v v'.pop.popGlob where
  scopes := by rw [h.popGlob_scopes.1]
  nonempty := by rw [h.popGlob_scopes.1]; exact id
  globScopes := h.popGlob_scopes.2
  captures := h.captures
  errors := h.errors

end Extends

theorem insert_captures (v : Visitor) (names : List String) :
    (v.insert names).captures = v.captures := by
  simp only [Visitor.insert]
  split <;> rfl

theorem bind_captures (v : Visitor) (pattern : Pat) : (v.bind pattern).captures = v.captures := by
  simp only [Visitor.bind]
  split
  · exact insert_captures v _
  · exact insert_captures v _

theorem bindAll_captures (v : Visitor) (patterns : List Pat) :
    (v.bindAll patterns).captures = v.captures := by
  induction patterns generalizing v with
  | nil => rfl
  | cons pattern patterns ih => exact (ih (v.bind pattern)).trans (bind_captures v pattern)

theorem declare_extends (bindings : Bindings) (items : List Item)
    (state : List String × Option UseTree × Visitor) :
    Extends state.2.2 (items.foldl (declareItem bindings) state).2.2 := by
  induction items generalizing state with
  | nil => exact .refl _
  | cons item items ih =>
      refine Extends.trans ?_ (ih _)
      rcases state with ⟨scope, glob, v⟩
      simp only [declareItem]
      split
      · split
        · exact .refl v
        · split
          · exact .reject v _
          · exact .refl v
      · exact .reject v _
      · exact .refl v

mutual

theorem visit_extends (bindings : Bindings) (node : Node) (v : Visitor) :
    Extends v (visit bindings node v).2 := by
  rcases node with ⟨⟨form, attrs, semi⟩, children⟩
  have hall := fun v => visitAll_extends bindings children v
  cases form with
  | path path =>
      simp only [visit]
      split
      · rename_i ident _
        have hindex := Extends.captureIndex bindings ident v
        split
        · rename_i index v' heq
          rw [heq] at hindex
          exact hindex
        · rename_i v' heq
          rw [heq] at hindex
          exact hindex
      · exact .refl v
  | invocation mac => exact .reject v _
  | macroStmt mac => exact .reject v _
  | verbatim tokens => exact .reject v _
  | closure inputs =>
      simp only [visit]
      exact ((Extends.bindAll _ inputs).trans (hall _)).popGlob
  | forBody pat =>
      simp only [visit]
      exact ((Extends.bind _ pat).trans (hall _)).pop
  | arm pat =>
      simp only [visit]
      exact ((Extends.bind _ pat).trans (hall _)).pop
  | branch =>
      simp only [visit]
      exact (hall _).pop
  | letCond pat =>
      simp only [visit]
      exact (hall v).trans (.bind _ pat)
  | localStmt pat =>
      simp only [visit]
      exact (hall v).trans (.bind _ pat)
  | block =>
      simp only [visit]
      exact (declare_extends bindings _ ([], none, v)).trans (hall _).popGlob
  | shorthand ident =>
      simp only [visit]
      have hindex := Extends.captureIndex bindings ident v
      split
      · rename_i index v' heq
        rw [heq] at hindex
        exact hindex
      · rename_i v' heq
        rw [heq] at hindex
        exact hindex
  | itemStmt item => exact .refl v
  | type tokens => exact .refl v
  | typePath path => exact .refl v
  | typeInvocation mac => exact .refl v
  | captureRoot => exact .refl v
  | _ =>
      simp only [visit]
      exact hall v

theorem visitAll_extends (bindings : Bindings) (nodes : List Node) (v : Visitor) :
    Extends v (visitAll bindings nodes v).2 := by
  cases nodes with
  | nil => exact .refl v
  | cons node rest =>
      simp only [visitAll]
      exact (visit_extends bindings node v).trans (visitAll_extends bindings rest _)

end

/-! ## The stack and the environment -/

/-- The stack of scopes holds the names the environment binds. -/
structure Matches (v : Visitor) (env : Env) : Prop where
  nonempty : v.scopes ≠ []
  bound : ∀ name, (∃ scope ∈ v.scopes, name ∈ scope) ↔ name ∈ env.bound
  globs : (∃ glob ∈ v.globScopes, glob.isSome) ↔ env.globs ≠ []

namespace Matches

theorem insert {v : Visitor} {env : Env} (h : Matches v env) (names : List String) :
    Matches (v.insert names) (env.bind names) := by
  rcases v with ⟨scopes, globScopes, captures, errors⟩
  cases scopes with
  | nil => exact absurd rfl h.nonempty
  | cons scope scopes =>
      refine ⟨List.cons_ne_nil _ _, ?_, h.globs⟩
      intro name
      have hbound := h.bound name
      simp only [Visitor.insert, List.mem_cons, exists_eq_or_imp, Env.bind,
        List.mem_append] at hbound ⊢
      rw [← hbound, or_assoc]

theorem push {v : Visitor} {env : Env} (h : Matches v env) : Matches (v.push []) env := by
  refine ⟨List.cons_ne_nil _ _, ?_, h.globs⟩
  intro name
  simpa [Visitor.push] using h.bound name

theorem pushGlob {v : Visitor} {env : Env} (h : Matches v env) : Matches (v.pushGlob none) env := by
  refine ⟨h.nonempty, h.bound, ?_⟩
  simpa [Visitor.pushGlob] using h.globs

/-- An environment stays matched by a stack that is the same. -/
theorem of_scopes {v v' : Visitor} {env : Env} (h : Matches v env) (hscopes : v'.scopes = v.scopes)
    (hglobs : v'.globScopes = v.globScopes) : Matches v' env where
  nonempty := hscopes ▸ h.nonempty
  bound := hscopes ▸ h.bound
  globs := hglobs ▸ h.globs

theorem bind {v : Visitor} {env : Env} (h : Matches v env) (pattern : Pat) :
    Matches (v.bind pattern) (env.bind (patternNames pattern).1) := by
  simp only [Visitor.bind]
  split
  · exact (h.insert _).of_scopes rfl rfl
  · exact h.insert _

/-- Only membership in the environment matters. -/
theorem of_bound {v : Visitor} {env env' : Env} (h : Matches v env)
    (hbound : ∀ name, name ∈ env.bound ↔ name ∈ env'.bound) (hglobs : env'.globs = env.globs) :
    Matches v env' where
  nonempty := h.nonempty
  bound := fun name => (h.bound name).trans (hbound name)
  globs := hglobs ▸ h.globs

theorem bindAll {v : Visitor} {env : Env} (h : Matches v env) (patterns : List Pat) :
    Matches (v.bindAll patterns) (env.bind (patternsNames patterns).1) := by
  induction patterns generalizing v env with
  | nil => exact h
  | cons pattern patterns ih =>
      refine (ih (h.bind pattern)).of_bound ?_ rfl
      intro name
      simp only [patternsNames, Env.bind, List.mem_append]
      tauto

end Matches

theorem declareItem_spec {bindings : Bindings} {scope : List String} {glob : Option UseTree}
    {v : Visitor} {item : Item}
    (hnone : (declareItem bindings (scope, glob, v) item).2.2.errors = []) :
    (declareItem bindings (scope, glob, v) item).2.2 = v ∧
      (∀ name, name ∈ (declareItem bindings (scope, glob, v) item).1 ↔
        name ∈ itemNames item ∨ name ∈ scope) ∧
      ((declareItem bindings (scope, glob, v) item).2.1.isSome ↔
        globTrees item ≠ [] ∨ glob.isSome) := by
  cases item with
  | useItem tree =>
      simp only [declareItem, itemName] at hnone ⊢
      by_cases hglob : containsGlob tree = true
      · simp [hglob, itemNames, itemName, globTrees]
      · simp only [hglob, Bool.false_eq_true, if_false] at hnone ⊢
        by_cases hknown : (!(importNames tree).2 || (importNames tree).1.any bindings.containsKey)
        · simp [hknown, Visitor.reject] at hnone
        · simp [hknown, hglob, itemNames, itemName, globTrees]
  | invocation mac => simp [declareItem, Visitor.reject] at hnone
  | structItem ident namedFields =>
      cases namedFields <;> simp [declareItem, itemNames, itemName, globTrees]
  | _ => simp [declareItem, itemNames, itemName, globTrees]

theorem declare_spec {bindings : Bindings} {items : List Item}
    {state : List String × Option UseTree × Visitor}
    (hnone : (items.foldl (declareItem bindings) state).2.2.errors = []) :
    (items.foldl (declareItem bindings) state).2.2 = state.2.2 ∧
      (∀ name, name ∈ (items.foldl (declareItem bindings) state).1 ↔
        name ∈ items.flatMap itemNames ∨ name ∈ state.1) ∧
      ((items.foldl (declareItem bindings) state).2.1.isSome ↔
        items.flatMap globTrees ≠ [] ∨ state.2.1.isSome) := by
  induction items generalizing state with
  | nil => simp
  | cons item items ih =>
      rcases state with ⟨scope, glob, v⟩
      simp only [List.foldl_cons] at hnone ⊢
      rcases ih hnone with ⟨hv, hnames, hglob⟩
      have hitem := declareItem_spec ((declare_extends bindings items _).no_errors hnone)
      refine ⟨hv.trans hitem.1, ?_, ?_⟩
      · intro name
        rw [hnames, hitem.2.1 name, List.flatMap_cons, List.mem_append, or_left_comm, or_assoc]
      · rw [hglob, hitem.2.2, List.flatMap_cons, ne_eq, ne_eq, ne_eq, List.append_eq_nil_iff]
        tauto

/-- The scope a block pushes holds what its items declare. -/
theorem Matches.declare {bindings : Bindings} {items : List Item} {v : Visitor} {env : Env}
    (h : Matches v env) (hnone : (Captures.declare bindings items v).2.2.errors = []) :
    Matches (((Captures.declare bindings items v).2.2.push
        (Captures.declare bindings items v).1).pushGlob (Captures.declare bindings items v).2.1)
      (env.declare items) := by
  rcases declare_spec hnone with ⟨hv, hnames, hglob⟩
  rw [Captures.declare, hv]
  refine ⟨List.cons_ne_nil _ _, ?_, ?_⟩
  · intro name
    have hbound := h.bound name
    simp only [Visitor.push, Visitor.pushGlob, List.mem_cons, exists_eq_or_imp, hnames, hbound,
      List.not_mem_nil, or_false, Env.declare, List.mem_append]
  · have hglobs := h.globs
    simp only [Visitor.push, Visitor.pushGlob, List.mem_cons, exists_eq_or_imp, hglob, hglobs,
      Option.isSome_none, Bool.false_eq_true, or_false, Env.declare, ne_eq,
      List.append_eq_nil_iff]
    tauto

/-! ## Recorded captures -/

/-- Distinct names, each with the type the enclosing function has for it. -/
structure Recorded (bindings : Bindings) (captures : List (Ident × Node)) : Prop where
  nodup : (captures.map fun capture => capture.1.name).Nodup
  typed : ∀ capture ∈ captures, bindings.types capture.1.name = some (some capture.2)

/-- The position of a name among the captures. -/
def position (captures : List (Ident × Node)) (name : String) : Nat :=
  captures.findIdx fun capture => capture.1.name == name

theorem position_lt {captures : List (Ident × Node)} {capture : Ident × Node}
    (hmem : capture ∈ captures) : position captures capture.1.name < captures.length :=
  List.findIdx_lt_length_of_exists ⟨capture, hmem, by simp⟩

/-- Later captures do not move earlier ones. -/
theorem position_of_prefix {captures captures' : List (Ident × Node)}
    (hfinal : captures <+: captures') {capture : Ident × Node} (hmem : capture ∈ captures) :
    position captures' capture.1.name = position captures capture.1.name := by
  rcases hfinal with ⟨rest, rfl⟩
  have hlt := position_lt hmem
  unfold position at hlt ⊢
  rw [List.findIdx_append, if_pos hlt]

theorem position_spec {captures : List (Ident × Node)} {capture : Ident × Node}
    (hmem : capture ∈ captures) :
    ∃ found, captures[position captures capture.1.name]? = some found ∧
      found.1.name = capture.1.name := by
  have hlt := position_lt hmem
  refine ⟨captures[position captures capture.1.name], List.getElem?_eq_getElem hlt, ?_⟩
  have hfound : (captures[position captures capture.1.name].1.name == capture.1.name) = true :=
    List.findIdx_getElem (w := hlt)
  simpa using hfound

/-- Where `capture_index` reports no error it answers as the environment tells. -/
theorem captureIndex_spec {bindings : Bindings} {ident : Ident} {v : Visitor} {env : Env}
    (h : Matches v env) (hrecorded : Recorded bindings v.captures)
    (hnone : (v.captureIndex bindings ident).2.errors = []) :
    (unbound bindings ident.name env = false ∧ v.captureIndex bindings ident = (none, v)) ∨
    (unbound bindings ident.name env = true ∧ env.globs = [] ∧ ∃ capture v',
      v.captureIndex bindings ident = (some (position v'.captures ident.name), v') ∧
        v'.scopes = v.scopes ∧ v'.globScopes = v.globScopes ∧ capture ∈ v'.captures ∧
        capture.1.name = ident.name ∧ Recorded bindings v'.captures) := by
  have hbound : (v.scopes.any fun scope => scope.contains ident.name) =
      env.bound.contains ident.name := by
    rw [Bool.eq_iff_iff, List.any_eq_true]
    simpa using h.bound ident.name
  simp only [Visitor.captureIndex, hbound] at hnone ⊢
  -- A name bound inside the constructor, or one the function does not bind, is left alone.
  by_cases hname : env.bound.contains ident.name = true
  · exact .inl ⟨by rw [unbound, hname]; simp, by simp only [hname, if_true]⟩
  · simp only [hname, Bool.false_eq_true, if_false] at hnone ⊢
    cases htypes : bindings.types ident.name with
    | none => exact .inl ⟨by simp [unbound, Bindings.containsKey, htypes], rfl⟩
    | some annotation =>
        simp only [htypes] at hnone ⊢
        -- Under a glob import, or without a type, the visitor reports an error.
        by_cases hglob : v.globScopes.any Option.isSome = true
        · simp [hglob, Visitor.reject] at hnone
        · simp only [hglob, Bool.false_eq_true, if_false] at hnone ⊢
          have hglobs : env.globs = [] := by
            by_contra hne
            exact hglob (List.any_eq_true.2 (h.globs.2 hne))
          cases annotation with
          | none => simp [Visitor.reject] at hnone
          | some ty =>
              refine .inr ⟨by rw [unbound, Bindings.containsKey, htypes]; simpa using hname, hglobs,
                ?_⟩
              -- A first occurrence is appended, so that earlier captures keep their places.
              cases hfind : v.captures.findIdx? fun capture => capture.1.name == ident.name with
              | some k =>
                  rcases List.findIdx?_eq_some_iff_getElem.1 hfind with ⟨hk, hmatches, _⟩
                  refine ⟨v.captures[k], v, ?_, rfl, rfl, List.getElem_mem hk,
                    by simpa using hmatches, hrecorded⟩
                  rw [List.findIdx?_eq_some_iff_findIdx_eq] at hfind
                  simp [position, hfind.2]
              | none =>
                  refine ⟨(ident, ty), { v with captures := v.captures ++ [(ident, ty)] }, ?_, rfl,
                    rfl, by simp, rfl, ?_, ?_⟩
                  · have hlast : position (v.captures ++ [(ident, ty)]) ident.name =
                        v.captures.length := by
                      rw [List.findIdx?_eq_none_iff_findIdx_eq] at hfind
                      rw [position, List.findIdx_append, hfind]
                      simp
                    rw [hlast]
                  · simp only [List.map_append, List.map_cons, List.map_nil]
                    refine List.nodup_append.2 ⟨hrecorded.nodup, by simp, ?_⟩
                    intro name hmem other hother heq
                    rcases List.mem_singleton.1 hother with rfl
                    rcases List.mem_map.1 hmem with ⟨capture, hcapture, rfl⟩
                    have hdiffers := List.findIdx?_eq_none_iff.1 hfind capture hcapture
                    simp [heq] at hdiffers
                  · intro capture hcapture
                    rcases List.mem_append.1 hcapture with hold | hnew
                    · exact hrecorded.typed capture hold
                    · rcases List.mem_singleton.1 hnew with rfl
                      exact htypes

/-! ## A visit without errors -/

/-- What a visit without errors has done, next to what `lexical` does in the environment. -/
structure Follows {α : Type} (bindings : Bindings) (visited : α × Visitor)
    (read : α × List (String × Env) × Env) : Prop where
  node : visited.1 = read.1
  stack : Matches visited.2 read.2.2
  recorded : Recorded bindings visited.2.captures
  sites : ∀ site ∈ read.2.1, unbound bindings site.1 site.2 = true ∧ site.2.globs = [] ∧
    ∃ capture ∈ visited.2.captures, capture.1.name = site.1

section Follows

variable {bindings : Bindings} {captures : List (Ident × Node)}

/-- A node whose children were visited in a scope of their own. -/
theorem Follows.scoped {visited : List Node × Visitor}
    {read : List Node × List (String × Env) × Env} (hall : Follows bindings visited read)
    {v v' : Visitor} {env : Env} (h : Matches v env)
    (hstack : v'.scopes = v.scopes ∧ v'.globScopes = v.globScopes)
    (hcaptures : v'.captures = visited.2.captures) (label : Label) :
    Follows bindings (Rose.node label visited.1, v') (.node label read.1, read.2.1, env) where
  node := by rw [hall.node]
  stack := h.of_scopes hstack.1 hstack.2
  recorded := hcaptures ▸ hall.recorded
  sites := hcaptures ▸ hall.sites

/-- A pattern bound after the children of its node. -/
theorem Follows.binding {visited : List Node × Visitor}
    {read : List Node × List (String × Env) × Env} (hall : Follows bindings visited read)
    (pat : Pat) (label : Label) :
    Follows bindings (Rose.node label visited.1, visited.2.bind pat)
      (.node label read.1, read.2.1, read.2.2.bind (patternNames pat).1) where
  node := by rw [hall.node]
  stack := hall.stack.bind pat
  recorded := (bind_captures visited.2 pat).symm ▸ hall.recorded
  sites := (bind_captures visited.2 pat).symm ▸ hall.sites

/-- One occurrence of a name: both readings keep it, or both replace it by the same capture. -/
theorem follows_occurrence {ident : Ident} (original : Node) (replaced : Nat → Node) {v : Visitor}
    {env : Env} (h : Matches v env) (hrecorded : Recorded bindings v.captures)
    (hnone : (match v.captureIndex bindings ident with
      | (some index, v) => (replaced index, v)
      | (none, v) => (original, v)).2.errors = [])
    (hfinal : (match v.captureIndex bindings ident with
      | (some index, v) => (replaced index, v)
      | (none, v) => (original, v)).2.captures <+: captures) :
    Follows bindings
      (match v.captureIndex bindings ident with
        | (some index, v) => (replaced index, v)
        | (none, v) => (original, v))
      (if unbound bindings ident.name env = true then
        (replaced (position captures ident.name), [(ident.name, env)], env)
      else (original, [], env)) := by
  have hindexed : (v.captureIndex bindings ident).2.errors = [] := by
    split at hnone
    · rename_i heq
      rw [heq]
      exact hnone
    · rename_i heq
      rw [heq]
      exact hnone
  rcases captureIndex_spec h hrecorded hindexed with
    ⟨hunbound, heq⟩ | ⟨hunbound, hglobs, capture, v', heq, hscopes, hglobScopes, hmem, hname,
      hrecorded'⟩
  · simp only [heq, hunbound, Bool.false_eq_true, if_false]
    exact ⟨rfl, h, hrecorded, by simp⟩
  · simp only [heq, hunbound, if_true] at hfinal ⊢
    refine ⟨?_, h.of_scopes hscopes hglobScopes, hrecorded', ?_⟩
    · -- Later captures do not move this one.
      rw [← hname, position_of_prefix hfinal hmem]
    · intro site hsite
      rcases List.mem_singleton.1 hsite with rfl
      exact ⟨hunbound, hglobs, capture, hmem, hname⟩

mutual

theorem visit_follows (node : Node) {v : Visitor} {env : Env} (h : Matches v env)
    (hrecorded : Recorded bindings v.captures) (hnone : (visit bindings node v).2.errors = [])
    (hfinal : (visit bindings node v).2.captures <+: captures) :
    Follows bindings (visit bindings node v)
      (lexical (unbound bindings) (position captures) node env) := by
  rcases node with ⟨⟨form, attrs, semi⟩, children⟩
  cases form with
  | path path =>
      cases hsingle : path.single with
      | none =>
          simp only [visit, lexical, hsingle]
          exact ⟨rfl, h, hrecorded, by simp⟩
      | some ident =>
          simp only [visit, lexical, hsingle] at hnone hfinal ⊢
          exact follows_occurrence _ (captureField attrs semi) h hrecorded hnone hfinal
  | shorthand ident =>
      simp only [visit, lexical] at hnone hfinal ⊢
      exact follows_occurrence _
        (fun index => .node ⟨.fieldValue (.named ident), attrs, semi⟩ [captureField [] false index]) h
        hrecorded hnone hfinal
  | invocation mac => simp [visit, Visitor.reject] at hnone
  | macroStmt mac => simp [visit, Visitor.reject] at hnone
  | verbatim tokens => simp [visit, Visitor.reject] at hnone
  | itemStmt item => exact ⟨rfl, h, hrecorded, by simp [lexical]⟩
  | type tokens => exact ⟨rfl, h, hrecorded, by simp [lexical]⟩
  | typePath path => exact ⟨rfl, h, hrecorded, by simp [lexical]⟩
  | typeInvocation mac => exact ⟨rfl, h, hrecorded, by simp [lexical]⟩
  | captureRoot => exact ⟨rfl, h, hrecorded, by simp [lexical]⟩
  | closure inputs =>
      simp only [visit, lexical] at hnone hfinal ⊢
      have hpushed := Extends.bindAll ((v.push []).pushGlob none) inputs
      have hall := visitAll_follows children (h.push.pushGlob.bindAll inputs)
        ((bindAll_captures _ inputs).symm ▸ hrecorded) hnone hfinal
      exact hall.scoped h
        (hpushed.trans (visitAll_extends bindings children _)).popGlob_scopes rfl _
  | forBody pat =>
      simp only [visit, lexical] at hnone hfinal ⊢
      have hpushed := Extends.bind (v.push []) pat
      have hextends := hpushed.trans (visitAll_extends bindings children _)
      have hall := visitAll_follows children (h.push.bind pat)
        ((bind_captures _ pat).symm ▸ hrecorded) hnone hfinal
      exact hall.scoped h ⟨hextends.pop_scopes, hextends.globScopes⟩ rfl _
  | arm pat =>
      simp only [visit, lexical] at hnone hfinal ⊢
      have hpushed := Extends.bind (v.push []) pat
      have hextends := hpushed.trans (visitAll_extends bindings children _)
      have hall := visitAll_follows children (h.push.bind pat)
        ((bind_captures _ pat).symm ▸ hrecorded) hnone hfinal
      exact hall.scoped h ⟨hextends.pop_scopes, hextends.globScopes⟩ rfl _
  | branch =>
      simp only [visit, lexical] at hnone hfinal ⊢
      have hextends := visitAll_extends bindings children (v.push [])
      have hall := visitAll_follows children h.push hrecorded hnone hfinal
      exact hall.scoped h ⟨hextends.pop_scopes, hextends.globScopes⟩ rfl _
  | letCond pat =>
      simp only [visit, lexical] at hnone hfinal ⊢
      have hbind := Extends.bind (visitAll bindings children v).2 pat
      have hall := visitAll_follows children h hrecorded (hbind.no_errors hnone)
        (hbind.captures.trans hfinal)
      exact hall.binding pat _
  | localStmt pat =>
      simp only [visit, lexical] at hnone hfinal ⊢
      have hbind := Extends.bind (visitAll bindings children v).2 pat
      have hall := visitAll_follows children h hrecorded (hbind.no_errors hnone)
        (hbind.captures.trans hfinal)
      exact hall.binding pat _
  | block =>
      simp only [visit, lexical] at hnone hfinal ⊢
      have hextends := visitAll_extends bindings children
        (((declare bindings (blockItems children) v).2.2.push
          (declare bindings (blockItems children) v).1).pushGlob
            (declare bindings (blockItems children) v).2.1)
      -- Declaring the items of a block changes nothing when it reports no error.
      have hdeclared : (declare bindings (blockItems children) v).2.2.errors = [] :=
        hextends.no_errors hnone
      have hunchanged : (declare bindings (blockItems children) v).2.2 = v :=
        (declare_spec hdeclared).1
      have hall := visitAll_follows children (h.declare hdeclared)
        (by rw [hunchanged]; exact hrecorded) hnone hfinal
      have hstack := hextends.popGlob_scopes
      exact hall.scoped h
        ⟨hstack.1.trans (by rw [hunchanged]), hstack.2.trans (by rw [hunchanged])⟩ rfl _
  | _ =>
      simp only [visit, lexical] at hnone hfinal ⊢
      have hall := visitAll_follows children h hrecorded hnone hfinal
      exact ⟨by rw [hall.node], hall.stack, hall.recorded, hall.sites⟩

theorem visitAll_follows (nodes : List Node) {v : Visitor} {env : Env} (h : Matches v env)
    (hrecorded : Recorded bindings v.captures)
    (hnone : (visitAll bindings nodes v).2.errors = [])
    (hfinal : (visitAll bindings nodes v).2.captures <+: captures) :
    Follows bindings (visitAll bindings nodes v)
      (lexicalAll (unbound bindings) (position captures) nodes env) := by
  cases nodes with
  | nil =>
      refine ⟨rfl, h, hrecorded, ?_⟩
      simp [lexicalAll]
  | cons node rest =>
      simp only [visitAll, lexicalAll] at hnone hfinal ⊢
      have hextends := visitAll_extends bindings rest (visit bindings node v).2
      have hnode := visit_follows node h hrecorded (hextends.no_errors hnone)
        (hextends.captures.trans hfinal)
      have hrest := visitAll_follows rest hnode.stack hnode.recorded hnone hfinal
      refine ⟨?_, hrest.stack, hrest.recorded, ?_⟩
      · rw [hnode.node, hrest.node]
      · intro site hsite
        rcases List.mem_append.1 hsite with hsite | hsite
        · rcases hnode.sites site hsite with ⟨hunbound, hglobs, capture, hcapture, hname⟩
          exact ⟨hunbound, hglobs, capture, hextends.captures.subset hcapture, hname⟩
        · exact hrest.sites site hsite

end

end Follows

end Captures
end Systasis
