import Systasis.Types.Tree

/-!
# Scope — the generics of a child's alias

Model of `scope_generics` in `child.rs`.  The visitor keeps the bound lifetimes in its state and
restores them by hand; what a tree mentions is defined beside it by passing them down.
-/

namespace Systasis
namespace Types

open Syntax (Ident)

/-! ## The visitor -/

/-- The sets of the visitor, as lists of what was inserted. -/
structure References where
  paths : List Ident
  lifetimes : List Ident
  boundLifetimes : List Ident

namespace References

def empty : References := ⟨[], [], []⟩

def contains (refs : References) : Param → Bool
  | .type ident _ _ | .const ident _ _ => refs.paths.contains ident
  | .lifetime name _ => refs.lifetimes.contains name

def bind (refs : References) (names : List Ident) : References :=
  { refs with boundLifetimes := names ++ refs.boundLifetimes }

/-- `visit_lifetime_mut` -/
def visitLifetime (refs : References) (name : Ident) : References :=
  if refs.boundLifetimes.contains name then refs
  else { refs with lifetimes := name :: refs.lifetimes }

def insertPath (refs : References) (ident : Option Ident) : References :=
  { refs with paths := ident.toList ++ refs.paths }

mutual

/-- The visit of a type, a bound or an expression. -/
def visit (refs : References) : Node → References
  | .node form cs =>
      match form with
      | .path _ leadingColon =>
          (if leadingColon then refs else refs.insertPath (firstSegment cs)).visitAll cs
      | .lifetime name | .lifetimeParam name => (refs.visitLifetime name).visitAll cs
      | .reference (some name) _ => (refs.visitLifetime name).visitAll cs
      | .traitBound _ _ | .fnPtr _ =>
          { (refs.bind (boundBy cs)).visitAll cs with boundLifetimes := refs.boundLifetimes }
      | _ => refs.visitAll cs

def visitAll (refs : References) : List Node → References
  | [] => refs
  | c :: cs => (refs.visit c).visitAll cs

end

/-- `visit_where_predicate_mut` -/
def visitPredicate (refs : References) : Predicate → References
  | .type binder bounded bounds =>
      { ((refs.bind (boundBy binder)).visitAll (binder ++ bounded :: bounds)) with
        boundLifetimes := refs.boundLifetimes }
  | .lifetime name bounds => bounds.foldl visitLifetime (refs.visitLifetime name)

end References

/-! ## `scope_generics` -/

/-- `removed.iter().any(|p| mentioned.contains(p))` -/
def mentionsAny (removed : List Param) (mentioned : References) : Bool :=
  removed.any mentioned.contains

/-- The inline bounds and the default of a selected parameter. -/
def pruneParam (removed : List Param) : Param → Param
  | .type ident bounds default =>
      .type ident (bounds.filter fun bound => !mentionsAny removed (References.empty.visit bound))
        (default.filter fun ty => !mentionsAny removed (References.empty.visit ty))
  | .lifetime name bounds =>
      .lifetime name
        (bounds.filter fun bound => !mentionsAny removed (References.empty.visitLifetime bound))
  | .const ident ty default =>
      .const ident ty
        (default.filter fun expr => !mentionsAny removed (References.empty.visit expr))

/-- Bounds of a type predicate are filtered one by one, then every predicate as a whole. -/
def prunePredicate (removed : List Param) : Predicate → Option Predicate
  | .type binder bounded bounds =>
      let kept := bounds.filter fun bound =>
        !mentionsAny removed ((References.empty.bind (boundBy binder)).visit bound)
      if kept.isEmpty then none
      else if mentionsAny removed (References.empty.visitPredicate (.type binder bounded kept)) then
        none
      else some (.type binder bounded kept)
  | predicate =>
      if mentionsAny removed (References.empty.visitPredicate predicate) then none
      else some predicate

def scopeGenerics (generics : Generics) (ty : Node) : Generics :=
  let references := References.empty.visit ty
  let removed := generics.params.filter fun p => !references.contains p
  { params := (generics.params.filter references.contains).map (pruneParam removed)
    whereClause :=
      (generics.whereClause.map fun predicates =>
          predicates.filterMap (prunePredicate removed)).filter
        fun predicates => !predicates.isEmpty }

/-! ## What a tree mentions -/

inductive Occurrence where
  | lifetime (name : Ident)
  /-- The first segment of a path without a leading `::`, and whether it is the whole path. -/
  | path (role : Role) (alone : Bool) (ident : Ident)
  deriving DecidableEq, Repr

/-- When two spellings are one name. -/
def sameName (a b : Ident) : Bool :=
  a.name == b.name

section Occurrences

variable (same : Ident → Ident → Bool)

/-- A lifetime that no enclosing binder introduces. -/
def freeLifetime (bound : List Ident) (name : Ident) : List Occurrence :=
  if bound.any (same name) then [] else [.lifetime name]

mutual

/-- What occurs free in a tree under the given binders, in the order of the source. -/
def occurrences (bound : List Ident) : Node → List Occurrence
  | .node form cs =>
      match form with
      | .path role leadingColon =>
          (if leadingColon then none else firstSegment cs).toList.map
              (.path role (cs.length = 1)) ++ occurrencesAll bound cs
      | .lifetime name | .lifetimeParam name =>
          freeLifetime same bound name ++ occurrencesAll bound cs
      | .reference (some name) _ => freeLifetime same bound name ++ occurrencesAll bound cs
      | .traitBound _ _ | .fnPtr _ => occurrencesAll (boundBy cs ++ bound) cs
      | _ => occurrencesAll bound cs

def occurrencesAll (bound : List Ident) : List Node → List Occurrence
  | [] => []
  | c :: cs => occurrences bound c ++ occurrencesAll bound cs

end

/-- The parts of a predicate that every one of its bounds depends on. -/
def headOccurrences : Predicate → List Occurrence
  | .type binder bounded _ => occurrencesAll same (boundBy binder) (binder ++ [bounded])
  | .lifetime name _ => freeLifetime same [] name

def predicateOccurrences : Predicate → List Occurrence
  | .type binder bounded bounds =>
      occurrencesAll same (boundBy binder) (binder ++ bounded :: bounds)
  | .lifetime name bounds => (name :: bounds).flatMap (freeLifetime same [])

/-- The inline bounds and the default of a parameter. -/
def paramOccurrences : Param → List Occurrence
  | .type _ bounds default => occurrencesAll same [] (bounds ++ default.toList)
  | .lifetime _ bounds => bounds.flatMap (freeLifetime same [])
  | .const _ _ default => occurrencesAll same [] default.toList

end Occurrences

/-- The occurrence carries the name of the parameter, whatever it is looked up as. -/
def Occurrence.names (same : Ident → Ident → Bool) : Occurrence → Param → Bool
  | .path _ _ ident, .type param _ _ | .path _ _ ident, .const param _ _ => same ident param
  | .lifetime name, .lifetime param _ => same name param
  | _, _ => false

/-- The occurrence is looked up as the parameter: types and constants have namespaces of their own,
and a constant among generic arguments is written like a type. -/
def Occurrence.denotes : Occurrence → Param → Bool
  | .path .type _ ident, .type param _ _ => sameName ident param
  | .path .value alone ident, .type param _ _ => !alone && sameName ident param
  | .path .type alone ident, .const param _ _ | .path .value alone ident, .const param _ _ =>
      alone && sameName ident param
  | .lifetime name, .lifetime param _ => sameName name param
  | _, _ => false

/-! ## What the visitor collects -/

/-- The visitor's reaction to an occurrence. -/
def References.note (refs : References) : Occurrence → References
  | .lifetime name => { refs with lifetimes := name :: refs.lifetimes }
  | .path _ _ ident => { refs with paths := ident :: refs.paths }

theorem References.note_boundLifetimes (refs : References) (os : List Occurrence) :
    (os.foldl note refs).boundLifetimes = refs.boundLifetimes := by
  induction os generalizing refs with
  | nil => rfl
  | cons o os ih =>
      rw [List.foldl_cons, ih]
      cases o <;> rfl

theorem References.note_bind (refs : References) (os : List Occurrence) (names : List Ident) :
    { os.foldl note (refs.bind names) with boundLifetimes := refs.boundLifetimes } =
      os.foldl note refs := by
  induction os generalizing refs with
  | nil => rfl
  | cons o os ih =>
      cases o with
      | lifetime name => exact ih { refs with lifetimes := name :: refs.lifetimes }
      | path role alone ident => exact ih { refs with paths := ident :: refs.paths }

/-- Identifiers are compared as they are spelled. -/
def sameSpelling (a b : Ident) : Bool :=
  a == b

theorem References.visitLifetime_eq (refs : References) (name : Ident) :
    refs.visitLifetime name =
      (freeLifetime sameSpelling refs.boundLifetimes name).foldl note refs := by
  have hany : refs.boundLifetimes.any (sameSpelling name) = refs.boundLifetimes.contains name :=
    (List.contains_eq_any_beq).symm
  rw [visitLifetime, freeLifetime, hany]
  split <;> rfl

mutual

/-- The visitor collects what occurs free under the lifetimes bound where it starts. -/
theorem References.visit_eq (refs : References) (t : Node) :
    refs.visit t = (occurrences sameSpelling refs.boundLifetimes t).foldl note refs := by
  cases t with
  | node form cs =>
      cases form with
      | path role leadingColon =>
          cases leadingColon with
          | true => exact visitAll_eq refs cs
          | false =>
              simp only [visit, occurrences]
              cases firstSegment cs with
              | none => exact visitAll_eq refs cs
              | some ident => exact visitAll_eq (refs.insertPath (some ident)) cs
      | lifetime name =>
          rw [visit, visitLifetime_eq, visitAll_eq _ cs, note_boundLifetimes, occurrences,
            List.foldl_append]
      | lifetimeParam name =>
          rw [visit, visitLifetime_eq, visitAll_eq _ cs, note_boundLifetimes, occurrences,
            List.foldl_append]
      | reference written mutable =>
          cases written with
          | none => exact visitAll_eq refs cs
          | some name =>
              rw [visit, visitLifetime_eq, visitAll_eq _ cs, note_boundLifetimes, occurrences,
                List.foldl_append]
      | traitBound parens modifiers =>
          rw [visit, visitAll_eq _ cs, note_bind, occurrences]
          rfl
      | fnPtr qualifiers =>
          rw [visit, visitAll_eq _ cs, note_bind, occurrences]
          rfl
      | _ => exact visitAll_eq refs cs

theorem References.visitAll_eq (refs : References) (cs : List Node) :
    refs.visitAll cs = (occurrencesAll sameSpelling refs.boundLifetimes cs).foldl note refs := by
  cases cs with
  | nil => rfl
  | cons c cs =>
      rw [visitAll, visit_eq refs c, visitAll_eq _ cs, note_boundLifetimes, occurrencesAll,
        List.foldl_append]

end

theorem References.visitPredicate_eq (predicate : Predicate) :
    References.empty.visitPredicate predicate =
      (predicateOccurrences sameSpelling predicate).foldl note References.empty := by
  cases predicate with
  | type binder bounded bounds =>
      rw [visitPredicate, visitAll_eq, note_bind, predicateOccurrences]
      simp [bind, empty]
  | lifetime name bounds =>
      have hbounds : ∀ refs : References, refs.boundLifetimes = [] →
          bounds.foldl visitLifetime refs =
            (bounds.flatMap (freeLifetime sameSpelling [])).foldl note refs := by
        induction bounds with
        | nil => exact fun _ _ => rfl
        | cons bound bounds ih =>
            intro refs hrefs
            have hnone : (refs.visitLifetime bound).boundLifetimes = [] := by
              rw [visitLifetime_eq, note_boundLifetimes, hrefs]
            rw [List.foldl_cons, ih _ hnone, visitLifetime_eq, hrefs, List.flatMap_cons,
              List.foldl_append]
      rw [visitPredicate, visitLifetime_eq, hbounds _ (note_boundLifetimes _ _),
        predicateOccurrences, List.flatMap_cons, List.foldl_append]
      rfl

theorem contains_cons (ident param : Ident) (idents : List Ident) :
    (ident :: idents).contains param = (idents.contains param || sameSpelling ident param) := by
  rw [List.contains_cons, Bool.or_comm, sameSpelling, Bool.beq_comm]

/-- Asking the visitor for a parameter is asking the occurrences. -/
theorem References.contains_note (refs : References) (os : List Occurrence) (p : Param) :
    (os.foldl note refs).contains p =
      (refs.contains p || os.any fun o => o.names sameSpelling p) := by
  induction os generalizing refs with
  | nil => simp
  | cons o os ih =>
      have hnote : (refs.note o).contains p = (refs.contains p || o.names sameSpelling p) := by
        cases o <;> cases p <;>
          simp only [note, contains, Occurrence.names, contains_cons, Bool.or_false]
      rw [List.foldl_cons, ih, hnote, List.any_cons, Bool.or_assoc]

theorem References.contains_bind (names : List Ident) (os : List Occurrence) (p : Param) :
    (os.foldl note (empty.bind names)).contains p =
      os.any fun o => o.names sameSpelling p := by
  rw [contains_note]
  cases p <;> rfl

/-! ## The restriction -/

section Restriction

variable (same : Ident → Ident → Bool) (refers : Occurrence → Param → Bool)

/-- The parameter occurs in the type. -/
def selects (ty : Node) (p : Param) : Bool :=
  (occurrences same [] ty).any fun o => refers o p

def removed (g : Generics) (ty : Node) : List Param :=
  g.params.filter fun p => !selects same refers ty p

/-- No removed parameter is among the occurrences. -/
def clean (g : Generics) (ty : Node) (os : List Occurrence) : Bool :=
  os.all fun o => (removed same refers g ty).all fun p => !refers o p

/-- The parameter with the bounds and the default that pass. -/
def Param.keeping (pass : List Occurrence → Bool) : Param → Param
  | .type ident bounds default =>
      .type ident (bounds.filter fun bound => pass (occurrences same [] bound))
        (default.filter fun ty => pass (occurrences same [] ty))
  | .lifetime name bounds =>
      .lifetime name (bounds.filter fun bound => pass (freeLifetime same [] bound))
  | .const ident ty default =>
      .const ident ty (default.filter fun expr => pass (occurrences same [] expr))

/-- The predicate with the bounds that pass; without any, or when what they bound does not pass,
there is none. -/
def Predicate.keeping (pass : List Occurrence → Bool) : Predicate → Option Predicate
  | .type binder bounded bounds =>
      let kept := bounds.filter fun bound => pass (occurrences same (boundBy binder) bound)
      if !kept.isEmpty && pass (headOccurrences same (.type binder bounded kept)) then
        some (.type binder bounded kept)
      else none
  | .lifetime name bounds =>
      if pass (predicateOccurrences same (.lifetime name bounds)) then some (.lifetime name bounds)
      else none

def restrict (g : Generics) (ty : Node) : Generics where
  params := (g.params.filter (selects same refers ty)).map
    (Param.keeping same (clean same refers g ty))
  whereClause :=
    (g.whereClause.map fun predicates =>
      predicates.filterMap (Predicate.keeping same (clean same refers g ty))).filter
        fun predicates => !predicates.isEmpty

end Restriction

theorem clean_append {same : Ident → Ident → Bool} {refers : Occurrence → Param → Bool}
    {g : Generics} {ty : Node} (os os' : List Occurrence) :
    clean same refers g ty (os ++ os') =
      (clean same refers g ty os && clean same refers g ty os') :=
  List.all_append

theorem occurrencesAll_append (same : Ident → Ident → Bool) (bound : List Ident)
    (cs cs' : List Node) :
    occurrencesAll same bound (cs ++ cs') =
      occurrencesAll same bound cs ++ occurrencesAll same bound cs' := by
  induction cs with
  | nil => rfl
  | cons c cs ih => rw [List.cons_append, occurrencesAll, occurrencesAll, ih, List.append_assoc]

/-- `occurrencesAll` of trees that all pass passes. -/
theorem clean_all {same : Ident → Ident → Bool} {refers : Occurrence → Param → Bool}
    {g : Generics} {ty : Node} {bound : List Ident} {cs : List Node}
    (h : ∀ c ∈ cs, clean same refers g ty (occurrences same bound c) = true) :
    clean same refers g ty (occurrencesAll same bound cs) = true := by
  induction cs with
  | nil => rfl
  | cons c cs ih =>
      rw [occurrencesAll, clean_append, h c List.mem_cons_self,
        ih fun c' hc' => h c' (List.mem_cons_of_mem _ hc')]
      rfl

/-- A predicate whose bounds all pass passes when what they bound does. -/
theorem clean_predicate {same : Ident → Ident → Bool} {refers : Occurrence → Param → Bool}
    {g : Generics} {ty : Node} {binder : List Node} {bounded : Node} {bounds : List Node}
    (h : ∀ bound ∈ bounds,
      clean same refers g ty (occurrences same (boundBy binder) bound) = true) :
    clean same refers g ty (predicateOccurrences same (.type binder bounded bounds)) =
      clean same refers g ty (headOccurrences same (.type binder bounded bounds)) := by
  have hsplit : binder ++ bounded :: bounds = (binder ++ [bounded]) ++ bounds := by simp
  rw [predicateOccurrences, hsplit, occurrencesAll_append, clean_append, clean_all h,
    Bool.and_true, headOccurrences]

section Spelling

variable (g : Generics) (ty : Node)

theorem contains_eq_selects :
    (References.empty.visit ty).contains =
      selects sameSpelling (Occurrence.names sameSpelling) ty := by
  funext p
  rw [References.visit_eq]
  exact References.contains_bind [] _ p

theorem mentionsAny_eq (names : List Ident) (os : List Occurrence) :
    (!mentionsAny (removed sameSpelling (Occurrence.names sameSpelling) g ty)
        (os.foldl References.note (References.empty.bind names))) =
      clean sameSpelling (Occurrence.names sameSpelling) g ty os := by
  rw [Bool.eq_iff_iff]
  simp only [mentionsAny, clean, References.contains_bind, Bool.not_eq_true', List.any_eq_false,
    List.all_eq_true, Bool.not_eq_true]
  constructor
  · intro h o ho p hp
    exact h p hp o ho
  · intro h p hp o ho
    exact h o ho p hp

theorem mentionsAny_visit (names : List Ident) (t : Node) :
    (!mentionsAny (removed sameSpelling (Occurrence.names sameSpelling) g ty)
        ((References.empty.bind names).visit t)) =
      clean sameSpelling (Occurrence.names sameSpelling) g ty
        (occurrences sameSpelling names t) := by
  rw [References.visit_eq, mentionsAny_eq]
  simp [References.bind, References.empty]

theorem mentionsAny_visitLifetime (name : Ident) :
    (!mentionsAny (removed sameSpelling (Occurrence.names sameSpelling) g ty)
        (References.empty.visitLifetime name)) =
      clean sameSpelling (Occurrence.names sameSpelling) g ty
        (freeLifetime sameSpelling [] name) := by
  rw [References.visitLifetime_eq]
  exact mentionsAny_eq g ty [] _

theorem pruneParam_eq (p : Param) :
    pruneParam (removed sameSpelling (Occurrence.names sameSpelling) g ty) p =
      p.keeping sameSpelling (clean sameSpelling (Occurrence.names sameSpelling) g ty) := by
  have hvisit := mentionsAny_visit g ty []
  cases p with
  | type ident bounds default =>
      simp only [pruneParam, Param.keeping]
      congr 2 <;> funext t <;> exact hvisit t
  | lifetime name bounds =>
      simp only [pruneParam, Param.keeping, mentionsAny_visitLifetime]
  | const ident ty' default =>
      simp only [pruneParam, Param.keeping]
      congr 2
      funext t
      exact hvisit t

theorem prunePredicate_eq (q : Predicate) :
    prunePredicate (removed sameSpelling (Occurrence.names sameSpelling) g ty) q =
      q.keeping sameSpelling (clean sameSpelling (Occurrence.names sameSpelling) g ty) := by
  have hpredicate : ∀ q : Predicate,
      mentionsAny (removed sameSpelling (Occurrence.names sameSpelling) g ty)
          (References.empty.visitPredicate q) =
        !clean sameSpelling (Occurrence.names sameSpelling) g ty
          (predicateOccurrences sameSpelling q) := by
    intro q
    rw [References.visitPredicate_eq, ← mentionsAny_eq g ty [], Bool.not_not]
    rfl
  cases q with
  | type binder bounded bounds =>
      simp only [prunePredicate, Predicate.keeping, mentionsAny_visit, hpredicate]
      -- The bounds that are left pass, so the predicate does when its head does.
      rw [clean_predicate fun bound hbound => (List.mem_filter.1 hbound).2]
      generalize bounds.filter _ = kept
      cases kept.isEmpty <;>
        cases clean sameSpelling (Occurrence.names sameSpelling) g ty
          (headOccurrences sameSpelling (.type binder bounded kept)) <;>
        rfl
  | lifetime name bounds =>
      simp only [prunePredicate, Predicate.keeping, hpredicate]
      cases clean sameSpelling (Occurrence.names sameSpelling) g ty
        (predicateOccurrences sameSpelling (.lifetime name bounds)) <;> rfl

/-- `scope_generics` restricts by the spelling of identifiers. -/
theorem scopeGenerics_eq :
    scopeGenerics g ty = restrict sameSpelling (Occurrence.names sameSpelling) g ty := by
  simp only [scopeGenerics, restrict, contains_eq_selects]
  congr 2
  · funext p
    exact pruneParam_eq g ty p
  · congr 2
    funext predicates
    congr 1
    funext q
    exact prunePredicate_eq g ty q

end Spelling

/-! ## Spellings -/

/-- The parameter is named among the occurrences. -/
def mentioned (same : Ident → Ident → Bool) (p : Param) (os : List Occurrence) : Bool :=
  os.any fun o => o.names same p

/-- Everything written where a type, a value or a lifetime is looked up or bound: no binder hides
a lifetime here. -/
def written (g : Generics) (ty : Node) : List Occurrence :=
  occurrences (fun _ _ => false) [] ty ++
    (g.params.flatMap (paramOccurrences fun _ _ => false) ++
      g.predicates.flatMap (predicateOccurrences fun _ _ => false))

/-- What carries the name of the parameter is written as the parameter is, raw or not. -/
def Occurrence.Spells (p : Param) (o : Occurrence) : Prop :=
  o.names sameName p = true → o.names sameSpelling p = true

instance (p : Param) (o : Occurrence) : Decidable (o.Spells p) :=
  inferInstanceAs (Decidable (o.names sameName p = true → o.names sameSpelling p = true))

/-- The name of a parameter is written one way, its own. -/
def Spelled (g : Generics) (ty : Node) : Prop :=
  ∀ p ∈ g.params, ∀ o ∈ written g ty, o.Spells p

instance (g : Generics) (ty : Node) : Decidable (Spelled g ty) :=
  inferInstanceAs (Decidable (∀ p ∈ g.params, ∀ o ∈ written g ty, o.Spells p))

theorem occurrencesAll_eq (same : Ident → Ident → Bool) (bound : List Ident) (cs : List Node) :
    occurrencesAll same bound cs = cs.flatMap (occurrences same bound) := by
  induction cs with
  | nil => rfl
  | cons c cs ih => rw [occurrencesAll, ih, List.flatMap_cons]

theorem sameName_of_sameSpelling {a b : Ident} (h : sameSpelling a b = true) :
    sameName a b = true := by
  rw [beq_iff_eq.1 h]
  exact beq_self_eq_true b.name

theorem Occurrence.Spells.names_eq {p : Param} {o : Occurrence} (h : o.Spells p) :
    o.names sameSpelling p = o.names sameName p := by
  rw [Bool.eq_iff_iff]
  refine ⟨?_, h⟩
  cases o <;> cases p <;> first | exact id | exact sameName_of_sameSpelling

/-- What a binder introduces is written in it. -/
theorem boundBy_written {cs : List Node} {name : Ident} (h : name ∈ boundBy cs)
    (bound : List Ident) :
    .lifetime name ∈ occurrencesAll (fun _ _ => false) bound cs := by
  rcases List.mem_flatMap.1 h with ⟨binder, hbinder, hparam⟩
  rcases List.mem_filterMap.1 hparam with ⟨⟨form, bounds⟩, hmem, hform⟩
  rcases List.mem_filter.1 hbinder with ⟨hbinder, hkind⟩
  rcases binder with ⟨kind, params⟩
  cases form with
  | lifetimeParam declared =>
      cases hform
      have hdeclared : .lifetime name ∈
          occurrences (fun _ _ => false) bound (.node (.lifetimeParam name) bounds) := by
        simp [occurrences, freeLifetime]
      have hparams : .lifetime name ∈ occurrencesAll (fun _ _ => false) bound params := by
        rw [occurrencesAll_eq]
        exact List.mem_flatMap.2 ⟨_, hmem, hdeclared⟩
      rw [occurrencesAll_eq]
      obtain rfl : kind = .binder := of_decide_eq_true hkind
      exact List.mem_flatMap.2 ⟨_, hbinder, by simpa only [occurrences] using hparams⟩
  | _ => cases hform

theorem mentioned_append {same : Ident → Ident → Bool} {p : Param} (os os' : List Occurrence) :
    mentioned same p (os ++ os') = (mentioned same p os || mentioned same p os') :=
  List.any_append

section Congruence

variable {p : Param}

theorem mentioned_congr {os : List Occurrence} (h : ∀ o ∈ os, o.Spells p) :
    mentioned sameSpelling p os = mentioned sameName p os := by
  rw [Bool.eq_iff_iff, mentioned, mentioned, List.any_eq_true, List.any_eq_true]
  exact exists_congr fun o => and_congr_right fun ho => by rw [(h o ho).names_eq]

theorem mentioned_freeLifetime_congr {bound : List Ident} {name : Ident}
    (hbound : ∀ i ∈ bound, (Occurrence.lifetime i).Spells p)
    (hname : (Occurrence.lifetime name).Spells p) :
    mentioned sameSpelling p (freeLifetime sameSpelling bound name) =
      mentioned sameName p (freeLifetime sameName bound name) := by
  by_cases hnames : (Occurrence.lifetime name).names sameName p = true
  · -- A binder that has the name of the parameter has its spelling.
    have hany : bound.any (sameSpelling name) = bound.any (sameName name) := by
      rw [Bool.eq_iff_iff, List.any_eq_true, List.any_eq_true]
      refine exists_congr fun i => and_congr_right fun hi => ⟨sameName_of_sameSpelling, ?_⟩
      intro hsame
      cases p with
      | lifetime param bounds =>
          have hparam : name = param := beq_iff_eq.1 (hname hnames)
          have hi' : i = param := by
            apply beq_iff_eq.1
            apply hbound i hi
            rw [Occurrence.names, ← hparam, sameName, Bool.beq_comm]
            exact hsame
          rw [hparam, hi']
          exact beq_self_eq_true param
      | _ => cases hnames
    rw [freeLifetime, hany, freeLifetime]
    split
    · rfl
    · exact mentioned_congr fun o ho => by rwa [List.mem_singleton.1 ho]
  · -- Neither list names the parameter.
    have hnone : ∀ same : Ident → Ident → Bool,
        mentioned sameName p (freeLifetime same bound name) = false := by
      intro same
      rw [freeLifetime]
      split
      · rfl
      · simpa [mentioned] using hnames
    rw [hnone, mentioned_congr, hnone]
    intro o ho
    rw [freeLifetime] at ho
    split at ho
    · cases ho
    · rwa [List.mem_singleton.1 ho]

/-- Where the name of a parameter is written one way, spelling decides whether it occurs. -/
theorem mentioned_occurrences_congr (t : Node) {bound : List Ident}
    (hbound : ∀ i ∈ bound, (Occurrence.lifetime i).Spells p)
    (ht : ∀ o ∈ occurrences (fun _ _ => false) bound t, o.Spells p) :
    mentioned sameSpelling p (occurrences sameSpelling bound t) =
      mentioned sameName p (occurrences sameName bound t) := by
  induction t using Rose.induct generalizing bound with
  | node form cs ih =>
      have hchildren : ∀ {bound : List Ident},
          (∀ i ∈ bound, (Occurrence.lifetime i).Spells p) →
          (∀ o ∈ occurrencesAll (fun _ _ => false) bound cs, o.Spells p) →
          mentioned sameSpelling p (occurrencesAll sameSpelling bound cs) =
            mentioned sameName p (occurrencesAll sameName bound cs) := by
        intro bound hbound hcs
        rw [occurrencesAll_eq] at hcs
        rw [occurrencesAll_eq, occurrencesAll_eq, mentioned, mentioned, List.any_flatMap,
          List.any_flatMap, Bool.eq_iff_iff, List.any_eq_true, List.any_eq_true]
        refine exists_congr fun c => and_congr_right fun hc => ?_
        rw [← Bool.eq_iff_iff]
        exact ih c hc hbound fun o ho => hcs o (List.mem_flatMap.2 ⟨c, hc, ho⟩)
      have hbinder : (∀ o ∈ occurrencesAll (fun _ _ => false) (boundBy cs ++ bound) cs,
          o.Spells p) → ∀ i ∈ boundBy cs ++ bound, (Occurrence.lifetime i).Spells p := by
        intro hcs i hi
        rcases List.mem_append.1 hi with hi | hi
        · exact hcs _ (boundBy_written hi _)
        · exact hbound i hi
      have hlifetime : ∀ name, (∀ o ∈ freeLifetime (fun _ _ => false) bound name ++
            occurrencesAll (fun _ _ => false) bound cs, o.Spells p) →
          mentioned sameSpelling p (freeLifetime sameSpelling bound name ++
              occurrencesAll sameSpelling bound cs) =
            mentioned sameName p (freeLifetime sameName bound name ++
              occurrencesAll sameName bound cs) := by
        intro name ho
        rw [List.forall_mem_append] at ho
        have hname : (Occurrence.lifetime name).Spells p := ho.1 _ (by simp [freeLifetime])
        rw [mentioned_append, mentioned_append, mentioned_freeLifetime_congr hbound hname,
          hchildren hbound ho.2]
      cases form with
      | path role leadingColon =>
          rw [occurrences, List.forall_mem_append] at ht
          rw [occurrences, occurrences, mentioned_append, mentioned_append,
            mentioned_congr ht.1, hchildren hbound ht.2]
      | lifetime name => exact hlifetime name ht
      | lifetimeParam name => exact hlifetime name ht
      | reference written mutable =>
          cases written with
          | none => exact hchildren hbound ht
          | some name => exact hlifetime name ht
      | traitBound parens modifiers => exact hchildren (hbinder ht) ht
      | fnPtr qualifiers => exact hchildren (hbinder ht) ht
      | _ => exact hchildren hbound ht

theorem mentioned_occurrencesAll_congr {cs : List Node} {bound : List Ident}
    (hbound : ∀ i ∈ bound, (Occurrence.lifetime i).Spells p)
    (hcs : ∀ o ∈ occurrencesAll (fun _ _ => false) bound cs, o.Spells p) :
    mentioned sameSpelling p (occurrencesAll sameSpelling bound cs) =
      mentioned sameName p (occurrencesAll sameName bound cs) := by
  induction cs with
  | nil => rfl
  | cons c cs ih =>
      rw [occurrencesAll, List.forall_mem_append] at hcs
      rw [occurrencesAll, occurrencesAll, mentioned_append, mentioned_append, ih hcs.2,
        mentioned_occurrences_congr c hbound hcs.1]

theorem mentioned_lifetimes_congr {names : List Ident}
    (h : ∀ o ∈ names.flatMap (freeLifetime (fun _ _ => false) []), o.Spells p) :
    mentioned sameSpelling p (names.flatMap (freeLifetime sameSpelling [])) =
      mentioned sameName p (names.flatMap (freeLifetime sameName [])) := by
  induction names with
  | nil => rfl
  | cons name names ih =>
      rw [List.flatMap_cons, List.forall_mem_append] at h
      have hname : (Occurrence.lifetime name).Spells p := h.1 _ (by simp [freeLifetime])
      rw [List.flatMap_cons, List.flatMap_cons, mentioned_append, mentioned_append, ih h.2,
        mentioned_freeLifetime_congr (fun _ hi => absurd hi List.not_mem_nil) hname]

end Congruence

section Agreement

variable {g : Generics} {ty : Node}

theorem clean_eq_true {same : Ident → Ident → Bool} {os : List Occurrence} :
    clean same (Occurrence.names same) g ty os = true ↔
      ∀ p ∈ removed same (Occurrence.names same) g ty, mentioned same p os = false := by
  simp only [clean, mentioned, List.all_eq_true, List.any_eq_false, Bool.not_eq_true',
    Bool.not_eq_true]
  exact ⟨fun h p hp o ho => h o ho p hp, fun h o ho p hp => h p hp o ho⟩

variable (h : Spelled g ty)

include h

theorem selects_congr {p : Param} (hp : p ∈ g.params) :
    selects sameSpelling (Occurrence.names sameSpelling) ty p =
      selects sameName (Occurrence.names sameName) ty p :=
  mentioned_occurrences_congr ty (fun _ hi => absurd hi List.not_mem_nil) fun o ho =>
    h p hp o (List.mem_append_left _ ho)

theorem removed_congr :
    removed sameSpelling (Occurrence.names sameSpelling) g ty =
      removed sameName (Occurrence.names sameName) g ty := by
  apply List.filter_congr
  intro p hp
  rw [selects_congr h hp]

/-- The two notions agree on occurrences in which they find the same parameters. -/
theorem clean_congr {os os' : List Occurrence}
    (hos : ∀ p ∈ g.params, mentioned sameSpelling p os = mentioned sameName p os') :
    clean sameSpelling (Occurrence.names sameSpelling) g ty os =
      clean sameName (Occurrence.names sameName) g ty os' := by
  rw [Bool.eq_iff_iff, clean_eq_true, clean_eq_true, removed_congr h]
  exact forall₂_congr fun p hp => by rw [hos p (List.mem_filter.1 hp).1]

theorem clean_occurrences_congr {t : Node} {bound : List Ident}
    (hbound : ∀ i ∈ bound, Occurrence.lifetime i ∈ written g ty)
    (ht : occurrences (fun _ _ => false) bound t ⊆ written g ty) :
    clean sameSpelling (Occurrence.names sameSpelling) g ty (occurrences sameSpelling bound t) =
      clean sameName (Occurrence.names sameName) g ty (occurrences sameName bound t) :=
  clean_congr h fun p hp =>
    mentioned_occurrences_congr t (fun i hi => h p hp _ (hbound i hi)) fun o ho => h p hp o (ht ho)

theorem clean_occurrencesAll_congr {cs : List Node} {bound : List Ident}
    (hbound : ∀ i ∈ bound, Occurrence.lifetime i ∈ written g ty)
    (hcs : occurrencesAll (fun _ _ => false) bound cs ⊆ written g ty) :
    clean sameSpelling (Occurrence.names sameSpelling) g ty
        (occurrencesAll sameSpelling bound cs) =
      clean sameName (Occurrence.names sameName) g ty (occurrencesAll sameName bound cs) :=
  clean_congr h fun p hp =>
    mentioned_occurrencesAll_congr (fun i hi => h p hp _ (hbound i hi)) fun o ho =>
      h p hp o (hcs ho)

theorem clean_lifetimes_congr (names : List Ident)
    (hnames : names.flatMap (freeLifetime (fun _ _ => false) []) ⊆ written g ty) :
    clean sameSpelling (Occurrence.names sameSpelling) g ty
        (names.flatMap (freeLifetime sameSpelling [])) =
      clean sameName (Occurrence.names sameName) g ty (names.flatMap (freeLifetime sameName [])) :=
  clean_congr h fun p hp => mentioned_lifetimes_congr fun o ho => h p hp o (hnames ho)

theorem filter_clean_congr (bounds : List Node) (default : Option Node) {bound : List Ident}
    (hbound : ∀ i ∈ bound, Occurrence.lifetime i ∈ written g ty)
    (hnodes : occurrencesAll (fun _ _ => false) bound (bounds ++ default.toList) ⊆ written g ty) :
    (bounds.filter fun b => clean sameSpelling (Occurrence.names sameSpelling) g ty
        (occurrences sameSpelling bound b)) =
      (bounds.filter fun b => clean sameName (Occurrence.names sameName) g ty
        (occurrences sameName bound b)) ∧
    (default.filter fun t => clean sameSpelling (Occurrence.names sameSpelling) g ty
        (occurrences sameSpelling bound t)) =
      default.filter fun t => clean sameName (Occurrence.names sameName) g ty
        (occurrences sameName bound t) := by
  have hclean : ∀ t ∈ bounds ++ default.toList,
      clean sameSpelling (Occurrence.names sameSpelling) g ty (occurrences sameSpelling bound t) =
        clean sameName (Occurrence.names sameName) g ty (occurrences sameName bound t) := by
    intro t ht
    apply clean_occurrences_congr h hbound
    intro o ho
    rw [occurrencesAll_eq] at hnodes
    exact hnodes (List.mem_flatMap.2 ⟨t, ht, ho⟩)
  constructor
  · exact List.filter_congr fun b hb => hclean b (List.mem_append_left _ hb)
  · cases default with
    | none => rfl
    | some t => simp only [Option.filter, hclean t (by simp)]

theorem Param.keeping_congr {p : Param} (hp : p ∈ g.params) :
    p.keeping sameSpelling (clean sameSpelling (Occurrence.names sameSpelling) g ty) =
      p.keeping sameName (clean sameName (Occurrence.names sameName) g ty) := by
  have hwritten : paramOccurrences (fun _ _ => false) p ⊆ written g ty := fun o ho =>
    List.mem_append_right _ (List.mem_append_left _ (List.mem_flatMap.2 ⟨p, hp, ho⟩))
  cases p with
  | lifetime name bounds =>
      simp only [Param.keeping]
      congr 1
      apply List.filter_congr
      intro bound hbound
      have hone := clean_lifetimes_congr h [bound] fun o ho =>
        hwritten (List.mem_flatMap.2 ⟨bound, hbound, by simpa using ho⟩)
      simpa using hone
  | type ident bounds default =>
      have hnodes := filter_clean_congr h bounds default
        (fun _ hi => absurd hi List.not_mem_nil) hwritten
      simp only [Param.keeping, hnodes.1, hnodes.2]
  | const ident ty' default =>
      have hnodes := filter_clean_congr h [] default
        (fun _ hi => absurd hi List.not_mem_nil) hwritten
      simp only [Param.keeping, hnodes.2]

theorem Predicate.keeping_congr {q : Predicate} (hq : q ∈ g.predicates) :
    q.keeping sameSpelling (clean sameSpelling (Occurrence.names sameSpelling) g ty) =
      q.keeping sameName (clean sameName (Occurrence.names sameName) g ty) := by
  have hwritten : predicateOccurrences (fun _ _ => false) q ⊆ written g ty := fun o ho =>
    List.mem_append_right _ (List.mem_append_right _ (List.mem_flatMap.2 ⟨q, hq, ho⟩))
  cases q with
  | type binder bounded bounds =>
      have hsplit : binder ++ bounded :: bounds = (binder ++ [bounded]) ++ bounds := by simp
      rw [predicateOccurrences, hsplit, occurrencesAll_append, List.append_subset] at hwritten
      have hbinder : ∀ i ∈ boundBy binder, Occurrence.lifetime i ∈ written g ty := by
        intro i hi
        apply hwritten.1
        rw [occurrencesAll_append]
        exact List.mem_append_left _ (boundBy_written hi _)
      have hbounds := filter_clean_congr h bounds none hbinder (by simpa using hwritten.2)
      simp only [Predicate.keeping, hbounds.1, headOccurrences,
        clean_occurrencesAll_congr h hbinder hwritten.1]
      rfl
  | lifetime name bounds =>
      have hclean := clean_lifetimes_congr h _ hwritten
      simp only [Predicate.keeping, predicateOccurrences, hclean]
      rfl

theorem kept_params_congr :
    (g.params.filter (selects sameSpelling (Occurrence.names sameSpelling) ty)).map
        (Param.keeping sameSpelling (clean sameSpelling (Occurrence.names sameSpelling) g ty)) =
      (g.params.filter (selects sameName (Occurrence.names sameName) ty)).map
        (Param.keeping sameName (clean sameName (Occurrence.names sameName) g ty)) := by
  rw [List.filter_congr fun p hp => selects_congr h hp]
  apply List.map_congr_left
  intro p hp
  exact Param.keeping_congr h (List.mem_filter.1 hp).1

theorem kept_predicates_congr :
    g.predicates.filterMap
        (Predicate.keeping sameSpelling
          (clean sameSpelling (Occurrence.names sameSpelling) g ty)) =
      g.predicates.filterMap
        (Predicate.keeping sameName (clean sameName (Occurrence.names sameName) g ty)) := by
  apply List.filterMap_congr
  intro q hq
  exact Predicate.keeping_congr h hq

/-- Where the names of the parameters are written one way, restricting by spelling is restricting by
name. -/
theorem restrict_congr :
    restrict sameSpelling (Occurrence.names sameSpelling) g ty =
      restrict sameName (Occurrence.names sameName) g ty := by
  rw [restrict, restrict, kept_params_congr h]
  have hpredicates := kept_predicates_congr h
  rw [Generics.predicates] at hpredicates
  cases hwhere : g.whereClause with
  | none => simp only [Option.map_none]
  | some predicates =>
      rw [hwhere, Option.getD_some] at hpredicates
      simp only [Option.map_some]
      rw [hpredicates]

end Agreement

/-! ## Closed, in order, and maximal -/

/-- A restriction of generics to a type, for a notion of what an occurrence refers to. -/
structure Restricts (refers : Occurrence → Param → Bool) (g : Generics) (ty : Node)
    (selected : Generics) : Prop where
  /-- The parameters that occur in the type, in order, each with every bound and the default that
  mention no removed parameter. -/
  params : selected.params =
    (g.params.filter (selects sameName refers ty)).map
      (Param.keeping sameName (clean sameName refers g ty))
  predicates : selected.predicates =
    g.predicates.filterMap (Predicate.keeping sameName (clean sameName refers g ty))
  closed_params : ∀ p ∈ selected.params,
    clean sameName refers g ty (paramOccurrences sameName p) = true
  closed_predicates : ∀ q ∈ selected.predicates,
    clean sameName refers g ty (predicateOccurrences sameName q) = true
  /-- A bound is lost only for what it or the bounded type mentions. -/
  bounds : ∀ binder bounded bounds, .type binder bounded bounds ∈ g.predicates →
    clean sameName refers g ty
      (headOccurrences sameName (.type binder bounded bounds)) = true →
    ∀ bound ∈ bounds,
      clean sameName refers g ty (occurrences sameName (boundBy binder) bound) = true →
      ∃ kept, .type binder bounded kept ∈ selected.predicates ∧ bound ∈ kept
  lifetimes : ∀ name bounds, .lifetime name bounds ∈ g.predicates →
    (.lifetime name bounds ∈ selected.predicates ↔
      clean sameName refers g ty
        (predicateOccurrences sameName (.lifetime name bounds)) = true)

section Restricts

variable {refers : Occurrence → Param → Bool} {g : Generics} {ty : Node}

theorem clean_flatMap {α : Type} {f : α → List Occurrence} {l : List α}
    (h : ∀ a ∈ l, clean sameName refers g ty (f a) = true) :
    clean sameName refers g ty (l.flatMap f) = true := by
  induction l with
  | nil => rfl
  | cons a l ih =>
      rw [List.flatMap_cons, clean_append, h a List.mem_cons_self,
        ih fun b hb => h b (List.mem_cons_of_mem _ hb)]
      rfl

/-- What is kept of a parameter mentions no removed one. -/
theorem Param.keeping_clean (p : Param) :
    clean sameName refers g ty
      (paramOccurrences sameName (p.keeping sameName (clean sameName refers g ty))) = true := by
  cases p with
  | lifetime name bounds => exact clean_flatMap fun bound hbound => (List.mem_filter.1 hbound).2
  | type ident bounds default =>
      apply clean_all
      intro t ht
      rcases List.mem_append.1 ht with hbound | hdefault
      · exact (List.mem_filter.1 hbound).2
      · exact (Option.filter_eq_some_iff.1 (Option.mem_toList.1 hdefault)).2
  | const ident ty' default =>
      apply clean_all
      intro t ht
      exact (Option.filter_eq_some_iff.1 (Option.mem_toList.1 ht)).2

theorem Predicate.keeping_clean {q q' : Predicate}
    (h : q.keeping sameName (clean sameName refers g ty) = some q') :
    clean sameName refers g ty (predicateOccurrences sameName q') = true := by
  cases q with
  | type binder bounded bounds =>
      rw [Predicate.keeping] at h
      split at h
      · rename_i hpass
        cases h
        rw [clean_predicate fun bound hbound => (List.mem_filter.1 hbound).2]
        exact (Bool.and_eq_true_iff.1 hpass).2
      · cases h
  | lifetime name bounds =>
      rw [Predicate.keeping] at h
      split at h
      · rename_i hpass
        cases h
        exact hpass
      · cases h

theorem restrict_predicates :
    (restrict sameName refers g ty).predicates =
      g.predicates.filterMap (Predicate.keeping sameName (clean sameName refers g ty)) := by
  rw [Generics.predicates, Generics.predicates, restrict]
  cases g.whereClause with
  | none => rfl
  | some predicates =>
      simp only [Option.map_some, Option.getD_some, Option.filter]
      cases predicates.filterMap (Predicate.keeping sameName (clean sameName refers g ty)) <;> rfl

theorem restrict_restricts : Restricts refers g ty (restrict sameName refers g ty) where
  params := rfl
  predicates := restrict_predicates
  closed_params := by
    intro p hp
    rcases List.mem_map.1 hp with ⟨p, _, rfl⟩
    exact p.keeping_clean
  closed_predicates := by
    intro q hq
    rw [restrict_predicates] at hq
    rcases List.mem_filterMap.1 hq with ⟨q', _, hkeeping⟩
    exact Predicate.keeping_clean hkeeping
  bounds := by
    intro binder bounded bounds hmem hhead bound hbound hclean
    rw [restrict_predicates]
    have hkept : bound ∈ bounds.filter fun bound =>
        clean sameName refers g ty (occurrences sameName (boundBy binder) bound) :=
      List.mem_filter.2 ⟨hbound, hclean⟩
    refine ⟨_, List.mem_filterMap.2 ⟨_, hmem, ?_⟩, hkept⟩
    rw [Predicate.keeping, if_pos]
    rw [Bool.and_eq_true, Bool.not_eq_true', List.isEmpty_eq_false_iff]
    exact ⟨List.ne_nil_of_mem hkept, hhead⟩
  lifetimes := by
    intro name bounds hmem
    rw [restrict_predicates]
    constructor
    · intro hselected
      rcases List.mem_filterMap.1 hselected with ⟨q, _, hkeeping⟩
      exact Predicate.keeping_clean hkeeping
    · intro hclean
      refine List.mem_filterMap.2 ⟨_, hmem, ?_⟩
      rw [Predicate.keeping, if_pos hclean]

end Restricts

/-- `scope_generics` keeps exactly the parameters that occur in the child's type, in their order,
with every bound, default and predicate that mentions no other: a parameter occurs where its name
begins a path, whatever the path is looked up as, or is a lifetime no binder introduces. -/
theorem scope_generics_restricts (g : Generics) (ty : Node)
    (h : Spelled g ty) :
    Restricts (Occurrence.names sameName) g ty (scopeGenerics g ty) := by
  rw [scopeGenerics_eq, restrict_congr h]
  exact restrict_restricts

/-- `fn build<'a, 'sibling, T: Related<U>, U>() where T: Send` and a child `&'a Child<T>`. -/
theorem scope_generics_restricts_siblings :
    Restricts (Occurrence.names sameName)
      ⟨[.lifetime ⟨false, "a"⟩ [], .lifetime ⟨false, "sibling"⟩ [],
        .type ⟨false, "T"⟩
          [.node (.traitBound false []) [simplePath .type "Related" [simplePath .type "U" []]]]
          none,
        .type ⟨false, "U"⟩ [] none],
        some [.type [] (simplePath .type "T" [])
          [.node (.traitBound false []) [simplePath .type "Send" []]]]⟩
      (.node (.reference (some ⟨false, "a"⟩) false)
        [simplePath .type "Child" [simplePath .type "T" []]])
      (scopeGenerics
        ⟨[.lifetime ⟨false, "a"⟩ [], .lifetime ⟨false, "sibling"⟩ [],
          .type ⟨false, "T"⟩
            [.node (.traitBound false []) [simplePath .type "Related" [simplePath .type "U" []]]]
            none,
          .type ⟨false, "U"⟩ [] none],
          some [.type [] (simplePath .type "T" [])
            [.node (.traitBound false []) [simplePath .type "Send" []]]]⟩
        (.node (.reference (some ⟨false, "a"⟩) false)
          [simplePath .type "Child" [simplePath .type "T" []]])) :=
  scope_generics_restricts _ _ (by decide)

/-- `fn build<T>()` -/
def unboundedParameter : Generics :=
  ⟨[.type ⟨false, "T"⟩ [] none], none⟩

/-- `&Child<{ T }>` -/
def constantChild : Node :=
  .node (.reference none false)
    [simplePath .type "Child" [.node (.expr ["\x7b", "\x7d"]) [simplePath .value "T" []]]]

/-- `&Child<r#T>` -/
def rawChild : Node :=
  .node (.reference none false)
    [simplePath .type "Child" [.node (.path .type false) [.node (.segment ⟨true, "T"⟩) []]]]

/-- `fn build<'a, T>() where for<'b: 'a> T: Send` -/
def boundBinder : Generics :=
  ⟨[.lifetime ⟨false, "a"⟩ [], .type ⟨false, "T"⟩ [] none],
    some [.type
      [.node .binder [.node (.lifetimeParam ⟨false, "b"⟩) [.node (.lifetime ⟨false, "a"⟩) []]]]
      (simplePath .type "T" []) [.node (.traitBound false []) [simplePath .type "Send" []]]]⟩

/-- `&Child<T>` -/
def plainChild : Node :=
  .node (.reference none false) [simplePath .type "Child" [simplePath .type "T" []]]

/-- The constant named in `&Child<{ T }>` is not the type parameter `T`, and yet selects it; the
type in `&Child<r#T>` is, and does not.  In `for<'b: 'a> T: Send` neither the bounded type nor the
bound mentions the removed `'a`, and yet the bound is lost with the binder that does. -/
theorem scope_generics_selects_by_name :
    ¬Restricts Occurrence.denotes unboundedParameter constantChild
        (scopeGenerics unboundedParameter constantChild) ∧
      ¬Restricts Occurrence.denotes unboundedParameter rawChild
        (scopeGenerics unboundedParameter rawChild) ∧
      ∃ binder bounded bound,
        .type binder bounded [bound] ∈ boundBinder.predicates ∧
          clean sameName Occurrence.denotes boundBinder plainChild
              (occurrences sameName (boundBy binder) bounded) = true ∧
            clean sameName Occurrence.denotes boundBinder plainChild
                (occurrences sameName (boundBy binder) bound) = true ∧
              (scopeGenerics boundBinder plainChild).predicates = [] := by
  refine ⟨?_, ?_, _, _, _, List.mem_singleton_self _, ?_⟩
  · intro h
    have hlength := congrArg List.length h.params
    revert hlength
    decide
  · intro h
    have hlength := congrArg List.length h.params
    revert hlength
    decide
  · decide

end Types
end Systasis
