import Mathlib.Data.List.Nodup
import Mathlib.Logic.Function.Basic
import Systasis.Types.Lifting
import Systasis.Types.Scope

/-!
# DynTarget — object types for groups of interfaces

Model of `systasis-macros/src/dyn_targets.rs`.  A group of one interface is an object type already.
For a larger one a trait is declared that has the group as its supertraits, and implemented for
every type that implements them; the parameter of that implementation must not capture a name of the
group or of the enclosing function.
-/

namespace Systasis
namespace Types

open Syntax (Ident)

/-! ## The generated items -/

/-- `__systasis_DynValue{suffix}` -/
def dynValueName (suffix : Nat) : Ident :=
  ⟨false, "__systasis_DynValue" ++ suffix.repr⟩

/-- A type or constant parameter of this name. -/
def Param.takes (candidate : Ident) : Param → Bool
  | .type ident _ _ | .const ident _ _ => ident == candidate
  | .lifetime _ _ => false

/-- `(suffix..).find(..)`, for so many suffixes. -/
def findValue (params : List Param) : Nat → Nat → Option Ident
  | 0, _ => none
  | fuel + 1, suffix =>
      if params.any (·.takes (dynValueName suffix)) then findValue params fuel (suffix + 1)
      else some (dynValueName suffix)

/-- `value_parameter`; it is `none` where the source is unreachable. -/
def valueParameter (generics : Generics) : Option Ident :=
  findValue generics.params (generics.params.length + 1) 0

/-- A path of one name. -/
def identPath (ident : Ident) : Node :=
  .node (.path .type false) [.node (.segment ident) []]

def Param.argument : Param → Node
  | .lifetime name _ => .node (.lifetime name) []
  | .type ident _ _ | .const ident _ _ => identPath ident

def Param.isLifetime : Param → Bool
  | .lifetime _ _ => true
  | _ => false

/-- `ToTokens` of `TypeGenerics`: the lifetimes come first. -/
def Generics.arguments (g : Generics) : List Node :=
  (g.params.filter Param.isLifetime ++ g.params.filter (!·.isLifetime)).map Param.argument

/-- A bound without modifiers. -/
def plainBound (path : Node) : Node :=
  .node (.traitBound false []) [path]

/-- `?Sized` -/
def relaxedBound : Node :=
  .node (.traitBound false ["?"]) [simplePath .type "Sized" []]

/-- `dyn bounds + 'lifetime` -/
def objectType (bounds : List Node) (lifetime : Ident) : Node :=
  .node (.traitObject true) (bounds.map plainBound ++ [.node (.lifetime lifetime) []])

/-- `pub trait __systasis_Dyn{index}<..>: group where .. {}` -/
structure CombinedTrait where
  name : String
  generics : Generics
  supertraits : List Node

/-- `impl<.., value: ?Sized> name<arguments> for value where .., value: group {}` -/
structure Blanket where
  generics : Generics
  trait_ : Node
  value : Ident

structure DynTarget where
  declarations : Option (CombinedTrait × Blanket)
  ty : Node

def dynName (index : Nat) : String :=
  "__systasis_Dyn" ++ index.repr

/-- `generate` -/
def generate (index : Nat) (group : List Node) (generics : Generics) (objectLifetime : Ident) :
    Option DynTarget :=
  if group.length = 1 then some ⟨none, objectType group objectLifetime⟩
  else do
    let value ← valueParameter generics
    let combined := simplePath .type (dynName index) generics.arguments
    let blanketGenerics : Generics :=
      { params := generics.params ++ [.type value [relaxedBound] none]
        whereClause := some
          (generics.predicates ++ [.type [] (identPath value) (group.map plainBound)]) }
    some ⟨some (⟨dynName index, generics, group⟩, ⟨blanketGenerics, combined, value⟩),
      objectType [combined] objectLifetime⟩

/-! ## Implementations -/

/-- The identifiers a node itself looks up or binds. -/
def Form.mentioned (cs : List Node) : Form → List Ident
  | .path _ false => (firstSegment cs).toList
  | .lifetime name | .lifetimeParam name | .reference (some name) _ => [name]
  | _ => []

mutual

def idents : Node → List Ident
  | .node form cs => form.mentioned cs ++ identsAll cs

def identsAll : List Node → List Ident
  | [] => []
  | c :: cs => idents c ++ identsAll cs

end

theorem identsAll_eq (cs : List Node) : identsAll cs = cs.flatMap idents := by
  induction cs with
  | nil => rfl
  | cons c cs ih => rw [identsAll, ih, List.flatMap_cons]

def Param.ident : Param → Ident
  | .lifetime name _ => name
  | .type ident _ _ | .const ident _ _ => ident

/-- The names a parameter looks up or binds, the type of a constant included. -/
def Param.mentions : Param → List Ident
  | .lifetime name bounds => name :: bounds
  | .type ident bounds default => ident :: identsAll (bounds ++ default.toList)
  | .const ident ty default => ident :: identsAll (ty :: default.toList)

def Predicate.idents : Predicate → List Ident
  | .type binder bounded bounds => identsAll (binder ++ bounded :: bounds)
  | .lifetime name bounds => name :: bounds

/-- How bounds and predicates are read over types `D`, when the names have these meanings.  Only the
names that are written matter. -/
structure Reading (D : Type) where
  implements : (Ident → D) → D → Node → Prop
  predicate : (Ident → D) → Predicate → Prop
  param : (Ident → D) → Param → Prop
  implements_congr : ∀ {ρ ρ' : Ident → D} {bound : Node} (d : D),
    (∀ name ∈ idents bound, ρ name = ρ' name) → (implements ρ d bound ↔ implements ρ' d bound)
  predicate_congr : ∀ {ρ ρ' : Ident → D} {q : Predicate},
    (∀ name ∈ q.idents, ρ name = ρ' name) → (predicate ρ q ↔ predicate ρ' q)
  param_congr : ∀ {ρ ρ' : Ident → D} {p : Param},
    (∀ name ∈ p.mentions, ρ name = ρ' name) → (param ρ p ↔ param ρ' p)
  /-- `name: bounds` -/
  predicate_ident : ∀ {ρ : Ident → D} {name : Ident} {bounds : List Node},
    predicate ρ (.type [] (identPath name) bounds) ↔ ∀ bound ∈ bounds, implements ρ (ρ name) bound
  /-- `name: ?Sized` asks nothing. -/
  param_relaxed : ∀ {ρ : Ident → D} {name : Ident}, param ρ (.type name [relaxedBound] none)

section Reading

variable {D : Type} (reading : Reading D)

/-- The arguments of a generic item satisfy its bounds. -/
def Reading.Satisfies (ρ : Ident → D) (g : Generics) : Prop :=
  (∀ p ∈ g.params, reading.param ρ p) ∧ ∀ q ∈ g.predicates, reading.predicate ρ q

/-- The implementation applies to a type: its bounds hold when its own parameter is that type. -/
def Blanket.Applies (blanket : Blanket) (ρ : Ident → D) (d : D) : Prop :=
  reading.Satisfies (Function.update ρ blanket.value d) blanket.generics

/-- The types that coerce to the object type. -/
def DynTarget.Admits (target : DynTarget) (ρ : Ident → D) (d : D) : Prop :=
  match target.declarations with
  | none => ∀ path, plainBound path ∈ target.ty.children → reading.implements ρ d (plainBound path)
  | some (_, blanket) => blanket.Applies reading ρ d

/-- The traits whose methods can be called on the object: those named in its type, or the
supertraits of the one declared for it. -/
def DynTarget.traits (target : DynTarget) : List Node :=
  match target.declarations with
  | none => target.ty.children.filterMap fun bound =>
      if bound.label = .traitBound false [] then bound.children.head? else none
  | some (combined, _) => combined.supertraits

end Reading

/-! ## The parameter of the implementation -/

theorem Param.ident_of_takes {p : Param} {candidate : Ident} (h : p.takes candidate = true) :
    p.ident = candidate := by
  cases p with
  | lifetime name bounds => cases h
  | type ident bounds default => exact beq_iff_eq.1 h
  | const ident ty default => exact beq_iff_eq.1 h

theorem findValue_eq_some {params : List Param} {value : Ident} : ∀ {fuel suffix : Nat},
    findValue params fuel suffix = some value →
      ∃ k, value = dynValueName k ∧ ∀ p ∈ params, p.takes value = false := by
  intro fuel
  induction fuel with
  | zero =>
      intro suffix h
      cases h
  | succ fuel ih =>
      intro suffix h
      simp only [findValue] at h
      split at h
      · exact ih h
      · rename_i hfree
        cases h
        exact ⟨suffix, rfl, by simpa using hfree⟩

theorem findValue_eq_none {params : List Param} : ∀ {fuel suffix : Nat},
    findValue params fuel suffix = none →
      ∀ k < fuel, ∃ p ∈ params, p.takes (dynValueName (suffix + k)) = true := by
  intro fuel
  induction fuel with
  | zero =>
      intro suffix _ k hk
      omega
  | succ fuel ih =>
      intro suffix h k hk
      simp only [findValue] at h
      split at h
      · rename_i htaken
        cases k with
        | zero => exact List.any_eq_true.1 htaken
        | succ k =>
            have hshift : suffix + (k + 1) = suffix + 1 + k := by omega
            exact hshift ▸ ih h k (by omega)
      · cases h

/-- A list of parameters takes at most as many names as it is long, so the search ends. -/
theorem exists_valueParameter (g : Generics) : ∃ value k, valueParameter g = some value ∧
    value = dynValueName k ∧ ∀ p ∈ g.params, p.takes value = false := by
  cases hfind : valueParameter g with
  | some value =>
      rcases findValue_eq_some hfind with ⟨k, hvalue, hfree⟩
      exact ⟨value, k, rfl, hvalue, hfree⟩
  | none =>
      have htaken := findValue_eq_none hfind
      have hnodup : ((List.range (g.params.length + 1)).map dynValueName).Nodup :=
        List.nodup_range.map (numbered_injective "__systasis_DynValue")
      have hsubset : (List.range (g.params.length + 1)).map dynValueName ⊆
          g.params.map Param.ident := by
        intro name hname
        rcases List.mem_map.1 hname with ⟨k, hk, rfl⟩
        rcases htaken k (List.mem_range.1 hk) with ⟨p, hp, htakes⟩
        rw [Nat.zero_add] at htakes
        exact List.mem_map.2 ⟨p, hp, Param.ident_of_takes htakes⟩
      have hlength := hnodup.length_le_of_subset hsubset
      simp only [List.length_map, List.length_range] at hlength
      omega

/-! ## The object type of a group -/

theorem idents_plainBound (path : Node) : idents (plainBound path) = idents path := by
  simp [plainBound, idents, identsAll, Form.mentioned]

theorem plainBound_injective {path path' : Node} (h : plainBound path = plainBound path') :
    path = path' := by
  cases h
  rfl

/-- The names mentioned by a group in a function with these generics. -/
def mentionedBy (g : Generics) (group : List Node) : List Ident :=
  g.params.flatMap Param.mentions ++ g.predicates.flatMap Predicate.idents ++ identsAll group

/-- The object type of a group has the methods of exactly its interfaces, and a type coerces to it
exactly when it implements all of them: the parameter of the implementation is always found and
captures no name.  A reserved name may be one of the parameters of the function. -/
theorem dyn_target_exact (index : Nat) (group : List Node) (g : Generics) (objectLifetime : Ident)
    (hreserved : ∀ k, dynValueName k ∈ mentionedBy g group →
      ∃ p ∈ g.params, p.takes (dynValueName k) = true) :
    ∃ target, generate index group g objectLifetime = some target ∧ target.traits = group ∧
      ∀ (D : Type) (reading : Reading D) (ρ : Ident → D) (d : D), reading.Satisfies ρ g →
        (target.Admits reading ρ d ↔
          ∀ path ∈ group, reading.implements ρ d (plainBound path)) := by
  by_cases hgroup : group.length = 1
  · rcases List.length_eq_one_iff.1 hgroup with ⟨path, rfl⟩
    refine ⟨_, if_pos hgroup, rfl, ?_⟩
    intro D reading ρ d _
    constructor
    · intro hadmits path' hpath'
      cases List.mem_singleton.1 hpath'
      exact hadmits path (by simp [objectType, Rose.children])
    · intro himplements path' hpath'
      have hbound : plainBound path' = plainBound path := by
        simpa [objectType, Rose.children, plainBound] using hpath'
      exact himplements path' (List.mem_singleton.2 (plainBound_injective hbound))
  · rcases exists_valueParameter g with ⟨value, k, hvalue, rfl, hfree⟩
    refine ⟨_, by rw [generate, if_neg hgroup, hvalue]; rfl, rfl, ?_⟩
    intro D reading ρ d hsatisfies
    -- The parameter is no name that is written, so giving it a meaning changes none.
    have hfresh : dynValueName k ∉ mentionedBy g group := by
      intro hmem
      rcases hreserved k hmem with ⟨p, hp, htakes⟩
      rw [hfree p hp] at htakes
      cases htakes
    have hsame : ∀ name ∈ mentionedBy g group, Function.update ρ (dynValueName k) d name = ρ name := by
      intro name hname
      apply Function.update_of_ne
      rintro rfl
      exact hfresh hname
    have hpath : ∀ path ∈ group, ∀ name ∈ idents (plainBound path),
        Function.update ρ (dynValueName k) d name = ρ name := by
      intro path hpath name hname
      rw [idents_plainBound] at hname
      apply hsame
      rw [mentionedBy, identsAll_eq]
      exact List.mem_append_right _ (List.mem_flatMap.2 ⟨path, hpath, hname⟩)
    have hself : Function.update ρ (dynValueName k) d (dynValueName k) = d :=
      Function.update_self _ _ _
    have hvalue' : (∀ bound ∈ group.map plainBound, reading.implements
        (Function.update ρ (dynValueName k) d) d bound) ↔
          ∀ path ∈ group, reading.implements ρ d (plainBound path) := by
      rw [List.forall_mem_map]
      exact forall₂_congr fun path hmem => reading.implements_congr d (hpath path hmem)
    have hparams : ∀ p ∈ g.params, reading.param (Function.update ρ (dynValueName k) d) p := by
      intro p hp
      apply (reading.param_congr fun name hname => hsame name ?_).2 (hsatisfies.1 p hp)
      exact List.mem_append_left _ (List.mem_append_left _ (List.mem_flatMap.2 ⟨p, hp, hname⟩))
    have hpredicates : ∀ q ∈ g.predicates,
        reading.predicate (Function.update ρ (dynValueName k) d) q := by
      intro q hq
      apply (reading.predicate_congr fun name hname => hsame name ?_).2 (hsatisfies.2 q hq)
      exact List.mem_append_left _ (List.mem_append_right _ (List.mem_flatMap.2 ⟨q, hq, hname⟩))
    constructor
    · intro happlies
      have hlast := happlies.2 (.type [] (identPath (dynValueName k)) (group.map plainBound))
        (List.mem_append_right _ (List.mem_singleton.2 rfl))
      rw [reading.predicate_ident, hself] at hlast
      exact hvalue'.1 hlast
    · intro himplements
      constructor
      · intro p hp
        rcases List.mem_append.1 hp with hp | hp
        · exact hparams p hp
        · cases List.mem_singleton.1 hp
          exact reading.param_relaxed
      · intro q hq
        rcases List.mem_append.1 hq with hq | hq
        · exact hpredicates q hq
        · cases List.mem_singleton.1 hq
          rw [reading.predicate_ident, hself]
          exact hvalue'.2 himplements

/-- A name as short as an interface's is not reserved. -/
theorem dynValueName_ne {k : Nat} {name : String} (h : name.length < 19) :
    dynValueName k ≠ ⟨false, name⟩ := by
  intro heq
  have hprefix : "__systasis_DynValue".length = 19 := by decide +kernel
  have hlength : ("__systasis_DynValue" ++ k.repr).length = name.length :=
    congrArg (fun ident : Ident => ident.name.length) heq
  rw [String.length_append, hprefix] at hlength
  omega

/-- `fn configure<__systasis_DynValue0>()` -/
def capturingGenerics : Generics :=
  ⟨[.type (dynValueName 0) [] none], none⟩

theorem dyn_target_exact_capturing :
    ∃ target, generate 0 [simplePath .type "IRead" [], simplePath .type "IWrite" []]
        capturingGenerics ⟨false, "_"⟩ = some target ∧
      target.declarations.map (fun items => items.2.value) = some (dynValueName 1) ∧
      ∀ (D : Type) (reading : Reading D) (ρ : Ident → D) (d : D),
        reading.Satisfies ρ capturingGenerics →
          (target.Admits reading ρ d ↔
            ∀ path ∈ [simplePath .type "IRead" [], simplePath .type "IWrite" []],
              reading.implements ρ d (plainBound path)) := by
  have hexact := dyn_target_exact 0 [simplePath .type "IRead" [], simplePath .type "IWrite" []]
    capturingGenerics ⟨false, "_"⟩ (by
      intro k hk
      have hmentioned : mentionedBy capturingGenerics
          [simplePath .type "IRead" [], simplePath .type "IWrite" []] =
            [dynValueName 0, ⟨false, "IRead"⟩, ⟨false, "IWrite"⟩] := rfl
      rw [hmentioned] at hk
      have hread : "IRead".length < 19 := by decide +kernel
      have hwrite : "IWrite".length < 19 := by decide +kernel
      have hzero : dynValueName k = dynValueName 0 := by
        simpa [dynValueName_ne hread, dynValueName_ne hwrite] using hk
      exact ⟨_, List.mem_singleton.2 rfl, by simp [Param.takes, hzero]⟩)
  rcases hexact with ⟨target, hgenerate, _, hadmits⟩
  refine ⟨target, hgenerate, ?_, hadmits⟩
  cases hgenerate
  decide +kernel

end Types
end Systasis
