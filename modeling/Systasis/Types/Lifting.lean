import Mathlib.Data.List.Nodup
import Systasis.Types.Lifetimes

/-!
# Lifting — elided lifetimes of a container become parameters of its own

Model of the visitors `Lifetimes` and `SourceLifetimes` of `generate.rs`, and of the order in which
`expand_inner` visits the types a container stores.

Lifting numbers the positions at which a lifetime is elided.  A type with its positions filled by
any lifetimes at all is then an instance of the lifted one, which makes the parameters as general as
what was written.
-/

namespace Systasis
namespace Types

open Syntax (Ident)

/-! ## The visitors -/

/-- `'_` -/
def placeholderName : Ident := ⟨false, "_"⟩

/-- `'__systasis_type_k` -/
def liftedName (k : Nat) : Ident := ⟨false, "__systasis_type_" ++ k.repr⟩

/-- `Lifetimes::visit_lifetime_mut` -/
def liftLifetime (name : Ident) (lifetimes : List Ident) : Ident × List Ident :=
  if name.is "_" then
    (liftedName lifetimes.length, lifetimes ++ [liftedName lifetimes.length])
  else (name, lifetimes)

/-- The lifetime a node writes itself, visited.  A reference writes one first. -/
def Form.lift (lifetimes : List Ident) : Form → Form × List Ident
  | .lifetime name =>
      let (name, lifetimes) := liftLifetime name lifetimes
      (.lifetime name, lifetimes)
  | .lifetimeParam name =>
      let (name, lifetimes) := liftLifetime name lifetimes
      (.lifetimeParam name, lifetimes)
  | .reference written mutable =>
      let (name, lifetimes) := liftLifetime (written.getD placeholderName) lifetimes
      (.reference (some name) mutable, lifetimes)
  | form => (form, lifetimes)

/-- The nodes whose elision binds lifetimes of its own. -/
def Form.ownElision : Form → Bool
  | .fnPtr _ | .parenthesized => true
  | _ => false

mutual

/-- `Lifetimes::visit_type_mut` -/
def lift : Node → List Ident → Node × List Ident
  | .node form cs, lifetimes =>
      if form.ownElision then (.node form cs, lifetimes)
      else
        let (form, lifetimes) := form.lift lifetimes
        let (cs, lifetimes) := liftAll cs lifetimes
        (.node form cs, lifetimes)

def liftAll : List Node → List Ident → List Node × List Ident
  | [], lifetimes => ([], lifetimes)
  | c :: cs, lifetimes =>
      let (c, lifetimes) := lift c lifetimes
      let (cs, lifetimes) := liftAll cs lifetimes
      (c :: cs, lifetimes)

end

mutual

/-- A visitor that overrides `visit_lifetime_mut` alone. -/
def rename (σ : Ident → Ident) : Node → Node
  | .node form cs => .node (form.mapLifetime σ) (renameAll σ cs)

def renameAll (σ : Ident → Ident) : List Node → List Node
  | [] => []
  | c :: cs => rename σ c :: renameAll σ cs

end

/-- `SourceLifetimes::visit_lifetime_mut` -/
def sourceLifetime (lifetimes : List Ident) (name : Ident) : Ident :=
  if name.is "__systasis_call" || lifetimes.contains name then placeholderName else name

/-- The types a declaration stores: those of its children, of its registrations, each with whether
it is a constructor, and of the captures of its constructors. -/
structure StoredTypes where
  children : List Node
  registered : List (Bool × Node)
  captures : List (List Node)

/-- A constructor stores its captures, not its output. -/
def liftRegistered : List (Bool × Node) → List Ident → List (Bool × Node) × List Ident
  | [], lifetimes => ([], lifetimes)
  | (constructor, ty) :: rest, lifetimes =>
      let (ty, lifetimes) := if constructor then (ty, lifetimes) else lift ty lifetimes
      let (rest, lifetimes) := liftRegistered rest lifetimes
      ((constructor, ty) :: rest, lifetimes)

def liftCaptures : List (List Node) → List Ident → List (List Node) × List Ident
  | [], lifetimes => ([], lifetimes)
  | types :: rest, lifetimes =>
      let (types, lifetimes) := liftAll types lifetimes
      let (rest, lifetimes) := liftCaptures rest lifetimes
      (types :: rest, lifetimes)

/-- The visits of `expand_inner`, with one `Lifetimes(Vec::new())` for all of them. -/
def StoredTypes.lift (stored : StoredTypes) : StoredTypes × List Ident :=
  let (children, lifetimes) := liftAll stored.children []
  let (registered, lifetimes) := liftRegistered stored.registered lifetimes
  let (captures, lifetimes) := liftCaptures stored.captures lifetimes
  (⟨children, registered, captures⟩, lifetimes)

/-- What is visited, in order. -/
def StoredTypes.visited (stored : StoredTypes) : List Node :=
  stored.children ++ (stored.registered.filter fun r => !r.1).map Prod.snd ++
    stored.captures.flatten

/-! ## Positions -/

/-- The lifetime a node elides, if it does. -/
def Form.elided : Form → Nat
  | .lifetime name | .lifetimeParam name => if name.is "_" then 1 else 0
  | .reference written _ => if (written.getD placeholderName).is "_" then 1 else 0
  | _ => 0

/-- The form with its elided lifetime, if there is one, given. -/
def Form.fill (name : Ident) : Form → Form
  | .lifetime written => .lifetime (if written.is "_" then name else written)
  | .lifetimeParam written => .lifetimeParam (if written.is "_" then name else written)
  | .reference written mutable =>
      let written := written.getD placeholderName
      .reference (some (if written.is "_" then name else written)) mutable
  | form => form

mutual

/-- The number of positions at which a type elides a lifetime. -/
def elided : Node → Nat
  | .node form cs => if form.ownElision then 0 else form.elided + elidedAll cs

def elidedAll : List Node → Nat
  | [] => 0
  | c :: cs => elided c + elidedAll cs

end

mutual

/-- The type with its positions, numbered from `k`, filled. -/
def fill (f : Nat → Ident) (k : Nat) : Node → Node
  | .node form cs =>
      if form.ownElision then .node form cs
      else .node (form.fill (f k)) (fillAll f (k + form.elided) cs)

def fillAll (f : Nat → Ident) (k : Nat) : List Node → List Node
  | [] => []
  | c :: cs => fill f k c :: fillAll f (k + elided c) cs

end

mutual

/-- Every lifetime written in a type. -/
def writtenNames : Node → List Ident
  | .node form cs => form.lifetimes ++ writtenNamesAll cs

def writtenNamesAll : List Node → List Ident
  | [] => []
  | c :: cs => writtenNames c ++ writtenNamesAll cs

end

/-! ## Lifting numbers the positions -/

/-- Names that end in different numbers differ. -/
theorem numbered_injective (text : String) :
    Function.Injective fun k : Nat => (⟨false, text ++ k.repr⟩ : Ident) := by
  intro j k h
  have hname : text ++ j.repr = text ++ k.repr := congrArg Ident.name h
  have hlist : j.repr.toList = k.repr.toList := by
    have hboth := congrArg String.toList hname
    simpa only [String.toList_append, List.append_cancel_left_eq] using hboth
  have hdigits : Nat.toDigits 10 j = Nat.toDigits 10 k := by simpa using hlist
  calc
    j = Nat.ofDigitChars 10 (Nat.toDigits 10 j) 0 := Nat.ofDigitChars_ten_toDigits.symm
    _ = Nat.ofDigitChars 10 (Nat.toDigits 10 k) 0 := by rw [hdigits]
    _ = k := Nat.ofDigitChars_ten_toDigits

theorem liftedName_injective : Function.Injective liftedName :=
  numbered_injective "__systasis_type_"

theorem liftedName_ne_placeholder (k : Nat) : (liftedName k).is "_" = false := by
  have hname : "__systasis_type_" ++ k.repr ≠ "_" := by
    intro heq
    have hlong : "__systasis_type_".length = 16 := by decide +kernel
    have hshort : "_".length = 1 := by decide +kernel
    have hlength := congrArg String.length heq
    rw [String.length_append, hlong, hshort] at hlength
    omega
  simp [Ident.is, liftedName, hname]

/-- The first lifetimes lifted. -/
def liftedNames (k : Nat) : List Ident :=
  (List.range k).map liftedName

@[simp]
theorem liftedNames_length (k : Nat) : (liftedNames k).length = k := by
  simp [liftedNames]

theorem liftedNames_succ (k : Nat) : liftedNames (k + 1) = liftedNames k ++ [liftedName k] := by
  simp [liftedNames, List.range_succ]

theorem Form.lift_eq (form : Form) (k : Nat) :
    form.lift (liftedNames k) = (form.fill (liftedName k), liftedNames (k + form.elided)) := by
  have hlifetime : ∀ name : Ident, liftLifetime name (liftedNames k) =
      (if name.is "_" then liftedName k else name,
        liftedNames (k + if name.is "_" then 1 else 0)) := by
    intro name
    cases hname : name.is "_" <;> simp [liftLifetime, hname, liftedNames_succ]
  cases form <;> simp [Form.lift, Form.fill, Form.elided, hlifetime]

mutual

theorem lift_eq (t : Node) (k : Nat) :
    lift t (liftedNames k) = (fill liftedName k t, liftedNames (k + elided t)) := by
  cases t with
  | node form cs =>
      cases hown : form.ownElision with
      | true => simp [lift, fill, elided, hown]
      | false => simp [lift, fill, elided, hown, Form.lift_eq, liftAll_eq cs, Nat.add_assoc]

theorem liftAll_eq (cs : List Node) (k : Nat) :
    liftAll cs (liftedNames k) = (fillAll liftedName k cs, liftedNames (k + elidedAll cs)) := by
  cases cs with
  | nil => simp [liftAll, fillAll, elidedAll]
  | cons c cs => simp [liftAll, fillAll, elidedAll, lift_eq c, liftAll_eq cs, Nat.add_assoc]

end

theorem liftRegistered_eq (registered : List (Bool × Node)) (k : Nat) :
    let types := (registered.filter fun r => !r.1).map Prod.snd
    let lifted := liftRegistered registered (liftedNames k)
    (lifted.1.filter fun r => !r.1).map Prod.snd = fillAll liftedName k types ∧
      lifted.2 = liftedNames (k + elidedAll types) := by
  induction registered generalizing k with
  | nil => exact ⟨rfl, rfl⟩
  | cons r rest ih =>
      rcases r with ⟨constructor, ty⟩
      cases constructor with
      | true => simpa [liftRegistered] using ih k
      | false =>
          simpa [liftRegistered, Types.lift_eq, fillAll, elidedAll, Nat.add_assoc] using
            ih (k + elided ty)

/-! ## Lists of types -/

theorem elidedAll_append (front back : List Node) :
    elidedAll (front ++ back) = elidedAll front + elidedAll back := by
  induction front with
  | nil => simp [elidedAll]
  | cons c front ih => simp [elidedAll, ih, Nat.add_assoc]

theorem fillAll_append (f : Nat → Ident) (k : Nat) (front back : List Node) :
    fillAll f k (front ++ back) = fillAll f k front ++ fillAll f (k + elidedAll front) back := by
  induction front generalizing k with
  | nil => simp [fillAll, elidedAll]
  | cons c front ih => simp [fillAll, elidedAll, ih, Nat.add_assoc]

theorem liftCaptures_eq (captures : List (List Node)) (k : Nat) :
    let lifted := liftCaptures captures (liftedNames k)
    lifted.1.flatten = fillAll liftedName k captures.flatten ∧
      lifted.2 = liftedNames (k + elidedAll captures.flatten) := by
  induction captures generalizing k with
  | nil => exact ⟨rfl, rfl⟩
  | cons types rest ih =>
      have hrest := ih (k + elidedAll types)
      simp only [liftCaptures, liftAll_eq, List.flatten_cons, fillAll_append, elidedAll_append,
        ← Nat.add_assoc]
      exact ⟨congrArg _ hrest.1, hrest.2⟩

/-- The visits of a declaration number the positions of all its stored types, one after the
other. -/
theorem StoredTypes.lift_eq (stored : StoredTypes) :
    stored.lift.1.visited = fillAll liftedName 0 stored.visited ∧
      stored.lift.2 = liftedNames (elidedAll stored.visited) := by
  have hchildren := liftAll_eq stored.children 0
  have hregistered := liftRegistered_eq stored.registered (elidedAll stored.children)
  have hcaptures := liftCaptures_eq stored.captures (elidedAll stored.children +
    elidedAll ((stored.registered.filter fun r => !r.1).map Prod.snd))
  have hnil : liftedNames 0 = [] := rfl
  simp only [Nat.zero_add, hnil] at hchildren
  simp only at hregistered hcaptures
  constructor
  · simp only [StoredTypes.lift, StoredTypes.visited, hchildren, hregistered.2, fillAll_append,
      elidedAll_append, Nat.zero_add, hregistered.1, hcaptures.1]
  · simp only [StoredTypes.lift, StoredTypes.visited, hchildren, hregistered.2, hcaptures.2,
      elidedAll_append]

/-! ## Filled types -/

theorem Form.fill_ownElision (name : Ident) (form : Form) :
    (form.fill name).ownElision = form.ownElision := by
  cases form <;> rfl

theorem Form.fill_elided {name : Ident} (hname : name.is "_" = false) (form : Form) :
    (form.fill name).elided = 0 := by
  have hlifetime : ∀ written : Ident, (if written.is "_" then name else written).is "_" = false := by
    intro written
    cases hwritten : written.is "_" <;> simp [hname, hwritten]
  cases form <;> simp [Form.fill, Form.elided, hlifetime]

theorem Form.fill_fill {name other : Ident} (hname : name.is "_" = false) (form : Form) :
    (form.fill name).fill other = form.fill name := by
  have hlifetime : ∀ written : Ident, (if written.is "_" then name else written).is "_" = false := by
    intro written
    cases hwritten : written.is "_" <;> simp [hname, hwritten]
  cases form <;> simp [Form.fill, hlifetime]

theorem Form.fill_mapLifetime {σ : Ident → Ident} {form : Form}
    (hσ : ∀ name ∈ form.lifetimes, σ name = name) (name : Ident) :
    (form.fill name).mapLifetime σ = form.fill (σ name) := by
  have hlifetime : ∀ written : Ident, (written.is "_" = false → σ written = written) →
      σ (if written.is "_" then name else written) =
        if written.is "_" then σ name else written := by
    intro written hwritten
    cases hplaceholder : written.is "_" with
    | true => rfl
    | false => exact hwritten hplaceholder
  cases form with
  | lifetime written =>
      exact congrArg Form.lifetime (hlifetime written fun _ => hσ written (by simp [Form.lifetimes]))
  | lifetimeParam written =>
      exact congrArg Form.lifetimeParam
        (hlifetime written fun _ => hσ written (by simp [Form.lifetimes]))
  | reference written mutable =>
      refine congrArg (fun name => Form.reference (some name) mutable) (hlifetime _ ?_)
      intro hplaceholder
      cases written with
      | none => simp [placeholderName, Ident.is] at hplaceholder
      | some written => exact hσ written (by simp [Form.lifetimes])
  | _ => rfl

section Fill

variable {f g : Nat → Ident}

mutual

theorem elided_fill (hf : ∀ i, (f i).is "_" = false) (t : Node) (k : Nat) :
    elided (fill f k t) = 0 := by
  cases t with
  | node form cs =>
      cases hown : form.ownElision with
      | true => simp [fill, elided, hown]
      | false =>
          simp [fill, elided, hown, Form.fill_ownElision, Form.fill_elided (hf k),
            elidedAll_fillAll hf cs]

theorem elidedAll_fillAll (hf : ∀ i, (f i).is "_" = false) (cs : List Node) (k : Nat) :
    elidedAll (fillAll f k cs) = 0 := by
  cases cs with
  | nil => rfl
  | cons c cs => simp [fillAll, elidedAll, elided_fill hf c, elidedAll_fillAll hf cs]

end

mutual

/-- A type without positions left cannot be filled again. -/
theorem fill_fill (hf : ∀ i, (f i).is "_" = false) (t : Node) (k j : Nat) :
    fill g j (fill f k t) = fill f k t := by
  cases t with
  | node form cs =>
      cases hown : form.ownElision with
      | true => simp [fill, hown]
      | false =>
          simp [fill, hown, Form.fill_ownElision, Form.fill_fill (hf k),
            fillAll_fillAll hf cs]

theorem fillAll_fillAll (hf : ∀ i, (f i).is "_" = false) (cs : List Node) (k j : Nat) :
    fillAll g j (fillAll f k cs) = fillAll f k cs := by
  cases cs with
  | nil => rfl
  | cons c cs => simp [fillAll, fill_fill hf c, fillAll_fillAll hf cs]

end

variable {σ : Ident → Ident}

mutual

theorem rename_self (t : Node) (hσ : ∀ name ∈ writtenNames t, σ name = name) :
    rename σ t = t := by
  cases t with
  | node form cs =>
      simp only [writtenNames, List.mem_append] at hσ
      rw [rename, Form.mapLifetime_eq_self_iff.2 fun name hname => hσ name (.inl hname),
        renameAll_self cs fun name hname => hσ name (.inr hname)]

theorem renameAll_self (cs : List Node) (hσ : ∀ name ∈ writtenNamesAll cs, σ name = name) :
    renameAll σ cs = cs := by
  cases cs with
  | nil => rfl
  | cons c cs =>
      simp only [writtenNamesAll, List.mem_append] at hσ
      rw [renameAll, rename_self c fun name hname => hσ name (.inl hname),
        renameAll_self cs fun name hname => hσ name (.inr hname)]

end

mutual

/-- A substitution that leaves what is written alone acts on what fills the positions. -/
theorem rename_fill (t : Node) (hσ : ∀ name ∈ writtenNames t, σ name = name) (k : Nat) :
    rename σ (fill f k t) = fill (fun i => σ (f i)) k t := by
  cases t with
  | node form cs =>
      cases hown : form.ownElision with
      | true =>
          have hself := rename_self (.node form cs) hσ
          simpa [fill, hown] using hself
      | false =>
          simp only [writtenNames, List.mem_append] at hσ
          simp [fill, hown, rename,
            Form.fill_mapLifetime fun name hname => hσ name (.inl hname),
            renameAll_fillAll cs fun name hname => hσ name (.inr hname)]

theorem renameAll_fillAll (cs : List Node) (hσ : ∀ name ∈ writtenNamesAll cs, σ name = name)
    (k : Nat) : renameAll σ (fillAll f k cs) = fillAll (fun i => σ (f i)) k cs := by
  cases cs with
  | nil => rfl
  | cons c cs =>
      simp only [writtenNamesAll, List.mem_append] at hσ
      simp [fillAll, renameAll, rename_fill c fun name hname => hσ name (.inl hname),
        renameAll_fillAll cs fun name hname => hσ name (.inr hname)]

end

mutual

/-- Only as many fillings matter as there are positions. -/
theorem fill_congr (t : Node) (k : Nat) (h : ∀ i, k ≤ i → i < k + elided t → f i = g i) :
    fill f k t = fill g k t := by
  cases t with
  | node form cs =>
      cases hown : form.ownElision with
      | true => simp [fill, hown]
      | false =>
          simp only [elided, hown, Bool.false_eq_true, if_false] at h
          have hform : form.fill (f k) = form.fill (g k) := by
            have hk : form.elided = 0 ∨ f k = g k := by
              by_cases hzero : form.elided = 0
              · exact .inl hzero
              · exact .inr (h k (Nat.le_refl k) (by omega))
            rcases hk with hzero | hk
            · cases form <;> simp_all [Form.elided, Form.fill]
            · rw [hk]
          simp only [fill, hown, Bool.false_eq_true, if_false, hform,
            fillAll_congr cs (k + form.elided) fun i hle hlt => h i (by omega) (by omega)]

theorem fillAll_congr (cs : List Node) (k : Nat)
    (h : ∀ i, k ≤ i → i < k + elidedAll cs → f i = g i) : fillAll f k cs = fillAll g k cs := by
  cases cs with
  | nil => rfl
  | cons c cs =>
      simp only [elidedAll] at h
      simp only [fillAll, fill_congr c k fun i hle hlt => h i hle (by omega),
        fillAll_congr cs (k + elided c) fun i hle hlt => h i (by omega) (by omega)]

end

end Fill

/-! ## The parameters of a container -/

/-- The type as written, with the lifetime of every reference outside a function signature spelled
out. -/
def explicitAll (types : List Node) : List Node :=
  fillAll (fun _ => placeholderName) 0 types

/-- No lifetime written in a declaration is one of those the expansion introduces. -/
def Unreserved (types : List Node) : Prop :=
  ∀ name ∈ writtenNamesAll types, name.is "__systasis_call" = false ∧ ∀ k, name ≠ liftedName k

/-- The lifted lifetime with this number, replaced. -/
def assign (f : Nat → Ident) (lifetimes : List Ident) (name : Ident) : Ident :=
  if name ∈ lifetimes then f (lifetimes.idxOf name) else name

/-- Lifting gives every elided lifetime of the types a container stores a parameter of its own, and
leaves none elided.  Whatever lifetimes the positions stand for, the stored types are the lifted ones
at some choice of the parameters; replacing these by `'_` gives back the types as written; and a
second visit changes nothing. -/
theorem lifetimes_lifted (stored : StoredTypes) (hstored : Unreserved stored.visited) :
    let lifted := stored.lift.1.visited
    let lifetimes := stored.lift.2
    lifetimes.Nodup ∧ lifetimes.length = elidedAll stored.visited ∧ elidedAll lifted = 0 ∧
      (∀ f : Nat → Ident, renameAll (assign f lifetimes) lifted = fillAll f 0 stored.visited) ∧
      renameAll (sourceLifetime lifetimes) lifted = explicitAll stored.visited ∧
      liftAll lifted lifetimes = (lifted, lifetimes) := by
  rcases stored.lift_eq with ⟨hlifted, hlifetimes⟩
  have hnodup : (liftedNames (elidedAll stored.visited)).Nodup :=
    List.nodup_range.map liftedName_injective
  have hplaceholder : ∀ i, (liftedName i).is "_" = false := liftedName_ne_placeholder
  -- The names written are none of the lifted ones.
  have hwritten : ∀ name ∈ writtenNamesAll stored.visited,
      name ∉ liftedNames (elidedAll stored.visited) := by
    intro name hname hmem
    rcases List.mem_map.1 hmem with ⟨k, -, rfl⟩
    exact (hstored _ hname).2 k rfl
  have hindex : ∀ k, k < elidedAll stored.visited →
      liftedName k ∈ liftedNames (elidedAll stored.visited) ∧
        (liftedNames (elidedAll stored.visited)).idxOf (liftedName k) = k := by
    intro k hk
    refine ⟨List.mem_map.2 ⟨k, List.mem_range.2 hk, rfl⟩, ?_⟩
    have hlength : k < (liftedNames (elidedAll stored.visited)).length := by simpa using hk
    have hget : (liftedNames (elidedAll stored.visited))[k] = liftedName k := by
      simp [liftedNames]
    rw [← hget]
    exact hnodup.idxOf_getElem k hlength
  simp only [hlifted, hlifetimes]
  refine ⟨hnodup, liftedNames_length _, elidedAll_fillAll hplaceholder _ 0, ?_, ?_, ?_⟩
  · intro f
    rw [renameAll_fillAll _ fun name hname => by simp [assign, hwritten name hname]]
    refine fillAll_congr _ 0 fun k _ hk => ?_
    have hk' := hindex k (by simpa using hk)
    simp [assign, hk'.1, hk'.2]
  · have hsource : ∀ name ∈ writtenNamesAll stored.visited,
        sourceLifetime (liftedNames (elidedAll stored.visited)) name = name := by
      intro name hname
      simp [sourceLifetime, (hstored name hname).1, hwritten name hname]
    rw [renameAll_fillAll _ hsource]
    refine fillAll_congr _ 0 fun k _ hk => ?_
    simp [sourceLifetime, (hindex k (by simpa using hk)).1]
  · rw [liftAll_eq, fillAll_fillAll hplaceholder, elidedAll_fillAll hplaceholder, Nat.add_zero]

/-- A child `&Settings` and a stored `fn(&str)`, whose own elision is left to it. -/
theorem lifetimes_lifted_child :
    let stored : StoredTypes :=
      ⟨[.node (.reference none false) [simplePath .type "Settings" []]],
        [(false, .node (.fnPtr []) [.node (.reference none false) [simplePath .type "str" []]])],
        []⟩
    Unreserved stored.visited ∧ stored.lift.2 = [liftedName 0] ∧
      elidedAll stored.lift.1.visited = 0 := by
  intro stored
  have hstored : Unreserved stored.visited := by
    intro name hname
    have hnone : writtenNamesAll stored.visited = [] := rfl
    rw [hnone] at hname
    cases hname
  exact ⟨hstored, rfl, (lifetimes_lifted stored hstored).2.2.1⟩

end Types
end Systasis
