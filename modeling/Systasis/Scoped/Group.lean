import Mathlib.Data.List.Destutter
import Mathlib.Data.List.Sort
import Mathlib.Data.String.Basic
import Systasis.Scoped.Dispatch

/-!
# Group — interface groups and the two identities of a registration

Model of `Namespace`, `identifier_key` and `InterfaceGroup` in `systasis-macros/src/parse.rs`, of
`keys` in `scopegen.rs` and of the winners of `expand_inner`.  Local queries compare one text,
`group in namespace`; child queries compare a pair of type-level keys.

The printing of tokens is a parameter.  Of a path only the shape of its tokens is used: brackets
`<` and `>` are balanced, and a `+` stands between them.
-/

namespace Systasis
namespace Scoped

/-! ## Tokens and paths -/

/-- The characters an identifier can have. -/
def isWordChar (char : Char) : Bool :=
  char.isAlphanum || char == '_' || 128 ≤ char.toNat

/-- `proc_macro2::Ident` -/
@[ext]
structure Word where
  raw : Bool
  name : String
  nonempty : name ≠ ""
  chars : name.toList.all isWordChar = true
  deriving DecidableEq

/-- `ident.unraw()` -/
def Word.unraw (word : Word) : Word :=
  { word with raw := false }

inductive Delimiter where
  | parenthesis
  | brace
  | bracket
  | none
  deriving DecidableEq, Repr

/-- The tokens of a stream, a group being written out between its delimiters. -/
inductive Token where
  | ident (word : Word)
  | punct (char : Char) (joint : Bool)
  | literal (text : String)
  | opening (delimiter : Delimiter)
  | closing (delimiter : Delimiter)
  deriving DecidableEq

/-- `normalize`, on one token. -/
def Token.normalize : Token → Token
  | .ident word => .ident word.unraw
  | token => token

def normalizeAll (tokens : List Token) : List Token :=
  tokens.map Token.normalize

/-- How many groups are open, how many brackets `<` outside them, and whether a `-` has just started
an arrow. -/
structure Depth where
  groups : Nat
  brackets : Nat
  arrow : Bool
  deriving DecidableEq

/-- The keyword that introduces a namespace. -/
def inWord : Word :=
  ⟨false, "in", by decide, by decide⟩

def Depth.outside : Depth :=
  ⟨0, 0, false⟩

/-- One token at a depth; a `+` outside groups and brackets does not belong to a path. -/
def Depth.step : Depth → Token → Option Depth
  | ⟨groups, brackets, _⟩, .opening _ => some ⟨groups + 1, brackets, false⟩
  | ⟨groups + 1, brackets, _⟩, .closing _ => some ⟨groups, brackets, false⟩
  | ⟨0, _, _⟩, .closing _ => none
  | ⟨0, brackets, _⟩, .punct '-' true => some ⟨0, brackets, true⟩
  | ⟨0, brackets, true⟩, .punct '>' _ => some ⟨0, brackets, false⟩
  | ⟨0, brackets, false⟩, .punct '<' _ => some ⟨0, brackets + 1, false⟩
  | ⟨0, 0, false⟩, .punct '>' _ => none
  | ⟨0, brackets + 1, false⟩, .punct '>' _ => some ⟨0, brackets, false⟩
  | ⟨0, 0, false⟩, .punct '+' _ => none
  | ⟨groups, brackets, _⟩, _ => some ⟨groups, brackets, false⟩

def scan (tokens : List Token) (depth : Depth) : Option Depth :=
  tokens.foldlM Depth.step depth

/-- The last token is there and is not joined to what follows. -/
def Complete (tokens : List Token) : Prop :=
  ∃ front last, tokens = front ++ [last] ∧ ∀ char, last ≠ .punct char true

/-- What `syn`'s grammar gives of the tokens of a path.  Two identifiers at its end are a keyword and
a name, and the keyword is not `in`, unless that is the name of a lifetime. -/
structure Path where
  tokens : List Token
  complete : Complete tokens
  balanced : scan tokens .outside = some .outside
  ending : ∀ front first last, tokens = front ++ [.ident first, .ident last] →
    first.name = "in" → ¬Complete front

def plus : Token :=
  .punct '+' false

/-- `quote!(#(#paths)+*)` -/
def joined : List (List Token) → List Token
  | [] => []
  | [path] => path
  | path :: rest => path ++ plus :: joined rest

section Printed

variable (print : List Token → String)

/-- `identifier_key` -/
def identifierKey (tokens : List Token) : String :=
  print (normalizeAll tokens)

/-- `InterfaceGroup::parse`: sorted by their keys, and one of each. -/
def parseGroup (paths : List Path) : List Path :=
  (paths.mergeSort fun left right =>
      decide (identifierKey print left.tokens ≤ identifierKey print right.tokens)).destutter
    fun left right => identifierKey print left.tokens ≠ identifierKey print right.tokens

/-- `InterfaceGroup::key` -/
def groupKey (group : List Path) : String :=
  identifierKey print (joined (group.map Path.tokens))

end Printed

/-! ## Namespaces -/

/-- `Namespace::named` -/
def namedIdent (name : Word) : Option Word :=
  if name.unraw.name ≠ "default" then some name else none

/-- A registration or a query as it is written. -/
structure Written where
  ns : Option Word
  first : Path
  rest : List Path

namespace Written

def paths (w : Written) : List Path :=
  w.first :: w.rest

/-- `Namespace::registration` and `Namespace::query` -/
def namespaceOf (w : Written) : Option Word :=
  w.ns.bind namedIdent

/-- The name of the namespace; `default` may be left out. -/
def namespaceText (w : Written) : String :=
  (w.ns.map fun name => name.unraw.name).getD "default"

variable (print : List Token → String)

/-- `interface.key()` -/
def interface (w : Written) : String :=
  groupKey print (parseGroup print w.paths)

/-- `namespace.key(&interface)` -/
def key (w : Written) : String :=
  match w.namespaceOf with
  | none => w.interface print
  | some name => w.interface print ++ " in " ++ name.unraw.name

/-- The first component of `scopegen::keys`. -/
def group (w : Written) : Key :=
  Scoped.key (w.interface print)

/-- The second component of `scopegen::keys`. -/
def path (w : Written) : PathTy :=
  .here (w.namespaceOf.map fun name => Scoped.key name.unraw.name)

/-- The third component of `scopegen::keys`. -/
def restriction (w : Written) : Key :=
  .pair (Scoped.key ((w.namespaceOf.map fun name => name.unraw.name).getD "default"))
    (w.group print)

/-- The same namespace and the same paths, in any order and number. -/
def Same (w w' : Written) : Prop :=
  w.namespaceText = w'.namespaceText ∧
    ∀ tokens, (∃ path ∈ w.paths, normalizeAll path.tokens = tokens) ↔
      ∃ path ∈ w'.paths, normalizeAll path.tokens = tokens

end Written

/-! ## Winners -/

section Winners

variable {α : Type} (identity : α → String)

/-- The map from identities to the last index. -/
def lastIndex (declared : List α) : String → Option Nat :=
  declared.zipIdx.foldl
    (fun winners entry => Function.update winners (identity entry.1) (some entry.2)) fun _ => none

/-- The declarations whose index is the one recorded. -/
def selectWinners (declared : List α) : List α :=
  declared.zipIdx.filterMap fun entry =>
    if lastIndex identity declared (identity entry.1) = some entry.2 then some entry.1 else none

end Winners

/-! ## Splitting a group -/

theorem scan_append (front back : List Token) (depth : Depth) :
    scan (front ++ back) depth = (scan front depth).bind (scan back) := by
  simp [scan, List.foldlM_append]
  rfl

theorem step_normalize (depth : Depth) (token : Token) :
    depth.step token.normalize = depth.step token := by
  cases token with
  | ident word => rfl
  | punct char joint => rfl
  | literal text => rfl
  | opening delimiter => rfl
  | closing delimiter => rfl

theorem scan_normalizeAll (tokens : List Token) (depth : Depth) :
    scan (normalizeAll tokens) depth = scan tokens depth := by
  induction tokens generalizing depth with
  | nil => rfl
  | cons token rest ih =>
      simp only [scan, normalizeAll, List.map_cons, List.foldlM_cons, step_normalize] at ih ⊢
      exact bind_congr fun next => ih next

/-- What follows a path in a group: nothing, or a `+`. -/
def Follows (tokens : List Token) : Prop :=
  tokens = [] ∨ ∃ rest, tokens = plus :: rest

/-- A path cannot be continued to a longer one by what follows it in a group. -/
theorem path_maximal {p more r : List Token} (hp : scan p .outside = some .outside)
    (hlonger : scan (p ++ more) .outside = some .outside) (hr : Follows (more ++ r)) :
    more = [] := by
  cases more with
  | nil => rfl
  | cons token more =>
      rcases hr with hr | ⟨rest, hr⟩
      · simp at hr
      · rw [List.cons_append] at hr
        injection hr with htoken _
        rw [scan_append, hp, htoken] at hlonger
        simp [scan, plus, Depth.outside, Depth.step, bind, Option.bind] at hlonger

/-- A path ends at the first `+` outside brackets. -/
theorem path_append_inj {p q r s : List Token} (hp : scan p .outside = some .outside)
    (hq : scan q .outside = some .outside) (hr : Follows r) (hs : Follows s)
    (h : p ++ r = q ++ s) : p = q ∧ r = s := by
  rcases List.append_eq_append_iff.1 h with ⟨more, rfl, rfl⟩ | ⟨more, rfl, rfl⟩
  · have hmore := path_maximal hp hq hr
    simp [hmore]
  · have hmore := path_maximal hq hp hs
    simp [hmore]

theorem joined_cons (path : List Token) (rest : List (List Token)) :
    ∃ more, joined (path :: rest) = path ++ more ∧ Follows more ∧
      (rest = [] → more = []) ∧ (rest ≠ [] → more = plus :: joined rest) := by
  cases rest with
  | nil => exact ⟨[], by simp [joined], Or.inl rfl, fun _ => rfl, fun h => absurd rfl h⟩
  | cons next rest =>
      exact ⟨plus :: joined (next :: rest), by simp [joined], Or.inr ⟨_, rfl⟩, by simp,
        fun _ => rfl⟩

/-- A group determines its paths. -/
theorem joined_injective {ps qs : List (List Token)}
    (hps : ∀ p ∈ ps, scan p .outside = some .outside)
    (hqs : ∀ q ∈ qs, scan q .outside = some .outside) (hps' : ps ≠ []) (hqs' : qs ≠ [])
    (h : joined ps = joined qs) : ps = qs := by
  induction ps generalizing qs with
  | nil => exact absurd rfl hps'
  | cons p ps ih =>
      cases qs with
      | nil => exact absurd rfl hqs'
      | cons q qs =>
          rcases joined_cons p ps with ⟨r, hr, hfollows, hlast, hmore⟩
          rcases joined_cons q qs with ⟨s, hs, hfollows', hlast', hmore'⟩
          rw [hr, hs] at h
          rcases path_append_inj (hps p List.mem_cons_self) (hqs q List.mem_cons_self) hfollows
            hfollows' h with ⟨rfl, rfl⟩
          by_cases hempty : ps = []
          · have hempty' : qs = [] := by
              by_contra hne
              have hmixed := (hlast hempty).symm.trans (hmore' hne)
              cases hmixed
            rw [hempty, hempty']
          · have hempty' : qs ≠ [] := by
              intro hnil
              have hmixed := (hlast' hnil).symm.trans (hmore hempty)
              cases hmixed
            have htail := (hmore hempty).symm.trans (hmore' hempty')
            injection htail with _ htail
            rw [ih (fun p hp => hps p (List.mem_cons_of_mem _ hp))
              (fun q hq => hqs q (List.mem_cons_of_mem _ hq)) hempty hempty' htail]

theorem normalizeAll_append (front back : List Token) :
    normalizeAll (front ++ back) = normalizeAll front ++ normalizeAll back := by
  simp [normalizeAll]

theorem normalizeAll_joined (ps : List (List Token)) :
    normalizeAll (joined ps) = joined (ps.map normalizeAll) := by
  induction ps with
  | nil => rfl
  | cons p ps ih =>
      cases ps with
      | nil => rfl
      | cons q qs =>
          have hplus : normalizeAll (plus :: joined (q :: qs)) = plus :: normalizeAll (joined (q :: qs)) :=
            rfl
          rw [joined, normalizeAll_append, hplus, ih]
          · rfl
          · simp

theorem Complete.append (front : List Token) {back : List Token} (h : Complete back) :
    Complete (front ++ back) := by
  rcases h with ⟨inner, last, rfl, hlast⟩
  exact ⟨front ++ inner, last, by simp, hlast⟩

theorem complete_joined {ps : List (List Token)} (hps : ∀ p ∈ ps, Complete p) (hne : ps ≠ []) :
    Complete (joined ps) := by
  induction ps with
  | nil => exact absurd rfl hne
  | cons p ps ih =>
      cases ps with
      | nil => simpa [joined] using hps p List.mem_cons_self
      | cons q qs =>
          have hrest : Complete (joined (q :: qs)) :=
            ih (fun p hp => hps p (List.mem_cons_of_mem _ hp)) (List.cons_ne_nil _ _)
          simp only [joined]
          exact (hrest.append [plus]).append p

theorem joined_append_last (front : List (List Token)) (path words : List Token) :
    joined (front ++ [path]) ++ words = joined (front ++ [path ++ words]) := by
  induction front with
  | nil => simp [joined]
  | cons first front ih =>
      have hjoined : ∀ last : List Token,
          joined (first :: (front ++ [last])) = first ++ plus :: joined (front ++ [last]) := by
        intro last
        cases front <;> rfl
      simp only [List.cons_append, hjoined, List.append_assoc, ih]

/-! ## The normal form of a group -/

theorem ident_of_normalize {token : Token} {word : Word} (h : token.normalize = .ident word) :
    ∃ word', token = .ident word' ∧ word'.name = word.name := by
  cases token with
  | ident word' =>
      injection h with h
      exact ⟨word', rfl, by rw [← h]; rfl⟩
  | punct char joint => cases h
  | literal text => cases h
  | opening delimiter => cases h
  | closing delimiter => cases h

namespace Path

/-- The tokens of a path, without `r#`. -/
def normal (path : Path) : List Token :=
  normalizeAll path.tokens

theorem balanced_normal (path : Path) : scan path.normal .outside = some .outside := by
  rw [normal, scan_normalizeAll, path.balanced]

theorem complete_normal (path : Path) : Complete path.normal := by
  rcases path.complete with ⟨front, last, htokens, hlast⟩
  refine ⟨normalizeAll front, last.normalize, ?_, ?_⟩
  · simp [normal, htokens, normalizeAll]
  · intro char
    cases last with
    | punct char' joint => simpa [Token.normalize] using hlast char
    | ident word => simp [Token.normalize]
    | literal text => simp [Token.normalize]
    | opening delimiter => simp [Token.normalize]
    | closing delimiter => simp [Token.normalize]

/-- No path is a path followed by `in` and a name. -/
theorem normal_ne (path path' : Path) (name : Word) :
    path.normal ≠ path'.normal ++ [.ident inWord, .ident name] := by
  intro h
  rcases List.map_eq_append_iff.1 h with ⟨front, back, htokens, hfront, hback⟩
  rcases List.map_eq_cons_iff.1 hback with ⟨first, back, rfl, hfirst, hback⟩
  rcases List.map_eq_cons_iff.1 hback with ⟨last, back, rfl, hlast, hback⟩
  have hnil : back = [] := by simpa using hback
  subst hnil
  rcases ident_of_normalize hfirst with ⟨word, rfl, hword⟩
  rcases ident_of_normalize hlast with ⟨word', rfl, _⟩
  refine path.ending front word word' htokens (by rw [hword]; rfl) ?_
  -- Without `r#` the front is a path, which is complete.
  rcases path'.complete_normal with ⟨inner, token, hinner, htoken⟩
  rw [← hfront] at hinner
  rcases List.map_eq_append_iff.1 hinner with ⟨front', back, rfl, _, hback⟩
  rcases List.map_eq_singleton_iff.1 hback with ⟨token', rfl, rfl⟩
  refine ⟨front', token', rfl, ?_⟩
  intro char heq
  exact htoken char (by rw [heq]; rfl)

end Path

/-- The tokens of a group, without `r#`. -/
def groupTokens (group : List Path) : List Token :=
  joined (group.map Path.normal)

theorem groupTokens_injective {ps qs : List Path} (hps : ps ≠ []) (hqs : qs ≠ [])
    (h : groupTokens ps = groupTokens qs) : ps.map Path.normal = qs.map Path.normal := by
  refine joined_injective ?_ ?_ (by simpa using hps) (by simpa using hqs) h
  · intro p hp
    rcases List.mem_map.1 hp with ⟨path, _, rfl⟩
    exact path.balanced_normal
  · intro q hq
    rcases List.mem_map.1 hq with ⟨path, _, rfl⟩
    exact path.balanced_normal

theorem complete_groupTokens {ps : List Path} (hps : ps ≠ []) : Complete (groupTokens ps) := by
  refine complete_joined ?_ (by simpa using hps)
  intro p hp
  rcases List.mem_map.1 hp with ⟨path, _, rfl⟩
  exact path.complete_normal

/-- No group is a group followed by `in` and a name. -/
theorem groupTokens_ne {ps qs : List Path} (hps : ps ≠ []) (hqs : qs ≠ []) (name : Word) :
    groupTokens ps ≠ groupTokens qs ++ [.ident inWord, .ident name] := by
  intro h
  rcases List.eq_nil_or_concat' qs with rfl | ⟨front, last, rfl⟩
  · exact hqs rfl
  · simp only [groupTokens, List.map_append, List.map_cons, List.map_nil] at h
    rw [joined_append_last] at h
    have hbalanced : ∀ (word name : Word) (tokens : List Token),
        scan tokens .outside = some .outside →
          scan (tokens ++ [.ident word, .ident name]) .outside = some .outside := by
      intro word name tokens htokens
      rw [scan_append, htokens]
      rfl
    have hlists := joined_injective (fun p hp => ?_) (fun q hq => ?_) (by simpa using hps)
      (by simp) h
    · have hmem : last.normal ++ [.ident inWord, .ident name] ∈
          ps.map Path.normal := by
        rw [hlists]
        simp
      rcases List.mem_map.1 hmem with ⟨path, _, hpath⟩
      exact path.normal_ne last name hpath
    · rcases List.mem_map.1 hp with ⟨path, _, rfl⟩
      exact path.balanced_normal
    · rcases List.mem_append.1 hq with hq | hq
      · rcases List.mem_map.1 hq with ⟨path, _, rfl⟩
        exact path.balanced_normal
      · rw [List.mem_singleton.1 hq]
        exact hbalanced _ _ _ last.balanced_normal

section Printed

variable {print : List Token → String}

theorem groupKey_eq (group : List Path) : groupKey print group = print (groupTokens group) := by
  rw [groupKey, identifierKey, normalizeAll_joined, groupTokens, List.map_map]
  rfl

theorem pairwise_sorted (texts : List String) :
    (texts.mergeSort fun a b => decide (a ≤ b)).Pairwise (· ≤ ·) := by
  have h := @List.pairwise_mergeSort String (fun a b => decide (a ≤ b))
    (by simpa using fun a b c : String => @le_trans _ _ a b c)
    (by simpa using fun a b : String => le_total a b) texts
  simpa using h

/-- The keys of a parsed group: those of the written paths, sorted, one of each. -/
theorem parseGroup_keys (paths : List Path) :
    ((parseGroup print paths).map fun path => print path.normal) =
      ((paths.map fun path => print path.normal).mergeSort fun a b => decide (a ≤ b)).dedup := by
  have hsorted : ((paths.mergeSort fun left right =>
      decide (identifierKey print left.tokens ≤ identifierKey print right.tokens)).map
        fun path => print path.normal) =
      (paths.map fun path => print path.normal).mergeSort fun a b => decide (a ≤ b) := by
    rw [List.map_mergeSort]
    intro a _ b _
    rfl
  have hdestutter : ((parseGroup print paths).map fun path => print path.normal) =
      ((paths.mergeSort fun left right =>
        decide (identifierKey print left.tokens ≤ identifierKey print right.tokens)).map
          fun path => print path.normal).destutter (· ≠ ·) :=
    List.map_destutter fun _ _ _ _ => Iff.rfl
  rw [hdestutter, hsorted]
  exact List.Pairwise.destutter_eq_dedup (pairwise_sorted _)

theorem mem_parseGroup_keys {paths : List Path} {text : String} :
    (text ∈ (parseGroup print paths).map fun path => print path.normal) ↔
      text ∈ paths.map fun path => print path.normal := by
  rw [parseGroup_keys, List.mem_dedup, List.mem_mergeSort]

theorem parseGroup_ne_nil {paths : List Path} (h : paths ≠ []) : parseGroup print paths ≠ [] := by
  intro hnil
  rcases List.exists_mem_of_ne_nil paths h with ⟨path, hpath⟩
  have hmem := (@mem_parseGroup_keys print paths (print path.normal)).2
    (List.mem_map.2 ⟨path, hpath, rfl⟩)
  rw [hnil] at hmem
  cases hmem

/-- Two groups have the same normal form when they are written with the same paths. -/
theorem parseGroup_eq_iff (hprint : Function.Injective print) {ps qs : List Path} :
    (parseGroup print ps).map Path.normal = (parseGroup print qs).map Path.normal ↔
      ∀ tokens, (∃ path ∈ ps, path.normal = tokens) ↔ ∃ path ∈ qs, path.normal = tokens := by
  have hkeys : ∀ rs : List Path,
      (rs.map fun path => print path.normal) = (rs.map Path.normal).map print := by
    intro rs
    simp
  have hmem : ∀ (rs : List Path) (tokens : List Token),
      (∃ path ∈ rs, path.normal = tokens) ↔ tokens ∈ (parseGroup print rs).map Path.normal := by
    intro rs tokens
    have hiff := @mem_parseGroup_keys print rs (print tokens)
    rw [hkeys, hkeys, List.mem_map_of_injective hprint, List.mem_map_of_injective hprint] at hiff
    rw [hiff, List.mem_map]
  refine ⟨?_, ?_⟩
  · intro h tokens
    rw [hmem, hmem, h]
  · intro h
    refine hprint.list_map ?_
    -- Both lists of keys are sorted and free of repetitions, with the same elements.
    have hsame : ∀ text, (text ∈ ps.map fun path => print path.normal) ↔
        text ∈ qs.map fun path => print path.normal := by
      intro text
      rw [hkeys, hkeys, List.mem_map, List.mem_map]
      simp only [List.mem_map, h]
    rw [← hkeys, ← hkeys, parseGroup_keys, parseGroup_keys]
    refine List.Perm.eq_of_pairwise' ((pairwise_sorted _).sublist (List.dedup_sublist _))
      ((pairwise_sorted _).sublist (List.dedup_sublist _)) ?_
    refine (List.perm_ext_iff_of_nodup (List.nodup_dedup _) (List.nodup_dedup _)).2 ?_
    intro text
    rw [List.mem_dedup, List.mem_dedup, List.mem_mergeSort, List.mem_mergeSort, hsame]

end Printed

/-! ## The two identities -/

namespace Written

variable {print : List Token → String}

theorem paths_ne_nil (w : Written) : w.paths ≠ [] :=
  List.cons_ne_nil _ _

theorem interface_inj (hprint : Function.Injective print) {w w' : Written} :
    w.interface print = w'.interface print ↔
      ∀ tokens, (∃ path ∈ w.paths, path.normal = tokens) ↔ ∃ path ∈ w'.paths, path.normal = tokens := by
  rw [interface, interface, groupKey_eq, groupKey_eq, hprint.eq_iff, ← parseGroup_eq_iff hprint]
  refine ⟨?_, ?_⟩
  · exact groupTokens_injective (parseGroup_ne_nil w.paths_ne_nil)
      (parseGroup_ne_nil w'.paths_ne_nil)
  · intro h
    rw [groupTokens, groupTokens, h]

theorem namespaceText_eq (w : Written) :
    w.namespaceText = (w.namespaceOf.map fun name => name.unraw.name).getD "default" := by
  cases hns : w.ns with
  | none => simp [namespaceText, namespaceOf, hns]
  | some name =>
      by_cases hname : name.name = "default"
      · simp [namespaceText, namespaceOf, hns, namedIdent, Word.unraw, hname]
      · simp [namespaceText, namespaceOf, hns, namedIdent, Word.unraw, hname]

theorem namespaceOf_ne_default {w : Written} {name : Word} (h : w.namespaceOf = some name) :
    name.name ≠ "default" := by
  rcases Option.bind_eq_some_iff.1 h with ⟨written, _, hnamed⟩
  by_cases hname : written.name = "default"
  · simp [namedIdent, Word.unraw, hname] at hnamed
  · have hsame : written = name := by simpa [namedIdent, Word.unraw, hname] using hnamed
    exact hsame ▸ hname

theorem namespaceText_inj {w w' : Written} :
    w.namespaceText = w'.namespaceText ↔
      (w.namespaceOf.map fun name => name.unraw.name) =
        w'.namespaceOf.map fun name => name.unraw.name := by
  rw [namespaceText_eq, namespaceText_eq]
  cases hns : w.namespaceOf with
  | none =>
      cases hns' : w'.namespaceOf with
      | none => simp
      | some name => simpa [Word.unraw] using (namespaceOf_ne_default hns').symm
  | some name =>
      cases hns' : w'.namespaceOf with
      | none => simpa [Word.unraw] using namespaceOf_ne_default hns
      | some name' => simp

/-- The keys of local lookup agree when the written names do. -/
theorem key_eq_iff (hprint : Function.Injective print)
    (hwords : ∀ tokens (name : Word), Complete tokens →
      print (tokens ++ [.ident inWord, .ident name.unraw]) = print tokens ++ " in " ++ name.name) {w w' : Written} :
    w.key print = w'.key print ↔ w.Same w' := by
  have hgroup : ∀ v : Written, parseGroup print v.paths ≠ [] := fun v =>
    parseGroup_ne_nil v.paths_ne_nil
  have hnamed : ∀ (v : Written) (name : Word), v.interface print ++ " in " ++ name.unraw.name =
      print (groupTokens (parseGroup print v.paths) ++ [.ident inWord, .ident name.unraw]) := by
    intro v name
    rw [hwords _ _ (complete_groupTokens (hgroup v)), interface, groupKey_eq]
    rfl
  have hplain : ∀ v : Written,
      v.interface print = print (groupTokens (parseGroup print v.paths)) := fun v => groupKey_eq _
  have hsame : w.Same w' ↔ (w.namespaceOf.map fun name => name.unraw.name) =
      (w'.namespaceOf.map fun name => name.unraw.name) ∧
        w.interface print = w'.interface print := by
    rw [Same, namespaceText_inj, interface_inj hprint]
    rfl
  rw [hsame]
  cases hns : w.namespaceOf with
  | none =>
      cases hns' : w'.namespaceOf with
      | none => simp [key, hns, hns']
      | some name' =>
          -- The text of a group would end with a namespace.
          simp only [key, hns, hns', Option.map_none, Option.map_some, reduceCtorEq, false_and,
            iff_false]
          rw [hnamed, hplain, hprint.eq_iff]
          exact groupTokens_ne (hgroup w) (hgroup w') _
  | some name =>
      cases hns' : w'.namespaceOf with
      | none =>
          simp only [key, hns, hns', Option.map_none, Option.map_some, reduceCtorEq, false_and,
            iff_false]
          rw [hnamed, hplain, hprint.eq_iff]
          exact (groupTokens_ne (hgroup w') (hgroup w) _).symm
      | some name' =>
          simp only [key, hns, hns', Option.map_some, Option.some.injEq]
          rw [hnamed, hnamed, hprint.eq_iff, hplain, hplain, hprint.eq_iff]
          refine ⟨?_, ?_⟩
          · intro h
            rcases List.append_inj' h rfl with ⟨htokens, hlast⟩
            simp only [List.cons.injEq, Token.ident.injEq, true_and, and_true] at hlast
            exact ⟨by rw [hlast], htokens⟩
          · intro h
            have hsame : name.unraw = name'.unraw := Word.ext rfl h.1
            rw [hsame, h.2]

/-- The type-level keys agree when the written names do. -/
theorem restriction_eq_iff (hprint : Function.Injective print) {w w' : Written} :
    w.restriction print = w'.restriction print ↔ w.Same w' := by
  calc
    w.restriction print = w'.restriction print ↔
        Scoped.key w.namespaceText = Scoped.key w'.namespaceText ∧
          w.group print = w'.group print := by
      rw [restriction, restriction, Key.pair.injEq, namespaceText_eq, namespaceText_eq]
    _ ↔ w.namespaceText = w'.namespaceText ∧ w.interface print = w'.interface print := by
      rw [group, group, key_inj, key_inj]
    _ ↔ w.Same w' := by
      rw [interface_inj hprint]
      rfl

/-- The types `scopegen` generates determine the written names. -/
theorem same_of_types (hprint : Function.Injective print) {w w' : Written}
    (hgroup : w.group print = w'.group print) (hpath : w.path = w'.path) : w.Same w' := by
  refine ⟨?_, (interface_inj hprint).1 (key_inj.1 hgroup)⟩
  rw [namespaceText_inj]
  rw [path, path, PathTy.here.injEq] at hpath
  refine Option.map_injective key_injective ?_
  rw [Option.map_map, Option.map_map]
  exact hpath

end Written

/-! ## Winners are last -/

section Winners

variable {α : Type} {identity : α → String}

theorem lastIndex_spec {entries : List (α × Nat)} (hincreasing : entries.Pairwise (·.2 < ·.2))
    {entry : α × Nat} (hentry : entry ∈ entries) :
    entries.foldl (fun winners entry => Function.update winners (identity entry.1) (some entry.2))
        (fun _ => none) (identity entry.1) = some entry.2 ↔
      ∀ later ∈ entries, entry.2 < later.2 → identity later.1 ≠ identity entry.1 := by
  induction entries using List.reverseRecOn with
  | nil => cases hentry
  | append_singleton front last ih =>
      rcases List.pairwise_append.1 hincreasing with ⟨hfront, _, hlast⟩
      have hbefore : ∀ e ∈ front, e.2 < last.2 := fun e he => hlast e he last List.mem_cons_self
      rw [List.foldl_append, List.foldl_cons, List.foldl_nil]
      rcases List.mem_append.1 hentry with hmem | hmem
      · by_cases hidentity : identity last.1 = identity entry.1
        · rw [hidentity, Function.update_self]
          have hne : some last.2 ≠ some entry.2 := by
            simpa using (hbefore entry hmem).ne'
          refine iff_of_false hne ?_
          intro h
          exact h last (by simp) (hbefore entry hmem) hidentity
        · rw [Function.update_of_ne (Ne.symm hidentity), ih hfront hmem]
          refine ⟨?_, fun h later hlater => h later (by simp [hlater])⟩
          intro h later hlater hlt
          rcases List.mem_append.1 hlater with hlater | hlater
          · exact h later hlater hlt
          · rw [List.mem_singleton.1 hlater]
            exact hidentity
      · rw [List.mem_singleton.1 hmem, Function.update_self]
        refine iff_of_true rfl ?_
        intro later hlater hlt
        rcases List.mem_append.1 hlater with hlater | hlater
        · exact absurd hlt (hbefore later hlater).asymm
        · rw [List.mem_singleton.1 hlater] at hlt
          exact absurd hlt (lt_irrefl _)

theorem pairwise_zipIdx (declared : List α) : declared.zipIdx.Pairwise (·.2 < ·.2) := by
  have h : (declared.zipIdx.map Prod.snd).Pairwise (· < ·) := by
    rw [List.zipIdx_map_snd]
    exact List.pairwise_lt_range'
  exact List.pairwise_map.1 h

theorem selectWinners_filter (declared : List α) :
    selectWinners identity declared = (declared.zipIdx.filter fun entry =>
      decide (lastIndex identity declared (identity entry.1) = some entry.2)).map Prod.fst := by
  rw [selectWinners]
  generalize declared.zipIdx = entries
  induction entries with
  | nil => rfl
  | cons entry entries ih =>
      by_cases hlast : lastIndex identity declared (identity entry.1) = some entry.2
      · simp [hlast, ih]
      · simp [hlast, ih]

/-- The declarations kept, with their positions. -/
theorem selectWinners_eq (declared : List α) :
    ∃ kept : List (α × Nat), kept.Sublist declared.zipIdx ∧
      selectWinners identity declared = kept.map Prod.fst ∧
      ∀ entry ∈ declared.zipIdx, entry ∈ kept ↔
        ∀ later ∈ declared.zipIdx, entry.2 < later.2 → identity later.1 ≠ identity entry.1 := by
  refine ⟨declared.zipIdx.filter fun entry =>
    decide (lastIndex identity declared (identity entry.1) = some entry.2), List.filter_sublist,
    selectWinners_filter declared, ?_⟩
  intro entry hentry
  simp only [List.mem_filter, hentry, true_and, decide_eq_true_eq]
  exact lastIndex_spec (pairwise_zipIdx declared) hentry

end Winners

/-- Reading `winners` with positions: a declaration stays unless a later one has its identity. -/
theorem winners_zipIdx {T : Type} (registrations : List (Registration T)) (start : Nat) :
    winners registrations =
      ((registrations.zipIdx start).filter fun entry =>
        (registrations.zipIdx start).all fun later =>
          !(decide (entry.2 < later.2) && later.1.identity == entry.1.identity)).map Prod.fst := by
  induction registrations generalizing start with
  | nil => rfl
  | cons first rest ih =>
      have hafter : ∀ entry ∈ rest.zipIdx (start + 1), start < entry.2 := by
        intro entry hentry
        exact List.le_snd_of_mem_zipIdx hentry
      -- The first declaration is before all others, so it cannot supersede one.
      have hrest : ∀ entry ∈ rest.zipIdx (start + 1),
          ((first, start) :: rest.zipIdx (start + 1)).all (fun later =>
            !(decide (entry.2 < later.2) && later.1.identity == entry.1.identity)) =
          (rest.zipIdx (start + 1)).all fun later =>
            !(decide (entry.2 < later.2) && later.1.identity == entry.1.identity) := by
        intro entry hentry
        have hbefore : ¬entry.2 < start := (hafter entry hentry).asymm
        simp [hbefore]
      have hfirst : ((first, start) :: rest.zipIdx (start + 1)).all (fun later =>
            !(decide (start < later.2) && later.1.identity == first.identity)) =
          !rest.any fun later => later.identity == first.identity := by
        have hnames : rest.any (fun later => later.identity == first.identity) =
            (rest.zipIdx (start + 1)).any fun later => later.1.identity == first.identity := by
          have hmap : ((rest.zipIdx (start + 1)).map Prod.fst).any
              (fun later => later.identity == first.identity) =
              (rest.zipIdx (start + 1)).any fun later => later.1.identity == first.identity :=
            List.any_map
          rwa [List.zipIdx_map_fst] at hmap
        rw [hnames, List.not_any_eq_all_not, Bool.eq_iff_iff]
        simp only [List.all_cons, lt_irrefl, decide_false, Bool.false_and, Bool.not_false,
          Bool.true_and, List.all_eq_true]
        refine forall_congr' fun later => forall_congr' fun hlater => ?_
        simp [hafter later hlater]
      rw [List.zipIdx_cons, List.filter_cons, hfirst, winners, List.filter_congr hrest]
      cases rest.any fun later => later.identity == first.identity with
      | true => simpa using ih (start + 1)
      | false => simpa using ih (start + 1)

/-- The winners of an accepted container are selected so. -/
theorem winners_eq {T : Type} (registrations : List (Registration T)) :
    winners registrations = selectWinners Registration.identity registrations := by
  rw [winners_zipIdx registrations 0, selectWinners_filter]
  refine congrArg (List.map Prod.fst) (List.filter_congr ?_)
  intro entry hentry
  have hspec := @lastIndex_spec _ Registration.identity _ (pairwise_zipIdx registrations) _ hentry
  rw [Bool.eq_iff_iff, List.all_eq_true, decide_eq_true_iff, lastIndex, hspec]
  refine forall_congr' fun later => forall_congr' fun _ => ?_
  by_cases hlt : entry.2 < later.2
  · simp [hlt]
  · simp [hlt]

/-- The text of local lookup and the types of child lookup identify the same registrations, and one
declaration of each identity wins. -/
theorem registration_identity (print : List Token → String) (hprint : Function.Injective print)
    (hwords : ∀ tokens (name : Word), Complete tokens →
      print (tokens ++ [.ident inWord, .ident name.unraw]) = print tokens ++ " in " ++ name.name) :
    (∀ w w' : Written, (w.key print = w'.key print ↔ w.Same w') ∧
      (w.key print = w'.key print ↔
        Equal (w.restriction print) (w'.restriction print) .yes)) ∧
    ∀ declared : List Written, ∃ kept : List (Written × Nat), kept.Sublist declared.zipIdx ∧
      selectWinners (Written.key print) declared = kept.map Prod.fst ∧
      (∀ entry ∈ declared.zipIdx, entry ∈ kept ↔
        ∀ later ∈ declared.zipIdx, entry.2 < later.2 → ¬later.1.Same entry.1) ∧
      (selectWinners (Written.key print) declared).Pairwise fun w w' =>
        ¬(w.group print = w'.group print ∧ w.path = w'.path) := by
  refine ⟨?_, ?_⟩
  · intro w w'
    have hsame := @Written.key_eq_iff print hprint hwords w w'
    refine ⟨hsame, ?_⟩
    rw [hsame, equal_iff, eq_comm, answer_eq_yes, Written.restriction_eq_iff hprint]
  · intro declared
    rcases @selectWinners_eq _ (Written.key print) declared with ⟨kept, hsublist, hselected, hkept⟩
    have hlast : ∀ entry ∈ declared.zipIdx, entry ∈ kept ↔
        ∀ later ∈ declared.zipIdx, entry.2 < later.2 → ¬later.1.Same entry.1 := by
      intro entry hentry
      rw [hkept entry hentry]
      simp only [Ne, Written.key_eq_iff hprint hwords]
    refine ⟨kept, hsublist, hselected, hlast, ?_⟩
    rw [hselected, List.pairwise_map]
    have hincreasing : kept.Pairwise (·.2 < ·.2) := (pairwise_zipIdx declared).sublist hsublist
    refine (List.pairwise_iff_forall_sublist.2 ?_)
    intro entry later hpair htypes
    have hmem : entry ∈ kept := hpair.subset List.mem_cons_self
    have hmem' : later ∈ kept := hpair.subset (by simp)
    have hlt : entry.2 < later.2 := List.pairwise_iff_forall_sublist.1 hincreasing hpair
    refine (hlast entry (hsublist.subset hmem)).1 hmem later (hsublist.subset hmem') hlt ?_
    exact Written.same_of_types hprint htypes.1.symm htypes.2.symm

/-! ## A printer -/

/-- Words, each followed by a separator. -/
def terminated (separator : Char) (words : List (List Char)) : List Char :=
  words.flatMap fun word => word ++ [separator]

theorem terminated_injective {separator : Char} {a b : List (List Char)}
    (ha : ∀ word ∈ a, separator ∉ word) (hb : ∀ word ∈ b, separator ∉ word)
    (h : terminated separator a = terminated separator b) : a = b := by
  induction a generalizing b with
  | nil =>
      cases b with
      | nil => rfl
      | cons y b => simp [terminated] at h
  | cons x a ih =>
      cases b with
      | nil => simp [terminated] at h
      | cons y b =>
          have hx : separator ∉ x := ha x List.mem_cons_self
          have hy : separator ∉ y := hb y List.mem_cons_self
          simp only [terminated, List.flatMap_cons, List.append_assoc, List.singleton_append] at h
          -- Neither word contains the separator, so both end at the first one.
          have hwords : x = y ∧ terminated separator a = terminated separator b := by
            rcases List.append_eq_append_iff.1 h with ⟨more, rfl, hmore⟩ | ⟨more, rfl, hmore⟩
            · cases more with
              | nil => simpa [terminated] using hmore
              | cons c more =>
                  injection hmore with hc _
                  subst hc
                  simp at hy
            · cases more with
              | nil => simpa [terminated, eq_comm] using hmore
              | cons c more =>
                  injection hmore with hc _
                  subst hc
                  simp at hx
          rw [hwords.1, ih (fun word hword => ha word (List.mem_cons_of_mem _ hword))
            (fun word hword => hb word (List.mem_cons_of_mem _ hword)) hwords.2]

/-- A code of numbers that has no spaces. -/
def unary (numbers : List Nat) : List Char :=
  terminated '.' (numbers.map fun number => List.replicate number 'x')

theorem unary_injective {a b : List Nat} (h : unary a = unary b) : a = b := by
  have hfree : ∀ numbers : List Nat, ∀ word ∈ numbers.map (List.replicate · 'x'), '.' ∉ word := by
    intro numbers word hword
    rcases List.mem_map.1 hword with ⟨number, _, rfl⟩
    simp
  have hmap := terminated_injective (hfree a) (hfree b) h
  refine List.map_injective_iff.2 ?_ hmap
  intro x y hxy
  simpa using congrArg List.length hxy

theorem space_notMem_unary (numbers : List Nat) : ' ' ∉ unary numbers := by
  simp [unary, terminated]

def Delimiter.code : Delimiter → Nat
  | .parenthesis => 0
  | .brace => 1
  | .bracket => 2
  | .none => 3

theorem Delimiter.code_injective : Function.Injective Delimiter.code := by
  intro a b h
  cases a <;> cases b <;> simp_all [Delimiter.code]

/-- A token that is not a word, as numbers. -/
def Token.code : Token → List Nat
  | .ident _ => []
  | .punct char joint => [0, char.toNat, joint.toNat]
  | .literal text => 1 :: text.toList.map Char.toNat
  | .opening delimiter => [2, delimiter.code]
  | .closing delimiter => [3, delimiter.code]

/-- A word is printed as it is written, every other token by a code. -/
def Token.print : Token → List Char
  | .ident word => (if word.raw then ['r', '#'] else []) ++ word.name.toList
  | token => '#' :: unary token.code

/-- Tokens with a space between them. -/
def spaced (tokens : List Token) : String :=
  String.ofList ([' '].intercalate (tokens.map Token.print))

theorem Word.notMem {word : Word} {char : Char} (h : isWordChar char = false) :
    char ∉ word.name.toList := by
  intro hmem
  have hchar := List.all_eq_true.1 word.chars char hmem
  rw [h] at hchar
  cases hchar

theorem Token.space_notMem_print (token : Token) : ' ' ∉ token.print := by
  cases token with
  | ident word =>
      have hname : ' ' ∉ word.name.toList := Word.notMem (by decide)
      cases hraw : word.raw <;> simpa [Token.print, hraw] using hname
  | _ => simpa [Token.print] using space_notMem_unary _

theorem Token.code_injective {a b : Token} (ha : ∀ word, a ≠ .ident word)
    (hb : ∀ word, b ≠ .ident word) (h : a.code = b.code) : a = b := by
  have hchars : Function.Injective (List.map Char.toNat) :=
    List.map_injective_iff.2 fun _ _ hchar => Char.toNat_inj.1 hchar
  have hbool : Function.Injective Bool.toNat := by
    intro x y hxy
    revert hxy
    cases x <;> cases y <;> decide
  cases a with
  | ident word => exact absurd rfl (ha word)
  | punct char joint =>
      cases b <;> simp_all [Token.code, Char.toNat_inj, hbool.eq_iff]
  | literal text =>
      cases b <;> simp_all [Token.code, hchars.eq_iff, String.toList_inj]
  | opening delimiter => cases b <;> simp_all [Token.code, Delimiter.code_injective.eq_iff]
  | closing delimiter => cases b <;> simp_all [Token.code, Delimiter.code_injective.eq_iff]

/-- A word does not start like a code. -/
theorem Token.print_word_ne (word : Word) (code : List Char) :
    Token.print (.ident word) ≠ '#' :: code := by
  intro h
  cases hraw : word.raw with
  | true => simp [Token.print, hraw] at h
  | false =>
      have hname : '#' ∉ word.name.toList := Word.notMem (by decide)
      simp only [Token.print, hraw, Bool.false_eq_true, if_false, List.nil_append] at h
      simp [h] at hname

theorem Token.print_word_injective {word word' : Word}
    (h : Token.print (.ident word) = Token.print (.ident word')) : word = word' := by
  have hname : ∀ w : Word, '#' ∉ w.name.toList := fun w => Word.notMem (by decide)
  cases hraw : word.raw with
  | true =>
      cases hraw' : word'.raw with
      | true =>
          simp only [Token.print, hraw, hraw', if_true, List.append_cancel_left_eq,
            String.toList_inj] at h
          exact Word.ext (hraw.trans hraw'.symm) h
      | false =>
          simp only [Token.print, hraw, hraw', if_true, Bool.false_eq_true, if_false,
            List.nil_append] at h
          exact absurd (h ▸ by simp) (hname word')
  | false =>
      cases hraw' : word'.raw with
      | true =>
          simp only [Token.print, hraw, hraw', if_true, Bool.false_eq_true, if_false,
            List.nil_append] at h
          exact absurd (h ▸ by simp) (hname word)
      | false =>
          simp only [Token.print, hraw, hraw', Bool.false_eq_true, if_false, List.nil_append,
            String.toList_inj] at h
          exact Word.ext (hraw.trans hraw'.symm) h

theorem Token.print_code {token : Token} (h : ∀ word, token ≠ .ident word) :
    token.print = '#' :: unary token.code := by
  cases token with
  | ident word => exact absurd rfl (h word)
  | _ => rfl

theorem Token.print_injective : Function.Injective Token.print := by
  intro a b h
  by_cases ha : ∃ word, a = .ident word
  · rcases ha with ⟨word, rfl⟩
    by_cases hb : ∃ word', b = .ident word'
    · rcases hb with ⟨word', rfl⟩
      rw [Token.print_word_injective h]
    · rw [Token.print_code (not_exists.1 hb)] at h
      exact absurd h (Token.print_word_ne word _)
  · rw [Token.print_code (not_exists.1 ha)] at h
    by_cases hb : ∃ word', b = .ident word'
    · rcases hb with ⟨word', rfl⟩
      exact absurd h.symm (Token.print_word_ne word' _)
    · rw [Token.print_code (not_exists.1 hb)] at h
      injection h with _ h
      exact Token.code_injective (not_exists.1 ha) (not_exists.1 hb) (unary_injective h)

theorem Token.print_ne_nil (token : Token) : token.print ≠ [] := by
  cases token with
  | ident word =>
      have hname : word.name.toList ≠ [] := by simpa using word.nonempty
      simp [Token.print, hname]
  | _ => simp [Token.print]

theorem intercalate_terminated {words : List (List Char)} (h : words ≠ []) :
    [' '].intercalate words ++ [' '] = terminated ' ' words := by
  induction words with
  | nil => exact absurd rfl h
  | cons word words ih =>
      cases words with
      | nil => simp [terminated]
      | cons next words =>
          rw [List.intercalate_cons_cons, List.append_assoc, ih (List.cons_ne_nil _ _)]
          simp [terminated]

theorem spaced_injective : Function.Injective spaced := by
  intro a b h
  have hchars : [' '].intercalate (a.map Token.print) = [' '].intercalate (b.map Token.print) := by
    simpa [spaced, String.ofList_inj] using h
  have hempty : ∀ tokens : List Token,
      [' '].intercalate (tokens.map Token.print) = [] → tokens = [] := by
    intro tokens hnil
    cases tokens with
    | nil => rfl
    | cons token tokens =>
        cases tokens with
        | nil => simp [Token.print_ne_nil] at hnil
        | cons next tokens =>
            rw [List.map_cons, List.map_cons, List.intercalate_cons_cons] at hnil
            simp at hnil
  by_cases ha : a = []
  · subst ha
    exact (hempty b hchars.symm).symm
  · have hb : b ≠ [] := by
      intro hb
      subst hb
      exact ha (hempty a hchars)
    have hfree : ∀ tokens : List Token, ∀ word ∈ tokens.map Token.print, ' ' ∉ word := by
      intro tokens word hword
      rcases List.mem_map.1 hword with ⟨token, _, rfl⟩
      exact token.space_notMem_print
    have hterminated : terminated ' ' (a.map Token.print) = terminated ' ' (b.map Token.print) := by
      rw [← intercalate_terminated (by simpa using ha), ← intercalate_terminated (by simpa using hb),
        hchars]
    exact Token.print_injective.list_map (terminated_injective (hfree a) (hfree b) hterminated)

theorem intercalate_append {words : List (List Char)} (h : words ≠ []) (word : List Char) :
    [' '].intercalate (words ++ [word]) = [' '].intercalate words ++ ' ' :: word := by
  induction words with
  | nil => exact absurd rfl h
  | cons first words ih =>
      cases words with
      | nil => simp [List.intercalate_cons_cons]
      | cons next words =>
          have hrest := ih (List.cons_ne_nil _ _)
          rw [List.cons_append] at hrest ⊢
          rw [List.cons_append, List.intercalate_cons_cons, hrest, List.intercalate_cons_cons]
          simp

theorem spaced_words (tokens : List Token) (name : Word) (h : Complete tokens) :
    spaced (tokens ++ [.ident inWord, .ident name.unraw]) =
      spaced tokens ++ " in " ++ name.name := by
  have hne : tokens.map Token.print ≠ [] := by
    rcases h with ⟨front, last, rfl, _⟩
    simp
  have hsplit : (tokens ++ [Token.ident inWord, Token.ident name.unraw]).map Token.print =
      tokens.map Token.print ++ [['i', 'n']] ++ [name.name.toList] := by
    simp [Token.print, inWord, Word.unraw]
  refine String.toList_inj.1 ?_
  rw [spaced, spaced, hsplit, intercalate_append (by simp), intercalate_append hne]
  simp

/-- `IValue` -/
def iValue : Path where
  tokens := [.ident ⟨false, "IValue", by decide, by decide⟩]
  complete := ⟨[], _, rfl, by simp⟩
  balanced := rfl
  ending := by
    intro front first last h
    have hlength := congrArg List.length h
    simp at hlength

def test : Word :=
  ⟨false, "test", by decide, by decide⟩

/-- `IValue in test`, and `IValue + IValue in r#test`. -/
theorem registration_identity_test :
    Function.Injective spaced ∧
      (⟨some test, iValue, []⟩ : Written).key spaced = "IValue in test" ∧
      (⟨some test, iValue, []⟩ : Written).key spaced =
        (⟨some { test with raw := true }, iValue, [iValue]⟩ : Written).key spaced := by
  have hsame : (⟨some test, iValue, []⟩ : Written).Same
      ⟨some { test with raw := true }, iValue, [iValue]⟩ := by
    refine ⟨rfl, ?_⟩
    intro tokens
    simp [Written.paths]
  refine ⟨spaced_injective, by decide +kernel, ?_⟩
  exact ((registration_identity spaced spaced_injective spaced_words).1 _ _).1.2 hsame

end Scoped
end Systasis
