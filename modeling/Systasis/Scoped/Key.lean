import Mathlib.Data.Nat.Log
import Mathlib.Data.Nat.Bitwise
import Mathlib.Data.List.Basic

/-!
# Key — identifiers as types

Model of `key` in `systasis-macros/src/scopegen.rs`: a text becomes a balanced tree over its UTF-8
bits, padded to a power of two.  Distinct texts give distinct types, because the leaves of the tree
read the text back.  The trait `Equal` of `src/scoped/key.rs` compares two such types structurally.
-/

namespace Systasis
namespace Scoped

/-- The types of `src/scoped/key.rs`. -/
inductive Key where
  | zero
  | one
  | pad
  | pair (left right : Key)
  deriving DecidableEq, Repr

/-- The eight bits of a byte, least significant first. -/
def bits (byte : UInt8) : List Key :=
  (List.range 8).map fun bit => if byte.toNat.testBit bit then .one else .zero

def textBits (text : String) : List Key :=
  text.toByteArray.data.toList.flatMap bits

/-- `leaves.resize(leaves.len().max(1).next_power_of_two(), Pad)` -/
def resize (leaves : List Key) : List Key :=
  leaves ++ List.replicate (2 ^ Nat.clog 2 (max leaves.length 1) - leaves.length) .pad

/-- `as_chunks::<2>().0`, each chunk paired. -/
def pairs : List Key → List Key
  | left :: right :: rest => .pair left right :: pairs rest
  | _ => []

theorem length_pairs (leaves : List Key) : (pairs leaves).length = leaves.length / 2 := by
  induction leaves using pairs.induct with
  | case1 left right rest ih =>
      simp only [pairs, List.length_cons, ih]
      omega
  | case2 leaves hshort =>
      cases leaves with
      | nil => rfl
      | cons left rest =>
          cases rest with
          | nil => simp [pairs]
          | cons right rest => exact (hshort left right rest rfl).elim

/-- `while leaves.len() > 1 { .. }` -/
def collapse (leaves : List Key) : List Key :=
  if 1 < leaves.length then collapse (pairs leaves) else leaves
termination_by leaves.length
decreasing_by
  rw [length_pairs]
  omega

/-- `scopegen::key` -/
def key (text : String) : Key :=
  (collapse (resize (textBits text))).getLastD .pad

/-! ## Reading a key back -/

def Key.leaves : Key → List Key
  | .pair left right => left.leaves ++ right.leaves
  | leaf => [leaf]

theorem flatMap_leaves_pairs (l : List Key) (heven : l.length % 2 = 0) :
    (pairs l).flatMap Key.leaves = l.flatMap Key.leaves := by
  induction l using pairs.induct with
  | case1 left right rest ih =>
      have hrest : rest.length % 2 = 0 := by
        simp only [List.length_cons] at heven
        omega
      simp [pairs, Key.leaves, ih hrest]
  | case2 l hshort =>
      cases l with
      | nil => rfl
      | cons left rest =>
          cases rest with
          | nil => simp at heven
          | cons right rest => exact (hshort left right rest rfl).elim

/-- A power of two of leaves collapses to one tree over the same leaves. -/
theorem collapse_spec (k : Nat) (l : List Key) (hlength : l.length = 2 ^ k) :
    ∃ tree, collapse l = [tree] ∧ tree.leaves = l.flatMap Key.leaves := by
  induction k generalizing l with
  | zero =>
      rcases List.length_eq_one_iff.1 (by simpa using hlength) with ⟨tree, rfl⟩
      exact ⟨tree, by simp [collapse], by simp⟩
  | succ k ih =>
      have hhalf : (pairs l).length = 2 ^ k := by
        rw [length_pairs, hlength, Nat.pow_succ, Nat.mul_div_cancel _ (by decide)]
      have heven : l.length % 2 = 0 := by
        rw [hlength, Nat.pow_succ]
        exact Nat.mul_mod_left _ _
      have hlong : 1 < l.length := by
        rw [hlength]
        exact Nat.one_lt_two_pow (Nat.succ_ne_zero k)
      rcases ih (pairs l) hhalf with ⟨tree, htree, hleaves⟩
      refine ⟨tree, ?_, hleaves.trans (flatMap_leaves_pairs l heven)⟩
      rw [collapse, if_pos hlong, htree]

theorem length_resize (l : List Key) :
    (resize l).length = 2 ^ Nat.clog 2 (max l.length 1) := by
  have hle : l.length ≤ 2 ^ Nat.clog 2 (max l.length 1) :=
    (Nat.le_max_left _ _).trans (Nat.le_pow_clog Nat.one_lt_two _)
  simp only [resize, List.length_append, List.length_replicate]
  omega

def Key.IsBit : Key → Prop
  | .zero | .one => True
  | _ => False

theorem isBit_of_mem_textBits {text : String} {leaf : Key} (hmem : leaf ∈ textBits text) :
    leaf.IsBit := by
  simp only [textBits, bits, List.mem_flatMap, List.mem_map] at hmem
  rcases hmem with ⟨byte, _, bit, _, rfl⟩
  split <;> trivial

/-- The leaves of a key are the bits of its text and padding. -/
theorem leaves_key (text : String) : (key text).leaves = resize (textBits text) := by
  rcases collapse_spec _ _ (length_resize (textBits text)) with ⟨tree, htree, hleaves⟩
  have hatoms : (resize (textBits text)).flatMap Key.leaves = resize (textBits text) := by
    have hatom : ∀ leaf ∈ resize (textBits text), leaf.leaves = [leaf] := by
      intro leaf hmem
      rcases List.mem_append.1 hmem with hbit | hpad
      · have hisBit := isBit_of_mem_textBits hbit
        cases leaf with
        | pair left right => exact hisBit.elim
        | _ => rfl
      · rw [List.eq_of_mem_replicate hpad]
        rfl
    rw [List.flatMap_congr hatom]
    simp
  rw [key, htree, ← hatoms, ← hleaves]
  rfl

/-! ## Injectivity -/

theorem filter_resize (text : String) :
    (resize (textBits text)).filter (fun leaf => leaf ≠ .pad) = textBits text := by
  have hbits : (textBits text).filter (fun leaf => leaf ≠ .pad) = textBits text := by
    refine List.filter_eq_self.2 ?_
    intro leaf hmem
    have hisBit := isBit_of_mem_textBits hmem
    cases leaf with
    | pad => exact hisBit.elim
    | _ => rfl
  have hpads : ∀ n, (List.replicate n Key.pad).filter (fun leaf => leaf ≠ .pad) = [] := by
    intro n
    simp
  rw [resize, List.filter_append, hbits, hpads, List.append_nil]

theorem bits_injective {a b : UInt8} (h : bits a = bits b) : a = b := by
  have hbit : ∀ i, a.toNat.testBit i = b.toNat.testBit i := by
    intro i
    by_cases hi : i < 8
    · have hi' : i ∈ List.range 8 := List.mem_range.2 hi
      have hmap := List.map_inj_left.1 h i hi'
      cases ha : a.toNat.testBit i <;> cases hb : b.toNat.testBit i <;> simp_all
    · have hbound : (2 : Nat) ^ 8 ≤ 2 ^ i := Nat.pow_le_pow_right (by decide) (by omega)
      have ha : a.toNat < 2 ^ i := lt_of_lt_of_le a.toNat_lt hbound
      have hb : b.toNat < 2 ^ i := lt_of_lt_of_le b.toNat_lt hbound
      rw [Nat.testBit_eq_false_of_lt ha, Nat.testBit_eq_false_of_lt hb]
  exact UInt8.toNat_inj.1 (Nat.eq_of_testBit_eq hbit)

theorem flatMap_bits_injective (a b : List UInt8) (h : a.flatMap bits = b.flatMap bits) :
    a = b := by
  induction a generalizing b with
  | nil =>
      cases b with
      | nil => rfl
      | cons y b => simp [bits] at h
  | cons x a ih =>
      cases b with
      | nil => simp [bits] at h
      | cons y b =>
          simp only [List.flatMap_cons] at h
          rcases List.append_inj h (by simp [bits]) with ⟨hx, hrest⟩
          rw [bits_injective hx, ih b hrest]

/-- Distinct texts have distinct keys. -/
theorem key_injective : Function.Injective key := by
  intro a b h
  have hleaves : resize (textBits a) = resize (textBits b) := by
    rw [← leaves_key a, ← leaves_key b, h]
  have hbits : textBits a = textBits b := by
    rw [← filter_resize a, ← filter_resize b, hleaves]
  have hbytes := flatMap_bits_injective _ _ hbits
  exact String.toByteArray_inj.1 (ByteArray.ext (Array.toList_inj.1 hbytes))

@[simp]
theorem key_inj {a b : String} : key a = key b ↔ a = b :=
  key_injective.eq_iff

/-! ## Type-level equality -/

inductive Answer where
  | yes
  | no
  deriving DecidableEq, Repr

/-- `<L as And<R>>::Out` -/
def Answer.and : Answer → Answer → Answer
  | .no, _ => .no
  | .yes, right => right

/-- `<L as Or<R>>::Out` -/
def Answer.or : Answer → Answer → Answer
  | .yes, _ => .yes
  | .no, right => right

/-- The implementations of `Equal`: `L: Equal<R, Out = answer>` holds when it can be derived. -/
inductive Equal : Key → Key → Answer → Prop
  | zero_zero : Equal .zero .zero .yes
  | zero_one : Equal .zero .one .no
  | zero_pad : Equal .zero .pad .no
  | one_zero : Equal .one .zero .no
  | one_one : Equal .one .one .yes
  | one_pad : Equal .one .pad .no
  | pad_zero : Equal .pad .zero .no
  | pad_one : Equal .pad .one .no
  | pad_pad : Equal .pad .pad .yes
  | zero_pair (l r : Key) : Equal .zero (.pair l r) .no
  | pair_zero (l r : Key) : Equal (.pair l r) .zero .no
  | one_pair (l r : Key) : Equal .one (.pair l r) .no
  | pair_one (l r : Key) : Equal (.pair l r) .one .no
  | pad_pair (l r : Key) : Equal .pad (.pair l r) .no
  | pair_pad (l r : Key) : Equal (.pair l r) .pad .no
  | pair {a b c d : Key} {left right : Answer} :
      Equal a c left → Equal b d right → Equal (.pair a b) (.pair c d) (left.and right)

/-- The answer for two keys. -/
def answer (l r : Key) : Answer :=
  if l = r then .yes else .no

theorem answer_and (a b c d : Key) :
    (answer a c).and (answer b d) = answer (.pair a b) (.pair c d) := by
  by_cases hleft : a = c
  · by_cases hright : b = d
    · simp [answer, hleft, hright, Answer.and]
    · simp [answer, hleft, hright, Answer.and]
  · simp [answer, hleft, Answer.and]

theorem equal_answer (l r : Key) : Equal l r (answer l r) := by
  induction l generalizing r with
  | zero => cases r <;> simp only [answer, reduceCtorEq, if_true, if_false] <;> constructor
  | one => cases r <;> simp only [answer, reduceCtorEq, if_true, if_false] <;> constructor
  | pad => cases r <;> simp only [answer, reduceCtorEq, if_true, if_false] <;> constructor
  | pair a b iha ihb =>
      cases r with
      | pair c d =>
          rw [← answer_and]
          exact .pair (iha c) (ihb d)
      | _ => simp only [answer, reduceCtorEq, if_false]; constructor

/-- Every two keys have exactly one answer. -/
theorem equal_iff {l r : Key} {out : Answer} : Equal l r out ↔ out = answer l r := by
  refine ⟨?_, fun hout => hout ▸ equal_answer l r⟩
  intro h
  induction h with
  | pair _ _ ihleft ihright => rw [ihleft, ihright, answer_and]
  | _ => simp [answer]

theorem answer_eq_yes {l r : Key} : answer l r = .yes ↔ l = r := by
  simp [answer]

theorem answer_eq_no {l r : Key} : answer l r = .no ↔ l ≠ r := by
  simp [answer]

/-- `Equal` on the keys of texts is defined and decides equality of the texts, alone and in pairs. -/
theorem equal_keys_exact :
    (∀ s t : String,
      (∃! out, Equal (key s) (key t) out) ∧
        (Equal (key s) (key t) .yes ↔ s.toUTF8 = t.toUTF8) ∧
        (Equal (key s) (key t) .no ↔ s.toUTF8 ≠ t.toUTF8)) ∧
    ∀ a b c d : String,
      (∃! out, Equal (.pair (key a) (key b)) (.pair (key c) (key d)) out) ∧
        (Equal (.pair (key a) (key b)) (.pair (key c) (key d)) .yes ↔ a = c ∧ b = d) ∧
        (Equal (.pair (key a) (key b)) (.pair (key c) (key d)) .no ↔ ¬(a = c ∧ b = d)) := by
  have hunique : ∀ l r : Key, ∃! out, Equal l r out := by
    intro l r
    exact ⟨answer l r, equal_answer l r, fun out hout => equal_iff.1 hout⟩
  refine ⟨?_, ?_⟩
  · intro s t
    have hbytes : key s = key t ↔ s.toUTF8 = t.toUTF8 := by
      rw [key_inj]
      exact String.toByteArray_inj.symm
    refine ⟨hunique _ _, ?_, ?_⟩
    · rw [equal_iff, eq_comm, answer_eq_yes, hbytes]
    · rw [equal_iff, eq_comm, answer_eq_no, Ne, hbytes]
  · intro a b c d
    refine ⟨hunique _ _, ?_, ?_⟩
    · rw [equal_iff, eq_comm, answer_eq_yes, Key.pair.injEq, key_inj, key_inj]
    · rw [equal_iff, eq_comm, answer_eq_no, Ne, Key.pair.injEq, key_inj, key_inj]

-- An extension by NUL bytes is another text.
example : Equal (key "") (key "\x00") .no :=
  equal_iff.2 (answer_eq_no.2 (key_injective.ne (by decide))).symm

end Scoped
end Systasis
