import Doux.Foundation.Compare
import Doux.Foundation.Control
import Doux.Util.Coding

namespace Doux
namespace Util

open Foundation List

/-!
# Value keys and their order

The value tables are sorted by vkeys: a user key, the 8-byte tag of an internal
key and an 8-byte sort key.  `VKeyComparator` in `util/comparator.cc` compares
the sort keys first, then the user keys as byte strings, and the tags last.
Unlike the order of internal keys, larger tags come later.

`VKey` is the parsed form and carries the linear order used by the rest of the
development.  `vkeyCompare` is the comparator as it works on the bytes; the
last result of this file says that it decides that order.
-/

/-- `Slice::compare`: the first difference decides, then the lengths. -/
def sliceCompare : Bytes -> Bytes -> Int
  | [], [] => 0
  | [], _ :: _ => -1
  | _ :: _, [] => 1
  | a :: as, b :: bs => if a < b then -1 else if b < a then 1 else sliceCompare as bs

/-- A parsed vkey: user key, tag of the internal key, sort key. -/
structure VKey where
  userKey : Bytes
  tag : BitVec 64
  sortKey : BitVec 64
deriving DecidableEq, Repr

namespace VKey

def encode (vkey : VKey) : Bytes :=
  vkey.userKey ++ (encodeFixed64 vkey.tag.toNat ++ encodeFixed64 vkey.sortKey.toNat)

/-- What `VKeyComparator` looks at, in the order in which it does. -/
def rank (vkey : VKey) : Nat ×ₗ (Bytes ×ₗ Nat) :=
  toLex (vkey.sortKey.toNat, toLex (vkey.userKey, vkey.tag.toNat))

theorem rank_injective : Function.Injective rank := by
  intro _ _ same
  have pair := toLex.injective same
  have inner := toLex.injective (congrArg Prod.snd pair)
  rw [VKey.mk.injEq]
  exact ⟨congrArg Prod.fst inner, BitVec.eq_of_toNat_eq (congrArg Prod.snd inner),
    BitVec.eq_of_toNat_eq (congrArg Prod.fst pair)⟩

instance : LinearOrder VKey := LinearOrder.lift' rank rank_injective

theorem lt_iff (a b : VKey) : a < b <->
    a.sortKey.toNat < b.sortKey.toNat ∨ a.sortKey.toNat = b.sortKey.toNat ∧
      (a.userKey < b.userKey ∨ a.userKey = b.userKey ∧ a.tag.toNat < b.tag.toNat) := by
  change rank a < rank b <-> _
  rw [rank, rank, Prod.Lex.toLex_lt_toLex, Prod.Lex.toLex_lt_toLex]

theorem sortKey_le_of_le {a b : VKey} (ordered : a ≤ b) : a.sortKey ≤ b.sortKey := by
  rw [BitVec.le_def]
  rcases lt_or_eq_of_le ordered with less | rfl
  · rcases (lt_iff a b).mp less with _ | ⟨_, _⟩
    · omega
    · omega
  · exact le_refl _

theorem lt_of_sortKey_lt {a b : VKey} (less : a.sortKey < b.sortKey) : a < b :=
  (lt_iff a b).mpr (Or.inl less)

end VKey

/-- `VKeyComparator::Compare` on the bytes of two vkeys. -/
def vkeyCompare (vkey1 vkey2 : Bytes) : Except String Int := do
  assertThat (16 ≤ vkey1.length ∧ 16 ≤ vkey2.length) "size_1 >= 16 && size_2 >= 16"
  let sortKey1 := decodeFixed64 (vkey1.drop (vkey1.length - 8))
  let sortKey2 := decodeFixed64 (vkey2.drop (vkey2.length - 8))
  let r : Int := if sortKey1 > sortKey2 then 1 else if sortKey1 < sortKey2 then -1 else 0
  if r = 0 then
    let r := sliceCompare (vkey1.take (vkey1.length - 16)) (vkey2.take (vkey2.length - 16))
    if r = 0 then
      let seq1 := decodeFixed64 (vkey1.drop (vkey1.length - 16))
      let seq2 := decodeFixed64 (vkey2.drop (vkey2.length - 16))
      return if seq1 > seq2 then 1 else if seq1 < seq2 then -1 else 0
    else
      return r
  else
    return r

theorem sliceCompare_spec (a b : Bytes) : Compares (sliceCompare a b) a b := by
  refine and_imp.mpr Compares.mk ?_
  induction a generalizing b with
  | nil =>
    cases b with
    | nil => simp [sliceCompare]
    | cons head tail => simp [sliceCompare]
  | cons first rest ih =>
    cases b with
    | nil => simp [sliceCompare]
    | cons head tail =>
      rw [sliceCompare, cons_lt_cons_iff]
      rcases lt_trichotomy first head with less | same | greater
      · simp [less, ne_of_lt less]
      · subst same
        simpa using ih tail
      · have notLess : ¬ first < head := lt_asymm greater
        have notSame : ¬ first = head := (ne_of_lt greater).symm
        simp [notLess, notSame, greater]

namespace VKey

variable (vkey : VKey)

theorem length_encode : vkey.encode.length = vkey.userKey.length + 16 := by
  simp [encode, encodeFixed64]

theorem take_encode : vkey.encode.take (vkey.encode.length - 16) = vkey.userKey := by
  rw [length_encode, Nat.add_sub_cancel, encode, take_left]

theorem decode_tag :
    decodeFixed64 (vkey.encode.drop (vkey.encode.length - 16)) = vkey.tag.toNat := by
  rw [length_encode, Nat.add_sub_cancel, encode, drop_left, decodeFixed64_encodeFixed64]

theorem decode_sortKey :
    decodeFixed64 (vkey.encode.drop (vkey.encode.length - 8)) = vkey.sortKey.toNat := by
  have front : vkey.userKey.length + 16 - 8 =
      (vkey.userKey ++ encodeFixed64 vkey.tag.toNat).length := by
    simp [encodeFixed64]
  rw [length_encode, front, encode, ← append_assoc, drop_left]
  have tail := decodeFixed64_encodeFixed64 vkey.sortKey []
  rwa [append_nil] at tail

/-- Read a byte string as a vkey, as the comparator does. -/
def decode (bytes : Bytes) : Except String VKey := do
  assertThat (16 ≤ bytes.length) "size_1 >= 16 && size_2 >= 16"
  return ⟨bytes.take (bytes.length - 16),
    BitVec.ofNat 64 (decodeFixed64 (bytes.drop (bytes.length - 16))),
    BitVec.ofNat 64 (decodeFixed64 (bytes.drop (bytes.length - 8)))⟩

theorem decode_encode : decode vkey.encode = .ok vkey := by
  refine assertThat_bind_eq_ok.mpr ⟨?_, ?_⟩
  · rw [length_encode]
    omega
  · rw [take_encode, decode_tag, decode_sortKey, BitVec.ofNat_toNat, BitVec.ofNat_toNat]
    rfl

/-- On the bytes of two vkeys the comparator does not fail, and its sign is
the order of the parsed keys. -/
theorem vkeyCompare_encode (a b : VKey) :
    ∃ r, vkeyCompare a.encode b.encode = .ok r ∧ Compares r a b := by
  have sizes : 16 ≤ a.encode.length ∧ 16 ≤ b.encode.length := by
    rw [length_encode, length_encode]
    omega
  have parts := (Compares.of_gt_first a.sortKey.toNat b.sortKey.toNat).lex
    ((sliceCompare_spec a.userKey b.userKey).lex (Compares.of_gt_first a.tag.toNat b.tag.toNat))
  refine ⟨_, assertThat_bind_eq_ok.mpr ⟨sizes, ?_⟩, parts.lt, parts.eq.trans rank_injective.eq_iff⟩
  simp only [take_encode, decode_tag, decode_sortKey, gt_iff_lt, apply_ite Except.ok, pure,
    Except.pure]

end VKey

/-- Sixteen bytes are enough for a vkey. -/
theorem exists_vkey_encode {bytes : Bytes} (long : 16 ≤ bytes.length) :
    ∃ vkey : VKey, vkey.encode = bytes := by
  rcases exists_append_encodeFixed64 (by omega : 8 ≤ bytes.length) with ⟨front, sortKey, rfl⟩
  have rest : 8 ≤ front.length := by simpa [encodeFixed64] using long
  rcases exists_append_encodeFixed64 rest with ⟨userKey, tag, rfl⟩
  exact ⟨⟨userKey, tag, sortKey⟩, (append_assoc _ _ _).symm⟩

end Util
end Doux
