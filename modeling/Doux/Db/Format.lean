import Doux.Util.Comparator

namespace Doux
namespace Db

open Foundation Util List

/-!
# Internal keys

An internal key is a user key followed by an 8-byte tag, which packs a sequence
number and a value type.  Internal keys are ordered by user key, and the newer of
two versions of a user key comes first.

User keys are byte strings under a comparator, which by its contract is a total
order.  Every module that compares user keys takes this order as an instance
argument, so nothing depends on a particular comparator.
-/

/-- `kTypeDeletion` and `kTypeValue`. -/
inductive ValueType where
  | deletion
  | value
deriving DecidableEq

namespace ValueType

def code : ValueType -> Nat
  | deletion => 0
  | value => 1

def ofCode : Nat -> Option ValueType
  | 0 => some deletion
  | 1 => some value
  | _ => none

theorem ofCode_code (type : ValueType) : ofCode type.code = some type := by
  cases type <;> rfl

theorem ofCode_eq_some {code : Nat} {type : ValueType} (known : ofCode code = some type) :
    code = type.code := by
  unfold ofCode at known
  split at known <;> cases known <;> rfl

theorem code_lt (type : ValueType) : type.code < 256 := by
  cases type <;> decide

end ValueType

def kMaxSequenceNumber : Nat := 2 ^ 56 - 1

/-- A user key, without an order of its own. -/
structure UserKey where
  bytes : Bytes

@[reducible]
def bytewiseComparator : LinearOrder UserKey :=
  LinearOrder.lift' UserKey.bytes (fun _ _ same => UserKey.mk.injEq _ _ ▸ same)

namespace Bytewise

scoped instance userKeyOrder : LinearOrder UserKey := bytewiseComparator

end Bytewise

@[ext]
structure InternalKey where
  userKey : UserKey
  tag : BitVec 64

structure ParsedInternalKey where
  userKey : UserKey
  sequence : Nat
  type : ValueType

namespace InternalKey

def sequence (key : InternalKey) : Nat := key.tag.toNat / 256

def typeCode (key : InternalKey) : Nat := key.tag.toNat % 256

/-- The type in the tag, if it is a known one. -/
def type (key : InternalKey) : Option ValueType := ValueType.ofCode key.typeCode

/-- `ParseInternalKey`: it fails on an unknown type. -/
def parse (key : InternalKey) : Option ParsedInternalKey :=
  key.type.map (fun type => ⟨key.userKey, key.sequence, type⟩)

variable {a b : InternalKey}

theorem sequence_le_of_tag_le (tags : a.tag.toNat ≤ b.tag.toNat) : a.sequence ≤ b.sequence :=
  Nat.div_le_div_right tags

theorem tag_lt_of_sequence_lt (sequences : a.sequence < b.sequence) :
    a.tag.toNat < b.tag.toNat := by
  by_contra reversed
  have ordered := sequence_le_of_tag_le (Nat.le_of_not_lt reversed)
  omega

/-- A key sought with type `kValueTypeForSeek` comes before every version that is
not newer. -/
theorem tag_le_of_sequence_le (sequences : a.sequence ≤ b.sequence)
    (known : a.type ≠ none) (isValue : b.type = some .value) : a.tag.toNat ≤ b.tag.toNat := by
  rcases Option.ne_none_iff_exists'.mp known with ⟨type, isType⟩
  have codes : a.typeCode ≤ 1 := by
    rw [ValueType.ofCode_eq_some isType]
    cases type <;> decide
  have code : b.typeCode = 1 := ValueType.ofCode_eq_some isValue
  have parts (key : InternalKey) : key.tag.toNat = 256 * key.sequence + key.typeCode :=
    (Nat.div_add_mod key.tag.toNat 256).symm
  rw [parts a, parts b]
  omega

variable (key : InternalKey)

theorem sequence_le_max : key.sequence ≤ kMaxSequenceNumber := by
  unfold sequence kMaxSequenceNumber
  omega

def encode (key : InternalKey) : Bytes := key.userKey.bytes ++ encodeFixed64 key.tag.toNat

/-- Read a byte string as an internal key, as `ExtractUserKey` and the comparator
do.  Shorter strings have no tag. -/
def decode (bytes : Bytes) : Option InternalKey :=
  if 8 ≤ bytes.length then
    some ⟨⟨bytes.take (bytes.length - 8)⟩,
      BitVec.ofNat 64 (decodeFixed64 (bytes.drop (bytes.length - 8)))⟩
  else none

theorem length_encode : key.encode.length = key.userKey.bytes.length + 8 := by
  simp [encode, encodeFixed64]

theorem decode_encode : decode key.encode = some key := by
  have tail := decodeFixed64_encodeFixed64 key.tag []
  rw [append_nil] at tail
  unfold decode
  rw [if_pos (by rw [length_encode]; omega), length_encode, Nat.add_sub_cancel, encode,
    take_left, drop_left, tail, BitVec.ofNat_toNat, BitVec.setWidth_eq]

end InternalKey

def packSequenceAndType (sequence : Nat) (type : ValueType) : Except String (BitVec 64) := do
  assertThat (sequence ≤ kMaxSequenceNumber) "seq <= kMaxSequenceNumber"
  return BitVec.ofNat 64 (sequence * 256 + type.code)

theorem packSequenceAndType_eq_ok {sequence : Nat} {type : ValueType} {tag : BitVec 64}
    (packed : packSequenceAndType sequence type = .ok tag) (userKey : UserKey) :
    (InternalKey.mk userKey tag).sequence = sequence ∧
      (InternalKey.mk userKey tag).type = some type := by
  unfold packSequenceAndType at packed
  rw [assertThat_bind_eq_ok] at packed
  rcases packed with ⟨bound, equal⟩
  cases equal
  have small := type.code_lt
  have fits : sequence * 256 + type.code < 2 ^ 64 := by
    unfold kMaxSequenceNumber at bound
    omega
  unfold InternalKey.sequence InternalKey.type InternalKey.typeCode
  rw [BitVec.toNat_ofNat, Nat.mod_eq_of_lt fits]
  constructor
  · omega
  · rw [show (sequence * 256 + type.code) % 256 = type.code by omega]
    exact type.ofCode_code

namespace InternalKey

/-- What `InternalKeyComparator` looks at, in the order in which it does. -/
def rank (key : InternalKey) : UserKey ×ₗ Natᵒᵈ :=
  toLex (key.userKey, OrderDual.toDual key.tag.toNat)

theorem rank_injective : Function.Injective rank := by
  intro _ _ same
  have pair := toLex.injective same
  ext1
  · exact congrArg Prod.fst pair
  · exact BitVec.eq_of_toNat_eq (OrderDual.toDual.injective (congrArg Prod.snd pair))

end InternalKey

section Order
variable [LinearOrder UserKey]

namespace InternalKey

instance : LinearOrder InternalKey := LinearOrder.lift' rank rank_injective

theorem lt_iff (a b : InternalKey) : a < b <->
    a.userKey < b.userKey ∨ a.userKey = b.userKey ∧ b.tag.toNat < a.tag.toNat := by
  change rank a < rank b <-> _
  rw [rank, rank, Prod.Lex.toLex_lt_toLex, OrderDual.toDual_lt_toDual]

variable {a b : InternalKey}

theorem userKey_le_of_le (ordered : a ≤ b) : a.userKey ≤ b.userKey := by
  rcases lt_or_eq_of_le ordered with less | rfl
  · rcases (lt_iff a b).mp less with smaller | ⟨same, _⟩
    · exact le_of_lt smaller
    · exact le_of_eq same
  · exact le_refl _

theorem lt_of_userKey_lt (less : a.userKey < b.userKey) : a < b :=
  (lt_iff a b).mpr (Or.inl less)

/-- Of two versions of a user key the one with the larger tag comes first. -/
theorem lt_iff_of_userKey_eq (same : a.userKey = b.userKey) :
    a < b <-> b.tag.toNat < a.tag.toNat := by
  rw [lt_iff]
  constructor
  · rintro (less | ⟨_, newer⟩)
    · exact absurd same (ne_of_lt less)
    · exact newer
  · exact fun newer => Or.inr ⟨same, newer⟩

/-- A version that a sought key sees comes before it exactly if its user key is smaller. -/
theorem lt_sought_iff (seen : a.sequence ≤ b.sequence)
    (known : a.type ≠ none) (isValue : b.type = some .value) :
    a < b <-> a.userKey < b.userKey := by
  refine ⟨fun less => ?_, lt_of_userKey_lt⟩
  rcases (lt_iff a b).mp less with smaller | ⟨_, newer⟩
  · exact smaller
  · exact absurd newer (not_lt_of_ge (tag_le_of_sequence_le seen known isValue))

end InternalKey

def userCompare (a b : Bytes) : Int :=
  if UserKey.mk a < UserKey.mk b then -1 else if UserKey.mk b < UserKey.mk a then 1 else 0

/-- `InternalKeyComparator::Compare` on the bytes of two internal keys. -/
def internalKeyCompare (akey bkey : Bytes) : Int :=
  if akey.length < 8 ∨ bkey.length < 8 then sliceCompare akey bkey
  else
    let r := userCompare (akey.take (akey.length - 8)) (bkey.take (bkey.length - 8))
    if r = 0 then
      let anum := decodeFixed64 (akey.drop (akey.length - 8))
      let bnum := decodeFixed64 (bkey.drop (bkey.length - 8))
      if anum > bnum then -1 else if anum < bnum then 1 else r
    else r

/-- On the bytes of two internal keys the sign of the comparator is the order. -/
theorem internalKeyCompare_encode (a b : InternalKey) :
    Compares (internalKeyCompare a.encode b.encode) a b := by
  have long : ¬ (a.encode.length < 8 ∨ b.encode.length < 8) := by
    rw [InternalKey.length_encode, InternalKey.length_encode]
    omega
  have users (key : InternalKey) : key.encode.take (key.encode.length - 8) = key.userKey.bytes := by
    rw [InternalKey.length_encode, Nat.add_sub_cancel, InternalKey.encode, take_left]
  have tags (key : InternalKey) :
      decodeFixed64 (key.encode.drop (key.encode.length - 8)) = key.tag.toNat := by
    have tail := decodeFixed64_encodeFixed64 key.tag []
    rw [append_nil] at tail
    rw [InternalKey.length_encode, Nat.add_sub_cancel, InternalKey.encode, drop_left, tail]
  have parts := (Compares.of_lt_first a.userKey b.userKey).lex
    (Compares.of_lt_first (OrderDual.toDual a.tag.toNat) (OrderDual.toDual b.tag.toNat))
  have compared : internalKeyCompare a.encode b.encode =
      if userCompare a.userKey.bytes b.userKey.bytes = 0 then
        if b.tag.toNat < a.tag.toNat then -1 else if a.tag.toNat < b.tag.toNat then 1 else 0
      else userCompare a.userKey.bytes b.userKey.bytes := by
    simp only [internalKeyCompare, if_neg long, users, tags]
    by_cases same : userCompare a.userKey.bytes b.userKey.bytes = 0
    · simp [same]
    · simp [same]
  rw [compared]
  exact ⟨parts.lt, parts.eq.trans InternalKey.rank_injective.eq_iff⟩

end Order

section
open Bytewise

/-- `InternalKeyComparator` over `BytewiseComparator`. -/
def bytewiseCompare : Bytes -> Bytes -> Int := internalKeyCompare

/-- As byte strings a short string is between two internal keys, which are in the other
order. -/
def Reversed (a short c : Bytes) : Prop :=
  short.length < 8 ∧ a < short ∧ short < c ∧
    ∃ before after : InternalKey, before.encode = c ∧ after.encode = a ∧ before < after

theorem exists_internalKey_encode {bytes : Bytes} (long : ¬ bytes.length < 8) :
    ∃ key : InternalKey, key.encode = bytes := by
  rcases exists_append_encodeFixed64 (not_lt.mp long) with ⟨userKey, tag, same⟩
  exact ⟨⟨⟨userKey⟩, tag⟩, same⟩

variable {a b c : Bytes}

theorem bytewiseCompare_short (short : a.length < 8 ∨ b.length < 8) :
    Compares (bytewiseCompare a b) a b := by
  have raw : bytewiseCompare a b = sliceCompare a b := if_pos short
  rw [raw]
  exact sliceCompare_spec a b

theorem bytewiseCompare_sign (a b : Bytes) : (bytewiseCompare a b < 0 <-> bytewiseCompare b a > 0) ∧
    (bytewiseCompare a b = 0 <-> a = b) := by
  by_cases short : a.length < 8 ∨ b.length < 8
  · have compares := bytewiseCompare_short short
    exact ⟨compares.lt.trans (bytewiseCompare_short short.symm).gt.symm, compares.eq⟩
  · rcases exists_internalKey_encode (not_or.mp short).1 with ⟨a, rfl⟩
    rcases exists_internalKey_encode (not_or.mp short).2 with ⟨b, rfl⟩
    have compares := internalKeyCompare_encode a b
    refine ⟨compares.lt.trans (internalKeyCompare_encode b a).gt.symm, compares.eq.trans
      ⟨congrArg InternalKey.encode, fun same => Option.some.inj ?_⟩⟩
    rw [<- InternalKey.decode_encode, same, InternalKey.decode_encode]

/-- A short string in a cycle is between two internal keys in the other order. -/
theorem reversed_of_short (short : b.length < 8) (ab : bytewiseCompare a b < 0)
    (bc : bytewiseCompare b c < 0) (ca : bytewiseCompare c a < 0) : Reversed a b c := by
  have less := (bytewiseCompare_short (Or.inr short)).lt.mp ab
  have further := (bytewiseCompare_short (Or.inl short)).lt.mp bc
  have long : ¬ (c.length < 8 ∨ a.length < 8) := fun either =>
    lt_asymm ((bytewiseCompare_short either).lt.mp ca) (lt_trans less further)
  rcases exists_internalKey_encode (not_or.mp long).1 with ⟨before, rfl⟩
  rcases exists_internalKey_encode (not_or.mp long).2 with ⟨after, rfl⟩
  exact ⟨short, less, further, before, after, rfl, rfl, (internalKeyCompare_encode _ _).lt.mp ca⟩

/-- Three strings that the comparator puts in a cycle. -/
theorem cycle_iff : bytewiseCompare a b < 0 ∧ bytewiseCompare b c < 0 ∧ bytewiseCompare c a < 0 <->
    Reversed a b c ∨ Reversed b c a ∨ Reversed c a b := by
  have cycle {a b c : Bytes} (reversed : Reversed a b c) :
      bytewiseCompare a b < 0 ∧ bytewiseCompare b c < 0 ∧ bytewiseCompare c a < 0 := by
    rcases reversed with ⟨short, less, further, before, after, rfl, rfl, order⟩
    exact ⟨(bytewiseCompare_short (Or.inr short)).lt.mpr less,
      (bytewiseCompare_short (Or.inl short)).lt.mpr further,
      (internalKeyCompare_encode before after).lt.mpr order⟩
  constructor
  · rintro ⟨ab, bc, ca⟩
    by_cases shortB : b.length < 8
    · exact Or.inl (reversed_of_short shortB ab bc ca)
    by_cases shortC : c.length < 8
    · exact Or.inr (Or.inl (reversed_of_short shortC bc ca ab))
    by_cases shortA : a.length < 8
    · exact Or.inr (Or.inr (reversed_of_short shortA ca ab bc))
    rcases exists_internalKey_encode shortA with ⟨a, rfl⟩
    rcases exists_internalKey_encode shortB with ⟨b, rfl⟩
    rcases exists_internalKey_encode shortC with ⟨c, rfl⟩
    have less := lt_trans ((internalKeyCompare_encode a b).lt.mp ab)
      ((internalKeyCompare_encode b c).lt.mp bc)
    exact absurd less (lt_asymm ((internalKeyCompare_encode c a).lt.mp ca))
  · rintro (first | second | third)
    · exact cycle first
    · rcases cycle second with ⟨bc, ca, ab⟩
      exact ⟨ab, bc, ca⟩
    · rcases cycle third with ⟨ca, ab, bc⟩
      exact ⟨ab, bc, ca⟩

/-- The comparator has opposite signs for the two orders of a pair and is zero for equal
strings only.  It is transitive where no short string is between two internal keys that are in
the other order. -/
theorem bytewiseCompare_preorder_iff (a b c : Bytes) :
    (bytewiseCompare a b < 0 <-> bytewiseCompare b a > 0) ∧ (bytewiseCompare a b = 0 <-> a = b) ∧
      ((bytewiseCompare a b < 0 -> bytewiseCompare b c < 0 -> bytewiseCompare a c < 0) <->
        ¬ (Reversed a b c ∨ Reversed b c a ∨ Reversed c a b)) := by
  have sign := bytewiseCompare_sign a c
  refine ⟨(bytewiseCompare_sign a b).1, (bytewiseCompare_sign a b).2, ?_⟩
  rw [<- cycle_iff]
  constructor
  · omega
  · intro never ab bc
    by_contra notLess
    rcases eq_or_lt_of_le (not_lt.mp notLess) with same | greater
    · rw [sign.2.mp same.symm] at ab
      have greater := (bytewiseCompare_sign b c).1.mp bc
      omega
    · exact never ⟨ab, bc, (bytewiseCompare_sign c a).1.mpr greater⟩

/-- Two internal keys with the empty user key, and a short string between them. -/
theorem bytewiseCompare_cycle : bytewiseCompare [1, 0, 0, 0, 0, 0, 0, 0] [1, 1] < 0 ∧
    bytewiseCompare [1, 1] [2, 0, 0, 0, 0, 0, 0, 0] < 0 ∧
    bytewiseCompare [2, 0, 0, 0, 0, 0, 0, 0] [1, 0, 0, 0, 0, 0, 0, 0] < 0 := by
  decide +kernel

end

/-- A key of a table with its value. -/
structure Entry where
  key : InternalKey
  value : Bytes

abbrev InKeyOrder [LinearOrder UserKey] (entries : List Entry) : Prop :=
  entries.Pairwise (fun a b => a.key < b.key)

end Db
end Doux
