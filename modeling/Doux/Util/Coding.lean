import Doux.Foundation.Bytes

namespace Doux
namespace Util

open Foundation List

/-!
# Coded fields

`util/coding.cc` stores 32-bit and 64-bit numbers with the least significant
byte first.  A decoder reads from a pointer, so what follows the field does not
matter.

Variable-length numbers are written in groups of seven bits, the least
significant group first, and every group but the last has its top bit set.  The
32-bit writer is a chain of five cases and the 64-bit writer is a loop, but both
emit the same groups, so both are read back by one argument about the groups.
-/

def encodeFixed32 (value : Nat) : Bytes := littleEndian 4 value

def decodeFixed32 (bytes : Bytes) : Nat := ofLittleEndian (bytes.take 4)

def encodeFixed64 (value : Nat) : Bytes := littleEndian 8 value

def decodeFixed64 (bytes : Bytes) : Nat := ofLittleEndian (bytes.take 8)

theorem ofLittleEndian_take (n value : Nat) (rest : Bytes) :
    ofLittleEndian ((littleEndian n value ++ rest).take n) = value % 256 ^ n := by
  rw [take_append_of_le_length (by simp), take_of_length_le (by simp), ofLittleEndian_littleEndian]

theorem decodeFixed32_encodeFixed32 (value : BitVec 32) (rest : Bytes) :
    decodeFixed32 (encodeFixed32 value.toNat ++ rest) = value.toNat :=
  (ofLittleEndian_take 4 value.toNat rest).trans (Nat.mod_eq_of_lt value.isLt)

theorem decodeFixed64_encodeFixed64 (value : BitVec 64) (rest : Bytes) :
    decodeFixed64 (encodeFixed64 value.toNat ++ rest) = value.toNat :=
  (ofLittleEndian_take 8 value.toNat rest).trans (Nat.mod_eq_of_lt value.isLt)

theorem encodeFixed64_decodeFixed64 {bytes : Bytes} (long : 8 ≤ bytes.length) :
    encodeFixed64 (BitVec.ofNat 64 (decodeFixed64 bytes)).toNat = bytes.take 8 := by
  have length : (bytes.take 8).length = 8 := length_take_of_le long
  have small := ofLittleEndian_lt (bytes.take 8)
  have back := littleEndian_ofLittleEndian (bytes.take 8)
  rw [length] at small back
  rw [BitVec.toNat_ofNat, Nat.mod_eq_of_lt (by exact small)]
  exact back

/-- The last eight bytes of a string are a fixed number. -/
theorem exists_append_encodeFixed64 {bytes : Bytes} (long : 8 ≤ bytes.length) :
    ∃ (front : Bytes) (value : BitVec 64), front ++ encodeFixed64 value.toNat = bytes := by
  have tail : (bytes.drop (bytes.length - 8)).length = 8 := by
    rw [length_drop]
    omega
  have value := encodeFixed64_decodeFixed64 tail.ge
  rw [take_of_length_le tail.le] at value
  exact ⟨bytes.take (bytes.length - 8), _, value.symm ▸ take_append_drop _ _⟩

/-- `EncodeVarint32`, the number being smaller than `2 ^ 32`. -/
def encodeVarint32 (v : Nat) : Bytes :=
  if v < 1 <<< 7 then
    [UInt8.ofNat v]
  else if v < 1 <<< 14 then
    [UInt8.ofNat (v ||| 128), UInt8.ofNat (v >>> 7)]
  else if v < 1 <<< 21 then
    [UInt8.ofNat (v ||| 128), UInt8.ofNat (v >>> 7 ||| 128), UInt8.ofNat (v >>> 14)]
  else if v < 1 <<< 28 then
    [UInt8.ofNat (v ||| 128), UInt8.ofNat (v >>> 7 ||| 128), UInt8.ofNat (v >>> 14 ||| 128),
      UInt8.ofNat (v >>> 21)]
  else
    [UInt8.ofNat (v ||| 128), UInt8.ofNat (v >>> 7 ||| 128), UInt8.ofNat (v >>> 14 ||| 128),
      UInt8.ofNat (v >>> 21 ||| 128), UInt8.ofNat (v >>> 28)]

/-- The loop of `EncodeVarint64`, with at most `count` groups before the last. -/
def varintGroups : Nat -> Nat -> Bytes
  | 0, v => [UInt8.ofNat v]
  | count + 1, v =>
    if v ≥ 128 then UInt8.ofNat (v ||| 128) :: varintGroups count (v >>> 7)
    else [UInt8.ofNat v]

/-- `EncodeVarint64`; ten bytes hold every 64-bit number. -/
def encodeVarint64 (v : Nat) : Bytes := varintGroups 9 v

/-- The loop of `GetVarint32PtrFallback` and `GetVarint64Ptr`: at most `count`
groups of a number of `width` bits. -/
def getVarintLoop (width : Nat) : Nat -> Nat -> Nat -> Bytes -> Option (Nat × Bytes)
  | 0, _, _, _ => none
  | _ + 1, _, _, [] => none
  | count + 1, shift, result, byte :: input =>
    if byte.toNat &&& 128 ≠ 0 then
      getVarintLoop width count (shift + 7)
        (result ||| ((byte.toNat &&& 127) <<< shift) % 2 ^ width) input
    else
      some (result ||| (byte.toNat <<< shift) % 2 ^ width, input)

/-- `GetVarint32`: shifts 0, 7, 14, 21, 28. -/
def getVarint32 (input : Bytes) : Option (Nat × Bytes) := getVarintLoop 32 5 0 0 input

/-- `GetVarint64`: shifts 0, 7, ..., 63. -/
def getVarint64 (input : Bytes) : Option (Nat × Bytes) := getVarintLoop 64 10 0 0 input

def putLengthPrefixedSlice (value : Bytes) : Bytes :=
  encodeVarint32 (value.length % 2 ^ 32) ++ value

def getLengthPrefixedSlice (input : Bytes) : Option (Bytes × Bytes) :=
  match getVarint32 input with
  | none => none
  | some (length, input) =>
    if input.length ≥ length then some (input.take length, input.drop length) else none

theorem toNat_ofNat_or (v : Nat) : (UInt8.ofNat (v ||| 128)).toNat = v % 128 + 128 := by
  have finite : ∀ m < 256, m ||| 128 = m % 128 + 128 := by decide +kernel
  have low := finite (v % 256) (Nat.mod_lt _ (by decide))
  have reduce : (v ||| 128) % 2 ^ 8 = (v % 2 ^ 8 ||| 128 % 2 ^ 8) := Nat.or_mod_two_pow
  rw [UInt8.toNat_ofNat', reduce]
  change v % 256 ||| 128 = v % 128 + 128
  omega

theorem toNat_ofNat_of_lt {v : Nat} (small : v < 128) : (UInt8.ofNat v).toNat = v := by
  rw [UInt8.toNat_ofNat', Nat.mod_eq_of_lt (by omega)]

theorem encodeVarint32_eq (v : Nat) : encodeVarint32 v = varintGroups 4 v := by
  have shift (i j : Nat) : v >>> i >>> j = v >>> (i + j) := (Nat.shiftRight_add v i j).symm
  have more (i : Nat) : v >>> i ≥ 128 <-> ¬ v < 1 <<< (i + 7) := by
    rw [Nat.shiftRight_eq_div_pow, Nat.one_shiftLeft, not_lt, Nat.pow_add, mul_comm]
    exact Nat.le_div_iff_mul_le (by positivity)
  have start : v ≥ 128 <-> ¬ v < 1 <<< 7 := more 0
  unfold encodeVarint32
  simp only [varintGroups, shift, more, start]
  split_ifs <;> rfl

/-- Adding a group above the bits read so far. -/
theorem or_group {width shift result group : Nat} (below : result < 2 ^ shift)
    (range : group * 2 ^ shift + result < 2 ^ width) :
    result ||| (group <<< shift) % 2 ^ width = group * 2 ^ shift + result := by
  rw [Nat.mod_eq_of_lt (by omega), Nat.or_comm, <- Nat.shiftLeft_eq,
    <- Nat.shiftLeft_add_eq_or_of_lt below]

theorem getVarintLoop_last (width count shift result v : Nat) (rest : Bytes)
    (below : result < 2 ^ shift) (small : v < 128) (range : v * 2 ^ shift + result < 2 ^ width) :
    getVarintLoop width (count + 1) shift result (UInt8.ofNat v :: rest) =
      some (v * 2 ^ shift + result, rest) := by
  have top : ∀ m < 128, m &&& 128 = 0 := by decide +kernel
  rw [getVarintLoop, toNat_ofNat_of_lt small, if_neg (not_not.mpr (top v small)),
    or_group below range]

theorem getVarintLoop_groups (width count shift result v : Nat) (rest : Bytes)
    (below : result < 2 ^ shift) (size : v < 2 ^ (7 * (count + 1)))
    (range : v * 2 ^ shift + result < 2 ^ width) :
    getVarintLoop width (count + 1) shift result (varintGroups count v ++ rest) =
      some (v * 2 ^ shift + result, rest) := by
  induction count generalizing shift result v with
  | zero => exact getVarintLoop_last width 0 shift result v rest below size range
  | succ count ih =>
    rw [varintGroups]
    by_cases more : v ≥ 128
    · have top : ∀ m < 128, (m + 128) &&& 128 ≠ 0 := by decide +kernel
      have low : (v % 128 + 128) &&& 127 = v % 128 := by
        have reduce : (v % 128 + 128) &&& (2 ^ 7 - 1) = (v % 128 + 128) % 2 ^ 7 :=
          Nat.and_two_pow_sub_one_eq_mod _ 7
        change (v % 128 + 128) &&& (2 ^ 7 - 1) = v % 128
        rw [reduce]
        omega
      have split : v / 128 * 2 ^ (shift + 7) + (v % 128 * 2 ^ shift + result) =
          v * 2 ^ shift + result := by
        have parts := Nat.div_add_mod v 128
        calc
          v / 128 * 2 ^ (shift + 7) + (v % 128 * 2 ^ shift + result) =
              (128 * (v / 128) + v % 128) * 2 ^ shift + result := by ring
          _ = v * 2 ^ shift + result := by rw [parts]
      have room : v % 128 * 2 ^ shift + result < 2 ^ (shift + 7) := by
        have digit : v % 128 + 1 ≤ 128 := Nat.mod_lt _ (by decide)
        calc
          v % 128 * 2 ^ shift + result < (v % 128 + 1) * 2 ^ shift := by
            rw [add_mul, one_mul]
            omega
          _ ≤ 128 * 2 ^ shift := Nat.mul_le_mul_right _ digit
          _ = 2 ^ (shift + 7) := by ring
      have quotient : v >>> 7 = v / 128 := Nat.shiftRight_eq_div_pow v 7
      have smaller : v / 128 < 2 ^ (7 * (count + 1)) := by
        rw [Nat.div_lt_iff_lt_mul (by decide)]
        calc
          v < 2 ^ (7 * (count + 1 + 1)) := size
          _ = 2 ^ (7 * (count + 1)) * 128 := by ring
      rw [if_pos more, cons_append, getVarintLoop, toNat_ofNat_or,
        if_pos (top _ (Nat.mod_lt _ (by decide))), low, or_group below (by omega), quotient,
        ih _ _ _ room smaller (by omega), split]
    · rw [if_neg more]
      exact getVarintLoop_last width (count + 1) shift result v rest below (by omega) range

theorem getVarint32_encodeVarint32 {v : Nat} (range : v < 2 ^ 32) (rest : Bytes) :
    getVarint32 (encodeVarint32 v ++ rest) = some (v, rest) := by
  have read := getVarintLoop_groups 32 4 0 0 v rest (by decide) (by omega) (by omega)
  rw [pow_zero, mul_one] at read
  rw [encodeVarint32_eq]
  exact read

theorem getVarint64_encodeVarint64 {v : Nat} (range : v < 2 ^ 64) (rest : Bytes) :
    getVarint64 (encodeVarint64 v ++ rest) = some (v, rest) := by
  have read := getVarintLoop_groups 64 9 0 0 v rest (by decide) (by omega) (by omega)
  rw [pow_zero, mul_one] at read
  exact read

theorem getLengthPrefixedSlice_put {value : Bytes} (range : value.length < 2 ^ 32) (rest : Bytes) :
    getLengthPrefixedSlice (putLengthPrefixedSlice value ++ rest) = some (value, rest) := by
  unfold getLengthPrefixedSlice putLengthPrefixedSlice
  rw [Nat.mod_eq_of_lt range, append_assoc, getVarint32_encodeVarint32 range]
  simp

/-- `GetVarint32Ptr` and `GetVarint64Ptr` over the memory: the value and the pointer behind it.
The first case of `GetVarint32Ptr`, a number of one byte, is the first round of the loop. -/
def getVarintPtr (width : Nat) (memory : Nat -> UInt8) (limit : Nat) :
    Nat -> Nat -> Nat -> Nat -> Option (Nat × Nat)
  | 0, _, _, _ => none
  | count + 1, shift, result, p =>
    if p < limit then
      if (memory p).toNat &&& 128 ≠ 0 then
        getVarintPtr width memory limit count (shift + 7)
          (result ||| (((memory p).toNat &&& 127) <<< shift) % 2 ^ width) (p + 1)
      else
        some (result ||| ((memory p).toNat <<< shift) % 2 ^ width, p + 1)
    else none

variable {width count shift result v : Nat}

theorem getVarintLoop_eq_some {input rest : Bytes}
    (read : getVarintLoop width count shift result input = some (v, rest)) :
    ∃ used, input = used ++ rest ∧ 0 < used.length ∧ used.length ≤ count ∧
      ∀ more, getVarintLoop width count shift result (used ++ more) = some (v, more) := by
  induction count generalizing shift result input with
  | zero => cases read
  | succ count ih =>
    cases input with
    | nil => cases read
    | cons byte input =>
      rw [getVarintLoop] at read
      by_cases top : byte.toNat &&& 128 ≠ 0
      · rw [if_pos top] at read
        rcases ih read with ⟨used, rfl, _, few, same⟩
        refine ⟨byte :: used, rfl, Nat.succ_pos _, Nat.succ_le_succ few, fun more => ?_⟩
        rw [cons_append, getVarintLoop, if_pos top, same]
      · rw [if_neg top] at read
        cases read
        refine ⟨[byte], rfl, Nat.one_pos, Nat.succ_pos _, fun more => ?_⟩
        rw [singleton_append, getVarintLoop, if_neg top]

theorem getVarintPtr_eq (memory : Nat -> UInt8) (limit p : Nat) :
    getVarintPtr width memory limit count shift result p =
      (getVarintLoop width count shift result ((List.range' p (limit - p)).map memory)).map
        (fun read => (read.1, limit - read.2.length)) := by
  induction count generalizing shift result p with
  | zero => rfl
  | succ count ih =>
    rw [getVarintPtr]
    by_cases inside : p < limit
    · have next : limit - p = limit - (p + 1) + 1 := by omega
      rw [if_pos inside, next, range'_succ, map_cons, getVarintLoop, ih]
      split
      · rfl
      · simp [show limit - (limit - (p + 1)) = p + 1 by omega]
    · rw [if_neg inside, Nat.sub_eq_zero_of_le (not_lt.mp inside)]
      rfl

/-- What a pair of an encoder and a decoder of `width`-bit numbers has to do: what was
written is read back in front of anything, a strict part of it is not read, and from a
pointer only the bytes up to the limit matter, of which at most `groups` are taken. -/
def ReadsBack (width groups : Nat) (encode : Nat -> Bytes)
    (get : Bytes -> Option (Nat × Bytes)) : Prop :=
  (∀ v < 2 ^ width, forall rest, get (encode v ++ rest) = some (v, rest)) ∧
  (∀ v < 2 ^ width, forall front back, encode v = front ++ back -> back ≠ [] -> get front = none) ∧
  forall (memory : Nat -> UInt8) (p limit : Nat), getVarintPtr width memory limit groups 0 0 p =
      (get ((List.range' p (limit - p)).map memory)).map
        (fun read => (read.1, limit - read.2.length)) ∧
    forall v q, getVarintPtr width memory limit groups 0 0 p = some (v, q) ->
      p < q ∧ q ≤ limit ∧ q ≤ p + groups

theorem readsBack_of {groups : Nat} {encode : Nat -> Bytes} (reads : ∀ v < 2 ^ width, ∀ rest,
      getVarintLoop width groups 0 0 (encode v ++ rest) = some (v, rest)) :
    ReadsBack width groups encode (getVarintLoop width groups 0 0) := by
  refine ⟨reads, fun v range front back parts nonempty => ?_, fun memory p limit =>
    ⟨getVarintPtr_eq memory limit p, fun v q read => ?_⟩⟩
  · refine Option.eq_none_iff_forall_ne_some.mpr fun other read => ?_
    rcases getVarintLoop_eq_some read with ⟨used, split, _, _, same⟩
    have whole := reads v range []
    rw [append_nil, parts, split, append_assoc, same] at whole
    exact nonempty (append_eq_nil_iff.mp (Prod.mk.inj (Option.some.inj whole)).2).2
  · rw [getVarintPtr_eq] at read
    rcases Option.map_eq_some_iff.mp read with ⟨⟨_, rest⟩, found, same⟩
    rcases getVarintLoop_eq_some found with ⟨used, split, some, few, _⟩
    have sizes := congrArg List.length split
    rw [length_map, length_range', length_append] at sizes
    rcases Prod.mk.inj same with ⟨_, rfl⟩
    dsimp only
    omega

theorem coded_fields_readBack : ReadsBack 32 5 encodeVarint32 getVarint32 ∧
    ReadsBack 64 10 encodeVarint64 getVarint64 ∧
    forall value rest : Bytes, value.length < 2 ^ 32 ->
      getLengthPrefixedSlice (putLengthPrefixedSlice value ++ rest) = some (value, rest) :=
  ⟨readsBack_of fun _ range => getVarint32_encodeVarint32 range,
    readsBack_of fun _ range => getVarint64_encodeVarint64 range,
    fun _ rest range => getLengthPrefixedSlice_put range rest⟩

theorem getLengthPrefixedSlice_of_mod {value : Bytes} (wraps : value.length % 2 ^ 32 = 0) :
    getLengthPrefixedSlice (putLengthPrefixedSlice value) = some ([], value) := by
  unfold getLengthPrefixedSlice putLengthPrefixedSlice
  rw [wraps, getVarint32_encodeVarint32 (Nat.two_pow_pos 32)]
  simp

theorem getLengthPrefixedSlice_long : ∃ value : Bytes, value.length = 2 ^ 32 ∧
    getLengthPrefixedSlice (putLengthPrefixedSlice value) = some ([], value) := by
  have size : (List.replicate (2 ^ 32) (0 : UInt8)).length = 2 ^ 32 := length_replicate
  exact ⟨_, size, getLengthPrefixedSlice_of_mod (by rw [size, Nat.mod_self])⟩

theorem varintGroups_ne_nil (count v : Nat) : varintGroups count v ≠ [] := by
  cases count with
  | zero => exact cons_ne_nil _ _
  | succ count =>
    rw [varintGroups]
    split <;> exact cons_ne_nil _ _

end Util
end Doux
