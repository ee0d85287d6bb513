import Doux.Util.Coding

namespace Doux
namespace Util

open Foundation List

/-!
# The checksum

`crc32c::Extend` without the instruction of the processor.  Up to an aligned address it
works byte by byte; from there it keeps four partial remainders, each of which takes every
fourth word, and puts them together at the end.  One byte step is linear, which makes this
the same as the byte by byte checksum.
-/

abbrev Word := BitVec 32

def kCRC32Xor : Word := 0xffffffff

/-- One bit of the division by the polynomial. -/
def bitStep (w : Word) : Word := w >>> 1 ^^^ (if w.getLsbD 0 then 0x82f63b78 else 0)

/-- The entry of a byte in `kByteExtensionTable`: what eight steps leave of the byte. -/
def byteExtension (c : Word) : Word := bitStep^[8] c

example : [1, 2, 4, 8, 16, 32, 64, 128].map byteExtension = [0xf26b8303, 0xe13b70f7, 0xc79a971f,
    0x8ad958cf, 0x105ec76f, 0x20bd8ede, 0x417b1dbc, 0x82f63b78] := by decide

def step1 (l : Word) (byte : UInt8) : Word :=
  byteExtension ((l &&& 0xff) ^^^ BitVec.ofNat 32 byte.toNat) ^^^ l >>> 8

/-- The body of the loop in `STEP4W`, a byte step over a zero. -/
def zeroStep (w : Word) : Word := w >>> 8 ^^^ byteExtension (w &&& 0xff)

def step4W (l w : Word) : Word := zeroStep^[4] (w ^^^ l)

def readUint32LE (p : Bytes) : Word := BitVec.ofNat 32 (decodeFixed32 p)

/-- The partial remainders. -/
structure Strides where
  crc0 : Word
  crc1 : Word
  crc2 : Word
  crc3 : Word

/-- The end of the fast part, from `l = 0` on. -/
def Strides.combine (s : Strides) : Word :=
  step4W (step4W (step4W (step4W 0 s.crc0) s.crc1) s.crc2) s.crc3

/-- `while ((e - p) >= size)`, with a step that takes the next `size` bytes. -/
def chunkLoop (step : Strides -> Bytes -> Strides) (size : Nat) (s : Strides) (p : Bytes) :
    Strides × Bytes :=
  if 0 < size ∧ size ≤ p.length then chunkLoop step size (step s p) (p.drop size) else (s, p)
termination_by p.length
decreasing_by
  rw [length_drop]
  omega

section Extend
variable (stride : Nat -> Word -> Word)

/-- `STEP4`, with the entries of the four stride tables. -/
def step4 (crc : Word) (p : Bytes) : Word :=
  readUint32LE p ^^^ stride 3 (crc &&& 0xff) ^^^ stride 2 (crc >>> 8 &&& 0xff) ^^^
    stride 1 (crc >>> 16 &&& 0xff) ^^^ stride 0 (crc >>> 24)

def step16 (s : Strides) (p : Bytes) : Strides :=
  ⟨step4 stride s.crc0 p, step4 stride s.crc1 (p.drop 4), step4 stride s.crc2 (p.drop 8),
    step4 stride s.crc3 (p.drop 12)⟩

/-- One word, after which the remainders change their places. -/
def stepWord (s : Strides) (p : Bytes) : Strides :=
  ⟨s.crc1, s.crc2, s.crc3, step4 stride s.crc0 p⟩

/-- The part of `Extend` for at least 16 bytes: the remainder, and the last few bytes. -/
def extendWords (l : Word) (p : Bytes) : Word × Bytes :=
  if p.length ≥ 16 then
    let loaded : Strides := ⟨readUint32LE p ^^^ l, readUint32LE (p.drop 4),
      readUint32LE (p.drop 8), readUint32LE (p.drop 12)⟩
    let swaths := chunkLoop (step16 stride) 16 loaded (p.drop 16)
    let words := chunkLoop (stepWord stride) 4 swaths.1 swaths.2
    (words.1.combine, words.2)
  else (l, p)

/-- `Extend` for data at an address.  Words start at `RoundUp<4>` of the address. -/
def extend (address : Nat) (crc : Word) (data : Bytes) : Word :=
  let x := (address + 3) / 4 * 4
  let front := if x ≤ address + data.length then x - address else 0
  let words := extendWords stride ((data.take front).foldl step1 (crc ^^^ kCRC32Xor))
    (data.drop front)
  words.2.foldl step1 words.1 ^^^ kCRC32Xor

/-- The entry of a byte in table `k` is that of the byte table, taken over `12 + k` zeros. -/
def StrideTables : Prop :=
  ∀ k < 4, forall c : Word, c.toNat < 256 -> stride k c = zeroStep^[k + 12] (byteExtension c)

end Extend

/-- One byte at a time. -/
def extendBytes (crc : Word) (data : Bytes) : Word :=
  data.foldl step1 (crc ^^^ kCRC32Xor) ^^^ kCRC32Xor

/-- The map commutes with exclusive or. -/
def Linear (f : Word -> Word) : Prop := forall a b, f (a ^^^ b) = f a ^^^ f b

theorem Linear.iterate {f : Word -> Word} (linear : Linear f) (n : Nat) : Linear f^[n] := by
  induction n with
  | zero => exact fun _ _ => rfl
  | succ n ih =>
    intro a b
    rw [Function.iterate_succ_apply, linear, ih]
    rfl

theorem xor_and (a b m : Word) : (a ^^^ b) &&& m = (a &&& m) ^^^ (b &&& m) := by
  grind

theorem toNat_and_byte (w : Word) : (w &&& 0xff).toNat = w.toNat % 256 :=
  (BitVec.toNat_and ..).trans (Nat.and_two_pow_sub_one_eq_mod _ 8)

theorem linear_bitStep : Linear bitStep := by
  intro a b
  unfold bitStep
  generalize (0x82f63b78 : Word) = polynomial
  have cancel : polynomial ^^^ polynomial = 0 := BitVec.xor_self
  rw [BitVec.getLsbD_xor, BitVec.ushiftRight_xor_distrib]
  cases a.getLsbD 0 <;> cases b.getLsbD 0 <;> grind

theorem linear_zeroStep : Linear zeroStep := by
  intro a b
  unfold zeroStep byteExtension
  rw [BitVec.ushiftRight_xor_distrib, xor_and, linear_bitStep.iterate]
  ac_rfl

theorem zeroStep_xor {l w : Word} {byte : UInt8} (low : w &&& 0xff = BitVec.ofNat 32 byte.toNat) :
    zeroStep (l ^^^ w) = step1 l byte ^^^ w >>> 8 := by
  rw [zeroStep, step1, BitVec.ushiftRight_xor_distrib, xor_and, low]
  ac_rfl

theorem foldl_step1 (l : Word) {bytes : Bytes} (short : bytes.length ≤ 4) : bytes.foldl step1 l =
      zeroStep^[bytes.length] (l ^^^ BitVec.ofNat 32 (ofLittleEndian bytes)) := by
  induction bytes generalizing l with
  | nil => simp [ofLittleEndian]
  | cons byte bytes ih =>
    rw [length_cons] at short
    have small := byte.toNat_lt
    have bound := (ofLittleEndian_lt bytes).trans_le
      (Nat.pow_le_pow_right (by decide) (Nat.le_of_succ_le_succ short))
    have low : BitVec.ofNat 32 (byte.toNat + 256 * ofLittleEndian bytes) &&& 0xff =
        BitVec.ofNat 32 byte.toNat := by
      apply BitVec.eq_of_toNat_eq
      rw [toNat_and_byte, BitVec.toNat_ofNat, BitVec.toNat_ofNat]
      omega
    have high : BitVec.ofNat 32 (byte.toNat + 256 * ofLittleEndian bytes) >>> 8 =
        BitVec.ofNat 32 (ofLittleEndian bytes) := by
      apply BitVec.eq_of_toNat_eq
      rw [BitVec.toNat_ushiftRight, BitVec.toNat_ofNat, BitVec.toNat_ofNat,
        Nat.shiftRight_eq_div_pow]
      omega
    rw [foldl_cons, ih _ (by omega), length_cons, Function.iterate_succ_apply, ofLittleEndian,
      zeroStep_xor low, high]

theorem foldl_word (l : Word) {p : Bytes} (long : 4 ≤ p.length) :
    p.foldl step1 l = (p.drop 4).foldl step1 (step4W l (readUint32LE p)) := by
  have length : (p.take 4).length = 4 := length_take_of_le long
  have word := foldl_step1 l length.le
  rw [length, BitVec.xor_comm] at word
  rw [<- take_append_drop 4 p, foldl_append, word, take_append_drop]
  rfl

theorem foldl_swath (l : Word) {p : Bytes} (long : 16 ≤ p.length) :
    p.foldl step1 l = (p.drop 16).foldl step1 (step4W (step4W (step4W (step4W l (readUint32LE p))
      (readUint32LE (p.drop 4))) (readUint32LE (p.drop 8))) (readUint32LE (p.drop 12))) := by
  rw [foldl_word _ (by omega), foldl_word _ (by rw [length_drop]; omega), drop_drop,
    foldl_word _ (by rw [length_drop]; omega), drop_drop,
    foldl_word _ (by rw [length_drop]; omega), drop_drop]

variable {stride : Nat -> Word -> Word} (tables : StrideTables stride)

section
include tables

/-- A stride is sixteen bytes: the word is taken in, and twelve bytes of the others follow. -/
theorem step4_eq (crc : Word) (p : Bytes) :
    step4 stride crc p = readUint32LE p ^^^ zeroStep^[16] crc := by
  have entry (k : Nat) (few : k < 4) (w : Word) :
      zeroStep^[k + 13] w = stride k (w &&& 0xff) ^^^ zeroStep^[k + 12] (w >>> 8) := by
    rw [Function.iterate_succ_apply, zeroStep, linear_zeroStep.iterate, BitVec.xor_comm,
      tables k few _ (by rw [toNat_and_byte]; omega)]
  have top : (crc >>> 24) &&& (0xff : Word) = crc >>> 24 := by
    apply BitVec.eq_of_toNat_eq
    rw [toNat_and_byte, BitVec.toNat_ushiftRight, Nat.shiftRight_eq_div_pow]
    omega
  have shifted (n : Nat) : crc >>> n >>> 8 = crc >>> (n + 8) := (BitVec.shiftRight_add ..).symm
  have none : zeroStep^[12] (crc >>> 32) = 0 := by
    rw [BitVec.ushiftRight_eq_zero (le_refl _)]
    rfl
  rw [step4, entry 3 (by decide), entry 2 (by decide), shifted, entry 1 (by decide), shifted,
    entry 0 (by decide), shifted, none, top]
  simp [BitVec.xor_assoc]

theorem combine_stepWord (s : Strides) (p : Bytes) :
    (stepWord stride s p).combine = step4W s.combine (readUint32LE p) := by
  have linear := linear_zeroStep.iterate 4
  have stride : zeroStep^[16] s.crc0 =
    zeroStep^[4] (zeroStep^[4] (zeroStep^[4] (zeroStep^[4] s.crc0))) := rfl
  simp only [stepWord, Strides.combine, step4W, step4_eq tables, stride, linear _ _]
  ac_rfl

omit tables in
theorem foldl_chunkLoop {step : Strides -> Bytes -> Strides} {size : Nat}
    (keeps : ∀ (s : Strides) (p : Bytes), size ≤ p.length ->
      (p.drop size).foldl step1 (step s p).combine = p.foldl step1 s.combine)
    (s : Strides) (p : Bytes) :
    (chunkLoop step size s p).2.foldl step1 (chunkLoop step size s p).1.combine =
      p.foldl step1 s.combine := by
  fun_induction chunkLoop step size s p with
  | case1 s p more ih => rw [ih, keeps s p more.2]
  | case2 s p _ => rfl

theorem foldl_extendWords (l : Word) (p : Bytes) :
    (extendWords stride l p).2.foldl step1 (extendWords stride l p).1 = p.foldl step1 l := by
  unfold extendWords
  split
  · rename_i long
    dsimp only
    rw [foldl_chunkLoop, foldl_chunkLoop, foldl_swath l long]
    · simp [Strides.combine, step4W]
    · intro s p long
      have rotate : step16 stride s p = stepWord stride (stepWord stride (stepWord stride
        (stepWord stride s p) (p.drop 4)) (p.drop 8)) (p.drop 12) := rfl
      rw [rotate, combine_stepWord tables, combine_stepWord tables, combine_stepWord tables,
        combine_stepWord tables, foldl_swath _ long]
    · intro s p long
      rw [combine_stepWord tables, foldl_word _ long]
  · rfl

theorem extend_eq (address : Nat) (crc : Word) (data : Bytes) :
    extend stride address crc data = extendBytes crc data := by
  unfold extend extendBytes
  dsimp only
  rw [foldl_extendWords tables, <- foldl_append, take_append_drop]

end

/-- The checksum does not depend on the address, and it can be computed piece by piece. -/
theorem extend_bytewise (tables : StrideTables stride) :
    (forall address crc data, extend stride address crc data = extendBytes crc data) ∧
      forall first second address crc a b,
        extend stride second (extend stride first crc a) b = extend stride address crc (a ++ b) := by
  refine ⟨extend_eq tables, fun first second address crc a b => ?_⟩
  rw [extend_eq tables, extend_eq tables, extend_eq tables, extendBytes, extendBytes, extendBytes,
    foldl_append, BitVec.xor_assoc, BitVec.xor_self, BitVec.xor_zero]

theorem extend_bytewise_letters :
    extend (fun k c => zeroStep^[k + 12] (byteExtension c)) 1 0 (List.replicate 40 97) =
      0x6b15f789 :=
  ((extend_bytewise fun _ _ _ _ => rfl).1 1 0 _).trans (by decide +kernel)

end Util
end Doux
