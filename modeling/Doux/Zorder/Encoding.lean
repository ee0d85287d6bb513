import Doux.Foundation.Interleave

namespace Doux
namespace Zorder

open Foundation

/-!
# Morton codes of two 32-bit coordinates

`impl/zorder/util.h` spreads the bits of a 64-bit word over the even positions
with five shift-and-mask steps, and gathers them again with five steps in the
other direction.  `impl/zorder/encoding.h` builds a Morton code from two spread
words.  The definitions below are the portable branch of that header; on a
processor with BMI2 the same two functions are single `pdep` and `pext`
instructions with the mask `morton2XMask`.

Each step moves between two regular layouts of the same 32 bits.  `Spread s`
describes such a layout: blocks of `s` data bits separated by `s` zero bits.
One lemma about a doubling step and one about a halving step therefore cover
all ten lines.
-/

def morton2XMask : BitVec 64 := 0x5555555555555555#64

/-- Move the low 32 bits of a word to the even positions. -/
def expandBits2 (x : BitVec 64) : BitVec 64 :=
  let x := (x ^^^ (x <<< 16)) &&& 0x0000ffff0000ffff#64
  let x := (x ^^^ (x <<< 8)) &&& 0x00ff00ff00ff00ff#64
  let x := (x ^^^ (x <<< 4)) &&& 0x0f0f0f0f0f0f0f0f#64
  let x := (x ^^^ (x <<< 2)) &&& 0x3333333333333333#64
  (x ^^^ (x <<< 1)) &&& 0x5555555555555555#64

/-- Gather the even positions of a word in its low 32 bits. -/
def compactBits2 (x : BitVec 64) : BitVec 64 :=
  let x := x &&& 0x5555555555555555#64
  let x := (x ^^^ (x >>> 1)) &&& 0x3333333333333333#64
  let x := (x ^^^ (x >>> 2)) &&& 0x0f0f0f0f0f0f0f0f#64
  let x := (x ^^^ (x >>> 4)) &&& 0x00ff00ff00ff00ff#64
  let x := (x ^^^ (x >>> 8)) &&& 0x0000ffff0000ffff#64
  (x ^^^ (x >>> 16)) &&& 0x00000000ffffffff#64

/-- `MortonCode<2, 32>::Encode`. -/
def encode (x y : BitVec 32) : BitVec 64 :=
  (expandBits2 (x.setWidth 64) <<< 0) ||| (expandBits2 (y.setWidth 64) <<< 1)

/-- `MortonCode<2, 32>::Decode`. -/
def decode (code : BitVec 64) : BitVec 32 × BitVec 32 :=
  ((compactBits2 (code >>> 0)).setWidth 32, (compactBits2 (code >>> 1)).setWidth 32)

/-- The bits `f 0, f 1, …` stand in blocks of `s`, each followed by `s` zeros. -/
def Spread (s : Nat) (f : Nat -> Bool) (word : BitVec 64) : Prop :=
  forall i, i < 64 ->
    word.getLsbD i = (decide (i % (2 * s) < s) && f (i / (2 * s) * s + i % (2 * s)))

/-- The mask that keeps the data positions of the layout `Spread s`. -/
def LayoutMask (s : Nat) (mask : BitVec 64) : Prop :=
  forall i, i < 64 -> mask.getLsbD i = decide (i % (2 * s) < s)

/-- A layout step of the two headers works on one of these block sizes. -/
def StepSize (s : Nat) : Prop := s = 16 ∨ s = 8 ∨ s = 4 ∨ s = 2 ∨ s = 1

theorem Spread.halve {s : Nat} (size : StepSize s) {f : Nat -> Bool} {word mask : BitVec 64}
    (layout : Spread (2 * s) f word) (keeps : LayoutMask s mask) :
    Spread s f ((word ^^^ (word <<< s)) &&& mask) := by
  intro i bound
  have lower : i - s < 64 := by omega
  rw [BitVec.getLsbD_and, BitVec.getLsbD_xor, BitVec.getLsbD_shiftLeft, keeps i bound,
    layout i bound, layout (i - s) lower]
  by_cases data : i % (2 * s) < s
  · -- A kept position holds its own bit or the one that arrives from `s` below.
    by_cases first : i % (2 * (2 * s)) < 2 * s
    · have other : i < s ∨ ¬ (i - s) % (2 * (2 * s)) < 2 * s := by
        rcases size with rfl | rfl | rfl | rfl | rfl <;> omega
      have position : i / (2 * (2 * s)) * (2 * s) + i % (2 * (2 * s)) =
          i / (2 * s) * s + i % (2 * s) := by
        rcases size with rfl | rfl | rfl | rfl | rfl <;> omega
      rcases other with other | other <;> simp [data, first, other, position]
    · have shifted : ¬ i < s ∧ (i - s) % (2 * (2 * s)) < 2 * s ∧
          (i - s) / (2 * (2 * s)) * (2 * s) + (i - s) % (2 * (2 * s)) =
            i / (2 * s) * s + i % (2 * s) := by
        rcases size with rfl | rfl | rfl | rfl | rfl <;> omega
      simp [first, data, shifted, bound]
  · simp [data]

theorem Spread.double {s : Nat} (size : StepSize s) {f : Nat -> Bool} {word mask : BitVec 64}
    (layout : Spread s f word) (keeps : LayoutMask (2 * s) mask) :
    Spread (2 * s) f ((word ^^^ (word >>> s)) &&& mask) := by
  intro i bound
  rw [BitVec.getLsbD_and, BitVec.getLsbD_xor, BitVec.getLsbD_ushiftRight, keeps i bound,
    layout i bound]
  by_cases data : i % (2 * (2 * s)) < 2 * s
  · have upper : s + i < 64 := by
      rcases size with rfl | rfl | rfl | rfl | rfl <;> omega
    rw [layout (s + i) upper]
    by_cases first : i % (2 * s) < s
    · have position : ¬ (s + i) % (2 * s) < s ∧
          i / (2 * s) * s + i % (2 * s) = i / (2 * (2 * s)) * (2 * s) + i % (2 * (2 * s)) := by
        rcases size with rfl | rfl | rfl | rfl | rfl <;> omega
      simp [data, first, position]
    · have position : (s + i) % (2 * s) < s ∧ (s + i) / (2 * s) * s + (s + i) % (2 * s) =
            i / (2 * (2 * s)) * (2 * s) + i % (2 * (2 * s)) := by
        rcases size with rfl | rfl | rfl | rfl | rfl <;> omega
      simp [data, first, position]
  · simp [data]

theorem layoutMask_32 : LayoutMask 32 0x00000000ffffffff#64 := by
  unfold LayoutMask; decide

theorem layoutMask_16 : LayoutMask 16 0x0000ffff0000ffff#64 := by
  unfold LayoutMask; decide

theorem layoutMask_8 : LayoutMask 8 0x00ff00ff00ff00ff#64 := by
  unfold LayoutMask; decide

theorem layoutMask_4 : LayoutMask 4 0x0f0f0f0f0f0f0f0f#64 := by
  unfold LayoutMask; decide

theorem layoutMask_2 : LayoutMask 2 0x3333333333333333#64 := by
  unfold LayoutMask; decide

theorem layoutMask_1 : LayoutMask 1 0x5555555555555555#64 := by
  unfold LayoutMask; decide

variable (x : BitVec 32)

/-- The bits of a 32-bit coordinate in a 64-bit word form one block of 32. -/
theorem spread_setWidth : Spread 32 x.getLsbD (x.setWidth 64) := by
  intro i bound
  by_cases low : i < 32
  · have position : i / (2 * 32) * 32 + i % (2 * 32) = i := by omega
    have block : i % (2 * 32) < 32 := by omega
    rw [position]
    simp [bound, block]
  · have block : ¬ i % (2 * 32) < 32 := by omega
    simp [block, BitVec.getLsbD_of_ge x i (by omega)]

theorem spread_expandBits2 : Spread 1 x.getLsbD (expandBits2 (x.setWidth 64)) := by
  have layout16 := (spread_setWidth x).halve (s := 16) (by unfold StepSize; omega) layoutMask_16
  have layout8 := layout16.halve (s := 8) (by unfold StepSize; omega) layoutMask_8
  have layout4 := layout8.halve (s := 4) (by unfold StepSize; omega) layoutMask_4
  have layout2 := layout4.halve (s := 2) (by unfold StepSize; omega) layoutMask_2
  exact layout2.halve (s := 1) (by unfold StepSize; omega) layoutMask_1

theorem getLsbD_expandBits2 (i : Nat) :
    (expandBits2 (x.setWidth 64)).getLsbD i = (decide (i % 2 = 0) && x.getLsbD (i / 2)) := by
  by_cases bound : i < 64
  · rw [spread_expandBits2 x i bound]
    by_cases even : i % 2 = 0
    · simp [even]
    · have odd : i % 2 = 1 := by omega
      simp [odd]
  · rw [BitVec.getLsbD_of_ge _ i (by omega), BitVec.getLsbD_of_ge x (i / 2) (by omega),
      Bool.and_false]

/-- Compacting reads the even positions. -/
theorem getLsbD_compactBits2 (word : BitVec 64) (i : Nat) :
    (compactBits2 word).getLsbD i = (decide (i < 32) && word.getLsbD (2 * i)) := by
  have layout1 : Spread 1 (fun j => word.getLsbD (2 * j)) (word &&& 0x5555555555555555#64) := by
    intro j bound
    rw [BitVec.getLsbD_and, layoutMask_1 j bound]
    by_cases even : j % (2 * 1) < 1
    · have position : 2 * (j / (2 * 1) * 1 + j % (2 * 1)) = j := by omega
      simp only [even, position, decide_true, Bool.and_true, Bool.true_and]
    · simp [even]
  have layout2 := layout1.double (by unfold StepSize; omega) layoutMask_2
  have layout4 := layout2.double (by unfold StepSize; omega) layoutMask_4
  have layout8 := layout4.double (by unfold StepSize; omega) layoutMask_8
  have layout16 := layout8.double (by unfold StepSize; omega) layoutMask_16
  have layout32 := layout16.double (by unfold StepSize; omega) layoutMask_32
  by_cases bound : i < 64
  · have bit := layout32 i bound
    change (compactBits2 word).getLsbD i = _ at bit
    rw [bit]
    by_cases low : i < 32
    · have position : i / 64 * 32 + i % 64 = i := by omega
      have block : i % 64 < 32 := by omega
      simp [low, block, position]
    · have block : ¬ i % 64 < 32 := by omega
      simp [low, block]
  · rw [BitVec.getLsbD_of_ge _ i (by omega)]
    have high : ¬ i < 32 := by omega
    simp [high]

variable (y : BitVec 32)

theorem getLsbD_encode (i : Nat) : (encode x y).getLsbD i =
      (if i % 2 = 0 then x.getLsbD (i / 2) else y.getLsbD (i / 2)) := by
  unfold encode
  rw [BitVec.getLsbD_or, BitVec.shiftLeft_zero, BitVec.getLsbD_shiftLeft,
    getLsbD_expandBits2, getLsbD_expandBits2]
  by_cases even : i % 2 = 0
  · by_cases zero : i < 1
    · simp [even, zero]
    · have odd : ¬ (i - 1) % 2 = 0 := by omega
      simp [even, odd]
  · have lower : ¬ i < 1 ∧ (i - 1) % 2 = 0 ∧ (i - 1) / 2 = i / 2 := by omega
    by_cases bound : i < 64
    · simp [even, lower.1, lower.2.1, lower.2.2, bound]
    · have high : y.getLsbD (i / 2) = false := BitVec.getLsbD_of_ge y (i / 2) (by omega)
      simp [bound, high]

theorem getLsbD_encode_even (i : Nat) : (encode x y).getLsbD (2 * i) = x.getLsbD i := by
  rw [getLsbD_encode, if_pos (by omega), show 2 * i / 2 = i by omega]

theorem getLsbD_encode_odd (i : Nat) : (encode x y).getLsbD (2 * i + 1) = y.getLsbD i := by
  rw [getLsbD_encode, if_neg (by omega), show (2 * i + 1) / 2 = i by omega]

theorem and_getLsbD (i : Nat) : (decide (i < 32) && x.getLsbD i) = x.getLsbD i := by
  by_cases low : i < 32
  · simp [low]
  · simp [BitVec.getLsbD_of_ge x i (by omega)]

/-- A Morton code is the bit interleaving of its coordinates. -/
theorem toNat_encode : (encode x y).toNat = interleave 32 x.toNat y.toNat := by
  apply Nat.eq_of_testBit_eq
  intro i
  rw [BitVec.testBit_toNat]
  rcases Nat.even_or_odd' i with ⟨k, rfl | rfl⟩
  · rw [getLsbD_encode_even, (testBit_interleave ..).1, BitVec.testBit_toNat, and_getLsbD]
  · rw [getLsbD_encode_odd, (testBit_interleave ..).2, BitVec.testBit_toNat, and_getLsbD]

/-- Compacting a code, or the code shifted by one, returns a coordinate. -/
theorem compactBits2_encode : compactBits2 (encode x y >>> 0) = x.setWidth 64 ∧
      compactBits2 (encode x y >>> 1) = y.setWidth 64 := by
  constructor
  · apply BitVec.eq_of_getLsbD_eq
    intro i bound
    rw [getLsbD_compactBits2, BitVec.ushiftRight_zero, getLsbD_encode_even, and_getLsbD]
    simp [bound]
  · apply BitVec.eq_of_getLsbD_eq
    intro i bound
    rw [getLsbD_compactBits2, BitVec.getLsbD_ushiftRight, add_comm, getLsbD_encode_odd, and_getLsbD]
    simp [bound]

theorem decode_encode : decode (encode x y) = (x, y) := by
  unfold decode
  rw [(compactBits2_encode x y).1, (compactBits2_encode x y).2]
  simp

theorem encode_decode (code : BitVec 64) : encode (decode code).1 (decode code).2 = code := by
  apply BitVec.eq_of_getLsbD_eq
  intro i _
  have half : i / 2 < 32 := by omega
  rw [getLsbD_encode]
  unfold decode
  simp only [BitVec.getLsbD_setWidth, getLsbD_compactBits2, BitVec.getLsbD_ushiftRight, half,
    decide_true, Bool.true_and]
  split
  · rw [show 0 + 2 * (i / 2) = i by omega]
  · rw [show 1 + 2 * (i / 2) = i by omega]

section
variable (a b c d : BitVec 32)

theorem encode_or : encode a b ||| encode c d = encode (a ||| c) (b ||| d) := by
  apply BitVec.eq_of_getLsbD_eq
  intro i _
  simp only [BitVec.getLsbD_or, getLsbD_encode]
  split <;> rfl

theorem encode_and : encode a b &&& encode c d = encode (a &&& c) (b &&& d) := by
  apply BitVec.eq_of_getLsbD_eq
  intro i _
  simp only [BitVec.getLsbD_and, getLsbD_encode]
  split <;> rfl

theorem encode_not : ~~~encode a b = encode (~~~a) (~~~b) := by
  apply BitVec.eq_of_getLsbD_eq
  intro i bound
  have half : i / 2 < 32 := by omega
  simp only [BitVec.getLsbD_not, getLsbD_encode, bound, half, decide_true, Bool.true_and]
  split <;> rfl

/-- An expanded coordinate is a code with one coordinate zero. -/
theorem expandBits2_eq : expandBits2 (a.setWidth 64) = encode a 0#32 ∧
    expandBits2 (a.setWidth 64) <<< 1 = encode 0#32 a := by
  have zero : expandBits2 ((0#32).setWidth 64) = 0#64 := by decide
  unfold encode
  rw [zero]
  simp

theorem masks_eq : morton2XMask = encode (.allOnes 32) 0#32 ∧
    morton2XMask <<< 1 = encode 0#32 (.allOnes 32) := by
  decide +kernel

end

/-- Writing an expanded coordinate over the even positions replaces `x`. -/
theorem replace_x (x y part : BitVec 32) :
    (encode x y &&& ~~~(morton2XMask <<< 0)) ||| (expandBits2 (part.setWidth 64) <<< 0) =
      encode part y := by
  simp [-BitVec.reduceAllOnes, masks_eq, expandBits2_eq, encode_not, encode_and, encode_or]

theorem replace_y (x y part : BitVec 32) :
    (encode x y &&& ~~~(morton2XMask <<< 1)) ||| (expandBits2 (part.setWidth 64) <<< 1) =
      encode x part := by
  rw [masks_eq.2, (expandBits2_eq part).2]
  simp [-BitVec.reduceAllOnes, encode_not, encode_and, encode_or]

/-- `MortonCode<3, 21>::Encode`, which spreads the coordinates for two dimensions. -/
def encode3 (x y z : BitVec 32) : BitVec 64 :=
  (expandBits2 (x.setWidth 64) <<< 0) ||| (expandBits2 (y.setWidth 64) <<< 1) |||
    (expandBits2 (z.setWidth 64) <<< 2)

/-- `MortonCode<3, 21>::decode`. -/
def decode3 (code : BitVec 64) : BitVec 32 × BitVec 32 × BitVec 32 :=
  ((compactBits2 (code >>> 0)).setWidth 32, (compactBits2 (code >>> 1)).setWidth 32,
    (compactBits2 (code >>> 2)).setWidth 32)

theorem encode_shift (a b : BitVec 32) : encode a b <<< 2 = encode (a <<< 1) (b <<< 1) ∧
    encode a b >>> 2 = encode (a >>> 1) (b >>> 1) := by
  constructor <;> apply BitVec.eq_of_getLsbD_eq <;> intro i bound
  · by_cases small : i < 2
    · have first : i / 2 = 0 := by omega
      simp [getLsbD_encode, small, first]
    · have parts : (i - 2) % 2 = i % 2 ∧ (i - 2) / 2 = i / 2 - 1 ∧ ¬ i / 2 < 1 ∧ i / 2 < 32 := by
        omega
      simp only [BitVec.getLsbD_shiftLeft, getLsbD_encode, small, parts, bound, decide_true,
        decide_false, Bool.not_false, Bool.true_and]
  · have parts : (2 + i) % 2 = i % 2 ∧ (2 + i) / 2 = 1 + i / 2 := by omega
    simp [getLsbD_encode, parts]

/-- The third coordinate goes to the bits of the first one. -/
theorem encode3_eq (x y z : BitVec 32) : encode3 x y z = encode (x ||| z <<< 1) y := by
  unfold encode3
  rw [(expandBits2_eq z).1, (encode_shift ..).1]
  change encode x y ||| _ = _
  simp [encode_or]

theorem decode3_encode (a b : BitVec 32) : decode3 (encode a b) = (a, b, a >>> 1) := by
  have third := (compactBits2_encode (a >>> 1) (b >>> 1)).1
  rw [BitVec.ushiftRight_zero] at third
  unfold decode3
  rw [(encode_shift a b).2, third, (compactBits2_encode a b).1, (compactBits2_encode a b).2]
  simp only [BitVec.setWidth_setWidth_of_le, Nat.reduceLeDiff, BitVec.setWidth_eq]

/-- Coordinates of 21 bits. -/
def Fits21 (x y z : BitVec 32) : Prop := x.toNat < 2 ^ 21 ∧ y.toNat < 2 ^ 21 ∧ z.toNat < 2 ^ 21

/-- A triple comes back and shares its code with no other one exactly when the first coordinate
is at most one and the third one is zero. -/
theorem encode3_invertible_iff {x y z : BitVec 32} (fits : Fits21 x y z) :
    (decode3 (encode3 x y z) = (x, y, z) ∧ forall x' y' z',
      Fits21 x' y' z' -> encode3 x' y' z' = encode3 x y z -> (x', y', z') = (x, y, z)) <->
      x >>> 1 = 0#32 ∧ z = 0#32 := by
  simp only [encode3_eq, decode3_encode, Prod.mk.injEq]
  constructor
  · rintro ⟨⟨covered, _, third⟩, unique⟩
    -- without its third coordinate the triple has the same code
    have zero := (unique x y 0 ⟨fits.1, fits.2.1, by decide⟩ (by simp [covered])).2.2
    rw [covered] at third
    exact ⟨third.trans zero.symm, zero.symm⟩
  · rintro ⟨shifted, rfl⟩
    refine ⟨by simp [shifted], fun x' y' z' fits' same => ?_⟩
    have parts := congrArg decode same
    simp only [decode_encode, Prod.mk.injEq] at parts
    have first : x' ||| z' <<< 1 = x := by simpa using parts.1
    rw [<- first, BitVec.ushiftRight_or_distrib, BitVec.or_eq_zero_iff] at shifted
    have zero : z' = 0 := by
      have small := fits'.2.2
      have lost := shifted.2
      bv_omega
    exact ⟨by simpa [zero] using first, parts.2, zero⟩

/-- The third coordinate of one triple is the first coordinate of another one. -/
theorem encode3_collides : Fits21 0 0 1 ∧ Fits21 2 0 0 ∧ encode3 0 0 1 = encode3 2 0 0 ∧
    decode3 (encode3 0 0 1) ≠ (0, 0, 1) := by
  unfold Fits21
  decide

theorem encode3_invertible_flat : Fits21 1 5 0 ∧ decode3 (encode3 1 5 0) = (1, 5, 0) := by
  have fits : Fits21 1 5 0 := by
    unfold Fits21
    decide
  exact ⟨fits, ((encode3_invertible_iff fits).mpr (by decide)).1⟩

end Zorder
end Doux
