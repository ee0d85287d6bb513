import Doux.Foundation.Control
import Doux.Zorder.Encoding

namespace Doux
namespace Zorder

open Foundation

/-!
# Decomposing a box into intervals of Morton codes

`impl/zorder/aabb.h` turns an axis-parallel box into the intervals of the
Z-order curve that it meets.  A stack of boxes is worked off: a box that is one
aligned cell of the curve becomes an interval, joined to the previous interval
when the two touch, and any other box is cut in two at the highest bit in which
its corners differ.

Codes are 64-bit words, as in the source.  The three bit-counting builtins are
the functions of the standard library, except that `__builtin_ctzll` has no
defined result at zero; the parameter `ctzZero` stands for whatever it returns
there, and every result below holds for each choice of it.
-/

/-- A closed interval of Morton codes. -/
structure Interval where
  start : BitVec 64
  end_ : BitVec 64
deriving DecidableEq, Repr

/-- A box, given by the codes of its least and its greatest corner. -/
structure Aabb where
  min : BitVec 64
  max : BitVec 64
deriving DecidableEq, Repr

section
variable (ctzZero : Nat)

def ctzll (value : BitVec 64) : Nat :=
  if value = 0 then ctzZero else value.ctz.toNat

def clzll (value : BitVec 64) : Nat := value.clz.toNat

def popcountll (value : BitVec 64) : Nat := value.cpop.toNat

/-- `AABB::IsMortonAligned`: the box is a whole cell of the curve. -/
def isMortonAligned (box : Aabb) : Except String Bool := do
  assertThat (box.max ≥ box.min) "max_ >= min_"
  let alignMax := if box.min ≠ 0 then ctzll ctzZero box.min else 2 ^ 64 - 1
  let diff := box.max - box.min + 1
  let align := ctzll ctzZero diff
  return decide (align / 2 ≤ alignMax / 2) && decide (popcountll diff = 1) &&
    decide (align % 2 = 0)

/-- `AABB::ToCell`. -/
def toCell (box : Aabb) : Except String Interval := do
  let aligned <- isMortonAligned ctzZero box
  assertThat (aligned = true) "this->IsMortonAligned()"
  return ⟨box.min, box.max⟩

/-- `AABB::MortonGetNextAddress`: the greatest code of the lower part (LITMAX)
and the least code of the upper part (BIGMIN). -/
def mortonGetNextAddress (box : Aabb) : BitVec 64 × BitVec 64 :=
  let litmax := box.max
  let bigmin := box.min
  let index := 65 - clzll (box.min ^^^ box.max)
  let mask := ~~~((1#64 <<< (index / 2)) - 1#64)
  let inc := 1#64 <<< (index / 2 - 1)
  let index := index % 2
  let part : BitVec 32 := ((compactBits2 (box.min >>> index) &&& mask) + inc).setWidth 32
  let bigmin := bigmin &&& ~~~(morton2XMask <<< index)
  let bigmin := bigmin ||| (expandBits2 (part.setWidth 64) <<< index)
  let part := part - 1#32
  let litmax := litmax &&& ~~~(morton2XMask <<< index)
  let litmax := litmax ||| (expandBits2 (part.setWidth 64) <<< index)
  (litmax, bigmin)

/-- Append an aligned box to the output, joining it to a touching last interval. -/
def emitCell (outputs : List Interval) (box : Aabb) : Except String (List Interval) :=
  match outputs.getLast? with
  | some last =>
    if last.end_ + 1 = box.min then
      .ok (outputs.dropLast ++ [⟨last.start, box.max⟩])
    else do
      let cell <- toCell ctzZero box
      return outputs ++ [cell]
  | none => do
    let cell <- toCell ctzZero box
    return outputs ++ [cell]

/-- One pass of the loop of `AABB::ToIntervals` over a box taken off the stack. -/
def toIntervalsPass (box : Aabb) (inputs : List Aabb) (outputs : List Interval) :
    Except String (List Aabb × List Interval) := do
  if <- isMortonAligned ctzZero box then
    return (inputs, <- emitCell ctzZero outputs box)
  else
    let (litmax, bigmin) := mortonGetNextAddress box
    let first : Aabb := ⟨box.min, litmax⟩
    let second : Aabb := ⟨bigmin, box.max⟩
    assertThat (first.max ≥ first.min) "first.max_ >= first.min_"
    assertThat (second.max ≥ second.min) "second.max_ >= second.min_"
    return (first :: second :: inputs, outputs)

/-- The loop body: the stack `inputs` has its back at the head of the list. -/
def toIntervalsBody (state : List Aabb × List Interval) :
    LoopStep (List Aabb × List Interval) (Except String (List Interval)) :=
  match state.1 with
  | [] => .done (.ok state.2)
  | box :: inputs =>
    match toIntervalsPass ctzZero box inputs state.2 with
    | .error text => .done (.error text)
    | .ok next => .again next

/-- `AABB::ToIntervals` with at most `fuel` passes of its loop. -/
def toIntervals (fuel : Nat) (box : Aabb) : Option (Except String (List Interval)) :=
  if box.max ≥ box.min then
    runLoop (toIntervalsBody ctzZero) fuel ([box], [])
  else
    some (.error "max_ >= min_")

end

variable {word : BitVec 64} {j : Nat}

/-- A word with two different bits set has a population count above one. -/
theorem two_le_cpopNatRec {n i : Nat} (below : i < j) (inside : j < n)
    (bitI : word.getLsbD i = true) (bitJ : word.getLsbD j = true) : 2 ≤ word.cpopNatRec n 0 := by
  have atI : word.cpopNatRec (i + 1) 0 = word.cpopNatRec i 0 + 1 := by
    rw [BitVec.cpopNatRec_succ, bitI, BitVec.cpopNatRec_add]
    rfl
  have atJ : word.cpopNatRec (j + 1) 0 = word.cpopNatRec j 0 + 1 := by
    rw [BitVec.cpopNatRec_succ, bitJ, BitVec.cpopNatRec_add]
    rfl
  have between := @BitVec.cpopNatRec_le_of_pos_le 64 word (i + 1) j 0 below
  have above := @BitVec.cpopNatRec_le_of_pos_le 64 word (j + 1) n 0 inside
  omega

/-- A word of population count one is the power of two at its trailing zeros. -/
theorem toNat_eq_of_popcountll_eq_one (single : popcountll word = 1) :
    word ≠ 0 ∧ word.toNat = 2 ^ word.ctz.toNat := by
  have nonzero : word ≠ 0 := by
    intro zero
    rw [zero] at single
    revert single
    decide
  refine ⟨nonzero, ?_⟩
  have lowest := BitVec.getLsbD_true_ctz_of_ne_zero nonzero
  apply Nat.eq_of_testBit_eq
  intro i
  rw [BitVec.testBit_toNat, Nat.testBit_two_pow]
  rcases Nat.lt_trichotomy i word.ctz.toNat with below | same | above
  · rw [BitVec.getLsbD_false_of_lt_ctz below]
    simp only [ne_of_gt below, decide_false]
  · simp [same, lowest]
  · have differs : ¬ word.ctz.toNat = i := ne_of_lt above
    rw [decide_eq_false differs]
    by_contra bit
    rw [Bool.not_eq_false] at bit
    have inside : i < 64 := BitVec.lt_of_getLsbD bit
    have many := two_le_cpopNatRec above inside lowest bit
    unfold popcountll at single
    rw [BitVec.toNat_cpop] at single
    omega

/-- A number is divisible by every power of two up to its trailing zeros. -/
theorem two_pow_dvd_of_le_ctz {exponent : Nat}
    (low : exponent ≤ word.ctz.toNat) : 2 ^ exponent ∣ word.toNat := by
  apply Nat.dvd_of_mod_eq_zero
  apply Nat.eq_of_testBit_eq
  intro i
  rw [Nat.testBit_mod_two_pow, Nat.zero_testBit, BitVec.testBit_toNat]
  by_cases inside : i < exponent
  · rw [BitVec.getLsbD_false_of_lt_ctz (lt_of_lt_of_le inside low), Bool.and_false]
  · rw [decide_eq_false inside, Bool.false_and]

section
variable {ctzZero : Nat}

/-- What the alignment test establishes: the codes of the box are one block of
`4 ^ j` values that starts at a multiple of its length. -/
theorem block_of_isMortonAligned {box : Aabb} (ordered : box.min ≤ box.max)
    (aligned : isMortonAligned ctzZero box = .ok true) : ∃ j, j ≤ 32 ∧ 4 ^ j ∣ box.min.toNat ∧
      box.max.toNat = box.min.toNat + (4 ^ j - 1) := by
  unfold isMortonAligned at aligned
  rw [assertThat_of (show box.max ≥ box.min from ordered)] at aligned
  simp only [bind, Except.bind, pure, Except.pure, Except.ok.injEq, Bool.and_eq_true,
    decide_eq_true_eq] at aligned
  rcases aligned with ⟨⟨levels, single⟩, even⟩
  rcases toNat_eq_of_popcountll_eq_one single with ⟨nonzero, _⟩
  have alignEq : ctzll ctzZero (box.max - box.min + 1) = (box.max - box.min + 1).ctz.toNat := by
    unfold ctzll
    rw [if_neg nonzero]
  rw [alignEq] at levels even
  have alignBound : (box.max - box.min + 1).ctz.toNat < 64 := by
    have less := BitVec.ctz_lt_iff_ne_zero.mpr nonzero
    rw [BitVec.lt_def] at less
    simpa using less
  have orderedNat : box.min.toNat ≤ box.max.toNat := ordered
  -- The difference does not wrap around, because its successor is not zero.
  have diffNat : (box.max - box.min + 1).toNat = box.max.toNat - box.min.toNat + 1 := by
    have differenceNat : (box.max - box.min).toNat = box.max.toNat - box.min.toNat :=
      BitVec.toNat_sub_of_le ordered
    have noWrap : box.max.toNat - box.min.toNat + 1 ≠ 2 ^ 64 := by
      intro wraps
      apply nonzero
      apply BitVec.eq_of_toNat_eq
      rw [BitVec.toNat_add, differenceNat]
      simp [wraps]
    rw [BitVec.toNat_add, differenceNat]
    apply Nat.mod_eq_of_lt
    change box.max.toNat - box.min.toNat + 1 < 2 ^ 64
    omega
  generalize (box.max - box.min + 1).ctz.toNat = align at *
  refine ⟨align / 2, by omega, ?_, ?_⟩
  · rw [show 4 = 2 ^ 2 by norm_num, ← pow_mul]
    by_cases zero : box.min = 0
    · rw [zero]
      exact Dvd.intro 0 rfl
    · apply two_pow_dvd_of_le_ctz
      rw [if_pos zero] at levels
      unfold ctzll at levels
      rw [if_neg zero] at levels
      omega
  · rw [show 4 = 2 ^ 2 by norm_num, ← pow_mul, show 2 * (align / 2) = align by omega]
    omega

/-- The alignment test does not fail on an ordered box. -/
theorem isMortonAligned_ok {box : Aabb} (ordered : box.min ≤ box.max) :
    ∃ aligned, isMortonAligned ctzZero box = .ok aligned := by
  unfold isMortonAligned
  rw [assertThat_of (show box.max ≥ box.min from ordered)]
  exact ⟨_, rfl⟩

end

theorem isMortonAligned_single (ctzZero : Nat) (code : BitVec 64) :
    isMortonAligned ctzZero ⟨code, code⟩ = .ok true := by
  have one : code - code + 1 = 1#64 := by simp
  have trailing : ctzll ctzZero 1#64 = 0 := by
    unfold ctzll
    rw [if_neg (by decide)]
    decide +kernel
  have count : popcountll 1#64 = 1 := by decide +kernel
  unfold isMortonAligned
  rw [assertThat_of (show code ≥ code from BitVec.le_refl code)]
  simp only [bind, Except.bind, pure, Except.pure, one, trailing, count]
  simp

/-! ## The cut -/

/-- The highest set bit, as the source computes it from the leading zeros. -/
theorem highest_bit_of_clzll (nonzero : word ≠ 0) :
    clzll word < 64 ∧ word.getLsbD (63 - clzll word) = true ∧
      ∀ i, 63 - clzll word < i -> word.getLsbD i = false := by
  have less : clzll word < 64 := by
    have less := BitVec.clz_lt_iff_ne_zero.mpr nonzero
    rw [BitVec.lt_def] at less
    simpa [clzll] using less
  refine ⟨less, BitVec.getLsbD_true_clz_of_ne_zero (by omega) nonzero, ?_⟩
  intro i _
  apply Nat.testBit_lt_two_pow
  calc
    word.toNat < 2 ^ (64 - clzll word) := BitVec.toNat_lt_two_pow_sub_clz
    _ ≤ 2 ^ i := Nat.pow_le_pow_right (by omega) (by omega)

theorem toNat_one_shiftLeft (bound : j < 64) : (1#64 <<< j).toNat = 2 ^ j :=
  (BitVec.toNat_twoPow 64 j).trans (Nat.mod_eq_of_lt (Nat.pow_lt_pow_right (by omega) bound))

theorem toNat_clearLow (word : BitVec 64) (bound : j < 64) :
    (word &&& ~~~((1#64 <<< j) - 1#64)).toNat = word.toNat / 2 ^ j * 2 ^ j := by
  have ones : ((1#64 <<< j) - 1#64).toNat = 2 ^ j - 1 := by
    rw [BitVec.toNat_sub_of_le, toNat_one_shiftLeft bound]
    · rfl
    · rw [BitVec.le_def, toNat_one_shiftLeft bound]
      exact Nat.two_pow_pos j
  apply Nat.eq_of_testBit_eq
  intro i
  rw [BitVec.testBit_toNat, BitVec.getLsbD_and, BitVec.getLsbD_not,
    ← BitVec.testBit_toNat ((1#64 <<< j) - 1#64), ones, ← BitVec.testBit_toNat word,
    Nat.testBit_mul_two_pow, Nat.testBit_div_two_pow]
  by_cases low : i < j
  · simp [low]
  · have high : j ≤ i := by omega
    rw [show i - j + j = i by omega]
    by_cases inside : i < 64
    · simp [high, inside]
    · simp [Nat.testBit_lt_two_pow
        (lt_of_lt_of_le word.isLt (Nat.pow_le_pow_right (by omega) (by omega : 64 ≤ i)))]

/-- The coordinate at which the source cuts when bit `k` of it decides. -/
def cutPart (v : BitVec 32) (k : Nat) : BitVec 32 :=
  ((v.setWidth 64 &&& ~~~((1#64 <<< (k + 1)) - 1#64)) + (1#64 <<< k)).setWidth 32

variable {k q : Nat}

/-- The cut is the start of the upper half of the block of length
`2 ^ (k + 1)` that holds both ends. -/
theorem toNat_cutPart {v1 v2 : BitVec 32} (bound : k < 32)
    (left : v1.toNat / 2 ^ k = 2 * q) (right : v2.toNat / 2 ^ k = 2 * q + 1) :
    (cutPart v1 k).toNat = (2 * q + 1) * 2 ^ k := by
  have block : v1.toNat / 2 ^ (k + 1) = q := by
    rw [pow_succ, ← Nat.div_div_eq_div_mul]
    omega
  have upper : (2 * q + 1) * 2 ^ k < 2 ^ 32 := by
    rw [← right]
    exact lt_of_le_of_lt (Nat.div_mul_le_self _ _) v2.isLt
  have wide : (v1.setWidth 64).toNat = v1.toNat := by
    rw [BitVec.toNat_setWidth]
    exact Nat.mod_eq_of_lt (lt_trans v1.isLt (by norm_num))
  unfold cutPart
  rw [BitVec.toNat_setWidth, BitVec.toNat_add, toNat_clearLow _ (by omega), wide, block,
    toNat_one_shiftLeft (by omega), show q * 2 ^ (k + 1) + 2 ^ k = (2 * q + 1) * 2 ^ k by ring,
    Nat.mod_eq_of_lt (lt_trans upper (by norm_num)), Nat.mod_eq_of_lt upper]

theorem mortonGetNextAddress_even {x1 y1 x2 y2 : BitVec 32} {k : Nat}
    (leading : 65 - clzll (encode x1 y1 ^^^ encode x2 y2) = 2 * (k + 1)) :
    mortonGetNextAddress ⟨encode x1 y1, encode x2 y2⟩ =
      (encode (cutPart x1 k - 1) y2, encode (cutPart x1 k) y1) := by
  have half : 2 * (k + 1) / 2 = k + 1 := by omega
  have parity : 2 * (k + 1) % 2 = 0 := by omega
  unfold mortonGetNextAddress
  simp only [leading, half, parity, (compactBits2_encode x1 y1).1, replace_x]
  rfl

theorem mortonGetNextAddress_odd {x1 y1 x2 y2 : BitVec 32} {k : Nat}
    (leading : 65 - clzll (encode x1 y1 ^^^ encode x2 y2) = 2 * (k + 1) + 1) :
    mortonGetNextAddress ⟨encode x1 y1, encode x2 y2⟩ =
      (encode x2 (cutPart y1 k - 1), encode x1 (cutPart y1 k)) := by
  have half : (2 * (k + 1) + 1) / 2 = k + 1 := by omega
  have parity : (2 * (k + 1) + 1) % 2 = 1 := by omega
  unfold mortonGetNextAddress
  simp only [leading, half, parity, (compactBits2_encode x1 y1).2, replace_y]
  rfl

/-- A box with its corners in order.  This is the only kind of box that the
decomposition ever meets. -/
structure Box where
  x1 : BitVec 32
  y1 : BitVec 32
  x2 : BitVec 32
  y2 : BitVec 32
  xOrdered : x1 ≤ x2
  yOrdered : y1 ≤ y2

namespace Box

/-- The box as the source stores it. -/
def aabb (box : Box) : Aabb := ⟨encode box.x1 box.y1, encode box.x2 box.y2⟩

def Holds (box : Box) (x y : BitVec 32) : Prop :=
  (box.x1 ≤ x ∧ x ≤ box.x2) ∧ (box.y1 ≤ y ∧ y ≤ box.y2)

instance (box : Box) (x y : BitVec 32) : Decidable (box.Holds x y) :=
  inferInstanceAs (Decidable (_ ∧ _))

def Contains (box : Box) (code : BitVec 64) : Prop :=
  ∃ x y, box.Holds x y ∧ encode x y = code

variable (box : Box)

theorem contains_iff_decode (code : BitVec 64) :
    box.Contains code <-> box.Holds (decode code).1 (decode code).2 := by
  constructor
  · rintro ⟨_, _, holds, rfl⟩
    rw [decode_encode]
    exact holds
  · intro holds
    exact ⟨_, _, holds, encode_decode code⟩

theorem aabb_ordered : box.aabb.min ≤ box.aabb.max := by
  change (encode box.x1 box.y1).toNat ≤ (encode box.x2 box.y2).toNat
  rw [toNat_encode, toNat_encode]
  exact interleave_le box.x2.isLt box.y2.isLt box.xOrdered box.yOrdered

theorem Contains.between {box : Box} {code : BitVec 64} (member : box.Contains code) :
    box.aabb.min ≤ code ∧ code ≤ box.aabb.max := by
  rcases member with ⟨x, y, holds, rfl⟩
  have between := InBox.between (n := 32) box.x2.isLt box.y2.isLt holds
  change (encode box.x1 box.y1).toNat ≤ (encode x y).toNat ∧
    (encode x y).toNat ≤ (encode box.x2 box.y2).toNat
  rw [toNat_encode, toNat_encode, toNat_encode]
  exact between

theorem contains_iff_of_aligned {ctzZero : Nat} {box : Box}
    (aligned : isMortonAligned ctzZero box.aabb = .ok true) (code : BitVec 64) :
    box.Contains code <-> box.aabb.min ≤ code ∧ code ≤ box.aabb.max := by
  constructor
  · exact Contains.between
  · intro between
    rcases block_of_isMortonAligned box.aabb_ordered aligned with ⟨j, levels, start, finish⟩
    refine ⟨(decode code).1, (decode code).2, ?_, encode_decode code⟩
    have betweenNat : (encode box.x1 box.y1).toNat ≤ code.toNat ∧
        code.toNat ≤ (encode box.x2 box.y2).toNat := between
    change 4 ^ j ∣ (encode box.x1 box.y1).toNat at start
    change (encode box.x2 box.y2).toNat = (encode box.x1 box.y1).toNat + (4 ^ j - 1) at finish
    rw [← encode_decode code] at betweenNat
    simp only [toNat_encode] at betweenNat start finish
    exact (inBox_iff_of_block levels box.x1.isLt box.y1.isLt box.x2.isLt box.y2.isLt
      (decode code).1.isLt (decode code).2.isLt start finish).mpr betweenNat

/-- Two boxes divide a third one: they share its outer corners, have its
points, and the codes of the first precede the codes of the second. -/
structure Divides (box first second : Box) : Prop where
  least : first.aabb.min = box.aabb.min
  greatest : second.aabb.max = box.aabb.max
  precedes : first.aabb.max < second.aabb.min
  points : forall x y, box.Holds x y <-> first.Holds x y ∨ second.Holds x y

/-- The arithmetic of a cut point inside a range of coordinates. -/
theorem cut_bounds {v1 v2 : BitVec 32} (bound : k < 32)
    (left : v1.toNat / 2 ^ k = 2 * q) (right : v2.toNat / 2 ^ k = 2 * q + 1) :
    v1 ≤ cutPart v1 k - 1 ∧ cutPart v1 k ≤ v2 ∧
      (cutPart v1 k - 1).toNat / 2 ^ k = 2 * q ∧ (cutPart v1 k).toNat / 2 ^ k = 2 * q + 1 ∧
      ∀ v : BitVec 32, (v1 ≤ v ∧ v ≤ v2) <->
        (v1 ≤ v ∧ v ≤ cutPart v1 k - 1) ∨ (cutPart v1 k ≤ v ∧ v ≤ v2) := by
  have cutNat := toNat_cutPart bound left right
  have positive : 0 < 2 ^ k := Nat.two_pow_pos k
  have expanded : (2 * q + 1) * 2 ^ k = 2 * q * 2 ^ k + 2 ^ k := by ring
  have predecessor : (cutPart v1 k - 1).toNat = (cutPart v1 k).toNat - 1 := by
    apply BitVec.toNat_sub_of_le
    rw [BitVec.le_def, cutNat, expanded]
    exact le_trans positive (Nat.le_add_left _ _)
  have first := (Nat.div_eq_iff positive).mp left
  have second := (Nat.div_eq_iff positive).mp right
  simp only [BitVec.le_def, Nat.div_eq_iff positive]
  refine ⟨by omega, by omega, by omega, by omega, fun v => by omega⟩

/-- With an even highest position the first coordinate is cut. -/
theorem divides_even (bound : k < 32)
    (leading : 65 - clzll (box.aabb.min ^^^ box.aabb.max) = 2 * (k + 1))
    (left : box.x1.toNat / 2 ^ k = 2 * q) (right : box.x2.toNat / 2 ^ k = 2 * q + 1)
    (sameY : box.y1.toNat / 2 ^ k = box.y2.toNat / 2 ^ k) :
    ∃ first second : Box, Divides box first second ∧
      mortonGetNextAddress box.aabb = (first.aabb.max, second.aabb.min) := by
  rcases cut_bounds bound left right with ⟨lower, upper, below, above, ranges⟩
  refine ⟨⟨box.x1, box.y1, cutPart box.x1 k - 1, box.y2, lower, box.yOrdered⟩,
    ⟨cutPart box.x1 k, box.y1, box.x2, box.y2, upper, box.yOrdered⟩, ⟨rfl, rfl, ?_, ?_⟩,
    mortonGetNextAddress_even leading⟩
  · change (encode _ box.y2).toNat < (encode _ box.y1).toNat
    rw [toNat_encode, toNat_encode]
    exact interleave_lt_of_first_bit bound below above sameY.symm
  · intro x y
    rw [Holds, ranges x, or_and_right]
    rfl

/-- With an odd highest position the second coordinate is cut. -/
theorem divides_odd (bound : k < 32)
    (leading : 65 - clzll (box.aabb.min ^^^ box.aabb.max) = 2 * (k + 1) + 1)
    (left : box.y1.toNat / 2 ^ k = 2 * q) (right : box.y2.toNat / 2 ^ k = 2 * q + 1)
    (sameX : box.x1.toNat / 2 ^ (k + 1) = box.x2.toNat / 2 ^ (k + 1)) :
    ∃ first second : Box, Divides box first second ∧
      mortonGetNextAddress box.aabb = (first.aabb.max, second.aabb.min) := by
  rcases cut_bounds bound left right with ⟨lower, upper, below, above, ranges⟩
  refine ⟨⟨box.x1, box.y1, box.x2, cutPart box.y1 k - 1, box.xOrdered, lower⟩,
    ⟨box.x1, cutPart box.y1 k, box.x2, box.y2, box.xOrdered, upper⟩, ⟨rfl, rfl, ?_, ?_⟩,
    mortonGetNextAddress_odd leading⟩
  · change (encode box.x2 _).toNat < (encode box.x1 _).toNat
    rw [toNat_encode, toNat_encode]
    exact interleave_lt_of_second_bit bound below above sameX.symm
  · intro x y
    rw [Holds, ranges y, and_or_left]
    rfl

/-- `MortonGetNextAddress` divides every box of more than one code: it returns
the greatest code of the first part and the least code of the second. -/
theorem mortonGetNextAddress_divides (several : box.aabb.min ≠ box.aabb.max) :
    ∃ first second : Box, Divides box first second ∧
      mortonGetNextAddress box.aabb = (first.aabb.max, second.aabb.min) := by
  have nonzero : box.aabb.min ^^^ box.aabb.max ≠ 0 := by
    intro zero
    exact several (BitVec.xor_eq_zero_iff.mp zero)
  rcases highest_bit_of_clzll nonzero with ⟨_, top, above⟩
  have evenBit (i : Nat) : (box.aabb.min ^^^ box.aabb.max).getLsbD (2 * i) =
      (box.x1.toNat.testBit i ^^ box.x2.toNat.testBit i) := by
    rw [BitVec.getLsbD_xor, aabb, getLsbD_encode_even, getLsbD_encode_even]
    rfl
  have oddBit (i : Nat) : (box.aabb.min ^^^ box.aabb.max).getLsbD (2 * i + 1) =
      (box.y1.toNat.testBit i ^^ box.y2.toNat.testBit i) := by
    rw [BitVec.getLsbD_xor, aabb, getLsbD_encode_odd, getLsbD_encode_odd]
    rfl
  have sameX (i : Nat) (higher : 63 - clzll (box.aabb.min ^^^ box.aabb.max) < 2 * i) :
      box.x1.toNat.testBit i = box.x2.toNat.testBit i := by
    have clear := above (2 * i) higher
    rwa [evenBit, bne_eq_false_iff_eq] at clear
  have sameY (i : Nat) (higher : 63 - clzll (box.aabb.min ^^^ box.aabb.max) < 2 * i + 1) :
      box.y1.toNat.testBit i = box.y2.toNat.testBit i := by
    have clear := above (2 * i + 1) higher
    rwa [oddBit, bne_eq_false_iff_eq] at clear
  rcases Nat.even_or_odd' (63 - clzll (box.aabb.min ^^^ box.aabb.max)) with
    ⟨k, position | position⟩
  · rw [position, evenBit, bne_iff_ne] at top
    rw [position] at sameX sameY
    rcases halves_of_highest_bit box.xOrdered (fun i higher => sameX i (by omega)) top with
      ⟨q, left, right⟩
    exact divides_even box (by omega) (by omega) left right
      (div_two_pow_eq_of_testBit (fun i higher => sameY i (by omega)))
  · rw [position, oddBit, bne_iff_ne] at top
    rw [position] at sameX sameY
    rcases halves_of_highest_bit box.yOrdered (fun i higher => sameY i (by omega)) top with
      ⟨q, left, right⟩
    exact divides_odd box (by omega) (by omega) left right
      (div_two_pow_eq_of_testBit (fun i higher => sameX i (by omega)))

end Box

end Zorder
end Doux
