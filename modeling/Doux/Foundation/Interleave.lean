import Mathlib.Tactic

namespace Doux
namespace Foundation

/-!
# Interleaving two binary numbers

`interleave n x y` places the low `n` bits of `x` on the even positions and
the low `n` bits of `y` on the odd positions of one number.  The recursion
consumes one bit of each argument, so quotients and remainders by powers of
two pass through it.  Those two laws give the order facts that a space-filling
curve needs: the map is monotone in each coordinate, injective and onto, and a
quadrant of side `2 ^ j` is one block of `4 ^ j` consecutive values.
-/

/-- The low `n` bits of `x` and `y`, alternating, with `x` on even positions. -/
def interleave : Nat -> Nat -> Nat -> Nat
  | 0, _, _ => 0
  | n + 1, x, y => x % 2 + 2 * (y % 2) + 4 * interleave n (x / 2) (y / 2)

/-- The even-position bits of a number, as many as `n`. -/
def evenBits : Nat -> Nat -> Nat
  | 0, _ => 0
  | n + 1, c => c % 2 + 2 * evenBits n (c / 4)

variable (n x y : Nat)

theorem interleave_succ_mod : interleave (n + 1) x y % 2 = x % 2 := by
  rw [interleave]; omega

theorem interleave_succ_half_mod : interleave (n + 1) x y / 2 % 2 = y % 2 := by
  rw [interleave]; omega

theorem interleave_succ_div : interleave (n + 1) x y / 2 / 2 = interleave n (x / 2) (y / 2) := by
  rw [interleave]; omega

theorem interleave_lt : interleave n x y < 4 ^ n := by
  induction n generalizing x y with
  | zero => simp [interleave]
  | succ n ih =>
    have tail := ih (x / 2) (y / 2)
    rw [interleave]
    omega

/-- Interleaving separates at any bit: the low `j` bits fill one block of
`4 ^ j` and the remaining bits choose the block. -/
theorem interleave_add (j n x y : Nat) : interleave (j + n) x y =
      interleave j x y + 4 ^ j * interleave n (x / 2 ^ j) (y / 2 ^ j) := by
  induction j generalizing x y with
  | zero => simp [interleave]
  | succ j ih =>
    have shift : j + 1 + n = (j + n) + 1 := by omega
    rw [shift, interleave, interleave, ih, Nat.div_div_eq_div_mul, Nat.div_div_eq_div_mul]
    ring_nf

/-- Only the low `n` bits of the arguments are read. -/
theorem interleave_mod : interleave n (x % 2 ^ n) (y % 2 ^ n) = interleave n x y := by
  induction n generalizing x y with
  | zero => rfl
  | succ n ih =>
    have halfMod : ∀ v : Nat, v % 2 ^ (n + 1) / 2 = v / 2 % 2 ^ n := by
      intro v
      rw [pow_succ', Nat.mod_mul_right_div_self]
    have lowMod : ∀ v : Nat, v % 2 ^ (n + 1) % 2 = v % 2 := by
      intro v
      exact Nat.mod_mod_of_dvd v (dvd_pow_self 2 (Nat.succ_ne_zero n))
    rw [interleave, interleave, halfMod, halfMod, lowMod, lowMod, ih]

/-- The block chosen by the high bits of the coordinates. -/
theorem interleave_div (j n x y : Nat) :
    interleave (j + n) x y / 4 ^ j = interleave n (x / 2 ^ j) (y / 2 ^ j) := by
  rw [interleave_add, Nat.add_mul_div_left _ _ (by positivity),
    Nat.div_eq_of_lt (interleave_lt j x y), zero_add]

/-- The offset inside a block depends on the low bits of the coordinates. -/
theorem interleave_mod_four_pow (j n x y : Nat) :
    interleave (j + n) x y % 4 ^ j = interleave j x y := by
  rw [interleave_add, Nat.add_mul_mod_self_left, Nat.mod_eq_of_lt (interleave_lt j x y)]

theorem evenBits_interleave : evenBits n (interleave n x y) = x % 2 ^ n ∧
    evenBits n (interleave n x y / 2) = y % 2 ^ n := by
  induction n generalizing x y with
  | zero => simp [evenBits, Nat.mod_one]
  | succ n ih =>
    have quarter (v : Nat) : v / 4 = v / 2 / 2 := (Nat.div_div_eq_div_mul v 2 2).symm
    rw [evenBits, evenBits, interleave_succ_mod, interleave_succ_half_mod, quarter, quarter,
      interleave_succ_div, (ih _ _).1, (ih _ _).2, pow_succ', Nat.mod_mul, Nat.mod_mul]
    exact ⟨rfl, rfl⟩

variable {n x y x' y' : Nat}

theorem interleave_inj (hx : x < 2 ^ n) (hy : y < 2 ^ n) (hx' : x' < 2 ^ n) (hy' : y' < 2 ^ n)
    (same : interleave n x y = interleave n x' y') : x = x' ∧ y = y' := by
  constructor
  · have bits := congrArg (evenBits n) same
    simp only [evenBits_interleave] at bits
    rwa [Nat.mod_eq_of_lt hx, Nat.mod_eq_of_lt hx'] at bits
  · have bits := congrArg (fun c => evenBits n (c / 2)) same
    simp only [evenBits_interleave] at bits
    rwa [Nat.mod_eq_of_lt hy, Nat.mod_eq_of_lt hy'] at bits

/-- Monotone in both coordinates at once. -/
theorem interleave_le (hx' : x' < 2 ^ n) (hy' : y' < 2 ^ n)
    (lex : x ≤ x') (ley : y ≤ y') : interleave n x y ≤ interleave n x' y' := by
  induction n generalizing x y x' y' with
  | zero => simp [interleave]
  | succ n ih =>
    have tail : interleave n (x / 2) (y / 2) ≤ interleave n (x' / 2) (y' / 2) :=
      ih (by omega) (by omega) (by omega) (by omega)
    rw [interleave, interleave]
    -- Either the halves grow, which moves the value by a whole block of
    -- four, or they agree and the low bits decide.
    by_cases sameHalf : x / 2 = x' / 2 ∧ y / 2 = y' / 2
    · omega
    · have strict : interleave n (x / 2) (y / 2) ≠ interleave n (x' / 2) (y' / 2) := by
        intro same
        exact sameHalf (interleave_inj (by omega) (by omega) (by omega) (by omega) same)
      omega

theorem interleave_zero (n : Nat) : interleave n 0 0 = 0 := by
  induction n with
  | zero => rfl
  | succ n ih => simp [interleave, ih]

theorem ones_succ (n : Nat) : (2 ^ (n + 1) - 1) % 2 = 1 ∧ (2 ^ (n + 1) - 1) / 2 = 2 ^ n - 1 := by
  have positive : 0 < 2 ^ n := by positivity
  rw [pow_succ]
  omega

theorem interleave_ones (n : Nat) : interleave n (2 ^ n - 1) (2 ^ n - 1) = 4 ^ n - 1 := by
  induction n with
  | zero => rfl
  | succ n ih =>
    have positive : 0 < 4 ^ n := by positivity
    rw [interleave, (ones_succ n).1, (ones_succ n).2, ih]
    omega

theorem testBit_interleave (n x y i : Nat) :
    (interleave n x y).testBit (2 * i) = (decide (i < n) && x.testBit i) ∧
      (interleave n x y).testBit (2 * i + 1) = (decide (i < n) && y.testBit i) := by
  induction n generalizing x y i with
  | zero => simp [interleave]
  | succ n ih =>
    cases i with
    | zero =>
      simp only [mul_zero, Nat.testBit_succ, Nat.testBit_zero, interleave_succ_mod,
        interleave_succ_half_mod]
      simp
    | succ i =>
      have rest := ih (x / 2) (y / 2) i
      simp only [Nat.testBit_succ] at rest
      simp only [mul_add, mul_one, Nat.testBit_succ, interleave_succ_div, rest]
      simp

/-- The coordinate pairs of an axis-parallel box. -/
def InBox (x1 x2 y1 y2 x y : Nat) : Prop :=
  (x1 ≤ x ∧ x ≤ x2) ∧ (y1 ≤ y ∧ y ≤ y2)

instance (x1 x2 y1 y2 x y : Nat) : Decidable (InBox x1 x2 y1 y2 x y) :=
  inferInstanceAs (Decidable (_ ∧ _))

/-- All points of a box lie between its corners on the curve. -/
theorem InBox.between {x1 x2 y1 y2 : Nat} (hx2 : x2 < 2 ^ n) (hy2 : y2 < 2 ^ n)
    (inside : InBox x1 x2 y1 y2 x y) : interleave n x1 y1 ≤ interleave n x y ∧
      interleave n x y ≤ interleave n x2 y2 :=
  ⟨interleave_le (lt_of_le_of_lt inside.1.2 hx2) (lt_of_le_of_lt inside.2.2 hy2)
      inside.1.1 inside.2.1,
    interleave_le hx2 hy2 inside.1.2 inside.2.2⟩

/-- The blocks of two points decide their order. -/
theorem interleave_lt_of_block {j m : Nat} (inside : j ≤ m)
    (less : interleave (m - j) (x / 2 ^ j) (y / 2 ^ j) <
      interleave (m - j) (x' / 2 ^ j) (y' / 2 ^ j)) : interleave m x y < interleave m x' y' := by
  rw [<- interleave_div, <- interleave_div, Nat.add_sub_cancel' inside] at less
  exact Nat.lt_of_div_lt_div less

/-- Two points whose coordinates agree from bit `j` on, except that the
first coordinate of the left one has bit `j` clear and of the right one set. -/
theorem interleave_lt_of_first_bit {j m q : Nat} (inside : j < m)
    (left : x / 2 ^ j = 2 * q) (right : x' / 2 ^ j = 2 * q + 1) (sameY : y / 2 ^ j = y' / 2 ^ j) :
    interleave m x y < interleave m x' y' := by
  apply interleave_lt_of_block (le_of_lt inside)
  rw [left, right, sameY, show m - j = m - j - 1 + 1 by omega, interleave, interleave,
    show (2 * q + 1) / 2 = 2 * q / 2 by omega]
  omega

/-- The same comparison when the deciding bit belongs to the second
coordinate; the first coordinates then agree only above bit `j`. -/
theorem interleave_lt_of_second_bit {j m q : Nat} (inside : j < m)
    (left : y / 2 ^ j = 2 * q) (right : y' / 2 ^ j = 2 * q + 1)
    (sameX : x / 2 ^ (j + 1) = x' / 2 ^ (j + 1)) : interleave m x y < interleave m x' y' := by
  rw [pow_succ, <- Nat.div_div_eq_div_mul, <- Nat.div_div_eq_div_mul] at sameX
  apply interleave_lt_of_block (le_of_lt inside)
  rw [left, right, show m - j = m - j - 1 + 1 by omega, interleave, interleave, sameX,
    show (2 * q + 1) / 2 = 2 * q / 2 by omega]
  omega

/-- A box whose corners are the first and the last value of an aligned block
is the whole block: its points are exactly the values between the corners. -/
theorem inBox_iff_of_block {j m x1 x2 y1 y2 : Nat} (level : j ≤ m)
    (hx1 : x1 < 2 ^ m) (hy1 : y1 < 2 ^ m) (hx2 : x2 < 2 ^ m) (hy2 : y2 < 2 ^ m)
    (hx : x < 2 ^ m) (hy : y < 2 ^ m) (start : 4 ^ j ∣ interleave m x1 y1)
    (finish : interleave m x2 y2 = interleave m x1 y1 + (4 ^ j - 1)) : InBox x1 x2 y1 y2 x y <->
      interleave m x1 y1 ≤ interleave m x y ∧ interleave m x y ≤ interleave m x2 y2 := by
  rcases Nat.exists_eq_add_of_le level with ⟨n, rfl⟩
  have blockPositive : 0 < 4 ^ j := by positivity
  have sidePositive : 0 < 2 ^ j := by positivity
  have quotientLt : ∀ v, v < 2 ^ (j + n) -> v / 2 ^ j < 2 ^ n := by
    intro _ bound
    rw [pow_add] at bound
    exact Nat.div_lt_of_lt_mul bound
  -- The corners lie in one block, so their high bits agree.
  have sameBlock : interleave (j + n) x2 y2 / 4 ^ j = interleave (j + n) x1 y1 / 4 ^ j := by
    rcases start with ⟨block, equal⟩
    rw [finish, equal, Nat.mul_add_div blockPositive,
      Nat.mul_div_cancel_left _ blockPositive, Nat.div_eq_of_lt (by omega), add_zero]
  rw [interleave_div, interleave_div] at sameBlock
  rcases interleave_inj (quotientLt x2 hx2) (quotientLt y2 hy2)
    (quotientLt x1 hx1) (quotientLt y1 hy1) sameBlock with ⟨highX, highY⟩
  -- The first corner is all zeros below bit `j`, the last corner all ones.
  have lowStart : interleave j (x1 % 2 ^ j) (y1 % 2 ^ j) = interleave j 0 0 := by
    rw [interleave_mod, interleave_zero, ← interleave_mod_four_pow j n]
    exact Nat.mod_eq_zero_of_dvd start
  rcases interleave_inj (Nat.mod_lt _ sidePositive)
    (Nat.mod_lt _ sidePositive) sidePositive sidePositive lowStart with ⟨_, _⟩
  have lowFinish : interleave j (x2 % 2 ^ j) (y2 % 2 ^ j) =
      interleave j (2 ^ j - 1) (2 ^ j - 1) := by
    rw [interleave_mod, interleave_ones, ← interleave_mod_four_pow j n, finish]
    rcases start with ⟨_, equal⟩
    rw [equal, Nat.mul_add_mod, Nat.mod_eq_of_lt (by omega)]
  rcases interleave_inj (Nat.mod_lt _ sidePositive)
    (Nat.mod_lt _ sidePositive) (by omega) (by omega) lowFinish with ⟨_, _⟩
  constructor
  · intro inside
    exact inside.between hx2 hy2
  · intro between
    have blockOf : interleave (j + n) x y / 4 ^ j = interleave (j + n) x1 y1 / 4 ^ j := by
      apply le_antisymm
      · have upper := Nat.div_le_div_right (c := 4 ^ j) between.2
        rwa [interleave_div j n x2 y2, highX, highY, ← interleave_div] at upper
      · exact Nat.div_le_div_right between.1
    rw [interleave_div, interleave_div] at blockOf
    rcases interleave_inj (quotientLt x hx) (quotientLt y hy)
      (quotientLt x1 hx1) (quotientLt y1 hy1) blockOf with ⟨blockX, blockY⟩
    have partX1 := Nat.div_add_mod x1 (2 ^ j)
    have partX2 := Nat.div_add_mod x2 (2 ^ j)
    have partX := Nat.div_add_mod x (2 ^ j)
    have partY1 := Nat.div_add_mod y1 (2 ^ j)
    have partY2 := Nat.div_add_mod y2 (2 ^ j)
    have partY := Nat.div_add_mod y (2 ^ j)
    rw [highX] at partX2
    rw [highY] at partY2
    rw [blockX] at partX
    rw [blockY] at partY
    exact ⟨⟨by omega, by omega⟩, ⟨by omega, by omega⟩⟩

/-! ## The highest differing bit -/

theorem div_two_pow_eq_of_testBit {a b k : Nat}
    (above : ∀ i, k ≤ i -> a.testBit i = b.testBit i) : a / 2 ^ k = b / 2 ^ k := by
  apply Nat.eq_of_testBit_eq
  intro i
  rw [Nat.testBit_div_two_pow, Nat.testBit_div_two_pow]
  exact above (i + k) (by omega)

/-- Two ordered numbers that agree above bit `k` and differ at bit `k` lie in
the two halves of one block of length `2 ^ (k + 1)`. -/
theorem halves_of_highest_bit {a b k : Nat} (ordered : a ≤ b)
    (above : ∀ i, k < i -> a.testBit i = b.testBit i) (differs : a.testBit k ≠ b.testBit k) :
    ∃ q, a / 2 ^ k = 2 * q ∧ b / 2 ^ k = 2 * q + 1 := by
  have block : a / 2 ^ k / 2 = b / 2 ^ k / 2 := by
    rw [Nat.div_div_eq_div_mul, Nat.div_div_eq_div_mul]
    exact div_two_pow_eq_of_testBit (fun i higher => above i higher)
  have quotients : a / 2 ^ k ≤ b / 2 ^ k := Nat.div_le_div_right ordered
  rw [Nat.testBit_eq_decide_div_mod_eq, Nat.testBit_eq_decide_div_mod_eq] at differs
  have parity : ¬ (a / 2 ^ k % 2 = 1 <-> b / 2 ^ k % 2 = 1) := by
    intro same
    exact differs (decide_eq_decide.mpr same)
  exact ⟨a / 2 ^ k / 2, by omega, by omega⟩

end Foundation
end Doux
