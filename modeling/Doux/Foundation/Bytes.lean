import Mathlib.Tactic
import Mathlib.Data.List.Lex

namespace Doux
namespace Foundation

/-!
# Byte strings

Byte strings are lists of unsigned bytes, ordered lexicographically.  A number
of fixed width is written with its least significant byte first, and reading
such a field recovers the number modulo the range of the field.
-/

abbrev Bytes := List UInt8

instance linearOrderByte : LinearOrder UInt8 where
  le_refl := UInt8.le_refl
  le_trans _ _ _ := UInt8.le_trans
  lt_iff_le_not_ge _ _ := by
    rw [UInt8.lt_iff_toNat_lt, UInt8.le_iff_toNat_le, UInt8.le_iff_toNat_le]
    omega
  le_antisymm _ _ := UInt8.le_antisymm
  le_total := UInt8.le_total
  toDecidableLE := inferInstance
  toDecidableLT := inferInstance
  toDecidableEq := inferInstance

/-- The low `n` bytes of a number, least significant first. -/
def littleEndian : Nat -> Nat -> Bytes
  | 0, _ => []
  | n + 1, value => UInt8.ofNat value :: littleEndian n (value / 256)

/-- The number that a byte string denotes, least significant byte first. -/
def ofLittleEndian : Bytes -> Nat
  | [] => 0
  | byte :: bytes => byte.toNat + 256 * ofLittleEndian bytes

@[simp]
theorem length_littleEndian (n value : Nat) : (littleEndian n value).length = n := by
  induction n generalizing value with
  | zero => rfl
  | succ n ih => rw [littleEndian, List.length_cons, ih]

theorem ofLittleEndian_littleEndian (n value : Nat) :
    ofLittleEndian (littleEndian n value) = value % 256 ^ n := by
  induction n generalizing value with
  | zero => simp [littleEndian, ofLittleEndian, Nat.mod_one]
  | succ n ih =>
    have low : (UInt8.ofNat value).toNat = value % 256 := UInt8.toNat_ofNat'
    rw [littleEndian, ofLittleEndian, ih, low, pow_succ', Nat.mod_mul]

theorem ofLittleEndian_lt (bytes : Bytes) : ofLittleEndian bytes < 256 ^ bytes.length := by
  induction bytes with
  | nil => exact Nat.one_pos
  | cons byte bytes ih =>
    have small := byte.toNat_lt
    rw [ofLittleEndian, List.length_cons]
    omega

/-- A field of the right width is written back as it was read. -/
theorem littleEndian_ofLittleEndian (bytes : Bytes) :
    littleEndian bytes.length (ofLittleEndian bytes) = bytes := by
  induction bytes with
  | nil => rfl
  | cons byte bytes ih =>
    have small : byte.toNat < 256 := byte.toNat_lt
    have rest : (byte.toNat + 256 * ofLittleEndian bytes) / 256 = ofLittleEndian bytes := by omega
    have head : UInt8.ofNat (byte.toNat + 256 * ofLittleEndian bytes) = byte := by
      apply UInt8.toNat_inj.mp
      rw [UInt8.toNat_ofNat']
      omega
    rw [ofLittleEndian, List.length_cons, littleEndian, rest, head, ih]

end Foundation
end Doux
