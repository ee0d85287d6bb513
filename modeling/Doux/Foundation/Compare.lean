import Mathlib.Tactic
import Mathlib.Data.Prod.Lex

namespace Doux
namespace Foundation

/-!
# Three-way comparisons

A comparison function returns a number whose sign is the order of its arguments.  One that
looks at the parts of a key in turn decides the lexicographic order of the parts.
-/

/-- The sign of a number is the order of two values. -/
structure Compares {α : Type} [LinearOrder α] (r : Int) (a b : α) : Prop where
  lt : r < 0 <-> a < b
  eq : r = 0 <-> a = b

namespace Compares

variable {α β : Type} [LinearOrder α] [LinearOrder β] {r s : Int} {a b : α} {c d : β}

theorem of_lt_first (a b : α) : Compares (if a < b then -1 else if b < a then 1 else 0) a b := by
  rcases lt_trichotomy a b with less | same | greater
  · constructor <;> simp [less, ne_of_lt less]
  · constructor <;> simp [same]
  · constructor <;> simp [greater, lt_asymm greater, (ne_of_lt greater).symm]

theorem of_gt_first (a b : α) : Compares (if b < a then 1 else if a < b then -1 else 0) a b := by
  rcases lt_trichotomy a b with less | same | greater
  · constructor <;> simp [less, lt_asymm less, ne_of_lt less]
  · constructor <;> simp [same]
  · constructor <;> simp [greater, le_of_lt greater, (ne_of_lt greater).symm]

theorem gt (compares : Compares r a b) : 0 < r <-> b < a := by
  rw [<- not_le, le_iff_lt_or_eq, compares.lt, compares.eq, <- le_iff_lt_or_eq, not_le]

/-- The second comparison decides where the first one finds no difference. -/
theorem lex (compares : Compares r a b) (further : Compares s c d) :
    Compares (if r = 0 then s else r) (toLex (a, c)) (toLex (b, d)) := by
  have equal := compares.eq
  constructor
  · rw [Prod.Lex.toLex_lt_toLex]
    split
    · next same => simp [equal.mp same, further.lt]
    · next differs => simp [compares.lt, mt equal.mpr differs]
  · rw [toLex_inj, Prod.mk.injEq]
    split
    · next same => simp [equal.mp same, further.eq]
    · next differs => simp [differs, mt equal.mpr differs]

end Compares

end Foundation
end Doux
