import Mathlib.Tactic

namespace Doux
namespace Foundation

open List

/-!
# Searching lists

A list is split by a test when the items that satisfy it come first.  Halving an
interval then finds the first item that does not satisfy the test.

A search through several lists stops at the first list in which it finds something.
-/

variable {α : Type}

/-- Halve the interval between `left` and `right`.  The items before `left` satisfy the
test, those from `right` on do not. -/
def lowerBoundLoop (below : α -> Bool) (list : List α) : Nat -> Nat -> Nat -> Nat
  | 0, _, right => right
  | fuel + 1, left, right =>
    if left < right then
      let mid := (left + right) / 2
      if list[mid]?.any below then lowerBoundLoop below list fuel (mid + 1) right
      else lowerBoundLoop below list fuel left mid
    else right

/-- The number of items at the front that satisfy the test. -/
def lowerBound (below : α -> Bool) (list : List α) : Nat :=
  lowerBoundLoop below list list.length 0 list.length

section
variable {below : α -> Bool} {list : List α}

/-- In any interval the search stops at the first item that does not satisfy the test, or
at the end of the interval that is closer to it. -/
theorem lowerBoundLoop_eq {first fuel left right : Nat}
    (cut : ∀ mid < right, list[mid]?.any below = true <-> mid < first)
    (enough : right ≤ left + fuel) (ordered : left ≤ right) :
    lowerBoundLoop below list fuel left right = max left (min right first) := by
  induction fuel generalizing left right with
  | zero =>
    rw [lowerBoundLoop]
    omega
  | succ fuel ih =>
    unfold lowerBoundLoop
    by_cases open_ : left < right
    · have test := cut ((left + right) / 2) (by omega)
      rw [if_pos open_]
      dsimp only
      split
      · next isBelow =>
          have less := test.mp isBelow
          rw [ih cut (by omega) (by omega)]
          omega
      · next notBelow =>
          have above := mt test.mpr notBelow
          rw [ih (fun mid inside => cut mid (by omega)) (by omega) (by omega)]
          omega
    · rw [if_neg open_]
      omega

variable (split : list.Pairwise (fun first second => below second = true -> below first = true))
include split

/-- The items that satisfy the test are those before the first one that does not. -/
theorem below_iff_lt_findIdx {place : Nat} {item : α} (here : list[place]? = some item) :
    below item = true <-> place < list.findIdx (fun item => !below item) := by
  rcases List.getElem?_eq_some_iff.mp here with ⟨inside, rfl⟩
  refine ⟨fun isBelow => ?_, fun before => by simpa using not_of_lt_findIdx before⟩
  by_contra after
  have notBelow := findIdx_getElem (p := fun item => !below item)
    (w := lt_of_le_of_lt (not_lt.mp after) inside)
  refine absurd ?_ (Bool.eq_false_iff.mp (Bool.not_eq_eq_eq_not.mp notBelow))
  rcases Nat.eq_or_lt_of_le (not_lt.mp after) with same | later
  · simpa only [same] using isBelow
  · exact pairwise_iff_getElem.mp split _ _ _ inside later isBelow

/-- The search stops at the first item that does not satisfy the test.  Only what the test says
of the items of the list matters. -/
theorem lowerBound_eq_findIdx {test : α -> Bool} (same : ∀ item ∈ list, test item = below item) :
    lowerBound test list = list.findIdx (fun item => !below item) := by
  have cut : ∀ mid < list.length, list[mid]?.any test = true <->
      mid < list.findIdx (fun item => !below item) := by
    intro mid inside
    have here := getElem?_eq_getElem inside
    rw [here, Option.any_some, same _ (getElem_mem inside), below_iff_lt_findIdx split here]
  have bound : list.findIdx (fun item => !below item) ≤ list.length := findIdx_le_length
  rw [lowerBound, lowerBoundLoop_eq cut (Nat.le_add_left _ _) (Nat.zero_le _), Nat.zero_max,
    min_eq_right bound]

/-- The search splits the list into the items that satisfy the test and the others. -/
theorem split_lowerBound {test : α -> Bool} (same : ∀ item ∈ list, test item = below item) :
    list.take (lowerBound test list) = list.takeWhile below ∧
      list.drop (lowerBound test list) = list.dropWhile below := by
  rw [lowerBound_eq_findIdx split same]
  exact ⟨takeWhile_eq_take_findIdx_not.symm, dropWhile_eq_drop_findIdx_not.symm⟩

theorem getElem?_lowerBound :
    list[lowerBound below list]? = list.find? (fun item => !below item) := by
  rw [find?_eq_getElem?_findIdx, lowerBound_eq_findIdx split fun _ _ => rfl]

end

theorem findSome_flatMap {β γ : Type} (search : β -> Option γ) (items : α -> List β)
    (list : List α) : (list.flatMap items).findSome? search =
      list.findSome? (fun item => (items item).findSome? search) := by
  induction list with
  | nil => rfl
  | cons item list ih =>
    rw [flatMap_cons, findSome?_append, ih, findSome?_cons]
    cases (items item).findSome? search <;> rfl

/-- A search through lists finds something in the first list that passes a test, if it
finds nothing in the lists that fail it. -/
theorem findSome_eq_bind_find {β : Type} {search : α -> Option β} {passed : α -> Bool}
    {list : List α} (nothing : ∀ item ∈ list, passed item = true -> search item = none)
    (something : ∀ item ∈ list, passed item = false -> (search item).isSome) :
    list.findSome? search = (list.find? (fun item => !passed item)).bind search := by
  induction list with
  | nil => rfl
  | cons item list ih =>
    rcases forall_mem_cons.mp nothing with ⟨here, later⟩
    rcases forall_mem_cons.mp something with ⟨found, others⟩
    cases passes : passed item with
    | true => simp [here passes, passes, ih later others]
    | false =>
      rcases Option.isSome_iff_exists.mp (found passes) with ⟨_, isResult⟩
      simp [isResult, passes]

end Foundation
end Doux
