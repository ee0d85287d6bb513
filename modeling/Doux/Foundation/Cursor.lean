import Doux.Foundation.Control

namespace Doux
namespace Foundation

open List

/-!
# A cursor over an ordered map

An ordered map is a list of items sorted by key.  A cursor is at one of the items,
or at none.  Every move is given by the key it starts from and not by a position, so
a move means the same for any way of storing the items.
-/

inductive CursorCall (K : Type) where
  | seekToFirst
  | seekToLast
  | seek (target : K)
  | next
  | prev

namespace Cursor

variable {K α : Type} [LinearOrder K] (key : α -> K)

/-- One call.  `next` and `prev` need a cursor that is at an item. -/
def move (items : List α) : Option α -> CursorCall K -> Except Unit (Option α)
  | _, .seekToFirst => .ok items.head?
  | _, .seekToLast => .ok items.getLast?
  | _, .seek target => .ok (items.find? (fun item => target ≤ key item))
  | none, .next => .error ()
  | some current, .next => .ok (items.find? (fun item => key current < key item))
  | none, .prev => .error ()
  | some current, .prev => .ok (items.filter (fun item => key item < key current)).getLast?

/-- A sequence of calls on a cursor that starts at no item. -/
def run (items : List α) (calls : List (CursorCall K)) : Except Unit (Option α) :=
  calls.foldlM (move key items) none

end Cursor

section
variable {α : Type} {p : α -> Bool}

/-- Items before the first one that counts do not matter. -/
theorem find?_append_of_none {before : List α} (none : ∀ item ∈ before, ¬ p item = true)
    (rest : List α) : (before ++ rest).find? p = rest.find? p := by
  rw [find?_append, find?_eq_none.mpr none, Option.none_or]

theorem findIdx?_congr {q : α -> Bool} {list : List α} (agree : ∀ item ∈ list, p item = q item) :
    list.findIdx? p = list.findIdx? q := by
  induction list with
  | nil => rfl
  | cons head tail ih =>
    rw [findIdx?_cons, findIdx?_cons, agree head mem_cons_self,
      ih fun item member => agree item (mem_cons_of_mem _ member)]

theorem getLast?_filter_eq_some {before after : List α} {item : α} (counts : p item = true)
    (none : ∀ other ∈ after, ¬ p other = true) :
    ((before ++ item :: after).filter p).getLast? = some item := by
  rw [filter_append, filter_cons_of_pos counts, filter_eq_nil_iff.mpr none, getLast?_append]
  rfl

theorem getLast?_filter_eq_none {list : List α} (none : ∀ item ∈ list, ¬ p item = true) :
    (list.filter p).getLast? = Option.none := by
  rw [filter_eq_nil_iff.mpr none]
  rfl

end

end Foundation
end Doux
