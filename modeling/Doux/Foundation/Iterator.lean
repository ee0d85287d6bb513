import Doux.Foundation.Cursor
import Doux.Foundation.SortedBy

namespace Doux
namespace Foundation

open List

/-!
# Iterators and the cursors they implement

An iterator is an object that is used through its calls only.  It implements a cursor
when its states stand for places of the cursor: a state shows the item at its place, and
every call that the cursor allows succeeds and leads to a state for the new place.  Since
only the existence of such a correspondence is asked for, iterators that are built from
other iterators need to know nothing of the states of these.

Places can be positions in a list, which may repeat keys, or the items themselves.  For
a list in strict key order both give the same cursor.
-/

/-- What an iterator shows in a state, the error it has met, and its calls. -/
structure Iterator (σ K V : Type) where
  current : σ -> Option (K × V)
  status : σ -> Option String
  call : σ -> CursorCall K -> Except String σ

namespace Iterator

variable {σ K V π ρ : Type}

def run (iterator : Iterator σ K V) (start : σ) (calls : List (CursorCall K)) :
    Except String σ :=
  calls.foldlM iterator.call start

/-- A correspondence between the states of an iterator and the places of a cursor. -/
structure Follows (iterator : Iterator σ K V) (move : π -> CursorCall K -> Except Unit π)
    (shown : π -> Option (K × V)) (At : σ -> π -> Prop) : Prop where
  current : forall state place, At state place -> iterator.current state = shown place
  status : forall state place, At state place -> iterator.status state = none
  call : forall state place call next, At state place -> move place call = .ok next ->
    ∃ after, iterator.call state call = .ok after ∧ At after next

/-- The state stands for the place in some correspondence. -/
def Behaves (iterator : Iterator σ K V) (move : π -> CursorCall K -> Except Unit π)
    (shown : π -> Option (K × V)) (state : σ) (place : π) : Prop :=
  ∃ At, iterator.Follows move shown At ∧ At state place

section
variable {iterator : Iterator σ K V} {move : π -> CursorCall K -> Except Unit π}
  {shown : π -> Option (K × V)} {state : σ} {place : π}

section
variable (behaves : iterator.Behaves move shown state place)
include behaves

theorem Behaves.current : iterator.current state = shown place := by
  rcases behaves with ⟨_, follows, here⟩
  exact follows.current state place here

theorem Behaves.status : iterator.status state = none := by
  rcases behaves with ⟨_, follows, here⟩
  exact follows.status state place here

theorem Behaves.call {call : CursorCall K} {next : π} (moves : move place call = .ok next) :
    ∃ after, iterator.call state call = .ok after ∧ iterator.Behaves move shown after next := by
  rcases behaves with ⟨At, follows, here⟩
  rcases follows.call state place call next here moves with ⟨after, called, there⟩
  exact ⟨after, called, At, follows, there⟩

/-- An iterator that implements a cursor implements every cursor that this one simulates. -/
theorem Behaves.transfer {moveTo : ρ -> CursorCall K -> Except Unit ρ}
    {shownAt : ρ -> Option (K × V)} (Related : π -> ρ -> Prop)
    (same : ∀ place target, Related place target -> shown place = shownAt target)
    (moves : ∀ place target call next, Related place target ->
      moveTo target call = .ok next -> ∃ after, move place call = .ok after ∧
        Related after next) {target : ρ} (related : Related place target) :
    iterator.Behaves moveTo shownAt state target := by
  refine ⟨fun state target => ∃ place, iterator.Behaves move shown state place ∧
    Related place target, ⟨?_, ?_, ?_⟩, place, behaves, related⟩
  · rintro state target ⟨place, behaves, related⟩
    exact behaves.current.trans (same place target related)
  · rintro state target ⟨place, behaves, related⟩
    exact behaves.status
  · rintro _ target call next ⟨place, behaves, related⟩ moved
    rcases moves place target call next related moved with ⟨after, movesTo, still⟩
    rcases behaves.call movesTo with ⟨final, called, there⟩
    exact ⟨final, called, after, there, still⟩

end

/-- If the iterator also refuses every call that the cursor does not allow, a sequence of
calls gives on both sides the same item, or fails on both sides. -/
theorem Follows.run_current {At : σ -> π -> Prop} (follows : iterator.Follows move shown At)
    (refuses : ∀ state place call, At state place -> move place call = .error () ->
      ∃ text, iterator.call state call = .error text)
    (here : At state place) (calls : List (CursorCall K)) :
    ((iterator.run state calls).map iterator.current).toOption =
      ((calls.foldlM move place).map shown).toOption := by
  have visits : ∀ state place call, At state place ->
      (∃ next after, iterator.call state call = .ok next ∧ move place call = .ok after ∧
        At next after) ∨
      (∃ text reason, iterator.call state call = .error text ∧
        move place call = .error reason) := by
    intro state place call here
    cases moved : move place call with
    | ok next =>
      rcases follows.call state place call next here moved with ⟨after, called, there⟩
      exact Or.inl ⟨after, next, called, rfl, there⟩
    | error reason =>
      rcases refuses state place call here moved with ⟨text, refused⟩
      exact Or.inr ⟨text, reason, refused, rfl⟩
  rcases foldlM_simulation At visits calls here with
    ⟨finish, last, ran, moved, there⟩ | ⟨text, reason, refused, failed⟩
  · simp [run, ran, moved, Except.map, Except.toOption, follows.current finish last there]
  · simp [run, refused, failed, Except.map, Except.toOption]

end

end Iterator

namespace Position

variable {K V : Type}

/-- The position of the item after the first `count` ones, if there is one. -/
def after (items : List (K × V)) (count : Nat) : Option Nat :=
  if count < items.length then some count else none

/-- The position of the last one of the first `count` items. -/
def before : Nat -> Option Nat
  | 0 => none
  | count + 1 => some count

/-- One call of a cursor that stands at a position. -/
def move [LinearOrder K] (items : List (K × V)) :
    Option Nat -> CursorCall K -> Except Unit (Option Nat)
  | _, .seekToFirst => .ok (after items 0)
  | _, .seekToLast => .ok (before items.length)
  | _, .seek target => .ok (items.findIdx? (fun item => target ≤ item.1))
  | none, .next => .error ()
  | some index, .next => .ok (after items (index + 1))
  | none, .prev => .error ()
  | some index, .prev => .ok (before index)

def shown (items : List (K × V)) (place : Option Nat) : Option (K × V) :=
  place.bind (fun index => items[index]?)

/-- A sequence of calls on a cursor that starts at no item. -/
def run [LinearOrder K] (items : List (K × V)) (calls : List (CursorCall K)) :
    Except Unit (Option Nat) :=
  calls.foldlM (move items) none

variable (items : List (K × V))

theorem shown_after (count : Nat) : shown items (after items count) = items[count]? := by
  unfold after
  split
  · rfl
  · exact (getElem?_eq_none (by omega)).symm

theorem shown_before_length : shown items (before items.length) = items.getLast? := by
  cases items with
  | nil => rfl
  | cons head tail => simp [shown, before, getLast?_eq_getElem?]

theorem shown_findIdx (p : K × V -> Bool) : shown items (items.findIdx? p) = items.find? p := by
  induction items with
  | nil => rfl
  | cons head tail ih =>
    cases here : p head with
    | true => simp [findIdx?_cons, here, shown]
    | false =>
      rw [findIdx?_cons, here, find?_cons_of_neg (by simp [here]), <- ih]
      cases tail.findIdx? p with
      | none => rfl
      | some index => simp [shown]

end Position

namespace Iterator

variable {σ K V : Type} [LinearOrder K]

/-- The iterator is a correct cursor over a list and stands at a position of it. -/
def Shows (iterator : Iterator σ K V) (items : List (K × V)) : σ -> Option Nat -> Prop :=
  iterator.Behaves (Position.move items) (Position.shown items)

/-- The iterator is a correct cursor over a list, wherever it stands. -/
def IsCursor (iterator : Iterator σ K V) (items : List (K × V)) (state : σ) : Prop :=
  ∃ place : Option Nat, (∀ index ∈ place, index < items.length) ∧ iterator.Shows items state place

/-- The iterator is a correct cursor over a list and stands at an item of it. -/
def ShowsItem (iterator : Iterator σ K V) (items : List (K × V)) : σ -> Option (K × V) -> Prop :=
  iterator.Behaves (Cursor.move Prod.fst items) (fun item => item)

end Iterator

namespace Iterator

variable {K V : Type} [LinearOrder K]

/-- The list itself with a position of it, as an iterator. -/
def overList : Iterator (List (K × V) × Option Nat) K V where
  current state := Position.shown state.1 state.2
  status _ := none
  call state call :=
    match Position.move state.1 state.2 call with
    | .ok next => .ok (state.1, next)
    | .error () => .error "Valid()"

theorem overList_shows (items : List (K × V)) (place : Option Nat) :
    overList.Shows items (items, place) place := by
  refine ⟨fun state place => state = (items, place), ⟨?_, ?_, ?_⟩, rfl⟩
  · rintro _ place rfl
    rfl
  · rintro _ place rfl
    rfl
  · rintro _ _ _ next rfl moves
    refine ⟨(items, next), ?_, rfl⟩
    simp [overList, moves]

theorem overList_isCursor (items : List (K × V)) : overList.IsCursor items (items, none) :=
  ⟨none, nofun, overList_shows items none⟩

end Iterator

section
variable {α K : Type} [LinearOrder K] {key : α -> K} {items : List α}
  (sorted : SortedBy key items) {item : α}
include sorted

/-- In key order, the first item is the least one. -/
theorem SortedBy.head?_eq_some :
    items.head? = some item <-> item ∈ items ∧ ∀ other ∈ items, key item ≤ key other := by
  cases items with
  | nil => simp
  | cons head rest =>
    rcases pairwise_cons.mp sorted with ⟨above, _⟩
    rw [head?_cons, Option.some_inj]
    constructor
    · rintro rfl
      exact ⟨mem_cons_self, forall_mem_cons.mpr
        ⟨le_refl _, fun other later => le_of_lt (above other later)⟩⟩
    · rintro ⟨member, least⟩
      refine (mem_cons.mp member).elim Eq.symm fun later => ?_
      exact absurd (least head mem_cons_self) (not_le.mpr (above item later))

variable {p : α -> Bool}

/-- In key order, the first item with a property is the least one. -/
theorem SortedBy.find?_eq_some : items.find? p = some item <->
    item ∈ items ∧ p item = true ∧ ∀ other ∈ items, p other = true -> key item ≤ key other := by
  rw [<- head?_filter, (sorted.filter p).head?_eq_some]
  simp [mem_filter, and_assoc, and_imp]

/-- In key order, the last item with a property is the greatest one. -/
theorem SortedBy.getLast?_filter_eq_some : (items.filter p).getLast? = some item <->
    item ∈ items ∧ p item = true ∧ ∀ other ∈ items, p other = true -> key other ≤ key item := by
  have reversed : SortedBy (fun item => OrderDual.toDual (key item)) (items.filter p).reverse :=
    pairwise_reverse.mpr (sorted.filter p)
  rw [getLast?_eq_head?_reverse, reversed.head?_eq_some]
  simp [mem_filter, and_assoc, and_imp, OrderDual.toDual_le_toDual]

variable {index : Nat} (here : items[index]? = some item)
include here

theorem SortedBy.split_at : items = items.take index ++ item :: items.drop (index + 1) ∧
      (∀ other ∈ items.take index, key other < key item) ∧
      ∀ other ∈ items.drop (index + 1), key item < key other := by
  rcases List.getElem?_eq_some_iff.mp here with ⟨_, rfl⟩
  have split : items = items.take index ++ items[index] :: items.drop (index + 1) := by
    rw [getElem_cons_drop, take_append_drop]
  have ordered : SortedBy key (items.take index ++ items[index] :: items.drop (index + 1)) :=
    split ▸ sorted
  rcases pairwise_append.mp ordered with ⟨_, later, across⟩
  exact ⟨split, fun other member => across other member _ mem_cons_self,
    fun other member => rel_of_pairwise_cons later member⟩

theorem SortedBy.find?_above :
    items.find? (fun other => key item < key other) = items[index + 1]? := by
  rcases sorted.split_at here with ⟨split, below, above⟩
  have skipped : ∀ other ∈ items.take index ++ [item], ¬ decide (key item < key other) = true := by
    intro other member
    rcases mem_append.mp member with early | here
    · simpa using le_of_lt (below other early)
    · simp [mem_singleton.mp here]
  have rest : items = (items.take index ++ [item]) ++ items.drop (index + 1) := by
    rw [append_assoc]
    exact split
  calc items.find? (fun other => key item < key other)
      = (items.drop (index + 1)).find? (fun other => key item < key other) := by
        conv_lhs => rw [rest]
        exact find?_append_of_none skipped _
    _ = (items.drop (index + 1)).head? := by
        cases tail : items.drop (index + 1) with
        | nil => rfl
        | cons next _ =>
          exact find?_cons_of_pos (decide_eq_true (above next (by simp [tail])))
    _ = items[index + 1]? := head?_drop

theorem SortedBy.filter_below :
    items.filter (fun other => key other < key item) = items.take index := by
  rcases sorted.split_at here with ⟨split, below, above⟩
  conv_lhs => rw [split]
  rw [filter_append, filter_cons_of_neg (by simp),
    filter_eq_self.mpr (fun other member => decide_eq_true (below other member)),
    filter_eq_nil_iff.mpr (fun other member => by simpa using le_of_lt (above other member)),
    append_nil]

end

namespace Iterator

variable {σ K V : Type} [LinearOrder K] {iterator : Iterator σ K V} {items : List (K × V)}

theorem shown_before {index : Nat} {item : K × V} (sorted : SortedBy Prod.fst items)
    (here : items[index]? = some item) : Position.shown items (Position.before index) =
      (items.filter (fun other => other.1 < item.1)).getLast? := by
  rw [sorted.filter_below here]
  cases index with
  | zero => rfl
  | succ index =>
    have inside := (List.getElem?_eq_some_iff.mp here).1
    rw [getLast?_take]
    simp only [Position.shown, Position.before, Option.bind_some, Nat.add_sub_cancel]
    rw [getElem?_eq_getElem (by omega)]
    rfl

section
variable {place next : Option Nat} {call : CursorCall K}
  (moves : Position.move items place call = .ok next)
  (inside : ∀ index ∈ place, index < items.length)
include moves inside

/-- Moving from a position to a position is moving from item to item. -/
theorem move_shown (sorted : SortedBy Prod.fst items) :
    Cursor.move Prod.fst items (Position.shown items place) call =
      .ok (Position.shown items next) := by
  cases call with
  | seekToFirst =>
    cases moves
    simp [Cursor.move, Position.shown_after, head?_eq_getElem?]
  | seekToLast =>
    cases moves
    simp [Cursor.move, Position.shown_before_length]
  | seek target =>
    cases moves
    simp [Cursor.move, Position.shown_findIdx]
  | next =>
    cases place with
    | none => cases moves
    | some index =>
      cases moves
      have here := getElem?_eq_getElem (inside index rfl)
      simp only [Position.shown_after, <- sorted.find?_above here]
      simp [Position.shown, Option.bind_some, here, Cursor.move]
  | prev =>
    cases place with
    | none => cases moves
    | some index =>
      cases moves
      have here := getElem?_eq_getElem (inside index rfl)
      simp only [shown_before sorted here]
      simp [Position.shown, Option.bind_some, here, Cursor.move]

theorem move_inside : ∀ index ∈ next, index < items.length := by
  have after (count : Nat) : ∀ index ∈ Position.after items count, index < items.length := by
    unfold Position.after
    split
    · rintro index ⟨⟩
      assumption
    · exact nofun
  have before {count : Nat} (bounded : count ≤ items.length) :
      ∀ index ∈ Position.before count, index < items.length := by
    cases count with
    | zero => exact nofun
    | succ count =>
      rintro index ⟨⟩
      exact bounded
  cases call with
  | seekToFirst =>
    cases moves
    exact after 0
  | seekToLast =>
    cases moves
    exact before (le_refl _)
  | seek target =>
    cases moves
    intro index found
    exact (findIdx?_eq_some_iff_findIdx_eq.mp found).1
  | next =>
    cases place with
    | none => cases moves
    | some index =>
      cases moves
      exact after (index + 1)
  | prev =>
    cases place with
    | none => cases moves
    | some index =>
      cases moves
      exact before (le_of_lt (inside index rfl))

end

/-- A cursor that moves from position to position moves from item to item. -/
theorem Shows.showsItem {state : σ} {place : Option Nat} (shows : iterator.Shows items state place)
    (sorted : SortedBy Prod.fst items) (inside : ∀ index ∈ place, index < items.length) :
    iterator.ShowsItem items state (Position.shown items place) := by
  refine Behaves.transfer shows (fun place item => item = Position.shown items place ∧
    ∀ index ∈ place, index < items.length) ?_ ?_ ⟨rfl, inside⟩
  · rintro place item ⟨rfl, _⟩
    rfl
  · rintro place _ call _ ⟨rfl, inside⟩ moved
    cases moves : Position.move items place call with
    | ok after =>
      refine ⟨after, rfl, ?_, move_inside moves inside⟩
      exact Except.ok.inj (moved.symm.trans (move_shown moves inside sorted))
    | error reason =>
      cases place with
      | none => cases call <;> cases moves <;> cases moved
      | some index => cases call <;> cases moves

end Iterator

end Foundation
end Doux
