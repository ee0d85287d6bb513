import Doux.Foundation.Iterator

namespace Doux
namespace Table

open Foundation

/-!
# The iterator wrapper

`IteratorWrapper` owns an iterator and keeps copies of `Valid()` and `key()`, which it
renews after every call.  Values are not copied.  A wrapper without an iterator is
invalid, and calls on it fail their assertion.
-/

/-- `key` is empty until an iterator has first been valid. -/
structure IteratorWrapper (σ K : Type) where
  iter : Option σ
  valid : Bool
  key : Option K

namespace IteratorWrapper

variable {σ K V π : Type}

def new : IteratorWrapper σ K := ⟨none, false, none⟩

section
variable (iterator : Iterator σ K V)

/-- `Update`; a stale key stays when the iterator is not valid. -/
def update (wrapper : IteratorWrapper σ K) (state : σ) : IteratorWrapper σ K :=
  match iterator.current state with
  | none => { wrapper with iter := some state, valid := false }
  | some item => ⟨some state, true, some item.1⟩

def set (wrapper : IteratorWrapper σ K) : Option σ -> IteratorWrapper σ K
  | none => { wrapper with iter := none, valid := false }
  | some state => wrapper.update iterator state

/-- `Next`, `Prev`, `Seek`, `SeekToFirst` and `SeekToLast`. -/
def call (wrapper : IteratorWrapper σ K) (call : CursorCall K) :
    Except String (IteratorWrapper σ K) :=
  match wrapper.iter with
  | none => .error "iter_"
  | some state => do
    let state <- iterator.call state call
    return wrapper.update iterator state

def getKey (wrapper : IteratorWrapper σ K) : Except String K :=
  match wrapper.valid, wrapper.key with
  | true, some key => .ok key
  | _, _ => .error "Valid()"

/-- The copied key with the value of the iterator, when the wrapper is valid. -/
def current (wrapper : IteratorWrapper σ K) : Option (K × V) :=
  if wrapper.valid = true then
    wrapper.key.bind (fun key =>
      (wrapper.iter.bind iterator.current).map (fun item => (key, item.2)))
  else none

end

/-- The wrapper's iterator implements a cursor and is at a place of it, and the copies are
those of this place. -/
structure Wraps (iterator : Iterator σ K V) (move : π -> CursorCall K -> Except Unit π)
    (shown : π -> Option (K × V)) (wrapper : IteratorWrapper σ K) (place : π) : Prop where
  behaves : ∃ state ∈ wrapper.iter, iterator.Behaves move shown state place
  valid : wrapper.valid = (shown place).isSome
  key : ∀ item ∈ shown place, wrapper.key = some item.1

section
variable {iterator : Iterator σ K V} {move : π -> CursorCall K -> Except Unit π}
  {shown : π -> Option (K × V)} {wrapper : IteratorWrapper σ K} {place : π}

theorem wraps_update {state : σ} (behaves : iterator.Behaves move shown state place) :
    Wraps iterator move shown (wrapper.update iterator state) place := by
  have current := behaves.current
  cases here : shown place with
  | none =>
    simp only [update, current, here]
    exact ⟨⟨state, rfl, behaves⟩, by simp [here], by simp [here]⟩
  | some item =>
    simp only [update, current, here]
    exact ⟨⟨state, rfl, behaves⟩, by simp [here], by simp [here]⟩

variable (wraps : Wraps iterator move shown wrapper place)
include wraps

theorem Wraps.call {call : CursorCall K} {next : π} (moves : move place call = .ok next) :
    ∃ after, wrapper.call iterator call = .ok after ∧ Wraps iterator move shown after next := by
  rcases wraps.behaves with ⟨_, isIter, behaves⟩
  rcases behaves.call moves with ⟨after, called, there⟩
  refine ⟨wrapper.update iterator after, ?_, wraps_update there⟩
  simp only [IteratorWrapper.call, Option.mem_def.mp isIter, called]
  rfl

theorem Wraps.current : wrapper.current iterator = shown place := by
  rcases wraps.behaves with ⟨_, isIter, behaves⟩
  cases here : shown place with
  | none => simp [IteratorWrapper.current, wraps.valid, here]
  | some item =>
    simp [IteratorWrapper.current, wraps.valid, here, wraps.key item here, Option.mem_def.mp isIter,
      behaves.current]

theorem Wraps.status : wrapper.iter.bind iterator.status = none := by
  rcases wraps.behaves with ⟨_, isIter, behaves⟩
  simp [Option.mem_def.mp isIter, behaves.status]

theorem Wraps.getKey {item : K × V} (here : shown place = some item) :
    wrapper.getKey = .ok item.1 := by
  simp [IteratorWrapper.getKey, wraps.valid, here, wraps.key item here]

end

end IteratorWrapper

end Table
end Doux
