import Doux.Foundation.Merge
import Doux.Table.IteratorWrapper

namespace Doux
namespace Table

open Foundation List

/-!
# The merging iterator

`MergingIterator` in `table/merger.cc` shows the items of several children in one order.
Moving forward, all children but the current one stand at their first item above the
current key; moving in reverse, at their last item below it.  A change of direction seeks
these children again.

The current child is given by its index among the children, and the children may be any
iterators with a common type of states.
-/

/-- Which direction is the iterator moving? -/
inductive Direction where
  | forward
  | reverse
deriving DecidableEq

structure MergingIterator (σ K : Type) where
  children : List (IteratorWrapper σ K)
  current : Option Nat
  direction : Direction

namespace MergingIterator

variable {σ K V : Type} [LinearOrder K]

section
variable (iterator : Iterator σ K V)

def new (children : List σ) : MergingIterator σ K :=
  ⟨children.map (fun child => IteratorWrapper.new.set iterator (some child)), none, .forward⟩

/-- The loop of `FindSmallest` and `FindLargest` over the children with their indices: keep
a valid child whose key is better than that of the child kept so far. -/
def select (better : K -> K -> Bool) : List (IteratorWrapper σ K × Nat) ->
    Option (IteratorWrapper σ K × Nat) -> Except String (Option (IteratorWrapper σ K × Nat))
  | [], best => .ok best
  | child :: children, best =>
    if child.1.valid = true then
      match best with
      | none => select better children (some child)
      | some chosen => do
        let childKey <- child.1.getKey
        let chosenKey <- chosen.1.getKey
        select better children (some (if better childKey chosenKey then child else chosen))
    else select better children best

def findSmallest (merging : MergingIterator σ K) : Except String (MergingIterator σ K) := do
  let smallest <- select (fun a b => decide (a < b)) merging.children.zipIdx none
  return { merging with current := smallest.map Prod.snd }

/-- `FindLargest` goes through the children from the last to the first. -/
def findLargest (merging : MergingIterator σ K) : Except String (MergingIterator σ K) := do
  let largest <- select (fun a b => decide (a > b)) merging.children.zipIdx.reverse none
  return { merging with current := largest.map Prod.snd }

/-- One call on every child. -/
def callAll (merging : MergingIterator σ K) (call : CursorCall K) :
    Except String (MergingIterator σ K) := do
  let children <- merging.children.zipIdx.mapM (fun child => child.1.call iterator call)
  return { merging with children := children }

def seekToFirst (merging : MergingIterator σ K) : Except String (MergingIterator σ K) := do
  let merging <- merging.callAll iterator .seekToFirst
  let merging <- merging.findSmallest
  return { merging with direction := .forward }

def seekToLast (merging : MergingIterator σ K) : Except String (MergingIterator σ K) := do
  let merging <- merging.callAll iterator .seekToLast
  let merging <- merging.findLargest
  return { merging with direction := .reverse }

def seek (merging : MergingIterator σ K) (target : K) : Except String (MergingIterator σ K) := do
  let merging <- merging.callAll iterator (.seek target)
  let merging <- merging.findSmallest
  return { merging with direction := .forward }

/-- Position a child that is not the current one after the current key. -/
def stepAfter (key : K) (child : IteratorWrapper σ K) : Except String (IteratorWrapper σ K) := do
  let child <- child.call iterator (.seek key)
  if child.valid = true then
    let childKey <- child.getKey
    if key = childKey then child.call iterator .next else return child
  else return child

/-- Position a child that is not the current one before the current key. -/
def stepBefore (key : K) (child : IteratorWrapper σ K) : Except String (IteratorWrapper σ K) := do
  let child <- child.call iterator (.seek key)
  if child.valid = true then child.call iterator .prev
  else child.call iterator .seekToLast

/-- The change of direction in `Next` and `Prev`. -/
def turn (merging : MergingIterator σ K) (current : Nat) (direction : Direction)
    (step : K -> IteratorWrapper σ K -> Except String (IteratorWrapper σ K)) :
    Except String (MergingIterator σ K) :=
  if merging.direction = direction then .ok merging
  else
    match merging.children[current]? with
    | none => .error "Valid()"
    | some currentChild => do
      let key <- currentChild.getKey
      let children <- merging.children.zipIdx.mapM
        (fun child => if child.2 = current then .ok child.1 else step key child.1)
      return { merging with children := children, direction := direction }

def callCurrent (merging : MergingIterator σ K) (current : Nat) (call : CursorCall K) :
    Except String (MergingIterator σ K) :=
  match merging.children[current]? with
  | none => .error "Valid()"
  | some child => do
    let child <- child.call iterator call
    return { merging with children := merging.children.set current child }

def next (merging : MergingIterator σ K) : Except String (MergingIterator σ K) :=
  match merging.current with
  | none => .error "Valid()"
  | some current => do
    let merging <- merging.turn current .forward (stepAfter iterator)
    let merging <- merging.callCurrent iterator current .next
    merging.findSmallest

def prev (merging : MergingIterator σ K) : Except String (MergingIterator σ K) :=
  match merging.current with
  | none => .error "Valid()"
  | some current => do
    let merging <- merging.turn current .reverse (stepBefore iterator)
    let merging <- merging.callCurrent iterator current .prev
    merging.findLargest

/-- The merging iterator as an iterator.  `status()` is that of the first child with an
error. -/
def toIterator : Iterator (MergingIterator σ K) K V where
  current merging := merging.current.bind (fun current =>
    merging.children[current]?.bind (fun child => child.current iterator))
  status merging := merging.children.findSome? (fun child => child.iter.bind iterator.status)
  call merging
    | .seekToFirst => merging.seekToFirst iterator
    | .seekToLast => merging.seekToLast iterator
    | .seek target => merging.seek iterator target
    | .next => merging.next iterator
    | .prev => merging.prev iterator

end

/-- Nothing is chosen when there are no candidates, and otherwise a candidate than which
no candidate is better. -/
structure IsBest (better : K -> K -> Bool) (candidates : List (IteratorWrapper σ K × Nat))
    (chosen : Option (IteratorWrapper σ K × Nat)) : Prop where
  empty : chosen = none -> candidates = []
  member : ∀ child ∈ chosen, child ∈ candidates
  best : ∀ child ∈ chosen, ∀ other ∈ candidates, forall childKey otherKey,
    child.1.getKey = .ok childKey -> other.1.getKey = .ok otherKey ->
      better otherKey childKey = false

section
variable {better : K -> K -> Bool} {winner loser : IteratorWrapper σ K × Nat}
  {candidates : List (IteratorWrapper σ K × Nat)} {chosen : Option (IteratorWrapper σ K × Nat)}

omit [LinearOrder K]

theorem IsBest.perm {others : List (IteratorWrapper σ K × Nat)}
    (best : IsBest better candidates chosen) (perm : candidates.Perm others) :
    IsBest better others chosen where
  empty none := perm_nil.mp (best.empty none ▸ perm.symm)
  member child isChosen := perm.mem_iff.mp (best.member child isChosen)
  best child isChosen other member := best.best child isChosen other (perm.mem_iff.mpr member)

/-- A candidate can be added if another one is at least as good. -/
theorem IsBest.cons (best : IsBest better (winner :: candidates) chosen) {winnerKey loserKey : K}
    (trans : ∀ a b c, better a b = false -> better b c = false -> better a c = false)
    (isWinner : winner.1.getKey = .ok winnerKey) (isLoser : loser.1.getKey = .ok loserKey)
    (worse : better loserKey winnerKey = false) :
    IsBest better (loser :: winner :: candidates) chosen := by
  refine ⟨fun none => ?_, fun child isChosen => ?_, ?_⟩
  · cases best.empty none
  · exact mem_cons_of_mem loser (best.member child isChosen)
  · intro child isChosen other member _ _ isChild isOther
    rcases mem_cons.mp member with rfl | later
    · cases isLoser.symm.trans isOther
      exact trans _ _ _ worse (best.best child isChosen winner mem_cons_self _ _ isChild isWinner)
    · exact best.best child isChosen other later _ _ isChild isOther

end

omit [LinearOrder K] in
theorem select_isBest {better : K -> K -> Bool}
    (trans : ∀ a b c, better a b = false -> better b c = false -> better a c = false)
    (asymm : ∀ a b, better a b = true -> better b a = false)
    (children : List (IteratorWrapper σ K × Nat)) (best : Option (IteratorWrapper σ K × Nat))
    (keys : ∀ child ∈ children, child.1.valid = true -> ∃ key, child.1.getKey = .ok key)
    (bestKey : ∀ child ∈ best, ∃ key, child.1.getKey = .ok key) :
    ∃ chosen, select better children best = .ok chosen ∧
      IsBest better (best.toList ++ children.filter (fun child => child.1.valid)) chosen := by
  induction children generalizing best with
  | nil =>
    refine ⟨best, rfl, fun none => by simp [none], fun child isBest => by simp_all, ?_⟩
    intro child isBest _ isOther childKey _ isChild otherIs
    simp only [filter_nil, append_nil, Option.mem_toList] at isOther
    cases Option.mem_unique isBest isOther
    cases isChild.symm.trans otherIs
    cases same : better childKey childKey with
    | false => rfl
    | true => exact same.symm.trans (asymm _ _ same)
  | cons head tail ih =>
    have later := fun best => ih best (fun child member => keys child (mem_cons_of_mem head member))
    by_cases valid : head.1.valid = true
    · rcases keys head mem_cons_self valid with ⟨headKey, isHead⟩
      have headBest : ∀ child ∈ some head, ∃ key, child.1.getKey = .ok key := by
        rintro _ ⟨⟩
        exact ⟨headKey, isHead⟩
      simp only [filter_cons, valid]
      cases best with
      | none =>
        rcases later (some head) headBest with ⟨chosen, selected, isBest⟩
        refine ⟨chosen, ?_, isBest⟩
        simp [select, valid, selected]
      | some kept =>
        rcases bestKey kept rfl with ⟨keptKey, isKept⟩
        have step : select better (head :: tail) (some kept) =
            select better tail (some (if better headKey keptKey then head else kept)) := by
          simp only [select, valid, isHead, isKept]
          rfl
        rw [step]
        by_cases wins : better headKey keptKey = true
        · rw [if_pos wins]
          rcases later (some head) headBest with ⟨chosen, selected, isBest⟩
          exact ⟨chosen, selected, isBest.cons trans isHead isKept (asymm _ _ wins)⟩
        · rw [if_neg wins]
          rcases later (some kept) bestKey with ⟨chosen, selected, isBest⟩
          have loses : better headKey keptKey = false := by simpa using wins
          exact ⟨chosen, selected, (isBest.cons trans isKept isHead loses).perm (Perm.swap _ _ _)⟩
    · simp only [filter_cons, valid]
      rcases later best bestKey with ⟨chosen, selected, isBest⟩
      refine ⟨chosen, ?_, isBest⟩
      simp [select, if_neg valid, selected]

/-! ## Both directions at once -/

/-- `a` is passed before `b`. -/
def ahead : Direction -> K -> K -> Bool
  | .forward, a, b => decide (a < b)
  | .reverse, a, b => decide (a > b)

theorem ahead_trans (direction : Direction) (a b c : K) (first : ahead direction a b = false)
    (second : ahead direction b c = false) : ahead direction a c = false := by
  cases direction <;> simp only [ahead, decide_eq_false_iff_not, not_lt] at first second ⊢
  · exact le_trans second first
  · exact le_trans first second

theorem ahead_asymm (direction : Direction) (a b : K) (first : ahead direction a b = true) :
    ahead direction b a = false := by
  cases direction <;>
    exact decide_eq_false (lt_asymm (of_decide_eq_true first))

theorem ahead_of_ne (direction : Direction) {a b : K} (different : a ≠ b)
    (notAhead : ahead direction b a = false) : ahead direction a b = true := by
  cases direction <;>
    simp only [ahead, decide_eq_false_iff_not, not_lt, decide_eq_true_eq] at notAhead ⊢
  · exact lt_of_le_of_ne notAhead different
  · exact lt_of_le_of_ne notAhead (Ne.symm different)

/-- The item with a property that is passed first. -/
def edge (direction : Direction) (p : K -> Bool) (items : List (K × V)) : Option (K × V) :=
  match direction with
  | .forward => items.find? (fun item => p item.1)
  | .reverse => (items.filter (fun item => p item.1)).getLast?

variable {direction : Direction} {items : List (K × V)}

theorem edge_eq_some {p : K -> Bool} (sorted : SortedBy Prod.fst items) {item : K × V} :
    edge direction p items = some item <-> item ∈ items ∧ p item.1 = true ∧
      ∀ other ∈ items, p other.1 = true -> ahead direction other.1 item.1 = false := by
  cases direction with
  | forward => simp [edge, sorted.find?_eq_some, ahead, decide_eq_false_iff_not, not_lt]
  | reverse =>
    simp only [edge, sorted.getLast?_filter_eq_some, ahead, decide_eq_false_iff_not, not_lt]

omit [LinearOrder K] in
theorem edge_eq_none {p : K -> Bool} :
    edge direction p items = none <-> ∀ item ∈ items, p item.1 = false := by
  cases direction with
  | forward => simp [edge]
  | reverse => simp [edge]

omit [LinearOrder K] in
theorem edge_congr {p q : K -> Bool} (agree : ∀ item ∈ items, p item.1 = q item.1) :
    edge direction p items = edge direction q items := by
  have filtered := filter_congr agree
  cases direction with
  | forward =>
    simp only [edge, <- head?_filter]
    rw [filtered]
  | reverse =>
    simp only [edge]
    rw [filtered]

/-- `FindSmallest` or `FindLargest`. -/
def find (direction : Direction) (merging : MergingIterator σ K) :
    Except String (MergingIterator σ K) :=
  match direction with
  | .forward => merging.findSmallest
  | .reverse => merging.findLargest

theorem find_isBest (direction : Direction) {merging : MergingIterator σ K}
    (keys : ∀ child ∈ merging.children.zipIdx, child.1.valid = true ->
      ∃ key, child.1.getKey = .ok key) :
    ∃ chosen, find direction merging = .ok { merging with current := chosen.map Prod.snd } ∧
      IsBest (ahead direction) (merging.children.zipIdx.filter (fun child => child.1.valid))
        chosen := by
  cases direction with
  | forward =>
    rcases select_isBest (ahead_trans .forward) (ahead_asymm .forward) merging.children.zipIdx
      none keys nofun with ⟨chosen, selected, best⟩
    exact ⟨chosen, bind_eq_ok.mpr ⟨chosen, selected, rfl⟩, best⟩
  | reverse =>
    rcases select_isBest (ahead_trans .reverse) (ahead_asymm .reverse)
      merging.children.zipIdx.reverse none
      (fun child member => keys child (mem_reverse.mp member)) nofun with
      ⟨chosen, selected, best⟩
    exact ⟨chosen, bind_eq_ok.mpr ⟨chosen, selected, rfl⟩, best.perm ((reverse_perm _).filter _)⟩

section
variable (iterator : Iterator σ K V) (lists : List (List (K × V)))

/-- A child is a cursor over its list and stands at an item. -/
def ChildAt (items : List (K × V)) (child : IteratorWrapper σ K) (place : Option (K × V)) : Prop :=
  IteratorWrapper.Wraps iterator (Cursor.move Prod.fst items) (fun item => item) child place

/-- All children stand at the item of their list that is the first one with a property. -/
def AllAt (direction : Direction) (p : K -> Bool) (children : List (IteratorWrapper σ K)) : Prop :=
  Aligned (fun _ items child => ChildAt iterator items child (edge direction p items))
    lists children

/-- The current child stands at the item, the others at their first item after it. -/
def Around (direction : Direction) (current : Nat) (item : K × V)
    (children : List (IteratorWrapper σ K)) : Prop :=
  Aligned (fun index items child => ChildAt iterator items child
    (if index = current then some item else edge direction (ahead direction item.1) items))
    lists children

/-- What the state of a merging iterator has to do with the item that it shows. -/
def At (merging : MergingIterator σ K) : Option (K × V) -> Prop
  | none => merging.current = none ∧
      Aligned (fun _ items child => ∃ place, ChildAt iterator items child place) lists
        merging.children
  | some item => ∃ current, merging.current = some current ∧
      (∃ items ∈ lists[current]?, item ∈ items) ∧
      Around iterator lists merging.direction current item merging.children

end

/-- Lists in strict key order without a common key. -/
structure Mergeable (lists : List (List (K × V))) : Prop where
  sorted : ∀ items ∈ lists, SortedBy Prod.fst items
  distinct : (lists.flatten.map Prod.fst).Nodup

section
variable {iterator : Iterator σ K V} {lists : List (List (K × V))}

namespace Mergeable

theorem sortedBy_mergeAll (mergeable : Mergeable lists) :
    SortedBy Prod.fst (mergeAll Prod.fst lists) :=
  mergeAll_pairwise_lt (fun items member => (mergeable.sorted items member).imp le_of_lt)
    mergeable.distinct

theorem sorted_at (mergeable : Mergeable lists) {index : Nat} (here : lists[index]? = some items) :
    SortedBy Prod.fst items :=
  mergeable.sorted items (mem_of_getElem? here)

theorem ne_of_ne (mergeable : Mergeable lists) {first second : Nat} {a b : K × V}
    {others : List (K × V)} (here : lists[first]? = some items)
    (there : lists[second]? = some others) (different : first ≠ second) (member : a ∈ items)
    (other : b ∈ others) : a.1 ≠ b.1 := by
  have disjoint : lists.Pairwise (fun items others => ∀ a ∈ items, ∀ b ∈ others, a.1 ≠ b.1) := by
    have nodup := mergeable.distinct
    rw [map_flatten, nodup_flatten] at nodup
    refine (pairwise_map.mp nodup.2).imp (fun disjoint a ha b hb same => ?_)
    exact disjoint (mem_map_of_mem ha) (same ▸ mem_map_of_mem hb)
  rcases List.getElem?_eq_some_iff.mp here with ⟨inside, rfl⟩
  rcases List.getElem?_eq_some_iff.mp there with ⟨within, rfl⟩
  rcases Nat.lt_or_gt_of_ne different with less | more
  · exact pairwise_iff_getElem.mp disjoint first second inside within less a member b other
  · exact (pairwise_iff_getElem.mp disjoint second first within inside more b other a member).symm

end Mergeable

variable {item : K × V}

theorem mem_mergeAll : item ∈ mergeAll Prod.fst lists <->
      ∃ (index : Nat) (items : List (K × V)), lists[index]? = some items ∧ item ∈ items := by
  rw [(mergeAll_perm lists).mem_iff, mem_flatten]
  constructor
  · rintro ⟨items, member, inside⟩
    rcases getElem_of_mem member with ⟨index, within, rfl⟩
    exact ⟨index, _, getElem?_eq_getElem within, inside⟩
  · rintro ⟨_, items, here, inside⟩
    exact ⟨items, mem_of_getElem? here, inside⟩

variable {p : K -> Bool} {current : Nat}

/-- The first one with a property among all items is the first one among the first ones of
the lists. -/
theorem edge_mergeAll_eq_some (mergeable : Mergeable lists)
    (here : lists[current]? = some items) (found : edge direction p items = some item)
    (best : ∀ (index : Nat) others other, lists[index]? = some others ->
      edge direction p others = some other -> ahead direction other.1 item.1 = false) :
    edge direction p (mergeAll Prod.fst lists) = some item := by
  rcases (edge_eq_some (mergeable.sorted_at here)).mp found with ⟨member, holds, _⟩
  refine (edge_eq_some mergeable.sortedBy_mergeAll).mpr
    ⟨mem_mergeAll.mpr ⟨current, items, here, member⟩, holds, fun other isOther otherHolds => ?_⟩
  rcases mem_mergeAll.mp isOther with ⟨index, others, there, inside⟩
  cases first : edge direction p others with
  | none =>
    have fails := edge_eq_none.mp first other inside
    rw [otherHolds] at fails
    cases fails
  | some nearest =>
    have notAhead := ((edge_eq_some (mergeable.sorted_at there)).mp first).2.2 other inside
      otherHolds
    exact ahead_trans direction _ _ _ notAhead (best index others nearest there first)

variable {merging : MergingIterator σ K}

/-- The child that is selected when all children stand at their first item with a
property. -/
theorem find_edge (mergeable : Mergeable lists)
    (allAt : AllAt iterator lists direction p merging.children) :
    ∃ chosen, find direction merging = .ok { merging with current := chosen } ∧
      ((chosen = none ∧ edge direction p (mergeAll Prod.fst lists) = none) ∨
        ∃ current items item, chosen = some current ∧ lists[current]? = some items ∧
          edge direction p items = some item ∧
          edge direction p (mergeAll Prod.fst lists) = some item) := by
  have keys : ∀ child ∈ merging.children.zipIdx, child.1.valid = true ->
      ∃ key, child.1.getKey = .ok key := by
    rintro ⟨child, index⟩ member valid
    rcases allAt.exists_model (mem_zipIdx_iff_getElem?.mp member) with ⟨items, _, childAt⟩
    rcases Option.isSome_iff_exists.mp (childAt.valid.symm.trans valid) with ⟨item, shown⟩
    exact ⟨item.1, childAt.getKey shown⟩
  rcases find_isBest direction keys with ⟨chosen, found, best⟩
  refine ⟨chosen.map Prod.snd, found, ?_⟩
  -- a child with an item is valid, and so among the candidates
  have candidate {index : Nat} {items : List (K × V)} {item : K × V}
      (here : lists[index]? = some items) (shown : edge direction p items = some item) :
      ∃ child ∈ merging.children.zipIdx.filter (fun child => child.1.valid),
        child.1.getKey = .ok item.1 := by
    rcases allAt.exists_item here with ⟨child, there, childAt⟩
    refine ⟨(child, index), mem_filter.mpr
      ⟨mem_zipIdx_iff_getElem?.mpr there, ?_⟩, childAt.getKey shown⟩
    simp [childAt.valid, shown]
  cases chosen with
  | none =>
    refine Or.inl ⟨rfl, edge_eq_none.mpr (fun item member => ?_)⟩
    rcases mem_mergeAll.mp member with ⟨index, items, here, inside⟩
    cases shown : edge direction p items with
    | none => exact edge_eq_none.mp shown item inside
    | some first =>
      rcases candidate here shown with ⟨child, isCandidate, _⟩
      rw [best.empty rfl] at isCandidate
      cases isCandidate
  | some chosen =>
    rcases mem_filter.mp (best.member chosen rfl) with ⟨member, valid⟩
    rcases allAt.exists_model (mem_zipIdx_iff_getElem?.mp member) with
      ⟨items, here, childAt⟩
    rcases Option.isSome_iff_exists.mp (childAt.valid.symm.trans valid) with ⟨item, shown⟩
    refine Or.inr ⟨chosen.2, items, item, rfl, here, shown,
      edge_mergeAll_eq_some mergeable here shown (fun index others other there first => ?_)⟩
    rcases candidate there first with ⟨child, isCandidate, otherKey⟩
    exact best.best chosen rfl child isCandidate _ _ (childAt.getKey shown) otherKey

/-- After `FindSmallest` or `FindLargest` the iterator shows the first one with the property
among all items. -/
theorem find_at (mergeable : Mergeable lists)
    (closed : ∀ a b, p a = true -> ahead direction a b = true -> p b = true)
    (allAt : AllAt iterator lists direction p merging.children) :
    ∃ found, find direction merging = .ok found ∧ found.direction = merging.direction ∧
      At iterator lists { found with direction := direction }
        (edge direction p (mergeAll Prod.fst lists)) := by
  rcases find_edge mergeable allAt with ⟨_, found, ⟨rfl, none⟩ |
    ⟨current, items, item, rfl, here, shown, merged⟩⟩
  · refine ⟨_, found, rfl, ?_⟩
    rw [none]
    exact ⟨rfl, allAt.imp (fun index items child _ childAt => ⟨_, childAt⟩)⟩
  · refine ⟨_, found, rfl, ?_⟩
    rw [merged]
    rcases (edge_eq_some mergeable.sortedBy_mergeAll).mp merged with ⟨_, holds, nearest⟩
    have member := ((edge_eq_some (mergeable.sorted_at here)).mp shown).1
    refine ⟨current, rfl, ⟨items, here, member⟩, allAt.imp (fun index others child there => ?_)⟩
    intro childAt
    by_cases same : index = current
    · subst same
      cases here.symm.trans there
      rw [if_pos rfl, <- shown]
      exact childAt
    · rw [if_neg same]
      -- above the current item, the property holds of exactly the items after it
      have agree : ∀ other ∈ others, p other.1 = ahead direction item.1 other.1 := by
        intro other inside
        have different := mergeable.ne_of_ne here there (Ne.symm same) member inside
        rw [Bool.eq_iff_iff]
        constructor
        · intro otherHolds
          exact ahead_of_ne direction different
            (nearest other (mem_mergeAll.mpr ⟨index, others, there, inside⟩) otherHolds)
        · exact closed item.1 other.1 holds
      rw [<- edge_congr agree]
      exact childAt

/-! ## The calls -/

variable {shown : Option (K × V)}

theorem At.children (here : At iterator lists merging shown) :
    Aligned (fun _ items child => ∃ place, ChildAt iterator items child place) lists
      merging.children := by
  cases shown with
  | none => exact here.2
  | some item =>
    rcases here with ⟨_, _, _, around⟩
    exact around.imp (fun index items child _ childAt => ⟨_, childAt⟩)

variable {call : CursorCall K}

theorem callAll_allAt
    (children : Aligned (fun _ items child => ∃ place, ChildAt iterator items child place)
      lists merging.children) (moves : ∀ items place, Cursor.move Prod.fst items place call =
      .ok (edge (V := V) direction p items)) :
    ∃ called, merging.callAll iterator call = .ok called ∧
      AllAt iterator lists direction p called.children := by
  have each (index : Nat) (items : List (K × V)) (child : IteratorWrapper σ K)
      (_ : lists[index]? = some items) (childAt : ∃ place, ChildAt iterator items child place) :
      ∃ next, child.call iterator call = .ok next ∧
        ChildAt iterator items next (edge direction p items) := by
    rcases childAt with ⟨place, childAt⟩
    exact childAt.call (moves items place)
  rcases children.mapM (fun child => child.1.call iterator call) each with ⟨next, mapped, allAt⟩
  exact ⟨{ merging with children := next }, bind_eq_ok.mpr ⟨next, mapped, rfl⟩, allAt⟩

theorem seek_at (mergeable : Mergeable lists) (here : At iterator lists merging shown)
    (moves : ∀ items place, Cursor.move Prod.fst items place call =
      .ok (edge (V := V) direction p items))
    (closed : ∀ a b, p a = true -> ahead direction a b = true -> p b = true) :
    ∃ next, (do
        let merging <- merging.callAll iterator call
        let merging <- find direction merging
        return { merging with direction := direction }) = Except.ok next ∧
      At iterator lists next (edge direction p (mergeAll Prod.fst lists)) := by
  rcases callAll_allAt here.children moves with ⟨called, calls, allAt⟩
  rcases find_at mergeable closed allAt with ⟨found, finds, _, there⟩
  exact ⟨{ found with direction := direction },
    bind_eq_ok.mpr ⟨called, calls, bind_eq_ok.mpr ⟨found, finds, rfl⟩⟩, there⟩

theorem move_seekToFirst (items : List (K × V)) (place : Option (K × V)) :
    Cursor.move Prod.fst items place .seekToFirst = .ok (edge .forward (fun _ => true) items) := by
  cases items with
  | nil => rfl
  | cons head tail => rfl

theorem move_seekToLast (items : List (K × V)) (place : Option (K × V)) :
    Cursor.move Prod.fst items place .seekToLast = .ok (edge .reverse (fun _ => true) items) := by
  simp [Cursor.move, edge]

theorem move_seek (target : K) (items : List (K × V)) (place : Option (K × V)) :
    Cursor.move Prod.fst items place (.seek target) =
      .ok (edge .forward (fun key => decide (target ≤ key)) items) := rfl

/-- What `Next` or `Prev` makes of a child that is not the current one. -/
def Positions (iterator : Iterator σ K V) (direction : Direction)
    (step : K -> IteratorWrapper σ K -> Except String (IteratorWrapper σ K)) : Prop :=
  forall (items : List (K × V)) key child place, SortedBy Prod.fst items ->
    (∀ item ∈ items, item.1 ≠ key) -> ChildAt iterator items child place ->
    ∃ next, step key child = .ok next ∧
      ChildAt iterator items next (edge direction (ahead direction key) items)

theorem positions_stepAfter : Positions iterator .forward (stepAfter iterator) := by
  intro items key _ place sorted different childAt
  rcases childAt.call (move_seek key items place) with ⟨sought, seeks, there⟩
  have same : edge .forward (fun other => decide (key ≤ other)) items =
      edge .forward (ahead .forward key) items := by
    refine edge_congr (fun item member => ?_)
    simp only [ahead, decide_eq_decide]
    exact ⟨fun below => lt_of_le_of_ne below (different item member).symm, le_of_lt⟩
  rw [same] at there
  refine ⟨sought, bind_eq_ok.mpr ⟨sought, seeks, ?_⟩, there⟩
  cases shown : edge .forward (ahead .forward key) items with
  | none => simp [there.valid, shown, pure, Except.pure]
  | some item =>
    have member := ((edge_eq_some sorted).mp shown).1
    simp only [there.valid, shown, there.getKey shown]
    exact if_neg (different item member).symm

theorem positions_stepBefore : Positions iterator .reverse (stepBefore iterator) := by
  intro items key _ place sorted _ childAt
  rcases childAt.call (move_seek key items place) with ⟨sought, seeks, there⟩
  cases shown : edge .forward (fun other => decide (key ≤ other)) items with
  | none =>
    have all : edge .reverse (fun _ => true) items = edge .reverse (ahead .reverse key) items := by
      refine edge_congr (fun item member => ?_)
      have below := edge_eq_none.mp shown item member
      simp only [decide_eq_false_iff_not, not_le] at below
      exact (decide_eq_true below).symm
    rw [shown] at there
    rcases there.call (move_seekToLast items none) with ⟨next, called, final⟩
    refine ⟨next, bind_eq_ok.mpr ⟨sought, seeks, ?_⟩, all ▸ final⟩
    simpa only [there.valid, Option.isSome_none, Bool.false_eq_true, if_false] using called
  | some item =>
    rcases (edge_eq_some sorted).mp shown with ⟨_, above, nearest⟩
    have same : edge .reverse (ahead .reverse item.1) items =
        edge .reverse (ahead .reverse key) items := by
      refine edge_congr (fun other inside => ?_)
      simp only [ahead, decide_eq_decide]
      constructor
      · intro below
        by_contra notBelow
        have first := nearest other inside (decide_eq_true (not_lt.mp notBelow))
        exact absurd below (of_decide_eq_false first)
      · exact fun below => lt_of_lt_of_le below (of_decide_eq_true above)
    have back : Cursor.move Prod.fst items (some item) .prev =
        .ok (edge .reverse (ahead .reverse item.1) items) := rfl
    rw [shown] at there
    rcases there.call back with ⟨next, called, final⟩
    refine ⟨next, bind_eq_ok.mpr ⟨sought, seeks, ?_⟩, same ▸ final⟩
    simpa only [there.valid, Option.isSome_some, if_true] using called

variable {step : K -> IteratorWrapper σ K -> Except String (IteratorWrapper σ K)}

theorem turn_around (mergeable : Mergeable lists)
    (here : lists[current]? = some items) (member : item ∈ items)
    (around : Around iterator lists merging.direction current item
      merging.children) (positions : Positions iterator direction step) :
    ∃ turned, merging.turn current direction step = .ok turned ∧ turned.direction = direction ∧
      Around iterator lists direction current item turned.children := by
  by_cases straight : merging.direction = direction
  · refine ⟨merging, if_pos straight, straight, ?_⟩
    rw [<- straight]
    exact around
  · rcases around.exists_item here with ⟨child, there, childAt⟩
    rw [if_pos rfl] at childAt
    have each (index : Nat) (others : List (K × V)) (child : IteratorWrapper σ K)
        (at_ : lists[index]? = some others)
        (childAt : ChildAt iterator others child (if index = current then some item
          else edge merging.direction (ahead merging.direction item.1) others)) :
        ∃ next, (if index = current then .ok child else step item.1 child) = .ok next ∧
          ChildAt iterator others next (if index = current then some item
            else edge direction (ahead direction item.1) others) := by
      by_cases same : index = current
      · rw [if_pos same] at childAt
        simp only [if_pos same]
        exact ⟨child, rfl, childAt⟩
      · simp only [if_neg same]
        exact positions others item.1 child _ (mergeable.sorted_at at_)
          (fun other inside => mergeable.ne_of_ne at_ here same inside member) childAt
    rcases around.mapM
      (fun child => if child.2 = current then .ok child.1 else step item.1 child.1) each with
      ⟨next, mapped, turned⟩
    refine ⟨{ merging with children := next, direction := direction }, ?_, rfl, turned⟩
    simp only [turn, if_neg straight, there]
    exact bind_eq_ok.mpr ⟨item.1, childAt.getKey rfl, bind_eq_ok.mpr ⟨next, mapped, rfl⟩⟩

/-- Moving the current child, too, puts all children at their first item after the current
key. -/
theorem callCurrent_allAt (here : lists[current]? = some items)
    (around : Around iterator lists direction current item merging.children)
    (moves : Cursor.move Prod.fst items (some item) call =
      .ok (edge direction (ahead direction item.1) items)) :
    ∃ called, merging.callCurrent iterator current call = .ok called ∧
      called.direction = merging.direction ∧
      AllAt iterator lists direction (ahead direction item.1) called.children := by
  rcases around.exists_item here with ⟨child, there, childAt⟩
  rw [if_pos rfl] at childAt
  rcases childAt.call moves with ⟨next, called, after⟩
  refine ⟨{ merging with children := merging.children.set current next }, ?_, rfl, ?_⟩
  · simp only [callCurrent, there]
    exact bind_eq_ok.mpr ⟨next, called, rfl⟩
  · refine around.set (fun index others child _ other childAt => ?_) (fun others at_ => ?_)
    · rw [if_neg other] at childAt
      exact childAt
    · cases here.symm.trans at_
      exact after

theorem advance_at (mergeable : Mergeable lists) (here : At iterator lists merging (some item))
    (call : CursorCall K) (positions : Positions iterator direction step)
    (moves : ∀ items, Cursor.move Prod.fst items (some item) call =
      .ok (edge (V := V) direction (ahead direction item.1) items)) :
    ∃ next, (match merging.current with
        | none => .error "Valid()"
        | some current => do
          let merging <- merging.turn current direction step
          let merging <- merging.callCurrent iterator current call
          find direction merging) = Except.ok next ∧
      At iterator lists next
        (edge direction (ahead direction item.1) (mergeAll Prod.fst lists)) := by
  rcases here with ⟨current, isCurrent, ⟨items, there, member⟩, around⟩
  rcases turn_around mergeable there member around positions with
    ⟨turned, turns, direction_eq, around⟩
  rcases callCurrent_allAt there around (moves items) with ⟨called, calls, kept, allAt⟩
  have closed (a b : K) (first : ahead direction item.1 a = true)
      (second : ahead direction a b = true) : ahead direction item.1 b = true := by
    cases direction with
    | forward => simp_all only [ahead, decide_eq_true_eq]; exact lt_trans first second
    | reverse => simp_all only [ahead, decide_eq_true_eq]; exact lt_trans second first
  rcases find_at mergeable closed allAt with ⟨found, finds, same, final⟩
  rw [isCurrent]
  refine ⟨found, bind_eq_ok.mpr ⟨turned, turns, bind_eq_ok.mpr ⟨called, calls, finds⟩⟩, ?_⟩
  have unchanged : { found with direction := direction } = found := by
    rw [<- direction_eq, <- kept, <- same]
  rw [unchanged] at final
  exact final

theorem follows (mergeable : Mergeable lists) :
    (toIterator iterator).Follows (Cursor.move Prod.fst (mergeAll Prod.fst lists))
      (fun item => item) (At iterator lists) := by
  refine ⟨fun merging shown here => ?_, fun merging shown here => ?_, ?_⟩
  · cases shown with
    | none => simp [toIterator, here.1]
    | some item =>
      rcases here with ⟨_, isCurrent, ⟨items, there, _⟩, around⟩
      rcases around.exists_item there with ⟨child, isChild, childAt⟩
      rw [if_pos rfl] at childAt
      simp [toIterator, isCurrent, isChild, childAt.current]
  · refine findSome?_eq_none_iff.mpr (fun child member => ?_)
    rcases getElem_of_mem member with ⟨_, within, rfl⟩
    rcases here.children.exists_model (getElem?_eq_getElem within) with
      ⟨items, _, _, childAt⟩
    exact childAt.status
  · intro merging shown call next here moves
    cases call with
    | seekToFirst =>
      rw [move_seekToFirst] at moves
      cases moves
      exact seek_at mergeable here move_seekToFirst (fun _ _ holds _ => holds)
    | seekToLast =>
      rw [move_seekToLast] at moves
      cases moves
      exact seek_at mergeable here move_seekToLast (fun _ _ holds _ => holds)
    | seek target =>
      cases moves
      have closed (a b : K) (first : decide (target ≤ a) = true)
          (second : ahead .forward a b = true) : decide (target ≤ b) = true :=
        decide_eq_true (le_of_lt (lt_of_le_of_lt (of_decide_eq_true first)
          (of_decide_eq_true second)))
      exact seek_at mergeable here (move_seek target) closed
    | next =>
      cases shown with
      | none => cases moves
      | some item =>
        cases moves
        exact advance_at mergeable here .next positions_stepAfter (fun _ => rfl)
    | prev =>
      cases shown with
      | none => cases moves
      | some item =>
        cases moves
        exact advance_at mergeable here .prev positions_stepBefore (fun _ => rfl)

theorem at_new {children : List σ} (cursors : List.Forall₂ iterator.IsCursor lists children)
    (mergeable : Mergeable lists) : At iterator lists (new iterator children) none := by
  refine ⟨rfl, by simp [new, cursors.length_eq], fun index items child here there => ?_⟩
  rcases List.getElem?_eq_some_iff.mp here with ⟨inside, rfl⟩
  simp only [new, getElem?_map, Option.map_eq_some_iff] at there
  rcases there with ⟨_, isState, rfl⟩
  rcases List.getElem?_eq_some_iff.mp isState with ⟨within, rfl⟩
  rcases cursors.get inside within with ⟨_, bounded, shows⟩
  exact ⟨_, IteratorWrapper.wraps_update (shows.showsItem (mergeable.sorted_at here) bounded)⟩

/-- `Next` and `Prev` assert `Valid()`. -/
theorem call_refused (here : At iterator lists merging shown)
    (refused : Cursor.move Prod.fst (mergeAll Prod.fst lists) shown call = .error ()) :
    (toIterator iterator).call merging call = .error "Valid()" := by
  cases shown with
  | some item => cases call <;> cases refused
  | none =>
    cases call with
    | seekToFirst => cases refused
    | seekToLast => cases refused
    | seek target => cases refused
    | next => simp [toIterator, next, here.1]
    | prev => simp [toIterator, prev, here.1]

/-- Over cursors for lists in strict key order without a common key, any sequence of calls
makes the merging iterator show what a cursor over the merged list shows, and fails its
assertion exactly where that cursor is not at an item. -/
theorem run_eq_cursor_run (iterator : Iterator σ K V) (lists : List (List (K × V)))
    (children : List σ) (mergeable : Mergeable lists)
    (cursors : List.Forall₂ iterator.IsCursor lists children) (calls : List (CursorCall K)) :
    (((toIterator iterator).run (new iterator children) calls).map
        (toIterator iterator).current).toOption =
      (Cursor.run Prod.fst (mergeAll Prod.fst lists) calls).toOption := by
  have run := (follows mergeable).run_current
    (fun merging shown call here refused => ⟨_, call_refused here refused⟩)
    (at_new cursors mergeable) calls
  rw [run]
  cases moved : calls.foldlM (Cursor.move Prod.fst (mergeAll Prod.fst lists)) none with
  | ok last => simp [Cursor.run, moved, Except.map]
  | error reason => simp [Cursor.run, moved, Except.map]

/-- Forward over two lists and back again. -/
theorem run_eq_cursor_run_twoLists : (((toIterator Iterator.overList).run
        (new Iterator.overList [([(1, 10), (3, 30)], none), ([(2, 20)], none)])
        [.seekToFirst, .next, .next, .prev]).map
        (toIterator Iterator.overList).current).toOption = some (some (2, 20)) := by
  have mergeable : Mergeable [[(1, 10), (3, 30)], [(2, 20)]] := by
    refine ⟨?_, by decide⟩
    simp [SortedBy]
  refine (run_eq_cursor_run Iterator.overList [[(1, 10), (3, 30)], [(2, 20)]] _ mergeable
    (.cons (Iterator.overList_isCursor _) (.cons (Iterator.overList_isCursor _) .nil)) _).trans ?_
  decide

end

end MergingIterator

end Table
end Doux
