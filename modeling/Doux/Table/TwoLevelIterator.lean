import Doux.Table.IteratorWrapper

namespace Doux
namespace Table

open Foundation List

/-!
# The two-level iterator

`TwoLevelIterator` shows the items of several blocks one after the other.  Its index
iterator goes through the blocks, and its data iterator through the items of one block.
The data iterator is made by the block function from the handle that the index iterator
shows, and it is kept as long as the handle stays the same; there is none when the index
iterator has run off either end.

The loops that skip empty blocks are bounded by a fuel argument.

The iterator also counts blocks, from the last call of `SeekToFirst` on.  The count is that of
the block it shows as long as only `Next` is called; a compaction of value files reads it at
every entry of such a scan.
-/

/-- `H` is the type of handles.  There is no handle before the first data iterator. -/
structure TwoLevelIterator (ι ρ K H : Type) where
  status : Option String
  indexIter : IteratorWrapper ι K
  dataIter : IteratorWrapper ρ K
  dataBlockHandle : Option H
  currentBlockIndex : BitVec 32

namespace TwoLevelIterator

variable {ι ρ K H V : Type} [LinearOrder K]

section
variable [DecidableEq H] (index : Iterator ι K H) (data : Iterator ρ K V) (blockFunction : H -> ρ)

def new (indexIter : ι) : TwoLevelIterator ι ρ K H where
  status := none
  indexIter := IteratorWrapper.new.set index (some indexIter)
  dataIter := IteratorWrapper.new
  dataBlockHandle := none
  currentBlockIndex := 0

def saveError (iterator : TwoLevelIterator ι ρ K H) (status : Option String) :
    TwoLevelIterator ι ρ K H :=
  if iterator.status = none then { iterator with status := status } else iterator

def setDataIterator (iterator : TwoLevelIterator ι ρ K H) (dataIter : Option ρ) :
    TwoLevelIterator ι ρ K H :=
  let iterator := match iterator.dataIter.iter with
    | none => iterator
    | some old => iterator.saveError (data.status old)
  { iterator with dataIter := iterator.dataIter.set data dataIter }

def initDataBlock (iterator : TwoLevelIterator ι ρ K H) :
    Except String (TwoLevelIterator ι ρ K H) :=
  if iterator.indexIter.valid = true then
    match iterator.indexIter.current index with
    | none => .error "Valid()"
    | some (_, handle) =>
      if iterator.dataIter.iter.isSome = true ∧ iterator.dataBlockHandle = some handle then
        .ok iterator
      else
        .ok ({ iterator with dataBlockHandle := some handle }.setDataIterator data
          (some (blockFunction handle)))
  else .ok (iterator.setDataIterator data none)

/-- A call on the data iterator, if there is one. -/
def callData (iterator : TwoLevelIterator ι ρ K H) (call : CursorCall K) :
    Except String (TwoLevelIterator ι ρ K H) :=
  if iterator.dataIter.iter.isSome = true then do
    let dataIter <- iterator.dataIter.call data call
    return { iterator with dataIter := dataIter }
  else .ok iterator

def callIndex (iterator : TwoLevelIterator ι ρ K H) (call : CursorCall K) :
    Except String (TwoLevelIterator ι ρ K H) := do
  let indexIter <- iterator.indexIter.call index call
  return { iterator with indexIter := indexIter }

/-- The loops that skip empty blocks, with the call that moves the index iterator, the call on
a new data iterator and the change of the block count. -/
def skipEmptyDataBlocks (outerCall innerCall : CursorCall K) (count : BitVec 32 -> BitVec 32) :
    Nat -> TwoLevelIterator ι ρ K H -> Except String (TwoLevelIterator ι ρ K H)
  | 0, _ => .error "out of fuel"
  | fuel + 1, iterator =>
    if iterator.dataIter.iter = none ∨ iterator.dataIter.valid = false then
      if iterator.indexIter.valid = true then do
        let iterator <- iterator.callIndex index outerCall
        let iterator := { iterator with currentBlockIndex := count iterator.currentBlockIndex }
        let iterator <- iterator.initDataBlock index data blockFunction
        let iterator <- iterator.callData data innerCall
        skipEmptyDataBlocks outerCall innerCall count fuel iterator
      else .ok (iterator.setDataIterator data none)
    else .ok iterator

def skipEmptyDataBlocksForward (fuel : Nat) (iterator : TwoLevelIterator ι ρ K H) :
    Except String (TwoLevelIterator ι ρ K H) :=
  iterator.skipEmptyDataBlocks index data blockFunction .next .seekToFirst
    (fun count => count + 1) fuel

def skipEmptyDataBlocksBackward (fuel : Nat) (iterator : TwoLevelIterator ι ρ K H) :
    Except String (TwoLevelIterator ι ρ K H) :=
  iterator.skipEmptyDataBlocks index data blockFunction .prev .seekToLast
    (fun count => if count > 0 then count - 1 else count) fuel

variable (fuel : Nat)

def seek (iterator : TwoLevelIterator ι ρ K H) (target : K) :
    Except String (TwoLevelIterator ι ρ K H) := do
  let iterator <- iterator.callIndex index (.seek target)
  let iterator <- iterator.initDataBlock index data blockFunction
  let iterator <- iterator.callData data (.seek target)
  iterator.skipEmptyDataBlocksForward index data blockFunction fuel

def seekToFirst (iterator : TwoLevelIterator ι ρ K H) :
    Except String (TwoLevelIterator ι ρ K H) := do
  let iterator <- iterator.callIndex index .seekToFirst
  let iterator := { iterator with currentBlockIndex := 0 }
  let iterator <- iterator.initDataBlock index data blockFunction
  let iterator <- iterator.callData data .seekToFirst
  iterator.skipEmptyDataBlocksForward index data blockFunction fuel

def seekToLast (iterator : TwoLevelIterator ι ρ K H) :
    Except String (TwoLevelIterator ι ρ K H) := do
  let iterator <- iterator.callIndex index .seekToLast
  let iterator <- iterator.initDataBlock index data blockFunction
  let iterator <- iterator.callData data .seekToLast
  iterator.skipEmptyDataBlocksBackward index data blockFunction fuel

def next (iterator : TwoLevelIterator ι ρ K H) : Except String (TwoLevelIterator ι ρ K H) := do
  assertThat (iterator.dataIter.valid = true) "Valid()"
  let dataIter <- iterator.dataIter.call data .next
  { iterator with dataIter := dataIter }.skipEmptyDataBlocksForward index data blockFunction fuel

def prev (iterator : TwoLevelIterator ι ρ K H) : Except String (TwoLevelIterator ι ρ K H) := do
  assertThat (iterator.dataIter.valid = true) "Valid()"
  let dataIter <- iterator.dataIter.call data .prev
  { iterator with dataIter := dataIter }.skipEmptyDataBlocksBackward index data blockFunction fuel

def toIterator : Iterator (TwoLevelIterator ι ρ K H) K V where
  current iterator := iterator.dataIter.current data
  status iterator :=
    (iterator.indexIter.iter.bind index.status).or
      ((iterator.dataIter.iter.bind data.status).or iterator.status)
  call iterator
    | .seekToFirst => iterator.seekToFirst index data blockFunction fuel
    | .seekToLast => iterator.seekToLast index data blockFunction fuel
    | .seek target => iterator.seek index data blockFunction fuel target
    | .next => iterator.next index data blockFunction fuel
    | .prev => iterator.prev index data blockFunction fuel

/-- The loop from an item on, with `GetCurrentBlockIndex` at each item. -/
def scanFrom : Nat -> TwoLevelIterator ι ρ K H -> Except String (List ((K × V) × BitVec 32))
  | 0, _ => .error "out of fuel"
  | count + 1, iterator =>
    match iterator.dataIter.current data with
    | none => .ok []
    | some item => do
      let following <- iterator.next index data blockFunction fuel
      let rest <- scanFrom count following
      return (item, iterator.currentBlockIndex) :: rest

/-- The loop `for (it->SeekToFirst(); it->Valid(); it->Next())` over at most `count` items. -/
def scan (count : Nat) (iterator : TwoLevelIterator ι ρ K H) :
    Except String (List ((K × V) × BitVec 32)) := do
  let iterator <- iterator.seekToFirst index data blockFunction fuel
  iterator.scanFrom index data blockFunction fuel (count + 1)

end

/-- A block with its entry in the index. -/
structure DataBlock (K H V : Type) where
  indexKey : K
  handle : H
  items : List (K × V)

/-- The index key of a block separates its items from those of later blocks. -/
structure Indexed (blocks : List (DataBlock K H V)) : Prop where
  upper : ∀ block ∈ blocks, ∀ item ∈ block.items, item.1 ≤ block.indexKey
  later : blocks.Pairwise (fun block other => ∀ item ∈ other.items, block.indexKey < item.1)
  handles : (blocks.map DataBlock.handle).Nodup

/-- The entries of the index. -/
def indexItems (blocks : List (DataBlock K H V)) : List (K × H) :=
  blocks.map (fun block => (block.indexKey, block.handle))

def allItems (blocks : List (DataBlock K H V)) : List (K × V) :=
  blocks.flatMap DataBlock.items

/-- The number of items before a block. -/
def offset (blocks : List (DataBlock K H V)) (place : Nat) : Nat :=
  (allItems (blocks.take place)).length

/-- The items of all blocks, each with the number of its block in 32 bits. -/
def numberedItems (blocks : List (DataBlock K H V)) : List ((K × V) × BitVec 32) :=
  blocks.zipIdx.flatMap (fun block =>
    block.1.items.map (fun item => (item, BitVec.ofNat 32 block.2)))

section
variable {blocks : List (DataBlock K H V)}

omit [LinearOrder K]

variable {place : Nat}

theorem map_numberedItems (blocks : List (DataBlock K H V)) :
    (numberedItems blocks).map Prod.fst = allItems blocks := by
  simp only [numberedItems, allItems, map_flatMap, map_map, Function.comp_def, map_id']
  conv_rhs => rw [<- zipIdx_map_fst 0 blocks, flatMap_map]

theorem length_numberedItems (blocks : List (DataBlock K H V)) :
    (numberedItems blocks).length = (allItems blocks).length := by
  rw [<- map_numberedItems, length_map]

theorem getElem?_numberedItems {block : DataBlock K H V} (here : blocks[place]? = some block)
    {inner : Nat} (inside : inner < block.items.length) :
    (numberedItems blocks)[offset blocks place + inner]? =
      block.items[inner]?.map (fun item => (item, BitVec.ofNat 32 place)) := by
  rcases List.getElem?_eq_some_iff.mp here with ⟨within, rfl⟩
  have front : (numberedItems (blocks.take place)).length = offset blocks place :=
    length_numberedItems _
  have split : numberedItems blocks = numberedItems (blocks.take place) ++
      (blocks[place].items.map (fun item => (item, BitVec.ofNat 32 place)) ++
        ((blocks.drop (place + 1)).zipIdx (place + 1)).flatMap (fun block =>
          block.1.items.map (fun item => (item, BitVec.ofNat 32 block.2)))) := by
    conv_lhs => rw [numberedItems, <- take_append_drop place blocks, drop_eq_getElem_cons within]
    rw [zipIdx_append, flatMap_append, zipIdx_cons, flatMap_cons, length_take,
      min_eq_left within.le, zero_add]
    rfl
  rw [split, <- front, getElem?_append_right (Nat.le_add_right _ _), Nat.add_sub_cancel_left,
    getElem?_append_left (by rw [length_map]; exact inside), getElem?_map]

theorem allItems_split {block : DataBlock K H V} (here : blocks[place]? = some block) :
    allItems blocks =
      allItems (blocks.take place) ++ (block.items ++ allItems (blocks.drop (place + 1))) := by
  rcases List.getElem?_eq_some_iff.mp here with ⟨inside, rfl⟩
  conv_lhs => rw [<- take_append_drop place blocks, drop_eq_getElem_cons inside]
  simp only [allItems, flatMap_append, flatMap_cons]

theorem offset_succ {block : DataBlock K H V} (here : blocks[place]? = some block) :
    offset blocks (place + 1) = offset blocks place + block.items.length := by
  simp [offset, allItems, take_add_one, here]

theorem offset_of_length_le (outside : blocks.length ≤ place) :
    offset blocks place = (allItems blocks).length := by
  rw [offset, take_of_length_le outside]

theorem offset_le (place : Nat) : offset blocks place ≤ (allItems blocks).length := by
  conv_rhs => rw [<- take_append_drop place blocks]
  simp only [offset, allItems, flatMap_append, length_append]
  omega

end

section
variable (index : Iterator ι K H) (data : Iterator ρ K V) (blocks : List (DataBlock K H V))

/-- The index iterator is a cursor over the index. -/
structure IndexAt (indexIter : IteratorWrapper ι K) (place : Option Nat) : Prop where
  inside : ∀ position ∈ place, position < (indexItems blocks).length
  wraps : IteratorWrapper.Wraps index (Position.move (indexItems blocks))
    (Position.shown (indexItems blocks)) indexIter place

/-- The data iterator is a cursor over a block. -/
structure DataAt (block : DataBlock K H V) (dataBlockHandle : Option H)
    (dataIter : IteratorWrapper ρ K) (place : Option Nat) : Prop where
  handle : dataBlockHandle = some block.handle
  inside : ∀ position ∈ place, position < block.items.length
  wraps : IteratorWrapper.Wraps data (Position.move block.items) (Position.shown block.items)
    dataIter place

def NoData (dataIter : IteratorWrapper ρ K) : Prop :=
  dataIter.iter = none ∧ dataIter.valid = false

/-- What holds of every state: the data iterator, if there is one, is that of the block
with the saved handle, which need not be the block of the index iterator. -/
structure Good (iterator : TwoLevelIterator ι ρ K H) (place : Option Nat) : Prop where
  status : iterator.status = none
  index : IndexAt index blocks iterator.indexIter place
  data : NoData iterator.dataIter ∨ ∃ block ∈ blocks, ∃ inner,
    DataAt data block iterator.dataBlockHandle iterator.dataIter inner

/-- Both iterators are at the same block. -/
structure Loaded (iterator : TwoLevelIterator ι ρ K H) (place : Nat) (block : DataBlock K H V)
    (inner : Option Nat) : Prop where
  status : iterator.status = none
  here : blocks[place]? = some block
  index : IndexAt index blocks iterator.indexIter (some place)
  data : DataAt data block iterator.dataBlockHandle iterator.dataIter inner

/-- The iterator shows no item. -/
structure Ended (iterator : TwoLevelIterator ι ρ K H) (place : Option Nat) : Prop where
  status : iterator.status = none
  index : IndexAt index blocks iterator.indexIter place
  data : NoData iterator.dataIter

/-- Where a call on the index iterator and one on the new data iterator lead. -/
def Arrived (call : CursorCall K) (iterator : TwoLevelIterator ι ρ K H) : Option Nat -> Prop
  | none => Ended index blocks iterator none
  | some place => ∃ block inner, Position.move block.items none call = .ok inner ∧
      Loaded index data blocks iterator place block inner

/-- Nothing is asked of the count. -/
def AnyCount (_ : BitVec 32) (_ : Nat) : Prop := True

/-- The count is the place of the block, in 32 bits. -/
def IsCount (current : BitVec 32) (place : Nat) : Prop := current = BitVec.ofNat 32 place

theorem IsCount.succ (current : BitVec 32) (place : Nat) (counted : IsCount current place) :
    IsCount (current + 1) (place + 1) := by
  rw [IsCount, counted]
  exact (BitVec.ofNat_add place 1).symm

/-- The position among all items.  What the count of the iterator has to do with the place of
the block is left open: it depends on the calls that were made. -/
def At (marks : BitVec 32 -> Nat -> Prop) (iterator : TwoLevelIterator ι ρ K H) :
    Option Nat -> Prop
  | none => ∃ place, Ended index blocks iterator place
  | some position => ∃ place block inner,
      Loaded index data blocks iterator place block (some inner) ∧
        position = offset blocks place + inner ∧ marks iterator.currentBlockIndex place

variable {index data blocks} {blockFunction : H -> ρ} {iterator : TwoLevelIterator ι ρ K H}
  {place : Nat} {block : DataBlock K H V} {inner : Option Nat}
  {marks : BitVec 32 -> Nat -> Prop}

theorem Loaded.good (loaded : Loaded index data blocks iterator place block inner) :
    Good index data blocks iterator (some place) :=
  ⟨loaded.status, loaded.index, Or.inr ⟨block, mem_of_getElem? loaded.here, inner, loaded.data⟩⟩

theorem Ended.good {place : Option Nat} (ended : Ended index blocks iterator place) :
    Good index data blocks iterator place :=
  ⟨ended.status, ended.index, Or.inl ended.data⟩

variable {position : Option Nat}

theorem At.good (here : At index data blocks marks iterator position) :
    ∃ place, Good index data blocks iterator place := by
  cases position with
  | none =>
    rcases here with ⟨place, ended⟩
    exact ⟨place, ended.good⟩
  | some position =>
    rcases here with ⟨place, _, _, loaded, _⟩
    exact ⟨some place, loaded.good⟩

omit [LinearOrder K] in
/-- Replacing a data iterator without an error saves no error. -/
theorem setDataIterator_eq (status : iterator.status = none)
    (quiet : ∀ old ∈ iterator.dataIter.iter, data.status old = none) (dataIter : Option ρ) :
    iterator.setDataIterator data dataIter =
      { iterator with dataIter := iterator.dataIter.set data dataIter } := by
  cases isOld : iterator.dataIter.iter with
  | none => simp [setDataIterator, isOld]
  | some old =>
    simp [setDataIterator, isOld, saveError, quiet old isOld, status]

theorem Good.quiet {place : Option Nat} (good : Good index data blocks iterator place) :
    ∀ old ∈ iterator.dataIter.iter, data.status old = none := by
  intro _ isOld
  rcases good.data with ⟨none, _⟩ | ⟨_, _, _, dataAt⟩
  · rw [none] at isOld
    cases isOld
  · rcases dataAt.wraps.behaves with ⟨_, isState, behaves⟩
    rw [Option.mem_unique isOld isState]
    exact behaves.status

theorem Good.setDataIterator_none {place : Option Nat}
    (good : Good index data blocks iterator place) :
    Ended index blocks (iterator.setDataIterator data none) place := by
  rw [setDataIterator_eq good.status good.quiet none]
  exact ⟨good.status, good.index, rfl, rfl⟩

variable {call : CursorCall K}

theorem Good.callIndex {place next : Option Nat} (good : Good index data blocks iterator place)
    (moves : Position.move (indexItems blocks) place call = .ok next) :
    ∃ after, iterator.callIndex index call = .ok after ∧
      after.currentBlockIndex = iterator.currentBlockIndex ∧
      Good index data blocks after next := by
  rcases good.index.wraps.call moves with ⟨indexIter, called, wraps⟩
  exact ⟨{ iterator with indexIter := indexIter }, bind_eq_ok.mpr ⟨indexIter, called, rfl⟩, rfl,
    good.status, ⟨Iterator.move_inside moves good.index.inside, wraps⟩, good.data⟩

theorem Loaded.callData {next : Option Nat}
    (loaded : Loaded index data blocks iterator place block inner)
    (moves : Position.move block.items inner call = .ok next) :
    ∃ dataIter, iterator.dataIter.call data call = .ok dataIter ∧
      Loaded index data blocks { iterator with dataIter := dataIter } place block next := by
  rcases loaded.data.wraps.call moves with ⟨dataIter, called, wraps⟩
  exact ⟨dataIter, called, loaded.status, loaded.here,
    loaded.index, loaded.data.handle, Iterator.move_inside moves loaded.data.inside, wraps⟩

theorem move_of_none {items : List (K × V)} (moves : Position.move items none call = .ok inner)
    (place : Option Nat) :
    Position.move items place call = .ok inner := by
  cases call with
  | seekToFirst => exact moves
  | seekToLast => exact moves
  | seek target => exact moves
  | next => cases moves
  | prev => cases moves

/-- The position among all items that is reached forward from a place in a block. -/
def forwardFrom (blocks : List (DataBlock K H V)) (place : Nat) : Option Nat -> Option Nat
  | none => Position.after (allItems blocks) (offset blocks (place + 1))
  | some inner => some (offset blocks place + inner)

/-- The position among all items that is reached backward from a place in a block. -/
def backwardFrom (blocks : List (DataBlock K H V)) (place : Nat) : Option Nat -> Option Nat
  | none => Position.before (offset blocks place)
  | some inner => some (offset blocks place + inner)

theorem Loaded.at_some {inner : Nat}
    (loaded : Loaded index data blocks iterator place block (some inner))
    (marked : marks iterator.currentBlockIndex place) :
    At index data blocks marks iterator (some (offset blocks place + inner)) :=
  ⟨place, block, inner, loaded, rfl, marked⟩

theorem Loaded.valid (loaded : Loaded index data blocks iterator place block inner) :
    iterator.dataIter.valid = inner.isSome := by
  rw [loaded.data.wraps.valid]
  cases inner with
  | none => rfl
  | some inner =>
    simp [Position.shown, getElem?_eq_getElem (loaded.data.inside inner rfl)]

/-- What a loop that skips empty blocks needs to know: where it leads from a place in a
block, and how many blocks are left. -/
structure Route (blocks : List (DataBlock K H V)) (outerCall innerCall : CursorCall K)
    (reach : Nat -> Option Nat -> Option Nat) (rest : Nat -> Nat) : Prop where
  here : forall place inner, reach place (some inner) = some (offset blocks place + inner)
  finds : forall items : List (K × V), ∃ found, Position.move items none innerCall = .ok found
  moves : forall place, place < blocks.length -> ∃ next,
    Position.move (indexItems blocks) (some place) outerCall = .ok next
  ends : forall place, place < blocks.length ->
    Position.move (indexItems blocks) (some place) outerCall = .ok none -> reach place none = none
  goes : forall place next block inner,
    Position.move (indexItems blocks) (some place) outerCall = .ok (some next) ->
    blocks[next]? = some block -> Position.move block.items none innerCall = .ok inner ->
      reach place none = reach next inner ∧ rest next < rest place

section
omit [LinearOrder K]

theorem forwardFrom_after {count : Nat} (here : blocks[place]? = some block)
    (bounded : count ≤ block.items.length) :
    forwardFrom blocks place (Position.after block.items count) =
      Position.after (allItems blocks) (offset blocks place + count) := by
  have next := offset_succ here
  have bound : offset blocks (place + 1) ≤ (allItems blocks).length := offset_le (place + 1)
  by_cases inside : count < block.items.length
  · simp only [Position.after, if_pos inside, forwardFrom]
    rw [if_pos (by omega)]
  · have last : count = block.items.length := by omega
    have none : Position.after block.items count = none := if_neg inside
    rw [none, last, <- next]
    rfl

theorem backwardFrom_before (place count : Nat) :
    backwardFrom blocks place (Position.before count) =
      Position.before (offset blocks place + count) := by
  cases count with
  | zero => rfl
  | succ count => rfl

theorem length_indexItems (blocks : List (DataBlock K H V)) :
    (indexItems blocks).length = blocks.length := length_map _

end

theorem forwardRoute : Route blocks .next .seekToFirst (forwardFrom blocks)
    (fun place => blocks.length - place) where
  here place inner := rfl
  finds items := ⟨_, rfl⟩
  moves place inside := ⟨_, rfl⟩
  ends place inside moves := by
    have outside : ¬ place + 1 < blocks.length := by
      intro further
      have some : Position.after (indexItems blocks) (place + 1) = some (place + 1) :=
        if_pos ((length_indexItems blocks).symm ▸ further)
      simp only [Position.move, some, Except.ok.injEq, reduceCtorEq] at moves
    rw [forwardFrom, offset_of_length_le (not_lt.mp outside)]
    exact if_neg (lt_irrefl _)
  goes place next block inner moves here found := by
    have further : place + 1 < blocks.length ∧ next = place + 1 := by
      simp only [Position.move, Position.after, length_indexItems, Except.ok.injEq] at moves
      split at moves
      · exact ⟨by assumption, (Option.some.inj moves).symm⟩
      · cases moves
    cases found
    rw [further.2] at here ⊢
    exact ⟨(forwardFrom_after here (Nat.zero_le _)).symm, by omega⟩

theorem backwardRoute : Route blocks .prev .seekToLast (backwardFrom blocks)
    (fun place => place) where
  here place inner := rfl
  finds items := ⟨_, rfl⟩
  moves place inside := ⟨_, rfl⟩
  ends place inside moves := by
    cases place with
    | zero => rfl
    | succ place => cases moves
  goes place next block inner moves here found := by
    cases place with
    | zero => cases moves
    | succ place =>
      cases moves
      cases found
      refine ⟨?_, Nat.lt_succ_self _⟩
      rw [backwardFrom_before, backwardFrom, offset_succ here]

/-! ## Seeking a key -/

theorem below_of_indexKey (indexed : Indexed blocks) {target : K}
    {others : List (DataBlock K H V)} (subset : ∀ block ∈ others, block ∈ blocks)
    (below : ∀ block ∈ others, block.indexKey < target) :
    (allItems others).findIdx? (fun item => target ≤ item.1) = none := by
  refine findIdx?_eq_none_iff.mpr (fun item member => decide_eq_false (not_le.mpr ?_))
  rcases mem_flatMap.mp member with ⟨block, isBlock, inside⟩
  exact lt_of_le_of_lt (indexed.upper block (subset block isBlock) item inside)
    (below block isBlock)

/-- The first item at or above the target is in the first block whose index key is, or it is
the first item after this block. -/
theorem forwardFrom_findIdx (indexed : Indexed blocks) {target : K}
    (here : blocks[place]? = some block) (reaches : target ≤ block.indexKey)
    (first : ∀ earlier ∈ blocks.take place, earlier.indexKey < target) :
    forwardFrom blocks place (block.items.findIdx? (fun item => target ≤ item.1)) =
      (allItems blocks).findIdx? (fun item => target ≤ item.1) := by
  have earlier := below_of_indexKey indexed (fun _ => mem_of_mem_take) first
  have later : ∀ item ∈ allItems (blocks.drop (place + 1)), target ≤ item.1 := by
    intro item member
    rcases mem_flatMap.mp member with ⟨_, isOther, inside⟩
    rcases List.getElem?_eq_some_iff.mp here with ⟨within, rfl⟩
    have ordered := indexed.later
    rw [<- take_append_drop place blocks, drop_eq_getElem_cons within] at ordered
    have above := rel_of_pairwise_cons (pairwise_append.mp ordered).2.1 isOther
    exact le_of_lt (lt_of_le_of_lt reaches (above item inside))
  have size : (allItems blocks).length =
      offset blocks (place + 1) + (allItems (blocks.drop (place + 1))).length := by
    rw [offset_succ here, allItems_split here]
    simp only [offset, length_append]
    omega
  conv_rhs => rw [allItems_split here]
  rw [findIdx?_append, earlier, Option.none_or, findIdx?_append]
  cases found : block.items.findIdx? (fun item => target ≤ item.1) with
  | some inner =>
    simp [forwardFrom, offset, add_comm]
  | none =>
    simp only [Option.none_or, forwardFrom, Position.after, size]
    cases rest : allItems (blocks.drop (place + 1)) with
    | nil => simp
    | cons head tail =>
      have holds : target ≤ head.1 := later head (by simp [rest])
      simp only [findIdx?_cons, holds, decide_true, if_true, Option.map_some, length_cons]
      rw [if_pos (by omega), offset_succ here, offset]
      congr 1
      omega

theorem at_new {indexIter : ι} (cursor : index.IsCursor (indexItems blocks) indexIter) :
    At index data blocks marks (new index indexIter) none := by
  rcases cursor with ⟨place, inside, shows⟩
  exact ⟨place, rfl, ⟨inside, IteratorWrapper.wraps_update shows⟩, rfl, rfl⟩

variable [DecidableEq H]

section
variable (blockFunction)

theorem initDataBlock_none (good : Good index data blocks iterator none) :
    ∃ next, iterator.initDataBlock index data blockFunction = .ok next ∧
      Ended index blocks next none := by
  refine ⟨iterator.setDataIterator data none, if_neg ?_, good.setDataIterator_none⟩
  rw [good.index.wraps.valid]
  exact Bool.false_ne_true

end

/-- What the two-level iterator is used with: cursors for its blocks, with distinct
handles. -/
structure Opens (data : Iterator ρ K V) (blockFunction : H -> ρ)
    (blocks : List (DataBlock K H V)) : Prop where
  handles : (blocks.map DataBlock.handle).Nodup
  cursor : ∀ block ∈ blocks, data.IsCursor block.items (blockFunction block.handle)

theorem initDataBlock_some (opens : Opens data blockFunction blocks)
    (here : blocks[place]? = some block) (good : Good index data blocks iterator (some place)) :
    ∃ next inner, iterator.initDataBlock index data blockFunction = .ok next ∧
      next.currentBlockIndex = iterator.currentBlockIndex ∧
      Loaded index data blocks next place block inner := by
  have shown : Position.shown (indexItems blocks) (some place) =
      some (block.indexKey, block.handle) := by
    simp [Position.shown, indexItems, here]
  have valid : iterator.indexIter.valid = true := by
    rw [good.index.wraps.valid, shown]
    rfl
  have current := good.index.wraps.current.trans shown
  by_cases kept : iterator.dataIter.iter.isSome = true ∧
      iterator.dataBlockHandle = some block.handle
  · -- the saved handle is that of this block, and handles are distinct
    rcases good.data with ⟨none, _⟩ | ⟨other, member, inner, dataAt⟩
    · rw [none] at kept
      cases kept.1
    · have same : other = block := by
        refine inj_on_of_nodup_map opens.handles member (mem_of_getElem? here) ?_
        exact Option.some.inj (dataAt.handle.symm.trans kept.2)
      subst same
      refine ⟨iterator, inner, ?_, rfl, good.status, here, good.index, dataAt⟩
      simp [initDataBlock, if_pos valid, current, if_pos kept]
  · rcases opens.cursor block (mem_of_getElem? here) with ⟨inner, inside, shows⟩
    refine ⟨{ iterator with
      dataBlockHandle := some block.handle
      dataIter := iterator.dataIter.set data (some (blockFunction block.handle)) }, inner, ?_, rfl,
      good.status, here, good.index, rfl, inside, IteratorWrapper.wraps_update shows⟩
    simp only [initDataBlock, if_pos valid, current, if_neg kept]
    refine congrArg Except.ok (setDataIterator_eq ?_ ?_ _)
    · exact good.status
    · exact good.quiet

/-- The data iterator of the place to which the index iterator is moved, after a call on
it. -/
theorem Good.arrived (opens : Opens data blockFunction blocks) {place next : Option Nat}
    (good : Good index data blocks iterator place) {outerCall : CursorCall K}
    (moves : Position.move (indexItems blocks) place outerCall = .ok next)
    (finds : ∀ items : List (K × V), ∃ found, Position.move items none call = .ok found)
    (change : BitVec 32 -> BitVec 32) :
    ∃ moved middle after, iterator.callIndex index outerCall = .ok moved ∧
      initDataBlock index data blockFunction
        { moved with currentBlockIndex := change moved.currentBlockIndex } = .ok middle ∧
      middle.callData data call = .ok after ∧ Arrived index data blocks call after next ∧
      (next ≠ none -> after.currentBlockIndex = change iterator.currentBlockIndex) := by
  rcases good.callIndex moves with ⟨moved, called, same, there⟩
  have good : Good index data blocks
      { moved with currentBlockIndex := change moved.currentBlockIndex } next :=
    { there with }
  cases next with
  | none =>
    rcases initDataBlock_none blockFunction good with ⟨after, made, ended⟩
    refine ⟨moved, after, after, called, made, if_neg ?_, ended, fun some => absurd rfl some⟩
    rw [ended.data.1]
    exact Bool.false_ne_true
  | some place =>
    have inside : place < blocks.length := by simpa [indexItems] using good.index.inside place rfl
    have isBlock : ∃ block, blocks[place]? = some block :=
      ⟨_, getElem?_eq_getElem inside⟩
    rcases isBlock with ⟨block, here⟩
    rcases initDataBlock_some opens here good with ⟨middle, old, made, counted, loaded⟩
    rcases finds block.items with ⟨found, move⟩
    rcases loaded.callData (move_of_none move old) with ⟨dataIter, calledData, after⟩
    refine ⟨moved, middle, _, called, made, ?_, ⟨block, found, move, after⟩,
      fun _ => counted.trans (congrArg change same)⟩
    rcases loaded.data.wraps.behaves with ⟨_, isState, _⟩
    simp only [callData, Option.mem_def.mp isState]
    exact bind_eq_ok.mpr ⟨dataIter, calledData, rfl⟩

section
variable {outerCall innerCall : CursorCall K} (count : BitVec 32 -> BitVec 32)

theorem skip_ended (fuel : Nat) {place : Option Nat} (ended : Ended index blocks iterator place)
    (last : place = none) :
    ∃ after, iterator.skipEmptyDataBlocks index data blockFunction outerCall innerCall count
        (fuel + 1) = .ok after ∧ At index data blocks marks after none := by
  subst last
  refine ⟨iterator.setDataIterator data none, ?_, none, ended.good.setDataIterator_none⟩
  have invalid : ¬ iterator.indexIter.valid = true := by
    rw [ended.index.wraps.valid]
    exact Bool.false_ne_true
  simp [skipEmptyDataBlocks, ended.data.1, if_neg invalid]

theorem skip_loaded (opens : Opens data blockFunction blocks)
    {reach : Nat -> Option Nat -> Option Nat} {rest : Nat -> Nat}
    (route : Route blocks outerCall innerCall reach rest) (fuel : Nat)
    (loaded : Loaded index data blocks iterator place block inner)
    (enough : rest place + 1 < fuel)
    (counts : ∀ current place next,
      Position.move (indexItems blocks) (some place) outerCall = .ok (some next) ->
        marks current place -> marks (count current) next)
    (marked : marks iterator.currentBlockIndex place) :
    ∃ after, iterator.skipEmptyDataBlocks index data blockFunction outerCall innerCall count
        fuel = .ok after ∧ At index data blocks marks after (reach place inner) := by
  induction fuel generalizing iterator place block inner with
  | zero => omega
  | succ fuel ih =>
    rcases loaded.data.wraps.behaves with ⟨_, isState, _⟩
    cases inner with
    | some inner =>
      refine ⟨iterator, ?_, route.here place inner ▸ loaded.at_some marked⟩
      simp [skipEmptyDataBlocks, loaded.valid, Option.mem_def.mp isState]
    | none =>
      have inside := (List.getElem?_eq_some_iff.mp loaded.here).1
      have valid : iterator.indexIter.valid = true := by
        rw [loaded.index.wraps.valid]
        simp [Position.shown, indexItems, inside]
      rcases route.moves place inside with ⟨next, moves⟩
      rcases loaded.good.arrived opens moves route.finds count with
        ⟨_, middle, after, called, made, calledData, arrived, counted⟩
      have step : iterator.skipEmptyDataBlocks index data blockFunction outerCall innerCall
          count (fuel + 1) =
          after.skipEmptyDataBlocks index data blockFunction outerCall innerCall count fuel := by
        simp only [skipEmptyDataBlocks, loaded.valid, Option.isSome_none, or_true, valid, called]
        change (initDataBlock index data blockFunction _ >>= _) = _
        rw [made]
        change ((middle.callData data innerCall) >>= _) = _
        rw [calledData]
        rfl
      rw [step]
      cases next with
      | none =>
        rw [route.ends place inside moves]
        cases fuel with
        | zero => omega
        | succ fuel => exact skip_ended count fuel arrived rfl
      | some next =>
        rcases arrived with ⟨block, inner, innerMoves, nextLoaded⟩
        rcases route.goes place next block inner moves nextLoaded.here innerMoves with
          ⟨same, _⟩
        rw [same]
        refine ih nextLoaded (by omega) ?_
        rw [counted (Option.some_ne_none next)]
        exact counts _ _ _ moves marked

end

omit [DecidableEq H] in
theorem forward_counts (counts : ∀ current place, marks current place ->
      marks (current + 1) (place + 1)) (current : BitVec 32) (place next : Nat)
    (moves : Position.move (indexItems blocks) (some place) .next = .ok (some next))
    (marked : marks current place) : marks (current + 1) next := by
  simp only [Position.move, Position.after, Except.ok.injEq] at moves
  split at moves
  · cases moves
    exact counts current place marked
  · cases moves

omit [DecidableEq H] in
theorem At.current (here : At index data blocks marks iterator position) :
    iterator.dataIter.current data = Position.shown (allItems blocks) position := by
  cases position with
  | none =>
    rcases here with ⟨place, ended⟩
    simp [IteratorWrapper.current, ended.data.2, Position.shown]
  | some position =>
    rcases here with ⟨place, _, inner, loaded, rfl, _⟩
    have inside := loaded.data.inside inner rfl
    refine loaded.data.wraps.current.trans ?_
    simp only [Position.shown, Option.bind_some, allItems_split loaded.here]
    rw [offset, getElem?_append_right (Nat.le_add_right _ _), Nat.add_sub_cancel_left,
      getElem?_append_left inside]

theorem Good.goto (opens : Opens data blockFunction blocks) {place next : Option Nat}
    (good : Good index data blocks iterator place) (call : CursorCall K)
    {outerCall innerCall : CursorCall K}
    (moves : Position.move (indexItems blocks) place call = .ok next)
    (finds : ∀ items : List (K × V), ∃ found, Position.move items none call = .ok found)
    {reach : Nat -> Option Nat -> Option Nat} {rest : Nat -> Nat}
    (route : Route blocks outerCall innerCall reach rest) {fuel : Nat}
    (enough : ∀ place, place < blocks.length -> rest place + 1 < fuel) (positive : 0 < fuel)
    (ends : next = none -> position = none)
    (reaches : ∀ place block inner, next = some place -> blocks[place]? = some block ->
      Position.move block.items none call = .ok inner -> reach place inner = position)
    (reset : BitVec 32 -> BitVec 32) (count : BitVec 32 -> BitVec 32)
    (resets : ∀ place, next = some place -> marks (reset iterator.currentBlockIndex) place)
    (counts : ∀ current place next,
      Position.move (indexItems blocks) (some place) outerCall = .ok (some next) ->
        marks current place -> marks (count current) next) :
    ∃ after, (do
        let iterator <- iterator.callIndex index call
        let iterator := { iterator with currentBlockIndex := reset iterator.currentBlockIndex }
        let iterator <- iterator.initDataBlock index data blockFunction
        let iterator <- iterator.callData data call
        iterator.skipEmptyDataBlocks index data blockFunction outerCall innerCall count fuel) =
        Except.ok after ∧ At index data blocks marks after position := by
  rcases good.arrived opens moves finds reset with
    ⟨moved, middle, after, called, made, calledData, arrived, counted⟩
  have skips : ∃ final, after.skipEmptyDataBlocks index data blockFunction outerCall innerCall
      count fuel = .ok final ∧ At index data blocks marks final position := by
    cases next with
    | none =>
      rw [ends rfl]
      cases fuel with
      | zero => omega
      | succ fuel => exact skip_ended count fuel arrived rfl
    | some place =>
      rcases arrived with ⟨block, inner, innerMoves, loaded⟩
      have inside := (List.getElem?_eq_some_iff.mp loaded.here).1
      rw [<- reaches place block inner rfl loaded.here innerMoves]
      refine skip_loaded count opens route fuel loaded (enough place inside) counts ?_
      rw [counted (Option.some_ne_none place)]
      exact resets place rfl
  rcases skips with ⟨final, skipped, there⟩
  exact ⟨final, bind_eq_ok.mpr ⟨moved, called, bind_eq_ok.mpr ⟨middle, made,
    bind_eq_ok.mpr ⟨after, calledData, skipped⟩⟩⟩, there⟩

section
variable (opens : Opens data blockFunction blocks) {fuel : Nat} (enough : blocks.length + 1 < fuel)
include opens enough

theorem seekToFirst_at (counts : ∀ current place, marks current place ->
      marks (current + 1) (place + 1)) (zero : marks 0 0)
    (here : At index data blocks marks iterator position) :
    ∃ after, iterator.seekToFirst index data blockFunction fuel = .ok after ∧
      At index data blocks marks after (Position.after (allItems blocks) 0) := by
  rcases here.good with ⟨place, good⟩
  have start {place : Nat} (first : Position.after (indexItems blocks) 0 = some place) :
      place = 0 := by
    simp only [Position.after] at first
    split at first
    · exact (Option.some.inj first).symm
    · cases first
  refine good.goto opens .seekToFirst rfl (fun _ => ⟨_, rfl⟩) forwardRoute
    (fun place inside => by omega) (by omega) (fun none => ?_) ?_ (fun _ => 0) _
    (fun place first => (start first).symm ▸ zero) (forward_counts counts)
  · cases blocks with
    | nil => rfl
    | cons block blocks => cases none
  · intro place _ _ first here moves
    cases start first
    cases moves
    rw [forwardFrom_after here (Nat.zero_le _)]
    rfl

theorem seekToLast_at (here : At index data blocks AnyCount iterator position) :
    ∃ after, iterator.seekToLast index data blockFunction fuel = .ok after ∧
      At index data blocks AnyCount after
        (Position.before (allItems blocks).length) := by
  rcases here.good with ⟨place, good⟩
  refine good.goto opens .seekToLast rfl (fun _ => ⟨_, rfl⟩) backwardRoute
    (fun place inside => by omega) (by omega) (fun none => ?_) ?_ (fun count => count) _
    (fun _ _ => trivial) (fun _ _ _ _ _ => trivial)
  · cases blocks with
    | nil => rfl
    | cons block blocks => cases none
  · intro place _ _ last here moves
    have final : place + 1 = blocks.length := by
      rw [length_indexItems] at last
      generalize blocks.length = size at last
      cases size with
      | zero => cases last
      | succ count =>
        cases last
        rfl
    cases moves
    rw [backwardFrom_before, <- offset_succ here, offset_of_length_le (le_of_eq final.symm)]

theorem seek_at (indexed : Indexed blocks)
    (here : At index data blocks AnyCount iterator position) (target : K) :
    ∃ after, iterator.seek index data blockFunction fuel target = .ok after ∧
      At index data blocks AnyCount after
        ((allItems blocks).findIdx? (fun item => target ≤ item.1)) := by
  rcases here.good with ⟨place, good⟩
  refine good.goto opens (.seek target) rfl (fun _ => ⟨_, rfl⟩) forwardRoute
    (fun place inside => by omega) (by omega) (fun none => ?_) ?_ (fun count => count) _
    (fun _ _ => trivial) (fun _ _ _ _ _ => trivial)
  · refine below_of_indexKey indexed (fun _ member => member) (fun block member => ?_)
    have below := findIdx?_eq_none_iff.mp none (block.indexKey, block.handle)
      (mem_map_of_mem member)
    exact not_le.mp (of_decide_eq_false below)
  · intro _ _ _ found here moves
    cases moves
    rw [indexItems, findIdx?_map, findIdx?_eq_some_iff_getElem] at found
    rcases found with ⟨_, reaches, first⟩
    rcases List.getElem?_eq_some_iff.mp here with ⟨_, rfl⟩
    refine forwardFrom_findIdx indexed here (of_decide_eq_true reaches) (fun earlier member => ?_)
    rcases mem_take_iff_getElem.mp member with ⟨index, _, rfl⟩
    have below := first index (by omega)
    simpa using below

theorem next_at (counts : ∀ current place, marks current place ->
      marks (current + 1) (place + 1)) {position : Nat}
    (here : At index data blocks marks iterator (some position)) :
    ∃ after, iterator.next index data blockFunction fuel = .ok after ∧
      At index data blocks marks after (Position.after (allItems blocks) (position + 1)) := by
  rcases here with ⟨_, block, inner, loaded, rfl, marked⟩
  have moves : Position.move block.items (some inner) .next =
      .ok (Position.after block.items (inner + 1)) := rfl
  rcases loaded.callData moves with ⟨dataIter, called, moved⟩
  rcases skip_loaded (fun count => count + 1) opens forwardRoute fuel moved
    (by omega) (forward_counts counts) marked with ⟨after, skipped, there⟩
  rw [forwardFrom_after loaded.here (loaded.data.inside inner rfl)] at there
  exact ⟨after, assertThat_bind_eq_ok.mpr
    ⟨loaded.valid, bind_eq_ok.mpr ⟨dataIter, called, skipped⟩⟩,
    there⟩

theorem prev_at {position : Nat}
    (here : At index data blocks AnyCount iterator (some position)) :
    ∃ after, iterator.prev index data blockFunction fuel = .ok after ∧
      At index data blocks AnyCount after (Position.before position) := by
  rcases here with ⟨_, block, inner, loaded, rfl, marked⟩
  have moves : Position.move block.items (some inner) .prev = .ok (Position.before inner) := rfl
  rcases loaded.callData moves with ⟨dataIter, called, moved⟩
  have inside := (List.getElem?_eq_some_iff.mp loaded.here).1
  rcases skip_loaded (fun count => if count > 0 then count - 1 else count) opens
    backwardRoute fuel moved (by omega) (fun _ _ _ _ _ => trivial) marked with
    ⟨after, skipped, there⟩
  rw [backwardFrom_before] at there
  exact ⟨after, assertThat_bind_eq_ok.mpr
    ⟨loaded.valid, bind_eq_ok.mpr ⟨dataIter, called, skipped⟩⟩,
    there⟩

/-- From a position on the scan gives the rest of the items with the numbers of their blocks. -/
theorem scanFrom_at (count : Nat) {position : Nat}
    (here : At index data blocks IsCount iterator
      (Position.after (allItems blocks) position))
    (long : (allItems blocks).length ≤ position + count) :
    iterator.scanFrom index data blockFunction fuel (count + 1) =
      .ok ((numberedItems blocks).drop position) := by
  induction count generalizing iterator position with
  | zero =>
    have ended : Position.after (allItems blocks) position = none := if_neg (by omega)
    rw [ended] at here
    rw [drop_of_length_le (by rw [length_numberedItems]; exact long), scanFrom, here.current]
    rfl
  | succ count ih =>
    by_cases inside : position < (allItems blocks).length
    · have shown : Position.after (allItems blocks) position = some position := if_pos inside
      rw [shown] at here
      have current := here.current
      rcases next_at opens enough IsCount.succ here with ⟨following, moved, there⟩
      rcases here with ⟨place, block, inner, loaded, isPosition, counted⟩
      have isItem := getElem?_numberedItems loaded.here (loaded.data.inside inner rfl)
      rw [<- isPosition, <- counted] at isItem
      have item : block.items[inner]? = Position.shown (allItems blocks) (some position) := by
        rw [<- current, loaded.data.wraps.current]
        rfl
      rw [item] at isItem
      have within : position < (numberedItems blocks).length :=
        (length_numberedItems blocks).symm ▸ inside
      rw [getElem?_eq_getElem within] at isItem
      rcases Option.map_eq_some_iff.mp isItem.symm with ⟨found, isFound, same⟩
      rw [drop_eq_getElem_cons within, <- same, scanFrom, current, isFound]
      exact bind_eq_ok.mpr ⟨following, moved, bind_eq_ok.mpr ⟨_, ih there (by omega), rfl⟩⟩
    · have ended : Position.after (allItems blocks) position = none := if_neg inside
      rw [ended] at here
      rw [drop_of_length_le (by rw [length_numberedItems]; omega), scanFrom, here.current]
      rfl

/-- A scan of the whole table gives all its items.  The count that is read with an item is the
number of the block that has the item, empty blocks included, as far as 32 bits go. -/
theorem scan_eq {indexIter : ι} (cursor : index.IsCursor (indexItems blocks) indexIter)
    {count : Nat} (long : (allItems blocks).length ≤ count) :
    (new index indexIter).scan index data blockFunction fuel count =
      .ok (numberedItems blocks) := by
  rcases seekToFirst_at opens enough IsCount.succ rfl (at_new cursor) with
    ⟨first, sought, here⟩
  exact bind_eq_ok.mpr ⟨first, sought, scanFrom_at opens enough count here (by omega)⟩

theorem follows (indexed : Indexed blocks) :
    (toIterator index data blockFunction fuel).Follows (Position.move (allItems blocks))
      (Position.shown (allItems blocks)) (At index data blocks AnyCount) := by
  refine ⟨fun iterator position here => here.current, fun iterator position here => ?_, ?_⟩
  · rcases here.good with ⟨_, good⟩
    have data : iterator.dataIter.iter.bind data.status = none := by
      cases isOld : iterator.dataIter.iter with
      | none => rfl
      | some old => exact good.quiet old isOld
    simp [toIterator, good.index.wraps.status, data, good.status]
  · intro _ position call next here moves
    cases call with
    | seekToFirst =>
      cases moves
      exact seekToFirst_at opens enough (fun _ _ _ => trivial) trivial here
    | seekToLast =>
      cases moves
      exact seekToLast_at opens enough here
    | seek target =>
      cases moves
      exact seek_at opens enough indexed here target
    | next =>
      cases position with
      | none => cases moves
      | some position =>
        cases moves
        exact next_at opens enough (fun _ _ _ => trivial) here
    | prev =>
      cases position with
      | none => cases moves
      | some position =>
        cases moves
        exact prev_at opens enough here

end

/-- `Next` and `Prev` assert `Valid()`. -/
theorem call_refused {fuel : Nat}
    (here : At index data blocks AnyCount iterator position)
    (refused : Position.move (allItems blocks) position call = .error ()) :
    (toIterator index data blockFunction fuel).call iterator call = .error "Valid()" := by
  cases position with
  | some position => cases call <;> cases refused
  | none =>
    rcases here with ⟨_, ended⟩
    have invalid : ¬ iterator.dataIter.valid = true := by
      rw [ended.data.2]
      exact Bool.false_ne_true
    cases call with
    | seekToFirst => cases refused
    | seekToLast => cases refused
    | seek target => cases refused
    | next =>
      simp only [toIterator, next, assertThat_of_not invalid]
      rfl
    | prev =>
      simp only [toIterator, prev, assertThat_of_not invalid]
      rfl

/-- Over cursors for the blocks and for their index, any sequence of calls makes the
two-level iterator show what a cursor over the items of all blocks shows, and fails its
assertion exactly where that cursor is not at an item.  The loops need one pass for each
block. -/
theorem run_eq_position_run (index : Iterator ι K H) (data : Iterator ρ K V)
    (blockFunction : H -> ρ) (blocks : List (DataBlock K H V)) (indexIter : ι)
    (indexed : Indexed blocks) (cursor : index.IsCursor (indexItems blocks) indexIter)
    (cursors : ∀ block ∈ blocks, data.IsCursor block.items (blockFunction block.handle))
    (fuel : Nat) (enough : blocks.length + 1 < fuel) (calls : List (CursorCall K)) :
    (((toIterator index data blockFunction fuel).run (new index indexIter) calls).map
        (toIterator index data blockFunction fuel).current).toOption =
      ((Position.run (allItems blocks) calls).map (Position.shown (allItems blocks))).toOption :=
  (follows ⟨indexed.handles, cursors⟩ enough indexed).run_current
    (fun _ _ _ here refused => ⟨_, call_refused here refused⟩) (at_new cursor) calls

/-- Two blocks with an empty one between them, forward and back again. -/
theorem run_eq_position_run_threeBlocks : (((toIterator Iterator.overList Iterator.overList
          (fun handle : Nat => (if handle = 0 then [(1, 10)] else if handle = 1 then []
            else [(3, 30)], none)) 5).run
        (new Iterator.overList ([(1, 0), (2, 1), (3, 2)], none))
        [.seekToFirst, .next, .prev]).map
        (toIterator Iterator.overList Iterator.overList
          (fun handle : Nat => (if handle = 0 then [(1, 10)] else if handle = 1 then []
            else [(3, 30)], none)) 5).current).toOption = some (some (1, 10)) := by
  have indexed : Indexed [(⟨1, 0, [(1, 10)]⟩ : DataBlock Nat Nat Nat), ⟨2, 1, []⟩,
      ⟨3, 2, [(3, 30)]⟩] := by
    refine ⟨?_, ?_, by decide⟩ <;> simp
  refine (run_eq_position_run Iterator.overList Iterator.overList _ _ _ indexed
    (Iterator.overList_isCursor _) ?_ 5 (by decide) _).trans ?_
  · intro _ member
    simp only [mem_cons, not_mem_nil, or_false] at member
    rcases member with rfl | rfl | rfl <;> exact Iterator.overList_isCursor _
  · decide

end

end TwoLevelIterator

end Table
end Doux
