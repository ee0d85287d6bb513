import Doux.Util.Comparator
import Doux.Zorder.Intervals

namespace Doux
namespace Table

open Foundation Util Zorder

/-!
# The merging iterator over value tables

`VMergingIterator` in `table/merger.cc` answers a box query in MOD 10.  It has
the interval decomposition of the box in `region_` and one cursor per child
into that list, `cur_idx_`.  `Seek` moves every child to its first entry in an
interval, `Next` advances the current child and jumps to its next interval when
it has left the present one, and `FindSmallest` selects the child with the
smallest sort key.

A child is a sorted list of entries together with the suffix that starts at
its position; an invalid child has the empty suffix.  Assertions stop the run
with their text.  The comparator that breaks ties between equal sort keys is
the parameter `less`.
-/

structure Entry where
  key : VKey
  value : Bytes
deriving DecidableEq, Repr

/-- A child iterator and its interval cursor. -/
structure Child where
  entries : List Entry
  rest : List Entry
  curIdx : Nat
deriving DecidableEq, Repr

def kMaxSequenceNumber : Nat := 2 ^ 56 - 1

/-- The vkey at which a child is sought for an interval start: sixteen zero
bytes, the tag of the greatest sequence number with `kValueTypeForSeek`, and
the start. -/
def seekKey (start : BitVec 64) : VKey :=
  ⟨List.replicate 16 0, BitVec.ofNat 64 (kMaxSequenceNumber * 256 + 1), start⟩

/-- The entries from the first one that is not below the target. -/
def seekEntries (entries : List Entry) (target : VKey) : List Entry :=
  entries.dropWhile fun entry => decide (entry.key < target)

namespace Child

def seek (child : Child) (target : VKey) : Child :=
  { child with rest := seekEntries child.entries target }

def next (child : Child) : Child :=
  { child with rest := child.rest.tail }

/-- The loop of `SeekToFirstInterval` over the intervals from position `idx`. -/
def seekToFirstIntervalLoop : List Interval -> Nat -> Child -> Child
  | [], idx, child => { child with curIdx := idx }
  | interval :: intervals, idx, child =>
    let child := child.seek (seekKey interval.start)
    match child.rest with
    | entry :: _ =>
      if entry.key.sortKey ≤ interval.end_ then
        { child with curIdx := idx }
      else
        seekToFirstIntervalLoop intervals (idx + 1) child
    | [] => seekToFirstIntervalLoop intervals (idx + 1) child

def seekToFirstInterval (region : List Interval) (child : Child) : Child :=
  seekToFirstIntervalLoop region 0 child

/-- The loop of `JumpNext` over the intervals from position `idx`. -/
def jumpNextLoop : List Interval -> Nat -> Child -> Except String Child
  | [], idx, child => .ok { child with curIdx := idx }
  | interval :: intervals, idx, child =>
    let child := child.seek (seekKey interval.start)
    match child.rest with
    | entry :: _ => do
      assertThat (entry.key.sortKey ≤ interval.end_) "found_sort_key <= cur_interval.end_"
      return { child with curIdx := idx }
    | [] => jumpNextLoop intervals (idx + 1) child

def jumpNext (region : List Interval) (child : Child) : Except String Child :=
  jumpNextLoop (region.drop (child.curIdx + 1)) (child.curIdx + 1) child

/-- The part of `VMergingIterator::Next` that works on the current child. -/
def advance (region : List Interval) (child : Child) : Except String Child :=
  match child.next.rest, region[child.curIdx]? with
  | entry :: _, some interval =>
    if entry.key.sortKey > interval.end_ then
      jumpNext region child.next
    else
      .ok child.next
  | _ :: _, none => .error "region_.intervals_ out of range"
  | [], _ => .ok child.next

end Child

/-- The variables of the loop in `FindSmallest`. -/
structure Smallest where
  smallest : Option (Nat × VKey)
  sortKey : BitVec 64

section
variable (less : VKey -> VKey -> Bool) (region : List Interval)

/-- Whether `FindSmallest` prefers a key to the best one so far. -/
def prefers (key : VKey) (best : Smallest) : Bool :=
  decide (key.sortKey < best.sortKey) || (decide (key.sortKey = best.sortKey) &&
      match best.smallest with
      | none => true
      | some (_, smallest) => less key smallest)

def findSmallestLoop : List Child -> Nat -> Smallest -> Except String Smallest
  | [], _, best => .ok best
  | child :: children, i, best =>
    match region[child.curIdx]?, child.rest with
    | some interval, entry :: _ => do
      assertThat (entry.key.sortKey ≥ interval.start ∧ entry.key.sortKey ≤ interval.end_)
        "sort_key >= interval.start_ && sort_key <= interval.end_"
      findSmallestLoop children (i + 1)
        (if prefers less entry.key best then ⟨some (i, entry.key), entry.key.sortKey⟩
          else best)
    | _, _ => findSmallestLoop children (i + 1) best

/-- The position of the selected child, if any child is left. -/
def findSmallest (children : List Child) : Except String (Option Nat) := do
  let best <- findSmallestLoop less region children 0 ⟨none, BitVec.ofNat 64 (2 ^ 64 - 1)⟩
  return best.smallest.map Prod.fst

/-- `current` is the pair of `current_` and `pos_`. -/
structure VMergingIterator where
  children : List Child
  current : Option Nat
deriving DecidableEq

/-- `VMergingIterator::Seek` in MOD 10; it does not look at its target. -/
def vSeek (children : List Child) : Except String VMergingIterator := do
  let children := children.map (Child.seekToFirstInterval region)
  let current <- findSmallest less region children
  return ⟨children, current⟩

/-- `VMergingIterator::Next` in MOD 10. -/
def vNext (iterator : VMergingIterator) : Except String VMergingIterator := do
  match iterator.current with
  | none => .error "Valid()"
  | some pos =>
    match iterator.children[pos]? with
    | none => .error "children_ out of range"
    | some child => do
      let child <- child.advance region
      let children := iterator.children.set pos child
      let current <- findSmallest less region children
      return ⟨children, current⟩

def currentEntry (iterator : VMergingIterator) : Option Entry := do
  let pos <- iterator.current
  let child <- iterator.children[pos]?
  child.rest.head?

/-- Reading the iterator: take the current entry, then call `Next`. -/
def readBody (state : VMergingIterator × List Entry) :
    LoopStep (VMergingIterator × List Entry) (Except String (List Entry)) :=
  match currentEntry state.1 with
  | none => .done (.ok state.2)
  | some entry =>
    match vNext less region state.1 with
    | .error text => .done (.error text)
    | .ok iterator => .again (iterator, state.2 ++ [entry])

/-- Build the iterator with `NewVMergingIterator`, call `Seek` with a target
and then `Next` until the iterator is invalid, collecting the entries. -/
def scan (fuel : Nat) (target : VKey) (tables : List (List Entry)) :
    Option (Except String (List Entry)) :=
  match tables with
  | [] => some (.ok [])
  | [only] => some (.ok (seekEntries only target))
  | tables =>
    match vSeek less region (tables.map fun entries => ⟨entries, [], 0⟩) with
    | .error text => some (.error text)
    | .ok iterator => runLoop (readBody less region) fuel (iterator, [])

end

end Table
end Doux
