import Doux.Foundation.Control
import Doux.Util.Coding

namespace Doux
namespace Table

open Foundation Util List

/-!
# Blocks

A block is a sequence of entries with a restart array: the byte offset of every
entry at which a reader may start.  The builder begins a restart point whenever the
restart interval is used up.

This module has the builder of a block and the three ways in which lookups enter
one: `Seek`, which searches the restart points before it scans, `SeekToNth`, and a
scan from the first entry.  Entries are kept as they are; of their bytes only the
sizes matter here.
-/

/-- What a builder knows of its entries: how long keys and values are, and whether
the comparator puts one entry before another. -/
structure Format (α : Type) where
  keySize : α -> Nat
  valueSize : α -> Nat
  less : α -> α -> Bool

/-- The bytes that `BlockBuilder::Add` appends for an entry.  Keys share no prefix, so
the first length is always zero. -/
def Format.encodedSize {α : Type} (format : Format α) (entry : α) : Nat :=
  (encodeVarint32 0).length + (encodeVarint32 (format.keySize entry % 2 ^ 32)).length +
    (encodeVarint32 (format.valueSize entry % 2 ^ 32)).length + format.keySize entry +
    format.valueSize entry

/-- The options that decide where a block ends and where its restart points are. -/
structure BlockOptions where
  blockSize : Nat
  blockRestartInterval : Nat

/-- A restart point: the byte offset that the block stores, and the position of the
entry that begins there. -/
structure Restart where
  offset : Nat
  position : Nat
deriving DecidableEq

/-- A finished block. -/
structure Block (α : Type) where
  entries : List α
  restarts : List Restart
deriving DecidableEq

/-- A block under construction. -/
structure BlockBuilder (α : Type) where
  bufferSize : Nat
  restarts : List Restart
  counter : Nat
  entries : List α

section
variable {α : Type}

namespace BlockBuilder

def new : BlockBuilder α := ⟨0, [⟨0, 0⟩], 0, []⟩

/-- `BlockBuilder::Add`. -/
def add (format : Format α) (options : BlockOptions) (block : BlockBuilder α) (entry : α) :
    BlockBuilder α :=
  if block.counter < options.blockRestartInterval then
    ⟨block.bufferSize + format.encodedSize entry, block.restarts, block.counter + 1,
      block.entries ++ [entry]⟩
  else
    ⟨block.bufferSize + format.encodedSize entry,
      block.restarts ++ [⟨block.bufferSize, block.entries.length⟩], 1, block.entries ++ [entry]⟩

def currentSizeEstimate (block : BlockBuilder α) : Nat :=
  block.bufferSize + block.restarts.length * 4 + 4

/-- `BlockBuilder::Finish`. -/
def finish (block : BlockBuilder α) : Block α := ⟨block.entries, block.restarts⟩

theorem add_entries (format : Format α) (options : BlockOptions) (block : BlockBuilder α)
    (entry : α) : (block.add format options entry).entries = block.entries ++ [entry] := by
  unfold add
  split <;> rfl

end BlockBuilder

namespace Block

/-- The binary search of `Seek` for the last restart point whose key is below the
target.  `below` is the comparison of an entry with the target. -/
def seekLoop (below : α -> Bool) (block : Block α) : Nat -> Nat -> Nat -> Nat
  | 0, left, _ => left
  | fuel + 1, left, right =>
    if left < right then
      let mid := (left + right + 1) / 2
      if ∃ restart ∈ block.restarts[mid]?, ∃ entry ∈ block.entries[restart.position]?,
          below entry = true then
        seekLoop below block fuel mid right
      else seekLoop below block fuel left (mid - 1)
    else left

/-- The entry at which `Seek` stops: the first one from the restart point on that is
not below the target. -/
def seek (below : α -> Bool) (block : Block α) : Option α :=
  let index := seekLoop below block block.restarts.length 0 (block.restarts.length - 1)
  let position := (block.restarts[index]?.map Restart.position).getD 0
  (block.entries.drop position).find? (fun entry => !below entry)

/-- The first loop of `SeekToNth`.  It adds up byte offsets as if they were numbers of
entries, and gives up at the end of the restart array. -/
def nthRestart (offset : Nat) : List Restart -> Nat -> Except String (Nat × Restart)
  | [], _ => .error "index < num_restarts_"
  | restart :: later, curOffset =>
    if curOffset + restart.offset < offset then
      nthRestart offset later (curOffset + restart.offset)
    else .ok (curOffset, restart)

/-- The entry at which `SeekToNth` stops: it goes on from the restart point until the
count is reached, at most to the last entry. -/
def seekToNth (block : Block α) (offset : Nat) : Except String (Option α) := do
  let found <- nthRestart offset block.restarts 0
  return block.entries[min (found.2.position + (offset - found.1)) (block.entries.length - 1)]?

/-- The restart point that the search returns is the first one, or its entry is below
the target. -/
theorem seekLoop_spec (below : α -> Bool) (block : Block α) (fuel left right : Nat)
    (start : left = 0 ∨ ∃ restart ∈ block.restarts[left]?,
      ∃ entry ∈ block.entries[restart.position]?, below entry = true) :
    seekLoop below block fuel left right = 0 ∨
      ∃ restart ∈ block.restarts[seekLoop below block fuel left right]?,
        ∃ entry ∈ block.entries[restart.position]?, below entry = true := by
  induction fuel generalizing left right with
  | zero => exact start
  | succ fuel ih =>
    rw [seekLoop]
    split
    · dsimp only
      split
      · next isBelow => exact ih _ _ (Or.inr isBelow)
      · exact ih _ _ start
    · exact start

/-- The entries below the target come first. -/
def Split (below : α -> Bool) (entries : List α) : Prop :=
  entries.Pairwise (fun first second => below second = true -> below first = true)

theorem Split.find_drop {below : α -> Bool} {entries : List α} (split : Split below entries)
    {position : Nat} (reached : ∃ entry ∈ entries[position]?, below entry = true) :
    (entries.drop position).find? (fun entry => !below entry) =
      entries.find? (fun entry => !below entry) := by
  rcases reached with ⟨entry, atPosition, isBelow⟩
  rw [<- head?_drop] at atPosition
  rw [Split, <- take_append_drop position entries, pairwise_append] at split
  have noneEarlier : (entries.take position).find? (fun entry => !below entry) = none := by
    rw [find?_eq_none]
    intro other member
    simp [split.2.2 other member entry (mem_of_head? atPosition) isBelow]
  conv_rhs => rw [<- take_append_drop position entries, find?_append, noneEarlier, Option.none_or]

theorem seek_eq {below : α -> Bool} {block : Block α} (split : Split below block.entries)
    (first : ∃ restart ∈ block.restarts[0]?, restart.position = 0) :
    block.seek below = block.entries.find? (fun entry => !below entry) := by
  unfold seek
  dsimp only
  rcases seekLoop_spec below block block.restarts.length 0 (block.restarts.length - 1)
    (Or.inl rfl) with zero | ⟨restart, atIndex, reached⟩
  · rcases first with ⟨_, atZero, position⟩
    rw [zero, atZero, Option.map_some, Option.getD_some, position, drop_zero]
  · rw [atIndex]
    exact split.find_drop reached

end Block

end

end Table
end Doux
