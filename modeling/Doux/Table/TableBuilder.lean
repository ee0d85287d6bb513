import Doux.Table.Block

namespace Doux
namespace Table

open Foundation Util List

/-!
# Tables

A table is a sequence of blocks, written by a builder that closes a block as soon as
its estimated size reaches the block size.  The block in which an entry ends up
therefore depends on all entries before it, and a writer that wants to refer to an
entry asks the builder for the current block and the place in it before it adds the
entry.

The index of a table has the last key of every block.  A lookup by key goes through
the index; a lookup by position counts blocks.
-/

section
variable {α : Type}

/-- A table under construction: the blocks that are written, and the open one. -/
structure TableBuilder (α : Type) where
  blocks : List (Block α)
  dataBlock : BlockBuilder α

/-- An entry with the block and the place in the block where it is written. -/
structure Placed (α : Type) where
  entry : α
  blockNumber : Nat
  blockOffset : Nat

/-- A finished table, and where its entries are. -/
structure BuiltTable (α : Type) where
  blocks : List (Block α)
  placed : List (Placed α)

def tableEntries (blocks : List (Block α)) : List α := blocks.flatMap Block.entries

namespace TableBuilder

def new : TableBuilder α := ⟨[], .new⟩

/-- All entries added so far. -/
def entries (builder : TableBuilder α) : List α :=
  tableEntries builder.blocks ++ builder.dataBlock.entries

/-- `TableBuilder::Flush`. -/
def flush (builder : TableBuilder α) : TableBuilder α :=
  if builder.dataBlock.entries.isEmpty then builder
  else ⟨builder.blocks ++ [builder.dataBlock.finish], .new⟩

/-- `TableBuilder::Add`. -/
def add (format : Format α) (options : BlockOptions) (builder : TableBuilder α) (entry : α) :
    Except String (TableBuilder α) := do
  assertThat (∀ last ∈ builder.entries.getLast?, format.less last entry = true)
    "r->options.comparator->Compare(key, Slice(r->last_key)) > 0"
  let builder := { builder with dataBlock := builder.dataBlock.add format options entry }
  return if builder.dataBlock.currentSizeEstimate ≥ options.blockSize then builder.flush
    else builder

/-- Note `BlockNumber` and `BlockOffset`, then add the entry. -/
def place (format : Format α) (options : BlockOptions)
    (state : TableBuilder α × List (Placed α)) (entry : α) :
    Except String (TableBuilder α × List (Placed α)) := do
  let builder <- state.1.add format options entry
  return (builder, state.2 ++ [⟨entry, state.1.blocks.length, state.1.dataBlock.entries.length⟩])

end TableBuilder

/-- Add the entries to a new table and finish it. -/
def buildTable (format : Format α) (options : BlockOptions) (entries : List α) :
    Except String (BuiltTable α) := do
  let state <- entries.foldlM (TableBuilder.place format options) (TableBuilder.new, [])
  return ⟨state.1.flush.blocks, state.2⟩

/-- `Table::InternalGet`: the entry at which the search for a target stops.  The index
leads to the first block whose last entry is not below the target; the filter may
rule the block out. -/
def internalGet (below : α -> Bool) (keyMayMatch : Block α -> Bool) (blocks : List (Block α)) :
    Option α :=
  match blocks.find? (fun block => block.entries.getLast?.any (fun last => !below last)) with
  | none => none
  | some block => if keyMayMatch block then block.seek below else none

/-- The block to which an index iterator comes after `blockNumber` steps.  A step past
the end is an error, the end itself is no block. -/
def nthBlock (blocks : List (Block α)) (blockNumber : Nat) : Except String (Option (Block α)) := do
  assertThat (blockNumber ≤ blocks.length) "Valid()"
  return blocks[blockNumber]?

/-- `Table::InternalVGet`: the entry that is handed to the callback. -/
def internalVGet (blocks : List (Block α)) (blockNumber blockOffset : Nat) :
    Except String (Option α) := do
  match <- nthBlock blocks blockNumber with
  | none => return none
  | some block => block.seekToNth blockOffset

/-- `Table::MergedVGet`: the entries that may be handed to the callback, in order. -/
def mergedVGet (blocks : List (Block α)) (blockNumber : Nat) : Except String (List α) := do
  let block <- nthBlock blocks blockNumber
  return (block.map Block.entries).getD []

/-- A block that holds something and begins with a restart point. -/
structure Block.Proper (block : Block α) : Prop where
  nonempty : block.entries ≠ []
  first : ∃ restart ∈ block.restarts[0]?, restart.position = 0

theorem BlockBuilder.add_first (format : Format α) (options : BlockOptions)
    {block : BlockBuilder α} (first : ∃ restart ∈ block.restarts[0]?, restart.position = 0)
    (entry : α) :
    ∃ restart ∈ (block.add format options entry).restarts[0]?, restart.position = 0 := by
  rcases first with ⟨restart, atZero, position⟩
  refine ⟨restart, ?_, position⟩
  unfold BlockBuilder.add
  split
  · exact atZero
  · exact (getElem?_append_left (List.getElem?_eq_some_iff.mp atZero).1).trans atZero

def entryAt (blocks : List (Block α)) (blockNumber blockOffset : Nat) : Option α :=
  blocks[blockNumber]?.bind (fun block => block.entries[blockOffset]?)

variable {blocks : List (Block α)}

theorem length_le_tableEntries (filled : ∀ block ∈ blocks, block.entries ≠ []) :
    blocks.length ≤ (tableEntries blocks).length := by
  induction blocks with
  | nil => exact le_refl _
  | cons block blocks ih =>
    rcases forall_mem_cons.mp filled with ⟨here, later⟩
    have positive := length_pos_of_ne_nil here
    have rest := ih later
    rw [tableEntries, flatMap_cons, length_append, length_cons]
    rw [tableEntries] at rest
    omega

variable {blockNumber blockOffset : Nat} {entry : α}

theorem entryAt_lt (proper : ∀ block ∈ blocks, block.Proper)
    (here : entryAt blocks blockNumber blockOffset = some entry) :
    blockNumber < (tableEntries blocks).length ∧ blockOffset < (tableEntries blocks).length := by
  rcases Option.bind_eq_some_iff.mp here with ⟨block, atBlock, atEntry⟩
  have enough : blocks.length ≤ (tableEntries blocks).length :=
    length_le_tableEntries (fun block member => (proper block member).nonempty)
  have inside : block.entries.length ≤ (tableEntries blocks).length :=
    (sublist_flatten_of_mem (mem_map_of_mem (mem_of_getElem? atBlock))).length_le
  exact ⟨lt_of_lt_of_le (List.getElem?_eq_some_iff.mp atBlock).1 enough,
    lt_of_lt_of_le (List.getElem?_eq_some_iff.mp atEntry).1 inside⟩

/-- The open block as the last one. -/
def TableBuilder.allBlocks (builder : TableBuilder α) : List (Block α) :=
  builder.blocks ++ [builder.dataBlock.finish]

/-- The state of a builder after the given entries. -/
structure TableBuilder.After (format : Format α) (seen : List α)
    (state : TableBuilder α × List (Placed α)) : Prop where
  entries : state.1.entries = seen
  proper : ∀ block ∈ state.1.blocks, block.Proper
  first : ∃ restart ∈ state.1.dataBlock.restarts[0]?, restart.position = 0
  placed : state.2.map Placed.entry = seen
  located : ∀ placed ∈ state.2,
    entryAt state.1.allBlocks placed.blockNumber placed.blockOffset = some placed.entry
  ordered : seen.IsChain (fun first second => format.less first second = true)

theorem entryAt_append (more : List (Block α))
    (here : entryAt blocks blockNumber blockOffset = some entry) :
    entryAt (blocks ++ more) blockNumber blockOffset = some entry := by
  unfold entryAt at here ⊢
  rcases Option.bind_eq_some_iff.mp here with ⟨_, atNumber, atOffset⟩
  have inside := (List.getElem?_eq_some_iff.mp atNumber).1
  rw [getElem?_append_left inside, atNumber]
  exact atOffset

/-- Places stay what they are when the last block grows. -/
theorem entryAt_grow {old new : Block α} {more : List α} (grows : new.entries = old.entries ++ more)
    (here : entryAt (blocks ++ [old]) blockNumber blockOffset = some entry) :
    entryAt (blocks ++ [new]) blockNumber blockOffset = some entry := by
  unfold entryAt at here ⊢
  by_cases inside : blockNumber < blocks.length
  · rw [getElem?_append_left inside] at here ⊢
    exact here
  · rw [getElem?_append_right (Nat.le_of_not_lt inside)] at here ⊢
    cases index : blockNumber - blocks.length with
    | zero =>
      rw [index] at here
      change new.entries[blockOffset]? = some entry
      rw [grows, getElem?_append_left (List.getElem?_eq_some_iff.mp here).1]
      exact here
    | succ index =>
      rw [index] at here
      cases here

namespace TableBuilder

theorem flush_blocks (builder : TableBuilder α) (nonempty : builder.dataBlock.entries ≠ []) :
    builder.flush = ⟨builder.blocks ++ [builder.dataBlock.finish], .new⟩ := by
  unfold flush
  rw [if_neg (by simpa using nonempty)]

variable {format : Format α} {options : BlockOptions}

theorem add_eq_ok {builder next : TableBuilder α} : builder.add format options entry = .ok next <->
      (∀ last ∈ builder.entries.getLast?, format.less last entry = true) ∧
        next = (if (builder.dataBlock.add format options entry).currentSizeEstimate ≥
          options.blockSize then
            ⟨builder.blocks ++ [(builder.dataBlock.add format options entry).finish], .new⟩
          else ⟨builder.blocks, builder.dataBlock.add format options entry⟩) := by
  have nonempty : (builder.dataBlock.add format options entry).entries ≠ [] := by
    rw [BlockBuilder.add_entries]
    simp
  have flushed := flush_blocks ⟨builder.blocks, builder.dataBlock.add format options entry⟩ nonempty
  unfold add
  dsimp only
  rw [flushed]
  exact assertThat_return_eq_ok

theorem After.start : After format [] (new, []) where
  entries := rfl
  proper := nofun
  first := ⟨⟨0, 0⟩, rfl, rfl⟩
  placed := rfl
  located := nofun
  ordered := isChain_nil

/-- What a successful `Add` does to the entries and their places. -/
structure Adds (entry : α) (builder next : TableBuilder α) : Prop where
  entries : next.entries = builder.entries ++ [entry]
  kept : forall {blockNumber blockOffset old},
    entryAt builder.allBlocks blockNumber blockOffset = some old ->
    entryAt next.allBlocks blockNumber blockOffset = some old
  here : entryAt next.allBlocks builder.blocks.length builder.dataBlock.entries.length = some entry
  filled : (∀ block ∈ builder.blocks, block.entries ≠ []) ->
    ∀ block ∈ next.blocks, block.entries ≠ []

/-- The place that was noted before is where the entry is. -/
theorem adds_of_add {builder next : TableBuilder α}
    (added : builder.add format options entry = .ok next) : Adds entry builder next := by
  rcases add_eq_ok.mp added with ⟨_, built⟩
  have grows : (builder.dataBlock.add format options entry).finish.entries =
      builder.dataBlock.finish.entries ++ [entry] :=
    BlockBuilder.add_entries format options builder.dataBlock entry
  have here : entryAt (builder.blocks ++ [(builder.dataBlock.add format options entry).finish])
      builder.blocks.length builder.dataBlock.entries.length = some entry := by
    unfold entryAt
    rw [getElem?_append_right (Nat.le_refl _), Nat.sub_self]
    change (builder.dataBlock.add format options entry).finish.entries[
      builder.dataBlock.entries.length]? = some entry
    rw [grows]
    exact getElem?_concat_length
  have entries : tableEntries (builder.blocks ++
      [(builder.dataBlock.add format options entry).finish]) = builder.entries ++ [entry] := by
    rw [tableEntries, flatMap_append, flatMap_singleton, grows, <- append_assoc]
    rfl
  split at built
  · subst built
    refine ⟨(append_nil _).trans entries,
      fun old => entryAt_append _ (entryAt_grow grows old), entryAt_append _ here, ?_⟩
    intro filled block member
    rcases mem_concat.mp member with old | rfl
    · exact filled block old
    · rw [grows]
      exact append_ne_nil_of_right_ne_nil _ (cons_ne_nil _ _)
  · subst built
    refine ⟨?_, fun old => entryAt_grow grows old, here, fun filled => filled⟩
    rw [<- entries, TableBuilder.entries, tableEntries, tableEntries, flatMap_append,
      flatMap_singleton]
    rfl

theorem entryAt_flush {builder : TableBuilder α}
    (here : entryAt builder.allBlocks blockNumber blockOffset = some entry) :
    entryAt builder.flush.blocks blockNumber blockOffset = some entry := by
  by_cases empty : builder.dataBlock.entries = []
  · have flushed : builder.flush = builder := by
      unfold flush
      rw [if_pos (by rw [empty]; rfl)]
    rw [flushed]
    unfold allBlocks entryAt at here
    by_cases inside : blockNumber < builder.blocks.length
    · rw [getElem?_append_left inside] at here
      exact here
    · rw [getElem?_append_right (Nat.le_of_not_lt inside)] at here
      cases index : blockNumber - builder.blocks.length with
      | zero =>
        rw [index] at here
        change builder.dataBlock.entries[blockOffset]? = _ at here
        rw [empty] at here
        cases here
      | succ index =>
        rw [index] at here
        cases here
  · rw [flush_blocks _ empty]
    exact here

theorem After.place {seen : List α} {state next : TableBuilder α × List (Placed α)}
    (after : After format seen state)
    (placed : place format options state entry = .ok next) :
    After format (seen ++ [entry]) next := by
  rcases bind_eq_ok.mp placed with ⟨_, added, equal⟩
  cases equal
  have adds := adds_of_add added
  rcases add_eq_ok.mp added with ⟨ordered, built⟩
  have first := BlockBuilder.add_first format options after.first entry
  refine ⟨adds.entries.trans (by rw [after.entries]), ?_, ?_, ?_, ?_, ?_⟩
  · have filled := adds.filled (fun block member => (after.proper block member).nonempty)
    intro block member
    refine ⟨filled block member, ?_⟩
    split at built
    · subst built
      rcases mem_concat.mp member with old | rfl
      · exact (after.proper block old).first
      · exact first
    · subst built
      exact (after.proper block member).first
  · split at built
    · subst built
      exact ⟨⟨0, 0⟩, rfl, rfl⟩
    · subst built
      exact first
  · rw [map_append, after.placed]
    rfl
  · exact forall_mem_concat.mpr ⟨fun other old => adds.kept (after.located other old), adds.here⟩
  · rw [isChain_append]
    refine ⟨after.ordered, isChain_singleton _, ?_⟩
    rw [after.entries] at ordered
    intro last isLast head isHead
    rw [head?_cons, Option.mem_some_iff] at isHead
    rw [<- isHead]
    exact ordered last isLast

end TableBuilder

/-- A finished table has the entries in order, none of its blocks is empty, and every
entry is where its place says. -/
structure BuiltTable.Holds (format : Format α) (added : List α) (table : BuiltTable α) : Prop where
  entries : tableEntries table.blocks = added
  proper : ∀ block ∈ table.blocks, block.Proper
  placed : table.placed.map Placed.entry = added
  located : ∀ placed ∈ table.placed,
    entryAt table.blocks placed.blockNumber placed.blockOffset = some placed.entry
  ordered : added.IsChain (fun first second => format.less first second = true)

variable {entries : List α}

theorem buildTable_eq_ok {format : Format α} {options : BlockOptions}
    {table : BuiltTable α} (built : buildTable format options entries = .ok table) :
    table.Holds format entries := by
  rcases bind_eq_ok.mp built with ⟨state, run, equal⟩
  cases equal
  have after : TableBuilder.After format entries state :=
    foldlM_invariant (TableBuilder.After format) (fun _ _ _ _ => TableBuilder.After.place)
      TableBuilder.After.start run
  have located : ∀ placed ∈ state.2,
      entryAt state.1.flush.blocks placed.blockNumber placed.blockOffset = some placed.entry :=
    fun placed member => TableBuilder.entryAt_flush (after.located placed member)
  have all := after.entries
  unfold TableBuilder.entries at all
  by_cases empty : state.1.dataBlock.entries = []
  · have flushed : state.1.flush = state.1 := by
      unfold TableBuilder.flush
      rw [if_pos (by rw [empty]; rfl)]
    rw [flushed] at located ⊢
    rw [empty, append_nil] at all
    exact ⟨all, after.proper, after.placed, located, after.ordered⟩
  · rw [TableBuilder.flush_blocks _ empty] at located ⊢
    refine ⟨?_, ?_, after.placed, located, after.ordered⟩
    · rw [<- all, tableEntries, flatMap_append, flatMap_singleton]
      rfl
    · exact forall_mem_concat.mpr ⟨after.proper, ⟨empty, after.first⟩⟩

theorem buildTable_total {format : Format α} (options : BlockOptions)
    (ordered : entries.IsChain (fun first second => format.less first second = true)) :
    ∃ table, buildTable format options entries = .ok table := by
  have run (later seen : List α) (state : TableBuilder α × List (Placed α))
      (after : TableBuilder.After format seen state)
      (chain : (seen ++ later).IsChain (fun first second => format.less first second = true)) :
      ∃ finish, later.foldlM (TableBuilder.place format options) state = .ok finish := by
    induction later generalizing seen state with
    | nil => exact ⟨state, rfl⟩
    | cons entry later ih =>
      have above : ∀ last ∈ state.1.entries.getLast?, format.less last entry = true := by
        rw [after.entries]
        intro last isLast
        exact (isChain_append.mp chain).2.2 last isLast entry rfl
      have added : state.1.add format options entry = .ok _ :=
        TableBuilder.add_eq_ok.mpr ⟨above, rfl⟩
      rcases (⟨_, bind_eq_ok.mpr ⟨_, added, rfl⟩⟩ : ∃ next,
        TableBuilder.place format options state entry = .ok next) with ⟨_, placed⟩
      rw [append_cons] at chain
      rcases ih _ _ (after.place placed) chain with ⟨finish, rest⟩
      exact ⟨finish, by rw [foldlM_cons]; exact bind_eq_ok.mpr ⟨_, placed, rest⟩⟩
  rcases run entries [] _ TableBuilder.After.start ordered with ⟨state, folded⟩
  exact ⟨_, bind_eq_ok.mpr ⟨state, folded, rfl⟩⟩

/-- How many blocks are closed when the entries are added, and the block that is open then.
Nothing but the sizes of the entries and the options decides where a block ends. -/
def cut (format : Format α) (options : BlockOptions) (entries : List α) : Nat × BlockBuilder α :=
  entries.foldl (fun state entry =>
    if (state.2.add format options entry).currentSizeEstimate ≥ options.blockSize then
      (state.1 + 1, .new)
    else (state.1, state.2.add format options entry)) (0, .new)

/-- The number of the block that gets the entry after the given ones. -/
def closedBlocks (format : Format α) (options : BlockOptions) (entries : List α) : Nat :=
  (cut format options entries).1

/-- After some entries the builder is where `cut` says, and so it was at each entry. -/
structure TableBuilder.Cuts (format : Format α) (options : BlockOptions) (seen : List α)
    (state : TableBuilder α × List (Placed α)) : Prop where
  count : state.2.length = seen.length
  cut : (state.1.blocks.length, state.1.dataBlock) = cut format options seen
  numbers : ∀ index, ∀ place ∈ state.2[index]?,
    place.blockNumber = closedBlocks format options (seen.take index)

theorem TableBuilder.Cuts.place {format : Format α} {options : BlockOptions} {seen : List α}
    {state next : TableBuilder α × List (Placed α)} (cuts : Cuts format options seen state)
    (placed : place format options state entry = .ok next) :
    Cuts format options (seen ++ [entry]) next := by
  rcases bind_eq_ok.mp placed with ⟨_, added, equal⟩
  cases equal
  refine ⟨by rw [length_append, length_append, cuts.count]; rfl, ?_, ?_⟩
  · rw [(add_eq_ok.mp added).2, Table.cut, foldl_append, foldl_cons, foldl_nil, <- Table.cut,
      <- cuts.cut]
    split
    · rw [length_append]
      rfl
    · rfl
  · intro index place found
    by_cases inside : index < state.2.length
    · rw [getElem?_append_left inside] at found
      rw [take_append_of_le_length (cuts.count ▸ inside.le)]
      exact cuts.numbers index place found
    · have last : index = state.2.length := by
        have bound := (List.getElem?_eq_some_iff.mp found).1
        rw [length_append, length_singleton] at bound
        omega
      rw [last, getElem?_concat_length] at found
      cases found
      rw [last, cuts.count, take_left]
      exact congrArg Prod.fst cuts.cut

/-- The noted number of a block is how many blocks the earlier entries have closed. -/
theorem blockNumber_of_buildTable {format : Format α} {options : BlockOptions}
    {table : BuiltTable α} (built : buildTable format options entries = .ok table)
    {index : Nat} {place : Placed α} (here : table.placed[index]? = some place) :
    place.blockNumber = closedBlocks format options (entries.take index) := by
  rcases bind_eq_ok.mp built with ⟨state, run, equal⟩
  cases equal
  have start : TableBuilder.Cuts format options [] (.new, []) := ⟨rfl, rfl, fun _ => nofun⟩
  have all : TableBuilder.Cuts format options ([] ++ entries) state :=
    foldlM_invariant (TableBuilder.Cuts format options)
      (fun _ _ _ _ => TableBuilder.Cuts.place) start run
  exact all.numbers index place here

/-! ## What a lookup by key finds -/

theorem Block.Split.all_below {below : α -> Bool} (split : Block.Split below entries)
    (last : entries.getLast?.any (fun last => !below last) = false) :
    ∀ entry ∈ entries, below entry = true := by
  rcases eq_nil_or_concat' entries with rfl | ⟨_, _, rfl⟩
  · exact nofun
  · rw [getLast?_concat, Option.any_some, Bool.not_eq_false'] at last
    exact forall_mem_concat.mpr
      ⟨fun entry earlier => (pairwise_concat.mp split).2 entry earlier last, last⟩

variable {keyMayMatch : Block α -> Bool}

theorem internalGet_mem {below : α -> Bool}
    (found : internalGet below keyMayMatch blocks = some entry) : entry ∈ tableEntries blocks := by
  unfold internalGet at found
  split at found
  · cases found
  · next block isBlock =>
      split at found
      · refine mem_flatMap.mpr ⟨block, mem_of_find?_eq_some isBlock, ?_⟩
        exact mem_of_mem_drop (mem_of_find?_eq_some found)
      · cases found

/-- A lookup stops at the first entry that is not below the target, unless the filter
rules out a block without a wanted entry. -/
theorem internalGet_eq {below wanted : α -> Bool} (split : Block.Split below (tableEntries blocks))
    (proper : ∀ block ∈ blocks, block.Proper)
    (sound : ∀ block ∈ blocks, (∃ entry ∈ block.entries, wanted entry = true) ->
      keyMayMatch block = true) : (internalGet below keyMayMatch blocks).filter wanted =
      ((tableEntries blocks).find? (fun entry => !below entry)).filter wanted := by
  unfold internalGet
  induction blocks with
  | nil => rfl
  | cons block blocks ih =>
    rw [tableEntries, flatMap_cons] at split ⊢
    rcases pairwise_append.mp split with ⟨here, later, _⟩
    rw [find?_append]
    cases reaches : block.entries.getLast?.any (fun last => !below last) with
    | false =>
      have passed : block.entries.find? (fun entry => !below entry) = none := by
        rw [find?_eq_none]
        intro entry member
        simp [Block.Split.all_below here reaches entry member]
      rw [find?_cons_of_neg (by simp [reaches]), passed]
      exact ih later (fun other member => proper other (mem_cons_of_mem _ member))
        (fun other member => sound other (mem_cons_of_mem _ member))
    | true =>
      rw [find?_cons_of_pos (p := fun block : Block α =>
        block.entries.getLast?.any (fun last => !below last)) reaches]
      have found := Block.seek_eq here (proper block mem_cons_self).first
      rcases (Option.any_eq_true_iff_get _ _).mp reaches with ⟨isSome, above⟩
      have isLast := Option.some_get isSome
      have some := find?_isSome (p := fun entry => !below entry).mpr
        ⟨_, mem_of_getLast? isLast.symm, above⟩
      rcases Option.isSome_iff_exists.mp some with ⟨entry, isFirst⟩
      rw [isFirst, Option.some_or]
      dsimp only
      rw [found, isFirst]
      split
      · rfl
      · next ruledOut =>
          have unwanted : ¬ wanted entry = true := fun isWanted =>
            ruledOut (sound block mem_cons_self ⟨entry, mem_of_find?_eq_some isFirst, isWanted⟩)
          rw [Option.filter_some, if_neg unwanted]
          rfl

end

end Table
end Doux
