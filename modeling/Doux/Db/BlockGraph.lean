import Doux.Db.VCompactionWork

namespace Doux
namespace Db

open Foundation List

/-!
# Chains and ranges of the block graph

`LookupBlock` follows the mappings from block to block, but at most ten of them.

`AddMapping` and `DecrementRangeRef` work on the blocks of a range.  Block numbers have 32
bits: the range of all blocks has size zero, and a loop up to the last block never ends.
-/

namespace BlockGraph

/-- The most mappings that `LookupBlock` follows. -/
def maxRedirect : Nat := 10

/-- Where an entry leads.  Its key is the location that was looked up, so the offset into
the new range is zero. -/
def redirect (entry : MappingEntry) : BlockLocation :=
  ⟨entry.newFileNumber, entry.newBlockRange.startBlock⟩

/-- The loop of `LookupBlock` with the passes and the redirects so far. -/
def lookupLoop (graph : BlockGraph) (original : BlockLocation) :
    Nat -> Nat -> BlockLocation -> BlockLocation × Bool × Nat
  | 0, redirects, location => (location, true, redirects)
  | passes + 1, redirects, location =>
    match graph location with
    | none => (location, decide (location ≠ original), redirects)
    | some entry =>
      if 0 ≥ entry.newBlockRange.size then (location, decide (location ≠ original), redirects)
      else lookupLoop graph original passes (redirects + 1) (redirect entry)

/-- `DependencyGraph::LookupBlock`: the location, whether it is another one, and the
number of redirects. -/
def lookupBlock (graph : BlockGraph) (location : BlockLocation) : BlockLocation × Bool × Nat :=
  lookupLoop graph location maxRedirect 0 location

/-- The entries from a location to the end of its chain. -/
inductive Chain (graph : BlockGraph) : BlockLocation -> List MappingEntry -> BlockLocation -> Prop
  | final {location : BlockLocation} (absent : graph location = none) :
      Chain graph location [] location
  | step {location last : BlockLocation} {entry : MappingEntry} {entries : List MappingEntry}
      (found : graph location = some entry) (rest : Chain graph (redirect entry) entries last) :
      Chain graph location (entry :: entries) last

variable {graph : BlockGraph} {location last : BlockLocation} {entries : List MappingEntry}

theorem Chain.absent (chain : Chain graph location entries last) : graph last = none := by
  induction chain with
  | final absent => exact absent
  | step _ _ ih => exact ih

/-- A chain that the loop can follow. -/
def Followed (passes : Nat) (entries : List MappingEntry) : Prop :=
  entries.length ≤ passes ∧ ∀ entry ∈ entries, entry.newBlockRange.size ≠ 0

section
variable (chain : Chain graph location entries last) (original : BlockLocation) {passes : Nat}
  (redirects : Nat)
include chain original redirects

theorem lookupLoop_eq (followed : Followed passes entries) :
    lookupLoop graph original passes redirects location =
      (last, decide (entries.length = passes ∨ last ≠ original), redirects + entries.length) := by
  induction chain generalizing passes redirects with
  | final absent =>
    cases passes with
    | zero => simp [lookupLoop]
    | succ passes => simp [lookupLoop, absent]
  | step found _ ih =>
    cases passes with
    | zero => exact absurd followed.1 (Nat.not_succ_le_zero _)
    | succ passes =>
      rcases forall_mem_cons.mp followed.2 with ⟨sized, later⟩
      simp only [lookupLoop, found, if_neg (Nat.not_le_of_gt (Nat.pos_of_ne_zero sized))]
      rw [ih (redirects + 1) ⟨Nat.le_of_succ_le_succ followed.1, later⟩]
      simp [Nat.add_assoc, Nat.add_comm 1]

/-- Otherwise it stops too early. -/
theorem lookupLoop_lt (stops : ¬ Followed passes entries) :
    (lookupLoop graph original passes redirects location).2.2 < redirects + entries.length := by
  induction chain generalizing passes redirects with
  | final _ => exact absurd ⟨Nat.zero_le _, nofun⟩ stops
  | @step _ _ entry entries found _ ih =>
    cases passes with
    | zero => simp [lookupLoop]
    | succ passes =>
      simp only [lookupLoop, found]
      split
      · simp
      · have later : ¬ Followed passes entries := fun followed =>
          stops ⟨Nat.succ_le_succ followed.1, forall_mem_cons.mpr ⟨by omega, followed.2⟩⟩
        have shorter := ih (redirects + 1) later
        simp only [length_cons]
        omega

end

/-- `LookupBlock` finds the end of a chain if it has at most ten mappings and none of
them has a range of size zero, and only then. -/
theorem lookupBlock_iff (chain : Chain graph location entries last) :
    graph.lookupBlock location = (last, decide (entries ≠ []), entries.length) <->
      entries.length ≤ 10 ∧ ∀ entry ∈ entries, entry.newBlockRange.size ≠ 0 := by
  change _ <-> Followed maxRedirect entries
  constructor
  · intro found
    by_contra stops
    have early := lookupLoop_lt chain location 0 stops
    rw [<- lookupBlock, found] at early
    simp at early
  · intro followed
    rw [lookupBlock, lookupLoop_eq chain location 0 followed]
    cases chain with
    | final _ => simp [maxRedirect]
    | step found rest =>
      -- the chain does not come back to its start, which has a mapping
      have away : last ≠ location := by
        rintro rfl
        simp [rest.absent] at found
      simp [away]

/-- Each file was compacted into the next one. -/
def nextFile (files : Nat) : BlockGraph := fun location =>
  if location.fileNumber < files then some ⟨location.fileNumber + 1, ⟨0, 0⟩, 1⟩ else none

theorem lookupBlock_threeFiles : (nextFile 3).lookupBlock ⟨0, 0⟩ = (⟨3, 0⟩, true, 3) :=
  (lookupBlock_iff (show Chain (nextFile 3) ⟨0, 0⟩ [⟨1, ⟨0, 0⟩, 1⟩, ⟨2, ⟨0, 0⟩, 1⟩, ⟨3, ⟨0, 0⟩, 1⟩]
    ⟨3, 0⟩ from .step rfl (.step rfl (.step rfl (.final rfl))))).mpr (by decide)

/-- The eleventh mapping is not followed. -/
theorem lookupBlock_elevenFiles : (nextFile 11).lookupBlock ⟨0, 0⟩ = (⟨10, 0⟩, true, 10) ∧
    nextFile 11 ⟨10, 0⟩ = some ⟨11, ⟨0, 0⟩, 1⟩ ∧ nextFile 11 ⟨11, 0⟩ = none := by
  decide

/-- `DependencyGraph::DecrementRef`. -/
def decrementRef (graph : BlockGraph) (location : BlockLocation) : Except String BlockGraph :=
  match graph location with
  | none => .ok graph
  | some entry => do
    assertThat (entry.refCount > 0) "it->second.ref_count > 0"
    return Function.update graph location (if entry.refCount - 1 = 0 then none
      else some { entry with refCount := entry.refCount - 1 })

/-- The loop of `DecrementRangeRef`, cut off after a number of passes. -/
def decrementLoop (fileNumber endBlock : Nat) : Nat -> Nat -> BlockGraph -> Except String BlockGraph
  | 0, _, _ => .error "DecrementRangeRef has not ended"
  | passes + 1, blockId, graph =>
    if blockId ≤ endBlock then do
      let graph <- graph.decrementRef ⟨fileNumber, blockId⟩
      decrementLoop fileNumber endBlock passes ((blockId + 1) % 2 ^ 32) graph
    else .ok graph

/-- `DependencyGraph::DecrementRangeRef`, cut off after a number of passes. -/
def decrementRangeRef (graph : BlockGraph) (passes fileNumber : Nat) (range : BlockRange) :
    Except String BlockGraph :=
  decrementLoop fileNumber range.endBlock passes range.startBlock graph

/-- The graph with other mappings for a number of blocks of a file. -/
def onBlocks (graph : BlockGraph) (fileNumber first count : Nat)
    (entry : Nat -> Option MappingEntry) : BlockGraph := fun location =>
  if location.fileNumber = fileNumber ∧ first ≤ location.blockId ∧ location.blockId < first + count
  then entry (location.blockId - first) else graph location

/-- `AddMapping` maps the blocks of a range one by one and changes nothing else, and
`DecrementRangeRef` ends and takes these mappings away. -/
def MapsRange (graph : BlockGraph) (originFile : Nat) (originRange : BlockRange) (newFile : Nat)
    (newRange : BlockRange) : Prop :=
  let onRange := graph.onBlocks originFile originRange.startBlock
    (originRange.endBlock - originRange.startBlock + 1)
  let mapped := onRange (fun i =>
    some ⟨newFile, ⟨newRange.startBlock + i, newRange.startBlock + i⟩, 1⟩)
  graph.addMapping originFile originRange newFile newRange = .ok mapped ∧
    ∃ passes, mapped.decrementRangeRef passes originFile originRange = .ok (onRange (fun _ => none))

variable {fileNumber endBlock : Nat}

section
variable (fileNumber first count : Nat) (entry : Nat -> Option MappingEntry)

theorem onBlocks_zero : graph.onBlocks fileNumber first 0 entry = graph := by
  grind [onBlocks]

theorem onBlocks_succ : graph.onBlocks fileNumber first (count + 1) entry =
    Function.update (graph.onBlocks fileNumber first count entry) ⟨fileNumber, first + count⟩
      (entry count) := by
  funext ⟨file, block⟩
  grind [onBlocks, Function.update]

end

theorem decrementLoop_last (passes : Nat) {blockId : Nat} (fits : blockId < 2 ^ 32)
    (next : BlockGraph) :
    decrementLoop fileNumber (2 ^ 32 - 1) passes blockId graph ≠ .ok next := by
  induction passes generalizing blockId graph with
  | zero => exact nofun
  | succ passes ih =>
    intro ended
    rw [decrementLoop, if_pos (by omega), bind_eq_ok] at ended
    rcases ended with ⟨_, -, ended⟩
    exact ih (Nat.mod_lt _ (by decide)) ended

/-- Blocks with one reference each are taken away. -/
theorem decrementLoop_eq (below : endBlock < 2 ^ 32 - 1) (count blockId : Nat)
    (upTo : blockId + count = endBlock + 1)
    (single : ∀ i < count, ∃ entry ∈ graph ⟨fileNumber, blockId + i⟩, entry.refCount = 1) :
    decrementLoop fileNumber endBlock (count + 1) blockId graph =
      .ok (graph.onBlocks fileNumber blockId count (fun _ => none)) := by
  induction count generalizing blockId graph with
  | zero =>
    rw [decrementLoop, if_neg (by omega), onBlocks_zero]
  | succ count ih =>
    rcases single 0 (Nat.succ_pos _) with ⟨entry, found, once⟩
    have removed : graph.decrementRef ⟨fileNumber, blockId⟩ =
        .ok (Function.update graph ⟨fileNumber, blockId⟩ none) := by
      simp [decrementRef, show graph ⟨fileNumber, blockId⟩ = some entry from found, once,
        assertThat_of, Bind.bind, Except.bind, Pure.pure, Except.pure]
    rw [decrementLoop, if_pos (by omega), removed]
    change decrementLoop _ _ _ _ _ = _
    rw [Nat.mod_eq_of_lt (by omega), ih (blockId + 1) (by omega)]
    · congr 1
      grind [onBlocks, Function.update, BlockLocation]
    · intro i _
      have later := single (i + 1) (by omega)
      rw [<- Nat.add_assoc, Nat.add_right_comm] at later
      rwa [Function.update_of_ne (by simp only [ne_eq, BlockLocation.mk.injEq]; omega)]

theorem addMapping_of_size_eq {originRange newRange : BlockRange} (originFile newFile : Nat)
    (same : originRange.size = newRange.size) :
    graph.addMapping originFile originRange newFile newRange =
      .ok (graph.onBlocks originFile originRange.startBlock originRange.size (fun i =>
        some ⟨newFile, ⟨newRange.startBlock + i, newRange.startBlock + i⟩, 1⟩)) := by
  unfold addMapping
  rw [assertThat_of same]
  change Except.ok _ = _
  congr 1
  induction originRange.size with
  | zero => exact (onBlocks_zero _ _ _).symm
  | succ count ih =>
    rw [range_succ, foldl_append, ih, onBlocks_succ]
    rfl

/-- Ranges are mapped and taken away as they should if they end before the last block,
and only then. -/
theorem mapsRange_iff (graph : BlockGraph) (originFile newFile : Nat)
    (originRange newRange : BlockRange) (ordered : originRange.startBlock ≤ originRange.endBlock)
    (fits : originRange.endBlock < 2 ^ 32) (newOrdered : newRange.startBlock ≤ newRange.endBlock)
    (same : newRange.endBlock - newRange.startBlock =
      originRange.endBlock - originRange.startBlock) :
    graph.MapsRange originFile originRange newFile newRange <->
      originRange.endBlock ≠ 2 ^ 32 - 1 := by
  constructor
  · rintro ⟨-, passes, ended⟩ last
    rw [decrementRangeRef, last] at ended
    exact decrementLoop_last passes (by omega) _ ended
  · intro _
    have size : originRange.size = originRange.endBlock - originRange.startBlock + 1 := by
      unfold BlockRange.size
      omega
    have newSize : newRange.size = originRange.size := by
      unfold BlockRange.size
      omega
    have added : graph.addMapping originFile originRange newFile newRange = _ :=
      addMapping_of_size_eq originFile newFile newSize.symm
    rw [size] at added
    refine ⟨added, _, (decrementLoop_eq (by omega)
      (originRange.endBlock - originRange.startBlock + 1) _ (by omega) ?_).trans ?_⟩
    · intro i inside
      simp [onBlocks, inside]
    · congr 1
      grind [onBlocks]

/-- Two blocks of a file. -/
theorem mapsRange_twoBlocks : MapsRange (fun _ => none) 1 ⟨3, 4⟩ 2 ⟨7, 8⟩ :=
  (mapsRange_iff _ 1 2 ⟨3, 4⟩ ⟨7, 8⟩ (by decide) (by decide) (by decide) rfl).mpr (by decide)

/-- The range of all blocks is not mapped, and the last block is never left. -/
theorem not_mapsRange_last :
    (addMapping (fun _ => none) 1 ⟨0, 2 ^ 32 - 1⟩ 2 ⟨0, 2 ^ 32 - 1⟩).toOption.map
      (fun next => next ⟨1, 0⟩) = some none ∧
    ¬ MapsRange (fun _ => none) 1 ⟨2 ^ 32 - 1, 2 ^ 32 - 1⟩ 2 ⟨7, 7⟩ := by
  refine ⟨by decide +kernel, ?_⟩
  rintro ⟨-, passes, ended⟩
  exact decrementLoop_last passes (by decide) _ ended

end BlockGraph

end Db
end Doux
