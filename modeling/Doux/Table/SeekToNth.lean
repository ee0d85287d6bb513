import Doux.Table.TableBuilder

namespace Doux
namespace Table

open Foundation Util List

/-!
# Reading an entry back by its place

A writer notes the block of an entry and its place in the block before it adds the
entry, and `Table::InternalVGet` is to find the entry there.  `SeekToNth` walks the
restart array as if it counted entries, but the array holds byte offsets.

The restart points of a block stand at the multiples of the restart interval.  Every
entry takes at least three bytes, so from the second restart point on the offsets run
ahead of the positions, and the walk is right only in two cases: at the first entry
of a block, and at the last one, where it cannot go too far.
-/

section
variable {α : Type} {format : Format α}

def Format.bytes (format : Format α) (entries : List α) : Nat :=
  (entries.map format.encodedSize).sum

theorem encodeVarint32_ne_nil (v : Nat) : encodeVarint32 v ≠ [] := by
  unfold encodeVarint32
  split_ifs <;> exact cons_ne_nil _ _

theorem Format.three_le_encodedSize (format : Format α) (entry : α) :
    3 ≤ format.encodedSize entry := by
  have some (v : Nat) : 0 < (encodeVarint32 v).length :=
    length_pos_iff.mpr (encodeVarint32_ne_nil v)
  have shared := some 0
  have key := some (format.keySize entry % 2 ^ 32)
  have value := some (format.valueSize entry % 2 ^ 32)
  unfold Format.encodedSize
  omega

theorem Format.three_mul_length_le (format : Format α) (entries : List α) :
    3 * entries.length ≤ format.bytes entries := by
  induction entries with
  | nil => exact le_refl _
  | cons head tail ih =>
    have here := format.three_le_encodedSize head
    unfold Format.bytes at ih ⊢
    rw [map_cons, sum_cons, length_cons]
    omega

/-- The restart point at a multiple of the interval. -/
def restartAt (format : Format α) (interval : Nat) (entries : List α) (index : Nat) : Restart :=
  ⟨format.bytes (entries.take (index * interval)), index * interval⟩

theorem restartAt_append {interval index : Nat} {entries : List α} (more : List α)
    (inside : index * interval ≤ entries.length) :
    restartAt format interval (entries ++ more) index =
      restartAt format interval entries index := by
  unfold restartAt
  rw [take_append_of_le_length inside]

/-- The restart points are the multiples of the interval up to `full`, and the entries
after the last of them are at most as many as the interval. -/
structure Spaced (format : Format α) (interval full : Nat) (entries : List α)
    (restarts : List Restart) : Prop where
  restarts_eq : restarts = (List.range (full + 1)).map (restartAt format interval entries)
  started : full = 0 ∨ full * interval < entries.length
  filled : entries.length ≤ (full + 1) * interval

namespace Spaced

variable {interval full : Nat} {entries : List α} {restarts : List Restart}
variable (spaced : Spaced format interval full entries restarts)
include spaced

theorem inside {index : Nat} (upTo : index ≤ full) : index * interval ≤ entries.length := by
  rcases spaced.started with none | started
  · rw [none] at upTo
    rw [Nat.le_zero.mp upTo, zero_mul]
    exact Nat.zero_le _
  · exact le_trans (Nat.mul_le_mul_right interval upTo) (le_of_lt started)

/-- There is a second restart point when the entries do not fit into one interval. -/
theorem full_eq_zero_iff : full = 0 <-> entries.length ≤ interval := by
  constructor
  · intro none
    have filled := spaced.filled
    rw [none, Nat.one_mul] at filled
    exact filled
  · intro _
    rcases spaced.started with none | _
    · exact none
    · by_contra some
      have one := Nat.mul_le_mul_right interval (Nat.one_le_iff_ne_zero.mpr some)
      omega

/-- From the second restart point on, the next one has a smaller position than this
one has an offset. -/
theorem position_lt_offset (positive : 0 < interval) {index : Nat} (second : 0 < index)
    (upTo : index ≤ full) : (restartAt format interval entries (index + 1)).position <
      (restartAt format interval entries index).offset := by
  have bytes := format.three_mul_length_le (entries.take (index * interval))
  rw [length_take, Nat.min_eq_left (spaced.inside upTo)] at bytes
  have one : interval ≤ index * interval := Nat.le_mul_of_pos_left interval second
  change (index + 1) * interval < format.bytes (entries.take (index * interval))
  rw [add_mul]
  omega

end Spaced

/-- The restart points of a block under construction. -/
structure BlockBuilder.Spaced (format : Format α) (interval full : Nat)
    (block : BlockBuilder α) : Prop where
  spaced : Table.Spaced format interval full block.entries block.restarts
  bufferSize : block.bufferSize = format.bytes block.entries
  counter : block.entries.length = full * interval + block.counter

theorem BlockBuilder.Spaced.new (format : Format α) (interval : Nat) :
    (BlockBuilder.new : BlockBuilder α).Spaced format interval 0 where
  spaced := by
    refine ⟨?_, Or.inl rfl, Nat.zero_le _⟩
    change [Restart.mk 0 0] = [restartAt format interval [] 0]
    unfold restartAt
    rw [zero_mul]
    rfl
  bufferSize := rfl
  counter := by rw [zero_mul]; rfl

variable {options : BlockOptions}

/-- One more entry, with a restart point before it when the interval is used up. -/
theorem BlockBuilder.Spaced.add {full : Nat} {block : BlockBuilder α}
    (positive : 0 < options.blockRestartInterval)
    (spaced : block.Spaced format options.blockRestartInterval full) (entry : α) : ∃ further,
      (block.add format options entry).Spaced format options.blockRestartInterval further := by
  have kept : (range (full + 1)).map
        (restartAt format options.blockRestartInterval (block.entries ++ [entry])) =
      (range (full + 1)).map (restartAt format options.blockRestartInterval block.entries) := by
    refine map_congr_left (fun index member => restartAt_append _ ?_)
    exact spaced.spaced.inside (Nat.le_of_lt_succ (mem_range.mp member))
  have bytes : block.bufferSize + format.encodedSize entry =
      format.bytes (block.entries ++ [entry]) := by
    rw [spaced.bufferSize, Format.bytes, Format.bytes, map_append, sum_append]
    rfl
  have counter := spaced.counter
  have filled := spaced.spaced.filled
  have next : (full + 1) * options.blockRestartInterval =
      full * options.blockRestartInterval + options.blockRestartInterval := by
    rw [add_mul, one_mul]
  unfold BlockBuilder.add
  split
  next room =>
    refine ⟨full, ⟨spaced.spaced.restarts_eq.trans kept.symm, ?_, ?_⟩, bytes, ?_⟩
    · rcases spaced.spaced.started with none | started
      · exact Or.inl none
      · exact Or.inr (lt_trans started (by rw [length_append]; exact Nat.lt_succ_self _))
    · rw [length_append, length_singleton]
      omega
    · rw [length_append, length_singleton]
      change _ = _ + (block.counter + 1)
      omega
  next used =>
    have whole : block.entries.length = (full + 1) * options.blockRestartInterval := by omega
    refine ⟨full + 1, ⟨?_, Or.inr ?_, ?_⟩, bytes, ?_⟩
    · rw [range_succ, map_append, kept, <- spaced.spaced.restarts_eq]
      unfold restartAt
      rw [map_singleton, <- whole, take_left, spaced.bufferSize]
    · rw [<- whole, length_append]
      exact Nat.lt_succ_self _
    · rw [length_append, add_mul (full + 1), length_singleton]
      omega
    · rw [length_append, whole, length_singleton]

/-- The restart points of a table under construction. -/
structure TableBuilder.Spaced (format : Format α) (interval : Nat) (builder : TableBuilder α) :
    Prop where
  closed : ∀ block ∈ builder.blocks, ∃ full,
    Table.Spaced format interval full block.entries block.restarts
  opened : ∃ full, builder.dataBlock.Spaced format interval full

theorem TableBuilder.Spaced.add {builder next : TableBuilder α}
    {entry : α} (positive : 0 < options.blockRestartInterval)
    (spaced : builder.Spaced format options.blockRestartInterval)
    (added : builder.add format options entry = .ok next) :
    next.Spaced format options.blockRestartInterval := by
  rcases spaced.opened with ⟨_, opened⟩
  rcases opened.add positive entry with ⟨further, grown⟩
  rcases TableBuilder.add_eq_ok.mp added with ⟨_, result⟩
  split at result
  · subst result
    refine ⟨fun block member => ?_, 0, BlockBuilder.Spaced.new format _⟩
    rcases mem_concat.mp member with old | rfl
    · exact spaced.closed block old
    · exact ⟨further, grown.spaced⟩
  · subst result
    exact ⟨spaced.closed, further, grown⟩

/-- Every block of a finished table has its restart points at the multiples of the
interval. -/
theorem buildTable_spaced {entries : List α} {table : BuiltTable α}
    (positive : 0 < options.blockRestartInterval)
    (built : buildTable format options entries = .ok table) : ∀ block ∈ table.blocks, ∃ full,
      Spaced format options.blockRestartInterval full block.entries block.restarts := by
  rcases bind_eq_ok.mp built with ⟨state, run, equal⟩
  cases equal
  have start : (TableBuilder.new : TableBuilder α).Spaced format options.blockRestartInterval :=
    ⟨forall_mem_nil _, 0, BlockBuilder.Spaced.new format _⟩
  have kept : state.1.Spaced format options.blockRestartInterval := by
    refine foldlM_preserves (fun state => state.1.Spaced format options.blockRestartInterval)
      (fun entry _ state next spaced placed => ?_) start run
    rcases bind_eq_ok.mp placed with ⟨_, added, equal⟩
    cases equal
    exact spaced.add positive added
  intro block member
  unfold TableBuilder.flush at member
  split at member
  · exact kept.closed block member
  · rcases mem_concat.mp member with old | rfl
    · exact kept.closed block old
    · rcases kept.opened with ⟨full, opened⟩
      exact ⟨full, opened.spaced⟩

/-! ## Where the walk ends -/

variable {offset : Nat}

/-- Past the second restart point the walk has counted more entries than there are
before the point where it stops. -/
theorem nthRestart_later {restarts : List Restart} {curOffset : Nat} {found : Nat × Restart}
    (chain : restarts.IsChain (fun restart next => next.position < restart.offset))
    (first : ∀ restart ∈ restarts.head?, restart.position < curOffset) (below : curOffset ≤ offset)
    (walk : Block.nthRestart offset restarts curOffset = .ok found) :
    found.2.position < found.1 ∧ found.1 ≤ offset := by
  induction restarts generalizing curOffset with
  | nil => cases walk
  | cons restart later ih =>
    unfold Block.nthRestart at walk
    split at walk
    next further =>
      rcases isChain_cons.mp chain with ⟨next, rest⟩
      refine ih rest (fun after isHead => ?_) (le_of_lt further) walk
      exact lt_of_lt_of_le (next after isHead) (Nat.le_add_left _ _)
    next stops =>
      cases walk
      exact ⟨first restart rfl, below⟩

/-- The place of an entry in its block is found again: the entry is the first one, or
the last one of a block with several restart points whose first interval takes enough
bytes. -/
def FindsPlace (format : Format α) (interval : Nat) (entries : List α) (offset : Nat) : Prop :=
  offset = 0 ∨ offset + 1 = entries.length ∧ interval < entries.length ∧
    offset ≤ format.bytes (entries.take interval)

instance (interval : Nat) (entries : List α) (offset : Nat) :
    Decidable (FindsPlace format interval entries offset) :=
  inferInstanceAs (Decidable (_ ∨ _))

section
variable {interval full : Nat} {block : Block α}
  (spaced : Spaced format interval full block.entries block.restarts) (positive : 0 < interval)
include spaced

theorem seekToNth_zero : block.seekToNth 0 = .ok block.entries[0]? := by
  unfold Block.seekToNth
  rw [spaced.restarts_eq, range_succ_eq_map]
  change Except.ok block.entries[min (0 * interval + (0 - 0)) _]? = _
  rw [zero_mul, Nat.zero_min]

/-- The first restart point is always passed, and after it the byte offsets decide. -/
theorem nthRestart_spaced (later : 0 < offset) :
    Block.nthRestart offset block.restarts 0 = Block.nthRestart offset
        ((range full).map (fun index => restartAt format interval block.entries (index + 1)))
        0 := by
  rw [spaced.restarts_eq, range_succ_eq_map, map_cons, map_map, Block.nthRestart]
  have zero : 0 + (restartAt format interval block.entries 0).offset = 0 := by
    unfold restartAt
    rw [zero_mul]
    rfl
  rw [zero, if_pos later]
  rfl

include positive in
theorem chain_restarts : ((range full).map
    (fun index => restartAt format interval block.entries (index + 1))).IsChain
      (fun restart next => next.position < restart.offset) := by
  rw [isChain_map]
  cases full with
  | zero => exact isChain_nil
  | succ more =>
    rw [isChain_range_succ]
    intro _ _
    exact spaced.position_lt_offset positive (Nat.succ_pos _) (by omega)

include positive in
/-- `SeekToNth` stops at the noted entry exactly when the place is one of the two kinds. -/
theorem seekToNth_eq_iff (inside : offset < block.entries.length)
    (distinct : block.entries.Nodup) : block.seekToNth offset = .ok block.entries[offset]? <->
      FindsPlace format interval block.entries offset := by
  rcases eq_zero_or_pos offset with rfl | later
  · exact ⟨fun _ => Or.inl rfl, fun _ => seekToNth_zero spaced⟩
  · have chain := chain_restarts spaced positive
    have none := spaced.full_eq_zero_iff
    unfold Block.seekToNth FindsPlace
    rw [nthRestart_spaced spaced later]
    cases full with
    | zero =>
      -- a single restart point: the walk runs off the array
      constructor
      · intro found
        cases found
      · rintro (zero | ⟨_, several, _⟩)
        · omega
        · omega
    | succ more =>
      rw [range_succ_eq_map, map_cons] at chain ⊢
      rw [Block.nthRestart]
      have several : interval < block.entries.length := by
        by_contra few
        exact Nat.succ_ne_zero _ (none.mpr (Nat.le_of_not_lt few))
      have second : restartAt format interval block.entries (0 + 1) =
          ⟨format.bytes (block.entries.take interval), interval⟩ := by
        unfold restartAt
        rw [Nat.one_mul]
      rw [second] at chain ⊢
      dsimp only
      rw [zero_add]
      split
      next further =>
        -- the walk goes past the second restart point and falls behind
        constructor
        · intro found
          rcases bind_eq_ok.mp found with ⟨_, walk, stops⟩
          rcases isChain_cons.mp chain with ⟨next, rest⟩
          rcases nthRestart_later rest next (le_of_lt further) walk with ⟨_, _⟩
          have same := (getElem?_inj inside distinct).mp (Except.ok.inj stops).symm
          omega
        · rintro (zero | ⟨_, _, bytes⟩) <;> omega
      next stops =>
        have bytes : offset ≤ format.bytes (block.entries.take interval) := by omega
        constructor
        · intro found
          have same := (getElem?_inj inside distinct).mp (Except.ok.inj found).symm
          change offset = min (interval + (offset - 0)) (block.entries.length - 1) at same
          exact Or.inr ⟨by omega, several, bytes⟩
        · rintro (_ | ⟨_, _, _⟩)
          · omega
          · change Except.ok block.entries[min (interval + (offset - 0))
              (block.entries.length - 1)]? = _
            rw [show min (interval + (offset - 0)) (block.entries.length - 1) = offset by omega]

end

/-- `InternalVGet` with the noted place of an entry hands exactly this entry to the
callback when the place is one of the two kinds, and not otherwise. -/
theorem internalVGet_eq_iff {entries : List α} {table : BuiltTable α}
    (positive : 0 < options.blockRestartInterval)
    (built : buildTable format options entries = .ok table) (distinct : entries.Nodup)
    {placed : Placed α} (member : placed ∈ table.placed) :
    ∃ block, table.blocks[placed.blockNumber]? = some block ∧
      (internalVGet table.blocks placed.blockNumber placed.blockOffset = .ok (some placed.entry) <->
        FindsPlace format options.blockRestartInterval block.entries placed.blockOffset) := by
  have holds := buildTable_eq_ok built
  rcases Option.bind_eq_some_iff.mp (holds.located placed member) with ⟨block, here, entry⟩
  have isBlock : block ∈ table.blocks := mem_of_getElem? here
  rcases List.getElem?_eq_some_iff.mp entry with ⟨inside, _⟩
  rcases buildTable_spaced positive built block isBlock with ⟨_, spaced⟩
  have nodup : block.entries.Nodup := by
    rw [<- holds.entries, tableEntries, List.flatMap, nodup_flatten] at distinct
    exact distinct.1 _ (mem_map_of_mem isBlock)
  refine ⟨block, here, ?_⟩
  rw [<- seekToNth_eq_iff spaced positive inside nodup, entry]
  have bound : placed.blockNumber ≤ table.blocks.length :=
    le_of_lt (List.getElem?_eq_some_iff.mp here).1
  unfold internalVGet nthBlock
  rw [assertThat_of bound, here]
  exact Iff.rfl

end

end Table
end Doux
