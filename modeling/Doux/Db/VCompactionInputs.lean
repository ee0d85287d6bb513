import Mathlib.Data.List.MinMax
import Doux.Db.Install
import Doux.Table.TwoLevelIterator

namespace Doux
namespace Db

open Foundation Util Table List

/-!
# The inputs of a compaction of value files

`DoVCompactionWork` goes through every input with a two-level iterator, and notes with each
entry the file and the block from which it comes.  The block is the count of the iterator, in
32 bits.  Of every user key the newest entry is kept, the first one that was read, unless it is
a deletion.

This module has the loop over one input and says what it reads in terms of the blocks of the
file.  What is left of the entries is described by `Survives` and `Survivors`, which do not
mention the map in which the code collects them.
-/

/-- A block of a value file. -/
structure BlockLocation where
  fileNumber : Nat
  blockId : Nat
deriving DecidableEq

/-- An entry of an input, with the block from which it was read. -/
structure SourcedValue where
  entry : VEntry
  location : BlockLocation

/-- The blocks of a table as its iterator meets them.  A handle is here the number of its block,
and the index has the last key of every block. -/
def dataBlocks (blocks : List (Block KeyValue)) :
    List (TwoLevelIterator.DataBlock Bytes Nat Bytes) :=
  blocks.zipIdx.map (fun block =>
    ⟨(block.1.entries.getLast?.map Prod.fst).getD [], block.2, block.1.entries⟩)

/-- `BlockReader`: an iterator over the block with a handle. -/
def blockReader (blocks : List (Block KeyValue)) (handle : Nat) : List KeyValue × Option Nat :=
  ((blocks[handle]?.map Block.entries).getD [], none)

/-- The loop over an input: `NewVIterator`, and at every entry `ParseInternalVKey` and
`GetCurrentBlockIndex`. -/
def readSourced (number : Nat) (blocks : List (Block KeyValue)) :
    Except String (List SourcedValue) := do
  let items <- (TwoLevelIterator.new Iterator.overList
    (TwoLevelIterator.indexItems (dataBlocks blocks), none)).scan Iterator.overList
      Iterator.overList (blockReader blocks) (blocks.length + 2) (tableEntries blocks).length
  items.mapM (fun item => do
    let vkey <- VKey.decode item.1.1
    return ⟨⟨vkey, item.1.2⟩, number, item.2.toNat⟩)

/-- The entry of a row, whose key ends with a tag and a sort key of eight bytes each. -/
def VEntry.ofRow (row : KeyValue) : VEntry :=
  ⟨⟨row.1.take (row.1.length - 16),
    BitVec.ofNat 64 (decodeFixed64 (row.1.drop (row.1.length - 16))),
    BitVec.ofNat 64 (decodeFixed64 (row.1.drop (row.1.length - 8)))⟩, row.2⟩

/-- Every key of the table is long enough to have a tag and a sort key. -/
def WellKeyed (blocks : List (Block KeyValue)) : Prop :=
  ∀ row ∈ tableEntries blocks, 16 ≤ row.1.length

instance (blocks : List (Block KeyValue)) : Decidable (WellKeyed blocks) :=
  inferInstanceAs (Decidable (∀ row ∈ _, _))

/-- The entries of a value file, each with the number of the file and that of its block. -/
def sourcedValues (number : Nat) (blocks : List (Block KeyValue)) : List SourcedValue :=
  blocks.zipIdx.flatMap (fun block =>
    block.1.entries.map (fun row => ⟨.ofRow row, number, block.2 % 2 ^ 32⟩))

section
variable {number : Nat} {blocks : List (Block KeyValue)}

theorem numberedItems_dataBlocks (blocks : List (Block KeyValue)) :
    TwoLevelIterator.numberedItems (dataBlocks blocks) = blocks.zipIdx.flatMap (fun block =>
      block.1.entries.map (fun row => (row, BitVec.ofNat 32 block.2))) := by
  have numbered : (dataBlocks blocks).zipIdx.map (fun block => (block.1.items, block.2)) =
      blocks.zipIdx.map (fun block => (block.1.entries, block.2)) := by
    refine List.ext_getElem? (fun place => ?_)
    simp only [dataBlocks, getElem?_map, getElem?_zipIdx, Option.map_map, Function.comp_def]
  have flat := congrArg (List.flatMap (fun block : List KeyValue × Nat =>
    block.1.map (fun row => (row, BitVec.ofNat 32 block.2)))) numbered
  rwa [flatMap_map, flatMap_map] at flat

theorem allItems_dataBlocks (blocks : List (Block KeyValue)) :
    TwoLevelIterator.allItems (dataBlocks blocks) = tableEntries blocks := by
  rw [TwoLevelIterator.allItems, dataBlocks, flatMap_map, tableEntries]
  conv_rhs => rw [<- zipIdx_map_fst 0 blocks, flatMap_map]

theorem dataBlocks_opens (blocks : List (Block KeyValue)) :
    TwoLevelIterator.Opens Iterator.overList (blockReader blocks) (dataBlocks blocks) where
  handles := by
    rw [dataBlocks, map_map]
    exact nodup_zipIdx_map_snd blocks
  cursor := by
    intro _ member
    rcases mem_map.mp member with ⟨block, inside, rfl⟩
    have here : blocks[block.2]? = some block.1 := mem_zipIdx_iff_getElem?.mp inside
    rw [blockReader, here]
    exact Iterator.overList_isCursor _

/-- The loop goes through all entries of the table, and the count that it reads with an entry is
the number of its block. -/
theorem scan_dataBlocks (blocks : List (Block KeyValue)) :
    (TwoLevelIterator.new Iterator.overList
      (TwoLevelIterator.indexItems (dataBlocks blocks), none)).scan Iterator.overList
        Iterator.overList (blockReader blocks) (blocks.length + 2) (tableEntries blocks).length =
      .ok (TwoLevelIterator.numberedItems (dataBlocks blocks)) := by
  refine TwoLevelIterator.scan_eq (dataBlocks_opens blocks) ?_ (Iterator.overList_isCursor _)
    (allItems_dataBlocks blocks ▸ le_refl _)
  simp [dataBlocks]

theorem decode_row_eq_ok {α : Type} (value : VEntry -> α) (row : KeyValue) (result : α) :
    (do let vkey <- VKey.decode row.1; return value ⟨vkey, row.2⟩ : Except String α) = .ok result <->
      result = value (.ofRow row) ∧ 16 ≤ row.1.length := by
  rw [bind_eq_ok]
  unfold VKey.decode
  simp only [assertThat_return_eq_ok]
  constructor
  · rintro ⟨_, ⟨long, rfl⟩, same⟩
    cases same
    exact ⟨rfl, long⟩
  · rintro ⟨rfl, long⟩
    exact ⟨_, ⟨long, rfl⟩, rfl⟩

theorem readSourced_eq_ok {values : List SourcedValue} : readSourced number blocks = .ok values <->
    WellKeyed blocks ∧ values = sourcedValues number blocks := by
  have rows : (∀ item ∈ TwoLevelIterator.numberedItems (dataBlocks blocks), 16 ≤ item.1.1.length) <->
      WellKeyed blocks := by
    rw [WellKeyed, <- allItems_dataBlocks, <- TwoLevelIterator.map_numberedItems, forall_mem_map]
  have named : (TwoLevelIterator.numberedItems (dataBlocks blocks)).map (fun item =>
      (⟨.ofRow item.1, number, item.2.toNat⟩ : SourcedValue)) = sourcedValues number blocks := by
    rw [numberedItems_dataBlocks, map_flatMap]
    simp only [map_map, Function.comp_def, BitVec.toNat_ofNat, sourcedValues]
  unfold readSourced
  rw [scan_dataBlocks]
  refine (mapM_eq_ok (fun item : KeyValue × BitVec 32 => decode_row_eq_ok
    (fun entry => (⟨entry, number, item.2.toNat⟩ : SourcedValue)) item.1) _ values).trans ?_
  rw [named, rows, and_comm]

end

/-- All entries of some value files, in the order in which they are read. -/
def sourcedInputs (vtables : Nat -> List (Block KeyValue)) (files : List ValueFile) :
    List SourcedValue :=
  files.flatMap (fun file => sourcedValues file.number (vtables file.number))

/-- The block in which an entry was first read, as it is noted for the entry. -/
def sourceOf (values : List SourcedValue) (entry : VEntry) : Option BlockLocation :=
  (values.find? (fun source => source.entry = entry)).map SourcedValue.location

theorem exists_sourceOf {values : List SourcedValue} {entry : VEntry}
    (member : entry ∈ values.map SourcedValue.entry) : ∃ source ∈ values,
      source.entry = entry ∧ sourceOf values entry = some source.location := by
  rcases mem_map.mp member with ⟨source, isSource, same⟩
  have found : (values.find? (fun source => source.entry = entry)).isSome :=
    find?_isSome.mpr ⟨source, isSource, decide_eq_true same⟩
  rcases Option.isSome_iff_exists.mp found with ⟨known, isKnown⟩
  exact ⟨known, mem_of_find?_eq_some isKnown, by simpa using find?_some isKnown,
    by rw [sourceOf, isKnown]; rfl⟩

def versionsOf (entries : List VEntry) (userKey : Bytes) : List VEntry :=
  entries.filter (fun entry => entry.vkey.userKey = userKey)

theorem userKey_replaced (entry other : VEntry) :
    (if other.vkey.userKey = entry.vkey.userKey then entry else other).vkey.userKey =
      other.vkey.userKey := by
  split
  · next same => exact same.symm
  · rfl

theorem find_keepNewest (kept : List VEntry) (entry : VEntry) (userKey : Bytes) :
    (keepNewest kept entry).find? (fun other => other.vkey.userKey = userKey) =
      if entry.vkey.userKey = userKey then
        match kept.find? (fun other => other.vkey.userKey = userKey) with
        | none => some entry
        | some other => if other.sequence < entry.sequence then some entry else some other
      else kept.find? (fun other => other.vkey.userKey = userKey) := by
  unfold keepNewest
  by_cases same : entry.vkey.userKey = userKey
  · subst same
    cases found : kept.find? (fun other => other.vkey.userKey = entry.vkey.userKey) with
    | none => simp [found]
    | some other =>
      have key : other.vkey.userKey = entry.vkey.userKey := by
        simpa using find?_some found
      by_cases newer : other.sequence < entry.sequence
      · simp [newer, userKey_replaced, found, key]
      · simp [if_neg newer, found]
  · cases kept.find? (fun other => other.vkey.userKey = entry.vkey.userKey) with
    | none => simp [same]
    | some other =>
      dsimp only
      split
      · simp only [find?_map, Function.comp_def, userKey_replaced]
        cases found : kept.find? (fun other => other.vkey.userKey = userKey) with
        | none => rfl
        | some one =>
          have key : one.vkey.userKey = userKey := by simpa using find?_some found
          simp [key, Ne.symm same]
      · rfl

/-- `key_source_map` has the newest version of every user key, the first one that was read. -/
theorem find_foldl_keepNewest (entries : List VEntry) (userKey : Bytes) :
    (entries.foldl keepNewest []).find? (fun entry => entry.vkey.userKey = userKey) =
      (versionsOf entries userKey).argmax VEntry.sequence := by
  induction entries using List.reverseRecOn with
  | nil => rfl
  | append_singleton entries entry ih =>
    rw [foldl_append, foldl_cons, foldl_nil, find_keepNewest, ih]
    by_cases same : entry.vkey.userKey = userKey
    · have last : versionsOf (entries ++ [entry]) userKey =
          versionsOf entries userKey ++ [entry] := by simp [versionsOf, same]
      rw [if_pos same, last, argmax_concat]
      cases (versionsOf entries userKey).argmax VEntry.sequence <;> rfl
    · simp [versionsOf, same]

theorem nodup_keepNewest {kept : List VEntry}
    (distinct : (kept.map (fun entry => entry.vkey.userKey)).Nodup) (entry : VEntry) :
    ((keepNewest kept entry).map (fun entry => entry.vkey.userKey)).Nodup := by
  unfold keepNewest
  split
  · next missing =>
      rw [map_append, nodup_append]
      refine ⟨distinct, nodup_singleton _, forall_mem_map.mpr (fun other member => ?_)⟩
      simpa using find?_eq_none.mp missing other member
  · split
    · simpa only [map_map, Function.comp_def, userKey_replaced] using distinct
    · exact distinct

theorem nodup_foldl_keepNewest (entries : List VEntry) :
    ((entries.foldl keepNewest []).map (fun entry => entry.vkey.userKey)).Nodup := by
  induction entries using List.reverseRecOn with
  | nil => exact nodup_nil
  | append_singleton entries entry ih =>
    rw [foldl_append]
    exact nodup_keepNewest ih entry

/-- The entry is the newest version of its user key, the first one that was read, and it is
not a deletion. -/
def Survives (entries : List VEntry) (entry : VEntry) : Prop :=
  (versionsOf entries entry.vkey.userKey).argmax VEntry.sequence = some entry ∧
    entry.isDeletion = false

variable {entries : List VEntry}

theorem mem_mergedValues {entry : VEntry} :
    entry ∈ mergedValues entries <-> Survives entries entry := by
  have kept : entry ∈ entries.foldl keepNewest [] <-> (entries.foldl keepNewest []).find?
        (fun other => other.vkey.userKey = entry.vkey.userKey) = some entry := by
    constructor
    · intro member
      cases found : (entries.foldl keepNewest []).find?
          (fun other => other.vkey.userKey = entry.vkey.userKey) with
      | none => exact absurd (find?_eq_none.mp found entry member) (by simp)
      | some other =>
        have same : other.vkey.userKey = entry.vkey.userKey := by simpa using find?_some found
        rw [inj_on_of_nodup_map (nodup_foldl_keepNewest entries) (mem_of_find?_eq_some found)
          member same]
    · exact mem_of_find?_eq_some
  simp [mergedValues, mem_insertionSort, kept, find_foldl_keepNewest, Survives]

theorem mergedValues_increasing (entries : List VEntry) :
    (mergedValues entries).Pairwise (fun a b => a.vkey < b.vkey) := by
  have perm := perm_insertionSort (fun a b : VEntry => a.vkey ≤ b.vkey)
    ((entries.foldl keepNewest []).filter (fun entry => !entry.isDeletion))
  have distinct : ((mergedValues entries).map (fun entry => entry.vkey.userKey)).Nodup :=
    (perm.map _).nodup_iff.mpr ((nodup_foldl_keepNewest entries).sublist (filter_sublist.map _))
  have differ := pairwise_map.mp distinct
  have ordered : (mergedValues entries).Pairwise (fun a b => a.vkey ≤ b.vkey) :=
    pairwise_insertionSort (fun a b : VEntry => a.vkey ≤ b.vkey) _
  refine (ordered.and differ).imp (fun both => lt_of_le_of_ne both.1 ?_)
  exact fun same => both.2 (congrArg VKey.userKey same)

/-- The entries that are left, in the order of their vkeys. -/
structure Survivors (entries kept : List VEntry) : Prop where
  mem_iff : forall entry, entry ∈ kept <-> Survives entries entry
  increasing : kept.Pairwise (fun first second => first.vkey < second.vkey)

theorem survivors_mergedValues (entries : List VEntry) :
    Survivors entries (mergedValues entries) :=
  ⟨fun _ => mem_mergedValues, mergedValues_increasing entries⟩

theorem Survivors.unique {kept other : List VEntry} (first : Survivors entries kept)
    (second : Survivors entries other) : kept = other :=
  first.increasing.eq_of_mem_iff second.increasing
    (fun entry => (first.mem_iff entry).trans (second.mem_iff entry).symm)

theorem Survives.mem {entry : VEntry} (survives : Survives entries entry) : entry ∈ entries :=
  (mem_filter.mp (argmax_mem survives.1)).1

end Db
end Doux
