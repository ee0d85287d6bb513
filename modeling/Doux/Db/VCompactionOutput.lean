import Doux.Db.VCompactionWork

namespace Doux
namespace Db

open Foundation Util Table List

/-!
# What a compaction of value files writes

When all inputs can be read, `DoVCompactionWork` writes for every user key the entry with
the largest sequence number, unless it is a deletion.  For each entry it has noted the file
and the block from which it was read.

`AddMapping` is called with one input block and the range of the output blocks that got
entries of it, and it asserts that both ranges have the same size.  The entries are sorted
anew, so the entries of one block may go to several blocks.
-/

theorem values_of_readable {io : VWorkIo} {vtables : Nat -> List (Block KeyValue)}
    {files : List ValueFile} (readable : io.Readable files) :
    io.values vtables files = sourcedInputs vtables files := by
  rw [VWorkIo.values, VWorkIo.scanned, VWorkIo.scannedFrom_of_readable readable]

section
variable [LinearOrder UserKey]

variable {config : Config} {state : VersionState} {result : VWorkResult} {io : VWorkIo}
  {vcompaction : VCompaction} {reading : Reading} {placed : List (Placed KeyValue)}

namespace VersionState

theorem mem_edited_resultEdit (state : VersionState) (vcompaction : VCompaction)
    (ten : config.mod = 10) {file : ValueFile} (filled : 0 < file.fileSize) :
    file ∈ (state.db.edited config (vcompaction.resultEdit file)).current.vfiles
      vcompaction.outputLevel := by
  have level : vcompaction.outputLevel < 2 :=
    (vcompaction.valueEdit_resultEdit (K := InternalKey) file).addedLevels
      (vcompaction.outputLevel, file) (by rw [vcompaction.resultEdit_eq]; simp [filled])
  have added : filesAt vcompaction.outputLevel
      (vcompaction.resultEdit file : VersionEdit InternalKey VKey).newVFiles = [file] := by
    rw [vcompaction.resultEdit_eq]
    simp [filled, filesAt]
  rw [edited_vfiles ten level]
  rcases applyLevels_spec (fun key : VKey => key) (fun _ => LevelState.empty)
    (vcompaction.resultEdit file : VersionEdit InternalKey VKey).deletedVFiles.files
    (vcompaction.resultEdit file : VersionEdit InternalKey VKey).newVFiles
    vcompaction.outputLevel with ⟨isAdded, isDeleted⟩
  rw [added] at isAdded isDeleted
  refine mem_filter.mpr ⟨mem_mergeBy.mpr (Or.inr ?_), decide_eq_true fun deleted => ?_⟩
  · rw [isAdded]
    exact mem_singleton_self file
  · exact ((isDeleted _).mp deleted).2 file mem_cons_self rfl

theorem installOutput_installs (ten : config.mod = 10) {output : VOutput}
    (returns : state.installOutput config io vcompaction reading placed output = .ok result) :
    result.state.db.vtables state.db.nextFileNumber = output.blocks ∧
      (result.status = .ok -> 0 < config.vtableSize output.blocks ->
        state.outputFile config output ∈
          result.state.db.current.vfiles vcompaction.outputLevel) := by
  rcases installOutput_eq_ok returns with ⟨_, rfl⟩ | ⟨_, graph, logged, _, after, rfl⟩
  · exact ⟨Function.update_self .., nofun⟩
  · refine ⟨(congrFun after.keeps.2 _).trans (Function.update_self ..), fun fine filled => ?_⟩
    by_cases noticed : io.log.Returns
    · change _ ∈ logged.2.db.current.vfiles _
      rw [(after.ok noticed).2]
      exact mem_edited_resultEdit _ vcompaction ten filled
    · exact nomatch fine.symm.trans (after.failed noticed).1

end VersionState

section
variable (ten : config.mod = 10) (filled : state.db.current.vfiles 0 ≠ []) (io : VWorkIo)
  (vcompaction : VCompaction) (readable : io.Readable vcompaction.inputs)
  (keyed : ∀ file ∈ vcompaction.inputs, WellKeyed (state.db.vtables file.number))
  (opened : io.openOutput = true)
include filled readable keyed opened

/-- A call with inputs that can be read and an output that can be opened either deletes the
inputs or goes on with the table of what is left. -/
theorem doVCompactionWork_cases (config : Config) :
    ∃ reading, vcompaction.readInputs io state.db.vtables = .ok reading ∧
      reading.values = sourcedInputs state.db.vtables vcompaction.inputs ∧
      (reading.merged = [] ∧ state.doVCompactionWork config io vcompaction =
          state.deleteInputs config io vcompaction reading ∨
        ∃ first rest table, reading.merged = first :: rest ∧
          buildTable (keyValueFormat vkeyLess) config.blockOptions
            (reading.merged.map VEntry.row) = .ok table ∧
          state.doVCompactionWork config io vcompaction =
            state.installOutput config io vcompaction reading table.placed
              ⟨table.blocks, first.vkey, (rest.getLastD first).vkey⟩) := by
  have read := VCompaction.readInputs_eq_ok.mpr ⟨readable.completes keyed, rfl⟩
  generalize isReading : Reading.mk _ _ _ _ = reading at read
  refine ⟨reading, read, ?_, ?_⟩
  · exact (congrArg Reading.values isReading.symm).trans (values_of_readable readable)
  cases merged : reading.merged with
  | nil =>
    refine Or.inl ⟨rfl, ?_⟩
    unfold VersionState.doVCompactionWork
    rw [assertThat_of filled, read]
    simp only [bind, Except.bind, merged]
  | cons first rest =>
    rcases reading.exists_buildTable config.blockOptions with ⟨table, built⟩
    rw [merged] at built
    refine Or.inr ⟨first, rest, table, rfl, built, ?_⟩
    unfold VersionState.doVCompactionWork
    rw [assertThat_of filled, read]
    simp only [bind, Except.bind, merged]
    simp only [VersionState.writeMerged, opened, built]
    rfl

include ten

end

/-- The graph maps the block from which the entry came to a range of blocks of the new file, one
of which has the entry. -/
def VWorkResult.Covers (newFile : Nat) (values : List SourcedValue) (result : VWorkResult)
    (entry : VEntry) : Prop :=
  ∃ location ∈ sourceOf values entry, ∃ mapping ∈ result.state.graph location,
    mapping.newFileNumber = newFile ∧ ∃ place, mapping.newBlockRange.startBlock ≤ place ∧
      place ≤ mapping.newBlockRange.endBlock ∧
      ∃ block ∈ (result.state.db.vtables newFile)[place]?, entry.row ∈ block.entries

/-- The number of the block of every entry that is left fits into 32 bits. -/
def CountsBlocks (options : BlockOptions) (values : List SourcedValue) : Prop :=
  ∀ kept, Survivors (values.map SourcedValue.entry) kept -> ∀ place < kept.length,
    closedBlocks (keyValueFormat vkeyLess) options ((kept.take place).map VEntry.row) < 2 ^ 32

omit [LinearOrder UserKey] in
/-- A row is in one block only. -/
theorem place_unique {blocks : List (Block KeyValue)} (distinct : (tableEntries blocks).Nodup)
    {place other : Nat} {block otherBlock : Block KeyValue} (here : blocks[place]? = some block)
    (there : blocks[other]? = some otherBlock) {row : KeyValue} (inside : row ∈ block.entries)
    (insideOther : row ∈ otherBlock.entries) : place = other := by
  have apart := (nodup_flatMap.mp distinct).2
  rcases List.getElem?_eq_some_iff.mp here with ⟨within, rfl⟩
  rcases List.getElem?_eq_some_iff.mp there with ⟨withinOther, rfl⟩
  rcases lt_trichotomy place other with less | same | greater
  · exact absurd insideOther (pairwise_iff_getElem.mp apart _ _ within withinOther less inside)
  · exact same
  · exact absurd inside (pairwise_iff_getElem.mp apart _ _ withinOther within greater insideOther)

/-- Once the output is installed, its entries are covered just if their blocks can be counted. -/
theorem installOutput_covers_iff (ten : config.mod = 10) (finished : io.finishOutput = true)
    {table : BuiltTable KeyValue} (built : buildTable (keyValueFormat vkeyLess) config.blockOptions
      (reading.merged.map VEntry.row) = .ok table) {smallest largest : VKey}
    (returns : state.installOutput config io vcompaction reading table.placed
      ⟨table.blocks, smallest, largest⟩ = .ok result) {index : Nat} {entry : VEntry}
    (here : reading.merged[index]? = some entry) :
    result.Covers state.db.nextFileNumber reading.values entry <->
      closedBlocks (keyValueFormat vkeyLess) config.blockOptions
        ((reading.merged.take index).map VEntry.row) < 2 ^ 32 := by
  have holds := buildTable_eq_ok built
  have distinct : (tableEntries table.blocks).Nodup := by
    rw [holds.entries]
    refine pairwise_map.mpr ((mergedValues_increasing _).imp (fun {first second} less same => ?_))
    have keys : first.vkey.encode = second.vkey.encode := congrArg Prod.fst same
    have again := (vkeyLess_encode _ _).mpr less
    rw [keys] at again
    exact lt_irrefl _ ((vkeyLess_encode _ _).mp again)
  rcases exists_placed built here with ⟨place, there, row⟩
  have number := blockNumber_of_buildTable built there
  rw [<- map_take] at number
  rw [<- number]
  rcases Option.bind_eq_some_iff.mp (holds.located place (mem_of_getElem? there)) with
    ⟨block, isBlock, inBlock⟩
  have inside : entry.row ∈ block.entries := row ▸ mem_of_getElem? inBlock
  have tables := (VersionState.installOutput_installs ten returns).1
  rcases exists_sourceOf (mem_mergedValues.mp (mem_of_getElem? here)).mem with
    ⟨source, _, _, noted⟩
  have maps : result.state.graph source.location = some ⟨state.db.nextFileNumber,
      ⟨outputBlock config.blockOptions reading.merged index,
        outputBlock config.blockOptions reading.merged index⟩, 1⟩ := by
    rcases VersionState.installOutput_eq_ok returns with
      ⟨unfinished, _⟩ | ⟨_, graph, logged, added, after, rfl⟩
    · exact nomatch unfinished.symm.trans finished
    · exact (congrFun after.graph _).trans (BlockGraph.addMappings_maps blockMappings_small added
        (mem_blockMappings_of_getElem? built here noted))
  have counted := blockNumber_eq_outputBlock built there
  constructor
  · rintro ⟨location, isNoted, mapping, isMapping, _, other, low, high, found, isFound, isIn⟩
    cases noted.symm.trans isNoted
    cases maps.symm.trans isMapping
    rw [tables] at isFound
    have same := place_unique distinct isBlock isFound inside isIn
    rw [same, <- le_antisymm low high, <- counted]
    exact Nat.mod_lt _ (Nat.two_pow_pos 32)
  · intro small
    rw [Nat.mod_eq_of_lt small] at counted
    rw [<- counted] at maps
    exact ⟨source.location, noted, _, maps, rfl, place.blockNumber, le_refl _, le_refl _, block,
      tables.symm ▸ isBlock, inside⟩

/-- For inputs that can be read and an output that can be written: all calls of `AddMapping` pass
its assertion, and the graph covers the block that holds an entry now, just if no block of an
input is split and the output has no more blocks than 32 bits can count. -/
theorem doVCompactionWork_covers_iff (ten : config.mod = 10)
    (layered : Layered state.db.current.files state.db.tables)
    (filled : state.db.current.vfiles 0 ≠ []) (io : VWorkIo) (vcompaction : VCompaction)
    (readable : io.Readable vcompaction.inputs)
    (keyed : ∀ file ∈ vcompaction.inputs, WellKeyed (state.db.vtables file.number))
    (opened : io.openOutput = true) (finished : io.finishOutput = true) :
    (∃ result, state.doVCompactionWork config io vcompaction = .ok result ∧
      ∀ entry, Survives ((sourcedInputs state.db.vtables vcompaction.inputs).map
        SourcedValue.entry) entry -> result.Covers state.db.nextFileNumber
          (sourcedInputs state.db.vtables vcompaction.inputs) entry) <->
      Unsplit config.blockOptions (sourcedInputs state.db.vtables vcompaction.inputs) ∧
      CountsBlocks config.blockOptions (sourcedInputs state.db.vtables vcompaction.inputs) := by
  rcases doVCompactionWork_cases filled io vcompaction readable keyed opened config with
    ⟨reading, read, values, finish⟩
  have survivors := survivors_mergedValues (reading.values.map SourcedValue.entry)
  rw [<- values]
  rcases finish with ⟨merged, deletes⟩ | ⟨first, rest, table, merged, built, installs⟩
  · have nothing {kept : List VEntry}
        (others : Survivors (reading.values.map SourcedValue.entry) kept) : kept = [] :=
      (others.unique survivors).trans merged
    rcases VersionState.deleteInputs_returns ten layered with ⟨result, returns⟩
    refine ⟨fun _ => ⟨fun kept others => ?_, fun kept others => ?_⟩,
      fun _ => ⟨result, deletes.trans returns, fun entry survives => ?_⟩⟩
    · rw [nothing others]
      exact fun _ _ _ _ => nofun
    · rw [nothing others]
      exact fun _ => nofun
    · have member := (survivors.mem_iff entry).mpr survives
      rw [nothing survivors] at member
      cases member
  · rw [installs]
    have split : (∃ result, state.installOutput config io vcompaction reading table.placed
        ⟨table.blocks, first.vkey, (rest.getLastD first).vkey⟩ = .ok result) <->
        Unsplit config.blockOptions reading.values := by
      rw [VersionState.installOutput_returns_iff ten layered, forall_prop_of_true finished,
        <- together_iff_unsplit built survivors]
    constructor
    · rintro ⟨result, returns, covers⟩
      refine ⟨split.mp ⟨result, returns⟩, fun kept others place inside => ?_⟩
      cases others.unique survivors
      have here := getElem?_eq_getElem inside
      exact (installOutput_covers_iff ten finished built returns here).mp
        (covers _ ((survivors.mem_iff _).mp (mem_of_getElem? here)))
    · rintro ⟨unsplit, counts⟩
      rcases split.mpr unsplit with ⟨result, returns⟩
      refine ⟨result, returns, fun entry survives => ?_⟩
      rcases getElem?_of_mem ((survivors.mem_iff entry).mpr survives) with ⟨place, here⟩
      exact (installOutput_covers_iff ten finished built returns here).mpr
        (counts _ survivors place (List.getElem?_eq_some_iff.mp here).1)

end

/-! ## Interleaved value files -/

section Bytewise

open Bytewise

/-- A value of 508 bytes for a key of one byte. -/
def longValue (key : UInt8) (sequence : Nat) : VEntry :=
  ⟨⟨[key], BitVec.ofNat 64 (sequence * 256 + 1), 0⟩, List.replicate 508 0⟩

/-- File 5 has the keys `a` and `c` in one block, file 6 has `b`. -/
def interleavedFiles : VersionState :=
  { twoValueFiles with db := { twoValueFiles.db with
    vtables := fun number =>
      if number = 5 then [⟨[(longValue 97 1).row, (longValue 99 3).row], [⟨0, 0⟩]⟩]
      else if number = 6 then [⟨[(longValue 98 2).row], [⟨0, 0⟩]⟩] else [] } }

/-- Blocks of 1024 bytes, the smallest that `SanitizeOptions` leaves. -/
def smallBlocks : Config := { Config.plain 10 (by decide) with blockOptions := ⟨1024, 16⟩ }

/-- The output has `a` and `b` in its first block, and the block of file 5 is split. -/
theorem doVCompactionWork_splits_block : (interleavedFiles.doVCompactionWork smallBlocks
      (secondInputIo .opens .succeeds) bothValueFiles).map (fun _ => ()) =
      .error "origin_range.Size() == new_range.Size()" := by
  decide +kernel

/-- Two files with one entry each: both entries go to one block, and both are covered. -/
theorem doVCompactionWork_covers_twoValueFiles : ∃ result,
    twoValueFiles.doVCompactionWork smallBlocks (secondInputIo .opens .succeeds) bothValueFiles =
      .ok result ∧
    ∀ entry ∈ [oneValue 97 1, oneValue 98 2], result.Covers 7
      (sourcedInputs twoValueFiles.db.vtables bothValueFiles.inputs) entry := by
  have kept_eq {kept : List VEntry} (survivors : Survivors ((sourcedInputs
      twoValueFiles.db.vtables bothValueFiles.inputs).map SourcedValue.entry) kept) :
      kept = [oneValue 97 1, oneValue 98 2] :=
    (survivors.unique (survivors_mergedValues _)).trans (by decide +kernel)
  have unsplit : Unsplit smallBlocks.blockOptions
      (sourcedInputs twoValueFiles.db.vtables bothValueFiles.inputs) := by
    intro kept survivors place other first second here there same
    rw [kept_eq survivors] at here there ⊢
    rcases place with _ | _ | place <;> rcases other with _ | _ | other <;> cases here <;>
      cases there
    · rfl
    · exact absurd same (by decide +kernel)
    · exact absurd same (by decide +kernel)
    · rfl
  have counts : CountsBlocks smallBlocks.blockOptions
      (sourcedInputs twoValueFiles.db.vtables bothValueFiles.inputs) := by
    intro kept survivors
    rw [kept_eq survivors]
    decide +kernel
  rcases (doVCompactionWork_covers_iff (rfl : smallBlocks.mod = 10) (layered_empty _)
    (by decide : twoValueFiles.db.current.vfiles 0 ≠ []) (secondInputIo .opens .succeeds)
    bothValueFiles (readable_secondInputIo _ _) (by decide +kernel) rfl rfl).mpr
    ⟨unsplit, counts⟩ with ⟨result, returns, covers⟩
  refine ⟨result, returns, fun entry member => covers entry ?_⟩
  rw [<- mem_mergedValues, kept_eq (survivors_mergedValues _)]
  exact member

end Bytewise

end Db
end Doux
