import Doux.Db.Database
import Doux.Db.Layers

namespace Doux
namespace Db

open Foundation Util Table List

/-!
# Installing an edit

`LogAndApply` builds the files of the next version and checks that those above level
zero do not overlap.  For the edits that a database makes, the files of the next
version are layered whenever those of the current one are: a flush puts newer entries
into a file with a larger number, and a compaction replaces files as described in
`Doux.Db.Layers`.  So the check never fails on them.
-/

theorem readInternalKey_encode (key : InternalKey) : readInternalKey key.encode = .ok key := by
  unfold readInternalKey
  rw [InternalKey.decode_encode]

theorem readKeyTable_encode (entries : List Entry) :
    readKeyTable (entries.map Entry.bytes) = .ok entries := by
  induction entries with
  | nil => rfl
  | cons entry entries ih =>
    unfold readKeyTable at ih ⊢
    rw [map_cons, mapM_cons]
    refine bind_eq_ok.mpr ⟨entry, ?_, bind_eq_ok.mpr ⟨entries, ih, rfl⟩⟩
    exact bind_eq_ok.mpr ⟨entry.key, readInternalKey_encode entry.key, rfl⟩

section
variable [LinearOrder UserKey]

variable {level : Nat}

namespace Database

/-- The state after an edit, before the checks of `SaveTo`. -/
def edited (config : Config) (db : Database) (edit : VersionEdit InternalKey VKey) : Database :=
  let iterations := config.iterations db.edits
  let builder := (Builder.new db.current).applied (fun key => key) (fun key => key)
    iterations.edit edit
  { db with
    current := ⟨builder.savedFiles (fun key => key),
      builder.savedVFiles config.mod (fun key => key),
      builder.savedDep config.mod iterations.base iterations.current⟩
    edits := db.edits + 1 }

variable {config : Config} {db next : Database} {edit : VersionEdit InternalKey VKey}

theorem logAndApply_eq_ok : db.logAndApply config edit = .ok next <->
    Builder.InRange config.mod edit ∧
      (∀ level, level > 0 -> ((db.edited config edit).current.files level).IsChain Precedes) ∧
      next = db.edited config edit := by
  unfold logAndApply
  rw [bind_eq_ok]
  constructor
  · rintro ⟨_, applied, saved⟩
    rcases (Builder.apply_eq_ok _ _ _).mp applied with ⟨inRange, rfl⟩
    rcases bind_eq_ok.mp saved with ⟨_, savedTo, equal⟩
    rcases (Builder.saveTo_eq_ok _ _ _).mp savedTo with ⟨rfl, chains⟩
    cases equal
    exact ⟨inRange, chains, rfl⟩
  · rintro ⟨inRange, chains, rfl⟩
    refine ⟨_, (Builder.apply_eq_ok _ _ _).mpr ⟨inRange, rfl⟩, ?_⟩
    exact bind_eq_ok.mpr ⟨_, (Builder.saveTo_eq_ok _ _ _).mpr ⟨rfl, chains⟩, rfl⟩

/-- When the files of the next version are layered, the checks succeed. -/
theorem logAndApply_of_layered {tables : Nat -> List Entry}
    (inRange : Builder.InRange config.mod edit)
    (layered : Layered (db.edited config edit).current.files tables) :
    db.logAndApply config edit = .ok (db.edited config edit) :=
  logAndApply_eq_ok.mpr
    ⟨inRange, fun level positive => (layered.disjoint level positive).isChain, rfl⟩

theorem edited_files (inside : level < kNumLevels) : (db.edited config edit).current.files level =
      editedFiles (fun key => key) level (db.current.files level) edit.deletedFiles.files
        edit.newFiles :=
  Builder.savedFiles_applied db.current _ edit inside

theorem edited_files_outside (outside : kNumLevels ≤ level) :
    (db.edited config edit).current.files level = [] :=
  if_neg (not_lt.mpr outside)

theorem edited_files_unchanged {tables : Nat -> List Entry}
    (layered : Layered db.current.files tables)
    (deleted : ∀ number, (level, number) ∉ edit.deletedFiles.files)
    (added : filesAt level edit.newFiles = []) :
    (db.edited config edit).current.files level = db.current.files level := by
  by_cases inside : level < kNumLevels
  · have numbers : FreshNumbers (db.current.files level) (filesAt level edit.newFiles) := by
      rw [added]
      exact ⟨nofun, nofun⟩
    rw [edited_files inside]
    apply SortedBy.ext (numbers.sorted_editedFiles (layered.sorted level)) (layered.sorted level)
    intro _
    rw [numbers.mem_editedFiles, added]
    simp [deleted]
  · rw [edited_files_outside (Nat.le_of_not_lt inside), layered.outside level
      (Nat.le_of_not_lt inside)]

end Database

section
variable {files newFiles : Nat -> List KeyFile} {tables : Nat -> List Entry} {file : KeyFile}
  {entries : List Entry}
  (zero : forall other, other ∈ newFiles 0 <-> other ∈ files 0 ∨ other = file)
  (others : forall level, level ≠ 0 -> newFiles level = files level)
include zero others

omit [LinearOrder UserKey] in
theorem mem_flushed {other : KeyFile} :
    other ∈ newFiles level <-> other ∈ files level ∨ level = 0 ∧ other = file := by
  by_cases isZero : level = 0
  · subst isZero
    simpa using zero other
  · rw [others level isZero]
    simp [isZero]

variable (fresh : forall level, ∀ old ∈ files level, old.number < file.number)
include fresh

omit [LinearOrder UserKey] in
theorem inLevel_flushed {entry : Entry} :
    InLevel newFiles (Function.update tables file.number entries) level entry <->
      InLevel files tables level entry ∨ level = 0 ∧ entry ∈ entries := by
  have old {other : KeyFile} (member : other ∈ files level) :
      Function.update tables file.number entries other.number = tables other.number :=
    Function.update_of_ne (ne_of_lt (fresh level other member)) _ _
  constructor
  · rintro ⟨other, isFile, inFile⟩
    rcases (mem_flushed zero others).mp isFile with stays | ⟨isZero, rfl⟩
    · exact Or.inl ⟨other, stays, old stays ▸ inFile⟩
    · rw [Function.update_self] at inFile
      exact Or.inr ⟨isZero, inFile⟩
  · rintro (⟨other, stays, inFile⟩ | ⟨isZero, isEntry⟩)
    · exact ⟨other, (mem_flushed zero others).mpr (Or.inl stays), (old stays).symm ▸ inFile⟩
    · refine ⟨file, (mem_flushed zero others).mpr (Or.inr ⟨isZero, rfl⟩), ?_⟩
      rw [Function.update_self]
      exact isEntry

theorem Layered.flush (layered : Layered files tables) (describes : Describes file entries)
    (newer : ∀ level old, InLevel files tables level old ->
      ∀ entry ∈ entries, old.key.sequence < entry.key.sequence)
    (identified : ∀ first ∈ entries, ∀ second ∈ entries,
      first.key.sequence = second.key.sequence -> first = second)
    (sorted : SortedBy (bySmallestKey (fun key : InternalKey => key)) (newFiles 0)) :
    Layered newFiles (Function.update tables file.number entries) := by
  have old {level : Nat} {other : KeyFile} (member : other ∈ files level) :
      Function.update tables file.number entries other.number = tables other.number :=
    Function.update_of_ne (ne_of_lt (fresh level other member)) _ _
  have new : Function.update tables file.number entries file.number = entries :=
    Function.update_self _ _ _
  have cases {level : Nat} {other : KeyFile} (member : other ∈ newFiles level) :=
    (mem_flushed zero others).mp member
  have stored {level : Nat} {entry : Entry}
      (member : InLevel newFiles (Function.update tables file.number entries) level entry) :=
    (inLevel_flushed zero others fresh).mp member
  constructor
  case described =>
    intro level other member
    rcases cases member with stays | ⟨_, rfl⟩
    · rw [old stays]
      exact layered.described level other stays
    · rw [new]
      exact describes
  case sorted =>
    intro level
    by_cases isZero : level = 0
    · rw [isZero]
      exact sorted
    · rw [others level isZero]
      exact layered.sorted level
  case disjoint =>
    intro level positive
    rw [others level (ne_of_gt positive)]
    exact layered.disjoint level positive
  case outside =>
    intro level far
    rw [others level (by unfold kNumLevels at far; omega)]
    exact layered.outside level far
  case numbered =>
    intro upper lower first inFirst second inSecond same
    rcases cases inFirst with stays | ⟨isZero, rfl⟩
    · rcases cases inSecond with otherStays | ⟨_, rfl⟩
      · exact layered.numbered upper lower first stays second otherStays same
      · exact absurd same (ne_of_lt (fresh upper first stays))
    · rcases cases inSecond with otherStays | ⟨otherZero, rfl⟩
      · exact absurd same.symm (ne_of_lt (fresh lower second otherStays))
      · exact ⟨isZero.trans otherZero.symm, rfl⟩
  case newestFirst =>
    intro first inFirst second inSecond older
    rcases cases inFirst with stays | ⟨_, rfl⟩
    · rcases cases inSecond with otherStays | ⟨_, rfl⟩
      · rw [old stays, old otherStays]
        exact layered.newestFirst first stays second otherStays older
      · rw [old stays, new]
        exact fun a inOld b inNew _ => newer 0 a ⟨first, stays, inOld⟩ b inNew
    · rcases cases inSecond with otherStays | ⟨_, rfl⟩
      · exact absurd older (Nat.lt_asymm (fresh 0 second otherStays))
      · exact absurd older (lt_irrefl _)
  case layers =>
    intro upper lower above first inFirst second inSecond
    have otherStays : second ∈ files lower := by
      rcases cases inSecond with stays | ⟨_, _⟩
      · exact stays
      · omega
    rcases cases inFirst with stays | ⟨_, rfl⟩
    · rw [old stays, old otherStays]
      exact layered.layers upper lower above first stays second otherStays
    · rw [old otherStays, new]
      exact fun a inOld b inNew _ => newer lower a ⟨second, otherStays, inOld⟩ b inNew
  case identified =>
    intro level first second inFirst inSecond userKeys sequences
    rcases stored inFirst with oldFirst | ⟨_, newFirst⟩
    · rcases stored inSecond with oldSecond | ⟨_, newSecond⟩
      · exact layered.identified level first second oldFirst oldSecond userKeys sequences
      · exact absurd sequences (ne_of_lt (newer level first oldFirst second newSecond))
    · rcases stored inSecond with oldSecond | ⟨_, newSecond⟩
      · exact absurd sequences.symm (ne_of_lt (newer level second oldSecond first newFirst))
      · exact identified first newFirst second newSecond sequences

end

theorem foldlM_addEntry {entries built result : List Entry}
    (run : entries.foldlM addEntry built = .ok result) : result = built ++ entries := by
  induction entries generalizing built with
  | nil =>
    cases run
    exact (append_nil _).symm
  | cons entry entries ih =>
    rcases bind_eq_ok.mp run with ⟨_, added, rest⟩
    rcases addEntry_eq_ok.mp added with ⟨_, rfl⟩
    rw [ih rest, append_assoc, singleton_append]

variable {built : Level0Tables} {entries : List Entry}

theorem buildKeyTable_eq_ok (table : buildKeyTable entries = .ok built) : built.entries = entries ∧
      entries.head?.map Entry.key = some built.smallest ∧
      entries.getLast?.map Entry.key = some built.largest := by
  rcases bind_eq_ok.mp table with ⟨_, run, finish⟩
  rw [foldlM_addEntry run] at finish
  cases entries with
  | nil => cases finish
  | cons first rest =>
    cases finish
    refine ⟨rfl, rfl, ?_⟩
    rw [getLast?_cons, <- getLastD_eq_getLast?]
    rfl

/-- The entry of a key table for an entry of the memtable and the place of its value. -/
def pointerRow (row : Entry × ValuePointer) : Entry := ⟨row.1.key, row.2.encode⟩

variable {config : Config} {number : Nat}

theorem buildKeyValueTables_holds (ten : config.mod = 10) (ordered : InKeyOrder entries)
    (table : buildKeyValueTables config number entries = .ok built) :
    ∃ tables sorted rows, DuTables.Holds config.beyond number entries tables sorted rows ∧
      built.entries = rows.map pointerRow ∧
      entries.head?.map Entry.key = some built.smallest ∧
      entries.getLast?.map Entry.key = some built.largest := by
  unfold buildKeyValueTables at table
  rw [ten] at table
  rcases bind_eq_ok.mp table with ⟨tables, made, table⟩
  rcases bind_eq_ok.mp table with ⟨_, isKeys, table⟩
  rcases bind_eq_ok.mp table with ⟨_, isSmallest, table⟩
  rcases bind_eq_ok.mp table with ⟨_, isLargest, table⟩
  rcases bind_eq_ok.mp table with ⟨_, _, table⟩
  rcases bind_eq_ok.mp table with ⟨_, _, finish⟩
  cases finish
  rcases buildDuTable_holds ordered made with ⟨sorted, rows, holds⟩
  refine ⟨tables, sorted, rows, holds, ?_, ?_⟩
  · have rowBytes : tableEntries tables.kblocks = (rows.map pointerRow).map Entry.bytes := by
      rw [holds.keys, map_map]
      rfl
    rw [rowBytes, readKeyTable_encode] at isKeys
    exact (Except.ok.inj isKeys).symm
  · have ends : tableEnds 10 ((entries.map Entry.bytes).map Prod.fst) = .ok tables.kends := by
      rw [<- holds.kends, <- holds.entries, map_map, map_map]
      rfl
    rcases tableEnds_eq_ok ends with ⟨first, last⟩
    rw [head?_map, Option.map_map] at first
    rw [getLast?_map, Option.map_map] at last
    rcases Option.map_eq_some_iff.mp first with ⟨head, isHead, headKey⟩
    rcases Option.map_eq_some_iff.mp last with ⟨final, isFinal, finalKey⟩
    rw [<- headKey] at isSmallest
    rw [<- finalKey] at isLargest
    have smallestKey := Except.ok.inj ((readInternalKey_encode head.key).symm.trans isSmallest)
    have largestKey := Except.ok.inj ((readInternalKey_encode final.key).symm.trans isLargest)
    exact ⟨by rw [isHead, <- smallestKey]; rfl, by rw [isFinal, <- largestKey]; rfl⟩

/-- The keys of a flushed table are those of the memtable, and its metadata fits. -/
theorem buildTables_describes (plain : config.mod ≠ 13) (ordered : InKeyOrder entries)
    (parse : ∀ entry ∈ entries, entry.key.type.isSome)
    (table : buildTables config number entries = .ok built) :
    built.entries.map Entry.key = entries.map Entry.key ∧
      ∀ fileSize, Describes ⟨number, fileSize, built.smallest, built.largest⟩ built.entries := by
  have keys : built.entries.map Entry.key = entries.map Entry.key ∧
      entries.head?.map Entry.key = some built.smallest ∧
      entries.getLast?.map Entry.key = some built.largest := by
    unfold buildTables at table
    split at table
    · next sorts =>
        have ten : config.mod = 10 := sorts.resolve_right plain
        rcases buildKeyValueTables_holds ten ordered table with ⟨_, _, _, holds, isRows, ends⟩
        refine ⟨?_, ends⟩
        rw [isRows, <- holds.entries, map_map, map_map]
        rfl
    · rcases buildKeyTable_eq_ok table with ⟨equal, ends⟩
      exact ⟨by rw [equal], ends⟩
  refine ⟨keys.1, fun fileSize => ⟨?_, ?_, ?_, ?_⟩⟩
  · rw [<- pairwise_map (R := fun a b : InternalKey => a < b), keys.1, pairwise_map]
    exact ordered
  · intro _ member
    have inKeys := mem_map_of_mem (f := Entry.key) member
    rw [keys.1] at inKeys
    rcases mem_map.mp inKeys with ⟨other, isOther, same⟩
    rw [<- same]
    exact parse other isOther
  · rw [<- head?_map, keys.1, head?_map]
    exact keys.2.1
  · rw [<- getLast?_map, keys.1, getLast?_map]
    exact keys.2.2

def flushedKeyFile (config : Config) (number : Nat) (built : Level0Tables) : KeyFile :=
  ⟨number, config.sizes.finished built.entries, built.smallest, built.largest⟩

section FlushEdit
variable (config : Config) (number : Nat) (built : Level0Tables)

omit [LinearOrder UserKey] in
theorem flushEdit_files : (flushEdit config number built).newFiles =
      [(0, flushedKeyFile config number built)] ∧
    (flushEdit config number built).deletedFiles = .empty := by
  unfold flushEdit
  cases built.values <;> exact ⟨rfl, rfl⟩

omit [LinearOrder UserKey] in
theorem inRange_flushEdit : Builder.InRange config.mod (flushEdit config number built) := by
  rcases flushEdit_files config number built with ⟨added, deleted⟩
  refine ⟨⟨?_, ?_⟩, ?_, ?_⟩
  · rw [deleted]
    exact nofun
  · rw [added]
    exact forall_mem_singleton.mpr (by decide : 0 < kNumLevels)
  · unfold flushEdit
    cases built.values <;> exact nofun
  · have positive : 0 < numVLevels config.mod := by
      unfold numVLevels
      split <;> decide
    unfold flushEdit
    cases built.values with
    | none => exact nofun
    | some values =>
      exact forall_mem_singleton.mpr positive

theorem edited_flushEdit (db : Database) {tables : Nat -> List Entry}
    (layered : Layered db.current.files tables)
    (fresh : ∀ old ∈ db.current.files 0, old.number ≠ number) :
    SortedBy (bySmallestKey (fun key : InternalKey => key))
      ((db.edited config (flushEdit config number built)).current.files 0) ∧
    (∀ file, file ∈ (db.edited config (flushEdit config number built)).current.files 0 <->
      file ∈ db.current.files 0 ∨ file = flushedKeyFile config number built) ∧
    ∀ level, level ≠ 0 -> (db.edited config (flushEdit config number built)).current.files level =
        db.current.files level := by
  rcases flushEdit_files config number built with ⟨added, deleted⟩
  have new : FreshNumbers (db.current.files 0)
      (filesAt 0 (flushEdit config number built).newFiles) := by
    rw [added]
    refine ⟨?_, ?_⟩
    · intro file member old isOld
      rw [mem_singleton.mp member]
      exact fresh old isOld
    · intro file member _ isOther _
      rw [mem_singleton.mp member, mem_singleton.mp isOther]
  rw [Database.edited_files (show 0 < kNumLevels by decide)]
  refine ⟨new.sorted_editedFiles (layered.sorted 0), ?_, ?_⟩
  · intro _
    rw [new.mem_editedFiles, deleted, added]
    refine or_congr ⟨fun old => old.1, fun old => ⟨old, nofun⟩⟩ mem_singleton
  · intro _ above
    refine Database.edited_files_unchanged layered ?_ ?_
    · rw [deleted]
      exact fun _ => nofun
    · rw [added, filesAt_cons, if_neg (Ne.symm above)]
      rfl

end FlushEdit

/-! ## Results of compactions -/

namespace Compaction

variable (compaction : Compaction) (outputs : List KeyFile)

omit [LinearOrder UserKey]

theorem resultEdit_eq : compaction.resultEdit outputs = { VersionEdit.empty with
      deletedFiles := DeletedFileSet.empty.insertAll
        (compaction.inputs0.map (fun file => (compaction.level, file.number)) ++
          compaction.inputs1.map (fun file => (compaction.level + 1, file.number)))
      newFiles := outputs.map (fun file => (compaction.level + 1, file)) } := by
  have deleted (level : Nat) (files : List KeyFile) (edit : VersionEdit InternalKey VKey) :=
    VersionEdit.foldl_deleteFile (files.map (fun file => (level, file.number))) edit
  have added (edit : VersionEdit InternalKey VKey) :=
    VersionEdit.foldl_addFile (outputs.map (fun file => (compaction.level + 1, file))) edit
  simp only [foldl_map] at deleted added
  unfold resultEdit
  rw [added, deleted, deleted]
  unfold DeletedFileSet.insertAll
  rw [foldl_append]
  rfl

theorem filesAt_resultEdit (level : Nat) : filesAt level (compaction.resultEdit outputs).newFiles =
      if level = compaction.level + 1 then outputs else [] := by
  rw [resultEdit_eq]
  exact filesAt_map level _ outputs

theorem mem_deleted_resultEdit {level number : Nat} :
    (level, number) ∈ (compaction.resultEdit outputs).deletedFiles.files <->
      ∃ file, compaction.IsInput level file ∧ file.number = number := by
  rw [resultEdit_eq]
  rw [DeletedFileSet.mem_insertAll, mem_append, mem_map, mem_map]
  constructor
  · rintro (impossible | ⟨file, member, equal⟩ | ⟨file, member, equal⟩)
    · cases impossible
    · cases equal
      exact ⟨file, Or.inl ⟨rfl, member⟩, rfl⟩
    · cases equal
      exact ⟨file, Or.inr ⟨rfl, member⟩, rfl⟩
  · rintro ⟨file, ⟨rfl, member⟩ | ⟨rfl, member⟩, rfl⟩
    · exact Or.inr (Or.inl ⟨file, member, rfl⟩)
    · exact Or.inr (Or.inr ⟨file, member, rfl⟩)

theorem inRange_resultEdit (mod : Nat) (below : compaction.level + 1 < kNumLevels) :
    Builder.InRange mod (compaction.resultEdit outputs) := by
  rw [resultEdit_eq]
  refine ⟨⟨?_, ?_⟩, nofun, nofun⟩
  · rintro ⟨_, _⟩ member
    rw [<- resultEdit_eq compaction outputs |> congrArg (fun edit => edit.deletedFiles.files),
      mem_deleted_resultEdit] at member
    rcases member with ⟨_, ⟨rfl, _⟩ | ⟨rfl, _⟩, _⟩
    · exact Nat.lt_of_succ_lt below
    · exact below
  · intro _ member
    rcases mem_map.mp member with ⟨_, _, rfl⟩
    exact below

end Compaction

theorem Compaction.Results.replacement {db : Database}
    {compaction : Compaction} {outputs : List KeyFile} {tables newTables : Nat -> List Entry}
    (layered : Layered db.current.files tables) (fits : compaction.Fits db.current.files tables)
    (results : compaction.Results db.current.files tables outputs newTables) :
    Replacement compaction outputs db.current.files tables
      (db.edited config (compaction.resultEdit outputs)).current.files newTables := by
  have numbers (level : Nat) : FreshNumbers (db.current.files level)
      (filesAt level (compaction.resultEdit outputs).newFiles) := by
    rw [compaction.filesAt_resultEdit]
    split
    · next atLower =>
        refine ⟨fun output isOutput old member same => ?_, results.numbers⟩
        have atUpper := (results.fresh output isOutput level old member same.symm).1
        omega
    · exact ⟨nofun, nofun⟩
  have isInput {level : Nat} {file : KeyFile} (member : file ∈ db.current.files level) :
      (level, file.number) ∈ (compaction.resultEdit outputs).deletedFiles.files <->
        compaction.IsInput level file := by
    rw [compaction.mem_deleted_resultEdit]
    constructor
    · rintro ⟨input, chosen, same⟩
      rw [<- (layered.numbered level level input (fits.inputs level input chosen) file member
        same).2]
      exact chosen
    · exact fun chosen => ⟨file, chosen, rfl⟩
  refine ⟨fits, results, fun level => ?_, fun level file => ?_⟩
  · by_cases inside : level < kNumLevels
    · rw [Database.edited_files inside]
      exact (numbers level).sorted_editedFiles (layered.sorted level)
    · rw [Database.edited_files_outside (Nat.le_of_not_lt inside)]
      exact Pairwise.nil
  · by_cases inside : level < kNumLevels
    · rw [Database.edited_files inside, (numbers level).mem_editedFiles,
        compaction.filesAt_resultEdit]
      refine or_congr ⟨?_, ?_⟩ ?_
      · exact fun old => ⟨old.1, fun chosen => old.2 ((isInput old.1).mpr chosen)⟩
      · exact fun old => ⟨old.1, fun gone => old.2 ((isInput old.1).mp gone)⟩
      · split
        · next atLower => simp [atLower]
        · next other => simp [other]
    · have far := Nat.le_of_not_lt inside
      rw [Database.edited_files_outside far, layered.outside level far]
      refine ⟨nofun, ?_⟩
      rintro (⟨impossible, _⟩ | ⟨rfl, _⟩)
      · cases impossible
      · exact absurd fits.below inside

end

namespace VCompaction
variable {K : Type} (vcompaction : VCompaction)

/-- The files that a compaction of value files deletes, with their levels. -/
def inputNumbers : List (Nat × Nat) :=
  vcompaction.vinputs0.map (fun file => (0, file.number)) ++
    vcompaction.vinputs1.map (fun file => (1, file.number))

theorem deletions_eq (edit : VersionEdit K VKey) : vcompaction.deletions edit =
    { edit with deletedVFiles := edit.deletedVFiles.insertAll vcompaction.inputNumbers } := by
  have deleted (level : Nat) (files : List ValueFile) (edit : VersionEdit K VKey) :=
    VersionEdit.foldl_deleteVFile (files.map (fun file => (level, file.number))) edit
  simp only [foldl_map] at deleted
  unfold deletions inputNumbers
  rw [deleted, deleted]
  unfold DeletedFileSet.insertAll
  rw [foldl_append]

def redirections (output : ValueFile) : Dependency :=
  if vcompaction.vinputs1.length = 0 then
    Dependency.empty.setParents
      (vcompaction.vinputs0.map (fun file => (file.number, output.number)))
  else .empty

theorem resultEdit_eq (output : ValueFile) : vcompaction.resultEdit output =
    { (VersionEdit.empty : VersionEdit K VKey) with
      deletedVFiles := DeletedFileSet.empty.insertAll vcompaction.inputNumbers
      newVFiles := if output.fileSize > 0 then [(vcompaction.outputLevel, output)] else []
      dep := vcompaction.redirections output } := by
  have redirected (edit : VersionEdit K VKey) := VersionEdit.foldl_addDependency
    (vcompaction.vinputs0.map (fun file => (file.number, output.number))) edit
  simp only [foldl_map] at redirected
  unfold resultEdit redirections
  rw [deletions_eq]
  by_cases filled : output.fileSize > 0 <;> by_cases noLower : vcompaction.vinputs1.length = 0 <;>
    simp [filled, noLower, redirected, VersionEdit.addVFile, VersionEdit.empty]

/-- The edits of a compaction of value files say nothing about the key tree. -/
structure ValueEdit (edit : VersionEdit K VKey) : Prop where
  added : edit.newFiles = []
  deleted : edit.deletedFiles = .empty
  deletedLevels : ∀ file ∈ edit.deletedVFiles.files, file.1 < 2
  addedLevels : ∀ file ∈ edit.newVFiles, file.1 < 2

theorem inputNumbers_lt : ∀ file ∈ (DeletedFileSet.empty.insertAll vcompaction.inputNumbers).files,
    file.1 < 2 := by
  intro _ member
  have isInput := (DeletedFileSet.mem_insertAll.mp member).resolve_left nofun
  simp only [inputNumbers, mem_append, mem_map] at isInput
  rcases isInput with ⟨_, _, rfl⟩ | ⟨_, _, rfl⟩
  · exact Nat.zero_lt_two
  · exact Nat.one_lt_two

theorem valueEdit_deletions :
    ValueEdit (vcompaction.deletions (VersionEdit.empty : VersionEdit K VKey)) := by
  rw [deletions_eq]
  exact ⟨rfl, rfl, vcompaction.inputNumbers_lt, nofun⟩

theorem valueEdit_resultEdit (output : ValueFile) :
    ValueEdit (vcompaction.resultEdit output : VersionEdit K VKey) := by
  rw [resultEdit_eq]
  refine ⟨rfl, rfl, vcompaction.inputNumbers_lt, ?_⟩
  intro _ member
  split at member
  · rw [mem_singleton.mp member]
    unfold outputLevel
    dsimp only
    split
    · exact Nat.one_lt_two
    · split <;> decide
  · cases member

end VCompaction

theorem logAndApply_valueEdit [LinearOrder UserKey] {config : Config} (ten : config.mod = 10)
    {db : Database} {tables : Nat -> List Entry} (layered : Layered db.current.files tables)
    {edit : VersionEdit InternalKey VKey} (valueEdit : VCompaction.ValueEdit edit) :
    db.logAndApply config edit = .ok (db.edited config edit) ∧
      (db.edited config edit).current.files = db.current.files := by
  have files : (db.edited config edit).current.files = db.current.files := by
    funext level
    apply Database.edited_files_unchanged layered
    · rw [valueEdit.deleted]
      exact fun _ => nofun
    · rw [valueEdit.added]
      rfl
  refine ⟨Database.logAndApply_of_layered ?_ (files ▸ layered), files⟩
  unfold Builder.InRange
  rw [valueEdit.added, valueEdit.deleted, ten]
  exact ⟨⟨nofun, nofun⟩, valueEdit.deletedLevels, valueEdit.addedLevels⟩

end Db
end Doux
