import Doux.Foundation.Search
import Doux.Db.Visibility

namespace Doux
namespace Db

open Foundation Util Table List

/-!
# Reading a key

`DBImpl::Get` looks for a user key in the memtable, in the immutable memtable and then
in the files of the current version: at level zero in all files that may have the key,
the newest first, and at every other level in the one file that a binary search finds.
The first place that has a version of the key up to the snapshot decides.

With `MOD` 10 what is found in a file is a pointer, which is followed to a value table.
The model has the modes 0 and 10; the others use learned indexes or value logs.

A caller passes a string for the value.  It is overwritten only when a value is found.
-/

inductive GetStatus where
  | ok
  | notFound
  | corruption
deriving DecidableEq

/-- The status that `Get` returns, and the string of the caller. -/
structure GetResult where
  status : GetStatus
  value : Bytes
deriving DecidableEq

/-- `Saver::state`, with the value if there is one. -/
inductive SaverState where
  | notFound
  | found (value : Bytes)
  | deleted
  | corrupt
deriving DecidableEq

def lookupKey (userKey : UserKey) (snapshot : Nat) : Except String InternalKey := do
  let tag <- packSequenceAndType snapshot .value
  return ⟨userKey, tag⟩

theorem distinct_of_increasing {entries : List Entry} (increasing : InWriteOrder entries) :
    entryVersions.Distinct entries := by
  have nodup : (entries.map (fun entry => entry.key.sequence)).Nodup :=
    pairwise_map.mpr (increasing.imp ne_of_lt)
  intro _ isEntry _ isOther _ sequences
  exact inj_on_of_nodup_map nodup isEntry isOther sequences

theorem pairwise_newestFirst {list : List KeyFile} (nodup : (list.map FileMetaData.number).Nodup) :
    (list.insertionSort (fun a b => b.number ≤ a.number)).Pairwise
      (fun a b => b.number < a.number) := by
  have ordered : (list.insertionSort (fun a b => b.number ≤ a.number)).Pairwise
      (fun a b => b.number ≤ a.number) := pairwise_insertionSort _ _
  have sortedNodup : ((list.insertionSort (fun a b => b.number ≤ a.number)).map
      FileMetaData.number).Nodup :=
    ((perm_insertionSort _ list).map _).nodup_iff.mpr nodup
  exact ordered.imp₂ (fun a b small different => lt_of_le_of_ne small (Ne.symm different))
    (pairwise_map.mp sortedNodup)

section
variable [LinearOrder UserKey]

/-- `MemTable::Get`: the first entry from the key on, if it has the same user key. -/
def memTableGet (entries : List Entry) (key : InternalKey) (value : Bytes) : Option GetResult :=
  match (entries.insertionSort (fun a b => a.key ≤ b.key)).find?
      (fun entry => !decide (entry.key < key)) with
  | none => none
  | some entry =>
    if entry.key.userKey = key.userKey then
      match entry.key.type with
      | some .value => some ⟨.ok, entry.value⟩
      | some .deletion => some ⟨.notFound, value⟩
      | none => none
    else none

def saveValue (userKey : UserKey) (entry : Entry) : SaverState :=
  match entry.key.parse with
  | none => .corrupt
  | some parsed =>
    if parsed.userKey = userKey then
      if parsed.type = .value then .found entry.value else .deleted
    else .notFound

/-- The format of key tables. -/
def entryFormat : Format Entry :=
  ⟨fun entry => entry.key.encode.length, fun entry => entry.value.length,
    fun first second => decide (first.key < second.key)⟩

/-- `TableCache::Get` on the table that the builder has made of the entries. -/
def tableGet (config : Config) (entries : List Entry) (key : InternalKey) :
    Except String SaverState := do
  let table <- buildTable entryFormat config.blockOptions entries
  match internalGet (fun entry => decide (entry.key < key))
      (config.filter.keyMayMatch key.userKey) table.blocks with
  | none => return .notFound
  | some entry => return saveValue key.userKey entry

def findFile (files : List KeyFile) (key : InternalKey) : Nat :=
  lowerBound (fun file => decide (file.largest < key)) files

/-- The files of a level that `Version::Get` searches, in this order. -/
def searchedFiles (files : List KeyFile) (level : Nat) (key : InternalKey) : List KeyFile :=
  if level = 0 then
    (files.filter (fun file => Covers file key.userKey)).insertionSort
      (fun a b => b.number ≤ a.number)
  else
    match files[findFile files key]? with
    | none => []
    | some file => if key.userKey < file.smallest.userKey then [] else [file]

def getLoop (config : Config) (tables : Nat -> List Entry) (key : InternalKey) (value : Bytes) :
    List KeyFile -> Except String GetResult
  | [] => .ok ⟨.ok, value⟩
  | file :: files => do
    match <- tableGet config (tables file.number) key with
    | .notFound => getLoop config tables key value files
    | .found result => return ⟨.ok, result⟩
    | .deleted => return ⟨.notFound, value⟩
    | .corrupt => return ⟨.corruption, value⟩

def versionGet (config : Config) (files : Nat -> List KeyFile) (tables : Nat -> List Entry)
    (key : InternalKey) (value : Bytes) : Except String GetResult :=
  getLoop config tables key value
    ((List.range kNumLevels).flatMap (fun level => searchedFiles (files level) level key))

/-- `SaveValueV2`: a vkey is parsed like an internal key, without its last eight bytes. -/
def saveValueV2 (userKey : UserKey) (row : KeyValue) : SaverState :=
  match InternalKey.decode (removeSuffix row.1) with
  | none => .corrupt
  | some key => saveValue userKey ⟨key, row.2⟩

/-- The loop of `MergedVGet`: it stops when a value is found, and only then. -/
def mergedValue (userKey : UserKey) (value : Bytes) : List KeyValue -> Bytes
  | [] => value
  | row :: rows =>
    match saveValueV2 userKey row with
    | .found result => result
    | .notFound => mergedValue userKey value rows
    | .deleted => mergedValue userKey value rows
    | .corrupt => mergedValue userKey value rows

/-- The metadata of a value file in `vfile_map_`. -/
def findVFile (version : Version InternalKey VKey) (number : Nat) : Option ValueFile :=
  (version.vfiles 0 ++ version.vfiles 1).find? (fun file => file.number = number)

/-- Follow the pointer that was found in a file.  The status of the lookup in the value
table is dropped. -/
def followPointer (db : Database) (userKey : UserKey) (value : Bytes) : Except String Bytes := do
  assertThat (12 ≤ value.length) "DecodeFixed32(value->c_str())"
  let pointer := ValuePointer.decode value
  let parent := (db.current.dep.findParent pointer.fileNumber).1
  if parent ≠ 0 then do
    assertThat (findVFile db.current parent).isSome "vfile_map_[file_number]->file_size"
    let rows <- mergedVGet (db.vtables parent) pointer.blockNumber
    return mergedValue userKey value rows
  else do
    assertThat (findVFile db.current pointer.fileNumber).isSome "vfile_map_[file_number]->file_size"
    match <- internalVGet (db.vtables pointer.fileNumber) pointer.blockNumber
        pointer.blockOffset with
    | none => return value
    | some row =>
      match saveValueV2 userKey row with
      | .found result => return result
      | .notFound => return value
      | .deleted => return value
      | .corrupt => return value

namespace Database

/-- The two memtables. -/
def memoryGet (db : Database) (key : InternalKey) (value : Bytes) : Option GetResult :=
  (memTableGet db.mem key value).or (db.imm.bind (fun imm => memTableGet imm key value))

/-- What follows when a version of the current files has been found. -/
def finishGet (config : Config) (db : Database) (userKey : UserKey) (result : GetResult) :
    Except String GetResult :=
  if config.mod = 10 ∧ result.status = .ok then do
    let value <- followPointer db userKey result.value
    return ⟨.ok, value⟩
  else .ok result

/-- `DBImpl::Get`, at a snapshot or at the last sequence number. -/
def get (config : Config) (db : Database) (userKey : UserKey) (snapshot : Option Nat)
    (value : Bytes) : Except String GetResult := do
  let key <- lookupKey userKey (snapshot.getD db.lastSequence)
  match db.memoryGet key value with
  | some result => return result
  | none =>
    let result <- versionGet config db.current.files db.tables key value
    db.finishGet config userKey result

end Database

/-- A key for lookups: no version of its user key up to its sequence number comes before. -/
structure IsLookupKey (key : InternalKey) (userKey : UserKey) (snapshot : Nat) : Prop where
  userKey : key.userKey = userKey
  sequence : key.sequence = snapshot
  type : key.type = some .value

omit [LinearOrder UserKey] in
theorem lookupKey_eq_ok (userKey : UserKey) {snapshot : Nat}
    (bounded : snapshot ≤ kMaxSequenceNumber) :
    ∃ key, lookupKey userKey snapshot = .ok key ∧ IsLookupKey key userKey snapshot := by
  have packed : packSequenceAndType snapshot .value =
      .ok (BitVec.ofNat 64 (snapshot * 256 + ValueType.value.code)) :=
    assertThat_bind_eq_ok.mpr ⟨bounded, rfl⟩
  refine ⟨_, bind_eq_ok.mpr ⟨_, packed, rfl⟩, rfl, ?_, ?_⟩
  · exact (packSequenceAndType_eq_ok packed userKey).1
  · exact (packSequenceAndType_eq_ok packed userKey).2

variable {entry : Entry} {key : InternalKey} {userKey : UserKey} {snapshot : Nat}
  (isKey : IsLookupKey key userKey snapshot)

section Seek
include isKey

theorem IsLookupKey.not_lt_iff (same : entry.key.userKey = userKey)
    (known : entry.key.type.isSome) : ¬ entry.key < key <-> entry.key.sequence ≤ snapshot := by
  have userKeys : entry.key.userKey = key.userKey := same.trans isKey.userKey.symm
  rw [InternalKey.lt_iff_of_userKey_eq userKeys, not_lt, <- isKey.sequence]
  constructor
  · exact InternalKey.sequence_le_of_tag_le
  · intro sequences
    exact InternalKey.tag_le_of_sequence_le sequences (Option.isSome_iff_ne_none.mp known)
      isKey.type

variable {entries : List Entry} (increasing : InKeyOrder entries)
  (known : ∀ entry ∈ entries, entry.key.type.isSome)
include increasing known

/-- In a list in order the first entry from the lookup key on is the newest visible
version, if it has the user key at all. -/
theorem IsLookupKey.answers : entryVersions.Answers entries userKey snapshot
      ((entries.find? (fun entry => !decide (entry.key < key))).filter
        (fun entry => entry.key.userKey = userKey)) := by
  induction entries with
  | nil => exact nofun
  | cons entry entries ih =>
    rcases pairwise_cons.mp increasing with ⟨first, later⟩
    have rest := ih later (fun other member => known other (mem_cons_of_mem _ member))
    by_cases before : entry.key < key
    · -- the entry is not visible, so the others decide
      have unseen : entryVersions.Unseen [entry] userKey snapshot := by
        intro other member same visible
        rw [mem_singleton.mp member] at same visible
        exact (isKey.not_lt_iff same (known entry mem_cons_self)).mpr visible before
      rw [find?_cons_of_neg (by simp [before])]
      exact rest.append_right unseen
    · rw [find?_cons_of_pos (by simp [before])]
      by_cases same : entry.key.userKey = userKey
      · rw [Option.filter_some_pos (by simpa using same)]
        refine ⟨mem_cons_self, same, (isKey.not_lt_iff same (known entry mem_cons_self)).mp before,
          forall_mem_cons.mpr ⟨fun _ _ => le_refl _, fun other inRest otherKey _ => ?_⟩⟩
        have less := (InternalKey.lt_iff_of_userKey_eq (same.trans otherKey.symm)).mp
          (first other inRest)
        exact InternalKey.sequence_le_of_tag_le (le_of_lt less)
      · rw [Option.filter_some_neg (by simpa using same)]
        -- the user keys from here on are larger
        have larger : userKey < entry.key.userKey := by
          refine lt_of_le_of_ne ?_ (fun equal => same equal.symm)
          rw [<- isKey.userKey]
          exact InternalKey.userKey_le_of_le (not_lt.mp before)
        refine forall_mem_cons.mpr ⟨fun here => absurd here same, fun other inRest otherKey => ?_⟩
        have above := InternalKey.userKey_le_of_le (le_of_lt (first other inRest))
        exact absurd otherKey (ne_of_gt (lt_of_lt_of_le larger above))

theorem IsLookupKey.find_eq (distinct : entryVersions.Distinct entries) :
    (entries.find? (fun entry => !decide (entry.key < key))).filter
        (fun entry => entry.key.userKey = userKey) =
      entryVersions.findNewest userKey snapshot entries :=
  (Versioned.findNewest_of_answers (isKey.answers increasing known) distinct).symm

end Seek

/-- What a version of a known type makes `Get` return. -/
def Entry.result (value : Bytes) (entry : Entry) : GetResult :=
  if entry.key.type = some .value then ⟨.ok, entry.value⟩ else ⟨.notFound, value⟩

include isKey in
theorem memTableGet_eq {entries : List Entry} (increasing : InWriteOrder entries)
    (known : ∀ entry ∈ entries, entry.key.type.isSome) (value : Bytes) :
    memTableGet entries key value =
      (entryVersions.findNewest userKey snapshot entries).map (Entry.result value) := by
  have mem_sorted {entry : Entry} :
      entry ∈ entries.insertionSort (fun a b => a.key ≤ b.key) <-> entry ∈ entries :=
    mem_insertionSort _
  have knownSorted : ∀ entry ∈ entries.insertionSort (fun a b => a.key ≤ b.key),
      entry.key.type.isSome := fun entry member => known entry (mem_sorted.mp member)
  have answer : entryVersions.Answers entries userKey snapshot _ :=
    (isKey.answers (sorted_memTable increasing) knownSorted).congr (fun _ _ => mem_sorted)
  rw [Versioned.findNewest_of_answers answer (distinct_of_increasing increasing)]
  unfold memTableGet
  cases found : (entries.insertionSort (fun a b => a.key ≤ b.key)).find?
      (fun entry => !decide (entry.key < key)) with
  | none => rfl
  | some entry =>
    dsimp only
    rw [isKey.userKey]
    by_cases same : entry.key.userKey = userKey
    · rcases Option.isSome_iff_exists.mp
        (knownSorted entry (mem_of_find?_eq_some found)) with ⟨type, isType⟩
      rw [if_pos same, Option.filter_some_pos (by simpa using same), Option.map_some,
        Entry.result, isType]
      cases type with
      | value => rfl
      | deletion => rfl
    · rw [if_neg same, Option.filter_some_neg (by simpa using same), Option.map_none]

/-- What a version of a known type leaves in the saver. -/
def Entry.saved (entry : Entry) : SaverState :=
  if entry.key.type = some .value then .found entry.value else .deleted

theorem saveValue_of_known {userKey : UserKey} (known : entry.key.type.isSome) :
    saveValue userKey entry = if entry.key.userKey = userKey then entry.saved else .notFound := by
  rcases Option.isSome_iff_exists.mp known with ⟨type, isType⟩
  cases type <;> simp [saveValue, InternalKey.parse, Entry.saved, isType]

variable (config : Config)

include isKey in
theorem tableGet_eq {entries : List Entry} (increasing : InKeyOrder entries)
    (known : ∀ entry ∈ entries, entry.key.type.isSome) (distinct : entryVersions.Distinct entries) :
    tableGet config entries key =
      .ok ((entryVersions.findNewest userKey snapshot entries).elim .notFound Entry.saved) := by
  have chain : entries.IsChain (fun first second => entryFormat.less first second = true) := by
    refine Pairwise.isChain (increasing.imp ?_)
    intro first second less
    exact decide_eq_true less
  rcases buildTable_total config.blockOptions chain with ⟨table, built⟩
  have holds := buildTable_eq_ok built
  have split : Block.Split (fun entry => decide (entry.key < key)) (tableEntries table.blocks) := by
    rw [holds.entries]
    refine increasing.imp ?_
    intro _ _ less isBelow
    exact decide_eq_true (lt_trans less (of_decide_eq_true isBelow))
  have sound : ∀ block ∈ table.blocks,
      (∃ entry ∈ block.entries, decide (entry.key.userKey = userKey) = true) ->
        config.filter.keyMayMatch userKey block = true := by
    rintro block _ ⟨entry, member, isWanted⟩
    rw [<- of_decide_eq_true isWanted]
    exact config.filter.sound block entry member
  have search := internalGet_eq split holds.proper sound
  rw [holds.entries, isKey.find_eq increasing known distinct] at search
  refine bind_eq_ok.mpr ⟨table, built, ?_⟩
  rw [isKey.userKey, <- search]
  cases found : internalGet (fun entry => decide (entry.key < key))
      (config.filter.keyMayMatch userKey) table.blocks with
  | none => rfl
  | some entry =>
    have member := internalGet_mem found
    rw [holds.entries] at member
    change Except.ok (saveValue userKey entry) = _
    rw [saveValue_of_known (known entry member)]
    by_cases same : entry.key.userKey = userKey
    · rw [if_pos same, Option.filter_some_pos (by simpa using same), Option.elim_some]
    · rw [if_neg same, Option.filter_some_neg (by simpa using same), Option.elim_none]

/-! ## The files of a version -/

variable {level : Nat}

theorem mem_of_mem_searchedFiles {files : List KeyFile} {key : InternalKey}
    {file : KeyFile} (member : file ∈ searchedFiles files level key) : file ∈ files := by
  unfold searchedFiles at member
  split at member
  · exact (mem_filter.mp ((mem_insertionSort _).mp member)).1
  · split at member
    · cases member
    · next found =>
        split at member
        · cases member
        · rw [mem_singleton.mp member]
          exact mem_of_getElem? found

theorem split_largest {files : List KeyFile} (sorted : files.Pairwise Precedes)
    (ranges : ∀ file ∈ files, file.smallest ≤ file.largest) (key : InternalKey) :
    files.Pairwise (fun first second =>
      decide (second.largest < key) = true -> decide (first.largest < key) = true) := by
  refine Pairwise.imp_of_mem ?_ sorted
  intro _ second _ isSecond precedes below
  exact decide_eq_true ((precedes.trans_le (ranges second isSecond)).trans
    (of_decide_eq_true below))

section VersionGet
variable {files : Nat -> List KeyFile} {tables : Nat -> List Entry} (layered : Layered files tables)
include layered

theorem Layered.distinct_level (level : Nat) : entryVersions.Distinct
    ((files level).flatMap (fun file => tables file.number)) := by
  intro a isEntry b isOther
  exact layered.identified level a b (mem_flatMap.mp isEntry) (mem_flatMap.mp isOther)

theorem Layered.distinct_table {file : KeyFile} (member : file ∈ files level) :
    entryVersions.Distinct (tables file.number) :=
  (layered.distinct_level level).of_subset (fun _ inFile => mem_flatMap.mpr ⟨file, member, inFile⟩)

theorem Layered.known_level (level : Nat) :
    ∀ entry ∈ (files level).flatMap (fun file => tables file.number), entry.key.type.isSome := by
  intro entry member
  rcases mem_flatMap.mp member with ⟨file, isFile, inFile⟩
  exact (layered.described level file isFile).parses entry inFile

include isKey

theorem getLoop_eq (value : Bytes) {searched : List KeyFile}
    (inFiles : ∀ file ∈ searched, ∃ level, file ∈ files level) :
    getLoop config tables key value searched =
      .ok ((searched.findSome? (fun file => entryVersions.findNewest userKey snapshot
        (tables file.number))).elim ⟨.ok, value⟩ (Entry.result value)) := by
  induction searched with
  | nil => rfl
  | cons file searched ih =>
    rcases forall_mem_cons.mp inFiles with ⟨⟨level, isFile⟩, others⟩
    have describes := layered.described level file isFile
    have got := tableGet_eq isKey config describes.increasing describes.parses
      (layered.distinct_table isFile)
    rw [findSome?_cons]
    refine bind_eq_ok.mpr ⟨_, got, ?_⟩
    cases entryVersions.findNewest userKey snapshot (tables file.number) with
    | none => exact ih others
    | some entry =>
      dsimp only [Option.elim_some, Entry.saved, Entry.result]
      by_cases isValue : entry.key.type = some .value
      · simp only [if_pos isValue]
        rfl
      · simp only [if_neg isValue]
        rfl

theorem findSome_level_zero : (searchedFiles (files 0) 0 key).findSome?
        (fun file => entryVersions.findNewest userKey snapshot (tables file.number)) =
      entryVersions.findNewest userKey snapshot
        ((files 0).flatMap (fun file => tables file.number)) := by
  have nodup : (((files 0).filter (fun file => Covers file key.userKey)).map
      FileMetaData.number).Nodup := by
    refine Nodup.map_on ?_ ((layered.sorted 0).nodup.filter _)
    intro file isFile other isOther same
    exact (layered.numbered 0 0 file (mem_filter.mp isFile).1 other
      (mem_filter.mp isOther).1 same).2
  have mem_searched {file : KeyFile} : file ∈ searchedFiles (files 0) 0 key <->
      file ∈ files 0 ∧ Covers file key.userKey := by
    rw [searchedFiles, if_pos rfl, mem_insertionSort, mem_filter, decide_eq_true_iff]
  have older : ((searchedFiles (files 0) 0 key).map (fun file => tables file.number)).Pairwise
      (fun newer older => entryVersions.Older older newer) := by
    refine pairwise_map.mpr (Pairwise.imp_of_mem ?_ (pairwise_newestFirst nodup))
    intro newer older isNewer isOlder less
    exact layered.newestFirst older (mem_searched.mp isOlder).1 newer (mem_searched.mp isNewer).1
      less
  have answer := Versioned.answers_findSome older
    (fun source _ => Versioned.answers_findNewest entryVersions userKey snapshot source)
  rw [findSome?_map] at answer
  refine (Versioned.findNewest_of_answers (answer.congr ?_) (layered.distinct_level 0)).symm
  intro entry isUserKey
  rw [<- flatMap_def, mem_flatMap, mem_flatMap]
  refine exists_congr fun file => ⟨fun ⟨isSearched, inFile⟩ => ⟨(mem_searched.mp isSearched).1,
    inFile⟩, fun ⟨isFile, inFile⟩ => ⟨mem_searched.mpr ⟨isFile, ?_⟩, inFile⟩⟩
  have covers := (layered.described 0 file isFile).covers inFile
  change entry.key.userKey = userKey at isUserKey
  rw [isUserKey] at covers
  rw [isKey.userKey]
  exact covers

omit isKey in
/-- At other levels the file that the binary search finds has the first entry from the
lookup key on. -/
theorem find_level (positive : level > 0) :
    ((files level).flatMap (fun file => tables file.number)).find?
        (fun entry => !decide (entry.key < key)) =
      (files level)[findFile (files level) key]?.bind (fun file =>
        (tables file.number).find? (fun entry => !decide (entry.key < key))) := by
  have split := split_largest (layered.disjoint level positive)
    (fun file isFile => (layered.described level file isFile).range) key
  unfold findFile
  rw [getElem?_lowerBound split, find?_flatMap]
  refine findSome_eq_bind_find ?_ ?_
  · intro file isFile below
    refine find?_eq_none.mpr fun entry inFile => ?_
    have small := lt_of_le_of_lt ((layered.described level file isFile).le_largest inFile)
      (of_decide_eq_true below)
    simp [small]
  · intro file isFile above
    rcases Option.map_eq_some_iff.mp (layered.described level file isFile).largest with
      ⟨last, isLast, sameKey⟩
    refine find?_isSome.mpr ⟨last, mem_of_getLast? isLast, ?_⟩
    rw [sameKey, above]
    rfl

theorem findSome_level_positive (positive : level > 0) :
    (searchedFiles (files level) level key).findSome?
        (fun file => entryVersions.findNewest userKey snapshot (tables file.number)) =
      entryVersions.findNewest userKey snapshot
        ((files level).flatMap (fun file => tables file.number)) := by
  rw [<- isKey.find_eq (layered.increasing_flatMap (fun _ member => member) (layered.disjoint level
    positive)) (layered.known_level level) (layered.distinct_level level), find_level layered
    positive, searchedFiles, if_neg (ne_of_gt positive)]
  cases found : (files level)[findFile (files level) key]? with
  | none => rfl
  | some file =>
    have isFile : file ∈ files level := mem_of_getElem? found
    have describes := layered.described level file isFile
    have search := isKey.find_eq describes.increasing describes.parses
      (layered.distinct_table isFile)
    dsimp only
    rw [Option.bind_some, search]
    by_cases past : key.userKey < file.smallest.userKey
    · rw [if_pos past]
      have unseen : entryVersions.Answers (tables file.number) userKey snapshot none := by
        intro entry inFile isUserKey
        have covers := describes.covers inFile
        change entry.key.userKey = userKey at isUserKey
        rw [isUserKey, <- isKey.userKey] at covers
        exact absurd past (not_lt.mpr covers.1)
      rw [Versioned.findNewest_of_answers unseen (layered.distinct_table isFile)]
      rfl
    · rw [if_neg past, findSome?_cons]
      cases entryVersions.findNewest userKey snapshot (tables file.number) <;> rfl

theorem versionGet_eq (value : Bytes) : versionGet config files tables key value =
    .ok ((entryVersions.findNewest userKey snapshot (versionEntries files tables)).elim
      ⟨.ok, value⟩ (Entry.result value)) := by
  have inFiles : ∀ file ∈ (range kNumLevels).flatMap
      (fun level => searchedFiles (files level) level key), ∃ level, file ∈ files level := by
    intro file member
    rcases mem_flatMap.mp member with ⟨level, _, isSearched⟩
    exact ⟨level, mem_of_mem_searchedFiles isSearched⟩
  have older : ((range kNumLevels).map (fun level =>
      (files level).flatMap (fun file => tables file.number))).Pairwise
      (fun newer older => entryVersions.Older older newer) := by
    refine pairwise_map.mpr (pairwise_lt_range.imp ?_)
    intro upper lower less a inLower b inUpper
    rcases mem_flatMap.mp inLower with ⟨other, isOther, inOther⟩
    rcases mem_flatMap.mp inUpper with ⟨file, isFile, inFile⟩
    exact layered.layers upper lower less file isFile other isOther a inOther b inFile
  have whole : _ = entryVersions.findNewest userKey snapshot (versionEntries files tables) :=
    Versioned.findSome_findNewest older layered.distinct (fun _ => Iff.rfl)
  have levels (level : Nat) : (searchedFiles (files level) level key).findSome?
      (fun file => entryVersions.findNewest userKey snapshot (tables file.number)) =
        entryVersions.findNewest userKey snapshot
          ((files level).flatMap (fun file => tables file.number)) := by
    rcases eq_zero_or_pos level with rfl | positive
    · exact findSome_level_zero isKey layered
    · exact findSome_level_positive isKey layered positive
  rw [versionGet, getLoop_eq isKey config layered value inFiles, findSome_flatMap, <- whole,
    findSome?_map]
  simp only [levels, Function.comp_def]

end VersionGet

namespace Database

/-- All entries, those of the memtables first. -/
def entries (db : Database) : List Entry :=
  db.mem ++ (db.imm.getD [] ++ versionEntries db.current.files db.tables)

/-- The newest visible version in the memtables. -/
def newestInMemory (db : Database) (userKey : UserKey) (snapshot : Nat) : Option Entry :=
  (entryVersions.findNewest userKey snapshot db.mem).or
    (entryVersions.findNewest userKey snapshot (db.imm.getD []))

/-- The newest visible version in the files. -/
def newestInFiles (db : Database) (userKey : UserKey) (snapshot : Nat) : Option Entry :=
  entryVersions.findNewest userKey snapshot (versionEntries db.current.files db.tables)

end Database

/-- The memtables and the files are layered. -/
structure Readable (db : Database) : Prop where
  layered : Layered db.current.files db.tables
  increasing : db.memory.Pairwise (fun a b => a.key.sequence < b.key.sequence)
  known : ∀ entry ∈ db.memory, entry.key.type.isSome
  newer : ∀ stored ∈ versionEntries db.current.files db.tables, ∀ entry ∈ db.memory,
    stored.key.sequence < entry.key.sequence

namespace Readable
variable {db : Database} (readable : Readable db)
include readable

theorem older_imm : entryVersions.Older (db.imm.getD []) db.mem :=
  fun a inImm b inMem _ => (pairwise_append.mp readable.increasing).2.2 a inImm b inMem

theorem older_files : entryVersions.Older (versionEntries db.current.files db.tables)
    (db.imm.getD []) :=
  fun a isStored b inImm _ => readable.newer a isStored b (mem_append_left _ inImm)

theorem older_rest : entryVersions.Older
    (db.imm.getD [] ++ versionEntries db.current.files db.tables) db.mem := by
  refine forall_mem_append.mpr ⟨readable.older_imm, fun a isStored b inMem _ => ?_⟩
  exact readable.newer a isStored b (mem_append_right _ inMem)

theorem known_entries (member : entry ∈ db.entries) : entry.key.type.isSome := by
  rcases mem_append.mp member with inMem | inRest
  · exact readable.known entry (mem_append_right _ inMem)
  · rcases mem_append.mp inRest with inImm | isStored
    · exact readable.known entry (mem_append_left _ inImm)
    · rcases (mem_versionEntries readable.layered.outside).mp isStored with
        ⟨level, file, isFile, inFile⟩
      exact (readable.layered.described level file isFile).parses entry inFile

/-- Sequence numbers identify the versions of a user key everywhere. -/
theorem distinct : entryVersions.Distinct db.entries := by
  rcases pairwise_append.mp readable.increasing with ⟨imm, mem, _⟩
  exact Versioned.distinct_append (distinct_of_increasing mem)
    (Versioned.distinct_append (distinct_of_increasing imm) readable.layered.distinct
      readable.older_files) readable.older_rest

variable (userKey : UserKey) (snapshot : Nat)

theorem findNewest_entries : entryVersions.findNewest userKey snapshot db.entries =
    (entryVersions.findNewest userKey snapshot db.mem).or
      ((entryVersions.findNewest userKey snapshot (db.imm.getD [])).or
        (entryVersions.findNewest userKey snapshot
          (versionEntries db.current.files db.tables))) := by
  have search := Versioned.answers_findNewest entryVersions userKey snapshot
  have rest := (search (db.imm.getD [])).append (search _) readable.older_files
  exact Versioned.findNewest_of_answers ((search db.mem).append rest readable.older_rest)
    readable.distinct

theorem memoryGet_eq {key : InternalKey} (isKey : IsLookupKey key userKey snapshot)
    (value : Bytes) : db.memoryGet key value =
      (db.newestInMemory userKey snapshot).map (Entry.result value) := by
  rcases pairwise_append.mp readable.increasing with ⟨imm, mem, _⟩
  have inMem := memTableGet_eq isKey mem
    (fun entry member => readable.known entry (mem_append_right _ member)) value
  have inImm : db.imm.bind (fun imm => memTableGet imm key value) =
      (entryVersions.findNewest userKey snapshot (db.imm.getD [])).map (Entry.result value) := by
    cases waiting : db.imm with
    | none => rfl
    | some entries =>
      have isImm : db.imm.getD [] = entries := by rw [waiting, Option.getD_some]
      rw [isImm] at imm
      exact memTableGet_eq isKey imm (fun entry member => readable.known entry
        (mem_append_left _ (by rw [isImm]; exact member))) value
  rw [Database.memoryGet, inMem, inImm, Database.newestInMemory, Option.map_or]

variable (value : Bytes) {chosen : Option Nat}
  (isSnapshot : chosen.getD db.lastSequence = snapshot) (bounded : snapshot ≤ kMaxSequenceNumber)
include isSnapshot bounded

theorem get_eq (config : Config) : db.get config userKey chosen value =
      match db.newestInMemory userKey snapshot with
      | some entry => .ok (entry.result value)
      | none => db.finishGet config userKey
          ((db.newestInFiles userKey snapshot).elim ⟨.ok, value⟩ (Entry.result value)) := by
  rcases lookupKey_eq_ok userKey bounded with ⟨key, isLookup, isKey⟩
  have got : db.get config userKey chosen value = (match db.memoryGet key value with
      | some result => .ok result
      | none => do
        let result <- versionGet config db.current.files db.tables key value
        db.finishGet config userKey result) := by
    rw [Database.get, isSnapshot, isLookup]
    rfl
  rw [got, readable.memoryGet_eq userKey snapshot isKey value,
    versionGet_eq isKey config readable.layered value]
  cases db.newestInMemory userKey snapshot <;> rfl

theorem get_eq_of_plain {config : Config} (plain : config.mod ≠ 10) : db.get config userKey chosen value =
      .ok ((entryVersions.findNewest userKey snapshot db.entries).elim ⟨.ok, value⟩
        (Entry.result value)) := by
  rw [readable.get_eq userKey snapshot value isSnapshot bounded config,
    readable.findNewest_entries userKey snapshot, <- Option.or_assoc]
  unfold Database.newestInMemory Database.newestInFiles
  cases (entryVersions.findNewest userKey snapshot db.mem).or
      (entryVersions.findNewest userKey snapshot (db.imm.getD [])) with
  | some entry => rfl
  | none =>
    exact if_neg (fun both => plain both.1)

end Readable

def afterFile (userKey : Option UserKey) (file : KeyFile) : Bool :=
  userKey.any (fun key => file.largest.userKey < key)

def beforeFile (userKey : Option UserKey) (file : KeyFile) : Bool :=
  userKey.any (fun key => key < file.smallest.userKey)

/-- `SomeFileOverlapsRange`.  The earliest key of a user key is packed as in a lookup. -/
def someFileOverlapsRange (disjointSortedFiles : Bool) (files : List KeyFile)
    (smallestUserKey largestUserKey : Option UserKey) : Except String Bool :=
  if disjointSortedFiles = false then
    return files.any (fun file =>
      !(afterFile smallestUserKey file || beforeFile largestUserKey file))
  else do
    let index <- match smallestUserKey with
      | none => pure 0
      | some key => findFile files <$> lookupKey key kMaxSequenceNumber
    return files[index]?.any (fun file => !beforeFile largestUserKey file)

section
variable {files : List KeyFile} (sorted : files.Pairwise Precedes)
  (ranges : ∀ file ∈ files, file.smallest ≤ file.largest)
include sorted ranges

/-- Of the files that do not end before the range the first one begins first. -/
theorem find_overlaps (smallest largest : Option UserKey) :
    (files.find? (fun file => !afterFile smallest file)).any
        (fun file => !beforeFile largest file) =
      files.any (fun file => !(afterFile smallest file || beforeFile largest file)) := by
  induction files with
  | nil => rfl
  | cons file files ih =>
    rcases pairwise_cons.mp sorted with ⟨first, later⟩
    rcases forall_mem_cons.mp ranges with ⟨range, others⟩
    cases after : afterFile smallest file with
    | true => simp [after, ih later others]
    | false =>
      cases before : beforeFile largest file with
      | false => simp [after, before]
      | true =>
        have none : ∀ other ∈ files, beforeFile largest other = true := by
          intro other member
          have next := InternalKey.userKey_le_of_le (range.trans_lt (first other member)).le
          cases largest with
          | none => cases before
          | some bound => exact decide_eq_true ((of_decide_eq_true before).trans_le next)
        simpa [after, before] using fun other member _ => none other member

/-- In a level the binary search gives the first file that does not end before the key, and
one look at that file answers for the level, also where files share a user key. -/
theorem someFileOverlapsRange_eq (key : InternalKey) (smallest largest : Option UserKey)
    (disjoint : Bool) : findFile files key = files.findIdx (fun file => key ≤ file.largest) ∧
      ((∀ file ∈ files, file.largest.type ≠ none) ->
        someFileOverlapsRange disjoint files smallest largest =
          .ok (files.any (fun file => Overlaps smallest largest file))) := by
  have split := split_largest sorted ranges
  have each : (fun file => decide (Overlaps smallest largest file)) =
      fun file => !(afterFile smallest file || beforeFile largest file) := by
    funext file
    rw [Bool.eq_iff_iff]
    cases smallest <;> cases largest <;> simp [Overlaps, afterFile, beforeFile]
  constructor
  · rw [findFile, lowerBound_eq_findIdx (split key) fun _ _ => rfl]
    simp [<- decide_not]
  · intro known
    rw [each]
    cases disjoint with
    | false => rfl
    | true =>
      rw [<- find_overlaps sorted ranges]
      cases smallest with
      | none => cases files <;> rfl
      | some userKey =>
        rcases lookupKey_eq_ok userKey (le_refl kMaxSequenceNumber) with ⟨small, isSmall, isKey⟩
        have found : files[findFile files small]? =
            files.find? (fun file => !afterFile (some userKey) file) := by
          rw [findFile, getElem?_lowerBound (split small)]
          refine find?_congr fun file member => congrArg _ (decide_eq_decide.mpr ?_)
          rw [<- isKey.userKey]
          exact InternalKey.lt_sought_iff (isKey.sequence ▸ file.largest.sequence_le_max)
            (known file member) isKey.type
        rw [<- found]
        simp only [someFileOverlapsRange, isSmall]
        rfl

end

end

section Bytewise

open Bytewise

/-- Files that share a user key with their neighbour, in a range of just that key. -/
theorem someFileOverlapsRange_versionFiles :
    someFileOverlapsRange true (versionFiles 1) (some ⟨[107]⟩) (some ⟨[107]⟩) = .ok true :=
  (someFileOverlapsRange_eq (by decide) (by decide) ⟨⟨[107]⟩, 1⟩ _ _ true).2 (by decide)

/-- A file of one user key whose tags have the largest sequence number and types that are not
known.  The key that the binary search looks for comes after the whole file. -/
def untypedFile : KeyFile := ⟨5, 1, ⟨⟨[107]⟩, 0xFFFFFFFFFFFFFF03⟩, ⟨⟨[107]⟩, 0xFFFFFFFFFFFFFF02⟩⟩

/-- The file has the user key, as the check of every file finds.  The fast path passes it by. -/
theorem someFileOverlapsRange_untyped : untypedFile.smallest ≤ untypedFile.largest ∧
    someFileOverlapsRange true [untypedFile] (some ⟨[107]⟩) (some ⟨[107]⟩) = .ok false ∧
    someFileOverlapsRange false [untypedFile] (some ⟨[107]⟩) (some ⟨[107]⟩) = .ok true := by
  refine ⟨by decide +kernel, eq_ok_of_toOption ?_, rfl⟩
  decide +kernel

end Bytewise

end Db
end Doux
