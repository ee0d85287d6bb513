import Doux.Db.Journal

namespace Doux
namespace Db

open Foundation Util Table List

/-!
# Writing, crashing and reopening

This module follows the contents of a database from `Write` through the memtables and
their flushes, and through a crash after which `DB::Open` reads the logs again.  The
memtables are lost in a crash; the tables, the logs and what the manifest says stay.

A log is the list of the batches that were written to it; `Doux.Log.RoundTrip` says that
its file reads back as these.  Compactions change neither logs nor memtables and are left
out here.  File operations succeed.

Three places flush a memtable: `CompactMemTable`, and in `RecoverLogFile` the loop over
the records and the end.  In each of them a memtable without entries is an error, and
such memtables arise: from a forced switch, and from a log in which all batches are
empty.
-/

/-- The settings of a database.  `isFull` tells whether a memtable uses more memory than
`write_buffer_size`, and `beyond` is what stands behind a value in memory. -/
structure ReopenSettings where
  mod : Nat
  blockOptions : BlockOptions
  beyond : KeyValue -> BitVec 64
  isFull : List Entry -> Bool
  reuseLogs : Bool
  paranoidChecks : Bool

/-- A flushed table: the rows of the key table, and the value table if there is one. -/
structure FlushedFile where
  number : Nat
  keys : List KeyValue
  values : Option (List (Block KeyValue))

/-- A row of the key table with the value that belongs to it.  With a value table the row
has the place of the value. -/
def FlushedFile.resolve (file : FlushedFile) (row : KeyValue) : Option KeyValue :=
  match file.values with
  | none => some row
  | some blocks =>
    let pointer := ValuePointer.decode row.2
    if pointer.fileNumber = file.number % 2 ^ 32 then
      (entryAt blocks pointer.blockNumber pointer.blockOffset).map (fun found => (row.1, found.2))
    else none

def FlushedFile.contents (file : FlushedFile) : List (Option KeyValue) :=
  file.keys.map file.resolve

/-- The state of a database.  `logNumber`, `savedFileNumber` and `savedSequence` are
what the manifest says: the first log that is still needed, the next file number and the
last sequence number. -/
structure Store where
  tables : List FlushedFile
  olderLogs : List LogFile
  log : LogFile
  logNumber : Nat
  savedFileNumber : Nat
  savedSequence : Nat
  nextFileNumber : Nat
  lastSequence : Nat
  mem : List Entry
  imm : Option (List Entry)

namespace Store

/-- A new database, with its first log.  The flag tells whether the manifest that
`NewDB` made goes on being used; then it does not mention the log. -/
def new (reuseManifest : Bool) : Store where
  tables := []
  olderLogs := []
  log := ⟨3, []⟩
  logNumber := if reuseManifest then 0 else 3
  savedFileNumber := if reuseManifest then 2 else 4
  savedSequence := 0
  nextFileNumber := 4
  lastSequence := 0
  mem := []
  imm := none

/-- What is in the tables and in the memtables. -/
def contents (db : Store) : List (Option KeyValue) :=
  db.tables.flatMap FlushedFile.contents ++
    (db.imm.getD [] ++ db.mem).map (fun entry => some entry.bytes)

/-- `DBImpl::Write`.  As in `Doux.Db.Database`, the model stops before the sequence
numbers are used up. -/
def write (db : Store) (batch : WriteBatch) : Except String Store := do
  let record := batch.setSequence (db.lastSequence + 1)
  assertThat (record.insertInto.2 = .ok) "WriteBatch has wrong count"
  assertThat (db.lastSequence + batch.records.length < kMaxSequenceNumber)
    "sequence numbers used up"
  return { db with
    log := ⟨db.log.number, db.log.batches ++ [record]⟩
    mem := db.mem ++ record.memTableEntries
    lastSequence := db.lastSequence + batch.records.length }

/-- `MakeRoomForWrite` when it switches to a new memtable and a new log. -/
def switchMemTable (db : Store) : Store :=
  if db.imm.isSome then db
  else { db with
    olderLogs := db.olderLogs ++ [db.log]
    log := ⟨db.nextFileNumber, []⟩
    nextFileNumber := db.nextFileNumber + 1
    imm := some db.mem
    mem := [] }

def journal (db : Store) : Journal := ⟨db.olderLogs, db.log, db.logNumber⟩

def neededLogs (db : Store) : List LogFile := db.journal.neededLogs

end Store

section
variable [LinearOrder UserKey]

def ReopenSettings.writeLevel0Table (settings : ReopenSettings) (number : Nat) (mem : List Entry) :
    Except String FlushedFile :=
  let rows := (mem.insertionSort (fun a b => a.key ≤ b.key)).map Entry.bytes
  if settings.mod = 9 ∨ SortsValues settings.mod then do
    let tables <- buildDuTable settings.mod settings.blockOptions settings.beyond number rows
    assertThat (8 ≤ tables.kends.smallest.length ∧ 8 ≤ tables.kends.largest.length)
      "internal_key.size() >= 8"
    return ⟨number, tableEntries tables.kblocks, some tables.vblocks⟩
  else do
    let table <- buildTable (keyValueFormat internalLess) settings.blockOptions rows
    assertThat (rows ≠ []) "NotFound: Empty"
    return ⟨number, tableEntries table.blocks, none⟩

/-- `CompactMemTable`.  Where the model fails, the code records a background error. -/
def Store.compactMemTable (settings : ReopenSettings) (db : Store) : Except String Store :=
  match db.imm with
  | none => .ok db
  | some entries => do
    let file <- settings.writeLevel0Table db.nextFileNumber entries
    return { db with
      tables := db.tables ++ [file]
      logNumber := db.log.number
      savedFileNumber := db.nextFileNumber + 1
      savedSequence := db.lastSequence
      nextFileNumber := db.nextFileNumber + 1
      imm := none }

/-- What `Recover` has changed: the next file number, the new tables, the largest
sequence number, and whether the manifest has to be written. -/
structure Recovery where
  nextFileNumber : Nat
  added : List FlushedFile
  maxSequence : Nat
  saveManifest : Bool

/-- The variables of the loop of `RecoverLogFile`. -/
structure LogReplay where
  recovery : Recovery
  mem : Option (List Entry)
  compactions : Nat

/-- Flush a memtable to level zero. -/
def Recovery.flush (settings : ReopenSettings) (recovery : Recovery) (mem : List Entry) :
    Except String Recovery := do
  let file <- settings.writeLevel0Table recovery.nextFileNumber mem
  return { recovery with
    nextFileNumber := recovery.nextFileNumber + 1
    added := recovery.added ++ [file]
    saveManifest := true }

/-- One record of a log. -/
def LogReplay.visit (settings : ReopenSettings) (replay : LogReplay) (batch : WriteBatch) :
    Except String LogReplay := do
  assertThat (batch.insertInto.2 = .ok ∨ settings.paranoidChecks = false)
    "WriteBatch has wrong count"
  let mem := replay.mem.getD [] ++ batch.memTableEntries
  let recovery := { replay.recovery with
    maxSequence := max replay.recovery.maxSequence batch.lastSequence }
  if settings.isFull mem then do
    let recovery <- recovery.flush settings mem
    return ⟨recovery, none, replay.compactions + 1⟩
  else return ⟨recovery, some mem, replay.compactions⟩

/-- `RecoverLogFile`.  With the last log it may return its memtable for reuse. -/
def Recovery.recoverLogFile (settings : ReopenSettings) (lastLog : Bool) (recovery : Recovery)
    (log : LogFile) : Except String (Recovery × Option (List Entry)) := do
  let replay <- log.batches.foldlM (LogReplay.visit settings) ⟨recovery, none, 0⟩
  if settings.reuseLogs ∧ lastLog ∧ replay.compactions = 0 then
    return (replay.recovery, some (replay.mem.getD []))
  else
    match replay.mem with
    | none => return (replay.recovery, none)
    | some mem => do
      let recovery <- replay.recovery.flush settings mem
      return (recovery, none)

def Recovery.markFileNumberUsed (recovery : Recovery) (number : Nat) : Recovery :=
  { recovery with nextFileNumber := max recovery.nextFileNumber (number + 1) }

/-- The loop of `Recover` over the logs. -/
def Recovery.recoverLogFiles (settings : ReopenSettings) :
    Recovery -> List LogFile -> Except String (Recovery × Option (List Entry))
  | recovery, [] => .ok (recovery, none)
  | recovery, log :: logs => do
    let result <- recovery.recoverLogFile settings logs.isEmpty log
    let recovery := result.1.markFileNumberUsed log.number
    if logs = [] then return (recovery, result.2)
    else recoverLogFiles settings recovery logs

/-- The manifest after the recovery: `LogAndApply`, unless there is nothing to save. -/
def Store.saved (db : Store) (recovery : Recovery) : Store :=
  if recovery.saveManifest then { db with
    tables := db.tables ++ recovery.added
    logNumber := db.log.number
    savedFileNumber := db.nextFileNumber
    savedSequence := db.lastSequence }
  else db

/-- The end of `DB::Open`.  If the last log is reused, its memtable is the current one;
otherwise there is a new log. -/
def Store.opened (db : Store) (result : Recovery × Option (List Entry)) : Store :=
  let lastSequence := max db.savedSequence result.1.maxSequence
  match result.2 with
  | some mem => Store.saved { db with
      nextFileNumber := result.1.nextFileNumber
      lastSequence := lastSequence
      mem := mem
      imm := none } result.1
  | none => Store.saved { db with
      olderLogs := db.olderLogs ++ [db.log]
      log := ⟨result.1.nextFileNumber, []⟩
      nextFileNumber := result.1.nextFileNumber + 1
      lastSequence := lastSequence
      mem := []
      imm := none } result.1

/-- `DB::Open` after a crash.  The flag tells whether the manifest goes on being used. -/
def Store.reopen (settings : ReopenSettings) (reuseManifest : Bool) (db : Store) :
    Except String Store := do
  let result <- Recovery.recoverLogFiles settings ⟨db.savedFileNumber + 1, [], 0, !reuseManifest⟩
    db.neededLogs
  return db.opened result

inductive StoreEvent where
  | write (batch : WriteBatch)
  | switchMemTable
  | compactMemTable
  /-- A crash after the logs are durable, and `DB::Open`. -/
  | reopen (reuseManifest : Bool)

def Store.step (settings : ReopenSettings) (db : Store) : StoreEvent -> Except String Store
  | .write batch => db.write batch
  | .switchMemTable => .ok db.switchMemTable
  | .compactMemTable => db.compactMemTable settings
  | .reopen reuseManifest => db.reopen settings reuseManifest

/-- A run from a new database. -/
def Store.run (settings : ReopenSettings) (reuseManifest : Bool) (events : List StoreEvent) :
    Except String Store :=
  events.foldlM (Store.step settings) (.new reuseManifest)

/-- A memtable whose flush writes what it should.  With `MOD` 9 none does, and with
`MOD` 10 the keys are sorted as byte strings and places are 32-bit integers. -/
structure Flushable (settings : ReopenSettings) (mem : List Entry) : Prop where
  nonempty : mem ≠ []
  keepsKeys : settings.mod ≠ 9
  bytewise : settings.mod = 10 -> forall a b : UserKey, a < b <-> a.bytes < b.bytes
  short : settings.mod = 10 -> mem.length < 2 ^ 32

/-- The table has the contents of the memtable. -/
structure FlushedFile.Holds (file : FlushedFile) (number : Nat) (mem : List Entry) : Prop where
  number : file.number = number
  contents : file.contents.Perm (mem.map (fun entry => some entry.bytes))

variable {settings : ReopenSettings}
  (known : settings.mod = 0 ∨ settings.mod = 9 ∨ settings.mod = 10)

section
variable {number : Nat} {mem : List Entry}

theorem writeLevel0Table_of_plain (plain : ¬ (settings.mod = 9 ∨ SortsValues settings.mod))
    (nonempty : mem ≠ []) (increasing : InWriteOrder mem) :
    ∃ file, settings.writeLevel0Table number mem = .ok file ∧ file.Holds number mem := by
  have perm := perm_insertionSort (fun a b : Entry => a.key ≤ b.key) mem
  have ordered := sorted_memTable increasing
  have chain : ((mem.insertionSort (fun a b => a.key ≤ b.key)).map Entry.bytes).IsChain
      (fun first second => (keyValueFormat internalLess).less first second = true) := by
    rw [isChain_map]
    exact (ordered.imp (fun {a b} less => (internalLess_encode a.key b.key).mpr less)).isChain
  rcases buildTable_total settings.blockOptions chain with ⟨table, built⟩
  have holds := buildTable_eq_ok built
  have some_ : (mem.insertionSort (fun a b => a.key ≤ b.key)).map Entry.bytes ≠ [] := by
    rw [ne_eq, map_eq_nil_iff]
    exact fun empty => nonempty (perm_nil.mp (empty ▸ perm).symm)
  unfold ReopenSettings.writeLevel0Table
  rw [if_neg plain, built]
  refine ⟨_, assertThat_bind_eq_ok.mpr ⟨some_, rfl⟩, rfl, ?_⟩
  change ((tableEntries table.blocks).map some).Perm _
  rw [holds.entries, map_map]
  exact perm.map _

theorem writeLevel0Table_plain (zero : settings.mod = 0) (nonempty : mem ≠ [])
    (increasing : InWriteOrder mem) :
    ∃ file, settings.writeLevel0Table number mem = .ok file ∧ file.Holds number mem := by
  apply writeLevel0Table_of_plain _ nonempty increasing
  rw [zero]
  decide

omit [LinearOrder UserKey] in
theorem resolve_pointerRow {entries sorted : List Entry} {rows : List (Entry × ValuePointer)}
    {tables : DuTables} (holds : tables.Holds settings.beyond number entries sorted rows)
    (short : entries.length < 2 ^ 32) {row : Entry × ValuePointer} (member : row ∈ rows) :
    FlushedFile.resolve ⟨number, tableEntries tables.kblocks, some tables.vblocks⟩
      (row.1.key.encode, row.2.encode) = some row.1.bytes := by
  rcases holds.located row member with ⟨file, here⟩
  rcases entryAt_lt holds.vproper here with ⟨block, offset⟩
  have length : (tableEntries tables.vblocks).length = entries.length := by
    rw [holds.values, length_map, holds.perm.length_eq]
  rw [length] at block offset
  have decoded := row.2.decode_encode
  rw [file, Nat.mod_eq_of_lt (lt_trans block short), Nat.mod_eq_of_lt (lt_trans offset short)]
    at decoded
  unfold FlushedFile.resolve
  dsimp only
  rw [decoded]
  rw [if_pos rfl, here]
  rfl

/-- With `MOD` 10 a pair of tables that could be written has the contents of the memtable. -/
theorem FlushedFile.holds_of_du (ten : settings.mod = 10) (short : mem.length < 2 ^ 32)
    (increasing : InWriteOrder mem) {file : FlushedFile}
    (written : settings.writeLevel0Table number mem = .ok file) : file.Holds number mem := by
  have perm := perm_insertionSort (fun a b : Entry => a.key ≤ b.key) mem
  unfold ReopenSettings.writeLevel0Table at written
  rw [ten, if_pos (by decide)] at written
  rcases bind_eq_ok.mp written with ⟨tables, built, finish⟩
  cases (assertThat_bind_eq_ok.mp finish).2
  rcases buildDuTable_holds (sorted_memTable increasing) built with ⟨_, rows, holds⟩
  refine ⟨rfl, ?_⟩
  have few : (mem.insertionSort (fun a b => a.key ≤ b.key)).length < 2 ^ 32 := by
    rw [perm.length_eq]
    exact short
  have contents : FlushedFile.contents ⟨number, tableEntries tables.kblocks, some tables.vblocks⟩ =
      rows.map (fun row => some row.1.bytes) := by
    unfold FlushedFile.contents
    rw [holds.keys, map_map]
    exact map_congr_left (fun row member => resolve_pointerRow holds few member)
  rw [contents, show rows.map (fun row => some row.1.bytes) =
    (rows.map Prod.fst).map (fun entry => some entry.bytes) by rw [map_map]; rfl,
    holds.entries]
  exact perm.map _

/-- `BuildDuTable` with `MOD` 10 on a memtable with entries. -/
theorem writeLevel0Table_du (ten : settings.mod = 10) (flushable : Flushable settings mem)
    (increasing : InWriteOrder mem) :
    ∃ file, settings.writeLevel0Table number mem = .ok file ∧ file.Holds number mem := by
  have perm := perm_insertionSort (fun a b : Entry => a.key ≤ b.key) mem
  have ordered := sorted_memTable increasing
  have nonempty : mem.insertionSort (fun a b => a.key ≤ b.key) ≠ [] :=
    fun empty => flushable.nonempty (perm_nil.mp (empty ▸ perm).symm)
  have total : ∃ tables, buildDuTable 10 settings.blockOptions settings.beyond number _ =
      .ok tables := buildDuTable_total ordered (flushable.bytewise ten) nonempty _ number
  rcases total with ⟨tables, built⟩
  rcases buildDuTable_holds ordered built with ⟨_, rows, holds⟩
  have keyTable := holds.keyTableOk ordered
  have long {row : KeyValue} (member : row ∈ tableEntries tables.kblocks) : 8 ≤ row.1.length := by
    rw [holds.keys] at member
    rcases mem_map.mp member with ⟨_, _, rfl⟩
    rw [InternalKey.length_encode]
    exact Nat.le_add_left _ _
  have smallest : 8 ≤ tables.kends.smallest.length := by
    rcases Option.map_eq_some_iff.mp keyTable.smallest with ⟨row, isFirst, same⟩
    rw [<- same]
    exact long (mem_of_head? isFirst)
  have largest : 8 ≤ tables.kends.largest.length := by
    rcases Option.map_eq_some_iff.mp keyTable.largest with ⟨row, isLast, same⟩
    rw [<- same]
    exact long (mem_of_getLast? isLast)
  have written : settings.writeLevel0Table number mem =
      .ok ⟨number, tableEntries tables.kblocks, some tables.vblocks⟩ := by
    unfold ReopenSettings.writeLevel0Table
    rw [ten, if_pos (by decide), built]
    exact assertThat_bind_eq_ok.mpr ⟨⟨smallest, largest⟩, rfl⟩
  exact ⟨_, written, FlushedFile.holds_of_du ten (flushable.short ten) increasing written⟩

include known in
theorem Flushable.writeLevel0Table (flushable : Flushable settings mem)
    (increasing : InWriteOrder mem) (number : Nat) :
    ∃ file, settings.writeLevel0Table number mem = .ok file ∧ file.Holds number mem := by
  rcases known with zero | nine | ten
  · exact writeLevel0Table_plain zero flushable.nonempty increasing
  · exact absurd nine flushable.keepsKeys
  · exact writeLevel0Table_du ten flushable increasing

end

/-! ## The memtables of a recovery -/

namespace ReopenSettings

/-- The memtables that get full while batches are replayed, and what is left at the end.
The first argument is the memtable so far, if there is one. -/
def memTables (settings : ReopenSettings) :
    Option (List Entry) -> List WriteBatch -> List (List Entry) × Option (List Entry)
  | mem, [] => ([], mem)
  | mem, batch :: batches =>
    let next := mem.getD [] ++ batch.memTableEntries
    if settings.isFull next then
      let rest := settings.memTables none batches
      (next :: rest.1, rest.2)
    else settings.memTables (some next) batches

/-- Whether the last log goes on being used: none of its memtables got full. -/
def ReusesLog (settings : ReopenSettings) (lastLog : Bool) (log : LogFile) : Prop :=
  settings.reuseLogs ∧ lastLog ∧ (settings.memTables none log.batches).1 = []

instance (settings : ReopenSettings) (lastLog : Bool) (log : LogFile) :
    Decidable (settings.ReusesLog lastLog log) :=
  inferInstanceAs (Decidable (_ ∧ _ ∧ _))

/-- The memtables that the recovery of a log flushes. -/
def flushedOfLog (settings : ReopenSettings) (lastLog : Bool) (log : LogFile) : List (List Entry) :=
  (settings.memTables none log.batches).1 ++
    if settings.ReusesLog lastLog log then []
    else (settings.memTables none log.batches).2.toList

/-- The memtables that a recovery flushes. -/
def flushedOfLogs (settings : ReopenSettings) : List LogFile -> List (List Entry)
  | [] => []
  | log :: logs => settings.flushedOfLog logs.isEmpty log ++ settings.flushedOfLogs logs

end ReopenSettings

omit [LinearOrder UserKey] in
theorem WriteBatch.WellFormed.lastSequence_setSequence {batch : WriteBatch}
    (wellFormed : batch.WellFormed) {sequence : Nat}
    (room : sequence + batch.records.length < kMaxSequenceNumber) :
    (batch.setSequence (sequence + 1)).lastSequence = sequence + batch.records.length := by
  unfold kMaxSequenceNumber at room
  unfold WriteBatch.lastSequence
  rw [show (batch.setSequence (sequence + 1)).count = batch.records.length from wellFormed]
  change (((sequence + 1 : Nat) + (batch.records.length : Int) - 1) % 2 ^ 64).toNat = _
  omega

omit [LinearOrder UserKey] in
/-- The memtables have all entries, in their order. -/
theorem flatten_memTables (settings : ReopenSettings) (mem : Option (List Entry))
    (batches : List WriteBatch) :
    (settings.memTables mem batches).1.flatten ++ (settings.memTables mem batches).2.getD [] =
      mem.getD [] ++ batches.flatMap WriteBatch.memTableEntries := by
  induction batches generalizing mem with
  | nil => simp [ReopenSettings.memTables]
  | cons batch batches ih =>
    unfold ReopenSettings.memTables
    dsimp only
    rw [flatMap_cons, <- append_assoc]
    split
    · have rest := ih none
      rw [flatten_cons, append_assoc, rest]
      rfl
    · exact ih _

/-- The files have the entries, and their numbers are increasing and in the given range. -/
structure FlushesTo (flushed : List Entry) (low high : Nat) (files : List FlushedFile) : Prop where
  contents : (files.flatMap FlushedFile.contents).Perm (flushed.map (fun entry => some entry.bytes))
  numbers : files.Pairwise (fun first second => first.number < second.number)
  range : ∀ file ∈ files, low ≤ file.number ∧ file.number < high

section
omit [LinearOrder UserKey]

theorem FlushesTo.widen {flushed : List Entry} {low high lower higher : Nat}
    {files : List FlushedFile} (flushes : FlushesTo flushed low high files) (below : lower ≤ low)
    (above : high ≤ higher) : FlushesTo flushed lower higher files :=
  ⟨flushes.contents, flushes.numbers, fun file member =>
    ⟨le_trans below (flushes.range file member).1, lt_of_lt_of_le
      (flushes.range file member).2 above⟩⟩

/-- One table has the contents of one memtable. -/
theorem FlushedFile.Holds.flushesTo {file : FlushedFile} {number low : Nat} {mem : List Entry}
    (holds : file.Holds number mem) (below : low ≤ number) :
    FlushesTo mem low (number + 1) [file] := by
  refine ⟨?_, pairwise_singleton _ _, forall_mem_singleton.mpr ?_⟩
  · rw [flatMap_singleton]
    exact holds.contents
  · rw [holds.number]
    exact ⟨below, Nat.lt_succ_self _⟩

theorem FlushesTo.append {flushed more : List Entry} {low middle high : Nat}
    {files others : List FlushedFile} (first : FlushesTo flushed low middle files)
    (second : FlushesTo more middle high others) (below : low ≤ middle) (above : middle ≤ high) :
    FlushesTo (flushed ++ more) low high (files ++ others) := by
  refine ⟨?_, ?_, ?_⟩
  · rw [flatMap_append, map_append]
    exact first.contents.append second.contents
  · refine pairwise_append.mpr ⟨first.numbers, second.numbers, ?_⟩
    intro file member other isOther
    exact lt_of_lt_of_le (first.range file member).2 (second.range other isOther).1
  · exact forall_mem_append.mpr
      ⟨(first.widen (le_refl _) above).range, (second.widen below (le_refl _)).range⟩

end

/-- A part of a recovery: the tables that it adds have the given entries, the given
batches have been read, and the manifest has to be written if there is a new table. -/
structure Recovery.Adds (before after : Recovery) (flushed : List Entry)
    (batches : List WriteBatch) : Prop where
  tables : ∃ files, after.added = before.added ++ files ∧
    FlushesTo flushed before.nextFileNumber after.nextFileNumber files ∧
    (after.saveManifest = false -> files = [])
  saves : after.saveManifest = false -> flushed = [] ∧ before.saveManifest = false
  grows : before.nextFileNumber ≤ after.nextFileNumber
  larger : before.maxSequence ≤ after.maxSequence
  bounds : ∀ batch ∈ batches, batch.lastSequence ≤ after.maxSequence
  attained : after.maxSequence = before.maxSequence ∨
    ∃ batch ∈ batches, after.maxSequence = batch.lastSequence

namespace Recovery.Adds
variable {before middle after : Recovery} {flushed more : List Entry}
  {batches others : List WriteBatch}

section
omit [LinearOrder UserKey]

theorem quiet (added : after.added = before.added)
    (manifest : after.saveManifest = before.saveManifest)
    (grows : before.nextFileNumber ≤ after.nextFileNumber)
    (larger : before.maxSequence ≤ after.maxSequence)
    (bounds : ∀ batch ∈ batches, batch.lastSequence ≤ after.maxSequence)
    (attained : after.maxSequence = before.maxSequence ∨
      ∃ batch ∈ batches, after.maxSequence = batch.lastSequence) :
    Adds before after [] batches where
  tables := ⟨[], by rw [added, append_nil], ⟨Perm.nil, Pairwise.nil, nofun⟩, fun _ => rfl⟩
  saves := fun unsaved => ⟨rfl, manifest ▸ unsaved⟩
  grows := grows
  larger := larger
  bounds := bounds
  attained := attained

theorem trans (first : Adds before middle flushed batches)
    (second : Adds middle after more others) :
    Adds before after (flushed ++ more) (batches ++ others) := by
  rcases first.tables with ⟨files, added, flushes, unsaved⟩
  rcases second.tables with ⟨later, addedLater, flushesLater, unsavedLater⟩
  refine ⟨⟨files ++ later, ?_, flushes.append flushesLater first.grows second.grows, ?_⟩, ?_,
    le_trans first.grows second.grows, le_trans first.larger second.larger, ?_, ?_⟩
  · rw [addedLater, added, append_assoc]
  · intro quiet
    rw [unsaved (second.saves quiet).2, unsavedLater quiet, append_nil]
  · intro quiet
    rcases second.saves quiet with ⟨nothing, quietBefore⟩
    rcases first.saves quietBefore with ⟨nothingBefore, quietStart⟩
    exact ⟨by rw [nothing, nothingBefore, append_nil], quietStart⟩
  · refine forall_mem_append.mpr ⟨fun batch isFirst => ?_, second.bounds⟩
    exact le_trans (first.bounds batch isFirst) second.larger
  · rcases second.attained with same | ⟨batch, member, same⟩
    · rcases first.attained with again | ⟨batch, member, again⟩
      · exact Or.inl (same.trans again)
      · exact Or.inr ⟨batch, mem_append_left _ member, same.trans again⟩
    · exact Or.inr ⟨batch, mem_append_right _ member, same⟩

/-- A recovery that reads the needed records finds the last sequence number. -/
theorem lastSequence_eq (adds : Adds before after flushed batches) (zero : before.maxSequence = 0)
    {savedSequence lastSequence : Nat} (counts : Counts savedSequence batches lastSequence) :
    max savedSequence after.maxSequence = lastSequence := by
  refine le_antisymm (max_le counts.saved ?_) ?_
  · rcases adds.attained with none | ⟨batch, member, same⟩
    · exact le_of_eq_of_le (none.trans zero) (Nat.zero_le _)
    · exact le_of_eq_of_le same (counts.bounds batch member)
  · rcases counts.attained with same | ⟨batch, member, same⟩
    · exact le_of_eq_of_le same.symm (le_max_left _ _)
    · exact le_of_eq_of_le same.symm (le_max_of_le_right (adds.bounds batch member))

variable (recovery : Recovery)

theorem refl : Adds recovery recovery [] [] :=
  quiet rfl rfl (le_refl _) (le_refl _) nofun (Or.inl rfl)

theorem read (batch : WriteBatch) : Adds recovery
      { recovery with maxSequence := max recovery.maxSequence batch.lastSequence } [] [batch] := by
  refine quiet rfl rfl (le_refl _) (le_max_left _ _) ?_ ?_
  · exact forall_mem_singleton.mpr (le_max_right _ _)
  · rcases max_choice recovery.maxSequence batch.lastSequence with same | same
    · exact Or.inl same
    · exact Or.inr ⟨batch, mem_cons_self, same⟩

theorem mark (number : Nat) : Adds recovery (recovery.markFileNumberUsed number) [] [] :=
  quiet rfl rfl (le_max_left _ _) (le_refl _) nofun (Or.inl rfl)

end

include known in
theorem flush {mem : List Entry} (flushable : Flushable settings mem)
    (increasing : InWriteOrder mem) (recovery : Recovery) :
    ∃ next, recovery.flush settings mem = .ok next ∧ Adds recovery next mem [] := by
  rcases flushable.writeLevel0Table known increasing recovery.nextFileNumber with
    ⟨file, written, holds⟩
  unfold Recovery.flush
  rw [written]
  exact ⟨_, rfl, ⟨[file], rfl, holds.flushesTo (le_refl _), nofun⟩, nofun, Nat.le_succ _,
    le_refl _, nofun, Or.inl rfl⟩

end Recovery.Adds

section
include known

theorem foldlM_visit (batches : List WriteBatch) (replay : LogReplay)
    (wellFormed : ∀ batch ∈ batches, batch.WellFormed)
    (flushable : ∀ mem ∈ (settings.memTables replay.mem batches).1, Flushable settings mem)
    (increasing : InWriteOrder (replay.mem.getD [] ++ batches.flatMap WriteBatch.memTableEntries)) :
    ∃ next, batches.foldlM (LogReplay.visit settings) replay = .ok next ∧
      next.mem = (settings.memTables replay.mem batches).2 ∧
      next.compactions = replay.compactions + (settings.memTables replay.mem batches).1.length ∧
      replay.recovery.Adds next.recovery (settings.memTables replay.mem batches).1.flatten
        batches := by
  induction batches generalizing replay with
  | nil => exact ⟨replay, rfl, rfl, rfl, .refl _⟩
  | cons batch batches ih =>
    rcases forall_mem_cons.mp wellFormed with ⟨here, later⟩
    have accepted : batch.insertInto.2 = .ok ∨ settings.paranoidChecks = false := by
      rw [WriteBatch.insertInto_of_wellFormed here]
      exact Or.inl rfl
    rw [flatMap_cons, <- append_assoc] at increasing
    unfold ReopenSettings.memTables at flushable ⊢
    by_cases full : settings.isFull (replay.mem.getD [] ++ batch.memTableEntries) = true
    · rw [if_pos full] at flushable ⊢
      rcases forall_mem_cons.mp flushable with ⟨first, others⟩
      rcases pairwise_append.mp increasing with ⟨ordered, rest, _⟩
      have reads := Recovery.Adds.read replay.recovery batch
      rcases Recovery.Adds.flush known first ordered { replay.recovery with
          maxSequence := max replay.recovery.maxSequence batch.lastSequence } with
        ⟨flushed, flushes, adds⟩
      have visits : replay.visit settings batch = .ok ⟨flushed, none, replay.compactions + 1⟩ := by
        unfold LogReplay.visit
        rw [assertThat_of accepted]
        rw [if_pos full, flushes]
        rfl
      rcases ih ⟨flushed, none, replay.compactions + 1⟩ later others rest with
        ⟨next, run, left, count, more⟩
      refine ⟨next, ?_, left, ?_, ?_⟩
      · rw [foldlM_cons, visits]
        exact run
      · rw [count, length_cons, add_assoc, add_comm 1]
      · exact (reads.trans adds).trans more
    · rw [if_neg full] at flushable ⊢
      have visits : replay.visit settings batch = .ok ⟨{ replay.recovery with
              maxSequence := max replay.recovery.maxSequence batch.lastSequence },
            some (replay.mem.getD [] ++ batch.memTableEntries), replay.compactions⟩ := by
        unfold LogReplay.visit
        rw [assertThat_of accepted]
        rw [if_neg full]
        rfl
      rcases ih ⟨_, some (replay.mem.getD [] ++ batch.memTableEntries), replay.compactions⟩
        later flushable increasing with ⟨next, run, left, count, more⟩
      refine ⟨next, ?_, left, count, (Recovery.Adds.read _ batch).trans more⟩
      rw [foldlM_cons, visits]
      exact run

theorem recoverLogFile_spec (recovery : Recovery) (lastLog : Bool) (log : LogFile)
    (wellFormed : ∀ batch ∈ log.batches, batch.WellFormed)
    (flushable : ∀ mem ∈ settings.flushedOfLog lastLog log, Flushable settings mem)
    (increasing : InWriteOrder (logEntries [log])) :
    ∃ result, recovery.recoverLogFile settings lastLog log = .ok result ∧
      recovery.Adds result.1 (settings.flushedOfLog lastLog log).flatten log.batches ∧
      (settings.flushedOfLog lastLog log).flatten ++ result.2.getD [] = logEntries [log] ∧
      result.2 = if settings.ReusesLog lastLog log then some (logEntries [log]) else none := by
  have whole := flatten_memTables settings none log.batches
  have entries : logEntries [log] = log.batches.flatMap WriteBatch.memTableEntries :=
    flatMap_singleton _ _
  rw [entries] at increasing ⊢
  unfold ReopenSettings.flushedOfLog at flushable ⊢
  rcases foldlM_visit known log.batches ⟨recovery, none, 0⟩ wellFormed
    (fun mem member => flushable mem (mem_append_left _ member)) increasing with
    ⟨replay, run, left, count, adds⟩
  have noneFull : replay.compactions = 0 <-> (settings.memTables none log.batches).1 = [] := by
    rw [count, zero_add, length_eq_zero_iff]
  unfold Recovery.recoverLogFile
  rw [run]
  change ∃ result, (if settings.reuseLogs ∧ lastLog ∧ replay.compactions = 0 then _
    else _) = _ ∧ _
  by_cases reuses : settings.ReusesLog lastLog log
  · have empty := reuses.2.2
    rw [empty] at whole
    have same : replay.mem.getD [] = log.batches.flatMap WriteBatch.memTableEntries := by
      rw [left]
      exact whole
    rw [empty] at adds
    simp only [if_pos reuses, if_pos (show settings.reuseLogs ∧ lastLog ∧ replay.compactions = 0
      from ⟨reuses.1, reuses.2.1, noneFull.mpr empty⟩), empty]
    exact ⟨_, rfl, adds, same, congrArg some same⟩
  · have continues : ¬ (settings.reuseLogs ∧ lastLog ∧ replay.compactions = 0) :=
      fun all => reuses ⟨all.1, all.2.1, noneFull.mp all.2.2⟩
    simp only [if_neg reuses] at flushable ⊢
    rw [if_neg continues, left]
    cases rest : (settings.memTables none log.batches).2 with
    | none =>
      rw [rest] at whole
      refine ⟨_, rfl, ?_, ?_, rfl⟩
      · rw [Option.toList_none, append_nil]
        exact adds
      · rw [Option.toList_none, append_nil]
        exact whole
    | some mem =>
      rw [rest] at whole flushable
      have ordered : InWriteOrder mem := by
        have all : InWriteOrder ((settings.memTables none log.batches).1.flatten ++ mem) := by
          rw [show _ ++ mem = _ from whole]
          exact increasing
        exact (pairwise_append.mp all).2.1
      rcases Recovery.Adds.flush known (flushable mem (mem_append_right _
        (Option.mem_toList.mpr rfl))) ordered replay.recovery with ⟨next, flushes, more⟩
      refine ⟨(next, none), ?_, ?_, ?_, rfl⟩
      · change (replay.recovery.flush settings mem >>= _) = _
        rw [flushes]
        rfl
      · have both := adds.trans more
        rw [append_nil] at both
        rw [Option.toList_some, flatten_append, flatten_singleton]
        exact both
      · rw [Option.toList_some, flatten_append, flatten_singleton, Option.getD_none, append_nil]
        exact whole

/-- The loop over the logs flushes all entries, or returns those of the last log for
reuse. -/
theorem recoverLogFiles_spec (logs : List LogFile) (recovery : Recovery)
    (wellFormed : ∀ log ∈ logs, ∀ batch ∈ log.batches, batch.WellFormed)
    (flushable : ∀ mem ∈ settings.flushedOfLogs logs, Flushable settings mem)
    (increasing : InWriteOrder (logEntries logs)) :
    ∃ result, recovery.recoverLogFiles settings logs = .ok result ∧
      recovery.Adds result.1 (settings.flushedOfLogs logs).flatten (logs.flatMap LogFile.batches) ∧
      (settings.flushedOfLogs logs).flatten ++ result.2.getD [] = logEntries logs ∧
      (∀ log ∈ logs, log.number < result.1.nextFileNumber) ∧
      ∀ mem ∈ result.2, ∃ log ∈ logs.getLast?, mem = logEntries [log] := by
  induction logs generalizing recovery with
  | nil => exact ⟨_, rfl, .refl _, rfl, nofun, nofun⟩
  | cons log logs ih =>
    rcases forall_mem_cons.mp wellFormed with ⟨here, later⟩
    have parts : logEntries (log :: logs) = logEntries [log] ++ logEntries logs := by
      simp [logEntries]
    rw [parts] at increasing ⊢
    rcases pairwise_append.mp increasing with ⟨first, rest, _⟩
    unfold ReopenSettings.flushedOfLogs at flushable ⊢
    rcases forall_mem_append.mp flushable with ⟨flushableHere, flushableLater⟩
    rcases recoverLogFile_spec known recovery logs.isEmpty log here flushableHere first with
      ⟨result, run, adds, whole, reused⟩
    have marked := adds.trans (.mark result.1 log.number)
    have above : log.number < (result.1.markFileNumberUsed log.number).nextFileNumber :=
      lt_of_lt_of_le (Nat.lt_succ_self _) (le_max_right _ _)
    rw [append_nil, append_nil] at marked
    unfold Recovery.recoverLogFiles
    rw [run]
    change ∃ final, (if logs = [] then _ else _) = _ ∧ _
    by_cases last : logs = []
    · rw [if_pos last]
      refine ⟨_, rfl, ?_⟩
      subst last
      simp only [ReopenSettings.flushedOfLogs, append_nil, flatMap_cons, flatMap_nil]
      refine ⟨marked, whole.trans (append_nil _).symm, ?_, ?_⟩
      · exact forall_mem_singleton.mpr above
      · intro mem isMem
        refine ⟨log, rfl, ?_⟩
        rw [reused] at isMem
        split at isMem
        · cases isMem
          rfl
        · cases isMem
    · have notLast : logs.isEmpty = false := by
        simpa using last
      rcases ih (result.1.markFileNumberUsed log.number) later flushableLater rest with
        ⟨final, goesOn, more, wholeLater, aboveLater, reusedLater⟩
      have nothing : result.2 = none := by
        rw [reused, if_neg]
        rintro ⟨_, isLast, _⟩
        rw [notLast] at isLast
        cases isLast
      rw [nothing, Option.getD_none, append_nil] at whole
      rw [if_neg last]
      refine ⟨final, goesOn, ?_, ?_, ?_, ?_⟩
      · rw [flatten_append]
        exact marked.trans more
      · rw [flatten_append, append_assoc, wholeLater, whole]
      · refine forall_mem_cons.mpr ⟨?_, aboveLater⟩
        exact lt_of_lt_of_le above more.grows
      · intro mem isMem
        rcases reusedLater mem isMem with ⟨other, isLast, same⟩
        refine ⟨other, ?_, same⟩
        rw [getLast?_cons_of_ne_nil last]
        exact isLast

end

/-! ## The invariant -/

/-- What holds between the steps of a run in which the operations have been written: the
tables have the front of them and the memtables the rest, and the needed logs have what
is in the memtables. -/
structure Store.Keeps (updates : List Update) (db : Store) : Prop where
  split : ∃ flushed, memTableEntries 1 updates = flushed ++ (db.imm.getD [] ++ db.mem) ∧
    FlushesTo flushed 0 db.savedFileNumber db.tables
  counted : db.lastSequence = updates.length
  bounded : db.lastSequence < kMaxSequenceNumber
  recovers : db.journal.Recovers (db.imm.getD []) db.mem db.savedSequence db.lastSequence
  fresh : db.log.number < db.nextFileNumber ∧ db.savedFileNumber ≤ db.nextFileNumber

omit [LinearOrder UserKey] in
theorem Store.keeps_new (reuseManifest : Bool) : (new reuseManifest).Keeps [] where
  split := ⟨[], rfl, Perm.nil, Pairwise.nil, nofun⟩
  counted := rfl
  bounded := show 0 < kMaxSequenceNumber by decide
  recovers := .new reuseManifest
  fresh := by cases reuseManifest <;> decide

namespace Store.Keeps
variable {updates : List Update} {db : Store} (keeps : db.Keeps updates)
include keeps

section
omit [LinearOrder UserKey]

theorem increasing : InWriteOrder (db.imm.getD [] ++ db.mem) := by
  rcases keeps.split with ⟨_, all, _⟩
  have bounded : 1 + updates.length ≤ kMaxSequenceNumber + 1 := by
    have bound := keeps.bounded
    rw [keeps.counted] at bound
    omega
  have ordered := memTableEntries_increasing bounded
  rw [all] at ordered
  exact (pairwise_append.mp ordered).2.1

theorem logEntries_neededLogs : logEntries db.neededLogs = db.imm.getD [] ++ db.mem :=
  keeps.recovers.holds.logEntries_neededLogs

theorem contents : db.contents.Perm
    ((memTableEntries 1 updates).map (fun entry => some entry.bytes)) := by
  rcases keeps.split with ⟨_, all, flushes⟩
  rw [all, map_append]
  exact flushes.contents.append_right _

theorem write {batch : WriteBatch} (wellFormed : batch.WellFormed)
    (room : db.lastSequence + batch.records.length < kMaxSequenceNumber) :
    ∃ next, db.write batch = .ok next ∧ next.Keeps (updates ++ batch.records) := by
  have recordFormed : (batch.setSequence (db.lastSequence + 1)).WellFormed := wellFormed
  have last : (batch.setSequence (db.lastSequence + 1)).lastSequence =
      db.lastSequence + batch.records.length := wellFormed.lastSequence_setSequence room
  have accepted : (batch.setSequence (db.lastSequence + 1)).insertInto.2 = .ok := by
    rw [WriteBatch.insertInto_of_wellFormed recordFormed]
  rcases keeps.split with ⟨flushed, all, flushes⟩
  have recovers := keeps.recovers.addRecord recordFormed
    (le_of_le_of_eq (Nat.le_add_right _ _) last.symm)
  rw [last] at recovers
  refine ⟨_, assertThat_bind_eq_ok.mpr ⟨accepted, assertThat_bind_eq_ok.mpr ⟨room, rfl⟩⟩,
    { keeps with
      split := ⟨flushed, ?_, flushes⟩
      counted := ?_
      bounded := room
      recovers := recovers }⟩
  · rw [memTableEntries_append, all, add_comm 1, <- keeps.counted, append_assoc, append_assoc]
    rfl
  · rw [length_append, <- keeps.counted]

theorem newLog {number : Nat} (above : db.log.number < number)
    (unsaved : db.savedFileNumber ≤ number) : Keeps updates { db with
      olderLogs := db.olderLogs ++ [db.log]
      log := ⟨number, []⟩
      nextFileNumber := number + 1
      imm := some (db.imm.getD [] ++ db.mem)
      mem := [] } := by
  rcases keeps.split with ⟨flushed, all, flushes⟩
  exact { keeps with
    split := ⟨flushed, by rw [all]; simp, flushes⟩
    recovers := keeps.recovers.newLog above
    fresh := ⟨Nat.lt_succ_self _, Nat.le_succ_of_le unsaved⟩ }

theorem renumber {number : Nat} (above : db.log.number < number)
    (unsaved : db.savedFileNumber ≤ number) : Keeps updates { db with nextFileNumber := number } :=
  { keeps with fresh := ⟨above, unsaved⟩ }

theorem switchMemTable : db.switchMemTable.Keeps updates := by
  unfold Store.switchMemTable
  by_cases waits : db.imm.isSome
  · rw [if_pos waits]
    exact keeps
  · have empty : db.imm = none := by simpa using waits
    have switched := keeps.newLog keeps.fresh.1 keeps.fresh.2
    rw [empty] at switched
    rw [if_neg waits]
    exact switched

/-- Install the tables of the immutable memtable.  Only the current log is needed then. -/
theorem install {files : List FlushedFile} {number : Nat}
    (flushes : FlushesTo (db.imm.getD []) db.savedFileNumber number files)
    (above : db.log.number < number) (grows : db.savedFileNumber ≤ number) :
    Keeps updates { db with
      tables := db.tables ++ files
      logNumber := db.log.number
      savedFileNumber := number
      savedSequence := db.lastSequence
      nextFileNumber := number
      imm := none } := by
  rcases keeps.split with ⟨flushed, all, before⟩
  exact { keeps with
    split := ⟨flushed ++ db.imm.getD [], by rw [all, append_assoc]; rfl,
      before.append flushes (Nat.zero_le _) grows⟩
    recovers := keeps.recovers.setLogNumber
    fresh := ⟨above, le_refl _⟩ }

/-- Without entries to flush it does not matter whether there is a memtable. -/
theorem drop (empty : db.imm.getD [] = []) : Keeps updates { db with imm := none } := by
  rcases keeps.split with ⟨flushed, all, flushes⟩
  have recovers := keeps.recovers
  rw [empty] at all recovers
  exact { keeps with split := ⟨flushed, all, flushes⟩, recovers := recovers }

end

include known in
theorem compactMemTable (flushable : ∀ mem ∈ db.imm, Flushable settings mem) :
    ∃ next, db.compactMemTable settings = .ok next ∧ next.Keeps updates := by
  unfold Store.compactMemTable
  cases waiting : db.imm with
  | none => exact ⟨db, rfl, keeps⟩
  | some mem =>
    have increasing := keeps.increasing
    rw [waiting] at increasing
    rcases (flushable mem waiting).writeLevel0Table known
      (pairwise_append.mp increasing).1 db.nextFileNumber with ⟨file, written, holds⟩
    have flushes : FlushesTo (db.imm.getD []) db.savedFileNumber (db.nextFileNumber + 1)
        [file] := by
      rw [waiting]
      exact holds.flushesTo keeps.fresh.2
    dsimp only
    rw [written]
    exact ⟨_, rfl, keeps.install flushes (Nat.lt_succ_of_lt keeps.fresh.1)
      (Nat.le_succ_of_le keeps.fresh.2)⟩

omit [LinearOrder UserKey] in
/-- The end of a recovery, when what it has flushed was in the immutable memtable. -/
theorem saveRecovery {before after : Recovery} {batches : List WriteBatch}
    (adds : before.Adds after (db.imm.getD []) batches) (first : before.added = [])
    (low : db.savedFileNumber ≤ before.nextFileNumber)
    (high : after.nextFileNumber ≤ db.nextFileNumber) :
    (Store.saved { db with imm := none } after).Keeps updates := by
  rcases adds.tables with ⟨_, added, flushes, _⟩
  rw [first] at added
  unfold Store.saved
  by_cases saves : after.saveManifest = true
  · rw [if_pos saves, added]
    exact keeps.install (flushes.widen low high) keeps.fresh.1 keeps.fresh.2
  · rw [if_neg saves]
    exact keeps.drop (adds.saves (by simpa using saves)).1

include known in
theorem reopen (flushable : ∀ mem ∈ settings.flushedOfLogs db.neededLogs, Flushable settings mem)
    (reuseManifest : Bool) :
    ∃ result, Recovery.recoverLogFiles settings ⟨db.savedFileNumber + 1, [], 0, !reuseManifest⟩
        db.neededLogs = .ok result ∧
      Recovery.Adds ⟨db.savedFileNumber + 1, [], 0, !reuseManifest⟩ result.1
        (settings.flushedOfLogs db.neededLogs).flatten (db.neededLogs.flatMap LogFile.batches) ∧
      (settings.flushedOfLogs db.neededLogs).flatten ++ result.2.getD [] =
        db.imm.getD [] ++ db.mem ∧
      (db.opened result).Keeps updates := by
  have wellFormed : ∀ log ∈ db.neededLogs, ∀ batch ∈ log.batches, batch.WellFormed :=
    fun log member batch inLog => keeps.recovers.wellFormed batch
      (mem_flatMap.mpr ⟨log, member, inLog⟩)
  have increasing := keeps.increasing
  rw [<- keeps.logEntries_neededLogs] at increasing
  rcases recoverLogFiles_spec known db.neededLogs ⟨db.savedFileNumber + 1, [], 0, !reuseManifest⟩
    wellFormed flushable increasing with ⟨result, run, adds, whole, above, reused⟩
  have sequence := adds.lastSequence_eq rfl keeps.recovers.counts
  have logAbove : db.log.number < result.1.nextFileNumber :=
    above db.log keeps.recovers.holds.log_mem_neededLogs
  have savedAbove : db.savedFileNumber ≤ result.1.nextFileNumber :=
    le_trans (Nat.le_succ _) adds.grows
  rw [keeps.logEntries_neededLogs] at whole
  refine ⟨result, run, adds, whole, ?_⟩
  unfold Store.opened
  rw [sequence]
  cases kept : result.2 with
  | some mem =>
    rcases reused mem kept with ⟨_, isLast, same⟩
    rw [Store.neededLogs, keeps.recovers.holds.neededLogs_eq, getLast?_concat] at isLast
    cases isLast
    rw [keeps.recovers.holds.current] at same
    subst same
    rw [kept] at whole
    rw [append_cancel_right whole] at adds
    exact (keeps.renumber logAbove savedAbove).saveRecovery adds rfl (Nat.le_succ _) (le_refl _)
  | none =>
    rw [kept, Option.getD_none, append_nil] at whole
    rw [whole] at adds
    exact (keeps.newLog logAbove savedAbove).saveRecovery adds rfl (Nat.le_succ _) (Nat.le_succ _)

end Store.Keeps

/-! ## Whole runs -/

/-- The operations of an event. -/
def StoreEvent.updates : StoreEvent -> List Update
  | .write batch => batch.records
  | .switchMemTable => []
  | .compactMemTable => []
  | .reopen _ => []

/-- A write succeeds, and the memtables that a flush or a recovery has to flush are
flushable. -/
def Store.Safe (settings : ReopenSettings) (db : Store) : StoreEvent -> Prop
  | .write batch => batch.WellFormed ∧ db.lastSequence + batch.records.length < kMaxSequenceNumber
  | .switchMemTable => True
  | .compactMemTable => ∀ mem ∈ db.imm, Flushable settings mem
  | .reopen _ => ∀ mem ∈ settings.flushedOfLogs db.neededLogs, Flushable settings mem

/-- Every event of a run is safe in the state in which it happens. -/
def Store.RunsSafely (settings : ReopenSettings) : Store -> List StoreEvent -> Prop
  | _, [] => True
  | db, event :: events => db.Safe settings event ∧
      forall next, db.step settings event = .ok next -> next.RunsSafely settings events

section
include known

theorem Store.Keeps.step {updates : List Update} {db : Store} (keeps : db.Keeps updates)
    {event : StoreEvent} (safe : db.Safe settings event) :
    ∃ next, db.step settings event = .ok next ∧ next.Keeps (updates ++ event.updates) := by
  cases event with
  | write batch => exact keeps.write safe.1 safe.2
  | switchMemTable =>
    refine ⟨_, rfl, ?_⟩
    rw [StoreEvent.updates, append_nil]
    exact keeps.switchMemTable
  | compactMemTable =>
    rw [StoreEvent.updates, append_nil]
    exact keeps.compactMemTable known safe
  | reopen reuseManifest =>
    rw [StoreEvent.updates, append_nil]
    rcases keeps.reopen known safe reuseManifest with ⟨result, run, _, _, keepsNext⟩
    exact ⟨_, bind_eq_ok.mpr ⟨result, run, rfl⟩, keepsNext⟩

theorem Store.Keeps.foldlM {updates : List Update} {db : Store} (keeps : db.Keeps updates)
    (events : List StoreEvent) (safe : db.RunsSafely settings events) :
    ∃ next, events.foldlM (Store.step settings) db = .ok next ∧
      next.Keeps (updates ++ events.flatMap StoreEvent.updates) := by
  induction events generalizing db updates with
  | nil =>
    refine ⟨db, rfl, ?_⟩
    rw [flatMap_nil, append_nil]
    exact keeps
  | cons event events ih =>
    rcases keeps.step known safe.1 with ⟨next, stepped, keepsNext⟩
    rcases ih keepsNext (safe.2 next stepped) with ⟨final, run, keepsFinal⟩
    refine ⟨final, ?_, ?_⟩
    · rw [foldlM_cons, stepped]
      exact run
    · rw [flatMap_cons, <- append_assoc]
      exact keepsFinal

end

/-- In a run of safe events nothing fails, and the tables and the memtables together
have exactly what has been written. -/
theorem run_keepsContents (settings : ReopenSettings)
    (known : settings.mod = 0 ∨ settings.mod = 9 ∨ settings.mod = 10) (reuseManifest : Bool)
    (events : List StoreEvent) (safe : (Store.new reuseManifest).RunsSafely settings events) :
    ∃ db, Store.run settings reuseManifest events = .ok db ∧
      db.contents.Perm ((memTableEntries 1 (events.flatMap StoreEvent.updates)).map
        (fun entry => some entry.bytes)) := by
  rcases (Store.keeps_new reuseManifest).foldlM known events safe with ⟨db, run, keeps⟩
  exact ⟨db, run, keeps.contents⟩

end

section Bytewise

open Bytewise

/-- Settings under which no memtable gets full and logs are not reused. -/
def ReopenSettings.plain (mod : Nat) : ReopenSettings :=
  ⟨mod, ⟨4096, 16⟩, fun _ => 0, fun _ => false, false, false⟩

/-- A forced switch on an empty memtable makes the flush fail, and a log with nothing but
an empty batch makes the recovery fail. -/
theorem run_fails_without_entries : (forall reuseManifest,
      Store.run (.plain 0) reuseManifest [.switchMemTable, .compactMemTable] =
        .error "NotFound: Empty" ∧
      Store.run (.plain 9) reuseManifest [.switchMemTable, .compactMemTable] = .error "kvs[0]" ∧
      Store.run (.plain 10) reuseManifest [.switchMemTable, .compactMemTable] = .error "kvs[0]") ∧
    forall reuseManifest,
      Store.run (.plain 0) reuseManifest [.write .empty, .reopen reuseManifest] =
        .error "NotFound: Empty" ∧
      Store.run (.plain 9) reuseManifest [.write .empty, .reopen reuseManifest] = .error "kvs[0]" ∧
      Store.run (.plain 10) reuseManifest [.write .empty, .reopen reuseManifest] =
        .error "kvs[0]" := by
  refine ⟨fun reuseManifest => ?_, fun reuseManifest => ?_⟩
  · cases reuseManifest <;> exact ⟨rfl, rfl, rfl⟩
  · cases reuseManifest <;> exact ⟨rfl, rfl, rfl⟩

/-- One put of a key with one byte. -/
def onePut (key : UInt8) : WriteBatch := ⟨0, 1, [.put ⟨[key]⟩ [1, 2, 3, 4, 5, 6, 7, 8]]⟩

/-- The first put is flushed, and the second one is recovered from a log of its own. -/
theorem run_keepsContents_twoLogs :
    ∃ db, Store.run (.plain 10) false [.write (onePut 107), .switchMemTable, .write (onePut 108),
        .compactMemTable, .reopen false] = .ok db ∧
      db.contents.Perm ((memTableEntries 1 ((onePut 107).records ++ (onePut 108).records)).map
        (fun entry => some entry.bytes)) := by
  refine run_keepsContents (.plain 10) (Or.inr (Or.inr rfl)) false
    [.write (onePut 107), .switchMemTable, .write (onePut 108), .compactMemTable, .reopen false]
    ⟨⟨rfl, by decide⟩, ?_⟩
  rintro _ ⟨⟩
  refine ⟨trivial, ?_⟩
  rintro _ ⟨⟩
  refine ⟨⟨rfl, by decide⟩, ?_⟩
  rintro _ ⟨⟩
  refine ⟨?_, ?_⟩
  · rintro _ ⟨⟩
    exact ⟨nofun, by decide, fun _ _ _ => Iff.rfl, fun _ => by decide⟩
  rintro _ ⟨⟩
  refine ⟨?_, fun _ _ => trivial⟩
  exact forall_mem_singleton.mpr ⟨nofun, by decide, fun _ _ _ => Iff.rfl, fun _ => by decide⟩

end Bytewise

end Db
end Doux
