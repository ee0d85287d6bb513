import Doux.Db.VersionSet
import Doux.Db.WriteBatch
import Doux.Db.CompactionWork
import Doux.Db.VCompaction

namespace Doux
namespace Db

open Foundation Util Table

/-!
# The database

This module models `DBImpl` as a state machine: writes go to the memtable, full
memtables are flushed to level zero, and compactions move files down the tree.
With `MOD` 10 or 13 a flush writes two tables, one with the values, sorted by their
vkeys, and one with the keys, whose values point into the first.

A compaction reads its inputs entry by entry, and writes, snapshots and flushes may
happen between two entries.  The state therefore holds a compaction in progress, and
one pass of its loop is one action.  A compaction of value files is one action as a
whole: what may happen meanwhile does not touch its inputs.

File operations succeed.  Tables are kept by file number, and a file that is no longer
in use stays readable.  Of `LogAndApply` this module has the part that builds the next
version; its manifest is the subject of `Doux.Db.VersionSet`.
-/

/-- A filter may rule out a block for a user key, but no block that has the key. -/
structure Filter where
  keyMayMatch : UserKey -> Block Entry -> Bool
  sound : forall block, ∀ entry ∈ block.entries, keyMayMatch entry.key.userKey block = true

/-- The settings of a database, together with what the model leaves open: the sizes
that table builders report, the filter, the bytes in memory behind a value, and the
iteration orders of the dependency maps in each call of `LogAndApply`.  Compactions
that rewrite values, those of `MOD` 9, are not modelled. -/
structure Config where
  mod : Nat
  supported : mod ≠ 9
  options : Options
  blockOptions : BlockOptions
  voptions : VOptions
  sizes : TableSizes
  vtableSize : List (Block KeyValue) -> Nat
  filter : Filter
  beyond : KeyValue -> BitVec 64
  iterations : Nat -> Iterations

/-- A compaction in progress: the entries it has still to read, the variables of its
loop, and the numbers of the files it has opened. -/
structure Compacting where
  compaction : Compaction
  smallestSnapshot : Nat
  remaining : List Entry
  walk : Walk
  numbers : List Nat

/-- The state of a database.  Snapshots are listed oldest first, memtables in the order
of the writes, and `edits` counts the calls of `LogAndApply`. -/
structure Database where
  current : Version InternalKey VKey
  tables : Nat -> List Entry
  vtables : Nat -> List (Block KeyValue)
  compactPointer : Nat -> Option InternalKey
  nextFileNumber : Nat
  lastSequence : Nat
  snapshots : List Nat
  mem : List Entry
  imm : Option (List Entry)
  edits : Nat
  compacting : Option Compacting

/-- A new database.  Its manifests and its first log have taken the numbers up to 3. -/
def Database.new : Database where
  current := .empty
  tables := fun _ => []
  vtables := fun _ => []
  compactPointer := fun _ => none
  nextFileNumber := 4
  lastSequence := 0
  snapshots := []
  mem := []
  imm := none
  edits := 0
  compacting := none

/-- The entry that `MemTable::Add` makes of an operation. -/
def memTableEntry (operation : Nat × Update) : Entry :=
  ⟨⟨operation.2.key, BitVec.ofNat 64 (operation.1 * 256 + operation.2.type.code)⟩,
    operation.2.value⟩

/-- The entries of operations with consecutive sequence numbers, the first of which is
given. -/
def memTableEntries (first : Nat) (updates : List Update) : List Entry :=
  (WriteBatch.numbered first updates).map memTableEntry

namespace Database

/-- `DBImpl::Write`.  The model stops before the sequence numbers are used up: the
largest one has a meaning of its own in compactions. -/
def write (db : Database) (batch : List Update) : Except String Database := do
  assertThat (db.lastSequence + batch.length < kMaxSequenceNumber) "sequence numbers used up"
  return { db with
    mem := db.mem ++ memTableEntries (db.lastSequence + 1) batch
    lastSequence := db.lastSequence + batch.length }

/-- `MakeRoomForWrite` when it switches to a new memtable and a new log. -/
def switchMemTable (db : Database) : Database :=
  if db.imm.isSome then db
  else { db with imm := some db.mem, mem := [], nextFileNumber := db.nextFileNumber + 1 }

def getSnapshot (db : Database) : Database :=
  { db with snapshots := db.snapshots ++ [db.lastSequence] }

def releaseSnapshot (db : Database) (index : Nat) : Database :=
  { db with snapshots := db.snapshots.eraseIdx index }

/-- The sequence number from which on compactions keep what readers can see. -/
def smallestSnapshot (db : Database) : Nat := db.snapshots.headD db.lastSequence

end Database

/-- What happens to a database. -/
inductive Action where
  | write (batch : List Update)
  | switchMemTable
  | getSnapshot
  | releaseSnapshot (index : Nat)
  | compactMemTable
  /-- `BackgroundCompaction` chooses a compaction of the key tree. -/
  | backgroundCompaction (request : Request)
  /-- `TriggerLSMTreeCompaction`, which never moves a file. -/
  | triggerCompaction (request : Request)
  | compactEntry
  | finishCompaction
  /-- `BackgroundCompaction` compacts value files. -/
  | vcompaction

/-- A state, and the edit that `LogAndApply` is called with, if it is. -/
structure Prepared where
  db : Database
  edit : Option (VersionEdit InternalKey VKey)

def describe (number fileSize : Nat) : List Entry -> Except String KeyFile
  | [] => .error "compact->current_output()->smallest"
  | first :: rest => .ok ⟨number, fileSize, first.key, (rest.getLastD first).key⟩

section
variable [LinearOrder UserKey]

/-- The table of a flushed memtable, and with `MOD` 10 and 13 the table of its values. -/
structure Level0Tables where
  entries : List Entry
  smallest : InternalKey
  largest : InternalKey
  values : Option VOutput

/-- `BuildTable`.  `WriteLevel0Table` makes an error of an empty one. -/
def buildKeyTable (entries : List Entry) : Except String Level0Tables := do
  match <- entries.foldlM addEntry [] with
  | [] => .error "NotFound: Empty"
  | first :: rest => return ⟨first :: rest, first.key, (rest.getLastD first).key, none⟩

def readInternalKey (bytes : Bytes) : Except String InternalKey :=
  match InternalKey.decode bytes with
  | some key => .ok key
  | none => .error "internal_key.size() >= 8"

def readKeyTable (rows : List KeyValue) : Except String (List Entry) :=
  rows.mapM (fun row => do
    let key <- readInternalKey row.1
    return ⟨key, row.2⟩)

/-- `BuildDuTable`, with its keys parsed. -/
def buildKeyValueTables (config : Config) (number : Nat) (entries : List Entry) :
    Except String Level0Tables := do
  let tables <- buildDuTable config.mod config.blockOptions config.beyond number
    (entries.map Entry.bytes)
  let keys <- readKeyTable (tableEntries tables.kblocks)
  let smallest <- readInternalKey tables.kends.smallest
  let largest <- readInternalKey tables.kends.largest
  let vsmallest <- VKey.decode tables.vends.smallest
  let vlargest <- VKey.decode tables.vends.largest
  return ⟨keys, smallest, largest, some ⟨tables.vblocks, vsmallest, vlargest⟩⟩

/-- `BuildTable` or `BuildDuTable`, as `WriteLevel0Table` chooses. -/
def buildTables (config : Config) (number : Nat) (entries : List Entry) :
    Except String Level0Tables :=
  if SortsValues config.mod then buildKeyValueTables config number entries
  else buildKeyTable entries

/-- The edit of a flush adds one or two files to level zero. -/
def flushEdit (config : Config) (number : Nat) (built : Level0Tables) :
    VersionEdit InternalKey VKey :=
  let edit := VersionEdit.empty.addFile 0
    ⟨number, config.sizes.finished built.entries, built.smallest, built.largest⟩
  match built.values with
  | none => edit
  | some values =>
    edit.addVFile 0 ⟨number, config.vtableSize values.blocks, values.smallest, values.largest⟩

namespace Database

/-- Write the flushed tables to their files. -/
def flushed (db : Database) (built : Level0Tables) : Database :=
  { db with
    tables := Function.update db.tables db.nextFileNumber built.entries
    vtables := Function.update db.vtables db.nextFileNumber (built.values.elim [] VOutput.blocks)
    nextFileNumber := db.nextFileNumber + 1
    imm := none }

/-- `CompactMemTable`, if there is a memtable to flush. -/
def compactMemTable (config : Config) (db : Database) : Except String Prepared :=
  match db.imm with
  | none => .ok ⟨db, none⟩
  | some entries => do
    let built <- buildTables config db.nextFileNumber
      (entries.insertionSort (fun a b => a.key ≤ b.key))
    return ⟨db.flushed built, some (flushEdit config db.nextFileNumber built)⟩

end Database

/-! ## Compactions -/

/-- The files that a compaction has opened. -/
def Walk.opened (walk : Walk) : Nat := walk.outputs.length + walk.builder.toList.length

/-- The edit that replaces the inputs of a compaction by its outputs. -/
def Compaction.resultEdit (compaction : Compaction) (outputs : List KeyFile) :
    VersionEdit InternalKey VKey :=
  let edit := compaction.inputs0.foldl
    (fun edit file => edit.deleteFile compaction.level file.number) VersionEdit.empty
  let edit := compaction.inputs1.foldl
    (fun edit file => edit.deleteFile (compaction.level + 1) file.number) edit
  outputs.foldl (fun edit file => edit.addFile (compaction.level + 1) file) edit

/-- The files of a list of tables with their numbers. -/
def writeTables (tables : Nat -> List Entry) (written : List (Nat × List Entry)) :
    Nat -> List Entry :=
  written.foldl (fun tables table => Function.update tables table.1 table.2) tables

/-- A compaction of a range is started by hand. -/
def Request.isManual : Request -> Bool
  | .range _ _ _ => true
  | .size _ => false
  | .seek _ _ => false

namespace Database

/-- The state after a compaction has been chosen: the pointer of the level has moved. -/
def picked (db : Database) (compaction : Compaction) : Database :=
  { db with compactPointer :=
      Function.update db.compactPointer compaction.level (some compaction.largest) }

/-- `PickCompaction` or `CompactRange`. -/
def pick (config : Config) (db : Database) (request : Request) :
    Except String (Option Compaction) :=
  pickCompaction config.options db.current.files db.compactPointer request

/-- The start of `DoCompactionWork`. -/
def beginCompaction (db : Database) (compaction : Compaction) : Except String Database := do
  assertThat (db.current.files compaction.level ≠ [])
    "versions_->NumLevelFiles(compact->compaction->level()) > 0"
  return { db with compacting := some ⟨compaction, db.smallestSnapshot,
    compaction.inputEntries db.tables, .start, []⟩ }

/-- `BackgroundCompaction` on the key tree.  It does nothing while a compaction runs or
a memtable waits. -/
def backgroundCompaction (config : Config) (db : Database) (request : Request) :
    Except String Prepared :=
  if db.compacting.isSome ∨ db.imm.isSome then .ok ⟨db, none⟩
  else do
    match <- db.pick config request with
    | none => return ⟨db, none⟩
    | some compaction =>
      if request.isManual = false ∧ compaction.isTrivialMove config.options then
        return ⟨db.picked compaction, some (compaction.resultEdit compaction.inputs0)⟩
      else do
        let db <- (db.picked compaction).beginCompaction compaction
        return ⟨db, none⟩

/-- `TriggerLSMTreeCompaction`. -/
def triggerCompaction (config : Config) (db : Database) (request : Request) :
    Except String Database :=
  if db.compacting.isSome then .ok db
  else do
    match <- db.pick config request with
    | none => return db
    | some compaction => (db.picked compaction).beginCompaction compaction

/-- One pass of the loop of `DoCompactionWork`.  A file gets its number when it is
opened. -/
def compactEntry (config : Config) (db : Database) : Except String Database :=
  match db.compacting with
  | none => .ok db
  | some work =>
    match work.remaining with
    | [] => .ok db
    | entry :: remaining => do
      let walk <- work.walk.step config.sizes config.options work.compaction
        work.smallestSnapshot entry
      let opened := walk.opened - work.walk.opened
      return { db with
        nextFileNumber := db.nextFileNumber + opened
        compacting := some { work with
          remaining := remaining
          walk := walk
          numbers := work.numbers ++ List.range' db.nextFileNumber opened } }

/-- The end of `DoCompactionWork`, once all entries have been read. -/
def finishCompaction (config : Config) (db : Database) : Except String Prepared :=
  match db.compacting with
  | none => .ok ⟨db, none⟩
  | some work =>
    if work.remaining ≠ [] then .ok ⟨db, none⟩
    else do
      let written := work.numbers.zip work.walk.finishOutput.outputs
      let outputs <- written.mapM (fun table =>
        describe table.1 (config.sizes.finished table.2) table.2)
      return ⟨{ db with tables := writeTables db.tables written, compacting := none },
        some (work.compaction.resultEdit outputs)⟩

def doVCompactionWork (config : Config) (db : Database) (vcompaction : VCompaction) :
    Except String Prepared := do
  match <- vcompaction.output config.blockOptions db.vtables db.current.vfiles with
  | none => return ⟨db, some (vcompaction.deletions VersionEdit.empty)⟩
  | some output =>
    let file : ValueFile := ⟨db.nextFileNumber, config.vtableSize output.blocks,
      output.smallest, output.largest⟩
    return ⟨{ db with
      vtables := Function.update db.vtables db.nextFileNumber output.blocks
      nextFileNumber := db.nextFileNumber + 1 }, some (vcompaction.resultEdit file)⟩

/-- `BackgroundCompaction` on the value files.  Only with `MOD` 10 a version has some. -/
def vcompaction (config : Config) (db : Database) : Except String Prepared :=
  if config.mod = 10 ∧ db.compacting.isNone then do
    match <- pickVCompaction config.voptions db.current.vfiles with
    | none => return ⟨db, none⟩
    | some picked =>
      if picked.vinputs0 ++ picked.vinputs1 = [] then return ⟨db, none⟩
      else db.doVCompactionWork config picked
  else .ok ⟨db, none⟩

/-- `LogAndApply`, without the manifest. -/
def logAndApply (config : Config) (db : Database) (edit : VersionEdit InternalKey VKey) :
    Except String Database := do
  let iterations := config.iterations db.edits
  let builder <- (Builder.new db.current).apply config.mod (fun key => key) (fun key => key)
    iterations.edit edit
  let version <- builder.saveTo config.mod (fun key => key) (fun key => key) iterations.base
    iterations.current
  return { db with current := version, edits := db.edits + 1 }

/-- An action up to the call of `LogAndApply`. -/
def prepare (config : Config) (db : Database) : Action -> Except String Prepared
  | .write batch => do
    let db <- db.write batch
    return ⟨db, none⟩
  | .switchMemTable => .ok ⟨db.switchMemTable, none⟩
  | .getSnapshot => .ok ⟨db.getSnapshot, none⟩
  | .releaseSnapshot index => .ok ⟨db.releaseSnapshot index, none⟩
  | .compactMemTable => db.compactMemTable config
  | .backgroundCompaction request => db.backgroundCompaction config request
  | .triggerCompaction request => do
    let db <- db.triggerCompaction config request
    return ⟨db, none⟩
  | .compactEntry => do
    let db <- db.compactEntry config
    return ⟨db, none⟩
  | .finishCompaction => db.finishCompaction config
  | .vcompaction => db.vcompaction config

end Database

/-- Install the edit of an action. -/
def Prepared.install (config : Config) (prepared : Prepared) : Except String Database :=
  match prepared.edit with
  | none => .ok prepared.db
  | some edit => prepared.db.logAndApply config edit

namespace Database

def step (config : Config) (db : Database) (action : Action) : Except String Database := do
  let prepared <- db.prepare config action
  prepared.install config

def run (config : Config) (actions : List Action) : Except String Database :=
  actions.foldlM (step config) .new

/-- `DoCompactionWork` when nothing else happens meanwhile. -/
def doCompactionWork (config : Config) (db : Database) (compaction : Compaction) :
    Except String Database := do
  let db <- db.beginCompaction compaction
  let db <- (compaction.inputEntries db.tables).foldlM (fun db _ => db.compactEntry config) db
  let prepared <- db.finishCompaction config
  prepared.install config

end Database

end

/-- Settings for small databases: every entry counts as one byte. -/
def Config.plain (mod : Nat) (supported : mod ≠ 9) : Config where
  mod := mod
  supported := supported
  options := ⟨2 * 1024 * 1024⟩
  blockOptions := ⟨4096, 16⟩
  voptions := ⟨128 * 1024 * 1024, 128, 30, 1⟩
  sizes := ⟨List.length, List.length⟩
  vtableSize := fun blocks => (tableEntries blocks).length
  filter := ⟨fun _ _ => true, fun _ _ _ => rfl⟩
  beyond := fun _ => 0
  iterations := fun _ => ⟨.stored, .stored, .stored⟩

end Db
end Doux
