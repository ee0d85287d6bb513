import Doux.Db.StoreGet

namespace Doux
namespace Db

open Foundation Util Table List

/-!
# Writes whose sync fails

`DBImpl::Write` appends a group of batches to the log, syncs the log if this was asked
for, and inserts the group into the memtable.  If the sync fails, the group is not
inserted and the writer gets the error.  The record is in the log all the same, the last
sequence number counts it, and the lines that would make all later writes fail are a
comment.  So the writes go on, and when the database is closed and opened again, the
recovery inserts what the writer was told has failed.

The proofs compare the store with the one in which every sync succeeds: the two have the
same logs and the same numbers, and everything in the first is in the second.
-/

/-- `DBImpl::Write` for one group, where `sync` is what `logfile_->Sync()` returns, or `ok`
if it is not called.  It is also what `Write` returns. -/
def Store.writeSynced (db : Store) (batch : WriteBatch) (sync : Status) :
    Except String Store := do
  let next <- db.write batch
  return if sync = .ok then next else { next with mem := db.mem }

/-- A step of a database of which the log cannot always be synced. -/
inductive SyncEvent where
  | write (batch : WriteBatch) (sync : Status)
  | makeRoomForWrite
  | compactMemTable

namespace SyncEvent

/-- The operations of an event. -/
def updates : SyncEvent -> List Update
  | write batch _ => batch.records
  | makeRoomForWrite => []
  | compactMemTable => []

/-- The result of the sync, if the event is a write. -/
def syncs : SyncEvent -> List Status
  | write _ sync => [sync]
  | makeRoomForWrite => []
  | compactMemTable => []

/-- The batch of a write has the count of its records. -/
def WellFormed : SyncEvent -> Prop
  | write batch _ => batch.WellFormed
  | makeRoomForWrite => True
  | compactMemTable => True

end SyncEvent

/-- A store with the statuses that its writers were told. -/
structure SyncRun where
  db : Store
  statuses : List Status

/-- The statuses of the writes before the first failed sync are `ok`, and none is after
it. -/
def RefusesAfterFailure (statuses : List Status) : Prop :=
  ∃ accepted failed, statuses = accepted ++ failed ∧ (∀ status ∈ accepted, status = .ok) ∧
    failed ≠ [] ∧ ∀ status ∈ failed, status ≠ .ok

theorem plain_of_zero {mod : Nat} (zero : mod = 0) : ¬ (mod = 9 ∨ SortsValues mod) := by
  rw [zero]
  decide

section
variable [LinearOrder UserKey]

def SyncRun.step (settings : ReopenSettings) (run : SyncRun) : SyncEvent -> Except String SyncRun
  | .write batch sync => do
    let db <- run.db.writeSynced batch sync
    return ⟨db, run.statuses ++ [sync]⟩
  | .makeRoomForWrite => .ok ⟨run.db.makeRoomForWrite settings, run.statuses⟩
  | .compactMemTable => do
    let db <- run.db.compactMemTable settings
    return ⟨db, run.statuses⟩

/-- A run from a new database. -/
def SyncRun.run (settings : ReopenSettings) (reuseManifest : Bool) (events : List SyncEvent) :
    Except String SyncRun :=
  events.foldlM (SyncRun.step settings) ⟨.new reuseManifest, []⟩

/-- Closing a database with `MOD` 0 writes nothing, so the next `DB::Open` finds what a
crash would leave.  It succeeds, and every lookup returns what it returned before. -/
def Store.ReopensAlike (settings : ReopenSettings) (config : Config) (db : Store) : Prop :=
  forall reuseManifest, ∃ next, db.reopen settings reuseManifest = .ok next ∧
    forall userKey value, next.get config userKey value = db.get config userKey value

/-- A logged operation that is missing from the memtables, and is the newest logged one of
its user key, says what the readers see without it. -/
def Store.Harmless (db : Store) : Prop :=
  ∀ entry ∈ logEntries db.neededLogs, entry ∉ db.imm.getD [] ++ db.mem ->
    entryVersions.IsNewest (logEntries db.neededLogs) entry.key.userKey db.lastSequence entry ->
    (entryVersions.findNewest entry.key.userKey db.lastSequence db.entries).map Entry.outcome =
      some entry.outcome

/-- The recovery went on by flushing the memtables, none of which is empty. -/
structure Recovery.Flushes (before after : Recovery) (mems : List (List Entry)) : Prop where
  nonempty : ∀ mem ∈ mems, mem ≠ []
  files : ∃ files, after.added = before.added ++ files ∧
    List.Forall₂ FlushedFile.IsTableOf files mems

variable {settings : ReopenSettings}

namespace Recovery.Flushes
variable {before middle after : Recovery} {mems more : List (List Entry)}

theorem quiet (same : after.added = before.added) : Flushes before after [] :=
  ⟨nofun, [], by rw [same, append_nil], .nil⟩

theorem trans (first : Flushes before middle mems) (second : Flushes middle after more) :
    Flushes before after (mems ++ more) := by
  rcases first.files with ⟨files, added, tables⟩
  rcases second.files with ⟨later, addedLater, tablesLater⟩
  refine ⟨forall_mem_append.mpr ⟨first.nonempty, second.nonempty⟩, files ++ later, ?_,
    rel_append tables tablesLater⟩
  rw [addedLater, added, append_assoc]

variable (plain : ¬ (settings.mod = 9 ∨ SortsValues settings.mod))
include plain

theorem flush {mem : List Entry} (flushed : before.flush settings mem = .ok after) :
    Flushes before after [mem] := by
  rcases bind_eq_ok.mp flushed with ⟨file, written, isAfter⟩
  cases isAfter
  rcases writeLevel0Table_eq_ok plain written with ⟨nonempty, _, isTable⟩
  exact ⟨by simpa using nonempty, [file], rfl, .cons isTable .nil⟩

/-- The loop over the records of a log that was recovered. -/
theorem foldlM_visit (batches : List WriteBatch) {replay next : LogReplay}
    (run : batches.foldlM (LogReplay.visit settings) replay = .ok next) :
    next.mem = (settings.memTables replay.mem batches).2 ∧
      next.compactions = replay.compactions + (settings.memTables replay.mem batches).1.length ∧
      Flushes replay.recovery next.recovery (settings.memTables replay.mem batches).1 := by
  induction batches generalizing replay with
  | nil =>
    cases run
    exact ⟨rfl, rfl, .quiet rfl⟩
  | cons batch batches ih =>
    rcases bind_eq_ok.mp run with ⟨_, visits, rest⟩
    rcases assertThat_bind_eq_ok.mp visits with ⟨_, goesOn⟩
    rcases ih rest with ⟨left, count, flushes⟩
    unfold ReopenSettings.memTables
    by_cases full : settings.isFull (replay.mem.getD [] ++ batch.memTableEntries) = true
    · rw [if_pos full] at goesOn ⊢
      rcases bind_eq_ok.mp goesOn with ⟨recovery, flushed, isVisited⟩
      cases isVisited
      have first : Flushes replay.recovery recovery
          [replay.mem.getD [] ++ batch.memTableEntries] := { flush plain flushed with }
      refine ⟨left, ?_, first.trans flushes⟩
      rw [count, length_cons, add_assoc, add_comm 1]
    · rw [if_neg full] at goesOn ⊢
      cases goesOn
      exact ⟨left, count, { flushes with }⟩

theorem recoverLogFile {lastLog : Bool} {log : LogFile} {result : Recovery × Option (List Entry)}
    (run : before.recoverLogFile settings lastLog log = .ok result) :
    Flushes before result.1 (settings.flushedOfLog lastLog log) := by
  rcases bind_eq_ok.mp run with ⟨replay, visits, rest⟩
  rcases foldlM_visit plain log.batches visits with ⟨left, count, flushes⟩
  have reuses : (settings.reuseLogs ∧ lastLog ∧ replay.compactions = 0) <->
      settings.ReusesLog lastLog log := by
    rw [count, zero_add, length_eq_zero_iff]
    rfl
  unfold ReopenSettings.flushedOfLog
  simp only [reuses, left] at rest
  by_cases reused : settings.ReusesLog lastLog log
  · rw [if_pos reused] at rest ⊢
    cases rest
    rw [append_nil]
    exact flushes
  · rw [if_neg reused] at rest ⊢
    cases memory : (settings.memTables none log.batches).2 with
    | none =>
      rw [memory] at rest
      cases rest
      rw [Option.toList_none, append_nil]
      exact flushes
    | some mem =>
      rw [memory] at rest
      rcases bind_eq_ok.mp rest with ⟨_, flushed, isResult⟩
      cases isResult
      exact flushes.trans (flush plain flushed)

theorem recoverLogFiles {logs : List LogFile} {result : Recovery × Option (List Entry)}
    (run : before.recoverLogFiles settings logs = .ok result) :
    Flushes before result.1 (settings.flushedOfLogs logs) := by
  induction logs generalizing before with
  | nil =>
    cases run
    exact .quiet rfl
  | cons log logs ih =>
    rcases bind_eq_ok.mp run with ⟨first, recovered, rest⟩
    have marked : Flushes before (first.1.markFileNumberUsed log.number)
        (settings.flushedOfLog logs.isEmpty log) := { recoverLogFile plain recovered with }
    by_cases last : logs = []
    · subst last
      cases rest
      simpa [ReopenSettings.flushedOfLogs] using marked
    · simp only [last] at rest
      exact marked.trans (ih rest)

end Recovery.Flushes

/-- What differs between a store and the one in which every sync succeeds. -/
structure Complete where
  tables : List FlushedFile
  imm : Option (List Entry)
  mem : List Entry

/-- The store in which every sync succeeds. -/
def Store.fill (db : Store) (complete : Complete) : Store :=
  { db with tables := complete.tables, imm := complete.imm, mem := complete.mem }

/-- The store lacks some of the operations: `parts` are the memtables of which its tables
were made. -/
structure Store.Lacks (updates : List Update) (db : Store) (complete : Complete)
    (parts : List (List Entry)) : Prop where
  keeps : (db.fill complete).Keeps updates
  tables : List.Forall₂ FlushedFile.IsTableOf db.tables parts
  numbers : db.tables.map FlushedFile.number = complete.tables.map FlushedFile.number
  parts : ∃ flushed, memTableEntries 1 updates =
    flushed ++ (complete.imm.getD [] ++ complete.mem) ∧ parts.flatten.Sublist flushed
  imm : (db.imm.getD []).Sublist (complete.imm.getD [])
  waits : db.imm.isSome = complete.imm.isSome
  filled : ∀ mem ∈ db.imm, mem ≠ []
  mem : db.mem.Sublist complete.mem

theorem flushable_of_zero {settings : ReopenSettings} (zero : settings.mod = 0) {mem : List Entry}
    (nonempty : mem ≠ []) : Flushable settings mem :=
  ⟨nonempty, by simp [zero], by simp [zero], by simp [zero]⟩

namespace Store.Lacks
variable {updates : List Update} {db : Store} {complete : Complete} {parts : List (List Entry)}
  (lacks : db.Lacks updates complete parts)
include lacks

theorem length_lt : updates.length < kMaxSequenceNumber := by
  have bounded := lacks.keeps.bounded
  rw [lacks.keeps.counted] at bounded
  exact bounded

/-- What is in the store was written, in this order. -/
theorem written_sublist : (db.written parts).Sublist (memTableEntries 1 updates) := by
  rcases lacks.parts with ⟨_, all, sub⟩
  rw [all]
  exact sub.append (lacks.imm.append lacks.mem)

theorem reads : db.Reads parts where
  tables := lacks.tables
  numbers := by
    rcases lacks.keeps.split with ⟨_, _, flushes⟩
    have ascending : (complete.tables.map FlushedFile.number).Pairwise (fun a b => a < b) :=
      pairwise_map.mpr flushes.numbers
    rw [<- lacks.numbers, pairwise_map] at ascending
    exact ascending
  increasing := (sublist_memTableEntries lacks.written_sublist lacks.length_lt).1
  known := fun entry member =>
    ((sublist_memTableEntries lacks.written_sublist lacks.length_lt).2 entry member).1
  bounded := le_of_lt lacks.keeps.bounded

theorem write {batch : WriteBatch} (sync : Status) (wellFormed : batch.WellFormed)
    (room : db.lastSequence + batch.records.length < kMaxSequenceNumber) :
    ∃ next complete, db.writeSynced batch sync = .ok next ∧
      next.Lacks (updates ++ batch.records) complete parts := by
  rcases lacks.keeps.write wellFormed room with ⟨full, written, keeps⟩
  have accepted : ∃ next, db.write batch = .ok next := by
    rcases assertThat_bind_eq_ok.mp written with ⟨formed, _⟩
    exact ⟨_, assertThat_bind_eq_ok.mpr ⟨formed, assertThat_bind_eq_ok.mpr ⟨room, rfl⟩⟩⟩
  rcases accepted with ⟨next, isNext⟩
  have nextEq := Store.write_eq_ok isNext
  have fullEq := Store.write_eq_ok written
  refine ⟨_, ⟨complete.tables, complete.imm, full.mem⟩, bind_eq_ok.mpr ⟨next, isNext, rfl⟩, ?_⟩
  rcases lacks.parts with ⟨flushed, all, sub⟩
  subst nextEq fullEq
  have parts : memTableEntries 1 (updates ++ batch.records) = flushed ++ (complete.imm.getD [] ++
      (complete.mem ++ (batch.setSequence (db.lastSequence + 1)).memTableEntries)) := by
    rw [memTableEntries_append, all, add_comm 1, <- lacks.keeps.counted, append_assoc, append_assoc]
    rfl
  split
  · exact { lacks with
      keeps := keeps
      parts := ⟨flushed, parts, sub⟩
      mem := lacks.mem.append_right _ }
  · exact { lacks with
      keeps := keeps
      parts := ⟨flushed, parts, sub⟩
      mem := lacks.mem.trans (sublist_append_left _ _) }

theorem makeRoomForWrite (roomy : settings.isFull [] = false) :
    ∃ complete, (db.makeRoomForWrite settings).Lacks updates complete parts := by
  unfold Store.makeRoomForWrite
  by_cases full : settings.isFull db.mem = true
  · rw [if_pos full]
    have switched := lacks.keeps.switchMemTable
    unfold Store.switchMemTable at switched ⊢
    have waits := lacks.waits
    by_cases waiting : db.imm.isSome = true
    · rw [if_pos waiting]
      exact ⟨complete, lacks⟩
    · have none : complete.imm = none := by
        rw [waits] at waiting
        simpa using waiting
      rw [if_neg waiting]
      rw [if_neg (by
        rw [<- show (db.fill complete).imm = complete.imm from rfl] at none
        simp [none])]
        at switched
      refine ⟨⟨complete.tables, some complete.mem, []⟩, switched, lacks.tables, lacks.numbers, ?_,
        lacks.mem, rfl, ?_, .slnil⟩
      · rcases lacks.parts with ⟨flushed, all, sub⟩
        rw [none] at all
        exact ⟨flushed, by simpa using all, sub⟩
      · rintro _ ⟨⟩ empty
        rw [empty, roomy] at full
        cases full
  · rw [if_neg full]
    exact ⟨complete, lacks⟩

theorem compactMemTable (zero : settings.mod = 0) :
    ∃ next complete parts, db.compactMemTable settings = .ok next ∧
      next.Lacks updates complete parts := by
  cases waiting : db.imm with
  | none =>
    refine ⟨db, complete, parts, ?_, lacks⟩
    unfold Store.compactMemTable
    rw [waiting]
  | some entries =>
    have waits := lacks.waits
    rw [waiting] at waits
    rcases Option.isSome_iff_exists.mp waits.symm with ⟨others, waitingToo⟩
    have sub := lacks.imm
    rw [waiting, waitingToo] at sub
    have nonempty : entries ≠ [] := lacks.filled entries waiting
    have flushable : ∀ mem ∈ (db.fill complete).imm, Flushable settings mem := by
      intro _ isMem
      rw [show (db.fill complete).imm = some others from waitingToo] at isMem
      cases isMem
      refine flushable_of_zero zero fun empty => nonempty ?_
      rw [empty] at sub
      exact sublist_nil.mp sub
    rcases lacks.keeps.compactMemTable (Or.inl zero) flushable with ⟨_, compacted, keeps⟩
    rcases (Store.compactMemTable_eq_ok waitingToo).mp compacted with ⟨fullFile, fullWritten, fullEq⟩
    have inPlaces : entries ∈ parts ++ [db.imm.getD [], db.mem] := by simp [waiting]
    rcases writeLevel0Table_plain zero nonempty (lacks.reads.places.1 _ inPlaces) with
      ⟨file, written, _⟩
    rcases writeLevel0Table_eq_ok (plain_of_zero zero) written with ⟨_, number, isTable⟩
    rcases writeLevel0Table_eq_ok (plain_of_zero zero) fullWritten with ⟨_, fullNumber, _⟩
    refine ⟨_, ⟨complete.tables ++ [fullFile], none, complete.mem⟩, parts ++ [entries],
      (Store.compactMemTable_eq_ok waiting).mpr ⟨file, written, rfl⟩, ?_⟩
    subst fullEq
    refine ⟨keeps, rel_append lacks.tables (.cons isTable .nil), ?_, ?_, .slnil, rfl,
      nofun, lacks.mem⟩
    · rw [map_append, map_append, lacks.numbers]
      exact congrArg (fun number => _ ++ [number]) (number.trans fullNumber.symm)
    · rcases lacks.parts with ⟨flushed, all, subParts⟩
      rw [waitingToo] at all
      refine ⟨flushed ++ others, ?_, ?_⟩
      · rw [all, append_assoc]
        rfl
      · rw [flatten_append, flatten_singleton]
        exact subParts.append sub

/-! ## Opening the store again -/

theorem logged : logEntries db.neededLogs = complete.imm.getD [] ++ complete.mem :=
  lacks.keeps.logEntries_neededLogs

theorem memory_sublist : (db.imm.getD [] ++ db.mem).Sublist (logEntries db.neededLogs) := by
  rw [lacks.logged]
  exact lacks.imm.append lacks.mem

theorem logged_sublist :
    (parts.flatten ++ logEntries db.neededLogs).Sublist (memTableEntries 1 updates) := by
  rcases lacks.parts with ⟨_, all, sub⟩
  rw [all, lacks.logged]
  exact sub.append_right _

/-- A recovery succeeds when it has no empty memtable to flush. -/
theorem reopen (zero : settings.mod = 0)
    (nonempty : ∀ mem ∈ settings.flushedOfLogs db.neededLogs, mem ≠ []) (reuseManifest : Bool) :
    ∃ next, db.reopen settings reuseManifest = .ok next := by
  rcases lacks.keeps.reopen (Or.inl zero)
    (fun mem member => flushable_of_zero zero (nonempty mem member)) reuseManifest with
    ⟨result, recovered, _⟩
  exact ⟨_, bind_eq_ok.mpr ⟨result, recovered, rfl⟩⟩

/-- After a recovery the readers see what is in the tables and in the logs. -/
theorem get_reopen (zero : settings.mod = 0) {reuseManifest : Bool} {next : Store}
    (opened : db.reopen settings reuseManifest = .ok next) :
    (∀ mem ∈ settings.flushedOfLogs db.neededLogs, mem ≠ []) ∧ ∀ config userKey,
      (∀ value, next.get config userKey value = db.get config userKey value) <->
        (entryVersions.findNewest userKey db.lastSequence
          (parts.flatten ++ logEntries db.neededLogs)).map Entry.outcome =
        (entryVersions.findNewest userKey db.lastSequence (db.written parts)).map
          Entry.outcome := by
  rcases bind_eq_ok.mp opened with ⟨result, recovered, isNext⟩
  cases isNext
  have flushes := Recovery.Flushes.recoverLogFiles (plain_of_zero zero) recovered
  rcases lacks.keeps.reopen (Or.inl zero)
    (fun mem member => flushable_of_zero zero (flushes.nonempty mem member)) reuseManifest with
    ⟨_, recoveredAgain, adds, whole, keepsFull⟩
  cases recovered.symm.trans recoveredAgain
  rcases db.opened_parts result with ⟨tables, imm, mem, lastSequence⟩
  rcases (db.fill complete).opened_parts result with ⟨fullTables, _, _, _⟩
  have lastSequence : (db.opened result).lastSequence = db.lastSequence :=
    lastSequence.trans (adds.lastSequence_eq rfl lacks.keeps.recovers.counts)
  rcases flushes.files with ⟨files, added, isTables⟩
  rw [nil_append] at added
  have saved (before : List FlushedFile) :
      (if result.1.saveManifest then before ++ result.1.added else before) = before ++ files := by
    rw [added]
    by_cases saves : result.1.saveManifest = true
    · rw [if_pos saves]
    · rcases adds.tables with ⟨_, addedToo, _, nothing⟩
      rw [nil_append, added, nothing (by simpa using saves)] at addedToo
      rw [if_neg saves, addedToo, append_nil]
  rw [saved] at tables fullTables
  have written : (db.opened result).written (parts ++ settings.flushedOfLogs db.neededLogs) =
      parts.flatten ++ logEntries db.neededLogs := by
    unfold Store.written
    rw [imm, mem, flatten_append, append_assoc]
    exact congrArg (parts.flatten ++ ·) (whole.trans lacks.logged.symm)
  have spec := sublist_memTableEntries lacks.logged_sublist lacks.length_lt
  have reads : (db.opened result).Reads (parts ++ settings.flushedOfLogs db.neededLogs) := by
    refine ⟨tables ▸ rel_append lacks.tables isTables, ?_, written ▸ spec.1,
      fun entry member => (spec.2 entry (written ▸ member)).1, ?_⟩
    · rcases keepsFull.split with ⟨_, _, ordered⟩
      have ascending := pairwise_map.mpr ordered.numbers
      rw [fullTables, map_append, show (db.fill complete).tables = complete.tables from rfl,
        <- lacks.numbers, <- map_append, <- tables] at ascending
      exact pairwise_map.mp ascending
    · rw [lastSequence]
      exact le_of_lt lacks.keeps.bounded
  refine ⟨flushes.nonempty, fun config userKey => ?_⟩
  rw [<- lookupResult_eq_iff]
  refine forall_congr' (fun value => ?_)
  rw [reads.get_eq, lacks.reads.get_eq, lastSequence, written, Except.ok.injEq]

theorem findNewest_entries (userKey : UserKey) :
    entryVersions.findNewest userKey db.lastSequence db.entries =
      entryVersions.findNewest userKey db.lastSequence (db.written parts) := by
  apply Versioned.findNewest_congr (distinct_of_increasing lacks.reads.increasing)
  intro _
  simp only [Store.entries, Store.written, mem_append, mem_tables lacks.tables]

/-- With the logged operations the newest entry of a user key says the same as without
the missing ones, if the newest logged one is not missing or says the same. -/
theorem outcome_eq_iff (userKey : UserKey) : (entryVersions.findNewest userKey db.lastSequence
        (parts.flatten ++ logEntries db.neededLogs)).map Entry.outcome =
      (entryVersions.findNewest userKey db.lastSequence (db.written parts)).map Entry.outcome <->
    ∀ entry, entryVersions.IsNewest (logEntries db.neededLogs) userKey db.lastSequence entry ->
      entry ∉ db.imm.getD [] ++ db.mem ->
      (entryVersions.findNewest userKey db.lastSequence (db.written parts)).map Entry.outcome =
        some entry.outcome := by
  have increasing := (sublist_memTableEntries lacks.logged_sublist lacks.length_lt).1
  have older : entryVersions.Older parts.flatten (logEntries db.neededLogs) :=
    fun a inParts b inLogs _ => (pairwise_append.mp increasing).2.2 a inParts b inLogs
  have distinct := distinct_of_increasing increasing
  have distinctLogs : entryVersions.Distinct (logEntries db.neededLogs) :=
    distinct.of_subset (subset_append_right _ _)
  have olderMemory : entryVersions.Older parts.flatten (db.imm.getD [] ++ db.mem) :=
    older.mono (Subset.refl _) lacks.memory_sublist.subset
  have distinctWritten := distinct_of_increasing lacks.reads.increasing
  unfold Store.written at distinctWritten ⊢
  rw [Versioned.findNewest_append older distinct,
    Versioned.findNewest_append olderMemory distinctWritten]
  have inMemory : _ -> entryVersions.findNewest userKey db.lastSequence (db.imm.getD [] ++ db.mem) =
      _ := Versioned.findNewest_of_subset distinctLogs lacks.memory_sublist.subset
  cases newest : entryVersions.findNewest userKey db.lastSequence (logEntries db.neededLogs) with
  | none =>
    have answer := Versioned.answers_findNewest entryVersions userKey db.lastSequence
      (logEntries db.neededLogs)
    rw [newest] at answer
    rw [inMemory (by rw [newest]; exact nofun), newest]
    exact iff_of_true rfl (fun entry isNewest => absurd answer isNewest.not_unseen)
  | some entry =>
    have isNewest := (Versioned.findNewest_eq_some distinctLogs).mp newest
    rw [Option.some_or]
    constructor
    · intro same _ isOther _
      rw [isOther.eq isNewest distinctLogs]
      exact same.symm
    · intro harmless
      by_cases member : entry ∈ db.imm.getD [] ++ db.mem
      · rw [inMemory (by rw [newest]; rintro _ ⟨⟩; exact member), newest]
        rfl
      · exact (harmless entry isNewest member).symm

/-- Opening the database again changes nothing for the readers exactly when no empty
memtable has to be flushed and the operations that failed are harmless. -/
theorem reopensAlike_iff (zero : settings.mod = 0) (config : Config) :
    db.ReopensAlike settings config <->
      (∀ mem ∈ settings.flushedOfLogs db.neededLogs, mem ≠ []) ∧ db.Harmless := by
  constructor
  · intro alike
    rcases alike false with ⟨next, opened, same⟩
    rcases lacks.get_reopen zero opened with ⟨nonempty, gets⟩
    refine ⟨nonempty, ?_⟩
    intro entry _ missing isNewest
    rw [lacks.findNewest_entries]
    exact (lacks.outcome_eq_iff _).mp ((gets config _).mp (same entry.key.userKey)) entry isNewest
      missing
  · rintro ⟨nonempty, harmless⟩ reuseManifest
    rcases lacks.reopen zero nonempty reuseManifest with ⟨next, opened⟩
    rcases lacks.get_reopen zero opened with ⟨_, gets⟩
    refine ⟨next, opened, fun userKey => (gets config userKey).mpr ?_⟩
    apply (lacks.outcome_eq_iff userKey).mpr
    intro entry isNewest missing
    have here := harmless entry isNewest.mem missing
    rw [lacks.findNewest_entries, show entry.key.userKey = userKey from isNewest.key_eq] at here
    exact here isNewest

end Store.Lacks

theorem Store.lacks_new (reuseManifest : Bool) :
    (Store.new reuseManifest).Lacks [] ⟨[], none, []⟩ [] where
  keeps := Store.keeps_new reuseManifest
  tables := .nil
  numbers := rfl
  parts := ⟨[], rfl, .slnil⟩
  imm := .slnil
  waits := rfl
  filled := nofun
  mem := .slnil

section
variable (zero : settings.mod = 0) (roomy : settings.isFull [] = false)
include zero roomy

variable {complete : Complete} {parts : List (List Entry)}

theorem SyncRun.step_lacks {run : SyncRun} {updates : List Update}
    (lacks : run.db.Lacks updates complete parts) {event : SyncEvent}
    (wellFormed : event.WellFormed)
    (room : updates.length + event.updates.length < kMaxSequenceNumber) :
    ∃ next complete parts, run.step settings event = .ok next ∧
      next.statuses = run.statuses ++ event.syncs ∧
      next.db.Lacks (updates ++ event.updates) complete parts := by
  cases event with
  | write batch sync =>
    rw [<- lacks.keeps.counted] at room
    rcases lacks.write sync wellFormed room with ⟨db, complete, written, lacksNext⟩
    exact ⟨_, complete, parts, bind_eq_ok.mpr ⟨db, written, rfl⟩, rfl, lacksNext⟩
  | makeRoomForWrite =>
    rcases lacks.makeRoomForWrite roomy with ⟨complete, lacksNext⟩
    refine ⟨_, complete, parts, rfl, (append_nil _).symm, ?_⟩
    rw [SyncEvent.updates, append_nil]
    exact lacksNext
  | compactMemTable =>
    rcases lacks.compactMemTable zero with ⟨db, complete, parts, compacted, lacksNext⟩
    refine ⟨_, complete, parts, bind_eq_ok.mpr ⟨db, compacted, rfl⟩, (append_nil _).symm, ?_⟩
    rw [SyncEvent.updates, append_nil]
    exact lacksNext

theorem SyncRun.foldlM_lacks (events : List SyncEvent) {run : SyncRun} {updates : List Update}
    (lacks : run.db.Lacks updates complete parts) (wellFormed : ∀ event ∈ events, event.WellFormed)
    (room : updates.length + (events.flatMap SyncEvent.updates).length < kMaxSequenceNumber) :
    ∃ final updates complete parts, events.foldlM (SyncRun.step settings) run = .ok final ∧
      final.statuses = run.statuses ++ events.flatMap SyncEvent.syncs ∧
      final.db.Lacks updates complete parts := by
  induction events generalizing run updates complete parts with
  | nil => exact ⟨run, updates, complete, parts, rfl, (append_nil _).symm, lacks⟩
  | cons event events ih =>
    rcases forall_mem_cons.mp wellFormed with ⟨here, later⟩
    rw [flatMap_cons, length_append] at room
    rcases SyncRun.step_lacks zero roomy lacks here (by omega) with
      ⟨_, complete, parts, stepped, told, lacksNext⟩
    rcases ih lacksNext later (by rw [length_append]; omega) with
      ⟨final, updates, complete, parts, run, toldLater, lacksFinal⟩
    refine ⟨final, updates, complete, parts, ?_, ?_, lacksFinal⟩
    · rw [foldlM_cons, stepped]
      exact run
    · rw [toldLater, told, flatMap_cons, append_assoc]

end

/-- In every sequence of writes, either no write after the first failed sync is accepted,
or the database reads alike after it was closed and opened again, exactly when all syncs
after the first failed one fail too, or the recovery has no empty memtable to flush and
the logged operations that are missing from the memtables are harmless. -/
theorem refuses_or_reopensAlike_iff (settings : ReopenSettings) (zero : settings.mod = 0)
    (roomy : settings.isFull [] = false) (config : Config) (reuseManifest : Bool)
    (events : List SyncEvent) (wellFormed : ∀ event ∈ events, event.WellFormed)
    (room : (events.flatMap SyncEvent.updates).length < kMaxSequenceNumber) :
    ∃ final, SyncRun.run settings reuseManifest events = .ok final ∧
      (RefusesAfterFailure final.statuses ∨ final.db.ReopensAlike settings config <->
        RefusesAfterFailure (events.flatMap SyncEvent.syncs) ∨
          (∀ mem ∈ settings.flushedOfLogs final.db.neededLogs, mem ≠ []) ∧ final.db.Harmless) := by
  have new : (SyncRun.mk (.new reuseManifest) []).db.Lacks [] ⟨[], none, []⟩ [] :=
    Store.lacks_new reuseManifest
  rw [<- zero_add (List.length _)] at room
  rcases SyncRun.foldlM_lacks zero roomy events new wellFormed room with
    ⟨final, _, _, _, run, told, lacks⟩
  refine ⟨final, run, ?_⟩
  rw [told, lacks.reopensAlike_iff zero config]
  rfl

end

/-! ## A failed write that comes back -/

section Bytewise

open Bytewise

/-- A put, a second put of the same key whose sync fails, and a put of another key. -/
def failedOverwrite : List SyncEvent :=
  [.write ⟨0, 1, [.put ⟨[107]⟩ [1]]⟩ .ok, .write ⟨0, 1, [.put ⟨[107]⟩ [2]]⟩ (.ioError "Sync"),
    .write ⟨0, 1, [.put ⟨[108]⟩ [3]]⟩ .ok]

/-- The last write is accepted, the readers see the first value, and after the database
was closed and opened they see the value of the failed write. -/
theorem reopen_shows_failed_write : ∃ final next,
    SyncRun.run (.plain 0) false failedOverwrite = .ok final ∧
    final.statuses = [.ok, .ioError "Sync", .ok] ∧
    final.db.get (.plain 0 (by decide)) ⟨[107]⟩ [] = .ok ⟨.ok, [1]⟩ ∧
    final.db.reopen (.plain 0) false = .ok next ∧
    next.get (.plain 0 (by decide)) ⟨[107]⟩ [] = .ok ⟨.ok, [2]⟩ ∧
    ¬ (RefusesAfterFailure final.statuses ∨
      final.db.ReopensAlike (.plain 0) (.plain 0 (by decide))) := by
  have returns : (SyncRun.run (.plain 0) false failedOverwrite).toOption.map (fun final =>
      (final.statuses, (final.db.get (.plain 0 (by decide)) ⟨[107]⟩ []).toOption,
        (final.db.reopen (.plain 0) false).toOption.map (fun next =>
          (next.get (.plain 0 (by decide)) ⟨[107]⟩ []).toOption))) =
      some ([.ok, .ioError "Sync", .ok], some ⟨.ok, [1]⟩, some (some ⟨.ok, [2]⟩)) := by
    decide +kernel
  rcases Option.map_eq_some_iff.mp returns with ⟨final, isRun, facts⟩
  simp only [Prod.mk.injEq] at facts
  rcases facts with ⟨statuses, before, reopened⟩
  rcases Option.map_eq_some_iff.mp reopened with ⟨next, isNext, after⟩
  have opened := eq_ok_of_toOption isNext
  have first := eq_ok_of_toOption before
  have second := eq_ok_of_toOption after
  refine ⟨final, next, eq_ok_of_toOption isRun, statuses, first, opened, second, ?_⟩
  rw [statuses]
  rintro (⟨accepted, failed, parts, _, someFailed, allFailed⟩ | alike)
  · have last : (Status.ok) ∈ failed := by
      have isLast : failed.getLast? = some .ok := by
        rw [<- getLast?_append_of_ne_nil accepted someFailed, <- parts]
        rfl
      exact mem_of_getLast? isLast
    exact allFailed _ last rfl
  · rcases alike false with ⟨_, openedToo, same⟩
    cases opened.symm.trans openedToo
    have equal := same ⟨[107]⟩ []
    rw [first, second] at equal
    cases equal

/-- When the database is closed after the failed write, no write was accepted after it. -/
theorem refuses_or_reopensAlike_failedPut :
    ∃ final, SyncRun.run (.plain 0) true (failedOverwrite.take 2) = .ok final ∧
      (RefusesAfterFailure final.statuses ∨
        final.db.ReopensAlike (.plain 0) (.plain 0 (by decide))) := by
  rcases refuses_or_reopensAlike_iff (.plain 0) rfl rfl (.plain 0 (by decide)) true
    (failedOverwrite.take 2) (by simp [failedOverwrite, SyncEvent.WellFormed]; exact ⟨rfl, rfl⟩)
    (by decide) with ⟨final, run, refuses⟩
  refine ⟨final, run, refuses.mpr (Or.inl ⟨[.ok], [.ioError "Sync"], rfl, ?_, ?_, ?_⟩)⟩
  all_goals simp

end Bytewise

end Db
end Doux
