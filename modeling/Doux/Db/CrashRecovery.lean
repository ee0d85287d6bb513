import Doux.Db.Manifest
import Doux.Db.ReadBack
import Doux.Db.Reopen

namespace Doux
namespace Db

open Foundation Util Table List

/-!
# Recovering from a crash

A database together with what it has on disk.  Writes go to the current log and to the
memtable, a switch starts a new log, and a flush tells the manifest that earlier logs are
no longer needed.  Every `LogAndApply` appends its edit to the manifest, with the next
file number and the last sequence number.  Compactions change the tables only.
`DeleteObsoleteFiles` deletes logs and tables that nobody needs.

The process may end between any two steps.  The memtables, the current version, the
snapshots and a running compaction are lost then.  `Recover` has the manifest, the logs
and the tables.  It builds the version from the edits, replays the logs, and writes
tables at level zero for the memtables that get full and for what is left of each log.
What it ends with is compared with what the database had before the crash.
-/

/-- A database with its files: the edits of its manifest, what the last of them says about
numbers, and the logs.  The tables are those of `db`, where a file is read by its number. -/
structure Logged where
  db : Database
  manifest : List (VersionEdit InternalKey VKey)
  savedFileNumber : Nat
  savedSequence : Nat
  journal : Journal

inductive LoggedEvent where
  | act (action : Action)
  | deleteObsoleteFiles

def LoggedEvent.updates : LoggedEvent -> List Update
  | .act action => action.updates
  | .deleteObsoleteFiles => []

/-- The record that `Write` appends to the log. -/
def Database.record (db : Database) (batch : List Update) : WriteBatch :=
  ⟨db.lastSequence + 1, BitVec.ofNat 32 batch.length, batch⟩

def Journal.follow (journal : Journal) (db : Database) : Action -> Journal
  | .write batch => journal.addRecord (db.record batch)
  | .switchMemTable => if db.imm.isSome then journal else journal.newLog db.nextFileNumber
  | .compactMemTable => if db.imm.isSome then journal.setLogNumber else journal
  | _ => journal

/-- The files that `DeleteObsoleteFiles` keeps: those of the current version, and the
outputs of a running compaction. -/
def Database.liveFiles (db : Database) : List Nat :=
  (List.range kNumLevels).flatMap (fun level =>
    (db.current.files level).map FileMetaData.number) ++ db.compacting.elim [] Compacting.numbers

def Database.deleteObsoleteFiles (db : Database) : Database :=
  { db with tables := fun number => if number ∈ db.liveFiles then db.tables number else [] }

namespace Logged

/-- A new database.  The flag tells whether the manifest that `NewDB` made goes on being used. -/
def new (reuseManifest : Bool) : Logged :=
  ⟨.new, [], if reuseManifest then 2 else 4, 0, .new reuseManifest⟩

section
variable [LinearOrder UserKey]

/-- One step.  `LogAndApply` gives the manifest the edit, the next file number and the last
sequence number. -/
def step (config : Config) (logged : Logged) : LoggedEvent -> Except String Logged
  | .act action => do
    assertThat ((logged.db.record action.updates).insertInto.2 = .ok) "WriteBatch has wrong count"
    let prepared <- logged.db.prepare config action
    let next <- prepared.install config
    return {
      db := next
      manifest := logged.manifest ++ prepared.edit.toList
      savedFileNumber := prepared.edit.elim logged.savedFileNumber (fun _ => next.nextFileNumber)
      savedSequence := prepared.edit.elim logged.savedSequence (fun _ => next.lastSequence)
      journal := logged.journal.follow logged.db action }
  | .deleteObsoleteFiles => .ok { logged with
      db := logged.db.deleteObsoleteFiles
      journal := logged.journal.deleteObsoleteFiles }

def run (config : Config) (reuseManifest : Bool) (events : List LoggedEvent) :
    Except String Logged :=
  events.foldlM (step config) (new reuseManifest)

end

end Logged

/-- What `DB::Open` has after a crash: the version of the manifest, the tables that the replay of
the logs has added at level zero, the memtable of a log that goes on being used, and the last
sequence number. -/
structure Recovered where
  version : Version InternalKey VKey
  added : List FlushedFile
  mem : List Entry
  lastSequence : Nat

section
variable [LinearOrder UserKey]

/-- `DBImpl::Recover` after a crash.  The version comes from the edits of the manifest, and
`RecoverLogFile` replays the needed logs in the order of their numbers.  That a missing table is
an error and that old logs are deleted afterwards is left out. -/
def Logged.recover (settings : ReopenSettings) (iterations : Iterations) (reuseManifest : Bool)
    (logged : Logged) : Except String Recovered := do
  let version <- recoverVersion settings.mod iterations logged.manifest
  let result <- Recovery.recoverLogFiles settings
    ⟨logged.savedFileNumber + 1, [], 0, !reuseManifest⟩ logged.journal.neededLogs
  return ⟨version, result.1.added, result.2.getD [],
    max logged.savedSequence result.1.maxSequence⟩

end

/-- All that is stored, as rows of keys and values: in the tables of the version, in the new
tables and in the memtable. -/
def Recovered.contents (recovered : Recovered) (tables : Nat -> List Entry) :
    List (Option KeyValue) :=
  (versionEntries recovered.version.files tables).map (fun entry => some entry.bytes) ++
    (recovered.added.flatMap FlushedFile.contents ++
      recovered.mem.map (fun entry => some entry.bytes))

/-- All that is stored in the tables of the current version and in the memtables. -/
def Database.contents (db : Database) : List (Option KeyValue) :=
  (versionEntries db.current.files db.tables ++ db.memory).map (fun entry => some entry.bytes)

/-- The parts of a database that belong to writing are the same. -/
structure SameMemTables (db next : Database) : Prop where
  mem : next.mem = db.mem
  imm : next.imm = db.imm
  lastSequence : next.lastSequence = db.lastSequence
  numbers : db.nextFileNumber ≤ next.nextFileNumber

/-- The actions that have to do with logs. -/
def Action.IsLogged : Action -> Prop
  | .write _ => True
  | .switchMemTable => True
  | .compactMemTable => True
  | _ => False

variable {config : Config} {db next : Database} {prepared : Prepared} {action : Action}

theorem Journal.follow_of_not_isLogged (quiet : ¬ action.IsLogged)
    (journal : Journal) : journal.follow db action = journal := by
  cases action <;> first | rfl | exact absurd trivial quiet

theorem sameMemTables_of_doVCompactionWork {vcompaction : VCompaction}
    (worked : db.doVCompactionWork config vcompaction = .ok prepared) :
    SameMemTables db prepared.db := by
  rcases bind_eq_ok.mp worked with ⟨output, _, isPrepared⟩
  cases output <;> cases isPrepared
  · exact ⟨rfl, rfl, rfl, le_refl _⟩
  · exact ⟨rfl, rfl, rfl, Nat.le_succ _⟩

section
variable [LinearOrder UserKey]

theorem Prepares.sameMemTables (does : Prepares config db action prepared)
    (quiet : ¬ action.IsLogged) : SameMemTables db prepared.db := by
  cases does with
  | write | switch | flush => exact absurd trivial quiet
  | getSnapshot | releaseSnapshot | move | start | finish | unchanged =>
    exact ⟨rfl, rfl, rfl, le_refl _⟩
  | entry => exact ⟨rfl, rfl, rfl, Nat.le_add_right _ _⟩
  | vmerge _ _ _ worked => exact sameMemTables_of_doVCompactionWork worked

theorem sameMemTables_of_install (installed : prepared.install config = .ok next) :
    SameMemTables prepared.db next := by
  unfold Prepared.install at installed
  split at installed
  · cases installed
    exact ⟨rfl, rfl, rfl, le_refl _⟩
  · rw [(Database.logAndApply_eq_ok.mp installed).2.2]
    exact ⟨rfl, rfl, rfl, le_refl _⟩

/-! ## Logs and memtables together -/

/-- The logs recover what is in memory, and every record in them adds something to a memtable. -/
structure Recoverable (db : Database) (journal : Journal) (savedSequence : Nat) : Prop where
  recovers : journal.Recovers (db.imm.getD []) db.mem savedSequence db.lastSequence
  number : journal.log.number < db.nextFileNumber
  nonempty : ∀ record ∈ journal.records, record.memTableEntries ≠ []

namespace Recoverable

omit [LinearOrder UserKey] in
theorem new (reuseManifest : Bool) : Recoverable .new (.new reuseManifest) 0 where
  recovers := .new reuseManifest
  number := Nat.lt_succ_self 3
  nonempty := by cases reuseManifest <;> exact nofun

variable {journal : Journal} {savedSequence : Nat}
  (recoverable : Recoverable db journal savedSequence)
include recoverable

section
omit [LinearOrder UserKey]

theorem congr (same : SameMemTables db next) : Recoverable next journal savedSequence where
  recovers := by
    rw [same.imm, same.mem, same.lastSequence]
    exact recoverable.recovers
  number := lt_of_lt_of_le recoverable.number same.numbers
  nonempty := recoverable.nonempty

theorem write {batch : List Update} (nonempty : batch ≠ [])
    (accepted : (db.record batch).insertInto.2 = .ok) (written : db.write batch = .ok next) :
    Recoverable next (journal.addRecord (db.record batch)) savedSequence := by
  rcases assertThat_bind_eq_ok.mp written with ⟨room, isNext⟩
  cases isNext
  have wellFormed : (db.record batch).WellFormed := by
    by_contra differ
    rw [WriteBatch.insertInto, if_pos (Ne.symm differ)] at accepted
    cases accepted
  have last : (db.record batch).lastSequence = db.lastSequence + batch.length :=
    wellFormed.lastSequence_setSequence room
  have recovers := recoverable.recovers.addRecord wellFormed
    (le_of_le_of_eq (Nat.le_add_right _ _) last.symm)
  rw [last] at recovers
  refine ⟨recovers, recoverable.number, ?_⟩
  rw [recoverable.recovers.holds.records_addRecord]
  refine forall_mem_concat.mpr ⟨recoverable.nonempty, ?_⟩
  cases batch with
  | nil => exact absurd rfl nonempty
  | cons update batch => exact cons_ne_nil _ _

theorem switchMemTable :
    Recoverable db.switchMemTable (journal.follow db .switchMemTable) savedSequence := by
  unfold Database.switchMemTable Journal.follow
  split
  · exact recoverable
  · next free =>
      have none : db.imm = none := by simpa using free
      have recovers := recoverable.recovers.newLog recoverable.number
      simp only [none] at recovers
      exact ⟨recovers, Nat.lt_succ_self _,
        (recoverable.recovers.holds.records_newLog recoverable.number).symm ▸
          recoverable.nonempty⟩

theorem save {T : Type} (edit : Option T) :
    Recoverable db journal (edit.elim savedSequence (fun _ => db.lastSequence)) := by
  cases edit with
  | none => exact recoverable
  | some edit => exact { recoverable with recovers := recoverable.recovers.save }

/-- `CompactMemTable` with a memtable: its logs are not needed once its table is there. -/
theorem flush {built : Level0Tables} :
    Recoverable (db.flushed built) journal.setLogNumber db.lastSequence where
  recovers := recoverable.recovers.setLogNumber
  number := Nat.lt_succ_of_lt recoverable.number
  nonempty := fun record member => recoverable.nonempty record
    (recoverable.recovers.holds.records_setLogNumber_subset member)

end

theorem compactMemTable (prepares : db.compactMemTable config = .ok prepared)
    (installed : prepared.install config = .ok next) :
    Recoverable next (journal.follow db .compactMemTable)
      (prepared.edit.elim savedSequence (fun _ => next.lastSequence)) := by
  unfold Database.compactMemTable at prepares
  unfold Journal.follow
  split at prepares
  · next free =>
      cases prepares
      cases installed
      simpa [free] using recoverable
  · next entries full =>
      rcases bind_eq_ok.mp prepares with ⟨_, _, isPrepared⟩
      cases isPrepared
      have same := sameMemTables_of_install installed
      rw [Option.elim_some, same.lastSequence, full]
      exact recoverable.flush.congr same

theorem step (nonempty : ∀ batch, action = .write batch -> batch ≠ [])
    (accepted : (db.record action.updates).insertInto.2 = .ok)
    (prepares : db.prepare config action = .ok prepared)
    (installed : prepared.install config = .ok next) :
    Recoverable next (journal.follow db action)
      (prepared.edit.elim savedSequence (fun _ => next.lastSequence)) := by
  by_cases quiet : action.IsLogged
  · cases action with
    | write batch =>
      rcases bind_eq_ok.mp prepares with ⟨_, isWritten, isPrepared⟩
      cases isPrepared
      cases installed
      exact recoverable.write (nonempty batch rfl) accepted isWritten
    | switchMemTable =>
      cases prepares
      cases installed
      exact recoverable.switchMemTable
    | compactMemTable => exact recoverable.compactMemTable prepares installed
    | _ => exact quiet.elim
  · have same := (Database.prepares_of_prepare prepares).sameMemTables quiet
    rw [Journal.follow_of_not_isLogged quiet]
    exact ((recoverable.congr same).congr (sameMemTables_of_install installed)).save _

omit [LinearOrder UserKey] in
theorem deleteObsoleteFiles :
    Recoverable db.deleteObsoleteFiles journal.deleteObsoleteFiles savedSequence where
  recovers := recoverable.recovers.deleteObsoleteFiles
  number := recoverable.number
  nonempty :=
    recoverable.recovers.holds.records_deleteObsoleteFiles.symm ▸ recoverable.nonempty

end Recoverable

omit [LinearOrder UserKey] in
theorem Database.deleteObsoleteFiles_tables (outside : ∀ level, kNumLevels ≤ level ->
    db.current.files level = []) {level : Nat} {file : KeyFile}
    (member : file ∈ db.current.files level) :
    db.deleteObsoleteFiles.tables file.number = db.tables file.number := by
  have low : level < kNumLevels := by
    by_contra high
    rw [outside level (Nat.le_of_not_lt high)] at member
    cases member
  refine if_pos (mem_append_left _ (mem_flatMap.mpr ⟨level, mem_range.mpr low, ?_⟩))
  exact mem_map_of_mem member

variable {updates : List Update}

theorem Inv.deleteObsoleteFiles (inv : Inv config updates db) :
    Inv config updates db.deleteObsoleteFiles := by
  have same (level : Nat) (file : KeyFile) (member : file ∈ db.current.files level) :=
    Database.deleteObsoleteFiles_tables inv.layered.outside member
  rcases inv.split with ⟨flushed, all, source⟩
  refine { inv with layered := ?_, split := ⟨flushed, all, ?_⟩, working := ?_ }
  · exact inv.layered.congr_tables same
  · rintro level entry ⟨file, member, inFile⟩
    rw [same level file member] at inFile
    exact source level entry ⟨file, member, inFile⟩
  · exact fun work running => (inv.working work running).congr rfl same (le_refl _) (le_refl _)

theorem Inv.versionEntries_deleteObsoleteFiles (inv : Inv config updates db) :
    versionEntries db.deleteObsoleteFiles.current.files db.deleteObsoleteFiles.tables =
      versionEntries db.current.files db.tables := by
  refine flatMap_congr (fun level _ => flatMap_congr (fun file member => ?_))
  exact Database.deleteObsoleteFiles_tables inv.layered.outside member

/-- The actions that call no `LogAndApply` leave the version alone. -/
theorem Prepares.current_of_none (zero : config.mod = 0)
    (does : Prepares config db action prepared) (none : prepared.edit = none) :
    prepared.db.current = db.current := by
  cases does with
  | vmerge ten => exact nomatch ten.symm.trans zero
  | flush | move | finish => cases none
  | _ => rfl

/-- What holds in all states of a run. -/
structure Logged.Inv (config : Config) (iteration : Iteration) (updates : List Update)
    (logged : Logged) : Prop where
  db : Db.Inv config updates logged.db
  kept : Kept updates logged.db
  recoverable : Recoverable logged.db logged.journal logged.savedSequence
  manifest : Manifest config iteration logged.db logged.manifest
  numbers : forall level, ∀ file ∈ logged.db.current.files level,
    file.number < logged.savedFileNumber

/-- Every batch that is written has an operation. -/
def LoggedEvent.WritesSomething (event : LoggedEvent) : Prop :=
  ∀ batch, event = .act (.write batch) -> batch ≠ []

variable {iteration : Iteration}

theorem Logged.Inv.step (zero : config.mod = 0) {logged next : Logged} {event : LoggedEvent}
    (inv : Inv config iteration updates logged) (nonempty : event.WritesSomething)
    (stepped : logged.step config event = .ok next) :
    Inv config iteration (updates ++ event.updates) next := by
  cases event with
  | act action =>
    rcases assertThat_bind_eq_ok.mp stepped with ⟨accepted, rest⟩
    rcases bind_eq_ok.mp rest with ⟨prepared, prepares, rest⟩
    rcases bind_eq_ok.mp rest with ⟨after, installed, result⟩
    cases result
    have does := Database.prepares_of_prepare prepares
    rcases inv.db.step (by rw [zero]; decide) (bind_eq_ok.mpr ⟨_, prepares, installed⟩) with
      ⟨invNext, changes, grows⟩
    refine ⟨invNext, inv.db.kept_step inv.kept invNext changes grows,
      inv.recoverable.step (fun batch same => nonempty batch (congrArg _ same)) accepted prepares
        installed, inv.manifest.step inv.db zero does installed, ?_⟩
    cases edited : prepared.edit with
    | none =>
      have same : after = prepared.db := by
        unfold Prepared.install at installed
        rw [edited] at installed
        exact (Except.ok.inj installed).symm
      rw [same, does.current_of_none zero edited]
      exact inv.numbers
    | some edit => exact invNext.numbers
  | deleteObsoleteFiles =>
    cases stepped
    rw [LoggedEvent.updates, append_nil]
    refine ⟨inv.db.deleteObsoleteFiles, ?_, inv.recoverable.deleteObsoleteFiles,
      inv.manifest.still rfl (le_refl _) (fun work running number member =>
        Or.inl ⟨work, running, member⟩), inv.numbers⟩
    unfold Kept
    rw [inv.db.versionEntries_deleteObsoleteFiles]
    exact inv.kept

theorem Logged.inv_of_run (zero : config.mod = 0) {reuseManifest : Bool}
    {events : List LoggedEvent} {logged : Logged}
    (nonempty : ∀ event ∈ events, event.WritesSomething)
    (run : run config reuseManifest events = .ok logged) :
    Inv config iteration (events.flatMap LoggedEvent.updates) logged := by
  have start : Inv config iteration (flatMap LoggedEvent.updates []) (.new reuseManifest) :=
    ⟨inv_new config, forall_mem_nil _, .new reuseManifest, manifest_new config iteration,
      fun _ => nofun⟩
  refine foldlM_invariant
    (fun (seen : List LoggedEvent) logged => (∀ event ∈ seen, event.WritesSomething) ->
      Inv config iteration (seen.flatMap LoggedEvent.updates) logged) ?_ (fun _ => start) run
    nonempty
  intro _ _ _ _ inv stepped all
  rcases forall_mem_concat.mp all with ⟨earlier, here⟩
  rw [flatMap_append, flatMap_singleton]
  exact (inv earlier).step zero here stepped

/-! ## The replay of the logs -/

section
omit [LinearOrder UserKey]

theorem none_ne_nil : ∀ entries ∈ (none : Option (List Entry)), entries ≠ [] := by
  simp

/-- While every batch adds something, no memtable of a replay is empty. -/
theorem memTables_ne_nil (settings : ReopenSettings) {batches : List WriteBatch}
    (nonempty : ∀ batch ∈ batches, batch.memTableEntries ≠ []) {mem : Option (List Entry)}
    (filled : ∀ entries ∈ mem, entries ≠ []) :
    (∀ full ∈ (settings.memTables mem batches).1, full ≠ []) ∧
      ∀ rest ∈ (settings.memTables mem batches).2, rest ≠ [] := by
  induction batches generalizing mem with
  | nil => exact ⟨forall_mem_nil _, filled⟩
  | cons batch batches ih =>
    rcases forall_mem_cons.mp nonempty with ⟨here, later⟩
    have next : mem.getD [] ++ batch.memTableEntries ≠ [] := append_ne_nil_of_right_ne_nil _ here
    unfold ReopenSettings.memTables
    dsimp only
    split
    · rcases ih later none_ne_nil with ⟨full, rest⟩
      exact ⟨forall_mem_cons.mpr ⟨next, full⟩, rest⟩
    · refine ih later (fun entries same => ?_)
      cases same
      exact next

theorem flushedOfLogs_ne_nil (settings : ReopenSettings) {logs : List LogFile}
    (nonempty : ∀ log ∈ logs, ∀ batch ∈ log.batches, batch.memTableEntries ≠ []) :
    ∀ mem ∈ settings.flushedOfLogs logs, mem ≠ [] := by
  induction logs with
  | nil => exact forall_mem_nil _
  | cons log logs ih =>
    rcases forall_mem_cons.mp nonempty with ⟨here, later⟩
    rcases memTables_ne_nil settings here none_ne_nil with ⟨full, rest⟩
    unfold ReopenSettings.flushedOfLogs ReopenSettings.flushedOfLog
    rw [forall_mem_append, forall_mem_append]
    refine ⟨⟨full, ?_⟩, ih later⟩
    split
    · exact forall_mem_nil _
    · exact fun mem member => rest mem (Option.mem_toList.mp member)

end

namespace Logged.Inv

variable {logged : Logged} (inv : Logged.Inv config iteration updates logged)
include inv

/-- Recovery succeeds.  It finds the files of the current version, all contents, and the last
sequence number, and its new tables have numbers that no table of the version has. -/
theorem recover {settings : ReopenSettings} (zero : settings.mod = 0) (same : config.mod = 0)
    (iterations : Iterations) (edits : iterations.edit = iteration) (reuseManifest : Bool) :
    ∃ recovered, logged.recover settings iterations reuseManifest = .ok recovered ∧
      recovered.version.files = logged.db.current.files ∧
      (recovered.contents logged.db.tables).Perm logged.db.contents ∧
      recovered.lastSequence = logged.db.lastSequence ∧
      ∀ file ∈ recovered.added, forall level, ∀ old ∈ recovered.version.files level,
        old.number < file.number := by
  have holds := inv.recoverable.recovers.holds
  have isRecord {log : LogFile} (isLog : log ∈ logged.journal.neededLogs) {batch : WriteBatch}
      (isBatch : batch ∈ log.batches) : batch ∈ logged.journal.records :=
    mem_flatMap.mpr ⟨log, isLog, isBatch⟩
  have flushable : ∀ mem ∈ settings.flushedOfLogs logged.journal.neededLogs,
      Flushable settings mem := fun mem member =>
    ⟨flushedOfLogs_ne_nil settings (fun log isLog batch isBatch =>
      inv.recoverable.nonempty batch (isRecord isLog isBatch)) mem member, by rw [zero]; decide,
      fun ten => (nomatch zero.symm.trans ten), fun ten => (nomatch zero.symm.trans ten)⟩
  have increasing : InWriteOrder (logEntries logged.journal.neededLogs) := by
    rcases inv.db.split with ⟨flushed, all, _⟩
    have ordered := memTableEntries_increasing inv.db.length_lt
    rw [all] at ordered
    rw [holds.logEntries_neededLogs]
    exact (pairwise_append.mp ordered).2.1
  rcases inv.manifest.recoverVersion_eq iterations edits with ⟨version, found, files⟩
  rw [same, <- zero] at found
  rcases recoverLogFiles_spec (Or.inl zero) logged.journal.neededLogs
    ⟨logged.savedFileNumber + 1, [], 0, !reuseManifest⟩
    (fun log isLog batch isBatch => inv.recoverable.recovers.wellFormed batch
      (isRecord isLog isBatch)) flushable increasing with
    ⟨result, replayed, adds, whole, _, _⟩
  rcases adds.tables with ⟨tables, added, flushes, _⟩
  refine ⟨_, bind_eq_ok.mpr ⟨version, found, bind_eq_ok.mpr ⟨result, replayed, rfl⟩⟩, files,
    ?_, ?_, ?_⟩
  · unfold Recovered.contents Database.contents
    rw [files, map_append, Database.memory, <- holds.logEntries_neededLogs, <- whole, map_append,
      show result.1.added = tables from added]
    exact (Perm.refl _).append (flushes.contents.append_right _)
  · exact adds.lastSequence_eq rfl inv.recoverable.recovers.counts
  · intro file isFile level old isOld
    change file ∈ result.1.added at isFile
    rw [show result.1.added = tables from added] at isFile
    change old ∈ version.files level at isOld
    rw [files] at isOld
    exact lt_of_lt_of_le (inv.numbers level old isOld)
      (le_trans (Nat.le_succ _) (flushes.range file isFile).1)

end Logged.Inv

/-- With `MOD` 0, a crash after any run of writes of non-empty batches, switches, flushes,
compactions and deletions of obsolete files loses nothing.  `Recover` succeeds; the version that
it builds from the manifest has the files of the current one; the tables, the new tables and the
memtable have exactly what the database had; the last sequence number is found again.  What the
logs are replayed for is the end of the history of all writes, in its order, and every put that
a reader should see is there or hidden by a newer operation. -/
theorem recovered_of_run (config : Config) (zero : config.mod = 0) (reuseManifest : Bool)
    (events : List LoggedEvent) (nonempty : ∀ event ∈ events, event.WritesSomething)
    (logged : Logged) (run : Logged.run config reuseManifest events = .ok logged)
    (settings : ReopenSettings) (same : settings.mod = 0) (iterations : Iterations)
    (reuse : Bool) :
    (∃ flushed, memTableEntries 1 (events.flatMap LoggedEvent.updates) =
        flushed ++ logEntries logged.journal.neededLogs) ∧
      Kept (events.flatMap LoggedEvent.updates) logged.db ∧
      ∃ recovered, logged.recover settings iterations reuse = .ok recovered ∧
        recovered.version.files = logged.db.current.files ∧
        (recovered.contents logged.db.tables).Perm logged.db.contents ∧
        recovered.lastSequence = logged.db.lastSequence ∧
        ∀ file ∈ recovered.added, forall level, ∀ old ∈ recovered.version.files level,
          old.number < file.number := by
  have inv : Logged.Inv config iterations.edit (events.flatMap LoggedEvent.updates) logged :=
    Logged.inv_of_run zero nonempty run
  rcases inv.db.split with ⟨flushed, all, _⟩
  refine ⟨⟨flushed, ?_⟩, inv.kept, inv.recover same zero iterations rfl reuse⟩
  rw [inv.recoverable.recovers.holds.logEntries_neededLogs]
  exact all

end

section Bytewise

open Bytewise

/-- Two flushes and a compaction, a deletion of obsolete files, and a put that is only in the
log. -/
def compactAndPut : List LoggedEvent :=
  compactTwice.map .act ++ [.deleteObsoleteFiles, .act (.write [.put ⟨[98]⟩ [3]])]

theorem compactAndPut_writesSomething : ∀ event ∈ compactAndPut, event.WritesSomething := by
  rintro event member batch rfl
  simp [compactAndPut, compactTwice, flushTwice] at member
  rcases member with rfl | rfl | rfl <;> exact cons_ne_nil _ _

/-- The two files of the compaction are found again, and the last put is recovered from the log
and written to a new table. -/
theorem recovered_of_run_compactAndPut : ∃ logged recovered,
    Logged.run (.largeEntries 0 (by decide)) false compactAndPut = .ok logged ∧
    logged.recover (.plain 0) ⟨.stored, .stored, .stored⟩ false = .ok recovered ∧
    (recovered.version.files 1).map FileMetaData.number = [8, 9] ∧
    recovered.added.map FlushedFile.number = [11] ∧ recovered.lastSequence = 3 ∧
    (recovered.contents logged.db.tables).Perm logged.db.contents := by
  have ends : (Logged.run (.largeEntries 0 (by decide)) false compactAndPut).toOption.bind
      (fun logged => (logged.recover (.plain 0) ⟨.stored, .stored, .stored⟩
        false).toOption.map (fun recovered =>
          ((recovered.version.files 1).map FileMetaData.number,
            recovered.added.map FlushedFile.number, recovered.lastSequence))) =
      some ([8, 9], [11], 3) := by decide +kernel
  rcases Option.bind_eq_some_iff.mp ends with ⟨logged, isLogged, rest⟩
  rcases Option.map_eq_some_iff.mp rest with ⟨recovered, isRecovered, values⟩
  have run := eq_ok_of_toOption isLogged
  have recovers := eq_ok_of_toOption isRecovered
  rcases recovered_of_run (.largeEntries 0 (by decide)) rfl false compactAndPut
    compactAndPut_writesSomething logged run (.plain 0) rfl ⟨.stored, .stored, .stored⟩ false with
    ⟨_, _, _, again, _, contents, _⟩
  cases recovers.symm.trans again
  simp only [Prod.mk.injEq] at values
  exact ⟨logged, recovered, run, recovers, values.1, values.2.1, values.2.2, contents⟩

end Bytewise

end Db
end Doux
