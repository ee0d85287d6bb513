import Doux.Db.MemTable
import Doux.Db.Working

namespace Doux
namespace Db

open Foundation Util Table List

/-!
# Runs of the database

The operations of a run, in the order in which they are written, get the sequence
numbers from one on.  This history is kept nowhere as a whole: its end is in the two
memtables, and what is left of the rest is in the files.

`Prepares` says once what an action can do.  The invariant of a run then needs one
argument for each kind of change: the files are layered, their entries come from the
part of the history that has been flushed, and a running compaction works on files that
are still there.
-/

/-- The operations of an action. -/
def Action.updates : Action -> List Update
  | .write batch => batch
  | _ => []

/-- The operations of a run. -/
def history (actions : List Action) : List Update := actions.flatMap Action.updates

theorem history_snoc (actions : List Action) (action : Action) :
    history (actions ++ [action]) = history actions ++ action.updates := by
  unfold history
  rw [flatMap_append, flatMap_singleton]

theorem Database.smallestSnapshot_le_write (db : Database) (batch : List Update) :
    db.smallestSnapshot ≤ smallestSnapshot { db with
      mem := db.mem ++ memTableEntries (db.lastSequence + 1) batch
      lastSequence := db.lastSequence + batch.length } := by
  unfold smallestSnapshot
  cases db.snapshots with
  | nil => exact Nat.le_add_right _ _
  | cons snapshot snapshots => exact le_refl _

theorem Database.smallestSnapshot_le_getSnapshot (db : Database) :
    db.smallestSnapshot ≤ db.getSnapshot.smallestSnapshot := by
  unfold smallestSnapshot getSnapshot
  cases db.snapshots <;> exact le_refl _

section
variable [LinearOrder UserKey]

/-- The possible outcomes of an action, up to the call of `LogAndApply`. -/
inductive Prepares (config : Config) (db : Database) : Action -> Prepared -> Prop where
  | write {batch : List Update}
      (bounded : db.lastSequence + batch.length < kMaxSequenceNumber) :
      Prepares config db (.write batch)
        ⟨{ db with
          mem := db.mem ++ memTableEntries (db.lastSequence + 1) batch
          lastSequence := db.lastSequence + batch.length }, none⟩
  | switch (free : db.imm = none) :
      Prepares config db .switchMemTable
        ⟨{ db with imm := some db.mem, mem := [], nextFileNumber := db.nextFileNumber + 1 }, none⟩
  | getSnapshot : Prepares config db .getSnapshot ⟨db.getSnapshot, none⟩
  | releaseSnapshot {index : Nat} :
      Prepares config db (.releaseSnapshot index) ⟨db.releaseSnapshot index, none⟩
  | flush {entries : List Entry} {built : Level0Tables} (full : db.imm = some entries)
      (table : buildTables config db.nextFileNumber
        (entries.insertionSort (fun a b => a.key ≤ b.key)) = .ok built) :
      Prepares config db .compactMemTable
        ⟨db.flushed built, some (flushEdit config db.nextFileNumber built)⟩
  | move {request : Request} {compaction : Compaction} (idle : db.compacting = none)
      (picked : db.pick config request = .ok (some compaction))
      (single : compaction.isTrivialMove config.options) :
      Prepares config db (.backgroundCompaction request)
        ⟨db.picked compaction, some (compaction.resultEdit compaction.inputs0)⟩
  | start {action : Action} {request : Request} {compaction : Compaction}
      (quiet : action.updates = []) (idle : db.compacting = none)
      (picked : db.pick config request = .ok (some compaction)) :
      Prepares config db action
        ⟨{ db.picked compaction with compacting := some ⟨compaction, db.smallestSnapshot,
          compaction.inputEntries db.tables, .start, []⟩ }, none⟩
  | entry {work : Compacting} {entry : Entry} {remaining : List Entry} {walk : Walk}
      (running : db.compacting = some work) (isNext : work.remaining = entry :: remaining)
      (stepped : work.walk.step config.sizes config.options work.compaction
        work.smallestSnapshot entry = .ok walk) :
      Prepares config db .compactEntry
        ⟨{ db with
          nextFileNumber := db.nextFileNumber + (walk.opened - work.walk.opened)
          compacting := some { work with
            remaining := remaining
            walk := walk
            numbers := work.numbers ++
              List.range' db.nextFileNumber (walk.opened - work.walk.opened) } }, none⟩
  | finish {work : Compacting} (running : db.compacting = some work)
      (finished : work.remaining = []) :
      Prepares config db .finishCompaction
        ⟨{ db with tables := writeTables db.tables work.written, compacting := none },
          some (work.compaction.resultEdit (work.written.map (outputFile config.sizes)))⟩
  | vmerge {picked : VCompaction} {prepared : Prepared} (ten : config.mod = 10)
      (idle : db.compacting = none)
      (chosen : pickVCompaction config.voptions db.current.vfiles = .ok (some picked))
      (worked : db.doVCompactionWork config picked = .ok prepared) :
      Prepares config db .vcompaction prepared
  | unchanged {action : Action} (quiet : action.updates = []) : Prepares config db action ⟨db, none⟩

variable {next : Database} {action : Action} {request : Request}

namespace Database

variable {config : Config} {db : Database} {prepared : Prepared}

theorem prepares_backgroundCompaction
    (done : db.backgroundCompaction config request = .ok prepared) :
    Prepares config db (.backgroundCompaction request) prepared := by
  unfold backgroundCompaction at done
  split at done
  · cases done
    exact .unchanged rfl
  · next idle =>
      rw [not_or, Option.not_isSome_iff_eq_none] at idle
      rcases bind_eq_ok.mp done with ⟨picked, isPicked, rest⟩
      cases picked with
      | none =>
        cases rest
        exact .unchanged rfl
      | some compaction =>
        dsimp only at rest
        split at rest
        · next trivially =>
            cases rest
            exact .move idle.1 isPicked trivially.2
        · rcases bind_eq_ok.mp rest with ⟨_, begun, finish⟩
          cases finish
          rcases assertThat_bind_eq_ok.mp begun with ⟨_, equal⟩
          cases equal
          exact .start rfl idle.1 isPicked

theorem prepares_triggerCompaction (done : db.triggerCompaction config request = .ok next) :
    Prepares config db (.triggerCompaction request) ⟨next, none⟩ := by
  unfold triggerCompaction at done
  split at done
  · cases done
    exact .unchanged rfl
  · next idle =>
      rw [Option.not_isSome_iff_eq_none] at idle
      rcases bind_eq_ok.mp done with ⟨picked, isPicked, rest⟩
      cases picked with
      | none =>
        cases rest
        exact .unchanged rfl
      | some compaction =>
        rcases assertThat_bind_eq_ok.mp rest with ⟨_, equal⟩
        cases equal
        exact .start rfl idle isPicked

theorem prepares_compactEntry (done : db.compactEntry config = .ok next) :
    Prepares config db .compactEntry ⟨next, none⟩ := by
  unfold compactEntry at done
  split at done
  · cases done
    exact .unchanged rfl
  · next work running =>
      split at done
      · cases done
        exact .unchanged rfl
      · next entry remaining isNext =>
          rcases bind_eq_ok.mp done with ⟨_, stepped, equal⟩
          cases equal
          exact .entry running isNext stepped

theorem prepares_finishCompaction (done : db.finishCompaction config = .ok prepared) :
    Prepares config db .finishCompaction prepared := by
  unfold finishCompaction at done
  split at done
  · cases done
    exact .unchanged rfl
  · next work running =>
      split at done
      · cases done
        exact .unchanged rfl
      · next finished =>
          rcases bind_eq_ok.mp done with ⟨_, described, equal⟩
          rcases (mapM_describe config.sizes _ _).mp described with ⟨rfl, _⟩
          cases equal
          exact .finish running (not_not.mp finished)

theorem prepares_vcompaction (done : db.vcompaction config = .ok prepared) :
    Prepares config db .vcompaction prepared := by
  unfold vcompaction at done
  split at done
  · next guard =>
      rcases bind_eq_ok.mp done with ⟨picked, isPicked, rest⟩
      cases picked with
      | none =>
        cases rest
        exact .unchanged rfl
      | some picked =>
        dsimp only at rest
        split at rest
        · cases rest
          exact .unchanged rfl
        · exact .vmerge guard.1 (Option.isNone_iff_eq_none.mp guard.2) isPicked rest
  · cases done
    exact .unchanged rfl

/-- What an action does is one of the listed outcomes. -/
theorem prepares_of_prepare (done : db.prepare config action = .ok prepared) :
    Prepares config db action prepared := by
  cases action with
  | write batch =>
    rcases bind_eq_ok.mp done with ⟨next, written, equal⟩
    cases equal
    rcases assertThat_bind_eq_ok.mp written with ⟨bounded, equal⟩
    cases equal
    exact .write bounded
  | switchMemTable =>
    cases done
    unfold switchMemTable
    split
    · exact .unchanged rfl
    · next free => exact .switch (Option.not_isSome_iff_eq_none.mp free)
  | getSnapshot =>
    cases done
    exact .getSnapshot
  | releaseSnapshot index =>
    cases done
    exact .releaseSnapshot
  | compactMemTable =>
    change db.compactMemTable config = .ok prepared at done
    unfold compactMemTable at done
    split at done
    · cases done
      exact .unchanged rfl
    · next entries full =>
        rcases bind_eq_ok.mp done with ⟨_, table, equal⟩
        cases equal
        exact .flush full table
  | backgroundCompaction request => exact prepares_backgroundCompaction done
  | triggerCompaction request =>
    rcases bind_eq_ok.mp done with ⟨next, triggered, equal⟩
    cases equal
    exact prepares_triggerCompaction triggered
  | compactEntry =>
    rcases bind_eq_ok.mp done with ⟨_, passed, equal⟩
    cases equal
    exact prepares_compactEntry passed
  | finishCompaction => exact prepares_finishCompaction done
  | vcompaction => exact prepares_vcompaction done

end Database

/-! ## What happens to the files -/

/-- The immutable memtable becomes a file at level zero. -/
structure Flushes (config : Config) (db next : Database) (entries : List Entry)
    (built : Level0Tables) (file : KeyFile) : Prop where
  waiting : db.imm = some entries
  table : buildTables config db.nextFileNumber
    (entries.insertionSort (fun a b => a.key ≤ b.key)) = .ok built
  number : file.number = db.nextFileNumber
  describes : Describes file built.entries
  keys : built.entries.map Entry.key =
    (entries.insertionSort (fun a b => a.key ≤ b.key)).map Entry.key
  zero : forall other, other ∈ next.current.files 0 <-> other ∈ db.current.files 0 ∨ other = file
  others : forall level, level ≠ 0 -> next.current.files level = db.current.files level
  tables : next.tables = Function.update db.tables db.nextFileNumber built.entries

/-- The outputs of a compaction replace its inputs.  What is dropped is hidden by a newer
version, or it is a deletion with nothing below it. -/
structure Compacts (db next : Database) (compaction : Compaction) (outputs : List KeyFile)
    (smallestSnapshot : Nat) : Prop where
  replacement : Replacement compaction outputs db.current.files db.tables next.current.files
    next.tables
  snapshot : smallestSnapshot ≤ db.smallestSnapshot
  kept : ∀ entry ∈ compaction.inputEntries db.tables,
    ¬ Shadowed smallestSnapshot (compaction.inputEntries db.tables) entry ->
    ¬ Obsolete compaction smallestSnapshot entry ->
    ∃ output ∈ outputs, entry ∈ next.tables output.number

/-- The entries of the two memtables. -/
def Database.memory (db : Database) : List Entry := db.imm.getD [] ++ db.mem

/-- What an action with the given operations can do to the memtables and the files of the
key tree. -/
inductive Changes (config : Config) (db next : Database) : List Update -> Prop where
  | unchanged {written : List Update} (files : next.current.files = db.current.files)
      (tables : next.tables = db.tables)
      (memory : next.memory = db.memory ++ memTableEntries (db.lastSequence + 1) written) :
      Changes config db next written
  | flush {entries : List Entry} {built : Level0Tables} {file : KeyFile}
      (flushes : Flushes config db next entries built file) (memory : next.memory = db.mem) :
      Changes config db next []
  | compact {compaction : Compaction} {outputs : List KeyFile} {smallestSnapshot : Nat}
      (compacts : Compacts db next compaction outputs smallestSnapshot)
      (memory : next.memory = db.memory) : Changes config db next []

variable {config : Config} {db : Database}

theorem Database.logAndApply_keeps
    {edit : VersionEdit InternalKey VKey} (installed : db.logAndApply config edit = .ok next) :
    next.memory = db.memory ∧ next.smallestSnapshot = db.smallestSnapshot := by
  rw [(logAndApply_eq_ok.mp installed).2.2]
  exact ⟨rfl, rfl⟩

theorem Prepared.install_keeps {prepared : Prepared}
    (installed : prepared.install config = .ok next) :
    next.memory = prepared.db.memory ∧
      next.smallestSnapshot = prepared.db.smallestSnapshot := by
  unfold Prepared.install at installed
  split at installed
  · cases installed
    exact ⟨rfl, rfl⟩
  · exact Database.logAndApply_keeps installed

omit [LinearOrder UserKey] in
theorem Database.doVCompactionWork_keeps {vcompaction : VCompaction} {prepared : Prepared}
    (worked : db.doVCompactionWork config vcompaction = .ok prepared) :
    prepared.db.memory = db.memory ∧ prepared.db.smallestSnapshot = db.smallestSnapshot := by
  rcases bind_eq_ok.mp worked with ⟨output, _, rest⟩
  cases output <;> cases rest <;> exact ⟨rfl, rfl⟩

/-- The invariant of a run in which the operations have been written.  The memtables have
the end of the history, and every key in the files comes from the rest. -/
structure Inv (config : Config) (updates : List Update) (db : Database) : Prop where
  layered : Layered db.current.files db.tables
  numbers : forall level, ∀ file ∈ db.current.files level, file.number < db.nextFileNumber
  counted : db.lastSequence = updates.length
  bounded : db.lastSequence < kMaxSequenceNumber
  split : ∃ flushed, memTableEntries 1 updates = flushed ++ (db.imm.getD [] ++ db.mem) ∧
    forall level entry, InLevel db.current.files db.tables level entry ->
      ∃ original ∈ flushed, original.key = entry.key
  snapshots : db.snapshots.Pairwise (fun older newer => older ≤ newer)
  held : ∀ snapshot ∈ db.snapshots, snapshot ≤ db.lastSequence
  working : ∀ work ∈ db.compacting, Working config db work

theorem inv_new (config : Config) : Inv config [] .new where
  layered := layered_empty _
  numbers := fun _ => nofun
  counted := rfl
  bounded := show 0 < kMaxSequenceNumber by decide
  split := ⟨[], rfl, fun _ _ inLevel => nomatch inLevel⟩
  snapshots := Pairwise.nil
  held := nofun
  working := nofun

namespace Inv
variable {config : Config} {updates : List Update} {db : Database} (inv : Inv config updates db)
include inv

theorem length_lt : 1 + updates.length ≤ kMaxSequenceNumber + 1 := by
  have bound := inv.bounded
  rw [inv.counted] at bound
  omega

theorem smallestSnapshot_le : db.smallestSnapshot ≤ db.lastSequence := by
  unfold Database.smallestSnapshot
  cases held : db.snapshots with
  | nil => exact le_refl _
  | cons snapshot snapshots => exact inv.held snapshot (held ▸ mem_cons_self)

theorem smallestSnapshot_le_releaseSnapshot (index : Nat) :
    db.smallestSnapshot ≤ (db.releaseSnapshot index).smallestSnapshot := by
  have oldest := inv.snapshots
  have held := inv.held
  unfold Database.smallestSnapshot Database.releaseSnapshot
  generalize db.snapshots = snapshots at oldest held
  match snapshots, index with
  | [], _ => exact le_refl _
  | [first], 0 => exact held first mem_cons_self
  | first :: second :: rest, 0 =>
    exact (pairwise_cons.mp oldest).1 second mem_cons_self
  | first :: rest, index + 1 => exact le_refl _

/-- An action that only takes file numbers, chooses a compaction or goes on with one. -/
theorem still (files : next.current.files = db.current.files)
    (tables : next.tables = db.tables) (grows : db.nextFileNumber ≤ next.nextFileNumber)
    (lastSequence : next.lastSequence = db.lastSequence) (imm : next.imm = db.imm)
    (mem : next.mem = db.mem) (snapshots : next.snapshots = db.snapshots)
    (working : ∀ work ∈ next.compacting, Working config next work) :
    Inv config updates next where
  layered := by
    rw [files, tables]
    exact inv.layered
  numbers := by
    intro level file member
    rw [files] at member
    exact lt_of_lt_of_le (inv.numbers level file member) grows
  counted := lastSequence.trans inv.counted
  bounded := lt_of_eq_of_lt lastSequence inv.bounded
  split := by
    rw [files, tables, imm, mem]
    exact inv.split
  snapshots := by
    rw [snapshots]
    exact inv.snapshots
  held := by
    rw [snapshots, lastSequence]
    exact inv.held
  working := working

theorem write {batch : List Update}
    (bounded : db.lastSequence + batch.length < kMaxSequenceNumber) :
    Inv config (updates ++ batch) { db with
      mem := db.mem ++ memTableEntries (db.lastSequence + 1) batch
      lastSequence := db.lastSequence + batch.length } where
  layered := inv.layered
  numbers := inv.numbers
  counted := by rw [inv.counted, length_append]
  bounded := bounded
  split := by
    rcases inv.split with ⟨flushed, all, stored⟩
    refine ⟨flushed, ?_, stored⟩
    rw [memTableEntries_append, all, add_comm 1, <- inv.counted, append_assoc, append_assoc]
  snapshots := inv.snapshots
  held := fun snapshot member => le_trans (inv.held snapshot member) (Nat.le_add_right _ _)
  working := fun work running => (inv.working work running).congr rfl (fun _ _ _ => rfl)
    (db.smallestSnapshot_le_write batch) (le_refl _)

theorem switch (free : db.imm = none) : Inv config updates { db with
    imm := some db.mem
    mem := []
    nextFileNumber := db.nextFileNumber + 1 } :=
  { inv with
    numbers := fun level file member => Nat.lt_succ_of_lt (inv.numbers level file member)
    split := by
      rcases inv.split with ⟨flushed, all, stored⟩
      rw [free] at all
      exact ⟨flushed, all.trans (by simp), stored⟩
    working := fun work running =>
      (inv.working work running).congr rfl (fun _ _ _ => rfl) (le_refl _) (Nat.le_succ _) }

theorem getSnapshot : Inv config updates db.getSnapshot :=
  { inv with
    snapshots := by
      exact pairwise_concat.mpr ⟨inv.snapshots, inv.held⟩
    held := forall_mem_concat.mpr ⟨inv.held, le_refl _⟩
    working := fun work running => (inv.working work running).congr rfl (fun _ _ _ => rfl)
      db.smallestSnapshot_le_getSnapshot (le_refl _) }

theorem releaseSnapshot (index : Nat) : Inv config updates (db.releaseSnapshot index) :=
  { inv with
    snapshots := inv.snapshots.sublist (eraseIdx_sublist _ _)
    held := fun snapshot member =>
      inv.held snapshot ((eraseIdx_sublist _ _).subset member)
    working := fun work running => (inv.working work running).congr rfl (fun _ _ _ => rfl)
      (inv.smallestSnapshot_le_releaseSnapshot index) (le_refl _) }

variable {compaction : Compaction}

theorem start (picked : db.pick config request = .ok (some compaction)) :
    Inv config updates { db.picked compaction with
      compacting := some ⟨compaction, db.smallestSnapshot, compaction.inputEntries db.tables,
        .start, []⟩ } :=
  { inv with
    working := by
      intro _ isWork
      cases isWork
      have complete := pickCompaction_complete _ inv.layered.orderedLevels picked
      have bounded := lt_of_le_of_lt inv.smallestSnapshot_le inv.bounded
      exact (Working.start inv.layered complete bounded).congr rfl (fun _ _ _ => rfl) (le_refl _)
        (le_refl _) }

theorem entry {work : Compacting} {entry : Entry} {remaining : List Entry} {walk : Walk}
    (running : db.compacting = some work) (isNext : work.remaining = entry :: remaining)
    (stepped : work.walk.step config.sizes config.options work.compaction
      work.smallestSnapshot entry = .ok walk) :
    Inv config updates { db with
      nextFileNumber := db.nextFileNumber + (walk.opened - work.walk.opened)
      compacting := some { work with
        remaining := remaining
        walk := walk
        numbers := work.numbers ++
          range' db.nextFileNumber (walk.opened - work.walk.opened) } } :=
  { inv with
    numbers := fun level file member => Nat.lt_add_right _ (inv.numbers level file member)
    working := by
      intro _ isOther
      cases isOther
      exact (inv.working work running).entry isNext stepped rfl rfl rfl rfl inv.numbers }

theorem flush (plain : config.mod ≠ 13) {entries : List Entry} {built : Level0Tables}
    (full : db.imm = some entries) (table : buildTables config db.nextFileNumber
      (entries.insertionSort (fun a b => a.key ≤ b.key)) = .ok built) :
    ∃ next, (db.flushed built).logAndApply config (flushEdit config db.nextFileNumber built) =
        .ok next ∧
      Inv config updates next ∧
      Flushes config db next entries built (flushedKeyFile config db.nextFileNumber built) := by
  rcases inv.split with ⟨flushed, all, stored⟩
  rw [full] at all
  have ordered := memTableEntries_increasing inv.length_lt
  rw [all, InWriteOrder, pairwise_append, pairwise_append] at ordered
  have isEntry {entry : Entry} (member : entry ∈ entries) : entry ∈ memTableEntries 1 updates := by
    rw [all]
    exact mem_append_right _ (mem_append_left _ member)
  have perm := perm_insertionSort (fun a b : Entry => a.key ≤ b.key) entries
  have parse : ∀ entry ∈ entries.insertionSort (fun a b => a.key ≤ b.key),
      entry.key.type.isSome := by
    intro entry member
    rcases memTableEntries_spec inv.length_lt (isEntry (perm.mem_iff.mp member)) with
      ⟨_, _, _, _, _, type, _⟩
    rw [type]
    rfl
  rcases buildTables_describes plain (sorted_memTable ordered.2.1.1) parse table with
    ⟨keys, describes⟩
  have source {entry : Entry} (member : entry ∈ built.entries) :
      ∃ original ∈ entries, original.key = entry.key := by
    have isKey : entry.key ∈ built.entries.map Entry.key := mem_map_of_mem member
    rw [keys] at isKey
    rcases mem_map.mp isKey with ⟨original, isOriginal, same⟩
    exact ⟨original, perm.mem_iff.mp isOriginal, same⟩
  have fresh : ∀ old ∈ db.current.files 0, old.number ≠ db.nextFileNumber :=
    fun old member => ne_of_lt (inv.numbers 0 old member)
  have newer : ∀ level old, InLevel db.current.files db.tables level old ->
      ∀ entry ∈ built.entries, old.key.sequence < entry.key.sequence := by
    intro level old inLevel entry member
    rcases stored level old inLevel with ⟨first, isFirst, firstKey⟩
    rcases source member with ⟨second, isSecond, secondKey⟩
    rw [<- firstKey, <- secondKey]
    exact ordered.2.2 first isFirst second (mem_append_left _ isSecond)
  have identified : ∀ first ∈ built.entries, ∀ second ∈ built.entries,
      first.key.sequence = second.key.sequence -> first = second := by
    have distinct : ((built.entries.map Entry.key).map InternalKey.sequence).Nodup := by
      rw [keys, map_map]
      exact (perm.map _).nodup_iff.mpr
        (pairwise_map.mpr (ordered.2.1.1.imp (fun less => ne_of_lt less)))
    rw [map_map] at distinct
    exact fun first isFirst second isSecond => inj_on_of_nodup_map distinct isFirst isSecond
  rcases edited_flushEdit config db.nextFileNumber built (db.flushed built) inv.layered fresh with
    ⟨sorted, zero, others⟩
  have layered := inv.layered.flush zero others inv.numbers
    (describes (config.sizes.finished built.entries)) newer identified sorted
  refine ⟨_, Database.logAndApply_of_layered (inRange_flushEdit config _ built) layered, ?_, ?_⟩
  · refine { inv with layered := layered, numbers := ?_, split := ?_, working := ?_ }
    · intro level file member
      rcases (mem_flushed zero others).mp member with old | ⟨_, rfl⟩
      · exact Nat.lt_succ_of_lt (inv.numbers level file old)
      · exact Nat.lt_succ_self _
    · refine ⟨flushed ++ entries, ?_, fun level entry member => ?_⟩
      · rw [all, append_assoc]
        rfl
      · rcases (inLevel_flushed zero others inv.numbers).mp member with old | ⟨_, new⟩
        · rcases stored level entry old with ⟨original, isOriginal, same⟩
          exact ⟨original, mem_append_left _ isOriginal, same⟩
        · rcases source new with ⟨original, isOriginal, same⟩
          exact ⟨original, mem_append_right _ isOriginal, same⟩
    · intro work running
      have working := inv.working work running
      exact working.flush rfl inv.numbers (fun number opened => (working.unused number opened).1)
        newer zero others rfl rfl (Nat.le_succ _)
  · exact ⟨full, table, rfl, describes _, keys, zero, others, rfl⟩

theorem replace {outputs : List KeyFile} {tables : Nat -> List Entry}
    (pointers : Nat -> Option InternalKey) (fits : compaction.Fits db.current.files db.tables)
    (results : compaction.Results db.current.files db.tables outputs tables)
    (numbers : ∀ output ∈ outputs, output.number < db.nextFileNumber) :
    ∃ next, Database.logAndApply config
        { db with tables := tables, compactPointer := pointers, compacting := none }
        (compaction.resultEdit outputs) = .ok next ∧
      Inv config updates next ∧ next.tables = tables ∧
      Replacement compaction outputs db.current.files db.tables next.current.files next.tables := by
  have replacement : Replacement compaction outputs db.current.files db.tables
      (Database.edited config
        { db with tables := tables, compactPointer := pointers, compacting := none }
        (compaction.resultEdit outputs)).current.files tables :=
    results.replacement inv.layered fits
  have layered := replacement.layered inv.layered
  refine ⟨_, Database.logAndApply_of_layered
    (compaction.inRange_resultEdit outputs config.mod fits.below) layered, ?_, rfl, replacement⟩
  refine { inv with layered := layered, numbers := ?_, split := ?_, working := nofun }
  · intro level file member
    rcases (replacement.mem level file).mp member with ⟨old, _⟩ | ⟨_, isOutput⟩
    · exact inv.numbers level file old
    · exact numbers file isOutput
  · rcases inv.split with ⟨flushed, all, stored⟩
    refine ⟨flushed, all, fun level entry member => ?_⟩
    rcases replacement.inLevel member with ⟨old, inOld⟩
    exact stored old entry inOld

theorem move (idle : db.compacting = none) (complete : compaction.Complete db.current.files)
    (single : compaction.isTrivialMove config.options) :
    ∃ next, (db.picked compaction).logAndApply config
        (compaction.resultEdit compaction.inputs0) = .ok next ∧
      Inv config updates next ∧
      Compacts db next compaction compaction.inputs0 db.smallestSnapshot := by
  have fits := complete.fits inv.layered
  have isFile {file : KeyFile} (member : file ∈ compaction.inputs0) :
      file ∈ db.current.files compaction.level :=
    fits.inputs _ file (Or.inl ⟨rfl, member⟩)
  have results : compaction.Results db.current.files db.tables compaction.inputs0 db.tables := by
    constructor
    · exact fun _ _ _ _ => rfl
    · exact fun output member => inv.layered.described _ output (isFile member)
    · rcases length_eq_one_iff.mp single.1 with ⟨file, only⟩
      rw [only]
      exact pairwise_singleton _ _
    · intro output member _ inFile
      exact Compaction.mem_inputEntries.mpr ⟨_, output, Or.inl ⟨rfl, member⟩, inFile⟩
    · intro output member level file inLevel same
      rcases inv.layered.numbered _ _ output (isFile member) file inLevel same with ⟨level, rfl⟩
      exact ⟨level.symm, member⟩
    · intro output member other isOther same
      exact (inv.layered.numbered _ _ output (isFile member) other (isFile isOther) same).2
  rcases inv.replace (Function.update db.compactPointer compaction.level (some compaction.largest))
    fits results (fun output member => inv.numbers _ output (isFile member)) with
    ⟨next, installed, invNext, tables, replacement⟩
  have same : db.picked compaction = { db with
      tables := db.tables
      compactPointer :=
        Function.update db.compactPointer compaction.level (some compaction.largest)
      compacting := none } := by
    rw [<- idle]
    rfl
  rw [same]
  refine ⟨next, installed, invNext, replacement, le_refl _, ?_⟩
  intro _ member _ _
  rcases Compaction.mem_inputEntries.mp member with ⟨_, file, ⟨_, isInput⟩ | ⟨_, isInput⟩, inFile⟩
  · exact ⟨file, isInput, by rw [tables]; exact inFile⟩
  · rw [length_eq_zero_iff.mp single.2.1] at isInput
    cases isInput

theorem finish {work : Compacting} (running : db.compacting = some work)
    (finished : work.remaining = []) :
    ∃ next, Database.logAndApply config
        { db with tables := writeTables db.tables work.written, compacting := none }
        (work.compaction.resultEdit (work.written.map (outputFile config.sizes))) = .ok next ∧
      Inv config updates next ∧
      Compacts db next work.compaction (work.written.map (outputFile config.sizes))
        work.smallestSnapshot := by
  have working := inv.working work running
  have numbered : ∀ output ∈ work.written.map (outputFile config.sizes),
      output.number < db.nextFileNumber := by
    intro _ member
    rcases mem_map.mp member with ⟨table, isTable, rfl⟩
    rw [outputFile_number]
    refine (working.unused table.1 ?_).1
    rw [<- working.map_fst_written]
    exact mem_map_of_mem isTable
  rcases inv.replace db.compactPointer working.fits (working.results finished) numbered with
    ⟨next, installed, invNext, tables, replacement⟩
  refine ⟨next, installed, invNext, replacement, working.snapshot, ?_⟩
  intro _ member visible needed
  have distinct : (work.written.map Prod.fst).Nodup := by
    rw [working.map_fst_written]
    exact working.distinct
  rw [tables, exists_output_iff config.sizes distinct, (working.flatten_written finished).1,
    mem_filter]
  exact ⟨member, by simpa using ⟨visible, needed⟩⟩

variable {prepared : Prepared}

theorem vmerge (ten : config.mod = 10) (idle : db.compacting = none) {vcompaction : VCompaction}
    (worked : db.doVCompactionWork config vcompaction = .ok prepared) :
    ∃ next, prepared.install config = .ok next ∧ Inv config updates next ∧
      next.current.files = db.current.files ∧ next.tables = db.tables := by
  have nothing (next : Database) (same : next.compacting = db.compacting) :
      ∀ work ∈ next.compacting, Working config next work := by
    rw [same, idle]
    exact nofun
  rcases bind_eq_ok.mp worked with ⟨output, _, rest⟩
  cases output with
  | none =>
    cases rest
    rcases logAndApply_valueEdit ten inv.layered vcompaction.valueEdit_deletions with
      ⟨installed, files⟩
    exact ⟨_, installed, inv.still files rfl (le_refl _) rfl rfl rfl rfl (nothing _ rfl), files,
      rfl⟩
  | some output =>
    cases rest
    have layered : Layered (Database.current { db with
      vtables := Function.update db.vtables db.nextFileNumber output.blocks
      nextFileNumber := db.nextFileNumber + 1 }).files db.tables := inv.layered
    rcases logAndApply_valueEdit ten layered (vcompaction.valueEdit_resultEdit _) with
      ⟨installed, files⟩
    exact ⟨_, installed, inv.still files rfl (Nat.le_succ _) rfl rfl rfl rfl (nothing _ rfl),
      files, rfl⟩

theorem prepares (plain : config.mod ≠ 13) (does : Prepares config db action prepared) :
    ∃ next, prepared.install config = .ok next ∧
      Inv config (updates ++ action.updates) next ∧ Changes config db next action.updates := by
  have quiet {action : Action} (nothing : action.updates = []) :
      updates ++ action.updates = updates := by
    rw [nothing, append_nil]
  cases does with
  | write bounded =>
    refine ⟨_, rfl, inv.write bounded, .unchanged rfl rfl ?_⟩
    exact (append_assoc _ _ _).symm
  | switch free =>
    rw [quiet rfl]
    refine ⟨_, rfl, inv.switch free, .unchanged rfl rfl ?_⟩
    simp [Database.memory, free, Action.updates, memTableEntries, WriteBatch.numbered]
  | getSnapshot =>
    rw [quiet rfl]
    exact ⟨_, rfl, inv.getSnapshot, .unchanged rfl rfl (append_nil _).symm⟩
  | releaseSnapshot =>
    rw [quiet rfl]
    exact ⟨_, rfl, inv.releaseSnapshot _, .unchanged rfl rfl (append_nil _).symm⟩
  | flush full table =>
    rcases inv.flush plain full table with ⟨next, installed, invNext, flushes⟩
    rw [quiet rfl]
    exact ⟨next, installed, invNext, .flush flushes (Database.logAndApply_keeps installed).1⟩
  | move idle picked single =>
    rcases inv.move idle (pickCompaction_complete _ inv.layered.orderedLevels picked) single with
      ⟨next, installed, invNext, compacts⟩
    rw [quiet rfl]
    exact ⟨next, installed, invNext, .compact compacts (Database.logAndApply_keeps installed).1⟩
  | start nothing idle picked =>
    rw [quiet nothing, nothing]
    exact ⟨_, rfl, inv.start picked, .unchanged rfl rfl (append_nil _).symm⟩
  | entry running isNext stepped =>
    rw [quiet rfl]
    exact ⟨_, rfl, inv.entry running isNext stepped, .unchanged rfl rfl (append_nil _).symm⟩
  | finish running finished =>
    rcases inv.finish running finished with ⟨next, installed, invNext, compacts⟩
    rw [quiet rfl]
    exact ⟨next, installed, invNext, .compact compacts (Database.logAndApply_keeps installed).1⟩
  | vmerge ten idle chosen worked =>
    rcases inv.vmerge ten idle worked with ⟨next, installed, invNext, files, tables⟩
    rw [quiet rfl]
    refine ⟨next, installed, invNext, .unchanged files tables ?_⟩
    rw [(Prepared.install_keeps installed).1, (Database.doVCompactionWork_keeps worked).1]
    exact (append_nil _).symm
  | unchanged nothing =>
    rw [quiet nothing, nothing]
    exact ⟨db, rfl, inv, .unchanged rfl rfl (append_nil _).symm⟩

theorem smallestSnapshot_le_prepared (does : Prepares config db action prepared) :
    db.smallestSnapshot ≤ prepared.db.smallestSnapshot := by
  cases does with
  | write bounded => exact db.smallestSnapshot_le_write _
  | getSnapshot => exact db.smallestSnapshot_le_getSnapshot
  | releaseSnapshot => exact inv.smallestSnapshot_le_releaseSnapshot _
  | vmerge ten idle chosen worked =>
    exact le_of_eq (Database.doVCompactionWork_keeps worked).2.symm
  | _ => exact le_refl _

end Inv

/-- A step from a state of a run leads to a state of the longer run. -/
theorem Inv.step (plain : config.mod ≠ 13) {updates : List Update} (inv : Inv config updates db)
    (stepped : db.step config action = .ok next) :
    Inv config (updates ++ action.updates) next ∧ Changes config db next action.updates ∧
      db.smallestSnapshot ≤ next.smallestSnapshot := by
  rcases bind_eq_ok.mp stepped with ⟨_, prepares, installed⟩
  have does := Database.prepares_of_prepare prepares
  rcases inv.prepares plain does with ⟨_, again, invNext, changes⟩
  rw [installed] at again
  cases again
  refine ⟨invNext, changes, ?_⟩
  rw [(Prepared.install_keeps installed).2]
  exact inv.smallestSnapshot_le_prepared does

theorem inv_of_run (plain : config.mod ≠ 13) {actions : List Action}
    (run : Database.run config actions = .ok db) :
    Inv config (history actions) db := by
  have start : Inv config (history []) .new := inv_new config
  refine foldlM_invariant (fun seen db => Inv config (history seen) db) ?_ start run
  intro _ _ _ _ inv stepped
  rw [history_snoc]
  exact (inv.step plain stepped).1

/-- Without `MOD` 9 and 13, the files of every level above zero are in order in all states of
a run, and the check of `MaybeAddFile` succeeds in every next step. -/
theorem levels_ordered_of_run (config : Config) (plain : config.mod ≠ 13) (actions : List Action)
    (db : Database) (run : Database.run config actions = .ok db) :
    (forall level, level > 0 -> SortedBy (bySmallestKey (fun key : InternalKey => key))
        (db.current.files level) ∧ (db.current.files level).IsChain Precedes) ∧
      forall action prepared, db.prepare config action = .ok prepared ->
        ∃ next, prepared.install config = .ok next := by
  have inv := inv_of_run plain run
  refine ⟨fun level positive =>
    ⟨inv.layered.sorted level, (inv.layered.disjoint level positive).isChain⟩, ?_⟩
  intro _ _ prepares
  rcases inv.prepares plain (Database.prepares_of_prepare prepares) with ⟨next, installed, _⟩
  exact ⟨next, installed⟩

end

/-! ## Two versions of one key -/

section Bytewise

open Bytewise

/-- Settings for small databases with entries of two megabytes, so that an output file is
full after one of them. -/
def Config.largeEntries (mod : Nat) (supported : mod ≠ 9) : Config :=
  { Config.plain mod supported with
    sizes := ⟨fun entries => 2097152 * entries.length, fun entries => 2097152 * entries.length⟩ }

/-- Two flushes of one user key of eight bytes, and a compaction of both files. -/
def flushTwice : List Action :=
  [.write [.put ⟨List.replicate 8 97⟩ (List.replicate 8 1)], .switchMemTable, .compactMemTable,
    .write [.put ⟨List.replicate 8 97⟩ (List.replicate 8 2)], .switchMemTable, .compactMemTable,
    .backgroundCompaction (.size 0), .compactEntry, .compactEntry]

/-- With `MOD` 13 the key tables have the user keys without their tags.  Both tables then
have the same key, and so have the two output files of the compaction, which overlap. -/
theorem install_overlaps : ∃ db prepared,
    Database.run (.largeEntries 13 (by decide)) flushTwice = .ok db ∧
    db.prepare (.largeEntries 13 (by decide)) .finishCompaction = .ok prepared ∧
    prepared.install (.largeEntries 13 (by decide)) =
      .error "icmp_.Compare((*files)[files->size() - 1]->largest, f->smallest) < 0" := by
  have fails : (Database.run (.largeEntries 13 (by decide)) flushTwice).toOption.bind
      (fun db => (db.prepare (.largeEntries 13 (by decide)) .finishCompaction).toOption.bind
        (fun prepared => match prepared.install (.largeEntries 13 (by decide)) with
          | .error text => some text
          | .ok _ => none)) =
      some "icmp_.Compare((*files)[files->size() - 1]->largest, f->smallest) < 0" := by
    decide +kernel
  rcases Option.bind_eq_some_iff.mp fails with ⟨db, run, rest⟩
  rcases Option.bind_eq_some_iff.mp rest with ⟨prepared, prepares, installs⟩
  refine ⟨db, prepared, eq_ok_of_toOption run, eq_ok_of_toOption prepares, ?_⟩
  cases outcome : prepared.install (.largeEntries 13 (by decide)) with
  | error text =>
    rw [outcome] at installs
    cases installs
    rfl
  | ok next =>
    rw [outcome] at installs
    cases installs

/-- Two flushes of one user key with a snapshot between the writes, so that the compaction
keeps both versions and puts them into two files of level one. -/
def compactTwice : List Action :=
  flushTwice.insertIdx 1 .getSnapshot ++ [.finishCompaction]

/-- With `MOD` 0 the compaction is installed.  Both files of level one have the same user key,
and the file with the newer version comes first. -/
theorem levels_ordered_compactTwice :
    ∃ db, Database.run (.largeEntries 0 (by decide)) compactTwice = .ok db ∧
      (db.current.files 1).map (fun file => (file.number, file.largest.sequence)) =
        [(8, 2), (9, 1)] ∧
      forall level, level > 0 -> SortedBy (bySmallestKey (fun key : InternalKey => key))
        (db.current.files level) ∧ (db.current.files level).IsChain Precedes := by
  have returns : (Database.run (.largeEntries 0 (by decide)) compactTwice).toOption.map (fun db =>
      (db.current.files 1).map (fun file => (file.number, file.largest.sequence))) =
        some [(8, 2), (9, 1)] := by
    decide +kernel
  rcases Option.map_eq_some_iff.mp returns with ⟨db, isRun, files⟩
  have run := eq_ok_of_toOption isRun
  exact ⟨db, run, files, (levels_ordered_of_run _ (by decide) compactTwice db run).1⟩

end Bytewise

end Db
end Doux
