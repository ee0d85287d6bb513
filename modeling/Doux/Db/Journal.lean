import Doux.Db.MemTable

namespace Doux
namespace Db

open Foundation Util Table List

/-!
# Logs and memtables

This module has only the logs of a database and what the manifest says about them: the
number of the first log that is needed, and a sequence number.  `Journal.Holds` says that
the needed logs have what is in the memtables, and `Counts` that they or the manifest have
the last sequence number.  Every operation keeps both, whatever the mode.
-/

/-- The entries that `InsertInto` adds to a memtable. -/
def WriteBatch.memTableEntries (batch : WriteBatch) : List Entry :=
  batch.insertInto.1.map memTableEntry

/-- A log: its number and its batches. -/
structure LogFile where
  number : Nat
  batches : List WriteBatch

/-- The entries of all batches of some logs. -/
def logEntries (logs : List LogFile) : List Entry :=
  logs.flatMap (fun log => log.batches.flatMap WriteBatch.memTableEntries)

/-- The sequence number of the last operation of a batch. -/
def WriteBatch.lastSequence (batch : WriteBatch) : Nat :=
  (((batch.sequence : Int) + batch.count - 1) % 2 ^ 64).toNat

structure Journal where
  olderLogs : List LogFile
  log : LogFile
  logNumber : Nat

namespace Journal

/-- The journal of a new database.  The flag tells whether the manifest that `NewDB` made
goes on being used. -/
def new (reuseManifest : Bool) : Journal := ⟨[], ⟨3, []⟩, if reuseManifest then 0 else 3⟩

/-- `log_->AddRecord`. -/
def addRecord (journal : Journal) (record : WriteBatch) : Journal :=
  { journal with log := ⟨journal.log.number, journal.log.batches ++ [record]⟩ }

/-- `MakeRoomForWrite` when it starts a new log. -/
def newLog (journal : Journal) (number : Nat) : Journal :=
  { journal with olderLogs := journal.olderLogs ++ [journal.log], log := ⟨number, []⟩ }

/-- The edit of a flush: earlier logs are no longer needed. -/
def setLogNumber (journal : Journal) : Journal := { journal with logNumber := journal.log.number }

/-- The earlier logs that are still needed. -/
def neededOlder (journal : Journal) : List LogFile :=
  journal.olderLogs.filter (fun log => decide (journal.logNumber ≤ log.number))

/-- `DeleteObsoleteFiles`, as far as logs are concerned. -/
def deleteObsoleteFiles (journal : Journal) : Journal :=
  { journal with olderLogs := journal.neededOlder }

/-- The logs that a recovery reads, in the order in which they were generated. -/
def neededLogs (journal : Journal) : List LogFile :=
  ((journal.olderLogs ++ [journal.log]).filter
    (fun log => decide (journal.logNumber ≤ log.number))).insertionSort
      (fun a b => a.number ≤ b.number)

/-- The records that a recovery reads. -/
def records (journal : Journal) : List WriteBatch :=
  journal.neededLogs.flatMap LogFile.batches

/-- The needed logs have what is in the memtables. -/
structure Holds (journal : Journal) (imm mem : List Entry) : Prop where
  older : logEntries journal.neededOlder = imm
  current : logEntries [journal.log] = mem
  needed : journal.logNumber ≤ journal.log.number
  ascending : ∀ log ∈ journal.olderLogs, log.number < journal.log.number
  sorted : journal.olderLogs.Pairwise (fun a b => a.number < b.number)

theorem holds_new (reuseManifest : Bool) : (new reuseManifest).Holds [] [] where
  older := rfl
  current := rfl
  needed := by
    cases reuseManifest <;> decide
  ascending := nofun
  sorted := .nil

namespace Holds

variable {journal : Journal} {imm mem : List Entry} (holds : journal.Holds imm mem)
include holds

theorem neededLogs_eq : journal.neededLogs = journal.neededOlder ++ [journal.log] := by
  have ordered : (journal.olderLogs ++ [journal.log]).Pairwise (fun a b => a.number ≤ b.number) :=
    pairwise_concat.mpr ⟨holds.sorted.imp le_of_lt, fun log member =>
      le_of_lt (holds.ascending log member)⟩
  rw [neededLogs, Pairwise.insertionSort_eq (ordered.filter _), filter_append,
    filter_cons_of_pos (by simpa using holds.needed), filter_nil, neededOlder]

/-- Replaying the needed logs in the order of their numbers gives the memtables. -/
theorem logEntries_neededLogs : logEntries journal.neededLogs = imm ++ mem := by
  rw [holds.neededLogs_eq, logEntries, flatMap_append]
  exact congrArg₂ _ holds.older holds.current

theorem addRecord (record : WriteBatch) :
    (journal.addRecord record).Holds imm (mem ++ record.memTableEntries) :=
  { holds with
    current := by
      rw [<- holds.current]
      simp [Journal.addRecord, logEntries] }

theorem newLog {number : Nat} (above : journal.log.number < number) :
    (journal.newLog number).Holds (imm ++ mem) [] where
  older := by
    rw [<- holds.older, <- holds.current]
    simp [Journal.newLog, neededOlder, holds.needed, logEntries]
    rfl
  current := rfl
  needed := le_trans holds.needed (le_of_lt above)
  ascending := forall_mem_concat.mpr ⟨fun log isOlder =>
    lt_trans (holds.ascending log isOlder) above, above⟩
  sorted := pairwise_concat.mpr ⟨holds.sorted, holds.ascending⟩

theorem setLogNumber : journal.setLogNumber.Holds [] mem :=
  { holds with
    needed := le_refl _
    older := by
      have none : journal.setLogNumber.neededOlder = [] := by
        rw [neededOlder, filter_eq_nil_iff]
        exact fun log member isLater =>
          absurd (of_decide_eq_true isLater) (not_le.mpr (holds.ascending log member))
      exact congrArg logEntries none }

theorem deleteObsoleteFiles : journal.deleteObsoleteFiles.Holds imm mem where
  older := (congrArg logEntries (filter_eq_self.mpr
    (fun _ member => (mem_filter.mp member).2))).trans holds.older
  current := holds.current
  needed := holds.needed
  ascending := fun log member => holds.ascending log (mem_filter.mp member).1
  sorted := holds.sorted.filter _

theorem log_mem_neededLogs : journal.log ∈ journal.neededLogs := by
  rw [holds.neededLogs_eq]
  exact mem_concat_self

theorem records_eq : journal.records =
    journal.neededOlder.flatMap LogFile.batches ++ journal.log.batches := by
  simp [records, holds.neededLogs_eq]

theorem records_addRecord (record : WriteBatch) :
    (journal.addRecord record).records = journal.records ++ [record] := by
  rw [(holds.addRecord record).records_eq, holds.records_eq, append_assoc]
  rfl

theorem records_newLog {number : Nat} (above : journal.log.number < number) :
    (journal.newLog number).records = journal.records := by
  rw [(holds.newLog above).records_eq, holds.records_eq]
  simp [Journal.newLog, neededOlder, holds.needed]
  rfl

theorem records_setLogNumber_subset : journal.setLogNumber.records ⊆ journal.records := by
  intro _ member
  simp only [records, neededLogs, mem_flatMap, mem_insertionSort, mem_filter] at member ⊢
  rcases member with ⟨log, ⟨isLog, needed⟩, inLog⟩
  have later : journal.log.number ≤ log.number := of_decide_eq_true needed
  exact ⟨log, ⟨isLog, decide_eq_true (le_trans holds.needed later)⟩, inLog⟩

theorem records_deleteObsoleteFiles : journal.deleteObsoleteFiles.records = journal.records := by
  rw [holds.deleteObsoleteFiles.records_eq, holds.records_eq]
  refine congrArg (fun logs => flatMap LogFile.batches logs ++ journal.log.batches) ?_
  exact filter_eq_self.mpr (fun _ member => (mem_filter.mp member).2)

end Holds

end Journal

/-- The needed records and the manifest have the last sequence number. -/
structure Counts (savedSequence : Nat) (records : List WriteBatch) (lastSequence : Nat) : Prop where
  saved : savedSequence ≤ lastSequence
  bounds : ∀ record ∈ records, record.lastSequence ≤ lastSequence
  attained : savedSequence = lastSequence ∨ ∃ record ∈ records, record.lastSequence = lastSequence

namespace Counts

variable {savedSequence lastSequence : Nat} {records : List WriteBatch}
  (counts : Counts savedSequence records lastSequence)
include counts

/-- `LogAndApply`: the manifest gets the last sequence number. -/
theorem save {others : List WriteBatch} (fewer : others ⊆ records) :
    Counts lastSequence others lastSequence :=
  ⟨le_refl _, fun record member => counts.bounds record (fewer member), Or.inl rfl⟩

theorem addRecord {record : WriteBatch} (grows : lastSequence ≤ record.lastSequence) :
    Counts savedSequence (records ++ [record]) record.lastSequence where
  saved := le_trans counts.saved grows
  bounds := by
    rw [forall_mem_append, forall_mem_singleton]
    exact ⟨fun other member => le_trans (counts.bounds other member) grows, le_refl _⟩
  attained := Or.inr ⟨record, mem_concat_self, rfl⟩

end Counts

/-- The needed logs have the memtables and, unless it is in the manifest, the last sequence
number; and every record in them has the right count. -/
structure Journal.Recovers (journal : Journal) (imm mem : List Entry)
    (savedSequence lastSequence : Nat) : Prop where
  holds : journal.Holds imm mem
  counts : Counts savedSequence journal.records lastSequence
  wellFormed : ∀ record ∈ journal.records, record.WellFormed

namespace Journal.Recovers

theorem new (reuseManifest : Bool) : (Journal.new reuseManifest).Recovers [] [] 0 0 := by
  have empty : (Journal.new reuseManifest).records = [] := by
    cases reuseManifest <;> rfl
  refine ⟨holds_new reuseManifest, ⟨le_refl 0, ?_, Or.inl rfl⟩, ?_⟩ <;> rw [empty] <;> exact nofun

variable {journal : Journal} {imm mem : List Entry} {savedSequence lastSequence : Nat}
  (recovers : journal.Recovers imm mem savedSequence lastSequence)
include recovers

theorem save : journal.Recovers imm mem lastSequence lastSequence :=
  { recovers with counts := recovers.counts.save (Subset.refl _) }

theorem addRecord {record : WriteBatch} (wellFormed : record.WellFormed)
    (grows : lastSequence ≤ record.lastSequence) :
    (journal.addRecord record).Recovers imm (mem ++ record.memTableEntries) savedSequence
      record.lastSequence := by
  refine ⟨recovers.holds.addRecord record, ?_, ?_⟩ <;> rw [recovers.holds.records_addRecord]
  · exact recovers.counts.addRecord grows
  · exact forall_mem_concat.mpr ⟨recovers.wellFormed, wellFormed⟩

theorem newLog {number : Nat} (above : journal.log.number < number) :
    (journal.newLog number).Recovers (imm ++ mem) [] savedSequence lastSequence := by
  refine ⟨recovers.holds.newLog above, ?_, ?_⟩ <;> rw [recovers.holds.records_newLog above]
  · exact recovers.counts
  · exact recovers.wellFormed

theorem setLogNumber : journal.setLogNumber.Recovers [] mem lastSequence lastSequence where
  holds := recovers.holds.setLogNumber
  counts := recovers.counts.save recovers.holds.records_setLogNumber_subset
  wellFormed := fun record member =>
    recovers.wellFormed record (recovers.holds.records_setLogNumber_subset member)

theorem deleteObsoleteFiles :
    journal.deleteObsoleteFiles.Recovers imm mem savedSequence lastSequence := by
  refine ⟨recovers.holds.deleteObsoleteFiles, ?_, ?_⟩ <;>
    rw [recovers.holds.records_deleteObsoleteFiles]
  · exact recovers.counts
  · exact recovers.wellFormed

end Journal.Recovers

end Db
end Doux
