import Mathlib.Data.Finset.Sort
import Doux.Db.ObsoleteFiles
import Doux.Db.StoreGet

namespace Doux
namespace Db

open Foundation Util List

/-!
# Checking the directory

`DBImpl::Recover` reads the manifest, lists the directory, and replays the logs that
are not older than the manifest says.  Before that it checks for missing files: it
collects the numbers of the key tables and crosses out the number of every file name in
the directory, whatever the type of the file is.
-/

/-- Why a database cannot be opened. -/
inductive OpenFailure where
  | failure (failure : Failure)
  | notFound (text : String)
  | ioError (text : String)

/-- One file name in the loop of `Recover`, which knows the expected numbers and the
logs that have been found so far. -/
def scanFile (vset : VersionSet) (scanned : Finset Nat × List Nat) (name : FileName) :
    Finset Nat × List Nat :=
  match parseFileName name with
  | none => scanned
  | some (number, type) =>
    (scanned.1.erase number,
      if type = .logFile ∧ (number ≥ vset.logNumber ∨ number = vset.prevLogNumber) then
        scanned.2 ++ [number]
      else scanned.2)

/-- The numbers of the key tables of the recovered version. -/
def expectedFiles (vset : VersionSet) : Finset Nat :=
  FileState.addLive kNumLevels [vset.current.files] ∅

def scanFiles (vset : VersionSet) (filenames : List FileName) : Finset Nat × List Nat :=
  filenames.foldl (scanFile vset) (expectedFiles vset, [])

def missingFiles (expected : Finset Nat) : OpenFailure :=
  .failure (.corruption (toString expected.card ++ " missing files; e.g.")
    (String.ofList (tableFileName ((expected.sort (fun a b => a ≤ b)).headD 0))))

/-- `DBImpl::Recover` after the manifest has been read.  What `RecoverLogFile` does with
the logs, from the oldest on, is an argument: see `recoverLogs`. -/
def recoverDatabase (vset : VersionSet) (filenames : List FileName)
    (recoverLogFiles : List Nat -> Except OpenFailure VersionSet) :
    Except OpenFailure VersionSet :=
  let scanned := scanFiles vset filenames
  if scanned.1 ≠ ∅ then .error (missingFiles scanned.1)
  else recoverLogFiles (scanned.2.insertionSort (fun a b => a ≤ b))

/-- All tables of the version are in the directory. -/
structure AllPresent (version : Version Bytes Bytes) (filenames : List FileName) : Prop where
  files : forall level, ∀ file ∈ version.files level,
    tableFileName file.number ∈ filenames ∨ sstTableFileName file.number ∈ filenames
  vfiles : forall level, ∀ file ∈ version.vfiles level, vtableFileName file.number ∈ filenames

def IsCorruption (result : Except OpenFailure VersionSet) : Prop :=
  ∃ text detail, result = .error (.failure (.corruption text detail))

/-- The number is in the name of some file of the directory. -/
def Mentioned (filenames : List FileName) (number : Nat) : Prop :=
  ∃ name ∈ filenames, ∃ type, parseFileName name = some (number, type)

variable {vset : VersionSet} {filenames : List FileName} {number : Nat}

theorem mem_foldl_scanFile {scanned : Finset Nat × List Nat} :
    number ∈ (filenames.foldl (scanFile vset) scanned).1 <->
      number ∈ scanned.1 ∧ ¬ Mentioned filenames number := by
  induction filenames generalizing scanned with
  | nil => simp [Mentioned]
  | cons name filenames ih =>
    rw [foldl_cons, ih]
    have one : number ∈ (scanFile vset scanned name).1 <->
        number ∈ scanned.1 ∧ ∀ type, parseFileName name ≠ some (number, type) := by
      unfold scanFile
      cases parsed : parseFileName name with
      | none => simp
      | some found =>
        rw [Finset.mem_erase, and_comm]
        refine and_congr_right (fun _ => ?_)
        constructor
        · rintro different _ same
          cases same
          exact different rfl
        · rintro different rfl
          exact different found.2 rfl
    rw [one]
    simp only [Mentioned, exists_mem_cons_iff, not_or]
    tauto

theorem mem_expectedFiles {mod : Nat}
    (bounded : vset.current.Bounded mod) : number ∈ expectedFiles vset <->
      ∃ level, ∃ file ∈ vset.current.files level, file.number = number := by
  rw [expectedFiles, FileState.mem_addLive]
  constructor
  · rintro (none | ⟨_, isFiles, level, _, found⟩)
    · cases none
    · rw [mem_singleton.mp isFiles] at found
      exact ⟨level, found⟩
  · rintro ⟨level, file, member, same⟩
    refine Or.inr ⟨vset.current.files, mem_singleton_self _, level, ?_, file, member, same⟩
    by_contra outside
    rw [bounded.files level (Nat.le_of_not_lt outside)] at member
    cases member

/-- The logs that are replayed, in the order of the directory. -/
def logFiles (vset : VersionSet) (filenames : List FileName) : List Nat :=
  ((filenames.filterMap parseFileName).filter (fun parsed => decide (parsed.2 = .logFile ∧
    (parsed.1 ≥ vset.logNumber ∨ parsed.1 = vset.prevLogNumber)))).map Prod.fst

theorem foldl_scanFile_logs (vset : VersionSet) (filenames : List FileName)
    (scanned : Finset Nat × List Nat) :
    (filenames.foldl (scanFile vset) scanned).2 = scanned.2 ++ logFiles vset filenames := by
  induction filenames generalizing scanned with
  | nil => simp [logFiles]
  | cons name filenames ih =>
    rw [foldl_cons, ih]
    unfold scanFile logFiles
    cases parsed : parseFileName name with
    | none => rw [filterMap_cons_none parsed]
    | some found =>
      rw [filterMap_cons_some parsed]
      by_cases isLog : found.2 = .logFile ∧
        (found.1 ≥ vset.logNumber ∨ found.1 = vset.prevLogNumber)
      · simp [filter_cons, if_pos isLog]
      · simp [filter_cons, if_neg isLog]

theorem recoverDatabase_eq {recoverLogFiles : List Nat -> Except OpenFailure VersionSet} :
    recoverDatabase vset filenames recoverLogFiles =
      if (scanFiles vset filenames).1 ≠ ∅ then .error (missingFiles (scanFiles vset filenames).1)
      else recoverLogFiles ((logFiles vset filenames).insertionSort (fun a b => a ≤ b)) := by
  have logs : (scanFiles vset filenames).2 = logFiles vset filenames := by
    rw [scanFiles, foldl_scanFile_logs, nil_append]
  rw [← logs]
  rfl

section
variable [LinearOrder UserKey]

/-- The status for a failure of `RecoverLogFile`. -/
def replayFailure (message : String) : OpenFailure :=
  if message = "NotFound: Empty" then .notFound "Empty"
  else if message = "WriteBatch has wrong count" then .failure (.corruption message "")
  else .failure (.assertion message)

/-- The loop of `Recover` over the logs with these numbers, as `recoverDatabase` takes it.  The
records are read from the log files.  The tables of the replay stay in the edit, which `DB::Open`
installs later, so the version set only gets the numbers that were in use. -/
def recoverLogs (settings : ReopenSettings) (saveManifest : Bool)
    (batches : Nat -> List WriteBatch) (vset : VersionSet) (numbers : List Nat) :
    Except OpenFailure VersionSet := do
  let result <- (Recovery.recoverLogFiles settings ⟨vset.nextFileNumber, [], 0, saveManifest⟩
    (numbers.map (fun number => ⟨number, batches number⟩))).mapError replayFailure
  return { vset with
    nextFileNumber := result.1.nextFileNumber
    lastSequence := max vset.lastSequence result.1.maxSequence }

/-- The directory and its manifest have what the store keeps over a crash. -/
structure Store.KeptIn (db : Store) (vset : VersionSet) (filenames : List FileName)
    (batches : Nat -> List WriteBatch) : Prop where
  nextFileNumber : vset.nextFileNumber = db.savedFileNumber + 1
  lastSequence : vset.lastSequence = db.savedSequence
  expected : (scanFiles vset filenames).1 = ∅
  logs : (logFiles vset filenames).Perm (db.neededLogs.map LogFile.number)
  records : ∀ log ∈ db.neededLogs, batches log.number = log.batches

/-- On the directory of a store `Recover` replays the logs that the store needs: it fails and
succeeds as `Store.reopen` does, with the same last sequence number. -/
theorem recoverDatabase_eq_reopen {db : Store} {batches : Nat -> List WriteBatch}
    (kept : db.KeptIn vset filenames batches) (settings : ReopenSettings) (reuseManifest : Bool) :
    (recoverDatabase vset filenames (recoverLogs settings (!reuseManifest) batches vset)).map
        VersionSet.lastSequence =
      ((db.reopen settings reuseManifest).mapError replayFailure).map Store.lastSequence := by
  have needed : (db.neededLogs.map LogFile.number).Pairwise (fun a b => a ≤ b) := by
    rw [Store.neededLogs, Journal.neededLogs,
      map_insertionSort _ (fun a b => a ≤ b) _ _ fun _ _ _ _ => Iff.rfl]
    exact pairwise_insertionSort _ _
  have sorted : (logFiles vset filenames).insertionSort (fun a b => a ≤ b) =
      db.neededLogs.map LogFile.number :=
    Perm.eq_of_pairwise' (pairwise_insertionSort _ _) needed
      ((perm_insertionSort _ _).trans kept.logs)
  have read : (db.neededLogs.map LogFile.number).map (fun number => ⟨number, batches number⟩) =
      db.neededLogs := by
    rw [map_map]
    refine (map_congr_left fun log member => ?_).trans (map_id _)
    exact congrArg (LogFile.mk log.number) (kept.records log member)
  rw [recoverDatabase_eq, if_neg (not_not.mpr kept.expected), sorted, recoverLogs, read,
    kept.nextFileNumber, Store.reopen]
  rcases Recovery.recoverLogFiles settings _ db.neededLogs with message | result
  · rfl
  · refine congrArg Except.ok (Eq.trans ?_ (db.opened_parts result).2.2.2.symm)
    exact congrArg (fun saved => max saved result.1.maxSequence) kept.lastSequence

end

section
variable {L M : Type} [LinearOrder L] [LinearOrder M] {mod : Nat} {rank : Bytes -> L}
  {vrank : Bytes -> M} {value : Bytes -> BitVec 32} {name : Bytes}
  {recordIterations : Nat -> Iteration} {iterations : Iterations} {manifest : Bytes}
  {vset : VersionSet}

/-- Missing tables lead to a corruption exactly when nothing is missing, when the number
of some key table is in no file name at all, or when the logs are corrupted themselves. -/
theorem recoverDatabase_noticesMissing_iff
    (recovered : VersionSet.new.recover mod rank vrank value name recordIterations iterations
      manifest = some (.ok vset)) (filenames : List FileName)
    (recoverLogFiles : List Nat -> Except OpenFailure VersionSet) :
    ((forall opened, recoverDatabase vset filenames recoverLogFiles = .ok opened ->
        AllPresent vset.current filenames) ∧ (¬ AllPresent vset.current filenames ->
        IsCorruption (recoverDatabase vset filenames recoverLogFiles))) <->
    AllPresent vset.current filenames ∨
      (∃ level, ∃ file ∈ vset.current.files level, ¬ Mentioned filenames file.number) ∨
      IsCorruption (recoverLogFiles
        ((logFiles vset filenames).insertionSort (fun a b => a ≤ b))) := by
  have bounded := (Opening.recover_eq_ok recovered).1
  have noticed : (scanFiles vset filenames).1 ≠ ∅ <->
      ∃ level, ∃ file ∈ vset.current.files level, ¬ Mentioned filenames file.number := by
    rw [← Finset.nonempty_iff_ne_empty]
    constructor
    · rintro ⟨_, missing⟩
      rcases mem_foldl_scanFile.mp missing with ⟨expected, unmentioned⟩
      rcases (mem_expectedFiles bounded).mp expected with ⟨level, file, member, rfl⟩
      exact ⟨level, file, member, unmentioned⟩
    · rintro ⟨level, file, member, unmentioned⟩
      exact ⟨file.number, mem_foldl_scanFile.mpr
        ⟨(mem_expectedFiles bounded).mpr ⟨level, file, member, rfl⟩, unmentioned⟩⟩
  rw [recoverDatabase_eq, ← noticed]
  by_cases present : AllPresent vset.current filenames
  · exact ⟨fun _ => Or.inl present, fun _ => ⟨fun _ _ => present, fun missing =>
      absurd present missing⟩⟩
  · by_cases missing : (scanFiles vset filenames).1 ≠ ∅
    · rw [if_pos missing]
      exact ⟨fun _ => Or.inr (Or.inl missing), fun _ => ⟨nofun, fun _ => ⟨_, _, rfl⟩⟩⟩
    · rw [if_neg missing]
      constructor
      · exact fun property => Or.inr (Or.inr (property.2 present))
      · rintro (impossible | impossible | ⟨text, detail, corrupt⟩)
        · exact absurd impossible present
        · exact absurd impossible missing
        · refine ⟨?_, fun _ => ⟨text, detail, corrupt⟩⟩
          intro _ isOpen
          rw [corrupt] at isOpen
          cases isOpen

end

/-- The manifest after a flush, whose key table and value table both have the number 4. -/
def flushedManifest : Bytes :=
  ((VersionSet.installAll 10 VersionSet.firstByte VersionSet.firstByte (fun _ => 0) [97]
    [⟨5, 0, (VersionEdit.empty.addFile 0 ⟨4, 1, [1], [2]⟩).addVFile 0 ⟨4, 1, [1], [2]⟩,
      ⟨.stored, .stored, .stored⟩⟩]).toOption.bind VersionSet.descriptorLog).elim [] Log.Writer.dest

/-- What `VersionSet::Recover` makes of it. -/
def recoverFlushed : Option (Except Failure VersionSet) :=
  VersionSet.new.recover 10 VersionSet.firstByte VersionSet.firstByte (fun _ => 0) [97]
    (fun _ => .stored) ⟨.stored, .stored, .stored⟩ flushedManifest

theorem exists_recoverFlushed : ∃ vset, recoverFlushed = some (.ok vset) ∧
    (vset.current.files 0).map FileMetaData.number = [4] ∧
    (vset.current.vfiles 0).map FileMetaData.number = [4] ∧ expectedFiles vset = {4} := by
  have computed : recoverFlushed.bind (fun outcome => outcome.toOption.map (fun vset =>
      ((vset.current.files 0).map FileMetaData.number,
        (vset.current.vfiles 0).map FileMetaData.number, expectedFiles vset))) =
      some ([4], [4], {4}) := by
    decide +kernel
  rcases Option.bind_eq_some_iff.mp computed with ⟨outcome, recovered, read⟩
  cases outcome with
  | error failure => cases read
  | ok vset =>
    have fields := Option.some.inj read
    simp only [Prod.mk.injEq] at fields
    exact ⟨vset, recovered, fields⟩

theorem exists_file_of_numbers {files : List (FileMetaData Bytes)}
    (numbers : files.map FileMetaData.number = [number]) : ∃ file ∈ files, file.number = number :=
  mem_map.mp (numbers ▸ mem_singleton_self number)

/-- A missing key table is not noticed while the value table with its number is there,
and a missing value table is never noticed. -/
theorem recoverDatabase_misses_tables : ∃ vset, recoverFlushed = some (.ok vset) ∧
    (¬ AllPresent vset.current [vtableFileName 4] ∧
      recoverDatabase vset [vtableFileName 4] (fun _ => .ok vset) = .ok vset) ∧
    (¬ AllPresent vset.current [tableFileName 4] ∧
      recoverDatabase vset [tableFileName 4] (fun _ => .ok vset) = .ok vset) := by
  rcases exists_recoverFlushed with ⟨vset, recovered, keys, values, expected⟩
  have crossedOut {name : FileName} {type : FileType}
      (parsed : parseFileName name = some (4, type)) :
      recoverDatabase vset [name] (fun _ => .ok vset) = .ok vset := by
    have nothing : (scanFiles vset [name]).1 = ∅ := by
      rw [scanFiles, foldl_cons, scanFile, parsed, expected]
      rfl
    rw [recoverDatabase_eq, if_neg (not_not.mpr nothing)]
  refine ⟨vset, recovered, ⟨?_, crossedOut (by decide : _ = some (4, .vtableFile))⟩, ?_,
    crossedOut (by decide : _ = some (4, .tableFile))⟩
  · rcases exists_file_of_numbers keys with ⟨file, member, four⟩
    exact fun present => absurd (four ▸ present.files 0 file member) (by decide)
  · rcases exists_file_of_numbers values with ⟨file, member, four⟩
    exact fun present => absurd (four ▸ present.vfiles 0 file member) (by decide)

/-- In an empty directory the missing key table is noticed. -/
theorem recoverDatabase_noticesMissing_flushed : ∃ vset, recoverFlushed = some (.ok vset) ∧
    (¬ AllPresent vset.current [] ->
      IsCorruption (recoverDatabase vset [] (fun _ => .ok vset))) := by
  rcases exists_recoverFlushed with ⟨vset, recovered, keys, _, _⟩
  rcases exists_file_of_numbers keys with ⟨file, member, _⟩
  have unmentioned : ¬ Mentioned [] file.number := by
    rintro ⟨_, none, _⟩
    cases none
  exact ⟨vset, recovered, ((recoverDatabase_noticesMissing_iff recovered [] _).mpr
    (Or.inr (Or.inl ⟨0, file, member, unmentioned⟩))).2⟩

end Db
end Doux
