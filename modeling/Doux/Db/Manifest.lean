import Doux.Db.Replay
import Doux.Db.Run

namespace Doux
namespace Db

open Foundation Util Table List

/-!
# The manifest of a database

`LogAndApply` applies each edit to the current version and appends it to the manifest.
`VersionSet::Recover` has the edits only, and gives all of them to one builder.  For the
edits of a run with `MOD` 0 the two agree: the files that `Recover` finds at each level
are those of the current version, in the same order.

`Doux.Db.Replay` proves this for edits that add no file number twice to a level.  A file
gets its number when it is written and takes it along when it is moved, so what has to be
shown of a run is that no file comes to a level where it was before.  The invariant says
that a number is never above the file that has it now.
-/

section
variable [LinearOrder UserKey]

/-- `VersionSet::Recover` on the edits that it has read from a manifest: one builder takes them
all, and the version is what it saves.  The records of the manifest, the numbers in them and the
compaction pointers are the subject of `Doux.Db.VersionSet`. -/
def recoverVersion (mod : Nat) (iterations : Iterations)
    (edits : List (VersionEdit InternalKey VKey)) : Except String (Version InternalKey VKey) := do
  let builder <- edits.foldlM
    (Builder.apply mod (fun key => key) (fun key => key) iterations.edit) (Builder.new .empty)
  builder.saveTo mod (fun key => key) (fun key => key) iterations.base iterations.current

end

/-- The edit says nothing about value files.  With `MOD` 0 no edit does. -/
structure KeyEdit (edit : VersionEdit InternalKey VKey) : Prop where
  added : edit.newVFiles = []
  deleted : edit.deletedVFiles = .empty
  dep : edit.dep = .empty

theorem KeyEdit.reread {edit : VersionEdit InternalKey VKey} (keyEdit : KeyEdit edit)
    (iteration : Iteration) : edit.reread iteration = edit := by
  have same : Dependency.empty.setParents (iteration.order edit.dep.edges) = edit.dep := by
    rw [keyEdit.dep, show Dependency.empty.edges = [] from rfl, iteration.order_nil]
    rfl
  unfold VersionEdit.reread
  rw [same]

theorem keyEdit_resultEdit (compaction : Compaction) (outputs : List KeyFile) :
    KeyEdit (compaction.resultEdit outputs) := by
  rw [compaction.resultEdit_eq]
  exact ⟨rfl, rfl, rfl⟩

/-- All files that the edits have added, with their levels. -/
def addedFiles (edits : List (VersionEdit InternalKey VKey)) : List (Nat × KeyFile) :=
  edits.flatMap VersionEdit.newFiles

section
variable [LinearOrder UserKey]

/-- The edits of a manifest against the database that has written them. -/
structure Manifest (config : Config) (iteration : Iteration) (db : Database)
    (edits : List (VersionEdit InternalKey VKey)) : Prop where
  keyEdits : ∀ edit ∈ edits, KeyEdit edit
  numbers : ∀ file ∈ addedFiles edits, file.2.number < db.nextFileNumber ∧
    ∀ work ∈ db.compacting, file.2.number ∉ work.numbers
  levels : ∀ file ∈ addedFiles edits, forall level, ∀ live ∈ db.current.files level,
    live.number = file.2.number -> file.1 ≤ level
  tracks : ∃ builder, edits.foldlM (Builder.apply config.mod (fun key => key) (fun key => key)
      iteration) (Builder.new .empty) = .ok builder ∧
    Tracks config.mod (fun key => key) (fun key => key) edits db.current builder

variable {config : Config} {iteration : Iteration} {db next : Database}
  {edits : List (VersionEdit InternalKey VKey)} {edit : VersionEdit InternalKey VKey}

theorem manifest_new (config : Config) (iteration : Iteration) :
    Manifest config iteration .new [] :=
  ⟨nofun, nofun, nofun, _, rfl, tracks_empty _ _ _⟩

namespace Manifest

variable (manifest : Manifest config iteration db edits)
include manifest

/-- The files of the version do not change, and a running compaction only gets new numbers. -/
theorem still (current : next.current = db.current)
    (grows : db.nextFileNumber ≤ next.nextFileNumber)
    (opened : ∀ work ∈ next.compacting, ∀ number ∈ work.numbers,
      (∃ before ∈ db.compacting, number ∈ before.numbers) ∨ db.nextFileNumber ≤ number) :
    Manifest config iteration next edits where
  keyEdits := manifest.keyEdits
  numbers file isFile := by
    rcases manifest.numbers file isFile with ⟨below, unopened⟩
    refine ⟨lt_of_lt_of_le below grows, fun work running member => ?_⟩
    rcases opened work running _ member with ⟨before, wasRunning, known⟩ | above
    · exact unopened before wasRunning known
    · exact absurd below (not_lt.mpr above)
  levels := current ▸ manifest.levels
  tracks := current ▸ manifest.tracks

/-- No number is used by a value file, since there are none. -/
theorem not_used (number : Nat) : ¬ Used edits number := by
  rintro ⟨edit, isEdit, ⟨file, isFile, _⟩ | ⟨edge, isEdge, _⟩⟩
  · rw [(manifest.keyEdits edit isEdit).added] at isFile
    cases isFile
  · rw [(manifest.keyEdits edit isEdit).dep] at isEdge
    cases isEdge

/-- One edit.  It adds files under numbers that their levels have not seen. -/
theorem tracks_install {middle : Database} (same : middle.current = db.current)
    (keyEdit : KeyEdit edit)
    (fresh : ∀ level, ∀ new ∈ filesAt level edit.newFiles, ∀ old ∈ addedFiles edits,
      old.1 = level -> old.2.number ≠ new.number)
    (distinct : forall level, ((filesAt level edit.newFiles).map FileMetaData.number).Nodup)
    (present : forall level number, (level, number) ∈ edit.deletedFiles.files ->
      ∃ file ∈ db.current.files level, file.number = number)
    (installed : middle.logAndApply config edit = .ok next) :
    ∃ builder, (edits ++ [edit]).foldlM (Builder.apply config.mod (fun key => key)
        (fun key => key) iteration) (Builder.new .empty) = .ok builder ∧
      Tracks config.mod (fun key => key) (fun key => key) (edits ++ [edit]) next.current
        builder := by
  rcases manifest.tracks with ⟨builder, built, tracks⟩
  rcases Database.logAndApply_eq_ok.mp installed with ⟨range, chains, rfl⟩
  have noValues (level : Nat) : filesAt level edit.newVFiles = [] := by
    rw [keyEdit.added]
    rfl
  have admissible : AdmissibleEdit edits db.current edit := by
    refine ⟨fun level new isNew old isOld => fresh level new isNew (level, old)
      (mem_filesAt.mp isOld) rfl, distinct, present, fun level new isNew => ?_,
      fun level => ?_, fun level number isDeleted => ?_, ?_⟩
    · rw [noValues] at isNew
      cases isNew
    · rw [noValues]
      exact nodup_nil
    · rw [keyEdit.deleted] at isDeleted
      cases isDeleted
    · rw [keyEdit.dep]
      exact ⟨0, Dependency.leadsTo_empty 0, manifest.not_used 0, nofun⟩
  have saved : ((Builder.new db.current).applied (fun key => key) (fun key => key)
      (config.iterations middle.edits).edit edit).saveTo config.mod (fun key => key)
      (fun key => key) (config.iterations middle.edits).base
      (config.iterations middle.edits).current = .ok (middle.edited config edit).current := by
    rw [<- same]
    exact (Builder.saveTo_eq_ok _ _ _).mpr ⟨rfl, chains⟩
  have follows := tracks.step admissible range _ _ _ iteration saved
  rw [keyEdit.reread] at follows
  exact ⟨_, foldlM_concat_eq_ok.mpr ⟨_, built, (Builder.apply_eq_ok _ _ _).mpr ⟨range, rfl⟩⟩,
    follows⟩

/-- The edit of a flush: the number of the new file has never been used. -/
theorem flush (zero : config.mod = 0) {updates : List Update} (inv : Inv config updates db)
    {entries : List Entry} {built : Level0Tables} (full : db.imm = some entries)
    (table : buildTables config db.nextFileNumber
      (entries.insertionSort (fun a b => a.key ≤ b.key)) = .ok built)
    (installed : (db.flushed built).logAndApply config
      (flushEdit config db.nextFileNumber built) = .ok next) :
    Manifest config iteration next (edits ++ [flushEdit config db.nextFileNumber built]) := by
  rcases inv.flush (by rw [zero]; decide) full table with ⟨_, again, _, flushes⟩
  cases installed.symm.trans again
  rcases flushEdit_files config db.nextFileNumber built with ⟨added, deleted⟩
  have values : built.values = none := by
    unfold buildTables at table
    rw [if_neg (by rw [zero]; decide)] at table
    rcases bind_eq_ok.mp table with ⟨rows, _, finish⟩
    cases rows <;> cases finish
    rfl
  have keyEdit : KeyEdit (flushEdit config db.nextFileNumber built) := by
    unfold flushEdit
    rw [values]
    exact ⟨rfl, rfl, rfl⟩
  have isAdded {file : Nat × KeyFile} : file ∈ addedFiles
      (edits ++ [flushEdit config db.nextFileNumber built]) <->
      file ∈ addedFiles edits ∨ file = (0, flushedKeyFile config db.nextFileNumber built) := by
    rw [addedFiles, flatMap_append, flatMap_singleton, added, mem_append, mem_singleton]
    rfl
  have same : next.compacting = db.compacting ∧ next.nextFileNumber = db.nextFileNumber + 1 := by
    rw [(Database.logAndApply_eq_ok.mp installed).2.2]
    exact ⟨rfl, rfl⟩
  refine ⟨forall_mem_concat.mpr ⟨manifest.keyEdits, keyEdit⟩, fun file isFile => ?_,
    fun file isFile level live isLive number => ?_, ?_⟩
  · rw [same.1, same.2]
    rcases isAdded.mp isFile with old | rfl
    · exact ⟨Nat.lt_succ_of_lt (manifest.numbers file old).1, (manifest.numbers file old).2⟩
    · exact ⟨Nat.lt_succ_self _, fun work running member =>
        absurd ((inv.working work running).unused _ member).1 (lt_irrefl _)⟩
  · rcases isAdded.mp isFile with old | rfl
    · rcases (mem_flushed flushes.zero flushes.others).mp isLive with stays | ⟨_, rfl⟩
      · exact manifest.levels file old level live stays number
      · exact absurd (manifest.numbers file old).1 (not_lt.mpr (le_of_eq number))
    · exact Nat.zero_le _
  · refine manifest.tracks_install (rfl : (db.flushed built).current = _) keyEdit
      (fun level new isNew old isOld _ same => ?_)
      (fun level => ?_) (fun level number isDeleted => ?_) installed
    · rw [added, mem_filesAt, mem_singleton] at isNew
      cases isNew
      exact absurd (manifest.numbers old isOld).1 (not_lt.mpr (le_of_eq same.symm))
    · rw [added, filesAt_cons]
      split
      · exact nodup_singleton _
      · exact nodup_nil
    · rw [deleted] at isDeleted
      cases isDeleted

/-- The edit of a compaction.  An output has a new number, or it is an input that moves down. -/
theorem replace {middle : Database} {compaction : Compaction} {outputs : List KeyFile}
    (replacement : Replacement compaction outputs db.current.files db.tables next.current.files
      next.tables)
    (distinct : (outputs.map FileMetaData.number).Nodup)
    (numbers : ∀ output ∈ outputs, output.number < db.nextFileNumber)
    (seen : ∀ output ∈ outputs, ∀ file ∈ addedFiles edits, file.2.number = output.number ->
      file.1 ≤ compaction.level)
    (same : middle.current = db.current) (grows : middle.nextFileNumber = db.nextFileNumber)
    (idle : middle.compacting = none)
    (installed : middle.logAndApply config (compaction.resultEdit outputs) = .ok next) :
    Manifest config iteration next (edits ++ [compaction.resultEdit outputs]) := by
  have isAdded {file : Nat × KeyFile} : file ∈ addedFiles
      (edits ++ [compaction.resultEdit outputs]) <->
      file ∈ addedFiles edits ∨ file.1 = compaction.level + 1 ∧ file.2 ∈ outputs := by
    rw [addedFiles, flatMap_append, flatMap_singleton, mem_append]
    refine or_congr_right ((mem_filesAt.symm :
      _ <-> file.2 ∈ filesAt file.1 (compaction.resultEdit outputs).newFiles).trans ?_)
    rw [compaction.filesAt_resultEdit]
    split
    · next here => simp [here]
    · next other => simp [other]
  have unused : next.compacting = none ∧ next.nextFileNumber = db.nextFileNumber := by
    rw [(Database.logAndApply_eq_ok.mp installed).2.2]
    exact ⟨idle, grows⟩
  refine ⟨forall_mem_concat.mpr ⟨manifest.keyEdits, keyEdit_resultEdit _ _⟩, fun file isFile => ?_,
    fun file isFile level live isLive number => ?_, ?_⟩
  · rw [unused.1, unused.2]
    refine ⟨?_, nofun⟩
    rcases isAdded.mp isFile with old | ⟨_, isOutput⟩
    · exact (manifest.numbers file old).1
    · exact numbers file.2 isOutput
  · rcases isAdded.mp isFile with old | ⟨here, isOutput⟩
    · rcases (replacement.mem level live).mp isLive with ⟨stays, _⟩ | ⟨rfl, isOutput⟩
      · exact manifest.levels file old level live stays number
      · exact Nat.le_succ_of_le (seen live isOutput file old number.symm)
    · rcases (replacement.mem level live).mp isLive with ⟨stays, left⟩ | ⟨rfl, _⟩
      · have input := replacement.results.fresh file.2 isOutput level live stays number.symm
        exact absurd (Or.inl input) left
      · exact le_of_eq here
  · refine manifest.tracks_install same (keyEdit_resultEdit _ _)
      (fun level new isNew old isOld atLevel number => ?_) (fun level => ?_)
      (fun level number isDeleted => ?_) installed
    · rw [compaction.filesAt_resultEdit] at isNew
      split at isNew
      · next here =>
          have above := seen new isNew old isOld number
          omega
      · cases isNew
    · rw [compaction.filesAt_resultEdit]
      split
      · exact distinct
      · exact nodup_nil
    · rcases (compaction.mem_deleted_resultEdit outputs).mp isDeleted with ⟨file, isInput, rfl⟩
      exact ⟨file, replacement.fits.inputs level file isInput, rfl⟩

variable {updates : List Update} (inv : Inv config updates db)
include inv

theorem move {compaction : Compaction} (idle : db.compacting = none)
    (complete : compaction.Complete db.current.files)
    (single : compaction.isTrivialMove config.options)
    (installed : (db.picked compaction).logAndApply config
      (compaction.resultEdit compaction.inputs0) = .ok next) :
    Manifest config iteration next (edits ++ [compaction.resultEdit compaction.inputs0]) := by
  rcases inv.move idle complete single with ⟨_, again, _, compacts⟩
  cases installed.symm.trans again
  have isLive {file : KeyFile} (isInput : file ∈ compaction.inputs0) :
      file ∈ db.current.files compaction.level :=
    compacts.replacement.fits.inputs _ file (Or.inl ⟨rfl, isInput⟩)
  rcases length_eq_one_iff.mp single.1 with ⟨file, only⟩
  refine manifest.replace compacts.replacement ?_ (fun output isOutput =>
    inv.numbers _ output (isLive isOutput)) (fun output isOutput old isOld same =>
      manifest.levels old isOld _ output (isLive isOutput) same.symm)
    (rfl : (db.picked compaction).current = _) rfl idle installed
  rw [only]
  exact nodup_singleton _

theorem finish {work : Compacting} (running : db.compacting = some work)
    (finished : work.remaining = [])
    (installed : Database.logAndApply config
      { db with tables := writeTables db.tables work.written, compacting := none }
      (work.compaction.resultEdit (work.written.map (outputFile config.sizes))) = .ok next) :
    Manifest config iteration next (edits ++
      [work.compaction.resultEdit (work.written.map (outputFile config.sizes))]) := by
  rcases inv.finish running finished with ⟨_, again, _, compacts⟩
  cases installed.symm.trans again
  have working := inv.working work running
  have numbers : (work.written.map (outputFile config.sizes)).map FileMetaData.number =
      work.numbers := by
    rw [map_map, <- working.map_fst_written]
    exact map_congr_left (fun table _ => outputFile_number config.sizes table)
  have isOpened {output : KeyFile} (isOutput : output ∈ work.written.map
      (outputFile config.sizes)) : output.number ∈ work.numbers :=
    numbers ▸ mem_map_of_mem isOutput
  refine manifest.replace compacts.replacement (numbers ▸ working.distinct)
    (fun output isOutput => (working.unused _ (isOpened isOutput)).1)
    (fun output isOutput old isOld same => ?_)
    (rfl : ({ db with tables := writeTables db.tables work.written, compacting := none } :
      Database).current = _) rfl rfl installed
  exact absurd (same ▸ isOpened isOutput) ((manifest.numbers old isOld).2 work running)

/-- Every action of a run keeps the manifest in step with the current version. -/
theorem step (zero : config.mod = 0) {action : Action} {prepared : Prepared}
    (does : Prepares config db action prepared)
    (installed : prepared.install config = .ok next) :
    Manifest config iteration next (edits ++ prepared.edit.toList) := by
  cases does with
  | flush full table => exact manifest.flush zero inv full table installed
  | move idle picked single =>
    exact manifest.move inv idle (pickCompaction_complete _ inv.layered.orderedLevels picked)
      single installed
  | finish running finished => exact manifest.finish inv running finished installed
  | vmerge ten => exact nomatch ten.symm.trans zero
  | write | getSnapshot | releaseSnapshot | unchanged =>
    cases installed
    rw [Option.toList_none, append_nil]
    exact manifest.still rfl (le_refl _)
      (fun work running number member => Or.inl ⟨work, running, member⟩)
  | switch =>
    cases installed
    rw [Option.toList_none, append_nil]
    exact manifest.still rfl (Nat.le_succ _)
      (fun work running number member => Or.inl ⟨work, running, member⟩)
  | start =>
    cases installed
    rw [Option.toList_none, append_nil]
    refine manifest.still rfl (le_refl _) (fun work running number member => ?_)
    cases running
    cases member
  | entry running =>
    cases installed
    rw [Option.toList_none, append_nil]
    refine manifest.still rfl (Nat.le_add_right _ _) (fun work isWork number member => ?_)
    cases isWork
    rcases mem_append.mp member with old | new
    · exact Or.inl ⟨_, running, old⟩
    · exact Or.inr (mem_range'_1.mp new).1

omit inv in
/-- What `Recover` makes of the manifest has the files of the current version. -/
theorem recoverVersion_eq (iterations : Iterations) (same : iterations.edit = iteration) :
    ∃ version, recoverVersion config.mod iterations edits = .ok version ∧
      version.files = db.current.files := by
  rcases manifest.tracks with ⟨builder, built, tracks⟩
  rcases tracks.saveTo iterations.base iterations.current with ⟨version, saved, equal⟩
  refine ⟨version, bind_eq_ok.mpr ⟨builder, same ▸ built, saved⟩, ?_⟩
  exact funext equal.files

end Manifest

end

end Db
end Doux
