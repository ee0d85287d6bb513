import Doux.Db.FileName
import Doux.Db.Replay

namespace Doux
namespace Db

open Foundation Util List

/-!
# Obsolete files

`DeleteObsoleteFiles` lists the directory and deletes what nobody needs.  Needed are
the tables of all versions that are still referenced, the tables that are being
written, the logs from the current one on, and the manifest.

The state here is the version set together with the list of older versions, the two
sets of pending outputs, and the contents of `CURRENT`.  Readers hold references to
versions, and an older version leaves the list with its last reference.
-/

/-- What decides which files are needed.  Every older version comes with the number of
its references; `refs` counts those of the current version besides the version set's
own. -/
structure FileState where
  vset : VersionSet
  refs : Nat
  older : List (Version Bytes Bytes × Nat)
  pendingOutputs : Finset Nat
  pendingVOutputs : Finset Nat
  current : FileName
  bgError : Bool

/-- What happens to the files of a database. -/
inductive FileEvent where
  | refCurrent
  | unrefCurrent
  | unrefOlder (index : Nat)
  /-- A new log takes a number. -/
  | newFileNumber
  | setLastSequence (sequence : Nat)
  /-- `WriteLevel0Table` takes one number for two tables. -/
  | beginFlush
  | finishFlush (number : Nat)
  | openOutput
  | openVOutput
  /-- `CleanupCompaction` and `CleanupVCompaction`. -/
  | cleanup (outputs voutputs : Finset Nat)
  | logAndApply (iterations : Iterations) (edit : ManifestEdit)
  | recordBackgroundError

variable {L M : Type} [LinearOrder L] [LinearOrder M] (mod : Nat) (rank : Bytes -> L)
  (vrank : Bytes -> M) (value : Bytes -> BitVec 32) (name : Bytes)

namespace FileState

def versions (state : FileState) : List (Version Bytes Bytes) :=
  state.older.map Prod.fst ++ [state.vset.current]

/-- The numbers of the files at the first levels. -/
def addLive (count : Nat) (levels : List (Nat -> List (FileMetaData Bytes)))
    (live : Finset Nat) : Finset Nat :=
  live ∪ (levels.flatMap (fun files =>
    (List.range count).flatMap (fun level => (files level).map FileMetaData.number))).toFinset

def addLiveFiles (state : FileState) (live : Finset Nat) : Finset Nat :=
  addLive kNumLevels (state.versions.map Version.files) live

/-- `AddLiveVFiles`, which looks at two levels only with `MOD` 10. -/
def addLiveVFiles (mod : Nat) (state : FileState) (vlive : Finset Nat) : Finset Nat :=
  addLive (if mod = 10 then 2 else kNumLevels) (state.versions.map Version.vfiles) vlive

/-- Whether `DeleteObsoleteFiles` keeps a file with this number and type. -/
def keeps (mod : Nat) (state : FileState) (number : Nat) : FileType -> Bool
  | .logFile =>
    decide (number ≥ state.vset.logNumber) || decide (number = state.vset.prevLogNumber)
  | .descriptorFile => decide (number ≥ state.vset.manifestFileNumber)
  | .tableFile => decide (number ∈ state.addLiveFiles state.pendingOutputs)
  | .vtableFile => decide (number ∈ state.addLiveVFiles mod state.pendingVOutputs)
  | .tempFile => decide (number ∈ state.addLiveFiles state.pendingOutputs) ||
      decide (number ∈ state.addLiveVFiles mod state.pendingVOutputs)
  | .currentFile => true
  | .dbLockFile => true
  | .infoLogFile => true

/-- The names that `DeleteObsoleteFiles` deletes from a directory. -/
def deleteObsoleteFiles (mod : Nat) (state : FileState) (filenames : List FileName) :
    List FileName :=
  if state.bgError then []
  else filenames.filter (fun name =>
    (parseFileName name).any (fun parsed => !state.keeps mod parsed.1 parsed.2))

def withNextNumber (state : FileState) : FileState :=
  { state with vset := { state.vset with nextFileNumber := state.vset.nextFileNumber + 1 } }

/-- `LogAndApply`.  The old version stays in the list while it has readers, and a new
manifest becomes the current one. -/
def logAndApply (iterations : Iterations) (edit : ManifestEdit) (state : FileState) :
    Except String FileState := do
  let vset <- state.vset.logAndApply mod rank vrank value name iterations edit
  return { state with
    vset
    refs := 0
    older := if state.refs = 0 then state.older
      else state.older ++ [(state.vset.current, state.refs)]
    current := if state.vset.descriptorLog.isNone then
        descriptorFileName state.vset.manifestFileNumber
      else state.current }

/-- Give up one reference to an older version. -/
def unrefOlder (index : Nat) (state : FileState) : Except String FileState :=
  match state.older[index]? with
  | none => .error "refs_ >= 1"
  | some (version, refs) =>
    if refs ≤ 1 then .ok { state with older := state.older.eraseIdx index }
    else .ok { state with older := state.older.set index (version, refs - 1) }

def step (state : FileState) : FileEvent -> Except String FileState
  | .refCurrent => .ok { state with refs := state.refs + 1 }
  | .unrefCurrent => do
    assertThat (state.refs ≥ 1) "refs_ >= 1"
    return { state with refs := state.refs - 1 }
  | .unrefOlder index => state.unrefOlder index
  | .newFileNumber => .ok state.withNextNumber
  | .setLastSequence sequence =>
    .ok { state with vset := { state.vset with lastSequence := sequence } }
  | .beginFlush => .ok { state.withNextNumber with
      pendingOutputs := insert state.vset.nextFileNumber state.pendingOutputs
      pendingVOutputs := insert state.vset.nextFileNumber state.pendingVOutputs }
  | .finishFlush number => .ok { state with
      pendingOutputs := state.pendingOutputs.erase number
      pendingVOutputs := state.pendingVOutputs.erase number }
  | .openOutput => .ok { state.withNextNumber with
      pendingOutputs := insert state.vset.nextFileNumber state.pendingOutputs }
  | .openVOutput => .ok { state.withNextNumber with
      pendingVOutputs := insert state.vset.nextFileNumber state.pendingVOutputs }
  | .cleanup outputs voutputs => .ok { state with
      pendingOutputs := state.pendingOutputs \ outputs
      pendingVOutputs := state.pendingVOutputs \ voutputs }
  | .logAndApply iterations edit =>
    state.logAndApply mod rank vrank value name iterations edit
  | .recordBackgroundError => .ok { state with bgError := true }

end FileState

/-- What `DB::Open` meets: the manifest and its name in `CURRENT`, the options, and the
outcome of replaying the logs. -/
structure Opening where
  manifest : Bytes
  current : FileName
  recordIterations : Nat -> Iteration
  iterations : Iterations
  reuseLogs : Bool
  targetFileSize : Nat
  saveManifest : Bool
  install : Install

namespace Opening

def reuseManifest (opening : Opening) (vset : VersionSet) : VersionSet :=
  match parseFileName opening.current with
  | some (number, .descriptorFile) =>
    if opening.reuseLogs ∧ opening.manifest.length < opening.targetFileSize then
      { vset with
        descriptorLog :=
          some ⟨opening.manifest, opening.manifest.length % Log.kBlockSize⟩
        manifestFileNumber := number }
    else vset
  | _ => vset

/-- The state once the manifest has been read and the logs have been replayed. -/
def recovered (opening : Opening) (vset : VersionSet) : FileState :=
  ⟨(opening.reuseManifest vset).atCall opening.install, 0, [], ∅, ∅, opening.current, false⟩

/-- `DB::Open`, up to its call of `DeleteObsoleteFiles`. -/
def openDatabase (opening : Opening) : Except String FileState :=
  match VersionSet.new.recover mod rank vrank value name opening.recordIterations
    opening.iterations opening.manifest with
  | some (.ok vset) =>
    if opening.saveManifest ∨ (opening.reuseManifest vset).descriptorLog.isNone then
      (opening.recovered vset).logAndApply mod rank vrank value name
        opening.install.iterations opening.install.edit
    else .ok (opening.recovered vset)
  | _ => .error "Recover"

/-- Open a database and let something happen to its files. -/
def run (opening : Opening) (events : List FileEvent) : Except String FileState := do
  let state <- opening.openDatabase mod rank vrank value name
  events.foldlM (FileState.step mod rank vrank value name) state

end Opening

/-- A version has files only at the levels that `AddLiveFiles` and `AddLiveVFiles` look
at. -/
structure Version.Bounded {K V : Type} (mod : Nat) (version : Version K V) : Prop where
  files : forall level, kNumLevels ≤ level -> version.files level = []
  vfiles : forall level, numVLevels mod ≤ level -> version.vfiles level = []

/-- `SaveTo` writes no other levels. -/
theorem bounded_of_saveTo {K V L M : Type} [LinearOrder L] [LinearOrder M] {mod : Nat}
    {rank : K -> L} {vrank : V -> M} {base current : Iteration} {builder : Builder K V}
    {version : Version K V} (saved : builder.saveTo mod rank vrank base current = .ok version) :
    version.Bounded mod := by
  rcases (Builder.saveTo_eq_ok mod rank vrank).mp saved with ⟨rfl, _⟩
  refine ⟨fun level outside => ?_, fun level outside => ?_⟩
  · exact if_neg (not_lt.mpr outside)
  · exact if_neg (fun inside => not_lt.mpr outside inside.2)

/-- If a name is that of a manifest, it is not older than the given one. -/
def NotOlder (number : Nat) (name : FileName) : Prop :=
  forall parsed type, parseFileName name = some (parsed, type) ->
    type = .descriptorFile ∧ number ≤ parsed

theorem notOlder_descriptorFileName (number : Nat) :
    NotOlder number (descriptorFileName number) := by
  intro _ _ read
  rcases parseFileName_eq_some.2.2.2.2 read with ⟨rfl, isType⟩
  exact ⟨isType, le_refl _⟩

variable {mod rank vrank value name}

namespace FileState

/-- What holds of the files of an open database. -/
structure Sound (mod : Nat) (state : FileState) : Prop where
  bounded : ∀ version ∈ state.versions, version.Bounded mod
  opened : state.vset.descriptorLog.isSome = true
  manifest : NotOlder state.vset.manifestFileNumber state.current

variable {state next : FileState}

theorem sound_logAndApply (bounded : ∀ version ∈ state.versions, version.Bounded mod)
    (manifest : state.vset.descriptorLog.isNone = false ->
      NotOlder state.vset.manifestFileNumber state.current)
    {iterations : Iterations} {edit : ManifestEdit}
    (run : state.logAndApply mod rank vrank value name iterations edit = .ok next) :
    next.Sound mod := by
  rcases bind_eq_ok.mp run with ⟨_, applied, returned⟩
  cases returned
  rcases VersionSet.logAndApply_eq_ok mod rank vrank value name applied with
    ⟨version, _, _, _, _, saved, _, _, _, rfl⟩
  refine ⟨?_, rfl, ?_⟩
  · intro other member
    rcases mem_concat.mp member with inOlder | rfl
    · by_cases unread : state.refs = 0
      · rw [if_pos unread] at inOlder
        exact bounded other (mem_append_left _ inOlder)
      · rw [if_neg unread, map_append] at inOlder
        exact bounded other inOlder
    · exact bounded_of_saveTo saved
  · by_cases isFirst : state.vset.descriptorLog.isNone = true
    · rw [if_pos isFirst]
      exact notOlder_descriptorFileName _
    · rw [if_neg isFirst]
      exact manifest (Bool.eq_false_iff.mpr isFirst)

theorem sound_unrefOlder {index : Nat} (sound : state.Sound mod)
    (run : state.unrefOlder index = .ok next) : next.Sound mod := by
  unfold unrefOlder at run
  cases found : state.older[index]? with
  | none =>
    rw [found] at run
    cases run
  | some entry =>
    rw [found] at run
    have member : entry ∈ state.older := mem_of_getElem? found
    dsimp only at run
    split at run
    · cases run
      refine ⟨fun version isVersion => sound.bounded version ?_, sound.opened, sound.manifest⟩
      rcases mem_append.mp isVersion with inOlder | isCurrent
      · exact mem_append_left _ (map_subset _ (eraseIdx_subset) inOlder)
      · exact mem_append_right _ isCurrent
    · cases run
      refine ⟨fun version isVersion => sound.bounded version ?_, sound.opened, sound.manifest⟩
      rcases mem_append.mp isVersion with inOlder | isCurrent
      · refine mem_append_left _ ?_
        rcases mem_map.mp inOlder with ⟨_, inSet, rfl⟩
        rcases mem_or_eq_of_mem_set inSet with old | rfl
        · exact mem_map_of_mem old
        · exact mem_map.mpr ⟨entry, member, rfl⟩
      · exact mem_append_right _ isCurrent

theorem sound_step {event : FileEvent} (sound : state.Sound mod)
    (run : state.step mod rank vrank value name event = .ok next) : next.Sound mod := by
  cases event with
  | logAndApply iterations edit =>
    exact sound_logAndApply sound.bounded (fun _ => sound.manifest) run
  | unrefOlder index => exact sound_unrefOlder sound run
  | unrefCurrent =>
    rcases assertThat_bind_eq_ok.mp run with ⟨_, returned⟩
    cases returned
    exact { sound with }
  | _ =>
    cases run
    exact { sound with }

end FileState

namespace Opening

variable {opening : Opening}

/-- Recovery builds its version with `SaveTo` and leaves the manifest closed. -/
theorem recover_eq_ok {recordIterations : Nat -> Iteration} {iterations : Iterations}
    {manifest : Bytes} {vset : VersionSet}
    (recovered : VersionSet.new.recover mod rank vrank value name recordIterations iterations
      manifest = some (.ok vset)) : vset.current.Bounded mod ∧ vset.descriptorLog = none := by
  rcases Option.map_eq_some_iff.mp recovered with ⟨outcome, visited, finished⟩
  cases outcome with
  | error failure => cases finished
  | ok state =>
    have closed : state.vset.descriptorLog = none := by
      refine Log.visitLog_preserves value _ _
        (fun state => state.vset.descriptorLog = none) ?_ rfl visited
      intro _ _ _ stillClosed read
      rcases bind_eq_ok.mp read with ⟨_, _, read⟩
      rcases bind_eq_ok.mp read with ⟨_, _, read⟩
      rcases bind_eq_ok.mp read with ⟨_, applied, read⟩
      rcases bind_eq_ok.mp read with ⟨_, _, returned⟩
      cases returned
      rw [((VersionSet.applyPointers_eq_ok mod).mp (eq_ok_of_orAbort applied)).2]
      exact stillClosed
    change VersionSet.finishRecover mod rank vrank iterations state = .ok vset at finished
    unfold VersionSet.finishRecover at finished
    split at finished
    · cases finished
    · cases finished
    · cases finished
    · rcases bind_eq_ok.mp finished with ⟨_, saved, returned⟩
      cases returned
      refine ⟨bounded_of_saveTo (eq_ok_of_orAbort saved), ?_⟩
      simp only [VersionSet.markFileNumberUsed]
      repeat' split
      all_goals exact closed

variable (opening) in
theorem notOlder_reuseManifest {vset : VersionSet} (closed : vset.descriptorLog = none)
    (reused : (opening.reuseManifest vset).descriptorLog.isNone = false) :
    NotOlder (opening.reuseManifest vset).manifestFileNumber opening.current := by
  intro _ type read
  unfold reuseManifest at reused ⊢
  rw [read] at reused ⊢
  cases type with
  | descriptorFile =>
    dsimp only at reused ⊢
    by_cases reuses : opening.reuseLogs ∧ opening.manifest.length < opening.targetFileSize
    · rw [if_pos reuses]
      exact ⟨rfl, le_refl _⟩
    · rw [if_neg reuses, closed] at reused
      cases reused
  | _ =>
    rw [closed] at reused
    cases reused

theorem sound_openDatabase {state : FileState}
    (opened : opening.openDatabase mod rank vrank value name = .ok state) : state.Sound mod := by
  unfold openDatabase at opened
  split at opened
  · rename_i vset recovered
    rcases recover_eq_ok recovered with ⟨bounded, closed⟩
    have current : (opening.reuseManifest vset).current = vset.current := by
      unfold reuseManifest
      repeat' split
      all_goals rfl
    have all : ∀ version ∈ (opening.recovered vset).versions, version.Bounded mod := by
      exact forall_mem_singleton.mpr (current ▸ bounded)
    split at opened
    · exact FileState.sound_logAndApply all (notOlder_reuseManifest opening closed) opened
    · rename_i goesOn
      cases opened
      have isOpen : (opening.reuseManifest vset).descriptorLog.isNone = false :=
        Bool.eq_false_iff.mpr (fun isNone => goesOn (Or.inr isNone))
      exact ⟨all, Option.isNone_eq_false_iff.mp isOpen,
        notOlder_reuseManifest opening closed isOpen⟩
  · cases opened

theorem sound_run {events : List FileEvent} {state : FileState}
    (reached : opening.run mod rank vrank value name events = .ok state) : state.Sound mod := by
  rcases bind_eq_ok.mp reached with ⟨_, opened, run⟩
  exact foldlM_preserves (FileState.Sound mod) (fun _ _ _ _ sound step =>
    FileState.sound_step sound step) (sound_openDatabase opened) run

end Opening

/-! ## Nothing needed is deleted -/

/-- No version and no running job needs the file, and it is neither the manifest nor a
log from the current one on. -/
structure FileState.Expendable (state : FileState) (name : FileName) : Prop where
  files : ∀ version ∈ state.versions, forall level, ∀ file ∈ version.files level,
    name ≠ tableFileName file.number ∧ name ≠ sstTableFileName file.number
  vfiles : ∀ version ∈ state.versions, forall level, ∀ file ∈ version.vfiles level,
    name ≠ vtableFileName file.number
  outputs : ∀ number ∈ state.pendingOutputs,
    name ≠ tableFileName number ∧ name ≠ sstTableFileName number
  voutputs : ∀ number ∈ state.pendingVOutputs, name ≠ vtableFileName number
  logs : forall number, state.vset.logNumber ≤ number -> name ≠ logFileName number
  manifest : name ≠ state.current

namespace FileState

theorem mem_addLive {count number : Nat} {levels : List (Nat -> List (FileMetaData Bytes))}
    {live : Finset Nat} : number ∈ addLive count levels live <->
      number ∈ live ∨ ∃ files ∈ levels, ∃ level < count, ∃ file ∈ files level,
        file.number = number := by
  simp [addLive]

variable {state : FileState}

section
variable {version : Version Bytes Bytes} (sound : state.Sound mod)
  (listed : version ∈ state.versions)
include sound listed

variable {level : Nat} {file : FileMetaData Bytes}

theorem Sound.mem_addLiveFiles (member : file ∈ version.files level) (live : Finset Nat) :
    file.number ∈ state.addLiveFiles live := by
  refine mem_addLive.mpr (Or.inr ⟨version.files, mem_map_of_mem listed, level, ?_, file,
    member, rfl⟩)
  by_contra outside
  rw [(sound.bounded version listed).files level (Nat.le_of_not_lt outside)] at member
  cases member

theorem Sound.mem_addLiveVFiles (member : file ∈ version.vfiles level) (vlive : Finset Nat) :
    file.number ∈ state.addLiveVFiles mod vlive := by
  refine mem_addLive.mpr (Or.inr ⟨version.vfiles, mem_map_of_mem listed, level, ?_, file,
    member, rfl⟩)
  by_contra outside
  rw [(sound.bounded version listed).vfiles level (Nat.le_of_not_lt outside)] at member
  cases member

end

variable {filenames : List FileName} {name : FileName}

theorem parsed_of_deleted (deleted : name ∈ state.deleteObsoleteFiles mod filenames) :
    ∃ number type, parseFileName name = some (number, type) ∧
      state.keeps mod number type = false := by
  unfold deleteObsoleteFiles at deleted
  split at deleted
  · cases deleted
  · rcases Option.any_eq_true_iff_get _ _ |>.mp (mem_filter.mp deleted).2 with ⟨isSome, drops⟩
    rcases Option.isSome_iff_exists.mp isSome with ⟨⟨number, type⟩, parsed⟩
    refine ⟨number, type, parsed, ?_⟩
    simp only [parsed, Bool.not_eq_true'] at drops
    exact drops

theorem Sound.expendable (sound : state.Sound mod)
    (deleted : name ∈ state.deleteObsoleteFiles mod filenames) : state.Expendable name := by
  rcases parsed_of_deleted deleted with ⟨number, type, parsed, drops⟩
  have notTable {kept : Nat} (live : kept ∈ state.addLiveFiles state.pendingOutputs) :
      name ≠ tableFileName kept ∧ name ≠ sstTableFileName kept := by
    constructor
    · rintro rfl
      rcases parseFileName_eq_some.1 parsed with ⟨rfl, rfl⟩
      exact of_decide_eq_false drops live
    · rintro rfl
      rcases parseFileName_eq_some.2.1 parsed with ⟨rfl, rfl⟩
      exact of_decide_eq_false drops live
  have notVTable {kept : Nat} (live : kept ∈ state.addLiveVFiles mod state.pendingVOutputs) :
      name ≠ vtableFileName kept := by
    rintro rfl
    rcases parseFileName_eq_some.2.2.1 parsed with ⟨rfl, rfl⟩
    exact of_decide_eq_false drops live
  refine ⟨?_, ?_, ?_, ?_, ?_, ?_⟩
  · exact fun version listed level file member => notTable (sound.mem_addLiveFiles listed member _)
  · exact fun version listed level file member => notVTable
      (sound.mem_addLiveVFiles listed member _)
  · exact fun kept pending => notTable (mem_addLive.mpr (Or.inl pending))
  · exact fun kept pending => notVTable (mem_addLive.mpr (Or.inl pending))
  · rintro _ current rfl
    rcases parseFileName_eq_some.2.2.2.1 parsed with ⟨rfl, rfl⟩
    exact of_decide_eq_false (Bool.or_eq_false_iff.mp drops).1 current
  · rintro rfl
    rcases sound.manifest number type parsed with ⟨rfl, notOlder⟩
    exact of_decide_eq_false drops notOlder

end FileState

/-- In every state that a database reaches after it was opened, and for every directory,
`DeleteObsoleteFiles` deletes only files that nobody needs. -/
theorem deleteObsoleteFiles_expendable {opening : Opening} {events : List FileEvent}
    {state : FileState} (reached : opening.run mod rank vrank value name events = .ok state)
    (filenames : List FileName) :
    ∀ name ∈ state.deleteObsoleteFiles mod filenames, state.Expendable name :=
  fun _ deleted => (Opening.sound_run reached).expendable deleted

/-- A new database: its manifest has one record. -/
def newDatabase : Opening where
  manifest := (Log.addRecord (fun _ => 0) ⟨[], 0⟩
    ((VersionEdit.encodeFields { (VersionEdit.empty : ManifestEdit) with
      comparator := some [97]
      logNumber := some 0
      nextFileNumber := some 2
      lastSequence := some 0 } []))).toOption.elim [] Log.Writer.dest
  current := descriptorFileName 1
  recordIterations _ := .stored
  iterations := ⟨.stored, .stored, .stored⟩
  reuseLogs := false
  targetFileSize := 2 * 1024 * 1024
  saveManifest := true
  install := ⟨4, 0, { (VersionEdit.empty : ManifestEdit) with logNumber := some 3 },
    ⟨.stored, .stored, .stored⟩⟩

/-- A flush whose two tables have the number 4; the value table is then rewritten while a
reader holds on to the old version. -/
def flushAndRewrite : List FileEvent :=
  [.beginFlush, .finishFlush 4, .logAndApply ⟨.stored, .stored, .stored⟩
      ((VersionEdit.empty.addFile 0 ⟨4, 1, [1], [2]⟩).addVFile 0 ⟨4, 1, [1], [2]⟩),
    .refCurrent, .openVOutput,
    .logAndApply ⟨.stored, .stored, .stored⟩
      (((VersionEdit.empty.deleteVFile 0 4).addVFile 0 ⟨5, 1, [1], [2]⟩).addDependency 5 4)]

theorem deleteObsoleteFiles_flushAndRewrite :
    ∃ state, newDatabase.run 10 VersionSet.firstByte VersionSet.firstByte (fun _ => 0) [97]
        flushAndRewrite = .ok state ∧ ∀ name ∈ state.deleteObsoleteFiles 10
        [tableFileName 4, vtableFileName 4, vtableFileName 5, vtableFileName 6],
        state.Expendable name := by
  rcases exists_ok_of_isSome (show (newDatabase.run 10 VersionSet.firstByte
      VersionSet.firstByte (fun _ => 0) [97] flushAndRewrite).toOption.isSome = true by
    decide +kernel) with ⟨state, reached⟩
  exact ⟨state, reached, deleteObsoleteFiles_expendable reached _⟩

end Db
end Doux
