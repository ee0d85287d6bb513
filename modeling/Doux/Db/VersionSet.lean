import Doux.Log.RoundTrip
import Doux.Db.VersionBuilder

namespace Doux
namespace Db

open Foundation Util List

/-!
# The version set and its manifest

`LogAndApply` installs an edit: it builds the next version from the current one
and appends the edit to the manifest.  The first call after opening the database
starts a new manifest with a snapshot of the current version.  `Recover` reads a
manifest and applies all its edits in one builder.

File operations are assumed to succeed, so the manifest is the file that the
descriptor log has written.  The learned index, the block-level dependency graph
and the compaction scores are no part of the manifest and are left out.
-/

/-- Why an operation of the version set does not return normally: a failed
assertion, or a status other than ok. -/
inductive Failure where
  | assertion (text : String)
  | corruption (message detail : String)
  | invalidArgument (comparator expected : Bytes)
deriving DecidableEq

/-- A failed assertion inside an operation that returns a status. -/
def orAbort {α : Type} (computation : Except String α) : Except Failure α :=
  computation.mapError Failure.assertion

theorem eq_ok_of_orAbort {α : Type} {computation : Except String α} {result : α}
    (run : orAbort computation = .ok result) : computation = .ok result := by
  cases computation with
  | error text => cases run
  | ok value =>
    cases run
    rfl

structure VersionSet where
  current : Version Bytes Bytes
  compactPointer : Nat -> Bytes
  compactVPointers : Nat -> Bytes
  nextFileNumber : Nat
  manifestFileNumber : Nat
  lastSequence : Nat
  logNumber : Nat
  prevLogNumber : Nat
  descriptorLog : Option Log.Writer

/-- The constructor of `VersionSet`. -/
def VersionSet.new : VersionSet where
  current := .empty
  compactPointer := fun _ => []
  compactVPointers := fun _ => []
  nextFileNumber := 2
  manifestFileNumber := 0
  lastSequence := 0
  logNumber := 0
  prevLogNumber := 0
  descriptorLog := none

/-- The iteration orders that one call of `LogAndApply` meets. -/
structure Iterations where
  edit : Iteration
  base : Iteration
  current : Iteration

section
variable {L M : Type} [LinearOrder L] [LinearOrder M] (mod : Nat) (rank : Bytes -> L)
  (vrank : Bytes -> M) (value : Bytes -> BitVec 32) (name : Bytes)

namespace VersionSet

/-- Assign pointers to levels, first to last. -/
def assignPointers (pointers : Nat -> Bytes) (list : List (Nat × Bytes)) : Nat -> Bytes :=
  list.foldl (fun pointers pointer => Function.update pointers pointer.1 pointer.2) pointers

/-- The levels that `Builder::Apply` uses for the value pointers of an edit.  The
loop of the source takes the level of a value pointer from the key pointer with
the same index. -/
def vpointerLevels (edit : ManifestEdit) : List Nat :=
  (edit.compactPointers.map Prod.fst).take edit.compactVPointers.length

/-- The version set with the compaction pointers of an edit. -/
def appliedPointers (vset : VersionSet) (edit : ManifestEdit) : VersionSet :=
  { vset with
    compactPointer := assignPointers vset.compactPointer edit.compactPointers
    compactVPointers := assignPointers vset.compactVPointers
      ((vpointerLevels edit).zip (edit.compactVPointers.map Prod.snd)) }

/-- The compaction pointers in `Builder::Apply`. -/
def applyPointers (vset : VersionSet) (edit : ManifestEdit) : Except String VersionSet := do
  assertThat (∀ pointer ∈ edit.compactPointers, pointer.1 < kNumLevels) "compact_pointer_[level]"
  assertThat (edit.compactVPointers.length ≤ edit.compactPointers.length)
    "edit->compact_pointers_[i]"
  assertThat (∀ level ∈ vpointerLevels edit, level < numVLevels mod) "compact_vpointers_[level]"
  assertThat ((∀ pointer ∈ edit.compactPointers, pointer.2 ≠ []) ∧
    (∀ pointer ∈ edit.compactVPointers, pointer.2 ≠ []))
    "InternalKey::Encode() called with empty rep_!"
  return vset.appliedPointers edit

/-- The pointers that are set, level by level. -/
def setPointers (count : Nat) (pointers : Nat -> Bytes) : List (Nat × Bytes) :=
  (List.range count).flatMap
    (fun level => if pointers level ≠ [] then [(level, pointers level)] else [])

/-- The files of all levels. -/
def allFiles (count : Nat) (files : Nat -> List (FileMetaData Bytes)) :
    List (Nat × FileMetaData Bytes) :=
  (List.range count).flatMap (fun level => (files level).map (fun file => (level, file)))

/-- The edit that `WriteSnapshot` writes. -/
def snapshotEdit (vset : VersionSet) : ManifestEdit :=
  { (VersionEdit.empty : ManifestEdit) with
    comparator := some name
    compactPointers := setPointers kNumLevels vset.compactPointer
    compactVPointers := setPointers (numVLevels mod) vset.compactVPointers
    newFiles := allFiles kNumLevels vset.current.files
    newVFiles := allFiles (numVLevels mod) vset.current.vfiles }

/-- `VersionSet::WriteSnapshot`. -/
def writeSnapshot (vset : VersionSet) (log : Log.Writer) : Except String Log.Writer := do
  let record <- (vset.snapshotEdit mod name).encodeTo []
  Log.addRecord value log record

/-- The log to which `LogAndApply` appends the edit: the open one, or a new one
that starts with a snapshot. -/
def openLog (vset : VersionSet) : Except String Log.Writer :=
  match vset.descriptorLog with
  | some log => .ok log
  | none => vset.writeSnapshot mod value name ⟨[], 0⟩

/-- The edit with the numbers that `LogAndApply` writes into it. -/
def preparedEdit (vset : VersionSet) (edit : ManifestEdit) : ManifestEdit :=
  { edit with
    logNumber := some (edit.logNumber.getD vset.logNumber)
    prevLogNumber := some (edit.prevLogNumber.getD vset.prevLogNumber)
    nextFileNumber := some vset.nextFileNumber
    lastSequence := some vset.lastSequence }

/-- The start of `LogAndApply`. -/
def prepareEdit (vset : VersionSet) (edit : ManifestEdit) : Except String ManifestEdit := do
  assertThat (∀ number ∈ edit.logNumber, number ≥ vset.logNumber) "edit->log_number_ >= log_number_"
  assertThat (∀ number ∈ edit.logNumber, number < vset.nextFileNumber)
    "edit->log_number_ < next_file_number_"
  return vset.preparedEdit edit

/-- `VersionSet::LogAndApply`. -/
def logAndApply (iterations : Iterations) (vset : VersionSet) (edit : ManifestEdit) :
    Except String VersionSet := do
  let edit <- vset.prepareEdit edit
  let vset <- vset.applyPointers mod edit
  let builder <- (Builder.new vset.current).apply mod rank vrank iterations.edit edit
  let version <- builder.saveTo mod rank vrank iterations.base iterations.current
  let log <- vset.openLog mod value name
  let record <- edit.encodeTo (iterations.edit.order edit.dep.edges)
  let log <- Log.addRecord value log record
  return { vset with
    current := version
    logNumber := edit.logNumber.getD 0
    prevLogNumber := edit.prevLogNumber.getD 0
    descriptorLog := some log }

/-- The variables of `Recover` while it reads the manifest; `replayed` counts
the records. -/
structure RecoverState where
  vset : VersionSet
  builder : Builder Bytes Bytes
  replayed : Nat
  logNumber : Option Nat
  prevLogNumber : Option Nat
  nextFile : Option Nat
  lastSequence : Option Nat

/-- A manifest of another comparator is refused. -/
def checkComparator (edit : ManifestEdit) : Except Failure Unit :=
  match edit.comparator with
  | some comparator =>
    if comparator ≠ name then .error (.invalidArgument comparator name) else .ok ()
  | none => .ok ()

/-- One record of the manifest. -/
def recoverRecord (iterations : Nat -> Iteration) (state : RecoverState) (record : Bytes) :
    Except Failure RecoverState := do
  let edit <- (VersionEdit.decodeFrom record).mapError (Failure.corruption "VersionEdit")
  checkComparator name edit
  let vset <- orAbort (state.vset.applyPointers mod edit)
  let builder <- orAbort (state.builder.apply mod rank vrank (iterations state.replayed) edit)
  return {
    vset
    builder
    replayed := state.replayed + 1
    logNumber := edit.logNumber.or state.logNumber
    prevLogNumber := edit.prevLogNumber.or state.prevLogNumber
    nextFile := edit.nextFileNumber.or state.nextFile
    lastSequence := edit.lastSequence.or state.lastSequence }

def markFileNumberUsed (vset : VersionSet) (number : Nat) : VersionSet :=
  if vset.nextFileNumber ≤ number then { vset with nextFileNumber := number + 1 } else vset

/-- The part of `Recover` after the manifest has been read. -/
def finishRecover (iterations : Iterations) (state : RecoverState) :
    Except Failure VersionSet :=
  match state.nextFile, state.logNumber, state.lastSequence with
  | none, _, _ => .error (.corruption "no meta-nextfile entry in descriptor" "")
  | some _, none, _ => .error (.corruption "no meta-lognumber entry in descriptor" "")
  | some _, some _, none => .error (.corruption "no last-sequence-number entry in descriptor" "")
  | some nextFile, some logNumber, some lastSequence => do
    let prevLogNumber := state.prevLogNumber.getD 0
    let vset := (state.vset.markFileNumberUsed prevLogNumber).markFileNumberUsed logNumber
    let version <- orAbort (state.builder.saveTo mod rank vrank iterations.base iterations.current)
    return { vset with
      current := version
      manifestFileNumber := nextFile
      nextFileNumber := nextFile + 1
      lastSequence
      logNumber
      prevLogNumber }

def startRecover (vset : VersionSet) : RecoverState :=
  ⟨vset, Builder.new vset.current, 0, none, none, none, none⟩

/-- `VersionSet::Recover` on the bytes of the current manifest. -/
def recover (recordIterations : Nat -> Iteration) (iterations : Iterations) (vset : VersionSet)
    (file : Bytes) : Option (Except Failure VersionSet) :=
  (Log.visitLog value (fun corruption => Failure.corruption corruption.2 "")
    (recoverRecord mod rank vrank name recordIterations) file vset.startRecover).map
      (fun outcome => outcome.bind (finishRecover mod rank vrank iterations))

/-- The compaction pointers of an edit can be applied. -/
def PointersOk (edit : ManifestEdit) : Prop :=
  (∀ pointer ∈ edit.compactPointers, pointer.1 < kNumLevels) ∧
    edit.compactVPointers.length ≤ edit.compactPointers.length ∧
    (∀ level ∈ vpointerLevels edit, level < numVLevels mod) ∧
    (∀ pointer ∈ edit.compactPointers, pointer.2 ≠ []) ∧
    ∀ pointer ∈ edit.compactVPointers, pointer.2 ≠ []

variable {vset : VersionSet} {edit : ManifestEdit}

theorem applyPointers_eq_ok {next : VersionSet} :
    vset.applyPointers mod edit = .ok next <->
      PointersOk mod edit ∧ next = vset.appliedPointers edit := by
  unfold applyPointers PointersOk
  rw [assertThat_bind_eq_ok, assertThat_bind_eq_ok, assertThat_bind_eq_ok, assertThat_bind_eq_ok]
  constructor
  · rintro ⟨levels, lengths, vlevels, keys, equal⟩
    cases equal
    exact ⟨⟨levels, lengths, vlevels, keys⟩, rfl⟩
  · rintro ⟨⟨levels, lengths, vlevels, keys⟩, equal⟩
    exact ⟨levels, lengths, vlevels, keys, by rw [equal]; rfl⟩

theorem prepareEdit_eq_ok {prepared : ManifestEdit}
    (run : vset.prepareEdit edit = .ok prepared) : prepared = vset.preparedEdit edit := by
  unfold prepareEdit at run
  rw [assertThat_bind_eq_ok, assertThat_bind_eq_ok] at run
  cases run.2.2
  rfl

theorem encodeTo_eq_ok {order : List (Nat × Nat)} {record : Bytes} :
    edit.encodeTo order = .ok record <->
      (∀ key ∈ edit.encodedKeys, key ≠ []) ∧ record = edit.encodeFields order :=
  assertThat_return_eq_ok

theorem logAndApply_eq_ok {iterations : Iterations} {next : VersionSet}
    (run : vset.logAndApply mod rank vrank value name iterations edit = .ok next) :
    ∃ version before after, PointersOk mod (vset.preparedEdit edit) ∧
      Builder.InRange mod (vset.preparedEdit edit) ∧
      ((Builder.new vset.current).applied rank vrank iterations.edit
        (vset.preparedEdit edit)).saveTo mod rank vrank iterations.base iterations.current =
          .ok version ∧
      (vset.appliedPointers (vset.preparedEdit edit)).openLog mod value name = .ok before ∧
      Log.addRecord value before ((vset.preparedEdit edit).encodeFields
        (iterations.edit.order edit.dep.edges)) = .ok after ∧
      (∀ key ∈ edit.encodedKeys, key ≠ []) ∧
      next = { vset.appliedPointers (vset.preparedEdit edit) with
        current := version
        logNumber := edit.logNumber.getD vset.logNumber
        prevLogNumber := edit.prevLogNumber.getD vset.prevLogNumber
        descriptorLog := some after } := by
  rcases bind_eq_ok.mp run with ⟨_, prepare, run⟩
  have same := prepareEdit_eq_ok prepare
  subst same
  rcases bind_eq_ok.mp run with ⟨_, point, run⟩
  rcases (applyPointers_eq_ok mod).mp point with ⟨pointersOk, same⟩
  subst same
  rcases bind_eq_ok.mp run with ⟨_, built, run⟩
  rcases (Builder.apply_eq_ok mod rank vrank).mp built with ⟨range, same⟩
  subst same
  rcases bind_eq_ok.mp run with ⟨version, saved, run⟩
  rcases bind_eq_ok.mp run with ⟨before, opened, run⟩
  rcases bind_eq_ok.mp run with ⟨_, encoded, run⟩
  rcases bind_eq_ok.mp run with ⟨after, written, finish⟩
  rcases encodeTo_eq_ok.mp encoded with ⟨keys, same⟩
  rw [same] at written
  cases finish
  exact ⟨version, before, after, pointersOk, range, saved, opened, written, keys, rfl⟩

/-- Recovery applies an edit that was written to the manifest. -/
theorem recoverRecord_encoded (fits : edit.Representable)
    (comparator : ∀ other ∈ edit.comparator, other = name) (pointersOk : PointersOk mod edit)
    (range : Builder.InRange mod edit) (writeIteration : Iteration)
    (iterations : Nat -> Iteration) (state : RecoverState) :
    recoverRecord mod rank vrank name iterations state
      (edit.encodeFields (writeIteration.order edit.dep.edges)) =
      .ok {
        vset := state.vset.appliedPointers edit
        builder := state.builder.applied rank vrank (iterations state.replayed)
          (edit.reread writeIteration)
        replayed := state.replayed + 1
        logNumber := edit.logNumber.or state.logNumber
        prevLogNumber := edit.prevLogNumber.or state.prevLogNumber
        nextFile := edit.nextFileNumber.or state.nextFile
        lastSequence := edit.lastSequence.or state.lastSequence } := by
  have decoded := VersionEdit.decodeFrom_encodeFields fits (writeIteration.perm edit.dep.edges)
  have checked : checkComparator name (edit.reread writeIteration) = .ok () := by
    change checkComparator name edit = .ok ()
    unfold checkComparator
    cases named : edit.comparator with
    | none => rfl
    | some other => exact if_neg (not_not.mpr (comparator other named))
  have pointed : state.vset.applyPointers mod (edit.reread writeIteration) =
      .ok (state.vset.appliedPointers edit) :=
    (applyPointers_eq_ok mod).mpr ⟨pointersOk, rfl⟩
  have built : state.builder.apply mod rank vrank (iterations state.replayed)
      (edit.reread writeIteration) = .ok (state.builder.applied rank vrank
        (iterations state.replayed) (edit.reread writeIteration)) :=
    (Builder.apply_eq_ok mod rank vrank).mpr ⟨range, rfl⟩
  refine bind_eq_ok.mpr ⟨edit.reread writeIteration, ?_, bind_eq_ok.mpr ⟨(), checked,
    bind_eq_ok.mpr ⟨_, ?_, bind_eq_ok.mpr ⟨_, ?_, rfl⟩⟩⟩⟩
  · rw [decoded]
    rfl
  · rw [pointed]
    rfl
  · rw [built]
    rfl

/-- Recovery installs the saved version once all numbers have been found. -/
theorem finishRecover_eq_ok {iterations : Iterations} {state : RecoverState}
    {version : Version Bytes Bytes}
    (numbers : state.logNumber.isSome ∧ state.nextFile.isSome ∧ state.lastSequence.isSome)
    (saved : state.builder.saveTo mod rank vrank iterations.base iterations.current = .ok version) :
    ∃ recovered, finishRecover mod rank vrank iterations state = .ok recovered ∧
      recovered.current = version ∧
      recovered.compactPointer = state.vset.compactPointer ∧
      recovered.compactVPointers = state.vset.compactVPointers := by
  rcases numbers with ⟨hasLog, hasNext, hasLast⟩
  rcases Option.isSome_iff_exists.mp hasLog with ⟨_, logEq⟩
  rcases Option.isSome_iff_exists.mp hasNext with ⟨_, nextEq⟩
  rcases Option.isSome_iff_exists.mp hasLast with ⟨_, lastEq⟩
  unfold finishRecover
  simp only [logEq, nextEq, lastEq, saved]
  refine ⟨_, rfl, rfl, ?_, ?_⟩
  · unfold markFileNumberUsed
    split <;> split <;> rfl
  · unfold markFileNumberUsed
    split <;> split <;> rfl

theorem assignPointers_mem (pointers : Nat -> Bytes) (list : List (Nat × Bytes)) (level : Nat) :
    assignPointers pointers list level = pointers level ∨
      (level, assignPointers pointers list level) ∈ list := by
  induction list generalizing pointers with
  | nil => exact Or.inl rfl
  | cons pointer list ih =>
    rcases ih (Function.update pointers pointer.1 pointer.2) with old | new
    · change assignPointers (Function.update pointers pointer.1 pointer.2) list level = _ ∨
        (level, assignPointers (Function.update pointers pointer.1 pointer.2) list level) ∈ _
      rw [old]
      by_cases here : level = pointer.1
      · rw [here, Function.update_self]
        exact Or.inr mem_cons_self
      · rw [Function.update_of_ne here]
        exact Or.inl rfl
    · exact Or.inr (mem_cons_of_mem _ new)

variable {list : List (Nat × Bytes)} {level : Nat}

theorem assignPointers_of_not_mem
    (unassigned : level ∉ list.map Prod.fst) (pointers : Nat -> Bytes) :
    assignPointers pointers list level = pointers level := by
  rcases assignPointers_mem pointers list level with old | new
  · exact old
  · exact absurd (mem_map_of_mem new) unassigned

theorem assignPointers_ne_nil (nonempty : ∀ pointer ∈ list, pointer.2 ≠ [])
    (assigned : level ∈ list.map Prod.fst) (pointers : Nat -> Bytes) :
    assignPointers pointers list level ≠ [] := by
  induction list generalizing pointers with
  | nil => cases assigned
  | cons pointer list ih =>
    have later : ∀ other ∈ list, other.2 ≠ [] :=
      fun other member => nonempty other (mem_cons_of_mem _ member)
    change assignPointers (Function.update pointers pointer.1 pointer.2) list level ≠ []
    by_cases again : level ∈ list.map Prod.fst
    · exact ih later again _
    · rw [assignPointers_of_not_mem again]
      rcases mem_cons.mp assigned with here | tail
      · rw [here, Function.update_self]
        exact nonempty pointer mem_cons_self
      · exact absurd tail again

theorem cover_appliedPointers
    (pointersOk : PointersOk mod edit) (unset : ∀ level, vset.compactVPointers level = [])
    (level : Nat) (present : (vset.appliedPointers edit).compactVPointers level ≠ []) :
    (vset.appliedPointers edit).compactPointer level ≠ [] := by
  rcases pointersOk with ⟨_, _, _, nonempty, _⟩
  apply assignPointers_ne_nil nonempty
  rcases assignPointers_mem vset.compactVPointers
      ((vpointerLevels edit).zip (edit.compactVPointers.map Prod.snd)) level with old | new
  · exact absurd (old.trans (unset level)) present
  · exact mem_of_mem_take (of_mem_zip new).1

/-! ## The snapshot -/

/-- The keys and numbers of a version set fit the fields of a manifest. -/
structure Storable (vset : VersionSet) : Prop where
  pointers : forall level, (vset.compactPointer level).length < 2 ^ 32
  vpointers : forall level, (vset.compactVPointers level).length < 2 ^ 32
  files : forall level, ∀ file ∈ vset.current.files level, file.number < 2 ^ 64 ∧
    file.fileSize < 2 ^ 64 ∧ file.smallest.length < 2 ^ 32 ∧ file.largest.length < 2 ^ 32
  vfiles : forall level, ∀ file ∈ vset.current.vfiles level, file.number < 2 ^ 64 ∧
    file.fileSize < 2 ^ 64 ∧ file.smallest.length < 2 ^ 32 ∧ file.largest.length < 2 ^ 32

/-- Compaction pointers that fit the fields of a manifest, and of which only levels that the
arrays have are set. -/
structure PointersFit (pointers vpointers : Nat -> Bytes) : Prop where
  pointers : forall level, (pointers level).length < 2 ^ 32 ∧
    (kNumLevels ≤ level -> pointers level = [])
  vpointers : forall level, (vpointers level).length < 2 ^ 32 ∧
    (numVLevels mod ≤ level -> vpointers level = [])

theorem pointersFit_new : PointersFit mod new.compactPointer new.compactVPointers where
  pointers _ := ⟨Nat.two_pow_pos 32, fun _ => rfl⟩
  vpointers _ := ⟨Nat.two_pow_pos 32, fun _ => rfl⟩

variable {mod} in
theorem PointersFit.applied (fit : PointersFit mod vset.compactPointer vset.compactVPointers)
    (fits : edit.Representable) (pointersOk : PointersOk mod edit) :
    PointersFit mod (vset.appliedPointers edit).compactPointer
      (vset.appliedPointers edit).compactVPointers where
  pointers level := by
    dsimp only [appliedPointers]
    rcases assignPointers_mem vset.compactPointer edit.compactPointers level with old | new
    · rw [old]
      exact fit.pointers level
    · have bounds := fits.compactPointers _ new
      exact ⟨bounds.2, fun outside => absurd bounds.1 (not_lt.mpr outside)⟩
  vpointers level := by
    dsimp only [appliedPointers]
    rcases assignPointers_mem vset.compactVPointers
        ((vpointerLevels edit).zip (edit.compactVPointers.map Prod.snd)) level with old | new
    · rw [old]
      exact fit.vpointers level
    · rcases mem_map.mp (of_mem_zip new).2 with ⟨pointer, inside, same⟩
      have short := (fits.compactVPointers pointer inside).2
      rw [same] at short
      exact ⟨short, fun outside =>
        absurd (pointersOk.2.2.1 level (of_mem_zip new).1) (not_lt.mpr outside)⟩

theorem mem_setPointers {count : Nat} {pointers : Nat -> Bytes} {key : Bytes} :
    (level, key) ∈ setPointers count pointers <->
      level < count ∧ key = pointers level ∧ key ≠ [] := by
  unfold setPointers
  rw [mem_flatMap]
  constructor
  · rintro ⟨_, range, member⟩
    split at member
    · next nonempty =>
        cases mem_singleton.mp member
        exact ⟨mem_range.mp range, rfl, nonempty⟩
    · cases member
  · rintro ⟨range, rfl, nonempty⟩
    refine ⟨level, mem_range.mpr range, ?_⟩
    rw [if_pos nonempty]
    exact mem_singleton.mpr rfl

theorem setPointers_nonempty (count : Nat) (pointers : Nat -> Bytes) :
    ∀ pointer ∈ setPointers count pointers, pointer.2 ≠ [] := by
  rintro ⟨_, _⟩ member
  exact (mem_setPointers.mp member).2.2

theorem map_fst_setPointers (count : Nat) (pointers : Nat -> Bytes) :
    (setPointers count pointers).map Prod.fst =
      (List.range count).filter (fun level => decide (pointers level ≠ [])) := by
  unfold setPointers
  induction List.range count with
  | nil => rfl
  | cons level levels ih =>
    rw [flatMap_cons, map_append, ih, filter_cons]
    by_cases nonempty : pointers level ≠ []
    · rw [if_pos nonempty, if_pos (decide_eq_true nonempty)]
      rfl
    · rw [if_neg nonempty, if_neg (fun holds => nonempty (of_decide_eq_true holds))]
      rfl

theorem mem_allFiles {count : Nat} {files : Nat -> List (FileMetaData Bytes)}
    {file : FileMetaData Bytes} :
    (level, file) ∈ allFiles count files <-> level < count ∧ file ∈ files level := by
  unfold allFiles
  simp [mem_flatMap]

theorem numVLevels_le : numVLevels mod ≤ kNumLevels := by
  unfold numVLevels
  split
  · decide
  · exact le_refl _

theorem Storable.representable (storable : vset.Storable)
    (short : name.length < 2 ^ 32) : (vset.snapshotEdit mod name).Representable where
  comparator := by
    intro _ same
    cases same
    exact short
  logNumber := nofun
  prevLogNumber := nofun
  nextFileNumber := nofun
  lastSequence := nofun
  compactPointers := by
    rintro ⟨level, key⟩ member
    rcases mem_setPointers.mp member with ⟨range, rfl, _⟩
    exact ⟨range, storable.pointers level⟩
  compactVPointers := by
    rintro ⟨level, _⟩ member
    rcases mem_setPointers.mp member with ⟨range, rfl, _⟩
    exact ⟨lt_of_lt_of_le range (numVLevels_le mod), storable.vpointers level⟩
  deletedFiles := nofun
  deletedVFiles := nofun
  newFiles := by
    rintro ⟨level, file⟩ member
    rcases mem_allFiles.mp member with ⟨range, inside⟩
    exact ⟨range, storable.files level file inside⟩
  newVFiles := by
    rintro ⟨level, file⟩ member
    rcases mem_allFiles.mp member with ⟨range, inside⟩
    exact ⟨lt_of_lt_of_le range (numVLevels_le mod), storable.vfiles level file inside⟩
  dep := nofun

theorem inRange_snapshotEdit (vset : VersionSet) :
    Builder.InRange mod (vset.snapshotEdit mod name) := by
  refine ⟨⟨nofun, ?_⟩, nofun, ?_⟩
  · rintro ⟨level, file⟩ member
    exact (mem_allFiles.mp member).1
  · rintro ⟨level, _⟩ member
    exact (mem_allFiles.mp member).1

/-- The pointers of a snapshot can be applied when every level with a value
pointer also has a key pointer. -/
theorem pointersOk_snapshotEdit
    (cover : ∀ level, level < numVLevels mod -> vset.compactVPointers level ≠ [] ->
      vset.compactPointer level ≠ []) : PointersOk mod (vset.snapshotEdit mod name) := by
  have lengths : (setPointers (numVLevels mod) vset.compactVPointers).length ≤
      ((List.range (numVLevels mod)).filter
        (fun level => decide (vset.compactPointer level ≠ []))).length := by
    rw [<- length_map (f := Prod.fst), map_fst_setPointers, <- countP_eq_length_filter,
      <- countP_eq_length_filter]
    apply countP_mono_left
    intro level member
    rw [decide_eq_true_iff, decide_eq_true_iff]
    exact cover level (mem_range.mp member)
  have levels : (setPointers kNumLevels vset.compactPointer).map Prod.fst =
      (List.range (numVLevels mod)).filter (fun level => decide (vset.compactPointer level ≠ [])) ++
        ((List.range (kNumLevels - numVLevels mod)).map (fun i => numVLevels mod + i)).filter
          (fun level => decide (vset.compactPointer level ≠ [])) := by
    have split := range_add (n := numVLevels mod) (m := kNumLevels - numVLevels mod)
    rw [Nat.add_sub_cancel' (numVLevels_le mod)] at split
    rw [map_fst_setPointers, split, filter_append]
  refine ⟨?_, ?_, ?_, ?_, ?_⟩
  · rintro ⟨level, _⟩ member
    exact (mem_setPointers.mp member).1
  · have total : (setPointers kNumLevels vset.compactPointer).length =
        ((setPointers kNumLevels vset.compactPointer).map Prod.fst).length :=
      (length_map _).symm
    change (setPointers _ _).length ≤ (setPointers _ _).length
    rw [total, levels, length_append]
    omega
  · intro level member
    change level ∈ ((setPointers _ _).map Prod.fst).take (setPointers _ _).length at member
    rw [levels, take_append_of_le_length lengths] at member
    exact mem_range.mp (mem_filter.mp (mem_of_mem_take member)).1
  · exact setPointers_nonempty _ _
  · exact setPointers_nonempty _ _

end VersionSet

end

end Db
end Doux
