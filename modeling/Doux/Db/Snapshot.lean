import Doux.Db.Replay

namespace Doux
namespace Db

open Foundation Util List

/-!
# A fresh manifest

The first `LogAndApply` after opening a database starts a new manifest with a
snapshot of the current version.  A later recovery sees the version only through
that snapshot.  Key files, value files and key pointers survive.  Two parts of
the state need not.

`WriteSnapshot` writes no dependencies, so that after recovery every file is its
own parent.  And the loop of `Builder::Apply` over the value pointers takes its
levels from the key pointers, so value pointers survive only where these levels
agree.  The main result says that nothing else is lost.
-/

/-- A version set as it can be current in a running database: levels in key
order, no overlap above level zero, and contents that fit a manifest. -/
structure ValidVersionSet {L M : Type} [LinearOrder L] [LinearOrder M] (rank : Bytes -> L)
    (vrank : Bytes -> M) where
  vset : VersionSet
  name : Bytes
  short : name.length < 2 ^ 32
  sorted : forall level, SortedBy (bySmallestKey rank) (vset.current.files level)
  chains : forall level, level > 0 -> (vset.current.files level).IsChain (Before rank)
  outside : forall level, kNumLevels ≤ level -> vset.current.files level = []
  vsorted : forall level, SortedBy (bySmallestKey vrank) (vset.current.vfiles level)
  voutside : forall level, numVLevels 10 ≤ level -> vset.current.vfiles level = []
  storable : vset.Storable
  keys : forall level, ∀ file ∈ vset.current.files level, file.smallest ≠ [] ∧ file.largest ≠ []
  vkeys : forall level, ∀ file ∈ vset.current.vfiles level, file.smallest ≠ [] ∧ file.largest ≠ []
  pointersOutside : forall level, kNumLevels ≤ level -> vset.compactPointer level = []
  vpointersOutside : forall level, numVLevels 10 ≤ level -> vset.compactVPointers level = []
  logNumber : vset.logNumber < 2 ^ 64
  prevLogNumber : vset.prevLogNumber < 2 ^ 64
  nextFileNumber : vset.nextFileNumber < 2 ^ 64
  lastSequence : vset.lastSequence < 2 ^ 64

def pointerLevels (count : Nat) (pointers : Nat -> Bytes) : List Nat :=
  (List.range count).filter (fun level => decide (pointers level ≠ []))

variable {L M : Type} [LinearOrder L] [LinearOrder M] (rank : Bytes -> L) (vrank : Bytes -> M)
  (value : Bytes -> BitVec 32)

/-- Start a new manifest with an edit that changes no files, and recover from it. -/
def reopen (iterations recoverIterations : Iterations) (recordIterations : Nat -> Iteration)
    (name : Bytes) (vset : VersionSet) : Option VersionSet := do
  let next <- ({ vset with descriptorLog := none }.logAndApply 10 rank vrank value name
    iterations VersionEdit.empty).toOption
  let log <- next.descriptorLog
  let outcome <- VersionSet.new.recover 10 rank vrank value name recordIterations
    recoverIterations log.dest
  outcome.toOption

/-- The recovered version set has the same files, pointers and roots. -/
structure Reproduced (recovered vset : VersionSet) : Prop where
  files : forall level, recovered.current.files level = vset.current.files level
  vfiles : forall level, recovered.current.vfiles level = vset.current.vfiles level
  pointers : forall level, recovered.compactPointer level = vset.compactPointer level
  vpointers : forall level, recovered.compactVPointers level = vset.compactVPointers level
  findParent : forall number, (recovered.current.dep.findParent number).1 =
    (vset.current.dep.findParent number).1

namespace VersionSet

theorem filesAt_allFiles (count : Nat) (files : Nat -> List (FileMetaData Bytes)) (level : Nat) :
    filesAt level (allFiles count files) = if level < count then files level else [] := by
  induction count with
  | zero => rfl
  | succ count ih =>
    have split : allFiles (count + 1) files =
        allFiles count files ++ (files count).map (fun file => (count, file)) := by
      unfold allFiles
      rw [range_succ, flatMap_append, flatMap_singleton]
    rw [split, filesAt_append, ih, filesAt_map]
    grind

theorem assignPointers_setPointers {count : Nat} {pointers : Nat -> Bytes}
    (outside : ∀ level, count ≤ level -> pointers level = []) :
    assignPointers (fun _ => []) (setPointers count pointers) = pointers := by
  funext level
  rcases assignPointers_mem (fun _ => []) (setPointers count pointers) level with old | new
  · by_contra different
    rw [old] at different
    have inside : level < count := by
      by_contra above
      exact different (outside level (by omega)).symm
    have assigned : level ∈ (setPointers count pointers).map Prod.fst :=
      mem_map_of_mem (mem_setPointers.mpr ⟨inside, rfl, Ne.symm different⟩)
    exact assignPointers_ne_nil (setPointers_nonempty count pointers) assigned _ old
  · exact (mem_setPointers.mp new).2.1

theorem sorted_pointerLevels (count : Nat) (pointers : Nat -> Bytes) :
    SortedBy (fun level : Nat => level) (pointerLevels count pointers) :=
  Pairwise.filter _ pairwise_lt_range

theorem length_setPointers (count : Nat) (pointers : Nat -> Bytes) :
    (setPointers count pointers).length = (pointerLevels count pointers).length := by
  rw [<- length_map (f := Prod.fst), map_fst_setPointers]
  rfl

theorem vpointerLevels_snapshot (vset : VersionSet) (name : Bytes) :
    vpointerLevels (vset.snapshotEdit 10 name) = (pointerLevels kNumLevels vset.compactPointer).take
        (pointerLevels (numVLevels 10) vset.compactVPointers).length := by
  change ((setPointers _ _).map Prod.fst).take (setPointers _ _).length = _
  rw [map_fst_setPointers, length_setPointers]
  rfl

variable {vset : VersionSet} {name : Bytes}

/-- A level has a value pointer after the snapshot has been applied to empty
arrays exactly when it is one of the levels that the loop has used. -/
theorem vpointer_snapshot_ne_nil
    (enough : (pointerLevels (numVLevels 10) vset.compactVPointers).length ≤
      (pointerLevels kNumLevels vset.compactPointer).length) (level : Nat) :
    (new.appliedPointers (vset.snapshotEdit 10 name)).compactVPointers level ≠ [] <->
      level ∈ vpointerLevels (vset.snapshotEdit 10 name) := by
  constructor
  · intro present
    rcases assignPointers_mem new.compactVPointers ((vpointerLevels (vset.snapshotEdit 10 name)).zip
          ((setPointers (numVLevels 10) vset.compactVPointers).map Prod.snd)) level with old | new
    · exact absurd old present
    · exact (of_mem_zip new).1
  · intro used
    apply assignPointers_ne_nil
    · intro _ member
      rcases mem_map.mp (of_mem_zip member).2 with ⟨other, inside, equal⟩
      rw [<- equal]
      exact setPointers_nonempty _ _ other inside
    · rw [map_fst_zip]
      · exact used
      · rw [vpointerLevels_snapshot, length_map, length_take]
        change _ ≤ (setPointers _ _).length
        rw [length_setPointers]
        omega

/-- The value pointers survive the snapshot exactly when their levels are the
first levels with a key pointer. -/
theorem vpointers_snapshot (name : Bytes)
    (outside : ∀ level, numVLevels 10 ≤ level -> vset.compactVPointers level = []) :
    PointersOk 10 (vset.snapshotEdit 10 name) ∧
        (new.appliedPointers (vset.snapshotEdit 10 name)).compactVPointers =
          vset.compactVPointers <-> pointerLevels (numVLevels 10) vset.compactVPointers <+:
        pointerLevels kNumLevels vset.compactPointer := by
  rw [prefix_iff_eq_take, <- vpointerLevels_snapshot vset name]
  constructor
  · rintro ⟨⟨_, enough, _⟩, same⟩
    change (setPointers _ _).length ≤ (setPointers _ _).length at enough
    rw [length_setPointers, length_setPointers] at enough
    have sorted : SortedBy (fun level : Nat => level)
        (vpointerLevels (vset.snapshotEdit 10 name)) := by
      rw [vpointerLevels_snapshot]
      exact Pairwise.sublist (take_sublist _ _) (sorted_pointerLevels _ _)
    apply SortedBy.ext (sorted_pointerLevels _ _) sorted
    intro level
    rw [<- vpointer_snapshot_ne_nil enough, same]
    unfold pointerLevels
    rw [mem_filter, mem_range, decide_eq_true_iff]
    refine ⟨And.right, fun present => ⟨?_, present⟩⟩
    by_contra above
    exact present (outside level (by omega))
  · intro equal
    have within : ∀ level ∈ vpointerLevels (vset.snapshotEdit 10 name), level < numVLevels 10 := by
      intro level member
      rw [<- equal] at member
      exact mem_range.mp (mem_filter.mp member).1
    have enough : (setPointers (numVLevels 10) vset.compactVPointers).length ≤
        (setPointers kNumLevels vset.compactPointer).length := by
      rw [length_setPointers, length_setPointers, equal, vpointerLevels_snapshot, length_take]
      exact Nat.min_le_right _ _
    refine ⟨⟨?_, enough, within, setPointers_nonempty _ _, setPointers_nonempty _ _⟩, ?_⟩
    · rintro ⟨_, _⟩ member
      exact (mem_setPointers.mp member).1
    · change assignPointers _ ((vpointerLevels (vset.snapshotEdit 10 name)).zip
        ((setPointers (numVLevels 10) vset.compactVPointers).map Prod.snd)) = _
      have fsts : pointerLevels (numVLevels 10) vset.compactVPointers =
          (setPointers (numVLevels 10) vset.compactVPointers).map Prod.fst :=
        (map_fst_setPointers _ _).symm
      rw [<- equal, fsts, zip_map', map_id'' fun _ => rfl]
      exact assignPointers_setPointers outside

/-- A record can be read back only when its pointers can be applied. -/
theorem pointersOk_of_recoverRecord {L M : Type} [LinearOrder L] [LinearOrder M] {mod : Nat}
    {rank : Bytes -> L} {vrank : Bytes -> M} {edit : ManifestEdit}
    (fits : edit.Representable) (writeIteration : Iteration) {iterations : Nat -> Iteration}
    {state next : RecoverState} (read : recoverRecord mod rank vrank name iterations state
      (edit.encodeFields (writeIteration.order edit.dep.edges)) = .ok next) :
    PointersOk mod edit := by
  unfold recoverRecord at read
  rw [VersionEdit.decodeFrom_encodeFields fits (writeIteration.perm edit.dep.edges)] at read
  rcases bind_eq_ok.mp read with ⟨_, decoded, checks⟩
  cases decoded
  rcases bind_eq_ok.mp checks with ⟨_, _, pointers⟩
  rcases bind_eq_ok.mp pointers with ⟨_, applied, _⟩
  exact ((applyPointers_eq_ok mod).mp (eq_ok_of_orAbort applied)).1

end VersionSet

variable {rank vrank}

namespace ValidVersionSet

open VersionSet

/-- The version set before its first `LogAndApply`. -/
def opened (valid : ValidVersionSet rank vrank) : VersionSet :=
  { valid.vset with descriptorLog := none }

/-- The edit without changes, as it is written. -/
def numbersEdit (valid : ValidVersionSet rank vrank) : ManifestEdit :=
  valid.opened.preparedEdit VersionEdit.empty

/-- The two records of the new manifest. -/
def records (valid : ValidVersionSet rank vrank) : List Bytes :=
  [(valid.vset.snapshotEdit 10 valid.name).encodeFields [], valid.numbersEdit.encodeFields []]

variable (valid : ValidVersionSet rank vrank)

theorem encodedKeys_ne_nil :
    ∀ key ∈ (valid.vset.snapshotEdit 10 valid.name).encodedKeys, key ≠ [] := by
  have files {count : Nat} {files : Nat -> List (FileMetaData Bytes)}
      (keys : ∀ level, ∀ file ∈ files level, file.smallest ≠ [] ∧ file.largest ≠ []) :
      ∀ key ∈ (allFiles count files).flatMap
        (fun file => [file.2.smallest, file.2.largest]), key ≠ [] := by
    intro key member
    rcases mem_flatMap.mp member with ⟨⟨level, file⟩, inside, either⟩
    rcases keys level file (mem_allFiles.mp inside).2 with ⟨smallest, largest⟩
    rcases mem_pair.mp either with rfl | rfl
    · exact smallest
    · exact largest
  have pointers (count : Nat) (pointers : Nat -> Bytes) :
      ∀ key ∈ (setPointers count pointers).map Prod.snd, key ≠ [] :=
    forall_mem_map.mpr (setPointers_nonempty count pointers)
  unfold VersionEdit.encodedKeys
  simp only [forall_mem_append]
  exact ⟨⟨⟨pointers _ _, pointers _ _⟩, files valid.keys⟩, files valid.vkeys⟩

theorem savedFiles_new :
    (Builder.new valid.vset.current).savedFiles rank = valid.vset.current.files := by
  funext level
  unfold Builder.savedFiles
  by_cases inside : level < kNumLevels
  · rw [if_pos inside]
    exact filter_eq_self.mpr (fun _ _ => decide_eq_true (Finset.notMem_empty _))
  · rw [if_neg inside]
    exact (valid.outside level (by omega)).symm

/-- The first `LogAndApply` succeeds and writes the two records. -/
theorem logAndApply_opened (iterations : Iterations) : ∃ next log,
      valid.opened.logAndApply 10 rank vrank value valid.name iterations VersionEdit.empty =
        .ok next ∧ next.descriptorLog = some log ∧
      Log.addRecords value ⟨[], 0⟩ valid.records = .ok log := by
  rcases Log.addRecord_total value ⟨[], 0⟩
      ((valid.vset.snapshotEdit 10 valid.name).encodeFields []) (Nat.zero_le _) with
    ⟨first, addedFirst, inBlock⟩
  rcases Log.addRecord_total value first (valid.numbersEdit.encodeFields []) inBlock with
    ⟨second, addedSecond, _⟩
  have prepared : valid.opened.prepareEdit VersionEdit.empty = .ok valid.numbersEdit := by
    unfold prepareEdit
    rw [assertThat_bind_eq_ok, assertThat_bind_eq_ok]
    exact ⟨nofun, nofun, rfl⟩
  have pointed : valid.opened.applyPointers 10 valid.numbersEdit = .ok valid.opened :=
    (applyPointers_eq_ok 10).mpr ⟨⟨nofun, le_refl 0, nofun, nofun, nofun⟩, rfl⟩
  have built : (Builder.new valid.opened.current).apply 10 rank vrank iterations.edit
      valid.numbersEdit = .ok (Builder.new valid.opened.current) :=
    (Builder.apply_eq_ok 10 rank vrank).mpr ⟨⟨⟨nofun, nofun⟩, nofun, nofun⟩,
      (Builder.applied_eq_self rank vrank iterations.edit _ rfl rfl rfl rfl rfl).symm⟩
  have chains : ∀ level, level > 0 ->
      ((Builder.new valid.opened.current).savedFiles rank level).IsChain (Before rank) := by
    intro level positive
    rw [show (Builder.new valid.opened.current).savedFiles rank = valid.vset.current.files
      from valid.savedFiles_new]
    exact valid.chains level positive
  have saved : (Builder.new valid.opened.current).saveTo 10 rank vrank iterations.base
      iterations.current = .ok _ :=
    (Builder.saveTo_eq_ok 10 rank vrank).mpr ⟨rfl, chains⟩
  have encodedFirst : (valid.vset.snapshotEdit 10 valid.name).encodeTo [] =
      .ok ((valid.vset.snapshotEdit 10 valid.name).encodeFields []) :=
    encodeTo_eq_ok.mpr ⟨valid.encodedKeys_ne_nil, rfl⟩
  have openedLog : valid.opened.openLog 10 value valid.name = .ok first :=
    bind_eq_ok.mpr ⟨_, encodedFirst, addedFirst⟩
  have encodedSecond : valid.numbersEdit.encodeTo
      (iterations.edit.order valid.numbersEdit.dep.edges) =
      .ok (valid.numbersEdit.encodeFields []) :=
    encodeTo_eq_ok.mpr ⟨nofun, by
      rw [show valid.numbersEdit.dep.edges = [] from rfl, iterations.edit.order_nil]⟩
  refine ⟨_, second, bind_eq_ok.mpr ⟨_, prepared, bind_eq_ok.mpr ⟨_, pointed,
    bind_eq_ok.mpr ⟨_, built, bind_eq_ok.mpr ⟨_, saved, bind_eq_ok.mpr ⟨_, openedLog,
    bind_eq_ok.mpr ⟨_, encodedSecond, bind_eq_ok.mpr ⟨_, addedSecond, rfl⟩⟩⟩⟩⟩⟩⟩, rfl, ?_⟩
  unfold records
  rw [Log.addRecords, addedFirst]
  change Log.addRecords value first [valid.numbersEdit.encodeFields []] = .ok second
  rw [Log.addRecords, addedSecond]
  rfl

theorem representable_snapshot : (valid.vset.snapshotEdit 10 valid.name).Representable :=
  valid.storable.representable 10 valid.name valid.short

theorem representable_numbersEdit : valid.numbersEdit.Representable :=
  representable_preparedEdit VersionEdit.representable_empty valid.logNumber valid.prevLogNumber
    valid.nextFileNumber valid.lastSequence

/-- The builder of `Recover` after both records. -/
def replayed (valid : ValidVersionSet rank vrank) : Builder Bytes Bytes :=
  (Builder.new Version.empty).applied rank vrank Iteration.stored
    (valid.vset.snapshotEdit 10 valid.name)

/-- One level after the snapshot has been applied to an empty builder. -/
theorem kept_applyLevels_allFiles {K : Type} [LinearOrder K] (order : Bytes -> K) {count : Nat}
    {files : Nat -> List (FileMetaData Bytes)} {level : Nat} (inside : level < count)
    (sorted : SortedBy (bySmallestKey order) (files level)) :
    let state := applyLevels order (fun _ => .empty) [] (allFiles count files) level
    state.kept (mergeBy (bySmallestKey order) [] state.addedFiles) = files level := by
  intro state
  rcases applyLevels_spec order (fun _ => .empty) [] (allFiles count files) level with
    ⟨added, deleted⟩
  have all : state.addedFiles = files level := by
    rw [show state.addedFiles = _ from added, filesAt_allFiles, if_pos inside]
    exact sorted.insertAllBy_nil
  rw [mergeBy_nil, all]
  refine filter_eq_self.mpr (fun file _ => decide_eq_true fun gone => ?_)
  rcases ((deleted file.number).mp gone).1 with impossible | impossible
  · exact absurd impossible (Finset.notMem_empty _)
  · cases impossible

theorem savedFiles_replayed : valid.replayed.savedFiles rank = valid.vset.current.files := by
  funext level
  unfold Builder.savedFiles
  by_cases inside : level < kNumLevels
  · rw [if_pos inside]
    exact kept_applyLevels_allFiles rank inside (valid.sorted level)
  · rw [if_neg inside]
    exact (valid.outside level (by omega)).symm

theorem savedVFiles_replayed : valid.replayed.savedVFiles 10 vrank = valid.vset.current.vfiles := by
  funext level
  unfold Builder.savedVFiles
  by_cases inside : level < numVLevels 10
  · rw [if_pos ⟨Or.inr rfl, inside⟩]
    exact kept_applyLevels_allFiles vrank inside (valid.vsorted level)
  · rw [if_neg (fun both => inside both.2)]
    exact (valid.voutside level (by omega)).symm

theorem root_savedDep_replayed (baseIteration curIteration : Iteration) :
    (valid.replayed.savedDep 10 baseIteration curIteration).root = fun number => number := by
  have base : (baseIteration.order valid.replayed.base.dep.edges) = [] :=
    baseIteration.order_nil
  have cur : (curIteration.order valid.replayed.curDep.edges) = [] :=
    curIteration.order_nil
  unfold Builder.savedDep
  rw [base, cur]
  exact Dependency.root_empty

/-- The variables of `Recover` after both records. -/
def finalState (valid : ValidVersionSet rank vrank) : VersionSet.RecoverState where
  vset := VersionSet.new.appliedPointers (valid.vset.snapshotEdit 10 valid.name)
  builder := valid.replayed
  replayed := 2
  logNumber := some valid.vset.logNumber
  prevLogNumber := some valid.vset.prevLogNumber
  nextFile := some valid.vset.nextFileNumber
  lastSequence := some valid.vset.lastSequence

/-- When the pointers can be applied, both records can be read. -/
theorem foldlM_records (pointersOk : PointersOk 10 (valid.vset.snapshotEdit 10 valid.name))
    (recordIterations : Nat -> Iteration) :
    valid.records.foldlM (recoverRecord 10 rank vrank valid.name recordIterations)
      VersionSet.new.startRecover = .ok valid.finalState := by
  have built : (Builder.new Version.empty).applied rank vrank (recordIterations 0)
      ((valid.vset.snapshotEdit 10 valid.name).reread Iteration.stored) = valid.replayed := by
    unfold replayed Builder.applied
    rw [show ((valid.vset.snapshotEdit 10 valid.name).reread Iteration.stored).dep.edges = []
      from rfl, (recordIterations 0).order_nil]
    rfl
  have first := recoverRecord_encoded 10 rank vrank valid.name
    valid.representable_snapshot (fun other named => (Option.some.inj named).symm) pointersOk
    (inRange_snapshotEdit 10 valid.name valid.vset) Iteration.stored recordIterations
    VersionSet.new.startRecover
  rw [show VersionSet.new.startRecover.builder = Builder.new Version.empty from rfl,
    show VersionSet.new.startRecover.replayed = 0 from rfl, built] at first
  have second := recoverRecord_encoded 10 rank vrank valid.name
    valid.representable_numbersEdit nofun ⟨nofun, le_refl 0, nofun, nofun, nofun⟩
    ⟨⟨nofun, nofun⟩, nofun, nofun⟩ Iteration.stored recordIterations
    ⟨VersionSet.new.appliedPointers (valid.vset.snapshotEdit 10 valid.name), valid.replayed, 1,
      none, none, none, none⟩
  rw [Builder.applied_eq_self rank vrank _ valid.replayed rfl rfl rfl rfl rfl] at second
  exact bind_eq_ok.mpr ⟨_, first, bind_eq_ok.mpr ⟨_, second, rfl⟩⟩

section
variable {log : Log.Writer} (written : Log.addRecords value ⟨[], 0⟩ valid.records = .ok log)
include written

/-- When the pointers can be applied, recovery gives back files and key
pointers; every file is its own parent. -/
theorem recover_records (pointersOk : PointersOk 10 (valid.vset.snapshotEdit 10 valid.name))
    (recordIterations : Nat -> Iteration) (iterations : Iterations) : ∃ recovered,
      VersionSet.new.recover 10 rank vrank value valid.name recordIterations iterations
        log.dest = some (.ok recovered) ∧ recovered.current.files = valid.vset.current.files ∧
      recovered.current.vfiles = valid.vset.current.vfiles ∧
      recovered.current.dep.root = (fun number => number) ∧
      recovered.compactPointer = valid.vset.compactPointer ∧
      recovered.compactVPointers = (VersionSet.new.appliedPointers
        (valid.vset.snapshotEdit 10 valid.name)).compactVPointers := by
  have saved : valid.finalState.builder.saveTo 10 rank vrank iterations.base
      iterations.current = .ok ⟨valid.vset.current.files, valid.vset.current.vfiles,
        valid.replayed.savedDep 10 iterations.base iterations.current⟩ := by
    change valid.replayed.saveTo 10 rank vrank iterations.base iterations.current = _
    rw [Builder.saveTo_eq_ok, valid.savedFiles_replayed, valid.savedVFiles_replayed]
    exact ⟨rfl, valid.chains⟩
  rcases finishRecover_eq_ok 10 rank vrank ⟨rfl, rfl, rfl⟩ saved with
    ⟨recovered, finished, current, pointers, vpointers⟩
  have visited := Log.visitLog_of_addRecords value
    (fun corruption => Failure.corruption corruption.2 "")
    (recoverRecord 10 rank vrank valid.name recordIterations) written
    VersionSet.new.startRecover
  rw [valid.foldlM_records pointersOk] at visited
  refine ⟨recovered, ?_, ?_, ?_, ?_, ?_, ?_⟩
  · unfold recover
    rw [visited, <- finished]
    rfl
  · rw [current]
  · rw [current]
  · rw [current]
    exact valid.root_savedDep_replayed iterations.base iterations.current
  · rw [pointers]
    exact assignPointers_setPointers valid.pointersOutside
  · rw [vpointers]
    rfl

/-- Recovery succeeds only when the pointers can be applied. -/
theorem pointersOk_of_recover {recordIterations : Nat -> Iteration} {iterations : Iterations}
    {recovered : VersionSet}
    (read : VersionSet.new.recover 10 rank vrank value valid.name recordIterations iterations
      log.dest = some (.ok recovered)) :
    PointersOk 10 (valid.vset.snapshotEdit 10 valid.name) := by
  unfold recover at read
  rw [Log.visitLog_of_addRecords value _ _ written] at read
  rcases bind_eq_ok.mp (Option.some.inj read) with ⟨_, folded, _⟩
  rcases bind_eq_ok.mp folded with ⟨_, first, _⟩
  exact pointersOk_of_recoverRecord valid.representable_snapshot Iteration.stored first

end

/-- A new manifest reproduces the version set exactly when every file is its own
parent and the levels with a value pointer are the first levels with a key
pointer. -/
theorem reopen_reproduces_iff
    (iterations recoverIterations : Iterations) (recordIterations : Nat -> Iteration) :
    (∃ recovered, reopen rank vrank value iterations recoverIterations recordIterations
        valid.name valid.vset = some recovered ∧ Reproduced recovered valid.vset) <->
      (forall number, (valid.vset.current.dep.findParent number).1 = number) ∧
        pointerLevels (numVLevels 10) valid.vset.compactVPointers <+:
          pointerLevels kNumLevels valid.vset.compactPointer := by
  rcases valid.logAndApply_opened value iterations with ⟨next, log, applied, isLog, written⟩
  have reopened : reopen rank vrank value iterations recoverIterations recordIterations
      valid.name valid.vset = (VersionSet.new.recover 10 rank vrank value valid.name
        recordIterations recoverIterations log.dest).bind Except.toOption := by
    unfold reopen
    rw [show VersionSet.logAndApply 10 rank vrank value valid.name iterations
      { valid.vset with descriptorLog := none } VersionEdit.empty = .ok next from applied]
    change next.descriptorLog.bind _ = _
    rw [isLog]
    rfl
  rw [reopened, <- vpointers_snapshot valid.name valid.vpointersOutside]
  constructor
  · rintro ⟨recovered, read, same⟩
    rcases Option.bind_eq_some_iff.mp read with ⟨outcome, run, ok⟩
    have success : outcome = .ok recovered := by
      cases outcome with
      | error failure => cases ok
      | ok result => rw [Option.some.inj ok]
    rw [success] at run
    have pointersOk := valid.pointersOk_of_recover value written run
    rcases valid.recover_records value written pointersOk recordIterations recoverIterations with
      ⟨_, again, _, _, root, _, vpointers⟩
    rw [run] at again
    cases again
    refine ⟨fun number => ?_, pointersOk, ?_⟩
    · rw [<- same.findParent number]
      exact congrFun root number
    · rw [<- vpointers]
      exact funext same.vpointers
  · rintro ⟨ownParent, pointersOk, vpointersSame⟩
    rcases valid.recover_records value written pointersOk recordIterations recoverIterations with
      ⟨recovered, run, files, vfiles, root, pointers, vpointers⟩
    refine ⟨recovered, by rw [run]; rfl, ?_⟩
    refine ⟨congrFun files, congrFun vfiles, congrFun pointers, ?_, ?_⟩
    · rw [vpointers, vpointersSame]
      exact fun _ => rfl
    · intro number
      rw [ownParent number]
      exact congrFun root number

end ValidVersionSet

section Installed

open VersionSet

variable {mod : Nat} {name : Bytes} {iterations : Nat -> Iteration} {steps : List Install}
  {vset : VersionSet} {records : List Bytes} {state : RecoverState}

/-- A file that one of the edits has added fits the manifest, and its keys are not empty. -/
theorem VersionSet.Recorded.fits_of_new
    (recorded : Recorded mod rank vrank value name iterations steps vset records state)
    (run : AdmissibleRun mod rank vrank value name steps) {level : Nat}
    {file : FileMetaData Bytes}
    (isNew : (level, file) ∈ (steps.map Install.edit).flatMap VersionEdit.newFiles ∨
      (level, file) ∈ (steps.map Install.edit).flatMap VersionEdit.newVFiles) :
    (file.number < 2 ^ 64 ∧ file.fileSize < 2 ^ 64 ∧ file.smallest.length < 2 ^ 32 ∧
      file.largest.length < 2 ^ 32) ∧ file.smallest ≠ [] ∧ file.largest ≠ [] := by
  simp only [mem_flatMap, mem_map, exists_exists_and_eq_and] at isNew
  rcases isNew with ⟨step, inRun, isNew⟩ | ⟨step, inRun, isNew⟩
  · have keys {key : Bytes} (either : key ∈ [file.smallest, file.largest]) :=
      recorded.keys step inRun key
        (mem_append_left _ (mem_append_right _ (mem_flatMap.mpr ⟨_, isNew, either⟩)))
    exact ⟨((run.representable step inRun).1.newFiles _ isNew).2, keys (by simp), keys (by simp)⟩
  · have keys {key : Bytes} (either : key ∈ [file.smallest, file.largest]) :=
      recorded.keys step inRun key (mem_append_right _ (mem_flatMap.mpr ⟨_, isNew, either⟩))
    exact ⟨((run.representable step inRun).1.newVFiles _ isNew).2, keys (by simp), keys (by simp)⟩

/-- Whatever admissible edits `LogAndApply` has installed one after the other, the version set is
a valid one.  The order of the levels comes from the builder, the rest from what the manifest
could hold. -/
theorem ValidVersionSet.of_installAll (short : name.length < 2 ^ 32)
    (run : AdmissibleRun 10 rank vrank value name steps)
    (installed : installAll 10 rank vrank value name steps = .ok vset) :
    ∃ valid : ValidVersionSet rank vrank, valid.vset = vset ∧ valid.name = name := by
  rcases recorded_of_installAll (fun _ => Iteration.stored) short run installed with
    ⟨_, _, recorded⟩
  have tracks := recorded.tracks
  have fits (level : Nat) (file : FileMetaData Bytes) (live : file ∈ vset.current.files level) :=
    recorded.fits_of_new value run (Or.inl (mem_filesAt.mp ((tracks.added level file).mp
      (((tracks.files level).members file).mp live).1)))
  have vfits (level : Nat) (file : FileMetaData Bytes)
      (live : file ∈ vset.current.vfiles level) :=
    recorded.fits_of_new value run (Or.inr (mem_filesAt.mp ((tracks.vadded level file).mp
      (((tracks.vfiles (Or.inr rfl) level).members file).mp live).1)))
  have storable : vset.Storable :=
    ⟨fun level => (recorded.pointers.pointers level).1,
      fun level => (recorded.pointers.vpointers level).1,
      fun level file live => (fits level file live).1,
      fun level file live => (vfits level file live).1⟩
  exact ⟨⟨vset, name, short, tracks.sorted, tracks.chains, tracks.outside, tracks.vsorted rfl,
    tracks.voutside, storable, fun level file live => (fits level file live).2,
    fun level file live => (vfits level file live).2,
    fun level => (recorded.pointers.pointers level).2,
    fun level => (recorded.pointers.vpointers level).2, recorded.logNumber,
    recorded.prevLogNumber, recorded.nextFileNumber, recorded.lastSequence⟩, rfl, rfl⟩

/-- The flush, with a key pointer and a value pointer for level zero. -/
def pointedInstall : Install :=
  { flushInstall with
    edit := { flushInstall.edit with
      compactPointers := [(0, [1])]
      compactVPointers := [(0, [2])] } }

theorem admissibleRun_pointed :
    AdmissibleRun 10 firstByte firstByte (fun _ => 0) [97] [pointedInstall] where
  admissible before step after vset split reached := by
    cases before with
    | nil =>
      cases split
      cases reached
      have flush := admissible_flushInstall
      exact ⟨flush.fresh, flush.distinct, flush.present, flush.vfresh, flush.vdistinct,
        flush.vpresent, flush.dependency⟩
    | cons first before =>
      have lengths := congrArg length split
      simp at lengths
  comparator step member := by
    cases mem_singleton.mp member
    exact nofun
  representable step member := by
    cases mem_singleton.mp member
    have fits : pointedInstall.edit.Representable := by constructor <;> decide +kernel
    exact ⟨fits, by decide, by decide⟩

/-- A new manifest keeps all of the version set after the flush, its two pointers included. -/
theorem reopen_reproduces_pointed : ∃ vset recovered,
    installAll 10 firstByte firstByte (fun _ => 0) [97] [pointedInstall] = .ok vset ∧
      reopen firstByte firstByte (fun _ => 0) ⟨.stored, .stored, .stored⟩
        ⟨.stored, .stored, .stored⟩ (fun _ => .stored) [97] vset = some recovered ∧
      Reproduced recovered vset ∧ recovered.compactVPointers 0 = [2] := by
  have state : (installAll 10 firstByte firstByte (fun _ => 0) [97]
      [pointedInstall]).toOption.map (fun vset => (vset.current.dep.edges,
        pointerLevels (numVLevels 10) vset.compactVPointers,
        pointerLevels kNumLevels vset.compactPointer, vset.compactVPointers 0)) =
      some ([], [0], [0], [2]) := by
    decide +kernel
  rcases Option.map_eq_some_iff.mp state with ⟨vset, some, same⟩
  have installed := eq_ok_of_toOption some
  rcases ValidVersionSet.of_installAll (fun _ => 0) (by decide) admissibleRun_pointed installed
    with ⟨valid, rfl, named⟩
  simp only [Prod.mk.injEq] at same
  rcases same with ⟨dep, vlevels, levels, pointer⟩
  have reproduced := (valid.reopen_reproduces_iff (fun _ => 0) ⟨.stored, .stored, .stored⟩
    ⟨.stored, .stored, .stored⟩ (fun _ => .stored)).mpr ⟨fun number => ?_, ?_⟩
  · rw [named] at reproduced
    rcases reproduced with ⟨recovered, reopened, reproduces⟩
    exact ⟨_, recovered, installed, reopened, reproduces,
      (reproduces.vpointers 0).trans pointer⟩
  · have none : valid.vset.current.dep.root = Dependency.empty.root :=
      (Dependency.root_setParents_empty (Perm.of_eq dep.symm)).symm
    exact congrFun (none.trans Dependency.root_empty) number
  · rw [vlevels, levels]

end Installed

section Lost

open VersionSet

/-- Reopen after a flush and a rewrite of its value file. -/
def reopenAfterMerge (vset : VersionSet) : Option VersionSet :=
  reopen VersionSet.firstByte VersionSet.firstByte (fun _ => 0) ⟨.stored, .stored, .stored⟩
    ⟨.stored, .stored, .stored⟩ (fun _ => .stored) [97] vset

/-- File 5 was rewritten as file 6.  After a reopening nothing leads from 5 to 6. -/
theorem reopen_loses_dependency :
    ∃ vset recovered, VersionSet.installAll 10 VersionSet.firstByte VersionSet.firstByte
        (fun _ => 0) [97] [VersionSet.flushInstall, VersionSet.mergeInstall] = .ok vset ∧
      reopenAfterMerge vset = some recovered ∧
      (vset.current.dep.findParent 5).1 = 6 ∧ (recovered.current.dep.findParent 5).1 = 5 ∧
      ¬ Reproduced recovered vset := by
  have live : ((installAll 10 firstByte firstByte
      (fun _ => 0) [97] [flushInstall, mergeInstall]).toOption.map
        (fun vset => (vset.current.dep.findParent 5).1)) = some 6 := by
    decide +kernel
  have reread : ((installAll 10 firstByte firstByte
      (fun _ => 0) [97] [flushInstall, mergeInstall]).toOption.bind
        reopenAfterMerge).map (fun recovered => (recovered.current.dep.findParent 5).1) =
      some 5 := by
    decide +kernel
  cases installed : installAll 10 firstByte firstByte
      (fun _ => 0) [97] [flushInstall, mergeInstall] with
  | error text =>
    rw [installed] at live
    cases live
  | ok vset =>
    rw [installed] at live reread
    rcases Option.map_eq_some_iff.mp reread with ⟨recovered, reopened, own⟩
    refine ⟨vset, recovered, rfl, reopened, Option.some.inj live, own, fun same => ?_⟩
    have equal := same.findParent 5
    rw [own, show (vset.current.dep.findParent 5).1 = 6 from Option.some.inj live] at equal
    cases equal

end Lost

end Db
end Doux
