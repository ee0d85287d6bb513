import Doux.Foundation.Search
import Doux.Db.Format
import Doux.Db.VersionBuilder

namespace Doux
namespace Db

open Foundation Util List

/-!
# The files of a level by comparators

A builder compares file keys by a comparator, where the rest of the development has ranks.
This module has the lists of one level as the comparators give them.  `Apply` inserts into a
`FileSet`, and `SaveTo` finds the place of every added file by `std::upper_bound`, which halves
an interval.

`InternalKeyComparator` compares a key of fewer than eight bytes as a byte string, and the two
ways to compare do not make an order.  The list then depends on how it was searched and on when
it was saved.  From eight bytes on the comparator is an order, and `VKeyComparator` is one from
sixteen on.  Then the lists are those of a rank.

A `FileSet` is a search tree.  Here it is searched from its first file, which finds the same
place wherever the comparator is an order.
-/

/-- `InternalKey::Encode`. -/
def keyEncode (key : Bytes) : Except String Bytes := do
  assertThat (key ≠ []) "InternalKey::Encode() called with empty rep_!"
  return key

section
variable [LinearOrder UserKey]

/-- `Comparator::Compare` on two internal keys. -/
def fileCompare (a b : Bytes) : Except String Int := do
  let a <- keyEncode a
  let b <- keyEncode b
  return internalKeyCompare a b

/-- The comparator of value files. -/
def vfileCompare (mod : Nat) (a b : Bytes) : Except String Int := do
  if mod = 10 then
    let a <- keyEncode a
    let b <- keyEncode b
    vkeyCompare a b
  else fileCompare a b

end

section
variable (compare : Bytes -> Bytes -> Except String Int)

/-- `BySmallestKey`. -/
def fileLess (first second : FileMetaData Bytes) : Except String Bool := do
  let r <- compare first.smallest second.smallest
  return if r ≠ 0 then decide (r < 0) else decide (first.number < second.number)

/-- `FileSet::insert`. -/
def setInsert (file : FileMetaData Bytes) :
    List (FileMetaData Bytes) -> Except String (List (FileMetaData Bytes))
  | [] => .ok [file]
  | head :: tail => do
    if <- fileLess compare file head then return file :: head :: tail
    else if <- fileLess compare head file then
      let rest <- setInsert file tail
      return head :: rest
    else return head :: tail

/-- Add a file to a level of a builder. -/
def addFile (state : LevelState Bytes) (file : FileMetaData Bytes) :
    Except String (LevelState Bytes) := do
  let added <- setInsert compare file state.addedFiles
  return ⟨state.deletedFiles.erase file.number, added⟩

/-- `Builder::Apply` at one level: the deletions of an edit and then its additions. -/
def applyFiles (level : Nat) (state : LevelState Bytes) (deleted : List (Nat × Nat))
    (added : List (Nat × FileMetaData Bytes)) : Except String (LevelState Bytes) :=
  (filesAt level added).foldlM (addFile compare)
    (((deleted.filter (fun file => file.1 = level)).map Prod.snd).foldl LevelState.delete state)

end

section
variable [LinearOrder UserKey] (level : Nat)

/-- The files of a level in the order in which `SaveTo` meets them.  Keys that were written to a
manifest are not empty, so that no comparison fails here. -/
def mergeFiles : List (FileMetaData Bytes) -> List (FileMetaData Bytes) ->
    List (FileMetaData Bytes)
  | base, [] => base
  | base, file :: added =>
    let place := lowerBound (fun other =>
      (fileLess fileCompare file other).toOption == some false) base
    base.take place ++ file :: mergeFiles (base.drop place) added

/-- The file may be followed by the other one above level zero.  A comparison that fails stops
the program as an overlap does. -/
def EndsBefore (first second : FileMetaData Bytes) : Prop :=
  ∃ r ∈ (fileCompare first.largest second.smallest).toOption, r < 0

instance : DecidableRel EndsBefore := fun _ _ =>
  inferInstanceAs (Decidable (∃ r ∈ Except.toOption _, r < 0))

/-- The key files of a level in `SaveTo`. -/
def saveFiles (base : List (FileMetaData Bytes)) (state : LevelState Bytes) :
    Except String (List (FileMetaData Bytes)) :=
  saveMerged EndsBefore level state (mergeFiles base state.addedFiles)

/-- The key files of a level as `LogAndApply` installs them: a new builder for every edit, on
the files that the edits before it have left. -/
def installFiles (edits : List ManifestEdit) : Except String (List (FileMetaData Bytes)) :=
  edits.foldlM (fun base edit => do
    let state <- applyFiles fileCompare level .empty edit.deletedFiles.files edit.newFiles
    saveFiles level base state) []

/-- The key files of a level as `Recover` builds them: one builder for all edits. -/
def replayFiles (edits : List ManifestEdit) : Except String (List (FileMetaData Bytes)) := do
  let state <- edits.foldlM (fun state edit =>
    applyFiles fileCompare level state edit.deletedFiles.files edit.newFiles) .empty
  saveFiles level [] state

end

/-- On keys that are long enough the comparator has the sign of a rank. -/
structure Ranks {L : Type} [LinearOrder L] (compare : Bytes -> Bytes -> Except String Int)
    (size : Nat) (rank : Bytes -> L) : Prop where
  compares : forall a b, size ≤ a.length -> size ≤ b.length ->
    ∃ r, compare a b = .ok r ∧ Compares r (rank a) (rank b)

/-- The keys of the files are long enough. -/
def LongKeys (size : Nat) (files : List (FileMetaData Bytes)) : Prop :=
  ∀ file ∈ files, size ≤ file.smallest.length ∧ size ≤ file.largest.length

instance (size : Nat) (files : List (FileMetaData Bytes)) : Decidable (LongKeys size files) :=
  inferInstanceAs (Decidable (∀ file ∈ files, _))

theorem LongKeys.filesAt {size : Nat} {files : List (Nat × FileMetaData Bytes)}
    (long : LongKeys size (files.map Prod.snd)) (level : Nat) :
    LongKeys size (filesAt level files) :=
  fun file member => long file (mem_map.mpr ⟨_, mem_filesAt.mp member, rfl⟩)

namespace Ranks

variable {L : Type} [LinearOrder L] {compare : Bytes -> Bytes -> Except String Int} {size : Nat}
  {rank : Bytes -> L} (ranks : Ranks compare size rank)
include ranks

theorem fileLess_eq {first second : FileMetaData Bytes} (long : size ≤ first.smallest.length)
    (other : size ≤ second.smallest.length) : fileLess compare first second =
      .ok (decide (bySmallestKey rank first < bySmallestKey rank second)) := by
  rcases ranks.compares _ _ long other with ⟨r, isR, sign⟩
  have both := sign.lex (Compares.of_lt_first first.number second.number)
  unfold fileLess
  rw [isR]
  refine congrArg Except.ok ?_
  unfold bySmallestKey
  simp only [<- both.lt]
  by_cases same : r = 0
  · by_cases below : first.number < second.number <;> simp [same, below]
    split <;> decide
  · simp [same]

theorem setInsert_eq {file : FileMetaData Bytes} {set : List (FileMetaData Bytes)}
    (known : LongKeys size set) (long : size ≤ file.smallest.length) :
    setInsert compare file set = .ok (insertBy (bySmallestKey rank) file set) := by
  induction set with
  | nil => rfl
  | cons head tail ih =>
    rcases forall_mem_cons.mp known with ⟨here, later⟩
    simp only [setInsert, insertBy, ranks.fileLess_eq long here.1, ranks.fileLess_eq here.1 long,
      ih later, bind, Except.bind, decide_eq_true_iff]
    split
    · rfl
    · split <;> rfl

theorem applyFiles_eq (levels : Nat -> LevelState Bytes) {level : Nat} (deleted : List (Nat × Nat))
    {added : List (Nat × FileMetaData Bytes)} (known : LongKeys size (levels level).addedFiles)
    (long : LongKeys size (filesAt level added)) :
    applyFiles compare level (levels level) deleted added =
        .ok (applyLevels rank levels deleted added level) ∧
      LongKeys size (applyLevels rank levels deleted added level).addedFiles := by
  have removed : deleted.foldl deleteAt levels level = _ :=
    foldl_update_apply _ levels deleted level
  have inserted : applyLevels rank levels deleted added level =
      (filesAt level added).foldl (LevelState.add rank) _ :=
    foldl_update_apply _ _ added level
  unfold applyFiles
  rw [<- removed, inserted]
  rw [<- (foldl_deleteAt levels deleted level).1] at known
  generalize deleted.foldl deleteAt levels level = state at known
  generalize filesAt level added = files at long
  induction files generalizing state with
  | nil => exact ⟨rfl, known⟩
  | cons file files ih =>
    rcases forall_mem_cons.mp long with ⟨here, later⟩
    have first : addFile compare state file = .ok (state.add rank file) :=
      bind_eq_ok.mpr ⟨_, ranks.setInsert_eq known here.1, rfl⟩
    rw [foldlM_cons, first]
    refine ih _ (fun other member => ?_) later
    rcases mem_of_mem_insertBy member with rfl | old
    · exact here
    · exact known other old

end Ranks

theorem keyEncode_of_le {key : Bytes} {size : Nat} (long : size + 1 ≤ key.length) :
    keyEncode key = .ok key :=
  assertThat_return_eq_ok.mpr ⟨ne_nil_of_length_pos (by omega), rfl⟩

section
variable [LinearOrder UserKey]

/-- The internal key that the comparator reads in a file key. -/
def internalRank (key : Bytes) : InternalKey := (InternalKey.decode key).getD ⟨⟨[]⟩, 0⟩

/-- The vkey that the comparator reads in a file key. -/
def vkeyRank (key : Bytes) : VKey := (VKey.decode key).toOption.getD ⟨[], 0, 0⟩

theorem ranks_fileCompare : Ranks fileCompare 8 internalRank := by
  refine ⟨fun a b long other => ?_⟩
  rcases exists_internalKey_encode (not_lt.mpr long) with ⟨first, rfl⟩
  rcases exists_internalKey_encode (not_lt.mpr other) with ⟨second, rfl⟩
  refine ⟨internalKeyCompare first.encode second.encode, ?_, ?_⟩
  · exact bind_eq_ok.mpr ⟨_, keyEncode_of_le long, bind_eq_ok.mpr ⟨_, keyEncode_of_le other, rfl⟩⟩
  · rw [internalRank, internalRank, InternalKey.decode_encode, InternalKey.decode_encode]
    exact internalKeyCompare_encode first second

/-- The size from which on the comparator of value files is an order. -/
def vkeySize (mod : Nat) : Nat := if mod = 10 then 16 else 8

theorem ranks_vfileCompare : Ranks (vfileCompare 10) 16 vkeyRank := by
  refine ⟨fun a b long other => ?_⟩
  rcases exists_vkey_encode long with ⟨first, rfl⟩
  rcases exists_vkey_encode other with ⟨second, rfl⟩
  rcases VKey.vkeyCompare_encode first second with ⟨r, compared, sign⟩
  refine ⟨r, bind_eq_ok.mpr ⟨_, keyEncode_of_le long, bind_eq_ok.mpr
    ⟨_, keyEncode_of_le other, compared⟩⟩, ?_⟩
  rw [vkeyRank, vkeyRank, VKey.decode_encode, VKey.decode_encode]
  exact sign

section
variable {base : List (FileMetaData Bytes)} {state : LevelState Bytes} {level : Nat}
  (sorted : SortedBy (bySmallestKey internalRank) base) (known : LongKeys 8 base)
include sorted known

theorem mergeFiles_eq {added : List (FileMetaData Bytes)} (long : LongKeys 8 added) :
    mergeFiles base added = mergeBy (bySmallestKey internalRank) base added := by
  induction added generalizing base with
  | nil => rfl
  | cons file added ih =>
    rcases forall_mem_cons.mp long with ⟨here, later⟩
    have tests : ∀ other ∈ base, ((fileLess fileCompare file other).toOption == some false) =
        decide (¬ bySmallestKey internalRank file < bySmallestKey internalRank other) := by
      intro other isOther
      rw [ranks_fileCompare.fileLess_eq here.1 (known other isOther).1, decide_not]
      cases decide (bySmallestKey internalRank file < bySmallestKey internalRank other) <;> rfl
    rcases split_lowerBound (sorted.upTo file) tests with ⟨front, back⟩
    rw [mergeFiles, mergeBy, front, back]
    rw [ih (Pairwise.sublist (dropWhile_sublist _) sorted) (fun other isOther =>
      known other (dropWhile_subset _ isOther)) later]

theorem saveFiles_eq_ok (long : LongKeys 8 state.addedFiles) {files : List (FileMetaData Bytes)} :
    saveFiles level base state = .ok files <->
      saveLevel internalRank level base state = .ok files := by
  unfold saveFiles saveLevel
  rw [mergeFiles_eq sorted known long]
  refine saveMerged_eq_ok.trans (Iff.trans ?_ saveMerged_eq_ok.symm)
  refine and_congr_right fun _ => imp_congr_right fun _ => IsChain.iff_of_mem_imp ?_
  intro first second isFirst isSecond
  have inside {file : FileMetaData Bytes} (isFile : file ∈ state.kept (mergeBy
      (bySmallestKey internalRank) base state.addedFiles)) :
      8 ≤ file.smallest.length ∧ 8 ≤ file.largest.length :=
    (mem_mergeBy.mp (mem_of_mem_filter isFile)).elim (known file) (long file)
  rcases ranks_fileCompare.compares _ _ (inside isFirst).2 (inside isSecond).1 with
    ⟨r, isR, sign⟩
  unfold EndsBefore Before
  simp [isR, Except.toOption, sign.lt]

/-- With long keys `LogAndApply` installs the files that the ranks give. -/
theorem installFiles_snoc {edits : List ManifestEdit} {edit : ManifestEdit}
    {files : List (FileMetaData Bytes)} (new : LongKeys 8 (edit.newFiles.map Prod.snd))
    (earlier : installFiles level edits = .ok base)
    (saved : saveLevel internalRank level base (applyLevels internalRank (fun _ => .empty)
      edit.deletedFiles.files edit.newFiles level) = .ok files) :
    installFiles level (edits ++ [edit]) = .ok files := by
  rcases ranks_fileCompare.applyFiles_eq (fun _ => .empty) edit.deletedFiles.files
    (forall_mem_nil _) (new.filesAt level) with ⟨applied, long⟩
  exact foldlM_concat_eq_ok.mpr ⟨_, earlier, bind_eq_ok.mpr
    ⟨_, applied, (saveFiles_eq_ok sorted known long).mpr saved⟩⟩

end

end

/-- What a builder has collected from some edits, of their key files or of their value files. -/
def collected {K L T : Type} [LinearOrder L] (rank : K -> L) (deleted : T -> DeletedFileSet)
    (added : T -> List (Nat × FileMetaData K)) (edits : List T) : Nat -> LevelState K :=
  edits.foldl (fun levels edit => applyLevels rank levels (deleted edit).files (added edit))
    (fun _ => .empty)

theorem Ranks.foldlM_applyFiles {L T : Type} [LinearOrder L] {rank : Bytes -> L} {size : Nat}
    {compare : Bytes -> Bytes -> Except String Int} (ranks : Ranks compare size rank)
    (deleted : T -> DeletedFileSet) {added : T -> List (Nat × FileMetaData Bytes)}
    {edits : List T} (long : ∀ edit ∈ edits, LongKeys size ((added edit).map Prod.snd))
    (level : Nat) : edits.foldlM (fun state edit =>
      applyFiles compare level state (deleted edit).files (added edit)) .empty =
        .ok (collected rank deleted added edits level) ∧
      LongKeys size (collected rank deleted added edits level).addedFiles := by
  induction edits using reverseRecOn with
  | nil => exact ⟨rfl, forall_mem_nil _⟩
  | append_singleton edits edit ih =>
    rcases forall_mem_concat.mp long with ⟨earlier, last⟩
    rcases ih earlier with ⟨applied, known⟩
    rcases ranks.applyFiles_eq _ (deleted edit).files known (last.filesAt level) with
      ⟨next, rest⟩
    rw [collected, foldl_append]
    exact ⟨foldlM_concat_eq_ok.mpr ⟨_, applied, next⟩, rest⟩

section
variable [LinearOrder UserKey] {edits : List ManifestEdit}
  (long : ∀ edit ∈ edits, LongKeys 8 (edit.newFiles.map Prod.snd)) (level : Nat)
include long

/-- With long keys `Recover` builds the files that the ranks give. -/
theorem replayFiles_eq_ok {files : List (FileMetaData Bytes)} :
    replayFiles level edits = .ok files <-> saveLevel internalRank level []
      (collected internalRank VersionEdit.deletedFiles VersionEdit.newFiles edits level) =
        .ok files := by
  rcases ranks_fileCompare.foldlM_applyFiles VersionEdit.deletedFiles long level with
    ⟨applied, known⟩
  unfold replayFiles
  rw [applied]
  exact saveFiles_eq_ok Pairwise.nil (forall_mem_nil _) known

end

end Db
end Doux
