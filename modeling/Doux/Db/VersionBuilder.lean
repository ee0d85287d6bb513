import Doux.Db.VersionEdit

namespace Doux
namespace Db

open Foundation Util List

/-!
# Building a version

`VersionSet::Builder` collects the changes of one or more edits and then writes
the next version: at every level the files of the base version are merged with
the added files, and deleted files are left out.  Above level zero the files of
a level must not overlap, which `MaybeAddFile` asserts.

Keys are compared through a rank in a linear order, so that a comparator may
identify different keys.  The iteration order of the dependency maps is an
argument of every function that iterates over one.
-/

/-- The order in which an iteration meets the entries of a dependency map. -/
structure Iteration where
  order : List (Nat × Nat) -> List (Nat × Nat)
  perm : forall edges, (order edges).Perm edges

theorem Iteration.order_nil (iteration : Iteration) : iteration.order [] = [] :=
  perm_nil.mp (iteration.perm [])

/-- Iterate in the order in which the entries are stored. -/
def Iteration.stored : Iteration := ⟨fun edges => edges, fun _ => List.Perm.refl _⟩

/-- The edit as it comes back from its record. -/
def VersionEdit.reread {K V : Type} (writeIteration : Iteration) (edit : VersionEdit K V) :
    VersionEdit K V :=
  { edit with dep := Dependency.empty.setParents (writeIteration.order edit.dep.edges) }

/-- The files of a version and its dependency map. -/
structure Version (K V : Type) where
  files : Nat -> List (FileMetaData K)
  vfiles : Nat -> List (FileMetaData V)
  dep : Dependency

def Version.empty {K V : Type} : Version K V := ⟨fun _ => [], fun _ => [], .empty⟩

/-- The number of levels of value files, which depends on `adgMod::MOD`. -/
def numVLevels (mod : Nat) : Nat := if mod = 10 then 2 else kNumLevels

structure LevelState (K : Type) where
  deletedFiles : Finset Nat
  addedFiles : List (FileMetaData K)

def LevelState.empty {K : Type} : LevelState K := ⟨∅, []⟩

structure Builder (K V : Type) where
  base : Version K V
  levels : Nat -> LevelState K
  vlevels : Nat -> LevelState V
  curDep : Dependency

def Builder.new {K V : Type} (base : Version K V) : Builder K V :=
  ⟨base, fun _ => .empty, fun _ => .empty, .empty⟩

variable {K V L M : Type} [LinearOrder L] [LinearOrder M] (mod : Nat) (rank : K -> L)
  (vrank : V -> M)

/-- `BySmallestKey`: compare the smallest keys, then the file numbers. -/
def bySmallestKey (file : FileMetaData K) : L ×ₗ Nat := toLex (rank file.smallest, file.number)

def LevelState.delete (state : LevelState K) (number : Nat) : LevelState K :=
  { state with deletedFiles := insert number state.deletedFiles }

def LevelState.add (state : LevelState K) (file : FileMetaData K) : LevelState K :=
  ⟨state.deletedFiles.erase file.number, insertBy (bySmallestKey rank) file state.addedFiles⟩

def deleteAt (levels : Nat -> LevelState K) (file : Nat × Nat) : Nat -> LevelState K :=
  Function.update levels file.1 ((levels file.1).delete file.2)

def addAt (levels : Nat -> LevelState K) (file : Nat × FileMetaData K) : Nat -> LevelState K :=
  Function.update levels file.1 ((levels file.1).add rank file.2)

/-- The deletions of an edit and then its additions. -/
def applyLevels (levels : Nat -> LevelState K) (deleted : List (Nat × Nat))
    (added : List (Nat × FileMetaData K)) : Nat -> LevelState K :=
  added.foldl (addAt rank) (deleted.foldl deleteAt levels)

/-- The files `first` and `second` may follow each other above level zero. -/
def Before (first second : FileMetaData K) : Prop := rank first.largest < rank second.smallest

instance (first second : FileMetaData K) : Decidable (Before rank first second) :=
  inferInstanceAs (Decidable (_ < _))

section Save
variable (before : FileMetaData K -> FileMetaData K -> Prop) [DecidableRel before]

/-- `MaybeAddFile`, where `before` says which files may follow each other above level zero. -/
def maybeAddFile (level : Nat) (deleted : Finset Nat) (files : List (FileMetaData K))
    (file : FileMetaData K) : Except String (List (FileMetaData K)) :=
  if file.number ∈ deleted then
    .ok files
  else do
    assertThat (level > 0 -> ∀ last ∈ files.getLast?, before last file)
      "icmp_.Compare((*files)[files->size() - 1]->largest, f->smallest) < 0"
    return files ++ [file]

/-- The files of a level, in the order in which `SaveTo` meets them. -/
def saveMerged (level : Nat) (state : LevelState K) (merged : List (FileMetaData K)) :
    Except String (List (FileMetaData K)) := do
  let files <- merged.foldlM (maybeAddFile before level state.deletedFiles) []
  assertThat (level > 0 -> files.IsChain before) "overlapping ranges in same level"
  return files

end Save

/-- One level of `SaveTo`. -/
def saveLevel (level : Nat) (base : List (FileMetaData K)) (state : LevelState K) :
    Except String (List (FileMetaData K)) :=
  saveMerged (Before rank) level state (mergeBy (bySmallestKey rank) base state.addedFiles)

/-- The files that are not deleted; this is what `MaybeAddVFile` passes on. -/
def LevelState.kept (state : LevelState K) (files : List (FileMetaData K)) :
    List (FileMetaData K) :=
  files.filter (fun file => decide (file.number ∉ state.deletedFiles))

/-- One level of value files in `SaveTo`, for `MOD` 9 and 10. -/
def saveVLevel (mod : Nat) (base : List (FileMetaData K)) (state : LevelState K) :
    List (FileMetaData K) :=
  if mod = 10 then state.kept (mergeBy (bySmallestKey rank) base state.addedFiles)
  else state.kept (base ++ state.addedFiles)

namespace Builder

/-- The changes of an edit, collected in the builder. -/
def applied (iteration : Iteration) (builder : Builder K V) (edit : VersionEdit K V) :
    Builder K V :=
  { builder with
    levels := applyLevels rank builder.levels edit.deletedFiles.files edit.newFiles
    vlevels := applyLevels vrank builder.vlevels edit.deletedVFiles.files edit.newVFiles
    curDep := builder.curDep.setParents (iteration.order edit.dep.edges) }

/-- `Builder::Apply` without the compaction pointers.  A level outside the
arrays of the builder is an error. -/
def apply (iteration : Iteration) (builder : Builder K V) (edit : VersionEdit K V) :
    Except String (Builder K V) := do
  assertThat ((∀ file ∈ edit.deletedFiles.files, file.1 < kNumLevels) ∧
    (∀ file ∈ edit.newFiles, file.1 < kNumLevels)) "levels_[level]"
  assertThat ((∀ file ∈ edit.deletedVFiles.files, file.1 < numVLevels mod) ∧
    (∀ file ∈ edit.newVFiles, file.1 < numVLevels mod)) "vlevels_[level]"
  return builder.applied rank vrank iteration edit

/-- The value files written by `SaveTo`. -/
def savedVFiles (builder : Builder K V) (level : Nat) : List (FileMetaData V) :=
  if (mod = 9 ∨ mod = 10) ∧ level < numVLevels mod then
    saveVLevel vrank mod (builder.base.vfiles level) (builder.vlevels level)
  else []

/-- The dependency map written by `SaveTo`. -/
def savedDep (baseIteration curIteration : Iteration) (builder : Builder K V) : Dependency :=
  if mod = 10 then
    (Dependency.empty.setParents (baseIteration.order builder.base.dep.edges)).setParents
      (curIteration.order builder.curDep.edges)
  else .empty

/-- `Builder::SaveTo`. -/
def saveTo (baseIteration curIteration : Iteration) (builder : Builder K V) :
    Except String (Version K V) := do
  let files <- (List.range kNumLevels).mapM
    (fun level => saveLevel rank level (builder.base.files level) (builder.levels level))
  return ⟨fun level => files.getD level [], builder.savedVFiles mod vrank,
    builder.savedDep mod baseIteration curIteration⟩

end Builder

/-- The files of an edit that go to one level. -/
def filesAt (level : Nat) (files : List (Nat × FileMetaData K)) : List (FileMetaData K) :=
  (files.filter (fun file => file.1 = level)).map Prod.snd

theorem filesAt_map (level at_ : Nat) (files : List (FileMetaData K)) :
    filesAt level (files.map (fun file => (at_, file))) = if level = at_ then files else [] := by
  by_cases here : level = at_
  · simp [filesAt, filter_map, Function.comp_def, here]
  · simp [filesAt, filter_map, Function.comp_def, here, Ne.symm here]

theorem mem_filesAt {level : Nat} {files : List (Nat × FileMetaData K)} {file : FileMetaData K} :
    file ∈ filesAt level files <-> (level, file) ∈ files := by
  unfold filesAt
  simp [mem_map]

theorem filesAt_eq_nil {T : Type} {count level : Nat} {files : List (Nat × FileMetaData T)}
    (range : ∀ file ∈ files, file.1 < count) (outside : count ≤ level) :
    filesAt level files = [] :=
  eq_nil_iff_forall_not_mem.mpr fun _ member =>
    absurd (range _ (mem_filesAt.mp member)) (not_lt.mpr outside)

theorem filesAt_cons (level : Nat) (file : Nat × FileMetaData K)
    (files : List (Nat × FileMetaData K)) : filesAt level (file :: files) =
      if file.1 = level then file.2 :: filesAt level files else filesAt level files := by
  unfold filesAt
  rw [filter_cons]
  by_cases here : file.1 = level
  · rw [if_pos (decide_eq_true here), if_pos here, map_cons]
  · rw [if_neg (fun holds => here (of_decide_eq_true holds)), if_neg here]

theorem filesAt_append (level : Nat) (first second : List (Nat × FileMetaData K)) :
    filesAt level (first ++ second) = filesAt level first ++ filesAt level second := by
  unfold filesAt
  rw [filter_append, map_append]

variable (levels : Nat -> LevelState K)

theorem foldl_deleteAt (deleted : List (Nat × Nat)) (level : Nat) :
    (deleted.foldl deleteAt levels level).addedFiles = (levels level).addedFiles ∧
      ∀ number, number ∈ (deleted.foldl deleteAt levels level).deletedFiles <->
        number ∈ (levels level).deletedFiles ∨ (level, number) ∈ deleted := by
  have all (state : LevelState K) (numbers : List Nat) :
      (numbers.foldl LevelState.delete state).addedFiles = state.addedFiles ∧
        ∀ number, number ∈ (numbers.foldl LevelState.delete state).deletedFiles <->
          number ∈ state.deletedFiles ∨ number ∈ numbers := by
    induction numbers generalizing state with
    | nil => simp
    | cons removed numbers ih =>
      refine ⟨(ih _).1, fun number => ?_⟩
      rw [foldl_cons, (ih _).2, LevelState.delete, Finset.mem_insert, mem_cons]
      tauto
  rw [show deleted.foldl deleteAt levels level = _ from foldl_update_apply _ levels deleted level]
  simpa using all (levels level) ((deleted.filter (fun file => file.1 = level)).map Prod.snd)

theorem foldl_addAt (files : List (Nat × FileMetaData K))
    (level : Nat) : (files.foldl (addAt rank) levels level).addedFiles =
        insertAllBy (bySmallestKey rank) (levels level).addedFiles (filesAt level files) ∧
      ∀ number, number ∈ (files.foldl (addAt rank) levels level).deletedFiles <->
        number ∈ (levels level).deletedFiles ∧
          ∀ file ∈ filesAt level files, file.number ≠ number := by
  have same : files.foldl (addAt rank) levels level =
      (filesAt level files).foldl (LevelState.add rank) (levels level) :=
    foldl_update_apply _ levels files level
  rw [same]
  generalize levels level = state
  induction filesAt level files generalizing state with
  | nil => exact ⟨rfl, fun number => by simp⟩
  | cons file files ih =>
    refine ⟨(ih _).1, fun number => ?_⟩
    rw [foldl_cons, (ih _).2, LevelState.add, Finset.mem_erase, forall_mem_cons,
      and_comm (b := _ ∈ _),
      and_assoc, ne_comm]

theorem applyLevels_spec (deleted : List (Nat × Nat))
    (files : List (Nat × FileMetaData K)) (level : Nat) :
    (applyLevels rank levels deleted files level).addedFiles =
        insertAllBy (bySmallestKey rank) (levels level).addedFiles (filesAt level files) ∧
      ∀ number, number ∈ (applyLevels rank levels deleted files level).deletedFiles <->
        (number ∈ (levels level).deletedFiles ∨ (level, number) ∈ deleted) ∧
          ∀ file ∈ filesAt level files, file.number ≠ number := by
  rcases foldl_addAt rank (deleted.foldl deleteAt levels) files level with ⟨added, members⟩
  rcases foldl_deleteAt levels deleted level with ⟨kept, removed⟩
  rw [kept] at added
  refine ⟨added, fun number => ?_⟩
  rw [applyLevels, members number, removed number]

section Save
variable {before : FileMetaData K -> FileMetaData K -> Prop} [DecidableRel before]

theorem foldlM_maybeAddFile (level : Nat) (state : LevelState K)
    (files done : List (FileMetaData K)) (chain : level > 0 -> done.IsChain before)
    (result : List (FileMetaData K)) :
    files.foldlM (maybeAddFile before level state.deletedFiles) done = .ok result <->
      result = done ++ state.kept files ∧
        (level > 0 -> (done ++ state.kept files).IsChain before) := by
  induction files generalizing done with
  | nil =>
    rw [LevelState.kept, filter_nil, append_nil]
    constructor
    · intro equal
      cases equal
      exact ⟨rfl, chain⟩
    · rintro ⟨equal, _⟩
      rw [equal]
      rfl
  | cons file files ih =>
    rw [foldlM_cons, maybeAddFile]
    by_cases gone : file.number ∈ state.deletedFiles
    · rw [if_pos gone, LevelState.kept, filter_cons_of_neg (by simpa using gone)]
      exact ih done chain
    · rw [if_neg gone, LevelState.kept, filter_cons_of_pos (by simpa using gone)]
      have extends_ : (level > 0 -> (done ++ [file]).IsChain before) <->
          (level > 0 -> ∀ last ∈ done.getLast?, before last file) := by
        apply imp_congr_right
        intro positive
        rw [isChain_append]
        simp [chain positive]
      by_cases fits : level > 0 -> ∀ last ∈ done.getLast?, before last file
      · have later := ih (done ++ [file]) (extends_.mpr fits)
        rw [append_assoc] at later
        rw [assertThat_of fits]
        exact later
      · rw [assertThat_of_not fits]
        refine ⟨nofun, fun ⟨_, whole⟩ => absurd (extends_.mp fun positive => ?_) fits⟩
        have chained := whole positive
        rw [<- singleton_append, <- append_assoc] at chained
        exact chained.left_of_append

theorem saveMerged_eq_ok {level : Nat} {state : LevelState K}
    {merged files : List (FileMetaData K)} : saveMerged before level state merged = .ok files <->
      files = state.kept merged ∧ (level > 0 -> (state.kept merged).IsChain before) := by
  have run := foldlM_maybeAddFile level state merged [] (fun _ => (isChain_nil : [].IsChain before))
  rw [nil_append] at run
  rw [saveMerged, bind_eq_ok]
  simp only [run, assertThat_return_eq_ok]
  constructor
  · rintro ⟨_, ⟨rfl, chain⟩, _, rfl⟩
    exact ⟨rfl, chain⟩
  · rintro ⟨rfl, chain⟩
    exact ⟨_, ⟨rfl, chain⟩, chain, rfl⟩

end Save

namespace Builder

/-- The levels of an edit lie inside the arrays of a builder. -/
def InRange (edit : VersionEdit K V) : Prop :=
  ((∀ file ∈ edit.deletedFiles.files, file.1 < kNumLevels) ∧
    (∀ file ∈ edit.newFiles, file.1 < kNumLevels)) ∧
  ((∀ file ∈ edit.deletedVFiles.files, file.1 < numVLevels mod) ∧
    (∀ file ∈ edit.newVFiles, file.1 < numVLevels mod))

variable {builder : Builder K V} {edit : VersionEdit K V}

theorem apply_eq_ok {iteration : Iteration} {next : Builder K V} :
    builder.apply mod rank vrank iteration edit = .ok next <->
      InRange mod edit ∧ next = builder.applied rank vrank iteration edit := by
  unfold apply InRange
  rw [assertThat_bind_eq_ok, assertThat_bind_eq_ok]
  constructor
  · rintro ⟨first, second, equal⟩
    cases equal
    exact ⟨⟨first, second⟩, rfl⟩
  · rintro ⟨⟨first, second⟩, equal⟩
    exact ⟨first, second, by rw [equal]; rfl⟩

theorem applied_eq_self (iteration : Iteration) (builder : Builder K V)
    (files : edit.newFiles = []) (deleted : edit.deletedFiles.files = [])
    (vfiles : edit.newVFiles = []) (vdeleted : edit.deletedVFiles.files = [])
    (dep : edit.dep.edges = []) : builder.applied rank vrank iteration edit = builder := by
  unfold applied
  rw [files, deleted, vfiles, vdeleted, dep, iteration.order_nil]
  rfl

/-- The key files that `SaveTo` writes unless an assertion fails. -/
def savedFiles (builder : Builder K V) (level : Nat) : List (FileMetaData K) :=
  if level < kNumLevels then
    (builder.levels level).kept
      (mergeBy (bySmallestKey rank) (builder.base.files level) (builder.levels level).addedFiles)
  else []

theorem saveTo_eq_ok {baseIteration curIteration : Iteration} {version : Version K V} :
    builder.saveTo mod rank vrank baseIteration curIteration = .ok version <->
      version = ⟨builder.savedFiles rank, builder.savedVFiles mod vrank,
        builder.savedDep mod baseIteration curIteration⟩ ∧
      ∀ level, level > 0 -> (builder.savedFiles rank level).IsChain (Before rank) := by
  let kept := fun level => (builder.levels level).kept
    (mergeBy (bySmallestKey rank) (builder.base.files level) (builder.levels level).addedFiles)
  have levels (files : List (List (FileMetaData K))) : (range kNumLevels).mapM (fun level =>
        saveLevel rank level (builder.base.files level) (builder.levels level)) = .ok files <->
        files = (range kNumLevels).map kept ∧ ∀ level ∈ range kNumLevels,
          level > 0 -> (kept level).IsChain (Before rank) :=
    mapM_eq_ok (fun level files => saveMerged_eq_ok) (range kNumLevels) files
  have saved : (fun level => ((range kNumLevels).map kept).getD level []) =
      builder.savedFiles rank := by
    funext level
    unfold savedFiles
    by_cases inside : level < kNumLevels
    · rw [if_pos inside, getD_eq_getElem?_getD, getElem?_map, getElem?_range inside]
      rfl
    · rw [if_neg inside, getD_eq_getElem?_getD, getElem?_eq_none, Option.getD_none]
      rw [length_map, length_range]
      omega
  have chains : (∀ level ∈ range kNumLevels, level > 0 -> (kept level).IsChain (Before rank)) <->
      ∀ level, level > 0 -> (builder.savedFiles rank level).IsChain (Before rank) := by
    constructor
    · intro all level positive
      unfold savedFiles
      by_cases inside : level < kNumLevels
      · rw [if_pos inside]
        exact all level (mem_range.mpr inside) positive
      · rw [if_neg inside]
        exact isChain_nil
    · intro all level member positive
      have chain := all level positive
      unfold savedFiles at chain
      rw [if_pos (mem_range.mp member)] at chain
      exact chain
  rw [saveTo, bind_eq_ok]
  simp only [levels]
  constructor
  · rintro ⟨_, ⟨rfl, all⟩, ⟨⟩⟩
    rw [saved]
    exact ⟨rfl, chains.mp all⟩
  · rintro ⟨rfl, all⟩
    exact ⟨_, ⟨rfl, chains.mpr all⟩, by rw [saved]; rfl⟩

end Builder

/-! ## One edit -/

/-- The files of a level after one edit, before the checks of `SaveTo`. -/
def editedFiles (level : Nat) (base : List (FileMetaData K)) (deleted : List (Nat × Nat))
    (added : List (Nat × FileMetaData K)) : List (FileMetaData K) :=
  (applyLevels rank (fun _ => .empty) deleted added level).kept (mergeBy (bySmallestKey rank) base
      (applyLevels rank (fun _ => .empty) deleted added level).addedFiles)

/-- Added files have numbers of their own. -/
structure FreshNumbers (base added : List (FileMetaData K)) : Prop where
  fresh : ∀ file ∈ added, ∀ old ∈ base, old.number ≠ file.number
  distinct : ∀ file ∈ added, ∀ other ∈ added, file.number = other.number -> file = other

variable {rank}

omit [LinearOrder L] in
theorem number_eq_of_key {first second : FileMetaData K}
    (same : bySmallestKey rank first = bySmallestKey rank second) : first.number = second.number :=
  congrArg (fun key => (ofLex key).2) same

section
variable {level : Nat} {base : List (FileMetaData K)} {deleted : List (Nat × Nat)}
  {added : List (Nat × FileMetaData K)} (numbers : FreshNumbers base (filesAt level added))
include numbers

theorem FreshNumbers.mem_addedFiles {file : FileMetaData K} :
    file ∈ (applyLevels rank (fun _ => .empty) deleted added level).addedFiles <->
      file ∈ filesAt level added := by
  rw [(applyLevels_spec rank (fun _ => LevelState.empty) deleted added level).1, mem_insertAllBy]
  · exact ⟨fun either => either.elim (fun member => by cases member) id, Or.inr⟩
  · intro b c new other same
    rcases other with old | other
    · cases old
    · exact numbers.distinct c other b new (number_eq_of_key same)

theorem FreshNumbers.mem_editedFiles {file : FileMetaData K} :
    file ∈ editedFiles rank level base deleted added <->
      (file ∈ base ∧ (level, file.number) ∉ deleted) ∨ file ∈ filesAt level added := by
  unfold editedFiles LevelState.kept
  rw [mem_filter, mem_mergeBy, numbers.mem_addedFiles, decide_eq_true_iff,
    (applyLevels_spec rank (fun _ => LevelState.empty) deleted added level).2]
  constructor
  · rintro ⟨old | new, stays⟩
    · refine Or.inl ⟨old, fun gone => stays ⟨Or.inr gone, fun other isNew => ?_⟩⟩
      exact (numbers.fresh other isNew file old).symm
    · exact Or.inr new
  · rintro (⟨old, stays⟩ | new)
    · refine ⟨Or.inl old, fun gone => ?_⟩
      rcases gone.1 with impossible | now
      · cases impossible
      · exact stays now
    · exact ⟨Or.inr new, fun gone => gone.2 file new rfl⟩

theorem FreshNumbers.sorted_editedFiles (sorted : SortedBy (bySmallestKey rank) base) :
    SortedBy (bySmallestKey rank) (editedFiles rank level base deleted added) := by
  apply SortedBy.filter
  apply sorted.mergeBy
  · rw [(applyLevels_spec rank (fun _ => LevelState.empty) deleted added level).1]
    have none : SortedBy (bySmallestKey rank) [] := Pairwise.nil
    exact none.insertAllBy _
  · intro new memberNew old memberOld same
    exact numbers.fresh new (numbers.mem_addedFiles.mp memberNew) old memberOld
      (number_eq_of_key same).symm

end

variable {vrank}

theorem Builder.savedFiles_applied (base : Version K V) (iteration : Iteration)
    (edit : VersionEdit K V) {level : Nat} (inside : level < kNumLevels) :
    ((new base).applied rank vrank iteration edit).savedFiles rank level =
      editedFiles rank level (base.files level) edit.deletedFiles.files edit.newFiles := by
  unfold savedFiles
  rw [if_pos inside]
  rfl

end Db
end Doux
