import Doux.Db.FileOrder
import Doux.Db.VersionSet

namespace Doux
namespace Db

open Foundation Util List

/-!
# Replaying a manifest

A running database builds a version after every edit; recovery collects all
edits in one builder and builds a version once.  Both give the same version.

For one level the relation between the two is `Mirrors`: the live files are the
files added so far without those deleted so far.  It is kept by every edit that
adds new numbers only and deletes only files that are present.  Both lists are
in key order, so the same files in both means the same list.

For the dependency map the relation is equality of all roots.  Every edit maps
some live value files to one new output, and gathering trees under a root does
not depend on the order in which the map is iterated.
-/

section Level
variable {K L : Type} [LinearOrder L] (rank : K -> L)

/-- The live files of a level, against the state of a builder that has collected
all edits. -/
structure Mirrors (files : List (FileMetaData K)) (state : LevelState K) : Prop where
  members : forall file, file ∈ files <-> file ∈ state.addedFiles ∧ file.number ∉ state.deletedFiles
  known : ∀ number ∈ state.deletedFiles, ∃ file ∈ state.addedFiles, file.number = number
  sorted : SortedBy (bySmallestKey rank) state.addedFiles

/-- What an edit may do to one level: it adds new numbers and deletes files that
are present. -/
structure Admissible (files : List (FileMetaData K)) (state : LevelState K) (level : Nat)
    (deleted : List (Nat × Nat)) (added : List (Nat × FileMetaData K)) : Prop where
  fresh : ∀ new ∈ filesAt level added, ∀ old ∈ state.addedFiles, old.number ≠ new.number
  distinct : ((filesAt level added).map FileMetaData.number).Nodup
  present : forall number, (level, number) ∈ deleted -> ∃ file ∈ files, file.number = number

variable {rank}

theorem mirrors_empty : Mirrors rank [] LevelState.empty :=
  ⟨fun file => by simp [LevelState.empty], fun number member =>
    absurd member (Finset.notMem_empty number), Pairwise.nil⟩

section Step
variable {files : List (FileMetaData K)} {levels : Nat -> LevelState K} {level : Nat}
  {deleted : List (Nat × Nat)} {added : List (Nat × FileMetaData K)}

section
variable (step : Admissible files (levels level) level deleted added)
include step

theorem Admissible.mem_replayed (file : FileMetaData K) :
    file ∈ (applyLevels rank levels deleted added level).addedFiles <->
      file ∈ (levels level).addedFiles ∨ file ∈ filesAt level added := by
  rw [(applyLevels_spec rank levels deleted added level).1, mem_insertAllBy]
  intro b c new other same
  rcases other with old | other
  · exact absurd (number_eq_of_key same) (step.fresh b new c old)
  · exact inj_on_of_nodup_map step.distinct other new (number_eq_of_key same)

end

section
variable (mirrors : Mirrors rank files (levels level))
  (admits : Admissible files (levels level) level deleted added)
include mirrors admits

theorem Admissible.numbers : FreshNumbers files (filesAt level added) :=
  ⟨fun new isNew old isOld => admits.fresh new isNew old ((mirrors.members old).mp isOld).1,
    fun _ first _ second => inj_on_of_nodup_map admits.distinct first second⟩

theorem Admissible.not_new {number : Nat}
    (gone : number ∈ (levels level).deletedFiles ∨ (level, number) ∈ deleted) :
    ∀ file ∈ filesAt level added, file.number ≠ number := by
  intro file new same
  rcases gone with old | now
  · rcases mirrors.known number old with ⟨other, member, equal⟩
    exact admits.fresh file new other member (equal.trans same.symm)
  · rcases admits.present number now with ⟨other, member, equal⟩
    exact admits.fresh file new other ((mirrors.members other).mp member).1 (equal.trans same.symm)

theorem Admissible.deleted_replayed (number : Nat) :
    number ∈ (applyLevels rank levels deleted added level).deletedFiles <->
      number ∈ (levels level).deletedFiles ∨ (level, number) ∈ deleted := by
  rw [(applyLevels_spec rank levels deleted added level).2]
  exact ⟨And.left, fun gone => ⟨gone, admits.not_new mirrors gone⟩⟩

theorem Admissible.deleted_live (number : Nat) :
    number ∈ (applyLevels rank (fun _ => .empty) deleted added level).deletedFiles <->
      (level, number) ∈ deleted := by
  rw [(applyLevels_spec rank (fun _ => LevelState.empty) deleted added level).2]
  constructor
  · rintro ⟨old | now, _⟩
    · cases old
    · exact now
  · exact fun now => ⟨Or.inr now, admits.not_new mirrors (Or.inr now)⟩

/-- An edit keeps the relation, however the live files and the additions are
put together. -/
theorem Mirrors.step {merged : List (FileMetaData K)}
    (union : ∀ file, file ∈ merged <-> file ∈ files ∨
      file ∈ (applyLevels rank (fun _ => .empty) deleted added level).addedFiles) :
    Mirrors rank ((applyLevels rank (fun _ => .empty) deleted added level).kept merged)
      (applyLevels rank levels deleted added level) := by
  refine ⟨fun file => ?_, fun number gone => ?_, ?_⟩
  · unfold LevelState.kept
    rw [mem_filter, decide_eq_true_iff, union, (admits.numbers mirrors).mem_addedFiles,
      admits.mem_replayed, admits.deleted_live mirrors, admits.deleted_replayed mirrors,
      mirrors.members]
    constructor
    · rintro ⟨⟨old, stays⟩ | new, kept⟩
      · exact ⟨Or.inl old, not_or.mpr ⟨stays, kept⟩⟩
      · refine ⟨Or.inr new, fun gone => ?_⟩
        exact admits.not_new mirrors gone file new rfl
    · rintro ⟨old | new, kept⟩
      · rcases not_or.mp kept with ⟨stays, here⟩
        exact ⟨Or.inl ⟨old, stays⟩, here⟩
      · exact ⟨Or.inr new, fun now => kept (Or.inr now)⟩
  · rcases (admits.deleted_replayed mirrors number).mp gone with old | now
    · rcases mirrors.known number old with ⟨file, member, equal⟩
      exact ⟨file, (admits.mem_replayed file).mpr (Or.inl member), equal⟩
    · rcases admits.present number now with ⟨file, member, equal⟩
      exact ⟨file, (admits.mem_replayed file).mpr
        (Or.inl ((mirrors.members file).mp member).1), equal⟩
  · rw [(applyLevels_spec rank levels deleted added level).1]
    exact mirrors.sorted.insertAllBy _

end

/-- What recovery writes for a level is the live list. -/
theorem Mirrors.kept_eq {state : LevelState K} (mirrors : Mirrors rank files state)
    (sorted : SortedBy (bySmallestKey rank) files) :
    state.kept (mergeBy (bySmallestKey rank) [] state.addedFiles) = files := by
  rw [mergeBy_nil]
  apply SortedBy.ext (mirrors.sorted.filter _) sorted
  intro _
  rw [mirrors.members, mem_filter, decide_eq_true_iff]

end Step

end Level

variable {output : Nat}

namespace Dependency

/-- The roots after an edit, in the version that `SaveTo` builds from a base
version. -/
theorem LeadsTo.root_live {edit base : Dependency} (leads : edit.LeadsTo output)
    (fixed : base.root output = output) (editIteration baseIteration curIteration : Iteration) :
    ((empty.setParents (baseIteration.order base.edges)).setParents
      (curIteration.order (empty.setParents (editIteration.order edit.edges)).edges)).root =
      gather base.root output edit.depMap.keys := by
  have copied := root_setParents_empty (baseIteration.perm base.edges)
  rcases leads.copy (editIteration.perm edit.edges) with ⟨curLeads, curKeys⟩
  rw [curLeads.root_setParents (copied.symm ▸ fixed) (curIteration.perm _), copied]
  exact gather_congr fixed curKeys

/-- The roots after an edit that was decoded from its record, in a builder that
has collected the edits before it. -/
theorem LeadsTo.root_replayed {edit collected : Dependency}
    (leads : edit.LeadsTo output) (fixed : collected.root output = output)
    (writeIteration readIteration : Iteration) : (collected.setParents
      (readIteration.order (empty.setParents (writeIteration.order edit.edges)).edges)).root =
      gather collected.root output edit.depMap.keys := by
  rcases leads.copy (writeIteration.perm edit.edges) with ⟨readLeads, readKeys⟩
  rw [readLeads.root_setParents fixed (readIteration.perm _)]
  exact gather_congr fixed readKeys

end Dependency

/-- Only numbers in use have been joined. -/
def JoinsOnly (used : Nat -> Prop) (root : Nat -> Nat) : Prop :=
  forall x, root x ≠ x -> used x ∧ used (root x)

theorem JoinsOnly.fixed {used : Nat -> Prop} {root : Nat -> Nat} (joins : JoinsOnly used root)
    {x : Nat} (unused : ¬ used x) : root x = x := by
  by_contra moves
  exact unused (joins x moves).1

theorem JoinsOnly.gather {used later : Nat -> Prop} {root : Nat -> Nat}
    (joins : JoinsOnly used root) {children : List Nat}
    (fixed : root output = output) (inUse : ∀ c ∈ children, c = output ∨ used c)
    (more : ∀ x, used x -> later x) (named : children ≠ [] -> later output) :
    JoinsOnly later (gather root output children) := by
  intro x moves
  unfold Foundation.gather at moves ⊢
  by_cases hit : ∃ c ∈ children, root x = root c
  · rw [if_pos hit] at moves ⊢
    rcases hit with ⟨c, member, equal⟩
    refine ⟨?_, named (ne_nil_of_mem member)⟩
    by_cases stays : root x = x
    · have value : x = root c := stays.symm.trans equal
      rcases inUse c member with atOutput | child
      · rw [atOutput, fixed] at value
        exact absurd value.symm moves
      · by_cases self : root c = c
        · rw [value, self]
          exact more c child
        · rw [value]
          exact more _ (joins c self).2
    · exact more x (joins x stays).1
  · rw [if_neg hit] at moves ⊢
    exact ⟨more x (joins x moves).1, more _ (joins x moves).2⟩

section
variable {K V L M : Type} [LinearOrder L] [LinearOrder M] (mod : Nat) (rank : K -> L)
  (vrank : V -> M)

/-- The number belongs to a value file or an output of one of the edits. -/
def Used (edits : List (VersionEdit K V)) (number : Nat) : Prop :=
  ∃ edit ∈ edits, (∃ file ∈ edit.newVFiles, file.2.number = number) ∨
    ∃ edge ∈ edit.dep.edges, edge.2 = number

/-- What an edit may do to a version that the earlier edits have built.  File
numbers are added once per level, deletions name files that are present, and
the dependencies map value files of the version to one new output. -/
structure AdmissibleEdit (earlier : List (VersionEdit K V)) (version : Version K V)
    (edit : VersionEdit K V) : Prop where
  fresh : forall level, ∀ new ∈ filesAt level edit.newFiles,
    ∀ old ∈ filesAt level (earlier.flatMap VersionEdit.newFiles), old.number ≠ new.number
  distinct : forall level, ((filesAt level edit.newFiles).map FileMetaData.number).Nodup
  present : forall level number, (level, number) ∈ edit.deletedFiles.files ->
    ∃ file ∈ version.files level, file.number = number
  vfresh : forall level, ∀ new ∈ filesAt level edit.newVFiles,
    ∀ old ∈ filesAt level (earlier.flatMap VersionEdit.newVFiles), old.number ≠ new.number
  vdistinct : forall level, ((filesAt level edit.newVFiles).map FileMetaData.number).Nodup
  vpresent : forall level number, (level, number) ∈ edit.deletedVFiles.files ->
    ∃ file ∈ version.vfiles level, file.number = number
  dependency : ∃ output, edit.dep.LeadsTo output ∧ ¬ Used earlier output ∧
    ∀ child ∈ edit.dep.depMap.keys, child = output ∨
      ∃ level, ∃ file ∈ version.vfiles level, file.number = child

/-- The version that the edits have built one by one, against a builder that has
collected them all. -/
structure Tracks (edits : List (VersionEdit K V)) (version : Version K V)
    (builder : Builder K V) : Prop where
  base : builder.base = Version.empty
  levels : builder.levels = collected rank VersionEdit.deletedFiles VersionEdit.newFiles edits
  vlevels : builder.vlevels =
    collected vrank VersionEdit.deletedVFiles VersionEdit.newVFiles edits
  files : forall level, Mirrors rank (version.files level) (builder.levels level)
  sorted : forall level, SortedBy (bySmallestKey rank) (version.files level)
  chains : forall level, level > 0 -> (version.files level).IsChain (Before rank)
  added : forall level file, file ∈ (builder.levels level).addedFiles <->
    file ∈ filesAt level (edits.flatMap VersionEdit.newFiles)
  outside : forall level, kNumLevels ≤ level -> version.files level = []
  vfiles : mod = 9 ∨ mod = 10 -> forall level,
    Mirrors vrank (version.vfiles level) (builder.vlevels level)
  vadded : forall level file, file ∈ (builder.vlevels level).addedFiles <->
    file ∈ filesAt level (edits.flatMap VersionEdit.newVFiles)
  voutside : forall level, numVLevels mod ≤ level -> version.vfiles level = []
  vsorted : mod = 10 -> forall level, SortedBy (bySmallestKey vrank) (version.vfiles level)
  noVFiles : ¬ (mod = 9 ∨ mod = 10) -> forall level, version.vfiles level = []
  roots : mod = 10 -> builder.curDep.root = version.dep.root
  joins : mod = 10 -> JoinsOnly (Used edits) version.dep.root
  noDep : mod ≠ 10 -> version.dep = Dependency.empty

/-- Two versions that a reader cannot tell apart. -/
structure SameVersion (first second : Version K V) : Prop where
  files : forall level, first.files level = second.files level
  vfiles : forall level file, file ∈ first.vfiles level <-> file ∈ second.vfiles level
  findParent : forall number, (first.dep.findParent number).1 = (second.dep.findParent number).1

theorem tracks_empty :
    Tracks mod rank vrank [] (Version.empty : Version K V) (Builder.new Version.empty) where
  base := rfl
  levels := rfl
  vlevels := rfl
  files _ := mirrors_empty
  sorted _ := Pairwise.nil
  chains _ _ := isChain_nil
  added _ _ := Iff.rfl
  outside _ _ := rfl
  vfiles _ _ := mirrors_empty
  vadded _ _ := Iff.rfl
  voutside _ _ := rfl
  vsorted _ _ := Pairwise.nil
  noVFiles _ _ := rfl
  roots _ := rfl
  joins _ x moves := absurd (congrFun Dependency.root_empty x) moves
  noDep _ := rfl

variable {mod rank vrank}

theorem Tracks.saveTo {edits : List (VersionEdit K V)} {version : Version K V}
    {builder : Builder K V} (tracks : Tracks mod rank vrank edits version builder)
    (baseIteration curIteration : Iteration) :
    ∃ saved, builder.saveTo mod rank vrank baseIteration curIteration = .ok saved ∧
      SameVersion saved version := by
  have files (level : Nat) : builder.savedFiles rank level = version.files level := by
    unfold Builder.savedFiles
    by_cases inside : level < kNumLevels
    · rw [if_pos inside, tracks.base]
      exact (tracks.files level).kept_eq (tracks.sorted level)
    · rw [if_neg inside, tracks.outside level (by omega)]
  refine ⟨_, (Builder.saveTo_eq_ok mod rank vrank).mpr ⟨rfl, ?_⟩, files, ?_, ?_⟩
  · intro level positive
    rw [files]
    exact tracks.chains level positive
  · intro level file
    change file ∈ builder.savedVFiles mod vrank level <-> _
    unfold Builder.savedVFiles
    by_cases has : mod = 9 ∨ mod = 10
    · by_cases inside : level < numVLevels mod
      · rw [if_pos ⟨has, inside⟩, (tracks.vfiles has level).members]
        unfold saveVLevel
        rw [tracks.base]
        split <;> unfold LevelState.kept
        · rw [mem_filter, decide_eq_true_iff]
          change file ∈ mergeBy _ [] _ ∧ _ <-> _
          rw [mergeBy_nil]
        · rw [mem_filter, decide_eq_true_iff]
          rfl
      · rw [if_neg (fun both => inside both.2), tracks.voutside level (by omega)]
    · rw [if_neg (fun both => has both.1), tracks.noVFiles has level]
  · intro number
    change (builder.savedDep mod baseIteration curIteration).root number = version.dep.root number
    unfold Builder.savedDep
    by_cases ten : mod = 10
    · have none : baseIteration.order (Version.empty : Version K V).dep.edges = [] :=
        baseIteration.order_nil
      rw [if_pos ten, <- tracks.roots ten, tracks.base, none]
      exact congrFun (Dependency.root_setParents_empty (curIteration.perm _)) number
    · rw [if_neg ten, tracks.noDep ten]

section Step
variable {edits : List (VersionEdit K V)} {version next : Version K V} {builder : Builder K V}
  {edit : VersionEdit K V} (tracks : Tracks mod rank vrank edits version builder)

section
variable (admits : AdmissibleEdit edits version edit) (level : Nat)
include tracks admits level

theorem Tracks.admissible :
    Admissible (version.files level) (builder.levels level) level edit.deletedFiles.files
      edit.newFiles :=
  ⟨fun new memberNew old memberOld =>
      admits.fresh level new memberNew old ((tracks.added level old).mp memberOld),
    admits.distinct level, admits.present level⟩

theorem Tracks.vadmissible :
    Admissible (version.vfiles level) (builder.vlevels level) level edit.deletedVFiles.files
      edit.newVFiles :=
  ⟨fun new memberNew old memberOld =>
      admits.vfresh level new memberNew old ((tracks.vadded level old).mp memberOld),
    admits.vdistinct level, admits.vpresent level⟩

end

section
variable (range : Builder.InRange mod edit) (iteration : Iteration) (level : Nat)
include tracks range iteration level

theorem Tracks.savedFiles :
    ((Builder.new version).applied rank vrank iteration edit).savedFiles rank level =
      (applyLevels rank (fun _ => .empty) edit.deletedFiles.files edit.newFiles level).kept
        (mergeBy (bySmallestKey rank) (version.files level)
          (applyLevels rank (fun _ => .empty) edit.deletedFiles.files edit.newFiles
            level).addedFiles) := by
  unfold Builder.savedFiles
  by_cases inside : level < kNumLevels
  · rw [if_pos inside]
    rfl
  · have none := filesAt_eq_nil range.1.2 (Nat.le_of_not_lt inside)
    have added := (applyLevels_spec rank (fun _ => LevelState.empty) edit.deletedFiles.files
      edit.newFiles level).1
    rw [none] at added
    rw [if_neg inside, tracks.outside level (Nat.le_of_not_lt inside), added]
    rfl

theorem Tracks.savedVFiles (has : mod = 9 ∨ mod = 10) :
    ∃ merged, (∀ file, file ∈ merged <-> file ∈ version.vfiles level ∨
        file ∈ (applyLevels vrank (fun _ => .empty) edit.deletedVFiles.files edit.newVFiles
          level).addedFiles) ∧
      ((Builder.new version).applied rank vrank iteration edit).savedVFiles mod vrank level =
        (applyLevels vrank (fun _ => .empty) edit.deletedVFiles.files edit.newVFiles level).kept
          merged := by
  unfold Builder.savedVFiles saveVLevel
  by_cases inside : level < numVLevels mod
  · rw [if_pos ⟨has, inside⟩]
    by_cases ten : mod = 10
    · rw [if_pos ten]
      exact ⟨_, fun file => mem_mergeBy, rfl⟩
    · rw [if_neg ten]
      exact ⟨_, fun file => mem_append, rfl⟩
  · have none := filesAt_eq_nil range.2.2 (Nat.le_of_not_lt inside)
    have added := (applyLevels_spec vrank (fun _ => LevelState.empty) edit.deletedVFiles.files
      edit.newVFiles level).1
    rw [none] at added
    rw [if_neg (fun both => inside both.2), tracks.voutside level (Nat.le_of_not_lt inside), added]
    exact ⟨[], fun file => by simp [insertAllBy, LevelState.empty], rfl⟩

end

theorem flatMap_snoc {T : Type} (list : VersionEdit K V -> List T) :
    (edits ++ [edit]).flatMap list = edits.flatMap list ++ list edit := by
  rw [flatMap_append, flatMap_singleton]

theorem Used.mono {number : Nat} (used : Used edits number) : Used (edits ++ [edit]) number := by
  rcases used with ⟨other, member, either⟩
  exact ⟨other, mem_append_left _ member, either⟩

include tracks

theorem Tracks.used_of_mem (has : mod = 9 ∨ mod = 10) {level : Nat} {file : FileMetaData V}
    (member : file ∈ version.vfiles level) : Used edits file.number := by
  have known := (tracks.vadded level file).mp (((tracks.vfiles has level).members file).mp member).1
  rcases mem_flatMap.mp (mem_filesAt.mp known) with ⟨edit, inEdits, inEdit⟩
  exact ⟨edit, inEdits, Or.inl ⟨_, inEdit, rfl⟩⟩

theorem Tracks.roots_step (admissible : AdmissibleEdit edits version edit) (ten : mod = 10)
    (editIteration baseIteration curIteration readIteration : Iteration) :
    (builder.applied rank vrank readIteration (edit.reread editIteration)).curDep.root =
        (((Builder.new version).applied rank vrank editIteration edit).savedDep mod baseIteration
          curIteration).root ∧ JoinsOnly (Used (edits ++ [edit]))
        (((Builder.new version).applied rank vrank editIteration edit).savedDep mod baseIteration
          curIteration).root := by
  rcases admissible.dependency with ⟨output, leads, unused, children⟩
  have fixed : version.dep.root output = output := (tracks.joins ten).fixed unused
  have replayedFixed : builder.curDep.root output = output := by rw [tracks.roots ten, fixed]
  have live : (((Builder.new version).applied rank vrank editIteration edit).savedDep mod
      baseIteration curIteration).root =
      gather version.dep.root output edit.dep.depMap.keys := by
    unfold Builder.savedDep
    rw [if_pos ten]
    exact leads.root_live fixed editIteration baseIteration curIteration
  rw [live]
  constructor
  · rw [<- tracks.roots ten]
    exact leads.root_replayed replayedFixed editIteration readIteration
  · apply (tracks.joins ten).gather fixed _ (fun x => Used.mono)
    · intro nonempty
      rcases exists_mem_of_ne_nil _ nonempty with ⟨child, member⟩
      rw [<- Dependency.map_fst_edges] at member
      rcases mem_map.mp member with ⟨edge, inEdges, _⟩
      exact ⟨edit, by simp, Or.inr ⟨edge, inEdges, leads edge inEdges⟩⟩
    · intro child member
      rcases children child member with same | ⟨_, _, inVersion, same⟩
      · exact Or.inl same
      · exact Or.inr (same ▸ tracks.used_of_mem (Or.inr ten) inVersion)

theorem Tracks.step (admissible : AdmissibleEdit edits version edit)
    (range : Builder.InRange mod edit)
    (editIteration baseIteration curIteration readIteration : Iteration)
    (saved : ((Builder.new version).applied rank vrank editIteration edit).saveTo mod rank vrank
      baseIteration curIteration = .ok next) : Tracks mod rank vrank (edits ++ [edit]) next
      (builder.applied rank vrank readIteration (edit.reread editIteration)) := by
  rcases (Builder.saveTo_eq_ok mod rank vrank).mp saved with ⟨equal, chains⟩
  subst equal
  have roots := fun ten => tracks.roots_step admissible ten editIteration baseIteration curIteration
    readIteration
  refine ⟨tracks.base, ?_, ?_, ?_, ?_, chains, ?_, ?_, ?_, ?_, ?_, ?_, ?_, ?_, ?_, ?_⟩
  · rw [collected, foldl_append, <- collected, <- tracks.levels]
    rfl
  · rw [collected, foldl_append, <- collected, <- tracks.vlevels]
    rfl
  · intro level
    change Mirrors rank (Builder.savedFiles rank _ level) _
    rw [tracks.savedFiles range]
    exact (tracks.files level).step (tracks.admissible admissible level) (fun _ => mem_mergeBy)
  · intro level
    change SortedBy _ (Builder.savedFiles rank _ level)
    rw [tracks.savedFiles range]
    exact ((tracks.admissible admissible level).numbers (tracks.files level)).sorted_editedFiles
      (tracks.sorted level)
  · intro level file
    rw [flatMap_snoc, filesAt_append, mem_append, <- tracks.added]
    exact (tracks.admissible admissible level).mem_replayed file
  · intro level outside
    exact if_neg (not_lt.mpr outside)
  · intro has level
    rcases tracks.savedVFiles range editIteration level has with ⟨_, union, equal⟩
    change Mirrors vrank (Builder.savedVFiles mod vrank _ level) _
    rw [equal]
    exact (tracks.vfiles has level).step (tracks.vadmissible admissible level) union
  · intro level file
    rw [flatMap_snoc, filesAt_append, mem_append, <- tracks.vadded]
    exact (tracks.vadmissible admissible level).mem_replayed file
  · intro level outside
    exact if_neg (fun both => absurd both.2 (not_lt.mpr outside))
  · intro ten level
    change SortedBy _ (Builder.savedVFiles mod vrank _ level)
    unfold Builder.savedVFiles saveVLevel
    by_cases inside : level < numVLevels mod
    · rw [if_pos ⟨Or.inr ten, inside⟩, if_pos ten]
      exact ((tracks.vadmissible admissible level).numbers
        (tracks.vfiles (Or.inr ten) level)).sorted_editedFiles (tracks.vsorted ten level)
    · rw [if_neg (fun both => inside both.2)]
      exact Pairwise.nil
  · intro hasNot _
    exact if_neg (fun both => hasNot both.1)
  · exact fun ten => (roots ten).1
  · exact fun ten => (roots ten).2
  · exact fun notTen => if_neg notTen

end Step

end

section
variable {M : Type} [LinearOrder M] [LinearOrder UserKey] {mod : Nat} {vrank : Bytes -> M}
  {edits : List ManifestEdit} {version saved : Version Bytes Bytes} {builder : Builder Bytes Bytes}
  (tracks : Tracks mod internalRank vrank edits version builder)
  (long : ∀ edit ∈ edits, LongKeys 8 (edit.newFiles.map Prod.snd)) {level : Nat}
include tracks long

theorem Tracks.longKeys : LongKeys 8 (version.files level) := by
  intro file member
  have known := (ranks_fileCompare.foldlM_applyFiles VersionEdit.deletedFiles long level).2
  rw [<- tracks.levels] at known
  exact known file (((tracks.files level).members file).mp member).1

/-- What `Recover` saves is what the comparator gives. -/
theorem Tracks.replayFiles {baseIteration curIteration : Iteration}
    (saves : builder.saveTo mod internalRank vrank baseIteration curIteration = .ok saved)
    (inside : level < kNumLevels) : replayFiles level edits = .ok (saved.files level) := by
  rcases (Builder.saveTo_eq_ok mod internalRank vrank).mp saves with ⟨rfl, chains⟩
  have chain := chains level
  change _ = Except.ok (builder.savedFiles internalRank level)
  rw [Builder.savedFiles, if_pos inside, tracks.base, tracks.levels] at chain ⊢
  exact (replayFiles_eq_ok long level).mpr (saveMerged_eq_ok.mpr ⟨rfl, chain⟩)

end

/-! ## The manifest of a run -/

/-- One call of `LogAndApply`, with the numbers the version set has at that time. -/
structure Install where
  nextFileNumber : Nat
  lastSequence : Nat
  edit : ManifestEdit
  iterations : Iterations

namespace VersionSet

section
variable {L M : Type} [LinearOrder L] [LinearOrder M] (mod : Nat) (rank : Bytes -> L)
  (vrank : Bytes -> M) (value : Bytes -> BitVec 32) (name : Bytes)

def atCall (vset : VersionSet) (step : Install) : VersionSet :=
  { vset with nextFileNumber := step.nextFileNumber, lastSequence := step.lastSequence }

def install (vset : VersionSet) (step : Install) : Except String VersionSet :=
  (vset.atCall step).logAndApply mod rank vrank value name step.iterations step.edit

/-- The calls one after the other, from a new version set. -/
def installAll (steps : List Install) : Except String VersionSet :=
  steps.foldlM (install mod rank vrank value name) VersionSet.new

/-- What is assumed of a run: every edit is admissible when it is installed, names
no other comparator, and has fields that fit the manifest. -/
structure AdmissibleRun (steps : List Install) : Prop where
  admissible : forall before step after vset, steps = before ++ step :: after ->
    installAll mod rank vrank value name before = .ok vset ->
    AdmissibleEdit (before.map Install.edit) vset.current step.edit
  comparator : ∀ step ∈ steps, ∀ other ∈ step.edit.comparator, other = name
  representable : ∀ step ∈ steps, step.edit.Representable ∧ step.nextFileNumber < 2 ^ 64 ∧
    step.lastSequence < 2 ^ 64

/-- The run has left these records in its manifest, and recovery has read them
up to this state. -/
structure Recorded (iterations : Nat -> Iteration) (steps : List Install) (vset : VersionSet)
    (records : List Bytes) (state : RecoverState) : Prop where
  tracks : Tracks mod rank vrank (steps.map Install.edit) vset.current state.builder
  replayed : records.foldlM (recoverRecord mod rank vrank name iterations)
    VersionSet.new.startRecover = .ok state
  started : steps = [] -> vset = VersionSet.new ∧ records = []
  logged : steps ≠ [] -> ∃ log, vset.descriptorLog = some log ∧
    Log.addRecords value ⟨[], 0⟩ records = .ok log
  numbers : steps ≠ [] -> state.logNumber.isSome ∧ state.nextFile.isSome ∧ state.lastSequence.isSome
  keys : ∀ step ∈ steps, ∀ key ∈ step.edit.encodedKeys, key ≠ []
  pointers : PointersFit mod vset.compactPointer vset.compactVPointers
  logNumber : vset.logNumber < 2 ^ 64
  prevLogNumber : vset.prevLogNumber < 2 ^ 64
  nextFileNumber : vset.nextFileNumber < 2 ^ 64
  lastSequence : vset.lastSequence < 2 ^ 64

variable (iterations : Nat -> Iteration)

theorem recorded_empty : Recorded mod rank vrank value name iterations [] new []
      new.startRecover where
  tracks := tracks_empty mod rank vrank
  replayed := rfl
  started _ := ⟨rfl, rfl⟩
  logged nonempty := absurd rfl nonempty
  numbers nonempty := absurd rfl nonempty
  keys := nofun
  pointers := pointersFit_new mod
  logNumber := by decide
  prevLogNumber := by decide
  nextFileNumber := by decide
  lastSequence := by decide

variable {mod rank vrank value name} {vset : VersionSet}

/-- The numbers of the version set take the places that the edit leaves open. -/
theorem representable_preparedEdit {edit : ManifestEdit} (fits : edit.Representable)
    (log : vset.logNumber < 2 ^ 64) (prev : vset.prevLogNumber < 2 ^ 64)
    (next : vset.nextFileNumber < 2 ^ 64) (last : vset.lastSequence < 2 ^ 64) :
    (vset.preparedEdit edit).Representable :=
  { fits with
    logNumber := by
      intro number same
      cases same
      cases given : edit.logNumber with
      | none => exact log
      | some number => exact fits.logNumber number given
    prevLogNumber := by
      intro number same
      cases same
      cases given : edit.prevLogNumber with
      | none => exact prev
      | some number => exact fits.prevLogNumber number given
    nextFileNumber := by
      rintro _ ⟨⟩
      exact next
    lastSequence := by
      rintro _ ⟨⟩
      exact last }

variable (rank vrank) in
theorem snapshot_recorded {edit : ManifestEdit} {log : Log.Writer} (fits : edit.Representable)
    (short : name.length < 2 ^ 32) (pointersOk : PointersOk mod edit)
    (fresh : vset.current = new.current)
    (pointers : vset.compactPointer = new.compactPointer)
    (vpointers : vset.compactVPointers = new.compactVPointers)
    (written : (vset.appliedPointers edit).writeSnapshot mod value name ⟨[], 0⟩ = .ok log) :
    ∃ record state, Log.addRecords value ⟨[], 0⟩ [record] = .ok log ∧
      recoverRecord mod rank vrank name iterations new.startRecover record = .ok state ∧
      state.builder = Builder.new Version.empty := by
  rcases bind_eq_ok.mp written with ⟨record, encoded, added⟩
  have same := (encodeTo_eq_ok.mp encoded).2
  have storable : (vset.appliedPointers edit).Storable := by
    have start : PointersFit mod vset.compactPointer vset.compactVPointers := by
      rw [pointers, vpointers]
      exact pointersFit_new mod
    have fit := start.applied fits pointersOk
    refine ⟨fun level => (fit.pointers level).1, fun level => (fit.vpointers level).1,
      fun level file member => ?_, fun level file member => ?_⟩
    · change file ∈ vset.current.files level at member
      rw [fresh] at member
      cases member
    · change file ∈ vset.current.vfiles level at member
      rw [fresh] at member
      cases member
  have cover := cover_appliedPointers mod pointersOk
    (fun level => congrFun vpointers level : ∀ level, vset.compactVPointers level = [])
  have read := recoverRecord_encoded mod rank vrank name (storable.representable mod name short)
    (fun other named => (Option.some.inj named).symm)
    (pointersOk_snapshotEdit mod name (fun level _ => cover level))
    (inRange_snapshotEdit mod name (vset.appliedPointers edit)) Iteration.stored iterations
    new.startRecover
  have stored : record = ((vset.appliedPointers edit).snapshotEdit mod name).encodeFields
      (Iteration.stored.order ((vset.appliedPointers edit).snapshotEdit mod name).dep.edges) :=
    same
  rw [<- stored] at read
  refine ⟨record, _, ?_, read, ?_⟩
  · rw [Log.addRecords, added]
    rfl
  · have noFiles (count : Nat) : allFiles count (fun _ => []) = [] := by
      simp [allFiles]
    have files : ((vset.appliedPointers edit).snapshotEdit mod name).newFiles = [] := by
      change allFiles kNumLevels vset.current.files = []
      rw [fresh]
      exact noFiles kNumLevels
    have vfiles : ((vset.appliedPointers edit).snapshotEdit mod name).newVFiles = [] := by
      change allFiles (numVLevels mod) vset.current.vfiles = []
      rw [fresh]
      exact noFiles (numVLevels mod)
    exact Builder.applied_eq_self rank vrank _ _ files rfl vfiles rfl rfl

section
variable {iterations : Nat -> Iteration} {steps : List Install} {vset : VersionSet}
  {records : List Bytes} {state : RecoverState}
  (recorded : Recorded mod rank vrank value name iterations steps vset records state)
  (short : name.length < 2 ^ 32)
include recorded short

theorem Recorded.opened {step : Install} {edit : ManifestEdit} {log : Log.Writer}
    (fits : edit.Representable) (pointersOk : PointersOk mod edit)
    (opened : ((vset.atCall step).appliedPointers edit).openLog mod value name = .ok log) :
    ∃ written middle, Log.addRecords value ⟨[], 0⟩ written = .ok log ∧
      written.foldlM (recoverRecord mod rank vrank name iterations)
        new.startRecover = .ok middle ∧ middle.builder = state.builder := by
  by_cases first : steps = []
  · rcases recorded.started first with ⟨rfl, rfl⟩
    have start := recorded.replayed
    cases start
    rcases snapshot_recorded rank vrank iterations fits short pointersOk rfl rfl rfl opened with
      ⟨record, middle, added, read, built⟩
    refine ⟨[record], middle, added, ?_, built⟩
    rw [foldlM_cons, read]
    rfl
  · rcases recorded.logged first with ⟨before, isLog, added⟩
    have isOpen : ((vset.atCall step).appliedPointers edit).descriptorLog = some before := isLog
    have same : before = log := by
      unfold openLog at opened
      rw [isOpen] at opened
      exact Except.ok.inj opened
    exact ⟨records, state, same ▸ added, recorded.replayed, rfl⟩

theorem Recorded.step {next : VersionSet} {step : Install}
    (admissible : AdmissibleEdit (steps.map Install.edit) vset.current step.edit)
    (comparator : ∀ other ∈ step.edit.comparator, other = name)
    (fits : step.edit.Representable ∧ step.nextFileNumber < 2 ^ 64 ∧ step.lastSequence < 2 ^ 64)
    (installed : vset.install mod rank vrank value name step = .ok next) : ∃ written state,
      Recorded mod rank vrank value name iterations (steps ++ [step]) next written state := by
  have prepared : ((vset.atCall step).preparedEdit step.edit).Representable :=
    representable_preparedEdit fits.1 recorded.logNumber recorded.prevLogNumber fits.2.1 fits.2.2
  rcases logAndApply_eq_ok mod rank vrank value name installed with
    ⟨_, before, after, pointersOk, range, saved, opened, written, keys, equal⟩
  rcases recorded.opened short prepared pointersOk opened with
    ⟨records, middle, added, folded, built⟩
  have read := recoverRecord_encoded mod rank vrank name prepared comparator pointersOk range
    step.iterations.edit iterations middle
  have read : recoverRecord mod rank vrank name iterations middle
      (((vset.atCall step).preparedEdit step.edit).encodeFields
        (step.iterations.edit.order step.edit.dep.edges)) = .ok _ := read
  generalize ((vset.atCall step).preparedEdit step.edit).encodeFields
    (step.iterations.edit.order step.edit.dep.edges) = record at read written
  subst equal
  have tracks := recorded.tracks.step admissible range step.iterations.edit step.iterations.base
    step.iterations.current (iterations middle.replayed) saved
  rw [<- built] at tracks
  have replayed := foldlM_concat_eq_ok.mpr ⟨_, folded, read⟩
  refine ⟨records ++ [record], _, ?_, replayed, ?_, ?_, ?_, ?_,
    ?_, ?_, ?_, fits.2.1, fits.2.2⟩
  · rw [map_append]
    exact tracks
  · intro impossible
    simp at impossible
  · intro _
    refine ⟨after, rfl, ?_⟩
    rw [Log.addRecords_append, added]
    change Log.addRecords value before [record] = .ok after
    rw [Log.addRecords, written]
    rfl
  · intro _
    exact ⟨rfl, rfl, rfl⟩
  · exact forall_mem_concat.mpr ⟨recorded.keys, keys⟩
  · have before : PointersFit mod (vset.atCall step).compactPointer
        (vset.atCall step).compactVPointers := recorded.pointers
    exact before.applied prepared pointersOk
  · exact prepared.logNumber _ rfl
  · exact prepared.prevLogNumber _ rfl

end

theorem AdmissibleRun.earlier {steps : List Install} {step : Install}
    (run : AdmissibleRun mod rank vrank value name (steps ++ [step])) :
    AdmissibleRun mod rank vrank value name steps := by
  refine ⟨?_, fun other member => run.comparator other (mem_append_left _ member),
    fun other member => run.representable other (mem_append_left _ member)⟩
  intro first other after reached split reachedBy
  apply run.admissible first other (after ++ [step]) reached _ reachedBy
  rw [split, append_assoc, cons_append]

theorem recorded_of_installAll (short : name.length < 2 ^ 32)
    {steps : List Install} (run : AdmissibleRun mod rank vrank value name steps)
    (installed : installAll mod rank vrank value name steps = .ok vset) : ∃ records state,
      Recorded mod rank vrank value name iterations steps vset records state := by
  induction steps using reverseRecOn generalizing vset with
  | nil =>
    cases installed
    exact ⟨[], _, recorded_empty mod rank vrank value name iterations⟩
  | append_singleton steps step ih =>
    rcases foldlM_concat_eq_ok.mp installed with ⟨before, earlier, installedStep⟩
    rcases ih run.earlier earlier with ⟨_, _, recorded⟩
    have inRun : step ∈ steps ++ [step] := by simp
    exact recorded.step short (run.admissible steps step [] before rfl earlier)
      (run.comparator step inRun) (run.representable step inRun) installedStep

section Comparators
variable [LinearOrder UserKey] (short : name.length < 2 ^ 32) {steps : List Install}
  (run : AdmissibleRun mod internalRank vrank value name steps)
  (installed : installAll mod internalRank vrank value name steps = .ok vset)
  (long : ∀ edit ∈ steps.map Install.edit, LongKeys 8 (edit.newFiles.map Prod.snd))
include short run installed long

/-- The files of the version that a run has installed are those that the comparator gives. -/
theorem installFiles_of_installAll {level : Nat} (inside : level < kNumLevels) :
    installFiles level (steps.map Install.edit) = .ok (vset.current.files level) := by
  induction steps using reverseRecOn generalizing vset with
  | nil =>
    cases installed
    rfl
  | append_singleton steps step ih =>
    rw [map_append] at long ⊢
    rcases forall_mem_concat.mp long with ⟨before, here⟩
    rcases foldlM_concat_eq_ok.mp installed with ⟨previous, earlier, installedStep⟩
    rcases recorded_of_installAll (fun _ => .stored) short run.earlier earlier with
      ⟨_, _, recorded⟩
    rcases logAndApply_eq_ok mod internalRank vrank value name installedStep with
      ⟨_, _, _, _, _, saved, _, _, _, rfl⟩
    rcases (Builder.saveTo_eq_ok mod internalRank vrank).mp saved with ⟨rfl, chains⟩
    have chain := chains level
    change _ = Except.ok (Builder.savedFiles internalRank _ level)
    rw [Builder.savedFiles, if_pos inside] at chain ⊢
    exact installFiles_snoc (recorded.tracks.sorted level) (recorded.tracks.longKeys before) here
      (ih run.earlier earlier before) (saveMerged_eq_ok.mpr ⟨rfl, chain⟩)

/-- If file keys are long enough for the comparators, recovering from the manifest of a run gives
the version that the run has built: the same key files in the same order, the same value files,
and the same result of `FindParent` for every number, in whatever order the dependency maps are
iterated.  The key files of both are those that the comparator gives, and so are the sets of value
files of the builder, where no comparison fails. -/
theorem recover_eq_installed (vranks : Ranks (vfileCompare mod) (vkeySize mod) vrank)
    (vlong : ∀ edit ∈ steps.map Install.edit, LongKeys (vkeySize mod) (edit.newVFiles.map Prod.snd))
    (recordIterations : Nat -> Iteration) (iterations : Iterations) :
    ∃ records state version,
      records.foldlM (recoverRecord mod internalRank vrank name recordIterations)
        VersionSet.new.startRecover = .ok state ∧
      state.builder.saveTo mod internalRank vrank iterations.base iterations.current =
        .ok version ∧
      (∀ level < kNumLevels,
        installFiles level (steps.map Install.edit) = .ok (vset.current.files level) ∧
        replayFiles level (steps.map Install.edit) = .ok (version.files level)) ∧
      (forall level, (steps.map Install.edit).foldlM (fun state edit => applyFiles
          (vfileCompare mod) level state edit.deletedVFiles.files edit.newVFiles) .empty =
        .ok (state.builder.vlevels level)) ∧
      SameVersion version vset.current ∧
      (steps ≠ [] -> ∃ log recovered, vset.descriptorLog = some log ∧
        Log.addRecords value ⟨[], 0⟩ records = .ok log ∧
        VersionSet.new.recover mod internalRank vrank value name recordIterations iterations
          log.dest = some (.ok recovered) ∧ recovered.current = version) := by
  rcases recorded_of_installAll recordIterations short run installed with
    ⟨records, state, recorded⟩
  rcases recorded.tracks.saveTo iterations.base iterations.current with ⟨version, saved, same⟩
  refine ⟨records, state, version, recorded.replayed, saved, fun level inside =>
    ⟨installFiles_of_installAll short run installed long inside,
      recorded.tracks.replayFiles long saved inside⟩, fun level => ?_, same, ?_⟩
  · rw [recorded.tracks.vlevels]
    exact (vranks.foldlM_applyFiles VersionEdit.deletedVFiles vlong level).1
  intro nonempty
  rcases recorded.logged nonempty with ⟨log, isLog, added⟩
  rcases finishRecover_eq_ok mod internalRank vrank (recorded.numbers nonempty) saved with
    ⟨recovered, finished, current, _⟩
  have visited := Log.visitLog_of_addRecords value
    (fun corruption => Failure.corruption corruption.2 "")
    (recoverRecord mod internalRank vrank name recordIterations) added new.startRecover
  rw [recorded.replayed] at visited
  refine ⟨log, recovered, isLog, added, ?_, current⟩
  unfold recover
  rw [visited, <- finished]
  rfl

end Comparators

end

section Merge

/-- A key of sixteen bytes, which both comparators can read. -/
def longKey (byte : UInt8) : Bytes := byte :: replicate 15 0

/-- A file with the keys 1 and 2. -/
def longFile (number : Nat) : FileMetaData Bytes := ⟨number, 1, longKey 1, longKey 2⟩

/-- Two files are written, one of them a value file. -/
def flushInstall : Install :=
  ⟨6, 0, (VersionEdit.empty.addFile 0 (longFile 4)).addVFile 0 (longFile 5),
    ⟨.stored, .stored, .stored⟩⟩

/-- The value file is rewritten as file 6, on which it then depends. -/
def mergeInstall : Install :=
  ⟨7, 0, ((VersionEdit.empty.deleteVFile 0 5).addVFile 0 (longFile 6)).addDependency 6 5,
    ⟨.stored, .stored, .stored⟩⟩

/-- Keys are compared by their first byte. -/
def firstByte (key : Bytes) : Nat := (key.headD 0).toNat

theorem nodup_filesAt_singleton (level : Nat) (file : Nat × FileMetaData Bytes) :
    ((filesAt level [file]).map FileMetaData.number).Nodup := by
  rw [filesAt_cons]
  split
  · exact nodup_singleton _
  · exact nodup_nil

theorem admissible_flushInstall :
    AdmissibleEdit [] (Version.empty : Version Bytes Bytes) flushInstall.edit where
  fresh _ _ _ _ member := nomatch member
  distinct level := nodup_filesAt_singleton level _
  present _ _ member := nomatch member
  vfresh _ _ _ _ member := nomatch member
  vdistinct level := nodup_filesAt_singleton level _
  vpresent _ _ member := nomatch member
  dependency := ⟨0, Dependency.leadsTo_empty 0, fun ⟨_, member, _⟩ => (nomatch member),
    fun _ member => (nomatch member)⟩

theorem admissible_mergeInstall {version : Version Bytes Bytes}
    (live : version.vfiles 0 = [longFile 5]) :
    AdmissibleEdit [flushInstall.edit] version mergeInstall.edit where
  fresh _ _ member := nomatch member
  distinct _ := nodup_nil
  present _ _ member := nomatch member
  vfresh level new memberNew old memberOld := by
    have isNew : (level, new) ∈ [(0, longFile 6)] := mem_filesAt.mp memberNew
    have isOld : (level, old) ∈ [(0, longFile 5)] := mem_filesAt.mp memberOld
    cases mem_singleton.mp isNew
    cases mem_singleton.mp isOld
    decide
  vdistinct level := nodup_filesAt_singleton level _
  vpresent level number member := by
    have isDeleted : (level, number) ∈ [(0, 5)] := member
    cases mem_singleton.mp isDeleted
    rw [live]
    exact ⟨_, mem_singleton.mpr rfl, rfl⟩
  dependency := by
    have edges : mergeInstall.edit.dep.edges = [(5, 6), (6, 6)] := by decide +kernel
    refine ⟨6, ?_, ?_, ?_⟩
    · unfold Dependency.LeadsTo
      rw [edges]
      decide
    · rintro ⟨_, member, either⟩
      rw [mem_singleton.mp member] at either
      rcases either with ⟨file, inEdit, number⟩ | ⟨_, inEdit, _⟩
      · have isFile : file ∈ [(0, longFile 5)] := inEdit
        rw [mem_singleton.mp isFile] at number
        exact absurd number (by decide)
      · exact nomatch inEdit
    · intro _ member
      rw [<- Dependency.map_fst_edges, edges] at member
      rcases mem_cons.mp member with five | rest
      · rw [five]
        refine Or.inr ⟨0, ?_⟩
        rw [live]
        exact ⟨_, mem_singleton.mpr rfl, rfl⟩
      · exact Or.inl (mem_singleton.mp rest)

theorem representable_flushInstall : flushInstall.edit.Representable := by
  constructor <;> decide +kernel

theorem representable_mergeInstall : mergeInstall.edit.Representable := by
  constructor <;> decide +kernel

section
open Bytewise

theorem admissibleRun_merge : AdmissibleRun 10 internalRank vkeyRank (fun _ => 0) [97]
    [flushInstall, mergeInstall] where
  admissible before step after vset split reached := by
    cases before with
    | nil =>
      cases split
      cases reached
      exact admissible_flushInstall
    | cons first before =>
      cases before with
      | nil =>
        cases split
        apply admissible_mergeInstall
        have live : (installAll 10 internalRank vkeyRank (fun _ => 0) [97]
            [flushInstall]).toOption.map (fun vset => vset.current.vfiles 0) =
            some [longFile 5] := by
          decide +kernel
        rw [reached] at live
        exact Option.some.inj live
      | cons second before =>
        have lengths := congrArg length split
        simp at lengths
  comparator step member := by
    rcases mem_pair.mp member with rfl | rfl <;> exact nofun
  representable step member := by
    rcases mem_pair.mp member with rfl | rfl
    · exact ⟨representable_flushInstall, by decide, by decide⟩
    · exact ⟨representable_mergeInstall, by decide, by decide⟩

/-- A flush followed by a rewrite of its value file. -/
theorem recover_eq_installed_merge : ∃ vset, installAll 10 internalRank vkeyRank (fun _ => 0) [97]
        [flushInstall, mergeInstall] = .ok vset ∧
      ∃ log recovered, vset.descriptorLog = some log ∧
        VersionSet.new.recover 10 internalRank vkeyRank (fun _ => 0) [97] (fun _ => .stored)
          ⟨.stored, .stored, .stored⟩ log.dest = some (.ok recovered) ∧
        installFiles 0 [flushInstall.edit, mergeInstall.edit] = .ok (recovered.current.files 0) ∧
        SameVersion recovered.current vset.current := by
  have runs : (installAll 10 internalRank vkeyRank (fun _ => 0) [97]
      [flushInstall, mergeInstall]).toOption.isSome = true := by
    decide +kernel
  rcases exists_ok_of_isSome runs with ⟨vset, installed⟩
  rcases recover_eq_installed (by decide) admissibleRun_merge installed (by decide)
    ranks_vfileCompare (by decide) (fun _ => .stored) ⟨.stored, .stored, .stored⟩ with
    ⟨_, _, _, _, _, compared, _, same, manifest⟩
  rcases manifest (cons_ne_nil _ _) with ⟨log, recovered, isLog, _, read, rfl⟩
  exact ⟨vset, installed, log, recovered, isLog, read, same.files 0 ▸ (compared 0 (by decide)).1,
    same⟩

/-- Edits that add one file each to level zero, two of them with keys of eight bytes. -/
def crossedEdits : List ManifestEdit :=
  [⟨4, 1, 1 :: replicate 7 0, 1 :: replicate 7 0⟩, ⟨5, 1, [1, 1], [1, 1]⟩,
    ⟨6, 1, 2 :: replicate 7 0, 2 :: replicate 7 0⟩].map (VersionEdit.empty.addFile 0)

/-- As internal keys the third comes before the first, and as byte strings the second is between
them.  Installed one by one the third file is put behind the second, since the middle of the
list is compared first.  Recovery compares it with the root of the set, which is the first. -/
theorem replayFiles_reorders :
    (installFiles 0 crossedEdits).toOption.map (map FileMetaData.number) = some [4, 5, 6] ∧
    (replayFiles 0 crossedEdits).toOption.map (map FileMetaData.number) = some [6, 4, 5] := by
  decide +kernel

end

end Merge

end VersionSet

end Db
end Doux
