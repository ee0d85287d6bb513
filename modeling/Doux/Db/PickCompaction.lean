import Doux.Db.InputFiles

namespace Doux
namespace Db

open Foundation Util List

/-!
# Choosing a compaction

A compaction takes files of one level and the overlapping files of the next.
`PickCompaction` starts from one file, `CompactRange` from the files that meet a
range; `SetupOtherInputs` completes the choice.

Boundary files are added at the upper level only.  At the lower level the choice
consists of the files that overlap the upper one, so a file that begins with an
older version of a user key at the end of the choice can be left out there.
-/

/-- The user options that the compactions of the key tree read. -/
structure Options where
  maxFileSize : Nat

namespace Options

def maxGrandParentOverlapBytes (options : Options) : Nat := 10 * options.maxFileSize

def expandedCompactionByteSizeLimit (options : Options) : Nat := 25 * options.maxFileSize

end Options

def totalFileSize (files : List KeyFile) : Nat := (files.map FileMetaData.fileSize).sum

/-- A chosen compaction: its files at the two levels, the overlapping files two
levels below, the files of the version it was chosen from, and the key from which
the next compaction of the level goes on. -/
structure Compaction where
  level : Nat
  inputs0 : List KeyFile
  inputs1 : List KeyFile
  grandparents : List KeyFile
  inputFiles : Nat -> List KeyFile
  largest : InternalKey

/-- What starts a compaction.  A size compaction takes the level whose score is
highest, a seek compaction a file that was read too often, and a range is compacted
on request. -/
inductive Request where
  | size (level : Nat)
  | seek (level index : Nat)
  | range (level : Nat) (start limit : Option InternalKey)

section
variable [LinearOrder UserKey] (options : Options) (files : Nat -> List KeyFile)

def getOverlappingInputs (level : Nat) (start limit : Option InternalKey) :
    Except String (List KeyFile) := do
  assertThat (level < kNumLevels) "level < config::kNumLevels"
  return overlapping level (files level) (start.map InternalKey.userKey)
    (limit.map InternalKey.userKey)

def withBoundaryInputs (level : Nat) (inputs : List KeyFile) : Except String (List KeyFile) :=
  match addBoundaryInputs (files level) inputs with
  | some result => .ok result
  | none => .error "AddBoundaryInputs does not end"

/-- The files of a compaction and the ranges that they cover. -/
structure Inputs where
  upper : List KeyFile
  lower : List KeyFile
  range : InternalKey × InternalKey
  all : InternalKey × InternalKey

/-- The files at the lower level and the ranges, for the given files at the upper
level. -/
def completeInputs (level : Nat) (upper : List KeyFile) : Except String Inputs := do
  let range <- getRange upper
  let lower <- getOverlappingInputs files (level + 1) (some range.1) (some range.2)
  let all <- getRange (upper ++ lower)
  return ⟨upper, lower, range, all⟩

/-- Take more files at the upper level if that adds none at the lower level. -/
def expandInputs (level : Nat) (inputs : Inputs) : Except String Inputs :=
  if inputs.lower = [] then .ok inputs
  else do
    let overlap <- getOverlappingInputs files level (some inputs.all.1) (some inputs.all.2)
    let expanded <- withBoundaryInputs files level overlap
    if expanded.length > inputs.upper.length ∧ totalFileSize inputs.lower +
        totalFileSize expanded < options.expandedCompactionByteSizeLimit then do
      let larger <- completeInputs files level expanded
      return if larger.lower.length = inputs.lower.length then larger else inputs
    else return inputs

/-- The files two levels below. -/
def findGrandparents (level : Nat) (all : InternalKey × InternalKey) :
    Except String (List KeyFile) :=
  if level + 2 < kNumLevels then getOverlappingInputs files (level + 2) (some all.1) (some all.2)
  else .ok []

def setupOtherInputs (level : Nat) (inputs0 : List KeyFile) : Except String Compaction := do
  let upper <- withBoundaryInputs files level inputs0
  let inputs <- completeInputs files level upper
  let inputs <- expandInputs options files level inputs
  let grandparents <- findGrandparents files level inputs.all
  return ⟨level, inputs.upper, inputs.lower, grandparents, files, inputs.range.2⟩

/-- The file with which a size compaction starts: the first one after the compact
pointer, or the first of the level. -/
def startFile (compactPointer : Nat -> Option InternalKey) (level : Nat) :
    Except String KeyFile :=
  match (files level).find? (fun file => ∀ key ∈ compactPointer level, key < file.largest) with
  | some file => .ok file
  | none =>
    match files level with
    | [] => .error "current_->files_[level][0]"
    | file :: _ => .ok file

/-- At level zero all files that overlap the chosen one are taken. -/
def startInputs (level : Nat) (file : KeyFile) : Except String (List KeyFile) :=
  if level = 0 then do
    let range <- getRange [file]
    let inputs <- getOverlappingInputs files 0 (some range.1) (some range.2)
    assertThat (inputs ≠ []) "!c->inputs_[0].empty()"
    return inputs
  else .ok [file]

/-- Cut the list after the file with which the sizes reach the limit. -/
def truncate (limit : Nat) : Nat -> List KeyFile -> List KeyFile
  | _, [] => []
  | total, file :: files =>
    if total + file.fileSize ≥ limit then [file]
    else file :: truncate limit (total + file.fileSize) files

/-- `PickCompaction` and `CompactRange` up to the call of `SetupOtherInputs`. -/
def firstInputs (compactPointer : Nat -> Option InternalKey) :
    Request -> Except String (Option (Nat × List KeyFile))
  | .size level => do
    assertThat (level + 1 < kNumLevels) "level + 1 < config::kNumLevels"
    let file <- startFile files compactPointer level
    let inputs <- startInputs files level file
    return some (level, inputs)
  | .seek level index =>
    match (files level)[index]? with
    | none => .ok none
    | some file => do
      let inputs <- startInputs files level file
      return some (level, inputs)
  | .range level start limit => do
    let inputs <- getOverlappingInputs files level start limit
    return if inputs = [] then none
      else some (level, if level > 0 then truncate options.maxFileSize 0 inputs else inputs)

/-- `PickCompaction` and `CompactRange`. -/
def pickCompaction (compactPointer : Nat -> Option InternalKey) (request : Request) :
    Except String (Option Compaction) := do
  match <- firstInputs options files compactPointer request with
  | none => return none
  | some (level, inputs) =>
    let compaction <- setupOtherInputs options files level inputs
    return some compaction

/-- `Compaction::IsTrivialMove`. -/
def Compaction.isTrivialMove (compaction : Compaction) : Prop :=
  compaction.inputs0.length = 1 ∧ compaction.inputs1.length = 0 ∧
    totalFileSize compaction.grandparents ≤ options.maxGrandParentOverlapBytes

instance (compaction : Compaction) : Decidable (compaction.isTrivialMove options) :=
  inferInstanceAs (Decidable (_ ∧ _))

/-- The files of a level that overlap a range of internal keys. -/
def overlapRange (level : Nat) (range : InternalKey × InternalKey) : List KeyFile :=
  (files level).filter (fun file => Overlaps (some range.1.userKey) (some range.2.userKey) file)

/-- The choice is closed at the upper level and has every overlapping file of the
lower level. -/
structure Inputs.Complete (level : Nat) (inputs : Inputs) : Prop where
  chosen : Chosen level (files level) inputs.upper
  closed : Closed (files level) inputs.upper
  range : IsRange inputs.upper inputs.range
  lower : inputs.lower = overlapRange files (level + 1) inputs.range
  all : IsRange (inputs.upper ++ inputs.lower) inputs.all

variable {files}

variable {level : Nat} {inputs : List KeyFile}

theorem getOverlappingInputs_eq_ok {start limit : Option InternalKey} :
    getOverlappingInputs files level start limit = .ok inputs <->
      level < kNumLevels ∧ inputs = overlapping level (files level)
        (start.map InternalKey.userKey) (limit.map InternalKey.userKey) :=
  assertThat_return_eq_ok

theorem overlapping_succ (level : Nat) (range : InternalKey × InternalKey) :
    overlapping (level + 1) (files (level + 1)) (some range.1.userKey)
      (some range.2.userKey) = overlapRange files (level + 1) range :=
  overlapping_of_pos (Nat.succ_ne_zero level) _ _ _

theorem completeInputs_eq_ok {upper : List KeyFile} (below : level + 1 < kNumLevels)
    (chosen : Chosen level (files level) upper) (closed : Closed (files level) upper) :
    ∃ inputs, completeInputs files level upper = .ok inputs ∧
      inputs.upper = upper ∧ inputs.Complete files level := by
  rcases getRange_eq_ok chosen.nonempty with ⟨range, ranged, isRange⟩
  have overlaps : getOverlappingInputs files (level + 1) (some range.1) (some range.2) =
      .ok (overlapRange files (level + 1) range) :=
    getOverlappingInputs_eq_ok.mpr ⟨below, (overlapping_succ level range).symm⟩
  have nonempty : upper ++ overlapRange files (level + 1) range ≠ [] :=
    append_ne_nil_of_left_ne_nil chosen.nonempty _
  rcases getRange_eq_ok nonempty with ⟨all, allRanged, isAll⟩
  refine ⟨⟨upper, overlapRange files (level + 1) range, range, all⟩, ?_, rfl,
    ⟨chosen, closed, isRange, rfl, isAll⟩⟩
  exact bind_eq_ok.mpr ⟨_, ranged, bind_eq_ok.mpr ⟨_, overlaps, bind_eq_ok.mpr ⟨_, allRanged, rfl⟩⟩⟩

theorem withBoundaryInputs_eq_ok (levels : OrderedLevels files)
    (chosen : Chosen level (files level) inputs) :
    ∃ result, withBoundaryInputs files level inputs = .ok result ∧
      Chosen level (files level) result ∧ Closed (files level) result ∧
      ∀ file ∈ inputs, file ∈ result := by
  rcases addBoundaryInputs_spec levels chosen with ⟨result, found, properties⟩
  refine ⟨result, ?_, properties⟩
  unfold withBoundaryInputs
  rw [found]

variable {file : KeyFile}

theorem IsRange.overlaps {range : InternalKey × InternalKey} (isRange : IsRange inputs range)
    (member : file ∈ inputs) (ordered : file.smallest ≤ file.largest) :
    Overlaps (some range.1.userKey) (some range.2.userKey) file := by
  constructor
  · rintro _ ⟨⟩
    exact not_lt.mpr (InternalKey.userKey_le_of_le (le_trans (isRange.below file member) ordered))
  · rintro _ ⟨⟩
    exact not_lt.mpr (InternalKey.userKey_le_of_le (le_trans ordered (isRange.above file member)))

theorem expandInputs_eq_ok (levels : OrderedLevels files) {inputs : Inputs}
    (below : level + 1 < kNumLevels) (complete : inputs.Complete files level) :
    ∃ result, expandInputs options files level inputs = .ok result ∧
      result.Complete files level ∧ inputs.upper ⊆ result.upper := by
  unfold expandInputs
  split
  · exact ⟨inputs, rfl, complete, Subset.refl _⟩
  · have overlaps : getOverlappingInputs files level (some inputs.all.1) (some inputs.all.2) =
        .ok (overlapping level (files level) (some inputs.all.1.userKey)
          (some inputs.all.2.userKey)) :=
      getOverlappingInputs_eq_ok.mpr ⟨by omega, rfl⟩
    have found : inputs.upper ⊆ overlapping level (files level) (some inputs.all.1.userKey)
        (some inputs.all.2.userKey) := by
      intro file member
      have inLevel := complete.chosen.subset file member
      exact mem_overlapping inLevel (complete.all.overlaps (mem_append_left _ member)
        (levels.range level file inLevel))
    have nonempty := ne_nil_of_mem (found (head_mem complete.chosen.nonempty))
    rcases withBoundaryInputs_eq_ok levels (chosen_overlapping levels nonempty) with
      ⟨_, added, chosen, closed, more⟩
    rcases completeInputs_eq_ok below chosen closed with ⟨larger, completed, rfl, largerComplete⟩
    by_cases limited : larger.upper.length > inputs.upper.length ∧ totalFileSize inputs.lower +
        totalFileSize larger.upper < options.expandedCompactionByteSizeLimit
    · refine ⟨if larger.lower.length = inputs.lower.length then larger else inputs, ?_, ?_⟩
      · refine bind_eq_ok.mpr ⟨_, overlaps, bind_eq_ok.mpr ⟨_, added, ?_⟩⟩
        rw [if_pos limited]
        exact bind_eq_ok.mpr ⟨_, completed, rfl⟩
      · split
        · exact ⟨largerComplete, fun file member => more file (found member)⟩
        · exact ⟨complete, Subset.refl _⟩
    · refine ⟨inputs, ?_, complete, Subset.refl _⟩
      refine bind_eq_ok.mpr ⟨_, overlaps, bind_eq_ok.mpr ⟨_, added, ?_⟩⟩
      rw [if_neg limited]
      rfl

/-- What holds of a chosen compaction. -/
structure Compaction.Complete (files : Nat -> List KeyFile) (compaction : Compaction) : Prop where
  below : compaction.level + 1 < kNumLevels
  chosen : Chosen compaction.level (files compaction.level) compaction.inputs0
  closed : Closed (files compaction.level) compaction.inputs0
  lower : ∃ range, IsRange compaction.inputs0 range ∧
    compaction.inputs1 = overlapRange files (compaction.level + 1) range
  inputFiles : compaction.inputFiles = files

theorem setupOtherInputs_eq_ok (levels : OrderedLevels files) {inputs0 : List KeyFile}
    (below : level + 1 < kNumLevels) (chosen : Chosen level (files level) inputs0) :
    ∃ compaction, setupOtherInputs options files level inputs0 = .ok compaction ∧
      compaction.level = level ∧ compaction.Complete files ∧ inputs0 ⊆ compaction.inputs0 := by
  rcases withBoundaryInputs_eq_ok levels chosen with ⟨_, added, chosenUpper, closed, more⟩
  rcases completeInputs_eq_ok below chosenUpper closed with ⟨_, completed, rfl, complete⟩
  rcases expandInputs_eq_ok options levels below complete with
    ⟨inputs, expanded, inputsComplete, larger⟩
  have grand : ∃ grandparents, findGrandparents files level inputs.all = .ok grandparents := by
    unfold findGrandparents
    split
    · next inside => exact ⟨_, getOverlappingInputs_eq_ok.mpr ⟨inside, rfl⟩⟩
    · exact ⟨_, rfl⟩
  rcases grand with ⟨_, foundGrand⟩
  refine ⟨_, bind_eq_ok.mpr ⟨_, added, bind_eq_ok.mpr ⟨_, completed, bind_eq_ok.mpr
    ⟨_, expanded, bind_eq_ok.mpr ⟨_, foundGrand, rfl⟩⟩⟩⟩, rfl, ?_⟩
  exact ⟨⟨below, inputsComplete.chosen, inputsComplete.closed, ⟨inputs.range, inputsComplete.range,
    inputsComplete.lower⟩, rfl⟩, fun file member => larger (more file member)⟩

theorem below_of_setupOtherInputs {inputs0 : List KeyFile} {compaction : Compaction}
    (setup : setupOtherInputs options files level inputs0 = .ok compaction) :
    level + 1 < kNumLevels := by
  rcases bind_eq_ok.mp setup with ⟨_, _, setup⟩
  rcases bind_eq_ok.mp setup with ⟨_, completed, _⟩
  rcases bind_eq_ok.mp completed with ⟨_, _, completed⟩
  rcases bind_eq_ok.mp completed with ⟨_, overlaps, _⟩
  exact (getOverlappingInputs_eq_ok.mp overlaps).1

variable {compactPointer : Nat -> Option InternalKey}

theorem startFile_mem (found : startFile files compactPointer level = .ok file) :
    file ∈ files level := by
  unfold startFile at found
  split at found
  · next first isFirst =>
      cases found
      exact mem_of_find?_eq_some isFirst
  · split at found
    · cases found
    · next first rest isFirst =>
        cases found
        rw [isFirst]
        exact mem_cons_self

theorem chosen_startInputs (levels : OrderedLevels files)
    (member : file ∈ files level) (started : startInputs files level file = .ok inputs) :
    Chosen level (files level) inputs := by
  unfold startInputs at started
  split at started
  · next zero =>
      subst zero
      rcases bind_eq_ok.mp started with ⟨_, _, started⟩
      rcases bind_eq_ok.mp started with ⟨_, overlaps, started⟩
      rw [assertThat_bind_eq_ok] at started
      rcases started with ⟨nonempty, equal⟩
      cases equal
      rw [(getOverlappingInputs_eq_ok.mp overlaps).2] at nonempty ⊢
      exact chosen_overlapping levels nonempty
  · next positive =>
      cases started
      exact chosen_part levels (pos_of_ne_zero positive) ((singleton_infix_iff _ _).mpr member)
        (cons_ne_nil _ _)

omit [LinearOrder UserKey] in
theorem truncate_isPrefix (limit total : Nat) (inputs : List KeyFile) :
    truncate limit total inputs <+: inputs := by
  induction inputs generalizing total with
  | nil => exact nil_prefix
  | cons file inputs ih =>
    rw [truncate]
    split
    · exact ⟨inputs, rfl⟩
    · exact (prefix_cons_inj file).mpr (ih _)

omit [LinearOrder UserKey] in
theorem truncate_ne_nil (limit total : Nat) (nonempty : inputs ≠ []) :
    truncate limit total inputs ≠ [] := by
  cases inputs with
  | nil => exact absurd rfl nonempty
  | cons file inputs =>
    rw [truncate]
    split <;> exact cons_ne_nil _ _

theorem chosen_firstInputs (levels : OrderedLevels files) {request : Request}
    (first : firstInputs options files compactPointer request = .ok (some (level, inputs))) :
    Chosen level (files level) inputs := by
  cases request with
  | size at_ =>
    unfold firstInputs at first
    rw [assertThat_bind_eq_ok] at first
    rcases bind_eq_ok.mp first.2 with ⟨file, found, started⟩
    rcases bind_eq_ok.mp started with ⟨list, isList, equal⟩
    cases equal
    exact chosen_startInputs levels (startFile_mem found) isList
  | seek at_ index =>
    rw [firstInputs] at first
    split at first
    · cases first
    · next file found =>
        rcases bind_eq_ok.mp first with ⟨list, isList, equal⟩
        cases equal
        exact chosen_startInputs levels (mem_of_getElem? found) isList
  | range at_ start limit =>
    rcases bind_eq_ok.mp first with ⟨_, overlaps, equal⟩
    have isList := (getOverlappingInputs_eq_ok.mp overlaps).2
    have outcome := Except.ok.inj equal
    split at outcome
    · cases outcome
    · next nonempty =>
        rw [isList] at nonempty
        have chosen := chosen_overlapping levels nonempty
        rw [<- isList] at nonempty chosen
        cases outcome
        split
        · next positive =>
            exact chosen.part (levels.range level) positive (truncate_isPrefix _ _ _).isInfix
              (truncate_ne_nil _ _ nonempty)
        · exact chosen

theorem pickCompaction_complete (levels : OrderedLevels files) {request : Request}
    {compaction : Compaction}
    (picked : pickCompaction options files compactPointer request = .ok (some compaction)) :
    compaction.Complete files := by
  rcases bind_eq_ok.mp picked with ⟨first, found, rest⟩
  cases first with
  | none => cases rest
  | some pair =>
    rcases bind_eq_ok.mp rest with ⟨_, setup, equal⟩
    cases equal
    have chosen := chosen_firstInputs options levels found
    have below := below_of_setupOtherInputs options setup
    rcases setupOtherInputs_eq_ok options levels below chosen with ⟨_, again, _, complete, _⟩
    rw [setup] at again
    cases again
    exact complete

/-- Above level zero, for files without gaps, `SetupOtherInputs` returns.  A file left out
that begins with the user key at which an input ends comes before it.  The files of the
next level are those that overlap the range of the inputs. -/
theorem setupOtherInputs_inputs (levels : OrderedLevels files) (positive : level > 0)
    (below : level + 1 < kNumLevels) (isPart : inputs <:+: files level) (nonempty : inputs ≠ []) :
    ∃ compaction, setupOtherInputs options files level inputs = .ok compaction ∧
      (∀ file ∈ compaction.inputs0, ∀ other ∈ files level, other ∉ compaction.inputs0 ->
        other.smallest.userKey = file.largest.userKey -> Precedes other file) ∧
      (∃ range, IsRange compaction.inputs0 range ∧
        forall other, other ∈ compaction.inputs1 <-> other ∈ files (level + 1) ∧
          Overlaps (some range.1.userKey) (some range.2.userKey) other) ∧
      inputs ⊆ compaction.inputs0 := by
  rcases setupOtherInputs_eq_ok options levels below
    (chosen_part levels positive isPart nonempty) with ⟨compaction, setup, rfl, complete, kept⟩
  refine ⟨compaction, setup, ?_, ?_, kept⟩
  · intro file member other inLevel left same
    have ordered {file : KeyFile} (inLevel : file ∈ files compaction.level) :=
      InternalKey.userKey_le_of_le (levels.range _ file inLevel)
    refine (complete.closed file member other inLevel file.largest.userKey ?_ ?_).resolve_left left
    · exact ⟨ordered (complete.chosen.subset file member), le_refl _⟩
    · exact ⟨le_of_eq same, same ▸ ordered inLevel⟩
  · rcases complete.lower with ⟨range, isRange, lower⟩
    refine ⟨range, isRange, fun other => ?_⟩
    rw [lower, overlapRange, mem_filter, decide_eq_true_iff]

end

section Bytewise

open Bytewise

/-- Two files of level one with versions of one user key. -/
def versionFiles (level : Nat) : List KeyFile :=
  if level = 1 then
    [⟨5, 1, ⟨⟨[107]⟩, 1025⟩, ⟨⟨[107]⟩, 769⟩⟩, ⟨6, 1, ⟨⟨[107]⟩, 513⟩, ⟨⟨[107]⟩, 257⟩⟩]
  else []

/-- The file with the newer versions is left out. -/
theorem setupOtherInputs_leaves_newer :
    (setupOtherInputs ⟨1⟩ versionFiles 1 ((versionFiles 1).drop 1)).toOption.map
        (fun compaction => compaction.inputs0.map FileMetaData.number) = some [6] ∧
      (versionFiles 1).map (fun file => (file.number, file.smallest.userKey.bytes,
        file.largest.userKey.bytes)) = [(5, [107], [107]), (6, [107], [107])] := by
  decide +kernel

theorem setupOtherInputs_versionFiles :
    ∃ compaction, setupOtherInputs ⟨1⟩ versionFiles 1 ((versionFiles 1).drop 1) =
      .ok compaction ∧ (versionFiles 1).drop 1 ⊆ compaction.inputs0 := by
  have levels : OrderedLevels versionFiles := by
    refine ⟨fun level => ?_, fun level => ?_, fun level _ => ?_⟩
    all_goals
      unfold versionFiles
      split
      · decide +kernel
      · simp
  rcases setupOtherInputs_inputs ⟨1⟩ levels Nat.one_pos (by decide) (drop_suffix 1 _).isInfix
    (by decide) with ⟨compaction, setup, _, _, kept⟩
  exact ⟨compaction, setup, kept⟩

end Bytewise

end Db
end Doux
