import Doux.Foundation.Merge
import Doux.Db.PickCompaction

namespace Doux
namespace Db

open Foundation Util List

/-!
# The work of a compaction

`DoCompactionWork` reads the entries of all input files in order, drops those that
no reader can see any more, and writes the rest to new files.  An entry is dropped
when a newer version of its user key is old enough for every snapshot, or when it
is a deletion that every snapshot sees and no file further down has its user key
in range.

The model follows the loop for the modes in which compactions do not rewrite
values, that is for every mode but 9.  File sizes are whatever the table builder
reports, so the split into output files is arbitrary up to that function.
-/

/-- What the builder of key tables reports: `FileSize` while entries are added, and
the size of the finished file. -/
structure TableSizes where
  building : List Entry -> Nat
  finished : List Entry -> Nat

theorem totalFileSize_append (first second : List KeyFile) :
    totalFileSize (first ++ second) = totalFileSize first + totalFileSize second := by
  rw [totalFileSize, map_append, sum_append]
  rfl

theorem totalFileSize_le {first second : List KeyFile} (part : first <+ second) :
    totalFileSize first ≤ totalFileSize second :=
  (part.map _).sum_le_sum (fun _ _ => Nat.zero_le _)

section
variable [LinearOrder UserKey]

/-- Advance the pointer of a level over the files that end before the user key. -/
def advance (files : List KeyFile) (userKey : UserKey) (pointer : Nat) : Nat :=
  pointer + ((files.drop pointer).takeWhile (fun file => file.largest.userKey < userKey)).length

/-- The loop of `IsBaseLevelForKey` over the levels. -/
def baseLevelLoop (files : Nat -> List KeyFile) (userKey : UserKey) :
    List Nat -> (Nat -> Nat) -> Bool × (Nat -> Nat)
  | [], levelPtrs => (true, levelPtrs)
  | level :: levels, levelPtrs =>
    let pointer := advance (files level) userKey (levelPtrs level)
    let levelPtrs := Function.update levelPtrs level pointer
    match (files level)[pointer]? with
    | none => baseLevelLoop files userKey levels levelPtrs
    | some file =>
      if file.smallest.userKey ≤ userKey then (false, levelPtrs)
      else baseLevelLoop files userKey levels levelPtrs

/-- The levels below the output level of a compaction. -/
def deeperLevels (level : Nat) : List Nat := List.range' (level + 2) (kNumLevels - (level + 2))

/-- `Compaction::IsBaseLevelForKey`. -/
def Compaction.isBaseLevelForKey (compaction : Compaction) (levelPtrs : Nat -> Nat)
    (userKey : UserKey) : Bool × (Nat -> Nat) :=
  baseLevelLoop compaction.inputFiles userKey (deeperLevels compaction.level) levelPtrs

/-- The variables that decide whether an entry is dropped. -/
structure DropState where
  currentUserKey : Option UserKey
  lastSequenceForKey : Nat
  levelPtrs : Nat -> Nat

def DropState.start : DropState := ⟨none, kMaxSequenceNumber, fun _ => 0⟩

/-- The sequence number of the previous entry if it has the same user key. -/
def DropState.lastSequence (state : DropState) (userKey : UserKey) : Nat :=
  if state.currentUserKey = some userKey then state.lastSequenceForKey else kMaxSequenceNumber

/-- Whether an entry is dropped. -/
def DropState.visit (compaction : Compaction) (smallestSnapshot : Nat) (state : DropState)
    (key : InternalKey) : Bool × DropState :=
  match key.parse with
  | none => (false, ⟨none, kMaxSequenceNumber, state.levelPtrs⟩)
  | some ikey =>
    if state.lastSequence ikey.userKey ≤ smallestSnapshot then
      (true, ⟨some ikey.userKey, ikey.sequence, state.levelPtrs⟩)
    else if ikey.type = .deletion ∧ ikey.sequence ≤ smallestSnapshot then
      let base := compaction.isBaseLevelForKey state.levelPtrs ikey.userKey
      (base.1, ⟨some ikey.userKey, ikey.sequence, base.2⟩)
    else (false, ⟨some ikey.userKey, ikey.sequence, state.levelPtrs⟩)

/-- The variables of `ShouldStopBefore`. -/
structure StopState where
  grandparentIndex : Nat
  seenKey : Bool
  overlappedBytes : Nat

/-- Count the grandparents that end before the key. -/
def skipGrandparents (key : InternalKey) : List KeyFile -> StopState -> StopState
  | [], state => state
  | file :: files, state =>
    if file.largest < key then
      skipGrandparents key files ⟨state.grandparentIndex + 1, state.seenKey,
          if state.seenKey then state.overlappedBytes + file.fileSize
          else state.overlappedBytes⟩
    else state

/-- `Compaction::ShouldStopBefore`. -/
def Compaction.shouldStopBefore (options : Options) (compaction : Compaction)
    (state : StopState) (key : InternalKey) : Bool × StopState :=
  let state := skipGrandparents key (compaction.grandparents.drop state.grandparentIndex) state
  if state.overlappedBytes > options.maxGrandParentOverlapBytes then
    (true, ⟨state.grandparentIndex, true, 0⟩)
  else (false, ⟨state.grandparentIndex, true, state.overlappedBytes⟩)

/-- The variables of the loop: the finished output files and the one that is being
written. -/
structure Walk where
  drop : DropState
  stop : StopState
  outputs : List (List Entry)
  builder : Option (List Entry)

def Walk.start : Walk := ⟨.start, ⟨0, false, 0⟩, [], none⟩

/-- `FinishCompactionOutputFile`, if a file is open. -/
def Walk.finishOutput (walk : Walk) : Walk :=
  { walk with outputs := walk.outputs ++ walk.builder.toList, builder := none }

/-- `TableBuilder::Add` for key tables. -/
def addEntry (entries : List Entry) (entry : Entry) : Except String (List Entry) := do
  assertThat (∀ last ∈ entries.getLast?, last.key < entry.key)
    "r->options.comparator->Compare(key, Slice(r->last_key)) > 0"
  return entries ++ [entry]

/-- Write an entry to the open file, or to a new one, and close the file if it is
big enough. -/
def Walk.add (sizes : TableSizes) (options : Options) (walk : Walk) (entry : Entry) :
    Except String Walk := do
  let entries <- addEntry (walk.builder.getD []) entry
  let walk := { walk with builder := some entries }
  return if sizes.building entries ≥ options.maxFileSize then walk.finishOutput else walk

/-- Close the open file before an entry if it would overlap too many grandparents. -/
def Walk.stopBefore (options : Options) (compaction : Compaction) (walk : Walk)
    (key : InternalKey) : Walk :=
  let stop := compaction.shouldStopBefore options walk.stop key
  { (if stop.1 then walk.finishOutput else walk) with stop := stop.2 }

/-- One pass of the loop. -/
def Walk.step (sizes : TableSizes) (options : Options) (compaction : Compaction)
    (smallestSnapshot : Nat) (walk : Walk) (entry : Entry) : Except String Walk :=
  let walk := walk.stopBefore options compaction entry.key
  let visited := walk.drop.visit compaction smallestSnapshot entry.key
  let walk := { walk with drop := visited.2 }
  if visited.1 then .ok walk else walk.add sizes options entry

/-- The iterators that `MakeInputIterator` merges: at level zero one for each file,
at other levels one for all files. -/
def inputIterators (tables : Nat -> List Entry) (level : Nat) (inputs : List KeyFile) :
    List (List Entry) :=
  if level = 0 then inputs.map (fun file => tables file.number)
  else [inputs.flatMap (fun file => tables file.number)]

/-- `MakeInputIterator`: the entries of all input files in order. -/
def Compaction.inputEntries (tables : Nat -> List Entry) (compaction : Compaction) : List Entry :=
  mergeAll Entry.key (inputIterators tables compaction.level compaction.inputs0 ++
    inputIterators tables (compaction.level + 1) compaction.inputs1)

/-- The contents of the output files. -/
def Compaction.outputEntries (sizes : TableSizes) (options : Options)
    (tables : Nat -> List Entry) (smallestSnapshot : Nat) (compaction : Compaction) :
    Except String (List (List Entry)) := do
  let walk <- (compaction.inputEntries tables).foldlM
    (Walk.step sizes options compaction smallestSnapshot) .start
  return walk.finishOutput.outputs

/-- The files before the pointers end before the user key. -/
def Skipped (files : Nat -> List KeyFile) (levelPtrs : Nat -> Nat) (userKey : UserKey) : Prop :=
  forall level, ∀ file ∈ (files level).take (levelPtrs level), file.largest.userKey < userKey

variable {files : Nat -> List KeyFile} {levelPtrs : Nat -> Nat} {userKey : UserKey}

theorem Skipped.mono {later : UserKey} (skipped : Skipped files levelPtrs userKey)
    (ordered : userKey ≤ later) : Skipped files levelPtrs later :=
  fun level file member => lt_of_lt_of_le (skipped level file member) ordered

theorem drop_advance (files : List KeyFile) (userKey : UserKey) (pointer : Nat) :
    files.drop (advance files userKey pointer) =
      (files.drop pointer).dropWhile (fun file => file.largest.userKey < userKey) :=
  (split_takeWhile files _ pointer).2

theorem take_advance (files : List KeyFile) (userKey : UserKey) (pointer : Nat) :
    files.take (advance files userKey pointer) = files.take pointer ++
      (files.drop pointer).takeWhile (fun file => file.largest.userKey < userKey) :=
  (split_takeWhile files _ pointer).1

theorem Skipped.advance (skipped : Skipped files levelPtrs userKey) (level : Nat) :
    Skipped files (Function.update levelPtrs level
      (advance (files level) userKey (levelPtrs level))) userKey := by
  intro other file member
  by_cases here : other = level
  · subst here
    rw [Function.update_self, take_advance] at member
    rcases mem_append.mp member with before | passed
    · exact skipped other file before
    · have shorter := mem_takeWhile_imp passed
      exact of_decide_eq_true shorter
  · rw [Function.update_of_ne here] at member
    exact skipped other file member

/-- The files of every level above 0 are in order and disjoint. -/
def OrderedAbove (files : Nat -> List KeyFile) : Prop :=
  ∀ level > 0, (∀ file ∈ files level, file.smallest ≤ file.largest) ∧
    (files level).Pairwise Precedes

theorem OrderedLevels.above (levels : OrderedLevels files) : OrderedAbove files :=
  fun level positive => ⟨levels.range level, levels.disjoint level positive⟩

theorem covers_iff_at_pointer (levels : OrderedAbove files)
    (skipped : Skipped files levelPtrs userKey) {level : Nat} (positive : level > 0) :
    (∃ file ∈ files level, Covers file userKey) <->
      ∃ file ∈ (files level)[advance (files level) userKey (levelPtrs level)]?,
        file.smallest.userKey ≤ userKey := by
  have passed := skipped.advance level level
  rw [Function.update_self] at passed
  have parts := take_append_drop (advance (files level) userKey (levelPtrs level)) (files level)
  have rest := drop_advance (files level) userKey (levelPtrs level)
  rw [<- head?_drop]
  generalize (files level).take (advance (files level) userKey (levelPtrs level)) = front
    at passed parts
  generalize (files level).drop (advance (files level) userKey (levelPtrs level)) = back
    at parts rest ⊢
  rcases levels level positive with ⟨range, disjoint⟩
  rw [<- parts] at disjoint ⊢
  have notFront : ∀ file ∈ front, ¬ Covers file userKey :=
    fun file member covers => absurd covers.2 (not_le.mpr (passed file member))
  cases back with
  | nil =>
    constructor
    · rintro ⟨file, member, covers⟩
      rw [append_nil] at member
      exact absurd covers (notFront file member)
    · rintro ⟨file, impossible, _⟩
      cases impossible
  | cons first later =>
    have reaches : userKey ≤ first.largest.userKey := by
      have notPassed := head_dropWhile_not
        (p := fun file : KeyFile => decide (file.largest.userKey < userKey))
        (l := (files level).drop (levelPtrs level)) (by rw [<- rest]; exact cons_ne_nil _ _)
      simp only [<- rest, decide_eq_false_iff_not, not_lt] at notPassed
      exact notPassed
    constructor
    · rintro ⟨file, member, covers⟩
      refine ⟨first, rfl, ?_⟩
      rcases mem_append.mp member with inFront | inBack
      · exact absurd covers (notFront file inFront)
      · rcases mem_cons.mp inBack with rfl | inLater
        · exact covers.1
        · have before := (pairwise_cons.mp (pairwise_append.mp disjoint).2.1).1 file inLater
          have inLevel : first ∈ files level := by
            rw [<- parts]
            exact mem_append_right _ mem_cons_self
          have ordered := lt_of_le_of_lt (range first inLevel) before
          exact le_trans (InternalKey.userKey_le_of_le (le_of_lt ordered)) covers.1
    · rintro ⟨_, isFirst, begins⟩
      cases isFirst
      exact ⟨first, mem_append_right _ mem_cons_self, begins, reaches⟩

theorem baseLevelLoop_spec (ordered : OrderedAbove files) (levels : List Nat)
    (positive : ∀ level ∈ levels, level > 0) (skipped : Skipped files levelPtrs userKey) :
    ((baseLevelLoop files userKey levels levelPtrs).1 = true <->
      ∀ level ∈ levels, ¬ ∃ file ∈ files level, Covers file userKey) ∧
    Skipped files (baseLevelLoop files userKey levels levelPtrs).2 userKey := by
  induction levels generalizing levelPtrs with
  | nil => exact ⟨⟨fun _ => nofun, fun _ => rfl⟩, skipped⟩
  | cons level levels ih =>
    rcases forall_mem_cons.mp positive with ⟨here, later⟩
    have covers := covers_iff_at_pointer ordered skipped here
    have next := skipped.advance level
    rw [baseLevelLoop, forall_mem_cons, covers]
    cases atPointer : (files level)[Db.advance (files level) userKey (levelPtrs level)]? with
    | none =>
      rcases ih later next with ⟨base, skippedNext⟩
      exact ⟨by rw [base]; simp, skippedNext⟩
    | some file =>
      dsimp only
      by_cases begins : file.smallest.userKey ≤ userKey
      · rw [if_pos begins]
        exact ⟨by simp [begins], next⟩
      · rw [if_neg begins]
        rcases ih later next with ⟨base, skippedNext⟩
        exact ⟨by rw [base]; simp [begins], skippedNext⟩

/-- No file further down has the user key in range. -/
def Compaction.IsBaseLevel (compaction : Compaction) (userKey : UserKey) : Prop :=
  ∀ level ∈ deeperLevels compaction.level, ∀ file ∈ compaction.inputFiles level,
    ¬ Covers file userKey

instance (compaction : Compaction) (userKey : UserKey) :
    Decidable (compaction.IsBaseLevel userKey) :=
  inferInstanceAs (Decidable (∀ level ∈ _, _))

variable {compaction : Compaction}

theorem isBaseLevelForKey_spec (ordered : OrderedAbove compaction.inputFiles)
    (skipped : Skipped compaction.inputFiles levelPtrs userKey) :
    ((compaction.isBaseLevelForKey levelPtrs userKey).1 = true <-> compaction.IsBaseLevel userKey) ∧
    Skipped compaction.inputFiles (compaction.isBaseLevelForKey levelPtrs userKey).2 userKey := by
  have positive : ∀ level ∈ deeperLevels compaction.level, level > 0 := by
    intro _ member
    unfold deeperLevels at member
    rw [mem_range'_1] at member
    omega
  rcases baseLevelLoop_spec ordered _ positive skipped with ⟨base, next⟩
  refine ⟨base.trans ?_, next⟩
  unfold Compaction.IsBaseLevel
  simp

/-- The answers to a sequence of calls, which share the pointers. -/
def Compaction.baseLevelAnswers (compaction : Compaction) : (Nat -> Nat) -> List UserKey -> List Bool
  | _, [] => []
  | levelPtrs, userKey :: userKeys =>
    let answer := compaction.isBaseLevelForKey levelPtrs userKey
    answer.1 :: compaction.baseLevelAnswers answer.2 userKeys

section
variable (ordered : OrderedAbove compaction.inputFiles) {userKeys : List UserKey}
  (nondecreasing : userKeys.Pairwise (fun a b => a ≤ b))
include ordered nondecreasing

theorem baseLevelAnswers_of_skipped
    (skipped : ∀ userKey ∈ userKeys, Skipped compaction.inputFiles levelPtrs userKey) :
    compaction.baseLevelAnswers levelPtrs userKeys =
      userKeys.map (fun userKey => decide (compaction.IsBaseLevel userKey)) := by
  induction userKeys generalizing levelPtrs with
  | nil => rfl
  | cons userKey userKeys ih =>
    rcases pairwise_cons.mp nondecreasing with ⟨least, others⟩
    rcases isBaseLevelForKey_spec ordered (skipped userKey mem_cons_self) with ⟨base, next⟩
    have later := ih others (fun other member => next.mono (least other member))
    rw [Compaction.baseLevelAnswers, later, map_cons, Bool.eq_iff_iff.mpr
      (base.trans decide_eq_true_iff.symm)]

/-- Calls with nondecreasing user keys tell exactly the keys that no deeper file covers. -/
theorem baseLevelAnswers_eq : compaction.baseLevelAnswers (fun _ => 0) userKeys =
      userKeys.map (fun userKey => decide (compaction.IsBaseLevel userKey)) :=
  baseLevelAnswers_of_skipped ordered nondecreasing nofun

end

/-! ## The entries that are kept -/

/-- The entries that are not dropped. -/
def keptEntries (compaction : Compaction) (smallestSnapshot : Nat) :
    DropState -> List Entry -> List Entry
  | _, [] => []
  | state, entry :: entries =>
    let visited := state.visit compaction smallestSnapshot entry.key
    if visited.1 then keptEntries compaction smallestSnapshot visited.2 entries
    else entry :: keptEntries compaction smallestSnapshot visited.2 entries

/-- A newer version of the user key is old enough for every snapshot. -/
def Shadowed (smallestSnapshot : Nat) (entries : List Entry) (entry : Entry) : Prop :=
  ∃ newer ∈ entries, newer.key.userKey = entry.key.userKey ∧ newer.key < entry.key ∧
    newer.key.sequence ≤ smallestSnapshot

/-- A deletion that every snapshot sees and that has nothing to hide. -/
def Obsolete (compaction : Compaction) (smallestSnapshot : Nat) (entry : Entry) : Prop :=
  entry.key.type = some .deletion ∧ entry.key.sequence ≤ smallestSnapshot ∧
    compaction.IsBaseLevel entry.key.userKey

instance (smallestSnapshot : Nat) (entries : List Entry) (entry : Entry) :
    Decidable (Shadowed smallestSnapshot entries entry) :=
  inferInstanceAs (Decidable (∃ newer ∈ entries, _))

instance (compaction : Compaction) (smallestSnapshot : Nat) (entry : Entry) :
    Decidable (Obsolete compaction smallestSnapshot entry) :=
  inferInstanceAs (Decidable (_ ∧ _))

/-- The state of the loop after the entries `seen`. -/
structure DropState.After (files : Nat -> List KeyFile) (seen : List Entry) (state : DropState) :
    Prop where
  start : seen = [] -> state.currentUserKey = none
  last : ∀ entry ∈ seen.getLast?, state.currentUserKey = some entry.key.userKey ∧
    state.lastSequenceForKey = entry.key.sequence
  skipped : forall userKey, (∀ entry ∈ seen, entry.key.userKey ≤ userKey) ->
    Skipped files state.levelPtrs userKey

theorem DropState.after_start (files : Nat -> List KeyFile) : DropState.start.After files [] where
  start := fun _ => rfl
  last := nofun
  skipped := fun _ _ _ _ member => by
    cases member

variable {seen : List Entry}

section Visit
variable {compaction : Compaction} {smallestSnapshot : Nat}
  (below : smallestSnapshot < kMaxSequenceNumber)
include below

/-- The previous entry tells whether a newer version is old enough. -/
theorem DropState.After.lastSequence_le {state : DropState} {entry : Entry}
    (after : state.After compaction.inputFiles seen)
    (ordered : InKeyOrder (seen ++ [entry])) :
    state.lastSequence entry.key.userKey ≤ smallestSnapshot <->
      Shadowed smallestSnapshot seen entry := by
  have ascending := pairwise_append.mp ordered
  have smaller : ∀ other ∈ seen, other.key < entry.key :=
    fun other member => ascending.2.2 other member entry mem_cons_self
  unfold DropState.lastSequence
  rcases eq_nil_or_concat' seen with rfl | ⟨front, last, rfl⟩
  · rw [after.start rfl, if_neg nofun]
    constructor
    · omega
    · rintro ⟨_, member, _⟩
      cases member
  · rcases after.last last (by simp) with ⟨current, sequence⟩
    have condition : state.currentUserKey = some entry.key.userKey <->
        last.key.userKey = entry.key.userKey := by
      rw [current, Option.some.injEq]
    have inLast : last ∈ front ++ [last] := mem_concat_self
    constructor
    · intro old
      split at old
      · next same =>
          rw [sequence] at old
          exact ⟨last, inLast, condition.mp same, smaller last inLast, old⟩
      · omega
    · rintro ⟨newer, member, same, _, old⟩
      -- the last entry lies between the newer version and this one
      have between : newer.key ≤ last.key := by
        rcases mem_concat.mp member with inFront | rfl
        · exact le_of_lt ((pairwise_concat.mp ascending.1).2 newer inFront)
        · exact le_rfl
      have lower := InternalKey.userKey_le_of_le between
      have upper := InternalKey.userKey_le_of_le (le_of_lt (smaller last inLast))
      have sameLast : last.key.userKey = entry.key.userKey :=
        le_antisymm upper (same ▸ lower)
      rw [if_pos (condition.mpr sameLast), sequence]
      rcases lt_or_eq_of_le between with before | equal
      · have tags := (InternalKey.lt_iff_of_userKey_eq (same.trans sameLast.symm)).mp before
        exact le_trans (InternalKey.sequence_le_of_tag_le (le_of_lt tags)) old
      · rw [<- equal]
        exact old

theorem DropState.After.visit {state : DropState} {entry : Entry}
    (levels : OrderedLevels compaction.inputFiles) (after : state.After compaction.inputFiles seen)
    (ordered : InKeyOrder (seen ++ [entry]))
    (parses : entry.key.type.isSome) :
    ((state.visit compaction smallestSnapshot entry.key).1 = true <->
      Shadowed smallestSnapshot seen entry ∨ Obsolete compaction smallestSnapshot entry) ∧
    (state.visit compaction smallestSnapshot entry.key).2.After compaction.inputFiles
      (seen ++ [entry]) := by
  rcases Option.isSome_iff_exists.mp parses with ⟨type, isType⟩
  have parsed : entry.key.parse = some ⟨entry.key.userKey, entry.key.sequence, type⟩ := by
    unfold InternalKey.parse
    rw [isType]
    rfl
  have shadow := after.lastSequence_le below ordered
  have reached : ∀ other ∈ seen, other.key.userKey ≤ entry.key.userKey :=
    fun other member => InternalKey.userKey_le_of_le (le_of_lt
      ((pairwise_concat.mp ordered).2 other member))
  have skipped := after.skipped entry.key.userKey reached
  have next {levelPtrs : Nat -> Nat}
      (skippedNext : Skipped compaction.inputFiles levelPtrs entry.key.userKey) :
      (DropState.mk (some entry.key.userKey) entry.key.sequence levelPtrs).After
        compaction.inputFiles (seen ++ [entry]) := by
    refine ⟨fun impossible => ?_, fun other isLast => ?_, fun userKey bound => ?_⟩
    · simp at impossible
    · rw [getLast?_concat] at isLast
      cases isLast
      exact ⟨rfl, rfl⟩
    · exact skippedNext.mono (bound entry mem_concat_self)
  unfold DropState.visit
  rw [parsed]
  dsimp only
  by_cases shadowed : state.lastSequence entry.key.userKey ≤ smallestSnapshot
  · rw [if_pos shadowed]
    exact ⟨⟨fun _ => Or.inl (shadow.mp shadowed), fun _ => rfl⟩, next skipped⟩
  · rw [if_neg shadowed]
    have notShadowed := fun holds => shadowed (shadow.mpr holds)
    by_cases deletion : type = .deletion ∧ entry.key.sequence ≤ smallestSnapshot
    · rcases isBaseLevelForKey_spec levels.above skipped with ⟨base, skippedNext⟩
      rw [if_pos deletion]
      refine ⟨base.trans ⟨fun isBase => Or.inr ⟨?_, deletion.2, isBase⟩, ?_⟩, next skippedNext⟩
      · rw [isType, deletion.1]
      · rintro (holds | obsolete)
        · exact absurd holds notShadowed
        · exact obsolete.2.2
    · rw [if_neg deletion]
      refine ⟨⟨nofun, ?_⟩, next skipped⟩
      rintro (holds | obsolete)
      · exact absurd holds notShadowed
      · refine absurd ⟨?_, obsolete.2.1⟩ deletion
        exact Option.some.inj (isType.symm.trans obsolete.1)

theorem keptEntries_eq_filter (levels : OrderedLevels compaction.inputFiles)
    (entries seen : List Entry) (state : DropState) (after : state.After compaction.inputFiles seen)
    (ordered : InKeyOrder (seen ++ entries))
    (parse : ∀ entry ∈ entries, entry.key.type.isSome) :
    keptEntries compaction smallestSnapshot state entries =
      entries.filter (fun entry => ¬ (Shadowed smallestSnapshot (seen ++ entries) entry ∨
        Obsolete compaction smallestSnapshot entry)) := by
  induction entries generalizing seen state with
  | nil => rfl
  | cons entry entries ih =>
    rcases forall_mem_cons.mp parse with ⟨parses, later⟩
    have split : seen ++ entry :: entries = (seen ++ [entry]) ++ entries := by simp
    rw [split] at ordered ⊢
    have front := (pairwise_append.mp ordered).1
    rcases after.visit below levels front parses with ⟨dropped, next⟩
    have shadow : Shadowed smallestSnapshot ((seen ++ [entry]) ++ entries) entry <->
        Shadowed smallestSnapshot seen entry := by
      constructor
      · rintro ⟨newer, member, same, less, old⟩
        refine ⟨newer, ?_, same, less, old⟩
        rcases mem_append.mp member with early | late
        · rcases mem_concat.mp early with inSeen | rfl
          · exact inSeen
          · exact absurd less (lt_irrefl _)
        · have after := (pairwise_append.mp ordered).2.2 entry mem_concat_self newer late
          exact absurd less (lt_asymm after)
      · rintro ⟨newer, member, rest⟩
        exact ⟨newer, mem_append_left _ (mem_append_left _ member), rest⟩
    have rest := ih _ _ next ordered later
    by_cases drop : (state.visit compaction smallestSnapshot entry.key).1 = true
    · have gone : ¬ decide (¬ (Shadowed smallestSnapshot ((seen ++ [entry]) ++ entries) entry ∨
          Obsolete compaction smallestSnapshot entry)) = true := by
        rw [decide_eq_true_iff, not_not, shadow]
        exact dropped.mp drop
      rw [keptEntries, if_pos drop, filter_cons, if_neg gone]
      exact rest
    · have stays : decide (¬ (Shadowed smallestSnapshot ((seen ++ [entry]) ++ entries) entry ∨
          Obsolete compaction smallestSnapshot entry)) = true := by
        rw [decide_eq_true_iff, shadow]
        exact fun holds => drop (dropped.mpr holds)
      rw [keptEntries, if_neg drop, filter_cons, if_pos stays, rest]

end Visit

/-- All entries written so far. -/
def Walk.written (walk : Walk) : List Entry := walk.outputs.flatten ++ walk.builder.getD []

/-- No output file is empty. -/
structure Walk.Filled (walk : Walk) : Prop where
  outputs : ∀ output ∈ walk.outputs, output ≠ []
  builder : ∀ entries ∈ walk.builder, entries ≠ []

omit [LinearOrder UserKey] in
theorem Walk.filled_start : Walk.start.Filled := ⟨nofun, nofun⟩

omit [LinearOrder UserKey] in
theorem Walk.written_finishOutput (walk : Walk) : walk.finishOutput.written = walk.written := by
  unfold written finishOutput
  cases walk.builder <;> simp

variable {walk : Walk}

omit [LinearOrder UserKey] in
theorem Walk.Filled.finishOutput (filled : walk.Filled) : walk.finishOutput.Filled := by
  refine ⟨fun output member => ?_, nofun⟩
  rcases mem_append.mp member with finished | last
  · exact filled.outputs output finished
  · exact filled.builder output (Option.mem_toList.mp last)

theorem Walk.stopBefore_spec (options : Options) (compaction : Compaction) (walk : Walk)
    (key : InternalKey) (filled : walk.Filled) : (walk.stopBefore options compaction key).Filled ∧
      (walk.stopBefore options compaction key).drop = walk.drop ∧
      (walk.stopBefore options compaction key).written = walk.written := by
  unfold stopBefore
  dsimp only
  split
  · exact ⟨⟨filled.finishOutput.outputs, filled.finishOutput.builder⟩, rfl,
      walk.written_finishOutput⟩
  · exact ⟨⟨filled.outputs, filled.builder⟩, rfl, rfl⟩

variable {entry : Entry}

theorem addEntry_eq_ok {entries result : List Entry} : addEntry entries entry = .ok result <->
      (∀ last ∈ entries.getLast?, last.key < entry.key) ∧ result = entries ++ [entry] :=
  assertThat_return_eq_ok

variable {sizes : TableSizes} {options : Options} {next : Walk}

theorem Walk.add_spec (filled : walk.Filled) (added : walk.add sizes options entry = .ok next) :
    next.Filled ∧ next.drop = walk.drop ∧ next.written = walk.written ++ [entry] := by
  rcases bind_eq_ok.mp added with ⟨_, appended, finish⟩
  rcases addEntry_eq_ok.mp appended with ⟨_, rfl⟩
  have opened :
      ({ walk with builder := some (walk.builder.getD [] ++ [entry]) } : Walk).Filled := by
    refine ⟨filled.outputs, ?_⟩
    simp
  have written : ({ walk with builder := some (walk.builder.getD [] ++ [entry]) } : Walk).written =
      walk.written ++ [entry] := by
    unfold Walk.written
    rw [Option.getD_some, append_assoc]
  cases finish
  split
  · exact ⟨opened.finishOutput, rfl, by rw [written_finishOutput, written]⟩
  · exact ⟨opened, rfl, written⟩

variable {smallestSnapshot : Nat}

/-- One pass writes the entry unless it is dropped. -/
theorem Walk.step_spec (filled : walk.Filled)
    (stepped : walk.step sizes options compaction smallestSnapshot entry = .ok next) :
    next.Filled ∧ next.drop = (walk.drop.visit compaction smallestSnapshot entry.key).2 ∧
      next.written = walk.written ++
        (if (walk.drop.visit compaction smallestSnapshot entry.key).1 then [] else [entry]) := by
  rcases walk.stopBefore_spec options compaction entry.key filled with ⟨ready, same, written⟩
  unfold step at stepped
  dsimp only at stepped
  rw [same] at stepped
  have visited : ({ walk.stopBefore options compaction entry.key with
      drop := (walk.drop.visit compaction smallestSnapshot entry.key).2 } : Walk).Filled :=
    ⟨ready.outputs, ready.builder⟩
  by_cases dropped : (walk.drop.visit compaction smallestSnapshot entry.key).1 = true
  · rw [if_pos dropped] at stepped ⊢
    cases stepped
    exact ⟨visited, rfl, written.trans (append_nil _).symm⟩
  · rw [if_neg dropped] at stepped ⊢
    rcases Walk.add_spec visited stepped with ⟨filledNext, drop, writtenNext⟩
    exact ⟨filledNext, drop, writtenNext.trans (congrArg (fun list => list ++ [entry]) written)⟩

variable {entries : List Entry}

theorem Walk.foldlM_spec {finish : Walk} (filled : walk.Filled)
    (run : entries.foldlM (Walk.step sizes options compaction smallestSnapshot) walk = .ok finish) :
    finish.Filled ∧ finish.written =
      walk.written ++ keptEntries compaction smallestSnapshot walk.drop entries := by
  induction entries generalizing walk with
  | nil =>
    cases run
    exact ⟨filled, (append_nil _).symm⟩
  | cons entry entries ih =>
    rcases bind_eq_ok.mp run with ⟨_, stepped, rest⟩
    rcases Walk.step_spec filled stepped with ⟨filledNext, drop, written⟩
    rcases ih filledNext rest with ⟨filledFinish, writtenFinish⟩
    refine ⟨filledFinish, ?_⟩
    rw [writtenFinish, written, drop, append_assoc, keptEntries]
    by_cases dropped : (walk.drop.visit compaction smallestSnapshot entry.key).1 = true
    · rw [if_pos dropped, if_pos dropped, nil_append]
    · rw [if_neg dropped, if_neg dropped, singleton_append]

theorem Walk.step_total (filled : walk.Filled) (ordered : InKeyOrder (walk.written ++ [entry])) :
    ∃ next, walk.step sizes options compaction smallestSnapshot entry = .ok next := by
  rcases walk.stopBefore_spec options compaction entry.key filled with ⟨_, _, written⟩
  unfold step
  dsimp only
  split
  · exact ⟨_, rfl⟩
  · have below : ∀ last ∈ ((walk.stopBefore options compaction entry.key).builder.getD
        []).getLast?, last.key < entry.key := by
      intro last isLast
      rw [<- written] at ordered
      refine (pairwise_concat.mp ordered).2 last ?_
      exact mem_append_right _ (mem_of_getLast? isLast)
    exact ⟨_, bind_eq_ok.mpr ⟨_, addEntry_eq_ok.mpr ⟨below, rfl⟩, rfl⟩⟩

theorem Walk.foldlM_total (filled : walk.Filled) (ordered : InKeyOrder (walk.written ++ entries)) :
    ∃ finish, entries.foldlM (Walk.step sizes options compaction smallestSnapshot) walk =
      .ok finish := by
  induction entries generalizing walk with
  | nil => exact ⟨walk, rfl⟩
  | cons entry entries ih =>
    have split : walk.written ++ entry :: entries = (walk.written ++ [entry]) ++ entries := by
      simp
    rw [split] at ordered
    rcases Walk.step_total filled (pairwise_append.mp ordered).1 with ⟨next, stepped⟩
    rcases Walk.step_spec filled stepped with ⟨filledNext, _, written⟩
    have shorter : next.written.Sublist (walk.written ++ [entry]) := by
      rw [written]
      split
      · rw [append_nil]
        exact sublist_append_left _ _
      · exact List.Sublist.refl _
    rcases ih filledNext (ordered.sublist (shorter.append (List.Sublist.refl _))) with
      ⟨finish, run⟩
    exact ⟨finish, by rw [foldlM_cons, stepped]; exact run⟩

theorem outputEntries_spec {tables : Nat -> List Entry} {outputs : List (List Entry)}
    (run : compaction.outputEntries sizes options tables smallestSnapshot = .ok outputs) :
    outputs.flatten =
        keptEntries compaction smallestSnapshot .start (compaction.inputEntries tables) ∧
      ∀ output ∈ outputs, output ≠ [] := by
  rcases bind_eq_ok.mp run with ⟨walk, folded, finish⟩
  cases finish
  rcases Walk.foldlM_spec Walk.filled_start folded with ⟨filled, written⟩
  refine ⟨?_, filled.finishOutput.outputs⟩
  have flat : walk.finishOutput.outputs.flatten = walk.finishOutput.written :=
    (append_nil _).symm
  rw [flat, Walk.written_finishOutput, written]
  rfl

theorem outputEntries_total {tables : Nat -> List Entry} (smallestSnapshot : Nat)
    (ordered : InKeyOrder (compaction.inputEntries tables)) :
    ∃ outputs, compaction.outputEntries sizes options tables smallestSnapshot = .ok outputs := by
  rcases Walk.foldlM_total Walk.filled_start ordered with ⟨walk, folded⟩
  exact ⟨_, bind_eq_ok.mpr ⟨walk, folded, rfl⟩⟩

/-! ## The overlap of an output file with the grandparents -/

/-- What is counted while a file with this first key is open. -/
def Compaction.passedBytes (compaction : Compaction) (index : Nat) (first : InternalKey) : Nat :=
  totalFileSize ((compaction.grandparents.take index).filter (fun file => first ≤ file.largest))

/-- Few grandparents end in the output file, before its last key. -/
def Compaction.Bounded (options : Options) (compaction : Compaction) (output : List Entry) : Prop :=
  ∀ first ∈ output.head?, ∀ last ∈ output.getLast?, totalFileSize (compaction.grandparents.filter
    (fun file => first.key ≤ file.largest ∧ file.largest < last.key)) ≤
      options.maxGrandParentOverlapBytes

theorem skipGrandparents_eq (key : InternalKey) (files : List KeyFile) (state : StopState) :
    skipGrandparents key files state =
      ⟨state.grandparentIndex + (files.takeWhile (fun file => file.largest < key)).length,
        state.seenKey, if state.seenKey then state.overlappedBytes +
          totalFileSize (files.takeWhile (fun file => file.largest < key))
        else state.overlappedBytes⟩ := by
  induction files generalizing state with
  | nil => simp [skipGrandparents, totalFileSize]
  | cons file files ih =>
    rw [skipGrandparents, takeWhile_cons]
    by_cases passed : file.largest < key
    · rw [if_pos passed, ih, if_pos (decide_eq_true passed)]
      cases state.seenKey <;> simp [totalFileSize] <;> omega
    · simp [passed, totalFileSize]

/-- The counter of `ShouldStopBefore` bounds the overlap of the open file. -/
structure Walk.Within (options : Options) (compaction : Compaction) (seen : List Entry)
    (walk : Walk) : Prop where
  bounded : ∀ output ∈ walk.outputs ++ walk.builder.toList, compaction.Bounded options output
  counted : ∀ output ∈ walk.builder, walk.stop.seenKey = true ∧ ∀ first ∈ output.head?,
    compaction.passedBytes walk.stop.grandparentIndex first.key ≤ walk.stop.overlappedBytes
  passed : ∀ file ∈ compaction.grandparents.take walk.stop.grandparentIndex,
    ∃ entry ∈ seen, file.largest < entry.key

theorem Walk.Within.finishOutput (within : walk.Within options compaction seen) :
    walk.finishOutput.Within options compaction seen :=
  ⟨by simpa [Walk.finishOutput] using within.bounded, nofun, within.passed⟩

section
variable (ordered : compaction.grandparents.Pairwise (fun a b => a.largest ≤ b.largest))
include ordered

/-- After the check the counter is small, and all grandparents before the key are passed. -/
theorem Walk.Within.stopBefore (within : walk.Within options compaction seen) (entry : Entry) :
    ∃ index bytes, (walk.stopBefore options compaction entry.key).stop = ⟨index, true, bytes⟩ ∧
      bytes ≤ options.maxGrandParentOverlapBytes ∧
      (∀ file ∈ compaction.grandparents.drop index, ¬ file.largest < entry.key) ∧
      (walk.stopBefore options compaction entry.key).Within options compaction
        (seen ++ [entry]) := by
  have skips := skipGrandparents_eq entry.key
    (compaction.grandparents.drop walk.stop.grandparentIndex) walk.stop
  rcases split_takeWhile compaction.grandparents (fun file => file.largest < entry.key)
    walk.stop.grandparentIndex with ⟨front, back⟩
  have rest : (compaction.grandparents.drop walk.stop.grandparentIndex).Pairwise
      (fun a b => decide (b.largest < entry.key) = true -> decide (a.largest < entry.key) = true) :=
    (ordered.sublist (drop_sublist _ _)).imp fun below less =>
      decide_eq_true (lt_of_le_of_lt below (of_decide_eq_true less))
  rw [(while_eq_filter rest).2] at back
  have ends : ∀ file ∈ (compaction.grandparents.drop walk.stop.grandparentIndex).takeWhile
      (fun file => file.largest < entry.key), file.largest < entry.key := by
    intro file member
    have less := mem_takeWhile_imp member
    exact of_decide_eq_true less
  generalize (compaction.grandparents.drop walk.stop.grandparentIndex).takeWhile
    (fun file => file.largest < entry.key) = passes at *
  generalize indexEq : walk.stop.grandparentIndex + passes.length = index at *
  have behind : ∀ file ∈ compaction.grandparents.drop index, ¬ file.largest < entry.key := by
    rw [back]
    simp
  have passed : ∀ file ∈ compaction.grandparents.take index,
      ∃ other ∈ seen ++ [entry], file.largest < other.key := by
    rw [front]
    refine forall_mem_append.mpr ⟨fun file before => ?_, fun file before =>
      ⟨entry, mem_concat_self, ends file before⟩⟩
    rcases within.passed file before with ⟨other, isSeen, less⟩
    exact ⟨other, mem_append_left _ isSeen, less⟩
  generalize bytesEq : (if walk.stop.seenKey then walk.stop.overlappedBytes + totalFileSize passes
    else walk.stop.overlappedBytes) = bytes at skips
  by_cases large : bytes > options.maxGrandParentOverlapBytes
  · refine ⟨index, 0, ?_⟩
    simp only [Walk.stopBefore, Compaction.shouldStopBefore, skips, if_pos large, if_true]
    exact ⟨trivial, Nat.zero_le _, behind, within.finishOutput.bounded, nofun, passed⟩
  · refine ⟨index, bytes, ?_⟩
    simp only [Walk.stopBefore, Compaction.shouldStopBefore, skips, if_neg large]
    refine ⟨trivial, not_lt.mp large, behind, within.bounded, fun output isOpen =>
      ⟨rfl, fun first isFirst => ?_⟩, passed⟩
    rcases within.counted output isOpen with ⟨seenKey, counted⟩
    rw [Compaction.passedBytes, front, filter_append, totalFileSize_append, <- bytesEq,
      if_pos seenKey]
    exact Nat.add_le_add (counted first isFirst) (totalFileSize_le filter_sublist)

/-- One pass, for an entry that is not before the earlier ones. -/
theorem Walk.Within.step (sorted : (seen ++ [entry]).Pairwise (fun a b => a.key ≤ b.key))
    (within : walk.Within options compaction seen)
    (stepped : walk.step sizes options compaction smallestSnapshot entry = .ok next) :
    next.Within options compaction (seen ++ [entry]) := by
  rcases within.stopBefore ordered entry with ⟨index, bytes, stop, small, behind, ready⟩
  have latest : ∀ other ∈ seen ++ [entry], other.key ≤ entry.key :=
    forall_mem_concat.mpr ⟨(pairwise_concat.mp sorted).2, le_refl _⟩
  unfold Walk.step at stepped
  dsimp only at stepped
  generalize walk.stopBefore options compaction entry.key = before at *
  split at stepped
  · cases stepped
    exact { ready with }
  · rcases bind_eq_ok.mp stepped with ⟨_, added, finish⟩
    rcases addEntry_eq_ok.mp added with ⟨_, rfl⟩
    have counted : ∀ first ∈ (before.builder.getD [] ++ [entry]).head?,
        compaction.passedBytes index first.key ≤ bytes := by
      intro first isFirst
      rw [head?_append, Option.mem_def, Option.or_eq_some_iff] at isFirst
      rcases isFirst with old | ⟨_, new⟩
      · cases isOpen : before.builder with
        | none =>
          rw [isOpen] at old
          cases old
        | some output =>
          rw [isOpen] at old
          have counts := (ready.counted output isOpen).2 first old
          rw [stop] at counts
          exact counts
      · cases new
        have none : (compaction.grandparents.take index).filter
            (fun file => entry.key ≤ file.largest) = [] := by
          refine filter_eq_nil_iff.mpr fun file member reaches => ?_
          rcases ready.passed file (stop ▸ member) with ⟨other, isSeen, less⟩
          exact absurd (lt_of_lt_of_le less (latest other isSeen))
            (not_lt.mpr (of_decide_eq_true reaches))
        rw [Compaction.passedBytes, none]
        exact Nat.zero_le _
    have bounded : compaction.Bounded options (before.builder.getD [] ++ [entry]) := by
      intro first isFirst last isLast
      rw [getLast?_concat] at isLast
      cases isLast
      refine le_trans (totalFileSize_le ?_) (le_trans (counted first isFirst) small)
      nth_rewrite 1 [<- take_append_drop index compaction.grandparents]
      have none := filter_eq_nil_iff.mpr fun file member both =>
        behind file member (of_decide_eq_true (p := first.key ≤ file.largest ∧ _) both).2
      rw [filter_append, none, append_nil]
      exact monotone_filter_right _ fun file both => decide_eq_true (of_decide_eq_true both).1
    have opened : Walk.Within options compaction (seen ++ [entry])
        ⟨(before.drop.visit compaction smallestSnapshot entry.key).2, before.stop, before.outputs,
          some (before.builder.getD [] ++ [entry])⟩ := by
      refine ⟨forall_mem_concat.mpr ⟨(forall_mem_append.mp ready.bounded).1, bounded⟩, ?_,
        ready.passed⟩
      rintro _ ⟨⟩
      rw [stop]
      exact ⟨rfl, counted⟩
    cases finish
    split
    · exact opened.finishOutput
    · exact opened

end

variable {level : Nat} {inputs : List KeyFile} {finish : Walk} (levels : OrderedLevels files)
  (setup : setupOtherInputs options files level inputs = .ok compaction)
include levels setup

theorem grandparents_ordered : compaction.grandparents.Pairwise (fun a b => a.largest ≤ b.largest) := by
  rcases bind_eq_ok.mp setup with ⟨_, _, setup⟩
  rcases bind_eq_ok.mp setup with ⟨_, _, setup⟩
  rcases bind_eq_ok.mp setup with ⟨_, _, setup⟩
  rcases bind_eq_ok.mp setup with ⟨grandparents, found, setup⟩
  cases setup
  have part : grandparents <+ files (level + 2) := by
    unfold findGrandparents at found
    split at found
    · rw [(getOverlappingInputs_eq_ok.mp found).2, overlapping_of_pos (Nat.succ_ne_zero _)]
      exact filter_sublist
    · cases found
      exact nil_sublist _
  refine ((levels.disjoint (level + 2) (Nat.succ_pos _)).sublist part).imp_of_mem ?_
  exact fun _ isSecond before => le_trans (le_of_lt before)
    (levels.range _ _ (part.subset isSecond))

/-- Every output file of a compaction that was set up in ordered levels overlaps few
grandparents, whatever is dropped. -/
theorem outputs_bounded (sorted : entries.Pairwise (fun a b => a.key ≤ b.key))
    (run : entries.foldlM (Walk.step sizes options compaction smallestSnapshot) .start =
      .ok finish) :
    ∀ output ∈ finish.finishOutput.outputs, ∀ first ∈ output.head?, ∀ last ∈ output.getLast?,
      totalFileSize (compaction.grandparents.filter (fun file =>
        first.key ≤ file.largest ∧ file.largest < last.key)) ≤
          options.maxGrandParentOverlapBytes := by
  have ordered := grandparents_ordered levels setup
  have start : Walk.start.Within options compaction [] := ⟨nofun, nofun, nofun⟩
  have within : finish.Within options compaction entries :=
    foldlM_invariant (fun seen (walk : Walk) =>
        seen.Pairwise (fun a b : Entry => a.key ≤ b.key) -> walk.Within options compaction seen)
      (fun _ _ _ _ before stepped sorted =>
        (before (pairwise_concat.mp sorted).1).step ordered sorted stepped)
      (fun _ => start) run sorted
  exact (forall_mem_append.mp within.finishOutput.bounded).1

end

section Bytewise

open Bytewise

/-- A file and a grandparent that ends between its keys. -/
def overlapFiles (level : Nat) : List KeyFile :=
  if level = 1 then [⟨5, 1, ⟨⟨[97]⟩, 257⟩, ⟨⟨[99]⟩, 257⟩⟩]
  else if level = 3 then [⟨6, 11, ⟨⟨[97]⟩, 257⟩, ⟨⟨[98]⟩, 257⟩⟩]
  else []

def overlapEntries : List Entry := [⟨⟨⟨[97]⟩, 257⟩, []⟩, ⟨⟨⟨[99]⟩, 257⟩, []⟩]

theorem orderedLevels_overlapFiles : OrderedLevels overlapFiles := by
  refine ⟨fun level => ?_, fun level => ?_, fun level _ => ?_⟩
  all_goals
    unfold overlapFiles
    repeat' split
    all_goals simp <;> decide

theorem baseLevelAnswers_overlapFiles :
    Compaction.baseLevelAnswers ⟨1, [], [], [], overlapFiles, ⟨⟨[99]⟩, 257⟩⟩ (fun _ => 0)
      [⟨[98]⟩, ⟨[99]⟩] = [false, true] :=
  (baseLevelAnswers_eq orderedLevels_overlapFiles.above (by decide)).trans (by decide +kernel)

theorem outputs_bounded_overlapFiles :
    ∃ compaction, setupOtherInputs ⟨1⟩ overlapFiles 1 (overlapFiles 1) = .ok compaction ∧
      ∃ finish, overlapEntries.foldlM (Walk.step ⟨fun _ => 0, fun _ => 0⟩ ⟨1⟩ compaction 0) .start =
          .ok finish ∧
        ∀ output ∈ finish.finishOutput.outputs, compaction.Bounded ⟨1⟩ output := by
  have returns : (setupOtherInputs ⟨1⟩ overlapFiles 1 (overlapFiles 1)).toOption.isSome = true := by
    decide +kernel
  rcases exists_ok_of_isSome returns with ⟨compaction, setup⟩
  refine ⟨compaction, setup, ?_⟩
  have total : ∃ finish, overlapEntries.foldlM
      (Walk.step ⟨fun _ => 0, fun _ => 0⟩ ⟨1⟩ compaction 0) .start = .ok finish :=
    Walk.foldlM_total Walk.filled_start (by decide)
  rcases total with ⟨finish, run⟩
  exact ⟨finish, run, outputs_bounded orderedLevels_overlapFiles setup (by decide) run⟩

end Bytewise

end Db
end Doux
