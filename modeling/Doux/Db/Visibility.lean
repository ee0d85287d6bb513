import Doux.Foundation.Expiry
import Doux.Db.Run

namespace Doux
namespace Db

open Foundation Util Table List

/-!
# What a compaction lets readers see

A reader of a user key is told the value of the newest version up to its sequence
number, or nothing if this version is a deletion or there is none.  A compaction drops
versions.  It should not change what readers from the smallest snapshot on are told.

It drops a deletion when no file further down has the user key in range.  The older
versions that the deletion hides are then among the inputs, or in a file at the lower
level that the compaction leaves alone.  In the latter case they come to light.
-/

def versionEntries (files : Nat -> List KeyFile) (tables : Nat -> List Entry) : List Entry :=
  (List.range kNumLevels).flatMap
    (fun level => (files level).flatMap (fun file => tables file.number))

variable {entry : Entry}

theorem mem_versionEntries {files : Nat -> List KeyFile} {tables : Nat -> List Entry}
    (outside : ∀ level, kNumLevels ≤ level -> files level = []) :
    entry ∈ versionEntries files tables <-> ∃ level, InLevel files tables level entry := by
  simp only [versionEntries, mem_flatMap, mem_range]
  constructor
  · rintro ⟨level, _, found⟩
    exact ⟨level, found⟩
  · rintro ⟨level, file, member, found⟩
    refine ⟨level, ?_, file, member, found⟩
    by_contra beyond
    rw [outside level (not_lt.mp beyond)] at member
    cases member

def Entry.told (entry : Entry) : Option Bytes :=
  if entry.key.type = some .value then some entry.value else none

section
variable [LinearOrder UserKey]

/-- What the entries tell a reader of a user key. -/
def visibleValue (entries : List Entry) (userKey : UserKey) (sequence : Nat) : Option Bytes :=
  (entryVersions.findNewest userKey sequence entries).bind Entry.told

variable {tables : Nat -> List Entry}

theorem Layered.distinct {files : Nat -> List KeyFile} (layered : Layered files tables) :
    entryVersions.Distinct (versionEntries files tables) := by
  intro a inVersion _ alsoInVersion userKeys sequences
  rcases (mem_versionEntries layered.outside).mp inVersion with ⟨_, inUpper⟩
  rcases (mem_versionEntries layered.outside).mp alsoInVersion with ⟨_, inLower⟩
  exact layered.entry_eq inUpper inLower userKeys sequences

instance (compaction : Compaction) (level : Nat) (file : KeyFile) :
    Decidable (compaction.IsInput level file) :=
  inferInstanceAs (Decidable (_ ∨ _))

/-- The entries of the files that a compaction leaves alone. -/
def Compaction.leftEntries (compaction : Compaction) (tables : Nat -> List Entry) : List Entry :=
  versionEntries (fun level => (compaction.inputFiles level).filter
    (fun file => ¬ compaction.IsInput level file)) tables

/-- Obsolete deletions are dropped.  A smallest snapshot with the largest sequence number
makes the loop drop every entry, since this number also stands for a user key that has
not been seen yet. -/
def Compaction.Expires (compaction : Compaction) (smallestSnapshot : Nat) (entry : Entry) :
    Prop :=
  Obsolete compaction smallestSnapshot entry ∨ kMaxSequenceNumber ≤ smallestSnapshot

instance (compaction : Compaction) (smallestSnapshot : Nat) (entry : Entry) :
    Decidable (compaction.Expires smallestSnapshot entry) :=
  inferInstanceAs (Decidable (_ ∨ _))

/-- The newest version of a user key at the smallest snapshot is dropped from the inputs,
and the files that are left tell something else. -/
def Compaction.Reveals (compaction : Compaction) (tables : Nat -> List Entry)
    (smallestSnapshot : Nat) (userKey : UserKey) : Prop :=
  ∃ top, entryVersions.findNewest userKey smallestSnapshot
      (versionEntries compaction.inputFiles tables) = some top ∧
    top ∈ compaction.inputEntries tables ∧ compaction.Expires smallestSnapshot top ∧
    visibleValue (compaction.leftEntries tables) userKey smallestSnapshot ≠ top.told

variable {compaction : Compaction} {smallestSnapshot : Nat}

theorem keptEntries_eq_nil (used : kMaxSequenceNumber ≤ smallestSnapshot) (entries : List Entry)
    (state : DropState) (bounded : state.lastSequenceForKey ≤ kMaxSequenceNumber)
    (parse : ∀ entry ∈ entries, entry.key.type.isSome) :
    keptEntries compaction smallestSnapshot state entries = [] := by
  induction entries generalizing state with
  | nil => rfl
  | cons entry entries ih =>
    rcases Option.isSome_iff_exists.mp (parse entry mem_cons_self) with ⟨_, isType⟩
    have small : state.lastSequence entry.key.userKey ≤ smallestSnapshot := by
      unfold DropState.lastSequence
      split
      · exact le_trans bounded used
      · exact used
    have visited : state.visit compaction smallestSnapshot entry.key =
        (true, ⟨some entry.key.userKey, entry.key.sequence, state.levelPtrs⟩) := by
      simp [DropState.visit, InternalKey.parse, isType, small]
    rw [keptEntries, visited]
    exact ih _ entry.key.sequence_le_max
      (fun other member => parse other (mem_cons_of_mem _ member))

variable {entries : List Entry}

theorem keptEntries_start (levels : OrderedLevels compaction.inputFiles) (smallestSnapshot : Nat)
    (increasing : InKeyOrder entries)
    (parse : ∀ entry ∈ entries, entry.key.type.isSome) :
    keptEntries compaction smallestSnapshot .start entries =
      entries.filter (fun entry => ¬ (Shadowed smallestSnapshot entries entry ∨
        compaction.Expires smallestSnapshot entry)) := by
  by_cases below : smallestSnapshot < kMaxSequenceNumber
  · rw [keptEntries_eq_filter below levels entries [] .start (DropState.after_start _) increasing
      parse, nil_append]
    simp [Compaction.Expires, not_le.mpr below]
  · have used := not_lt.mp below
    rw [keptEntries_eq_nil used entries .start (le_refl _) parse]
    simp [Compaction.Expires, used]

theorem Walk.opened_le_foldlM {sizes : TableSizes} {options : Options} {walk finish : Walk}
    (run : entries.foldlM (Walk.step sizes options compaction smallestSnapshot) walk =
      .ok finish) : walk.opened ≤ finish.opened := by
  induction entries generalizing walk with
  | nil =>
    cases run
    exact le_refl _
  | cons entry entries ih =>
    rcases bind_eq_ok.mp run with ⟨_, stepped, rest⟩
    exact le_trans (Walk.opened_le_step stepped) (ih rest)

/-- The passes of the loop, with the numbers that its output files get. -/
theorem foldlM_compactEntry {config : Config} (remaining : List Entry) {db : Database}
    {work : Compacting} {finish : Walk} (running : db.compacting = some work)
    (isRemaining : work.remaining = remaining)
    (run : remaining.foldlM (Walk.step config.sizes config.options work.compaction
      work.smallestSnapshot) work.walk = .ok finish) :
    remaining.foldlM (fun db _ => db.compactEntry config) db = .ok { db with
      nextFileNumber := db.nextFileNumber + (finish.opened - work.walk.opened)
      compacting := some { work with
        remaining := []
        walk := finish
        numbers := work.numbers ++
          List.range' db.nextFileNumber (finish.opened - work.walk.opened) } } := by
  induction remaining generalizing db work with
  | nil =>
    cases work
    cases db
    simp_all [pure, Except.pure]
  | cons entry remaining ih =>
    rcases bind_eq_ok.mp run with ⟨next, stepped, rest⟩
    have opened := Walk.opened_le_step stepped
    have later := Walk.opened_le_foldlM rest
    have here : db.compactEntry config = .ok { db with
        nextFileNumber := db.nextFileNumber + (next.opened - work.walk.opened)
        compacting := some { work with
          remaining := remaining
          walk := next
          numbers := work.numbers ++
            List.range' db.nextFileNumber (next.opened - work.walk.opened) } } := by
      unfold Database.compactEntry
      rw [running]
      dsimp only
      rw [isRemaining]
      exact bind_eq_ok.mpr ⟨next, stepped, rfl⟩
    have sum : next.opened - work.walk.opened + (finish.opened - next.opened) =
        finish.opened - work.walk.opened := by omega
    refine bind_eq_ok.mpr ⟨_, here, ?_⟩
    rw [ih rfl rfl rest]
    simp [add_assoc, sum]

theorem Compaction.Complete.parses {files : Nat -> List KeyFile}
    (complete : compaction.Complete files) (layered : Layered files tables) :
    ∀ entry ∈ compaction.inputEntries tables, entry.key.type.isSome := by
  intro entry member
  rcases Compaction.mem_inputEntries.mp member with ⟨level, input, isInput, inInput⟩
  exact (layered.described level input (complete.mem_files isInput)).parses entry inInput

/-- The state in which all entries of a compaction have been read. -/
def Database.allRead (db : Database) (compaction : Compaction) (walk : Walk) : Database :=
  { db with
    nextFileNumber := db.nextFileNumber + walk.opened
    compacting := some ⟨compaction, db.smallestSnapshot, [], walk,
      List.range' db.nextFileNumber walk.opened⟩ }

theorem doCompactionWork_of_allRead {config : Config} {db next : Database}
    (present : db.current.files compaction.level ≠ []) {walk : Walk}
    (run : (compaction.inputEntries db.tables).foldlM
      (Walk.step config.sizes config.options compaction db.smallestSnapshot) .start = .ok walk)
    {prepared : Prepared}
    (finished : (db.allRead compaction walk).finishCompaction config = .ok prepared)
    (installed : prepared.install config = .ok next) :
    db.doCompactionWork config compaction = .ok next := by
  have begun : db.beginCompaction compaction = .ok { db with
      compacting := some ⟨compaction, db.smallestSnapshot, compaction.inputEntries db.tables,
        .start, []⟩ } :=
    assertThat_bind_eq_ok.mpr ⟨present, rfl⟩
  exact bind_eq_ok.mpr ⟨_, begun, bind_eq_ok.mpr ⟨_, foldlM_compactEntry _ rfl rfl run,
    bind_eq_ok.mpr ⟨_, finished, installed⟩⟩⟩

/-- The output files with consecutive numbers. -/
def Walk.numbered (walk : Walk) (first : Nat) : List (Nat × List Entry) :=
  (List.range' first walk.opened).zip walk.finishOutput.outputs

section
omit [LinearOrder UserKey]

theorem Walk.map_fst_numbered (walk : Walk) (first : Nat) :
    (walk.numbered first).map Prod.fst = List.range' first walk.opened := by
  refine map_fst_zip (le_of_eq ?_)
  rw [length_range', Walk.length_outputs_finishOutput]

theorem Walk.map_snd_numbered (walk : Walk) (first : Nat) :
    (walk.numbered first).map Prod.snd = walk.finishOutput.outputs := by
  refine map_snd_zip (le_of_eq ?_)
  rw [length_range', Walk.length_outputs_finishOutput]

theorem Walk.nodup_numbered (walk : Walk) (first : Nat) :
    ((walk.numbered first).map Prod.fst).Nodup := by
  rw [walk.map_fst_numbered]
  exact nodup_range'

end

section Outputs
variable {config : Config} {files : Nat -> List KeyFile} {walk : Walk}
  (complete : compaction.Complete files) (layered : Layered files tables)
  (run : (compaction.inputEntries tables).foldlM
    (Walk.step config.sizes config.options compaction smallestSnapshot) .start = .ok walk)
include complete layered run

/-- The output files have the entries that are kept. -/
theorem flatten_numbered (first : Nat) :
    ((walk.numbered first).map Prod.snd).flatten = (compaction.inputEntries tables).filter
        (fun entry => ¬ (Shadowed smallestSnapshot (compaction.inputEntries tables) entry ∨
          compaction.Expires smallestSnapshot entry)) ∧
      ∀ table ∈ walk.numbered first, table.2 ≠ [] := by
  have levels : OrderedLevels compaction.inputFiles := by
    rw [complete.inputFiles]
    exact layered.orderedLevels
  have output : compaction.outputEntries config.sizes config.options tables smallestSnapshot =
      .ok walk.finishOutput.outputs := bind_eq_ok.mpr ⟨walk, run, rfl⟩
  rcases outputEntries_spec output with ⟨kept, filled⟩
  refine ⟨?_, fun table member => filled table.2 ?_⟩
  · rw [walk.map_snd_numbered, kept]
    exact keptEntries_start levels _ (complete.inputEntries_increasing layered)
      (complete.parses layered)
  · rw [<- walk.map_snd_numbered first]
    exact mem_map_of_mem member

theorem results_numbered {first : Nat}
    (numbers : ∀ level, ∀ file ∈ files level, file.number < first) :
    compaction.Results files tables ((walk.numbered first).map (outputFile config.sizes))
      (writeTables tables (walk.numbered first)) := by
  rcases flatten_numbered complete layered run first with ⟨flat, filled⟩
  refine results_of_written config.sizes (walk.nodup_numbered first)
    (complete.inputEntries_increasing layered) (complete.parses layered) ?_ filled ?_
  · rw [flat]
    exact filter_sublist
  · intro _ member level file isFile
    have isNumber := mem_map_of_mem (f := Prod.fst) member
    rw [walk.map_fst_numbered] at isNumber
    exact ne_of_lt (lt_of_lt_of_le (numbers level file isFile) (mem_range'_1.mp isNumber).1)

end Outputs

theorem doCompactionWork_spec (config : Config) (db : Database)
    (layered : Layered db.current.files db.tables) (complete : compaction.Complete db.current.files)
    (numbers : ∀ level, ∀ file ∈ db.current.files level, file.number < db.nextFileNumber) :
    ∃ next outputs, db.doCompactionWork config compaction = .ok next ∧
      Replacement compaction outputs db.current.files db.tables next.current.files next.tables ∧
      ∀ entry, (∃ output ∈ outputs, entry ∈ next.tables output.number) <->
        entry ∈ compaction.inputEntries db.tables ∧
          ¬ (Shadowed db.smallestSnapshot (compaction.inputEntries db.tables) entry ∨
            compaction.Expires db.smallestSnapshot entry) := by
  have total : ∃ outputs, compaction.outputEntries config.sizes config.options db.tables
      db.smallestSnapshot = .ok outputs :=
    outputEntries_total _ (complete.inputEntries_increasing layered)
  rcases total with ⟨_, output⟩
  rcases bind_eq_ok.mp output with ⟨walk, run, _⟩
  let written := walk.numbered db.nextFileNumber
  rcases flatten_numbered complete layered run db.nextFileNumber with ⟨flat, filled⟩
  have present : db.current.files compaction.level ≠ [] := by
    rcases exists_mem_of_ne_nil _ complete.chosen.nonempty with ⟨input, isInput⟩
    exact ne_nil_of_mem (complete.chosen.subset input isInput)
  let finish : Database := { db.allRead compaction walk with
    tables := writeTables db.tables written
    compacting := none }
  have finished : (db.allRead compaction walk).finishCompaction config =
      .ok ⟨finish, some (compaction.resultEdit (written.map (outputFile config.sizes)))⟩ :=
    bind_eq_ok.mpr ⟨_, (mapM_describe config.sizes written _).mpr ⟨rfl, filled⟩, rfl⟩
  have replacement : Replacement compaction (written.map (outputFile config.sizes))
      db.current.files db.tables
      (finish.edited config
        (compaction.resultEdit (written.map (outputFile config.sizes)))).current.files
      (writeTables db.tables written) :=
    (results_numbered complete layered run numbers).replacement layered (complete.fits layered)
  refine ⟨_, _, doCompactionWork_of_allRead present run finished (Database.logAndApply_of_layered
    (compaction.inRange_resultEdit _ config.mod complete.below) (replacement.layered layered)),
    replacement, ?_⟩
  intro entry
  change (∃ output ∈ written.map (outputFile config.sizes),
    entry ∈ writeTables db.tables written output.number) <-> _
  rw [exists_output_iff config.sizes (walk.nodup_numbered _), flat, mem_filter, decide_eq_true_iff]

/-! ## What readers are told -/

/-- Among entries that their sequence numbers identify, a newer key is a newer version. -/
theorem shadowed_iff_hidden (distinct : entryVersions.Distinct entries)
    (member : entry ∈ entries) : Shadowed smallestSnapshot entries entry <->
      entryVersions.Hidden smallestSnapshot entries entry := by
  constructor
  · rintro ⟨newer, isNewer, same, before, visible⟩
    have tags := (InternalKey.lt_iff_of_userKey_eq same).mp before
    refine ⟨newer, isNewer, same, lt_of_le_of_ne
      (InternalKey.sequence_le_of_tag_le (le_of_lt tags)) ?_, visible⟩
    intro sequences
    rw [distinct entry member newer isNewer same.symm sequences] at before
    exact lt_irrefl _ before
  · rintro ⟨newer, isNewer, same, larger, visible⟩
    exact ⟨newer, isNewer, same, (InternalKey.lt_iff_of_userKey_eq same).mpr
      (InternalKey.tag_lt_of_sequence_lt larger), visible⟩

theorem Compaction.mem_leftEntries
    (outside : ∀ level, kNumLevels ≤ level -> compaction.inputFiles level = []) :
    entry ∈ compaction.leftEntries tables <-> ∃ level, ∃ file ∈ compaction.inputFiles level,
        ¬ compaction.IsInput level file ∧ entry ∈ tables file.number := by
  unfold leftEntries
  rw [mem_versionEntries (fun level beyond => by rw [outside level beyond]; rfl)]
  simp only [InLevel, mem_filter, decide_eq_true_iff, and_assoc]

section Collects
variable {db next : Database} {outputs : List KeyFile}
  (layered : Layered db.current.files db.tables)
  (inputFiles : compaction.inputFiles = db.current.files)
  (replacement : Replacement compaction outputs db.current.files db.tables next.current.files
    next.tables)
include layered inputFiles replacement

theorem Replacement.mem_all : entry ∈ versionEntries db.current.files db.tables <->
      entry ∈ compaction.inputEntries db.tables ∨ entry ∈ compaction.leftEntries db.tables := by
  rw [mem_versionEntries layered.outside, Compaction.mem_inputEntries,
    Compaction.mem_leftEntries (by rw [inputFiles]; exact layered.outside), inputFiles]
  constructor
  · rintro ⟨level, file, member, found⟩
    by_cases isInput : compaction.IsInput level file
    · exact Or.inl ⟨level, file, isInput, found⟩
    · exact Or.inr ⟨level, file, member, isInput, found⟩
  · rintro (⟨level, file, isInput, found⟩ | ⟨level, file, member, _, found⟩)
    · exact ⟨level, file, replacement.fits.inputs level file isInput, found⟩
    · exact ⟨level, file, member, found⟩

theorem Replacement.mem_new : entry ∈ versionEntries next.current.files next.tables <->
      entry ∈ compaction.leftEntries db.tables ∨
        ∃ output ∈ outputs, entry ∈ next.tables output.number := by
  rw [mem_versionEntries (replacement.layered layered).outside,
    Compaction.mem_leftEntries (by rw [inputFiles]; exact layered.outside), inputFiles]
  constructor
  · rintro ⟨level, file, member, found⟩
    rcases (replacement.mem level file).mp member with ⟨old, stays⟩ | ⟨_, isOutput⟩
    · rw [replacement.results.kept level file old stays] at found
      exact Or.inl ⟨level, file, old, stays, found⟩
    · exact Or.inr ⟨file, isOutput, found⟩
  · rintro (⟨level, file, old, stays, found⟩ | ⟨output, isOutput, found⟩)
    · refine ⟨level, file, (replacement.mem level file).mpr (Or.inl ⟨old, stays⟩), ?_⟩
      rw [replacement.results.kept level file old stays]
      exact found
    · exact ⟨_, output, (replacement.mem _ output).mpr (Or.inr ⟨rfl, isOutput⟩), found⟩

theorem Replacement.collects
    (kept : ∀ entry, (∃ output ∈ outputs, entry ∈ next.tables output.number) <->
      entry ∈ compaction.inputEntries db.tables ∧
        ¬ (Shadowed smallestSnapshot (compaction.inputEntries db.tables) entry ∨
          compaction.Expires smallestSnapshot entry)) :
    entryVersions.Collects smallestSnapshot (compaction.Expires smallestSnapshot)
      (versionEntries db.current.files db.tables) (compaction.inputEntries db.tables)
      (compaction.leftEntries db.tables) (versionEntries next.current.files next.tables) where
  distinct := layered.distinct
  all := fun _ => replacement.mem_all layered inputFiles
  within := by
    rintro entry _ (⟨_, visible, _⟩ | used)
    · exact visible
    · exact le_trans entry.key.sequence_le_max used
  kept := by
    intro entry
    rw [replacement.mem_new layered inputFiles, kept entry, not_or]
    have distinct : entryVersions.Distinct (compaction.inputEntries db.tables) :=
      fun a isInput b alsoInput => layered.distinct a
        ((replacement.mem_all layered inputFiles).mpr (Or.inl isInput)) b
        ((replacement.mem_all layered inputFiles).mpr (Or.inl alsoInput))
    refine or_congr_right (and_congr_right fun isInput => and_congr_left' (not_congr ?_))
    exact shadowed_iff_hidden distinct isInput

end Collects

/-- A compaction of layered files succeeds, and readers from the smallest snapshot on are
told the same before and after it unless it reveals an older version. -/
theorem doCompactionWork_keepsValues_iff (config : Config) (db : Database) (request : Request)
    (compaction : Compaction) (layered : Layered db.current.files db.tables)
    (numbers : forall level, ∀ file ∈ db.current.files level, file.number < db.nextFileNumber)
    (picked : db.pick config request = .ok (some compaction)) :
    ∃ next, (db.picked compaction).doCompactionWork config compaction = .ok next ∧
      ((forall userKey sequence, db.smallestSnapshot ≤ sequence ->
          visibleValue (versionEntries next.current.files next.tables) userKey sequence =
            visibleValue (versionEntries db.current.files db.tables) userKey sequence) <->
        forall userKey, ¬ compaction.Reveals db.tables db.smallestSnapshot userKey) := by
  have complete := pickCompaction_complete _ layered.orderedLevels picked
  rcases doCompactionWork_spec config (db.picked compaction) layered complete numbers with
    ⟨next, _, worked, replacement, kept⟩
  have collects := replacement.collects layered complete.inputFiles kept
  refine ⟨next, worked, (collects.told_iff Entry.told).trans ?_⟩
  unfold Compaction.Reveals
  rw [complete.inputFiles]
  push Not
  rfl

theorem Compaction.not_reveals_of_puts (below : smallestSnapshot < kMaxSequenceNumber)
    (puts : ∀ entry ∈ compaction.inputEntries tables, entry.key.type ≠ some .deletion)
    (userKey : UserKey) : ¬ compaction.Reveals tables smallestSnapshot userKey := by
  rintro ⟨top, _, isInput, obsolete | used, _⟩
  · exact puts top isInput obsolete.1
  · exact absurd below (not_lt.mpr used)

end

section Bytewise

open Bytewise

/-- Settings for small databases with entries of one megabyte, so that an output file is
full after two of them. -/
def Config.megabyteEntries (mod : Nat) (supported : mod ≠ 9) : Config :=
  { Config.plain mod supported with
    sizes := ⟨fun entries => 1048576 * entries.length, fun entries => 1048576 * entries.length⟩ }

/-- A put and a deletion of one user key are compacted by hand under a snapshot, which keeps
both, and the output file is full between them.  The snapshot is released, and another user
key of the first output file is written again. -/
def splitVersions : List Action :=
  [.write [.put ⟨[98]⟩ [1], .put ⟨[109]⟩ [2]], .getSnapshot, .write [.delete ⟨[109]⟩],
    .switchMemTable, .compactMemTable, .backgroundCompaction (.range 0 none none), .compactEntry,
    .compactEntry, .compactEntry, .finishCompaction, .releaseSnapshot 0,
    .write [.put ⟨[98]⟩ [3]], .switchMemTable, .compactMemTable]

/-- The next compaction takes the file with the deletion and drops it, and leaves the
file with the put. -/
theorem doCompactionWork_reveals : ∃ db compaction next,
    Database.run (.megabyteEntries 0 (by decide)) splitVersions = .ok db ∧
    Layered db.current.files db.tables ∧
    db.pick (.megabyteEntries 0 (by decide)) (.size 0) = .ok (some compaction) ∧
    (db.picked compaction).doCompactionWork (.megabyteEntries 0 (by decide)) compaction = .ok next ∧
    db.smallestSnapshot = 4 ∧
    visibleValue (versionEntries db.current.files db.tables) ⟨[109]⟩ 4 = none ∧
    visibleValue (versionEntries next.current.files next.tables) ⟨[109]⟩ 4 = some [2] := by
  have values : (Database.run (.megabyteEntries 0 (by decide)) splitVersions).toOption.bind
      (fun db => (db.pick (.megabyteEntries 0 (by decide)) (.size 0)).toOption.bind
        (fun picked => picked.bind (fun compaction => ((db.picked compaction).doCompactionWork
            (.megabyteEntries 0 (by decide)) compaction).toOption.bind
              (fun next => some (db.smallestSnapshot,
                visibleValue (versionEntries db.current.files db.tables) ⟨[109]⟩ 4,
                visibleValue (versionEntries next.current.files next.tables) ⟨[109]⟩ 4))))) =
      some (4, none, some [2]) := by
    decide +kernel
  rcases Option.bind_eq_some_iff.mp values with ⟨db, run, picks⟩
  rcases Option.bind_eq_some_iff.mp picks with ⟨_, picking, chooses⟩
  rcases Option.bind_eq_some_iff.mp chooses with ⟨compaction, rfl, works⟩
  rcases Option.bind_eq_some_iff.mp works with ⟨next, worked, told⟩
  rcases Prod.mk.inj (Option.some.inj told) with ⟨smallest, values⟩
  rcases Prod.mk.inj values with ⟨before, after⟩
  have isRun := eq_ok_of_toOption run
  exact ⟨db, compaction, next, isRun, (inv_of_run (by decide) isRun).layered,
    eq_ok_of_toOption picking, eq_ok_of_toOption worked, smallest,
    before, after⟩

/-- Two puts of one user key in two files: the compaction keeps what readers are told. -/
theorem doCompactionWork_keepsValues_flushTwice : ∃ db compaction next,
    Database.run (.largeEntries 0 (by decide)) (flushTwice.take 6) = .ok db ∧
    db.pick (.largeEntries 0 (by decide)) (.size 0) = .ok (some compaction) ∧
    (db.picked compaction).doCompactionWork (.largeEntries 0 (by decide)) compaction = .ok next ∧
    forall userKey sequence, db.smallestSnapshot ≤ sequence ->
      visibleValue (versionEntries next.current.files next.tables) userKey sequence =
        visibleValue (versionEntries db.current.files db.tables) userKey sequence := by
  have picks : (Database.run (.largeEntries 0 (by decide)) (flushTwice.take 6)).toOption.bind
      (fun db => (db.pick (.largeEntries 0 (by decide)) (.size 0)).toOption.bind
        (fun picked => picked.bind
          (fun compaction => some (decide (∀ entry ∈ compaction.inputEntries db.tables,
            entry.key.type ≠ some .deletion))))) = some true := by
    decide +kernel
  rcases Option.bind_eq_some_iff.mp picks with ⟨db, run, picks⟩
  rcases Option.bind_eq_some_iff.mp picks with ⟨_, picking, chooses⟩
  rcases Option.bind_eq_some_iff.mp chooses with ⟨compaction, rfl, puts⟩
  have isRun := eq_ok_of_toOption run
  have inv := inv_of_run (by decide) isRun
  have isPicked := eq_ok_of_toOption picking
  rcases doCompactionWork_keepsValues_iff _ db (.size 0) compaction inv.layered inv.numbers
    isPicked with ⟨next, worked, keeps⟩
  have below := lt_of_le_of_lt inv.smallestSnapshot_le inv.bounded
  exact ⟨db, compaction, next, isRun, isPicked, worked, keeps.mpr
    (Compaction.not_reveals_of_puts below (of_decide_eq_true (Option.some.inj puts)))⟩

end Bytewise

end Db
end Doux
