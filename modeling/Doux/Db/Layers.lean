import Doux.Foundation.Newest
import Doux.Db.CompactionWork

namespace Doux
namespace Db

open Foundation Util List

/-!
# The layers of the key tree

The versions of a user key are spread over the levels of the tree.  A lookup goes
through the levels from the top, so the newer versions have to be at the lower
numbers, and at level zero in the files with the larger numbers.  `Layered` says that
the files of a version have this order, together with what the levels themselves
require: metadata that fits the contents, and no overlap above level zero.

A compaction moves entries one level down.  The choice of its inputs leaves behind,
at the upper level, only newer versions of the user keys it moves, and at the lower
level only files on one side of all its entries.  So the files after a compaction
are layered again.
-/

/-- Entries are versions of their user keys. -/
def entryVersions : Versioned Entry UserKey :=
  ⟨fun entry => entry.key.userKey, fun entry => entry.key.sequence⟩

section
variable [LinearOrder UserKey]

/-- The metadata of a file fits its entries, which are in order and of known types. -/
structure Describes (file : KeyFile) (entries : List Entry) : Prop where
  increasing : entries.Pairwise (fun a b => a.key < b.key)
  parses : ∀ entry ∈ entries, entry.key.type.isSome
  smallest : entries.head?.map Entry.key = some file.smallest
  largest : entries.getLast?.map Entry.key = some file.largest

variable {entry : Entry} {a b : Entry}

namespace Describes

variable {file : KeyFile} {entries : List Entry} (describes : Describes file entries)
include describes

theorem smallest_le (member : entry ∈ entries) : file.smallest ≤ entry.key := by
  have first := describes.smallest
  have increasing := describes.increasing
  cases entries with
  | nil => cases member
  | cons head tail =>
    rw [head?_cons, Option.map_some, Option.some.injEq] at first
    rw [<- first]
    rcases mem_cons.mp member with rfl | inTail
    · exact le_refl _
    · exact le_of_lt ((pairwise_cons.mp increasing).1 entry inTail)

theorem le_largest (member : entry ∈ entries) : entry.key ≤ file.largest := by
  have last := describes.largest
  have increasing := describes.increasing
  rcases eq_nil_or_concat' entries with rfl | ⟨_, _, rfl⟩
  · cases member
  · rw [getLast?_concat, Option.map_some, Option.some.injEq] at last
    rw [<- last]
    rcases mem_concat.mp member with inFront | rfl
    · exact le_of_lt ((pairwise_concat.mp increasing).2 entry inFront)
    · exact le_rfl

theorem exists_smallest : ∃ entry ∈ entries, entry.key = file.smallest := by
  rcases Option.map_eq_some_iff.mp describes.smallest with ⟨entry, isHead, same⟩
  exact ⟨entry, mem_of_mem_head? isHead, same⟩

theorem range : file.smallest ≤ file.largest := by
  rcases describes.exists_smallest with ⟨_, member, _⟩
  exact le_trans (describes.smallest_le member) (describes.le_largest member)

theorem covers (member : entry ∈ entries) : Covers file entry.key.userKey :=
  ⟨InternalKey.userKey_le_of_le (describes.smallest_le member),
    InternalKey.userKey_le_of_le (describes.le_largest member)⟩

theorem key_lt {other : KeyFile} {others : List Entry} (describesOther : Describes other others)
    (before : Precedes file other) (inFile : a ∈ entries) (inOther : b ∈ others) :
    a.key < b.key :=
  lt_of_le_of_lt (describes.le_largest inFile)
    (lt_of_lt_of_le before (describesOther.smallest_le inOther))

end Describes

def InLevel (files : Nat -> List KeyFile) (tables : Nat -> List Entry) (level : Nat)
    (entry : Entry) : Prop :=
  ∃ file ∈ files level, entry ∈ tables file.number

/-- The files of a version, with newer versions of a user key in earlier places. -/
structure Layered (files : Nat -> List KeyFile) (tables : Nat -> List Entry) : Prop where
  described : forall level, ∀ file ∈ files level, Describes file (tables file.number)
  sorted : forall level, SortedBy (bySmallestKey (fun key : InternalKey => key)) (files level)
  disjoint : forall level, level > 0 -> (files level).Pairwise Precedes
  outside : forall level, kNumLevels ≤ level -> files level = []
  numbered : forall upper lower, ∀ file ∈ files upper, ∀ other ∈ files lower,
    file.number = other.number -> upper = lower ∧ file = other
  newestFirst : ∀ file ∈ files 0, ∀ other ∈ files 0, file.number < other.number ->
    entryVersions.Older (tables file.number) (tables other.number)
  layers : forall upper lower, upper < lower -> ∀ file ∈ files upper, ∀ other ∈ files lower,
    entryVersions.Older (tables other.number) (tables file.number)
  identified : forall level first second, InLevel files tables level first ->
    InLevel files tables level second -> first.key.userKey = second.key.userKey ->
    first.key.sequence = second.key.sequence -> first = second

theorem layered_empty (tables : Nat -> List Entry) : Layered (fun _ => []) tables where
  described := fun _ => nofun
  sorted := fun _ => Pairwise.nil
  disjoint := fun _ _ => Pairwise.nil
  outside := fun _ _ => rfl
  numbered := fun _ _ => nofun
  newestFirst := nofun
  layers := fun _ _ _ => nofun
  identified := fun _ _ _ inLevel => nomatch inLevel

/-- Files in the order of their smallest keys that do not overlap follow each other. -/
theorem pairwise_precedes {files : List KeyFile}
    (sorted : SortedBy (bySmallestKey (fun key : InternalKey => key)) files)
    (range : ∀ file ∈ files, file.smallest ≤ file.largest)
    (comparable : ∀ first ∈ files, ∀ second ∈ files, first ≠ second ->
      Precedes first second ∨ Precedes second first) : files.Pairwise Precedes := by
  refine List.Pairwise.imp_of_mem ?_ sorted
  intro first second inFirst inSecond less
  have different : first ≠ second := by
    rintro rfl
    exact lt_irrefl _ less
  rcases comparable first inFirst second inSecond different with before | after
  · exact before
  · have smaller : first.smallest ≤ second.smallest := by
      rcases Prod.Lex.toLex_lt_toLex.mp less with keys | ⟨keys, _⟩
      · exact le_of_lt keys
      · exact le_of_eq keys
    exact absurd (le_trans smaller (range second inSecond)) (not_le.mpr after)

variable {level : Nat}

namespace Layered

variable {files : Nat -> List KeyFile} {tables : Nat -> List Entry} (layered : Layered files tables)
include layered

theorem orderedLevels : OrderedLevels files where
  range := fun level file member => (layered.described level file member).range
  nodup := fun level => (layered.sorted level).nodup
  disjoint := layered.disjoint

/-- Files that follow each other have their entries in order. -/
theorem increasing_flatMap {inputs : List KeyFile}
    (inFiles : ∀ file ∈ inputs, file ∈ files level) (inOrder : inputs.Pairwise Precedes) :
    InKeyOrder (inputs.flatMap (fun file => tables file.number)) := by
  refine pairwise_flatMap.mpr ⟨fun file isInput => ?_, ?_⟩
  · exact (layered.described level file (inFiles file isInput)).increasing
  · refine List.Pairwise.imp_of_mem ?_ inOrder
    intro file other isFile isOther before _ inFile _ inOther
    exact (layered.described level file (inFiles file isFile)).key_lt
      (layered.described level other (inFiles other isOther)) before inFile inOther

theorem key_ne {upper lower : Nat} {file other : KeyFile} (inUpper : file ∈ files upper)
    (inLower : other ∈ files lower) (different : upper ≠ lower ∨ file ≠ other)
    (inFile : a ∈ tables file.number) (inOther : b ∈ tables other.number) : a.key ≠ b.key := by
  intro same
  have userKeys := congrArg InternalKey.userKey same
  have sequences := congrArg InternalKey.sequence same
  rcases Nat.lt_trichotomy upper lower with above | level | below
  · exact absurd sequences.symm (ne_of_lt (layered.layers upper lower above file inUpper other
      inLower b inOther a inFile userKeys.symm))
  · subst level
    have files : file ≠ other := different.resolve_left (fun impossible => impossible rfl)
    by_cases zero : upper = 0
    · subst zero
      rcases Nat.lt_trichotomy file.number other.number with older | number | newer
      · exact absurd sequences (ne_of_lt (layered.newestFirst file inUpper other inLower older
          a inFile b inOther userKeys))
      · exact files (layered.numbered 0 0 file inUpper other inLower number).2
      · exact absurd sequences.symm (ne_of_lt (layered.newestFirst other inLower file inUpper
          newer b inOther a inFile userKeys.symm))
    · have describes := layered.described upper file inUpper
      have describesOther := layered.described upper other inLower
      rcases trichotomy (layered.disjoint upper (pos_of_ne_zero zero)) inUpper inLower with
        equal | before | after
      · exact files equal
      · exact absurd same (ne_of_lt (describes.key_lt describesOther before inFile inOther))
      · exact absurd same.symm (ne_of_lt (describesOther.key_lt describes after inOther inFile))
  · exact absurd sequences (ne_of_lt (layered.layers lower upper below other inLower file
      inUpper a inFile b inOther userKeys))

theorem entry_eq {upper lower : Nat} (inUpper : InLevel files tables upper a)
    (inLower : InLevel files tables lower b) (userKeys : a.key.userKey = b.key.userKey)
    (sequences : a.key.sequence = b.key.sequence) : a = b := by
  rcases inUpper with ⟨file, isFile, inFile⟩
  rcases inLower with ⟨other, isOther, inOther⟩
  rcases Nat.lt_trichotomy upper lower with above | level | below
  · exact absurd sequences.symm (ne_of_lt (layered.layers upper lower above file isFile other
      isOther b inOther a inFile userKeys.symm))
  · subst level
    exact layered.identified upper a b ⟨file, isFile, inFile⟩ ⟨other, isOther, inOther⟩ userKeys
      sequences
  · exact absurd sequences (ne_of_lt (layered.layers lower upper below other isOther file
      isFile a inFile b inOther userKeys))

end Layered

/-- The file is an input of the compaction, at the given level. -/
def Compaction.IsInput (compaction : Compaction) (level : Nat) (file : KeyFile) : Prop :=
  level = compaction.level ∧ file ∈ compaction.inputs0 ∨
    level = compaction.level + 1 ∧ file ∈ compaction.inputs1

omit [LinearOrder UserKey] in
theorem flatten_inputIterators (tables : Nat -> List Entry) (level : Nat) (inputs : List KeyFile) :
    (inputIterators tables level inputs).flatten =
      inputs.flatMap (fun file => tables file.number) := by
  unfold inputIterators
  split
  · exact flatMap_def.symm
  · exact append_nil _

theorem Compaction.inputEntries_perm (compaction : Compaction) (tables : Nat -> List Entry) :
    (compaction.inputEntries tables).Perm
      ((compaction.inputs0 ++ compaction.inputs1).flatMap (fun file => tables file.number)) := by
  have merged : (compaction.inputEntries tables).Perm (inputIterators tables compaction.level
      compaction.inputs0 ++ inputIterators tables (compaction.level + 1)
        compaction.inputs1).flatten := mergeAll_perm _
  rw [flatten_append, flatten_inputIterators, flatten_inputIterators] at merged
  rw [flatMap_append]
  exact merged

variable {compaction : Compaction} {tables : Nat -> List Entry}

theorem Compaction.mem_inputEntries : entry ∈ compaction.inputEntries tables <->
      ∃ level file, compaction.IsInput level file ∧ entry ∈ tables file.number := by
  rw [(compaction.inputEntries_perm tables).mem_iff, mem_flatMap]
  constructor
  · rintro ⟨file, member, inFile⟩
    rcases mem_append.mp member with upper | lower
    · exact ⟨_, file, Or.inl ⟨rfl, upper⟩, inFile⟩
    · exact ⟨_, file, Or.inr ⟨rfl, lower⟩, inFile⟩
  · rintro ⟨_, file, ⟨_, upper⟩ | ⟨_, lower⟩, inFile⟩
    · exact ⟨file, mem_append_left _ upper, inFile⟩
    · exact ⟨file, mem_append_right _ lower, inFile⟩

section Inputs
variable {files : Nat -> List KeyFile} {file : KeyFile} (complete : compaction.Complete files)
include complete

theorem Compaction.Complete.mem_lower (member : file ∈ compaction.inputs1) :
    file ∈ files (compaction.level + 1) := by
  rcases complete.lower with ⟨_, _, equal⟩
  rw [equal] at member
  exact (mem_filter.mp member).1

theorem Compaction.Complete.mem_files (isInput : compaction.IsInput level file) :
    file ∈ files level := by
  rcases isInput with ⟨rfl, upper⟩ | ⟨rfl, lower⟩
  · exact complete.chosen.subset file upper
  · exact complete.mem_lower lower

theorem Compaction.Complete.upper_newer (layered : Layered files tables) {input : KeyFile}
    (isInput : input ∈ compaction.inputs0)
    (member : file ∈ files compaction.level) (left : file ∉ compaction.inputs0) :
    entryVersions.Older (tables input.number) (tables file.number) := by
  intro a inInput b inFile same
  have isFile := complete.chosen.subset input isInput
  have describesInput := layered.described _ input isFile
  have describesFile := layered.described _ file member
  have coversFile := describesFile.covers inFile
  rw [show b.key.userKey = a.key.userKey from same.symm] at coversFile
  rcases complete.closed input isInput file member a.key.userKey (describesInput.covers inInput)
    coversFile with chosen | before
  · exact absurd chosen left
  · have less := describesFile.key_lt describesInput before inFile inInput
    have tags := (InternalKey.lt_iff_of_userKey_eq (show b.key.userKey = a.key.userKey
      from same.symm)).mp less
    refine lt_of_le_of_ne (InternalKey.sequence_le_of_tag_le (le_of_lt tags)) ?_
    intro sequences
    have equal := layered.entry_eq ⟨input, isFile, inInput⟩ ⟨file, member, inFile⟩ same sequences
    rw [equal] at less
    exact lt_irrefl _ less

/-- The file lies before or after all entries. -/
def Beside (entries : List Entry) (file : KeyFile) : Prop :=
  (∀ entry ∈ entries, file.largest < entry.key) ∨ ∀ entry ∈ entries, entry.key < file.smallest

theorem Compaction.Complete.lower_beside (layered : Layered files tables)
    (member : file ∈ files (compaction.level + 1)) (left : file ∉ compaction.inputs1) :
    Beside (compaction.inputEntries tables) file := by
  rcases complete.lower with ⟨range, isRange, equal⟩
  have disjoint := layered.disjoint (compaction.level + 1) (Nat.succ_pos _)
  have describesFile := layered.described _ file member
  have apart : file.largest.userKey < range.1.userKey ∨
      range.2.userKey < file.smallest.userKey := by
    by_contra overlaps
    rw [not_or] at overlaps
    apply left
    rw [equal]
    refine mem_filter.mpr ⟨member, decide_eq_true ⟨?_, ?_⟩⟩
    · rintro _ ⟨⟩
      exact overlaps.1
    · rintro _ ⟨⟩
      exact overlaps.2
  -- an input of the lower level overlaps the range, so it is on the same side
  have lowerInput {input : KeyFile} (isInput : input ∈ compaction.inputs1) :
      (Precedes file input ∨ Precedes input file) ∧ ¬ input.largest.userKey < range.1.userKey ∧
        ¬ range.2.userKey < input.smallest.userKey := by
    have inLower := complete.mem_lower isInput
    refine ⟨?_, ?_⟩
    · rcases trichotomy disjoint member inLower with same | apart
      · exact absurd (same ▸ isInput) left
      · exact apart
    · rw [equal] at isInput
      have overlaps := of_decide_eq_true (mem_filter.mp isInput).2
      exact ⟨overlaps.1 _ rfl, overlaps.2 _ rfl⟩
  rcases apart with before | after
  · left
    intro _ isEntry
    rcases Compaction.mem_inputEntries.mp isEntry with
      ⟨_, input, ⟨rfl, upper⟩ | ⟨rfl, lower⟩, inFile⟩
    · have describes := layered.described _ input (complete.chosen.subset input upper)
      refine InternalKey.lt_of_userKey_lt (lt_of_lt_of_le before ?_)
      exact InternalKey.userKey_le_of_le (le_trans (isRange.below input upper)
        (describes.smallest_le inFile))
    · have describes := layered.described _ input (complete.mem_lower lower)
      rcases lowerInput lower with ⟨side | side, reaches, _⟩
      · exact lt_of_lt_of_le side (describes.smallest_le inFile)
      · refine absurd (lt_of_le_of_lt ?_ before) reaches
        exact InternalKey.userKey_le_of_le (le_trans (le_of_lt side) describesFile.range)
  · right
    intro _ isEntry
    rcases Compaction.mem_inputEntries.mp isEntry with
      ⟨_, input, ⟨rfl, upper⟩ | ⟨rfl, lower⟩, inFile⟩
    · have describes := layered.described _ input (complete.chosen.subset input upper)
      refine InternalKey.lt_of_userKey_lt (lt_of_le_of_lt ?_ after)
      exact InternalKey.userKey_le_of_le (le_trans (describes.le_largest inFile)
        (isRange.above input upper))
    · have describes := layered.described _ input (complete.mem_lower lower)
      rcases lowerInput lower with ⟨side | side, _, reaches⟩
      · refine absurd (lt_of_lt_of_le after ?_) reaches
        exact InternalKey.userKey_le_of_le (le_trans describesFile.range (le_of_lt side))
      · exact lt_of_le_of_lt (describes.le_largest inFile) side

theorem Compaction.Complete.inputEntries_increasing (layered : Layered files tables) :
    InKeyOrder (compaction.inputEntries tables) := by
  have lowerNodup : compaction.inputs1.Nodup := by
    rcases complete.lower with ⟨_, _, equal⟩
    rw [equal]
    exact (layered.sorted _).nodup.filter _
  have lowerOrdered : compaction.inputs1.Pairwise Precedes := by
    rcases complete.lower with ⟨_, _, equal⟩
    rw [equal]
    exact (layered.disjoint _ (Nat.succ_pos _)).filter _
  refine mergeAll_pairwise_lt ?_ ?_
  · have ordered (level : Nat) (inputs : List KeyFile)
      (inFiles : ∀ file ∈ inputs, file ∈ files level)
        (inOrder : level > 0 -> inputs.Pairwise Precedes) :
        ∀ child ∈ inputIterators tables level inputs,
          child.Pairwise (fun a b => a.key ≤ b.key) := by
      intro child member
      unfold inputIterators at member
      split at member
      · rcases mem_map.mp member with ⟨file, isInput, rfl⟩
        exact (layered.described level file (inFiles file isInput)).increasing.imp le_of_lt
      · next positive =>
          rw [mem_singleton.mp member]
          exact (layered.increasing_flatMap inFiles
            (inOrder (pos_of_ne_zero positive))).imp le_of_lt
    exact forall_mem_append.mpr ⟨ordered _ _ complete.chosen.subset complete.chosen.ordered,
      ordered _ _ (fun file => complete.mem_lower) (fun _ => lowerOrdered)⟩
  · rw [flatten_append, flatten_inputIterators, flatten_inputIterators,
      <- flatMap_append, List.Nodup, pairwise_map, pairwise_flatMap]
    have within (level : Nat) (file : KeyFile) (member : file ∈ files level) :
        (tables file.number).Pairwise (fun a b => a.key ≠ b.key) :=
      (layered.described level file member).increasing.imp ne_of_lt
    refine ⟨forall_mem_append.mpr
      ⟨fun file upper => within _ file (complete.chosen.subset file upper),
      fun file lower => within _ file (complete.mem_lower lower)⟩, pairwise_append.mpr ⟨?_, ?_, ?_⟩⟩
    · refine List.Pairwise.imp_of_mem ?_ complete.chosen.nodup
      intro file other isFile isOther different a inFile b inOther
      exact layered.key_ne (complete.chosen.subset file isFile)
        (complete.chosen.subset other isOther) (Or.inr different) inFile inOther
    · refine List.Pairwise.imp_of_mem ?_ lowerNodup
      intro file other isFile isOther different a inFile b inOther
      exact layered.key_ne (complete.mem_lower isFile) (complete.mem_lower isOther)
        (Or.inr different) inFile inOther
    · intro file isFile _ isOther _ inFile _ inOther
      exact layered.key_ne (complete.chosen.subset file isFile) (complete.mem_lower isOther)
        (Or.inl (ne_of_lt (Nat.lt_succ_self _))) inFile inOther

end Inputs

/-! ## Replacing files -/

/-- The choice of a compaction suits the files: what it leaves behind is newer at the
upper level, and beside its entries at the lower level. -/
structure Compaction.Fits (compaction : Compaction) (files : Nat -> List KeyFile)
    (tables : Nat -> List Entry) : Prop where
  below : compaction.level + 1 < kNumLevels
  inputs : forall level file, compaction.IsInput level file -> file ∈ files level
  upper : ∀ input ∈ compaction.inputs0, ∀ file ∈ files compaction.level,
    file ∉ compaction.inputs0 -> entryVersions.Older (tables input.number) (tables file.number)
  lower : ∀ file ∈ files (compaction.level + 1), file ∉ compaction.inputs1 ->
    Beside (compaction.inputEntries tables) file

theorem Compaction.Complete.fits {files : Nat -> List KeyFile}
    (complete : compaction.Complete files)
    (layered : Layered files tables) : compaction.Fits files tables where
  below := complete.below
  inputs := fun _ _ => complete.mem_files
  upper := fun _ isInput _ => complete.upper_newer layered isInput
  lower := fun _ => complete.lower_beside layered

/-- The output files of a compaction have entries of its inputs, in order, and numbers
that no other file has. -/
structure Compaction.Results (compaction : Compaction) (files : Nat -> List KeyFile)
    (tables : Nat -> List Entry) (outputs : List KeyFile) (newTables : Nat -> List Entry) :
    Prop where
  kept : forall level, ∀ file ∈ files level, ¬ compaction.IsInput level file ->
    newTables file.number = tables file.number
  described : ∀ output ∈ outputs, Describes output (newTables output.number)
  ordered : outputs.Pairwise Precedes
  sources : ∀ output ∈ outputs, newTables output.number ⊆ compaction.inputEntries tables
  fresh : ∀ output ∈ outputs, forall level, ∀ file ∈ files level,
    output.number = file.number -> level = compaction.level ∧ file ∈ compaction.inputs0
  numbers : ∀ output ∈ outputs, ∀ other ∈ outputs, output.number = other.number -> output = other

/-- The files after a compaction: its inputs are gone, and the outputs are at the lower
level. -/
structure Replacement (compaction : Compaction) (outputs : List KeyFile)
    (files : Nat -> List KeyFile) (tables : Nat -> List Entry)
    (newFiles : Nat -> List KeyFile) (newTables : Nat -> List Entry) : Prop where
  fits : compaction.Fits files tables
  results : compaction.Results files tables outputs newTables
  sorted : forall level, SortedBy (bySmallestKey (fun key : InternalKey => key)) (newFiles level)
  mem : forall level file, file ∈ newFiles level <->
    (file ∈ files level ∧ ¬ compaction.IsInput level file) ∨
      (level = compaction.level + 1 ∧ file ∈ outputs)

namespace Replacement

variable {files newFiles : Nat -> List KeyFile} {tables newTables : Nat -> List Entry}
  {compaction : Compaction} {outputs : List KeyFile}
  (replacement : Replacement compaction outputs files tables newFiles newTables)
include replacement

theorem source {output : KeyFile} (isOutput : output ∈ outputs)
    (member : entry ∈ newTables output.number) :
    (∃ input ∈ compaction.inputs0, input ∈ files compaction.level ∧ entry ∈ tables input.number) ∨
      ∃ input ∈ compaction.inputs1, input ∈ files (compaction.level + 1) ∧
        entry ∈ tables input.number := by
  rcases Compaction.mem_inputEntries.mp (replacement.results.sources output isOutput member) with
    ⟨level, input, isInput, inInput⟩
  have inFiles := replacement.fits.inputs level input isInput
  rcases isInput with ⟨rfl, upper⟩ | ⟨rfl, lower⟩
  · exact Or.inl ⟨input, upper, inFiles, inInput⟩
  · exact Or.inr ⟨input, lower, inFiles, inInput⟩

theorem inLevel (member : InLevel newFiles newTables level entry) :
    ∃ old, InLevel files tables old entry := by
  rcases member with ⟨file, isFile, inFile⟩
  rcases (replacement.mem level file).mp isFile with ⟨old, stays⟩ | ⟨rfl, isOutput⟩
  · rw [replacement.results.kept level file old stays] at inFile
    exact ⟨level, file, old, inFile⟩
  · rcases Compaction.mem_inputEntries.mp (replacement.results.sources file isOutput inFile) with
      ⟨old, input, isInput, found⟩
    exact ⟨old, input, replacement.fits.inputs old input isInput, found⟩

theorem described_new (layered : Layered files tables) (level : Nat) (file : KeyFile)
    (member : file ∈ newFiles level) : Describes file (newTables file.number) := by
  rcases (replacement.mem level file).mp member with ⟨old, stays⟩ | ⟨_, isOutput⟩
  · rw [replacement.results.kept level file old stays]
    exact layered.described level file old
  · exact replacement.results.described file isOutput

theorem output_beside {output file : KeyFile} (isOutput : output ∈ outputs)
    (old : file ∈ files (compaction.level + 1)) (stays : file ∉ compaction.inputs1) :
    Precedes file output ∨ Precedes output file := by
  have describes := replacement.results.described output isOutput
  have sources := replacement.results.sources output isOutput
  rcases replacement.fits.lower file old stays with before | after
  · rcases describes.exists_smallest with ⟨entry, member, same⟩
    left
    change file.largest < output.smallest
    rw [<- same]
    exact before entry (sources member)
  · rcases Option.map_eq_some_iff.mp describes.largest with ⟨entry, isLast, same⟩
    right
    change output.largest < file.smallest
    rw [<- same]
    exact after entry (sources (mem_of_getLast? isLast))

theorem disjoint_new (layered : Layered files tables) (level : Nat) (positive : level > 0) :
    (newFiles level).Pairwise Precedes := by
  refine pairwise_precedes (replacement.sorted level)
    (fun file member => (replacement.described_new layered level file member).range) ?_
  intro first inFirst second inSecond different
  rcases (replacement.mem level first).mp inFirst with ⟨old, stays⟩ | ⟨atLower, isOutput⟩
  · rcases (replacement.mem level second).mp inSecond with ⟨oldSecond, _⟩ | ⟨rfl, secondOutput⟩
    · exact (trichotomy (layered.disjoint level positive) old oldSecond).resolve_left different
    · exact replacement.output_beside secondOutput old (fun input => stays (Or.inr ⟨rfl, input⟩))
  · subst atLower
    rcases (replacement.mem _ second).mp inSecond with ⟨oldSecond, stays⟩ | ⟨_, secondOutput⟩
    · exact (replacement.output_beside isOutput oldSecond
        (fun input => stays (Or.inr ⟨rfl, input⟩))).symm
    · exact (trichotomy replacement.results.ordered isOutput secondOutput).resolve_left different

theorem layers_new (layered : Layered files tables) (upper lower : Nat) (above : upper < lower)
    (file : KeyFile) (inUpper : file ∈ newFiles upper) (other : KeyFile)
    (inLower : other ∈ newFiles lower) :
    entryVersions.Older (newTables other.number) (newTables file.number) := by
  intro a inOther b inFile same
  rcases (replacement.mem upper file).mp inUpper with ⟨old, stays⟩ | ⟨rfl, isOutput⟩
  · rw [replacement.results.kept upper file old stays] at inFile
    rcases (replacement.mem lower other).mp inLower with ⟨oldOther, otherStays⟩ | ⟨rfl, otherOutput⟩
    · rw [replacement.results.kept lower other oldOther otherStays] at inOther
      exact layered.layers upper lower above file old other oldOther a inOther b inFile same
    · rcases replacement.source otherOutput inOther with ⟨input, isInput, inFiles, found⟩ |
        ⟨input, _, inFiles, found⟩
      · rcases Nat.lt_or_eq_of_le (Nat.lt_succ_iff.mp above) with higher | rfl
        · exact layered.layers upper _ higher file old input inFiles a found b inFile same
        · exact replacement.fits.upper input isInput file old
            (fun chosen => stays (Or.inl ⟨rfl, chosen⟩)) a found b inFile same
      · exact layered.layers upper _ above file old input inFiles a found b inFile same
  · have oldOther : other ∈ files lower ∧ ¬ compaction.IsInput lower other := by
      rcases (replacement.mem lower other).mp inLower with stays | ⟨rfl, _⟩
      · exact stays
      · exact absurd above (lt_irrefl _)
    rw [replacement.results.kept lower other oldOther.1 oldOther.2] at inOther
    rcases replacement.source isOutput inFile with ⟨input, _, inFiles, found⟩ |
      ⟨input, _, inFiles, found⟩
    · exact layered.layers _ lower (Nat.lt_of_succ_lt above) input inFiles other oldOther.1 a
        inOther b found same
    · exact layered.layers _ lower above input inFiles other oldOther.1 a inOther b found same

theorem layered (layered : Layered files tables) : Layered newFiles newTables where
  described := replacement.described_new layered
  sorted := replacement.sorted
  disjoint := replacement.disjoint_new layered
  layers := replacement.layers_new layered
  outside := by
    intro level far
    rw [eq_nil_iff_forall_not_mem]
    intro file member
    rcases (replacement.mem level file).mp member with ⟨old, _⟩ | ⟨rfl, _⟩
    · rw [layered.outside level far] at old
      cases old
    · exact absurd replacement.fits.below (not_lt.mpr far)
  numbered := by
    intro upper lower file inUpper other inLower same
    rcases (replacement.mem upper file).mp inUpper with ⟨old, stays⟩ | ⟨rfl, isOutput⟩
    · rcases (replacement.mem lower other).mp inLower with ⟨oldOther, _⟩ | ⟨rfl, otherOutput⟩
      · exact layered.numbered upper lower file old other oldOther same
      · have isInput := replacement.results.fresh other otherOutput upper file old same.symm
        exact absurd (Or.inl isInput) stays
    · rcases (replacement.mem lower other).mp inLower with ⟨oldOther, stays⟩ | ⟨rfl, otherOutput⟩
      · have isInput := replacement.results.fresh file isOutput lower other oldOther same
        exact absurd (Or.inl isInput) stays
      · exact ⟨rfl, replacement.results.numbers file isOutput other otherOutput same⟩
  newestFirst := by
    -- the outputs are not at level zero
    have stay {file : KeyFile} (member : file ∈ newFiles 0) :
        file ∈ files 0 ∧ newTables file.number = tables file.number := by
      rcases (replacement.mem 0 file).mp member with ⟨old, stays⟩ | ⟨_, _⟩
      · exact ⟨old, replacement.results.kept 0 file old stays⟩
      · omega
    intro file inFirst other inSecond older
    rw [(stay inFirst).2, (stay inSecond).2]
    exact layered.newestFirst file (stay inFirst).1 other (stay inSecond).1 older
  identified := by
    intro _ _ _ inFirst inSecond userKeys sequences
    rcases replacement.inLevel inFirst with ⟨_, oldFirst⟩
    rcases replacement.inLevel inSecond with ⟨_, oldSecond⟩
    exact layered.entry_eq oldFirst oldSecond userKeys sequences

end Replacement

end

end Db
end Doux
