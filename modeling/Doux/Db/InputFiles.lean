import Doux.Db.Format
import Doux.Db.VersionBuilder

namespace Doux
namespace Db

open Foundation Util List

/-!
# Overlapping files and boundary files

Whether two files overlap is decided on user keys.  A user key with several
versions can end one file and begin the next file of its level, so the files of a
level are disjoint as internal keys and may still share a user key.

`GetOverlappingInputs` collects the files of a level that meet a range, and at
level zero it extends the range until no further file is met.
`AddBoundaryInputs` adds the files that begin with an older version of the user
key at which the collected files end.  Together they give a closed choice: a file
of the level that shares a user key with a chosen file is chosen as well, or it
comes before and has only newer versions of the key.
-/

abbrev KeyFile := FileMetaData InternalKey

section
variable [LinearOrder UserKey]

/-- The file is not completely before or after the range.  A missing bound is
unbounded. -/
def Overlaps (userBegin userEnd : Option UserKey) (file : KeyFile) : Prop :=
  (∀ bound ∈ userBegin, ¬ file.largest.userKey < bound) ∧
    ∀ bound ∈ userEnd, ¬ bound < file.smallest.userKey

instance (userBegin userEnd : Option UserKey) (file : KeyFile) :
    Decidable (Overlaps userBegin userEnd file) :=
  inferInstanceAs (Decidable (_ ∧ _))

/-- How one scan over the files of a level ends. -/
inductive Scan where
  | finished (inputs : List KeyFile)
  | restart (userBegin userEnd : Option UserKey)

/-- The loop of `GetOverlappingInputs` up to its end or to the next restart.  At
level zero a file that exceeds the range extends it. -/
def scanLevel (level : Nat) (userBegin userEnd : Option UserKey) :
    List KeyFile -> List KeyFile -> Scan
  | [], inputs => .finished inputs
  | file :: files, inputs =>
    if Overlaps userBegin userEnd file then
      if level = 0 ∧ ∃ bound ∈ userBegin, file.smallest.userKey < bound then
        .restart (some file.smallest.userKey) userEnd
      else if level = 0 ∧ ∃ bound ∈ userEnd, bound < file.largest.userKey then
        .restart userBegin (some file.largest.userKey)
      else scanLevel level userBegin userEnd files (inputs ++ [file])
    else scanLevel level userBegin userEnd files inputs

/-- Scan again until no file extends the range. -/
def overlapLoop (level : Nat) (files : List KeyFile) :
    Nat -> Option UserKey -> Option UserKey -> Option (List KeyFile)
  | 0, _, _ => none
  | fuel + 1, userBegin, userEnd =>
    match scanLevel level userBegin userEnd files [] with
    | .finished inputs => some inputs
    | .restart newBegin newEnd => overlapLoop level files fuel newBegin newEnd

/-- The file stays inside the range. -/
def Within (userBegin userEnd : Option UserKey) (file : KeyFile) : Prop :=
  (∀ bound ∈ userBegin, bound ≤ file.smallest.userKey) ∧
    ∀ bound ∈ userEnd, file.largest.userKey ≤ bound

variable {level : Nat} {userBegin userEnd : Option UserKey} {files inputs : List KeyFile}

/-- A scan that is not cut short collects the overlapping files; at level zero
they are inside the range. -/
theorem scanLevel_finished {result : List KeyFile}
    (scanned : scanLevel level userBegin userEnd files inputs = .finished result) :
    result = inputs ++ files.filter (fun file => Overlaps userBegin userEnd file) ∧
      (level = 0 -> ∀ file ∈ files, Overlaps userBegin userEnd file ->
        Within userBegin userEnd file) := by
  induction files generalizing inputs with
  | nil =>
    cases scanned
    exact ⟨(append_nil _).symm, fun _ _ member => by cases member⟩
  | cons file files ih =>
    rw [scanLevel] at scanned
    split at scanned
    · next overlaps =>
        split at scanned
        · cases scanned
        · next noBegin =>
            split at scanned
            · cases scanned
            · next noEnd =>
                rcases ih scanned with ⟨equal, within⟩
                rw [filter_cons, if_pos (decide_eq_true overlaps)]
                refine ⟨?_, fun zero => forall_mem_cons.mpr ⟨fun _ => ?_, within zero⟩⟩
                · rw [equal, append_assoc, singleton_append]
                · constructor
                  · intro bound isBegin
                    by_contra below
                    exact noBegin ⟨zero, bound, isBegin, not_le.mp below⟩
                  · intro bound isEnd
                    by_contra above
                    exact noEnd ⟨zero, bound, isEnd, not_le.mp above⟩
    · next apart =>
        rcases ih scanned with ⟨equal, within⟩
        rw [filter_cons, if_neg (fun holds => apart (of_decide_eq_true holds))]
        exact ⟨equal, fun zero => forall_mem_cons.mpr
          ⟨fun overlaps => absurd overlaps apart, within zero⟩⟩

/-- The bounds of a restart are those of a file that exceeded the range. -/
inductive Extends (files : List KeyFile) : Option UserKey -> Option UserKey ->
    Option UserKey -> Option UserKey -> Prop where
  | start {bound : UserKey} {userEnd : Option UserKey} {file : KeyFile} (member : file ∈ files)
      (below : file.smallest.userKey < bound) :
      Extends files (some bound) userEnd (some file.smallest.userKey) userEnd
  | limit {bound : UserKey} {userBegin : Option UserKey} {file : KeyFile} (member : file ∈ files)
      (above : bound < file.largest.userKey) :
      Extends files userBegin (some bound) userBegin (some file.largest.userKey)

variable {newBegin newEnd : Option UserKey}

theorem Extends.mono {more : List KeyFile}
    (extends_ : Extends files userBegin userEnd newBegin newEnd)
    (subset : ∀ file ∈ files, file ∈ more) :
    Extends more userBegin userEnd newBegin newEnd := by
  cases extends_ with
  | start member below => exact .start (subset _ member) below
  | limit member above => exact .limit (subset _ member) above

theorem scanLevel_restart
    (scanned : scanLevel level userBegin userEnd files inputs = .restart newBegin newEnd) :
    level = 0 ∧ Extends (files.filter (fun file => Overlaps userBegin userEnd file))
      userBegin userEnd newBegin newEnd := by
  induction files generalizing inputs with
  | nil => cases scanned
  | cons file files ih =>
    have later {taken : List KeyFile} (rest : scanLevel level userBegin userEnd files taken =
        .restart newBegin newEnd) := (ih rest).imp_right (fun found => found.mono
      (fun _ inside => mem_filter.mpr ((mem_filter.mp inside).imp_left (mem_cons_of_mem file))))
    rw [scanLevel] at scanned
    split at scanned
    · next overlaps =>
        have member : file ∈ (file :: files).filter (fun file => Overlaps userBegin userEnd file) :=
          mem_filter.mpr ⟨mem_cons_self, decide_eq_true overlaps⟩
        split at scanned
        · next exceeds =>
            rcases exceeds with ⟨zero, _, isBegin, below⟩
            cases scanned
            cases isBegin
            exact ⟨zero, .start member below⟩
        · split at scanned
          · next exceeds =>
              rcases exceeds with ⟨zero, _, isEnd, above⟩
              cases scanned
              cases isEnd
              exact ⟨zero, .limit member above⟩
          · exact later scanned
    · exact later scanned

/-- The number of bounds of files that lie outside the range.  Every restart moves
one of them inside. -/
def excess (files : List KeyFile) (userBegin userEnd : Option UserKey) : Nat :=
  files.countP (fun file => ∃ bound ∈ userBegin, file.smallest.userKey < bound) +
    files.countP (fun file => ∃ bound ∈ userEnd, bound < file.largest.userKey)

theorem excess_le (files : List KeyFile) (userBegin userEnd : Option UserKey) :
    excess files userBegin userEnd ≤ 2 * files.length := by
  have first := countP_le_length
    (p := fun file : KeyFile => decide (∃ bound ∈ userBegin, file.smallest.userKey < bound))
    (l := files)
  have second := countP_le_length
    (p := fun file : KeyFile => decide (∃ bound ∈ userEnd, bound < file.largest.userKey))
    (l := files)
  unfold excess
  omega

theorem Extends.excess_lt (extends_ : Extends files userBegin userEnd newBegin newEnd) :
    excess files newBegin newEnd < excess files userBegin userEnd := by
  cases extends_ with
  | @start bound userEnd file member below =>
    apply Nat.add_lt_add_right
    refine countP_lt_countP member (fun other => ?_) (by simp) (by simpa using below)
    simpa using fun exceeds => lt_trans exceeds below
  | @limit bound userBegin file member above =>
    apply Nat.add_lt_add_left
    refine countP_lt_countP member (fun other => ?_) (by simp) (by simpa using above)
    simpa using lt_trans above

theorem overlapLoop_isSome (level : Nat) (files : List KeyFile) (fuel : Nat)
    (userBegin userEnd : Option UserKey) (enough : excess files userBegin userEnd < fuel) :
    (overlapLoop level files fuel userBegin userEnd).isSome := by
  induction fuel generalizing userBegin userEnd with
  | zero => cases enough
  | succ fuel ih =>
    rw [overlapLoop]
    cases scanned : scanLevel level userBegin userEnd files [] with
    | finished inputs => rfl
    | restart newBegin newEnd =>
      have less := ((scanLevel_restart scanned).2.mono (fun _ => mem_of_mem_filter)).excess_lt
      exact ih newBegin newEnd (by omega)

/-- `GetOverlappingInputs` without its assertion on the level. -/
def overlapping (level : Nat) (files : List KeyFile) (userBegin userEnd : Option UserKey) :
    List KeyFile :=
  (overlapLoop level files (2 * files.length + 1) userBegin userEnd).get
    (overlapLoop_isSome level files _ userBegin userEnd
      (Nat.lt_succ_of_le (excess_le files userBegin userEnd)))

/-- What the loop collects: the files that overlap a range with every property that the
given range has and that extending keeps.  Above level zero it is the given range, at
level zero the files found do not exceed it. -/
theorem overlapLoop_invariant {fuel : Nat} (invariant : Option UserKey -> Option UserKey -> Prop)
    (kept : ∀ {oldBegin oldEnd newBegin newEnd}, invariant oldBegin oldEnd ->
      Extends (files.filter (fun file => Overlaps oldBegin oldEnd file)) oldBegin oldEnd
        newBegin newEnd -> invariant newBegin newEnd) (start : invariant userBegin userEnd)
    (found : overlapLoop level files fuel userBegin userEnd = some inputs) : ∃ newBegin newEnd,
      inputs = files.filter (fun file => Overlaps newBegin newEnd file) ∧
      invariant newBegin newEnd ∧ (level ≠ 0 -> newBegin = userBegin ∧ newEnd = userEnd) ∧
      (level = 0 -> ∀ file ∈ inputs, Within newBegin newEnd file) := by
  induction fuel generalizing userBegin userEnd with
  | zero => cases found
  | succ fuel ih =>
    rw [overlapLoop] at found
    split at found
    · next result scanned =>
      cases found
      rcases scanLevel_finished scanned with ⟨equal, within⟩
      refine ⟨userBegin, userEnd, equal, start, fun _ => ⟨rfl, rfl⟩, ?_⟩
      intro zero file member
      rw [equal] at member
      rcases mem_filter.mp member with ⟨inLevel, overlaps⟩
      exact within zero file inLevel (of_decide_eq_true overlaps)
    · next middleBegin middleEnd scanned =>
      rcases scanLevel_restart scanned with ⟨zero, extends_⟩
      rcases ih (kept start extends_) found with ⟨newBegin, newEnd, equal, holds, _, within⟩
      exact ⟨newBegin, newEnd, equal, holds, fun positive => absurd zero positive, within⟩

/-- The range is at least as wide as the given one. -/
def Wider (userBegin userEnd newBegin newEnd : Option UserKey) : Prop :=
  (∀ bound ∈ newBegin, ∃ other ∈ userBegin, bound ≤ other) ∧
    ∀ bound ∈ newEnd, ∃ other ∈ userEnd, other ≤ bound

variable {file : KeyFile}

theorem Wider.overlaps
    (wider : Wider userBegin userEnd newBegin newEnd) (overlaps : Overlaps userBegin userEnd file) :
    Overlaps newBegin newEnd file := by
  refine ⟨fun bound isBegin less => ?_, fun bound isEnd less => ?_⟩
  · rcases wider.1 bound isBegin with ⟨other, isOther, ordered⟩
    exact overlaps.1 other isOther (less.trans_le ordered)
  · rcases wider.2 bound isEnd with ⟨other, isOther, ordered⟩
    exact overlaps.2 other isOther (ordered.trans_lt less)

theorem overlapLoop_spec {fuel : Nat}
    (found : overlapLoop level files fuel userBegin userEnd = some inputs) : ∃ newBegin newEnd,
      inputs = files.filter (fun file => Overlaps newBegin newEnd file) ∧
      Wider userBegin userEnd newBegin newEnd ∧
      (level ≠ 0 -> newBegin = userBegin ∧ newEnd = userEnd) ∧
      (level = 0 -> ∀ file ∈ inputs, Within newBegin newEnd file) := by
  refine overlapLoop_invariant (Wider userBegin userEnd) ?_ ?_ found
  · rintro _ _ _ _ ⟨fromBegin, toEnd⟩ (⟨_, below⟩ | ⟨_, above⟩)
    · rcases fromBegin _ rfl with ⟨other, isBegin, ordered⟩
      exact ⟨fun _ same => by cases same; exact ⟨other, isBegin, (le_of_lt below).trans ordered⟩,
        toEnd⟩
    · rcases toEnd _ rfl with ⟨other, isEnd, ordered⟩
      exact ⟨fromBegin,
        fun _ same => by cases same; exact ⟨other, isEnd, ordered.trans (le_of_lt above)⟩⟩
  · exact ⟨fun bound isBegin => ⟨bound, isBegin, le_refl _⟩,
      fun bound isEnd => ⟨bound, isEnd, le_refl _⟩⟩

theorem overlapping_spec (level : Nat) (files : List KeyFile) (userBegin userEnd : Option UserKey) :
    ∃ newBegin newEnd, overlapping level files userBegin userEnd =
        files.filter (fun file => Overlaps newBegin newEnd file) ∧
      Wider userBegin userEnd newBegin newEnd ∧
      (level ≠ 0 -> newBegin = userBegin ∧ newEnd = userEnd) ∧
      (level = 0 -> ∀ file ∈ overlapping level files userBegin userEnd,
        Within newBegin newEnd file) :=
  overlapLoop_spec (Option.some_get _).symm

theorem mem_overlapping (member : file ∈ files) (overlaps : Overlaps userBegin userEnd file) :
    file ∈ overlapping level files userBegin userEnd := by
  rcases overlapping_spec level files userBegin userEnd with ⟨_, _, equal, wider, _⟩
  rw [equal]
  exact mem_filter.mpr ⟨member, decide_eq_true (wider.overlaps overlaps)⟩

theorem overlapping_of_pos (positive : level ≠ 0) (files : List KeyFile)
    (userBegin userEnd : Option UserKey) : overlapping level files userBegin userEnd =
      files.filter (fun file => Overlaps userBegin userEnd file) := by
  rcases overlapping_spec level files userBegin userEnd with ⟨_, _, equal, _, same, _⟩
  rcases same positive with ⟨rfl, rfl⟩
  exact equal

/-! ## The least closed set -/

/-- The file overlaps the hull of the range and of the files: it does not end before the
first of their starts, nor begin behind the last of their ends. -/
def OverlapsHull (userBegin userEnd : Option UserKey) (inputs : List KeyFile) (file : KeyFile) :
    Prop :=
  (∀ bound ∈ userBegin, ∃ low ∈ bound :: inputs.map (fun input => input.smallest.userKey),
    low ≤ file.largest.userKey) ∧
  ∀ bound ∈ userEnd, ∃ high ∈ bound :: inputs.map (fun input => input.largest.userKey),
    file.smallest.userKey ≤ high

/-- Every file is collected that overlaps the range or its hull with the collected files. -/
def Saturated (userBegin userEnd : Option UserKey) (files inputs : List KeyFile) : Prop :=
  ∀ file ∈ files, Overlaps userBegin userEnd file ∨ OverlapsHull userBegin userEnd inputs file ->
    file ∈ inputs

/-- Each bound of the range is one of the given range or of a collected file. -/
def Reached (userBegin userEnd : Option UserKey) (inputs : List KeyFile)
    (newBegin newEnd : Option UserKey) : Prop :=
  (∀ bound ∈ userBegin, ∃ low ∈ newBegin,
    low ∈ bound :: inputs.map (fun input => input.smallest.userKey)) ∧
  ∀ bound ∈ userEnd, ∃ high ∈ newEnd,
    high ∈ bound :: inputs.map (fun input => input.largest.userKey)

theorem Reached.mem (reached : Reached userBegin userEnd inputs newBegin newEnd)
    (saturated : Saturated userBegin userEnd files inputs)
    (member : file ∈ files.filter (fun file => Overlaps newBegin newEnd file)) :
    file ∈ inputs := by
  rcases mem_filter.mp member with ⟨inLevel, overlaps⟩
  have overlaps := of_decide_eq_true overlaps
  refine saturated file inLevel (Or.inr ⟨fun bound isBegin => ?_, fun bound isEnd => ?_⟩)
  · rcases reached.1 bound isBegin with ⟨low, isLow, known⟩
    exact ⟨low, known, not_lt.mp (overlaps.1 low isLow)⟩
  · rcases reached.2 bound isEnd with ⟨high, isHigh, known⟩
    exact ⟨high, known, not_lt.mp (overlaps.2 high isHigh)⟩

/-- At level zero the loop ends and finds the least set that has every file that overlaps
the range or its hull with the files of the set. -/
theorem overlapLoop_least (files : List KeyFile) (userBegin userEnd : Option UserKey) :
    ∃ inputs, overlapLoop 0 files (2 * files.length + 1) userBegin userEnd = some inputs ∧
      inputs <+ files ∧ (files.Nodup -> inputs.Nodup) ∧
      Saturated userBegin userEnd files inputs ∧
      (forall others, Saturated userBegin userEnd files others -> inputs ⊆ others) ∧
      ∀ file ∈ files, file ∉ inputs -> ¬ OverlapsHull userBegin userEnd inputs file := by
  rcases Option.isSome_iff_exists.mp (overlapLoop_isSome 0 files _ userBegin userEnd
    (Nat.lt_succ_of_le (excess_le files userBegin userEnd))) with ⟨inputs, found⟩
  rcases overlapLoop_spec found with ⟨_, _, equal, wider, _, within⟩
  have saturated : Saturated userBegin userEnd files inputs := by
    intro file member overlaps
    rw [equal]
    refine mem_filter.mpr ⟨member, decide_eq_true (Or.elim overlaps wider.overlaps ?_)⟩
    refine fun ⟨begins, ends⟩ => ⟨fun bound isBegin => ?_, fun bound isEnd => ?_⟩
    · rcases wider.1 bound isBegin with ⟨other, isOther, ordered⟩
      rcases begins other isOther with ⟨low, isLow, below⟩
      have least : ∀ low ∈ other :: _, bound ≤ low := forall_mem_cons.mpr
        ⟨ordered, forall_mem_map.mpr fun input taken => (within rfl input taken).1 bound isBegin⟩
      exact not_lt.mpr ((least low isLow).trans below)
    · rcases wider.2 bound isEnd with ⟨other, isOther, ordered⟩
      rcases ends other isOther with ⟨high, isHigh, above⟩
      have most : ∀ high ∈ other :: _, high ≤ bound := forall_mem_cons.mpr
        ⟨ordered, forall_mem_map.mpr fun input taken => (within rfl input taken).2 bound isEnd⟩
      exact not_lt.mpr (above.trans (most high isHigh))
  refine ⟨inputs, found, equal ▸ filter_sublist, fun nodup => equal ▸ nodup.filter _, saturated,
    fun others closed => ?_,
    fun file member apart overlaps => apart (saturated file member (Or.inr overlaps))⟩
  have reached := overlapLoop_invariant (Reached userBegin userEnd others)
    (fun reached extends_ => by
      cases extends_ with
      | start member _ => exact ⟨fun _ _ =>
          ⟨_, rfl, mem_cons_of_mem _ (mem_map_of_mem (reached.mem closed member))⟩, reached.2⟩
      | limit member _ => exact ⟨reached.1, fun _ _ =>
          ⟨_, rfl, mem_cons_of_mem _ (mem_map_of_mem (reached.mem closed member))⟩⟩)
    ⟨fun bound isBegin => ⟨bound, isBegin, mem_cons_self⟩,
      fun bound isEnd => ⟨bound, isEnd, mem_cons_self⟩⟩ found
  rcases reached with ⟨_, _, rfl, reached, _⟩
  exact fun file => reached.mem closed

/-- Widen a range so that it covers a file. -/
def widen (range : InternalKey × InternalKey) (file : KeyFile) : InternalKey × InternalKey :=
  (if file.smallest < range.1 then file.smallest else range.1,
    if range.2 < file.largest then file.largest else range.2)

def getRange : List KeyFile -> Except String (InternalKey × InternalKey)
  | [] => .error "!inputs.empty()"
  | file :: files => .ok (files.foldl widen (file.smallest, file.largest))

/-- A range whose ends are ends of files and which covers them all. -/
structure IsRange (files : List KeyFile) (range : InternalKey × InternalKey) : Prop where
  smallest : ∃ file ∈ files, file.smallest = range.1
  largest : ∃ file ∈ files, file.largest = range.2
  below : ∀ file ∈ files, range.1 ≤ file.smallest
  above : ∀ file ∈ files, file.largest ≤ range.2

theorem widen_eq (range : InternalKey × InternalKey) (file : KeyFile) :
    widen range file = (min range.1 file.smallest, max range.2 file.largest) := by
  rw [min_comm, min_def_lt, max_def_lt]
  rfl

theorem IsRange.widen {range : InternalKey × InternalKey} (isRange : IsRange files range)
    (file : KeyFile) : IsRange (files ++ [file]) (widen range file) := by
  rcases isRange with ⟨⟨first, inFirst, isFirst⟩, ⟨last, inLast, isLast⟩, below, above⟩
  have here : file ∈ files ++ [file] := mem_concat_self
  rw [widen_eq]
  refine ⟨?_, ?_, fun other member => ?_, fun other member => ?_⟩
  · rcases min_choice range.1 file.smallest with old | new
    · exact ⟨first, mem_append_left _ inFirst, isFirst.trans old.symm⟩
    · exact ⟨file, here, new.symm⟩
  · rcases max_choice range.2 file.largest with old | new
    · exact ⟨last, mem_append_left _ inLast, isLast.trans old.symm⟩
    · exact ⟨file, here, new.symm⟩
  · rcases mem_concat.mp member with inside | rfl
    · exact le_trans (min_le_left _ _) (below other inside)
    · exact min_le_right _ _
  · rcases mem_concat.mp member with inside | rfl
    · exact le_trans (above other inside) (le_max_left _ _)
    · exact le_max_right _ _

theorem getRange_eq_ok (nonempty : files ≠ []) :
    ∃ range, getRange files = .ok range ∧ IsRange files range := by
  cases files with
  | nil => exact absurd rfl nonempty
  | cons file files =>
    refine ⟨_, rfl, ?_⟩
    clear nonempty
    induction files using List.reverseRecOn with
    | nil => exact ⟨⟨file, mem_cons_self, rfl⟩, ⟨file, mem_cons_self, rfl⟩,
        forall_mem_singleton.mpr le_rfl, forall_mem_singleton.mpr le_rfl⟩
    | append_singleton files last ih =>
      rw [foldl_concat]
      exact ih.widen last

def findLargestKey : List KeyFile -> Option InternalKey
  | [] => none
  | file :: files => some (files.foldl
      (fun largest file => if largest < file.largest then file.largest else largest) file.largest)

/-- The file begins with an older version of the user key that ends at `largest`. -/
def IsBoundary (largest : InternalKey) (file : KeyFile) : Prop :=
  largest < file.smallest ∧ file.smallest.userKey = largest.userKey

instance (largest : InternalKey) (file : KeyFile) : Decidable (IsBoundary largest file) :=
  inferInstanceAs (Decidable (_ ∧ _))

/-- One step of the search for the smallest boundary file. -/
def smallerBoundary (largest : InternalKey) (found : Option KeyFile) (file : KeyFile) :
    Option KeyFile :=
  if IsBoundary largest file ∧ ∀ other ∈ found, file.smallest < other.smallest then some file
  else found

def findSmallestBoundaryFile (levelFiles : List KeyFile) (largest : InternalKey) :
    Option KeyFile :=
  levelFiles.foldl (smallerBoundary largest) none

/-- The loop of `AddBoundaryInputs`. -/
def addBoundaryLoop (levelFiles : List KeyFile) :
    Nat -> InternalKey -> List KeyFile -> Option (List KeyFile)
  | 0, _, _ => none
  | fuel + 1, largest, inputs =>
    match findSmallestBoundaryFile levelFiles largest with
    | none => some inputs
    | some file => addBoundaryLoop levelFiles fuel file.largest (inputs ++ [file])

/-- `AddBoundaryInputs`.  The loop goes on for ever when a file ends before it
begins; there is no result then. -/
def addBoundaryInputs (levelFiles inputs : List KeyFile) : Option (List KeyFile) :=
  match findLargestKey inputs with
  | none => some inputs
  | some largest => addBoundaryLoop levelFiles (levelFiles.length + 1) largest inputs

theorem findLargestKey_spec (nonempty : inputs ≠ []) :
    ∃ largest, findLargestKey inputs = some largest ∧
      (∃ file ∈ inputs, file.largest = largest) ∧ ∀ file ∈ inputs, file.largest ≤ largest := by
  rcases getRange_eq_ok nonempty with ⟨range, found, isRange⟩
  refine ⟨range.2, ?_, isRange.largest, isRange.above⟩
  cases inputs with
  | nil => exact absurd rfl nonempty
  | cons file files =>
    cases found
    apply congrArg some
    change files.foldl _ (file.smallest, file.largest).2 = _
    exact foldl_hom Prod.snd fun _ _ => rfl

/-- The state of the search after the files `seen`. -/
def IsSmallestBoundary (largest : InternalKey) (seen : List KeyFile) (found : Option KeyFile) :
    Prop :=
  (∀ file ∈ found, file ∈ seen ∧ IsBoundary largest file) ∧
    ∀ other ∈ seen, IsBoundary largest other -> ∃ file ∈ found, file.smallest ≤ other.smallest

theorem IsSmallestBoundary.step {largest : InternalKey} {seen : List KeyFile}
    {found : Option KeyFile} (state : IsSmallestBoundary largest seen found) (file : KeyFile) :
    IsSmallestBoundary largest (seen ++ [file]) (smallerBoundary largest found file) := by
  rcases state with ⟨sound, least⟩
  have here : file ∈ seen ++ [file] := mem_concat_self
  unfold smallerBoundary
  split
  · next better =>
      rcases better with ⟨boundary, smaller⟩
      constructor
      · rintro other ⟨⟩
        exact ⟨here, boundary⟩
      · intro other member isBoundary
        refine ⟨file, rfl, ?_⟩
        rcases mem_concat.mp member with inside | rfl
        · rcases least other inside isBoundary with ⟨old, isOld, ordered⟩
          exact le_trans (le_of_lt (smaller old isOld)) ordered
        · exact le_rfl
  · next worse =>
      constructor
      · intro other isFound
        exact ⟨mem_append_left _ (sound other isFound).1, (sound other isFound).2⟩
      · intro other member isBoundary
        rcases mem_concat.mp member with inside | rfl
        · exact least other inside isBoundary
        · by_contra none
          apply worse
          refine ⟨isBoundary, fun old isOld => ?_⟩
          by_contra notSmaller
          exact none ⟨old, isOld, not_lt.mp notSmaller⟩

theorem findSmallestBoundaryFile_spec (levelFiles : List KeyFile) (largest : InternalKey) :
    IsSmallestBoundary largest levelFiles (findSmallestBoundaryFile levelFiles largest) := by
  induction levelFiles using List.reverseRecOn with
  | nil => exact ⟨nofun, nofun⟩
  | append_singleton files file ih =>
    rw [findSmallestBoundaryFile, foldl_concat]
    exact ih.step file

/-! ## Closed sets of files -/

/-- The user key lies in the range of the file. -/
def Covers (file : KeyFile) (userKey : UserKey) : Prop :=
  file.smallest.userKey ≤ userKey ∧ userKey ≤ file.largest.userKey

instance (file : KeyFile) (userKey : UserKey) : Decidable (Covers file userKey) :=
  inferInstanceAs (Decidable (_ ∧ _))

/-- One file ends before another one begins. -/
abbrev Precedes (first second : KeyFile) : Prop :=
  Before (fun key : InternalKey => key) first second

/-- A choice of files to which boundary files can be added.  Above level zero it
is a part of the level without gaps; at level zero it has every file that shares a
user key with one of its files. -/
structure Chosen (level : Nat) (files inputs : List KeyFile) : Prop where
  subset : ∀ file ∈ inputs, file ∈ files
  nonempty : inputs ≠ []
  nodup : inputs.Nodup
  ordered : level > 0 -> inputs.Pairwise Precedes
  convex : level > 0 -> ∀ first ∈ inputs, ∀ last ∈ inputs, ∀ file ∈ files,
    first.smallest ≤ file.smallest -> file.smallest ≤ last.smallest -> file ∈ inputs
  sharing : level = 0 -> ∀ file ∈ inputs, ∀ other ∈ files, forall userKey,
    Covers file userKey -> Covers other userKey -> other ∈ inputs

/-- A file of the level that shares a user key with one of the inputs is one of
them, or it comes before and has newer versions only. -/
def Closed (files inputs : List KeyFile) : Prop :=
  ∀ file ∈ inputs, ∀ other ∈ files, forall userKey, Covers file userKey -> Covers other userKey ->
    other ∈ inputs ∨ Precedes other file

/-- The files of every level: ranges are not empty, and above level zero they are
disjoint and in order. -/
structure OrderedLevels (files : Nat -> List KeyFile) : Prop where
  range : forall level, ∀ file ∈ files level, file.smallest ≤ file.largest
  nodup : forall level, (files level).Nodup
  disjoint : forall level, level > 0 -> (files level).Pairwise Precedes

variable {first second : KeyFile}

theorem trichotomy (disjoint : files.Pairwise Precedes)
    (inFirst : first ∈ files) (inSecond : second ∈ files) :
    first = second ∨ Precedes first second ∨ Precedes second first := by
  have : Std.Symm fun first second => Precedes first second ∨ Precedes second first :=
    ⟨fun _ _ => Or.symm⟩
  have either : files.Pairwise fun first second => Precedes first second ∨ Precedes second first :=
    disjoint.imp Or.inl
  exact or_iff_not_imp_left.mpr (either.forall inFirst inSecond)

section Boundary
variable {files : List KeyFile} (range : ∀ file ∈ files, file.smallest ≤ file.largest)
  (disjoint : files.Pairwise Precedes)
include range disjoint

/-- Of two files of a level the one with the smaller key comes first. -/
theorem precedes_of_smallest_lt (inFirst : first ∈ files)
    (inSecond : second ∈ files) (less : first.smallest < second.smallest) :
    Precedes first second := by
  rcases trichotomy disjoint inFirst inSecond with rfl | before | after
  · exact absurd less (lt_irrefl _)
  · exact before
  · have impossible := lt_of_le_of_lt (range second inSecond) after
    exact absurd less (lt_asymm impossible)

theorem eq_of_smallest_eq (inFirst : first ∈ files)
    (inSecond : second ∈ files) (same : first.smallest = second.smallest) : first = second := by
  rcases trichotomy disjoint inFirst inSecond with equal | before | after
  · exact equal
  · exact absurd same (ne_of_lt (lt_of_le_of_lt (range first inFirst) before))
  · exact absurd same.symm (ne_of_lt (lt_of_le_of_lt (range second inSecond) after))

/-- The key that `AddBoundaryInputs` looks at is the largest one. -/
def IsLargest (inputs : List KeyFile) (largest : InternalKey) : Prop :=
  (∃ file ∈ inputs, file.largest = largest) ∧ ∀ file ∈ inputs, file.largest ≤ largest

variable {largest : InternalKey}

omit range disjoint in
theorem IsLargest.snoc (isLargest : IsLargest inputs largest)
    (above : largest < file.largest) : IsLargest (inputs ++ [file]) file.largest := by
  refine ⟨⟨file, mem_concat_self, rfl⟩, fun other member => ?_⟩
  rcases mem_concat.mp member with inside | rfl
  · exact le_trans (isLargest.2 other inside) (le_of_lt above)
  · exact le_rfl

theorem Chosen.snoc {boundary : KeyFile} (positive : level > 0) (chosen : Chosen level files inputs)
    (isLargest : IsLargest inputs largest) (inLevel : boundary ∈ files)
    (isBoundary : IsBoundary largest boundary)
    (least : ∀ other ∈ files, IsBoundary largest other -> boundary.smallest ≤ other.smallest) :
    Chosen level files (inputs ++ [boundary]) := by
  have above : ∀ file ∈ inputs, Precedes file boundary :=
    fun file member => lt_of_le_of_lt (isLargest.2 file member) isBoundary.1
  have below : ∀ file ∈ inputs, file.smallest < boundary.smallest := fun file member =>
    lt_of_le_of_lt (range file (chosen.subset file member)) (above file member)
  have gap : ∀ first ∈ inputs, ∀ file ∈ files, first.smallest ≤ file.smallest ->
      file.smallest ≤ boundary.smallest -> file ∈ inputs ++ [boundary] := by
    intro first inFirst file member fromFirst toBoundary
    rcases lt_or_eq_of_le toBoundary with less | same
    · rcases isLargest.1 with ⟨last, inLast, isLast⟩
      rcases le_or_gt file.smallest last.smallest with inside | beyond
      · exact mem_append_left _
          (chosen.convex positive first inFirst last inLast file member fromFirst inside)
      · have after := precedes_of_smallest_lt range disjoint (chosen.subset last inLast) member
          beyond
        have newer : largest < file.smallest := isLast ▸ after
        have lower := InternalKey.userKey_le_of_le (le_of_lt newer)
        have upper := InternalKey.userKey_le_of_le toBoundary
        rw [isBoundary.2] at upper
        exact absurd less (not_lt.mpr (least file member ⟨newer, le_antisymm upper lower⟩))
    · rw [eq_of_smallest_eq range disjoint member inLevel same]
      exact mem_concat_self
  refine ⟨?_, ?_, ?_, ?_, ?_, fun zero => absurd zero (by omega)⟩
  · exact forall_mem_concat.mpr ⟨chosen.subset, inLevel⟩
  · exact append_ne_nil_of_left_ne_nil chosen.nonempty _
  · rw [nodup_append]
    refine ⟨chosen.nodup, nodup_singleton _, ?_⟩
    rintro file inside other single rfl
    rw [mem_singleton.mp single] at inside
    exact lt_irrefl _ (below boundary inside)
  · intro _
    exact pairwise_concat.mpr ⟨chosen.ordered positive, above⟩
  · intro _ first inFirst last inLast file member fromFirst toLast
    rcases mem_append.mp inFirst with firstInside | firstSame
    · rcases mem_concat.mp inLast with lastInside | rfl
      · exact mem_append_left _
          (chosen.convex positive first firstInside last lastInside file member fromFirst toLast)
      · exact gap first firstInside file member fromFirst toLast
    · rw [mem_singleton.mp firstSame] at fromFirst
      have toBoundary : file.smallest ≤ boundary.smallest := by
        rcases mem_concat.mp inLast with lastInside | rfl
        · exact le_trans toLast (le_of_lt (below last lastInside))
        · exact toLast
      rw [eq_of_smallest_eq range disjoint member inLevel (le_antisymm toBoundary fromFirst)]
      exact mem_concat_self

theorem addBoundaryLoop_spec (positive : level > 0) (fuel : Nat)
    (chosen : Chosen level files inputs) (isLargest : IsLargest inputs largest)
    (enough : files.countP (fun file => largest < file.smallest) < fuel) :
    ∃ result last, addBoundaryLoop files fuel largest inputs = some result ∧
      Chosen level files result ∧ (∀ file ∈ inputs, file ∈ result) ∧ IsLargest result last ∧
      ∀ file ∈ files, ¬ IsBoundary last file := by
  induction fuel generalizing inputs largest with
  | zero => cases enough
  | succ fuel ih =>
    rcases findSmallestBoundaryFile_spec files largest with ⟨sound, least⟩
    rw [addBoundaryLoop]
    cases found : findSmallestBoundaryFile files largest with
    | none =>
      rw [found] at least
      refine ⟨inputs, largest, rfl, chosen, fun _ member => member, isLargest, ?_⟩
      intro file member isBoundary
      rcases least file member isBoundary with ⟨_, impossible, _⟩
      cases impossible
    | some boundary =>
      rw [found] at sound least
      rcases sound boundary rfl with ⟨inLevel, isBoundary⟩
      have above : largest < boundary.largest :=
        lt_of_lt_of_le isBoundary.1 (range boundary inLevel)
      have next := chosen.snoc range disjoint positive isLargest inLevel isBoundary
        (fun other member isOther => by
          rcases least other member isOther with ⟨_, ⟨⟩, ordered⟩
          exact ordered)
      have fewer : files.countP (fun file => boundary.largest < file.smallest) <
          files.countP (fun file => largest < file.smallest) := by
        apply countP_lt_countP inLevel
        · intro file further
          rw [decide_eq_true_iff] at further ⊢
          exact lt_trans above further
        · rw [decide_eq_true_iff]
          exact not_lt.mpr (range boundary inLevel)
        · rw [decide_eq_true_iff]
          exact isBoundary.1
      rcases ih next (isLargest.snoc above) (by omega) with
        ⟨result, last, run, chosenResult, contains, isLast, none⟩
      exact ⟨result, last, run, chosenResult,
        fun file member => contains file (mem_append_left _ member), isLast, none⟩

theorem Chosen.closed_of_pos (positive : level > 0) (chosen : Chosen level files inputs)
    (isLargest : IsLargest inputs largest) (none : ∀ file ∈ files, ¬ IsBoundary largest file) :
    Closed files inputs := by
  intro file inside other member _ covers otherCovers
  have inLevel := chosen.subset file inside
  rcases trichotomy disjoint inLevel member with rfl | before | after
  · exact Or.inl inside
  · left
    rcases isLargest.1 with ⟨last, inLast, isLast⟩
    rcases lt_or_ge largest other.smallest with beyond | within
    · have lower := InternalKey.userKey_le_of_le (isLargest.2 file inside)
      have upper := InternalKey.userKey_le_of_le (le_of_lt beyond)
      refine absurd ⟨beyond, le_antisymm ?_ upper⟩ (none other member)
      exact le_trans (le_trans otherCovers.1 covers.2) lower
    · have toLast : other.smallest ≤ last.smallest := by
        by_contra beyond
        have after := precedes_of_smallest_lt range disjoint (chosen.subset last inLast) member
          (not_le.mp beyond)
        rw [<- isLast] at within
        exact absurd after (not_lt.mpr within)
      exact chosen.convex positive file inside last inLast other member
        (le_of_lt (lt_of_le_of_lt (range file inLevel) before)) toLast
  · exact Or.inr after

end Boundary

theorem Chosen.no_boundary {largest : InternalKey}
    (range : ∀ file ∈ files, file.smallest ≤ file.largest) (chosen : Chosen 0 files inputs)
    (isLargest : IsLargest inputs largest) : ∀ file ∈ files, ¬ IsBoundary largest file := by
  rintro file member ⟨beyond, sameKey⟩
  rcases isLargest.1 with ⟨last, inLast, isLast⟩
  have lastRange := InternalKey.userKey_le_of_le (range last (chosen.subset last inLast))
  have fileRange := InternalKey.userKey_le_of_le (range file member)
  rw [<- isLast] at sameKey
  have inside := chosen.sharing rfl last inLast file member last.largest.userKey
    ⟨lastRange, le_refl _⟩ ⟨le_of_eq sameKey, sameKey ▸ fileRange⟩
  have impossible := le_trans (range file member) (isLargest.2 file inside)
  exact absurd beyond (not_lt.mpr impossible)

section
variable {files : Nat -> List KeyFile} (levels : OrderedLevels files)
include levels

/-- `AddBoundaryInputs` ends and gives a closed choice. -/
theorem addBoundaryInputs_spec (chosen : Chosen level (files level) inputs) :
    ∃ result, addBoundaryInputs (files level) inputs = some result ∧
      Chosen level (files level) result ∧ Closed (files level) result ∧
      ∀ file ∈ inputs, file ∈ result := by
  rcases findLargestKey_spec chosen.nonempty with ⟨largest, found, isLargest⟩
  unfold addBoundaryInputs
  rw [found]
  rcases eq_zero_or_pos level with rfl | positive
  · have none := chosen.no_boundary (levels.range 0) isLargest
    have search : findSmallestBoundaryFile (files 0) largest = Option.none := by
      cases found : findSmallestBoundaryFile (files 0) largest with
      | none => rfl
      | some file =>
        have sound := (findSmallestBoundaryFile_spec (files 0) largest).1 file found
        exact absurd sound.2 (none file sound.1)
    refine ⟨inputs, ?_, chosen, ?_, fun _ member => member⟩
    · change addBoundaryLoop (files 0) ((files 0).length + 1) largest inputs = some inputs
      rw [addBoundaryLoop, search]
    · intro file inside other member userKey covers otherCovers
      exact Or.inl (chosen.sharing rfl file inside other member userKey covers otherCovers)
  · rcases addBoundaryLoop_spec (levels.range level) (levels.disjoint level positive) positive
        ((files level).length + 1) chosen isLargest
        (Nat.lt_succ_of_le countP_le_length) with
      ⟨result, _, run, chosenResult, contains, isLast, none⟩
    exact ⟨result, run, chosenResult, chosenResult.closed_of_pos (levels.range level)
      (levels.disjoint level positive) positive isLast none, contains⟩

theorem chosen_overlapping (nonempty : overlapping level (files level) userBegin userEnd ≠ []) :
    Chosen level (files level) (overlapping level (files level) userBegin userEnd) := by
  rcases overlapping_spec level (files level) userBegin userEnd with
    ⟨_, _, equal, _, _, within⟩
  have isSublist : (overlapping level (files level) userBegin userEnd).Sublist (files level) := by
    rw [equal]
    exact filter_sublist
  refine ⟨fun file member => isSublist.subset member, nonempty, (levels.nodup level).sublist
    isSublist, fun positive => (levels.disjoint level positive).sublist isSublist, ?_, ?_⟩
  · intro positive first inFirst _ inLast file member fromFirst toLast
    have disjoint := levels.disjoint level positive
    have range := levels.range level
    have firstIn := isSublist.subset inFirst
    rw [equal] at inFirst inLast ⊢
    have firstOverlaps := of_decide_eq_true (mem_filter.mp inFirst).2
    have lastOverlaps := of_decide_eq_true (mem_filter.mp inLast).2
    have afterFirst : first.largest.userKey ≤ file.largest.userKey := by
      rcases lt_or_eq_of_le fromFirst with less | same
      · have before := precedes_of_smallest_lt range disjoint firstIn member less
        exact InternalKey.userKey_le_of_le (le_trans (le_of_lt before) (range file member))
      · rw [eq_of_smallest_eq range disjoint firstIn member same]
    refine mem_filter.mpr ⟨member, decide_eq_true ⟨fun bound isBegin less => ?_,
      fun bound isEnd less => ?_⟩⟩
    · exact firstOverlaps.1 bound isBegin (lt_of_le_of_lt afterFirst less)
    · exact lastOverlaps.2 bound isEnd (lt_of_lt_of_le less (InternalKey.userKey_le_of_le toLast))
  · intro zero file inside _ member _ covers otherCovers
    have inRange := within zero file inside
    rw [equal]
    refine mem_filter.mpr ⟨member, decide_eq_true ⟨fun bound isBegin => ?_, fun bound isEnd => ?_⟩⟩
    · exact not_lt.mpr (le_trans (inRange.1 bound isBegin) (le_trans covers.1 otherCovers.2))
    · exact not_lt.mpr (le_trans otherCovers.1 (le_trans covers.2 (inRange.2 bound isEnd)))

end

/-- A part of a choice without gaps. -/
theorem Chosen.part (range : ∀ file ∈ files, file.smallest ≤ file.largest) (positive : level > 0)
    (chosen : Chosen level files inputs) {middle : List KeyFile} (isPart : middle <:+: inputs)
    (nonempty : middle ≠ []) : Chosen level files middle := by
  have within := isPart.subset
  have nodup := chosen.nodup.sublist isPart.sublist
  rcases isPart with ⟨_, _, rfl⟩
  rcases pairwise_append.mp (chosen.ordered positive) with ⟨ordered, _, behind⟩
  rcases pairwise_append.mp ordered with ⟨_, ordered, before⟩
  refine ⟨fun file member => chosen.subset file (within member), nonempty, nodup,
    fun _ => ordered, ?_, fun zero => absurd zero (by omega)⟩
  intro _ first inFirst last inLast file member fromFirst toLast
  have inside := chosen.convex positive first (within inFirst) last (within inLast) file member
    fromFirst toLast
  rw [mem_append, mem_append] at inside
  rcases inside with (inFront | inMiddle) | inBack
  · exact absurd (fromFirst.trans (range file member))
      (not_le.mpr (before file inFront first inFirst))
  · exact inMiddle
  · have beyond := lt_of_le_of_lt (range last (chosen.subset last (within inLast)))
      (behind last (mem_append_right _ inLast) file inBack)
    exact absurd toLast (not_le.mpr beyond)

theorem chosen_part {files : Nat -> List KeyFile} (levels : OrderedLevels files)
    (positive : level > 0) (isPart : inputs <:+: files level) (nonempty : inputs ≠ []) :
    Chosen level (files level) inputs := by
  refine Chosen.part (levels.range level) positive ?_ isPart nonempty
  exact ⟨fun _ member => member, fun empty => nonempty (infix_nil.mp (empty ▸ isPart)),
    levels.nodup level, levels.disjoint level, fun _ _ _ _ _ _ member _ _ => member,
    fun zero => absurd zero (by omega)⟩

end

end Db
end Doux
