import Doux.Foundation.SortedBy
import Doux.Table.VMergerRun

namespace Doux
namespace Table

open Foundation Util Zorder List

/-!
# What a box scan returns

The trace of a child is a function of its entries and the intervals alone.
Inside an interval the child yields everything from the seek position to the
interval's end; `SeekToFirstInterval` passes over intervals without entries,
but `JumpNext` asserts that the next interval has one.  This makes it possible
to say exactly when a scan returns the entries of the box: no entry may hide
below the seek key of its own interval start, and once a child has entered the
box it must not meet an empty interval before its last entry.  A lone child is
not filtered at all.
-/

/-- A value table: entries in strictly increasing vkey order. -/
structure VTable where
  entries : List Entry
  sorted : entries.Pairwise fun a b => a.key < b.key

/-- The entries up to the end of an interval, followed by what comes after
the jump if any entry is left. -/
def insideTrace (interval : Interval) (found : List Entry) (after : List Entry × Bool) :
    List Entry × Bool :=
  let inside := found.takeWhile fun entry => decide (entry.key.sortKey ≤ interval.end_)
  match found.dropWhile fun entry => decide (entry.key.sortKey ≤ interval.end_) with
  | [] => (inside, true)
  | _ :: _ => (inside ++ after.1, after.2)

/-- What `JumpNext` leads to, over the remaining intervals. -/
def jumpTrace (entries : List Entry) : List Interval -> List Entry × Bool
  | [] => ([], true)
  | interval :: intervals =>
    match seekEntries entries (seekKey interval.start) with
    | [] => jumpTrace entries intervals
    | entry :: rest =>
      if entry.key.sortKey ≤ interval.end_ then
        insideTrace interval (entry :: rest) (jumpTrace entries intervals)
      else
        ([], false)

/-- What `SeekToFirstInterval` leads to. -/
def firstTrace (entries : List Entry) : List Interval -> List Entry × Bool
  | [] => ([], true)
  | interval :: intervals =>
    match seekEntries entries (seekKey interval.start) with
    | [] => firstTrace entries intervals
    | entry :: rest =>
      if entry.key.sortKey ≤ interval.end_ then
        insideTrace interval (entry :: rest) (jumpTrace entries intervals)
      else
        firstTrace entries intervals

/-- The trace of the result of a jump; a failed jump has none. -/
def After (region : List Interval) (result : Except String Child)
    (trace : List Entry × Bool) : Prop :=
  match result with
  | .error _ => trace = ([], false)
  | .ok child => child.HasTrace region trace.1 trace.2

variable {entries : List Entry} {entry : Entry} {rest : List Entry} {interval : Interval}
  {intervals : List Interval} (sorted : entries.Pairwise fun a b => a.key < b.key)

section
variable {region : List Interval}

/-- A child inside an interval yields the rest of the interval and then
behaves like the jump to the next one. -/
theorem hasTrace_inside {idx : Nat} (inRange : region[idx]? = some interval)
    (entries : List Entry) (after : List Entry × Bool)
    (jump : ∀ child : Child, child.entries = entries -> child.curIdx = idx ->
      After region (child.jumpNext region) after)
    (rest : List Entry) (entry : Entry) (child : Child) (whole : child.entries = entries)
    (cursor : child.curIdx = idx) (position : child.rest = entry :: rest)
    (starts : interval.start ≤ entry.key.sortKey) (ends : entry.key.sortKey ≤ interval.end_)
    (sorted : (entry :: rest).Pairwise fun a b => a.key < b.key) :
    child.HasTrace region (insideTrace interval (entry :: rest) after).1
      (insideTrace interval (entry :: rest) after).2 := by
  have stands : child.At region entry :=
    ⟨interval, rest, by rw [cursor]; exact inRange, position, starts, ends⟩
  induction rest generalizing entry child with
  | nil =>
    have moved : child.advance region = .ok child.next := by
      simp [Child.advance, Child.next, position]
    have idle : child.next.Idle region := Or.inr (by simp [Child.next, position])
    have shape : insideTrace interval [entry] after = ([entry], true) := by
      simp [insideTrace, ends]
    rw [shape]
    exact .step stands moved (.stop idle)
  | cons second rest ih =>
    have nextRest : child.next.rest = second :: rest := by simp [Child.next, position]
    by_cases leaves : second.key.sortKey ≤ interval.end_
    · have moved : child.advance region = .ok child.next := by
        unfold Child.advance
        rw [nextRest, cursor, inRange]
        simp only
        rw [if_neg]
        rw [BitVec.not_lt]
        exact leaves
      have shape : insideTrace interval (entry :: second :: rest) after =
          (entry :: (insideTrace interval (second :: rest) after).1,
            (insideTrace interval (second :: rest) after).2) := by
        simp only [insideTrace, takeWhile_cons, dropWhile_cons, ends, decide_true, if_true]
        split <;> rfl
      have parts := pairwise_cons.mp sorted
      have ordered : entry.key.sortKey ≤ second.key.sortKey :=
        VKey.sortKey_le_of_le (le_of_lt (parts.1 second mem_cons_self))
      have secondStarts := BitVec.le_trans starts ordered
      rw [shape]
      exact .step stands moved (ih second child.next whole cursor nextRest secondStarts leaves
        parts.2 ⟨interval, rest, by rw [<- inRange, <- cursor]; rfl, nextRest,
          secondStarts, leaves⟩)
    · have moved : child.advance region = child.next.jumpNext region := by
        unfold Child.advance
        rw [nextRest, cursor, inRange]
        simp only
        rw [if_pos]
        exact BitVec.not_le.mp leaves
      have shape : insideTrace interval (entry :: second :: rest) after =
          (entry :: after.1, after.2) := by
        simp [insideTrace, ends, leaves]
      have jumped := jump child.next whole cursor
      rw [shape]
      rw [<- moved] at jumped
      cases outcome : child.advance region with
      | error text =>
        rw [outcome] at jumped
        rw [show after = ([], false) from jumped]
        exact .fails stands outcome
      | ok next =>
        rw [outcome] at jumped
        exact .step stands outcome jumped

theorem mem_of_seekEntries {target : VKey}
    (found : seekEntries entries target = entry :: rest) : entry ∈ entries := by
  unfold seekEntries at found
  exact dropWhile_subset _ (found ▸ mem_cons_self)

/-- The seek position of an interval lies at or after the interval's start. -/
theorem start_le_of_seekEntries {start : BitVec 64}
    (found : seekEntries entries (seekKey start) = entry :: rest) :
    start ≤ entry.key.sortKey := by
  have notBelow : ¬ entry.key < seekKey start := by
    have head := head?_dropWhile_not (fun one : Entry => decide (one.key < seekKey start)) entries
    unfold seekEntries at found
    rw [found] at head
    simpa using head
  exact VKey.sortKey_le_of_le (le_of_not_gt notBelow)

include sorted in
theorem pairwise_seekEntries (target : VKey) :
    (seekEntries entries target).Pairwise fun a b => a.key < b.key :=
  sorted.sublist (dropWhile_sublist _)

theorem getElem?_of_drop {idx : Nat} (suffix : region.drop idx = interval :: intervals) :
    region[idx]? = some interval ∧ region.drop (idx + 1) = intervals := by
  constructor
  · have head := congrArg head? suffix
    rwa [head?_drop] at head
  · have tail := congrArg tail suffix
    rwa [tail_drop] at tail

include sorted in
theorem hasTrace_found {idx : Nat} (suffix : region.drop idx = interval :: intervals)
    (found : seekEntries entries (seekKey interval.start) = entry :: rest)
    (inside : entry.key.sortKey ≤ interval.end_)
    (jumps : ∀ other : Child, other.entries = entries ->
      After region (other.jumpNextLoop intervals (idx + 1)) (jumpTrace entries intervals))
    {child : Child} (whole : child.entries = entries) :
    After region (.ok ⟨child.entries, entry :: rest, idx⟩)
      (insideTrace interval (entry :: rest) (jumpTrace entries intervals)) := by
  have foundSorted := found ▸ pairwise_seekEntries sorted (seekKey interval.start)
  refine hasTrace_inside (getElem?_of_drop suffix).1 entries _ (fun other otherWhole cursor => ?_)
    rest entry _ whole rfl rfl (start_le_of_seekEntries found) inside foundSorted
  unfold Child.jumpNext
  rw [cursor, (getElem?_of_drop suffix).2]
  exact jumps other otherWhole

theorem sought {child : Child} (whole : child.entries = entries) (target : VKey) :
    (child.seek target).rest = seekEntries entries target := by
  rw [<- whole]
  rfl

variable (intervals) (idx : Nat) (suffix : region.drop idx = intervals) (child : Child)
  (whole : child.entries = entries)
include sorted intervals idx suffix child whole

theorem after_jumpNextLoop :
    After region (child.jumpNextLoop intervals idx) (jumpTrace entries intervals) := by
  induction intervals generalizing idx child with
  | nil =>
    exact .stop (Or.inl (getElem?_eq_none_iff.mpr (drop_eq_nil_iff.mp suffix)))
  | cons interval intervals ih =>
    have later := (getElem?_of_drop suffix).2
    rw [Child.jumpNextLoop, jumpTrace, sought whole]
    cases found : seekEntries entries (seekKey interval.start) with
    | nil => exact ih (idx + 1) later (child.seek (seekKey interval.start)) whole
    | cons entry rest =>
      simp only
      by_cases inside : entry.key.sortKey ≤ interval.end_
      · rw [assertThat_of inside, if_pos inside]
        exact hasTrace_found sorted suffix found inside (ih (idx + 1) later) whole
      · rw [assertThat_of_not inside, if_neg inside]
        rfl

theorem hasTrace_seekToFirstIntervalLoop :
    (child.seekToFirstIntervalLoop intervals idx).HasTrace region
      (firstTrace entries intervals).1 (firstTrace entries intervals).2 := by
  induction intervals generalizing idx child with
  | nil =>
    exact .stop (Or.inl (getElem?_eq_none_iff.mpr (drop_eq_nil_iff.mp suffix)))
  | cons interval intervals ih =>
    have later := (getElem?_of_drop suffix).2
    rw [Child.seekToFirstIntervalLoop, firstTrace, sought whole]
    cases found : seekEntries entries (seekKey interval.start) with
    | nil => exact ih (idx + 1) later (child.seek (seekKey interval.start)) whole
    | cons entry rest =>
      simp only
      by_cases inside : entry.key.sortKey ≤ interval.end_
      · rw [if_pos inside, if_pos inside]
        exact hasTrace_found sorted suffix found inside
          (after_jumpNextLoop intervals sorted (idx + 1) later) whole
      · rw [if_neg inside, if_neg inside]
        exact ih (idx + 1) later (child.seek (seekKey interval.start)) whole

end

/-! ## Which entries a trace has -/

/-- The entry is at or past the seek key of the interval and not past its end. -/
def Selected (interval : Interval) (entry : Entry) : Prop :=
  seekKey interval.start ≤ entry.key ∧ entry.key.sortKey ≤ interval.end_

instance (interval : Interval) (entry : Entry) : Decidable (Selected interval entry) :=
  inferInstanceAs (Decidable (_ ∧ _))

section
include sorted

theorem seekEntries_eq_filter (target : VKey) :
    seekEntries entries target = entries.filter fun entry => decide (target ≤ entry.key) := by
  have upTo := sorted.imp (fun {a b} less => (by simpa using less.trans :
    decide (b.key < target) = true -> decide (a.key < target) = true))
  rw [seekEntries, (while_eq_filter upTo).2]
  simp [<- decide_not]

theorem mem_seekEntries (target : VKey) (entry : Entry) :
    entry ∈ seekEntries entries target <-> entry ∈ entries ∧ target ≤ entry.key := by
  rw [seekEntries_eq_filter sorted, mem_filter, decide_eq_true_iff]

theorem inside_eq_filter (interval : Interval) :
    (seekEntries entries (seekKey interval.start)).takeWhile
        (fun one => decide (one.key.sortKey ≤ interval.end_)) =
      entries.filter fun entry => decide (Selected interval entry) := by
  rw [seekEntries_eq_filter sorted, (while_eq_filter ((sorted.filter _).imp fun less => by
    simpa using BitVec.le_trans (VKey.sortKey_le_of_le less.le))).1, filter_filter]
  simp [Selected, and_comm]

end

/-- A trace yields selected entries only, in strictly increasing order. -/
structure SoundTrace (entries : List Entry) (intervals : List Interval)
    (trace : List Entry × Bool) : Prop where
  selected : ∀ entry ∈ trace.1, entry ∈ entries ∧ ∃ interval ∈ intervals, Selected interval entry
  increasing : trace.1.Pairwise fun a b => a.key < b.key

theorem SoundTrace.nil (entries : List Entry) (intervals : List Interval) (finishes : Bool) :
    SoundTrace entries intervals ([], finishes) :=
  ⟨fun _ member => absurd member not_mem_nil, Pairwise.nil⟩

variable {trace : List Entry × Bool}

theorem SoundTrace.weaken (sound : SoundTrace entries intervals trace) :
    SoundTrace entries (interval :: intervals) trace := by
  refine ⟨?_, sound.increasing⟩
  intro entry member
  rcases sound.selected entry member with ⟨inEntries, chosen, listed, selected⟩
  exact ⟨inEntries, chosen, mem_cons_of_mem _ listed, selected⟩

/-- A trace over the later intervals lies behind the first one. -/
theorem SoundTrace.beyond (region : Region (interval :: intervals))
    (sound : SoundTrace entries intervals trace) (member : entry ∈ trace.1) :
    interval.end_ < entry.key.sortKey := by
  rcases sound.selected entry member with ⟨_, _, listed, sought, _⟩
  exact region.end_lt listed (VKey.sortKey_le_of_le sought)

section
include sorted

/-- Some entry at or past the seek key lies beyond the interval. -/
def Leaves (entries : List Entry) (interval : Interval) : Prop :=
  ∃ entry ∈ entries, seekKey interval.start ≤ entry.key ∧ interval.end_ < entry.key.sortKey

theorem insideTrace_of_not_leaves (stays : ¬ Leaves entries interval) (after : List Entry × Bool) :
    insideTrace interval (seekEntries entries (seekKey interval.start)) after =
      (entries.filter fun entry => decide (Selected interval entry), true) := by
  have noneLeft : (seekEntries entries (seekKey interval.start)).dropWhile
      (fun one => decide (one.key.sortKey ≤ interval.end_)) = [] := by
    rw [dropWhile_eq_nil_iff]
    intro entry member
    rw [mem_seekEntries sorted] at member
    rw [decide_eq_true_eq, <- BitVec.not_lt]
    exact fun beyond => stays ⟨entry, member.1, member.2, beyond⟩
  simp [insideTrace, noneLeft, inside_eq_filter sorted]

theorem insideTrace_of_leaves (leaves : Leaves entries interval) (after : List Entry × Bool) :
    insideTrace interval (seekEntries entries (seekKey interval.start)) after =
      ((entries.filter fun entry => decide (Selected interval entry)) ++ after.1, after.2) := by
  rcases leaves with ⟨entry, member, sought, beyond⟩
  cases remaining : (seekEntries entries (seekKey interval.start)).dropWhile
      (fun one => decide (one.key.sortKey ≤ interval.end_)) with
  | nil =>
    have inside := dropWhile_eq_nil_iff.mp remaining entry
      ((mem_seekEntries sorted _ _).mpr ⟨member, sought⟩)
    rw [decide_eq_true_eq] at inside
    exact absurd beyond (BitVec.not_lt.mpr inside)
  | cons head tail => simp [insideTrace, remaining, inside_eq_filter sorted]

theorem soundTrace_inside (region : Region (interval :: intervals)) {after : List Entry × Bool}
    (sound : SoundTrace entries intervals after) : SoundTrace entries (interval :: intervals)
      (insideTrace interval (seekEntries entries (seekKey interval.start)) after) := by
  have selected : ∀ entry ∈ entries.filter (fun entry => decide (Selected interval entry)),
      entry ∈ entries ∧ ∃ other ∈ interval :: intervals, Selected other entry := by
    intro entry member
    rcases mem_filter.mp member with ⟨inEntries, selected⟩
    exact ⟨inEntries, interval, mem_cons_self, of_decide_eq_true selected⟩
  by_cases leaves : Leaves entries interval
  · rw [insideTrace_of_leaves sorted leaves]
    constructor
    · exact forall_mem_append.mpr ⟨selected, sound.weaken.selected⟩
    · refine pairwise_append.mpr ⟨sorted.filter _, sound.increasing, ?_⟩
      intro _ inFirst _ inSecond
      have ends := (of_decide_eq_true (mem_filter.mp inFirst).2).2
      exact VKey.lt_of_sortKey_lt (Nat.lt_of_le_of_lt ends (sound.beyond region inSecond))
  · rw [insideTrace_of_not_leaves sorted leaves]
    exact ⟨selected, sorted.filter _⟩

theorem soundTrace_jump (region : Region intervals) :
    SoundTrace entries intervals (jumpTrace entries intervals) := by
  induction intervals with
  | nil => exact SoundTrace.nil entries [] true
  | cons interval intervals ih =>
    rw [jumpTrace]
    cases found : seekEntries entries (seekKey interval.start) with
    | nil => exact (ih region.tail).weaken
    | cons entry rest =>
      simp only
      split
      · rw [<- found]
        exact soundTrace_inside sorted region (ih region.tail)
      · exact SoundTrace.nil entries _ false

theorem soundTrace_first (region : Region intervals) :
    SoundTrace entries intervals (firstTrace entries intervals) := by
  induction intervals with
  | nil => exact SoundTrace.nil entries [] true
  | cons interval intervals ih =>
    rw [firstTrace]
    cases found : seekEntries entries (seekKey interval.start) with
    | nil => exact (ih region.tail).weaken
    | cons entry rest =>
      simp only
      split
      · rw [<- found]
        exact soundTrace_inside sorted region (soundTrace_jump sorted region.tail)
      · exact (ih region.tail).weaken

end

/-- No entry at an interval start lies below the seek key of that start. -/
def NoneHidden (entries : List Entry) (intervals : List Interval) : Prop :=
  ∀ entry ∈ entries, ∀ interval ∈ intervals,
    entry.key.sortKey = interval.start -> seekKey interval.start ≤ entry.key

def Hits (entries : List Entry) (interval : Interval) : Prop :=
  ∃ entry ∈ entries, interval.start ≤ entry.key.sortKey ∧ entry.key.sortKey ≤ interval.end_

/-- The table has an entry at or past the start of the interval. -/
def Reaches (entries : List Entry) (interval : Interval) : Prop :=
  ∃ entry ∈ entries, interval.start ≤ entry.key.sortKey

/-- After an interval with entries there is no empty one before the last entry. -/
def NoGap (entries : List Entry) (intervals : List Interval) : Prop :=
  intervals.Pairwise fun earlier later =>
    Hits entries earlier -> Reaches entries later -> Hits entries later

/-- The trace finishes and yields every covered entry. -/
def Complete (entries : List Entry) (intervals : List Interval) (trace : List Entry × Bool) :
    Prop :=
  trace.2 = true ∧ ∀ entry ∈ entries, Covers intervals entry.key.sortKey -> entry ∈ trace.1

theorem covers_cons (interval : Interval) (intervals : List Interval) (code : BitVec 64) :
    Covers (interval :: intervals) code <->
      (interval.start ≤ code ∧ code ≤ interval.end_) ∨ Covers intervals code := by
  rw [<- singleton_append, covers_append, covers_singleton]

theorem noneHidden_cons (entries : List Entry) (interval : Interval) (intervals : List Interval) :
    NoneHidden entries (interval :: intervals) <->
      NoneHidden entries [interval] ∧ NoneHidden entries intervals := by
  simp only [NoneHidden, forall_mem_cons, not_mem_nil, false_imp_iff, imp_true_iff, and_true,
    imp_and, forall_and]

theorem seekKey_le_iff (visible : NoneHidden entries [interval]) (member : entry ∈ entries) :
    seekKey interval.start ≤ entry.key <-> interval.start ≤ entry.key.sortKey := by
  constructor
  · exact fun ordered => VKey.sortKey_le_of_le ordered
  · intro starts
    by_cases same : entry.key.sortKey = interval.start
    · exact visible entry member interval (mem_singleton.mpr rfl) same
    · apply le_of_lt
      apply VKey.lt_of_sortKey_lt
      have differs : entry.key.sortKey.toNat ≠ interval.start.toNat :=
        fun equal => same (BitVec.eq_of_toNat_eq equal)
      rw [BitVec.le_def] at starts
      change interval.start.toNat < entry.key.sortKey.toNat
      omega

section
include sorted

theorem complete_inside_iff (region : Region (interval :: intervals)) {after : List Entry × Bool}
    (sound : SoundTrace entries intervals after)
    (afterIff : Complete entries intervals after <-> NoneHidden entries intervals ∧
      ∀ other ∈ intervals, Reaches entries other -> Hits entries other) :
    Complete entries (interval :: intervals)
        (insideTrace interval (seekEntries entries (seekKey interval.start)) after) <->
      NoneHidden entries (interval :: intervals) ∧
        ∀ other ∈ intervals, Reaches entries other -> Hits entries other := by
  have startIn : interval.start ≤ interval.end_ := region.nonempty interval mem_cons_self
  rw [noneHidden_cons]
  -- An entry at the first start that the trace yields is not hidden.
  have visibleOfYielded : (∀ entry ∈ entries, Covers (interval :: intervals) entry.key.sortKey ->
      entry ∈ (entries.filter fun entry => decide (Selected interval entry)) ∨ entry ∈ after.1) ->
      NoneHidden entries [interval] := by
    intro yields entry member other listed atStart
    rw [mem_singleton.mp listed] at atStart ⊢
    have covered : Covers (interval :: intervals) entry.key.sortKey :=
      (covers_cons _ _ _).mpr (Or.inl (by rw [atStart]; exact ⟨BitVec.le_refl _, startIn⟩))
    rcases yields entry member covered with inside | later
    · exact (of_decide_eq_true (mem_filter.mp inside).2).1
    · have beyond := sound.beyond region later
      rw [atStart] at beyond
      exact absurd startIn (BitVec.not_le.mpr beyond)
  have first (visible : NoneHidden entries [interval]) {entry : Entry} (member : entry ∈ entries)
      (inside : interval.start ≤ entry.key.sortKey ∧ entry.key.sortKey ≤ interval.end_) :
      entry ∈ entries.filter fun entry => decide (Selected interval entry) :=
    mem_filter.mpr ⟨member, decide_eq_true ⟨(seekKey_le_iff visible member).mpr inside.1, inside.2⟩⟩
  by_cases leaves : Leaves entries interval
  · rw [insideTrace_of_leaves sorted leaves]
    constructor
    · rintro ⟨finishes, yields⟩
      have yieldsOr := fun entry member covered => mem_append.mp (yields entry member covered)
      have afterComplete : Complete entries intervals after := by
        refine ⟨finishes, fun entry member covered => ?_⟩
        refine (yieldsOr entry member ((covers_cons _ _ _).mpr (Or.inr covered))).resolve_left ?_
        intro inside
        rcases covered with ⟨other, listed, starts, _⟩
        have ends := (of_decide_eq_true (mem_filter.mp inside).2).2
        exact absurd ends (BitVec.not_le.mpr (region.end_lt listed starts))
      rcases afterIff.mp afterComplete with ⟨visible, hits⟩
      exact ⟨⟨visibleOfYielded yieldsOr, visible⟩, hits⟩
    · rintro ⟨⟨visibleFirst, visible⟩, hits⟩
      rcases afterIff.mpr ⟨visible, hits⟩ with ⟨finishes, yields⟩
      refine ⟨finishes, fun entry member covered => mem_append.mpr ?_⟩
      exact ((covers_cons _ _ _).mp covered).imp (first visibleFirst member) (yields entry member)
  · rw [insideTrace_of_not_leaves sorted leaves]
    -- Nothing lies at or past a later start.
    have noneLater : NoneHidden entries [interval] -> ∀ other ∈ intervals,
        ¬ Reaches entries other := by
      rintro visible other listed ⟨entry, member, starts⟩
      have beyond := region.end_lt listed starts
      refine leaves ⟨entry, member, (seekKey_le_iff visible member).mpr ?_, beyond⟩
      exact BitVec.le_trans startIn (BitVec.le_of_lt beyond)
    constructor
    · rintro ⟨_, yields⟩
      have visibleFirst := visibleOfYielded
        (fun entry member covered => Or.inl (yields entry member covered))
      refine ⟨⟨visibleFirst, fun entry member other listed atStart => ?_⟩,
        fun other listed reaches => absurd reaches (noneLater visibleFirst other listed)⟩
      exact absurd ⟨entry, member, by rw [atStart]; exact BitVec.le_refl _⟩
        (noneLater visibleFirst other listed)
    · rintro ⟨⟨visibleFirst, _⟩, _⟩
      refine ⟨rfl, fun entry member covered => ?_⟩
      rcases (covers_cons _ _ _).mp covered with inside | ⟨other, listed, starts, _⟩
      · exact first visibleFirst member inside
      · exact absurd ⟨entry, member, starts⟩ (noneLater visibleFirst other listed)

theorem le_of_seekEntries {target : VKey}
    (found : seekEntries entries target = entry :: rest) {other : Entry}
    (member : other ∈ entries) (sought : target ≤ other.key) : entry.key ≤ other.key := by
  have listed : other ∈ seekEntries entries target :=
    (mem_seekEntries sorted target other).mpr ⟨member, sought⟩
  have foundSorted := pairwise_seekEntries sorted target
  rw [found] at listed foundSorted
  rcases mem_cons.mp listed with rfl | inRest
  · exact le_refl _
  · exact le_of_lt ((pairwise_cons.mp foundSorted).1 other inRest)

omit sorted in
/-- A trace over the later intervals yields nothing of the first one. -/
theorem complete_skip_iff (region : Region (interval :: intervals))
    (sound : SoundTrace entries intervals trace)
    (noneSelected : ∀ entry ∈ entries, ¬ Selected interval entry) :
    Complete entries (interval :: intervals) trace <->
      NoneHidden entries [interval] ∧ Complete entries intervals trace := by
  have startIn : interval.start ≤ interval.end_ := region.nonempty interval mem_cons_self
  constructor
  · intro complete
    refine ⟨fun entry member _ listed atStart => ?_, complete.1, fun entry member covered =>
      complete.2 entry member ((covers_cons _ _ _).mpr (Or.inr covered))⟩
    rw [mem_singleton.mp listed] at atStart
    have yielded := complete.2 entry member ((covers_cons _ _ _).mpr
      (Or.inl (by rw [atStart]; exact ⟨BitVec.le_refl _, startIn⟩)))
    have beyond := sound.beyond region yielded
    rw [atStart] at beyond
    exact absurd startIn (BitVec.not_le.mpr beyond)
  · rintro ⟨visible, finishes, yields⟩
    refine ⟨finishes, ?_⟩
    intro entry member covered
    rcases (covers_cons _ _ _).mp covered with ⟨starts, ends⟩ | later
    · exact absurd ⟨(seekKey_le_iff visible member).mpr starts, ends⟩ (noneSelected entry member)
    · exact yields entry member later

theorem not_selected_of_nil (found : seekEntries entries (seekKey interval.start) = [])
    (member : entry ∈ entries) : ¬ seekKey interval.start ≤ entry.key := by
  intro sought
  have listed := (mem_seekEntries sorted _ _).mpr ⟨member, sought⟩
  rw [found] at listed
  cases listed

theorem not_selected_of_beyond {first : Entry}
    (found : seekEntries entries (seekKey interval.start) = first :: rest)
    (beyond : ¬ first.key.sortKey ≤ interval.end_) (member : entry ∈ entries) :
    ¬ Selected interval entry := by
  rintro ⟨sought, ends⟩
  have ordered := VKey.sortKey_le_of_le (le_of_seekEntries sorted found member sought)
  exact beyond (BitVec.le_trans ordered ends)

theorem complete_jump_iff (region : Region intervals) :
    Complete entries intervals (jumpTrace entries intervals) <-> NoneHidden entries intervals ∧
        ∀ other ∈ intervals, Reaches entries other -> Hits entries other := by
  induction intervals with
  | nil => simp [Complete, jumpTrace, NoneHidden, Covers]
  | cons interval intervals ih =>
    have sound := soundTrace_jump sorted region.tail
    rw [jumpTrace]
    cases found : seekEntries entries (seekKey interval.start) with
    | nil =>
      rw [complete_skip_iff region sound
        (fun entry member selected => not_selected_of_nil sorted found member selected.1),
        ih region.tail, noneHidden_cons entries interval intervals, forall_mem_cons, and_assoc]
      refine and_congr_right fun visible => and_congr_right fun _ => (and_iff_right ?_).symm
      rintro ⟨entry, member, starts⟩
      exact absurd ((seekKey_le_iff visible member).mpr starts)
        (not_selected_of_nil sorted found member)
    | cons first rest =>
      have firstMember := mem_of_seekEntries found
      simp only
      by_cases inside : first.key.sortKey ≤ interval.end_
      · have hit : Hits entries interval :=
          ⟨first, firstMember, start_le_of_seekEntries found, inside⟩
        rw [if_pos inside, <- found,
          complete_inside_iff sorted region sound (ih region.tail), forall_mem_cons]
        exact ⟨fun both => ⟨both.1, fun _ => hit, both.2⟩, fun both => ⟨both.1, both.2.2⟩⟩
      · rw [if_neg inside]
        constructor
        · intro complete
          cases complete.1
        · rintro ⟨visible, hits⟩
          have reaches : Reaches entries interval :=
            ⟨first, firstMember, start_le_of_seekEntries found⟩
          rcases hits interval mem_cons_self reaches with ⟨entry, member, starts, ends⟩
          have visibleFirst := ((noneHidden_cons _ _ _).mp visible).1
          exact absurd ⟨(seekKey_le_iff visibleFirst member).mpr starts, ends⟩
            (not_selected_of_beyond sorted found inside member)

theorem complete_first_iff (region : Region intervals) :
    Complete entries intervals (firstTrace entries intervals) <->
      NoneHidden entries intervals ∧ NoGap entries intervals := by
  induction intervals with
  | nil => simp [Complete, firstTrace, NoneHidden, Covers, NoGap]
  | cons interval intervals ih =>
    -- An interval without a selected entry is passed over.
    have skipped : (∀ entry ∈ entries, ¬ Selected interval entry) ->
        (Complete entries (interval :: intervals) (firstTrace entries intervals) <->
          NoneHidden entries (interval :: intervals) ∧ NoGap entries (interval :: intervals)) := by
      intro noneSelected
      rw [complete_skip_iff region (soundTrace_first sorted region.tail) noneSelected,
        ih region.tail, noneHidden_cons entries interval intervals, and_assoc, NoGap, NoGap,
        pairwise_cons]
      refine and_congr_right fun visible => and_congr_right fun _ => (and_iff_right ?_).symm
      rintro _ _ ⟨entry, member, starts, ends⟩
      exact absurd ⟨(seekKey_le_iff visible member).mpr starts, ends⟩ (noneSelected entry member)
    rw [firstTrace]
    cases found : seekEntries entries (seekKey interval.start) with
    | nil =>
      exact skipped
        (fun entry member selected => not_selected_of_nil sorted found member selected.1)
    | cons first rest =>
      simp only
      by_cases inside : first.key.sortKey ≤ interval.end_
      · have hit : Hits entries interval :=
          ⟨first, mem_of_seekEntries found, start_le_of_seekEntries found, inside⟩
        rw [if_pos inside, <- found, complete_inside_iff sorted region
          (soundTrace_jump sorted region.tail) (complete_jump_iff sorted region.tail)]
        apply and_congr_right
        intro _
        constructor
        · intro hits
          refine pairwise_cons.mpr ⟨fun other member _ => hits other member, ?_⟩
          exact pairwise_of_forall_mem_list (fun _ _ other member _ => hits other member)
        · intro noGap other member
          exact (pairwise_cons.mp noGap).1 other member hit
      · rw [if_neg inside]
        exact skipped (fun entry member => not_selected_of_beyond sorted found inside member)

end

/-! ## The scan -/

/-- The sort key of the entry is the code of a point of the box. -/
def inBox (box : Box) (entry : Entry) : Bool :=
  decide (box.Holds (decode entry.key.sortKey).1 (decode entry.key.sortKey).2)

/-- The scan ends without a failed assertion and yields each entry of the box
once, in the order of the sort keys. -/
def ScanCorrect (ctzZero : Nat) (less : VKey -> VKey -> Bool) (box : Box) (target : VKey)
    (tables : List VTable) : Prop :=
  ∃ read bound, (forall fuel, bound ≤ fuel ->
      scan less (box.region ctzZero) fuel target (tables.map VTable.entries) = some (.ok read)) ∧
    read.Perm ((tables.flatMap VTable.entries).filter (inBox box)) ∧
    read.Pairwise fun a b => a.key.sortKey ≤ b.key.sortKey

/-- A lone child must have exactly the entries of the box from the target on;
several children must each be free of hidden entries and gaps. -/
def ScanCondition (ctzZero : Nat) (box : Box) (target : VKey) : List VTable -> Prop
  | [] => True
  | [only] => ∀ entry ∈ only.entries, (target ≤ entry.key <-> inBox box entry = true)
  | tables => ∀ table ∈ tables,
      NoneHidden table.entries (box.region ctzZero) ∧ NoGap table.entries (box.region ctzZero)

theorem VTable.nodup (table : VTable) : table.entries.Nodup :=
  table.sorted.imp fun less same => absurd (congrArg Entry.key same) (ne_of_lt less)

theorem inBox_iff_covers (ctzZero : Nat) (box : Box) (entry : Entry) :
    inBox box entry = true <-> Covers (box.region ctzZero) entry.key.sortKey := by
  unfold inBox
  rw [decide_eq_true_eq, <- box.contains_iff_decode, (box.region_spec ctzZero).2]

def tableTrace (ctzZero : Nat) (box : Box) (table : VTable) : List Entry × Bool :=
  firstTrace table.entries (box.region ctzZero)

def VTable.traced (ctzZero : Nat) (box : Box) (table : VTable) : Traced (box.region ctzZero) where
  child := Child.seekToFirstInterval (box.region ctzZero) ⟨table.entries, [], 0⟩
  entries := (tableTrace ctzZero box table).1
  finishes := (tableTrace ctzZero box table).2
  trace := hasTrace_seekToFirstIntervalLoop _ table.sorted 0 rfl _ rfl

section
variable {ctzZero : Nat} {box : Box}

variable (table : VTable)

theorem tableTrace_sound :
    SoundTrace table.entries (box.region ctzZero) (tableTrace ctzZero box table) :=
  soundTrace_first table.sorted (box.region_spec ctzZero).1

theorem tableTrace_nodup : (tableTrace ctzZero box table).1.Nodup :=
  (tableTrace_sound table).increasing.imp
    fun less same => absurd (congrArg Entry.key same) (ne_of_lt less)

theorem tableTrace_subset :
    (tableTrace ctzZero box table).1 ⊆ table.entries.filter (inBox box) := by
  intro entry member
  rcases (tableTrace_sound table).selected entry member with
    ⟨inTable, interval, listed, sought, ends⟩
  rw [mem_filter, inBox_iff_covers ctzZero]
  exact ⟨inTable, interval, listed, VKey.sortKey_le_of_le sought, ends⟩

/-- A finished trace is complete exactly when it is as long as the list of
entries in the box. -/
theorem complete_iff_perm (finishes : (tableTrace ctzZero box table).2 = true) :
    Complete table.entries (box.region ctzZero) (tableTrace ctzZero box table) <->
      (tableTrace ctzZero box table).1.Perm (table.entries.filter (inBox box)) := by
  constructor
  · intro complete
    rw [perm_ext_iff_of_nodup (tableTrace_nodup table) (table.nodup.filter _)]
    intro entry
    refine ⟨fun member => tableTrace_subset table member, ?_⟩
    intro member
    rw [mem_filter, inBox_iff_covers ctzZero] at member
    exact complete.2 entry member.1 member.2
  · intro perm
    refine ⟨finishes, ?_⟩
    intro _ member covered
    apply perm.mem_iff.mpr
    rw [mem_filter, inBox_iff_covers ctzZero]
    exact ⟨member, covered⟩

theorem perm_of_flatMap_length (tables : List VTable)
    (lengths : (tables.flatMap fun table => (tableTrace ctzZero box table).1).length =
      (tables.flatMap fun table => table.entries.filter (inBox box)).length)
    (table : VTable) (member : table ∈ tables) :
    (tableTrace ctzZero box table).1.Perm (table.entries.filter (inBox box)) := by
  have fits : ∀ one : VTable, (tableTrace ctzZero box one).1.Subperm
      (one.entries.filter (inBox box)) :=
    fun one => subperm_of_subset (tableTrace_nodup one) (tableTrace_subset one)
  have below : ∀ rest : List VTable,
      (rest.flatMap fun one => (tableTrace ctzZero box one).1).length ≤
        (rest.flatMap fun one => one.entries.filter (inBox box)).length := by
    intro rest
    induction rest with
    | nil => exact le_refl _
    | cons one rest ih =>
      have first := (fits one).length_le
      simp only [flatMap_cons, length_append]
      omega
  induction tables with
  | nil => cases member
  | cons one rest ih =>
    have first := (fits one).length_le
    have later := below rest
    simp only [flatMap_cons, length_append] at lengths
    rcases mem_cons.mp member with rfl | inRest
    · exact (fits table).perm_of_length_le (by omega)
    · exact ih (by omega) inRest

theorem scanCorrect_single (less : VKey -> VKey -> Bool) (target : VKey) (only : VTable) :
    ScanCorrect ctzZero less box target [only] <->
      ∀ entry ∈ only.entries, (target ≤ entry.key <-> inBox box entry = true) := by
  have value : ∀ fuel, scan less (box.region ctzZero) fuel target
      ([only].map VTable.entries) = some (.ok (seekEntries only.entries target)) :=
    fun _ => rfl
  have sought : (seekEntries only.entries target).Nodup :=
    only.nodup.sublist (dropWhile_sublist _)
  have perm : (seekEntries only.entries target).Perm (only.entries.filter (inBox box)) <->
      ∀ entry ∈ only.entries, (target ≤ entry.key <-> inBox box entry = true) := by
    rw [perm_ext_iff_of_nodup sought (only.nodup.filter _)]
    simp only [mem_seekEntries only.sorted, mem_filter]
    exact forall_congr' fun entry => and_congr_right_iff
  have single : [only].flatMap VTable.entries = only.entries := by simp
  rw [<- perm]
  constructor
  · rintro ⟨_, bound, runs, readPerm, _⟩
    have same := (value bound).symm.trans (runs bound (le_refl _))
    rw [Option.some.injEq, Except.ok.injEq] at same
    rw [same]
    rwa [single] at readPerm
  · intro _
    refine ⟨_, 0, fun fuel _ => value fuel, ?_, ?_⟩
    · rwa [single]
    · exact (pairwise_seekEntries only.sorted target).imp
        fun less => VKey.sortKey_le_of_le (le_of_lt less)

theorem scan_several (ctzZero : Nat) (box : Box) (less : VKey -> VKey -> Bool) (target : VKey)
    (first second : VTable) (others : List VTable) :
    ∃ bound result, (∀ fuel, bound ≤ fuel -> scan less (box.region ctzZero) fuel target
          ((first :: second :: others).map VTable.entries) = some result) ∧
      ReadsAs ((first :: second :: others).map (VTable.traced ctzZero box)) [] result := by
  have sorted : ∀ one ∈ (first :: second :: others).map (VTable.traced ctzZero box),
      one.entries.Pairwise fun a b => a.key.sortKey ≤ b.key.sortKey := by
    intro _ member
    rcases mem_map.mp member with ⟨table, _, rfl⟩
    exact (tableTrace_sound table).increasing.imp fun less => VKey.sortKey_le_of_le (le_of_lt less)
  rcases runLoop_readBody less ((first :: second :: others).map (VTable.traced ctzZero box)) []
    sorted with ⟨current, bound, result, selected, runs, reads⟩
  refine ⟨bound, result, ?_, reads⟩
  intro fuel enough
  have children : (((first :: second :: others).map VTable.entries).map
      fun entries => (⟨entries, [], 0⟩ : Child)).map
        (Child.seekToFirstInterval (box.region ctzZero)) =
      ((first :: second :: others).map (VTable.traced ctzZero box)).map Traced.child := by
    simp [VTable.traced]
  have sought : vSeek less (box.region ctzZero) (((first :: second :: others).map
      VTable.entries).map fun entries => ⟨entries, [], 0⟩) =
      .ok ⟨((first :: second :: others).map (VTable.traced ctzZero box)).map Traced.child,
        current⟩ := by
    simp only [vSeek, children, selected]
    rfl
  change vSeek less _ (map _ (first.entries :: second.entries :: others.map VTable.entries)) = _
    at sought
  rw [map_cons, map_cons]
  unfold scan
  dsimp only
  rw [sought]
  exact runs fuel enough

/-- A scan ends, and what it yields comes from the tables. -/
theorem scan_mem (ctzZero : Nat) (box : Box) (less : VKey -> VKey -> Bool) (target : VKey)
    (tables : List VTable) : ∃ bound result, (∀ fuel, bound ≤ fuel ->
        scan less (box.region ctzZero) fuel target (tables.map VTable.entries) = some result) ∧
      ∀ read, result = .ok read -> ∀ entry ∈ read, ∃ table ∈ tables, entry ∈ table.entries := by
  match tables with
  | [] =>
    refine ⟨0, .ok [], fun _ _ => rfl, ?_⟩
    rintro _ ⟨⟩ _ ⟨⟩
  | [only] =>
    refine ⟨0, .ok (seekEntries only.entries target), fun _ _ => rfl, ?_⟩
    rintro _ ⟨⟩ entry member
    exact ⟨only, mem_singleton_self only, (dropWhile_sublist _).subset member⟩
  | first :: second :: others =>
    rcases scan_several ctzZero box less target first second others with
      ⟨bound, result, runs, reads⟩
    refine ⟨bound, result, runs, fun read isOk entry member => ?_⟩
    have finishes : ∀ one ∈ (first :: second :: others).map (VTable.traced ctzZero box),
        one.finishes = true := by
      by_contra unfinished
      push Not at unfinished
      rcases unfinished with ⟨one, isOne, fails⟩
      rcases reads.failure ⟨one, isOne, Bool.eq_false_iff.mpr fails⟩ with ⟨text, isError⟩
      cases isError.symm.trans isOk
    rcases reads.merge finishes with ⟨merged, isMerged, perm, _⟩
    cases isOk.symm.trans isMerged
    rcases mem_flatMap.mp (perm.mem_iff.mp member) with ⟨_, isTraced, traced⟩
    rcases mem_map.mp isTraced with ⟨table, isTable, rfl⟩
    exact ⟨table, isTable, (mem_filter.mp (tableTrace_subset table traced)).1⟩

theorem scanCorrect_several (less : VKey -> VKey -> Bool) (target : VKey) (first second : VTable)
    (others : List VTable) : ScanCorrect ctzZero less box target (first :: second :: others) <->
      ∀ table ∈ first :: second :: others, NoneHidden table.entries (box.region ctzZero) ∧
          NoGap table.entries (box.region ctzZero) := by
  rcases scan_several ctzZero box less target first second others with
    ⟨bound, _, runs, reads⟩
  generalize first :: second :: others = tables at runs reads ⊢
  have complete := fun table : VTable =>
    complete_first_iff table.sorted (box.region_spec ctzZero).1
  have pendingEq : pending (tables.map (VTable.traced ctzZero box)) =
      tables.flatMap fun table => (tableTrace ctzZero box table).1 := by
    simp [pending, VTable.traced, flatMap_map]
  have filterEq : (tables.flatMap VTable.entries).filter (inBox box) =
      tables.flatMap fun table => table.entries.filter (inBox box) := by
    rw [filter_flatMap]
  constructor
  · rintro ⟨_, otherBound, otherRuns, readPerm, _⟩ table member
    have same := (runs (max bound otherBound) (le_max_left _ _)).symm.trans
      (otherRuns (max bound otherBound) (le_max_right _ _))
    rw [Option.some.injEq] at same
    have allFinish : ∀ one ∈ tables.map (VTable.traced ctzZero box), one.finishes = true := by
      intro one listed
      by_contra unfinished
      rcases reads.failure ⟨one, listed, Bool.eq_false_iff.mpr unfinished⟩ with ⟨_, failed⟩
      rw [failed] at same
      cases same
    rcases reads.merge allFinish with ⟨merged, value, perm, _⟩
    rw [value, Except.ok.injEq] at same
    subst same
    have lengths := (perm.symm.trans readPerm).length_eq
    rw [pendingEq, filterEq] at lengths
    have finishes := allFinish _ (mem_map_of_mem (f := VTable.traced ctzZero box) member)
    exact (complete table).mp ((complete_iff_perm table finishes).mpr
      (perm_of_flatMap_length tables lengths table member))
  · intro conditions
    have completeAll : ∀ table ∈ tables,
        Complete table.entries (box.region ctzZero) (tableTrace ctzZero box table) :=
      fun table member => (complete table).mpr (conditions table member)
    have allFinish : ∀ one ∈ tables.map (VTable.traced ctzZero box), one.finishes = true := by
      intro _ listed
      rcases mem_map.mp listed with ⟨table, member, rfl⟩
      exact (completeAll table member).1
    rcases reads.merge allFinish with ⟨merged, value, perm, ordered⟩
    refine ⟨merged, bound, fun fuel enough => by rw [runs fuel enough, value]; rfl, ?_, ordered⟩
    rw [filterEq]
    rw [pendingEq] at perm
    exact perm.trans (Perm.flatMap_left tables fun table member =>
      (complete_iff_perm table (completeAll table member).1).mp (completeAll table member))

end

/-- A box scan through `NewVMergingIterator` is correct exactly under the
scan condition, for every number of children. -/
theorem scan_correct_iff (ctzZero : Nat) (less : VKey -> VKey -> Bool) (box : Box)
    (target : VKey) (tables : List VTable) :
    ScanCorrect ctzZero less box target tables <-> ScanCondition ctzZero box target tables := by
  match tables with
  | [] =>
    exact ⟨fun _ => trivial, fun _ => ⟨[], 0, fun _ _ => rfl, Perm.refl _, Pairwise.nil⟩⟩
  | [only] => exact scanCorrect_single less target only
  | first :: second :: others => exact scanCorrect_several less target first second others

/-- The box with corners (1, 1) and (2, 2): its codes 3, 6, 9 and 12 are four
separate intervals. -/
def gapBox : Box := ⟨1, 1, 2, 2, by decide, by decide⟩

/-- Entries in the first and the third of these intervals only. -/
def gapTable : VTable :=
  ⟨[⟨⟨List.replicate 16 1, 257, 3⟩, [7]⟩, ⟨⟨List.replicate 16 2, 513, 9⟩, [8]⟩], by decide⟩

/-- Leaving the first interval, `JumpNext` asserts that the second one has an
entry, although both entries of the table lie in the box. -/
theorem scan_aborts_at_gap :
    ¬ ScanCorrect 0 (fun _ _ => false) gapBox (seekKey 0) [gapTable, ⟨[], List.Pairwise.nil⟩] := by
  rintro ⟨_, bound, runs, _⟩
  let children : List Child :=
    [⟨gapTable.entries, gapTable.entries, 0⟩, ⟨[], [], 4⟩]
  have sought : vSeek (fun _ _ => false) (gapBox.region 0)
      [⟨gapTable.entries, [], 0⟩, ⟨[], [], 0⟩] = .ok ⟨children, some 0⟩ := by
    decide +kernel
  have stops : readBody (fun _ _ => false) (gapBox.region 0) (⟨children, some 0⟩, []) =
      .done (.error "found_sort_key <= cur_interval.end_") := by
    decide +kernel
  have run := runs (bound + 1) (Nat.le_succ bound)
  simp only [scan, map_cons, map_nil, sought, runLoop, stops] at run
  cases run

end Table
end Doux
