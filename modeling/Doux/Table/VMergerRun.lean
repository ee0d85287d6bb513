import Doux.Table.VMerger

namespace Doux
namespace Table

open Foundation Util Zorder List

/-!
# Runs of the merging iterator

The children of a merging iterator do not influence each other: what a child
yields, and whether its `JumpNext` fails, is determined by the child alone.
`HasTrace` records this behaviour of a single child.  The whole run is then a
merge of the traces.  It fails when one of them does, because every child is
advanced until it is exhausted, and otherwise it yields the entries of all
traces in the order of their sort keys.
-/

variable {entry : Entry}

namespace Child

/-- The child stands on the given entry, inside its present interval. -/
def At (region : List Interval) (child : Child) (entry : Entry) : Prop :=
  ∃ interval rest, region[child.curIdx]? = some interval ∧ child.rest = entry :: rest ∧
    interval.start ≤ entry.key.sortKey ∧ entry.key.sortKey ≤ interval.end_

/-- `FindSmallest` passes over the child. -/
def Idle (region : List Interval) (child : Child) : Prop :=
  region[child.curIdx]? = none ∨ child.rest = []

variable {region : List Interval} {child : Child}

theorem At.not_idle (stands : child.At region entry) : ¬ child.Idle region := by
  rcases stands with ⟨_, _, inRange, valid, _⟩
  rintro (exhausted | invalid)
  · rw [inRange] at exhausted
    cases exhausted
  · rw [valid] at invalid
    cases invalid

theorem At.unique {first second : Entry} (one : child.At region first)
    (other : child.At region second) : first = second := by
  rcases one with ⟨_, _, _, firstRest, _⟩
  rcases other with ⟨_, _, _, secondRest, _⟩
  rw [firstRest] at secondRest
  exact (List.cons.inj secondRest).1

/-- The entries that a child yields, one per call of `Next`, and whether it
finishes without a failed assertion. -/
inductive HasTrace (region : List Interval) : Child -> List Entry -> Bool -> Prop
  | stop {child : Child} (idle : child.Idle region) : HasTrace region child [] true
  | fails {child : Child} {entry : Entry} {text : String} (stands : child.At region entry)
      (stuck : child.advance region = .error text) : HasTrace region child [entry] false
  | step {child next : Child} {entry : Entry} {entries : List Entry} {finishes : Bool}
      (stands : child.At region entry) (moved : child.advance region = .ok next)
      (later : HasTrace region next entries finishes) :
      HasTrace region child (entry :: entries) finishes

variable {entries : List Entry} {finishes : Bool}
variable (trace : HasTrace region child entries finishes)
include trace

theorem HasTrace.ready : child.Idle region ∨ ∃ entry, child.At region entry := by
  cases trace with
  | stop idle => exact Or.inl idle
  | fails stands _ => exact Or.inr ⟨_, stands⟩
  | step stands _ _ => exact Or.inr ⟨_, stands⟩

theorem HasTrace.head (stands : child.At region entry) : ∃ later, entries = entry :: later := by
  cases trace with
  | stop idle => exact absurd idle stands.not_idle
  | fails other _ => exact ⟨[], by rw [other.unique stands]⟩
  | step other _ _ => exact ⟨_, by rw [other.unique stands]⟩

theorem HasTrace.advance_cases (stands : child.At region entry) :
    (∃ text, child.advance region = .error text ∧ finishes = false) ∨
      ∃ next later, child.advance region = .ok next ∧ entries = entry :: later ∧
        HasTrace region next later finishes := by
  cases trace with
  | stop idle => exact absurd idle stands.not_idle
  | fails _ stuck => exact Or.inl ⟨_, stuck, rfl⟩
  | step other moved later =>
    rw [other.unique stands]
    exact Or.inr ⟨_, _, moved, rfl, later⟩

theorem HasTrace.nil_of_idle (idle : child.Idle region) : entries = [] ∧ finishes = true := by
  cases trace with
  | stop _ => exact ⟨rfl, rfl⟩
  | fails stands _ => exact absurd idle stands.not_idle
  | step stands _ _ => exact absurd idle stands.not_idle

end Child

section
variable (less : VKey -> VKey -> Bool) (region : List Interval)

/-- What the loop of `FindSmallest` knows after some children. -/
def SmallestOf (seen : List Child) (best : Smallest) : Prop :=
  match best.smallest with
  | none => best.sortKey = BitVec.ofNat 64 (2 ^ 64 - 1) ∧ ∀ child ∈ seen, child.Idle region
  | some (pos, key) => ∃ child entry, seen[pos]? = some child ∧ child.At region entry ∧
      entry.key = key ∧ best.sortKey = key.sortKey ∧
      forall other standing, other ∈ seen -> other.At region standing ->
        key.sortKey ≤ standing.key.sortKey

variable {region} {seen : List Child} {best : Smallest} {child : Child}

theorem SmallestOf.keep (known : SmallestOf region seen best)
    (idle : best.smallest = none -> child.Idle region)
    (larger : ∀ standing, child.At region standing -> best.sortKey ≤ standing.key.sortKey) :
    SmallestOf region (seen ++ [child]) best := by
  unfold SmallestOf at known ⊢
  split at known
  next none => exact ⟨known.1, forall_mem_concat.mpr ⟨known.2, idle none⟩⟩
  next =>
    rcases known with ⟨chosen, entry, position, stands, keyEq, sortEq, least⟩
    refine ⟨chosen, entry, ?_, stands, keyEq, sortEq, ?_⟩
    · rw [getElem?_append_left (List.getElem?_eq_some_iff.mp position).1]
      exact position
    · intro other standing member otherStands
      rcases mem_concat.mp member with old | rfl
      · exact least other standing old otherStands
      · exact sortEq ▸ larger standing otherStands

theorem SmallestOf.consider (known : SmallestOf region seen best)
    (stands : child.At region entry) : SmallestOf region (seen ++ [child])
      (if prefers less entry.key best then ⟨some (seen.length, entry.key), entry.key.sortKey⟩
        else best) := by
  by_cases preferred : prefers less entry.key best = true
  · rw [if_pos preferred]
    refine ⟨child, entry, by simp, stands, rfl, rfl, ?_⟩
    intro other standing member otherStands
    rcases mem_concat.mp member with old | rfl
    · have noLarger : entry.key.sortKey ≤ best.sortKey := by
        unfold prefers at preferred
        rw [Bool.or_eq_true, decide_eq_true_eq, Bool.and_eq_true, decide_eq_true_eq] at preferred
        rcases preferred with smaller | ⟨same, _⟩
        · exact BitVec.le_of_lt smaller
        · rw [same]
          exact BitVec.le_refl _
      unfold SmallestOf at known
      split at known
      · exact absurd (known.2 other old) otherStands.not_idle
      · rcases known with ⟨_, _, _, _, _, sortEq, least⟩
        rw [sortEq] at noLarger
        exact BitVec.le_trans noLarger (least other standing old otherStands)
    · rw [stands.unique otherStands]
      exact BitVec.le_refl _
  · rw [if_neg preferred]
    have notPreferred : ¬ (entry.key.sortKey < best.sortKey ∨ entry.key.sortKey = best.sortKey ∧
        (match best.smallest with
          | none => true
          | some (_, smallest) => less entry.key smallest) = true) := by
      intro _
      apply preferred
      unfold prefers
      rwa [Bool.or_eq_true, decide_eq_true_eq, Bool.and_eq_true, decide_eq_true_eq]
    refine known.keep (fun none => ?_) (fun standing otherStands => ?_)
    · unfold SmallestOf at known
      rw [none] at notPreferred known
      exfalso
      apply notPreferred
      rw [known.1]
      by_cases last : entry.key.sortKey.toNat = 2 ^ 64 - 1
      · exact Or.inr ⟨BitVec.eq_of_toNat_eq last, rfl⟩
      · left
        change entry.key.sortKey.toNat < 2 ^ 64 - 1
        omega
    · rw [← stands.unique otherStands]
      by_contra larger
      exact notPreferred (Or.inl (BitVec.lt_def.mpr (Nat.lt_of_not_le larger)))

theorem findSmallestLoop_spec (children seen : List Child) (best : Smallest)
    (ready : ∀ child ∈ children, child.Idle region ∨ ∃ entry, child.At region entry)
    (known : SmallestOf region seen best) :
    ∃ result, findSmallestLoop less region children seen.length best = .ok result ∧
      SmallestOf region (seen ++ children) result := by
  induction children generalizing seen best with
  | nil => exact ⟨best, rfl, by rwa [append_nil]⟩
  | cons child children ih =>
    have later : ∀ other ∈ children, other.Idle region ∨ ∃ entry, other.At region entry :=
      fun other member => ready other (mem_cons_of_mem _ member)
    have length : (seen ++ [child]).length = seen.length + 1 := by simp
    rcases ready child mem_cons_self with idle | ⟨entry, stands⟩
    · have kept := known.keep (fun _ => idle) (fun _ stands => absurd idle stands.not_idle)
      rcases ih (seen ++ [child]) best later kept with ⟨result, run, final⟩
      refine ⟨result, ?_, by simpa using final⟩
      rw [length] at run
      rw [findSmallestLoop, ← run]
      rcases idle with exhausted | invalid
      · rw [exhausted]
      · rw [invalid]
        cases region[child.curIdx]? <;> rfl
    · rcases ih (seen ++ [child]) _ later (known.consider less stands) with
        ⟨result, run, final⟩
      refine ⟨result, ?_, by simpa using final⟩
      rw [length] at run
      rcases stands with ⟨interval, _, inRange, valid, inside⟩
      rw [findSmallestLoop, inRange, valid]
      simp only [bind]
      rw [assertThat_of (show entry.key.sortKey ≥ interval.start ∧ _ from inside)]
      exact run

/-- `FindSmallest` does not fail on children that stand in their intervals,
and selects one with the smallest sort key. -/
theorem findSmallest_spec {children : List Child} (ready : ∀ child ∈ children,
      child.Idle region ∨ ∃ entry, child.At region entry) :
    (findSmallest less region children = .ok none ∧ ∀ child ∈ children, child.Idle region) ∨
    ∃ pos child entry, findSmallest less region children = .ok (some pos) ∧
      children[pos]? = some child ∧ child.At region entry ∧
      ∀ other standing, other ∈ children -> other.At region standing ->
        entry.key.sortKey ≤ standing.key.sortKey := by
  have start : SmallestOf region [] ⟨none, BitVec.ofNat 64 (2 ^ 64 - 1)⟩ :=
    ⟨rfl, fun _ member => by cases member⟩
  rcases findSmallestLoop_spec less children [] _ ready start with ⟨result, run, final⟩
  have value : findSmallest less region children = .ok (result.smallest.map Prod.fst) := by
    unfold findSmallest
    rw [show (0 : Nat) = ([] : List Child).length from rfl, run]
    rfl
  unfold SmallestOf at final
  split at final
  · rename_i none
    left
    rw [value, none]
    exact ⟨rfl, final.2⟩
  · rename_i pos key chosen
    right
    rcases final with ⟨child, entry, position, stands, keyEq, _, least⟩
    refine ⟨pos, child, entry, ?_, position, stands, ?_⟩
    · rw [value, chosen]
      rfl
    · rw [keyEq]
      exact least

/-! ## The run as a merge of traces -/

/-- A child with its trace. -/
structure Traced (region : List Interval) where
  child : Child
  entries : List Entry
  finishes : Bool
  trace : child.HasTrace region entries finishes

/-- All entries of the traces are still to be yielded. -/
def pending (traced : List (Traced region)) : List Entry :=
  traced.flatMap Traced.entries

/-- The outcome of reading the iterator to its end, from the traces of its
children: an error when one of them fails, and a sorted merge otherwise. -/
structure ReadsAs (traced : List (Traced region)) (before : List Entry)
    (result : Except String (List Entry)) : Prop where
  merge : (∀ one ∈ traced, one.finishes = true) ->
    ∃ merged, result = .ok (before ++ merged) ∧ merged.Perm (pending traced) ∧
      merged.Pairwise fun a b => a.key.sortKey ≤ b.key.sortKey
  failure : (∃ one ∈ traced, one.finishes = false) -> ∃ text, result = .error text

theorem Traced.ready_of_mem (traced : List (Traced region)) (child : Child)
    (member : child ∈ traced.map Traced.child) :
    child.Idle region ∨ ∃ entry, child.At region entry := by
  rcases mem_map.mp member with ⟨one, _, rfl⟩
  exact one.trace.ready

theorem readsAs_idle {traced : List (Traced region)} (before : List Entry)
    (idle : ∀ child ∈ traced.map Traced.child, child.Idle region) :
    ReadsAs traced before (.ok before) := by
  have ended : ∀ one ∈ traced, one.entries = [] ∧ one.finishes = true := by
    intro one member
    exact one.trace.nil_of_idle (idle one.child (mem_map_of_mem member))
  constructor
  · intro _
    refine ⟨[], by rw [append_nil], ?_, List.Pairwise.nil⟩
    have empty : pending traced = [] := by
      unfold pending
      rw [flatMap_eq_nil_iff]
      exact fun one member => (ended one member).1
    rw [empty]
  · rintro ⟨one, member, fails⟩
    rw [(ended one member).2] at fails
    cases fails

theorem currentEntry_some {children : List Child} {pos : Nat}
    (position : children[pos]? = some child) (stands : child.At region entry) :
    currentEntry ⟨children, some pos⟩ = some entry := by
  rcases stands with ⟨_, _, _, valid, _⟩
  simp [currentEntry, position, valid]

theorem exists_split {α : Type} {list : List α} {pos : Nat} {item : α}
    (position : list[pos]? = some item) :
    ∃ front back, list = front ++ item :: back ∧ front.length = pos := by
  rcases List.getElem?_eq_some_iff.mp position with ⟨bound, value⟩
  refine ⟨list.take pos, list.drop (pos + 1), ?_, ?_⟩
  · rw [← value, ← drop_eq_getElem_cons bound, take_append_drop]
  · rw [length_take]
    omega

theorem ReadsAs.cons {front back : List (Traced region)} {before : List Entry}
    {one next : Traced region} {result : Except String (List Entry)}
    (head : one.entries = entry :: next.entries) (status : one.finishes = next.finishes)
    (least : ∀ later ∈ pending (front ++ next :: back), entry.key.sortKey ≤ later.key.sortKey)
    (after : ReadsAs (front ++ next :: back) (before ++ [entry]) result) :
    ReadsAs (front ++ one :: back) before result := by
  constructor
  · intro allFinish
    have stillFinish : ∀ other ∈ front ++ next :: back, other.finishes = true := by
      rw [forall_mem_append, forall_mem_cons] at allFinish ⊢
      rwa [← status]
    rcases after.merge stillFinish with ⟨merged, value, perm, sorted⟩
    refine ⟨entry :: merged, by rw [value, append_assoc]; rfl, ?_, ?_⟩
    · have moved : (entry :: pending (front ++ next :: back)).Perm
          (pending (front ++ one :: back)) := by
        unfold pending
        simp only [flatMap_append, flatMap_cons, head]
        exact perm_middle.symm
      exact (perm.cons entry).trans moved
    · exact pairwise_cons.mpr ⟨fun later member => least later (perm.mem_iff.mp member), sorted⟩
  · intro fails
    apply after.failure
    simpa only [mem_append, mem_cons, or_and_right, exists_or, exists_eq_left, status] using fails

/-- Reading an iterator whose children have the given traces. -/
theorem runLoop_readBody (traced : List (Traced region)) (before : List Entry)
    (sorted : ∀ one ∈ traced, one.entries.Pairwise fun a b => a.key.sortKey ≤ b.key.sortKey) :
    ∃ current bound result, findSmallest less region (traced.map Traced.child) = .ok current ∧
      (∀ fuel, bound ≤ fuel -> runLoop (readBody less region) fuel
        (⟨traced.map Traced.child, current⟩, before) = some result) ∧
      ReadsAs traced before result := by
  induction sizeEq : (pending traced).length using Nat.strong_induction_on
    generalizing traced before with
  | _ size ih =>
    rcases findSmallest_spec less (Traced.ready_of_mem traced) with
      ⟨selected, idle⟩ | ⟨pos, child, entry, selected, position, stands, least⟩
    · refine ⟨none, 1, .ok before, selected, ?_, readsAs_idle before idle⟩
      intro fuel enough
      rcases Nat.exists_eq_add_of_le' enough with ⟨more, rfl⟩
      rfl
    · refine ⟨some pos, ?_⟩
      have yields := currentEntry_some position stands
      rw [getElem?_map] at position
      rcases Option.map_eq_some_iff.mp position with ⟨one, tracedPosition, rfl⟩
      rcases exists_split tracedPosition with ⟨front, back, rfl, rfl⟩
      have childPosition : ((front ++ one :: back).map Traced.child)[front.length]? =
          some one.child := by simp
      -- The selected entry is the least of everything still to be yielded.
      have leastPending : ∀ other ∈ front ++ one :: back,
          ∀ later ∈ other.entries, entry.key.sortKey ≤ later.key.sortKey := by
        intro other member later listed
        have otherSorted := sorted other member
        rcases other.trace.ready with idle | ⟨standing, otherStands⟩
        · rw [(other.trace.nil_of_idle idle).1] at listed
          cases listed
        · rcases other.trace.head otherStands with ⟨_, shape⟩
          have first := least other.child standing (mem_map_of_mem member) otherStands
          rw [shape] at listed otherSorted
          rcases mem_cons.mp listed with rfl | inTail
          · exact first
          · exact BitVec.le_trans first ((pairwise_cons.mp otherSorted).1 later inTail)
      rcases one.trace.advance_cases stands with
        ⟨text, stuck, notFinished⟩ | ⟨next, laterEntries, moved, shape, later⟩
      · have nextFails : vNext less region
            ⟨(front ++ one :: back).map Traced.child, some front.length⟩ = .error text := by
          simp only [vNext, childPosition, stuck]
          rfl
        refine ⟨1, .error text, selected, ?_, ?_, ?_⟩
        · intro fuel enough
          rcases Nat.exists_eq_add_of_le' enough with ⟨more, rfl⟩
          simp only [runLoop, readBody, yields, nextFails]
        · intro allFinish
          rw [allFinish one (by simp)] at notFinished
          cases notFinished
        · intro _
          exact ⟨text, rfl⟩
      · let following : Traced region := ⟨next, laterEntries, one.finishes, later⟩
        have smaller : (pending (front ++ following :: back)).length < size := by
          rw [← sizeEq]
          unfold pending
          simp only [flatMap_append, flatMap_cons, length_append, shape, length_cons, following]
          omega
        have stillSorted : ∀ other ∈ front ++ following :: back,
            other.entries.Pairwise fun a b => a.key.sortKey ≤ b.key.sortKey := by
          rw [forall_mem_append, forall_mem_cons, shape, pairwise_cons] at sorted
          rw [forall_mem_append, forall_mem_cons]
          exact ⟨sorted.1, sorted.2.1.2, sorted.2.2⟩
        rcases ih _ smaller (front ++ following :: back) (before ++ [entry]) stillSorted rfl with
          ⟨current, bound, result, reselected, runs, reads⟩
        have nextChildren : ((front ++ one :: back).map Traced.child).set front.length next =
            (front ++ following :: back).map Traced.child := by
          simp [following]
        have nextStep : vNext less region
            ⟨(front ++ one :: back).map Traced.child, some front.length⟩ =
            .ok ⟨(front ++ following :: back).map Traced.child, current⟩ := by
          simp only [vNext, childPosition, moved, bind, Except.bind, nextChildren, reselected]
          rfl
        refine ⟨bound + 1, result, selected, ?_, ?_⟩
        · intro _ enough
          rcases Nat.exists_eq_add_of_le' (le_trans (Nat.le_add_left 1 bound) enough) with
            ⟨more, rfl⟩
          simp only [runLoop, readBody, yields, nextStep]
          exact runs more (by omega)
        · have status : one.finishes = following.finishes := rfl
          refine ReadsAs.cons shape status ?_ reads
          rw [forall_mem_append, forall_mem_cons, shape, forall_mem_cons] at leastPending
          simp only [pending, forall_mem_flatMap]
          rw [forall_mem_append, forall_mem_cons]
          exact ⟨leastPending.1, leastPending.2.1.2, leastPending.2.2⟩

end

end Table
end Doux
