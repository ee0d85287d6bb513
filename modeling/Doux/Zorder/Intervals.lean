import Doux.Zorder.Aabb

namespace Doux
namespace Zorder

open Foundation List

/-!
# The intervals of a box

The loop of `AABB::ToIntervals` keeps a stack of boxes and a list of finished
intervals.  The invariant is about the list only: its intervals are nonempty,
in increasing order and separated by at least one code.  Working off one box
together with everything pushed in its place adds exactly the codes of that box
to the list, provided that the list lies below the box.  This is proved by
induction on the distance between the corner codes, which every cut reduces,
and the same induction bounds the number of passes.
-/

/-- Nonempty intervals, each of which starts past the successor of the end of
every earlier one. -/
structure Region (intervals : List Interval) : Prop where
  nonempty : ∀ interval ∈ intervals, interval.start ≤ interval.end_
  separated : intervals.Pairwise fun earlier later =>
    earlier.end_.toNat + 1 < later.start.toNat

def Covers (intervals : List Interval) (code : BitVec 64) : Prop :=
  ∃ interval ∈ intervals, interval.start ≤ code ∧ code ≤ interval.end_

def EndsBefore (intervals : List Interval) (code : BitVec 64) : Prop :=
  ∀ interval ∈ intervals, interval.end_ < code

theorem covers_append (front back : List Interval) (code : BitVec 64) :
    Covers (front ++ back) code <-> Covers front code ∨ Covers back code := by
  unfold Covers
  simp [or_and_right, exists_or]

theorem covers_singleton (interval : Interval) (code : BitVec 64) :
    Covers [interval] code <-> interval.start ≤ code ∧ code ≤ interval.end_ := by
  unfold Covers
  simp

theorem Region.push {intervals : List Interval} (region : Region intervals) {next : Interval}
    (ordered : next.start ≤ next.end_) (gap : ∀ interval ∈ intervals,
      interval.end_.toNat + 1 < next.start.toNat) : Region (intervals ++ [next]) := by
  constructor
  · exact forall_mem_concat.mpr ⟨region.nonempty, ordered⟩
  · exact pairwise_concat.mpr ⟨region.separated, gap⟩

section
variable {interval : Interval} {intervals : List Interval} (region : Region (interval :: intervals))
include region

theorem Region.tail : Region intervals :=
  ⟨fun other member => region.nonempty other (mem_cons_of_mem _ member),
    (pairwise_cons.mp region.separated).2⟩

theorem Region.end_lt {later : Interval} (listed : later ∈ intervals) {code : BitVec 64}
    (starts : later.start ≤ code) : interval.end_ < code := by
  have gap := (pairwise_cons.mp region.separated).1 later listed
  rw [BitVec.le_def] at starts
  rw [BitVec.lt_def]
  omega

end

variable {inputs : List Aabb}

section
variable {ctzZero : Nat}

theorem toCell_of_aligned {box : Aabb} (aligned : isMortonAligned ctzZero box = .ok true) :
    toCell ctzZero box = .ok ⟨box.min, box.max⟩ := by
  unfold toCell
  rw [aligned]
  rfl

variable {outputs : List Interval}

theorem emitCell_spec {box : Aabb} (ordered : box.min ≤ box.max)
    (aligned : isMortonAligned ctzZero box = .ok true)
    (region : Region outputs) (below : EndsBefore outputs box.min) :
    ∃ next, emitCell ctzZero outputs box = .ok next ∧ Region next ∧
      (∀ interval ∈ next, interval.end_ ≤ box.max) ∧ ∀ code, Covers next code <->
        Covers outputs code ∨ (box.min ≤ code ∧ code ≤ box.max) := by
  have orderedNat : box.min.toNat ≤ box.max.toNat := ordered
  have ends : ∀ interval ∈ outputs, interval.end_ ≤ box.max := by
    intro interval member
    have before : interval.end_.toNat < box.min.toNat := below interval member
    rw [BitVec.le_def]
    omega
  rcases eq_nil_or_concat outputs with rfl | ⟨front, last, rfl⟩
  · refine ⟨[⟨box.min, box.max⟩], ?_, region.push ordered (by simp), by simp, ?_⟩
    · unfold emitCell
      simp only [toCell_of_aligned aligned]
      rfl
    · simp [Covers]
  · rw [concat_eq_append] at region below ends ⊢
    have before : last.end_.toNat < box.min.toNat := below last (by simp)
    have lastOrdered : last.start.toNat ≤ last.end_.toNat := region.nonempty last (by simp)
    have successor : (last.end_ + 1).toNat = last.end_.toNat + 1 := by
      exact Nat.mod_eq_of_lt (by change last.end_.toNat + 1 < 2 ^ 64; omega)
    have parts := pairwise_append.mp region.separated
    have frontRegion : Region front := ⟨fun interval member =>
      region.nonempty interval (mem_append_left _ member), parts.1⟩
    have frontGap : ∀ interval ∈ front, interval.end_.toNat + 1 < last.start.toNat := by
      intro interval member
      exact parts.2.2 interval member last (mem_singleton.mpr rfl)
    by_cases touches : last.end_ + 1 = box.min
    · have touchesNat : last.end_.toNat + 1 = box.min.toNat := by
        rw [← successor, touches]
      refine ⟨front ++ [⟨last.start, box.max⟩], ?_, ?_, ?_, ?_⟩
      · unfold emitCell
        simp only [getLast?_concat, if_pos touches, dropLast_concat]
      · apply frontRegion.push
        · change last.start.toNat ≤ box.max.toNat
          omega
        · exact frontGap
      · exact forall_mem_concat.mpr
          ⟨fun interval old => ends interval (mem_append_left _ old), BitVec.le_refl _⟩
      · intro code
        rw [covers_append, covers_append, covers_singleton, covers_singleton, or_assoc]
        apply or_congr_right
        simp only [BitVec.le_def]
        omega
    · have apart : last.end_.toNat + 1 ≠ box.min.toNat := by
        intro same
        apply touches
        apply BitVec.eq_of_toNat_eq
        rw [successor, same]
      refine ⟨(front ++ [last]) ++ [⟨box.min, box.max⟩], ?_, ?_, ?_, ?_⟩
      · unfold emitCell
        simp only [getLast?_concat, if_neg touches, toCell_of_aligned aligned]
        rfl
      · apply region.push ordered
        intro interval member
        rcases mem_append.mp member with old | new
        · have gap := frontGap interval old
          change interval.end_.toNat + 1 < box.min.toNat
          omega
        · rw [mem_singleton.mp new]
          change last.end_.toNat + 1 < box.min.toNat
          omega
      · exact forall_mem_concat.mpr ⟨ends, BitVec.le_refl _⟩
      · intro _
        rw [covers_append, covers_singleton]

theorem toIntervalsBody_aligned {box : Aabb} {next : List Interval}
    (aligned : isMortonAligned ctzZero box = .ok true)
    (emitted : emitCell ctzZero outputs box = .ok next) :
    toIntervalsBody ctzZero (box :: inputs, outputs) = .again (inputs, next) := by
  simp [toIntervalsBody, toIntervalsPass, aligned, emitted, bind, Except.bind, pure, Except.pure]

variable {box first second : Box}

theorem toIntervalsBody_cut (notAligned : isMortonAligned ctzZero box.aabb = .ok false)
    (divides : Box.Divides box first second)
    (address : mortonGetNextAddress box.aabb = (first.aabb.max, second.aabb.min)) :
    toIntervalsBody ctzZero (box.aabb :: inputs, outputs) =
      .again (first.aabb :: second.aabb :: inputs, outputs) := by
  have firstOrdered : first.aabb.max ≥ box.aabb.min := divides.least ▸ first.aabb_ordered
  have secondOrdered : box.aabb.max ≥ second.aabb.min :=
    divides.greatest ▸ second.aabb_ordered
  simp only [toIntervalsBody, toIntervalsPass, notAligned, address, bind, Except.bind, pure,
    Except.pure, assertThat_of firstOrdered, assertThat_of secondOrdered,
    Bool.false_eq_true, if_false]
  rw [← divides.least, ← divides.greatest]

theorem Box.contains_iff_of_divides (divides : Box.Divides box first second)
    (code : BitVec 64) : box.Contains code <-> first.Contains code ∨ second.Contains code := by
  unfold Box.Contains
  simp [divides.points, or_and_right, exists_or]

/-- The number of codes from the least to the greatest corner, less one. -/
def Box.extent (box : Box) : Nat := box.aabb.max.toNat - box.aabb.min.toNat

/-- Both parts of a cut are shorter, and together they fit into the whole. -/
theorem Box.Divides.extent_lt (divides : Box.Divides box first second) :
    first.extent + second.extent < box.extent := by
  have firstOrdered : first.aabb.min.toNat ≤ first.aabb.max.toNat := first.aabb_ordered
  have secondOrdered : second.aabb.min.toNat ≤ second.aabb.max.toNat := second.aabb_ordered
  have precedes : first.aabb.max.toNat < second.aabb.min.toNat := divides.precedes
  unfold Box.extent
  rw [← divides.least, ← divides.greatest]
  omega

theorem Box.passes_toIntervalsBody (box : Box) (inputs : List Aabb) (outputs : List Interval)
    (region : Region outputs) (below : EndsBefore outputs box.aabb.min) :
    ∃ count next, count ≤ 2 * box.extent + 1 ∧
      Passes (toIntervalsBody ctzZero) count (box.aabb :: inputs, outputs) (inputs, next) ∧
      Region next ∧ (∀ interval ∈ next, interval.end_ ≤ box.aabb.max) ∧
      ∀ code, Covers next code <-> Covers outputs code ∨ box.Contains code := by
  induction size : box.extent using Nat.strong_induction_on generalizing box inputs outputs with
  | _ size ih =>
    rcases isMortonAligned_ok box.aabb_ordered with ⟨aligned, test⟩
    cases aligned with
    | true =>
      rcases emitCell_spec box.aabb_ordered test region below with
        ⟨next, emitted, nextRegion, ends, covers⟩
      refine ⟨1, next, by omega, Passes.one (toIntervalsBody_aligned test emitted),
        nextRegion, ends, ?_⟩
      intro code
      rw [covers, Box.contains_iff_of_aligned test]
    | false =>
      have several : box.aabb.min ≠ box.aabb.max := by
        intro same
        have single : isMortonAligned ctzZero ⟨box.aabb.min, box.aabb.max⟩ = .ok true := by
          rw [same]
          exact isMortonAligned_single ctzZero box.aabb.max
        cases single.symm.trans test
      rcases box.mortonGetNextAddress_divides several with ⟨first, second, divides, address⟩
      have smaller := divides.extent_lt
      rcases ih first.extent (by omega) first (second.aabb :: inputs) outputs region
          (divides.least ▸ below) rfl with
        ⟨firstCount, middle, _, firstPasses, middleRegion, middleEnds, middleCovers⟩
      have middleBelow : EndsBefore middle second.aabb.min := by
        intro interval member
        have ended : interval.end_.toNat ≤ first.aabb.max.toNat := middleEnds interval member
        have precedes : first.aabb.max.toNat < second.aabb.min.toNat := divides.precedes
        rw [BitVec.lt_def]
        omega
      rcases ih second.extent (by omega) second inputs middle middleRegion middleBelow rfl with
        ⟨secondCount, next, _, secondPasses, nextRegion, nextEnds, nextCovers⟩
      refine ⟨1 + (firstCount + secondCount), next, by omega,
        (Passes.one (toIntervalsBody_cut test divides address)).trans
          (firstPasses.trans secondPasses), nextRegion, divides.greatest ▸ nextEnds, ?_⟩
      intro _
      rw [nextCovers, middleCovers, Box.contains_iff_of_divides divides, or_assoc]

/-- The decomposition of an ordered box returns within a number of passes that
depends only on the distance of its corner codes; no assertion fails, and the
intervals are a region that covers exactly the codes of the box. -/
theorem toIntervals_box (box : Box) : ∃ intervals, (∀ fuel, 2 * box.extent + 2 ≤ fuel ->
        toIntervals ctzZero fuel box.aabb = some (.ok intervals)) ∧
      Region intervals ∧ ∀ code, Covers intervals code <-> box.Contains code := by
  have emptyRegion : Region [] := ⟨by simp, List.Pairwise.nil⟩
  rcases box.passes_toIntervalsBody [] [] emptyRegion (by simp [EndsBefore])
    with ⟨_, intervals, _, passes, region, _, covers⟩
  refine ⟨intervals, ?_, region, ?_⟩
  · intro _ _
    unfold toIntervals
    rw [if_pos (show box.aabb.max ≥ box.aabb.min from box.aabb_ordered)]
    exact passes.returns rfl (by omega)
  · intro _
    rw [covers]
    simp [Covers]

end

/-- The value of `region_` that an iterator over the box computes. -/
def Box.region (ctzZero : Nat) (box : Box) : List Interval :=
  match toIntervals ctzZero (2 * box.extent + 2) box.aabb with
  | some (.ok intervals) => intervals
  | _ => []

theorem Box.region_spec (ctzZero : Nat) (box : Box) : Region (box.region ctzZero) ∧
      ∀ code, Covers (box.region ctzZero) code <-> box.Contains code := by
  rcases toIntervals_box box with ⟨intervals, returns, spec⟩
  have value : box.region ctzZero = intervals := by
    unfold Box.region
    rw [returns _ (le_refl _)]
  rw [value]
  exact spec

/-- `AABB(Encode(x1, y1), Encode(x2, y2)).ToIntervals()` terminates without a
failed assertion, and its intervals are increasing, separated, and cover the
Morton codes of the box and no others. -/
theorem toIntervals_correct (ctzZero : Nat) (x1 y1 x2 y2 : BitVec 32)
    (xOrdered : x1 ≤ x2) (yOrdered : y1 ≤ y2) :
    ∃ intervals bound, (forall fuel, bound ≤ fuel ->
        toIntervals ctzZero fuel ⟨encode x1 y1, encode x2 y2⟩ = some (.ok intervals)) ∧
      (∀ interval ∈ intervals, interval.start ≤ interval.end_) ∧
      intervals.Pairwise (fun earlier later => earlier.end_.toNat + 1 < later.start.toNat) ∧
      forall code, (∃ interval ∈ intervals, interval.start ≤ code ∧ code ≤ interval.end_) <->
        ∃ x y, ((x1 ≤ x ∧ x ≤ x2) ∧ (y1 ≤ y ∧ y ≤ y2)) ∧ encode x y = code := by
  rcases toIntervals_box ⟨x1, y1, x2, y2, xOrdered, yOrdered⟩ with
    ⟨intervals, returns, region, covers⟩
  exact ⟨intervals, _, returns, region.nonempty, region.separated, covers⟩

/-- The full domain, whose corner difference wraps around to zero. -/
theorem toIntervals_correct_full_domain : ∃ intervals bound, (forall fuel, bound ≤ fuel ->
        toIntervals 0 fuel ⟨encode 0 0, encode 0xffffffff 0xffffffff⟩ = some (.ok intervals)) ∧
      (∀ interval ∈ intervals, interval.start ≤ interval.end_) ∧
      intervals.Pairwise (fun earlier later => earlier.end_.toNat + 1 < later.start.toNat) ∧
      forall code, (∃ interval ∈ intervals, interval.start ≤ code ∧ code ≤ interval.end_) <->
        ∃ x y, (((0 : BitVec 32) ≤ x ∧ x ≤ 0xffffffff) ∧
          ((0 : BitVec 32) ≤ y ∧ y ≤ 0xffffffff)) ∧ encode x y = code :=
  toIntervals_correct 0 0 0 0xffffffff 0xffffffff (by decide) (by decide)

/-! ## The lazy iterator -/

section
variable (ctzZero : Nat)

/-- What `Progress` does with a cell.  It returns when the pending interval is complete, and
an interval of the single code 0 passes for none. -/
def progressCell (curr : Interval) (yielded : List Interval) (box : Aabb) :
    Except String (Interval × List Interval) :=
  if curr = ⟨0, 0⟩ then do
    let cell <- toCell ctzZero box
    return (cell, yielded)
  else if curr.end_ + 1 = box.min then .ok (⟨curr.start, box.max⟩, yielded)
  else do
    let cell <- toCell ctzZero box
    return (cell, yielded ++ [curr])

/-- One pass of the loop of `Progress`, which cuts boxes as `ToIntervals` does. -/
def progressPass (box : Aabb) (inputs : List Aabb) (curr : Interval) (yielded : List Interval) :
    Except String (List Aabb × Interval × List Interval) := do
  if <- isMortonAligned ctzZero box then
    return (inputs, <- progressCell ctzZero curr yielded box)
  else
    let next <- toIntervalsPass ctzZero box inputs []
    return (next.1, curr, yielded)

/-- Calls of `++` one after the other, with the values of the iterator in between.  Without
a box `Progress` makes the pending interval the value and sets `is_finished_`, so that the
iterator equals `End()` and the value is not read. -/
def walkBody (state : List Aabb × Interval × List Interval) :
    LoopStep (List Aabb × Interval × List Interval) (Except String (List Interval)) :=
  match state.1 with
  | [] => .done (.ok state.2.2)
  | box :: inputs =>
    match progressPass ctzZero box inputs state.2.1 state.2.2 with
    | .error text => .done (.error text)
    | .ok next => .again next

/-- The values of an iterator from `Begin()` until it equals `End()`. -/
def walkIntervals (fuel : Nat) (box : Aabb) : Option (Except String (List Interval)) :=
  runLoop (walkBody ctzZero) fuel ([box], ⟨0, 0⟩, [])

end

/-- The eager list is ahead of the iterator by the pending interval. -/
def Pending (outputs : List Interval) (curr : Interval) (yielded : List Interval) : Prop :=
  outputs = [] ∧ curr = ⟨0, 0⟩ ∧ yielded = [] ∨ ∃ front last, outputs = front ++ [last] ∧
    last.end_ = curr.end_ ∧ yielded.length ≤ front.length

section
variable {ctzZero : Nat} {outputs next yielded intervals : List Interval} {curr : Interval}

theorem Pending.cell (pending : Pending outputs curr yielded) {box : Aabb}
    (aligned : isMortonAligned ctzZero box = .ok true)
    (emitted : emitCell ctzZero outputs box = .ok next) :
    ∃ later, progressCell ctzZero curr yielded box = .ok later ∧ Pending next later.1 later.2 := by
  unfold progressCell
  rw [emitCell, toCell_of_aligned aligned] at emitted
  rw [toCell_of_aligned aligned]
  rcases pending with ⟨rfl, rfl, rfl⟩ | ⟨front, last, rfl, ends, short⟩
  · cases emitted
    exact ⟨_, if_pos rfl, Or.inr ⟨[], _, rfl, rfl, le_refl _⟩⟩
  · simp only [getLast?_concat, dropLast_concat, ends] at emitted
    by_cases touches : curr.end_ + 1 = box.min
    · rw [if_pos touches] at emitted ⊢
      cases emitted
      split <;> exact ⟨_, rfl, Or.inr ⟨front, _, rfl, rfl, short⟩⟩
    · rw [if_neg touches] at emitted ⊢
      cases emitted
      split <;> refine ⟨_, rfl, Or.inr ⟨front ++ [last], _, rfl, rfl, ?_⟩⟩ <;> simp <;> omega

/-- Both loops take the same passes. -/
theorem Pending.run {fuel : Nat} (pending : Pending outputs curr yielded)
    (run : runLoop (toIntervalsBody ctzZero) fuel (inputs, outputs) = some (.ok intervals)) :
    ∃ walked, runLoop (walkBody ctzZero) fuel (inputs, curr, yielded) = some (.ok walked) ∧
      ∃ last, Pending intervals last walked := by
  induction fuel generalizing inputs outputs curr yielded with
  | zero => cases run
  | succ fuel ih =>
    rw [runLoop] at run ⊢
    cases inputs with
    | nil =>
      cases run
      exact ⟨yielded, rfl, curr, pending⟩
    | cons box inputs =>
      simp only [toIntervalsBody, walkBody] at run ⊢
      cases passed : toIntervalsPass ctzZero box inputs outputs with
      | error text =>
        rw [passed] at run
        cases run
      | ok state =>
        rw [passed] at run
        rcases bind_eq_ok.mp passed with ⟨aligned, test, rest⟩
        unfold progressPass
        rw [test]
        cases aligned with
        | true =>
          rcases bind_eq_ok.mp rest with ⟨_, emitted, same⟩
          cases same
          rcases pending.cell test emitted with ⟨_, progressed, still⟩
          simp only [bind, Except.bind, if_true, progressed]
          exact ih still run
        | false =>
          rcases assertThat_bind_eq_ok.mp rest with ⟨first, rest⟩
          rcases assertThat_bind_eq_ok.mp rest with ⟨second, same⟩
          cases same
          have cuts : toIntervalsPass ctzZero box inputs [] = .ok
              (⟨box.min, (mortonGetNextAddress box).1⟩ ::
                ⟨(mortonGetNextAddress box).2, box.max⟩ :: inputs, []) := by
            unfold toIntervalsPass
            rw [test]
            exact assertThat_bind_eq_ok.mpr ⟨first, assertThat_bind_eq_ok.mpr ⟨second, rfl⟩⟩
          simp only [bind, Except.bind, Bool.false_eq_true, if_false, cuts]
          exact ih pending run

/-- For every box the iterator equals `End()` before its last interval is read. -/
theorem walkIntervals_lt (ctzZero : Nat) (box : Box) (spare : Nat) : ∃ walked intervals,
    walkIntervals ctzZero (2 * box.extent + 2 + spare) box.aabb = some (.ok walked) ∧
      toIntervals ctzZero (2 * box.extent + 2 + spare) box.aabb = some (.ok intervals) ∧
      walked.length < intervals.length := by
  rcases toIntervals_box box with ⟨intervals, returns, _, covers⟩
  have returned := returns _ (Nat.le_add_right _ spare)
  have run := returned
  have ordered : box.aabb.max ≥ box.aabb.min := box.aabb_ordered
  rw [toIntervals, if_pos ordered] at run
  have start : Pending [] ⟨0, 0⟩ [] := Or.inl ⟨rfl, rfl, rfl⟩
  rcases start.run run with ⟨walked, walks, _, ⟨none, _⟩ | ⟨_, _, split, _, short⟩⟩
  · have corner : box.Contains box.aabb.min :=
      ⟨box.x1, box.y1, ⟨⟨BitVec.le_refl _, box.xOrdered⟩, BitVec.le_refl _, box.yOrdered⟩, rfl⟩
    rcases (covers _).mpr corner with ⟨_, member, _⟩
    rw [none] at member
    cases member
  · refine ⟨walked, intervals, walks, returned, ?_⟩
    rw [split, length_append]
    exact Nat.lt_succ_of_le short

end

/-- The last interval of a box, the only interval of a box, and the code 0. -/
theorem walkIntervals_misses :
    walkIntervals 0 20 ⟨encode 1 1, encode 2 2⟩ = some (.ok [⟨3, 3⟩, ⟨6, 6⟩, ⟨9, 9⟩]) ∧
    toIntervals 0 20 ⟨encode 1 1, encode 2 2⟩ = some (.ok [⟨3, 3⟩, ⟨6, 6⟩, ⟨9, 9⟩, ⟨12, 12⟩]) ∧
    walkIntervals 0 20 ⟨encode 1 1, encode 1 1⟩ = some (.ok []) ∧
    toIntervals 0 20 ⟨encode 1 1, encode 1 1⟩ = some (.ok [⟨3, 3⟩]) ∧
    walkIntervals 0 20 ⟨encode 0 0, encode 2 0⟩ = some (.ok [⟨1, 1⟩]) ∧
    toIntervals 0 20 ⟨encode 0 0, encode 2 0⟩ = some (.ok [⟨0, 1⟩, ⟨4, 4⟩]) := by
  decide +kernel

end Zorder
end Doux
