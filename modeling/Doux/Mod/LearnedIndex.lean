import Doux.Db.FileName
import Doux.Foundation.Iterator

namespace Doux
namespace Mod

open Foundation List

/-!
# The key range and the segments of a learned index

`Learn` reads the bounds of the keys with `atoll` and the keys it trains on with `stoull`.
`GetPosition` reads a key with `SliceToInteger` and tests it against the bounds.  The C
library stops `atoll` at `2 ^ 63 - 1`.

`PLR::train` of `mod/plr.cpp` gives the keys to `GreedyPLR`, a state machine that closes a
segment when a key does not fit.  The lines of the segments are left out.
-/

/-- The number at the start of a text without white space and sign. -/
def leadingNumber (text : List Char) : Nat :=
  Nat.ofDigitChars 10 (text.takeWhile Char.isDigit) 0

def atoll (text : List Char) : Nat := min (leadingNumber text) (2 ^ 63 - 1)

def stoull (text : List Char) : Except String Nat := do
  assertThat (text.takeWhile Char.isDigit ≠ []) "invalid_argument"
  assertThat (leadingNumber text < 2 ^ 64) "out_of_range"
  return leadingNumber text

/-- The loop of `SliceToInteger`, which wraps around. -/
def sliceToIntegerLoop (num : BitVec 64) (leadingZeros : Bool) : List Char -> BitVec 64
  | [] => num
  | temp :: rest =>
    if leadingZeros ∧ temp = '0' then sliceToIntegerLoop num leadingZeros rest
    else sliceToIntegerLoop (num <<< 3 + num <<< 1 + BitVec.ofNat 64 temp.toNat - 48#64) false rest

def sliceToInteger (slice : List Char) : Nat := (sliceToIntegerLoop 0#64 true slice).toNat

/-- What `Learn` sets, and the numbers it gives to the training. -/
structure LearnedIndexData where
  minKey : Nat
  maxKey : Nat
  size : Nat
  trained : List Nat

def learn (stringKeys : List (List Char)) : Except String LearnedIndexData :=
  match stringKeys.head?, stringKeys.getLast? with
  | some front, some back => do
    let trained <- stringKeys.mapM stoull
    return ⟨atoll front, atoll back, stringKeys.length, trained⟩
  | _, _ => .error "string_keys.empty()"

/-- The range test of `GetPosition`. -/
def LearnedIndexData.InRange (data : LearnedIndexData) (target : List Char) : Prop :=
  data.minKey ≤ sliceToInteger target ∧ sliceToInteger target ≤ data.maxKey

/-- A text of decimal digits whose number fits 64 bits. -/
structure IsDecimal (text : List Char) : Prop where
  nonempty : text ≠ []
  digits : ∀ ch ∈ text, ch.isDigit = true
  small : leadingNumber text < 2 ^ 64

variable {text : List Char}

theorem sliceToIntegerLoop_eq (digits : ∀ ch ∈ text, ch.isDigit = true) {leadingZeros : Bool}
    {value : Nat} (zero : leadingZeros = true -> value = 0) :
    sliceToIntegerLoop (BitVec.ofNat 64 value) leadingZeros text =
      BitVec.ofNat 64 (Nat.ofDigitChars 10 text value) := by
  induction text generalizing leadingZeros value with
  | nil => rfl
  | cons ch rest ih =>
    rcases forall_mem_cons.mp digits with ⟨digit, others⟩
    have bounds := Db.toNat_of_isDigit digit
    rw [sliceToIntegerLoop, Nat.ofDigitChars_cons]
    split
    · rename_i skipped
      rw [zero skipped.1, skipped.2]
      exact ih others (fun _ => rfl)
    · have step : BitVec.ofNat 64 value <<< 3 + BitVec.ofNat 64 value <<< 1 +
          BitVec.ofNat 64 ch.toNat - 48#64 =
          BitVec.ofNat 64 (10 * value + (ch.toNat - '0'.toNat)) := by
        apply BitVec.eq_of_toNat_eq
        simp [Nat.shiftLeft_eq]
        omega
      rw [step]
      exact ih others nofun

namespace IsDecimal

variable (decimal : IsDecimal text)
include decimal

theorem takeWhile_eq : text.takeWhile Char.isDigit = text :=
  takeWhile_eq_self_iff.mpr decimal.digits

theorem sliceToInteger_eq : sliceToInteger text = leadingNumber text := by
  have read := sliceToIntegerLoop_eq decimal.digits (fun _ : true = true => rfl)
  rw [sliceToInteger, read, BitVec.toNat_ofNat]
  have small := decimal.small
  rw [leadingNumber, decimal.takeWhile_eq] at small ⊢
  exact Nat.mod_eq_of_lt small

theorem stoull_eq : stoull text = .ok (leadingNumber text) := by
  rw [stoull, decimal.takeWhile_eq, assertThat_of decimal.nonempty, assertThat_of decimal.small]
  rfl

end IsDecimal

/-- `Learn` succeeds on increasing numbers.  All keys pass the range test and are read
alike by the three conversions exactly if the last key is below `2 ^ 63`. -/
theorem learn_conversions_agree_iff {keys : List (List Char)} {back : List Char}
    (decimal : ∀ key ∈ keys, IsDecimal key) (increasing : SortedBy leadingNumber keys)
    (last : keys.getLast? = some back) : ∃ data, learn keys = .ok data ∧
      ((∀ key ∈ keys, data.InRange key ∧ atoll key = sliceToInteger key ∧
        stoull key = .ok (sliceToInteger key)) <-> leadingNumber back < 2 ^ 63) := by
  have member := mem_of_getLast? last
  obtain ⟨front, first⟩ : ∃ front, keys.head? = some front :=
    Option.isSome_iff_exists.mp (isSome_head?.mpr (ne_nil_of_mem member))
  have least := (increasing.head?_eq_some.mp first).2
  have greatest := (increasing.getLast?_filter_eq_some (p := fun _ => true)).mp
    (by rw [filter_true]; exact last)
  have trained : keys.mapM stoull = .ok (keys.map leadingNumber) :=
    mapM_eq_ok_iff_forall₂.mpr (forall₂_map_right_iff.mpr
      (forall₂_same.mpr fun key here => (decimal key here).stoull_eq))
  refine ⟨⟨atoll front, atoll back, keys.length, keys.map leadingNumber⟩, ?_, ?_, ?_⟩
  · simp only [learn, first, last, trained]
    rfl
  · intro agree
    have same := (agree back member).2.1
    rw [(decimal back member).sliceToInteger_eq, atoll] at same
    omega
  · intro below key here
    have low := least key here
    have high := greatest.2.2 key here rfl
    rw [LearnedIndexData.InRange, (decimal key here).sliceToInteger_eq, (decimal key here).stoull_eq]
    simp only [atoll]
    exact ⟨⟨by omega, by omega⟩, by omega, trivial⟩

theorem learn_conversions_agree_twoKeys : ∃ data, learn ["7".toList, "0042".toList] = .ok data ∧
      ((∀ key ∈ ["7".toList, "0042".toList], data.InRange key ∧ atoll key = sliceToInteger key ∧
        stoull key = .ok (sliceToInteger key)) <-> leadingNumber "0042".toList < 2 ^ 63) :=
  learn_conversions_agree_iff (forall_mem_cons.mpr ⟨⟨by decide, all_eq_true.mp rfl, by decide +kernel⟩,
    forall_mem_singleton.mpr ⟨by decide, all_eq_true.mp rfl, by decide +kernel⟩⟩)
    (pairwise_pair.mpr (by decide +kernel)) rfl

/-- A key of `2 ^ 63` is above the bound that is read from it. -/
theorem learn_largeKey_notInRange : ∃ data, learn ["9223372036854775808".toList] = .ok data ∧
    ¬ data.InRange "9223372036854775808".toList := by
  refine ⟨_, rfl, fun inRange => absurd inRange.2 ?_⟩
  decide +kernel

/-- The ends of a segment. -/
structure Segment where
  x : Nat
  x2 : Nat

inductive PlrState where
  | need2
  | need1
  | ready

/-- `GreedyPLR` of `mod/plr.cpp` without its lines. -/
structure GreedyPLR where
  state : PlrState
  s0 : Nat
  lastPt : Nat

namespace GreedyPLR

variable (plr : GreedyPLR)

def currentSegment : Segment := ⟨plr.s0, plr.lastPt⟩

/-- `fits` is the answer of the slope tests.  The segment of zeros is left out. -/
def process (pt : Nat) (fits : Bool) : Option Segment × GreedyPLR :=
  let plr := { plr with lastPt := pt }
  match plr.state with
  | .need2 => (none, { plr with s0 := pt, state := .need1 })
  | .need1 => (none, { plr with state := .ready })
  | .ready =>
    if fits then (none, plr)
    else (some plr.currentSegment, { plr with s0 := pt, state := .need1 })

def finish : Option Segment :=
  match plr.state with
  | .need2 => none
  | .need1 | .ready => some plr.currentSegment

variable (round : Nat -> Nat)

/-- The loop of `PLR::train` and what follows it.  The keys are rounded to `double`. -/
def processAll (plr : GreedyPLR) : List (Nat × Bool) -> List Segment
  | [] => plr.finish.toList
  | (key, fits) :: keys =>
    let (segment, plr) := plr.process (round key) fits
    segment.toList ++ processAll plr keys

theorem processAll_head {plr : GreedyPLR} (started : plr.state ≠ .need2)
    (keys : List (Nat × Bool)) :
    ∃ x2 segments, plr.processAll round keys = ⟨plr.s0, x2⟩ :: segments := by
  induction keys generalizing plr with
  | nil =>
    rcases plr with ⟨_ | _ | _, _, _⟩
    · exact absurd rfl started
    all_goals exact ⟨_, _, rfl⟩
  | cons key keys ih =>
    rcases plr with ⟨_ | _ | _, _, _⟩
    · exact absurd rfl started
    · exact ih nofun
    · rcases key with ⟨_, _ | _⟩
      · exact ⟨_, _, rfl⟩
      · exact ih nofun

/-- A segment that is closed before the end gets the first key of the next one as its end. -/
theorem processAll_ready (s0 : Nat) (last : Nat × Bool) (keys : List (Nat × Bool)) :
    ((∀ key ∈ keys, key.2 = true) ∧ ∃ key, (last :: keys).getLast? = some key ∧
        processAll round ⟨.ready, s0, round last.1⟩ keys = [⟨s0, round key.1⟩]) ∨
      ¬ (∀ key ∈ keys, key.2 = true) ∧ ∃ pt x2 segments,
        processAll round ⟨.ready, s0, round last.1⟩ keys = ⟨s0, pt⟩ :: ⟨pt, x2⟩ :: segments := by
  induction keys generalizing last with
  | nil => exact Or.inl ⟨nofun, last, rfl, rfl⟩
  | cons key keys ih =>
    rcases key with ⟨key, _ | _⟩
    · have started : (⟨.need1, round key, round key⟩ : GreedyPLR).state ≠ .need2 := nofun
      rcases processAll_head round started keys with ⟨x2, segments, next⟩
      exact Or.inr ⟨by simp, round key, x2, segments, congrArg (cons _) next⟩
    · rw [forall_mem_cons, getLast?_cons_cons, and_iff_right rfl]
      exact ih (key, true)

end GreedyPLR

/-- A compaction that waits when some ten keys more are done ends the training for a level. -/
abbrev Ended (file : Bool) (awaiting : Nat -> Bool) (size : Nat) : Prop :=
  ∃ count ∈ range' 1 size, file = false ∧ count % 10 = 0 ∧ awaiting count = true

/-- `PLR::train` on keys with the answers of their slope tests. -/
def train (round : Nat -> Nat) (file : Bool) (awaiting : Nat -> Bool) (keys : List (Nat × Bool)) :
    List Segment :=
  if Ended file awaiting keys.length then [] else GreedyPLR.processAll round ⟨.need2, 0, 0⟩ keys

/-- Each segment has the first and the last key of its part of the keys as its ends. -/
def Partitioned : List Nat -> List Segment -> Prop
  | keys, [] => keys = []
  | keys, segment :: segments => ∃ part rest, keys = part ++ rest ∧
      part.head? = some segment.x ∧ part.getLast? = some segment.x2 ∧ Partitioned rest segments

theorem partitioned_singleton {keys : List Nat} {segment : Segment} : Partitioned keys [segment] <->
    keys.head? = some segment.x ∧ keys.getLast? = some segment.x2 := by
  simp [Partitioned]

theorem not_partitioned {keys : List Nat} {x pt x2 : Nat} {segments : List Segment}
    (increasing : keys.Pairwise (· < ·)) :
    ¬ Partitioned keys (⟨x, pt⟩ :: ⟨pt, x2⟩ :: segments) := by
  rintro ⟨_, _, rfl, _, last, next, _, rfl, first, _⟩
  exact lt_irrefl pt ((pairwise_append.mp increasing).2.2 pt (mem_of_getLast? last) pt
    (mem_append_left _ (mem_of_head? first)))

/-- The segments are a partition exactly if the training goes on to the end without closing
one, and rounding keeps the first and the last key. -/
theorem train_partitioned_iff (round : Nat -> Nat) (file : Bool) (awaiting : Nat -> Bool)
    {keys : List (Nat × Bool)} (increasing : (keys.map Prod.fst).Pairwise (· < ·)) :
    Partitioned (keys.map Prod.fst) (train round file awaiting keys) <->
      ¬ Ended file awaiting keys.length ∧ (∀ key ∈ keys.drop 2, key.2 = true) ∧
        ∀ key ∈ keys.head?.toList ++ keys.getLast?.toList, key.1 = round key.1 := by
  unfold train
  split
  · next ended =>
    refine iff_of_false (fun none => ?_) (fun fine => fine.1 ended)
    rw [map_eq_nil_iff.mp none] at ended
    rcases ended with ⟨_, ⟨⟩, _⟩
  · next goesOn =>
    rw [and_iff_right goesOn]
    rcases keys with _ | ⟨⟨first, _⟩, _ | ⟨second, keys⟩⟩
    · exact iff_of_true rfl ⟨nofun, nofun⟩
    · change Partitioned [first] [⟨round first, round first⟩] <-> _
      simp [partitioned_singleton]
    · rcases GreedyPLR.processAll_ready round (round first) second keys with
        ⟨fit, key, isLast, one⟩ | ⟨closed, _, _, _, several⟩
      · change Partitioned _ (GreedyPLR.processAll round ⟨.ready, _, _⟩ keys) <->
          (∀ key ∈ keys, _) ∧ _
        rw [and_iff_right fit, one, partitioned_singleton, getLast?_map, getLast?_cons_cons, isLast]
        simp
      · refine iff_of_false (fun partitioned => ?_) (fun fine => closed fine.1)
        exact not_partitioned increasing (several ▸ partitioned)

theorem train_threeKeys : Partitioned ([(1, true), (2, true), (9, true)].map Prod.fst)
    (train id true (fun _ => false) [(1, true), (2, true), (9, true)]) :=
  (train_partitioned_iff id true _ (by decide)).mpr ⟨by decide, by decide, fun _ _ => rfl⟩

/-- The third key does not fit.  It is the end of the first segment. -/
theorem train_closesSegment :
    train id true (fun _ => false) [(1, true), (2, true), (9, false)] = [⟨1, 9⟩, ⟨9, 9⟩] ∧
      ¬ Partitioned [1, 2, 9] [⟨1, 9⟩, ⟨9, 9⟩] :=
  ⟨rfl, not_partitioned (by decide)⟩

end Mod
end Doux
