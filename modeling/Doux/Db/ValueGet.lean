import Doux.Table.SeekToNth
import Doux.Db.BuildTables

namespace Doux
namespace Db

open Foundation Util Table List

/-!
# Reading values back

The key table stores where a value is: the number of the value table, the block and
the place in the block.  This module is about the way back from such a place to the
value.
-/

/-- The comparator only puts vkeys in order, and then it is their order. -/
theorem exists_vkeys_of_vkeyLess {a b : Bytes} (less : vkeyLess a b = true) :
    ∃ first second : VKey, first.encode = a ∧ second.encode = b ∧ first < second := by
  have long : 16 ≤ a.length ∧ 16 ≤ b.length := by
    by_contra short
    unfold vkeyLess vkeyCompare at less
    rw [assertThat_of_not short] at less
    cases less
  rcases exists_vkey_encode long.1 with ⟨first, rfl⟩
  rcases exists_vkey_encode long.2 with ⟨second, rfl⟩
  exact ⟨first, second, rfl, rfl, (vkeyLess_encode first second).mp less⟩

theorem VKey.encode_injective : Function.Injective VKey.encode := by
  intro a b same
  have decoded := VKey.decode_encode a
  rw [same, VKey.decode_encode b] at decoded
  exact (Except.ok.inj decoded).symm

theorem vkeyLess_trans {a b c : Bytes} (first : vkeyLess a b = true)
    (second : vkeyLess b c = true) : vkeyLess a c = true := by
  rcases exists_vkeys_of_vkeyLess first with ⟨va, _, rfl, rfl, less⟩
  rcases exists_vkeys_of_vkeyLess second with ⟨_, vc, same, rfl, further⟩
  rw [VKey.encode_injective same] at further
  exact (vkeyLess_encode va vc).mpr (lt_trans less further)

theorem vkeyLess_irrefl (a : Bytes) : ¬ vkeyLess a a = true := by
  intro less
  rcases exists_vkeys_of_vkeyLess less with ⟨_, _, rfl, same, strict⟩
  exact ne_of_gt strict (VKey.encode_injective same)

theorem nodup_of_increasing {entries : List KeyValue}
    (increasing : entries.IsChain (fun a b => vkeyLess a.1 b.1 = true)) : entries.Nodup := by
  let Less (a b : KeyValue) : Prop := vkeyLess a.1 b.1 = true
  have : Trans Less Less Less := ⟨vkeyLess_trans⟩
  refine (isChain_iff_pairwise.mp increasing).imp ?_
  rintro a _ less rfl
  exact vkeyLess_irrefl _ less

/-- The sort key at the end of a vkey. -/
def sortKeyField (bytes : Bytes) : Nat := decodeFixed64 (bytes.drop (bytes.length - 8))

def vkSliceCompare (s1 s2 : Bytes) : Bool :=
  let r : Int := if sortKeyField s1 > sortKeyField s2 then -1
    else if sortKeyField s1 < sortKeyField s2 then 1 else 0
  if r = 0 then
    let r := sliceCompare (s1.take (s1.length - 16)) (s2.take (s2.length - 16))
    if r = 0 then
      let num1 := decodeFixed64 (s1.drop (s1.length - 16))
      let num2 := decodeFixed64 (s2.drop (s2.length - 16))
      decide ((if num1 > num2 then 1 else if num1 < num2 then -1 else r) > 0)
    else decide (r > 0)
  else decide (r > 0)

/-- The predicate has the order of the comparator for different sort keys, and the reverse
order for equal ones. -/
theorem vkSliceCompare_eq {a b : Bytes} {r : Int} (compared : vkeyCompare a b = .ok r) :
    vkSliceCompare a b =
      if sortKeyField a = sortKeyField b then decide (r > 0) else decide (r < 0) := by
  have result := (assertThat_bind_eq_ok.mp compared).2
  simp only [<- sortKeyField.eq_1, pure, Except.pure] at result
  unfold vkSliceCompare
  rcases lt_trichotomy (sortKeyField a) (sortKeyField b) with less | same | greater
  · simp [less, Nat.lt_asymm less] at result
    simp [less, Nat.lt_asymm less, ne_of_lt less, <- result]
  · simp only [same, lt_irrefl, if_true, if_false] at result ⊢
    split at result
    · next users =>
        cases result
        simp [users]
    · next users =>
        cases result
        simp [users]
  · simp [greater] at result
    simp [greater, (ne_of_lt greater).symm, <- result]

/-- On vkeys the comparator is a strict total order.  `VKSliceCompare` is true exactly when it
puts the first vkey before the second if the sort keys differ or the vkeys are the same. -/
theorem vkeyCompare_agrees_iff {a b c : Bytes} (first : 16 ≤ a.length) (second : 16 ≤ b.length)
    (third : 16 ≤ c.length) : ∃ ab ba bc ac,
      vkeyCompare a b = .ok ab ∧ vkeyCompare b a = .ok ba ∧ vkeyCompare b c = .ok bc ∧
      vkeyCompare a c = .ok ac ∧ (ab < 0 <-> ba > 0) ∧ (ab = 0 <-> a = b) ∧
      (ab < 0 -> bc < 0 -> ac < 0) ∧ ((vkSliceCompare a b = true <-> ab < 0) <->
        sortKeyField a ≠ sortKeyField b ∨ a = b) := by
  rcases exists_vkey_encode first with ⟨a, rfl⟩
  rcases exists_vkey_encode second with ⟨b, rfl⟩
  rcases exists_vkey_encode third with ⟨c, rfl⟩
  rcases VKey.vkeyCompare_encode a b with ⟨ab, isAB, signAB⟩
  rcases VKey.vkeyCompare_encode b a with ⟨ba, isBA, signBA⟩
  rcases VKey.vkeyCompare_encode b c with ⟨bc, isBC, signBC⟩
  rcases VKey.vkeyCompare_encode a c with ⟨ac, isAC, signAC⟩
  have equal : ab = 0 <-> a.encode = b.encode := signAB.eq.trans VKey.encode_injective.eq_iff.symm
  refine ⟨ab, ba, bc, ac, isAB, isBA, isBC, isAC, signAB.lt.trans signBA.gt.symm, equal, ?_, ?_⟩
  · rw [signAB.lt, signBC.lt, signAC.lt]
    exact lt_trans
  · rw [vkSliceCompare_eq isAB, <- equal]
    split
    · next same =>
        simp only [decide_eq_true_eq, same]
        omega
    · next differs => simp [differs]

/-- The sort key decides, against the order of the user keys. -/
theorem vkeyCompare_agrees_sortKeys : ∃ r,
    vkeyCompare (2 :: replicate 8 0 ++ replicate 8 1) (1 :: replicate 8 0 ++ replicate 8 2) =
        .ok r ∧ r < 0 ∧ vkSliceCompare (2 :: replicate 8 0 ++ replicate 8 1)
          (1 :: replicate 8 0 ++ replicate 8 2) = true := by
  rcases vkeyCompare_agrees_iff (a := 2 :: replicate 8 0 ++ replicate 8 1)
    (b := 1 :: replicate 8 0 ++ replicate 8 2) (c := replicate 16 0) (by decide) (by decide)
    (by decide) with ⟨r, _, _, _, isR, _, _, _, _, _, _, agrees⟩
  have before : vkSliceCompare (2 :: replicate 8 0 ++ replicate 8 1)
      (1 :: replicate 8 0 ++ replicate 8 2) = true := by decide
  exact ⟨r, isR, (agrees.mpr (Or.inl (by decide))).mp before, before⟩

/-- Two vkeys with the sort key 0: the predicate is true for the reverse order. -/
theorem vkSliceCompare_reverses :
    vkeyCompare (List.replicate 16 0) (List.replicate 17 0) = .ok (-1) ∧
      vkSliceCompare (List.replicate 16 0) (List.replicate 17 0) = false ∧
      vkSliceCompare (List.replicate 17 0) (List.replicate 16 0) = true := by
  decide +kernel

/-- A value table can be built from entries with increasing vkeys, and a lookup with the
noted place of an entry finds the entry exactly when it is the first one of its block,
or the last one of a block that has several restart points and enough bytes before the
second. -/
theorem internalVGet_vkey_iff (options : BlockOptions)
    (positive : 0 < options.blockRestartInterval) (entries : List KeyValue)
    (increasing : entries.IsChain (fun a b => vkeyLess a.1 b.1 = true)) :
    ∃ table, buildTable (keyValueFormat vkeyLess) options entries = .ok table ∧
      table.placed.map Placed.entry = entries ∧
      ∀ placed ∈ table.placed, ∃ block, table.blocks[placed.blockNumber]? = some block ∧
        (internalVGet table.blocks placed.blockNumber placed.blockOffset =
            .ok (some placed.entry) <->
          FindsPlace (keyValueFormat vkeyLess) options.blockRestartInterval block.entries
            placed.blockOffset) := by
  have ordered : entries.IsChain (fun first second =>
    (keyValueFormat vkeyLess).less first second = true) := increasing
  rcases buildTable_total options ordered with ⟨table, built⟩
  refine ⟨table, built, (buildTable_eq_ok built).placed, fun placed member => ?_⟩
  exact internalVGet_eq_iff positive built (nodup_of_increasing increasing) member

/-- Three values with increasing vkeys. -/
def threeValues : List KeyValue :=
  [((VKey.mk [107] 257 1).encode, [1]), ((VKey.mk [107] 257 2).encode, [2]),
    ((VKey.mk [107] 257 3).encode, [3])]

/-- The second value of a block: with a restart interval of 16 it is not reached at all,
and with an interval of 1 the third one is found in its place. -/
theorem internalVGet_second_value :
    (buildTable (keyValueFormat vkeyLess) ⟨4096, 16⟩ threeValues).toOption.map
        (fun table => table.placed.map (fun placed => (placed.blockNumber, placed.blockOffset))) =
      some [(0, 0), (0, 1), (0, 2)] ∧
    (do internalVGet (<- buildTable (keyValueFormat vkeyLess) ⟨4096, 16⟩ threeValues).blocks 0 1) =
      .error "index < num_restarts_" ∧
    (do internalVGet (<- buildTable (keyValueFormat vkeyLess) ⟨4096, 1⟩ threeValues).blocks 0 1) =
      .ok threeValues[2]? := by
  refine ⟨by decide +kernel, by rfl, by rfl⟩

theorem internalVGet_threeValues :
    ∃ table, buildTable (keyValueFormat vkeyLess) ⟨4096, 16⟩ threeValues = .ok table ∧
      table.placed.map Placed.entry = threeValues ∧
      ∀ placed ∈ table.placed, ∃ block, table.blocks[placed.blockNumber]? = some block ∧
        (internalVGet table.blocks placed.blockNumber placed.blockOffset =
            .ok (some placed.entry) <->
          FindsPlace (keyValueFormat vkeyLess) 16 block.entries placed.blockOffset) :=
  internalVGet_vkey_iff ⟨4096, 16⟩ (by decide) threeValues (by decide +kernel)

end Db
end Doux
