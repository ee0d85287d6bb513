import Doux.Foundation.SortedBy
import Doux.Table.TableBuilder
import Doux.Db.Format

namespace Doux
namespace Db

open Foundation Util Table List

/-!
# The two tables of a flush

`BuildDuTable` writes a memtable to two tables.  The value table has the values under
longer keys, in an order of its own; the key table has the internal keys, and for each
of them a pointer into the value table.

With `MOD` 10 the longer key is the internal key followed by the first eight bytes of
the value.  With `MOD` 9 and 13 nothing is appended.  The key table is made from the
same keys in all three modes, by removing their last eight bytes.  With `MOD` 10 this
gives the internal key back; in the other modes it removes the tag, and what remains
is the user key alone.
-/

/-- A key and its value, as byte strings. -/
abbrev KeyValue := Bytes × Bytes

/-- A place in a value table, as the key table stores it. -/
structure ValuePointer where
  fileNumber : Nat
  blockNumber : Nat
  blockOffset : Nat
deriving DecidableEq

/-- Three fixed 32-bit integers. -/
def ValuePointer.encode (pointer : ValuePointer) : Bytes :=
  encodeFixed32 pointer.fileNumber ++
    (encodeFixed32 pointer.blockNumber ++ encodeFixed32 pointer.blockOffset)

/-- Read the first three 32-bit integers of a value. -/
def ValuePointer.decode (value : Bytes) : ValuePointer :=
  ⟨decodeFixed32 value, decodeFixed32 (value.drop 4), decodeFixed32 (value.drop 8)⟩

/-- Reading a pointer back gives its fields as 32-bit integers. -/
theorem ValuePointer.decode_encode (pointer : ValuePointer) :
    decode pointer.encode = ⟨pointer.fileNumber % 2 ^ 32, pointer.blockNumber % 2 ^ 32,
      pointer.blockOffset % 2 ^ 32⟩ := by
  have field (number : Nat) (rest : Bytes) :
      decodeFixed32 (encodeFixed32 number ++ rest) = number % 2 ^ 32 :=
    ofLittleEndian_take 4 number rest
  have length (number : Nat) : (encodeFixed32 number).length = 4 := by
    simp [encodeFixed32]
  have last := field pointer.blockOffset []
  rw [append_nil] at last
  have second : pointer.encode.drop 4 =
      encodeFixed32 pointer.blockNumber ++ encodeFixed32 pointer.blockOffset :=
    drop_left' (length _)
  have third : pointer.encode.drop 8 = encodeFixed32 pointer.blockOffset := by
    rw [show 8 = 4 + 4 from rfl, <- drop_drop]
    exact drop_left' (length _)
  unfold decode
  rw [second, third, encode, field, field, last]

/-- `VKeyComparator` puts the first key before the second. -/
def vkeyLess (a b : Bytes) : Bool :=
  match vkeyCompare a b with
  | .ok r => decide (r < 0)
  | .error _ => false

/-- `KCompare`: the user keys as byte strings, then the larger tag. -/
def kCompare (s1 s2 : Bytes) : Bool :=
  let r := sliceCompare (s1.take (s1.length - 16)) (s2.take (s2.length - 16))
  if r = 0 then
    decide (decodeFixed64 (s1.drop (s1.length - 16)) > decodeFixed64 (s2.drop (s2.length - 16)))
  else decide (r < 0)

def removeSuffix (key : Bytes) : Bytes := key.take (key.length - 8)

/-- The format of a table of byte strings. -/
def keyValueFormat (less : Bytes -> Bytes -> Bool) : Format KeyValue :=
  ⟨fun entry => entry.1.length, fun entry => entry.2.length,
    fun first second => less first.1 second.1⟩

/-- The smallest and the largest key in the metadata of a table. -/
structure TableEnds where
  smallest : Bytes
  largest : Bytes
deriving DecidableEq

/-- The key under which a value is written.  `ConstructVKey` copies eight bytes from
the address of the value, which may be shorter; `beyond` is what stands behind it in
memory. -/
def tmpKey (mod : Nat) (beyond : KeyValue -> BitVec 64) (entry : KeyValue) : Bytes :=
  if mod = 10 then entry.1 ++ (entry.2 ++ encodeFixed64 (beyond entry).toNat).take 8 else entry.1

def SortsValues (mod : Nat) : Prop := mod = 10 ∨ mod = 13

instance (mod : Nat) : Decidable (SortsValues mod) := inferInstanceAs (Decidable (_ ∨ _))

/-- The entries of the value table in the order in which they are written.  The
comparator aborts on keys that are too short. -/
def sortValues (mod : Nat) (kvs : List KeyValue) : Except String (List KeyValue) :=
  if SortsValues mod then do
    assertThat (∀ kv ∈ kvs, 16 ≤ kv.1.length) "size_1 >= 16 && size_2 >= 16"
    return kvs.insertionSort (fun a b => vkeyLess b.1 a.1 = false)
  else .ok kvs

/-- The entries of the key table in the order in which they are written. -/
def sortKeys (mod : Nat) (kvs : List KeyValue) : List KeyValue :=
  if SortsValues mod then kvs.insertionSort (fun a b => kCompare b.1 a.1 = false) else kvs

/-- The ends of a table: the first and the last key in the modes that sort, and the
extremes of the raw byte order otherwise. -/
def tableEnds (mod : Nat) : List Bytes -> Except String TableEnds
  | [] => .error "kvs[0]"
  | first :: rest =>
    if SortsValues mod then .ok ⟨first, rest.getLastD first⟩
    else .ok ⟨rest.foldl (fun least key => if sliceCompare key least < 0 then key else least) first,
      rest.foldl (fun most key => if sliceCompare key most > 0 then key else most) first⟩

/-- What `BuildDuTable` writes: the blocks of both tables and their metadata. -/
structure DuTables where
  vblocks : List (Block KeyValue)
  vends : TableEnds
  kblocks : List (Block KeyValue)
  kends : TableEnds

/-- In the modes that sort, the metadata has the first and the last key. -/
theorem tableEnds_eq_ok {rows : List KeyValue} {ends : TableEnds}
    (found : tableEnds 10 (rows.map Prod.fst) = .ok ends) :
    rows.head?.map Prod.fst = some ends.smallest ∧
      rows.getLast?.map Prod.fst = some ends.largest := by
  cases rows with
  | nil => cases found
  | cons first rest =>
    cases found
    refine ⟨rfl, ?_⟩
    rw [getLast?_cons, Option.map_some, getLastD_eq_getLast?, getLast?_map, Option.getD_map]

section
variable [LinearOrder UserKey]

/-- `InternalKeyComparator` puts the first key before the second. -/
def internalLess (a b : Bytes) : Bool := decide (internalKeyCompare a b < 0)

/-- The comparator of the value table. -/
def valueLess (mod : Nat) : Bytes -> Bytes -> Bool :=
  if SortsValues mod then vkeyLess else internalLess

/-- The entry of the key table for a placed value, before its suffix is removed. -/
def pointerEntry (number : Nat) (placed : Placed KeyValue) : KeyValue :=
  (placed.entry.1, (ValuePointer.mk number placed.blockNumber placed.blockOffset).encode)

/-- `BuildDuTable` on the entries of a memtable. -/
def buildDuTable (mod : Nat) (options : BlockOptions) (beyond : KeyValue -> BitVec 64)
    (number : Nat)
    (entries : List KeyValue) : Except String DuTables := do
  let kvs <- sortValues mod (entries.map (fun entry => (tmpKey mod beyond entry, entry.2)))
  let vends <- tableEnds mod (kvs.map Prod.fst)
  let vtable <- buildTable (keyValueFormat (valueLess mod)) options kvs
  let keyed := sortKeys mod (vtable.placed.map (pointerEntry number))
  let kends <- tableEnds mod (keyed.map Prod.fst)
  let ktable <- buildTable (keyValueFormat internalLess) options
    (keyed.map (fun entry => (removeSuffix entry.1, entry.2)))
  return ⟨vtable.blocks, vends, ktable.blocks,
    ⟨removeSuffix kends.smallest, removeSuffix kends.largest⟩⟩

/-- The entry of a memtable as byte strings. -/
def Entry.bytes (entry : Entry) : KeyValue := (entry.key.encode, entry.value)

def vkeyOf (beyond : KeyValue -> BitVec 64) (entry : Entry) : VKey :=
  ⟨entry.key.userKey.bytes, entry.key.tag, BitVec.ofNat 64
    (decodeFixed64 (entry.value ++ encodeFixed64 (beyond entry.bytes).toNat))⟩

section
omit [LinearOrder UserKey]

variable (beyond : KeyValue -> BitVec 64)

theorem tmpKey_eq_encode (entry : Entry) :
    tmpKey 10 beyond entry.bytes = (vkeyOf beyond entry).encode := by
  have long : 8 ≤ (entry.value ++ encodeFixed64 (beyond entry.bytes).toNat).length := by
    simp [encodeFixed64]
  have sortKey := encodeFixed64_decodeFixed64 long
  simp only [tmpKey, if_true, Entry.bytes, InternalKey.encode, VKey.encode, vkeyOf,
    append_assoc] at sortKey ⊢
  rw [sortKey]

/-- For a value of at least eight bytes the vkey ends with its first eight bytes. -/
theorem encode_vkeyOf {entry : Entry} (long : 8 ≤ entry.value.length) :
    (vkeyOf beyond entry).encode = entry.key.encode ++ entry.value.take 8 := by
  rw [<- tmpKey_eq_encode, tmpKey, if_pos rfl]
  simp [Entry.bytes, take_append_of_le_length long]

/-- Without its last eight bytes the vkey is the internal key. -/
theorem removeSuffix_encode (entry : Entry) :
    removeSuffix (vkeyOf beyond entry).encode = entry.key.encode := by
  have length : (vkeyOf beyond entry).encode.length - 8 = entry.key.encode.length := by
    rw [VKey.length_encode, InternalKey.length_encode]
    rfl
  rw [removeSuffix, length, VKey.encode, <- append_assoc]
  exact take_left

theorem vkeyLess_encode (a b : VKey) : vkeyLess a.encode b.encode = true <-> a < b := by
  rcases VKey.vkeyCompare_encode a b with ⟨_, compared, less, _⟩
  rw [vkeyLess, compared]
  exact decide_eq_true_iff.trans less

end

theorem internalLess_encode (a b : InternalKey) : internalLess a.encode b.encode = true <-> a < b :=
  decide_eq_true_iff.trans (internalKeyCompare_encode a b).1

/-- What `KCompare` looks at, in the order in which it does. -/
def kRank (key : InternalKey) : Bytes ×ₗ Natᵒᵈ :=
  toLex (key.userKey.bytes, OrderDual.toDual key.tag.toNat)

omit [LinearOrder UserKey] in
theorem kCompare_encode (beyond : KeyValue -> BitVec 64) (a b : Entry) :
    kCompare (vkeyOf beyond a).encode (vkeyOf beyond b).encode = true <->
      kRank a.key < kRank b.key := by
  rcases sliceCompare_spec a.key.userKey.bytes b.key.userKey.bytes with ⟨less, equal⟩
  rw [kCompare, VKey.take_encode, VKey.take_encode, VKey.decode_tag, VKey.decode_tag, kRank, kRank,
    Prod.Lex.toLex_lt_toLex, OrderDual.toDual_lt_toDual]
  change (if sliceCompare a.key.userKey.bytes b.key.userKey.bytes = 0 then
    decide (a.key.tag.toNat > b.key.tag.toNat)
    else decide (sliceCompare a.key.userKey.bytes b.key.userKey.bytes < 0)) = true <-> _
  by_cases same : sliceCompare a.key.userKey.bytes b.key.userKey.bytes = 0
  · rw [if_pos same, decide_eq_true_eq, equal.mp same]
    simp
  · have differs : ¬ a.key.userKey.bytes = b.key.userKey.bytes := fun h => same (equal.mpr h)
    rw [if_neg same, decide_eq_true_eq, less]
    simp [differs]

/-- The entry of the value table for an entry of the memtable. -/
def valueRow (beyond : KeyValue -> BitVec 64) (entry : Entry) : KeyValue :=
  ((vkeyOf beyond entry).encode, entry.value)

/-- The two tables for the entries of a memtable: `sorted` has them in the order of
their vkeys, `rows` in their own order with the places of the values. -/
structure DuTables.Holds (beyond : KeyValue -> BitVec 64) (number : Nat) (entries : List Entry)
    (tables : DuTables) (sorted : List Entry) (rows : List (Entry × ValuePointer)) : Prop where
  perm : sorted.Perm entries
  increasing : sorted.Pairwise (fun a b => vkeyOf beyond a < vkeyOf beyond b)
  values : tableEntries tables.vblocks = sorted.map (valueRow beyond)
  vproper : ∀ block ∈ tables.vblocks, block.Proper
  vends : tableEnds 10 ((sorted.map (valueRow beyond)).map Prod.fst) = .ok tables.vends
  entries : rows.map Prod.fst = entries
  keys : tableEntries tables.kblocks = rows.map (fun row => (row.1.key.encode, row.2.encode))
  located : ∀ row ∈ rows, row.2.fileNumber = number ∧
    entryAt tables.vblocks row.2.blockNumber row.2.blockOffset = some (valueRow beyond row.1)
  kends : tableEnds 10 (rows.map (fun row => row.1.key.encode)) = .ok tables.kends

section
omit [LinearOrder UserKey]

theorem sortsValues_ten : SortsValues 10 := Or.inl rfl

variable (beyond : KeyValue -> BitVec 64)

theorem sortValues_bytes (entries : List Entry) :
    sortValues 10 ((entries.map Entry.bytes).map (fun entry => (tmpKey 10 beyond entry, entry.2))) =
      .ok ((entries.insertionSort (fun a b => vkeyOf beyond a ≤ vkeyOf beyond b)).map
        (valueRow beyond)) := by
  have rows : (entries.map Entry.bytes).map (fun entry => (tmpKey 10 beyond entry, entry.2)) =
      entries.map (valueRow beyond) := by
    rw [map_map]
    exact map_congr_left (fun entry _ => Prod.ext (tmpKey_eq_encode beyond entry) rfl)
  have long : ∀ kv ∈ entries.map (valueRow beyond), 16 ≤ kv.1.length := by
    intro _ member
    rcases mem_map.mp member with ⟨entry, _, rfl⟩
    have length := (vkeyOf beyond entry).length_encode
    simp only [valueRow]
    omega
  rw [rows, sortValues, assertThat_of long]
  refine congrArg Except.ok (map_insertionSort _ _ _ _ fun a _ b _ => ?_).symm
  have less := vkeyLess_encode (vkeyOf beyond b) (vkeyOf beyond a)
  simp [valueRow, <- not_lt, <- less]

theorem sortKeys_rows (rows : List (Entry × ValuePointer)) :
    sortKeys 10 (rows.map (fun row => ((vkeyOf beyond row.1).encode, row.2.encode))) =
      (rows.insertionSort (fun a b => kRank a.1.key ≤ kRank b.1.key)).map
        (fun row => ((vkeyOf beyond row.1).encode, row.2.encode)) := by
  refine (map_insertionSort _ _ _ _ fun a _ b _ => ?_).symm
  have less := kCompare_encode beyond b.1 a.1
  simp [<- not_lt, <- less]

/-- The places of the values, paired with the entries they belong to. -/
theorem exists_rows (number : Nat) {sorted : List Entry} {placed : List (Placed KeyValue)}
    (same : placed.map Placed.entry = sorted.map (valueRow beyond)) :
    ∃ rows : List (Entry × ValuePointer), rows.map Prod.fst = sorted ∧
      placed.map (pointerEntry number) =
        rows.map (fun row => ((vkeyOf beyond row.1).encode, row.2.encode)) ∧
      ∀ row ∈ rows, row.2.fileNumber = number ∧ ∃ place ∈ placed,
        place.entry = valueRow beyond row.1 ∧ place.blockNumber = row.2.blockNumber ∧
        place.blockOffset = row.2.blockOffset := by
  induction sorted generalizing placed with
  | nil =>
    rw [map_nil, map_eq_nil_iff] at same
    subst same
    exact ⟨[], rfl, rfl, nofun⟩
  | cons entry sorted ih =>
    cases placed with
    | nil => cases same
    | cons place placed =>
      rcases cons.inj same with ⟨here, later⟩
      rcases ih later with ⟨rows, firsts, entries, places⟩
      refine ⟨(entry, ⟨number, place.blockNumber, place.blockOffset⟩) :: rows,
        congrArg (entry :: ·) firsts, ?_, ?_⟩
      · rw [map_cons, entries, pointerEntry, here]
        rfl
      · rintro row member
        rcases mem_cons.mp member with rfl | inRows
        · exact ⟨rfl, place, mem_cons_self, here, rfl, rfl⟩
        · rcases places row inRows with ⟨file, other, inPlaced, properties⟩
          exact ⟨file, other, mem_cons_of_mem _ inPlaced, properties⟩

theorem tableEnds_map {keys : List Bytes} {ends : TableEnds} (f : Bytes -> Bytes)
    (found : tableEnds 10 keys = .ok ends) :
    tableEnds 10 (keys.map f) = .ok ⟨f ends.smallest, f ends.largest⟩ := by
  cases keys with
  | nil => cases found
  | cons first rest =>
    cases found
    rw [map_cons, tableEnds, if_pos sortsValues_ten]
    have last : (rest.map f).getLastD (f first) = f (rest.getLastD first) := by
      rw [getLastD_eq_getLast?, getLastD_eq_getLast?, getLast?_map, Option.getD_map]
    rw [last]

theorem tableEnds_total (keys : List Bytes) (nonempty : keys ≠ []) :
    ∃ ends, tableEnds 10 keys = .ok ends := by
  cases keys with
  | nil => exact absurd rfl nonempty
  | cons first rest => exact ⟨_, by rw [tableEnds, if_pos sortsValues_ten]⟩

end

section Memtable
variable {beyond : KeyValue -> BitVec 64} {entries : List Entry} (ordered : InKeyOrder entries)
include ordered

variable (beyond) in
/-- Different entries have different vkeys, so the order of the value table is strict. -/
theorem increasing_insertionSort :
    (entries.insertionSort (fun a b => vkeyOf beyond a ≤ vkeyOf beyond b)).Pairwise
      (fun a b => vkeyOf beyond a < vkeyOf beyond b) := by
  have distinct : entries.Pairwise (fun a b => vkeyOf beyond a ≠ vkeyOf beyond b) := by
    refine ordered.imp fun {a b} less same => ?_
    have users := congrArg VKey.userKey same
    have tags := congrArg VKey.tag same
    have keys : a.key = b.key :=
      InternalKey.ext (congrArg UserKey.mk users) tags
    exact absurd keys (ne_of_lt less)
  exact sortedBy_insertionSort distinct

theorem rows_eq_entries {rows : List (Entry × ValuePointer)}
    (perm : (rows.map Prod.fst).Perm entries)
    (increasing : InKeyOrder (rows.map Prod.fst)) :
    rows.map Prod.fst = entries :=
  perm.eq_of_pairwise (fun _ _ _ _ less greater => absurd greater (lt_asymm less))
    increasing ordered

theorem buildDuTable_holds {options : BlockOptions} {number : Nat} {tables : DuTables}
    (built : buildDuTable 10 options beyond number (entries.map Entry.bytes) = .ok tables) :
    ∃ sorted rows, tables.Holds beyond number entries sorted rows := by
  rcases bind_eq_ok.mp built with ⟨_, sortedValues, built⟩
  rw [sortValues_bytes] at sortedValues
  cases sortedValues
  rcases bind_eq_ok.mp built with ⟨_, endsFound, built⟩
  rcases bind_eq_ok.mp built with ⟨_, valuesBuilt, built⟩
  have values := buildTable_eq_ok valuesBuilt
  rcases exists_rows beyond number values.placed with ⟨listed, firsts, pointers, places⟩
  rw [pointers, sortKeys_rows] at built
  rcases bind_eq_ok.mp built with ⟨_, keyEndsFound, built⟩
  rcases bind_eq_ok.mp built with ⟨_, keysBuilt, equal⟩
  cases equal
  have keys := buildTable_eq_ok keysBuilt
  generalize rowsEq : listed.insertionSort (fun a b => kRank a.1.key ≤ kRank b.1.key) = rows
    at keyEndsFound keys
  have rowsPerm : rows.Perm listed := rowsEq ▸ perm_insertionSort _ listed
  have stripped : (rows.map (fun row => ((vkeyOf beyond row.1).encode, row.2.encode))).map
      (fun entry => (removeSuffix entry.1, entry.2)) =
        rows.map (fun row => (row.1.key.encode, row.2.encode)) := by
    rw [map_map]
    exact map_congr_left (fun row _ => Prod.ext (removeSuffix_encode beyond row.1) rfl)
  have chain := keys.ordered
  have keyEntries := keys.entries
  rw [stripped] at chain keyEntries
  have increasing : InKeyOrder (rows.map Prod.fst) := by
    rw [InKeyOrder, pairwise_map, <- isChain_iff_pairwise]
    rw [isChain_map] at chain
    exact chain.imp fun a b less => (internalLess_encode a.1.key b.1.key).mp less
  have perm : (rows.map Prod.fst).Perm entries :=
    (firsts ▸ rowsPerm.map Prod.fst).trans (perm_insertionSort _ entries)
  have keyEnds := tableEnds_map removeSuffix keyEndsFound
  rw [map_map, map_map] at keyEnds
  have keyList : rows.map ((removeSuffix ∘ Prod.fst) ∘
      fun row => ((vkeyOf beyond row.1).encode, row.2.encode)) =
        rows.map (fun row => row.1.key.encode) :=
    map_congr_left (fun row _ => removeSuffix_encode beyond row.1)
  rw [keyList] at keyEnds
  refine ⟨_, rows, perm_insertionSort _ entries, increasing_insertionSort _ ordered, values.entries,
    values.proper, endsFound, rows_eq_entries ordered perm increasing, keyEntries, ?_, keyEnds⟩
  intro row member
  rcases places row (rowsPerm.mem_iff.mp member) with
    ⟨file, place, inPlaced, isEntry, block, offset⟩
  refine ⟨file, ?_⟩
  rw [<- block, <- offset, <- isEntry]
  exact values.located place inPlaced

/-- With a user comparator that compares bytes, `BuildDuTable` succeeds: both sorts
put the entries in the order that the builders expect. -/
theorem buildDuTable_total (bytewise : ∀ a b : UserKey, a < b <-> a.bytes < b.bytes)
    (nonempty : entries ≠ []) (options : BlockOptions) (number : Nat) : ∃ tables,
      buildDuTable 10 options beyond number (entries.map Entry.bytes) = .ok tables := by
  have increasing := increasing_insertionSort beyond ordered
  have sortedPerm := perm_insertionSort (fun a b => vkeyOf beyond a ≤ vkeyOf beyond b) entries
  have sorted := sortValues_bytes beyond entries
  generalize entries.insertionSort (fun a b => vkeyOf beyond a ≤ vkeyOf beyond b) = values
    at increasing sortedPerm sorted
  have someValue : values ≠ [] := fun none =>
    nonempty (perm_nil.mp (none ▸ sortedPerm.symm))
  rcases tableEnds_total ((values.map (valueRow beyond)).map Prod.fst)
    (by simpa using someValue) with ⟨vends, vendsFound⟩
  have valueChain : (values.map (valueRow beyond)).IsChain (fun first second =>
      (keyValueFormat (valueLess 10)).less first second = true) := by
    rw [isChain_map]
    refine (isChain_iff_pairwise.mpr increasing).imp fun a b less => ?_
    exact (vkeyLess_encode _ _).mpr less
  rcases buildTable_total options valueChain with ⟨vtable, valuesBuilt⟩
  have placed := (buildTable_eq_ok valuesBuilt).placed
  rcases exists_rows beyond number placed with ⟨listed, firsts, pointers, _⟩
  have rowsPerm := perm_insertionSort
    (fun a b : Entry × ValuePointer => kRank a.1.key ≤ kRank b.1.key) listed
  have rowsOrder := pairwise_insertionSort
    (fun a b : Entry × ValuePointer => kRank a.1.key ≤ kRank b.1.key) listed
  have keyed := sortKeys_rows beyond listed
  generalize listed.insertionSort
    (fun a b : Entry × ValuePointer => kRank a.1.key ≤ kRank b.1.key) = rows
      at rowsPerm rowsOrder keyed
  have perm : (rows.map Prod.fst).Perm entries := (firsts ▸ rowsPerm.map Prod.fst).trans sortedPerm
  have someRow : rows ≠ [] := by
    rintro rfl
    exact nonempty (nil_perm.mp perm)
  rcases tableEnds_total
    ((rows.map (fun row => ((vkeyOf beyond row.1).encode, row.2.encode))).map Prod.fst)
    (by simpa using someRow) with ⟨kends, kendsFound⟩
  have distinct : rows.Pairwise (fun a b => a.1.key ≠ b.1.key) := by
    have apart : entries.Pairwise (fun a b => a.key ≠ b.key) :=
      ordered.imp (fun less => ne_of_lt less)
    have inRows : (rows.map Prod.fst).Pairwise (fun a b => a.key ≠ b.key) :=
      (perm.pairwise_iff (fun differ => Ne.symm differ)).mpr apart
    rw [pairwise_map] at inRows
    exact inRows
  have keyChain : ((rows.map (fun row => ((vkeyOf beyond row.1).encode, row.2.encode))).map
      (fun entry => (removeSuffix entry.1, entry.2))).IsChain (fun first second =>
        (keyValueFormat internalLess).less first second = true) := by
    rw [map_map, isChain_map]
    refine (rowsOrder.imp₂ (fun a b weak differ => ?_) distinct).isChain
    have strict : a.1.key < b.1.key := by
      rw [kRank, kRank, Prod.Lex.toLex_le_toLex, <- bytewise] at weak
      refine (InternalKey.lt_iff _ _).mpr (weak.imp_right fun same => ?_)
      have users : a.1.key.userKey = b.1.key.userKey := congrArg UserKey.mk same.1
      refine ⟨users, lt_of_le_of_ne same.2 fun tags => differ ?_⟩
      exact InternalKey.ext users (BitVec.eq_of_toNat_eq tags.symm)
    simp only [Function.comp, removeSuffix_encode]
    exact (internalLess_encode _ _).mpr strict
  rcases buildTable_total options keyChain with ⟨ktable, keysBuilt⟩
  refine ⟨⟨vtable.blocks, vends, ktable.blocks,
    ⟨removeSuffix kends.smallest, removeSuffix kends.largest⟩⟩, ?_⟩
  refine bind_eq_ok.mpr ⟨_, sorted, bind_eq_ok.mpr ⟨vends, vendsFound,
    bind_eq_ok.mpr ⟨vtable, valuesBuilt, ?_⟩⟩⟩
  rw [pointers, keyed]
  exact bind_eq_ok.mpr ⟨kends, kendsFound, bind_eq_ok.mpr ⟨ktable, keysBuilt, rfl⟩⟩

end Memtable

/-! ## The contract of `BuildDuTable` -/

/-- The value table is what it should be: the entries under their vkeys, in strictly
increasing order, with the first and the last key in the metadata. -/
structure ValueTableOk (entries : List Entry) (tables : DuTables) : Prop where
  contents : (tableEntries tables.vblocks).Perm
    (entries.map (fun entry => (entry.key.encode ++ entry.value.take 8, entry.value)))
  increasing : (tableEntries tables.vblocks).Pairwise
    (fun first second => ∃ r, vkeyCompare first.1 second.1 = .ok r ∧ r < 0)
  smallest : (tableEntries tables.vblocks).head?.map Prod.fst = some tables.vends.smallest
  largest : (tableEntries tables.vblocks).getLast?.map Prod.fst = some tables.vends.largest

/-- The key table is what it should be: the internal keys in strictly increasing order,
each with the place of its value, and the first and the last key in the metadata.
`valueKey` is the key of an entry in the value table. -/
structure KeyTableOk (valueKey : Entry -> Bytes) (number : Nat) (entries : List Entry)
    (tables : DuTables) : Prop where
  keys : (tableEntries tables.kblocks).map Prod.fst = entries.map (fun entry => entry.key.encode)
  increasing : (tableEntries tables.kblocks).Pairwise
    (fun first second => internalKeyCompare first.1 second.1 < 0)
  pointers : ∀ entry ∈ entries, ∃ block offset,
    (entry.key.encode, (ValuePointer.mk number block offset).encode) ∈ tableEntries tables.kblocks ∧
      entryAt tables.vblocks block offset = some (valueKey entry, entry.value)
  smallest : (tableEntries tables.kblocks).head?.map Prod.fst = some tables.kends.smallest
  largest : (tableEntries tables.kblocks).getLast?.map Prod.fst = some tables.kends.largest

section
variable {beyond : KeyValue -> BitVec 64} {number : Nat} {entries sorted : List Entry}
  {rows : List (Entry × ValuePointer)} {tables : DuTables}
  (holds : tables.Holds beyond number entries sorted rows)
include holds

omit [LinearOrder UserKey] in
theorem DuTables.Holds.valueTableOk (long : ∀ entry ∈ entries, 8 ≤ entry.value.length) :
    ValueTableOk entries tables := by
  have ends := tableEnds_eq_ok holds.vends
  rw [<- holds.values] at ends
  refine ⟨?_, ?_, ends.1, ends.2⟩
  · rw [holds.values]
    refine (holds.perm.map (valueRow beyond)).trans (Perm.of_eq ?_)
    exact map_congr_left (fun entry member =>
      Prod.ext (encode_vkeyOf beyond (long entry member)) rfl)
  · rw [holds.values, pairwise_map]
    refine holds.increasing.imp fun {a b} less => ?_
    rcases VKey.vkeyCompare_encode (vkeyOf beyond a) (vkeyOf beyond b) with ⟨r, compared, sign, _⟩
    exact ⟨r, compared, sign.mpr less⟩

theorem DuTables.Holds.keyTableOk (ordered : InKeyOrder entries) :
    KeyTableOk (fun entry => (vkeyOf beyond entry).encode) number entries tables := by
  have ends : tableEnds 10 ((tableEntries tables.kblocks).map Prod.fst) = .ok tables.kends := by
    rw [holds.keys, map_map]
    exact holds.kends
  refine ⟨?_, ?_, ?_, (tableEnds_eq_ok ends).1, (tableEnds_eq_ok ends).2⟩
  · rw [holds.keys, <- holds.entries, map_map, map_map]
    rfl
  · rw [holds.keys, pairwise_map]
    rw [<- holds.entries, InKeyOrder, pairwise_map] at ordered
    exact ordered.imp fun {a b} less => (internalKeyCompare_encode a.1.key b.1.key).1.mpr less
  · intro _ member
    rw [<- holds.entries] at member
    rcases mem_map.mp member with ⟨row, inRows, rfl⟩
    rcases holds.located row inRows with ⟨file, located⟩
    refine ⟨row.2.blockNumber, row.2.blockOffset, ?_, located⟩
    rw [holds.keys, <- file]
    exact mem_map.mpr ⟨row, inRows, rfl⟩

end

/-- With `MOD` 10, a bytewise user comparator and values of at least eight bytes,
`BuildDuTable` writes the two tables that it should. -/
theorem buildDuTable_ten_correct
    (bytewise : forall a b : UserKey, a < b <-> a.bytes < b.bytes) (options : BlockOptions)
    (beyond : KeyValue -> BitVec 64) (number : Nat) (entries : List Entry)
    (ordered : entries.Pairwise (fun a b => a.key < b.key)) (nonempty : entries ≠ [])
    (long : ∀ entry ∈ entries, 8 ≤ entry.value.length) :
    ∃ tables, buildDuTable 10 options beyond number (entries.map Entry.bytes) = .ok tables ∧
      ValueTableOk entries tables ∧
      KeyTableOk (fun entry => entry.key.encode ++ entry.value.take 8) number entries tables := by
  rcases buildDuTable_total ordered bytewise nonempty options number with ⟨tables, built⟩
  rcases buildDuTable_holds ordered built with ⟨_, _, holds⟩
  refine ⟨tables, built, holds.valueTableOk long, ?_⟩
  have keyTable := holds.keyTableOk ordered
  refine ⟨keyTable.keys, keyTable.increasing, fun entry member => ?_, keyTable.smallest,
    keyTable.largest⟩
  rcases keyTable.pointers entry member with ⟨block, offset, row, located⟩
  exact ⟨block, offset, row, encode_vkeyOf beyond (long entry member) ▸ located⟩

theorem buildDuTable_nine_keys {options : BlockOptions} {beyond : KeyValue -> BitVec 64}
    {number : Nat} {entries : List Entry} {tables : DuTables}
    (built : buildDuTable 9 options beyond number (entries.map Entry.bytes) = .ok tables) :
    (tableEntries tables.kblocks).map Prod.fst =
      entries.map (fun entry => entry.key.userKey.bytes) := by
  rcases bind_eq_ok.mp built with ⟨_, sortedValues, built⟩
  cases sortedValues
  rcases bind_eq_ok.mp built with ⟨_, _, built⟩
  rcases bind_eq_ok.mp built with ⟨_, valuesBuilt, built⟩
  rcases bind_eq_ok.mp built with ⟨_, _, built⟩
  rcases bind_eq_ok.mp built with ⟨_, keysBuilt, equal⟩
  cases equal
  have placed := congrArg (map (fun kv : KeyValue => removeSuffix kv.1))
    (buildTable_eq_ok valuesBuilt).placed
  have keys := congrArg (map Prod.fst) (buildTable_eq_ok keysBuilt).entries
  simp only [sortKeys, show ¬ SortsValues 9 by decide, if_false, map_map] at keys
  rw [map_map, map_map, map_map] at placed
  refine keys.trans (placed.trans (map_congr_left fun entry _ => ?_))
  have length := entry.key.length_encode
  simp only [Function.comp, tmpKey, removeSuffix, Entry.bytes, InternalKey.encode] at length ⊢
  rw [if_neg (by decide), length, Nat.add_sub_cancel, take_left]

/-- With `MOD` 9 the keys of the key table are never the internal keys of the memtable. -/
theorem buildDuTable_nine_never (options : BlockOptions) (beyond : KeyValue -> BitVec 64)
    (number : Nat) (entries : List Entry) (nonempty : entries ≠ []) :
    (∃ tables, buildDuTable 9 options beyond number (entries.map Entry.bytes) = .ok tables ∧
      KeyTableOk (fun entry => entry.key.encode) number entries tables) <-> False := by
  refine ⟨?_, False.elim⟩
  rintro ⟨_, built, keyTable⟩
  have same := (buildDuTable_nine_keys built).symm.trans keyTable.keys
  cases entries with
  | nil => exact nonempty rfl
  | cons entry entries =>
    have lengths : entry.key.userKey.bytes.length = entry.key.encode.length :=
      congrArg length (cons.inj same).1
    rw [InternalKey.length_encode] at lengths
    omega

omit [LinearOrder UserKey] in
/-- What stands behind a value shows in its vkey if the value is short, and only then. -/
theorem tmpKey_eq_iff (entry : KeyValue) :
    (∀ beyond other, tmpKey 10 beyond entry = tmpKey 10 other entry) <-> 8 ≤ entry.2.length := by
  simp only [tmpKey, if_true, append_cancel_left_eq]
  constructor
  · intro same
    by_contra short
    have tails := same (fun _ => 0) (fun _ => 1)
    simp only [take_append, append_cancel_left_eq] at tails
    have heads := congrArg head? tails
    rw [head?_take, head?_take, if_neg (by omega), if_neg (by omega)] at heads
    revert heads
    decide
  · intro long _ _
    rw [take_append_of_le_length long, take_append_of_le_length long]

/-- With `MOD` 10 the vkeys and both tables depend on the entries alone if no value is
short, and only then. -/
theorem buildDuTable_depends_iff (options : BlockOptions) (number : Nat) (entries : List KeyValue) :
    (forall beyond other, entries.map (tmpKey 10 beyond) = entries.map (tmpKey 10 other) ∧
      buildDuTable 10 options beyond number entries =
        buildDuTable 10 options other number entries) <->
      ∀ entry ∈ entries, 8 ≤ entry.2.length := by
  constructor
  · intro same entry member
    rw [<- tmpKey_eq_iff]
    intro beyond other
    exact map_inj_left.mp (same beyond other).1 entry member
  · intro long beyond other
    have keys : ∀ entry ∈ entries, tmpKey 10 beyond entry = tmpKey 10 other entry :=
      fun entry member => (tmpKey_eq_iff entry).mpr (long entry member) beyond other
    have rows := map_congr_left (fun entry member =>
      congrArg (fun key => (key, entry.2)) (keys entry member))
    exact ⟨map_congr_left keys, by simp only [buildDuTable, rows]⟩

end

section Bytewise

open Bytewise

/-- A memtable with one value for one key. -/
def oneEntry : List Entry := [⟨⟨⟨[107]⟩, 257⟩, [1, 2, 3, 4, 5, 6, 7, 8]⟩]

/-- Two entries whose sort keys have the reverse order of their keys. -/
def crossedEntries : List Entry :=
  [⟨⟨⟨[107]⟩, 257⟩, 2 :: replicate 1023 0⟩, ⟨⟨⟨[108]⟩, 513⟩, 1 :: replicate 1023 0⟩]

/-- The value table has them in two blocks, in the order of the sort keys. -/
theorem buildDuTable_ten_crossedEntries :
    ∃ tables, buildDuTable 10 ⟨1024, 16⟩ (fun _ => 0) 5 (crossedEntries.map Entry.bytes) =
        .ok tables ∧ ValueTableOk crossedEntries tables ∧
      KeyTableOk (fun entry => entry.key.encode ++ entry.value.take 8) 5 crossedEntries tables ∧
      tables.vblocks.map (fun block => block.entries.map (fun row => row.1.take 1)) =
        [[[108]], [[107]]] := by
  rcases buildDuTable_ten_correct (fun _ _ => Iff.rfl) ⟨1024, 16⟩ (fun _ => 0) 5 crossedEntries
    (by decide) (cons_ne_nil _ _) (by decide +kernel) with ⟨tables, built, values, keys⟩
  have blocks : (buildDuTable 10 ⟨1024, 16⟩ (fun _ => 0) 5
      (crossedEntries.map Entry.bytes)).toOption.map (fun tables =>
        tables.vblocks.map (fun block => block.entries.map (fun row => row.1.take 1))) =
      some [[[108]], [[107]]] := by
    decide +kernel
  rw [built] at blocks
  exact ⟨tables, built, values, keys, Option.some.inj blocks⟩

theorem buildDuTable_nine_oneEntry_never :
    (∃ tables, buildDuTable 9 ⟨4096, 16⟩ (fun _ => 0) 5 (oneEntry.map Entry.bytes) =
        .ok tables ∧ KeyTableOk (fun entry => entry.key.encode) 5 oneEntry tables) <-> False :=
  buildDuTable_nine_never _ _ _ _ (cons_ne_nil _ _)

/-- The key table has the user key without its tag. -/
theorem buildDuTable_nine_strips :
    (buildDuTable 9 ⟨4096, 16⟩ (fun _ => 0) 5 (oneEntry.map Entry.bytes)).toOption.map
        (fun tables => (tableEntries tables.kblocks).map Prod.fst) = some [[107]] ∧
      oneEntry.map (fun entry => entry.key.encode) = [[107, 1, 1, 0, 0, 0, 0, 0, 0]] := by
  decide +kernel

/-- The vkey of a deletion ends with the eight bytes that stand behind it. -/
theorem buildDuTable_ten_deletion : [0, 1].map (fun behind : BitVec 64 =>
      (buildDuTable 10 ⟨4096, 16⟩ (fun _ => behind) 5
        [([107, 0, 1, 0, 0, 0, 0, 0, 0], [])]).toOption.map
          (fun tables => (tableEntries tables.vblocks).map Prod.fst)) =
      [some [[107, 0, 1, 0, 0, 0, 0, 0, 0, 0, 0, 0, 0, 0, 0, 0, 0]],
        some [[107, 0, 1, 0, 0, 0, 0, 0, 0, 1, 0, 0, 0, 0, 0, 0, 0]]] := by
  decide +kernel

end Bytewise

end Db
end Doux
