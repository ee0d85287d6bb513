import Doux.Log.Scan

namespace Doux
namespace Log

open Foundation Util List

/-!
# The end of a log that was cut

With `reuse_logs` set `RecoverLogFile` (`db/db_impl.cc`) opens the last log again with a
writer that starts at the end of the file.  The file may end in a torn fragment: its
header, or the front of its header, is there, but not all of its bytes.

`tornTail` finds the torn fragment in the bytes, and `CutAt` says where the writer was when
the file ended.  With anything behind it the file is read up to the torn fragment as before;
what follows depends on the bytes that come to stand in its place.
-/

/-- `log::Writer(dest, dest_length)` on a file that is there already. -/
def reopen (file : Bytes) : Writer := ⟨file, file.length % kBlockSize⟩

/-- Pass over one fragment that is there completely. -/
def tornBody (state : Nat × Bytes) : LoopStep (Nat × Bytes) (Nat × Bytes) :=
  let offset := headerOffset state.1
  let data := state.2.drop (trailer state.1).length
  if data.length < kHeaderSize ∨ data.length < kHeaderSize + lengthField data then
    .done (offset, data)
  else
    .again (offset + kHeaderSize + lengthField data, data.drop (kHeaderSize + lengthField data))

/-- Follow the lengths in the headers to the first fragment that is not there completely;
its block offset and its bytes, of which there are none when the file ends between
fragments. -/
def tornTail (file : Bytes) : Nat × Bytes :=
  (runLoop tornBody (file.length + 1) (0, file)).getD (0, [])

section
variable (value : Bytes -> BitVec 32)

/-- Zeros up to the end of the block make the torn fragment one that finishes a record. -/
def Revived (offset : Nat) (torn : Bytes) : Prop :=
  kHeaderSize ≤ torn.length ∧ (torn.getD 6 0 = 1 ∨ torn.getD 6 0 = 4) ∧
    value (((torn ++ List.replicate (kBlockSize - (offset + torn.length)) 0).drop 6).take
      (1 + lengthField torn)) = unmask (BitVec.ofNat 32 (decodeFixed32 torn))

/-- The file ends between fragments, or its torn fragment leaves no room for a header and
is not revived. -/
def Clean (file : Bytes) : Prop :=
  (tornTail file).2 = [] ∨
    (kBlockSize < (tornTail file).1 + (tornTail file).2.length + kHeaderSize ∧
      ¬ Revived value (tornTail file).1 (tornTail file).2)

instance (offset : Nat) (torn : Bytes) : Decidable (Revived value offset torn) :=
  inferInstanceAs (Decidable (_ ∧ _ ∧ _))

instance (file : Bytes) : Decidable (Clean value file) :=
  inferInstanceAs (Decidable (_ ∨ _ ∧ _))

/-- A log that ends with a proper front of a fragment. -/
structure CutAt (file : Bytes) (fragments : List Fragment) (next : Fragment) (count : Nat) :
    Prop where
  bytes : file = layout value kBlockSize fragments ++
    (placed value (layoutEnd kBlockSize fragments) next).take count
  cut : count < (placed value (layoutEnd kBlockSize fragments) next).length
  fits : Fits kBlockSize (fragments ++ [next])
  sequenced : Sequenced false kBlockSize (fragments ++ [next])

theorem layout_take (fragments : List Fragment) (offset length : Nat)
    (short : length < (layout value offset fragments).length) :
    ∃ front next back count, fragments = front ++ next :: back ∧
      count < (placed value (layoutEnd offset front) next).length ∧
      (layout value offset fragments).take length = layout value offset front ++
        (placed value (layoutEnd offset front) next).take count := by
  induction fragments generalizing offset length with
  | nil => cases short
  | cons fragment fragments ih =>
    rw [layout, length_append] at short
    by_cases inside : length < (placed value offset fragment).length
    · refine ⟨[], fragment, fragments, length, rfl, inside, ?_⟩
      exact take_append_of_le_length (le_of_lt inside)
    · rcases ih (nextOffset offset fragment) (length - (placed value offset fragment).length)
        (by omega) with ⟨front, next, back, count, parts, cut, bytes⟩
      refine ⟨fragment :: front, next, back, count, ?_, cut, ?_⟩
      · rw [parts, cons_append]
      · rw [layout, take_append, take_of_length_le (Nat.le_of_not_lt inside), bytes,
          layout, append_assoc]
        rfl

theorem chunkBytes_eq_layout (chunks : List Chunk) (offset : Nat) :
    chunkBytes value offset chunks = layout value offset (chunks.flatMap Chunk.fragments) := by
  induction chunks generalizing offset with
  | nil => rfl
  | cons chunk chunks ih => rw [chunkBytes, flatMap_cons, layout_append, ih]

variable {value} {offset : Nat}

theorem Chained.fits {chunks : List Chunk} (chained : Chained offset chunks) :
    Fits offset (chunks.flatMap Chunk.fragments) := by
  induction chunks generalizing offset with
  | nil => trivial
  | cons chunk chunks ih => exact fits_append.mpr ⟨chained.2.1, ih chained.2.2⟩

theorem sequenced_append {front back : List Fragment} {inside : Bool}
    (sequenced : Sequenced inside offset (front ++ back)) : Sequenced inside offset front := by
  induction front generalizing inside offset with
  | nil => trivial
  | cons fragment front ih =>
    rcases sequenced with ⟨end_, type, fills, later⟩
    exact ⟨end_, type, fills, ih later⟩

theorem sequenced_shift {inside : Bool} {first second : Nat} {fragments : List Fragment}
    (same : headerOffset first = headerOffset second)
    (sequenced : Sequenced inside second fragments) : Sequenced inside first fragments := by
  cases fragments with
  | nil => trivial
  | cons fragment fragments =>
    have next : nextOffset first fragment = nextOffset second fragment := by
      unfold nextOffset
      rw [same]
    rw [Sequenced, next]
    exact sequenced

variable (value) in
/-- Every front of a written file is cut somewhere.  A record that is written behind it
gives the fragment when the whole file is there. -/
theorem cutAt_take {records : List Bytes} {writer : Writer}
    (written : addRecords value ⟨[], 0⟩ records = .ok writer) (length : Nat) :
    ∃ fragments next count, CutAt value (writer.dest.take length) fragments next count := by
  rcases addRecords_chunks value (records ++ [[]]) ⟨[], 0⟩ (Nat.zero_le _) with
    ⟨chunks, _, _, _, chained, sequenced, added, _⟩
  have longer : ∃ more, 0 < more.length ∧ chunkBytes value 0 chunks = writer.dest ++ more := by
    rcases addRecords_chunks value records ⟨[], 0⟩ (Nat.zero_le _) with
      ⟨_, last, lastInBlock, _, _, _, same, _⟩
    rw [written] at same
    cases same
    rcases addRecord_layout value ⟨_, last⟩ [] lastInBlock with ⟨_, split, _, _, step⟩
    rw [addRecords_append, written] at added
    change (addRecord value _ [] >>= _) = _ at added
    rw [step] at added
    exact ⟨_, split.layout_pos value last, (Writer.mk.inj (Except.ok.inj added)).1.symm⟩
  rcases longer with ⟨_, _, bytes⟩
  rcases chained.kBlockSize value with ⟨chained, start, _⟩
  rw [<- start, chunkBytes_eq_layout] at bytes
  have short : min length writer.dest.length <
      (layout value kBlockSize (chunks.flatMap Chunk.fragments)).length := by
    rw [bytes, length_append]
    omega
  rcases layout_take value _ _ _ short with ⟨front, next, back, count, parts, cut, front_eq⟩
  have all : chunks.flatMap Chunk.fragments = (front ++ [next]) ++ back := by
    rw [parts, append_assoc]
    rfl
  refine ⟨front, next, count, ?_, cut, ?_, ?_⟩
  · rw [<- front_eq, bytes, take_append_of_le_length (Nat.min_le_right _ _), <- take_eq_take_min]
  · exact (fits_append.mp (all ▸ chained.fits)).1
  · exact sequenced_append (all ▸ sequenced_shift headerOffset_kBlockSize sequenced)

variable (value) in
theorem offset_add_length_mod {fragments : List Fragment}
    (inBlock : offset ≤ kBlockSize) (fits : Fits offset fragments) :
    (offset + (layout value offset fragments).length) % kBlockSize =
      layoutEnd offset fragments % kBlockSize := by
  induction fragments generalizing offset with
  | nil => rfl
  | cons fragment fragments ih =>
    rw [layoutEnd, <- ih fits.2.1 fits.2.2, layout, length_append, length_placed, length_trailer]
    unfold nextOffset headerOffset
    split
    · rw [show offset + (kBlockSize - offset + (kHeaderSize + fragment.payload.length) +
          (layout value (0 + kHeaderSize + fragment.payload.length) fragments).length) =
        0 + kHeaderSize + fragment.payload.length +
          (layout value (0 + kHeaderSize + fragment.payload.length) fragments).length +
            kBlockSize by omega, Nat.add_mod_right]
    · congr 1
      omega

variable (value) in
theorem length_le_layout (fragments : List Fragment) (offset : Nat) :
    fragments.length ≤ (layout value offset fragments).length := by
  induction fragments generalizing offset with
  | nil => exact le_refl _
  | cons fragment fragments ih =>
    have later := ih (nextOffset offset fragment)
    rw [layout, length_append, length_placed, length_cons]
    unfold kHeaderSize
    omega

/-- Inside a record the writer stands at the end of a block, and the next fragment goes on
with the record. -/
theorem sequenced_foldl {fragments : List Fragment} {next : Fragment} {assembly : Assembly}
    (sequenced : Sequenced assembly.inFragmentedRecord offset (fragments ++ [next]))
    (filled : assembly.inFragmentedRecord = true -> offset = kBlockSize) :
    ((fragments.foldl Assembly.add assembly).inFragmentedRecord = true ->
        layoutEnd offset fragments = kBlockSize) ∧ ∃ end_, next.type =
        fragmentType (!(fragments.foldl Assembly.add assembly).inFragmentedRecord) end_ := by
  induction fragments generalizing offset assembly with
  | nil =>
    rcases sequenced with ⟨end_, type, _, _⟩
    exact ⟨filled, end_, type⟩
  | cons fragment fragments ih =>
    rcases sequenced with ⟨end_, type, fills, later⟩
    have inside : (assembly.add fragment).inFragmentedRecord = !end_ := by
      rcases assembly with ⟨_, inside, _⟩
      rcases fragment with ⟨_, _⟩
      cases type
      cases inside <;> cases end_ <;> rfl
    rw [<- inside] at later
    exact ih later fun continues => fills (by simpa [inside] using continues)

/-- The bytes of a fragment without the zeros before it. -/
def fragmentBytes (value : Bytes -> BitVec 32) (fragment : Fragment) : Bytes :=
  header value fragment.type fragment.payload ++ fragment.payload

variable (value) in
theorem length_fragmentBytes (fragment : Fragment) :
    (fragmentBytes value fragment).length = kHeaderSize + fragment.payload.length := by
  rw [fragmentBytes, length_append, length_header]

variable {fragment : Fragment} (value) in
theorem fragmentBytes_take {count : Nat} (rest : Bytes)
    (complete : kHeaderSize ≤ count) : (fragmentBytes value fragment).take count ++ rest =
      header value fragment.type fragment.payload ++
        (fragment.payload.take (count - kHeaderSize) ++ rest) := by
  rw [fragmentBytes, take_append, length_header,
    take_of_length_le (by rw [length_header]; exact complete), append_assoc]

variable (value) in
theorem lengthField_take {count : Nat} (rest : Bytes)
    (short : fragment.payload.length ≤ 0xffff) (complete : kHeaderSize ≤ count) :
    lengthField ((fragmentBytes value fragment).take count ++ rest) = fragment.payload.length := by
  rw [fragmentBytes_take value rest complete]
  exact (header_fields value fragment.type fragment.payload _ short).2.1

theorem tornBody_placed (rest : Bytes) (room : nextOffset offset fragment ≤ kBlockSize) :
    tornBody (offset, placed value offset fragment ++ rest) =
      .again (nextOffset offset fragment, rest) := by
  have data : (placed value offset fragment ++ rest).drop (trailer offset).length =
      fragmentBytes value fragment ++ rest := by
    rw [placed, append_assoc, drop_left]
    rfl
  have size := length_fragmentBytes value fragment
  have field := lengthField_take value rest (payload_short room)
    (show kHeaderSize ≤ (fragmentBytes value fragment).length by omega)
  rw [take_length] at field
  unfold tornBody
  simp only [data, field]
  rw [if_neg (by rw [length_append]; omega), <- size, drop_left]
  rfl

theorem tornBody_cut {offset count : Nat} (room : nextOffset offset fragment ≤ kBlockSize)
    (cut : count < (placed value offset fragment).length) :
    tornBody (offset, (placed value offset fragment).take count) = .done (headerOffset offset,
        (fragmentBytes value fragment).take (count - (trailer offset).length)) := by
  have data : ((placed value offset fragment).take count).drop (trailer offset).length =
      (fragmentBytes value fragment).take (count - (trailer offset).length) := by
    rw [placed, drop_take, drop_left]
    rfl
  rw [length_placed] at cut
  unfold tornBody
  simp only [data]
  rw [if_pos]
  have positive : 0 < kHeaderSize := by decide
  by_cases complete : kHeaderSize ≤ count - (trailer offset).length
  · have field := lengthField_take value [] (payload_short room) complete
    rw [append_nil] at field
    rw [length_take]
    omega
  · rw [length_take]
    omega

/-- Going on in the zeros before a header, or right before them, leads to this header. -/
theorem offsets_between {start count : Nat} (inBlock : start ≤ kBlockSize)
    (between : count ≤ (trailer start).length) :
    headerOffset start = headerOffset ((start + count) % kBlockSize) ∧
      trailer start = (trailer start).take count ++ trailer ((start + count) % kBlockSize) := by
  rw [length_trailer] at between
  by_cases narrow : kBlockSize - start < kHeaderSize
  · have zero : headerOffset start = 0 := if_pos narrow
    have zeros : trailer start = List.replicate (kBlockSize - start) 0 := if_pos narrow
    rw [if_pos narrow] at between
    rw [zero, zeros]
    by_cases last : start + count = kBlockSize
    · rw [last, Nat.mod_self, take_of_length_le (by rw [length_replicate]; omega)]
      exact ⟨by decide, by rw [show trailer 0 = [] by decide, append_nil]⟩
    · have still : kBlockSize - (start + count) < kHeaderSize := by omega
      rw [Nat.mod_eq_of_lt (show start + count < kBlockSize by omega), take_replicate]
      refine ⟨(if_pos still).symm, ?_⟩
      rw [show trailer (start + count) = List.replicate (kBlockSize - (start + count)) 0
        from if_pos still, replicate_append_replicate]
      congr 1
      omega
  · rw [if_neg narrow] at between
    have none : count = 0 := Nat.le_zero.mp between
    have positive : 0 < kHeaderSize := by decide
    rw [none, add_zero, Nat.mod_eq_of_lt (show start < kBlockSize by omega)]
    exact ⟨rfl, rfl⟩

namespace CutAt

/-- The block offset behind the fragments. -/
abbrev finish (fragments : List Fragment) : Nat := layoutEnd kBlockSize fragments

/-- How much of the next fragment is there. -/
abbrev shown (fragments : List Fragment) (count : Nat) : Nat :=
  count - (trailer (finish fragments)).length

variable {file : Bytes} {fragments : List Fragment} {next : Fragment} {count : Nat}
  (cutAt : CutAt value file fragments next count)

section
include cutAt

theorem room : nextOffset (finish fragments) next ≤ kBlockSize :=
  (fits_append.mp cutAt.fits).2.2.1

theorem inBlock : finish fragments ≤ kBlockSize :=
  layoutEnd_le (fits_append.mp cutAt.fits).1 (le_refl _)

theorem blockOffset : (reopen file).blockOffset = (finish fragments + count) % kBlockSize := by
  have size : file.length = (layout value kBlockSize fragments).length + count := by
    rw [cutAt.bytes, length_append, length_take, Nat.min_eq_left (le_of_lt cutAt.cut)]
  have base := offset_add_length_mod value (le_refl kBlockSize) (fits_append.mp cutAt.fits).1
  change file.length % kBlockSize = _
  rw [size, <- Nat.add_mod_left kBlockSize, <- add_assoc, <- Nat.mod_add_mod, base, Nat.mod_add_mod]

theorem tornTail_eq : tornTail file =
    (headerOffset (finish fragments), (fragmentBytes value next).take (shown fragments count)) := by
  have passes (fragments : List Fragment) (offset : Nat) (rest : Bytes)
      (fits : Fits offset fragments) :
      Passes tornBody fragments.length (offset, layout value offset fragments ++ rest)
        (layoutEnd offset fragments, rest) := by
    induction fragments generalizing offset with
    | nil => exact Passes.zero _
    | cons fragment fragments ih =>
      rw [layout, append_assoc, length_cons, add_comm]
      exact (Passes.one (tornBody_placed _ fits.2.1)).trans (ih _ fits.2.2)
  have start : tornBody (0, file) = tornBody (kBlockSize, file) := by
    unfold tornBody
    simp only [headerOffset_kBlockSize, trailer_kBlockSize]
  have returns : runLoop tornBody (file.length + 1) (kBlockSize, file) =
      some (headerOffset (finish fragments),
        (fragmentBytes value next).take (shown fragments count)) := by
    have bound := length_le_layout value fragments kBlockSize
    have run := passes fragments kBlockSize ((placed value (finish fragments) next).take count)
      (fits_append.mp cutAt.fits).1
    rw [<- cutAt.bytes] at run
    refine run.returns (tornBody_cut cutAt.room cutAt.cut) ?_
    rw [cutAt.bytes, length_append]
    omega
  unfold tornTail
  rw [runLoop, start]
  rw [runLoop] at returns
  rw [returns]
  rfl

end

/-- What the reader has built up before the torn fragment. -/
def assembled (fragments : List Fragment) : Assembly :=
  fragments.foldl Assembly.add Assembly.empty

include cutAt

theorem read (rest : Bytes) : ∃ reader, ReaderAt (finish fragments)
        ((placed value (finish fragments) next).take count ++ rest) reader ∧
      ∀ result, ((∃ reports, readLog value (file ++ rest) = some (result, reports)) <->
        Finds value (assembled fragments) reader result) := by
  have bytes : file ++ rest = layout value kBlockSize fragments ++
      ((placed value (finish fragments) next).take count ++ rest) := by
    rw [<- append_assoc, <- cutAt.bytes]
  have position := readerAt_start (file ++ rest)
  rw [bytes] at position ⊢
  rcases finds_layout (fits_append.mp cutAt.fits).1 position Assembly.empty with
    ⟨reader, readerAt, same⟩
  exact ⟨reader, readerAt, fun result => (readLog_iff_yields _ result).trans (same result)⟩

theorem readLog_iff (result : List Bytes) :
    (∃ reports, readLog value file = some (result, reports)) <->
      result = (assembled fragments).records := by
  rcases cutAt.read [] with ⟨_, readerAt, same⟩
  rw [append_nil] at readerAt
  rw [<- append_nil file, same result]
  exact finds_cut readerAt cutAt.room cutAt.cut _ result

theorem read_between (between : count ≤ (trailer (finish fragments)).length)
    {chunk : Chunk} {chunks : List Chunk}
    (chained : Chained (reopen file).blockOffset (chunk :: chunks)) (result : List Bytes) :
    (∃ reports, readLog value
        (file ++ chunkBytes value (reopen file).blockOffset (chunk :: chunks)) =
          some (result, reports)) <->
      result = (assembled fragments).records ++ (chunk :: chunks).map Chunk.record := by
  rw [cutAt.blockOffset] at chained ⊢
  rcases offsets_between cutAt.inBlock between with ⟨same, bytes⟩
  rcases Chained.shift value same bytes chained.1 with ⟨still, chunkBytesEq⟩
  rcases cutAt.read (chunkBytes value
    ((finish fragments + count) % kBlockSize) (chunk :: chunks)) with
    ⟨_, readerAt, found⟩
  have front : (placed value (finish fragments) next).take count =
      (trailer (finish fragments)).take count :=
    take_append_of_le_length between
  rw [front, <- chunkBytesEq] at readerAt
  rw [found]
  exact finds_chunks (still.mpr chained) readerAt _ result

theorem blockOffset_torn (torn : (trailer (finish fragments)).length < count) :
    (reopen file).blockOffset = headerOffset (finish fragments) + shown fragments count ∧
      shown fragments count < kHeaderSize + next.payload.length ∧
      headerOffset (finish fragments) + kHeaderSize + next.payload.length ≤ kBlockSize := by
  have inBlock := cutAt.inBlock
  have cut : count < (placed value (finish fragments) next).length := cutAt.cut
  have room := cutAt.room
  rw [cutAt.blockOffset]
  rw [length_placed] at cut
  unfold nextOffset at room
  unfold shown
  refine ⟨?_, by omega, room⟩
  rw [length_trailer] at torn cut ⊢
  unfold headerOffset at room ⊢
  by_cases narrow : kBlockSize - finish fragments < kHeaderSize
  · rw [if_pos narrow] at torn cut room ⊢
    rw [if_pos narrow, show finish fragments + count =
      count - (kBlockSize - finish fragments) + kBlockSize by omega,
      Nat.add_mod_right, Nat.mod_eq_of_lt (by omega), zero_add]
  · rw [if_neg narrow] at torn cut room ⊢
    rw [if_neg narrow]
    exact Nat.mod_eq_of_lt (by omega)

theorem read_torn (torn : (trailer (finish fragments)).length < count) (rest : Bytes) :
    ∃ reader, ReaderAt (headerOffset (finish fragments))
        ((fragmentBytes value next).take (shown fragments count) ++ rest) reader ∧
      ∀ result, ((∃ reports, readLog value (file ++ rest) = some (result, reports)) <->
        Finds value (assembled fragments) reader result) := by
  rcases cutAt.read rest with ⟨reader, readerAt, same⟩
  refine ⟨refilled reader, ?_, fun result => (same result).trans
    (sameScan_refilled (refilled_refilled reader).symm _ result)⟩
  have cut : count < (placed value (finish fragments) next).length := cutAt.cut
  rcases readerAt.refilled with ⟨refilledAt, _⟩ | ⟨_, short⟩
  · have data : ((placed value (finish fragments) next).take count ++ rest).drop
        (trailer (finish fragments)).length =
          (fragmentBytes value next).take (shown fragments count) ++ rest := by
      rw [drop_append_of_le_length (by rw [length_take]; omega), placed, drop_take, drop_left]
      rfl
    rw [data] at refilledAt
    exact refilledAt
  · rw [length_append, length_take] at short
    omega

end CutAt

end

end Log
end Doux
