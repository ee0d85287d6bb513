import Doux.Log.RoundTrip

namespace Doux
namespace Log

open Foundation Util List

/-!
# Reading an arbitrary file

The two nested loops of a log recovery, over records and over physical records, are one
scan over physical records.  `Yields` is the trace of this scan: the state in which a
pass starts, the records found so far, and the records at the end.  Every file has
exactly one trace, and it gives what `readLog` returns.

On fragments that were written the scan is a fold: `Assembly` is the state that the
reader has built up from them.
-/

/-- The bytes that the reader has not used. -/
def unread (reader : Reader) : Nat := reader.buffer.length + reader.file.length

section
variable (value : Bytes -> BitVec 32)

/-- Passing on from a state, with the records found so far, the scan ends with the
given records. -/
inductive Yields : ReadRecordState -> List Bytes -> List Bytes -> Prop
  | finish {state : ReadRecordState} {reader : Reader} {records : List Bytes}
      (leaves : readRecordBody value state = .done (reader, none)) :
      Yields state records records
  | record {state : ReadRecordState} {reader : Reader} {record : Bytes}
      {records result : List Bytes}
      (leaves : readRecordBody value state = .done (reader, some record))
      (rest : Yields ⟨reader, false, []⟩ (records ++ [record]) result) :
      Yields state records result
  | again {state next : ReadRecordState} {records result : List Bytes}
      (pass : readRecordBody value state = .again next) (rest : Yields next records result) :
      Yields state records result

variable {value}

variable {state : ReadRecordState} {records result : List Bytes}

variable {reader : Reader}

/-- The trace goes on where the pass leads. -/
theorem yields_iff : Yields value state records result <->
    match readRecordBody value state with
    | .done (_, none) => result = records
    | .done (reader, some record) => Yields value ⟨reader, false, []⟩ (records ++ [record]) result
    | .again next => Yields value next records result := by
  constructor
  · intro yields
    cases yields with
    | finish leaves => rw [leaves]
    | record leaves rest => rw [leaves]; exact rest
    | again pass rest => rw [pass]; exact rest
  · cases body : readRecordBody value state with
    | again next => exact .again body
    | done last =>
      rcases last with ⟨reader, _ | record⟩
      · rintro rfl
        exact .finish body
      · exact .record body

theorem yields_finish (leaves : readRecordBody value state = .done (reader, none)) :
    Yields value state records result <-> result = records := by
  rw [yields_iff, leaves]

theorem yields_record {record : Bytes}
    (leaves : readRecordBody value state = .done (reader, some record)) :
    Yields value state records result <->
      Yields value ⟨reader, false, []⟩ (records ++ [record]) result := by
  rw [yields_iff, leaves]

theorem yields_again {next : ReadRecordState} (pass : readRecordBody value state = .again next) :
    Yields value state records result <-> Yields value next records result := by
  rw [yields_iff, pass]

theorem unread_refilled_le (reader : Reader) : unread (refilled reader) ≤ unread reader := by
  unfold refilled
  split
  · unfold unread readBlock
    simp only [length_take, length_drop]
    omega
  · exact le_refl _

def lengthField (data : Bytes) : Nat := (data.getD 4 0).toNat + 256 * (data.getD 5 0).toNat

variable (value) in
/-- The buffer starts with a physical record whose checksum is right. -/
structure Taken (buffer : Bytes) (length : Nat) : Prop where
  fits : kHeaderSize + length ≤ buffer.length
  field : length = lengthField buffer
  nonzero : ¬ (charToUnsigned (buffer.getD 6 0) = 0 ∧ length = 0)
  crc : value ((buffer.drop 6).take (1 + length)) = unmask (BitVec.ofNat 32 (decodeFixed32 buffer))

theorem Taken.length_payload {buffer : Bytes} {length : Nat} (taken : Taken value buffer length) :
    ((buffer.drop kHeaderSize).take length).length = length := by
  have fits := taken.fits
  rw [length_take, length_drop]
  omega

theorem charToUnsigned_eq {byte : UInt8} {type : RecordType}
    (same : charToUnsigned byte = type.toByte.toNat) : byte = type.toByte := by
  have small : type.toByte.toNat < 128 := by cases type <;> decide
  unfold charToUnsigned at same
  split at same
  · exact UInt8.toNat_inj.mp same
  · omega

/-- A checksum that is right leaves one possibility for the header. -/
theorem Taken.header_eq {buffer : Bytes} {length : Nat} (taken : Taken value buffer length)
    {type : RecordType} (typeEq : charToUnsigned (buffer.getD 6 0) = type.toByte.toNat) :
    buffer.take kHeaderSize = header value type ((buffer.drop kHeaderSize).take length) := by
  have typeByte := charToUnsigned_eq typeEq
  unfold header
  rw [taken.length_payload]
  rcases taken with ⟨fits, field, _, crc⟩
  unfold kHeaderSize at fits ⊢
  rcases buffer with _ | ⟨b0, _ | ⟨b1, _ | ⟨b2, _ | ⟨b3, _ | ⟨b4, _ | ⟨b5, _ | ⟨b6, rest⟩⟩⟩⟩⟩⟩⟩
  all_goals try (simp only [length_nil, length_cons] at fits; omega)
  have small : ofLittleEndian [b0, b1, b2, b3] < 2 ^ 32 := by
    have bound := ofLittleEndian_lt [b0, b1, b2, b3]
    simp only [length_cons] at bound
    omega
  have low : UInt8.ofNat (length % 256) = b4 := by
    have lowSmall := b4.toNat_lt
    apply UInt8.toNat_inj.mp
    rw [field]
    change (b4.toNat + 256 * b5.toNat) % 256 % 2 ^ 8 = b4.toNat
    omega
  have high : UInt8.ofNat (length / 256) = b5 := by
    have lowSmall := b4.toNat_lt
    have highSmall := b5.toNat_lt
    apply UInt8.toNat_inj.mp
    rw [field]
    change (b4.toNat + 256 * b5.toNat) / 256 % 2 ^ 8 = b5.toNat
    omega
  have covered : value (type.toByte :: rest.take length) =
      unmask (BitVec.ofNat 32 (ofLittleEndian [b0, b1, b2, b3])) := by
    rw [add_comm] at crc
    rw [<- typeByte]
    exact crc
  change [b0, b1, b2, b3, b4, b5, b6] =
    encodeFixed32 (mask (value (type.toByte :: rest.take length))).toNat ++ _
  rw [covered, mask_unmask, BitVec.toNat_ofNat, Nat.mod_eq_of_lt small, low, high, <- typeByte]
  have encoded : encodeFixed32 (ofLittleEndian [b0, b1, b2, b3]) = [b0, b1, b2, b3] :=
    littleEndian_ofLittleEndian [b0, b1, b2, b3]
  rw [encoded]
  rfl

variable (value) in
/-- What parsing a buffer can do: it ends at a record that is cut off by the end of the
file, it drops the buffer, or it takes a physical record off it. -/
theorem parsePhysicalRecord_cases (reader : Reader) :
    (∃ next, parsePhysicalRecord value reader = (next, kEof, []) ∧ reader.eof = true) ∨
    (∃ next, parsePhysicalRecord value reader = (next, kBadRecord, []) ∧
      next.buffer = [] ∧ next.file = reader.file ∧ next.eof = reader.eof ∧
      ∀ length, ¬ Taken value reader.buffer length) ∨
    (∃ length, Taken value reader.buffer length ∧ parsePhysicalRecord value reader =
        ({ reader with buffer := reader.buffer.drop (kHeaderSize + length) },
          charToUnsigned (reader.buffer.getD 6 0),
          (reader.buffer.drop kHeaderSize).take length)) := by
  unfold parsePhysicalRecord
  dsimp only
  split
  · next long =>
      split
      · next atEof => exact Or.inl ⟨_, rfl, atEof⟩
      · refine Or.inr (Or.inl ⟨_, rfl, rfl, rfl, rfl, fun length taken => ?_⟩)
        have fits := taken.fits
        rw [taken.field, lengthField] at fits
        omega
  · next fits =>
      split
      · next zero =>
          refine Or.inr (Or.inl ⟨_, rfl, rfl, rfl, rfl, fun length taken => ?_⟩)
          exact taken.nonzero ⟨zero.1, taken.field.trans zero.2⟩
      · next nonzero =>
          split
          · next differs =>
              refine Or.inr (Or.inl ⟨_, rfl, rfl, rfl, rfl, fun length taken => differs ?_⟩)
              have crc := taken.crc
              rw [taken.field] at crc
              exact crc
          · next matches_ =>
              exact Or.inr (Or.inr ⟨_, ⟨Nat.le_of_not_lt fits, rfl, nonzero,
                not_not.mp matches_⟩, rfl⟩)

variable (value) in
/-- A physical record that is not the end of the file uses up at least a header. -/
theorem readPhysicalRecord_shrinks (reader : Reader) :
    (readPhysicalRecord value reader).2.1 = kEof ∨
      unread (readPhysicalRecord value reader).1 + kHeaderSize ≤ unread reader := by
  have smaller := unread_refilled_le reader
  rw [readPhysicalRecord_eq]
  by_cases narrow : (refilled reader).buffer.length < kHeaderSize
  · rw [if_pos narrow]
    exact Or.inl rfl
  · rw [if_neg narrow]
    unfold unread at smaller ⊢
    rcases parsePhysicalRecord_cases value (refilled reader) with
      ⟨next, parsed, _⟩ | ⟨next, parsed, empty, file, _⟩ | ⟨_, _, parsed⟩
    · rw [parsed]
      exact Or.inl rfl
    · rw [parsed]
      simp only [empty, file, length_nil]
      omega
    · rw [parsed]
      simp only [length_drop]
      omega

variable (state : ReadRecordState)

theorem unread_reportPartial (reader : Reader) (reason : String) :
    unread (reportPartial state reader reason) = unread reader := by
  unfold reportPartial
  split <;> rfl

variable (value) in
/-- A pass after which the scan goes on uses up at least a header. -/
theorem readRecordBody_shrinks :
    match readRecordBody value state with
    | .done (_, none) => True
    | .done (reader, some _) => unread reader + kHeaderSize ≤ unread state.reader
    | .again next => unread next.reader + kHeaderSize ≤ unread state.reader := by
  have shrinks := readPhysicalRecord_shrinks value state.reader
  unfold readRecordBody
  generalize readPhysicalRecord value state.reader = physical at shrinks ⊢
  rcases physical with ⟨reader, type, _⟩
  dsimp only at shrinks ⊢
  by_cases atEof : type = kEof
  · subst atEof
    trivial
  · have less := shrinks.resolve_left atEof
    have reported (reason : String) :
        unread (reportPartial state reader reason) + kHeaderSize ≤ unread state.reader := by
      rw [unread_reportPartial]
      exact less
    split_ifs
    · exact reported _
    · exact reported _
    all_goals exact less

variable (value) in
theorem yields_total (records : List Bytes) : ∃ result, Yields value state records result := by
  induction size : unread state.reader using Nat.strong_induction_on generalizing state records with
  | _ size ih =>
    have positive : 0 < kHeaderSize := by decide
    have shrinks := readRecordBody_shrinks value state
    cases body : readRecordBody value state with
    | again next =>
      simp only [body] at shrinks
      rcases ih _ (by omega) next records rfl with ⟨result, rest⟩
      exact ⟨result, .again body rest⟩
    | done last =>
      rcases last with ⟨reader, _ | record⟩
      · exact ⟨records, .finish body⟩
      · simp only [body] at shrinks
        rcases ih (unread reader) (by omega) ⟨reader, false, []⟩ (records ++ [record]) rfl with
          ⟨result, rest⟩
        exact ⟨result, .record body rest⟩

/-! ## The trace of a file -/

/-- One call of `ReadRecord` from the middle: it returns with any fuel that exceeds the
number of unread bytes. -/
theorem Yields.call (yields : Yields value state records result) :
    ∃ reader found, (∀ fuel, unread state.reader < fuel ->
        runLoop (readRecordBody value) fuel state = some (reader, found)) ∧ match found with
      | none => result = records
      | some bytes => unread reader < unread state.reader ∧
          Yields value ⟨reader, false, []⟩ (records ++ [bytes]) result := by
  have positive : 0 < kHeaderSize := by decide
  induction yields with
  | @finish state reader _ leaves =>
    exact ⟨reader, none, fun fuel enough =>
      (Passes.zero state).returns leaves (Nat.lt_of_le_of_lt (Nat.zero_le _) enough), rfl⟩
  | @record state reader record _ _ leaves rest =>
    refine ⟨reader, some record, fun fuel enough =>
      (Passes.zero state).returns leaves (Nat.lt_of_le_of_lt (Nat.zero_le _) enough), ?_, rest⟩
    have less := readRecordBody_shrinks value state
    simp only [leaves] at less
    omega
  | @again state next _ _ pass _ ih =>
    rcases ih with ⟨reader, found, runs, after⟩
    have less := readRecordBody_shrinks value state
    simp only [pass] at less
    refine ⟨reader, found, fun fuel enough => ?_, ?_⟩
    · have split : fuel = 1 + (fuel - 1) := by omega
      rw [split, Passes.one pass]
      exact runs _ (by omega)
    · cases found with
      | none => exact after
      | some bytes => exact ⟨by omega, after.2⟩

/-- The loop over `ReadRecord` follows the trace. -/
theorem Yields.readRecords (yields : Yields value ⟨reader, false, []⟩ records result) :
    ∀ fuel, unread reader < fuel -> ∃ reports,
      runLoop (readRecordsBody value) fuel (reader, records) = some (some (result, reports)) := by
  induction size : unread reader using Nat.strong_induction_on generalizing reader records with
  | _ size ih =>
    intro fuel _
    rcases yields.call with ⟨next, found, runs, after⟩
    have read : readRecord value reader = some (next, found) := runs _ (Nat.lt_succ_self _)
    have split : fuel = fuel - 1 + 1 := by omega
    cases found with
    | none =>
      have ended : result = records := after
      refine ⟨next.reports, ?_⟩
      rw [split, runLoop, readRecordsBody]
      simp only [read, ended]
    | some bytes =>
      rcases after with ⟨less, rest⟩
      change unread next < unread reader at less
      rcases ih _ (size ▸ less) rest rfl (fuel - 1) (by omega) with ⟨reports, runsOn⟩
      refine ⟨reports, ?_⟩
      rw [split, runLoop, readRecordsBody]
      simp only [read]
      exact runsOn

/-- `readLog` returns exactly the records of the trace of the file. -/
theorem readLog_iff_yields (file : Bytes) (result : List Bytes) :
    (∃ reports, readLog value file = some (result, reports)) <->
      Yields value ⟨⟨file, [], false, []⟩, false, []⟩ [] result := by
  have forward {found : List Bytes}
      (yields : Yields value ⟨⟨file, [], false, []⟩, false, []⟩ [] found) :
      ∃ reports, readLog value file = some (found, reports) := by
    rcases yields.readRecords (file.length + 1) (by unfold unread; simp) with ⟨reports, runs⟩
    exact ⟨reports, by rw [readLog, runs]; rfl⟩
  refine ⟨fun ⟨reports, read⟩ => ?_, forward⟩
  rcases yields_total value ⟨⟨file, [], false, []⟩, false, []⟩ [] with ⟨_, yields⟩
  rcases forward yields with ⟨_, same⟩
  rw [read] at same
  cases same
  exact yields

end

/-- What the reader has built up from the physical records before it. -/
structure Assembly where
  records : List Bytes
  inFragmentedRecord : Bool
  scratch : Bytes

namespace Assembly

def empty : Assembly := ⟨[], false, []⟩

/-- The effect of one physical record.  A record that starts drops one that was not
finished. -/
def take (assembly : Assembly) (type : Nat) (payload : Bytes) : Assembly :=
  if type = 1 then
    ⟨assembly.records ++ [payload], false, []⟩
  else if type = 2 then
    ⟨assembly.records, true, payload⟩
  else if type = 3 then
    if assembly.inFragmentedRecord then
      ⟨assembly.records, true, assembly.scratch ++ payload⟩
    else
      ⟨assembly.records, false, assembly.scratch⟩
  else if type = 4 then
    if assembly.inFragmentedRecord then
      ⟨assembly.records ++ [assembly.scratch ++ payload], false, []⟩
    else
      ⟨assembly.records, false, assembly.scratch⟩
  else if type = kBadRecord then
    if assembly.inFragmentedRecord then
      ⟨assembly.records, false, []⟩
    else
      ⟨assembly.records, false, assembly.scratch⟩
  else
    ⟨assembly.records, false, []⟩

/-- A physical record finishes a record, starts one, goes on with one, or leaves the reader
outside of records. -/
theorem take_cases (assembly : Assembly) (type : Nat) (payload : Bytes) :
    (type = 1 ∧ assembly.take type payload = ⟨assembly.records ++ [payload], false, []⟩) ∨
    (type = 2 ∧ assembly.take type payload = ⟨assembly.records, true, payload⟩) ∨
    (assembly.inFragmentedRecord = true ∧ assembly.take type payload =
      ⟨assembly.records, true, assembly.scratch ++ payload⟩) ∨
    (assembly.inFragmentedRecord = true ∧ assembly.take type payload =
      ⟨assembly.records ++ [assembly.scratch ++ payload], false, []⟩) ∨
    (∃ scratch, assembly.take type payload = ⟨assembly.records, false, scratch⟩) := by
  unfold take
  split_ifs with full first _ inside _ inside
  any_goals exact Or.inr (Or.inr (Or.inr (Or.inr ⟨_, rfl⟩)))
  · exact Or.inl ⟨full, rfl⟩
  · exact Or.inr (Or.inl ⟨first, rfl⟩)
  · exact Or.inr (Or.inr (Or.inl ⟨inside, rfl⟩))
  · exact Or.inr (Or.inr (Or.inr (Or.inl ⟨inside, rfl⟩)))

theorem take_bad (assembly : Assembly) :
    ∃ scratch, assembly.take kBadRecord [] = ⟨assembly.records, false, scratch⟩ := by
  rcases assembly with ⟨_, inside, scratch⟩
  cases inside with
  | true => exact ⟨[], rfl⟩
  | false => exact ⟨scratch, rfl⟩

/-- The effect of a fragment that was written. -/
def add (assembly : Assembly) (fragment : Fragment) : Assembly :=
  assembly.take fragment.type.toByte.toNat fragment.payload

def state (assembly : Assembly) (reader : Reader) : ReadRecordState :=
  ⟨reader, assembly.inFragmentedRecord, assembly.scratch⟩

theorem foldl_fragments {record : Bytes} {fragments : List Fragment}
    (split : Fragments true record fragments) (assembly : Assembly) :
    fragments.foldl add assembly = ⟨assembly.records ++ [record], false, []⟩ := by
  have later {rest : Bytes} {fragments : List Fragment} (split : Fragments false rest fragments)
      (records : List Bytes) (scratch : Bytes) :
      fragments.foldl add ⟨records, true, scratch⟩ = ⟨records ++ [scratch ++ rest], false, []⟩ := by
    generalize isFalse : false = begin at split
    induction split generalizing scratch with
    | final begin payload =>
      subst isFalse
      rfl
    | more begin payload rest fragments _ ih =>
      subst isFalse
      change fragments.foldl add ⟨records, true, scratch ++ payload⟩ = _
      rw [ih _ rfl, append_assoc]
  cases split with
  | final _ payload => rfl
  | more _ payload rest fragments others => exact later others assembly.records payload

end Assembly

/-- The scan that goes on with the assembly ends with the given records. -/
abbrev Finds (value : Bytes -> BitVec 32) (assembly : Assembly) (reader : Reader)
    (result : List Bytes) : Prop :=
  Yields value (assembly.state reader) assembly.records result

/-- Both scans end with the same records. -/
abbrev SameScan (value : Bytes -> BitVec 32) (assembly : Assembly) (reader : Reader)
    (after : Assembly) (next : Reader) : Prop :=
  forall result, Finds value assembly reader result <-> Finds value after next result

section
variable {value : Bytes -> BitVec 32} {reader : Reader}

theorem finds_take {next : Reader} {type : Nat} {payload : Bytes}
    (physical : readPhysicalRecord value reader = (next, type, payload)) (more : type ≠ kEof)
    (assembly : Assembly) : ∃ reports, SameScan value assembly reader
      (assembly.take type payload) { next with reports := reports } := by
  rcases assembly with ⟨_, inside, scratch⟩
  have body := Eq.refl (readRecordBody value ⟨reader, inside, scratch⟩)
  conv_rhs at body => unfold readRecordBody
  rw [physical] at body
  have partial_ (reason : String) : ∃ reports,
      reportPartial ⟨reader, inside, scratch⟩ next reason = { next with reports := reports } := by
    unfold reportPartial
    split
    · exact ⟨_, rfl⟩
    · exact ⟨next.reports, rfl⟩
  dsimp only at body
  unfold Assembly.take
  by_cases full : type = 1
  · rw [if_pos full] at body ⊢
    rcases partial_ "partial record without end(1)" with ⟨reports, same⟩
    rw [same] at body
    exact ⟨reports, fun result => yields_record body⟩
  rw [if_neg full] at body ⊢
  by_cases first : type = 2
  · rw [if_pos first] at body ⊢
    rcases partial_ "partial record without end(2)" with ⟨reports, same⟩
    rw [same] at body
    exact ⟨reports, fun result => yields_again body⟩
  rw [if_neg first] at body ⊢
  by_cases middle : type = 3
  · rw [if_pos middle] at body ⊢
    cases inside with
    | true => exact ⟨next.reports, fun result => yields_again body⟩
    | false => exact ⟨_, fun result => yields_again body⟩
  rw [if_neg middle] at body ⊢
  by_cases last : type = 4
  · rw [if_pos last] at body ⊢
    cases inside with
    | true => exact ⟨next.reports, fun result => yields_record body⟩
    | false => exact ⟨_, fun result => yields_again body⟩
  rw [if_neg last, if_neg more] at body
  rw [if_neg last]
  by_cases bad : type = kBadRecord
  · rw [if_pos bad] at body ⊢
    cases inside with
    | true => exact ⟨_, fun result => yields_again body⟩
    | false => exact ⟨next.reports, fun result => yields_again body⟩
  · rw [if_neg bad] at body ⊢
    exact ⟨_, fun result => yields_again body⟩

variable {offset : Nat}

theorem ReaderAt.reported {data : Bytes} (position : ReaderAt offset data reader)
    (reports : List (Nat × String)) : ReaderAt offset data { reader with reports := reports } :=
  ⟨position.ahead, position.inBlock, position.whole, position.short⟩

theorem RecordType.toByte_ne_kEof (type : RecordType) : type.toByte.toNat ≠ kEof := by
  cases type <;> decide

variable {fragment : Fragment} {rest : Bytes}

theorem finds_fragment (position : ReaderAt offset (placed value offset fragment ++ rest) reader)
    (written : fragment.type ≠ .zeroType) (room : nextOffset offset fragment ≤ kBlockSize)
    (assembly : Assembly) :
    ∃ next, ReaderAt (nextOffset offset fragment) rest next ∧
      SameScan value assembly reader (assembly.add fragment) next := by
  rcases readPhysicalRecord_whole value position written room with ⟨_, physical, nextAt, _⟩
  rcases finds_take physical fragment.type.toByte_ne_kEof assembly with ⟨reports, same⟩
  exact ⟨_, nextAt.reported reports, same⟩

/-- The scan over written fragments folds them into the assembly. -/
theorem finds_layout {fragments : List Fragment} (fits : Fits offset fragments)
    (position : ReaderAt offset (layout value offset fragments ++ rest) reader)
    (assembly : Assembly) :
    ∃ next, ReaderAt (layoutEnd offset fragments) rest next ∧
      SameScan value assembly reader (fragments.foldl Assembly.add assembly) next := by
  induction fragments generalizing offset reader assembly with
  | nil => exact ⟨reader, position, fun _ => Iff.rfl⟩
  | cons fragment fragments ih =>
    rcases fits with ⟨written, room, later⟩
    rw [layout, append_assoc] at position
    rcases finds_fragment position written room assembly with ⟨_, nextAt, first⟩
    rcases ih later nextAt (assembly.add fragment) with ⟨last, lastAt, others⟩
    exact ⟨last, lastAt, fun result => (first result).trans (others result)⟩

/-- The scan keeps the records that it has found. -/
theorem Yields.extends {state : ReadRecordState} {records result : List Bytes}
    (yields : Yields value state records result) : ∃ more, result = records ++ more := by
  induction yields with
  | finish _ => exact ⟨[], (append_nil _).symm⟩
  | @record _ _ bytes _ _ _ _ ih =>
    rcases ih with ⟨more, same⟩
    exact ⟨bytes :: more, by rw [same, append_assoc]; rfl⟩
  | again _ _ ih => exact ih

theorem finds_eof {next : Reader} {payload : Bytes}
    (physical : readPhysicalRecord value reader = (next, kEof, payload)) (assembly : Assembly)
    (result : List Bytes) :
    Finds value assembly reader result <-> result = assembly.records := by
  have body := Eq.refl
    (readRecordBody value ⟨reader, assembly.inFragmentedRecord, assembly.scratch⟩)
  conv_rhs at body => unfold readRecordBody
  rw [physical] at body
  exact yields_finish (body.trans rfl)

theorem refilled_of_le (enough : kHeaderSize ≤ reader.buffer.length) : refilled reader = reader :=
  if_neg fun short => not_lt.mpr enough short.1

/-- One pass over a buffer with at least a header: the scan ends, drops the buffer, or
takes a physical record off it. -/
theorem finds_parse (enough : kHeaderSize ≤ reader.buffer.length) (assembly : Assembly) :
    ((∀ result, Finds value assembly reader result <-> result = assembly.records) ∧
      (reader.eof = true ∨ charToUnsigned (reader.buffer.getD 6 0) = kEof)) ∨
    (∃ next : Reader, next.buffer = [] ∧ next.file = reader.file ∧ next.eof = reader.eof ∧
      (∀ length, ¬ Taken value reader.buffer length) ∧
      SameScan value assembly reader (assembly.take kBadRecord []) next) ∨
    (∃ (next : Reader) (length type : Nat) (payload : Bytes), Taken value reader.buffer length ∧
      type = charToUnsigned (reader.buffer.getD 6 0) ∧
      payload = (reader.buffer.drop kHeaderSize).take length ∧
      next.buffer = reader.buffer.drop (kHeaderSize + length) ∧
      next.file = reader.file ∧ next.eof = reader.eof ∧
      SameScan value assembly reader (assembly.take type payload) next) := by
  have physical := readPhysicalRecord_eq value reader
  rw [refilled_of_le enough, if_neg (not_lt.mpr enough)] at physical
  rcases parsePhysicalRecord_cases value reader with
    ⟨next, parsed, atEof⟩ | ⟨next, parsed, empty, file, eof, never⟩ | ⟨length, taken, parsed⟩
  · rw [parsed] at physical
    exact Or.inl ⟨finds_eof physical assembly, Or.inl atEof⟩
  · rw [parsed] at physical
    rcases finds_take physical (by decide) assembly with ⟨reports, same⟩
    exact Or.inr (Or.inl ⟨{ next with reports := reports }, empty, file, eof, never, same⟩)
  · rw [parsed] at physical
    by_cases atEof : charToUnsigned (reader.buffer.getD 6 0) = kEof
    · rw [atEof] at physical
      exact Or.inl ⟨finds_eof physical assembly, Or.inr atEof⟩
    · rcases finds_take physical atEof assembly with ⟨reports, same⟩
      exact Or.inr (Or.inr ⟨⟨_, _, _, reports⟩, length, _, _, taken, rfl, rfl, rfl, rfl, rfl, same⟩)

theorem finds_spent (short : reader.buffer.length < kHeaderSize) (ended : reader.file = [])
    (assembly : Assembly) (result : List Bytes) :
    Finds value assembly reader result <-> result = assembly.records := by
  have still : (refilled reader).buffer.length < kHeaderSize := by
    unfold refilled
    split
    · change (reader.file.take kBlockSize).length < kHeaderSize
      rw [ended]
      decide
    · exact short
  have physical := readPhysicalRecord_eq value reader
  rw [if_pos still] at physical
  exact finds_eof physical assembly result

/-- The pass begins with the possible read. -/
theorem sameScan_refilled {other : Reader} (same : refilled reader = refilled other)
    (assembly : Assembly) : SameScan value assembly reader assembly other := by
  intro _
  have body : readRecordBody value (assembly.state reader) =
      readRecordBody value (assembly.state other) := by
    have physical : readPhysicalRecord value reader = readPhysicalRecord value other := by
      rw [readPhysicalRecord_eq, readPhysicalRecord_eq, same]
    unfold readRecordBody Assembly.state
    rw [physical]
    rfl
  rw [Finds, yields_iff, body]
  exact yields_iff.symm

/-- What is left of a block does not matter when it is less than a header. -/
theorem sameScan_refill (short : reader.buffer.length < kHeaderSize) (more : reader.eof = false)
    (assembly : Assembly) :
    SameScan value assembly reader assembly { reader with buffer := [] } := by
  apply sameScan_refilled
  unfold refilled
  rw [if_pos ⟨short, more⟩, if_pos ⟨show [].length < kHeaderSize by decide, more⟩]
  rfl

theorem refilled_refilled (reader : Reader) : refilled (refilled reader) = refilled reader := by
  by_cases short : reader.buffer.length < kHeaderSize ∧ reader.eof = false
  · rw [show refilled reader = readBlock reader from if_pos short]
    refine if_neg fun ⟨less, more⟩ => of_decide_eq_false more ?_
    exact lt_trans less (by decide)
  · rw [show refilled reader = reader from if_neg short]
    exact if_neg short

/-- The scan ends at a fragment of which only a proper front is ahead. -/
theorem finds_cut {count : Nat}
    (position : ReaderAt offset ((placed value offset fragment).take count) reader)
    (room : nextOffset offset fragment ≤ kBlockSize)
    (cut : count < (placed value offset fragment).length) (assembly : Assembly)
    (result : List Bytes) :
    Finds value assembly reader result <-> result = assembly.records := by
  rcases readPhysicalRecord_cut value position room cut with ⟨_, physical, _⟩
  exact finds_eof physical assembly result

/-- The scan over written records adds them, whatever came before. -/
theorem finds_chunks {chunks : List Chunk} (chained : Chained offset chunks)
    (position : ReaderAt offset (chunkBytes value offset chunks) reader) (assembly : Assembly)
    (result : List Bytes) : Finds value assembly reader result <->
      result = assembly.records ++ chunks.map Chunk.record := by
  induction chunks generalizing offset reader assembly with
  | nil =>
    rw [map_nil, append_nil]
    have cut : 0 < (placed value offset ⟨.fullType, []⟩).length := by
      rw [length_placed]
      unfold kHeaderSize
      omega
    have room : nextOffset offset ⟨.fullType, []⟩ ≤ kBlockSize := headerOffset_le
    exact finds_cut position room cut assembly result
  | cons chunk chunks ih =>
    rcases chained with ⟨split, fits, later⟩
    rcases finds_layout fits position assembly with ⟨_, nextAt, same⟩
    rw [same result, Assembly.foldl_fragments split, ih later nextAt, append_assoc]
    rfl

end

end Log
end Doux
