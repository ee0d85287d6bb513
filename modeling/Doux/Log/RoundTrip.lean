import Doux.Log.Reader

namespace Doux
namespace Log

open Foundation Util List

/-!
# Reading back what was written

A written log is a sequence of chunks, each the fragments of one record laid
out from the block offset at which the previous chunk ended.  `AddRecord`
appends a chunk, and the reader takes chunks off the front of the file as long
as they are there completely.  A file that is cut inside a chunk, or between
two of them, ends the log at that place, and no corruption is reported.
-/

/-- A record with the fragments that carry it. -/
structure Chunk where
  record : Bytes
  fragments : List Fragment

/-- The chunks follow each other in a log from the given block offset. -/
def Chained : Nat -> List Chunk -> Prop
  | _, [] => True
  | offset, chunk :: chunks =>
    Fragments true chunk.record chunk.fragments ∧ Fits offset chunk.fragments ∧
      Chained (layoutEnd offset chunk.fragments) chunks

section
variable (value : Bytes -> BitVec 32)

def chunkBytes : Nat -> List Chunk -> Bytes
  | _, [] => []
  | offset, chunk :: chunks =>
    layout value offset chunk.fragments ++ chunkBytes (layoutEnd offset chunk.fragments) chunks

/-- The chunks that lie completely in the first `length` bytes. -/
def chunksWithin : Nat -> List Chunk -> Nat -> List Chunk
  | _, [], _ => []
  | offset, chunk :: chunks, length =>
    if (layout value offset chunk.fragments).length ≤ length then
      chunk :: chunksWithin (layoutEnd offset chunk.fragments) chunks
        (length - (layout value offset chunk.fragments).length)
    else
      []

/-- The records with the length of the file right after each was written. -/
def recordEnds (writer : Writer) : List Bytes -> List (Bytes × Nat)
  | [] => []
  | record :: records =>
    match addRecord value writer record with
    | .ok next => (record, next.dest.length) :: recordEnds next records
    | .error _ => []

/-- The records whose last fragment lies in the first `length` bytes. -/
def recordsWithin (writer : Writer) (records : List Bytes) (length : Nat) : List Bytes :=
  ((recordEnds value writer records).filter (fun entry => entry.2 ≤ length)).map Prod.fst

variable {offset : Nat}

theorem layoutEnd_le {fragments : List Fragment} (fits : Fits offset fragments)
    (inBlock : offset ≤ kBlockSize) : layoutEnd offset fragments ≤ kBlockSize := by
  induction fragments generalizing offset with
  | nil => exact inBlock
  | cons fragment fragments ih => exact ih fits.2.2 fits.2.1

theorem addRecord_total (writer : Writer) (record : Bytes)
    (inBlock : writer.blockOffset ≤ kBlockSize) :
    ∃ next, addRecord value writer record = .ok next ∧ next.blockOffset ≤ kBlockSize := by
  rcases addRecord_layout value writer record inBlock with ⟨_, _, fits, _, added⟩
  exact ⟨_, added, layoutEnd_le fits inBlock⟩

variable (records : List Bytes)

theorem recordEnds_ge (writer : Writer) (inBlock : writer.blockOffset ≤ kBlockSize) :
    ∀ entry ∈ recordEnds value writer records, writer.dest.length ≤ entry.2 := by
  induction records generalizing writer with
  | nil => intro entry member; cases member
  | cons record records ih =>
    rcases addRecord_layout value writer record inBlock with ⟨_, _, fits, _, added⟩
    intro entry member
    rw [recordEnds, added] at member
    rcases mem_cons.mp member with head | tail
    · rw [head]
      simp only [length_append]
      omega
    · have later := ih _ (layoutEnd_le fits inBlock) entry tail
      simp only [length_append] at later
      omega

theorem recordsWithin_of_lt (writer : Writer) (length : Nat)
    (inBlock : writer.blockOffset ≤ kBlockSize) (short : length < writer.dest.length) :
    recordsWithin value writer records length = [] := by
  unfold recordsWithin
  rw [map_eq_nil_iff, filter_eq_nil_iff]
  intro entry member
  have later := recordEnds_ge value records writer inBlock entry member
  rw [decide_eq_true_iff]
  omega

theorem recordsWithin_cons (record : Bytes) (records : List Bytes) (writer next : Writer)
    (length : Nat) (added : addRecord value writer record = .ok next)
    (inBlock : next.blockOffset ≤ kBlockSize) :
    recordsWithin value writer (record :: records) length =
      if next.dest.length ≤ length then record :: recordsWithin value next records length
      else [] := by
  have ends : recordEnds value writer (record :: records) =
      (record, next.dest.length) :: recordEnds value next records := by
    rw [recordEnds, added]
  by_cases within : next.dest.length ≤ length
  · rw [if_pos within, recordsWithin, ends, filter_cons, if_pos (decide_eq_true within)]
    rfl
  · have later := recordsWithin_of_lt value records next length inBlock (by omega)
    rw [if_neg within, recordsWithin, ends, filter_cons,
      if_neg (fun holds => within (of_decide_eq_true holds))]
    exact later

/-- The writer appends a chunk for every record.  A record counts as written in
a front of the file when its chunk lies in that front. -/
theorem addRecords_chunks (writer : Writer) (inBlock : writer.blockOffset ≤ kBlockSize) :
    ∃ chunks finish, finish ≤ kBlockSize ∧ chunks.map Chunk.record = records ∧
      Chained writer.blockOffset chunks ∧
      Sequenced false writer.blockOffset (chunks.flatMap Chunk.fragments) ∧
      addRecords value writer records =
        .ok ⟨writer.dest ++ chunkBytes value writer.blockOffset chunks, finish⟩ ∧
      ∀ length, recordsWithin value writer records (writer.dest.length + length) =
        (chunksWithin value writer.blockOffset chunks length).map Chunk.record := by
  induction records generalizing writer with
  | nil =>
    refine ⟨[], writer.blockOffset, inBlock, rfl, trivial, trivial, ?_, fun _ => rfl⟩
    rw [addRecords, chunkBytes, append_nil]
  | cons record records ih =>
    rcases addRecord_layout value writer record inBlock with
      ⟨fragments, split, fits, sequenced, added⟩
    have nextInBlock := layoutEnd_le fits inBlock
    rcases ih ⟨writer.dest ++ layout value writer.blockOffset fragments,
        layoutEnd writer.blockOffset fragments⟩ nextInBlock with
      ⟨chunks, finish, finishInBlock, recordsEq, chained, laterSequenced, laterAdded, within⟩
    refine ⟨⟨record, fragments⟩ :: chunks, finish, finishInBlock, ?_, ⟨split, fits, chained⟩,
      split.sequenced_append sequenced laterSequenced, ?_, ?_⟩
    · rw [map_cons, recordsEq]
    · rw [addRecords, added, chunkBytes]
      change addRecords value _ records = _
      rw [laterAdded, append_assoc]
    · intro length
      rw [recordsWithin_cons value record records writer _ _ added nextInBlock, chunksWithin]
      simp only [length_append, Nat.add_le_add_iff_left]
      by_cases inside : (layout value writer.blockOffset fragments).length ≤ length
      · rw [if_pos inside, if_pos inside, map_cons, <- within]
        simp only [length_append]
        rw [Nat.add_assoc, Nat.add_sub_cancel' inside]
      · rw [if_neg inside, if_neg inside, map_nil]

theorem Fragments.layout_pos {begin : Bool} {record : Bytes} {fragments : List Fragment}
    (split : Fragments begin record fragments) (offset : Nat) :
    0 < (layout value offset fragments).length := by
  cases split with
  | final payload =>
    rw [layout, layout, append_nil, length_placed]
    unfold kHeaderSize
    omega
  | more payload later fragments _ =>
    rw [layout, length_append, length_placed]
    unfold kHeaderSize
    omega

theorem readRecord_front {offset length : Nat} {chunk : Chunk}
    (split : Fragments true chunk.record chunk.fragments) (fits : Fits offset chunk.fragments)
    {rest : Bytes} {reader : Reader} (position : ReaderAt offset
      ((layout value offset chunk.fragments ++ rest).take length) reader) :
    ∃ next, next.reports = reader.reports ∧
      if (layout value offset chunk.fragments).length ≤ length then
        readRecord value reader = some (next, some chunk.record) ∧
          ReaderAt (layoutEnd offset chunk.fragments)
            (rest.take (length - (layout value offset chunk.fragments).length)) next
      else readRecord value reader = some (next, none) := by
  rcases readRecordBody_front value split offset fits rest length ⟨reader, false, []⟩ position
      rfl (fun _ => rfl) with ⟨_, _, next, bound, passes, reports, leaves⟩
  rw [<- position.ahead, length_append] at bound
  refine ⟨next, reports, ?_⟩
  split_ifs at leaves ⊢
  · exact ⟨passes.returns leaves.1 (Nat.lt_succ_of_le bound), leaves.2⟩
  · exact passes.returns leaves (Nat.lt_succ_of_le bound)

theorem readRecord_end {reader : Reader} (position : ReaderAt offset [] reader) :
    ∃ next, readRecord value reader = some (next, none) ∧ next.reports = reader.reports := by
  have fits : Fits offset [⟨.fullType, []⟩] :=
    ⟨by decide, headerOffset_le, trivial⟩
  have split : Fragments true (Chunk.mk [] [⟨.fullType, []⟩]).record [⟨.fullType, []⟩] :=
    Fragments.final true []
  rcases @readRecord_front value offset 0 _ split fits [] reader position with
    ⟨next, reports, read⟩
  rw [if_neg (not_le.mpr (split.layout_pos value offset))] at read
  exact ⟨next, read, reports⟩

theorem chunksWithin_all (chunks : List Chunk) (offset length : Nat)
    (enough : (chunkBytes value offset chunks).length ≤ length) :
    chunksWithin value offset chunks length = chunks := by
  induction chunks generalizing offset length with
  | nil => rfl
  | cons chunk chunks ih =>
    rw [chunkBytes, length_append] at enough
    rw [chunksWithin, if_pos (by omega), ih _ _ (by omega)]

theorem chunksWithin_front (chunks : List Chunk) (offset length : Nat) :
    chunksWithin value offset chunks length <+: chunks := by
  induction chunks generalizing offset length with
  | nil => exact nil_prefix
  | cons chunk chunks ih =>
    rw [chunksWithin]
    split
    · exact (prefix_cons_inj chunk).mpr (ih _ _)
    · exact nil_prefix

theorem headerOffset_kBlockSize : headerOffset kBlockSize = headerOffset 0 := by
  decide

theorem trailer_kBlockSize : trailer kBlockSize = trailer 0 := by
  decide

variable {chunks : List Chunk}

section
variable {first second : Nat} {zeros : Bytes} (same : headerOffset first = headerOffset second)
  (bytes : trailer first = zeros ++ trailer second)
include same bytes

/-- Offsets with the same next header differ in the zeros before it. -/
theorem layout_shift (fragment : Fragment) (fragments : List Fragment) :
    layout value first (fragment :: fragments) =
        zeros ++ layout value second (fragment :: fragments) ∧
      layoutEnd first (fragment :: fragments) = layoutEnd second (fragment :: fragments) ∧
      (Fits first (fragment :: fragments) <-> Fits second (fragment :: fragments)) := by
  have next : nextOffset first fragment = nextOffset second fragment := by
    unfold nextOffset
    rw [same]
  refine ⟨?_, ?_, ?_⟩
  · rw [layout, layout, next]
    unfold placed
    simp only [bytes, append_assoc]
  · rw [layoutEnd, layoutEnd, next]
  · rw [Fits, Fits, next]

theorem Chained.shift {chunk : Chunk} (split : Fragments true chunk.record chunk.fragments) :
    (Chained first (chunk :: chunks) <-> Chained second (chunk :: chunks)) ∧
      chunkBytes value first (chunk :: chunks) =
        zeros ++ chunkBytes value second (chunk :: chunks) := by
  rcases chunk with ⟨_, fragments⟩
  cases fragments with
  | nil => cases split
  | cons fragment fragments =>
    rcases layout_shift value same bytes fragment fragments with ⟨layoutEq, finish, fits⟩
    refine ⟨?_, ?_⟩
    · rw [Chained, Chained, fits, finish]
    · rw [chunkBytes, chunkBytes, layoutEq, finish, append_assoc]

end

/-- The reader starts as at the end of a block, the writer at the beginning. -/
theorem Chained.kBlockSize (chained : Chained 0 chunks) :
    Chained kBlockSize chunks ∧ chunkBytes value Log.kBlockSize chunks = chunkBytes value 0 chunks ∧
      chunksWithin value Log.kBlockSize chunks = chunksWithin value 0 chunks := by
  cases chunks with
  | nil => exact ⟨trivial, rfl, rfl⟩
  | cons chunk chunks =>
    rcases chunk with ⟨_, fragments⟩
    rcases chained with ⟨split, fits, later⟩
    cases fragments with
    | nil => cases split
    | cons fragment fragments =>
      have bytes : trailer Log.kBlockSize = [] ++ trailer 0 := trailer_kBlockSize
      rcases layout_shift value headerOffset_kBlockSize bytes fragment fragments with
        ⟨bytes, finish, still⟩
      rw [nil_append] at bytes
      refine ⟨⟨split, still.mpr fits, ?_⟩, ?_, ?_⟩
      · exact later
      · rw [chunkBytes, chunkBytes, bytes, finish]
      · funext length
        rw [chunksWithin, chunksWithin, bytes, finish]

theorem readerAt_start (file : Bytes) : ReaderAt kBlockSize file ⟨file, [], false, []⟩ := by
  refine ⟨rfl, le_refl _, fun _ => ?_, fun impossible => by cases impossible⟩
  rw [Nat.sub_self]
  rfl

section
variable {σ ε ρ : Type} (visit : σ -> Bytes -> Except ε σ) (result : Except ε σ -> ρ)
  {body : Reader × σ -> LoopStep (Reader × σ) ρ}

/-- The loop visits what `ReadRecord` returns, unless a corruption is reported. -/
def Visits (body : Reader × σ -> LoopStep (Reader × σ) ρ) : Prop :=
  forall reader state next found, readRecord value reader = some (next, found) ->
    next.reports = [] -> body (reader, state) = match found.map (visit state) with
      | none => .done (result (.ok state))
      | some (.error failure) => .done (result (.error failure))
      | some (.ok after) => .again (next, after)

variable {value visit result} (visits : Visits value visit result body)
include visits

/-- A loop over `ReadRecord` visits the chunks that lie in a front of the log, then stops. -/
theorem Visits.passes_chunks (chunks : List Chunk) (offset length : Nat)
    (chained : Chained offset chunks) (reader : Reader)
    (position : ReaderAt offset ((chunkBytes value offset chunks).take length) reader)
    (clean : reader.reports = []) (state : σ) :
    ∃ count last, count ≤ ((chunkBytes value offset chunks).take length).length ∧
      Passes body count (reader, state) last ∧ body last = .done (result
        (((chunksWithin value offset chunks length).map Chunk.record).foldlM visit state)) := by
  induction chunks generalizing offset length reader state with
  | nil =>
    rw [chunkBytes, take_nil] at position
    rcases readRecord_end value position with ⟨next, read, reports⟩
    exact ⟨0, _, Nat.zero_le _, Passes.zero _, visits _ _ _ _ read (reports.trans clean)⟩
  | cons chunk chunks ih =>
    rcases chained with ⟨split, fits, later⟩
    have positive := split.layout_pos value offset
    rcases readRecord_front value split fits position with ⟨next, reports, read⟩
    rw [chunksWithin]
    split_ifs at read ⊢ with inside
    · have pass := visits reader state next _ read.1 (reports.trans clean)
      rw [map_cons, foldlM_cons]
      cases used : visit state chunk.record with
      | error failure =>
        simp only [Option.map_some, used] at pass
        exact ⟨0, _, Nat.zero_le _, Passes.zero _, pass⟩
      | ok after =>
        simp only [Option.map_some, used] at pass
        rcases ih _ _ later next read.2 (reports.trans clean) after with
          ⟨count, last, _, passes, leaves⟩
        refine ⟨1 + count, last, ?_, (Passes.one pass).trans passes, leaves⟩
        rw [chunkBytes, take_append, take_of_length_le inside, length_append]
        omega
    · exact ⟨0, _, Nat.zero_le _, Passes.zero _, visits _ _ _ _ read (reports.trans clean)⟩

theorem Visits.runLoop_chunks (chained : Chained 0 chunks) (length : Nat) (state : σ) :
    runLoop body (((chunkBytes value 0 chunks).take length).length + 1)
        (⟨(chunkBytes value 0 chunks).take length, [], false, []⟩, state) =
      some (result
        (((chunksWithin value 0 chunks length).map Chunk.record).foldlM visit state)) := by
  rcases chained.kBlockSize value with ⟨chained, bytes, within⟩
  rw [<- bytes, <- within]
  rcases visits.passes_chunks chunks kBlockSize length chained _
      (readerAt_start _) rfl state with ⟨_, _, bound, passes, leaves⟩
  exact passes.returns leaves (Nat.lt_succ_of_le bound)

end

theorem readLog_chunks (chunks : List Chunk) (chained : Chained 0 chunks) (length : Nat) :
    readLog value ((chunkBytes value 0 chunks).take length) =
      some ((chunksWithin value 0 chunks length).map Chunk.record, []) := by
  have visits : Visits value (fun records record => pure (records ++ [record]))
      (fun outcome : Except Empty _ => outcome.toOption.map (·, [])) (readRecordsBody value) := by
    intro _ records _ found read clean
    cases found with
    | none => simp [readRecordsBody, read, clean, Except.toOption]
    | some record => simp [readRecordsBody, read, pure, Except.pure]
  unfold readLog
  rw [visits.runLoop_chunks chained, foldlM_pure, foldl_append_eq_append, <- flatMap_def,
    flatMap_singleton', nil_append]
  rfl

variable {records : List Bytes} {writer : Writer}

section
variable (added : addRecords value ⟨[], 0⟩ records = .ok writer)
include added

theorem chunks_of_addRecords : ∃ chunks, Chained 0 chunks ∧
      writer.dest = chunkBytes value 0 chunks ∧ chunks.map Chunk.record = records ∧
      chunksWithin value 0 chunks writer.dest.length = chunks ∧ ∀ length,
        recordsWithin value ⟨[], 0⟩ records length =
          (chunksWithin value 0 chunks length).map Chunk.record := by
  rcases addRecords_chunks value records ⟨[], 0⟩ (Nat.zero_le _) with
    ⟨chunks, _, _, recordsEq, chained, _, written, within⟩
  rw [added] at written
  cases written
  refine ⟨chunks, chained, rfl, recordsEq, chunksWithin_all value chunks 0 _ (le_refl _), ?_⟩
  intro length
  have front := within length
  rwa [length_nil, zero_add] at front

/-- A file written record by record and cut to any length reads back as the records inside. -/
theorem readLog_take_of_addRecords (length : Nat) : readLog value (writer.dest.take length) =
      some (recordsWithin value ⟨[], 0⟩ records length, []) := by
  rcases chunks_of_addRecords value added with ⟨chunks, chained, dest, _, _, within⟩
  rw [dest, within]
  exact readLog_chunks value chunks chained length

theorem readLog_of_addRecords : readLog value writer.dest = some (records, []) := by
  rcases chunks_of_addRecords value added with ⟨_, _, _, recordsEq, all, within⟩
  have read := readLog_take_of_addRecords value added writer.dest.length
  rwa [take_length, within, all, recordsEq] at read

end

theorem visitLog_of_addRecords {σ ε : Type} (report : Nat × String -> ε)
    (visit : σ -> Bytes -> Except ε σ)
    (added : addRecords value ⟨[], 0⟩ records = .ok writer) (start : σ) :
    visitLog value report visit writer.dest start = some (records.foldlM visit start) := by
  rcases chunks_of_addRecords value added with ⟨_, chained, dest, recordsEq, all, _⟩
  have visits : Visits value visit some (visitBody value report visit) := by
    intro _ state _ found read clean
    cases found with
    | none => simp [visitBody, read, clean]
    | some record => cases used : visit state record <;> simp [visitBody, read, clean, used]
  have run := visits.runLoop_chunks chained writer.dest.length start
  rw [all, recordsEq, <- dest, take_length] at run
  unfold visitLog
  rw [run]
  rfl

/-- Writing never fails, the whole file reads back as the records, and a file
cut to any length reads back as the records that were written completely inside
it; no corruption is reported. -/
theorem readLog_truncated (records : List Bytes) :
    ∃ writer, addRecords value ⟨[], 0⟩ records = .ok writer ∧
      readLog value writer.dest = some (records, []) ∧
      forall length, readLog value (writer.dest.take length) =
        some (recordsWithin value ⟨[], 0⟩ records length, []) := by
  rcases addRecords_chunks value records ⟨[], 0⟩ (Nat.zero_le _) with
    ⟨_, _, _, _, _, _, written, _⟩
  exact ⟨_, written, readLog_of_addRecords value written, readLog_take_of_addRecords value written⟩

end

end Log
end Doux
