import Doux.Db.Install

namespace Doux
namespace Db

open Foundation Util Table List

/-!
# A compaction in progress

While a compaction reads its inputs, memtables may be flushed.  The files of the
version from which the compaction was chosen all stay, and what is added is at level
zero and newer.  So the choice still suits the files when the compaction ends.

`Working` is the invariant of a running compaction.  It says what the loop has done so
far by the entries it has read, and that the numbers of its output files are used by
nobody else.
-/

theorem writeTables_of_not_mem (tables : Nat -> List Entry) {written : List (Nat × List Entry)}
    {number : Nat} (unused : number ∉ written.map Prod.fst) :
    writeTables tables written number = tables number :=
  foldl_update_of_not_mem tables unused

theorem writeTables_of_mem (tables : Nat -> List Entry) {written : List (Nat × List Entry)}
    (distinct : (written.map Prod.fst).Nodup) {table : Nat × List Entry}
    (member : table ∈ written) : writeTables tables written table.1 = table.2 :=
  foldl_update_of_mem tables distinct member

theorem Walk.opened_finishOutput (walk : Walk) : walk.finishOutput.opened = walk.opened := by
  unfold opened finishOutput
  rw [length_append]
  rfl

theorem Walk.length_outputs_finishOutput (walk : Walk) :
    walk.finishOutput.outputs.length = walk.opened :=
  length_append

section
variable [LinearOrder UserKey]

/-- The metadata that `describe` gives for a table with entries. -/
def outputFile (sizes : TableSizes) (table : Nat × List Entry) : KeyFile :=
  match table.2 with
  | [] => ⟨table.1, 0, ⟨⟨[]⟩, 0⟩, ⟨⟨[]⟩, 0⟩⟩
  | first :: rest =>
    ⟨table.1, sizes.finished (first :: rest), first.key, (rest.getLastD first).key⟩

variable (sizes : TableSizes)

omit [LinearOrder UserKey] in
theorem outputFile_number (table : Nat × List Entry) :
    (outputFile sizes table).number = table.1 := by
  rcases table with ⟨_, _ | ⟨_, _⟩⟩ <;> rfl

omit [LinearOrder UserKey] in
theorem mapM_describe (written : List (Nat × List Entry)) (files : List KeyFile) :
    written.mapM (fun table => describe table.1 (sizes.finished table.2) table.2) = .ok files <->
      files = written.map (outputFile sizes) ∧ ∀ table ∈ written, table.2 ≠ [] := by
  refine mapM_eq_ok (fun table file => ?_) written files
  rcases table with ⟨_, _ | ⟨_, _⟩⟩
  · simp [describe]
  · simp [describe, outputFile, eq_comm]

theorem describes_outputFile {table : Nat × List Entry}
    (nonempty : table.2 ≠ []) (increasing : InKeyOrder table.2)
    (parse : ∀ entry ∈ table.2, entry.key.type.isSome) :
    Describes (outputFile sizes table) table.2 := by
  rcases table with ⟨_, _ | ⟨_, _⟩⟩
  · exact absurd rfl nonempty
  · refine ⟨increasing, parse, rfl, ?_⟩
    rw [getLast?_cons, <- getLastD_eq_getLast?]
    rfl

variable {compaction : Compaction}

/-- An output file stays open or becomes a finished one. -/
theorem Walk.opened_le_step {sizes : TableSizes} {options : Options}
    {smallestSnapshot : Nat} {walk next : Walk} {entry : Entry}
    (stepped : walk.step sizes options compaction smallestSnapshot entry = .ok next) :
    walk.opened ≤ next.opened := by
  have stopped : (walk.stopBefore options compaction entry.key).opened = walk.opened := by
    unfold stopBefore
    dsimp only
    split
    · exact walk.opened_finishOutput
    · rfl
  unfold step at stepped
  dsimp only at stepped
  split at stepped
  · cases stepped
    exact le_of_eq stopped.symm
  · rcases bind_eq_ok.mp stepped with ⟨entries, _, finish⟩
    rw [<- stopped]
    generalize walk.stopBefore options compaction entry.key = before at finish ⊢
    have grows (drop : DropState) : before.opened ≤
        Walk.opened ⟨drop, before.stop, before.outputs, some entries⟩ := by
      unfold Walk.opened
      cases before.builder <;> simp
    cases finish
    split
    · exact le_trans (grows _) (le_of_eq (Walk.opened_finishOutput _).symm)
    · exact grows _

theorem Layered.congr_tables {files : Nat -> List KeyFile} {tables newTables : Nat -> List Entry}
    (layered : Layered files tables)
    (same : ∀ level, ∀ file ∈ files level, newTables file.number = tables file.number) :
    Layered files newTables := by
  have inLevel {level : Nat} {entry : Entry} (member : InLevel files newTables level entry) :
      InLevel files tables level entry := by
    rcases member with ⟨file, isFile, inFile⟩
    rw [same level file isFile] at inFile
    exact ⟨file, isFile, inFile⟩
  refine { layered with described := ?_, newestFirst := ?_, layers := ?_, identified := ?_ }
  · intro level file member
    rw [same level file member]
    exact layered.described level file member
  · intro file inFirst other inSecond
    rw [same 0 file inFirst, same 0 other inSecond]
    exact layered.newestFirst file inFirst other inSecond
  · intro upper lower above file inUpper other inLower
    rw [same upper file inUpper, same lower other inLower]
    exact layered.layers upper lower above file inUpper other inLower
  · intro level first second inFirst inSecond
    exact layered.identified level first second (inLevel inFirst) (inLevel inSecond)

theorem Compaction.inputEntries_congr {tables newTables : Nat -> List Entry}
    (same : ∀ level file, compaction.IsInput level file ->
      newTables file.number = tables file.number) :
    compaction.inputEntries newTables = compaction.inputEntries tables := by
  have iterators (level : Nat) (inputs : List KeyFile)
      (inside : ∀ file ∈ inputs, newTables file.number = tables file.number) :
      inputIterators newTables level inputs = inputIterators tables level inputs := by
    unfold inputIterators
    split
    · exact map_congr_left inside
    · exact congrArg (fun list => [list]) (flatMap_congr inside)
  unfold inputEntries
  rw [iterators _ _ (fun file member => same _ file (Or.inl ⟨rfl, member⟩)),
    iterators _ _ (fun file member => same _ file (Or.inr ⟨rfl, member⟩))]

/-- The state of a running compaction. -/
structure Working (config : Config) (db : Database) (work : Compacting) : Prop where
  complete : work.compaction.Complete work.compaction.inputFiles
  base : Layered work.compaction.inputFiles db.tables
  unchanged : forall level, level > 0 -> db.current.files level = work.compaction.inputFiles level
  grown : ∀ file ∈ work.compaction.inputFiles 0, file ∈ db.current.files 0
  newer : ∀ file ∈ db.current.files 0, file ∉ work.compaction.inputFiles 0 -> forall level,
    ∀ old ∈ work.compaction.inputFiles level,
      entryVersions.Older (db.tables old.number) (db.tables file.number)
  snapshot : work.smallestSnapshot ≤ db.smallestSnapshot
  bounded : work.smallestSnapshot < kMaxSequenceNumber
  progress : ∃ seen, work.compaction.inputEntries db.tables = seen ++ work.remaining ∧
    seen.foldlM (Walk.step config.sizes config.options work.compaction work.smallestSnapshot)
      .start = .ok work.walk
  opened : work.numbers.length = work.walk.opened
  distinct : work.numbers.Nodup
  unused : ∀ number ∈ work.numbers, number < db.nextFileNumber ∧
    forall level, ∀ file ∈ db.current.files level, file.number ≠ number

namespace Working

variable {config : Config} {db next : Database} {work : Compacting}
  (working : Working config db work)
include working

theorem mem_current {level : Nat} {file : KeyFile}
    (member : file ∈ work.compaction.inputFiles level) : file ∈ db.current.files level := by
  by_cases zero : level = 0
  · subst zero
    exact working.grown file member
  · rw [working.unchanged level (pos_of_ne_zero zero)]
    exact member

/-- The choice suits the current files as it did those it was made from. -/
theorem fits : work.compaction.Fits db.current.files db.tables where
  below := working.complete.below
  inputs := fun level file isInput => working.mem_current (working.complete.mem_files isInput)
  upper := by
    intro input isInput file member left
    by_cases inBase : file ∈ work.compaction.inputFiles work.compaction.level
    · exact working.complete.upper_newer working.base isInput inBase left
    · have zero : work.compaction.level = 0 := by
        by_contra positive
        rw [working.unchanged _ (pos_of_ne_zero positive)] at member
        exact inBase member
      rw [zero] at member inBase
      exact working.newer file member inBase _ input (working.complete.chosen.subset input isInput)
  lower := by
    intro _ member left
    rw [working.unchanged _ (Nat.succ_pos _)] at member
    exact working.complete.lower_beside working.base member left

/-- Actions that do not touch the files leave a compaction alone. -/
theorem congr (current : next.current = db.current)
    (tables : ∀ level, ∀ file ∈ db.current.files level,
      next.tables file.number = db.tables file.number)
    (snapshots : db.smallestSnapshot ≤ next.smallestSnapshot)
    (numbers : db.nextFileNumber ≤ next.nextFileNumber) : Working config next work where
  complete := working.complete
  base := working.base.congr_tables (fun level file member =>
    tables level file (working.mem_current member))
  unchanged := by
    rw [current]
    exact working.unchanged
  grown := by
    rw [current]
    exact working.grown
  newer := by
    rw [current]
    intro file member new level old isOld
    rw [tables 0 file member, tables level old (working.mem_current isOld)]
    exact working.newer file member new level old isOld
  snapshot := le_trans working.snapshot snapshots
  bounded := working.bounded
  progress := by
    rw [Compaction.inputEntries_congr (fun level file isInput =>
      tables level file (working.mem_current (working.complete.mem_files isInput)))]
    exact working.progress
  opened := working.opened
  distinct := working.distinct
  unused := by
    rw [current]
    intro number member
    exact ⟨lt_of_lt_of_le (working.unused number member).1 numbers,
      (working.unused number member).2⟩

theorem entry {entry : Entry} {remaining : List Entry} {walk : Walk}
    (isNext : work.remaining = entry :: remaining)
    (stepped : work.walk.step config.sizes config.options work.compaction work.smallestSnapshot
      entry = .ok walk)
    (current : next.current = db.current) (tables : next.tables = db.tables)
    (snapshots : next.smallestSnapshot = db.smallestSnapshot)
    (numbers : next.nextFileNumber = db.nextFileNumber + (walk.opened - work.walk.opened))
    (known : ∀ level, ∀ file ∈ db.current.files level, file.number < db.nextFileNumber) :
    Working config next { work with
      remaining := remaining
      walk := walk
      numbers := work.numbers ++
        List.range' db.nextFileNumber (walk.opened - work.walk.opened) } := by
  have same := working.congr current (fun _ file _ => congrFun tables file.number)
    (le_of_eq snapshots.symm) (by omega)
  have grows := Walk.opened_le_step stepped
  refine { same with progress := ?_, opened := ?_, distinct := ?_, unused := ?_ }
  · rcases same.progress with ⟨seen, split, run⟩
    rw [isNext, append_cons] at split
    exact ⟨seen ++ [entry], split, foldlM_concat_eq_ok.mpr ⟨_, run, stepped⟩⟩
  · change _ = walk.opened
    rw [length_append, length_range', working.opened]
    omega
  · refine nodup_append.mpr ⟨working.distinct, nodup_range', ?_⟩
    rintro number old _ new rfl
    have below := (working.unused number old).1
    have above := (mem_range'_1.mp new).1
    omega
  · intro number member
    rcases mem_append.mp member with old | new
    · exact same.unused number old
    · rcases mem_range'_1.mp new with ⟨above, _⟩
      refine ⟨by omega, fun level file isFile => ?_⟩
      rw [current] at isFile
      exact ne_of_lt (lt_of_lt_of_le (known level file isFile) above)

theorem flush {number : Nat} {entries : List Entry} {file : KeyFile}
    (isNumber : file.number = number)
    (fresh : ∀ level, ∀ old ∈ db.current.files level, old.number < number)
    (unopened : ∀ opened ∈ work.numbers, opened < number)
    (newEntries : ∀ level old, InLevel db.current.files db.tables level old ->
      ∀ entry ∈ entries, old.key.sequence < entry.key.sequence)
    (zero : ∀ other, other ∈ next.current.files 0 <-> other ∈ db.current.files 0 ∨ other = file)
    (others : ∀ level, level ≠ 0 -> next.current.files level = db.current.files level)
    (tables : next.tables = Function.update db.tables number entries)
    (snapshots : next.smallestSnapshot = db.smallestSnapshot)
    (numbers : db.nextFileNumber ≤ next.nextFileNumber) : Working config next work := by
  have old {level : Nat} {other : KeyFile} (member : other ∈ db.current.files level) :
      next.tables other.number = db.tables other.number := by
    rw [tables]
    exact Function.update_of_ne (ne_of_lt (fresh level other member)) _ _
  have oldBase (level : Nat) (other : KeyFile) (member : other ∈ work.compaction.inputFiles level) :
      next.tables other.number = db.tables other.number :=
    old (working.mem_current member)
  refine { working with
    base := working.base.congr_tables oldBase
    unchanged := fun level positive =>
      (others level (ne_of_gt positive)).trans (working.unchanged level positive)
    grown := fun other member => (zero other).mpr (Or.inl (working.grown other member))
    newer := ?newer, snapshot := snapshots ▸ working.snapshot, progress := ?progress
    unused := ?unused }
  case newer =>
    intro other member left level base inBase
    rw [oldBase level base inBase]
    rcases (zero other).mp member with stays | rfl
    · rw [old stays]
      exact working.newer other stays left level base inBase
    · rw [tables, isNumber, Function.update_self]
      exact fun a inOld b inNew _ =>
        newEntries level a ⟨base, working.mem_current inBase, inOld⟩ b inNew
  case progress =>
    rw [Compaction.inputEntries_congr (fun level input isInput =>
      oldBase level input (working.complete.mem_files isInput))]
    exact working.progress
  case unused =>
    intro opened member
    refine ⟨lt_of_lt_of_le (working.unused opened member).1 numbers, fun level other isFile => ?_⟩
    rcases (mem_flushed zero others).mp isFile with stays | ⟨_, rfl⟩
    · exact (working.unused opened member).2 level other stays
    · rw [isNumber]
      exact ne_of_gt (unopened opened member)

end Working

theorem Working.start {config : Config} {db : Database}
    (layered : Layered db.current.files db.tables) (complete : compaction.Complete db.current.files)
    (bounded : db.smallestSnapshot < kMaxSequenceNumber) :
    Working config db ⟨compaction, db.smallestSnapshot, compaction.inputEntries db.tables,
      .start, []⟩ := by
  have base := complete.inputFiles
  constructor
  case complete =>
    rw [base]
    exact complete
  case base =>
    rw [base]
    exact layered
  case unchanged => exact fun level _ => (congrFun base level).symm
  case grown =>
    intro _ member
    exact congrFun base 0 ▸ member
  case newer =>
    intro _ member left
    exact absurd (congrFun base 0 ▸ member) left
  case snapshot => exact le_refl _
  case bounded => exact bounded
  case progress => exact ⟨[], rfl, rfl⟩
  case opened => rfl
  case distinct => exact nodup_nil
  case unused => exact nofun

/-! ## The end of a compaction -/

/-- The output files of a compaction with their numbers. -/
def Compacting.written (work : Compacting) : List (Nat × List Entry) :=
  work.numbers.zip work.walk.finishOutput.outputs

section Written
variable {files : Nat -> List KeyFile} {tables : Nat -> List Entry} {compaction : Compaction}
  (sizes : TableSizes) {written : List (Nat × List Entry)}
  (nodup : (written.map Prod.fst).Nodup)
include nodup

omit [LinearOrder UserKey] in
theorem exists_output_iff {entry : Entry} : (∃ output ∈ written.map (outputFile sizes),
        entry ∈ writeTables tables written output.number) <->
      entry ∈ (written.map Prod.snd).flatten := by
  constructor
  · rintro ⟨_, isOutput, inTable⟩
    rcases mem_map.mp isOutput with ⟨table, isTable, rfl⟩
    rw [outputFile_number, writeTables_of_mem _ nodup isTable] at inTable
    exact mem_flatten.mpr ⟨table.2, mem_map_of_mem isTable, inTable⟩
  · intro member
    rcases mem_flatten.mp member with ⟨_, isEntries, inTable⟩
    rcases mem_map.mp isEntries with ⟨_, isTable, rfl⟩
    refine ⟨_, mem_map_of_mem isTable, ?_⟩
    rw [outputFile_number, writeTables_of_mem _ nodup isTable]
    exact inTable

theorem results_of_written (increasing : InKeyOrder (compaction.inputEntries tables))
    (parses : ∀ entry ∈ compaction.inputEntries tables, entry.key.type.isSome)
    (kept : (written.map Prod.snd).flatten.Sublist (compaction.inputEntries tables))
    (filled : ∀ table ∈ written, table.2 ≠ [])
    (unused : ∀ table ∈ written, ∀ level, ∀ file ∈ files level, file.number ≠ table.1) :
    compaction.Results files tables (written.map (outputFile sizes))
      (writeTables tables written) := by
  have table_eq {table : Nat × List Entry} (member : table ∈ written) :
      writeTables tables written (outputFile sizes table).number = table.2 := by
    rw [outputFile_number]
    exact writeTables_of_mem _ nodup member
  have inInputs {table : Nat × List Entry} (member : table ∈ written) :
      table.2 ⊆ compaction.inputEntries tables := fun entry inTable =>
    kept.subset (mem_flatten.mpr ⟨table.2, mem_map_of_mem member, inTable⟩)
  rcases pairwise_flatten.mp (increasing.sublist kept) with ⟨each, between⟩
  have describes {table : Nat × List Entry} (member : table ∈ written) :
      Describes (outputFile sizes table) table.2 :=
    describes_outputFile sizes (filled table member) (each table.2 (mem_map_of_mem member))
      (fun entry inTable => parses entry (inInputs member inTable))
  constructor
  case kept =>
    intro level file isFile _
    refine writeTables_of_not_mem _ ?_
    intro member
    rcases mem_map.mp member with ⟨table, isTable, same⟩
    exact unused table isTable level file isFile same.symm
  case described =>
    intro output isOutput
    rcases mem_map.mp isOutput with ⟨table, isTable, rfl⟩
    rw [table_eq isTable]
    exact describes isTable
  case ordered =>
    rw [pairwise_map] at between ⊢
    refine List.Pairwise.imp_of_mem ?_ between
    intro first second inFirst inSecond less
    rcases Option.map_eq_some_iff.mp (describes inFirst).largest with ⟨last, isLast, sameLast⟩
    rcases (describes inSecond).exists_smallest with ⟨head, isHead, sameHead⟩
    change (outputFile sizes first).largest < (outputFile sizes second).smallest
    rw [<- sameLast, <- sameHead]
    exact less last (mem_of_getLast? isLast) head isHead
  case sources =>
    intro output isOutput
    rcases mem_map.mp isOutput with ⟨table, isTable, rfl⟩
    rw [table_eq isTable]
    exact inInputs isTable
  case fresh =>
    intro output isOutput level file isFile same
    rcases mem_map.mp isOutput with ⟨table, isTable, rfl⟩
    rw [outputFile_number] at same
    exact absurd same.symm (unused table isTable level file isFile)
  case numbers =>
    intro _ isOutput _ isOther same
    rcases mem_map.mp isOutput with ⟨_, isTable, rfl⟩
    rcases mem_map.mp isOther with ⟨_, isOtherTable, rfl⟩
    rw [outputFile_number, outputFile_number] at same
    rw [inj_on_of_nodup_map nodup isTable isOtherTable same]

end Written

namespace Working

variable {config : Config} {db : Database} {work : Compacting} (working : Working config db work)
include working

theorem increasing : InKeyOrder (work.compaction.inputEntries db.tables) :=
  working.complete.inputEntries_increasing working.base

theorem parses : ∀ entry ∈ work.compaction.inputEntries db.tables, entry.key.type.isSome := by
  intro entry member
  rcases Compaction.mem_inputEntries.mp member with ⟨level, input, isInput, inInput⟩
  exact (working.base.described level input (working.complete.mem_files isInput)).parses entry
    inInput

theorem map_fst_written : work.written.map Prod.fst = work.numbers := by
  refine map_fst_zip (le_of_eq ?_)
  rw [Walk.length_outputs_finishOutput]
  exact working.opened

theorem map_snd_written : work.written.map Prod.snd = work.walk.finishOutput.outputs := by
  refine map_snd_zip (le_of_eq ?_)
  rw [Walk.length_outputs_finishOutput]
  exact working.opened.symm

theorem flatten_written (finished : work.remaining = []) :
    (work.written.map Prod.snd).flatten = (work.compaction.inputEntries db.tables).filter
        (fun entry => ¬ (Shadowed work.smallestSnapshot
          (work.compaction.inputEntries db.tables) entry ∨
            Obsolete work.compaction work.smallestSnapshot entry)) ∧
      ∀ table ∈ work.written, table.2 ≠ [] := by
  rcases working.progress with ⟨_, split, run⟩
  rw [finished, append_nil] at split
  rw [<- split] at run
  have outputs : work.compaction.outputEntries config.sizes config.options db.tables
      work.smallestSnapshot = .ok work.walk.finishOutput.outputs :=
    bind_eq_ok.mpr ⟨work.walk, run, rfl⟩
  rcases outputEntries_spec outputs with ⟨kept, filled⟩
  rw [working.map_snd_written, kept]
  refine ⟨?_, fun table member => filled table.2 ?_⟩
  · exact keptEntries_eq_filter working.bounded working.base.orderedLevels _ [] _
      (DropState.after_start _) working.increasing working.parses
  · rw [<- working.map_snd_written]
    exact mem_map_of_mem member

theorem results (finished : work.remaining = []) :
    work.compaction.Results db.current.files db.tables
      (work.written.map (outputFile config.sizes)) (writeTables db.tables work.written) := by
  rcases working.flatten_written finished with ⟨flat, filled⟩
  have numbers := working.map_fst_written
  have nodup : (work.written.map Prod.fst).Nodup := by
    rw [numbers]
    exact working.distinct
  refine results_of_written config.sizes nodup working.increasing working.parses ?_ filled ?_
  · rw [flat]
    exact filter_sublist
  · intro table member level file isFile
    have isNumber := mem_map_of_mem (f := Prod.fst) member
    rw [numbers] at isNumber
    exact (working.unused table.1 isNumber).2 level file isFile

end Working

end

end Db
end Doux
