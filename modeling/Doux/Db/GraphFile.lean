import Doux.Db.VCompactionWork

namespace Doux
namespace Db

open Foundation Util List

/-!
# The file of the block graph

`SaveToFile` writes a version, the number of mappings, and the mappings in the order
in which the map is iterated.  `LoadFromFile` takes a file that it cannot read to the
end for an empty graph, and saves an empty graph in its place.
-/

/-- The mappings of a graph, in the order of an iteration. -/
abbrev Mappings := List (BlockLocation × MappingEntry)

/-- The map with the given mappings. -/
def graphOf (mappings : Mappings) : BlockGraph :=
  mappings.foldl (fun graph mapping => Function.update graph mapping.1 (some mapping.2))
    (fun _ => none)

def encodeMapping (mapping : BlockLocation × MappingEntry) : Bytes :=
  encodeFixed64 mapping.1.fileNumber ++ (encodeFixed32 mapping.1.blockId ++
    (encodeFixed64 mapping.2.newFileNumber ++ (encodeFixed32 mapping.2.newBlockRange.startBlock ++
        (encodeFixed32 mapping.2.newBlockRange.endBlock ++ encodeFixed32 mapping.2.refCount))))

/-- `DependencyGraph::SaveToFile`. -/
def saveToFile (mappings : Mappings) : Bytes :=
  encodeFixed32 1 ++ (encodeFixed32 mappings.length ++ mappings.flatMap encodeMapping)

/-- `ifs.read` of one field, which fails at the end of the file. -/
def readField (width : Nat) (file : Bytes) : Option (Nat × Bytes) :=
  if file.length < width then none else some (ofLittleEndian (file.take width), file.drop width)

def readMapping (file : Bytes) : Option ((BlockLocation × MappingEntry) × Bytes) := do
  let (fileNumber, file) <- readField 8 file
  let (blockId, file) <- readField 4 file
  let (newFileNumber, file) <- readField 8 file
  let (startBlock, file) <- readField 4 file
  let (endBlock, file) <- readField 4 file
  let (refCount, file) <- readField 4 file
  return ((⟨fileNumber, blockId⟩, ⟨newFileNumber, ⟨startBlock, endBlock⟩, refCount⟩), file)

def readMappings : Nat -> Bytes -> Option Mappings
  | 0, _ => some []
  | count + 1, file => do
    let (mapping, file) <- readMapping file
    let mappings <- readMappings count file
    return mapping :: mappings

def readGraph (file : Bytes) : Option Mappings := do
  let (version, file) <- readField 4 file
  if version = 1 then do
    let (count, file) <- readField 4 file
    readMappings count file
  else none

/-- `DependencyGraph::LoadFromFile`: the graph, and what the file holds afterwards. -/
def loadFromFile (file : Option Bytes) : BlockGraph × Bytes :=
  match file with
  | none => (graphOf [], saveToFile [])
  | some bytes =>
    match readGraph bytes with
    | none => (graphOf [], saveToFile [])
    | some mappings => (graphOf mappings, bytes)

/-- The fields of a mapping have the widths of their types. -/
structure MappingFits (mapping : BlockLocation × MappingEntry) : Prop where
  fileNumber : mapping.1.fileNumber < 2 ^ 64
  blockId : mapping.1.blockId < 2 ^ 32
  newFileNumber : mapping.2.newFileNumber < 2 ^ 64
  startBlock : mapping.2.newBlockRange.startBlock < 2 ^ 32
  endBlock : mapping.2.newBlockRange.endBlock < 2 ^ 32
  refCount : mapping.2.refCount < 2 ^ 32

theorem readField_littleEndian {width value : Nat} (small : value < 256 ^ width) (rest : Bytes) :
    readField width (littleEndian width value ++ rest) = some (value, rest) := by
  unfold readField
  rw [if_neg (by simp), take_left' (length_littleEndian width value),
    drop_left' (length_littleEndian width value), ofLittleEndian_littleEndian,
    Nat.mod_eq_of_lt small]

theorem readField_encodeFixed32 {value : Nat} (small : value < 2 ^ 32) (rest : Bytes) :
    readField 4 (encodeFixed32 value ++ rest) = some (value, rest) :=
  readField_littleEndian small rest

theorem readField_encodeFixed64 {value : Nat} (small : value < 2 ^ 64) (rest : Bytes) :
    readField 8 (encodeFixed64 value ++ rest) = some (value, rest) :=
  readField_littleEndian small rest

theorem readMapping_encodeMapping {mapping : BlockLocation × MappingEntry}
    (fits : MappingFits mapping) (rest : Bytes) :
    readMapping (encodeMapping mapping ++ rest) = some (mapping, rest) := by
  simp only [readMapping, encodeMapping, append_assoc, Option.bind_eq_bind, Option.bind_some,
    readField_encodeFixed64 fits.fileNumber, readField_encodeFixed32 fits.blockId,
    readField_encodeFixed64 fits.newFileNumber, readField_encodeFixed32 fits.startBlock,
    readField_encodeFixed32 fits.endBlock, readField_encodeFixed32 fits.refCount]
  rfl

variable {mappings : Mappings}

theorem readMappings_flatMap (fits : ∀ mapping ∈ mappings, MappingFits mapping) (rest : Bytes) :
    readMappings mappings.length (mappings.flatMap encodeMapping ++ rest) = some mappings := by
  induction mappings with
  | nil => rfl
  | cons mapping mappings ih =>
    rw [forall_mem_cons] at fits
    simp only [length_cons, readMappings, flatMap_cons, append_assoc,
      Option.bind_eq_bind, Option.bind_some, readMapping_encodeMapping fits.1, ih fits.2]
    rfl

theorem loadFromFile_saveToFile (few : mappings.length < 2 ^ 32)
    (fits : ∀ mapping ∈ mappings, MappingFits mapping) :
    loadFromFile (some (saveToFile mappings)) = (graphOf mappings, saveToFile mappings) := by
  have read := readMappings_flatMap fits []
  rw [append_nil] at read
  have readAll : readGraph (saveToFile mappings) = some mappings := by
    simp [readGraph, saveToFile, readField_encodeFixed32 (by decide : 1 < 2 ^ 32),
      readField_encodeFixed32 few, read]
  simp [loadFromFile, readAll]

/-- `LoadFromFile` with its result, for a file that may not open for writing. -/
def loadFromFileResult (opens : Bool) (file : Option Bytes) : Bool × BlockGraph × Option Bytes :=
  match file.bind readGraph with
  | some mappings => (true, graphOf mappings, file)
  | none => (opens, graphOf [], if opens then some (saveToFile []) else file)

theorem loadFromFileResult_true (file : Option Bytes) :
    loadFromFileResult true file = (true, (loadFromFile file).1, some (loadFromFile file).2) := by
  cases file with
  | none => rfl
  | some bytes =>
    simp only [loadFromFileResult, loadFromFile, Option.bind_some]
    cases readGraph bytes <;> rfl

theorem readField_append {width : Nat} {file : Bytes} {field : Nat × Bytes}
    (read : readField width file = some field) (more : Bytes) :
    readField width (file ++ more) = some (field.1, field.2 ++ more) ∧
      file.length = width + field.2.length := by
  unfold readField at read ⊢
  split at read
  · cases read
  · next enough =>
      cases read
      rw [not_lt] at enough
      rw [if_neg (by simp; omega), take_append_of_le_length enough, drop_append_of_le_length enough,
        length_drop]
      exact ⟨rfl, (Nat.add_sub_of_le enough).symm⟩

theorem length_of_readMappings {count : Nat} {file : Bytes}
    (read : readMappings count file = some mappings) : 32 * count ≤ file.length := by
  induction count generalizing file mappings with
  | zero => exact Nat.zero_le _
  | succ count ih =>
    simp only [readMappings, readMapping, Option.bind_eq_bind, Option.bind_eq_some_iff] at read
    rcases read with ⟨_, ⟨_, a, _, b, _, c, _, d, _, e, _, f, last⟩, _, others, _⟩
    cases last
    have rest := ih others
    simp only at rest
    have fields := And.intro (readField_append a []).2 <| And.intro (readField_append b []).2 <|
      And.intro (readField_append c []).2 <| And.intro (readField_append d []).2 <|
      And.intro (readField_append e []).2 (readField_append f []).2
    omega

theorem length_flatMap_encodeMapping (mappings : Mappings) :
    (mappings.flatMap encodeMapping).length = 32 * mappings.length := by
  induction mappings with
  | nil => rfl
  | cons mapping mappings ih =>
    rw [flatMap_cons, length_append, ih, length_cons, Nat.mul_succ, add_comm]
    rfl

theorem readGraph_cut (few : mappings.length < 2 ^ 32) {file rest : Bytes}
    (cut : file ++ rest = saveToFile mappings) (strict : rest ≠ []) : readGraph file = none := by
  refine Option.eq_none_iff_forall_not_mem.mpr fun found read => strict ?_
  simp only [readGraph, Option.mem_def, Option.bind_eq_bind, Option.bind_eq_some_iff] at read
  rcases read with ⟨_, isVersion, read⟩
  split at read
  · rcases Option.bind_eq_some_iff.mp read with ⟨_, isCount, read⟩
    have first := (readField_append isVersion rest).1
    rw [cut, saveToFile, readField_encodeFixed32 (by decide), Option.some_inj,
      Prod.mk.injEq] at first
    have second := (readField_append isCount rest).1
    rw [<- first.2, readField_encodeFixed32 few, Option.some_inj, Prod.mk.injEq] at second
    have all := congrArg length second.2
    have some := length_of_readMappings read
    rw [length_append, length_flatMap_encodeMapping, second.1] at all
    exact length_eq_zero_iff.mp (by omega)
  · cases read

theorem graphOf_eq {graph : BlockGraph} (iterated : ∀ location entry,
      graph location = some entry <-> (location, entry) ∈ mappings) : graphOf mappings = graph := by
  have parts (part : Mappings) (within : part ⊆ mappings) (location : BlockLocation) :
      graphOf part location = if location ∈ part.map Prod.fst then graph location else none := by
    induction part using List.reverseRecOn with
    | nil => rfl
    | append_singleton part last ih =>
      rw [append_subset] at within
      have here := (iterated last.1 last.2).mpr (within.2 mem_cons_self)
      rw [graphOf, foldl_append, foldl_cons, foldl_nil, <- graphOf,
        Function.update_apply, ih within.1]
      by_cases same : location = last.1
      · simp [same, here]
      · simp only [same, if_false, map_append, mem_append, map_cons, map_nil,
          mem_singleton, or_false]
  funext location
  rw [parts mappings (Subset.refl _)]
  refine ite_eq_left_iff.mpr fun absent => (Option.eq_none_iff_forall_not_mem.mpr ?_).symm
  exact fun entry found => absent (mem_map_of_mem ((iterated location entry).mp found))

/-- A saved graph is loaded again; of every file that is cut off nothing is loaded, and an
empty graph is saved in its place. -/
theorem loadFromFileResult_saveToFile {graph : BlockGraph} {mappings : Mappings}
    (iterated : forall location entry, graph location = some entry <-> (location, entry) ∈ mappings)
    (few : mappings.length < 2 ^ 32) (fits : ∀ mapping ∈ mappings, MappingFits mapping) :
    loadFromFileResult true (some (saveToFile mappings)) =
        (true, graph, some (saveToFile mappings)) ∧
      ∀ size < (saveToFile mappings).length,
        loadFromFileResult true (some ((saveToFile mappings).take size)) =
          (true, fun _ => none, some (saveToFile [])) := by
  constructor
  · rw [loadFromFileResult_true, loadFromFile_saveToFile few fits, graphOf_eq iterated]
  · intro size _
    have unread : readGraph ((saveToFile mappings).take size) = none :=
      readGraph_cut few (take_append_drop size _) (by simp; omega)
    simp only [loadFromFileResult, Option.bind_some, unread]
    rfl

theorem loadFromFileResult_oneMapping :
    loadFromFileResult true (some ((saveToFile [(⟨5, 0⟩, ⟨7, ⟨0, 0⟩, 1⟩)]).take 39)) =
      (true, fun _ => none, some (saveToFile [])) := by
  refine (@loadFromFileResult_saveToFile
    (fun location => if location = ⟨5, 0⟩ then some ⟨7, ⟨0, 0⟩, 1⟩ else none) _ ?_ (by decide)
    ?_).2 39 (by decide)
  · intro location _
    by_cases same : location = ⟨5, 0⟩ <;> simp [same, eq_comm]
  · exact forall_mem_singleton.mpr (by constructor <;> decide)

theorem graphOf_eq_empty_iff (mappings : Mappings) :
    graphOf mappings = (fun _ => none) <-> mappings = [] := by
  induction mappings using List.reverseRecOn with
  | nil => simp [graphOf]
  | append_singleton mappings last _ =>
    simp only [append_eq_nil_iff, cons_ne_nil, and_false, iff_false]
    intro empty
    have here := congrFun empty last.1
    simp [graphOf] at here

end Db
end Doux
