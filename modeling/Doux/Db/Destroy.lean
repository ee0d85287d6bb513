import Doux.Db.Recover
import Doux.Db.GraphFile

namespace Doux
namespace Db

open Foundation Util List

/-!
# Destroying a database

`DestroyDB` deletes the files whose names `ParseFileName` understands.  The file of the
block graph is called `DEPENDENCY`, which it does not understand.  That file outlives
the database, and the next database in the same directory loads it.
-/

/-- The files of a directory. -/
abbrev Directory := FileName -> Option Bytes

def currentFileName : FileName := "CURRENT".toList

def lockFileName : FileName := "LOCK".toList

def dependencyGraphFileName : FileName := "DEPENDENCY".toList

/-- The condition in the loop of `DestroyDB`. -/
def destroys (name : FileName) : Bool :=
  (parseFileName name).any (fun parsed => decide (parsed.2 ≠ .dbLockFile)) ||
    decide ("vlog".toList <:+: name)

/-- `DestroyDB`, which deletes the lock at the end. -/
def destroyDB (directory : Directory) : Directory :=
  fun name => if destroys name ∨ name = lockFileName then none else directory name

/-- The edit of `NewDB`. -/
def newEdit (comparator : Bytes) : ManifestEdit :=
  { VersionEdit.empty with
    comparator := some comparator
    logNumber := some 0
    nextFileNumber := some 2
    lastSequence := some 0 }

def toBytes (name : FileName) : Bytes := name.map (fun ch => UInt8.ofNat ch.toNat)

def ofBytes (bytes : Bytes) : FileName := bytes.map (fun byte => Char.ofNat byte.toNat)

/-- A database after `Recover`: its version set, its block graph and its directory. -/
structure Opened where
  vset : VersionSet
  graph : BlockGraph
  directory : Directory

variable {L M : Type} [LinearOrder L] [LinearOrder M] (mod : Nat) (rank : Bytes -> L)
  (vrank : Bytes -> M) (value : Bytes -> BitVec 32) (name : Bytes)
  (recordIterations : Nat -> Iteration) (iterations : Iterations)

/-- `NewDB`, with the call of `SetCurrentFile`. -/
def newDB (directory : Directory) : Except OpenFailure Directory := do
  let log <- (Log.addRecords value ⟨[], 0⟩ [(newEdit name).encodeFields []]).mapError
    (fun text => .failure (.assertion text))
  return Function.update (Function.update directory (descriptorFileName 1) (some log.dest))
    currentFileName (some (toBytes (descriptorFileName 1) ++ [10]))

/-- The end of `VersionSet::Recover`: with `MOD` 10 the block graph is loaded. -/
def Directory.load (directory : Directory) (vset : VersionSet) : Opened :=
  if mod = 10 then
    let loaded := loadFromFile (directory dependencyGraphFileName)
    ⟨vset, loaded.1, Function.update directory dependencyGraphFileName (some loaded.2)⟩
  else ⟨vset, graphOf [], directory⟩

/-- `VersionSet::Recover`. -/
def Directory.recover (directory : Directory) : Option (Except OpenFailure Opened) :=
  match directory currentFileName with
  | none => some (.error (.notFound "CURRENT"))
  | some current =>
    if current.getLast? ≠ some 10 then
      some (.error (.failure (.corruption "CURRENT file does not end with newline" "")))
    else
      match directory (ofBytes current.dropLast) with
      | none => some (.error (.failure (.corruption "CURRENT points to a non-existent file" "")))
      | some manifest =>
        (VersionSet.new.recover mod rank vrank value name recordIterations iterations
          manifest).map (fun outcome =>
            (outcome.mapError .failure).map (directory.load mod))

/-- `DBImpl::Recover` with `create_if_missing`, up to the logs. -/
def Directory.openOrCreate (directory : Directory) : Option (Except OpenFailure Opened) :=
  if directory currentFileName = none then
    match newDB value name directory with
    | .error failure => some (.error failure)
    | .ok created => created.recover mod rank vrank value name recordIterations iterations
  else directory.recover mod rank vrank value name recordIterations iterations

/-- A graph as it is saved: its fields fit their types, and there are not too many. -/
structure SavedGraph where
  mappings : Mappings
  few : mappings.length < 2 ^ 32
  fits : ∀ mapping ∈ mappings, MappingFits mapping

/-- What an operation does to the directory.  Only `SaveToFile` touches the file of the
block graph. -/
inductive FileChange where
  | set (name : FileName) (contents : Option Bytes) (other : name ≠ dependencyGraphFileName)
  | saveGraph (graph : SavedGraph)

def Directory.change (directory : Directory) : FileChange -> Directory
  | .set name contents _ => Function.update directory name contents
  | .saveGraph graph =>
    Function.update directory dependencyGraphFileName (some (saveToFile graph.mappings))

def directoryAfter (history : List FileChange) : Directory :=
  history.foldl Directory.change (fun _ => none)

def lastSaved (history : List FileChange) : Mappings :=
  history.foldl (fun saved change =>
    match change with
    | .set _ _ _ => saved
    | .saveGraph graph => graph.mappings) []

theorem load_directoryAfter (history : List FileChange) :
    (loadFromFile (directoryAfter history dependencyGraphFileName)).1 =
      graphOf (lastSaved history) := by
  induction history using List.reverseRecOn with
  | nil => rfl
  | append_singleton history change ih =>
    simp only [directoryAfter, lastSaved, foldl_append, foldl_cons, foldl_nil]
    cases change with
    | set name contents other =>
      rw [Directory.change, Function.update_of_ne other.symm]
      exact ih
    | saveGraph graph =>
      rw [Directory.change, Function.update_self, loadFromFile_saveToFile graph.few graph.fits]

/-- No table, no value table, no redirection of a file, no mapping of a block, and no log
that would be replayed. -/
structure Opened.StartsEmpty (opened : Opened) : Prop where
  files : forall level, opened.vset.current.files level = []
  vfiles : forall level, opened.vset.current.vfiles level = []
  findParent : forall number, (opened.vset.current.dep.findParent number).1 = number
  graph : opened.graph = fun _ => none
  logs : forall name number, parseFileName name = some (number, .logFile) ->
    opened.directory name = none

theorem destroyDB_of_parsed {directory : Directory} {name : FileName} {number : Nat}
    {type : FileType} (parsed : parseFileName name = some (number, type))
    (other : type ≠ .dbLockFile) : destroyDB directory name = none := by
  simp [destroyDB, destroys, parsed, other]

variable {name}

theorem representable_newEdit (short : name.length < 2 ^ 32) : (newEdit name).Representable :=
  { VersionEdit.representable_empty with
    comparator := by
      rintro _ ⟨⟩
      exact short
    logNumber := by simp [newEdit]
    nextFileNumber := by simp [newEdit]
    lastSequence := by simp [newEdit] }

section
variable (short : name.length < 2 ^ 32)
include short

/-- The record of `NewDB` adds nothing to the builder and has the numbers that recovery
needs. -/
theorem recoverRecord_newEdit :
    ∃ state, VersionSet.recoverRecord mod rank vrank name recordIterations
        VersionSet.new.startRecover ((newEdit name).encodeFields []) = .ok state ∧
      state.builder = Builder.new Version.empty ∧
      state.logNumber.isSome ∧ state.nextFile.isSome ∧ state.lastSequence.isSome :=
  ⟨_, VersionSet.recoverRecord_encoded mod rank vrank name (representable_newEdit short)
    (fun _ named => (Option.some.inj named).symm)
    ⟨nofun, le_refl _, nofun, nofun, nofun⟩ ⟨⟨nofun, nofun⟩, nofun, nofun⟩ Iteration.stored
    recordIterations VersionSet.new.startRecover,
    Builder.applied_eq_self rank vrank _ _ rfl rfl rfl rfl rfl, rfl, rfl, rfl⟩

/-- The manifest of `NewDB` is recovered as a version without files. -/
theorem recover_newEdit {log : Log.Writer}
    (added : Log.addRecords value ⟨[], 0⟩ [(newEdit name).encodeFields []] = .ok log) :
    ∃ vset, VersionSet.new.recover mod rank vrank value name recordIterations iterations
        log.dest = some (.ok vset) ∧ SameVersion vset.current Version.empty := by
  rcases recoverRecord_newEdit mod rank vrank recordIterations short with
    ⟨_, read, builder, numbers⟩
  rcases (tracks_empty mod rank vrank).saveTo iterations.base iterations.current with
    ⟨_, saved, same⟩
  rw [<- builder] at saved
  rcases VersionSet.finishRecover_eq_ok mod rank vrank numbers saved with
    ⟨recovered, finished, current, _⟩
  refine ⟨recovered, ?_, current ▸ same⟩
  rw [VersionSet.recover, Log.visitLog_of_addRecords value _ _ added, foldlM_cons, read,
    <- finished]
  rfl

/-- The directory that `NewDB` leaves, and what it is recovered as. -/
theorem openOrCreate_eq {directory : Directory} (missing : directory currentFileName = none) :
    ∃ manifest vset, SameVersion vset.current Version.empty ∧
      directory.openOrCreate mod rank vrank value name recordIterations iterations =
        some (.ok (Directory.load mod
          (Function.update (Function.update directory (descriptorFileName 1) (some manifest))
            currentFileName (some (toBytes (descriptorFileName 1) ++ [10]))) vset)) := by
  obtain ⟨log, added⟩ : ∃ log,
      Log.addRecords value ⟨[], 0⟩ [(newEdit name).encodeFields []] = .ok log := by
    rcases Log.addRecords_chunks value [(newEdit name).encodeFields []] ⟨[], 0⟩
      (Nat.zero_le _) with ⟨_, _, _, _, _, _, added, _⟩
    exact ⟨_, added⟩
  rcases recover_newEdit mod rank vrank value recordIterations iterations short added with
    ⟨vset, recovered, same⟩
  refine ⟨log.dest, vset, same, ?_⟩
  have line : (toBytes (descriptorFileName 1) ++ [10]).getLast? = some 10 :=
    getLast?_concat
  have named : ofBytes (toBytes (descriptorFileName 1) ++ [10]).dropLast =
      descriptorFileName 1 := by decide +kernel
  have other : descriptorFileName 1 ≠ currentFileName := by decide +kernel
  rw [Directory.openOrCreate, if_pos missing, newDB, added]
  change Directory.recover mod rank vrank value name recordIterations iterations
    (Function.update _ currentFileName _) = _
  simp only [Directory.recover, Function.update_self, line, ne_eq, not_true_eq_false, if_false,
    named, Function.update_of_ne other, recovered]
  rfl

end

/-- The database that is created after `DestroyDB` has no file, and its block graph is
read from the file of the destroyed one. -/
theorem openOrCreate_destroyDB (short : name.length < 2 ^ 32) (directory : Directory) : ∃ opened,
      (destroyDB directory).openOrCreate 10 rank vrank value name recordIterations iterations =
        some (.ok opened) ∧ SameVersion opened.vset.current Version.empty ∧
      opened.graph = (loadFromFile (directory dependencyGraphFileName)).1 ∧
      ∀ name number, parseFileName name = some (number, .logFile) ->
        opened.directory name = none := by
  have current : parseFileName currentFileName = some (0, .currentFile) := by decide +kernel
  have descriptor : parseFileName (descriptorFileName 1) = some (1, .descriptorFile) := by
    decide +kernel
  have unknown : parseFileName dependencyGraphFileName = none := by decide +kernel
  have kept : destroyDB directory dependencyGraphFileName = directory dependencyGraphFileName :=
    if_neg (by decide +kernel)
  rcases openOrCreate_eq 10 rank vrank value recordIterations iterations short
    (destroyDB_of_parsed current (by decide) : destroyDB directory currentFileName = none) with
    ⟨_, _, same, created⟩
  refine ⟨_, created, same, ?_, ?_⟩
  · simp only [Directory.load, if_true]
    rw [Function.update_of_ne (by decide +kernel), Function.update_of_ne (by decide +kernel), kept]
  · intro name number parsed
    have different {fixed : FileName}
        (other : parseFileName fixed ≠ some (number, .logFile)) : name ≠ fixed := by
      rintro rfl
      exact other parsed
    simp only [Directory.load, if_true]
    rw [Function.update_of_ne (different (by simp [unknown])),
      Function.update_of_ne (different (by simp [current])),
      Function.update_of_ne (different (by simp [descriptor])),
      destroyDB_of_parsed parsed (by decide)]

/-- A database that is created after `DestroyDB` starts empty exactly when the block
graph that was saved last had no mapping. -/
theorem destroyDB_startsEmpty_iff (short : name.length < 2 ^ 32) (history : List FileChange) :
    ∃ opened, (destroyDB (directoryAfter history)).openOrCreate 10 rank vrank value name
        recordIterations iterations = some (.ok opened) ∧
      (opened.StartsEmpty <-> lastSaved history = []) := by
  rcases openOrCreate_destroyDB rank vrank value recordIterations iterations short
    (directoryAfter history) with ⟨opened, created, same, graph, logs⟩
  rw [load_directoryAfter] at graph
  refine ⟨opened, created, fun empty => ?_, fun nothing => ?_⟩
  · exact (graphOf_eq_empty_iff _).mp (graph.symm.trans empty.graph)
  · refine ⟨same.files, fun level => ?_, fun number => ?_, ?_, logs⟩
    · exact eq_nil_iff_forall_not_mem.mpr (fun file member =>
        not_mem_nil ((same.vfiles level file).mp member))
    · exact (same.findParent number).trans (congrFun Dependency.root_empty number)
    · exact graph.trans ((graphOf_eq_empty_iff _).mpr nothing)

/-- What the compaction of two value files into file 7 saves. -/
def savedRewrite : SavedGraph where
  mappings := [(⟨5, 0⟩, ⟨7, ⟨0, 0⟩, 1⟩), (⟨6, 0⟩, ⟨7, ⟨0, 0⟩, 1⟩)]
  few := by decide
  fits := by
    intro mapping member
    rcases mem_pair.mp member with rfl | rfl <;> constructor <;> decide

section Bytewise

open Bytewise

/-- Two value files are rewritten as file 7, the graph is saved, and the database is
destroyed.  In the next database the first block of its file 5 leads to file 7. -/
theorem destroyDB_keeps_mapping : (twoValueFiles.doVCompactionWork (Config.plain 10 (by decide))
        (secondInputIo .opens .succeeds) bothValueFiles).toOption.map (fun result =>
      (result.status, result.state.savedGraph ⟨5, 0⟩, result.state.savedGraph ⟨6, 0⟩)) =
      some (.ok, graphOf savedRewrite.mappings ⟨5, 0⟩, graphOf savedRewrite.mappings ⟨6, 0⟩) ∧
    ((destroyDB (directoryAfter [.saveGraph savedRewrite])).openOrCreate 10
        VersionSet.firstByte VersionSet.firstByte (fun _ => 0) [97] (fun _ => .stored)
        ⟨.stored, .stored, .stored⟩).map (fun outcome =>
      outcome.toOption.map (fun opened => opened.graph ⟨5, 0⟩)) =
      some (some (some ⟨7, ⟨0, 0⟩, 1⟩)) := by
  decide +kernel

end Bytewise

/-- The graph that is saved last has no mapping any more. -/
theorem destroyDB_startsEmpty_emptied : ∃ opened,
      (destroyDB (directoryAfter [.saveGraph savedRewrite, .saveGraph ⟨[], by decide, nofun⟩])
        ).openOrCreate 10 VersionSet.firstByte VersionSet.firstByte (fun _ => 0) [97]
          (fun _ => .stored) ⟨.stored, .stored, .stored⟩ = some (.ok opened) ∧
      opened.StartsEmpty := by
  rcases destroyDB_startsEmpty_iff VersionSet.firstByte VersionSet.firstByte (fun _ => 0)
    (fun _ => .stored) ⟨.stored, .stored, .stored⟩ (by decide : ([97] : Bytes).length < 2 ^ 32)
    [.saveGraph savedRewrite, .saveGraph ⟨[], by decide, nofun⟩] with ⟨opened, created, empty⟩
  exact ⟨opened, created, empty.mpr rfl⟩

end Db
end Doux
