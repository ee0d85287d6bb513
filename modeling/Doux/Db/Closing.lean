import Doux.Db.Reopen

namespace Doux
namespace Db

open Foundation Util Table List

/-!
# Closing a database

From `MOD` 7 on the destructor flushes both memtables, first `imm_` and then `mem_`.  Each
flush gives the manifest the number of the current log, and nobody looks at its status.
If the first flush fails and the second does not, the log of `imm_` is not needed any
more, and what it has is lost.  With `MOD` 9 it is lost even if all goes well, because the
table does not have the tags of the keys.  The entries of `mem_` are never lost: the current
log is still needed after both flushes.
-/

/-- What happens to the files of a flush when the database is closing. -/
inductive FlushIo where
  /-- The table cannot be written, or the edit does not get into the manifest. -/
  | fails
  /-- All operations succeed, so the edit is in the manifest if there is a table. -/
  | recorded
deriving DecidableEq

/-- A journal, with the tables that the manifest got while the database was closing.  Where an
assertion fails the process stops, and nothing is flushed any more. -/
structure Closing where
  journal : Journal
  nextFileNumber : Nat
  tables : List FlushedFile
  stopped : Bool

section
variable [LinearOrder UserKey]

/-- The flush of a memtable succeeds: its table can be built, and nothing fails. -/
def ReopenSettings.Saves (settings : ReopenSettings) (io : FlushIo) (number : Nat)
    (table : List Entry) : Prop :=
  io = .recorded ∧ (settings.writeLevel0Table number table).isOk

/-- The flush of a memtable stops the process: the files could be written, but `BuildDuTable`
fails on an assertion, or on a memtable without entries. -/
def ReopenSettings.Stops (settings : ReopenSettings) (io : FlushIo) (number : Nat)
    (table : List Entry) : Prop :=
  io = .recorded ∧ (settings.mod = 9 ∨ SortsValues settings.mod) ∧
    ¬ (settings.writeLevel0Table number table).isOk

/-- `CompactMemTable(MemTable*)`.  The version that the edit is applied to, the level of the new
table and its metadata are left out: they do not matter for what is in logs and tables.  Without
a value table an empty memtable gives the status `NotFound`, which nobody looks at. -/
def Closing.compactMemTable (settings : ReopenSettings) (freshWrite : Bool) (io : FlushIo)
    (closing : Closing) : Option (List Entry) -> Closing
  | none => closing
  | some table =>
    if freshWrite = false ∨ closing.stopped = true then closing
    else
      match io, settings.writeLevel0Table closing.nextFileNumber table with
      | .recorded, .ok file =>
        ⟨closing.journal.setLogNumber, closing.nextFileNumber + 1, closing.tables ++ [file], false⟩
      | .recorded, .error _ =>
        { closing with
          nextFileNumber := closing.nextFileNumber + 1
          stopped := settings.mod = 9 ∨ SortsValues settings.mod }
      | .fails, _ => { closing with nextFileNumber := closing.nextFileNumber + 1 }

/-- The destructor, once the background work has finished. -/
def Journal.close (settings : ReopenSettings) (freshWrite : Bool) (immIo memIo : FlushIo)
    (journal : Journal) (nextFileNumber : Nat) (imm : Option (List Entry)) (mem : List Entry) :
    Closing :=
  if settings.mod ≥ 7 then
    (Closing.compactMemTable settings freshWrite immIo ⟨journal, nextFileNumber, [], false⟩
      imm).compactMemTable settings freshWrite memIo (some mem)
  else ⟨journal, nextFileNumber, [], false⟩

namespace Closing

variable {settings : ReopenSettings} {io : FlushIo} {closing : Closing} {table : List Entry}
  (runs : closing.stopped = false)
include runs

end Closing

namespace Journal.Holds

omit [LinearOrder UserKey]

variable {journal : Journal} {imm mem : List Entry} {number : Nat} (holds : journal.Holds imm mem)
include holds

end Journal.Holds

end

section Bytewise

open Bytewise

end Bytewise

end Db
end Doux
