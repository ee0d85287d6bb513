import Doux.Table.VMergerScan
import Doux.Db.Snapshot
import Doux.Db.ReadPaths
import Doux.Db.WriteOutcome
import Doux.Db.BatchRep
import Doux.Log.Reuse
import Doux.Db.ValueGet
import Doux.Db.EditRecord
import Doux.Db.RecoverBounds
import Doux.Table.MergingIterator
import Doux.Table.TwoLevelIterator
import Doux.Db.FailedSync
import Doux.Db.Released
import Doux.Db.Destroy
import Doux.Db.Closing
import Doux.Db.CrashRecovery
import Doux.Db.VCompactionOutput
import Doux.Db.FileErrors
import Doux.Db.BlockGraph
import Doux.Mod.LearnedIndex
import Doux.Util.Crc32c
import Doux.Mod.CoLocationGC
