import SqliteRs.Autoincrement
import SqliteRs.CrashSafety
import SqliteRs.GroupBy
import SqliteRs.IndexRefinement
import SqliteRs.InnerQuery
import SqliteRs.IntegerMath
import SqliteRs.NumericOrder
import SqliteRs.PageSupply
import SqliteRs.PartialIndex
import SqliteRs.PrefixSeek
import SqliteRs.RightAfterLeft
import SqliteRs.RowStream
import SqliteRs.SharedColumns
import SqliteRs.TableRefinement
import SqliteRs.TreeDrop
import SqliteRs.UniqueRuns
