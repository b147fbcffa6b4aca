import Ccdb.Base
import Ccdb.Lib.SepList
import Ccdb.Lib.BPlusTree
import Ccdb.Lib.BPlusTies
import Ccdb.Lib.Binary64
import Ccdb.Lib.BPlusSkips
import Ccdb.Lib.Chart
import Ccdb.Lib.ChartTree
import Ccdb.Lib.Runs
import Ccdb.Lib.Replay
import Ccdb.Lib.Layout
import Ccdb.Lib.Checked
import Ccdb.Lib.Cursor
import Ccdb.Lib.LineBuffer
import Ccdb.Lib.Framing
import Ccdb.Lib.Bits
import Ccdb.Lib.Links
import Ccdb.Lib.Calendar
import Ccdb.Lib.Grouping
import Ccdb.Lib.StableSort
import Ccdb.Lib.Decimal
import Ccdb.Lib.ClockSweep
import Ccdb.Sql.Text
import Ccdb.Storage.Tuple
import Ccdb.Storage.Entry
import Ccdb.Storage.Page
import Ccdb.Storage.RawPage
import Ccdb.Storage.SlottedPage
import Ccdb.Storage.Tombstones
import Ccdb.Storage.TupleCodec
import Ccdb.Storage.TupleBounds
import Ccdb.Wire.Messages
import Ccdb.Wire.Bounds
import Ccdb.Wire.CopyText
import Ccdb.Wire.CopyIn
import Ccdb.Storage.WalCodec
import Ccdb.Storage.BufferPool
import Ccdb.Storage.FramePool
import Ccdb.Storage.ClockReplacer
import Ccdb.Storage.Transparent
import Ccdb.Storage.DirtyPages
import Ccdb.Storage.WalManager
import Ccdb.Storage.WriteAhead
import Ccdb.BTree.Key
import Ccdb.BTree.KeyCodec
import Ccdb.BTree.Ops
import Ccdb.BTree.Pages
import Ccdb.BTree.Repr
import Ccdb.BTree.Fits
import Ccdb.BTree.Walk
import Ccdb.BTree.BulkBuild
import Ccdb.BTree.Index
import Ccdb.BTree.Budget
import Ccdb.BTree.SortedMap
import Ccdb.BTree.Duplicates
import Ccdb.BTree.SplitLoss
import Ccdb.BTree.LeafOrder
import Ccdb.Lib.Guarantee
import Ccdb.Txn.Manager
import Ccdb.Storage.Clog
import Ccdb.Txn.Visibility
import Ccdb.Txn.Interleaving
import Ccdb.Txn.LockManager
import Ccdb.Txn.LockCalls
import Ccdb.Txn.LockQueue
import Ccdb.Exec.Join
import Ccdb.Exec.Context
import Ccdb.Exec.Transactions
import Ccdb.Exec.Dml
import Ccdb.Exec.IndexRace
import Ccdb.Exec.IndexRaceSound
import Ccdb.Exec.Append
import Ccdb.Exec.LostUpdate
import Ccdb.Exec.Restarts
import Ccdb.Exec.CreateIndex
import Ccdb.Exec.IndexComplete
import Ccdb.Exec.IndexWrites
import Ccdb.Exec.HotChains
import Ccdb.Exec.FkProbe
import Ccdb.Exec.UniqueUpdate
import Ccdb.Exec.Vacuum
import Ccdb.Exec.Execute
import Ccdb.Exec.Trace
import Ccdb.Exec.Chains
import Ccdb.Exec.IndexFrame
import Ccdb.Exec.LeafSweep
import Ccdb.Exec.UniqueProbe
import Ccdb.Exec.Planner
import Ccdb.Exec.Arithmetic
import Ccdb.Exec.Typing
import Ccdb.Exec.ThreeValued
import Ccdb.Exec.Aggregate
import Ccdb.Exec.ExactArithmetic
import Ccdb.Exec.Sort
import Ccdb.Exec.SequenceCalls
import Ccdb.Sql.Interval
import Ccdb.Sql.Ast
import Ccdb.Sql.Bind
import Ccdb.Sql.Display
import Ccdb.Sql.ExprParser
import Ccdb.Sql.Lexer
import Ccdb.Catalog.Lookup
import Ccdb.Catalog.Ddl
import Ccdb.Catalog.Coherence
import Ccdb.Catalog.Rollback
import Ccdb.Catalog.FreshIds
import Ccdb.Catalog.IndexRoot
import Ccdb.Catalog.References
import Ccdb.Exec.Cascade
import Ccdb.Recovery.Redo
import Ccdb.Recovery.RedoInsert
import Ccdb.Recovery.Sequence
import Ccdb.Recovery.Recover
import Ccdb.Recovery.RedoStart
import Ccdb.Recovery.TxnIds
import Ccdb.Recovery.Ledger
import Ccdb.Recovery.Decision
import Ccdb.Exec.TableRows
import Ccdb.Exec.VacuumRows
import Ccdb.Exec.Sessions
import Ccdb.Exec.RollbackScan
import Ccdb.Exec.Pipeline
import Ccdb.Exec.FromClause
import Ccdb.Exec.Select
import Ccdb.Exec.PostAgg
import Ccdb.Exec.Distinct
import Ccdb.Exec.Calls
import Ccdb.Exec.Placeholders
import Ccdb.Exec.Protocol
import Ccdb.Exec.IndexScan
import Ccdb.Exec.FromRows
import Ccdb.Wire.RoundTrip
import Ccdb.Wire.Replies
