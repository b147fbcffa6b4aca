import Ccdb.Storage.BufferPool
import Ccdb.Txn.Manager
import Ccdb.BTree.Ops

/-!
# Ccdb — the state a statement runs in

The write-ahead log of `wal.rs`, the per-connection `Transaction`, the parts
of the catalog that DML reads and writes, and the monad of the executor.

`pg_index` is stored on its own pages, because a root split rewrites its
rows; the definitions of the tables themselves and the constraints do not change
under the statements modelled here and are kept decoded. `indexes_for_table` memoises
its answer until the next DDL, and `update_index_root` does not refresh the
memo.
-/

namespace Ccdb

open BTree (liftE pageFuel)

/-! ## The log -/

inductive ClrRedo where
  | undoInsert (rid : Rid)
  | undoDelete (rid : Rid) (oldXmax : Nat)
deriving DecidableEq, Repr

inductive WalRecordType where
  | begin
  | commit
  | abort
  | insert (rid : Rid) (data : HeapTuple)
  | delete (rid : Rid) (xmax : Nat)
  | clr (undoNextLsn : Nat) (redo : ClrRedo)
  | checkpoint (att dpt : List (Nat × Nat))
  | indexInsert (indexId : Nat) (key : Bytes) (rid : Rid)
  | sequenceAdvance (seqPageId : Nat) (newLastValue : Int64)
  | pageInit (pageId : Nat) (kind : PageKind)
deriving DecidableEq, Repr

structure WalRecord where
  lsn : Nat
  txnId : Nat
  prevLsn : Nat
  recordType : WalRecordType
deriving DecidableEq, Repr

/-- `records` is the log in the order it was written; LSN 0 means "none". -/
structure Wal where
  records : List WalRecord
  nextLsn : Nat
  flushedLsn : Nat
deriving DecidableEq, Repr

/-- `append` does not make the record durable. -/
def Wal.append (w : Wal) (txnId prevLsn : Nat) (rt : WalRecordType) : Nat × Wal :=
  (w.nextLsn,
    { w with
      records := w.records ++ [⟨w.nextLsn, txnId, prevLsn, rt⟩]
      nextLsn := w.nextLsn + 1 })

/-- `flush`: everything written so far becomes durable. -/
def Wal.flush (w : Wal) : Wal := { w with flushedLsn := max w.flushedLsn (w.nextLsn - 1) }

/-! ## Catalog entries and transactions -/

/-- `columns` has the types of the columns. -/
structure TableDef where
  tableId : Nat
  name : String
  firstPageId : Nat
  columns : List DataType
  columnNames : List String
deriving DecidableEq, Repr

structure IndexDef where
  indexId : Nat
  name : String
  tableId : Nat
  columnIndex : Nat
  rootPageId : Nat
  isUnique : Bool
deriving DecidableEq, Repr

inductive ConstraintKind where
  | check
  | foreignKey
deriving DecidableEq, Repr

/-- `ConstraintKind::from_int`. -/
def ConstraintKind.fromInt (n : Int32) : Option ConstraintKind :=
  if n = 1 then some .check else if n = 2 then some .foreignKey else none

/-- `kind as i32`. -/
def ConstraintKind.toInt : ConstraintKind → Int32
  | .check => 1
  | .foreignKey => 2

structure ConstraintDef where
  constraintId : Nat
  name : String
  tableId : Nat
  kind : ConstraintKind
  definition : String
deriving DecidableEq, Repr

/-- `ForeignKeyDef`. -/
structure ForeignKey where
  column : String
  refTable : String
  refColumn : String
  onDelete : String
  onUpdate : String
deriving DecidableEq, Repr

/-- `ForeignKeyDef::encode`. -/
def ForeignKey.encode (fk : ForeignKey) : String :=
  "\t".intercalate ["FK", fk.column, fk.refTable, fk.refColumn, fk.onDelete, fk.onUpdate]

/-- `ForeignKeyDef::decode`. -/
def ForeignKey.decode (definition : String) : Option ForeignKey :=
  match (definition.toList.splitOn '\t').map String.ofList with
  | [tag, column, refTable, refColumn, onDelete, onUpdate] =>
    if tag = "FK" then some ⟨column, refTable, refColumn, onDelete, onUpdate⟩ else none
  | _ => none

/-- `indexesByTable` is the memo of `indexes_for_table`. -/
structure Catalog where
  tables : List TableDef
  constraints : List ConstraintDef
  indexesByTable : List (Nat × List IndexDef)
deriving DecidableEq, Repr

/-- `Transaction`. Its undo log is never filled under MVCC, and `start_ts`
only feeds `now()`; both are left out. -/
structure Transaction where
  active : Bool
  id : Nat
  lastLsn : Nat
  snapshot : Option Snapshot
  heldLocks : List Rid
deriving DecidableEq, Repr

/-- The shared state and the transaction of the session that runs. `locks`
has the holder of every row lock; the executor takes exclusive locks only.
`versions` has what a heap page has held whenever its write guard was given
up: eviction and `flush_all` may have put any of it on disk. -/
structure Ctx where
  pool : BufferPool
  versions : Nat → List Page
  wal : Wal
  tm : TransactionManager
  catalog : Catalog
  locks : List (Rid × Nat)
  tx : Transaction

abbrev ExecM := EStateM DbError Ctx

/-- A page operation inside a statement. -/
def onPool {α : Type} (x : PoolM α) : ExecM α := fun s =>
  match x s.pool with
  | .ok a pool => .ok a { s with pool := pool }
  | .error e pool => .error e { s with pool := pool }

/-- The write guard on a heap page is given up with `page` on it. -/
def Ctx.writeHeap (s : Ctx) (p : Nat) (page : Page) : Ctx :=
  { s with
    pool := s.pool.set p page
    versions := Function.update s.versions p (page :: s.versions p) }

/-- A heap page is changed under its write guard. -/
def writeHeap (p : Nat) (page : Page) : ExecM Unit := fun s => .ok () (s.writeHeap p page)

def getCtx : ExecM Ctx := fun s => .ok s s

def liftX {α : Type} (x : Except DbError α) : ExecM α := fun s =>
  match x with
  | .ok a => .ok a s
  | .error e => .error e s

/-- `wal.flush()`. -/
def flushWal : ExecM Unit := fun s => .ok () { s with wal := s.wal.flush }

/-- `log_record`: append under the session's transaction and remember the LSN. -/
def logRecord (rt : WalRecordType) : ExecM Nat := fun s =>
  let (lsn, wal) := s.wal.append s.tx.id s.tx.lastLsn rt
  .ok lsn
    { s with
      wal := wal
      tx := { s.tx with lastLsn := lsn }
      tm := s.tm.updateLastLsn s.tx.id lsn }

/-- `lm.lock` followed by `tx.add_lock`. A statement runs on its own here, so
a lock another session holds is not released while it waits, and the wait
times out. -/
def lockRow (rid : Rid) : ExecM Unit := fun s =>
  if s.locks.any fun e => e.1 = rid ∧ e.2 ≠ s.tx.id then
    .error (.bail s!"X-lock on ({rid.1}, {rid.2}): lock acquisition timeout (possible deadlock)") s
  else
    .ok ()
      { s with
        locks := (rid, s.tx.id) :: s.locks
        tx := { s.tx with heldLocks := rid :: s.tx.heldLocks } }

/-! ## Transaction lifecycle -/

/-- `tm.begin()` and the snapshot taken with it. -/
def beginTxn (active : Bool) : ExecM Unit := fun s =>
  let (id, tm) := s.tm.begin
  .ok ()
    { s with
      tm := tm
      tx := ⟨active, id, 0, some (tm.snapshot id), []⟩ }

/-- `Transaction::begin`: the previous boundary is closed first. -/
def Transaction.begin : ExecM Unit := do
  modify fun s => { s with tm := s.tm.commit s.tx.id }
  beginTxn true

/-- `Transaction::commit`. -/
def Transaction.commit : ExecM Unit := fun s =>
  .ok ()
    { s with
      tm := s.tm.commit s.tx.id
      tx := { s.tx with active := false, lastLsn := 0, snapshot := none } }

/-- `Transaction::refresh_autocommit`: a no-op inside an explicit transaction. -/
def Transaction.refreshAutocommit : ExecM Unit := do
  if (← getCtx).tx.active then return ()
  else do
    modify fun s => { s with tm := s.tm.commit s.tx.id }
    beginTxn false

/-- `Transaction::set_inactive`. -/
def Transaction.setInactive : ExecM Unit := fun s =>
  .ok ()
    { s with
      tm := s.tm.abort s.tx.id
      tx := { s.tx with active := false, lastLsn := 0, snapshot := none } }

/-- `take_held_locks` and `unlock_all`. -/
def unlockAll : ExecM Unit := fun s =>
  .ok ()
    { s with
      locks := s.locks.filter fun e => ¬ (e.2 = s.tx.id ∧ e.1 ∈ s.tx.heldLocks)
      tx := { s.tx with heldLocks := [] } }

/-! ## Page chains -/

/-- The loop every chain scan runs: `while cur != NO_NEXT_PAGE && cur < page_count()`. -/
def chainLoop : Nat → Nat → PoolM (List (Nat × Page))
  | 0, _ => throw .diverge
  | fuel + 1, cur => do
    let s ← get
    if cur = NO_NEXT_PAGE ∨ s.pageCount ≤ cur then return []
    else do
      let page ← fetchPage cur
      let rest ← chainLoop fuel page.nextPageId
      return (cur, page) :: rest

/-- The pages of a chain from `first` on. -/
def chainPages (first : Nat) : PoolM (List (Nat × Page)) := do
  chainLoop (← pageFuel) first

/-- A live slot of a heap page read as a row; anything else fails to decode. -/
def decodeRow : PageTuple → Except DbError HeapTuple
  | .heap t => .ok t
  | _ => .error (.bail "tuple truncated: missing MVCC header")

/-- The live rows of a page with their slots. -/
def liveRows : Nat → List Slot → Except DbError (List (Nat × HeapTuple))
  | _, [] => .ok []
  | i, s :: rest =>
    match s.tuple with
    | none => liveRows (i + 1) rest
    | some raw => do
      let t ← decodeRow raw
      let out ← liveRows (i + 1) rest
      .ok ((i, t) :: out)

/-- The rows of one page of a chain. -/
def pageRows (p : Nat × Page) : Except DbError (List (Rid × HeapTuple)) := do
  let rows ← liveRows 0 p.2.slots
  .ok (rows.map fun r => ((p.1, r.1), r.2))

/-! ## Index definitions -/

def PG_INDEX_PAGE_ID : Nat := 2
def SYSTEM_TXN_ID : Nat := 1

/-- `n as usize` of an `i32`. -/
def asUsize (n : Int32) : Nat := n.toInt64.toUInt64.toNat

/-- `n as PageId` of an `i32`. -/
def asPageId (n : Int32) : Nat := n.toUInt32.toNat

/-- One `pg_index` row; rows of another shape are skipped. -/
def decodeIndexRow : List Value → Option IndexDef
  | .int id :: .varchar name :: .int table :: .int col :: .int root :: rest =>
    some ⟨asUsize id, name, asUsize table, asUsize col, asPageId root,
      match rest with
      | .bool b :: _ => b
      | _ => false⟩
  | _ => none

/-- `Catalog::all_indexes`: every row of `pg_index` that is not deleted. -/
def allIndexes : PoolM (List IndexDef) := do
  let pages ← chainPages PG_INDEX_PAGE_ID
  let rows ← liftE (pages.mapM pageRows)
  return rows.flatten.filterMap fun r =>
    if r.2.xmax = 0 then decodeIndexRow r.2.values else none

/-- `Catalog::indexes_for_table`. -/
def indexesForTable (tableId : Nat) : ExecM (List IndexDef) := do
  match (← getCtx).catalog.indexesByTable.find? fun e => e.1 = tableId with
  | some e => return e.2
  | none => do
    let all ← onPool allIndexes
    let list := all.filter fun i => i.tableId = tableId
    modify fun s => { s with catalog :=
      { s.catalog with indexesByTable := (tableId, list) :: s.catalog.indexesByTable } }
    return list

/-- `Catalog::table_by_id` and the error its callers raise. -/
def tableById (tableId : Nat) : ExecM TableDef := do
  match (← getCtx).catalog.tables.find? fun t => t.tableId = tableId with
  | some t => return t
  | none => throw (.bail s!"table id {tableId} not in catalog")

/-- Does a `pg_index` row carry this index id? -/
def isIndexRow (indexId : Nat) (t : HeapTuple) : Bool :=
  match t.values with
  | .int n :: _ => asUsize n == indexId
  | _ => false

/-- `update_index_root`: the first row with the id is tombstoned, dead or
alive, and a new one goes to the head page. None of it is logged. -/
def updateIndexRoot (indexId newRoot : Nat) : PoolM Unit := do
  let pages ← chainPages PG_INDEX_PAGE_ID
  let rows ← liftE (pages.mapM pageRows)
  match rows.flatten.find? fun r => isIndexRow indexId r.2 with
  | none => throw (.bail s!"update_index_root: index {indexId} not found")
  | some (rid, t) => do
    let page ← fetchPage rid.1
    let page' ← liftE (page.delete rid.2)
    writePage rid.1 page'
    let vals := t.values.take 4 ++ [.int (UInt32.ofNat newRoot).toInt32, t.values.getD 5 (.bool false)]
    let head ← fetchPage PG_INDEX_PAGE_ID
    let (_, head') ← liftE (head.insert (.heap (.mk' SYSTEM_TXN_ID invalidTxnId vals)))
    writePage PG_INDEX_PAGE_ID head'

end Ccdb
