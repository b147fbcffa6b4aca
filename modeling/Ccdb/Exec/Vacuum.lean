import Ccdb.Exec.Dml

/-!
# Ccdb — VACUUM

`perform_vacuum`: dead rows are tombstoned and their pages compacted, the
`all_visible` bit is set where every remaining row passes the test for it,
the index entries of the dead rows are dropped or re-aimed, emptied pages
leave the chain, and empty leaves leave the leaf chain of every index.
-/

namespace Ccdb

open BTree (liftE pageFuel)

/-! ## Heap pages -/

/-- `is_tuple_dead`. -/
def isTupleDead (xmin xmax oldestXmin : Nat) (tm : TransactionManager) : Bool :=
  if tm.status xmin = .aborted then true
  else decide (xmax ≠ invalidTxnId ∧ xmax < oldestXmin ∧ tm.status xmax = .committed)

/-- The rows of a page that VACUUM reclaims, with their slots. -/
def deadRows (tm : TransactionManager) (oldestXmin : Nat) (page : Page) :
    Except DbError (List (Nat × HeapTuple)) := do
  let rows ← liveRows 0 page.slots
  .ok (rows.filter fun r => isTupleDead r.2.xmin r.2.xmax oldestXmin tm)

/-- `for slot in dead { p.delete(slot)?; }`. -/
def deleteSlots : List Nat → Page → Except DbError Page
  | [], p => .ok p
  | slot :: rest, p => do
    let p' ← p.delete slot
    deleteSlots rest p'

/-- `if p.page_lsn() < stamp_lsn { p.set_page_lsn(stamp_lsn) }`. -/
def stampPage (p : Page) (stampLsn : Nat) : Page :=
  if p.pageLsn < stampLsn then p.setPageLsn stampLsn else p

/-- The test for the `all_visible` bit on one row. -/
def settledRow (tm : TransactionManager) (oldestXmin : Nat) (t : HeapTuple) : Bool :=
  decide (t.xmax = invalidTxnId ∧ t.xmin < oldestXmin ∧ tm.status t.xmin = .committed)

/-- The dead rows leave the page; the page is compacted if there are any. -/
def reclaimPage (stampLsn : Nat) (dead : List (Nat × HeapTuple)) (page : Page) : Except DbError Page :=
  if dead.isEmpty then .ok page
  else do
    let page' ← deleteSlots (dead.map Prod.fst) page
    .ok (stampPage page'.vacuumCompact stampLsn)

/-- Setting the bit stamps the page once more. -/
def markAllVisible (tm : TransactionManager) (oldestXmin stampLsn : Nat) (page : Page) :
    Except DbError Page := do
  if page.isEmpty then .ok page
  else do
    let rows ← liveRows 0 page.slots
    if rows.all fun r => settledRow tm oldestXmin r.2 then
      .ok (if page.allVisible then page else stampPage (page.setAllVisible true) stampLsn)
    else .ok page

/-! ## Index entries -/

/-- `==` on values: doubles compare as numbers. -/
def valueEq : Value → Value → Bool
  | .double x, .double y =>
    match BTree.f64Rank x, BTree.f64Rank y with
    | some a, some b => a == b
    | _, _ => false
  | a, b => a == b

/-- The walk to a live successor along `t_ctid`: the first version without a
deleter whose creator is committed. -/
def aliveLoop (tm : TransactionManager) : Nat → Rid → PoolM (Option (Rid × List Value))
  | 0, _ => return none
  | n + 1, step => do
    match ← fetchTuple step with
    | none => return none
    | some (_, t) =>
      if t.xmax = invalidTxnId ∧ tm.status t.xmin = .committed then return some (step, t.values)
      else if isNoCtid t.ctid then return none
      else aliveLoop tm n t.ctid

/-- `values[col]`. -/
def columnOf (values : List Value) (col : Nat) : Except DbError Value :=
  match values[col]? with
  | some v => .ok v
  | none => .error (.panic "index out of bounds")

/-- The live successor of a dead row, if its chain has one. -/
def aliveOf (tm : TransactionManager) (ctid : Rid) : PoolM (Option (Rid × List Value)) :=
  if isNoCtid ctid then return none else aliveLoop tm MAX_CHAIN ctid

/-- The index entry of one dead row: dropped, and re-aimed at the live
successor if that still has the key. -/
def cleanEntry (tm : TransactionManager) (pageId : Nat) (idx : IndexDef) (ty : DataType)
    (dead : Nat × HeapTuple) : PoolM Unit := do
  let keyValue ← liftE (columnOf dead.2.values idx.columnIndex)
  if keyValue = .null then return ()
  else do
    let key := BTree.encodeKey keyValue
    let alive ← aliveOf tm dead.2.ctid
    let _ ← BTree.delete idx.rootPageId key (pageId, dead.1) ty
    match alive with
    | none => return ()
    | some (liveRid, liveVals) => do
      let liveKey ← liftE (columnOf liveVals idx.columnIndex)
      if liveKey ≠ .null ∧ valueEq liveKey keyValue then do
        let newRoot ← BTree.insert idx.rootPageId key liveRid ty
        if newRoot ≠ idx.rootPageId then updateIndexRoot idx.indexId newRoot

/-- `index_meta`: the indexes with their key types. -/
def indexMeta (table : TableDef) (indexes : List IndexDef) :
    Except DbError (List (IndexDef × DataType)) :=
  indexes.mapM fun idx =>
    match table.columns[idx.columnIndex]? with
    | some ty => .ok (idx, ty)
    | none => .error (.panic "index out of bounds")

/-! ## The chain of a table -/

/-- What VACUUM has fixed when it starts on a table. -/
structure VacuumEnv where
  tm : TransactionManager
  oldestXmin : Nat
  stampLsn : Nat

/-- `bpm.recycle_page`. -/
def recyclePage (p : Nat) : PoolM Unit := fun s =>
  .ok () { s with freeList := p :: s.freeList }

/-- An emptied page leaves the chain; the head never does. -/
def unlinkPage (env : VacuumEnv) (prev cur next : Nat) : ExecM Unit := do
  let pp ← onPool (fetchPage prev)
  writeHeap prev (stampPage (pp.setNextPageId next) env.stampLsn)
  onPool (recyclePage cur)

/-- The page part of VACUUM on one heap page: its dead rows and whether it is
empty now. -/
def vacuumPage (env : VacuumEnv) (cur : Nat) (page : Page) :
    ExecM (List (Nat × HeapTuple) × Bool) := do
  let dead ← liftX (deadRows env.tm env.oldestXmin page)
  let page' ← liftX (reclaimPage env.stampLsn dead page)
  writeHeap cur page'
  let page'' ← liftX (markAllVisible env.tm env.oldestXmin env.stampLsn page')
  writeHeap cur page''
  return (dead, page'.isEmpty)

/-- The chain walk. `prev` is the last page that was kept. -/
def vacuumLoop (env : VacuumEnv) (indexes : List (IndexDef × DataType)) :
    Nat → Option Nat → Nat → ExecM Unit
  | 0, _, _ => throw .diverge
  | fuel + 1, prev, cur => do
    let s ← getCtx
    if cur = NO_NEXT_PAGE ∨ s.pool.pageCount ≤ cur then return ()
    else do
      let page ← onPool (fetchPage cur)
      let next := page.nextPageId
      if page.pageKind ≠ .heap then vacuumLoop env indexes fuel (some cur) next
      else do
        let (dead, becameEmpty) ← vacuumPage env cur page
        indexes.forM fun i => dead.forM fun r => onPool (cleanEntry env.tm cur i.1 i.2 r)
        match becameEmpty, prev with
        | true, some prevPid => do
          unlinkPage env prevPid cur next
          vacuumLoop env indexes fuel prev next
        | _, _ => vacuumLoop env indexes fuel (some cur) next

/-- The heap and index part of VACUUM on one table. -/
def vacuumTable (env : VacuumEnv) (table : TableDef) (indexes : List IndexDef) : ExecM Unit := do
  let metas ← liftX (indexMeta table indexes)
  vacuumLoop env metas (← onPool pageFuel) none table.firstPageId

/-! ## Leaf chains -/

/-- The loop of `sweep_empty_leaves`. -/
def sweepLoop (stampLsn : Nat) : Nat → Nat → Nat → PoolM Unit
  | 0, _, _ => throw .diverge
  | fuel + 1, prev, cur => do
    if cur = NO_NEXT_PAGE then return ()
    else do
      let p ← fetchPage cur
      if p.isEmpty then do
        let pp ← fetchPage prev
        writePage prev (stampPage (pp.setNextPageId p.nextPageId) stampLsn)
        sweepLoop stampLsn fuel prev p.nextPageId
      else sweepLoop stampLsn fuel cur p.nextPageId

/-- `sweep_empty_leaves`. -/
def sweepEmptyLeaves (stampLsn root : Nat) : PoolM Unit := do
  let first ← BTree.leftmostLeaf root
  let page ← fetchPage first
  sweepLoop stampLsn (← pageFuel) first page.nextPageId

/-! ## The statement -/

/-- VACUUM on one table of the statement. -/
def vacuumOne (oldestXmin stampLsn tableId : Nat) : ExecM Unit := do
  let table ← tableById tableId
  let indexes ← indexesForTable tableId
  let s ← getCtx
  vacuumTable ⟨s.tm, oldestXmin, stampLsn⟩ table indexes

/-- The leaf chains of one table's indexes. -/
def sweepOne (stampLsn tableId : Nat) : ExecM Unit := do
  let indexes ← indexesForTable tableId
  indexes.forM fun idx => onPool (sweepEmptyLeaves stampLsn idx.rootPageId)

/-- `perform_vacuum`. The Begin record is the stamp of every page it touches;
both brackets are written under the id of the transaction that runs it. -/
def performVacuum (tables : List Nat) : ExecM Unit := do
  let oldestXmin := (← getCtx).tm.oldestActiveXmin
  let stampLsn ← logRecord .begin
  tables.forM (vacuumOne oldestXmin stampLsn)
  tables.forM (sweepOne stampLsn)
  let _ ← logRecord .commit
  flushWal

end Ccdb
