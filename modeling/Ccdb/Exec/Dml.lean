import Ccdb.Exec.Context

/-!
# Ccdb — INSERT, UPDATE and DELETE

The row operations of `executor.rs`: heap reads under a snapshot, appends to
the end of a page chain, index maintenance with the uniqueness probe, foreign keys,
and the three DML statements with their retry loops. Expressions and CHECK
constraints arrive as functions of a row; sequences are left out.
-/

namespace Ccdb

open BTree (liftE pageFuel)

/-! ## Reading the heap -/

/-- The test of `SeqScan::next` and `visible_rows`: the page bit first. -/
def rowVisible (page : Page) (t : HeapTuple) (snap : Snapshot) (tm : TransactionManager) : Bool :=
  page.allVisible || isVisible t.xmin t.xmax snap tm

/-- The visible rows of one page. -/
def visibleOn (snap : Snapshot) (tm : TransactionManager) (p : Nat × Page) :
    Except DbError (List (Rid × List Value)) := do
  let rows ← pageRows p
  .ok ((rows.filter fun r => rowVisible p.2 r.2 snap tm).map fun r => (r.1, r.2.values))

/-- `visible_rows`. -/
def visibleRows (first : Nat) (snap : Snapshot) (tm : TransactionManager) :
    PoolM (List (Rid × List Value)) := do
  let pages ← chainPages first
  let rows ← liftE (pages.mapM (visibleOn snap tm))
  return rows.flatten

/-- `SeqScan`: `next` until it returns `None`. -/
def seqScan (first : Nat) (snap : Snapshot) (tm : TransactionManager) : PoolM (List (List Value)) := do
  let rows ← visibleRows first snap tm
  return rows.map Prod.snd

/-- `MAX_CHAIN`. -/
def MAX_CHAIN : Nat := 32

/-- The tuple a rid points at. -/
def fetchTuple (rid : Rid) : PoolM (Option (Page × HeapTuple)) := do
  let page ← fetchPage rid.1
  match page.getTuple rid.2 with
  | none => return none
  | some raw => do
    let t ← liftE (decodeRow raw)
    return some (page, t)

/-- `follow_chain_visible`: the first visible version along `t_ctid`. -/
def followChainVisible (snap : Snapshot) (tm : TransactionManager) :
    Nat → Rid → PoolM (Option (Rid × List Value))
  | 0, _ => return none
  | n + 1, cur => do
    match ← fetchTuple cur with
    | none => return none
    | some (page, t) =>
      if rowVisible page t snap tm then return some (cur, t.values)
      else if isNoCtid t.ctid then return none
      else followChainVisible snap tm n t.ctid

/-! ## Predicates -/

/-- A WHERE clause: its value on a row, and the two shapes an index can serve
(`match_eq_col_literal`, `match_between`). -/
structure Predicate where
  eval : List Value → Except DbError Value
  eqLiteral : Option (Nat × Value)
  between : Option (Nat × Value × Value)

/-- `matches`: NULL excludes the row. -/
def matchesRow (pred : Option Predicate) (row : List Value) : Except DbError Bool :=
  match pred with
  | none => .ok true
  | some p => do
    match ← p.eval row with
    | .bool b => .ok b
    | .null => .ok false
    | other => .error (notBoolean "WHERE predicate" other)

inductive IndexRange where
  | eq (key : Bytes)
  | between (low high : Bytes)
deriving DecidableEq, Repr

def IndexRange.startKey : IndexRange → Bytes
  | eq key => key
  | between low _ => low

/-- Is `key` past the end of the range? -/
def IndexRange.past (r : IndexRange) (key : Bytes) (ty : DataType) : Except DbError Bool :=
  match r with
  | eq target => do .ok ((← BTree.compareKeys key target ty) ≠ .eq)
  | between _ high => do .ok ((← BTree.compareKeys key high ty) = .gt)

/-- `find_indexable_predicate`. -/
def findIndexablePredicate (pred : Option Predicate) (table : TableDef) :
    ExecM (Option (IndexDef × IndexRange × DataType)) := do
  match pred with
  | none => return none
  | some p => do
    let indexes ← indexesForTable table.tableId
    let byEq : Option (IndexDef × IndexRange × DataType) := do
      let (col, lit) ← p.eqLiteral
      let idx ← indexes.find? fun i => i.columnIndex = col
      let ty ← table.columns[col]?
      some (idx, .eq (BTree.encodeKey lit), ty)
    let byRange : Option (IndexDef × IndexRange × DataType) := do
      let (col, low, high) ← p.between
      let idx ← indexes.find? fun i => i.columnIndex = col
      let ty ← table.columns[col]?
      some (idx, .between (BTree.encodeKey low) (BTree.encodeKey high), ty)
    return byEq <|> byRange

/-- The index loop of `matching_rows`. -/
def indexRowsLoop (pred : Option Predicate) (range : IndexRange) (ty : DataType) (snap : Snapshot)
    (tm : TransactionManager) : Nat → Option Rid → PoolM (List (Rid × List Value))
  | 0, _ => throw .diverge
  | _, none => return []
  | fuel + 1, some c => do
    match ← BTree.readAt c with
    | none => return []
    | some (key, rid, next) => do
      if ← liftE (range.past key ty) then return []
      match ← followChainVisible snap tm MAX_CHAIN rid with
      | none => indexRowsLoop pred range ty snap tm fuel next
      | some (live, values) => do
        -- the full predicate is checked again on the version found
        let keep ← liftE (matchesRow pred values)
        let rest ← indexRowsLoop pred range ty snap tm fuel next
        return if keep then (live, values) :: rest else rest

/-- The rows of a scan that satisfy the predicate. -/
def filterRows (pred : Option Predicate) : List (Rid × List Value) →
    Except DbError (List (Rid × List Value))
  | [] => .ok []
  | r :: rest => do
    let keep ← matchesRow pred r.2
    let out ← filterRows pred rest
    .ok (if keep then r :: out else out)

/-- How many entries an index walk may return before it has repeated one. -/
def entryFuel : PoolM Nat := fun s => .ok ((s.pageCount + 1) * PAGE_SIZE) s

/-- `matching_rows`. -/
def matchingRows (table : TableDef) (pred : Option Predicate) (snap : Snapshot) :
    ExecM (List (Rid × List Value)) := do
  let tm := (← getCtx).tm
  match ← findIndexablePredicate pred table with
  | some (idx, range, ty) => onPool do
    let cursor ← BTree.firstGe idx.rootPageId range.startKey ty
    indexRowsLoop pred range ty snap tm (← entryFuel) cursor
  | none => do
    let all ← onPool (visibleRows table.firstPageId snap tm)
    liftX (filterRows pred all)

/-! ## SELECT -/

/-- The tables of FROM, the WHERE clause, and what the operators above make of the rows. -/
structure SelectStmt where
  tables : List Nat
  pred : Option Predicate
  operators : List (List (List Value)) → Except DbError (List (List Value))

/-- The Select branch of `execute`: a single table may be read through an index. -/
def performSelect (stmt : SelectStmt) : ExecM (List (List Value)) := do
  let s ← getCtx
  match s.tx.snapshot with
  | none => throw (.bail "no snapshot for tx")
  | some snap => do
    let defs ← stmt.tables.mapM tableById
    match defs with
    | [table] => do
      let rows ← matchingRows table stmt.pred snap
      liftX (stmt.operators [rows.map Prod.snd])
    | _ => do
      let rows ← onPool (defs.mapM fun table => seqScan table.firstPageId snap s.tm)
      liftX (stmt.operators rows)

/-! ## Writing the heap -/

/-- The walk to the last page of a chain. -/
def tailLoop : Nat → Nat → PoolM Nat
  | 0, _ => throw .diverge
  | fuel + 1, last => do
    let page ← fetchPage last
    if page.nextPageId = NO_NEXT_PAGE then return last
    else tailLoop fuel page.nextPageId

/-- `bpm.new_page()` for a heap page; the empty page is on disk at once. -/
def newHeapPage : ExecM Nat := do
  let p ← onPool newPage
  writeHeap p (.new p)
  return p

/-- A row goes to a page that has room for it, with its Insert record. -/
def placeRow (p : Nat) (t : HeapTuple) (slot : Nat) (page : Page) : ExecM (Rid × Nat × Nat) := do
  let lsn ← logRecord (.insert (p, slot) t)
  writeHeap p (page.setPageLsn lsn)
  return ((p, slot), lsn, p)

/-- The error of a row that is larger than a page. -/
def freshPageError : DbError → DbError
  | .bail msg => .bail s!"tuple does not fit on a fresh page: {msg}"
  | e => e

/-- A row that the last page has no room for starts a new page. The link from
the old tail to it is not logged. -/
def growChain (last : Nat) (t : HeapTuple) : ExecM (Rid × Nat × Nat) := do
  let newPid ← newHeapPage
  let fresh ← onPool (fetchPage newPid)
  let (slot, fresh') ← liftX ((fresh.insert (.heap t)).mapError freshPageError)
  let out ← placeRow newPid t slot fresh'
  let prev ← onPool (fetchPage last)
  writeHeap last (prev.setNextPageId newPid)
  return out

/-- `insert_bytes_hinted`: the rid, its LSN and the page that took the row. -/
def insertBytesHinted (first : Nat) (t : HeapTuple) (hint : Option Nat) : ExecM (Rid × Nat × Nat) := do
  let last ← onPool (do tailLoop (← pageFuel) (hint.getD first))
  let page ← onPool (fetchPage last)
  match page.insert (.heap t) with
  | .ok (slot, page') => placeRow last t slot page'
  | .error _ => growChain last t

/-- `insert_bytes`. -/
def insertBytes (first : Nat) (t : HeapTuple) : ExecM Rid := do
  let (rid, _, _) ← insertBytesHinted first t none
  return rid

/-- `set_tuple_xmax` under a write guard, with its Delete record. -/
def markDeleted (rid : Rid) : ExecM Unit := do
  let id := (← getCtx).tx.id
  let page ← onPool (fetchPage rid.1)
  let page' ← liftX (page.setTupleXmax rid.2 id)
  let lsn ← logRecord (.delete rid id)
  writeHeap rid.1 (page'.setPageLsn lsn)

/-- `set_tuple_ctid` on the old version of a HOT update. Not logged. -/
def forwardRow (rid newRid : Rid) : ExecM Unit := do
  let page ← onPool (fetchPage rid.1)
  let page' ← liftX (page.setTupleCtid rid.2 newRid)
  writeHeap rid.1 page'

/-! ## Unique indexes -/

/-- What one candidate says about a uniqueness probe. -/
inductive Verdict where
  | skip
  | clash
  | wait (txn : Nat)
deriving DecidableEq, Repr

/-- One candidate in `check_unique_or_wait`. -/
def checkCandidate (tm : TransactionManager) (self : Nat) (t : HeapTuple) : Verdict :=
  if t.xmin = self then
    if t.xmax = self then .skip
    else if t.xmax = invalidTxnId then .clash
    else .skip
  else
    match tm.status t.xmin with
    | .aborted => .skip
    | .inProgress => .wait t.xmin
    | .committed =>
      if t.xmax = invalidTxnId then .clash
      else if t.xmax = self then .skip
      else
        match tm.status t.xmax with
        | .committed => .skip
        | .aborted => .clash
        | .inProgress => .wait t.xmax

/-- One candidate in `detect_unique_conflict`: unlike the check, a row this
transaction inserted and deleted is waited for. -/
def detectCandidate (tm : TransactionManager) (self : Nat) (t : HeapTuple) : Verdict :=
  if t.xmin = self ∧ t.xmax = invalidTxnId then .clash
  else
    match tm.status t.xmin with
    | .aborted => .skip
    | .inProgress => .wait t.xmin
    | .committed =>
      if t.xmax = invalidTxnId then .clash
      else if t.xmax = self then .skip
      else
        match tm.status t.xmax with
        | .committed => .skip
        | .aborted => .clash
        | .inProgress => .wait t.xmax

/-- The first candidate that is not skipped; slots that are gone are. -/
def judgeAll (judge : HeapTuple → Verdict) : List Rid → PoolM (Option (Rid × Verdict))
  | [] => return none
  | rid :: rest => do
    match ← fetchTuple rid with
    | none => judgeAll judge rest
    | some (_, t) =>
      match judge t with
      | .skip => judgeAll judge rest
      | v => return some (rid, v)

def uniqueError (idx : IndexDef) : DbError :=
  .bail s!"duplicate key value violates unique constraint {idx.name} [SQLSTATE 23505]"

def waitError (txn : Nat) : DbError :=
  .bail s!"waiting for txn {txn}: lock acquisition timeout (possible deadlock)"

/-- `check_unique_or_wait`. The index is probed through the root the caller's
`IndexDef` has. -/
def checkUniqueOrWait (idx : IndexDef) (key : Bytes) (ty : DataType) (ownRid : Rid) : ExecM Unit := do
  let s ← getCtx
  let candidates ← onPool (BTree.lookupEq idx.rootPageId key ty)
  match ← onPool (judgeAll (checkCandidate s.tm s.tx.id) (candidates.filter fun c => c ≠ ownRid)) with
  | none => return ()
  | some (_, .skip) => return ()
  | some (_, .clash) => throw (uniqueError idx)
  | some (_, .wait txn) => throw (waitError txn)

/-- The unique indexes a row has a key in. -/
def uniqueKeys (table : TableDef) (indexes : List IndexDef) (values : List Value) :
    List (IndexDef × Bytes × DataType) :=
  indexes.filterMap fun idx =>
    if !idx.isUnique then none
    else
      match values[idx.columnIndex]?, table.columns[idx.columnIndex]? with
      | some v, some ty => if v = .null then none else some (idx, BTree.encodeKey v, ty)
      | _, _ => none

/-- The loop of `detect_unique_conflict`. -/
def detectLoop : List (IndexDef × Bytes × DataType) → ExecM (Option (IndexDef × Rid))
  | [] => return none
  | (idx, key, ty) :: rest => do
    let s ← getCtx
    let candidates ← onPool (BTree.lookupEq idx.rootPageId key ty)
    match ← onPool (judgeAll (detectCandidate s.tm s.tx.id) candidates) with
    | none => detectLoop rest
    | some (_, .skip) => detectLoop rest
    | some (rid, .clash) => return some (idx, rid)
    | some (_, .wait txn) => throw (waitError txn)

/-- `detect_unique_conflict`. -/
def detectUniqueConflict (table : TableDef) (values : List Value) : ExecM (Option (IndexDef × Rid)) := do
  let indexes ← indexesForTable table.tableId
  detectLoop (uniqueKeys table indexes values)

/-- One turn of `index_insert_for_row_with_lm`. -/
def indexInsertOne (check : Bool) (table : TableDef) (values : List Value) (rid : Rid)
    (idx : IndexDef) : ExecM Unit := do
  match values[idx.columnIndex]?, table.columns[idx.columnIndex]? with
  | some v, some ty =>
    if v = .null then return ()
    else do
      let key := BTree.encodeKey v
      if idx.isUnique ∧ check then checkUniqueOrWait idx key ty rid
      let newRoot ← onPool (BTree.insert idx.rootPageId key rid ty)
      if newRoot ≠ idx.rootPageId then onPool (updateIndexRoot idx.indexId newRoot)
      let _ ← logRecord (.indexInsert idx.indexId key rid)
      return ()
  | _, _ => throw (.panic "index out of bounds")

/-- `index_insert_for_row_with_lm`; without a lock manager (`check = false`)
the uniqueness probe is left out. -/
def indexInsertForRow (check : Bool) (table : TableDef) (values : List Value) (rid : Rid) :
    ExecM Unit := do
  let indexes ← indexesForTable table.tableId
  indexes.forM (indexInsertOne check table values rid)

/-! ## Foreign keys -/

/-- `values_equal`: doubles are equal bit by bit, NULL and INTERVAL values never. -/
def valuesEqual : Value → Value → Bool
  | .int x, .int y => x == y
  | .varchar x, .varchar y => x == y
  | .bool x, .bool y => x == y
  | .double x, .double y => x == y
  | .timestamp x, .timestamp y => x == y
  | .date x, .date y => x == y
  | .time x, .time y => x == y
  | _, _ => false

/-- What the functions below ask of the catalog. -/
structure KeyCatalog where
  tableById : Nat → Except DbError (Option TableDef)
  allConstraints : List ConstraintDef

def Catalog.keys (cat : Catalog) : KeyCatalog :=
  ⟨fun id => .ok (cat.tables.find? fun t => t.tableId = id), cat.constraints⟩

/-- `table_by_id` where a missing table is an error. -/
def KeyCatalog.tableOr (cat : KeyCatalog) (id : Nat) (missing : String) : ExecM TableDef := do
  match ← liftX (cat.tableById id) with
  | some t => return t
  | none => throw (.bail missing)

/-- The position of a column. -/
def columnOr (t : TableDef) (name missing : String) : ExecM Nat :=
  match t.columnNames.findIdx? fun c => c = name with
  | some i => return i
  | none => throw (.bail missing)

/-- `row[i]`. -/
def valueAt (row : List Value) (i : Nat) : Except DbError Value :=
  match row[i]? with
  | some v => .ok v
  | none => .error (.panic "index out of bounds")

/-- The rows whose column `i` has the value `target`. -/
def rowsEqual (i : Nat) (target : Value) : List (Rid × List Value) →
    Except DbError (List (Rid × List Value))
  | [] => .ok []
  | r :: rest => do
    let v ← valueAt r.2 i
    let out ← rowsEqual i target rest
    .ok (if valuesEqual v target then r :: out else out)

/-- The candidates of an index probe in `fk_target_exists`; the page bit is not asked. -/
def anyTarget (snap : Snapshot) (tm : TransactionManager) (i : Nat) (target : Value) :
    List Rid → PoolM Bool
  | [] => return false
  | rid :: rest => do
    match ← fetchTuple rid with
    | none => anyTarget snap tm i target rest
    | some (_, t) =>
      if !isVisible t.xmin t.xmax snap tm then anyTarget snap tm i target rest
      else do
        if valuesEqual (← liftE (valueAt t.values i)) target then return true
        else anyTarget snap tm i target rest

/-- `fk_target_exists`. -/
def fkTargetExists (cat : KeyCatalog) (snap : Snapshot) (refId : Nat) (refColumn : String)
    (target : Value) : ExecM Bool := do
  let table ← cat.tableOr refId s!"ref table {refId} missing"
  let col ← columnOr table refColumn s!"ref column {refColumn} missing"
  let indexes ← indexesForTable refId
  let tm := (← getCtx).tm
  match indexes.find? fun i => i.columnIndex = col with
  | some idx =>
    match table.columns[col]? with
    | none => throw (.panic "index out of bounds")
    | some ty => onPool do
      let candidates ← BTree.lookupEq idx.rootPageId (BTree.encodeKey target) ty
      anyTarget snap tm col target candidates
  | none => do
    let all ← onPool (visibleRows table.firstPageId snap tm)
    let rows ← liftX (rowsEqual col target all)
    return !rows.isEmpty

/-- One constraint of the table in `enforce_fk_on_child_write`. -/
def enforceFk (cat : Catalog) (table : TableDef) (values : List Value) (snap : Snapshot)
    (c : ConstraintDef) : ExecM Unit :=
  match c.kind with
  | .check => return ()
  | .foreignKey =>
    match ForeignKey.decode c.definition with
    | none => throw (.bail s!"malformed FK definition: {c.definition}")
    | some fk => do
      let col ← columnOr table fk.column s!"FK '{c.name}' references missing local column"
      let v ← liftX (valueAt values col)
      if v = .null then return ()
      else
        match cat.tables.find? fun t => t.name = fk.refTable with
        | none => throw (.bail s!"FK target '{fk.refTable}' missing")
        | some ref => do
          if ← fkTargetExists cat.keys snap ref.tableId fk.refColumn v then return ()
          else throw (.bail s!"insert or update on \"{table.name}\" violates foreign key constraint \"{c.name}\" [SQLSTATE 23503]")

/-- `enforce_fk_on_child_write`. -/
def enforceFkOnChildWrite (tableId : Nat) (values : List Value) : ExecM Unit := do
  let s ← getCtx
  let table ← s.catalog.keys.tableOr tableId s!"table {tableId} missing"
  match s.tx.snapshot with
  | none => throw (.bail "no snapshot for tx")
  | some snap =>
    (s.catalog.constraints.filter fun c => c.tableId = tableId).forM
      (enforceFk s.catalog table values snap)

section

variable (cat : KeyCatalog) (check : Nat → List Value → Except DbError Unit)

/-- One row of the CASCADE branch. -/
def cascadeRow (recurse : Nat → List Value → ExecM Unit) (childId : Nat)
    (r : Rid × List Value) : ExecM Unit := do
  recurse childId r.2
  lockRow r.1
  markDeleted r.1

/-- One row of the SET NULL branch. -/
def setNullRow (childId : Nat) (child : TableDef) (col : Nat) (r : Rid × List Value) :
    ExecM Unit := do
  let newValues := r.2.set col .null
  liftX (check childId newValues)
  lockRow r.1
  markDeleted r.1
  let id := (← getCtx).tx.id
  let newRid ← insertBytes child.firstPageId (.mk' id invalidTxnId newValues)
  lockRow newRid
  indexInsertForRow true child newValues newRid

/-- The action of a clause on the rows that reference the parent row. -/
def onDelete (recurse : Nat → List Value → ExecM Unit) (parent child : TableDef)
    (c : ConstraintDef) (action : String) (col : Nat) (rows : List (Rid × List Value)) : ExecM Unit :=
  if action = "RESTRICT" ∨ action = "NO_ACTION" then
    throw (.bail s!"update or delete on \"{parent.name}\" violates foreign key constraint \"{c.name}\" on \"{child.name}\" [SQLSTATE 23503]")
  else if action = "CASCADE" then rows.forM (cascadeRow recurse c.tableId)
  else if action = "SET_NULL" then rows.forM (setNullRow check c.tableId child col)
  else throw (.bail s!"unknown FK action '{action}'")

/-- A FOREIGN KEY clause that names the parent. -/
def followKey (recurse : Nat → List Value → ExecM Unit) (parent : TableDef)
    (row : List Value) (snap : Snapshot) (c : ConstraintDef) (fk : ForeignKey) : ExecM Unit := do
  let parentCol ← columnOr parent fk.refColumn "FK ref column missing"
  let target ← liftX (valueAt row parentCol)
  if target = .null then return ()
  else do
    let child ← cat.tableOr c.tableId s!"child table {c.tableId} missing"
    let childCol ← columnOr child fk.column "FK child column missing"
    let tm := (← getCtx).tm
    let all ← onPool (visibleRows child.firstPageId snap tm)
    let rows ← liftX (rowsEqual childCol target all)
    if rows = [] then return ()
    else onDelete check recurse parent child c fk.onDelete childCol rows

/-- One constraint of the catalog. -/
def followClause (recurse : Nat → List Value → ExecM Unit) (parent : TableDef)
    (row : List Value) (snap : Snapshot) (c : ConstraintDef) : ExecM Unit :=
  match c.kind with
  | .check => return ()
  | .foreignKey =>
    match ForeignKey.decode c.definition with
    | none => return ()
    | some fk =>
      if fk.refTable ≠ parent.name then return ()
      else followKey cat check recurse parent row snap c fk

/-- `cascade_fk_on_parent_delete`, with its calls of itself as `recurse`. -/
def cascadeFkOnParentDelete (recurse : Nat → List Value → ExecM Unit) (parentId : Nat)
    (row : List Value) : ExecM Unit := do
  let parent ← cat.tableOr parentId s!"parent table {parentId} missing"
  match (← getCtx).tx.snapshot with
  | none => throw (.bail "no snapshot for tx")
  | some snap => cat.allConstraints.forM (followClause cat check recurse parent row snap)

/-- The function to the given depth, and `deep` past it. -/
def cascade (deep : Nat → List Value → ExecM Unit) : Nat → Nat → List Value → ExecM Unit
  | 0 => deep
  | n + 1 => cascadeFkOnParentDelete cat check (cascade deep n)

end

/-! ## INSERT -/

/-- The IEEE 754 bits of a small integer, which is always exact. -/
def doubleBits (n : Int32) : UInt64 :=
  let m := n.toInt.natAbs
  if m = 0 then 0
  else
    let e := m.log2
    let sign := if n < 0 then 2 ^ 63 else 0
    UInt64.ofNat (sign + (e + 1023) * 2 ^ 52 + (m * 2 ^ (52 - e) - 2 ^ 52))

/-- `coerce_for_storage`. -/
def coerceForStorage (v : Value) (target : DataType) : Value :=
  match v, target with
  | .int n, .double => .double (doubleBits n)
  | v, _ => v

/-- An assignment `column = expr`. -/
structure Assignment where
  columnIndex : Nat
  value : List Value → Except DbError Value

/-- The assignments applied to a row; all expressions see the old values. -/
def applyAssignments (table : TableDef) (row : List Value) :
    List Assignment → List Value → Except DbError (List Value)
  | [], acc => .ok acc
  | a :: rest, acc => do
    let v ← a.value row
    match table.columns[a.columnIndex]? with
    | none => .error (.panic "index out of bounds")
    | some ty => applyAssignments table row rest (acc.set a.columnIndex (coerceForStorage v ty))

inductive OnConflict where
  | doNothing
  | doUpdate (assignments : List Assignment) (pred : Option Predicate)

/-- `check` is `enforce_check_constraints` for the table. -/
structure InsertStmt where
  tableId : Nat
  rows : List (Except DbError (List Value))
  onConflict : Option OnConflict
  check : List Value → Except DbError Unit

/-- `on_conflict_do_update`: the row found is replaced without looking again
at its header after the lock, and without a look at foreign keys. -/
def onConflictDoUpdate (stmt : InsertStmt) (table : TableDef) (target : Rid)
    (assignments : List Assignment) (pred : Option Predicate) : ExecM Bool := do
  match ← onPool (fetchTuple target) with
  | none => throw (.bail "ON CONFLICT target tuple disappeared")
  | some (_, old) => do
    if !(← liftX (matchesRow pred old.values)) then return false
    let newValues ← liftX (applyAssignments table old.values assignments old.values)
    liftX (stmt.check newValues)
    lockRow target
    markDeleted target
    let id := (← getCtx).tx.id
    let newRid ← insertBytes table.firstPageId (.mk' id invalidTxnId newValues)
    lockRow newRid
    indexInsertForRow true table newValues newRid
    return true

/-- The normal path of `perform_insert` for one row. -/
def insertRow (stmt : InsertStmt) (table : TableDef) (values : List Value) : ExecM Unit := do
  liftX (stmt.check values)
  enforceFkOnChildWrite stmt.tableId values
  let id := (← getCtx).tx.id
  let rid ← insertBytes table.firstPageId (.mk' id invalidTxnId values)
  lockRow rid
  indexInsertForRow true table values rid

/-- One row of `perform_insert`: how many rows it affects. -/
def insertStmtRow (stmt : InsertStmt) (table : TableDef) (row : Except DbError (List Value)) :
    ExecM Nat := do
  let raw ← liftX row
  let values := List.zipWith coerceForStorage raw table.columns
  match stmt.onConflict with
  | none => do
    insertRow stmt table values
    return 1
  | some action => do
    match ← detectUniqueConflict table values with
    | none => do
      insertRow stmt table values
      return 1
    | some (_, rid) =>
      match action with
      | .doNothing => return 0
      | .doUpdate assignments pred => do
        let updated ← onConflictDoUpdate stmt table rid assignments pred
        return if updated then 1 else 0

def insertRowsLoop (stmt : InsertStmt) (table : TableDef) :
    List (Except DbError (List Value)) → Nat → ExecM Nat
  | [], count => return count
  | row :: rest, count => do
    let n ← insertStmtRow stmt table row
    insertRowsLoop stmt table rest (count + n)

/-- `perform_insert`. -/
def performInsert (stmt : InsertStmt) : ExecM Nat := do
  let table ← tableById stmt.tableId
  insertRowsLoop stmt table stmt.rows 0

/-! ## UPDATE and DELETE -/

def MAX_RETRIES : Nat := 8

/-- The header check after the row lock was taken. -/
inductive Recheck where
  | gone
  | free
  | restart
deriving DecidableEq, Repr

def concurrentError : DbError :=
  .bail "could not serialize access due to concurrent update [SQLSTATE 40001]"

/-- The post-lock recheck of UPDATE and DELETE. -/
def recheckRow (rid : Rid) : ExecM Recheck := do
  let s ← getCtx
  match ← onPool (fetchTuple rid) with
  | none => return .gone
  | some (_, t) =>
    if t.xmax ≠ invalidTxnId ∧ t.xmax ≠ s.tx.id then
      match s.tm.status t.xmax with
      | .committed => return .restart
      | .aborted => return .free
      | .inProgress => throw concurrentError
    else return .free

/-- A fresh statement snapshot, which the transaction keeps. -/
def freshSnapshot : ExecM Snapshot := fun s =>
  let snap := s.tm.snapshot s.tx.id
  .ok snap { s with tx := { s.tx with snapshot := some snap } }

structure UpdateStmt where
  tableId : Nat
  pred : Option Predicate
  assignments : List Assignment
  check : List Value → Except DbError Unit

/-- What one row does to the row loop. -/
inductive RowStep where
  | counted
  | skipped
  | restart
deriving DecidableEq, Repr

def isUniqueError : DbError → Bool
  | .bail msg => decide ("[SQLSTATE 23505]".toList <:+: msg.toList)
  | _ => false

/-- The index part of a non-HOT update: a uniqueness clash restarts the
statement instead of failing it. -/
def reindexRow (table : TableDef) (values : List Value) (rid : Rid) : ExecM RowStep := fun s =>
  match indexInsertForRow true table values rid s with
  | .ok _ s' => .ok .counted s'
  | .error e s' => if isUniqueError e then .ok .restart s' else .error e s'

/-- The write part of `perform_update` for one row. -/
def replaceRow (stmt : UpdateStmt) (table : TableDef) (rid : Rid) (values : List Value) :
    ExecM RowStep := do
  let newValues ← liftX (applyAssignments table values stmt.assignments values)
  liftX (stmt.check newValues)
  enforceFkOnChildWrite stmt.tableId newValues
  let indexes ← indexesForTable stmt.tableId
  let touched := indexes.any fun i => stmt.assignments.any fun a => a.columnIndex == i.columnIndex
  markDeleted rid
  let id := (← getCtx).tx.id
  let newRid ← insertBytes table.firstPageId (.mk' id invalidTxnId newValues)
  lockRow newRid
  if touched then reindexRow table newValues newRid
  else do
    -- HOT: the old version points at the new one, the index stays as it is
    forwardRow rid newRid
    return .counted

/-- One row of `perform_update`. -/
def updateRow (stmt : UpdateStmt) (table : TableDef) (rid : Rid) (values : List Value) :
    ExecM RowStep := do
  lockRow rid
  match ← recheckRow rid with
  | .gone => return .skipped
  | .restart => return .restart
  | .free => replaceRow stmt table rid values

/-- The row loop; `none` asks for a restart. -/
def rowLoop (step : Rid → List Value → ExecM RowStep) :
    List (Rid × List Value) → Nat → ExecM (Option Nat)
  | [], count => return some count
  | (rid, values) :: rest, count => do
    match ← step rid values with
    | .counted => rowLoop step rest (count + 1)
    | .skipped => rowLoop step rest count
    | .restart => return none

/-- The `'restart` loop of UPDATE and DELETE. -/
def retryLoop (name : String) (table : TableDef) (pred : Option Predicate)
    (step : Rid → List Value → ExecM RowStep) : Nat → ExecM Nat
  | 0 => throw (.bail s!"could not serialize access — {name} retried 8 times against concurrent updates [SQLSTATE 40001]")
  | n + 1 => do
    let snap ← freshSnapshot
    let rows ← matchingRows table pred snap
    match ← rowLoop step rows 0 with
    | some count => return count
    | none => retryLoop name table pred step n

/-- `perform_update`. -/
def performUpdate (stmt : UpdateStmt) : ExecM Nat := do
  let table ← tableById stmt.tableId
  retryLoop "UPDATE" table stmt.pred (updateRow stmt table) MAX_RETRIES

/-- `check` is `enforce_check_constraints` of the tables, for rows that ON DELETE
SET NULL writes. -/
structure DeleteStmt where
  tableId : Nat
  pred : Option Predicate
  check : Nat → List Value → Except DbError Unit

/-- What `perform_delete` does to a row once its references are dealt with. -/
def deleteRow (rid : Rid) : ExecM RowStep := do
  lockRow rid
  match ← recheckRow rid with
  | .gone => return .skipped
  | .restart => return .restart
  | .free => do
    markDeleted rid
    return .counted

/-- `perform_delete`, with the calls of `cascade_fk_on_parent_delete` to the given
depth, and `deep` past it. -/
def deleteFrom (cat : KeyCatalog) (deep : Nat → List Value → ExecM Unit) (depth : Nat)
    (stmt : DeleteStmt) : ExecM Nat := do
  let table ← cat.tableOr stmt.tableId s!"table id {stmt.tableId} not in catalog"
  retryLoop "DELETE" table stmt.pred (fun rid values => do
    cascade cat stmt.check deep depth stmt.tableId values
    deleteRow rid) MAX_RETRIES

/-- `perform_delete`; a call past the depth does not return. -/
def performDelete (depth : Nat) (stmt : DeleteStmt) : ExecM Nat := do
  deleteFrom (← getCtx).catalog.keys (fun _ _ => throw .diverge) depth stmt

end Ccdb
