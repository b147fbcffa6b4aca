import Ccdb.Catalog.Lookup

/-!
# Ccdb — statements that write the catalog

The DDL statements of `analyzer.rs` and `executor.rs` as far as they read and
write the system tables, and the catalog side of DML: the lookups and, where an
index insertion splits the root of a tree, `update_index_root`.

A statement that fails keeps the rows it has written. What a B+tree insertion
returns, the number of pages a bulk build takes and which rows VACUUM finds dead
are inputs of the statements. Reads and writes of the log and of pages succeed.
-/

namespace Ccdb.PgCatalog

/-! ## Writing the chains -/

/-- `bpm.new_page()`. -/
def newPage : CatM Nat := fun st =>
  .ok (st.fresh st.allocs) { st with allocs := st.allocs + 1 }

def State.setChain (st : State) (rel : Rel) (pages : List Page) : State :=
  { st with
    chains := Function.update st.chains rel pages
    version := st.version + 1 }

/-- The last page of a chain takes the row or has no room for it. -/
def placeLast (pages : List Page) (t : HeapTuple) : Option (List Page) :=
  match pages.getLast? with
  | none => none
  | some last =>
    match last.insert (.heap t) with
    | .ok (_, page) => some (pages.dropLast ++ [page])
    | .error _ => none

/-- `insert_bytes`. -/
def insertBytes (rel : Rel) (t : HeapTuple) : CatM Unit := do
  let st ← get
  match placeLast (st.chains rel) t with
  | some pages => modify fun st => st.setChain rel pages
  | none => do
    let pid ← newPage
    let (_, page) ← liftE (((Page.new pid).insert (.heap t)).mapError freshPageError)
    modify fun st => st.setChain rel (st.chains rel ++ [page])

/-- The row of a slot that `scan_chain` would return and `pred` holds of. -/
def liveMatch (pred : List Value → Bool) (s : Slot) : Option HeapTuple :=
  match s.tuple with
  | some (.heap t) => if t.xmax = 0 ∧ pred t.values then some t else none
  | _ => none

/-- `set_tuple_xmax` on the matching slots. -/
def tombstoneSlots (pred : List Value → Bool) (txn : Nat) (slots : List Slot) : List Slot :=
  slots.map fun s =>
    match liveMatch pred s with
    | some t => { s with tuple := some (.heap { t with xmax := txn }) }
    | none => s

def tombstonePage (pred : List Value → Bool) (txn : Nat) (p : Page) : Page :=
  { p with slots := tombstoneSlots pred txn p.slots }

/-- `tombstone_catalog_rows`. -/
def tombstoneCatalogRows (rel : Rel) (txn : Nat) (pred : List Value → Bool) : CatM Unit :=
  modify fun st => st.setChain rel ((st.chains rel).map (tombstonePage pred txn))

/-- Change the first slot that `f` takes; the row it had. -/
def changeSlot (f : Slot → Option (HeapTuple × Slot)) : List Slot → Option (HeapTuple × List Slot)
  | [] => none
  | s :: rest =>
    match f s with
    | some (t, s') => some (t, s' :: rest)
    | none => (changeSlot f rest).map fun r => (r.1, s :: r.2)

/-- Change the first slot of a chain that `f` takes. -/
def changeFirst (f : Slot → Option (HeapTuple × Slot)) :
    List Page → Option (HeapTuple × List Page)
  | [] => none
  | p :: rest =>
    match changeSlot f p.slots with
    | some (t, slots) => some (t, { p with slots := slots } :: rest)
    | none => (changeFirst f rest).map fun r => (r.1, p :: r.2)

/-- `rewrite_catalog_row`: the first matching row is tombstoned, and the new one
goes to the end of the chain. -/
def rewriteCatalogRow (rel : Rel) (txn : Nat) (pred : List Value → Bool)
    (transform : List Value → List Value) : CatM Unit := do
  let st ← get
  match changeFirst (fun s => (liveMatch pred s).map fun t =>
      (t, { s with tuple := some (.heap { t with xmax := txn }) })) (st.chains rel) with
  | none => throw (.bail "rewrite_catalog_row: matching row not found")
  | some (t, pages) => do
    modify fun st => st.setChain rel pages
    insertBytes rel (.mk' SYSTEM_TXN_ID invalidTxnId (transform t.values))

theorem rewriteCatalogRow_run (rel : Rel) (txn : Nat) (pred : List Value → Bool)
    (transform : List Value → List Value) (st : State) :
    rewriteCatalogRow rel txn pred transform st =
      (match changeFirst (fun s => (liveMatch pred s).map fun t =>
          (t, { s with tuple := some (.heap { t with xmax := txn }) })) (st.chains rel) with
      | none => throw (.bail "rewrite_catalog_row: matching row not found")
      | some (t, pages) => do
        modify fun st => st.setChain rel pages
        insertBytes rel (.mk' SYSTEM_TXN_ID invalidTxnId (transform t.values)) : CatM Unit) st := rfl

/-- `update_index_root`: the first row with the id is removed, dead or alive, and
the new one goes to the head page. The cache is left as it is. -/
def updateIndexRoot (indexId newRoot : Nat) : CatM Unit := do
  let st ← get
  match changeFirst (fun s =>
      match s.tuple with
      | some (.heap t) => if isIndexRow indexId t then some (t, { s with tuple := none }) else none
      | _ => none) (st.chains .pgIndex) with
  | none => throw (.bail s!"update_index_root: index {indexId} not found")
  | some (t, pages) => do
    modify fun st => st.setChain .pgIndex pages
    let vals := t.values.take 4 ++ [.int (asI32 newRoot), t.values.getD 5 (.bool false)]
    match pages with
    | [] => throw (.panic "pg_index has no head page")
    | head :: rest => do
      let (_, head') ← liftE (head.insert (.heap (.mk' SYSTEM_TXN_ID invalidTxnId vals)))
      modify fun st => st.setChain .pgIndex (head' :: rest)

/-- `matches!(&vals[k], Value::Int(n) if *n as usize == id)`. -/
def hasId (k id : Nat) (vals : List Value) : Bool :=
  match vals[k]? with
  | some (.int n) => asUsize n == id
  | _ => false

/-! ## CREATE -/

/-- `max_id.max(id as i32)` over the rows there are, from -1. -/
def maxId (ids : List Nat) : Int32 := ids.foldl (fun m id => if m ≤ asI32 id then asI32 id else m) (-1)

/-- `AnalyzedCreateIndexStatement` without the names it is logged under. -/
structure CreateIndexStmt where
  name : String
  tableId : Nat
  columnIndex : Nat
  isUnique : Bool
deriving DecidableEq, Repr

/-- `bulk_build_btree` takes `n + 1` pages, the root last. -/
def allocPages : Nat → CatM Nat
  | 0 => newPage
  | n + 1 => do
    let _ ← newPage
    allocPages n

/-- `perform_create_index`. -/
def performCreateIndex (txn pages : Nat) (s : CreateIndexStmt) : CatM Unit := do
  let st ← get
  let newId := maxId (st.allIndexes.map IndexDef.indexId) + 1
  -- `visible_rows`
  match ← tableById s.tableId with
  | none => throw (.bail s!"table id {s.tableId} not in catalog")
  | some _ => do
    let root ← allocPages pages
    insertBytes .pgIndex (.mk' txn invalidTxnId
      [.int newId, .varchar s.name, .int (asI32 s.tableId), .int (asI32 s.columnIndex),
        .int (asI32 root), .bool s.isUnique])
    invalidate

structure CreateTableStmt where
  table : String
  columns : List ColumnDef
  primaryKey : List String
  checkConstraints : List String
  foreignKeys : List ForeignKey
deriving DecidableEq, Repr

/-- The column of a PRIMARY KEY clause. -/
def primaryKeyColumn (s : CreateTableStmt) : Except DbError (Option Nat) :=
  match s.primaryKey with
  | [] => .ok none
  | [name] =>
    match s.columns.findIdx? fun c => c.name = name with
    | some i => .ok (some i)
    | none => .error (.bail s!"PRIMARY KEY references unknown column '{name}'")
  | _ => .error (.bail "multi-column PRIMARY KEY not supported yet")

/-- The checks on one FOREIGN KEY clause. -/
def analyzeForeignKey (s : CreateTableStmt) (fk : ForeignKey) : CatM Unit :=
  if !s.columns.any fun c => c.name = fk.column then
    throw (.bail s!"FOREIGN KEY references unknown column '{fk.column}'")
  else do
    match ← findTable fk.refTable with
    | none => throw (.bail s!"referenced table '{fk.refTable}' not found")
    | some (_, t) =>
      if !t.columns.any fun c => c.name = fk.refColumn then
        throw (.bail s!"referenced column '{fk.refTable}.{fk.refColumn}' not found")
      else pure ()

/-- `analyze_create_table`: the primary key column. -/
def analyzeCreateTable (s : CreateTableStmt) : CatM (Option Nat) := do
  match ← findTable s.table with
  | some _ => throw (.bail s!"table '{s.table}' already exists")
  | none => do
    let pk ← liftE (primaryKeyColumn s)
    s.foreignKeys.forM (analyzeForeignKey s)
    return pk

/-- The id of the new table. -/
def newTableId (tables : List TableDef) : Int32 :=
  let next := maxId (tables.map TableDef.tableId) + 1
  if next ≤ 5 then 5 else next

/-- The `pg_attribute` row of a column. -/
def attributeTuple (txn : Nat) (tableId : Int32) (c : ColumnDef) (ord : Nat) : HeapTuple :=
  .mk' txn invalidTxnId
    [.int tableId, .varchar c.name, .int (datatypeToInt c.dataType), .bool c.nullable,
      .int (asI32 ord), .varchar (c.defaultText.getD "")]

/-- The `pg_constraint` row of a CHECK or a FOREIGN KEY clause. -/
def constraintTuple (txn : Nat) (constraintId : Int32) (name : String) (tableId : Int32)
    (kind : ConstraintKind) (definition : String) : HeapTuple :=
  .mk' txn invalidTxnId
    [.int constraintId, .varchar name, .int tableId, .int kind.toInt, .varchar definition]

/-- The index of a PRIMARY KEY clause. -/
def createPrimaryKey (txn pages : Nat) (s : CreateTableStmt) (tableId : Int32) :
    Option Nat → CatM Unit
  | some col => performCreateIndex txn pages ⟨s!"{s.table}_pkey", asUsize tableId, col, true⟩
  | none => pure ()

/-- The rest of `perform_create_table`, after the `pg_class` row. -/
def createTableRows (txn pages : Nat) (s : CreateTableStmt) (pk : Option Nat) (tableId : Int32) :
    CatM Unit := do
  s.columns.zipIdx.forM fun c => insertBytes .pgAttribute (attributeTuple txn tableId c.1 c.2)
  let st ← get
  let next := maxId (st.allConstraints.map ConstraintDef.constraintId) + 1
  s.checkConstraints.zipIdx.forM fun c => insertBytes .pgConstraint
    (constraintTuple txn (next + asI32 c.2) s!"{s.table}_check_{c.2}" tableId .check c.1)
  s.foreignKeys.zipIdx.forM fun c => insertBytes .pgConstraint
    (constraintTuple txn (next + asI32 (s.checkConstraints.length + c.2)) s!"{s.table}_fkey_{c.2}"
      tableId .foreignKey c.1.encode)
  createPrimaryKey txn pages s tableId pk
  invalidate

/-- `perform_create_table`. -/
def performCreateTable (txn pages : Nat) (s : CreateTableStmt) (pk : Option Nat) : CatM Unit := do
  let st ← get
  let tables ← liftE st.userTables
  let tableId := newTableId tables
  let page ← newPage
  insertBytes .pgClass (.mk' txn invalidTxnId
    [.int tableId, .varchar s.table, .int (asI32 page)])
  createTableRows txn pages s pk tableId

/-- `analyze_create_index`. ALTER TABLE ADD PRIMARY KEY / UNIQUE has the same
checks and a name of its own making. -/
def analyzeCreateIndex (name table column : String) (isUnique : Bool) : CatM CreateIndexStmt := do
  match ← findTable table with
  | none => throw (.bail s!"table '{table}' not found")
  | some (id, t) =>
    match t.columns.findIdx? fun c => c.name = column with
    | none => throw (.bail s!"column '{column}' not found")
    | some i => do
      let st ← get
      if (st.findIndex name).isSome then throw (.bail s!"index '{name}' already exists")
      else return ⟨name, id, i, isUnique⟩

structure CreateSequenceStmt where
  name : String
  ifNotExists : Bool
  increment : Int64
  minValue : Option Int64
  maxValue : Option Int64
  startValue : Option Int64
deriving DecidableEq, Repr

/-- `AnalyzedCreateSequenceStatement`. -/
structure AnalyzedSequence where
  name : String
  increment : Int64
  startValue : Int64
  minValue : Int64
  maxValue : Int64
deriving DecidableEq, Repr

/-- The defaults of MINVALUE and MAXVALUE. -/
def sequenceBounds (increment : Int64) : Int64 × Int64 :=
  if 0 < increment then (1, 2147483647) else (-2147483648, -1)

/-- `analyze_create_sequence`. IF NOT EXISTS skips the test of the name, and no more. -/
def analyzeCreateSequence (s : CreateSequenceStmt) : CatM AnalyzedSequence := do
  let st ← get
  if !s.ifNotExists ∧ (st.findSequence s.name).isSome then
    throw (.bail s!"sequence '{s.name}' already exists")
  else if s.increment = 0 then throw (.bail "sequence INCREMENT must not be zero")
  else
    let minValue := s.minValue.getD (sequenceBounds s.increment).1
    let maxValue := s.maxValue.getD (sequenceBounds s.increment).2
    let startValue := s.startValue.getD (if 0 < s.increment then minValue else maxValue)
    if startValue < minValue ∨ maxValue < startValue then
      throw (.bail "START value out of [MINVALUE, MAXVALUE] range")
    else return ⟨s.name, s.increment, startValue, minValue, maxValue⟩

/-- `perform_create_sequence`. -/
def performCreateSequence (txn : Nat) (s : AnalyzedSequence) : CatM Unit := do
  let st ← get
  let newId := maxId (st.allSequences.map SequenceDef.seqId) + 1
  let page ← newPage
  insertBytes .pgSequence (.mk' txn invalidTxnId
    [.int newId, .varchar s.name, .int (asI32 page), .int s.increment.toInt32,
      .int s.startValue.toInt32, .int s.minValue.toInt32, .int s.maxValue.toInt32])
  invalidate

/-! ## DROP and TRUNCATE -/

/-- The ids of the named tables. -/
def resolveTables (ifExists : Bool) : List String → CatM (List Nat)
  | [] => pure []
  | name :: rest => do
    match ← findTable name with
    | some (id, _) => do
      let ids ← resolveTables ifExists rest
      return id :: ids
    | none =>
      if ifExists then resolveTables ifExists rest
      else throw (.bail s!"table '{name}' not found")

/-- `perform_drop_table`. -/
def performDropTable (txn : Nat) (ids : List Nat) : CatM Unit := do
  ids.forM fun id => do
    tombstoneCatalogRows .pgClass txn (hasId 0 id)
    tombstoneCatalogRows .pgAttribute txn (hasId 0 id)
    tombstoneCatalogRows .pgIndex txn (hasId 2 id)
  invalidate

/-- DROP INDEX: `analyze_drop_index` and `perform_drop_index`. -/
def dropIndex (txn : Nat) (name : String) (ifExists : Bool) : CatM Unit := do
  let st ← get
  match st.findIndex name with
  | some idx => do
    tombstoneCatalogRows .pgIndex txn (hasId 0 idx.indexId)
    invalidate
  | none => if ifExists then pure () else throw (.bail s!"index '{name}' not found")

theorem dropIndex_run (txn : Nat) (name : String) (ifExists : Bool) (st : State) :
    dropIndex txn name ifExists st = (match st.findIndex name with
      | some idx => do
        tombstoneCatalogRows .pgIndex txn (hasId 0 idx.indexId)
        invalidate
      | none =>
        if ifExists then pure () else throw (.bail s!"index '{name}' not found") : CatM Unit) st := rfl

/-- The ids of the named sequences. -/
def resolveSequences (st : State) (ifExists : Bool) : List String → Except DbError (List Nat)
  | [] => .ok []
  | name :: rest =>
    match st.findSequence name with
    | some seq => (resolveSequences st ifExists rest).map (seq.seqId :: ·)
    | none =>
      if ifExists then resolveSequences st ifExists rest
      else .error (.bail s!"sequence '{name}' not found")

/-- DROP SEQUENCE: `analyze_drop_sequence` and `perform_drop_sequence`. -/
def dropSequence (txn : Nat) (names : List String) (ifExists : Bool) : CatM Unit := do
  let st ← get
  let ids ← liftE (resolveSequences st ifExists names)
  ids.forM fun id => tombstoneCatalogRows .pgSequence txn (hasId 0 id)
  invalidate

/-- `perform_truncate`. -/
def performTruncate (txn : Nat) (ids : List Nat) : CatM Unit := do
  ids.forM fun id => do
    let page ← newPage
    rewriteCatalogRow .pgClass txn (hasId 0 id) fun vals => vals.set 2 (.int (asI32 page))
    let indexes ← indexesForTable id
    indexes.forM fun idx => do
      -- `new_empty_root`
      let root ← newPage
      rewriteCatalogRow .pgIndex txn (hasId 0 idx.indexId) fun vals =>
        vals.set 4 (.int (asI32 root))
  invalidate

/-! ## DML and VACUUM -/

/-- The catalog operations of a statement on user tables. `grown` has the trees
whose root the insertions of a row split, and their new roots. -/
inductive Op where
  | findTable (name : String)
  | tableById (id : Nat)
  | indexesForTable (id : Nat)
  | constraintsForTable (id : Nat)
  | indexInsert (tableId : Nat) (grown : List (Nat × Nat))
deriving DecidableEq, Repr

/-- The root `btree::insert` returns. -/
def insertedRoot (grown : List (Nat × Nat)) (idx : IndexDef) : Nat :=
  ((grown.find? fun g => g.1 = idx.indexId).map Prod.snd).getD idx.rootPageId

/-- `index_insert_for_row_with_lm`, and the rewiring of VACUUM. -/
def indexInsertForRow (tableId : Nat) (grown : List (Nat × Nat)) : CatM Unit := do
  let indexes ← indexesForTable tableId
  if indexes.isEmpty then pure ()
  else
    match ← tableById tableId with
    | none => throw (.bail s!"table {tableId} missing")
    | some _ =>
      indexes.forM fun idx =>
        if insertedRoot grown idx ≠ idx.rootPageId then
          updateIndexRoot idx.indexId (insertedRoot grown idx)
        else pure ()

def Op.run : Op → CatM Unit
  | .findTable name => do let _ ← PgCatalog.findTable name
  | .tableById id => do let _ ← PgCatalog.tableById id
  | .indexesForTable id => do let _ ← PgCatalog.indexesForTable id
  | .constraintsForTable id => do let _ ← PgCatalog.constraintsForTable id
  | .indexInsert tableId grown => indexInsertForRow tableId grown

/-- What a DML statement does to a system table it names: a new row, or `xmax` on
the rows it matches. -/
inductive RowWrite where
  | insert (values : List Value)
  | delete (pred : List Value → Bool)

def RowWrite.run (rel : Rel) (txn : Nat) : RowWrite → CatM Unit
  | .insert values => insertBytes rel (.mk' txn invalidTxnId values)
  | .delete pred => tombstoneCatalogRows rel txn pred

/-- `delete` on a slot whose row is dead. -/
def reclaimSlot (dead : Nat → Nat → Bool) (s : Slot) : Slot :=
  match s.tuple with
  | some (.heap t) => if dead t.xmin t.xmax then { s with tuple := none } else s
  | _ => s

/-- VACUUM of a page of a system table: the dead rows go, and the page is
compacted if there were any. -/
def vacuumPage (dead : Nat → Nat → Bool) (p : Page) : Page :=
  if (pageTuples p).any fun t => dead t.xmin t.xmax then
    Page.vacuumCompact { p with slots := p.slots.map (reclaimSlot dead) }
  else p

/-- VACUUM of a system table; an empty page other than the head is unlinked. -/
def vacuumChain (dead : Nat → Nat → Bool) (pages : List Page) : List Page :=
  match pages.map (vacuumPage dead) with
  | [] => []
  | head :: rest => head :: rest.filter fun p => !p.isEmpty

/-- The id of the transaction a statement runs in; 0 is not one. -/
abbrev TxnId := { n : Nat // n ≠ 0 }

instance (n : Nat) : OfNat TxnId (n + 1) := ⟨⟨n + 1, n.succ_ne_zero⟩⟩

inductive Stmt where
  | createTable (txn : TxnId) (pages : Nat) (s : CreateTableStmt)
  | createIndex (txn : TxnId) (pages : Nat) (name table column : String) (isUnique : Bool)
  | createSequence (txn : TxnId) (s : CreateSequenceStmt)
  | dropTable (txn : TxnId) (names : List String) (ifExists : Bool)
  | dropIndex (txn : TxnId) (name : String) (ifExists : Bool)
  | dropSequence (txn : TxnId) (names : List String) (ifExists : Bool)
  | truncate (txn : TxnId) (names : List String)
  -- SELECT, INSERT, UPDATE, DELETE, COPY and VACUUM on user tables
  | dml (ops : List Op)
  -- DML that names a system table
  | direct (rel : Rel) (txn : TxnId) (writes : List RowWrite)
  -- VACUUM that names a system table; `dead` is `is_tuple_dead`
  | vacuum (rel : Rel) (dead : Nat → Nat → Bool)

def Stmt.run : Stmt → CatM Unit
  | .createTable txn pages s => do
    let pk ← analyzeCreateTable s
    performCreateTable txn pages s pk
  | .createIndex txn pages name table column isUnique => do
    let s ← analyzeCreateIndex name table column isUnique
    performCreateIndex txn pages s
  | .createSequence txn s => do
    let a ← analyzeCreateSequence s
    performCreateSequence txn a
  | .dropTable txn names ifExists => do
    let ids ← resolveTables ifExists names
    performDropTable txn ids
  | .dropIndex txn name ifExists => PgCatalog.dropIndex txn name ifExists
  | .dropSequence txn names ifExists => PgCatalog.dropSequence txn names ifExists
  | .truncate txn names => do
    let ids ← resolveTables false names
    performTruncate txn ids
  | .dml ops => ops.forM Op.run
  | .direct rel txn writes => writes.forM (RowWrite.run rel txn)
  | .vacuum rel dead => modify fun st =>
      { st with chains := Function.update st.chains rel (vacuumChain dead (st.chains rel)) }

/-- A statement runs to its end or to its error, and leaves what it has done. -/
def State.step (st : State) (stmt : Stmt) : Option State := some (stmt.run st).final

end Ccdb.PgCatalog
