import Ccdb.Catalog.Coherence
import Ccdb.Txn.Manager

/-!
# Ccdb — DDL in a transaction

BEGIN and ROLLBACK of `executor.rs` around DDL statements. ROLLBACK logs an Abort
record, flushes the log and enters the abort in the commit log; the pages of the
system tables and the catalog cache stay as the statements left them. The log is
not part of this model.

A statement that fails leaves the transaction open, as it does on the extended
protocol. On the simple protocol the connection rolls back there, and the
transaction is the part up to that statement.

Main results:

* `Sound` — a catalog in good order; `Sound.answers` says what the lookups return.
-/

namespace Ccdb.PgCatalog

/-- The DDL statements. -/
inductive Ddl where
  | createTable (pages : Nat) (s : CreateTableStmt)
  | createIndex (pages : Nat) (name table column : String) (isUnique : Bool)
  | createSequence (s : CreateSequenceStmt)
  | dropTable (names : List String) (ifExists : Bool)
  | dropIndex (name : String) (ifExists : Bool)
  | dropSequence (names : List String) (ifExists : Bool)
  | truncate (names : List String)
deriving DecidableEq, Repr

def Ddl.stmt (txn : TxnId) : Ddl → Stmt
  | .createTable pages s => .createTable txn pages s
  | .createIndex pages name table column isUnique =>
    .createIndex txn pages name table column isUnique
  | .createSequence s => .createSequence txn s
  | .dropTable names ifExists => .dropTable txn names ifExists
  | .dropIndex name ifExists => .dropIndex txn name ifExists
  | .dropSequence names ifExists => .dropSequence txn names ifExists
  | .truncate names => .truncate txn names

/-- One statement of the transaction, to its end or to its error. -/
def State.ddl (txn : TxnId) (st : State) (d : Ddl) : Option State := st.step (d.stmt txn)

/-! ## The connection -/

/-- A connection: its `Transaction`, and the manager and the catalog it works on. -/
structure Conn where
  catalog : State
  tm : TransactionManager
  txn : TxnId
  active : Bool
  next_pos : 0 < tm.nextTxnId

namespace Conn

/-- `Transaction::begin`: the id before is closed, and a new one is taken. -/
def newTxn (c : Conn) : Conn where
  catalog := c.catalog
  tm := (c.tm.commit c.txn).begin.2
  txn := ⟨(c.tm.commit c.txn).nextTxnId, by
    have hnext : (c.tm.commit c.txn).nextTxnId = c.tm.nextTxnId :=
      TransactionManager.nextTxnId_decideClog
    have := c.next_pos
    omega⟩
  active := true
  next_pos := Nat.succ_pos _

/-- BEGIN. -/
def begin (c : Conn) : Except DbError Conn :=
  if c.active then .error (.bail "there is already a transaction in progress") else .ok c.newTxn

/-- ROLLBACK: `rollback` and `set_inactive`. -/
def rollback (c : Conn) : Except DbError Conn :=
  if c.active then
    .ok ⟨c.catalog, c.tm.abort c.txn, c.txn, false, by
      have hnext : (c.tm.abort c.txn).nextTxnId = c.tm.nextTxnId :=
        TransactionManager.nextTxnId_decideClog
      have := c.next_pos
      omega⟩
  else .error (.bail "there is no transaction in progress")

/-- The statements of an open transaction, one after the other. -/
def runs (c : Conn) (ds : List Ddl) : Conn :=
  { c with catalog := after (State.ddl c.txn) c.catalog ds }

/-- `BEGIN; ds; ROLLBACK`. -/
def rolledBack (c : Conn) (ds : List Ddl) : Except DbError Conn := do
  let c ← c.begin
  (c.runs ds).rollback

end Conn

/-- A transaction that was begun and rolled back: only the statements count. -/
theorem rolledBack_catalog {c : Conn} (hidle : c.active = false) (ds : List Ddl) :
    ∃ c', c.rolledBack ds = .ok c' ∧
      c'.catalog = after (State.ddl c.newTxn.txn) c.catalog ds := by
  have hbegin : c.begin = .ok c.newTxn := by
    unfold Conn.begin
    rw [hidle]
    rfl
  have hopen : c.rolledBack ds = (c.newTxn.runs ds).rollback := by
    unfold Conn.rolledBack
    rw [hbegin]
    rfl
  rw [hopen]
  exact ⟨_, rfl, rfl⟩

/-! ## Answers -/

/-- The lookups answer alike. -/
structure SameAnswers (st st' : State) : Prop where
  findTable : ∀ name, answer (findTable name) st' = answer (findTable name) st
  tableById : ∀ id, answer (tableById id) st' = answer (tableById id) st
  indexesForTable : ∀ id, answer (indexesForTable id) st' = answer (indexesForTable id) st
  findSequence : ∀ name, st'.findSequence name = st.findSequence name
  constraintsForTable : ∀ id,
    answer (constraintsForTable id) st' = answer (constraintsForTable id) st

theorem SameAnswers.symm {st st' : State} (h : SameAnswers st st') : SameAnswers st' st where
  findTable name := (h.findTable name).symm
  tableById id := (h.tableById id).symm
  indexesForTable id := (h.indexesForTable id).symm
  findSequence name := (h.findSequence name).symm
  constraintsForTable id := (h.constraintsForTable id).symm

theorem SameAnswers.trans {st st' st'' : State} (h : SameAnswers st st')
    (h' : SameAnswers st' st'') : SameAnswers st st'' where
  findTable name := (h'.findTable name).trans (h.findTable name)
  tableById id := (h'.tableById id).trans (h.tableById id)
  indexesForTable id := (h'.indexesForTable id).trans (h.indexesForTable id)
  findSequence name := (h'.findSequence name).trans (h.findSequence name)
  constraintsForTable id := (h'.constraintsForTable id).trans (h.constraintsForTable id)

/-- A catalog in good order: one well-formed row for each table, a cache that
agrees with the rows, rows that fit on a page, and page ids to come that no table
begins with. -/
structure Sound (st : State) : Prop where
  classOk : ClassOk st
  cacheOk : CacheOk st
  classRoom : ∀ vals ∈ scanChain (st.chains .pgClass), rowSpace vals ≤ PAGE_SIZE - HEADER_SIZE
  indexRows : ∀ vals ∈ scanChain (st.chains .pgIndex), (decodeIndexRow vals).isSome = true ∧
    rowSpace vals ≤ PAGE_SIZE - HEADER_SIZE
  fresh : ∀ n, st.allocs ≤ n → st.fresh n < NO_NEXT_PAGE →
    ∀ r ∈ st.classRows, st.fresh n ≠ asPageId r.firstPage

variable {st st' : State}

namespace Sound

theorem findTable (h : Sound st) (name : String) :
    answer (PgCatalog.findTable name) st = st.scanByName name := by
  rw [(h.cacheOk.coherent h.classOk).findTable, answer_findTable]
  rfl

theorem tableById (h : Sound st) (id : Nat) :
    answer (PgCatalog.tableById id) st = st.scanById id := by
  rw [(h.cacheOk.coherent h.classOk).tableById, answer_tableById]
  rfl

theorem indexesForTable (h : Sound st) (id : Nat) :
    answer (PgCatalog.indexesForTable id) st = .ok (st.indexesOf id) := by
  rw [(h.cacheOk.coherent h.classOk).indexesForTable, answer_indexesForTable]
  rfl

theorem constraintsForTable (h : Sound st) (id : Nat) :
    answer (PgCatalog.constraintsForTable id) st = .ok (st.constraintsOf id) := by
  rw [(h.cacheOk.coherent h.classOk).constraintsForTable, answer_constraintsForTable]
  rfl

/-- Where the rows are the same, apart from those of `pg_sequence`, and the same
sequences are found, the answers are. -/
theorem answers (h : Sound st) (h' : Sound st')
    (hrows : ∀ rel, rel ≠ .pgSequence → scanChain (st'.chains rel) = scanChain (st.chains rel))
    (hseq : ∀ name, st'.findSequence name = st.findSequence name) : SameAnswers st st' := by
  have hclass : st'.classRows = st.classRows := by
    unfold State.classRows
    rw [hrows .pgClass (by decide)]
  have hload : st'.loadTable = st.loadTable := by
    funext r
    unfold State.loadTable State.columnsFor
    rw [hrows .pgAttribute (by decide)]
  refine ⟨fun name => ?_, fun id => ?_, fun id => ?_, hseq, fun id => ?_⟩
  · rw [h'.findTable, h.findTable]
    unfold State.scanByName
    rw [hclass, hload]
  · rw [h'.tableById, h.tableById]
    unfold State.scanById
    rw [hclass, hload]
  · rw [h'.indexesForTable, h.indexesForTable]
    unfold State.indexesOf State.allIndexes
    rw [hrows .pgIndex (by decide)]
  · rw [h'.constraintsForTable, h.constraintsForTable]
    unfold State.constraintsOf State.allConstraints
    rw [hrows .pgConstraint (by decide)]

end Sound

end Ccdb.PgCatalog
