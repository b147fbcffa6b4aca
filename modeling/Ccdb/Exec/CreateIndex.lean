import Ccdb.Lib.Guarantee
import Ccdb.Lib.Runs
import Ccdb.Exec.Dml

/-!
# Ccdb — CREATE INDEX among open transactions

One table, the transactions of any number of sessions and one CREATE INDEX, with
the statements as the atomic steps. The bulk build indexes the rows its snapshot
sees; from then on every INSERT and every UPDATE that is not HOT adds an entry,
and a HOT update is reached from the entry of the version it replaces.

The heap is the list of the row versions, and a rid is a position in it; nothing
is reclaimed here. Of the new index the leaf entries count, of the others the
columns they are on. An auto-committed statement is a BEGIN, the statement and a
COMMIT, or a ROLLBACK when it fails.

`Complete` is what the index is for; `Ccdb.Exec.IndexComplete` says when it holds.
-/

namespace Ccdb.IndexBuild

/-! ## State -/

/-- A version in the heap. `hops` counts the HOT updates since the version the
entry points to; the code has no such field. -/
structure RowVersion where
  xmin : Nat
  xmax : Nat
  ctid : Option Nat
  vals : List Value
  hops : Nat
deriving DecidableEq, Repr

/-- An open transaction. `late` says that the index was there when its snapshot
was taken; the code has no such field. -/
structure Txn where
  id : Nat
  snap : Snapshot
  late : Bool
deriving DecidableEq, Repr

/-- `others` has the columns of the indexes there were before; `entries` are those
of the new one, once it is registered. -/
structure State where
  tm : TransactionManager
  heap : List RowVersion
  locks : Nat → Option Nat
  others : List Nat
  col : Nat
  entries : Option (List (Value × Nat))
  sessions : Nat → Option Txn

abbrev M := EStateM DbError State

namespace State

/-- An empty table with indexes on the columns `others`. -/
def new (others : List Nat) (col : Nat) : State :=
  ⟨⟨1, [], fun _ => .inProgress⟩, [], fun _ => none, others, col, none, fun _ => none⟩

/-- `values[idx.column_index]`. -/
def key (st : State) (vals : List Value) : Value := vals.getD st.col .null

/-- The columns `indexes_for_table` names. -/
def indexed (st : State) : List Nat :=
  match st.entries with
  | none => st.others
  | some _ => st.col :: st.others

def sees (st : State) (snap : Snapshot) (v : RowVersion) : Bool := isVisible v.xmin v.xmax snap st.tm

/-- The rids a sequential scan under `snap` visits, those `pred` holds of. -/
def visibleRids (st : State) (snap : Snapshot) (pred : Nat → List Value → Bool) : List Nat :=
  (st.heap.zipIdx.filter fun e => st.sees snap e.1 && pred e.2 e.1.vals).map Prod.snd

def setSession (st : State) (i : Nat) (tx : Option Txn) : State :=
  { st with sessions := Function.update st.sessions i tx }

/-- `unlock_all`. -/
def unlockAll (st : State) (id : Nat) : State :=
  { st with locks := fun r => if st.locks r = some id then none else st.locks r }

/-- The snapshot a session takes now. -/
def fresh (st : State) (id : Nat) : Txn := ⟨id, st.tm.snapshot id, st.entries.isSome⟩

end State

/-! ## Rows -/

/-- `lm.lock`: a lock another transaction holds is not released while a statement
waits, and the wait times out. -/
def lockRow (id r : Nat) : M Unit := fun st =>
  match st.locks r with
  | none => .ok () { st with locks := Function.update st.locks r (some id) }
  | some owner =>
    if owner = id then .ok () st
    else .error (.bail s!"X-lock on {r}: lock acquisition timeout (possible deadlock)") st

/-- `insert_bytes` and the lock on the new row. -/
def appendRow (id : Nat) (vals : List Value) (hops : Nat) : M Nat := fun st =>
  .ok st.heap.length
    { st with
      heap := st.heap ++ [⟨id, invalidTxnId, none, vals, hops⟩]
      locks := Function.update st.locks st.heap.length (some id) }

/-- The entry of a row in the new index; NULL keys have none. -/
def State.rowEntries (st : State) (vals : List Value) (r : Nat) : List (Value × Nat) :=
  if st.key vals = .null then [] else [(st.key vals, r)]

/-- `index_insert_for_row_with_lm`, as far as the new index goes. -/
def indexInsert (vals : List Value) (r : Nat) : M Unit := fun st =>
  .ok () { st with entries := st.entries.map (st.rowEntries vals r ++ ·) }

/-- `set_tuple_xmax`. -/
def setXmax (id r : Nat) : M Unit := fun st =>
  .ok () { st with heap := st.heap.modify r fun v => { v with xmax := id } }

/-- `set_tuple_ctid`. -/
def setCtid (r next : Nat) : M Unit := fun st =>
  .ok () { st with heap := st.heap.modify r fun v => { v with ctid := some next } }

/-- The header check after the row lock was taken. -/
inductive Recheck where
  | skip
  | restart
  | proceed (v : RowVersion)

def recheck (id r : Nat) : M Recheck := fun st =>
  match st.heap[r]? with
  | none => .ok .skip st
  | some v =>
    if v.xmax ≠ invalidTxnId ∧ v.xmax ≠ id then
      match st.tm.status v.xmax with
      | .committed => .ok .restart st
      | .aborted => .ok (.proceed v) st
      | .inProgress =>
        .error (.bail
          "could not serialize access due to concurrent update [SQLSTATE 40001]") st
    else .ok (.proceed v) st

/-- SET clauses: the columns and their new values as functions of the row, `none`
where the expression fails. -/
abbrev Assignments := List (Nat × (List Value → Option Value))

/-- The new row: every expression reads the old one. -/
def assign (old : List Value) : Assignments → List Value → Option (List Value)
  | [], vals => some vals
  | a :: as, vals =>
    match a.2 old with
    | none => none
    | some x => assign old as (vals.set a.1 x)

/-- The rows a statement is about: those `pred` holds of, in the order of the heap
or of the index the scan goes through. -/
structure Scan where
  pred : Nat → List Value → Bool
  order : List Nat → List Nat
  perm : ∀ rids, (order rids).Perm rids

/-- A sequential scan. -/
def Scan.seq (pred : Nat → List Value → Bool) : Scan := ⟨pred, id, fun _ => .refl _⟩

/-- An UPDATE: `check` stands for the constraints of the table, and `rejected` has
the rids of the new versions for which a unique index reports 23505. -/
structure UpdateStmt where
  scan : Scan
  assignments : Assignments
  check : List Value → Bool
  rejected : List Nat

/-- The HOT gate of `perform_update`. -/
def doHot (st : State) (as : Assignments) : Bool := as.all fun a => !st.indexed.contains a.1

/-- The new row of an UPDATE, when it can be stored. -/
def UpdateStmt.newRow (u : UpdateStmt) (old : List Value) : Option (List Value) :=
  (assign old u.assignments old).filter u.check

/-- The writes of `perform_update`; `false` restarts the statement. -/
def replaceRow (id : Nat) (u : UpdateStmt) (r : Nat) (v : RowVersion) (vals : List Value) :
    M Bool := do
  let st ← get
  setXmax id r
  if doHot st u.assignments then do
    let r' ← appendRow id vals (if st.entries.isSome then v.hops + 1 else 0)
    setCtid r r'
    return true
  else do
    let r' ← appendRow id vals 0
    if r' ∈ u.rejected then return false
    else do
      indexInsert vals r'
      return true

/-- The body of the loop of `perform_update`. -/
def updateRow (id : Nat) (u : UpdateStmt) (r : Nat) : M Bool := do
  lockRow id r
  match ← recheck id r with
  | .skip => return true
  | .restart => return false
  | .proceed v =>
    match u.newRow v.vals with
    | none => throw (.bail "new row rejected")
    | some vals => replaceRow id u r v vals

/-- The body of the loop of `perform_delete`. -/
def deleteRow (id r : Nat) : M Bool := do
  lockRow id r
  match ← recheck id r with
  | .skip => return true
  | .restart => return false
  | .proceed _ => do
    setXmax id r
    return true

/-- The rows of a statement, until one restarts it. -/
def rowLoop (row : Nat → M Bool) : List Nat → M Bool
  | [] => return true
  | r :: rest => do
    if ← row r then rowLoop row rest else return false

/-- The restart loop of `perform_update` and `perform_delete`. -/
def retryLoop (i id : Nat) (scan : Scan) (row : Nat → M Bool) : Nat → M Unit
  | 0 => throw (.bail "could not serialize access [SQLSTATE 40001]")
  | n + 1 => do
    modify fun st => st.setSession i (some (st.fresh id))
    let st ← get
    if ← rowLoop row (scan.order (st.visibleRids (st.tm.snapshot id) scan.pred)) then return ()
    else retryLoop i id scan row n

/-! ## Statements -/

/-- A row of an INSERT: `checked` stands for the constraints of the table, and
`conflict` for a 23505 of a unique index. -/
structure NewRow where
  vals : List Value
  checked : Bool
  conflict : Bool

/-- The body of the loop of `perform_insert`. -/
def insertRow (id : Nat) (row : NewRow) : M Unit := do
  if row.checked then do
    let r ← appendRow id row.vals 0
    if row.conflict then
      throw (.bail "duplicate key value violates unique constraint [SQLSTATE 23505]")
    else indexInsert row.vals r
  else throw (.bail "new row rejected")

/-- The entries of the bulk build: the rows the snapshot sees. -/
def State.bulkEntries (st : State) (snap : Snapshot) : List (Value × Nat) :=
  (st.heap.zipIdx.filter fun e => st.sees snap e.1 && st.key e.1.vals != .null).map fun e =>
    (st.key e.1.vals, e.2)

/-- `perform_create_index`: the snapshot is the one the transaction has. -/
def createIndex (tx : Txn) : M Unit := fun st =>
  match st.entries with
  | some _ => .error (.bail "index already exists") st
  | none => .ok () { st with entries := some (st.bulkEntries tx.snap) }

inductive Stmt where
  | insert (rows : List NewRow)
  | update (u : UpdateStmt)
  | delete (scan : Scan)
  | createIndex

/-- A statement of session `i` in its open transaction. -/
def Stmt.run (i : Nat) (tx : Txn) : Stmt → M Unit
  | .insert rows => rows.forM (insertRow tx.id)
  | .update u => retryLoop i tx.id u.scan (updateRow tx.id u) MAX_RETRIES
  | .delete scan => retryLoop i tx.id scan (deleteRow tx.id) MAX_RETRIES
  | .createIndex => IndexBuild.createIndex tx

inductive Event where
  | begin (i : Nat)
  | stmt (i : Nat) (s : Stmt)
  | commit (i : Nat)
  | rollback (i : Nat)

namespace State

/-- BEGIN. -/
def begin (st : State) (i : Nat) : State :=
  let (id, tm) := st.tm.begin
  let st' := { st with tm := tm }
  st'.setSession i (some (st'.fresh id))

/-- COMMIT. -/
def commit (st : State) (i : Nat) (tx : Txn) : State :=
  { (st.unlockAll tx.id).setSession i none with tm := st.tm.commit tx.id }

/-- ROLLBACK: the versions stay where they are. -/
def rollback (st : State) (i : Nat) (tx : Txn) : State :=
  { (st.unlockAll tx.id).setSession i none with tm := st.tm.abort tx.id }

/-- One statement of one session; a failed one is rolled back by the connection
layer. -/
def step (st : State) : Event → Option State
  | .begin i =>
    match st.sessions i with
    | none => some (st.begin i)
    | some _ => none
  | .stmt i s =>
    match st.sessions i with
    | none => none
    | some tx =>
      match s.run i tx st with
      | .ok _ st' => some st'
      | .error _ st' => some (st'.rollback i tx)
  | .commit i => (st.sessions i).map (st.commit i)
  | .rollback i => (st.sessions i).map (st.rollback i)

end State

/-! ## Scans -/

def MAX_CHAIN : Nat := 32

/-- `follow_chain_visible`. -/
def followChainVisible (st : State) (snap : Snapshot) : Nat → Nat → Option Nat
  | 0, _ => none
  | n + 1, cur =>
    match st.heap[cur]? with
    | none => none
    | some v =>
      if st.sees snap v then some cur
      else
        match v.ctid with
        | none => none
        | some next => followChainVisible st snap n next

/-- An index scan on `key` returns the version `r`. -/
def Reached (st : State) (snap : Snapshot) (key : Value) (r : Nat) : Prop :=
  ∃ es, st.entries = some es ∧ ∃ e ∈ es, e.1 = key ∧
    followChainVisible st snap MAX_CHAIN e.2 = some r

/-- What a snapshot taken after the CREATE INDEX sees in the heap, an index scan
under it finds. -/
def Complete (st : State) : Prop :=
  ∀ i tx, st.sessions i = some tx → tx.late = true →
    ∀ r v, st.heap[r]? = some v → st.key v.vals ≠ .null → st.sees tx.snap v = true →
      Reached st tx.snap (st.key v.vals) r

/-! ## Clear statements -/

/-- The version is gone for every snapshot to come. -/
def Dead (st : State) (v : RowVersion) : Prop :=
  st.tm.status v.xmin = .aborted ∨ v.xmin = v.xmax ∨
    (v.xmax ≠ invalidTxnId ∧ st.tm.status v.xmax = .committed)

instance (st : State) (v : RowVersion) : Decidable (Dead st v) := inferInstanceAs (Decidable (_ ∨ _))

/-- The CREATE INDEX sees every row that is not dead; an UPDATE meets no 23505, and
no HOT update makes a chain longer than a scan follows. -/
def Stmt.Clear (st : State) (tx : Txn) : Stmt → Prop
  | .insert _ => True
  | .update u => u.rejected = [] ∧
      ((doHot st u.assignments && st.entries.isSome) = true →
        ∀ v ∈ st.heap, st.sees (st.tm.snapshot tx.id) v = true → v.hops + 1 < MAX_CHAIN)
  | .delete _ => True
  | .createIndex => ∀ v ∈ st.heap, st.key v.vals ≠ .null → st.sees tx.snap v = true ∨ Dead st v

instance (st : State) (tx : Txn) : ∀ s : Stmt, Decidable (s.Clear st tx)
  | .insert _ => inferInstanceAs (Decidable True)
  | .update _ => inferInstanceAs (Decidable (_ ∧ _))
  | .delete _ => inferInstanceAs (Decidable True)
  | .createIndex => inferInstanceAs (Decidable (∀ _ ∈ _, _))

def Clear (st : State) : Event → Prop
  | .stmt i s =>
    match st.sessions i with
    | none => True
    | some tx => s.Clear st tx
  | _ => True

instance (st : State) : ∀ e : Event, Decidable (Clear st e)
  | .stmt i s =>
    match h : st.sessions i with
    | none => isTrue (by simp [Clear, h])
    | some tx => decidable_of_iff (s.Clear st tx) (by simp [Clear, h])
  | .begin _ => inferInstanceAs (Decidable True)
  | .commit _ => inferInstanceAs (Decidable True)
  | .rollback _ => inferInstanceAs (Decidable True)

end Ccdb.IndexBuild
