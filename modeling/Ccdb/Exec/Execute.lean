import Ccdb.Exec.Vacuum
import Ccdb.Lib.Guarantee

/-!
# Ccdb — statements and sessions

`execute` with its auto-commit boundary, `rollback`, and the connection
layer above them: what happens to a session's transaction when a statement
fails, when the connection ends and when its thread panics.

A step of the system is one statement of one session, or one of the calls
the connection layer makes between statements.
-/

namespace Ccdb

/-! ## One statement -/

/-- DELETE comes with the depth to which ON DELETE CASCADE is followed: past it the
call is one that does not return. -/
inductive Statement where
  | begin
  | commit
  | rollback
  | select (stmt : SelectStmt)
  | insert (stmt : InsertStmt)
  | update (stmt : UpdateStmt)
  | delete (depth : Nat) (stmt : DeleteStmt)
  | vacuum (tables : List Nat)

inductive Output where
  | rows (rows : List (List Value))
  | affected (n : Nat)
  | begin
  | commit
  | rollback
deriving DecidableEq, Repr

/-- `rollback`: pages are left as they are. -/
def rollback : ExecM Unit := do
  let _ ← logRecord .abort
  flushWal
  Transaction.setInactive

/-- The statements whose records auto-commit puts between Begin and Commit. -/
def Statement.isDml : Statement → Bool
  | .insert _ | .update _ | .delete .. => true
  | _ => false

/-- BEGIN. -/
def runBegin : ExecM Output := do
  if (← getCtx).tx.active then throw (.bail "there is already a transaction in progress")
  else do
    Transaction.begin
    let _ ← logRecord .begin
    return .begin

/-- COMMIT: the locks are given up before the outcome is published. -/
def runCommit : ExecM Output := do
  if (← getCtx).tx.active then do
    let _ ← logRecord .commit
    flushWal
    unlockAll
    Transaction.commit
    return .commit
  else throw (.bail "there is no transaction in progress")

/-- ROLLBACK. -/
def runRollback : ExecM Output := do
  if (← getCtx).tx.active then do
    rollback
    unlockAll
    return .rollback
  else throw (.bail "there is no transaction in progress")

/-- The `match stmt` of `execute`. -/
def runStatement : Statement → ExecM Output
  | .select stmt => return .rows (← performSelect stmt)
  | .insert stmt => return .affected (← performInsert stmt)
  | .delete depth stmt => return .affected (← performDelete depth stmt)
  | .update stmt => return .affected (← performUpdate stmt)
  | .vacuum tables => do
    performVacuum tables
    return .affected 0
  | .begin => runBegin
  | .commit => runCommit
  | .rollback => runRollback

/-- The result of a computation as a value. A panic unwinds past it and a
loop without end never gets here. -/
def attempt {α : Type} (x : ExecM α) : ExecM (Except DbError α) := fun s =>
  match x s with
  | .ok a s' => .ok (.ok a) s'
  | .error (.panic msg) s' => .error (.panic msg) s'
  | .error .diverge s' => .error .diverge s'
  | .error e s' => .ok (.error e) s'

/-- The Commit or Abort bracket of an auto-committed DML statement. -/
def closeBracket (ok : Bool) : ExecM Unit := do
  let _ ← logRecord (if ok then .commit else .abort)
  flushWal

/-- The auto-commit boundary at the end of `execute`. -/
def closeAutocommit (ok : Bool) : ExecM Unit := do
  if (← getCtx).tx.active then return ()
  else do
    unlockAll
    modify fun s => { s with tm := if ok then s.tm.commit s.tx.id else s.tm.abort s.tx.id }

/-- `Result::is_ok`. -/
def resultOk {α : Type} : Except DbError α → Bool
  | .ok _ => true
  | .error _ => false

/-- `execute`. -/
def execute (stmt : Statement) : ExecM Output := do
  let wasInactive := !(← getCtx).tx.active
  if wasInactive then Transaction.refreshAutocommit
  let brackets := wasInactive && stmt.isDml
  if brackets then
    let _ ← logRecord .begin
  let result ← attempt (runStatement stmt)
  if brackets then closeBracket (resultOk result)
  if wasInactive then closeAutocommit (resultOk result)
  liftX result

/-! ## Sessions -/

/-- What the connection layer may still do with a session. -/
inductive Session where
  | live (tx : Transaction)
  | unwinding (tx : Transaction)
  | gone

/-- The shared state and one slot for every connection there will ever be. -/
structure System where
  pool : BufferPool
  versions : Nat → List Page
  wal : Wal
  tm : TransactionManager
  catalog : Catalog
  locks : List (Rid × Nat)
  sessions : Nat → Session

namespace System

/-- The state a statement of session `i` sees. -/
def ctx (sys : System) (tx : Transaction) : Ctx :=
  ⟨sys.pool, sys.versions, sys.wal, sys.tm, sys.catalog, sys.locks, tx⟩

/-- The state a statement leaves behind. -/
def put (sys : System) (i : Nat) (s : Ctx) (session : Session) : System where
  pool := s.pool
  versions := s.versions
  wal := s.wal
  tm := s.tm
  catalog := s.catalog
  locks := s.locks
  sessions := Function.update sys.sessions i session

end System

/-- What is left of a session after a call: a panic unwinds its thread, and a
call that never returns is the last one. -/
def Session.after {α : Type} : EStateM.Result DbError Ctx α → Session
  | .ok _ s => .live s.tx
  | .error (.panic _) s => .unwinding s.tx
  | .error .diverge _ => .gone
  | .error _ s => .live s.tx

/-- What a call on behalf of session `i` makes of the system. -/
def System.after {α : Type} (sys : System) (i : Nat) (r : EStateM.Result DbError Ctx α) : System :=
  sys.put i r.final (.after r)

/-- `rollback` and the release of the locks, as the connection layer calls
them after a failed statement and at the end of a connection. -/
def abandon : ExecM Unit := do
  if (← getCtx).tx.active then rollback
  unlockAll

/-- One step of the system. -/
inductive Event where
  /-- A client connects: `Transaction::new`. -/
  | connect (i : Nat)
  /-- A statement of session `i`. -/
  | stmt (i : Nat) (stmt : Statement)
  /-- The automatic rollback after an error, or at the end of a connection. -/
  | abandon (i : Nat)
  /-- The transaction of a closed or panicked connection is dropped. -/
  | drop (i : Nat)

namespace System

/-- `Transaction::new`. -/
def connect (sys : System) (i : Nat) : System :=
  let (id, tm) := sys.tm.begin
  { sys with
    tm := tm
    sessions := Function.update sys.sessions i (.live ⟨false, id, 0, some (tm.snapshot id), []⟩) }

/-- `Drop for Transaction`. -/
def dropTx (sys : System) (i : Nat) (tx : Transaction) : System :=
  { sys with tm := sys.tm.abort tx.id, sessions := Function.update sys.sessions i .gone }

/-- An event takes the system to its next state; one that the session is not
there for changes nothing. -/
def apply (sys : System) : Event → System
  | .connect i =>
    match sys.sessions i with
    | .gone => sys.connect i
    | _ => sys
  | .stmt i stmt =>
    match sys.sessions i with
    | .live tx => sys.after i (execute stmt (sys.ctx tx))
    | _ => sys
  | .abandon i =>
    match sys.sessions i with
    | .live tx => sys.after i (Ccdb.abandon (sys.ctx tx))
    | _ => sys
  | .drop i =>
    match sys.sessions i with
    | .live tx => if tx.active then sys else sys.dropTx i tx
    | .unwinding tx => sys.dropTx i tx
    | .gone => sys

/-- A run of the system. -/
def run (sys : System) : List Event → System
  | [] => sys
  | e :: es => (sys.apply e).run es

end System

end Ccdb
