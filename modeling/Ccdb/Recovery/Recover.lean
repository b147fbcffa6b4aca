import Ccdb.Exec.Context

/-!
# Ccdb — what recovery reads in the log

`analyze` of `recovery.rs` classifies the transactions of the log; from this come the
outcomes that are recorded and the LSN redo starts at. The hash sets and maps of the
source are lists here.
-/

namespace Ccdb

/-! ## Analyze -/

structure Analysis where
  active : List Nat
  committed : List Nat
  wroteDml : List Nat
  lastLsnPerTxn : List (Nat × Nat)
  maxLsn : Nat
  maxTxnId : Nat
deriving DecidableEq, Repr

namespace Analysis

def empty : Analysis := ⟨[], [], [], [], 0, 0⟩

/-- The `match` of `analyze` on one record. -/
def classify (a : Analysis) (r : WalRecord) : Analysis :=
  match r.recordType with
  | .begin => { a with active := a.active.insert r.txnId }
  | .commit =>
    { a with
      active := a.active.filter (· ≠ r.txnId)
      committed := a.committed.insert r.txnId }
  | .abort => { a with active := a.active.filter (· ≠ r.txnId) }
  | .insert .. | .delete .. | .indexInsert .. | .sequenceAdvance .. | .pageInit .. | .clr .. =>
    { a with wroteDml := a.wroteDml.insert r.txnId }
  | .checkpoint .. => a

/-- One turn of the loop of `analyze`. -/
def record (a : Analysis) (r : WalRecord) : Analysis :=
  { a with
    maxLsn := max a.maxLsn r.lsn
    maxTxnId := max a.maxTxnId r.txnId
    lastLsnPerTxn := (r.txnId, r.lsn) :: a.lastLsnPerTxn.filter (·.1 ≠ r.txnId) }.classify r

/-- Open transactions that wrote something. -/
def uncommitted (a : Analysis) : List Nat := a.active.filter (· ∈ a.wroteDml)

end Analysis

/-- `analyze`. -/
def analyze (records : List WalRecord) : Analysis := records.foldl Analysis.record .empty

/-! ## What follows from it -/

/-- `record_status` for every transaction of the log. -/
def seedStatus (a : Analysis) (tm : TransactionManager) : TransactionManager :=
  a.uncommitted.foldl (fun tm id => tm.setClog id .aborted)
    (a.committed.foldl (fun tm id => tm.setClog id .committed) tm)

def WalRecordType.isCheckpoint : WalRecordType → Bool
  | .checkpoint .. => true
  | _ => false

/-- Where redo starts: the oldest dirty page of the checkpoint. -/
def redoStart (records : List WalRecord) (checkpointLsn : Option Nat) : Nat :=
  match checkpointLsn with
  | none => 0
  | some target =>
    match records.find? fun r => r.lsn = target ∧ r.recordType.isCheckpoint with
    | some ⟨_, _, _, .checkpoint _ dpt⟩ => (dpt.map Prod.snd).min?.getD 0
    | _ => 0

end Ccdb
