import Ccdb.Recovery.Recover

/-!
# Ccdb — transaction ids across restarts

The counter of the transaction manager lives in memory. `Instance::new` rebuilds it from
the log and from `checkpoint.meta`, each of which may be missing or behind: the ids that
must not come back are those of the tuples in the data file and those with an outcome in
the CLOG file.

A restart over an empty log without `checkpoint.meta` starts at 1, which is
`SYSTEM_TXN_ID`. And `checkpoint` writes the CLOG file before anything that says how far
the ids went: a stop before its `checkpoint.meta` leaves outcomes of transactions that
wrote no record.

The steps that recovery itself makes durable (CLOG, Abort records, pages) are one step
here: every id among them is in the log.

Main results:

* `ids_not_reused` — in every history without these two (`Orderly`), `begin` returns a
  fresh id.
* `system_id_is_reused` — initialization and a restart.
-/

namespace Ccdb.TxnIds

structure CheckpointMeta where
  lsn : Nat
  nextTxnId : Nat
deriving DecidableEq, Repr

/-- What survives a stop. `tuples` are the ids that occur as xmin or xmax in the data file. -/
structure Files where
  wal : List WalRecord
  checkpointMeta : Option CheckpointMeta
  clog : Nat → TxnStatus
  tuples : List Nat

/-- How far a checkpoint has come. -/
inductive Checkpointing where
  -- the CLOG file is written
  | clogFlushed
  -- the Checkpoint record is durable
  | logged (lsn : Nat)
  -- `next_txn_id` is read
  | read (m : CheckpointMeta)
  -- `checkpoint.meta` is truncated
  | truncated (m : CheckpointMeta)
deriving DecidableEq, Repr

/-- A running instance. `pages` are the ids in the tuples of its buffer pool, `begun` those its
`begin` has returned. -/
structure Server where
  files : Files
  wal : Wal
  tm : TransactionManager
  pages : List Nat
  begun : List Nat
  checkpoints : List Checkpointing

inductive Op where
  | begin
  -- `log_record`
  | log (id prevLsn : Nat) (rt : WalRecordType)
  -- a tuple gets the id as its xmin or xmax, with the record of the change
  | write (id prevLsn : Nat) (rt : WalRecordType)
  -- a catalog row is written with the system transaction as its xmin
  | writeSystemRow
  | commit (id : Nat)
  | abort (id : Nat)
  | flushWal
  | writePage (ids : List Nat)
  | checkpoint
  -- the next step of a checkpoint
  | advance (i : Nat) (att dpt : List (Nat × Nat))
  -- a crash or a clean stop, of which some records of the log survive, and `Instance::new(false)`
  | restart (survivors : Nat)

/-! ## `Instance::new` -/

/-- `Instance::new(true)`: the files are removed, `bootstrap` writes the catalog. -/
def initialized : Server :=
  let clog := Function.update (fun _ => TxnStatus.inProgress) SYSTEM_TXN_ID .committed
  { files := ⟨[], none, clog, [SYSTEM_TXN_ID]⟩
    wal := ⟨[], 1, 0⟩
    tm := ⟨SYSTEM_TXN_ID + 1, [], clog⟩
    pages := [SYSTEM_TXN_ID]
    begun := []
    checkpoints := [] }

/-- `TransactionManager::new`, and the counter from `checkpoint.meta`. -/
def seededCounter (files : Files) : Nat :=
  match files.checkpointMeta with
  | some m => if 0 < m.nextTxnId then m.nextTxnId else 1
  | none => 1

/-- The ids of the log's records. -/
def walIds (records : List WalRecord) : List Nat := records.map WalRecord.txnId

/-- `undo`: an Abort record for every transaction that was left open. -/
def closeOpen (a : Analysis) (w : Wal) : Wal :=
  (a.uncommitted.foldl (fun w id =>
    (w.append id ((a.lastLsnPerTxn.lookup id).getD 0) .abort).2) w).flush

/-- `Instance::new(false)`, with the effects of `recover` on ids: outcomes from the log, an Abort
record for what was left open, and the tuples that redo puts back. -/
def reopened (files : Files) : Server :=
  let tm : TransactionManager := ⟨seededCounter files, [], files.clog⟩
  let max_lsn := (analyze files.wal).maxLsn
  let wal : Wal := ⟨files.wal, max_lsn + 1, max_lsn⟩
  if files.wal.isEmpty then
    { files := files, wal := wal, tm := tm, pages := files.tuples, begun := [], checkpoints := [] }
  else
    let a := analyze files.wal
    let tm := seedStatus a tm
    let wal := closeOpen a wal
    let maxId := max a.maxTxnId ((files.checkpointMeta.map CheckpointMeta.nextTxnId).getD 0)
    { files := { files with
        wal := wal.records
        clog := tm.clog
        tuples := files.tuples ++ SYSTEM_TXN_ID :: walIds files.wal }
      wal := wal
      tm := { tm with nextTxnId := maxId + 1 }
      pages := files.tuples ++ SYSTEM_TXN_ID :: walIds files.wal
      begun := []
      checkpoints := [] }

/-! ## Steps -/

/-- One step of `checkpoint`, and where it is then. -/
def Server.advance (s : Server) (att dpt : List (Nat × Nat)) :
    Checkpointing → Server × Option Checkpointing
  | .clogFlushed =>
    let (lsn, wal) := s.wal.append 0 0 (.checkpoint att dpt)
    ({ s with wal := wal.flush, files := { s.files with wal := wal.records } }, some (.logged lsn))
  | .logged lsn => (s, some (.read ⟨lsn, s.tm.nextTxnId⟩))
  | .read m => ({ s with files := { s.files with checkpointMeta := none } }, some (.truncated m))
  | .truncated m => ({ s with files := { s.files with checkpointMeta := some m } }, none)

def Server.step (s : Server) : Op → Server
  | .begin => { s with tm := s.tm.begin.2, begun := s.tm.begin.1 :: s.begun }
  | .log id prevLsn rt => { s with wal := (s.wal.append id prevLsn rt).2 }
  | .write id prevLsn rt =>
    { s with wal := (s.wal.append id prevLsn rt).2, pages := id :: s.pages }
  | .writeSystemRow => { s with pages := SYSTEM_TXN_ID :: s.pages }
  | .commit id => { s with tm := s.tm.commit id }
  | .abort id => { s with tm := s.tm.abort id }
  | .flushWal => { s with wal := s.wal.flush, files := { s.files with wal := s.wal.records } }
  | .writePage ids => { s with files := { s.files with tuples := ids ++ s.files.tuples } }
  | .checkpoint =>
    { s with
      files := { s.files with clog := s.tm.clog }
      checkpoints := .clogFlushed :: s.checkpoints }
  | .advance i att dpt =>
    match s.checkpoints[i]? with
    | none => s
    | some c =>
      let (s', c') := s.advance att dpt c
      { s' with checkpoints := match c' with
        | some c' => s.checkpoints.set i c'
        | none => s.checkpoints.eraseIdx i }
  | .restart survivors => reopened { s.files with wal := s.wal.records.take survivors }

/-- What the code keeps to by itself: ids of its own transactions, tuples of its own pages, and a
log file that does not lose what was flushed. -/
def Op.Allowed (s : Server) : Op → Prop
  | .log id _ rt | .write id _ rt => id ∈ s.begun ∧ rt.isCheckpoint = false
  | .commit id | .abort id => id ∈ s.begun
  | .writePage ids => ∀ id ∈ ids, id ∈ s.pages
  | .restart survivors => s.files.wal.length ≤ survivors
  | _ => True

/-- Histories from an initialization, of steps that meet `P`. -/
inductive Reachable (P : Server → Op → Prop) : Server → Prop
  | init : Reachable P initialized
  | step {s : Server} (h : Reachable P s) (op : Op) (hop : op.Allowed s) (hp : P s op) :
    Reachable P (s.step op)

/-- `begin` returns an id that nothing on disk knows. -/
def Server.FreshId (s : Server) : Prop :=
  s.tm.begin.1 ≠ SYSTEM_TXN_ID ∧ s.tm.begin.1 ∉ s.files.tuples ∧
    s.files.clog s.tm.begin.1 = .inProgress

/-- A `checkpoint.meta` does not take the place of one with a larger `next_txn_id`. -/
def Server.Newer (s : Server) (m : CheckpointMeta) : Prop :=
  ∀ m₀, s.files.checkpointMeta = some m₀ → m₀.nextTxnId ≤ m.nextTxnId

/-- The instance stops with no checkpoint under way and comes up with a log or a
`checkpoint.meta`; pages are written after the records of their changes; and no checkpoint
overwrites a later one's `checkpoint.meta`. -/
def Orderly (s : Server) : Op → Prop
  | .restart survivors =>
    s.checkpoints = [] ∧ (s.wal.records.take survivors ≠ [] ∨ s.files.checkpointMeta.isSome)
  | .writePage ids => ∀ id ∈ ids, id = SYSTEM_TXN_ID ∨ id ∈ walIds s.files.wal ∨ id ∈ s.files.tuples
  | .advance i _ _ => ∀ m, s.checkpoints[i]? = some (.read m) ∨
    s.checkpoints[i]? = some (.truncated m) → s.Newer m
  | _ => True

/-! ## The invariant -/

/-- The checkpoint will leave a `next_txn_id` past `id`. -/
def Checkpointing.covers (id : Nat) : Checkpointing → Prop
  | .clogFlushed | .logged _ => True
  | .read m | .truncated m => id < m.nextTxnId

/-- A restart will put the counter past `id`. -/
def Server.Covered (s : Server) (id : Nat) : Prop :=
  id = SYSTEM_TXN_ID ∨ id ∈ walIds s.files.wal ∨
    (∃ m, s.files.checkpointMeta = some m ∧ id < m.nextTxnId) ∨ ∃ c ∈ s.checkpoints, c.covers id

structure Server.Inv (s : Server) : Prop where
  next : SYSTEM_TXN_ID < s.tm.nextTxnId
  begun : ∀ id ∈ s.begun, SYSTEM_TXN_ID < id ∧ id < s.tm.nextTxnId
  records : ∀ r ∈ s.wal.records, r.txnId < s.tm.nextTxnId ∧ (r.txnId = 0 ∨ SYSTEM_TXN_ID < r.txnId)
  -- a record without a transaction is a checkpoint's
  unowned : (∃ r ∈ s.wal.records, r.txnId = 0) →
    s.files.checkpointMeta.isSome ∨ s.checkpoints ≠ []
  durable : s.files.wal <+: s.wal.records
  clog : ∀ id, s.tm.clog id ≠ .inProgress → id < s.tm.nextTxnId
  onDisk : ∀ id, s.files.clog id ≠ .inProgress → id < s.tm.nextTxnId ∧ s.Covered id
  tuples : ∀ id ∈ s.files.tuples, id < s.tm.nextTxnId ∧
    (id = SYSTEM_TXN_ID ∨ id ∈ walIds s.files.wal)
  seed : ∀ m, s.files.checkpointMeta = some m →
    SYSTEM_TXN_ID < m.nextTxnId ∧ m.nextTxnId ≤ s.tm.nextTxnId
  pending : ∀ m, .read m ∈ s.checkpoints ∨ .truncated m ∈ s.checkpoints →
    SYSTEM_TXN_ID < m.nextTxnId ∧ m.nextTxnId ≤ s.tm.nextTxnId

theorem Server.Inv.freshId {s : Server} (h : s.Inv) : s.FreshId := by
  refine ⟨Nat.ne_of_gt h.next, fun hmem => ?_, ?_⟩
  · exact Nat.lt_irrefl _ (h.tuples _ hmem).1
  · by_contra hne
    exact Nat.lt_irrefl _ (h.onDisk _ hne).1

/-! ## What recovery reads off the log -/

theorem maxTxnId_record (a : Analysis) (r : WalRecord) :
    (a.record r).maxTxnId = max a.maxTxnId r.txnId := by
  unfold Analysis.record Analysis.classify
  cases r.recordType <;> rfl

theorem maxTxnId_foldl (records : List WalRecord) (a : Analysis) :
    a.maxTxnId ≤ (records.foldl Analysis.record a).maxTxnId ∧
      ∀ id ∈ walIds records, id ≤ (records.foldl Analysis.record a).maxTxnId := by
  induction records generalizing a with
  | nil => exact ⟨Nat.le_refl _, fun _ hid => absurd hid List.not_mem_nil⟩
  | cons r rest ih =>
    obtain ⟨hle, hall⟩ := ih (a.record r)
    rw [maxTxnId_record] at hle
    refine ⟨Nat.le_trans (Nat.le_max_left _ _) hle, fun id hid => ?_⟩
    rcases List.mem_cons.1 hid with rfl | hid
    · exact Nat.le_trans (Nat.le_max_right _ _) hle
    · exact hall id hid

/-- Every id of the log is at most the largest one. -/
theorem le_maxTxnId {records : List WalRecord} {id : Nat} (h : id ∈ walIds records) :
    id ≤ (analyze records).maxTxnId :=
  (maxTxnId_foldl records .empty).2 id h

/-- The transactions `analyze` has anything to say about. -/
def Analysis.Mentions (a : Analysis) (id : Nat) : Prop := id ∈ a.active ∨ id ∈ a.committed

theorem mentions_record {a : Analysis} {r : WalRecord} {id : Nat}
    (h : Analysis.Mentions (a.record r) id) : Analysis.Mentions a id ∨ id = r.txnId := by
  unfold Analysis.Mentions Analysis.record Analysis.classify at h
  unfold Analysis.Mentions
  cases hrt : r.recordType <;> simp only [hrt, List.mem_insert_iff, List.mem_filter] at h <;> tauto

theorem mentions_foldl {records : List WalRecord} {a : Analysis} {id : Nat}
    (h : Analysis.Mentions (records.foldl Analysis.record a) id) :
    Analysis.Mentions a id ∨ id ∈ walIds records := by
  induction records generalizing a with
  | nil => exact Or.inl h
  | cons r rest ih =>
    rcases ih h with hm | hm
    · rcases mentions_record hm with hm | rfl
      · exact Or.inl hm
      · exact Or.inr List.mem_cons_self
    · exact Or.inr (List.mem_cons_of_mem _ hm)

/-- Outcomes come from the log. -/
theorem mentions_analyze {records : List WalRecord} {id : Nat}
    (h : Analysis.Mentions (analyze records) id) : id ∈ walIds records := by
  rcases mentions_foldl h with (hm | hm) | hm
  · cases hm
  · cases hm
  · exact hm

theorem mentions_uncommitted {a : Analysis} {id : Nat} (h : id ∈ a.uncommitted) :
    Analysis.Mentions a id := Or.inl (List.mem_filter.1 h).1

theorem foldl_setClog (ids : List Nat) (st : TxnStatus) (tm : TransactionManager) {id : Nat}
    (h : (ids.foldl (fun tm id => tm.setClog id st) tm).clog id ≠ .inProgress) :
    tm.clog id ≠ .inProgress ∨ id ∈ ids := by
  induction ids generalizing tm with
  | nil => exact Or.inl h
  | cons x rest ih =>
    rcases ih (tm.setClog x st) h with hclog | hmem
    · by_cases hx : id = x
      · exact Or.inr (hx ▸ List.mem_cons_self)
      · refine Or.inl fun hin => hclog ?_
        exact (Function.update_of_ne hx ..).trans hin
    · exact Or.inr (List.mem_cons_of_mem _ hmem)

/-- The outcomes after `record_status`: the old ones and those of the log. -/
theorem seedStatus_clog {records : List WalRecord} {tm : TransactionManager} {id : Nat}
    (h : (seedStatus (analyze records) tm).clog id ≠ .inProgress) :
    tm.clog id ≠ .inProgress ∨ id ∈ walIds records := by
  rcases foldl_setClog _ _ _ h with h | h
  · rcases foldl_setClog _ _ _ h with h | h
    · exact Or.inl h
    · exact Or.inr (mentions_analyze (Or.inr h))
  · exact Or.inr (mentions_analyze (mentions_uncommitted h))

/-- Abort records are added at the end. -/
theorem foldl_abort (a : Analysis) (ids : List Nat) (w : Wal) :
    ∃ aborts, (ids.foldl (fun w id =>
        (w.append id ((a.lastLsnPerTxn.lookup id).getD 0) .abort).2) w).records =
      w.records ++ aborts ∧ ∀ r ∈ aborts, r.txnId ∈ ids := by
  induction ids generalizing w with
  | nil => exact ⟨[], (List.append_nil _).symm, fun _ hr => absurd hr List.not_mem_nil⟩
  | cons x rest ih =>
    obtain ⟨aborts, heq, hids⟩ :=
      ih (w.append x ((a.lastLsnPerTxn.lookup x).getD 0) .abort).2
    refine ⟨⟨w.nextLsn, x, (a.lastLsnPerTxn.lookup x).getD 0, .abort⟩ :: aborts, ?_,
      fun r hr => ?_⟩
    · rw [List.foldl_cons, heq]
      exact List.append_assoc ..
    · rcases List.mem_cons.1 hr with rfl | hr
      · exact List.mem_cons_self
      · exact List.mem_cons_of_mem _ (hids r hr)

/-! ## Restarts -/

/-- What a stop has to leave for the counter to be rebuilt past everything on disk. -/
structure Rebuildable (files : Files) : Prop where
  source : files.wal ≠ [] ∨ files.checkpointMeta.isSome
  records : ∀ id ∈ walIds files.wal, id = 0 ∨ SYSTEM_TXN_ID < id
  unowned : 0 ∈ walIds files.wal → files.checkpointMeta.isSome
  seed : ∀ m, files.checkpointMeta = some m → SYSTEM_TXN_ID < m.nextTxnId
  tuples : ∀ id ∈ files.tuples, id = SYSTEM_TXN_ID ∨ id ∈ walIds files.wal
  clog : ∀ id, files.clog id ≠ .inProgress → id = SYSTEM_TXN_ID ∨ id ∈ walIds files.wal ∨
    ∃ m, files.checkpointMeta = some m ∧ id < m.nextTxnId

theorem Rebuildable.reopened_empty {files : Files} (h : Rebuildable files) (hnil : files.wal = []) :
    (reopened files).Inv := by
  obtain ⟨m, hm⟩ := Option.isSome_iff_exists.1 (h.source.resolve_left (not_not.2 hnil))
  have hpos := h.seed m hm
  have hcounter : seededCounter files = m.nextTxnId := by
    unfold seededCounter
    rw [hm]
    exact if_pos (Nat.lt_of_le_of_lt (Nat.zero_le _) hpos)
  have hsome : files.checkpointMeta.isSome := by rw [hm]; rfl
  have hclog : ∀ id, files.clog id ≠ .inProgress → id < m.nextTxnId := by
    intro id hid
    rcases h.clog id hid with rfl | hw | ⟨m', hm', hlt⟩
    · exact hpos
    · rw [hnil] at hw
      cases hw
    · rw [hm] at hm'
      cases hm'
      exact hlt
  have hreopened : reopened files =
      ⟨files, ⟨files.wal, (analyze files.wal).maxLsn + 1, (analyze files.wal).maxLsn⟩,
        ⟨m.nextTxnId, [], files.clog⟩, files.tuples, [], []⟩ := by
    unfold reopened
    simp only [hcounter]
    rw [if_pos (by rw [hnil]; rfl)]
  rw [hreopened]
  refine ⟨hpos, fun _ hid => absurd hid List.not_mem_nil, fun r hr => ?_, fun _ => Or.inl hsome,
    List.prefix_refl _, hclog, fun id hid => ⟨hclog id hid, ?_⟩, fun id hid => ?_, fun m' hm' => ?_,
    fun _ hc => absurd hc (by simp)⟩
  · change r ∈ files.wal at hr
    rw [hnil] at hr
    cases hr
  · rcases h.clog id hid with heq | hw | hmeta
    · exact Or.inl heq
    · exact Or.inr (Or.inl hw)
    · exact Or.inr (Or.inr (Or.inl hmeta))
  · rcases h.tuples id hid with rfl | hw
    · exact ⟨hpos, Or.inl rfl⟩
    · rw [hnil] at hw
      cases hw
  · change files.checkpointMeta = some m' at hm'
    rw [hm] at hm'
    cases hm'
    exact ⟨hpos, Nat.le_refl _⟩

theorem Rebuildable.reopened_log {files : Files} (h : Rebuildable files) (hlog : files.wal ≠ []) :
    (reopened files).Inv := by
  set a := analyze files.wal with ha
  set metaNext := (files.checkpointMeta.map CheckpointMeta.nextTxnId).getD 0 with hmetaNext
  set next := max a.maxTxnId metaNext + 1 with hnext
  set tm := seedStatus a ⟨seededCounter files, [], files.clog⟩ with htm
  set wal := closeOpen a ⟨files.wal, a.maxLsn + 1, a.maxLsn⟩ with hwal
  obtain ⟨aborts, hrecords, haborts⟩ := foldl_abort a a.uncommitted
    ⟨files.wal, a.maxLsn + 1, a.maxLsn⟩
  change wal.records = files.wal ++ aborts at hrecords
  have hreopened : reopened files =
      { files := { files with
          wal := wal.records
          clog := tm.clog
          tuples := files.tuples ++ SYSTEM_TXN_ID :: walIds files.wal }
        wal := wal
        tm := { tm with nextTxnId := next }
        pages := files.tuples ++ SYSTEM_TXN_ID :: walIds files.wal
        begun := []
        checkpoints := [] } := by
    unfold reopened
    simp only
    rw [if_neg (by simpa using hlog)]
  -- the log's ids, with those of the Abort records
  have hids : ∀ id, id ∈ walIds wal.records ↔ id ∈ walIds files.wal := by
    intro id
    unfold walIds
    rw [hrecords, List.map_append, List.mem_append]
    refine ⟨fun hid => hid.elim (fun hid => hid) fun hid => ?_, Or.inl⟩
    obtain ⟨r, hr, rfl⟩ := List.mem_map.1 hid
    exact mentions_analyze (mentions_uncommitted (haborts r hr))
  have hwal_lt : ∀ id ∈ walIds files.wal, id < next := fun id hid =>
    Nat.lt_succ_of_le (Nat.le_trans (le_maxTxnId hid) (Nat.le_max_left _ _))
  have hmeta_lt : ∀ m, files.checkpointMeta = some m → m.nextTxnId < next := by
    intro m hm
    have heq : metaNext = m.nextTxnId := by
      rw [hmetaNext, hm]
      rfl
    exact Nat.lt_succ_of_le (heq ▸ Nat.le_max_right _ _)
  have hsystem : SYSTEM_TXN_ID < next := by
    obtain ⟨r, rest, hcons⟩ := List.exists_cons_of_ne_nil hlog
    have hmem : r.txnId ∈ walIds files.wal := by
      rw [hcons]
      exact List.mem_cons_self
    rcases h.records _ hmem with hzero | hpos
    · obtain ⟨m, hm⟩ := Option.isSome_iff_exists.1 (h.unowned (hzero ▸ hmem))
      exact Nat.lt_trans (h.seed m hm) (hmeta_lt m hm)
    · exact Nat.lt_trans hpos (hwal_lt _ hmem)
  have hclog : ∀ id, tm.clog id ≠ .inProgress → id = SYSTEM_TXN_ID ∨ id ∈ walIds files.wal ∨
      ∃ m, files.checkpointMeta = some m ∧ id < m.nextTxnId := by
    intro id hid
    rcases seedStatus_clog hid with hold | hw
    · exact h.clog id hold
    · exact Or.inr (Or.inl hw)
  have hclog_lt : ∀ id, tm.clog id ≠ .inProgress → id < next := by
    intro id hid
    rcases hclog id hid with rfl | hw | ⟨m, hm, hlt⟩
    · exact hsystem
    · exact hwal_lt id hw
    · exact Nat.lt_trans hlt (hmeta_lt m hm)
  rw [hreopened]
  refine ⟨hsystem, fun _ hid => absurd hid List.not_mem_nil, fun r hr => ?_, fun hzero => ?_,
    List.prefix_refl _, hclog_lt, fun id hid => ⟨hclog_lt id hid, ?_⟩, fun id hid => ?_,
    fun m hm => ⟨h.seed m hm, Nat.le_of_lt (hmeta_lt m hm)⟩, fun _ hc => absurd hc (by simp)⟩
  · have hmem : r.txnId ∈ walIds files.wal := (hids _).1 (List.mem_map_of_mem hr)
    exact ⟨hwal_lt _ hmem, h.records _ hmem⟩
  · obtain ⟨r, hr, hr0⟩ := hzero
    exact Or.inl (h.unowned ((hids 0).1 (hr0 ▸ List.mem_map_of_mem hr)))
  · rcases hclog id hid with heq | hw | hmeta
    · exact Or.inl heq
    · exact Or.inr (Or.inl ((hids id).2 hw))
    · exact Or.inr (Or.inr (Or.inl hmeta))
  · have hcase : id = SYSTEM_TXN_ID ∨ id ∈ walIds files.wal := by
      rcases List.mem_append.1 hid with hid | hid
      · exact h.tuples id hid
      · exact List.mem_cons.1 hid
    rcases hcase with rfl | hw
    · exact ⟨hsystem, Or.inl rfl⟩
    · exact ⟨hwal_lt id hw, Or.inr ((hids id).2 hw)⟩

theorem Rebuildable.inv {files : Files} (h : Rebuildable files) : (reopened files).Inv := by
  by_cases hlog : files.wal = []
  · exact h.reopened_empty hlog
  · exact h.reopened_log hlog

/-! ## The steps -/

variable {s : Server}

/-- The ids on disk stay covered when the log file and `checkpoint.meta` lose nothing. -/
theorem Server.Covered.mono {s s' : Server} {id : Nat} (h : s.Covered id)
    (hwal : s.files.wal <+: s'.files.wal) (hmeta : s'.files.checkpointMeta = s.files.checkpointMeta)
    (hckpt : ∀ c ∈ s.checkpoints, c.covers id → ∃ c' ∈ s'.checkpoints, c'.covers id) :
    s'.Covered id := by
  rcases h with heq | hw | ⟨m, hm, hlt⟩ | ⟨c, hc, hcov⟩
  · exact Or.inl heq
  · exact Or.inr (Or.inl ((hwal.map WalRecord.txnId).subset hw))
  · exact Or.inr (Or.inr (Or.inl ⟨m, hmeta.trans hm, hlt⟩))
  · exact Or.inr (Or.inr (Or.inr (hckpt c hc hcov)))

/-- The manager moves on: the counter does not go back, and outcomes are of ids it has given out. -/
theorem Server.Inv.manager (h : s.Inv) {tm : TransactionManager} {begun : List Nat}
    (hnext : s.tm.nextTxnId ≤ tm.nextTxnId)
    (hbegun : ∀ id ∈ begun, SYSTEM_TXN_ID < id ∧ id < tm.nextTxnId)
    (hclog : ∀ id, tm.clog id ≠ .inProgress → id < tm.nextTxnId) :
    Server.Inv { s with tm := tm, begun := begun } where
  next := Nat.lt_of_lt_of_le h.next hnext
  begun := hbegun
  records := fun r hr => ⟨Nat.lt_of_lt_of_le (h.records r hr).1 hnext, (h.records r hr).2⟩
  unowned := h.unowned
  durable := h.durable
  clog := hclog
  onDisk := fun id hid => ⟨Nat.lt_of_lt_of_le (h.onDisk id hid).1 hnext, (h.onDisk id hid).2⟩
  tuples := fun id hid => ⟨Nat.lt_of_lt_of_le (h.tuples id hid).1 hnext, (h.tuples id hid).2⟩
  seed := fun m hm => ⟨(h.seed m hm).1, Nat.le_trans (h.seed m hm).2 hnext⟩
  pending := fun m hm => ⟨(h.pending m hm).1, Nat.le_trans (h.pending m hm).2 hnext⟩

/-- A decision about one of its own transactions. -/
theorem Server.Inv.decide (h : s.Inv) {id : Nat} (hid : id ∈ s.begun) (st : TxnStatus) :
    Server.Inv { s with tm := (s.tm.removeAtt id).decideClog id st } := by
  have hnext : ((s.tm.removeAtt id).decideClog id st).nextTxnId = s.tm.nextTxnId :=
    TransactionManager.nextTxnId_decideClog
  refine h.manager (Nat.le_of_eq hnext.symm) (fun x hx => ?_) fun x hx => ?_
  · rw [hnext]
    exact h.begun x hx
  · rw [hnext]
    rw [TransactionManager.clog_decideClog] at hx
    split at hx
    · next heq =>
      rw [heq.1]
      exact (h.begun id hid).2
    · exact h.clog x hx

/-- A record of one of its own transactions, or a checkpoint's. -/
theorem Server.Inv.append (h : s.Inv) {id prevLsn : Nat} {rt : WalRecordType} {pages : List Nat}
    (hid : id < s.tm.nextTxnId ∧ (id = 0 ∨ SYSTEM_TXN_ID < id))
    (hzero : id = 0 → s.files.checkpointMeta.isSome ∨ s.checkpoints ≠ []) :
    Server.Inv { s with wal := (s.wal.append id prevLsn rt).2, pages := pages } := by
  refine ⟨h.next, h.begun, fun r hr => ?_, ?_, h.durable.trans (List.prefix_append _ _), h.clog,
    h.onDisk, h.tuples, h.seed, h.pending⟩
  · rcases List.mem_append.1 hr with hr | hr
    · exact h.records r hr
    · rw [List.mem_singleton.1 hr]
      exact hid
  · rintro ⟨r, hr, hr0⟩
    rcases List.mem_append.1 hr with hr | hr
    · exact h.unowned ⟨r, hr, hr0⟩
    · rw [List.mem_singleton.1 hr] at hr0
      exact hzero hr0

/-- The log file takes in everything written. -/
theorem Server.Inv.flush (h : s.Inv) :
    Server.Inv { s with wal := s.wal.flush, files := { s.files with wal := s.wal.records } } := by
  refine ⟨h.next, h.begun, h.records, h.unowned, List.prefix_refl _, h.clog, fun id hid => ?_,
    fun id hid => ?_, h.seed, h.pending⟩
  · exact ⟨(h.onDisk id hid).1, (h.onDisk id hid).2.mono h.durable rfl fun c hc hcov => ⟨c, hc, hcov⟩⟩
  · obtain ⟨hlt, hcase⟩ := h.tuples id hid
    exact ⟨hlt, hcase.imp_right fun hw => (h.durable.map WalRecord.txnId).subset hw⟩

theorem Server.Inv.writePage (h : s.Inv) {ids : List Nat} (hp : Orderly s (.writePage ids)) :
    (s.step (.writePage ids)).Inv := by
  refine ⟨h.next, h.begun, h.records, h.unowned, h.durable, h.clog, h.onDisk, fun id hid => ?_,
    h.seed, h.pending⟩
  rcases List.mem_append.1 hid with hid | hid
  · rcases hp id hid with rfl | hw | hold
    · exact ⟨h.next, Or.inl rfl⟩
    · obtain ⟨r, hr, rfl⟩ := List.mem_map.1 hw
      exact ⟨(h.records r (h.durable.subset hr)).1, Or.inr hw⟩
    · exact h.tuples id hold
  · exact h.tuples id hid

theorem Server.Inv.checkpoint (h : s.Inv) : (s.step .checkpoint).Inv := by
  refine ⟨h.next, h.begun, h.records, fun _ => Or.inr (List.cons_ne_nil _ _), h.durable, h.clog,
    fun id hid => ⟨h.clog id hid, ?_⟩, h.tuples, h.seed, fun m hm => h.pending m ?_⟩
  · exact Or.inr (Or.inr (Or.inr ⟨.clogFlushed, List.mem_cons_self, trivial⟩))
  · rcases hm with hm | hm
    · exact Or.inl ((List.mem_cons.1 hm).resolve_left fun heq => by cases heq)
    · exact Or.inr ((List.mem_cons.1 hm).resolve_left fun heq => by cases heq)

/-- A checkpoint goes on to `c'`. -/
theorem mem_set_of {l : List Checkpointing} {i : Nat} {c x : Checkpointing}
    (hi : l[i]? = some c) (c' : Checkpointing) (hx : x ∈ l) : x ∈ l.set i c' ∨ x = c := by
  by_cases hxc : x = c
  · exact Or.inr hxc
  · obtain ⟨j, hj, rfl⟩ := List.mem_iff_getElem.1 hx
    refine Or.inl (List.mem_iff_getElem.2 ⟨j, by rwa [List.length_set], ?_⟩)
    refine List.getElem_set_ne (fun hij => hxc ?_) _
    subst hij
    rw [List.getElem?_eq_getElem hj] at hi
    exact Option.some.inj hi

theorem mem_set_self {l : List Checkpointing} {i : Nat} {c : Checkpointing}
    (hi : l[i]? = some c) (c' : Checkpointing) : c' ∈ l.set i c' := by
  obtain ⟨hlt, -⟩ := List.getElem?_eq_some_iff.1 hi
  exact List.mem_set hlt _

/-- A checkpoint goes on and covers what it covered. -/
theorem Server.Inv.goesOn (h : s.Inv) {i : Nat} {c c' : Checkpointing}
    (hi : s.checkpoints[i]? = some c) (hcov : ∀ id, id < s.tm.nextTxnId → c.covers id → c'.covers id)
    (hpend : ∀ m, c' = .read m ∨ c' = .truncated m →
      SYSTEM_TXN_ID < m.nextTxnId ∧ m.nextTxnId ≤ s.tm.nextTxnId) :
    Server.Inv { s with checkpoints := s.checkpoints.set i c' } := by
  refine ⟨h.next, h.begun, h.records, fun _ => Or.inr ?_, h.durable, h.clog, fun id hid => ?_,
    h.tuples, h.seed, fun m hm => ?_⟩
  · exact List.ne_nil_of_mem (mem_set_self hi c')
  · refine ⟨(h.onDisk id hid).1, (h.onDisk id hid).2.mono (List.prefix_refl _) rfl ?_⟩
    intro x hx hxcov
    rcases mem_set_of hi c' hx with hmem | rfl
    · exact ⟨x, hmem, hxcov⟩
    · exact ⟨c', mem_set_self hi c', hcov id (h.onDisk id hid).1 hxcov⟩
  · rcases hm with hm | hm
    · rcases List.mem_or_eq_of_mem_set hm with hmem | heq
      · exact h.pending m (Or.inl hmem)
      · exact hpend m (Or.inl heq.symm)
    · rcases List.mem_or_eq_of_mem_set hm with hmem | heq
      · exact h.pending m (Or.inr hmem)
      · exact hpend m (Or.inr heq.symm)

theorem Server.Inv.advance (h : s.Inv) {i : Nat} {att dpt : List (Nat × Nat)}
    (hp : Orderly s (.advance i att dpt)) : (s.step (.advance i att dpt)).Inv := by
  cases hi : s.checkpoints[i]? with
  | none => simpa only [Server.step, hi] using h
  | some c =>
    have hmem : c ∈ s.checkpoints := List.mem_of_getElem? hi
    cases c with
    | clogFlushed =>
      simp only [Server.step, hi, Server.advance]
      have happend := @Server.Inv.append s h 0 0 (.checkpoint att dpt) s.pages
        ⟨Nat.lt_of_le_of_lt (Nat.zero_le _) h.next, Or.inl rfl⟩
        fun _ => Or.inr (List.ne_nil_of_mem hmem)
      exact happend.flush.goesOn hi (fun _ _ _ => trivial) fun m hm => by
        rcases hm with hm | hm <;> cases hm
    | logged lsn =>
      simp only [Server.step, hi, Server.advance]
      refine h.goesOn hi (fun _ hlt _ => hlt) fun m hm => ?_
      rcases hm with hm | hm <;> cases hm
      exact ⟨h.next, Nat.le_refl _⟩
    | read m =>
      simp only [Server.step, hi, Server.advance]
      have hnewer := hp m (Or.inl hi)
      have hstep := @Server.Inv.goesOn s h i _ (.truncated m) hi (fun _ _ hcov => hcov) fun m' hm' => by
        rcases hm' with hm' | hm' <;> cases hm'
        exact h.pending m (Or.inl hmem)
      have hself : .truncated m ∈ s.checkpoints.set i (.truncated m) := mem_set_self hi _
      refine ⟨hstep.next, hstep.begun, hstep.records, fun _ => Or.inr (List.ne_nil_of_mem hself),
        hstep.durable, hstep.clog, fun id hid => ⟨(hstep.onDisk id hid).1, ?_⟩, hstep.tuples,
        fun m' hm' => (by cases hm'), hstep.pending⟩
      -- what the old file covered, this checkpoint will
      rcases (hstep.onDisk id hid).2 with heq | hw | ⟨m₀, hm₀, hlt⟩ | hckpt
      · exact Or.inl heq
      · exact Or.inr (Or.inl hw)
      · exact Or.inr (Or.inr (Or.inr ⟨_, hself, Nat.lt_of_lt_of_le hlt (hnewer m₀ hm₀)⟩))
      · exact Or.inr (Or.inr (Or.inr hckpt))
    | truncated m =>
      simp only [Server.step, hi, Server.advance]
      have hnewer := hp m (Or.inr hi)
      have hm := h.pending m (Or.inr hmem)
      have hsub : ∀ x ∈ s.checkpoints.eraseIdx i, x ∈ s.checkpoints :=
        fun x hx => (List.eraseIdx_sublist ..).subset hx
      refine ⟨h.next, h.begun, h.records, fun _ => Or.inl rfl, h.durable, h.clog,
        fun id hid => ⟨(h.onDisk id hid).1, ?_⟩, h.tuples, fun m' hm' => ?_, fun m' hm' => ?_⟩
      · rcases (h.onDisk id hid).2 with heq | hw | ⟨m₀, hm₀, hlt⟩ | ⟨x, hx, hcov⟩
        · exact Or.inl heq
        · exact Or.inr (Or.inl hw)
        · exact Or.inr (Or.inr (Or.inl ⟨m, rfl, Nat.lt_of_lt_of_le hlt (hnewer m₀ hm₀)⟩))
        · by_cases hxc : x = .truncated m
          · subst hxc
            exact Or.inr (Or.inr (Or.inl ⟨m, rfl, hcov⟩))
          · refine Or.inr (Or.inr (Or.inr ⟨x, ?_, hcov⟩))
            obtain ⟨j, hj, rfl⟩ := List.mem_iff_getElem.1 hx
            refine List.mem_eraseIdx_iff_getElem.2 ⟨j, hj, ?_, rfl⟩
            rintro rfl
            rw [List.getElem?_eq_getElem hj] at hi
            exact hxc (Option.some.inj hi)
      · cases hm'
        exact hm
      · exact h.pending m' (hm'.imp (hsub _) (hsub _))

theorem Server.Inv.restart (h : s.Inv) {survivors : Nat}
    (hop : (Op.restart survivors).Allowed s) (hp : Orderly s (.restart survivors)) :
    (s.step (.restart survivors)).Inv := by
  obtain ⟨hidle, hsource⟩ := hp
  have hsub : ∀ id ∈ walIds (s.wal.records.take survivors), ∃ r ∈ s.wal.records, r.txnId = id := by
    intro id hid
    obtain ⟨r, hr, rfl⟩ := List.mem_map.1 hid
    exact ⟨r, List.mem_of_mem_take hr, rfl⟩
  have hpre : s.files.wal <+: s.wal.records.take survivors :=
    List.prefix_take_iff.2 ⟨h.durable, hop⟩
  have hkept : ∀ id ∈ walIds s.files.wal, id ∈ walIds (s.wal.records.take survivors) :=
    fun id hid => (hpre.map WalRecord.txnId).subset hid
  refine Rebuildable.inv ⟨hsource, fun id hid => ?_, fun hzero => ?_, fun m hm => (h.seed m hm).1,
    fun id hid => ?_, fun id hid => ?_⟩
  · obtain ⟨r, hr, rfl⟩ := hsub id hid
    exact (h.records r hr).2
  · exact (h.unowned (hsub 0 hzero)).resolve_right (not_not.2 hidle)
  · exact (h.tuples id hid).2.imp_right (hkept id)
  · rcases (h.onDisk id hid).2 with heq | hw | hmeta | ⟨c, hc, -⟩
    · exact Or.inl heq
    · exact Or.inr (Or.inl (hkept id hw))
    · exact Or.inr (Or.inr hmeta)
    · rw [hidle] at hc
      cases hc

theorem inv_initialized : initialized.Inv := by
  have hclog : ∀ id, Function.update (fun _ => TxnStatus.inProgress) SYSTEM_TXN_ID .committed id ≠
      .inProgress → id = SYSTEM_TXN_ID := by
    intro id hid
    by_contra hne
    exact hid (Function.update_of_ne hne ..)
  refine ⟨Nat.lt_succ_self _, fun _ hid => absurd hid List.not_mem_nil,
    fun _ hr => absurd hr List.not_mem_nil, fun ⟨_, hr, _⟩ => absurd hr List.not_mem_nil,
    List.prefix_refl _, fun id hid => ?_, fun id hid => ?_, fun id hid => ?_,
    fun m hm => (by cases hm), fun m hm => absurd hm (by simp [initialized])⟩
  · rw [hclog id hid]
    exact Nat.lt_succ_self _
  · rw [hclog id hid]
    exact ⟨Nat.lt_succ_self _, Or.inl rfl⟩
  · rw [List.mem_singleton.1 hid]
    exact ⟨Nat.lt_succ_self _, Or.inl rfl⟩

theorem Server.Inv.step (h : s.Inv) {op : Op} (hop : op.Allowed s) (hp : Orderly s op) :
    (s.step op).Inv := by
  cases op with
  | begin =>
    refine h.manager (Nat.le_succ _) (fun id hid => ?_) fun id hid => Nat.lt_succ_of_lt (h.clog id hid)
    rcases List.mem_cons.1 hid with rfl | hid
    · exact ⟨h.next, Nat.lt_succ_self _⟩
    · exact ⟨(h.begun id hid).1, Nat.lt_succ_of_lt (h.begun id hid).2⟩
  | log id prevLsn rt | write id prevLsn rt =>
    obtain ⟨hgt, hlt⟩ := h.begun id hop.1
    exact h.append ⟨hlt, Or.inr hgt⟩ fun hzero => by
      rw [hzero] at hgt
      exact absurd hgt (Nat.not_lt_zero _)
  | writeSystemRow =>
    exact ⟨h.next, h.begun, h.records, h.unowned, h.durable, h.clog, h.onDisk, h.tuples, h.seed,
      h.pending⟩
  | commit id => exact h.decide hop .committed
  | abort id => exact h.decide hop .aborted
  | flushWal => exact h.flush
  | writePage ids => exact h.writePage hp
  | checkpoint => exact h.checkpoint
  | advance i att dpt => exact h.advance hp
  | restart survivors => exact h.restart hop hp

/-- **Ids are not reused.** -/
theorem ids_not_reused (h : Reachable Orderly s) : s.FreshId := by
  refine Server.Inv.freshId ?_
  induction h with
  | init => exact inv_initialized
  | step h op hop hp ih => exact ih.step hop hp

/-- A transaction that wrote a row is committed, and the instance stops. -/
def loggedTransaction : List Op :=
  [.begin, .write 2 0 (.delete (5, 0) 2), .flushWal, .commit 2, .restart 1]

theorem ids_not_reused_logged :
    (loggedTransaction.foldl Server.step initialized).tm.begin.1 = 3 ∧
      (loggedTransaction.foldl Server.step initialized).FreshId := by
  have hinit : Reachable Orderly initialized := .init
  have hwrote := (hinit.step .begin trivial trivial).step (.write 2 0 (.delete (5, 0) 2))
    ⟨List.mem_cons_self, rfl⟩ trivial
  have hcommitted := (hwrote.step .flushWal trivial trivial).step (.commit 2) List.mem_cons_self
    trivial
  refine ⟨by decide, ids_not_reused (hcommitted.step (.restart 1) (Nat.le_refl 1) ⟨rfl, Or.inl ?_⟩)⟩
  decide

/-- Initialization, a stop before anything is logged, and a restart: the first id is 1. -/
theorem system_id_is_reused : ¬ ∀ s, Reachable (fun _ _ => True) s → s.FreshId := by
  intro hall
  have hinit : Reachable (fun _ _ => True) initialized := .init
  have hfresh := hall _ (hinit.step (.restart 0) (Nat.le_refl 0) trivial)
  exact hfresh.1 rfl

end Ccdb.TxnIds
