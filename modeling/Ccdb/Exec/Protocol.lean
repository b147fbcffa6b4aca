import Ccdb.Exec.RollbackScan
import Ccdb.Sql.Text

/-!
# Ccdb — the messages of a connection

The loop of `handle_client`. A simple Query that fails inside a transaction rolls it
back. An Execute of the extended protocol that fails only has the messages up to the
next Sync skipped: the transaction stays open with the rows that were written before
the error. Its next statement sees them, and COMMIT publishes them.

Parsing, binding and analysis are parameters; they read the catalog and nothing else.

Main results:

* `Doomed.apply` — no event but a COMMIT of its session commits a transaction.
* `statements_atomic` — what holds where a transaction is only rolled back once an
  Execute has failed in it.
* `execute_error_published` — BEGIN, a failing Execute, Sync, COMMIT.
-/

namespace Ccdb

/-! ## The message loop -/

/-- `parse`, `bind_params_into_stmt`, `describe_columns_for_stmt` and `analyze`. -/
structure Frontend (Ast : Type) where
  parse : String → Except DbError Ast
  bindParams : Ast → List (Option Bytes) → Except DbError Ast
  describe : Catalog → Ast → Except DbError Unit
  analyze : Catalog → Ast → Except DbError Statement

/-- `FrontendMessage`. The end of the stream is a `terminate`. -/
inductive Message where
  | query (sql : String)
  | parse (name query : String)
  | bind (portal statement : String) (params : List (Option Bytes))
  | describe (ofStatement : Bool) (name : String)
  | execute (portal : String)
  | close (ofStatement : Bool) (name : String)
  | sync
  | flush
  | copy
  | unknown
  | terminate
deriving DecidableEq, Repr

/-- The scratchpad of the extended protocol. -/
structure Conn (Ast : Type) where
  statements : String → Option Ast
  portals : String → Option Ast
  extendedError : Bool

def Conn.new {Ast : Type} : Conn Ast := ⟨fun _ => none, fun _ => none, false⟩

/-- The system, and what the thread of each connection keeps. -/
structure Server (Ast : Type) where
  sys : System
  conns : Nat → Conn Ast

inductive Input where
  | connect (i : Nat)
  | message (i : Nat) (m : Message)
  /-- A panic has unwound the thread of a connection. -/
  | unwound (i : Nat)
  /-- `autovacuum_pass`, in a session of its own. -/
  | autovacuum (i : Nat) (tables : List Nat)
deriving DecidableEq, Repr

/-- `sql.trim().is_empty()`. -/
def isBlank (sql : String) : Bool := sql.toList.all isWhite

/-- Does a statement of session `i` return `Ok`? -/
def System.answers (sys : System) (i : Nat) (stmt : Statement) : Bool :=
  match sys.sessions i with
  | .live tx =>
    match execute stmt (sys.ctx tx) with
    | .ok _ _ => true
    | .error _ _ => false
  | _ => false

namespace Server

variable {Ast : Type}

def setConn (srv : Server Ast) (i : Nat) (f : Conn Ast → Conn Ast) : Server Ast :=
  { srv with conns := Function.update srv.conns i (f (srv.conns i)) }

def setError (srv : Server Ast) (i : Nat) : Server Ast :=
  srv.setConn i fun c => { c with extendedError := true }

/-- The automatic rollback of the Query branch. -/
def recover (srv : Server Ast) (i : Nat) : Server Ast :=
  match srv.sys.sessions i with
  | .live tx => if tx.active then { srv with sys := srv.sys.apply (.abandon i) } else srv
  | _ => srv

/-- `run_parsed_inner`, and whether it returns `Ok`. -/
def runParsed (fe : Frontend Ast) (srv : Server Ast) (i : Nat) (ast : Ast) : Server Ast × Bool :=
  match fe.analyze srv.sys.catalog ast with
  | .error _ => (srv, false)
  | .ok stmt => ({ srv with sys := srv.sys.apply (.stmt i stmt) }, srv.sys.answers i stmt)

/-- One turn of the loop. -/
def handle (fe : Frontend Ast) (srv : Server Ast) (i : Nat) : Message → Server Ast
  | .query sql =>
    if isBlank sql then srv
    else
      match fe.parse sql with
      | .error _ => srv.recover i
      | .ok ast =>
        let (srv', ok) := runParsed fe srv i ast
        if ok then srv' else srv'.recover i
  | .parse name query =>
    if (srv.conns i).extendedError then srv
    else
      match fe.parse query with
      | .error _ => srv.setError i
      | .ok ast => srv.setConn i fun c =>
        { c with statements := Function.update c.statements name (some ast) }
  | .bind portal statement params =>
    if (srv.conns i).extendedError then srv
    else
      match (srv.conns i).statements statement with
      | none => srv.setError i
      | some template =>
        match fe.bindParams template params with
        | .error _ => srv.setError i
        | .ok bound => srv.setConn i fun c =>
          { c with portals := Function.update c.portals portal (some bound) }
  | .describe ofStatement name =>
    if (srv.conns i).extendedError || ofStatement then srv
    else
      match (srv.conns i).portals name with
      | none => srv
      | some ast =>
        match fe.describe srv.sys.catalog ast with
        | .error _ => srv.setError i
        | .ok _ => srv
  | .execute portal =>
    if (srv.conns i).extendedError then srv
    else
      match (srv.conns i).portals portal with
      | none => srv.setError i
      | some ast =>
        -- no rollback here, unlike in the Query branch
        let (srv', ok) := runParsed fe srv i ast
        if ok then srv' else srv'.setError i
  | .close ofStatement name => srv.setConn i fun c =>
    if ofStatement then { c with statements := Function.update c.statements name none }
    else { c with portals := Function.update c.portals name none }
  | .sync => srv.setConn i fun c => { c with extendedError := false }
  | .flush | .copy | .unknown => srv
  | .terminate => { srv with sys := (srv.sys.apply (.abandon i)).apply (.drop i) }

/-- An input takes the server to its next state. -/
def step (fe : Frontend Ast) (srv : Server Ast) : Input → Server Ast
  | .connect i =>
    match srv.sys.sessions i with
    | .gone =>
      { sys := srv.sys.apply (.connect i), conns := Function.update srv.conns i .new }
    | _ => srv
  | .message i m =>
    match srv.sys.sessions i with
    | .live _ => srv.handle fe i m
    | _ => srv
  | .unwound i =>
    match srv.sys.sessions i with
    | .unwinding _ => { srv with sys := srv.sys.apply (.drop i) }
    | _ => srv
  | .autovacuum i tables =>
    match srv.sys.sessions i with
    | .gone => { srv with sys := srv.sys.run [.connect i, .stmt i (.vacuum tables), .drop i] }
    | _ => srv

def run (fe : Frontend Ast) (srv : Server Ast) : List Input → Server Ast
  | [] => srv
  | input :: rest => (srv.step fe input).run fe rest

/-- The statement that a message of connection `i` brings to `execute`. -/
def statementOf (fe : Frontend Ast) (srv : Server Ast) (i : Nat) : Message → Option Statement
  | .query sql =>
    if isBlank sql then none
    else do
      let ast ← (fe.parse sql).toOption
      (fe.analyze srv.sys.catalog ast).toOption
  | .execute portal =>
    if (srv.conns i).extendedError then none
    else do
      let ast ← (srv.conns i).portals portal
      (fe.analyze srv.sys.catalog ast).toOption
  | _ => none

end Server

/-- The statements that run under a snapshot of their transaction. -/
def Statement.readsRows : Statement → Bool
  | .select _ | .insert _ | .update _ | .delete .. => true
  | _ => false

/-- The call came back with `Err`. -/
def returnsErr {α : Type} : EStateM.Result DbError Ctx α → Bool
  | .ok _ _ => false
  | .error e _ => e.returns

namespace Server

variable {Ast : Type}

/-- The message runs a statement in the explicit transaction `z`; the statement
returns `Err` and has changed the rows of a table. -/
def FailsIn (fe : Frontend Ast) (srv : Server Ast) (i : Nat) (m : Message) (z : Nat) : Prop :=
  match srv.sys.sessions i, srv.statementOf fe i m with
  | .live tx, some stmt =>
    tx.active = true ∧ tx.id = z ∧ returnsErr (execute stmt (srv.sys.ctx tx)) = true ∧
      ∃ table ∈ srv.sys.catalog.tables,
        (execute stmt (srv.sys.ctx tx)).final.pool.tableRows table.firstPageId ≠
          srv.sys.pool.tableRows table.firstPageId
  | _, _ => False

/-- The message runs, in an explicit transaction, a statement that looks at rows; `snap`
is a snapshot of that transaction. -/
def ReadsUnder (fe : Frontend Ast) (srv : Server Ast) (i : Nat) (m : Message) (snap : Snapshot) : Prop :=
  match srv.sys.sessions i, srv.statementOf fe i m with
  | .live tx, some stmt => tx.active = true ∧ stmt.readsRows = true ∧ snap.txnId = tx.id
  | _, _ => False

instance (fe : Frontend Ast) (srv : Server Ast) (i : Nat) (m : Message) (z : Nat) :
    Decidable (srv.FailsIn fe i m z) := by
  unfold FailsIn
  split <;> infer_instance

instance (fe : Frontend Ast) (srv : Server Ast) (i : Nat) (m : Message) (snap : Snapshot) :
    Decidable (srv.ReadsUnder fe i m snap) := by
  unfold ReadsUnder
  split <;> infer_instance

end Server

/-! ## What is seen of a transaction -/

/-- The versions of a table with their pages and places, in chain order. -/
def BufferPool.versionsOf (s : BufferPool) (first : Nat) : List (Page × Rid × HeapTuple) :=
  match chainPages first s with
  | .ok pages _ => pages.flatMap fun p => (slotRows 0 p.2.slots).map fun r => (p.2, (p.1, r.1), r.2)
  | .error _ _ => []

/-- The version at a place. -/
def BufferPool.versionAt (s : BufferPool) (rid : Rid) : Option HeapTuple :=
  ((s.pages rid.1).slots[rid.2]?).bind Slot.row?

/-- The rows a scan under `snap` shows. -/
def shown (snap : Snapshot) (tm : TransactionManager) (vs : List (Page × Rid × HeapTuple)) :
    List (List Value) :=
  (vs.filter fun v => rowVisible v.1 v.2.2 snap tm).map fun v => v.2.2.values

/-- A version as it would be had the call of `z` that took the pages from `old` to `new`
changed nothing: one it created is not there, one it marked has no deleter. -/
def takeBack (z : Nat) (old new : BufferPool) (v : Page × Rid × HeapTuple) :
    Option (Page × Rid × HeapTuple) :=
  match old.versionAt v.2.1, new.versionAt v.2.1 with
  | none, some _ => if v.2.2.xmin = z then none else some v
  | some before, some after =>
    if v.2.2.xmax = z ∧ after.xmax = z ∧ before.xmax ≠ z then
      some (v.1, v.2.1, { v.2.2 with xmax := invalidTxnId })
    else some v
  | _, none => some v

/-- Scans under `snap` show of every table what they would had the call changed nothing. -/
def System.Unseen (sys : System) (z : Nat) (old new : BufferPool) (snap : Snapshot)
    (tm : TransactionManager) : Prop :=
  ∀ table ∈ sys.catalog.tables, (seqScan table.firstPageId snap tm sys.pool).answer =
    some (shown snap tm ((sys.pool.versionsOf table.firstPageId).filterMap (takeBack z old new)))

instance (sys : System) (z : Nat) (old new : BufferPool) (snap : Snapshot) (tm : TransactionManager) :
    Decidable (sys.Unseen z old new snap tm) := by
  unfold System.Unseen
  infer_instance

variable {tables : List TableDef} {sys : System} {i z : Nat} {may : Prop} {tx : Transaction}
variable {tm : TransactionManager}

theorem shown_filterMap {snap : Snapshot}
    {f : Page × Rid × HeapTuple → Option (Page × Rid × HeapTuple)} {vs : List (Page × Rid × HeapTuple)}
    (h : ∀ v ∈ vs, shown snap tm (f v).toList = shown snap tm [v]) :
    shown snap tm (vs.filterMap f) = shown snap tm vs := by
  have happ : ∀ a b, shown snap tm (a ++ b) = shown snap tm a ++ shown snap tm b := by
    simp [shown]
  induction vs with
  | nil => rfl
  | cons v rest ih =>
    have hrest := ih fun w hw => h w (List.mem_cons_of_mem _ hw)
    rw [← List.singleton_append, happ, ← h v List.mem_cons_self, ← hrest, ← happ]
    congr 1
    cases hf : f v <;> simp [hf]

/-- What a transaction that is not committed has done is visible to itself alone. -/
theorem shown_takeBack {snap : Snapshot} {v : Page × Rid × HeapTuple}
    (hz : tm.status z ≠ .committed) (hsnap : snap.txnId ≠ z)
    (hset : v.1.allVisible → Settled tm v.2.2) (old new : BufferPool) :
    shown snap tm (takeBack z old new v).toList = shown snap tm [v] := by
  have hno : ¬ Sees snap tm z := by
    rintro (h | ⟨-, -, h⟩)
    · exact hsnap h.symm
    · exact hz h
  unfold takeBack
  split
  · split
    · next hmin =>
      -- a creator that does not count
      have hall : v.1.allVisible = false := by
        by_contra hall
        exact hz (hmin ▸ (hset (by simpa using hall)).2)
      have hvis : isVisible v.2.2.xmin v.2.2.xmax snap tm = false := by
        rw [Bool.eq_false_iff, ne_eq, isVisible_iff]
        exact fun h => hno (hmin ▸ h.1)
      simp [shown, rowVisible, hall, hvis]
    · rfl
  · split
    · next hmark =>
      have hvis : isVisible v.2.2.xmin invalidTxnId snap tm = isVisible v.2.2.xmin v.2.2.xmax snap tm := by
        rw [Bool.eq_iff_iff, isVisible_iff, isVisible_iff, hmark.1]
        exact and_congr_right fun _ => ⟨fun _ _ => hno, fun _ h => absurd rfl h⟩
      have hrow : rowVisible v.1 { v.2.2 with xmax := invalidTxnId } snap tm =
          rowVisible v.1 v.2.2 snap tm := by simp only [rowVisible, hvis]
      cases hv : rowVisible v.1 v.2.2 snap tm <;> simp [shown, hrow, hv]
    · rfl
  · rfl

theorem Stored.seqScan_shown {chain : Nat → List Nat} {pool : BufferPool}
    {table : TableDef} (h : Stored tables chain pool tm) (htab : table ∈ tables) (snap : Snapshot) :
    seqScan table.firstPageId snap tm pool = .ok (shown snap tm (pool.versionsOf table.firstPageId)) pool := by
  rw [h.heaps.seqScan_eq (mem_heapFiles htab)]
  unfold BufferPool.versionsOf BufferPool.contents shown
  rw [h.heaps.chainPages_eq (mem_heapFiles htab)]
  simp only [List.flatMap_map, List.filter_flatMap, List.map_flatMap, List.filter_map, List.map_map]
  refine congrArg (fun out => EStateM.Result.ok out pool) (List.flatMap_congr fun p _ => ?_)
  rw [Page.rows, ← slotRows_snd 0, List.filter_map, List.map_map]
  rfl

theorem Stored.settled_versionsOf {chain : Nat → List Nat} {pool : BufferPool}
    {table : TableDef} (h : Stored tables chain pool tm) (htab : table ∈ tables)
    {v : Page × Rid × HeapTuple} (hv : v ∈ pool.versionsOf table.firstPageId) (hall : v.1.allVisible) :
    Settled tm v.2.2 := by
  unfold BufferPool.versionsOf at hv
  rw [h.heaps.chainPages_eq (mem_heapFiles htab)] at hv
  simp only [List.flatMap_map, List.mem_flatMap, List.mem_map] at hv
  obtain ⟨p, hp, r, hr, rfl⟩ := hv
  refine h.settled table htab p hp hall r.2 ?_
  rw [Page.rows, ← slotRows_snd 0]
  exact List.mem_map_of_mem hr

theorem Sound.unseen (h : Sound tables sys) (hok : TablesOk tables sys.pool tm)
    {snap : Snapshot} (hz : tm.status z ≠ .committed) (hsnap : snap.txnId ≠ z) (old new : BufferPool) :
    sys.Unseen z old new snap tm := by
  intro table htab
  rw [h.tables_eq] at htab
  obtain ⟨chain, hok⟩ := hok
  rw [hok.seqScan_shown htab, shown_filterMap fun v hv =>
    shown_takeBack hz hsnap (hok.settled_versionsOf htab hv) old new]
  rfl

/-! ## A transaction that nobody commits -/

/-- `z` is not committed. While it is open, `may` holds and it is the explicit
transaction of the session that has it. -/
structure Doomed (may : Prop) (z : Nat) (sys : System) : Prop where
  lt : z < sys.tm.nextTxnId
  outcome : sys.tm.status z ≠ .committed
  isOpen : z ∈ sys.tm.activeIds → may
  explicit : z ∈ sys.tm.activeIds → ∀ i tx, (sys.sessions i).Has tx → tx.id = z → tx.active = true

namespace Doomed

/-- A call of one session. -/
theorem put (h : Doomed may z sys) {s' : Ctx} {session : Session} (hnext : sys.tm.nextTxnId ≤ s'.tm.nextTxnId)
    (hout : s'.tm.status z ≠ .committed) (hactive : z ∈ s'.tm.activeIds → z ∈ sys.tm.activeIds)
    (hexp : z ∈ s'.tm.activeIds → ∀ tx, session.Has tx → tx.id = z → tx.active = true) :
    Doomed may z (sys.put i s' session) := by
  refine ⟨lt_of_lt_of_le h.lt hnext, hout, fun hin => h.isOpen (hactive hin), fun hin j tx htx hid => ?_⟩
  have htx : (Function.update sys.sessions i session j).Has tx := htx
  by_cases hji : j = i
  · rw [hji, Function.update_self] at htx
    exact hexp hin tx htx hid
  · rw [Function.update_of_ne hji] at htx
    exact h.explicit (hactive hin) j tx htx hid

/-- A call about another transaction. -/
theorem other (h : Doomed may z sys) (hne : tx.id ≠ z) {s' : Ctx} {session : Session}
    (hk : Keeps tables (sys.ctx tx) s' session) : Doomed may z (sys.put i s' session) := by
  have hloc := hk.loc
  refine h.put hloc.next_le ?_ (hloc.active z hne.symm h.lt).1 fun _ tx' htx' hid => ?_
  · rw [hloc.status_eq hne.symm h.lt]
    exact h.outcome
  · rcases hk.id_eq tx' htx' with hold | hnew
    · exact absurd (hold.symm.trans hid) hne
    · have hlt : z < (sys.ctx tx).tm.nextTxnId := h.lt
      omega

/-- Its own session aborts it. -/
theorem aborted (h : Doomed may z sys) (hs : Sound tables sys) (hin : z ∈ sys.tm.activeIds)
    {s' : Ctx} {session : Session} (hsame : SameOutcomes sys.tm tm)
    (htm : s'.tm = tm.abort z) : Doomed may z (sys.put i s' session) := by
  have hopen : z ∈ tm.activeIds := hsame.active_eq ▸ hin
  have hgone : z ∉ s'.tm.activeIds := by
    rw [htm, TransactionManager.abort, TransactionManager.activeIds_decideClog,
      TransactionManager.mem_activeIds_removeAtt]
    exact fun hc => hc.2 rfl
  refine h.put ?_ ?_ (fun hc => absurd hc hgone) fun hc => absurd hc hgone
  · rw [htm, ← hsame.next_eq]
    exact (TransactionManager.Step.abort tm z (Or.inl hopen)).next_le
  · rw [htm, TransactionManager.status_abort (hsame.wf hs.wf) hopen]
    decide

/-- A call in its own session that leaves it open. -/
theorem stays (h : Doomed may z sys) {α : Type} {r : EStateM.Result DbError Ctx α}
    (hact : tx.active = true) (happ : Appends (fun _ => True) (sys.ctx tx) r.final) :
    Doomed may z (sys.put i r.final (.after r)) := by
  have hsame := happ.outcomes
  refine h.put (le_of_eq hsame.next_eq.symm) ?_ (fun hc => hsame.active_eq ▸ hc) fun _ tx' htx' _ => ?_
  · rw [hsame.status_eq z]
    exact h.outcome
  · rw [has_after htx']
    exact happ.active_eq.trans hact

/-- A statement of its own session. -/
theorem statement (h : Doomed may z sys) (hs : Sound tables sys) (htx : (sys.sessions i).Has tx)
    (hact : tx.active = true) (hid : tx.id = z) (hin : z ∈ sys.tm.activeIds) (stmt : Statement)
    (hstmt : stmt = .commit → ¬ may) :
    Doomed may z (sys.put i (runStatement stmt (sys.ctx tx)).final
      (.after (runStatement stmt (sys.ctx tx)))) := by
  by_cases hwork : stmt.worksOnTables
  · have hworks := works_statement (s := sys.ctx tx) hwork hs.tables_eq hs.stored hs.wf
      (hs.id_lt htx).1
    exact h.stays hact hworks.appends
  cases stmt with
  | select | insert | update | delete | vacuum => exact absurd rfl hwork
  | begin =>
    rw [begin_refused (s := sys.ctx tx) hact]
    exact h.stays (r := .error _ (sys.ctx tx)) hact (.refl _)
  | commit => exact absurd (h.isOpen hin) (hstmt rfl)
  | rollback =>
    obtain ⟨s', hrun, -, -, -, htm, -, -⟩ := rollback_run (s := sys.ctx tx) hact
    rw [hrun]
    rw [show (sys.ctx tx).tx.id = z from hid] at htm
    exact h.aborted hs hin (sameOutcomes_updateLastLsn _ _ _) htm

/-- **One event** that is not its COMMIT. -/
theorem apply (h : Doomed may z sys) (hs : Sound tables sys) {e : Event}
    (he : ∀ i tx, e = .stmt i .commit → sys.sessions i = .live tx → tx.active = true → tx.id = z → ¬ may) :
    Doomed may z (sys.apply e) := by
  -- a transaction that is closed stays as it is when its session goes on
  have hclosed : ∀ {tm' : TransactionManager}, z ∉ tm'.activeIds → tm'.status z = sys.tm.status z →
      sys.tm.nextTxnId ≤ tm'.nextTxnId → ∀ {j : Nat} {s' : Ctx} {session : Session}, s'.tm = tm' →
      Doomed may z (sys.put j s' session) := by
    intro tm' hout hstatus hnext j s' session htm
    rw [← htm] at hout hstatus hnext
    exact h.put hnext (hstatus ▸ h.outcome) (fun hc => absurd hc hout) fun hc => absurd hc hout
  cases e with
  | connect i =>
    cases hi : sys.sessions i with
    | gone =>
      simp only [System.apply, hi]
      have hne : z ≠ sys.tm.nextTxnId := Nat.ne_of_lt h.lt
      have hloc : Local sys.tm.nextTxnId (sys.ctx ⟨false, 0, 0, none, []⟩)
        ((sys.connect i).ctx ⟨false, 0, 0, none, []⟩) := .of_begin hs.wf rfl rfl
      show Doomed may z (sys.put i ((sys.connect i).ctx ⟨false, 0, 0, none, []⟩) _)
      refine h.put hloc.next_le ?_ (hloc.active z hne h.lt).1 ?_
      · rw [hloc.status_eq hne h.lt]
        exact h.outcome
      · rintro - tx (htx | htx) hid <;> cases htx
        exact absurd hid hne.symm
    | live tx => simpa only [System.apply, hi] using h
    | unwinding tx => simpa only [System.apply, hi] using h
  | stmt i stmt =>
    cases hi : sys.sessions i with
    | gone => simpa only [System.apply, hi] using h
    | unwinding tx => simpa only [System.apply, hi] using h
    | live tx =>
      have hk := hs.execute hi stmt
      simp only [System.apply, hi]
      by_cases hid : tx.id = z
      · by_cases hin : z ∈ sys.tm.activeIds
        · have hact := h.explicit hin i tx (Or.inl hi) hid
          show Doomed may z (sys.put i (execute stmt (sys.ctx tx)).final (.after (execute stmt (sys.ctx tx))))
          have hstmt : stmt = .commit → ¬ may := fun hc => he i tx (by rw [hc]) hi hact hid
          rw [execute_active (s := sys.ctx tx) hact]
          exact h.statement hs (Or.inl hi) hact hid hin stmt hstmt
        · have hidle : tx.active = false := by
            by_contra hact
            exact hin (hid ▸ (hs.known i tx (Or.inl hi)).explicit (by simpa using hact))
          obtain ⟨hout, hstatus⟩ := hs.execute_finished hi hidle stmt hin h.lt
          exact hclosed hout hstatus hk.loc.next_le rfl
      · exact h.other hid hk
  | abandon i =>
    cases hi : sys.sessions i with
    | gone => simpa only [System.apply, hi] using h
    | unwinding tx => simpa only [System.apply, hi] using h
    | live tx =>
      have hk := hs.abandon hi
      simp only [System.apply, hi]
      by_cases hid : tx.id = z
      · cases hact : tx.active with
        | true =>
          have hin : z ∈ sys.tm.activeIds := hid ▸ (hs.known i tx (Or.inl hi)).explicit hact
          obtain ⟨s', -, hrun, -, -, htm, -, -⟩ := rollback_run (s := sys.ctx tx) hact
          rw [System.after, hrun]
          rw [show (sys.ctx tx).tx.id = z from hid] at htm
          exact h.aborted hs hin (sameOutcomes_updateLastLsn _ _ _) htm
        | false =>
          have hin : z ∉ sys.tm.activeIds := fun hin =>
            Bool.false_ne_true (hact.symm.trans (h.explicit hin i tx (Or.inl hi) hid))
          rw [System.after, abandon_inactive (s := sys.ctx tx) hact]
          exact hclosed hin rfl (le_refl _) rfl
      · exact h.other hid hk
  | drop i =>
    -- the transaction of a connection that is over is aborted
    have hdrop : ∀ tx, (sys.sessions i).Has tx → Doomed may z (sys.dropTx i tx) := by
      intro tx htx
      have hknown := (hs.known i tx htx).known
      have hstep := TransactionManager.Step.abort sys.tm tx.id hknown
      show Doomed may z (sys.put i ((sys.dropTx i tx).ctx tx) .gone)
      by_cases hin : z ∈ sys.tm.activeIds
      · by_cases hid : tx.id = z
        · exact h.aborted hs hin (.refl _) (by rw [← hid]; rfl)
        · have hloc : Local tx.id (sys.ctx tx) ((sys.dropTx i tx).ctx tx) := .of_decide .aborted rfl rfl
          refine h.put hloc.next_le ?_ (fun _ => hin) ?_
          · rw [hloc.status_eq (Ne.symm hid) h.lt]
            exact h.outcome
          · rintro - tx' (htx' | htx') <;> cases htx'
      · obtain ⟨-, hout, -, hstatus⟩ := finished_step hstep hs.wf hin h.lt
        exact hclosed hout hstatus hstep.next_le rfl
    cases hi : sys.sessions i with
    | gone => simpa only [System.apply, hi] using h
    | unwinding tx =>
      simp only [System.apply, hi]
      exact hdrop tx (Or.inr hi)
    | live tx =>
      simp only [System.apply, hi]
      split
      · exact h
      · exact hdrop tx (Or.inl hi)

end Doomed

/-! ## Runs of the server -/

namespace Server

variable {Ast : Type} {fe : Frontend Ast} {srv : Server Ast} {m : Message}

theorem run_append (srv : Server Ast) (a b : List Input) :
    srv.run fe (a ++ b) = (srv.run fe a).run fe b := by
  induction a generalizing srv with
  | nil => rfl
  | cons input rest ih => exact ih (srv.step fe input)

/-- What a message that fails has run. -/
theorem FailsIn.inv (h : srv.FailsIn fe i m z) : ∃ tx stmt, srv.sys.sessions i = .live tx ∧
    srv.statementOf fe i m = some stmt ∧ tx.active = true ∧ tx.id = z ∧
    returnsErr (execute stmt (srv.sys.ctx tx)) = true := by
  unfold FailsIn at h
  split at h
  · next tx stmt hi hof => exact ⟨tx, stmt, hi, hof, h.1, h.2.1, h.2.2.1⟩
  · exact h.elim

end Server

/-! ## Atomic statements -/

namespace Server

variable {Ast : Type} {fe : Frontend Ast} {srv : Server Ast}

theorem ReadsUnder.inv {snap : Snapshot} (h : srv.ReadsUnder fe i m snap) :
    ∃ tx, srv.sys.sessions i = .live tx ∧ tx.active = true ∧ snap.txnId = tx.id := by
  unfold ReadsUnder at h
  split at h
  · next tx stmt hi _ => exact ⟨tx, hi, h.1, h.2.2⟩
  · exact h.elim

end Server

end Ccdb
