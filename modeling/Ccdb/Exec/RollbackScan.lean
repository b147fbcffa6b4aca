import Ccdb.Exec.Sessions
import Ccdb.Recovery.TxnIds

/-!
# Ccdb — a rolled back transaction leaves no trace in a scan

ROLLBACK undoes nothing on the pages. The rows that the transaction added stay in
the chain with an aborted creator, and the rows that it deleted or replaced keep
its id as their deleter. A scan with a fresh snapshot takes both for what they
are, also where the deleter overwrote that of an older transaction that aborted.

Main results:

* `liveValues_steps` — the steps of a transaction that is not committed do not
  change what is live.
* `Sound.freshScan_eq` — what a fresh scan returns in a state of the system.
* `dml_rolled_back` — BEGIN, any DML, ROLLBACK: the scan returns the same rows, where
  no id comes back.
* `rolled_back_row_visible` — where one does, ROLLBACK leaves its old outcome.
-/

namespace Ccdb

open Relation

/-- A sequential scan of the table that starts at `first`, with the snapshot of a
transaction that is begun for it. -/
def System.freshScan (sys : System) (first : Nat) : Except DbError (List (List Value)) :=
  let (id, tm) := sys.tm.begin
  match seqScan first (tm.snapshot id) tm sys.pool with
  | .ok rows _ => .ok rows
  | .error e _ => .error e

theorem System.run_append (sys : System) (a b : List Event) :
    sys.run (a ++ b) = (sys.run a).run b := by
  induction a generalizing sys with
  | nil => rfl
  | cons e rest ih => exact ih (sys.apply e)

/-! ## Live rows -/

variable {tm tm' : TransactionManager} {z : Nat} {rep : Nat → Prop} {rows rows' : List HeapTuple}
  {tables : List TableDef} {table : TableDef} {sys : System} {i : Nat}

/-- The values of the live rows, in order. -/
def liveValues (tm : TransactionManager) (rows : List HeapTuple) : List (List Value) :=
  (rows.filter fun t => Live tm t).map HeapTuple.values

theorem liveValues_append (a b : List HeapTuple) :
    liveValues tm (a ++ b) = liveValues tm a ++ liveValues tm b := by
  simp [liveValues]

theorem liveValues_cons_congr {t u : HeapTuple} (hlive : Live tm t ↔ Live tm u)
    (hvalues : t.values = u.values) (b : List HeapTuple) :
    liveValues tm (t :: b) = liveValues tm (u :: b) := by
  unfold liveValues
  by_cases h : Live tm t
  · simp [h, hlive.1 h, hvalues]
  · have h' : ¬ Live tm u := fun hu => h (hlive.2 hu)
    simp [h, h']

/-- One step of a transaction whose outcome is not Commit. -/
theorem liveValues_step (hz : tm.status z ≠ .committed)
    (hrep : ∀ x, rep x → x = invalidTxnId ∨ tm.status x ≠ .committed)
    (h : RowsStep z rep rows rows') : liveValues tm rows' = liveValues tm rows := by
  cases h with
  | same => rfl
  | insert rows values =>
    have hdead : ¬ Live tm (.mk' z invalidTxnId values) := fun h => hz h.1
    rw [liveValues_append]
    simp [liveValues, hdead]
  | delete front back t ht =>
    -- the old deleter did not count, and the new one does not either
    have hlive : Live tm { t with xmax := z } ↔ Live tm t := by
      unfold Live
      exact and_congr_right fun _ => ⟨fun _ => hrep _ ht, fun _ => Or.inr hz⟩
    rw [liveValues_append, liveValues_append]
    rw [liveValues_cons_congr (u := t) hlive rfl]
  | forward front back t ctid =>
    rw [liveValues_append, liveValues_append]
    rw [liveValues_cons_congr (u := t) (t := { t with ctid := ctid }) Iff.rfl rfl]

theorem liveValues_steps (hz : tm.status z ≠ .committed)
    (hrep : ∀ x, rep x → x = invalidTxnId ∨ tm.status x ≠ .committed)
    (h : ReflTransGen (RowsStep z rep) rows rows') : liveValues tm rows' = liveValues tm rows := by
  induction h with
  | refl => rfl
  | tail _ hstep ih => exact (liveValues_step hz hrep hstep).trans ih

theorem liveValues_congr (h : ∀ t ∈ rows, tm'.status t.xmin = tm.status t.xmin ∧
    tm'.status t.xmax = tm.status t.xmax) : liveValues tm' rows = liveValues tm rows := by
  unfold liveValues
  refine congrArg _ (List.filter_congr fun t ht => ?_)
  rw [decide_eq_decide, Live, Live, (h t ht).1, (h t ht).2]

/-- Where an id is older than a step and not the one it is about, its status is kept. -/
theorem Local.status_eq {a : Nat} {s s' : Ctx} (h : Local a s s') {x : Nat} (hne : x ≠ a)
    (hlt : x < s.tm.nextTxnId) : s'.tm.status x = s.tm.status x := by
  unfold TransactionManager.status
  rw [h.clog x hne hlt]
  simp only [h.active x hne hlt]

/-- Aborting a transaction decides nothing about another one. -/
theorem TransactionManager.status_abort_ne {x : Nat} (hx : x ≠ z) :
    (tm.abort z).status x = tm.status x := by
  unfold TransactionManager.status TransactionManager.abort
  rw [TransactionManager.clog_decideClog, if_neg fun hc => hx hc.1,
    TransactionManager.activeIds_decideClog]
  have hmem : x ∈ (tm.removeAtt z).activeIds ↔ x ∈ tm.activeIds := by
    rw [TransactionManager.mem_activeIds_removeAtt]
    exact and_iff_left hx
  simp only [hmem]
  rfl

namespace Sound

/-- **Fresh scans** return the live rows. -/
theorem freshScan_eq (h : Sound tables sys) (htab : table ∈ tables) :
    sys.freshScan table.firstPageId =
      .ok (liveValues sys.tm (sys.pool.tableRows table.firstPageId)) := by
  have hbegin := TransactionManager.Step.begin sys.tm
  have hwf := hbegin.wf h.wf
  have hfresh : ¬ Carries tables sys.pool sys.tm.nextTxnId := fun hc =>
    lt_irrefl _ (h.stored.carries_lt hc)
  have hscan := (h.stored.tm_step h.wf hbegin).seqScan_live hwf htab hfresh
  have hlive : liveValues sys.tm.begin.2 (sys.pool.tableRows table.firstPageId) =
      liveValues sys.tm (sys.pool.tableRows table.firstPageId) := by
    have hstatus : ∀ x < sys.tm.nextTxnId, sys.tm.begin.2.status x = sys.tm.status x := by
      intro x hx
      have hmem : x ∈ sys.tm.begin.2.activeIds ↔ x ∈ sys.tm.activeIds := by
        rw [TransactionManager.mem_activeIds_begin h.wf]
        exact or_iff_right (Nat.ne_of_lt hx)
      unfold TransactionManager.status
      simp only [hmem]
      rfl
    exact liveValues_congr fun t ht => ⟨hstatus _ (h.stored.ids_lt htab t ht).1,
      hstatus _ (h.stored.ids_lt htab t ht).2⟩
  unfold System.freshScan
  dsimp only
  rw [show seqScan table.firstPageId (sys.tm.begin.2.snapshot sys.tm.begin.1) sys.tm.begin.2 sys.pool = _
    from hscan]
  exact congrArg Except.ok hlive

end Sound

/-! ## Inside a transaction -/

/-- The deleters a transaction `z` may overwrite, by the outcomes at its start. -/
def Reusable (tm : TransactionManager) (z x : Nat) : Prop :=
  x = invalidTxnId ∨ x = z ∨ tm.status x ≠ .committed

/-- Session `i` is in transaction `z`, which has made steps on the rows there were
at its start, or its thread has ended half-way. -/
structure Inside (tables : List TableDef) (i z : Nat) (tm : TransactionManager)
    (rows : Nat → List HeapTuple) (sys : System) : Prop where
  sound : Sound tables sys
  outcomes : SameOutcomes tm sys.tm
  steps : ∀ table ∈ tables, ReflTransGen (RowsStep z (Reusable tm z)) (rows table.firstPageId)
    (sys.pool.tableRows table.firstPageId)
  mine : ∀ tx, (sys.sessions i).Has tx → tx.id = z ∧ tx.active = true

namespace Inside

variable {rows : Nat → List HeapTuple}

/-- A DML statement. -/
theorem dml (h : Inside tables i z tm rows sys) {stmt : Statement} (hdml : stmt.isDml) :
    Inside tables i z tm rows (sys.apply (.stmt i stmt)) := by
  have hsound := h.sound.apply (.stmt i stmt)
  cases hs : sys.sessions i with
  | unwinding tx => simpa only [System.apply, hs] using h
  | gone => simpa only [System.apply, hs] using h
  | live tx =>
    obtain ⟨hid, hact⟩ := h.mine tx (Or.inl hs)
    have hlt : (sys.ctx tx).tx.id < (sys.ctx tx).tm.nextTxnId := (h.sound.id_lt (Or.inl hs)).1
    simp only [System.apply, hs, execute_active (s := sys.ctx tx) hact] at hsound ⊢
    set s := sys.ctx tx with hctx
    have hwrites := writes_dml (s := s) hdml h.sound.tables_eq h.sound.stored h.sound.wf hlt
    have happ := appends_dml hdml s
    have hrep : Overwritable s = Reusable tm z := by
      funext x
      unfold Overwritable Reusable
      rw [show s.tx.id = z from hid, show s.tm.status x = tm.status x from h.outcomes.status_eq x]
    obtain ⟨-, hsteps⟩ := TablesOk.writes (s := s) h.sound.stored hlt hwrites
    rw [hrep, show s.tx.id = z from hid] at hsteps
    refine ⟨hsound, h.outcomes.trans happ.outcomes, fun table htab =>
      (h.steps table htab).trans (hsteps table htab), fun tx' htx' => ?_⟩
    have htx' : (Function.update sys.sessions i (Session.after (runStatement stmt s)) i).Has tx' := htx'
    rw [Function.update_self] at htx'
    rw [has_after htx']
    exact ⟨happ.id_eq.trans hid, happ.active_eq.trans hact⟩

theorem dmls (h : Inside tables i z tm rows sys) : ∀ {stmts : List Statement},
    (∀ stmt ∈ stmts, stmt.isDml) → Inside tables i z tm rows (sys.run (stmts.map (.stmt i))) := by
  intro stmts
  induction stmts generalizing sys with
  | nil => exact fun _ => h
  | cons stmt rest ih =>
    exact fun hdml => ih (h.dml (hdml stmt List.mem_cons_self))
      fun r hr => hdml r (List.mem_cons_of_mem _ hr)

/-- How a transaction that is not committed may end for its session: ROLLBACK, the
automatic one, or its being dropped. -/
def GivesUp (i : Nat) (e : Event) : Prop := e = .stmt i .rollback ∨ e = .abandon i ∨ e = .drop i

/-- The end touches no page and leaves the transaction aborted, or open for good. -/
theorem giveUp (h : Inside tables i z tm rows sys) (hz : z ∈ tm.activeIds) {e : Event}
    (he : GivesUp i e) : (sys.apply e).pool = sys.pool ∧
      (sys.apply e).tm.status z ≠ .committed ∧
      ∀ x, x ≠ z → (sys.apply e).tm.status x = tm.status x := by
  have hwf := h.sound.wf
  have hopen : z ∈ sys.tm.activeIds := h.outcomes.active_eq ▸ hz
  have hstay : sys.pool = sys.pool ∧ sys.tm.status z ≠ .committed ∧
      ∀ x, x ≠ z → sys.tm.status x = tm.status x := by
    refine ⟨rfl, ?_, fun x _ => h.outcomes.status_eq x⟩
    rw [TransactionManager.status_of_active hwf hopen]
    decide
  -- the transaction is aborted
  have habort : ∀ {tm'' : TransactionManager}, SameOutcomes sys.tm tm'' →
      (tm''.abort z).status z ≠ .committed ∧
        ∀ x, x ≠ z → (tm''.abort z).status x = tm.status x := by
    intro tm'' hsame
    have hopen'' : z ∈ tm''.activeIds := hsame.active_eq ▸ hopen
    refine ⟨?_, fun x hx => ?_⟩
    · rw [TransactionManager.status_abort (hsame.wf hwf) hopen'']
      decide
    · rw [TransactionManager.status_abort_ne hx, hsame.status_eq x, h.outcomes.status_eq x]
  cases hs : sys.sessions i with
  | gone => rcases he with rfl | rfl | rfl <;> simpa only [System.apply, hs] using hstay
  | unwinding tx =>
    obtain ⟨hid, -⟩ := h.mine tx (Or.inr hs)
    rcases he with rfl | rfl | rfl
    · simpa only [System.apply, hs] using hstay
    · simpa only [System.apply, hs] using hstay
    · simp only [System.apply, hs]
      refine ⟨rfl, ?_⟩
      show (sys.tm.abort tx.id).status z ≠ .committed ∧ _
      rw [← hid] at habort ⊢
      exact habort (.refl sys.tm)
  | live tx =>
    obtain ⟨hid, hact⟩ := h.mine tx (Or.inl hs)
    obtain ⟨s', hrollback, habandon, hpages, -, htm, -, -⟩ := rollback_run (s := sys.ctx tx) hact
    have hs' : s'.pool = sys.pool ∧ s'.tm.status z ≠ .committed ∧
        ∀ x, x ≠ z → s'.tm.status x = tm.status x := by
      refine ⟨hpages.1, ?_⟩
      rw [htm, show (sys.ctx tx).tx.id = z from hid]
      exact habort (sameOutcomes_updateLastLsn _ _ _)
    rcases he with rfl | rfl | rfl
    · simp only [System.apply, hs, execute_active (s := sys.ctx tx) hact, hrollback]
      exact hs'
    · simp only [System.apply, hs, habandon]
      exact hs'
    · simp only [System.apply, hs, hact]
      exact hstay

end Inside

/-- A finished transaction keeps its outcome. -/
theorem finished_step (h : TransactionManager.Step tm tm') (hwf : tm.WF) {x : Nat}
    (hx : x ∉ tm.activeIds) (hlt : x < tm.nextTxnId) :
    tm'.WF ∧ x ∉ tm'.activeIds ∧ x < tm'.nextTxnId ∧ tm'.status x = tm.status x :=
  ⟨h.wf hwf, fun hin => hx (h.active_old hwf hin hlt), lt_of_lt_of_le hlt h.next_le,
    h.status_eq hwf hx hlt⟩

/-- A statement in an idle session, even where it closes that session's own. -/
theorem Sound.execute_finished (h : Sound tables sys) {tx : Transaction}
    (htx : sys.sessions i = .live tx) (hidle : tx.active = false) (stmt : Statement) {x : Nat}
    (hx : x ∉ sys.tm.activeIds) (hlt : x < sys.tm.nextTxnId) :
    x ∉ (Ccdb.execute stmt (sys.ctx tx)).final.tm.activeIds ∧
      (Ccdb.execute stmt (sys.ctx tx)).final.tm.status x = sys.tm.status x := by
  have hknown := h.known i tx (Or.inl htx)
  set s := sys.ctx tx with hs
  obtain ⟨hwf₁, hout₁, hlt₁, he₁⟩ :=
    finished_step (.commit s.tm s.tx.id hknown.known) h.wf hx hlt
  obtain ⟨hwf₂, hout₂, hlt₂, he₂⟩ := finished_step (.begin _) hwf₁ hout₁ hlt₁
  obtain ⟨hwf, hok, hopen, -, -, hid⟩ := renewed_tables (s := s) h.stored h.wf hknown.known false
  have hk := keeps_autocommit ⟨h.tables_eq, hwf, hok, hopen, rfl⟩ stmt
  have hne : x ≠ (s.renewed false).tx.id := by
    have hlt : x < s.tm.nextTxnId := hlt
    omega
  rw [execute_inactive (s := s) hidle]
  exact ⟨fun hin => hout₂ ((hk.loc.active x hne hlt₂).1 hin),
    (hk.loc.status_eq hne hlt₂).trans (he₂.trans he₁)⟩

/-- BEGIN in an idle session. -/
theorem Sound.begun (h : Sound tables sys) {tx : Transaction} (htx : sys.sessions i = .live tx)
    (hidle : tx.active = false) : ∃ z,
      Inside tables i z (sys.apply (.stmt i .begin)).tm sys.pool.tableRows
        (sys.apply (.stmt i .begin)) ∧
      z ∈ (sys.apply (.stmt i .begin)).tm.activeIds ∧ sys.tm.nextTxnId ≤ z ∧
      ∀ x, Carries tables sys.pool x →
        (sys.apply (.stmt i .begin)).tm.status x = sys.tm.status x := by
  have hsound := h.apply (.stmt i .begin)
  have hknown := h.known i tx (Or.inl htx)
  have hk := h.execute htx .begin
  set s := sys.ctx tx with hs
  set s₁ := ((s.renewed false).renewed true).logged .begin with hs₁
  have hrun : Ccdb.execute .begin s = .ok .begin s₁ := by
    rw [execute_inactive (s := s) hidle]
    exact autocommit_begin rfl
  have happly : sys.apply (.stmt i .begin) = sys.put i s₁ (.live s₁.tx) := by
    simp only [System.apply, htx, ← hs, hrun]
    rfl
  rw [hrun] at hk
  rw [happly] at hsound ⊢
  have hid : s.tm.nextTxnId ≤ s₁.tx.id := by
    obtain ⟨hwf, hok, hopen, -, hloc, hle⟩ := renewed_tables (s := s) h.stored h.wf hknown.known false
    exact le_trans hloc.next_le (renewed_tables (s := s.renewed false) hok hwf (Or.inl hopen) true).2.2.2.2.2
  refine ⟨s₁.tx.id, ⟨hsound, .refl _, fun _ _ => .refl, fun tx' htx' => ?_⟩, ?_, hid, fun x hx => ?_⟩
  · have htx' : (Function.update sys.sessions i (.live s₁.tx) i).Has tx' := htx'
    rw [Function.update_self] at htx'
    rcases htx' with htx' | htx' <;> cases htx'
    exact ⟨rfl, rfl⟩
  · exact (hk.known s₁.tx (Or.inl rfl)).explicit rfl
  · have hlt : x < s.tm.nextTxnId := h.stored.carries_lt hx
    by_cases hxid : x = tx.id
    · -- an idle transaction on a row is decided
      have hout : x ∉ s.tm.activeIds := fun hin => h.idle i tx htx hidle (hxid ▸ hin) (hxid ▸ hx)
      have hkept := (h.execute_finished htx hidle .begin hout hlt).2
      rw [← hs, hrun] at hkept
      exact hkept
    · exact hk.loc.status_eq hxid hlt

/-- **DML is rolled back.** In every state that an opened database reaches where no id comes
back, for every session that is idle there: a block of DML statements that is given up leaves
the scan of every table as it was just before BEGIN. Statements of the block may have failed. -/
theorem dml_rolled_back {sys : System} (hopened : Opened sys) (hids : sys.tm.FutureUndecided)
    (events : List Event) {i : Nat} {tx : Transaction} (htx : (sys.run events).sessions i = .live tx)
    (hidle : tx.active = false) {stmts : List Statement} (hdml : ∀ stmt ∈ stmts, stmt.isDml) {last : Event}
    (hlast : Inside.GivesUp i last) {table : TableDef} (htab : table ∈ sys.catalog.tables) :
    ∃ rows, (sys.run events).freshScan table.firstPageId = .ok rows ∧
      ((sys.run events).run (.stmt i .begin :: stmts.map (.stmt i) ++ [last])).freshScan
        table.firstPageId = .ok rows := by
  have hsound := (hopened.sound hids).run events
  set before := sys.run events with hbefore
  obtain ⟨z, hin, hopen, hz, hstatus⟩ := hsound.begun htx hidle
  have hend := hin.dmls hdml
  obtain ⟨hpool, hnot, hsame⟩ := hend.giveUp hopen hlast
  have hrun : before.run (.stmt i .begin :: stmts.map (.stmt i) ++ [last]) =
      ((before.apply (.stmt i .begin)).run (stmts.map (.stmt i))).apply last := by
    rw [List.cons_append]
    show (before.apply (.stmt i .begin)).run (stmts.map (.stmt i) ++ [last]) = _
    rw [System.run_append]
    rfl
  rw [hrun, hsound.freshScan_eq htab, (hend.sound.apply last).freshScan_eq htab, hpool]
  set after := ((before.apply (.stmt i .begin)).run (stmts.map (.stmt i))).apply last with hafter
  refine ⟨_, rfl, congrArg Except.ok ?_⟩
  have hold : ∀ x, Carries sys.catalog.tables before.pool x → after.tm.status x = before.tm.status x := by
    intro x hx
    have hlt := hsound.stored.carries_lt hx
    rw [hsame x (Nat.ne_of_lt (lt_of_lt_of_le hlt hz)), hstatus x hx]
  -- what the block overwrote did not count as a deletion
  have hrep : ∀ x, Reusable (before.apply (.stmt i .begin)).tm z x →
      x = invalidTxnId ∨ after.tm.status x ≠ .committed := by
    rintro x (hx | hx | hx)
    · exact Or.inl hx
    · exact Or.inr (hx ▸ hnot)
    · by_cases hxz : x = z
      · exact Or.inr (hxz ▸ hnot)
      · right
        rw [hsame x hxz]
        exact hx
  have hsteps := liveValues_steps hnot hrep (hend.steps table htab)
  rw [hsteps]
  exact liveValues_congr fun t ht => ⟨hold _ ⟨table, htab, t, ht, Or.inl rfl⟩,
    hold _ ⟨table, htab, t, ht, Or.inr rfl⟩⟩

theorem stored_smallServer : TablesOk smallServer.catalog.tables smallServer.pool tm := by
  have hrows : ∀ p, (Page.new p).rows = [] := fun _ => rfl
  have hfiles : ∀ f ∈ heapFiles smallServer.catalog.tables, f < 6 := by decide
  refine ⟨fun p => [p], ⟨⟨?_, by decide, by decide⟩, ⟨?_, ?_, ?_⟩, ?_, ?_, ?_, ?_, ?_, ?_⟩, by decide, ?_, ?_⟩
  · exact List.nodup_nil
  · exact fun p hp => absurd hp List.not_mem_nil
  · exact fun p _ hp => absurd hp (by simp [smallServer, Page.new])
  · exact fun p _ hp => absurd hp (by simp [smallServer, Page.new])
  · exact fun f hf => ⟨rfl, Nat.ne_of_lt (lt_trans (hfiles f hf) (by decide)), rfl⟩
  · exact fun f _ => List.nodup_singleton f
  · intro f _ g _ p hf hg
    rw [← List.mem_singleton.1 hf, List.mem_singleton.1 hg]
  · intro f hf p hp
    exact ⟨List.mem_singleton.1 hp ▸ hfiles f hf, List.not_mem_nil⟩
  · exact fun _ _ _ _ => rfl
  · exact fun _ _ _ _ slot hslot => absurd hslot List.not_mem_nil
  · intro table _ t ht
    exact absurd ht (by simp [BufferPool.rowsOn, smallServer, hrows])
  · intro table _ p _ _ t ht
    exact absurd ht (by simp [smallServer, hrows])

theorem opened_smallServer : Opened smallServer :=
  ⟨fun _ => rfl, started_smallServer.quiet, stored_smallServer⟩

def Session.isIdle : Session → Bool
  | .live tx => !tx.active
  | _ => false

theorem Session.isIdle_iff {s : Session} : s.isIdle ↔ ∃ tx, s = .live tx ∧ tx.active = false := by
  cases s <;> simp [isIdle]

/-- `UPDATE t SET c = v`. -/
def updateTo (v : Int32) : Statement :=
  .update ⟨1, none, [⟨0, fun _ => .ok (.int v)⟩], fun _ => .ok ()⟩

/-- Row 7 is there and one that refers to it. A block updates the first in place, tries
and fails to refer to a value that is not there, sets it back, deletes both with one
DELETE and adds a row; it is rolled back. -/
theorem dml_rolled_back_references :
    let sys := smallServer.run [.connect 0, .stmt 0 insertSeven, .stmt 0 referToSeven]
    sys.freshScan 4 = .ok [[.int 7]] ∧ sys.freshScan 5 = .ok [[.int 7]] ∧
      (sys.run (.stmt 0 .begin :: [updateTo 8, referToSeven, updateTo 7, deleteT, insertSeven].map
        (.stmt 0) ++ [.stmt 0 .rollback])).freshScan 5 = .ok [[.int 7]] := by
  have hscan : (smallServer.run [.connect 0, .stmt 0 insertSeven, .stmt 0 referToSeven]).freshScan 4 =
      .ok [[.int 7]] ∧ (smallServer.run [.connect 0, .stmt 0 insertSeven,
        .stmt 0 referToSeven]).freshScan 5 = .ok [[.int 7]] := by
    decide +kernel
  have hdml : ∀ stmt ∈ [updateTo 8, referToSeven, updateTo 7, deleteT, insertSeven],
      stmt.isDml := by decide
  have hidle : ((smallServer.run [.connect 0, .stmt 0 insertSeven,
      .stmt 0 referToSeven]).sessions 0).isIdle := by
    decide +kernel
  obtain ⟨tx, htx, hidle⟩ := Session.isIdle_iff.1 hidle
  have htab : (⟨2, "u", 5, [.int], ["y"]⟩ : TableDef) ∈ smallServer.catalog.tables :=
    List.mem_cons_of_mem _ List.mem_cons_self
  obtain ⟨rows, hbefore, hafter⟩ := dml_rolled_back opened_smallServer (fun _ _ => rfl)
    [.connect 0, .stmt 0 insertSeven, .stmt 0 referToSeven] htx hidle hdml (Or.inl rfl) htab
  exact ⟨hscan.1, hscan.2, hafter.trans (hbefore.symm.trans hscan.2)⟩

/-- A transaction that writes a row; three that only read; a checkpoint, stopped when it has
written the CLOG file; a restart. -/
def forgottenReaders : TxnIds.Server :=
  [.begin, .write 2 0 (.delete (5, 0) 2), .flushWal, .commit 2, .begin, .commit 3, .begin, .commit 4,
    .begin, .commit 5, .checkpoint, .restart 1].foldl TxnIds.Server.step TxnIds.initialized

/-- BEGIN gets the id of a reader, and ROLLBACK leaves that Committed. -/
theorem rolled_back_row_visible :
    TxnIds.Reachable (fun _ _ => True) forgottenReaders ∧
      let sys := { smallServer with tm := forgottenReaders.tm }
      Opened sys ∧ (sys.run [.connect 0]).freshScan 4 = .ok [] ∧
        (sys.run [.connect 0, .stmt 0 .begin, .stmt 0 insertSeven, .stmt 0 .rollback]).freshScan 4 =
          .ok [[.int 7]] := by
  have hwrote : TxnIds.Reachable (fun _ _ => True) _ := ((TxnIds.Reachable.init.step .begin trivial
    trivial).step (.write 2 0 (.delete (5, 0) 2)) ⟨List.mem_cons_self, rfl⟩ trivial).step .flushWal
      trivial trivial
  -- the log says nothing of 3, 4 and 5, the CLOG file has them
  have hread := (((hwrote.step (.commit 2) List.mem_cons_self trivial).step .begin trivial trivial).step
    (.commit 3) List.mem_cons_self trivial).step .begin trivial trivial
  have hlast := ((hread.step (.commit 4) List.mem_cons_self trivial).step .begin trivial trivial).step
    (.commit 5) List.mem_cons_self trivial
  exact ⟨(hlast.step .checkpoint trivial trivial).step (.restart 1) (Nat.le_refl 1) trivial,
    ⟨fun _ => rfl, ⟨rfl, rfl, by decide⟩, stored_smallServer⟩, by decide +kernel, by decide +kernel⟩

end Ccdb
