import Ccdb.Exec.VacuumRows
import Ccdb.Recovery.Decision

/-!
# Ccdb — tables and sessions over a run

What holds of the tables and of the transactions of the sessions in every state
of the system. A row carries only ids that have been handed out; the id of an
idle session is on no row while it is undecided, since `refresh_autocommit` is
going to commit it.

Main results:

* `works_statement` — a DML statement or a VACUUM on the rows of every table.
* `Sound.run` — the invariant over every run of the system.
-/

namespace Ccdb

open Relation

/-! ## The rows of a table -/

/-- The row versions of the table that starts at `first`, in chain order. -/
def BufferPool.tableRows (s : BufferPool) (first : Nat) : List HeapTuple :=
  match chainPages first s with
  | .ok pages _ => pages.flatMap fun p => p.2.rows
  | .error _ _ => []

/-- `x` created or deleted a row version of the tables. -/
def Carries (tables : List TableDef) (pool : BufferPool) (x : Nat) : Prop :=
  ∃ table ∈ tables, ∃ t ∈ pool.tableRows table.firstPageId, t.xmin = x ∨ t.xmax = x

variable {tables : List TableDef} {pool : BufferPool} {tm tm' : TransactionManager}
  {table : TableDef} {s s' s₁ : Ctx}

theorem Stored.tableRows_eq {chain : Nat → List Nat} (h : Stored tables chain pool tm)
    (htab : table ∈ tables) : pool.tableRows table.firstPageId =
      pool.rowsOn (chain table.firstPageId) := by
  unfold BufferPool.tableRows BufferPool.rowsOn
  rw [h.heaps.chainPages_eq (mem_heapFiles htab)]
  simp only [List.flatMap_map]

namespace TablesOk

/-- Ids on rows have been handed out. -/
theorem ids_lt (h : TablesOk tables pool tm) (htab : table ∈ tables) :
    ∀ t ∈ pool.tableRows table.firstPageId, t.xmin < tm.nextTxnId ∧ t.xmax < tm.nextTxnId := by
  obtain ⟨chain, h⟩ := h
  rw [h.tableRows_eq htab]
  exact h.ids table htab

theorem carries_lt (h : TablesOk tables pool tm) {x : Nat} (hx : Carries tables pool x) :
    x < tm.nextTxnId := by
  obtain ⟨table, htab, t, ht, rfl | rfl⟩ := hx
  · exact (h.ids_lt htab t ht).1
  · exact (h.ids_lt htab t ht).2

theorem tm_step (h : TablesOk tables pool tm) (hwf : tm.WF) (hstep : TransactionManager.Step tm tm') :
    TablesOk tables pool tm' :=
  h.imp fun _ h => h.tm_step hwf hstep

theorem sameOutcomes (h : TablesOk tables pool tm) (hsame : SameOutcomes tm tm') :
    TablesOk tables pool tm' :=
  h.imp fun _ h => h.sameOutcomes hsame

/-- **Fresh scans.** -/
theorem seqScan_live (h : TablesOk tables pool tm) (hwf : tm.WF) (htab : table ∈ tables) {id : Nat}
    (hid : ¬ Carries tables pool id) : seqScan table.firstPageId (tm.snapshot id) tm pool =
      .ok (((pool.tableRows table.firstPageId).filter fun t => Live tm t).map HeapTuple.values)
        pool := by
  obtain ⟨chain, h⟩ := h
  have hrows := h.tableRows_eq htab
  rw [hrows]
  refine h.seqScan_live hwf htab fun t ht => ⟨fun hmin => hid ?_, fun hmax => hid ?_⟩
  · exact ⟨table, htab, t, hrows ▸ ht, Or.inl hmin⟩
  · exact ⟨table, htab, t, hrows ▸ ht, Or.inr hmax⟩

end TablesOk

/-! ## One statement -/

/-- Where one element is replaced, the others were there before. -/
theorem mem_replaced {α : Type} {front back : List α} {t u v : α} (h : t ∈ front ++ v :: back) :
    t = v ∨ t ∈ front ++ u :: back := by
  rcases List.mem_append.1 h with h | h
  · exact Or.inr (List.mem_append_left _ h)
  · exact (List.mem_cons.1 h).imp_right fun h => by simp [h]

/-- The ids on the rows after a step. -/
theorem RowsStep.carried {id : Nat} {rep : Nat → Prop} {rows rows' : List HeapTuple} {t : HeapTuple}
    (h : RowsStep id rep rows rows') (ht : t ∈ rows') :
    (t.xmin = id ∨ ∃ u ∈ rows, u.xmin = t.xmin) ∧
      (t.xmax = id ∨ t.xmax = invalidTxnId ∨ ∃ u ∈ rows, u.xmax = t.xmax) := by
  cases h with
  | same => exact ⟨Or.inr ⟨t, ht, rfl⟩, Or.inr (Or.inr ⟨t, ht, rfl⟩)⟩
  | insert rows values =>
    rcases List.mem_append.1 ht with ht | ht
    · exact ⟨Or.inr ⟨t, ht, rfl⟩, Or.inr (Or.inr ⟨t, ht, rfl⟩)⟩
    · rw [List.mem_singleton.1 ht]
      exact ⟨Or.inl rfl, Or.inr (Or.inl rfl)⟩
  | delete front back u hrep =>
    have hu : u ∈ front ++ u :: back := by simp
    rcases mem_replaced ht with rfl | ht
    · exact ⟨Or.inr ⟨u, hu, rfl⟩, Or.inl rfl⟩
    · exact ⟨Or.inr ⟨t, ht, rfl⟩, Or.inr (Or.inr ⟨t, ht, rfl⟩)⟩
  | forward front back u ctid =>
    have hu : u ∈ front ++ u :: back := by simp
    rcases mem_replaced ht with rfl | ht
    · exact ⟨Or.inr ⟨u, hu, rfl⟩, Or.inr (Or.inr ⟨u, hu, rfl⟩)⟩
    · exact ⟨Or.inr ⟨t, ht, rfl⟩, Or.inr (Or.inr ⟨t, ht, rfl⟩)⟩

theorem rowsSteps_carried {id : Nat} {rep : Nat → Prop} {rows rows' : List HeapTuple}
    (h : ReflTransGen (RowsStep id rep) rows rows') : ∀ t ∈ rows',
      (t.xmin = id ∨ ∃ u ∈ rows, u.xmin = t.xmin) ∧
        (t.xmax = id ∨ t.xmax = invalidTxnId ∨ ∃ u ∈ rows, u.xmax = t.xmax) := by
  induction h with
  | refl => exact fun t ht => ⟨Or.inr ⟨t, ht, rfl⟩, Or.inr (Or.inr ⟨t, ht, rfl⟩)⟩
  | tail _ hstep ih =>
    intro t ht
    obtain ⟨hmin, hmax⟩ := hstep.carried ht
    refine ⟨?_, ?_⟩
    · rcases hmin with hmin | ⟨u, hu, hmin⟩
      · exact Or.inl hmin
      · exact hmin ▸ (ih u hu).1
    · rcases hmax with hmax | hmax | ⟨u, hu, hmax⟩
      · exact Or.inl hmax
      · exact Or.inr (Or.inl hmax)
      · exact hmax ▸ (ih u hu).2

/-- DML on the tables. -/
theorem TablesOk.writes (h : TablesOk tables s.pool s.tm) (hid : s.tx.id < s.tm.nextTxnId)
    (hsteps : ReflTransGen (Write True tables) s s') : TablesOk tables s'.pool s'.tm ∧
      ∀ table ∈ tables, ReflTransGen (RowsStep s.tx.id (Overwritable s))
        (s.pool.tableRows table.firstPageId) (s'.pool.tableRows table.firstPageId) := by
  induction hsteps with
  | refl => exact ⟨h, fun _ _ => .refl⟩
  | @tail s₁ s₂ hsteps hstep ih =>
    obtain ⟨⟨chain, hstored⟩, hrows⟩ := ih
    have happ := appends_of_writes hsteps
    have hid₁ : s₁.tx.id < s₁.tm.nextTxnId := by
      rw [happ.id_eq, happ.outcomes.next_eq]
      exact hid
    obtain ⟨chain', hstored', hstep⟩ := hstep.stored hstored hid₁
    have hrep : Overwritable s₁ = Overwritable s := by
      funext x
      unfold Overwritable
      rw [happ.id_eq, happ.outcomes.status_eq]
    rw [happ.id_eq, hrep] at hstep
    refine ⟨⟨chain', hstored'⟩, fun table htab => (hrows table htab).tail ?_⟩
    rw [hstored.tableRows_eq htab, hstored'.tableRows_eq htab]
    exact (hstep table htab).2

/-- A part of a statement: records of its own, rows of its own. -/
structure Works (tables : List TableDef) (s s' : Ctx) : Prop where
  tables_eq : s'.catalog.tables = tables
  appends : Appends (fun _ => True) s s'
  stored : TablesOk tables s'.pool s'.tm
  carried : ∀ x, x ≠ 0 → x ≠ s.tx.id → Carries tables s'.pool x → Carries tables s.pool x

theorem Works.refl (htabs : s.catalog.tables = tables) (h : TablesOk tables s.pool s.tm) :
    Works tables s s :=
  ⟨htabs, .refl s, h, fun _ _ _ hx => hx⟩

/-- A record. -/
theorem Works.logged (htabs : s.catalog.tables = tables) (h : TablesOk tables s.pool s.tm)
    (rt : WalRecordType) : Works tables s (s.logged rt) :=
  ⟨htabs, .logged s trivial, h.sameOutcomes (sameOutcomes_updateLastLsn _ _ _), fun _ _ _ hx => hx⟩

theorem Works.of_writes (htabs : s.catalog.tables = tables) (h : TablesOk tables s.pool s.tm)
    (hid : s.tx.id < s.tm.nextTxnId) (hsteps : ReflTransGen (Write True tables) s s') :
    Works tables s s' := by
  obtain ⟨hok, hrows⟩ := h.writes hid hsteps
  have hruns : Runs tables s.tx.id s' := hsteps.invariant Runs.write ⟨htabs, rfl⟩
  refine ⟨hruns.1, (appends_of_writes hsteps).mono fun _ _ => trivial, hok, ?_⟩
  rintro x h0 hx ⟨table, htab, t, ht, hcase⟩
  obtain ⟨hmin, hmax⟩ := rowsSteps_carried (hrows table htab) t ht
  rcases hcase with rfl | rfl
  · rcases hmin with hmin | ⟨u, hu, hmin⟩
    · exact absurd hmin hx
    · exact ⟨table, htab, u, hu, Or.inl hmin⟩
  · rcases hmax with hmax | hmax | ⟨u, hu, hmax⟩
    · exact absurd hmax hx
    · exact absurd hmax h0
    · exact ⟨table, htab, u, hu, Or.inr hmax⟩

theorem Works.of_vacuum (htabs : s.catalog.tables = tables) (h : TablesOk tables s.pool s.tm)
    (ids : List Nat) : Works tables s (performVacuum ids s).final := by
  obtain ⟨chain, h⟩ := h
  obtain ⟨chain', h', htabs', hrows⟩ := h.performVacuum htabs ids
  refine ⟨htabs', ?_, ⟨chain', h'⟩, ?_⟩
  · rcases performVacuum_cases ids s with ⟨s₁, happ, hrun⟩ | ⟨e, s₁, hrun, happ⟩
    · rw [hrun]
      exact (happ.mono fun _ _ => trivial).trans
        (Appends.trans (.logged s₁ trivial) (.quiet rfl rfl rfl rfl))
    · rw [hrun]
      exact happ.mono fun _ _ => trivial
  · rintro x - - ⟨table, htab, t, ht, hcase⟩
    rw [h'.tableRows_eq htab] at ht
    refine ⟨table, htab, t, ?_, hcase⟩
    rw [h.tableRows_eq htab]
    exact (hrows table htab).sublist.subset ht

/-- The statements that touch tables. -/
def Statement.worksOnTables : Statement → Bool
  | .select _ | .insert _ | .update _ | .delete .. | .vacuum _ => true
  | _ => false

/-- **DML and VACUUM** keep the tables in order, whether they succeed or not. -/
theorem works_statement {stmt : Statement} (hstmt : stmt.worksOnTables) (htabs : s.catalog.tables = tables)
    (h : TablesOk tables s.pool s.tm) (hwf : s.tm.WF) (hid : s.tx.id < s.tm.nextTxnId) :
    Works tables s (runStatement stmt s).final := by
  by_cases hdml : stmt.isDml
  · exact .of_writes htabs h hid (writes_dml hdml htabs h hwf hid)
  cases stmt with
  | select stmt =>
    exact .of_writes htabs h hid (((guar_performSelect stmt).bind fun _ => Guar.ret).steps ⟨htabs, rfl⟩)
  | vacuum ids =>
    have hvac := Works.of_vacuum htabs h ids
    show Works tables s ((performVacuum ids >>= fun _ => pure (Output.affected 0)) s).final
    cases hrun : performVacuum ids s with
    | ok a s₁ =>
      rw [hrun] at hvac
      rw [EStateM.bind_of_ok hrun]
      exact hvac
    | error e s₁ =>
      rw [hrun] at hvac
      rw [EStateM.bind_of_error hrun]
      exact hvac
  | insert | update | delete => exact absurd rfl hdml
  | _ => exact absurd hstmt Bool.false_ne_true

/-! ## Calls of a session -/

/-- Neither the pages nor the catalog change. -/
def SamePages (s s' : Ctx) : Prop := s'.pool = s.pool ∧ s'.catalog = s.catalog

theorem SamePages.refl (s : Ctx) : SamePages s s := ⟨rfl, rfl⟩

theorem SamePages.trans {s₂ : Ctx} (h : SamePages s s₁) (h' : SamePages s₁ s₂) : SamePages s s₂ :=
  ⟨h'.1.trans h.1, h'.2.trans h.2⟩

theorem samePages_rollback (s : Ctx) :
    SamePages s ((do rollback; unlockAll : ExecM Unit) s).final := ⟨rfl, rfl⟩

/-- The boundary of a statement touches no page. -/
theorem samePages_finish (stmt : Statement) (result : Except DbError Output) (s : Ctx) :
    SamePages s (finish stmt result s).final := by
  have hclose : ∀ (ok : Bool) (s₁ : Ctx), ∃ s', closeAutocommit ok s₁ = .ok () s' ∧ SamePages s₁ s' := by
    intro ok s₁
    unfold closeAutocommit
    rw [EStateM.bind_of_ok (show getCtx s₁ = .ok s₁ s₁ from rfl)]
    split
    · exact ⟨s₁, rfl, .refl s₁⟩
    · exact ⟨_, rfl, rfl, rfl⟩
  have hbracket : ∃ s₁, (if stmt.isDml then closeBracket (resultOk result) else pure ()) s = .ok () s₁ ∧
      SamePages s s₁ := by
    split
    · exact ⟨_, rfl, rfl, rfl⟩
    · exact ⟨s, rfl, .refl s⟩
  obtain ⟨s₁, hrun₁, hsame₁⟩ := hbracket
  obtain ⟨s₂, hrun₂, hsame₂⟩ := hclose (resultOk result) s₁
  have hfinal : (finish stmt result s).final = s₂ := by
    have hsplit : finish stmt result s = ((if stmt.isDml then closeBracket (resultOk result) else pure ()) >>=
        fun _ => closeAutocommit (resultOk result) >>= fun _ => liftX result) s := by
      unfold finish
      split
      · rfl
      · rfl
    rw [hsplit, EStateM.bind_of_ok hrun₁, EStateM.bind_of_ok hrun₂, final_liftX]
  rw [hfinal]
  exact hsame₁.trans hsame₂

/-- What a call of a session leaves behind: the tables are in order, and what
other sessions rely on is as it was. -/
structure Keeps (tables : List TableDef) (s s' : Ctx) (session : Session) : Prop where
  tables_eq : s'.catalog.tables = tables
  wf : s'.tm.WF
  stored : TablesOk tables s'.pool s'.tm
  carried : ∀ x, x ≠ 0 → x ≠ s.tx.id → x < s.tm.nextTxnId → Carries tables s'.pool x →
    Carries tables s.pool x
  loc : Local s.tx.id s s'
  known : ∀ tx, session.Has tx → TxOk s'.tm tx
  idle : ∀ tx, session = .live tx → tx.active = false → tx.id ∈ s'.tm.activeIds →
    ¬ Carries tables s'.pool tx.id
  id_eq : ∀ tx, session.Has tx → tx.id = s.tx.id ∨ s.tm.nextTxnId ≤ tx.id

theorem live_of_after {α : Type} {r : EStateM.Result DbError Ctx α} {tx : Transaction}
    (h : Session.after r = .live tx) : tx = r.final.tx :=
  has_after (Or.inl h)

/-- A call inside an open explicit transaction that leaves it open. -/
theorem keeps_open {α : Type} (hwf : s.tm.WF) (hact : s.tx.active) (hopen : s.tx.id ∈ s.tm.activeIds)
    (r : EStateM.Result DbError Ctx α) (h : Works tables s r.final) :
    Keeps tables s r.final (.after r) := by
  have hopen' := h.appends.mem_activeIds hopen
  refine ⟨h.tables_eq, h.appends.outcomes.wf hwf, h.stored, fun x h0 hx _ => h.carried x h0 hx,
    .of_appends h.appends, fun tx htx => ?_, fun tx htx hidle => ?_, fun tx htx => ?_⟩
  · rw [has_after htx]
    exact ⟨Or.inl hopen', fun _ => hopen'⟩
  · rw [live_of_after htx, h.appends.active_eq, hact] at hidle
    cases hidle
  · rw [has_after htx]
    exact Or.inl h.appends.id_eq

/-- A call that decides the transaction of the session. -/
theorem keeps_decided {st : TxnStatus} (hst : st ≠ .inProgress) (hwf : s.tm.WF)
    (hopen : s.tx.id ∈ s.tm.activeIds) (h : Works tables s s₁) (hsame : SamePages s₁ s')
    (hwal : s'.wal.records = s₁.wal.records)
    (htm : s'.tm = (s₁.tm.removeAtt s.tx.id).decideClog s.tx.id st) (hid : s'.tx.id = s.tx.id)
    (hact : s'.tx.active = false) : Keeps tables s s' (.live s'.tx) := by
  have hopen₁ : s.tx.id ∈ s₁.tm.activeIds := h.appends.id_eq ▸ h.appends.mem_activeIds hopen
  have hwf₁ := h.appends.outcomes.wf hwf
  have hwf' : s'.tm.WF := htm ▸ hwf₁.decide (Or.inl hopen₁)
  have hdone : s'.tm.clog s'.tx.id ≠ .inProgress := by
    rw [htm, hid]
    exact clog_decided hst
  have hout : s'.tx.id ∉ s'.tm.activeIds := by
    rw [htm, hid, TransactionManager.activeIds_decideClog, TransactionManager.mem_activeIds_removeAtt]
    exact fun h => h.2 rfl
  have hstored : TablesOk tables s₁.pool s'.tm := by
    refine h.stored.imp fun chain hc => hc.tm_mono ?_ fun x hx => ?_
    · rw [htm, TransactionManager.nextTxnId_decideClog]
      exact le_refl _
    · -- what is committed stays so
      have hne : x ≠ s.tx.id := by
        rintro rfl
        rw [TransactionManager.status_of_active hwf₁ hopen₁] at hx
        cases hx
      rw [htm, TransactionManager.status, TransactionManager.clog_decideClog, if_neg fun hc => hne hc.1,
        TransactionManager.activeIds_decideClog]
      have hnot := TransactionManager.not_active_of_status hwf₁ (x := x) (by rw [hx]; decide)
      rw [if_neg fun hm => hnot (TransactionManager.mem_activeIds_removeAtt.1 hm).1]
      rw [TransactionManager.status, if_neg hnot] at hx
      exact hx
  refine ⟨hsame.2 ▸ h.tables_eq, hwf', hsame.1 ▸ hstored, fun x h0 hx _ hc => ?_,
    (Local.of_appends h.appends).trans (.of_decide st hwal htm) (Or.inl rfl), ?_, ?_, ?_⟩
  · exact h.carried x h0 hx (hsame.1 ▸ hc)
  · rintro tx (htx | htx) <;> cases htx
    exact ⟨Or.inr hdone, fun hc => absurd (hact.symm.trans hc) Bool.false_ne_true⟩
  · intro tx htx _ hc
    cases htx
    exact absurd hc hout
  · rintro tx (htx | htx) <;> cases htx
    exact Or.inl hid

/-- ROLLBACK and the automatic one, in a transaction. -/
theorem rollback_run (hact : s.tx.active) : ∃ s', runStatement .rollback s = .ok .rollback s' ∧
    abandon s = .ok () s' ∧ SamePages (s.logged .abort) s' ∧
    s'.wal.records = (s.logged .abort).wal.records ∧ s'.tm = (s.logged .abort).tm.abort s.tx.id ∧
    s'.tx.id = s.tx.id ∧ s'.tx.active = false := by
  obtain ⟨s', hrun, hrec, htm, hid, hact'⟩ := rollback_apply s
  have hsame := samePages_rollback s
  rw [hrun] at hsame
  refine ⟨s', ?_, ?_, hsame, hrec, htm, hid, hact'⟩
  · exact runRollback_active hact hrun
  · unfold abandon
    rw [EStateM.bind_of_ok (show getCtx s = .ok s s from rfl), if_pos hact]
    exact hrun

/-- One statement inside an explicit transaction. -/
theorem keeps_active (htabs : s.catalog.tables = tables) (hok : TablesOk tables s.pool s.tm)
    (hwf : s.tm.WF) (hact : s.tx.active) (hopen : s.tx.id ∈ s.tm.activeIds) (stmt : Statement) :
    Keeps tables s (execute stmt s).final (.after (execute stmt s)) := by
  rw [execute_active hact]
  by_cases hwork : stmt.worksOnTables
  · exact keeps_open hwf hact hopen _ (works_statement hwork htabs hok hwf (hwf.active_lt _ hopen))
  cases stmt with
  | select | insert | update | delete | vacuum => exact absurd rfl hwork
  | begin =>
    rw [begin_refused hact]
    exact keeps_open hwf hact hopen (.error _ s) (.refl htabs hok)
  | commit =>
    obtain ⟨s', hrun, hrec, htm, hid, hact'⟩ := commit_apply hact
    have hpages : SamePages (s.logged .commit) s' := by
      have hfinal : (runStatement .commit s).final = s' := by rw [hrun]; rfl
      rw [← hfinal]
      show SamePages _ (runCommit s).final
      unfold runCommit
      rw [EStateM.bind_of_ok (show getCtx s = .ok s s from rfl), if_pos hact]
      exact ⟨rfl, rfl⟩
    rw [hrun]
    exact keeps_decided (show TxnStatus.committed ≠ .inProgress by decide) hwf hopen
      (.logged htabs hok .commit) hpages hrec htm hid hact'
  | rollback =>
    obtain ⟨s', hrun, -, hpages, hrec, htm, hid, hact'⟩ := rollback_run hact
    rw [hrun]
    exact keeps_decided (show TxnStatus.aborted ≠ .inProgress by decide) hwf hopen
      (.logged htabs hok .abort) hpages hrec htm hid hact'

/-- The boundary that opens a statement: the old transaction is closed, the new one
is on no row. -/
theorem renewed_tables (hok : TablesOk tables s.pool s.tm) (hwf : s.tm.WF)
    (hknown : s.tx.id ∈ s.tm.activeIds ∨ s.tm.clog s.tx.id ≠ .inProgress) (active : Bool) :
    (s.renewed active).tm.WF ∧ TablesOk tables (s.renewed active).pool (s.renewed active).tm ∧
      (s.renewed active).tx.id ∈ (s.renewed active).tm.activeIds ∧
      ¬ Carries tables s.pool (s.renewed active).tx.id ∧ Local s.tx.id s (s.renewed active) ∧
      s.tm.nextTxnId ≤ (s.renewed active).tx.id := by
  have hcommit := TransactionManager.Step.commit s.tm s.tx.id hknown
  have hwf₁ := hcommit.wf hwf
  have hbegin := TransactionManager.Step.begin (s.tm.commit s.tx.id)
  have hok₁ := hok.tm_step hwf hcommit
  refine ⟨hbegin.wf hwf₁, hok₁.tm_step hwf₁ hbegin, ?_, fun hc => ?_, ?_, hcommit.next_le⟩
  · exact (TransactionManager.mem_activeIds_begin hwf₁).2 (Or.inl rfl)
  · have hlt := hok₁.carries_lt hc
    have hid : (s.renewed active).tx.id = (s.tm.commit s.tx.id).nextTxnId := rfl
    omega
  · have hdec : Local s.tx.id s { s with tm := s.tm.commit s.tx.id } :=
      .of_decide .committed rfl rfl
    have hnew : Local s.tx.id { s with tm := s.tm.commit s.tx.id } (s.renewed active) :=
      .of_begin hwf₁ rfl rfl
    exact hdec.trans hnew (Or.inl rfl)

/-- A new transaction that is on no row. -/
structure Untouched (tables : List TableDef) (s : Ctx) : Prop where
  tables_eq : s.catalog.tables = tables
  wf : s.tm.WF
  stored : TablesOk tables s.pool s.tm
  isOpen : s.tx.id ∈ s.tm.activeIds
  inactive : s.tx.active = false

/-- The end of a statement that returned. -/
theorem keeps_finish (hu : Untouched tables s) (h : Works tables s s₁) (stmt : Statement)
    (result : Except DbError Output) (he : ∀ e, result = .error e → e.returns) :
    Keeps tables s (finish stmt result s₁).final (.after (finish stmt result s₁)) := by
  obtain ⟨s', hrun, hrec, htm, hid, hact⟩ :=
    finish_inactive (h.appends.active_eq.trans hu.inactive) stmt result
  have hpages := samePages_finish stmt result s₁
  rw [hrun, final_liftX] at hpages
  rw [hrun, final_liftX, after_liftX result he]
  rw [h.appends.id_eq] at htm hid
  -- the bracket is one more record of the statement
  have hclosed : Works tables s (s₁.closed stmt (resultOk result)) := by
    refine ⟨?_, appends_closed h.appends stmt _, ?_, ?_⟩
    · unfold Ctx.closed
      split
      · exact h.tables_eq
      · exact h.tables_eq
    · unfold Ctx.closed
      split
      · exact h.stored.sameOutcomes (sameOutcomes_updateLastLsn _ _ _)
      · exact h.stored
    · unfold Ctx.closed
      split
      · exact h.carried
      · exact h.carried
  have hpages : SamePages (s₁.closed stmt (resultOk result)) s' := by
    unfold Ctx.closed
    split
    · exact hpages
    · exact hpages
  cases hres : resultOk result with
  | true =>
    rw [hres] at hrec htm hclosed hpages
    exact keeps_decided (show TxnStatus.committed ≠ .inProgress by decide) hu.wf hu.isOpen hclosed
      hpages hrec htm hid hact
  | false =>
    rw [hres] at hrec htm hclosed hpages
    exact keeps_decided (show TxnStatus.aborted ≠ .inProgress by decide) hu.wf hu.isOpen hclosed
      hpages hrec htm hid hact

/-- A statement that panics or never returns leaves its transaction open. -/
theorem keeps_panic {e : DbError} (hu : Untouched tables s) (h : Works tables s s₁)
    (he : e.returns = false) :
    Keeps tables s s₁ (.after (.error e s₁ : EStateM.Result DbError Ctx Output)) := by
  have hopen := h.appends.mem_activeIds hu.isOpen
  refine ⟨h.tables_eq, h.appends.outcomes.wf hu.wf, h.stored, fun x h0 hx _ => h.carried x h0 hx,
    .of_appends h.appends, fun tx htx => ?_, fun tx htx => ?_, fun tx htx => ?_⟩
  · rw [has_after htx]
    exact ⟨Or.inl hopen, fun _ => hopen⟩
  · cases e with
    | panic msg => cases htx
    | diverge => cases htx
    | bail msg => exact absurd he.symm Bool.false_ne_true
    | io what => exact absurd he.symm Bool.false_ne_true
  · rw [has_after htx]
    exact Or.inl h.appends.id_eq

/-- An auto-committed statement, from what the statement itself did. -/
theorem keeps_result (hu : Untouched tables s) (stmt : Statement)
    {r : EStateM.Result DbError Ctx Output} (hr : runStatement stmt (s.opened stmt) = r)
    (h : Works tables s r.final) :
    Keeps tables s (autocommit stmt s).final (.after (autocommit stmt s)) := by
  rw [autocommit_eq]
  cases r with
  | ok out s₁ =>
    have hatt : attempt (runStatement stmt) (s.opened stmt) = .ok (.ok out) s₁ := by
      simp [attempt, hr]
    rw [EStateM.bind_of_ok hatt]
    exact keeps_finish hu h stmt _ fun _ h => by cases h
  | error e s₁ =>
    have hatt := attempt_error hr
    by_cases he : e.returns
    · rw [if_pos he] at hatt
      rw [EStateM.bind_of_ok hatt]
      exact keeps_finish hu h stmt _ fun _ h => by cases h; exact he
    · rw [if_neg he] at hatt
      rw [EStateM.bind_of_error hatt]
      exact keeps_panic hu h (by simpa using he)

/-- BEGIN from its boundary on. -/
theorem autocommit_begin (hact : s.tx.active = false) :
    autocommit .begin s = .ok .begin ((s.renewed true).logged .begin) := by
  have hbegin : runStatement .begin (s.opened .begin) =
      .ok .begin ((s.renewed true).logged .begin) := by
    show runBegin s = _
    unfold runBegin
    rw [EStateM.bind_of_ok (show getCtx s = .ok s s from rfl), if_neg (by rw [hact]; decide)]
    rfl
  rw [autocommit_eq, EStateM.bind_of_ok (show attempt (runStatement .begin) (s.opened .begin) =
    .ok (.ok .begin) ((s.renewed true).logged .begin) by simp [attempt, hbegin])]
  rfl

theorem keeps_begin (hu : Untouched tables s) :
    Keeps tables s (autocommit .begin s).final (.after (autocommit .begin s)) := by
  obtain ⟨hwf, hok, hopen, -, hloc, hid⟩ := renewed_tables hu.stored hu.wf (Or.inl hu.isOpen) true
  have happ : Appends (fun _ => True) (s.renewed true) ((s.renewed true).logged .begin) :=
    .logged _ trivial
  rw [autocommit_begin hu.inactive]
  have hopen' := happ.mem_activeIds hopen
  refine ⟨hu.tables_eq, happ.outcomes.wf hwf, hok.sameOutcomes happ.outcomes, fun _ _ _ _ hx => hx,
    hloc.trans (.of_appends happ) (Or.inr hid), fun tx htx => ?_, fun tx htx hidle => ?_,
    fun tx htx => ?_⟩
  · rw [has_after htx]
    exact ⟨Or.inl hopen', fun _ => hopen'⟩
  · rw [live_of_after htx] at hidle
    cases hidle
  · rw [has_after htx]
    exact Or.inr hid

/-- One statement outside an explicit transaction, from its fresh boundary on. -/
theorem keeps_autocommit (hu : Untouched tables s) (stmt : Statement) :
    Keeps tables s (autocommit stmt s).final (.after (autocommit stmt s)) := by
  have hopened : Works tables s (s.opened stmt) := by
    unfold Ctx.opened
    split
    · exact .logged hu.tables_eq hu.stored .begin
    · exact .refl hu.tables_eq hu.stored
  have hrefused : ∀ msg, runStatement stmt (s.opened stmt) = .error (.bail msg) (s.opened stmt) →
      Keeps tables s (autocommit stmt s).final (.after (autocommit stmt s)) := fun _ hrun =>
    keeps_result hu stmt hrun hopened
  have hinactive : ¬ ((s.opened stmt).tx.active = true) := by
    rw [hopened.appends.active_eq, hu.inactive]
    decide
  by_cases hwork : stmt.worksOnTables
  · have hid : (s.opened stmt).tx.id < (s.opened stmt).tm.nextTxnId := by
      rw [hopened.appends.id_eq, hopened.appends.outcomes.next_eq]
      exact hu.wf.active_lt _ hu.isOpen
    have hworks := works_statement hwork hopened.tables_eq hopened.stored
      (hopened.appends.outcomes.wf hu.wf) hid
    refine keeps_result hu stmt rfl ⟨hworks.tables_eq, hopened.appends.trans hworks.appends,
      hworks.stored, fun x h0 hx hc => hopened.carried x h0 hx (hworks.carried x h0 ?_ hc)⟩
    rw [hopened.appends.id_eq]
    exact hx
  cases stmt with
  | select | insert | update | delete | vacuum => exact absurd rfl hwork
  | begin => exact keeps_begin hu
  | commit =>
    refine hrefused "there is no transaction in progress" ?_
    show runCommit _ = _
    unfold runCommit
    rw [EStateM.bind_of_ok (show getCtx (s.opened .commit) = .ok _ _ from rfl), if_neg hinactive]
    rfl
  | rollback =>
    refine hrefused "there is no transaction in progress" ?_
    show runRollback _ = _
    unfold runRollback
    rw [EStateM.bind_of_ok (show getCtx (s.opened .rollback) = .ok _ _ from rfl), if_neg hinactive]
    rfl

/-! ## Runs of the system -/

/-- The invariant of the system. -/
structure Sound (tables : List TableDef) (sys : System) : Prop where
  tables_eq : sys.catalog.tables = tables
  wf : sys.tm.WF
  stored : TablesOk tables sys.pool sys.tm
  known : ∀ i tx, (sys.sessions i).Has tx → TxOk sys.tm tx
  idle : ∀ i tx, sys.sessions i = .live tx → tx.active = false → tx.id ∈ sys.tm.activeIds →
    ¬ Carries tables sys.pool tx.id
  distinct : ∀ i j tx tx', (sys.sessions i).Has tx → (sys.sessions j).Has tx' → tx.id = tx'.id → i = j

namespace Sound

variable {sys : System} {i : Nat} {tx : Transaction}

/-- Ids of sessions have been handed out, and 0 never is. -/
theorem id_lt (h : Sound tables sys) (htx : (sys.sessions i).Has tx) :
    tx.id < sys.tm.nextTxnId ∧ tx.id ≠ 0 := by
  rcases (h.known i tx htx).known with hin | hdone
  · refine ⟨h.wf.active_lt _ hin, ?_⟩
    intro h0
    exact h.wf.zero_inactive (h0 ▸ hin)
  · refine ⟨?_, ?_⟩
    · by_contra hge
      exact hdone (h.wf.future _ (by omega))
    · intro h0
      exact hdone (h0 ▸ h.wf.zero_undecided)

/-- A call of one session leaves the invariant for all of them. -/
theorem put (h : Sound tables sys) {s' : Ctx} {session : Session} (htx : (sys.sessions i).Has tx)
    (hk : Keeps tables (sys.ctx tx) s' session) : Sound tables (sys.put i s' session) := by
  have hother : ∀ j, j ≠ i → ∀ tx', (sys.sessions j).Has tx' →
      tx'.id ≠ tx.id ∧ tx'.id < sys.tm.nextTxnId ∧ tx'.id ≠ 0 := fun j hj tx' htx' =>
    ⟨fun heq => hj (h.distinct j i tx' tx htx' htx heq), h.id_lt htx'⟩
  refine ⟨hk.tables_eq, hk.wf, hk.stored, fun j tx' htx' => ?_, fun j tx' htx' hidle hin hc => ?_,
    fun j k txj txk hj hk' heq => ?_⟩
  · have htx' : (Function.update sys.sessions i session j).Has tx' := htx'
    by_cases hji : j = i
    · rw [hji, Function.update_self] at htx'
      exact hk.known tx' htx'
    · rw [Function.update_of_ne hji] at htx'
      obtain ⟨hne, hlt, -⟩ := hother j hji tx' htx'
      exact hk.loc.txOk hne hlt (h.known j tx' htx')
  · have htx' : Function.update sys.sessions i session j = .live tx' := htx'
    by_cases hji : j = i
    · rw [hji, Function.update_self] at htx'
      exact hk.idle tx' htx' hidle hin hc
    · rw [Function.update_of_ne hji] at htx'
      obtain ⟨hne, hlt, h0⟩ := hother j hji tx' (Or.inl htx')
      have hin : tx'.id ∈ sys.tm.activeIds := (hk.loc.active _ hne hlt).1 hin
      exact h.idle j tx' htx' hidle hin (hk.carried _ h0 hne hlt hc)
  · -- a new id is larger than every id there was
    refine distinct_update h.distinct (fun j tx' hji htx' txi htxi heq => ?_) j k txj txk hj hk' heq
    obtain ⟨hne, hlt, -⟩ := hother j hji tx' htx'
    have hlt : tx'.id < (sys.ctx tx).tm.nextTxnId := hlt
    rcases hk.id_eq txi htxi with hid | hid
    · exact hne (heq.trans hid)
    · omega

theorem execute (h : Sound tables sys) (htx : sys.sessions i = .live tx) (stmt : Statement) :
    Keeps tables (sys.ctx tx) (execute stmt (sys.ctx tx)).final
      (.after (Ccdb.execute stmt (sys.ctx tx))) := by
  have hknown := h.known i tx (Or.inl htx)
  cases hact : tx.active with
  | true =>
    exact keeps_active h.tables_eq h.stored h.wf hact (hknown.explicit hact) stmt
  | false =>
    obtain ⟨hwf, hok, hopen, hfresh, hloc, hid⟩ :=
      renewed_tables (s := sys.ctx tx) h.stored h.wf hknown.known false
    have hk := keeps_autocommit ⟨h.tables_eq, hwf, hok, hopen, rfl⟩ stmt
    rw [execute_inactive hact]
    have hlt : ((sys.ctx tx).renewed false).tx.id < ((sys.ctx tx).renewed false).tm.nextTxnId :=
      hwf.active_lt _ hopen
    refine ⟨hk.tables_eq, hk.wf, hk.stored, fun x h0 hx hxlt hc => ?_, hloc.trans hk.loc (Or.inr hid),
      hk.known, hk.idle, fun tx' htx' => ?_⟩
    · refine hk.carried x h0 ?_ (lt_of_lt_of_le hxlt hloc.next_le) hc
      rintro rfl
      omega
    · rcases hk.id_eq tx' htx' with heq | hle
      · exact Or.inr (heq ▸ hid)
      · exact Or.inr (le_trans hloc.next_le hle)

theorem abandon (h : Sound tables sys) (htx : sys.sessions i = .live tx) :
    Keeps tables (sys.ctx tx) (abandon (sys.ctx tx)).final (.after (Ccdb.abandon (sys.ctx tx))) := by
  have hknown := h.known i tx (Or.inl htx)
  set s := sys.ctx tx with hs
  cases hact : tx.active with
  | true =>
    obtain ⟨s', -, hrun, hpages, hrec, htm, hid, hact'⟩ :=
      rollback_run (s := s) (show s.tx.active = true from hact)
    rw [hrun]
    exact keeps_decided (show TxnStatus.aborted ≠ .inProgress by decide) h.wf (hknown.explicit hact)
      (.logged h.tables_eq h.stored .abort) hpages hrec htm hid hact'
  | false =>
    rw [abandon_inactive (s := s) hact]
    refine ⟨h.tables_eq, h.wf, h.stored, fun _ _ _ _ hx => hx,
      .of_appends (K := fun _ => False) (.quiet rfl rfl rfl rfl), fun tx' htx' => ?_,
      fun tx' htx' _ => ?_, fun tx' htx' => ?_⟩
    · rw [has_after htx']
      exact ⟨hknown.known, hknown.explicit⟩
    · rw [live_of_after htx']
      exact h.idle i tx htx hact
    · rw [has_after htx']
      exact Or.inl rfl

/-- The session that connects has the next id. -/
theorem has_connect (htx : ((sys.connect i).sessions i).Has tx) :
    tx.id = sys.tm.nextTxnId ∧ tx.active = false := by
  have htx : (Function.update sys.sessions i _ i).Has tx := htx
  rw [Function.update_self] at htx
  rcases htx with htx | htx <;> cases htx
  exact ⟨rfl, rfl⟩

/-- A new connection. -/
theorem connect (h : Sound tables sys) : Sound tables (sys.connect i) := by
  have hbegin := TransactionManager.Step.begin sys.tm
  have hloc : ∀ tx, Local sys.tm.nextTxnId (sys.ctx tx) ((sys.connect i).ctx tx) := fun tx =>
    .of_begin h.wf rfl rfl
  have hopen : sys.tm.nextTxnId ∈ sys.tm.begin.2.activeIds :=
    (TransactionManager.mem_activeIds_begin h.wf).2 (Or.inl rfl)
  have hfind : ∀ j tx, ((sys.connect i).sessions j).Has tx →
      (j = i ∧ tx.id = sys.tm.nextTxnId ∧ tx.active = false) ∨ (j ≠ i ∧ (sys.sessions j).Has tx) := by
    intro j tx htx
    by_cases hji : j = i
    · subst hji
      exact Or.inl ⟨rfl, has_connect htx⟩
    · have htx : (Function.update sys.sessions i _ j).Has tx := htx
      rw [Function.update_of_ne hji] at htx
      exact Or.inr ⟨hji, htx⟩
  have hold : ∀ j tx, (sys.sessions j).Has tx → tx.id ≠ sys.tm.nextTxnId ∧
      tx.id < sys.tm.nextTxnId := fun j tx htx =>
    ⟨Nat.ne_of_lt (h.id_lt htx).1, (h.id_lt htx).1⟩
  refine ⟨h.tables_eq, hbegin.wf h.wf, h.stored.tm_step h.wf hbegin, fun j tx htx => ?_,
    fun j tx htx hidle hin hc => ?_, fun j k txj txk hj hk heq => ?_⟩
  · rcases hfind j tx htx with ⟨-, hid, hact⟩ | ⟨-, htx⟩
    · refine ⟨Or.inl (hid ▸ hopen), fun hc => ?_⟩
      rw [hact] at hc
      cases hc
    · obtain ⟨hne, hlt⟩ := hold j tx htx
      exact (hloc tx).txOk hne hlt (h.known j tx htx)
  · have hc : Carries tables sys.pool tx.id := hc
    rcases hfind j tx (Or.inl htx) with ⟨-, hid, -⟩ | ⟨hji, hhas⟩
    · have hlt := h.stored.carries_lt hc
      omega
    · obtain ⟨hne, hlt⟩ := hold j tx hhas
      have htx : Function.update sys.sessions i _ j = .live tx := htx
      rw [Function.update_of_ne hji] at htx
      exact h.idle j tx htx hidle (((hloc tx).active _ hne hlt).1 hin) hc
  · refine distinct_update h.distinct (fun j tx' _ htx' txi htxi => ?_) j k txj txk hj hk heq
    rcases htxi with htxi | htxi <;> cases htxi
    exact (hold j tx' htx').1

/-- The transaction of a session is dropped. -/
theorem dropTx (h : Sound tables sys) (htx : (sys.sessions i).Has tx) :
    Sound tables (sys.dropTx i tx) := by
  have habort := TransactionManager.Step.abort sys.tm tx.id (h.known i tx htx).known
  have hk : Keeps tables (sys.ctx tx) ((sys.dropTx i tx).ctx tx) .gone := by
    refine ⟨h.tables_eq, habort.wf h.wf, h.stored.tm_step h.wf habort, fun _ _ _ _ hx => hx,
      .of_decide .aborted rfl rfl, ?_, fun tx' htx' => ?_, ?_⟩
    · rintro tx' (h | h) <;> cases h
    · cases htx'
    · rintro tx' (h | h) <;> cases h
  exact h.put htx hk

/-- **One step** of the system. -/
theorem apply (h : Sound tables sys) (e : Event) : Sound tables (sys.apply e) := by
  cases e with
  | connect i =>
    cases hs : sys.sessions i with
    | gone =>
      simp only [System.apply, hs]
      exact h.connect
    | live tx => simpa only [System.apply, hs] using h
    | unwinding tx => simpa only [System.apply, hs] using h
  | stmt i stmt =>
    cases hs : sys.sessions i with
    | live tx =>
      simp only [System.apply, hs]
      exact h.put (Or.inl hs) (h.execute hs stmt)
    | unwinding tx => simpa only [System.apply, hs] using h
    | gone => simpa only [System.apply, hs] using h
  | abandon i =>
    cases hs : sys.sessions i with
    | live tx =>
      simp only [System.apply, hs]
      exact h.put (Or.inl hs) (h.abandon hs)
    | unwinding tx => simpa only [System.apply, hs] using h
    | gone => simpa only [System.apply, hs] using h
  | drop i =>
    cases hs : sys.sessions i with
    | live tx =>
      simp only [System.apply, hs]
      split
      · exact h
      · exact h.dropTx (Or.inl hs)
    | unwinding tx =>
      simp only [System.apply, hs]
      exact h.dropTx (Or.inr hs)
    | gone => simpa only [System.apply, hs] using h

/-- **Every run** keeps the tables in order. -/
theorem run (h : Sound tables sys) (events : List Event) : Sound tables (sys.run events) := by
  induction events generalizing sys with
  | nil => exact h
  | cons e es ih => exact ih (h.apply e)

end Sound

/-- A database that has been opened: nobody is connected, its tables are in order, and the ids
on their rows have been handed out. -/
structure Opened (sys : System) : Prop where
  gone : ∀ i, sys.sessions i = .gone
  quiet : sys.tm.Quiet
  stored : TablesOk sys.catalog.tables sys.pool sys.tm

theorem Opened.sound {sys : System} (h : Opened sys) (hids : sys.tm.FutureUndecided) :
    Sound sys.catalog.tables sys := by
  have hnone : ∀ i tx, ¬ (sys.sessions i).Has tx := by
    rintro i tx (h' | h') <;> rw [h.gone] at h' <;> cases h'
  exact ⟨rfl, h.quiet.wf hids, h.stored, fun i tx htx => absurd htx (hnone i tx),
    fun i tx htx => absurd (Or.inl htx) (hnone i tx), fun i _ tx _ hi => absurd hi (hnone i tx)⟩

end Ccdb
