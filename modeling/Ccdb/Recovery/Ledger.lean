import Ccdb.Exec.Trace
import Ccdb.Recovery.Recover
import Mathlib.Data.List.Induction

/-!
# Ccdb — the log and the commit log

The outcome of a transaction is kept twice: in the commit log of the
transaction manager, and in the Begin, Commit and Abort records `analyze`
reads after a crash. `LogInv` says that the two agree on every finished
transaction that wrote a row. Each log record and each operation of the
manager keeps it under a condition of its own.

Main results:

* `mem_committed_analyze` — `analyze` commits what has a Commit record.
* `LogInv.log`, `LogInv.commit`, `LogInv.abort` — the steps that keep the two
  in agreement.
* `appends_dml`, `performVacuum_cases` — what the statements log.
-/

namespace Ccdb

open Relation

/-! ## What the log says -/

/-- An Insert or Delete record. -/
def WalRecordType.isRow : WalRecordType → Bool
  | .insert .. | .delete .. => true
  | _ => false

/-- `id` wrote a row. -/
def Wrote (records : List WalRecord) (id : Nat) : Prop :=
  ∃ r ∈ records, r.txnId = id ∧ r.recordType.isRow

/-- `id` has a Commit record. -/
def LoggedCommit (records : List WalRecord) (id : Nat) : Prop :=
  ∃ r ∈ records, r.txnId = id ∧ r.recordType = .commit

instance (records : List WalRecord) (id : Nat) : Decidable (Wrote records id) :=
  inferInstanceAs (Decidable (∃ r ∈ records, _))

instance (records : List WalRecord) (id : Nat) : Decidable (LoggedCommit records id) :=
  inferInstanceAs (Decidable (∃ r ∈ records, _))

variable {records : List WalRecord} {r : WalRecord} {x id : Nat}

theorem wrote_snoc : Wrote (records ++ [r]) x ↔
    Wrote records x ∨ (r.txnId = x ∧ r.recordType.isRow) := by
  simp [Wrote, or_and_right, exists_or]

theorem loggedCommit_snoc : LoggedCommit (records ++ [r]) x ↔
    LoggedCommit records x ∨ (r.txnId = x ∧ r.recordType = .commit) := by
  simp [LoggedCommit, or_and_right, exists_or]

theorem mem_committed_record (a : Analysis) (r : WalRecord) :
    x ∈ (a.record r).committed ↔ x ∈ a.committed ∨ (r.txnId = x ∧ r.recordType = .commit) := by
  unfold Analysis.record Analysis.classify
  cases hrt : r.recordType <;> simp
  exact ⟨Or.symm ∘ Or.imp_left Eq.symm, Or.symm ∘ Or.imp_right Eq.symm⟩

theorem mem_committed_foldl (records : List WalRecord) (a : Analysis) :
    x ∈ (records.foldl Analysis.record a).committed ↔
      x ∈ a.committed ∨ LoggedCommit records x := by
  induction records generalizing a with
  | nil => simp [LoggedCommit]
  | cons r rest ih =>
    rw [List.foldl_cons, ih, mem_committed_record]
    simp [LoggedCommit, or_assoc]

/-- **Analyze** puts a transaction into `committed` exactly when it has a
Commit record. -/
theorem mem_committed_analyze (records : List WalRecord) :
    x ∈ (analyze records).committed ↔ LoggedCommit records x := by
  rw [analyze, mem_committed_foldl]
  simp [Analysis.empty]

/-! ## The invariant -/

/-- The log and the manager agree on the finished transactions from `base` on. -/
structure LogInv (base : Nat) (records : List WalRecord) (tm : TransactionManager) : Prop where
  wf : tm.WF
  base_le : base ≤ tm.nextTxnId
  rec_lt : ∀ r ∈ records, r.txnId < tm.nextTxnId
  committed_logged : ∀ x, base ≤ x → tm.clog x = .committed → Wrote records x →
    LoggedCommit records x
  aborted_clean : ∀ x, base ≤ x → tm.clog x = .aborted → Wrote records x → ¬ LoggedCommit records x

namespace LogInv

variable {base : Nat} {tm : TransactionManager}

/-- A record of a transaction that is still open. -/
theorem log (h : LogInv base records tm) {rec : WalRecord} (hrec : rec.txnId ∈ tm.activeIds) :
    LogInv base (records ++ [rec]) tm := by
  have hund := h.wf.active_undecided _ hrec
  have hother : ∀ x, tm.clog x ≠ .inProgress → rec.txnId ≠ x := by
    rintro x hx rfl
    exact hx hund
  refine ⟨h.wf, h.base_le, ?_, ?_, ?_⟩
  · intro r hr
    rcases List.mem_append.1 hr with hr | hr
    · exact h.rec_lt r hr
    · rw [List.mem_singleton.1 hr]
      exact h.wf.active_lt _ hrec
  · intro x hx hc hw
    have hne := hother x (by rw [hc]; decide)
    rw [wrote_snoc] at hw
    rw [loggedCommit_snoc]
    exact Or.inl (h.committed_logged x hx hc (hw.resolve_right fun hr => hne hr.1))
  · intro x hx ha hw
    have hne := hother x (by rw [ha]; decide)
    rw [wrote_snoc] at hw
    rw [loggedCommit_snoc, not_or]
    exact ⟨h.aborted_clean x hx ha (hw.resolve_right fun hr => hne hr.1), fun hr => hne hr.1⟩

theorem begin (h : LogInv base records tm) : LogInv base records tm.begin.2 :=
  ⟨(TransactionManager.Step.begin tm).wf h.wf, Nat.le_succ_of_le h.base_le,
    fun r hr => Nat.lt_succ_of_lt (h.rec_lt r hr), h.committed_logged, h.aborted_clean⟩

/-- `commit` of an open transaction needs its Commit record, if it wrote a row. -/
theorem commit (h : LogInv base records tm) (hid : id ∈ tm.activeIds ∨ tm.clog id ≠ .inProgress)
    (hlog : id ∈ tm.activeIds → Wrote records id → LoggedCommit records id) :
    LogInv base records (tm.commit id) := by
  have hclog : ∀ x, (tm.commit id).clog x =
      if x = id ∧ tm.clog id = .inProgress then .committed else tm.clog x := fun x =>
    TransactionManager.clog_decideClog
  refine ⟨(TransactionManager.Step.commit tm id hid).wf h.wf,
    le_trans h.base_le (TransactionManager.Step.commit tm id hid).next_le,
    fun r hr => lt_of_lt_of_le (h.rec_lt r hr) (TransactionManager.Step.commit tm id hid).next_le,
    ?_, ?_⟩
  · intro x hx hc hw
    rw [hclog] at hc
    split at hc
    · next hcase =>
      obtain ⟨rfl, hund⟩ := hcase
      exact hlog (hid.resolve_right fun hne => hne hund) hw
    · exact h.committed_logged x hx hc hw
  · intro x hx ha hw
    rw [hclog] at ha
    split at ha
    · cases ha
    · exact h.aborted_clean x hx ha hw

/-- `abort` of an open transaction needs that it has no Commit record, if it
wrote a row. -/
theorem abort (h : LogInv base records tm) (hid : id ∈ tm.activeIds ∨ tm.clog id ≠ .inProgress)
    (hlog : id ∈ tm.activeIds → Wrote records id → ¬ LoggedCommit records id) :
    LogInv base records (tm.abort id) := by
  have hclog : ∀ x, (tm.abort id).clog x =
      if x = id ∧ tm.clog id = .inProgress then .aborted else tm.clog x := fun x =>
    TransactionManager.clog_decideClog
  refine ⟨(TransactionManager.Step.abort tm id hid).wf h.wf,
    le_trans h.base_le (TransactionManager.Step.abort tm id hid).next_le,
    fun r hr => lt_of_lt_of_le (h.rec_lt r hr) (TransactionManager.Step.abort tm id hid).next_le,
    ?_, ?_⟩
  · intro x hx hc hw
    rw [hclog] at hc
    split at hc
    · cases hc
    · exact h.committed_logged x hx hc hw
  · intro x hx ha hw
    rw [hclog] at ha
    split at ha
    · next hcase =>
      obtain ⟨rfl, hund⟩ := hcase
      exact hlog (hid.resolve_right fun hne => hne hund) hw
    · exact h.aborted_clean x hx ha hw

end LogInv

/-! ## What a statement adds to the log -/

/-- The two managers differ in the LSNs of their tables only. -/
structure SameOutcomes (tm tm' : TransactionManager) : Prop where
  next_eq : tm'.nextTxnId = tm.nextTxnId
  clog_eq : tm'.clog = tm.clog
  active_eq : tm'.activeIds = tm.activeIds

theorem SameOutcomes.refl (tm : TransactionManager) : SameOutcomes tm tm := ⟨rfl, rfl, rfl⟩

theorem SameOutcomes.trans {tm₁ tm₂ tm₃ : TransactionManager} (h : SameOutcomes tm₁ tm₂)
    (h' : SameOutcomes tm₂ tm₃) : SameOutcomes tm₁ tm₃ :=
  ⟨h'.next_eq.trans h.next_eq, h'.clog_eq.trans h.clog_eq, h'.active_eq.trans h.active_eq⟩

theorem sameOutcomes_updateLastLsn (tm : TransactionManager) (id lsn : Nat) :
    SameOutcomes tm (tm.updateLastLsn id lsn) :=
  ⟨rfl, rfl, TransactionManager.activeIds_updateLastLsn⟩

theorem SameOutcomes.wf {tm tm' : TransactionManager} (h : SameOutcomes tm tm') (hwf : tm.WF) :
    tm'.WF := by
  obtain ⟨h1, h2, h3⟩ := h
  refine ⟨?_, ?_, ?_, ?_, ?_, ?_⟩
  · rw [h1, h3]
    exact hwf.active_lt
  · rw [h2, h3]
    exact hwf.active_undecided
  · rw [h1, h2]
    exact hwf.future
  · rw [h3]
    exact hwf.zero_inactive
  · rw [h2]
    exact hwf.zero_undecided
  · rw [h1]
    exact hwf.next_pos

/-- From `s` to `s'` the transaction has logged records of kind `K`, and
nothing has been decided. -/
structure Appends (K : WalRecordType → Prop) (s s' : Ctx) : Prop where
  id_eq : s'.tx.id = s.tx.id
  active_eq : s'.tx.active = s.tx.active
  outcomes : SameOutcomes s.tm s'.tm
  records : ∃ recs, s'.wal.records = s.wal.records ++ recs ∧
    ∀ r ∈ recs, r.txnId = s.tx.id ∧ K r.recordType

namespace Appends

variable {K L : WalRecordType → Prop} {s s₁ s₂ : Ctx}

theorem refl (s : Ctx) : Appends K s s := ⟨rfl, rfl, .refl _, [], by simp, by simp⟩

theorem trans (h : Appends K s s₁) (h' : Appends K s₁ s₂) : Appends K s s₂ := by
  obtain ⟨recs, hrecs, hK⟩ := h.records
  obtain ⟨recs', hrecs', hK'⟩ := h'.records
  refine ⟨h'.id_eq.trans h.id_eq, h'.active_eq.trans h.active_eq, h.outcomes.trans h'.outcomes,
    recs ++ recs', by rw [hrecs', hrecs, List.append_assoc], fun r hr => ?_⟩
  rcases List.mem_append.1 hr with hr | hr
  · exact hK r hr
  · exact h.id_eq ▸ hK' r hr

theorem mono (h : Appends K s s₁) (hKL : ∀ rt, K rt → L rt) : Appends L s s₁ := by
  obtain ⟨recs, hrecs, hK⟩ := h.records
  exact ⟨h.id_eq, h.active_eq, h.outcomes, recs, hrecs, fun r hr => ⟨(hK r hr).1, hKL _ (hK r hr).2⟩⟩

/-- `log_record`. -/
theorem logged (s : Ctx) {rt : WalRecordType} (hrt : K rt) : Appends K s (s.logged rt) :=
  ⟨rfl, rfl, sameOutcomes_updateLastLsn _ _ _, _, rfl, by
    intro r hr
    rw [List.mem_singleton.1 hr]
    exact ⟨rfl, hrt⟩⟩

/-- A change of pages, memo, locks or snapshot. -/
theorem quiet (hwal : s₁.wal.records = s.wal.records) (htm : s₁.tm = s.tm)
    (hid : s₁.tx.id = s.tx.id) (hact : s₁.tx.active = s.tx.active) : Appends K s s₁ :=
  ⟨hid, hact, htm ▸ .refl _, [], by simp [hwal], by simp⟩

theorem writeHeap (s : Ctx) (p : Nat) (page : Page) : Appends K s (s.writeHeap p page) :=
  .quiet rfl rfl rfl rfl

theorem mem_activeIds (h : Appends K s s₁) (hx : s.tx.id ∈ s.tm.activeIds) :
    s₁.tx.id ∈ s₁.tm.activeIds := by
  rw [h.id_eq, h.outcomes.active_eq]
  exact hx

/-- The invariant survives the records of an open transaction. -/
theorem logInv {base : Nat} (h : Appends K s s₁) (hopen : s.tx.id ∈ s.tm.activeIds)
    (hinv : LogInv base s.wal.records s.tm) : LogInv base s₁.wal.records s₁.tm := by
  obtain ⟨recs, hrecs, hK⟩ := h.records
  have hall : LogInv base (s.wal.records ++ recs) s.tm := by
    clear hrecs
    induction recs using List.reverseRecOn with
    | nil => simpa using hinv
    | append_singleton recs r ih =>
      rw [← List.append_assoc]
      refine (ih fun q hq => hK q (List.mem_append_left _ hq)).log ?_
      rw [(hK r (by simp)).1]
      exact hopen
  rw [hrecs]
  refine ⟨h.outcomes.wf hall.wf, ?_, ?_, ?_, ?_⟩
  · rw [h.outcomes.next_eq]
    exact hall.base_le
  · rw [h.outcomes.next_eq]
    exact hall.rec_lt
  · rw [h.outcomes.clog_eq]
    exact hall.committed_logged
  · rw [h.outcomes.clog_eq]
    exact hall.aborted_clean

/-- Without a Commit record among the new ones there is no new Commit. -/
theorem not_loggedCommit (h : Appends K s s₁) (hK : ¬ K .commit) {x : Nat}
    (hx : ¬ LoggedCommit s.wal.records x) : ¬ LoggedCommit s₁.wal.records x := by
  obtain ⟨recs, hrecs, hall⟩ := h.records
  rintro ⟨r, hr, hid, hrt⟩
  rw [hrecs] at hr
  rcases List.mem_append.1 hr with hr | hr
  · exact hx ⟨r, hr, hid, hrt⟩
  · exact hK (hrt ▸ (hall r hr).2)

/-- Without a row among the new records there is no new row. -/
theorem not_wrote (h : Appends K s s₁) (hK : ∀ rt, K rt → rt.isRow = false) {x : Nat}
    (hx : ¬ Wrote s.wal.records x) : ¬ Wrote s₁.wal.records x := by
  obtain ⟨recs, hrecs, hall⟩ := h.records
  rintro ⟨r, hr, hid, hrow⟩
  rw [hrecs] at hr
  rcases List.mem_append.1 hr with hr | hr
  · exact hx ⟨r, hr, hid, hrow⟩
  · rw [hK _ (hall r hr).2] at hrow
    exact absurd hrow (by decide)

end Appends

/-- The records of DML. -/
def WalRecordType.isDml : WalRecordType → Bool
  | .insert .. | .delete .. | .indexInsert .. => true
  | _ => false

theorem Write.appends {strict : Prop} {tables : List TableDef} {s s' : Ctx}
    (h : Write strict tables s s') :
    Appends (fun rt => rt.isDml) s s' := by
  cases h with
  | append htab htail hins =>
    refine (Appends.logged s ?_).trans (.writeHeap _ _ _)
    rfl
  | @grow s₁ s₂ table n last p slot values page pool htab htail hnew hs₁ hins hs₂ =>
    have h₁ : Appends (fun rt => rt.isDml) s s₁ := hs₁ ▸ .quiet rfl rfl rfl rfl
    have h₂ : Appends (fun rt => rt.isDml) s₁ s₂ := by
      rw [hs₂]
      refine (Appends.logged s₁ ?_).trans (.writeHeap _ _ _)
      rfl
    exact (h₁.trans h₂).trans (.writeHeap _ _ _)
  | delete hlt hfree hset =>
    refine (Appends.logged s ?_).trans (.writeHeap _ _ _)
    rfl
  | note indexId key rid => exact Appends.logged s rfl
  | alloc hnew | forward hlt hset | index root key rid ty | root indexId hroot | memo list
  | lock locks held | snap => exact .quiet rfl rfl rfl rfl

theorem appends_of_writes {strict : Prop} {tables : List TableDef} {s s' : Ctx}
    (h : ReflTransGen (Write strict tables) s s') : Appends (fun rt => rt.isDml) s s' :=
  h.invariant (fun _ _ hstep hi => hi.trans hstep.appends) (.refl s)

/-- A DML statement logs rows and index entries, whether it succeeds or not. -/
theorem appends_dml {stmt : Statement} (hdml : stmt.isDml) (s : Ctx) :
    Appends (fun rt => rt.isDml) s (runStatement stmt s).final := by
  have hruns : Runs s.catalog.tables s.tx.id s := ⟨rfl, rfl⟩
  suffices hwrites : ReflTransGen (Write False s.catalog.tables) s (runStatement stmt s).final from
    appends_of_writes hwrites
  cases stmt with
  | insert stmt => exact ((guar_performInsert stmt).bind fun _ => Guar.ret).steps hruns
  | update stmt => exact ((guar_performUpdate stmt).bind fun _ => Guar.ret).steps hruns
  | delete depth stmt =>
    exact ((lasting_runs.guar_performDelete guar_freshSnapshot (fun _ h => h) (fun _ h => h) depth
      stmt).bind fun _ => Guar.ret).steps hruns
  | _ => exact absurd hdml Bool.false_ne_true

/-! ## VACUUM -/

/-- Pages and the memo of the catalog change, nothing else. -/
def PagesOnly (s s' : Ctx) : Prop := s'.wal = s.wal ∧ s'.tm = s.tm ∧ s'.tx = s.tx

/-- A computation that logs nothing. -/
def Silent {α : Type} (x : ExecM α) : Prop :=
  Guar PagesOnly (fun _ => True) x fun _ _ => True

namespace Silent

variable {α β : Type}

theorem bind {x : ExecM α} {f : α → ExecM β} (hx : Silent x) (hf : ∀ a, Silent (f a)) :
    Silent (x >>= f) :=
  Guar.bind hx hf

theorem of_readOnly {x : ExecM α} (hx : ReadOnly x) : Silent x :=
  hx.guar.post fun _ _ _ => trivial

theorem pure (a : α) : Silent (Pure.pure a) := Guar.pure fun _ h => h

theorem throw (e : DbError) : Silent (throw e : ExecM α) := Guar.throw

theorem onPool (x : PoolM α) : Silent (onPool x) :=
  Guar.ofStep (fun s _ => Or.inr (by rw [final_onPool]; exact ⟨rfl, rfl, rfl⟩)) fun _ _ _ _ _ => trivial

theorem writeHeap (p : Nat) (page : Page) : Silent (writeHeap p page) :=
  Guar.ofStep (fun _ _ => Or.inr ⟨rfl, rfl, rfl⟩) fun _ _ _ _ _ => trivial

theorem forM {f : β → ExecM PUnit} {l : List β} (hf : ∀ b ∈ l, Silent (f b)) : Silent (l.forM f) :=
  Guar.forM hf

theorem indexesForTable (tableId : Nat) : Silent (indexesForTable tableId) := by
  refine (of_readOnly readOnly_getCtx).bind fun s₀ => ?_
  split
  · exact pure _
  · refine (onPool _).bind fun all => Silent.bind (Guar.ofStep (fun _ _ => Or.inr ?_) ?_) fun _ => pure _
    · exact ⟨rfl, rfl, rfl⟩
    · exact fun _ _ _ _ _ => trivial

theorem appends {K : WalRecordType → Prop} {x : ExecM α} (hx : Silent x) (s : Ctx) :
    Appends K s (x s).final :=
  (hx.steps trivial).invariant
    (fun _ _ hstep hi => hi.trans (.quiet (by rw [hstep.1]) hstep.2.1 (by rw [hstep.2.2])
      (by rw [hstep.2.2]))) (.refl s)

end Silent

theorem silent_performSelect (stmt : SelectStmt) : Silent (performSelect stmt) := by
  refine (Silent.of_readOnly readOnly_getCtx).bind fun s => ?_
  split
  · exact .throw _
  · refine (Silent.of_readOnly (.mapM readOnly_tableById _)).bind fun defs => ?_
    split
    · refine Silent.bind ?_ fun _ => .of_readOnly (readOnly_liftX _)
      refine (Silent.of_readOnly readOnly_getCtx).bind fun _ => Silent.bind ?_ fun o => ?_
      · unfold findIndexablePredicate
        split
        · exact .pure _
        · exact (Silent.indexesForTable _).bind fun _ => .pure _
      · split
        · exact .onPool _
        · exact (Silent.onPool _).bind fun _ => .of_readOnly (readOnly_liftX _)
    · exact (Silent.onPool _).bind fun _ => .of_readOnly (readOnly_liftX _)

/-- SELECT logs nothing. -/
theorem appends_select {K : WalRecordType → Prop} (stmt : SelectStmt) (s : Ctx) :
    Appends K s (runStatement (.select stmt) s).final :=
  ((silent_performSelect stmt).bind fun _ => .pure _).appends s

theorem silent_vacuumLoop (env : VacuumEnv) (indexes : List (IndexDef × DataType)) :
    ∀ fuel prev cur, Silent (vacuumLoop env indexes fuel prev cur)
  | 0, _, _ => .throw _
  | fuel + 1, prev, cur => by
    unfold vacuumLoop
    refine (Silent.of_readOnly readOnly_getCtx).bind fun s => ?_
    split
    · exact .pure _
    · refine (Silent.onPool _).bind fun page => ?_
      dsimp only
      split
      · exact silent_vacuumLoop env indexes fuel _ _
      · have hpage : Silent (vacuumPage env cur page) :=
          (Silent.of_readOnly (readOnly_liftX _)).bind fun _ =>
            (Silent.of_readOnly (readOnly_liftX _)).bind fun _ => (Silent.writeHeap _ _).bind fun _ =>
              (Silent.of_readOnly (readOnly_liftX _)).bind fun _ =>
                (Silent.writeHeap _ _).bind fun _ => .pure _
        refine hpage.bind fun r => ?_
        refine (Silent.forM fun i _ => Silent.forM fun d _ => Silent.onPool _).bind fun _ => ?_
        split
        · exact ((Silent.onPool _).bind fun _ => (Silent.writeHeap _ _).bind fun _ =>
            Silent.onPool _).bind fun _ => silent_vacuumLoop env indexes fuel _ _
        · exact silent_vacuumLoop env indexes fuel _ _

theorem silent_vacuumOne (oldestXmin stampLsn tableId : Nat) :
    Silent (vacuumOne oldestXmin stampLsn tableId) :=
  (Silent.of_readOnly (readOnly_tableById _)).bind fun _ => (Silent.indexesForTable _).bind fun _ =>
    (Silent.of_readOnly readOnly_getCtx).bind fun _ =>
      (Silent.of_readOnly (readOnly_liftX _)).bind fun _ => (Silent.onPool _).bind fun _ =>
        silent_vacuumLoop _ _ _ _ _

theorem silent_sweepOne (stampLsn tableId : Nat) : Silent (sweepOne stampLsn tableId) :=
  (Silent.indexesForTable _).bind fun _ => .forM fun _ _ => .onPool _

/-- Between its brackets VACUUM logs nothing. A VACUUM that fails has not
written its Commit record. -/
theorem performVacuum_cases (tables : List Nat) (s : Ctx) :
    (∃ s₁, Appends (· = .begin) s s₁ ∧
      performVacuum tables s = .ok () { s₁.logged .commit with wal := (s₁.logged .commit).wal.flush }) ∨
    ∃ e s₁, performVacuum tables s = .error e s₁ ∧ Appends (· = .begin) s s₁ := by
  have hbody : ∀ oldest stamp, Silent (do
      tables.forM (vacuumOne oldest stamp)
      tables.forM (sweepOne stamp)) := fun oldest stamp =>
    (Silent.forM fun _ _ => silent_vacuumOne _ _ _).bind fun _ =>
      Silent.forM fun _ _ => silent_sweepOne _ _
  set s₀ := s.logged .begin with hs₀
  have hbegin : Appends (· = .begin) s s₀ := .logged s rfl
  set body : ExecM PUnit := do
    tables.forM (vacuumOne s.tm.oldestActiveXmin s.wal.nextLsn)
    tables.forM (sweepOne s.wal.nextLsn) with hbodydef
  have hsilent : Appends (· = .begin) s₀ (body s₀).final := (hbody _ _).appends s₀
  have hrun : performVacuum tables s = (body >>= fun _ => do
      let _ ← logRecord .commit
      flushWal) s₀ := by
    rw [hbodydef, bind_assoc]
    rfl
  rw [hrun]
  cases hres : body s₀ with
  | ok a s₁ =>
    rw [hres] at hsilent
    refine Or.inl ⟨s₁, hbegin.trans hsilent, ?_⟩
    rw [EStateM.bind_of_ok hres]
    rfl
  | error e s₁ =>
    rw [hres] at hsilent
    exact Or.inr ⟨e, s₁, EStateM.bind_of_error hres, hbegin.trans hsilent⟩

end Ccdb
