import Ccdb.Recovery.Ledger

/-!
# Ccdb — recovery decides as the live system did

Every statement of every session keeps the log and the commit log in
agreement, with one exception: VACUUM logs its own Begin and Commit under the
id of the transaction it runs in, so a transaction that is rolled back after
a VACUUM has a Commit record.

Main results:

* `run_decision_agrees` — in a run where no transaction with both a row and a
  Commit record is rolled back, recovery decides as the manager did.
-/

namespace Ccdb

/-! ## Sessions -/

/-- The transaction a session has, if its thread is still there. -/
def Session.Has (session : Session) (tx : Transaction) : Prop :=
  session = .live tx ∨ session = .unwinding tx

/-- A session has an open transaction, or one that is decided. Outside an
explicit transaction an open one has logged nothing yet, unless the thread
panicked half-way, and then it has no Commit record. -/
structure TxOk (tm : TransactionManager) (tx : Transaction) : Prop where
  known : tx.id ∈ tm.activeIds ∨ tm.clog tx.id ≠ .inProgress
  explicit : tx.active → tx.id ∈ tm.activeIds

def SessionOk (records : List WalRecord) (tm : TransactionManager) : Session → Prop
  | .live tx => TxOk tm tx ∧
      (tx.active = false → tx.id ∈ tm.activeIds → ∀ r ∈ records, r.txnId ≠ tx.id)
  | .unwinding tx => TxOk tm tx ∧
      (tx.active = false → tx.id ∈ tm.activeIds → ¬ LoggedCommit records tx.id)
  | .gone => True

/-- From `s` to `s'` only `id` and transactions begun in between were touched. -/
structure Local (id : Nat) (s s' : Ctx) : Prop where
  next_le : s.tm.nextTxnId ≤ s'.tm.nextTxnId
  active : ∀ x, x ≠ id → x < s.tm.nextTxnId → (x ∈ s'.tm.activeIds ↔ x ∈ s.tm.activeIds)
  clog : ∀ x, x ≠ id → x < s.tm.nextTxnId → s'.tm.clog x = s.tm.clog x
  records : ∀ r ∈ s'.wal.records, r ∈ s.wal.records ∨ r.txnId = id ∨ s.tm.nextTxnId ≤ r.txnId

namespace Local

variable {s s₁ s₂ : Ctx} {a b : Nat} {tx : Transaction} {K : WalRecordType → Prop}

theorem refl (s : Ctx) : Local a s s :=
  ⟨le_refl _, fun _ _ _ => Iff.rfl, fun _ _ _ => rfl, fun _ h => Or.inl h⟩

theorem trans (h : Local a s s₁) (h' : Local b s₁ s₂) (hb : b = a ∨ s.tm.nextTxnId ≤ b) :
    Local a s s₂ := by
  have hne : ∀ x, x ≠ a → x < s.tm.nextTxnId → x ≠ b := by
    rintro x hx hlt rfl
    rcases hb with rfl | hb
    · exact hx rfl
    · omega
  refine ⟨h.next_le.trans h'.next_le, fun x hx hlt => ?_, fun x hx hlt => ?_, fun r hr => ?_⟩
  · rw [h'.active x (hne x hx hlt) (lt_of_lt_of_le hlt h.next_le), h.active x hx hlt]
  · rw [h'.clog x (hne x hx hlt) (lt_of_lt_of_le hlt h.next_le), h.clog x hx hlt]
  · have := h.next_le
    rcases h'.records r hr with hr | rfl | hr
    · exact h.records r hr
    · rcases hb with hb | hb
      · exact Or.inr (Or.inl hb)
      · exact Or.inr (Or.inr hb)
    · exact Or.inr (Or.inr (by omega))

/-- Another session's transaction is as it was. -/
theorem txOk (h : Local a s s₁) (hne : tx.id ≠ a) (hlt : tx.id < s.tm.nextTxnId)
    (htx : TxOk s.tm tx) : TxOk s₁.tm tx := by
  constructor
  · rw [h.active _ hne hlt, h.clog _ hne hlt]
    exact htx.known
  · rw [h.active _ hne hlt]
    exact htx.explicit

theorem sessionOk (h : Local a s s₁) {session : Session}
    (hother : ∀ tx, session.Has tx → tx.id ≠ a ∧ tx.id < s.tm.nextTxnId)
    (hs : SessionOk s.wal.records s.tm session) : SessionOk s₁.wal.records s₁.tm session := by
  -- a record of the other transaction was there before
  have hold : ∀ tx, session.Has tx → ∀ r ∈ s₁.wal.records, r.txnId = tx.id → r ∈ s.wal.records := by
    intro tx htx r hr hid
    obtain ⟨hne, hlt⟩ := hother tx htx
    rcases h.records r hr with hr | hr | hr
    · exact hr
    · exact absurd (hid.symm.trans hr) hne
    · omega
  cases session with
  | gone => exact trivial
  | live tx =>
    obtain ⟨hne, hlt⟩ := hother tx (Or.inl rfl)
    refine ⟨h.txOk hne hlt hs.1, fun hact hopen r hr hid => ?_⟩
    rw [h.active _ hne hlt] at hopen
    exact hs.2 hact hopen r (hold tx (Or.inl rfl) r hr hid) hid
  | unwinding tx =>
    obtain ⟨hne, hlt⟩ := hother tx (Or.inr rfl)
    refine ⟨h.txOk hne hlt hs.1, fun hact hopen => ?_⟩
    rw [h.active _ hne hlt] at hopen
    rintro ⟨r, hr, hid, hrt⟩
    exact hs.2 hact hopen ⟨r, hold tx (Or.inr rfl) r hr hid, hid, hrt⟩

theorem of_appends (h : Appends K s s₁) : Local s.tx.id s s₁ := by
  obtain ⟨recs, hrecs, hK⟩ := h.records
  refine ⟨h.outcomes.next_eq.ge, fun x _ _ => by rw [h.outcomes.active_eq], fun x _ _ => by
    rw [h.outcomes.clog_eq], fun r hr => ?_⟩
  rw [hrecs] at hr
  rcases List.mem_append.1 hr with hr | hr
  · exact Or.inl hr
  · exact Or.inr (Or.inl (hK r hr).1)

/-- Deciding one id. -/
theorem of_decide (st : TxnStatus) (hwal : s₁.wal.records = s.wal.records)
    (htm : s₁.tm = (s.tm.removeAtt a).decideClog a st) : Local a s s₁ := by
  refine ⟨?_, fun x hx _ => ?_, fun x hx _ => ?_, fun r hr => Or.inl (hwal ▸ hr)⟩
  · rw [htm, TransactionManager.nextTxnId_decideClog]
    exact le_refl _
  · rw [htm, TransactionManager.activeIds_decideClog, TransactionManager.mem_activeIds_removeAtt]
    simp [hx]
  · rw [htm, TransactionManager.clog_decideClog, if_neg fun h => hx h.1]
    rfl

/-- A new transaction. -/
theorem of_begin (hwf : s.tm.WF) (hwal : s₁.wal.records = s.wal.records)
    (htm : s₁.tm = s.tm.begin.2) : Local a s s₁ := by
  refine ⟨?_, fun x _ hlt => ?_, fun x _ _ => ?_, fun r hr => Or.inl (hwal ▸ hr)⟩
  · rw [htm]
    exact Nat.le_succ _
  · rw [htm, TransactionManager.mem_activeIds_begin hwf]
    constructor
    · rintro (rfl | h)
      · exact absurd hlt (lt_irrefl _)
      · exact h
    · exact Or.inr
  · rw [htm]
    rfl

end Local

/-! ## Inside an explicit transaction -/

variable {base : Nat} {s s₁ s' : Ctx}

/-- What a call of a session has to leave behind. -/
structure Advances (base : Nat) (s s' : Ctx) (session : Session) : Prop where
  inv : LogInv base s'.wal.records s'.tm
  loc : Local s.tx.id s s'
  ok : SessionOk s'.wal.records s'.tm session
  id_eq : ∀ tx, session.Has tx → tx.id = s.tx.id ∨ s.tm.nextTxnId ≤ tx.id

theorem has_after {α : Type} {r : EStateM.Result DbError Ctx α}
    (h : (Session.after r).Has tx) : tx = r.final.tx := by
  cases r with
  | ok a s' =>
    rcases h with h | h <;> cases h
    rfl
  | error e s' =>
    cases e with
    | diverge => rcases h with h | h <;> cases h
    | _ =>
      rcases h with h | h <;> cases h
      rfl

theorem sessionOk_after {α : Type} {records : List WalRecord} {tm : TransactionManager}
    (r : EStateM.Result DbError Ctx α) (hlive : SessionOk records tm (.live r.final.tx))
    (hpanic : SessionOk records tm (.unwinding r.final.tx)) : SessionOk records tm (.after r) := by
  cases r with
  | ok a s' => exact hlive
  | error e s' =>
    cases e with
    | panic msg => exact hpanic
    | diverge => exact trivial
    | bail msg => exact hlive
    | io what => exact hlive

/-- A transaction that is decided needs nothing more. -/
theorem sessionOk_decided {records : List WalRecord} {tm : TransactionManager}
    (hact : tx.active = false) (hdone : tm.clog tx.id ≠ .inProgress) (hout : tx.id ∉ tm.activeIds) :
    SessionOk records tm (.live tx) :=
  ⟨⟨Or.inr hdone, fun h => absurd (hact.symm.trans h) Bool.false_ne_true⟩, fun _ h => absurd h hout⟩

/-- A call inside an open explicit transaction that only logs, however it ends. -/
theorem advances_explicit {α : Type}
    (hinv : LogInv base s.wal.records s.tm) (hact : s.tx.active) (hopen : s.tx.id ∈ s.tm.activeIds)
    (r : EStateM.Result DbError Ctx α) (h : Appends K s r.final) :
    Advances base s r.final (.after r) := by
  have htx : TxOk r.final.tm r.final.tx :=
    ⟨Or.inl (h.mem_activeIds hopen), fun _ => h.mem_activeIds hopen⟩
  have hact' : r.final.tx.active ≠ false := by
    rw [h.active_eq, hact]
    decide
  refine ⟨h.logInv hopen hinv, .of_appends h, ?_, ?_⟩
  · exact sessionOk_after r ⟨htx, fun hf => absurd hf hact'⟩ ⟨htx, fun hf => absurd hf hact'⟩
  · intro tx htx
    rw [has_after htx]
    exact Or.inl h.id_eq

/-- `execute` in an explicit transaction adds nothing of its own. -/
theorem execute_active (hact : s.tx.active) (stmt : Statement) :
    execute stmt s = runStatement stmt s := by
  have hrun : execute stmt s = (attempt (runStatement stmt) >>= liftX) s := by
    unfold execute
    rw [EStateM.bind_of_ok (show getCtx s = .ok s s from rfl), hact]
    rfl
  rw [hrun]
  cases hres : runStatement stmt s with
  | ok a s' =>
    rw [EStateM.bind_of_ok (show attempt (runStatement stmt) s = .ok (.ok a) s' by
      simp [attempt, hres])]
    rfl
  | error e s' =>
    cases e with
    | panic msg => exact EStateM.bind_of_error (by simp [attempt, hres])
    | diverge => exact EStateM.bind_of_error (by simp [attempt, hres])
    | bail msg =>
      rw [EStateM.bind_of_ok (show attempt (runStatement stmt) s = .ok (.error (.bail msg)) s' by
        simp [attempt, hres])]
      rfl
    | io what =>
      rw [EStateM.bind_of_ok (show attempt (runStatement stmt) s = .ok (.error (.io what)) s' by
        simp [attempt, hres])]
      rfl

/-- BEGIN inside a transaction. -/
theorem begin_refused (hact : s.tx.active) : runStatement .begin s =
    .error (.bail "there is already a transaction in progress") s := by
  show runBegin s = _
  unfold runBegin
  rw [EStateM.bind_of_ok (show getCtx s = .ok s s from rfl), if_pos hact]
  rfl

/-- The automatic rollback where there is nothing to roll back. -/
theorem abandon_inactive (hact : s.tx.active = false) : abandon s = unlockAll s := by
  unfold abandon
  rw [EStateM.bind_of_ok (show getCtx s = .ok s s from rfl), if_neg (by rw [hact]; decide)]

/-- COMMIT. -/
theorem commit_apply (hact : s.tx.active) : ∃ s', runStatement .commit s = .ok .commit s' ∧
    s'.wal.records = (s.logged .commit).wal.records ∧
    s'.tm = (s.logged .commit).tm.commit s.tx.id ∧ s'.tx.id = s.tx.id ∧ s'.tx.active = false := by
  have hrun : runStatement .commit s = (do
      let _ ← logRecord .commit
      flushWal
      unlockAll
      Transaction.commit
      return Output.commit : ExecM Output) s := by
    show runCommit s = _
    unfold runCommit
    rw [EStateM.bind_of_ok (show getCtx s = .ok s s from rfl), if_pos hact]
  exact ⟨_, hrun.trans rfl, rfl, rfl, rfl, rfl⟩

/-- ROLLBACK, and the automatic one. -/
theorem rollback_apply (s : Ctx) : ∃ s', (do
      rollback
      unlockAll : ExecM Unit) s = .ok () s' ∧
    s'.wal.records = (s.logged .abort).wal.records ∧
    s'.tm = (s.logged .abort).tm.abort s.tx.id ∧ s'.tx.id = s.tx.id ∧ s'.tx.active = false :=
  ⟨_, rfl, rfl, rfl, rfl, rfl⟩

theorem runRollback_active {s s' : Ctx} (hact : s.tx.active = true)
    (hrun : (do
      rollback
      unlockAll : ExecM Unit) s = .ok () s') : runRollback s = .ok .rollback s' := by
  unfold runRollback
  rw [EStateM.bind_of_ok (show getCtx s = .ok s s from rfl), if_pos hact]
  show ((do rollback; unlockAll : ExecM Unit) >>= fun _ => pure Output.rollback) s = _
  rw [EStateM.bind_of_ok hrun]
  rfl

theorem clog_decided {tm : TransactionManager} {id : Nat} {st : TxnStatus} (hst : st ≠ .inProgress) :
    ((tm.removeAtt id).decideClog id st).clog id ≠ .inProgress := by
  rw [TransactionManager.clog_decideClog]
  split
  · exact hst
  · next h => exact fun hund => h ⟨rfl, hund⟩

/-- A session whose transaction has just been decided. -/
theorem advances_decided {st : TxnStatus} (hst : st ≠ .inProgress)
    (h : Appends K s s₁) (hrec : s'.wal.records = s₁.wal.records)
    (htm : s'.tm = (s₁.tm.removeAtt s.tx.id).decideClog s.tx.id st) (hid : s'.tx.id = s.tx.id)
    (hact : s'.tx.active = false) (hinv : LogInv base s'.wal.records s'.tm) :
    Advances base s s' (.live s'.tx) := by
  refine ⟨hinv, (Local.of_appends h).trans (.of_decide st hrec htm) (Or.inl rfl), ?_, ?_⟩
  · refine sessionOk_decided hact ?_ ?_
    · rw [htm, hid]
      exact clog_decided hst
    · rw [htm, hid, TransactionManager.activeIds_decideClog,
        TransactionManager.mem_activeIds_removeAtt]
      exact fun h => h.2 rfl
  · rintro tx (h | h) <;> cases h
    exact Or.inl hid

/-- A rollback of an open transaction that does not have both a row and a
Commit record. -/
theorem advances_rollback (hinv : LogInv base s.wal.records s.tm) (hopen : s.tx.id ∈ s.tm.activeIds)
    (hclean : ¬ (Wrote s.wal.records s.tx.id ∧ LoggedCommit s.wal.records s.tx.id))
    (hrec : s'.wal.records = (s.logged .abort).wal.records)
    (htm : s'.tm = (s.logged .abort).tm.abort s.tx.id) (hid : s'.tx.id = s.tx.id)
    (hact : s'.tx.active = false) : Advances base s s' (.live s'.tx) := by
  have happ : Appends (· = .abort) s (s.logged .abort) := .logged s rfl
  refine advances_decided (show TxnStatus.aborted ≠ .inProgress by decide) happ hrec htm hid hact ?_
  rw [hrec, htm]
  refine (happ.logInv hopen hinv).abort (Or.inl (happ.mem_activeIds hopen)) fun _ hw hc => hclean ⟨?_, ?_⟩
  · by_contra hnot
    exact happ.not_wrote (by rintro _ rfl; rfl) hnot hw
  · by_contra hnot
    exact happ.not_loggedCommit (by decide) hnot hc

/-- One statement inside an explicit transaction. -/
theorem advances_active (hinv : LogInv base s.wal.records s.tm) (hact : s.tx.active)
    (hopen : s.tx.id ∈ s.tm.activeIds) (stmt : Statement)
    (hclean : stmt = .rollback → ¬ (Wrote s.wal.records s.tx.id ∧ LoggedCommit s.wal.records s.tx.id)) :
    Advances base s (execute stmt s).final (.after (execute stmt s)) := by
  rw [execute_active hact]
  by_cases hdml : stmt.isDml
  · exact advances_explicit hinv hact hopen _ (appends_dml hdml s)
  cases stmt with
  | insert | update | delete => exact absurd rfl hdml
  | select stmt =>
    exact advances_explicit (K := fun _ => False) hinv hact hopen _ (appends_select stmt s)
  | vacuum tables =>
    refine advances_explicit (K := fun rt => rt = .begin ∨ rt = .commit) hinv hact hopen _ ?_
    show Appends _ s ((performVacuum tables >>= fun _ => pure (Output.affected 0)) s).final
    rcases performVacuum_cases tables s with ⟨s₁, happ, hrun⟩ | ⟨e, s₁, hrun, happ⟩
    · rw [EStateM.bind_of_ok hrun]
      exact (happ.mono fun _ h => Or.inl h).trans
        (Appends.trans (.logged s₁ (Or.inr rfl)) (.quiet rfl rfl rfl rfl))
    · rw [EStateM.bind_of_error hrun]
      exact happ.mono fun _ h => Or.inl h
  | begin =>
    rw [begin_refused hact]
    exact advances_explicit (K := fun _ => False) hinv hact hopen (.error _ s) (.refl s)
  | commit =>
    obtain ⟨s', hrun, hrec, htm, hid, hact'⟩ := commit_apply hact
    rw [hrun]
    have happ : Appends (· = .commit) s (s.logged .commit) := .logged s rfl
    refine advances_decided (show TxnStatus.committed ≠ .inProgress by decide) happ hrec htm hid hact' ?_
    rw [EStateM.Result.final_ok, hrec, htm]
    exact (happ.logInv hopen hinv).commit (Or.inl (happ.mem_activeIds hopen)) fun _ _ =>
      ⟨_, List.mem_append_right _ (List.mem_singleton_self _), rfl, rfl⟩
  | rollback =>
    obtain ⟨s', hrun, hrec, htm, hid, hact'⟩ := rollback_apply s
    rw [show runStatement .rollback s = .ok .rollback s' from runRollback_active hact hrun]
    exact advances_rollback hinv hopen (hclean rfl) hrec htm hid hact'

/-! ## Auto-commit -/

/-- The transaction is new: open and without a record. -/
structure Fresh (base : Nat) (s : Ctx) : Prop where
  inv : LogInv base s.wal.records s.tm
  inactive : s.tx.active = false
  isOpen : s.tx.id ∈ s.tm.activeIds
  silent : ∀ r ∈ s.wal.records, r.txnId ≠ s.tx.id

theorem Fresh.not_wrote (h : Fresh base s) : ¬ Wrote s.wal.records s.tx.id :=
  fun ⟨r, hr, hid, _⟩ => h.silent r hr hid

theorem Fresh.not_loggedCommit (h : Fresh base s) : ¬ LoggedCommit s.wal.records s.tx.id :=
  fun ⟨r, hr, hid, _⟩ => h.silent r hr hid

/-- The state after `tm.commit` and `tm.begin`. -/
def Ctx.renewed (s : Ctx) (active : Bool) : Ctx :=
  let (id, tm) := (s.tm.commit s.tx.id).begin
  { s with tm := tm, tx := ⟨active, id, 0, some (tm.snapshot id), []⟩ }

/-- Closing an idle boundary and opening a new transaction. -/
theorem renewed_spec (hinv : LogInv base s.wal.records s.tm)
    (hknown : s.tx.id ∈ s.tm.activeIds ∨ s.tm.clog s.tx.id ≠ .inProgress)
    (hidle : s.tx.id ∈ s.tm.activeIds → ∀ r ∈ s.wal.records, r.txnId ≠ s.tx.id) (active : Bool) :
    LogInv base (s.renewed active).wal.records (s.renewed active).tm ∧
      (s.renewed active).tx.id ∈ (s.renewed active).tm.activeIds ∧
      (∀ r ∈ (s.renewed active).wal.records, r.txnId ≠ (s.renewed active).tx.id) ∧
      Local s.tx.id s (s.renewed active) ∧ s.tm.nextTxnId ≤ (s.renewed active).tx.id := by
  have hcommit : LogInv base s.wal.records (s.tm.commit s.tx.id) :=
    hinv.commit hknown fun hopen ⟨r, hr, hid, _⟩ => absurd hid (hidle hopen r hr)
  have hnext : s.tm.nextTxnId ≤ (s.tm.commit s.tx.id).nextTxnId :=
    (TransactionManager.Step.commit _ _ hknown).next_le
  refine ⟨hcommit.begin, ?_, ?_, ?_, hnext⟩
  · show (s.tm.commit s.tx.id).nextTxnId ∈ (s.tm.commit s.tx.id).begin.2.activeIds
    rw [TransactionManager.mem_activeIds_begin hcommit.wf]
    exact Or.inl rfl
  · intro r hr hid
    have hlt : r.txnId < (s.tm.commit s.tx.id).nextTxnId := hcommit.rec_lt r hr
    have hid : r.txnId = (s.tm.commit s.tx.id).nextTxnId := hid
    omega
  · have hdec : Local s.tx.id s { s with tm := s.tm.commit s.tx.id } :=
      .of_decide .committed rfl rfl
    have hbegin : Local s.tx.id { s with tm := s.tm.commit s.tx.id } (s.renewed active) :=
      .of_begin hcommit.wf rfl rfl
    exact hdec.trans hbegin (Or.inl rfl)

/-- The boundary that `execute` closes. -/
def finish (stmt : Statement) (result : Except DbError Output) : ExecM Output := do
  if stmt.isDml then closeBracket (resultOk result)
  closeAutocommit (resultOk result)
  liftX result

/-- The second half of `execute` outside an explicit transaction. -/
def autocommit (stmt : Statement) : ExecM Output := do
  if stmt.isDml then
    let _ ← logRecord .begin
  let result ← attempt (runStatement stmt)
  finish stmt result

theorem execute_inactive (hact : s.tx.active = false) (stmt : Statement) :
    execute stmt s = autocommit stmt (s.renewed false) := by
  have hrefresh : Transaction.refreshAutocommit s = .ok () (s.renewed false) := by
    unfold Transaction.refreshAutocommit
    rw [EStateM.bind_of_ok (show getCtx s = .ok s s from rfl), if_neg (by rw [hact]; decide)]
    rfl
  unfold execute autocommit
  rw [EStateM.bind_of_ok (show getCtx s = .ok s s from rfl), hact]
  rw [if_pos (show (!false) = true from rfl), EStateM.bind_of_ok hrefresh]
  rfl

/-- The state the statement itself starts in. -/
def Ctx.opened (s : Ctx) (stmt : Statement) : Ctx := if stmt.isDml then s.logged .begin else s

theorem autocommit_eq (stmt : Statement) (s : Ctx) :
    autocommit stmt s = (attempt (runStatement stmt) >>= finish stmt) (s.opened stmt) := by
  unfold autocommit Ctx.opened
  split
  · rfl
  · rfl

/-- The state after the bracket of the statement. -/
def Ctx.closed (s : Ctx) (stmt : Statement) (ok : Bool) : Ctx :=
  if stmt.isDml then s.logged (if ok then .commit else .abort) else s

/-- The manager after the boundary. -/
def TransactionManager.settle (tm : TransactionManager) (id : Nat) (ok : Bool) : TransactionManager :=
  if ok then tm.commit id else tm.abort id

/-- Where `finish` leaves a transaction that is not explicit. -/
theorem finish_inactive (hact : s.tx.active = false) (stmt : Statement)
    (result : Except DbError Output) : ∃ s',
      finish stmt result s = liftX result s' ∧
      s'.wal.records = (s.closed stmt (resultOk result)).wal.records ∧
      s'.tm = (s.closed stmt (resultOk result)).tm.settle s.tx.id (resultOk result) ∧
      s'.tx.id = s.tx.id ∧ s'.tx.active = false := by
  have hclose : ∀ s₁ : Ctx, s₁.tx.active = false → ∀ ok, ∃ s', closeAutocommit ok s₁ = .ok () s' ∧
      s'.wal = s₁.wal ∧ s'.tm = s₁.tm.settle s₁.tx.id ok ∧ s'.tx.id = s₁.tx.id ∧
      s'.tx.active = false := by
    intro s₁ hs₁ ok
    have hrun : closeAutocommit ok s₁ = (do
        unlockAll
        modify fun s => { s with tm := if ok then s.tm.commit s.tx.id else s.tm.abort s.tx.id }
          : ExecM Unit) s₁ := by
      unfold closeAutocommit
      rw [EStateM.bind_of_ok (show getCtx s₁ = .ok s₁ s₁ from rfl), if_neg (by rw [hs₁]; decide)]
    exact ⟨_, hrun.trans rfl, rfl, rfl, rfl, hs₁⟩
  unfold finish Ctx.closed
  split
  · next hdml =>
    set s₁ : Ctx := { s.logged (if resultOk result then .commit else .abort) with
      wal := (s.logged (if resultOk result then .commit else .abort)).wal.flush } with hs₁
    obtain ⟨s', hrun, hwal, htm, hid, hact'⟩ := hclose s₁ hact (resultOk result)
    refine ⟨s', ?_, by rw [hwal]; rfl, htm, hid, hact'⟩
    rw [EStateM.bind_of_ok (show closeBracket (resultOk result) s = .ok () s₁ from rfl)]
    exact EStateM.bind_of_ok hrun
  · obtain ⟨s', hrun, hwal, htm, hid, hact'⟩ := hclose s hact (resultOk result)
    exact ⟨s', EStateM.bind_of_ok hrun, by rw [hwal], htm, hid, hact'⟩

/-- An error the statement returns is not a panic, and the statement does return. -/
def DbError.returns : DbError → Bool
  | .bail _ | .io _ => true
  | _ => false

theorem final_liftX {α : Type} (x : Except DbError α) (s : Ctx) : (liftX x s).final = s := by
  cases x <;> rfl

theorem after_liftX (result : Except DbError Output) (he : ∀ e, result = .error e → e.returns)
    (s : Ctx) : Session.after (liftX result s) = .live s.tx := by
  cases result with
  | ok out => rfl
  | error e =>
    have := he e rfl
    cases e with
    | bail msg => rfl
    | io what => rfl
    | panic msg => exact absurd this Bool.false_ne_true
    | diverge => exact absurd this Bool.false_ne_true

theorem appends_closed (h : Appends K s s₁) (stmt : Statement) (ok : Bool) :
    Appends (fun _ => True) s (s₁.closed stmt ok) := by
  refine (h.mono fun _ _ => trivial).trans ?_
  unfold Ctx.closed
  split
  · exact .logged s₁ trivial
  · exact .refl s₁

/-- The boundary of a statement that returned: what wrote a row is DML and has
its Commit bracket if it succeeded, and has no Commit record if it failed. -/
theorem advances_finish (hf : Fresh base s) (h : Appends K s s₁)
    (stmt : Statement) (result : Except DbError Output) (he : ∀ e, result = .error e → e.returns)
    (hcommit : resultOk result → Wrote (s₁.closed stmt true).wal.records s.tx.id → stmt.isDml)
    (habort : resultOk result = false → Wrote (s₁.closed stmt false).wal.records s.tx.id →
      ¬ LoggedCommit (s₁.closed stmt false).wal.records s.tx.id) :
    Advances base s (finish stmt result s₁).final (.after (finish stmt result s₁)) := by
  obtain ⟨s', hrun, hrec, htm, hid, hact⟩ :=
    finish_inactive (h.active_eq.trans hf.inactive) stmt result
  rw [hrun, final_liftX, after_liftX result he]
  have happ := appends_closed h stmt (resultOk result)
  have hinv := happ.logInv hf.isOpen hf.inv
  have hopen := happ.mem_activeIds hf.isOpen
  rw [happ.id_eq] at hopen
  rw [h.id_eq] at htm hid
  cases hok : resultOk result with
  | true =>
    rw [hok] at hrec htm happ hinv hopen
    refine advances_decided (show TxnStatus.committed ≠ .inProgress by decide) happ hrec htm hid hact ?_
    rw [hrec, htm]
    refine hinv.commit (Or.inl hopen) fun _ hw => ?_
    have hdml := hcommit hok hw
    unfold Ctx.closed
    rw [if_pos hdml]
    exact ⟨_, List.mem_append_right _ (List.mem_singleton_self _), h.id_eq, rfl⟩
  | false =>
    rw [hok] at hrec htm happ hinv hopen
    refine advances_decided (show TxnStatus.aborted ≠ .inProgress by decide) happ hrec htm hid hact ?_
    rw [hrec, htm]
    exact hinv.abort (Or.inl hopen) fun _ hw => habort hok hw

/-- A statement that panics or never returns outside an explicit transaction. -/
theorem advances_panic {e : DbError} (hf : Fresh base s)
    (h : Appends K s s₁) (hK : ¬ K .commit) (he : e.returns = false) :
    Advances base s s₁ (.after (.error e s₁ : EStateM.Result DbError Ctx Output)) := by
  have hopen := h.mem_activeIds hf.isOpen
  have hclean : ¬ LoggedCommit s₁.wal.records s₁.tx.id := by
    rw [h.id_eq]
    exact h.not_loggedCommit hK hf.not_loggedCommit
  refine ⟨h.logInv hf.isOpen hf.inv, .of_appends h, ?_, fun tx htx => ?_⟩
  · cases e with
    | panic msg =>
      exact ⟨⟨Or.inl hopen, fun _ => hopen⟩, fun _ _ => hclean⟩
    | diverge => exact trivial
    | bail msg => exact absurd he.symm Bool.false_ne_true
    | io what => exact absurd he.symm Bool.false_ne_true
  · rw [has_after htx]
    exact Or.inl h.id_eq

theorem attempt_error {α : Type} {x : ExecM α} {e : DbError} (h : x s = .error e s₁) :
    attempt x s = if e.returns then .ok (.error e) s₁ else .error e s₁ := by
  cases e <;> simp [attempt, h, DbError.returns]

/-- An auto-committed statement, from what the statement itself logged. -/
theorem advances_result (hf : Fresh base s) (stmt : Statement)
    {r : EStateM.Result DbError Ctx Output} (hr : runStatement stmt (s.opened stmt) = r)
    (h : Appends K s r.final) (hrow : stmt.isDml = false → ∀ rt, K rt → rt.isRow = false)
    (hK : ∀ e s₁, r = .error e s₁ → ¬ K .commit) :
    Advances base s (autocommit stmt s).final (.after (autocommit stmt s)) := by
  have hdml : ∀ ok, Wrote (r.final.closed stmt ok).wal.records s.tx.id → stmt.isDml := by
    intro ok hw
    by_contra hnot
    have hnot : stmt.isDml = false := by simpa using hnot
    refine h.not_wrote (hrow hnot) hf.not_wrote ?_
    simpa [Ctx.closed, hnot] using hw
  rw [autocommit_eq]
  cases r with
  | ok out s₁ =>
    have hatt : attempt (runStatement stmt) (s.opened stmt) = .ok (.ok out) s₁ := by
      simp [attempt, hr]
    rw [EStateM.bind_of_ok hatt]
    exact advances_finish hf h stmt _ (fun _ h => by cases h) (fun _ => hdml true)
      fun h => absurd h.symm Bool.false_ne_true
  | error e s₁ =>
    have hatt := attempt_error hr
    have hnc : ¬ K .commit := hK e s₁ rfl
    by_cases he : e.returns
    · rw [if_pos he] at hatt
      rw [EStateM.bind_of_ok hatt]
      refine advances_finish hf h stmt _ (fun _ h => by cases h; exact he)
        (fun h => absurd h Bool.false_ne_true) fun _ hw => ?_
      -- the Abort bracket is the only record behind the statement's own
      have hab : Appends (fun rt => K rt ∨ rt = .abort) s (s₁.closed stmt false) := by
        refine (h.mono fun _ => Or.inl).trans ?_
        unfold Ctx.closed
        split
        · exact .logged s₁ (Or.inr rfl)
        · exact .refl s₁
      refine hab.not_loggedCommit ?_ hf.not_loggedCommit
      rintro (hc | hc)
      · exact hnc hc
      · cases hc
    · rw [if_neg he] at hatt
      rw [EStateM.bind_of_error hatt]
      exact advances_panic hf h hnc (by simpa using he)

theorem advances_begin (hf : Fresh base s) :
    Advances base s (autocommit .begin s).final (.after (autocommit .begin s)) := by
  have hrun : autocommit .begin s = .ok .begin ((s.renewed true).logged .begin) := by
    have hbegin : runBegin s = .ok .begin ((s.renewed true).logged .begin) := by
      unfold runBegin
      rw [EStateM.bind_of_ok (show getCtx s = .ok s s from rfl), if_neg (by rw [hf.inactive]; decide)]
      rfl
    rw [autocommit_eq]
    have hatt : attempt (runStatement .begin) (s.opened .begin) =
        .ok (.ok .begin) ((s.renewed true).logged .begin) := by
      have hbegin : runStatement .begin (s.opened .begin) = _ := hbegin
      simp [attempt, hbegin]
    rw [EStateM.bind_of_ok hatt]
    rfl
  obtain ⟨hinv, hopen, -, hloc, hid⟩ := renewed_spec hf.inv (Or.inl hf.isOpen) (fun _ => hf.silent) true
  have happ : Appends (· = .begin) (s.renewed true) ((s.renewed true).logged .begin) := .logged _ rfl
  rw [hrun]
  refine ⟨happ.logInv hopen hinv, hloc.trans (.of_appends happ) (Or.inr hid), ?_, fun tx htx => ?_⟩
  · exact ⟨⟨Or.inl (happ.mem_activeIds hopen), fun _ => happ.mem_activeIds hopen⟩,
      fun h => by cases h⟩
  · rw [has_after htx]
    exact Or.inr hid

/-- One statement outside an explicit transaction, from its fresh boundary on. -/
theorem advances_autocommit (hf : Fresh base s) (stmt : Statement) :
    Advances base s (autocommit stmt s).final (.after (autocommit stmt s)) := by
  by_cases hdml : stmt.isDml
  · -- Begin, rows and index entries
    have happ : Appends (fun rt => rt = .begin ∨ rt.isDml) s (runStatement stmt (s.opened stmt)).final := by
      have hopened : s.opened stmt = s.logged .begin := if_pos hdml
      rw [hopened]
      exact Appends.trans (.logged s (Or.inl rfl)) ((appends_dml hdml _).mono fun _ => Or.inr)
    refine advances_result hf stmt rfl happ (fun h => absurd (h.symm.trans hdml) Bool.false_ne_true) ?_
    rintro e s₁ - (hc | hc)
    · cases hc
    · exact absurd hc Bool.false_ne_true
  cases stmt with
  | insert | update | delete => exact absurd rfl hdml
  | select stmt =>
    exact advances_result (K := fun _ => False) hf (.select stmt) rfl (appends_select stmt s)
      (fun _ _ h => h.elim) fun _ _ _ h => h
  | begin => exact advances_begin hf
  | vacuum tables =>
    have hnorow : ∀ rt : WalRecordType, (rt = .begin ∨ rt = .commit) → rt.isRow = false := by
      rintro rt (rfl | rfl) <;> rfl
    have hrun : runStatement (.vacuum tables) s =
        (performVacuum tables >>= fun _ => pure (Output.affected 0)) s := rfl
    rcases performVacuum_cases tables s with ⟨s₁, happ, hvac⟩ | ⟨e, s₁, hvac, happ⟩
    · rw [EStateM.bind_of_ok hvac] at hrun
      have hall : Appends (fun rt => rt = .begin ∨ rt = .commit) s
          { s₁.logged .commit with wal := (s₁.logged .commit).wal.flush } :=
        (happ.mono fun _ => Or.inl).trans
          (Appends.trans (.logged s₁ (Or.inr rfl)) (.quiet rfl rfl rfl rfl))
      exact advances_result hf (.vacuum tables) hrun hall (fun _ => hnorow) fun _ _ h => by cases h
    · rw [EStateM.bind_of_error hvac] at hrun
      refine advances_result hf (.vacuum tables) hrun happ (fun _ rt h => hnorow rt (Or.inl h)) ?_
      rintro _ _ - hc
      cases hc
  | commit =>
    have hrun : runStatement .commit s = .error (.bail "there is no transaction in progress") s := by
      show runCommit s = _
      unfold runCommit
      rw [EStateM.bind_of_ok (show getCtx s = .ok s s from rfl), if_neg (by rw [hf.inactive]; decide)]
      rfl
    exact advances_result (K := fun _ => False) hf .commit hrun (.refl s) (fun _ _ h => h.elim)
      fun _ _ _ h => h
  | rollback =>
    have hrun : runStatement .rollback s = .error (.bail "there is no transaction in progress") s := by
      show runRollback s = _
      unfold runRollback
      rw [EStateM.bind_of_ok (show getCtx s = .ok s s from rfl), if_neg (by rw [hf.inactive]; decide)]
      rfl
    exact advances_result (K := fun _ => False) hf .rollback hrun (.refl s) (fun _ _ h => h.elim)
      fun _ _ _ h => h

/-! ## Runs of the system -/

/-- The invariant of the whole system. -/
structure SystemInv (base : Nat) (sys : System) : Prop where
  inv : LogInv base sys.wal.records sys.tm
  ok : ∀ i, SessionOk sys.wal.records sys.tm (sys.sessions i)
  distinct : ∀ i j tx tx', (sys.sessions i).Has tx → (sys.sessions j).Has tx' → tx.id = tx'.id → i = j

/-- Ids of sessions have been handed out. -/
theorem SystemInv.id_lt {sys : System} (h : SystemInv base sys) {i : Nat}
    (htx : (sys.sessions i).Has tx) : tx.id < sys.tm.nextTxnId := by
  have hok := h.ok i
  have hknown : TxOk sys.tm tx := by
    rcases htx with htx | htx <;> rw [htx] at hok
    · exact hok.1
    · exact hok.1
  rcases hknown.known with hin | hdone
  · exact h.inv.wf.active_lt _ hin
  · by_contra hge
    exact hdone (h.inv.wf.future _ (by omega))

/-- Sessions have transactions of their own, also when one of them gets another. -/
theorem distinct_update {sessions : Nat → Session} {i : Nat} {session : Session}
    (h : ∀ j k tx tx', (sessions j).Has tx → (sessions k).Has tx' → tx.id = tx'.id → j = k)
    (hnew : ∀ j tx', j ≠ i → (sessions j).Has tx' → ∀ tx, session.Has tx → tx'.id ≠ tx.id)
    (j k : Nat) (txj txk : Transaction) (hj : (Function.update sessions i session j).Has txj)
    (hk : (Function.update sessions i session k).Has txk) (heq : txj.id = txk.id) : j = k := by
  by_cases hji : j = i
  · by_cases hki : k = i
    · rw [hji, hki]
    · subst hji
      rw [Function.update_self] at hj
      rw [Function.update_of_ne hki] at hk
      exact absurd heq.symm (hnew k txk hki hk txj hj)
  · by_cases hki : k = i
    · subst hki
      rw [Function.update_self] at hk
      rw [Function.update_of_ne hji] at hj
      exact absurd heq (hnew j txj hji hj txk hk)
    · rw [Function.update_of_ne hji] at hj
      rw [Function.update_of_ne hki] at hk
      exact h j k txj txk hj hk heq

/-- A call of one session leaves the invariant for all of them. -/
theorem SystemInv.put {sys : System} (h : SystemInv base sys) {i : Nat}
    {s' : Ctx} {session : Session} (htx : (sys.sessions i).Has tx)
    (hadv : Advances base (sys.ctx tx) s' session) : SystemInv base (sys.put i s' session) := by
  have hother : ∀ j, j ≠ i → ∀ tx', (sys.sessions j).Has tx' →
      tx'.id ≠ tx.id ∧ tx'.id < sys.tm.nextTxnId := fun j hj tx' htx' =>
    ⟨fun heq => hj (h.distinct j i tx' tx htx' htx heq), h.id_lt htx'⟩
  refine ⟨hadv.inv, fun j => ?_, fun j k txj txk hj hk heq => ?_⟩
  · show SessionOk s'.wal.records s'.tm (Function.update sys.sessions i session j)
    by_cases hji : j = i
    · subst hji
      rw [Function.update_self]
      exact hadv.ok
    · rw [Function.update_of_ne hji]
      exact hadv.loc.sessionOk (hother j hji) (h.ok j)
  · -- a new id is larger than every id there was
    refine distinct_update h.distinct (fun j tx' hji htx' txi htxi heq => ?_) j k txj txk hj hk heq
    obtain ⟨hne, hlt⟩ := hother j hji tx' htx'
    have hlt : tx'.id < (sys.ctx tx).tm.nextTxnId := hlt
    rcases hadv.id_eq txi htxi with hid | hid
    · exact hne (heq.trans hid)
    · omega

/-- A step that rolls back an explicit transaction finds no Commit record of
it in the log, unless it wrote no row. -/
def CleanAbort (sys : System) : Event → Prop
  | .stmt i .rollback | .abandon i | .drop i => ∀ tx, (sys.sessions i).Has tx → tx.active →
      ¬ (Wrote sys.wal.records tx.id ∧ LoggedCommit sys.wal.records tx.id)
  | _ => True

/-- Every step of the run is a `CleanAbort`. -/
def CleanRun (sys : System) : List Event → Prop
  | [] => True
  | e :: es => CleanAbort sys e ∧ CleanRun (sys.apply e) es

/-- One statement of a live session. -/
theorem advances_execute {sys : System} (h : SystemInv base sys) {i : Nat}
    (htx : sys.sessions i = .live tx) (stmt : Statement) (hclean : CleanAbort sys (.stmt i stmt)) :
    Advances base (sys.ctx tx) (execute stmt (sys.ctx tx)).final
      (.after (execute stmt (sys.ctx tx))) := by
  have hok := h.ok i
  rw [htx] at hok
  cases hact : tx.active with
  | true =>
    refine advances_active h.inv hact (hok.1.explicit hact) stmt ?_
    rintro rfl
    exact hclean tx (Or.inl htx) hact
  | false =>
    obtain ⟨hinv, hopen, hsilent, hloc, hid⟩ :=
      renewed_spec (s := sys.ctx tx) h.inv hok.1.known (hok.2 hact) false
    have hadv := advances_autocommit ⟨hinv, rfl, hopen, hsilent⟩ stmt
    rw [execute_inactive hact]
    refine ⟨hadv.inv, hloc.trans hadv.loc (Or.inr hid), hadv.ok, fun tx' htx' => ?_⟩
    rcases hadv.id_eq tx' htx' with heq | hle
    · exact Or.inr (heq ▸ hid)
    · exact Or.inr (le_trans hloc.next_le hle)

theorem advances_abandon {sys : System} (h : SystemInv base sys) {i : Nat}
    (htx : sys.sessions i = .live tx) (hclean : CleanAbort sys (.abandon i)) :
    Advances base (sys.ctx tx) (abandon (sys.ctx tx)).final (.after (abandon (sys.ctx tx))) := by
  have hok := h.ok i
  rw [htx] at hok
  set s := sys.ctx tx with hs
  cases hact : tx.active with
  | true =>
    obtain ⟨s', hrun, hrec, htm, hid, hact'⟩ := rollback_apply s
    have hrun : abandon s = .ok () s' := by
      unfold abandon
      rw [EStateM.bind_of_ok (show getCtx s = .ok s s from rfl),
        if_pos (show s.tx.active = true from hact)]
      exact hrun
    rw [hrun]
    exact advances_rollback h.inv (hok.1.explicit hact) (hclean tx (Or.inl htx) hact) hrec htm hid hact'
  | false =>
    rw [abandon_inactive (s := s) hact]
    refine ⟨h.inv, .of_appends (K := fun _ => False) (.quiet rfl rfl rfl rfl), ?_, fun tx' htx' => ?_⟩
    · exact ⟨⟨hok.1.known, hok.1.explicit⟩, hok.2⟩
    · rw [has_after htx']
      exact Or.inl rfl

/-- A new connection. -/
theorem SystemInv.connect {sys : System} (h : SystemInv base sys) {i : Nat} :
    SystemInv base (sys.connect i) := by
  have hloc : ∀ tx, Local sys.tm.nextTxnId (sys.ctx tx) ((sys.connect i).ctx tx) := fun tx =>
    .of_begin h.inv.wf rfl rfl
  refine ⟨h.inv.begin, fun j => ?_, fun j k txj txk hj hk heq => ?_⟩
  · show SessionOk sys.wal.records sys.tm.begin.2 (Function.update sys.sessions i _ j)
    by_cases hji : j = i
    · subst hji
      rw [Function.update_self]
      have hopen : sys.tm.nextTxnId ∈ sys.tm.begin.2.activeIds :=
        (TransactionManager.mem_activeIds_begin h.inv.wf).2 (Or.inl rfl)
      refine ⟨⟨Or.inl hopen, fun _ => hopen⟩, fun _ _ r hr hid => ?_⟩
      have hlt := h.inv.rec_lt r hr
      have hid : r.txnId = sys.tm.nextTxnId := hid
      omega
    · rw [Function.update_of_ne hji]
      refine (hloc ⟨false, 0, 0, none, []⟩).sessionOk (fun tx htx => ?_) (h.ok j)
      have hlt := h.id_lt htx
      exact ⟨by omega, hlt⟩
  · -- the others have smaller ids
    refine distinct_update h.distinct (fun j tx' _ htx' txi htxi => ?_) j k txj txk hj hk heq
    rcases htxi with htxi | htxi <;> cases htxi
    exact Nat.ne_of_lt (h.id_lt htx')

/-- The transaction of a session is dropped. -/
theorem SystemInv.dropTx {sys : System} (h : SystemInv base sys) {i : Nat}
    (htx : (sys.sessions i).Has tx)
    (hclean : tx.id ∈ sys.tm.activeIds →
      ¬ (Wrote sys.wal.records tx.id ∧ LoggedCommit sys.wal.records tx.id)) :
    SystemInv base (sys.dropTx i tx) := by
  have hknown : TxOk sys.tm tx := by
    have hok := h.ok i
    rcases htx with htx | htx <;> rw [htx] at hok
    · exact hok.1
    · exact hok.1
  have hadv : Advances base (sys.ctx tx) ((sys.dropTx i tx).ctx tx) .gone := by
    refine ⟨h.inv.abort hknown.known fun hopen hw hc => hclean hopen ⟨hw, hc⟩,
      .of_decide .aborted rfl rfl, trivial, ?_⟩
    rintro tx' (h | h) <;> cases h
  exact h.put htx hadv

/-- **One step** of the system. -/
theorem SystemInv.apply {sys : System} (h : SystemInv base sys) (e : Event)
    (hclean : CleanAbort sys e) : SystemInv base (sys.apply e) := by
  cases e with
  | connect i =>
    cases hs : sys.sessions i with
    | gone =>
      simp only [System.apply, hs]
      exact h.connect
    | live tx => simpa only [System.apply, hs] using h
    | unwinding tx => simpa only [System.apply, hs] using h
  | stmt i stmt =>
    cases hs : sys.sessions i with
    | live tx =>
      simp only [System.apply, hs]
      exact h.put (Or.inl hs) (advances_execute h hs stmt hclean)
    | unwinding tx => simpa only [System.apply, hs] using h
    | gone => simpa only [System.apply, hs] using h
  | abandon i =>
    cases hs : sys.sessions i with
    | live tx =>
      simp only [System.apply, hs]
      exact h.put (Or.inl hs) (advances_abandon h hs hclean)
    | unwinding tx => simpa only [System.apply, hs] using h
    | gone => simpa only [System.apply, hs] using h
  | drop i =>
    have hok := h.ok i
    cases hs : sys.sessions i with
    | live tx =>
      simp only [System.apply, hs]
      rw [hs] at hok
      split
      · exact h
      · next hact =>
        -- an idle session: its transaction is decided or has logged nothing
        refine h.dropTx (Or.inl hs) fun hopen hboth => ?_
        obtain ⟨⟨r, hr, hid, -⟩, -⟩ := hboth
        exact hok.2 (by simpa using hact) hopen r hr hid
    | unwinding tx =>
      simp only [System.apply, hs]
      rw [hs] at hok
      refine h.dropTx (Or.inr hs) fun hopen hboth => ?_
      cases hact : tx.active with
      | true => exact hclean tx (Or.inr hs) hact hboth
      | false => exact hok.2 hact hopen hboth.2
    | gone => simpa only [System.apply, hs] using h

theorem SystemInv.run {sys : System} (h : SystemInv base sys) : ∀ {events : List Event},
    CleanRun sys events → SystemInv base (sys.run events) := by
  intro events
  induction events generalizing sys with
  | nil => exact fun _ => h
  | cons e es ih => exact fun hrun => ih (h.apply e hrun.1) hrun.2

/-- A server that has just started: nobody is connected, nothing is open. -/
structure Started (sys : System) : Prop where
  gone : ∀ i, sys.sessions i = .gone
  quiet : sys.tm.Quiet
  rec_lt : ∀ r ∈ sys.wal.records, r.txnId < sys.tm.nextTxnId

/-- What the server starts with says nothing about the ids it will hand out. -/
theorem Started.systemInv {sys : System} (h : Started sys) (hids : sys.tm.FutureUndecided) :
    SystemInv sys.tm.nextTxnId sys := by
  have hnone : ∀ i tx, ¬ (sys.sessions i).Has tx := by
    rintro i tx (h' | h') <;> rw [h.gone] at h' <;> cases h'
  refine ⟨⟨h.quiet.wf hids, le_refl _, h.rec_lt, ?_, ?_⟩, fun i => ?_, fun i j tx tx' hi => absurd hi (hnone i tx)⟩
  · intro x hx hc
    rw [hids x hx] at hc
    cases hc
  · intro x hx ha
    rw [hids x hx] at ha
    cases ha
  · rw [h.gone]
    trivial

/-- **Recovery decides as the live system did**: for every transaction of the
run that wrote a row and is finished, and every durable part of the log that
has all its records. -/
theorem run_decision_agrees {sys : System} (hstart : Started sys) (hids : sys.tm.FutureUndecided)
    {events : List Event} (hrun : CleanRun sys events) {id : Nat} (hid : sys.tm.nextTxnId ≤ id)
    (hwrote : Wrote (sys.run events).wal.records id)
    (hdone : (sys.run events).tm.clog id ≠ .inProgress) {durable : List WalRecord}
    (hdurable : durable <+: (sys.run events).wal.records)
    (hlast : ∀ r ∈ (sys.run events).wal.records, r.txnId = id → r ∈ durable) :
    (id ∈ (analyze durable).committed ↔ (sys.run events).tm.clog id = .committed) ∧
      ((sys.run events).tm.clog id = .aborted → id ∉ (analyze durable).committed) := by
  have hinv := ((hstart.systemInv hids).run hrun).inv
  have hsame : LoggedCommit durable id ↔ LoggedCommit (sys.run events).wal.records id := by
    constructor
    · rintro ⟨r, hr, hrid, hrt⟩
      exact ⟨r, hdurable.subset hr, hrid, hrt⟩
    · rintro ⟨r, hr, hrid, hrt⟩
      exact ⟨r, hlast r hr hrid, hrid, hrt⟩
  rw [mem_committed_analyze, hsame]
  have habort : (sys.run events).tm.clog id = .aborted →
      ¬ LoggedCommit (sys.run events).wal.records id := fun ha =>
    hinv.aborted_clean id hid ha hwrote
  refine ⟨⟨fun hc => ?_, fun hc => hinv.committed_logged id hid hc hwrote⟩, habort⟩
  cases hclog : (sys.run events).tm.clog id with
  | committed => rfl
  | aborted => exact absurd hc (habort hclog)
  | inProgress => exact absurd hclog hdone

/-- `FOREIGN KEY (y) REFERENCES t (x) ON DELETE CASCADE`. -/
def referenceToT : ForeignKey := ⟨"y", "t", "x", "CASCADE", "NO_ACTION"⟩

/-- A server with a table `t (x INT)` on page 4 and a table `u (y INT)` on page 5 that
refers to it. -/
def smallServer : System where
  pool := ⟨fun p => .new p, 6, [], 100, hundred_le_noNextPage⟩
  versions := fun p => [.new p]
  wal := ⟨[], 1, 0⟩
  tm := ⟨1, [], fun _ => .inProgress⟩
  catalog := ⟨[⟨1, "t", 4, [.int], ["x"]⟩, ⟨2, "u", 5, [.int], ["y"]⟩],
    [⟨0, "u_fkey_0", 2, .foreignKey, referenceToT.encode⟩], []⟩
  locks := []
  sessions := fun _ => .gone

theorem started_smallServer : Started smallServer where
  gone _ := rfl
  quiet := ⟨rfl, rfl, Nat.one_pos⟩
  rec_lt := fun r hr => by cases hr

/-- `INSERT INTO t VALUES (7)`. -/
def insertSeven : Statement := .insert ⟨1, [.ok [.int 7]], none, fun _ => .ok ()⟩

/-- `INSERT INTO u VALUES (7)`. -/
def referToSeven : Statement := .insert ⟨2, [.ok [.int 7]], none, fun _ => .ok ()⟩

/-- `DELETE FROM t`. -/
def deleteT : Statement := .delete 2 ⟨1, none, fun _ _ => .ok ()⟩

/-- BEGIN; INSERT in both tables; DELETE, which deletes in both; COMMIT: transaction 3 is
in the log as the manager has it. -/
theorem run_decision_agrees_commit :
    let sys := smallServer.run [.connect 0, .stmt 0 .begin, .stmt 0 insertSeven,
      .stmt 0 referToSeven, .stmt 0 deleteT, .stmt 0 .commit]
    sys.tm.clog 3 = .committed ∧ 3 ∈ (analyze sys.wal.records).committed := by
  have hcommitted : (smallServer.run [.connect 0, .stmt 0 .begin, .stmt 0 insertSeven,
      .stmt 0 referToSeven, .stmt 0 deleteT, .stmt 0 .commit]).tm.clog 3 = .committed := by
    decide +kernel
  refine ⟨hcommitted, (@run_decision_agrees _ started_smallServer (fun _ _ => rfl) _ ?_ 3 (by decide) ?_ ?_ _
    (List.prefix_refl _) fun r hr _ => hr).1.2 hcommitted⟩
  · exact ⟨trivial, trivial, trivial, trivial, trivial, trivial, trivial⟩
  · decide +kernel
  · rw [hcommitted]
    decide

/-- BEGIN; INSERT; VACUUM; ROLLBACK: transaction 3 is aborted, but the log,
all of it on disk, commits it. -/
theorem rollback_after_vacuum_recovers_committed :
    let sys := smallServer.run [.connect 0, .stmt 0 .begin, .stmt 0 insertSeven,
      .stmt 0 (.vacuum [1]), .stmt 0 .rollback]
    Wrote sys.wal.records 3 ∧ sys.tm.clog 3 = .aborted ∧
      (∀ r ∈ sys.wal.records, r.lsn ≤ sys.wal.flushedLsn) ∧
      3 ∈ (analyze sys.wal.records).committed := by
  decide +kernel

end Ccdb
