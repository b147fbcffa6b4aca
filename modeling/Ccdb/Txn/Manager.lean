import Ccdb.Storage.Tuple
import Mathlib.Logic.Function.Basic

/-!
# Ccdb — transaction manager and visibility

The registry of `transaction_manager.rs` (next id, active transaction table,
commit log) and the snapshot rules of `visibility.rs`.

`status` memoises terminal outcomes per thread. With the manager's operations
atomic the memo never disagrees with a fresh lookup (`CacheOk`), so the other
modules use `status` without it.

Main results:

* `CacheOk.status_eq` — a memoised lookup returns what a fresh one does.
* `isVisible_iff` — a tuple is visible exactly when the snapshot sees its
  creator and not its deleter.
* `sees_step` — what a snapshot sees of finished transactions does not change.
-/

namespace Ccdb

inductive TxnStatus where
  | inProgress
  | committed
  | aborted
deriving DecidableEq, Repr

structure Snapshot where
  txnId : Nat
  xmax : Nat
  active : List Nat
deriving DecidableEq, Repr

/-- `att` is the active transaction table (id, last LSN); `clog` answers
`inProgress` for an id that was never written. -/
structure TransactionManager where
  nextTxnId : Nat
  att : List (Nat × Nat)
  clog : Nat → TxnStatus

namespace TransactionManager

/-- The ids in the active transaction table. -/
def activeIds (tm : TransactionManager) : List Nat := tm.att.map Prod.fst

/-- `att.remove`. -/
def removeAtt (tm : TransactionManager) (id : Nat) : TransactionManager :=
  { tm with att := tm.att.filter fun e => e.1 ≠ id }

/-- `clog.set`. -/
def setClog (tm : TransactionManager) (id : Nat) (s : TxnStatus) : TransactionManager :=
  { tm with clog := Function.update tm.clog id s }

/-- The second half of `commit` and `abort`: the first decision wins. -/
def decideClog (tm : TransactionManager) (id : Nat) (s : TxnStatus) : TransactionManager :=
  if tm.clog id = .inProgress then tm.setClog id s else tm

/-- `begin`: the id and the manager that has it in its table. -/
def begin (tm : TransactionManager) : Nat × TransactionManager :=
  (tm.nextTxnId,
    { tm with
      nextTxnId := tm.nextTxnId + 1
      att := (tm.nextTxnId, 0) :: tm.att.filter fun e => e.1 ≠ tm.nextTxnId })

/-- `update_last_lsn`. -/
def updateLastLsn (tm : TransactionManager) (id lsn : Nat) : TransactionManager :=
  { tm with att := tm.att.map fun e => if e.1 = id then (id, lsn) else e }

def commit (tm : TransactionManager) (id : Nat) : TransactionManager :=
  (tm.removeAtt id).decideClog id .committed

def abort (tm : TransactionManager) (id : Nat) : TransactionManager :=
  (tm.removeAtt id).decideClog id .aborted

def snapshot (tm : TransactionManager) (txnId : Nat) : Snapshot :=
  ⟨txnId, tm.nextTxnId, tm.activeIds⟩

/-- `status_uncached`: an unknown id that is not in the table counts as aborted. -/
def status (tm : TransactionManager) (id : Nat) : TxnStatus :=
  match tm.clog id with
  | .committed => .committed
  | .aborted => .aborted
  | .inProgress => if id ∈ tm.activeIds then .inProgress else .aborted

/-- The smallest active id, or the next one when nothing is active. -/
def oldestActiveXmin (tm : TransactionManager) : Nat := tm.activeIds.min?.getD tm.nextTxnId

/-- The memo of `status`: terminal outcomes, dropped whole when it is full. -/
abbrev StatusCache := List (Nat × TxnStatus)

def CACHE_LIMIT : Nat := 4096

/-- `status`: the memo first, then the log. -/
def statusCached (tm : TransactionManager) (cache : StatusCache) (id : Nat) :
    TxnStatus × StatusCache :=
  match cache.find? fun e => e.1 = id with
  | some e => (e.2, cache)
  | none =>
    match tm.status id with
    -- an open transaction is looked up again next time
    | .inProgress => (.inProgress, cache)
    | s => (s, (id, s) :: if CACHE_LIMIT ≤ cache.length then [] else cache)

end TransactionManager

/-! ## Visibility -/

def creatorVisible (xmin : Nat) (snap : Snapshot) (tm : TransactionManager) : Bool :=
  if xmin = snap.txnId then true
  else if snap.xmax ≤ xmin then false
  else if xmin ∈ snap.active then false
  else
    match tm.status xmin with
    | .committed => true
    | .aborted => false
    | .inProgress => false

def isVisible (xmin xmax : Nat) (snap : Snapshot) (tm : TransactionManager) : Bool :=
  if !creatorVisible xmin snap tm then false
  else if xmax = invalidTxnId then true
  else if xmax = snap.txnId then false
  else if snap.xmax ≤ xmax then true
  else if xmax ∈ snap.active then true
  else
    match tm.status xmax with
    | .committed => false
    | .aborted => true
    | .inProgress => true

/-- A transaction whose effects count for the snapshot: its own, or one that
was committed when the snapshot was taken. -/
def Sees (snap : Snapshot) (tm : TransactionManager) (x : Nat) : Prop :=
  x = snap.txnId ∨ (x < snap.xmax ∧ x ∉ snap.active ∧ tm.status x = .committed)

instance (snap : Snapshot) (tm : TransactionManager) (x : Nat) : Decidable (Sees snap tm x) :=
  inferInstanceAs (Decidable (_ ∨ _))

theorem creatorVisible_iff {xmin : Nat} {snap : Snapshot} {tm : TransactionManager} :
    creatorVisible xmin snap tm = true ↔ Sees snap tm xmin := by
  unfold creatorVisible Sees
  split
  · next h => simp [h]
  · next hne =>
    split
    · next hle =>
      -- begun after the snapshot
      simp only [Bool.false_eq_true, hne, false_or, false_iff]
      omega
    · next hlt =>
      split
      · next hact => simp [hne, hact]
      · next hact =>
        have hlt : xmin < snap.xmax := by omega
        cases hs : tm.status xmin <;> simp [hne, hact, hlt]

/-- **Visibility.** The snapshot sees the creator and no deleter. -/
theorem isVisible_iff {xmin xmax : Nat} {snap : Snapshot} {tm : TransactionManager} :
    isVisible xmin xmax snap tm = true ↔
      Sees snap tm xmin ∧ (xmax ≠ invalidTxnId → ¬ Sees snap tm xmax) := by
  rw [← creatorVisible_iff]
  unfold isVisible
  cases hc : creatorVisible xmin snap tm with
  | false => simp
  | true =>
    simp only [Bool.not_true, Bool.false_eq_true, if_false, true_and]
    by_cases h0 : xmax = invalidTxnId
    · simp [h0]
    · -- the remaining tests are those of `creator_visible`, negated
      have hdel : creatorVisible xmax snap tm = true ↔ Sees snap tm xmax := creatorVisible_iff
      rw [← hdel]
      unfold creatorVisible
      simp only [h0, if_false, ne_eq, not_false_eq_true, forall_const]
      split
      · simp
      · split
        · simp
        · split
          · simp
          · cases tm.status xmax <;> simp

/-! ## Well-formed managers and their steps -/

namespace TransactionManager

/-- Active ids have been handed out and have no outcome; later ids have neither. An id of an
earlier run of the server may be inactive and without an outcome. -/
structure WF (tm : TransactionManager) : Prop where
  active_lt : ∀ x ∈ tm.activeIds, x < tm.nextTxnId
  active_undecided : ∀ x ∈ tm.activeIds, tm.clog x = .inProgress
  future : ∀ x, tm.nextTxnId ≤ x → tm.clog x = .inProgress
  zero_inactive : 0 ∉ tm.activeIds
  zero_undecided : tm.clog 0 = .inProgress
  next_pos : 0 < tm.nextTxnId

/-- The manager of a server that has just started: nothing is open. -/
structure Quiet (tm : TransactionManager) : Prop where
  none_active : tm.activeIds = []
  zero_undecided : tm.clog 0 = .inProgress
  next_pos : 0 < tm.nextTxnId

/-- No id comes back: of those yet to be handed out none has an outcome. -/
def FutureUndecided (tm : TransactionManager) : Prop :=
  ∀ x, tm.nextTxnId ≤ x → tm.clog x = .inProgress

theorem Quiet.wf {tm : TransactionManager} (h : tm.Quiet) (hids : tm.FutureUndecided) : tm.WF := by
  have hnone : ∀ x, x ∉ tm.activeIds := by simp [h.none_active]
  exact ⟨fun x hx => absurd hx (hnone x), fun x hx => absurd hx (hnone x), hids, hnone 0,
    h.zero_undecided, h.next_pos⟩

/-- One operation on the manager. `commit` and `abort` are called with ids of
sessions: open ones, or ones that were decided before. -/
inductive Step : TransactionManager → TransactionManager → Prop
  | begin (tm : TransactionManager) : Step tm tm.begin.2
  | updateLastLsn (tm : TransactionManager) (id lsn : Nat) : Step tm (tm.updateLastLsn id lsn)
  | commit (tm : TransactionManager) (id : Nat) (h : id ∈ tm.activeIds ∨ tm.clog id ≠ .inProgress) :
      Step tm (tm.commit id)
  | abort (tm : TransactionManager) (id : Nat) (h : id ∈ tm.activeIds ∨ tm.clog id ≠ .inProgress) :
      Step tm (tm.abort id)

variable {tm tm' : TransactionManager} {x id : Nat}

@[simp] theorem mem_activeIds_removeAtt :
    x ∈ (tm.removeAtt id).activeIds ↔ x ∈ tm.activeIds ∧ x ≠ id := by
  simp only [activeIds, removeAtt, List.mem_map, List.mem_filter]
  constructor
  · rintro ⟨e, ⟨he, hne⟩, rfl⟩
    exact ⟨⟨e, he, rfl⟩, by simpa using hne⟩
  · rintro ⟨⟨e, he, rfl⟩, hne⟩
    exact ⟨e, ⟨he, by simpa using hne⟩, rfl⟩

@[simp] theorem activeIds_decideClog {s : TxnStatus} :
    (tm.decideClog id s).activeIds = tm.activeIds := by
  unfold decideClog
  split <;> rfl

@[simp] theorem nextTxnId_decideClog {s : TxnStatus} :
    (tm.decideClog id s).nextTxnId = tm.nextTxnId := by
  unfold decideClog
  split <;> rfl

theorem clog_decideClog {s : TxnStatus} : (tm.decideClog id s).clog x =
    if x = id ∧ tm.clog id = .inProgress then s else tm.clog x := by
  unfold decideClog
  by_cases h : tm.clog id = .inProgress
  · by_cases hx : x = id
    · simp [h, hx, setClog]
    · simp [h, hx, setClog]
  · simp [h]

@[simp] theorem mem_activeIds_begin (hwf : tm.WF) :
    x ∈ tm.begin.2.activeIds ↔ x = tm.nextTxnId ∨ x ∈ tm.activeIds := by
  have hnew : tm.nextTxnId ∉ tm.activeIds := fun h => lt_irrefl _ (hwf.active_lt _ h)
  simp only [activeIds, begin, List.map_cons, List.mem_cons, List.mem_map, List.mem_filter]
  constructor
  · rintro (rfl | ⟨e, ⟨he, -⟩, rfl⟩)
    · exact Or.inl rfl
    · exact Or.inr ⟨e, he, rfl⟩
  · rintro (rfl | ⟨e, he, rfl⟩)
    · exact Or.inl rfl
    · refine Or.inr ⟨e, ⟨he, ?_⟩, rfl⟩
      have hne : e.1 ≠ tm.nextTxnId := fun h => hnew (h ▸ List.mem_map.2 ⟨e, he, rfl⟩)
      simpa using hne

@[simp] theorem activeIds_updateLastLsn {lsn : Nat} :
    (tm.updateLastLsn id lsn).activeIds = tm.activeIds := by
  simp only [activeIds, updateLastLsn, List.map_map]
  refine List.map_congr_left fun e _ => ?_
  simp only [Function.comp]
  split
  · next h => exact h.symm
  · rfl

/-- Deciding one id, open or decided before. -/
theorem WF.decide (hwf : tm.WF) {s : TxnStatus}
    (hid : id ∈ tm.activeIds ∨ tm.clog id ≠ .inProgress) :
    ((tm.removeAtt id).decideClog id s).WF := by
  have hlt : id < tm.nextTxnId := by
    rcases hid with h | h
    · exact hwf.active_lt id h
    · by_contra hge
      exact h (hwf.future id (by omega))
  have hne0 : id ≠ 0 := by
    rintro rfl
    rcases hid with h | h
    · exact hwf.zero_inactive h
    · exact h hwf.zero_undecided
  refine ⟨?_, ?_, ?_, ?_, ?_, ?_⟩
  · intro x hx
    simp only [activeIds_decideClog, mem_activeIds_removeAtt, nextTxnId_decideClog] at hx ⊢
    exact hwf.active_lt x hx.1
  · intro x hx
    simp only [activeIds_decideClog, mem_activeIds_removeAtt] at hx
    rw [clog_decideClog, if_neg (by simp [hx.2])]
    exact hwf.active_undecided x hx.1
  · intro x hx
    rw [nextTxnId_decideClog] at hx
    have hx : tm.nextTxnId ≤ x := hx
    rw [clog_decideClog, if_neg (by rintro ⟨rfl, -⟩; omega)]
    exact hwf.future x hx
  · simp only [activeIds_decideClog, mem_activeIds_removeAtt]
    exact fun h => hwf.zero_inactive h.1
  · rw [clog_decideClog, if_neg (fun h => hne0 h.1.symm)]
    exact hwf.zero_undecided
  · rw [nextTxnId_decideClog]
    exact hwf.next_pos

theorem Step.wf (h : Step tm tm') (hwf : tm.WF) : tm'.WF := by
  cases h with
  | begin =>
    refine ⟨?_, ?_, ?_, ?_, hwf.zero_undecided, Nat.succ_pos _⟩
    · intro x hx
      rw [mem_activeIds_begin hwf] at hx
      show x < tm.nextTxnId + 1
      rcases hx with rfl | hx
      · omega
      · have := hwf.active_lt x hx
        omega
    · intro x hx
      rw [mem_activeIds_begin hwf] at hx
      rcases hx with rfl | hx
      · exact hwf.future _ (le_refl _)
      · exact hwf.active_undecided x hx
    · intro x hx
      have hx : tm.nextTxnId + 1 ≤ x := hx
      exact hwf.future x (by omega)
    · rw [mem_activeIds_begin hwf]
      rintro (h | h)
      · have := hwf.next_pos
        omega
      · exact hwf.zero_inactive h
  | updateLastLsn id lsn =>
    refine ⟨?_, ?_, hwf.future, ?_, hwf.zero_undecided, hwf.next_pos⟩
    · rw [activeIds_updateLastLsn]
      exact hwf.active_lt
    · rw [activeIds_updateLastLsn]
      exact hwf.active_undecided
    · rw [activeIds_updateLastLsn]
      exact hwf.zero_inactive
  | commit id hid => exact hwf.decide hid
  | abort id hid => exact hwf.decide hid

theorem Step.next_le (h : Step tm tm') : tm.nextTxnId ≤ tm'.nextTxnId := by
  cases h with
  | begin => exact Nat.le_succ _
  | updateLastLsn id lsn => exact le_refl _
  | commit id hid => exact (show (tm.commit id).nextTxnId = tm.nextTxnId from nextTxnId_decideClog).ge
  | abort id hid => exact (show (tm.abort id).nextTxnId = tm.nextTxnId from nextTxnId_decideClog).ge

/-- New entries of the table are new ids. -/
theorem Step.active_old (h : Step tm tm') (hwf : tm.WF) (hx : x ∈ tm'.activeIds)
    (hlt : x < tm.nextTxnId) : x ∈ tm.activeIds := by
  cases h with
  | begin =>
    rw [mem_activeIds_begin hwf] at hx
    rcases hx with rfl | hx
    · exact absurd hlt (lt_irrefl _)
    · exact hx
  | updateLastLsn id lsn => rwa [activeIds_updateLastLsn] at hx
  | commit id hid =>
    simp only [TransactionManager.commit, activeIds_decideClog, mem_activeIds_removeAtt] at hx
    exact hx.1
  | abort id hid =>
    simp only [TransactionManager.abort, activeIds_decideClog, mem_activeIds_removeAtt] at hx
    exact hx.1

/-- **Outcomes are stable**: the status of a finished transaction is final. -/
theorem Step.status_eq (h : Step tm tm') (hwf : tm.WF) (hx : x ∉ tm.activeIds)
    (hlt : x < tm.nextTxnId) : tm'.status x = tm.status x := by
  have hout : x ∉ tm'.activeIds := fun hin => hx (h.active_old hwf hin hlt)
  have hclog : tm'.clog x = tm.clog x := by
    cases h with
    | begin => rfl
    | updateLastLsn id lsn => rfl
    | commit id hid =>
      show ((tm.removeAtt id).decideClog id .committed).clog x = _
      rw [clog_decideClog, if_neg]
      · rfl
      · rintro ⟨rfl, hprog⟩
        exact hid.elim hx fun hne => hne hprog
    | abort id hid =>
      show ((tm.removeAtt id).decideClog id .aborted).clog x = _
      rw [clog_decideClog, if_neg]
      · rfl
      · rintro ⟨rfl, hprog⟩
        exact hid.elim hx fun hne => hne hprog
  simp only [status, hclog, hx, hout, if_false]

theorem status_of_active (hwf : tm.WF) (hx : x ∈ tm.activeIds) : tm.status x = .inProgress := by
  simp [status, hwf.active_undecided x hx, hx]

theorem not_active_of_status (hwf : tm.WF) (h : tm.status x ≠ .inProgress) : x ∉ tm.activeIds :=
  fun hx => h (status_of_active hwf hx)

theorem status_abort (hwf : tm.WF) (hx : x ∈ tm.activeIds) : (tm.abort x).status x = .aborted := by
  have hclog : (tm.abort x).clog x = .aborted := by
    unfold abort
    rw [clog_decideClog, if_pos ⟨rfl, hwf.active_undecided x hx⟩]
  simp [status, hclog]

theorem lt_of_committed (hwf : tm.WF) (h : tm.status x = .committed) : x < tm.nextTxnId := by
  by_contra hge
  have hclog := hwf.future x (by omega)
  unfold status at h
  rw [hclog] at h
  dsimp only at h
  split at h <;> cases h

/-! ## The memo of `status` -/

/-- Every memoised outcome is terminal and what a fresh lookup returns. -/
def CacheOk (tm : TransactionManager) (cache : StatusCache) : Prop :=
  ∀ e ∈ cache, e.1 < tm.nextTxnId ∧ e.2 ≠ .inProgress ∧ tm.status e.1 = e.2

/-- **The memo is transparent**: a lookup through it returns what a fresh one
does and leaves a good memo. -/
theorem CacheOk.status_eq {cache : StatusCache} (h : tm.CacheOk cache) (hx : x < tm.nextTxnId) :
    (tm.statusCached cache x).1 = tm.status x ∧ tm.CacheOk (tm.statusCached cache x).2 := by
  unfold statusCached
  split
  · next e he =>
    have hmem := List.mem_of_find?_eq_some he
    have hid : e.1 = x := by simpa using List.find?_some he
    refine ⟨?_, h⟩
    rw [← hid]
    exact (h e hmem).2.2.symm
  · -- a miss: the memo grows by the outcome, possibly after being dropped
    have hgrow : ∀ s, tm.status x = s → s ≠ .inProgress →
        tm.CacheOk ((x, s) :: if CACHE_LIMIT ≤ cache.length then [] else cache) := by
      intro s hs hne e he
      rcases List.mem_cons.1 he with rfl | he
      · exact ⟨hx, hne, hs⟩
      · split at he
        · cases he
        · exact h e he
    split
    · next hs => exact ⟨hs.symm, h⟩
    · next s hs => exact ⟨rfl, hgrow _ rfl hs⟩

/-- No step of the manager makes a memo wrong. -/
theorem CacheOk.step {cache : StatusCache} (h : tm.CacheOk cache) (hwf : tm.WF)
    (hstep : Step tm tm') : tm'.CacheOk cache := by
  intro e he
  obtain ⟨hlt, hne, hs⟩ := h e he
  have hout : e.1 ∉ tm.activeIds := not_active_of_status hwf (by rw [hs]; exact hne)
  exact ⟨lt_of_lt_of_le hlt hstep.next_le, hne, (hstep.status_eq hwf hout hlt).trans hs⟩

end TransactionManager

/-! ## Snapshots over time -/

/-- A snapshot held by an open transaction: whatever is active now was active
when it was taken, or begun later. -/
structure Snapshot.Held (snap : Snapshot) (tm : TransactionManager) : Prop where
  open_txn : snap.txnId ∈ tm.activeIds
  active_known : ∀ x ∈ tm.activeIds, x ∈ snap.active ∨ snap.xmax ≤ x
  xmax_le : snap.xmax ≤ tm.nextTxnId
  txn_lt : snap.txnId < snap.xmax

variable {snap : Snapshot} {tm tm' : TransactionManager} {x : Nat}

theorem held_snapshot (hwf : tm.WF) (hx : x ∈ tm.activeIds) : (tm.snapshot x).Held tm :=
  ⟨hx, fun _ h => Or.inl h, le_refl _, hwf.active_lt x hx⟩

theorem Snapshot.Held.step (h : snap.Held tm) (hwf : tm.WF)
    (hstep : TransactionManager.Step tm tm') (hopen : snap.txnId ∈ tm'.activeIds) :
    snap.Held tm' := by
  refine ⟨hopen, fun x hx => ?_, le_trans h.xmax_le hstep.next_le, h.txn_lt⟩
  by_cases hlt : x < tm.nextTxnId
  · exact h.active_known x (hstep.active_old hwf hx hlt)
  · -- begun after the snapshot was taken
    have := h.xmax_le
    right
    omega

/-- **What a held snapshot sees does not change.** -/
theorem sees_step (h : snap.Held tm) (hwf : tm.WF) (hstep : TransactionManager.Step tm tm') :
    Sees snap tm' x ↔ Sees snap tm x := by
  unfold Sees
  refine or_congr Iff.rfl (and_congr_right fun hlt => and_congr_right fun hact => ?_)
  have hout : x ∉ tm.activeIds := by
    intro hin
    rcases h.active_known x hin with h | h
    · exact hact h
    · omega
  rw [hstep.status_eq hwf hout (lt_of_lt_of_le hlt h.xmax_le)]

/-- A held snapshot sees no other open transaction. -/
theorem Snapshot.Held.not_sees_active (h : snap.Held tm) (hx : x ∈ tm.activeIds)
    (hne : x ≠ snap.txnId) : ¬ Sees snap tm x := by
  rintro (heq | ⟨hlt, hact, -⟩)
  · exact hne heq
  · rcases h.active_known x hx with h | h
    · exact hact h
    · omega

/-- A held snapshot sees no aborted transaction. -/
theorem Snapshot.Held.not_sees_aborted (h : snap.Held tm) (hwf : tm.WF)
    (hx : tm.status x = .aborted) : ¬ Sees snap tm x := by
  rintro (rfl | ⟨-, -, hc⟩)
  · rw [TransactionManager.status_of_active hwf h.open_txn] at hx
    cases hx
  · rw [hx] at hc
    cases hc

end Ccdb
