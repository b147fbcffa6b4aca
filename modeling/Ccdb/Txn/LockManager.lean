import Ccdb.Storage.Tuple
import Ccdb.Lib.Runs
import Mathlib.Data.List.AList

/-!
# Ccdb — the lock table

`lock_manager.rs`: for each row the transactions that hold it and a queue of
requests. A request is granted at once (`can_grant`), or by the walk over the queue
that follows a release (`grant_waiting`).

A step is one critical section of a shard: the part of `lock` up to its answer or
its place in the queue, the return of a call that was asleep, its timeout, and the
release of one row by `unlock_all`. A transaction makes one call at a time.

Main results:

* `Alone` — who holds a row in Exclusive mode holds it alone; every step keeps it.
* `lock_table_safe` — that, and that no call is granted a row past another one that queued
  for it first, in every run in which nobody waits behind a request that an earlier call
  of its own has left.
* `stale_request_overtakes` — an upgrade leaves one, and a later call of its transaction
  is answered in its place.
-/

namespace Ccdb.Locks
variable {h : Holders}

inductive LockMode where
  | shared
  | exclusive
deriving DecidableEq, Repr

structure LockRequest where
  txnId : Nat
  mode : LockMode
deriving DecidableEq, Repr

/-- `HashMap<u64, LockMode>`. -/
abbrev Holders := AList fun _ : Nat => LockMode

structure LockState where
  holders : Holders
  waitQueue : List LockRequest

namespace LockState

/-- `LockState::new`. -/
def new : LockState := ⟨∅, []⟩

end LockState

/-- `holders.values().all(|m| *m == LockMode::Shared)`. -/
def allShared (h : Holders) : Bool := h.entries.all fun e => e.2 = .shared

/-- `can_grant`. -/
def LockState.canGrant (s : LockState) (txnId : Nat) (mode : LockMode) : Bool :=
  match s.holders.lookup txnId with
  | some held =>
    if held = .exclusive ∨ mode = .shared then true
    else s.holders.keys.length = 1
  | none =>
    if !s.waitQueue.isEmpty then false
    else
      match mode with
      | .shared => allShared s.holders
      | .exclusive => s.holders.keys.isEmpty

/-- The test of `grant_waiting`. -/
def grantable (h : Holders) (req : LockRequest) : Bool :=
  if h.keys.isEmpty then true
  else
    match req.mode with
    | .shared => allShared h
    | .exclusive => h.keys.length = 1 ∧ (h.lookup req.txnId).isSome

/-- The loop of `grant_waiting`, over the rest of the queue. -/
def grantWalk : Holders → List LockRequest → Holders × List LockRequest
  | h, [] => (h, [])
  | h, req :: rest =>
    if grantable h req then grantWalk (h.insert req.txnId req.mode) rest
    else if req.mode = .exclusive then (h, req :: rest)
    else ((grantWalk h rest).1, req :: (grantWalk h rest).2)

/-- `grant_waiting`. -/
def LockState.grantWaiting (s : LockState) : LockState :=
  ⟨(grantWalk s.holders s.waitQueue).1, (grantWalk s.holders s.waitQueue).2⟩

/-- A holder gives the row up, and the queue is walked. -/
def LockState.released (s : LockState) (txn : Nat) : LockState :=
  LockState.grantWaiting { s with holders := s.holders.erase txn }

/-! ## Calls -/

/-- What a transaction is doing. -/
inductive Phase where
  | running
  -- asleep in `lock`
  | blocked (rid : Rid) (mode : LockMode)
  -- in `unlock_all`, with the rows still to be released
  | unlocking (rids : List Rid)
deriving DecidableEq

/-- `held` has the rows for which `lock` has returned `Ok` to a transaction and that
`unlock_all` has not released since, each with the strongest mode asked for. The code
keeps the rows with the transaction; no step reads them. -/
structure LockManager where
  table : Rid → Option LockState
  phase : Nat → Phase
  held : Nat → AList fun _ : Rid => LockMode

namespace LockManager

/-- `LockManager::new`, before the first call. -/
def new : LockManager := ⟨fun _ => none, fun _ => .running, fun _ => ∅⟩

/-- `table.entry(rid).or_insert_with(LockState::new)`. -/
def entry (st : LockManager) (rid : Rid) : LockState := (st.table rid).getD .new

def setEntry (st : LockManager) (rid : Rid) (s : LockState) : LockManager :=
  { st with table := Function.update st.table rid (some s) }

def setPhase (st : LockManager) (txn : Nat) (p : Phase) : LockManager :=
  { st with phase := Function.update st.phase txn p }

/-- The stronger of two modes. -/
def stronger : Option LockMode → LockMode → LockMode
  | some .exclusive, _ => .exclusive
  | _, mode => mode

/-- `lock` returns `Ok`, and the caller adds the row to its locks. -/
def acquired (st : LockManager) (txn : Nat) (rid : Rid) (mode : LockMode) : LockManager :=
  { st with
    phase := Function.update st.phase txn .running
    held := Function.update st.held txn
      ((st.held txn).insert rid (stronger ((st.held txn).lookup rid) mode)) }

inductive Act where
  | lock (txn : Nat) (rid : Rid) (mode : LockMode)
  | wake (txn : Nat)
  | timeout (txn : Nat)
  | unlockAll (txn : Nat) (rids : List Rid)
  | release (txn : Nat)
deriving DecidableEq

/-- `lock` up to its answer or to its place in the queue. The test of the wait is
made before the first sleep, so a transaction that holds the row returns at once. -/
def lock (st : LockManager) (txn : Nat) (rid : Rid) (mode : LockMode) : LockManager :=
  let s := st.entry rid
  if s.canGrant txn mode then
    (st.setEntry rid { s with holders := s.holders.insert txn mode }).acquired txn rid mode
  else
    let st := st.setEntry rid { s with waitQueue := s.waitQueue ++ [⟨txn, mode⟩] }
    if (s.holders.lookup txn).isSome then st.acquired txn rid mode
    else st.setPhase txn (.blocked rid mode)

/-- `unlock_all` for one row; an entry that is empty goes. -/
def releaseOne (st : LockManager) (txn : Nat) (rid : Rid) : LockManager :=
  match st.table rid with
  | none => st
  | some s =>
    let s := s.released txn
    if s.holders.keys.isEmpty ∧ s.waitQueue.isEmpty then
      { st with table := Function.update st.table rid none }
    else st.setEntry rid s

def step (st : LockManager) : Act → Option LockManager
  | .lock txn rid mode =>
    match st.phase txn with
    | .running => some (st.lock txn rid mode)
    | _ => none
  | .wake txn =>
    match st.phase txn with
    | .blocked rid mode =>
      -- without an entry the thread panics
      match st.table rid with
      | none => none
      | some s => if (s.holders.lookup txn).isSome then some (st.acquired txn rid mode) else none
    | _ => none
  | .timeout txn =>
    match st.phase txn with
    | .blocked rid _ =>
      match st.table rid with
      | none => none
      | some s =>
        if (s.holders.lookup txn).isSome then none
        else some ((st.setEntry rid { s with
          waitQueue := s.waitQueue.filter fun r => r.txnId ≠ txn }).setPhase txn .running)
    | _ => none
  | .unlockAll txn rids =>
    match st.phase txn with
    | .running => some (st.setPhase txn (.unlocking rids))
    | _ => none
  | .release txn =>
    match st.phase txn with
    | .unlocking [] => some (st.setPhase txn .running)
    | .unlocking (rid :: rest) =>
      let st := st.releaseOne txn rid
      some { st with
        phase := Function.update st.phase txn (.unlocking rest)
        held := Function.update st.held txn ((st.held txn).erase rid) }
    | _ => none

/-- The mode in which a transaction holds a row. -/
def mode (st : LockManager) (rid : Rid) (txn : Nat) : Option LockMode :=
  (st.entry rid).holders.lookup txn

def queue (st : LockManager) (rid : Rid) : List LockRequest := (st.entry rid).waitQueue

end LockManager

/-! ## Steps -/

namespace LockManager

variable {st st' : LockManager} {act : Act}

theorem entry_setEntry (st : LockManager) (rid r : Rid) (s : LockState) :
    (st.setEntry rid s).entry r = if r = rid then s else st.entry r := by
  unfold entry setEntry
  by_cases hr : r = rid
  · rw [hr, if_pos rfl]
    simp
  · rw [if_neg hr]
    simp [Function.update_of_ne hr]

@[simp] theorem entry_setPhase (st : LockManager) (txn : Nat) (p : Phase) (r : Rid) :
    (st.setPhase txn p).entry r = st.entry r := rfl

@[simp] theorem entry_acquired (st : LockManager) (txn : Nat) (rid : Rid) (mode : LockMode) (r : Rid) :
    (st.acquired txn rid mode).entry r = st.entry r := rfl

theorem eq_empty_of_keys (hk : h.keys.isEmpty = true) : h = ∅ := by
  refine AList.ext ?_
  have hnil : h.entries.map Sigma.fst = [] := List.isEmpty_iff.1 hk
  simpa using hnil

theorem entry_releaseOne (st : LockManager) (txn : Nat) (rid r : Rid) :
    (st.releaseOne txn rid).entry r =
      if r = rid then (st.entry rid).released txn else st.entry r := by
  unfold releaseOne
  cases ht : st.table rid with
  | none =>
    by_cases hr : r = rid
    · subst hr
      rw [if_pos rfl]
      unfold entry
      rw [ht]
      rfl
    · rw [if_neg hr]
  | some s =>
    have hentry : st.entry rid = s := by
      unfold entry
      rw [ht]
      rfl
    dsimp only
    rw [hentry]
    split
    · next hempty =>
      by_cases hr : r = rid
      · subst hr
        rw [if_pos rfl]
        have hnew : s.released txn = .new := by
          have hholders := eq_empty_of_keys hempty.1
          have hqueue := List.isEmpty_iff.1 hempty.2
          cases hs : s.released txn with
          | mk h q =>
            rw [hs] at hholders hqueue
            cases hholders
            cases hqueue
            rfl
        rw [hnew]
        unfold entry
        simp
      · rw [if_neg hr]
        unfold entry
        simp [Function.update_of_ne hr]
    · rw [entry_setEntry]

@[simp] theorem phase_releaseOne (st : LockManager) (txn : Nat) (rid : Rid) :
    (st.releaseOne txn rid).phase = st.phase := by
  unfold releaseOne
  split
  · rfl
  · dsimp only
    split <;> rfl

@[simp] theorem held_releaseOne (st : LockManager) (txn : Nat) (rid : Rid) :
    (st.releaseOne txn rid).held = st.held := by
  unfold releaseOne
  split
  · rfl
  · dsimp only
    split <;> rfl

/-- What a step can do. -/
inductive Does (st : LockManager) : Act → LockManager → Prop
  | granted {txn : Nat} {rid : Rid} {mode : LockMode} (hrun : st.phase txn = .running)
      (hgrant : (st.entry rid).canGrant txn mode = true) :
      Does st (.lock txn rid mode) ((st.setEntry rid { st.entry rid with
        holders := (st.entry rid).holders.insert txn mode }).acquired txn rid mode)
  -- a holder whose request is not granted: it goes to the queue, and `lock` returns
  | passed {txn : Nat} {rid : Rid} {mode : LockMode} (hrun : st.phase txn = .running)
      (hgrant : (st.entry rid).canGrant txn mode = false)
      (hholds : ((st.entry rid).holders.lookup txn).isSome = true) :
      Does st (.lock txn rid mode) ((st.setEntry rid { st.entry rid with
        waitQueue := (st.entry rid).waitQueue ++ [⟨txn, mode⟩] }).acquired txn rid mode)
  | queued {txn : Nat} {rid : Rid} {mode : LockMode} (hrun : st.phase txn = .running)
      (hgrant : (st.entry rid).canGrant txn mode = false)
      (hholds : (st.entry rid).holders.lookup txn = none) :
      Does st (.lock txn rid mode) ((st.setEntry rid { st.entry rid with
        waitQueue := (st.entry rid).waitQueue ++ [⟨txn, mode⟩] }).setPhase txn (.blocked rid mode))
  | woken {txn : Nat} {rid : Rid} {mode : LockMode} (hblock : st.phase txn = .blocked rid mode)
      (hholds : ((st.entry rid).holders.lookup txn).isSome = true) :
      Does st (.wake txn) (st.acquired txn rid mode)
  | timedOut {txn : Nat} {rid : Rid} {mode : LockMode} (hblock : st.phase txn = .blocked rid mode)
      (hholds : (st.entry rid).holders.lookup txn = none) :
      Does st (.timeout txn) ((st.setEntry rid { st.entry rid with
        waitQueue := (st.entry rid).waitQueue.filter fun r => r.txnId ≠ txn }).setPhase txn .running)
  | unlocking {txn : Nat} {rids : List Rid} (hrun : st.phase txn = .running) :
      Does st (.unlockAll txn rids) (st.setPhase txn (.unlocking rids))
  | unlocked {txn : Nat} (hphase : st.phase txn = .unlocking []) :
      Does st (.release txn) (st.setPhase txn .running)
  | released {txn : Nat} {rid : Rid} {rest : List Rid}
      (hphase : st.phase txn = .unlocking (rid :: rest)) :
      Does st (.release txn) { st.releaseOne txn rid with
        phase := Function.update st.phase txn (.unlocking rest)
        held := Function.update st.held txn ((st.held txn).erase rid) }

theorem entry_of_table {rid : Rid} {s : LockState} (h : st.table rid = some s) : st.entry rid = s := by
  unfold entry
  rw [h]
  rfl

theorem step_does (h : st.step act = some st') : Does st act st' := by
  cases act with
  | lock txn rid mode =>
    cases hp : st.phase txn with
    | blocked => simp [step, hp] at h
    | unlocking => simp [step, hp] at h
    | running =>
      simp only [step, hp, Option.some.injEq] at h
      subst h
      unfold lock
      cases hg : (st.entry rid).canGrant txn mode with
      | true => simpa [hg] using Does.granted hp hg
      | false =>
        cases hl : (st.entry rid).holders.lookup txn with
        | some held => simpa [hg, hl] using Does.passed hp hg (by rw [hl]; rfl)
        | none => simpa [hg, hl] using Does.queued hp hg hl
  | wake txn =>
    cases hp : st.phase txn with
    | running => simp [step, hp] at h
    | unlocking => simp [step, hp] at h
    | blocked rid mode =>
      cases ht : st.table rid with
      | none => simp [step, hp, ht] at h
      | some s =>
        simp only [step, hp, ht] at h
        split at h
        · next hholds =>
          cases h
          exact .woken hp (by rw [entry_of_table ht]; exact hholds)
        · cases h
  | timeout txn =>
    cases hp : st.phase txn with
    | running => simp [step, hp] at h
    | unlocking => simp [step, hp] at h
    | blocked rid mode =>
      cases ht : st.table rid with
      | none => simp [step, hp, ht] at h
      | some s =>
        simp only [step, hp, ht] at h
        split at h
        · cases h
        · next hholds =>
          cases h
          have hentry := entry_of_table ht
          have hnone : (st.entry rid).holders.lookup txn = none := by
            rw [hentry]
            simpa using hholds
          have hdoes := Does.timedOut hp hnone
          rwa [hentry] at hdoes
  | unlockAll txn rids =>
    cases hp : st.phase txn with
    | blocked => simp [step, hp] at h
    | unlocking => simp [step, hp] at h
    | running =>
      simp only [step, hp, Option.some.injEq] at h
      subst h
      exact .unlocking hp
  | release txn =>
    cases hp : st.phase txn with
    | running => simp [step, hp] at h
    | blocked => simp [step, hp] at h
    | unlocking rids =>
      cases rids with
      | nil =>
        simp only [step, hp, Option.some.injEq] at h
        subst h
        exact .unlocked hp
      | cons rid rest =>
        simp only [step, hp, Option.some.injEq, phase_releaseOne, held_releaseOne] at h
        subst h
        exact .released hp

end LockManager

/-! ## Exclusion -/

/-- Who holds the row in Exclusive mode holds it alone. -/
def Alone (h : Holders) : Prop := ∀ t, h.lookup t = some .exclusive → ∀ u ∈ h, u = t

/-- The mode goes together with what the other transactions hold. -/
def Compatible (h : Holders) (txn : Nat) (mode : LockMode) : Prop :=
  (mode = .shared ∧ ∀ u, h.lookup u ≠ some .exclusive) ∨ ∀ u ∈ h, u = txn

theorem mem_iff_lookup {t : Nat} : t ∈ h ↔ (h.lookup t).isSome = true :=
  AList.lookup_isSome.symm

theorem mem_of_lookup {t : Nat} {m : LockMode} (hm : h.lookup t = some m) : t ∈ h := by
  rw [mem_iff_lookup, hm]
  rfl

theorem allShared_iff : allShared h = true ↔ ∀ u, h.lookup u ≠ some .exclusive := by
  unfold allShared
  rw [List.all_eq_true]
  constructor
  · intro hall u hu
    have hmem := AList.mem_lookup_iff.1 (Option.mem_def.2 hu)
    simpa using hall _ hmem
  · rintro hall ⟨u, m⟩ hmem
    have hu := hall u
    rw [Option.mem_def.1 (AList.mem_lookup_iff.2 hmem)] at hu
    cases m with
    | shared => rfl
    | exclusive => exact absurd rfl hu

/-- A single entry is that of the transaction that has one. -/
theorem sole_of_length {txn : Nat} (hlen : h.keys.length = 1) (hmem : txn ∈ h) :
    ∀ u ∈ h, u = txn := by
  obtain ⟨a, ha⟩ := List.length_eq_one_iff.1 hlen
  have hall : ∀ u, u ∈ h → u = a := by
    intro u hu
    have hu := AList.mem_keys.1 hu
    rw [ha] at hu
    simpa using hu
  intro u hu
  rw [hall u hu, hall txn hmem]

theorem not_mem_of_isEmpty (hk : h.keys.isEmpty = true) (u : Nat) : u ∉ h := by
  rw [LockManager.eq_empty_of_keys hk]
  exact AList.notMem_empty u

theorem compatible_of_canGrant {s : LockState} {txn : Nat} {mode : LockMode} (ha : Alone s.holders)
    (hg : s.canGrant txn mode = true) : Compatible s.holders txn mode := by
  unfold LockState.canGrant at hg
  cases hl : s.holders.lookup txn with
  | some held =>
    simp only [hl] at hg
    cases held with
    | exclusive => exact .inr (ha txn hl)
    | shared =>
      cases mode with
      | exclusive =>
        have hlen : s.holders.keys.length = 1 := by simpa using hg
        exact .inr (sole_of_length hlen (mem_of_lookup hl))
      | shared =>
        refine .inl ⟨rfl, fun u hu => ?_⟩
        rw [ha u hu txn (mem_of_lookup hl)] at hl
        rw [hl] at hu
        cases hu
  | none =>
    simp only [hl] at hg
    split at hg
    · cases hg
    · cases mode with
      | shared => exact .inl ⟨rfl, allShared_iff.1 hg⟩
      | exclusive => exact .inr fun u hu => absurd hu (not_mem_of_isEmpty hg u)

theorem compatible_of_grantable {req : LockRequest} (hg : grantable h req = true) :
    Compatible h req.txnId req.mode := by
  unfold grantable at hg
  split at hg
  · next hempty => exact .inr fun u hu => absurd hu (not_mem_of_isEmpty hempty u)
  · cases hm : req.mode with
    | shared =>
      simp only [hm] at hg
      exact .inl ⟨rfl, allShared_iff.1 hg⟩
    | exclusive =>
      simp only [hm, decide_eq_true_eq] at hg
      exact .inr (sole_of_length hg.1 (mem_iff_lookup.2 hg.2))

theorem lookup_insert_of_ne {t u : Nat} {m : LockMode} (hne : u ≠ t) :
    (h.insert t m).lookup u = h.lookup u := AList.lookup_insert_ne hne

theorem Compatible.alone_insert {txn : Nat} {mode : LockMode}
    (hc : Compatible h txn mode) : Alone (h.insert txn mode) := by
  intro t ht u hu
  rw [AList.mem_insert] at hu
  by_cases htt : t = txn
  · subst htt
    rcases hu with rfl | hu
    · rfl
    · rcases hc with ⟨rfl, -⟩ | hsole
      · rw [AList.lookup_insert] at ht
        cases ht
      · exact hsole u hu
  · rw [lookup_insert_of_ne htt] at ht
    -- another transaction in Exclusive mode excludes both ways of being compatible
    rcases hc with ⟨-, hno⟩ | hsole
    · exact absurd ht (hno t)
    · exact absurd (hsole t (mem_of_lookup ht)) htt

theorem Alone.erase (ha : Alone h) (txn : Nat) : Alone (h.erase txn) := by
  intro t ht u hu
  rw [AList.mem_erase] at hu
  by_cases htt : t = txn
  · subst htt
    rw [AList.lookup_erase] at ht
    cases ht
  · rw [AList.lookup_erase_ne htt] at ht
    exact ha t ht u hu.2

theorem Alone.grantWalk (ha : Alone h) (q : List LockRequest) :
    Alone (grantWalk h q).1 := by
  induction q generalizing h with
  | nil => exact ha
  | cons req rest ih =>
    unfold Locks.grantWalk
    split
    · next hg => exact ih (compatible_of_grantable hg).alone_insert
    · split
      · exact ha
      · exact ih ha

theorem Alone.released {s : LockState} (ha : Alone s.holders) (txn : Nat) :
    Alone (s.released txn).holders := (ha.erase txn).grantWalk s.waitQueue

theorem alone_empty : Alone ∅ := by
  intro t ht
  cases ht

/-! ## Order -/

/-- The requests in front of the first one of a transaction. -/
def front (q : List LockRequest) (txn : Nat) : List LockRequest := q.takeWhile fun r => r.txnId ≠ txn

/-- The requests of others that have one of the transaction behind them. -/
def behindOthers : List LockRequest → Nat → List LockRequest
  | [], _ => []
  | req :: rest, txn =>
    if req.txnId ≠ txn ∧ ∃ r ∈ rest, r.txnId = txn then req :: behindOthers rest txn
    else behindOthers rest txn

/-- The requests of a transaction stand together. -/
def Together (q : List LockRequest) (txn : Nat) : Prop :=
  ∃ a b c, q = a ++ (b ++ c) ∧ (∀ r ∈ a, r.txnId ≠ txn) ∧ (∀ r ∈ b, r.txnId = txn) ∧
    ∀ r ∈ c, r.txnId ≠ txn

theorem Together.sublist {q q' : List LockRequest} {txn : Nat} (h : Together q txn)
    (hsub : q'.Sublist q) : Together q' txn := by
  obtain ⟨a, b, c, rfl, ha, hb, hc⟩ := h
  obtain ⟨a', rest, rfl, ha', hrest⟩ := List.sublist_append_iff.1 hsub
  obtain ⟨b', c', rfl, hb', hc'⟩ := List.sublist_append_iff.1 hrest
  exact ⟨a', b', c', rfl, fun r hr => ha r (ha'.subset hr), fun r hr => hb r (hb'.subset hr),
    fun r hr => hc r (hc'.subset hr)⟩

theorem Together.concat {q : List LockRequest} {txn : Nat} (h : Together q txn) {req : LockRequest}
    (hne : req.txnId ≠ txn) : Together (q ++ [req]) txn := by
  obtain ⟨a, b, c, rfl, ha, hb, hc⟩ := h
  refine ⟨a, b, c ++ [req], by simp, ha, hb, fun r hr => ?_⟩
  rcases List.mem_append.1 hr with hr | hr
  · exact hc r hr
  · rw [List.mem_singleton.1 hr]
    exact hne

theorem mem_of_behindOthers {req : LockRequest} {txn : Nat} {q : List LockRequest}
    (h : req ∈ behindOthers q txn) : ∃ r ∈ q, r.txnId = txn := by
  induction q with
  | nil => cases h
  | cons r rest ih =>
    unfold behindOthers at h
    split at h
    · next hr =>
      obtain ⟨r', hr', heq⟩ := hr.2
      exact ⟨r', List.mem_cons_of_mem _ hr', heq⟩
    · obtain ⟨r', hr', heq⟩ := ih h
      exact ⟨r', List.mem_cons_of_mem _ hr', heq⟩

/-- Where they stand together, who is in front of the last is in front of the first. -/
theorem Together.mem_front {q : List LockRequest} {txn : Nat} (h : Together q txn) {req : LockRequest}
    (hreq : req ∈ behindOthers q txn) : req ∈ front q txn := by
  obtain ⟨a, b, c, rfl, ha, hb, hc⟩ := h
  have hin : req ∈ a := by
    clear ha
    induction a with
    | nil =>
      rw [List.nil_append] at hreq
      induction b with
      | nil =>
        obtain ⟨r, hr, heq⟩ := mem_of_behindOthers hreq
        exact absurd heq (hc r hr)
      | cons r b ih =>
        rw [List.cons_append, behindOthers, if_neg fun hr => hr.1 (hb r List.mem_cons_self)] at hreq
        exact ih (fun r' hr' => hb r' (List.mem_cons_of_mem _ hr')) hreq
    | cons r a ih =>
      rw [List.cons_append, behindOthers] at hreq
      split at hreq
      · rcases List.mem_cons.1 hreq with rfl | hreq
        · exact List.mem_cons_self
        · exact List.mem_cons_of_mem _ (ih hreq)
      · exact List.mem_cons_of_mem _ (ih hreq)
  unfold front
  rw [List.takeWhile_append_of_pos fun r hr => by simpa using ha r hr]
  exact List.mem_append_left _ hin

theorem grantWalk_sublist (h : Holders) (q : List LockRequest) : (grantWalk h q).2.Sublist q := by
  induction q generalizing h with
  | nil => exact .refl []
  | cons req rest ih =>
    unfold grantWalk
    split
    · exact (ih _).cons req
    · split
      · exact .refl _
      · exact (ih h).cons_cons req

/-- The walk takes no one's row away. -/
theorem mem_grantWalk {t : Nat} (ht : t ∈ h) (q : List LockRequest) :
    t ∈ (grantWalk h q).1 := by
  induction q generalizing h with
  | nil => exact ht
  | cons req rest ih =>
    unfold grantWalk
    split
    · exact ih ((AList.mem_insert h).2 (.inr ht))
    · split
      · exact ht
      · exact ih ht

/-- Under an Exclusive holder the walk only renews the mode of that holder. -/
theorem grantWalk_of_exclusive (ha : Alone h) {x : Nat} (hx : h.lookup x = some .exclusive)
    (q : List LockRequest) : ∀ t ∈ (grantWalk h q).1, t = x := by
  induction q generalizing h with
  | nil => exact ha x hx
  | cons req rest ih =>
    unfold grantWalk
    split
    · next hg =>
      have hreq : req.txnId = x ∧ req.mode = .exclusive := by
        rcases compatible_of_grantable hg with ⟨-, hno⟩ | hsole
        · exact absurd hx (hno x)
        · refine ⟨(hsole x (mem_of_lookup hx)).symm, ?_⟩
          cases hm : req.mode with
          | exclusive => rfl
          | shared =>
            have hempty : h.keys.isEmpty = false := by
              by_contra hk
              exact not_mem_of_isEmpty (by simpa using hk) x (mem_of_lookup hx)
            simp only [grantable, hempty, hm] at hg
            exact absurd hx (allShared_iff.1 (by simpa using hg) x)
      refine ih (compatible_of_grantable hg).alone_insert ?_
      rw [hreq.1, hreq.2, AList.lookup_insert]
    · split
      · exact ha x hx
      · exact ih ha hx

/-- A Shared request that is passed over waits for an Exclusive holder. -/
theorem exists_exclusive_of_skip {req : LockRequest} (hm : req.mode = .shared)
    (hg : ¬ grantable h req = true) : ∃ x, h.lookup x = some .exclusive := by
  by_contra hno
  refine hg ?_
  have hall : allShared h = true := allShared_iff.2 fun u hu => hno ⟨u, hu⟩
  unfold grantable
  split
  · rfl
  · rw [hm]
    exact hall

/-- **One walk.** A transaction that gets the row leaves no one behind: those in front
of it hold the row too. -/
theorem grantWalk_fifo (ha : Alone h) {t : Nat} (ht : t ∉ h) (q : List LockRequest)
    (hgot : t ∈ (grantWalk h q).1) : ∀ e ∈ front q t, e.txnId ∈ (grantWalk h q).1 := by
  induction q generalizing h with
  | nil =>
    intro e he
    cases he
  | cons req rest ih =>
    intro e he
    unfold front at he
    rw [List.takeWhile_cons] at he
    split at he
    · next hne =>
      unfold grantWalk at hgot ⊢
      split at hgot
      · next hg =>
        rw [if_pos hg]
        rcases List.mem_cons.1 he with rfl | he
        · exact mem_grantWalk ((AList.mem_insert h).2 (.inl rfl)) rest
        · refine ih (compatible_of_grantable hg).alone_insert ?_ hgot e he
          rw [AList.mem_insert, not_or]
          exact ⟨fun heq => by simp [heq] at hne, ht⟩
      · next hg =>
        split at hgot
        · exact absurd hgot ht
        · next hm =>
          -- an Exclusive holder keeps the row to itself, so nobody new gets it
          have hshared : req.mode = .shared := by
            cases hreq : req.mode with
            | shared => rfl
            | exclusive => exact absurd hreq hm
          obtain ⟨x, hx⟩ := exists_exclusive_of_skip hshared hg
          have htx := grantWalk_of_exclusive ha hx rest t hgot
          exact absurd (htx ▸ mem_of_lookup hx) ht
    · cases he

namespace LockManager

variable {st st' : LockManager} {act : Act}

/-- The states of the runs from the start. -/
inductive Reachable : LockManager → Prop
  | new : Reachable .new
  | step {st st' : LockManager} {act : Act} (h : Reachable st) (hstep : st.step act = some st') :
      Reachable st'

theorem reachable_after (acts : List Act) (h : Follows step (fun _ _ => True) new acts) :
    Reachable (after step new acts) :=
  h.invariant (fun hr _ hs => hr.step hs) .new

theorem alone_step (ha : ∀ r, Alone (st.entry r).holders) (h : Does st act st') (r : Rid) :
    Alone (st'.entry r).holders := by
  cases h with
  | granted hrun hgrant =>
    rw [entry_acquired, entry_setEntry]
    split
    · exact (compatible_of_canGrant (ha _) hgrant).alone_insert
    · exact ha r
  | passed hrun hgrant hholds =>
    rw [entry_acquired, entry_setEntry]
    split
    · exact ha _
    · exact ha r
  | queued hrun hgrant hholds =>
    rw [entry_setPhase, entry_setEntry]
    split
    · exact ha _
    · exact ha r
  | woken => exact ha r
  | timedOut hblock hholds =>
    rw [entry_setPhase, entry_setEntry]
    split
    · exact ha _
    · exact ha r
  | unlocking => exact ha r
  | unlocked => exact ha r
  | @released txn rid rest hphase =>
    show Alone ((st.releaseOne txn rid).entry r).holders
    rw [entry_releaseOne]
    split
    · exact (ha rid).released txn
    · exact ha r

theorem Reachable.alone (h : Reachable st) (r : Rid) : Alone (st.entry r).holders := by
  induction h generalizing r with
  | new => exact alone_empty
  | step _ hstep ih => exact alone_step ih (step_does hstep) r

theorem Does.fifo (ha : ∀ r, Alone (st.entry r).holders) (h : Does st act st') {rid : Rid} {t : Nat}
    (ht : t ∉ (st.entry rid).holders) (hgot : t ∈ (st'.entry rid).holders) :
    ∀ e ∈ front (st.queue rid) t, e.txnId ∈ (st'.entry rid).holders := by
  cases h with
  | @granted txn r mode hrun hgrant =>
    rw [entry_acquired, entry_setEntry] at hgot ⊢
    by_cases hr : rid = r
    · subst hr
      rw [if_pos rfl] at hgot
      rcases (AList.mem_insert _).1 hgot with rfl | hgot
      · have hnone : (st.entry rid).holders.lookup t = none := AList.lookup_eq_none.2 ht
        have hempty : (st.entry rid).waitQueue = [] := by
          simp only [LockState.canGrant, hnone] at hgrant
          split at hgrant
          · cases hgrant
          · next hq => simpa using hq
        intro e he
        unfold queue at he
        rw [hempty] at he
        cases he
      · exact absurd hgot ht
    · rw [if_neg hr] at hgot
      exact absurd hgot ht
  | @passed txn r mode hrun hgrant hholds =>
    rw [entry_acquired, entry_setEntry] at hgot
    by_cases hr : rid = r
    · subst hr
      rw [if_pos rfl] at hgot
      exact absurd hgot ht
    · rw [if_neg hr] at hgot
      exact absurd hgot ht
  | @queued txn r mode hrun hgrant hholds =>
    rw [entry_setPhase, entry_setEntry] at hgot
    by_cases hr : rid = r
    · subst hr
      rw [if_pos rfl] at hgot
      exact absurd hgot ht
    · rw [if_neg hr] at hgot
      exact absurd hgot ht
  | woken => exact absurd hgot ht
  | @timedOut txn r mode hblock hholds =>
    rw [entry_setPhase, entry_setEntry] at hgot
    by_cases hr : rid = r
    · subst hr
      rw [if_pos rfl] at hgot
      exact absurd hgot ht
    · rw [if_neg hr] at hgot
      exact absurd hgot ht
  | unlocking => exact absurd hgot ht
  | unlocked => exact absurd hgot ht
  | @released txn r rest hphase =>
    have hentry : ({ st.releaseOne txn r with
        phase := Function.update st.phase txn (.unlocking rest)
        held := Function.update st.held txn ((st.held txn).erase r) } : LockManager).entry rid =
          (st.releaseOne txn r).entry rid := rfl
    rw [hentry, entry_releaseOne] at hgot ⊢
    by_cases hr : rid = r
    · subst hr
      rw [if_pos rfl] at hgot ⊢
      refine grantWalk_fifo ((ha rid).erase txn) ?_ (st.entry rid).waitQueue hgot
      rw [AList.mem_erase, not_and]
      exact fun _ => ht
    · rw [if_neg hr] at hgot
      exact absurd hgot ht

/-- The requests in front of the one that a grant of the row would answer. For a
transaction that is asleep this is the request of its call, the last it has made; a
request that no call waits for is granted in the place where it was left. -/
def ahead (st : LockManager) (rid : Rid) (txn : Nat) : List LockRequest :=
  match st.phase txn with
  | .blocked r _ => if r = rid then behindOthers (st.queue rid) txn else front (st.queue rid) txn
  | _ => front (st.queue rid) txn

/-- A step that gives a row to a transaction leaves none of the requests in front of it
waiting. -/
def Serves (st st' : LockManager) : Prop :=
  ∀ rid t, st.mode rid t = none → (st'.mode rid t).isSome →
    ∀ e ∈ st.ahead rid t, (st'.mode rid e.txnId).isSome

/-- The call is to wait behind others who are behind a request that an earlier call of the
same transaction has left in the queue. -/
def Overtakes (st : LockManager) (txn : Nat) (rid : Rid) : Prop :=
  st.mode rid txn = none ∧ ∃ r ∈ (st.queue rid).dropWhile fun r => r.txnId ≠ txn, r.txnId ≠ txn

def InTurn (st : LockManager) : Act → Prop
  | .lock txn rid _ => ¬ st.Overtakes txn rid
  | _ => True

instance (st : LockManager) (txn : Nat) (rid : Rid) : Decidable (st.Overtakes txn rid) :=
  inferInstanceAs (Decidable (_ ∧ _))

instance (st : LockManager) : DecidablePred st.InTurn
  | .lock txn rid _ => inferInstanceAs (Decidable (¬ st.Overtakes txn rid))
  | .wake _ | .timeout _ | .unlockAll .. | .release _ => inferInstanceAs (Decidable True)

/-- Who is asleep for a row has its requests for it together. -/
def Grouped (st : LockManager) : Prop :=
  ∀ t rid mode, st.phase t = .blocked rid mode → Together (st.queue rid) t

theorem Grouped.step (h : Grouped st) (hs : Does st act st') (hok : st.InTurn act) : Grouped st' := by
  -- the phase of one transaction changes, and its new one is not a sleep
  have hawake : ∀ {txn t : Nat} {p : Phase} {r : Rid} {mode : LockMode}, (∀ r m, p ≠ .blocked r m) →
      Function.update st.phase txn p t = .blocked r mode → t ≠ txn ∧ st.phase t = .blocked r mode := by
    intro txn t p r mode hp ht
    by_cases heq : t = txn
    · rw [heq, Function.update_self] at ht
      exact absurd ht (hp r mode)
    · exact ⟨heq, by rwa [Function.update_of_ne heq] at ht⟩
  have hset : ∀ {rid r : Rid} {s : LockState}, ((st.setEntry rid s).entry r).waitQueue =
      if r = rid then s.waitQueue else st.queue r := by
    intro rid r s
    rw [entry_setEntry]
    split <;> rfl
  intro t r mode ht
  cases hs with
  | @granted txn rid _ hrun hgrant =>
    obtain ⟨-, ht⟩ := hawake (fun _ _ hp => by cases hp) ht
    show Together ((st.setEntry rid _).entry r).waitQueue t
    rw [hset]
    split
    · next hr => exact hr ▸ h t r mode ht
    · exact h t r mode ht
  | @passed txn rid m hrun hgrant hholds =>
    obtain ⟨hne, ht⟩ := hawake (fun _ _ hp => by cases hp) ht
    show Together ((st.setEntry rid _).entry r).waitQueue t
    rw [hset]
    split
    · next hr => exact (hr ▸ h t r mode ht).concat (Ne.symm hne)
    · exact h t r mode ht
  | @queued txn rid m hrun hgrant hholds =>
    show Together ((st.setEntry rid _).entry r).waitQueue t
    rw [hset]
    by_cases heq : t = txn
    · -- its own requests are the last of the queue
      subst heq
      have hr : rid = r := by
        have ht : Function.update st.phase t (.blocked rid m) t = .blocked r mode := ht
        rw [Function.update_self] at ht
        exact (Phase.blocked.inj ht).1
      subst hr
      rw [if_pos rfl]
      refine ⟨(st.queue rid).takeWhile fun e => e.txnId ≠ t,
        ((st.queue rid).dropWhile fun e => e.txnId ≠ t) ++ [⟨t, m⟩], [], ?_, fun e he => ?_,
        fun e he => ?_, fun e he => by cases he⟩
      · rw [List.append_nil, ← List.append_assoc, List.takeWhile_append_dropWhile]
        rfl
      · simpa using List.mem_takeWhile_imp he
      · rcases List.mem_append.1 he with he | he
        · by_contra hne
          exact hok ⟨hholds, e, he, hne⟩
        · rw [List.mem_singleton.1 he]
    · have ht : Function.update st.phase txn (.blocked rid m) t = .blocked r mode := ht
      rw [Function.update_of_ne heq] at ht
      split
      · next hr => exact (hr ▸ h t r mode ht).concat (Ne.symm heq)
      · exact h t r mode ht
  | woken hblock hholds =>
    obtain ⟨-, ht⟩ := hawake (fun _ _ hp => by cases hp) ht
    exact h t r mode ht
  | @timedOut txn rid m hblock hholds =>
    obtain ⟨-, ht⟩ := hawake (fun _ _ hp => by cases hp) ht
    show Together ((st.setEntry rid _).entry r).waitQueue t
    rw [hset]
    split
    · next hr => exact (hr ▸ h t r mode ht).sublist List.filter_sublist
    · exact h t r mode ht
  | unlocking hrun =>
    obtain ⟨-, ht⟩ := hawake (fun _ _ hp => by cases hp) ht
    exact h t r mode ht
  | unlocked hphase =>
    obtain ⟨-, ht⟩ := hawake (fun _ _ hp => by cases hp) ht
    exact h t r mode ht
  | @released txn rid rest hphase =>
    obtain ⟨-, ht⟩ := hawake (fun _ _ hp => by cases hp) ht
    show Together ((st.releaseOne txn rid).entry r).waitQueue t
    rw [entry_releaseOne]
    split
    · next hr => exact (hr ▸ h t r mode ht).sublist (grantWalk_sublist _ _)
    · exact h t r mode ht

theorem Grouped.serves (h : Grouped st) (ha : ∀ r, Alone (st.entry r).holders) (hs : Does st act st') :
    Serves st st' := by
  intro rid t ht hgot e he
  have hnot : t ∉ (st.entry rid).holders := AList.lookup_eq_none.1 ht
  refine mem_iff_lookup.1 (hs.fifo ha hnot (mem_iff_lookup.2 hgot) e ?_)
  unfold ahead at he
  split at he
  · next r mode hphase =>
    split at he
    · next hr => exact (hr ▸ h t r mode hphase).mem_front he
    · exact he
  · exact he

/-- **The lock table is safe** in every run in which nobody overtakes: in every state an
Exclusive holder is the only one, and a step that gives a row to a transaction leaves
none of the requests in front of that of its call waiting. -/
theorem lock_table_safe {acts : List Act} (h : Follows step InTurn new acts) :
    (∀ rid t, (after step new acts).mode rid t = some .exclusive →
      ∀ u, ((after step new acts).mode rid u).isSome → u = t) ∧
    ∀ act st', step (after step new acts) act = some st' → Serves (after step new acts) st' := by
  have hreach := reachable_after acts (h.mono fun _ _ _ => trivial)
  have hgrouped : Grouped (after step new acts) :=
    h.invariant (fun hg hok hs => hg.step (step_does hs) hok) nofun
  refine ⟨fun rid t ht u hu => hreach.alone rid t ht u (mem_iff_lookup.2 hu), fun act st' hs => ?_⟩
  exact hgrouped.serves hreach.alone (step_does hs)

/-- Two readers queue behind a writer that is about to leave. -/
def readersWait : List Act :=
  [.lock 1 (0, 0) .exclusive, .lock 2 (0, 0) .shared, .lock 3 (0, 0) .shared, .unlockAll 1 [(0, 0)]]

theorem lock_table_safe_readersWait :
    ((after step new (readersWait ++ [.release 1])).mode (0, 0) 2).isSome = true := by
  have hturn : Follows step InTurn new readersWait := by decide
  exact (lock_table_safe hturn).2 (.release 1) _ rfl (0, 0) 3 (by decide) (by decide)
    ⟨2, .shared⟩ (by decide)

/-- A reader asks for Exclusive next to another one, which leaves a request in the queue,
and gives the row up. It asks again behind a third transaction. -/
def asksAgain : List Act :=
  [.lock 2 (0, 0) .shared, .lock 1 (0, 0) .shared, .lock 1 (0, 0) .exclusive,
    .unlockAll 1 [(0, 0)], .release 1, .release 1, .lock 3 (0, 0) .shared,
    .lock 1 (0, 0) .exclusive, .unlockAll 2 [(0, 0)]]

/-- The other reader leaves, and the call is answered by the old request. -/
theorem stale_request_overtakes :
    Follows step (fun _ _ => True) new (asksAgain ++ [.release 2]) ∧
      ¬ Serves (after step new asksAgain) (after step new (asksAgain ++ [.release 2])) := by
  refine ⟨by decide, fun h => ?_⟩
  exact absurd (h (0, 0) 1 (by decide) (by decide) ⟨3, .shared⟩ (by decide)) (by decide)

end LockManager

end Ccdb.Locks
