import Ccdb.Txn.Visibility
import Mathlib.Data.Fintype.Basic

/-!
# Ccdb — interleavings of the transaction manager

`begin`, `commit`, `abort` and `status` take the id counter, the table's lock
and the commit log's lock one after the other. Here each of these is a step of
its own, and any number of threads take their steps in any order. A snapshot is
one step: it reads the table and the counter under the table's lock.

Outside the lock order two windows are open. A transaction that is being
committed is in neither place between its removal from the table and the write
to the commit log, and `status` calls it aborted, for good in that thread. A
transaction whose id is allocated but not yet in the table is missing from the
active set of a snapshot taken then.

Main results:

* `Sound.step`, `Settled.step` — while no lookup falls into a window and no
  commit races an abort of the same transaction, an answer stays right.
* `status_final` — every answer and every memoised outcome is the
  transaction's outcome.
* `isVisible_stable` — what a snapshot sees does not change.
-/

namespace Ccdb

open TransactionManager

/-! ## Threads and their steps -/

namespace TransactionManager

/-- `next_txn_id.fetch_add(1)`. -/
def allocateId (tm : TransactionManager) : TransactionManager :=
  { tm with nextTxnId := tm.nextTxnId + 1 }

/-- `att.insert(id, 0)`. -/
def insertAtt (tm : TransactionManager) (id : Nat) : TransactionManager :=
  { tm with att := (id, 0) :: tm.att.filter fun e => e.1 ≠ id }

end TransactionManager

/-- Where a thread is in its call. -/
inductive Pc where
  | idle
  -- `begin`: the id is taken, not in the table yet
  | allocated (id : Nat)
  -- `commit` and `abort`: out of the table, the commit log not read yet
  | removed (id : Nat) (s : TxnStatus)
  -- `commit` and `abort`: the commit log said in progress
  | deciding (id : Nat) (s : TxnStatus)
  -- `status`: the memo has nothing
  | missed (id : Nat)
  -- `status`: the commit log said in progress
  | undecided (id : Nat)
  -- `status`: a terminal outcome, not memoised yet
  | answering (id : Nat) (s : TxnStatus)
deriving DecidableEq, Repr

/-- The transaction a thread is committing or aborting. -/
def Pc.decides : Pc → Option (Nat × TxnStatus)
  | .removed id s => some (id, s)
  | .deciding id s => some (id, s)
  | _ => none

/-- The first step of a call, or the next one of the call under way. -/
inductive Act where
  | begin
  | commit (id : Nat)
  | abort (id : Nat)
  | status (id : Nat)
  | next
deriving DecidableEq, Repr

/-- The manager shared by `n` threads. `answers` lists the terminal outcomes
`status` has returned. A snapshot changes nothing and is read off the state it
is taken in. -/
structure Shared (n : Nat) where
  tm : TransactionManager
  caches : Fin n → StatusCache
  pcs : Fin n → Pc
  answers : List (Nat × TxnStatus)

namespace Shared

variable {n : Nat}

/-- `TransactionManager::new` over an empty commit log, no thread in a call. -/
def new (n : Nat) : Shared n :=
  ⟨⟨1, [], fun _ => .inProgress⟩, fun _ => [], fun _ => .idle, []⟩

def goto (st : Shared n) (t : Fin n) (pc : Pc) : Shared n :=
  { st with pcs := Function.update st.pcs t pc }

/-- The first step of `commit` and of `abort`. -/
def remove (st : Shared n) (t : Fin n) (id : Nat) (s : TxnStatus) : Shared n :=
  { st.goto t (.removed id s) with tm := st.tm.removeAtt id }

/-- The first step of `status`. -/
def lookup (st : Shared n) (t : Fin n) (id : Nat) : Shared n :=
  match (st.caches t).find? fun e => e.1 = id with
  | some e => { st with answers := (id, e.2) :: st.answers }
  | none => st.goto t (.missed id)

/-- The last step of `status`: memoise and return. -/
def store (st : Shared n) (t : Fin n) (id : Nat) (s : TxnStatus) : Shared n :=
  { st.goto t .idle with
    caches := Function.update st.caches t
      ((id, s) :: if CACHE_LIMIT ≤ (st.caches t).length then [] else st.caches t)
    answers := (id, s) :: st.answers }

/-- The next step of the call a thread is in. -/
def next (st : Shared n) (t : Fin n) : Pc → Option (Shared n)
  | .idle => none
  | .allocated id => some { st.goto t .idle with tm := st.tm.insertAtt id }
  | .removed id s =>
    match st.tm.clog id with
    | .inProgress => some (st.goto t (.deciding id s))
    | _ => some (st.goto t .idle)
  | .deciding id s => some { st.goto t .idle with tm := st.tm.setClog id s }
  | .missed id =>
    match st.tm.clog id with
    | .inProgress => some (st.goto t (.undecided id))
    | s => some (st.goto t (.answering id s))
  | .undecided id =>
    if id ∈ st.tm.activeIds then some (st.goto t .idle)
    else some (st.goto t (.answering id .aborted))
  | .answering id s => some (st.store t id s)

/-- One atomic step of one thread. Calls are made on begun ids. -/
def step (st : Shared n) (l : Fin n × Act) : Option (Shared n) :=
  match l.2 with
  | .next => st.next l.1 (st.pcs l.1)
  | a =>
    if st.pcs l.1 ≠ .idle then none
    else
      match a with
      | .begin => some { st.goto l.1 (.allocated st.tm.nextTxnId) with tm := st.tm.allocateId }
      | .commit id => if st.tm.Begun id then some (st.remove l.1 id .committed) else none
      | .abort id => if st.tm.Begun id then some (st.remove l.1 id .aborted) else none
      | .status id => if st.tm.Begun id then some (st.lookup l.1 id) else none
      | .next => none

/-- Some thread is inside a `commit` or an `abort` of `x`. -/
def Deciding (st : Shared n) (x : Nat) (s : TxnStatus) : Prop :=
  ∃ t, (st.pcs t).decides = some (x, s)

instance (st : Shared n) (x : Nat) (s : TxnStatus) : Decidable (st.Deciding x s) :=
  inferInstanceAs (Decidable (∃ _, _))

/-- The state in which a step is taken is clear of the windows of `status`: a
transaction is not committed while another thread aborts it, or the other way
round, and `status` reaches the table only for a transaction that is in it,
aborted or being aborted. -/
def Clear (st : Shared n) (l : Fin n × Act) : Prop :=
  match l.2 with
  | .commit id => ¬ st.Deciding id .aborted
  | .abort id => ¬ st.Deciding id .committed
  | .next =>
    match st.pcs l.1 with
    | .undecided id =>
      id ∈ st.tm.activeIds ∨ st.tm.clog id = .aborted ∨
        (st.tm.clog id = .inProgress ∧ st.Deciding id .aborted)
    | _ => True
  | _ => True

instance (st : Shared n) (l : Fin n × Act) : Decidable (st.Clear l) := by
  unfold Clear
  split
  · infer_instance
  · infer_instance
  · split <;> infer_instance
  · infer_instance

/-- The state in which a snapshot is taken is clear of the window of `begin` and
of that of `commit`: every begun transaction is in the table, decided or being
aborted. -/
def Complete (st : Shared n) : Prop :=
  ∀ x < st.tm.nextTxnId, 0 < x → x ∉ st.tm.activeIds →
    st.tm.clog x ≠ .inProgress ∨ st.Deciding x .aborted

instance (st : Shared n) : Decidable st.Complete :=
  inferInstanceAs (Decidable (∀ x < st.tm.nextTxnId, _ → _ → _))

/-! ## What a step can do -/

/-- The steps, case by case. -/
inductive Move (st : Shared n) (t : Fin n) : Act → Shared n → Prop
  | begin (hpc : st.pcs t = .idle) :
      Move st t .begin { st.goto t (.allocated st.tm.nextTxnId) with tm := st.tm.allocateId }
  | commit {id : Nat} (hpc : st.pcs t = .idle) :
      Move st t (.commit id) (st.remove t id .committed)
  | abort {id : Nat} (hpc : st.pcs t = .idle) :
      Move st t (.abort id) (st.remove t id .aborted)
  | hit {id : Nat} {s : TxnStatus} (hpc : st.pcs t = .idle) (hmem : (id, s) ∈ st.caches t) :
      Move st t (.status id) { st with answers := (id, s) :: st.answers }
  | miss {id : Nat} (hpc : st.pcs t = .idle) : Move st t (.status id) (st.goto t (.missed id))
  | insert {id : Nat} (hpc : st.pcs t = .allocated id) :
      Move st t .next { st.goto t .idle with tm := st.tm.insertAtt id }
  | read {id : Nat} {s : TxnStatus} (hpc : st.pcs t = .removed id s)
      (hlog : st.tm.clog id = .inProgress) : Move st t .next (st.goto t (.deciding id s))
  | skip {id : Nat} {s : TxnStatus} (hpc : st.pcs t = .removed id s)
      (hlog : st.tm.clog id ≠ .inProgress) : Move st t .next (st.goto t .idle)
  | write {id : Nat} {s : TxnStatus} (hpc : st.pcs t = .deciding id s) :
      Move st t .next { st.goto t .idle with tm := st.tm.setClog id s }
  | unlogged {id : Nat} (hpc : st.pcs t = .missed id) (hlog : st.tm.clog id = .inProgress) :
      Move st t .next (st.goto t (.undecided id))
  | logged {id : Nat} (hpc : st.pcs t = .missed id) (hlog : st.tm.clog id ≠ .inProgress) :
      Move st t .next (st.goto t (.answering id (st.tm.clog id)))
  | listed {id : Nat} (hpc : st.pcs t = .undecided id) (hmem : id ∈ st.tm.activeIds) :
      Move st t .next (st.goto t .idle)
  | unlisted {id : Nat} (hpc : st.pcs t = .undecided id) (hout : id ∉ st.tm.activeIds) :
      Move st t .next (st.goto t (.answering id .aborted))
  | store {id : Nat} {s : TxnStatus} (hpc : st.pcs t = .answering id s) :
      Move st t .next (st.store t id s)

variable {st st' : Shared n} {t : Fin n} {a : Act} {x : Nat} {s : TxnStatus}

theorem next_move (h : st.next t (st.pcs t) = some st') : Move st t .next st' := by
  cases hpc : st.pcs t with
  | idle =>
    rw [hpc] at h
    cases h
  | allocated id =>
    rw [hpc] at h
    cases h
    exact .insert hpc
  | removed id s =>
    simp only [hpc, next] at h
    split at h
    · next hlog =>
      cases h
      exact .read hpc hlog
    · next hlog =>
      cases h
      exact .skip hpc hlog
  | deciding id s =>
    rw [hpc] at h
    cases h
    exact .write hpc
  | missed id =>
    simp only [hpc, next] at h
    split at h
    · next hlog =>
      cases h
      exact .unlogged hpc hlog
    · next hlog =>
      cases h
      exact .logged hpc hlog
  | undecided id =>
    simp only [hpc, next] at h
    split at h
    · next hmem =>
      cases h
      exact .listed hpc hmem
    · next hout =>
      cases h
      exact .unlisted hpc hout
  | answering id s =>
    rw [hpc] at h
    cases h
    exact .store hpc

theorem step_move (h : st.step (t, a) = some st') : Move st t a st' := by
  by_cases hnext : a = .next
  · subst hnext
    exact next_move h
  · by_cases hpc : st.pcs t = .idle
    · cases a with
      | next => exact absurd rfl hnext
      | begin =>
        simp only [step, hpc, ne_eq, not_true_eq_false, if_false] at h
        cases h
        exact .begin hpc
      | commit id =>
        simp only [step, hpc, ne_eq, not_true_eq_false, if_false, Option.ite_none_right_eq_some] at h
        cases h.2
        exact .commit hpc
      | abort id =>
        simp only [step, hpc, ne_eq, not_true_eq_false, if_false, Option.ite_none_right_eq_some] at h
        cases h.2
        exact .abort hpc
      | status id =>
        simp only [step, hpc, ne_eq, not_true_eq_false, if_false, Option.ite_none_right_eq_some] at h
        cases h.2
        unfold lookup
        split
        · next e he =>
          -- the memo is a map: the entry found is the one of `id`
          have hid : e.1 = id := by simpa using List.find?_some he
          subst hid
          exact .hit hpc (List.mem_of_find?_eq_some he)
        · exact .miss hpc
    · cases a <;> simp [step, hpc] at h hnext

/-- What a step does to the commit log and to the thread's place: either the log
is left alone and a decision under way stays under way unless the log has one,
or the thread writes its decision. -/
theorem Move.effect (m : Move st t a st') : ∃ pc, st'.pcs = Function.update st.pcs t pc ∧
    ((st'.tm.clog = st.tm.clog ∧ ∀ x s, (st.pcs t).decides = some (x, s) →
        pc.decides = some (x, s) ∨ st.tm.clog x ≠ .inProgress) ∨
      ∃ id s, st.pcs t = .deciding id s ∧ pc = .idle ∧
        st'.tm.clog = Function.update st.tm.clog id s) := by
  cases m with
  | begin hpc | commit hpc | abort hpc => exact ⟨_, rfl, Or.inl ⟨rfl, by simp [hpc, Pc.decides]⟩⟩
  | hit hpc hmem =>
    exact ⟨st.pcs t, (Function.update_eq_self t st.pcs).symm, Or.inl ⟨rfl, fun _ _ h => Or.inl h⟩⟩
  | miss hpc => exact ⟨_, rfl, Or.inl ⟨rfl, by simp [hpc, Pc.decides]⟩⟩
  | insert hpc => exact ⟨_, rfl, Or.inl ⟨rfl, by simp [hpc, Pc.decides]⟩⟩
  | read hpc hlog =>
    refine ⟨_, rfl, Or.inl ⟨rfl, fun x s h => Or.inl ?_⟩⟩
    rw [hpc] at h
    exact h
  | skip hpc hlog =>
    refine ⟨_, rfl, Or.inl ⟨rfl, fun x s h => Or.inr ?_⟩⟩
    rw [hpc] at h
    cases h
    exact hlog
  | write hpc => exact ⟨_, rfl, Or.inr ⟨_, _, hpc, rfl, rfl⟩⟩
  | unlogged hpc hlog | logged hpc hlog | listed hpc hmem | unlisted hpc hout
  | store hpc => exact ⟨_, rfl, Or.inl ⟨rfl, by simp [hpc, Pc.decides]⟩⟩

/-! ## Settled outcomes -/

/-- The outcome of `x` cannot be anything but `s` any more: the commit log has
it, or it is an abort under way. -/
def Settled (st : Shared n) (x : Nat) (s : TxnStatus) : Prop :=
  s ≠ .inProgress ∧
    (st.tm.clog x = s ∨ (s = .aborted ∧ st.tm.clog x = .inProgress ∧ st.Deciding x .aborted))

/-- What a thread in a call relies on. -/
def PcOk (st : Shared n) : Pc → Prop
  | .removed _ s => s ≠ .inProgress
  | .deciding id s => s ≠ .inProgress ∧ (st.tm.clog id = .inProgress ∨ st.tm.clog id = s)
  | .answering id s => st.Settled id s
  | _ => True

structure Sound (st : Shared n) : Prop where
  pcs : ∀ t, st.PcOk (st.pcs t)
  /-- No transaction is committed and aborted at the same time. -/
  apart : ∀ {x s s'}, st.Deciding x s → st.Deciding x s' → s = s'
  answers : ∀ e ∈ st.answers, st.Settled e.1 e.2
  caches : ∀ t, ∀ e ∈ st.caches t, st.Settled e.1 e.2

theorem Settled.unique {s' : TxnStatus} (h : st.Settled x s) (h' : st.Settled x s') : s = s' := by
  obtain ⟨hne, h⟩ := h
  obtain ⟨hne', h'⟩ := h'
  rcases h with h | ⟨hs, hp, -⟩
  · rcases h' with h' | ⟨hs', hp', -⟩
    · rw [← h, ← h']
    · rw [hp'] at h
      exact absurd h.symm hne
  · rcases h' with h' | ⟨hs', -, -⟩
    · rw [hp] at h'
      exact absurd h'.symm hne'
    · rw [hs, hs']

theorem Settled.clog_eq (h : st.Settled x s) (hdec : st.tm.clog x ≠ .inProgress) :
    st.tm.clog x = s := by
  rcases h.2 with h | ⟨-, hp, -⟩
  · exact h
  · exact absurd hp hdec

theorem deciding_update {pc : Pc} (hp : st'.pcs = Function.update st.pcs t pc) :
    st'.Deciding x s → st.Deciding x s ∨ pc.decides = some (x, s) := by
  rintro ⟨u, hu⟩
  rw [hp] at hu
  by_cases hut : u = t
  · subst hut
    rw [Function.update_self] at hu
    exact Or.inr hu
  · rw [Function.update_of_ne hut] at hu
    exact Or.inl ⟨u, hu⟩

/-- A decision under way stays so unless its own thread leaves it. -/
theorem Deciding.update {pc : Pc} (h : st.Deciding x s)
    (hp : st'.pcs = Function.update st.pcs t pc)
    (hstay : (st.pcs t).decides = some (x, s) → pc.decides = some (x, s)) :
    st'.Deciding x s := by
  obtain ⟨u, hu⟩ := h
  by_cases hut : u = t
  · subst hut
    exact ⟨u, by rw [hp, Function.update_self]; exact hstay hu⟩
  · exact ⟨u, by rw [hp, Function.update_of_ne hut]; exact hu⟩

/-- **One step keeps an outcome settled.** -/
theorem Settled.step (h : st.Settled x s) (hsound : st.Sound) (m : Move st t a st') :
    st'.Settled x s := by
  obtain ⟨hne, h⟩ := h
  refine ⟨hne, ?_⟩
  obtain ⟨pc, hp, ⟨hclog, hstay⟩ | ⟨id, d, hpc, rfl, hclog⟩⟩ := m.effect
  · rw [hclog]
    rcases h with h | ⟨hs, hprog, hdec⟩
    · exact Or.inl h
    · refine Or.inr ⟨hs, hprog, hdec.update hp fun h => ?_⟩
      exact (hstay x _ h).resolve_right fun hlog => hlog hprog
  · rw [hclog]
    have hok := hsound.pcs t
    rw [hpc] at hok
    by_cases hx : x = id
    · -- the log is written for `x` itself: with the outcome it already had, or
      -- with the abort that was under way
      subst hx
      rw [Function.update_self]
      refine Or.inl ?_
      rcases h with h | ⟨hs, -, hdec⟩
      · rcases hok.2 with hprog | heq
        · exact absurd (h.symm.trans hprog) hne
        · rw [← heq, h]
      · rw [hs]
        exact hsound.apart ⟨t, by rw [hpc]; rfl⟩ hdec
    · rw [Function.update_of_ne hx]
      rcases h with h | ⟨hs, hprog, hdec⟩
      · exact Or.inl h
      · refine Or.inr ⟨hs, hprog, hdec.update hp fun h => ?_⟩
        rw [hpc] at h
        cases h
        exact absurd rfl hx

/-- The threads that do not move keep what they rely on. -/
theorem PcOk.step {u : Fin n} (hsound : st.Sound) (m : Move st t a st') :
    st'.PcOk (st.pcs u) := by
  have hok := hsound.pcs u
  cases hpu : st.pcs u with
  | removed id d =>
    rw [hpu] at hok
    exact hok
  | deciding id d =>
    rw [hpu] at hok
    refine ⟨hok.1, ?_⟩
    obtain ⟨pc, hp, ⟨hclog, -⟩ | ⟨id', d', hpc, -, hclog⟩⟩ := m.effect
    · rw [hclog]
      exact hok.2
    · rw [hclog]
      by_cases hid : id = id'
      · -- another thread decides the same transaction: with the same outcome
        subst hid
        rw [Function.update_self]
        exact Or.inr (hsound.apart ⟨t, by rw [hpc]; rfl⟩ ⟨u, by rw [hpu]; rfl⟩)
      · rw [Function.update_of_ne hid]
        exact hok.2
  | answering id d =>
    rw [hpu] at hok
    exact Settled.step hok hsound m
  | idle => trivial
  | allocated id => trivial
  | missed id => trivial
  | undecided id => trivial

theorem PcOk.of_update {pc : Pc} (hp : st'.pcs = Function.update st.pcs t pc) (h : st'.PcOk pc) :
    st'.PcOk (st'.pcs t) := by
  rw [hp, Function.update_self]
  exact h

/-- What a thread relies on after its own step. -/
theorem PcOk.own (hsound : st.Sound) (hclear : st.Clear (t, a)) (m : Move st t a st') :
    st'.PcOk (st'.pcs t) := by
  have hok := hsound.pcs t
  cases m with
  | begin hpc => exact of_update rfl trivial
  | commit hpc => exact of_update rfl TxnStatus.noConfusion
  | abort hpc => exact of_update rfl TxnStatus.noConfusion
  | hit hpc hmem =>
    show PcOk _ (st.pcs t)
    rw [hpc]
    trivial
  | miss hpc => exact of_update rfl trivial
  | insert hpc => exact of_update rfl trivial
  | read hpc hlog =>
    rw [hpc] at hok
    exact of_update rfl ⟨hok, Or.inl hlog⟩
  | skip hpc hlog | write hpc | unlogged hpc hlog => exact of_update rfl trivial
  | logged hpc hlog => exact of_update rfl ⟨hlog, Or.inl rfl⟩
  | listed hpc hmem => exact of_update rfl trivial
  | @unlisted id hpc hout =>
    -- outside both windows: aborted, or being aborted
    have hclear : id ∈ st.tm.activeIds ∨ st.tm.clog id = .aborted ∨
        (st.tm.clog id = .inProgress ∧ st.Deciding id .aborted) := by
      simpa only [Clear, hpc] using hclear
    refine of_update rfl ⟨TxnStatus.noConfusion, ?_⟩
    rcases hclear.resolve_left hout with hlog | ⟨hprog, hdec⟩
    · exact Or.inl hlog
    · refine Or.inr ⟨rfl, hprog, hdec.update rfl fun h => ?_⟩
      rw [hpc] at h
      cases h
  | store hpc => exact of_update rfl trivial

theorem Sound.kind (hsound : st.Sound) (h : st.Deciding x s) : s ≠ .inProgress := by
  obtain ⟨u, hu⟩ := h
  have hok := hsound.pcs u
  cases hpu : st.pcs u with
  | removed id d =>
    rw [hpu] at hu hok
    cases hu
    exact hok
  | deciding id d =>
    rw [hpu] at hu hok
    cases hu
    exact hok.1
  | idle | allocated id | missed id | undecided id | answering id d =>
    rw [hpu] at hu
    cases hu

/-- A decision that starts is the only one on its transaction, or agrees with
those under way. -/
theorem Sound.apart_start {id : Nat} {d s' : TxnStatus} {pc : Pc} (hsound : st.Sound)
    (hp : st'.pcs = Function.update st.pcs t pc) (hpc : pc.decides = some (id, d))
    (hother : ∀ s, st.Deciding id s → s = d)
    (h : st'.Deciding x s) (h' : st'.Deciding x s') : s = s' := by
  have hnew : ∀ {r}, pc.decides = some (x, r) → x = id ∧ r = d := by
    intro r hr
    rw [hpc] at hr
    cases hr
    exact ⟨rfl, rfl⟩
  rcases deciding_update hp h with h | h
  · rcases deciding_update hp h' with h' | h'
    · exact hsound.apart h h'
    · obtain ⟨rfl, rfl⟩ := hnew h'
      exact hother s h
  · obtain ⟨rfl, rfl⟩ := hnew h
    rcases deciding_update hp h' with h' | h'
    · exact (hother s' h').symm
    · exact (hnew h').2.symm

/-- A step that starts no decision leaves those under way apart. -/
theorem Sound.apart_quiet {s' : TxnStatus} {pc : Pc} (hsound : st.Sound)
    (hp : st'.pcs = Function.update st.pcs t pc)
    (hpc : pc.decides = none ∨ pc.decides = (st.pcs t).decides)
    (h : st'.Deciding x s) (h' : st'.Deciding x s') : s = s' := by
  have hold : ∀ {r}, st'.Deciding x r → st.Deciding x r := by
    intro r hr
    rcases deciding_update hp hr with hr | hr
    · exact hr
    · rcases hpc with hnone | hsame
      · rw [hnone] at hr
        cases hr
      · exact ⟨t, hsame ▸ hr⟩
  exact hsound.apart (hold h) (hold h')

/-- No step starts a second, different decision. -/
theorem Sound.apart_step {s' : TxnStatus} (hsound : st.Sound) (hclear : st.Clear (t, a))
    (m : Move st t a st') (h : st'.Deciding x s) (h' : st'.Deciding x s') : s = s' := by
  cases m with
  | begin hpc => exact hsound.apart_quiet rfl (Or.inl rfl) h h'
  | @commit id hpc =>
    refine hsound.apart_start rfl rfl (fun r hr => ?_) h h'
    cases r with
    | inProgress => exact absurd rfl (hsound.kind hr)
    | committed => rfl
    | aborted => exact absurd hr hclear
  | @abort id hpc =>
    refine hsound.apart_start rfl rfl (fun r hr => ?_) h h'
    cases r with
    | inProgress => exact absurd rfl (hsound.kind hr)
    | committed => exact absurd hr hclear
    | aborted => rfl
  | hit hpc hmem => exact hsound.apart h h'
  | miss hpc => exact hsound.apart_quiet rfl (Or.inl rfl) h h'
  | insert hpc => exact hsound.apart_quiet rfl (Or.inl rfl) h h'
  | read hpc hlog => exact hsound.apart_quiet rfl (Or.inr (by rw [hpc]; rfl)) h h'
  | skip hpc hlog | write hpc | unlogged hpc hlog | logged hpc hlog | listed hpc hmem
  | unlisted hpc hout | store hpc => exact hsound.apart_quiet rfl (Or.inl rfl) h h'

/-- What a step adds to the answers and the memos. -/
theorem Move.adds (m : Move st t a st') :
    (∀ e ∈ st'.answers, e ∈ st.answers ∨ e ∈ st.caches t ∨ st.pcs t = .answering e.1 e.2) ∧
    (∀ u, ∀ e ∈ st'.caches u, e ∈ st.caches u ∨ st.pcs t = .answering e.1 e.2) := by
  cases m with
  | hit hpc hmem =>
    refine ⟨fun e he => ?_, fun _ _ he => Or.inl he⟩
    rcases List.mem_cons.1 he with rfl | he
    · exact Or.inr (Or.inl hmem)
    · exact Or.inl he
  | @store id s hpc =>
    refine ⟨fun e he => ?_, fun u e he => ?_⟩
    · rcases List.mem_cons.1 he with rfl | he
      · exact Or.inr (Or.inr hpc)
      · exact Or.inl he
    · have he : e ∈ Function.update st.caches t _ u := he
      by_cases hut : u = t
      · subst hut
        rw [Function.update_self] at he
        rcases List.mem_cons.1 he with rfl | he
        · exact Or.inr hpc
        · -- the memo was kept, or dropped whole
          split at he
          · cases he
          · exact Or.inl he
      · rw [Function.update_of_ne hut] at he
        exact Or.inl he
  | _ => exact ⟨fun _ he => Or.inl he, fun _ _ he => Or.inl he⟩

/-- **One step keeps the registry sound.** -/
theorem Sound.step (hsound : st.Sound) (hclear : st.Clear (t, a)) (m : Move st t a st') :
    st'.Sound := by
  have hkeep : ∀ {x s}, st.Settled x s → st'.Settled x s := fun h => h.step hsound m
  have hown : ∀ {x s}, st.pcs t = .answering x s → st.Settled x s := by
    intro x s hpc
    have hok := hsound.pcs t
    rw [hpc] at hok
    exact hok
  obtain ⟨hans, hcache⟩ := m.adds
  refine ⟨fun u => ?_, fun h h' => hsound.apart_step hclear m h h', fun e he => ?_,
    fun u e he => ?_⟩
  · by_cases hut : u = t
    · subst hut
      exact PcOk.own hsound hclear m
    · obtain ⟨pc, hp, -⟩ := m.effect
      rw [hp, Function.update_of_ne hut]
      exact PcOk.step hsound m
  · rcases hans e he with he | he | he
    · exact hkeep (hsound.answers e he)
    · exact hkeep (hsound.caches t e he)
    · exact hkeep (hown he)
  · rcases hcache u e he with he | he
    · exact hkeep (hsound.caches u e he)
    · exact hkeep (hown he)

theorem Sound.new : (Shared.new n).Sound := by
  refine ⟨fun _ => trivial, ?_, ?_, ?_⟩
  · rintro x s s' ⟨t, h⟩
    cases h
  · intro e he
    cases he
  · intro t e he
    cases he

/-- Over a run, what is settled stays settled and the registry stays sound. -/
theorem Sound.run {ls : List (Fin n × Act)} (hsound : st.Sound)
    (h : Follows Shared.step Clear st ls) :
    (after Shared.step st ls).Sound ∧
      ∀ x s, st.Settled x s → (after Shared.step st ls).Settled x s := by
  refine h.invariant (I := fun st' => st'.Sound ∧ ∀ x s, st.Settled x s → st'.Settled x s) ?_
    ⟨hsound, fun _ _ h => h⟩
  rintro st₁ ⟨t, a⟩ st₂ ⟨hs, hkeep⟩ hclear hstep
  have m := step_move hstep
  exact ⟨hs.step hclear m, fun x s h => (hkeep x s h).step hs m⟩

end Shared

/-! ## Status answers -/

/-- **Status answers are final.** In every run whose steps are clear of the
windows: a terminal answer that was given, and a memoised one, is the outcome in
the commit log, from the moment there is one. -/
theorem status_final (n : Nat) (ls : List (Fin n × Act))
    (hrun : Follows Shared.step Shared.Clear (Shared.new n) ls) :
    (∀ e ∈ (after Shared.step (Shared.new n) ls).answers,
      (after Shared.step (Shared.new n) ls).tm.clog e.1 ≠ .inProgress →
        (after Shared.step (Shared.new n) ls).tm.clog e.1 = e.2) ∧
    (∀ t, ∀ e ∈ (after Shared.step (Shared.new n) ls).caches t,
      (after Shared.step (Shared.new n) ls).tm.clog e.1 ≠ .inProgress →
        (after Shared.step (Shared.new n) ls).tm.clog e.1 = e.2) := by
  obtain ⟨hsound, -⟩ := Shared.Sound.new.run hrun
  exact ⟨fun e he => (hsound.answers e he).clog_eq, fun t e he => (hsound.caches t e he).clog_eq⟩

/-- Thread 1 asks for a transaction that thread 0 is aborting. -/
def lookupDuringAbort : List (Fin 2 × Act) :=
  haveI := neZero_two
  [(0, .begin), (0, .next), (0, .abort 1), (1, .status 1), (1, .next), (1, .next), (1, .next),
    (0, .next), (0, .next)]

theorem status_final_during_abort :
    (after Shared.step (Shared.new 2) lookupDuringAbort).answers = [(1, .aborted)] ∧
    (∀ e ∈ (after Shared.step (Shared.new 2) lookupDuringAbort).answers,
      (after Shared.step (Shared.new 2) lookupDuringAbort).tm.clog e.1 ≠ .inProgress →
        (after Shared.step (Shared.new 2) lookupDuringAbort).tm.clog e.1 = e.2) :=
  ⟨by decide, (status_final 2 lookupDuringAbort (by decide)).1⟩

/-- Thread 1 asks for a transaction between the two halves of its commit, and
again afterwards. -/
def lookupDuringCommit : List (Fin 2 × Act) :=
  haveI := neZero_two
  [(0, .begin), (0, .next), (0, .commit 1), (1, .status 1), (1, .next), (1, .next), (1, .next),
    (0, .next), (0, .next), (1, .status 1)]

/-- Both answers are "aborted", the second out of the memo; the transaction is
committed. -/
theorem status_wrong_during_commit :
    ¬ ∀ (n : Nat) (ls : List (Fin n × Act)),
      Follows Shared.step (fun _ _ => True) (Shared.new n) ls →
        ∀ e ∈ (after Shared.step (Shared.new n) ls).answers,
          (after Shared.step (Shared.new n) ls).tm.clog e.1 ≠ .inProgress →
            (after Shared.step (Shared.new n) ls).tm.clog e.1 = e.2 := by
  intro h
  have hans : (1, .aborted) ∈ (after Shared.step (Shared.new 2) lookupDuringCommit).answers := by
    decide
  have hlog : (after Shared.step (Shared.new 2) lookupDuringCommit).tm.clog 1 = .committed := by
    decide
  have := h 2 lookupDuringCommit (by decide) _ hans (by rw [hlog]; decide)
  rw [hlog] at this
  cases this

/-! ## Snapshots -/

section Snapshots

variable {n : Nat} {st st' : Shared n} {snap : Snapshot}

/-- A snapshot taken where every begun transaction is accounted for asks only
for settled ones. -/
theorem Shared.Complete.settled (h : st.Complete) {txnId x : Nat}
    (hx : (st.tm.snapshot txnId).Asks x) : ∃ s, st.Settled x s := by
  by_cases hprog : st.tm.clog x = .inProgress
  · have hdec := (h x hx.2.1 hx.1 hx.2.2).resolve_left fun hne => hne hprog
    exact ⟨.aborted, TxnStatus.noConfusion, Or.inr ⟨rfl, hprog, hdec⟩⟩
  · exact ⟨_, hprog, Or.inl rfl⟩

/-- A settled transaction is looked up as committed exactly when it is to be. -/
theorem Shared.Settled.status_iff {x : Nat} {s : TxnStatus} (h : st.Settled x s) :
    st.tm.status x = .committed ↔ s = .committed := by
  unfold status
  rcases h.2 with hlog | ⟨hs, hprog, -⟩
  · rw [hlog]
    cases s with
    | inProgress => exact absurd rfl h.1
    | committed => simp
    | aborted => simp
  · rw [hprog, hs]
    dsimp only
    split <;> simp

theorem Shared.Sound.agrees (hsound : st.Sound) (u : Fin n)
    (hsettled : ∀ x, snap.Asks x → ∃ s, st.Settled x s) :
    st.tm.Agrees snap.Asks (st.caches u) := by
  intro x hx
  obtain ⟨s, hs⟩ := hsettled x hx
  rw [statusCached_fst]
  cases hf : (st.caches u).find? fun e => e.1 = x with
  | none => rfl
  | some e =>
    have hid : e.1 = x := by simpa using List.find?_some hf
    have he := hsound.caches u e (List.mem_of_find?_eq_some hf)
    rw [hid] at he
    show e.2 = .committed ↔ _
    rw [he.unique hs, hs.status_iff]

/-- The answer depends only on what the ids were settled to. -/
theorem isVisibleCached_of_settled {u : Fin n} {v : Fin n} {xmin xmax : Nat} (hsound : st.Sound)
    (hsound' : st'.Sound) (hsettled : ∀ x, snap.Asks x → ∃ s, st.Settled x s ∧ st'.Settled x s)
    (hmin : 0 < xmin) :
    (isVisibleCached xmin xmax snap st.tm (st.caches u)).1 =
      (isVisibleCached xmin xmax snap st'.tm (st'.caches v)).1 := by
  have hone : ∀ x, snap.Asks x → ∃ s, st.Settled x s := fun x hx =>
    (hsettled x hx).imp fun _ h => h.1
  have htwo : ∀ x, snap.Asks x → ∃ s, st'.Settled x s := fun x hx =>
    (hsettled x hx).imp fun _ h => h.2
  rw [isVisibleCached_eq (hsound.agrees u hone) hmin,
    isVisibleCached_eq (hsound'.agrees v htwo) hmin]
  have hsees : ∀ x, 0 < x → (Sees snap st.tm x ↔ Sees snap st'.tm x) := by
    intro x hx
    refine or_congr Iff.rfl (and_congr_right fun hlt => and_congr_right fun hact => ?_)
    obtain ⟨s, hs, hs'⟩ := hsettled x ⟨hx, hlt, hact⟩
    rw [hs.status_iff, hs'.status_iff]
  rw [Bool.eq_iff_iff, isVisible_iff, isVisible_iff]
  refine and_congr (hsees xmin hmin) (imp_congr_right fun hne => not_congr (hsees xmax ?_))
  exact Nat.pos_of_ne_zero hne

end Snapshots

/-- **Snapshots are stable.** In every run whose steps are clear of the windows
of `status`, a snapshot taken after `before`, in a state clear of those of `begin`
and `commit`, gives the same answer on a tuple header after `mid` and after
`later`, whichever threads ask. -/
theorem isVisible_stable (n : Nat) (before mid later : List (Fin n × Act)) (txnId : Nat)
    (u v : Fin n) (xmin xmax : Nat)
    (hrun : Follows Shared.step Shared.Clear (Shared.new n) (before ++ (mid ++ later)))
    (hsnap : (after Shared.step (Shared.new n) before).Complete) (hmin : 0 < xmin) :
    (isVisibleCached xmin xmax
        ((after Shared.step (Shared.new n) before).tm.snapshot txnId)
        (after Shared.step (Shared.new n) (before ++ mid)).tm
        ((after Shared.step (Shared.new n) (before ++ mid)).caches u)).1 =
      (isVisibleCached xmin xmax
        ((after Shared.step (Shared.new n) before).tm.snapshot txnId)
        (after Shared.step (Shared.new n) (before ++ (mid ++ later))).tm
        ((after Shared.step (Shared.new n) (before ++ (mid ++ later))).caches v)).1 := by
  obtain ⟨hbefore, hrest⟩ := follows_append.1 hrun
  obtain ⟨hmid, hlater⟩ := follows_append.1 hrest
  rw [hbefore.after_append, hbefore.after_append, hmid.after_append]
  obtain ⟨hs₀, -⟩ := Shared.Sound.new.run hbefore
  obtain ⟨hs₁, hkeep₁⟩ := hs₀.run hmid
  obtain ⟨hs₂, hkeep₂⟩ := hs₁.run hlater
  refine isVisibleCached_of_settled hs₁ hs₂ (fun x hx => ?_) hmin
  obtain ⟨s, hs⟩ := hsnap.settled hx
  exact ⟨s, hkeep₁ x s hs, hkeep₂ x s (hkeep₁ x s hs)⟩

/-- The snapshot of transaction 2 and a row of transaction 1, open when it was
taken and committed later. -/
theorem isVisible_stable_concurrent_commit :
    (isVisibleCached 1 0
        ((after Shared.step (Shared.new 2)
          [(0, .begin), (0, .next), (1, .begin), (1, .next)]).tm.snapshot 2)
        (after Shared.step (Shared.new 2)
          ([(0, .begin), (0, .next), (1, .begin), (1, .next)] ++ [])).tm
        ((after Shared.step (Shared.new 2)
          ([(0, .begin), (0, .next), (1, .begin), (1, .next)] ++ [])).caches 1)).1 =
      (isVisibleCached 1 0
        ((after Shared.step (Shared.new 2)
          [(0, .begin), (0, .next), (1, .begin), (1, .next)]).tm.snapshot 2)
        (after Shared.step (Shared.new 2)
          ([(0, .begin), (0, .next), (1, .begin), (1, .next)] ++
            ([] ++ [(0, .commit 1), (0, .next), (0, .next)]))).tm
        ((after Shared.step (Shared.new 2)
          ([(0, .begin), (0, .next), (1, .begin), (1, .next)] ++
            ([] ++ [(0, .commit 1), (0, .next), (0, .next)]))).caches 1)).1 := by
  have hstable := isVisible_stable 2 [(0, .begin), (0, .next), (1, .begin), (1, .next)] []
    [(0, .commit 1), (0, .next), (0, .next)] 2 1 1 1 0 (by decide) (by decide) (by decide)
  exact hstable

/-- Thread 0 has an id that is not in the table yet when thread 1, in
transaction 2, takes its snapshot. -/
def snapshotDuringBegin : List (Fin 2 × Act) :=
  haveI := neZero_two
  [(0, .begin), (1, .begin), (1, .next)]

/-- A row of transaction 1 appears under the snapshot of transaction 2 when 1
commits, though it was invisible while 1 was open. -/
theorem isVisible_changes_after_begin_race :
    ¬ ∀ (n : Nat) (before mid later : List (Fin n × Act)) (txnId : Nat) (u : Fin n)
      (xmin xmax : Nat),
      Follows Shared.step (fun _ _ => True) (Shared.new n) (before ++ (mid ++ later)) →
      0 < xmin → xmin ≠ txnId → xmax ≠ txnId →
      txnId ∈ (after Shared.step (Shared.new n) (before ++ (mid ++ later))).tm.activeIds →
      (isVisibleCached xmin xmax
          ((after Shared.step (Shared.new n) before).tm.snapshot txnId)
          (after Shared.step (Shared.new n) (before ++ mid)).tm
          ((after Shared.step (Shared.new n) (before ++ mid)).caches u)).1 =
        (isVisibleCached xmin xmax
          ((after Shared.step (Shared.new n) before).tm.snapshot txnId)
          (after Shared.step (Shared.new n) (before ++ (mid ++ later))).tm
          ((after Shared.step (Shared.new n) (before ++ (mid ++ later))).caches u)).1 := by
  intro h
  -- thread 0 finishes `begin`; thread 1 asks and is told "in progress"; thread 0 commits
  have := h 2 snapshotDuringBegin [(0, .next), (1, .status 1), (1, .next), (1, .next)]
    [(0, .commit 1), (0, .next), (0, .next)] 2 1 1 0 (by decide) (by decide) (by decide)
    (by decide) (by decide)
  exact absurd this (by decide)

end Ccdb
