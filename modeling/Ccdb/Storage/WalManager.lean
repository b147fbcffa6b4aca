import Ccdb.Lib.Runs
import Mathlib.Data.Fintype.Basic
import Mathlib.Logic.Function.Basic

/-!
# Ccdb — the write-ahead log's durability watermark

`WalManager` of `wal.rs` under any number of threads: `append` takes its LSN from
a counter and writes the record later, under the writer lock; `flush` and
`flush_to` push the writer's buffer to the disk under both locks and then read
the counter to say how far the log is durable. To wake the others the thread that has
raised the watermark takes the lock of the condition variable. After a wait that timed
out `flush_to` has that lock, so that a call that syncs by itself never returns.

An LSN that is reserved and not written when the counter is read is reported
durable. The other direction is `Inv.step`: with no such LSN at that moment the
watermark never runs ahead of the disk.

Main results:

* `WalManager.Inv.step` — one step keeps the watermark below the disk.
* `watermark_sound` — over every run whose counter reads are clear.
-/

namespace Ccdb

/-! ## Threads and their steps -/

/-- Where a thread is in its call. From `leading` on it carries the LSNs that the
call vouches for when it returns. -/
inductive WalPc where
  | idle
  -- `append`: the LSN is taken, the record is not in the writer
  | reserved (lsn : Nat)
  -- `flush`: the target is read, the fsync lock is not held
  | queued (target : Nat)
  -- `flush_to`: waits for the background writer
  | waiting (lsn : Nat)
  -- `flush_to`: the wait timed out with the condition variable's lock; the fsync lock is
  -- not held
  | late (lsn : Nat)
  -- the fsync lock is held
  | leading (want : List Nat)
  -- the writer lock is held too
  | holding (want : List Nat)
  -- the buffer is flushed and the file synced
  | synced (want : List Nat)
  -- the counter is read
  | loaded (want : List Nat) (nowDurable : Nat)
  -- the watermark is raised, the waiting threads are not woken
  | published (want : List Nat) (nowDurable : Nat)
deriving DecidableEq, Repr

/-- An `append` between its two steps. -/
def WalPc.inFlight : WalPc → Bool
  | .reserved _ => true
  | _ => false

/-- The first step of a call, the next one of the call under way, the end of a
wait, or an I/O error. -/
inductive WalAct where
  | append
  | flush
  | flushTo (lsn : Nat)
  | next
  | timeout
  | fail
deriving DecidableEq, Repr

/-- The log shared by `n` threads. Records up to `base` were in the file when it
was opened; `buffer` are the LSNs written to the writer and not synced, `disk`
those synced, `failed` those whose write returned an error. `own` are the LSNs a
thread's appends returned and `acks` those a flush has vouched for. -/
structure WalManager (n : Nat) where
  base : Nat
  nextLsn : Nat
  flushedLsn : Nat
  buffer : List Nat
  disk : List Nat
  failed : List Nat
  fsyncLock : Option (Fin n)
  writerLock : Option (Fin n)
  flushCondLock : Option (Fin n)
  own : Fin n → List Nat
  acks : List Nat
  pcs : Fin n → WalPc

namespace WalManager

variable {n : Nat}

/-- `open`, and `set_next_lsn` past what recovery has read. -/
def opened (n base : Nat) : WalManager n :=
  ⟨base, base + 1, base, [], [], [], none, none, none, fun _ => [], [], fun _ => .idle⟩

def goto (st : WalManager n) (t : Fin n) (pc : WalPc) : WalManager n :=
  { st with pcs := Function.update st.pcs t pc }

/-- The call is over: a guard of the condition variable's lock is dropped. -/
def leave (st : WalManager n) (t : Fin n) : WalManager n :=
  { st.goto t .idle with flushCondLock := st.flushCondLock.filter (· ≠ t) }

/-- The call returns `Ok` and vouches for `want`. -/
def ack (st : WalManager n) (t : Fin n) (want : List Nat) : WalManager n :=
  { st.leave t with acks := want ++ st.acks }

/-- An LSN a caller of `flush_to` can hold: that of a written record. -/
def Written (st : WalManager n) (lsn : Nat) : Prop :=
  lsn ≤ st.base ∨ lsn ∈ st.buffer ∨ lsn ∈ st.disk

instance (st : WalManager n) (lsn : Nat) : Decidable (st.Written lsn) :=
  inferInstanceAs (Decidable (_ ∨ _))

/-- The fsync lock is taken: return if a leader has covered the target. -/
def lead (st : WalManager n) (t : Fin n) (target : Nat) (want : List Nat) : Option (WalManager n) :=
  if st.fsyncLock ≠ none then none
  else if target ≤ st.flushedLsn then some (st.ack t want)
  else some { st.goto t (.leading want) with fsyncLock := some t }

/-- The next step of the call a thread is in. -/
def next (st : WalManager n) (t : Fin n) : WalPc → Option (WalManager n)
  | .idle => none
  | .reserved lsn =>
    if st.writerLock ≠ none then none
    else some { st.goto t .idle with
      buffer := lsn :: st.buffer
      own := Function.update st.own t (lsn :: st.own t) }
  | .queued target => st.lead t target (st.own t)
  | .waiting lsn =>
    if st.flushCondLock = none ∧ lsn ≤ st.flushedLsn then some (st.ack t [lsn]) else none
  | .late lsn => st.lead t lsn [lsn]
  | .leading want =>
    if st.writerLock ≠ none then none
    else some { st.goto t (.holding want) with writerLock := some t }
  | .holding want =>
    some { st.goto t (.synced want) with disk := st.buffer ++ st.disk, buffer := [] }
  | .synced want => some (st.goto t (.loaded want (st.nextLsn - 1)))
  | .loaded want nowDurable =>
    some { st.goto t (.published want nowDurable) with
      flushedLsn := max st.flushedLsn nowDurable }
  | .published want _ =>
    -- a thread that has the lock itself waits for ever
    if st.flushCondLock ≠ none then none
    else some { st.ack t want with fsyncLock := none, writerLock := none }

/-- An I/O error in the call a thread is in. -/
def failIo (st : WalManager n) (t : Fin n) : WalPc → Option (WalManager n)
  | .reserved lsn =>
    if st.writerLock ≠ none then none
    else some { st.goto t .idle with failed := lsn :: st.failed }
  | .holding _ => some { st.leave t with fsyncLock := none, writerLock := none }
  | _ => none

/-- One atomic step of one thread. -/
def step (st : WalManager n) (l : Fin n × WalAct) : Option (WalManager n) :=
  match l.2 with
  | .next => st.next l.1 (st.pcs l.1)
  | .fail => st.failIo l.1 (st.pcs l.1)
  | .timeout =>
    match st.pcs l.1 with
    | .waiting lsn =>
      if st.flushCondLock = none ∧ st.flushedLsn < lsn then
        some { st.goto l.1 (.late lsn) with flushCondLock := some l.1 }
      else none
    | _ => none
  | .append =>
    if st.pcs l.1 ≠ .idle then none
    else some { st.goto l.1 (.reserved st.nextLsn) with nextLsn := st.nextLsn + 1 }
  | .flush =>
    if st.pcs l.1 ≠ .idle then none
    else some (st.goto l.1 (.queued (st.nextLsn - 1)))
  | .flushTo lsn =>
    if st.pcs l.1 ≠ .idle ∨ ¬ st.Written lsn then none
    else if lsn ≤ st.flushedLsn then some (st.ack l.1 [lsn])
    else some (st.goto l.1 (.waiting lsn))

/-- No `append` is between its two steps where a flush reads the counter. -/
def Clear (st : WalManager n) (l : Fin n × WalAct) : Prop :=
  match l.2, st.pcs l.1 with
  | .next, .synced _ => ∀ u, (st.pcs u).inFlight = false
  | _, _ => True

instance (st : WalManager n) (l : Fin n × WalAct) : Decidable (st.Clear l) := by
  unfold Clear
  split <;> infer_instance

/-! ## What a step can do -/

/-- The steps, case by case. -/
inductive Move (st : WalManager n) (t : Fin n) : WalAct → WalManager n → Prop
  | reserve (hpc : st.pcs t = .idle) :
      Move st t .append { st.goto t (.reserved st.nextLsn) with nextLsn := st.nextLsn + 1 }
  | write {lsn : Nat} (hpc : st.pcs t = .reserved lsn) (hfree : st.writerLock = none) :
      Move st t .next { st.goto t .idle with
        buffer := lsn :: st.buffer
        own := Function.update st.own t (lsn :: st.own t) }
  | lose {lsn : Nat} (hpc : st.pcs t = .reserved lsn) (hfree : st.writerLock = none) :
      Move st t .fail { st.goto t .idle with failed := lsn :: st.failed }
  | target (hpc : st.pcs t = .idle) : Move st t .flush (st.goto t (.queued (st.nextLsn - 1)))
  -- a return without syncing: the watermark covers what is asked for
  | covered {act : WalAct} {want : List Nat}
      (hwant : (want = st.own t ∧ ∃ target, st.pcs t = .queued target ∧ target ≤ st.flushedLsn) ∨
        ∃ lsn, want = [lsn] ∧ lsn ≤ st.flushedLsn ∧
          ((st.pcs t = .idle ∧ st.Written lsn) ∨ st.pcs t = .waiting lsn ∨ st.pcs t = .late lsn)) :
      Move st t act (st.ack t want)
  | await {lsn : Nat} (hpc : st.pcs t = .idle) (hlsn : st.Written lsn) :
      Move st t (.flushTo lsn) (st.goto t (.waiting lsn))
  | giveUp {lsn : Nat} (hpc : st.pcs t = .waiting lsn) :
      Move st t .timeout { st.goto t (.late lsn) with flushCondLock := some t }
  | lead {want : List Nat} (hwant : (want = st.own t ∧ ∃ target, st.pcs t = .queued target) ∨
        ∃ lsn, want = [lsn] ∧ st.pcs t = .late lsn) :
      Move st t .next { st.goto t (.leading want) with fsyncLock := some t }
  | hold {want : List Nat} (hpc : st.pcs t = .leading want) (hfree : st.writerLock = none) :
      Move st t .next { st.goto t (.holding want) with writerLock := some t }
  | sync {want : List Nat} (hpc : st.pcs t = .holding want) :
      Move st t .next { st.goto t (.synced want) with disk := st.buffer ++ st.disk, buffer := [] }
  | breakOff {want : List Nat} (hpc : st.pcs t = .holding want) :
      Move st t .fail { st.leave t with fsyncLock := none, writerLock := none }
  | load {want : List Nat} (hpc : st.pcs t = .synced want) :
      Move st t .next (st.goto t (.loaded want (st.nextLsn - 1)))
  | publish {want : List Nat} {nowDurable : Nat} (hpc : st.pcs t = .loaded want nowDurable) :
      Move st t .next { st.goto t (.published want nowDurable) with
        flushedLsn := max st.flushedLsn nowDurable }
  | finish {want : List Nat} {nowDurable : Nat} (hpc : st.pcs t = .published want nowDurable)
      (hfree : st.flushCondLock = none) :
      Move st t .next { st.ack t want with fsyncLock := none, writerLock := none }

variable {st st' : WalManager n} {t u : Fin n} {act : WalAct}

theorem lead_move {target : Nat} {want : List Nat} (h : st.lead t target want = some st')
    (hwant : (want = st.own t ∧ st.pcs t = .queued target) ∨
      (want = [target] ∧ st.pcs t = .late target)) : Move st t .next st' := by
  unfold lead at h
  split at h
  · cases h
  · split at h
    · next hle =>
      cases h
      refine .covered ?_
      rcases hwant with ⟨hw, hpc⟩ | ⟨hw, hpc⟩
      · exact Or.inl ⟨hw, target, hpc, hle⟩
      · exact Or.inr ⟨target, hw, hle, Or.inr (Or.inr hpc)⟩
    · cases h
      refine .lead ?_
      rcases hwant with ⟨hw, hpc⟩ | ⟨hw, hpc⟩
      · exact Or.inl ⟨hw, target, hpc⟩
      · exact Or.inr ⟨target, hw, hpc⟩

theorem next_move (h : st.next t (st.pcs t) = some st') : Move st t .next st' := by
  cases hpc : st.pcs t with
  | idle =>
    rw [hpc] at h
    cases h
  | reserved lsn =>
    simp only [hpc, next] at h
    split at h
    · cases h
    · next hfree =>
      cases h
      exact .write hpc (not_not.1 hfree)
  | queued target =>
    simp only [hpc, next] at h
    exact lead_move h (Or.inl ⟨rfl, hpc⟩)
  | waiting lsn =>
    simp only [hpc, next] at h
    split at h
    · next hle =>
      cases h
      exact .covered (Or.inr ⟨lsn, rfl, hle.2, Or.inr (Or.inl hpc)⟩)
    · cases h
  | late lsn =>
    simp only [hpc, next] at h
    exact lead_move h (Or.inr ⟨rfl, hpc⟩)
  | leading want =>
    simp only [hpc, next] at h
    split at h
    · cases h
    · next hfree =>
      cases h
      exact .hold hpc (not_not.1 hfree)
  | holding want =>
    rw [hpc] at h
    cases h
    exact .sync hpc
  | synced want =>
    rw [hpc] at h
    cases h
    exact .load hpc
  | loaded want nowDurable =>
    rw [hpc] at h
    cases h
    exact .publish hpc
  | published want nowDurable =>
    simp only [hpc, next] at h
    split at h
    · cases h
    · next hfree =>
      cases h
      exact .finish hpc (not_not.1 hfree)

theorem failIo_move (h : st.failIo t (st.pcs t) = some st') : Move st t .fail st' := by
  cases hpc : st.pcs t with
  | reserved lsn =>
    simp only [hpc, failIo] at h
    split at h
    · cases h
    · next hfree =>
      cases h
      exact .lose hpc (not_not.1 hfree)
  | holding want =>
    rw [hpc] at h
    cases h
    exact .breakOff hpc
  | _ =>
    rw [hpc] at h
    cases h

theorem step_move (h : st.step (t, act) = some st') : Move st t act st' := by
  cases act with
  | next => exact next_move h
  | fail => exact failIo_move h
  | timeout =>
    cases hpc : st.pcs t with
    | waiting lsn =>
      simp only [step, hpc] at h
      split at h
      · cases h
        exact .giveUp hpc
      · cases h
    | _ => simp [step, hpc] at h
  | append =>
    simp only [step] at h
    split at h
    · cases h
    · next hpc =>
      cases h
      exact .reserve (not_not.1 hpc)
  | flush =>
    simp only [step] at h
    split at h
    · cases h
    · next hpc =>
      cases h
      exact .target (not_not.1 hpc)
  | flushTo lsn =>
    simp only [step] at h
    split at h
    · cases h
    · next hpc =>
      rw [not_or, not_not, not_not] at hpc
      split at h
      · next hle =>
        cases h
        exact .covered (Or.inr ⟨lsn, rfl, hle, Or.inl hpc⟩)
      · cases h
        exact .await hpc.1 hpc.2

/-! ## The invariant -/

/-- Every record up to `lsn` is on disk. -/
def DurableTo (st : WalManager n) (lsn : Nat) : Prop :=
  ∀ l, st.base < l → l ≤ lsn → l ∉ st.failed → l ∈ st.disk

/-- What a thread in a call relies on. -/
def PcOk (st : WalManager n) (t : Fin n) : WalPc → Prop
  | .idle => True
  | .reserved lsn => st.base < lsn ∧ lsn < st.nextLsn ∧
      lsn ∉ st.buffer ∧ lsn ∉ st.disk ∧ lsn ∉ st.failed ∧ ∀ u, u ≠ t → st.pcs u ≠ .reserved lsn
  | .queued target => ∀ l ∈ st.own t, l ≤ target
  | .waiting lsn => st.Written lsn
  | .late lsn => st.Written lsn
  | .leading want => ∀ l ∈ want, st.Written l
  | .holding want => st.writerLock = some t ∧ ∀ l ∈ want, st.Written l
  -- the lock keeps the buffer empty from here on
  | .synced want => st.writerLock = some t ∧ st.buffer = [] ∧ ∀ l ∈ want, st.Written l
  | .loaded want nowDurable => st.writerLock = some t ∧ st.buffer = [] ∧
      (∀ l ∈ want, st.Written l) ∧ nowDurable < st.nextLsn ∧ st.DurableTo nowDurable
  -- the call's own sync has put what it vouches for on disk
  | .published want _ => st.writerLock = some t ∧ ∀ l ∈ want, l ≤ st.base ∨ l ∈ st.disk

structure Inv (st : WalManager n) : Prop where
  base_lt : st.base < st.nextLsn
  flushed_lt : st.flushedLsn < st.nextLsn
  /-- Every reserved LSN is written, failed or in flight. -/
  covered : ∀ l, st.base < l → l < st.nextLsn →
    l ∈ st.buffer ∨ l ∈ st.disk ∨ l ∈ st.failed ∨ ∃ t, st.pcs t = .reserved l
  known : ∀ l, l ∈ st.buffer ∨ l ∈ st.disk → st.base < l ∧ l < st.nextLsn ∧ l ∉ st.failed
  failed_lt : ∀ l ∈ st.failed, l < st.nextLsn
  own : ∀ t, ∀ l ∈ st.own t, l ∈ st.buffer ∨ l ∈ st.disk
  durable : st.DurableTo st.flushedLsn
  acks : ∀ l ∈ st.acks, l ≤ st.base ∨ l ∈ st.disk
  pcs : ∀ t, st.PcOk t (st.pcs t)

theorem Inv.opened (base : Nat) : (WalManager.opened n base).Inv := by
  refine ⟨Nat.lt_succ_self _, Nat.lt_succ_self _, ?_, ?_, ?_, ?_, ?_, ?_, fun _ => trivial⟩
  · intro l hb hl
    have : l < base + 1 := hl
    have : base < l := hb
    omega
  · rintro l (h | h) <;> cases h
  · intro l h
    cases h
  · intro t l h
    cases h
  · intro l hb hl
    have : l ≤ base := hl
    have : base < l := hb
    omega
  · intro l h
    cases h

/-- What is asked for is on disk once the watermark covers it. -/
theorem Inv.onDisk (hinv : st.Inv) {l : Nat} (hw : st.Written l) (hle : l ≤ st.flushedLsn) :
    l ≤ st.base ∨ l ∈ st.disk := by
  by_cases hb : l ≤ st.base
  · exact Or.inl hb
  · have hknown := hinv.known l (hw.resolve_left hb)
    exact Or.inr (hinv.durable l hknown.1 hle hknown.2.2)

/-- What a step of `t` leaves to the other threads. -/
structure Frame (st st' : WalManager n) (t : Fin n) : Prop where
  base : st'.base = st.base
  next : st.nextLsn ≤ st'.nextLsn
  failed : ∀ l ∈ st.failed, l ∈ st'.failed
  disk : ∀ l ∈ st.disk, l ∈ st'.disk
  written : ∀ l, l ∈ st.buffer ∨ l ∈ st.disk → l ∈ st'.buffer ∨ l ∈ st'.disk
  /-- Only the thread's own reservation is newly written or failed. -/
  new : ∀ l, l ∈ st'.buffer ∨ l ∈ st'.disk ∨ l ∈ st'.failed →
    l ∈ st.buffer ∨ l ∈ st.disk ∨ l ∈ st.failed ∨ st.pcs t = .reserved l
  /-- The writer lock keeps the buffer as it is. -/
  lock : ∀ u, u ≠ t → st.writerLock = some u →
    st'.writerLock = some u ∧ (st.buffer = [] → st'.buffer = [])
  own : ∀ u, u ≠ t → st'.own u = st.own u
  pcs : ∃ pc, st'.pcs = Function.update st.pcs t pc ∧
    ∀ l, pc = .reserved l → l = st.nextLsn

/-- The log itself is left alone; the thread may take or leave the writer lock. -/
theorem Frame.quiet {pc : WalPc} (hpc : st'.pcs = Function.update st.pcs t pc)
    (hquiet : pc.inFlight = false)
    (hlog : (st'.base, st'.nextLsn, st'.buffer, st'.disk, st'.failed, st'.own) =
      (st.base, st.nextLsn, st.buffer, st.disk, st.failed, st.own))
    (hlock : ∀ u, u ≠ t → st.writerLock = some u → st'.writerLock = some u) :
    Frame st st' t := by
  simp only [Prod.mk.injEq] at hlog
  obtain ⟨hb, hn, hbuf, hd, hf, ho⟩ := hlog
  refine ⟨hb, hn.ge, by simp [hf], by simp [hd], by simp [hbuf, hd], ?_,
    fun u hu h => ⟨hlock u hu h, by simp [hbuf]⟩, by simp [ho], pc, hpc, ?_⟩
  · intro l hl
    rw [hbuf, hd, hf] at hl
    exact hl.imp_right fun h => h.imp_right Or.inl
  · rintro l rfl
    cases hquiet

theorem Move.frame (hinv : st.Inv) (m : Move st t act st') : Frame st st' t := by
  have hok := hinv.pcs t
  have hrelease : st.writerLock = some t →
      ∀ u, u ≠ t → st.writerLock = some u → st'.writerLock = some u := by
    intro ht u hu h
    rw [ht] at h
    exact absurd (Option.some.inj h).symm hu
  have hacquire : st.writerLock = none →
      ∀ u, u ≠ t → st.writerLock = some u → st'.writerLock = some u := by
    intro hfree u _ h
    rw [hfree] at h
    cases h
  cases m with
  | reserve hpc =>
    refine ⟨rfl, Nat.le_succ _, fun _ h => h, fun _ h => h, fun _ h => h, ?_,
      fun _ _ h => ⟨h, fun h => h⟩, fun _ _ => rfl, _, rfl, ?_⟩
    · exact fun l hl => hl.imp_right fun h => h.imp_right Or.inl
    · rintro l hl
      cases hl
      rfl
  | @write lsn hpc hfree =>
    refine ⟨rfl, le_refl _, fun _ h => h, fun _ h => h, fun l h => ?_, fun l hl => ?_,
      fun u hu h => ?_, fun u hu => Function.update_of_ne hu _ _, _, rfl, ?_⟩
    · exact h.imp_left (List.mem_cons_of_mem _)
    · rcases hl with hl | hl | hl
      · rcases List.mem_cons.1 hl with rfl | hl
        · exact Or.inr (Or.inr (Or.inr hpc))
        · exact Or.inl hl
      · exact Or.inr (Or.inl hl)
      · exact Or.inr (Or.inr (Or.inl hl))
    · rw [hfree] at h
      cases h
    · intro l hl
      cases hl
  | @lose lsn hpc hfree =>
    refine ⟨rfl, le_refl _, fun _ h => List.mem_cons_of_mem _ h, fun _ h => h, fun _ h => h,
      fun l hl => ?_, fun u hu h => ⟨h, fun h => h⟩, fun _ _ => rfl, _, rfl, ?_⟩
    · rcases hl with hl | hl | hl
      · exact Or.inl hl
      · exact Or.inr (Or.inl hl)
      · rcases List.mem_cons.1 hl with rfl | hl
        · exact Or.inr (Or.inr (Or.inr hpc))
        · exact Or.inr (Or.inr (Or.inl hl))
    · intro l hl
      cases hl
  | target hpc | covered hwant | await hpc hlsn | giveUp hpc
  | lead hwant => exact Frame.quiet rfl rfl rfl fun _ _ h => h
  | hold hpc hfree => exact Frame.quiet rfl rfl rfl (hacquire hfree)
  | sync hpc =>
    refine ⟨rfl, le_refl _, fun _ h => h, fun l h => List.mem_append_right _ h, fun l h => ?_,
      fun l hl => ?_, fun u hu h => ⟨h, fun _ => rfl⟩, fun _ _ => rfl, _, rfl, ?_⟩
    · exact Or.inr (List.mem_append.2 h)
    · rcases hl with hl | hl | hl
      · cases hl
      · exact (List.mem_append.1 hl).imp_right Or.inl
      · exact Or.inr (Or.inr (Or.inl hl))
    · intro l hl
      cases hl
  | breakOff hpc =>
    rw [hpc] at hok
    exact Frame.quiet rfl rfl rfl (hrelease hok.1)
  | load hpc => exact Frame.quiet rfl rfl rfl fun _ _ h => h
  | publish hpc => exact Frame.quiet rfl rfl rfl fun _ _ h => h
  | finish hpc hfree =>
    rw [hpc] at hok
    exact Frame.quiet rfl rfl rfl (hrelease hok.1)

theorem Frame.keepsWritten (hf : Frame st st' t) {l : Nat} (h : st.Written l) : st'.Written l := by
  unfold Written at h ⊢
  rw [hf.base]
  exact h.imp_right (hf.written l)

theorem Frame.keepsDurable (hf : Frame st st' t) {lsn : Nat} (h : st.DurableTo lsn) :
    st'.DurableTo lsn := by
  intro l hb hl hfail
  rw [hf.base] at hb
  exact hf.disk l (h l hb hl fun h => hfail (hf.failed l h))

/-- The threads that do not move keep what they rely on. -/
theorem PcOk.frame (hinv : st.Inv) (hf : Frame st st' t) (hu : u ≠ t) :
    st'.PcOk u (st.pcs u) := by
  have hok := hinv.pcs u
  have hwant : ∀ {want : List Nat}, (∀ l ∈ want, st.Written l) → ∀ l ∈ want, st'.Written l :=
    fun h l hl => hf.keepsWritten (h l hl)
  cases hpu : st.pcs u with
  | idle => trivial
  | reserved lsn =>
    rw [hpu] at hok
    obtain ⟨hb, hlt, hbuf, hdisk, hfail, huniq⟩ := hok
    have hnew : ¬ (lsn ∈ st'.buffer ∨ lsn ∈ st'.disk ∨ lsn ∈ st'.failed) := by
      intro h
      rcases hf.new lsn h with h | h | h | h
      · exact hbuf h
      · exact hdisk h
      · exact hfail h
      · exact huniq t hu.symm h
    refine ⟨hf.base ▸ hb, lt_of_lt_of_le hlt hf.next, fun h => hnew (Or.inl h),
      fun h => hnew (Or.inr (Or.inl h)), fun h => hnew (Or.inr (Or.inr h)), fun v hv h => ?_⟩
    obtain ⟨pc, hp, hres⟩ := hf.pcs
    rw [hp] at h
    by_cases hvt : v = t
    · -- a new reservation is a new number
      subst hvt
      rw [Function.update_self] at h
      have := hres lsn h
      omega
    · rw [Function.update_of_ne hvt] at h
      exact huniq v hv h
  | queued target =>
    rw [hpu] at hok
    show ∀ l ∈ st'.own u, l ≤ target
    rw [hf.own u hu]
    exact hok
  | waiting lsn =>
    rw [hpu] at hok
    exact hf.keepsWritten hok
  | late lsn =>
    rw [hpu] at hok
    exact hf.keepsWritten hok
  | leading want =>
    rw [hpu] at hok
    exact hwant hok
  | holding want =>
    rw [hpu] at hok
    exact ⟨(hf.lock u hu hok.1).1, hwant hok.2⟩
  | synced want =>
    rw [hpu] at hok
    obtain ⟨hlock, hbuf⟩ := hf.lock u hu hok.1
    exact ⟨hlock, hbuf hok.2.1, hwant hok.2.2⟩
  | loaded want nowDurable =>
    rw [hpu] at hok
    obtain ⟨hlock, hbuf⟩ := hf.lock u hu hok.1
    exact ⟨hlock, hbuf hok.2.1, hwant hok.2.2.1, lt_of_lt_of_le hok.2.2.2.1 hf.next,
      hf.keepsDurable hok.2.2.2.2⟩
  | published want nowDurable =>
    rw [hpu] at hok
    refine ⟨(hf.lock u hu hok.1).1, fun l hl => ?_⟩
    rw [hf.base]
    exact (hok.2 l hl).imp_right (hf.disk l)

theorem PcOk.of_update {pc : WalPc} (hp : st'.pcs = Function.update st.pcs t pc)
    (h : st'.PcOk t pc) : st'.PcOk t (st'.pcs t) := by
  rw [hp, Function.update_self]
  exact h

/-- What a thread relies on after its own step. -/
theorem PcOk.own (hinv : st.Inv) (hclear : st.Clear (t, act)) (m : Move st t act st') :
    st'.PcOk t (st'.pcs t) := by
  have hok := hinv.pcs t
  have hf := m.frame hinv
  cases m with
  | reserve hpc =>
    refine of_update rfl ⟨hinv.base_lt, Nat.lt_succ_self _, fun h => ?_, fun h => ?_, fun h => ?_,
      fun u hu h => ?_⟩
    · exact lt_irrefl _ (hinv.known _ (Or.inl h)).2.1
    · exact lt_irrefl _ (hinv.known _ (Or.inr h)).2.1
    · exact lt_irrefl _ (hinv.failed_lt _ h)
    · have hres : st.pcs u = .reserved st.nextLsn := by
        have h : Function.update st.pcs t _ u = _ := h
        rwa [Function.update_of_ne hu] at h
      have hold := hinv.pcs u
      rw [hres] at hold
      exact lt_irrefl _ hold.2.1
  | write hpc hfree => exact of_update rfl trivial
  | lose hpc hfree => exact of_update rfl trivial
  | target hpc =>
    refine of_update rfl fun l hl => ?_
    have := (hinv.known l (hinv.own t l hl)).2.1
    show l ≤ st.nextLsn - 1
    omega
  | covered hwant => exact of_update rfl trivial
  | await hpc hlsn => exact of_update rfl hlsn
  | giveUp hpc =>
    rw [hpc] at hok
    exact of_update rfl hok
  | lead hwant =>
    refine of_update rfl fun l hl => ?_
    rcases hwant with ⟨rfl, -⟩ | ⟨lsn, rfl, hpc⟩
    · exact Or.inr (hinv.own t l hl)
    · rw [hpc] at hok
      rw [List.mem_singleton.1 hl]
      exact hok
  | hold hpc hfree =>
    rw [hpc] at hok
    exact of_update rfl ⟨rfl, hok⟩
  | sync hpc =>
    rw [hpc] at hok
    exact of_update rfl ⟨hok.1, rfl, fun l hl => hf.keepsWritten (hok.2 l hl)⟩
  | breakOff hpc => exact of_update rfl trivial
  | @load want hpc =>
    rw [hpc] at hok
    obtain ⟨hlock, hbuf, hwant⟩ := hok
    have hbase := hinv.base_lt
    refine of_update rfl ⟨hlock, hbuf, hwant, ?_, fun l hb hl hfail => ?_⟩
    · show st.nextLsn - 1 < st.nextLsn
      omega
    · -- no append is in flight, and nothing was written since the sync
      have hclear : ∀ u, (st.pcs u).inFlight = false := by
        simpa only [Clear, hpc] using hclear
      have hl : l ≤ st.nextLsn - 1 := hl
      rcases hinv.covered l hb (by omega) with h | h | h | ⟨u, h⟩
      · rw [hbuf] at h
        cases h
      · exact h
      · exact absurd h hfail
      · have := hclear u
        rw [h] at this
        cases this
  | publish hpc =>
    rw [hpc] at hok
    obtain ⟨hlock, hbuf, hwant, -⟩ := hok
    refine of_update rfl ⟨hlock, fun l hl => ?_⟩
    rcases hwant l hl with h | h | h
    · exact Or.inl h
    · rw [hbuf] at h
      cases h
    · exact Or.inr h
  | finish hpc hfree => exact of_update rfl trivial

/-- The log itself is left alone: only what is vouched for is to be shown. -/
theorem Inv.quiet {pc : WalPc} (hinv : st.Inv)
    (hlog : (st'.base, st'.nextLsn, st'.buffer, st'.disk, st'.failed, st'.own) =
      (st.base, st.nextLsn, st.buffer, st.disk, st.failed, st.own))
    (hpcs : st'.pcs = Function.update st.pcs t pc) (hold : (st.pcs t).inFlight = false)
    (hlt : st'.flushedLsn < st.nextLsn) (hdur : st.DurableTo st'.flushedLsn)
    (hacks : ∀ l ∈ st'.acks, l ≤ st.base ∨ l ∈ st.disk)
    (hok : ∀ u, st'.PcOk u (st'.pcs u)) : st'.Inv := by
  simp only [Prod.mk.injEq] at hlog
  obtain ⟨hb, hn, hbuf, hd, hf, ho⟩ := hlog
  refine ⟨by rw [hb, hn]; exact hinv.base_lt, by rw [hn]; exact hlt, fun l hbl hl => ?_,
    by rw [hb, hn, hbuf, hd, hf]; exact hinv.known, by rw [hn, hf]; exact hinv.failed_lt,
    by rw [ho, hbuf, hd]; exact hinv.own, ?_, by rw [hb, hd]; exact hacks, hok⟩
  · rw [hb] at hbl
    rw [hn] at hl
    rw [hbuf, hd, hf]
    rcases hinv.covered l hbl hl with h | h | h | ⟨u, h⟩
    · exact Or.inl h
    · exact Or.inr (Or.inl h)
    · exact Or.inr (Or.inr (Or.inl h))
    · refine Or.inr (Or.inr (Or.inr ⟨u, ?_⟩))
      have hut : u ≠ t := by
        rintro rfl
        rw [h] at hold
        cases hold
      rw [hpcs, Function.update_of_ne hut, h]
  · unfold DurableTo at hdur ⊢
    rw [hb, hd, hf]
    exact hdur

/-- What a return without syncing vouches for. -/
theorem Inv.covered_acks {want : List Nat} (hinv : st.Inv)
    (hwant : (want = st.own t ∧ ∃ target, st.pcs t = .queued target ∧ target ≤ st.flushedLsn) ∨
      ∃ lsn, want = [lsn] ∧ lsn ≤ st.flushedLsn ∧
        ((st.pcs t = .idle ∧ st.Written lsn) ∨ st.pcs t = .waiting lsn ∨ st.pcs t = .late lsn)) :
    ∀ l ∈ want, l ≤ st.base ∨ l ∈ st.disk := by
  have hok := hinv.pcs t
  intro l hl
  rcases hwant with ⟨rfl, target, hpc, hle⟩ | ⟨lsn, rfl, hle, hw⟩
  · rw [hpc] at hok
    exact hinv.onDisk (Or.inr (hinv.own t l hl)) (le_trans (hok l hl) hle)
  · have hlsn : st.Written lsn := by
      rcases hw with ⟨-, h⟩ | hpc | hpc
      · exact h
      · rw [hpc] at hok
        exact hok
      · rw [hpc] at hok
        exact hok
    rw [List.mem_singleton.1 hl]
    exact hinv.onDisk hlsn hle

/-- **One step keeps the watermark below the disk.** -/
theorem Inv.step (hinv : st.Inv) (hclear : st.Clear (t, act)) (m : Move st t act st') :
    st'.Inv := by
  have hf := m.frame hinv
  have hpcs : ∀ u, st'.PcOk u (st'.pcs u) := by
    intro u
    by_cases hut : u = t
    · subst hut
      exact PcOk.own hinv hclear m
    · obtain ⟨pc, hp, -⟩ := hf.pcs
      rw [hp, Function.update_of_ne hut]
      exact PcOk.frame hinv hf hut
  have hok := hinv.pcs t
  cases m with
  | reserve hpc =>
    refine ⟨Nat.lt_succ_of_lt hinv.base_lt, Nat.lt_succ_of_lt hinv.flushed_lt, fun l hb hl => ?_,
      fun l hl => ?_, fun l hl => Nat.lt_succ_of_lt (hinv.failed_lt l hl), hinv.own, hinv.durable,
      hinv.acks, hpcs⟩
    · have hl : l < st.nextLsn + 1 := hl
      by_cases hnew : l = st.nextLsn
      · exact Or.inr (Or.inr (Or.inr ⟨t, by rw [hnew]; exact Function.update_self ..⟩))
      · rcases hinv.covered l hb (by omega) with h | h | h | ⟨u, h⟩
        · exact Or.inl h
        · exact Or.inr (Or.inl h)
        · exact Or.inr (Or.inr (Or.inl h))
        · refine Or.inr (Or.inr (Or.inr ⟨u, ?_⟩))
          have hut : u ≠ t := by
            rintro rfl
            rw [hpc] at h
            cases h
          exact (Function.update_of_ne hut _ _).trans h
    · obtain ⟨hb, hlt, hfail⟩ := hinv.known l hl
      exact ⟨hb, Nat.lt_succ_of_lt hlt, hfail⟩
  | @write lsn hpc hfree =>
    rw [hpc] at hok
    refine ⟨hinv.base_lt, hinv.flushed_lt, fun l hb hl => ?_, fun l hl => ?_, hinv.failed_lt,
      fun u l hl => ?_, hinv.durable, hinv.acks, hpcs⟩
    · rcases hinv.covered l hb hl with h | h | h | ⟨u, h⟩
      · exact Or.inl (List.mem_cons_of_mem _ h)
      · exact Or.inr (Or.inl h)
      · exact Or.inr (Or.inr (Or.inl h))
      · by_cases hut : u = t
        · subst hut
          rw [hpc] at h
          cases h
          exact Or.inl List.mem_cons_self
        · exact Or.inr (Or.inr (Or.inr ⟨u, (Function.update_of_ne hut _ _).trans h⟩))
    · rcases hl with hl | hl
      · rcases List.mem_cons.1 hl with rfl | hl
        · exact ⟨hok.1, hok.2.1, hok.2.2.2.2.1⟩
        · exact hinv.known l (Or.inl hl)
      · exact hinv.known l (Or.inr hl)
    · have hl : l ∈ Function.update st.own t (lsn :: st.own t) u := hl
      by_cases hut : u = t
      · subst hut
        rw [Function.update_self] at hl
        rcases List.mem_cons.1 hl with rfl | hl
        · exact Or.inl List.mem_cons_self
        · exact hf.written l (hinv.own u l hl)
      · rw [Function.update_of_ne hut] at hl
        exact hf.written l (hinv.own u l hl)
  | @lose lsn hpc hfree =>
    rw [hpc] at hok
    refine ⟨hinv.base_lt, hinv.flushed_lt, fun l hb hl => ?_, fun l hl => ?_, fun l hl => ?_,
      hinv.own, hf.keepsDurable hinv.durable, hinv.acks, hpcs⟩
    · rcases hinv.covered l hb hl with h | h | h | ⟨u, h⟩
      · exact Or.inl h
      · exact Or.inr (Or.inl h)
      · exact Or.inr (Or.inr (Or.inl (List.mem_cons_of_mem _ h)))
      · by_cases hut : u = t
        · subst hut
          rw [hpc] at h
          cases h
          exact Or.inr (Or.inr (Or.inl List.mem_cons_self))
        · exact Or.inr (Or.inr (Or.inr ⟨u, (Function.update_of_ne hut _ _).trans h⟩))
    · obtain ⟨hb, hlt, hfail⟩ := hinv.known l hl
      refine ⟨hb, hlt, fun h => ?_⟩
      rcases List.mem_cons.1 h with rfl | h
      · exact hl.elim hok.2.2.1 hok.2.2.2.1
      · exact hfail h
    · rcases List.mem_cons.1 hl with rfl | hl
      · exact hok.2.1
      · exact hinv.failed_lt l hl
  | target hpc =>
    exact hinv.quiet rfl rfl (by rw [hpc]; rfl) hinv.flushed_lt hinv.durable hinv.acks hpcs
  | @covered act want hwant =>
    refine hinv.quiet rfl rfl ?_ hinv.flushed_lt hinv.durable (fun l hl => ?_) hpcs
    · rcases hwant with ⟨-, target, hpc, -⟩ | ⟨lsn, -, -, ⟨hpc, -⟩ | hpc | hpc⟩ <;> rw [hpc] <;> rfl
    · rcases List.mem_append.1 hl with hl | hl
      · exact hinv.covered_acks hwant l hl
      · exact hinv.acks l hl
  | await hpc hlsn =>
    exact hinv.quiet rfl rfl (by rw [hpc]; rfl) hinv.flushed_lt hinv.durable hinv.acks hpcs
  | giveUp hpc =>
    exact hinv.quiet rfl rfl (by rw [hpc]; rfl) hinv.flushed_lt hinv.durable hinv.acks hpcs
  | lead hwant =>
    refine hinv.quiet rfl rfl ?_ hinv.flushed_lt hinv.durable hinv.acks hpcs
    rcases hwant with ⟨-, target, hpc⟩ | ⟨lsn, -, hpc⟩ <;> rw [hpc] <;> rfl
  | hold hpc hfree =>
    exact hinv.quiet rfl rfl (by rw [hpc]; rfl) hinv.flushed_lt hinv.durable hinv.acks hpcs
  | sync hpc =>
    refine ⟨hinv.base_lt, hinv.flushed_lt, fun l hb hl => ?_, fun l hl => ?_, hinv.failed_lt,
      fun u l hl => hf.written l (hinv.own u l hl), hf.keepsDurable hinv.durable,
      fun l hl => (hinv.acks l hl).imp_right (hf.disk l), hpcs⟩
    · rcases hinv.covered l hb hl with h | h | h | ⟨u, h⟩
      · exact Or.inr (Or.inl (List.mem_append_left _ h))
      · exact Or.inr (Or.inl (List.mem_append_right _ h))
      · exact Or.inr (Or.inr (Or.inl h))
      · have hut : u ≠ t := by
          rintro rfl
          rw [hpc] at h
          cases h
        exact Or.inr (Or.inr (Or.inr ⟨u, (Function.update_of_ne hut _ _).trans h⟩))
    · rcases hl with hl | hl
      · cases hl
      · exact hinv.known l (List.mem_append.1 hl)
  | breakOff hpc =>
    exact hinv.quiet rfl rfl (by rw [hpc]; rfl) hinv.flushed_lt hinv.durable hinv.acks hpcs
  | load hpc =>
    exact hinv.quiet rfl rfl (by rw [hpc]; rfl) hinv.flushed_lt hinv.durable hinv.acks hpcs
  | @publish want nowDurable hpc =>
    rw [hpc] at hok
    obtain ⟨-, -, -, hlt, hdur⟩ := hok
    refine hinv.quiet rfl rfl (by rw [hpc]; rfl) (max_lt hinv.flushed_lt hlt) ?_ hinv.acks hpcs
    intro l hb hl hfail
    have hl : l ≤ max st.flushedLsn nowDurable := hl
    rcases le_max_iff.1 hl with hl | hl
    · exact hinv.durable l hb hl hfail
    · exact hdur l hb hl hfail
  | @finish want nowDurable hpc hfree =>
    rw [hpc] at hok
    refine hinv.quiet rfl rfl (by rw [hpc]; rfl) hinv.flushed_lt hinv.durable (fun l hl => ?_) hpcs
    rcases List.mem_append.1 hl with hl | hl
    · exact hok.2 l hl
    · exact hinv.acks l hl

end WalManager

/-- **The watermark is sound.** In every run in which no `append` is between its
two steps when a flush reads the counter: every record up to the watermark is
on disk, and so is every record a flush has vouched for. -/
theorem watermark_sound (n base : Nat) (ls : List (Fin n × WalAct))
    (hrun : Follows WalManager.step WalManager.Clear (WalManager.opened n base) ls) :
    (∀ l, base < l → l ≤ (after WalManager.step (WalManager.opened n base) ls).flushedLsn →
      l ∉ (after WalManager.step (WalManager.opened n base) ls).failed →
        l ∈ (after WalManager.step (WalManager.opened n base) ls).disk) ∧
    (∀ l ∈ (after WalManager.step (WalManager.opened n base) ls).acks,
      l ≤ base ∨ l ∈ (after WalManager.step (WalManager.opened n base) ls).disk) := by
  have hinv : (after WalManager.step (WalManager.opened n base) ls).Inv ∧
      (after WalManager.step (WalManager.opened n base) ls).base = base := by
    refine hrun.invariant (I := fun st => st.Inv ∧ st.base = base) ?_
      ⟨WalManager.Inv.opened base, rfl⟩
    rintro st ⟨t, act⟩ st' ⟨hinv, hbase⟩ hclear hstep
    have m := WalManager.step_move hstep
    exact ⟨hinv.step hclear m, (m.frame hinv).base.trans hbase⟩
  obtain ⟨hinv, hbase⟩ := hinv
  have hdur := hinv.durable
  have hacks := hinv.acks
  unfold WalManager.DurableTo at hdur
  rw [hbase] at hdur hacks
  exact ⟨hdur, hacks⟩

/-- Two committers that share one sync: the second finds its record covered. -/
def groupCommit : List (Fin 2 × WalAct) :=
  [(0, .append), (0, .next), (1, .append), (1, .next), (0, .flush), (1, .flush), (0, .next),
    (0, .next), (0, .next), (0, .next), (0, .next), (0, .next), (1, .next)]

theorem watermark_sound_groupCommit :
    (after WalManager.step (WalManager.opened 2 0) groupCommit).acks = [2, 1] ∧
    (∀ l ∈ (after WalManager.step (WalManager.opened 2 0) groupCommit).acks,
      l ≤ 0 ∨ l ∈ (after WalManager.step (WalManager.opened 2 0) groupCommit).disk) :=
  ⟨by decide, (watermark_sound 2 0 groupCommit (by decide)).2⟩

/-- Thread 0 reserves LSN 1; thread 1 appends LSN 2 and flushes; thread 0 writes
its record and calls `flush`, which finds its target covered. -/
def flushPastReservation : List (Fin 2 × WalAct) :=
  [(0, .append), (1, .append), (1, .next), (1, .flush), (1, .next), (1, .next), (1, .next),
    (1, .next), (1, .next), (1, .next), (0, .next), (0, .flush), (0, .next)]

/-- The watermark is 2 and both flushes returned `Ok`; only record 2 is on disk. -/
theorem watermark_passes_reservation :
    ¬ (∀ (n base : Nat) (ls : List (Fin n × WalAct)),
      Follows WalManager.step (fun _ _ => True) (WalManager.opened n base) ls →
        (∀ l, base < l → l ≤ (after WalManager.step (WalManager.opened n base) ls).flushedLsn →
          l ∉ (after WalManager.step (WalManager.opened n base) ls).failed →
            l ∈ (after WalManager.step (WalManager.opened n base) ls).disk)) ∧
    ¬ (∀ (n base : Nat) (ls : List (Fin n × WalAct)),
      Follows WalManager.step (fun _ _ => True) (WalManager.opened n base) ls →
        (∀ l ∈ (after WalManager.step (WalManager.opened n base) ls).acks,
          l ≤ base ∨ l ∈ (after WalManager.step (WalManager.opened n base) ls).disk)) := by
  refine ⟨fun h => ?_, fun h => ?_⟩
  · have := h 2 0 flushPastReservation (by decide) 1 (by decide) (by decide) (by decide)
    exact absurd this (by decide)
  · have := h 2 0 flushPastReservation (by decide) 1 (by decide)
    exact absurd this (by decide)

end Ccdb
