import Ccdb.Base
import Ccdb.Storage.WalManager

/-!
# Ccdb — the write-ahead rule

Threads that change pages, flush them and evict them, over the log of
`WalManager.lean` with all of its steps. A frame is what the rule is about: the page
LSN, the page it stands for, the dirty bit and the page latch.

`flush_page` and `evict` force the log up to the page LSN under the latch the copy
is made under. `flush_all` forces it once and copies the dirty frames one after the
other; a writer that gets to a frame before the copy leaves an LSN in it that the
force did not cover.

Pin counts and the page-table locks are left out, which only adds interleavings: any
frame may be evicted, as `install_recycled` does with the frame of a page it gives out
again, and a writer may come to a frame that stands for another page by then.

Main results:

* `write_ahead` — in every run in which no writer stamps a page ahead of a `flush_all`
  with an LSN that its force did not cover (`Behind`), every image is written with its
  LSN durable.
* `flush_all_outruns_log` — a run with such a writer.
-/

namespace Ccdb.WriteAhead

/-! ## Threads -/

/-- Where a thread is. `target` is what the counter of the log gave when `flush_all` started
its force; it is remembered for the statements only. -/
inductive Pc where
  | idle
  -- in a call of the log, with or without the latch of a frame
  | logging (latched : Option Nat)
  -- a writer, with the latch of the frame
  | writing (fid : Nat)
  -- the latch is released, the guard is not dropped
  | dropping (fid : Nat)
  -- `flush_all`: in `wal.flush`
  | forcingAll (target : Nat)
  -- `flush_all`: the next frame to look at
  | scanning (target fid : Nat)
  -- `flush_all`: the frame is dirty and has a page, the latch is not taken
  | wanting (target fid pid : Nat)
  | copying (target fid pid : Nat)
  -- `flush_all`: the latch is released, the frame is not marked clean
  | cleaning (target fid : Nat)
  -- `flush_page` or `evict` of a dirty frame
  | wantingOne (fid pid : Nat) (evicts : Bool)
  | forcingOne (fid pid lsn : Nat) (evicts : Bool)
  | copyingOne (fid pid : Nat) (evicts : Bool)
  | cleaningOne (fid : Nat) (evicts : Bool)
deriving DecidableEq, Repr

/-- The target of a `flush_all` that has not copied the frame yet. -/
def Pc.ahead : Pc → Nat → Option Nat
  | .forcingAll target, _ => some target
  | .scanning target fid, f | .wanting target fid _, f => if fid ≤ f then some target else none
  | .copying target fid _, f | .cleaning target fid, f => if fid < f then some target else none
  | _, _ => none

inductive Act where
  -- a step of a call of the log
  | log (act : WalAct)
  -- a writer takes the latch, sets the page LSN, releases the latch
  | latch (fid : Nat)
  | stamp (lsn : Nat)
  | unlatch
  -- a guard is dropped whose pin count an eviction has set to zero
  | forget
  -- calls of the pool
  | flushAll
  | flushOne (fid : Nat) (evicts : Bool)
  -- an empty frame gets a page, from the file or a new one
  | load (fid pid : Nat) (fresh : Bool)
  -- the next step of the call under way
  | next
deriving DecidableEq, Repr

/-- A frame and the latch of its page. -/
structure Cell (n : Nat) where
  lsn : Nat
  pageId : Option Nat
  dirty : Bool
  writer : Option (Fin n)
  readers : List (Fin n)

/-- `count` frames under `n` threads; `disk` are the page LSNs of the images in the file. `stored`
lists the images written, each with the durable LSN at that moment. -/
structure Writeback (n : Nat) where
  wal : WalManager n
  count : Nat
  cells : Nat → Cell n
  disk : Nat → Nat
  stored : List (Nat × Nat)
  pcs : Fin n → Pc

namespace Writeback

variable {n : Nat}

/-- A pool with empty frames over a file whose images the log covers. -/
def opened (n base count : Nat) (disk : Nat → Nat) : Writeback n :=
  ⟨.opened n base, count, fun _ => ⟨0, none, false, none, []⟩, disk, [], fun _ => .idle⟩

def goto (s : Writeback n) (t : Fin n) (pc : Pc) : Writeback n :=
  { s with pcs := Function.update s.pcs t pc }

def setCell (s : Writeback n) (fid : Nat) (c : Cell n) : Writeback n :=
  { s with cells := Function.update s.cells fid c }

/-- A read latch is taken. -/
def share (s : Writeback n) (t : Fin n) (fid : Nat) : Writeback n :=
  s.setCell fid { s.cells fid with readers := t :: (s.cells fid).readers }

def unshare (s : Writeback n) (t : Fin n) (fid : Nat) : Writeback n :=
  s.setCell fid { s.cells fid with readers := (s.cells fid).readers.erase t }

/-- `write_page` under the read latch, which is released. -/
def store (s : Writeback n) (t : Fin n) (fid pid : Nat) : Writeback n :=
  { s.unshare t fid with
    disk := Function.update s.disk pid (s.cells fid).lsn
    stored := ((s.cells fid).lsn, s.wal.flushedLsn) :: s.stored }

/-- The log has made a step for a thread. When its call has returned, the thread goes on; a call
that failed ends the call of the pool. -/
def resume (s : Writeback n) (t : Fin n) (wal : WalManager n) (failed : Bool) : Writeback n :=
  let s := { s with wal := wal }
  if wal.pcs t ≠ .idle then s
  else
    match s.pcs t with
    | .logging none => s.goto t .idle
    | .logging (some fid) => s.goto t (.writing fid)
    | .forcingAll target => s.goto t (if failed then .idle else .scanning target 0)
    | .forcingOne fid pid _ evicts =>
      if failed then (s.unshare t fid).goto t .idle
      else s.goto t (.copyingOne fid pid evicts)
    | _ => s

/-- A call of the log from outside the pool, or a step of the one under way. -/
def logStep (s : Writeback n) (t : Fin n) (act : WalAct) : Option (Writeback n) :=
  match act, s.pcs t with
  | .append, .idle | .flush, .idle | .flushTo _, .idle =>
    (s.wal.step (t, act)).map fun wal => (s.goto t (.logging none)).resume t wal false
  | .append, .writing fid | .flush, .writing fid | .flushTo _, .writing fid =>
    (s.wal.step (t, act)).map fun wal => (s.goto t (.logging (some fid))).resume t wal false
  | .next, _ | .timeout, _ => (s.wal.step (t, act)).map fun wal => s.resume t wal false
  | .fail, _ => (s.wal.step (t, act)).map fun wal => s.resume t wal true
  | _, _ => none

/-- The next step of the call of the pool a thread is in. -/
def nextStep (s : Writeback n) (t : Fin n) : Pc → Option (Writeback n)
  | .dropping fid => some ((s.setCell fid { s.cells fid with dirty := true }).goto t .idle)
  | .scanning target fid =>
    if s.count ≤ fid then some (s.goto t .idle)
    else
      match (s.cells fid).dirty, (s.cells fid).pageId with
      | true, some pid => some (s.goto t (.wanting target fid pid))
      | _, _ => some (s.goto t (.scanning target (fid + 1)))
  | .wanting target fid pid =>
    if (s.cells fid).writer ≠ none then none
    else some ((s.share t fid).goto t (.copying target fid pid))
  | .copying target fid pid => some ((s.store t fid pid).goto t (.cleaning target fid))
  | .cleaning target fid =>
    some ((s.setCell fid { s.cells fid with dirty := false }).goto t (.scanning target (fid + 1)))
  | .wantingOne fid pid evicts =>
    if (s.cells fid).writer ≠ none then none
    else
      let lsn := (s.cells fid).lsn
      (s.wal.step (t, .flushTo lsn)).map fun wal =>
        ((s.share t fid).goto t (.forcingOne fid pid lsn evicts)).resume t wal false
  | .copyingOne fid pid evicts => some ((s.store t fid pid).goto t (.cleaningOne fid evicts))
  | .cleaningOne fid evicts =>
    some ((s.setCell fid { s.cells fid with
      dirty := false
      pageId := if evicts then none else (s.cells fid).pageId }).goto t .idle)
  | _ => none

/-- `flush_page` or `evict`. A clean frame is not copied. -/
def startOne (s : Writeback n) (t : Fin n) (fid : Nat) (evicts : Bool) : Writeback n :=
  match (s.cells fid).pageId, (s.cells fid).dirty with
  | some pid, true => s.goto t (.wantingOne fid pid evicts)
  | some _, false => if evicts then s.goto t (.cleaningOne fid true) else s
  | none, _ => s

/-- One atomic step of one thread. -/
def step (s : Writeback n) (l : Fin n × Act) : Option (Writeback n) :=
  match l.2, s.pcs l.1 with
  | .log act, _ => s.logStep l.1 act
  | .next, pc => s.nextStep l.1 pc
  | .latch fid, .idle =>
    let c := s.cells fid
    if c.writer = none ∧ c.readers = [] then
      some ((s.setCell fid { c with writer := some l.1 }).goto l.1 (.writing fid))
    else none
  | .stamp lsn, .writing fid =>
    if lsn ∈ s.wal.own l.1 then some (s.setCell fid { s.cells fid with lsn := lsn }) else none
  | .unlatch, .writing fid =>
    some ((s.setCell fid { s.cells fid with writer := none }).goto l.1 (.dropping fid))
  | .forget, .dropping _ => some (s.goto l.1 .idle)
  | .flushAll, .idle =>
    (s.wal.step (l.1, .flush)).map fun wal =>
      (s.goto l.1 (.forcingAll (s.wal.nextLsn - 1))).resume l.1 wal false
  | .flushOne fid evicts, .idle => some (s.startOne l.1 fid evicts)
  | .load fid pid fresh, .idle =>
    let c := s.cells fid
    if c.pageId = none ∧ c.writer = none ∧ c.readers = [] then
      some (s.setCell fid
        { c with lsn := if fresh then 0 else s.disk pid, pageId := some pid, dirty := fresh })
    else none
  | _, _ => none

/-- A writer does not get ahead of a `flush_all`: what it stamps on a page still to be copied was
reserved before the log was forced for the copy, or is durable. -/
def Behind (s : Writeback n) (l : Fin n × Act) : Prop :=
  match l.2, s.pcs l.1 with
  | .stamp lsn, .writing fid =>
    ∀ u, ∀ target ∈ (s.pcs u).ahead fid, lsn ≤ target ∨ lsn ≤ s.wal.flushedLsn
  | _, _ => True

instance (s : Writeback n) (l : Fin n × Act) : Decidable (s.Behind l) := by
  unfold Behind
  split <;> infer_instance

end Writeback

/-! ## The log -/

variable {n : Nat}

/-- The counter is past everything that was handed out. -/
structure Bounds (w : WalManager n) : Prop where
  flushed : w.flushedLsn < w.nextLsn
  own : ∀ u, ∀ lsn ∈ w.own u, lsn < w.nextLsn
  reserved : ∀ u lsn, w.pcs u = .reserved lsn → lsn < w.nextLsn
  loaded : ∀ u want nowDurable, w.pcs u = .loaded want nowDurable → nowDurable < w.nextLsn
  published : ∀ u want nowDurable, w.pcs u = .published want nowDurable → nowDurable ≤ w.flushedLsn

/-- A thread is in a call that will not return before the log is durable up to `target`. -/
def Forces (target : Nat) : WalPc → Prop
  | .idle | .reserved _ => False
  | .queued lsn | .waiting lsn | .late lsn => target ≤ lsn
  | .leading _ | .holding _ | .synced _ => True
  | .loaded _ nowDurable | .published _ nowDurable => target ≤ nowDurable

/-- What a step of thread `t` keeps of the log. -/
structure LogStep (w w' : WalManager n) (t : Fin n) : Prop where
  next : w.nextLsn ≤ w'.nextLsn
  flushed : w.flushedLsn ≤ w'.flushedLsn
  pcs : ∀ u, u ≠ t → w'.pcs u = w.pcs u
  bounds : Bounds w'

section Log

variable {w w' : WalManager n} {t : Fin n} {act : WalAct}

theorem goto_pcs_self (w : WalManager n) (t : Fin n) (pc : WalPc) : (w.goto t pc).pcs t = pc :=
  Function.update_self ..

/-- A place without an LSN of its own. -/
def Plain : WalPc → Prop
  | .reserved _ | .loaded _ _ | .published _ _ => False
  | _ => True

/-- A step that changes neither the counters nor what was returned. -/
theorem Bounds.goto (h : Bounds w) (pc : WalPc) (hpcs : w'.pcs = Function.update w.pcs t pc)
    (hsame : (w'.nextLsn, w'.flushedLsn, w'.own) = (w.nextLsn, w.flushedLsn, w.own))
    (hres : ∀ lsn, pc = .reserved lsn → lsn < w.nextLsn)
    (hload : ∀ want nowDurable, pc = .loaded want nowDurable → nowDurable < w.nextLsn)
    (hpub : ∀ want nowDurable, pc = .published want nowDurable → nowDurable ≤ w.flushedLsn) :
    LogStep w w' t := by
  simp only [Prod.mk.injEq] at hsame
  obtain ⟨hnext, hflushed, hown⟩ := hsame
  have hself : w'.pcs t = pc := by rw [hpcs, Function.update_self]
  have hne : ∀ u, u ≠ t → w'.pcs u = w.pcs u := fun u hu => by rw [hpcs, Function.update_of_ne hu]
  refine ⟨hnext.ge, hflushed.ge, hne, ?_, ?_, fun u lsn hu => ?_, fun u want nd hu => ?_,
    fun u want nd hu => ?_⟩
  · rw [hnext, hflushed]
    exact h.flushed
  · rw [hnext, hown]
    exact h.own
  all_goals
    by_cases hut : u = t
    · rw [hut, hself] at hu
      first
        | exact hnext ▸ hres lsn hu
        | exact hnext ▸ hload want nd hu
        | exact hflushed ▸ hpub want nd hu
    · rw [hne u hut] at hu
      first
        | exact hnext ▸ h.reserved u lsn hu
        | exact hnext ▸ h.loaded u want nd hu
        | exact hflushed ▸ h.published u want nd hu

theorem Bounds.move (h : Bounds w) (pc : WalPc) (hpcs : w'.pcs = Function.update w.pcs t pc)
    (hplain : Plain pc)
    (hsame : (w'.nextLsn, w'.flushedLsn, w'.own) = (w.nextLsn, w.flushedLsn, w.own)) :
    LogStep w w' t := by
  refine h.goto pc hpcs hsame ?_ ?_ ?_
  · rintro lsn rfl
    cases hplain
  · rintro want nd rfl
    cases hplain
  · rintro want nd rfl
    cases hplain

theorem Bounds.step (h : Bounds w) (m : WalManager.Move w t act w') : LogStep w w' t := by
  cases m with
  | reserve hpc =>
    have hlater : Bounds { w with nextLsn := w.nextLsn + 1 } :=
      ⟨Nat.lt_succ_of_lt h.flushed, fun u l hl => Nat.lt_succ_of_lt (h.own u l hl),
        fun u l hu => Nat.lt_succ_of_lt (h.reserved u l hu),
        fun u want nd hu => Nat.lt_succ_of_lt (h.loaded u want nd hu), h.published⟩
    have hmove : LogStep { w with nextLsn := w.nextLsn + 1 }
        { w.goto t (.reserved w.nextLsn) with nextLsn := w.nextLsn + 1 } t :=
      hlater.goto (.reserved w.nextLsn) rfl rfl
        (fun lsn hpc => by cases hpc; exact Nat.lt_succ_self _) nofun nofun
    exact ⟨Nat.le_succ _, hmove.flushed, hmove.pcs, hmove.bounds⟩
  | @write lsn hpc _ =>
    have hmove : LogStep w (w.goto t .idle) t := h.move .idle rfl trivial rfl
    refine ⟨hmove.next, hmove.flushed, hmove.pcs, hmove.bounds.flushed, fun u l hl => ?_,
      hmove.bounds.reserved, hmove.bounds.loaded, hmove.bounds.published⟩
    by_cases hut : u = t
    · subst hut
      simp only [Function.update_self] at hl
      rcases List.mem_cons.1 hl with rfl | hl
      · exact h.reserved u l hpc
      · exact h.own u l hl
    · simp only [Function.update_of_ne hut] at hl
      exact h.own u l hl
  | lose _ _ | covered _ | breakOff _ | finish _ _ => exact h.move .idle rfl trivial rfl
  | target _ => exact h.move (.queued _) rfl trivial rfl
  | await _ _ => exact h.move (.waiting _) rfl trivial rfl
  | giveUp _ => exact h.move (.late _) rfl trivial rfl
  | lead _ => exact h.move (.leading _) rfl trivial rfl
  | hold _ _ => exact h.move (.holding _) rfl trivial rfl
  | sync _ => exact h.move (.synced _) rfl trivial rfl
  | @load want _ =>
    refine h.goto (.loaded want (w.nextLsn - 1)) rfl rfl nofun (fun want' nd hpc => ?_) nofun
    cases hpc
    have := h.flushed
    omega
  | @publish want nowDurable hpc =>
    have hlater : Bounds { w with flushedLsn := max w.flushedLsn nowDurable } :=
      ⟨max_lt h.flushed (h.loaded t want nowDurable hpc), h.own, h.reserved, h.loaded,
        fun u want' nd hu => Nat.le_trans (h.published u want' nd hu) (Nat.le_max_left _ _)⟩
    have hmove : LogStep { w with flushedLsn := max w.flushedLsn nowDurable }
        { w.goto t (.published want nowDurable) with flushedLsn := max w.flushedLsn nowDurable } t :=
      hlater.goto (.published want nowDurable) rfl rfl nofun nofun
        fun want' nd hpub => by cases hpub; exact Nat.le_max_right _ _
    exact ⟨hmove.next, Nat.le_max_left _ _, hmove.pcs, hmove.bounds⟩

/-- A force goes on, or it is over: it failed or the log is durable up to its target. -/
theorem Forces.step {target : Nat} (hb : Bounds w) (h : Forces target (w.pcs t))
    (hlt : target < w.nextLsn) (m : WalManager.Move w t act w') :
    Forces target (w'.pcs t) ∨
      w'.pcs t = .idle ∧ (act = .fail ∨ target ≤ w'.flushedLsn) := by
  cases m with
  | reserve hpc | write hpc _ | lose hpc _ | target hpc | await hpc _ =>
    rw [hpc] at h
    cases h
  | covered hwant =>
    refine Or.inr ⟨goto_pcs_self w t .idle, Or.inr ?_⟩
    show target ≤ w.flushedLsn
    rcases hwant with ⟨-, lsn, hpc, hle⟩ | ⟨lsn, -, hle, ⟨hpc, -⟩ | hpc | hpc⟩ <;> rw [hpc] at h
    · exact Nat.le_trans h hle
    · cases h
    · exact Nat.le_trans h hle
    · exact Nat.le_trans h hle
  | giveUp hpc =>
    rw [hpc] at h
    exact Or.inl ((goto_pcs_self w t _).symm ▸ h)
  | lead _ | hold _ _ | sync _ =>
    refine Or.inl ?_
    show Forces target ((w.goto t _).pcs t)
    rw [goto_pcs_self]
    trivial
  | breakOff _ => exact Or.inr ⟨goto_pcs_self w t .idle, Or.inl rfl⟩
  | load _ =>
    refine Or.inl ?_
    rw [goto_pcs_self]
    show target ≤ w.nextLsn - 1
    omega
  | @publish want nowDurable hpc =>
    rw [hpc] at h
    exact Or.inl ((goto_pcs_self w t (.published want nowDurable)).symm ▸ h)
  | @finish want nowDurable hpc _ =>
    rw [hpc] at h
    exact Or.inr ⟨goto_pcs_self w t .idle, Or.inr (Nat.le_trans h (hb.published t want nowDurable hpc))⟩

/-- A force begins. -/
theorem forces_flush (h : w.step (t, .flush) = some w') : Forces (w.nextLsn - 1) (w'.pcs t) := by
  simp only [WalManager.step] at h
  split at h
  · cases h
  · cases h
    rw [goto_pcs_self]
    exact Nat.le_refl _

theorem forces_flushTo {lsn : Nat} (h : w.step (t, .flushTo lsn) = some w') :
    Forces lsn (w'.pcs t) ∨ w'.pcs t = .idle ∧ lsn ≤ w'.flushedLsn := by
  simp only [WalManager.step] at h
  split at h
  · cases h
  · split at h
    · next hle =>
      cases h
      exact Or.inr ⟨goto_pcs_self w t .idle, hle⟩
    · cases h
      refine Or.inl ?_
      rw [goto_pcs_self]
      exact Nat.le_refl _

end Log

/-! ## The invariant -/

namespace Writeback

/-- The frames from `fid` on are durable. -/
def DurableFrom (s : Writeback n) (fid : Nat) : Prop :=
  ∀ f, fid ≤ f → (s.cells f).lsn ≤ s.wal.flushedLsn

/-- What a thread relies on where it is. -/
def PcOk (s : Writeback n) (t : Fin n) : Pc → Prop
  | .logging (some fid) | .writing fid => (s.cells fid).writer = some t
  | .forcingAll target => target < s.wal.nextLsn ∧ Forces target (s.wal.pcs t) ∧
    ∀ f, (s.cells f).lsn ≤ target ∨ (s.cells f).lsn ≤ s.wal.flushedLsn
  | .scanning target fid | .wanting target fid _ =>
    target ≤ s.wal.flushedLsn ∧ s.DurableFrom fid
  | .copying target fid _ =>
    t ∈ (s.cells fid).readers ∧ target ≤ s.wal.flushedLsn ∧ s.DurableFrom fid
  | .cleaning target fid => target ≤ s.wal.flushedLsn ∧ s.DurableFrom (fid + 1)
  | .forcingOne fid _ lsn _ =>
    t ∈ (s.cells fid).readers ∧ (s.cells fid).lsn = lsn ∧ Forces lsn (s.wal.pcs t)
  | .copyingOne fid _ _ =>
    t ∈ (s.cells fid).readers ∧ (s.cells fid).lsn ≤ s.wal.flushedLsn
  | _ => True

structure Inv (s : Writeback n) : Prop where
  bounds : Bounds s.wal
  stored : ∀ e ∈ s.stored, e.1 ≤ e.2
  disk : ∀ pid, s.disk pid ≤ s.wal.flushedLsn
  lsn : ∀ f, (s.cells f).lsn < s.wal.nextLsn
  latch : ∀ f, (s.cells f).writer ≠ none → (s.cells f).readers = []
  pcs : ∀ u, s.PcOk u (s.pcs u)

/-- What a step of thread `t` does to the frames. A page LSN changes only where no one else reads,
and to one that is durable or covered by the force of every `flush_all` still to come. -/
structure CellStep (s s' : Writeback n) (t : Fin n) : Prop where
  lsn : ∀ f, (s'.cells f).lsn < s'.wal.nextLsn
  latch : ∀ f, (s'.cells f).writer ≠ none → (s'.cells f).readers = []
  writer : ∀ u, u ≠ t → ∀ f, (s.cells f).writer = some u → (s'.cells f).writer = some u
  readers : ∀ u, u ≠ t → ∀ f, u ∈ (s.cells f).readers → u ∈ (s'.cells f).readers
  stamped : ∀ f, (s'.cells f).lsn = (s.cells f).lsn ∨ ∀ u, u ≠ t → u ∉ (s.cells f).readers ∧
    ∀ target ∈ (s.pcs u).ahead f, (s'.cells f).lsn ≤ target ∨ (s'.cells f).lsn ≤ s'.wal.flushedLsn

variable {s s' : Writeback n} {t : Fin n}

/-- The frames from `fid` on stay durable, if a `flush_all` has them ahead. -/
theorem DurableFrom.step {fid target : Nat} {u : Fin n} (h : s.DurableFrom fid)
    (htarget : target ≤ s.wal.flushedLsn) (hlog : LogStep s.wal s'.wal t)
    (hcells : CellStep s s' t) (hu : u ≠ t)
    (hahead : ∀ f, fid ≤ f → u ∉ (s.cells f).readers → (s.pcs u).ahead f = some target) :
    s'.DurableFrom fid := by
  intro f hf
  rcases hcells.stamped f with heq | hstamp
  · rw [heq]
    exact Nat.le_trans (h f hf) hlog.flushed
  · obtain ⟨hread, hle⟩ := hstamp u hu
    rcases hle target (hahead f hf hread) with hle | hle
    · exact Nat.le_trans hle (Nat.le_trans htarget hlog.flushed)
    · exact hle

/-- A frame that someone reads keeps its LSN. -/
theorem lsn_of_reader {f : Nat} {u : Fin n} (hcells : CellStep s s' t) (hu : u ≠ t)
    (hread : u ∈ (s.cells f).readers) : (s'.cells f).lsn = (s.cells f).lsn := by
  rcases hcells.stamped f with heq | hstamp
  · exact heq
  · exact absurd hread (hstamp u hu).1

/-- Another thread's step. -/
theorem PcOk.step {u : Fin n} (h : s.PcOk u (s.pcs u)) (hlog : LogStep s.wal s'.wal t)
    (hcells : CellStep s s' t) (hu : u ≠ t) : s'.PcOk u (s.pcs u) := by
  cases hpc : s.pcs u with
  | idle | dropping _ | wantingOne _ _ _ | cleaningOne _ _ => trivial
  | logging latched =>
    cases latched with
    | none => trivial
    | some fid =>
      rw [hpc] at h
      exact hcells.writer u hu fid h
  | writing fid =>
    rw [hpc] at h
    exact hcells.writer u hu fid h
  | forcingAll target =>
    rw [hpc] at h
    obtain ⟨hlt, hforce, hall⟩ := h
    refine ⟨Nat.lt_of_lt_of_le hlt hlog.next, ?_, fun f => ?_⟩
    · rw [hlog.pcs u hu]
      exact hforce
    · rcases hcells.stamped f with heq | hstamp
      · rw [heq]
        exact (hall f).imp_right fun hle => Nat.le_trans hle hlog.flushed
      · exact (hstamp u hu).2 target (by rw [hpc]; rfl)
  | scanning target fid | wanting target fid pid | cleaning target fid =>
    rw [hpc] at h
    obtain ⟨htarget, hall⟩ := h
    refine ⟨Nat.le_trans htarget hlog.flushed, hall.step htarget hlog hcells hu fun f hf _ => ?_⟩
    rw [hpc]
    exact if_pos hf
  | copying target fid pid =>
    rw [hpc] at h
    obtain ⟨hread, htarget, hall⟩ := h
    refine ⟨hcells.readers u hu fid hread, Nat.le_trans htarget hlog.flushed,
      hall.step htarget hlog hcells hu fun f hf hnot => ?_⟩
    rw [hpc]
    -- its own frame is latched
    have hne : fid ≠ f := by
      rintro rfl
      exact hnot hread
    exact if_pos (Nat.lt_of_le_of_ne hf hne)
  | forcingOne fid pid lsn evicts =>
    rw [hpc] at h
    obtain ⟨hread, hlsn, hforce⟩ := h
    refine ⟨hcells.readers u hu fid hread, (lsn_of_reader hcells hu hread).trans hlsn, ?_⟩
    rw [hlog.pcs u hu]
    exact hforce
  | copyingOne fid pid evicts =>
    rw [hpc] at h
    obtain ⟨hread, hle⟩ := h
    refine ⟨hcells.readers u hu fid hread, ?_⟩
    rw [lsn_of_reader hcells hu hread]
    exact Nat.le_trans hle hlog.flushed

/-- **The step rule.** -/
theorem Inv.of_step (h : s.Inv) (hlog : LogStep s.wal s'.wal t)
    (hpcs : ∀ u, u ≠ t → s'.pcs u = s.pcs u) (hcells : CellStep s s' t)
    (hstored : ∀ e ∈ s'.stored, e.1 ≤ e.2) (hdisk : ∀ pid, s'.disk pid ≤ s'.wal.flushedLsn)
    (hpc : s'.PcOk t (s'.pcs t)) : s'.Inv := by
  refine ⟨hlog.bounds, hstored, hdisk, hcells.lsn, hcells.latch, fun u => ?_⟩
  by_cases hut : u = t
  · rw [hut]
    exact hpc
  · rw [hpcs u hut]
    exact (h.pcs u).step hlog hcells hut

theorem logStep_refl {w : WalManager n} (h : Bounds w) : LogStep w w t :=
  ⟨Nat.le_refl _, Nat.le_refl _, fun _ _ => rfl, h⟩

/-- The frames are what they were. -/
theorem Inv.cellsSame (h : s.Inv) (hlog : LogStep s.wal s'.wal t) (hsame : s'.cells = s.cells) :
    CellStep s s' t := by
  refine ⟨fun f => ?_, fun f => ?_, fun u _ f => ?_, fun u _ f => ?_, fun f => Or.inl ?_⟩ <;>
    rw [hsame]
  · exact Nat.lt_of_lt_of_le (h.lsn f) hlog.next
  · exact h.latch f
  · exact id
  · exact id

/-- One frame changes and keeps its LSN. -/
theorem Inv.cellsKept (h : s.Inv) (fid : Nat) {c : Cell n} (hlog : LogStep s.wal s'.wal t)
    (hcell : s'.cells = Function.update s.cells fid c) (hlsn : c.lsn = (s.cells fid).lsn)
    (hlatch : c.writer ≠ none → c.readers = [])
    (hwriter : ∀ u, u ≠ t → (s.cells fid).writer = some u → c.writer = some u)
    (hreaders : ∀ u, u ≠ t → u ∈ (s.cells fid).readers → u ∈ c.readers) : CellStep s s' t := by
  have hself : s'.cells fid = c := by
    rw [hcell]
    exact Function.update_self ..
  have hne : ∀ f, f ≠ fid → s'.cells f = s.cells f := fun f hf => by
    rw [hcell]
    exact Function.update_of_ne hf ..
  have hkept : ∀ f, (s'.cells f).lsn = (s.cells f).lsn := by
    intro f
    by_cases hf : f = fid
    · rw [hf, hself, hlsn]
    · rw [hne f hf]
  refine ⟨fun f => ?_, fun f => ?_, fun u hu f hw => ?_, fun u hu f hr => ?_,
    fun f => Or.inl (hkept f)⟩
  · rw [hkept]
    exact Nat.lt_of_lt_of_le (h.lsn f) hlog.next
  · by_cases hf : f = fid
    · rw [hf, hself]
      exact hlatch
    · rw [hne f hf]
      exact h.latch f
  · by_cases hf : f = fid
    · rw [hf, hself]
      exact hwriter u hu (hf ▸ hw)
    · rw [hne f hf]
      exact hw
  · by_cases hf : f = fid
    · rw [hf, hself]
      exact hreaders u hu (hf ▸ hr)
    · rw [hne f hf]
      exact hr

/-! ## Calls of the log -/

/-- A thread goes elsewhere, and nothing else happens. -/
theorem Inv.goto (h : s.Inv) {pc : Pc} (hpc : (s.goto t pc).PcOk t pc) : (s.goto t pc).Inv := by
  have hlog : LogStep s.wal (s.goto t pc).wal t := logStep_refl h.bounds
  refine h.of_step hlog (fun u hu => Function.update_of_ne hu ..) (h.cellsSame hlog rfl) h.stored
    h.disk ?_
  show (s.goto t pc).PcOk t (Function.update s.pcs t pc t)
  rw [Function.update_self]
  exact hpc

/-- What holds of a thread in a call of the log, once the log has made its step. -/
def CallOk (s : Writeback n) (t : Fin n) (failed : Bool) : Pc → Prop
  | .logging (some fid) => (s.cells fid).writer = some t
  | .forcingAll target => target < s.wal.nextLsn ∧
    (Forces target (s.wal.pcs t) ∨
      s.wal.pcs t = .idle ∧ (failed = true ∨ target ≤ s.wal.flushedLsn)) ∧
    ∀ f, (s.cells f).lsn ≤ target ∨ (s.cells f).lsn ≤ s.wal.flushedLsn
  | .forcingOne fid _ lsn _ =>
    t ∈ (s.cells fid).readers ∧ (s.cells fid).lsn = lsn ∧
      (Forces lsn (s.wal.pcs t) ∨
        s.wal.pcs t = .idle ∧ (failed = true ∨ lsn ≤ s.wal.flushedLsn))
  | pc => s.PcOk t pc

theorem Inv.unshare (h : s.Inv) (fid : Nat) :
    CellStep s (s.unshare t fid) t := by
  refine h.cellsKept fid (logStep_refl h.bounds) rfl rfl (fun hw => ?_) (fun _ _ hw => hw)
    fun u hu hr => (List.mem_erase_of_ne hu).2 hr
  rw [h.latch fid hw]
  rfl

/-- The log's step is in; the thread goes on when its call has returned. -/
theorem Inv.resume {wal : WalManager n} {failed : Bool} (h : s.Inv) (hlog : LogStep s.wal wal t)
    (hcells : CellStep s { s' with wal := wal } t) (hpcs : ∀ u, u ≠ t → s'.pcs u = s.pcs u)
    (hstored : s'.stored = s.stored) (hdisk : s'.disk = s.disk)
    (hcall : CallOk { s' with wal := wal } t failed (s'.pcs t)) : (s'.resume t wal failed).Inv := by
  set s₁ : Writeback n := { s' with wal := wal } with hs₁
  have hkeep : s₁.PcOk t (s₁.pcs t) → s₁.Inv := by
    refine h.of_step hlog hpcs hcells ?_ fun pid => ?_
    · rw [show s₁.stored = s.stored from hstored]
      exact h.stored
    · rw [show s₁.disk = s.disk from hdisk]
      exact Nat.le_trans (h.disk pid) hlog.flushed
  -- a thread between two calls: it is put somewhere harmless first
  have hidle : (s₁.goto t .idle).Inv := by
    refine @Inv.of_step n s (s₁.goto t .idle) t h hlog (fun u hu => ?_) ?_ ?_ (fun pid => ?_) ?_
    · exact (Function.update_of_ne hu ..).trans (hpcs u hu)
    · exact ⟨hcells.lsn, hcells.latch, hcells.writer, hcells.readers, hcells.stamped⟩
    · show ∀ e ∈ s'.stored, e.1 ≤ e.2
      rw [hstored]
      exact h.stored
    · show s'.disk pid ≤ wal.flushedLsn
      rw [hdisk]
      exact Nat.le_trans (h.disk pid) hlog.flushed
    · rw [show (s₁.goto t .idle).pcs t = .idle from Function.update_self ..]
      trivial
  have hgoto : ∀ pc, (s₁.goto t pc).PcOk t pc → (s₁.goto t pc).Inv := by
    intro pc hpc
    have hsame : (s₁.goto t .idle).goto t pc = s₁.goto t pc := by
      unfold Writeback.goto
      simp only [Function.update_idem]
    have := @Inv.goto n _ t hidle pc (by rw [hsame]; exact hpc)
    rwa [hsame] at this
  unfold Writeback.resume
  simp only
  by_cases hback : wal.pcs t ≠ .idle
  · rw [if_pos hback]
    refine hkeep ?_
    show s₁.PcOk t (s'.pcs t)
    have hnot : ¬ (s₁.wal.pcs t = .idle) := hback
    cases hpc : s'.pcs t with
    | logging latched =>
      rw [hpc] at hcall
      cases latched with
      | none => trivial
      | some fid => exact hcall
    | forcingAll target =>
      rw [hpc] at hcall
      exact ⟨hcall.1, hcall.2.1.resolve_right fun hret => hnot hret.1, hcall.2.2⟩
    | forcingOne fid pid lsn evicts =>
      rw [hpc] at hcall
      exact ⟨hcall.1, hcall.2.1, hcall.2.2.resolve_right fun hret => hnot hret.1⟩
    | _ =>
      rw [hpc] at hcall
      exact hcall
  · rw [if_neg hback]
    have hback : s₁.wal.pcs t = .idle := not_not.1 hback
    show Inv (match s'.pcs t with
      | .logging none => s₁.goto t .idle
      | .logging (some fid) => s₁.goto t (.writing fid)
      | .forcingAll target => s₁.goto t (if failed then .idle else .scanning target 0)
      | .forcingOne fid pid _ evicts =>
        if failed then (s₁.unshare t fid).goto t .idle
        else s₁.goto t (.copyingOne fid pid evicts)
      | _ => s₁)
    cases hpc : s'.pcs t with
    | logging latched =>
      rw [hpc] at hcall
      cases latched with
      | none => exact hidle
      | some fid => exact hgoto _ hcall
    | forcingAll target =>
      rw [hpc] at hcall
      obtain ⟨-, hforce, hall⟩ := hcall
      rw [hback] at hforce
      cases failed with
      | true => exact hidle
      | false =>
        have htarget : target ≤ s₁.wal.flushedLsn := by
          rcases hforce with hforce | ⟨-, hfail | hle⟩
          · cases hforce
          · cases hfail
          · exact hle
        refine hgoto _ ⟨htarget, fun f _ => ?_⟩
        rcases hall f with hle | hle
        · exact Nat.le_trans hle htarget
        · exact hle
    | forcingOne fid pid lsn evicts =>
      rw [hpc] at hcall
      obtain ⟨hread, hlsn, hforce⟩ := hcall
      rw [hback] at hforce
      cases failed with
      | true =>
        have hsame : (s₁.unshare t fid).goto t .idle = (s₁.goto t .idle).unshare t fid := rfl
        show Inv ((s₁.unshare t fid).goto t .idle)
        rw [hsame]
        refine hidle.of_step (t := t) (logStep_refl hidle.bounds) (fun _ _ => rfl)
          (hidle.unshare fid) hidle.stored hidle.disk ?_
        rw [show ((s₁.goto t .idle).unshare t fid).pcs t = .idle from Function.update_self ..]
        trivial
      | false =>
        refine hgoto _ ⟨hread, ?_⟩
        show (s₁.cells fid).lsn ≤ s₁.wal.flushedLsn
        rcases hforce with hforce | ⟨-, hfail | hle⟩
        · cases hforce
        · cases hfail
        · rw [hlsn]
          exact hle
    | _ =>
      rw [hpc] at hcall
      exact hkeep (by rw [show s₁.pcs t = s'.pcs t from rfl, hpc]; exact hcall)

theorem Inv.logStep {act : WalAct} (h : s.Inv) (hs : s.logStep t act = some s') : s'.Inv := by
  -- a call from outside the pool
  have hcall : ∀ latched wal, s.wal.step (t, act) = some wal →
      CallOk { s.goto t (.logging latched) with wal := wal } t false (.logging latched) →
      ((s.goto t (.logging latched)).resume t wal false).Inv := by
    intro latched wal hw hok
    have hlog := h.bounds.step (WalManager.step_move hw)
    refine h.resume hlog (h.cellsSame hlog rfl) (fun u hu => Function.update_of_ne hu ..) rfl rfl ?_
    show CallOk _ t false (Function.update s.pcs t _ t)
    rw [Function.update_self]
    exact hok
  -- a step of the call under way
  have hmid : ∀ wal failed, s.wal.step (t, act) = some wal → (act = .fail → failed = true) →
      (s.resume t wal failed).Inv := by
    intro wal failed hw hfail
    have m := WalManager.step_move hw
    have hlog := h.bounds.step m
    refine @Inv.resume n s s t wal failed h hlog (h.cellsSame hlog rfl) (fun _ _ => rfl) rfl rfl ?_
    have hpc := h.pcs t
    have hover : ∀ {target}, Forces target (wal.pcs t) ∨
        wal.pcs t = .idle ∧ (act = .fail ∨ target ≤ wal.flushedLsn) →
        Forces target (wal.pcs t) ∨ wal.pcs t = .idle ∧ (failed = true ∨ target ≤ wal.flushedLsn) :=
      fun hf => hf.imp_right fun hret => ⟨hret.1, hret.2.imp_left hfail⟩
    cases hcase : s.pcs t with
    | logging latched =>
      rw [hcase] at hpc
      cases latched with
      | none => trivial
      | some fid => exact hpc
    | forcingAll target =>
      rw [hcase] at hpc
      obtain ⟨hlt, hforce, hall⟩ := hpc
      refine ⟨Nat.lt_of_lt_of_le hlt hlog.next, hover (hforce.step h.bounds hlt m), fun f => ?_⟩
      exact (hall f).imp_right fun hle => Nat.le_trans hle hlog.flushed
    | forcingOne fid pid lsn evicts =>
      rw [hcase] at hpc
      obtain ⟨hread, hlsn, hforce⟩ := hpc
      have hlt : lsn < s.wal.nextLsn := hlsn ▸ h.lsn fid
      exact ⟨hread, hlsn, hover (hforce.step h.bounds hlt m)⟩
    | scanning target fid | wanting target fid pid | cleaning target fid =>
      rw [hcase] at hpc
      exact ⟨Nat.le_trans hpc.1 hlog.flushed, fun f hf => Nat.le_trans (hpc.2 f hf) hlog.flushed⟩
    | copying target fid pid =>
      rw [hcase] at hpc
      exact ⟨hpc.1, Nat.le_trans hpc.2.1 hlog.flushed,
        fun f hf => Nat.le_trans (hpc.2.2 f hf) hlog.flushed⟩
    | copyingOne fid pid evicts =>
      rw [hcase] at hpc
      exact ⟨hpc.1, Nat.le_trans hpc.2 hlog.flushed⟩
    | writing fid =>
      rw [hcase] at hpc
      exact hpc
    | _ => trivial
  have hlatched : ∀ fid wal, s.pcs t = .writing fid →
      CallOk { s.goto t (.logging (some fid)) with wal := wal } t false (.logging (some fid)) := by
    intro fid wal hpc
    have := h.pcs t
    rw [hpc] at this
    exact this
  unfold Writeback.logStep at hs
  split at hs
  all_goals first
    | cases hs
    | obtain ⟨wal, hw, rfl⟩ := Option.map_eq_some_iff.1 hs
  · exact hcall none wal hw trivial
  · exact hcall none wal hw trivial
  · exact hcall none wal hw trivial
  · exact hcall _ wal hw (hlatched _ wal ‹_›)
  · exact hcall _ wal hw (hlatched _ wal ‹_›)
  · exact hcall _ wal hw (hlatched _ wal ‹_›)
  · exact hmid wal false hw fun hf => by cases hf
  · exact hmid wal false hw fun hf => by cases hf
  · exact hmid wal true hw fun _ => rfl

/-! ## Calls of the pool -/

/-- One frame changes and keeps its LSN, and the thread goes elsewhere. -/
theorem Inv.setCell (h : s.Inv) {fid : Nat} {c : Cell n} {pc : Pc}
    (hlsn : c.lsn = (s.cells fid).lsn) (hlatch : c.writer ≠ none → c.readers = [])
    (hwriter : ∀ u, u ≠ t → (s.cells fid).writer = some u → c.writer = some u)
    (hreaders : ∀ u, u ≠ t → u ∈ (s.cells fid).readers → u ∈ c.readers)
    (hpc : ((s.setCell fid c).goto t pc).PcOk t pc) : ((s.setCell fid c).goto t pc).Inv := by
  have hlog : LogStep s.wal ((s.setCell fid c).goto t pc).wal t := logStep_refl h.bounds
  refine h.of_step hlog (fun u hu => Function.update_of_ne hu ..)
    (h.cellsKept fid hlog rfl hlsn hlatch hwriter hreaders) h.stored h.disk ?_
  rw [show ((s.setCell fid c).goto t pc).pcs t = pc from Function.update_self ..]
  exact hpc

theorem setCell_durableFrom {fid low : Nat} {c : Cell n} (h : s.DurableFrom low)
    (hlsn : c.lsn = (s.cells fid).lsn) : (s.setCell fid c).DurableFrom low := by
  intro f hf
  show (Function.update s.cells fid c f).lsn ≤ s.wal.flushedLsn
  by_cases hff : f = fid
  · rw [hff, Function.update_self, hlsn]
    exact h fid (hff ▸ hf)
  · rw [Function.update_of_ne hff]
    exact h f hf

/-- An image with a durable LSN is written. -/
theorem Inv.store (h : s.Inv) {fid pid : Nat} {pc : Pc} (hread : t ∈ (s.cells fid).readers)
    (hle : (s.cells fid).lsn ≤ s.wal.flushedLsn)
    (hpc : ((s.store t fid pid).goto t pc).PcOk t pc) : ((s.store t fid pid).goto t pc).Inv := by
  have hlog : LogStep s.wal ((s.store t fid pid).goto t pc).wal t := logStep_refl h.bounds
  refine h.of_step hlog (fun u hu => Function.update_of_ne hu ..) ?_ (fun e he => ?_)
    (fun q => ?_) ?_
  · refine h.cellsKept fid hlog rfl rfl (fun hw => ?_) (fun _ _ hw => hw)
      fun u hu hr => (List.mem_erase_of_ne hu).2 hr
    rw [h.latch fid hw] at hread
    cases hread
  · rcases List.mem_cons.1 he with rfl | he
    · exact hle
    · exact h.stored e he
  · show Function.update s.disk pid (s.cells fid).lsn q ≤ s.wal.flushedLsn
    by_cases hq : q = pid
    · rw [hq, Function.update_self]
      exact hle
    · rw [Function.update_of_ne hq]
      exact h.disk q
  · rw [show ((s.store t fid pid).goto t pc).pcs t = pc from Function.update_self ..]
    exact hpc

theorem store_durableFrom {fid pid low : Nat} (h : s.DurableFrom low) :
    (s.store t fid pid).DurableFrom low :=
  @setCell_durableFrom n s fid low { s.cells fid with readers := (s.cells fid).readers.erase t } h
    rfl

/-- A frame that no one reads gets another LSN. -/
theorem Inv.cellsStamped (h : s.Inv) {fid : Nat} {c : Cell n}
    (hwriter : c.writer = (s.cells fid).writer) (hold : (s.cells fid).readers = [])
    (hreaders : c.readers = []) (hlt : c.lsn < s.wal.nextLsn)
    (hahead : ∀ u, ∀ target ∈ (s.pcs u).ahead fid, c.lsn ≤ target ∨ c.lsn ≤ s.wal.flushedLsn) :
    CellStep s (s.setCell fid c) t := by
  have hself : (s.setCell fid c).cells fid = c := Function.update_self ..
  have hne : ∀ f, f ≠ fid → (s.setCell fid c).cells f = s.cells f :=
    fun f hf => Function.update_of_ne hf ..
  refine ⟨fun f => ?_, fun f => ?_, fun u _ f hw => ?_, fun u _ f hr => ?_, fun f => ?_⟩ <;>
    by_cases hf : f = fid
  · rw [hf, hself]
    exact hlt
  · rw [hne f hf]
    exact h.lsn f
  · rw [hf, hself]
    exact fun _ => hreaders
  · rw [hne f hf]
    exact h.latch f
  · rw [hf] at hw ⊢
    rw [hself, hwriter]
    exact hw
  · rw [hne f hf]
    exact hw
  · rw [hf, hold] at hr
    cases hr
  · rw [hne f hf]
    exact hr
  · rw [hf, hself]
    exact Or.inr fun u _ => ⟨by rw [hold]; exact List.not_mem_nil, hahead u⟩
  · exact Or.inl (by rw [hne f hf])

theorem Inv.nextStep (h : s.Inv) (hs : s.nextStep t (s.pcs t) = some s') : s'.Inv := by
  have hpc := h.pcs t
  cases hcase : s.pcs t with
  | dropping fid =>
    rw [hcase] at hs
    cases hs
    exact h.setCell rfl (h.latch fid) (fun _ _ hw => hw) (fun _ _ hr => hr) trivial
  | scanning target fid =>
    rw [hcase] at hs hpc
    simp only [Writeback.nextStep] at hs
    split at hs
    · cases hs
      exact h.goto trivial
    · split at hs
      · cases hs
        exact h.goto hpc
      · cases hs
        exact h.goto ⟨hpc.1, fun f hf => hpc.2 f (Nat.le_of_succ_le hf)⟩
  | wanting target fid pid =>
    rw [hcase] at hs hpc
    simp only [Writeback.nextStep] at hs
    split at hs
    · cases hs
    · rename_i hw
      cases hs
      refine h.setCell rfl (fun hw' => absurd hw' hw) (fun _ _ hw => hw)
        (fun _ _ hr => List.mem_cons_of_mem _ hr) ⟨?_, hpc.1, setCell_durableFrom hpc.2 rfl⟩
      show t ∈ (Function.update s.cells fid _ fid).readers
      rw [Function.update_self]
      exact List.mem_cons_self
  | copying target fid pid =>
    rw [hcase] at hs hpc
    cases hs
    have hrest : s.DurableFrom (fid + 1) := fun f hf => hpc.2.2 f (Nat.le_of_succ_le hf)
    exact h.store hpc.1 (hpc.2.2 fid (Nat.le_refl _))
      ⟨hpc.2.1, @store_durableFrom n s t fid pid _ hrest⟩
  | cleaning target fid =>
    rw [hcase] at hs hpc
    cases hs
    exact h.setCell rfl (h.latch fid) (fun _ _ hw => hw) (fun _ _ hr => hr)
      ⟨hpc.1, setCell_durableFrom hpc.2 rfl⟩
  | wantingOne fid pid evicts =>
    rw [hcase] at hs
    simp only [Writeback.nextStep] at hs
    split at hs
    · cases hs
    · rename_i hw
      obtain ⟨wal, hwal, rfl⟩ := Option.map_eq_some_iff.1 hs
      have hlog := h.bounds.step (WalManager.step_move hwal)
      refine h.resume hlog ?_ (fun u hu => Function.update_of_ne hu ..) rfl rfl ?_
      · exact h.cellsKept fid hlog rfl rfl (fun hw' => absurd hw' hw)
          (fun _ _ hw => hw) fun _ _ hr => List.mem_cons_of_mem _ hr
      · rw [show ((s.share t fid).goto t (.forcingOne fid pid (s.cells fid).lsn evicts)).pcs t =
          .forcingOne fid pid (s.cells fid).lsn evicts from Function.update_self ..]
        have hself : (s.share t fid).cells fid =
            { s.cells fid with readers := t :: (s.cells fid).readers } := Function.update_self ..
        refine ⟨?_, ?_, (forces_flushTo hwal).imp_right fun hret => ⟨hret.1, Or.inr hret.2⟩⟩
        · show t ∈ ((s.share t fid).cells fid).readers
          rw [hself]
          exact List.mem_cons_self
        · show ((s.share t fid).cells fid).lsn = _
          rw [hself]
  | copyingOne fid pid evicts =>
    rw [hcase] at hs hpc
    cases hs
    exact h.store hpc.1 hpc.2 trivial
  | cleaningOne fid evicts =>
    rw [hcase] at hs
    cases hs
    exact h.setCell rfl (h.latch fid) (fun _ _ hw => hw) (fun _ _ hr => hr) trivial
  | idle | logging _ | writing _ | forcingAll _ | forcingOne _ _ _ _ =>
    rw [hcase] at hs
    cases hs

theorem Inv.startOne (h : s.Inv) (t : Fin n) (fid : Nat) (evicts : Bool) :
    (s.startOne t fid evicts).Inv := by
  unfold Writeback.startOne
  split
  · exact h.goto trivial
  · split
    · exact h.goto trivial
    · exact h
  · exact h

theorem Inv.step {l : Fin n × Act} (h : s.Inv) (hbehind : s.Behind l)
    (hs : s.step l = some s') : s'.Inv := by
  obtain ⟨t, act⟩ := l
  have hpc := h.pcs t
  simp only [Writeback.step] at hs
  split at hs
  · exact h.logStep hs
  · exact h.nextStep hs
  · -- the latch is taken
    split at hs
    · next fid _ hfree =>
      cases hs
      refine h.setCell rfl (fun _ => hfree.2) (fun u hu hw => ?_) (fun _ _ hr => hr) ?_
      · rw [hfree.1] at hw
        cases hw
      · show (Function.update s.cells fid _ fid).writer = some t
        rw [Function.update_self]
    · cases hs
  · -- the page LSN is set
    split at hs
    · next lsn fid hat hown =>
      cases hs
      rw [hat] at hpc
      have hwriter : (s.cells fid).writer = some t := hpc
      have hnoreader : (s.cells fid).readers = [] := h.latch fid (by rw [hwriter]; simp)
      simp only [Behind, hat] at hbehind
      refine h.of_step (t := t) (logStep_refl h.bounds) (fun _ _ => rfl)
        (h.cellsStamped rfl hnoreader hnoreader (h.bounds.own t lsn hown) hbehind) h.stored h.disk ?_
      rw [show (s.setCell fid { s.cells fid with lsn := lsn }).pcs t = .writing fid from hat]
      show (Function.update s.cells fid _ fid).writer = some t
      rw [Function.update_self]
      exact hwriter
    · cases hs
  · -- the latch is released
    next fid hat =>
    cases hs
    rw [hat] at hpc
    refine h.setCell rfl (fun hw => absurd rfl hw) (fun u hu hw => ?_) (fun _ _ hr => hr) trivial
    rw [show (s.cells fid).writer = some t from hpc] at hw
    exact absurd (Option.some.inj hw).symm hu
  · cases hs
    exact h.goto trivial
  · -- `flush_all` starts its force
    obtain ⟨wal, hwal, rfl⟩ := Option.map_eq_some_iff.1 hs
    have hlog := h.bounds.step (WalManager.step_move hwal)
    refine h.resume hlog (h.cellsSame hlog rfl) (fun u hu => Function.update_of_ne hu ..) rfl rfl ?_
    rw [show (s.goto t (.forcingAll (s.wal.nextLsn - 1))).pcs t =
      .forcingAll (s.wal.nextLsn - 1) from Function.update_self ..]
    have hpos := h.bounds.flushed
    have hnext := hlog.next
    refine ⟨?_, Or.inl (forces_flush hwal), fun f => Or.inl ?_⟩
    · show s.wal.nextLsn - 1 < wal.nextLsn
      omega
    · have hlt := h.lsn f
      show (s.cells f).lsn ≤ s.wal.nextLsn - 1
      omega
  · cases hs
    exact h.startOne _ _ _
  · -- a frame gets a page
    split at hs
    · next fid pid fresh hat hempty =>
      cases hs
      set lsn := if fresh then 0 else s.disk pid with hlsn
      have hle : lsn ≤ s.wal.flushedLsn := by
        rw [hlsn]
        split
        · exact Nat.zero_le _
        · exact h.disk pid
      refine h.of_step (t := t) (logStep_refl h.bounds) (fun _ _ => rfl)
        (h.cellsStamped rfl hempty.2.2 hempty.2.2 (Nat.lt_of_le_of_lt hle h.bounds.flushed)
          fun _ _ _ => Or.inr hle) h.stored h.disk ?_
      rw [show (s.setCell fid { s.cells fid with
        lsn := lsn, pageId := some pid, dirty := fresh }).pcs t = .idle from hat]
      trivial
    · cases hs
  · cases hs

end Writeback

theorem inv_opened {base count : Nat} {disk : Nat → Nat} (hdisk : ∀ pid, disk pid ≤ base) :
    (Writeback.opened n base count disk).Inv where
  bounds :=
    { flushed := Nat.lt_succ_self _
      own := fun _ _ hlsn => absurd hlsn List.not_mem_nil
      reserved := fun _ _ hpc => WalPc.noConfusion hpc
      loaded := fun _ _ _ hpc => WalPc.noConfusion hpc
      published := fun _ _ _ hpc => WalPc.noConfusion hpc }
  stored := fun _ he => absurd he List.not_mem_nil
  disk := hdisk
  lsn := fun _ => Nat.succ_pos _
  latch := fun _ hw => absurd rfl hw
  pcs := fun _ => trivial

/-- **The write-ahead rule.** In every run in which no writer gets ahead of a `flush_all`, an image
is written when the log is durable up to its LSN. -/
theorem write_ahead (n base count : Nat) (disk : Nat → Nat) (hdisk : ∀ pid, disk pid ≤ base)
    (ls : List (Fin n × Act))
    (hrun : Follows Writeback.step Writeback.Behind (.opened n base count disk) ls) :
    ∀ e ∈ (after Writeback.step (.opened n base count disk) ls).stored, e.1 ≤ e.2 :=
  (hrun.invariant (fun h hok hs => h.step hok hs) (inv_opened hdisk)).stored

/-- A new page is changed with LSN 1 and evicted, which waits for the flush of thread 1. Another
one is changed with LSN 2 before a `flush_all`. -/
def evictThenFlushAll : List (Fin 2 × Act) :=
  haveI := neZero_two
  [(0, .load 0 7 true), (0, .load 1 8 true), (1, .latch 0), (1, .log .append), (1, .log .next),
    (1, .stamp 1), (1, .unlatch), (1, .next), (0, .flushOne 0 true), (0, .next), (1, .log .flush),
    (1, .log .next), (1, .log .next), (1, .log .next), (1, .log .next), (1, .log .next),
    (1, .log .next), (0, .log .next), (0, .next), (0, .next), (1, .latch 1), (1, .log .append),
    (1, .log .next), (1, .stamp 2), (1, .unlatch), (1, .next), (0, .flushAll), (0, .log .next),
    (0, .log .next), (0, .log .next), (0, .log .next), (0, .log .next), (0, .log .next), (0, .next),
    (0, .next), (0, .next), (0, .next), (0, .next), (0, .next)]

theorem write_ahead_evictThenFlushAll :
    (after Writeback.step (.opened 2 0 2 fun _ => 0) evictThenFlushAll).stored = [(2, 2), (1, 1)] ∧
      ∀ e ∈ (after Writeback.step (.opened 2 0 2 fun _ => 0) evictThenFlushAll).stored, e.1 ≤ e.2 :=
  ⟨by decide, write_ahead 2 0 2 (fun _ => 0) (fun _ => Nat.le_refl 0) evictThenFlushAll (by decide)⟩

/-- Thread 0 has forced the log for `flush_all`; thread 1 changes the page with LSN 1; thread 0
copies it. -/
def writerSlipsIn : List (Fin 2 × Act) :=
  haveI := neZero_two
  [(0, .load 0 7 true), (0, .flushAll), (0, .log .next), (1, .latch 0), (1, .log .append),
    (1, .log .next), (1, .stamp 1), (1, .unlatch), (1, .next), (0, .next), (0, .next), (0, .next)]

/-- The image is written with LSN 1 when nothing is durable. -/
theorem flush_all_outruns_log :
    ¬ ∀ (n base count : Nat) (disk : Nat → Nat), (∀ pid, disk pid ≤ base) →
      ∀ ls : List (Fin n × Act),
        Follows Writeback.step (fun _ _ => True) (.opened n base count disk) ls →
          ∀ e ∈ (after Writeback.step (.opened n base count disk) ls).stored, e.1 ≤ e.2 := by
  intro h
  have := h 2 0 1 (fun _ => 0) (fun _ => Nat.le_refl 0) writerSlipsIn (by decide) (1, 0) (by decide)
  exact absurd this (by decide)

end Ccdb.WriteAhead
