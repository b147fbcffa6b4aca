import Ccdb.Storage.DirtyPages
import Ccdb.Recovery.Recover

/-!
# Ccdb — where redo starts

The buffer pool, the log and `Instance::checkpoint` together, on one thread. A
page is what recovery compares of it: its LSN and the logged changes it contains.
A checkpoint records the dirty page table, and `recover` skips everything below
its least LSN (`redoStart`); that is safe when every change below it is in the file
by then (`RedoSafe`).

Two paths leave a change out of the table. `new_page` installs its frame dirty
without an entry, and `release` adds one only when it finds the frame clean. And the
entry a guard leaves is the LSN of the page when it is dropped: of several changes
made before that, the last one's. A checkpoint that finds other pages in the table
starts behind the missing changes.

Main results:

* `redo_start_safe` — in every run without these two (`Tracked`), redo starts at or
  before every change that is not in the file.
* `new_page_is_not_listed` — a run with a new page whose change redo skips.
-/

namespace Ccdb.RedoStart

open FramePool

/-- A page: its LSN and the LSNs of the logged changes it contains. -/
structure Image where
  lsn : Nat
  changes : List Nat
deriving DecidableEq

def pageOps : PageOps Image := ⟨fun _ => ⟨0, []⟩, Image.lsn⟩

/-- `logged` are the changes made to the pages in use, with their LSNs. -/
structure Server where
  session : FramePool.Session Image
  wal : Wal
  logged : List (Nat × Nat)

inductive Op where
  | pool (op : FramePool.Op Image)
  -- a record is appended and the page changed under the guard's latch, with its LSN
  | change (i txnId prevLsn : Nat) (rt : WalRecordType)
  | checkpoint (att : List (Nat × Nat))

/-- `dpt_snapshot`, as the record lists it. -/
def dptPairs (pool : Pool Image) : List (Nat × Nat) :=
  (List.range pool.disk.pageCount).filterMap fun p => (pool.dptSnapshot p).map fun r => (p, r)

/-- The changes of a page that is handed back are of no interest any more. -/
def forget (logged : List (Nat × Nat)) : FramePool.Op Image → List (Nat × Nat)
  | .recycle p => logged.filter fun c => c.2 ≠ p
  | _ => logged

def Server.step (s : Server) : Op → Server
  | .pool op =>
    { s with session := s.session.step pageOps op, logged := forget s.logged op }
  | .change i txnId prevLsn rt =>
    match s.session.guards[i]? with
    | none => s
    | some g =>
      let (lsn, wal) := s.wal.append txnId prevLsn rt
      let image := s.session.pool.readGuard g
      { session := s.session.step pageOps (.write i ⟨lsn, lsn :: image.changes⟩)
        wal := wal
        logged := (lsn, g.pageId) :: s.logged }
  | .checkpoint att =>
    { s with wal := (s.wal.append 0 0 (.checkpoint att (dptPairs s.session.pool))).2.flush }

/-- Pages are changed by logged changes only, and only `checkpoint` writes its record. -/
def Op.Allowed (s : Server) : Op → Prop
  | .pool (.write ..) => False
  | .pool op => op.Allowed s.session
  | .change _ _ _ rt => rt.isCheckpoint = false
  | .checkpoint _ => True

/-- What initialization and a completed recovery leave: every change of the log is in the file. -/
structure OnFile (disk : Disk Image) (wal : Wal) (logged : List (Nat × Nat)) : Prop where
  applied : ∀ lsn p, (lsn, p) ∈ logged → p < disk.pageCount ∧ lsn ∈ (disk.pages p).changes
  pages : ∀ p, p < disk.pageCount → (disk.pages p).lsn < wal.nextLsn
  records : ∀ r ∈ wal.records, r.lsn < wal.nextLsn
  ordered : wal.records.Pairwise fun r r' => r.lsn < r'.lsn
  entries : ∀ r ∈ wal.records, ∀ att dpt, r.recordType = .checkpoint att dpt →
    ∀ e ∈ dpt, e.2 < wal.nextLsn
  first : 0 < wal.nextLsn

/-- The server after an initialization or a restart. -/
def Server.opened (capacity : Nat) (disk : Disk Image) (wal : Wal) (logged : List (Nat × Nat)) :
    Server where
  session := ⟨Pool.new pageOps capacity disk, [],
    fun p => if p < disk.pageCount then some (disk.pages p) else none⟩
  wal := wal
  logged := logged

/-- Servers that are reached by steps that meet `P`. -/
inductive Reachable (P : Server → Op → Prop) : Server → Prop
  | start {capacity : Nat} {disk : Disk Image} {wal : Wal} {logged : List (Nat × Nat)}
    (h : OnFile disk wal logged) : Reachable P (.opened capacity disk wal logged)
  | step {s : Server} (h : Reachable P s) (op : Op) (hop : op.Allowed s) (hp : P s op) :
    Reachable P (s.step op)

/-- A crash leaves the file and some of the log. Whatever checkpoint recovery goes by, the
changes it skips are in the file. -/
def Server.RedoSafe (s : Server) : Prop :=
  ∀ records, records <+: s.wal.records → ∀ c ∈ records, c.recordType.isCheckpoint = true →
    ∀ lsn p, (lsn, p) ∈ s.logged → lsn < redoStart records (some c.lsn) →
      lsn ∈ (s.session.pool.disk.pages p).changes

/-- A change that is not in the file. -/
def Server.Pending (s : Server) (lsn p : Nat) : Prop :=
  (lsn, p) ∈ s.logged ∧ lsn ∉ (s.session.pool.disk.pages p).changes

/-- The steps after which the dirty page table tells the truth. A change is made to a frame that
is dirty already, or to a page whose earlier changes are in the file. A checkpoint finds the table
empty, or an entry for every page with a change that is not in the file. -/
def Tracked (s : Server) : Op → Prop
  | .pool _ => True
  | .change i _ _ _ => ∀ g, s.session.guards[i]? = some g →
    (s.session.pool.stateOf g.pageId).dirty = true ∨ ∀ lsn, ¬ s.Pending lsn g.pageId
  | .checkpoint _ => (∀ p, s.session.pool.dptSnapshot p = none) ∨
    ∀ lsn p, s.Pending lsn p → (s.session.pool.dptSnapshot p).isSome

/-! ## The invariant -/

/-- The least LSN of a table, or 0. -/
def least (dpt : List (Nat × Nat)) : Nat := (dpt.map Prod.snd).min?.getD 0

structure Server.Inv (s : Server) : Prop where
  session : s.session.Inv
  logged : ∀ lsn p, (lsn, p) ∈ s.logged →
    ∃ image, s.session.written p = some image ∧ lsn ∈ image.changes
  below : ∀ p image, s.session.written p = some image → image.lsn < s.wal.nextLsn
  -- an entry is at or before every change that is not in the file
  entry : ∀ p r, (s.session.pool.stateOf p).entry = some r →
    (s.session.pool.stateOf p).dirty = true ∧ r < s.wal.nextLsn ∧
      ∀ lsn, s.Pending lsn p → r ≤ lsn
  -- of a clean frame, only the last change can be missing, made by a guard still open
  clean : ∀ p image, (s.session.pool.stateOf p).dirty = false →
    s.session.written p = some image → ∀ lsn, s.Pending lsn p → lsn = image.lsn
  records : ∀ r ∈ s.wal.records, r.lsn < s.wal.nextLsn
  ordered : s.wal.records.Pairwise fun r r' => r.lsn < r'.lsn
  first : 0 < s.wal.nextLsn
  start : ∀ r ∈ s.wal.records, ∀ att dpt, r.recordType = .checkpoint att dpt →
    least dpt ≤ s.wal.nextLsn ∧ ∀ lsn p, s.Pending lsn p → least dpt ≤ lsn

theorem least_le {dpt : List (Nat × Nat)} {n : Nat} (h : ∀ e ∈ dpt, e.2 < n) : least dpt ≤ n := by
  unfold least
  cases hmin : (dpt.map Prod.snd).min? with
  | none => exact Nat.zero_le n
  | some m =>
    obtain ⟨e, he, rfl⟩ := List.mem_map.1 (List.min?_mem hmin)
    exact Nat.le_of_lt (h e he)

theorem least_le_mem {dpt : List (Nat × Nat)} {e : Nat × Nat} (h : e ∈ dpt) :
    least dpt ≤ e.2 := by
  unfold least
  have hmem : e.2 ∈ dpt.map Prod.snd := List.mem_map_of_mem h
  cases hmin : (dpt.map Prod.snd).min? with
  | none => exact Nat.zero_le _
  | some m => exact (List.min?_eq_some_iff.1 hmin).2 e.2 hmem

/-- The record that recovery goes by is the one with the LSN it was given. -/
theorem redoStart_checkpoint {records : List WalRecord} {c : WalRecord}
    (hord : records.Pairwise fun r r' => r.lsn < r'.lsn) (hc : c ∈ records)
    {att dpt : List (Nat × Nat)} (htype : c.recordType = .checkpoint att dpt) :
    redoStart records (some c.lsn) = least dpt := by
  have hfind : records.find? (fun r => r.lsn = c.lsn ∧ r.recordType.isCheckpoint) = some c := by
    induction records with
    | nil => cases hc
    | cons r rest ih =>
      have hcons := List.pairwise_cons.1 hord
      rcases List.mem_cons.1 hc with rfl | hc
      · exact List.find?_cons_of_pos (by simp [htype, WalRecordType.isCheckpoint])
      · have hne : r.lsn ≠ c.lsn := Nat.ne_of_lt (hcons.1 c hc)
        rw [List.find?_cons_of_neg (by simp [hne])]
        exact ih hcons.2 hc
  obtain ⟨lsn, txnId, prevLsn, rt⟩ := c
  simp only at htype
  subst htype
  unfold redoStart
  simp only [hfind]
  rfl

theorem Server.Inv.redoSafe {s : Server} (h : s.Inv) : s.RedoSafe := by
  intro records hpre c hc hcp lsn p hlog hlt
  have hmem : c ∈ s.wal.records := hpre.subset hc
  cases hrt : c.recordType <;> rw [hrt] at hcp <;> try cases hcp
  rename_i att dpt
  rw [redoStart_checkpoint (h.ordered.sublist hpre.sublist) hc hrt] at hlt
  by_contra hmiss
  exact absurd ((h.start c hmem att dpt hrt).2 lsn p ⟨hlog, hmiss⟩) (Nat.not_le_of_lt hlt)

/-! ## Steps that change no page in use -/

/-- What such a step does to page `p`: `w` and `x` before it, `w'` and `y` after it. -/
inductive PageStep (next : Nat) (logged : List (Nat × Nat)) (p : Nat) (w w' : Option Image)
    (x y : PageState Image) : Prop
  | settled (hw : w' = w) (h : Settles w x y)
  | renewed (hw : w = none) (h : Renewed x y) (hnew : ∀ image, w' = some image → image.lsn < next)
  | listed (image : Image) (hw : w' = w) (hi : w = some image) (hx : x.dirty = false)
    (hy : y = ⟨x.image, true, some (x.entry.getD image.lsn)⟩)
  | dropped (hw : w' = none) (hnot : ∀ lsn, (lsn, p) ∉ logged) (hy : y = x)

section Quiet

variable {s : Server} {session : FramePool.Session Image} {logged : List (Nat × Nat)}

/-- Nothing is missing in the file that was not missing before. -/
theorem pending_of_quiet (h : s.Inv) (hsub : ∀ c ∈ logged, c ∈ s.logged) {lsn p : Nat}
    (hp : PageStep s.wal.nextLsn logged p (s.session.written p) (session.written p)
      (s.session.pool.stateOf p) (session.pool.stateOf p))
    (hpend : Server.Pending ⟨session, s.wal, logged⟩ lsn p) : s.Pending lsn p := by
  obtain ⟨hlog, hmiss⟩ := hpend
  refine ⟨hsub _ hlog, fun hin => hmiss ?_⟩
  obtain ⟨image, hw, hmem⟩ := h.logged lsn p (hsub _ hlog)
  change lsn ∈ (session.pool.stateOf p).image.changes
  change lsn ∈ (s.session.pool.stateOf p).image.changes at hin
  rcases hp with ⟨-, heq | ⟨-, -, hwritten⟩⟩ | ⟨hnone, -, -⟩ | ⟨_, -, -, -, heq⟩ | ⟨-, hnot, -⟩
  · rw [heq]
    exact hin
  · rw [hwritten image hw]
    exact hmem
  · rw [hw] at hnone
    cases hnone
  · rw [heq]
    exact hin
  · exact absurd hlog (hnot lsn)

theorem Server.Inv.quiet (h : s.Inv) (hsession : session.Inv) (hsub : ∀ c ∈ logged, c ∈ s.logged)
    (hp : ∀ p, PageStep s.wal.nextLsn logged p (s.session.written p) (session.written p)
      (s.session.pool.stateOf p) (session.pool.stateOf p)) :
    Server.Inv ⟨session, s.wal, logged⟩ := by
  have hpending := fun lsn p => @pending_of_quiet _ _ _ h hsub lsn p (hp p)
  refine ⟨hsession, fun lsn p hlog => ?_, fun p image hw => ?_, fun p r hr => ?_,
    fun p image hbit hw lsn hpend => ?_, h.records, h.ordered, h.first, fun c hc att dpt hrt => ?_⟩
  · obtain ⟨image, hw, hmem⟩ := h.logged lsn p (hsub _ hlog)
    refine ⟨image, ?_, hmem⟩
    rcases hp p with ⟨heq, -⟩ | ⟨hnone, -, -⟩ | ⟨-, heq, -, -, -⟩ | ⟨-, hnot, -⟩
    · exact heq.trans hw
    · rw [hw] at hnone
      cases hnone
    · exact heq.trans hw
    · exact absurd hlog (hnot lsn)
  · change session.written p = some image at hw
    rcases hp p with ⟨heq, -⟩ | ⟨-, -, hnew⟩ | ⟨-, heq, -, -, -⟩ | ⟨hnone, -, -⟩
    · exact h.below p image (heq ▸ hw)
    · exact hnew image hw
    · exact h.below p image (heq ▸ hw)
    · rw [hw] at hnone
      cases hnone
  · change (session.pool.stateOf p).entry = some r at hr
    show (session.pool.stateOf p).dirty = true ∧ _
    -- an entry that was there before
    have hold : (s.session.pool.stateOf p).entry = some r →
        (s.session.pool.stateOf p).dirty = true ∧ r < s.wal.nextLsn ∧
          ∀ lsn, Server.Pending ⟨session, s.wal, logged⟩ lsn p → r ≤ lsn := by
      intro hr'
      obtain ⟨hbit, hlt, hle⟩ := h.entry p r hr'
      exact ⟨hbit, hlt, fun lsn hpend => hle lsn (hpending lsn p hpend)⟩
    rcases hp p with ⟨-, heq | ⟨-, hnone, -⟩⟩ | ⟨-, hnone | ⟨hentry, hbit⟩, -⟩ |
      ⟨image, -, hw, hx, heq⟩ | ⟨-, -, heq⟩
    · rw [heq] at hr ⊢
      exact hold hr
    · rw [hr] at hnone
      cases hnone
    · rw [hr] at hnone
      cases hnone
    · obtain ⟨hbit', hrest⟩ := hold (hentry ▸ hr)
      refine ⟨?_, hrest⟩
      rcases hbit with hbit | hbit
      · exact hbit
      · rw [hbit]
        exact hbit'
    · rw [heq] at hr ⊢
      refine ⟨rfl, ?_⟩
      have hentry : (s.session.pool.stateOf p).entry = none := by
        cases hentry : (s.session.pool.stateOf p).entry with
        | none => rfl
        | some r' =>
          have := (h.entry p r' hentry).1
          rw [hx] at this
          cases this
      rw [hentry] at hr
      cases hr
      refine ⟨h.below p image hw, fun lsn hpend => ?_⟩
      exact Nat.le_of_eq (h.clean p image hx hw lsn (hpending lsn p hpend)).symm
    · rw [heq] at hr ⊢
      exact hold hr
  · change (session.pool.stateOf p).dirty = false at hbit
    change session.written p = some image at hw
    have hpend' := hpending lsn p hpend
    rcases hp p with ⟨heqw, heq | ⟨-, -, hwritten⟩⟩ | ⟨hnone, -, -⟩ | ⟨_, -, -, -, heq⟩ |
      ⟨hnone, -, -⟩
    · rw [heq] at hbit
      exact h.clean p image hbit (heqw ▸ hw) lsn hpend'
    · obtain ⟨image', hw', hmem⟩ := h.logged lsn p hpend'.1
      refine absurd ?_ hpend.2
      change lsn ∈ (session.pool.stateOf p).image.changes
      rw [hwritten image' hw']
      exact hmem
    · obtain ⟨image', hw', -⟩ := h.logged lsn p hpend'.1
      rw [hw'] at hnone
      cases hnone
    · rw [heq] at hbit
      cases hbit
    · rw [hw] at hnone
      cases hnone
  · obtain ⟨hle, hall⟩ := h.start c hc att dpt hrt
    exact ⟨hle, fun lsn p hpend => hall lsn p (hpending lsn p hpend)⟩

end Quiet

/-! ## The steps -/

variable {s : Server}

theorem opened_pool {α : Type} (s : FramePool.Session α) (r : Except DbError Guard × Pool α)
    (written : Nat → Option α) : (s.opened r written).pool = r.2 := by
  obtain ⟨r, pool⟩ := r
  cases r <;> rfl

theorem opened_written {α : Type} (s : FramePool.Session α) (r : Except DbError Guard × Pool α)
    (written : Nat → Option α) :
    (s.opened r written).written = written ∨ (s.opened r written).written = s.written := by
  obtain ⟨r, pool⟩ := r
  cases r
  · exact Or.inr rfl
  · exact Or.inl rfl

theorem forget_subset (logged : List (Nat × Nat)) (op : FramePool.Op Image) :
    ∀ c ∈ forget logged op, c ∈ logged := by
  intro c hc
  cases op <;> first | exact hc | exact (List.mem_filter.1 hc).1

/-- What a pool operation does to a page. -/
theorem pageStep (h : s.Inv) {op : FramePool.Op Image} (hop : (Op.pool op).Allowed s) (p : Nat) :
    PageStep s.wal.nextLsn (forget s.logged op) p (s.session.written p)
      ((s.session.step pageOps op).written p) (s.session.pool.stateOf p)
      ((s.session.step pageOps op).pool.stateOf p) := by
  have hsess := h.session
  cases op with
  | newPage =>
    obtain ⟨hother, hnew⟩ := hsess.newPage_settles pageOps
    set q := s.session.pool.nextPage with hq
    have hpool : (s.session.step pageOps .newPage).pool = (s.session.pool.newPage pageOps).2 :=
      opened_pool _ _ _
    have hwritten : (s.session.step pageOps .newPage).written = s.session.written ∨
        (s.session.step pageOps .newPage).written =
          Function.update s.session.written q (some (pageOps.fresh q)) := by
      rcases opened_written { s.session with
          written := if (s.session.pool.firstRecycled 0 NUM_SHARDS).isNone then
            Function.update s.session.written q (some (pageOps.fresh q)) else s.session.written }
        (s.session.pool.newPage pageOps)
        (Function.update s.session.written q (some (pageOps.fresh q))) with hw | hw
      · exact Or.inr hw
      · refine (ite_eq_or_eq _ _ _).symm.imp (fun hc => hw.trans hc) fun hc => hw.trans hc
    rw [hpool]
    by_cases hpq : p = q
    · rw [hpq]
      refine .renewed hsess.nextPage_unused hnew fun image hw => ?_
      rcases hwritten with heq | heq
      · rw [heq, hsess.nextPage_unused] at hw
        cases hw
      · rw [heq, Function.update_self] at hw
        cases hw
        exact h.first
    · refine .settled ?_ (hother p hpq)
      rcases hwritten with heq | heq
      · rw [heq]
      · rw [heq, Function.update_of_ne hpq]
  | fetch q =>
    refine .settled ?_ ?_
    · rcases opened_written s.session (s.session.pool.fetchPage q) s.session.written with hw | hw <;>
        exact congrFun hw p
    · have hpool : (s.session.step pageOps (.fetch q)).pool = (s.session.pool.fetchPage q).2 :=
        opened_pool _ _ _
      rw [hpool]
      exact hsess.fetch_settles q p
  | write i page => exact absurd hop id
  | drop i =>
    cases hi : s.session.guards[i]? with
    | none =>
      simp only [FramePool.Session.step, hi]
      exact .settled rfl (Settles.refl _ _)
    | some g =>
      simp only [FramePool.Session.step, hi]
      have hg : g ∈ s.session.guards := List.mem_of_getElem? hi
      obtain ⟨hother, hself⟩ := hsess.release_stateOf pageOps hg
      by_cases hpg : p = g.pageId
      · subst hpg
        rw [hself]
        split
        · rename_i hmut
          exact .listed _ rfl (hsess.guard_reads hg).2 hmut.2 rfl
        · exact .settled rfl (Settles.refl _ _)
      · rw [hother p hpg]
        exact .settled rfl (Settles.refl _ _)
  | flushPage q => exact .settled rfl (hsess.flushPage_settles q p)
  | flushAll => exact .settled rfl (hsess.flushAll_settles p)
  | recycle q =>
    have hstate : (s.session.step pageOps (.recycle q)).pool.stateOf p =
        s.session.pool.stateOf p := FramePool.Session.Inv.recycle_stateOf s.session.pool q p
    by_cases hpq : p = q
    · refine .dropped ?_ (fun lsn hmem => ?_) hstate
      · rw [hpq]
        exact Function.update_self _ _ _
      · have := (List.mem_filter.1 hmem).2
        simp only [hpq, ne_eq, not_true_eq_false, decide_false, Bool.false_eq_true] at this
    · rw [hstate]
      exact .settled (Function.update_of_ne hpq _ _) (Settles.refl _ _)

theorem Server.Inv.pool (h : s.Inv) {op : FramePool.Op Image} (hop : (Op.pool op).Allowed s) :
    (s.step (.pool op)).Inv := by
  have hallowed : op.Allowed s.session := by
    cases op <;> first | exact hop | exact absurd hop id
  exact h.quiet (FramePool.Session.step_inv h.session op hallowed) (forget_subset s.logged op)
    (pageStep h hop)

/-- A record that is appended leaves the earlier ones before it. -/
theorem append_ordered (h : s.Inv) (txnId prevLsn : Nat) (rt : WalRecordType) :
    (∀ r ∈ (s.wal.append txnId prevLsn rt).2.records, r.lsn < s.wal.nextLsn + 1) ∧
      (s.wal.append txnId prevLsn rt).2.records.Pairwise fun r r' => r.lsn < r'.lsn := by
  refine ⟨fun r hr => ?_, List.pairwise_append.2 ⟨h.ordered, List.pairwise_singleton _ _, ?_⟩⟩
  · rcases List.mem_append.1 hr with hr | hr
    · exact Nat.lt_succ_of_lt (h.records r hr)
    · rw [List.mem_singleton.1 hr]
      exact Nat.lt_succ_self _
  · intro r hr r' hr'
    rw [List.mem_singleton.1 hr']
    exact h.records r hr

theorem Server.Inv.change (h : s.Inv) {i txnId prevLsn : Nat} {rt : WalRecordType}
    (hrt : rt.isCheckpoint = false) (hp : Tracked s (.change i txnId prevLsn rt)) :
    (s.step (.change i txnId prevLsn rt)).Inv := by
  cases hi : s.session.guards[i]? with
  | none => simpa only [Server.step, hi] using h
  | some g =>
    have hg : g ∈ s.session.guards := List.mem_of_getElem? hi
    have hreads := (h.session.guard_reads hg).2
    have htracked := hp g hi
    set next := s.wal.nextLsn with hnext
    set image := s.session.pool.readGuard g with himage
    set image' : Image := ⟨next, next :: image.changes⟩ with himage'
    have hstep : s.step (.change i txnId prevLsn rt) =
        { session := s.session.step pageOps (.write i image')
          wal := (s.wal.append txnId prevLsn rt).2
          logged := (next, g.pageId) :: s.logged } := by
      simp only [Server.step, hi]
      rfl
    have hsess : s.session.step pageOps (.write i image') =
        ⟨s.session.pool.writeGuard g image', s.session.guards.set i { g with mutated := true },
          Function.update s.session.written g.pageId (some image')⟩ := by
      simp only [FramePool.Session.step, hi]
    have hinv := @FramePool.Session.step_inv _ pageOps _ h.session (.write i image') trivial
    obtain ⟨hrecords, hordered⟩ := append_ordered h txnId prevLsn rt
    rw [hsess] at hstep hinv
    have hstate : ∀ p, (s.session.pool.writeGuard g image').stateOf p = s.session.pool.stateOf p :=
      fun p => FramePool.Session.Inv.write_stateOf s.session.pool g image' p
    -- the file is what it was, so only the new change can be missing besides the old ones
    have hpending : ∀ lsn p, (s.step (.change i txnId prevLsn rt)).Pending lsn p →
        s.Pending lsn p ∨ lsn = next ∧ p = g.pageId := by
      intro lsn p hpend
      rw [hstep] at hpend
      obtain ⟨hlog, hmiss⟩ := hpend
      rcases List.mem_cons.1 hlog with heq | hlog
      · exact Or.inr ⟨congrArg Prod.fst heq, congrArg Prod.snd heq⟩
      · exact Or.inl ⟨hlog, hmiss⟩
    have hw_ne : ∀ p, p ≠ g.pageId →
        Function.update s.session.written g.pageId (some image') p = s.session.written p :=
      fun p hpg => Function.update_of_ne hpg _ _
    rw [hstep] at hpending ⊢
    refine ⟨hinv, fun lsn p hlog => ?_, fun p img hw => ?_, fun p r hr => ?_,
      fun p img hbit hw lsn hpend => ?_, hrecords, hordered, Nat.succ_pos _,
      fun c hc att dpt hct => ?_⟩
    · rcases List.mem_cons.1 hlog with heq | hlog
      · cases heq
        exact ⟨image', Function.update_self _ _ _, List.mem_cons_self⟩
      · obtain ⟨img, hw, hmem⟩ := h.logged lsn p hlog
        by_cases hpg : p = g.pageId
        · subst hpg
          rw [hreads] at hw
          cases hw
          exact ⟨image', Function.update_self _ _ _, List.mem_cons_of_mem _ hmem⟩
        · exact ⟨img, (hw_ne p hpg).trans hw, hmem⟩
    · change Function.update s.session.written g.pageId (some image') p = some img at hw
      show img.lsn < next + 1
      by_cases hpg : p = g.pageId
      · subst hpg
        rw [Function.update_self] at hw
        cases hw
        exact Nat.lt_succ_self _
      · rw [hw_ne p hpg] at hw
        exact Nat.lt_succ_of_lt (h.below p img hw)
    · change ((s.session.pool.writeGuard g image').stateOf p).entry = some r at hr
      rw [hstate] at hr
      obtain ⟨hbit, hlt, hle⟩ := h.entry p r hr
      refine ⟨?_, Nat.lt_succ_of_lt hlt, fun lsn hpend => ?_⟩
      · exact (congrArg PageState.dirty (hstate p)).trans hbit
      · rcases hpending lsn p hpend with hpend | ⟨rfl, -⟩
        · exact hle lsn hpend
        · exact Nat.le_of_lt hlt
    · change ((s.session.pool.writeGuard g image').stateOf p).dirty = false at hbit
      change Function.update s.session.written g.pageId (some image') p = some img at hw
      rw [hstate] at hbit
      rcases hpending lsn p hpend with hpend | ⟨rfl, rfl⟩
      · by_cases hpg : p = g.pageId
        · subst hpg
          rcases htracked with hdirty | hnone
          · rw [hdirty] at hbit
            cases hbit
          · exact absurd hpend (hnone lsn)
        · rw [hw_ne p hpg] at hw
          exact h.clean p img hbit hw lsn hpend
      · rw [Function.update_self] at hw
        cases hw
        rfl
    · have hold : c ∈ s.wal.records := by
        rcases List.mem_append.1 hc with hc | hc
        · exact hc
        · rw [List.mem_singleton.1 hc] at hct
          simp only at hct
          rw [hct] at hrt
          cases hrt
      obtain ⟨hle, hall⟩ := h.start c hold att dpt hct
      refine ⟨Nat.le_succ_of_le hle, fun lsn p hpend => ?_⟩
      rcases hpending lsn p hpend with hpend | ⟨rfl, -⟩
      · exact hall lsn p hpend
      · exact hle

theorem Server.Inv.checkpoint (h : s.Inv) {att : List (Nat × Nat)}
    (hp : Tracked s (.checkpoint att)) : (s.step (.checkpoint att)).Inv := by
  set dpt := dptPairs s.session.pool with hdpt
  obtain ⟨hrecords, hordered⟩ := append_ordered h 0 0 (.checkpoint att dpt)
  have hentry : ∀ e ∈ dpt, (s.session.pool.stateOf e.1).entry = some e.2 := by
    intro e he
    obtain ⟨p, -, hpe⟩ := List.mem_filterMap.1 he
    obtain ⟨r, hr, rfl⟩ := Option.map_eq_some_iff.1 hpe
    exact hr
  have hbelow : least dpt ≤ s.wal.nextLsn :=
    least_le fun e he => (h.entry e.1 e.2 (hentry e he)).2.1
  -- the page with a missing change is listed, or nothing is
  have hleast : ∀ lsn p, s.Pending lsn p → least dpt ≤ lsn := by
    intro lsn p hpend
    rcases hp with hempty | hlisted
    · have hnil : dpt = [] := by
        refine List.eq_nil_iff_forall_not_mem.2 fun e he => ?_
        have := hentry e he
        change s.session.pool.dptSnapshot e.1 = some e.2 at this
        rw [hempty] at this
        cases this
      rw [hnil]
      exact Nat.zero_le lsn
    · obtain ⟨r, hr⟩ := Option.isSome_iff_exists.1 (hlisted lsn p hpend)
      obtain ⟨image, hw, -⟩ := h.logged lsn p hpend.1
      have hlt := ((h.session (shardIdx p)).inUse p image rfl hw).1
      have hmem : (p, r) ∈ dpt := by
        refine List.mem_filterMap.2 ⟨p, List.mem_range.2 hlt, ?_⟩
        rw [hr]
        rfl
      exact Nat.le_trans (least_le_mem hmem) ((h.entry p r hr).2.2 lsn hpend)
  refine ⟨h.session, h.logged, fun p image hw => Nat.lt_succ_of_lt (h.below p image hw),
    fun p r hr => ?_, h.clean, hrecords, hordered, Nat.succ_pos _, fun c hc att' dpt' hct => ?_⟩
  · obtain ⟨hbit, hlt, hle⟩ := h.entry p r hr
    exact ⟨hbit, Nat.lt_succ_of_lt hlt, hle⟩
  · rcases List.mem_append.1 hc with hc | hc
    · obtain ⟨hle, hall⟩ := h.start c hc att' dpt' hct
      exact ⟨Nat.le_succ_of_le hle, hall⟩
    · rw [List.mem_singleton.1 hc] at hct
      cases hct
      exact ⟨Nat.le_succ_of_le hbelow, hleast⟩

theorem inv_opened {capacity : Nat} {disk : Disk Image} {wal : Wal} {logged : List (Nat × Nat)}
    (h : OnFile disk wal logged) : (Server.opened capacity disk wal logged).Inv := by
  have hsession := (@FramePool.Reachable.start _ pageOps capacity disk).inv
  have hpending : ∀ lsn p, ¬ (Server.opened capacity disk wal logged).Pending lsn p :=
    fun lsn p hpend => hpend.2 (h.applied lsn p hpend.1).2
  refine ⟨hsession, fun lsn p hlog => ?_, fun p image hw => ?_, fun p r hr => ?_,
    fun p image _ _ lsn hpend => absurd hpend (hpending lsn p), h.records, h.ordered, h.first,
    fun c hc att dpt hct => ⟨least_le (h.entries c hc att dpt hct), fun lsn p hpend =>
      absurd hpend (hpending lsn p)⟩⟩
  · obtain ⟨hlt, hmem⟩ := h.applied lsn p hlog
    exact ⟨disk.pages p, if_pos hlt, hmem⟩
  · change (if p < disk.pageCount then some (disk.pages p) else none) = some image at hw
    by_cases hlt : p < disk.pageCount
    · rw [if_pos hlt] at hw
      cases hw
      exact h.pages p hlt
    · rw [if_neg hlt] at hw
      cases hw
  · cases hr

/-- Redo starts at or before every change that is not in the file. -/
theorem redo_start_safe (h : Reachable Tracked s) : s.RedoSafe := by
  refine Server.Inv.redoSafe ?_
  induction h with
  | start h => exact inv_opened h
  | step h op hop hp ih =>
    cases op with
    | pool op => exact ih.pool hop
    | change i txnId prevLsn rt => exact ih.change hop hp
    | checkpoint att => exact ih.checkpoint hp

/-- A data file of one page and an empty log. -/
def onePage : Server := .opened 16 ⟨1, fun _ => ⟨0, []⟩⟩ ⟨[], 1, 0⟩ []

theorem onePage_onFile : OnFile ⟨1, fun _ => ⟨0, []⟩⟩ ⟨[], 1, 0⟩ [] where
  applied := by simp
  pages := fun _ _ => Nat.zero_lt_one
  records := by simp
  ordered := List.Pairwise.nil
  entries := by simp
  first := Nat.zero_lt_one

/-- Page 0 is changed under a guard and listed by the checkpoint. -/
def listedChange : List Op :=
  [.pool (.fetch 0), .change 0 1 0 (.delete (0, 0) 1), .pool (.drop 0), .checkpoint []]

theorem redo_start_safe_listed : (listedChange.foldl Server.step onePage).RedoSafe := by
  have hstart : Reachable Tracked onePage := .start onePage_onFile
  have hopen := hstart.step (.pool (.fetch 0)) (.inl rfl) trivial
  have hchanged := hopen.step (.change 0 1 0 (.delete (0, 0) 1)) rfl
    fun _ _ => .inr fun _ hpend => by cases hpend.1
  have hdropped := hchanged.step (.pool (.drop 0)) trivial trivial
  refine redo_start_safe (hdropped.step (.checkpoint []) trivial (.inr fun lsn p hpend => ?_))
  rw [(Prod.mk.inj (List.mem_singleton.1 hpend.1)).2]
  rfl

/-- Page 1 is new and its first change has LSN 1; page 0 is changed next. The checkpoint lists
page 0 with LSN 2 and not page 1, whose change is not in the file. -/
theorem new_page_is_not_listed : ¬ ∀ s, Reachable (fun _ _ => True) s → s.RedoSafe := by
  intro hall
  have hstart : Reachable (fun _ _ => True) onePage := .start onePage_onFile
  have hnew := (hstart.step (.pool .newPage) trivial trivial).step
    (.change 0 1 0 (.pageInit 1 .heap)) rfl trivial
  have hold := ((hnew.step (.pool (.drop 0)) trivial trivial).step (.pool (.fetch 0)) (.inl rfl)
    trivial).step (.change 0 1 0 (.delete (0, 0) 1)) rfl trivial
  have hchecked := (hold.step (.pool (.drop 0)) trivial trivial).step (.checkpoint []) trivial
    trivial
  have hsafe := hall _ hchecked _ (List.prefix_refl _)
    ⟨3, 0, 0, .checkpoint [] [(0, 2)]⟩ (by decide) rfl 1 1 (by decide) (by decide)
  revert hsafe
  decide

end Ccdb.RedoStart
