import Mathlib.Data.List.Count
import Ccdb.Storage.ClockReplacer

/-!
# Ccdb — the buffer pool is transparent

Callers open guards, read and write through them, drop them, flush pages and hand
pages back, in any order. `written` is the history variable they could keep
themselves: the contents last written to each page in use. `ShardInv` relates it to
frames, pins, page table and data file, shard by shard: a page in use is in its
frame or, when it has none, in the file, and a clean frame that no guard has
written is what the file holds.

A page that was recycled is not used before `new_page` returns it again
(`Op.Allowed`).

Main results:

* `ShardInv.pick` — a frame is found unless every frame has a guard.
* `Session.step_inv` — every operation keeps the invariant.
* `pool_transparent` — a fetch returns what was written last, whatever was evicted
  in between, and fails only when every frame of the shard is held by a guard.
-/

namespace Ccdb.FramePool

variable {α : Type} {fid : Nat}

/-! ## Sessions -/

/-- The pool, the guards that are open and the contents last written to the pages in use. -/
structure Session (α : Type) where
  pool : Pool α
  guards : List Guard
  written : Nat → Option α

inductive Op (α : Type) where
  | newPage
  | fetch (pageId : Nat)
  | write (i : Nat) (page : α)
  | drop (i : Nat)
  | flushPage (pageId : Nat)
  | flushAll
  | recycle (pageId : Nat)

/-- The page `new_page` is about to return, and whether it comes from the file's end. -/
def Pool.nextPage (pool : Pool α) : Nat :=
  match pool.firstRecycled 0 NUM_SHARDS with
  | some (_, pageId, _) => pageId
  | none => pool.disk.pageCount

/-- A call that succeeded opens a guard. -/
def Session.opened (s : Session α) (r : Except DbError Guard × Pool α) (written : Nat → Option α) :
    Session α :=
  match r with
  | (.ok g, pool) => ⟨pool, g :: s.guards, written⟩
  | (.error _, pool) => { s with pool := pool }

/-- One operation. An allocation that extends the file leaves a fresh page in it even
when no frame is found for it. -/
def Session.step (ops : PageOps α) (s : Session α) : Op α → Session α
  | .newPage =>
    let fresh := Function.update s.written s.pool.nextPage (some (ops.fresh s.pool.nextPage))
    let kept := if (s.pool.firstRecycled 0 NUM_SHARDS).isNone then fresh else s.written
    { s with written := kept }.opened (s.pool.newPage ops) fresh
  | .fetch pageId => s.opened (s.pool.fetchPage pageId) s.written
  | .write i page =>
    match s.guards[i]? with
    | none => s
    | some g =>
      ⟨s.pool.writeGuard g page, s.guards.set i { g with mutated := true },
        Function.update s.written g.pageId (some page)⟩
  | .drop i =>
    match s.guards[i]? with
    | none => s
    | some g => { s with pool := s.pool.release ops g, guards := s.guards.eraseIdx i }
  | .flushPage pageId => { s with pool := s.pool.flushPage pageId }
  | .flushAll => { s with pool := s.pool.flushAll }
  | .recycle pageId =>
    { s with
      pool := s.pool.recyclePage pageId
      written := Function.update s.written pageId none }

/-- What callers keep to: only pages without guards are recycled, and a recycled page is not
used. -/
def Op.Allowed (s : Session α) : Op α → Prop
  | .fetch pageId | .flushPage pageId => (s.written pageId).isSome ∨ s.pool.disk.pageCount ≤ pageId
  | .recycle pageId => (s.written pageId).isSome ∧ ∀ g ∈ s.guards, g.pageId ≠ pageId
  | _ => True

/-- Sessions callers can get into, from a pool over any data file. -/
inductive Reachable (ops : PageOps α) : Session α → Prop
  | start (capacity : Nat) (disk : Disk α) :
    Reachable ops ⟨Pool.new ops capacity disk, [],
      fun p => if p < disk.pageCount then some (disk.pages p) else none⟩
  | step {s : Session α} (h : Reachable ops s) (op : Op α) (hop : op.Allowed s) :
    Reachable ops (s.step ops op)

/-! ## Evictions, case by case -/

/-- The frame an eviction leaves. -/
def Frame.emptied (f : Frame α) : Frame α := ⟨f.page, none, 0, false, false⟩

theorem evict_eq_none {sh : Shard α} (d : Disk α) (h : (sh.frames fid).pageId = none) :
    evict sh d fid = (sh.setFrame fid (sh.frames fid).emptied, d) := by
  simp only [evict, h, Frame.emptied]

theorem evict_eq_some {sh : Shard α} {fid pid : Nat} (d : Disk α)
    (h : (sh.frames fid).pageId = some pid) :
    evict sh d fid =
      ({ sh.setFrame fid (sh.frames fid).emptied with
          pageTable := Function.update sh.pageTable pid none
          dpt := Function.update sh.dpt pid none },
        if (sh.frames fid).dirty then d.write pid (sh.frames fid).page else d) := by
  simp only [evict, h, Frame.emptied]

/-! ## The invariant of a shard -/

/-- The guards on the pages of a shard. -/
def guardsOf (guards : List Guard) (idx : Nat) : List Guard :=
  guards.filter fun g => shardIdx g.pageId = idx

/-- What a reader of the page would see. -/
def Shard.view (sh : Shard α) (d : Disk α) (p : Nat) : α :=
  match sh.pageTable p with
  | some fid => (sh.frames fid).page
  | none => d.pages p

/-- The invariant of shard `idx`; `gs` are the guards on its pages. -/
structure ShardInv (cap idx : Nat) (sh : Shard α) (d : Disk α) (gs : List Guard)
    (written : Nat → Option α) : Prop where
  arm : sh.arm < cap
  table : ∀ p fid, sh.pageTable p = some fid →
    shardIdx p = idx ∧ fid < cap ∧ (sh.frames fid).pageId = some p
  onDisk : ∀ p fid, sh.pageTable p = some fid → p < d.pageCount
  frame : ∀ fid p, fid < cap → (sh.frames fid).pageId = some p → sh.pageTable p = some fid
  empty : ∀ fid, fid < cap → (sh.frames fid).pageId = none →
    (sh.frames fid).pinCount = 0 ∧ (sh.frames fid).dirty = false
  free : ∀ fid ∈ sh.freeFrames, fid < cap ∧ (sh.frames fid).pageId = none
  freeNodup : sh.freeFrames.Nodup
  pins : ∀ fid, fid < cap → (sh.frames fid).pinCount = gs.countP fun g => g.fid = fid
  held : ∀ g ∈ gs, sh.pageTable g.pageId = some g.fid ∧ (written g.pageId).isSome
  inUse : ∀ p a, shardIdx p = idx → written p = some a → p < d.pageCount ∧ sh.view d p = a
  clean : ∀ p fid, (written p).isSome → sh.pageTable p = some fid →
    (sh.frames fid).dirty = false → (∀ g ∈ gs, g.pageId = p → g.mutated = false) →
    d.pages p = (sh.frames fid).page
  recycled : ∀ p ∈ sh.freeList, shardIdx p = idx ∧ p < d.pageCount ∧ written p = none
  recycledNodup : sh.freeList.Nodup

/-- Two files that agree on the pages of a shard. -/
structure SameFile (idx : Nat) (d d' : Disk α) : Prop where
  count : d.pageCount ≤ d'.pageCount
  pages : ∀ p, shardIdx p = idx → d'.pages p = d.pages p

/-- An empty frame that is on no list. -/
structure Spare (cap : Nat) (sh : Shard α) (fid : Nat) : Prop where
  lt : fid < cap
  empty : (sh.frames fid).pageId = none
  notFree : fid ∉ sh.freeFrames

namespace ShardInv

variable {cap idx : Nat} {sh : Shard α} {d d' : Disk α} {gs : List Guard}
  {written written' : Nat → Option α}

/-- What happens elsewhere does not matter. -/
theorem congr (h : ShardInv cap idx sh d gs written) (hd : SameFile idx d d')
    (hw : ∀ p, shardIdx p = idx → written' p = written p) :
    ShardInv cap idx sh d' gs written' := by
  have hview : ∀ p, shardIdx p = idx → sh.view d' p = sh.view d p := by
    intro p hp
    unfold Shard.view
    cases sh.pageTable p with
    | some fid => rfl
    | none => exact hd.pages p hp
  refine ⟨h.arm, h.table, fun p fid hp => Nat.lt_of_lt_of_le (h.onDisk p fid hp) hd.count,
    h.frame, h.empty, h.free, h.freeNodup, h.pins, ?_, ?_, ?_, ?_, h.recycledNodup⟩
  · intro g hg
    obtain ⟨htable, hsome⟩ := h.held g hg
    rw [hw _ (h.table _ _ htable).1]
    exact ⟨htable, hsome⟩
  · intro p a hp hpa
    rw [hw p hp] at hpa
    obtain ⟨hlt, hv⟩ := h.inUse p a hp hpa
    rw [hview p hp]
    exact ⟨Nat.lt_of_lt_of_le hlt hd.count, hv⟩
  · intro p fid hsome htable hclean hgs
    have hp := (h.table p fid htable).1
    rw [hw p hp] at hsome
    rw [hd.pages p hp]
    exact h.clean p fid hsome htable hclean hgs
  · intro p hp
    obtain ⟨hidx, hlt, hnone⟩ := h.recycled p hp
    exact ⟨hidx, Nat.lt_of_lt_of_le hlt hd.count, by rw [hw p hidx]; exact hnone⟩

/-- A frame without a guard on it is not pinned, and the other way round. -/
theorem pinned_iff (h : ShardInv cap idx sh d gs written) (hfid : fid < cap) :
    0 < (sh.frames fid).pinCount ↔ ∃ g ∈ gs, g.fid = fid := by
  rw [h.pins fid hfid, List.countP_pos_iff]
  simp

/-- The reference bits and the arm are the clock's own. -/
theorem clock (h : ShardInv cap idx sh d gs written) {arm : Nat} (harm : arm < cap)
    (ref : Nat → Bool) :
    ShardInv cap idx
      { sh with arm := arm, frames := fun i => { sh.frames i with referenced := ref i } }
      d gs written where
  arm := harm
  table := h.table
  onDisk := h.onDisk
  frame := h.frame
  empty := h.empty
  free := h.free
  freeNodup := h.freeNodup
  pins := h.pins
  held := h.held
  inUse := h.inUse
  clean := h.clean
  recycled := h.recycled
  recycledNodup := h.recycledNodup

/-- Frames that differ from `sh`'s only at `fid`. -/
theorem setFrame_ne (sh : Shard α) (f : Frame α) {fid i : Nat} (h : i ≠ fid) :
    (sh.setFrame fid f).frames i = sh.frames i := by
  simp [Shard.setFrame, h]

theorem setFrame_self (sh : Shard α) (fid : Nat) (f : Frame α) :
    (sh.setFrame fid f).frames fid = f := by
  simp [Shard.setFrame]

/-- Two pages do not share a frame. -/
theorem frame_inj (h : ShardInv cap idx sh d gs written) {p q fid : Nat}
    (hp : sh.pageTable p = some fid) (hq : sh.pageTable q = some fid) : p = q := by
  have hp' := (h.table p fid hp).2.2
  have hq' := (h.table q fid hq).2.2
  exact Option.some.inj (hp'.symm.trans hq')

/-- No guard holds a frame that is not pinned. -/
theorem no_guard (h : ShardInv cap idx sh d gs written) (hfid : fid < cap)
    (hpin : (sh.frames fid).pinCount = 0) : ∀ g ∈ gs, g.fid ≠ fid := by
  intro g hg hgf
  have hpos := (h.pinned_iff hfid).2 ⟨g, hg, hgf⟩
  omega

/-- A page that is not resident has no guard. -/
theorem no_guard_absent (h : ShardInv cap idx sh d gs written) {p : Nat}
    (hp : sh.pageTable p = none) : ∀ g ∈ gs, g.pageId ≠ p := by
  intro g hg hgp
  have htable := (h.held g hg).1
  rw [hgp, hp] at htable
  cases htable

/-- An unpinned frame with a page in it is evicted. -/
theorem evict_some (h : ShardInv cap idx sh d gs written) {fid pid : Nat} (hfid : fid < cap)
    (hpin : (sh.frames fid).pinCount = 0) (hpid : (sh.frames fid).pageId = some pid) :
    ShardInv cap idx
      { sh.setFrame fid (sh.frames fid).emptied with
        pageTable := Function.update sh.pageTable pid none
        dpt := Function.update sh.dpt pid none }
      (if (sh.frames fid).dirty then d.write pid (sh.frames fid).page else d) gs written := by
  have htab : sh.pageTable pid = some fid := h.frame fid pid hfid hpid
  have hidx := (h.table pid fid htab).1
  have hnog := h.no_guard hfid hpin
  set f' : Frame α := (sh.frames fid).emptied with hf'
  set d' := if (sh.frames fid).dirty then d.write pid (sh.frames fid).page else d with hd'
  have hcount : d'.pageCount = d.pageCount := by rw [hd']; split <;> rfl
  have hother : ∀ p, p ≠ pid → d'.pages p = d.pages p := by
    intro p hp
    rw [hd']
    split
    · exact Function.update_of_ne hp _ _
    · rfl
  -- the file now has the page, either way
  have hself : (written pid).isSome → d'.pages pid = (sh.frames fid).page := by
    intro hsome
    rw [hd']
    split
    · exact Function.update_self _ _ _
    · rename_i hclean
      refine h.clean pid fid hsome htab (by simpa using hclean) fun g hg hgp => ?_
      have hgt := (h.held g hg).1
      rw [hgp, htab] at hgt
      exact absurd (Option.some.inj hgt).symm (hnog g hg)
  have htab_ne : ∀ p, p ≠ pid → Function.update sh.pageTable pid none p = sh.pageTable p :=
    fun p hp => Function.update_of_ne hp _ _
  have hne_fid : ∀ p q, p ≠ pid → sh.pageTable p = some q → q ≠ fid := by
    rintro p q hp hq rfl
    exact hp (h.frame_inj hq htab)
  refine ⟨h.arm, ?_, ?_, ?_, ?_, ?_, h.freeNodup, ?_, ?_, ?_, ?_, ?_, h.recycledNodup⟩
  rotate_left
  · intro p q hq
    by_cases hp : p = pid
    · subst hp
      simp only [Function.update_self] at hq
      cases hq
    · simp only [htab_ne p hp] at hq
      rw [hcount]
      exact h.onDisk p q hq
  rotate_right
  · intro p q hq
    by_cases hp : p = pid
    · subst hp
      simp only [Function.update_self] at hq
      cases hq
    · simp only [htab_ne p hp] at hq
      obtain ⟨hpi, hlt, hframe⟩ := h.table p q hq
      exact ⟨hpi, hlt, by rw [setFrame_ne sh f' (hne_fid p q hp hq)]; exact hframe⟩
  · intro q p hlt hq
    by_cases hqf : q = fid
    · subst hqf
      simp only [setFrame_self] at hq
      cases hq
    · simp only [setFrame_ne sh f' hqf] at hq
      have hp : p ≠ pid := by
        rintro rfl
        have := h.frame q p hlt hq
        rw [htab] at this
        exact hqf (Option.some.inj this).symm
      simp only [htab_ne p hp]
      exact h.frame q p hlt hq
  · intro q hlt hq
    by_cases hqf : q = fid
    · subst hqf
      simp only [setFrame_self]
      exact ⟨rfl, rfl⟩
    · simp only [setFrame_ne sh f' hqf] at hq ⊢
      exact h.empty q hlt hq
  · intro q hq
    obtain ⟨hlt, hnone⟩ := h.free q hq
    refine ⟨hlt, ?_⟩
    by_cases hqf : q = fid
    · subst hqf
      simp only [setFrame_self, hf', Frame.emptied]
    · simp only [setFrame_ne sh f' hqf]
      exact hnone
  · intro q hlt
    by_cases hqf : q = fid
    · subst hqf
      simp only [setFrame_self, hf', Frame.emptied]
      rw [← hpin]
      exact h.pins q hlt
    · simp only [setFrame_ne sh f' hqf]
      exact h.pins q hlt
  · intro g hg
    obtain ⟨htable, hsome⟩ := h.held g hg
    have hp : g.pageId ≠ pid := by
      intro hgp
      rw [hgp, htab] at htable
      exact hnog g hg (Option.some.inj htable).symm
    simp only [htab_ne _ hp]
    exact ⟨htable, hsome⟩
  · intro p a hp hpa
    obtain ⟨hlt, hv⟩ := h.inUse p a hp hpa
    refine ⟨by rw [hcount]; exact hlt, ?_⟩
    by_cases hpp : p = pid
    · subst hpp
      have hv' : sh.view d p = (sh.frames fid).page := by simp only [Shard.view, htab]
      simp only [Shard.view, Function.update_self]
      rw [hself (by rw [hpa]; rfl), ← hv', hv]
    · rw [← hv]
      simp only [Shard.view, htab_ne p hpp]
      cases hq : sh.pageTable p with
      | none => exact hother p hpp
      | some q => simp only [setFrame_ne sh f' (hne_fid p q hpp hq)]
  · intro p q hsome hq hclean hgs
    by_cases hpp : p = pid
    · subst hpp
      simp only [Function.update_self] at hq
      cases hq
    · simp only [htab_ne p hpp] at hq
      have hqf := hne_fid p q hpp hq
      simp only [setFrame_ne sh f' hqf] at hclean ⊢
      rw [hother p hpp]
      exact h.clean p q hsome hq hclean hgs
  · intro p hp
    obtain ⟨hpi, hlt, hnone⟩ := h.recycled p hp
    exact ⟨hpi, by rw [hcount]; exact hlt, hnone⟩

/-- The dirty page table is not looked at. -/
theorem dpt (h : ShardInv cap idx sh d gs written) (t : Nat → Option Nat) :
    ShardInv cap idx { sh with dpt := t } d gs written where
  arm := h.arm
  table := h.table
  onDisk := h.onDisk
  frame := h.frame
  empty := h.empty
  free := h.free
  freeNodup := h.freeNodup
  pins := h.pins
  held := h.held
  inUse := h.inUse
  clean := h.clean
  recycled := h.recycled
  recycledNodup := h.recycledNodup

/-- A change of one frame that keeps the page it stands for. -/
theorem reframe (h : ShardInv cap idx sh d gs written) {f' : Frame α}
    {gs' : List Guard} (hid : f'.pageId = (sh.frames fid).pageId)
    (hempty : f'.pageId = none → f'.pinCount = 0 ∧ f'.dirty = false)
    (hpin : f'.pinCount = gs'.countP fun g => g.fid = fid)
    (hpins : ∀ i, i ≠ fid → gs'.countP (fun g => g.fid = i) = gs.countP fun g => g.fid = i)
    (hheld : ∀ g ∈ gs', sh.pageTable g.pageId = some g.fid ∧ (written' g.pageId).isSome)
    (hinUse : ∀ p a, shardIdx p = idx → written' p = some a →
      p < d'.pageCount ∧ (sh.setFrame fid f').view d' p = a)
    (hclean : ∀ p q, (written' p).isSome → sh.pageTable p = some q →
      ((sh.setFrame fid f').frames q).dirty = false →
      (∀ g ∈ gs', g.pageId = p → g.mutated = false) →
      d'.pages p = ((sh.setFrame fid f').frames q).page)
    (hrecycled : ∀ p ∈ sh.freeList, p < d'.pageCount ∧ written' p = none)
    (hcount : d.pageCount ≤ d'.pageCount) :
    ShardInv cap idx (sh.setFrame fid f') d' gs' written' := by
  have hids : ∀ i, ((sh.setFrame fid f').frames i).pageId = (sh.frames i).pageId := by
    intro i
    by_cases hi : i = fid
    · subst hi
      rw [setFrame_self]
      exact hid
    · rw [setFrame_ne sh f' hi]
  refine ⟨h.arm, ?_, fun p q hq => Nat.lt_of_lt_of_le (h.onDisk p q hq) hcount, ?_, ?_, ?_,
    h.freeNodup, ?_, hheld, hinUse, hclean, ?_, h.recycledNodup⟩
  · intro p q hq
    rw [hids]
    exact h.table p q hq
  · intro q p hlt hq
    rw [hids] at hq
    exact h.frame q p hlt hq
  · intro q hlt hq
    by_cases hqf : q = fid
    · subst hqf
      rw [setFrame_self] at hq ⊢
      exact hempty hq
    · rw [setFrame_ne sh f' hqf] at hq ⊢
      exact h.empty q hlt hq
  · intro q hq
    rw [hids]
    exact h.free q hq
  · intro q hlt
    by_cases hqf : q = fid
    · subst hqf
      rw [setFrame_self]
      exact hpin
    · rw [setFrame_ne sh f' hqf, hpins q hqf]
      exact h.pins q hlt
  · intro p hp
    exact ⟨(h.recycled p hp).1, hrecycled p hp⟩

/-- A change of one frame that keeps its contents. -/
theorem view_setFrame {f' : Frame α} (hpage : f'.page = (sh.frames fid).page)
    (p : Nat) : (sh.setFrame fid f').view d p = sh.view d p := by
  unfold Shard.view
  show (match sh.pageTable p with
    | some q => ((sh.setFrame fid f').frames q).page
    | none => d.pages p) = _
  cases sh.pageTable p with
  | none => rfl
  | some q =>
    by_cases hq : q = fid
    · subst hq
      simp only [setFrame_self]
      exact hpage
    · simp only [setFrame_ne sh f' hq]

theorem page_setFrame {f' : Frame α} (hpage : f'.page = (sh.frames fid).page)
    (q : Nat) : ((sh.setFrame fid f').frames q).page = (sh.frames q).page := by
  by_cases hq : q = fid
  · subst hq
    rw [setFrame_self]
    exact hpage
  · rw [setFrame_ne sh f' hq]

/-- An unpinned frame is evicted. -/
theorem evicted (h : ShardInv cap idx sh d gs written) (hfid : fid < cap)
    (hpin : (sh.frames fid).pinCount = 0) :
    ShardInv cap idx (evict sh d fid).1 (evict sh d fid).2 gs written := by
  cases hpid : (sh.frames fid).pageId with
  | some pid =>
    rw [evict_eq_some d hpid]
    exact h.evict_some hfid hpin hpid
  | none =>
    rw [evict_eq_none d hpid]
    obtain ⟨hzero, hclean⟩ := h.empty fid hfid hpid
    have hpage : (sh.frames fid).emptied.page = (sh.frames fid).page := rfl
    show ShardInv cap idx (sh.setFrame fid (sh.frames fid).emptied) d gs written
    refine h.reframe hpid.symm (fun _ => ⟨rfl, rfl⟩) ?_ (fun _ _ => rfl) h.held
      (fun p a hp hpa => ?_) (fun p q hs hq hc hg => ?_) (fun p hp => (h.recycled p hp).2)
      (Nat.le_refl _)
    · rw [← h.pins fid hfid, hzero]
      rfl
    · rw [view_setFrame hpage]
      exact h.inUse p a hp hpa
    · rw [page_setFrame hpage]
      refine h.clean p q hs hq ?_ hg
      by_cases hqf : q = fid
      · rw [hqf]
        exact hclean
      · rwa [setFrame_ne sh _ hqf] at hc

end ShardInv

/-- What an eviction leaves alone. -/
theorem evict_frame (sh : Shard α) (d : Disk α) (fid : Nat) :
    ((evict sh d fid).1.frames fid).pageId = none ∧
      (evict sh d fid).1.freeFrames = sh.freeFrames ∧
      (evict sh d fid).1.freeList = sh.freeList ∧
      (∀ p, sh.pageTable p = none → (evict sh d fid).1.pageTable p = none) ∧
      (evict sh d fid).2.pageCount = d.pageCount := by
  cases hpid : (sh.frames fid).pageId with
  | none =>
    rw [evict_eq_none d hpid]
    exact ⟨by simp [Shard.setFrame, Frame.emptied], rfl, rfl, fun p hp => hp, rfl⟩
  | some pid =>
    rw [evict_eq_some d hpid]
    refine ⟨by simp [Shard.setFrame, Frame.emptied], rfl, rfl, fun p hp => ?_, ?_⟩
    · by_cases hpp : p = pid
      · simp [hpp]
      · simp only [Function.update_of_ne hpp]
        exact hp
    · simp only
      split <;> rfl

/-- An eviction writes the page of its frame and no other. -/
theorem evict_disk {cap idx : Nat} {sh : Shard α} {d : Disk α} {gs : List Guard}
    {written : Nat → Option α} (h : ShardInv cap idx sh d gs written)
    (hfid : fid < cap) (p : Nat) (hp : shardIdx p ≠ idx ∨ sh.pageTable p = none) :
    (evict sh d fid).2.pages p = d.pages p := by
  cases hpid : (sh.frames fid).pageId with
  | none => rw [evict_eq_none d hpid]
  | some pid =>
    have htab := h.frame fid pid hfid hpid
    have hne : p ≠ pid := by
      rintro rfl
      rcases hp with hp | hp
      · exact hp (h.table p fid htab).1
      · rw [htab] at hp
        cases hp
    rw [evict_eq_some d hpid]
    simp only
    split
    · exact Function.update_of_ne hne _ _
    · rfl

/-! ## Finding a frame -/

/-- What a search for a frame keeps, whether it finds one or not. -/
structure Kept (idx : Nat) (sh sh' : Shard α) (d d' : Disk α) : Prop where
  freeList : sh'.freeList = sh.freeList
  absent : ∀ p, sh.pageTable p = none → sh'.pageTable p = none
  count : d'.pageCount = d.pageCount
  pages : ∀ p, shardIdx p ≠ idx ∨ sh.pageTable p = none → d'.pages p = d.pages p

section Pick

variable {cap idx : Nat} {sh : Shard α} {d : Disk α} {gs : List Guard} {written : Nat → Option α}

/-- The clock finds an unpinned frame, or every frame is pinned. -/
theorem victim_cases (h : ShardInv cap idx sh d gs written) :
    ∃ (arm : Nat) (ref : Nat → Bool), arm < cap ∧
      (victim cap sh).2 =
        { sh with arm := arm, frames := fun i => { sh.frames i with referenced := ref i } } ∧
      ((∃ fid, (victim cap sh).1 = some fid ∧ fid < cap ∧ (sh.frames fid).pinCount = 0) ∨
        (victim cap sh).1 = none ∧ ∀ fid, fid < cap → 0 < (sh.frames fid).pinCount) := by
  refine ⟨_, _, victim_arm h.arm, rfl, ?_⟩
  cases hfound : (victim cap sh).1 with
  | some fid => exact Or.inl ⟨fid, rfl, victim_some h.arm hfound⟩
  | none => exact Or.inr ⟨rfl, fun fid hfid => victim_none h.arm hfound hfid⟩

/-- A frame is found unless every frame of the shard is pinned. -/
theorem ShardInv.pick (h : ShardInv cap idx sh d gs written) :
    ∃ r sh' d', pickOrEvict cap sh d = (r, sh', d') ∧ ShardInv cap idx sh' d' gs written ∧
      Kept idx sh sh' d d' ∧
      ((∃ fid, r = .ok fid ∧ Spare cap sh' fid) ∨
        r = .error exhausted ∧ ∀ fid, fid < cap → 0 < (sh.frames fid).pinCount) := by
  unfold pickOrEvict
  cases hfree : sh.freeFrames with
  | cons fid rest =>
    have hmem : fid ∈ sh.freeFrames := by rw [hfree]; exact List.mem_cons_self
    obtain ⟨hlt, hnone⟩ := h.free fid hmem
    have hnodup := h.freeNodup
    rw [hfree] at hnodup
    have hnodup' := List.nodup_cons.1 hnodup
    refine ⟨_, _, _, rfl, ?_, ⟨rfl, fun p hp => hp, rfl, fun _ _ => rfl⟩,
      Or.inl ⟨fid, rfl, ⟨hlt, hnone, hnodup'.1⟩⟩⟩
    exact ⟨h.arm, h.table, h.onDisk, h.frame, h.empty,
      fun i hi => h.free i (by rw [hfree]; exact List.mem_cons_of_mem fid hi), hnodup'.2, h.pins,
      h.held, h.inUse, h.clean, h.recycled, h.recycledNodup⟩
  | nil =>
    obtain ⟨arm, ref, harm, hsh, hcase⟩ := victim_cases h
    have hclock := h.clock harm ref
    rw [← hsh] at hclock
    rcases hcase with ⟨fid, hfound, hlt, hpin⟩ | ⟨hfound, hall⟩
    · have hv : victim cap sh = (some fid, (victim cap sh).2) := Prod.ext hfound rfl
      have hpin' : ((victim cap sh).2.frames fid).pinCount = 0 := by
        rw [hsh]
        exact hpin
      obtain ⟨hempty, hff, hfl, habs, hcount⟩ := evict_frame (victim cap sh).2 d fid
      have hpt : (victim cap sh).2.pageTable = sh.pageTable := by rw [hsh]
      rw [hv]
      refine ⟨.ok fid, (evict (victim cap sh).2 d fid).1, (evict (victim cap sh).2 d fid).2, rfl,
        hclock.evicted hlt hpin', ⟨?_, ?_, hcount, ?_⟩,
        Or.inl ⟨fid, rfl, ⟨hlt, hempty, ?_⟩⟩⟩
      · exact hfl.trans (by rw [hsh])
      · intro p hp
        exact habs p (by rw [hpt]; exact hp)
      · intro p hp
        exact evict_disk hclock hlt p (by rw [hpt]; exact hp)
      · rw [hff, hsh, hfree]
        exact List.not_mem_nil
    · have hv : victim cap sh = (none, (victim cap sh).2) := Prod.ext hfound rfl
      have hpt : (victim cap sh).2.pageTable = sh.pageTable := by rw [hsh]
      rw [hv]
      refine ⟨_, _, _, rfl, hclock, ⟨by rw [hsh], fun p hp => by rw [hpt]; exact hp, rfl,
        fun _ _ => rfl⟩, Or.inr ⟨rfl, hall⟩⟩

/-- A page is brought into a spare frame, and the first guard on it opened. -/
theorem ShardInv.install (h : ShardInv cap idx sh d gs written) {fid p : Nat} {a : α}
    {dirty : Bool} (hs : Spare cap sh fid) (hidx : shardIdx p = idx)
    (habsent : sh.pageTable p = none) (hlt : p < d.pageCount) (hfl : p ∉ sh.freeList)
    (hdisk : dirty = false → d.pages p = a) :
    ShardInv cap idx (sh.install fid p a dirty) d (⟨p, fid, false⟩ :: gs)
      (Function.update written p (some a)) := by
  have hnog := h.no_guard hs.lt (h.empty fid hs.lt hs.empty).1
  have hnogp := h.no_guard_absent habsent
  set f' : Frame α := ⟨a, some p, 1, dirty, true⟩ with hf'
  have htab_ne : ∀ q, q ≠ p → Function.update sh.pageTable p (some fid) q = sh.pageTable q :=
    fun q hq => Function.update_of_ne hq _ _
  have hw_ne : ∀ q, q ≠ p → Function.update written p (some a) q = written q :=
    fun q hq => Function.update_of_ne hq _ _
  -- a resident page is in another frame
  have hne_fid : ∀ q i, sh.pageTable q = some i → i ≠ fid := by
    rintro q i hq rfl
    have hframe := (h.table q i hq).2.2
    rw [hs.empty] at hframe
    cases hframe
  show ShardInv cap idx
    { sh.setFrame fid f' with pageTable := Function.update sh.pageTable p (some fid) } d _ _
  refine ⟨h.arm, ?_, ?_, ?_, ?_, ?_, h.freeNodup, ?_, ?_, ?_, ?_, ?_, h.recycledNodup⟩
  rotate_left
  · intro q i hq
    by_cases hqp : q = p
    · rw [hqp]
      exact hlt
    · simp only [htab_ne q hqp] at hq
      exact h.onDisk q i hq
  rotate_right
  · intro q i hq
    by_cases hqp : q = p
    · subst hqp
      simp only [Function.update_self] at hq
      cases hq
      exact ⟨hidx, hs.lt, by simp only [setFrame_self, hf']⟩
    · simp only [htab_ne q hqp] at hq
      simp only [setFrame_ne sh f' (hne_fid q i hq)]
      exact h.table q i hq
  · intro i q hilt hi
    by_cases hif : i = fid
    · subst hif
      simp only [setFrame_self] at hi
      cases hi
      simp only [Function.update_self]
    · simp only [setFrame_ne sh f' hif] at hi
      have htab := h.frame i q hilt hi
      have hqp : q ≠ p := by
        rintro rfl
        rw [habsent] at htab
        cases htab
      simp only [htab_ne q hqp]
      exact htab
  · intro i hilt hi
    by_cases hif : i = fid
    · subst hif
      simp only [setFrame_self] at hi
      cases hi
    · simp only [setFrame_ne sh f' hif] at hi ⊢
      exact h.empty i hilt hi
  · intro i hi
    have hif : i ≠ fid := fun hif => hs.notFree (hif ▸ hi)
    simp only [setFrame_ne sh f' hif]
    exact h.free i hi
  · intro i hilt
    by_cases hif : i = fid
    · subst hif
      have hzero : gs.countP (fun g => decide (g.fid = i)) = 0 := by
        rw [List.countP_eq_zero]
        intro g hg
        simpa using hnog g hg
      simp only [setFrame_self, hf']
      rw [List.countP_cons, hzero]
      simp
    · simp only [setFrame_ne sh f' hif]
      rw [h.pins i hilt, List.countP_cons, if_neg (by simpa using Ne.symm hif), Nat.add_zero]
  · intro g hg
    rcases List.mem_cons.1 hg with rfl | hg
    · exact ⟨Function.update_self _ _ _, by simp⟩
    · obtain ⟨htab, hsome⟩ := h.held g hg
      have hgp := hnogp g hg
      rw [hw_ne _ hgp]
      exact ⟨(htab_ne _ hgp).trans htab, hsome⟩
  · intro q b hq hqb
    by_cases hqp : q = p
    · subst hqp
      rw [Function.update_self] at hqb
      cases hqb
      refine ⟨hlt, ?_⟩
      simp only [Shard.view, Function.update_self, setFrame_self, hf']
    · rw [hw_ne q hqp] at hqb
      obtain ⟨hqlt, hv⟩ := h.inUse q b hq hqb
      refine ⟨hqlt, ?_⟩
      rw [← hv]
      simp only [Shard.view, htab_ne q hqp]
      cases hi : sh.pageTable q with
      | none => rfl
      | some i => simp only [setFrame_ne sh f' (hne_fid q i hi)]
  · intro q i hsome hi hclean hgs
    by_cases hqp : q = p
    · subst hqp
      simp only [Function.update_self] at hi
      cases hi
      simp only [setFrame_self, hf'] at hclean ⊢
      exact hdisk hclean
    · rw [hw_ne q hqp] at hsome
      simp only [htab_ne q hqp] at hi
      simp only [setFrame_ne sh f' (hne_fid q i hi)] at hclean ⊢
      exact h.clean q i hsome hi hclean fun g hg => hgs g (List.mem_cons_of_mem _ hg)
  · intro q hq
    obtain ⟨hqi, hqlt, hnone⟩ := h.recycled q hq
    have hqp : q ≠ p := fun hqp => hfl (hqp ▸ hq)
    exact ⟨hqi, hqlt, by rw [hw_ne q hqp]; exact hnone⟩

end Pick

/-! ## Guards -/

section Guards

variable {cap idx : Nat} {sh : Shard α} {d : Disk α} {gs : List Guard} {written : Nat → Option α}

/-- A resident page is pinned once more. -/
theorem ShardInv.pin (h : ShardInv cap idx sh d gs written) {p fid : Nat}
    (htab : sh.pageTable p = some fid) (hw : (written p).isSome) :
    ShardInv cap idx
      (sh.setFrame fid
        { sh.frames fid with pinCount := (sh.frames fid).pinCount + 1, referenced := true })
      d (⟨p, fid, false⟩ :: gs) written := by
  obtain ⟨-, hlt, hid⟩ := h.table p fid htab
  refine h.reframe rfl (fun hnone => ?_) ?_ (fun i hi => ?_) (fun g hg => ?_)
    (fun q a hq hqa => ?_) (fun q i hs hi hc hg => ?_) (fun q hq => (h.recycled q hq).2)
    (Nat.le_refl _)
  · rw [hid] at hnone
    cases hnone
  · rw [List.countP_cons, if_pos (by simp)]
    exact congrArg (· + 1) (h.pins fid hlt)
  · rw [List.countP_cons, if_neg (by simpa using Ne.symm hi), Nat.add_zero]
  · rcases List.mem_cons.1 hg with rfl | hg
    · exact ⟨htab, hw⟩
    · exact h.held g hg
  · rw [ShardInv.view_setFrame (by rfl)]
    exact h.inUse q a hq hqa
  · rw [ShardInv.page_setFrame (by rfl)]
    refine h.clean q i hs hi ?_ fun g hg' => hg g (List.mem_cons_of_mem _ hg')
    by_cases hif : i = fid
    · subst hif
      rwa [ShardInv.setFrame_self] at hc
    · rwa [ShardInv.setFrame_ne sh _ hif] at hc

variable {l₁ l₂ : List Guard} {g : Guard}

/-- The page behind a guard is written. -/
theorem ShardInv.write (h : ShardInv cap idx sh d (l₁ ++ g :: l₂) written) (page : α) :
    ShardInv cap idx (sh.setFrame g.fid { sh.frames g.fid with page := page }) d
      (l₁ ++ { g with mutated := true } :: l₂)
      (Function.update written g.pageId (some page)) := by
  have hmem : g ∈ l₁ ++ g :: l₂ := by simp
  obtain ⟨htab, hsome⟩ := h.held g hmem
  obtain ⟨-, hlt, hid⟩ := h.table _ _ htab
  have hw_ne : ∀ q, q ≠ g.pageId → Function.update written g.pageId (some page) q = written q :=
    fun q hq => Function.update_of_ne hq _ _
  have hne_fid : ∀ q i, q ≠ g.pageId → sh.pageTable q = some i → i ≠ g.fid := by
    rintro q i hq hi rfl
    exact hq (h.frame_inj hi htab)
  refine h.reframe rfl (fun hnone => ?_) ?_ (fun i _ => ?_) (fun b hb => ?_)
    (fun q a hq hqa => ?_) (fun q i hs hi hc hg => ?_) (fun q hq => ?_) (Nat.le_refl _)
  · exact h.empty g.fid hlt hnone
  · simp only [h.pins g.fid hlt, List.countP_append, List.countP_cons]
  · simp only [List.countP_append, List.countP_cons]
  · have hold : ∃ b' ∈ l₁ ++ g :: l₂, b.pageId = b'.pageId ∧ b.fid = b'.fid := by
      rcases List.mem_append.1 hb with hb | hb
      · exact ⟨b, List.mem_append_left _ hb, rfl, rfl⟩
      · rcases List.mem_cons.1 hb with rfl | hb
        · exact ⟨g, hmem, rfl, rfl⟩
        · exact ⟨b, List.mem_append_right _ (List.mem_cons_of_mem _ hb), rfl, rfl⟩
    obtain ⟨b', hb', hp, hf⟩ := hold
    obtain ⟨htab', hsome'⟩ := h.held b' hb'
    rw [hp, hf]
    refine ⟨htab', ?_⟩
    by_cases hbp : b'.pageId = g.pageId
    · rw [hbp, Function.update_self]
      rfl
    · rw [hw_ne _ hbp]
      exact hsome'
  · by_cases hqp : q = g.pageId
    · subst hqp
      rw [Function.update_self] at hqa
      cases hqa
      refine ⟨h.onDisk _ _ htab, ?_⟩
      show (match sh.pageTable g.pageId with
        | some i => ((sh.setFrame g.fid _).frames i).page
        | none => d.pages g.pageId) = page
      simp only [htab, ShardInv.setFrame_self]
    · rw [hw_ne q hqp] at hqa
      obtain ⟨hqlt, hv⟩ := h.inUse q a hq hqa
      refine ⟨hqlt, ?_⟩
      rw [← hv]
      show (match sh.pageTable q with
        | some i => ((sh.setFrame g.fid _).frames i).page
        | none => d.pages q) = sh.view d q
      unfold Shard.view
      cases hi : sh.pageTable q with
      | none => rfl
      | some i => simp only [ShardInv.setFrame_ne sh _ (hne_fid q i hqp hi)]
  · have hqp : q ≠ g.pageId := by
      rintro rfl
      have := hg { g with mutated := true } (by simp) rfl
      cases this
    rw [hw_ne q hqp] at hs
    rw [ShardInv.setFrame_ne sh _ (hne_fid q i hqp hi)] at hc ⊢
    refine h.clean q i hs hi hc fun b hb hbq => ?_
    rcases List.mem_append.1 hb with hb | hb
    · exact hg b (List.mem_append_left _ hb) hbq
    · rcases List.mem_cons.1 hb with rfl | hb
      · exact absurd hbq.symm hqp
      · exact hg b (List.mem_append_right _ (List.mem_cons_of_mem _ hb)) hbq
  · obtain ⟨-, hqlt, hnone⟩ := h.recycled q hq
    have hqp : q ≠ g.pageId := by
      rintro rfl
      rw [hnone] at hsome
      cases hsome
    exact ⟨hqlt, by rw [hw_ne q hqp]; exact hnone⟩

/-- A guard is dropped. -/
theorem ShardInv.drop (h : ShardInv cap idx sh d (l₁ ++ g :: l₂) written) :
    0 < (sh.frames g.fid).pinCount ∧
      ShardInv cap idx
        (sh.setFrame g.fid
          { sh.frames g.fid with
            dirty := (sh.frames g.fid).dirty || g.mutated
            pinCount := (sh.frames g.fid).pinCount - 1 })
        d (l₁ ++ l₂) written := by
  have hmem : g ∈ l₁ ++ g :: l₂ := by simp
  obtain ⟨htab, hsome⟩ := h.held g hmem
  obtain ⟨-, hlt, hid⟩ := h.table _ _ htab
  have hsub : ∀ b ∈ l₁ ++ l₂, b ∈ l₁ ++ g :: l₂ := by
    intro b hb
    rcases List.mem_append.1 hb with hb | hb
    · exact List.mem_append_left _ hb
    · exact List.mem_append_right _ (List.mem_cons_of_mem _ hb)
  refine ⟨(h.pinned_iff hlt).2 ⟨g, hmem, rfl⟩, ?_⟩
  refine h.reframe rfl (fun hnone => ?_) ?_ (fun i hi => ?_) (fun b hb => h.held b (hsub b hb))
    (fun q a hq hqa => ?_) (fun q i hs hi hc hg => ?_) (fun q hq => (h.recycled q hq).2)
    (Nat.le_refl _)
  · rw [hid] at hnone
    cases hnone
  · have hpins := h.pins g.fid hlt
    rw [List.countP_append, List.countP_cons, if_pos (by simp)] at hpins
    rw [List.countP_append]
    show (sh.frames g.fid).pinCount - 1 = _
    omega
  · rw [List.countP_append, List.countP_append, List.countP_cons,
      if_neg (by simpa using Ne.symm hi), Nat.add_zero]
  · rw [ShardInv.view_setFrame (by rfl)]
    exact h.inUse q a hq hqa
  · rw [ShardInv.page_setFrame (by rfl)]
    have hboth : (sh.frames i).dirty = false ∧ (i = g.fid → g.mutated = false) := by
      by_cases hif : i = g.fid
      · subst hif
        rw [ShardInv.setFrame_self] at hc
        obtain ⟨hdirty, hmut⟩ := Bool.or_eq_false_iff.1 hc
        exact ⟨hdirty, fun _ => hmut⟩
      · rw [ShardInv.setFrame_ne sh _ hif] at hc
        exact ⟨hc, fun hif' => absurd hif' hif⟩
    refine h.clean q i hs hi hboth.1 fun b hb hbq => ?_
    rcases List.mem_append.1 hb with hb | hb
    · exact hg b (List.mem_append_left _ hb) hbq
    · rcases List.mem_cons.1 hb with rfl | hb
      · subst hbq
        rw [htab] at hi
        exact hboth.2 (Option.some.inj hi).symm
      · exact hg b (List.mem_append_right _ hb) hbq

end Guards

/-! ## Writing back -/

section Flush

variable {cap idx : Nat} {sh : Shard α} {d : Disk α} {gs : List Guard} {written : Nat → Option α}

/-- What writing back touches in the file. -/
structure Flushed (idx : Nat) (d d' : Disk α) : Prop where
  count : d'.pageCount = d.pageCount
  pages : ∀ p, shardIdx p ≠ idx → d'.pages p = d.pages p

/-- A frame is written back. -/
theorem ShardInv.writeBack (h : ShardInv cap idx sh d gs written) {fid pid : Nat}
    (hlt : fid < cap) (hid : (sh.frames fid).pageId = some pid) (t : Nat → Option Nat) :
    ShardInv cap idx
        { sh.setFrame fid { sh.frames fid with dirty := false } with dpt := t }
        (d.write pid (sh.frames fid).page) gs written ∧
      Flushed idx d (d.write pid (sh.frames fid).page) := by
  have htab := h.frame fid pid hlt hid
  have hidx := (h.table pid fid htab).1
  have hother : ∀ q, q ≠ pid → (d.write pid (sh.frames fid).page).pages q = d.pages q :=
    fun q hq => Function.update_of_ne hq _ _
  have hself : (d.write pid (sh.frames fid).page).pages pid = (sh.frames fid).page :=
    Function.update_self _ _ _
  refine ⟨ShardInv.dpt ?_ t, rfl, fun p hp => hother p fun hpp => hp (hpp ▸ hidx)⟩
  refine h.reframe rfl (fun hnone => ?_) (h.pins fid hlt) (fun _ _ => rfl) h.held
    (fun q a hq hqa => ?_) (fun q i hs hi hc hg => ?_) (fun q hq => (h.recycled q hq).2)
    (Nat.le_refl _)
  · rw [hid] at hnone
    cases hnone
  · rw [ShardInv.view_setFrame (by rfl)]
    obtain ⟨hqlt, hv⟩ := h.inUse q a hq hqa
    refine ⟨hqlt, ?_⟩
    rw [← hv]
    unfold Shard.view
    cases hi : sh.pageTable q with
    | some i => rfl
    | none =>
      refine hother q ?_
      rintro rfl
      rw [htab] at hi
      cases hi
  · rw [ShardInv.page_setFrame (by rfl)]
    by_cases hqp : q = pid
    · subst hqp
      rw [htab] at hi
      cases hi
      exact hself
    · have hif : i ≠ fid := by
        rintro rfl
        exact hqp (h.frame_inj hi htab)
      rw [ShardInv.setFrame_ne sh _ hif] at hc
      rw [hother q hqp]
      exact h.clean q i hs hi hc hg

theorem ShardInv.flushFrame (h : ShardInv cap idx sh d gs written) (hlt : fid < cap) :
    ShardInv cap idx (flushFrame sh d fid).1 (flushFrame sh d fid).2 gs written ∧
      Flushed idx d (FramePool.flushFrame sh d fid).2 := by
  unfold FramePool.flushFrame
  by_cases hdirty : (sh.frames fid).dirty = true
  · rw [if_pos hdirty]
    split
    · exact ⟨h, rfl, fun _ _ => rfl⟩
    · rename_i pid hid
      exact h.writeBack hlt hid _
  · rw [if_neg hdirty]
    exact ⟨h, rfl, fun _ _ => rfl⟩

theorem ShardInv.flushFrames (n : Nat) : ∀ (fid : Nat) (sh : Shard α) (d : Disk α),
    ShardInv cap idx sh d gs written → fid + n ≤ cap →
    ShardInv cap idx (flushFrames fid n sh d).1 (flushFrames fid n sh d).2 gs written ∧
      Flushed idx d (FramePool.flushFrames fid n sh d).2 := by
  induction n with
  | zero => exact fun fid sh d h _ => ⟨h, rfl, fun _ _ => rfl⟩
  | succ n ih =>
    intro fid sh d h hle
    obtain ⟨h₁, hd₁⟩ := h.flushFrame (show fid < cap by omega)
    obtain ⟨h₂, hd₂⟩ := ih (fid + 1) _ _ h₁ (by omega)
    exact ⟨h₂, hd₂.count.trans hd₁.count, fun p hp => (hd₂.pages p hp).trans (hd₁.pages p hp)⟩

end Flush

/-! ## Calls that open a guard -/

/-- What a call does that is to open a guard on `p`: it changes one shard, and it fails for a
page of the file only when every frame of the shard has a guard. -/
inductive Opened (pool : Pool α) (p : Nat) (gs : List Guard) (written written' : Nat → Option α) :
    Except DbError Guard × Pool α → Prop
  | ok (fid : Nat) (sh : Shard α) (d : Disk α)
      (inv : ShardInv pool.perShard (shardIdx p) sh d (⟨p, fid, false⟩ :: gs) written')
      (flushed : Flushed (shardIdx p) pool.disk d) :
      Opened pool p gs written written'
        (.ok ⟨p, fid, false⟩, { pool.setShard (shardIdx p) sh with disk := d })
  | failed (e : DbError) (sh : Shard α) (d : Disk α)
      (inv : ShardInv pool.perShard (shardIdx p) sh d gs written)
      (flushed : Flushed (shardIdx p) pool.disk d)
      (cause : p < pool.disk.pageCount →
        e = exhausted ∧ ∀ fid, fid < pool.perShard → ∃ g ∈ gs, g.fid = fid) :
      Opened pool p gs written written'
        (.error e, { pool.setShard (shardIdx p) sh with disk := d })

section Calls

variable {pool : Pool α} {p : Nat} {gs : List Guard} {written : Nat → Option α}

theorem Kept.flushed {idx : Nat} {sh sh' : Shard α} {d d' : Disk α} (h : Kept idx sh sh' d d') :
    Flushed idx d d' :=
  ⟨h.count, fun q hq => h.pages q (Or.inl hq)⟩

theorem update_same {a : α} (h : written p = some a) :
    Function.update written p (some a) = written := by
  rw [← h]
  exact Function.update_eq_self p written

/-- A page in use, or one behind the end of the file, is fetched. -/
theorem fetchPage_opened
    (h : ShardInv pool.perShard (shardIdx p) (pool.shard p) pool.disk gs written)
    (hp : (written p).isSome ∨ pool.disk.pageCount ≤ p) :
    Opened pool p gs written written (pool.fetchPage p) := by
  unfold Pool.fetchPage
  simp only
  change ShardInv pool.perShard (shardIdx p) (pool.shards (shardIdx p)) pool.disk gs written at h
  cases htab : (pool.shards (shardIdx p)).pageTable p with
  | some fid =>
    have hlt := h.onDisk p fid htab
    have hw : (written p).isSome := hp.resolve_right (by omega)
    exact .ok fid _ pool.disk (h.pin htab hw) ⟨rfl, fun _ _ => rfl⟩
  | none =>
    obtain ⟨r, sh', d', hpick, hinv, hkept, hcase⟩ := h.pick
    simp only [hpick]
    rcases hcase with ⟨fid, rfl, hspare⟩ | ⟨rfl, hall⟩
    · simp only [Disk.read]
      by_cases hlt : p < d'.pageCount
      · rw [if_pos hlt]
        have hw : (written p).isSome := hp.resolve_right (by rw [hkept.count] at hlt; omega)
        obtain ⟨a, ha⟩ := Option.isSome_iff_exists.1 hw
        have habsent := hkept.absent p htab
        have hfl : p ∉ sh'.freeList := by
          intro hmem
          rw [(hinv.recycled p hmem).2.2] at ha
          cases ha
        have hread : d'.pages p = a := by
          have hv := (hinv.inUse p a rfl ha).2
          rwa [Shard.view, habsent] at hv
        have hinst := hinv.install hspare rfl habsent hlt hfl fun _ : false = false => hread
        rw [update_same ha] at hinst
        simp only
        rw [hread]
        exact .ok fid _ d' hinst hkept.flushed
      · rw [if_neg hlt]
        refine .failed _ sh' d' hinv hkept.flushed fun hlt' => ?_
        rw [hkept.count] at hlt
        exact absurd hlt' hlt
    · refine .failed _ sh' d' hinv hkept.flushed fun _ => ⟨rfl, fun fid hfid => ?_⟩
      exact (h.pinned_iff hfid).1 (hall fid hfid)

/-- A page that is not resident gets a frame. -/
theorem installNew_opened (ops : PageOps α) {sh : Shard α} {d : Disk α}
    (h : ShardInv pool.perShard (shardIdx p) sh d gs written)
    (hd : Flushed (shardIdx p) pool.disk d) (habsent : sh.pageTable p = none)
    (hlt : p < d.pageCount) (hfl : p ∉ sh.freeList) :
    Opened pool p gs written (Function.update written p (some (ops.fresh p)))
      (pool.installNew ops sh d p) := by
  unfold Pool.installNew
  simp only
  obtain ⟨r, sh', d', hpick, hinv, hkept, hcase⟩ := h.pick
  have hflushed : Flushed (shardIdx p) pool.disk d' :=
    ⟨hkept.count.trans hd.count, fun q hq => (hkept.flushed.pages q hq).trans (hd.pages q hq)⟩
  simp only [hpick]
  rcases hcase with ⟨fid, rfl, hspare⟩ | ⟨rfl, hall⟩
  · have hinst := hinv.install (a := ops.fresh p) hspare rfl (hkept.absent p habsent)
      (by rw [hkept.count]; exact hlt) (by rw [hkept.freeList]; exact hfl)
      fun hfalse : true = false => by cases hfalse
    exact .ok fid _ d' hinst hflushed
  · refine .failed _ sh' d' hinv hflushed fun _ => ⟨rfl, fun fid hfid => ?_⟩
    exact (h.pinned_iff hfid).1 (hall fid hfid)

/-- The frame of a stale copy goes on the free list. -/
theorem ShardInv.stale_evicted {cap idx : Nat} {sh : Shard α} {d : Disk α}
    (h : ShardInv cap idx sh d gs written) (hfid : fid < cap)
    (hid : (sh.frames fid).pageId = some p) (hpin : (sh.frames fid).pinCount = 0) :
    ShardInv cap idx
      { (evict sh d fid).1 with freeFrames := fid :: (evict sh d fid).1.freeFrames }
      (evict sh d fid).2 gs written := by
  obtain ⟨hempty, hff, -, -, -⟩ := evict_frame sh d fid
  have hev := h.evicted hfid hpin
  have hnot : fid ∉ sh.freeFrames := by
    intro hmem
    rw [(h.free fid hmem).2] at hid
    cases hid
  refine ⟨hev.arm, hev.table, hev.onDisk, hev.frame, hev.empty, ?_, ?_, hev.pins, hev.held,
    hev.inUse, hev.clean, hev.recycled, hev.recycledNodup⟩
  · intro i hi
    rcases List.mem_cons.1 hi with rfl | hi
    · exact ⟨hfid, hempty⟩
    · exact hev.free i hi
  · exact List.nodup_cons.2 ⟨by rw [hff]; exact hnot, hev.freeNodup⟩

/-- A recycled page gets a frame, and its stale copy loses its own. -/
theorem installRecycled_opened (ops : PageOps α)
    (h : ShardInv pool.perShard (shardIdx p) (pool.shard p) pool.disk gs written)
    (hw : written p = none) (hlt : p < pool.disk.pageCount)
    (hfl : p ∉ (pool.shard p).freeList) :
    Opened pool p gs written (Function.update written p (some (ops.fresh p)))
      (pool.installRecycled ops p) := by
  unfold Pool.installRecycled
  simp only
  cases htab : (pool.shard p).pageTable p with
  | none => exact installNew_opened ops h ⟨rfl, fun _ _ => rfl⟩ htab hlt hfl
  | some fid =>
    obtain ⟨-, hfid, hid⟩ := h.table p fid htab
    -- no guard is on the page, so the frame is free to go
    have hpin : ((pool.shard p).frames fid).pinCount = 0 := by
      by_contra hne
      obtain ⟨g, hg, hgf⟩ := (h.pinned_iff hfid).1 (Nat.pos_of_ne_zero hne)
      obtain ⟨hgt, hsome⟩ := h.held g hg
      rw [hgf] at hgt
      rw [h.frame_inj hgt htab, hw] at hsome
      cases hsome
    obtain ⟨-, -, hfree, -, hcount⟩ := evict_frame (pool.shard p) pool.disk fid
    have hev := h.stale_evicted hfid hid hpin
    have habsent : (evict (pool.shard p) pool.disk fid).1.pageTable p = none := by
      rw [evict_eq_some _ hid]
      exact Function.update_self _ _ _
    exact installNew_opened ops hev ⟨hcount, fun q hq => evict_disk h hfid q (Or.inl hq)⟩ habsent
      (by rw [hcount]; exact hlt) (by rw [← hfree] at hfl; exact hfl)

/-- A page is added at the end of the file. -/
theorem ShardInv.allocated (ops : PageOps α) {cap idx : Nat} {sh : Shard α} {d : Disk α}
    (h : ShardInv cap idx sh d gs written) :
    ShardInv cap idx sh (d.allocate ops).2 gs
      (Function.update written d.pageCount (some (ops.fresh d.pageCount))) := by
  have hpages : ∀ q, q ≠ d.pageCount → (d.allocate ops).2.pages q = d.pages q :=
    fun q hq => Function.update_of_ne hq _ _
  have hself : (d.allocate ops).2.pages d.pageCount = ops.fresh d.pageCount :=
    Function.update_self _ _ _
  have hw_ne : ∀ q, q ≠ d.pageCount →
      Function.update written d.pageCount (some (ops.fresh d.pageCount)) q = written q :=
    fun q hq => Function.update_of_ne hq _ _
  have hcount : (d.allocate ops).2.pageCount = d.pageCount + 1 := rfl
  -- nothing of the new page is resident
  have habsent : sh.pageTable d.pageCount = none := by
    cases htab : sh.pageTable d.pageCount with
    | none => rfl
    | some fid => exact absurd (h.onDisk _ _ htab) (Nat.lt_irrefl _)
  have hres : ∀ q fid, sh.pageTable q = some fid → q ≠ d.pageCount :=
    fun q fid hq => Nat.ne_of_lt (h.onDisk q fid hq)
  refine ⟨h.arm, h.table, ?_, h.frame, h.empty, h.free, h.freeNodup, h.pins, ?_, ?_, ?_, ?_,
    h.recycledNodup⟩
  · intro q fid hq
    have := h.onDisk q fid hq
    omega
  · intro g hg
    obtain ⟨htab, hsome⟩ := h.held g hg
    rw [hw_ne _ (hres _ _ htab)]
    exact ⟨htab, hsome⟩
  · intro q a hq hqa
    by_cases hqp : q = d.pageCount
    · subst hqp
      rw [Function.update_self] at hqa
      cases hqa
      exact ⟨Nat.lt_succ_self _, by rw [Shard.view, habsent]; exact hself⟩
    · rw [hw_ne q hqp] at hqa
      obtain ⟨hlt, hv⟩ := h.inUse q a hq hqa
      refine ⟨by omega, ?_⟩
      rw [← hv]
      unfold Shard.view
      cases sh.pageTable q with
      | some fid => rfl
      | none => exact hpages q hqp
  · intro q fid hs hq hc hg
    have hqp := hres q fid hq
    rw [hw_ne q hqp] at hs
    rw [hpages q hqp]
    exact h.clean q fid hs hq hc hg
  · intro q hq
    obtain ⟨hqi, hlt, hnone⟩ := h.recycled q hq
    exact ⟨hqi, by omega, by rw [hw_ne q (Nat.ne_of_lt hlt)]; exact hnone⟩

theorem firstRecycled_some (pool : Pool α) (n : Nat) : ∀ idx i p rest,
    pool.firstRecycled idx n = some (i, p, rest) → (pool.shards i).freeList = p :: rest := by
  induction n with
  | zero => exact fun idx i p rest h => by cases h
  | succ n ih =>
    intro idx i p rest h
    unfold Pool.firstRecycled at h
    split at h
    · rename_i heq
      cases h
      exact heq
    · exact ih _ _ _ _ h

end Calls

/-! ## The invariant of a session -/

/-- Every shard keeps its invariant. -/
def Session.Inv (s : Session α) : Prop :=
  ∀ idx, ShardInv s.pool.perShard idx (s.pool.shards idx) s.pool.disk (guardsOf s.guards idx)
    s.written

namespace Session.Inv

variable {ops : PageOps α} {s : Session α}

/-- A change of one shard and its pages. -/
theorem inShard (h : s.Inv) {idx : Nat} {sh : Shard α} {d : Disk α} {guards : List Guard}
    {written : Nat → Option α}
    (hsh : ShardInv s.pool.perShard idx sh d (guardsOf guards idx) written)
    (hd : Flushed idx s.pool.disk d)
    (hg : ∀ i, i ≠ idx → guardsOf guards i = guardsOf s.guards i)
    (hw : ∀ p, shardIdx p ≠ idx → written p = s.written p) :
    Session.Inv ⟨{ s.pool.setShard idx sh with disk := d }, guards, written⟩ := by
  intro i
  show ShardInv s.pool.perShard i (Function.update s.pool.shards idx sh i) d (guardsOf guards i)
    written
  by_cases hi : i = idx
  · subst hi
    rw [Function.update_self]
    exact hsh
  · rw [Function.update_of_ne hi, hg i hi]
    exact (h i).congr ⟨Nat.le_of_eq hd.count.symm, fun p hp => hd.pages p (hp ▸ hi)⟩
      fun p hp => hw p (hp ▸ hi)

theorem guardsOf_cons (g : Guard) (guards : List Guard) (idx : Nat) :
    guardsOf (g :: guards) idx =
      if shardIdx g.pageId = idx then g :: guardsOf guards idx else guardsOf guards idx := by
  unfold guardsOf
  rw [List.filter_cons]
  simp only [decide_eq_true_eq]

theorem guardsOf_append (l₁ l₂ : List Guard) (idx : Nat) :
    guardsOf (l₁ ++ l₂) idx = guardsOf l₁ idx ++ guardsOf l₂ idx :=
  List.filter_append ..

/-- A call that is to open a guard. -/
theorem opened (h : s.Inv) {p : Nat} {written : Nat → Option α}
    {r : Except DbError Guard × Pool α}
    (hr : Opened s.pool p (guardsOf s.guards (shardIdx p)) s.written written r)
    (hw : ∀ q, shardIdx q ≠ shardIdx p → written q = s.written q) :
    (s.opened r written).Inv := by
  cases hr with
  | ok fid sh d inv flushed =>
    refine h.inShard ?_ flushed (fun i hi => ?_) hw
    · rw [guardsOf_cons, if_pos rfl]
      exact inv
    · rw [guardsOf_cons, if_neg (Ne.symm hi)]
  | failed e sh d inv flushed cause =>
    exact h.inShard inv flushed (fun _ _ => rfl) fun _ _ => rfl

/-- A recycled page is taken off its list. -/
theorem pop (h : s.Inv) {idx p : Nat} {rest : List Nat}
    (hfree : (s.pool.shards idx).freeList = p :: rest) :
    Session.Inv { s with
      pool := s.pool.setShard idx { s.pool.shards idx with freeList := rest } } := by
  have hsh := h idx
  have hnodup := hsh.recycledNodup
  rw [hfree] at hnodup
  refine h.inShard (d := s.pool.disk) ?_ ⟨rfl, fun _ _ => rfl⟩ (fun _ _ => rfl) fun _ _ => rfl
  refine ⟨hsh.arm, hsh.table, hsh.onDisk, hsh.frame, hsh.empty, hsh.free, hsh.freeNodup, hsh.pins,
    hsh.held, hsh.inUse, hsh.clean, fun q hq => ?_, (List.nodup_cons.1 hnodup).2⟩
  exact hsh.recycled q (by rw [hfree]; exact List.mem_cons_of_mem p hq)

/-- The two ways of `new_page`: the state it opens the guard from, and the call. -/
theorem newPage_cases (ops : PageOps α) (h : s.Inv) :
    ∃ s' : Session α, s'.Inv ∧ s'.guards = s.guards ∧ s'.pool.perShard = s.pool.perShard ∧
      (∀ p, p ≠ s.pool.nextPage → s'.written p = s.written p) ∧
      s'.written = (if (s.pool.firstRecycled 0 NUM_SHARDS).isNone then
        Function.update s.written s.pool.nextPage (some (ops.fresh s.pool.nextPage))
        else s.written) ∧
      s.pool.nextPage < s'.pool.disk.pageCount ∧
      Opened s'.pool s.pool.nextPage (guardsOf s.guards (shardIdx s.pool.nextPage)) s'.written
        (Function.update s.written s.pool.nextPage (some (ops.fresh s.pool.nextPage)))
        (s.pool.newPage ops) := by
  unfold Pool.newPage Pool.nextPage
  cases hfirst : s.pool.firstRecycled 0 NUM_SHARDS with
  | none =>
    set p := s.pool.disk.pageCount with hp
    have halloc : ∀ idx, ShardInv s.pool.perShard idx (s.pool.shards idx)
        (s.pool.disk.allocate ops).2 (guardsOf s.guards idx)
        (Function.update s.written p (some (ops.fresh p))) := fun idx => (h idx).allocated ops
    refine ⟨⟨{ s.pool with disk := (s.pool.disk.allocate ops).2 }, s.guards,
      Function.update s.written p (some (ops.fresh p))⟩, halloc, rfl, rfl,
      fun q hq => Function.update_of_ne hq _ _, rfl, Nat.lt_succ_self p, ?_⟩
    have hsh := h (shardIdx p)
    have habsent : (s.pool.shard p).pageTable p = none := by
      cases htab : (s.pool.shard p).pageTable p with
      | none => rfl
      | some fid => exact absurd (hsh.onDisk p fid htab) (by rw [hp]; exact Nat.lt_irrefl _)
    have hfl : p ∉ (s.pool.shard p).freeList := fun hmem =>
      absurd (hsh.recycled p hmem).2.1 (by rw [hp]; exact Nat.lt_irrefl _)
    have hopen := @installNew_opened α { s.pool with disk := (s.pool.disk.allocate ops).2 } p _ _
      ops _ _ (halloc (shardIdx p)) ⟨rfl, fun _ _ => rfl⟩ habsent (Nat.lt_succ_self p) hfl
    rw [Function.update_idem] at hopen
    exact hopen
  | some found =>
    obtain ⟨idx, p, rest⟩ := found
    have hfree := firstRecycled_some s.pool NUM_SHARDS 0 idx p rest hfirst
    obtain ⟨hidx, hlt, hnone⟩ := (h idx).recycled p (by rw [hfree]; exact List.mem_cons_self)
    have hnodup := (h idx).recycledNodup
    rw [hfree] at hnodup
    subst hidx
    set pool' := s.pool.setShard (shardIdx p) { s.pool.shard p with freeList := rest } with hpool'
    have hpop : Session.Inv ⟨pool', s.guards, s.written⟩ := h.pop hfree
    have hshard : pool'.shard p = { s.pool.shard p with freeList := rest } :=
      Function.update_self _ _ _
    refine ⟨⟨pool', s.guards, s.written⟩, hpop, rfl, rfl, fun _ _ => rfl, rfl, hlt, ?_⟩
    exact installRecycled_opened ops (hpop (shardIdx p)) hnone hlt
      (by rw [hshard]; exact (List.nodup_cons.1 hnodup).1)

/-- A list split at the guard with index `i`. -/
theorem split_guards {guards : List Guard} {i : Nat} {g : Guard} (hi : guards[i]? = some g) :
    ∃ l₁ l₂, guards = l₁ ++ g :: l₂ ∧ (∀ g', guards.set i g' = l₁ ++ g' :: l₂) ∧
      guards.eraseIdx i = l₁ ++ l₂ := by
  induction guards generalizing i with
  | nil => simp at hi
  | cons x xs ih =>
    cases i with
    | zero =>
      simp only [List.getElem?_cons_zero, Option.some.injEq] at hi
      subst hi
      exact ⟨[], xs, rfl, fun _ => rfl, rfl⟩
    | succ i =>
      rw [List.getElem?_cons_succ] at hi
      obtain ⟨l₁, l₂, hxs, hset, herase⟩ := ih hi
      exact ⟨x :: l₁, l₂, by rw [hxs]; rfl, fun g' => by rw [List.set_cons_succ, hset]; rfl,
        by rw [List.eraseIdx_cons_succ, herase]; rfl⟩

theorem write (h : s.Inv) {i : Nat} {g : Guard} (hi : s.guards[i]? = some g) (page : α) :
    Session.Inv ⟨s.pool.writeGuard g page, s.guards.set i { g with mutated := true },
      Function.update s.written g.pageId (some page)⟩ := by
  obtain ⟨l₁, l₂, hg, hset, -⟩ := split_guards hi
  have hsh := h (shardIdx g.pageId)
  rw [hg, guardsOf_append, guardsOf_cons, if_pos rfl] at hsh
  refine h.inShard (d := s.pool.disk) ?_ ⟨rfl, fun _ _ => rfl⟩ (fun j hj => ?_) fun q hq => ?_
  · rw [hset, guardsOf_append, guardsOf_cons, if_pos rfl]
    exact hsh.write page
  · rw [hset, hg, guardsOf_append, guardsOf_append, guardsOf_cons, guardsOf_cons,
      if_neg (Ne.symm hj), if_neg (Ne.symm hj)]
  · exact Function.update_of_ne (fun hqp : q = g.pageId => hq (hqp ▸ rfl)) _ _

theorem drop (h : s.Inv) {i : Nat} {g : Guard} (hi : s.guards[i]? = some g) :
    Session.Inv { s with pool := s.pool.release ops g, guards := s.guards.eraseIdx i } := by
  obtain ⟨l₁, l₂, hg, -, herase⟩ := split_guards hi
  have hsh := h (shardIdx g.pageId)
  rw [hg, guardsOf_append, guardsOf_cons, if_pos rfl] at hsh
  obtain ⟨hpos, hdrop⟩ := hsh.drop
  unfold Pool.release
  simp only
  rw [if_neg (Nat.ne_of_gt hpos)]
  refine h.inShard (d := s.pool.disk) ?_ ⟨rfl, fun _ _ => rfl⟩ (fun j hj => ?_) fun _ _ => rfl
  · rw [herase, guardsOf_append]
    exact hdrop.dpt _
  · rw [herase, hg, guardsOf_append, guardsOf_append, guardsOf_cons, if_neg (Ne.symm hj)]

theorem flushPage (h : s.Inv) (p : Nat) :
    Session.Inv { s with pool := s.pool.flushPage p } := by
  unfold Pool.flushPage
  simp only
  cases htab : (s.pool.shards (shardIdx p)).pageTable p with
  | none => exact h
  | some fid =>
    obtain ⟨-, hlt, hid⟩ := (h (shardIdx p)).table p fid htab
    simp only
    split
    · obtain ⟨hinv, hd⟩ := (h (shardIdx p)).writeBack hlt hid
        (Function.update (s.pool.shards (shardIdx p)).dpt p none)
      exact h.inShard hinv hd (fun _ _ => rfl) fun _ _ => rfl
    · exact h

theorem flushShards (n : Nat) : ∀ (idx : Nat) (s : Session α), s.Inv →
    Session.Inv { s with pool := Pool.flushShards idx n s.pool } := by
  induction n with
  | zero => exact fun idx s h => h
  | succ n ih =>
    intro idx s h
    obtain ⟨hinv, hd⟩ := ShardInv.flushFrames s.pool.perShard 0 _ _ (h idx) (by omega)
    exact ih (idx + 1) _ (h.inShard hinv hd (fun _ _ => rfl) fun _ _ => rfl)

theorem recycle (h : s.Inv) {p : Nat} (hw : (s.written p).isSome)
    (hg : ∀ g ∈ s.guards, g.pageId ≠ p) :
    Session.Inv { s with
      pool := s.pool.recyclePage p
      written := Function.update s.written p none } := by
  have hsh := h (shardIdx p)
  obtain ⟨a, ha⟩ := Option.isSome_iff_exists.1 hw
  have hw_ne : ∀ q, q ≠ p → Function.update s.written p none q = s.written q :=
    fun q hq => Function.update_of_ne hq _ _
  refine h.inShard (d := s.pool.disk) ?_ ⟨rfl, fun _ _ => rfl⟩ (fun _ _ => rfl)
    fun q hq => hw_ne q fun hqp => hq (hqp ▸ rfl)
  refine ⟨hsh.arm, hsh.table, hsh.onDisk, hsh.frame, hsh.empty, hsh.free, hsh.freeNodup, hsh.pins,
    fun g hgm => ?_, fun q b hq hqb => ?_, fun q fid hs hq hc hgs => ?_, fun q hq => ?_, ?_⟩
  · rw [hw_ne _ (hg g (List.mem_filter.1 hgm).1)]
    exact hsh.held g hgm
  · have hqp : q ≠ p := by
      rintro rfl
      rw [Function.update_self] at hqb
      cases hqb
    rw [hw_ne q hqp] at hqb
    exact hsh.inUse q b hq hqb
  · have hqp : q ≠ p := by
      rintro rfl
      rw [Function.update_self] at hs
      cases hs
    rw [hw_ne q hqp] at hs
    exact hsh.clean q fid hs hq hc hgs
  · rcases List.mem_cons.1 hq with rfl | hq
    · exact ⟨rfl, (hsh.inUse q a rfl ha).1, Function.update_self _ _ _⟩
    · obtain ⟨hqi, hlt, hnone⟩ := hsh.recycled q hq
      refine ⟨hqi, hlt, ?_⟩
      by_cases hqp : q = p
      · rw [hqp]
        exact Function.update_self _ _ _
      · rw [hw_ne q hqp]
        exact hnone
  · refine List.nodup_cons.2 ⟨fun hmem => ?_, hsh.recycledNodup⟩
    rw [(hsh.recycled p hmem).2.2] at ha
    cases ha

end Session.Inv

/-- Every operation keeps the invariant. -/
theorem Session.step_inv {ops : PageOps α} {s : Session α} (h : s.Inv) (op : Op α)
    (hop : op.Allowed s) : (s.step ops op).Inv := by
  cases op with
  | newPage =>
    obtain ⟨s', hinv, hguards, hcap, hother, hwritten, -, hopen⟩ := h.newPage_cases ops
    have hnext := Session.Inv.opened (s := s') hinv (by rw [hguards]; exact hopen) fun q hq => by
      have hne : q ≠ s.pool.nextPage := fun hqp => hq (hqp ▸ rfl)
      rw [Function.update_of_ne hne, hother q hne]
    have hsame : s.step ops .newPage = s'.opened (s.pool.newPage ops)
        (Function.update s.written s.pool.nextPage (some (ops.fresh s.pool.nextPage))) := by
      simp only [Session.step, ← hwritten, ← hguards]
      cases s.pool.newPage ops with
      | mk r pool => cases r <;> rfl
    rw [hsame]
    exact hnext
  | fetch p => exact h.opened (fetchPage_opened (h (shardIdx p)) hop) fun _ _ => rfl
  | write i page =>
    cases hi : s.guards[i]? with
    | none => simpa only [Session.step, hi] using h
    | some g => simpa only [Session.step, hi] using h.write hi page
  | drop i =>
    cases hi : s.guards[i]? with
    | none => simpa only [Session.step, hi] using h
    | some g => simpa only [Session.step, hi] using h.drop hi
  | flushPage p => exact h.flushPage p
  | flushAll => exact Session.Inv.flushShards NUM_SHARDS 0 s h
  | recycle p => exact h.recycle hop.1 hop.2

theorem Reachable.inv {ops : PageOps α} {s : Session α} (h : Reachable ops s) : s.Inv := by
  induction h with
  | start capacity disk =>
    intro idx
    have hcap : 0 < max ((capacity + NUM_SHARDS - 1) / NUM_SHARDS) 1 := by omega
    refine ⟨hcap, ?_, ?_, ?_, fun _ _ _ => ⟨rfl, rfl⟩, ?_, List.nodup_range, fun _ _ => rfl, ?_, ?_,
      ?_, ?_, List.nodup_nil⟩
    · rintro p fid ⟨⟩
    · rintro p fid ⟨⟩
    · rintro fid p - ⟨⟩
    · exact fun fid hfid => ⟨List.mem_range.1 hfid, rfl⟩
    · rintro g hg
      cases hg
    · intro p a _ hp
      change (if p < disk.pageCount then some (disk.pages p) else none) = some a at hp
      by_cases hlt : p < disk.pageCount
      · rw [if_pos hlt] at hp
        exact ⟨hlt, Option.some.inj hp⟩
      · rw [if_neg hlt] at hp
        cases hp
    · rintro p fid - ⟨⟩
    · rintro p hp
      cases hp
  | step h op hop ih => exact Session.step_inv ih op hop

/-! ## Transparency -/

/-- Every frame of a shard is pinned, by a guard that is still open. -/
def Session.AllPinned (s : Session α) (idx : Nat) : Prop :=
  ∀ fid, fid < s.pool.perShard → 0 < ((s.pool.shards idx).frames fid).pinCount ∧
    ∃ g ∈ s.guards, shardIdx g.pageId = idx ∧ g.fid = fid

/-- A call opens a guard on `p` that reads `a`, or every frame of `p`'s shard is pinned. -/
def Session.Serves (s : Session α) (p : Nat) (a : α) : Except DbError Guard × Pool α → Prop
  | (.ok g, pool) => g.pageId = p ∧ pool.readGuard g = a
  | (.error e, _) => e = exhausted ∧ s.AllPinned (shardIdx p)

theorem Session.Inv.serves {s s' : Session α} (h : s.Inv)
    (hcap : s'.pool.perShard = s.pool.perShard) {p : Nat} {a : α}
    {written : Nat → Option α} {r : Except DbError Guard × Pool α}
    (hr : Opened s'.pool p (guardsOf s.guards (shardIdx p)) s'.written written r)
    (hp : p < s'.pool.disk.pageCount) (hw : written p = some a) : s.Serves p a r := by
  cases hr with
  | ok fid sh d inv flushed =>
    refine ⟨rfl, ?_⟩
    have htab := (inv.held ⟨p, fid, false⟩ List.mem_cons_self).1
    have hv := (inv.inUse p a rfl hw).2
    simp only [Shard.view, htab] at hv
    show ((Function.update s'.pool.shards (shardIdx p) sh (shardIdx p)).frames fid).page = a
    rw [Function.update_self]
    exact hv
  | failed e sh d inv flushed cause =>
    obtain ⟨he, hall⟩ := cause hp
    refine ⟨he, fun fid hfid => ?_⟩
    obtain ⟨g, hg, hgf⟩ := hall fid (by rw [hcap]; exact hfid)
    obtain ⟨hmem, hidx⟩ := List.mem_filter.1 hg
    exact ⟨((h (shardIdx p)).pinned_iff hfid).2 ⟨g, hg, hgf⟩, g, hmem, by simpa using hidx, hgf⟩

/-- An open guard reads its page, from the frame the page table has for it. -/
theorem Session.Inv.guard_reads {s : Session α} (h : s.Inv) {g : Guard} (hg : g ∈ s.guards) :
    (s.pool.shard g.pageId).pageTable g.pageId = some g.fid ∧
      s.written g.pageId = some (s.pool.readGuard g) := by
  have hsh := h (shardIdx g.pageId)
  have hmem : g ∈ guardsOf s.guards (shardIdx g.pageId) := List.mem_filter.2 ⟨hg, by simp⟩
  obtain ⟨htab, hsome⟩ := hsh.held g hmem
  obtain ⟨a, ha⟩ := Option.isSome_iff_exists.1 hsome
  have hv := (hsh.inUse g.pageId a rfl ha).2
  simp only [Shard.view, htab] at hv
  refine ⟨htab, ?_⟩
  rw [ha, ← hv]
  rfl

/-- The pool is transparent: a fetch reads what was written last, a new page is `Page::new`,
either fails only when every frame of the shard is pinned, and every open guard reads what was
written last. -/
theorem pool_transparent {ops : PageOps α} {s : Session α} (h : Reachable ops s) :
    (∀ p a, s.written p = some a → s.Serves p a (s.pool.fetchPage p)) ∧
      s.Serves s.pool.nextPage (ops.fresh s.pool.nextPage) (s.pool.newPage ops) ∧
      ∀ g ∈ s.guards, s.written g.pageId = some (s.pool.readGuard g) := by
  have hinv := h.inv
  refine ⟨fun p a hp => ?_, ?_, fun g hg => ?_⟩
  · have hlt := ((hinv (shardIdx p)).inUse p a rfl hp).1
    exact hinv.serves rfl (fetchPage_opened (hinv (shardIdx p)) (Or.inl (by rw [hp]; rfl))) hlt
      hp
  · obtain ⟨s', -, -, hcap, -, -, hlt, hopen⟩ := hinv.newPage_cases ops
    exact hinv.serves hcap hopen hlt (Function.update_self _ _ _)
  · exact (hinv.guard_reads hg).2

/-- One frame a shard: page 0 is written, page 16 takes its frame, and page 0 is back. -/
def sixteenTakesFrame : Session Nat :=
  [Op.fetch 0, .write 0 100, .drop 0, .fetch 16, .drop 0].foldl (Session.step ⟨id, id⟩)
    ⟨Pool.new ⟨id, id⟩ 16 ⟨17, id⟩, [], fun p => if p < 17 then some p else none⟩

theorem pool_transparent_evicted :
    sixteenTakesFrame.Serves 0 100 (sixteenTakesFrame.pool.fetchPage 0) := by
  have hstart : Reachable ⟨id, id⟩ _ := .start 16 ⟨17, id⟩
  have hwritten := ((hstart.step (.fetch 0) (.inl rfl)).step (.write 0 100) trivial).step (.drop 0)
    trivial
  have htaken := (hwritten.step (.fetch 16) (.inl rfl)).step (.drop 0) trivial
  exact (pool_transparent htaken).1 0 100 rfl

end Ccdb.FramePool
