import Ccdb.Storage.Transparent

/-!
# Ccdb — what the pool does to a page on its own

Eviction and the flushes clean frames nobody asked them to. For one page such a
step either changes nothing of what is kept about it (its image in the file, the
dirty bit of its frame, its entry in the dirty page table) or writes it back: the
file has the contents, the bit is off and the entry is gone (`Settles`).

Main results:

* `Session.Inv.fetch_settles`, `flushPage_settles`, `flushAll_settles` — for every
  page in use.
* `Session.Inv.newPage_settles` — for every page but the new one.
-/

namespace Ccdb.FramePool

variable {α : Type}

/-- What is kept about a page besides its contents. A page without a frame is not dirty. -/
@[ext] structure PageState (α : Type) where
  image : α
  dirty : Bool
  entry : Option Nat
deriving DecidableEq

def Shard.isDirty (sh : Shard α) (p : Nat) : Bool :=
  match sh.pageTable p with
  | some fid => (sh.frames fid).dirty
  | none => false

def Shard.stateOf (sh : Shard α) (d : Disk α) (p : Nat) : PageState α :=
  ⟨d.pages p, sh.isDirty p, sh.dpt p⟩

def Pool.stateOf (pool : Pool α) (p : Nat) : PageState α := (pool.shard p).stateOf pool.disk p

/-- A page whose contents are `w` is left alone or written back. -/
def Settles (w : Option α) (x y : PageState α) : Prop :=
  y = x ∨ y.dirty = false ∧ y.entry = none ∧ ∀ a, w = some a → y.image = a

theorem Settles.refl (w : Option α) (x : PageState α) : Settles w x x := Or.inl rfl

theorem Settles.trans {w : Option α} {x y z : PageState α} (h : Settles w x y)
    (h' : Settles w y z) : Settles w x z := by
  rcases h' with rfl | h'
  · exact h
  · exact Or.inr h'

section Shards

variable {cap idx : Nat} {sh : Shard α} {d : Disk α} {gs : List Guard} {written : Nat → Option α}

/-- An unpinned frame is evicted. -/
theorem ShardInv.evict_settles (h : ShardInv cap idx sh d gs written) {fid : Nat}
    (hfid : fid < cap) (hpin : (sh.frames fid).pinCount = 0) {p : Nat} (hp : shardIdx p = idx) :
    Settles (written p) (sh.stateOf d p) ((evict sh d fid).1.stateOf (evict sh d fid).2 p) := by
  have hsh := h.evicted hfid hpin
  cases hpid : (sh.frames fid).pageId with
  | none =>
    refine Or.inl ?_
    rw [evict_eq_none d hpid]
    simp only [Shard.stateOf, Shard.isDirty]
    show (⟨d.pages p, match sh.pageTable p with
      | some i => ((sh.setFrame fid (sh.frames fid).emptied).frames i).dirty
      | none => false, sh.dpt p⟩ : PageState α) = _
    cases htab : sh.pageTable p with
    | none => rfl
    | some i =>
      have hif : i ≠ fid := by
        rintro rfl
        have hid := (h.table p i htab).2.2
        rw [hpid] at hid
        cases hid
      simp only [ShardInv.setFrame_ne sh _ hif]
  | some pid =>
    by_cases hpp : p = pid
    · subst hpp
      refine Or.inr ⟨?_, ?_, fun a ha => ?_⟩
      · rw [evict_eq_some d hpid]
        simp only [Shard.stateOf, Shard.isDirty, Function.update_self]
      · rw [evict_eq_some d hpid]
        simp only [Shard.stateOf, Function.update_self]
      · have hv := (hsh.inUse p a hp ha).2
        have habsent : (evict sh d fid).1.pageTable p = none := by
          rw [evict_eq_some d hpid]
          exact Function.update_self _ _ _
        rwa [Shard.view, habsent] at hv
    · refine Or.inl ?_
      have himage : (evict sh d fid).2.pages p = d.pages p := by
        rw [evict_eq_some d hpid]
        simp only
        split
        · exact Function.update_of_ne hpp _ _
        · rfl
      simp only [Shard.stateOf, Shard.isDirty, himage]
      rw [evict_eq_some d hpid]
      simp only [Function.update_of_ne hpp]
      cases htab : sh.pageTable p with
      | none => rfl
      | some i =>
        have hif : i ≠ fid := by
          rintro rfl
          have hid := (h.table p i htab).2.2
          rw [hpid] at hid
          exact hpp (Option.some.inj hid).symm
        simp only [ShardInv.setFrame_ne sh _ hif]

/-- The search for a frame. -/
theorem ShardInv.pick_settles (h : ShardInv cap idx sh d gs written) {p : Nat}
    (hp : shardIdx p = idx) :
    Settles (written p) (sh.stateOf d p)
      ((pickOrEvict cap sh d).2.1.stateOf (pickOrEvict cap sh d).2.2 p) := by
  unfold pickOrEvict
  cases sh.freeFrames with
  | cons fid rest => exact Settles.refl _ _
  | nil =>
    obtain ⟨arm, ref, harm, hsh, hcase⟩ := victim_cases h
    have hclock := h.clock harm ref
    rw [← hsh] at hclock
    have hsame : (victim cap sh).2.stateOf d p = sh.stateOf d p := by
      rw [hsh]
      rfl
    rcases hcase with ⟨fid, hfound, hlt, hpin⟩ | ⟨hfound, -⟩
    · have hv : victim cap sh = (some fid, (victim cap sh).2) := Prod.ext hfound rfl
      have hpin' : ((victim cap sh).2.frames fid).pinCount = 0 := by
        rw [hsh]
        exact hpin
      rw [hv]
      simp only
      rw [← hsame]
      exact hclock.evict_settles hlt hpin' hp
    · have hv : victim cap sh = (none, (victim cap sh).2) := Prod.ext hfound rfl
      rw [hv]
      exact Or.inl hsame

/-- A page comes into a spare frame. -/
theorem install_stateOf {fid p : Nat} {a : α} {dirty : Bool} (hs : Spare cap sh fid)
    (h : ShardInv cap idx sh d gs written) (q : Nat) :
    (sh.install fid p a dirty).stateOf d q =
      if q = p then ⟨d.pages p, dirty, sh.dpt p⟩ else sh.stateOf d q := by
  unfold Shard.stateOf Shard.isDirty Shard.install
  by_cases hqp : q = p
  · subst hqp
    rw [if_pos rfl]
    simp only [Function.update_self, ShardInv.setFrame_self]
    rfl
  · rw [if_neg hqp]
    simp only [Function.update_of_ne hqp]
    cases htab : sh.pageTable q with
    | none => rfl
    | some i =>
      have hif : i ≠ fid := by
        rintro rfl
        have hid := (h.table q i htab).2.2
        rw [hs.empty] at hid
        cases hid
      simp only [ShardInv.setFrame_ne sh _ hif]
      rfl

/-- A frame is written back. -/
theorem ShardInv.writeBack_settles (h : ShardInv cap idx sh d gs written) {fid pid : Nat}
    (hlt : fid < cap) (hid : (sh.frames fid).pageId = some pid) {p : Nat} (hp : shardIdx p = idx) :
    Settles (written p) (sh.stateOf d p)
      (Shard.stateOf
        { sh.setFrame fid { sh.frames fid with dirty := false } with
          dpt := Function.update sh.dpt pid none }
        (d.write pid (sh.frames fid).page) p) := by
  have htab := h.frame fid pid hlt hid
  by_cases hpp : p = pid
  · subst hpp
    refine Or.inr ⟨?_, Function.update_self _ _ _, fun a ha => ?_⟩
    · show (match sh.pageTable p with
        | some i => ((sh.setFrame fid _).frames i).dirty
        | none => false) = false
      simp only [htab, ShardInv.setFrame_self]
    · have hv := (h.inUse p a hp ha).2
      simp only [Shard.view, htab] at hv
      exact (Function.update_self _ _ _).trans hv
  · refine Or.inl ?_
    have himage : (d.write pid (sh.frames fid).page).pages p = d.pages p :=
      Function.update_of_ne hpp _ _
    have hentry : Function.update sh.dpt pid none p = sh.dpt p := Function.update_of_ne hpp _ _
    have hbit : (match sh.pageTable p with
        | some i => ((sh.setFrame fid { sh.frames fid with dirty := false }).frames i).dirty
        | none => false) = sh.isDirty p := by
      unfold Shard.isDirty
      cases hi : sh.pageTable p with
      | none => rfl
      | some i =>
        have hif : i ≠ fid := by
          rintro rfl
          exact hpp (h.frame_inj hi htab)
        simp only [ShardInv.setFrame_ne sh _ hif]
    exact PageState.ext himage hbit hentry

theorem ShardInv.flushFrame_settles (h : ShardInv cap idx sh d gs written) {fid : Nat}
    (hlt : fid < cap) {p : Nat} (hp : shardIdx p = idx) :
    Settles (written p) (sh.stateOf d p)
      ((FramePool.flushFrame sh d fid).1.stateOf (FramePool.flushFrame sh d fid).2 p) := by
  unfold FramePool.flushFrame
  simp only
  by_cases hdirty : (sh.frames fid).dirty = true
  · rw [if_pos hdirty]
    split
    · exact Settles.refl _ _
    · rename_i pid hid
      exact h.writeBack_settles hlt hid hp
  · rw [if_neg hdirty]
    exact Settles.refl _ _

theorem ShardInv.flushFrames_settles (n : Nat) : ∀ (fid : Nat) (sh : Shard α) (d : Disk α),
    ShardInv cap idx sh d gs written → fid + n ≤ cap → ∀ p, shardIdx p = idx →
    Settles (written p) (sh.stateOf d p)
      ((FramePool.flushFrames fid n sh d).1.stateOf (FramePool.flushFrames fid n sh d).2 p) := by
  induction n with
  | zero => exact fun fid sh d _ _ p _ => Settles.refl _ _
  | succ n ih =>
    intro fid sh d h hle p hp
    have hstep := h.flushFrame_settles (show fid < cap by omega) hp
    obtain ⟨h', -⟩ := h.flushFrame (show fid < cap by omega)
    exact hstep.trans (ih (fid + 1) _ _ h' (by omega) p hp)

end Shards

/-! ## Calls -/

/-- The page `new_page` returns: an entry it still has was there before, and then the frame is
dirty. -/
def Renewed (x y : PageState α) : Prop :=
  y.entry = none ∨ y.entry = x.entry ∧ (y.dirty = true ∨ y.dirty = x.dirty)

theorem Settles.renewed {w : Option α} {x y : PageState α} (h : Settles w x y) : Renewed x y := by
  rcases h with rfl | ⟨-, hentry, -⟩
  · exact Or.inr ⟨rfl, Or.inr rfl⟩
  · exact Or.inl hentry

theorem Renewed.trans {x y z : PageState α} (h : Renewed x y) (h' : Renewed y z) :
    Renewed x z := by
  rcases h' with hnone | ⟨hsame, hbit⟩
  · exact Or.inl hnone
  · rcases h with hnone | ⟨hsame', hbit'⟩
    · exact Or.inl (hsame.trans hnone)
    · refine Or.inr ⟨hsame.trans hsame', ?_⟩
      rcases hbit with hbit | hbit
      · exact Or.inl hbit
      · rw [hbit]
        exact hbit'

section Calls

variable {pool : Pool α} {p : Nat} {gs : List Guard} {written : Nat → Option α}

theorem stateOf_changed (pool : Pool α) {idx : Nat} (sh : Shard α) (d : Disk α) {q : Nat}
    (hq : shardIdx q = idx) :
    Pool.stateOf { pool.setShard idx sh with disk := d } q = sh.stateOf d q := by
  subst hq
  unfold Pool.stateOf Pool.shard Pool.setShard
  simp only [Function.update_self]

theorem stateOf_elsewhere (pool : Pool α) {idx : Nat} (sh : Shard α) (d : Disk α) {q : Nat}
    (hq : shardIdx q ≠ idx) :
    Pool.stateOf { pool.setShard idx sh with disk := d } q = (pool.shard q).stateOf d q := by
  unfold Pool.stateOf Pool.shard Pool.setShard
  simp only [Function.update_of_ne hq]

theorem stateOf_flushed (pool : Pool α) {idx : Nat} (sh : Shard α) {d : Disk α} {q : Nat}
    (hd : Flushed idx pool.disk d) (hq : shardIdx q ≠ idx) :
    Pool.stateOf { pool.setShard idx sh with disk := d } q = pool.stateOf q := by
  rw [stateOf_elsewhere pool sh d hq]
  exact PageState.ext (hd.pages q hq) rfl rfl

/-- A frame with the same dirty bit. -/
theorem stateOf_setFrame (sh : Shard α) (d : Disk α) {fid : Nat} {f : Frame α}
    (hf : f.dirty = (sh.frames fid).dirty) (q : Nat) :
    (sh.setFrame fid f).stateOf d q = sh.stateOf d q := by
  refine PageState.ext rfl ?_ rfl
  show (match sh.pageTable q with
    | some i => ((sh.setFrame fid f).frames i).dirty
    | none => false) = sh.isDirty q
  unfold Shard.isDirty
  cases sh.pageTable q with
  | none => rfl
  | some i =>
    by_cases hi : i = fid
    · subst hi
      simp only [ShardInv.setFrame_self]
      exact hf
    · simp only [ShardInv.setFrame_ne sh f hi]

/-- A frame that stands for a page. -/
theorem ShardInv.setFrame_stateOf {cap idx fid : Nat} {sh : Shard α} {d : Disk α}
    (h : ShardInv cap idx sh d gs written) (htab : sh.pageTable p = some fid) (f : Frame α)
    (q : Nat) :
    (sh.setFrame fid f).stateOf d q =
      if q = p then ⟨d.pages q, f.dirty, sh.dpt q⟩ else sh.stateOf d q := by
  by_cases hqp : q = p
  · subst hqp
    rw [if_pos rfl]
    refine PageState.ext rfl ?_ rfl
    show (match sh.pageTable q with
      | some i => ((sh.setFrame fid f).frames i).dirty
      | none => false) = f.dirty
    simp only [htab, setFrame_self]
  · rw [if_neg hqp]
    refine PageState.ext rfl ?_ rfl
    show (match sh.pageTable q with
      | some i => ((sh.setFrame fid f).frames i).dirty
      | none => false) = sh.isDirty q
    unfold Shard.isDirty
    cases hi : sh.pageTable q with
    | none => rfl
    | some i =>
      have hif : i ≠ fid := by
        rintro rfl
        exact hqp (h.frame_inj hi htab)
      simp only [setFrame_ne sh f hif]

theorem fetchPage_settles
    (h : ShardInv pool.perShard (shardIdx p) (pool.shard p) pool.disk gs written) (q : Nat) :
    Settles (written q) (pool.stateOf q) ((pool.fetchPage p).2.stateOf q) := by
  unfold Pool.fetchPage
  simp only
  change ShardInv pool.perShard (shardIdx p) (pool.shards (shardIdx p)) pool.disk gs written at h
  cases htab : (pool.shards (shardIdx p)).pageTable p with
  | some fid =>
    refine Or.inl ?_
    simp only
    by_cases hq : shardIdx q = shardIdx p
    · refine (stateOf_changed pool _ pool.disk hq).trans ?_
      rw [stateOf_setFrame _ _ (by rfl), ← hq]
      rfl
    · exact stateOf_elsewhere pool _ pool.disk hq
  | none =>
    obtain ⟨r, sh', d', hpick, hinv, hkept, hcase⟩ := h.pick
    have hsettle : ∀ sh'', (∀ q, shardIdx q = shardIdx p → sh''.stateOf d' q = sh'.stateOf d' q) →
        Settles (written q) (pool.stateOf q)
          (Pool.stateOf { pool.setShard (shardIdx p) sh'' with disk := d' } q) := by
      intro sh'' hsame
      by_cases hq : shardIdx q = shardIdx p
      · rw [stateOf_changed pool sh'' d' hq, hsame q hq]
        have := h.pick_settles hq
        rw [hpick] at this
        unfold Pool.stateOf Pool.shard
        rw [hq]
        exact this
      · rw [stateOf_flushed pool sh'' hkept.flushed hq]
        exact Settles.refl _ _
    simp only [hpick]
    rcases hcase with ⟨fid, rfl, hspare⟩ | ⟨rfl, -⟩
    · simp only [Disk.read]
      split
      · exact hsettle sh' fun _ _ => rfl
      · rename_i a _
        refine hsettle _ fun q hq => ?_
        rw [install_stateOf hspare hinv q]
        split
        · rename_i hqp
          subst hqp
          refine PageState.ext rfl ?_ rfl
          show false = sh'.isDirty q
          unfold Shard.isDirty
          rw [hkept.absent q htab]
        · rfl
    · exact hsettle sh' fun _ _ => rfl

/-- A page that is not resident gets a frame: what happens to the pages of its shard. -/
theorem installNew_settles (ops : PageOps α) {sh : Shard α} {d : Disk α}
    (h : ShardInv pool.perShard (shardIdx p) sh d gs written) :
    (∀ q, shardIdx q = shardIdx p → q ≠ p →
        Settles (written q) (sh.stateOf d q) ((pool.installNew ops sh d p).2.stateOf q)) ∧
      Renewed (sh.stateOf d p) ((pool.installNew ops sh d p).2.stateOf p) ∧
      ∀ q, shardIdx q ≠ shardIdx p →
        (pool.installNew ops sh d p).2.stateOf q = (pool.shard q).stateOf d q := by
  obtain ⟨r, sh', d', hpick, hinv, hkept, hcase⟩ := h.pick
  have hsettle : ∀ q, shardIdx q = shardIdx p →
      Settles (written q) (sh.stateOf d q) (sh'.stateOf d' q) := by
    intro q hq
    have := h.pick_settles hq
    rwa [hpick] at this
  have helse : ∀ sh'' q, shardIdx q ≠ shardIdx p →
      Pool.stateOf { pool.setShard (shardIdx p) sh'' with disk := d' } q =
        (pool.shard q).stateOf d q := by
    intro sh'' q hq
    rw [stateOf_elsewhere pool sh'' d' hq]
    exact PageState.ext (hkept.flushed.pages q hq) rfl rfl
  unfold Pool.installNew
  simp only [hpick]
  rcases hcase with ⟨fid, rfl, hspare⟩ | ⟨rfl, -⟩
  · simp only
    refine ⟨fun q hq hqp => ?_, ?_, helse _⟩
    · rw [stateOf_changed pool _ d' hq, install_stateOf hspare hinv q, if_neg hqp]
      exact hsettle q hq
    · rw [stateOf_changed pool _ d' rfl, install_stateOf hspare hinv p, if_pos rfl]
      refine (hsettle p rfl).renewed.trans (Or.inr ⟨rfl, Or.inl rfl⟩)
  · simp only
    refine ⟨fun q hq _ => ?_, ?_, helse _⟩
    · rw [stateOf_changed pool _ d' hq]
      exact hsettle q hq
    · rw [stateOf_changed pool _ d' rfl]
      exact (hsettle p rfl).renewed

end Calls

namespace Session.Inv

variable {s : Session α}

theorem fetch_settles (h : s.Inv) (p q : Nat) :
    Settles (s.written q) (s.pool.stateOf q) ((s.pool.fetchPage p).2.stateOf q) :=
  fetchPage_settles (h (shardIdx p)) q

theorem flushPage_settles (h : s.Inv) (p q : Nat) :
    Settles (s.written q) (s.pool.stateOf q) ((s.pool.flushPage p).stateOf q) := by
  unfold Pool.flushPage
  simp only
  cases htab : (s.pool.shards (shardIdx p)).pageTable p with
  | none => exact Settles.refl _ _
  | some fid =>
    obtain ⟨-, hlt, hid⟩ := (h (shardIdx p)).table p fid htab
    simp only
    split
    · obtain ⟨-, hd⟩ := (h (shardIdx p)).writeBack hlt hid (s.pool.shards (shardIdx p)).dpt
      by_cases hq : shardIdx q = shardIdx p
      · rw [stateOf_changed s.pool _ _ hq]
        have := (h (shardIdx p)).writeBack_settles hlt hid hq
        unfold Pool.stateOf Pool.shard
        rw [hq]
        exact this
      · rw [stateOf_flushed s.pool _ hd hq]
        exact Settles.refl _ _
    · exact Settles.refl _ _

theorem flushShards_settles (n : Nat) : ∀ (idx : Nat) (s : Session α), s.Inv → ∀ q,
    Settles (s.written q) (s.pool.stateOf q) ((Pool.flushShards idx n s.pool).stateOf q) := by
  induction n with
  | zero => exact fun idx s _ q => Settles.refl _ _
  | succ n ih =>
    intro idx s h q
    obtain ⟨hinv, hd⟩ := ShardInv.flushFrames s.pool.perShard 0 _ _ (h idx) (by omega)
    refine Settles.trans ?_ (ih (idx + 1) _ (h.inShard hinv hd (fun _ _ => rfl) fun _ _ => rfl) q)
    by_cases hq : shardIdx q = idx
    · rw [stateOf_changed s.pool _ _ hq]
      unfold Pool.stateOf Pool.shard
      rw [hq]
      exact (h idx).flushFrames_settles _ 0 _ _ (by omega) q hq
    · rw [stateOf_flushed s.pool _ hd hq]
      exact Settles.refl _ _

theorem flushAll_settles (h : s.Inv) (q : Nat) :
    Settles (s.written q) (s.pool.stateOf q) (s.pool.flushAll.stateOf q) :=
  flushShards_settles NUM_SHARDS 0 s h q

/-- The page that `new_page` is about to return is not in use. -/
theorem nextPage_unused (h : s.Inv) : s.written s.pool.nextPage = none := by
  unfold Pool.nextPage
  cases hfirst : s.pool.firstRecycled 0 NUM_SHARDS with
  | none =>
    cases hw : s.written s.pool.disk.pageCount with
    | none => rfl
    | some a => exact absurd ((h _).inUse _ a rfl hw).1 (Nat.lt_irrefl _)
  | some found =>
    obtain ⟨idx, p, rest⟩ := found
    have hfree := firstRecycled_some s.pool NUM_SHARDS 0 idx p rest hfirst
    exact ((h idx).recycled p (by rw [hfree]; exact List.mem_cons_self)).2.2

theorem newPage_settles (ops : PageOps α) (h : s.Inv) :
    (∀ q, q ≠ s.pool.nextPage →
        Settles (s.written q) (s.pool.stateOf q) ((s.pool.newPage ops).2.stateOf q)) ∧
      Renewed (s.pool.stateOf s.pool.nextPage)
        ((s.pool.newPage ops).2.stateOf s.pool.nextPage) := by
  have hunused := h.nextPage_unused
  revert hunused
  unfold Pool.newPage Pool.nextPage
  cases hfirst : s.pool.firstRecycled 0 NUM_SHARDS with
  | none =>
    intro _
    simp only
    set p := s.pool.disk.pageCount with hp
    have hinv := (h (shardIdx p)).allocated ops
    obtain ⟨hsame, hnew, helse⟩ :=
      @installNew_settles α { s.pool with disk := (s.pool.disk.allocate ops).2 } p _ _ ops _ _ hinv
    have himage : ∀ q, q ≠ p →
        (s.pool.shard q).stateOf (s.pool.disk.allocate ops).2 q = s.pool.stateOf q :=
      fun q hq => PageState.ext (Function.update_of_ne hq _ _) rfl rfl
    refine ⟨fun q hq => ?_, ?_⟩
    · rw [← himage q hq]
      by_cases hidx : shardIdx q = shardIdx p
      · have := hsame q hidx hq
        rw [Function.update_of_ne hq] at this
        unfold Pool.shard
        rw [hidx]
        exact this
      · exact Or.inl (helse q hidx)
    · exact hnew
  | some found =>
    obtain ⟨idx, p, rest⟩ := found
    intro hnone
    simp only
    have hfree := firstRecycled_some s.pool NUM_SHARDS 0 idx p rest hfirst
    have hidx := ((h idx).recycled p (by rw [hfree]; exact List.mem_cons_self)).1
    subst hidx
    set pool' := s.pool.setShard (shardIdx p) { s.pool.shard p with freeList := rest } with hpool'
    have hpop : Session.Inv ⟨pool', s.guards, s.written⟩ := h.pop hfree
    have hstate : ∀ q, pool'.stateOf q = s.pool.stateOf q := by
      intro q
      by_cases hq : shardIdx q = shardIdx p
      · refine (stateOf_changed s.pool _ s.pool.disk hq).trans ?_
        unfold Pool.stateOf Pool.shard
        rw [hq]
        rfl
      · exact stateOf_elsewhere s.pool _ s.pool.disk hq
    have hsh := hpop (shardIdx p)
    simp only [← hstate]
    show (∀ q, q ≠ p →
        Settles (s.written q) (pool'.stateOf q) ((pool'.installRecycled ops p).2.stateOf q)) ∧
      Renewed (pool'.stateOf p) ((pool'.installRecycled ops p).2.stateOf p)
    unfold Pool.installRecycled
    simp only
    cases htab : (pool'.shard p).pageTable p with
    | none =>
      obtain ⟨hsame, hnew, helse⟩ := installNew_settles ops hsh
      refine ⟨fun q hq => ?_, hnew⟩
      by_cases hidx : shardIdx q = shardIdx p
      · have := hsame q hidx hq
        unfold Pool.stateOf
        rw [Pool.shard, hidx]
        exact this
      · exact Or.inl (helse q hidx)
    | some fid =>
      obtain ⟨-, hfid, hid⟩ := hsh.table p fid htab
      have hpin : ((pool'.shard p).frames fid).pinCount = 0 := by
        by_contra hne
        obtain ⟨g, hg, hgf⟩ := (hsh.pinned_iff hfid).1 (Nat.pos_of_ne_zero hne)
        obtain ⟨hgt, hsome⟩ := hsh.held g hg
        rw [hgf] at hgt
        rw [hsh.frame_inj hgt htab, hnone] at hsome
        cases hsome
      have hev := hsh.stale_evicted hfid hid hpin
      obtain ⟨hsame, hnew, helse⟩ := installNew_settles ops hev
      have hsettle : ∀ q, shardIdx q = shardIdx p →
          Settles (s.written q) (pool'.stateOf q)
            ((evict (pool'.shard p) pool'.disk fid).1.stateOf
              (evict (pool'.shard p) pool'.disk fid).2 q) := by
        intro q hq
        have := hsh.evict_settles hfid hpin hq
        unfold Pool.stateOf
        rw [Pool.shard, hq]
        exact this
      refine ⟨fun q hq => ?_, (hsettle p rfl).renewed.trans hnew⟩
      by_cases hidx : shardIdx q = shardIdx p
      · exact (hsettle q hidx).trans (hsame q hidx hq)
      · refine Or.inl ((helse q hidx).trans ?_)
        exact PageState.ext (evict_disk hsh hfid q (Or.inl hidx)) rfl rfl

theorem write_stateOf (pool : Pool α) (g : Guard) (page : α) (q : Nat) :
    (pool.writeGuard g page).stateOf q = pool.stateOf q := by
  by_cases hq : shardIdx q = shardIdx g.pageId
  · refine (stateOf_changed pool _ pool.disk hq).trans ?_
    rw [stateOf_setFrame _ _ (by rfl), ← hq]
    rfl
  · exact stateOf_elsewhere pool _ pool.disk hq

theorem recycle_stateOf (pool : Pool α) (p q : Nat) :
    (pool.recyclePage p).stateOf q = pool.stateOf q := by
  by_cases hq : shardIdx q = shardIdx p
  · refine (stateOf_changed pool _ pool.disk hq).trans ?_
    unfold Pool.stateOf Pool.shard
    rw [hq]
    rfl
  · exact stateOf_elsewhere pool _ pool.disk hq

/-- A dropped guard marks its page dirty, with an entry if it was clean. -/
theorem release_stateOf (ops : PageOps α) (h : s.Inv) {g : Guard} (hg : g ∈ s.guards) :
    (∀ q, q ≠ g.pageId → (s.pool.release ops g).stateOf q = s.pool.stateOf q) ∧
      (s.pool.release ops g).stateOf g.pageId =
        if g.mutated ∧ (s.pool.stateOf g.pageId).dirty = false then
          ⟨(s.pool.stateOf g.pageId).image, true,
            some ((s.pool.stateOf g.pageId).entry.getD (ops.pageLsn (s.pool.readGuard g)))⟩
        else s.pool.stateOf g.pageId := by
  have hsh := h (shardIdx g.pageId)
  have hmem : g ∈ guardsOf s.guards (shardIdx g.pageId) := List.mem_filter.2 ⟨hg, by simp⟩
  have htab : (s.pool.shards (shardIdx g.pageId)).pageTable g.pageId = some g.fid :=
    (h.guard_reads hg).1
  have hlt := (hsh.table _ _ htab).2.1
  have hpos := (hsh.pinned_iff hlt).2 ⟨g, hmem, rfl⟩
  have hdirty : (s.pool.stateOf g.pageId).dirty =
      ((s.pool.shards (shardIdx g.pageId)).frames g.fid).dirty := by
    show (match (s.pool.shards (shardIdx g.pageId)).pageTable g.pageId with
      | some i => ((s.pool.shards (shardIdx g.pageId)).frames i).dirty
      | none => false) = _
    simp only [htab]
  unfold Pool.release
  simp only
  rw [if_neg (Nat.ne_of_gt hpos)]
  refine ⟨fun q hq => ?_, ?_⟩
  · by_cases hidx : shardIdx q = shardIdx g.pageId
    · refine (stateOf_changed s.pool _ s.pool.disk hidx).trans ?_
      have hbit := congrArg PageState.dirty (hsh.setFrame_stateOf htab
        { (s.pool.shards (shardIdx g.pageId)).frames g.fid with
          dirty := ((s.pool.shards (shardIdx g.pageId)).frames g.fid).dirty || g.mutated
          pinCount := ((s.pool.shards (shardIdx g.pageId)).frames g.fid).pinCount - 1 } q)
      rw [if_neg hq] at hbit
      unfold Pool.stateOf Pool.shard
      rw [hidx]
      refine PageState.ext rfl hbit ?_
      simp only [Shard.stateOf]
      split
      · exact Function.update_of_ne hq _ _
      · rfl
    · exact stateOf_elsewhere s.pool _ s.pool.disk hidx
  · refine (stateOf_changed s.pool _ s.pool.disk rfl).trans ?_
    have hbit := congrArg PageState.dirty (hsh.setFrame_stateOf htab
      { (s.pool.shards (shardIdx g.pageId)).frames g.fid with
        dirty := ((s.pool.shards (shardIdx g.pageId)).frames g.fid).dirty || g.mutated
        pinCount := ((s.pool.shards (shardIdx g.pageId)).frames g.fid).pinCount - 1 } g.pageId)
    rw [if_pos rfl] at hbit
    rw [hdirty]
    split
    · rename_i hmut
      refine PageState.ext rfl (hbit.trans ?_) ?_
      · simp [hmut.1]
      · simp only [Shard.stateOf, Function.update_self]
        rfl
    · rename_i hmut
      refine PageState.ext rfl (hbit.trans ?_) ?_
      · rw [hdirty]
        cases hm : g.mutated
        · simp
        · cases hd : ((s.pool.shards (shardIdx g.pageId)).frames g.fid).dirty
          · exact absurd ⟨hm, hd⟩ hmut
          · rfl
      · simp only [Shard.stateOf]
        rfl

end Session.Inv

end Ccdb.FramePool
