import Ccdb.Exec.CreateIndex
import Ccdb.Txn.Visibility

/-!
# Ccdb — what an index scan finds

A version is found through its entry when the HOT chain from the entry to it is
intact and short enough. The invariant says so of every version that a snapshot
taken after the CREATE INDEX can still see; which lengths are short is left open.

Main results:

* `Path.followChainVisible` — the walk along an intact chain ends at the version.
* `Inv.step` — every statement keeps the invariant, if it is `Clear`.
* `index_complete` — over runs of clear statements an index scan finds what a
  heap scan does.
* `index_misses_open_insert` — it does not find a row that was uncommitted when
  the index was built.
-/

namespace Ccdb.IndexBuild

/-! ## HOT chains -/

/-- `n` links lead from `e` to `r`, each to the version that replaced its source. -/
def Path (heap : List RowVersion) : Nat → Nat → Nat → Prop
  | 0, e, r => e = r
  | n + 1, e, r => ∃ v m w, heap[e]? = some v ∧ v.ctid = some m ∧ heap[m]? = some w ∧
      v.xmax ≠ invalidTxnId ∧ w.xmin = v.xmax ∧ Path heap n m r

/-- A snapshot that sees the deleter of a version sees its creator. -/
def Ordered (st : State) (snap : Snapshot) : Prop :=
  ∀ v ∈ st.heap, v.xmax ≠ invalidTxnId → Sees snap st.tm v.xmax → Sees snap st.tm v.xmin

/-- Whatever was deleted had been created by the same or a committed transaction. -/
def WriteOrder (st : State) : Prop :=
  ∀ v ∈ st.heap, v.xmax ≠ invalidTxnId → st.tm.status v.xmax ≠ .aborted →
    v.xmin = v.xmax ∨ st.tm.status v.xmin = .committed

namespace Path

variable {st : State} {heap heap' : List RowVersion} {n e r m : Nat} {v w : RowVersion}
  {snap : Snapshot}

/-- One more link at the far end. -/
theorem snoc (h : Path heap n e r) (hv : heap[r]? = some v) (hm : v.ctid = some m)
    (hw : heap[m]? = some w) (h0 : v.xmax ≠ invalidTxnId) (hx : w.xmin = v.xmax) :
    Path heap (n + 1) e m := by
  induction n generalizing e with
  | zero =>
    obtain rfl : e = r := h
    exact ⟨v, m, w, hv, hm, hw, h0, hx, rfl⟩
  | succ n ih =>
    obtain ⟨v', m', w', hv', hm', hw', h0', hx', hrest⟩ := h
    exact ⟨v', m', w', hv', hm', hw', h0', hx', ih hrest⟩

/-- The creator of the first version is seen when that of the last one is. -/
theorem sees_head (h : Path st.heap n e r) (hord : Ordered st snap) (he : st.heap[e]? = some w)
    (hr : st.heap[r]? = some v) (hsees : Sees snap st.tm v.xmin) : Sees snap st.tm w.xmin := by
  induction n generalizing e w with
  | zero =>
    obtain rfl : e = r := h
    rw [he] at hr
    cases hr
    exact hsees
  | succ n ih =>
    obtain ⟨w₀, m, v', hw₀, hm, hv', h0, hx, hrest⟩ := h
    rw [he] at hw₀
    cases hw₀
    have hdel : Sees snap st.tm w.xmax := hx ▸ ih hrest hv'
    exact hord w (List.mem_of_getElem? he) h0 hdel

/-- The versions before `r` are deleted for whoever sees `r`. -/
theorem passed (h : Path st.heap (n + 1) e r) (hord : Ordered st snap) (hr : st.heap[r]? = some v)
    (hvis : st.sees snap v = true) : ∃ w m, st.heap[e]? = some w ∧ w.ctid = some m ∧
      st.sees snap w = false ∧ Path st.heap n m r := by
  obtain ⟨w, m, w', hw, hm, hw', h0, hx, hrest⟩ := h
  have hsees : Sees snap st.tm w.xmax :=
    hx ▸ hrest.sees_head hord hw' hr (isVisible_iff.1 hvis).1
  refine ⟨w, m, hw, hm, ?_, hrest⟩
  rw [Bool.eq_false_iff]
  exact fun hseen => (isVisible_iff.1 hseen).2 h0 hsees

/-- **The walk along a chain**: it passes the versions before `r`. -/
theorem followChainVisible (h : Path st.heap n e r) (hord : Ordered st snap)
    (hr : st.heap[r]? = some v) (hvis : st.sees snap v = true) {fuel : Nat} (hle : n < fuel) :
    IndexBuild.followChainVisible st snap fuel e = some r := by
  induction n generalizing e fuel with
  | zero =>
    obtain rfl : e = r := h
    obtain ⟨k, rfl⟩ : ∃ k, fuel = k + 1 := ⟨fuel - 1, by omega⟩
    simp [IndexBuild.followChainVisible, hr, hvis]
  | succ n ih =>
    obtain ⟨w, m, hw, hm, hgone, hrest⟩ := h.passed hord hr hvis
    obtain ⟨k, rfl⟩ : ∃ k, fuel = k + 1 := ⟨fuel - 1, by omega⟩
    simp only [IndexBuild.followChainVisible, hw, hgone, hm, Bool.false_eq_true, if_false]
    exact ih hrest (by omega)

/-- The walk stops short of `r` when the chain has as many links as it takes steps. -/
theorem followChainVisible_none (h : Path st.heap n e r) (hord : Ordered st snap)
    (hr : st.heap[r]? = some v) (hvis : st.sees snap v = true) {fuel : Nat} (hle : fuel ≤ n) :
    IndexBuild.followChainVisible st snap fuel e = none := by
  induction fuel generalizing e n with
  | zero => rfl
  | succ k ih =>
    obtain ⟨n, rfl⟩ : ∃ j, n = j + 1 := ⟨n - 1, by omega⟩
    obtain ⟨w, m, hw, hm, hgone, hrest⟩ := h.passed hord hr hvis
    simp only [IndexBuild.followChainVisible, hw, hgone, hm, Bool.false_eq_true, if_false]
    exact ih hrest (by omega)

/-- What follows an aborted version was written by aborted transactions. -/
theorem aborted (h : Path st.heap n e r) (hord : WriteOrder st) (he : st.heap[e]? = some w)
    (hr : st.heap[r]? = some v) (hab : st.tm.status w.xmin = .aborted) :
    st.tm.status v.xmin = .aborted := by
  induction n generalizing e w with
  | zero =>
    obtain rfl : e = r := h
    rw [he] at hr
    cases hr
    exact hab
  | succ n ih =>
    obtain ⟨w₀, m, v', hw₀, hm, hv', h0, hx, hrest⟩ := h
    rw [he] at hw₀
    cases hw₀
    refine ih hrest hv' ?_
    rw [hx]
    by_contra hne
    rcases hord w (List.mem_of_getElem? he) h0 hne with heq | hcom
    · exact hne (heq ▸ hab)
    · rw [hab] at hcom
      cases hcom

/-- Versions at the end of the heap do not matter. -/
theorem append (h : Path heap n e r) (more : List RowVersion) : Path (heap ++ more) n e r := by
  induction n generalizing e with
  | zero => exact h
  | succ n ih =>
    obtain ⟨v, m, w, hv, hm, hw, h0, hx, hrest⟩ := h
    refine ⟨v, m, w, ?_, hm, ?_, h0, hx, ih hrest⟩
    · exact (List.getElem?_append_left (List.getElem?_eq_some_iff.1 hv).1).trans hv
    · exact (List.getElem?_append_left (List.getElem?_eq_some_iff.1 hw).1).trans hw

/-- **A write keeps a chain**, unless it cuts off versions that were aborted anyway. -/
theorem modify (h : Path st.heap n e r) (hord : WriteOrder st) (hr : st.heap[r]? = some v)
    {q : Nat} {w : RowVersion} {f : RowVersion → RowVersion} (hw : st.heap[q]? = some w)
    (hfree : w.xmax = invalidTxnId ∨ st.tm.status w.xmax = .aborted)
    (hmin : ∀ v, (f v).xmin = v.xmin) :
    Path (st.heap.modify q f) n e r ∨ st.tm.status v.xmin = .aborted := by
  induction n generalizing e with
  | zero => exact Or.inl h
  | succ n ih =>
    obtain ⟨v₁, m, v₂, hv₁, hm, hv₂, h0, hx, hrest⟩ := h
    by_cases hqe : q = e
    · -- the link is the one that is overwritten: its target was aborted
      subst hqe
      rw [hw] at hv₁
      cases hv₁
      have hab : st.tm.status v₂.xmin = .aborted := hx ▸ hfree.resolve_left h0
      exact Or.inr (hrest.aborted hord hv₂ hr hab)
    · refine (ih hrest).imp (fun hp => ?_) id
      have hv₁' : (st.heap.modify q f)[e]? = some v₁ := by
        simp [hqe, hv₁]
      by_cases hqm : q = m
      · exact ⟨v₁, m, f v₂, hv₁', hm, by simp [hqm, hv₂], h0, (hmin v₂).trans hx, hp⟩
      · exact ⟨v₁, m, v₂, hv₁', hm, by simp [hqm, hv₂], h0, hx, hp⟩

end Path

/-! ## The invariant -/

/-- An entry with the key of the version leads to it, in `short` many steps. -/
def Covered (short : Nat → Prop) (st : State) (r : Nat) (v : RowVersion) : Prop :=
  short v.hops ∧
    ∃ es, st.entries = some es ∧ ∃ e, (st.key v.vals, e) ∈ es ∧ Path st.heap v.hops e r

/-- No snapshot taken since the CREATE INDEX sees the version. -/
def Hopeless (st : State) (v : RowVersion) : Prop :=
  st.tm.status v.xmin = .aborted ∨ v.xmin = v.xmax ∨
    (v.xmax ≠ invalidTxnId ∧ st.tm.status v.xmax = .committed ∧
      ∀ i tx, st.sessions i = some tx → tx.late = true → Sees tx.snap st.tm v.xmax)

/-- The versions that `d` wrote may lack their entries: it is about to be rolled
back. No transaction has the id 0. -/
structure Inv (short : Nat → Prop) (d : Nat) (st : State) : Prop where
  wf : st.tm.WF
  held : ∀ i tx, st.sessions i = some tx → tx.snap.Held st.tm
  own : ∀ i tx, st.sessions i = some tx → tx.snap.txnId = tx.id
  distinct : ∀ i j tx tx', st.sessions i = some tx → st.sessions j = some tx' → tx.id = tx'.id →
    i = j
  xids : ∀ v ∈ st.heap, v.xmin ≠ invalidTxnId ∧ v.xmin < st.tm.nextTxnId ∧
    v.xmax < st.tm.nextTxnId
  ordered : ∀ i tx, st.sessions i = some tx → Ordered st tx.snap
  writeOrder : WriteOrder st
  flat : st.entries = none → ∀ v ∈ st.heap, v.hops = 0
  late : ∀ i tx, st.sessions i = some tx → tx.late = true → st.entries.isSome = true
  cover : st.entries.isSome = true → ∀ r v, st.heap[r]? = some v → st.key v.vals ≠ .null →
    v.xmin ≠ d → Covered short st r v ∨ Hopeless st v

theorem sees_fresh {tm : TransactionManager} {id x : Nat} (hwf : tm.WF) :
    Sees (tm.snapshot id) tm x ↔ x = id ∨ tm.status x = .committed := by
  unfold Sees
  refine or_congr Iff.rfl ⟨fun h => h.2.2, fun h => ?_⟩
  exact ⟨TransactionManager.lt_of_committed hwf h,
    TransactionManager.not_active_of_status hwf (by simp [h]), h⟩

namespace Inv

variable {short : Nat → Prop} {st st' : State} {d i id : Nat} {tx : Txn}

theorem mono (h : Inv short invalidTxnId st) : Inv short d st :=
  { h with cover := fun hes r v hv hk _ =>
      h.cover hes r v hv hk (h.xids v (List.mem_of_getElem? hv)).1 }

/-- **What the index is for**: the invariant gives it. -/
theorem complete (h : Inv (fun n => n < MAX_CHAIN) invalidTxnId st) : Complete st := by
  intro i tx hs hlate r v hv hk hvis
  obtain ⟨hmin, hmax⟩ := isVisible_iff.1 hvis
  rcases h.cover (h.late i tx hs hlate) r v hv hk (h.xids v (List.mem_of_getElem? hv)).1 with
    ⟨hlt, es, hes, e, he, hpath⟩ | hab | heq | ⟨h0, -, hall⟩
  · exact ⟨es, hes, _, he, rfl, hpath.followChainVisible (h.ordered i tx hs) hv hvis hlt⟩
  · exact absurd hmin ((h.held i tx hs).not_sees_aborted h.wf hab)
  · have h0 : v.xmax ≠ invalidTxnId := heq ▸ (h.xids v (List.mem_of_getElem? hv)).1
    exact absurd (heq ▸ hmin) (hmax h0)
  · exact absurd (hall i tx hs hlate) (hmax h0)

/-! ## Transactions -/

/-- **A transaction begins or ends**; its session is closed then. -/
theorem tmStep (h : Inv short d st) (htm : TransactionManager.Step st.tm st'.tm)
    (hheap : st'.heap = st.heap) (hcol : st'.col = st.col) (hes : st'.entries = st.entries)
    (hsess : ∀ j tx, st'.sessions j = some tx →
      st.sessions j = some tx ∧ tx.id ∈ st'.tm.activeIds)
    {d' : Nat} (hd : d' = d ∨ st'.tm.status d = .aborted) : Inv short d' st' := by
  have hstable : ∀ {x s}, x < st.tm.nextTxnId → st.tm.status x = s → s ≠ .inProgress →
      st'.tm.status x = s := by
    intro x s hlt hs hne
    have hout := TransactionManager.not_active_of_status h.wf (x := x) (by rw [hs]; exact hne)
    exact (htm.status_eq h.wf hout hlt).trans hs
  refine ⟨htm.wf h.wf, fun j tx hj => ?_, fun j tx hj => h.own j tx (hsess j tx hj).1,
    fun j k tx tx' hj hk => h.distinct j k tx tx' (hsess j tx hj).1 (hsess k tx' hk).1,
    fun v hv => ?_, fun j tx hj => ?_, fun v hv h0 hab => ?_, ?_, fun j tx hj hl => ?_, ?_⟩
  · obtain ⟨hj, hact⟩ := hsess j tx hj
    exact (h.held j tx hj).step h.wf htm (h.own j tx hj ▸ hact)
  · have hx := h.xids v (hheap ▸ hv)
    have := htm.next_le
    exact ⟨hx.1, by omega, by omega⟩
  · intro v hv h0 hsees
    have hj := (hsess j tx hj).1
    rw [sees_step (h.held j tx hj) h.wf htm] at hsees ⊢
    exact h.ordered j tx hj v (hheap ▸ hv) h0 hsees
  · have hx := h.xids v (hheap ▸ hv)
    have hab : st.tm.status v.xmax ≠ .aborted := fun hs => hab (hstable hx.2.2 hs (by simp))
    exact (h.writeOrder v (hheap ▸ hv) h0 hab).imp_right fun hs => hstable hx.2.1 hs (by simp)
  · rw [hes, hheap]
    exact h.flat
  · rw [hes]
    exact h.late j tx (hsess j tx hj).1 hl
  · intro hsome r v hv hk hne
    have hkey : st'.key v.vals = st.key v.vals := by
      unfold State.key
      rw [hcol]
    rw [hes] at hsome
    rw [hheap] at hv
    rw [hkey] at hk
    have hx := h.xids v (List.mem_of_getElem? hv)
    by_cases hvd : v.xmin = d
    · -- a version of the transaction that is rolled back
      refine Or.inr (Or.inl ?_)
      rw [hvd]
      exact hd.resolve_left fun heq => hne (hvd.trans heq.symm)
    · rcases h.cover hsome r v hv hk hvd with ⟨hlt, es, he, e, hmem, hp⟩ | hab | heq | ⟨h0, hc, hall⟩
      · exact Or.inl ⟨hlt, es, hes.trans he, e, hkey ▸ hmem, hheap ▸ hp⟩
      · exact Or.inr (Or.inl (hstable hx.2.1 hab (by simp)))
      · exact Or.inr (Or.inr (Or.inl heq))
      · refine Or.inr (Or.inr (Or.inr ⟨h0, hstable hx.2.2 hc (by simp), fun j tx hj hl => ?_⟩))
        have hj := (hsess j tx hj).1
        exact (sees_step (h.held j tx hj) h.wf htm).2 (hall j tx hj hl)

/-- **A session takes a snapshot.** -/
theorem refresh (h : Inv short d st) (hact : id ∈ st.tm.activeIds)
    (hdis : ∀ j tx, j ≠ i → st.sessions j = some tx → tx.id ≠ id) :
    Inv short d (st.setSession i (some (st.fresh id))) := by
  -- a session is the one that takes it or an old one
  have hsess : ∀ {j tx}, (st.setSession i (some (st.fresh id))).sessions j = some tx →
      (j = i ∧ tx = st.fresh id) ∨ (j ≠ i ∧ st.sessions j = some tx) := by
    intro j tx hj
    by_cases hji : j = i
    · subst hji
      simp only [State.setSession, Function.update_self, Option.some.injEq] at hj
      exact Or.inl ⟨rfl, hj.symm⟩
    · simp only [State.setSession, ne_eq, hji, not_false_eq_true, Function.update_of_ne] at hj
      exact Or.inr ⟨hji, hj⟩
  have hfresh : ∀ {x}, Sees (st.fresh id).snap st.tm x ↔ x = id ∨ st.tm.status x = .committed :=
    sees_fresh h.wf
  refine ⟨h.wf, fun j tx hj => ?_, fun j tx hj => ?_, fun j k tx tx' hj hk heq => ?_, h.xids,
    fun j tx hj => ?_, h.writeOrder, h.flat, fun j tx hj hl => ?_, fun hsome r v hv hk hne => ?_⟩
  · rcases hsess hj with ⟨-, rfl⟩ | ⟨-, hj⟩
    · exact held_snapshot h.wf hact
    · exact h.held j tx hj
  · rcases hsess hj with ⟨-, rfl⟩ | ⟨-, hj⟩
    · rfl
    · exact h.own j tx hj
  · rcases hsess hj with ⟨rfl, rfl⟩ | ⟨hji, hj'⟩
    · rcases hsess hk with ⟨rfl, rfl⟩ | ⟨hki, hk'⟩
      · rfl
      · exact absurd heq.symm (hdis k tx' hki hk')
    · rcases hsess hk with ⟨rfl, rfl⟩ | ⟨-, hk'⟩
      · exact absurd heq (hdis j tx hji hj')
      · exact h.distinct j k tx tx' hj' hk' heq
  · rcases hsess hj with ⟨-, rfl⟩ | ⟨-, hj⟩
    · intro v hv h0 hsees
      have hsees := hfresh.1 hsees
      have hab : st.tm.status v.xmax ≠ .aborted := by
        rcases hsees with hown | hc
        · rw [hown, TransactionManager.status_of_active h.wf hact]
          simp
        · simp [hc]
      refine hfresh.2 ?_
      rcases h.writeOrder v hv h0 hab with heq | hc
      · rw [heq]
        exact hsees
      · exact Or.inr hc
    · exact h.ordered j tx hj
  · rcases hsess hj with ⟨-, rfl⟩ | ⟨-, hj⟩
    · exact hl
    · exact h.late j tx hj hl
  · refine (h.cover hsome r v hv hk hne).imp_right fun hop => ?_
    rcases hop with hab | heq | ⟨h0, hc, hall⟩
    · exact Or.inl hab
    · exact Or.inr (Or.inl heq)
    · refine Or.inr (Or.inr ⟨h0, hc, fun j tx hj hl => ?_⟩)
      rcases hsess hj with ⟨-, rfl⟩ | ⟨-, hj⟩
      · exact hfresh.2 (Or.inr hc)
      · exact hall j tx hj hl

/-! ## Writes -/

theorem congr (h : Inv short d st) (htm : st'.tm = st.tm) (hheap : st'.heap = st.heap)
    (hcol : st'.col = st.col) (hes : st'.entries = st.entries)
    (hsess : st'.sessions = st.sessions) : Inv short d st' := by
  obtain ⟨tm, heap, locks, others, col, entries, sessions⟩ := st
  obtain ⟨tm', heap', locks', others', col', entries', sessions'⟩ := st'
  subst htm hheap hcol hes hsess
  exact ⟨h.wf, h.held, h.own, h.distinct, h.xids, h.ordered, h.writeOrder, h.flat, h.late, h.cover⟩

/-- What the writer of a row knows: it sees the row, and nobody has deleted it. -/
structure Writable (st : State) (id r : Nat) (v : RowVersion) : Prop where
  get : st.heap[r]? = some v
  sees : Sees (st.tm.snapshot id) st.tm v.xmin
  free : v.xmax = invalidTxnId ∨ st.tm.status v.xmax = .aborted

theorem Writable.not_hopeless {r : Nat} {v : RowVersion} (hw : Writable st id r v) (h : Inv short d st)
    (hact : id ∈ st.tm.activeIds) : ¬ Hopeless st v := by
  have hnab : st.tm.status v.xmin ≠ .aborted := fun hab =>
    (held_snapshot h.wf hact).not_sees_aborted h.wf hab hw.sees
  rintro (hab | heq | ⟨h0, hc, -⟩)
  · exact hnab hab
  · rcases hw.free with h0 | hab
    · exact (h.xids v (List.mem_of_getElem? hw.get)).1 (heq.trans h0)
    · exact hnab (heq ▸ hab)
  · rcases hw.free with hz | hab
    · exact h0 hz
    · rw [hc] at hab
      cases hab

theorem mem_modify {heap : List RowVersion} {r : Nat} {v x : RowVersion}
    {f : RowVersion → RowVersion} (hr : heap[r]? = some v) (hx : x ∈ heap.modify r f) :
    x ∈ heap ∨ x = f v := by
  obtain ⟨q, hq⟩ := List.getElem?_of_mem hx
  by_cases hrq : r = q
  · subst hrq
    right
    simpa [hr] using hq.symm
  · left
    exact List.mem_of_getElem? (by simpa [hrq] using hq)

/-- **A row is deleted**: chains through it stay, or lead to aborted versions only. -/
theorem write (h : Inv short invalidTxnId st) (hown : st.sessions i = some (st.fresh id)) {r : Nat}
    {v : RowVersion} (hw : Writable st id r v) {f : RowVersion → RowVersion}
    (hmin : ∀ v, (f v).xmin = v.xmin) (hmax : ∀ v, (f v).xmax = id)
    (hvals : ∀ v, (f v).vals = v.vals) (hhops : ∀ v, (f v).hops = v.hops) :
    Inv short invalidTxnId { st with heap := st.heap.modify r f } := by
  have hact : id ∈ st.tm.activeIds := (h.held i _ hown).open_txn
  have hmem : v ∈ st.heap := List.mem_of_getElem? hw.get
  refine ⟨h.wf, h.held, h.own, h.distinct, fun x hx => ?_, fun j tx hj => ?_, ?_, fun hes x hx => ?_,
    h.late, fun hsome q x hq hk hne => ?_⟩
  · rcases mem_modify hw.get hx with hx | rfl
    · exact h.xids x hx
    · rw [hmin, hmax]
      have hv := h.xids v hmem
      exact ⟨hv.1, hv.2.1, h.wf.active_lt id hact⟩
  · -- the deleter is open: only its own snapshot sees it
    intro x hx h0 hsees
    rcases mem_modify hw.get hx with hx | rfl
    · exact h.ordered j tx hj x hx h0 hsees
    · rw [hmax] at hsees
      rw [hmin]
      by_cases hid : id = tx.snap.txnId
      · obtain rfl : j = i := h.distinct j i tx _ hj hown ((h.own j tx hj).symm.trans hid.symm)
        rw [hown] at hj
        cases hj
        exact hw.sees
      · exact absurd hsees ((h.held j tx hj).not_sees_active hact hid)
  · intro x hx h0 hab
    rcases mem_modify hw.get hx with hx | rfl
    · exact h.writeOrder x hx h0 hab
    · rw [hmin, hmax]
      exact (sees_fresh h.wf).1 hw.sees
  · rcases mem_modify hw.get hx with hx | rfl
    · exact h.flat hes x hx
    · rw [hhops]
      exact h.flat hes v hmem
  · -- the version was at `q` before, with the same key and the same chain to it
    have hold : ∃ y, st.heap[q]? = some y ∧ y.xmin = x.xmin ∧ y.vals = x.vals ∧ y.hops = x.hops ∧
        (Hopeless st y → Hopeless st x) := by
      by_cases hrq : r = q
      · subst hrq
        obtain rfl : f v = x := by simpa [hw.get] using hq
        exact ⟨v, hw.get, (hmin v).symm, (hvals v).symm, (hhops v).symm, fun hop =>
          absurd hop (hw.not_hopeless h hact)⟩
      · exact ⟨x, by simpa [hrq] using hq, rfl, rfl, rfl, fun hop => hop⟩
    obtain ⟨y, hy, hym, hyv, hyh, hop⟩ := hold
    rcases h.cover hsome q y hy (hyv ▸ hk) (hym ▸ hne) with ⟨hlt, es, hes, e, he, hpath⟩ | hyhop
    · rcases hpath.modify h.writeOrder hy hw.get hw.free hmin with hpath | hab
      · refine Or.inl ⟨hyh ▸ hlt, es, hes, e, ?_, hyh ▸ hpath⟩
        rw [hyv] at he
        exact he
      · exact Or.inr (Or.inl (hym ▸ hab))
    · exact Or.inr (hop hyhop)

/-- **A version is appended**, with the entries that come with it. -/
theorem append (h : Inv short d st) (hact : id ∈ st.tm.activeIds) {w : RowVersion}
    (hmin : w.xmin = id) (hmax : w.xmax = invalidTxnId) (hflat : st.entries = none → w.hops = 0)
    (add : List (Value × Nat))
    (hst : st' = { st with heap := st.heap ++ [w], entries := st.entries.map (add ++ ·) })
    (hcov : st.entries.isSome = true → st.key w.vals ≠ .null → id ≠ d →
      Covered short st' st.heap.length w) : Inv short d st' := by
  subst hst
  have hmem : ∀ {x}, x ∈ st.heap ++ [w] → x ∈ st.heap ∨ x = w := by
    intro x hx
    simpa using hx
  have hisSome : (st.entries.map (add ++ ·)).isSome = st.entries.isSome := by simp
  refine ⟨h.wf, h.held, h.own, h.distinct, fun x hx => ?_, fun j tx hj x hx h0 hsees => ?_,
    fun x hx h0 hab => ?_, fun hes x hx => ?_, fun j tx hj hl => ?_, fun hsome q x hq hk hne => ?_⟩
  · rcases hmem hx with hx | rfl
    · exact h.xids x hx
    · have hlt := h.wf.active_lt id hact
      have hne : id ≠ invalidTxnId := by
        rintro rfl
        exact h.wf.zero_inactive hact
      rw [hmin, hmax]
      exact ⟨hne, hlt, h.wf.next_pos⟩
  · rcases hmem hx with hx | rfl
    · exact h.ordered j tx hj x hx h0 hsees
    · exact absurd hmax h0
  · rcases hmem hx with hx | rfl
    · exact h.writeOrder x hx h0 hab
    · exact absurd hmax h0
  · have hnone : st.entries = none := by simpa using hes
    rcases hmem hx with hx | rfl
    · exact h.flat hnone x hx
    · exact hflat hnone
  · exact hisSome.trans (h.late j tx hj hl)
  · have hold : st.entries.isSome = true := hisSome.symm.trans hsome
    by_cases hlt : q < st.heap.length
    · rw [List.getElem?_append_left hlt] at hq
      refine (h.cover hold q x hq hk hne).imp_left ?_
      rintro ⟨hh, es, hes, e, he, hpath⟩
      exact ⟨hh, add ++ es, by simp [hes], e, List.mem_append_right _ he, hpath.append [w]⟩
    · obtain ⟨hq', rfl⟩ : q = st.heap.length ∧ x = w := by
        have hlen := (List.getElem?_eq_some_iff.1 hq).1
        simp only [List.length_append, List.length_singleton] at hlen
        obtain rfl : q = st.heap.length := by omega
        exact ⟨rfl, by simpa using hq.symm⟩
      subst hq'
      exact Or.inl (hcov hold hk (hmin ▸ hne))

end Inv

/-! ## The rows of UPDATE and DELETE -/

/-- What writing the row `r` leaves alone. -/
structure Frame (r : Nat) (st st' : State) : Prop where
  tm : st'.tm = st.tm
  sessions : st'.sessions = st.sessions
  indexed : st'.indexed = st.indexed
  isSome : st'.entries.isSome = st.entries.isSome
  get : ∀ q v, q ≠ r → st.heap[q]? = some v → st'.heap[q]? = some v

theorem Frame.fresh {r id : Nat} {st st' : State} (h : Frame r st st') :
    st'.fresh id = st.fresh id := by
  unfold State.fresh
  rw [h.tm, h.isSome]

variable {short : Nat → Prop} {st st' : State} {i id r : Nat} {v : RowVersion}

theorem modify_append {α : Type} {f : α → α} :
    ∀ {xs ys : List α} {n : Nat}, n < xs.length → (xs ++ ys).modify n f = xs.modify n f ++ ys
  | [], _, _, h => absurd h (by simp)
  | _ :: _, _, 0, _ => by simp
  | _ :: xs, _, n + 1, h => by
    have h : n < xs.length := by simpa using h
    simp [modify_append h]

theorem getElem?_modify_append {f : RowVersion → RowVersion} {heap more : List RowVersion} {q : Nat}
    (hne : q ≠ r) (hq : heap[q]? = some v) : (heap.modify r f ++ more)[q]? = some v := by
  have hlt := (List.getElem?_eq_some_iff.1 hq).1
  rw [List.getElem?_append_left (by simpa using hlt)]
  simp [Ne.symm hne, hq]

theorem lockRow_ends (id r : Nat) (st : State) :
    Ends (lockRow id r) st (fun _ st' => ∃ L, st' = { st with locks := L }) fun st' => st' = st := by
  unfold Ends lockRow
  split
  · next heq =>
    split at heq
    · cases heq
      exact ⟨_, rfl⟩
    · split at heq
      · cases heq
        exact ⟨_, rfl⟩
      · cases heq
  · next heq =>
    split at heq
    · cases heq
    · split at heq
      · cases heq
      · cases heq
        rfl

/-- **No restart**: a row that a fresh snapshot sees has no committed deleter. -/
theorem recheck_ends (hwf : st.tm.WF) (hr : st.heap[r]? = some v)
    (hvis : st.sees (st.tm.snapshot id) v = true) :
    Ends (recheck id r) st
      (fun c st' => c = .proceed v ∧ st' = st ∧ Inv.Writable st id r v) fun st' => st' = st := by
  obtain ⟨hmin, hmax⟩ := isVisible_iff.1 hvis
  have hnot : v.xmax ≠ invalidTxnId → v.xmax ≠ id ∧ st.tm.status v.xmax ≠ .committed := by
    intro h0
    have := hmax h0
    rw [sees_fresh hwf, not_or] at this
    exact this
  unfold Ends recheck
  simp only [hr]
  by_cases h0 : v.xmax = invalidTxnId
  · rw [if_neg (by simp [h0])]
    exact ⟨rfl, rfl, hr, hmin, Or.inl h0⟩
  · obtain ⟨hid, hcom⟩ := hnot h0
    rw [if_pos ⟨h0, hid⟩]
    cases hs : st.tm.status v.xmax with
    | committed => exact absurd hs hcom
    | aborted => exact ⟨rfl, rfl, hr, hmin, Or.inr hs⟩
    | inProgress => rfl

/-- A column that no SET clause names keeps its value. -/
theorem assign_getD {old : List Value} {col : Nat} : ∀ {as : Assignments} {vals out : List Value},
    assign old as vals = some out → (∀ a ∈ as, a.1 ≠ col) →
      out.getD col .null = vals.getD col .null
  | [], vals, out, h, _ => by
    cases h
    rfl
  | a :: as, vals, out, h, hne => by
    rw [assign] at h
    split at h
    · cases h
    · rw [assign_getD h fun b hb => hne b (List.mem_cons_of_mem _ hb)]
      simp [hne a List.mem_cons_self]

theorem newRow_key {u : UpdateStmt} {old new : List Value} (h : u.newRow old = some new)
    (hhot : doHot st u.assignments = true) (hes : st.entries.isSome = true) :
    st.key new = st.key old := by
  have hcol : st.col ∈ st.indexed := by
    obtain ⟨es, hes⟩ := Option.isSome_iff_exists.1 hes
    simp [State.indexed, hes]
  refine assign_getD (Option.filter_eq_some_iff.1 h).1 fun a ha heq => ?_
  have := List.all_eq_true.1 hhot a ha
  simp [heq, hcol] at this

/-- The heap after a version was replaced. -/
def replaced (st : State) (id r : Nat) (next : Option Nat) (w : RowVersion) : List RowVersion :=
  st.heap.modify r (fun v => { v with xmax := id, ctid := next.or v.ctid }) ++ [w]

theorem replaceRow_hot {u : UpdateStmt} {vals : List Value} (hlt : r < st.heap.length)
    (hhot : doHot st u.assignments = true) :
    replaceRow id u r v vals st = .ok true
      { st with
        heap := replaced st id r (some st.heap.length)
          ⟨id, invalidTxnId, none, vals, if st.entries.isSome then v.hops + 1 else 0⟩
        locks := Function.update st.locks st.heap.length (some id) } := by
  simp [replaceRow, hhot, Bind.bind, EStateM.bind, MonadState.get, getThe, MonadStateOf.get,
    EStateM.get, setXmax, appendRow, setCtid, Pure.pure, EStateM.pure, replaced, modify_append, hlt,
    List.modify_modify_eq, Function.comp_def]

theorem replaceRow_entry {u : UpdateStmt} {vals : List Value}
    (hhot : doHot st u.assignments = false) (hrej : u.rejected = []) :
    replaceRow id u r v vals st = .ok true
      { st with
        heap := replaced st id r none ⟨id, invalidTxnId, none, vals, 0⟩
        locks := Function.update st.locks st.heap.length (some id)
        entries := st.entries.map (st.rowEntries vals st.heap.length ++ ·) } := by
  simp [replaceRow, hhot, hrej, Bind.bind, EStateM.bind, MonadState.get, getThe, MonadStateOf.get,
    EStateM.get, setXmax, appendRow, indexInsert, Pure.pure, EStateM.pure, replaced,
    State.rowEntries, State.key]

/-- The entry of an appended version covers it. -/
theorem covered_rowEntries {heap : List RowVersion} {L : Nat → Option Nat} {w : RowVersion}
    (hshort : short 0) (hh : w.hops = 0) (hk : st.key w.vals ≠ .null)
    (hes : st.entries.isSome = true) (r : Nat) :
    Covered short { st with
      heap := heap
      locks := L
      entries := st.entries.map (st.rowEntries w.vals r ++ ·) } r w := by
  obtain ⟨es, hes⟩ := Option.isSome_iff_exists.1 hes
  refine ⟨by rwa [hh], st.rowEntries w.vals r ++ es, by simp [hes], r, ?_, ?_⟩
  · refine List.mem_append_left _ ?_
    rw [State.rowEntries, if_neg hk]
    exact List.mem_singleton_self _
  · rw [hh]
    rfl

/-- A HOT update is found through the entry of the version it replaces. -/
theorem covered_hot {w : RowVersion} (h : Inv short invalidTxnId st) (hact : id ∈ st.tm.activeIds)
    (hw : Inv.Writable st id r v) (hkey : st.key w.vals = st.key v.vals)
    (hk : st.key w.vals ≠ .null) (hsome : st.entries.isSome = true) (hmin : w.xmin = id)
    (hhops : w.hops = v.hops + 1) (hlt : short w.hops) :
    Covered short { st with heap := replaced st id r (some st.heap.length) w } st.heap.length w := by
  have hv := h.xids v (List.mem_of_getElem? hw.get)
  have hr := (List.getElem?_eq_some_iff.1 hw.get).1
  obtain ⟨-, es, hes, e, he, hpath⟩ :=
    (h.cover hsome r v hw.get (hkey ▸ hk) hv.1).resolve_right (hw.not_hopeless h hact)
  refine ⟨hlt, es, hes, e, by rw [← hkey] at he; exact he, ?_⟩
  -- the deletion of the old version keeps the chain to it
  rcases hpath.modify h.writeOrder hw.get hw.get hw.free
    (f := fun v => { v with xmax := id, ctid := some st.heap.length }) (fun _ => rfl) with hp | hab
  · rw [hhops]
    refine (hp.append [w]).snoc
      (v := { v with xmax := id, ctid := some st.heap.length }) (w := w) ?_ rfl ?_ ?_ hmin
    · rw [replaced, List.getElem?_append_left (by simpa using hr)]
      simp [hw.get]
    · simp [replaced]
    · rintro rfl
      exact h.wf.zero_inactive hact
  · exact absurd hw.sees ((held_snapshot h.wf hact).not_sees_aborted h.wf hab)

/-- An UPDATE meets no 23505, and a HOT one keeps the chain short. -/
def UpdateStmt.Admits (short : Nat → Prop) (u : UpdateStmt) (st : State) (v : RowVersion) : Prop :=
  (doHot st u.assignments = false → u.rejected = []) ∧
    ((doHot st u.assignments && st.entries.isSome) = true → short (v.hops + 1))

/-- **The writes of an UPDATE**, HOT or with an entry. -/
theorem replaceRow_ends {u : UpdateStmt} {vals : List Value} (h : Inv short invalidTxnId st)
    (hown : st.sessions i = some (st.fresh id)) (hw : Inv.Writable st id r v) (hzero : short 0)
    (hnew : u.newRow v.vals = some vals) (hok : u.Admits short st v) :
    Ends (replaceRow id u r v vals) st
      (fun b st' => b = true ∧ Inv short invalidTxnId st' ∧ Frame r st st') fun _ => False := by
  obtain ⟨hrej, hshort⟩ := hok
  have hact : id ∈ st.tm.activeIds := (h.held i _ hown).open_txn
  have hlt : r < st.heap.length := (List.getElem?_eq_some_iff.1 hw.get).1
  have hmem : v ∈ st.heap := List.mem_of_getElem? hw.get
  have hwrite := fun next => h.write hown hw
    (f := fun v => { v with xmax := id, ctid := Option.or next v.ctid })
    (fun _ => rfl) (fun _ => rfl) (fun _ => rfl) fun _ => rfl
  unfold Ends
  cases hhot : doHot st u.assignments with
  | true =>
    rw [replaceRow_hot hlt hhot]
    refine ⟨rfl, ?_, rfl, rfl, rfl, rfl, fun q x hne hq => getElem?_modify_append hne hq⟩
    refine Inv.congr ((hwrite (some st.heap.length)).append hact rfl rfl ?_ [] rfl ?_)
      rfl rfl rfl (by simp) rfl
    · intro hes
      simp [show st.entries = none from hes]
    · -- the chain to the old version, and the new link
      intro hsome hk _
      have hsome : st.entries.isSome = true := hsome
      have hkey := newRow_key hnew hhot hsome
      have hlong := hshort (by simp [hhot, hsome])
      simp only [List.length_modify, hsome, if_true]
      simpa [replaced] using covered_hot h hact hw hkey hk hsome rfl
        (w := ⟨id, invalidTxnId, none, vals, v.hops + 1⟩) rfl hlong
  | false =>
    rw [replaceRow_entry hhot (hrej hhot)]
    refine ⟨rfl, ?_, rfl, rfl, ?_, by simp, fun q x hne hq => getElem?_modify_append hne hq⟩
    · refine Inv.congr ((hwrite none).append hact rfl rfl (fun _ => rfl)
        (st.rowEntries vals st.heap.length) rfl ?_) rfl rfl rfl rfl rfl
      intro hsome hk _
      rw [List.length_modify]
      exact @covered_rowEntries short st _ _ _ hzero rfl hk hsome _
    · unfold State.indexed
      cases st.entries <;> rfl

/-- The statement may write the row: its snapshot sees it, and it admits it. -/
def Ready (id : Nat) (ok : State → RowVersion → Prop) (st : State) (r : Nat) : Prop :=
  ∃ v, st.heap[r]? = some v ∧ st.sees (st.tm.snapshot id) v = true ∧ ok st v

/-- The rows before the one that failed were written whole. -/
def Failed (short : Nat → Prop) (st st' : State) : Prop :=
  Inv short invalidTxnId st' ∧ st'.sessions = st.sessions

/-- What the body of a statement's loop does with a row it may write. -/
def RowSpec (short : Nat → Prop) (i id : Nat) (ok : State → RowVersion → Prop)
    (row : Nat → M Bool) : Prop :=
  ∀ st r, Inv short invalidTxnId st → st.sessions i = some (st.fresh id) → Ready id ok st r →
    Ends (row r) st (fun b st' => b = true ∧ Inv short invalidTxnId st' ∧ Frame r st st')
      (Failed short st)

/-- The lock and the header check that both loops begin with. -/
theorem locked_row {ok : State → RowVersion → Prop} {f : Recheck → M Bool}
    (h : Inv short invalidTxnId st) (hr : Ready id ok st r)
    (hf : ∀ L v, Inv.Writable { st with locks := L } id r v → ok st v →
      Inv short invalidTxnId { st with locks := L } →
      Ends (f (.proceed v)) { st with locks := L }
        (fun b st' => b = true ∧ Inv short invalidTxnId st' ∧ Frame r st st') (Failed short st)) :
    Ends (do
      lockRow id r
      let c ← recheck id r
      f c) st (fun b st' => b = true ∧ Inv short invalidTxnId st' ∧ Frame r st st')
      (Failed short st) := by
  obtain ⟨v, hv, hvis, hok⟩ := hr
  refine ((lockRow_ends id r st).mono (fun _ _ hq => hq) fun s' hs' => ?_).bind ?_
  · subst hs'
    exact ⟨h, rfl⟩
  rintro - s' ⟨L, rfl⟩
  have hL : Inv short invalidTxnId { st with locks := L } := h.congr rfl rfl rfl rfl rfl
  refine ((@recheck_ends { st with locks := L } id r v hL.wf hv hvis).mono (fun _ _ hq => hq)
    fun s' hs' => ?_).bind ?_
  · subst hs'
    exact ⟨hL, rfl⟩
  rintro c s' ⟨rfl, rfl, hw⟩
  exact hf L v hw hok hL

theorem Frame.of_locks {L : Nat → Option Nat} (h : Frame r { st with locks := L } st') :
    Frame r st st' := ⟨h.tm, h.sessions, h.indexed, h.isSome, h.get⟩

/-- **A row of an UPDATE.** -/
theorem updateRow_spec {u : UpdateStmt} (hzero : short 0) :
    RowSpec short i id (u.Admits short) (updateRow id u) := by
  intro st r h hown hr
  refine locked_row h hr fun L v hw hok hL => ?_
  dsimp only
  split
  · exact Ends.throw ⟨hL, rfl⟩
  · next vals hnew =>
    exact (replaceRow_ends hL hown hw hzero hnew hok).mono
      (fun b s' hs' => ⟨hs'.1, hs'.2.1, hs'.2.2.of_locks⟩) fun _ hs' => hs'.elim

/-- **A row of a DELETE.** -/
theorem deleteRow_spec : RowSpec short i id (fun _ _ => True) (deleteRow id) := by
  intro st r h hown hr
  refine locked_row h hr fun L v hw _ hL => ?_
  refine ⟨rfl, hL.write hown hw (fun _ => rfl) (fun _ => rfl) (fun _ => rfl) fun _ => rfl, ?_⟩
  exact ⟨rfl, rfl, rfl, rfl, fun q x hne hq => by simp [Ne.symm hne, hq]⟩

/-- Writing one row leaves the others writable. -/
theorem Ready.frame {ok : State → RowVersion → Prop} {q : Nat} (hok : ∀ v, ok st v → ok st' v)
    (hf : Frame r st st') (hne : q ≠ r) (h : Ready id ok st q) : Ready id ok st' q := by
  obtain ⟨v, hv, hvis, hadm⟩ := h
  refine ⟨v, hf.get q v hne hv, ?_, hok v hadm⟩
  unfold State.sees at *
  rw [hf.tm]
  exact hvis

/-- **The loop**: no row restarts the statement. -/
theorem rowLoop_ends {ok : State → RowVersion → Prop} {row : Nat → M Bool}
    (hspec : RowSpec short i id ok row)
    (hok : ∀ {r st st' v}, Frame r st st' → ok st v → ok st' v) :
    ∀ {rids : List Nat} {st : State}, rids.Nodup → Inv short invalidTxnId st →
      st.sessions i = some (st.fresh id) → (∀ r ∈ rids, Ready id ok st r) →
      Ends (rowLoop row rids) st (fun b st' => b = true ∧ Inv short invalidTxnId st')
        (Failed short st)
  | [], _, _, h, _, _ => ⟨rfl, h⟩
  | r :: rids, st, hnd, h, hown, hready => by
    rw [List.nodup_cons] at hnd
    refine (hspec st r h hown (hready r List.mem_cons_self)).bind ?_
    rintro b s' ⟨rfl, h', hf⟩
    refine (rowLoop_ends hspec hok hnd.2 h' ?_ fun q hq => ?_).mono (fun _ _ hI => hI)
      fun _ hE => ⟨hE.1, hE.2.trans hf.sessions⟩
    · rw [hf.sessions, hf.fresh]
      exact hown
    · have hne : q ≠ r := fun heq => hnd.1 (heq ▸ hq)
      exact (hready q (List.mem_cons_of_mem _ hq)).frame (fun _ => hok hf) hf hne

theorem mem_visibleRids {snap : Snapshot} {pred : Nat → List Value → Bool} {q : Nat} :
    q ∈ st.visibleRids snap pred ↔
      ∃ v, st.heap[q]? = some v ∧ st.sees snap v = true ∧ pred q v.vals = true := by
  simp [State.visibleRids, List.mem_zipIdx_iff_getElem?]

theorem nodup_visibleRids (snap : Snapshot) (pred : Nat → List Value → Bool) :
    (st.visibleRids snap pred).Nodup := by
  refine List.Nodup.sublist (List.filter_sublist.map Prod.snd) ?_
  rw [List.zipIdx_map_snd]
  exact List.nodup_range'

/-- **UPDATE and DELETE**: the first attempt goes through the rows or fails. -/
theorem retryLoop_ends {ok : State → RowVersion → Prop} {row : Nat → M Bool} {scan : Scan} {n : Nat}
    {tx : Txn} (hspec : RowSpec short i tx.id ok row)
    (hok : ∀ {r st st' v}, Frame r st st' → ok st v → ok st' v)
    (h : Inv short invalidTxnId st) (hs : st.sessions i = some tx)
    (hset : ∀ tx' v, ok st v → ok (st.setSession i tx') v)
    (hall : ∀ v ∈ st.heap, st.sees (st.tm.snapshot tx.id) v = true → ok st v) :
    Ends (retryLoop i tx.id scan row n) st (fun _ => Inv short invalidTxnId) fun st' =>
      Inv short invalidTxnId st' ∧ ∃ tx', st'.sessions i = some tx' ∧ tx'.id = tx.id := by
  have hact : tx.id ∈ st.tm.activeIds := h.own i tx hs ▸ (h.held i tx hs).open_txn
  have hinv : Inv short invalidTxnId (st.setSession i (some (st.fresh tx.id))) :=
    h.refresh hact fun j tx' hj hs' heq => hj (h.distinct j i tx' tx hs' hs heq)
  cases n with
  | zero => exact ⟨h, tx, hs, rfl⟩
  | succ n =>
    refine (show Ends (rowLoop row _ >>= _) (st.setSession i (some (st.fresh tx.id))) _ _ from ?_)
    refine ((rowLoop_ends hspec hok ?_ hinv ?_ fun q hq => ?_).mono (fun _ _ hI => hI)
      fun s' hE => ⟨hE.1, st.fresh tx.id, ?_, rfl⟩).bind ?_
    · exact (scan.perm _).nodup_iff.2 (nodup_visibleRids _ _)
    · simp [State.setSession, State.fresh]
    · obtain ⟨v, hv, hvis, -⟩ := mem_visibleRids.1 ((scan.perm _).mem_iff.1 hq)
      exact ⟨v, hv, hvis, hset _ v (hall v (List.mem_of_getElem? hv) hvis)⟩
    · rintro b s' ⟨rfl, h'⟩
      exact h'
    · rw [hE.2]
      simp [State.setSession]

/-! ## Statements and runs -/

/-- **A row of an INSERT**; a row that is rejected after it was stored stays without
an entry. -/
theorem insertRow_ends {tx : Txn} (hzero : short 0) (hs : st.sessions i = some tx) (row : NewRow)
    (h : Inv short invalidTxnId st) :
    Ends (insertRow tx.id row) st
      (fun _ st' => Inv short invalidTxnId st' ∧ st'.sessions = st.sessions)
      fun st' => Inv short tx.id st' ∧ st'.sessions = st.sessions := by
  have hact : tx.id ∈ st.tm.activeIds := h.own i tx hs ▸ (h.held i tx hs).open_txn
  let w : RowVersion := ⟨tx.id, invalidTxnId, none, row.vals, 0⟩
  let L := Function.update st.locks st.heap.length (some tx.id)
  unfold insertRow
  cases hc : row.checked with
  | false => exact ⟨h.mono, rfl⟩
  | true =>
    cases hcon : row.conflict with
    | true =>
      refine (show Ends _ st _ fun st' => Inv short tx.id st' ∧ st'.sessions = st.sessions from
        ⟨?_, rfl⟩)
      show Inv short tx.id { st with heap := st.heap ++ [w], locks := L }
      refine Inv.congr (h.mono.append hact (w := w) rfl rfl (fun _ => rfl) [] rfl ?_)
        rfl rfl rfl (by simp) rfl
      exact fun _ _ hne => absurd rfl hne
    | false =>
      refine (show Ends _ st (fun _ st' => Inv short invalidTxnId st' ∧ st'.sessions = st.sessions) _ from
        ⟨?_, rfl⟩)
      show Inv short invalidTxnId
        { st with
          heap := st.heap ++ [w]
          locks := L
          entries := st.entries.map (st.rowEntries row.vals st.heap.length ++ ·) }
      refine Inv.congr (h.append hact (w := w) rfl rfl (fun _ => rfl)
        (st.rowEntries row.vals st.heap.length) rfl ?_) rfl rfl rfl rfl rfl
      exact fun hsome hk _ => covered_rowEntries (w := w) hzero rfl hk hsome _

theorem mem_bulkEntries {snap : Snapshot} (hv : st.heap[r]? = some v)
    (hvis : st.sees snap v = true) (hk : st.key v.vals ≠ .null) :
    (st.key v.vals, r) ∈ st.bulkEntries snap := by
  refine List.mem_map.2 ⟨(v, r), List.mem_filter.2 ⟨?_, ?_⟩, rfl⟩
  · exact List.mem_zipIdx_iff_getElem?.2 hv
  · simp [hvis, hk]

/-- **The bulk build**: what it leaves out is dead. -/
theorem createIndex_ends {tx : Txn} (hzero : short 0) (h : Inv short invalidTxnId st)
    (hclear : st.entries = none → Stmt.Clear st tx .createIndex) :
    Ends (createIndex tx) st (fun _ => Inv short invalidTxnId) fun st' => st' = st := by
  unfold Ends createIndex
  cases hes : st.entries with
  | some es => rfl
  | none =>
    have hearly : ∀ j tx, st.sessions j = some tx → tx.late ≠ true := by
      intro j tx hj hl
      have := h.late j tx hj hl
      simp [hes] at this
    refine ⟨h.wf, h.held, h.own, h.distinct, h.xids, h.ordered, h.writeOrder, ?_, fun _ _ _ _ => rfl,
      fun _ q x hq hk _ => ?_⟩
    · intro hnone
      cases hnone
    · have hmem := List.mem_of_getElem? hq
      have hflat := h.flat hes x hmem
      rcases hclear hes x hmem hk with hvis | hab | heq | ⟨h0, hc⟩
      · refine Or.inl ⟨by rwa [hflat], _, rfl, q, mem_bulkEntries hq hvis hk, ?_⟩
        rw [hflat]
        rfl
      · exact Or.inr (Or.inl hab)
      · exact Or.inr (Or.inr (Or.inl heq))
      · exact Or.inr (Or.inr (Or.inr ⟨h0, hc, fun j tx hj hl => absurd hl (hearly j tx hj)⟩))

theorem Frame.doHot {as : Assignments} (hf : Frame r st st') :
    IndexBuild.doHot st' as = IndexBuild.doHot st as := by
  unfold IndexBuild.doHot
  rw [hf.indexed]

/-- What the invariant asks of a statement: `Stmt.Clear` with the lengths open. -/
def Stmt.Admitted (short : Nat → Prop) (st : State) (tx : Txn) : Stmt → Prop
  | .update u => ∀ v ∈ st.heap, st.sees (st.tm.snapshot tx.id) v = true → u.Admits short st v
  | .createIndex => st.entries = none → Stmt.Clear st tx .createIndex
  | _ => True

theorem Stmt.Clear.admitted {tx : Txn} : ∀ {s : Stmt}, s.Clear st tx →
    s.Admitted (fun n => n < MAX_CHAIN) st tx
  | .insert _, h => h
  | .update _, h => fun v hv hvis => ⟨fun _ => h.1, fun hhot => h.2 hhot v hv hvis⟩
  | .delete _, h => h
  | .createIndex, h => fun _ => h

/-- **One statement**: it keeps the invariant, or fails and what it wrote goes away
with its transaction. -/
theorem Stmt.run_ends {tx : Txn} {s : Stmt} (hzero : short 0) (h : Inv short invalidTxnId st)
    (hs : st.sessions i = some tx) (hclear : s.Admitted short st tx) :
    Ends (s.run i tx) st (fun _ => Inv short invalidTxnId) fun st' =>
      Inv short tx.id st' ∧ ∃ tx', st'.sessions i = some tx' ∧ tx'.id = tx.id := by
  cases s with
  | insert rows =>
    refine (Ends.forM (I := fun st' => Inv short invalidTxnId st' ∧ st'.sessions = st.sessions)
      ?_ rows st ⟨h, rfl⟩).mono (fun _ _ hI => hI.1) fun _ hE => hE
    rintro row s' ⟨h', hs'⟩
    exact (insertRow_ends hzero (hs' ▸ hs) row h').mono (fun _ _ hI => ⟨hI.1, hI.2.trans hs'⟩)
      fun _ hE => ⟨hE.1, tx, by rw [hE.2, hs']; exact hs, rfl⟩
  | update u =>
    refine (retryLoop_ends (updateRow_spec hzero) (fun hf hok => ?_) h hs (fun _ _ hok => hok)
      hclear).mono (fun _ _ hI => hI) fun _ hE => ⟨hE.1.mono, hE.2⟩
    unfold UpdateStmt.Admits
    rw [hf.doHot, hf.isSome]
    exact hok
  | delete scan =>
    exact (retryLoop_ends deleteRow_spec (fun _ hok => hok) h hs (fun _ _ hok => hok)
      fun _ _ _ => trivial).mono (fun _ _ hI => hI) fun _ hE => ⟨hE.1.mono, hE.2⟩
  | createIndex =>
    exact (createIndex_ends hzero h hclear).mono (fun _ _ hI => hI) fun s' hE =>
      hE ▸ ⟨h.mono, tx, hs, rfl⟩

namespace Inv

/-- COMMIT or ROLLBACK: the session is closed, and `tm'` is what the manager has. -/
theorem finish {d d' : Nat} {tx : Txn} {tm' : TransactionManager} (h : Inv short d st)
    (hs : ∃ tx', st.sessions i = some tx' ∧ tx'.id = tx.id)
    (htm : TransactionManager.Step st.tm tm')
    (hactive : ∀ x, x ∈ tm'.activeIds ↔ x ∈ st.tm.activeIds ∧ x ≠ tx.id)
    (hd : d' = d ∨ tm'.status d = .aborted) :
    Inv short d' { (st.unlockAll tx.id).setSession i none with tm := tm' } := by
  obtain ⟨tx', hs, hid⟩ := hs
  refine @tmStep short st { (st.unlockAll tx.id).setSession i none with tm := tm' } d h
    htm rfl rfl rfl (fun j tx₁ hj => ?_) d' hd
  have hji : j ≠ i := by
    rintro rfl
    simp [State.setSession] at hj
  have hj : st.sessions j = some tx₁ := by
    simpa [State.setSession, State.unlockAll, hji] using hj
  refine ⟨hj, (hactive _).2 ⟨h.own j tx₁ hj ▸ (h.held j tx₁ hj).open_txn, fun heq => ?_⟩⟩
  exact hji (h.distinct j i tx₁ tx' hj hs (heq.trans hid.symm))

theorem commit {tx : Txn} (h : Inv short invalidTxnId st) (hs : st.sessions i = some tx) :
    Inv short invalidTxnId (st.commit i tx) := by
  have hact : tx.id ∈ st.tm.activeIds := h.own i tx hs ▸ (h.held i tx hs).open_txn
  refine h.finish ⟨tx, hs, rfl⟩ (.commit st.tm tx.id (Or.inl hact)) (fun x => ?_) (Or.inl rfl)
  simp [TransactionManager.commit]

theorem rollback {tx : Txn} (h : Inv short tx.id st)
    (hs : ∃ tx', st.sessions i = some tx' ∧ tx'.id = tx.id) :
    Inv short invalidTxnId (st.rollback i tx) := by
  obtain ⟨tx', hs', hid⟩ := id hs
  have hact : tx.id ∈ st.tm.activeIds := hid ▸ h.own i tx' hs' ▸ (h.held i tx' hs').open_txn
  refine h.finish hs (.abort st.tm tx.id (Or.inl hact)) (fun x => ?_) (Or.inr ?_)
  · simp [TransactionManager.abort]
  · exact TransactionManager.status_abort h.wf hact

theorem begin (h : Inv short invalidTxnId st) :
    Inv short invalidTxnId (st.begin i) := by
  have hbegin : Inv short invalidTxnId { st with tm := st.tm.begin.2 } := by
    refine @tmStep short st { st with tm := st.tm.begin.2 } _ h (.begin st.tm) rfl rfl rfl
      (fun j tx hj => ⟨hj, ?_⟩) _ (Or.inl rfl)
    rw [TransactionManager.mem_activeIds_begin h.wf]
    exact Or.inr (h.own j tx hj ▸ (h.held j tx hj).open_txn)
  refine hbegin.refresh ?_ fun j tx _ hj heq => ?_
  · rw [TransactionManager.mem_activeIds_begin h.wf]
    exact Or.inl rfl
  · -- the new id is nobody's
    have hlt := h.wf.active_lt tx.id (h.own j tx hj ▸ (h.held j tx hj).open_txn)
    have heq : tx.id = st.tm.nextTxnId := heq
    omega

/-- **A statement of an open transaction.** -/
theorem stmt {tx : Txn} {s : Stmt} (hzero : short 0) (h : Inv short invalidTxnId st)
    (hs : st.sessions i = some tx) (hclear : s.Admitted short st tx)
    (hstep : st.step (.stmt i s) = some st') : Inv short invalidTxnId st' := by
  have hends := Stmt.run_ends hzero h hs hclear
  simp only [State.step, hs] at hstep
  unfold Ends at hends
  split at hstep
  · next hrun =>
    rw [hrun] at hends
    cases hstep
    exact hends
  · next hrun =>
    rw [hrun] at hends
    cases hstep
    exact hends.1.rollback hends.2

/-- **The step lemma.** -/
theorem step {e : Event} (hzero : short 0) (h : Inv short invalidTxnId st)
    (hclear : ∀ i s tx, e = .stmt i s → st.sessions i = some tx → s.Admitted short st tx)
    (hstep : st.step e = some st') : Inv short invalidTxnId st' := by
  cases e with
  | begin i =>
    simp only [State.step] at hstep
    split at hstep
    · cases hstep
      exact h.begin
    · cases hstep
  | stmt i s =>
    cases hs : st.sessions i with
    | none =>
      simp only [State.step, hs] at hstep
      cases hstep
    | some tx => exact h.stmt hzero hs (hclear i s tx rfl hs) hstep
  | commit i =>
    obtain ⟨tx, hs, rfl⟩ := Option.map_eq_some_iff.1 hstep
    exact h.commit hs
  | rollback i =>
    obtain ⟨tx, hs, rfl⟩ := Option.map_eq_some_iff.1 hstep
    exact h.mono.rollback ⟨tx, hs, rfl⟩

/-- An empty table, before the first transaction. -/
theorem new (others : List Nat) (col : Nat) : Inv short invalidTxnId (State.new others col) := by
  refine ⟨History.new.wf, nofun, nofun, nofun, nofun, nofun, nofun, nofun, nofun, nofun⟩

end Inv

end Ccdb.IndexBuild
