import Ccdb.Exec.IndexFrame
import Ccdb.Recovery.Ledger

/-!
# Ccdb — tables as lists of row versions

Read in chain order, a table is a list of row versions. DML adds versions at
the end, gives versions a deleter and links them (`RowsStep`); VACUUM takes
versions out (`Reclaimed`). `Stored` is what holds of the tables at any time:
the ids on the rows have been handed out, and a page is marked `all_visible`
only while its rows are visible to everyone.

Main results:

* `Write.stored` — a step of DML keeps `Stored` and is a `RowsStep` of each table.
* `writes_dml` — a DML statement, the actions on referencing rows with it, is made of
  such steps.
* `Stored.seqScan_live` — a scan under a fresh snapshot returns the versions whose
  creator is committed and whose deleter is not.
-/

namespace Ccdb

open Relation

/-! ## Versions -/

/-- The row versions on the pages `ps`. -/
def BufferPool.rowsOn (s : BufferPool) (ps : List Nat) : List HeapTuple :=
  ps.flatMap fun p => (s.pages p).rows

/-- The pages the heap files of a database start at. -/
def heapFiles (tables : List TableDef) : List Nat :=
  PG_INDEX_PAGE_ID :: tables.map TableDef.firstPageId

/-- One step of a transaction `id` on the versions of a table; `rep` says which
deleters it may overwrite. -/
inductive RowsStep (id : Nat) (rep : Nat → Prop) : List HeapTuple → List HeapTuple → Prop
  | same (rows : List HeapTuple) : RowsStep id rep rows rows
  | insert (rows : List HeapTuple) (values : List Value) :
      RowsStep id rep rows (rows ++ [.mk' id invalidTxnId values])
  | delete (front back : List HeapTuple) (t : HeapTuple) (h : rep t.xmax) :
      RowsStep id rep (front ++ t :: back) (front ++ { t with xmax := id } :: back)
  | forward (front back : List HeapTuple) (t : HeapTuple) (ctid : Rid) :
      RowsStep id rep (front ++ t :: back) (front ++ { t with ctid := ctid } :: back)

/-- A version everyone sees. -/
def Settled (tm : TransactionManager) (t : HeapTuple) : Prop :=
  t.xmax = invalidTxnId ∧ tm.status t.xmin = .committed

/-- What holds of the tables between any two steps. -/
structure Stored (tables : List TableDef) (chain : Nat → List Nat) (pool : BufferPool)
    (tm : TransactionManager) : Prop where
  heaps : Heaps (heapFiles tables) chain pool
  user : ∀ table ∈ tables, table.firstPageId ≠ PG_INDEX_PAGE_ID
  ids : ∀ table ∈ tables, ∀ t ∈ pool.rowsOn (chain table.firstPageId),
    t.xmin < tm.nextTxnId ∧ t.xmax < tm.nextTxnId
  settled : ∀ table ∈ tables, ∀ p ∈ chain table.firstPageId, (pool.pages p).allVisible →
    ∀ t ∈ (pool.pages p).rows, Settled tm t

/-- A version that counts for a fresh snapshot. -/
def Live (tm : TransactionManager) (t : HeapTuple) : Prop :=
  tm.status t.xmin = .committed ∧ (t.xmax = invalidTxnId ∨ tm.status t.xmax ≠ .committed)

instance (tm : TransactionManager) (t : HeapTuple) : Decidable (Live tm t) :=
  inferInstanceAs (Decidable (_ ∧ _))

variable {tables : List TableDef} {chain : Nat → List Nat} {pool pool' : BufferPool}
  {tm tm' : TransactionManager} {table : TableDef}

theorem mem_heapFiles (h : table ∈ tables) : table.firstPageId ∈ heapFiles tables :=
  List.mem_cons_of_mem _ (List.mem_map_of_mem h)

theorem pgIndex_mem (tables : List TableDef) : PG_INDEX_PAGE_ID ∈ heapFiles tables :=
  List.mem_cons_self

namespace BufferPool

variable {s : BufferPool} {ps qs : List Nat} {q : Nat} {page : Page}

@[simp] theorem rowsOn_append (s : BufferPool) (ps qs : List Nat) :
    s.rowsOn (ps ++ qs) = s.rowsOn ps ++ s.rowsOn qs := List.flatMap_append

@[simp] theorem rowsOn_cons (s : BufferPool) (p : Nat) (ps : List Nat) :
    s.rowsOn (p :: ps) = (s.pages p).rows ++ s.rowsOn ps := List.flatMap_cons

@[simp] theorem rowsOn_nil (s : BufferPool) : s.rowsOn [] = [] := rfl

theorem mem_rowsOn {t : HeapTuple} : t ∈ s.rowsOn ps ↔ ∃ p ∈ ps, t ∈ (s.pages p).rows :=
  List.mem_flatMap

theorem rowsOn_congr {s s' : BufferPool} (h : ∀ p ∈ ps, (s'.pages p).rows = (s.pages p).rows) :
    s'.rowsOn ps = s.rowsOn ps :=
  List.flatMap_congr h

/-- The versions of a table after one of its pages was overwritten. -/
theorem rowsOn_set (page : Page) (hq : q ∈ ps) (hnodup : ps.Nodup) : ∃ front back,
    s.rowsOn ps = front ++ (s.pages q).rows ++ back ∧
      (s.set q page).rowsOn ps = front ++ page.rows ++ back := by
  obtain ⟨a, b, rfl⟩ := List.append_of_mem hq
  obtain ⟨-, hb, hdisj⟩ := List.nodup_append.1 hnodup
  have hqb : q ∉ b := (List.nodup_cons.1 hb).1
  have hqa : q ∉ a := fun h => hdisj q h q List.mem_cons_self rfl
  have hkeep : ∀ {l : List Nat}, q ∉ l → (s.set q page).rowsOn l = s.rowsOn l := by
    intro l hl
    refine rowsOn_congr fun p hp => ?_
    rw [set_pages_ne]
    rintro rfl
    exact hl hp
  refine ⟨s.rowsOn a, s.rowsOn b, by simp, ?_⟩
  rw [rowsOn_append, rowsOn_cons, hkeep hqa, hkeep hqb, set_pages_self, List.append_assoc]

theorem rowsOn_set_ne (hq : q ∉ ps) : (s.set q page).rowsOn ps = s.rowsOn ps := by
  refine rowsOn_congr fun p hp => ?_
  rw [set_pages_ne]
  rintro rfl
  exact hq hp

end BufferPool

/-! ## Scans -/

theorem SameOutcomes.snapshot_eq (h : SameOutcomes tm tm') (id : Nat) :
    tm'.snapshot id = tm.snapshot id := by
  unfold TransactionManager.snapshot
  rw [h.next_eq, h.active_eq]

theorem SameOutcomes.status_eq (h : SameOutcomes tm tm') (x : Nat) : tm'.status x = tm.status x := by
  unfold TransactionManager.status
  rw [h.clog_eq, h.active_eq]

/-- A snapshot that has just been taken sees what is committed. -/
theorem sees_fresh (hwf : tm.WF) {id x : Nat} (hx : x ≠ id) :
    Sees (tm.snapshot id) tm x ↔ tm.status x = .committed := by
  unfold Sees
  constructor
  · rintro (h | ⟨-, -, h⟩)
    · exact absurd h hx
    · exact h
  · intro h
    refine Or.inr ⟨TransactionManager.lt_of_committed hwf h, ?_, h⟩
    exact TransactionManager.not_active_of_status hwf (by rw [h]; decide)

namespace Stored

/-- **Fresh scans.** A scan under a snapshot taken now, for a transaction that has
written nothing, returns the live versions in chain order. -/
theorem seqScan_live (h : Stored tables chain pool tm) (hwf : tm.WF) (htab : table ∈ tables) {id : Nat}
    (hid : ∀ t ∈ pool.rowsOn (chain table.firstPageId), t.xmin ≠ id ∧ t.xmax ≠ id) :
    seqScan table.firstPageId (tm.snapshot id) tm pool =
      .ok (((pool.rowsOn (chain table.firstPageId)).filter fun t => Live tm t).map HeapTuple.values)
        pool := by
  rw [h.heaps.seqScan_eq (mem_heapFiles htab)]
  refine congrArg (fun out => EStateM.Result.ok out pool) ?_
  unfold BufferPool.contents BufferPool.rowsOn
  rw [List.filter_flatMap, List.map_flatMap]
  refine List.flatMap_congr fun p hp => congrArg _ (List.filter_congr fun t ht => ?_)
  obtain ⟨hmin, hmax⟩ := hid t (BufferPool.mem_rowsOn.2 ⟨p, hp, ht⟩)
  -- the page bit only confirms what the rows say
  have hvis : isVisible t.xmin t.xmax (tm.snapshot id) tm = true ↔ Live tm t := by
    rw [isVisible_iff, sees_fresh hwf hmin]
    unfold Live
    refine and_congr_right fun _ => ?_
    rw [sees_fresh hwf hmax]
    tauto
  show ((pool.pages p).allVisible || isVisible t.xmin t.xmax (tm.snapshot id) tm) = decide (Live tm t)
  cases hbit : (pool.pages p).allVisible with
  | false => rw [Bool.false_or, Bool.eq_iff_iff, hvis, decide_eq_true_eq]
  | true =>
    obtain ⟨h0, hc⟩ := h.settled table htab p hp hbit t ht
    have hlive : Live tm t := ⟨hc, Or.inl h0⟩
    rw [Bool.true_or, eq_comm, decide_eq_true_eq]
    exact hlive

/-- The manager moves on. -/
theorem tm_mono (h : Stored tables chain pool tm) (hnext : tm.nextTxnId ≤ tm'.nextTxnId)
    (hstatus : ∀ x, tm.status x = .committed → tm'.status x = .committed) :
    Stored tables chain pool tm' :=
  ⟨h.heaps, h.user, fun table htab t ht => ⟨lt_of_lt_of_le (h.ids table htab t ht).1 hnext,
      lt_of_lt_of_le (h.ids table htab t ht).2 hnext⟩,
    fun table htab p hp hbit t ht => ⟨(h.settled table htab p hp hbit t ht).1,
      hstatus _ (h.settled table htab p hp hbit t ht).2⟩⟩

theorem tm_step (h : Stored tables chain pool tm) (hwf : tm.WF)
    (hstep : TransactionManager.Step tm tm') : Stored tables chain pool tm' := by
  refine h.tm_mono hstep.next_le fun x hx => ?_
  rw [hstep.status_eq hwf ?_ (TransactionManager.lt_of_committed hwf hx), hx]
  exact TransactionManager.not_active_of_status hwf (by rw [hx]; decide)

theorem sameOutcomes (h : Stored tables chain pool tm) (hsame : SameOutcomes tm tm') :
    Stored tables chain pool tm' :=
  h.tm_mono hsame.next_eq.ge fun x hx => (hsame.status_eq x).trans hx

/-- Pages outside the tables change. -/
theorem frame (h : Stored tables chain pool tm) (hheaps : Heaps (heapFiles tables) chain pool')
    (hsame : ∀ table ∈ tables, ∀ p ∈ chain table.firstPageId, pool'.pages p = pool.pages p) :
    Stored tables chain pool' tm ∧ ∀ table ∈ tables,
      pool'.rowsOn (chain table.firstPageId) = pool.rowsOn (chain table.firstPageId) := by
  have hrows : ∀ table ∈ tables,
      pool'.rowsOn (chain table.firstPageId) = pool.rowsOn (chain table.firstPageId) :=
    fun table htab => BufferPool.rowsOn_congr fun p hp => by rw [hsame table htab p hp]
  refine ⟨⟨hheaps, h.user, fun table htab t ht => ?_, fun table htab p hp hbit t ht => ?_⟩, hrows⟩
  · rw [hrows table htab] at ht
    exact h.ids table htab t ht
  · rw [hsame table htab p hp] at hbit ht
    exact h.settled table htab p hp hbit t ht

theorem indexes (h : Stored tables chain pool tm) (hidx : Indexes (heapFiles tables) chain pool pool') :
    Stored tables chain pool' tm ∧ ∀ table ∈ tables,
      pool'.rowsOn (chain table.firstPageId) = pool.rowsOn (chain table.firstPageId) :=
  h.frame hidx.heaps fun table htab => hidx.same _ (mem_heapFiles htab) (h.user table htab)

/-- The rows of one page change, its place does not. -/
theorem write {q : Nat} {page : Page} (h : Stored tables chain pool tm)
    (hheaps : Heaps (heapFiles tables) chain (pool.set q page))
    (hids : (∀ t ∈ (pool.pages q).rows, t.xmin < tm.nextTxnId ∧ t.xmax < tm.nextTxnId) →
      ∀ t ∈ page.rows, t.xmin < tm.nextTxnId ∧ t.xmax < tm.nextTxnId)
    (hbit : ((pool.pages q).allVisible → ∀ t ∈ (pool.pages q).rows, Settled tm t) →
      page.allVisible → ∀ t ∈ page.rows, Settled tm t) :
    Stored tables chain (pool.set q page) tm := by
  have hold : ∀ table ∈ tables, ∀ p ∈ chain table.firstPageId, ∀ t ∈ (pool.pages p).rows,
      t.xmin < tm.nextTxnId ∧ t.xmax < tm.nextTxnId := fun table htab p hp t ht =>
    h.ids table htab t (BufferPool.mem_rowsOn.2 ⟨p, hp, ht⟩)
  refine ⟨hheaps, h.user, fun table htab t ht => ?_, fun table htab p hp hvis t ht => ?_⟩
  · obtain ⟨p, hp, ht⟩ := BufferPool.mem_rowsOn.1 ht
    by_cases hpq : p = q
    · subst hpq
      rw [BufferPool.set_pages_self] at ht
      exact hids (hold table htab p hp) t ht
    · rw [BufferPool.set_pages_ne _ _ hpq] at ht
      exact hold table htab p hp t ht
  · by_cases hpq : p = q
    · subst hpq
      rw [BufferPool.set_pages_self] at hvis ht
      exact hbit (h.settled table htab p hp) hvis t ht
    · rw [BufferPool.set_pages_ne _ _ hpq] at hvis ht
      exact h.settled table htab p hp hvis t ht

end Stored

/-! ## DML -/

variable {s s' : Ctx} {q slot : Nat} {page page' : Page} {t u : HeapTuple}

/-- A version is replaced in place. -/
theorem Stored.replaced {chain : Nat → List Nat} (h : Stored tables chain pool tm)
    (hrep : Replaced (pool.pages q) page slot t u)
    (hids : t.xmin < tm.nextTxnId ∧ t.xmax < tm.nextTxnId → u.xmin < tm.nextTxnId ∧ u.xmax < tm.nextTxnId)
    (hbit : page.allVisible → (pool.pages q).allVisible ∧ u.xmin = t.xmin ∧ u.xmax = t.xmax) :
    Stored tables chain (pool.set q page) tm ∧ ∀ table ∈ tables,
      pool.rowsOn (chain table.firstPageId) = (pool.set q page).rowsOn (chain table.firstPageId) ∨
      ∃ front back, pool.rowsOn (chain table.firstPageId) = front ++ t :: back ∧
        (pool.set q page).rowsOn (chain table.firstPageId) = front ++ u :: back := by
  obtain ⟨-, ⟨front, back, hrows, hrows'⟩, hnext, hkind, hid, hholds⟩ := hrep
  refine ⟨h.write (h.heaps.change hnext hkind hid hholds) (fun hall r hr => ?_)
    fun hall hvis r hr => ?_, fun table htab => ?_⟩
  · rw [hrows'] at hr
    rcases List.mem_append.1 hr with hr | hr
    · exact hall r (by rw [hrows]; exact List.mem_append_left _ hr)
    · rcases List.mem_cons.1 hr with rfl | hr
      · exact hids (hall t (by rw [hrows]; simp))
      · exact hall r (by rw [hrows]; simp [hr])
  · obtain ⟨hwas, hmin, hmax⟩ := hbit hvis
    have hall := hall hwas
    rw [hrows'] at hr
    rcases List.mem_append.1 hr with hr | hr
    · exact hall r (by rw [hrows]; exact List.mem_append_left _ hr)
    · rcases List.mem_cons.1 hr with rfl | hr
      · rw [Settled, hmin, hmax]
        exact hall t (by rw [hrows]; simp)
      · exact hall r (by rw [hrows]; simp [hr])
  · by_cases hq : q ∈ chain table.firstPageId
    · obtain ⟨a, b, hold, hnew⟩ := BufferPool.rowsOn_set (s := pool) page hq
        (h.heaps.nodup _ (mem_heapFiles htab))
      refine Or.inr ⟨a ++ front, back ++ b, ?_, ?_⟩
      · rw [hold, hrows]
        simp
      · rw [hnew, hrows']
        simp
    · exact Or.inl (BufferPool.rowsOn_set_ne hq).symm

/-- Pages outside the tables change. -/
theorem Stored.outside {chain : Nat → List Nat} (h : Stored tables chain pool' tm' ∧ ∀ table ∈ tables,
    pool'.rowsOn (chain table.firstPageId) = pool.rowsOn (chain table.firstPageId)) {id : Nat}
    {rep : Nat → Prop} : ∃ chain', Stored tables chain' pool' tm' ∧ ∀ table ∈ tables,
      chain table.firstPageId ⊆ chain' table.firstPageId ∧
        RowsStep id rep (pool.rowsOn (chain table.firstPageId))
          (pool'.rowsOn (chain' table.firstPageId)) :=
  ⟨chain, h.1, fun table htab => by
    rw [h.2 table htab]
    exact ⟨List.Subset.refl _, .same _⟩⟩

theorem stored_append {n last : Nat} {values : List Value} (h : Stored tables chain pool tm)
    {id : Nat} (hid : id < tm.nextTxnId) {rep : Nat → Prop} (htab : table ∈ tables)
    (htail : tailLoop n table.firstPageId pool = .ok last pool)
    (hins : (pool.pages last).insert (.heap (.mk' id invalidTxnId values)) = .ok (slot, page)) (lsn : Nat) :
    Stored tables chain (pool.set last (page.setPageLsn lsn)) tm ∧ ∀ table' ∈ tables,
      RowsStep id rep (pool.rowsOn (chain table'.firstPageId))
        ((pool.set last (page.setPageLsn lsn)).rowsOn (chain table'.firstPageId)) := by
  obtain ⟨front, hchain⟩ := tailLoop_eq h.heaps.wf (h.heaps.links _ (mem_heapFiles htab)) htail
  obtain ⟨hrows, hnext, hkind, hpid, hvis, hholds⟩ := insert_rows hins
  have hrows : (page.setPageLsn lsn).rows = (pool.pages last).rows ++ [.mk' id invalidTxnId values] := hrows
  have hlast : last ∈ chain table.firstPageId := by simp [hchain]
  refine ⟨h.write (h.heaps.change hnext hkind hpid hholds) (fun hall r hr => ?_)
    fun _ hbit => ?_, fun table' htab' => ?_⟩
  · rw [hrows] at hr
    rcases List.mem_append.1 hr with hr | hr
    · exact hall r hr
    · rw [List.mem_singleton.1 hr]
      exact ⟨hid, lt_of_le_of_lt (Nat.zero_le _) hid⟩
  · exact absurd (hvis.symm.trans hbit) Bool.false_ne_true
  · by_cases hq : last ∈ chain table'.firstPageId
    · have hfirst := h.heaps.apart _ (mem_heapFiles htab') _ (mem_heapFiles htab) last hq hlast
      rw [hfirst, hchain]
      have hnodup : (front ++ [last]).Nodup := hchain ▸ h.heaps.nodup _ (mem_heapFiles htab)
      have hfront : last ∉ front := fun hl =>
        (List.nodup_append.1 hnodup).2.2 last hl last (List.mem_singleton_self _) rfl
      rw [BufferPool.rowsOn_append, BufferPool.rowsOn_append, BufferPool.rowsOn_set_ne hfront]
      simp only [BufferPool.rowsOn_cons, BufferPool.rowsOn_nil, BufferPool.set_pages_self, hrows,
        List.append_nil, ← List.append_assoc]
      exact .insert _ _
    · rw [BufferPool.rowsOn_set_ne hq]
      exact .same _

theorem stored_alloc {p : Nat} (h : Stored tables chain pool tm) (hnew : newPage pool = .ok p pool') :
    Stored tables chain (pool'.set p (.new p)) tm ∧ ∀ table ∈ tables,
      (pool'.set p (.new p)).rowsOn (chain table.firstPageId) =
        pool.rowsOn (chain table.firstPageId) := by
  obtain ⟨hheaps, hout, hused, hfresh, hframe⟩ := h.heaps.alloc hnew
  have hsame : ∀ q, (pool'.set p (.new p)).pages q = pool'.pages q := by
    intro q
    by_cases hq : q = p
    · rw [hq, BufferPool.set_pages_self, hfresh]
    · rw [BufferPool.set_pages_ne _ _ hq]
  refine h.frame (hheaps.change ?_ ?_ ?_ fun hr => ?_) fun table htab q hq => ?_
  · rw [BufferPool.next, hfresh]
  · rw [hfresh]
  · rw [hfresh]
  · rw [hfresh] at hr
    exact hr
  · rw [hsame q]
    refine hframe q ?_
    rintro rfl
    exact hout _ (mem_heapFiles htab) hq

theorem stored_grow {n last p : Nat} {values : List Value} (h : Stored tables chain pool tm)
    {id : Nat} (hid : id < tm.nextTxnId) {rep : Nat → Prop} (htab : table ∈ tables)
    (htail : tailLoop n table.firstPageId pool = .ok last pool) (hnew : newPage pool = .ok p pool')
    (hins : (Page.new p).insert (.heap (.mk' id invalidTxnId values)) = .ok (slot, page)) (lsn : Nat)
    {pool₂ : BufferPool} (hpool₂ : pool₂ = (pool'.set p (.new p)).set p (page.setPageLsn lsn)) :
    ∃ chain', Stored tables chain' (pool₂.set last ((pool₂.pages last).setNextPageId p)) tm ∧
      ∀ table' ∈ tables, chain table'.firstPageId ⊆ chain' table'.firstPageId ∧
        RowsStep id rep (pool.rowsOn (chain table'.firstPageId))
          ((pool₂.set last ((pool₂.pages last).setNextPageId p)).rowsOn
            (chain' table'.firstPageId)) := by
  obtain ⟨front, hchain⟩ := tailLoop_eq h.heaps.wf (h.heaps.links _ (mem_heapFiles htab)) htail
  obtain ⟨h₁, hrows₁⟩ := stored_alloc h hnew
  obtain ⟨-, hout, hused, -, -⟩ := h.heaps.alloc hnew
  obtain ⟨hrows, hnext, hkind, hpid, hvis, hholds⟩ := insert_rows hins
  have hnewRow : (page.setPageLsn lsn).rows = [.mk' id invalidTxnId values] := hrows
  have hself : pool₂.pages p = page.setPageLsn lsn := by
    rw [hpool₂, BufferPool.set_pages_self]
  -- the new page is outside the tables until it is linked
  obtain ⟨h₂, hrows₂⟩ : Stored tables chain pool₂ tm ∧ ∀ table ∈ tables,
      pool₂.rowsOn (chain table.firstPageId) = pool.rowsOn (chain table.firstPageId) := by
    have hheaps₂ : Heaps (heapFiles tables) chain pool₂ := by
      rw [hpool₂]
      refine h₁.heaps.change ?_ ?_ ?_ ?_
      · rw [BufferPool.next, BufferPool.set_pages_self]
        exact hnext
      · rw [BufferPool.set_pages_self]
        exact hkind
      · rw [BufferPool.set_pages_self]
        exact hpid
      · rw [BufferPool.set_pages_self]
        exact hholds
    obtain ⟨h₂, hrows₂⟩ := h₁.frame hheaps₂ fun table' htab' q hq => by
      rw [hpool₂]
      refine BufferPool.set_pages_ne _ _ ?_
      rintro rfl
      exact hout _ (mem_heapFiles htab') hq
    exact ⟨h₂, fun table' htab' => (hrows₂ table' htab').trans (hrows₁ table' htab')⟩
  have hheaps := h₂.heaps.link (p := p) (mem_heapFiles htab) hchain (hpool₂ ▸ hused) hout
    (by rw [hself]; exact hkind) (by rw [hself]; exact hholds fun s hs => by cases hs)
    (by rw [BufferPool.next, hself]; exact hnext)
  set pool₃ := pool₂.set last ((pool₂.pages last).setNextPageId p) with hpool₃
  set chain' := Function.update chain table.firstPageId (front ++ [last, p]) with hchain'
  have hlast : last ∈ chain table.firstPageId := by simp [hchain]
  have hpl : p ≠ last := fun heq => hout _ (mem_heapFiles htab) (heq ▸ hlast)
  have hpage : ∀ q, (pool₃.pages q).rows = (pool₂.pages q).rows ∧
      (pool₃.pages q).allVisible = (pool₂.pages q).allVisible := fun q =>
    Heaps.pages_set (P := fun q' x => x.rows = (pool₂.pages q').rows ∧
      x.allVisible = (pool₂.pages q').allVisible) (fun _ => ⟨rfl, rfl⟩) ⟨rfl, rfl⟩
  have hrowsOn : ∀ ps, pool₃.rowsOn ps = pool₂.rowsOn ps := fun ps =>
    BufferPool.rowsOn_congr fun q _ => (hpage q).1
  -- the chain of the table is one page longer
  have hchains : ∀ table' ∈ tables, chain' table'.firstPageId = chain table'.firstPageId ∨
      chain' table'.firstPageId = chain table'.firstPageId ++ [p] := by
    intro table' htab'
    by_cases hf : table'.firstPageId = table.firstPageId
    · rw [hf, hchain', Function.update_self, hchain]
      exact Or.inr (by simp)
    · rw [hchain', Function.update_of_ne hf]
      exact Or.inl rfl
  have hrowsNew : pool₂.rowsOn [p] = [.mk' id invalidTxnId values] := by
    simp [hself, hnewRow]
  refine ⟨chain', ⟨hheaps, h₂.user, fun table' htab' r hr => ?_, fun table' htab' q hq hbit r hr => ?_⟩,
    fun table' htab' => ?_⟩
  · rw [hrowsOn] at hr
    rcases hchains table' htab' with hc | hc
    · rw [hc] at hr
      exact h₂.ids table' htab' r hr
    · rw [hc, BufferPool.rowsOn_append, hrowsNew] at hr
      rcases List.mem_append.1 hr with hr | hr
      · exact h₂.ids table' htab' r hr
      · rw [List.mem_singleton.1 hr]
        exact ⟨hid, lt_of_le_of_lt (Nat.zero_le _) hid⟩
  · rw [(hpage q).2] at hbit
    rw [(hpage q).1] at hr
    have hq : q ∈ chain table'.firstPageId ∨ q = p := by
      rcases hchains table' htab' with hc | hc
      · exact Or.inl (hc ▸ hq)
      · rw [hc] at hq
        simpa using hq
    rcases hq with hq | rfl
    · exact h₂.settled table' htab' q hq hbit r hr
    · rw [hself] at hbit
      exact absurd (hvis.symm.trans hbit) Bool.false_ne_true
  · rw [hrowsOn]
    rcases hchains table' htab' with hc | hc
    · rw [hc, hrows₂ table' htab']
      exact ⟨List.Subset.refl _, .same _⟩
    · rw [hc, BufferPool.rowsOn_append, hrows₂ table' htab', hrowsNew]
      exact ⟨List.subset_append_left _ _, .insert _ _⟩

/-- **One step of DML** on the versions of every table. -/
theorem Write.stored (h : Write True tables s s') (hs : Stored tables chain s.pool s.tm)
    (hid : s.tx.id < s.tm.nextTxnId) : ∃ chain', Stored tables chain' s'.pool s'.tm ∧
      ∀ table ∈ tables, chain table.firstPageId ⊆ chain' table.firstPageId ∧
        RowsStep s.tx.id (Overwritable s) (s.pool.rowsOn (chain table.firstPageId))
          (s'.pool.rowsOn (chain' table.firstPageId)) := by
  have hlog : ∀ {chain' pool'} (lsn : Nat), Stored tables chain' pool' s.tm →
      Stored tables chain' pool' (s.tm.updateLastLsn s.tx.id lsn) := fun lsn h =>
    h.sameOutcomes (sameOutcomes_updateLastLsn _ _ _)
  have hsub : ∀ table : TableDef, chain table.firstPageId ⊆ chain table.firstPageId := fun _ =>
    List.Subset.refl _
  cases h with
  | append htab htail hins =>
    obtain ⟨h', hrows⟩ := stored_append hs hid htab htail hins s.wal.nextLsn
    exact ⟨chain, hlog _ h', fun table htab => ⟨hsub table, hrows table htab⟩⟩
  | grow htab htail hnew hs₁ hins hs₂ =>
    subst hs₁ hs₂
    obtain ⟨chain', h', hrows⟩ := stored_grow hs hid htab htail hnew hins s.wal.nextLsn rfl
    exact ⟨chain', hlog _ h', hrows⟩
  | alloc hnew => exact Stored.outside (stored_alloc hs hnew)
  | @delete rid page hlt hfree hset =>
    obtain ⟨t, hrep, hvis⟩ := setTupleXmax_rows hset
    have hrep : Replaced (s.pool.pages rid.1) (page.setPageLsn s.wal.nextLsn) rid.2 t
        { t with xmax := s.tx.id } :=
      ⟨hrep.get, hrep.rows, hrep.next, hrep.kind, hrep.id, hrep.holds, hrep.aged⟩
    obtain ⟨h', hrows⟩ := hs.replaced hrep (fun hids => ⟨hids.1, hid⟩) fun hbit =>
      absurd (hvis.symm.trans hbit) Bool.false_ne_true
    refine ⟨chain, hlog _ h', fun table htab => ⟨hsub table, ?_⟩⟩
    show RowsStep _ _ _ ((s.pool.set rid.1 (page.setPageLsn s.wal.nextLsn)).rowsOn _)
    rcases hrows table htab with heq | ⟨front, back, hold, hnew⟩
    · rw [← heq]
      exact .same _
    · rw [hold, hnew]
      exact .delete front back t (hfree trivial t hrep.get)
  | @forward rid newRid page hlt hset =>
    obtain ⟨t, hrep, hvis⟩ := setTupleCtid_rows hset
    obtain ⟨h', hrows⟩ := hs.replaced hrep (fun hids => hids) fun hbit =>
      ⟨hvis.symm.trans hbit, rfl, rfl⟩
    refine ⟨chain, h', fun table htab => ⟨hsub table, ?_⟩⟩
    show RowsStep _ _ _ ((s.pool.set rid.1 page).rowsOn _)
    rcases hrows table htab with heq | ⟨front, back, hold, hnew⟩
    · rw [← heq]
      exact .same _
    · rw [hold, hnew]
      exact .forward front back t newRid
  | index root key rid ty =>
    exact Stored.outside (hs.indexes ((frames_insert root key rid ty s.pool).final hs.heaps))
  | root indexId hroot =>
    exact Stored.outside (hs.indexes
      ((frames_updateIndexRoot (pgIndex_mem tables) indexId _ s.pool).final hs.heaps))
  | note => exact ⟨chain, hlog _ hs, fun table _ => ⟨hsub table, .same _⟩⟩
  | memo | lock | snap => exact ⟨chain, hs, fun table _ => ⟨hsub table, .same _⟩⟩

/-- What a step does to the rows on one page of a table. -/
theorem Write.aged (h : Write True tables s s') (hs : Stored tables chain s.pool s.tm)
    (htab : table ∈ tables) {p : Nat} (hp : p ∈ chain table.firstPageId) :
    Aged s.tx.id (s.pool.pages p) (s'.pool.pages p) := by
  have hset : ∀ {q : Nat} {page : Page}, Aged s.tx.id (s.pool.pages q) page →
      Aged s.tx.id (s.pool.pages p) ((s.pool.set q page).pages p) := fun hpage =>
    Heaps.pages_set (P := fun q page => Aged s.tx.id (s.pool.pages q) page) (fun _ => hpage)
      (.of_slots rfl)
  have hnew : ∀ {q : Nat} {pool : BufferPool}, newPage s.pool = .ok q pool →
      p ≠ q ∧ pool.pages p = s.pool.pages p := by
    intro q pool hnew
    obtain ⟨-, hout, -, -, hframe⟩ := hs.heaps.alloc hnew
    have hne : p ≠ q := fun heq => hout _ (mem_heapFiles htab) (heq ▸ hp)
    exact ⟨hne, hframe p hne⟩
  have hindexes : ∀ {pool : BufferPool}, Indexes (heapFiles tables) chain s.pool pool →
      Aged s.tx.id (s.pool.pages p) (pool.pages p) := fun hidx =>
    .of_slots (by rw [hidx.same _ (mem_heapFiles htab) (hs.user table htab) p hp])
  cases h with
  | append htab htail hins =>
    have hpage : Aged s.tx.id _ _ := aged_insert hins rfl
    exact hset hpage
  | @grow s₁ s₂ table n last q slot values page pool htab htail hnew' hs₁ hins hs₂ =>
    obtain ⟨hne, hsame⟩ := hnew hnew'
    have hs₂ : s₂.pool.pages p = s.pool.pages p := by
      subst hs₁ hs₂
      show (((pool.set q (.new q)).set q _).pages p) = _
      rw [BufferPool.set_pages_ne _ _ hne, BufferPool.set_pages_ne _ _ hne, hsame]
    refine .of_slots ?_
    rw [← hs₂]
    exact Heaps.pages_set (P := fun q page => page.slots = (s₂.pool.pages q).slots) (fun _ => rfl) rfl
  | @alloc q pool hnew' =>
    obtain ⟨hne, hsame⟩ := hnew hnew'
    refine .of_slots ?_
    show ((pool.set q (.new q)).pages p).slots = _
    rw [BufferPool.set_pages_ne _ _ hne, hsame]
  | delete hlt hfree hset' =>
    obtain ⟨t, hrep, -⟩ := setTupleXmax_rows hset'
    exact hset (hrep.aged s.tx.id (Or.inl rfl))
  | forward hlt hset' =>
    obtain ⟨t, hrep, -⟩ := setTupleCtid_rows hset'
    exact hset (hrep.aged s.tx.id (Or.inr rfl))
  | index root key rid ty => exact hindexes ((frames_insert root key rid ty s.pool).final hs.heaps)
  | root indexId hroot =>
    exact hindexes ((frames_updateIndexRoot (pgIndex_mem tables) indexId _ s.pool).final hs.heaps)
  | note | memo | lock | snap => exact .of_slots rfl

/-! ## Statements -/

def TablesOk (tables : List TableDef) (pool : BufferPool) (tm : TransactionManager) : Prop :=
  ∃ chain, Stored tables chain pool tm

/-- Inside a statement of the transaction `id`: no outcome has changed since it began. -/
structure Amid (tables : List TableDef) (id : Nat) (tm : TransactionManager) (s : Ctx) : Prop where
  runs : Runs tables id s
  stored : TablesOk tables s.pool s.tm
  wf : s.tm.WF
  lt : s.tx.id < s.tm.nextTxnId
  outcomes : SameOutcomes tm s.tm

/-- A row of a table whose deleter does not count. -/
def KeptRow (tables : List TableDef) (s : Ctx) (rid : Rid) : Prop :=
  ∃ chain, Stored tables chain s.pool s.tm ∧ (∃ table ∈ tables, rid.1 ∈ chain table.firstPageId) ∧
    Replaceable s rid

variable {id : Nat}

theorem Write.snapshot {strict : Prop} (h : Write strict tables s s') :
    s'.tx.snapshot = s.tx.snapshot ∨ s'.tx.snapshot = some (s.tm.snapshot s.tx.id) := by
  cases h with
  | grow htab htail hnew hs₁ hins hs₂ =>
    subst hs₁ hs₂
    exact Or.inl rfl
  | snap => exact Or.inr rfl
  | _ => exact Or.inl rfl

namespace Amid

theorem write (s s' : Ctx) (h : Write True tables s s') (hs : Amid tables id tm s) :
    Amid tables id tm s' := by
  obtain ⟨chain, hc⟩ := hs.stored
  obtain ⟨chain', hc', -⟩ := h.stored hc hs.lt
  have hout := h.appends.outcomes
  refine ⟨Runs.write _ _ h hs.runs, ⟨chain', hc'⟩, hout.wf hs.wf, ?_, hs.outcomes.trans hout⟩
  rw [h.appends.id_eq, hout.next_eq]
  exact hs.lt

theorem snapshot_eq (hs : Amid tables id tm s) : s.tm.snapshot s.tx.id = tm.snapshot id := by
  rw [hs.outcomes.snapshot_eq, hs.runs.2]

/-- The rows of a scan under the snapshot of the statement. -/
theorem scan (hs : Amid tables id tm s) (htab : table ∈ tables) {rows : List (Rid × List Value)}
    (hrows : visibleRows table.firstPageId (tm.snapshot id) s.tm s.pool = .ok rows s.pool)
    {r : Rid × List Value} (hr : r ∈ rows) : KeptRow tables s r.1 := by
  obtain ⟨chain, hc⟩ := hs.stored
  rw [hc.heaps.visibleRows_eq (mem_heapFiles htab)] at hrows
  cases hrows
  obtain ⟨l, hl, hr⟩ := List.mem_flatten.1 hr
  obtain ⟨p, hp, rfl⟩ := List.mem_map.1 hl
  obtain ⟨q, hq, rfl⟩ := List.mem_map.1 hp
  obtain ⟨hpage, t, hget, hvis⟩ := mem_seenOn hr
  refine ⟨chain, hc, ⟨table, htab, hpage ▸ hq⟩, fun u hu => ?_⟩
  rw [hpage] at hu
  cases hget.symm.trans hu
  rcases Bool.or_eq_true _ _ ▸ hvis with hbit | hvis
  · have ht : t ∈ (s.pool.pages q).rows := by
      obtain ⟨slot, hslot, htuple⟩ := getTuple_eq_some hget
      exact List.mem_filterMap.2 ⟨slot, List.mem_of_getElem? hslot, by
        simp [Slot.row?, htuple, PageTuple.row?]⟩
    exact Or.inl (hc.settled table htab q hq hbit t ht).1
  · -- a committed deleter would be seen
    by_cases h0 : t.xmax = invalidTxnId
    · exact Or.inl h0
    · by_cases hid : t.xmax = s.tx.id
      · exact Or.inr (Or.inl hid)
      · refine Or.inr (Or.inr fun hcommitted => (isVisible_iff.1 hvis).2 h0 ?_)
        rw [← hs.snapshot_eq]
        exact (sees_fresh hs.wf hid).2 hcommitted

/-- **ON DELETE** meets rows that it may delete. -/
theorem lasting : Lasting True tables id
    (fun s => Amid tables id tm s ∧ s.tx.snapshot = some (tm.snapshot id))
    (fun snap => snap = tm.snapshot id) (KeptRow tables) where
  runs _ hs := hs.1.runs
  write s s' h hs := by
    refine ⟨Amid.write s s' h hs.1, ?_⟩
    rcases h.snapshot with heq | heq
    · exact heq.trans hs.2
    · rw [heq, hs.1.snapshot_eq]
  stays s s' rid h hs hkeep := by
    obtain ⟨chain, hc, ⟨table, htab, hp⟩, hfree⟩ := hkeep
    obtain ⟨chain', hc', hrows⟩ := h.stored hc hs.1.lt
    refine ⟨chain', hc', ⟨table, htab, (hrows table htab).1 hp⟩, fun u hu => ?_⟩
    have happ := h.appends
    have hold : ∀ x, Overwritable s x → Overwritable s' x := fun x hx => by
      rw [Overwritable, happ.id_eq, happ.outcomes.status_eq]
      exact hx
    rcases h.aged hc htab hp rid.2 u hu with h0 | hid | ⟨t, ht, hxmax⟩
    · exact Or.inl h0
    · exact Or.inr (Or.inl (hid.trans happ.id_eq.symm))
    · exact hold _ (hxmax ▸ hfree t ht)
  snapshot s snap hs heq := Option.some.inj (heq.symm.trans hs.2)
  scan s snap table rows hs hsnap htab hrows r hr := hs.1.scan htab (hsnap ▸ hrows) hr
  free _ _ _ hkeep := by
    obtain ⟨_, _, _, hfree⟩ := hkeep
    exact hfree

end Amid

/-- **DML statements** are sequences of writes to rows whose deleters do not count. -/
theorem writes_dml {stmt : Statement} (hdml : stmt.isDml) (htabs : s.catalog.tables = tables)
    (h : TablesOk tables s.pool s.tm) (hwf : s.tm.WF) (hid : s.tx.id < s.tm.nextTxnId) :
    ReflTransGen (Write True tables) s (runStatement stmt s).final := by
  have hruns : Runs tables s.tx.id s := ⟨htabs, rfl⟩
  cases stmt with
  | insert stmt => exact ((guar_performInsert stmt).bind fun _ => Guar.ret).steps hruns
  | update stmt => exact ((guar_performUpdate stmt).bind fun _ => Guar.ret).steps hruns
  | delete depth stmt =>
    have hfresh : Guar (Write True tables) (Amid tables s.tx.id s.tm) freshSnapshot fun _ s' =>
        Amid tables s.tx.id s.tm s' ∧ s'.tx.snapshot = some (s.tm.snapshot s.tx.id) := by
      refine Guar.ofStep (fun _ _ => Or.inr .snap) fun s₁ snap s₂ hs hx => ?_
      cases hx
      exact ⟨Amid.write _ _ .snap hs, congrArg some hs.snapshot_eq⟩
    exact ((Amid.lasting.guar_performDelete hfresh (fun _ hs => hs.1) (fun _ hs => hs.runs) depth
      stmt).bind fun _ => Guar.ret).steps ⟨hruns, h, hwf, hid, .refl _⟩
  | _ => exact absurd hdml Bool.false_ne_true

end Ccdb
