import Ccdb.Exec.TableRows

/-!
# Ccdb — what VACUUM does to the tables

VACUUM takes dead versions out of a table and nothing else, wherever it stops.
A page whose `all_visible` bit it sets holds only versions that everyone sees.

Main results:

* `Stored.performVacuum` — VACUUM keeps `Stored` and reclaims dead versions only.
-/

namespace Ccdb

open BTree (liftE pageFuel)

/-! ## Lists of versions -/

/-- Some dead versions are gone, the others are in their old order. -/
inductive Reclaimed (dead : HeapTuple → Prop) : List HeapTuple → List HeapTuple → Prop
  | nil : Reclaimed dead [] []
  | keep (t : HeapTuple) {rows rows' : List HeapTuple} (h : Reclaimed dead rows rows') :
      Reclaimed dead (t :: rows) (t :: rows')
  | drop {t : HeapTuple} {rows rows' : List HeapTuple} (ht : dead t) (h : Reclaimed dead rows rows') :
      Reclaimed dead (t :: rows) rows'

namespace Reclaimed

variable {dead : HeapTuple → Prop} {a a' b b' c : List HeapTuple}

theorem refl : ∀ rows, Reclaimed dead rows rows
  | [] => .nil
  | t :: rows => .keep t (refl rows)

theorem trans (h : Reclaimed dead a b) (h' : Reclaimed dead b c) : Reclaimed dead a c := by
  induction h generalizing c with
  | nil => exact h'
  | keep t h ih =>
    cases h' with
    | keep _ h' => exact .keep t (ih h')
    | drop ht h' => exact .drop ht (ih h')
  | drop ht h ih => exact .drop ht (ih h')

theorem append (h : Reclaimed dead a a') (h' : Reclaimed dead b b') :
    Reclaimed dead (a ++ b) (a' ++ b') := by
  induction h with
  | nil => exact h'
  | keep t h ih => exact .keep t ih
  | drop ht h ih => exact .drop ht ih

theorem sublist (h : Reclaimed dead a b) : b.Sublist a := by
  induction h with
  | nil => exact .slnil
  | keep t h ih => exact ih.cons_cons t
  | drop ht h ih => exact ih.cons _

end Reclaimed

/-! ## One page -/

variable {dead : HeapTuple → Prop} {page page' : Page} {tm : TransactionManager}

/-- A slot is as it was, or its dead row is gone. -/
def SlotKept (dead : HeapTuple → Prop) (s s' : Slot) : Prop :=
  s'.tuple = s.tuple ∨ s'.tuple = none ∧ ∀ t, s.tuple = some (.heap t) → dead t

/-- The slots of a page are as they were, apart from dead rows. -/
structure PageKept (dead : HeapTuple → Prop) (page page' : Page) : Prop where
  slots : List.Forall₂ (SlotKept dead) page.slots page'.slots
  next : page'.nextPageId = page.nextPageId
  kind : page'.pageKind = page.pageKind
  id : page'.pageId = page.pageId

namespace PageKept

theorem refl (page : Page) : PageKept dead page page :=
  ⟨List.forall₂_same.2 fun _ _ => Or.inl rfl, rfl, rfl, rfl⟩

theorem stamp (h : PageKept dead page page') (lsn : Nat) : PageKept dead page (stampPage page' lsn) := by
  obtain ⟨hnext, hkind, hid, hslots, -⟩ := stampPage_fields page' lsn
  exact ⟨hslots ▸ h.slots, hnext.trans h.next, hkind.trans h.kind, hid.trans h.id⟩

theorem reclaimed (h : PageKept dead page page') (hrows : page.HoldsRows) :
    Reclaimed dead page.rows page'.rows := by
  have hslots := h.slots
  unfold Page.rows
  unfold Page.HoldsRows at hrows
  generalize page.slots = slots at hslots hrows
  generalize page'.slots = slots' at hslots
  induction hslots with
  | nil => exact .nil
  | @cons s s' rest rest' hs _ ih =>
    have ih := ih fun r hr => hrows r (List.mem_cons_of_mem _ hr)
    rw [List.filterMap_cons, List.filterMap_cons]
    rcases hs with hs | ⟨hs, hdead⟩
    · rw [show s'.row? = s.row? by rw [Slot.row?, Slot.row?, hs]]
      cases s.row? with
      | none => exact ih
      | some t => exact .keep t ih
    · rw [show s'.row? = none by rw [Slot.row?, hs]; rfl]
      cases ht : s.tuple with
      | none => rw [show s.row? = none by rw [Slot.row?, ht]; rfl]; exact ih
      | some x =>
        obtain ⟨t, rfl⟩ := hrows s List.mem_cons_self x ht
        rw [show s.row? = some t by rw [Slot.row?, ht]; rfl]
        exact .drop (hdead t ht) ih

theorem holdsRows (h : PageKept dead page page') (hrows : page.HoldsRows) : page'.HoldsRows := by
  have hslots := h.slots
  unfold Page.HoldsRows at *
  generalize page.slots = slots at hslots hrows
  generalize page'.slots = slots' at hslots
  induction hslots with
  | nil => exact fun s hs => by cases hs
  | @cons s s' rest rest' hs _ ih =>
    intro r hr x hx
    rcases List.mem_cons.1 hr with rfl | hr
    · rcases hs with hs | ⟨hs, -⟩
      · exact hrows s List.mem_cons_self x (hs ▸ hx)
      · rw [hs] at hx
        cases hx
    · exact ih (fun r hr => hrows r (List.mem_cons_of_mem _ hr)) r hr x hx

/-- A dead slot is cleared. -/
theorem clear (h : PageKept dead page page') {slot : Nat} {page'' : Page}
    (hdel : page'.delete slot = .ok page'')
    (hdead : ∀ t, page.getTuple slot = some (.heap t) → dead t) : PageKept dead page page'' := by
  rw [delete_rows hdel]
  refine ⟨?_, h.next, h.kind, h.id⟩
  have hslots := h.slots
  have hlen := hslots.length_eq
  rw [List.forall₂_iff_get] at hslots ⊢
  refine ⟨by simpa [Page.setSlot] using hlen, fun i hi hi' => ?_⟩
  have hi₁ : i < page'.slots.length := hlen ▸ hi
  have hold := hslots.2 i hi hi₁
  have hget : (page'.setSlot slot none).slots.get ⟨i, hi'⟩ =
      if slot = i then { page'.slots.get ⟨i, hi₁⟩ with tuple := none } else page'.slots.get ⟨i, hi₁⟩ := by
    simp only [Page.setSlot, List.get_eq_getElem, List.getElem_modify]
  rw [hget]
  split
  · next hs =>
    subst hs
    refine Or.inr ⟨rfl, fun t ht => hdead t ?_⟩
    unfold Page.getTuple
    rw [List.getElem?_eq_getElem hi]
    exact ht
  · exact hold

end PageKept

theorem deleteSlots_kept : ∀ {slots : List Nat} {page' page'' : Page}, PageKept dead page page' →
    (∀ i ∈ slots, ∀ t, page.getTuple i = some (.heap t) → dead t) →
      deleteSlots slots page' = .ok page'' → PageKept dead page page''
  | [], _, _, hpage, _, h => by
    cases h
    exact hpage
  | i :: rest, page', page'', hpage, hdead, h => by
    unfold deleteSlots at h
    cases hdel : page'.delete i with
    | error e =>
      rw [hdel] at h
      cases h
    | ok page₁ =>
      rw [hdel] at h
      have h : deleteSlots rest page₁ = .ok page'' := h
      exact deleteSlots_kept (hpage.clear hdel (hdead i List.mem_cons_self))
        (fun j hj => hdead j (List.mem_cons_of_mem _ hj)) h

theorem deleteSlots_allVisible : ∀ {slots : List Nat} {page page' : Page},
    deleteSlots slots page = .ok page' → page'.allVisible = page.allVisible
  | [], _, _, h => by
    cases h
    rfl
  | i :: rest, page, page', h => by
    unfold deleteSlots at h
    cases hdel : page.delete i with
    | error e =>
      rw [hdel] at h
      cases h
    | ok page₁ =>
      rw [hdel] at h
      have h : deleteSlots rest page₁ = .ok page' := h
      rw [deleteSlots_allVisible h, delete_rows hdel]
      rfl

theorem compactSlots_tuple : ∀ (off : Nat) (slots : List Slot),
    (Page.compactSlots off slots).1.map Slot.tuple = slots.map Slot.tuple
  | _, [] => rfl
  | off, s :: rest => by
    unfold Page.compactSlots
    cases hs : s.tuple with
    | none => simp [compactSlots_tuple off rest, hs]
    | some t => simp [compactSlots_tuple (off - t.len) rest, hs]

theorem PageKept.compact (h : PageKept dead page page') : PageKept dead page page'.vacuumCompact := by
  refine ⟨?_, h.next, h.kind, h.id⟩
  have htuples : page'.vacuumCompact.slots.map Slot.tuple = page'.slots.map Slot.tuple :=
    compactSlots_tuple PAGE_SIZE page'.slots
  have hslots := h.slots
  generalize page'.vacuumCompact.slots = compacted at htuples ⊢
  generalize page'.slots = slots' at hslots htuples
  generalize page.slots = slots at hslots ⊢
  induction hslots generalizing compacted with
  | nil =>
    cases compacted with
    | nil => exact .nil
    | cons c cs => simp at htuples
  | @cons s s' rest rest' hs _ ih =>
    cases compacted with
    | nil => simp at htuples
    | cons c cs =>
      simp only [List.map_cons, List.cons.injEq] at htuples
      refine .cons ?_ (ih cs htuples.2)
      rw [SlotKept, htuples.1]
      exact hs

theorem reclaimPage_allVisible {stampLsn : Nat} {rows : List (Nat × HeapTuple)}
    (h : reclaimPage stampLsn rows page = .ok page') : page'.allVisible = page.allVisible := by
  unfold reclaimPage at h
  split at h
  · cases h
    rfl
  · cases hdel : deleteSlots (rows.map Prod.fst) page with
    | error e =>
      rw [hdel] at h
      cases h
    | ok page₁ =>
      rw [hdel] at h
      cases h
      rw [(stampPage_fields _ _).2.2.2.2]
      show page₁.allVisible = _
      exact deleteSlots_allVisible hdel

/-- The page part of VACUUM, up to the `all_visible` bit. -/
theorem reclaimPage_kept {stampLsn : Nat} {oldestXmin : Nat} {rows : List (Nat × HeapTuple)}
    (hpage : page.HoldsRows) (hdead : deadRows tm oldestXmin page = .ok rows)
    (h : reclaimPage stampLsn rows page = .ok page') :
    PageKept (fun t => isTupleDead t.xmin t.xmax oldestXmin tm) page page' := by
  have hrows : rows = (slotRows 0 page.slots).filter
      fun r => isTupleDead r.2.xmin r.2.xmax oldestXmin tm := by
    unfold deadRows at hdead
    rw [liveRows_eq 0 page.slots hpage] at hdead
    cases hdead
    rfl
  unfold reclaimPage at h
  split at h
  · cases h
    exact .refl page
  · cases hdel : deleteSlots (rows.map Prod.fst) page with
    | error e =>
      rw [hdel] at h
      cases h
    | ok page₁ =>
      rw [hdel] at h
      cases h
      refine ((deleteSlots_kept (.refl page) (fun i hi t ht => ?_) hdel).compact).stamp _
      -- the slot was picked because of the row in it
      obtain ⟨⟨j, u⟩, hmem, rfl⟩ := List.mem_map.1 hi
      rw [hrows, List.mem_filter] at hmem
      obtain ⟨-, s, hs, hu⟩ := mem_slotRows hmem.1
      obtain ⟨s', hs', ht⟩ := getTuple_eq_some ht
      rw [Nat.sub_zero] at hs
      have hs' : page.slots[j]? = some s' := hs'
      rw [hs] at hs'
      cases hs'
      rw [Slot.row?, ht] at hu
      cases hu
      simpa using hmem.2

/-- The second half: nothing but the bit changes. -/
theorem markAllVisible_kept {oldestXmin stampLsn : Nat} (hpage : page.HoldsRows)
    (h : markAllVisible tm oldestXmin stampLsn page = .ok page') :
    page'.slots = page.slots ∧ page'.nextPageId = page.nextPageId ∧ page'.pageKind = page.pageKind ∧
      page'.pageId = page.pageId ∧
      (page'.allVisible → page.allVisible ∨ ∀ t ∈ page.rows, Settled tm t) := by
  unfold markAllVisible at h
  split at h
  · cases h
    exact ⟨rfl, rfl, rfl, rfl, Or.inl⟩
  · rw [liveRows_eq 0 page.slots hpage] at h
    have h : (if (slotRows 0 page.slots).all fun r => settledRow tm oldestXmin r.2 then
        .ok (if page.allVisible then page else stampPage (page.setAllVisible true) stampLsn)
      else .ok page : Except DbError Page) = .ok page' := h
    split at h
    · next hall =>
      cases h
      split
      · exact ⟨rfl, rfl, rfl, rfl, Or.inl⟩
      · obtain ⟨hnext, hkind, hid, hslots, -⟩ := stampPage_fields (page.setAllVisible true) stampLsn
        refine ⟨hslots, hnext, hkind, hid, fun _ => Or.inr fun t ht => ?_⟩
        rw [Page.rows, ← slotRows_snd 0] at ht
        obtain ⟨r, hr, rfl⟩ := List.mem_map.1 ht
        have hset := List.all_eq_true.1 hall r hr
        simp only [settledRow, decide_eq_true_eq] at hset
        exact ⟨hset.1, hset.2.2⟩
    · cases h
      exact ⟨rfl, rfl, rfl, rfl, Or.inl⟩

/-- An empty page has no rows. -/
theorem rows_of_isEmpty (h : page.isEmpty = true) : page.rows = [] := by
  rw [Page.rows, List.filterMap_eq_nil_iff]
  intro s hs
  have hnone := List.all_eq_true.1 h s hs
  rw [Slot.row?, Option.isNone_iff_eq_none.1 hnone]
  rfl

/-! ## The chain walk -/

/-- Dead versions may have left the tables, and emptied pages their chains. -/
structure Cleaned (dead : HeapTuple → Prop) (tables : List TableDef) (chain chain' : Nat → List Nat)
    (s s' : Ctx) : Prop where
  tm_eq : s'.tm = s.tm
  tx_eq : s'.tx = s.tx
  tables_eq : s'.catalog.tables = s.catalog.tables
  stored : Stored tables chain' s'.pool s'.tm
  rows : ∀ table ∈ tables, Reclaimed dead (s.pool.rowsOn (chain table.firstPageId))
    (s'.pool.rowsOn (chain' table.firstPageId))

variable {tables : List TableDef} {chain chain₁ chain₂ : Nat → List Nat} {s s₁ s₂ : Ctx}
  {table : TableDef}

namespace Cleaned

theorem refl (h : Stored tables chain s.pool s.tm) : Cleaned dead tables chain chain s s :=
  ⟨rfl, rfl, rfl, h, fun _ _ => .refl _⟩

theorem trans (h : Cleaned dead tables chain chain₁ s s₁)
    (h' : Cleaned dead tables chain₁ chain₂ s₁ s₂) : Cleaned dead tables chain chain₂ s s₂ :=
  ⟨h'.tm_eq.trans h.tm_eq, h'.tx_eq.trans h.tx_eq, h'.tables_eq.trans h.tables_eq, h'.stored,
    fun table htab => (h.rows table htab).trans (h'.rows table htab)⟩

/-- The versions are the same ones. -/
theorem of_rows {pool : BufferPool} (h : Stored tables chain₁ pool s.tm)
    (hrows : ∀ table ∈ tables, pool.rowsOn (chain₁ table.firstPageId) =
      s.pool.rowsOn (chain table.firstPageId)) :
    Cleaned dead tables chain chain₁ s { s with pool := pool } :=
  ⟨rfl, rfl, rfl, h, fun table htab => by
    show Reclaimed dead _ (pool.rowsOn _)
    rw [hrows table htab]
    exact .refl _⟩

end Cleaned

/-- An operation on the pool that leaves the tables alone. -/
theorem ends_onPool (dead : HeapTuple → Prop) {α : Type} {x : PoolM α} {Q : α → BufferPool → Prop}
    (h : Stored tables chain s.pool s.tm) (hx : Frames (heapFiles tables) chain x s.pool Q) :
    Ends (onPool x) s (fun a s' => (Cleaned dead tables chain chain s s' ∧
      Indexes (heapFiles tables) chain s.pool s'.pool) ∧ Q a s'.pool)
      fun s' => Cleaned dead tables chain chain s s' ∧
        Indexes (heapFiles tables) chain s.pool s'.pool := by
  have hends := hx h.heaps
  have hclean : ∀ pool, Indexes (heapFiles tables) chain s.pool pool →
      Cleaned dead tables chain chain s { s with pool := pool } := fun pool hidx =>
    .of_rows (h.indexes hidx).1 (h.indexes hidx).2
  unfold Ends at *
  unfold onPool
  cases hrun : x s.pool with
  | ok a pool =>
    rw [hrun] at hends
    exact ⟨⟨hclean pool hends.1, hends.1⟩, hends.2⟩
  | error e pool =>
    rw [hrun] at hends
    exact ⟨hclean pool hends, hends⟩

theorem ends_fetchPage {p : Nat} (h : p < s.pool.pageCount) {Q : Page → Ctx → Prop} {E : Ctx → Prop}
    (hQ : Q (s.pool.pages p) s) : Ends (onPool (fetchPage p)) s Q E := by
  unfold Ends onPool
  rw [fetchPage_lt h]
  exact hQ

theorem ends_liftX {α : Type} {x : Except DbError α} {Q : α → Ctx → Prop} {E : Ctx → Prop}
    (hQ : ∀ a, x = .ok a → Q a s) (hE : E s) : Ends (liftX x) s Q E := by
  unfold Ends liftX
  cases x with
  | ok a => exact hQ a rfl
  | error e => exact hE

/-- A page of a table is rewritten. -/
theorem Cleaned.writeHeap {q : Nat} (h : Stored tables chain s.pool s.tm) (htab : table ∈ tables)
    (hq : q ∈ chain table.firstPageId) (hkept : PageKept dead (s.pool.pages q) page)
    (hvis : page.allVisible → (s.pool.pages q).allVisible ∨ ∀ t ∈ page.rows, Settled s.tm t) :
    Cleaned dead tables chain chain s (s.writeHeap q page) ∧
      ∀ r, (s.writeHeap q page).pool.next r = s.pool.next r := by
  have hholds := h.heaps.rows _ (mem_heapFiles htab) q hq
  have hrec := hkept.reclaimed hholds
  have hstored : Stored tables chain (s.pool.set q page) s.tm := by
    refine h.write (h.heaps.change hkept.next hkept.kind hkept.id hkept.holdsRows)
      (fun hall t ht => hall t (hrec.sublist.subset ht)) fun hset hbit t ht => ?_
    rcases hvis hbit with hwas | hall
    · exact hset hwas t (hrec.sublist.subset ht)
    · exact hall t ht
  refine ⟨⟨rfl, rfl, rfl, hstored, fun table' htab' => ?_⟩, fun r => ?_⟩
  · show Reclaimed dead _ ((s.pool.set q page).rowsOn _)
    by_cases hq' : q ∈ chain table'.firstPageId
    · obtain ⟨front, back, hold, hnew⟩ := BufferPool.rowsOn_set (s := s.pool) page hq'
        (h.heaps.nodup _ (mem_heapFiles htab'))
      rw [hold, hnew]
      exact ((Reclaimed.refl front).append hrec).append (.refl back)
    · rw [BufferPool.rowsOn_set_ne hq']
      exact .refl _
  · show (s.pool.set q page).next r = _
    rw [Heaps.next_set]
    split
    · next hr => rw [hr]; exact hkept.next
    · rfl

/-- One page of the walk. -/
theorem ends_vacuumPage {env : VacuumEnv} {cur : Nat} (h : Stored tables chain s.pool s.tm)
    (htm : s.tm = env.tm) (htab : table ∈ tables) (hcur : cur ∈ chain table.firstPageId)
    (hdead : ∀ t, isTupleDead t.xmin t.xmax env.oldestXmin env.tm → dead t) :
    Ends (vacuumPage env cur (s.pool.pages cur)) s
      (fun r s' => (Cleaned dead tables chain chain s s' ∧ ∀ q, s'.pool.next q = s.pool.next q) ∧
        (r.2 = true → (s'.pool.pages cur).rows = []))
      fun s' => ∃ chain', Cleaned dead tables chain chain' s s' := by
  have hholds := h.heaps.rows _ (mem_heapFiles htab) cur hcur
  unfold vacuumPage
  refine Ends.bind (Q := fun rows s' => s' = s ∧ deadRows env.tm env.oldestXmin (s.pool.pages cur) = .ok rows)
    (ends_liftX (fun a ha => ⟨rfl, ha⟩) ⟨chain, .refl h⟩) ?_
  rintro rows s' ⟨hs', hrows⟩
  rw [hs']
  refine Ends.bind (Q := fun page' s' => s' = s ∧ reclaimPage env.stampLsn rows (s.pool.pages cur) = .ok page')
    (ends_liftX (fun a ha => ⟨rfl, ha⟩) ⟨chain, .refl h⟩) ?_
  rintro page' s' ⟨hs', hpage'⟩
  rw [hs']
  have hkept : PageKept dead (s.pool.pages cur) page' := by
    have hkept := reclaimPage_kept hholds hrows hpage'
    exact ⟨hkept.slots.imp fun _ _ => Or.imp_right (And.imp_right fun hall t ht => hdead t (hall t ht)),
      hkept.next, hkept.kind, hkept.id⟩
  obtain ⟨hclean₁, hnext₁⟩ := Cleaned.writeHeap h htab hcur hkept fun hbit =>
    Or.inl ((reclaimPage_allVisible hpage').symm.trans hbit)
  refine Ends.bind (Q := fun _ s' => s' = s.writeHeap cur page') rfl ?_
  rintro _ s' hs'
  rw [hs']
  set s₁ := s.writeHeap cur page' with hs₁
  have hself : s₁.pool.pages cur = page' := BufferPool.set_pages_self _ _ _
  refine Ends.bind (Q := fun page'' s' => s' = s₁ ∧
      markAllVisible env.tm env.oldestXmin env.stampLsn page' = .ok page'')
    (ends_liftX (fun a ha => ⟨rfl, ha⟩) ⟨chain, hclean₁⟩) ?_
  rintro page'' s' ⟨hs', hpage''⟩
  rw [hs']
  obtain ⟨hslots, hnext, hkind, hid, hvis⟩ := markAllVisible_kept (hkept.holdsRows hholds) hpage''
  have hrows'' : page''.rows = page'.rows := by
    unfold Page.rows
    rw [hslots]
  have hkept₂ : PageKept dead (s₁.pool.pages cur) page'' := by
    rw [hself]
    refine ⟨?_, hnext, hkind, hid⟩
    rw [hslots]
    exact (PageKept.refl page').slots
  obtain ⟨hclean₂, hnext₂⟩ := Cleaned.writeHeap hclean₁.stored htab hcur hkept₂ fun hbit => by
    rw [hself, hrows'', hclean₁.tm_eq, htm]
    exact hvis hbit
  refine Ends.bind (Q := fun _ s' => s' = s₁.writeHeap cur page'') rfl ?_
  rintro _ s' hs'
  rw [hs']
  refine ⟨⟨hclean₁.trans hclean₂, fun q => (hnext₂ q).trans (hnext₁ q)⟩, fun hempty => ?_⟩
  rw [show (s₁.writeHeap cur page'').pool.pages cur = page'' from BufferPool.set_pages_self _ _ _, hrows'']
  exact rows_of_isEmpty hempty

/-- An emptied page leaves its chain. -/
theorem stored_unlink {pool : BufferPool} {front back : List Nat} {prev cur : Nat}
    (h : Stored tables chain pool tm) (htab : table ∈ tables)
    (hchain : chain table.firstPageId = front ++ prev :: cur :: back)
    (hempty : (pool.pages cur).rows = []) (lsn : Nat) :
    let pool' : BufferPool :=
      { pool.set prev (stampPage ((pool.pages prev).setNextPageId (pool.next cur)) lsn) with
        freeList := cur :: pool.freeList }
    let chain' := Function.update chain table.firstPageId (front ++ prev :: back)
    Stored tables chain' pool' tm ∧ ∀ table' ∈ tables, pool'.rowsOn (chain' table'.firstPageId) =
      pool.rowsOn (chain table'.firstPageId) := by
  intro pool' chain'
  obtain ⟨hnext, hkind, -, hslots, hvis⟩ :=
    stampPage_fields ((pool.pages prev).setNextPageId (pool.next cur)) lsn
  have hf := mem_heapFiles htab
  have hprev : prev ∈ chain table.firstPageId := by simp [hchain]
  have hcur : cur ∈ chain table.firstPageId := by simp [hchain]
  have hheaps := h.heaps.unlink hf hchain hnext (hkind.trans (h.heaps.kind _ hf prev hprev)) (by
    unfold Page.HoldsRows
    rw [hslots]
    exact h.heaps.rows _ hf prev hprev)
  have hpage : ∀ q, (pool'.pages q).rows = (pool.pages q).rows ∧
      (pool'.pages q).allVisible = (pool.pages q).allVisible := fun q =>
    Heaps.pages_set (P := fun q' x => x.rows = (pool.pages q').rows ∧
      x.allVisible = (pool.pages q').allVisible)
      (fun _ => ⟨by unfold Page.rows; rw [hslots]; rfl, hvis⟩) ⟨rfl, rfl⟩
  have hrowsOn : ∀ ps, pool'.rowsOn ps = pool.rowsOn ps := fun ps =>
    BufferPool.rowsOn_congr fun q _ => (hpage q).1
  have hchains : ∀ f, pool.rowsOn (chain' f) = pool.rowsOn (chain f) ∧ ∀ q ∈ chain' f, q ∈ chain f := by
    intro f
    by_cases hff : f = table.firstPageId
    · subst hff
      rw [show chain' table.firstPageId = front ++ prev :: back from Function.update_self _ _ _, hchain]
      refine ⟨by simp [hempty], fun q hq => ?_⟩
      simp only [List.mem_append, List.mem_cons] at hq ⊢
      tauto
    · rw [show chain' f = chain f from Function.update_of_ne hff _ _]
      exact ⟨rfl, fun q hq => hq⟩
  have hrows : ∀ f, pool'.rowsOn (chain' f) = pool.rowsOn (chain f) := fun f =>
    (hrowsOn _).trans (hchains f).1
  refine ⟨⟨hheaps, h.user, fun table' htab' t ht => ?_, fun table' htab' q hq hbit t ht => ?_⟩,
    fun table' _ => hrows _⟩
  · rw [hrows] at ht
    exact h.ids table' htab' t ht
  · rw [(hpage q).2] at hbit
    rw [(hpage q).1] at ht
    exact h.settled table' htab' q ((hchains _).2 q hq) hbit t ht

theorem unlinkPage_eq (env : VacuumEnv) {prev : Nat} (cur next : Nat) (h : prev < s.pool.pageCount) :
    unlinkPage env prev cur next s = .ok () { s.writeHeap prev
        (stampPage ((s.pool.pages prev).setNextPageId next) env.stampLsn) with
      pool := { s.pool.set prev (stampPage ((s.pool.pages prev).setNextPageId next) env.stampLsn) with
        freeList := cur :: s.pool.freeList } } := by
  have hfetch : onPool (fetchPage prev) s = .ok (s.pool.pages prev) s := by
    unfold onPool
    rw [fetchPage_lt h]
  unfold unlinkPage
  rw [EStateM.bind_of_ok hfetch]
  rfl

/-- **The chain walk.** `kept` are the pages it has behind it and `rest` those it
still has to visit. -/
theorem ends_vacuumLoop (env : VacuumEnv) (indexes : List (IndexDef × DataType)) (htab : table ∈ tables)
    (hdead : ∀ t, isTupleDead t.xmin t.xmax env.oldestXmin env.tm → dead t) :
    ∀ (fuel : Nat) (prev : Option Nat) (cur : Nat) (s : Ctx) (chain : Nat → List Nat)
      (kept rest : List Nat), Stored tables chain s.pool s.tm → s.tm = env.tm →
      chain table.firstPageId = kept ++ rest → Links s.pool.next NO_NEXT_PAGE cur rest NO_NEXT_PAGE →
      prev = kept.getLast? →
        Ends (vacuumLoop env indexes fuel prev cur) s
          (fun _ s' => ∃ chain', Cleaned dead tables chain chain' s s')
          fun s' => ∃ chain', Cleaned dead tables chain chain' s s'
  | 0, _, _, _, chain, _, _, h, _, _, _, _ => ⟨chain, .refl h⟩
  | fuel + 1, prev, cur, s, chain, kept, rest, h, htm, hchain, hlinks, hprev => by
    unfold vacuumLoop
    refine Ends.bind (Q := fun s₀ s' => s₀ = s ∧ s' = s) ⟨rfl, rfl⟩ ?_
    rintro s₀ s' ⟨hs₀, hs'⟩
    rw [hs₀, hs']
    split
    · exact ⟨chain, .refl h⟩
    · next hcond =>
      cases rest with
      | nil => exact absurd (Or.inl hlinks) hcond
      | cons p rest =>
        obtain ⟨rfl, -, hlinks⟩ := hlinks
        have hcur : cur ∈ chain table.firstPageId := by simp [hchain]
        have hlt : cur < s.pool.pageCount := h.heaps.lt (mem_heapFiles htab) hcur
        refine Ends.bind (Q := fun page s' => page = s.pool.pages cur ∧ s' = s)
          (ends_fetchPage hlt ⟨rfl, rfl⟩) ?_
        rintro page s' ⟨hpage, hs'⟩
        rw [hs', hpage]
        dsimp only
        rw [if_neg (not_not.2 (h.heaps.kind _ (mem_heapFiles htab) cur hcur))]
        refine (ends_vacuumPage h htm htab hcur hdead).bind ?_
        rintro ⟨gone, becameEmpty⟩ s₁ ⟨⟨hclean, hnext⟩, hempty⟩
        -- the index entries of the dead rows
        have hindex : Ends (indexes.forM fun i => gone.forM fun r =>
            onPool (cleanEntry env.tm cur i.1 i.2 r)) s₁
            (fun _ s₂ => Cleaned dead tables chain chain s₁ s₂ ∧
              Indexes (heapFiles tables) chain s₁.pool s₂.pool)
            fun s₂ => Cleaned dead tables chain chain s₁ s₂ ∧
              Indexes (heapFiles tables) chain s₁.pool s₂.pool := by
          have hstart : Cleaned dead tables chain chain s₁ s₁ ∧
              Indexes (heapFiles tables) chain s₁.pool s₁.pool :=
            ⟨.refl hclean.stored, .refl hclean.stored.heaps⟩
          refine Ends.forM (I := fun s₂ => Cleaned dead tables chain chain s₁ s₂ ∧
            Indexes (heapFiles tables) chain s₁.pool s₂.pool) (fun i s₂ h₂ => ?_) _ _ hstart
          refine Ends.forM (I := fun s₂ => Cleaned dead tables chain chain s₁ s₂ ∧
            Indexes (heapFiles tables) chain s₁.pool s₂.pool) (fun r s₃ h₃ => ?_) _ _ h₂
          refine (ends_onPool dead h₃.1.stored (frames_cleanEntry (pgIndex_mem tables) env.tm
            cur i.1 i.2 r s₃.pool)).mono ?_ ?_
          · exact fun _ s₄ h₄ => ⟨h₃.1.trans h₄.1.1, h₃.2.trans h₄.1.2⟩
          · exact fun s₄ h₄ => ⟨h₃.1.trans h₄.1, h₃.2.trans h₄.2⟩
        dsimp only
        refine Ends.bind (hindex.mono (fun _ _ h => h)
          fun s₂ h₂ => ⟨chain, hclean.trans h₂.1⟩) ?_
        rintro _ s₂ ⟨hclean₂, hidx⟩
        have hall := hclean.trans hclean₂
        have hsame : ∀ q ∈ chain table.firstPageId, s₂.pool.pages q = s₁.pool.pages q :=
          hidx.same _ (mem_heapFiles htab) (h.user table htab)
        have hnext₂ : ∀ q ∈ chain table.firstPageId, s₂.pool.next q = s.pool.next q := fun q hq =>
          (congrArg Page.nextPageId (hsame q hq)).trans (hnext q)
        have hrest : ∀ q ∈ rest, q ∈ chain table.firstPageId := fun q hq => by simp [hchain, hq]
        have hlinks₂ : Links s₂.pool.next NO_NEXT_PAGE (s.pool.next cur) rest NO_NEXT_PAGE :=
          hlinks.congr fun q hq => hnext₂ q (hrest q hq)
        have hgo : Ends (vacuumLoop env indexes fuel (some cur) (s.pool.next cur)) s₂
            (fun _ s' => ∃ chain', Cleaned dead tables chain chain' s s')
            fun s' => ∃ chain', Cleaned dead tables chain chain' s s' := by
          refine (ends_vacuumLoop env indexes htab hdead fuel _ _ s₂ chain (kept ++ [cur]) rest hall.stored
            (hall.tm_eq.trans htm) (by simp [hchain]) hlinks₂ (by simp)).mono ?_ ?_
          · rintro _ s' ⟨chain', h'⟩
            exact ⟨chain', hall.trans h'⟩
          · rintro s' ⟨chain', h'⟩
            exact ⟨chain', hall.trans h'⟩
        split
        swap
        · exact hgo
        · -- the page is empty and has a predecessor, which is linked past it
          next prevPid =>
          obtain ⟨front, hkept⟩ := List.getLast?_eq_some_iff.1 hprev.symm
          have hchain' : chain table.firstPageId = front ++ prevPid :: cur :: rest := by
            rw [hchain, hkept]
            simp
          have hprevMem : prevPid ∈ chain table.firstPageId := by simp [hchain']
          have hnextCur : s₂.pool.next cur = s.pool.next cur := hnext₂ cur hcur
          have hgone : (s₂.pool.pages cur).rows = [] := by
            rw [hsame cur hcur]
            exact hempty rfl
          obtain ⟨hstored, hrows⟩ := stored_unlink hall.stored htab hchain' hgone env.stampLsn
          have hrun := unlinkPage_eq env cur (s₂.pool.next cur)
            (hall.stored.heaps.lt (mem_heapFiles htab) hprevMem)
          set s₃ : Ctx := { s₂.writeHeap prevPid (stampPage ((s₂.pool.pages prevPid).setNextPageId
            (s₂.pool.next cur)) env.stampLsn) with
            pool := { s₂.pool.set prevPid (stampPage ((s₂.pool.pages prevPid).setNextPageId
              (s₂.pool.next cur)) env.stampLsn) with freeList := cur :: s₂.pool.freeList } } with hs₃
          have hclean₃ : Cleaned dead tables chain _ s₂ s₃ := ⟨rfl, rfl, rfl, hstored, fun table' htab' => by
            rw [hrows table' htab']
            exact .refl _⟩
          have hnodup : (front ++ prevPid :: cur :: rest).Nodup :=
            hchain' ▸ h.heaps.nodup _ (mem_heapFiles htab)
          have hlinks₃ : Links s₃.pool.next NO_NEXT_PAGE (s.pool.next cur) rest NO_NEXT_PAGE := by
            refine hlinks₂.congr fun q hq => ?_
            show (s₂.pool.set prevPid _).next q = _
            rw [Heaps.next_set, if_neg]
            rintro rfl
            exact (List.nodup_cons.1 (List.nodup_append.1 hnodup).2.1).1 (List.mem_cons_of_mem _ hq)
          have hgo' := ends_vacuumLoop env indexes htab hdead fuel (some prevPid) (s.pool.next cur) s₃ _
            (front ++ [prevPid]) rest hstored (hall.tm_eq.trans htm)
            (by rw [Function.update_self]; simp) hlinks₃ (by simp)
          rw [show (s.pool.pages cur).nextPageId = s₂.pool.next cur from hnextCur.symm]
          refine Ends.bind (Q := fun _ s' => s' = s₃) (by unfold Ends; rw [hrun]) ?_
          rintro _ s' hs'
          rw [hs', hnextCur]
          refine hgo'.mono ?_ ?_
          · rintro _ s' ⟨chain', h'⟩
            exact ⟨chain', (hall.trans hclean₃).trans h'⟩
          · rintro s' ⟨chain', h'⟩
            exact ⟨chain', (hall.trans hclean₃).trans h'⟩

/-! ## The statement -/

/-- The memo of the catalog may be filled. -/
def MemoOnly (s s' : Ctx) : Prop :=
  ∃ list, s' = { s with catalog := { s.catalog with indexesByTable := list } }

theorem ends_indexesForTable (tableId : Nat) (s : Ctx) :
    Ends (indexesForTable tableId) s (fun _ => MemoOnly s) (MemoOnly s) := by
  have hrefl : MemoOnly s s := ⟨s.catalog.indexesByTable, rfl⟩
  unfold indexesForTable
  refine Ends.bind (Q := fun s₀ s' => s₀ = s ∧ s' = s) ⟨rfl, rfl⟩ ?_
  rintro s₀ s' ⟨hs₀, hs'⟩
  rw [hs₀, hs']
  split
  · exact hrefl
  · refine Ends.bind (Q := fun _ s' => s' = s) ?_ ?_
    · have hread := readOnly_onPool readOnly_allIndexes s
      unfold Ends
      cases hrun : onPool allIndexes s with
      | ok a s' =>
        rw [hrun] at hread
        exact hread
      | error e s' =>
        rw [hrun] at hread
        rw [show s' = s from hread]
        exact hrefl
    · rintro all s' hs'
      rw [hs']
      exact ⟨_, rfl⟩

theorem MemoOnly.cleaned (h : MemoOnly s s₁) (hs : Stored tables chain s.pool s.tm) :
    Cleaned dead tables chain chain s s₁ := by
  obtain ⟨list, rfl⟩ := h
  exact ⟨rfl, rfl, rfl, hs, fun _ _ => .refl _⟩

/-- VACUUM on one table. -/
theorem ends_vacuumOne {oldestXmin : Nat} (stampLsn tableId : Nat) (htabs : s.catalog.tables = tables)
    (h : Stored tables chain s.pool s.tm)
    (hdead : ∀ t, isTupleDead t.xmin t.xmax oldestXmin s.tm → dead t) :
    Ends (vacuumOne oldestXmin stampLsn tableId) s
      (fun _ s' => ∃ chain', Cleaned dead tables chain chain' s s')
      fun s' => ∃ chain', Cleaned dead tables chain chain' s s' := by
  unfold vacuumOne
  refine Ends.bind (Q := fun table s' => s' = s ∧ table ∈ tables) ?_ ?_
  · unfold tableById
    refine Ends.bind (Q := fun s₀ s' => s₀ = s ∧ s' = s) ⟨rfl, rfl⟩ ?_
    rintro s₀ s' ⟨hs₀, hs'⟩
    rw [hs₀, hs']
    split
    · next table hfind => exact ⟨rfl, htabs ▸ List.mem_of_find?_eq_some hfind⟩
    · exact ⟨chain, .refl h⟩
  · rintro table s' ⟨hs', htab⟩
    rw [hs']
    refine Ends.bind ((ends_indexesForTable tableId s).mono (fun _ _ h => h)
      fun s₁ hs₁ => ⟨chain, hs₁.cleaned h⟩) ?_
    intro indexes s₁ hs₁
    have hclean : Cleaned dead tables chain chain s s₁ := hs₁.cleaned h
    refine Ends.bind (Q := fun s₀ s' => s₀ = s₁ ∧ s' = s₁) ⟨rfl, rfl⟩ ?_
    rintro s₀ s' ⟨hs₀, hs'⟩
    rw [hs₀, hs']
    unfold vacuumTable
    refine Ends.bind (Q := fun _ s' => s' = s₁) (ends_liftX (fun _ _ => rfl) ⟨chain, hclean⟩) ?_
    rintro metas s' hs'
    rw [hs']
    refine Ends.bind (Q := fun _ s' => s' = s₁) rfl ?_
    rintro fuel s' hs'
    rw [hs']
    have hjudge : ∀ t, isTupleDead t.xmin t.xmax oldestXmin s₁.tm → dead t := by
      rw [hclean.tm_eq]
      exact hdead
    have hwalk := ends_vacuumLoop ⟨s₁.tm, oldestXmin, stampLsn⟩ metas htab hjudge fuel none table.firstPageId s₁ chain []
      (chain table.firstPageId) hclean.stored rfl rfl
      (hclean.stored.heaps.links _ (mem_heapFiles htab)) rfl
    refine hwalk.mono ?_ ?_
    · rintro _ s₂ ⟨chain', h₂⟩
      exact ⟨chain', hclean.trans h₂⟩
    · rintro s₂ ⟨chain', h₂⟩
      exact ⟨chain', hclean.trans h₂⟩

theorem ends_sweepOne (dead : HeapTuple → Prop) (stampLsn tableId : Nat) (h : Stored tables chain s.pool s.tm) :
    Ends (sweepOne stampLsn tableId) s (fun _ s' => Cleaned dead tables chain chain s s')
      fun s' => Cleaned dead tables chain chain s s' := by
  unfold sweepOne
  refine Ends.bind ((ends_indexesForTable tableId s).mono (fun _ _ h => h)
    fun s₁ hs₁ => hs₁.cleaned h) ?_
  intro indexes s₁ hs₁
  have hclean : Cleaned dead tables chain chain s s₁ := hs₁.cleaned h
  refine Ends.forM (I := fun s' => Cleaned dead tables chain chain s s') (fun idx s₂ h₂ => ?_) _ _ hclean
  refine (ends_onPool dead h₂.stored (frames_sweepEmptyLeaves stampLsn idx.rootPageId _)).mono ?_ ?_
  · exact fun _ s₃ h₃ => h₂.trans h₃.1.1
  · exact fun s₃ h₃ => h₂.trans h₃.1

/-- **VACUUM** keeps the tables in order and takes out dead versions only. -/
theorem Stored.performVacuum {chain : Nat → List Nat} (h : Stored tables chain s.pool s.tm)
    (htabs : s.catalog.tables = tables) (ids : List Nat) :
    ∃ chain', Stored tables chain' (performVacuum ids s).final.pool (performVacuum ids s).final.tm ∧
      (performVacuum ids s).final.catalog.tables = tables ∧ ∀ table ∈ tables,
        Reclaimed (fun t => isTupleDead t.xmin t.xmax s.tm.oldestActiveXmin s.tm)
          (s.pool.rowsOn (chain table.firstPageId))
          ((performVacuum ids s).final.pool.rowsOn (chain' table.firstPageId)) := by
  set dead : HeapTuple → Prop := fun t => isTupleDead t.xmin t.xmax s.tm.oldestActiveXmin s.tm with hdead
  have hsame : SameOutcomes s.tm (s.logged .begin).tm := sameOutcomes_updateLastLsn _ _ _
  have hbegin : Stored tables chain (s.logged .begin).pool (s.logged .begin).tm := h.sameOutcomes hsame
  have hjudge : ∀ s₁ : Ctx, s₁.tm = (s.logged .begin).tm → ∀ t : HeapTuple,
      isTupleDead t.xmin t.xmax s.tm.oldestActiveXmin s₁.tm → dead t := by
    intro s₁ hs₁ t ht
    rw [hs₁] at ht
    unfold isTupleDead at ht
    rw [hsame.status_eq, hsame.status_eq] at ht
    exact ht
  -- the loops over the tables
  have hbody : Ends (do
      ids.forM (vacuumOne s.tm.oldestActiveXmin s.wal.nextLsn)
      ids.forM (sweepOne s.wal.nextLsn)) (s.logged .begin)
      (fun _ s' => ∃ chain', Cleaned dead tables chain chain' (s.logged .begin) s')
      fun s' => ∃ chain', Cleaned dead tables chain chain' (s.logged .begin) s' := by
    refine Ends.bind (Ends.forM (I := fun s' => ∃ chain', Cleaned dead tables chain chain'
      (s.logged .begin) s') (fun id s₁ h₁ => ?_) _ _ ⟨chain, .refl hbegin⟩) fun _ s₁ h₁ => ?_
    · obtain ⟨chain₁, h₁⟩ := h₁
      refine (ends_vacuumOne s.wal.nextLsn id (h₁.tables_eq.trans htabs) h₁.stored
        (hjudge s₁ h₁.tm_eq)).mono ?_ ?_
      · rintro _ s₂ ⟨chain₂, h₂⟩
        exact ⟨chain₂, h₁.trans h₂⟩
      · rintro s₂ ⟨chain₂, h₂⟩
        exact ⟨chain₂, h₁.trans h₂⟩
    · refine Ends.forM (I := fun s' => ∃ chain', Cleaned dead tables chain chain' (s.logged .begin) s')
        (fun id s₂ h₂ => ?_) _ _ h₁
      obtain ⟨chain₂, h₂⟩ := h₂
      refine (ends_sweepOne dead s.wal.nextLsn id h₂.stored).mono ?_ ?_
      · exact fun _ s₃ h₃ => ⟨chain₂, h₂.trans h₃⟩
      · exact fun s₃ h₃ => ⟨chain₂, h₂.trans h₃⟩
  have hrun : Ccdb.performVacuum ids s = ((do
      ids.forM (vacuumOne s.tm.oldestActiveXmin s.wal.nextLsn)
      ids.forM (sweepOne s.wal.nextLsn)) >>= fun _ => do
      let _ ← logRecord .commit
      flushWal) (s.logged .begin) := by
    rw [bind_assoc]
    rfl
  rw [hrun]
  unfold Ends at hbody
  cases hres : (do
      ids.forM (vacuumOne s.tm.oldestActiveXmin s.wal.nextLsn)
      ids.forM (sweepOne s.wal.nextLsn) : ExecM PUnit) (s.logged .begin) with
  | ok a s₁ =>
    rw [hres] at hbody
    obtain ⟨chain', h'⟩ := hbody
    rw [EStateM.bind_of_ok hres]
    exact ⟨chain', h'.stored.sameOutcomes (sameOutcomes_updateLastLsn _ _ _),
      h'.tables_eq.trans htabs, h'.rows⟩
  | error e s₁ =>
    rw [hres] at hbody
    obtain ⟨chain', h'⟩ := hbody
    rw [EStateM.bind_of_error hres]
    exact ⟨chain', h'.stored, h'.tables_eq.trans htabs, h'.rows⟩

end Ccdb
