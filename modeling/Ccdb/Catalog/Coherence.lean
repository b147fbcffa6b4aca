import Ccdb.Lib.Runs
import Ccdb.Catalog.Ddl

/-!
# Ccdb — coherence of the catalog cache

Every statement either leaves the rows of the system tables alone or ends in
`invalidate`, with three exceptions: `update_index_root`, which every root split
of a DML statement or a VACUUM calls, DML that names a system table, and a DDL
statement that fails half-way.

Main results:

* `Stmt.steps` — the statements move along `Step`: lookups and catalog writes.
* `cache_coherent` — over runs without the exceptions the cache does not show.
* `cache_stale_after_root_split` — a root split leaves the old root cached.
-/

namespace Ccdb.PgCatalog

open Relation

/-! ## What a scan sees of the writes -/

/-- The row `scan_chain` takes from a slot. -/
def slotValues (s : Slot) : Option (List Value) :=
  match s.tuple with
  | some (.heap t) => notDeleted t
  | _ => none

theorem scanChain_eq (pages : List Page) :
    scanChain pages = (pages.flatMap Page.slots).filterMap slotValues := by
  have hpage : ∀ p : Page, (pageTuples p).filterMap notDeleted = p.slots.filterMap slotValues := by
    intro p
    unfold pageTuples
    rw [List.filterMap_filterMap]
    congr 1
    funext s
    unfold slotValues
    cases s.tuple with
    | none => rfl
    | some t => cases t <;> rfl
  unfold scanChain
  induction pages with
  | nil => rfl
  | cons p pages ih =>
    simp only [List.flatMap_cons, List.filterMap_append, hpage, ih]

theorem scanChain_append (a b : List Page) : scanChain (a ++ b) = scanChain a ++ scanChain b := by
  simp [scanChain_eq]

theorem scanChain_push {last page : Page} {t : HeapTuple} {slot : Nat} (ht : t.xmax = 0)
    (h : last.insert (.heap t) = .ok (slot, page)) :
    scanChain [page] = scanChain [last] ++ [t.values] := by
  obtain ⟨-, -, rfl⟩ := Page.insert_inv h
  simp [scanChain_eq, Page.push, slotValues, notDeleted, ht]

theorem placeLast_scan {pages pages' : List Page} {t : HeapTuple} (ht : t.xmax = 0)
    (h : placeLast pages t = some pages') : scanChain pages' = scanChain pages ++ [t.values] := by
  unfold placeLast at h
  split at h
  · cases h
  · next last hlast =>
    split at h
    · next slot page hins =>
      cases h
      have hpages : pages.dropLast ++ [last] = pages := by
        obtain ⟨init, rfl⟩ := List.getLast?_eq_some_iff.1 hlast
        rw [List.dropLast_concat]
      rw [scanChain_append, scanChain_push ht hins, ← List.append_assoc, ← scanChain_append, hpages]
    · cases h

theorem changeSlot_split {f : Slot → Option (HeapTuple × Slot)} {l l' : List Slot} {t : HeapTuple}
    (h : changeSlot f l = some (t, l')) :
    ∃ a s s' b, l = a ++ s :: b ∧ l' = a ++ s' :: b ∧ f s = some (t, s') ∧ ∀ x ∈ a, f x = none := by
  induction l generalizing l' with
  | nil => cases h
  | cons s rest ih =>
    rw [changeSlot] at h
    split at h
    · next t' s' hf =>
      cases h
      exact ⟨[], s, s', rest, rfl, rfl, hf, fun x hx => (List.not_mem_nil hx).elim⟩
    · next hs =>
      obtain ⟨r, hr, heq⟩ := Option.map_eq_some_iff.1 h
      cases heq
      obtain ⟨a, x, x', b, hl, hl', hf, ha⟩ := ih hr
      exact ⟨s :: a, x, x', b, by rw [hl]; rfl, by rw [hl']; rfl, hf, List.forall_mem_cons.2 ⟨hs, ha⟩⟩

theorem changeSlot_eq_none {f : Slot → Option (HeapTuple × Slot)} {l : List Slot} :
    changeSlot f l = none ↔ ∀ s ∈ l, f s = none := by
  induction l with
  | nil => simp [changeSlot]
  | cons s rest ih =>
    rw [changeSlot, List.forall_mem_cons, ← ih]
    cases f s with
    | none => simp
    | some r => simp

theorem changeFirst_split {f : Slot → Option (HeapTuple × Slot)} {pages pages' : List Page}
    {t : HeapTuple} (h : changeFirst f pages = some (t, pages')) :
    ∃ a s s' b, pages.flatMap Page.slots = a ++ s :: b ∧
      pages'.flatMap Page.slots = a ++ s' :: b ∧ f s = some (t, s') ∧ ∀ x ∈ a, f x = none := by
  induction pages generalizing pages' with
  | nil => cases h
  | cons p rest ih =>
    rw [changeFirst] at h
    split at h
    · next t' slots hs =>
      cases h
      obtain ⟨a, s, s', b, hl, hl', hf, ha⟩ := changeSlot_split hs
      exact ⟨a, s, s', b ++ rest.flatMap Page.slots, by simp [hl], by simp [hl'], hf, ha⟩
    · next hs =>
      obtain ⟨r, hr, heq⟩ := Option.map_eq_some_iff.1 h
      cases heq
      obtain ⟨a, s, s', b, hl, hl', hf, ha⟩ := ih hr
      refine ⟨p.slots ++ a, s, s', b, by simp [hl], by simp [hl'], hf, fun x hx => ?_⟩
      rcases List.mem_append.1 hx with hx | hx
      · exact changeSlot_eq_none.1 hs x hx
      · exact ha x hx

theorem changeFirst_eq_none {f : Slot → Option (HeapTuple × Slot)} {pages : List Page} :
    changeFirst f pages = none ↔ ∀ s ∈ pages.flatMap Page.slots, f s = none := by
  induction pages with
  | nil => simp [changeFirst]
  | cons p rest ih =>
    rw [changeFirst, List.flatMap_cons, List.forall_mem_append, ← ih, ← changeSlot_eq_none]
    cases changeSlot f p.slots with
    | none => simp
    | some r => simp

theorem liveMatch_eq_some {pred : List Value → Bool} {s : Slot} {t : HeapTuple}
    (h : liveMatch pred s = some t) :
    slotValues s = some t.values ∧ t.xmax = 0 ∧ pred t.values = true := by
  unfold liveMatch at h
  split at h
  · next t' hs =>
    split at h
    · next hcond =>
      cases h
      exact ⟨by simp [slotValues, hs, notDeleted, hcond.1], hcond.1, hcond.2⟩
    · cases h
  · cases h

/-- A tombstoned row leaves the scan, the others stay. -/
theorem changeFirst_scan {pred : List Value → Bool} {txn : Nat} (htxn : txn ≠ 0)
    {pages pages' : List Page} {t : HeapTuple}
    (h : changeFirst (fun s => (liveMatch pred s).map fun t =>
      (t, { s with tuple := some (.heap { t with xmax := txn }) })) pages = some (t, pages')) :
    ∃ a b, scanChain pages = a ++ t.values :: b ∧ scanChain pages' = a ++ b ∧
      pred t.values = true := by
  obtain ⟨a, s, s', b, hpages, hpages', hf, -⟩ := changeFirst_split h
  obtain ⟨t', hmatch, heq⟩ := Option.map_eq_some_iff.1 hf
  cases heq
  obtain ⟨hvals, -, hpred⟩ := liveMatch_eq_some hmatch
  refine ⟨a.filterMap slotValues, b.filterMap slotValues, ?_, ?_, hpred⟩
  · rw [scanChain_eq, hpages]
    simp [hvals]
  · rw [scanChain_eq, hpages']
    simp [slotValues, notDeleted, htxn]

theorem filterMap_sublist {α β γ : Type} {f : α → Option γ} {g : β → Option γ} {h : α → β}
    (hle : ∀ a, g (h a) = none ∨ g (h a) = f a) (l : List α) :
    ((l.map h).filterMap g).Sublist (l.filterMap f) := by
  induction l with
  | nil => exact List.Sublist.refl _
  | cons a l ih =>
    rw [List.map_cons, List.filterMap_cons, List.filterMap_cons]
    rcases hle a with heq | heq
    · rw [heq]
      cases f a with
      | none => exact ih
      | some c => exact ih.cons c
    · rw [heq]
      cases f a with
      | none => exact ih
      | some c => exact ih.cons_cons c

/-- Tombstones only take rows away. -/
theorem tombstonePages_slots (pred : List Value → Bool) (txn : Nat) (pages : List Page) :
    (pages.map (tombstonePage pred txn)).flatMap Page.slots =
      (pages.flatMap Page.slots).map fun s =>
        match liveMatch pred s with
        | some t => { s with tuple := some (.heap { t with xmax := txn }) }
        | none => s := by
  simp only [List.flatMap_map, List.map_flatMap]
  rfl

theorem tombstone_scan {pred : List Value → Bool} {txn : Nat} (htxn : txn ≠ 0)
    (pages : List Page) :
    (scanChain (pages.map (tombstonePage pred txn))).Sublist (scanChain pages) := by
  rw [scanChain_eq, scanChain_eq, tombstonePages_slots]
  refine filterMap_sublist (fun s => ?_) _
  cases hm : liveMatch pred s with
  | none => exact Or.inr rfl
  | some t => exact Or.inl (by simp [slotValues, notDeleted, htxn])

/-! ## Steps -/

/-- The chains scan alike. -/
def SameRows (st st' : State) : Prop := ∀ rel, scanChain (st'.chains rel) = scanChain (st.chains rel)

/-- A lookup, an allocation, `invalidate`: no row changes and the cache stays
right. -/
structure Quiet (st st' : State) : Prop where
  rows : SameRows st st'
  version : st'.version = st.version
  cache : CacheOk st → CacheOk st'

/-- A lookup or a write; `pg_class` stays well formed. -/
def Step (st st' : State) : Prop :=
  Quiet st st' ∨ st.version < st'.version ∧ (ClassOk st → ClassOk st')

variable {st st' : State} {t : HeapTuple} {pred : List Value → Bool}

namespace SameRows

theorem classRows (h : SameRows st st') : st'.classRows = st.classRows := by
  unfold State.classRows
  rw [h .pgClass]

theorem columnsFor (h : SameRows st st') (id : Int32) : st'.columnsFor id = st.columnsFor id := by
  unfold State.columnsFor
  rw [h .pgAttribute]

theorem loadTable (h : SameRows st st') (r : ClassRow) : st'.loadTable r = st.loadTable r := by
  unfold State.loadTable
  rw [h.columnsFor]

theorem indexesOf (h : SameRows st st') (id : Nat) : st'.indexesOf id = st.indexesOf id := by
  unfold State.indexesOf State.allIndexes
  rw [h .pgIndex]

theorem constraintsOf (h : SameRows st st') (id : Nat) :
    st'.constraintsOf id = st.constraintsOf id := by
  unfold State.constraintsOf State.allConstraints
  rw [h .pgConstraint]

theorem classOk (h : SameRows st st') (hc : ClassOk st) : ClassOk st' := by
  refine ⟨?_, ?_, ?_⟩
  · rw [h .pgClass]
    exact hc.decodes
  · rw [h.classRows]
    exact hc.ids
  · rw [h.classRows]
    exact hc.names

theorem cacheOk (h : SameRows st st') (hcache : st'.cache = st.cache) (hc : CacheOk st) :
    CacheOk st' := by
  refine ⟨fun id t ht => ?_, fun name id hn => ?_, fun id l hl => ?_, fun id l hl => ?_⟩
  · rw [hcache] at ht
    obtain ⟨r, hr, hid, hload⟩ := hc.tables id t ht
    exact ⟨r, by rwa [h.classRows], hid, by rwa [h.loadTable]⟩
  · rw [hcache] at hn
    obtain ⟨r, hr, hrest⟩ := hc.names name id hn
    exact ⟨r, by rwa [h.classRows], hrest⟩
  · rw [hcache] at hl
    rw [h.indexesOf]
    exact hc.indexes id l hl
  · rw [hcache] at hl
    rw [h.constraintsOf]
    exact hc.constraints id l hl

end SameRows

/-- What a run of steps keeps. -/
theorem steps_classOk (h : ReflTransGen Step st st') (hc : ClassOk st) : ClassOk st' := by
  refine h.invariant (fun s s' hstep hs => ?_) hc
  rcases hstep with hq | ⟨-, hw⟩
  · exact hq.rows.classOk hs
  · exact hw hs

/-- A run that has written nothing is made of lookups. -/
theorem steps_quiet (h : ReflTransGen Step st st') :
    st.version ≤ st'.version ∧ (st'.version = st.version → CacheOk st → CacheOk st') := by
  induction h with
  | refl => exact ⟨le_refl _, fun _ hc => hc⟩
  | tail _ hstep ih =>
    obtain ⟨hle, hkeep⟩ := ih
    rcases hstep with hq | ⟨hlt, -⟩
    · rw [hq.version]
      exact ⟨hle, fun heq hc => hq.cache (hkeep heq hc)⟩
    · exact ⟨by omega, fun heq => absurd heq (by omega)⟩

/-! ## Lookups -/

theorem cacheTable_quiet {r : ClassRow} {t : TableDef} (hr : r ∈ st.classRows)
    (hload : st.loadTable r = .ok t) : Quiet st (st.cacheTable t) := by
  refine ⟨fun _ => rfl, rfl, fun hc => ⟨fun id t' ht => ?_, fun name id hn => ?_, hc.indexes,
    hc.constraints⟩⟩
  · obtain ⟨hid, -⟩ := loadTable_fields hload
    have ht : Function.update st.cache.tablesById t.tableId (some t) id = some t' := ht
    by_cases heq : id = t.tableId
    · rw [heq, Function.update_self] at ht
      cases ht
      exact ⟨r, hr, by rw [heq, hid], hload⟩
    · rw [Function.update_of_ne heq] at ht
      exact hc.tables id t' ht
  · obtain ⟨hid, hname⟩ := loadTable_fields hload
    have hn : Function.update st.cache.nameToId t.name (some t.tableId) name = some id := hn
    by_cases heq : name = t.name
    · rw [heq, Function.update_self] at hn
      cases hn
      exact ⟨r, hr, hid.symm, by rw [heq, hname]⟩
    · rw [Function.update_of_ne heq] at hn
      exact hc.names name id hn

theorem findTable_quiet (name : String) :
    Guar Quiet (fun _ => True) (findTable name) fun _ _ => True :=
  guar_findTable cacheTable_quiet name

theorem tableById_quiet (id : Nat) :
    Guar Quiet (fun _ => True) (tableById id) fun _ _ => True :=
  guar_tableById cacheTable_quiet id

theorem indexesForTable_quiet (id : Nat) :
    Guar Quiet (fun _ => True) (indexesForTable id) fun _ _ => True := by
  refine Guar.ofStep (fun s _ => ?_) fun _ _ _ _ _ => trivial
  unfold indexesForTable
  cases s.cache.indexesByTable id with
  | some hit => exact Or.inl rfl
  | none =>
    refine Or.inr ⟨fun _ => rfl, rfl, fun hc => ⟨hc.tables, hc.names, fun id' l hl => ?_,
      hc.constraints⟩⟩
    have hl : Function.update s.cache.indexesByTable id (some (s.indexesOf id)) id' = some l := hl
    by_cases heq : id' = id
    · rw [heq, Function.update_self] at hl
      cases hl
      rw [heq]
      rfl
    · rw [Function.update_of_ne heq] at hl
      exact hc.indexes id' l hl

theorem constraintsForTable_quiet (id : Nat) :
    Guar Quiet (fun _ => True) (constraintsForTable id) fun _ _ => True := by
  refine Guar.ofStep (fun s _ => ?_) fun _ _ _ _ _ => trivial
  unfold constraintsForTable
  cases s.cache.constraintsByTable id with
  | some hit => exact Or.inl rfl
  | none =>
    refine Or.inr ⟨fun _ => rfl, rfl, fun hc => ⟨hc.tables, hc.names, hc.indexes,
      fun id' l hl => ?_⟩⟩
    have hl : Function.update s.cache.constraintsByTable id (some (s.constraintsOf id)) id' =
        some l := hl
    by_cases heq : id' = id
    · rw [heq, Function.update_self] at hl
      cases hl
      rw [heq]
      rfl
    · rw [Function.update_of_ne heq] at hl
      exact hc.constraints id' l hl

theorem invalidate_quiet :
    Guar Quiet (fun _ => True) invalidate fun _ st => st.cache = .empty := by
  refine Guar.ofStep (fun s _ => Or.inr ⟨fun _ => rfl, rfl, fun _ => ?_⟩) fun s _ s' _ h => ?_
  · refine ⟨fun _ _ h => ?_, fun _ _ h => ?_, fun _ _ h => ?_, fun _ _ h => ?_⟩ <;> cases h
  · cases h
    rfl

theorem newPage_quiet : Guar Quiet (fun _ => True) newPage fun _ _ => True := by
  refine Guar.ofStep (fun s _ => Or.inr ?_) fun _ _ _ _ _ => trivial
  have hrows : SameRows s (newPage s).final := fun _ => rfl
  exact ⟨hrows, rfl, hrows.cacheOk rfl⟩

theorem liftE_quiet {α : Type} {P : State → Prop} (x : Except DbError α) :
    Guar Quiet P (liftE x) fun a st => x = .ok a ∧ P st := by
  refine Guar.ofRead (fun s _ => ?_) fun s a hs h => ?_
  · cases x <;> rfl
  · cases x with
    | error e => cases h
    | ok b =>
      cases h
      exact ⟨rfl, hs⟩

/-! ## Writes -/

/-- The bytes a row takes on a page, slot entry included. -/
def rowSpace (values : List Value) : Nat :=
  MVCC_HEADER_SIZE + (serializeTuple values).length + SLOT_SIZE

/-- The last page of the chain, or a new one, takes that many bytes. -/
def State.hasRoom (st : State) (rel : Rel) (space : Nat) : Bool :=
  space ≤ ((st.chains rel).getLast?.map Page.freeSpace).getD 0 ∨ space ≤ PAGE_SIZE - HEADER_SIZE

theorem insert_heap_fits {p : Page} (h : rowSpace t.values ≤ p.freeSpace) :
    p.insert (.heap t) = .ok (p.tupleCount, p.push (.heap t)) :=
  Page.insert_eq_ok (by rw [PageTuple.len_heap]; exact h)

theorem insert_heap_full {p : Page} (h : ¬ rowSpace t.values ≤ p.freeSpace) :
    ∃ msg, p.insert (.heap t) = .error (.bail msg) :=
  Page.insert_eq_error (by rw [PageTuple.len_heap]; exact Nat.lt_of_not_le h)

theorem insertBytes_eq (rel : Rel) (t : HeapTuple) (st : State) :
    insertBytes rel t st = (match placeLast (st.chains rel) t with
      | some pages => modify fun st => st.setChain rel pages
      | none => do
        let pid ← newPage
        let (_, page) ← liftE (((Page.new pid).insert (.heap t)).mapError freshPageError)
        modify fun st => st.setChain rel (st.chains rel ++ [page]) : CatM Unit) st := rfl

/-- Where there is room, `insert_bytes` appends the row to what a scan sees. -/
theorem insertBytes_room {rel : Rel} {st : State} (ht : t.xmax = 0)
    (h : st.hasRoom rel (rowSpace t.values) = true) :
    ∃ pages n, st.allocs ≤ n ∧ scanChain pages = scanChain (st.chains rel) ++ [t.values] ∧
      insertBytes rel t st = .ok () ({ st with allocs := n }.setChain rel pages) := by
  rw [insertBytes_eq]
  cases hp : placeLast (st.chains rel) t with
  | some pages => exact ⟨pages, st.allocs, Nat.le_refl _, placeLast_scan ht hp, rfl⟩
  | none =>
    dsimp only
    rw [EStateM.bind_of_ok (x := newPage) rfl]
    -- the last page has refused the row, so it fits on an empty one
    have hnew : rowSpace t.values ≤ (Page.new (st.fresh st.allocs)).freeSpace := by
      rcases of_decide_eq_true h with hlast | hnew
      · unfold placeLast at hp
        cases hl : (st.chains rel).getLast? with
        | none =>
          rw [hl] at hlast
          exact absurd hlast (by simp [rowSpace, SLOT_SIZE])
        | some last =>
          rw [hl] at hp hlast
          simp only [insert_heap_fits (t := t) (p := last) hlast] at hp
          cases hp
      · exact hnew
    rw [insert_heap_fits hnew]
    refine ⟨_, st.allocs + 1, Nat.le_succ _, ?_, rfl⟩
    rw [scanChain_append, scanChain_push ht (insert_heap_fits hnew)]
    rfl

/-- Where there is none, it fails and has taken a page id. -/
theorem insertBytes_full {rel : Rel} {st : State} (h : st.hasRoom rel (rowSpace t.values) = false) :
    ∃ e, insertBytes rel t st = .error e { st with allocs := st.allocs + 1 } := by
  obtain ⟨hlast, hnew⟩ := not_or.1 (of_decide_eq_false h)
  have hp : placeLast (st.chains rel) t = none := by
    unfold placeLast
    cases hl : (st.chains rel).getLast? with
    | none => rfl
    | some last =>
      rw [hl] at hlast
      obtain ⟨msg, hins⟩ := insert_heap_full (t := t) (p := last) hlast
      simp only [hins]
  obtain ⟨msg, hins⟩ := insert_heap_full (t := t) (p := Page.new (st.fresh st.allocs)) hnew
  rw [insertBytes_eq, hp]
  dsimp only
  rw [EStateM.bind_of_ok (x := newPage) rfl, hins]
  exact ⟨_, rfl⟩

/-- `insert_bytes` appends the row to what a scan sees, or fails without a trace. -/
theorem insertBytes_cases (rel : Rel) (ht : t.xmax = 0) (st : State) :
    (∃ pages n, scanChain pages = scanChain (st.chains rel) ++ [t.values] ∧
      insertBytes rel t st = .ok () ({ st with allocs := n }.setChain rel pages)) ∨
    ∃ e n, insertBytes rel t st = .error e { st with allocs := n } := by
  cases h : st.hasRoom rel (rowSpace t.values) with
  | true =>
    obtain ⟨pages, n, -, hscan, hrun⟩ := insertBytes_room ht h
    exact Or.inl ⟨pages, n, hscan, hrun⟩
  | false =>
    obtain ⟨e, hrun⟩ := insertBytes_full h
    exact Or.inr ⟨e, _, hrun⟩

theorem insertBytes_steps (rel : Rel) {P : State → Prop} (ht : t.xmax = 0)
    (hP : ∀ st n pages, P st → scanChain pages = scanChain (st.chains rel) ++ [t.values] →
      ClassOk st → ClassOk ({ st with allocs := n }.setChain rel pages)) :
    Guar Step P (insertBytes rel t) fun _ _ => True := by
  refine Guar.ofStep (fun s hs => Or.inr ?_) fun _ _ _ _ _ => trivial
  rcases insertBytes_cases rel ht s with ⟨pages, n, hscan, hrun⟩ | ⟨e, n, hrun⟩
  · rw [hrun]
    exact Or.inr ⟨Nat.lt_succ_self _, hP s n pages hs hscan⟩
  · rw [hrun]
    have hrows : SameRows s { s with allocs := n } := fun _ => rfl
    exact Or.inl ⟨hrows, rfl, hrows.cacheOk rfl⟩

/-- A write to another system table leaves `pg_class` alone. -/
theorem ClassOk.setChain_other {rel : Rel} {pages : List Page} {n : Nat} (hrel : rel ≠ .pgClass)
    (h : ClassOk st) : ClassOk ({ st with allocs := n }.setChain rel pages) := by
  have hclass : ({ st with allocs := n }.setChain rel pages).chains .pgClass =
      st.chains .pgClass := Function.update_of_ne hrel.symm _ _
  refine ⟨?_, ?_, ?_⟩
  · rw [hclass]
    exact h.decodes
  · unfold State.classRows
    rw [hclass]
    exact h.ids
  · unfold State.classRows
    rw [hclass]
    exact h.names

theorem insertOther_steps {rel : Rel} (hrel : rel ≠ .pgClass) (ht : t.xmax = 0) :
    Guar Step (fun _ => True) (insertBytes rel t) fun _ _ => True :=
  insertBytes_steps _ ht fun _ _ _ _ _ hc => hc.setChain_other hrel

/-- The rows of `pg_class` after some of them were taken away. -/
theorem ClassOk.sublist {pages : List Page} {n : Nat} (h : ClassOk st)
    (hsub : (scanChain pages).Sublist (scanChain (st.chains .pgClass))) :
    ClassOk ({ st with allocs := n }.setChain .pgClass pages) := by
  have hclass : ({ st with allocs := n }.setChain .pgClass pages).chains .pgClass = pages := by
    simp [State.setChain]
  have hrows : ({ st with allocs := n }.setChain .pgClass pages).classRows.Sublist st.classRows := by
    unfold State.classRows
    rw [hclass]
    exact hsub.filterMap _
  refine ⟨?_, h.ids.sublist (hrows.map _), h.names.sublist (hrows.map _)⟩
  rw [hclass]
  exact fun vals hv => h.decodes vals (hsub.subset hv)

/-- A new row with an id and a name of its own. -/
theorem ClassOk.add {pages : List Page} {n : Nat} {vals : List Value} {r : ClassRow}
    (h : ClassOk st) (hscan : scanChain pages = scanChain (st.chains .pgClass) ++ [vals])
    (hr : decodeClass vals = some r) (hid : r.id ∉ st.classRows.map ClassRow.id)
    (hname : r.name ∉ st.classRows.map ClassRow.name) :
    ClassOk ({ st with allocs := n }.setChain .pgClass pages) := by
  have hclass : ({ st with allocs := n }.setChain .pgClass pages).chains .pgClass = pages := by
    simp [State.setChain]
  have hrows : ({ st with allocs := n }.setChain .pgClass pages).classRows = st.classRows ++ [r] := by
    unfold State.classRows
    rw [hclass, hscan, List.filterMap_append]
    simp [hr]
  refine ⟨?_, ?_, ?_⟩
  · rw [hclass, hscan]
    intro v hv
    rcases List.mem_append.1 hv with hv | hv
    · exact h.decodes v hv
    · rw [List.mem_singleton.1 hv, hr]
      rfl
  · rw [hrows, List.map_append]
    exact List.nodup_append.2 ⟨h.ids, List.nodup_singleton _, fun a ha b hb heq =>
      hid (by rw [← List.mem_singleton.1 hb, ← heq]; exact ha)⟩
  · rw [hrows, List.map_append]
    exact List.nodup_append.2 ⟨h.names, List.nodup_singleton _, fun a ha b hb heq =>
      hname (by rw [← List.mem_singleton.1 hb, ← heq]; exact ha)⟩

theorem tombstone_steps {rel : Rel} {txn : Nat} (htxn : txn ≠ 0) :
    Guar Step (fun _ => True) (tombstoneCatalogRows rel txn pred) fun _ _ => True := by
  refine Guar.ofStep (fun s _ => Or.inr (Or.inr ⟨Nat.lt_succ_self _, fun hc => ?_⟩))
    fun _ _ _ _ _ => trivial
  by_cases hrel : rel = .pgClass
  · subst hrel
    exact hc.sublist (n := s.allocs) (tombstone_scan htxn _)
  · exact hc.setChain_other (n := s.allocs) hrel

/-- Replacing the first page of a `pg_class` row keeps its id and its name. -/
theorem decodeClass_set {vals : List Value} {r : ClassRow} (h : decodeClass vals = some r)
    (page : Int32) : decodeClass (vals.set 2 (.int page)) = some { r with firstPage := page } := by
  unfold decodeClass at h
  split at h
  · cases h
    rfl
  · cases h

/-- The row a rewrite takes away leaves its id and its name free. -/
theorem ClassOk.removed {a b : List (List Value)} {vals : List Value} (h : ClassOk st)
    (hscan : scanChain (st.chains .pgClass) = a ++ vals :: b) :
    ∃ r, decodeClass vals = some r ∧
      r.id ∉ ((a ++ b).filterMap decodeClass).map ClassRow.id ∧
      r.name ∉ ((a ++ b).filterMap decodeClass).map ClassRow.name := by
  have hsome := h.decodes vals (by rw [hscan]; simp)
  obtain ⟨r, hr⟩ := Option.isSome_iff_exists.1 hsome
  have hperm : st.classRows.Perm (r :: (a ++ b).filterMap decodeClass) := by
    unfold State.classRows
    rw [hscan]
    rw [← List.filterMap_cons_some hr]
    exact List.perm_middle.filterMap decodeClass
  have hids := (hperm.map ClassRow.id).nodup_iff.1 h.ids
  have hnames := (hperm.map ClassRow.name).nodup_iff.1 h.names
  exact ⟨r, hr, (List.nodup_cons.1 hids).1, (List.nodup_cons.1 hnames).1⟩

theorem rewrite_steps {rel : Rel} {txn : Nat} {transform : List Value → List Value} (htxn : txn ≠ 0)
    (hclass : rel = .pgClass → ∃ page, transform = fun vals => vals.set 2 (.int page)) :
    Guar Step (fun st => ClassOk st) (rewriteCatalogRow rel txn pred transform)
      fun _ _ => True := by
  refine fun s hs => ⟨?_, fun _ _ _ => trivial⟩
  rw [rewriteCatalogRow_run]
  cases hc : changeFirst (fun s => (liveMatch pred s).map fun t =>
      (t, { s with tuple := some (.heap { t with xmax := txn }) })) (s.chains rel) with
  | none => exact ReflTransGen.refl
  | some r =>
    obtain ⟨t, pages⟩ := r
    dsimp only
    show ReflTransGen Step s (insertBytes rel _ (s.setChain rel pages)).final
    obtain ⟨a, b, hscan, hscan', -⟩ := changeFirst_scan htxn hc
    by_cases hrel : rel = .pgClass
    · subst hrel
      obtain ⟨page, rfl⟩ := hclass rfl
      obtain ⟨r, hr, hid, hname⟩ := hs.removed hscan
      have hrows : (s.setChain .pgClass pages).classRows = (a ++ b).filterMap decodeClass := by
        unfold State.classRows
        rw [← hscan']
        show (scanChain (Function.update s.chains .pgClass pages .pgClass)).filterMap _ = _
        rw [Function.update_self]
      have hok : ClassOk (s.setChain .pgClass pages) := by
        refine hs.sublist (n := s.allocs) ?_
        rw [hscan, hscan']
        exact (List.Sublist.refl a).append (List.sublist_cons_self _ _)
      refine ReflTransGen.head (Or.inr ⟨Nat.lt_succ_self _, fun _ => hok⟩) ?_
      refine (insertBytes_steps _ (P := fun st => st.classRows = (a ++ b).filterMap decodeClass) rfl
        (fun st n pages' hst hscan' hc => ?_)).steps hrows
      exact hc.add hscan' (decodeClass_set hr page) (by rw [hst]; exact hid)
        (by rw [hst]; exact hname)
    · refine ReflTransGen.head (Or.inr ⟨Nat.lt_succ_self _, fun h => ?_⟩)
        ((insertOther_steps hrel rfl).steps trivial)
      exact h.setChain_other (n := s.allocs) hrel

/-! ## Ids of new tables -/

theorem asI32_asUsize (n : Int32) : asI32 (asUsize n) = n := by
  apply Int32.toBitVec_inj.1
  apply BitVec.eq_of_toNat_eq
  have hwide : (asI32 (asUsize n)).toBitVec.toNat =
      (n.toBitVec.signExtend 64).toNat % 4294967296 := by
    simp [asI32, asUsize]
  rw [hwide, BitVec.toNat_signExtend]
  have hlt := n.toBitVec.isLt
  split <;> simp <;> omega

theorem lt_add_one {m : Int32} (h : m ≠ Int32.maxValue) : m < m + 1 := by
  rw [Int32.lt_iff_toInt_lt, Int32.toInt_add]
  have hlt := Int32.toInt_lt m
  have hle := Int32.le_toInt m
  have hne : m.toInt ≠ 2147483647 := fun heq => h (Int32.toInt_inj.1 heq)
  have hone : (1 : Int32).toInt = 1 := rfl
  rw [hone, Int.bmod_eq_of_le] <;> omega

/-- The fold of `maxId` from any start: an upper bound that is attained. -/
theorem foldl_max (ids : List Nat) (m : Int32) :
    let f := fun m id => if m ≤ asI32 id then asI32 id else m
    m ≤ ids.foldl f m ∧ (∀ id ∈ ids, asI32 id ≤ ids.foldl f m) ∧
      (ids.foldl f m = m ∨ ∃ id ∈ ids, asI32 id = ids.foldl f m) := by
  intro f
  induction ids generalizing m with
  | nil => exact ⟨Int32.le_refl m, fun _ h => absurd h List.not_mem_nil, Or.inl rfl⟩
  | cons id ids ih =>
    obtain ⟨hle, hall, hmem⟩ := ih (f m id)
    have hm : m ≤ f m id := by
      show m ≤ if m ≤ asI32 id then asI32 id else m
      split
      · assumption
      · exact Int32.le_refl m
    have hid : asI32 id ≤ f m id := by
      show asI32 id ≤ if m ≤ asI32 id then asI32 id else m
      split
      · exact Int32.le_refl _
      · next h => exact Int32.le_of_lt (Int32.not_le.1 h)
    refine ⟨Int32.le_trans hm hle, fun i hi => ?_, ?_⟩
    · rcases List.mem_cons.1 hi with rfl | hi
      · exact Int32.le_trans hid hle
      · exact hall i hi
    · rcases hmem with heq | ⟨i, hi, heq⟩
      · rw [List.foldl_cons, heq]
        show (if m ≤ asI32 id then asI32 id else m) = m ∨ _
        split
        · refine Or.inr ⟨id, List.mem_cons_self, ?_⟩
          show _ = if m ≤ asI32 id then asI32 id else m
          rw [if_pos (by assumption)]
        · exact Or.inl rfl
      · exact Or.inr ⟨i, List.mem_cons_of_mem id hi, heq⟩

theorem userTables_ids {tables : List TableDef} (h : st.userTables = .ok tables) :
    tables.map TableDef.tableId =
      (st.classRows.filter fun r => !State.isSystemId r.rawId).map ClassRow.id := by
  unfold State.userTables at h
  generalize st.classRows.filter (fun r => !State.isSystemId r.rawId) = rows at h
  induction rows generalizing tables with
  | nil =>
    cases h
    rfl
  | cons r rows ih =>
    rw [List.mapM_cons] at h
    cases hc : st.columnsFor r.rawId with
    | error e =>
      rw [hc] at h
      cases h
    | ok columns =>
      rw [hc] at h
      cases hrest : rows.mapM fun r => (do
          let columns ← st.columnsFor r.rawId
          .ok (⟨r.id, r.name, asPageId r.firstPage, columns⟩ : TableDef)) with
      | error e =>
        simp only [Bind.bind, Except.bind] at h hrest
        rw [hrest] at h
        cases h
      | ok ts =>
        have hts := ih hrest
        simp only [Bind.bind, Except.bind] at h hrest
        rw [hrest] at h
        cases h
        rw [List.map_cons, List.map_cons, hts]

/-- **The id of a new table is new**, unless the ids have run out. -/
theorem newTableId_fresh {tables : List TableDef} (h : st.userTables = .ok tables)
    (hmax : ∀ r ∈ st.classRows, r.rawId ≠ Int32.maxValue) :
    ∀ r ∈ st.classRows, r.rawId ≠ newTableId tables := by
  obtain ⟨-, hall, hmem⟩ := foldl_max (tables.map TableDef.tableId) (-1)
  have hids := userTables_ids h
  have hbound : maxId (tables.map TableDef.tableId) ≠ Int32.maxValue := by
    unfold maxId
    rcases hmem with heq | ⟨id, hid, heq⟩
    · rw [heq]
      decide
    · rw [hids] at hid
      obtain ⟨r, hr, rfl⟩ := List.mem_map.1 hid
      rw [← heq]
      show asI32 (asUsize r.rawId) ≠ _
      rw [asI32_asUsize]
      exact hmax r (List.mem_of_mem_filter hr)
  have hlt := lt_add_one hbound
  intro r hr heq
  by_cases hsys : State.isSystemId r.rawId = true
  · -- a system table has an id below 5
    have hnew : (5 : Int32) ≤ newTableId tables := by
      unfold newTableId
      dsimp only
      split
      · exact Int32.le_refl _
      · next h => exact Int32.le_of_lt (Int32.not_le.1 h)
    rw [← heq] at hnew
    simp only [State.isSystemId, decide_eq_true_eq] at hsys
    rcases hsys with h | h | h | h | h <;> rw [h] at hnew <;> exact absurd hnew (by decide)
  · have hin : r.id ∈ tables.map TableDef.tableId := by
      rw [hids]
      exact List.mem_map_of_mem (List.mem_filter.2 ⟨hr, by simpa using hsys⟩)
    have hle : r.rawId ≤ maxId (tables.map TableDef.tableId) := by
      have := hall r.id hin
      rwa [ClassRow.id, asI32_asUsize] at this
    have hnew : maxId (tables.map TableDef.tableId) + 1 ≤ newTableId tables := by
      unfold newTableId
      dsimp only
      split
      · assumption
      · exact Int32.le_refl _
    rw [← heq] at hnew
    exact Int32.lt_irrefl (Int32.lt_of_lt_of_le (Int32.lt_of_le_of_lt hle hlt) hnew)

/-! ## Statements -/

/-- A program that moves along `Step` from well-formed states to well-formed states. -/
abbrev Keeps {α : Type} (x : CatM α) : Prop := Guar Step ClassOk x fun _ => ClassOk

/-- A DDL program: where it returns, the cache is empty. -/
abbrev Clears (x : CatM Unit) : Prop := Guar Step ClassOk x fun _ st => st.cache = .empty

variable {α β : Type}

theorem keeps_of_steps {x : CatM α} (h : Guar Step ClassOk x fun _ _ => True) : Keeps x := by
  refine fun s hs => ⟨h.steps hs, fun a s' hx => ?_⟩
  have hsteps := h.steps hs
  rw [hx] at hsteps
  exact steps_classOk hsteps hs

theorem keeps_of_quiet {x : CatM α} (h : Guar Quiet (fun _ => True) x fun _ _ => True) :
    Keeps x :=
  keeps_of_steps ((h.mono fun _ _ => Or.inl).pre fun _ _ => trivial)

theorem clears_invalidate : Clears invalidate :=
  (invalidate_quiet.mono fun _ _ => Or.inl).pre fun _ _ => trivial

theorem Keeps.clears {x : CatM Unit} (h : Keeps x) : Clears (do x; invalidate) :=
  h.bind fun _ => clears_invalidate

theorem keeps_get : Keeps (get : CatM State) := Guar.get.post fun _ _ h => h.2

theorem keeps_liftE (x : Except DbError α) : Keeps (liftE x) :=
  ((liftE_quiet x).mono fun _ _ => Or.inl).post fun _ _ h => h.2

theorem keeps_insertOther {rel : Rel} (hrel : rel ≠ .pgClass) (ht : t.xmax = 0) :
    Keeps (insertBytes rel t) :=
  keeps_of_steps ((insertOther_steps hrel ht).pre fun _ _ => trivial)

theorem keeps_tombstone {rel : Rel} {txn : Nat} (htxn : txn ≠ 0) :
    Keeps (tombstoneCatalogRows rel txn pred) :=
  keeps_of_steps ((tombstone_steps htxn).pre fun _ _ => trivial)

theorem keeps_allocPages (n : Nat) : Keeps (allocPages n) := by
  induction n with
  | zero => exact keeps_of_quiet newPage_quiet
  | succ n ih => exact (keeps_of_quiet newPage_quiet).bind fun _ => ih

theorem clears_performCreateIndex (txn pages : Nat) (s : CreateIndexStmt) :
    Clears (performCreateIndex txn pages s) := by
  refine keeps_get.bind fun st => (keeps_of_quiet (tableById_quiet s.tableId)).bind fun r => ?_
  cases r with
  | none => exact Guar.throw
  | some t =>
    refine (keeps_allocPages pages).bind fun root => ?_
    exact (keeps_insertOther (by decide) rfl).bind fun _ => clears_invalidate

theorem keeps_resolveTables (ifExists : Bool) (names : List String) :
    Keeps (resolveTables ifExists names) := by
  induction names with
  | nil => exact Guar.ret
  | cons name names ih =>
    refine (keeps_of_quiet (findTable_quiet name)).bind fun r => ?_
    cases r with
    | some hit => exact ih.bind fun _ => Guar.ret
    | none =>
      cases ifExists with
      | true => exact ih
      | false => exact Guar.throw

theorem clears_performDropTable {txn : Nat} (htxn : txn ≠ 0) (ids : List Nat) :
    Clears (performDropTable txn ids) := by
  refine Keeps.clears (Guar.forM fun id _ => ?_)
  refine (keeps_tombstone htxn).bind fun _ => (keeps_tombstone htxn).bind fun _ => ?_
  exact keeps_tombstone htxn

theorem clears_performTruncate {txn : Nat} (htxn : txn ≠ 0) (ids : List Nat) :
    Clears (performTruncate txn ids) := by
  refine Keeps.clears (Guar.forM fun id _ => ?_)
  refine (keeps_of_quiet newPage_quiet).bind fun page => ?_
  refine (keeps_of_steps (rewrite_steps htxn fun _ => ⟨_, rfl⟩)).bind fun _ => ?_
  refine (keeps_of_quiet (indexesForTable_quiet id)).bind fun indexes => ?_
  refine Guar.forM fun idx _ => (keeps_of_quiet newPage_quiet).bind fun root => ?_
  exact keeps_of_steps (rewrite_steps htxn fun h => by cases h)

theorem clears_dropSequence {txn : Nat} (htxn : txn ≠ 0) (names : List String) (ifExists : Bool) :
    Clears (dropSequence txn names ifExists) := by
  refine keeps_get.bind fun st => (keeps_liftE _).bind fun ids => ?_
  exact Keeps.clears (Guar.forM fun id _ => keeps_tombstone htxn)

theorem keeps_analyzeCreateSequence (s : CreateSequenceStmt) : Keeps (analyzeCreateSequence s) := by
  refine keeps_get.bind fun st => Guar.ite (fun _ => Guar.throw) fun _ => ?_
  refine Guar.ite (fun _ => Guar.throw) fun _ => ?_
  exact Guar.ite (fun _ => Guar.throw) fun _ => Guar.ret

theorem clears_createSequence (txn : Nat) (s : AnalyzedSequence) :
    Clears (performCreateSequence txn s) := by
  refine keeps_get.bind fun st => (keeps_of_quiet newPage_quiet).bind fun page => ?_
  exact (keeps_insertOther (by decide) rfl).bind fun _ => clears_invalidate

theorem keeps_analyzeCreateIndex (name table column : String) (isUnique : Bool) :
    Keeps (analyzeCreateIndex name table column isUnique) := by
  refine (keeps_of_quiet (findTable_quiet table)).bind fun r => ?_
  cases r with
  | none => exact Guar.throw
  | some hit =>
    dsimp only
    split
    · exact Guar.throw
    · exact keeps_get.bind fun st => Guar.ite (fun _ => Guar.throw) fun _ => Guar.ret

/-! ## CREATE TABLE -/

/-- The name is free, and the ids have not run out. -/
def Free (name : String) (st : State) : Prop :=
  name ∉ st.classRows.map ClassRow.name ∧ ∀ r ∈ st.classRows, r.rawId ≠ Int32.maxValue

theorem Free.quiet {name : String} (s s' : State) (h : Quiet s s') (hs : Free name s) :
    Free name s' := by
  unfold Free
  rw [h.rows.classRows]
  exact hs

/-- A table that `find_table` does not find has no row. -/
theorem findTable_none {name : String} (h : findTable name st = .ok none st') :
    name ∉ st.classRows.map ClassRow.name ∧ st' = st := by
  rcases findTable_cases name st with ⟨_, -, hrun⟩ | ⟨-, ⟨_, -, hrun⟩ | ⟨hs, hrun⟩ | hload⟩
  · rw [hrun] at h
    cases h
  · rw [hrun] at h
    cases h
  · rw [hrun] at h
    cases h
    refine ⟨fun hmem => ?_, rfl⟩
    obtain ⟨r, hr, rfl⟩ := List.mem_map.1 hmem
    unfold State.scanByName at hs
    cases hf : st.classRows.find? fun x => x.name = r.name with
    | none =>
      have := List.find?_eq_none.1 hf r hr
      simp at this
    | some r' =>
      rw [hf] at hs
      cases hl : st.loadTable r' with
      | error e =>
        simp only [hl] at hs
        cases hs
      | ok t =>
        simp only [hl] at hs
        cases hs
  · obtain ⟨r, -, t, -, -, hrun⟩ := hload
    rw [hrun] at h
    cases h

theorem analyzeForeignKey_quiet (s : CreateTableStmt) (fk : ForeignKey) :
    Guar Quiet (fun _ => True) (analyzeForeignKey s fk) fun _ _ => True := by
  refine Guar.ite (fun _ => Guar.throw) fun _ => ?_
  refine (findTable_quiet fk.refTable).bind fun r => ?_
  cases r with
  | none => exact Guar.throw
  | some hit => exact Guar.ite (fun _ => Guar.throw) fun _ => Guar.ret

theorem analyzeCreateTable_free (s : CreateTableStmt) :
    Guar Quiet (fun st => ∀ r ∈ st.classRows, r.rawId ≠ Int32.maxValue) (analyzeCreateTable s)
      fun _ => Free s.table := by
  refine Guar.bind (Q := fun r st => r = none → Free s.table st) ?_ fun r => ?_
  · refine fun st hst => ⟨(findTable_quiet s.table).steps trivial, fun r st' hrun hr => ?_⟩
    subst hr
    obtain ⟨hout, rfl⟩ := findTable_none hrun
    exact ⟨hout, hst⟩
  · cases r with
    | some hit => exact Guar.throw
    | none =>
      refine ((liftE_quiet (primaryKeyColumn s)).pre fun _ h => h rfl).bind fun pk => ?_
      refine Guar.bind (Q := fun _ => Free s.table) ?_ fun _ => Guar.ret
      refine Guar.pre (P := Free s.table) (Guar.forM fun fk _ => ?_) fun _ h => h.2
      exact ((analyzeForeignKey_quiet s fk).frame Free.quiet).weaken (fun _ h => ⟨trivial, h⟩)
        fun _ _ h => h.2

theorem clears_createTableRows (txn pages : Nat) (s : CreateTableStmt) (pk : Option Nat)
    (tableId : Int32) : Clears (createTableRows txn pages s pk tableId) := by
  refine (Guar.forM fun c _ => keeps_insertOther (by decide) rfl).bind fun _ => ?_
  refine keeps_get.bind fun st => ?_
  refine (Guar.forM fun c _ => keeps_insertOther (by decide) rfl).bind fun _ => ?_
  refine (Guar.forM fun c _ => keeps_insertOther (by decide) rfl).bind fun _ => ?_
  refine Keeps.clears ?_
  cases pk with
  | none => exact Guar.ret
  | some col => exact keeps_of_steps ((clears_performCreateIndex _ _ _).post fun _ _ _ => trivial)

/-- The `pg_class` row of the new table, with its name still free. -/
theorem keeps_insertClass {txn : Nat} {name : String} {tableId page : Int32} :
    Guar Step (fun st => ClassOk st ∧ name ∉ st.classRows.map ClassRow.name ∧
        ∀ r ∈ st.classRows, r.rawId ≠ tableId)
      (insertBytes .pgClass (.mk' txn invalidTxnId [.int tableId, .varchar name, .int page]))
      fun _ => ClassOk := by
  have hsteps := insertBytes_steps .pgClass
    (t := .mk' txn invalidTxnId [.int tableId, .varchar name, .int page])
    (P := fun st => ClassOk st ∧ name ∉ st.classRows.map ClassRow.name ∧
      ∀ r ∈ st.classRows, r.rawId ≠ tableId) rfl ?_
  · refine fun s hs => ⟨hsteps.steps hs, fun a s' hx => ?_⟩
    have hrun := hsteps.steps hs
    rw [hx] at hrun
    exact steps_classOk hrun hs.1
  · rintro s n pages ⟨-, hname, hid⟩ hscan hc
    refine hc.add (r := ⟨tableId, name, page⟩) hscan rfl (fun hmem => ?_) hname
    obtain ⟨r, hr, heq⟩ := List.mem_map.1 hmem
    refine hid r hr ?_
    rw [← asI32_asUsize r.rawId, ← asI32_asUsize tableId]
    exact congrArg asI32 heq

theorem clears_createTable (txn pages : Nat) (s : CreateTableStmt) :
    Guar Step (fun st => ClassOk st ∧ ∀ r ∈ st.classRows, r.rawId ≠ Int32.maxValue)
      (do let pk ← analyzeCreateTable s; performCreateTable txn pages s pk)
      fun _ st => st.cache = .empty := by
  -- the analysis keeps what is known of `pg_class`
  have hanalysis := ((analyzeCreateTable_free s).frame (I := ClassOk)
    fun _ _ hq => hq.rows.classOk).mono fun s s' hs => (Or.inl hs : Step s s')
  refine (hanalysis.pre fun _ h => ⟨h.2, h.1⟩).bind fun pk => ?_
  refine Guar.get.bind fun st => ?_
  refine (((liftE_quiet st.userTables).mono fun s s' hs => (Or.inl hs : Step s s'))).bind fun tables => ?_
  -- the id is taken from the rows the new one is added to
  refine Guar.bind (Q := fun _ st => ClassOk st ∧ s.table ∉ st.classRows.map ClassRow.name ∧
    ∀ r ∈ st.classRows, r.rawId ≠ newTableId tables) ?_ fun page => ?_
  · refine (newPage_quiet.frame (I := fun st => ClassOk st ∧
      s.table ∉ st.classRows.map ClassRow.name ∧
      ∀ r ∈ st.classRows, r.rawId ≠ newTableId tables) ?_).mono (fun s s' hs => (Or.inl hs : Step s s'))
      |>.weaken ?_ fun _ _ h => h.2
    · rintro s₁ s₂ hq ⟨hc, hrest⟩
      rw [hq.rows.classRows]
      exact ⟨hq.rows.classOk hc, hrest⟩
    · rintro st' ⟨htables, rfl, ⟨hname, hmax⟩, hc⟩
      exact ⟨trivial, hc, hname, newTableId_fresh htables hmax⟩
  · exact keeps_insertClass.bind fun _ => clears_createTableRows txn pages s pk _

/-! ## DML and VACUUM -/

/-- No root was split. -/
def Op.keepsRoots : Op → Bool
  | .indexInsert _ grown => grown.isEmpty
  | _ => true

theorem op_quiet {op : Op} (h : op.keepsRoots = true) :
    Guar Quiet (fun _ => True) op.run fun _ _ => True := by
  cases op with
  | findTable name => exact (findTable_quiet name).bind fun _ => Guar.ret
  | tableById id => exact (tableById_quiet id).bind fun _ => Guar.ret
  | indexesForTable id => exact (indexesForTable_quiet id).bind fun _ => Guar.ret
  | constraintsForTable id => exact (constraintsForTable_quiet id).bind fun _ => Guar.ret
  | indexInsert tableId grown =>
    have hgrown : grown = [] := List.isEmpty_iff.1 h
    subst hgrown
    refine (indexesForTable_quiet tableId).bind fun indexes => ?_
    refine Guar.ite (fun _ => Guar.ret) fun _ => (tableById_quiet tableId).bind fun r => ?_
    cases r with
    | none => exact Guar.throw
    | some t =>
      refine Guar.forM fun idx _ => ?_
      have hroot : insertedRoot [] idx = idx.rootPageId := rfl
      rw [hroot, if_neg (by simp)]
      exact Guar.ret

theorem compactSlots_values (off : Nat) (slots : List Slot) :
    (Page.compactSlots off slots).1.filterMap slotValues = slots.filterMap slotValues := by
  induction slots generalizing off with
  | nil => rfl
  | cons s rest ih =>
    rw [Page.compactSlots]
    cases hs : s.tuple with
    | none =>
      have hnone : slotValues s = none := by simp [slotValues, hs]
      rw [List.filterMap_cons_none hnone]
      exact ih off
    | some t =>
      have hsame : slotValues ⟨off - t.len, some t⟩ = slotValues s := by simp [slotValues, hs]
      simp only [List.filterMap_cons, hsame, ih]

/-- VACUUM takes no row away that a scan sees. -/
theorem vacuumPage_values {dead : Nat → Nat → Bool} {p : Page}
    (h : ∀ t ∈ pageTuples p, t.xmax = 0 → dead t.xmin t.xmax = false) :
    (vacuumPage dead p).slots.filterMap slotValues = p.slots.filterMap slotValues := by
  unfold vacuumPage
  split
  · show (Page.compactSlots PAGE_SIZE (p.slots.map (reclaimSlot dead))).1.filterMap slotValues = _
    rw [compactSlots_values, List.filterMap_map]
    refine List.filterMap_congr fun s hs => ?_
    show slotValues (reclaimSlot dead s) = slotValues s
    unfold reclaimSlot
    split
    · next t ht =>
      split
      · next hdead =>
        -- a dead row has been deleted
        have hmem : t ∈ pageTuples p := List.mem_filterMap.2 ⟨s, hs, by simp [ht]⟩
        have hmax : t.xmax ≠ 0 := fun h0 => by
          rw [h t hmem h0] at hdead
          cases hdead
        simp [slotValues, ht, notDeleted, hmax]
      · rfl
    · rfl
  · rfl

theorem scanChain_filter (pages : List Page) :
    scanChain (pages.filter fun p => !p.isEmpty) = scanChain pages := by
  induction pages with
  | nil => rfl
  | cons p pages ih =>
    have hcons : ∀ q : List Page, scanChain (p :: q) = scanChain [p] ++ scanChain q :=
      fun q => scanChain_append [p] q
    cases he : p.isEmpty with
    | false => rw [List.filter_cons_of_pos (by simp [he]), hcons, hcons pages, ih]
    | true =>
      rw [List.filter_cons_of_neg (by simp [he]), hcons pages, ih]
      have hnil : scanChain [p] = [] := by
        rw [scanChain_eq, List.filterMap_eq_nil_iff]
        intro s hs
        have hs : s ∈ p.slots := by simpa using hs
        have hnone := List.all_eq_true.1 he s hs
        simp [slotValues, Option.isNone_iff_eq_none.1 hnone]
      rw [hnil, List.nil_append]

theorem vacuumChain_scan {dead : Nat → Nat → Bool} {pages : List Page}
    (h : ∀ t ∈ pages.flatMap pageTuples, t.xmax = 0 → dead t.xmin t.xmax = false) :
    scanChain (vacuumChain dead pages) = scanChain pages := by
  have hmap : scanChain (pages.map (vacuumPage dead)) = scanChain pages := by
    rw [scanChain_eq, scanChain_eq, List.flatMap_map]
    induction pages with
    | nil => rfl
    | cons p pages ih =>
      rw [List.flatMap_cons, List.flatMap_cons, List.filterMap_append, List.filterMap_append,
        vacuumPage_values fun t ht => h t (by simp [ht]), ih fun t ht => h t ?_]
      rw [List.flatMap_cons]
      exact List.mem_append_right _ ht
  rw [← hmap]
  unfold vacuumChain
  cases pages.map (vacuumPage dead) with
  | nil => rfl
  | cons head rest =>
    show scanChain ([head] ++ _) = scanChain ([head] ++ rest)
    rw [scanChain_append, scanChain_append, scanChain_filter]

/-! ## Runs -/

/-- A statement that fails has written no catalog row. -/
def FailsClean (st : State) (stmt : Stmt) : Prop :=
  match stmt.run st with
  | .ok _ _ => True
  | .error _ st' => st'.version = st.version

instance (st : State) (stmt : Stmt) : Decidable (FailsClean st stmt) := by
  unfold FailsClean
  split <;> infer_instance

/-- The state in which a statement is run is clear of the paths that write the
catalog and do not invalidate. -/
def Clear (st : State) : Stmt → Prop
  | .createTable txn pages s =>
    (∀ r ∈ st.classRows, r.rawId ≠ Int32.maxValue) ∧ FailsClean st (.createTable txn pages s)
  | .dml ops => ∀ op ∈ ops, op.keepsRoots = true
  | .direct _ _ writes => writes.isEmpty = true
  | .vacuum rel dead =>
    ∀ t ∈ (st.chains rel).flatMap pageTuples, t.xmax = 0 → dead t.xmin t.xmax = false
  | stmt => FailsClean st stmt

instance (st : State) (stmt : Stmt) : Decidable (Clear st stmt) := by
  cases stmt <;> unfold Clear <;> infer_instance

theorem cacheOk_of_empty (h : st.cache = .empty) : CacheOk st := by
  refine ⟨fun _ _ h' => ?_, fun _ _ h' => ?_, fun _ _ h' => ?_, fun _ _ h' => ?_⟩ <;>
    (rw [h] at h'; cases h')

/-- A DDL statement: the cache is empty at its end, or no row was written. -/
theorem ddl_step (stmt : Stmt) {P : State → Prop} (hguar : Guar Step P stmt.run
      fun _ st => st.cache = .empty) (hP : P st) (hclass : ClassOk st) (hcache : CacheOk st)
    (hclean : FailsClean st stmt) :
    ClassOk (stmt.run st).final ∧ CacheOk (stmt.run st).final := by
  have hsteps := hguar.steps hP
  refine ⟨steps_classOk hsteps hclass, ?_⟩
  unfold FailsClean at hclean
  cases hrun : stmt.run st with
  | ok a st' => exact cacheOk_of_empty (hguar.result hP hrun)
  | error e st' =>
    rw [hrun] at hsteps hclean
    exact (steps_quiet hsteps).2 hclean hcache

theorem dropIndex_step {txn : TxnId} {name : String} {ifExists : Bool} (hclass : ClassOk st)
    (hcache : CacheOk st) :
    ClassOk ((Stmt.dropIndex txn name ifExists).run st).final ∧
      CacheOk ((Stmt.dropIndex txn name ifExists).run st).final := by
  have hget : (Stmt.dropIndex txn name ifExists).run st = dropIndex txn name ifExists st := rfl
  rw [hget, dropIndex_run]
  cases st.findIndex name with
  | none => cases ifExists <;> exact ⟨hclass, hcache⟩
  | some idx =>
    have hclears : Clears (do tombstoneCatalogRows .pgIndex txn (hasId 0 idx.indexId); invalidate) :=
      Keeps.clears (keeps_tombstone txn.2)
    exact ⟨steps_classOk (hclears.steps hclass) hclass, cacheOk_of_empty rfl⟩

/-- **The step lemma.** -/
theorem step_ok {stmt : Stmt} (hclass : ClassOk st) (hcache : CacheOk st) (hclear : Clear st stmt)
    (hstep : st.step stmt = some st') : ClassOk st' ∧ CacheOk st' := by
  cases hstep
  cases stmt with
  | createTable txn pages s =>
    exact ddl_step (.createTable txn pages s) (clears_createTable _ _ s)
      ⟨hclass, hclear.1⟩ hclass hcache hclear.2
  | createIndex txn pages name table column isUnique =>
    exact ddl_step (.createIndex txn pages name table column isUnique)
      ((keeps_analyzeCreateIndex name table column isUnique).bind fun s =>
        clears_performCreateIndex _ _ s) hclass hclass hcache hclear
  | createSequence txn s =>
    exact ddl_step (.createSequence txn s)
      ((keeps_analyzeCreateSequence s).bind fun a => clears_createSequence _ a)
      hclass hclass hcache hclear
  | dropTable txn names ifExists =>
    exact ddl_step (.dropTable txn names ifExists)
      ((keeps_resolveTables ifExists names).bind fun ids => clears_performDropTable txn.2 ids)
      hclass hclass hcache hclear
  | dropIndex txn name ifExists => exact dropIndex_step hclass hcache
  | dropSequence txn names ifExists =>
    exact ddl_step (.dropSequence txn names ifExists)
      (clears_dropSequence txn.2 names ifExists) hclass hclass hcache hclear
  | truncate txn names =>
    exact ddl_step (.truncate txn names)
      ((keeps_resolveTables false names).bind fun ids => clears_performTruncate txn.2 ids)
      hclass hclass hcache hclear
  | dml ops =>
    have hquiet : Guar Quiet (fun _ => True) (ops.forM Op.run) fun _ _ => True :=
      Guar.forM fun op hop => op_quiet (hclear op hop)
    refine (hquiet.steps (s := st) trivial).invariant (I := fun s => ClassOk s ∧ CacheOk s) ?_
      ⟨hclass, hcache⟩
    exact fun _ _ hq h => ⟨hq.rows.classOk h.1, hq.cache h.2⟩
  | direct rel txn writes =>
    have hnil : writes = [] := List.isEmpty_iff.1 hclear
    subst hnil
    exact ⟨hclass, hcache⟩
  | vacuum rel dead =>
    have hrows : SameRows st { st with
        chains := Function.update st.chains rel (vacuumChain dead (st.chains rel)) } := by
      intro rel'
      by_cases hrel : rel' = rel
      · subst hrel
        show scanChain (Function.update st.chains rel' _ rel') = _
        rw [Function.update_self]
        exact vacuumChain_scan hclear
      · show scanChain (Function.update st.chains rel _ rel') = _
        rw [Function.update_of_ne hrel]
    exact ⟨hrows.classOk hclass, hrows.cacheOk rfl hcache⟩

/-- **The cache is coherent outside the exceptions.** From a well-formed catalog
with an empty cache, over every sequence of statements in which no DML or VACUUM
splits an index root, none writes a system table it names and no DDL statement
fails after it has written a catalog row, all four lookups return what they would
with an empty cache. -/
theorem cache_coherent (st : State) (stmts : List Stmt) (hclass : ClassOk st)
    (hempty : st.cache = .empty) (hrun : Follows State.step Clear st stmts) :
    Coherent (after State.step st stmts) := by
  have hinv := hrun.invariant (I := fun s => ClassOk s ∧ CacheOk s)
    (fun h hclear hstep => step_ok h.1 h.2 hclear hstep) ⟨hclass, cacheOk_of_empty hempty⟩
  exact hinv.2.coherent hinv.1

/-- A page of system rows. -/
def systemPage (pid : Nat) (rows : List (List Value)) : Page :=
  rows.foldl (fun p vals =>
    match p.insert (.heap (.mk' SYSTEM_TXN_ID invalidTxnId vals)) with
    | .ok (_, q) => q
    | .error _ => p) (.new pid)

/-- The columns of the system tables, as `bootstrap` lists them. -/
def systemColumns : List (Int32 × String × DataType) :=
  [(0, "table_id", .int), (0, "name", .varchar), (0, "first_page_id", .int),
    (1, "table_id", .int), (1, "column_name", .varchar), (1, "data_type", .int),
    (1, "nullable", .bool), (1, "ordinal_position", .int),
    (2, "index_id", .int), (2, "name", .varchar), (2, "table_id", .int), (2, "column_index", .int),
    (2, "root_page_id", .int),
    (3, "seq_id", .int), (3, "name", .varchar), (3, "seq_page_id", .int), (3, "increment", .int),
    (3, "start_value", .int), (3, "min_value", .int), (3, "max_value", .int),
    (4, "constraint_id", .int), (4, "name", .varchar), (4, "table_id", .int), (4, "contype", .int),
    (4, "definition", .varchar)]

/-- The position of a column among those of its table. -/
def ordinals : List (Int32 × String × DataType) → List (List Value) → List (List Value)
  | [], _ => []
  | (tid, name, dt) :: rest, seen =>
    let ord := (seen.filter fun r => r.head? = some (.int tid)).length
    let row := [.int tid, .varchar name, .int (datatypeToInt dt), .bool false, .int (asI32 ord),
      .varchar ""]
    row :: ordinals rest (row :: seen)

/-- The catalog `bootstrap` lays down, before the first statement. -/
def bootstrap : State where
  chains
    | .pgClass => [systemPage 0
        [[.int 0, .varchar "pg_class", .int 0], [.int 1, .varchar "pg_attribute", .int 1],
          [.int 2, .varchar "pg_index", .int 2], [.int 3, .varchar "pg_sequence", .int 3],
          [.int 4, .varchar "pg_constraint", .int 4]]]
    | .pgAttribute => [systemPage 1 (ordinals systemColumns [])]
    | .pgIndex => [.new 2]
    | .pgSequence => [.new 3]
    | .pgConstraint => [.new 4]
  cache := .empty
  fresh n := n + 5
  allocs := 0
  version := 0

theorem classOk_bootstrap : ClassOk bootstrap :=
  ⟨by decide +kernel, by decide +kernel, by decide +kernel⟩

/-- `CREATE TABLE t (k INT PRIMARY KEY)`. -/
def createT : Stmt :=
  .createTable 2 0 ⟨"t", [⟨"k", .int, false, none⟩], ["k"], [], []⟩

/-- DDL, DML and VACUUM on one table, and the DROP of it. -/
theorem cache_coherent_one_table : Coherent (after State.step bootstrap
    [createT, .dml [.findTable "t", .tableById 5, .indexInsert 5 []],
      .createIndex 3 0 "t_k" "t" "k" false, .truncate 4 ["t"],
      .dml [.findTable "t", .constraintsForTable 5, .indexInsert 5 []],
      .vacuum .pgClass fun _ xmax => xmax = 4, .dropTable 5 ["t"] false]) :=
  cache_coherent bootstrap _ classOk_bootstrap rfl (by decide +kernel)

/-- **A root split leaves the old root in the cache.** An INSERT whose tree splits
its root, page 6, records the new one, page 8, in `pg_index`; the next statement
still gets page 6 from `indexes_for_table`. -/
theorem cache_stale_after_root_split : ¬ ∀ (st : State) (stmts : List Stmt), ClassOk st →
    st.cache = .empty → Coherent (after State.step st stmts) := by
  intro h
  have hcoh := (h bootstrap [createT, .dml [.findTable "t", .indexInsert 5 [(0, 8)]]]
    classOk_bootstrap rfl).indexesForTable 5
  exact absurd hcoh (by decide +kernel)

end Ccdb.PgCatalog
