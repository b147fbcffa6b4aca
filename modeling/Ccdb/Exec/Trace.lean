import Ccdb.Exec.Execute
import Ccdb.Lib.Guarantee

/-!
# Ccdb — what DML does, step by step

Every INSERT, UPDATE and DELETE is a sequence of `Write` steps, each made
under one page guard, one call of the B+Tree or one append to the log. An
invariant is then shown for a `Write` step once, not for every statement.

Main results:

* `guar_performInsert`, `guar_performUpdate`, `guar_performDelete` — the
  statements, whether they return `Ok` or fail half-way, are `Write` steps.
-/

namespace Ccdb

open BTree (liftE pageFuel)
open Relation

/-! ## Steps -/

/-- The state after `log_record`. -/
def Ctx.logged (s : Ctx) (rt : WalRecordType) : Ctx :=
  { s with
    wal := (s.wal.append s.tx.id s.tx.lastLsn rt).2
    tx := { s.tx with lastLsn := s.wal.nextLsn }
    tm := s.tm.updateLastLsn s.tx.id s.wal.nextLsn }

/-- The deleters a transaction may overwrite: none, itself, or one that is not
committed. -/
def Overwritable (s : Ctx) (x : Nat) : Prop :=
  x = invalidTxnId ∨ x = s.tx.id ∨ s.tm.status x ≠ .committed

/-- A row whose deleter may be overwritten. -/
def Replaceable (s : Ctx) (rid : Rid) : Prop :=
  ∀ t, (s.pool.pages rid.1).getTuple rid.2 = some (.heap t) → Overwritable s t.xmax

/-- The row a statement of this transaction writes. -/
def Ctx.newRow (s : Ctx) (values : List Value) : HeapTuple := .mk' s.tx.id invalidTxnId values

/-- One step of a DML statement on the tables of the catalog. What the rows that ON
DELETE finds say about their deleters rests on the state of the tables, so `strict`
says whether that of a deleted row is asked about. -/
inductive Write (strict : Prop) (tables : List TableDef) : Ctx → Ctx → Prop
  /-- A row is appended to the last page of its table. -/
  | append {s : Ctx} {table : TableDef} {n last slot : Nat} {values : List Value} {page : Page}
      (htab : table ∈ tables) (htail : tailLoop n table.firstPageId s.pool = .ok last s.pool)
      (hins : (s.pool.pages last).insert (.heap (s.newRow values)) = .ok (slot, page)) :
      Write strict tables s ((s.logged (.insert (last, slot) (s.newRow values))).writeHeap last
        (page.setPageLsn s.wal.nextLsn))
  /-- The last page is full: the row starts a new page, which is then linked. -/
  | grow {s s₁ s₂ : Ctx} {table : TableDef} {n last p slot : Nat} {values : List Value} {page : Page}
      {pool : BufferPool} (htab : table ∈ tables)
      (htail : tailLoop n table.firstPageId s.pool = .ok last s.pool)
      (hnew : newPage s.pool = .ok p pool)
      (hs₁ : s₁ = { s with pool := pool }.writeHeap p (.new p))
      (hins : (Page.new p).insert (.heap (s.newRow values)) = .ok (slot, page))
      (hs₂ : s₂ = (s₁.logged (.insert (p, slot) (s.newRow values))).writeHeap p
        (page.setPageLsn s.wal.nextLsn)) :
      Write strict tables s (s₂.writeHeap last ((s₂.pool.pages last).setNextPageId p))
  /-- A page is allocated for a row that turns out to be larger than a page. -/
  | alloc {s : Ctx} {p : Nat} {pool : BufferPool} (hnew : newPage s.pool = .ok p pool) :
      Write strict tables s ({ s with pool := pool }.writeHeap p (.new p))
  /-- A row gets a deleter. -/
  | delete {s : Ctx} {rid : Rid} {page : Page} (hlt : rid.1 < s.pool.pageCount)
      (hfree : strict → Replaceable s rid)
      (hset : (s.pool.pages rid.1).setTupleXmax rid.2 s.tx.id = .ok page) :
      Write strict tables s ((s.logged (.delete rid s.tx.id)).writeHeap rid.1
        (page.setPageLsn s.wal.nextLsn))
  /-- A replaced version points at its successor. -/
  | forward {s : Ctx} {rid newRid : Rid} {page : Page} (hlt : rid.1 < s.pool.pageCount)
      (hset : (s.pool.pages rid.1).setTupleCtid rid.2 newRid = .ok page) :
      Write strict tables s (s.writeHeap rid.1 page)
  /-- An index entry is inserted, or the attempt fails half-way. -/
  | index {s : Ctx} (root : Nat) (key : Bytes) (rid : Rid) (ty : DataType) :
      Write strict tables s { s with pool := (BTree.insert root key rid ty s.pool).final }
  /-- The root that the last insertion returned goes to `pg_index`. -/
  | root {s : Ctx} (indexId : Nat) {root newRoot : Nat} {key : Bytes} {rid : Rid} {ty : DataType}
      {pool : BufferPool} (hroot : BTree.insert root key rid ty pool = .ok newRoot s.pool) :
      Write strict tables s { s with pool := (updateIndexRoot indexId newRoot s.pool).final }
  /-- The record of an index insertion. -/
  | note {s : Ctx} (indexId : Nat) (key : Bytes) (rid : Rid) :
      Write strict tables s (s.logged (.indexInsert indexId key rid))
  /-- The memo of the catalog is filled. -/
  | memo {s : Ctx} (list : List (Nat × List IndexDef)) :
      Write strict tables s { s with catalog := { s.catalog with indexesByTable := list } }
  /-- A row lock is taken. -/
  | lock {s : Ctx} (locks : List (Rid × Nat)) (held : List Rid) :
      Write strict tables s { s with locks := locks, tx := { s.tx with heldLocks := held } }
  /-- UPDATE and DELETE run under a snapshot of their own. -/
  | snap {s : Ctx} :
      Write strict tables s { s with tx := { s.tx with snapshot := some (s.tm.snapshot s.tx.id) } }

variable {strict : Prop} {tables : List TableDef} {s s' : Ctx} {table : TableDef} {id : Nat}

/-- A step leaves the identity of the transaction and the tables alone. -/
theorem Write.tx_eq (h : Write strict tables s s') :
    s'.tx.id = s.tx.id ∧ s'.tx.active = s.tx.active ∧ s'.catalog.tables = s.catalog.tables := by
  cases h with
  | grow htab htail hnew hs₁ hins hs₂ =>
    subst hs₁ hs₂
    exact ⟨rfl, rfl, rfl⟩
  | _ => exact ⟨rfl, rfl, rfl⟩

/-! ## Reading -/

theorem readOnly_fetchPage (p : Nat) : ReadOnly (fetchPage p) := by
  intro s
  unfold fetchPage
  split <;> rfl

theorem readOnly_liftE {α : Type} (x : Except DbError α) : ReadOnly (liftE x) := by
  intro s
  unfold liftE
  cases x <;> rfl

theorem readOnly_pageFuel : ReadOnly pageFuel := fun _ => rfl

theorem readOnly_entryFuel : ReadOnly entryFuel := fun _ => rfl

theorem readOnly_tailLoop : ∀ fuel last, ReadOnly (tailLoop fuel last)
  | 0, _ => .throw _
  | fuel + 1, last => (readOnly_fetchPage _).bind fun page => by
    split
    · exact .pure _
    · exact readOnly_tailLoop fuel _

theorem readOnly_chainLoop : ∀ fuel cur, ReadOnly (chainLoop fuel cur)
  | 0, _ => .throw _
  | fuel + 1, cur => ReadOnly.get.bind fun s => by
    split
    · exact .pure _
    · exact (readOnly_fetchPage _).bind fun page =>
        (readOnly_chainLoop fuel _).bind fun _ => .pure _

theorem readOnly_chainPages (first : Nat) : ReadOnly (chainPages first) :=
  readOnly_pageFuel.bind fun _ => readOnly_chainLoop _ _

theorem readOnly_visibleRows (first : Nat) (snap : Snapshot) (tm : TransactionManager) :
    ReadOnly (visibleRows first snap tm) :=
  (readOnly_chainPages first).bind fun _ => (readOnly_liftE _).bind fun _ => .pure _

theorem readOnly_fetchTuple (rid : Rid) : ReadOnly (fetchTuple rid) :=
  (readOnly_fetchPage _).bind fun page => by
    split
    · exact .pure _
    · exact (readOnly_liftE _).bind fun _ => .pure _

theorem readOnly_followChainVisible (snap : Snapshot) (tm : TransactionManager) :
    ∀ n rid, ReadOnly (followChainVisible snap tm n rid)
  | 0, _ => .pure _
  | n + 1, rid => (readOnly_fetchTuple rid).bind fun o => by
    split
    · exact .pure _
    · split
      · exact .pure _
      · split
        · exact .pure _
        · exact readOnly_followChainVisible snap tm n _

theorem readOnly_descendLoop (target : Bytes) (ty : DataType) :
    ∀ fuel cur, ReadOnly (BTree.descendLoop target ty fuel cur)
  | 0, _ => .throw _
  | fuel + 1, cur => (readOnly_fetchPage _).bind fun page => by
    split
    · exact .pure _
    · exact (readOnly_liftE _).bind fun _ => readOnly_descendLoop target ty fuel _
    · exact .throw _

theorem readOnly_descendToLeaf (root : Nat) (target : Bytes) (ty : DataType) :
    ReadOnly (BTree.descendToLeaf root target ty) :=
  readOnly_pageFuel.bind fun _ => readOnly_descendLoop _ _ _ _

theorem readOnly_lookupEq (root : Nat) (target : Bytes) (ty : DataType) :
    ReadOnly (BTree.lookupEq root target ty) :=
  (readOnly_descendToLeaf _ _ _).bind fun _ => (readOnly_fetchPage _).bind fun _ =>
    readOnly_liftE _

theorem readOnly_firstGeLoop (target : Bytes) (ty : DataType) :
    ∀ fuel p, ReadOnly (BTree.firstGeLoop target ty fuel p)
  | 0, _ => .throw _
  | fuel + 1, p => (readOnly_fetchPage _).bind fun page => (readOnly_liftE _).bind fun o => by
    split
    · exact .pure _
    · split
      · exact .pure _
      · exact readOnly_firstGeLoop target ty fuel _

theorem readOnly_firstGe (root : Nat) (target : Bytes) (ty : DataType) :
    ReadOnly (BTree.firstGe root target ty) :=
  (readOnly_descendToLeaf _ _ _).bind fun _ => readOnly_pageFuel.bind fun _ =>
    readOnly_firstGeLoop _ _ _ _

theorem readOnly_readAtLoop : ∀ fuel p slot, ReadOnly (BTree.readAtLoop fuel p slot)
  | 0, _, _ => .throw _
  | fuel + 1, p, slot => (readOnly_fetchPage _).bind fun page => by
    split
    · exact (readOnly_liftE _).bind fun _ => .pure _
    · split
      · exact .pure _
      · exact readOnly_readAtLoop fuel _ _

theorem readOnly_readAt (cursor : Rid) : ReadOnly (BTree.readAt cursor) :=
  readOnly_pageFuel.bind fun _ => readOnly_readAtLoop _ _ _

theorem readOnly_indexRowsLoop (pred : Option Predicate) (range : IndexRange) (ty : DataType)
    (snap : Snapshot) (tm : TransactionManager) :
    ∀ fuel c, ReadOnly (indexRowsLoop pred range ty snap tm fuel c)
  | 0, _ => .throw _
  | _ + 1, none => .pure _
  | fuel + 1, some c => (readOnly_readAt c).bind fun o => by
    split
    · exact .pure _
    · refine (readOnly_liftE _).bind fun past => ?_
      split
      · exact .pure _
      · refine (readOnly_followChainVisible _ _ _ _).bind fun v => ?_
        split
        · exact readOnly_indexRowsLoop pred range ty snap tm fuel _
        · exact (readOnly_liftE _).bind fun _ =>
            (readOnly_indexRowsLoop pred range ty snap tm fuel _).bind fun _ => .pure _

theorem readOnly_judgeAll (judge : HeapTuple → Verdict) : ∀ rids, ReadOnly (judgeAll judge rids)
  | [] => .pure _
  | rid :: rest => (readOnly_fetchTuple rid).bind fun o => by
    split
    · exact readOnly_judgeAll judge rest
    · split
      · exact readOnly_judgeAll judge rest
      · exact .pure _

theorem readOnly_allIndexes : ReadOnly allIndexes :=
  (readOnly_chainPages _).bind fun _ => (readOnly_liftE _).bind fun _ => .pure _

theorem readOnly_onPool {α : Type} {x : PoolM α} (h : ReadOnly x) : ReadOnly (onPool x) := by
  intro s
  have hs := h s.pool
  unfold Ccdb.onPool
  cases hrun : x s.pool with
  | ok a pool =>
    rw [hrun] at hs
    have hs : pool = s.pool := hs
    simp [hs]
  | error e pool =>
    rw [hrun] at hs
    have hs : pool = s.pool := hs
    simp [hs]

theorem readOnly_getCtx : ReadOnly getCtx := fun _ => rfl

theorem readOnly_liftX {α : Type} (x : Except DbError α) : ReadOnly (liftX x) := by
  intro s
  unfold liftX
  cases x <;> rfl

theorem readOnly_tableById (tableId : Nat) : ReadOnly (tableById tableId) :=
  readOnly_getCtx.bind fun s => by
    split
    · exact .pure _
    · exact .throw _

/-! ## Writing -/

theorem final_onPool {α : Type} (x : PoolM α) (s : Ctx) :
    (onPool x s).final = { s with pool := (x s.pool).final } := by
  unfold onPool
  cases x s.pool <;> rfl

theorem onPool_ok {α : Type} {x : PoolM α} {a : α} (h : onPool x s = .ok a s') :
    ∃ pool, x s.pool = .ok a pool ∧ s' = { s with pool := pool } := by
  unfold onPool at h
  cases hrun : x s.pool with
  | ok b pool =>
    rw [hrun] at h
    cases h
    exact ⟨pool, rfl, rfl⟩
  | error e pool =>
    rw [hrun] at h
    cases h

/-- The transaction the statement runs in and the tables it may touch. -/
def Runs (tables : List TableDef) (id : Nat) (s : Ctx) : Prop :=
  s.catalog.tables = tables ∧ s.tx.id = id

theorem Runs.write (s s' : Ctx) (h : Write strict tables s s') (hr : Runs tables id s) :
    Runs tables id s' :=
  ⟨h.tx_eq.2.2.trans hr.1, h.tx_eq.1.trans hr.2⟩

/-- A program of the transaction that makes `Write` steps only. -/
abbrev Writes (strict : Prop) (tables : List TableDef) (id : Nat) {α : Type} (x : ExecM α) : Prop :=
  Guar (Write strict tables) (Runs tables id) x fun _ => Runs tables id

/-- A step that keeps `Runs` and returns nothing of interest. -/
theorem guar_of_write {α : Type} {x : ExecM α}
    (h : ∀ s, Runs tables id s → (x s).final = s ∨ Write strict tables s (x s).final) :
    Writes strict tables id x := by
  refine Guar.ofStep h fun s a s' hs hx => ?_
  rcases h s hs with heq | hstep
  · have heq : s' = s := by simpa [hx] using heq
    exact heq ▸ hs
  · rw [hx] at hstep
    exact Runs.write _ _ hstep hs

/-- Taking a lock touches neither pages nor outcomes. -/
theorem guar_lockRow {P : Ctx → Prop} (rid : Rid)
    (hlock : ∀ s locks held, P s →
      P { s with locks := locks, tx := { s.tx with heldLocks := held } }) :
    Guar (Write strict tables) P (lockRow rid) fun _ => P := by
  intro s hs
  unfold lockRow
  split
  · exact ⟨.refl, fun a s' hx => by cases hx⟩
  · refine ⟨ReflTransGen.single (.lock _ _), fun a s' hx => ?_⟩
    cases hx
    exact hlock _ _ _ hs

theorem runs_lock (s : Ctx) (locks : List (Rid × Nat)) (held : List Rid) (h : Runs tables id s) :
    Runs tables id { s with locks := locks, tx := { s.tx with heldLocks := held } } := h

/-- Filling the memo touches neither pages nor outcomes. -/
theorem guar_indexesForTable {P : Ctx → Prop} (tableId : Nat)
    (hmemo : ∀ s list, P s →
      P { s with catalog := { s.catalog with indexesByTable := list } }) :
    Guar (Write strict tables) P (indexesForTable tableId) fun _ => P := by
  refine readOnly_getCtx.guar.bind fun s₀ => ?_
  split
  · exact Guar.pure fun s hs => hs.1
  · refine ((readOnly_onPool readOnly_allIndexes).guar.pre fun s hs => hs.1).bind fun all => ?_
    refine Guar.bind (Q := fun _ => P) (Guar.ofStep (fun s _ => Or.inr ?_) ?_) fun _ =>
      Guar.ret
    · exact .memo _
    · intro s a s' hs hx
      cases hx
      exact hmemo _ _ hs.1

theorem runs_memo (s : Ctx) (list : List (Nat × List IndexDef)) (h : Runs tables id s) :
    Runs tables id { s with catalog := { s.catalog with indexesByTable := list } } := h

theorem newHeapPage_cases (s : Ctx) :
    (∃ p pool, newPage s.pool = .ok p pool ∧
      newHeapPage s = .ok p ({ s with pool := pool }.writeHeap p (.new p))) ∨
    ∃ e, newHeapPage s = .error e s := by
  cases hnew : newPage s.pool with
  | ok p pool =>
    refine Or.inl ⟨p, pool, rfl, ?_⟩
    show EStateM.bind (onPool newPage) _ s = _
    simp only [EStateM.bind, onPool, hnew]
    rfl
  | error e pool =>
    have hpool := (newPage_error hnew).2
    refine Or.inr ⟨e, ?_⟩
    show EStateM.bind (onPool newPage) _ s = _
    simp only [EStateM.bind, onPool, hnew, hpool]

theorem fetchPage_ok {p : Nat} {pool pool' : BufferPool} {page : Page}
    (h : fetchPage p pool = .ok page pool') : p < pool.pageCount ∧ page = pool.pages p := by
  unfold fetchPage at h
  split at h
  · next hlt =>
    cases h
    exact ⟨hlt, rfl⟩
  · cases h

/-- A read of a page is over in the state it began in. -/
theorem fetchPage_bind {α : Type} {p : Nat} {pool pool' : BufferPool} {f : Page → PoolM α} {a : α}
    (h : (fetchPage p >>= f) pool = .ok a pool') :
    p < pool.pageCount ∧ f (pool.pages p) pool = .ok a pool' := by
  obtain ⟨page, pool₁, hfetch, hrun⟩ := EStateM.of_bind_ok h
  obtain rfl := (readOnly_fetchPage p).eq_of_ok hfetch
  obtain ⟨hlt, rfl⟩ := fetchPage_ok hfetch
  exact ⟨hlt, hrun⟩

theorem onPool_fetch_cases {α : Type} (p : Nat) (f : Page → ExecM α) (s : Ctx) :
    (p < s.pool.pageCount ∧ (onPool (fetchPage p) >>= f) s = f (s.pool.pages p) s) ∨
      ∃ e, (onPool (fetchPage p) >>= f) s = .error e s := by
  refine ((readOnly_onPool (readOnly_fetchPage p)).bind_cases f s).imp_left ?_
  rintro ⟨page, hpage, heq⟩
  obtain ⟨_, hpage, -⟩ := onPool_ok hpage
  obtain ⟨hlt, rfl⟩ := fetchPage_ok hpage
  exact ⟨hlt, heq⟩

theorem fetchPage_lt {p : Nat} {pool : BufferPool} (h : p < pool.pageCount) :
    fetchPage p pool = .ok (pool.pages p) pool := by
  simp [fetchPage, h]

theorem growChain_step {n last : Nat} (htab : table ∈ tables)
    (htail : tailLoop n table.firstPageId s.pool = .ok last s.pool)
    (hlast : last < s.pool.pageCount) (values : List Value) :
    (growChain last (s.newRow values) s).final = s ∨
      Write strict tables s (growChain last (s.newRow values) s).final := by
  unfold growChain
  rcases newHeapPage_cases s with ⟨p, pool, hnew, hrun⟩ | ⟨e, hrun⟩
  swap
  · exact Or.inl (by rw [EStateM.bind_of_error hrun]; rfl)
  right
  rw [EStateM.bind_of_ok hrun]
  set s₁ := { s with pool := pool }.writeHeap p (.new p) with hs₁
  have halloc : Write strict tables s s₁ := .alloc hnew
  rcases onPool_fetch_cases p _ s₁ with ⟨-, heq⟩ | ⟨e, heq⟩
  swap
  · rw [heq]
    exact halloc
  rw [heq]
  have hfresh : s₁.pool.pages p = .new p := BufferPool.set_pages_self _ _ _
  rw [hfresh]
  cases hins : (Page.new p).insert (.heap (s.newRow values)) with
  | error e => exact halloc
  | ok r =>
    obtain ⟨slot, page⟩ := r
    set s₂ := (s₁.logged (.insert (p, slot) (s.newRow values))).writeHeap p
      (page.setPageLsn s.wal.nextLsn) with hs₂
    have hgrown : s.pool.pageCount ≤ pool.pageCount := newPage_count_le hnew
    have hcount : last < s₂.pool.pageCount := lt_of_lt_of_le hlast hgrown
    have hfetch : onPool (fetchPage last) s₂ = .ok (s₂.pool.pages last) s₂ := by
      unfold onPool
      rw [fetchPage_lt hcount]
    have hplace : placeRow p (s.newRow values) slot page s₁ =
        .ok ((p, slot), s.wal.nextLsn, p) s₂ := rfl
    rw [EStateM.bind_of_ok (show liftX _ s₁ = .ok (slot, page) s₁ from rfl)]
    dsimp only
    rw [EStateM.bind_of_ok hplace, EStateM.bind_of_ok hfetch]
    exact .grow htab htail hnew hs₁ hins hs₂

/-- The row goes to the end of the table's chain. -/
theorem guar_insertBytesHinted (htab : table ∈ tables) (values : List Value) :
    Writes strict tables id (insertBytesHinted table.firstPageId (.mk' id invalidTxnId values) none) := by
  intro s hs
  have hrow : HeapTuple.mk' id invalidTxnId values = s.newRow values := by
    rw [Ctx.newRow, hs.2]
  rw [hrow]
  suffices hstep : (insertBytesHinted table.firstPageId (s.newRow values) none s).final = s ∨
      Write strict tables s (insertBytesHinted table.firstPageId (s.newRow values) none s).final by
    refine ⟨?_, fun a s' hx => ?_⟩
    · rcases hstep with heq | h
      · rw [heq]
      · exact ReflTransGen.single h
    · rcases hstep with heq | h
      · have heq : s' = s := by simpa [hx] using heq
        exact heq ▸ hs
      · rw [hx] at h
        exact Runs.write _ _ h hs
  unfold insertBytesHinted
  have htailRead : ReadOnly (onPool (do tailLoop (← pageFuel) table.firstPageId)) :=
    readOnly_onPool (readOnly_pageFuel.bind fun _ => readOnly_tailLoop _ _)
  rcases htailRead.bind_cases _ s with ⟨last, htail, heq⟩ | ⟨e, heq⟩
  · rw [Option.getD_none, heq]
    obtain ⟨pool, htail, hpool⟩ := onPool_ok htail
    have hpool : pool = s.pool := by
      have := congrArg Ctx.pool hpool
      exact this.symm
    subst hpool
    have htail : tailLoop (s.pool.pageCount + 1) table.firstPageId s.pool = .ok last s.pool := htail
    rcases onPool_fetch_cases last _ s with ⟨hlast, heq⟩ | ⟨e, heq⟩
    swap
    · exact Or.inl (by rw [heq]; rfl)
    rw [heq]
    cases hins : (s.pool.pages last).insert (.heap (s.newRow values)) with
    | ok r =>
      obtain ⟨slot, page'⟩ := r
      exact Or.inr (.append htab htail hins)
    | error e => exact growChain_step htab htail hlast values
  · exact Or.inl (by rw [Option.getD_none, heq]; rfl)

theorem guar_insertBytes (htab : table ∈ tables) (values : List Value) :
    Writes strict tables id (insertBytes table.firstPageId (.mk' id invalidTxnId values)) :=
  (guar_insertBytesHinted htab values).bind fun _ => Guar.ret

/-- A row of this transaction goes to the table and is locked. -/
theorem guar_addRow {α : Type} {Q : α → Ctx → Prop}
    (htab : table ∈ tables) (values : List Value) {f : Rid → ExecM α}
    (hf : ∀ rid, Guar (Write strict tables) (Runs tables id) (f rid) Q) :
    Guar (Write strict tables) (Runs tables id) (do
      let id := (← getCtx).tx.id
      let rid ← insertBytes table.firstPageId (.mk' id invalidTxnId values)
      lockRow rid
      f rid) Q := by
  refine readOnly_getCtx.guar.bind fun s₀ s hs => ?_
  have hid : s₀.tx.id = id := by
    have := hs.2
    cases this
    exact hs.1.2
  rw [hid]
  exact ((guar_insertBytes htab values).bind fun rid =>
    (guar_lockRow rid runs_lock).bind fun _ => hf rid) s hs.1

/-- A guarded delete. -/
theorem guar_markDeleted (rid : Rid) :
    Guar (Write strict tables) (fun s => Runs tables id s ∧ (strict → Replaceable s rid))
      (markDeleted rid) fun _ => Runs tables id := by
  suffices hstep : ∀ s, Runs tables id s ∧ (strict → Replaceable s rid) →
      (markDeleted rid s).final = s ∨ Write strict tables s (markDeleted rid s).final by
    refine Guar.ofStep hstep fun s a s' hs hx => ?_
    rcases hstep s hs with heq | h
    · have heq : s' = s := by simpa [hx] using heq
      exact heq ▸ hs.1
    · rw [hx] at h
      exact Runs.write _ _ h hs.1
  rintro s ⟨-, hfree⟩
  unfold markDeleted
  rw [EStateM.bind_of_ok (show getCtx s = .ok s s from rfl)]
  rcases onPool_fetch_cases rid.1 _ s with ⟨hlt, heq⟩ | ⟨e, heq⟩
  swap
  · exact Or.inl (by rw [heq]; rfl)
  rw [heq]
  cases hset : (s.pool.pages rid.1).setTupleXmax rid.2 s.tx.id with
  | error e => exact Or.inl rfl
  | ok page => exact Or.inr (.delete hlt hfree hset)

theorem guar_forwardRow (rid newRid : Rid) :
    Writes strict tables id (forwardRow rid newRid) := by
  refine guar_of_write fun s _ => ?_
  unfold forwardRow
  rcases onPool_fetch_cases rid.1 _ s with ⟨hlt, heq⟩ | ⟨e, heq⟩
  swap
  · exact Or.inl (by rw [heq]; rfl)
  rw [heq]
  cases hset : (s.pool.pages rid.1).setTupleCtid rid.2 newRid with
  | error e => exact Or.inl rfl
  | ok page => exact Or.inr (.forward hlt hset)

/-! ## Index maintenance -/

theorem readOnly_checkUniqueOrWait (idx : IndexDef) (key : Bytes) (ty : DataType) (own : Rid) :
    ReadOnly (checkUniqueOrWait idx key ty own) :=
  readOnly_getCtx.bind fun s => (readOnly_onPool (readOnly_lookupEq _ _ _)).bind fun c =>
    (readOnly_onPool (readOnly_judgeAll _ _)).bind fun o => by
      split
      · exact .pure _
      · exact .pure _
      · exact .throw _
      · exact .throw _

theorem guar_btreeInsert (root : Nat) (key : Bytes) (rid : Rid) (ty : DataType) :
    Guar (Write strict tables) (Runs tables id) (onPool (BTree.insert root key rid ty)) fun newRoot s =>
      Runs tables id s ∧ ∃ pool, BTree.insert root key rid ty pool = .ok newRoot s.pool := by
  refine Guar.ofStep (fun s _ => Or.inr ?_) fun s newRoot s' hs hx => ?_
  · rw [final_onPool]
    exact .index root key rid ty
  · obtain ⟨pool, hrun, rfl⟩ := onPool_ok hx
    exact ⟨hs, s.pool, hrun⟩

theorem guar_updateIndexRoot {id root newRoot : Nat} {key : Bytes} {rid : Rid} {ty : DataType}
    (indexId : Nat) :
    Guar (Write strict tables)
      (fun s => Runs tables id s ∧ ∃ pool, BTree.insert root key rid ty pool = .ok newRoot s.pool)
      (onPool (updateIndexRoot indexId newRoot)) fun _ => Runs tables id := by
  refine Guar.ofStep ?_ fun s a s' hs hx => ?_
  · rintro s ⟨-, pool, hroot⟩
    rw [final_onPool]
    exact Or.inr (.root indexId hroot)
  · obtain ⟨pool, -, rfl⟩ := onPool_ok hx
    exact hs.1

theorem guar_note (indexId : Nat) (key : Bytes) (rid : Rid) :
    Writes strict tables id (logRecord (.indexInsert indexId key rid)) :=
  guar_of_write fun _ _ => Or.inr (.note indexId key rid)

theorem guar_indexInsertOne (check : Bool) (table : TableDef) (values : List Value)
    (rid : Rid) (idx : IndexDef) :
    Writes strict tables id (indexInsertOne check table values rid idx) := by
  unfold indexInsertOne
  split
  · next v ty _ _ =>
    split
    · exact Guar.ret
    · -- the probe, the insertion, the new root and the record
      have hrest : Writes strict tables id (do
          let newRoot ← onPool (BTree.insert idx.rootPageId (BTree.encodeKey v) rid ty)
          if newRoot ≠ idx.rootPageId then onPool (updateIndexRoot idx.indexId newRoot)
          let _ ← logRecord (.indexInsert idx.indexId (BTree.encodeKey v) rid)
          return ()) := by
        refine (guar_btreeInsert _ _ _ _).bind fun newRoot => ?_
        have hnote := (@guar_note strict tables id idx.indexId (BTree.encodeKey v) rid).bind
          (R := fun _ => Runs tables id) (f := fun _ => pure ()) fun _ => Guar.ret
        split
        · exact (guar_updateIndexRoot idx.indexId).bind fun _ => hnote
        · exact hnote.pre fun _ h => h.1
      dsimp only
      split
      · exact (readOnly_checkUniqueOrWait _ _ _ _).keeps.bind fun _ => hrest
      · exact hrest
  · exact Guar.throw

theorem guar_indexInsertForRow (check : Bool) (table : TableDef) (values : List Value)
    (rid : Rid) : Writes strict tables id (indexInsertForRow check table values rid) :=
  (guar_indexesForTable _ runs_memo).bind fun _ =>
    Guar.forM fun idx _ => guar_indexInsertOne check table values rid idx

/-! ## Foreign keys -/

theorem readOnly_tableOr (cat : KeyCatalog) (tableId : Nat) (missing : String) :
    ReadOnly (cat.tableOr tableId missing) :=
  (readOnly_liftX _).bind fun o => by
    split
    · exact .pure _
    · exact .throw _

theorem readOnly_columnOr (t : TableDef) (name missing : String) :
    ReadOnly (columnOr t name missing) := by
  unfold columnOr
  split
  · exact .pure _
  · exact .throw _

theorem readOnly_anyTarget (snap : Snapshot) (tm : TransactionManager) (i : Nat) (target : Value) :
    ∀ rids, ReadOnly (anyTarget snap tm i target rids)
  | [] => .pure _
  | rid :: rest => (readOnly_fetchTuple rid).bind fun o => by
    split
    · exact readOnly_anyTarget snap tm i target rest
    · split
      · exact readOnly_anyTarget snap tm i target rest
      · refine (readOnly_liftE _).bind fun v => ?_
        split
        · exact .pure _
        · exact readOnly_anyTarget snap tm i target rest

theorem guar_fkTargetExists {P : Ctx → Prop} (cat : KeyCatalog) (snap : Snapshot) (refId : Nat)
    (refColumn : String) (target : Value)
    (hmemo : ∀ s list, P s → P { s with catalog := { s.catalog with indexesByTable := list } }) :
    Guar (Write strict tables) P (fkTargetExists cat snap refId refColumn target) fun _ => P := by
  refine (readOnly_tableOr _ _ _).keeps.bind fun table => ?_
  refine (readOnly_columnOr _ _ _).keeps.bind fun col => ?_
  refine (guar_indexesForTable _ hmemo).bind fun indexes => readOnly_getCtx.keeps.bind fun s => ?_
  split
  · split
    · exact Guar.throw
    · exact (readOnly_onPool ((readOnly_lookupEq _ _ _).bind fun _ =>
        readOnly_anyTarget _ _ _ _ _)).keeps
  · exact (readOnly_onPool (readOnly_visibleRows _ _ _)).keeps.bind fun all =>
      (readOnly_liftX _).keeps.bind fun rows => Guar.ret

/-- The check of a new row fills the memo at most. -/
theorem guar_enforceFkOnChildWrite {P : Ctx → Prop} (tableId : Nat) (values : List Value)
    (hmemo : ∀ s list, P s → P { s with catalog := { s.catalog with indexesByTable := list } }) :
    Guar (Write strict tables) P (enforceFkOnChildWrite tableId values) fun _ => P := by
  refine readOnly_getCtx.keeps.bind fun s => (readOnly_tableOr _ _ _).keeps.bind fun table => ?_
  split
  · exact Guar.throw
  · refine Guar.forM fun c _ => ?_
    unfold enforceFk
    split
    · exact Guar.ret
    · split
      · exact Guar.throw
      · refine (readOnly_columnOr _ _ _).keeps.bind fun col => (readOnly_liftX _).keeps.bind fun v => ?_
        split
        · exact Guar.ret
        · split
          · exact Guar.throw
          · refine (guar_fkTargetExists _ _ _ _ _ hmemo).bind fun found => ?_
            split
            · exact Guar.ret
            · exact Guar.throw

/-! ## INSERT -/

theorem fetchTuple_some {rid : Rid} {pool pool' : BufferPool} {page : Page} {t : HeapTuple}
    (h : fetchTuple rid pool = .ok (some (page, t)) pool') :
    page = pool.pages rid.1 ∧ (pool.pages rid.1).getTuple rid.2 = some (.heap t) := by
  unfold fetchTuple at h
  rcases (readOnly_fetchPage rid.1).bind_cases _ pool with ⟨q, hq, heq⟩ | ⟨e, heq⟩
  · rw [heq] at h
    obtain ⟨-, rfl⟩ := fetchPage_ok hq
    cases hget : (pool.pages rid.1).getTuple rid.2 with
    | none =>
      rw [hget] at h
      cases h
    | some raw =>
      rw [hget] at h
      cases raw with
      | heap u =>
        cases h
        exact ⟨rfl, rfl⟩
      | leaf => cases h
      | internal => cases h
  · rw [heq] at h
    cases h

theorem judgeAll_some {judge : HeapTuple → Verdict} {v : Verdict} {rid : Rid} {pool pool' : BufferPool} :
    ∀ {rids : List Rid}, judgeAll judge rids pool = .ok (some (rid, v)) pool' →
      ∃ t, (pool.pages rid.1).getTuple rid.2 = some (.heap t) ∧ judge t = v
  | [], h => by cases h
  | r :: rest, h => by
    unfold judgeAll at h
    rcases (readOnly_fetchTuple r).bind_cases _ pool with ⟨o, ho, heq⟩ | ⟨e, heq⟩
    · rw [heq] at h
      cases o with
      | none => exact judgeAll_some h
      | some pt =>
        obtain ⟨page, t⟩ := pt
        cases hv : judge t with
        | skip =>
          simp only [hv] at h
          exact judgeAll_some h
        | clash =>
          simp only [hv] at h
          cases h
          exact ⟨t, (fetchTuple_some ho).2, hv⟩
        | wait txn =>
          simp only [hv] at h
          cases h
          exact ⟨t, (fetchTuple_some ho).2, hv⟩
    · rw [heq] at h
      cases h

/-- A row that clashes has no deleter that counts. -/
theorem detectCandidate_clash {tm : TransactionManager} {self : Nat} {t : HeapTuple}
    (h : detectCandidate tm self t = .clash) :
    t.xmax = invalidTxnId ∨ tm.status t.xmax = .aborted := by
  unfold detectCandidate at h
  split at h
  · next hown => exact Or.inl hown.2
  · split at h
    · cases h
    · cases h
    · split at h
      · next h0 => exact Or.inl h0
      · split at h
        · cases h
        · split at h
          · cases h
          · next hs => exact Or.inr hs
          · cases h

/-- What is known when a conflict has been found: the row may be replaced. -/
theorem guar_detectLoop {P : Ctx → Prop} : ∀ keys,
    Guar (Write strict tables) P (detectLoop keys) fun o s =>
      P s ∧ ∀ idx rid, o = some (idx, rid) → Replaceable s rid
  | [] => Guar.pure fun s hs => ⟨hs, fun _ _ h => by cases h⟩
  | (idx, key, ty) :: rest => by
    refine readOnly_getCtx.guar.bind fun s₀ => ?_
    refine (readOnly_onPool (readOnly_lookupEq _ _ _)).guar.bind fun candidates => ?_
    refine (readOnly_onPool (readOnly_judgeAll _ _)).guar.bind fun o => ?_
    split
    · exact (guar_detectLoop rest).pre fun s hs => hs.1.1.1
    · exact (guar_detectLoop rest).pre fun s hs => hs.1.1.1
    · refine Guar.pure fun s hs => ⟨hs.1.1.1, fun _ _ h => ?_⟩
      obtain ⟨⟨⟨-, hctx⟩, -⟩, hjudge⟩ := hs
      cases hctx
      obtain ⟨pool, hjudge, -⟩ := onPool_ok hjudge
      obtain ⟨t, hget, hv⟩ := judgeAll_some hjudge
      cases h
      intro u hu
      rw [hget] at hu
      cases hu
      rcases detectCandidate_clash hv with h | h
      · exact Or.inl h
      · exact Or.inr (Or.inr (by rw [h]; decide))
    · exact Guar.throw

theorem guar_insertRow (htab : table ∈ tables) (stmt : InsertStmt)
    (values : List Value) : Writes strict tables id (insertRow stmt table values) := by
  refine (readOnly_liftX _).keeps.bind fun _ => ?_
  exact (guar_enforceFkOnChildWrite _ _ runs_memo).bind fun _ => guar_addRow htab values fun rid =>
    guar_indexInsertForRow true table values rid

theorem guar_onConflictDoUpdate (htab : table ∈ tables)
    (stmt : InsertStmt) (target : Rid) (assignments : List Assignment) (pred : Option Predicate) :
    Guar (Write strict tables) (fun s => Runs tables id s ∧ Replaceable s target)
      (onConflictDoUpdate stmt table target assignments pred) fun _ => Runs tables id := by
  refine (readOnly_onPool (readOnly_fetchTuple _)).keeps.bind fun o => ?_
  split
  · exact Guar.throw
  · refine (readOnly_liftX _).keeps.bind fun keep => ?_
    split
    · exact Guar.pure fun _ h => h.1
    · refine (readOnly_liftX _).keeps.bind fun newValues => ?_
      refine (readOnly_liftX _).keeps.bind fun _ => ?_
      refine (guar_lockRow target fun _ _ _ h => h).bind fun _ => ?_
      refine ((guar_markDeleted target).pre fun s hs => ⟨hs.1, fun _ => hs.2⟩).bind fun _ => ?_
      exact guar_addRow htab newValues fun rid =>
        (guar_indexInsertForRow true table newValues rid).bind fun _ => Guar.ret

theorem guar_insertStmtRow (htab : table ∈ tables)
    (stmt : InsertStmt) (row : Except DbError (List Value)) :
    Writes strict tables id (insertStmtRow stmt table row) := by
  refine (readOnly_liftX _).keeps.bind fun raw => ?_
  dsimp only
  split
  · exact (guar_insertRow htab stmt _).bind fun _ => Guar.ret
  · refine Guar.bind (Q := fun o s => Runs tables id s ∧
      ∀ idx rid, o = some (idx, rid) → Replaceable s rid)
      ((guar_indexesForTable _ runs_memo).bind fun _ => guar_detectLoop _) fun o => ?_
    split
    · exact ((guar_insertRow htab stmt _).bind fun _ => Guar.ret).pre fun _ h => h.1
    · split
      · exact Guar.pure fun _ h => h.1
      · exact ((guar_onConflictDoUpdate htab stmt _ _ _).pre fun s hs =>
          ⟨hs.1, hs.2 _ _ rfl⟩).bind fun _ => Guar.ret

theorem guar_insertRowsLoop (htab : table ∈ tables) (stmt : InsertStmt) : ∀ rows count,
    Writes strict tables id (insertRowsLoop stmt table rows count)
  | [], _ => Guar.ret
  | row :: rest, _ => (guar_insertStmtRow htab stmt row).bind fun _ =>
    guar_insertRowsLoop htab stmt rest _

theorem guar_tableById {id tableId : Nat} : Guar (Write strict tables) (Runs tables id) (tableById tableId)
    fun table s => Runs tables id s ∧ table ∈ tables := by
  refine readOnly_getCtx.guar.bind fun s₀ => ?_
  split
  · next t hfind =>
    refine Guar.pure fun s hs => ⟨hs.1, ?_⟩
    have hctx := hs.2
    cases hctx
    exact hs.1.1 ▸ List.mem_of_find?_eq_some hfind
  · exact Guar.throw

/-- **INSERT** is a sequence of writes. -/
theorem guar_performInsert (stmt : InsertStmt) :
    Writes strict tables id (performInsert stmt) := by
  refine guar_tableById.bind fun table s hs => ?_
  exact guar_insertRowsLoop hs.2 stmt _ _ s hs.1

/-! ## UPDATE and DELETE -/

theorem guar_matchingRows (table : TableDef) (pred : Option Predicate) (snap : Snapshot) :
    Writes strict tables id (matchingRows table pred snap) := by
  refine readOnly_getCtx.keeps.bind fun s₀ => ?_
  refine Guar.bind (Q := fun _ => Runs tables id) ?_ fun o => ?_
  · unfold findIndexablePredicate
    split
    · exact Guar.ret
    · exact (guar_indexesForTable _ runs_memo).bind fun _ => Guar.ret
  · split
    · refine (readOnly_onPool ?_).keeps
      exact (readOnly_firstGe _ _ _).bind fun _ => readOnly_entryFuel.bind fun _ =>
        readOnly_indexRowsLoop _ _ _ _ _ _ _
    · exact (readOnly_onPool (readOnly_visibleRows _ _ _)).keeps.bind fun _ =>
        (readOnly_liftX _).keeps

theorem guar_performSelect (stmt : SelectStmt) :
    Writes strict tables id (performSelect stmt) := by
  refine readOnly_getCtx.keeps.bind fun s => ?_
  split
  · exact Guar.throw
  · refine (ReadOnly.mapM readOnly_tableById _).keeps.bind fun defs => ?_
    split
    · exact (guar_matchingRows _ _ _).bind fun _ => (readOnly_liftX _).keeps
    · refine (readOnly_onPool (.mapM (fun _ => ?_) _)).keeps.bind fun _ => (readOnly_liftX _).keeps
      exact (readOnly_visibleRows _ _ _).bind fun _ => .pure _

theorem guar_freshSnapshot : Writes strict tables id freshSnapshot :=
  guar_of_write fun _ _ => Or.inr .snap

/-- A row that passed the recheck may be replaced. -/
theorem guar_recheckRow (rid : Rid) :
    Guar (Write strict tables) (Runs tables id) (recheckRow rid) fun r s =>
      Runs tables id s ∧ (r = .free → Replaceable s rid) := by
  refine readOnly_getCtx.guar.bind fun s₀ => ?_
  refine (readOnly_onPool (readOnly_fetchTuple rid)).guar.bind fun o => ?_
  split
  · exact Guar.pure fun s hs => ⟨hs.1.1, fun h => by cases h⟩
  · next page t =>
    -- what the recheck read is what is on the page now
    have hread : ∀ s, (Runs tables id s ∧ getCtx s = .ok s₀ s) ∧
        onPool (fetchTuple rid) s = .ok (some (page, t)) s →
        s₀ = s ∧ (s.pool.pages rid.1).getTuple rid.2 = some (.heap t) := by
      rintro s ⟨⟨-, hctx⟩, hfetch⟩
      obtain ⟨pool, hfetch, -⟩ := onPool_ok hfetch
      cases hctx
      exact ⟨rfl, (fetchTuple_some hfetch).2⟩
    split
    · next hxmax =>
      split
      · exact Guar.pure fun s hs => ⟨hs.1.1, fun h => by cases h⟩
      · next hstatus =>
        refine Guar.pure fun s hs => ⟨hs.1.1, fun _ u hu => ?_⟩
        obtain ⟨rfl, hget⟩ := hread s hs
        rw [hget] at hu
        cases hu
        exact Or.inr (Or.inr (by rw [hstatus]; decide))
      · exact Guar.throw
    · next hxmax =>
      refine Guar.pure fun s hs => ⟨hs.1.1, fun _ u hu => ?_⟩
      obtain ⟨rfl, hget⟩ := hread s hs
      rw [hget] at hu
      cases hu
      by_cases h0 : t.xmax = invalidTxnId
      · exact Or.inl h0
      · exact Or.inr (Or.inl (not_not.1 fun hne => hxmax ⟨h0, hne⟩))

/-- Catching the uniqueness error changes nothing about the steps made. -/
theorem guar_reindexRow (table : TableDef) (values : List Value) (rid : Rid) :
    Writes strict tables id (reindexRow table values rid) := by
  intro s hs
  have hind := @guar_indexInsertForRow strict tables id true table values rid s hs
  obtain ⟨hsteps, -⟩ := hind
  have hruns := hsteps.invariant Runs.write hs
  unfold reindexRow
  cases hrun : indexInsertForRow true table values rid s with
  | ok a s' =>
    rw [hrun] at hsteps hruns
    refine ⟨hsteps, fun b s'' hx => ?_⟩
    cases hx
    exact hruns
  | error e s' =>
    rw [hrun] at hsteps hruns
    dsimp only
    split
    · refine ⟨hsteps, fun b s'' hx => ?_⟩
      cases hx
      exact hruns
    · exact ⟨hsteps, fun b s'' hx => by cases hx⟩

theorem guar_replaceRow (htab : table ∈ tables) (stmt : UpdateStmt)
    (rid : Rid) (values : List Value) :
    Guar (Write strict tables) (fun s => Runs tables id s ∧ Replaceable s rid)
      (replaceRow stmt table rid values) fun _ => Runs tables id := by
  refine (readOnly_liftX _).keeps.bind fun newValues => ?_
  refine (readOnly_liftX _).keeps.bind fun _ => ?_
  refine (guar_enforceFkOnChildWrite _ _ fun _ _ h => h).bind fun _ => ?_
  refine (guar_indexesForTable _ fun _ _ h => h).bind fun indexes => ?_
  refine ((guar_markDeleted rid).pre fun s hs => ⟨hs.1, fun _ => hs.2⟩).bind fun _ => ?_
  refine guar_addRow htab newValues fun newRid => ?_
  split
  · exact guar_reindexRow table newValues newRid
  · exact (guar_forwardRow rid newRid).bind fun _ => Guar.ret

theorem guar_updateRow (htab : table ∈ tables) (stmt : UpdateStmt)
    (rid : Rid) (values : List Value) :
    Writes strict tables id (updateRow stmt table rid values) := by
  refine (guar_lockRow rid runs_lock).bind fun _ => (guar_recheckRow rid).bind fun r => ?_
  split
  · exact Guar.pure fun _ h => h.1
  · exact Guar.pure fun _ h => h.1
  · exact (guar_replaceRow htab stmt rid values).pre fun s hs => ⟨hs.1, hs.2 rfl⟩

theorem guar_deleteRow (rid : Rid) : Writes strict tables id (deleteRow rid) := by
  refine (guar_lockRow rid runs_lock).bind fun _ => (guar_recheckRow rid).bind fun r => ?_
  split
  · exact Guar.pure fun _ h => h.1
  · exact Guar.pure fun _ h => h.1
  · exact ((guar_markDeleted rid).pre fun s hs => ⟨hs.1, fun _ => hs.2 rfl⟩).bind fun _ => Guar.ret

theorem guar_rowLoop {P : Ctx → Prop} {step : Rid → List Value → ExecM RowStep}
    (hstep : ∀ rid values, Guar (Write strict tables) P (step rid values) fun _ => P) : ∀ rows count,
    Guar (Write strict tables) P (rowLoop step rows count) fun _ => P
  | [], _ => Guar.ret
  | (rid, values) :: rest, count => (hstep rid values).bind fun r => by
    split
    · exact guar_rowLoop hstep rest _
    · exact guar_rowLoop hstep rest _
    · exact Guar.ret

/-- `P` holds between the attempts, and `P'` inside one. -/
theorem guar_retryLoop {P P' : Ctx → Prop} {step : Rid → List Value → ExecM RowStep}
    (name : String) (table : TableDef) (pred : Option Predicate)
    (hfresh : Guar (Write strict tables) P freshSnapshot fun _ => P')
    (hP : ∀ s, P' s → P s) (hwrite : ∀ s s', Write strict tables s s' → P' s → P' s')
    (hruns : ∀ s, P' s → Runs tables id s)
    (hstep : ∀ rid values, Guar (Write strict tables) P' (step rid values) fun _ => P') : ∀ n,
    Guar (Write strict tables) P (retryLoop name table pred step n) fun _ => P
  | 0 => Guar.throw
  | n + 1 => by
    refine hfresh.bind fun snap => ((guar_matchingRows table pred snap).within hwrite hruns).bind fun rows => ?_
    refine (guar_rowLoop hstep rows 0).bind fun o => ?_
    split
    · exact Guar.pure hP
    · exact (guar_retryLoop name table pred hfresh hP hwrite hruns hstep n).pre hP

/-- **UPDATE** is a sequence of writes. -/
theorem guar_performUpdate (stmt : UpdateStmt) :
    Writes strict tables id (performUpdate stmt) := by
  refine guar_tableById.bind fun table s hs => ?_
  exact guar_retryLoop _ _ _ guar_freshSnapshot (fun _ h => h) Runs.write (fun _ h => h)
    (guar_updateRow hs.2 stmt) _ s hs.1

/-! ## ON DELETE -/

/-- What the actions on referencing rows rely on. `P` holds before every step, and `keep`
of a row from the scan under a `good` snapshot on that finds it. -/
structure Lasting (strict : Prop) (tables : List TableDef) (id : Nat) (P : Ctx → Prop)
    (good : Snapshot → Prop) (keep : Ctx → Rid → Prop) : Prop where
  runs : ∀ s, P s → Runs tables id s
  write : ∀ s s', Write strict tables s s' → P s → P s'
  stays : ∀ s s' rid, Write strict tables s s' → P s → keep s rid → keep s' rid
  snapshot : ∀ s snap, P s → s.tx.snapshot = some snap → good snap
  scan : ∀ s snap table rows, P s → good snap → table ∈ tables →
    visibleRows table.firstPageId snap s.tm s.pool = .ok rows s.pool → ∀ r ∈ rows, keep s r.1
  free : strict → ∀ s rid, keep s rid → Replaceable s rid

theorem lasting_runs :
    Lasting False tables id (Runs tables id) (fun _ => True) fun _ _ => True :=
  ⟨fun _ h => h, Runs.write, fun _ _ _ _ _ _ => trivial, fun _ _ _ _ => trivial,
    fun _ _ _ _ _ _ _ _ _ _ => trivial, nofun⟩

theorem rowsEqual_subset {i : Nat} {target : Value} : ∀ {all rows : List (Rid × List Value)},
    rowsEqual i target all = .ok rows → rows ⊆ all
  | [], _, h => by
    cases h
    exact List.Subset.refl _
  | r :: rest, rows, h => by
    unfold rowsEqual at h
    cases hv : valueAt r.2 i with
    | error e =>
      rw [hv] at h
      cases h
    | ok v =>
      cases hrest : rowsEqual i target rest with
      | error e =>
        rw [hv, hrest] at h
        cases h
      | ok out =>
        rw [hv, hrest] at h
        have hout := rowsEqual_subset hrest
        cases h
        split
        · exact List.cons_subset_cons _ hout
        · exact List.subset_cons_of_subset _ hout

theorem tableOr_ok {cat : KeyCatalog} {tableId : Nat} {missing : String} {t : TableDef}
    (h : cat.tableOr tableId missing s = .ok t s') : cat.tableById tableId = .ok (some t) := by
  obtain ⟨o, s₁, ho, ht⟩ := EStateM.of_bind_ok h
  cases o with
  | none => cases ht
  | some u =>
    cases ht
    cases hcat : cat.tableById tableId with
    | error e =>
      rw [hcat] at ho
      cases ho
    | ok o =>
      rw [hcat] at ho
      cases ho
      rfl

namespace Lasting

variable {P : Ctx → Prop} {good : Snapshot → Prop} {keep : Ctx → Rid → Prop}
  {rows : List (Rid × List Value)} {r : Rid × List Value}
  {check : Nat → List Value → Except DbError Unit} {recurse : Nat → List Value → ExecM Unit}

/-- Between two of the rows that a scan has found. -/
theorem rows_write (h : Lasting strict tables id P good keep) (s s' : Ctx)
    (hstep : Write strict tables s s') (hs : P s ∧ ∀ r ∈ rows, keep s r.1) :
    P s' ∧ ∀ r ∈ rows, keep s' r.1 :=
  ⟨h.write s s' hstep hs.1, fun r hr => h.stays s s' r.1 hstep hs.1 (hs.2 r hr)⟩

theorem guar_lockRow (h : Lasting strict tables id P good keep) (rid : Rid) :
    Guar (Write strict tables) (fun s => P s ∧ ∀ r ∈ rows, keep s r.1) (lockRow rid)
      fun _ s => P s ∧ ∀ r ∈ rows, keep s r.1 :=
  Ccdb.guar_lockRow rid fun _ locks held hs => h.rows_write _ _ (.lock locks held) hs

theorem guar_markDeleted (h : Lasting strict tables id P good keep) (hr : r ∈ rows) :
    Guar (Write strict tables) (fun s => P s ∧ ∀ r ∈ rows, keep s r.1) (markDeleted r.1)
      fun _ s => P s ∧ ∀ r ∈ rows, keep s r.1 :=
  (Ccdb.guar_markDeleted r.1).within h.rows_write fun s hs =>
    ⟨h.runs s hs.1, fun hstrict => h.free hstrict s r.1 (hs.2 r hr)⟩

/-- The action of a clause. -/
theorem guar_onDelete (h : Lasting strict tables id P good keep) {child : TableDef}
    (hchild : child ∈ tables)
    (hrec : ∀ id row, Guar (Write strict tables) P (recurse id row) fun _ => P)
    (parent : TableDef) (c : ConstraintDef) (action : String) (col : Nat) :
    Guar (Write strict tables) (fun s => P s ∧ ∀ r ∈ rows, keep s r.1)
      (onDelete check recurse parent child c action col rows) fun _ => P := by
  unfold onDelete
  split
  · exact Guar.throw
  · split
    · refine (Guar.forM fun r hr => ?_).post fun _ _ hs => hs.1
      refine ((hrec c.tableId r.2).within h.rows_write fun _ hs => hs.1).bind fun _ => ?_
      exact (h.guar_lockRow r.1).bind fun _ => h.guar_markDeleted hr
    · split
      · refine (Guar.forM fun r hr => ?_).post fun _ _ hs => hs.1
        refine (readOnly_liftX _).keeps.bind fun _ => (h.guar_lockRow r.1).bind fun _ => ?_
        refine (h.guar_markDeleted hr).bind fun _ => ?_
        exact (guar_addRow hchild _ fun rid => guar_indexInsertForRow true child _ rid).within
          h.rows_write fun s hs => h.runs s hs.1
      · exact Guar.throw

/-- One constraint of the catalog. -/
theorem guar_followClause (h : Lasting strict tables id P good keep) {cat : KeyCatalog}
    (hcat : ∀ id t, cat.tableById id = .ok (some t) → t ∈ tables) {snap : Snapshot}
    (hsnap : good snap)
    (hrec : ∀ id row, Guar (Write strict tables) P (recurse id row) fun _ => P)
    (parent : TableDef) (row : List Value) (c : ConstraintDef) :
    Guar (Write strict tables) P (followClause cat check recurse parent row snap c) fun _ => P := by
  unfold followClause
  split
  · exact Guar.ret
  · split
    · exact Guar.ret
    · split
      · exact Guar.ret
      · refine (readOnly_columnOr _ _ _).keeps.bind fun parentCol => ?_
        refine (readOnly_liftX _).keeps.bind fun target => ?_
        split
        · exact Guar.ret
        · refine (readOnly_tableOr _ _ _).guar.bind fun child => ?_
          refine (readOnly_columnOr _ _ _).keeps.bind fun childCol => ?_
          refine readOnly_getCtx.guar.bind fun s => ?_
          refine (readOnly_onPool (readOnly_visibleRows _ _ _)).guar.bind fun all => ?_
          refine (readOnly_liftX _).guar.bind fun rows s' hs => ?_
          obtain ⟨⟨⟨⟨hP, hchild⟩, hctx⟩, hall⟩, hrows⟩ := hs
          replace hchild := hcat _ _ (tableOr_ok hchild)
          cases hctx
          obtain ⟨pool, hscan, hpool⟩ := onPool_ok hall
          have hpool : pool = s.pool := (congrArg Ctx.pool hpool).symm
          subst hpool
          have hsub : rows ⊆ all := by
            cases hw : rowsEqual childCol target all with
            | error e =>
              rw [hw] at hrows
              cases hrows
            | ok out =>
              rw [hw] at hrows
              cases hrows
              exact rowsEqual_subset hw
          have hkeep : ∀ r ∈ rows, keep s r.1 := fun r hr =>
            h.scan s snap child all hP hsnap hchild hscan r (hsub hr)
          split
          · exact ⟨.refl, fun _ _ hx => by cases hx; exact hP⟩
          · exact h.guar_onDelete hchild hrec _ _ _ _ s ⟨hP, hkeep⟩

/-- **The actions on referencing rows**, to any depth. -/
theorem guar_cascade (h : Lasting strict tables id P good keep) {cat : KeyCatalog}
    (hcat : ∀ id t, cat.tableById id = .ok (some t) → t ∈ tables)
    {deep : Nat → List Value → ExecM Unit}
    (hdeep : ∀ id row, Guar (Write strict tables) P (deep id row) fun _ => P) :
    ∀ n id row, Guar (Write strict tables) P (cascade cat check deep n id row) fun _ => P
  | 0, tableId, row => hdeep tableId row
  | n + 1, _, row => by
    refine (readOnly_tableOr _ _ _).keeps.bind fun parent => readOnly_getCtx.guar.bind fun s s' hs => ?_
    obtain ⟨hP, hctx⟩ := hs
    cases hctx
    cases hsnap : s.tx.snapshot with
    | none => exact ⟨.refl, fun _ _ hx => by cases hx⟩
    | some snap =>
      exact Guar.forM (fun c _ => h.guar_followClause hcat (h.snapshot s snap hP hsnap)
        (h.guar_cascade hcat hdeep n) parent row c) s hP

/-- **DELETE** is a sequence of writes. -/
theorem guar_performDelete {P₀ : Ctx → Prop} (h : Lasting strict tables id P good keep)
    (hfresh : Guar (Write strict tables) P₀ freshSnapshot fun _ => P) (hP : ∀ s, P s → P₀ s)
    (hruns : ∀ s, P₀ s → Runs tables id s) (depth : Nat) (stmt : DeleteStmt) :
    Guar (Write strict tables) P₀ (performDelete depth stmt) fun _ => P₀ := by
  refine readOnly_getCtx.guar.bind fun s s' hs => ?_
  obtain ⟨hs, hctx⟩ := hs
  cases hctx
  have hcat : ∀ id t, s.catalog.keys.tableById id = .ok (some t) → t ∈ tables := by
    intro id t ht
    exact (hruns s hs).1 ▸ List.mem_of_find?_eq_some (Except.ok.inj ht)
  refine ((readOnly_tableOr _ _ _).keeps.bind fun table => ?_) s hs
  refine guar_retryLoop _ _ _ hfresh hP h.write h.runs (fun rid values => ?_) _
  exact (h.guar_cascade hcat (fun _ _ => Guar.throw) _ _ _).bind fun _ =>
    (guar_deleteRow rid).within h.write h.runs

end Lasting

end Ccdb
