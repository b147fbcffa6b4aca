import Ccdb.Catalog.Session
import Ccdb.Storage.TupleCodec

/-!
# Ccdb — DDL with nothing to do

A DDL statement first looks up what it is about. Where the analyzer refuses it, where
IF EXISTS finds nothing, or where its first row has no room, it ends without a row
that a lookup would see.

Main results:

* `idle` — the statement is one of these, decided from the state before it.
* `idle_step` — such a statement changes no answer.
-/

namespace Ccdb.PgCatalog

open Relation

/-! ## Statements with nothing to do -/

/-- The analyzer has an error for the statement. -/
def refused {α : Type} (x : CatM α) (st : State) : Bool :=
  match answer x st with
  | .ok _ => false
  | .error _ => true

/-- It has one, or there is no object the statement is about. -/
def noTarget : Except DbError (List Nat) → Bool
  | .ok ids => ids.isEmpty
  | .error _ => true

/-- What the rows of CREATE take on a page. -/
def classSpace (name : String) : Nat := rowSpace [.int 0, .varchar name, .int 0]
def indexSpace (name : String) : Nat :=
  rowSpace [.int 0, .varchar name, .int 0, .int 0, .int 0, .bool false]
def sequenceSpace (name : String) : Nat :=
  rowSpace [.int 0, .varchar name, .int 0, .int 0, .int 0, .int 0, .int 0]

/-- The statement has nothing to do, or stops before its first row. -/
def idle (st : State) : Ddl → Bool
  | .createTable _ s =>
    refused (analyzeCreateTable s) st || refused (liftE st.userTables) st ||
      !st.hasRoom .pgClass (classSpace s.table)
  | .createIndex _ name table column isUnique =>
    refused (analyzeCreateIndex name table column isUnique) st ||
      !st.hasRoom .pgIndex (indexSpace name)
  | .createSequence s =>
    -- IF NOT EXISTS adds a second row, which `find_sequence` does not get to
    refused (analyzeCreateSequence s) st || (st.findSequence s.name).isSome ||
      !st.hasRoom .pgSequence (sequenceSpace s.name)
  | .dropTable names ifExists => noTarget (answer (resolveTables ifExists names) st)
  | .dropIndex name _ => (st.findIndex name).isNone
  | .dropSequence names ifExists => noTarget (resolveSequences st ifExists names)
  | .truncate names => noTarget (answer (resolveTables false names) st)

/-! ## Silent moves -/

/-- Lookups, page ids that are taken, `invalidate`: the pages of the system tables
are as they were. -/
structure Silent (st st' : State) : Prop where
  chains : st'.chains = st.chains
  fresh : st'.fresh = st.fresh
  allocs : st.allocs ≤ st'.allocs
  cache : CacheOk st → CacheOk st'

variable {st st' st'' : State}

namespace Silent

theorem refl (st : State) : Silent st st := ⟨rfl, rfl, Nat.le_refl _, id⟩

theorem trans (h : Silent st st') (h' : Silent st' st'') : Silent st st'' where
  chains := h'.chains.trans h.chains
  fresh := h'.fresh.trans h.fresh
  allocs := Nat.le_trans h.allocs h'.allocs
  cache := h'.cache ∘ h.cache

theorem of_steps (h : ReflTransGen Silent st st') : Silent st st' := by
  induction h with
  | refl => exact refl _
  | tail _ hstep ih => exact ih.trans hstep

theorem sameRows (h : Silent st st') : SameRows st st' := fun rel => by rw [h.chains]

theorem alloc {n : Nat} (hn : st.allocs ≤ n) : Silent st { st with allocs := n } := by
  have hrows : SameRows st { st with allocs := n } := fun _ => rfl
  exact ⟨rfl, rfl, hn, hrows.cacheOk rfl⟩

theorem invalidated (st : State) : Silent st { st with cache := .empty } :=
  ⟨rfl, rfl, Nat.le_refl _, fun _ => cacheOk_of_empty rfl⟩

theorem userTables (h : Silent st st') : st'.userTables = st.userTables := by
  unfold State.userTables State.classRows State.columnsFor
  rw [h.chains]

theorem hasRoom (h : Silent st st') (rel : Rel) (space : Nat) :
    st'.hasRoom rel space = st.hasRoom rel space := by
  unfold State.hasRoom
  rw [h.chains]

theorem findSequence (h : Silent st st') (name : String) :
    st'.findSequence name = st.findSequence name := by
  unfold State.findSequence State.allSequences
  rw [h.chains]

theorem sound (h : Silent st st') (hs : Sound st) : Sound st' where
  classOk := h.sameRows.classOk hs.classOk
  cacheOk := h.cache hs.cacheOk
  classRoom := by
    rw [h.chains]
    exact hs.classRoom
  indexRows := by
    rw [h.chains]
    exact hs.indexRows
  fresh n hn := by
    rw [h.fresh, h.sameRows.classRows]
    exact hs.fresh n (Nat.le_trans h.allocs hn)

theorem answers (h : Silent st st') (hs : Sound st) : SameAnswers st st' :=
  hs.answers (h.sound hs) (fun rel _ => h.sameRows rel) h.findSequence

end Silent

/-- A program that makes silent moves only. -/
abbrev Hushed {α : Type} (x : CatM α) : Prop := Guar Silent (fun _ => True) x fun _ _ => True

theorem Guar.silent {α : Type} {x : CatM α} (h : Hushed x) (st : State) : Silent st (x st).final :=
  Silent.of_steps (h.steps trivial)

theorem cacheTable_silent {r : ClassRow} {t : TableDef} (hr : r ∈ st.classRows)
    (hload : st.loadTable r = .ok t) : Silent st (st.cacheTable t) :=
  ⟨rfl, rfl, Nat.le_refl _, (cacheTable_quiet hr hload).cache⟩

theorem findTable_hushed (name : String) : Hushed (findTable name) :=
  guar_findTable cacheTable_silent name

theorem tableById_hushed (id : Nat) : Hushed (tableById id) :=
  guar_tableById cacheTable_silent id

theorem newPage_hushed : Hushed newPage :=
  Guar.ofStep (fun _ _ => Or.inr (Silent.alloc (Nat.le_succ _))) fun _ _ _ _ _ => trivial

theorem invalidate_hushed : Hushed invalidate :=
  Guar.ofStep (fun s _ => Or.inr (Silent.invalidated s)) fun _ _ _ _ _ => trivial

section Along

variable {S : State → State → Prop} {P : State → Prop}

theorem guar_liftE {α : Type} (x : Except DbError α) : Guar S P (liftE x) fun _ => P := by
  cases x with
  | ok a => exact Guar.ret
  | error e => exact Guar.throw

theorem guar_allocPages (hpage : Guar S P newPage fun _ => P) (n : Nat) :
    Guar S P (allocPages n) fun _ => P := by
  induction n with
  | zero => exact hpage
  | succ n ih => exact hpage.bind fun _ => ih

variable (hfind : ∀ name, Guar S P (findTable name) fun _ => P)
include hfind

theorem guar_resolveTables (ifExists : Bool) (names : List String) :
    Guar S P (resolveTables ifExists names) fun _ => P := by
  induction names with
  | nil => exact Guar.ret
  | cons name names ih =>
    refine (hfind name).bind fun r => ?_
    cases r with
    | some hit => exact ih.bind fun _ => Guar.ret
    | none =>
      cases ifExists with
      | true => exact ih
      | false => exact Guar.throw

theorem guar_analyzeCreateTable (s : CreateTableStmt) :
    Guar S P (analyzeCreateTable s) fun _ => P := by
  refine (hfind s.table).bind fun r => ?_
  cases r with
  | some hit => exact Guar.throw
  | none =>
    refine (guar_liftE _).bind fun pk => ?_
    refine Guar.bind (Q := fun _ => P) (Guar.forM fun fk _ => ?_) fun _ => Guar.ret
    refine Guar.ite (fun _ => Guar.throw) fun _ => (hfind fk.refTable).bind fun r => ?_
    cases r with
    | none => exact Guar.throw
    | some hit => exact Guar.ite (fun _ => Guar.throw) fun _ => Guar.ret

theorem guar_analyzeCreateIndex (name table column : String) (isUnique : Bool) :
    Guar S P (analyzeCreateIndex name table column isUnique) fun _ => P := by
  refine (hfind table).bind fun r => ?_
  cases r with
  | none => exact Guar.throw
  | some hit =>
    dsimp only
    split
    · exact Guar.throw
    · refine Guar.bind (Q := fun _ => P) (Guar.get.post fun _ _ h => h.2) fun _ => ?_
      exact Guar.ite (fun _ => Guar.throw) fun _ => Guar.ret

end Along

theorem allocPages_hushed (n : Nat) : Hushed (allocPages n) := guar_allocPages newPage_hushed n

theorem resolveTables_hushed (ifExists : Bool) (names : List String) :
    Hushed (resolveTables ifExists names) := guar_resolveTables findTable_hushed ifExists names

theorem analyzeCreateTable_hushed (s : CreateTableStmt) : Hushed (analyzeCreateTable s) :=
  guar_analyzeCreateTable findTable_hushed s

theorem analyzeCreateIndex_hushed (name table column : String) (isUnique : Bool) :
    Hushed (analyzeCreateIndex name table column isUnique) :=
  guar_analyzeCreateIndex findTable_hushed name table column isUnique

/-! ## Sizes of rows -/

theorem serializeTuple_length (values : List Value) : (serializeTuple values).length =
    nullBitmapSize values.length + (values.map fun v => (serializeValue v).length).sum := by
  unfold serializeTuple
  rw [List.length_append, TupleCodec.nullBitmap_length, List.length_flatMap]

/-- Rows whose values are as long are as long. -/
theorem rowSpace_congr {values values' : List Value} (h : (values.map fun v =>
    (serializeValue v).length) = values'.map fun v => (serializeValue v).length) :
    rowSpace values = rowSpace values' := by
  have hlen : values.length = values'.length := by simpa using congrArg List.length h
  unfold rowSpace
  rw [serializeTuple_length, serializeTuple_length, h, hlen]

theorem rowSpace_class (id page : Int32) (name : String) :
    rowSpace [.int id, .varchar name, .int page] = classSpace name :=
  rowSpace_congr (by simp [serializeValue, i32Bytes])

theorem rowSpace_index (id table col root : Int32) (name : String) (unique : Bool) :
    rowSpace [.int id, .varchar name, .int table, .int col, .int root, .bool unique] =
      indexSpace name :=
  rowSpace_congr (by simp [serializeValue, i32Bytes])

theorem rowSpace_sequence (id page increment start min max : Int32) (name : String) :
    rowSpace [.int id, .varchar name, .int page, .int increment, .int start, .int min, .int max] =
      sequenceSpace name :=
  rowSpace_congr (by simp [serializeValue, i32Bytes])

/-! ## The statements, up to their first row -/

variable {txn : TxnId}

/-- A statement that is refused ends with its analysis. -/
theorem refused_bind {α β : Type} {x : CatM α} {f : α → CatM β} (h : refused x st = true) :
    ∃ e, (x >>= f) st = .error e (x st).final := by
  unfold refused answer at h
  cases hx : x st with
  | ok a s =>
    rw [hx] at h
    cases h
  | error e s => exact ⟨e, EStateM.bind_of_error hx⟩

/-- One that is not goes on with what the analysis found. -/
theorem accepted_bind {α β : Type} {x : CatM α} {f : α → CatM β} (h : refused x st = false) :
    ∃ a, x st = .ok a (x st).final ∧ (x >>= f) st = f a (x st).final := by
  unfold refused answer at h
  cases hx : x st with
  | ok a s => exact ⟨a, rfl, EStateM.bind_of_ok hx⟩
  | error e s =>
    rw [hx] at h
    cases h

theorem insertRow_full {rel : Rel} (txn : Nat) (values : List Value)
    (h : st.hasRoom rel (rowSpace values) = false) :
    ∃ e, insertBytes rel (.mk' txn invalidTxnId values) st =
      .error e { st with allocs := st.allocs + 1 } :=
  insertBytes_full (t := .mk' txn invalidTxnId values) h

/-- A row was added to a system table, and the cache emptied. -/
structure Appended (rel : Rel) (values : List Value) (st st' : State) : Prop where
  scan : scanChain (st'.chains rel) = scanChain (st.chains rel) ++ [values]
  others : ∀ rel', rel' ≠ rel → st'.chains rel' = st.chains rel'
  fresh : st'.fresh = st.fresh
  allocs : st.allocs ≤ st'.allocs
  cache : st'.cache = .empty

theorem insertRow_room {rel : Rel} (txn : Nat) (values : List Value)
    (h : st.hasRoom rel (rowSpace values) = true) :
    ∃ s, (do insertBytes rel (.mk' txn invalidTxnId values); invalidate : CatM Unit) st = .ok () s ∧
      Appended rel values st s := by
  obtain ⟨pages, n, hn, hscan, hins⟩ := insertBytes_room (t := .mk' txn invalidTxnId values) rfl h
  refine ⟨{ ({ st with allocs := n }.setChain rel pages) with cache := .empty }, ?_, ?_, ?_, rfl, hn,
    rfl⟩
  · rw [EStateM.bind_of_ok hins]
    rfl
  · show scanChain (Function.update st.chains rel pages rel) = _
    rw [Function.update_self, hscan]
    rfl
  · exact fun rel' hrel => Function.update_of_ne hrel _ _

theorem Silent.appended {rel : Rel} {values : List Value} (h : Silent st st')
    (h' : Appended rel values st' st'') : Appended rel values st st'' where
  scan := by rw [h'.scan, h.chains]
  others rel' hrel := by rw [h'.others rel' hrel, h.chains]
  fresh := h'.fresh.trans h.fresh
  allocs := Nat.le_trans h.allocs h'.allocs
  cache := h'.cache

/-- The room for a row is that for another one of its size, before a silent move. -/
theorem Silent.room {rel : Rel} {values : List Value} {space : Nat} {b : Bool}
    (h : Silent st st') (hroom : st.hasRoom rel space = b) (hspace : rowSpace values = space) :
    st'.hasRoom rel (rowSpace values) = b := by
  rw [h.hasRoom, hspace, hroom]

theorem performCreateTable_eq (txn pages : Nat) (s : CreateTableStmt) (pk : Option Nat)
    (st : State) : performCreateTable txn pages s pk st =
      match st.userTables with
      | .error e => .error e st
      | .ok tables =>
        (do
          insertBytes .pgClass (.mk' txn invalidTxnId
            [.int (newTableId tables), .varchar s.table, .int (asI32 (st.fresh st.allocs))])
          createTableRows txn pages s pk (newTableId tables) : CatM Unit)
          { st with allocs := st.allocs + 1 } := by
  have hget : performCreateTable txn pages s pk st = ((do
      let tables ← liftE st.userTables
      let page ← newPage
      insertBytes .pgClass (.mk' txn invalidTxnId
        [.int (newTableId tables), .varchar s.table, .int (asI32 page)])
      createTableRows txn pages s pk (newTableId tables) : CatM Unit)) st := rfl
  rw [hget]
  cases st.userTables with
  | error e => rfl
  | ok tables => rfl

theorem idle_createTable {pages : Nat} {s : CreateTableStmt}
    (h : idle st (.createTable pages s) = true) :
    Silent st (((Ddl.createTable pages s).stmt txn).run st).final := by
  have hanalysis := Guar.silent (analyzeCreateTable_hushed s) st
  show Silent st ((analyzeCreateTable s >>= performCreateTable txn pages s) st).final
  cases hr : refused (analyzeCreateTable s) st with
  | true =>
    obtain ⟨e, hrun⟩ := refused_bind (f := performCreateTable txn pages s) hr
    rw [hrun]
    exact hanalysis
  | false =>
    obtain ⟨pk, -, hrun⟩ := accepted_bind (f := performCreateTable txn pages s) hr
    rw [hrun, performCreateTable_eq, hanalysis.userTables]
    simp only [idle, hr, Bool.false_or, Bool.or_eq_true, Bool.not_eq_true'] at h
    generalize (analyzeCreateTable s st).final = s₁ at hanalysis ⊢
    cases ht : st.userTables with
    | error e => exact hanalysis
    | ok tables =>
      have hroom : st.hasRoom .pgClass (classSpace s.table) = false := by
        rcases h with h | h
        · rw [ht] at h
          cases h
        · exact h
      have htaken := hanalysis.trans (Silent.alloc (Nat.le_succ s₁.allocs))
      obtain ⟨e, hins⟩ := insertRow_full txn _ (htaken.room hroom
        (rowSpace_class (newTableId tables) (asI32 (s₁.fresh s₁.allocs)) s.table))
      dsimp only
      rw [EStateM.bind_of_error hins]
      exact htaken.trans (Silent.alloc (Nat.le_succ _))

theorem allocPages_eq (n : Nat) (st : State) : allocPages n st =
    .ok (st.fresh (st.allocs + n)) { st with allocs := st.allocs + n + 1 } := by
  induction n generalizing st with
  | zero => rfl
  | succ n ih =>
    have hcons : allocPages (n + 1) st = allocPages n { st with allocs := st.allocs + 1 } := rfl
    rw [hcons, ih]
    show EStateM.Result.ok (st.fresh (st.allocs + 1 + n)) _ = _
    rw [Nat.add_right_comm st.allocs 1 n]
    rfl

/-- The `pg_index` row of a new tree. -/
def indexValues (st : State) (s : CreateIndexStmt) (root : Nat) : List Value :=
  [.int (maxId (st.allIndexes.map IndexDef.indexId) + 1), .varchar s.name, .int (asI32 s.tableId),
    .int (asI32 s.columnIndex), .int (asI32 root), .bool s.isUnique]

theorem performCreateIndex_run (txn pages : Nat) (s : CreateIndexStmt) (st : State) :
    performCreateIndex txn pages s st = (do
      match ← tableById s.tableId with
      | none => throw (.bail s!"table id {s.tableId} not in catalog")
      | some _ => do
        let root ← allocPages pages
        insertBytes .pgIndex (.mk' txn invalidTxnId (indexValues st s root))
        invalidate : CatM Unit) st := rfl

theorem performCreateIndex_eq (txn pages : Nat) (s : CreateIndexStmt) (st : State) :
    performCreateIndex txn pages s st =
      match tableById s.tableId st with
      | .error e s₁ => .error e s₁
      | .ok none s₁ => .error (.bail s!"table id {s.tableId} not in catalog") s₁
      | .ok (some _) s₁ =>
        (do
          insertBytes .pgIndex (.mk' txn invalidTxnId
            (indexValues st s (s₁.fresh (s₁.allocs + pages))))
          invalidate : CatM Unit) { s₁ with allocs := s₁.allocs + pages + 1 } := by
  rw [performCreateIndex_run]
  cases hx : tableById s.tableId st with
  | error e s₁ => rw [EStateM.bind_of_error hx]
  | ok t s₁ =>
    rw [EStateM.bind_of_ok hx]
    cases t with
    | none => rfl
    | some t =>
      dsimp only
      rw [EStateM.bind_of_ok (allocPages_eq pages s₁)]

/-- Without room for its row, CREATE INDEX has only looked up its table and taken
the pages of the tree. -/
theorem performCreateIndex_full {pages : Nat} {s : CreateIndexStmt}
    (h : st.hasRoom .pgIndex (indexSpace s.name) = false) :
    Silent st (performCreateIndex txn pages s st).final := by
  have htable := Guar.silent (tableById_hushed s.tableId) st
  rw [performCreateIndex_eq]
  cases hx : tableById s.tableId st with
  | error e s₁ =>
    rw [hx] at htable
    exact htable
  | ok t s₁ =>
    rw [hx] at htable
    cases t with
    | none => exact htable
    | some t =>
      have htaken : Silent st { s₁ with allocs := s₁.allocs + pages + 1 } :=
        htable.trans (Silent.alloc (by show s₁.allocs ≤ _; omega))
      obtain ⟨e, hins⟩ := insertRow_full txn (indexValues st s (s₁.fresh (s₁.allocs + pages)))
        (htaken.room h (rowSpace_index _ _ _ _ _ _))
      dsimp only
      rw [EStateM.bind_of_error hins]
      exact htaken.trans (Silent.alloc (Nat.le_succ _))

/-- What `analyze_create_index` has found. -/
theorem analyzeCreateIndex_inv {name table column : String} {isUnique : Bool}
    {a : CreateIndexStmt} (h : analyzeCreateIndex name table column isUnique st = .ok a st') :
    a.name = name ∧ ∃ t, findTable table st = .ok (some (a.tableId, t)) st' := by
  obtain ⟨r, s₁, hfind, hrest⟩ := EStateM.of_bind_ok h
  cases r with
  | none => cases hrest
  | some hit =>
    obtain ⟨id, t⟩ := hit
    cases hcol : t.columns.findIdx? fun c => c.name = column with
    | none =>
      simp only [hcol] at hrest
      cases hrest
    | some i =>
      simp only [hcol] at hrest
      obtain ⟨s₂, s₃, hget, hrest⟩ := EStateM.of_bind_ok hrest
      cases hget
      split at hrest
      · cases hrest
      · cases hrest
        exact ⟨rfl, t, hfind⟩

theorem idle_createIndex {pages : Nat} {name table column : String} {isUnique : Bool}
    (h : idle st (.createIndex pages name table column isUnique) = true) :
    Silent st (((Ddl.createIndex pages name table column isUnique).stmt txn).run st).final := by
  have hanalysis := Guar.silent (analyzeCreateIndex_hushed name table column isUnique) st
  show Silent st ((analyzeCreateIndex name table column isUnique >>=
    performCreateIndex txn pages) st).final
  cases hr : refused (analyzeCreateIndex name table column isUnique) st with
  | true =>
    obtain ⟨e, hrun⟩ := refused_bind (f := performCreateIndex txn pages) hr
    rw [hrun]
    exact hanalysis
  | false =>
    obtain ⟨a, ha, hrun⟩ := accepted_bind (f := performCreateIndex txn pages) hr
    rw [hrun]
    simp only [idle, hr, Bool.false_or, Bool.not_eq_true'] at h
    refine hanalysis.trans (performCreateIndex_full ?_)
    rw [hanalysis.hasRoom, (analyzeCreateIndex_inv ha).1]
    exact h

theorem performCreateSequence_eq (txn : Nat) (s : AnalyzedSequence) (st : State) :
    performCreateSequence txn s st = (do
      insertBytes .pgSequence (.mk' txn invalidTxnId
        [.int (maxId (st.allSequences.map SequenceDef.seqId) + 1), .varchar s.name,
          .int (asI32 (st.fresh st.allocs)), .int s.increment.toInt32, .int s.startValue.toInt32,
          .int s.minValue.toInt32, .int s.maxValue.toInt32])
      invalidate : CatM Unit) { st with allocs := st.allocs + 1 } := rfl

theorem analyzeCreateSequence_reads (s : CreateSequenceStmt) : ReadOnly (analyzeCreateSequence s) :=
  ReadOnly.get.bind fun _ => ReadOnly.ite (ReadOnly.throw _)
    (ReadOnly.ite (ReadOnly.throw _) (ReadOnly.ite (ReadOnly.throw _) (ReadOnly.pure _)))

theorem analyzeCreateSequence_name (s : CreateSequenceStmt) :
    Guar Silent (fun _ => True) (analyzeCreateSequence s) fun a _ => a.name = s.name := by
  refine Guar.bind (Q := fun _ _ => True) (Guar.get.post fun _ _ _ => trivial) fun _ => ?_
  refine Guar.ite (fun _ => Guar.throw) fun _ => Guar.ite (fun _ => Guar.throw) fun _ => ?_
  exact Guar.ite (fun _ => Guar.throw) fun _ => Guar.pure fun _ _ => rfl

theorem Appended.allSequences {values : List Value} (h : Appended .pgSequence values st st') :
    st'.allSequences = st.allSequences ++ (State.decodeSequence values).toList := by
  unfold State.allSequences
  rw [h.scan, List.filterMap_append]
  cases hdec : State.decodeSequence values <;> simp [hdec]

/-- A row that `find_sequence` does not get to. -/
theorem Appended.unseen {values : List Value} (h : Appended .pgSequence values st st')
    (hs : Sound st) (hseen : ∀ seq, State.decodeSequence values = some seq →
      (st.findSequence seq.name).isSome = true) : SameAnswers st st' ∧ Sound st' := by
  have hclass : st'.chains .pgClass = st.chains .pgClass := h.others _ (by decide)
  have hrows : st'.classRows = st.classRows := by
    unfold State.classRows
    rw [hclass]
  have hsound : Sound st' := by
    refine ⟨⟨?_, ?_, ?_⟩, cacheOk_of_empty h.cache, ?_, ?_, fun n hn => ?_⟩
    · rw [hclass]
      exact hs.classOk.decodes
    · rw [hrows]
      exact hs.classOk.ids
    · rw [hrows]
      exact hs.classOk.names
    · rw [hclass]
      exact hs.classRoom
    · rw [h.others .pgIndex (by decide)]
      exact hs.indexRows
    · rw [h.fresh, hrows]
      exact hs.fresh n (Nat.le_trans h.allocs hn)
  refine ⟨hs.answers hsound (fun rel hrel => by rw [h.others rel hrel]) fun name => ?_, hsound⟩
  unfold State.findSequence
  rw [h.allSequences, List.find?_append]
  cases hfound : st.allSequences.find? fun s => s.name = name with
  | some seq => rfl
  | none =>
    cases hdec : State.decodeSequence values with
    | none => rfl
    | some seq =>
      -- the new row has a name that an older one has
      have hname : ¬ seq.name = name := by
        rintro rfl
        have := hseen seq hdec
        unfold State.findSequence at this
        rw [hfound] at this
        cases this
      simp [hname]

theorem idle_createSequence {s : CreateSequenceStmt}
    (h : idle st (.createSequence s) = true) :
    Silent st (((Ddl.createSequence s).stmt txn).run st).final ∨
      ∃ values, Appended .pgSequence values st (((Ddl.createSequence s).stmt txn).run st).final ∧
        ∀ seq, State.decodeSequence values = some seq →
          (st.findSequence seq.name).isSome = true := by
  have hsame := analyzeCreateSequence_reads s st
  show Silent st ((analyzeCreateSequence s >>= performCreateSequence txn) st).final ∨
    ∃ values, Appended .pgSequence values st
      ((analyzeCreateSequence s >>= performCreateSequence txn) st).final ∧ _
  cases hr : refused (analyzeCreateSequence s) st with
  | true =>
    obtain ⟨e, hrun⟩ := refused_bind (f := performCreateSequence txn) hr
    rw [hrun, hsame]
    exact Or.inl (Silent.refl st)
  | false =>
    obtain ⟨a, ha, hrun⟩ := accepted_bind (f := performCreateSequence txn) hr
    have hname : a.name = s.name := (analyzeCreateSequence_name s).result trivial ha
    simp only [idle, hr, Bool.false_or, Bool.or_eq_true, Bool.not_eq_true'] at h
    rw [hrun, hsame, performCreateSequence_eq]
    have htaken : Silent st { st with allocs := st.allocs + 1 } := Silent.alloc (Nat.le_succ _)
    generalize hvals : [Value.int (maxId (st.allSequences.map SequenceDef.seqId) + 1),
      .varchar a.name, .int (asI32 (st.fresh st.allocs)), .int a.increment.toInt32,
      .int a.startValue.toInt32, .int a.minValue.toInt32, .int a.maxValue.toInt32] = values
    have hspace : rowSpace values = sequenceSpace s.name := by
      rw [← hvals, rowSpace_sequence, hname]
    cases hroom : st.hasRoom .pgSequence (sequenceSpace s.name) with
    | false =>
      obtain ⟨e, hins⟩ := insertRow_full txn _ (htaken.room hroom hspace)
      rw [EStateM.bind_of_error hins]
      exact Or.inl (htaken.trans (Silent.alloc (Nat.le_succ _)))
    | true =>
      have hfound : (st.findSequence s.name).isSome = true := by
        rcases h with h | h
        · exact h
        · rw [hroom] at h
          cases h
      obtain ⟨s', hins, happ⟩ := insertRow_room txn _ (htaken.room hroom hspace)
      rw [hins]
      refine Or.inr ⟨values, htaken.appended happ, fun seq hdec => ?_⟩
      rw [← hvals] at hdec
      cases hdec
      rw [hname]
      exact hfound

/-- DROP and TRUNCATE without a target: the names are looked up. -/
theorem idle_resolve {ifExists : Bool} {names : List String} {f : List Nat → CatM Unit}
    (hf : f [] = invalidate) (h : noTarget (answer (resolveTables ifExists names) st) = true) :
    Silent st ((resolveTables ifExists names >>= f) st).final := by
  have hnames := Guar.silent (resolveTables_hushed ifExists names) st
  unfold answer at h
  cases hx : resolveTables ifExists names st with
  | error e s₁ =>
    rw [hx] at hnames
    rw [EStateM.bind_of_error hx]
    exact hnames
  | ok ids s₁ =>
    rw [hx] at hnames h
    rw [EStateM.bind_of_ok hx, List.isEmpty_iff.1 h, hf]
    exact hnames.trans (Silent.invalidated s₁)

theorem idle_dropIndex {name : String} {ifExists : Bool} (h : (st.findIndex name).isNone = true) :
    (dropIndex txn name ifExists st).final = st := by
  rw [dropIndex_run, Option.isNone_iff_eq_none.1 h]
  cases ifExists <;> rfl

theorem dropSequence_eq (txn : Nat) (names : List String) (ifExists : Bool) (st : State) :
    dropSequence txn names ifExists st =
      match resolveSequences st ifExists names with
      | .error e => .error e st
      | .ok ids => (do
          ids.forM fun id => tombstoneCatalogRows .pgSequence txn (hasId 0 id)
          invalidate : CatM Unit) st := by
  have hget : dropSequence txn names ifExists st = (do
      let ids ← liftE (resolveSequences st ifExists names)
      ids.forM fun id => tombstoneCatalogRows .pgSequence txn (hasId 0 id)
      invalidate : CatM Unit) st := rfl
  rw [hget]
  cases resolveSequences st ifExists names <;> rfl

theorem idle_dropSequence {names : List String} {ifExists : Bool}
    (h : noTarget (resolveSequences st ifExists names) = true) :
    Silent st (dropSequence txn names ifExists st).final := by
  rw [dropSequence_eq]
  cases hx : resolveSequences st ifExists names with
  | error e => exact Silent.refl st
  | ok ids =>
    rw [hx] at h
    rw [List.isEmpty_iff.1 h]
    exact Silent.invalidated st

/-- **The step lemma**: a statement with nothing to do changes no answer. -/
theorem idle_step (txn : TxnId) {d : Ddl} (hs : Sound st) (h : idle st d = true) :
    SameAnswers st ((d.stmt txn).run st).final ∧ Sound ((d.stmt txn).run st).final ∧
      ((d.stmt txn).run st).final.fresh = st.fresh := by
  have hsilent : ∀ {s : State}, Silent st s → SameAnswers st s ∧ Sound s ∧ s.fresh = st.fresh :=
    fun h => ⟨h.answers hs, h.sound hs, h.fresh⟩
  cases d with
  | createTable pages s => exact hsilent (idle_createTable h)
  | createIndex pages name table column isUnique => exact hsilent (idle_createIndex h)
  | createSequence s =>
    rcases idle_createSequence h with hquiet | ⟨values, happ, hseen⟩
    · exact hsilent hquiet
    · obtain ⟨hsame, hsound⟩ := happ.unseen hs hseen
      exact ⟨hsame, hsound, happ.fresh⟩
  | dropTable names ifExists => exact hsilent (idle_resolve rfl h)
  | dropIndex name ifExists =>
    refine hsilent ?_
    show Silent st (dropIndex txn name ifExists st).final
    rw [idle_dropIndex h]
    exact Silent.refl st
  | dropSequence names ifExists => exact hsilent (idle_dropSequence h)
  | truncate names => exact hsilent (idle_resolve rfl h)

end Ccdb.PgCatalog
