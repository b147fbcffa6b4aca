import Ccdb.Catalog.Rollback

/-!
# Ccdb — ids of tables and indexes

A new id is one more than the greatest there is in the catalog. DROP TABLE leaves the
rows of `pg_constraint`, and no DROP touches the log; so an id that was the greatest
comes back with what was said about it.

Of a DML statement the `IndexInsert` records of one row count. How many rows CREATE
INDEX finds is an input of the statement, as the number of its pages is.

Main results:

* `createTableRows_ends` — what CREATE TABLE adds to `pg_constraint`.
* `Ahead` — no id that is still spoken of is above the ids there are.
* `ids_fresh` — new ids are fresh as long as no DROP takes the greatest one.
* `ids_come_back` — the CHECK of a dropped table on a new one, and an id that comes back.
-/

namespace Ccdb.PgCatalog.FreshIds

/-! ## Statements -/

/-- The catalog, and the `index_id` of the IndexInsert records of the log. -/
structure Db where
  cat : State
  wal : List Nat

/-- `keys` is the number of rows with a key that CREATE INDEX finds; `null` has the columns
of the new row that are NULL. -/
inductive Act where
  | createTable (txn : TxnId) (pages : Nat) (s : CreateTableStmt)
  | createIndex (txn : TxnId) (pages keys : Nat) (name table column : String) (isUnique : Bool)
  | dropTable (txn : TxnId) (names : List String) (ifExists : Bool)
  | dropIndex (txn : TxnId) (name : String) (ifExists : Bool)
  | insertRow (tableId : Nat) (null : Nat → Bool)

def Act.run : Act → CatM Unit
  | .createTable txn pages s => (Stmt.createTable txn pages s).run
  | .createIndex txn pages _ name table column isUnique =>
    (Stmt.createIndex txn pages name table column isUnique).run
  | .dropTable txn names ifExists => (Stmt.dropTable txn names ifExists).run
  | .dropIndex txn name ifExists => (Stmt.dropIndex txn name ifExists).run
  -- no root is split
  | .insertRow tableId _ => indexInsertForRow tableId []

/-- The id of the next index. -/
def nextIndexId (st : State) : Int32 := maxId (st.allIndexes.map IndexDef.indexId) + 1

/-- What CREATE INDEX logs before it builds the tree. -/
def createIndexRecords (st : State) (keys : Nat) (a : CreateIndexStmt) : CatM (List Nat) := do
  match ← tableById a.tableId with
  | none => return []
  | some _ => return List.replicate keys (asUsize (nextIndexId st))

/-- What `index_insert_for_row_with_lm` logs. -/
def insertRowRecords (tableId : Nat) (null : Nat → Bool) : CatM (List Nat) := do
  let indexes ← indexesForTable tableId
  match ← tableById tableId with
  | none => return []
  | some _ => return (indexes.filter fun i => !null i.columnIndex).map IndexDef.indexId

/-- The records of a statement; one that stops before has none. -/
def Act.records (st : State) : Act → List Nat
  | .createIndex _ _ keys name table column isUnique =>
    match answer (do
        let a ← analyzeCreateIndex name table column isUnique
        createIndexRecords st keys a) st with
    | .ok ids => ids
    | .error _ => []
  | .insertRow tableId null =>
    match answer (insertRowRecords tableId null) st with
    | .ok ids => ids
    | .error _ => []
  | _ => []

def step (db : Db) (a : Act) : Option Db := some ⟨(a.run db.cat).final, db.wal ++ a.records db.cat⟩

/-! ## Fresh ids -/

/-- The constraints of a CREATE TABLE. -/
def declared (s : CreateTableStmt) : List (String × ConstraintKind × String) :=
  (s.checkConstraints.zipIdx.map fun c => (s!"{s.table}_check_{c.2}", .check, c.1)) ++
    s.foreignKeys.zipIdx.map fun c => (s!"{s.table}_fkey_{c.2}", .foreignKey, c.1.encode)

def said (c : ConstraintDef) : String × ConstraintKind × String := (c.name, c.kind, c.definition)

/-- `constraints_for_table` right after the statement, up to the ids of the constraints. -/
def constraintsSaid (st : State) (id : Nat) :
    Except DbError (List (String × ConstraintKind × String)) :=
  (answer (constraintsForTable id) st).map fun l => l.map said

/-- **Fresh ids**, in one statement. -/
structure Fresh (db : Db) (a : Act) : Prop where
  constraints : ∀ {txn pages s cat' tables}, a = .createTable txn pages s →
    a.run db.cat = .ok () cat' → db.cat.userTables = .ok tables →
    constraintsSaid cat' (asUsize (newTableId tables)) = .ok (declared s)
  indexes : ∀ x ∈ (a.run db.cat).final.allIndexes, x ∉ db.cat.allIndexes → x.indexId ∉ db.wal

/-- The ids have not run out. -/
def IdsLeft (st : State) : Prop :=
  (∀ r ∈ st.classRows, r.rawId ≠ Int32.maxValue) ∧
    ∀ x ∈ st.allIndexes, asI32 x.indexId ≠ Int32.maxValue

/-- What is still spoken of stays below a table that `stays`. -/
def TablesAbove (st : State) (stays : ClassRow → Prop) : Prop :=
  ∀ c ∈ st.allConstraints, ∃ r ∈ st.classRows, State.isSystemId r.rawId = false ∧
    stays r ∧ asI32 c.tableId ≤ r.rawId

def IndexesAbove (db : Db) (stays : IndexDef → Prop) : Prop :=
  ∀ i ∈ db.wal, ∃ x ∈ db.cat.allIndexes, stays x ∧ asI32 i ≤ asI32 x.indexId

instance (st : State) (stays : ClassRow → Prop) [DecidablePred stays] :
    Decidable (TablesAbove st stays) :=
  inferInstanceAs (Decidable (∀ c ∈ st.allConstraints, ∃ r ∈ st.classRows, _))

instance (db : Db) (stays : IndexDef → Prop) [DecidablePred stays] :
    Decidable (IndexesAbove db stays) :=
  inferInstanceAs (Decidable (∀ i ∈ db.wal, ∃ x ∈ db.cat.allIndexes, _))

instance (st : State) : Decidable (IdsLeft st) := inferInstanceAs (Decidable (_ ∧ _))

/-- A DROP leaves a table, and an index, above those that are spoken of; and CREATE INDEX
does not log rows of an index that it has no room for. -/
def Spares (db : Db) : Act → Prop
  | .createTable .. => IdsLeft db.cat
  | .createIndex _ _ keys name .. =>
    IdsLeft db.cat ∧ (keys = 0 ∨ db.cat.hasRoom .pgIndex (indexSpace name) = true)
  | .dropTable _ names ifExists =>
    match answer (resolveTables ifExists names) db.cat with
    | .error _ => True
    | .ok ids => TablesAbove db.cat (fun r => r.id ∉ ids) ∧ IndexesAbove db fun x => x.tableId ∉ ids
  | .dropIndex _ name _ =>
    match db.cat.findIndex name with
    | none => True
    | some idx => IndexesAbove db fun x => x.indexId ≠ idx.indexId
  | .insertRow .. => True

instance decidableSpares (db : Db) : ∀ a, Decidable (Spares db a)
  | .createTable .. => inferInstanceAs (Decidable (IdsLeft _))
  | .createIndex .. => inferInstanceAs (Decidable (IdsLeft _ ∧ (_ ∨ _)))
  | .dropTable _ names ifExists =>
    have : Decidable (match answer (resolveTables ifExists names) db.cat with
        | .error _ => True
        | .ok ids => TablesAbove db.cat (fun r => r.id ∉ ids) ∧
            IndexesAbove db fun x => x.tableId ∉ ids) :=
      match answer (resolveTables ifExists names) db.cat with
      | .error _ => inferInstanceAs (Decidable True)
      | .ok _ => inferInstanceAs (Decidable (_ ∧ _))
    this
  | .dropIndex _ name _ =>
    have : Decidable (match db.cat.findIndex name with
        | none => True
        | some idx => IndexesAbove db fun x => x.indexId ≠ idx.indexId) :=
      match db.cat.findIndex name with
      | none => inferInstanceAs (Decidable True)
      | some _ => inferInstanceAs (Decidable (IndexesAbove _ _))
    this
  | .insertRow .. => inferInstanceAs (Decidable True)

/-! ## The greatest id -/

variable {st st' : State} {tableId indexId : Int32}

theorem le_maxId {ids : List Nat} {id : Nat} (h : id ∈ ids) : asI32 id ≤ maxId ids :=
  (foldl_max ids (-1)).2.1 id h

theorem maxId_ne {ids : List Nat} (h : ∀ id ∈ ids, asI32 id ≠ Int32.maxValue) :
    maxId ids ≠ Int32.maxValue := by
  obtain ⟨-, -, heq | ⟨id, hid, heq⟩⟩ := foldl_max ids (-1)
  · rw [maxId, heq]
    decide
  · rw [maxId, ← heq]
    exact h id hid

/-- **A new index** has an id above those of the others. -/
theorem lt_nextIndexId (h : IdsLeft st) {x : IndexDef} (hx : x ∈ st.allIndexes) :
    asI32 x.indexId < nextIndexId st := by
  have hmax : maxId (st.allIndexes.map IndexDef.indexId) ≠ Int32.maxValue := by
    refine maxId_ne fun id hid => ?_
    obtain ⟨y, hy, rfl⟩ := List.mem_map.1 hid
    exact h.2 y hy
  exact Int32.lt_of_le_of_lt (le_maxId (List.mem_map_of_mem hx)) (lt_add_one hmax)

/-- **A new table** has an id above those of the others. -/
theorem lt_newTableId {tables : List TableDef} (ht : st.userTables = .ok tables) (h : IdsLeft st)
    {r : ClassRow} (hr : r ∈ st.classRows) (hsys : State.isSystemId r.rawId = false) :
    r.rawId < newTableId tables := by
  have hids := userTables_ids ht
  have hin : r.id ∈ tables.map TableDef.tableId := by
    rw [hids]
    exact List.mem_map_of_mem (List.mem_filter.2 ⟨hr, by simpa using hsys⟩)
  have hle : r.rawId ≤ maxId (tables.map TableDef.tableId) := by
    have := le_maxId hin
    rwa [ClassRow.id, asI32_asUsize] at this
  have hmax : maxId (tables.map TableDef.tableId) ≠ Int32.maxValue := by
    refine maxId_ne fun id hid => ?_
    rw [hids] at hid
    obtain ⟨y, hy, rfl⟩ := List.mem_map.1 hid
    rw [ClassRow.id, asI32_asUsize]
    exact h.1 y (List.mem_of_mem_filter hy)
  have hnew : maxId (tables.map TableDef.tableId) + 1 ≤ newTableId tables := by
    unfold newTableId
    dsimp only
    split
    · assumption
    · exact Int32.le_refl _
  exact Int32.lt_of_lt_of_le (Int32.lt_of_le_of_lt hle (lt_add_one hmax)) hnew

/-- The id is not one of a system table. -/
theorem newTableId_user (tables : List TableDef) : State.isSystemId (newTableId tables) = false := by
  have hnew : (5 : Int32) ≤ newTableId tables := by
    unfold newTableId
    dsimp only
    split
    · exact Int32.le_refl _
    · next h => exact Int32.le_of_lt (Int32.not_le.1 h)
  cases hsys : State.isSystemId (newTableId tables) with
  | false => rfl
  | true =>
    simp only [State.isSystemId, decide_eq_true_eq] at hsys
    rcases hsys with h | h | h | h | h <;> rw [h] at hnew <;> exact absurd hnew (by decide)

/-! ## Lookups -/

/-- The rows stay, and of the lists of indexes in the cache the new ones come from them. -/
structure Reads (st st' : State) : Prop where
  chains : st'.chains = st.chains
  cached : ∀ id l, st'.cache.indexesByTable id = some l →
    st.cache.indexesByTable id = some l ∨ l ⊆ st.allIndexes

theorem Reads.refl (st : State) : Reads st st := ⟨rfl, fun _ _ h => Or.inl h⟩

theorem Reads.allIndexes (h : Reads st st') : st'.allIndexes = st.allIndexes := by
  unfold State.allIndexes
  rw [h.chains]

theorem Reads.trans {st'' : State} (h : Reads st st') (h' : Reads st' st'') : Reads st st'' := by
  refine ⟨h'.chains.trans h.chains, fun id l hl => ?_⟩
  rcases h'.cached id l hl with hl | hsub
  · exact h.cached id l hl
  · exact Or.inr (h.allIndexes ▸ hsub)

/-- A program that reads only. -/
abbrev Reading {α : Type} (x : CatM α) : Prop := Guar Reads (fun _ => True) x fun _ _ => True

theorem Reading.reads {α : Type} {x : CatM α} (h : Reading x) (st : State) :
    Reads st (x st).final :=
  (h.steps trivial : Relation.ReflTransGen Reads st _).invariant
    (I := Reads st) (fun _ _ hs h => h.trans hs) (Reads.refl st)

theorem findTable_reading (name : String) : Reading (findTable name) :=
  guar_findTable (fun _ _ => ⟨rfl, fun _ _ h => Or.inl h⟩) name

theorem tableById_reading (id : Nat) : Reading (tableById id) :=
  guar_tableById (fun _ _ => ⟨rfl, fun _ _ h => Or.inl h⟩) id

theorem indexesForTable_reading (id : Nat) : Reading (indexesForTable id) := by
  refine Guar.ofStep (fun s _ => ?_) fun _ _ _ _ _ => trivial
  unfold indexesForTable
  cases s.cache.indexesByTable id with
  | some hit => exact Or.inl rfl
  | none =>
    refine Or.inr ⟨rfl, fun id' l hl => ?_⟩
    have hl : Function.update s.cache.indexesByTable id (some (s.indexesOf id)) id' = some l := hl
    by_cases heq : id' = id
    · rw [heq, Function.update_self] at hl
      cases hl
      exact Or.inr (List.filter_subset_self _)
    · rw [Function.update_of_ne heq] at hl
      exact Or.inl hl

theorem insertRow_reading (tableId : Nat) : Reading (indexInsertForRow tableId []) := by
  refine (indexesForTable_reading tableId).bind fun indexes => ?_
  refine Guar.ite (fun _ => Guar.ret) fun _ => (tableById_reading tableId).bind fun t => ?_
  cases t with
  | none => exact Guar.throw
  | some t => exact Guar.forM fun idx _ => Guar.ite (fun h => absurd rfl h) fun _ => Guar.ret

/-! ## New rows -/

/-- Rows at the end of a system table. -/
structure Put (rel : Rel) (rows : List (List Value)) (st st' : State) : Prop where
  scan : scanChain (st'.chains rel) = scanChain (st.chains rel) ++ rows
  others : ∀ rel', rel' ≠ rel → st'.chains rel' = st.chains rel'
  cache : st'.cache = st.cache

theorem insertBytes_ends (rel : Rel) {t : HeapTuple} (ht : t.xmax = 0) (st : State) :
    Ends (insertBytes rel t) st (fun _ st' => Put rel [t.values] st st')
      (fun st' => Put rel [] st st') := by
  unfold Ends
  rcases insertBytes_cases rel ht st with ⟨pages, n, hscan, hrun⟩ | ⟨e, n, hrun⟩
  · rw [hrun]
    refine ⟨?_, fun rel' hrel => Function.update_of_ne hrel _ _, rfl⟩
    show scanChain (Function.update st.chains rel pages rel) = _
    rw [Function.update_self, hscan]
  · rw [hrun]
    exact ⟨(List.append_nil _).symm, fun _ _ => rfl, rfl⟩

theorem Put.trans {rel : Rel} {rows rows' : List (List Value)} {st'' : State}
    (h : Put rel rows st st') (h' : Put rel rows' st' st'') : Put rel (rows ++ rows') st st'' where
  scan := by rw [h'.scan, h.scan, List.append_assoc]
  others rel' hrel := (h'.others rel' hrel).trans (h.others rel' hrel)
  cache := h'.cache.trans h.cache

/-- **A loop of insertions**: all the rows are there, or the first ones. -/
theorem insertEach_ends {α : Type} (rel : Rel) (f : α → HeapTuple) (hf : ∀ a, (f a).xmax = 0) :
    ∀ (l : List α) (st : State), Ends (l.forM fun a => insertBytes rel (f a)) st
      (fun _ st' => Put rel (l.map fun a => (f a).values) st st')
      fun st' => ∃ rows, rows ⊆ (l.map fun a => (f a).values) ∧ Put rel rows st st'
  | [], st => ⟨(List.append_nil _).symm, fun _ _ => rfl, rfl⟩
  | a :: l, st => by
    show Ends (insertBytes rel (f a) >>= fun _ => l.forM fun a => insertBytes rel (f a)) st _ _
    refine ((insertBytes_ends rel (hf a) st).mono (fun _ _ h => h) fun st' h =>
      ⟨[], List.nil_subset _, h⟩).bind fun _ st₁ h₁ => ?_
    refine (insertEach_ends rel f hf l st₁).mono (fun _ st' h => h₁.trans h) ?_
    rintro st' ⟨rows, hsub, h⟩
    exact ⟨(f a).values :: rows, List.cons_subset_cons _ hsub, h₁.trans h⟩

/-- The rows a CREATE may add: the ids they bear are the new ones. -/
def Labelled (tableId indexId : Int32) : Rel → List Value → Prop
  | .pgConstraint, vals => ∀ c, State.decodeConstraint vals = some c → asI32 c.tableId = tableId
  | .pgIndex, vals => ∀ x, decodeIndexRow vals = some x → asI32 x.indexId = indexId
  | _, _ => True

/-- Rows are added only, and labelled. -/
structure Adds (tableId indexId : Int32) (st st' : State) : Prop where
  kept : ∀ rel, scanChain (st.chains rel) ⊆ scanChain (st'.chains rel)
  added : ∀ rel, ∀ vals ∈ scanChain (st'.chains rel),
    vals ∈ scanChain (st.chains rel) ∨ Labelled tableId indexId rel vals
  cached : ∀ id l, st'.cache.indexesByTable id = some l →
    st.cache.indexesByTable id = some l ∨ l ⊆ st'.allIndexes

theorem allIndexes_mono (h : scanChain (st.chains .pgIndex) ⊆ scanChain (st'.chains .pgIndex)) :
    st.allIndexes ⊆ st'.allIndexes := by
  unfold State.allIndexes
  exact List.filterMap_subset _ h

namespace Adds

theorem trans {st'' : State} (h : Adds tableId indexId st st') (h' : Adds tableId indexId st' st'') :
    Adds tableId indexId st st'' := by
  refine ⟨fun rel => List.Subset.trans (h.kept rel) (h'.kept rel), fun rel vals hvals => ?_, fun id l hl => ?_⟩
  · rcases h'.added rel vals hvals with hold | hnew
    · exact h.added rel vals hold
    · exact Or.inr hnew
  · rcases h'.cached id l hl with hl | hsub
    · exact (h.cached id l hl).imp_right fun hsub =>
        List.Subset.trans hsub (allIndexes_mono (h'.kept _))
    · exact Or.inr hsub

theorem of_reads (h : Reads st st') : Adds tableId indexId st st' := by
  refine ⟨fun rel => by rw [h.chains]; exact List.Subset.refl _, fun rel vals hvals => ?_,
    fun id l hl => ?_⟩
  · rw [h.chains] at hvals
    exact Or.inl hvals
  · rw [h.allIndexes]
    exact h.cached id l hl

theorem of_put {rel : Rel} {rows : List (List Value)} (h : Put rel rows st st')
    (hnew : ∀ vals ∈ rows, Labelled tableId indexId rel vals) : Adds tableId indexId st st' := by
  refine ⟨fun rel' => ?_, fun rel' vals hvals => ?_, fun id l hl => Or.inl (h.cache ▸ hl)⟩
  · by_cases hrel : rel' = rel
    · rw [hrel, h.scan]
      exact List.subset_append_left _ _
    · rw [h.others rel' hrel]
      exact List.Subset.refl _
  · by_cases hrel : rel' = rel
    · rw [hrel, h.scan] at hvals
      rw [hrel]
      exact (List.mem_append.1 hvals).imp_right (hnew vals)
    · rw [h.others rel' hrel] at hvals
      exact Or.inl hvals

theorem allIndexes (h : Adds tableId indexId st st') {x : IndexDef} (hx : x ∈ st'.allIndexes) :
    x ∈ st.allIndexes ∨ asI32 x.indexId = indexId := by
  unfold State.allIndexes at hx ⊢
  obtain ⟨vals, hvals, hdec⟩ := List.mem_filterMap.1 hx
  rcases h.added .pgIndex vals hvals with hold | hnew
  · exact Or.inl (List.mem_filterMap.2 ⟨vals, hold, hdec⟩)
  · exact Or.inr (hnew x hdec)

theorem allConstraints (h : Adds tableId indexId st st') {c : ConstraintDef}
    (hc : c ∈ st'.allConstraints) : c ∈ st.allConstraints ∨ asI32 c.tableId = tableId := by
  unfold State.allConstraints at hc ⊢
  obtain ⟨vals, hvals, hdec⟩ := List.mem_filterMap.1 hc
  rcases h.added .pgConstraint vals hvals with hold | hnew
  · exact Or.inl (List.mem_filterMap.2 ⟨vals, hold, hdec⟩)
  · exact Or.inr (hnew c hdec)

theorem classRows (h : Adds tableId indexId st st') : st.classRows ⊆ st'.classRows := by
  unfold State.classRows
  exact List.filterMap_subset _ (h.kept _)

end Adds

/-! ## CREATE -/

theorem reads_alloc (n : Nat) : Reads st { st with allocs := n } := ⟨rfl, fun _ _ h => Or.inl h⟩

/-- The cache is emptied. -/
theorem adds_invalidated (h : Adds tableId indexId st st') :
    Adds tableId indexId st { st' with cache := .empty } :=
  ⟨h.kept, h.added, fun _ _ hl => by cases hl⟩

/-- **CREATE INDEX** adds a row with the next id. -/
theorem performCreateIndex_ends (txn pages : Nat) (a : CreateIndexStmt) (st : State) :
    Ends (performCreateIndex txn pages a) st
      (fun _ st' => Adds tableId (nextIndexId st) st st' ∧
        st'.chains .pgConstraint = st.chains .pgConstraint ∧
        ∃ x ∈ st'.allIndexes, x.indexId = asUsize (nextIndexId st))
      (fun st' => Adds tableId (nextIndexId st) st st' ∧
        st'.chains .pgConstraint = st.chains .pgConstraint) := by
  have htable := (tableById_reading a.tableId).reads st
  unfold Ends
  rw [performCreateIndex_eq]
  cases hx : tableById a.tableId st with
  | error e st₁ =>
    rw [hx] at htable
    exact ⟨.of_reads htable, congrFun htable.chains _⟩
  | ok t st₁ =>
    rw [hx] at htable
    cases t with
    | none => exact ⟨.of_reads htable, congrFun htable.chains _⟩
    | some t =>
      dsimp only
      have htaken : Reads st { st₁ with allocs := st₁.allocs + pages + 1 } :=
        htable.trans (reads_alloc _)
      have hlabel : ∀ root, Labelled tableId (nextIndexId st) .pgIndex (indexValues st a root) := by
        intro root x hdec
        cases hdec
        exact asI32_asUsize _
      have hins := insertBytes_ends .pgIndex (t := .mk' txn invalidTxnId
        (indexValues st a (st₁.fresh (st₁.allocs + pages)))) rfl
        { st₁ with allocs := st₁.allocs + pages + 1 }
      unfold Ends at hins
      cases hrun : insertBytes .pgIndex (.mk' txn invalidTxnId
          (indexValues st a (st₁.fresh (st₁.allocs + pages))))
          { st₁ with allocs := st₁.allocs + pages + 1 } with
      | error e st₂ =>
        rw [hrun] at hins
        rw [EStateM.bind_of_error hrun]
        exact ⟨(Adds.of_reads htaken).trans (.of_put hins fun _ h => absurd h List.not_mem_nil),
          (hins.others _ (by decide)).trans (congrFun htaken.chains _)⟩
      | ok u st₂ =>
        rw [hrun] at hins
        rw [EStateM.bind_of_ok hrun]
        have hadds : Adds tableId (nextIndexId st) st st₂ :=
          (Adds.of_reads htaken).trans (.of_put hins fun vals h => by
            rw [List.mem_singleton.1 h]
            exact hlabel _)
        refine ⟨adds_invalidated hadds, ?_, ?_⟩
        · exact (hins.others _ (by decide)).trans (congrFun htaken.chains _)
        · obtain ⟨x, hdec, hid⟩ : ∃ x, decodeIndexRow (indexValues st a
              (st₁.fresh (st₁.allocs + pages))) = some x ∧ x.indexId = asUsize (nextIndexId st) :=
            ⟨_, rfl, rfl⟩
          refine ⟨x, List.mem_filterMap.2 ⟨_, ?_, hdec⟩, hid⟩
          show _ ∈ scanChain (st₂.chains .pgIndex)
          rw [hins.scan]
          exact List.mem_append_right _ (List.mem_singleton_self _)

/-- The rows of `pg_constraint` of a CREATE TABLE, the first with the id `next`. -/
def constraintRows (s : CreateTableStmt) (tableId next : Int32) : List (List Value) :=
  (s.checkConstraints.zipIdx.map fun c => (constraintTuple 0 (next + asI32 c.2)
    s!"{s.table}_check_{c.2}" tableId .check c.1).values) ++
  s.foreignKeys.zipIdx.map fun c => (constraintTuple 0
    (next + asI32 (s.checkConstraints.length + c.2)) s!"{s.table}_fkey_{c.2}" tableId .foreignKey
      c.1.encode).values

theorem labelled_constraint (txn : Nat) (next : Int32) (name : String) (kind : ConstraintKind)
    (definition : String) : Labelled tableId indexId .pgConstraint
      (constraintTuple txn next name tableId kind definition).values := by
  intro c hdec
  cases kind <;> cases hdec <;> exact asI32_asUsize _

theorem createPrimaryKey_ends (txn pages : Nat) (s : CreateTableStmt) (pk : Option Nat)
    (id : Int32) (st : State) : Ends (createPrimaryKey txn pages s id pk) st
      (fun _ st' => Adds tableId (nextIndexId st) st st' ∧
        st'.chains .pgConstraint = st.chains .pgConstraint)
      (fun st' => Adds tableId (nextIndexId st) st st') := by
  cases pk with
  | none => exact ⟨.of_reads (.refl _), rfl⟩
  | some col =>
    exact (performCreateIndex_ends txn pages _ st).mono (fun _ _ h => ⟨h.1, h.2.1⟩) fun _ h => h.1

/-- **CREATE TABLE** adds its constraints after those there are. -/
theorem createTableRows_ends (txn pages : Nat) (s : CreateTableStmt) (pk : Option Nat) (st : State) :
    Ends (createTableRows txn pages s pk tableId) st
      (fun _ st' => Adds tableId (nextIndexId st) st st' ∧ st'.cache = .empty ∧
        ∃ next, scanChain (st'.chains .pgConstraint) =
          scanChain (st.chains .pgConstraint) ++ constraintRows s tableId next)
      (fun st' => Adds tableId (nextIndexId st) st st') := by
  have hsame : ∀ {s₁ : State}, s₁.chains .pgIndex = st.chains .pgIndex →
      nextIndexId s₁ = nextIndexId st := by
    intro s₁ h
    unfold nextIndexId State.allIndexes
    rw [h]
  unfold createTableRows
  -- the columns
  refine ((insertEach_ends .pgAttribute (fun c : ColumnDef × Nat =>
      attributeTuple txn tableId c.1 c.2) (fun _ => rfl) _ st).mono (fun _ _ h => h) ?_).bind
    fun _ s₁ h₁ => ?_
  · rintro st' ⟨rows, -, h⟩
    exact .of_put h fun _ _ => trivial
  have hadds₁ : Adds tableId (nextIndexId st) st s₁ := .of_put h₁ fun _ _ => trivial
  show Ends (get >>= _) s₁ _ _
  refine Ends.bind (Q := fun a s => s₁ = a ∧ s₁ = s) ⟨rfl, rfl⟩ ?_
  rintro _ _ ⟨rfl, rfl⟩
  -- the CHECK clauses
  refine ((insertEach_ends .pgConstraint _ (fun _ => rfl) _ s₁).mono (fun _ _ h => h) ?_).bind
    fun _ s₂ h₂ => ?_
  · rintro st' ⟨rows, hsub, h⟩
    refine hadds₁.trans (.of_put h fun vals hvals => ?_)
    obtain ⟨c, -, rfl⟩ := List.mem_map.1 (hsub hvals)
    exact labelled_constraint _ _ _ _ _
  have hadds₂ : Adds tableId (nextIndexId st) st s₂ := hadds₁.trans (.of_put h₂ fun vals hvals => by
    obtain ⟨c, -, rfl⟩ := List.mem_map.1 hvals
    exact labelled_constraint _ _ _ _ _)
  -- the FOREIGN KEY clauses
  refine ((insertEach_ends .pgConstraint _ (fun _ => rfl) _ s₂).mono (fun _ _ h => h) ?_).bind
    fun _ s₃ h₃ => ?_
  · rintro st' ⟨rows, hsub, h⟩
    refine hadds₂.trans (.of_put h fun vals hvals => ?_)
    obtain ⟨c, -, rfl⟩ := List.mem_map.1 (hsub hvals)
    exact labelled_constraint _ _ _ _ _
  have hadds₃ : Adds tableId (nextIndexId st) st s₃ := hadds₂.trans (.of_put h₃ fun vals hvals => by
    obtain ⟨c, -, rfl⟩ := List.mem_map.1 hvals
    exact labelled_constraint _ _ _ _ _)
  have hnext : nextIndexId s₃ = nextIndexId st := hsame (((h₃.others _ (by decide)).trans
    (h₂.others _ (by decide))).trans (h₁.others _ (by decide)))
  -- the primary key
  refine ((@createPrimaryKey_ends tableId txn pages s pk tableId s₃).mono
    (fun _ _ h => h) fun st' h => ?_).bind fun _ s₄ h₄ => ?_
  · rw [hnext] at h
    exact hadds₃.trans h
  rw [hnext] at h₄
  refine ⟨adds_invalidated (hadds₃.trans h₄.1), rfl,
    maxId (s₁.allConstraints.map ConstraintDef.constraintId) + 1, ?_⟩
  show scanChain (s₄.chains .pgConstraint) = _
  rw [h₄.2, h₃.scan, h₂.scan, h₁.others .pgConstraint (by decide), List.append_assoc]
  rfl

theorem fromInt_toInt (kind : ConstraintKind) : ConstraintKind.fromInt kind.toInt = some kind := by
  cases kind <;> rfl

/-- What `constraints_for_table` makes of the rows of a CREATE TABLE. -/
theorem said_constraintRows (s : CreateTableStmt) (next : Int32) :
    ((((constraintRows s tableId next).filterMap State.decodeConstraint).filter
      fun c => c.tableId = asUsize tableId).map said) = declared s := by
  have hdecode : ∀ (id : Int32) (name : String) (kind : ConstraintKind) (definition : String),
      State.decodeConstraint (constraintTuple 0 id name tableId kind definition).values =
        some ⟨asUsize id, name, asUsize tableId, kind, definition⟩ := by
    intro id name kind definition
    simp [constraintTuple, HeapTuple.mk', State.decodeConstraint, fromInt_toInt]
  have heach : ∀ {α : Type} (l : List α) (f : α → ConstraintDef),
      (∀ a, (f a).tableId = asUsize tableId) →
      ((l.filterMap fun a => some (f a)).filter fun c => c.tableId = asUsize tableId).map said =
        l.map fun a => said (f a) := by
    intro α l f hf
    have hmap : (l.filterMap fun a => some (f a)) = l.map f := congrFun List.filterMap_eq_map l
    rw [hmap, List.filter_eq_self.2 fun c hc => ?_, List.map_map]
    · rfl
    · obtain ⟨a, -, rfl⟩ := List.mem_map.1 hc
      simpa using hf a
  unfold constraintRows declared
  rw [List.filterMap_append, List.filter_append, List.map_append]
  simp only [List.filterMap_map, Function.comp_def, hdecode]
  rw [heach _ _ fun _ => rfl, heach _ _ fun _ => rfl]
  rfl

/-! ## DROP -/

/-- The rows that are `gone` are tombstoned, and no others. -/
structure Removes (gone : Rel → List Value → Bool) (st st' : State) : Prop where
  kept : ∀ rel, ∀ vals ∈ scanChain (st.chains rel), gone rel vals = false →
    vals ∈ scanChain (st'.chains rel)
  sub : ∀ rel, scanChain (st'.chains rel) ⊆ scanChain (st.chains rel)

namespace Removes

variable {gone : Rel → List Value → Bool}

theorem refl (st : State) : Removes gone st st :=
  ⟨fun _ _ h _ => h, fun _ => List.Subset.refl _⟩

theorem trans {st'' : State} (h : Removes gone st st') (h' : Removes gone st' st'') :
    Removes gone st st'' :=
  ⟨fun rel vals hvals hgone => h'.kept rel vals (h.kept rel vals hvals hgone) hgone,
    fun rel => List.Subset.trans (h'.sub rel) (h.sub rel)⟩

theorem allConstraints (h : Removes gone st st') : st'.allConstraints ⊆ st.allConstraints := by
  unfold State.allConstraints
  exact List.filterMap_subset _ (h.sub _)

theorem allIndexes (h : Removes gone st st') : st'.allIndexes ⊆ st.allIndexes :=
  allIndexes_mono (h.sub _)

theorem keeps_index (h : Removes gone st st') {x : IndexDef} (hx : x ∈ st.allIndexes)
    (hstay : ∀ vals, decodeIndexRow vals = some x → gone .pgIndex vals = false) :
    x ∈ st'.allIndexes := by
  unfold State.allIndexes at hx ⊢
  obtain ⟨vals, hvals, hdec⟩ := List.mem_filterMap.1 hx
  exact List.mem_filterMap.2 ⟨vals, h.kept .pgIndex vals hvals (hstay vals hdec), hdec⟩

theorem keeps_class (h : Removes gone st st') {r : ClassRow} (hr : r ∈ st.classRows)
    (hstay : ∀ vals, decodeClass vals = some r → gone .pgClass vals = false) :
    r ∈ st'.classRows := by
  unfold State.classRows at hr ⊢
  obtain ⟨vals, hvals, hdec⟩ := List.mem_filterMap.1 hr
  exact List.mem_filterMap.2 ⟨vals, h.kept .pgClass vals hvals (hstay vals hdec), hdec⟩

end Removes

/-- A row that the predicate does not hold of stays in the scan. -/
theorem tombstone_kept {pred : List Value → Bool} {n : Nat} {pages : List Page} {vals : List Value}
    (hvals : vals ∈ scanChain pages) (hpred : pred vals = false) :
    vals ∈ scanChain (pages.map (tombstonePage pred n)) := by
  rw [scanChain_eq, List.mem_filterMap] at hvals ⊢
  obtain ⟨s, hs, hval⟩ := hvals
  obtain ⟨p, hp, hs⟩ := List.mem_flatMap.1 hs
  have hnone : liveMatch pred s = none := by
    unfold slotValues at hval
    unfold liveMatch
    cases ht : s.tuple with
    | none => rfl
    | some t =>
      cases t with
      | heap t =>
        rw [ht] at hval
        dsimp only at hval ⊢
        unfold notDeleted at hval
        split at hval
        · cases hval
          simp [hpred]
        · cases hval
      | _ => rfl
  refine ⟨s, List.mem_flatMap.2 ⟨tombstonePage pred n p, List.mem_map_of_mem hp, ?_⟩, hval⟩
  refine List.mem_map.2 ⟨s, hs, ?_⟩
  rw [hnone]

theorem tombstone_removes {gone : Rel → List Value → Bool} {rel : Rel} {n : Nat} (hn : n ≠ 0)
    {pred : List Value → Bool} (hpred : ∀ vals, gone rel vals = false → pred vals = false)
    (st : State) : Ends (tombstoneCatalogRows rel n pred) st (fun _ st' => Removes gone st st')
      fun _ => False := by
  refine ⟨fun rel' vals hvals hgone => ?_, fun rel' => ?_⟩
  · show vals ∈ scanChain (Function.update st.chains rel _ rel')
    by_cases hrel : rel' = rel
    · subst hrel
      rw [Function.update_self]
      exact tombstone_kept hvals (hpred vals hgone)
    · rwa [Function.update_of_ne hrel]
  · show scanChain (Function.update st.chains rel _ rel') ⊆ _
    by_cases hrel : rel' = rel
    · subst hrel
      rw [Function.update_self]
      exact (tombstone_scan hn _).subset
    · rw [Function.update_of_ne hrel]
      exact List.Subset.refl _

/-- The rows of the tables with these ids, in `pg_class`, `pg_attribute` and `pg_index`. -/
def ofTables (ids : List Nat) : Rel → List Value → Bool
  | .pgClass, vals | .pgAttribute, vals => ids.any fun id => hasId 0 id vals
  | .pgIndex, vals => ids.any fun id => hasId 2 id vals
  | _, _ => false

/-- **DROP TABLE** does not fail, and leaves `pg_constraint` alone. -/
theorem performDropTable_ends {txn : Nat} (htxn : txn ≠ 0) (ids : List Nat) (st : State) :
    Ends (performDropTable txn ids) st
      (fun _ st' => Removes (ofTables ids) st st' ∧ st'.cache = .empty) fun _ => False := by
  have hloop : ∀ (l : List Nat), l ⊆ ids → ∀ s, Removes (ofTables ids) st s →
      Ends (l.forM fun id => do
        tombstoneCatalogRows .pgClass txn (hasId 0 id)
        tombstoneCatalogRows .pgAttribute txn (hasId 0 id)
        tombstoneCatalogRows .pgIndex txn (hasId 2 id)) s
        (fun _ s' => Removes (ofTables ids) st s') fun _ => False := by
    intro l
    induction l with
    | nil => exact fun _ s hs => hs
    | cons id l ih =>
      intro hsub s hs
      have hid : id ∈ ids := hsub List.mem_cons_self
      have hpred : ∀ k vals, (ids.any fun i => hasId k i vals) = false → hasId k id vals = false := by
        intro k vals h
        simpa using List.any_eq_false.1 h id hid
      show Ends (_ >>= fun _ => l.forM _) s _ _
      refine Ends.bind (Q := fun _ s' => Removes (ofTables ids) st s') ?_ fun _ s₁ h₁ =>
        ih (fun i hi => hsub (List.mem_cons_of_mem _ hi)) s₁ h₁
      refine ((tombstone_removes htxn (hpred 0) s).mono (fun _ _ h => hs.trans h) fun _ h => h).bind
        fun _ s₁ h₁ => ?_
      refine ((tombstone_removes htxn (hpred 0) s₁).mono (fun _ _ h => h₁.trans h) fun _ h => h).bind
        fun _ s₂ h₂ => ?_
      exact (tombstone_removes htxn (hpred 2) s₂).mono (fun _ _ h => h₂.trans h) fun _ h => h
  refine (hloop ids (List.Subset.refl _) st (.refl st)).bind fun _ s hs => ?_
  exact ⟨⟨hs.kept, hs.sub⟩, rfl⟩

/-! ## One statement -/

/-- **No id that is still spoken of is above the ids there are.** -/
structure Ahead (db : Db) : Prop where
  tables : TablesAbove db.cat fun _ => True
  indexes : IndexesAbove db fun _ => True
  cached : ∀ id l, db.cat.cache.indexesByTable id = some l →
    ∀ x ∈ l, ∃ y ∈ db.cat.allIndexes, asI32 x.indexId ≤ asI32 y.indexId

variable {db : Db} {a : Act}

/-- The row of a new table is there before its constraints are. -/
theorem performCreateTable_ends (txn pages : Nat) (s : CreateTableStmt) (pk : Option Nat)
    (st : State) {tables : List TableDef} (ht : st.userTables = .ok tables) :
    Ends (performCreateTable txn pages s pk) st
      (fun _ st' => Adds (newTableId tables) (nextIndexId st) st st' ∧
        (∃ r ∈ st'.classRows, r.rawId = newTableId tables) ∧ st'.cache = .empty ∧
        ∃ next, scanChain (st'.chains .pgConstraint) =
          scanChain (st.chains .pgConstraint) ++ constraintRows s (newTableId tables) next)
      (fun st' => Adds (newTableId tables) (nextIndexId st) st st' ∧
        (st'.chains .pgConstraint = st.chains .pgConstraint ∨
          ∃ r ∈ st'.classRows, r.rawId = newTableId tables)) := by
  unfold Ends
  rw [performCreateTable_eq, ht]
  dsimp only
  show Ends (_ >>= _) _ _ _
  refine ((insertBytes_ends .pgClass rfl _).mono (fun _ _ h => h) fun st' h => ?_).bind
    fun _ s₁ h₁ => ?_
  · exact ⟨(Adds.of_reads (reads_alloc _)).trans (.of_put h fun _ _ => trivial),
      Or.inl (h.others _ (by decide))⟩
  have hadds : Adds (newTableId tables) (nextIndexId st) st s₁ :=
    (Adds.of_reads (reads_alloc _)).trans (.of_put h₁ fun _ _ => trivial)
  have hnext : nextIndexId s₁ = nextIndexId st := by
    unfold nextIndexId State.allIndexes
    rw [h₁.others .pgIndex (by decide)]
  have hrow : ∃ r ∈ s₁.classRows, r.rawId = newTableId tables := by
    refine ⟨⟨newTableId tables, s.table, asI32 (st.fresh st.allocs)⟩, ?_, rfl⟩
    unfold State.classRows
    rw [h₁.scan, List.filterMap_append]
    exact List.mem_append_right _ (by simp [decodeClass, HeapTuple.mk'])
  have hkeep : ∀ {s' : State}, Adds (newTableId tables) (nextIndexId s₁) s₁ s' →
      ∃ r ∈ s'.classRows, r.rawId = newTableId tables := by
    rintro s' h
    obtain ⟨r, hr, hid⟩ := hrow
    exact ⟨r, h.classRows hr, hid⟩
  refine (createTableRows_ends txn pages s pk s₁).mono ?_ fun s' h => ?_
  · rintro _ s' ⟨h, hcache, next, hscan⟩
    refine ⟨hadds.trans (hnext ▸ h), hkeep h, hcache, next, ?_⟩
    rw [hscan, h₁.others .pgConstraint (by decide)]
  · exact ⟨hadds.trans (hnext ▸ h), Or.inr (hkeep h)⟩

/-- What a statement that reads only leaves. -/
theorem Ahead.of_reads (h : Ahead db) (hr : Reads db.cat st') : Ahead ⟨st', db.wal⟩ := by
  obtain ⟨htables, hindexes, hcached⟩ := h
  unfold TablesAbove State.allConstraints State.classRows at htables
  refine ⟨?_, ?_, fun id l hl => ?_⟩
  · unfold TablesAbove State.allConstraints State.classRows
    rw [hr.chains]
    exact htables
  · unfold IndexesAbove
    rw [hr.allIndexes]
    exact hindexes
  · rw [hr.allIndexes]
    rcases hr.cached id l hl with hold | hsub
    · exact hcached id l hold
    · exact fun x hx => ⟨x, hsub hx, Int32.le_refl _⟩

/-- What a CREATE leaves. -/
theorem Ahead.of_adds (h : Ahead db) (hadds : Adds tableId indexId db.cat st')
    (hsys : State.isSystemId tableId = false)
    (hrow : st'.chains .pgConstraint = db.cat.chains .pgConstraint ∨
      ∃ r ∈ st'.classRows, r.rawId = tableId) : Ahead ⟨st', db.wal⟩ := by
  have hgrown := allIndexes_mono (hadds.kept .pgIndex)
  refine ⟨fun c hc => ?_, fun i hi => ?_, fun id l hl x hx => ?_⟩
  · have hold : c ∈ db.cat.allConstraints → ∃ r ∈ st'.classRows,
        State.isSystemId r.rawId = false ∧ True ∧ asI32 c.tableId ≤ r.rawId := by
      intro hc
      obtain ⟨r, hr, hrest⟩ := h.tables c hc
      exact ⟨r, hadds.classRows hr, hrest⟩
    rcases hrow with hsame | ⟨r, hr, hid⟩
    · unfold State.allConstraints at hc hold
      rw [hsame] at hc
      exact hold hc
    · rcases hadds.allConstraints hc with hc | hc
      · exact hold hc
      · rw [← hid] at hsys
        exact ⟨r, hr, hsys, trivial, by rw [hc, hid]; exact Int32.le_refl _⟩
  · obtain ⟨x, hx, hrest⟩ := h.indexes i hi
    exact ⟨x, hgrown hx, hrest⟩
  · rcases hadds.cached id l hl with hold | hsub
    · obtain ⟨y, hy, hle⟩ := h.cached id l hold x hx
      exact ⟨y, hgrown hy, hle⟩
    · exact ⟨x, hsub hx, Int32.le_refl _⟩

/-- **The index of a CREATE** has an id of which the log knows nothing. -/
theorem index_fresh (h : Ahead db) (hleft : IdsLeft db.cat)
    (hadds : Adds tableId (nextIndexId db.cat) db.cat st') :
    ∀ x ∈ st'.allIndexes, x ∉ db.cat.allIndexes → x.indexId ∉ db.wal := by
  intro x hx hnew hin
  obtain ⟨y, hy, -, hle⟩ := h.indexes _ hin
  rcases hadds.allIndexes hx with hold | hid
  · exact hnew hold
  · rw [hid] at hle
    exact Int32.lt_irrefl (Int32.lt_of_lt_of_le (lt_nextIndexId hleft hy) hle)

/-- **No constraint has the id of the new table** before the statement. -/
theorem no_constraint (h : Ahead db) (hleft : IdsLeft db.cat) {tables : List TableDef}
    (ht : db.cat.userTables = .ok tables) :
    (db.cat.allConstraints.filter fun c => c.tableId = asUsize (newTableId tables)) = [] := by
  refine List.filter_eq_nil_iff.2 fun c hc heq => ?_
  obtain ⟨r, hr, hsys, -, hle⟩ := h.tables c hc
  rw [of_decide_eq_true heq, asI32_asUsize] at hle
  exact Int32.lt_irrefl (Int32.lt_of_lt_of_le (lt_newTableId ht hleft hr hsys) hle)

theorem reads_userTables (h : Reads st st') : st'.userTables = st.userTables := by
  unfold State.userTables State.classRows State.columnsFor
  rw [h.chains]

theorem reads_nextIndexId (h : Reads st st') : nextIndexId st' = nextIndexId st := by
  unfold nextIndexId
  rw [h.allIndexes]

/-- **CREATE TABLE**, from the analysis on. -/
theorem createTable_ends (txn : TxnId) (pages : Nat) (s : CreateTableStmt) (st : State) :
    Ends (Stmt.createTable txn pages s).run st
      (fun _ st' => ∃ tables, st.userTables = .ok tables ∧
        Adds (newTableId tables) (nextIndexId st) st st' ∧
        (∃ r ∈ st'.classRows, r.rawId = newTableId tables) ∧ st'.cache = .empty ∧
        ∃ next, scanChain (st'.chains .pgConstraint) =
          scanChain (st.chains .pgConstraint) ++ constraintRows s (newTableId tables) next)
      (fun st' => Reads st st' ∨ ∃ tables, Adds (newTableId tables) (nextIndexId st) st st' ∧
        (st'.chains .pgConstraint = st.chains .pgConstraint ∨
          ∃ r ∈ st'.classRows, r.rawId = newTableId tables)) := by
  have hanalysis := Reading.reads (guar_analyzeCreateTable findTable_reading s) st
  show Ends (analyzeCreateTable s >>= performCreateTable txn pages s) st _ _
  unfold Ends
  cases hx : analyzeCreateTable s st with
  | error e st₁ =>
    rw [hx] at hanalysis
    rw [EStateM.bind_of_error hx]
    exact Or.inl hanalysis
  | ok pk st₁ =>
    rw [hx] at hanalysis
    rw [EStateM.bind_of_ok hx]
    have hanalysis : Reads st st₁ := hanalysis
    cases ht : st.userTables with
    | error e =>
      rw [performCreateTable_eq, reads_userTables hanalysis, ht]
      exact Or.inl hanalysis
    | ok tables =>
      have hrun := performCreateTable_ends txn pages s pk st₁
        ((reads_userTables hanalysis).trans ht)
      rw [reads_nextIndexId hanalysis] at hrun
      unfold Ends at hrun
      cases hp : performCreateTable txn pages s pk st₁ with
      | error e st' =>
        rw [hp] at hrun
        refine Or.inr ⟨tables, (Adds.of_reads hanalysis).trans hrun.1, ?_⟩
        rw [← congrFun hanalysis.chains .pgConstraint]
        exact hrun.2
      | ok u st' =>
        rw [hp] at hrun
        obtain ⟨hadds, hrow, hcache, next, hscan⟩ := hrun
        refine ⟨tables, rfl, (Adds.of_reads hanalysis).trans hadds, hrow, hcache, next, ?_⟩
        rw [hscan, hanalysis.chains]

theorem Ahead.createTable (h : Ahead db) (txn : TxnId) (pages : Nat) (s : CreateTableStmt) :
    Ahead ⟨((Stmt.createTable txn pages s).run db.cat).final, db.wal⟩ := by
  have hends := createTable_ends txn pages s db.cat
  unfold Ends at hends
  cases hx : (Stmt.createTable txn pages s).run db.cat with
  | ok u st' =>
    rw [hx] at hends
    obtain ⟨tables, -, hadds, hrow, -⟩ := hends
    exact h.of_adds hadds (newTableId_user tables) (Or.inr hrow)
  | error e st' =>
    rw [hx] at hends
    rcases hends with hreads | ⟨tables, hadds, hrow⟩
    · exact h.of_reads hreads
    · exact h.of_adds hadds (newTableId_user tables) hrow

/-- **CREATE INDEX**, from the analysis on. -/
theorem createIndex_ends (txn : TxnId) (pages : Nat) (name table column : String) (isUnique : Bool)
    (st : State) : Ends (Stmt.createIndex txn pages name table column isUnique).run st
      (fun _ st' => Adds 5 (nextIndexId st) st st' ∧
        st'.chains .pgConstraint = st.chains .pgConstraint ∧
        ∃ x ∈ st'.allIndexes, x.indexId = asUsize (nextIndexId st))
      (fun st' => Adds 5 (nextIndexId st) st st' ∧
        st'.chains .pgConstraint = st.chains .pgConstraint) := by
  have hanalysis := Reading.reads
    (guar_analyzeCreateIndex findTable_reading name table column isUnique) st
  show Ends (analyzeCreateIndex name table column isUnique >>= performCreateIndex txn pages) st _ _
  unfold Ends
  cases hx : analyzeCreateIndex name table column isUnique st with
  | error e st₁ =>
    rw [hx] at hanalysis
    rw [EStateM.bind_of_error hx]
    exact ⟨.of_reads hanalysis, congrFun hanalysis.chains _⟩
  | ok a st₁ =>
    rw [hx] at hanalysis
    rw [EStateM.bind_of_ok hx]
    have hanalysis : Reads st st₁ := hanalysis
    have hrun := @performCreateIndex_ends 5 txn pages a st₁
    rw [reads_nextIndexId hanalysis] at hrun
    refine hrun.mono (fun _ st' h => ?_) fun st' h => ?_
    · exact ⟨(Adds.of_reads hanalysis).trans h.1, h.2.1.trans (congrFun hanalysis.chains _), h.2.2⟩
    · exact ⟨(Adds.of_reads hanalysis).trans h.1, h.2.trans (congrFun hanalysis.chains _)⟩

/-- A CREATE INDEX that logs rows and has room for its own gets through. -/
theorem createIndex_logged {txn : TxnId} {pages keys : Nat} {name table column : String}
    {isUnique : Bool} {i : Nat}
    (hi : i ∈ (Act.createIndex txn pages keys name table column isUnique).records st)
    (hroom : keys = 0 ∨ st.hasRoom .pgIndex (indexSpace name) = true) :
    i = asUsize (nextIndexId st) ∧
      ∃ st', (Stmt.createIndex txn pages name table column isUnique).run st = .ok () st' := by
  have hanalysis := Guar.silent (analyzeCreateIndex_hushed name table column isUnique) st
  show _ ∧ ∃ st', (analyzeCreateIndex name table column isUnique >>= performCreateIndex txn pages) st =
    .ok () st'
  simp only [Act.records] at hi
  unfold answer at hi
  cases hx : analyzeCreateIndex name table column isUnique st with
  | error e st₁ =>
    rw [EStateM.bind_of_error hx] at hi
    cases hi
  | ok a st₁ =>
    rw [hx] at hanalysis
    have hname := (analyzeCreateIndex_inv hx).1
    rw [EStateM.bind_of_ok hx] at hi ⊢
    have hanalysis : Silent st st₁ := hanalysis
    have htable := Guar.silent (tableById_hushed a.tableId) st₁
    rw [performCreateIndex_eq]
    unfold createIndexRecords at hi
    cases ht : tableById a.tableId st₁ with
    | error e st₂ =>
      rw [EStateM.bind_of_error ht] at hi
      cases hi
    | ok t st₂ =>
      rw [EStateM.bind_of_ok ht] at hi
      rw [ht] at htable
      cases t with
      | none => cases hi
      | some t =>
        have hi : i ∈ List.replicate keys (asUsize (nextIndexId st)) := hi
        obtain ⟨hkeys, rfl⟩ := List.mem_replicate.1 hi
        refine ⟨rfl, ?_⟩
        have htaken : Silent st { st₂ with allocs := st₂.allocs + pages + 1 } :=
          (hanalysis.trans htable).trans (Silent.alloc (by show st₂.allocs ≤ _; omega))
        obtain ⟨s', hins, -⟩ := insertRow_room txn
          (indexValues st₁ a (st₂.fresh (st₂.allocs + pages)))
          (htaken.room (hroom.resolve_left hkeys)
            ((rowSpace_index _ _ _ _ _ _).trans (by rw [hname])))
        exact ⟨s', hins⟩

/-- More records, of indexes that are not above those there are. -/
theorem Ahead.log (h : Ahead db) {ids : List Nat}
    (hids : ∀ i ∈ ids, ∃ x ∈ db.cat.allIndexes, asI32 i ≤ asI32 x.indexId) :
    Ahead ⟨db.cat, db.wal ++ ids⟩ := by
  refine ⟨h.tables, fun i hi => ?_, h.cached⟩
  rcases List.mem_append.1 hi with hi | hi
  · exact h.indexes i hi
  · obtain ⟨x, hx, hle⟩ := hids i hi
    exact ⟨x, hx, trivial, hle⟩

theorem Ahead.createIndex (h : Ahead db) (txn : TxnId) (pages keys : Nat)
    (name table column : String) (isUnique : Bool)
    (hroom : keys = 0 ∨ db.cat.hasRoom .pgIndex (indexSpace name) = true) :
    Ahead ⟨((Stmt.createIndex txn pages name table column isUnique).run db.cat).final, db.wal ++
      (Act.createIndex txn pages keys name table column isUnique).records db.cat⟩ := by
  have hends := createIndex_ends txn pages name table column isUnique db.cat
  have hlogged := fun i =>
    @createIndex_logged db.cat txn pages keys name table column isUnique i
  unfold Ends at hends
  cases hx : (Stmt.createIndex txn pages name table column isUnique).run db.cat with
  | ok u st' =>
    rw [hx] at hends
    obtain ⟨hadds, hsame, x, hx', hid⟩ := hends
    refine (h.of_adds hadds (by decide) (Or.inl hsame)).log fun i hi => ?_
    rw [(hlogged i hi hroom).1, ← hid]
    exact ⟨x, hx', Int32.le_refl _⟩
  | error e st' =>
    rw [hx] at hends
    refine (h.of_adds hends.1 (by decide) (Or.inl hends.2)).log fun i hi => ?_
    obtain ⟨-, s', hok⟩ := hlogged i hi hroom
    rw [hx] at hok
    cases hok

/-- What a DROP leaves, when it spares the ids that are spoken of. -/
theorem ahead_of_removes {gone : Rel → List Value → Bool}
    (hr : Removes gone db.cat st') (hcache : st'.cache = .empty)
    (htables : ∀ c ∈ db.cat.allConstraints, ∃ r ∈ db.cat.classRows,
      State.isSystemId r.rawId = false ∧ asI32 c.tableId ≤ r.rawId ∧
        ∀ vals, decodeClass vals = some r → gone .pgClass vals = false)
    (hindexes : ∀ i ∈ db.wal, ∃ x ∈ db.cat.allIndexes, asI32 i ≤ asI32 x.indexId ∧
        ∀ vals, decodeIndexRow vals = some x → gone .pgIndex vals = false) :
    Ahead ⟨st', db.wal⟩ := by
  refine ⟨fun c hc => ?_, fun i hi => ?_, fun id l hl => ?_⟩
  · obtain ⟨r, hrow, hsys, hle, hstay⟩ := htables c (hr.allConstraints hc)
    exact ⟨r, hr.keeps_class hrow hstay, hsys, trivial, hle⟩
  · obtain ⟨x, hx, hle, hstay⟩ := hindexes i hi
    exact ⟨x, hr.keeps_index hx hstay, trivial, hle⟩
  · rw [hcache] at hl
    cases hl

theorem hasId_table {vals : List Value} {x : IndexDef} (h : decodeIndexRow vals = some x) (id : Nat) :
    hasId 2 id vals = (x.tableId == id) := by
  unfold decodeIndexRow at h
  split at h
  · cases h
    rfl
  · cases h

theorem hasId_index {vals : List Value} {x : IndexDef} (h : decodeIndexRow vals = some x) (id : Nat) :
    hasId 0 id vals = (x.indexId == id) := by
  unfold decodeIndexRow at h
  split at h
  · cases h
    rfl
  · cases h

theorem hasId_class {vals : List Value} {r : ClassRow} (h : decodeClass vals = some r) (id : Nat) :
    hasId 0 id vals = (r.id == id) := by
  unfold decodeClass at h
  split at h
  · cases h
    rfl
  · cases h

/-- **DROP TABLE**, from the analysis on. -/
theorem dropTable_final (txn : TxnId) (names : List String) (ifExists : Bool) (st : State) :
    let st' := ((Stmt.dropTable txn names ifExists).run st).final
    Reads st st' ∨ ∃ ids, answer (resolveTables ifExists names) st = .ok ids ∧
      Removes (ofTables ids) st st' ∧ st'.cache = .empty := by
  have hres := Reading.reads (guar_resolveTables findTable_reading ifExists names) st
  show Reads st ((resolveTables ifExists names >>= performDropTable txn) st).final ∨ _
  cases hx : resolveTables ifExists names st with
  | error e st₁ =>
    rw [hx] at hres
    rw [EStateM.bind_of_error hx]
    exact Or.inl hres
  | ok ids st₁ =>
    rw [hx] at hres
    have hres : Reads st st₁ := hres
    have hends := performDropTable_ends txn.2 ids st₁
    unfold Ends at hends
    right
    refine ⟨ids, answer_of_ok hx, ?_⟩
    show Removes _ st ((resolveTables ifExists names >>= performDropTable txn) st).final ∧
      ((resolveTables ifExists names >>= performDropTable txn) st).final.cache = _
    rw [EStateM.bind_of_ok hx]
    cases hp : performDropTable txn ids st₁ with
    | error e st' =>
      rw [hp] at hends
      exact hends.elim
    | ok u st' =>
      rw [hp] at hends
      exact ⟨⟨fun rel => hres.chains ▸ hends.1.kept rel, fun rel => hres.chains ▸ hends.1.sub rel⟩,
        hends.2⟩

/-- The rows of an index. -/
def ofIndex (id : Nat) : Rel → List Value → Bool
  | .pgIndex, vals => hasId 0 id vals
  | _, _ => false

/-- **DROP INDEX.** -/
theorem dropIndex_final (txn : TxnId) (name : String) (ifExists : Bool) (st : State) :
    let st' := ((Stmt.dropIndex txn name ifExists).run st).final
    st' = st ∨ ∃ idx, st.findIndex name = some idx ∧
      Removes (ofIndex idx.indexId) st st' ∧ st'.cache = .empty := by
  have hrun : (Stmt.dropIndex txn name ifExists).run st = dropIndex txn name ifExists st := rfl
  rw [hrun, dropIndex_run]
  cases hf : st.findIndex name with
  | none =>
    dsimp only
    split <;> exact Or.inl rfl
  | some idx =>
    have hr := @tombstone_removes (ofIndex idx.indexId) .pgIndex txn.1 txn.2
      (hasId 0 idx.indexId) (fun _ h => h) st
    exact Or.inr ⟨idx, rfl, ⟨hr.kept, hr.sub⟩, rfl⟩

theorem Ahead.dropTable (h : Ahead db) (txn : TxnId) (names : List String) (ifExists : Bool)
    (hs : Spares db (.dropTable txn names ifExists)) :
    Ahead ⟨((Stmt.dropTable txn names ifExists).run db.cat).final, db.wal⟩ := by
  rcases dropTable_final txn names ifExists db.cat with hreads | ⟨ids, hids, hr, hcache⟩
  · exact h.of_reads hreads
  · simp only [Spares, hids] at hs
    obtain ⟨htables, hindexes⟩ := hs
    refine ahead_of_removes hr hcache (fun c hc => ?_) fun i hi => ?_
    · obtain ⟨r, hrow, hsys, hstay, hle⟩ := htables c hc
      refine ⟨r, hrow, hsys, hle, fun vals hdec => List.any_eq_false.2 fun id hid => ?_⟩
      rw [hasId_class hdec, beq_iff_eq]
      exact fun heq => hstay (heq ▸ hid)
    · obtain ⟨x, hx, hstay, hle⟩ := hindexes i hi
      refine ⟨x, hx, hle, fun vals hdec => List.any_eq_false.2 fun id hid => ?_⟩
      rw [hasId_table hdec, beq_iff_eq]
      exact fun heq => hstay (heq ▸ hid)

theorem Ahead.dropIndex (h : Ahead db) (txn : TxnId) (name : String) (ifExists : Bool)
    (hs : Spares db (.dropIndex txn name ifExists)) :
    Ahead ⟨((Stmt.dropIndex txn name ifExists).run db.cat).final, db.wal⟩ := by
  rcases dropIndex_final txn name ifExists db.cat with hsame | ⟨idx, hf, hr, hcache⟩
  · rw [hsame]
    exact h
  · refine ahead_of_removes hr hcache (fun c hc => ?_) fun i hi => ?_
    · obtain ⟨r, hrow, hsys, -, hle⟩ := h.tables c hc
      exact ⟨r, hrow, hsys, hle, fun _ _ => rfl⟩
    · simp only [Spares, hf] at hs
      obtain ⟨x, hx, hstay, hle⟩ := hs i hi
      refine ⟨x, hx, hle, fun vals hdec => ?_⟩
      show hasId 0 idx.indexId vals = false
      rw [hasId_index hdec]
      exact beq_eq_false_iff_ne.2 hstay

theorem insertRow_logged {tableId : Nat} {null : Nat → Bool} {i : Nat} (h : Ahead db)
    (hi : i ∈ (Act.insertRow tableId null).records db.cat) :
    ∃ x ∈ db.cat.allIndexes, asI32 i ≤ asI32 x.indexId := by
  have hlist : ∀ l st', indexesForTable tableId db.cat = .ok l st' →
      ∀ x ∈ l, ∃ y ∈ db.cat.allIndexes, asI32 x.indexId ≤ asI32 y.indexId := by
    intro l st' hl x hx
    unfold indexesForTable at hl
    cases hc : db.cat.cache.indexesByTable tableId with
    | some hit =>
      rw [hc] at hl
      cases hl
      exact h.cached tableId l hc x hx
    | none =>
      rw [hc] at hl
      cases hl
      exact ⟨x, List.mem_of_mem_filter hx, Int32.le_refl _⟩
  simp only [Act.records] at hi
  unfold answer insertRowRecords at hi
  cases hl : indexesForTable tableId db.cat with
  | error e st₁ =>
    rw [EStateM.bind_of_error hl] at hi
    cases hi
  | ok l st₁ =>
    rw [EStateM.bind_of_ok hl] at hi
    cases ht : tableById tableId st₁ with
    | error e st₂ =>
      rw [EStateM.bind_of_error ht] at hi
      cases hi
    | ok t st₂ =>
      rw [EStateM.bind_of_ok ht] at hi
      cases t with
      | none => cases hi
      | some t =>
        have hi : i ∈ (l.filter fun i => !null i.columnIndex).map IndexDef.indexId := hi
        obtain ⟨x, hx, rfl⟩ := List.mem_map.1 hi
        exact hlist l st₁ hl x (List.mem_of_mem_filter hx)

/-- **The step.** -/
theorem Ahead.step {db' : Db} (h : Ahead db) (hs : Spares db a) (hstep : step db a = some db') :
    Ahead db' := by
  cases hstep
  cases a with
  | createTable txn pages s =>
    show Ahead ⟨_, db.wal ++ []⟩
    rw [List.append_nil]
    exact h.createTable txn pages s
  | createIndex txn pages keys name table column isUnique =>
    exact h.createIndex txn pages keys name table column isUnique hs.2
  | dropTable txn names ifExists =>
    show Ahead ⟨_, db.wal ++ []⟩
    rw [List.append_nil]
    exact h.dropTable txn names ifExists hs
  | dropIndex txn name ifExists =>
    show Ahead ⟨_, db.wal ++ []⟩
    rw [List.append_nil]
    exact h.dropIndex txn name ifExists hs
  | insertRow tableId null =>
    have hreads := Reading.reads (insertRow_reading tableId) db.cat
    refine (h.of_reads hreads).log fun i hi => ?_
    show ∃ x ∈ State.allIndexes _, _
    rw [hreads.allIndexes]
    exact insertRow_logged h hi

theorem constraintsSaid_eq (hcache : st.cache = .empty) (id : Nat) :
    constraintsSaid st id = .ok ((st.constraintsOf id).map said) := by
  unfold constraintsSaid
  rw [answer_constraintsForTable, hcache]
  rfl

/-- **Ids are fresh** where none that is spoken of is above those there are. -/
theorem Ahead.fresh (h : Ahead db) (hs : Spares db a) : Fresh db a := by
  cases a with
  | createTable txn pages s =>
    have hends := createTable_ends txn pages s db.cat
    unfold Ends at hends
    refine ⟨fun {txn' pages' s' cat' tables} heq hok ht => ?_, ?_⟩
    · cases heq
      have hok : (Stmt.createTable txn pages s).run db.cat = .ok () cat' := hok
      rw [hok] at hends
      obtain ⟨tables', ht', -, -, hcache, next, hscan⟩ := hends
      rw [ht] at ht'
      cases ht'
      have hold := no_constraint h hs ht
      unfold State.allConstraints at hold
      rw [constraintsSaid_eq hcache, State.constraintsOf, State.allConstraints, hscan,
        List.filterMap_append, List.filter_append, hold, List.nil_append, said_constraintRows]
    · show ∀ x ∈ ((Stmt.createTable txn pages s).run db.cat).final.allIndexes, _
      cases hx : (Stmt.createTable txn pages s).run db.cat with
      | ok u st' =>
        rw [hx] at hends
        obtain ⟨tables, -, hadds, -⟩ := hends
        exact index_fresh h hs hadds
      | error e st' =>
        rw [hx] at hends
        rcases hends with hreads | ⟨tables, hadds, -⟩
        · exact index_fresh h hs (Adds.of_reads hreads : Adds 5 _ _ _)
        · exact index_fresh h hs hadds
  | createIndex txn pages keys name table column isUnique =>
    refine ⟨fun heq => (by cases heq), ?_⟩
    have hends := createIndex_ends txn pages name table column isUnique db.cat
    show ∀ x ∈ ((Stmt.createIndex txn pages name table column isUnique).run db.cat).final.allIndexes, _
    unfold Ends at hends
    cases hx : (Stmt.createIndex txn pages name table column isUnique).run db.cat with
    | ok u st' =>
      rw [hx] at hends
      exact index_fresh h hs.1 hends.1
    | error e st' =>
      rw [hx] at hends
      exact index_fresh h hs.1 hends.1
  | dropTable txn names ifExists =>
    refine ⟨fun heq => (by cases heq), fun x hx hnew => ?_⟩
    rcases dropTable_final txn names ifExists db.cat with hreads | ⟨ids, -, hr, -⟩
    · exact absurd (hreads.allIndexes ▸ hx) hnew
    · exact absurd (hr.allIndexes hx) hnew
  | dropIndex txn name ifExists =>
    refine ⟨fun heq => (by cases heq), fun x hx hnew => ?_⟩
    rcases dropIndex_final txn name ifExists db.cat with hsame | ⟨idx, -, hr, -⟩
    · exact absurd (hsame ▸ hx) hnew
    · exact absurd (hr.allIndexes hx) hnew
  | insertRow tableId null =>
    refine ⟨fun heq => (by cases heq), fun x hx hnew => ?_⟩
    have hx : x ∈ (indexInsertForRow tableId [] db.cat).final.allIndexes := hx
    rw [(Reading.reads (insertRow_reading tableId) db.cat).allIndexes] at hx
    exact absurd hx hnew

/-- **New ids are fresh** in every run that spares the greatest ids. -/
theorem ids_fresh (db : Db) (acts : List Act) (h : Ahead db) (hrun : Follows step Spares db acts) :
    Follows step Fresh db acts := by
  induction acts generalizing db with
  | nil => trivial
  | cons a acts ih =>
    obtain ⟨hs, db', hstep, hrest⟩ := follows_cons.1 hrun
    exact follows_cons.2 ⟨h.fresh hs, db', hstep, ih db' (h.step hs hstep) hrest⟩

/-! ## Tables that are dropped -/

/-- An empty database and an empty log. -/
def newDb : Db := ⟨bootstrap, []⟩

theorem ahead_newDb : Ahead newDb where
  tables := by decide +kernel
  indexes := by decide +kernel
  cached := fun _ _ h => by cases h

/-- `CREATE TABLE name (k INT PRIMARY KEY, CHECK …)`. -/
def createK (name : String) (checks : List String) : Act :=
  .createTable 2 0 ⟨name, [⟨"k", .int, false, none⟩], ["k"], checks, []⟩

def dropT : Act := .dropTable 3 ["t"] false

/-- A table that is not the last one is dropped. -/
theorem ids_fresh_after_drop : Follows step Fresh newDb [createK "t" ["k > 0"],
    .insertRow 5 fun _ => false, createK "u" [], dropT, createK "v" ["k > 1"]] :=
  ids_fresh newDb _ ahead_newDb (by decide +kernel)

/-- `CREATE TABLE t (k INT PRIMARY KEY, CHECK (k > 0)); INSERT INTO t …; DROP TABLE t`. -/
def history : List Act := [createK "t" ["k > 0"], .insertRow 5 fun _ => false, dropT]

/-- **The CHECK of a dropped table** is one of the next table, and the id of its index in
the log is that of the next index. -/
theorem ids_come_back :
    let db := after step newDb history
    let cat' := ((createK "u" []).run db.cat).final
    refused (createK "u" []).run db.cat = false ∧
      constraintsSaid cat' 5 = .ok [("t_check_0", .check, "k > 0")] ∧
      cat'.allIndexes.map (fun x => (x.name, x.indexId)) = [("u_pkey", 0)] ∧ db.wal = [0] ∧
      ¬ Follows step Fresh newDb (history ++ [createK "u" []]) := by
  refine and_assoc.1 (and_assoc.1 (and_assoc.1 ⟨by decide +kernel, fun hrun => ?_⟩))
  obtain ⟨hfresh, -⟩ := follows_cons.1 (follows_append.1 hrun).2
  have hindexes := hfresh.indexes
  revert hindexes
  decide +kernel

end Ccdb.PgCatalog.FreshIds
