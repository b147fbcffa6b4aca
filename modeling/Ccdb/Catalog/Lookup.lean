import Ccdb.Exec.Dml
import Ccdb.Lib.Guarantee
import Mathlib.Data.List.Sort

/-!
# Ccdb — the system catalog and its cache

`catalog.rs` over the page chains of the system tables: rows whose `xmax` is 0
count, whoever wrote them. Four lookups are memoised; a miss scans the chains
and fills the cache.

The heap pages of user tables and the pages of the trees are outside of this
model; of `new_page` only the ids it hands out matter here.

Main results:

* `CacheOk` — every entry is what a scan returns; the lookups keep it.
* `Coherent` — the cache does not show; `CacheOk.coherent`.
-/

namespace Ccdb.PgCatalog

/-! ## Entries -/

structure ColumnDef where
  name : String
  dataType : DataType
  nullable : Bool
  defaultText : Option String
deriving DecidableEq, Repr

structure TableDef where
  tableId : Nat
  name : String
  firstPageId : Nat
  columns : List ColumnDef
deriving DecidableEq, Repr

structure SequenceDef where
  seqId : Nat
  name : String
  seqPageId : Nat
  increment : Int64
  startValue : Int64
  minValue : Int64
  maxValue : Int64
deriving DecidableEq, Repr

/-- `datatype_from_int`. -/
def datatypeFromInt (n : Int32) : Option DataType :=
  if n = 0 then some .int
  else if n = 1 then some .varchar
  else if n = 2 then some .bool
  else if n = 3 then some .double
  else if n = 4 then some .timestamp
  else if n = 5 then some .date
  else if n = 6 then some .time
  else if n = 7 then some .interval
  else none

/-- `DT_INT` and the others. -/
def datatypeToInt : DataType → Int32
  | .int => 0
  | .varchar => 1
  | .bool => 2
  | .double => 3
  | .timestamp => 4
  | .date => 5
  | .time => 6
  | .interval => 7

/-- `n as i32` of a `usize` or a page id. -/
def asI32 (n : Nat) : Int32 := (UInt32.ofNat n).toInt32

/-! ## State -/

/-- The system tables; their heads are the pages 0 to 4. -/
inductive Rel where
  | pgClass
  | pgAttribute
  | pgIndex
  | pgSequence
  | pgConstraint
deriving DecidableEq, Repr

structure CatalogCache where
  tablesById : Nat → Option TableDef
  nameToId : String → Option Nat
  indexesByTable : Nat → Option (List IndexDef)
  constraintsByTable : Nat → Option (List ConstraintDef)

/-- `CatalogCache::default`. -/
def CatalogCache.empty : CatalogCache :=
  ⟨fun _ => none, fun _ => none, fun _ => none, fun _ => none⟩

/-- `fresh n` is the page id the `n`-th call of `new_page` returns. `version`
counts the writes to the chains; the code has no such counter. -/
structure State where
  chains : Rel → List Page
  cache : CatalogCache
  fresh : Nat → Nat
  allocs : Nat
  version : Nat

abbrev CatM := EStateM DbError State

/-- The rows of a page with their headers, tombstones left out. -/
def pageTuples (p : Page) : List HeapTuple :=
  p.slots.filterMap fun s =>
    match s.tuple with
    | some (.heap t) => some t
    | _ => none

/-- The test of `scan_chain`: nobody has set `xmax`. -/
def notDeleted (t : HeapTuple) : Option (List Value) := if t.xmax = 0 then some t.values else none

/-- `scan_chain`. -/
def scanChain (pages : List Page) : List (List Value) :=
  (pages.flatMap pageTuples).filterMap notDeleted

/-- A `pg_class` row: the id as it is stored, the name and the first page. -/
structure ClassRow where
  rawId : Int32
  name : String
  firstPage : Int32
deriving DecidableEq, Repr

/-- `table_id as usize`. -/
def ClassRow.id (r : ClassRow) : Nat := asUsize r.rawId

def decodeClass : List Value → Option ClassRow
  | .int id :: .varchar name :: .int page :: _ => some ⟨id, name, page⟩
  | _ => none

namespace State

def classRows (st : State) : List ClassRow := (scanChain (st.chains .pgClass)).filterMap decodeClass

/-- One row of `pg_attribute`, for the table it belongs to. -/
def attributeRow (tableId : Int32) : List Value → Except DbError (Option (Int32 × ColumnDef))
  | .int tid :: rest =>
    if tid ≠ tableId then .ok none
    else
      match rest with
      | .varchar name :: .int dt :: rest =>
        match datatypeFromInt dt with
        | none => .error (.bail s!"unknown data type: {dt}")
        | some dataType =>
          match rest with
          | .bool nullable :: .int ord :: rest =>
            let defaultText :=
              match rest with
              | .varchar s :: _ => if s.isEmpty then none else some s
              | _ => none
            .ok (some (ord, ⟨name, dataType, nullable, defaultText⟩))
          | _ => .ok none
      | _ => .ok none
  | _ => .ok none

/-- `columns_for`; the sort is stable. -/
def columnsFor (st : State) (tableId : Int32) : Except DbError (List ColumnDef) := do
  let rows ← (scanChain (st.chains .pgAttribute)).mapM (attributeRow tableId)
  .ok (((rows.filterMap id).insertionSort fun a b => a.1 ≤ b.1).map Prod.snd)

/-- The definition behind a `pg_class` row. -/
def loadTable (st : State) (r : ClassRow) : Except DbError TableDef := do
  let columns ← st.columnsFor (asI32 r.id)
  .ok ⟨r.id, r.name, asPageId r.firstPage, columns⟩

/-- `all_indexes`. -/
def allIndexes (st : State) : List IndexDef :=
  (scanChain (st.chains .pgIndex)).filterMap decodeIndexRow

def decodeConstraint : List Value → Option ConstraintDef
  | .int id :: .varchar name :: .int table :: .int kind :: .varchar definition :: _ =>
    (ConstraintKind.fromInt kind).map fun k => ⟨asUsize id, name, asUsize table, k, definition⟩
  | _ => none

/-- `all_constraints`. -/
def allConstraints (st : State) : List ConstraintDef :=
  (scanChain (st.chains .pgConstraint)).filterMap decodeConstraint

def decodeSequence : List Value → Option SequenceDef
  | .int id :: .varchar name :: .int page :: .int increment :: .int start :: .int min :: .int max ::
      _ =>
    some ⟨asUsize id, name, asPageId page, increment.toInt64, start.toInt64, min.toInt64,
      max.toInt64⟩
  | _ => none

/-- `all_sequences`. -/
def allSequences (st : State) : List SequenceDef :=
  (scanChain (st.chains .pgSequence)).filterMap decodeSequence

def findIndex (st : State) (name : String) : Option IndexDef :=
  st.allIndexes.find? fun i => i.name = name

def findSequence (st : State) (name : String) : Option SequenceDef :=
  st.allSequences.find? fun s => s.name = name

/-- The raw ids `user_tables` leaves out. -/
def isSystemId (n : Int32) : Bool := n = 0 ∨ n = 1 ∨ n = 2 ∨ n = 3 ∨ n = 4

/-- `user_tables`. -/
def userTables (st : State) : Except DbError (List TableDef) :=
  (st.classRows.filter fun r => !isSystemId r.rawId).mapM fun r => do
    let columns ← st.columnsFor r.rawId
    .ok ⟨r.id, r.name, asPageId r.firstPage, columns⟩

end State

/-! ## Memoised lookups -/

def liftE {α : Type} (x : Except DbError α) : CatM α := fun st =>
  match x with
  | .ok a => .ok a st
  | .error e => .error e st

/-- A definition that was read goes into both maps. -/
def State.cacheTable (st : State) (t : TableDef) : State :=
  { st with cache := { st.cache with
    tablesById := Function.update st.cache.tablesById t.tableId (some t)
    nameToId := Function.update st.cache.nameToId t.name (some t.tableId) } }

/-- The two halves of the first lookup of `find_table`. -/
def State.cachedByName (st : State) (name : String) : Option (Nat × TableDef) :=
  (st.cache.nameToId name).bind fun id => (st.cache.tablesById id).map fun t => (id, t)

/-- `find_table`. -/
def findTable (name : String) : CatM (Option (Nat × TableDef)) := do
  let st ← get
  match st.cachedByName name with
  | some hit => return some hit
  | none =>
    match st.classRows.find? fun r => r.name = name with
    | none => return none
    | some r => do
      let t ← liftE (st.loadTable r)
      modify fun st => st.cacheTable t
      return some (t.tableId, t)

/-- `table_by_id`. -/
def tableById (id : Nat) : CatM (Option TableDef) := do
  let st ← get
  match st.cache.tablesById id with
  | some hit => return some hit
  | none =>
    match st.classRows.find? fun r => r.id = id with
    | none => return none
    | some r => do
      let t ← liftE (st.loadTable r)
      modify fun st => st.cacheTable t
      return some t

/-- The scan of `indexes_for_table`. -/
def State.indexesOf (st : State) (tableId : Nat) : List IndexDef :=
  st.allIndexes.filter fun i => i.tableId = tableId

/-- The scan of `constraints_for_table`. -/
def State.constraintsOf (st : State) (tableId : Nat) : List ConstraintDef :=
  st.allConstraints.filter fun c => c.tableId = tableId

def State.cacheIndexes (st : State) (tableId : Nat) : State :=
  { st with cache := { st.cache with
    indexesByTable := Function.update st.cache.indexesByTable tableId
      (some (st.indexesOf tableId)) } }

def State.cacheConstraints (st : State) (tableId : Nat) : State :=
  { st with cache := { st.cache with
    constraintsByTable := Function.update st.cache.constraintsByTable tableId
      (some (st.constraintsOf tableId)) } }

/-- `indexes_for_table`. -/
def indexesForTable (tableId : Nat) : CatM (List IndexDef) := fun st =>
  match st.cache.indexesByTable tableId with
  | some hit => .ok hit st
  | none => .ok (st.indexesOf tableId) (st.cacheIndexes tableId)

/-- `constraints_for_table`. -/
def constraintsForTable (tableId : Nat) : CatM (List ConstraintDef) := fun st =>
  match st.cache.constraintsByTable tableId with
  | some hit => .ok hit st
  | none => .ok (st.constraintsOf tableId) (st.cacheConstraints tableId)

/-- `Catalog::invalidate`. -/
def invalidate : CatM Unit := fun st => .ok () { st with cache := .empty }

/-! ## Coherence -/

/-- What a lookup returns. -/
def answer {α : Type} (x : CatM α) (st : State) : Except DbError α :=
  match x st with
  | .ok a _ => .ok a
  | .error e _ => .error e

/-- Every lookup returns what it would with an empty cache. -/
structure Coherent (st : State) : Prop where
  findTable : ∀ name,
    answer (findTable name) st = answer (findTable name) { st with cache := .empty }
  tableById : ∀ id, answer (tableById id) st = answer (tableById id) { st with cache := .empty }
  indexesForTable : ∀ id,
    answer (indexesForTable id) st = answer (indexesForTable id) { st with cache := .empty }
  constraintsForTable : ∀ id,
    answer (constraintsForTable id) st = answer (constraintsForTable id) { st with cache := .empty }

/-- Every cached entry comes from the rows there are. -/
structure CacheOk (st : State) : Prop where
  tables : ∀ id t, st.cache.tablesById id = some t →
    ∃ r ∈ st.classRows, r.id = id ∧ st.loadTable r = .ok t
  names : ∀ name id, st.cache.nameToId name = some id →
    ∃ r ∈ st.classRows, r.id = id ∧ r.name = name
  indexes : ∀ id l, st.cache.indexesByTable id = some l → l = st.indexesOf id
  constraints : ∀ id l, st.cache.constraintsByTable id = some l → l = st.constraintsOf id

/-- The rows of `pg_class` are well formed, and no two share an id or a name. -/
structure ClassOk (st : State) : Prop where
  decodes : ∀ vals ∈ scanChain (st.chains .pgClass), (decodeClass vals).isSome = true
  ids : (st.classRows.map ClassRow.id).Nodup
  names : (st.classRows.map ClassRow.name).Nodup

variable {st st' : State}

theorem find_of_nodup {α β : Type} [DecidableEq β] {f : α → β} {l : List α} {a : α}
    (h : (l.map f).Nodup) (ha : a ∈ l) : l.find? (fun x => f x = f a) = some a := by
  cases hf : l.find? (fun x => f x = f a) with
  | none =>
    have := List.find?_eq_none.1 hf a ha
    simp at this
  | some b =>
    have hb : f b = f a := by simpa using List.find?_some hf
    rw [List.inj_on_of_nodup_map h (List.mem_of_find?_eq_some hf) ha hb]

theorem loadTable_fields {r : ClassRow} {t : TableDef} (h : st.loadTable r = .ok t) :
    t.tableId = r.id ∧ t.name = r.name := by
  unfold State.loadTable at h
  cases hc : st.columnsFor (asI32 r.id) with
  | error e =>
    rw [hc] at h
    cases h
  | ok columns =>
    rw [hc] at h
    cases h
    exact ⟨rfl, rfl⟩

/-- What a scan by name returns. -/
def State.scanByName (st : State) (name : String) : Except DbError (Option (Nat × TableDef)) :=
  match st.classRows.find? fun r => r.name = name with
  | none => .ok none
  | some r => (st.loadTable r).map fun t => some (t.tableId, t)

/-- What a scan by id returns. -/
def State.scanById (st : State) (id : Nat) : Except DbError (Option TableDef) :=
  match st.classRows.find? fun r => r.id = id with
  | none => .ok none
  | some r => (st.loadTable r).map some

/-- `find_table`, case by case. -/
theorem findTable_cases (name : String) (st : State) :
    (∃ hit, st.cachedByName name = some hit ∧ findTable name st = .ok (some hit) st) ∨
    (st.cachedByName name = none ∧
      ((∃ e, st.scanByName name = .error e ∧ findTable name st = .error e st) ∨
        (st.scanByName name = .ok none ∧ findTable name st = .ok none st) ∨
        ∃ r ∈ st.classRows, ∃ t, st.loadTable r = .ok t ∧
          st.scanByName name = .ok (some (t.tableId, t)) ∧
          findTable name st = .ok (some (t.tableId, t)) (st.cacheTable t))) := by
  have hget : findTable name st = (match st.cachedByName name with
      | some hit => pure (some hit)
      | none =>
        match st.classRows.find? fun r => r.name = name with
        | none => pure none
        | some r => do
          let t ← liftE (st.loadTable r)
          modify fun st => st.cacheTable t
          return some (t.tableId, t) : CatM (Option (Nat × TableDef))) st := rfl
  rw [hget]
  cases hhit : st.cachedByName name with
  | some hit => exact Or.inl ⟨hit, rfl, rfl⟩
  | none =>
    refine Or.inr ⟨rfl, ?_⟩
    unfold State.scanByName
    cases hf : st.classRows.find? fun r => r.name = name with
    | none => exact Or.inr (Or.inl ⟨rfl, rfl⟩)
    | some r =>
      dsimp only
      cases hl : st.loadTable r with
      | error e => exact Or.inl ⟨e, rfl, rfl⟩
      | ok t =>
        exact Or.inr (Or.inr ⟨r, List.mem_of_find?_eq_some hf, t, hl, rfl, rfl⟩)

/-- `table_by_id`, case by case. -/
theorem tableById_cases (id : Nat) (st : State) :
    (∃ hit, st.cache.tablesById id = some hit ∧ tableById id st = .ok (some hit) st) ∨
    (st.cache.tablesById id = none ∧
      ((∃ e, st.scanById id = .error e ∧ tableById id st = .error e st) ∨
        (st.scanById id = .ok none ∧ tableById id st = .ok none st) ∨
        ∃ r ∈ st.classRows, ∃ t, st.loadTable r = .ok t ∧ st.scanById id = .ok (some t) ∧
          tableById id st = .ok (some t) (st.cacheTable t))) := by
  have hget : tableById id st = (match st.cache.tablesById id with
      | some hit => pure (some hit)
      | none =>
        match st.classRows.find? fun r => r.id = id with
        | none => pure none
        | some r => do
          let t ← liftE (st.loadTable r)
          modify fun st => st.cacheTable t
          return some t : CatM (Option TableDef)) st := rfl
  rw [hget]
  cases hhit : st.cache.tablesById id with
  | some hit => exact Or.inl ⟨hit, rfl, rfl⟩
  | none =>
    refine Or.inr ⟨rfl, ?_⟩
    unfold State.scanById
    cases hf : st.classRows.find? fun r => r.id = id with
    | none => exact Or.inr (Or.inl ⟨rfl, rfl⟩)
    | some r =>
      dsimp only
      cases hl : st.loadTable r with
      | error e => exact Or.inl ⟨e, rfl, rfl⟩
      | ok t =>
        exact Or.inr (Or.inr ⟨r, List.mem_of_find?_eq_some hf, t, hl, rfl, rfl⟩)

section Steps

variable {S : State → State → Prop}

/-- A lookup changes the caches at most, by a table that it has read. -/
theorem guar_findTable (hcache : ∀ {s : State} {r : ClassRow} {t : TableDef}, r ∈ s.classRows →
    s.loadTable r = .ok t → S s (s.cacheTable t)) (name : String) :
    Guar S (fun _ => True) (findTable name) fun _ _ => True := by
  refine Guar.ofStep (fun s _ => ?_) fun _ _ _ _ _ => trivial
  rcases findTable_cases name s with ⟨_, -, hrun⟩ | ⟨-, ⟨_, -, hrun⟩ | ⟨-, hrun⟩ | h⟩
  · exact Or.inl (by rw [hrun]; rfl)
  · exact Or.inl (by rw [hrun]; rfl)
  · exact Or.inl (by rw [hrun]; rfl)
  · obtain ⟨r, hr, t, hload, -, hrun⟩ := h
    exact Or.inr (by rw [hrun]; exact hcache hr hload)

theorem guar_tableById (hcache : ∀ {s : State} {r : ClassRow} {t : TableDef}, r ∈ s.classRows →
    s.loadTable r = .ok t → S s (s.cacheTable t)) (id : Nat) :
    Guar S (fun _ => True) (tableById id) fun _ _ => True := by
  refine Guar.ofStep (fun s _ => ?_) fun _ _ _ _ _ => trivial
  rcases tableById_cases id s with ⟨_, -, hrun⟩ | ⟨-, ⟨_, -, hrun⟩ | ⟨-, hrun⟩ | h⟩
  · exact Or.inl (by rw [hrun]; rfl)
  · exact Or.inl (by rw [hrun]; rfl)
  · exact Or.inl (by rw [hrun]; rfl)
  · obtain ⟨r, hr, t, hload, -, hrun⟩ := h
    exact Or.inr (by rw [hrun]; exact hcache hr hload)

end Steps

theorem answer_findTable (name : String) (st : State) :
    answer (findTable name) st = (st.cachedByName name).elim (st.scanByName name) (.ok ∘ some) := by
  unfold answer
  rcases findTable_cases name st with ⟨hit, hh, hrun⟩ | ⟨hh, ⟨e, hs, hrun⟩ | ⟨hs, hrun⟩ | h⟩
  · rw [hrun, hh]
    rfl
  · rw [hrun, hh, hs]
    rfl
  · rw [hrun, hh, hs]
    rfl
  · obtain ⟨r, -, t, -, hs, hrun⟩ := h
    rw [hrun, hh, hs]
    rfl

theorem answer_tableById (id : Nat) (st : State) :
    answer (tableById id) st = (st.cache.tablesById id).elim (st.scanById id) (.ok ∘ some) := by
  unfold answer
  rcases tableById_cases id st with ⟨hit, hh, hrun⟩ | ⟨hh, ⟨e, hs, hrun⟩ | ⟨hs, hrun⟩ | h⟩
  · rw [hrun, hh]
    rfl
  · rw [hrun, hh, hs]
    rfl
  · rw [hrun, hh, hs]
    rfl
  · obtain ⟨r, -, t, -, hs, hrun⟩ := h
    rw [hrun, hh, hs]
    rfl

theorem answer_indexesForTable (id : Nat) (st : State) : answer (indexesForTable id) st =
    .ok ((st.cache.indexesByTable id).getD (st.indexesOf id)) := by
  unfold answer indexesForTable
  cases st.cache.indexesByTable id <;> rfl

theorem answer_constraintsForTable (id : Nat) (st : State) : answer (constraintsForTable id) st =
    .ok ((st.cache.constraintsByTable id).getD (st.constraintsOf id)) := by
  unfold answer constraintsForTable
  cases st.cache.constraintsByTable id <;> rfl

/-- **The cache does not show.** With one row for each id and each name, the
row a scan stops at is the one the entry came from. -/
theorem CacheOk.coherent (h : CacheOk st) (hu : ClassOk st) : Coherent st := by
  have hid : ∀ id t, st.cache.tablesById id = some t →
      ∃ r ∈ st.classRows, r.id = id ∧ st.loadTable r = .ok t ∧ st.scanById id = .ok (some t) := by
    intro id t ht
    obtain ⟨r, hr, rfl, hload⟩ := h.tables id t ht
    refine ⟨r, hr, rfl, hload, ?_⟩
    unfold State.scanById
    rw [find_of_nodup hu.ids hr]
    simp [hload, Except.map]
  refine ⟨fun name => ?_, fun id => ?_, fun id => ?_, fun id => ?_⟩
  · rw [answer_findTable, answer_findTable]
    show _ = st.scanByName name
    cases hc : st.cachedByName name with
    | none => rfl
    | some hit =>
      obtain ⟨id, hname, t, ht, rfl⟩ : ∃ id, st.cache.nameToId name = some id ∧
          ∃ t, st.cache.tablesById id = some t ∧ (id, t) = hit := by
        simpa [State.cachedByName, Option.bind_eq_some_iff] using hc
      obtain ⟨r, hr, hrid, hrname⟩ := h.names name id hname
      obtain ⟨r', hr', hrid', hload, -⟩ := hid id t ht
      -- the row of the name and the row of the id are one
      have hrr : r' = r := List.inj_on_of_nodup_map hu.ids hr' hr (hrid'.trans hrid.symm)
      subst hrr hrname
      show Except.ok (some (id, t)) = _
      unfold State.scanByName
      rw [find_of_nodup hu.names hr]
      simp [hload, Except.map, (loadTable_fields hload).1, hrid]
  · rw [answer_tableById, answer_tableById]
    show _ = st.scanById id
    cases hc : st.cache.tablesById id with
    | none => rfl
    | some t =>
      obtain ⟨-, -, -, -, hs⟩ := hid id t hc
      exact hs.symm
  · rw [answer_indexesForTable, answer_indexesForTable]
    cases hc : st.cache.indexesByTable id with
    | none => rfl
    | some l =>
      rw [h.indexes id l hc]
      rfl
  · rw [answer_constraintsForTable, answer_constraintsForTable]
    cases hc : st.cache.constraintsByTable id with
    | none => rfl
    | some l =>
      rw [h.constraints id l hc]
      rfl

end Ccdb.PgCatalog
