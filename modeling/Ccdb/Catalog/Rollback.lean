import Ccdb.Catalog.IdleDdl

/-!
# Ccdb — DDL that is rolled back

`rollback` relies on the visibility rule to hide what a transaction wrote, and the
catalog does not use it: `scan_chain` takes every row whose `xmax` is 0. So a row
that was created stays, one that was dropped stays away, and one that TRUNCATE
rewrote keeps the new page.

Main results:

* `lasting_step` — a statement that is not idle changes an answer.
* `ddl_rolled_back` — the lookups answer as before the BEGIN, wherever the
  transaction is rolled back, exactly if none of its statements found anything to do.
* `created_table_stays` — a table created in it does not go away.
-/

namespace Ccdb.PgCatalog

open Relation

variable {st st' : State} {txn : TxnId} {names : List String} {vals : List Value} {st₀ : State}

/-! ## Lookups -/

/-- A table that is found has a row, and is cached then. -/
theorem findTable_some {name : String} {id : Nat} {t : TableDef} (hc : CacheOk st)
    (h : findTable name st = .ok (some (id, t)) st') :
    (∃ r ∈ st.classRows, r.id = id ∧ st.loadTable r = .ok t) ∧
      st'.cache.tablesById id = some t := by
  rcases findTable_cases name st with ⟨hit, hh, hrun⟩ | ⟨-, ⟨_, -, hrun⟩ | ⟨-, hrun⟩ | hload⟩
  · rw [hrun] at h
    cases h
    obtain ⟨-, hcached⟩ : st.cache.nameToId name = some id ∧ st.cache.tablesById id = some t := by
      simpa [State.cachedByName, Option.bind_eq_some_iff] using hh
    exact ⟨hc.tables id t hcached, hcached⟩
  · rw [hrun] at h
    cases h
  · rw [hrun] at h
    cases h
  · obtain ⟨r, hr, t', hload, -, hrun⟩ := hload
    rw [hrun] at h
    cases h
    refine ⟨⟨r, hr, (loadTable_fields hload).1.symm, hload⟩, ?_⟩
    show Function.update st.cache.tablesById _ _ _ = _
    rw [Function.update_self]

theorem loadTable_page {r : ClassRow} {t : TableDef} (h : st.loadTable r = .ok t) :
    t.firstPageId = asPageId r.firstPage := by
  unfold State.loadTable at h
  cases hc : st.columnsFor (asI32 r.id) with
  | error e =>
    rw [hc] at h
    cases h
  | ok columns =>
    rw [hc] at h
    cases h
    rfl

theorem tableById_cached {id : Nat} {t : TableDef} (h : st.cache.tablesById id = some t) :
    tableById id st = .ok (some t) st := by
  rcases tableById_cases id st with ⟨hit, hh, hrun⟩ | ⟨hh, -⟩
  · rw [h] at hh
    cases hh
    exact hrun
  · rw [h] at hh
    cases hh

theorem answer_of_ok {α : Type} {x : CatM α} {a : α} (h : x st = .ok a st') :
    answer x st = .ok a := by
  unfold answer
  rw [h]

/-- With a row of the name there is an answer, or an error. -/
theorem findTable_ne_none {name : String} (h : name ∈ st.classRows.map ClassRow.name) :
    answer (findTable name) st ≠ .ok none := by
  intro hans
  unfold answer at hans
  cases hx : findTable name st with
  | error e s =>
    rw [hx] at hans
    cases hans
  | ok r s =>
    rw [hx] at hans
    cases hans
    exact (findTable_none hx).1 h

/-! ## CREATE TABLE -/

/-- A program that does not write `pg_class`. -/
abbrev SparesClass {α : Type} (x : CatM α) : Prop :=
  Guar (fun s s' : State => s'.chains .pgClass = s.chains .pgClass) (fun _ => True) x
    fun _ _ => True

theorem Guar.spares {α : Type} {x : CatM α} (h : SparesClass x) (st : State) :
    (x st).final.chains .pgClass = st.chains .pgClass :=
  (h.steps (s := st) trivial).invariant
    (I := fun s => s.chains .pgClass = st.chains .pgClass) (fun _ _ hs h => hs.trans h) rfl

theorem spares_of_hushed {α : Type} {x : CatM α} (h : Hushed x) : SparesClass x :=
  h.mono fun _ _ hs => by rw [hs.chains]

theorem spares_insertOther {rel : Rel} {t : HeapTuple} (hrel : rel ≠ .pgClass) (ht : t.xmax = 0) :
    SparesClass (insertBytes rel t) := by
  refine Guar.ofStep (fun s _ => Or.inr ?_) fun _ _ _ _ _ => trivial
  rcases insertBytes_cases rel ht s with ⟨pages, n, -, hrun⟩ | ⟨e, n, hrun⟩
  · rw [hrun]
    exact Function.update_of_ne hrel.symm _ _
  · rw [hrun]
    rfl

theorem spares_get : SparesClass (get : CatM State) := Guar.get.post fun _ _ _ => trivial

theorem spares_performCreateIndex (txn pages : Nat) (s : CreateIndexStmt) :
    SparesClass (performCreateIndex txn pages s) := by
  refine spares_get.bind fun st => (spares_of_hushed (tableById_hushed s.tableId)).bind fun r => ?_
  cases r with
  | none => exact Guar.throw
  | some t =>
    refine (spares_of_hushed (allocPages_hushed pages)).bind fun root => ?_
    exact (spares_insertOther (by decide) rfl).bind fun _ => spares_of_hushed invalidate_hushed

theorem spares_createTableRows (txn pages : Nat) (s : CreateTableStmt) (pk : Option Nat)
    (tableId : Int32) : SparesClass (createTableRows txn pages s pk tableId) := by
  refine Guar.bind (Q := fun _ _ => True)
    (Guar.forM fun c _ => spares_insertOther (by decide) rfl) fun _ => ?_
  refine spares_get.bind fun st => ?_
  refine Guar.bind (Q := fun _ _ => True)
    (Guar.forM fun c _ => spares_insertOther (by decide) rfl) fun _ => ?_
  refine Guar.bind (Q := fun _ _ => True)
    (Guar.forM fun c _ => spares_insertOther (by decide) rfl) fun _ => ?_
  refine Guar.bind (Q := fun _ _ => True) ?_ fun _ => spares_of_hushed invalidate_hushed
  cases pk with
  | none => exact Guar.ret
  | some col => exact spares_performCreateIndex _ _ _

/-- The name of the new table was free, and has a row now. -/
theorem lasting_createTable {pages : Nat} {s : CreateTableStmt}
    (h : idle st (.createTable pages s) = false) :
    ¬ SameAnswers st (((Ddl.createTable pages s).stmt txn).run st).final := by
  simp only [idle, Bool.or_eq_false_iff, Bool.not_eq_false'] at h
  obtain ⟨⟨haccepted, htables⟩, hroom⟩ := h
  have hanalysis := Guar.silent (analyzeCreateTable_hushed s) st
  obtain ⟨pk, hpk, hrun⟩ := accepted_bind (f := performCreateTable txn pages s) haccepted
  intro hsame
  have hbefore : answer (findTable s.table) st = .ok none := by
    obtain ⟨r, s₁, hfind, hrest⟩ := EStateM.of_bind_ok hpk
    cases r with
    | some hit => cases hrest
    | none => exact answer_of_ok hfind
  have hafter := hsame.findTable s.table
  rw [hbefore] at hafter
  refine findTable_ne_none ?_ hafter
  show s.table ∈ ((analyzeCreateTable s >>= performCreateTable txn pages s) st).final.classRows.map
    ClassRow.name
  rw [hrun, performCreateTable_eq, hanalysis.userTables]
  generalize (analyzeCreateTable s st).final = s₁ at hanalysis ⊢
  cases ht : st.userTables with
  | error e =>
    rw [ht] at htables
    cases htables
  | ok tables =>
    have htaken := hanalysis.trans (Silent.alloc (Nat.le_succ s₁.allocs))
    obtain ⟨chain, n, -, hscan, hins⟩ := insertBytes_room (t := .mk' txn invalidTxnId _) rfl
      (htaken.room hroom
        (rowSpace_class (newTableId tables) (asI32 (s₁.fresh s₁.allocs)) s.table))
    dsimp only
    rw [EStateM.bind_of_ok hins]
    -- what follows leaves the row alone
    have hclass := Guar.spares (spares_createTableRows txn pages s pk (newTableId tables))
      ({ ({ s₁ with allocs := s₁.allocs + 1 } : State) with allocs := n }.setChain .pgClass chain)
    refine List.mem_map.2 ⟨⟨newTableId tables, s.table, asI32 (s₁.fresh s₁.allocs)⟩, ?_, rfl⟩
    unfold State.classRows
    rw [hclass]
    show _ ∈ (scanChain (Function.update s₁.chains Rel.pgClass chain Rel.pgClass)).filterMap
      decodeClass
    rw [Function.update_self, hscan, List.filterMap_append]
    exact List.mem_append_right _ (by simp [decodeClass, HeapTuple.mk'])

/-! ## CREATE INDEX and CREATE SEQUENCE -/

/-- The id of a row survives the trip through `i32`. -/
theorem ClassRow.asI32_id (r : ClassRow) : asUsize (asI32 r.id) = r.id := by
  unfold ClassRow.id
  rw [asI32_asUsize]

/-- The table has one index more. -/
theorem lasting_createIndex {pages : Nat} {name table column : String} {isUnique : Bool}
    (hs : Sound st) (h : idle st (.createIndex pages name table column isUnique) = false) :
    ¬ SameAnswers st
      (((Ddl.createIndex pages name table column isUnique).stmt txn).run st).final := by
  simp only [idle, Bool.or_eq_false_iff, Bool.not_eq_false'] at h
  obtain ⟨haccepted, hroom⟩ := h
  have hanalysis := Guar.silent (analyzeCreateIndex_hushed name table column isUnique) st
  obtain ⟨a, ha, hrun⟩ := accepted_bind (f := performCreateIndex txn pages) haccepted
  obtain ⟨hname, t, hfind⟩ := analyzeCreateIndex_inv ha
  obtain ⟨⟨r, -, hid, -⟩, hcached⟩ := findTable_some hs.cacheOk hfind
  intro hsame
  have hafter := hsame.indexesForTable a.tableId
  rw [hs.indexesForTable] at hafter
  generalize (analyzeCreateIndex name table column isUnique st).final = s₁ at *
  have htaken : Silent st { s₁ with allocs := s₁.allocs + pages + 1 } :=
    hanalysis.trans (Silent.alloc (by omega))
  obtain ⟨s', hins, happ⟩ := insertRow_room txn
    (indexValues s₁ a (s₁.fresh (s₁.allocs + pages)))
    (htaken.room hroom ((rowSpace_index _ _ _ _ _ _).trans (by rw [hname])))
  have hfinal : (((Ddl.createIndex pages name table column isUnique).stmt txn).run st).final =
      s' := by
    show ((analyzeCreateIndex name table column isUnique >>= performCreateIndex txn pages) st).final
      = s'
    rw [hrun, performCreateIndex_eq, tableById_cached hcached]
    dsimp only
    rw [hins]
    rfl
  have happ := htaken.appended happ
  rw [hfinal, answer_indexesForTable, happ.cache] at hafter
  obtain ⟨x, hx, htable⟩ : ∃ x, decodeIndexRow (indexValues s₁ a (s₁.fresh (s₁.allocs + pages))) =
      some x ∧ x.tableId = a.tableId := ⟨_, rfl, by rw [← hid]; exact r.asI32_id⟩
  have hadded : s'.indexesOf a.tableId = st.indexesOf a.tableId ++ [x] := by
    unfold State.indexesOf State.allIndexes
    rw [happ.scan, List.filterMap_append, List.filter_append]
    simp [hx, htable]
  have hlonger := congrArg List.length (Except.ok.inj hafter)
  simp [CatalogCache.empty, hadded] at hlonger

/-- The sequence was not there, and is. -/
theorem lasting_createSequence {s : CreateSequenceStmt}
    (h : idle st (.createSequence s) = false) :
    ¬ SameAnswers st (((Ddl.createSequence s).stmt txn).run st).final := by
  simp only [idle, Bool.or_eq_false_iff, Bool.not_eq_false', Option.isSome_eq_false_iff,
    Option.isNone_iff_eq_none] at h
  obtain ⟨⟨haccepted, hnone⟩, hroom⟩ := h
  obtain ⟨a, ha, hrun⟩ := accepted_bind (f := performCreateSequence txn) haccepted
  have hname : a.name = s.name := (analyzeCreateSequence_name s).result trivial ha
  have htaken : Silent st { st with allocs := st.allocs + 1 } := Silent.alloc (Nat.le_succ _)
  obtain ⟨s', hins, happ⟩ := insertRow_room txn _ (htaken.room hroom
    ((rowSpace_sequence (maxId (st.allSequences.map SequenceDef.seqId) + 1)
      (asI32 (st.fresh st.allocs)) a.increment.toInt32 a.startValue.toInt32 a.minValue.toInt32
      a.maxValue.toInt32 a.name).trans (by rw [hname])))
  intro hsame
  have hafter := hsame.findSequence s.name
  have hfinal : (((Ddl.createSequence s).stmt txn).run st).final = s' := by
    show ((analyzeCreateSequence s >>= performCreateSequence txn) st).final = s'
    rw [hrun, analyzeCreateSequence_reads s st, performCreateSequence_eq, hins]
    rfl
  rw [hfinal, hnone] at hafter
  unfold State.findSequence at hafter hnone
  rw [(htaken.appended happ).allSequences, List.find?_append, hnone] at hafter
  simp [State.decodeSequence, hname] at hafter

/-! ## DROP -/

/-- No row a scan sees is left that the predicate holds of. -/
theorem tombstone_gone {pred : List Value → Bool} {n : Nat} (hn : n ≠ 0) (pages : List Page) :
    ∀ vals ∈ scanChain (pages.map (tombstonePage pred n)), pred vals = false := by
  intro vals hvals
  rw [scanChain_eq, List.mem_filterMap] at hvals
  obtain ⟨s', hs', hvals⟩ := hvals
  obtain ⟨p', hp', hs'⟩ := List.mem_flatMap.1 hs'
  obtain ⟨p, -, rfl⟩ := List.mem_map.1 hp'
  obtain ⟨s, -, rfl⟩ := List.mem_map.1 hs'
  cases hm : liveMatch pred s with
  | some t => simp [hm, slotValues, notDeleted, hn] at hvals
  | none =>
    simp only [hm] at hvals
    unfold slotValues at hvals
    unfold liveMatch at hm
    split at hvals
    · next t ht =>
      simp only [ht] at hm
      unfold notDeleted at hvals
      split at hvals
      · next hlive =>
        cases hvals
        simpa [hlive] using hm
      · cases hvals
    · cases hvals

/-- What a DROP has done to the rows of a system table for one id. -/
structure Dropped (rel : Rel) (id : Nat) (st st' : State) : Prop where
  sub : (scanChain (st'.chains rel)).Sublist (scanChain (st.chains rel))
  gone : ∀ vals ∈ scanChain (st'.chains rel), hasId 0 id vals = false

theorem tombstone_dropped (rel : Rel) (id : Nat) {n : Nat} (hn : n ≠ 0) (st : State) :
    ∃ s, tombstoneCatalogRows rel n (hasId 0 id) st = .ok () s ∧ Dropped rel id st s := by
  refine ⟨_, rfl, ?_, ?_⟩
  · show (scanChain (Function.update st.chains rel _ rel)).Sublist _
    rw [Function.update_self]
    exact tombstone_scan hn _
  · show ∀ vals ∈ scanChain (Function.update st.chains rel _ rel), _
    rw [Function.update_self]
    exact tombstone_gone hn _

theorem tombstone_others {rel rel' : Rel} (n : Nat) (pred : List Value → Bool) (h : rel' ≠ rel)
    (st : State) :
    ∃ s, tombstoneCatalogRows rel n pred st = .ok () s ∧ s.chains rel' = st.chains rel' :=
  ⟨_, rfl, Function.update_of_ne h _ _⟩

/-- A loop that drops one id after the other. -/
theorem drop_each (rel : Rel) {f : Nat → CatM Unit}
    (hf : ∀ id s, ∃ s', f id s = .ok () s' ∧ Dropped rel id s s') (ids : List Nat) (st : State) :
    ∃ s, ids.forM f st = .ok () s ∧
      (scanChain (s.chains rel)).Sublist (scanChain (st.chains rel)) ∧
      ∀ id ∈ ids, ∀ vals ∈ scanChain (s.chains rel), hasId 0 id vals = false := by
  induction ids generalizing st with
  | nil => exact ⟨st, rfl, List.Sublist.refl _, fun _ h => absurd h List.not_mem_nil⟩
  | cons id ids ih =>
    obtain ⟨s₁, hrun, hdrop⟩ := hf id st
    obtain ⟨s, hrest, hsub, hgone⟩ := ih s₁
    refine ⟨s, ?_, hsub.trans hdrop.sub, fun i hi vals hvals => ?_⟩
    · rw [EStateM.forM_of_ok hrun, hrest]
    · rcases List.mem_cons.1 hi with rfl | hi
      · exact hdrop.gone vals (hsub.subset hvals)
      · exact hgone i hi vals hvals

/-- Every id that was resolved is that of a table. -/
theorem resolveTables_rows {ifExists : Bool} {ids : List Nat}
    (hc : CacheOk st) (h : resolveTables ifExists names st = .ok ids st') :
    ∀ id ∈ ids, ∃ r ∈ st.classRows, r.id = id ∧ ∃ t, st.loadTable r = .ok t := by
  induction names generalizing st st' ids with
  | nil =>
    cases h
    exact fun _ hid => absurd hid List.not_mem_nil
  | cons name names ih =>
    obtain ⟨hit, s₁, hfind, hrest⟩ := EStateM.of_bind_ok h
    have hsilent : Silent st s₁ := by
      have := Guar.silent (findTable_hushed name) st
      rwa [hfind] at this
    -- the rows are those the first name was looked up in
    have hback : ∀ id, (∃ r ∈ s₁.classRows, r.id = id ∧ ∃ t, s₁.loadTable r = .ok t) →
        ∃ r ∈ st.classRows, r.id = id ∧ ∃ t, st.loadTable r = .ok t := by
      rintro id ⟨r, hr, hid, t, ht⟩
      rw [hsilent.sameRows.classRows] at hr
      rw [hsilent.sameRows.loadTable] at ht
      exact ⟨r, hr, hid, t, ht⟩
    cases hit with
    | some hit =>
      obtain ⟨id₀, t₀⟩ := hit
      obtain ⟨rest, s₂, hmore, hret⟩ := EStateM.of_bind_ok hrest
      cases hret
      intro id hid
      rcases List.mem_cons.1 hid with rfl | hid
      · obtain ⟨⟨r, hr, hrid, hload⟩, -⟩ := findTable_some hc hfind
        exact ⟨r, hr, hrid, t₀, hload⟩
      · exact hback id (ih (hsilent.cache hc) hmore id hid)
    | none =>
      cases ifExists with
      | true => exact fun id hid => hback id (ih (hsilent.cache hc) hrest id hid)
      | false => cases hrest

/-- A DROP or a TRUNCATE that has a target. -/
theorem target_of {x : Except DbError (List Nat)} (h : noTarget x = false) :
    ∃ id ids, x = .ok (id :: ids) := by
  cases x with
  | error e => cases h
  | ok ids =>
    cases ids with
    | nil => cases h
    | cons id ids => exact ⟨id, ids, rfl⟩

theorem resolved_of {ifExists : Bool}
    (h : noTarget (answer (resolveTables ifExists names) st) = false) :
    ∃ id ids s, resolveTables ifExists names st = .ok (id :: ids) s ∧ Silent st s := by
  obtain ⟨id, ids, hans⟩ := target_of h
  have hsilent := Guar.silent (resolveTables_hushed ifExists names) st
  unfold answer at hans
  cases hx : resolveTables ifExists names st with
  | error e s =>
    rw [hx] at hans
    cases hans
  | ok l s =>
    rw [hx] at hans hsilent
    cases hans
    exact ⟨id, ids, s, rfl, hsilent⟩

theorem decodeClass_hasId {r : ClassRow} (h : decodeClass vals = some r) :
    hasId 0 r.id vals = true := by
  unfold decodeClass at h
  split at h
  · cases h
    simp [hasId, ClassRow.id]
  · cases h

/-- What a lookup by id finds where the table has a row. -/
theorem scanById_row {r : ClassRow} (hs : Sound st) (hr : r ∈ st.classRows) :
    st.scanById r.id = (st.loadTable r).map some := by
  unfold State.scanById
  rw [find_of_nodup hs.classOk.ids hr]

/-- The table had a row, and has none. -/
theorem lasting_dropTable {ifExists : Bool} (hs : Sound st)
    (h : idle st (.dropTable names ifExists) = false) :
    ¬ SameAnswers st (((Ddl.dropTable names ifExists).stmt txn).run st).final := by
  obtain ⟨id, ids, s₁, hres, hsilent⟩ := resolved_of h
  obtain ⟨r, hr, rfl, t, ht⟩ := resolveTables_rows hs.cacheOk hres _ List.mem_cons_self
  obtain ⟨s₂, hloop, -, hgone⟩ := drop_each .pgClass (f := fun id => do
      tombstoneCatalogRows .pgClass txn (hasId 0 id)
      tombstoneCatalogRows .pgAttribute txn (hasId 0 id)
      tombstoneCatalogRows .pgIndex txn (hasId 2 id)) (fun id s => by
    obtain ⟨a, ha, hdrop⟩ := tombstone_dropped .pgClass id txn.2 s
    obtain ⟨b, hb, hsame⟩ := tombstone_others txn (hasId 0 id)
      (by decide : Rel.pgClass ≠ .pgAttribute) a
    obtain ⟨c, hc, hsame'⟩ := tombstone_others txn (hasId 2 id)
      (by decide : Rel.pgClass ≠ .pgIndex) b
    refine ⟨c, by rw [EStateM.bind_of_ok ha, EStateM.bind_of_ok hb, hc], ?_, ?_⟩
    · rw [hsame', hsame]
      exact hdrop.sub
    · rw [hsame', hsame]
      exact hdrop.gone) (r.id :: ids) s₁
  intro hsame
  have hafter := hsame.tableById r.id
  rw [hs.tableById, scanById_row hs hr, ht] at hafter
  have hfinal : (((Ddl.dropTable names ifExists).stmt txn).run st).final =
      { s₂ with cache := .empty } := by
    show ((resolveTables ifExists names >>= performDropTable txn) st).final = _
    rw [EStateM.bind_of_ok hres]
    unfold performDropTable
    rw [EStateM.bind_of_ok hloop]
    rfl
  rw [hfinal, answer_tableById] at hafter
  have hnone : ({ s₂ with cache := .empty } : State).scanById r.id = .ok none := by
    have hfind : (({ s₂ with cache := .empty } : State).classRows.find? fun x => x.id = r.id) =
        none := by
      refine List.find?_eq_none.2 fun x hx heq => ?_
      obtain ⟨vals, hvals, hdec⟩ := List.mem_filterMap.1 hx
      have hmatch := decodeClass_hasId hdec
      rw [of_decide_eq_true heq, hgone r.id List.mem_cons_self vals hvals] at hmatch
      cases hmatch
    unfold State.scanById
    rw [hfind]
  have hafter : ({ s₂ with cache := .empty } : State).scanById r.id = .ok (some t) := hafter
  rw [hnone] at hafter
  cases hafter

theorem decodeIndexRow_hasId {x : IndexDef} (h : decodeIndexRow vals = some x) :
    hasId 0 x.indexId vals = true := by
  unfold decodeIndexRow at h
  split at h
  · cases h
    simp [hasId]
  · cases h

/-- The table had the index, and has not. -/
theorem lasting_dropIndex {name : String} {ifExists : Bool} (hs : Sound st)
    (h : idle st (.dropIndex name ifExists) = false) :
    ¬ SameAnswers st (((Ddl.dropIndex name ifExists).stmt txn).run st).final := by
  obtain ⟨idx, hidx⟩ := Option.isSome_iff_exists.1
    (Option.isNone_eq_false_iff.1 (h : (st.findIndex name).isNone = false))
  obtain ⟨s, hrun, hdrop⟩ := tombstone_dropped .pgIndex idx.indexId txn.2 st
  intro hsame
  have hafter := hsame.indexesForTable idx.tableId
  have hfinal : (((Ddl.dropIndex name ifExists).stmt txn).run st).final =
      { s with cache := .empty } := by
    have hget : ((Ddl.dropIndex name ifExists).stmt txn).run st = dropIndex txn name ifExists st := rfl
    rw [hget, dropIndex_run, hidx]
    dsimp only
    rw [EStateM.bind_of_ok hrun]
    rfl
  rw [hfinal, hs.indexesForTable, answer_indexesForTable] at hafter
  have hin : idx ∈ ({ s with cache := .empty } : State).indexesOf idx.tableId := by
    have heq : ({ s with cache := .empty } : State).indexesOf idx.tableId =
        st.indexesOf idx.tableId := Except.ok.inj hafter
    rw [heq]
    exact List.mem_filter.2 ⟨List.mem_of_find?_eq_some hidx, by simp⟩
  obtain ⟨vals, hvals, hdec⟩ := List.mem_filterMap.1 (List.mem_of_mem_filter hin)
  have hmatch := decodeIndexRow_hasId hdec
  rw [hdrop.gone vals hvals] at hmatch
  cases hmatch

theorem resolveSequences_found {ifExists : Bool} {ids : List Nat}
    (h : resolveSequences st ifExists names = .ok ids) :
    ∀ id ∈ ids, ∃ name seq, st.findSequence name = some seq ∧ seq.seqId = id := by
  induction names generalizing ids with
  | nil =>
    cases h
    exact fun _ hid => absurd hid List.not_mem_nil
  | cons name names ih =>
    rw [resolveSequences] at h
    cases hf : st.findSequence name with
    | some seq =>
      rw [hf] at h
      cases hrest : resolveSequences st ifExists names with
      | error e =>
        simp only [hrest] at h
        cases h
      | ok rest =>
        simp only [hrest] at h
        cases h
        intro id hid
        rcases List.mem_cons.1 hid with rfl | hid
        · exact ⟨name, seq, hf, rfl⟩
        · exact ih hrest id hid
    | none =>
      simp only [hf] at h
      cases ifExists with
      | true => exact ih h
      | false => cases h

theorem decodeSequence_hasId {x : SequenceDef}
    (h : State.decodeSequence vals = some x) : hasId 0 x.seqId vals = true := by
  unfold State.decodeSequence at h
  split at h
  · cases h
    simp [hasId]
  · cases h

/-- The sequence was found, and no row has its id. -/
theorem lasting_dropSequence {ifExists : Bool}
    (h : idle st (.dropSequence names ifExists) = false) :
    ¬ SameAnswers st (((Ddl.dropSequence names ifExists).stmt txn).run st).final := by
  obtain ⟨id, ids, hres⟩ := target_of (h : noTarget (resolveSequences st ifExists names) = false)
  obtain ⟨name, seq, hfound, rfl⟩ := resolveSequences_found hres _ List.mem_cons_self
  obtain ⟨s, hloop, -, hgone⟩ := drop_each .pgSequence
    (f := fun id => tombstoneCatalogRows .pgSequence txn (hasId 0 id))
    (fun id s => tombstone_dropped .pgSequence id txn.2 s) (seq.seqId :: ids) st
  intro hsame
  have hafter := hsame.findSequence name
  have hfinal : (((Ddl.dropSequence names ifExists).stmt txn).run st).final =
      { s with cache := .empty } := by
    show (dropSequence txn names ifExists st).final = _
    rw [dropSequence_eq, hres]
    dsimp only
    rw [EStateM.bind_of_ok hloop]
    rfl
  rw [hfinal, hfound] at hafter
  obtain ⟨vals, hvals, hdec⟩ := List.mem_filterMap.1 (List.mem_of_find?_eq_some hafter)
  have hmatch := decodeSequence_hasId hdec
  rw [hgone seq.seqId List.mem_cons_self vals hvals] at hmatch
  cases hmatch

/-! ## TRUNCATE -/

theorem changeSlot_none {f : Slot → Option (HeapTuple × Slot)} {l : List Slot}
    (h : changeSlot f l = none) : ∀ s ∈ l, f s = none := by
  induction l with
  | nil => exact fun _ hs => absurd hs List.not_mem_nil
  | cons a l ih =>
    rw [changeSlot] at h
    split at h
    · cases h
    · next ha =>
      intro s hs
      rcases List.mem_cons.1 hs with rfl | hs
      · exact ha
      · exact ih (Option.map_eq_none_iff.1 h) s hs

theorem changeFirst_none {f : Slot → Option (HeapTuple × Slot)} {pages : List Page}
    (h : changeFirst f pages = none) : ∀ s ∈ pages.flatMap Page.slots, f s = none := by
  induction pages with
  | nil => exact fun _ hs => absurd hs List.not_mem_nil
  | cons p pages ih =>
    rw [changeFirst] at h
    split at h
    · cases h
    · next hp =>
      intro s hs
      rw [List.flatMap_cons] at hs
      rcases List.mem_append.1 hs with hs | hs
      · exact changeSlot_none hp s hs
      · exact ih (Option.map_eq_none_iff.1 h) s hs

/-- A row a scan sees is one `rewrite_catalog_row` finds. -/
theorem liveMatch_of_slotValues {pred : List Value → Bool} {s : Slot}
    (h : slotValues s = some vals) (hpred : pred vals = true) : (liveMatch pred s).isSome = true := by
  unfold slotValues at h
  split at h
  · next t ht =>
    unfold notDeleted at h
    split at h
    · next hlive =>
      cases h
      unfold liveMatch
      rw [ht]
      simp [hlive, hpred]
    · cases h
  · cases h

/-- One row of a system table was replaced; the cache was not looked at. -/
structure Rewritten (rel : Rel) (pred : List Value → Bool) (transform : List Value → List Value)
    (st st' : State) : Prop where
  rows : ∃ a vals b, scanChain (st.chains rel) = a ++ vals :: b ∧ pred vals = true ∧
    scanChain (st'.chains rel) = a ++ b ++ [transform vals]
  others : ∀ rel', rel' ≠ rel → st'.chains rel' = st.chains rel'
  cache : st'.cache = st.cache
  fresh : st'.fresh = st.fresh
  allocs : st.allocs ≤ st'.allocs

theorem rewrite_ok (st : State) {rel : Rel} {n : Nat} (hn : n ≠ 0) {pred : List Value → Bool}
    {transform : List Value → List Value}
    (hmatch : ∃ vals ∈ scanChain (st.chains rel), pred vals = true)
    (hfit : ∀ vals ∈ scanChain (st.chains rel), rowSpace (transform vals) ≤ PAGE_SIZE - HEADER_SIZE) :
    ∃ s, rewriteCatalogRow rel n pred transform st = .ok () s ∧
      Rewritten rel pred transform st s := by
  rw [rewriteCatalogRow_run]
  cases hc : changeFirst (fun s => (liveMatch pred s).map fun t =>
      (t, { s with tuple := some (.heap { t with xmax := n }) })) (st.chains rel) with
  | none =>
    obtain ⟨vals, hvals, hpred⟩ := hmatch
    rw [scanChain_eq, List.mem_filterMap] at hvals
    obtain ⟨s, hs, hvals⟩ := hvals
    have hfound := liveMatch_of_slotValues hvals hpred
    rw [Option.map_eq_none_iff.1 (changeFirst_none hc s hs)] at hfound
    cases hfound
  | some r =>
    obtain ⟨t, pages⟩ := r
    obtain ⟨a, b, hscan, hscan', hpred⟩ := changeFirst_scan hn hc
    have hroom : (st.setChain rel pages).hasRoom rel (rowSpace (transform t.values)) = true := by
      refine decide_eq_true (Or.inr (hfit t.values ?_))
      rw [hscan]
      exact List.mem_append_right _ List.mem_cons_self
    obtain ⟨pages', m, hm, hpages', hins⟩ :=
      insertBytes_room (t := .mk' SYSTEM_TXN_ID invalidTxnId (transform t.values)) rfl hroom
    refine ⟨_, hins, ⟨a, t.values, b, hscan, hpred, ?_⟩, fun rel' hrel => ?_, rfl, rfl, hm⟩
    · show scanChain (Function.update (Function.update st.chains rel pages) rel pages' rel) = _
      rw [Function.update_self, hpages']
      show scanChain (Function.update st.chains rel pages rel) ++ _ = _
      rw [Function.update_self, hscan']
      rfl
    · show Function.update (Function.update st.chains rel pages) rel pages' rel' = _
      rw [Function.update_of_ne hrel, Function.update_of_ne hrel]

/-- A rewrite for which a page was taken. -/
theorem rewrite_onto {rel : Rel} {n : Nat} (hn : n ≠ 0) {pred : List Value → Bool}
    (transform : List Value → List Value)
    (hmatch : ∃ vals ∈ scanChain (st.chains rel), pred vals = true)
    (hfit : ∀ vals ∈ scanChain (st.chains rel), rowSpace (transform vals) ≤ PAGE_SIZE - HEADER_SIZE) :
    ∃ s, rewriteCatalogRow rel n pred transform { st with allocs := st.allocs + 1 } = .ok () s ∧
      Rewritten rel pred transform st s ∧ st.allocs < s.allocs := by
  obtain ⟨s, hrun, hrew⟩ := rewrite_ok { st with allocs := st.allocs + 1 } hn hmatch hfit
  exact ⟨s, hrun, ⟨hrew.rows, hrew.others, hrew.cache, hrew.fresh, Nat.le_of_succ_le hrew.allocs⟩,
    hrew.allocs⟩

/-- The tables and the indexes there were when TRUNCATE began are still there, on
pages that may be new. -/
structure Truncating (st₀ st : State) : Prop where
  classOk : ClassOk st
  classRoom : ∀ vals ∈ scanChain (st.chains .pgClass), rowSpace vals ≤ PAGE_SIZE - HEADER_SIZE
  indexRows : ∀ vals ∈ scanChain (st.chains .pgIndex), (decodeIndexRow vals).isSome = true ∧
    rowSpace vals ≤ PAGE_SIZE - HEADER_SIZE
  cached : ∀ id l, st.cache.indexesByTable id = some l →
    ∀ i ∈ l, i.indexId ∈ st.allIndexes.map IndexDef.indexId
  kept : ∀ id ∈ st₀.classRows.map ClassRow.id, id ∈ st.classRows.map ClassRow.id
  fresh : st.fresh = st₀.fresh
  allocs : st₀.allocs ≤ st.allocs

/-- The table begins with a page taken since. -/
def Moved (st₀ st : State) (id : Nat) : Prop :=
  ∃ r ∈ st.classRows, r.id = id ∧ ∃ n, st₀.allocs ≤ n ∧ n < st.allocs ∧
    r.firstPage = asI32 (st₀.fresh n)

theorem Moved.mono {id : Nat} (h : Moved st₀ st id)
    (hclass : st'.chains .pgClass = st.chains .pgClass) (hallocs : st.allocs ≤ st'.allocs) :
    Moved st₀ st' id := by
  obtain ⟨r, hr, hid, n, hle, hlt, hpage⟩ := h
  refine ⟨r, ?_, hid, n, hle, Nat.lt_of_lt_of_le hlt hallocs, hpage⟩
  unfold State.classRows
  rwa [hclass]

theorem rowSpace_setClass (h : (decodeClass vals).isSome = true) (page : Int32) :
    rowSpace (vals.set 2 (.int page)) = rowSpace vals := by
  unfold decodeClass at h
  split at h
  · exact rowSpace_congr (by simp [serializeValue, i32Bytes])
  · cases h

theorem decodeIndexRow_set (h : (decodeIndexRow vals).isSome = true)
    (root : Int32) : rowSpace (vals.set 4 (.int root)) = rowSpace vals ∧
      (decodeIndexRow (vals.set 4 (.int root))).map IndexDef.indexId =
        (decodeIndexRow vals).map IndexDef.indexId := by
  unfold decodeIndexRow at h
  split at h
  · exact ⟨rowSpace_congr (by simp [serializeValue, i32Bytes]), rfl⟩
  · cases h

/-- The rows of `pg_class` after one was replaced. -/
theorem Rewritten.classRows {id : Nat} {page : Int32} (hdec : ∀ vals ∈ scanChain (st.chains .pgClass),
      (decodeClass vals).isSome = true)
    (h : Rewritten .pgClass (hasId 0 id) (fun vals => vals.set 2 (.int page)) st st') :
    ∃ a r b, st.classRows = a ++ r :: b ∧ r.id = id ∧
      st'.classRows = a ++ b ++ [{ r with firstPage := page }] := by
  obtain ⟨a, vals, b, hscan, hpred, hscan'⟩ := h.rows
  obtain ⟨r, hr⟩ := Option.isSome_iff_exists.1 (hdec vals (by rw [hscan]; simp))
  refine ⟨a.filterMap decodeClass, r, b.filterMap decodeClass, ?_, ?_, ?_⟩
  · unfold State.classRows
    rw [hscan, List.filterMap_append, List.filterMap_cons_some hr]
  · unfold decodeClass at hr
    split at hr
    · cases hr
      simpa [hasId, ClassRow.id] using hpred
    · cases hr
  · unfold State.classRows
    rw [hscan', List.filterMap_append, List.filterMap_append,
      List.filterMap_cons_some (decodeClass_set hr page), List.filterMap_nil]

/-- The `pg_class` row of a table is replaced by one with a new first page. -/
theorem Truncating.rewriteClass {id : Nat} (h : Truncating st₀ st) (txn : TxnId)
    (hid : id ∈ st₀.classRows.map ClassRow.id) :
    ∃ s, rewriteCatalogRow .pgClass txn (hasId 0 id)
        (fun vals => vals.set 2 (.int (asI32 (st.fresh st.allocs))))
        { st with allocs := st.allocs + 1 } = .ok () s ∧
      Truncating st₀ s ∧ Moved st₀ s id ∧ ∀ i, Moved st₀ st i → Moved st₀ s i := by
  obtain ⟨r₀, hr₀, rfl⟩ := List.mem_map.1 (h.kept id hid)
  obtain ⟨vals₀, hvals₀, hdec₀⟩ := List.mem_filterMap.1 hr₀
  obtain ⟨s, hrun, hrew, hlt⟩ := rewrite_onto txn.2
    (fun vals => vals.set 2 (.int (asI32 (st.fresh st.allocs))))
    ⟨vals₀, hvals₀, decodeClass_hasId hdec₀⟩ (fun vals hvals => by
      rw [rowSpace_setClass (h.classOk.decodes vals hvals)]
      exact h.classRoom vals hvals)
  have hclassOk : ClassOk s := by
    have hkeeps : Guar Step (fun st => ClassOk st) (rewriteCatalogRow .pgClass txn (hasId 0 r₀.id)
        fun vals => vals.set 2 (.int (asI32 (st.fresh st.allocs)))) fun _ _ => True :=
      rewrite_steps txn.2 fun _ => ⟨_, rfl⟩
    have hsteps := hkeeps.steps (s := { st with allocs := st.allocs + 1 })
      ⟨h.classOk.decodes, h.classOk.ids, h.classOk.names⟩
    rw [hrun] at hsteps
    exact steps_classOk hsteps ⟨h.classOk.decodes, h.classOk.ids, h.classOk.names⟩
  obtain ⟨a, r, b, hrows, hrid, hrows'⟩ := hrew.classRows h.classOk.decodes
  have hindex : s.chains .pgIndex = st.chains .pgIndex := hrew.others _ (by decide)
  have hmoved : Moved st₀ s r₀.id := by
    refine ⟨{ r with firstPage := asI32 (st.fresh st.allocs) }, ?_, hrid, st.allocs, h.allocs,
      hlt, by rw [h.fresh]⟩
    rw [hrows']
    exact List.mem_append_right _ (List.mem_singleton_self _)
  refine ⟨s, hrun, ⟨hclassOk, fun vals hvals => ?_, ?_, fun id l hl i hi => ?_, fun i hi => ?_, ?_, ?_⟩,
    hmoved, fun i hi => ?_⟩
  · obtain ⟨x, old, y, hscan, -, hscan'⟩ := hrew.rows
    rw [hscan'] at hvals
    have hold : old ∈ scanChain (st.chains .pgClass) := by rw [hscan]; simp
    rcases List.mem_append.1 hvals with hvals | hvals
    · refine h.classRoom vals ?_
      rw [hscan]
      rcases List.mem_append.1 hvals with hvals | hvals
      · exact List.mem_append_left _ hvals
      · exact List.mem_append_right _ (List.mem_cons_of_mem _ hvals)
    · rw [List.mem_singleton.1 hvals, rowSpace_setClass (h.classOk.decodes old hold)]
      exact h.classRoom old hold
  · rw [hindex]
    exact h.indexRows
  · unfold State.allIndexes
    rw [hindex]
    rw [hrew.cache] at hl
    exact h.cached id l hl i hi
  · have hin := h.kept i hi
    rw [hrows] at hin
    rw [hrows']
    simp only [List.map_append, List.map_cons, List.mem_append, List.mem_cons, List.map_nil,
      List.not_mem_nil, or_false] at hin ⊢
    tauto
  · rw [hrew.fresh]
    exact h.fresh
  · exact Nat.le_trans h.allocs hrew.allocs
  · by_cases hsame : i = r₀.id
    · rw [hsame]
      exact hmoved
    · obtain ⟨r', hr', hid', n, hle, hn, hpage⟩ := hi
      refine ⟨r', ?_, hid', n, hle, Nat.lt_of_lt_of_le hn hrew.allocs, hpage⟩
      rw [hrows] at hr'
      rw [hrows']
      simp only [List.mem_append, List.mem_cons, List.not_mem_nil, or_false] at hr' ⊢
      rcases hr' with hr' | rfl | hr'
      · exact Or.inl (Or.inl hr')
      · exact absurd (hid'.symm.trans hrid) hsame
      · exact Or.inl (Or.inr hr')

/-- A `pg_index` row of the table is replaced by one with a new root. -/
theorem Truncating.rewriteIndex {indexId : Nat} (h : Truncating st₀ st) (txn : TxnId)
    (hid : indexId ∈ st.allIndexes.map IndexDef.indexId) (root : Int32) :
    ∃ s, rewriteCatalogRow .pgIndex txn (hasId 0 indexId) (fun vals => vals.set 4 (.int root))
        { st with allocs := st.allocs + 1 } = .ok () s ∧
      Truncating st₀ s ∧ s.chains .pgClass = st.chains .pgClass ∧ st.allocs ≤ s.allocs ∧
      ∀ i ∈ st.allIndexes.map IndexDef.indexId, i ∈ s.allIndexes.map IndexDef.indexId := by
  obtain ⟨x₀, hx₀, rfl⟩ := List.mem_map.1 hid
  obtain ⟨vals₀, hvals₀, hdec₀⟩ := List.mem_filterMap.1 hx₀
  obtain ⟨s, hrun, hrew, -⟩ := rewrite_onto txn.2 (fun vals => vals.set 4 (.int root))
    ⟨vals₀, hvals₀, decodeIndexRow_hasId hdec₀⟩ (fun vals hvals => by
      rw [(decodeIndexRow_set (h.indexRows vals hvals).1 root).1]
      exact (h.indexRows vals hvals).2)
  obtain ⟨a, old, b, hscan, -, hscan'⟩ := hrew.rows
  have hold := h.indexRows old (by rw [hscan]; simp)
  obtain ⟨hspace, hsameId⟩ := decodeIndexRow_set hold.1 root
  obtain ⟨x, hx⟩ := Option.isSome_iff_exists.1 hold.1
  rw [hx, Option.map_some, Option.map_eq_some_iff] at hsameId
  obtain ⟨x', hx', hxid⟩ := hsameId
  have hclass : s.chains .pgClass = st.chains .pgClass := hrew.others _ (by decide)
  have hids : ∀ i ∈ st.allIndexes.map IndexDef.indexId, i ∈ s.allIndexes.map IndexDef.indexId := by
    intro i hi
    unfold State.allIndexes at hi ⊢
    rw [hscan, List.filterMap_append, List.filterMap_cons_some hx] at hi
    rw [hscan', List.filterMap_append, List.filterMap_append, List.filterMap_cons_some hx',
      List.filterMap_nil]
    simp only [List.map_append, List.map_cons, List.mem_append, List.mem_cons, List.map_nil,
      List.not_mem_nil, or_false] at hi ⊢
    rw [hxid]
    tauto
  have hrows : s.classRows = st.classRows := by
    unfold State.classRows
    rw [hclass]
  refine ⟨s, hrun, ⟨⟨?_, ?_, ?_⟩, ?_, fun vals hvals => ?_, fun id l hl i hi => ?_, fun i hi => ?_, ?_,
    Nat.le_trans h.allocs hrew.allocs⟩, hclass, hrew.allocs, hids⟩
  · rw [hclass]
    exact h.classOk.decodes
  · rw [hrows]
    exact h.classOk.ids
  · rw [hrows]
    exact h.classOk.names
  · rw [hclass]
    exact h.classRoom
  · rw [hscan'] at hvals
    rcases List.mem_append.1 hvals with hvals | hvals
    · refine h.indexRows vals ?_
      rw [hscan]
      rcases List.mem_append.1 hvals with hvals | hvals
      · exact List.mem_append_left _ hvals
      · exact List.mem_append_right _ (List.mem_cons_of_mem _ hvals)
    · rw [List.mem_singleton.1 hvals, hspace, hx']
      exact ⟨rfl, hold.2⟩
  · rw [hrew.cache] at hl
    exact hids _ (h.cached id l hl i hi)
  · rw [hrows]
    exact h.kept i hi
  · rw [hrew.fresh]
    exact h.fresh

/-- The indexes of a table, from the cache or from the rows: none has gone away. -/
theorem Truncating.indexes (h : Truncating st₀ st) (id : Nat) :
    ∃ l s, indexesForTable id st = .ok l s ∧ Truncating st₀ s ∧ s.chains = st.chains ∧
      s.allocs = st.allocs ∧ ∀ i ∈ l, i.indexId ∈ s.allIndexes.map IndexDef.indexId := by
  unfold indexesForTable
  cases hc : st.cache.indexesByTable id with
  | some l => exact ⟨l, st, rfl, h, rfl, rfl, h.cached id l hc⟩
  | none =>
    have hscanned : ∀ i ∈ st.indexesOf id, i.indexId ∈ st.allIndexes.map IndexDef.indexId :=
      fun i hi => List.mem_map_of_mem (List.mem_of_mem_filter hi)
    refine ⟨_, _, rfl, ⟨⟨h.classOk.decodes, h.classOk.ids, h.classOk.names⟩, h.classRoom, h.indexRows,
      fun id' l hl => ?_, h.kept, h.fresh, h.allocs⟩, rfl, rfl, hscanned⟩
    have hl : Function.update st.cache.indexesByTable id (some (st.indexesOf id)) id' = some l := hl
    by_cases heq : id' = id
    · rw [heq, Function.update_self] at hl
      cases hl
      exact hscanned
    · rw [Function.update_of_ne heq] at hl
      exact h.cached id' l hl

/-- The new root of one index. -/
def resetIndex (txn : Nat) (idx : IndexDef) : CatM Unit := do
  let root ← newPage
  rewriteCatalogRow .pgIndex txn (hasId 0 idx.indexId) fun vals => vals.set 4 (.int (asI32 root))

/-- TRUNCATE of one table. -/
def truncateOne (txn id : Nat) : CatM Unit := do
  let page ← newPage
  rewriteCatalogRow .pgClass txn (hasId 0 id) fun vals => vals.set 2 (.int (asI32 page))
  let indexes ← indexesForTable id
  indexes.forM (resetIndex txn)

theorem performTruncate_eq (txn : Nat) (ids : List Nat) :
    performTruncate txn ids = (ids.forM (truncateOne txn) >>= fun _ => invalidate) := rfl

theorem Truncating.newRoots (h : Truncating st₀ st) (txn : TxnId) (l : List IndexDef)
    (hids : ∀ i ∈ l, i.indexId ∈ st.allIndexes.map IndexDef.indexId) :
    ∃ s, l.forM (resetIndex txn) st = .ok () s ∧ Truncating st₀ s ∧
      s.chains .pgClass = st.chains .pgClass ∧ st.allocs ≤ s.allocs := by
  induction l generalizing st with
  | nil => exact ⟨st, rfl, h, rfl, Nat.le_refl _⟩
  | cons idx l ih =>
    obtain ⟨s₁, hrun, h₁, hclass, hle, hkept⟩ := h.rewriteIndex txn
      (hids idx List.mem_cons_self) (asI32 (st.fresh st.allocs))
    obtain ⟨s, hrest, hs, hclass', hle'⟩ := ih h₁ fun i hi =>
      hkept _ (hids i (List.mem_cons_of_mem _ hi))
    refine ⟨s, ?_, hs, hclass'.trans hclass, Nat.le_trans hle hle'⟩
    rw [EStateM.forM_of_ok (show resetIndex txn idx st = .ok () s₁ from hrun), hrest]

theorem Truncating.one {id : Nat} (h : Truncating st₀ st) (txn : TxnId)
    (hid : id ∈ st₀.classRows.map ClassRow.id) :
    ∃ s, truncateOne txn id st = .ok () s ∧ Truncating st₀ s ∧ Moved st₀ s id ∧
      ∀ i, Moved st₀ st i → Moved st₀ s i := by
  obtain ⟨s₁, hrun, h₁, hmoved, hmore⟩ := h.rewriteClass txn hid
  obtain ⟨l, s₂, hget, h₂, hchains, hallocs, hids⟩ := h₁.indexes id
  obtain ⟨s₃, hroots, h₃, hclass, hle⟩ := h₂.newRoots txn l hids
  have hclass : s₃.chains .pgClass = s₁.chains .pgClass := by rw [hclass, hchains]
  have hle : s₁.allocs ≤ s₃.allocs := hallocs ▸ hle
  refine ⟨s₃, ?_, h₃, hmoved.mono hclass hle, fun i hi => (hmore i hi).mono hclass hle⟩
  unfold truncateOne
  rw [EStateM.bind_of_ok (x := newPage) rfl, EStateM.bind_of_ok hrun, EStateM.bind_of_ok hget, hroots]

/-- The loop: every table of the statement moves to a new page. -/
theorem Truncating.loop (h : Truncating st₀ st) (txn : TxnId) (ids : List Nat)
    (hids : ∀ id ∈ ids, id ∈ st₀.classRows.map ClassRow.id) :
    ∃ s, ids.forM (truncateOne txn) st = .ok () s ∧ Truncating st₀ s ∧
      (∀ i, Moved st₀ st i → Moved st₀ s i) ∧ ∀ id ∈ ids, Moved st₀ s id := by
  induction ids generalizing st with
  | nil => exact ⟨st, rfl, h, fun _ hi => hi, fun _ hid => absurd hid List.not_mem_nil⟩
  | cons id ids ih =>
    obtain ⟨s₁, hrun, h₁, hmoved, hmore⟩ := h.one txn (hids id List.mem_cons_self)
    obtain ⟨s, hrest, hs, hmore', hall⟩ := ih h₁ fun i hi => hids i (List.mem_cons_of_mem _ hi)
    refine ⟨s, ?_, hs, fun i hi => hmore' i (hmore i hi), fun i hi => ?_⟩
    · rw [EStateM.forM_of_ok hrun, hrest]
    · rcases List.mem_cons.1 hi with rfl | hi
      · exact hmore' _ hmoved
      · exact hall i hi

theorem Sound.truncating (h : Sound st) : Truncating st st where
  classOk := h.classOk
  classRoom := h.classRoom
  indexRows := h.indexRows
  cached id l hl i hi := by
    rw [h.cacheOk.indexes id l hl] at hi
    exact List.mem_map_of_mem (List.mem_of_mem_filter hi)
  kept _ hid := hid
  fresh := rfl
  allocs := Nat.le_refl _

theorem asPageId_asI32 {n : Nat} (h : n < NO_NEXT_PAGE) : asPageId (asI32 n) = n := by
  unfold NO_NEXT_PAGE at h
  simp [asPageId, asI32]
  omega

/-- The table begins with another page. -/
theorem lasting_truncate (hs : Sound st) (h : idle st (.truncate names) = false)
    (hpages : ∀ n < (((Ddl.truncate names).stmt txn).run st).final.allocs, st.fresh n < NO_NEXT_PAGE) :
    ¬ SameAnswers st (((Ddl.truncate names).stmt txn).run st).final := by
  obtain ⟨id, ids, s₁, hres, hsilent⟩ := resolved_of h
  have hrows := resolveTables_rows hs.cacheOk hres
  obtain ⟨r₀, hr₀, rfl, t₀, ht₀⟩ := hrows _ List.mem_cons_self
  obtain ⟨s, hloop, htrunc, -, hmoved⟩ := (hsilent.sound hs).truncating.loop txn (r₀.id :: ids)
    fun i hi => by
      obtain ⟨r, hr, hri, -⟩ := hrows i hi
      rw [hsilent.sameRows.classRows]
      exact List.mem_map.2 ⟨r, hr, hri⟩
  obtain ⟨r, hr, hrid, n, hle, hlt, hpage⟩ := hmoved _ List.mem_cons_self
  have hfinal : (((Ddl.truncate names).stmt txn).run st).final = { s with cache := .empty } := by
    show ((resolveTables false names >>= performTruncate txn) st).final = _
    rw [EStateM.bind_of_ok hres, performTruncate_eq, EStateM.bind_of_ok hloop]
    rfl
  rw [hfinal] at hpages ⊢
  intro hsame
  have hafter := hsame.tableById r₀.id
  rw [hs.tableById, scanById_row hs hr₀, ht₀, answer_tableById] at hafter
  have hafter : ({ s with cache := .empty } : State).scanById r₀.id = .ok (some t₀) := hafter
  unfold State.scanById at hafter
  rw [← hrid] at hafter
  have hfind : ({ s with cache := .empty } : State).classRows.find? (fun x => x.id = r.id) = some r :=
    find_of_nodup htrunc.classOk.ids hr
  rw [hfind] at hafter
  -- the page the table begins with is one that was taken since
  have hnew : st.fresh n = asPageId r₀.firstPage := by
    have hfirst : t₀.firstPageId = asPageId r₀.firstPage := (loadTable_page ht₀)
    have hfirst' : t₀.firstPageId = asPageId r.firstPage := by
      cases hload : ({ s with cache := .empty } : State).loadTable r with
      | error e =>
        simp only [hload] at hafter
        cases hafter
      | ok t =>
        simp only [hload] at hafter
        cases hafter
        exact loadTable_page hload
    rw [← hfirst, hfirst', hpage, hsilent.fresh, asPageId_asI32 (hpages n hlt)]
  exact hs.fresh n (Nat.le_trans hsilent.allocs hle) (hpages n hlt) r₀ hr₀ hnew

/-! ## Transactions -/

/-- **What was done stays**: a statement that is not idle changes an answer. -/
theorem lasting_step (txn : TxnId) {d : Ddl} (hs : Sound st) (h : idle st d = false)
    (hpages : ∀ n < ((d.stmt txn).run st).final.allocs, st.fresh n < NO_NEXT_PAGE) :
    ¬ SameAnswers st ((d.stmt txn).run st).final := by
  cases d with
  | createTable pages s => exact lasting_createTable h
  | createIndex pages name table column isUnique => exact lasting_createIndex hs h
  | createSequence s => exact lasting_createSequence h
  | dropTable names ifExists => exact lasting_dropTable hs h
  | dropIndex name ifExists => exact lasting_dropIndex hs h
  | dropSequence names ifExists => exact lasting_dropSequence h
  | truncate names => exact lasting_truncate hs h hpages

/-- The run lemma: the answers stay what they were for as long as the statements
are idle, and no longer. -/
theorem same_iff_idle (ds : List Ddl) (hs : Sound st) (hsame : SameAnswers st₀ st)
    (hpages : ∀ k, ∀ n < (after (State.ddl txn) st (ds.take k)).allocs, st.fresh n < NO_NEXT_PAGE) :
    (∀ k, SameAnswers st₀ (after (State.ddl txn) st (ds.take k))) ↔
      Follows (State.ddl txn) (fun st d => idle st d = true) st ds := by
  induction ds generalizing st with
  | nil => simpa [after, Follows] using hsame
  | cons d ds ih =>
    have hstep : State.ddl txn st d = some ((d.stmt txn).run st).final := rfl
    have hafter : ∀ k, after (State.ddl txn) st ((d :: ds).take (k + 1)) =
        after (State.ddl txn) ((d.stmt txn).run st).final (ds.take k) := fun k => by
      rw [List.take_succ_cons, after_cons hstep]
    cases hidle : idle st d with
    | false =>
      -- the first statement that does something is seen from there on
      have hlast := lasting_step txn hs hidle fun n hn =>
        hpages 1 n (by rw [hafter 0]; simpa [after] using hn)
      refine iff_of_false (fun hall => hlast ?_) fun hrun => ?_
      · have hone := hall 1
        rw [hafter 0] at hone
        exact hsame.symm.trans (by simpa [after] using hone)
      · rw [follows_cons, hidle] at hrun
        exact absurd hrun.1 Bool.false_ne_true
    | true =>
      obtain ⟨hkept, hsound, hfresh⟩ := idle_step txn hs hidle
      have hrest := ih hsound (hsame.trans hkept) fun k n hn => by
        rw [hfresh]
        exact hpages (k + 1) n (by rw [hafter k]; exact hn)
      rw [follows_cons]
      constructor
      · exact fun hall => ⟨hidle, _, hstep, hrest.1 fun k => hafter k ▸ hall (k + 1)⟩
      · rintro ⟨-, s, hs', hrun⟩ k
        cases hstep.symm.trans hs'
        cases k with
        | zero => simpa [after] using hsame
        | succ k =>
          rw [hafter k]
          exact hrest.2 hrun k

/-- **DDL that is rolled back.** A catalog in good order and a connection with no open
transaction: after `BEGIN`, some of the statements and `ROLLBACK` the lookups answer
as before, however many statements there were, exactly if every statement was idle in
the state it ran in. -/
theorem ddl_rolled_back (c : Conn) (ds : List Ddl) (hclosed : c.active = false)
    (hs : Sound c.catalog)
    (hpages : ∀ k, ∀ n < (after (State.ddl c.newTxn.txn) c.catalog (ds.take k)).allocs,
      c.catalog.fresh n < NO_NEXT_PAGE) :
    (∀ k, ∃ c', c.rolledBack (ds.take k) = .ok c' ∧ SameAnswers c.catalog c'.catalog) ↔
      Follows (State.ddl c.newTxn.txn) (fun st d => idle st d = true) c.catalog ds := by
  rw [← same_iff_idle ds hs ⟨fun _ => rfl, fun _ => rfl, fun _ => rfl, fun _ => rfl, fun _ => rfl⟩
    hpages]
  refine forall_congr' fun k => ?_
  obtain ⟨c', hrun, hcatalog⟩ := rolledBack_catalog hclosed (ds.take k)
  rw [hrun, ← hcatalog]
  simp

/-- A new connection to a new database. -/
def firstConn : Conn where
  catalog := bootstrap
  tm := ⟨3, [(2, 0)], fun x => if x = SYSTEM_TXN_ID then .committed else .inProgress⟩
  txn := 2
  active := false
  next_pos := by decide

theorem sound_bootstrap : Sound bootstrap where
  classOk := classOk_bootstrap
  cacheOk := cacheOk_of_empty rfl
  classRoom := by decide +kernel
  indexRows := by decide +kernel
  fresh n _ _ r hr := by
    have hlow : ∀ r ∈ bootstrap.classRows, asPageId r.firstPage < 5 := by decide +kernel
    have hpage := hlow r hr
    show n + 5 ≠ _
    omega

/-- Statements that find nothing, and one that is refused. -/
theorem ddl_rolled_back_idle : ∃ c', firstConn.rolledBack
    [.dropTable ["t"] true, .createTable 0 ⟨"pg_class", [], [], [], []⟩, .truncate ["t"]] = .ok c' ∧
      SameAnswers bootstrap c'.catalog := by
  refine (ddl_rolled_back firstConn
    [.dropTable ["t"] true, .createTable 0 ⟨"pg_class", [], [], [], []⟩, .truncate ["t"]] rfl
    sound_bootstrap fun k n hn => ?_).2 (by decide +kernel) 3
  have hnone : (after (State.ddl firstConn.newTxn.txn) firstConn.catalog
      (([.dropTable ["t"] true, .createTable 0 ⟨"pg_class", [], [], [], []⟩, .truncate ["t"]] :
        List Ddl).take k)).allocs = 0 := by
    have hfew : ∀ k ∈ List.range 4, (after (State.ddl firstConn.newTxn.txn) firstConn.catalog
        (([.dropTable ["t"] true, .createTable 0 ⟨"pg_class", [], [], [], []⟩, .truncate ["t"]] :
          List Ddl).take k)).allocs = 0 := by decide +kernel
    by_cases hk : k < 4
    · exact hfew k (List.mem_range.2 hk)
    · rw [List.take_of_length_le (by simp; omega)]
      exact hfew 3 (by simp)
  rw [hnone] at hn
  cases hn

/-- **A rolled-back CREATE TABLE leaves its table behind**: `find_table` returns it. -/
theorem created_table_stays : ¬ ∀ (c c' : Conn) (ds : List Ddl), c.active = false →
    Sound c.catalog → c.rolledBack ds = .ok c' → SameAnswers c.catalog c'.catalog := by
  intro h
  obtain ⟨c', hrun, hcatalog⟩ := rolledBack_catalog (c := firstConn) rfl
    [.createTable 0 ⟨"t", [⟨"k", .int, false, none⟩], ["k"], [], []⟩]
  have hsame := (h firstConn c' _ rfl sound_bootstrap hrun).findTable "t"
  rw [hcatalog] at hsame
  exact absurd hsame (by decide +kernel)

end Ccdb.PgCatalog
