import Ccdb.Catalog.FreshIds
import Ccdb.Lib.Acyclic

/-!
# Ccdb — CASCADE references between tables

A FOREIGN KEY clause is a row of `pg_constraint` that names the referenced table;
whatever table bears the name is the referenced one. DROP TABLE leaves the clauses of
the dropped table, and those of other tables that name it. So CREATE TABLE can give a
table the name old clauses wait for, or the id of a dropped table with its clauses.

Main results:

* `createTable_grows` — CREATE TABLE adds its table and its clauses, and no others.
* `Settled.step` — where no CREATE TABLE closes a cycle of CASCADE references, there
  is none.
* `Settled.tableById` — what `table_by_id` returns bears a name of `pg_class`.
-/

namespace Ccdb.PgCatalog

open Relation

namespace References

/-! ## The references of a catalog -/

/-- The tables by id and name. -/
def named (st : State) : List (Nat × String) := st.classRows.map fun r => (r.id, r.name)

/-- The name a CASCADE clause of the table `id` refers to. -/
def cascadeOf (id : Nat) (definition : String) : Option (Nat × String) :=
  (ForeignKey.decode definition).bind fun fk =>
    if fk.onDelete = "CASCADE" then some (id, fk.refTable) else none

def cascadeClause (c : ConstraintDef) : Option (Nat × String) :=
  match c.kind with
  | .check => none
  | .foreignKey => cascadeOf c.tableId c.definition

/-- The CASCADE clauses: the referencing table, and the name it refers to. -/
def cascades (st : State) : List (Nat × String) := st.allConstraints.filterMap cascadeClause

/-- Deleting a row of `parent` may delete rows of `child`. -/
def Takes (tables refs : List (Nat × String)) (parent child : Nat) : Prop :=
  ∃ name, (parent, name) ∈ tables ∧ (child, name) ∈ refs

/-- The table of a CREATE TABLE. -/
def newTable (st : State) (s : CreateTableStmt) : List (Nat × String) :=
  match st.userTables with
  | .ok tables => [(asUsize (newTableId tables), s.table)]
  | .error _ => []

/-- Its CASCADE clauses. -/
def newCascades (st : State) (s : CreateTableStmt) : List (Nat × String) :=
  match st.userTables with
  | .ok tables =>
    s.foreignKeys.filterMap fun fk => cascadeOf (asUsize (newTableId tables)) fk.encode
  | .error _ => []

/-- CREATE TABLE and DROP TABLE only, and no CASCADE references, those of dropped tables
among them, lead from a new table back to it. -/
def ClosesNoCycle (st : State) : Stmt → Prop
  | .createTable _ _ s => ∀ id name, (id, name) ∈ newTable st s →
      ¬ TransGen (Takes (named st ++ newTable st s) (cascades st ++ newCascades st s)) id id
  | .dropTable .. => True
  | _ => False

/-- There is no cycle of CASCADE references, and the names in the cache are those of
`pg_class`. -/
structure Settled (st : State) : Prop where
  acyclic : Acyclic (Takes (named st) (cascades st))
  cached : ∀ id t, st.cache.tablesById id = some t → (id, t.name) ∈ named st

/-! ## Statements that add -/

/-- Tables and clauses are added, from the two lists only. -/
structure Grows (tables refs : List (Nat × String)) (st st' : State) : Prop where
  kept : named st ⊆ named st'
  named : ∀ x ∈ named st', x ∈ named st ∨ x ∈ tables
  cascades : ∀ x ∈ cascades st', x ∈ cascades st ∨ x ∈ refs
  cached : ∀ id t, st'.cache.tablesById id = some t →
    st.cache.tablesById id = some t ∨ (id, t.name) ∈ References.named st'

variable {tables refs : List (Nat × String)} {st st' st'' : State}

theorem named_of_chain (h : st'.chains .pgClass = st.chains .pgClass) : named st' = named st := by
  unfold named State.classRows
  rw [h]

theorem cascades_of_chain (h : st'.chains .pgConstraint = st.chains .pgConstraint) :
    cascades st' = cascades st := by
  unfold cascades State.allConstraints
  rw [h]

namespace Grows

/-- The rows stay as they are. -/
theorem of_chains (h : st'.chains = st.chains)
    (hcached : ∀ id t, st'.cache.tablesById id = some t →
      st.cache.tablesById id = some t ∨ (id, t.name) ∈ References.named st) :
    Grows tables refs st st' := by
  have hnamed : References.named st' = References.named st := named_of_chain (congrFun h _)
  refine ⟨?_, fun x hx => Or.inl ?_, fun x hx => Or.inl ?_, ?_⟩
  · rw [hnamed]
    exact List.Subset.refl _
  · rwa [hnamed] at hx
  · rwa [cascades_of_chain (congrFun h _)] at hx
  · rwa [hnamed]

theorem refl (st : State) : Grows tables refs st st := of_chains rfl fun _ _ h => Or.inl h

theorem trans (h : Grows tables refs st st') (h' : Grows tables refs st' st'') :
    Grows tables refs st st'' where
  kept := List.Subset.trans h.kept h'.kept
  named x hx := (h'.named x hx).elim (h.named x) Or.inr
  cascades x hx := (h'.cascades x hx).elim (h.cascades x) Or.inr
  cached id t ht := (h'.cached id t ht).elim
    (fun ht => (h.cached id t ht).imp_right fun hin => h'.kept hin) Or.inr

theorem of_steps (h : ReflTransGen (Grows tables refs) st st') : Grows tables refs st st' :=
  h.invariant (I := Grows tables refs st) (fun _ _ hs h => h.trans hs) (refl st)

/-- New rows, and the tables and clauses they are about. -/
theorem of_put {rel : Rel} {rows : List (List Value)} (h : FreshIds.Put rel rows st st')
    (hclass : rel = .pgClass → ∀ vals ∈ rows, ∀ r, decodeClass vals = some r →
      (r.id, r.name) ∈ tables)
    (hclause : rel = .pgConstraint → ∀ vals ∈ rows, ∀ c, State.decodeConstraint vals = some c →
      ∀ x, cascadeClause c = some x → x ∈ refs) : Grows tables refs st st' := by
  refine ⟨?_, fun x hx => ?_, fun x hx => ?_, fun id t ht => Or.inl (h.cache ▸ ht)⟩
  · by_cases hrel : rel = .pgClass
    · subst hrel
      unfold References.named State.classRows
      rw [h.scan, List.filterMap_append, List.map_append]
      exact List.subset_append_left _ _
    · rw [named_of_chain (h.others _ (Ne.symm hrel))]
      exact List.Subset.refl _
  · by_cases hrel : rel = .pgClass
    · subst hrel
      unfold References.named State.classRows at hx
      rw [h.scan, List.filterMap_append, List.map_append] at hx
      refine (List.mem_append.1 hx).imp_right fun hx => ?_
      obtain ⟨r, hr, rfl⟩ := List.mem_map.1 hx
      obtain ⟨vals, hvals, hdec⟩ := List.mem_filterMap.1 hr
      exact hclass rfl vals hvals r hdec
    · rw [named_of_chain (h.others _ (Ne.symm hrel))] at hx
      exact Or.inl hx
  · by_cases hrel : rel = .pgConstraint
    · subst hrel
      unfold References.cascades State.allConstraints at hx
      rw [h.scan, List.filterMap_append, List.filterMap_append] at hx
      refine (List.mem_append.1 hx).imp_right fun hx => ?_
      obtain ⟨c, hc, hx⟩ := List.mem_filterMap.1 hx
      obtain ⟨vals, hvals, hdec⟩ := List.mem_filterMap.1 hc
      exact hclause rfl vals hvals c hdec x hx
    · rw [cascades_of_chain (h.others _ (Ne.symm hrel))] at hx
      exact Or.inl hx

end Grows

/-- A program that adds no more than that. -/
abbrev Growing (tables refs : List (Nat × String)) {α : Type} (x : CatM α) : Prop :=
  Guar (Grows tables refs) (fun _ => True) x fun _ _ => True

theorem Growing.grows {α : Type} {x : CatM α} (h : Growing tables refs x) (st : State) :
    Grows tables refs st (x st).final := .of_steps (h.steps trivial)

/-- A definition that is read bears the name of its row. -/
theorem cacheTable_grows {r : ClassRow} {t : TableDef} (hr : r ∈ st.classRows)
    (hload : st.loadTable r = .ok t) : Grows tables refs st (st.cacheTable t) := by
  obtain ⟨hid, hname⟩ := loadTable_fields hload
  refine .of_chains rfl fun id t' ht => ?_
  have ht : Function.update st.cache.tablesById t.tableId (some t) id = some t' := ht
  by_cases heq : id = t.tableId
  · rw [heq, Function.update_self] at ht
    cases ht
    right
    rw [heq, hid, hname]
    exact List.mem_map.2 ⟨r, hr, rfl⟩
  · rw [Function.update_of_ne heq] at ht
    exact Or.inl ht

theorem findTable_growing (name : String) : Growing tables refs (findTable name) :=
  guar_findTable cacheTable_grows name

theorem tableById_growing (id : Nat) : Growing tables refs (tableById id) :=
  guar_tableById cacheTable_grows id

theorem newPage_growing : Growing tables refs newPage :=
  Guar.ofStep (fun _ _ => Or.inr (.of_chains rfl fun _ _ h => Or.inl h)) fun _ _ _ _ _ => trivial

theorem invalidate_growing : Growing tables refs invalidate :=
  Guar.ofStep (fun _ _ => Or.inr (.of_chains rfl fun _ _ h => nomatch h)) fun _ _ _ _ _ => trivial

theorem insertBytes_growing {rel : Rel} {t : HeapTuple} (ht : t.xmax = 0)
    (hclass : rel = .pgClass → ∀ r, decodeClass t.values = some r → (r.id, r.name) ∈ tables)
    (hclause : rel = .pgConstraint → ∀ c, State.decodeConstraint t.values = some c →
      ∀ x, cascadeClause c = some x → x ∈ refs) : Growing tables refs (insertBytes rel t) := by
  refine Guar.ofStep (fun s _ => Or.inr ?_) fun _ _ _ _ _ => trivial
  have hends := FreshIds.insertBytes_ends rel ht s
  unfold Ends at hends
  cases hx : insertBytes rel t s with
  | ok a s' =>
    rw [hx] at hends
    refine .of_put hends (fun hrel vals hvals => ?_) fun hrel vals hvals => ?_
    · rw [List.mem_singleton.1 hvals]
      exact hclass hrel
    · rw [List.mem_singleton.1 hvals]
      exact hclause hrel
  | error e s' =>
    rw [hx] at hends
    exact .of_put hends (fun _ vals hvals => absurd hvals List.not_mem_nil)
      fun _ vals hvals => absurd hvals List.not_mem_nil

/-- The clause behind the row of a constraint. -/
theorem decode_constraintTuple (txn : Nat) (id tableId : Int32) (name : String)
    (kind : ConstraintKind) (definition : String) :
    State.decodeConstraint (constraintTuple txn id name tableId kind definition).values =
      some ⟨asUsize id, name, asUsize tableId, kind, definition⟩ := by
  simp [constraintTuple, HeapTuple.mk', State.decodeConstraint, FreshIds.fromInt_toInt]

theorem performCreateIndex_growing (txn pages : Nat) (a : CreateIndexStmt) :
    Growing tables refs (performCreateIndex txn pages a) := by
  refine (Guar.get.post fun _ _ _ => trivial).bind fun st => (tableById_growing _).bind fun t => ?_
  cases t with
  | none => exact Guar.throw
  | some t =>
    refine (guar_allocPages newPage_growing pages).bind fun root => Guar.bind (Q := fun _ _ => True)
      (insertBytes_growing rfl (fun h => ?_) fun h => ?_) fun _ => invalidate_growing
    · cases h
    · cases h

theorem createTableRows_growing (txn pages : Nat) (s : CreateTableStmt) (pk : Option Nat)
    (tableId : Int32) (hrefs : ∀ fk ∈ s.foreignKeys, ∀ x,
      cascadeOf (asUsize tableId) fk.encode = some x → x ∈ refs) :
    Growing tables refs (createTableRows txn pages s pk tableId) := by
  refine Guar.bind (Q := fun _ _ => True) (Guar.forM fun c _ =>
    insertBytes_growing rfl (fun h => nomatch h) fun h => nomatch h) fun _ => ?_
  refine (Guar.get.post fun _ _ _ => trivial).bind fun st => ?_
  refine Guar.bind (Q := fun _ _ => True) (Guar.forM fun c _ =>
    insertBytes_growing rfl (fun h => nomatch h) fun _ c' hdec x hx => ?_) fun _ => ?_
  · rw [decode_constraintTuple] at hdec
    cases hdec
    cases hx
  refine Guar.bind (Q := fun _ _ => True) (Guar.forM fun c hc =>
    insertBytes_growing rfl (fun h => nomatch h) fun _ c' hdec x hx => ?_) fun _ => ?_
  · rw [decode_constraintTuple] at hdec
    cases hdec
    exact hrefs c.1 (List.fst_mem_of_mem_zipIdx hc) x hx
  refine Guar.bind (Q := fun _ _ => True) ?_ fun _ => invalidate_growing
  cases pk with
  | none => exact Guar.ret
  | some col => exact performCreateIndex_growing txn pages _

/-- **CREATE TABLE** adds its table and its clauses, and no others. -/
theorem createTable_grows (txn : TxnId) (pages : Nat) (s : CreateTableStmt) (st : State) :
    Grows (newTable st s) (newCascades st s) st ((Stmt.createTable txn pages s).run st).final := by
  have hreads := FreshIds.Reading.reads (guar_analyzeCreateTable FreshIds.findTable_reading s) st
  have hanalysis : Grows (newTable st s) (newCascades st s) st (analyzeCreateTable s st).final :=
    Growing.grows (guar_analyzeCreateTable findTable_growing s) st
  show Grows _ _ st ((analyzeCreateTable s >>= performCreateTable txn pages s) st).final
  cases hx : analyzeCreateTable s st with
  | error e st₁ =>
    rw [hx] at hanalysis
    rw [EStateM.bind_of_error hx]
    exact hanalysis
  | ok pk st₁ =>
    rw [hx] at hreads hanalysis
    have hreads : FreshIds.Reads st st₁ := hreads
    rw [EStateM.bind_of_ok hx, performCreateTable_eq, FreshIds.reads_userTables hreads]
    cases ht : st.userTables with
    | error e => exact hanalysis
    | ok tables =>
      have hnew : newTable st s = [(asUsize (newTableId tables), s.table)] := by
        unfold newTable
        rw [ht]
      have hrefs : newCascades st s = s.foreignKeys.filterMap fun fk =>
          cascadeOf (asUsize (newTableId tables)) fk.encode := by
        unfold newCascades
        rw [ht]
      have hrows : Growing (newTable st s) (newCascades st s) (do
          insertBytes .pgClass (.mk' txn invalidTxnId
            [.int (newTableId tables), .varchar s.table, .int (asI32 (st₁.fresh st₁.allocs))])
          createTableRows txn pages s pk (newTableId tables) : CatM Unit) := by
        refine Guar.bind (Q := fun _ _ => True) (insertBytes_growing rfl (fun _ r hdec => ?_) fun h => ?_)
          fun _ => createTableRows_growing txn pages s pk _ fun fk hfk x hx => ?_
        · cases hdec
          rw [hnew]
          exact List.mem_singleton_self _
        · cases h
        · rw [hrefs]
          exact List.mem_filterMap.2 ⟨fk, hfk, hx⟩
      have htaken : Grows (newTable st s) (newCascades st s) st₁ { st₁ with allocs := st₁.allocs + 1 } :=
        .of_chains rfl fun _ _ h => Or.inl h
      exact (hanalysis.trans htaken).trans (hrows.grows _)

/-! ## Runs -/

/-- Fewer tables and clauses, fewer references. -/
theorem takes_mono {tables' refs' : List (Nat × String)} (htables : tables ⊆ tables')
    (hrefs : refs ⊆ refs') (parent child : Nat) (h : Takes tables refs parent child) :
    Takes tables' refs' parent child := by
  obtain ⟨name, hparent, hchild⟩ := h
  exact ⟨name, htables hparent, hrefs hchild⟩

/-- The references of a CREATE TABLE touch the new table. -/
theorem takes_new {s : CreateTableStmt} {parent child : Nat}
    (h : Takes (named st ++ newTable st s) (cascades st ++ newCascades st s) parent child) :
    Takes (named st) (cascades st) parent child ∨
      ∃ id name, newTable st s = [(id, name)] ∧ (parent = id ∨ child = id) := by
  obtain ⟨name, hparent, hchild⟩ := h
  unfold newTable newCascades at *
  cases ht : st.userTables with
  | error e =>
    rw [ht] at hparent hchild
    exact Or.inl ⟨name, by simpa using hparent, by simpa using hchild⟩
  | ok tables =>
    rw [ht] at hparent hchild
    rcases List.mem_append.1 hparent with hparent | hparent
    · rcases List.mem_append.1 hchild with hchild | hchild
      · exact Or.inl ⟨name, hparent, hchild⟩
      · obtain ⟨fk, -, hfk⟩ := List.mem_filterMap.1 hchild
        obtain ⟨fk', -, hfk⟩ := Option.bind_eq_some_iff.1 hfk
        split at hfk
        · cases hfk
          exact Or.inr ⟨_, _, rfl, Or.inr rfl⟩
        · cases hfk
    · cases List.mem_singleton.1 hparent
      exact Or.inr ⟨_, _, rfl, Or.inl rfl⟩

/-- References from a table to one with a greater id only. -/
def Upward (st : State) : Stmt → Prop
  | .createTable _ _ s => ∀ p ∈ named st ++ newTable st s, ∀ c ∈ cascades st ++ newCascades st s,
      p.2 = c.2 → p.1 < c.1
  | .dropTable .. => True
  | _ => False

instance (st : State) : DecidablePred (Upward st)
  | .createTable _ _ _ => inferInstanceAs (Decidable (∀ p ∈ _, ∀ c ∈ _, _ → _))
  | .dropTable .. => inferInstanceAs (Decidable True)
  | .createIndex .. | .createSequence .. | .dropIndex .. | .dropSequence .. | .truncate .. | .dml _
  | .direct .. | .vacuum .. => inferInstanceAs (Decidable False)

theorem Upward.closesNoCycle {stmt : Stmt} (h : Upward st stmt) : ClosesNoCycle st stmt := by
  cases stmt with
  | createTable txn pages s =>
    intro id _ _
    refine Acyclic.of_rank (fun n => n) (fun parent child htakes => ?_) id
    obtain ⟨name, hparent, hchild⟩ := htakes
    exact h _ hparent _ hchild rfl
  | dropTable txn names ifExists => trivial
  | _ => exact h.elim

namespace Settled

theorem of_reads (h : Settled st) (hr : Grows [] [] st st') : Settled st' := by
  refine ⟨h.acyclic.mono (takes_mono (fun x hx => ?_) fun x hx => ?_), fun id t ht => ?_⟩
  · exact (hr.named x hx).resolve_right List.not_mem_nil
  · exact (hr.cascades x hx).resolve_right List.not_mem_nil
  · exact (hr.cached id t ht).elim (fun ht => hr.kept (h.cached id t ht)) fun hin => hin

/-- What `table_by_id` returns bears a name of `pg_class`. -/
theorem tableById (h : Settled st) {id : Nat} {t : TableDef}
    (ht : answer (PgCatalog.tableById id) st = .ok (some t)) : (id, t.name) ∈ named st := by
  rw [answer_tableById] at ht
  cases hc : st.cache.tablesById id with
  | some hit =>
    rw [hc] at ht
    cases ht
    exact h.cached id t hc
  | none =>
    rw [hc] at ht
    unfold Option.elim State.scanById at ht
    cases hf : st.classRows.find? fun r => r.id = id with
    | none =>
      rw [hf] at ht
      cases ht
    | some r =>
      rw [hf] at ht
      have hid : r.id = id := by simpa using List.find?_some hf
      cases hload : st.loadTable r with
      | error e =>
        simp only [hload, Except.map] at ht
        cases ht
      | ok t' =>
        simp only [hload, Except.map] at ht
        cases ht
        rw [(loadTable_fields hload).2, ← hid]
        exact List.mem_map.2 ⟨r, List.mem_of_find?_eq_some hf, rfl⟩

/-- **One statement.** -/
theorem step {stmt : Stmt} (h : Settled st) (hok : ClosesNoCycle st stmt)
    (hstep : st.step stmt = some st') : Settled st' := by
  cases hstep
  cases stmt with
  | createTable txn pages s =>
    have hgrows := createTable_grows txn pages s st
    have htables : named _ ⊆ named st ++ newTable st s := fun x hx =>
      List.mem_append.2 (hgrows.named x hx)
    have hrefs : cascades _ ⊆ cascades st ++ newCascades st s := fun x hx =>
      List.mem_append.2 (hgrows.cascades x hx)
    refine ⟨Acyclic.mono ?_ (takes_mono htables hrefs), fun id t ht => ?_⟩
    · -- a new cycle would go through the new table
      by_cases hnew : ∃ id name, newTable st s = [(id, name)]
      · obtain ⟨id, name, hnew⟩ := hnew
        refine h.acyclic.through (n := id) (fun parent child hpc => ?_)
          (hok id name (by rw [hnew]; exact List.mem_singleton_self _))
        refine (takes_new hpc).imp_right ?_
        rintro ⟨id', name', hnew', htouch⟩
        rw [hnew] at hnew'
        cases hnew'
        exact htouch
      · refine h.acyclic.mono fun parent child hpc => (takes_new hpc).resolve_right ?_
        rintro ⟨id, name, heq, -⟩
        exact hnew ⟨id, name, heq⟩
    · exact (hgrows.cached id t ht).elim (fun ht => hgrows.kept (h.cached id t ht)) fun hin => hin
  | dropTable txn names ifExists =>
    show Settled ((resolveTables ifExists names >>= performDropTable txn) st).final
    have hres : Grows [] [] st (resolveTables ifExists names st).final :=
      Growing.grows (guar_resolveTables findTable_growing ifExists names) st
    cases hx : resolveTables ifExists names st with
    | error e st₁ =>
      rw [hx] at hres
      rw [EStateM.bind_of_error hx]
      exact h.of_reads hres
    | ok ids st₁ =>
      rw [hx] at hres
      rw [EStateM.bind_of_ok hx]
      have hsettled : Settled st₁ := h.of_reads hres
      have hends := FreshIds.performDropTable_ends txn.2 ids st₁
      unfold Ends at hends
      cases hp : performDropTable txn ids st₁ with
      | error e st₂ =>
        rw [hp] at hends
        exact hends.elim
      | ok u st₂ =>
        rw [hp] at hends
        obtain ⟨hremoves, hcache⟩ := hends
        refine ⟨hsettled.acyclic.mono (takes_mono ?_ ?_), fun id t ht => ?_⟩
        · exact List.map_subset _ (List.filterMap_subset _ (hremoves.sub _))
        · exact List.filterMap_subset _ hremoves.allConstraints
        · have ht : st₂.cache.tablesById id = some t := ht
          rw [hcache] at ht
          cases ht
  | _ => exact hok.elim

end Settled

theorem settled_bootstrap : Settled bootstrap where
  acyclic := by
    have hnone : cascades bootstrap = [] := by decide +kernel
    rw [hnone]
    exact .of_rank (fun _ => 0) fun _ _ ⟨_, _, hin⟩ => absurd hin List.not_mem_nil
  cached := fun _ _ h => nomatch h

end References

end Ccdb.PgCatalog
