import Ccdb.Catalog.References
import Ccdb.Exec.Trace

/-!
# Ccdb — ON DELETE actions

`cascade_fk_on_parent_delete` calls itself for the rows of referencing tables before it
tombstones them, and keeps no list of the rows it is at. The model has the calls up to a
depth and, past it, whatever `deep` does; that a DELETE makes finitely many calls is that
past some depth `deep` does not matter, since each call goes through finitely many
clauses and rows.

While the statement runs, the memo of the catalog takes up only what its lookups have
answered, so they go to the catalog as it was.

Main results:

* `cascade_stable` — with no cycle of CASCADE references, no call is deeper than there
  are CASCADE clauses.
* `deletes_terminate` — as long as no CREATE TABLE closes a cycle, every DELETE makes
  finitely many calls.
* `cascade_never_ends` — a table created under the name of a dropped one closes a cycle.
-/

namespace Ccdb.Cascade

open PgCatalog.References

/-- The entry as DML knows it. -/
def tableEntry (id : Nat) (t : PgCatalog.TableDef) : TableDef :=
  ⟨id, t.name, t.firstPageId, t.columns.map PgCatalog.ColumnDef.dataType,
    t.columns.map PgCatalog.ColumnDef.name⟩

/-- What DELETE asks of the catalog. -/
def keysOf (cat : PgCatalog.State) : KeyCatalog :=
  ⟨fun id => (PgCatalog.answer (PgCatalog.tableById id) cat).map (Option.map (tableEntry id)),
    cat.allConstraints⟩

/-- The statement makes finitely many calls: there is a depth that none of them passes. -/
def Terminates (cat : PgCatalog.State) (stmt : DeleteStmt) (s : Ctx) : Prop :=
  ∃ depth, ∀ deep deep', deleteFrom (keysOf cat) deep depth stmt s =
    deleteFrom (keysOf cat) deep' depth stmt s

/-! ## Depth -/

variable {keys : KeyCatalog} {cat : PgCatalog.State}
  {check : Nat → List Value → Except DbError Unit}

/-- A loop whose rounds are the same. -/
theorem forM_congr {α : Type} {f g : α → ExecM Unit} : ∀ {l : List α}, (∀ a ∈ l, f a = g a) →
    l.forM f = l.forM g
  | [], _ => rfl
  | a :: l, h => by
    show (f a >>= fun _ => l.forM f) = (g a >>= fun _ => l.forM g)
    rw [h a List.mem_cons_self, forM_congr fun b hb => h b (List.mem_cons_of_mem _ hb)]

/-- **One call** calls itself for referencing tables only. -/
theorem followClause_congr {f g : Nat → List Value → ExecM Unit} {parent : TableDef}
    {row : List Value} {snap : Snapshot} {c : ConstraintDef}
    (h : cascadeClause c = some (c.tableId, parent.name) → f c.tableId = g c.tableId) :
    followClause keys check f parent row snap c = followClause keys check g parent row snap c := by
  unfold followClause
  cases hkind : c.kind with
  | check => rfl
  | foreignKey =>
    cases hdec : ForeignKey.decode c.definition with
    | none => rfl
    | some fk =>
      dsimp only
      by_cases hname : fk.refTable ≠ parent.name
      · rw [if_pos hname, if_pos hname]
      rw [if_neg hname, if_neg hname]
      have hact : ∀ child col rows, onDelete check f parent child c fk.onDelete col rows =
          onDelete check g parent child c fk.onDelete col rows := by
        intro child col rows
        unfold onDelete
        by_cases haction : fk.onDelete = "CASCADE"
        · have hfg : f c.tableId = g c.tableId := by
            refine h ?_
            unfold cascadeClause cascadeOf
            rw [hkind, hdec]
            simp [haction, not_not.1 hname]
          have hrow : cascadeRow f c.tableId = cascadeRow g c.tableId := by
            funext r
            unfold cascadeRow
            rw [hfg]
          rw [hrow]
        · rw [if_neg haction, if_neg haction]
      unfold followKey
      simp only [hact]

/-- What follows a lookup depends on the table it finds. -/
theorem tableOr_bind_congr {α : Type} {id : Nat} {missing : String} {f g : TableDef → ExecM α}
    (h : ∀ t, keys.tableById id = .ok (some t) → f t = g t) :
    (keys.tableOr id missing >>= f) = keys.tableOr id missing >>= g := by
  unfold KeyCatalog.tableOr
  generalize keys.tableById id = found at h
  cases found with
  | error e => rfl
  | ok t =>
    cases t with
    | none => rfl
    | some t =>
      show f t = g t
      exact h t rfl

theorem keysOf_tableById (hcat : PgCatalog.References.Settled cat) {id : Nat} {parent : TableDef}
    (h : (keysOf cat).tableById id = .ok (some parent)) : (id, parent.name) ∈ named cat := by
  have h : (PgCatalog.answer (PgCatalog.tableById id) cat).map (Option.map (tableEntry id)) =
      .ok (some parent) := h
  cases hfound : PgCatalog.answer (PgCatalog.tableById id) cat with
  | error e =>
    rw [hfound] at h
    cases h
  | ok t =>
    rw [hfound] at h
    obtain ⟨t, rfl, rfl⟩ := Option.map_eq_some_iff.1 (Except.ok.inj h)
    exact hcat.tableById hfound

theorem call_congr {f g : Nat → List Value → ExecM Unit} (hcat : PgCatalog.References.Settled cat) {id : Nat}
    (h : ∀ child, Takes (named cat) (cascades cat) id child → f child = g child) :
    cascadeFkOnParentDelete (keysOf cat) check f id = cascadeFkOnParentDelete (keysOf cat) check g id := by
  funext row
  unfold cascadeFkOnParentDelete
  refine tableOr_bind_congr fun parent hparent => ?_
  have hclauses : ∀ snap,
      (keysOf cat).allConstraints.forM (followClause (keysOf cat) check f parent row snap) =
        (keysOf cat).allConstraints.forM (followClause (keysOf cat) check g parent row snap) := by
    intro snap
    refine forM_congr fun c hc => followClause_congr fun href => h _ ?_
    exact ⟨parent.name, keysOf_tableById hcat hparent, List.mem_filterMap.2 ⟨c, hc, href⟩⟩
  simp only [hclauses]

/-- **No call is deeper** than the height of its table in the references. -/
theorem cascade_stable (hcat : PgCatalog.References.Settled cat) (deep deep' : Nat → List Value → ExecM Unit) :
    ∀ (n id : Nat),
      height (Takes (named cat) (cascades cat)) ((cascades cat).map Prod.fst).toFinset id < n →
      cascade (keysOf cat) check deep n id = cascade (keysOf cat) check deep' n id
  | 0, _, h => absurd h (Nat.not_lt_zero _)
  | n + 1, id, h => by
    refine call_congr hcat fun child htakes => cascade_stable hcat deep deep' n child ?_
    have hin : child ∈ ((cascades cat).map Prod.fst).toFinset := by
      obtain ⟨name, -, hchild⟩ := htakes
      exact List.mem_toFinset.2 (List.mem_map.2 ⟨_, hchild, rfl⟩)
    exact Nat.lt_of_lt_of_le (hcat.acyclic.height_lt htakes hin) (Nat.lt_succ_iff.1 h)

theorem deleteFrom_stable (hcat : PgCatalog.References.Settled cat) (stmt : DeleteStmt) (s : Ctx) :
    Terminates cat stmt s := by
  refine ⟨(cascades cat).length + 1, fun deep deep' => ?_⟩
  have hdepth : height (Takes (named cat) (cascades cat)) ((cascades cat).map Prod.fst).toFinset
      stmt.tableId < (cascades cat).length + 1 := by
    refine Nat.lt_succ_iff.2 ((height_le _ _ _).trans ((List.toFinset_card_le _).trans ?_))
    rw [List.length_map]
  unfold deleteFrom
  rw [cascade_stable hcat deep deep' _ _ hdepth]

/-- **DELETE makes finitely many calls** in every catalog that CREATE TABLE and DROP TABLE
have made without closing a cycle of CASCADE references. -/
theorem deletes_terminate (stmts : List PgCatalog.Stmt)
    (hrun : Follows PgCatalog.State.step ClosesNoCycle PgCatalog.bootstrap stmts)
    (stmt : DeleteStmt) (s : Ctx) :
    Terminates (after PgCatalog.State.step PgCatalog.bootstrap stmts) stmt s :=
  deleteFrom_stable (hrun.invariant (I := PgCatalog.References.Settled)
    PgCatalog.References.Settled.step settled_bootstrap) stmt s

/-- `FOREIGN KEY (column) REFERENCES refTable (refColumn) ON DELETE CASCADE`. -/
def cascadeKey (column refTable refColumn : String) : ForeignKey :=
  ⟨column, refTable, refColumn, "CASCADE", "NO_ACTION"⟩

/-- `CREATE TABLE name (c₁ INT, …, FOREIGN KEY …)`. -/
def createTable (txn : PgCatalog.TxnId) (name : String) (columns : List String)
    (keys : List ForeignKey) : PgCatalog.Stmt :=
  .createTable txn 0 ⟨name, columns.map fun c => ⟨c, .int, true, none⟩, [], [], keys⟩

/-- A table, one that refers to it, and that one again after a DROP. -/
def childAgain : List PgCatalog.Stmt :=
  [createTable 2 "a" ["k"] [],
    createTable 3 "b" ["x"] [cascadeKey "x" "a" "k"],
    .dropTable 4 ["b"] false,
    createTable 5 "b" ["x", "y"] [cascadeKey "y" "a" "k"]]

/-- DELETE FROM the table `id`. -/
def deleteAll (id : Nat) : DeleteStmt := ⟨id, none, fun _ _ => .ok ()⟩

/-- A state with the given rows on its pages. -/
def stateWith (rows : Nat → List (List Value)) : Ctx where
  pool := ⟨fun p => PgCatalog.systemPage p (rows p), 8, [], 100, hundred_le_noNextPage⟩
  versions := fun p => [.new p]
  wal := ⟨[], 1, 0⟩
  tm := ⟨10, [(9, 0)], fun n => if n < 9 then .committed else .inProgress⟩
  catalog := ⟨[], [], []⟩
  locks := []
  tx := ⟨true, 9, 0, none, []⟩

/-- The rows a fresh snapshot sees of a table. -/
def contents (s : Ctx) (t : PgCatalog.TableDef) : List (List Value) :=
  match visibleRows t.firstPageId (s.tm.snapshot s.tx.id) s.tm s.pool with
  | .ok rows _ => rows.map Prod.snd
  | .error _ _ => []

/-- Rows of `a`, and rows of `b` that refer to them by `x` or by `y`. -/
def childRows : Ctx := stateWith fun p =>
  if p = 5 then [[.int 1], [.int 2]]
  else if p = 7 then [[.int 1, .int 1], [.int 2, .int 1], [.int 3, .int 3]] else []

/-- DELETE FROM a, with the rows that refer to it by either key. -/
theorem deletes_terminate_child :
    let cat := after PgCatalog.State.step PgCatalog.bootstrap childAgain
    let run := deleteFrom (keysOf cat) (fun _ _ => throw .diverge) 2 (deleteAll 5) childRows
    Terminates cat (deleteAll 5) childRows ∧ run.answer = some 2 ∧
      contents run.final ⟨6, "b", 7, []⟩ = [[.int 3, .int 3]] := by
  have hupward : Follows PgCatalog.State.step Upward PgCatalog.bootstrap childAgain := by decide +kernel
  refine ⟨deletes_terminate childAgain (hupward.mono fun _ _ h => h.closesNoCycle) _ _, ?_⟩
  decide +kernel

/-! ## A cycle -/

/-- A clause of a CASCADE key: the call for its first referencing row comes before
anything is written. -/
theorem followClause_recurses {recurse : Nat → List Value → ExecM Unit} {s : Ctx} {e : DbError}
    {parent : TableDef} {row : List Value} {snap : Snapshot} {c : ConstraintDef}
    (child : TableDef) (fk : ForeignKey) (i j : Nat) (v : Value) (r : Rid × List Value)
    (all rest : List (Rid × List Value)) (hkind : c.kind = .foreignKey)
    (hdec : ForeignKey.decode c.definition = some fk) (hname : fk.refTable = parent.name)
    (haction : fk.onDelete = "CASCADE")
    (hi : (parent.columnNames.findIdx? fun x => x = fk.refColumn) = some i)
    (hv : row[i]? = some v) (hnull : v ≠ .null)
    (hchild : keys.tableById c.tableId = .ok (some child))
    (hj : (child.columnNames.findIdx? fun x => x = fk.column) = some j)
    (hall : onPool (visibleRows child.firstPageId snap s.tm) s = .ok all s)
    (hrows : rowsEqual j v all = .ok (r :: rest))
    (hrec : recurse c.tableId r.2 s = .error e s) :
    followClause keys check recurse parent row snap c s = .error e s := by
  have hcolumn : columnOr parent fk.refColumn "FK ref column missing" s = .ok i s := by
    unfold columnOr
    rw [hi]
    rfl
  have htarget : liftX (valueAt row i) s = .ok v s := by
    unfold valueAt
    rw [hv]
    rfl
  have hentry : keys.tableOr c.tableId s!"child table {c.tableId} missing" s = .ok child s := by
    unfold KeyCatalog.tableOr
    rw [hchild]
    rfl
  have hcolumn' : columnOr child fk.column "FK child column missing" s = .ok j s := by
    unfold columnOr
    rw [hj]
    rfl
  unfold followClause
  rw [hkind, hdec]
  dsimp only
  rw [if_neg (not_not.2 hname)]
  unfold followKey
  rw [EStateM.bind_of_ok hcolumn, EStateM.bind_of_ok htarget, if_neg hnull,
    EStateM.bind_of_ok hentry, EStateM.bind_of_ok hcolumn']
  show (onPool (visibleRows child.firstPageId snap s.tm) >>= _) s = _
  rw [EStateM.bind_of_ok hall, hrows,
    EStateM.bind_of_ok (show liftX (.ok (r :: rest)) s = .ok (r :: rest) s from rfl),
    if_neg (List.cons_ne_nil _ _)]
  unfold onDelete
  rw [if_neg (by simp [haction]), if_pos haction]
  exact EStateM.bind_of_error (EStateM.bind_of_error hrec)

/-- A call goes through the constraints of the catalog. -/
theorem call_eq {recurse : Nat → List Value → ExecM Unit} {id : Nat} {row : List Value}
    {parent : TableDef} (snap : Snapshot) {s : Ctx} (hparent : keys.tableById id = .ok (some parent))
    (hsnap : s.tx.snapshot = some snap) :
    cascadeFkOnParentDelete keys check recurse id row s =
      (keys.allConstraints.forM (followClause keys check recurse parent row snap) : ExecM Unit) s := by
  have hentry : keys.tableOr id s!"parent table {id} missing" s = .ok parent s := by
    unfold KeyCatalog.tableOr
    rw [hparent]
    rfl
  unfold cascadeFkOnParentDelete
  rw [EStateM.bind_of_ok hentry, EStateM.bind_of_ok (show getCtx s = .ok s s from rfl), hsnap]

/-- The call fails where the call for the other row does: it has done nothing before. -/
def CallsFirst (keys : KeyCatalog) (check : Nat → List Value → Except DbError Unit) (s : Ctx)
    (a b : Nat × List Value) : Prop :=
  ∀ (recurse : Nat → List Value → ExecM Unit) (e : DbError), recurse b.1 b.2 s = .error e s →
    cascadeFkOnParentDelete keys check recurse a.1 a.2 s = .error e s

/-- **Two rows whose calls call each other**: the depth is always reached. -/
theorem deep_reached {s : Ctx} {a b : Nat × List Value} (hab : CallsFirst keys check s a b)
    (hba : CallsFirst keys check s b a) (e : DbError) (n : Nat) :
    cascade keys check (fun _ _ => throw e) n a.1 a.2 s = .error e s ∧
      cascade keys check (fun _ _ => throw e) n b.1 b.2 s = .error e s := by
  induction n with
  | zero => exact ⟨rfl, rfl⟩
  | succ n ih => exact ⟨hab _ e ih.2, hba _ e ih.1⟩

/-- The first row of the statement decides it where its step fails. -/
theorem retryLoop_error {name : String} {table : TableDef} {pred : Option Predicate}
    {step : Rid → List Value → ExecM RowStep} {n : Nat} {s s₁ : Ctx} {snap : Snapshot}
    {r : Rid × List Value} {rest : List (Rid × List Value)} {e : DbError}
    (hsnap : freshSnapshot s = .ok snap s₁) (hrows : matchingRows table pred snap s₁ = .ok (r :: rest) s₁)
    (hstep : step r.1 r.2 s₁ = .error e s₁) :
    retryLoop name table pred step (n + 1) s = .error e s₁ := by
  unfold retryLoop
  rw [EStateM.bind_of_ok hsnap, EStateM.bind_of_ok hrows]
  refine EStateM.bind_of_error ?_
  unfold rowLoop
  exact EStateM.bind_of_error hstep

/-- CREATE TABLE and DROP TABLE. -/
def isTableDdl : PgCatalog.Stmt → Bool
  | .createTable .. | .dropTable .. => true
  | _ => false

/-- The value of a column by name. -/
def named? (t : PgCatalog.TableDef) (name : String) (row : List Value) : Option Value :=
  (t.columns.findIdx? fun c => c.name = name).bind fun i => row[i]?

/-- Every value under the key is NULL or one of the referenced column. -/
def keyHolds (tables : List PgCatalog.TableDef) (s : Ctx) (c : ConstraintDef) (fk : ForeignKey) :
    Bool :=
  tables.all fun child => child.tableId ≠ c.tableId || (contents s child).all fun row =>
    (named? child fk.column row).all fun v => v = .null || tables.any fun parent =>
      parent.name = fk.refTable && (contents s parent).any fun row' =>
        (named? parent fk.refColumn row').any (valuesEqual v)

/-- The contents of the tables satisfy the FOREIGN KEY clauses of the catalog. -/
def keysHold (cat : PgCatalog.State) (s : Ctx) : Bool :=
  match cat.userTables with
  | .error _ => false
  | .ok tables => cat.allConstraints.all fun c =>
    c.kind = .check || (ForeignKey.decode c.definition).all (keyHolds tables s c)

/-- `a` is dropped while `b` refers to it, and created again with a reference to `b`. -/
def recreated : List PgCatalog.Stmt :=
  [createTable 2 "a" ["k"] [],
    createTable 3 "b" ["x"] [cascadeKey "x" "a" "k"],
    .dropTable 4 ["a"] false,
    createTable 5 "a" ["k", "y"] [cascadeKey "y" "b" "x"]]

def recreatedCatalog : PgCatalog.State := after PgCatalog.State.step PgCatalog.bootstrap recreated

/-- The row (1) of `b` and the row (1, 1) of `a`, which refer to each other. -/
def mutualRows : Ctx := stateWith fun p =>
  if p = 6 then [[.int 1]] else if p = 7 then [[.int 1, .int 1]] else []

/-- The state of the DELETE when its rows are read. -/
def mutualRead : Ctx := (freshSnapshot mutualRows).final

def tableA : TableDef := ⟨7, "a", 7, [.int, .int], ["k", "y"]⟩

def tableB : TableDef := ⟨6, "b", 6, [.int], ["x"]⟩

/-- The clauses `b_fkey_0` and `a_fkey_0`. -/
def keyB : ConstraintDef := ⟨0, "b_fkey_0", 6, .foreignKey, (cascadeKey "x" "a" "k").encode⟩
def keyA : ConstraintDef := ⟨1, "a_fkey_0", 7, .foreignKey, (cascadeKey "y" "b" "x").encode⟩

/-- The catalog of the two tables, and the rows in them. -/
theorem recreated_catalog : recreatedCatalog.allConstraints = [keyB, keyA] ∧
    (keysOf recreatedCatalog).tableById 7 = .ok (some tableA) ∧
    (keysOf recreatedCatalog).tableById 6 = .ok (some tableB) ∧
    keysHold recreatedCatalog mutualRows = true := by
  decide +kernel

theorem recreated_keys : ForeignKey.decode keyB.definition = some (cascadeKey "x" "a" "k") ∧
    ForeignKey.decode keyA.definition = some (cascadeKey "y" "b" "x") := by
  decide

/-- The rows the reads of the DELETE find. -/
theorem visible_a : onPool (visibleRows 7 (mutualRows.tm.snapshot 9) mutualRead.tm) mutualRead =
    .ok [((7, 0), [.int 1, .int 1])] mutualRead :=
  (readOnly_onPool (readOnly_visibleRows _ _ _)).ok_of_answer (by decide +kernel)

theorem visible_b : onPool (visibleRows 6 (mutualRows.tm.snapshot 9) mutualRead.tm) mutualRead =
    .ok [((6, 0), [.int 1])] mutualRead :=
  (readOnly_onPool (readOnly_visibleRows _ _ _)).ok_of_answer (by decide +kernel)

theorem mutualRead_snapshot : mutualRead.tx.snapshot = some (mutualRows.tm.snapshot 9) := rfl

/-- The call for the row of `a` begins with the one for the row of `b`. -/
theorem a_calls_b : CallsFirst (keysOf recreatedCatalog) (fun _ _ => .ok ()) mutualRead
    (7, [.int 1, .int 1]) (6, [.int 1]) := by
  intro recurse e hrec
  rw [call_eq (mutualRows.tm.snapshot 9) recreated_catalog.2.1 mutualRead_snapshot,
    show (keysOf recreatedCatalog).allConstraints = _ from recreated_catalog.1]
  refine EStateM.bind_of_error ?_
  exact followClause_recurses tableB (cascadeKey "x" "a" "k") 0 0 (.int 1) ((6, 0), [.int 1])
    [((6, 0), [.int 1])] [] rfl recreated_keys.1 rfl rfl (by decide) rfl (by decide)
    recreated_catalog.2.2.1 (by decide) visible_b rfl hrec

/-- The call for the row of `b` passes over its own key, then calls for the row of `a`. -/
theorem b_calls_a : CallsFirst (keysOf recreatedCatalog) (fun _ _ => .ok ()) mutualRead
    (6, [.int 1]) (7, [.int 1, .int 1]) := by
  intro recurse e hrec
  rw [call_eq (mutualRows.tm.snapshot 9) recreated_catalog.2.2.1 mutualRead_snapshot,
    show (keysOf recreatedCatalog).allConstraints = _ from recreated_catalog.1]
  have hskip : followClause (keysOf recreatedCatalog) (fun _ _ => .ok ()) recurse tableB [.int 1]
      (mutualRows.tm.snapshot 9) keyB mutualRead = .ok ⟨⟩ mutualRead := by
    unfold followClause
    rw [show keyB.kind = .foreignKey from rfl, recreated_keys.1]
    rfl
  refine (EStateM.forM_of_ok hskip).trans (EStateM.bind_of_error ?_)
  exact followClause_recurses tableA (cascadeKey "y" "b" "x") 0 1 (.int 1)
    ((7, 0), [.int 1, .int 1]) [((7, 0), [.int 1, .int 1])] [] rfl recreated_keys.2 rfl rfl
    (by decide) rfl (by decide) recreated_catalog.2.1 (by decide) visible_a rfl hrec

/-- DELETE FROM a. -/
theorem delete_error (e : DbError) (n : Nat) : deleteFrom (keysOf recreatedCatalog)
    (fun _ _ => throw e) n (deleteAll 7) mutualRows = .error e mutualRead := by
  have hentry : (keysOf recreatedCatalog).tableOr 7 "table id 7 not in catalog" mutualRows =
      .ok tableA mutualRows := by
    unfold KeyCatalog.tableOr
    rw [recreated_catalog.2.1]
    rfl
  have hrows : matchingRows tableA none (mutualRows.tm.snapshot 9) mutualRead =
      .ok [((7, 0), [.int 1, .int 1])] mutualRead :=
    (EStateM.bind_of_ok visible_a).trans rfl
  unfold deleteFrom
  refine (EStateM.bind_of_ok hentry).trans (retryLoop_error rfl hrows ?_)
  exact EStateM.bind_of_error (deep_reached a_calls_b b_calls_a e n).1

/-- **DELETE calls itself for ever** between a table and the one created under the name of
the table it refers to. -/
theorem cascade_never_ends : ¬ ∀ (stmts : List PgCatalog.Stmt), (∀ x ∈ stmts, isTableDdl x = true) →
    ∀ (s : Ctx) (stmt : DeleteStmt),
      keysHold (after PgCatalog.State.step PgCatalog.bootstrap stmts) s = true →
      Terminates (after PgCatalog.State.step PgCatalog.bootstrap stmts) stmt s := by
  intro h
  obtain ⟨n, hn⟩ := h recreated (by decide) mutualRows (deleteAll 7) recreated_catalog.2.2.2
  have heq := hn (fun _ _ => throw .diverge) fun _ _ => throw (.bail "")
  rw [show after PgCatalog.State.step PgCatalog.bootstrap recreated = recreatedCatalog from rfl,
    delete_error, delete_error] at heq
  cases heq

end Ccdb.Cascade
