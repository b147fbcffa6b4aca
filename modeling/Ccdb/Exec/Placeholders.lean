import Ccdb.Catalog.References
import Ccdb.Exec.Calls
import Ccdb.Exec.Dml
import Ccdb.Exec.FkProbe
import Ccdb.Sql.ExprParser

/-!
# Ccdb — placeholders and the evaluator

`now()` and the sequence functions are analyzed to nodes that `evaluate_expr` has no value for.
Two passes take them out of a statement before it is executed. The statements are modelled here
with a note of every expression `evaluate_expr` is called on; what the executor does with the
values is a parameter, and the catalog answers as it did when the statement began.

Main results:

* `calls_handed` — the calls of a run are for expressions handed to the evaluator.
* `clean_iff_covered` — when none of these bears a placeholder.
* `placeholders_iff` — both.
-/

namespace Ccdb.Placeholders

open Join (Row)
open FromClause (Tables)
open PgCatalog.References
open ExprParser (ParseFromStr parseExprStr)
open Select (AnalyzedSelectStatement AnalyzedSelectItem Evaluation substituteNowInSelect
  substituteNowInAgg)
open Calls
open Relation (ReflTransGen)

/-! ## Statements -/

structure AnalyzedAssignment where
  columnIndex : Nat
  value : AnalyzedExpr

inductive AnalyzedOnConflict where
  | doNothing
  | doUpdate (assignments : List AnalyzedAssignment) (whereClause : Option AnalyzedExpr)

structure AnalyzedInsertStatement where
  tableId : Nat
  tableName : String
  rows : List (List AnalyzedExpr)
  onConflict : Option AnalyzedOnConflict

structure AnalyzedDeleteStatement where
  tableId : Nat
  whereClause : Option AnalyzedExpr

structure AnalyzedUpdateStatement where
  tableId : Nat
  tableName : String
  assignments : List AnalyzedAssignment
  whereClause : Option AnalyzedExpr

/-- The statements with expressions. -/
inductive AnalyzedStatement where
  | select (s : AnalyzedSelectStatement)
  | insert (s : AnalyzedInsertStatement)
  | delete (s : AnalyzedDeleteStatement)
  | update (s : AnalyzedUpdateStatement)

/-- `substitute_now_in_statement`. -/
def substituteNowInStatement (ts : Int64) : AnalyzedStatement → AnalyzedStatement
  | .select s => .select (substituteNowInSelect ts s)
  | .insert s => .insert { s with rows := s.rows.map fun row => row.map (substituteNow ts) }
  | .update s => .update { s with
      assignments := s.assignments.map fun a => ⟨a.columnIndex, substituteNow ts a.value⟩
      whereClause := s.whereClause.map (substituteNow ts) }
  | .delete s => .delete { s with whereClause := s.whereClause.map (substituteNow ts) }

/-! ## The executor -/

/-- The catalog while a statement runs, and how its texts are read. -/
structure Catalog where
  tables : Tables
  findSequence : String → Except DbError Bool
  allConstraints : Except DbError (List ConstraintDef)
  build : Build
  parseFromStr : ParseFromStr

/-- What the executor does with rows that are evaluated. -/
structure Storage (τ : Type) where
  scans : Scans τ
  -- `nextval` or `setval`
  sequenceCall : EStateM DbError τ Int64
  -- the transaction has a snapshot
  requireSnapshot : EStateM DbError τ Unit
  -- a fresh snapshot for an attempt of UPDATE or DELETE
  freshSnapshot : EStateM DbError τ Unit
  visibleRows : Nat → EStateM DbError τ (List (Rid × Row))
  -- the cursor of an index that the WHERE clause has a predicate for, if there is one
  openIndex : Nat → Option AnalyzedExpr → EStateM DbError τ Bool
  -- the next entry in the range, with the visible row it leads to
  nextEntry : Nat → EStateM DbError τ (Option (Option (Rid × Row)))
  detectUniqueConflict : Nat → Row → EStateM DbError τ (Option Rid)
  readTuple : Nat → Rid → EStateM DbError τ Row
  -- the foreign keys of a row, its version, lock and index entries
  insertRow : Nat → Row → EStateM DbError τ Unit
  -- a version in the place of another
  replaceRow : Nat → Rid → Row → EStateM DbError τ Unit
  lockAndRecheck : Nat → Rid → EStateM DbError τ Recheck
  -- the rest of UPDATE for a row; `false` is a lost race for a unique key
  updateRow : Nat → Rid → Row → List Nat → EStateM DbError τ Bool
  lockRow : Rid → EStateM DbError τ Unit
  markDeleted : Rid → EStateM DbError τ Unit

def MAX_RETRIES : Nat := 8

/-- A result. -/
inductive Output where
  | rows (rows : List Row)
  | affected (n : Nat)

variable {τ : Type}

/-- `analyze_expr_for_table`. -/
def analyzeExprForTable (cat : Catalog) (tableName : String) (e : Expr) :
    Except DbError AnalyzedExpr := do
  let (_, st) ← FromClause.introTable cat.tables ⟨tableName, none⟩ 0 (.start cat.findSequence)
  st.analyzer.analyzeExpr e

/-- The expression of a CHECK clause from its text. -/
def bindCheck (cat : Catalog) (c : ConstraintDef) (tableName : String) :
    Except DbError AnalyzedExpr :=
  match parseExprStr cat.build cat.parseFromStr c.definition.toList with
  | .ok e => analyzeExprForTable cat tableName e
  | .error (.bail _) => .error (.bail s!"stored CHECK '{c.definition}' failed to parse")
  | .error e => .error e

/-- The expression a CHECK clause has with these entries of the cache. -/
def checkExpr (cat : Catalog) (checks : List (Nat × AnalyzedExpr)) (c : ConstraintDef)
    (tableName : String) : Except DbError AnalyzedExpr :=
  match checks.lookup c.constraintId with
  | some a => .ok a
  | none => bindCheck cat c tableName

/-- The lookup in `analyzed_check_cache`, which gets a new entry. -/
def cachedCheck (cat : Catalog) (c : ConstraintDef) (tableName : String) : RunM τ AnalyzedExpr :=
  fun s =>
    match s.checks.lookup c.constraintId with
    | some a => .ok a s
    | none =>
      match bindCheck cat c tableName with
      | .ok a => .ok a { s with checks := (c.constraintId, a) :: s.checks }
      | .error e => .error e s

section Statements

variable (cat : Catalog)

/-- `table_by_id` where a missing table is an error. -/
def tableOr (tableId : Nat) (missing : String) : RunM τ PgCatalog.TableDef := do
  match ← ofExcept (cat.tables.tableById tableId) with
  | some t => return t
  | none => throw (.bail missing)

variable (ev : Evaluation) (db : Storage τ)

/-- One turn of `enforce_check_constraints`. -/
def enforceCheck (tableName : String) (row : Row) (c : ConstraintDef) : RunM τ Unit :=
  match c.kind with
  | .foreignKey => return ()
  | .check => do
    let analyzed ← cachedCheck cat c tableName
    match ← evaluate ev.arith row analyzed with
    | .bool true => return ()
    | .bool false =>
      throw (.bail s!"new row violates check constraint \"{c.name}\" [SQLSTATE 23514]")
    | .null => return ()
    | _ => throw (.bail s!"CHECK '{c.name}' returned non-boolean")

/-- `enforce_check_constraints`. -/
def enforceCheckConstraints (tableId : Nat) (tableName : String) (values : Row) : RunM τ Unit := do
  let constraints ← ofExcept cat.allConstraints
  (constraints.filter fun c => c.tableId = tableId).forM (enforceCheck cat ev tableName values)

/-- `matches`. -/
def matchesRow (predicate : Option AnalyzedExpr) (row : Row) : RunM τ Bool :=
  match predicate with
  | none => return true
  | some p => do
    match ← evaluate ev.arith row p with
    | .bool b => return b
    | .null => return false
    | other => throw (notBoolean "WHERE predicate" other)

/-- The new values of an assignment list; all expressions see the old ones. -/
def assign (table : PgCatalog.TableDef) (row : Row) : List AnalyzedAssignment → Row → RunM τ Row
  | [], acc => return acc
  | a :: rest, acc => do
    let v ← evaluate ev.arith row a.value
    match table.columns[a.columnIndex]? with
    | none => throw (.panic "index out of bounds")
    | some c => assign table row rest (acc.set a.columnIndex (coerceForStorage v c.dataType))

/-- `on_conflict_do_update`. -/
def onConflictDoUpdate (tableId : Nat) (tableName : String) (target : Rid)
    (assignments : List AnalyzedAssignment) (whereClause : Option AnalyzedExpr) : RunM τ Bool := do
  let table ← tableOr cat tableId s!"table id {tableId} not in catalog"
  let old ← onStore (db.readTuple tableId target)
  if !(← matchesRow ev whereClause old) then return false
  let new ← assign ev table old assignments old
  enforceCheckConstraints cat ev tableId tableName new
  onStore (db.replaceRow tableId target new)
  return true

/-- The values of a VALUES row. -/
def insertValues (table : PgCatalog.TableDef) (row : List AnalyzedExpr) : RunM τ Row := do
  let exprs ← row.mapM fun e => onStore (evaluateSequenceCalls db.sequenceCall e)
  let raw ← exprs.mapM (evaluate ev.arith [])
  return (raw.zip table.columns).map fun (v, c) => coerceForStorage v c.dataType

/-- The normal path of `perform_insert`. -/
def insertNew (s : AnalyzedInsertStatement) (values : Row) : RunM τ Nat := do
  enforceCheckConstraints cat ev s.tableId s.tableName values
  onStore (db.insertRow s.tableId values)
  return 1

/-- One row of `perform_insert`, with what it adds to `count`. -/
def insertOne (s : AnalyzedInsertStatement) (table : PgCatalog.TableDef) (row : List AnalyzedExpr) :
    RunM τ Nat := do
  let values ← insertValues ev db table row
  match s.onConflict with
  | none => insertNew cat ev db s values
  | some onConflict => do
    match ← onStore (db.detectUniqueConflict s.tableId values) with
    | none => insertNew cat ev db s values
    | some target =>
      match onConflict with
      | .doNothing => return 0
      | .doUpdate assignments whereClause => do
        let updated ← onConflictDoUpdate cat ev db s.tableId table.name target assignments whereClause
        return if updated then 1 else 0

/-- `perform_insert`. -/
def performInsert (s : AnalyzedInsertStatement) : RunM τ Nat := do
  let table ← tableOr cat s.tableId s!"table id {s.tableId} not in catalog"
  s.rows.foldlM (fun count row => do
    let n ← insertOne cat ev db s table row
    return count + n) 0

/-- The rows of a scan that pass. -/
def passingRows (predicate : Option AnalyzedExpr) : List (Rid × Row) → RunM τ (List (Rid × Row))
  | [] => return []
  | r :: rest => do
    let keep ← matchesRow ev predicate r.2
    let out ← passingRows predicate rest
    return if keep then r :: out else out

/-- The index path of `matching_rows`. One unit of fuel is one entry. -/
def passingEntries (tableId : Nat) (predicate : Option AnalyzedExpr) :
    Nat → List (Rid × Row) → RunM τ (List (Rid × Row))
  | 0, _ => throw .diverge
  | fuel + 1, out => do
    match ← onStore (db.nextEntry tableId) with
    | none => return out
    | some none => passingEntries tableId predicate fuel out
    | some (some r) => do
      let keep ← matchesRow ev predicate r.2
      passingEntries tableId predicate fuel (if keep then out ++ [r] else out)

/-- `matching_rows`. -/
def matchingRows (fuel tableId : Nat) (whereClause : Option AnalyzedExpr) :
    RunM τ (List (Rid × Row)) := do
  let indexed ← onStore (db.openIndex tableId whereClause)
  if indexed then passingEntries ev db tableId whereClause fuel []
  else do
    let all ← onStore (db.visibleRows tableId)
    passingRows ev whereClause all

/-- The rows of an attempt, until one of them makes the statement restart. -/
def eachRow (f : Rid × Row → RunM τ (Option Nat)) : List (Rid × Row) → Nat → RunM τ (Option Nat)
  | [], count => return some count
  | r :: rest, count => do
    match ← f r with
    | none => return none
    | some n => eachRow f rest (count + n)

/-- The loop `'restart`. -/
def restarting (fuel tableId : Nat) (whereClause : Option AnalyzedExpr) (gaveUp : String)
    (f : Rid × Row → RunM τ (Option Nat)) : Nat → RunM τ Nat
  | 0 => throw (.bail gaveUp)
  | attempts + 1 => do
    onStore db.freshSnapshot
    let rows ← matchingRows ev db fuel tableId whereClause
    match ← eachRow f rows 0 with
    | some count => return count
    | none => restarting fuel tableId whereClause gaveUp f attempts

/-- One row of `perform_update`. -/
def updateOne (s : AnalyzedUpdateStatement) (table : PgCatalog.TableDef) (r : Rid × Row) :
    RunM τ (Option Nat) := do
  match ← onStore (db.lockAndRecheck s.tableId r.1) with
  | .gone => return some 0
  | .restart => return none
  | .free => do
    let new ← assign ev table r.2 s.assignments r.2
    enforceCheckConstraints cat ev s.tableId s.tableName new
    let done ← onStore (db.updateRow s.tableId r.1 new
      (s.assignments.map AnalyzedAssignment.columnIndex))
    return if done then some 1 else none

/-- `perform_update`. -/
def performUpdate (fuel : Nat) (s : AnalyzedUpdateStatement) : RunM τ Nat := do
  let table ← tableOr cat s.tableId s!"table id {s.tableId} not in catalog"
  restarting ev db fuel s.tableId s.whereClause "could not serialize access — UPDATE retried 8 times against concurrent updates [SQLSTATE 40001]"
    (updateOne cat ev db s table) MAX_RETRIES

/-- One row of the CASCADE branch. -/
def cascadeRow (recurse : Nat → Row → RunM τ Unit) (childId : Nat) (r : Rid × Row) :
    RunM τ Unit := do
  recurse childId r.2
  onStore (db.lockRow r.1)
  onStore (db.markDeleted r.1)

/-- One row of the SET NULL branch. -/
def setNullRow (childId : Nat) (child : PgCatalog.TableDef) (col : Nat) (r : Rid × Row) :
    RunM τ Unit := do
  let newValues := r.2.set col .null
  enforceCheckConstraints cat ev childId child.name newValues
  onStore (db.replaceRow childId r.1 newValues)

/-- The action of a clause on the rows that reference the parent row. -/
def onDelete (recurse : Nat → Row → RunM τ Unit) (parent child : PgCatalog.TableDef)
    (c : ConstraintDef) (action : String) (col : Nat) (rows : List (Rid × Row)) : RunM τ Unit :=
  if action = "RESTRICT" ∨ action = "NO_ACTION" then
    throw (.bail s!"update or delete on \"{parent.name}\" violates foreign key constraint \"{c.name}\" on \"{child.name}\" [SQLSTATE 23503]")
  else if action = "CASCADE" then rows.forM (cascadeRow db recurse c.tableId)
  else if action = "SET_NULL" then rows.forM (setNullRow cat ev db c.tableId child col)
  else throw (.bail s!"unknown FK action '{action}'")

/-- The position of a column. -/
def columnOr (t : PgCatalog.TableDef) (name missing : String) : RunM τ Nat :=
  match t.columns.findIdx? fun c => c.name = name with
  | some i => return i
  | none => throw (.bail missing)

/-- The rows whose column `i` has the value `target`. -/
def rowsWith (i : Nat) (target : Value) : List (Rid × Row) → RunM τ (List (Rid × Row))
  | [] => return []
  | r :: rest =>
    match r.2[i]? with
    | none => throw (.panic "index out of bounds")
    | some v => do
      let out ← rowsWith i target rest
      return if valuesEqual v target then r :: out else out

/-- A FOREIGN KEY clause that names the parent. -/
def followKey (recurse : Nat → Row → RunM τ Unit) (parent : PgCatalog.TableDef) (row : Row)
    (c : ConstraintDef) (fk : ForeignKey) : RunM τ Unit := do
  let parentCol ← columnOr parent fk.refColumn "FK ref column missing"
  match row[parentCol]? with
  | none => throw (.panic "index out of bounds")
  | some target =>
    if target = .null then return ()
    else do
      let child ← tableOr cat c.tableId s!"child table {c.tableId} missing"
      let childCol ← columnOr child fk.column "FK child column missing"
      let all ← onStore (db.visibleRows c.tableId)
      let rows ← rowsWith childCol target all
      if rows = [] then return ()
      else onDelete cat ev db recurse parent child c fk.onDelete childCol rows

/-- One constraint of the catalog. -/
def followClause (recurse : Nat → Row → RunM τ Unit) (parent : PgCatalog.TableDef) (row : Row)
    (c : ConstraintDef) : RunM τ Unit :=
  match c.kind with
  | .check => return ()
  | .foreignKey =>
    match ForeignKey.decode c.definition with
    | none => return ()
    | some fk =>
      if fk.refTable ≠ parent.name then return ()
      else followKey cat ev db recurse parent row c fk

/-- `cascade_fk_on_parent_delete`, with as many nested calls. -/
def cascadeFkOnParentDelete : Nat → Nat → Row → RunM τ Unit
  | 0, _, _ => throw .diverge
  | depth + 1, parentId, row => do
    let parent ← tableOr cat parentId s!"parent table {parentId} missing"
    onStore db.requireSnapshot
    let all ← ofExcept cat.allConstraints
    all.forM (followClause cat ev db (cascadeFkOnParentDelete depth) parent row)

/-- One row of `perform_delete`. -/
def deleteOne (fuel : Nat) (s : AnalyzedDeleteStatement) (r : Rid × Row) :
    RunM τ (Option Nat) := do
  cascadeFkOnParentDelete cat ev db fuel s.tableId r.2
  match ← onStore (db.lockAndRecheck s.tableId r.1) with
  | .gone => return some 0
  | .restart => return none
  | .free => do
    onStore (db.markDeleted r.1)
    return some 1

/-- `perform_delete`. -/
def performDelete (fuel : Nat) (s : AnalyzedDeleteStatement) : RunM τ Nat := do
  let _ ← tableOr cat s.tableId s!"table id {s.tableId} not in catalog"
  restarting ev db fuel s.tableId s.whereClause "could not serialize access — DELETE retried 8 times against concurrent updates [SQLSTATE 40001]"
    (deleteOne cat ev db fuel s) MAX_RETRIES

/-- The arm of `execute` for SELECT. -/
def executeSelect (fuel : Nat) (an : AnalyzedSelectStatement) : RunM τ (List Row) := do
  let items ← if an.fromTree = .empty then
      onStore (Select.evaluateItems db.sequenceCall an.selectItems)
    else pure an.selectItems
  onStore db.requireSnapshot
  runPipeline ev fuel db.scans { an with selectItems := items }

/-- `execute`, after the transaction is begun and before it is ended. -/
def execute (fuel : Nat) (stmt : AnalyzedStatement) : RunM τ Output :=
  match substituteNowInStatement ev.now stmt with
  | .select s => return .rows (← executeSelect ev db fuel s)
  | .insert s => return .affected (← performInsert cat ev db s)
  | .delete s => return .affected (← performDelete cat ev db fuel s)
  | .update s => return .affected (← performUpdate cat ev db fuel s)

end Statements

/-! ## Placeholders -/

def hasNow : AnalyzedExpr → Bool
  | .now => true
  | .binaryOp l _ r _ => hasNow l || hasNow r
  | .unaryOp _ e _ => hasNow e
  | .isNull e _ => hasNow e
  | .literal _ | .columnRef _ | .sequenceCall => false

def hasSequenceCall : AnalyzedExpr → Bool
  | .sequenceCall => true
  | .binaryOp l _ r _ => hasSequenceCall l || hasSequenceCall r
  | .unaryOp _ e _ => hasSequenceCall e
  | .isNull e _ => hasSequenceCall e
  | .literal _ | .columnRef _ | .now => false

/-- The expression bears no placeholder. -/
def Clean (e : AnalyzedExpr) : Prop := hasNow e = false ∧ hasSequenceCall e = false

instance (e : AnalyzedExpr) : Decidable (Clean e) := inferInstanceAs (Decidable (_ ∧ _))

/-- What `evaluate_sequence_calls_in_expr` can make of an expression. -/
def Sequenced (call : EStateM DbError τ Int64) (x e : AnalyzedExpr) : Prop :=
  ∃ t t', evaluateSequenceCalls call x t = .ok e t'

@[simp] theorem hasNow_substituteNow (ts : Int64) (e : AnalyzedExpr) :
    hasNow (substituteNow ts e) = false := by
  induction e with
  | binaryOp l op r ty ihl ihr => simp [substituteNow, hasNow, ihl, ihr]
  | unaryOp op e ty ih => simp [substituteNow, hasNow, ih]
  | isNull e negated ih => simp [substituteNow, hasNow, ih]
  | literal l => rfl
  | columnRef c => rfl
  | now => rfl
  | sequenceCall => rfl

@[simp] theorem hasSequenceCall_substituteNow (ts : Int64) (e : AnalyzedExpr) :
    hasSequenceCall (substituteNow ts e) = hasSequenceCall e := by
  induction e with
  | binaryOp l op r ty ihl ihr => simp [substituteNow, hasSequenceCall, ihl, ihr]
  | unaryOp op e ty ih => simp [substituteNow, hasSequenceCall, ih]
  | isNull e negated ih => simp [substituteNow, hasSequenceCall, ih]
  | literal l => rfl
  | columnRef c => rfl
  | now => rfl
  | sequenceCall => rfl

theorem clean_substituteNow (ts : Int64) (e : AnalyzedExpr) :
    Clean (substituteNow ts e) ↔ hasSequenceCall e = false := by
  simp [Clean]

/-- The second pass leaves no sequence call. -/
theorem Sequenced.clean {call : EStateM DbError τ Int64} {x e : AnalyzedExpr}
    (h : Sequenced call x e) (hx : hasNow x = false) : Clean e := by
  obtain ⟨t, t', h⟩ := h
  induction x generalizing e t t' with
  | binaryOp l op r ty ihl ihr =>
    obtain ⟨hl, hr⟩ := Bool.or_eq_false_iff.1 hx
    obtain ⟨l', t₁, hl', h⟩ := EStateM.of_bind_ok h
    obtain ⟨r', t₂, hr', h⟩ := EStateM.of_bind_ok h
    cases h
    obtain ⟨hl₁, hl₂⟩ := ihl hl _ _ hl'
    obtain ⟨hr₁, hr₂⟩ := ihr hr _ _ hr'
    exact ⟨Bool.or_eq_false_iff.2 ⟨hl₁, hr₁⟩, Bool.or_eq_false_iff.2 ⟨hl₂, hr₂⟩⟩
  | unaryOp op x ty ih | isNull x negated ih =>
    obtain ⟨x', t₁, hx', h⟩ := EStateM.of_bind_ok h
    cases h
    obtain ⟨h₁, h₂⟩ := ih hx _ _ hx'
    exact ⟨h₁, h₂⟩
  | literal l =>
    cases h
    exact ⟨rfl, rfl⟩
  | columnRef c =>
    cases h
    exact ⟨rfl, rfl⟩
  | now => cases hx
  | sequenceCall =>
    obtain ⟨v, t₁, -, h⟩ := EStateM.of_bind_ok h
    cases h
    exact ⟨rfl, rfl⟩

/-! ## The expressions of a statement -/

/-- The CHECK clauses of a table. -/
def IsCheck (cat : Catalog) (tableId : Nat) (c : ConstraintDef) : Prop :=
  ∃ all, cat.allConstraints = .ok all ∧ c ∈ all ∧ c.tableId = tableId ∧ c.kind = .check

/-- A foreign key with this action refers to the table. -/
def ReferredBy (cat : Catalog) (action : String) (parentId childId : Nat) : Prop :=
  ∃ parent all c fk, cat.tables.tableById parentId = .ok (some parent) ∧
    cat.allConstraints = .ok all ∧ c ∈ all ∧ c.kind = .foreignKey ∧
    ForeignKey.decode c.definition = some fk ∧ fk.refTable = parent.name ∧ fk.onDelete = action ∧
    c.tableId = childId

/-- The tables whose CHECK clauses a statement enforces, with the name it knows them by. -/
inductive Enforces (cat : Catalog) : AnalyzedStatement → Nat → String → Prop where
  | insert (s : AnalyzedInsertStatement) : Enforces cat (.insert s) s.tableId s.tableName
  | conflict {s : AnalyzedInsertStatement} {assignments : List AnalyzedAssignment}
    {whereClause : Option AnalyzedExpr} {table : PgCatalog.TableDef}
    (h : s.onConflict = some (.doUpdate assignments whereClause))
    (ht : cat.tables.tableById s.tableId = .ok (some table)) :
    Enforces cat (.insert s) s.tableId table.name
  | update (s : AnalyzedUpdateStatement) : Enforces cat (.update s) s.tableId s.tableName
  | delete {s : AnalyzedDeleteStatement} {parentId childId : Nat} {child : PgCatalog.TableDef}
    (hparent : ReflTransGen (ReferredBy cat "CASCADE") s.tableId parentId)
    (hchild : ReferredBy cat "SET_NULL" parentId childId)
    (ht : cat.tables.tableById childId = .ok (some child)) :
    Enforces cat (.delete s) childId child.name

/-- The expressions of DO UPDATE, or of UPDATE. -/
def updateExprs (assignments : List AnalyzedAssignment) (whereClause : Option AnalyzedExpr) :
    List AnalyzedExpr :=
  whereClause.toList ++ assignments.map AnalyzedAssignment.value

/-- The expressions handed to the evaluator, as the two passes leave them. -/
inductive Handed (ts : Int64) (call : EStateM DbError τ Int64) (cat : Catalog)
    (checks : List (Nat × AnalyzedExpr)) : AnalyzedStatement → AnalyzedExpr → Prop where
  | clause {s : AnalyzedSelectStatement} {e : AnalyzedExpr} (he : e ∈ clauseExprs s) :
    Handed ts call cat checks (.select s) (substituteNow ts e)
  | item {s : AnalyzedSelectStatement} {e : AnalyzedExpr} (hfrom : s.fromTree ≠ .empty)
    (he : e ∈ itemExprs s) : Handed ts call cat checks (.select s) (substituteNow ts e)
  | sequencedItem {s : AnalyzedSelectStatement} {e x : AnalyzedExpr} (hfrom : s.fromTree = .empty)
    (he : e ∈ itemExprs s) (hx : Sequenced call (substituteNow ts e) x) :
    Handed ts call cat checks (.select s) x
  | value {s : AnalyzedInsertStatement} {row : List AnalyzedExpr} {e x : AnalyzedExpr}
    (hrow : row ∈ s.rows) (he : e ∈ row) (hx : Sequenced call (substituteNow ts e) x) :
    Handed ts call cat checks (.insert s) x
  | conflict {s : AnalyzedInsertStatement} {assignments : List AnalyzedAssignment}
    {whereClause : Option AnalyzedExpr} {e : AnalyzedExpr}
    (h : s.onConflict = some (.doUpdate assignments whereClause))
    (he : e ∈ updateExprs assignments whereClause) : Handed ts call cat checks (.insert s) e
  | update {s : AnalyzedUpdateStatement} {e : AnalyzedExpr}
    (he : e ∈ updateExprs s.assignments s.whereClause) :
    Handed ts call cat checks (.update s) (substituteNow ts e)
  | delete {s : AnalyzedDeleteStatement} {e : AnalyzedExpr} (he : e ∈ s.whereClause.toList) :
    Handed ts call cat checks (.delete s) (substituteNow ts e)
  | check {stmt : AnalyzedStatement} {tableId : Nat} {tableName : String} {c : ConstraintDef}
    {e : AnalyzedExpr} (h : Enforces cat stmt tableId tableName) (hc : IsCheck cat tableId c)
    (he : checkExpr cat checks c tableName = .ok e) : Handed ts call cat checks stmt e

/-- The two passes reach every placeholder. -/
def Covered (cat : Catalog) (checks : List (Nat × AnalyzedExpr)) (stmt : AnalyzedStatement) : Prop :=
  (match stmt with
  | .select s => (∀ e ∈ clauseExprs s, hasSequenceCall e = false) ∧
      (s.fromTree ≠ .empty → ∀ e ∈ itemExprs s, hasSequenceCall e = false)
  | .insert s => ∀ assignments whereClause,
      s.onConflict = some (.doUpdate assignments whereClause) →
      ∀ e ∈ updateExprs assignments whereClause, Clean e
  | .update s => ∀ e ∈ updateExprs s.assignments s.whereClause, hasSequenceCall e = false
  | .delete s => ∀ e ∈ s.whereClause.toList, hasSequenceCall e = false) ∧
  ∀ tableId tableName c e, Enforces cat stmt tableId tableName → IsCheck cat tableId c →
    checkExpr cat checks c tableName = .ok e → Clean e

/-- **What is handed to the evaluator** bears no placeholder exactly if the passes reach all. -/
theorem clean_iff_covered {ts : Int64} {call : EStateM DbError τ Int64} {cat : Catalog}
    {checks : List (Nat × AnalyzedExpr)} {stmt : AnalyzedStatement} :
    (∀ e, Handed ts call cat checks stmt e → Clean e) ↔ Covered cat checks stmt := by
  constructor
  · intro h
    refine ⟨?_, fun tableId tableName c e henf hc he => h e (.check henf hc he)⟩
    cases stmt with
    | select s =>
      exact ⟨fun e he => (clean_substituteNow ts e).1 (h _ (.clause he)),
        fun hfrom e he => (clean_substituteNow ts e).1 (h _ (.item hfrom he))⟩
    | insert s => exact fun assignments whereClause hconf e he => h e (.conflict hconf he)
    | update s => exact fun e he => (clean_substituteNow ts e).1 (h _ (.update he))
    | delete s => exact fun e he => (clean_substituteNow ts e).1 (h _ (.delete he))
  · rintro ⟨hpos, hchecks⟩ e he
    cases he with
    | clause he => exact (clean_substituteNow ts _).2 (hpos.1 _ he)
    | item hfrom he => exact (clean_substituteNow ts _).2 (hpos.2 hfrom _ he)
    | sequencedItem hfrom he hx => exact hx.clean (hasNow_substituteNow ts _)
    | value hrow he hx => exact hx.clean (hasNow_substituteNow ts _)
    | conflict hconf he => exact hpos _ _ hconf _ he
    | update he => exact (clean_substituteNow ts _).2 (hpos _ he)
    | delete he => exact (clean_substituteNow ts _).2 (hpos _ he)
    | check henf hc he => exact hchecks _ _ _ _ henf hc he

/-! ## The calls of a run -/

section Runs

variable {cat : Catalog} {ev : Evaluation} {db : Storage τ} {H : AnalyzedExpr → Prop}

/-- The calls so far, and those for the CHECK clauses that are to come. -/
structure Known (cat : Catalog) (stmt : AnalyzedStatement) (H : AnalyzedExpr → Prop) (s : Run τ) :
    Prop where
  calls : ∀ e ∈ s.calls, H e
  checks : ∀ tableId tableName c e, Enforces cat stmt tableId tableName → IsCheck cat tableId c →
    checkExpr cat s.checks c tableName = .ok e → H e

variable {stmt : AnalyzedStatement}

theorem above_known : Above (Known cat stmt H : Run τ → Prop) := fun _ _ hs => ⟨hs.calls, hs.checks⟩

theorem allows_known {e : AnalyzedExpr} (he : H e) : Allows (Known cat stmt H : Run τ → Prop) e := by
  refine fun s hs => ⟨fun x hx => ?_, hs.checks⟩
  rcases List.mem_append.1 hx with hx | hx
  · exact hs.calls x hx
  · rw [List.mem_singleton.1 hx]
    exact he

/-- A lookup in the cache, for a clause the statement enforces. -/
theorem maintains_cachedCheck {tableId : Nat} {tableName : String} {c : ConstraintDef}
    (henf : Enforces cat stmt tableId tableName) (hc : IsCheck cat tableId c) :
    Maintains (Known cat stmt H : Run τ → Prop) (cachedCheck cat c tableName) H := by
  intro s hs
  have hcheck := hs.checks tableId tableName c
  unfold Ends cachedCheck
  unfold checkExpr at hcheck
  cases hlook : s.checks.lookup c.constraintId with
  | some a =>
    rw [hlook] at hcheck
    exact ⟨hs, hcheck a henf hc rfl⟩
  | none =>
    rw [hlook] at hcheck
    cases hbind : bindCheck cat c tableName with
    | error e => exact hs
    | ok a =>
      have ha := hcheck a henf hc hbind
      refine ⟨⟨hs.calls, fun tableId' tableName' c' e henf' hc' he => ?_⟩, ha⟩
      unfold checkExpr at he
      rw [List.lookup_cons] at he
      by_cases hid : c'.constraintId == c.constraintId
      · rw [hid] at he
        cases he
        exact ha
      · rw [Bool.eq_false_iff.2 hid] at he
        exact hs.checks tableId' tableName' c' e henf' hc' he

theorem maintains_enforceCheckConstraints {tableId : Nat} {tableName : String}
    (henf : Enforces cat stmt tableId tableName) (values : Row) :
    Maintains (Known cat stmt H : Run τ → Prop)
      (enforceCheckConstraints cat ev tableId tableName values) fun _ => True := by
  refine (maintains_ofExcept cat.allConstraints).bind fun all hall => Maintains.forM fun c hc => ?_
  obtain ⟨hmem, hid⟩ := List.mem_filter.1 hc
  unfold enforceCheck
  cases hkind : c.kind with
  | foreignKey => exact .pure trivial
  | check =>
    refine (maintains_cachedCheck henf ⟨all, hall, hmem, of_decide_eq_true hid, hkind⟩).bind
      fun analyzed hanalyzed => ?_
    refine (maintains_evaluate (allows_known hanalyzed) ev.arith values).bind fun v _ => ?_
    split
    · exact .pure trivial
    · exact .throw
    · exact .pure trivial
    · exact .throw

theorem maintains_tableOr {I : Run τ → Prop} (tableId : Nat) (missing : String) :
    Maintains I (tableOr cat tableId missing) fun t => cat.tables.tableById tableId = .ok (some t) := by
  refine (maintains_ofExcept (cat.tables.tableById tableId)).bind fun t ht => ?_
  cases t with
  | none => exact .throw
  | some t => exact .pure ht

section Rows

variable {I : Run τ → Prop} {predicate : Option AnalyzedExpr}

theorem maintains_matchesRow (h : ∀ e ∈ predicate.toList, Allows I e) (row : Row) :
    Maintains I (matchesRow ev predicate row) fun _ => True := by
  cases predicate with
  | none => exact .pure trivial
  | some p =>
    refine (maintains_evaluate (h p List.mem_cons_self) ev.arith row).bind fun v _ => ?_
    split
    · exact .pure trivial
    · exact .pure trivial
    · exact .throw

theorem maintains_assign {table : PgCatalog.TableDef} {row : Row} :
    ∀ {assignments : List AnalyzedAssignment} {acc : Row},
      (∀ e ∈ assignments.map AnalyzedAssignment.value, Allows I e) →
      Maintains I (assign ev table row assignments acc) fun _ => True
  | [], _, _ => .pure trivial
  | a :: rest, acc, h => by
    refine (maintains_evaluate (h a.value List.mem_cons_self) ev.arith row).bind fun v _ => ?_
    split
    · exact .throw
    · exact maintains_assign fun e he => h e (List.mem_cons_of_mem _ he)

theorem maintains_passingRows (h : ∀ e ∈ predicate.toList, Allows I e) :
    ∀ rows : List (Rid × Row), Maintains I (passingRows ev predicate rows) fun _ => True
  | [] => .pure trivial
  | r :: rest => by
    refine (maintains_matchesRow h r.2).bind fun keep _ => ?_
    exact (maintains_passingRows h rest).bind fun out _ => .pure trivial

theorem maintains_passingEntries (hI : Above I) (h : ∀ e ∈ predicate.toList, Allows I e)
    (tableId : Nat) : ∀ (fuel : Nat) (out : List (Rid × Row)),
      Maintains I (passingEntries ev db tableId predicate fuel out) fun _ => True
  | 0, _ => .throw
  | fuel + 1, out => by
    refine (maintains_onStore hI (db.nextEntry tableId)).bind fun entry _ => ?_
    match entry with
    | none => exact .pure trivial
    | some none => exact maintains_passingEntries hI h tableId fuel out
    | some (some r) =>
      exact (maintains_matchesRow h r.2).bind fun keep _ =>
        maintains_passingEntries hI h tableId fuel _

theorem maintains_matchingRows (hI : Above I) (h : ∀ e ∈ predicate.toList, Allows I e)
    (fuel tableId : Nat) :
    Maintains I (matchingRows ev db fuel tableId predicate) fun _ => True := by
  refine (maintains_onStore hI _).bind fun indexed _ => Maintains.ite ?_ ?_
  · exact maintains_passingEntries hI h tableId fuel []
  · exact (maintains_onStore hI _).bind fun all _ => maintains_passingRows h all

theorem maintains_eachRow {f : Rid × Row → RunM τ (Option Nat)}
    (hf : ∀ r, Maintains I (f r) fun _ => True) :
    ∀ (rows : List (Rid × Row)) (count : Nat), Maintains I (eachRow f rows count) fun _ => True
  | [], _ => .pure trivial
  | r :: rest, count => by
    refine (hf r).bind fun n _ => ?_
    cases n with
    | none => exact .pure trivial
    | some n => exact maintains_eachRow hf rest (count + n)

/-- The loop of UPDATE and DELETE. -/
theorem maintains_restarting (hI : Above I) (h : ∀ e ∈ predicate.toList, Allows I e)
    {f : Rid × Row → RunM τ (Option Nat)} (hf : ∀ r, Maintains I (f r) fun _ => True)
    (fuel tableId : Nat) (gaveUp : String) :
    ∀ attempts : Nat,
      Maintains I (restarting ev db fuel tableId predicate gaveUp f attempts) fun _ => True
  | 0 => .throw
  | attempts + 1 => by
    refine (maintains_onStore hI _).bind fun _ _ => ?_
    refine (maintains_matchingRows hI h fuel tableId).bind fun rows _ => ?_
    refine (maintains_eachRow hf rows 0).bind fun count _ => ?_
    cases count with
    | some count => exact .pure trivial
    | none => exact maintains_restarting hI h hf fuel tableId gaveUp attempts

end Rows

section Insert

variable {s : AnalyzedInsertStatement}

theorem maintains_insertValues {I : Run τ → Prop} (hI : Above I) {row : List AnalyzedExpr}
    (h : ∀ e ∈ row, ∀ x, Sequenced db.sequenceCall e x → Allows I x) (table : PgCatalog.TableDef) :
    Maintains I (insertValues ev db table row) fun _ => True := by
  have hexprs : Maintains I (row.mapM fun e => onStore (evaluateSequenceCalls db.sequenceCall e))
      fun exprs => ∀ x ∈ exprs, Allows I x := by
    refine Maintains.mapM fun e he run hrun => ?_
    have hsequenced := h e he
    unfold Ends onStore
    cases hcall : evaluateSequenceCalls db.sequenceCall e run.store with
    | ok x t => exact ⟨hI run t hrun, hsequenced x ⟨run.store, t, hcall⟩⟩
    | error err t => exact hI run t hrun
  refine hexprs.bind fun exprs hexprs => ?_
  exact Maintains.bind (Maintains.mapM fun x hx => maintains_evaluate (hexprs x hx) ev.arith [])
    fun raw _ => .pure trivial

theorem maintains_insertNew (values : Row) :
    Maintains (Known cat (.insert s) H : Run τ → Prop) (insertNew cat ev db s values)
      fun _ => True := by
  refine (maintains_enforceCheckConstraints (.insert s) values).bind fun _ _ => ?_
  exact (maintains_onStore above_known _).bind fun _ _ => .pure trivial

theorem maintains_onConflictDoUpdate {table : PgCatalog.TableDef}
    {assignments : List AnalyzedAssignment} {whereClause : Option AnalyzedExpr}
    (hconf : s.onConflict = some (.doUpdate assignments whereClause))
    (ht : cat.tables.tableById s.tableId = .ok (some table))
    (h : ∀ e ∈ updateExprs assignments whereClause, H e) (target : Rid) :
    Maintains (Known cat (.insert s) H : Run τ → Prop)
      (onConflictDoUpdate cat ev db s.tableId table.name target assignments whereClause)
      fun _ => True := by
  have hallows : ∀ e ∈ updateExprs assignments whereClause,
      Allows (Known cat (.insert s) H : Run τ → Prop) e := fun e he => allows_known (h e he)
  refine (maintains_tableOr s.tableId _).bind fun table' _ => ?_
  refine (maintains_onStore above_known _).bind fun old _ => ?_
  refine (maintains_matchesRow (fun e he => hallows e (List.mem_append_left _ he)) old).bind
    fun keep _ => Maintains.ite (.pure trivial) ?_
  refine (maintains_assign fun e he => hallows e (List.mem_append_right _ he)).bind fun new _ => ?_
  refine (maintains_enforceCheckConstraints (.conflict hconf ht) new).bind fun _ _ => ?_
  exact (maintains_onStore above_known _).bind fun _ _ => .pure trivial

/-- **INSERT** calls for its values, the expressions of DO UPDATE and CHECK clauses. -/
theorem maintains_performInsert
    (hvalues : ∀ row ∈ s.rows, ∀ e ∈ row, ∀ x, Sequenced db.sequenceCall e x → H x)
    (hconflict : ∀ assignments whereClause, s.onConflict = some (.doUpdate assignments whereClause) →
      ∀ e ∈ updateExprs assignments whereClause, H e) :
    Maintains (Known cat (.insert s) H : Run τ → Prop) (performInsert cat ev db s)
      fun _ => True := by
  refine (maintains_tableOr s.tableId _).bind fun table ht => Maintains.foldlM fun row hrow count => ?_
  refine Maintains.bind (Q := fun _ => True) ?_ fun n _ => .pure trivial
  refine (maintains_insertValues above_known (fun e he x hx =>
    allows_known (hvalues row hrow e he x hx)) table).bind fun values _ => ?_
  split
  · exact maintains_insertNew values
  · next onConflict hconf =>
    refine (maintains_onStore above_known _).bind fun target _ => ?_
    cases target with
    | none => exact maintains_insertNew values
    | some target =>
      cases onConflict with
      | doNothing => exact .pure trivial
      | doUpdate assignments whereClause =>
        exact (maintains_onConflictDoUpdate hconf ht (hconflict _ _ hconf) target).bind
          fun updated _ => .pure trivial

end Insert

/-- **UPDATE** calls for its expressions and CHECK clauses. -/
theorem maintains_performUpdate {s : AnalyzedUpdateStatement} {fuel : Nat}
    (h : ∀ e ∈ updateExprs s.assignments s.whereClause, H e) :
    Maintains (Known cat (.update s) H : Run τ → Prop) (performUpdate cat ev db fuel s)
      fun _ => True := by
  have hallows : ∀ e ∈ updateExprs s.assignments s.whereClause,
      Allows (Known cat (.update s) H : Run τ → Prop) e := fun e he => allows_known (h e he)
  refine (maintains_tableOr s.tableId _).bind fun table _ => ?_
  refine maintains_restarting above_known (fun e he => hallows e (List.mem_append_left _ he))
    (fun r => ?_) fuel s.tableId _ MAX_RETRIES
  refine (maintains_onStore above_known _).bind fun recheck _ => ?_
  cases recheck with
  | gone => exact .pure trivial
  | restart => exact .pure trivial
  | free =>
    refine (maintains_assign fun e he => hallows e (List.mem_append_right _ he)).bind fun new _ => ?_
    refine (maintains_enforceCheckConstraints (.update s) new).bind fun _ _ => ?_
    exact (maintains_onStore above_known _).bind fun done _ => .pure trivial

section Delete

variable {s : AnalyzedDeleteStatement}

/-- The action of a clause, as long as its calls of the function keep what is known. -/
theorem maintains_onDelete {recurse : Nat → Row → RunM τ Unit} {parent child : PgCatalog.TableDef}
    {c : ConstraintDef} {action : String} {col : Nat} {rows : List (Rid × Row)}
    (hrecurse : action = "CASCADE" → ∀ row,
      Maintains (Known cat (.delete s) H) (recurse c.tableId row) fun _ => True)
    (henf : action = "SET_NULL" → Enforces cat (.delete s) c.tableId child.name) :
    Maintains (Known cat (.delete s) H)
      (onDelete cat ev db recurse parent child c action col rows) fun _ => True := by
  unfold onDelete
  split
  · exact .throw
  · split
    · next hcascade =>
      refine Maintains.forM fun r _ => (hrecurse hcascade r.2).bind fun _ _ => ?_
      exact (maintains_onStore above_known _).bind fun _ _ => maintains_onStore above_known _
    · split
      · next hset =>
        refine Maintains.forM fun r _ => ?_
        exact (maintains_enforceCheckConstraints (henf hset) _).bind fun _ _ =>
          maintains_onStore above_known _
      · exact .throw

theorem maintains_rowsWith {I : Run τ → Prop} (i : Nat) (target : Value) :
    ∀ rows : List (Rid × Row), Maintains I (rowsWith i target rows) fun _ => True
  | [] => .pure trivial
  | r :: rest => by
    unfold rowsWith
    split
    · exact .throw
    · exact (maintains_rowsWith i target rest).bind fun out _ => .pure trivial

theorem maintains_columnOr {I : Run τ → Prop} (t : PgCatalog.TableDef) (name missing : String) :
    Maintains I (columnOr t name missing) fun _ => True := by
  unfold columnOr
  split
  · exact .pure trivial
  · exact .throw

/-- One clause of a table that is reached by CASCADE. -/
theorem maintains_followClause {recurse : Nat → Row → RunM τ Unit} {parentId : Nat}
    {parent : PgCatalog.TableDef} {all : List ConstraintDef} {c : ConstraintDef}
    (hreach : ReflTransGen (ReferredBy cat "CASCADE") s.tableId parentId)
    (hparent : cat.tables.tableById parentId = .ok (some parent))
    (hall : cat.allConstraints = .ok all) (hc : c ∈ all)
    (hrecurse : ∀ childId, ReflTransGen (ReferredBy cat "CASCADE") s.tableId childId → ∀ row,
      Maintains (Known cat (.delete s) H) (recurse childId row) fun _ => True) (row : Row) :
    Maintains (Known cat (.delete s) H) (followClause cat ev db recurse parent row c)
      fun _ => True := by
  unfold followClause
  cases hkind : c.kind with
  | check => exact .pure trivial
  | foreignKey =>
    cases hdec : ForeignKey.decode c.definition with
    | none => exact .pure trivial
    | some fk =>
      dsimp only
      split
      · exact .pure trivial
      · next hname =>
        have hrefers : ReferredBy cat fk.onDelete parentId c.tableId :=
          ⟨parent, all, c, fk, hparent, hall, hc, hkind, hdec, not_not.1 hname, rfl, rfl⟩
        refine (maintains_columnOr parent _ _).bind fun parentCol _ => ?_
        split
        · exact .throw
        · refine Maintains.ite (.pure trivial) ?_
          refine (maintains_tableOr c.tableId _).bind fun child hchild => ?_
          refine (maintains_columnOr child _ _).bind fun childCol _ => ?_
          refine (maintains_onStore above_known _).bind fun rows _ => ?_
          refine (maintains_rowsWith childCol _ rows).bind fun rows _ => ?_
          refine Maintains.ite (.pure trivial) (maintains_onDelete (fun haction => ?_) fun haction => ?_)
          · exact hrecurse c.tableId (hreach.tail (haction ▸ hrefers))
          · exact .delete hreach (haction ▸ hrefers) hchild

theorem maintains_cascade : ∀ (depth parentId : Nat) (row : Row),
    ReflTransGen (ReferredBy cat "CASCADE") s.tableId parentId →
    Maintains (Known cat (.delete s) H) (cascadeFkOnParentDelete cat ev db depth parentId row)
      fun _ => True
  | 0, _, _, _ => .throw
  | depth + 1, parentId, row, hreach => by
    refine (maintains_tableOr parentId _).bind fun parent hparent => ?_
    refine (maintains_onStore above_known _).bind fun _ _ => ?_
    refine (maintains_ofExcept cat.allConstraints).bind fun all hall => Maintains.forM fun c hc => ?_
    exact maintains_followClause hreach hparent hall hc
      (fun childId hchild row => maintains_cascade depth childId row hchild) row

/-- **DELETE** calls for its WHERE clause and the CHECK clauses of tables it sets NULLs in. -/
theorem maintains_performDelete {fuel : Nat} (h : ∀ e ∈ s.whereClause.toList, H e) :
    Maintains (Known cat (.delete s) H : Run τ → Prop) (performDelete cat ev db fuel s)
      fun _ => True := by
  refine (maintains_tableOr s.tableId _).bind fun table _ => ?_
  refine maintains_restarting above_known (fun e he => allows_known (h e he)) (fun r => ?_)
    fuel s.tableId _ MAX_RETRIES
  refine (maintains_cascade fuel s.tableId r.2 .refl).bind fun _ _ => ?_
  refine (maintains_onStore above_known _).bind fun recheck _ => ?_
  cases recheck with
  | gone => exact .pure trivial
  | restart => exact .pure trivial
  | free => exact (maintains_onStore above_known _).bind fun _ _ => .pure trivial

end Delete

section Select

variable {s : AnalyzedSelectStatement}

theorem onExprs_substituteNowInFrom (ts : Int64) (tree : FromClause.AnalyzedFrom) :
    onExprs (FromClause.substituteNowInFrom ts tree) = (onExprs tree).map (substituteNow ts) := by
  induction tree with
  | empty => rfl
  | table rte => rfl
  | join left rte joinType on ih =>
    rw [FromClause.substituteNowInFrom, onExprs, onExprs, ih, List.map_append]
    rfl

/-- The first pass reaches every clause. -/
theorem clauseExprs_substituteNowInSelect (ts : Int64) (s : AnalyzedSelectStatement) :
    clauseExprs (substituteNowInSelect ts s) = (clauseExprs s).map (substituteNow ts) := by
  have hagg : ((s.aggregation.map fun agg => Select.AnalyzedAggregation.mk
      (agg.groupKeys.map (substituteNow ts)) (agg.aggregates.map (substituteNowInAgg ts))).toList.flatMap
        aggregationExprs) =
      (s.aggregation.toList.flatMap aggregationExprs).map (substituteNow ts) := by
    cases s.aggregation with
    | none => rfl
    | some agg =>
      simp only [Option.map_some, Option.toList_some, List.flatMap_cons, List.flatMap_nil,
        List.append_nil, aggregationExprs, List.map_append, List.filterMap_map, List.map_filterMap]
      rfl
  have hopt : ∀ o : Option AnalyzedExpr,
      (o.map (substituteNow ts)).toList = o.toList.map (substituteNow ts) := by
    intro o
    cases o <;> rfl
  simp only [clauseExprs, substituteNowInSelect, List.map_append, List.map_map,
    onExprs_substituteNowInFrom, hopt, hagg]
  rfl

theorem itemExprs_substituteNowInSelect (ts : Int64) (s : AnalyzedSelectStatement) :
    itemExprs (substituteNowInSelect ts s) = (itemExprs s).map (substituteNow ts) := by
  simp only [itemExprs, substituteNowInSelect, List.map_map]
  rfl

theorem evaluateItems_sequenced {call : EStateM DbError τ Int64} :
    ∀ {items items' : List AnalyzedSelectItem} {t t' : τ},
      Select.evaluateItems call items t = .ok items' t' →
      ∀ x ∈ items'.map AnalyzedSelectItem.expr,
        ∃ e ∈ items.map AnalyzedSelectItem.expr, Sequenced call e x
  | [], _, _, _, h, x, hx => by
    cases h
    cases hx
  | item :: items, _, t, _, h, x, hx => by
    obtain ⟨y, t₁, hy, h⟩ := EStateM.of_bind_ok h
    obtain ⟨rest, t₂, hrest, h⟩ := EStateM.of_bind_ok h
    cases h
    rcases List.mem_cons.1 hx with rfl | hx
    · exact ⟨item.expr, List.mem_cons_self, t, t₁, hy⟩
    · obtain ⟨e, he, hseq⟩ := evaluateItems_sequenced hrest x hx
      exact ⟨e, List.mem_cons_of_mem _ he, hseq⟩

/-- **SELECT** calls for its clauses, and for its items with or without their sequence calls. -/
theorem maintains_executeSelect {fuel : Nat} (hclauses : ∀ e ∈ clauseExprs s, H e)
    (hitems : s.fromTree ≠ .empty → ∀ e ∈ itemExprs s, H e)
    (hsequenced : s.fromTree = .empty → ∀ e ∈ itemExprs s, ∀ x, Sequenced db.sequenceCall e x → H x) :
    Maintains (Known cat stmt H : Run τ → Prop) (executeSelect ev db fuel s) fun _ => True := by
  have hrun : ∀ items : List AnalyzedSelectItem, (∀ x ∈ items.map AnalyzedSelectItem.expr, H x) →
      Maintains (Known cat stmt H : Run τ → Prop) (do
        onStore db.requireSnapshot
        runPipeline ev fuel db.scans { s with selectItems := items }) fun _ => True := by
    intro items hxs
    refine (maintains_onStore above_known _).bind fun _ _ => ?_
    exact maintains_runPipeline above_known (fun e he => allows_known (hclauses e he))
      fun e he => allows_known (hxs e he)
  unfold executeSelect
  by_cases hfrom : s.fromTree = .empty
  · rw [if_pos hfrom]
    have hitems' : Maintains (Known cat stmt H : Run τ → Prop)
        (onStore (Select.evaluateItems db.sequenceCall s.selectItems))
        fun items => ∀ x ∈ items.map AnalyzedSelectItem.expr, H x := by
      intro run hrun
      unfold Ends onStore
      cases hcall : Select.evaluateItems db.sequenceCall s.selectItems run.store with
      | error e t => exact above_known run t hrun
      | ok items t =>
        refine ⟨above_known run t hrun, fun x hx => ?_⟩
        obtain ⟨e, he, hseq⟩ := evaluateItems_sequenced hcall x hx
        exact hsequenced hfrom e he x hseq
    exact hitems'.bind hrun
  · rw [if_neg hfrom]
    exact hrun s.selectItems (hitems hfrom)

end Select

theorem fromTree_substituteNowInSelect (ts : Int64) (s : AnalyzedSelectStatement) :
    (substituteNowInSelect ts s).fromTree = .empty ↔ s.fromTree = .empty := by
  show FromClause.substituteNowInFrom ts s.fromTree = .empty ↔ _
  cases s.fromTree with
  | empty => exact Iff.rfl
  | table rte => exact Iff.rfl
  | join left rte joinType on => exact ⟨nofun, nofun⟩

theorem updateExprs_substituteNow (ts : Int64) (s : AnalyzedUpdateStatement) :
    updateExprs (s.assignments.map fun a => ⟨a.columnIndex, substituteNow ts a.value⟩)
      (s.whereClause.map (substituteNow ts)) =
      (updateExprs s.assignments s.whereClause).map (substituteNow ts) := by
  rw [updateExprs, updateExprs, List.map_append, List.map_map, List.map_map]
  cases s.whereClause <;> rfl

theorem Enforces.of_substituteNow {ts : Int64} {tableId : Nat} {tableName : String}
    (h : Enforces cat (substituteNowInStatement ts stmt) tableId tableName) :
    Enforces cat stmt tableId tableName := by
  cases stmt with
  | select s => cases h
  | insert s =>
    cases h with
    | insert _ => exact .insert s
    | conflict hconf ht => exact .conflict hconf ht
  | update s =>
    cases h with
    | update _ => exact .update s
  | delete s =>
    cases h with
    | delete hparent hchild ht => exact .delete hparent hchild ht

/-- **The calls of a run** are for expressions handed to the evaluator. -/
theorem calls_handed (fuel : Nat) (store : τ) (checks : List (Nat × AnalyzedExpr)) :
    ∀ e ∈ (execute cat ev db fuel stmt ⟨store, checks, []⟩).final.calls,
      Handed ev.now db.sequenceCall cat checks stmt e := by
  have hknown : Known cat (substituteNowInStatement ev.now stmt)
      (Handed ev.now db.sequenceCall cat checks stmt) (⟨store, checks, []⟩ : Run τ) :=
    ⟨nofun, fun _ _ _ _ henf hc he => .check henf.of_substituteNow hc he⟩
  suffices h : Maintains (Known cat (substituteNowInStatement ev.now stmt)
      (Handed ev.now db.sequenceCall cat checks stmt) : Run τ → Prop)
      (execute cat ev db fuel stmt) fun _ => True from (h.final hknown).calls
  cases stmt with
  | select s =>
    refine Maintains.bind (maintains_executeSelect (fun e he => ?_) (fun hfrom e he => ?_)
      fun hfrom e he x hx => ?_) fun rows _ => .pure trivial
    · rw [clauseExprs_substituteNowInSelect] at he
      obtain ⟨e₀, he₀, rfl⟩ := List.mem_map.1 he
      exact .clause he₀
    · rw [itemExprs_substituteNowInSelect] at he
      obtain ⟨e₀, he₀, rfl⟩ := List.mem_map.1 he
      exact .item (fun hempty => hfrom ((fromTree_substituteNowInSelect _ s).2 hempty)) he₀
    · rw [itemExprs_substituteNowInSelect] at he
      obtain ⟨e₀, he₀, rfl⟩ := List.mem_map.1 he
      exact .sequencedItem ((fromTree_substituteNowInSelect _ s).1 hfrom) he₀ hx
  | insert s =>
    refine Maintains.bind (maintains_performInsert (fun row hrow e he x hx => ?_)
      fun assignments whereClause hconf e he => .conflict hconf he) fun n _ => .pure trivial
    obtain ⟨row₀, hrow₀, rfl⟩ := List.mem_map.1 hrow
    obtain ⟨e₀, he₀, rfl⟩ := List.mem_map.1 he
    exact .value hrow₀ he₀ hx
  | update s =>
    refine Maintains.bind (maintains_performUpdate fun e he => ?_) fun n _ => .pure trivial
    rw [updateExprs_substituteNow] at he
    obtain ⟨e₀, he₀, rfl⟩ := List.mem_map.1 he
    exact .update he₀
  | delete s =>
    refine Maintains.bind (maintains_performDelete fun e he => ?_) fun n _ => .pure trivial
    have hmap : (s.whereClause.map (substituteNow ev.now)).toList =
        s.whereClause.toList.map (substituteNow ev.now) := by
      cases s.whereClause <;> rfl
    rw [hmap] at he
    obtain ⟨e₀, he₀, rfl⟩ := List.mem_map.1 he
    exact .delete he₀

/-- **When no placeholder reaches the evaluator**: of a statement that the passes cover, no run
calls for one; and those are the statements that hand none to the evaluator. -/
theorem placeholders_iff (cat : Catalog) (ev : Evaluation) (db : Storage τ) (stmt : AnalyzedStatement)
    (store : τ) (checks : List (Nat × AnalyzedExpr)) :
    (∀ fuel, ∀ e ∈ (execute cat ev db fuel stmt ⟨store, checks, []⟩).final.calls,
      Handed ev.now db.sequenceCall cat checks stmt e) ∧
    ((∀ e, Handed ev.now db.sequenceCall cat checks stmt e → Clean e) ↔ Covered cat checks stmt) ∧
    (Covered cat checks stmt →
      ∀ fuel, ∀ e ∈ (execute cat ev db fuel stmt ⟨store, checks, []⟩).final.calls, Clean e) := by
  have hcalls : ∀ fuel, ∀ e ∈ (execute cat ev db fuel stmt ⟨store, checks, []⟩).final.calls,
      Handed ev.now db.sequenceCall cat checks stmt e := fun fuel => calls_handed fuel store checks
  exact ⟨hcalls, clean_iff_covered, fun hcovered fuel e he =>
    clean_iff_covered.2 hcovered e (hcalls fuel e he)⟩

end Runs

/-- A catalog with the table `t` and a sequence. -/
def oneTable : Catalog :=
  ⟨FromClause.oneTable, fun _ => .ok true, .ok [], .release,
    ⟨fun _ _ => none, fun _ _ => none, fun _ _ => none, fun _ => "", fun _ => none⟩⟩

/-- A database without rows, where every new row is in conflict with `(1, NULL)`. -/
def conflicting : Storage Unit where
  scans := ⟨fun _ => .error (.bail "no rows"), fun _ _ => .ok none⟩
  sequenceCall := return 1
  requireSnapshot := return ()
  freshSnapshot := return ()
  visibleRows _ := return []
  openIndex _ _ := return false
  nextEntry _ := return none
  detectUniqueConflict _ _ := return some (0, 0)
  readTuple _ _ := return [.int 1, .null]
  insertRow _ _ := return ()
  replaceRow _ _ _ := return ()
  lockAndRecheck _ _ := return .free
  updateRow _ _ _ _ := return true
  lockRow _ := return ()
  markDeleted _ := return ()

/-- `SELECT 1 WHERE nextval('s') = 1`. -/
def nextvalInWhere : Ast.SelectStatement where
  columns := [.expr (.literal (.integer 1)) none]
  fromClause := .empty
  whereClause := some (.binaryOp (.funcCall "nextval" (some [.literal (.string "s")])) .eq
    (.literal (.integer 1)))
  groupBy := []
  having := none
  orderBy := []
  limit := none
  distinct := false

/-- `INSERT INTO t VALUES (1, NULL) ON CONFLICT (a) DO UPDATE SET a = 1 WHERE now() IS NOT NULL`,
analyzed. -/
def nowInConflict : AnalyzedInsertStatement where
  tableId := 5
  tableName := "t"
  rows := [[.literal ⟨.integer 1, some .int⟩, .literal ⟨.null, none⟩]]
  onConflict := some (.doUpdate [⟨0, .literal ⟨.integer 1, some .int⟩⟩] (some (.isNull .now true)))

/-- The evaluator is called for a sequence call in WHERE, and for `now()` in DO UPDATE. -/
theorem placeholders_evaluated :
    (∃ an, Select.analyzeSelect oneTable.tables oneTable.findSequence nextvalInWhere = .ok an ∧
      ∃ e ∈ (execute oneTable Select.plainEvaluation conflicting 3 (.select an)
        ⟨(), [], []⟩).final.calls, ¬ Clean e) ∧
    ∃ e ∈ (execute oneTable Select.plainEvaluation conflicting 3 (.insert nowInConflict)
      ⟨(), [], []⟩).final.calls, ¬ Clean e := by
  constructor
  · have hok : (match Select.analyzeSelect oneTable.tables oneTable.findSequence nextvalInWhere with
        | .ok an => decide (∃ e ∈ (execute oneTable Select.plainEvaluation conflicting 3 (.select an)
            ⟨(), [], []⟩).final.calls, ¬ Clean e)
        | .error _ => false) = true := by
      decide +kernel
    split at hok
    · next an han => exact ⟨an, han, of_decide_eq_true hok⟩
    · cases hok
  · decide +kernel

end Ccdb.Placeholders
