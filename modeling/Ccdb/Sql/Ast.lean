import Ccdb.Exec.Sort

/-!
# Ccdb — the syntax tree

`ast.rs`: the statements, with every field of theirs, and what can be said about a tree
without knowing what it means: the expressions a statement bears, the parameters of an
expression, and the replacement of parameters by literals.

Main results:

* `Expr.inductionOn` — induction over an expression and its arguments.
* `Statement.exprs_mapExprs`, `params_subst` — what replacing parameters leaves of them.
-/

namespace Ccdb

namespace Ast

open Join (JoinType)
open Ccdb.Sort (OrderDir)

/-! ## Statements -/

structure TableRef where
  name : String
  aliasName : Option String
deriving DecidableEq, Repr

inductive FromClause where
  | empty
  | table (t : TableRef)
  | join (left : FromClause) (right : TableRef) (joinType : JoinType) (on : Expr)

inductive SelectColumn where
  | asterisk
  | expr (expr : Expr) (aliasName : Option String)

structure OrderBy where
  expr : Expr
  dir : OrderDir

structure SelectStatement where
  columns : List SelectColumn
  fromClause : FromClause
  whereClause : Option Expr
  groupBy : List Expr
  having : Option Expr
  orderBy : List OrderBy
  limit : Option UInt64
  distinct : Bool

structure Assignment where
  column : String
  value : Expr

inductive OnConflict where
  | doNothing
  | doUpdate (assignments : List Assignment) (whereClause : Option Expr)

structure InsertStatement where
  table : String
  columns : Option (List String)
  rows : List (List Expr)
  onConflict : Option OnConflict

structure DeleteStatement where
  table : String
  whereClause : Option Expr

structure UpdateStatement where
  table : String
  assignments : List Assignment
  whereClause : Option Expr

/-- `ast::DataType`, without BOOL. -/
inductive DataType where
  | int
  | varchar
  | double
  | timestamp
  | date
  | time
  | interval
deriving DecidableEq, Repr

structure ColumnDef where
  name : String
  dataType : DataType
  nullable : Bool
  default : Option Expr

inductive FkAction where
  | noAction
  | restrict
  | cascade
  | setNull
deriving DecidableEq, Repr

structure ForeignKey where
  column : String
  refTable : String
  refColumn : String
  onDelete : FkAction
  onUpdate : FkAction
deriving DecidableEq, Repr

structure CreateTableStatement where
  table : String
  columns : List ColumnDef
  primaryKey : List String
  checkConstraints : List Expr
  foreignKeys : List ForeignKey

inductive AlterTableAction where
  | addPrimaryKey (columns : List String)
  | addUnique (columns : List String)
deriving DecidableEq, Repr

inductive Statement where
  | select (s : SelectStatement)
  | insert (s : InsertStatement)
  | delete (s : DeleteStatement)
  | update (s : UpdateStatement)
  | createTable (s : CreateTableStatement)
  | createIndex (name table column : String)
  | dropTable (tables : List String) (ifExists cascade : Bool)
  | dropIndex (name : String) (ifExists : Bool)
  | truncateTable (tables : List String)
  | alterTable (table : String) (action : AlterTableAction)
  | createSequence (name : String) (ifNotExists : Bool) (increment : Int64)
      (startValue minValue maxValue : Option Int64)
  | dropSequence (names : List String) (ifExists : Bool)
  | vacuum (tables : List String) (analyze : Bool)
  | analyze (tables : List String)
  | copy (table : String) (columns : Option (List String))
  | begin
  | commit
  | rollback
  | checkpoint

end Ast

/-! ## Expressions -/

namespace Expr

/-- Induction over an expression and its arguments. -/
@[elab_as_elim]
theorem inductionOn {P : Expr → Prop} (literal : ∀ l, P (.literal l)) (column : ∀ q n, P (.column q n))
    (binaryOp : ∀ l op r, P l → P r → P (.binaryOp l op r)) (unaryOp : ∀ op e, P e → P (.unaryOp op e))
    (isNull : ∀ e negated, P e → P (.isNull e negated)) (star : ∀ name, P (.funcCall name none))
    (funcCall : ∀ name es, (∀ e ∈ es, P e) → P (.funcCall name (some es)))
    (param : ∀ n, P (.param n)) : ∀ e, P e
  | .literal l => literal l
  | .column q n => column q n
  | .binaryOp l op r => binaryOp l op r
      (inductionOn literal column binaryOp unaryOp isNull star funcCall param l)
      (inductionOn literal column binaryOp unaryOp isNull star funcCall param r)
  | .unaryOp op e => unaryOp op e (inductionOn literal column binaryOp unaryOp isNull star funcCall param e)
  | .isNull e negated =>
    isNull e negated (inductionOn literal column binaryOp unaryOp isNull star funcCall param e)
  | .funcCall name none => star name
  | .funcCall name (some es) => funcCall name es fun e _ =>
    inductionOn literal column binaryOp unaryOp isNull star funcCall param e
  | .param n => param n

mutual

/-- The `$N` of an expression. -/
def params : Expr → List Nat
  | .literal _ => []
  | .column _ _ => []
  | .binaryOp l _ r => params l ++ params r
  | .unaryOp _ e => params e
  | .isNull e _ => params e
  | .funcCall _ none => []
  | .funcCall _ (some es) => paramsList es
  | .param n => [n]

def paramsList : List Expr → List Nat
  | [] => []
  | e :: es => params e ++ paramsList es

end

mutual

/-- The expression with a literal for each parameter. -/
def subst (σ : Nat → LiteralValue) : Expr → Expr
  | .literal l => .literal l
  | .column q n => .column q n
  | .binaryOp l op r => .binaryOp (subst σ l) op (subst σ r)
  | .unaryOp op e => .unaryOp op (subst σ e)
  | .isNull e negated => .isNull (subst σ e) negated
  | .funcCall name none => .funcCall name none
  | .funcCall name (some es) => .funcCall name (some (substList σ es))
  | .param n => .literal (σ n)

def substList (σ : Nat → LiteralValue) : List Expr → List Expr
  | [] => []
  | e :: es => subst σ e :: substList σ es

end

/-- What is at the leaves of an expression; the name of a function is one, too. -/
inductive Leaf where
  | literal (l : LiteralValue)
  | name (s : String)
  | param (n : Nat)
deriving DecidableEq, Repr

mutual

def leaves : Expr → List Leaf
  | .literal l => [.literal l]
  | .column q n => q.toList.map Leaf.name ++ [.name n]
  | .binaryOp l _ r => leaves l ++ leaves r
  | .unaryOp _ e => leaves e
  | .isNull e _ => leaves e
  | .funcCall name none => [.name name]
  | .funcCall name (some es) => .name name :: leavesList es
  | .param n => [.param n]

def leavesList : List Expr → List Leaf
  | [] => []
  | e :: es => leaves e ++ leavesList es

end

@[simp] theorem leavesList_eq (es : List Expr) : leavesList es = es.flatMap leaves := by
  induction es with
  | nil => rfl
  | cons e es ih => rw [leavesList, ih, List.flatMap_cons]

variable {σ : Nat → LiteralValue}

@[simp] theorem paramsList_eq (es : List Expr) : paramsList es = es.flatMap params := by
  induction es with
  | nil => rfl
  | cons e es ih => rw [paramsList, ih, List.flatMap_cons]

@[simp] theorem substList_eq (es : List Expr) : substList σ es = es.map (subst σ) := by
  induction es with
  | nil => rfl
  | cons e es ih => rw [substList, ih, List.map_cons]

/-- No parameter is left. -/
@[simp] theorem params_subst (e : Expr) : (e.subst σ).params = [] := by
  induction e using inductionOn with
  | literal l => rfl
  | column q n => rfl
  | binaryOp l op r ihl ihr => rw [subst, params, ihl, ihr, List.append_nil]
  | unaryOp op e ih => rw [subst, params, ih]
  | isNull e negated ih => rw [subst, params, ih]
  | star name => rfl
  | funcCall name es ih =>
    rw [subst, params, substList_eq, paramsList_eq, List.flatMap_map]
    exact List.flatMap_eq_nil_iff.2 ih
  | param n => rfl

/-- Nothing is done where there is no parameter. -/
theorem subst_of_params_nil {e : Expr} (h : e.params = []) : e.subst σ = e := by
  induction e using inductionOn with
  | literal l => rfl
  | column q n => rfl
  | binaryOp l op r ihl ihr =>
    obtain ⟨hl, hr⟩ := List.append_eq_nil_iff.1 h
    rw [subst, ihl hl, ihr hr]
  | unaryOp op e ih => rw [subst, ih h]
  | isNull e negated ih => rw [subst, ih h]
  | star name => rfl
  | funcCall name es ih =>
    rw [params, paramsList_eq] at h
    rw [subst, substList_eq, List.map_congr_left fun e he => ih e he (List.flatMap_eq_nil_iff.1 h e he),
      List.map_id']
  | param n => cases h

end Expr

namespace Ast

/-! ## The expressions of a statement -/

namespace FromClause

/-- The ON clauses. -/
def exprs : FromClause → List Expr
  | .empty => []
  | .table _ => []
  | .join left _ _ on => left.exprs ++ [on]

def mapExprs (f : Expr → Expr) : FromClause → FromClause
  | .empty => .empty
  | .table t => .table t
  | .join left right joinType on => .join (left.mapExprs f) right joinType (f on)

end FromClause

namespace SelectColumn

def exprs : SelectColumn → List Expr
  | .asterisk => []
  | .expr e _ => [e]

def mapExprs (f : Expr → Expr) : SelectColumn → SelectColumn
  | .asterisk => .asterisk
  | .expr e aliasName => .expr (f e) aliasName

end SelectColumn

def OrderBy.mapExprs (f : Expr → Expr) (o : OrderBy) : OrderBy := ⟨f o.expr, o.dir⟩

def Assignment.mapExprs (f : Expr → Expr) (a : Assignment) : Assignment := ⟨a.column, f a.value⟩

namespace OnConflict

def exprs : OnConflict → List Expr
  | .doNothing => []
  | .doUpdate assignments whereClause => assignments.map Assignment.value ++ whereClause.toList

def mapExprs (f : Expr → Expr) : OnConflict → OnConflict
  | .doNothing => .doNothing
  | .doUpdate assignments whereClause =>
    .doUpdate (assignments.map (Assignment.mapExprs f)) (whereClause.map f)

end OnConflict

namespace Statement

/-- Every expression of a statement. -/
def exprs : Statement → List Expr
  | .select s => s.columns.flatMap SelectColumn.exprs ++ s.fromClause.exprs ++ s.whereClause.toList ++
      s.groupBy ++ s.having.toList ++ s.orderBy.map OrderBy.expr
  | .insert s => s.rows.flatten ++ s.onConflict.toList.flatMap OnConflict.exprs
  | .delete s => s.whereClause.toList
  | .update s => s.assignments.map Assignment.value ++ s.whereClause.toList
  | .createTable s => s.columns.flatMap (fun c => c.default.toList) ++ s.checkConstraints
  | _ => []

/-- The statement with every expression changed, and nothing else. -/
def mapExprs (f : Expr → Expr) : Statement → Statement
  | .select s => .select { s with
      columns := s.columns.map (SelectColumn.mapExprs f)
      fromClause := s.fromClause.mapExprs f
      whereClause := s.whereClause.map f
      groupBy := s.groupBy.map f
      having := s.having.map f
      orderBy := s.orderBy.map (OrderBy.mapExprs f) }
  | .insert s => .insert { s with
      rows := s.rows.map (List.map f)
      onConflict := s.onConflict.map (OnConflict.mapExprs f) }
  | .delete s => .delete { s with whereClause := s.whereClause.map f }
  | .update s => .update { s with
      assignments := s.assignments.map (Assignment.mapExprs f)
      whereClause := s.whereClause.map f }
  | .createTable s => .createTable { s with
      columns := s.columns.map fun c => { c with default := c.default.map f }
      checkConstraints := s.checkConstraints.map f }
  | s => s

/-- The `$N` of a statement. -/
def params (s : Statement) : List Nat := s.exprs.flatMap Expr.params

end Statement

/-! ## What is in a statement whose expressions were changed -/

variable {f : Expr → Expr}

@[simp] theorem FromClause.exprs_mapExprs (c : FromClause) :
    (c.mapExprs f).exprs = c.exprs.map f := by
  induction c with
  | empty => rfl
  | table t => rfl
  | join left right joinType on ih => rw [mapExprs, exprs, ih, exprs, List.map_append]; rfl

@[simp] theorem SelectColumn.exprs_mapExprs (c : SelectColumn) :
    (c.mapExprs f).exprs = c.exprs.map f := by
  cases c with
  | asterisk => rfl
  | expr e aliasName => rfl

@[simp] theorem OnConflict.exprs_mapExprs (c : OnConflict) :
    (c.mapExprs f).exprs = c.exprs.map f := by
  cases c with
  | doNothing => rfl
  | doUpdate assignments whereClause =>
    simp only [mapExprs, exprs, List.map_append, List.map_map, Option.toList_map]
    rfl

theorem Statement.exprs_mapExprs (s : Statement) : (s.mapExprs f).exprs = s.exprs.map f := by
  cases s with
  | select s =>
    simp only [mapExprs, exprs, List.map_append, List.map_map, List.map_flatMap, List.flatMap_map,
      SelectColumn.exprs_mapExprs, FromClause.exprs_mapExprs, Option.toList_map]
    rfl
  | insert s =>
    simp only [mapExprs, exprs, List.map_append, List.map_flatten, Option.toList_map,
      List.map_flatMap, List.flatMap_map, OnConflict.exprs_mapExprs]
  | delete s => simp only [mapExprs, exprs, Option.toList_map]
  | update s =>
    simp only [mapExprs, exprs, List.map_append, List.map_map, Option.toList_map]
    rfl
  | createTable s =>
    simp only [mapExprs, exprs, List.map_append, List.map_flatMap, List.flatMap_map,
      Option.toList_map]
  | _ => rfl

theorem map_eq_self {α : Type} {g : α → α} {l : List α} (h : ∀ a ∈ l, g a = a) : l.map g = l :=
  (List.map_congr_left h).trans (List.map_id' l)

theorem optionMap_eq_self {α : Type} {g : α → α} {o : Option α} (h : ∀ a ∈ o.toList, g a = a) :
    o.map g = o := by
  cases o with
  | none => rfl
  | some a => exact congrArg some (h a List.mem_cons_self)

theorem OnConflict.mapExprs_eq_self {c : OnConflict} (h : ∀ e ∈ c.exprs, f e = e) :
    c.mapExprs f = c := by
  cases c with
  | doNothing => rfl
  | doUpdate assignments whereClause =>
    obtain ⟨ha, hw⟩ := List.forall_mem_append.1 h
    rw [mapExprs, optionMap_eq_self hw, map_eq_self fun a hm => ?_]
    rw [Assignment.mapExprs, ha a.value (List.mem_map_of_mem hm)]

theorem ColumnDef.map_eq_self {c : ColumnDef} (h : ∀ e ∈ c.default.toList, f e = e) :
    { c with default := c.default.map f } = c := by
  rw [optionMap_eq_self h]

/-- No parameter of the statement is left. -/
theorem Statement.params_mapExprs_subst (s : Statement) (σ : Nat → LiteralValue) :
    (s.mapExprs (Expr.subst σ)).params = [] := by
  rw [params, exprs_mapExprs, List.flatMap_map]
  exact List.flatMap_eq_nil_iff.2 fun e _ => Expr.params_subst e

end Ast

end Ccdb
