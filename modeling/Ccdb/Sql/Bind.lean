import Ccdb.Sql.Ast
import Ccdb.Sql.Interval

/-!
# Ccdb — Bind

The parameters of a prepared statement (`instance.rs`): `max_param_index`, and
`bind_params_into_stmt`, which puts a literal in place of each `$N`. Neither looks at the
SET list and the WHERE clause of ON CONFLICT DO UPDATE, nor at the expressions of CREATE
TABLE. `$0` is looked up at `0 - 1`.

`str::parse::<f64>` is a parameter.

Main results:

* `bindLits_binds` — what Bind does with the expressions it looks at.
* `complete_iff` — when Bind is complete.
* `upsert_parameter_left` — a parameter in an ON CONFLICT DO UPDATE.
-/

namespace Ccdb.Bind

open Ast

/-! ## The largest index -/

mutual

def maxParamInExpr : Expr → Nat
  | .param n => n
  | .literal _ => 0
  | .column _ _ => 0
  | .binaryOp left _ right => max (maxParamInExpr left) (maxParamInExpr right)
  | .unaryOp _ e => maxParamInExpr e
  | .isNull e _ => maxParamInExpr e
  | .funcCall _ none => 0
  | .funcCall _ (some es) => maxParamInArgs es

def maxParamInArgs : List Expr → Nat
  | [] => 0
  | e :: es => max (maxParamInExpr e) (maxParamInArgs es)

end

/-- The ON clauses `visit_stmt_exprs` walks over. -/
def walkFrom : FromClause → List Expr
  | .empty => []
  | .table _ => []
  | .join left _ _ on => walkFrom left ++ [on]

/-- The expressions `visit_stmt_exprs` calls its argument on, in order. -/
def visitStmtExprs : Ast.Statement → List Expr
  | .select s => s.columns.flatMap SelectColumn.exprs ++ walkFrom s.fromClause ++
      s.whereClause.toList ++ s.groupBy ++ s.having.toList ++ s.orderBy.map OrderBy.expr
  | .insert s => s.rows.flatten
  | .delete s => s.whereClause.toList
  | .update s => s.assignments.map Ast.Assignment.value ++ s.whereClause.toList
  | _ => []

def maxParamIndex (s : Ast.Statement) : Nat :=
  (visitStmtExprs s).foldl (fun n e => max n (maxParamInExpr e)) 0

/-! ## The literals -/

section Literals

variable (parseF64 : String → Option UInt64)

def paramToLiteral (p : Option Bytes) : LiteralValue :=
  match p with
  | none => .null
  | some bytes =>
    let s := (String.fromUTF8? ⟨bytes.toArray⟩).getD ""
    match Interval.parseI64 s.toList with
    | some n => .integer n
    | none =>
      match parseF64 s with
      | some x => .float x
      | none => .string s

end Literals

/-- The literal of `$n`. -/
def valueOf (lits : List LiteralValue) (n : Nat) : LiteralValue := (lits[n - 1]?).getD .null

/-- `lits.get(*n - 1)`. In a release build `0 - 1` is `usize::MAX`, past the end of every slice. -/
def lookup (b : Build) (lits : List LiteralValue) (n : Nat) : Except DbError LiteralValue :=
  if n = 0 then
    match b with
    | .debug => .error (.panic "attempt to subtract with overflow")
    | .release => .error (.bail s!"missing value for parameter ${n}")
  else
    match lits[n - 1]? with
    | some l => .ok l
    | none => .error (.bail s!"missing value for parameter ${n}")

mutual

def replaceParamsInExpr (b : Build) (lits : List LiteralValue) : Expr → Except DbError Expr
  | .param n => do return .literal (← lookup b lits n)
  | .literal l => .ok (.literal l)
  | .column q name => .ok (.column q name)
  | .binaryOp left op right => do
    let left ← replaceParamsInExpr b lits left
    let right ← replaceParamsInExpr b lits right
    return .binaryOp left op right
  | .unaryOp op e => do return .unaryOp op (← replaceParamsInExpr b lits e)
  | .isNull e negated => do return .isNull (← replaceParamsInExpr b lits e) negated
  | .funcCall name none => .ok (.funcCall name none)
  | .funcCall name (some es) => do return .funcCall name (some (← replaceParamsInArgs b lits es))

def replaceParamsInArgs (b : Build) (lits : List LiteralValue) :
    List Expr → Except DbError (List Expr)
  | [] => .ok []
  | e :: es => do
    let e ← replaceParamsInExpr b lits e
    let es ← replaceParamsInArgs b lits es
    return e :: es

end

/-! ## The statement -/

section Statement

variable (b : Build) (lits : List LiteralValue)

/-- `Option::map` and `transpose`. -/
def bindClause : Option Expr → Except DbError (Option Expr)
  | none => .ok none
  | some e => do return some (← replaceParamsInExpr b lits e)

def bindFrom : FromClause → Except DbError FromClause
  | .empty => .ok .empty
  | .table t => .ok (.table t)
  | .join left right joinType on => do
    let left ← bindFrom left
    let on ← replaceParamsInExpr b lits on
    return .join left right joinType on

def bindColumn : SelectColumn → Except DbError SelectColumn
  | .asterisk => .ok .asterisk
  | .expr e aliasName => do return .expr (← replaceParamsInExpr b lits e) aliasName

def bindOrderBy (o : OrderBy) : Except DbError OrderBy := do
  return ⟨← replaceParamsInExpr b lits o.expr, o.dir⟩

def bindAssignment (a : Ast.Assignment) : Except DbError Ast.Assignment := do
  return ⟨a.column, ← replaceParamsInExpr b lits a.value⟩

def bindLits : Ast.Statement → Except DbError Ast.Statement
  | .select s => do
    let columns ← s.columns.mapM (bindColumn b lits)
    let fromClause ← bindFrom b lits s.fromClause
    let whereClause ← bindClause b lits s.whereClause
    let groupBy ← s.groupBy.mapM (replaceParamsInExpr b lits)
    let having ← bindClause b lits s.having
    let orderBy ← s.orderBy.mapM (bindOrderBy b lits)
    return .select { s with columns, fromClause, whereClause, groupBy, having, orderBy }
  | .insert s => do
    let rows ← s.rows.mapM (List.mapM (replaceParamsInExpr b lits))
    return .insert { s with rows }
  | .delete s => do
    let whereClause ← bindClause b lits s.whereClause
    return .delete { s with whereClause }
  | .update s => do
    let assignments ← s.assignments.mapM (bindAssignment b lits)
    let whereClause ← bindClause b lits s.whereClause
    return .update { s with assignments, whereClause }
  | s => .ok s

end Statement

/-- `bind_params_into_stmt`. -/
def bindParamsIntoStmt (parseF64 : String → Option UInt64) (b : Build) (s : Ast.Statement)
    (params : List (Option Bytes)) : Except DbError Ast.Statement :=
  bindLits b (params.map (paramToLiteral parseF64)) s

/-! ## The largest index of what is visited -/

/-- The largest of `ns`, or zero. -/
def largest (ns : List Nat) : Nat := ns.foldr max 0

theorem largest_append (ns ms : List Nat) : largest (ns ++ ms) = max (largest ns) (largest ms) := by
  induction ns with
  | nil => exact (Nat.zero_max _).symm
  | cons n ns ih =>
    change max n (largest (ns ++ ms)) = max (max n (largest ns)) (largest ms)
    rw [ih, Nat.max_assoc]

theorem largest_le {ns : List Nat} {k : Nat} : largest ns ≤ k ↔ ∀ n ∈ ns, n ≤ k := by
  induction ns with
  | nil => simp [largest]
  | cons n ns ih =>
    change max n (largest ns) ≤ k ↔ _
    rw [Nat.max_le, ih, List.forall_mem_cons]

theorem largest_congr {ns ms : List Nat} (h : ∀ n, n ∈ ns ↔ n ∈ ms) : largest ns = largest ms :=
  Nat.le_antisymm (largest_le.2 fun n hn => largest_le.1 le_rfl n ((h n).1 hn))
    (largest_le.2 fun n hn => largest_le.1 le_rfl n ((h n).2 hn))

theorem maxParamInArgs_eq {es : List Expr} (h : ∀ e ∈ es, maxParamInExpr e = largest e.params) :
    maxParamInArgs es = largest (es.flatMap Expr.params) := by
  induction es with
  | nil => rfl
  | cons e es ih =>
    rw [maxParamInArgs, List.flatMap_cons, largest_append, h e List.mem_cons_self,
      ih fun e he => h e (List.mem_cons_of_mem _ he)]

theorem maxParamInExpr_eq (e : Expr) : maxParamInExpr e = largest e.params := by
  induction e using Expr.inductionOn with
  | literal l => rfl
  | column q n => rfl
  | binaryOp l op r ihl ihr => rw [maxParamInExpr, Expr.params, largest_append, ihl, ihr]
  | unaryOp op e ih => rw [maxParamInExpr, Expr.params, ih]
  | isNull e negated ih => rw [maxParamInExpr, Expr.params, ih]
  | star name => rfl
  | funcCall name es ih =>
    rw [maxParamInExpr, Expr.params, Expr.paramsList_eq, maxParamInArgs_eq ih]
  | param n => exact (Nat.max_zero n).symm

theorem foldl_maxParamInExpr (es : List Expr) (k : Nat) :
    es.foldl (fun n e => max n (maxParamInExpr e)) k = max k (largest (es.flatMap Expr.params)) := by
  induction es generalizing k with
  | nil => exact (Nat.max_zero k).symm
  | cons e es ih =>
    rw [List.foldl_cons, ih, maxParamInExpr_eq, List.flatMap_cons, largest_append, Nat.max_assoc]

theorem maxParamIndex_eq (s : Ast.Statement) :
    maxParamIndex s = largest ((visitStmtExprs s).flatMap Expr.params) := by
  rw [maxParamIndex, foldl_maxParamInExpr, Nat.zero_max]

/-! ## What a traversal does -/

/-- What a computation that looks up the indices `ns` among `k` literals returns: `y` when
all of them are there, and otherwise an error, with a text where none of them is zero. -/
structure Binds {α : Type} (k : Nat) (ns : List Nat) (x : Except DbError α) (y : α) : Prop where
  found : (∀ n ∈ ns, 0 < n ∧ n ≤ k) → x = .ok y
  missing : ∀ z, x = .ok z → ∀ n ∈ ns, 0 < n ∧ n ≤ k
  text : 0 ∉ ns → ∀ err, x = .error err → ∃ msg, err = .bail msg

namespace Binds

variable {α β : Type} {k : Nat} {ns ms : List Nat}

theorem pure (y : α) : Binds k [] (.ok y) y where
  found _ := rfl
  missing _ _ _ h := by cases h
  text _ _ h := by cases h

theorem bind {x : Except DbError α} {y : α} {f : α → Except DbError β} {z : β}
    (hx : Binds k ns x y) (hf : Binds k ms (f y) z) : Binds k (ns ++ ms) (x >>= f) z where
  found h := by
    rw [hx.found fun n hn => h n (List.mem_append_left ms hn)]
    exact hf.found fun n hn => h n (List.mem_append_right ns hn)
  missing v hv := by
    obtain ⟨y', hy', hv'⟩ := bind_ok.1 hv
    have hns := hx.missing y' hy'
    rw [hx.found hns] at hy'
    cases hy'
    exact List.forall_mem_append.2 ⟨hns, hf.missing v hv'⟩
  text h0 err herr := by
    rw [List.mem_append, not_or] at h0
    cases hxe : x with
    | error err' =>
      rw [hxe] at herr
      cases herr
      exact hx.text h0.1 err hxe
    | ok y' =>
      have hy' := hx.found (hx.missing y' hxe)
      rw [hy'] at herr
      exact hf.text h0.2 err herr

theorem map {x : Except DbError α} {y : α} (hx : Binds k ns x y) (f : α → β) :
    Binds k ns (do return f (← x)) (f y) := by
  have h := hx.bind (f := fun a => .ok (f a)) (pure (f y))
  rwa [List.append_nil] at h

theorem mapM {f : α → Except DbError β} {g : α → β} {p : α → List Nat} {l : List α}
    (h : ∀ a ∈ l, Binds k (p a) (f a) (g a)) : Binds k (l.flatMap p) (l.mapM f) (l.map g) := by
  induction l with
  | nil => exact pure []
  | cons a l ih =>
    rw [List.mapM_cons, List.flatMap_cons]
    exact (h a List.mem_cons_self).bind ((ih fun a ha => h a (List.mem_cons_of_mem _ ha)).map _)

end Binds

variable {b : Build} {lits : List LiteralValue}

theorem lookup_binds (n : Nat) :
    Binds lits.length [n] (lookup b lits n) (valueOf lits n) where
  found h := by
    obtain ⟨h0, hlt⟩ := h n List.mem_cons_self
    have hget : lits[n - 1]? = some lits[n - 1] := List.getElem?_eq_getElem (by omega)
    unfold lookup
    rw [if_neg (by omega), valueOf, hget]
    rfl
  missing z hz := by
    rw [List.forall_mem_singleton]
    unfold lookup at hz
    split at hz
    · cases b <;> cases hz
    · next h0 =>
      split at hz
      · next l hl => exact ⟨by omega, by have := (List.getElem?_eq_some_iff.1 hl).1; omega⟩
      · cases hz
  text h0 err herr := by
    rw [List.mem_singleton] at h0
    unfold lookup at herr
    rw [if_neg (Ne.symm h0)] at herr
    split at herr
    · cases herr
    · cases herr
      exact ⟨_, rfl⟩

theorem replaceParamsInArgs_eq (es : List Expr) :
    replaceParamsInArgs b lits es = es.mapM (replaceParamsInExpr b lits) := by
  induction es with
  | nil => rfl
  | cons e es ih => rw [replaceParamsInArgs, List.mapM_cons, ih]

theorem replaceParamsInExpr_binds (e : Expr) :
    Binds lits.length e.params (replaceParamsInExpr b lits e) (e.subst (valueOf lits)) := by
  induction e using Expr.inductionOn with
  | literal l => exact Binds.pure _
  | column q n => exact Binds.pure _
  | binaryOp l op r ihl ihr =>
    rw [replaceParamsInExpr, Expr.params, Expr.subst]
    exact ihl.bind (ihr.map fun r => Expr.binaryOp _ op r)
  | unaryOp op e ih =>
    rw [replaceParamsInExpr, Expr.params, Expr.subst]
    exact ih.map (Expr.unaryOp op)
  | isNull e negated ih =>
    rw [replaceParamsInExpr, Expr.params, Expr.subst]
    exact ih.map fun e => Expr.isNull e negated
  | star name => exact Binds.pure _
  | funcCall name es ih =>
    rw [replaceParamsInExpr, Expr.params, Expr.subst, Expr.paramsList_eq, Expr.substList_eq,
      replaceParamsInArgs_eq]
    exact (Binds.mapM ih).map fun es => Expr.funcCall name (some es)
  | param n =>
    rw [replaceParamsInExpr, Expr.params, Expr.subst]
    exact (lookup_binds n).map Expr.literal

/-! ## The statement as it is bound -/

/-- The expressions of a statement that Bind leaves as they are. -/
def unvisited : Ast.Statement → List Expr
  | .insert s => s.onConflict.toList.flatMap OnConflict.exprs
  | .createTable s => s.columns.flatMap (fun c => c.default.toList) ++ s.checkConstraints
  | _ => []

/-- The statement with what is visited changed. -/
def mapVisited (f : Expr → Expr) : Ast.Statement → Ast.Statement
  | .insert s => .insert { s with rows := s.rows.map (List.map f) }
  | .createTable s => .createTable s
  | s => s.mapExprs f

theorem bindClause_binds (o : Option Expr) :
    Binds lits.length (o.toList.flatMap Expr.params) (bindClause b lits o)
      (o.map (Expr.subst (valueOf lits))) := by
  cases o with
  | none => exact Binds.pure _
  | some e =>
    rw [Option.toList_some, List.flatMap_singleton]
    exact (replaceParamsInExpr_binds e).map some

theorem bindFrom_binds (c : FromClause) :
    Binds lits.length ((walkFrom c).flatMap Expr.params) (bindFrom b lits c)
      (c.mapExprs (Expr.subst (valueOf lits))) := by
  induction c with
  | empty => exact Binds.pure _
  | table t => exact Binds.pure _
  | join left right joinType on ih =>
    rw [walkFrom, List.flatMap_append, List.flatMap_singleton]
    exact ih.bind ((replaceParamsInExpr_binds on).map fun on => FromClause.join _ right joinType on)

theorem bindColumn_binds (c : SelectColumn) :
    Binds lits.length (c.exprs.flatMap Expr.params) (bindColumn b lits c)
      (c.mapExprs (Expr.subst (valueOf lits))) := by
  cases c with
  | asterisk => exact Binds.pure _
  | expr e aliasName =>
    rw [SelectColumn.exprs, List.flatMap_singleton]
    exact (replaceParamsInExpr_binds e).map fun e => SelectColumn.expr e aliasName

/-- What Bind does with the expressions it looks at. -/
theorem bindLits_binds (b : Build) (lits : List LiteralValue) (s : Ast.Statement) :
    Binds lits.length ((visitStmtExprs s).flatMap Expr.params) (bindLits b lits s)
      (mapVisited (Expr.subst (valueOf lits)) s) := by
  cases s with
  | select s =>
    simp only [visitStmtExprs, List.flatMap_append, List.append_assoc, List.flatMap_assoc,
      List.flatMap_map]
    exact (Binds.mapM fun c _ => bindColumn_binds c).bind <|
      (bindFrom_binds s.fromClause).bind <| (bindClause_binds s.whereClause).bind <|
      (Binds.mapM fun e _ => replaceParamsInExpr_binds e).bind <|
      (bindClause_binds s.having).bind <|
      (Binds.mapM fun o _ => (replaceParamsInExpr_binds o.expr).map fun e => OrderBy.mk e o.dir).map _
  | insert s =>
    rw [visitStmtExprs, List.flatten_eq_flatMap, List.flatMap_assoc]
    exact (Binds.mapM fun row _ => Binds.mapM fun e _ => replaceParamsInExpr_binds e).map _
  | delete s => exact (bindClause_binds s.whereClause).map _
  | update s =>
    simp only [visitStmtExprs, List.flatMap_append, List.flatMap_map]
    exact (Binds.mapM fun a _ =>
      (replaceParamsInExpr_binds a.value).map fun e => Ast.Assignment.mk a.column e).bind
      ((bindClause_binds s.whereClause).map _)
  | _ => exact Binds.pure _

theorem walkFrom_eq (c : FromClause) : walkFrom c = c.exprs := by
  induction c with
  | empty => rfl
  | table t => rfl
  | join left right joinType on ih => rw [walkFrom, FromClause.exprs, ih]

/-- What is visited and what is not make up the statement. -/
theorem mem_params {s : Ast.Statement} {n : Nat} : n ∈ s.params ↔
    n ∈ (visitStmtExprs s).flatMap Expr.params ∨ n ∈ (unvisited s).flatMap Expr.params := by
  rw [Ast.Statement.params, ← List.mem_append, ← List.flatMap_append]
  cases s with
  | select s => simp only [visitStmtExprs, unvisited, Ast.Statement.exprs, walkFrom_eq, List.append_nil]
  | insert s => rfl
  | delete s => simp only [visitStmtExprs, unvisited, Ast.Statement.exprs, List.append_nil]
  | update s => simp only [visitStmtExprs, unvisited, Ast.Statement.exprs, List.append_nil]
  | createTable s => rfl
  | _ => rfl

theorem unvisited_mapVisited (f : Expr → Expr) (s : Ast.Statement) :
    unvisited (mapVisited f s) = unvisited s := by
  cases s <;> rfl

/-- Bind changes everything where nothing is left out. -/
theorem mapVisited_eq {s : Ast.Statement} {σ : Nat → LiteralValue}
    (h : ∀ e ∈ unvisited s, e.params = []) :
    mapVisited (Expr.subst σ) s = s.mapExprs (Expr.subst σ) := by
  have hsubst : ∀ e ∈ unvisited s, e.subst σ = e := fun e he => Expr.subst_of_params_nil (h e he)
  cases s with
  | insert s =>
    rw [mapVisited, Ast.Statement.mapExprs, optionMap_eq_self fun c hc => ?_]
    exact OnConflict.mapExprs_eq_self fun e he => hsubst e (List.mem_flatMap.2 ⟨c, hc, he⟩)
  | createTable s =>
    obtain ⟨hd, hc⟩ := List.forall_mem_append.1 hsubst
    rw [mapVisited, Ast.Statement.mapExprs, map_eq_self hc, map_eq_self fun c hm => ?_]
    exact ColumnDef.map_eq_self fun e he => hd e (List.mem_flatMap.2 ⟨c, hm, he⟩)
  | _ => rfl

/-! ## Complete -/

/-- What Bind is for: the largest index is that of the statement, a list that is long enough
gives the statement without its parameters, and a shorter one an error. -/
structure Complete (parseF64 : String → Option UInt64) (b : Build) (s : Ast.Statement) : Prop where
  max : maxParamIndex s = largest s.params
  bound : ∀ params : List (Option Bytes), maxParamIndex s ≤ params.length →
    ∃ s', bindParamsIntoStmt parseF64 b s params = .ok s' ∧ s'.params = [] ∧
      s' = s.mapExprs (Expr.subst (valueOf (params.map (paramToLiteral parseF64))))
  short : ∀ params : List (Option Bytes), params.length < maxParamIndex s →
    ∃ msg, bindParamsIntoStmt parseF64 b s params = .error (.bail msg)

/-- No parameter where Bind does not look, and no `$0`. -/
structure Covered (s : Ast.Statement) : Prop where
  visited : ∀ e ∈ unvisited s, e.params = []
  positive : 0 ∉ s.params

/-- When Bind is complete. -/
theorem complete_iff (parseF64 : String → Option UInt64) (b : Build) (s : Ast.Statement) :
    Complete parseF64 b s ↔ Covered s := by
  constructor
  · rintro ⟨hmax, hbound, hshort⟩
    let params : List (Option Bytes) := List.replicate (maxParamIndex s) none
    obtain ⟨s', hs', hnil, -⟩ := hbound params (List.length_replicate).ge
    have hbinds := bindLits_binds b (params.map (paramToLiteral parseF64)) s
    have hpos := hbinds.missing s' hs'
    rw [bindParamsIntoStmt, hbinds.found hpos] at hs'
    cases hs'
    have hleft : (unvisited s).flatMap Expr.params = [] := by
      refine List.eq_nil_iff_forall_not_mem.2 fun n hn => ?_
      rw [← unvisited_mapVisited (Expr.subst (valueOf (params.map (paramToLiteral parseF64))))] at hn
      have := mem_params.2 (.inr hn)
      rw [hnil] at this
      cases this
    refine ⟨List.flatMap_eq_nil_iff.1 hleft, fun h0 => ?_⟩
    rw [mem_params, hleft] at h0
    exact absurd (hpos 0 (h0.resolve_right List.not_mem_nil)).1 (Nat.lt_irrefl 0)
  · rintro ⟨hvisited, hpos⟩
    have hmem : ∀ n, n ∈ s.params ↔ n ∈ (visitStmtExprs s).flatMap Expr.params := fun n => by
      rw [mem_params, List.flatMap_eq_nil_iff.2 hvisited]
      exact or_iff_left List.not_mem_nil
    have hmax : maxParamIndex s = largest s.params := by
      rw [maxParamIndex_eq]
      exact largest_congr fun n => (hmem n).symm
    refine ⟨hmax, fun params hlen => ?_, fun params hlen => ?_⟩
    · have hbinds := bindLits_binds b (params.map (paramToLiteral parseF64)) s
      refine ⟨_, hbinds.found fun n hn => ?_, ?_, mapVisited_eq hvisited⟩
      · rw [List.length_map]
        rw [← hmem] at hn
        exact ⟨Nat.pos_of_ne_zero fun h0 => hpos (h0 ▸ hn),
          (largest_le.1 hmax.ge n hn).trans hlen⟩
      · rw [mapVisited_eq hvisited, Ast.Statement.params_mapExprs_subst]
    · have hbinds := bindLits_binds b (params.map (paramToLiteral parseF64)) s
      rw [List.length_map] at hbinds
      cases hres : bindParamsIntoStmt parseF64 b s params with
      | ok s' =>
        have hall := hbinds.missing s' hres
        have hle : maxParamIndex s ≤ params.length := by
          rw [maxParamIndex_eq]
          exact largest_le.2 fun n hn => (hall n hn).2
        exact absurd hle (Nat.not_le.2 hlen)
      | error err =>
        obtain ⟨msg, rfl⟩ := hbinds.text (fun h0 => hpos ((hmem 0).2 h0)) err hres
        exact ⟨msg, rfl⟩

/-! ## ON CONFLICT DO UPDATE -/

/-- `INSERT INTO t VALUES ($1) ON CONFLICT (id) DO UPDATE SET a = $2`. -/
def upsert : Ast.Statement := .insert
  { table := "t", columns := none, rows := [[.param 1]]
    onConflict := some (.doUpdate [⟨"a", .param 2⟩] none) }

/-- The largest index is taken for 1, and a bound statement still has `$2`. -/
theorem upsert_parameter_left : maxParamIndex upsert = 1 ∧ largest upsert.params = 2 ∧
    ¬ Complete (fun _ => none) .release upsert ∧ ∀ (parseF64 : String → Option UInt64)
    (b : Build) (params : List (Option Bytes)) (s' : Ast.Statement),
    bindParamsIntoStmt parseF64 b upsert params = .ok s' → s'.params = [2] := by
  refine ⟨rfl, rfl, fun h => absurd h.max (by decide), fun parseF64 b params s' h => ?_⟩
  have hbinds := bindLits_binds b (params.map (paramToLiteral parseF64)) upsert
  rw [bindParamsIntoStmt, hbinds.found (hbinds.missing s' h)] at h
  cases h
  rfl

end Ccdb.Bind
