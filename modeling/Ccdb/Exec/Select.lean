import Ccdb.Exec.FromClause
import Ccdb.Exec.Sort

/-!
# Ccdb — the analysis of SELECT

`analyze_select` with its two branches: without aggregation the items are analyzed against
the tuples of the FROM clause, with it `analyze_post_agg` rewrites them for the tuples
`[group keys..., aggregate results...]` and collects the aggregates on the way. DISTINCT is a
GROUP BY over the items.

Main results:

* `analyzeSelect_aggregated` — what an accepted SELECT with an aggregation consists of.
-/

namespace Ccdb.Select

open HashAggregate (AggKind AnalyzedAggregate)
open FromClause (Tables AnalyzedFrom)
open Ast (SelectColumn SelectStatement)

/-! ## Aggregates -/

/-- `AggKind::from_name`. -/
def aggKindFromName (name : String) : Option AggKind :=
  let upper := name.toUpper
  if upper = "COUNT" then some .count
  else if upper = "SUM" then some .sum
  else if upper = "AVG" then some .avg
  else if upper = "MIN" then some .min
  else if upper = "MAX" then some .max
  else none

mutual

/-- `contains_aggregate`. -/
def containsAggregate : Expr → Bool
  | .literal _ => false
  | .column _ _ => false
  | .param _ => false
  | .binaryOp l _ r => containsAggregate l || containsAggregate r
  | .unaryOp _ e => containsAggregate e
  | .isNull e _ => containsAggregate e
  | .funcCall name none => (aggKindFromName name).isSome
  | .funcCall name (some es) => (aggKindFromName name).isSome || containsAggregateList es

def containsAggregateList : List Expr → Bool
  | [] => false
  | e :: es => containsAggregate e || containsAggregateList es

end

/-- `infer_aggregate_type`. -/
def inferAggregateType (kind : AggKind) (argType : Option DataType) : Except DbError DataType :=
  match kind with
  | .count => .ok .int
  | .sum =>
    match argType with
    | some .double => .ok .double
    | some .int | none => .ok .int
    | some t => .error (.bail s!"{repr t} is not numeric for SUM")
  | .avg =>
    match argType with
    | some .int | some .double | none => .ok .double
    | some t => .error (.bail s!"{repr t} is not numeric for AVG")
  | .min | .max =>
    match argType with
    | some t => .ok t
    | none => .error (.bail s!"argument type required for {repr kind}")

/-- `same_expr`. -/
def sameExpr : AnalyzedExpr → AnalyzedExpr → Bool
  | .literal x, .literal y => x.value = y.value
  -- a place in the flat row belongs to one table
  | .columnRef x, .columnRef y => x.columnIndex = y.columnIndex
  | .binaryOp l₁ o₁ r₁ _, .binaryOp l₂ o₂ r₂ _ => o₁ = o₂ && sameExpr l₁ l₂ && sameExpr r₁ r₂
  | .unaryOp o₁ e₁ _, .unaryOp o₂ e₂ _ => o₁ = o₂ && sameExpr e₁ e₂
  | .isNull e₁ n₁, .isNull e₂ n₂ => n₁ = n₂ && sameExpr e₁ e₂
  | .now, .now => true
  | .sequenceCall, .sequenceCall => true
  | _, _ => false

section PostAgg

variable (a : Analyzer)

/-- The argument of an aggregate call. -/
def analyzeAggArg (name : String) (kind : AggKind) (args : Option (List Expr)) :
    Except DbError (Option AnalyzedExpr) :=
  match kind, args with
  | .count, none => .ok none
  | _, none => .error (.bail "only COUNT supports `*`")
  | _, some [e] =>
    -- the argument cannot itself contain an aggregate
    if containsAggregate e then .error (.bail s!"nested aggregate in '{name}' not allowed")
    else do
      let x ← a.analyzeExpr e
      return some x
  | _, some _ => .error (.bail s!"aggregate '{name}' takes exactly one argument")

/-- `analyze_post_agg`; `aggs` are the aggregates collected so far. -/
def analyzePostAgg (groupKeys : List AnalyzedExpr) :
    Expr → List AnalyzedAggregate → Except DbError (AnalyzedExpr × List AnalyzedAggregate)
  | .literal l, aggs => .ok (.literal (literalToAnalyzed l), aggs)
  | .column qualifier name, aggs => do
    let resolved ← a.resolveColumn qualifier name
    match groupKeys.findIdx? (sameExpr · (.columnRef resolved)) with
    | none =>
      .error (.bail s!"column '{name}' must appear in GROUP BY or in an aggregate function")
    | some pos => .ok (.columnRef ⟨pos, resolved.dataType⟩, aggs)
  | .binaryOp left op right, aggs => do
    let (l, aggs) ← analyzePostAgg groupKeys left aggs
    let (r, aggs) ← analyzePostAgg groupKeys right aggs
    return (.binaryOp l op r (inferBinaryType op l.dataType r.dataType), aggs)
  | .unaryOp op expr, aggs => do
    let (inner, aggs) ← analyzePostAgg groupKeys expr aggs
    return (.unaryOp op inner (inferUnaryType op), aggs)
  | .isNull expr negated, aggs => do
    let (inner, aggs) ← analyzePostAgg groupKeys expr aggs
    return (.isNull inner negated, aggs)
  | .funcCall name args, aggs => do
    match ← a.analyzeScalarBuiltin name args with
    | some builtin => return (builtin, aggs)
    | none =>
      match aggKindFromName name with
      | none => .error (.bail s!"unknown function '{name}'")
      | some kind => do
        let arg ← analyzeAggArg a name kind args
        let resultType ← inferAggregateType kind (arg.bind AnalyzedExpr.dataType)
        -- its place after the keys
        return (.columnRef ⟨groupKeys.length + aggs.length, resultType⟩, aggs ++ [⟨kind, arg⟩])
  | .param n, _ => .error (.bail s!"unbound parameter ${n} — Bind must replace it first")

end PostAgg

/-! ## Aliases -/

mutual

/-- `substitute_aliases`. -/
def substituteAliases (aliases : List (String × Expr)) : Expr → Expr
  | .column none name => ((aliases.find? fun p => p.1 = name).map Prod.snd).getD (.column none name)
  | .column (some q) name => .column (some q) name
  | .literal l => .literal l
  | .param n => .param n
  | .binaryOp left op right =>
    .binaryOp (substituteAliases aliases left) op (substituteAliases aliases right)
  | .unaryOp op expr => .unaryOp op (substituteAliases aliases expr)
  | .isNull expr negated => .isNull (substituteAliases aliases expr) negated
  | .funcCall name none => .funcCall name none
  | .funcCall name (some es) => .funcCall name (some (substituteAliasesList aliases es))

def substituteAliasesList (aliases : List (String × Expr)) : List Expr → List Expr
  | [] => []
  | e :: es => substituteAliases aliases e :: substituteAliasesList aliases es

end

@[simp] theorem substituteAliasesList_eq (aliases : List (String × Expr)) (es : List Expr) :
    substituteAliasesList aliases es = es.map (substituteAliases aliases) := by
  induction es with
  | nil => rfl
  | cons e es ih => rw [substituteAliasesList, ih, List.map_cons]

/-- `select_alias_map`. -/
def selectAliasMap (columns : List SelectColumn) : List (String × Expr) :=
  columns.filterMap fun c =>
    match c with
    | .expr e (some a) => some (a, e)
    | _ => none

/-! ## The statement -/

structure AnalyzedSelectItem where
  expr : AnalyzedExpr
  aliasName : Option String

structure AnalyzedAggregation where
  groupKeys : List AnalyzedExpr
  aggregates : List AnalyzedAggregate

/-- `AnalyzedSelectStatement`; `scope` has the range table. -/
structure AnalyzedSelectStatement where
  scope : FromClause.State
  fromTree : AnalyzedFrom
  whereClause : Option AnalyzedExpr
  aggregation : Option AnalyzedAggregation
  selectItems : List AnalyzedSelectItem
  having : Option AnalyzedExpr
  orderBy : List Sort.SortKey
  limit : Option UInt64

/-- What the two branches of `analyze_select` return. -/
structure Output where
  selectItems : List AnalyzedSelectItem
  having : Option AnalyzedExpr
  aggregation : Option AnalyzedAggregation
  orderBy : List Sort.SortKey

/-- A clause that has to be boolean. -/
def checkBool (clause : String) (x : AnalyzedExpr) : Except DbError AnalyzedExpr :=
  if x.whereAccepted then .ok x else
    .error (.bail s!"{clause} clause must be boolean, got {repr x.dataType}")

/-- The expressions DISTINCT groups by. -/
def distinctKeys : List SelectColumn → Except DbError (List Expr)
  | [] => .ok []
  | .asterisk :: _ => .error (.bail "`SELECT DISTINCT *` is not supported")
  | .expr e _ :: columns =>
    if containsAggregate e then
      .error (.bail "DISTINCT combined with aggregate functions is not supported")
    else do
      let keys ← distinctKeys columns
      return e :: keys

/-- `group_by_ast`. -/
def groupByAst (s : SelectStatement) : Except DbError (List Expr) :=
  if s.distinct then
    if s.groupBy ≠ [] then .error (.bail "DISTINCT combined with explicit GROUP BY is not supported")
    else distinctKeys s.columns
  else .ok s.groupBy

/-- `has_aggregate_call`. -/
def hasAggregateCall (s : SelectStatement) : Bool :=
  (s.columns.any fun c =>
    match c with
    | .asterisk => false
    | .expr e _ => containsAggregate e) || (s.having.map containsAggregate).getD false

section Branches

variable (a : Analyzer)

/-- The items after an aggregation. -/
def postAggItems (groupKeys : List AnalyzedExpr) :
    List SelectColumn → List AnalyzedAggregate →
      Except DbError (List AnalyzedSelectItem × List AnalyzedAggregate)
  | [], aggs => .ok ([], aggs)
  | .asterisk :: _, _ => .error (.bail "`SELECT *` with GROUP BY/aggregates is not supported")
  | .expr e aliasName :: columns, aggs => do
    let (x, aggs) ← analyzePostAgg a groupKeys e aggs
    let (items, aggs) ← postAggItems groupKeys columns aggs
    return (⟨x, aliasName⟩ :: items, aggs)

/-- HAVING. -/
def postAggHaving (groupKeys : List AnalyzedExpr) (having : Option Expr)
    (aggs : List AnalyzedAggregate) : Except DbError (Option AnalyzedExpr × List AnalyzedAggregate) :=
  match having with
  | none => .ok (none, aggs)
  | some e => do
    let (x, aggs) ← analyzePostAgg a groupKeys e aggs
    let x ← checkBool "HAVING" x
    return (some x, aggs)

/-- ORDER BY after an aggregation. -/
def postAggOrderBy (groupKeys : List AnalyzedExpr) (aliases : List (String × Expr)) :
    List Ast.OrderBy → List AnalyzedAggregate →
      Except DbError (List Sort.SortKey × List AnalyzedAggregate)
  | [], aggs => .ok ([], aggs)
  | ob :: obs, aggs => do
    let (x, aggs) ← analyzePostAgg a groupKeys (substituteAliases aliases ob.expr) aggs
    let (keys, aggs) ← postAggOrderBy groupKeys aliases obs aggs
    return (⟨x, ob.dir⟩ :: keys, aggs)

/-- The branch with an aggregation. -/
def aggregated (s : SelectStatement) (groupKeys : List AnalyzedExpr) : Except DbError Output := do
  let (items, aggs) ← postAggItems a groupKeys s.columns []
  let (having, aggs) ← postAggHaving a groupKeys s.having aggs
  let (orderBy, aggs) ← postAggOrderBy a groupKeys (selectAliasMap s.columns) s.orderBy aggs
  return ⟨items, having, some ⟨groupKeys, aggs⟩, orderBy⟩

/-- The items of a SELECT without aggregation. -/
def plainItems : List SelectColumn → Except DbError (List AnalyzedSelectItem)
  | [] => .ok []
  | .asterisk :: columns => do
    let refs ← FromClause.expandAsterisk a
    let items ← plainItems columns
    return (refs.map fun x => ⟨x, none⟩) ++ items
  | .expr e aliasName :: columns => do
    let x ← a.analyzeExpr e
    let items ← plainItems columns
    return ⟨x, aliasName⟩ :: items

/-- The branch without aggregation. -/
def plain (s : SelectStatement) : Except DbError Output := do
  if s.having.isSome then .error (.bail "HAVING requires GROUP BY or an aggregate function")
  else
    let items ← plainItems a s.columns
    let orderBy ← s.orderBy.mapM fun ob => do
      let x ← a.analyzeExpr (substituteAliases (selectAliasMap s.columns) ob.expr)
      return ⟨x, ob.dir⟩
    return ⟨items, none, none, orderBy⟩

/-- WHERE. -/
def analyzeWhere (whereClause : Option Expr) : Except DbError (Option AnalyzedExpr) :=
  match whereClause with
  | none => .ok none
  | some e => do
    let x ← a.analyzeExpr e
    let x ← checkBool "WHERE" x
    return some x

/-- Aggregation is needed with a GROUP BY or an aggregate call. -/
def branch (s : SelectStatement) (groupKeys : List AnalyzedExpr) : Except DbError Output :=
  if groupKeys ≠ [] ∨ hasAggregateCall s then aggregated a s groupKeys else plain a s

end Branches

/-- `analyze_select`. -/
def analyzeSelect (cat : Tables) (findSequence : String → Except DbError Bool) (s : SelectStatement) :
    Except DbError AnalyzedSelectStatement := do
  let ((fromTree, _), scope) ← FromClause.analyzeFrom cat s.fromClause 0 (.start findSequence)
  let whereClause ← analyzeWhere scope.analyzer s.whereClause
  let groupByAst ← groupByAst s
  let groupKeys ← groupByAst.mapM scope.analyzer.analyzeExpr
  let out ← branch scope.analyzer s groupKeys
  return ⟨scope, fromTree, whereClause, out.aggregation, out.selectItems, out.having, out.orderBy,
    s.limit⟩

/-! ## Accepted statements -/

section Accepted

variable {cat : Tables} {findSequence : String → Except DbError Bool} {s : SelectStatement}
  {an : AnalyzedSelectStatement}

theorem analyzeSelect_ok (h : analyzeSelect cat findSequence s = .ok an) :
    ∃ w keys groupKeys out,
      FromClause.analyzeFrom cat s.fromClause 0 (.start findSequence) =
        .ok ((an.fromTree, w), an.scope) ∧
      analyzeWhere an.scope.analyzer s.whereClause = .ok an.whereClause ∧
      groupByAst s = .ok keys ∧ keys.mapM an.scope.analyzer.analyzeExpr = .ok groupKeys ∧
      branch an.scope.analyzer s groupKeys = .ok out ∧
      an.aggregation = out.aggregation ∧ an.selectItems = out.selectItems ∧ an.having = out.having ∧
      an.orderBy = out.orderBy ∧ an.limit = s.limit := by
  obtain ⟨⟨⟨fromTree, w⟩, scope⟩, hfrom, h⟩ := bind_ok.1 h
  obtain ⟨whereClause, hwhere, h⟩ := bind_ok.1 h
  obtain ⟨keys, hkeys, h⟩ := bind_ok.1 h
  obtain ⟨groupKeys, hgroup, h⟩ := bind_ok.1 h
  obtain ⟨out, hout, h⟩ := bind_ok.1 h
  cases h
  exact ⟨w, keys, groupKeys, out, hfrom, hwhere, hkeys, hgroup, hout, rfl, rfl, rfl, rfl, rfl⟩

theorem aggregated_ok {a : Analyzer} {groupKeys : List AnalyzedExpr} {out : Output}
    (h : aggregated a s groupKeys = .ok out) : ∃ aggs, out.aggregation = some ⟨groupKeys, aggs⟩ := by
  obtain ⟨⟨items, aggs⟩, -, h⟩ := bind_ok.1 h
  obtain ⟨⟨having, aggs'⟩, -, h⟩ := bind_ok.1 h
  obtain ⟨⟨orderBy, aggs''⟩, -, h⟩ := bind_ok.1 h
  cases h
  exact ⟨aggs'', rfl⟩

theorem plain_ok {a : Analyzer} {out : Output} (h : plain a s = .ok out) :
    s.having = none ∧ out.aggregation = none ∧ out.having = none ∧
      plainItems a s.columns = .ok out.selectItems := by
  unfold plain at h
  split at h
  · cases h
  · next hhaving =>
    obtain ⟨items, hitems, h⟩ := bind_ok.1 h
    obtain ⟨orderBy, -, h⟩ := bind_ok.1 h
    cases h
    exact ⟨Option.not_isSome_iff_eq_none.1 hhaving, rfl, rfl, hitems⟩

/-- **An accepted SELECT with an aggregation** went through the first branch. -/
theorem analyzeSelect_aggregated (h : analyzeSelect cat findSequence s = .ok an)
    {agg : AnalyzedAggregation} (hagg : an.aggregation = some agg) :
    ∃ out, aggregated an.scope.analyzer s agg.groupKeys = .ok out ∧
      out.aggregation = some agg ∧ out.selectItems = an.selectItems ∧ out.having = an.having ∧
      out.orderBy = an.orderBy := by
  obtain ⟨w, keys, groupKeys, out, -, -, -, -, hout, h₁, h₂, h₃, h₄, -⟩ := analyzeSelect_ok h
  unfold branch at hout
  split at hout
  · obtain ⟨aggs, haggs⟩ := aggregated_ok hout
    rw [← h₁, hagg] at haggs
    cases haggs
    exact ⟨out, hout, h₁ ▸ hagg, h₂.symm, h₃.symm, h₄.symm⟩
  · rw [h₁, (plain_ok hout).2.1] at hagg
    cases hagg

end Accepted

end Ccdb.Select
