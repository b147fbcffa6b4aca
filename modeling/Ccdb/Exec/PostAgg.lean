import Ccdb.Exec.Select

/-!
# Ccdb — the aggregation rewrite keeps the meaning of expressions

What an expression of a SELECT with an aggregation means is said on the expression as it is
written, over the rows of a group: an aggregate call folds its argument over them, a column is
what the rows have in common, an alias in ORDER BY is the item it names. What the code
evaluates is the rewritten expression, on the row of the group: its keys and the results of
all the aggregates that were collected, in SELECT, HAVING and ORDER BY together.

Main results:

* `postAgg_faithful` — the places `analyze_post_agg` hands out stay right however many
  aggregates follow.
* `groupValue_substituteAliases` — replacing aliases is naming the items.
* `aggregation_keeps_meaning` — the statement as a whole.
-/

namespace Ccdb.Select

open Join (Row Executor Delivers listChild delivers_listChild)
open HashAggregate (AggKind AggState AggF64 AnalyzedAggregate forall₂_of_mapM NoDouble rowsWith)
open FromClause (Tables)
open Ast (SelectColumn SelectStatement)

/-! ## What expressions mean -/

/-- What the expressions of a statement are evaluated with; `now` is `tx.start_ts()`. -/
structure Evaluation where
  build : Build
  f64 : AggF64
  arith : Arith
  now : Int64

/-- What the names in an expression stand for. -/
structure Naming where
  value : Option String → String → Row → Except DbError Value
  dataType : Option String → String → Option DataType

/-- The columns of a scope. -/
def columns (a : Analyzer) : Naming where
  value qualifier name row := do
    let c ← a.resolveColumn qualifier name
    return row.getD c.columnIndex .null
  dataType qualifier name :=
    match a.resolveColumn qualifier name with
    | .ok c => some c.dataType
    | .error _ => none

/-- The type of an expression. -/
def typeOf (names : Naming) : Expr → Option DataType
  | .literal l => l.dataType
  | .column qualifier name => names.dataType qualifier name
  | .binaryOp l op r => some (inferBinaryType op (typeOf names l) (typeOf names r))
  | .unaryOp op _ => some (inferUnaryType op)
  | .isNull _ _ => some .bool
  | .funcCall name _ =>
    let lower := name.toLower
    if lower = "now" ∨ lower = "current_timestamp" ∨ lower = "transaction_timestamp" then
      some .timestamp
    else if lower = "nextval" ∨ lower = "setval" then some .int
    else none
  | .param _ => none

/-- The accumulator an aggregate over arguments of a type starts with. -/
def startState (kind : AggKind) (argType : Option DataType) : AggState :=
  match kind with
  | .count => .count 0
  | .sum => if argType = some .double then .sumDouble 0 false else .sumInt 0 false
  | .avg => if argType = some .double then .avgDouble 0 0 else .avgInt 0 0
  | .min => .min none
  | .max => .max none

namespace Evaluation

variable (ev : Evaluation)

/-- A builtin by its name: the time of the transaction, or a sequence call, which cannot be
evaluated. -/
def builtin (name : String) : Option (Except DbError Value) :=
  let lower := name.toLower
  if lower = "now" ∨ lower = "current_timestamp" ∨ lower = "transaction_timestamp" then
    some (.ok (.timestamp ev.now))
  else if lower = "nextval" ∨ lower = "setval" then some (evaluateExpr ev.arith [] .sequenceCall)
  else none

/-- An expression without aggregates on one row. -/
def rowValue (names : Naming) (row : Row) : Expr → Except DbError Value
  | .literal l => .ok (literalToValue (literalToAnalyzed l))
  | .column qualifier name => names.value qualifier name row
  | .binaryOp left op right => do
    let l ← rowValue names row left
    let r ← rowValue names row right
    evaluateBinary ev.arith op l r
  | .unaryOp op expr => do
    let v ← rowValue names row expr
    evaluateUnary op v
  | .isNull expr negated => do
    let v ← rowValue names row expr
    .ok (.bool (if negated then v ≠ .null else v = .null))
  | .funcCall name _ => (ev.builtin name).getD (.error (.bail s!"unknown function '{name}'"))
  | .param n => .error (.bail s!"unbound parameter ${n}")

/-- An aggregate over rows; no argument is `*`. -/
def aggregate (kind : AggKind) (argType : Option DataType)
    (arg : Option (Row → Except DbError Value)) (rows : List Row) : Except DbError Value := do
  let s ← rows.foldlM (fun s row =>
    match arg with
    | none => s.update ev.build ev.f64 none
    | some arg => do
      let v ← arg row
      s.update ev.build ev.f64 (some v)) (startState kind argType)
  return s.finalize ev.f64

/-- The call of an aggregate over the rows of a group. -/
def aggregateCall (names : Naming) (rows : List Row) (name : String) (args : Option (List Expr)) :
    Except DbError Value :=
  match aggKindFromName name, args with
  | some kind, none => ev.aggregate kind none none rows
  | some kind, some [e] =>
    ev.aggregate kind (typeOf names e) (some fun row => ev.rowValue names row e) rows
  | _, _ => .error (.bail s!"'{name}' is not an aggregate call")

/-- An expression on a group; `col` is what its columns are. -/
def groupValue (names : Naming) (col : Option String → String → Except DbError Value)
    (rows : List Row) : Expr → Except DbError Value
  | .literal l => .ok (literalToValue (literalToAnalyzed l))
  | .column qualifier name => col qualifier name
  | .binaryOp left op right => do
    let l ← groupValue names col rows left
    let r ← groupValue names col rows right
    evaluateBinary ev.arith op l r
  | .unaryOp op expr => do
    let v ← groupValue names col rows expr
    evaluateUnary op v
  | .isNull expr negated => do
    let v ← groupValue names col rows expr
    .ok (.bool (if negated then v ≠ .null else v = .null))
  | .funcCall name args => (ev.builtin name).getD (ev.aggregateCall names rows name args)
  | .param n => .error (.bail s!"unbound parameter ${n}")

end Evaluation

/-- The value of a column in the first row of a group. -/
def common (names : Naming) (rows : List Row) (qualifier : Option String) (name : String) :
    Except DbError Value :=
  match rows with
  | [] => .error (.bail "no row")
  | row :: _ => names.value qualifier name row

/-- The item a bare name stands for in ORDER BY. -/
def aliasOf (aliases : List (String × Expr)) : Option String → String → Option Expr
  | none, name => (aliases.find? fun p => p.1 = name).map Prod.snd
  | some _, _ => none

/-- Names of columns, and of items before them. -/
def Evaluation.aliased (ev : Evaluation) (names : Naming) (aliases : List (String × Expr)) : Naming where
  value qualifier name row :=
    match aliasOf aliases qualifier name with
    | some e => ev.rowValue names row e
    | none => names.value qualifier name row
  dataType qualifier name :=
    match aliasOf aliases qualifier name with
    | some e => typeOf names e
    | none => names.dataType qualifier name

/-- The same for a group. -/
def Evaluation.aliasedCol (ev : Evaluation) (names : Naming) (aliases : List (String × Expr))
    (rows : List Row) (qualifier : Option String) (name : String) : Except DbError Value :=
  match aliasOf aliases qualifier name with
  | some e => ev.groupValue names (common names rows) rows e
  | none => common names rows qualifier name

/-! ## Aliases -/

section Aliases

variable (ev : Evaluation) (names : Naming) (aliases : List (String × Expr))

theorem substituteAliases_column (qualifier : Option String) (name : String) :
    substituteAliases aliases (.column qualifier name) =
      (aliasOf aliases qualifier name).getD (.column qualifier name) := by
  cases qualifier <;> rfl

theorem rowValue_substituteAliases (row : Row) (e : Expr) :
    ev.rowValue names row (substituteAliases aliases e) =
      ev.rowValue (ev.aliased names aliases) row e := by
  induction e using Expr.inductionOn with
  | literal l => rfl
  | column q name =>
    rw [substituteAliases_column]
    show _ = (match aliasOf aliases q name with
      | some e => ev.rowValue names row e
      | none => names.value q name row)
    cases aliasOf aliases q name <;> rfl
  | binaryOp l op r ihl ihr =>
    simp only [substituteAliases, Evaluation.rowValue, ihl, ihr]
  | unaryOp op e ih => simp only [substituteAliases, Evaluation.rowValue, ih]
  | isNull e negated ih => simp only [substituteAliases, Evaluation.rowValue, ih]
  | star name => rfl
  | funcCall name es ih => rfl
  | param n => rfl

theorem typeOf_substituteAliases (e : Expr) :
    typeOf names (substituteAliases aliases e) = typeOf (ev.aliased names aliases) e := by
  induction e using Expr.inductionOn with
  | literal l => rfl
  | column q name =>
    rw [substituteAliases_column]
    show _ = (match aliasOf aliases q name with
      | some e => typeOf names e
      | none => names.dataType q name)
    cases aliasOf aliases q name <;> rfl
  | binaryOp l op r ihl ihr => simp only [substituteAliases, typeOf, ihl, ihr]
  | unaryOp op e ih => rfl
  | isNull e negated ih => rfl
  | star name => rfl
  | funcCall name es ih => rfl
  | param n => rfl

theorem aggregateCall_star (names' : Naming) (rows : List Row) (name : String) :
    ev.aggregateCall names rows name none = ev.aggregateCall names' rows name none := by
  unfold Evaluation.aggregateCall
  cases aggKindFromName name <;> rfl

theorem aggregateCall_substituteAliases (rows : List Row) (name : String) (es : List Expr) :
    ev.aggregateCall names rows name (some (es.map (substituteAliases aliases))) =
      ev.aggregateCall (ev.aliased names aliases) rows name (some es) := by
  unfold Evaluation.aggregateCall
  match aggKindFromName name, es with
  | none, es => rfl
  | some kind, [] => rfl
  | some kind, [e] =>
    simp only [List.map_cons, List.map_nil, typeOf_substituteAliases ev, rowValue_substituteAliases]
  | some kind, e₁ :: e₂ :: es => rfl

/-- **Replacing aliases is naming the items.** -/
theorem groupValue_substituteAliases (rows : List Row) (e : Expr) :
    ev.groupValue names (common names rows) rows (substituteAliases aliases e) =
      ev.groupValue (ev.aliased names aliases) (ev.aliasedCol names aliases rows) rows e := by
  induction e using Expr.inductionOn with
  | literal l => rfl
  | column q name =>
    rw [substituteAliases_column]
    show _ = (match aliasOf aliases q name with
      | some e => ev.groupValue names (common names rows) rows e
      | none => common names rows q name)
    cases aliasOf aliases q name <;> rfl
  | binaryOp l op r ihl ihr => simp only [substituteAliases, Evaluation.groupValue, ihl, ihr]
  | unaryOp op e ih => simp only [substituteAliases, Evaluation.groupValue, ih]
  | isNull e negated ih => simp only [substituteAliases, Evaluation.groupValue, ih]
  | star name =>
    simp only [substituteAliases, Evaluation.groupValue,
      aggregateCall_star ev names (ev.aliased names aliases)]
  | funcCall name es ih =>
    simp only [substituteAliases, substituteAliasesList_eq, Evaluation.groupValue,
      aggregateCall_substituteAliases]
  | param n => rfl

end Aliases

/-! ## Expressions on a row -/

section Rows

variable {a : Analyzer} {e : Expr} {x : AnalyzedExpr} (ev : Evaluation)

theorem analyzeSequenceCall_ok {kind : String} {arity : List Nat} {args : Option (List Expr)}
    {b : Option AnalyzedExpr} (h : a.analyzeSequenceCall kind arity args = .ok b) :
    b = some .sequenceCall := by
  unfold Analyzer.analyzeSequenceCall at h
  cases args with
  | none => cases h
  | some es =>
    obtain ⟨s, -, h⟩ := bind_ok.1 h
    obtain ⟨found, -, h⟩ := bind_ok.1 h
    split at h
    · cases h
      rfl
    · cases h

/-- What the analyzer returns for a builtin evaluates to the builtin's value. -/
theorem builtin_some {name : String} {args : Option (List Expr)}
    (h : a.analyzeScalarBuiltin name args = .ok (some x)) :
    (∀ row, ev.builtin name = some (evaluateExpr ev.arith row (substituteNow ev.now x))) ∧
      ∀ names, typeOf names (.funcCall name args) = x.dataType := by
  unfold Analyzer.analyzeScalarBuiltin at h
  unfold Evaluation.builtin
  simp only [typeOf]
  dsimp only at h
  split at h
  · next hnow =>
    split at h
    · cases h
    · cases h
    · cases h
      exact ⟨fun _ => if_pos hnow, fun _ => if_pos hnow⟩
  · next hnow =>
    split at h
    · next hnext =>
      cases analyzeSequenceCall_ok h
      refine ⟨fun _ => ?_, fun _ => ?_⟩
      · rw [if_neg hnow, if_pos (Or.inl hnext)]
        rfl
      · rw [if_neg hnow, if_pos (Or.inl hnext)]
        rfl
    · next hnext =>
      split at h
      · next hset =>
        cases analyzeSequenceCall_ok h
        refine ⟨fun _ => ?_, fun _ => ?_⟩
        · rw [if_neg hnow, if_pos (Or.inr hset)]
          rfl
        · rw [if_neg hnow, if_pos (Or.inr hset)]
          rfl
      · cases h

theorem builtin_none {name : String} {args : Option (List Expr)}
    (h : a.analyzeScalarBuiltin name args = .ok none) : ev.builtin name = none := by
  unfold Analyzer.analyzeScalarBuiltin at h
  unfold Evaluation.builtin
  dsimp only at h ⊢
  split at h
  · split at h <;> cases h
  · next hnow =>
    split at h
    · cases analyzeSequenceCall_ok h
    · next hnext =>
      split at h
      · cases analyzeSequenceCall_ok h
      · next hset => rw [if_neg hnow, if_neg (not_or.2 ⟨hnext, hset⟩)]

/-- **The analysis of an expression without aggregates keeps its value and type.** -/
theorem rowValue_analyzed (hx : a.analyzeExpr e = .ok x) :
    (∀ row, ev.rowValue (columns a) row e = evaluateExpr ev.arith row (substituteNow ev.now x)) ∧
      typeOf (columns a) e = x.dataType := by
  induction e using analyzeExpr_cases generalizing x with
  | case1 l =>
    cases hx
    exact ⟨fun _ => rfl, rfl⟩
  | case2 qualifier name =>
    obtain ⟨c, hc, hx⟩ := bind_ok.1 hx
    cases hx
    refine ⟨fun row => ?_, ?_⟩
    · show (do let c ← a.resolveColumn qualifier name; return row.getD c.columnIndex .null) = _
      rw [hc]
      rfl
    · show (match a.resolveColumn qualifier name with
        | .ok c => some c.dataType
        | .error _ => none) = _
      rw [hc]
      rfl
  | case3 left op right ihl ihr =>
    obtain ⟨l, hl, hx⟩ := bind_ok.1 hx
    obtain ⟨r, hr, hx⟩ := bind_ok.1 hx
    cases hx
    refine ⟨fun row => ?_, ?_⟩
    · rw [Evaluation.rowValue, (ihl hl).1, (ihr hr).1]
      rfl
    · rw [typeOf, (ihl hl).2, (ihr hr).2]
      rfl
  | case4 op expr ih | case5 expr negated ih =>
    obtain ⟨inner, hinner, hx⟩ := bind_ok.1 hx
    cases hx
    refine ⟨fun row => ?_, rfl⟩
    rw [Evaluation.rowValue, (ih hinner).1]
    rfl
  | case6 name args =>
    rw [Analyzer.analyzeExpr] at hx
    obtain ⟨b, hb, hx⟩ := bind_ok.1 hx
    cases b with
    | none =>
      dsimp only at hx
      split at hx <;> cases hx
    | some y =>
      cases hx
      obtain ⟨hvalue, htype⟩ := builtin_some ev hb
      refine ⟨fun row => ?_, htype _⟩
      rw [Evaluation.rowValue, hvalue row]
      rfl
  | case7 n => cases hx

end Rows

/-! ## Expressions on the row of a group -/

/-- `substitute_now_in_select` on an aggregate. -/
def substituteNowInAgg (ts : Int64) (agg : AnalyzedAggregate) : AnalyzedAggregate :=
  ⟨agg.kind, agg.arg.map (substituteNow ts)⟩

/-- The operator an aggregation is built into. -/
def Evaluation.plan (ev : Evaluation) (agg : AnalyzedAggregation) : HashAggregate.Plan :=
  ⟨agg.groupKeys.map (substituteNow ev.now), agg.aggregates.map (substituteNowInAgg ev.now), ev.build,
    ev.f64, ev.arith⟩

/-- The row the operator puts out for a group. -/
def Evaluation.groupRow (ev : Evaluation) (key : Row) (ss : List AggState) : Row :=
  key ++ ss.map (AggState.finalize ev.f64)

/-- A group of rows with its key and its accumulators. -/
structure IsGroup (ev : Evaluation) (agg : AnalyzedAggregation) (key : Row) (rows : List Row)
    (ss : List AggState) : Prop where
  keys : ∀ row ∈ rows, (ev.plan agg).keyOf row = .ok key
  length : key.length = agg.groupKeys.length
  nonempty : rows ≠ [] ∨ agg.groupKeys = []
  states : (ev.plan agg).Columns rows ss

/-- The rewritten expression has the value on the row of every group, whatever aggregates are
collected after `aggs`. -/
def Faithful (ev : Evaluation) (groupKeys : List AnalyzedExpr) (aggs : List AnalyzedAggregate)
    (x : AnalyzedExpr) (value : List Row → Except DbError Value) : Prop :=
  ∀ more key rows ss, IsGroup ev ⟨groupKeys, aggs ++ more⟩ key rows ss →
    evaluateExpr ev.arith (ev.groupRow key ss) (substituteNow ev.now x) = value rows

section Groups

variable {ev : Evaluation} {a : Analyzer} {groupKeys : List AnalyzedExpr}
  {aggs aggs' : List AnalyzedAggregate} {e : Expr} {x : AnalyzedExpr}
  {value : List Row → Except DbError Value}

theorem Faithful.mono (h : Faithful ev groupKeys aggs x value) (hle : aggs <+: aggs') :
    Faithful ev groupKeys aggs' x value := by
  obtain ⟨more, rfl⟩ := hle
  intro more' key rows ss hgroup
  rw [List.append_assoc] at hgroup
  exact h _ key rows ss hgroup

/-- A key that is the same expression as a column is that column. -/
theorem sameExpr_columnRef {c : AnalyzedColumnRef} (h : sameExpr x (.columnRef c) = true) :
    ∃ c', x = .columnRef c' ∧ c'.columnIndex = c.columnIndex := by
  cases x with
  | columnRef c' => exact ⟨c', rfl, of_decide_eq_true h⟩
  | literal l | binaryOp l op r ty | unaryOp op e ty | isNull e negated | now
  | sequenceCall => cases h

/-- The rows of a group agree on its keys. -/
theorem IsGroup.key_at {agg : AnalyzedAggregation} {key : Row} {rows : List Row} {ss : List AggState}
    (h : IsGroup ev agg key rows ss) {pos : Nat} {gk : AnalyzedExpr}
    (hpos : agg.groupKeys[pos]? = some gk) {row : Row} (hrow : row ∈ rows) :
    ∃ v, key[pos]? = some v ∧ evaluateExpr ev.arith row (substituteNow ev.now gk) = .ok v := by
  have hkey := forall₂_of_mapM (h.keys row hrow)
  obtain ⟨hlen, hall⟩ := List.forall₂_iff_get.1 hkey
  have hlt : pos < agg.groupKeys.length := (List.getElem?_eq_some_iff.1 hpos).1
  have hlt' : pos < (ev.plan agg).groupKeys.length := by
    show pos < (agg.groupKeys.map _).length
    rwa [List.length_map]
  have hltk : pos < key.length := h.length ▸ hlt
  refine ⟨key[pos], List.getElem?_eq_getElem hltk, ?_⟩
  have hv := hall pos hltk hlt'
  rw [List.get_eq_getElem, List.get_eq_getElem] at hv
  have hgk : (ev.plan agg).groupKeys[pos] = substituteNow ev.now gk := by
    have hmapped : pos < (agg.groupKeys.map (substituteNow ev.now)).length := by
      rwa [List.length_map]
    show (agg.groupKeys.map (substituteNow ev.now))[pos] = _
    rw [List.getElem_map, (List.getElem?_eq_some_iff.1 hpos).2]
  rwa [hgk] at hv

theorem evaluate_groupRow_key {key : Row} {ss : List AggState} {pos : Nat} {v : Value} {t : DataType}
    (h : key[pos]? = some v) :
    evaluateExpr ev.arith (ev.groupRow key ss) (.columnRef ⟨pos, t⟩) = .ok v := by
  show Except.ok ((ev.groupRow key ss).getD pos .null) = _
  rw [Evaluation.groupRow, List.getD_eq_getElem?_getD,
    List.getElem?_append_left (List.getElem?_eq_some_iff.1 h).1, h]
  rfl

theorem evaluate_groupRow_agg {key : Row} {ss : List AggState} {i : Nat} {s : AggState} {t : DataType}
    (h : ss[i]? = some s) :
    evaluateExpr ev.arith (ev.groupRow key ss) (.columnRef ⟨key.length + i, t⟩) =
      .ok (s.finalize ev.f64) := by
  show Except.ok ((ev.groupRow key ss).getD (key.length + i) .null) = _
  rw [Evaluation.groupRow, List.getD_eq_getElem?_getD,
    List.getElem?_append_right (Nat.le_add_right _ _), Nat.add_sub_cancel_left, List.getElem?_map, h]
  rfl

/-- A grouped column is what the rows of the group have in common. -/
theorem faithful_column {qualifier : Option String} {name : String} {c : AnalyzedColumnRef}
    {pos : Nat} (hc : a.resolveColumn qualifier name = .ok c)
    (hpos : groupKeys.findIdx? (sameExpr · (.columnRef c)) = some pos) :
    Faithful ev groupKeys aggs (.columnRef ⟨pos, c.dataType⟩) fun rows =>
      common (columns a) rows qualifier name := by
  intro more key rows ss hgroup
  obtain ⟨hlt, hsame, -⟩ := List.findIdx?_eq_some_iff_getElem.1 hpos
  obtain ⟨c', hgk, hindex⟩ := sameExpr_columnRef hsame
  have hget : groupKeys[pos]? = some (.columnRef c') := by rw [List.getElem?_eq_getElem hlt, hgk]
  cases rows with
  | nil =>
    rcases hgroup.nonempty with h | h
    · exact absurd rfl h
    · have hnil : groupKeys = [] := h
      rw [hnil] at hlt
      exact absurd hlt (Nat.not_lt_zero pos)
  | cons row rows =>
    obtain ⟨v, hv, heval⟩ := hgroup.key_at hget List.mem_cons_self
    have hcol : row.getD c.columnIndex .null = v := by
      rw [← hindex]
      exact Except.ok.inj heval
    show evaluateExpr _ _ (.columnRef _) = (do let c ← a.resolveColumn qualifier name; return _)
    rw [evaluate_groupRow_key hv, hc]
    exact congrArg Except.ok hcol.symm

theorem substituteNow_dataType (ts : Int64) (x : AnalyzedExpr) :
    (substituteNow ts x).dataType = x.dataType := by
  cases x <;> rfl

theorem init_substituteNow (ts : Int64) (kind : AggKind) (arg : Option AnalyzedExpr) :
    AggState.init (substituteNowInAgg ts ⟨kind, arg⟩) =
      startState kind (arg.bind AnalyzedExpr.dataType) := by
  have htype : (arg.map (substituteNow ts)).bind AnalyzedExpr.dataType =
      arg.bind AnalyzedExpr.dataType := by
    cases arg with
    | none => rfl
    | some x => exact substituteNow_dataType ts x
  unfold AggState.init substituteNowInAgg startState
  cases kind <;> simp only [htype]

/-- The fold of the operator is the reference's. -/
theorem aggregate_eq {agg : AnalyzedAggregation} {kind : AggKind} {arg : Option AnalyzedExpr}
    {rows : List Row} {s : AggState}
    (hs : (ev.plan agg).column (substituteNowInAgg ev.now ⟨kind, arg⟩) rows = .ok s) :
    ev.aggregate kind (arg.bind AnalyzedExpr.dataType)
      (arg.map fun x row => evaluateExpr ev.arith row (substituteNow ev.now x)) rows =
      .ok (s.finalize ev.f64) := by
  have hfold : ev.aggregate kind (arg.bind AnalyzedExpr.dataType)
      (arg.map fun x row => evaluateExpr ev.arith row (substituteNow ev.now x)) rows = (do
        let s ← rows.foldlM (fun s row =>
          (ev.plan agg).feed (substituteNowInAgg ev.now ⟨kind, arg⟩) row s)
          (startState kind (arg.bind AnalyzedExpr.dataType))
        return s.finalize ev.f64) := by
    cases arg <;> rfl
  unfold HashAggregate.Plan.column at hs
  rw [init_substituteNow] at hs
  rw [hfold, hs]
  rfl

/-- What an accepted aggregate call folds. -/
theorem aggregateCall_eq {name : String} {args : Option (List Expr)} {kind : AggKind}
    {arg : Option AnalyzedExpr} (hkind : aggKindFromName name = some kind)
    (harg : analyzeAggArg a name kind args = .ok arg) (rows : List Row) :
    ev.aggregateCall (columns a) rows name args =
      ev.aggregate kind (arg.bind AnalyzedExpr.dataType)
        (arg.map fun x row => evaluateExpr ev.arith row (substituteNow ev.now x)) rows := by
  unfold Evaluation.aggregateCall
  rw [hkind]
  match args, harg with
  | none, harg =>
    cases kind <;> cases harg
    rfl
  | some [], harg =>
    cases kind <;> cases harg
  | some [e], harg =>
    have hanalyzed : ∃ x, a.analyzeExpr e = .ok x ∧ arg = some x := by
      unfold analyzeAggArg at harg
      cases kind <;>
      · dsimp only at harg
        split at harg
        · cases harg
        · obtain ⟨x, hx, harg⟩ := bind_ok.1 harg
          cases harg
          exact ⟨x, hx, rfl⟩
    obtain ⟨x, hx, rfl⟩ := hanalyzed
    obtain ⟨hvalue, htype⟩ := rowValue_analyzed ev hx
    dsimp only
    rw [htype, Option.bind_some, Option.map_some]
    simp only [hvalue]
  | some (e₁ :: e₂ :: es), harg =>
    cases kind <;> cases harg

/-- An aggregate call is the result at the place it was given. -/
theorem faithful_aggregate {name : String} {args : Option (List Expr)} {kind : AggKind}
    {arg : Option AnalyzedExpr} {t : DataType} (hbuiltin : a.analyzeScalarBuiltin name args = .ok none)
    (hkind : aggKindFromName name = some kind) (harg : analyzeAggArg a name kind args = .ok arg) :
    Faithful ev groupKeys (aggs ++ [⟨kind, arg⟩])
      (.columnRef ⟨groupKeys.length + aggs.length, t⟩) fun rows =>
        ev.groupValue (columns a) (common (columns a) rows) rows (.funcCall name args) := by
  intro more key rows ss hgroup
  have hall := hgroup.states
  unfold HashAggregate.Plan.Columns at hall
  obtain ⟨hlen, hcol⟩ := List.forall₂_iff_get.1 hall
  have hget : (ev.plan ⟨groupKeys, aggs ++ [⟨kind, arg⟩] ++ more⟩).aggregates[aggs.length]? =
      some (substituteNowInAgg ev.now ⟨kind, arg⟩) := by
    show ((aggs ++ [AnalyzedAggregate.mk kind arg] ++ more).map _)[aggs.length]? = _
    rw [List.getElem?_map, List.append_assoc, List.getElem?_append_right (Nat.le_refl _), Nat.sub_self]
    rfl
  obtain ⟨hlt, hagg⟩ := List.getElem?_eq_some_iff.1 hget
  have hs := hcol aggs.length hlt (hlen ▸ hlt)
  rw [List.get_eq_getElem, List.get_eq_getElem, hagg] at hs
  show evaluateExpr _ _ (.columnRef _) = (ev.builtin name).getD _
  rw [builtin_none ev hbuiltin, Option.getD_none, aggregateCall_eq hkind harg, aggregate_eq hs]
  have hklen : key.length = groupKeys.length := hgroup.length
  rw [← hklen]
  exact evaluate_groupRow_agg (List.getElem?_eq_getElem (hlen ▸ hlt))

theorem funcCall_faithful {name : String} {args : Option (List Expr)}
    (hx : analyzePostAgg a groupKeys (.funcCall name args) aggs = .ok (x, aggs')) :
    aggs <+: aggs' ∧ Faithful ev groupKeys aggs' x fun rows =>
      ev.groupValue (columns a) (common (columns a) rows) rows (.funcCall name args) := by
  rw [analyzePostAgg] at hx
  obtain ⟨b, hb, hx⟩ := bind_ok.1 hx
  cases b with
  | some y =>
    cases hx
    refine ⟨List.prefix_refl _, fun more key rows ss _ => ?_⟩
    show _ = (ev.builtin name).getD _
    rw [(builtin_some ev hb).1 (ev.groupRow key ss), Option.getD_some]
  | none =>
    cases hkind : aggKindFromName name with
    | none =>
      rw [hkind] at hx
      cases hx
    | some kind =>
      rw [hkind] at hx
      obtain ⟨arg, harg, hx⟩ := bind_ok.1 hx
      obtain ⟨t, -, hx⟩ := bind_ok.1 hx
      cases hx
      exact ⟨List.prefix_append _ _, faithful_aggregate hb hkind harg⟩

/-- **The rewrite is faithful**: what it returns has the value of the expression on the row of
every group, and keeps it when more aggregates are collected. -/
theorem postAgg_faithful (ev : Evaluation) (hx : analyzePostAgg a groupKeys e aggs = .ok (x, aggs')) :
    aggs <+: aggs' ∧ Faithful ev groupKeys aggs' x fun rows =>
      ev.groupValue (columns a) (common (columns a) rows) rows e := by
  induction e using Expr.inductionOn generalizing x aggs aggs' with
  | literal l =>
    cases hx
    exact ⟨List.prefix_refl _, fun _ _ _ _ _ => rfl⟩
  | column q name =>
    obtain ⟨c, hc, hx⟩ := bind_ok.1 hx
    split at hx
    · cases hx
    · next pos hpos =>
      cases hx
      exact ⟨List.prefix_refl _, faithful_column hc hpos⟩
  | binaryOp l op r ihl ihr =>
    obtain ⟨⟨x₁, aggs₁⟩, hl, hx⟩ := bind_ok.1 hx
    obtain ⟨⟨x₂, aggs₂⟩, hr, hx⟩ := bind_ok.1 hx
    cases hx
    obtain ⟨hle₁, hf₁⟩ := ihl hl
    obtain ⟨hle₂, hf₂⟩ := ihr hr
    refine ⟨hle₁.trans hle₂, fun more key rows ss hgroup => ?_⟩
    have hleft := hf₁.mono hle₂ more key rows ss hgroup
    have hright := hf₂ more key rows ss hgroup
    simp only [substituteNow, evaluateExpr, Evaluation.groupValue, hleft, hright]
  | unaryOp op e ih | isNull e negated ih =>
    obtain ⟨⟨x₁, aggs₁⟩, hinner, hx⟩ := bind_ok.1 hx
    cases hx
    obtain ⟨hle, hf⟩ := ih hinner
    refine ⟨hle, fun more key rows ss hgroup => ?_⟩
    simp only [substituteNow, evaluateExpr, Evaluation.groupValue, hf more key rows ss hgroup]
  | star name => exact funcCall_faithful hx
  | funcCall name es ih => exact funcCall_faithful hx
  | param n => cases hx

/-- The value of an item or of HAVING on a group. -/
def Evaluation.onGroup (ev : Evaluation) (a : Analyzer) (e : Expr) (rows : List Row) :
    Except DbError Value :=
  ev.groupValue (columns a) (common (columns a) rows) rows e

/-- The value of an ORDER BY expression on a group. -/
def Evaluation.orderOnGroup (ev : Evaluation) (a : Analyzer) (aliases : List (String × Expr))
    (e : Expr) (rows : List Row) : Except DbError Value :=
  ev.groupValue (ev.aliased (columns a) aliases) (ev.aliasedCol (columns a) aliases rows) rows e

theorem postAggItems_faithful (ev : Evaluation) : ∀ {cols : List SelectColumn} {aggs aggs' : List AnalyzedAggregate}
    {items : List AnalyzedSelectItem}, postAggItems a groupKeys cols aggs = .ok (items, aggs') →
      aggs <+: aggs' ∧ List.Forall₂ (fun c item => ∃ e, c = .expr e item.aliasName ∧
        Faithful ev groupKeys aggs' item.expr (ev.onGroup a e)) cols items
  | [], _, _, _, h => by
    cases h
    exact ⟨List.prefix_refl _, .nil⟩
  | .asterisk :: _, _, _, _, h => by cases h
  | .expr e aliasName :: cols, _, _, _, h => by
    obtain ⟨⟨x, aggs₁⟩, hx, h⟩ := bind_ok.1 h
    obtain ⟨⟨items, aggs₂⟩, hitems, h⟩ := bind_ok.1 h
    cases h
    obtain ⟨hle₁, hf⟩ := postAgg_faithful ev hx
    obtain ⟨hle₂, hall⟩ := postAggItems_faithful ev hitems
    exact ⟨hle₁.trans hle₂, .cons ⟨e, rfl, hf.mono hle₂⟩ hall⟩

theorem postAggHaving_faithful (ev : Evaluation) {having : Option Expr} {having' : Option AnalyzedExpr}
    (h : postAggHaving a groupKeys having aggs = .ok (having', aggs')) :
    aggs <+: aggs' ∧ List.Forall₂ (fun e x => Faithful ev groupKeys aggs' x (ev.onGroup a e))
      having.toList having'.toList := by
  cases having with
  | none =>
    cases h
    exact ⟨List.prefix_refl _, .nil⟩
  | some e =>
    obtain ⟨⟨x, aggs₁⟩, hx, h⟩ := bind_ok.1 h
    obtain ⟨x', hx', h⟩ := bind_ok.1 h
    cases h
    unfold checkBool at hx'
    split at hx'
    · cases hx'
      obtain ⟨hle, hf⟩ := postAgg_faithful ev hx
      exact ⟨hle, .cons hf .nil⟩
    · cases hx'

theorem postAggOrderBy_faithful (ev : Evaluation) {aliases : List (String × Expr)} : ∀ {obs : List Ast.OrderBy}
    {aggs aggs' : List AnalyzedAggregate} {keys : List Sort.SortKey},
    postAggOrderBy a groupKeys aliases obs aggs = .ok (keys, aggs') →
      aggs <+: aggs' ∧ List.Forall₂ (fun ob key => key.dir = ob.dir ∧
        Faithful ev groupKeys aggs' key.expr (ev.orderOnGroup a aliases ob.expr)) obs keys
  | [], _, _, _, h => by
    cases h
    exact ⟨List.prefix_refl _, .nil⟩
  | ob :: obs, _, _, _, h => by
    obtain ⟨⟨x, aggs₁⟩, hx, h⟩ := bind_ok.1 h
    obtain ⟨⟨keys, aggs₂⟩, hkeys, h⟩ := bind_ok.1 h
    cases h
    obtain ⟨hle₁, hf⟩ := postAgg_faithful ev hx
    obtain ⟨hle₂, hall⟩ := postAggOrderBy_faithful ev hkeys
    refine ⟨hle₁.trans hle₂, .cons ⟨rfl, ?_⟩ hall⟩
    have horder : ev.orderOnGroup a aliases ob.expr = fun rows => ev.groupValue (columns a)
        (common (columns a) rows) rows (substituteAliases aliases ob.expr) := by
      funext rows
      exact (groupValue_substituteAliases ev (columns a) aliases rows ob.expr).symm
    rw [horder]
    exact hf.mono hle₂

end Groups

/-! ## The statement -/

/-- The expressions of a statement on the row of a group. -/
structure Keeps (ev : Evaluation) (s : SelectStatement) (an : AnalyzedSelectStatement)
    (agg : AnalyzedAggregation) (group : List Row) (row : Row) : Prop where
  items : List.Forall₂ (fun c item => ∃ e, c = .expr e item.aliasName ∧
    evaluateExpr ev.arith row (substituteNow ev.now item.expr) =
      ev.onGroup an.scope.analyzer e group) s.columns an.selectItems
  having : List.Forall₂ (fun e x => evaluateExpr ev.arith row (substituteNow ev.now x) =
    ev.onGroup an.scope.analyzer e group) s.having.toList an.having.toList
  orderBy : List.Forall₂ (fun ob key => key.dir = ob.dir ∧
    evaluateExpr ev.arith row (substituteNow ev.now key.expr) =
      ev.orderOnGroup an.scope.analyzer (selectAliasMap s.columns) ob.expr group) s.orderBy an.orderBy
  common : ∀ qualifier name c, an.scope.analyzer.resolveColumn qualifier name = .ok c →
    (∃ gk ∈ agg.groupKeys, sameExpr gk (.columnRef c)) →
    ∀ r ∈ group, (columns an.scope.analyzer).value qualifier name r =
      Select.common (columns an.scope.analyzer) group qualifier name

section Statement

variable {cat : Tables} {findSequence : String → Except DbError Bool} {s : SelectStatement}
  {an : AnalyzedSelectStatement} {agg : AnalyzedAggregation} {ev : Evaluation}

/-- The lists of a statement that were analyzed. -/
theorem aggregated_faithful (h : analyzeSelect cat findSequence s = .ok an)
    (hagg : an.aggregation = some agg) (ev : Evaluation) :
    List.Forall₂ (fun c item => ∃ e, c = .expr e item.aliasName ∧
        Faithful ev agg.groupKeys agg.aggregates item.expr (ev.onGroup an.scope.analyzer e))
      s.columns an.selectItems ∧
    List.Forall₂ (fun e x => Faithful ev agg.groupKeys agg.aggregates x
      (ev.onGroup an.scope.analyzer e)) s.having.toList an.having.toList ∧
    List.Forall₂ (fun ob key => key.dir = ob.dir ∧ Faithful ev agg.groupKeys agg.aggregates key.expr
      (ev.orderOnGroup an.scope.analyzer (selectAliasMap s.columns) ob.expr)) s.orderBy an.orderBy := by
  obtain ⟨out, hout, haggs, hitems, hhaving, horder⟩ := analyzeSelect_aggregated h hagg
  obtain ⟨groupKeys, aggregates⟩ := agg
  obtain ⟨⟨items, aggs₁⟩, h₁, hout⟩ := bind_ok.1 hout
  obtain ⟨⟨having, aggs₂⟩, h₂, hout⟩ := bind_ok.1 hout
  obtain ⟨⟨orderBy, aggs₃⟩, h₃, hout⟩ := bind_ok.1 hout
  cases hout
  cases Option.some.inj haggs
  dsimp only at hitems hhaving horder
  rw [← hitems, ← hhaving, ← horder]
  obtain ⟨-, hf₁⟩ := postAggItems_faithful ev h₁
  obtain ⟨hle₂, hf₂⟩ := postAggHaving_faithful ev h₂
  obtain ⟨hle₃, hf₃⟩ := postAggOrderBy_faithful ev h₃
  refine ⟨hf₁.imp fun c item hc => ?_, hf₂.imp fun e x hx => hx.mono hle₃, hf₃⟩
  obtain ⟨e, he, hf⟩ := hc
  exact ⟨e, he, hf.mono (hle₂.trans hle₃)⟩

theorem IsGroup.keeps (h : analyzeSelect cat findSequence s = .ok an)
    (hagg : an.aggregation = some agg) {key : Row} {rows : List Row} {ss : List AggState}
    (hgroup : IsGroup ev agg key rows ss) : Keeps ev s an agg rows (ev.groupRow key ss) := by
  obtain ⟨hitems, hhaving, horder⟩ := aggregated_faithful h hagg ev
  have happly : ∀ {x : AnalyzedExpr} {value : List Row → Except DbError Value},
      Faithful ev agg.groupKeys agg.aggregates x value →
      evaluateExpr ev.arith (ev.groupRow key ss) (substituteNow ev.now x) = value rows := by
    intro x value hf
    refine hf [] key rows ss ?_
    rw [List.append_nil]
    exact hgroup
  refine ⟨hitems.imp fun c item hc => ?_, hhaving.imp fun e x hx => happly hx,
    horder.imp fun ob key hob => ⟨hob.1, happly hob.2⟩, fun q name c hc hgk r hr => ?_⟩
  · obtain ⟨e, he, hf⟩ := hc
    exact ⟨e, he, happly hf⟩
  · obtain ⟨gk, hmem, hsame⟩ := hgk
    obtain ⟨c', rfl, hindex⟩ := sameExpr_columnRef hsame
    obtain ⟨pos, hlt, hget⟩ := List.getElem_of_mem hmem
    have hpos : agg.groupKeys[pos]? = some (.columnRef c') := by
      rw [List.getElem?_eq_getElem hlt, hget]
    -- both rows have the key's value there
    have hvalue : ∀ r ∈ rows, ∃ v, key[pos]? = some v ∧
        (columns an.scope.analyzer).value q name r = .ok v := by
      intro r hr
      obtain ⟨v, hv, heval⟩ := hgroup.key_at hpos hr
      refine ⟨v, hv, ?_⟩
      show (do let c ← an.scope.analyzer.resolveColumn q name; return _) = _
      rw [hc, ← heval]
      show Except.ok (r.getD c.columnIndex .null) = Except.ok (r.getD c'.columnIndex .null)
      rw [hindex]
    cases rows with
    | nil => cases hr
    | cons first rest =>
      obtain ⟨v, hv, hrv⟩ := hvalue r hr
      obtain ⟨w, hw, hfirst⟩ := hvalue first List.mem_cons_self
      rw [hv] at hw
      cases hw
      rw [hrv]
      exact hfirst.symm

/-- The groups of the operator. -/
theorem isGroup_of_grouped {rows ks : List Row} (hks : rows.mapM (ev.plan agg).keyOf = .ok ks)
    {key : Row} (hkey : key ∈ (ev.plan agg).distinctKeys ks rows) {ss : List AggState}
    (hss : (ev.plan agg).Columns (rowsWith ks rows key) ss) :
    IsGroup ev agg key (rowsWith ks rows key) ss := by
  have hzip := forall₂_of_mapM hks
  have hrows : ∀ row ∈ rowsWith ks rows key, (ev.plan agg).keyOf row = .ok key := by
    intro row hrow
    obtain ⟨⟨k, r⟩, hfilter, rfl⟩ := List.mem_map.1 hrow
    obtain ⟨hmem, heq⟩ := List.mem_filter.1 hfilter
    rw [← eq_of_beq heq]
    exact (List.forall₂_iff_zip.1 hzip).2 hmem
  have hkeys : (ev.plan agg).groupKeys.length = agg.groupKeys.length := List.length_map _
  unfold HashAggregate.Plan.distinctKeys at hkey
  split at hkey
  · next hone =>
    have hnil : agg.groupKeys = [] := List.map_eq_nil_iff.1 hone.2.1
    cases List.mem_singleton.1 hkey
    exact ⟨hrows, by rw [hnil]; rfl, Or.inr hnil, hss⟩
  · have hmem : key ∈ ks := List.mem_eraseDups.1 hkey
    obtain ⟨row, -, hrow⟩ := HashAggregate.mem_of_mapM hks hmem
    have hlen : key.length = agg.groupKeys.length := (HashAggregate.length_of_mapM hrow).trans hkeys
    refine ⟨hrows, hlen, Or.inl ?_, hss⟩
    -- the key came from a row
    obtain ⟨i, hi, rfl⟩ := List.getElem_of_mem hmem
    have hi' : i < rows.length := hzip.length_eq ▸ hi
    have hzipped : (ks[i], rows[i]) ∈ ks.zip rows := by
      refine List.mem_of_getElem? (i := i) ?_
      rw [List.getElem?_zip_eq_some]
      exact ⟨List.getElem?_eq_getElem hi, List.getElem?_eq_getElem hi'⟩
    have hin : rows[i] ∈ rowsWith ks rows ks[i] :=
      List.mem_map.2 ⟨(ks[i], rows[i]), List.mem_filter.2 ⟨hzipped, beq_self_eq_true _⟩, rfl⟩
    exact List.ne_nil_of_mem hin

/-- **The aggregation rewrite keeps the meaning of expressions.** Over any child, with keys that
are not DOUBLE, the operator puts out a row for each group, and on it every rewritten expression
has the value of the original one on the group. -/
theorem aggregation_keeps_meaning (h : analyzeSelect cat findSequence s = .ok an)
    (hagg : an.aggregation = some agg) (ev : Evaluation) {σ : Type} {child : Executor σ}
    {rows out : List Row} {s₀ : σ} {left : List Row → σ → Prop}
    (hchild : Delivers child rows s₀ left)
    (hkeys : ∀ row ∈ rows, ∀ k, (ev.plan agg).keyOf row = .ok k → NoDouble k)
    (hout : (ev.plan agg).Ends child s₀ (.ok out)) :
    ∃ ks, rows.mapM (ev.plan agg).keyOf = .ok ks ∧
      List.Forall₂ (fun key row =>
        (∃ ss, (ev.plan agg).Columns (rowsWith ks rows key) ss ∧ row = ev.groupRow key ss) ∧
          Keeps ev s an agg (rowsWith ks rows key) row)
        ((ev.plan agg).distinctKeys ks rows) out := by
  obtain ⟨ks, hks, hgrouped⟩ := (HashAggregate.yields_iff_grouped hchild hkeys).1 hout
  refine ⟨ks, hks, ?_⟩
  unfold HashAggregate.Plan.Grouped at hgrouped
  rw [List.forall₂_iff_zip] at hgrouped ⊢
  refine ⟨hgrouped.1, fun {key row} hmem => ?_⟩
  obtain ⟨ss, hss, hrow⟩ := hgrouped.2 hmem
  have hgroup := isGroup_of_grouped hks (List.of_mem_zip hmem).1 hss
  rw [hrow]
  exact ⟨⟨ss, hss, rfl⟩, hgroup.keeps h hagg⟩

end Statement

deriving instance DecidableEq for HashAggregate.AnalyzedAggregate
deriving instance DecidableEq for AnalyzedAggregation

/-- `SELECT a AS x, COUNT(*) FROM t GROUP BY a HAVING MAX(b) IS NOT NULL ORDER BY SUM(a) + x`. -/
def countByA : SelectStatement where
  columns := [.expr (.column none "a") (some "x"), .expr (.funcCall "COUNT" none) none]
  fromClause := .table ⟨"t", none⟩
  whereClause := none
  groupBy := [.column none "a"]
  having := some (.isNull (.funcCall "MAX" (some [.column none "b"])) true)
  orderBy :=
    [⟨.binaryOp (.funcCall "SUM" (some [.column none "a"])) .add (.column none "x"), .asc⟩]
  limit := none
  distinct := false

def countByAAgg : AnalyzedAggregation :=
  ⟨[.columnRef ⟨0, .int⟩],
    [⟨.count, none⟩, ⟨.max, some (.columnRef ⟨1, .varchar⟩)⟩, ⟨.sum, some (.columnRef ⟨0, .int⟩)⟩]⟩

def plainEvaluation : Evaluation :=
  ⟨.debug, HashAggregate.noAggF64, arithmetic .debug noF64 chronoYears, 0⟩

theorem aggregation_keeps_meaning_countByA : ∃ an ks,
    an.aggregation = some countByAAgg ∧
    List.Forall₂ (fun key row =>
      (∃ ss, (plainEvaluation.plan countByAAgg).Columns
        (rowsWith ks [[.int 1, .varchar "p"], [.int 2, .null], [.int 1, .null]] key) ss ∧
        row = plainEvaluation.groupRow key ss) ∧
      Keeps plainEvaluation countByA an countByAAgg
        (rowsWith ks [[.int 1, .varchar "p"], [.int 2, .null], [.int 1, .null]] key) row)
      ((plainEvaluation.plan countByAAgg).distinctKeys ks
        [[.int 1, .varchar "p"], [.int 2, .null], [.int 1, .null]])
      [[.int 1, .int 2, .varchar "p", .int 2], [.int 2, .int 1, .null, .int 2]] := by
  have hok : (match analyzeSelect FromClause.oneTable (fun _ => .ok false) countByA with
      | .ok an => decide (an.aggregation = some countByAAgg)
      | .error _ => false) = true := by
    decide +kernel
  split at hok
  · next an han =>
    have hagg := of_decide_eq_true hok
    have hchild := delivers_listChild [[.int 1, .varchar "p"], [.int 2, .null], [.int 1, .null]] []
    have hrows : (plainEvaluation.plan countByAAgg).buildRows
        [[.int 1, .varchar "p"], [.int 2, .null], [.int 1, .null]] =
        .ok [[.int 1, .int 2, .varchar "p", .int 2], [.int 2, .int 1, .null, .int 2]] := by
      decide +kernel
    have hends := HashAggregate.ends_buildRows (p := plainEvaluation.plan countByAAgg) hchild
    rw [hrows] at hends
    obtain ⟨ks, -, hall⟩ := aggregation_keeps_meaning han hagg plainEvaluation hchild (by
      intro row hrow k hk v hv
      simp only [List.mem_cons, List.not_mem_nil, or_false] at hrow
      rcases hrow with rfl | rfl | rfl <;> cases hk <;> cases List.mem_singleton.1 hv <;> decide) hends
    exact ⟨an, ks, hagg, hall⟩
  · cases hok

end Ccdb.Select
