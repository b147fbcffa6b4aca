import Ccdb.Exec.Arithmetic
import Ccdb.Lib.Guarantee

/-!
# Ccdb — static and dynamic types of expressions

`analyze_expr` over any scopes, with the type each node is given, and `evaluate_expr`.
The analyzer keeps two tables of its own (`infer_binary_type`, `infer_unary_type`); it does
not look at whether the operands fit the operator. The catalog's sequences are a parameter,
as are the values the sequence calls of a statement return.

Main results:

* `analyzeExpr_typed` — what the analyzer returns is typed by its tables.
* `evaluateBinary_type` — the two tables agree on every pair of types an operator accepts.
* `type_preservation` — a value is NULL or of the type of its expression.
-/

namespace Ccdb

/-! ## Syntax and scopes -/

/-- `ast::Expr`. The literals are those of the analyzed expressions; no arguments is `f(*)`. -/
inductive Expr where
  | literal (l : LiteralValue)
  | column (qualifier : Option String) (name : String)
  | binaryOp (left : Expr) (op : BinaryOperator) (right : Expr)
  | unaryOp (op : UnaryOperator) (expr : Expr)
  | isNull (expr : Expr) (negated : Bool)
  | funcCall (name : String) (args : Option (List Expr))
  | param (n : Nat)

structure OutputColumn where
  name : String
  dataType : DataType

structure RangeTableEntry where
  outputColumns : List OutputColumn
  flatOffset : Nat

structure ScopeEntry where
  visibleName : String
  rteIndex : Nat

structure Analyzer where
  rangeTable : List RangeTableEntry
  scopes : List (List ScopeEntry)
  -- whether `Catalog::find_sequence` finds the name
  findSequence : String → Except DbError Bool

namespace Analyzer

variable (a : Analyzer)

/-- The inner scopes come first. -/
def entries : List ScopeEntry := a.scopes.reverse.flatten

/-- `self.range_table[entry.rte_index]`. -/
def rte (e : ScopeEntry) : Except DbError RangeTableEntry :=
  match a.rangeTable[e.rteIndex]? with
  | some r => .ok r
  | none => .error (.panic "index out of bounds")

end Analyzer

/-- The first column of the name, with its place in the row. -/
def RangeTableEntry.findColumn (r : RangeTableEntry) (name : String) : Option AnalyzedColumnRef :=
  (r.outputColumns.zipIdx.find? fun c => c.1.name == name).map fun c =>
    ⟨r.flatOffset + c.2, c.1.dataType⟩

namespace Analyzer

variable (a : Analyzer)

def resolveQualified (q name : String) : List ScopeEntry → Except DbError AnalyzedColumnRef
  | [] => .error (.bail s!"table or alias '{q}' not in scope")
  | e :: rest =>
    if e.visibleName ≠ q then resolveQualified q name rest
    else do
      let r ← a.rte e
      match r.findColumn name with
      | none => .error (.bail s!"column '{q}.{name}' not found")
      | some c => .ok c

def resolveUnqualified (name : String) :
    Option AnalyzedColumnRef → List ScopeEntry → Except DbError AnalyzedColumnRef
  | none, [] => .error (.bail s!"column '{name}' not found")
  | some c, [] => .ok c
  | hit, e :: rest => do
    let r ← a.rte e
    match r.findColumn name with
    | none => resolveUnqualified name hit rest
    | some c =>
      if hit.isSome then .error (.bail s!"column '{name}' is ambiguous")
      else resolveUnqualified name (some c) rest

/-- `resolve_column`. -/
def resolveColumn (qualifier : Option String) (name : String) : Except DbError AnalyzedColumnRef :=
  match qualifier with
  | some q => a.resolveQualified q name a.entries
  | none => a.resolveUnqualified name none a.entries

end Analyzer

deriving instance DecidableEq for AnalyzedExpr

/-! ## The analyzer's types -/

def LiteralValue.dataType : LiteralValue → Option DataType
  | .integer _ => some .int
  | .float _ => some .double
  | .string _ => some .varchar
  | .boolean _ => some .bool
  | .null => none
  | .timestamp _ => some .timestamp
  | .date _ => some .date
  | .time _ => some .time
  | .interval .. => some .interval

/-- `literal_to_analyzed`. -/
def literalToAnalyzed (l : LiteralValue) : AnalyzedLiteral := ⟨l, l.dataType⟩

/-- The arms of `infer_binary_type` for dates, times and intervals. -/
def temporalType (op : BinaryOperator) : DataType → DataType → Option DataType
  | .date, .interval => if op = .add ∨ op = .sub then some .timestamp else none
  | .interval, .date => if op = .add then some .timestamp else none
  | .date, .int => if op = .add ∨ op = .sub then some .date else none
  | .int, .date => if op = .add then some .date else none
  | .date, .date => if op = .sub then some .int else none
  | .timestamp, .interval => if op = .add ∨ op = .sub then some .timestamp else none
  | .interval, .timestamp => if op = .add then some .timestamp else none
  | .timestamp, .timestamp => if op = .sub then some .interval else none
  | .interval, .interval => if op = .add ∨ op = .sub then some .interval else none
  | .interval, .int | .interval, .double => if op = .mul ∨ op = .div then some .interval else none
  | .int, .interval | .double, .interval => if op = .mul then some .interval else none
  | .time, .interval => if op = .add ∨ op = .sub then some .time else none
  | .interval, .time => if op = .add then some .time else none
  | _, _ => none

/-- `infer_binary_type`. -/
def inferBinaryType (op : BinaryOperator) (left right : Option DataType) : DataType :=
  if op.isArithmetic then
    match left.bind fun l => right.bind fun r => temporalType op l r with
    | some t => t
    | none => if left = some .double ∨ right = some .double then .double else .int
  else .bool

/-- `infer_unary_type`. -/
def inferUnaryType : UnaryOperator → DataType
  | .not => .bool
  | .neg => .int

/-! ## The analyzer -/

def extractStringLiteral : Expr → Except DbError String
  | .literal (.string s) => .ok s
  | _ => .error (.bail "expected string literal")

def extractIntLiteral : Expr → Except DbError Int64
  | .literal (.integer n) => .ok n
  | .unaryOp .neg (.literal (.integer n)) => .ok (-n)
  | _ => .error (.bail "expected integer literal")

def extractBoolLiteral : Expr → Except DbError Bool
  | .literal (.boolean b) => .ok b
  | _ => .error (.bail "expected boolean literal")

/-- The sequence a call names, from its arguments. -/
def sequenceName (kind : String) (most : List Nat) : List Expr → Except DbError String
  | [name] =>
    if 1 ∈ most then extractStringLiteral name
    else .error (.bail s!"{kind} expects 2 or 3 arg(s), got 1")
  | [name, n] =>
    if 2 ∈ most then do
      let s ← extractStringLiteral name
      let _ ← extractIntLiteral n
      return s
    else .error (.bail s!"{kind} expects 1 arg(s), got 2")
  | [name, n, called] =>
    if 3 ∈ most then do
      let s ← extractStringLiteral name
      let _ ← extractIntLiteral n
      let _ ← extractBoolLiteral called
      return s
    else .error (.bail s!"{kind} expects 1 arg(s), got 3")
  | es =>
    if 1 ∈ most then .error (.bail s!"{kind} expects 1 arg(s), got {es.length}")
    else .error (.bail s!"{kind} expects 2 or 3 arg(s), got {es.length}")

namespace Analyzer

variable (a : Analyzer)

/-- `analyze_sequence_call`; `arity` has the numbers of arguments of the kind. -/
def analyzeSequenceCall (kind : String) (arity : List Nat) (args : Option (List Expr)) :
    Except DbError (Option AnalyzedExpr) :=
  match args with
  | none => .error (.bail "nextval/setval do not take *")
  | some es => do
    let name ← sequenceName kind arity es
    if ← a.findSequence name then return some .sequenceCall
    else .error (.bail s!"sequence '{name}' not found")

/-- `analyze_scalar_builtin`. -/
def analyzeScalarBuiltin (name : String) (args : Option (List Expr)) :
    Except DbError (Option AnalyzedExpr) :=
  let lower := name.toLower
  if lower = "now" ∨ lower = "current_timestamp" ∨ lower = "transaction_timestamp" then
    match args with
    | none => .error (.bail s!"{lower}() does not take *")
    | some (_ :: _) => .error (.bail s!"{lower}() takes no arguments")
    | some [] => .ok (some .now)
  else if lower = "nextval" then a.analyzeSequenceCall "Nextval" [1] args
  else if lower = "setval" then a.analyzeSequenceCall "Setval" [2, 3] args
  else .ok none

/-- `AggKind::from_name(name).is_some()`. -/
def isAggregate (name : String) : Bool :=
  ["COUNT", "SUM", "AVG", "MIN", "MAX"].contains name.toUpper

/-- `analyze_expr`. -/
def analyzeExpr : Expr → Except DbError AnalyzedExpr
  | .literal l => .ok (.literal (literalToAnalyzed l))
  | .column qualifier name => do
    let c ← a.resolveColumn qualifier name
    return .columnRef c
  | .binaryOp left op right => do
    let l ← analyzeExpr left
    let r ← analyzeExpr right
    return .binaryOp l op r (inferBinaryType op l.dataType r.dataType)
  | .unaryOp op expr => do
    let inner ← analyzeExpr expr
    return .unaryOp op inner (inferUnaryType op)
  | .isNull expr negated => do
    let inner ← analyzeExpr expr
    return .isNull inner negated
  | .funcCall name args => do
    match ← a.analyzeScalarBuiltin name args with
    | some builtin => return builtin
    | none =>
      if isAggregate name then .error (.bail s!"aggregate '{name}' not allowed here")
      else .error (.bail s!"unknown function '{name}'")
  | .param n => .error (.bail s!"unbound parameter ${n} — Bind must replace it first")

end Analyzer

/-! ## Placeholders -/

/-- `substitute_now_in_expr`. -/
def substituteNow (ts : Int64) : AnalyzedExpr → AnalyzedExpr
  | .now => .literal ⟨.timestamp ts, some .timestamp⟩
  | .binaryOp left op right ty => .binaryOp (substituteNow ts left) op (substituteNow ts right) ty
  | .unaryOp op expr ty => .unaryOp op (substituteNow ts expr) ty
  | .isNull expr negated => .isNull (substituteNow ts expr) negated
  | e => e

/-- `evaluate_sequence_calls_in_expr`; `call` is `nextval` or `setval`. -/
def evaluateSequenceCalls {σ : Type} (call : EStateM DbError σ Int64) :
    AnalyzedExpr → EStateM DbError σ AnalyzedExpr
  | .sequenceCall => do
    let v ← call
    return .literal ⟨.integer v, some .int⟩
  | .binaryOp left op right ty => do
    let l ← evaluateSequenceCalls call left
    let r ← evaluateSequenceCalls call right
    return .binaryOp l op r ty
  | .unaryOp op expr ty => do
    let e ← evaluateSequenceCalls call expr
    return .unaryOp op e ty
  | .isNull expr negated => do
    let e ← evaluateSequenceCalls call expr
    return .isNull e negated
  | e => return e

/-! ## Typed expressions -/

/-- NULL or a value of the type. -/
def HasType (v : Value) (t : DataType) : Prop := v = .null ∨ v.dataType = some t

/-- The values of a row are of the types of the columns in scope. -/
def WellTyped (a : Analyzer) (row : List Value) : Prop :=
  ∀ r ∈ a.rangeTable, ∀ i c, r.outputColumns[i]? = some c →
    HasType (row.getD (r.flatOffset + i) .null) c.dataType

/-- The types of an analyzed expression are those of the analyzer's tables. -/
inductive Typed (row : List Value) : AnalyzedExpr → Prop where
  | literal (v : LiteralValue) : Typed row (.literal ⟨v, v.dataType⟩)
  | columnRef (c : AnalyzedColumnRef) (h : HasType (row.getD c.columnIndex .null) c.dataType) :
    Typed row (.columnRef c)
  | binaryOp {l r : AnalyzedExpr} (op : BinaryOperator) (hl : Typed row l) (hr : Typed row r) :
    Typed row (.binaryOp l op r (inferBinaryType op l.dataType r.dataType))
  | unaryOp {e : AnalyzedExpr} (op : UnaryOperator) (h : Typed row e) :
    Typed row (.unaryOp op e (inferUnaryType op))
  | isNull {e : AnalyzedExpr} (negated : Bool) (h : Typed row e) : Typed row (.isNull e negated)
  | now : Typed row .now
  | sequenceCall : Typed row .sequenceCall

section Analysis

variable {a : Analyzer} {row : List Value} {x x' : AnalyzedExpr} {c : AnalyzedColumnRef}

theorem findColumn_some {r : RangeTableEntry} {name : String} (h : r.findColumn name = some c) :
    ∃ i col, r.outputColumns[i]? = some col ∧ c = ⟨r.flatOffset + i, col.dataType⟩ := by
  obtain ⟨⟨col, i⟩, hfind, rfl⟩ := Option.map_eq_some_iff.1 h
  exact ⟨i, col, List.mem_zipIdx_iff_getElem?.1 (List.mem_of_find?_eq_some hfind), rfl⟩

theorem rte_ok {e : ScopeEntry} {r : RangeTableEntry} (h : a.rte e = .ok r) : r ∈ a.rangeTable := by
  unfold Analyzer.rte at h
  split at h
  · next hr =>
    cases h
    exact List.mem_of_getElem? hr
  · cases h

/-- A column that was found in a table of the scopes. -/
theorem WellTyped.column (h : WellTyped a row) {e : ScopeEntry} {r : RangeTableEntry} {name : String}
    (hr : a.rte e = .ok r) (hc : r.findColumn name = some c) :
    HasType (row.getD c.columnIndex .null) c.dataType := by
  obtain ⟨i, col, hcol, rfl⟩ := findColumn_some hc
  exact h r (rte_ok hr) i col hcol

theorem resolveQualified_typed (h : WellTyped a row) {q name : String} {es : List ScopeEntry}
    (hc : a.resolveQualified q name es = .ok c) : HasType (row.getD c.columnIndex .null) c.dataType := by
  induction es with
  | nil => cases hc
  | cons e rest ih =>
    rw [Analyzer.resolveQualified] at hc
    split at hc
    · exact ih hc
    · obtain ⟨r, hr, hc⟩ := bind_ok.1 hc
      cases hfind : r.findColumn name with
      | none =>
        rw [hfind] at hc
        cases hc
      | some col =>
        rw [hfind] at hc
        cases hc
        exact h.column hr hfind

theorem resolveUnqualified_typed (h : WellTyped a row) {name : String} {es : List ScopeEntry}
    {hit : Option AnalyzedColumnRef}
    (hhit : ∀ col ∈ hit, HasType (row.getD col.columnIndex .null) col.dataType)
    (hc : a.resolveUnqualified name hit es = .ok c) :
    HasType (row.getD c.columnIndex .null) c.dataType := by
  induction es generalizing hit with
  | nil =>
    cases hit with
    | none => cases hc
    | some col =>
      cases hc
      exact hhit c rfl
  | cons e rest ih =>
    rw [Analyzer.resolveUnqualified] at hc
    obtain ⟨r, hr, hc⟩ := bind_ok.1 hc
    cases hfind : r.findColumn name with
    | none =>
      rw [hfind] at hc
      exact ih hhit hc
    | some col =>
      rw [hfind] at hc
      dsimp only at hc
      split at hc
      · cases hc
      · refine ih (fun col' hcol' => ?_) hc
        cases hcol'
        exact h.column hr hfind

theorem resolveColumn_typed (h : WellTyped a row) {qualifier : Option String} {name : String}
    (hc : a.resolveColumn qualifier name = .ok c) :
    HasType (row.getD c.columnIndex .null) c.dataType := by
  cases qualifier with
  | some q => exact resolveQualified_typed h hc
  | none => exact resolveUnqualified_typed h (fun col hcol => by cases hcol) hc

/-- The builtins are placeholders. -/
theorem analyzeScalarBuiltin_some {name : String} {args : Option (List Expr)}
    (h : a.analyzeScalarBuiltin name args = .ok (some x)) : x = .now ∨ x = .sequenceCall := by
  have hcall : ∀ {kind : String} {arity : List Nat},
      a.analyzeSequenceCall kind arity args = .ok (some x) → x = .sequenceCall := by
    intro kind arity h
    unfold Analyzer.analyzeSequenceCall at h
    cases args with
    | none => cases h
    | some es =>
      obtain ⟨s, -, h⟩ := bind_ok.1 h
      obtain ⟨found, -, h⟩ := bind_ok.1 h
      split at h
      · cases h
        rfl
      · cases h
  simp only [Analyzer.analyzeScalarBuiltin] at h
  split at h
  · split at h
    · cases h
    · cases h
    · cases h
      exact Or.inl rfl
  · split at h
    · exact Or.inr (hcall h)
    · split at h
      · exact Or.inr (hcall h)
      · cases h

alias analyzeExpr_cases := Analyzer.analyzeExpr.induct

/-- **What the analyzer returns is typed.** -/
theorem analyzeExpr_typed (h : WellTyped a row) {e : Expr} (hx : a.analyzeExpr e = .ok x) :
    Typed row x := by
  induction e using analyzeExpr_cases generalizing x with
  | case1 l =>
    cases hx
    exact .literal l
  | case2 qualifier name =>
    obtain ⟨c, hc, hx⟩ := bind_ok.1 hx
    cases hx
    exact .columnRef c (resolveColumn_typed h hc)
  | case3 left op right ihl ihr =>
    obtain ⟨l, hl, hx⟩ := bind_ok.1 hx
    obtain ⟨r, hr, hx⟩ := bind_ok.1 hx
    cases hx
    exact .binaryOp op (ihl hl) (ihr hr)
  | case4 op expr ih =>
    obtain ⟨inner, hinner, hx⟩ := bind_ok.1 hx
    cases hx
    exact .unaryOp op (ih hinner)
  | case5 expr negated ih =>
    obtain ⟨inner, hinner, hx⟩ := bind_ok.1 hx
    cases hx
    exact .isNull negated (ih hinner)
  | case6 name args =>
    rw [Analyzer.analyzeExpr] at hx
    obtain ⟨builtin, hb, hx⟩ := bind_ok.1 hx
    cases builtin with
    | none =>
      dsimp only at hx
      split at hx <;> cases hx
    | some y =>
      cases hx
      rcases analyzeScalarBuiltin_some hb with rfl | rfl
      · exact .now
      · exact .sequenceCall
  | case7 n => cases hx

end Analysis

/-! ## Placeholders keep the types -/

section Placeholders

variable {row : List Value} {x x' : AnalyzedExpr}

theorem Typed.substituteNow (h : Typed row x) (ts : Int64) :
    Typed row (substituteNow ts x) ∧ (Ccdb.substituteNow ts x).dataType = x.dataType := by
  induction h with
  | literal v => exact ⟨.literal v, rfl⟩
  | columnRef c hc => exact ⟨.columnRef c hc, rfl⟩
  | binaryOp op _ _ ihl ihr =>
    refine ⟨?_, rfl⟩
    rw [Ccdb.substituteNow, ← ihl.2, ← ihr.2]
    exact .binaryOp op ihl.1 ihr.1
  | unaryOp op _ ih => exact ⟨.unaryOp op ih.1, rfl⟩
  | isNull negated _ ih => exact ⟨.isNull negated ih.1, rfl⟩
  | now => exact ⟨.literal (.timestamp ts), rfl⟩
  | sequenceCall => exact ⟨.sequenceCall, rfl⟩

theorem Typed.evaluateSequenceCalls {σ : Type} {call : EStateM DbError σ Int64} (h : Typed row x)
    {s s' : σ} (hx : evaluateSequenceCalls call x s = .ok x' s') :
    Typed row x' ∧ x'.dataType = x.dataType := by
  induction h generalizing x' s s' with
  | literal v =>
    cases hx
    exact ⟨.literal v, rfl⟩
  | columnRef c hc =>
    cases hx
    exact ⟨.columnRef c hc, rfl⟩
  | binaryOp op _ _ ihl ihr =>
    obtain ⟨l, s₁, hl, hx⟩ := EStateM.of_bind_ok hx
    obtain ⟨r, s₂, hr, hx⟩ := EStateM.of_bind_ok hx
    cases hx
    refine ⟨?_, rfl⟩
    rw [← (ihl hl).2, ← (ihr hr).2]
    exact .binaryOp op (ihl hl).1 (ihr hr).1
  | unaryOp op _ ih =>
    obtain ⟨e, s₁, he, hx⟩ := EStateM.of_bind_ok hx
    cases hx
    exact ⟨.unaryOp op (ih he).1, rfl⟩
  | isNull negated _ ih =>
    obtain ⟨e, s₁, he, hx⟩ := EStateM.of_bind_ok hx
    cases hx
    exact ⟨.isNull negated (ih he).1, rfl⟩
  | now =>
    cases hx
    exact ⟨.now, rfl⟩
  | sequenceCall =>
    obtain ⟨v, s₁, -, hx⟩ := EStateM.of_bind_ok hx
    cases hx
    exact ⟨.literal (.integer v), rfl⟩

end Placeholders

/-! ## Evaluation -/

section Evaluation

variable {b : Build} {f : F64Ops} {c : Chrono} {op : BinaryOperator} {l r v : Value}

theorem comparison_type {o : Option Ordering} {other : Except DbError Value}
    (h : comparison op o other = .ok v) :
    (op.isArithmetic = false ∧ v.dataType = some .bool) ∨ other = .ok v := by
  unfold comparison at h
  split at h
  · next b hb =>
    cases h
    refine Or.inl ⟨?_, rfl⟩
    cases op <;> first | rfl | cases hb
  · exact Or.inr h

/-- The analyzer's table says what the evaluator's arms return. -/
theorem inferBinaryType_of_result {tl tr t : DataType} (hop : op.isArithmetic = true)
    (h : resultType op tl tr = some t) : inferBinaryType op (some tl) (some tr) = t := by
  cases op <;> cases hop <;> cases tl <;> cases tr <;> cases h <;> rfl

theorem promote_type {l' r' : Value} (h : promote l r = (l', r')) :
    (l' = l ∧ r' = r) ∨ (l'.dataType = some .double ∧ r'.dataType = some .double ∧
      ((l.dataType = some .int ∧ r.dataType = some .double) ∨
        (l.dataType = some .double ∧ r.dataType = some .int))) := by
  unfold promote at h
  split at h
  · cases h
    exact Or.inr ⟨rfl, rfl, Or.inl ⟨rfl, rfl⟩⟩
  · cases h
    exact Or.inr ⟨rfl, rfl, Or.inr ⟨rfl, rfl⟩⟩
  · cases h
    exact Or.inl ⟨rfl, rfl⟩

theorem inferBinaryType_bool (hop : op.isArithmetic = false) (tl tr : Option DataType) :
    inferBinaryType op tl tr = .bool :=
  if_neg (by rw [hop]; exact Bool.false_ne_true)

/-- The operands that are not both DOUBLE have not been promoted. -/
theorem promote_other {l' r' : Value} (h : promote l r = (l', r'))
    (hne : l'.dataType ≠ some .double ∨ r'.dataType ≠ some .double) : l' = l ∧ r' = r := by
  rcases promote_type h with hsame | ⟨hl, hr, -⟩
  · exact hsame
  · rcases hne with hne | hne
    · exact absurd hl hne
    · exact absurd hr hne

theorem arithmetic_infer {l' r' : Value} (hp : promote l r = (l', r')) (hop : op.isArithmetic = true)
    (h : arithmetic b f c op l' r' = .ok v) :
    v.dataType = some (inferBinaryType op l.dataType r.dataType) := by
  obtain ⟨tl, tr, t, htl, htr, ht, hresult⟩ := arithmetic_type h
  rw [ht]
  rcases promote_type hp with ⟨rfl, rfl⟩ | ⟨hl, hr, htypes⟩
  · rw [htl, htr, inferBinaryType_of_result hop hresult]
  · -- a promoted operand is DOUBLE for the evaluator and INT for the analyzer
    rw [hl] at htl
    rw [hr] at htr
    cases htl
    cases htr
    cases hresult
    rcases htypes with ⟨hl', hr'⟩ | ⟨hl', hr'⟩
    · rw [hl', hr']
      cases op <;> cases hop <;> rfl
    · rw [hl', hr']
      cases op <;> cases hop <;> rfl

/-- A comparison, or the other operators of a type. -/
theorem comparison_infer {o : Option Ordering} {other : Except DbError Value}
    (h : comparison op o other = .ok v)
    (hother : other = .ok v → v.dataType = some (inferBinaryType op l.dataType r.dataType)) :
    v.dataType = some (inferBinaryType op l.dataType r.dataType) := by
  rcases comparison_type h with ⟨hop, hbool⟩ | h
  · rw [inferBinaryType_bool hop]
    exact hbool
  · exact hother h

/-- **The two tables agree**: a result is of the type the analyzer gives the node. -/
theorem evaluateBinary_type (hnull : ¬ (l = .null ∨ r = .null))
    (h : evaluateBinary (arithmetic b f c) op l r = .ok v) :
    v.dataType = some (inferBinaryType op l.dataType r.dataType) := by
  have harith : ∀ {l' r' : Value} {e : DbError}, promote l r = (l', r') →
      (if op.isArithmetic = true then arithmetic b f c op l' r' else .error e) = .ok v →
      v.dataType = some (inferBinaryType op l.dataType r.dataType) := by
    intro l' r' e hp h
    split at h
    · next hop => exact arithmetic_infer hp hop h
    · cases h
  rw [evaluateBinary, if_neg hnull] at h
  split at h
  · next hp => exact comparison_infer h (harith hp)
  · next hp => exact comparison_infer h (harith hp)
  · next x y hp =>
    obtain ⟨rfl, rfl⟩ := promote_other hp (Or.inl (by simp [Value.dataType]))
    split at h
    · cases h
      rfl
    · cases h
      rfl
    · cases h
      rfl
    · cases h
      rfl
    · cases h
  · exact comparison_infer h fun h => by cases h
  · next x y hp =>
    obtain ⟨rfl, rfl⟩ := promote_other hp (Or.inl (by simp [Value.dataType]))
    refine comparison_infer h fun h => ?_
    split at h
    · next hop =>
      cases h
      rw [hop]
      rfl
    · cases h
  · next x y hp =>
    obtain ⟨rfl, rfl⟩ := promote_other hp (Or.inl (by simp [Value.dataType]))
    refine comparison_infer h fun h => ?_
    split at h
    · next hop =>
      cases h
      rw [hop]
      rfl
    · cases h
  · exact comparison_infer h fun h => by cases h
  · next hp => exact harith hp h

theorem evaluateUnary_type {op : UnaryOperator} (h : evaluateUnary op v = .ok r) :
    HasType r (inferUnaryType op) := by
  unfold evaluateUnary at h
  split at h
  · cases h
    exact Or.inl rfl
  · cases h
    exact Or.inr rfl
  · cases h
    exact Or.inr rfl
  · cases h

theorem literalToValue_type (l : LiteralValue) :
    (literalToValue ⟨l, l.dataType⟩).dataType = l.dataType := by
  cases l <;> rfl

/-- An operand has the type of its expression, or is NULL. -/
theorem evaluateExpr_type {row : List Value} {x : AnalyzedExpr} (h : Typed row x)
    (hv : evaluateExpr (arithmetic b f c) row x = .ok v) : v = .null ∨ v.dataType = x.dataType := by
  induction h generalizing v with
  | literal l =>
    cases hv
    exact Or.inr (literalToValue_type l)
  | columnRef col hcol =>
    cases hv
    exact hcol
  | @binaryOp xl xr op hl hr ihl ihr =>
    obtain ⟨vl, hvl, hv⟩ := bind_ok.1 hv
    obtain ⟨vr, hvr, hv⟩ := bind_ok.1 hv
    by_cases hnull : vl = .null ∨ vr = .null
    · rw [evaluateBinary, if_pos hnull] at hv
      cases hv
      exact Or.inl rfl
    · obtain ⟨hnl, hnr⟩ := not_or.1 hnull
      have htype := evaluateBinary_type hnull hv
      rw [(ihl hvl).resolve_left hnl, (ihr hvr).resolve_left hnr] at htype
      exact Or.inr htype
  | unaryOp op h ih =>
    obtain ⟨w, hw, hv⟩ := bind_ok.1 hv
    exact evaluateUnary_type hv
  | isNull negated h ih =>
    obtain ⟨w, hw, hv⟩ := bind_ok.1 hv
    cases hv
    exact Or.inr rfl
  | now => cases hv
  | sequenceCall => cases hv

end Evaluation

/-- **Type preservation**: the value of an expression is NULL or of the type the analyzer has
given it, once its placeholders are replaced. -/
theorem type_preservation {b : Build} {f : F64Ops} {c : Chrono} {a : Analyzer} {e : Expr}
    {x x' : AnalyzedExpr} {t : DataType} {row : List Value} {v : Value} {ts : Int64} {σ : Type}
    {call : EStateM DbError σ Int64} {s s' : σ} (hrow : WellTyped a row)
    (hx : a.analyzeExpr e = .ok x) (ht : x.dataType = some t)
    (hreplaced : evaluateSequenceCalls call (substituteNow ts x) s = .ok x' s')
    (hv : evaluateExpr (arithmetic b f c) row x' = .ok v) : v = .null ∨ v.dataType = some t := by
  obtain ⟨htyped, hnow⟩ := (analyzeExpr_typed hrow hx).substituteNow ts
  obtain ⟨htyped', hcalls⟩ := htyped.evaluateSequenceCalls hreplaced
  rw [← ht, ← hnow, ← hcalls]
  exact evaluateExpr_type htyped' hv

/-- `d + nextval('s')`, where `d` is a DATE column. -/
theorem type_preservation_date : Value.date 6 = .null ∨ (Value.date 6).dataType = some .date :=
  @type_preservation .release noF64 chronoYears ⟨[⟨[⟨"d", .date⟩], 0⟩], [[⟨"t", 0⟩]], fun _ => .ok true⟩
    (.binaryOp (.column none "d") .add (.funcCall "nextval" (some [.literal (.string "s")])))
    (.binaryOp (.columnRef ⟨0, .date⟩) .add .sequenceCall .date)
    (.binaryOp (.columnRef ⟨0, .date⟩) .add (.literal ⟨.integer 1, some .int⟩) .date)
    .date [.date 5] (.date 6) 0 Unit (fun s => .ok 1 s) () ()
    (by
      intro r hr i c hc
      cases List.mem_singleton.1 hr
      cases i with
      | zero =>
        cases hc
        exact Or.inr rfl
      | succ i => cases hc)
    (by decide +kernel) rfl rfl (by decide +kernel)

end Ccdb
