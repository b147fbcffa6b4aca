import Ccdb.BTree.KeyCodec
import Ccdb.Exec.Dml

/-!
# Ccdb — WHERE clauses and the index range they are served from

Analyzed expressions, their evaluation (`evaluate_expr`, `evaluate_binary`) and
the two shapes `find_indexable_predicate` recognises. The four arithmetic
operators are a parameter: the shapes contain comparisons and AND only. A range
bound is the literal's own encoding, read back as the column's type.

Main results:

* `compareKeys_bound` — a stored key compares with a bound exactly when the
  bound's bytes have the shape of a key of the column's type.
* `evaluateBinary_true` — a comparison that is TRUE is what the keys say.
* `planner_sound_iff` — when the index scan may replace the sequential one.
-/

namespace Ccdb

/-! ## Expressions -/

inductive BinaryOperator where
  | eq | ne | lt | le | gt | ge | and | or | add | sub | mul | div
deriving DecidableEq, Repr

inductive UnaryOperator where
  | not | neg
deriving DecidableEq, Repr

/-- `LiteralValue`; an integer is 64 bits wide until it is evaluated. -/
inductive LiteralValue where
  | integer (n : Int64)
  | float (bits : UInt64)
  | string (s : String)
  | boolean (b : Bool)
  | null
  | timestamp (n : Int64)
  | date (n : Int32)
  | time (n : Int64)
  | interval (months days : Int32) (micros : Int64)
deriving DecidableEq, Repr

structure AnalyzedLiteral where
  value : LiteralValue
  dataType : Option DataType
deriving DecidableEq, Repr

structure AnalyzedColumnRef where
  columnIndex : Nat
  dataType : DataType
deriving DecidableEq, Repr

/-- `AnalyzedExpr`, with what evaluation reads of each node. -/
inductive AnalyzedExpr where
  | literal (l : AnalyzedLiteral)
  | columnRef (c : AnalyzedColumnRef)
  | binaryOp (left : AnalyzedExpr) (op : BinaryOperator) (right : AnalyzedExpr) (resultType : DataType)
  | unaryOp (op : UnaryOperator) (expr : AnalyzedExpr) (resultType : DataType)
  | isNull (expr : AnalyzedExpr) (negated : Bool)
  | now
  | sequenceCall

open BTree

/-- `AnalyzedExpr::data_type`. -/
def AnalyzedExpr.dataType : AnalyzedExpr → Option DataType
  | .literal l => l.dataType
  | .columnRef c => some c.dataType
  | .binaryOp _ _ _ ty => some ty
  | .unaryOp _ _ ty => some ty
  | .isNull _ _ => some .bool
  | .now => some .timestamp
  | .sequenceCall => some .int

/-- The one thing the analyzer asks of a WHERE clause. -/
def AnalyzedExpr.whereAccepted (e : AnalyzedExpr) : Bool :=
  e.dataType == some .bool || e.dataType == none

/-- `literal_to_value`. -/
def literalToValue (l : AnalyzedLiteral) : Value :=
  match l.value with
  | .integer n => .int n.toInt32
  | .float bits => .double bits
  | .string s => .varchar s
  | .boolean b => .bool b
  | .timestamp n => .timestamp n
  | .date n => .date n
  | .time n => .time n
  | .interval months days micros => .interval months days micros
  | .null => .null

/-! ## Evaluation -/

/-- `{op:?}`. -/
def BinaryOperator.debug : BinaryOperator → String
  | eq => "Eq"
  | ne => "Ne"
  | lt => "Lt"
  | le => "Le"
  | gt => "Gt"
  | ge => "Ge"
  | and => "And"
  | or => "Or"
  | add => "Add"
  | sub => "Sub"
  | mul => "Mul"
  | div => "Div"

def UnaryOperator.debug : UnaryOperator → String
  | not => "Not"
  | neg => "Neg"

def BinaryOperator.isComparison : BinaryOperator → Bool
  | eq | ne | lt | le | gt | ge => true
  | _ => false

def BinaryOperator.isArithmetic : BinaryOperator → Bool
  | add | sub | mul | div => true
  | _ => false

/-- `l OP r` as `r SWAPPED l`. -/
def BinaryOperator.swapped : BinaryOperator → BinaryOperator
  | lt => gt
  | le => ge
  | gt => lt
  | ge => le
  | op => op

/-- `f64::partial_cmp`. -/
def f64PartialCmp (x y : UInt64) : Option Ordering := do
  let a ← f64Rank x
  let b ← f64Rank y
  some (cmp a b)

/-- What a comparison operator says of two values with this order; unordered
values are only unequal. -/
def compareOp (op : BinaryOperator) (o : Option Ordering) : Option Bool :=
  match op with
  | .eq => some (o == some .eq)
  | .ne => some (o != some .eq)
  | .lt => some (o == some .lt)
  | .le => some (o == some .lt || o == some .eq)
  | .gt => some (o == some .gt)
  | .ge => some (o == some .gt || o == some .eq)
  | _ => none

/-- The comparison arms of one type, and the type's other operators. -/
def comparison (op : BinaryOperator) (o : Option Ordering) (other : Except DbError Value) :
    Except DbError Value :=
  match compareOp op o with
  | some b => .ok (.bool b)
  | none => other

def unsupportedOp (op : BinaryOperator) (ty : String) : DbError :=
  .bail s!"unsupported op {op.debug} on {ty}"

/-- Any DOUBLE operand pulls an INT one into DOUBLE. -/
def promote (l r : Value) : Value × Value :=
  match l, r with
  | .int a, .double b => (.double (doubleBits a), .double b)
  | .double a, .int b => (.double a, .double (doubleBits b))
  | l, r => (l, r)

/-- The four arithmetic operators on operands that are not NULL. -/
abbrev Arith := BinaryOperator → Value → Value → Except DbError Value

/-- `evaluate_binary`. -/
def evaluateBinary (arith : Arith) (op : BinaryOperator) (l r : Value) : Except DbError Value :=
  if l = .null ∨ r = .null then .ok .null
  else
    match promote l r with
    | (.double a, .double b) => comparison op (f64PartialCmp a b)
        (if op.isArithmetic then arith op (.double a) (.double b)
          else .error (.bail "AND/OR not supported on DOUBLE"))
    | (.int a, .int b) => comparison op (some (cmp a.toInt b.toInt))
        (if op.isArithmetic then arith op (.int a) (.int b)
          else .error (.bail "AND/OR not supported on INT"))
    | (.bool a, .bool b) =>
      match op with
      | .and => .ok (.bool (a && b))
      | .or => .ok (.bool (a || b))
      | .eq => .ok (.bool (a == b))
      | .ne => .ok (.bool (a != b))
      | op => .error (unsupportedOp op "BOOL")
    | (.varchar a, .varchar b) => comparison op (some (cmpBytes (stringBytes a) (stringBytes b)))
        (.error (unsupportedOp op "VARCHAR"))
    | (.timestamp a, .timestamp b) => comparison op (some (cmp a.toInt b.toInt))
        (if op = .sub then .ok (.interval 0 0 (a - b)) else .error (unsupportedOp op "TIMESTAMP"))
    | (.date a, .date b) => comparison op (some (cmp a.toInt b.toInt))
        (if op = .sub then .ok (.int (a - b)) else .error (unsupportedOp op "DATE"))
    | (.time a, .time b) => comparison op (some (cmp a.toInt b.toInt))
        (.error (unsupportedOp op "TIME"))
    | (l, r) =>
      if op.isArithmetic then arith op l r
      else .error (.bail s!"type mismatch in binary op {op.debug}")

/-- `evaluate_unary`, its message without the operand. -/
def evaluateUnary (op : UnaryOperator) (v : Value) : Except DbError Value :=
  match op, v with
  | _, .null => .ok .null
  | .not, .bool b => .ok (.bool !b)
  | .neg, .int n => .ok (.int (-n))
  | op, _ => .error (.bail s!"unsupported unary op {op.debug}")

/-- `evaluate_expr`. -/
def evaluateExpr (arith : Arith) (row : List Value) : AnalyzedExpr → Except DbError Value
  | .literal l => .ok (literalToValue l)
  | .columnRef c => .ok (row.getD c.columnIndex .null)
  | .binaryOp left op right _ => do
    let l ← evaluateExpr arith row left
    let r ← evaluateExpr arith row right
    evaluateBinary arith op l r
  | .unaryOp op expr _ => do
    let v ← evaluateExpr arith row expr
    evaluateUnary op v
  | .isNull expr negated => do
    let v ← evaluateExpr arith row expr
    .ok (.bool (if negated then v ≠ .null else v = .null))
  | .now => .error (.bail "internal: AnalyzedExpr::Now reached evaluator (should be substituted at execute() entry)")
  | .sequenceCall => .error (.bail "internal: AnalyzedExpr::SequenceCall reached evaluator (must be pre-evaluated)")

/-! ## The shapes -/

/-- `match_eq_col_literal`. -/
def matchEqColLiteral : AnalyzedExpr → Option (Nat × AnalyzedLiteral)
  | .binaryOp (.columnRef c) .eq (.literal l) _ => some (c.columnIndex, l)
  | .binaryOp (.literal l) .eq (.columnRef c) _ => some (c.columnIndex, l)
  | _ => none

/-- `match_cmp_col_literal`. -/
def matchCmpColLiteral : AnalyzedExpr → Option (Nat × BinaryOperator × AnalyzedLiteral)
  | .binaryOp (.columnRef c) op (.literal l) _ =>
    if op.isComparison then some (c.columnIndex, op, l) else none
  | .binaryOp (.literal l) op (.columnRef c) _ =>
    if op.isComparison then some (c.columnIndex, op.swapped, l) else none
  | _ => none

/-- `match_between`: column, low and high. -/
def matchBetween : AnalyzedExpr → Option (Nat × AnalyzedLiteral × AnalyzedLiteral)
  | .binaryOp left .and right _ => do
    let (lcol, lop, llit) ← matchCmpColLiteral left
    let (rcol, rop, rlit) ← matchCmpColLiteral right
    if lcol ≠ rcol then none
    else
      match lop, rop with
      | .ge, .le => some (lcol, llit, rlit)
      | .le, .ge => some (lcol, rlit, llit)
      | _, _ => none
  | _ => none

/-- A WHERE clause as the executor uses it. -/
def AnalyzedExpr.predicate (arith : Arith) (e : AnalyzedExpr) : Predicate where
  eval row := evaluateExpr arith row e
  eqLiteral := (matchEqColLiteral e).map fun m => (m.1, literalToValue m.2)
  between := (matchBetween e).map fun m => (m.1, literalToValue m.2.1, literalToValue m.2.2)

/-- The literals a range is made of. -/
def AnalyzedExpr.bounds (e : AnalyzedExpr) : List Value :=
  match matchEqColLiteral e, matchBetween e with
  | some (_, l), _ => [literalToValue l]
  | none, some (_, low, high) => [literalToValue low, literalToValue high]
  | none, none => []

/-- The range `find_indexable_predicate` returns is one of the two shapes, over a
column of the table. -/
theorem findIndexable_some {arith : Arith} {e : AnalyzedExpr} {table : TableDef} {s s' : Ctx}
    {idx : IndexDef} {range : IndexRange} {ty : DataType}
    (h : findIndexablePredicate (some (e.predicate arith)) table s =
      .ok (some (idx, range, ty)) s') :
    table.columns[idx.columnIndex]? = some ty ∧
      ((∃ l, matchEqColLiteral e = some (idx.columnIndex, l) ∧
          range = .eq (encodeKey (literalToValue l))) ∨
        ∃ low high, matchBetween e = some (idx.columnIndex, low, high) ∧
          range = .between (encodeKey (literalToValue low)) (encodeKey (literalToValue high))) := by
  obtain ⟨indexes, h⟩ : ∃ indexes : List IndexDef, _ := by
    simp only [findIndexablePredicate, bind, EStateM.bind] at h
    cases hindexes : indexesForTable table.tableId s with
    | error e s₁ =>
      rw [hindexes] at h
      cases h
    | ok indexes s₁ =>
      rw [hindexes] at h
      exact ⟨indexes, (EStateM.Result.ok.inj h).1⟩
  rw [Option.orElse_eq_some] at h
  simp only [Option.bind_eq_some_iff, Option.some.injEq, Prod.mk.injEq, AnalyzedExpr.predicate,
    Option.map_eq_some_iff] at h
  rcases h with ⟨m, ⟨⟨col, l⟩, hm, rfl⟩, i, hfind, t, hcol, rfl, rfl, rfl⟩ |
    ⟨-, m, ⟨⟨col, low, high⟩, hm, rfl⟩, i, hfind, t, hcol, rfl, rfl, rfl⟩
  · have hidx : i.columnIndex = col := by simpa using List.find?_some hfind
    subst hidx
    exact ⟨hcol, Or.inl ⟨l, hm, rfl⟩⟩
  · have hidx : i.columnIndex = col := by simpa using List.find?_some hfind
    subst hidx
    exact ⟨hcol, Or.inr ⟨low, high, hm, rfl⟩⟩

/-! ## Keys and bounds -/

/-- The bytes of a literal have the shape of a key of type `ty`. INTERVAL keys
are not ordered at all. -/
def KeyShaped (ty : DataType) (w : Value) : Prop :=
  match ty with
  | .int | .date => (encodeKey w).length = 4
  | .double | .timestamp | .time => (encodeKey w).length = 8
  | .varchar => (String.fromUTF8? ⟨(encodeKey w).toArray⟩).isSome
  | .bool => encodeKey w ≠ []
  | .interval => False

theorem keyShaped_iff {ty : DataType} {w : Value} :
    KeyShaped ty w ↔ ty ≠ .interval ∧ ∃ x, decodeKey (encodeKey w) ty = .ok x := by
  unfold KeyShaped decodeKey
  cases ty
  case interval => simp
  case varchar => cases String.fromUTF8? ⟨(encodeKey w).toArray⟩ <;> simp
  case bool => cases encodeKey w <;> simp
  all_goals
    dsimp only
    split <;> simp_all

/-- **Stored keys and bounds.** A key of the column compares with a literal's
encoding exactly when that has the shape of one. -/
theorem compareKeys_bound {ty : DataType} {v w : Value} (hv : v.dataType = some ty) :
    (∃ o, compareKeys (encodeKey v) (encodeKey w) ty = .ok o) ↔ KeyShaped ty w := by
  simp only [keyShaped_iff, compareKeys, decodeKey_encodeKey_self hv, bind, Except.bind]
  cases hw : decodeKey (encodeKey w) ty with
  | error e => simp
  | ok x =>
    by_cases hty : ty = .interval
    · subst hty
      have hx := decodeKey_dataType hw
      cases v <;> cases hv
      cases x <;> cases hx
      simp [compareValues]
    · obtain ⟨o, ho, -⟩ := compareValues_rank hty hv (decodeKey_dataType hw)
      exact iff_of_true ⟨o, ho⟩ ⟨hty, x, rfl⟩

/-! ## Comparisons that are TRUE -/

section Evaluate

variable {arith : Arith} {op : BinaryOperator} {v w : Value} {b : Bool}

theorem cmpBytes_swap : ∀ a b : Bytes, (cmpBytes a b).swap = cmpBytes b a
  | [], [] => rfl
  | [], _ :: _ => rfl
  | _ :: _, [] => rfl
  | a :: as, b :: bs => by
    have ih := cmpBytes_swap as bs
    rw [cmpBytes, cmpBytes, ← cmp_swap a.toNat b.toNat]
    cases cmp a.toNat b.toNat with
    | eq => exact ih
    | lt => rfl
    | gt => rfl

theorem f64PartialCmp_swap (x y : UInt64) :
    (f64PartialCmp x y).map Ordering.swap = f64PartialCmp y x := by
  unfold f64PartialCmp
  cases f64Rank x <;> cases f64Rank y <;> simp [cmp_swap]

theorem compareOp_swapped (hop : op.isComparison) (o : Option Ordering) :
    compareOp op.swapped (o.map Ordering.swap) = compareOp op o := by
  cases op <;> simp only [BinaryOperator.isComparison, Bool.false_eq_true] at hop
  all_goals rcases o with _ | _ | _ | _ <;> rfl

theorem comparison_ok (hop : op.isComparison) {o : Option Ordering} {other : Except DbError Value} :
    comparison op o other = .ok (.bool b) ↔ compareOp op o = some b := by
  cases op <;> simp only [BinaryOperator.isComparison, Bool.false_eq_true] at hop
  all_goals simp [comparison, compareOp]

theorem isComparison_swapped : op.swapped.isComparison = op.isComparison := by
  cases op <;> rfl

theorem isArithmetic_of_comparison (hop : op.isComparison) : op.isArithmetic = false := by
  cases op <;> first | rfl | cases hop

/-- The order a comparison looks at: none where the operands do not compare, and
no order where one of them is NaN. -/
def valueOrder (op : BinaryOperator) (l r : Value) : Option (Option Ordering) :=
  match promote l r with
  | (.double a, .double b) => some (f64PartialCmp a b)
  | (.int a, .int b) => some (some (cmp a.toInt b.toInt))
  | (.bool a, .bool b) =>
    if op = .eq ∨ op = .ne then some (some (cmp (boolRank a) (boolRank b))) else none
  | (.varchar a, .varchar b) => some (some (cmpBytes (stringBytes a) (stringBytes b)))
  | (.timestamp a, .timestamp b) => some (some (cmp a.toInt b.toInt))
  | (.date a, .date b) => some (some (cmp a.toInt b.toInt))
  | (.time a, .time b) => some (some (cmp a.toInt b.toInt))
  | _ => none

/-- What a comparison of two values says. -/
theorem evaluateBinary_comparison (hop : op.isComparison) :
    evaluateBinary arith op v w = .ok (.bool b) ↔
      ∃ o, valueOrder op v w = some o ∧ compareOp op o = some b := by
  cases v <;> cases w
  case bool.bool x y =>
    have h01 : cmp (0 : Int) 1 = .lt := rfl
    have h10 : cmp (1 : Int) 0 = .gt := rfl
    cases op <;> simp only [BinaryOperator.isComparison, Bool.false_eq_true] at hop
    all_goals cases x <;> cases y <;>
      simp [evaluateBinary, promote, valueOrder, boolRank, compareOp, h01, h10, eq_comm, bne]
  all_goals simp [evaluateBinary, valueOrder, promote, comparison_ok hop,
    isArithmetic_of_comparison hop]

theorem valueOrder_swapped (op : BinaryOperator) (v w : Value) :
    valueOrder op.swapped w v = (valueOrder op v w).map (Option.map Ordering.swap) := by
  cases v <;> cases w
  case bool.bool x y => cases op <;> simp [valueOrder, promote, BinaryOperator.swapped, cmp_swap]
  all_goals simp [valueOrder, promote, f64PartialCmp_swap, cmp_swap, cmpBytes_swap]

/-- `lit OP col` and `col SWAPPED lit`. -/
theorem evaluateBinary_swapped (hop : op.isComparison) :
    evaluateBinary arith op w v = .ok (.bool b) ↔
      evaluateBinary arith op.swapped v w = .ok (.bool b) := by
  rw [evaluateBinary_comparison hop, evaluateBinary_comparison (by rw [isComparison_swapped, hop]),
    valueOrder_swapped]
  cases valueOrder op w v with
  | none => simp
  | some o => simp [compareOp_swapped hop]

/-- A comparison other than `<>` that is TRUE, of a value of the column with a
literal whose bytes have the shape of a key: the two are of one type, have
ranks, and compare as keys do. -/
theorem evaluateBinary_true {ty : DataType} (hop : op.isComparison) (hne : op ≠ .ne)
    (hv : v.dataType = some ty) (hw : KeyShaped ty w)
    (h : evaluateBinary arith op v w = .ok (.bool true)) :
    w.dataType = some ty ∧ (valueRank v).isSome ∧ (valueRank w).isSome ∧
      ∃ o, compareValues v w = .ok o ∧ compareOp op (some o) = some true := by
  obtain ⟨o, ho, htrue⟩ := (evaluateBinary_comparison hop).1 h
  have hnone : compareOp op none ≠ some true := by
    cases op <;> simp [compareOp] at hne ⊢
  cases v <;> cases hv <;> cases w
  case double.refl.double x y =>
    obtain rfl : f64PartialCmp x y = o := Option.some.inj ho
    cases hx : f64Rank x with
    | none => exact absurd htrue (by simpa [f64PartialCmp, hx] using hnone)
    | some a =>
      cases hy : f64Rank y with
      | none => exact absurd htrue (by simpa [f64PartialCmp, hx, hy] using hnone)
      | some b =>
        have hcmp : f64PartialCmp x y = some (cmp a b) := by simp [f64PartialCmp, hx, hy]
        refine ⟨rfl, by simp [valueRank, hx], by simp [valueRank, hy], cmp a b, ?_, hcmp ▸ htrue⟩
        simp [compareValues, f64Cmp, hx, hy]
  case bool.refl.bool x y =>
    simp only [valueOrder, promote, Option.ite_none_right_eq_some, Option.some.injEq] at ho
    obtain ⟨-, rfl⟩ := ho
    exact ⟨rfl, rfl, rfl, _, rfl, htrue⟩
  all_goals first
    | (simp [valueOrder, promote] at ho; done)
    | (simp [KeyShaped, encodeKey, i32Bytes] at hw; done)
    | (obtain rfl := Option.some.inj ho; exact ⟨rfl, rfl, rfl, _, rfl, htrue⟩)

/-- A value with the literal's rank equals it. -/
theorem evaluateBinary_eq_of_rank {ty : DataType} {r : List Int} (hv : v.dataType = some ty)
    (hw : w.dataType = some ty) (hrv : valueRank v = some r) (hrw : valueRank w = some r) :
    evaluateBinary arith .eq v w = .ok (.bool true) := by
  refine (evaluateBinary_comparison rfl).2 ?_
  obtain ⟨o, ho, hcmp⟩ := compareValues_compares hv hw hrv hrw
  obtain rfl : o = .eq := hcmp.eq_eq.2 rfl
  refine ⟨some .eq, ?_, rfl⟩
  cases v <;> cases hv <;> cases w <;> cases hw
  case double.refl.double.refl x y =>
    simp only [valueRank, Option.map_eq_some_iff] at hrv hrw
    obtain ⟨a, ha, rfl⟩ := hrv
    obtain ⟨b, hb, hab⟩ := hrw
    simp [valueOrder, promote, f64PartialCmp, ha, hb, (List.cons.inj hab).1]
  all_goals first
    | (simp [valueRank] at hrv; done)
    | (simpa [valueOrder, promote, compareValues] using ho)

theorem evaluateBinary_and_true (h : evaluateBinary arith .and v w = .ok (.bool true)) :
    v = .bool true ∧ w = .bool true := by
  cases v <;> cases w <;>
    simp_all [evaluateBinary, promote, comparison, compareOp, BinaryOperator.isArithmetic]

end Evaluate

section Shapes

variable {arith : Arith} {e : AnalyzedExpr} {row : List Value} {col : Nat} {l low high : AnalyzedLiteral}
  {op : BinaryOperator}

theorem matchEq_true (h : matchEqColLiteral e = some (col, l)) :
    evaluateExpr arith row e = .ok (.bool true) ↔
      evaluateBinary arith .eq (row.getD col .null) (literalToValue l) = .ok (.bool true) := by
  unfold matchEqColLiteral at h
  split at h
  · cases h
    rfl
  · cases h
    exact evaluateBinary_swapped rfl
  · cases h

theorem matchCmp_true (h : matchCmpColLiteral e = some (col, op, l)) :
    op.isComparison ∧ (evaluateExpr arith row e = .ok (.bool true) ↔
      evaluateBinary arith op (row.getD col .null) (literalToValue l) = .ok (.bool true)) := by
  unfold matchCmpColLiteral at h
  split at h
  · next hop =>
    split at h
    · next hop =>
      cases h
      exact ⟨hop, Iff.rfl⟩
    · cases h
  · split at h
    · next hop =>
      cases h
      exact ⟨by rw [isComparison_swapped, hop], evaluateBinary_swapped hop⟩
    · cases h
  · cases h

theorem matchBetween_true (h : matchBetween e = some (col, low, high))
    (htrue : evaluateExpr arith row e = .ok (.bool true)) :
    evaluateBinary arith .ge (row.getD col .null) (literalToValue low) = .ok (.bool true) ∧
      evaluateBinary arith .le (row.getD col .null) (literalToValue high) = .ok (.bool true) := by
  unfold matchBetween at h
  split at h
  · next left right ty =>
    simp only [Option.bind_eq_bind, Option.bind_eq_some_iff] at h
    obtain ⟨⟨lcol, lop, llit⟩, hl, ⟨rcol, rop, rlit⟩, hr, h⟩ := h
    -- both sides of the AND are TRUE
    obtain ⟨hleft, hright⟩ : evaluateExpr arith row left = .ok (.bool true) ∧
        evaluateExpr arith row right = .ok (.bool true) := by
      simp only [evaluateExpr, bind, Except.bind] at htrue
      cases hleft : evaluateExpr arith row left with
      | error err => simp [hleft] at htrue
      | ok x =>
        cases hright : evaluateExpr arith row right with
        | error err => simp [hleft, hright] at htrue
        | ok y =>
          simp only [hleft, hright] at htrue
          obtain ⟨rfl, rfl⟩ := evaluateBinary_and_true htrue
          exact ⟨rfl, rfl⟩
    have hl := (matchCmp_true hl).2.1 hleft
    have hr := (matchCmp_true hr).2.1 hright
    dsimp only at h
    split at h
    · cases h
    · next hcol =>
      obtain rfl : lcol = rcol := not_not.1 hcol
      split at h
      · cases h
        exact ⟨hl, hr⟩
      · cases h
        exact ⟨hr, hl⟩
      · cases h
  · cases h

end Shapes

/-! ## The index scan -/

/-- The bounds stored keys are compared with. -/
def IndexRange.bounds : IndexRange → List Bytes
  | eq key => [key]
  | between low high => [low, high]

/-- The key lies in the range. -/
def IndexRange.Contains (r : IndexRange) (key : Bytes) (ty : DataType) : Prop :=
  match r with
  | eq target => compareKeys key target ty = .ok .eq
  | between low high => (∃ o, compareKeys key low ty = .ok o ∧ o ≠ .lt) ∧
      ∃ o, compareKeys key high ty = .ok o ∧ o ≠ .gt

/-- `first_ge`: entries below the start of the range are passed over. -/
def IndexRange.skip {α : Type} (r : IndexRange) (ty : DataType) (key : α → Bytes) :
    List α → Except DbError (List α)
  | [] => .ok []
  | x :: rest => do
    if (← compareKeys (key x) r.startKey ty) = .lt then r.skip ty key rest else .ok (x :: rest)

/-- The loop of `matching_rows` from the cursor on, up to the first key past the
range. -/
def IndexRange.walk {α : Type} (r : IndexRange) (ty : DataType) (key : α → Bytes) :
    List α → Except DbError (List α)
  | [] => .ok []
  | x :: rest => do
    if ← r.past (key x) ty then .ok []
    else do
      let out ← r.walk ty key rest
      .ok (x :: out)

/-- The entries an index scan looks at. -/
def IndexRange.scan {α : Type} (r : IndexRange) (ty : DataType) (key : α → Bytes) (entries : List α) :
    Except DbError (List α) := do
  let rest ← r.skip ty key entries
  r.walk ty key rest

/-- A row of the table: NULLs and values of the declared types. -/
def Conforms (columns : List DataType) (row : List Value) : Prop :=
  ∀ col ty, columns[col]? = some ty → row.getD col .null ≠ .null →
    (row.getD col .null).dataType = some ty

/-- The key of a row in an index on `col`. -/
def rowKey (col : Nat) (row : List Value) : Bytes := encodeKey (row.getD col .null)

/-- What the plan owes over the rows of the table: no comparison fails, every row
the clause accepts is in the range, and no order the index may keep its entries
in makes the scan miss one. -/
structure PlannerSound (arith : Arith) (e : AnalyzedExpr) (col : Nat) (range : IndexRange)
    (ty : DataType) (rows : List (List Value)) : Prop where
  comparable : ∀ row ∈ rows, row.getD col .null ≠ .null → ∀ b ∈ range.bounds,
    ∃ o, compareKeys (rowKey col row) b ty = .ok o
  inside : ∀ row ∈ rows, evaluateExpr arith row e = .ok (.bool true) →
    row.getD col .null ≠ .null ∧ range.Contains (rowKey col row) ty
  lossless : ∀ entries : List (List Value),
    (∀ row ∈ entries, row ∈ rows ∧ row.getD col .null ≠ .null) →
    entries.Pairwise (fun a b => compareKeys (rowKey col a) (rowKey col b) ty ≠ .ok .gt) →
    ∃ out, range.scan ty (rowKey col) entries = .ok out ∧
      ∀ row ∈ entries, evaluateExpr arith row e = .ok (.bool true) → row ∈ out

/-- An equality on a DOUBLE column that has a NaN, which compares as equal to
everything, a smaller key and the key looked for. -/
def NanTrap (ty : DataType) (e : AnalyzedExpr) (col : Nat) (rows : List (List Value)) : Prop :=
  ∃ l, matchEqColLiteral e = some (col, l) ∧ (literalToValue l).dataType = some ty ∧
    ∃ nan ∈ rows, ∃ below ∈ rows, ∃ hit ∈ rows, ∃ r b,
      nan.getD col .null ≠ .null ∧ valueRank (nan.getD col .null) = none ∧
      valueRank (below.getD col .null) = some r ∧ r < b ∧
      valueRank (hit.getD col .null) = some b ∧ valueRank (literalToValue l) = some b

theorem past_eq {key target : Bytes} {ty : DataType} {o : Ordering}
    (h : compareKeys key target ty = .ok o) : (IndexRange.eq target).past key ty = .ok (o ≠ .eq) := by
  simp only [IndexRange.past, h, bind, Except.bind]

theorem past_between {key low high : Bytes} {ty : DataType} {o : Ordering}
    (h : compareKeys key high ty = .ok o) :
    (IndexRange.between low high).past key ty = .ok (o = .gt) := by
  simp only [IndexRange.past, h, bind, Except.bind]

section Scan

variable {α : Type} {r : IndexRange} {ty : DataType} {key : α → Bytes}

theorem walk_finds : ∀ {entries : List α},
    entries.Pairwise (fun a b => compareKeys (key a) (key b) ty ≠ .ok .gt) →
    (∀ x ∈ entries, ∃ b, r.past (key x) ty = .ok b) →
    ∃ out, r.walk ty key entries = .ok out ∧
      ∀ z ∈ entries, r.past (key z) ty = .ok false →
        (∀ y ∈ entries, compareKeys (key y) (key z) ty ≠ .ok .gt → r.past (key y) ty = .ok false) →
        z ∈ out
  | [], _, _ => ⟨[], rfl, fun z hz => absurd hz List.not_mem_nil⟩
  | x :: rest, hsorted, hpast => by
    obtain ⟨hx, hrest⟩ := List.pairwise_cons.1 hsorted
    obtain ⟨out, hout, hfinds⟩ := walk_finds hrest fun y hy => hpast y (List.mem_cons_of_mem _ hy)
    obtain ⟨b, hb⟩ := hpast x List.mem_cons_self
    cases b with
    | true =>
      refine ⟨[], by simp [IndexRange.walk, hb, bind, Except.bind], fun z hz hzp hall => ?_⟩
      -- the first entry is past the range, so no later one is wanted
      have hfalse : r.past (key x) ty = .ok false := by
        rcases List.mem_cons.1 hz with rfl | hz
        · exact hzp
        · exact hall x List.mem_cons_self (hx z hz)
      rw [hb] at hfalse
      cases hfalse
    | false =>
      refine ⟨x :: out, by simp [IndexRange.walk, hb, hout, bind, Except.bind],
        fun z hz hzp hall => ?_⟩
      rcases List.mem_cons.1 hz with rfl | hz
      · exact List.mem_cons_self
      · exact List.mem_cons_of_mem _ (hfinds z hz hzp fun y hy => hall y (List.mem_cons_of_mem _ hy))

/-- An entry at or behind the start is found if no entry that the walk meets in
front of it is past the range. -/
theorem scan_finds : ∀ {entries : List α},
    entries.Pairwise (fun a b => compareKeys (key a) (key b) ty ≠ .ok .gt) →
    (∀ x ∈ entries, ∃ o, compareKeys (key x) r.startKey ty = .ok o) →
    (∀ x ∈ entries, ∃ b, r.past (key x) ty = .ok b) →
    ∃ out, r.scan ty key entries = .ok out ∧
      ∀ z ∈ entries, compareKeys (key z) r.startKey ty ≠ .ok .lt → r.past (key z) ty = .ok false →
        (∀ f ∈ entries, ∀ y ∈ entries, compareKeys (key f) r.startKey ty ≠ .ok .lt →
          (f = y ∨ compareKeys (key f) (key y) ty ≠ .ok .gt) →
          compareKeys (key y) (key z) ty ≠ .ok .gt → r.past (key y) ty = .ok false) →
        z ∈ out
  | [], _, _, _ => ⟨[], rfl, fun z hz => absurd hz List.not_mem_nil⟩
  | x :: rest, hsorted, hstart, hpast => by
    obtain ⟨hx, hrest⟩ := List.pairwise_cons.1 hsorted
    obtain ⟨o, ho⟩ := hstart x List.mem_cons_self
    by_cases hlt : o = .lt
    · subst hlt
      obtain ⟨out, hout, hfinds⟩ := scan_finds hrest
        (fun y hy => hstart y (List.mem_cons_of_mem _ hy))
        fun y hy => hpast y (List.mem_cons_of_mem _ hy)
      have hskip : r.scan ty key (x :: rest) = r.scan ty key rest := by
        simp only [IndexRange.scan, IndexRange.skip, ho, bind, Except.bind, if_true]
      refine ⟨out, hskip.trans hout, fun z hz hzs hzp hall => ?_⟩
      rcases List.mem_cons.1 hz with rfl | hz
      · exact absurd ho hzs
      · exact hfinds z hz hzs hzp fun f hf y hy =>
          hall f (List.mem_cons_of_mem _ hf) y (List.mem_cons_of_mem _ hy)
    · obtain ⟨out, hout, hfinds⟩ := walk_finds hsorted hpast
      have hskip : r.scan ty key (x :: rest) = r.walk ty key (x :: rest) := by
        simp only [IndexRange.scan, IndexRange.skip, ho, bind, Except.bind, hlt, if_false]
      refine ⟨out, hskip.trans hout, fun z hz _ hzp hall => hfinds z hz hzp fun y hy hyz => ?_⟩
      refine hall x List.mem_cons_self y hy (by simp [ho, hlt]) ?_ hyz
      rcases List.mem_cons.1 hy with rfl | hy
      · exact Or.inl rfl
      · exact Or.inr (hx y hy)

end Scan

/-! ## The plan -/

section Plan

variable {arith : Arith} {e : AnalyzedExpr} {ty : DataType} {col : Nat} {range : IndexRange}
  {rows : List (List Value)} {op : BinaryOperator} {v w z : Value}

/-- A comparison that is TRUE, on the keys. -/
theorem keys_of_true (hop : op.isComparison) (hne : op ≠ .ne)
    (hv : v ≠ .null → v.dataType = some ty) (hw : KeyShaped ty w)
    (h : evaluateBinary arith op v w = .ok (.bool true)) :
    v ≠ .null ∧ w.dataType = some ty ∧ (valueRank v).isSome ∧ (valueRank w).isSome ∧
      ∃ o, compareKeys (encodeKey v) (encodeKey w) ty = .ok o ∧ compareOp op (some o) = some true := by
  have hnull : v ≠ .null := by
    rintro rfl
    simp [evaluateBinary] at h
  obtain ⟨hty, hrv, hrw, o, ho, htrue⟩ := evaluateBinary_true hop hne (hv hnull) hw h
  exact ⟨hnull, hty, hrv, hrw, o, (compareKeys_self (hv hnull) hty).trans ho, htrue⟩

theorem ge_ne_lt {o : Ordering} (h : compareOp .ge (some o) = some true) : o ≠ .lt := by
  rintro rfl
  cases h

theorem le_ne_gt {o : Ordering} (h : compareOp .le (some o) = some true) : o ≠ .gt := by
  rintro rfl
  cases h

/-- Keys that have ranks compare as these do. -/
theorem compareKeys_ranks {rv rw : List Int} (hv : v.dataType = some ty) (hw : w.dataType = some ty)
    (hrv : valueRank v = some rv) (hrw : valueRank w = some rw) :
    ∃ o, compareKeys (encodeKey v) (encodeKey w) ty = .ok o ∧ o.Compares rv rw := by
  obtain ⟨o, ho, hcmp⟩ := compareValues_compares hv hw hrv hrw
  exact ⟨o, (compareKeys_self hv hw).trans ho, hcmp⟩

/-- A key without a rank compares as equal. -/
theorem compareKeys_unranked (hty : ty ≠ .interval) (hv : v.dataType = some ty)
    (hw : w.dataType = some ty) (h : valueRank v = none ∨ valueRank w = none) :
    compareKeys (encodeKey v) (encodeKey w) ty = .ok .eq := by
  obtain ⟨o, ho, -, heq⟩ := compareValues_rank hty hv hw
  rw [compareKeys_self hv hw, ho, heq h]

/-- What stands in front of a row in the range is not past its end. -/
theorem between_not_past (hty : ty ≠ .interval) (hv : v.dataType = some ty)
    (hz : z.dataType = some ty) (hw : w.dataType = some ty) (hrz : (valueRank z).isSome)
    (hrw : (valueRank w).isSome)
    (hzw : ∃ o, compareKeys (encodeKey z) (encodeKey w) ty = .ok o ∧ o ≠ .gt)
    (hvz : compareKeys (encodeKey v) (encodeKey z) ty ≠ .ok .gt) :
    ∃ o, compareKeys (encodeKey v) (encodeKey w) ty = .ok o ∧ o ≠ .gt := by
  cases hrv : valueRank v with
  | none => exact ⟨.eq, compareKeys_unranked hty hv hw (Or.inl hrv), by simp⟩
  | some rv =>
    obtain ⟨rz, hrz⟩ := Option.isSome_iff_exists.1 hrz
    obtain ⟨rw', hrw⟩ := Option.isSome_iff_exists.1 hrw
    obtain ⟨o, ho, hcmp⟩ := compareKeys_ranks hv hw hrv hrw
    obtain ⟨o₁, ho₁, hcmp₁⟩ := compareKeys_ranks hv hz hrv hrz
    obtain ⟨o₂, ho₂, hcmp₂⟩ := compareKeys_ranks hz hw hrz hrw
    refine ⟨o, ho, ?_⟩
    rintro rfl
    have hle₁ : rv ≤ rz := by
      cases o₁ with
      | lt => exact le_of_lt hcmp₁
      | eq => exact le_of_eq hcmp₁
      | gt => exact absurd ho₁ hvz
    have hle₂ : rz ≤ rw' := by
      obtain ⟨o₃, ho₃, hne⟩ := hzw
      rw [ho₂] at ho₃
      obtain rfl := Except.ok.inj ho₃
      cases o₂ with
      | lt => exact le_of_lt hcmp₂
      | eq => exact le_of_eq hcmp₂
      | gt => exact absurd rfl hne
    exact absurd hcmp (not_lt.2 (le_trans hle₁ hle₂))

/-- Without a NaN in front of a smaller key, what stands between the start of an
equality scan and a hit is a hit. -/
theorem eq_not_past {f : Value} (hty : ty ≠ .interval) (hf : f.dataType = some ty)
    (hv : v.dataType = some ty) (hz : z.dataType = some ty) (hw : w.dataType = some ty)
    (hrw : (valueRank w).isSome) (hzw : compareKeys (encodeKey z) (encodeKey w) ty = .ok .eq)
    (hrz : (valueRank z).isSome)
    (hstart : compareKeys (encodeKey f) (encodeKey w) ty ≠ .ok .lt)
    (hfv : f = v ∨ compareKeys (encodeKey f) (encodeKey v) ty ≠ .ok .gt)
    (hvz : compareKeys (encodeKey v) (encodeKey z) ty ≠ .ok .gt)
    (hnan : ¬ ∃ r b, valueRank f = none ∧ valueRank v = some r ∧ r < b ∧ valueRank z = some b ∧
      valueRank w = some b) :
    compareKeys (encodeKey v) (encodeKey w) ty = .ok .eq := by
  cases hrv : valueRank v with
  | none => exact compareKeys_unranked hty hv hw (Or.inl hrv)
  | some rv =>
    obtain ⟨rw', hrw⟩ := Option.isSome_iff_exists.1 hrw
    obtain ⟨rz, hrz⟩ := Option.isSome_iff_exists.1 hrz
    obtain ⟨o, ho, hcmp⟩ := compareKeys_ranks hv hw hrv hrw
    obtain ⟨o₁, ho₁, hcmp₁⟩ := compareKeys_ranks hv hz hrv hrz
    obtain ⟨o₂, ho₂, hcmp₂⟩ := compareKeys_ranks hz hw hrz hrw
    obtain rfl : o₂ = .eq := Except.ok.inj (ho₂.symm.trans hzw)
    obtain rfl : rz = rw' := hcmp₂
    rw [ho]
    cases o with
    | eq => rfl
    | gt =>
      have hle : rv ≤ rz := by
        cases o₁ with
        | lt => exact le_of_lt hcmp₁
        | eq => exact le_of_eq hcmp₁
        | gt => exact absurd ho₁ hvz
      exact absurd hcmp (not_lt.2 hle)
    | lt =>
      -- then what the scan started at has no rank
      exfalso
      cases hrf : valueRank f with
      | none => exact hnan ⟨rv, rz, hrf, hrv, hcmp, hrz, hrw⟩
      | some rf =>
        obtain ⟨o₃, ho₃, hcmp₃⟩ := compareKeys_ranks hf hw hrf hrw
        have hge : rz ≤ rf := by
          cases o₃ with
          | lt => exact absurd ho₃ hstart
          | eq => exact le_of_eq hcmp₃.symm
          | gt => exact le_of_lt hcmp₃
        have hle : rf ≤ rv := by
          rcases hfv with rfl | hfv
          · exact le_of_eq (Option.some.inj (hrf.symm.trans hrv))
          · obtain ⟨o₄, ho₄, hcmp₄⟩ := compareKeys_ranks hf hv hrf hrv
            cases o₄ with
            | lt => exact le_of_lt hcmp₄
            | eq => exact le_of_eq hcmp₄
            | gt => exact absurd ho₄ hfv
        exact absurd hcmp (not_lt.2 (le_trans hge hle))

section Rows

variable (hrows : ∀ row ∈ rows, row.getD col .null ≠ .null → (row.getD col .null).dataType = some ty)

include hrows

/-- `comparable` for bounds that are encodings of literals. -/
theorem comparable_of_shaped (bounds : List Value) (hshaped : ∀ b ∈ bounds, KeyShaped ty b) :
    ∀ row ∈ rows, row.getD col .null ≠ .null → ∀ b ∈ bounds.map encodeKey,
      ∃ o, compareKeys (rowKey col row) b ty = .ok o := by
  intro row hrow hkey b hb
  obtain ⟨w, hw, rfl⟩ := List.mem_map.1 hb
  exact (compareKeys_bound (hrows row hrow hkey)).2 (hshaped w hw)

/-- An equality range. -/
theorem planner_sound_eq {l : AnalyzedLiteral} (hm : matchEqColLiteral e = some (col, l))
    (hshaped : KeyShaped ty (literalToValue l)) (hnan : ¬ NanTrap ty e col rows) :
    PlannerSound arith e col (.eq (encodeKey (literalToValue l))) ty rows := by
  have hcomp := comparable_of_shaped hrows [literalToValue l] (by simpa using hshaped)
  have hty := (keyShaped_iff.1 hshaped).1
  have htrue : ∀ row ∈ rows, evaluateExpr arith row e = .ok (.bool true) →
      row.getD col .null ≠ .null ∧ (literalToValue l).dataType = some ty ∧
        (valueRank (row.getD col .null)).isSome ∧ (valueRank (literalToValue l)).isSome ∧
        compareKeys (rowKey col row) (encodeKey (literalToValue l)) ty = .ok .eq := by
    intro row hrow h
    obtain ⟨hkey, hlit, hr, hrl, o, ho, hop⟩ :=
      keys_of_true rfl (by simp) (hrows row hrow) hshaped ((matchEq_true hm).1 h)
    cases o with
    | eq => exact ⟨hkey, hlit, hr, hrl, ho⟩
    | lt => cases hop
    | gt => cases hop
  refine ⟨hcomp, fun row hrow h => ?_, fun entries hentries hsorted => ?_⟩
  · obtain ⟨hkey, -, -, -, heq⟩ := htrue row hrow h
    exact ⟨hkey, heq⟩
  · have hcmp : ∀ x ∈ entries, ∃ o,
        compareKeys (rowKey col x) (encodeKey (literalToValue l)) ty = .ok o := fun x hx =>
      hcomp x (hentries x hx).1 (hentries x hx).2 _ List.mem_cons_self
    obtain ⟨out, hout, hfinds⟩ := scan_finds (r := .eq (encodeKey (literalToValue l))) hsorted hcmp
      fun x hx => by
        obtain ⟨o, ho⟩ := hcmp x hx
        exact ⟨_, past_eq ho⟩
    refine ⟨out, hout, fun z hz h => ?_⟩
    obtain ⟨hkey, hlit, hr, hrl, heq⟩ := htrue z (hentries z hz).1 h
    refine hfinds z hz (by simp [IndexRange.startKey, heq]) (by simp [past_eq heq])
      fun f hf y hy hstart hfy hyz => ?_
    have hty' := fun x hx => hrows x (hentries x hx).1 (hentries x hx).2
    have hyeq : compareKeys (rowKey col y) (encodeKey (literalToValue l)) ty = .ok .eq := by
      refine eq_not_past hty (hty' f hf) (hty' y hy) (hty' z hz) hlit hrl heq hr hstart
        (hfy.imp_left fun (h : f = y) => h ▸ rfl) hyz ?_
      rintro ⟨r, b, hnone, hrank, hlt, hrz, hrb⟩
      exact hnan ⟨l, hm, hlit, f, (hentries f hf).1, y, (hentries y hy).1, z, (hentries z hz).1, r, b,
        (hentries f hf).2, hnone, hrank, hlt, hrz, hrb⟩
    simp [past_eq hyeq]

/-- A closed range. -/
theorem planner_sound_between {low high : AnalyzedLiteral}
    (hm : matchBetween e = some (col, low, high)) (hlow : KeyShaped ty (literalToValue low))
    (hhigh : KeyShaped ty (literalToValue high)) :
    PlannerSound arith e col
      (.between (encodeKey (literalToValue low)) (encodeKey (literalToValue high))) ty rows := by
  have hcomp := comparable_of_shaped hrows [literalToValue low, literalToValue high]
    (by simpa using ⟨hlow, hhigh⟩)
  have hty := (keyShaped_iff.1 hlow).1
  have htrue : ∀ row ∈ rows, evaluateExpr arith row e = .ok (.bool true) →
      row.getD col .null ≠ .null ∧ (literalToValue high).dataType = some ty ∧
        (valueRank (row.getD col .null)).isSome ∧ (valueRank (literalToValue high)).isSome ∧
        IndexRange.Contains (.between (encodeKey (literalToValue low)) (encodeKey (literalToValue high)))
          (rowKey col row) ty := by
    intro row hrow h
    obtain ⟨hge, hle⟩ := matchBetween_true hm h
    obtain ⟨hkey, -, -, -, o, ho, hop⟩ := keys_of_true rfl (by simp) (hrows row hrow) hlow hge
    obtain ⟨-, hlit, hr, hrl, o', ho', hop'⟩ := keys_of_true rfl (by simp) (hrows row hrow) hhigh hle
    exact ⟨hkey, hlit, hr, hrl, ⟨o, ho, ge_ne_lt hop⟩, o', ho', le_ne_gt hop'⟩
  refine ⟨hcomp, fun row hrow h => ?_, fun entries hentries hsorted => ?_⟩
  · obtain ⟨hkey, -, -, -, hin⟩ := htrue row hrow h
    exact ⟨hkey, hin⟩
  · have hcmp : ∀ x ∈ entries, ∀ b ∈ [literalToValue low, literalToValue high].map encodeKey,
        ∃ o, compareKeys (rowKey col x) b ty = .ok o := fun x hx =>
      hcomp x (hentries x hx).1 (hentries x hx).2
    obtain ⟨out, hout, hfinds⟩ := scan_finds
      (r := .between (encodeKey (literalToValue low)) (encodeKey (literalToValue high))) hsorted
      (fun x hx => hcmp x hx (encodeKey (literalToValue low)) (by simp)) fun x hx => by
        obtain ⟨o, ho⟩ := hcmp x hx (encodeKey (literalToValue high)) (by simp)
        exact ⟨_, past_between ho⟩
    refine ⟨out, hout, fun z hz h => ?_⟩
    obtain ⟨hkey, hlit, hr, hrl, ⟨o, ho, hge⟩, o', ho', hle⟩ := htrue z (hentries z hz).1 h
    refine hfinds z hz (by simp [IndexRange.startKey, ho, hge])
      (by simp [past_between ho', hle]) fun f hf y hy _ _ hyz => ?_
    have hty' := fun x hx => hrows x (hentries x hx).1 (hentries x hx).2
    obtain ⟨o₁, ho₁, hne⟩ := between_not_past hty (hty' y hy) (hty' z hz) hlit hr hrl
      ⟨o', ho', hle⟩ hyz
    have ho₁ : compareKeys (rowKey col y) (encodeKey (literalToValue high)) ty = .ok o₁ := ho₁
    simp [past_between ho₁, hne]

/-- A row that a NaN key hides. -/
theorem nanTrap_loses {l : AnalyzedLiteral} (hm : matchEqColLiteral e = some (col, l))
    (htrap : NanTrap ty e col rows) :
    ¬ PlannerSound arith e col (.eq (encodeKey (literalToValue l))) ty rows := by
  intro h
  obtain ⟨l', hm', hlit, nan, hnan, below, hbelow, hit, hhit, r, b, hkey, hnone, hr, hlt, hb, hrl⟩ := htrap
  obtain rfl : l' = l := (Prod.mk.inj (Option.some.inj (hm'.symm.trans hm))).2
  have hne : ∀ {v : Value} {r : List Int}, valueRank v = some r → v ≠ .null := by
    rintro v r hv rfl
    cases hv
  have htn := hrows nan hnan hkey
  have htb := hrows below hbelow (hne hr)
  have hth := hrows hit hhit (hne hb)
  have hty : ty ≠ .interval := by
    rintro rfl
    generalize hit.getD col .null = v at hth hb
    cases v <;> cases hth
    cases hb
  have hnanEq : ∀ {w : Value}, w.dataType = some ty →
      compareKeys (rowKey col nan) (encodeKey w) ty = .ok .eq := fun hw =>
    compareKeys_unranked hty htn hw (Or.inl hnone)
  obtain ⟨o, ho, hcmp⟩ := compareKeys_ranks htb hlit hr hrl
  obtain rfl : o = .lt := hcmp.eq_lt.2 hlt
  obtain ⟨o, ho', hcmp⟩ := compareKeys_ranks htb hth hr hb
  obtain rfl : o = .lt := hcmp.eq_lt.2 hlt
  have ho : compareKeys (rowKey col below) (encodeKey (literalToValue l')) ty = .ok .lt := ho
  have ho' : compareKeys (rowKey col below) (rowKey col hit) ty = .ok .lt := ho'
  obtain ⟨out, hout, hfound⟩ := h.lossless [nan, below, hit]
    (by
      simp only [List.mem_cons, List.not_mem_nil, or_false, forall_eq_or_imp, forall_eq]
      exact ⟨⟨hnan, hkey⟩, ⟨hbelow, hne hr⟩, hhit, hne hb⟩)
    (by
      have hnb : compareKeys (rowKey col nan) (rowKey col below) ty = .ok .eq := hnanEq htb
      have hnh : compareKeys (rowKey col nan) (rowKey col hit) ty = .ok .eq := hnanEq hth
      simp [hnb, hnh, ho'])
  -- the walk starts at the NaN and stops at the smaller key
  have hscan : IndexRange.scan (.eq (encodeKey (literalToValue l'))) ty (rowKey col) [nan, below, hit] =
      .ok [nan] := by
    simp [IndexRange.scan, IndexRange.skip, IndexRange.walk, IndexRange.startKey, hnanEq hlit,
      past_eq (hnanEq hlit), past_eq ho, bind, Except.bind]
  obtain rfl : out = [nan] := Except.ok.inj (hout.symm.trans hscan)
  have hmem := hfound hit (by simp)
    ((matchEq_true hm).2 (evaluateBinary_eq_of_rank hth hlit hb hrl))
  rw [List.mem_singleton.1 hmem, hnone] at hb
  cases hb

end Rows

theorem matchEq_none_of_between {m : Nat × AnalyzedLiteral × AnalyzedLiteral}
    (h : matchBetween e = some m) : matchEqColLiteral e = none := by
  unfold matchBetween at h
  split at h
  · simp [matchEqColLiteral]
  · cases h

/-- A clause of one of the shapes is not TRUE on NULL. -/
theorem not_true_of_null {row : List Value} (hnull : row.getD col .null = .null)
    (hshape : (∃ l, matchEqColLiteral e = some (col, l)) ∨
      ∃ low high, matchBetween e = some (col, low, high)) :
    evaluateExpr arith row e ≠ .ok (.bool true) := by
  have hno : ∀ op w, evaluateBinary arith op .null w ≠ .ok (.bool true) := by
    intro op w
    simp [evaluateBinary]
  intro h
  rcases hshape with ⟨l, hm⟩ | ⟨low, high, hm⟩
  · have htrue := (matchEq_true hm).1 h
    rw [hnull] at htrue
    exact hno _ _ htrue
  · have htrue := (matchBetween_true hm h).1
    rw [hnull] at htrue
    exact hno _ _ htrue

/-- **Planner soundness.** Replacing the sequential scan by the index scan fails no
comparison and loses no row exactly when the column has no key at all, or every
bound's bytes have the shape of a key of the column's type (that of its own
type, in the first place, and never for INTERVAL) and no NaN hides a row. -/
theorem planner_sound_iff {table : TableDef} {s s' : Ctx} {idx : IndexDef}
    (hfind : findIndexablePredicate (some (e.predicate arith)) table s =
      .ok (some (idx, range, ty)) s') (hrows : ∀ row ∈ rows, Conforms table.columns row) :
    PlannerSound arith e idx.columnIndex range ty rows ↔
      (∀ row ∈ rows, row.getD idx.columnIndex .null = .null) ∨
        ((∀ b ∈ e.bounds, KeyShaped ty b) ∧ ¬ NanTrap ty e idx.columnIndex rows) := by
  obtain ⟨hcol, hshape⟩ := findIndexable_some hfind
  have htyped := fun row hrow => hrows row hrow _ _ hcol
  have hbounds : range.bounds = e.bounds.map encodeKey := by
    rcases hshape with ⟨l, hm, rfl⟩ | ⟨low, high, hm, rfl⟩
    · simp [IndexRange.bounds, AnalyzedExpr.bounds, hm]
    · simp [IndexRange.bounds, AnalyzedExpr.bounds, hm, matchEq_none_of_between hm]
  constructor
  · intro h
    refine or_iff_not_imp_left.2 fun hkeys => ⟨fun b hb => ?_, fun htrap => ?_⟩
    · -- one stored key is enough to try the bounds
      simp only [not_forall] at hkeys
      obtain ⟨row, hrow, hkey⟩ := hkeys
      refine (compareKeys_bound (htyped row hrow hkey)).1 (h.comparable row hrow hkey _ ?_)
      rw [hbounds]
      exact List.mem_map_of_mem hb
    · rcases hshape with ⟨l, hm, rfl⟩ | ⟨low, high, hm, -⟩
      · exact nanTrap_loses htyped hm htrap h
      · obtain ⟨l, hm', -⟩ := htrap
        rw [matchEq_none_of_between hm] at hm'
        cases hm'
  · rintro (hnull | ⟨hshaped, hnan⟩)
    · refine ⟨fun row hrow hkey => absurd (hnull row hrow) hkey, fun row hrow htrue => ?_,
        fun entries hentries _ => ?_⟩
      · refine absurd htrue (not_true_of_null (hnull row hrow) ?_)
        exact hshape.imp (fun ⟨l, hm, _⟩ => ⟨l, hm⟩) fun ⟨low, high, hm, _⟩ => ⟨low, high, hm⟩
      · have hempty : entries = [] := List.eq_nil_iff_forall_not_mem.2 fun row hrow =>
          (hentries row hrow).2 (hnull row (hentries row hrow).1)
        subst hempty
        exact ⟨[], rfl, fun row hrow => absurd hrow List.not_mem_nil⟩
    · rcases hshape with ⟨l, hm, rfl⟩ | ⟨low, high, hm, rfl⟩
      · exact planner_sound_eq htyped hm (hshaped _ (by simp [AnalyzedExpr.bounds, hm])) hnan
      · have hall := hshaped
        simp only [AnalyzedExpr.bounds, hm, matchEq_none_of_between hm] at hall
        exact planner_sound_between htyped hm (hall _ (by simp)) (hall _ (by simp))

end Plan

/-! ## A DOUBLE column -/

/-- A table `m (d DOUBLE)` with an index on `d`. -/
def measures : TableDef := ⟨1, "m", 4, [.double], ["d"]⟩

def onD : IndexDef := ⟨1, "m_d", 1, 0, 5, false⟩

def measuresCtx : Ctx where
  pool := ⟨fun p => if p = 5 then BTree.initLeaf (.new 5) else .new p, 6, [], 100, by decide⟩
  versions := fun p => [.new p]
  wal := ⟨[], 1, 0⟩
  tm := ⟨2, [], fun _ => .inProgress⟩
  catalog := ⟨[measures], [], [(1, [onD])]⟩
  locks := []
  tx := ⟨false, 0, 0, none, []⟩

/-- `WHERE d = lit`. -/
def dEquals (l : AnalyzedLiteral) : AnalyzedExpr :=
  .binaryOp (.columnRef ⟨0, .double⟩) .eq (.literal l) .bool

def noArith : Arith := fun op _ _ => .error (.bail s!"type mismatch in binary op {op.debug}")

/-- The bits of 1.0 and of 2.0. -/
def oneBits : UInt64 := 0x3FF0000000000000
def twoBits : UInt64 := 0x4000000000000000

theorem find_dEquals (l : AnalyzedLiteral) :
    findIndexablePredicate (some ((dEquals l).predicate noArith)) measures measuresCtx =
      .ok (some (onD, .eq (encodeKey (literalToValue l)), .double)) measuresCtx := rfl

theorem conforms_measures (bits : UInt64) : Conforms measures.columns [.double bits] := by
  intro col ty hcol _
  cases col with
  | zero => exact hcol
  | succ col => simp [measures] at hcol

/-- `WHERE d = 1.0` over the rows 2.0 and 1.0. -/
theorem planner_sound_float : PlannerSound noArith (dEquals ⟨.float oneBits, some .double⟩) 0
    (.eq (encodeKey (.double oneBits))) .double [[.double twoBits], [.double oneBits]] := by
  refine (planner_sound_iff (find_dEquals ⟨.float oneBits, some .double⟩) fun row hrow => ?_).2
    (Or.inr ⟨fun b hb => ?_, ?_⟩)
  · rcases List.mem_pair.1 hrow with rfl | rfl
    · exact conforms_measures twoBits
    · exact conforms_measures oneBits
  · obtain rfl : b = .double oneBits := List.mem_singleton.1 hb
    simp [KeyShaped, encodeKey]
  · -- neither row is a NaN
    rintro ⟨l, -, -, nan, hnan, below, -, hit, -, r, b, -, hnone, -⟩
    rcases List.mem_pair.1 hnan with rfl | rfl <;> cases hnone

/-- `WHERE d = 1` is accepted, and its bound is four bytes long: every comparison
with a stored key fails. -/
theorem int_literal_fails_on_double : ¬ ∀ (e : AnalyzedExpr) (table : TableDef) (s s' : Ctx)
    (idx : IndexDef) (range : IndexRange) (ty : DataType) (rows : List (List Value)),
    e.whereAccepted → findIndexablePredicate (some (e.predicate noArith)) table s =
      .ok (some (idx, range, ty)) s' → (∀ row ∈ rows, Conforms table.columns row) →
    PlannerSound noArith e idx.columnIndex range ty rows := by
  intro h
  have hsound := h (dEquals ⟨.integer 1, some .int⟩) measures measuresCtx measuresCtx onD _ .double
    [[.double twoBits]] rfl (find_dEquals ⟨.integer 1, some .int⟩)
    (by simpa using conforms_measures twoBits)
  have hcomp := hsound.comparable [.double twoBits] List.mem_cons_self (by decide)
    (encodeKey (.int 1)) List.mem_cons_self
  have hshaped := (compareKeys_bound (v := .double twoBits) (w := .int 1) rfl).1 hcomp
  simp [KeyShaped, encodeKey, i32Bytes] at hshaped

end Ccdb
