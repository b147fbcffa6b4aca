import Ccdb.Exec.Typing

/-!
# Ccdb — predicates and three-valued logic

`evaluate_binary` makes NULL of every operator with a NULL operand, AND and OR included,
where SQL lets a FALSE decide an AND and a TRUE an OR. `Filter` drops the rows a
predicate is NULL for, and a CHECK constraint accepts them.

A value the evaluator calls NULL is one with a NULL column or literal that is not below an
`IS NULL` (`nullLeaf`), and any other value is that of three-valued logic once every
`IS NULL` is read in the same way (`settle`).

Main results:

* `evaluate_null_iff`, `evaluate_settled` — the evaluator's rule.
* `conservative_iff` — when a predicate is safe for both consumers.
* `check_accepts_false` — a FALSE conjunct next to a NULL one passes a CHECK.
-/

namespace Ccdb.ThreeValued

/-! ## Three-valued logic -/

/-- AND of truth values; none is unknown. -/
def and3 : Option Bool → Option Bool → Option Bool
  | some false, _ => some false
  | _, some false => some false
  | some true, some true => some true
  | _, _ => none

def or3 : Option Bool → Option Bool → Option Bool
  | some true, _ => some true
  | _, some true => some true
  | some false, some false => some false
  | _, _ => none

/-- The truth value of a BOOL or NULL. -/
def truth : Value → Option (Option Bool)
  | .null => some none
  | .bool b => some (some b)
  | _ => none

def ofTruth : Option Bool → Value
  | none => .null
  | some b => .bool b

/-- An operator in three-valued logic: `evaluate_binary` with another AND and OR. -/
def kleeneBinary (arith : Arith) (op : BinaryOperator) (l r : Value) : Except DbError Value :=
  match op, truth l, truth r with
  | .and, some x, some y => .ok (ofTruth (and3 x y))
  | .or, some x, some y => .ok (ofTruth (or3 x y))
  | op, _, _ => evaluateBinary arith op l r

/-- The value of an expression in three-valued logic. -/
def kleene (arith : Arith) (row : List Value) : AnalyzedExpr → Except DbError Value
  | .binaryOp left op right _ => do
    let l ← kleene arith row left
    let r ← kleene arith row right
    kleeneBinary arith op l r
  | .unaryOp op expr _ => do
    let v ← kleene arith row expr
    evaluateUnary op v
  | .isNull expr negated => do
    let v ← kleene arith row expr
    .ok (.bool (if negated then v ≠ .null else v = .null))
  | e => evaluateExpr arith row e

/-! ## The consumers -/

/-- `Filter::next`: the first row the predicate is TRUE for, and the rows behind it. -/
def filterNext (arith : Arith) (e : AnalyzedExpr) :
    List (List Value) → Except DbError (Option (List Value × List (List Value)))
  | [] => .ok none
  | row :: rest => do
    match ← evaluateExpr arith row e with
    | .bool true => .ok (some (row, rest))
    | .bool false | .null => filterNext arith e rest
    | other => .error (notBoolean "WHERE predicate" other)

/-- `enforce_check_constraints`: the names and predicates of a table's CHECKs. -/
def enforceCheckConstraints (arith : Arith) (row : List Value) :
    List (String × AnalyzedExpr) → Except DbError Unit
  | [] => .ok ()
  | (name, e) :: rest => do
    match ← evaluateExpr arith row e with
    | .bool true => enforceCheckConstraints arith row rest
    | .bool false =>
      .error (.bail s!"new row violates check constraint \"{name}\" [SQLSTATE 23514]")
    | .null => enforceCheckConstraints arith row rest
    | _ => .error (.bail s!"CHECK '{name}' returned non-boolean")

/-- **A predicate is safe for its consumers**: a row that `Filter` keeps is one it is TRUE for,
and no table with it as a CHECK takes a row it is FALSE for. -/
def Conservative (arith : Arith) (row : List Value) (e : AnalyzedExpr) : Prop :=
  (∀ rows rest, filterNext arith e rows = .ok (some (row, rest)) →
    kleene arith row e = .ok (.bool true)) ∧
  ∀ name checks, (name, e) ∈ checks → kleene arith row e = .ok (.bool false) →
    enforceCheckConstraints arith row checks ≠ .ok ()

/-! ## NULLs of an expression -/

/-- Some column or literal is NULL, those below an `IS NULL` apart. -/
def nullLeaf (row : List Value) : AnalyzedExpr → Bool
  | .literal l => literalToValue l = .null
  | .columnRef c => row.getD c.columnIndex .null = .null
  | .binaryOp left _ right _ => nullLeaf row left || nullLeaf row right
  | .unaryOp _ expr _ => nullLeaf row expr
  | .isNull _ _ | .now | .sequenceCall => false

/-- Every `IS NULL` as `nullLeaf` decides it. -/
def settle (row : List Value) : AnalyzedExpr → AnalyzedExpr
  | .binaryOp left op right ty => .binaryOp (settle row left) op (settle row right) ty
  | .unaryOp op expr ty => .unaryOp op (settle row expr) ty
  | .isNull expr negated => .literal ⟨.boolean (nullLeaf row expr != negated), some .bool⟩
  | e => e

/-- No AND and no OR. -/
def plain : AnalyzedExpr → Bool
  | .binaryOp left op right _ => op != .and && op != .or && plain left && plain right
  | .unaryOp _ expr _ => plain expr
  | .isNull expr _ => plain expr
  | _ => true

/-- BOOL or NULL. -/
def IsTruth (v : Value) : Prop := v = .null ∨ ∃ b, v = .bool b

/-- A boolean expression: comparisons, AND, OR, NOT, IS NULL, and boolean columns and
literals. -/
inductive Boolean (row : List Value) : AnalyzedExpr → Prop where
  | literal (l : AnalyzedLiteral) (h : IsTruth (literalToValue l)) : Boolean row (.literal l)
  | columnRef (c : AnalyzedColumnRef) (h : IsTruth (row.getD c.columnIndex .null)) :
    Boolean row (.columnRef c)
  | comparison {l r : AnalyzedExpr} {op : BinaryOperator} (hop : op.isComparison = true)
    (hl : plain l = true) (hr : plain r = true) (ty : DataType) : Boolean row (.binaryOp l op r ty)
  -- comparisons of boolean expressions
  | same {l r : AnalyzedExpr} {op : BinaryOperator} (hop : op = .eq ∨ op = .ne) (hl : Boolean row l)
    (hr : Boolean row r) (ty : DataType) : Boolean row (.binaryOp l op r ty)
  | and {l r : AnalyzedExpr} (hl : Boolean row l) (hr : Boolean row r) (ty : DataType) :
    Boolean row (.binaryOp l .and r ty)
  | or {l r : AnalyzedExpr} (hl : Boolean row l) (hr : Boolean row r) (ty : DataType) :
    Boolean row (.binaryOp l .or r ty)
  | not {e : AnalyzedExpr} (h : Boolean row e) (ty : DataType) : Boolean row (.unaryOp .not e ty)
  | isNull {e : AnalyzedExpr} (h : Boolean row e) (negated : Bool) : Boolean row (.isNull e negated)
  | isNullPlain {e : AnalyzedExpr} (h : plain e = true) (negated : Bool) :
    Boolean row (.isNull e negated)

/-! ## The evaluator's rule -/

section Rule

variable {b : Build} {f : F64Ops} {c : Chrono} {row : List Value} {e : AnalyzedExpr}
  {op : BinaryOperator} {l r v : Value}

theorem evaluateBinary_null (h : evaluateBinary (arithmetic b f c) op l r = .ok v) :
    v = .null ↔ l = .null ∨ r = .null := by
  by_cases hnull : l = .null ∨ r = .null
  · rw [evaluateBinary, if_pos hnull] at h
    cases h
    exact iff_of_true rfl hnull
  · have htype := evaluateBinary_type hnull h
    refine iff_of_false ?_ hnull
    rintro rfl
    cases htype

theorem evaluateUnary_null {op : UnaryOperator} (h : evaluateUnary op v = .ok r) :
    r = .null ↔ v = .null := by
  cases v <;> cases op <;> cases h <;> simp

/-- **NULL is contagious**, up to the next `IS NULL`. -/
theorem evaluate_null_iff (h : evaluateExpr (arithmetic b f c) row e = .ok v) :
    v = .null ↔ nullLeaf row e = true := by
  induction e generalizing v with
  | literal l =>
    cases h
    exact decide_eq_true_iff.symm
  | columnRef col =>
    cases h
    exact decide_eq_true_iff.symm
  | binaryOp left op right ty ihl ihr =>
    obtain ⟨vl, hl, h⟩ := bind_ok.1 h
    obtain ⟨vr, hr, h⟩ := bind_ok.1 h
    rw [evaluateBinary_null h, ihl hl, ihr hr, nullLeaf, Bool.or_eq_true]
  | unaryOp op expr ty ih =>
    obtain ⟨w, hw, h⟩ := bind_ok.1 h
    rw [evaluateUnary_null h, ih hw, nullLeaf]
  | isNull expr negated ih =>
    obtain ⟨w, hw, h⟩ := bind_ok.1 h
    cases h
    simp [nullLeaf]
  | now => cases h
  | sequenceCall => cases h

/-- On two truth values, AND and OR are those of `evaluate_binary`. -/
theorem kleeneBinary_of_ne_null (hl : l ≠ .null) (hr : r ≠ .null)
    (h : evaluateBinary (arithmetic b f c) op l r = .ok v) :
    kleeneBinary (arithmetic b f c) op l r = .ok v := by
  unfold kleeneBinary
  split
  · next x y hx hy =>
    cases l <;> cases hx <;> first | exact absurd rfl hl | skip
    cases r <;> cases hy <;> first | exact absurd rfl hr | skip
    next x y => cases x <;> cases y <;> exact h
  · next x y hx hy =>
    cases l <;> cases hx <;> first | exact absurd rfl hl | skip
    cases r <;> cases hy <;> first | exact absurd rfl hr | skip
    next x y => cases x <;> cases y <;> exact h
  · exact h

/-- **What is not NULL is the value of three-valued logic**, with every `IS NULL` settled. -/
theorem evaluate_settled (h : evaluateExpr (arithmetic b f c) row e = .ok v) (hv : v ≠ .null) :
    kleene (arithmetic b f c) row (settle row e) = .ok v := by
  induction e generalizing v with
  | literal l => exact h
  | columnRef col => exact h
  | binaryOp left op right ty ihl ihr =>
    obtain ⟨vl, hl, h⟩ := bind_ok.1 h
    obtain ⟨vr, hr, h⟩ := bind_ok.1 h
    obtain ⟨hnl, hnr⟩ := not_or.1 (mt (evaluateBinary_null h).2 hv)
    exact bind_ok.2 ⟨vl, ihl hl hnl, bind_ok.2 ⟨vr, ihr hr hnr, kleeneBinary_of_ne_null hnl hnr h⟩⟩
  | unaryOp op expr ty ih =>
    obtain ⟨w, hw, h⟩ := bind_ok.1 h
    exact bind_ok.2 ⟨w, ih hw (mt (evaluateUnary_null h).2 hv), h⟩
  | isNull expr negated ih =>
    obtain ⟨w, hw, h⟩ := bind_ok.1 h
    cases h
    have hleaf := evaluate_null_iff hw
    show Except.ok (Value.bool (nullLeaf row expr != negated)) = _
    by_cases hnull : w = .null
    · rw [hleaf.1 hnull, hnull]
      cases negated <;> rfl
    · rw [Bool.eq_false_iff.2 (mt hleaf.2 hnull)]
      cases negated <;> simp [hnull]
  | now => cases h
  | sequenceCall => cases h

/-- Without AND and OR there is one logic only. -/
theorem kleene_plain (h : plain e = true) :
    kleene (arithmetic b f c) row e = evaluateExpr (arithmetic b f c) row e := by
  induction e with
  | binaryOp left op right ty ihl ihr =>
    simp only [plain, Bool.and_eq_true, bne_iff_ne] at h
    obtain ⟨⟨⟨hand, hor⟩, hl⟩, hr⟩ := h
    have hop : ∀ l r, kleeneBinary (arithmetic b f c) op l r =
        evaluateBinary (arithmetic b f c) op l r := by
      intro l r
      unfold kleeneBinary
      split
      · exact absurd rfl hand
      · exact absurd rfl hor
      · rfl
    rw [kleene, evaluateExpr, ihl hl, ihr hr]
    simp only [hop]
  | unaryOp op expr ty ih => rw [kleene, evaluateExpr, ih h]
  | isNull expr negated ih => rw [kleene, evaluateExpr, ih h]
  | literal l => rfl
  | columnRef col => rfl
  | now => rfl
  | sequenceCall => rfl

end Rule

/-! ## Boolean expressions -/

section Booleans

variable {b : Build} {f : F64Ops} {c : Chrono} {row : List Value} {e : AnalyzedExpr} {l r v : Value}

theorem isTruth_ofTruth (x : Option Bool) : IsTruth (ofTruth x) := by
  cases x with
  | none => exact Or.inl rfl
  | some b => exact Or.inr ⟨b, rfl⟩

theorem truth_of_isTruth (h : IsTruth v) : ∃ x, truth v = some x ∧ (v = .null ↔ x = none) := by
  rcases h with rfl | ⟨b, rfl⟩
  · exact ⟨none, rfl, by simp⟩
  · exact ⟨some b, rfl, by simp⟩

/-- What is not arithmetic has a truth value. -/
theorem isTruth_of_binary {op : BinaryOperator} (hop : op.isArithmetic = false)
    (h : evaluateBinary (arithmetic b f c) op l r = .ok v) : IsTruth v := by
  by_cases hnull : l = .null ∨ r = .null
  · exact Or.inl ((evaluateBinary_null h).2 hnull)
  · have htype := evaluateBinary_type hnull h
    rw [inferBinaryType_bool hop] at htype
    cases v <;> cases htype
    exact Or.inr ⟨_, rfl⟩

/-- AND and OR of truth values, in both logics. -/
theorem connective_cases {op : BinaryOperator} (hop : op = .and ∨ op = .or) {kl kr : Value}
    (hkl : IsTruth kl) (hkr : IsTruth kr) (hl : l ≠ .null → kl ≠ .null)
    (hr : r ≠ .null → kr ≠ .null) (h : evaluateBinary (arithmetic b f c) op l r = .ok v) :
    ∃ k, kleeneBinary (arithmetic b f c) op kl kr = .ok k ∧ IsTruth v ∧ IsTruth k ∧
      (v ≠ .null → k ≠ .null) := by
  obtain ⟨x, hx, hxn⟩ := truth_of_isTruth hkl
  obtain ⟨y, hy, hyn⟩ := truth_of_isTruth hkr
  have hv : IsTruth v := isTruth_of_binary (by rcases hop with rfl | rfl <;> rfl) h
  have hnull : v ≠ .null → x ≠ none ∧ y ≠ none := by
    intro hne
    obtain ⟨hnl, hnr⟩ := not_or.1 (mt (evaluateBinary_null h).2 hne)
    exact ⟨mt hxn.2 (hl hnl), mt hyn.2 (hr hnr)⟩
  rcases hop with rfl | rfl
  · refine ⟨ofTruth (and3 x y), ?_, hv, isTruth_ofTruth _, fun hne => ?_⟩
    · simp only [kleeneBinary, hx, hy]
    · obtain ⟨hx', hy'⟩ := hnull hne
      obtain ⟨p, rfl⟩ := Option.ne_none_iff_exists'.1 hx'
      obtain ⟨q, rfl⟩ := Option.ne_none_iff_exists'.1 hy'
      cases p <;> cases q <;> simp [and3, ofTruth]
  · refine ⟨ofTruth (or3 x y), ?_, hv, isTruth_ofTruth _, fun hne => ?_⟩
    · simp only [kleeneBinary, hx, hy]
    · obtain ⟨hx', hy'⟩ := hnull hne
      obtain ⟨p, rfl⟩ := Option.ne_none_iff_exists'.1 hx'
      obtain ⟨q, rfl⟩ := Option.ne_none_iff_exists'.1 hy'
      cases p <;> cases q <;> simp [or3, ofTruth]

/-- `=` and `<>` of truth values. -/
theorem same_cases {op : BinaryOperator} (hop : op = .eq ∨ op = .ne) {kl kr : Value}
    (hkl : IsTruth kl) (hkr : IsTruth kr) (hl : l ≠ .null → kl ≠ .null)
    (hr : r ≠ .null → kr ≠ .null) (h : evaluateBinary (arithmetic b f c) op l r = .ok v) :
    ∃ k, kleeneBinary (arithmetic b f c) op kl kr = .ok k ∧ IsTruth v ∧ IsTruth k ∧
      (v ≠ .null → k ≠ .null) := by
  have hsame : kleeneBinary (arithmetic b f c) op kl kr = evaluateBinary (arithmetic b f c) op kl kr := by
    rcases hop with rfl | rfl <;> rfl
  have hk : ∃ k, evaluateBinary (arithmetic b f c) op kl kr = .ok k ∧ IsTruth k := by
    rcases hkl with rfl | ⟨x, rfl⟩
    · exact ⟨.null, rfl, Or.inl rfl⟩
    · rcases hkr with rfl | ⟨y, rfl⟩
      · exact ⟨.null, rfl, Or.inl rfl⟩
      · rcases hop with rfl | rfl <;> exact ⟨_, rfl, Or.inr ⟨_, rfl⟩⟩
  obtain ⟨k, hk, hkt⟩ := hk
  refine ⟨k, hsame.trans hk, isTruth_of_binary (by rcases hop with rfl | rfl <;> rfl) h, hkt,
    fun hne => ?_⟩
  obtain ⟨hnl, hnr⟩ := not_or.1 (mt (evaluateBinary_null h).2 hne)
  exact mt (evaluateBinary_null hk).1 (not_or.2 ⟨hl hnl, hr hnr⟩)

/-- **Both logics have a truth value**, and only the evaluator makes one unknown. -/
theorem boolean_cases (hb : Boolean row e) (h : evaluateExpr (arithmetic b f c) row e = .ok v) :
    ∃ k, kleene (arithmetic b f c) row e = .ok k ∧ IsTruth v ∧ IsTruth k ∧
      (v ≠ .null → k ≠ .null) := by
  induction hb generalizing v with
  | literal l hl =>
    cases h
    exact ⟨_, rfl, hl, hl, id⟩
  | columnRef col hcol =>
    cases h
    exact ⟨_, rfl, hcol, hcol, id⟩
  | @comparison l r op hop hl hr ty =>
    have hplain : plain (.binaryOp l op r ty) = true := by
      cases op <;> cases hop <;> simp [plain, hl, hr]
    have hv : IsTruth v := by
      obtain ⟨vl, -, h⟩ := bind_ok.1 h
      obtain ⟨vr, -, h⟩ := bind_ok.1 h
      exact isTruth_of_binary (isArithmetic_of_comparison hop) h
    exact ⟨v, (kleene_plain hplain).trans h, hv, hv, id⟩
  | same hop _ _ ty ihl ihr =>
    obtain ⟨vl, hl, h⟩ := bind_ok.1 h
    obtain ⟨vr, hr, h⟩ := bind_ok.1 h
    obtain ⟨kl, hkl, -, htl, hnl⟩ := ihl hl
    obtain ⟨kr, hkr, -, htr, hnr⟩ := ihr hr
    obtain ⟨k, hk, hrest⟩ := same_cases hop htl htr hnl hnr h
    exact ⟨k, bind_ok.2 ⟨kl, hkl, bind_ok.2 ⟨kr, hkr, hk⟩⟩, hrest⟩
  | and _ _ ty ihl ihr =>
    obtain ⟨vl, hl, h⟩ := bind_ok.1 h
    obtain ⟨vr, hr, h⟩ := bind_ok.1 h
    obtain ⟨kl, hkl, -, htl, hnl⟩ := ihl hl
    obtain ⟨kr, hkr, -, htr, hnr⟩ := ihr hr
    obtain ⟨k, hk, hrest⟩ := connective_cases (Or.inl rfl) htl htr hnl hnr h
    exact ⟨k, bind_ok.2 ⟨kl, hkl, bind_ok.2 ⟨kr, hkr, hk⟩⟩, hrest⟩
  | or _ _ ty ihl ihr =>
    obtain ⟨vl, hl, h⟩ := bind_ok.1 h
    obtain ⟨vr, hr, h⟩ := bind_ok.1 h
    obtain ⟨kl, hkl, -, htl, hnl⟩ := ihl hl
    obtain ⟨kr, hkr, -, htr, hnr⟩ := ihr hr
    obtain ⟨k, hk, hrest⟩ := connective_cases (Or.inr rfl) htl htr hnl hnr h
    exact ⟨k, bind_ok.2 ⟨kl, hkl, bind_ok.2 ⟨kr, hkr, hk⟩⟩, hrest⟩
  | not _ ty ih =>
    obtain ⟨w, hw, h⟩ := bind_ok.1 h
    obtain ⟨k, hk, htw, htk, hn⟩ := ih hw
    have hnot : ∀ {x : Value}, IsTruth x → ∃ y, evaluateUnary .not x = .ok y ∧ IsTruth y := by
      intro x hx
      rcases hx with rfl | ⟨p, rfl⟩
      · exact ⟨.null, rfl, Or.inl rfl⟩
      · exact ⟨_, rfl, Or.inr ⟨_, rfl⟩⟩
    obtain ⟨y, hy, hty⟩ := hnot htk
    obtain ⟨v', hv', htv⟩ := hnot htw
    rw [h] at hv'
    cases hv'
    refine ⟨y, bind_ok.2 ⟨k, hk, hy⟩, htv, hty, fun hne => ?_⟩
    exact mt (evaluateUnary_null hy).1 (hn (mt (evaluateUnary_null h).2 hne))
  | isNull _ negated ih =>
    obtain ⟨w, hw, h⟩ := bind_ok.1 h
    obtain ⟨k, hk, -⟩ := ih hw
    cases h
    exact ⟨_, bind_ok.2 ⟨k, hk, rfl⟩, Or.inr ⟨_, rfl⟩, Or.inr ⟨_, rfl⟩, fun _ hnull => by cases hnull⟩
  | isNullPlain hplain negated =>
    have hv : IsTruth v := by
      obtain ⟨w, -, h⟩ := bind_ok.1 h
      cases h
      exact Or.inr ⟨_, rfl⟩
    exact ⟨v, (kleene_plain (by rw [plain]; exact hplain)).trans h, hv, hv, id⟩

end Booleans

/-! ## The consumers' side -/

section Consumers

variable {b : Build} {f : F64Ops} {c : Chrono} {row : List Value} {e : AnalyzedExpr} {v : Value}

/-- A row that `Filter` keeps. -/
theorem filterNext_some {arith : Arith} {rows rest : List (List Value)}
    (h : filterNext arith e rows = .ok (some (row, rest))) : evaluateExpr arith row e = .ok (.bool true) := by
  induction rows with
  | nil => cases h
  | cons r rows ih =>
    obtain ⟨w, hw, h⟩ := bind_ok.1 h
    split at h
    · cases h
      exact hw
    · exact ih h
    · exact ih h
    · cases h

/-- A row that every CHECK takes. -/
theorem enforceCheckConstraints_ok {arith : Arith} {checks : List (String × AnalyzedExpr)}
    (h : enforceCheckConstraints arith row checks = .ok ()) {name : String} (hmem : (name, e) ∈ checks) :
    evaluateExpr arith row e = .ok (.bool true) ∨ evaluateExpr arith row e = .ok .null := by
  induction checks with
  | nil => cases hmem
  | cons check checks ih =>
    obtain ⟨n, x⟩ := check
    obtain ⟨w, hw, htail⟩ := bind_ok.1 h
    rcases List.mem_cons.1 hmem with heq | hmem
    · cases heq
      split at htail
      · exact Or.inl hw
      · cases htail
      · exact Or.inr hw
      · cases htail
    · split at htail
      · exact ih htail hmem
      · cases htail
      · exact ih htail hmem
      · cases htail

/-- **When a predicate is safe**: where three-valued logic says FALSE, no NULL gets in the way,
neither as an operand nor below an `IS NULL`. -/
theorem conservative_iff (hb : Boolean row e) (h : evaluateExpr (arithmetic b f c) row e = .ok v) :
    Conservative (arithmetic b f c) row e ↔
      (kleene (arithmetic b f c) row e = .ok (.bool false) →
        nullLeaf row e = false ∧
          kleene (arithmetic b f c) row (settle row e) = .ok (.bool false)) := by
  obtain ⟨k, hk, htv, htk, hnull⟩ := boolean_cases hb h
  constructor
  · rintro ⟨-, hcheck⟩ hfalse
    have hrejected := hcheck "" [("", e)] List.mem_cons_self hfalse
    have hv : v = .bool false := by
      rcases htv with rfl | ⟨x, rfl⟩
      · exact absurd (by rw [enforceCheckConstraints, h]; rfl) hrejected
      · cases x with
        | false => rfl
        | true => exact absurd (by rw [enforceCheckConstraints, h]; rfl) hrejected
    subst hv
    have hne : Value.bool false ≠ .null := fun hn => by cases hn
    exact ⟨Bool.eq_false_iff.2 (mt (evaluate_null_iff h).2 hne), evaluate_settled h hne⟩
  · intro hcond
    have hvalue : kleene (arithmetic b f c) row e = .ok (.bool false) → v = .bool false := by
      intro hfalse
      obtain ⟨hleaf, hsettled⟩ := hcond hfalse
      have hne := mt (evaluate_null_iff h).1 (Bool.eq_false_iff.1 hleaf)
      have heq := (evaluate_settled h hne).symm.trans hsettled
      exact Except.ok.inj heq
    refine ⟨fun rows rest hkept => ?_, fun name checks hmem hfalse hok => ?_⟩
    · have htrue := filterNext_some hkept
      rw [h] at htrue
      cases htrue
      obtain ⟨x, rfl⟩ := htk.resolve_left (hnull fun hn => by cases hn)
      cases x with
      | true => exact hk
      | false =>
        have hv := hvalue hk
        cases hv
    · have hv := hvalue hfalse
      subst hv
      rcases enforceCheckConstraints_ok hok hmem with htrue | hn
      · rw [h] at htrue
        cases htrue
      · rw [h] at hn
        cases hn

end Consumers

/-! ## A CHECK that takes a row it is FALSE for -/

/-- `a > 0 AND b > 0`. -/
def bothPositive : AnalyzedExpr :=
  .binaryOp (.binaryOp (.columnRef ⟨0, .int⟩) .gt (.literal ⟨.integer 0, some .int⟩) .bool) .and
    (.binaryOp (.columnRef ⟨1, .int⟩) .gt (.literal ⟨.integer 0, some .int⟩) .bool) .bool

theorem bothPositive_boolean (row : List Value) : Boolean row bothPositive :=
  .and (.comparison rfl rfl rfl _) (.comparison rfl rfl rfl _) _

theorem conservative_without_nulls :
    Conservative (arithmetic .release noF64 chronoYears) [.int (-1), .int 2] bothPositive :=
  (conservative_iff (bothPositive_boolean _) (show _ = Except.ok (Value.bool false) by decide +kernel)).2
    fun _ => by decide +kernel

/-- **The row `(-1, NULL)`** passes the CHECK. -/
theorem check_accepts_false : ¬ ∀ (b : Build) (f : F64Ops) (c : Chrono) (row : List Value)
    (e : AnalyzedExpr) (v : Value), Boolean row e → evaluateExpr (arithmetic b f c) row e = .ok v →
    Conservative (arithmetic b f c) row e := by
  intro h
  obtain ⟨-, hcheck⟩ := h .release noF64 chronoYears [.int (-1), .null] bothPositive .null
    (bothPositive_boolean _) (by decide +kernel)
  exact hcheck "positive" [("positive", bothPositive)] List.mem_cons_self (by decide +kernel)
    (by decide +kernel)

end Ccdb.ThreeValued
