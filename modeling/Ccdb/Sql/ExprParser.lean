import Ccdb.Sql.Ast
import Ccdb.Sql.Lexer

/-!
# Ccdb — the parser of expressions

`parse_expr` and what it calls (`parser.rs`), on the tokens that are left. IN and BETWEEN
are written out with the operators. The dates and times are read by `chrono`, a parameter.

Main results:

* `parseExpr_parses` — the parser ends, and what is known of the expression it returns.
-/

namespace Ccdb.ExprParser

open Lexer
open Ccdb.Interval (SecMicros)

/-! ## Dates and times -/

/-- `parse_from_str` of `chrono`, for a format: the nanoseconds of a `NaiveDateTime` and the
days of a `NaiveDate` since the first of January 2000, the nanoseconds of a `NaiveTime` since
midnight; `dateError` is the message for a text that is no date. The seconds of an interval are a floating point number. -/
structure ParseFromStr where
  dateTime : String → List Char → Option Int
  date : String → List Char → Option Int
  time : String → List Char → Option Int
  dateError : List Char → String
  seconds : SecMicros

def dateTimeFormats : List String :=
  ["%Y-%m-%d %H:%M:%S%.f", "%Y-%m-%d %H:%M:%S", "%Y-%m-%dT%H:%M:%S%.f", "%Y-%m-%dT%H:%M:%S", "%Y-%m-%d"]

def dateFormat : String := "%Y-%m-%d"

def timeFormats : List String := ["%H:%M:%S%.f", "%H:%M:%S", "%H:%M"]

section Literals

variable (c : ParseFromStr)

def parseTimestampLiteral (s : List Char) : Except DbError Int64 :=
  let trimmed := trim s
  match (dateTimeFormats.findSome? fun format => c.dateTime format trimmed).or
      ((c.date dateFormat trimmed).map (· * 86400000000000)) with
  | none => .error (.bail s!"invalid timestamp literal: {repr (String.ofList trimmed)}")
  | some ns =>
    if InI64 (ns.tdiv 1000) then .ok (Int64.ofInt (ns.tdiv 1000))
    else .error (.bail "timestamp out of range")

def parseDateLiteral (s : List Char) : Except DbError Int32 :=
  match c.date dateFormat (trim s) with
  | none =>
    .error (.bail s!"invalid date literal {repr (String.ofList s)}: {c.dateError (trim s)}")
  | some days =>
    if InI32 days then .ok (Int32.ofInt days) else .error (.bail "date out of i32 range")

def parseTimeLiteral (s : List Char) : Except DbError Int64 :=
  match timeFormats.findSome? fun format => c.time format (trim s) with
  | none => .error (.bail s!"invalid time literal: {repr (String.ofList s)}")
  | some ns =>
    if InI64 (ns.tdiv 1000) then .ok (Int64.ofInt (ns.tdiv 1000))
    else .error (.bail "time out of range")

end Literals

/-! ## The parser -/

/-- A method of the parser: what it returns, and the tokens that are left. -/
abbrev Parser (α : Type) := List Token → Except DbError (α × List Token)

def expect (want : Token) : List Token → Except DbError (List Token)
  | t :: ts =>
    if t = want then .ok ts
    else .error (.bail s!"expected {repr want}, got {repr (some t)}")
  | [] => .error (.bail s!"expected {repr want}, got {repr (none : Option Token)}")

def orOp : Token → Option BinaryOperator
  | .keyword .or => some .or
  | _ => none

def andOp : Token → Option BinaryOperator
  | .keyword .and => some .and
  | _ => none

def comparisonOp : Token → Option BinaryOperator
  | .eq => some .eq
  | .ne => some .ne
  | .lt => some .lt
  | .le => some .le
  | .gt => some .gt
  | .ge => some .ge
  | _ => none

def additiveOp : Token → Option BinaryOperator
  | .plus => some .add
  | .minus => some .sub
  | _ => none

def multiplicativeOp : Token → Option BinaryOperator
  | .asterisk => some .mul
  | .slash => some .div
  | _ => none

/-- The loop over the operators of one precedence. -/
def leftLoop (op? : Token → Option BinaryOperator) (next : Parser Expr) :
    Nat → Expr → Parser Expr
  | 0, _, _ => .error .diverge
  | n + 1, left, ts =>
    match ts with
    | [] => .ok (left, [])
    | t :: rest =>
      match op? t with
      | none => .ok (left, t :: rest)
      | some op => do
        let (right, rest) ← next rest
        leftLoop op? next n (.binaryOp left op right) rest

/-- `parse_or`, `parse_and`, `parse_additive` and `parse_multiplicative`. -/
def leftAssoc (op? : Token → Option BinaryOperator) (next : Parser Expr) : Parser Expr := fun ts => do
  let (left, ts) ← next ts
  leftLoop op? next (ts.length + 1) left ts

/-- The loop over the items after the first. -/
def itemsLoop (expr : Parser Expr) : Nat → Parser (List Expr)
  | 0, _ => .error .diverge
  | n + 1, ts =>
    match ts with
    | .comma :: ts => do
      let (e, ts) ← expr ts
      let (es, ts) ← itemsLoop expr n ts
      return (e :: es, ts)
    | ts => .ok ([], ts)

def items (expr : Parser Expr) : Parser (List Expr) := fun ts => do
  let (e, ts) ← expr ts
  let (es, ts) ← itemsLoop expr (ts.length + 1) ts
  return (e :: es, ts)

def negate (negated : Bool) (e : Expr) : Expr := if negated then .unaryOp .not e else e

/-- `IS [NOT] NULL`, after IS. -/
def parseIs (left : Expr) : Parser Expr
  | .keyword .not :: ts => do
    let ts ← expect (.keyword .null) ts
    return (.isNull left true, ts)
  | ts => do
    let ts ← expect (.keyword .null) ts
    return (.isNull left false, ts)

/-- `[NOT] IN (…)`, after IN. -/
def parseIn (expr : Parser Expr) (left : Expr) (negated : Bool) : Parser Expr := fun ts => do
  let ts ← expect .lparen ts
  let (es, ts) ← items expr ts
  let ts ← expect .rparen ts
  match es with
  | [] => .error (.panic "IN list non-empty")
  | first :: es =>
    let acc := es.foldl (fun acc v => .binaryOp acc .or (.binaryOp left .eq v))
      (.binaryOp left .eq first)
    return (negate negated acc, ts)

/-- `[NOT] BETWEEN … AND …`, after BETWEEN. -/
def parseBetween (additive : Parser Expr) (left : Expr) (negated : Bool) : Parser Expr := fun ts => do
  let (low, ts) ← additive ts
  let ts ← expect (.keyword .and) ts
  let (high, ts) ← additive ts
  return (negate negated (.binaryOp (.binaryOp left .ge low) .and (.binaryOp left .le high)), ts)

def parseComparison (additive expr : Parser Expr) : Parser Expr := fun ts => do
  let (left, ts) ← additive ts
  match ts with
  | .keyword .is :: ts => parseIs left ts
  | .keyword .in :: ts => parseIn expr left false ts
  | .keyword .not :: .keyword .in :: ts => parseIn expr left true ts
  | .keyword .between :: ts => parseBetween additive left false ts
  | .keyword .not :: .keyword .between :: ts => parseBetween additive left true ts
  | [] => .ok (left, [])
  | t :: rest =>
    match comparisonOp t with
    | none => .ok (left, t :: rest)
    | some op => do
      let (right, rest) ← additive rest
      return (.binaryOp left op right, rest)

def parseUnary (primary : Parser Expr) : Parser Expr
  | .keyword .not :: ts => do
    let (e, ts) ← parseUnary primary ts
    return (.unaryOp .not e, ts)
  | .minus :: ts => do
    let (e, ts) ← parseUnary primary ts
    return (.unaryOp .neg e, ts)
  | ts => primary ts

def parseIdent : Parser String
  | .ident s :: ts => .ok (s, ts)
  | ts => .error (.bail s!"expected identifier, got {repr ts.head?}")

/-- The arguments of a call, after the bracket. -/
def parseArgs (expr : Parser Expr) (name : String) : Parser Expr
  | .asterisk :: ts => do
    let ts ← expect .rparen ts
    return (.funcCall name none, ts)
  | .rparen :: ts => .ok (.funcCall name (some []), ts)
  | ts => do
    let (es, ts) ← items expr ts
    let ts ← expect .rparen ts
    return (.funcCall name (some es), ts)

/-- `expect_string_literal_after`, and the literal that is read from the string. -/
def typedLiteral {α : Type} (kw : String) (parse : List Char → Except DbError α)
    (literal : α → LiteralValue) : Parser Expr
  | .string s :: ts => do
    let x ← parse s.toList
    return (.literal (literal x), ts)
  | ts => .error (.bail s!"expected string literal after {kw}, got {repr ts.head?}")

def parsePrimary (b : Build) (c : ParseFromStr) (expr : Parser Expr) : Parser Expr
  | .keyword .timestamp :: ts => typedLiteral "TIMESTAMP" (parseTimestampLiteral c) .timestamp ts
  | .keyword .date :: ts => typedLiteral "DATE" (parseDateLiteral c) .date ts
  | .keyword .time :: ts => typedLiteral "TIME" (parseTimeLiteral c) .time ts
  | .keyword .interval :: ts =>
    typedLiteral "INTERVAL" (Interval.parseIntervalLiteral b c.seconds)
      (fun t => .interval t.months t.days t.micros) ts
  | .keyword .currentTimestamp :: ts => .ok (.funcCall "now" (some []), ts)
  | .integer n :: ts => .ok (.literal (.integer n), ts)
  | .float x :: ts => .ok (.literal (.float x), ts)
  | .string s :: ts => .ok (.literal (.string s), ts)
  | .keyword .null :: ts => .ok (.literal .null, ts)
  | .keyword .true :: ts => .ok (.literal (.boolean true), ts)
  | .keyword .false :: ts => .ok (.literal (.boolean false), ts)
  | .param n :: ts => .ok (.param n, ts)
  | .ident s :: .lparen :: ts => parseArgs expr s ts
  | .ident s :: .dot :: ts => do
    let (name, ts) ← parseIdent ts
    return (.column (some s) name, ts)
  | .ident s :: ts => .ok (.column none s, ts)
  | .lparen :: ts => do
    let (e, ts) ← expr ts
    let ts ← expect .rparen ts
    return (e, ts)
  | ts => .error (.bail s!"unexpected token in expression: {repr ts.head?}")

section Levels

variable (b : Build) (c : ParseFromStr) (expr : Parser Expr)

def unaryLevel : Parser Expr := parseUnary (parsePrimary b c expr)

def additiveLevel : Parser Expr := leftAssoc additiveOp (leftAssoc multiplicativeOp (unaryLevel b c expr))

def comparisonLevel : Parser Expr := parseComparison (additiveLevel b c expr) expr

/-- `parse_expr`, with the recursive calls. -/
def exprLevel : Parser Expr := leftAssoc orOp (leftAssoc andOp (comparisonLevel b c expr))

end Levels

/-- `parse_expr`, with as many nested calls. -/
def parseExpr (b : Build) (c : ParseFromStr) : Nat → Parser Expr
  | 0 => fun _ => .error .diverge
  | n + 1 => exprLevel b c (parseExpr b c n)

def parseExprStr (b : Build) (c : ParseFromStr) (s : List Char) : Except DbError Expr := do
  let ts ← tokenize s
  let (e, rest) ← parseExpr b c (ts.length + 1) ts
  match rest with
  | [] => return e
  | extra :: _ => .error (.bail s!"unexpected trailing token in expression: {repr extra}")

/-! ## What a parser does -/

/-- What is known of a leaf that was parsed. -/
def LeafValid : Expr.Leaf → Prop
  | .literal (.integer n) => 0 ≤ n.toInt
  | .literal (.float x) => x.toNat ≤ Binary64.infinity
  | .literal (.string s) => quote ∉ s.toList
  | .literal _ => True
  | .name s => IsName s.toList
  | .param n => n < 2 ^ 64

def Valid (e : Expr) : Prop := ∀ a ∈ e.leaves, LeafValid a

/-- The call ends. Where it returns, the tokens that are left are at the end of `us`. -/
def Outcome {α : Type} (Q : α → Prop) (us : List Token) : Except DbError (α × List Token) → Prop
  | .error e => e ≠ .diverge
  | .ok (a, rest) => rest <:+ us ∧ Q a

/-- On fewer than `k` tokens the parser ends, having taken one at least. -/
def Parses {α : Type} (Q : α → Prop) (k : Nat) (p : Parser α) : Prop :=
  ∀ ts, (∀ t ∈ ts, t.Valid) → ts.length < k → Outcome Q ts.tail (p ts)

section Outcome

variable {α β : Type} {Q : α → Prop} {R : β → Prop} {us vs ts rest : List Token}

theorem Outcome.mono {x : Except DbError (α × List Token)} (h : Outcome Q us x) (huv : us <:+ vs) :
    Outcome Q vs x := by
  cases x with
  | error e => exact h
  | ok p => exact ⟨h.1.trans huv, h.2⟩

theorem Outcome.bind {x : Except DbError (α × List Token)}
    {f : α × List Token → Except DbError (β × List Token)} (hx : Outcome Q us x)
    (hf : ∀ a rest, rest <:+ us → Q a → Outcome R vs (f (a, rest))) : Outcome R vs (x >>= f) := by
  cases x with
  | error e => exact hx
  | ok p => exact hf p.1 p.2 hx.1 hx.2

theorem Outcome.expect {want : Token} {f : List Token → Except DbError (β × List Token)}
    (hf : ∀ rest, rest <:+ ts.tail → Outcome R vs (f rest)) :
    Outcome R vs (ExprParser.expect want ts >>= f) := by
  cases ts with
  | nil => exact DbError.noConfusion
  | cons t ts =>
    rw [ExprParser.expect]
    split
    · exact hf ts List.suffix_rfl
    · exact DbError.noConfusion

theorem Outcome.ok {a : α} (hrest : rest <:+ us) (ha : Q a) :
    Outcome Q us (.ok (a, rest) : Except DbError (α × List Token)) :=
  ⟨hrest, ha⟩

theorem tail_suffix (ts : List Token) : ts.tail <:+ ts := List.tail_suffix ts

theorem valid_suffix (h : ∀ t ∈ ts, t.Valid) (hs : rest <:+ ts) : ∀ t ∈ rest, t.Valid :=
  fun t ht => h t (hs.subset ht)

end Outcome

section Valid

variable {e l r : Expr} {op : BinaryOperator}

theorem valid_binaryOp (hl : Valid l) (hr : Valid r) : Valid (.binaryOp l op r) := by
  rw [Valid, Expr.leaves]
  exact List.forall_mem_append.2 ⟨hl, hr⟩

theorem valid_unaryOp {op : UnaryOperator} (h : Valid e) : Valid (.unaryOp op e) := by
  rw [Valid, Expr.leaves]
  exact h

theorem valid_isNull {negated : Bool} (h : Valid e) : Valid (.isNull e negated) := by
  rw [Valid, Expr.leaves]
  exact h

theorem valid_negate {negated : Bool} (h : Valid e) : Valid (negate negated e) := by
  rw [negate]
  split
  · exact valid_unaryOp h
  · exact h

theorem valid_call {name : String} {es : List Expr} (hn : IsName name.toList)
    (h : ∀ e ∈ es, Valid e) : Valid (.funcCall name (some es)) := by
  rw [Valid, Expr.leaves, Expr.leavesList_eq]
  refine List.forall_mem_cons.2 ⟨hn, fun a ha => ?_⟩
  obtain ⟨e, he, ha⟩ := List.mem_flatMap.1 ha
  exact h e he a ha

theorem valid_foldl {es : List Expr} {acc : Expr} (hacc : Valid acc) (hl : Valid l)
    (h : ∀ e ∈ es, Valid e) :
    Valid (es.foldl (fun acc v => .binaryOp acc .or (.binaryOp l .eq v)) acc) := by
  induction es generalizing acc with
  | nil => exact hacc
  | cons e es ih =>
    obtain ⟨he, hes⟩ := List.forall_mem_cons.1 h
    exact ih (valid_binaryOp hacc (valid_binaryOp hl he)) hes

end Valid

section Parses

variable {k n : Nat} {next expr additive primary : Parser Expr}
  {op? : Token → Option BinaryOperator} {ts : List Token} {left : Expr}

theorem leftLoop_outcome (hnext : Parses Valid k next) (hleft : Valid left)
    (hts : ∀ t ∈ ts, t.Valid) (hk : ts.length < k) (hn : ts.length < n) :
    Outcome Valid ts (leftLoop op? next n left ts) := by
  induction n generalizing left ts with
  | zero => exact absurd hn (Nat.not_lt_zero _)
  | succ n ih =>
    cases ts with
    | nil => exact .ok List.suffix_rfl hleft
    | cons t rest =>
      rw [leftLoop]
      split
      · exact .ok List.suffix_rfl hleft
      · rw [List.length_cons] at hk hn
        have hrest := valid_suffix hts (List.suffix_cons t rest)
        refine (hnext rest hrest (by omega)).bind fun right rest' hs hright => ?_
        have hs' : rest' <:+ rest := hs.trans (tail_suffix rest)
        have := hs'.length_le
        exact (ih (valid_binaryOp hleft hright) (valid_suffix hrest hs') (by omega) (by omega)).mono
          (hs'.trans (List.suffix_cons t rest))

theorem leftAssoc_parses (hnext : Parses Valid k next) : Parses Valid k (leftAssoc op? next) := by
  intro ts hts hk
  refine (hnext ts hts hk).bind fun left rest hs hleft => ?_
  have hs' := hs.trans (tail_suffix ts)
  have := hs'.length_le
  exact (leftLoop_outcome hnext hleft (valid_suffix hts hs') (by omega) (by omega)).mono hs

theorem itemsLoop_outcome (hexpr : Parses Valid k expr) (hts : ∀ t ∈ ts, t.Valid)
    (hk : ts.length < k) (hn : ts.length < n) :
    Outcome (fun es => ∀ e ∈ es, Valid e) ts (itemsLoop expr n ts) := by
  induction n generalizing ts with
  | zero => exact absurd hn (Nat.not_lt_zero _)
  | succ n ih =>
    unfold itemsLoop
    split
    · next rest =>
      rw [List.length_cons] at hk hn
      have hrest := valid_suffix hts (List.suffix_cons .comma rest)
      refine (hexpr rest hrest (by omega)).bind fun e rest' hs he => ?_
      have hs' : rest' <:+ rest := hs.trans (tail_suffix rest)
      have := hs'.length_le
      refine (ih (valid_suffix hrest hs') (by omega) (by omega)).bind fun es rest'' hs'' hes => ?_
      exact .ok (hs''.trans (hs'.trans (List.suffix_cons .comma rest)))
        (List.forall_mem_cons.2 ⟨he, hes⟩)
    · exact .ok List.suffix_rfl (List.forall_mem_nil _)

theorem items_parses (hexpr : Parses Valid k expr) :
    Parses (fun es => ∀ e ∈ es, Valid e) k (items expr) := by
  intro ts hts hk
  refine (hexpr ts hts hk).bind fun e rest hs he => ?_
  have hs' := hs.trans (tail_suffix ts)
  have := hs'.length_le
  refine (itemsLoop_outcome hexpr (valid_suffix hts hs') (by omega) (by omega)).bind
    fun es rest' hs'' hes => ?_
  exact .ok (hs''.trans hs) (List.forall_mem_cons.2 ⟨he, hes⟩)

theorem parseIs_outcome (hleft : Valid left) : Outcome Valid ts (parseIs left ts) := by
  unfold parseIs
  split
  · next rest =>
    refine Outcome.expect fun rest' hs => .ok ?_ (valid_isNull hleft)
    exact hs.trans ((tail_suffix rest).trans (List.suffix_cons _ rest))
  · exact Outcome.expect fun rest' hs => .ok (hs.trans (tail_suffix ts)) (valid_isNull hleft)

theorem parseIn_outcome {negated : Bool} (hexpr : Parses Valid k expr) (hleft : Valid left)
    (hts : ∀ t ∈ ts, t.Valid) (hk : ts.length < k) :
    Outcome Valid ts (parseIn expr left negated ts) := by
  refine Outcome.expect fun rest hs => ?_
  have hs' := hs.trans (tail_suffix ts)
  have := hs'.length_le
  refine (items_parses hexpr rest (valid_suffix hts hs') (by omega)).bind fun es rest' hs₂ hes => ?_
  have hs₂' := (hs₂.trans (tail_suffix rest)).trans hs'
  refine Outcome.expect fun rest'' hs₃ => ?_
  dsimp only
  split
  · exact DbError.noConfusion
  · next first es =>
    obtain ⟨hfirst, hes⟩ := List.forall_mem_cons.1 hes
    exact .ok ((hs₃.trans (tail_suffix rest')).trans hs₂')
      (valid_negate (valid_foldl (valid_binaryOp hleft hfirst) hleft hes))

theorem parseBetween_outcome {negated : Bool} (hadd : Parses Valid k additive) (hleft : Valid left)
    (hts : ∀ t ∈ ts, t.Valid) (hk : ts.length < k) :
    Outcome Valid ts (parseBetween additive left negated ts) := by
  refine (hadd ts hts hk).bind fun low rest hs hlow => ?_
  have hs' := hs.trans (tail_suffix ts)
  refine Outcome.expect fun rest' hs₂ => ?_
  have hs₂' := (hs₂.trans (tail_suffix rest)).trans hs'
  have := hs₂'.length_le
  refine (hadd rest' (valid_suffix hts hs₂') (by omega)).bind fun high rest'' hs₃ hhigh => ?_
  exact .ok ((hs₃.trans (tail_suffix rest')).trans hs₂') (valid_negate
    (valid_binaryOp (valid_binaryOp hleft hlow) (valid_binaryOp hleft hhigh)))

theorem parseComparison_parses (hadd : Parses Valid (k + 1) additive) (hexpr : Parses Valid k expr) :
    Parses Valid (k + 1) (parseComparison additive expr) := by
  intro ts hts hk
  refine (hadd ts hts hk).bind fun left rest hs hleft => ?_
  have hs' := hs.trans (tail_suffix ts)
  have hlen := hs'.length_le
  have hrest := valid_suffix hts hs'
  suffices h : Outcome Valid rest _ from h.mono hs
  -- After a keyword there are fewer tokens, all of them valid.
  have hsuffix : ∀ {t : Token} {us}, t :: us <:+ rest → (∀ t ∈ us, t.Valid) ∧ us.length < k := by
    intro t us h
    have := h.length_le
    rw [List.length_cons] at this
    exact ⟨valid_suffix hrest ((List.suffix_cons t us).trans h), by omega⟩
  dsimp only
  split
  · next us => exact (parseIs_outcome hleft).mono (List.suffix_cons _ us)
  · next us =>
    obtain ⟨hus, hlt⟩ := hsuffix List.suffix_rfl
    exact (parseIn_outcome hexpr hleft hus hlt).mono (List.suffix_cons _ us)
  · next us =>
    have h₂ : us <:+ .keyword .not :: .keyword .in :: us := ⟨[_, _], rfl⟩
    obtain ⟨hus, hlt⟩ := hsuffix (List.suffix_cons _ _)
    exact (parseIn_outcome hexpr hleft hus hlt).mono h₂
  · next us =>
    obtain ⟨hus, hlt⟩ := hsuffix List.suffix_rfl
    exact (parseBetween_outcome hadd hleft hus (Nat.lt_succ_of_lt hlt)).mono (List.suffix_cons _ us)
  · next us =>
    have h₂ : us <:+ .keyword .not :: .keyword .between :: us := ⟨[_, _], rfl⟩
    obtain ⟨hus, hlt⟩ := hsuffix (List.suffix_cons _ _)
    exact (parseBetween_outcome hadd hleft hus (Nat.lt_succ_of_lt hlt)).mono h₂
  · exact .ok List.suffix_rfl hleft
  · next t us _ _ _ _ _ =>
    split
    · exact .ok List.suffix_rfl hleft
    · obtain ⟨hus, hlt⟩ := hsuffix List.suffix_rfl
      refine (hadd us hus (Nat.lt_succ_of_lt hlt)).bind fun right rest' hs₂ hright => ?_
      exact .ok ((hs₂.trans (tail_suffix us)).trans (List.suffix_cons t us))
        (valid_binaryOp hleft hright)

theorem parseUnary_parses (hprim : Parses Valid k primary) : Parses Valid k (parseUnary primary) := by
  intro ts
  induction ts with
  | nil => exact hprim []
  | cons t ts ih =>
    intro hts hk
    have hlt : ts.length < k := Nat.lt_of_succ_lt hk
    have hrest := valid_suffix hts (List.suffix_cons t ts)
    unfold parseUnary
    split
    · next us heq =>
      cases heq
      refine (ih hrest hlt).bind fun e rest hs he => ?_
      exact .ok (hs.trans (tail_suffix _)) (valid_unaryOp he)
    · next us heq =>
      cases heq
      refine (ih hrest hlt).bind fun e rest hs he => ?_
      exact .ok (hs.trans (tail_suffix _)) (valid_unaryOp he)
    · exact hprim _ hts hk

end Parses

/-! ## Typed literals -/

section TypedLiterals

variable {b : Build} {c : ParseFromStr} {s : List Char} {α : Type}

theorem parseTimestampLiteral_ends : parseTimestampLiteral c s ≠ .error .diverge := by
  unfold parseTimestampLiteral
  dsimp only
  repeat' split
  all_goals exact fun h => by cases h

theorem parseDateLiteral_ends : parseDateLiteral c s ≠ .error .diverge := by
  unfold parseDateLiteral
  repeat' split
  all_goals exact fun h => by cases h

theorem parseTimeLiteral_ends : parseTimeLiteral c s ≠ .error .diverge := by
  unfold parseTimeLiteral
  repeat' split
  all_goals exact fun h => by cases h

theorem i64_ends {what : String} {n : Int} : b.i64 what n ≠ .error .diverge := by
  unfold Build.i64
  split
  · exact fun h => by cases h
  · exact fun h => by cases h

theorem i32_ends {what : String} {n : Int} : b.i32 what n ≠ .error .diverge := by
  unfold Build.i32
  split
  · exact fun h => by cases h
  · exact fun h => by cases h

theorem parseHms_ends {f : SecMicros} : Interval.parseHms b f s ≠ .error .diverge := by
  unfold Interval.parseHms
  split
  · split
    · exact ok_ends
    · split
      · refine bind_ends i64_ends fun hours => bind_ends i64_ends fun minutes =>
          bind_ends i64_ends fun micros => ?_
        split
        · exact ok_ends
        · split
          · exact ok_ends
          · exact bind_ends i64_ends fun micros => ok_ends
      · exact ok_ends
  · exact ok_ends

theorem add_ends {t : Interval.Fields} {size : Interval.Size} {n : Int64} :
    t.add b size n ≠ .error .diverge := by
  unfold Interval.Fields.add
  refine bind_ends i64_ends fun x => ?_
  split
  · exact bind_ends i32_ends fun m => ok_ends
  · exact bind_ends i32_ends fun d => ok_ends
  · exact bind_ends i64_ends fun u => ok_ends

theorem parseTokens_ends {f : SecMicros} {words : List (List Char)} {t : Interval.Fields} :
    Interval.parseTokens b f words t ≠ .error .diverge := by
  induction h : words.length using Nat.strong_induction_on generalizing words t with
  | _ k ih =>
    subst h
    cases words with
    | nil => exact ok_ends
    | cons tok rest =>
      unfold Interval.parseTokens
      refine bind_ends parseHms_ends fun us => ?_
      cases us with
      | some us => exact bind_ends i64_ends fun micros => ih _ (Nat.lt_succ_self _) rfl
      | none =>
        dsimp only
        split
        · exact bail_ends
        · next unit rest' =>
          split
          · exact bail_ends
          · split
            · exact bail_ends
            · refine bind_ends add_ends fun t' => ih rest'.length ?_ rfl
              simp only [List.length_cons]
              omega

theorem parseIntervalLiteral_ends {f : SecMicros} :
    Interval.parseIntervalLiteral b f s ≠ .error .diverge :=
  parseTokens_ends

theorem typedLiteral_outcome {kw : String} {parse : List Char → Except DbError α} {literal : α → LiteralValue}
    (hends : ∀ s, parse s ≠ .error .diverge) (hvalid : ∀ x, LeafValid (.literal (literal x)))
    (ts : List Token) : Outcome Valid ts (typedLiteral kw parse literal ts) := by
  unfold typedLiteral
  split
  · next s rest =>
    cases hs : parse s.toList with
    | error e => exact fun h => hends s.toList (by rw [hs, h])
    | ok x => exact .ok (List.suffix_cons _ rest) (List.forall_mem_singleton.2 (hvalid x))
  · exact DbError.noConfusion

end TypedLiterals

/-! ## The whole parser -/

section Whole

variable {b : Build} {c : ParseFromStr} {expr : Parser Expr} {k : Nat} {ts : List Token}

theorem parseArgs_outcome {name : String} (hname : IsName name.toList) (hexpr : Parses Valid k expr)
    (hts : ∀ t ∈ ts, t.Valid) (hk : ts.length < k) : Outcome Valid ts (parseArgs expr name ts) := by
  unfold parseArgs
  split
  · next rest =>
    refine Outcome.expect fun rest' hs => .ok ?_ (List.forall_mem_singleton.2 hname)
    exact (hs.trans (tail_suffix rest)).trans (List.suffix_cons _ rest)
  · next rest => exact .ok (List.suffix_cons _ rest) (valid_call hname (List.forall_mem_nil _))
  · refine (items_parses hexpr ts hts hk).bind fun es rest hs hes => ?_
    refine Outcome.expect fun rest' hs₂ => .ok ?_ (valid_call hname hes)
    exact (hs₂.trans (tail_suffix rest)).trans (hs.trans (tail_suffix ts))

theorem isName_now : IsName "now".toList :=
  ⟨⟨'n', ['o', 'w'], rfl, rfl⟩, List.all_eq_true.1 (by decide), by decide⟩

theorem parsePrimary_parses (hexpr : Parses Valid k expr) :
    Parses Valid (k + 1) (parsePrimary b c expr) := by
  intro ts hts hk
  cases ts with
  | nil => exact DbError.noConfusion
  | cons t ts =>
    have hk' : ts.length < k := Nat.lt_of_succ_lt_succ hk
    obtain ⟨ht, hrest⟩ := List.forall_mem_cons.1 hts
    -- A literal takes its token; so does a name without a bracket or a point.
    have hleaf : ∀ {e : Expr} {a : Expr.Leaf}, e.leaves = [a] → LeafValid a →
        Outcome Valid ts (.ok (e, ts)) := fun he ha =>
      .ok List.suffix_rfl (by rw [Valid, he]; exact List.forall_mem_singleton.2 ha)
    rw [List.tail_cons]
    unfold parsePrimary
    split
    · next us heq =>
      cases heq
      exact typedLiteral_outcome (fun _ => parseTimestampLiteral_ends) (by exact fun _ => trivial) ts
    · next us heq =>
      cases heq
      exact typedLiteral_outcome (fun _ => parseDateLiteral_ends) (by exact fun _ => trivial) ts
    · next us heq =>
      cases heq
      exact typedLiteral_outcome (fun _ => parseTimeLiteral_ends) (by exact fun _ => trivial) ts
    · next us heq =>
      cases heq
      exact typedLiteral_outcome (fun _ => parseIntervalLiteral_ends) (by exact fun _ => trivial) ts
    · next us heq =>
      cases heq
      exact hleaf rfl isName_now
    · next n us heq =>
      cases heq
      exact hleaf rfl ht
    · next x us heq =>
      cases heq
      exact hleaf rfl ht
    · next s us heq =>
      cases heq
      exact hleaf rfl ht
    · next us heq =>
      cases heq
      exact hleaf rfl trivial
    · next us heq =>
      cases heq
      exact hleaf rfl trivial
    · next us heq =>
      cases heq
      exact hleaf rfl trivial
    · next n us heq =>
      cases heq
      exact hleaf rfl ht
    · next s us heq =>
      cases heq
      have hs := List.suffix_cons Token.lparen us
      have := hs.length_le
      exact (parseArgs_outcome ht hexpr (valid_suffix hrest hs) (by omega)).mono hs
    · next s us heq =>
      cases heq
      unfold parseIdent
      split
      · next name rest =>
        have hname : (Token.ident name).Valid := hrest _ (by simp)
        exact .ok ⟨[_, _], rfl⟩ (List.forall_mem_cons.2 ⟨ht, List.forall_mem_singleton.2 hname⟩)
      · exact DbError.noConfusion
    · next s us _ _ heq =>
      cases heq
      exact hleaf rfl ht
    · next us heq =>
      cases heq
      refine (hexpr ts hrest hk').bind fun e rest hs he => ?_
      exact Outcome.expect fun rest' hs₂ =>
        .ok ((hs₂.trans (tail_suffix rest)).trans (hs.trans (tail_suffix ts))) he
    · exact DbError.noConfusion

/-- The parser ends, and what is known of the expression it returns. -/
theorem parseExpr_parses (b : Build) (c : ParseFromStr) (n : Nat) : Parses Valid n (parseExpr b c n) := by
  induction n with
  | zero => exact fun ts _ h => absurd h (Nat.not_lt_zero _)
  | succ n ih =>
    have hunary : Parses Valid (n + 1) (unaryLevel b c (parseExpr b c n)) :=
      parseUnary_parses (parsePrimary_parses ih)
    have hadd : Parses Valid (n + 1) (additiveLevel b c (parseExpr b c n)) :=
      leftAssoc_parses (leftAssoc_parses hunary)
    exact leftAssoc_parses (leftAssoc_parses (parseComparison_parses hadd ih))

end Whole

end Ccdb.ExprParser
