import Ccdb.Sql.ExprParser

/-!
# Ccdb — the texts of expressions

`Display` for `ast::Expr`, in which DEFAULT and CHECK clauses are stored, and
`parse_expr_str`, which reads them. Dates, times and intervals are written as their number
with a unit, which is not what the parser reads. A floating point number without a fraction
is written as an integer, and infinity as a name.

Main results:

* `parseExprStr_display` — what is read from the text of an expression.
* `survives_iff` — when it is the expression.
* `whole_float_lost` — `1.0` and `INTERVAL '1 day'`.
-/

namespace Ccdb.Display

open Lexer ExprParser Decimal
open Ccdb.Interval (parseI64)

/-! ## The texts -/

/-- `Display` for a double that is not negative. -/
def magnitudeText (x : Nat) : List Char :=
  if x = Binary64.infinity then "inf".toList
  else if Binary64.IsWhole x then Binary64.writeWhole x
  else
    match Binary64.writeFraction x with
    | some (whole, fraction) => whole ++ '.' :: fraction
    | none => []

/-- `Display` for `f64`. -/
def floatText (x : UInt64) : List Char :=
  let magnitude := x.toNat % 2 ^ 63
  if Binary64.infinity < magnitude then "NaN".toList
  else signed (2 ^ 63 ≤ x.toNat) (magnitudeText magnitude)

def quoted (s : List Char) : List Char := quote :: (s ++ [quote])

/-- The literal with every quote twice. -/
def escaped (s : List Char) : List Char := s.flatMap fun c => if c = quote then [quote, quote] else [c]

def literalText : LiteralValue → List Char
  | .integer n => text n.toInt
  | .float x => floatText x
  | .boolean v => (if v then "TRUE" else "FALSE").toList
  | .null => "NULL".toList
  | .string s => quoted (escaped s.toList)
  | .timestamp t => "TIMESTAMP ".toList ++ quoted (text t.toInt ++ ['u', 's'])
  | .date d => "DATE ".toList ++ quoted (text d.toInt ++ ['d'])
  | .time t => "TIME ".toList ++ quoted (text t.toInt ++ ['u', 's'])
  | .interval months days micros => "INTERVAL ".toList ++ quoted (joinWords
      [text months.toInt ++ ['m'], text days.toInt ++ ['d'], text micros.toInt ++ ['u', 's']])

def opText : BinaryOperator → List Char
  | .eq => ['=']
  | .ne => ['<', '>']
  | .lt => ['<']
  | .le => ['<', '=']
  | .gt => ['>']
  | .ge => ['>', '=']
  | .and => "AND".toList
  | .or => "OR".toList
  | .add => ['+']
  | .sub => ['-']
  | .mul => ['*']
  | .div => ['/']

def unaryText : UnaryOperator → List Char
  | .not => "NOT ".toList
  | .neg => ['-']

def isNullText (negated : Bool) : List Char :=
  if negated then " IS NOT NULL)".toList else " IS NULL)".toList

mutual

/-- `Expr::to_string`. -/
def display : Expr → List Char
  | .literal l => literalText l
  | .column (some q) name => q.toList ++ '.' :: name.toList
  | .column none name => name.toList
  | .unaryOp op e => '(' :: (unaryText op ++ (display e ++ [')']))
  | .binaryOp l op r => '(' :: (display l ++ ' ' :: (opText op ++ ' ' :: (display r ++ [')'])))
  | .isNull e negated => '(' :: (display e ++ isNullText negated)
  | .funcCall name none => name.toList ++ ['(', '*', ')']
  | .funcCall name (some es) => name.toList ++ '(' :: (displayArgs es ++ [')'])
  | .param n => '$' :: digits n

def displayArgs : List Expr → List Char
  | [] => []
  | e :: es => display e ++ displayMore es

/-- The arguments after the first. -/
def displayMore : List Expr → List Char
  | [] => []
  | e :: es => ',' :: ' ' :: (display e ++ displayMore es)

end

/-! ## Their tokens -/

def opToken : BinaryOperator → Token
  | .eq => .eq
  | .ne => .ne
  | .lt => .lt
  | .le => .le
  | .gt => .gt
  | .ge => .ge
  | .and => .keyword .and
  | .or => .keyword .or
  | .add => .plus
  | .sub => .minus
  | .mul => .asterisk
  | .div => .slash

def unaryToken : UnaryOperator → Token
  | .not => .keyword .not
  | .neg => .minus

def isNullTokens (negated : Bool) : List Token :=
  if negated then [.keyword .is, .keyword .not, .keyword .null, .rparen]
  else [.keyword .is, .keyword .null, .rparen]

def literalTokens : LiteralValue → Option (List Token)
  | .integer n => some [.integer n]
  | .float x =>
    if x.toNat = Binary64.infinity then some [.ident "inf"]
    else if Binary64.IsWhole x.toNat then
      (parseI64 (Binary64.writeWhole x.toNat)).map fun n => [.integer n]
    else some [.float x]
  | .boolean v => some [.keyword (if v then .true else .false)]
  | .null => some [.keyword .null]
  | .string s => some [.string s]
  | .timestamp t => some [.keyword .timestamp, .string (String.ofList (text t.toInt ++ ['u', 's']))]
  | .date d => some [.keyword .date, .string (String.ofList (text d.toInt ++ ['d']))]
  | .time t => some [.keyword .time, .string (String.ofList (text t.toInt ++ ['u', 's']))]
  | .interval months days micros => some [.keyword .interval, .string (String.ofList (joinWords
      [text months.toInt ++ ['m'], text days.toInt ++ ['d'], text micros.toInt ++ ['u', 's']]))]

mutual

/-- The tokens of the text of an expression, if it has any. -/
def exprTokens : Expr → Option (List Token)
  | .literal l => literalTokens l
  | .column (some q) name => some [.ident q, .dot, .ident name]
  | .column none name => some [.ident name]
  | .unaryOp op e => andThen (some [.lparen, unaryToken op]) (andThen (exprTokens e) (some [.rparen]))
  | .binaryOp l op r => andThen (some [.lparen]) (andThen (exprTokens l)
      (andThen (some [opToken op]) (andThen (exprTokens r) (some [.rparen]))))
  | .isNull e negated => andThen (some [.lparen]) (andThen (exprTokens e) (some (isNullTokens negated)))
  | .funcCall name none => some [.ident name, .lparen, .asterisk, .rparen]
  | .funcCall name (some es) =>
    andThen (some [.ident name, .lparen]) (andThen (argTokens es) (some [.rparen]))
  | .param n => some [.param n]

def argTokens : List Expr → Option (List Token)
  | [] => some []
  | e :: es => andThen (exprTokens e) (moreTokens es)

def moreTokens : List Expr → Option (List Token)
  | [] => some []
  | e :: es => andThen (some [.comma]) (andThen (exprTokens e) (moreTokens es))

end

/-! ## What is read from the text -/

/-- What is read from the text of a literal. -/
def rereadLiteral : LiteralValue → Option Expr
  | .float x =>
    if x.toNat = Binary64.infinity then some (.column none "inf")
    else if Binary64.IsWhole x.toNat then
      (parseI64 (Binary64.writeWhole x.toNat)).map fun n => .literal (.integer n)
    else some (.literal (.float x))
  | .timestamp _ => none
  | .date _ => none
  | .time _ => none
  | .interval _ _ _ => none
  | l => some (.literal l)

mutual

/-- The expression with every literal as it is read from its text. -/
def reread : Expr → Option Expr
  | .literal l => rereadLiteral l
  | .column q name => some (.column q name)
  | .unaryOp op e => (reread e).map (Expr.unaryOp op)
  | .binaryOp l op r => (reread l).bind fun l => (reread r).map fun r => .binaryOp l op r
  | .isNull e negated => (reread e).map fun e => .isNull e negated
  | .funcCall name none => some (.funcCall name none)
  | .funcCall name (some es) => (rereadList es).map fun es => .funcCall name (some es)
  | .param n => some (.param n)

def rereadList : List Expr → Option (List Expr)
  | [] => some []
  | e :: es => (reread e).bind fun e => (rereadList es).map fun es => e :: es

end

/-! ## The tokens of the text -/

section Lexing

variable {s rest : List Char}

theorem lex_keyword {k : Keyword} (hk : wordToken s = .keyword k)
    (hs : ∃ c tail, s = c :: tail ∧ isWordStart c) (hword : s.all isWordChar)
    (hr : StopsAt isWordChar rest) : lex (s ++ rest) = andThen (some [.keyword k]) (lex rest) := by
  rw [lex_word hs (List.all_eq_true.1 hword) hr, hk]

theorem stopsAt_cons {p : Char → Bool} {c : Char} (h : p c = false) : StopsAt p (c :: rest) := by
  intro d hd
  cases hd
  exact h

theorem delim_cons {c : Char} (h : c = ' ' ∨ c = ',' ∨ c = ')') : Delim (c :: rest) := by
  intro d hd
  cases hd
  exact h

theorem delim_nil : Delim [] := fun _ h => nomatch h

theorem lex_lparen (cs : List Char) : lex ('(' :: cs) = andThen (some [.lparen]) (lex cs) :=
  lex_token rfl rfl

theorem lex_rparen (cs : List Char) : lex (')' :: cs) = andThen (some [.rparen]) (lex cs) :=
  lex_token rfl rfl

theorem lex_op (op : BinaryOperator) (cs : List Char) :
    lex (' ' :: (opText op ++ ' ' :: cs)) = andThen (some [opToken op]) (lex cs) := by
  rw [lex_space, ← lex_space cs]
  cases op with
  | and => exact lex_keyword rfl ⟨_, _, rfl, rfl⟩ (by decide) (stopsAt_cons rfl)
  | or => exact lex_keyword rfl ⟨_, _, rfl, rfl⟩ (by decide) (stopsAt_cons rfl)
  | _ => exact lex_token rfl rfl

theorem lex_unary (op : UnaryOperator) (cs : List Char) :
    lex (unaryText op ++ cs) = andThen (some [unaryToken op]) (lex cs) := by
  cases op with
  | not =>
    rw [← lex_space cs]
    exact lex_keyword (s := "NOT".toList) rfl ⟨_, _, rfl, rfl⟩ (by decide) (stopsAt_cons rfl)
  | neg => exact lex_token rfl rfl

theorem lex_isNull (negated : Bool) (cs : List Char) :
    lex (isNullText negated ++ cs) = andThen (some (isNullTokens negated)) (lex cs) := by
  have hnull : lex (' ' :: ("NULL".toList ++ ')' :: cs)) =
      andThen (some [.keyword .null, .rparen]) (lex cs) := by
    rw [lex_space, lex_keyword (s := "NULL".toList) (k := .null) rfl ⟨_, _, rfl, rfl⟩ (by decide) (stopsAt_cons rfl),
      lex_rparen, ← andThen_assoc]
    rfl
  have his : ∀ cs : List Char, lex (' ' :: ("IS".toList ++ ' ' :: cs)) =
      andThen (some [.keyword .is]) (lex (' ' :: cs)) := by
    intro cs
    rw [lex_space, lex_keyword (s := "IS".toList) (k := .is) rfl ⟨_, _, rfl, rfl⟩ (by decide) (stopsAt_cons rfl)]
  cases negated with
  | false =>
    change lex (' ' :: ("IS".toList ++ ' ' :: ("NULL".toList ++ ')' :: cs))) = _
    rw [his, hnull, ← andThen_assoc]
    rfl
  | true =>
    change lex (' ' :: ("IS".toList ++ ' ' :: ("NOT".toList ++ ' ' :: ("NULL".toList ++ ')' :: cs)))) = _
    rw [his, lex_space, lex_keyword (s := "NOT".toList) (k := .not) rfl ⟨_, _, rfl, rfl⟩ (by decide)
      (stopsAt_cons rfl), hnull, ← andThen_assoc, ← andThen_assoc]
    rfl

theorem escaped_eq (h : quote ∉ s) : escaped s = s := by
  rw [escaped]
  induction s with
  | nil => rfl
  | cons c s ih =>
    rw [List.mem_cons, not_or] at h
    rw [List.flatMap_cons, if_neg (Ne.symm h.1), ih h.2]
    rfl

theorem lex_quoted (h : quote ∉ s) :
    lex (quoted s ++ rest) = andThen (some [.string (String.ofList s)]) (lex rest) := by
  rw [quoted, List.cons_append, List.append_assoc]
  exact lex_string h

/-- A number with a unit bears no quote. -/
theorem quote_not_mem {n : Int} {unit : List Char} (h : quote ∉ unit) : quote ∉ text n ++ unit := by
  rw [List.mem_append, not_or]
  refine ⟨fun hq => ?_, h⟩
  rcases mem_text hq with h | h <;> cases h

theorem quote_not_mem_joinWords {ws : List (List Char)} (h : ∀ w ∈ ws, quote ∉ w) :
    quote ∉ joinWords ws := by
  induction ws with
  | nil => exact List.not_mem_nil
  | cons w ws ih =>
    obtain ⟨hw, hws⟩ := List.forall_mem_cons.1 h
    cases ws with
    | nil => rwa [joinWords, List.intercalate_singleton]
    | cons v ws =>
      rw [joinWords, List.intercalate_cons_cons, List.mem_append, List.mem_append, not_or, not_or]
      exact ⟨⟨hw, by decide⟩, ih hws⟩

theorem lex_typed {k : Keyword} (hk : wordToken s = .keyword k)
    (hs : ∃ c tail, s = c :: tail ∧ isWordStart c) (hword : s.all isWordChar)
    {inside : List Char} (h : quote ∉ inside) : lex ((s ++ ' ' :: quoted inside) ++ rest) =
      andThen (some [.keyword k, .string (String.ofList inside)]) (lex rest) := by
  rw [List.append_assoc, List.cons_append, lex_keyword hk hs hword (stopsAt_cons rfl), lex_space,
    lex_quoted h, ← andThen_assoc]
  rfl

theorem lex_floatText {x : UInt64} (hx : x.toNat ≤ Binary64.infinity) (hr : Delim rest) :
    lex (floatText x ++ rest) = andThen (literalTokens (.float x)) (lex rest) := by
  have hlt : x.toNat < 2 ^ 63 := hx.trans_lt (by decide)
  have hmag : x.toNat % 2 ^ 63 = x.toNat := Nat.mod_eq_of_lt hlt
  have htext : floatText x = magnitudeText x.toNat := by
    rw [floatText, hmag, if_neg (Nat.not_lt.2 hx), signed, if_neg (by rw [decide_eq_true_iff]; omega)]
  rw [htext, magnitudeText, literalTokens]
  split
  · exact lex_name ⟨⟨_, _, rfl, rfl⟩, List.all_eq_true.1 (by decide), by decide⟩ (hr.stopsAt ⟨rfl, rfl, rfl⟩)
  · next hinf =>
    have hfin : x.toNat < Binary64.infinity := Nat.lt_of_le_of_ne hx hinf
    split
    · next hwhole => exact lex_integer (Binary64.isNumeral_writeWhole hfin hwhole) hr
    · obtain ⟨whole, fraction, hwrite, hw, hf, hread⟩ := Binary64.readFraction_writeFraction hfin
      rw [hwrite]
      dsimp only
      rw [List.append_assoc, List.cons_append, lex_float hw hf hr, hread]
      simp

theorem typed_append {t q : List Char} (h : t = s ++ [' ']) : t ++ q = s ++ ' ' :: q := by
  rw [h, List.append_assoc, List.singleton_append]

theorem lex_literalText {l : LiteralValue} (hl : LeafValid (.literal l)) (hr : Delim rest) :
    lex (literalText l ++ rest) = andThen (literalTokens l) (lex rest) := by
  have hword : StopsAt isWordChar rest := hr.stopsAt ⟨rfl, rfl, rfl⟩
  cases l with
  | integer n =>
    have hpos : 0 ≤ n.toInt := hl
    obtain ⟨m, hm⟩ := Int.eq_ofNat_of_zero_le hpos
    have hlt : (m : Int) < 2 ^ 63 := by
      rw [← hm]
      exact n.toInt_lt
    change lex (text n.toInt ++ rest) = _
    rw [hm, text_natCast, lex_integer (isNumeral_digits m) hr,
      parseI64_numeral (isNumeral_digits m), value_digits, if_pos hlt, ← hm, Int64.ofInt_toInt]
    rfl
  | float x => exact lex_floatText hl hr
  | string s =>
    have hq : quote ∉ s.toList := hl
    change lex (quoted (escaped s.toList) ++ rest) = _
    rw [escaped_eq hq, lex_quoted hq, String.ofList_toList]
    rfl
  | boolean v => cases v <;> exact lex_keyword rfl ⟨_, _, rfl, rfl⟩ (by decide) hword
  | null => exact lex_keyword rfl ⟨_, _, rfl, rfl⟩ (by decide) hword
  | timestamp t =>
    change lex (("TIMESTAMP ".toList ++ quoted _) ++ rest) = andThen (some _) _
    rw [typed_append (t := "TIMESTAMP ".toList) (s := "TIMESTAMP".toList) rfl]
    exact lex_typed rfl ⟨_, _, rfl, rfl⟩ (by decide) (quote_not_mem (by decide))
  | date d =>
    change lex (("DATE ".toList ++ quoted _) ++ rest) = andThen (some _) _
    rw [typed_append (t := "DATE ".toList) (s := "DATE".toList) rfl]
    exact lex_typed rfl ⟨_, _, rfl, rfl⟩ (by decide) (quote_not_mem (by decide))
  | time t =>
    change lex (("TIME ".toList ++ quoted _) ++ rest) = andThen (some _) _
    rw [typed_append (t := "TIME ".toList) (s := "TIME".toList) rfl]
    exact lex_typed rfl ⟨_, _, rfl, rfl⟩ (by decide) (quote_not_mem (by decide))
  | interval m d u =>
    change lex (("INTERVAL ".toList ++ quoted _) ++ rest) = andThen (some _) _
    rw [typed_append (t := "INTERVAL ".toList) (s := "INTERVAL".toList) rfl]
    refine lex_typed rfl ⟨_, _, rfl, rfl⟩ (by decide) (quote_not_mem_joinWords ?_)
    intro w hw
    simp only [List.mem_cons, List.not_mem_nil, or_false] at hw
    rcases hw with rfl | rfl | rfl <;> exact quote_not_mem (by decide)

theorem lex_displayMore {es : List Expr}
    (h : ∀ e ∈ es, ∀ {rest}, Delim rest → lex (display e ++ rest) = andThen (exprTokens e) (lex rest))
    (cs : List Char) :
    lex (displayMore es ++ ')' :: cs) = andThen (moreTokens es) (lex (')' :: cs)) := by
  induction es with
  | nil => exact (andThen_nil _).symm
  | cons e es ih =>
    obtain ⟨he, hes⟩ := List.forall_mem_cons.1 h
    have hdelim : Delim (displayMore es ++ ')' :: cs) := by
      cases es with
      | nil => exact delim_cons (.inr (.inr rfl))
      | cons e' es => exact delim_cons (.inr (.inl rfl))
    have hcomma : ∀ cs : List Char, lex (',' :: ' ' :: cs) = andThen (some [.comma]) (lex cs) :=
      fun cs => by rw [← lex_space cs]; exact lex_token rfl rfl
    rw [displayMore, moreTokens, List.cons_append, List.cons_append, hcomma, List.append_assoc,
      he hdelim, ih hes, andThen_assoc, andThen_assoc]

theorem lex_displayArgs {es : List Expr}
    (h : ∀ e ∈ es, ∀ {rest}, Delim rest → lex (display e ++ rest) = andThen (exprTokens e) (lex rest))
    (cs : List Char) :
    lex (displayArgs es ++ ')' :: cs) = andThen (argTokens es) (lex (')' :: cs)) := by
  cases es with
  | nil => exact (andThen_nil _).symm
  | cons e es =>
    obtain ⟨he, hes⟩ := List.forall_mem_cons.1 h
    have hdelim : Delim (displayMore es ++ ')' :: cs) := by
      cases es with
      | nil => exact delim_cons (.inr (.inr rfl))
      | cons e' es => exact delim_cons (.inr (.inl rfl))
    rw [displayArgs, argTokens, List.append_assoc, he hdelim, lex_displayMore hes, andThen_assoc]

/-- The tokens of the text of an expression. -/
theorem lex_display {e : Expr} (he : Valid e) (hr : Delim rest) :
    lex (display e ++ rest) = andThen (exprTokens e) (lex rest) := by
  induction e using Expr.inductionOn generalizing rest with
  | literal l => exact lex_literalText (he _ List.mem_cons_self) hr
  | column q name =>
    have hword : StopsAt isWordChar rest := hr.stopsAt ⟨rfl, rfl, rfl⟩
    have hname : ∀ n, .name n ∈ (Expr.column q name).leaves → IsName n.toList := fun n hn => he _ hn
    cases q with
    | none =>
      rw [display, lex_name (hname name (by simp [Expr.leaves])) hword, String.ofList_toList]
      rfl
    | some q =>
      have hdot : ∀ cs : List Char, lex ('.' :: cs) = andThen (some [.dot]) (lex cs) :=
        fun cs => lex_token rfl rfl
      rw [display, List.append_assoc, List.cons_append,
        lex_name (hname q (by simp [Expr.leaves])) (stopsAt_cons rfl), hdot,
        lex_name (hname name (by simp [Expr.leaves])) hword, String.ofList_toList,
        String.ofList_toList, andThen_some, andThen_some]
      rfl
  | binaryOp l op r ihl ihr =>
    rw [Valid, Expr.leaves] at he
    obtain ⟨hl, hr⟩ := List.forall_mem_append.1 he
    simp only [display, exprTokens, List.cons_append, List.append_assoc, List.nil_append]
    rw [lex_lparen, ihl hl (delim_cons (.inl rfl)), lex_op, ihr hr (delim_cons (.inr (.inr rfl))),
      lex_rparen]
    simp only [andThen_assoc]
  | unaryOp op e ih =>
    rw [Valid, Expr.leaves] at he
    simp only [display, exprTokens, List.cons_append, List.append_assoc, List.nil_append]
    rw [lex_lparen, lex_unary, ih he (delim_cons (.inr (.inr rfl))), lex_rparen, andThen_some]
    simp only [andThen_assoc, List.cons_append, List.nil_append]
  | isNull e negated ih =>
    rw [Valid, Expr.leaves] at he
    have hdelim : Delim (isNullText negated ++ rest) := by
      cases negated <;> exact delim_cons (.inl rfl)
    simp only [display, exprTokens, List.cons_append, List.append_assoc]
    rw [lex_lparen, ih he hdelim, lex_isNull]
    simp only [andThen_assoc]
  | star name =>
    have hname : IsName name.toList := he _ List.mem_cons_self
    have hstar : ∀ cs : List Char, lex ('*' :: cs) = andThen (some [.asterisk]) (lex cs) :=
      fun cs => lex_token rfl rfl
    simp only [display, exprTokens, List.cons_append, List.append_assoc, List.nil_append]
    rw [lex_name hname (stopsAt_cons rfl), lex_lparen, hstar, lex_rparen, String.ofList_toList,
      andThen_some, andThen_some, andThen_some]
    rfl
  | funcCall name es ih =>
    rw [Valid, Expr.leaves, Expr.leavesList_eq] at he
    obtain ⟨hname, hes⟩ := List.forall_mem_cons.1 he
    have hargs : ∀ e ∈ es, ∀ {rest}, Delim rest →
        lex (display e ++ rest) = andThen (exprTokens e) (lex rest) := fun e hmem rest hrest =>
      ih e hmem (fun a ha => hes a (List.mem_flatMap.2 ⟨e, hmem, ha⟩)) hrest
    simp only [display, exprTokens, List.cons_append, List.append_assoc, List.nil_append]
    rw [lex_name hname (stopsAt_cons rfl), lex_lparen, lex_displayArgs hargs, lex_rparen,
      String.ofList_toList, andThen_some]
    simp only [andThen_assoc, List.cons_append, List.nil_append]
  | param n => exact lex_param (he _ List.mem_cons_self) hr

end Lexing

/-! ## What is read at each precedence -/

/-- On `ts` the parser reads `r` and leaves `rest`, or fails where there is no `r`. -/
def Reads {α : Type} (p : Parser α) (ts : List Token) (r : Option α) (rest : List Token) : Prop :=
  (p ts).toOption = r.map (·, rest)

/-- The next token is none of an operator of this precedence. -/
def Stops (op? : Token → Option BinaryOperator) (rest : List Token) : Prop :=
  ∀ t ∈ rest.head?, op? t = none

section Reads

variable {α β : Type} {ts us rest : List Token} {t : Token} {r l : Option Expr}
  {op? : Token → Option BinaryOperator} {op : BinaryOperator} {next additive expr : Parser Expr}

theorem toOption_bind (x : Except DbError α) (f : α → Except DbError β) :
    (x >>= f).toOption = x.toOption.bind fun a => (f a).toOption := by
  cases x <;> rfl

theorem reads_ok {p : Parser α} {a : α} (h : Reads p ts (some a) rest) : p ts = .ok (a, rest) := by
  rw [Reads] at h
  cases hres : p ts with
  | error e =>
    rw [hres] at h
    cases h
  | ok q =>
    rw [hres] at h
    exact congrArg Except.ok (Option.some.inj h)

theorem stops_cons (h : op? t = none) : Stops op? (t :: rest) := by
  intro u hu
  cases hu
  exact h

theorem leftLoop_stop (h : Stops op? rest) (n : Nat) (e : Expr) :
    leftLoop op? next (n + 1) e rest = .ok (e, rest) := by
  cases rest with
  | nil => rfl
  | cons t rest => rw [leftLoop, h t rfl]

/-- An operand that no operator follows. -/
theorem leftAssoc_stop (op? : Token → Option BinaryOperator) (h : Reads next ts r rest) (hstop : Stops op? rest) :
    Reads (leftAssoc op? next) ts r rest := by
  rw [Reads, leftAssoc, toOption_bind, h]
  cases r with
  | none => rfl
  | some e => exact congrArg Except.toOption (leftLoop_stop hstop rest.length e)

/-- Two operands. -/
theorem leftAssoc_one (op? : Token → Option BinaryOperator) (hl : Reads next ts l (t :: us)) (ht : op? t = some op)
    (hr : Reads next us r rest) (hstop : Stops op? rest) :
    Reads (leftAssoc op? next) ts (l.bind fun l => r.map fun r => .binaryOp l op r) rest := by
  rw [Reads, leftAssoc, toOption_bind, hl]
  cases l with
  | none => rfl
  | some l =>
    change (leftLoop op? next (us.length + 1 + 1) l (t :: us)).toOption = _
    rw [leftLoop, ht]
    dsimp only
    rw [toOption_bind, hr]
    cases r with
    | none => rfl
    | some r => exact congrArg Except.toOption (leftLoop_stop hstop us.length _)

/-- The next token does not go on with a comparison. -/
def ComparisonStops (rest : List Token) : Prop :=
  ∀ t ∈ rest.head?, t = .rparen ∨ t = .comma ∨ t = .keyword .and ∨ t = .keyword .or

theorem parseComparison_stop (h : Reads additive ts r rest) (hstop : ComparisonStops rest) :
    Reads (parseComparison additive expr) ts r rest := by
  rw [Reads, parseComparison, toOption_bind, h]
  cases r with
  | none => rfl
  | some e =>
    cases rest with
    | nil => rfl
    | cons t rest => rcases hstop t rfl with rfl | rfl | rfl | rfl <;> rfl

theorem parseComparison_one (hl : Reads additive ts l (opToken op :: us))
    (hop : comparisonOp (opToken op) = some op) (hr : Reads additive us r rest) :
    Reads (parseComparison additive expr) ts (l.bind fun l => r.map fun r => .binaryOp l op r) rest := by
  rw [Reads, parseComparison, toOption_bind, hl]
  cases l with
  | none => rfl
  | some l =>
    have hright : ((additive us) >>= fun p => .ok (Expr.binaryOp l op p.1, p.2)).toOption =
        (r.map fun r => Expr.binaryOp l op r).map (·, rest) := by
      rw [toOption_bind, hr]
      cases r <;> rfl
    cases op with
    | eq | ne | lt | le | gt | ge => exact hright
    | _ => cases hop

theorem parseComparison_isNull {negated : Bool}
    (h : Reads additive ts r (isNullTokens negated ++ rest)) :
    Reads (parseComparison additive expr) ts (r.map fun e => .isNull e negated) (.rparen :: rest) := by
  rw [Reads, parseComparison, toOption_bind, h]
  cases r with
  | none => rfl
  | some e => cases negated <;> rfl

end Reads

section Levels

variable {b : Build} {c : ParseFromStr} {expr : Parser Expr} {ts us rest : List Token} {r l : Option Expr}
  {n : Nat}

theorem additive_reads (h : Reads (unaryLevel b c expr) ts r rest)
    (hm : Stops multiplicativeOp rest) (ha : Stops additiveOp rest) :
    Reads (additiveLevel b c expr) ts r rest :=
  leftAssoc_stop _ (leftAssoc_stop _ h hm) ha

/-- What follows an expression that is in brackets or in a list. -/
def Closes (rest : List Token) : Prop := ∀ t ∈ rest.head?, t = .rparen ∨ t = .comma

theorem Closes.stops {op? : Token → Option BinaryOperator} (h : Closes rest)
    (hop : op? .rparen = none ∧ op? .comma = none) : Stops op? rest := by
  intro t ht
  rcases h t ht with rfl | rfl
  · exact hop.1
  · exact hop.2

theorem or_reads (h : Reads (comparisonLevel b c expr) ts r rest) (hc : Closes rest) :
    Reads (exprLevel b c expr) ts r rest :=
  leftAssoc_stop _ (leftAssoc_stop _ h (hc.stops ⟨rfl, rfl⟩)) (hc.stops ⟨rfl, rfl⟩)

/-- An operand on its own. -/
theorem expr_reads (h : Reads (unaryLevel b c expr) ts r rest) (hc : Closes rest) :
    Reads (exprLevel b c expr) ts r rest := by
  have hadd := additive_reads h (hc.stops ⟨rfl, rfl⟩) (hc.stops ⟨rfl, rfl⟩)
  exact or_reads (parseComparison_stop hadd fun t ht => (hc t ht).imp_right Or.inl) hc

theorem expr_isNull {negated : Bool}
    (h : Reads (unaryLevel b c expr) ts r (isNullTokens negated ++ rest)) :
    Reads (exprLevel b c expr) ts (r.map fun e => .isNull e negated) (.rparen :: rest) := by
  have hadd : Reads (additiveLevel b c expr) ts r (isNullTokens negated ++ rest) := by
    cases negated <;> exact additive_reads h (stops_cons rfl) (stops_cons rfl)
  refine or_reads (parseComparison_isNull hadd) fun t ht => ?_
  cases ht
  exact .inl rfl

/-- Two operands with an operator of any precedence. -/
theorem expr_binaryOp (op : BinaryOperator)
    (hl : Reads (unaryLevel b c expr) ts l (opToken op :: us))
    (hr : Reads (unaryLevel b c expr) us r (.rparen :: rest)) :
    Reads (exprLevel b c expr) ts (l.bind fun l => r.map fun r => .binaryOp l op r)
      (.rparen :: rest) := by
  have hcloses : Closes (.rparen :: rest) := fun t ht => by
    cases ht
    exact .inl rfl
  have hcstop : ComparisonStops (.rparen :: rest) := fun t ht => (hcloses t ht).imp_right Or.inl
  have hradd : Reads (additiveLevel b c expr) us r (.rparen :: rest) :=
    additive_reads hr (stops_cons rfl) (stops_cons rfl)
  have hrcmp : Reads (comparisonLevel b c expr) us r (.rparen :: rest) :=
    parseComparison_stop hradd hcstop
  have hrmul := leftAssoc_stop multiplicativeOp hr (stops_cons rfl)
  have hcomparison : ∀ hop : comparisonOp (opToken op) = some op,
      Reads (additiveLevel b c expr) ts l (opToken op :: us) →
      Reads (exprLevel b c expr) ts (l.bind fun l => r.map fun r => .binaryOp l op r)
        (.rparen :: rest) := fun hop hladd =>
    or_reads (parseComparison_one hladd hop hradd) hcloses
  cases op with
  | or =>
    have hlcmp : Reads (comparisonLevel b c expr) ts l (.keyword .or :: us) :=
      parseComparison_stop (additive_reads hl (stops_cons rfl) (stops_cons rfl))
        fun t ht => by cases ht; exact .inr (.inr (.inr rfl))
    exact leftAssoc_one _ (leftAssoc_stop _ hlcmp (stops_cons rfl)) rfl
      (leftAssoc_stop _ hrcmp (stops_cons rfl)) (stops_cons rfl)
  | and =>
    have hlcmp : Reads (comparisonLevel b c expr) ts l (.keyword .and :: us) :=
      parseComparison_stop (additive_reads hl (stops_cons rfl) (stops_cons rfl))
        fun t ht => by cases ht; exact .inr (.inr (.inl rfl))
    exact leftAssoc_stop _ (leftAssoc_one _ hlcmp rfl hrcmp (stops_cons rfl)) (stops_cons rfl)
  | add | sub =>
    have hlmul := leftAssoc_stop multiplicativeOp hl (stops_cons rfl)
    exact or_reads (parseComparison_stop (leftAssoc_one _ hlmul rfl hrmul (stops_cons rfl)) hcstop)
      hcloses
  | mul | div =>
    have hmul := leftAssoc_one multiplicativeOp hl rfl hr (stops_cons rfl)
    exact or_reads (parseComparison_stop (leftAssoc_stop _ hmul (stops_cons rfl)) hcstop) hcloses
  | _ => exact hcomparison rfl (additive_reads hl (stops_cons rfl) (stops_cons rfl))

end Levels

/-! ## Literals with a unit -/

/-- Every format ends in a number or a fraction of one, and `parse_from_str` has to come to
the end of the text: it reads no text that ends in a letter. -/
structure EndsInNumber (c : ParseFromStr) : Prop where
  dateTime : ∀ format ∈ dateTimeFormats, ∀ (s : List Char) (a : Char), a.isAlpha →
    c.dateTime format (s ++ [a]) = none
  date : ∀ (s : List Char) (a : Char), a.isAlpha → c.date dateFormat (s ++ [a]) = none
  time : ∀ format ∈ timeFormats, ∀ (s : List Char) (a : Char), a.isAlpha →
    c.time format (s ++ [a]) = none

section Units

variable {b : Build} {c : ParseFromStr} {s : List Char} {n : Int}

theorem trim_word (h : IsWord s) : trim s = s := by
  have hfront : s.dropWhile isWhite = s := by
    cases s with
    | nil => rfl
    | cons d s =>
      rw [List.dropWhile_cons_of_neg (by rw [h.2 d List.mem_cons_self]; exact Bool.false_ne_true)]
  rw [trim, hfront, List.rdropWhile_eq_self_iff]
  intro hne
  rw [h.2 _ (List.getLast_mem hne)]
  exact Bool.false_ne_true

theorem isWord_text {unit : List Char} (h : unit.any isWhite = false) : IsWord (text n ++ unit) := by
  refine ⟨by simp [text_ne_nil], fun d hd => ?_⟩
  rcases List.mem_append.1 hd with hd | hd
  · rcases mem_text hd with rfl | hd
    · rfl
    · exact isWhite_of_isDigit hd
  · exact Bool.eq_false_iff.2 (List.any_eq_false.1 h d hd)

theorem parseTimestampLiteral_unit (h : EndsInNumber c) :
    (parseTimestampLiteral c (text n ++ ['u', 's'])).toOption = none := by
  have hend : text n ++ ['u', 's'] = (text n ++ ['u']) ++ ['s'] := by rw [List.append_assoc]; rfl
  have hformats : dateTimeFormats.findSome? (fun format => c.dateTime format (text n ++ ['u', 's'])) =
      none := by
    rw [List.findSome?_eq_none_iff]
    intro format hformat
    rw [hend]
    exact h.dateTime format hformat _ 's' rfl
  have hdate : c.date dateFormat (text n ++ ['u', 's']) = none := by
    rw [hend]
    exact h.date _ 's' rfl
  rw [parseTimestampLiteral, trim_word (isWord_text (by decide)), hformats, hdate]
  rfl

theorem parseDateLiteral_unit (h : EndsInNumber c) :
    (parseDateLiteral c (text n ++ ['d'])).toOption = none := by
  rw [parseDateLiteral, trim_word (isWord_text (by decide)), h.date _ 'd' rfl]
  rfl

theorem parseTimeLiteral_unit (h : EndsInNumber c) :
    (parseTimeLiteral c (text n ++ ['u', 's'])).toOption = none := by
  have hend : text n ++ ['u', 's'] = (text n ++ ['u']) ++ ['s'] := by rw [List.append_assoc]; rfl
  have hformats : timeFormats.findSome? (fun format => c.time format (text n ++ ['u', 's'])) = none := by
    rw [List.findSome?_eq_none_iff]
    intro format hformat
    rw [hend]
    exact h.time format hformat _ 's' rfl
  rw [parseTimeLiteral, trim_word (isWord_text (by decide)), hformats]
  rfl

theorem int?_letter {d : Char} (hd : d.isDigit = false) : ∀ s : List Char, s ≠ [] →
    int? (s ++ [d]) = none := by
  have hnat : ∀ s : List Char, nat? (s ++ [d]) = none := fun s => by
    rw [nat?, if_neg fun h => ?_]
    have := h.2 d (List.mem_append_right s List.mem_cons_self)
    rw [hd] at this
    cases this
  intro s hs
  obtain ⟨e, s, rfl⟩ := List.exists_cons_of_ne_nil hs
  rw [List.cons_append]
  unfold int?
  split
  · next l heq =>
    cases heq
    rw [hnat]
    rfl
  · next l heq =>
    cases heq
    rw [hnat]
    rfl
  · rw [← List.cons_append, hnat]
    rfl

/-- The months come first, and `m` is no digit. -/
theorem parseIntervalLiteral_unit {f : Interval.SecMicros} {m d u : Int} :
    (Interval.parseIntervalLiteral b f
      (joinWords [text m ++ ['m'], text d ++ ['d'], text u ++ ['u', 's']])).toOption = none := by
  have hm : IsWord (text m ++ ['m']) := isWord_text (by decide)
  have hd : IsWord (text d ++ ['d']) := isWord_text (by decide)
  have hu : IsWord (text u ++ ['u', 's']) := isWord_text (by decide)
  have hcolon : ':' ∉ text m ++ ['m'] := by
    rw [List.mem_append, not_or]
    exact ⟨Interval.colon_not_mem fun _ => mem_text, by decide⟩
  have hnum : parseI64 (text m ++ ['m']) = none := by
    rw [parseI64, int?_letter rfl _ (text_ne_nil m)]
  rw [Interval.parseIntervalLiteral, splitWhitespace_trim, splitWhitespace_joinWords,
    List.flatMap_cons, List.flatMap_cons, List.flatMap_cons, splitWhitespace_word hm,
    splitWhitespace_word hd, splitWhitespace_word hu]
  simp only [List.cons_append, List.nil_append, List.flatMap_nil]
  rw [Interval.parseTokens, Interval.parseHms_number hcolon]
  simp only [bind, Except.bind, hnum]
  rfl

end Units

/-! ## What is read from the text of an expression -/

/-- What may follow an expression: the end, what closes it, or an operator. -/
def Follows (rest : List Token) : Prop :=
  ∀ t ∈ rest.head?, t = .rparen ∨ t = .comma ∨ t = .keyword .is ∨ ∃ op, t = opToken op

/-- An operand does not begin with one of these. -/
def Starts (ts : List Token) : Prop :=
  ∃ t us, ts = t :: us ∧ t ≠ .keyword .not ∧ t ≠ .minus ∧ t ≠ .asterisk ∧ t ≠ .rparen

section Primary

variable {b : Build} {c : ParseFromStr} {ts us rest : List Token} {r : Option Expr} {n : Nat}

theorem andThen_eq_some {x y : Option (List Token)} {ts : List Token}
    (h : andThen x y = some ts) : ∃ us vs, x = some us ∧ y = some vs ∧ ts = us ++ vs := by
  obtain ⟨us, hus, h⟩ := Option.bind_eq_some_iff.1 h
  obtain ⟨vs, hvs, h⟩ := Option.map_eq_some_iff.1 h
  exact ⟨us, vs, hus, hvs, h.symm⟩

theorem literalTokens_starts {l : LiteralValue} (h : literalTokens l = some ts) : Starts ts := by
  unfold literalTokens at h
  split at h
  case h_2 =>
    split at h
    · cases h
      exact ⟨_, _, rfl, nofun, nofun, nofun, nofun⟩
    · split at h
      · obtain ⟨n, -, rfl⟩ := Option.map_eq_some_iff.1 h
        exact ⟨_, _, rfl, nofun, nofun, nofun, nofun⟩
      · cases h
        exact ⟨_, _, rfl, nofun, nofun, nofun, nofun⟩
  case h_3 v =>
    cases h
    cases v <;> exact ⟨_, _, rfl, nofun, nofun, nofun, nofun⟩
  all_goals
    cases h
    exact ⟨_, _, rfl, nofun, nofun, nofun, nofun⟩

theorem exprTokens_starts {e : Expr} (h : exprTokens e = some ts) : Starts ts := by
  cases e with
  | literal l => exact literalTokens_starts h
  | column q name =>
    cases q <;>
    · cases h
      exact ⟨_, _, rfl, nofun, nofun, nofun, nofun⟩
  | funcCall name args =>
    cases args with
    | none =>
      cases h
      exact ⟨_, _, rfl, nofun, nofun, nofun, nofun⟩
    | some es =>
      rw [exprTokens] at h
      obtain ⟨us, vs, hus, -, rfl⟩ := andThen_eq_some h
      cases hus
      exact ⟨_, _, rfl, nofun, nofun, nofun, nofun⟩
  | param n =>
    cases h
    exact ⟨_, _, rfl, nofun, nofun, nofun, nofun⟩
  | _ =>
    rw [exprTokens] at h
    obtain ⟨us, vs, hus, -, rfl⟩ := andThen_eq_some h
    cases hus
    exact ⟨_, _, rfl, nofun, nofun, nofun, nofun⟩

/-- In front of an operand there is no NOT and no minus. -/
theorem unary_reads {expr : Parser Expr} (hs : Starts ts)
    (h : Reads (parsePrimary b c expr) (ts ++ rest) r rest) :
    Reads (unaryLevel b c expr) (ts ++ rest) r rest := by
  obtain ⟨t, us, rfl, hnot, hminus, -, -⟩ := hs
  have hunary : parseUnary (parsePrimary b c expr) (t :: us ++ rest) =
      parsePrimary b c expr (t :: us ++ rest) := by
    unfold parseUnary
    split
    · next heq => exact absurd (List.cons.inj heq).1 hnot
    · next heq => exact absurd (List.cons.inj heq).1 hminus
    · rfl
  rw [Reads, unaryLevel, hunary]
  exact h

theorem unary_op {expr : Parser Expr} (op : UnaryOperator)
    (h : Reads (unaryLevel b c expr) ts r rest) :
    Reads (unaryLevel b c expr) (unaryToken op :: ts) (r.map (Expr.unaryOp op)) rest := by
  have hmap : ((unaryLevel b c expr ts) >>= fun p => .ok (Expr.unaryOp op p.1, p.2)).toOption =
      (r.map (Expr.unaryOp op)).map (·, rest) := by
    rw [toOption_bind, h]
    cases r <;> rfl
  cases op <;> exact hmap

/-- An expression in brackets. -/
theorem paren_reads {expr : Parser Expr} (h : Reads expr ts r (.rparen :: rest)) :
    Reads (parsePrimary b c expr) (.lparen :: ts) r rest := by
  change (expr ts >>= fun p => expect .rparen p.2 >>= fun us => .ok (p.1, us)).toOption = _
  rw [toOption_bind, h]
  cases r <;> rfl

theorem typedLiteral_reads {α : Type} (kw : String) {parse : List Char → Except DbError α} {s : List Char}
    {literal : α → LiteralValue} (h : (parse s).toOption = none) :
    Reads (typedLiteral kw parse literal) (.string (String.ofList s) :: rest) none rest := by
  change (parse (String.ofList s).toList >>= fun x => .ok (Expr.literal (literal x), rest)).toOption = _
  rw [String.toList_ofList, toOption_bind, h]
  rfl

theorem Follows.ne {t : Token} (hf : Follows (t :: rest)) : t ≠ .lparen ∧ t ≠ .dot := by
  rcases hf t rfl with rfl | rfl | rfl | ⟨op, rfl⟩
  · exact ⟨nofun, nofun⟩
  · exact ⟨nofun, nofun⟩
  · exact ⟨nofun, nofun⟩
  · cases op <;> exact ⟨nofun, nofun⟩

/-- A name that is neither called nor qualifies another. -/
theorem name_reads {expr : Parser Expr} {name : String} (hf : Follows rest) :
    Reads (parsePrimary b c expr) (.ident name :: rest) (some (.column none name)) rest := by
  cases rest with
  | nil => rfl
  | cons t rest =>
    obtain ⟨hparen, hdot⟩ := hf.ne
    rw [Reads, parsePrimary]
    · rfl
    · exact fun us h => hparen (List.cons.inj h).1
    · exact fun us h => hdot (List.cons.inj h).1

theorem literal_reads (hc : EndsInNumber c) {expr : Parser Expr} {l : LiteralValue}
    (h : literalTokens l = some ts) (hf : Follows rest) :
    Reads (parsePrimary b c expr) (ts ++ rest) (rereadLiteral l) rest := by
  cases l with
  | float x =>
    unfold literalTokens at h
    unfold rereadLiteral
    dsimp only at h ⊢
    split at h
    · next hinf =>
      cases h
      rw [if_pos hinf]
      exact name_reads hf
    · next hinf =>
      rw [if_neg hinf]
      split at h
      · next hwhole =>
        obtain ⟨n, hn, rfl⟩ := Option.map_eq_some_iff.1 h
        rw [if_pos hwhole, hn]
        rfl
      · next hwhole =>
        cases h
        rw [if_neg hwhole]
        rfl
  | boolean v =>
    cases h
    cases v <;> rfl
  | timestamp t =>
    cases h
    exact typedLiteral_reads "TIMESTAMP" (parseTimestampLiteral_unit hc)
  | date d =>
    cases h
    exact typedLiteral_reads "DATE" (parseDateLiteral_unit hc)
  | time t =>
    cases h
    exact typedLiteral_reads "TIME" (parseTimeLiteral_unit hc)
  | interval m d u =>
    cases h
    exact typedLiteral_reads "INTERVAL" parseIntervalLiteral_unit
  | _ =>
    cases h
    rfl

theorem follows_cons {t : Token}
    (h : t = .rparen ∨ t = .comma ∨ t = .keyword .is ∨ ∃ op, t = opToken op) : Follows (t :: rest) := by
  intro u hu
  cases hu
  exact h

theorem follows_isNull {negated : Bool} : Follows (isNullTokens negated ++ rest) := by
  cases negated <;> exact follows_cons (.inr (.inr (.inl rfl)))

/-- Every one of the expressions is read where its tokens are. -/
def ReadsAll (expr : Parser Expr) (m : Nat) (es : List Expr) : Prop :=
  ∀ e ∈ es, ∀ {ts rest : List Token}, exprTokens e = some ts → ts.length ≤ m → Closes rest →
    Reads expr (ts ++ rest) (reread e) rest

theorem closes_cons {t : Token} (h : t = .rparen ∨ t = .comma) : Closes (t :: rest) := by
  intro u hu
  cases hu
  exact h

theorem closes_more (rest : List Token) {es : List Expr} (h : moreTokens es = some us) : Closes (us ++ .rparen :: rest) := by
  cases es with
  | nil =>
    cases h
    exact closes_cons (.inl rfl)
  | cons e es =>
    rw [moreTokens] at h
    obtain ⟨vs, ws, hvs, -, rfl⟩ := andThen_eq_some h
    cases hvs
    exact closes_cons (.inr rfl)

theorem itemsLoop_reads (rest : List Token) {expr : Parser Expr} {m k : Nat} {es : List Expr} (hes : ReadsAll expr m es)
    (h : moreTokens es = some us) (hm : us.length ≤ m) (hk : us.length < k) :
    Reads (itemsLoop expr k) (us ++ .rparen :: rest) (rereadList es) (.rparen :: rest) := by
  obtain ⟨k, rfl⟩ := Nat.exists_eq_succ_of_ne_zero (Nat.ne_of_gt (Nat.zero_lt_of_lt hk))
  induction es generalizing us k with
  | nil =>
    cases h
    rfl
  | cons e es ih =>
    obtain ⟨he, hes⟩ := List.forall_mem_cons.1 hes
    rw [moreTokens] at h
    obtain ⟨_, vs, hcomma, h₁, rfl⟩ := andThen_eq_some h
    cases hcomma
    obtain ⟨ts, ws, hts, hws, rfl⟩ := andThen_eq_some h₁
    simp only [List.length_append, List.length_cons, List.length_nil] at hm hk
    obtain ⟨k, rfl⟩ := Nat.exists_eq_succ_of_ne_zero (n := k) (by omega)
    have hfirst := he hts (by omega) (closes_more rest hws)
    have hmore := ih hes hws (by omega) k (by omega)
    rw [List.append_assoc, List.singleton_append, List.append_assoc, Reads]
    change (expr (ts ++ (ws ++ .rparen :: rest)) >>= fun p =>
      itemsLoop expr (k + 1) p.2 >>= fun q => .ok (p.1 :: q.1, q.2)).toOption = _
    rw [toOption_bind, hfirst, rereadList]
    cases reread e with
    | none => rfl
    | some e' =>
      change (itemsLoop expr (k + 1) (ws ++ .rparen :: rest) >>= fun q => .ok (e' :: q.1, q.2)).toOption = _
      rw [toOption_bind, hmore]
      cases rereadList es <;> rfl

/-- The arguments of a call. -/
theorem parseArgs_reads {expr : Parser Expr} {m : Nat} {es : List Expr} {name : String}
    (hes : ReadsAll expr m es) (h : argTokens es = some us) (hm : us.length ≤ m) :
    Reads (parseArgs expr name) (us ++ .rparen :: rest)
      ((rereadList es).map fun es => .funcCall name (some es)) rest := by
  cases es with
  | nil =>
    cases h
    rfl
  | cons e es =>
    obtain ⟨he, hes⟩ := List.forall_mem_cons.1 hes
    rw [argTokens] at h
    obtain ⟨ts, ws, hts, hws, rfl⟩ := andThen_eq_some h
    rw [List.length_append] at hm
    have hfirst := he hts (by omega) (closes_more rest hws)
    have hk : ws.length < (ws ++ .rparen :: rest).length + 1 := by
      rw [List.length_append]
      omega
    have hmore := itemsLoop_reads rest hes hws (by omega) hk
    obtain ⟨t, tail, rfl, -, -, hstar, hparen⟩ := exprTokens_starts hts
    rw [List.append_assoc, Reads, parseArgs]
    · change (((expr (t :: tail ++ (ws ++ .rparen :: rest)) >>= fun p =>
        itemsLoop expr (p.2.length + 1) p.2 >>= fun q => .ok (p.1 :: q.1, q.2)) >>= fun p =>
        expect .rparen p.2 >>= fun us => .ok (Expr.funcCall name (some p.1), us))).toOption = _
      rw [toOption_bind, toOption_bind, hfirst, rereadList]
      cases reread e with
      | none => rfl
      | some e' =>
        dsimp only [Option.map_some, Option.bind_some]
        rw [toOption_bind, hmore]
        cases rereadList es <;> rfl
    · exact fun us h => hstar (List.cons.inj h).1
    · exact fun us h => hparen (List.cons.inj h).1

/-- What is read from the tokens of an expression, with a nesting as deep as they are many. -/
theorem primary_reads (hc : EndsInNumber c) {e : Expr} (h : exprTokens e = some ts)
    (hn : ts.length ≤ n) (hf : Follows rest) :
    Reads (parsePrimary b c (parseExpr b c n)) (ts ++ rest) (reread e) rest := by
  induction e using Expr.inductionOn generalizing ts n rest with
  | literal l => exact literal_reads hc h hf
  | column q name =>
    cases q with
    | none =>
      cases h
      exact name_reads hf
    | some q =>
      cases h
      rfl
  | binaryOp l op r ihl ihr =>
    rw [exprTokens] at h
    obtain ⟨_, us, hparen, h₁, rfl⟩ := andThen_eq_some h
    obtain ⟨tl, us, htl, h₂, rfl⟩ := andThen_eq_some h₁
    obtain ⟨_, us, hop, h₃, rfl⟩ := andThen_eq_some h₂
    obtain ⟨tr, _, htr, hclose, rfl⟩ := andThen_eq_some h₃
    cases hparen
    cases hop
    cases hclose
    simp only [List.length_append, List.length_cons, List.length_nil] at hn
    obtain ⟨m, rfl⟩ := Nat.exists_eq_succ_of_ne_zero (n := n) (by omega)
    simp only [List.cons_append, List.nil_append, List.append_assoc]
    refine paren_reads (expr_binaryOp op (unary_reads (exprTokens_starts htl) ?_)
      (unary_reads (exprTokens_starts htr) ?_))
    · exact ihl htl (by omega) (follows_cons (.inr (.inr (.inr ⟨op, rfl⟩))))
    · exact ihr htr (by omega) (follows_cons (.inl rfl))
  | unaryOp op e ih =>
    rw [exprTokens] at h
    obtain ⟨_, us, hparen, h₁, rfl⟩ := andThen_eq_some h
    obtain ⟨te, _, hte, hclose, rfl⟩ := andThen_eq_some h₁
    cases hparen
    cases hclose
    simp only [List.length_append, List.length_cons, List.length_nil] at hn
    obtain ⟨m, rfl⟩ := Nat.exists_eq_succ_of_ne_zero (n := n) (by omega)
    simp only [List.cons_append, List.nil_append, List.append_assoc]
    refine paren_reads (expr_reads (unary_op op (unary_reads (exprTokens_starts hte) ?_))
      (closes_cons (.inl rfl)))
    exact ih hte (by omega) (follows_cons (.inl rfl))
  | isNull e negated ih =>
    rw [exprTokens] at h
    obtain ⟨_, us, hparen, h₁, rfl⟩ := andThen_eq_some h
    obtain ⟨te, _, hte, hclose, rfl⟩ := andThen_eq_some h₁
    cases hparen
    cases hclose
    simp only [List.length_append, List.length_cons, List.length_nil] at hn
    obtain ⟨m, rfl⟩ := Nat.exists_eq_succ_of_ne_zero (n := n) (by omega)
    simp only [List.cons_append, List.nil_append, List.append_assoc]
    refine paren_reads (expr_isNull (unary_reads (exprTokens_starts hte) ?_))
    exact ih hte (by omega) follows_isNull
  | star name =>
    cases h
    rfl
  | funcCall name es ih =>
    rw [exprTokens] at h
    obtain ⟨_, us, hname, h₁, rfl⟩ := andThen_eq_some h
    obtain ⟨ta, _, hta, hclose, rfl⟩ := andThen_eq_some h₁
    cases hname
    cases hclose
    simp only [List.length_append, List.length_cons, List.length_nil] at hn
    obtain ⟨m, rfl⟩ := Nat.exists_eq_succ_of_ne_zero (n := n) (by omega)
    simp only [List.cons_append, List.nil_append, List.append_assoc]
    have hall : ReadsAll (parseExpr b c (m + 1)) m es := fun e he ts rest hts hm hcl =>
      expr_reads (unary_reads (exprTokens_starts hts) (ih e he hts hm
        fun t ht => (hcl t ht).elim .inl fun h => .inr (.inl h))) hcl
    exact parseArgs_reads hall hta (by omega)
  | param n =>
    cases h
    rfl

end Primary

theorem literalTokens_none {l : LiteralValue} (h : literalTokens l = none) : rereadLiteral l = none := by
  unfold literalTokens at h
  split at h
  case h_2 x =>
    unfold rereadLiteral
    dsimp only
    split at h
    · cases h
    · next hinf =>
      split at h
      · next hwhole => rw [if_neg hinf, if_pos hwhole, Option.map_eq_none_iff.1 h, Option.map_none]
      · cases h
  all_goals cases h

theorem andThen_eq_none {x y : Option (List Token)} (h : andThen x y = none) : x = none ∨ y = none := by
  cases x with
  | none => exact .inl rfl
  | some ts =>
    cases y with
    | none => exact .inr rfl
    | some us => cases h

theorem rereadList_none {es : List Expr} (ih : ∀ e ∈ es, exprTokens e = none → reread e = none)
    (h : moreTokens es = none) : rereadList es = none := by
  induction es with
  | nil => cases h
  | cons e es ihes =>
    obtain ⟨he, hes⟩ := List.forall_mem_cons.1 ih
    rw [moreTokens] at h
    rw [rereadList]
    rcases andThen_eq_none ((andThen_eq_none h).resolve_left nofun) with h | h
    · rw [he h]
      rfl
    · rw [ihes hes h]
      cases reread e <;> rfl

/-- A text that has no tokens is not read. -/
theorem reread_none {e : Expr} (h : exprTokens e = none) : reread e = none := by
  induction e using Expr.inductionOn with
  | literal l => exact literalTokens_none h
  | column q name => cases q <;> cases h
  | binaryOp l op r ihl ihr =>
    rw [exprTokens] at h
    rw [reread]
    rcases andThen_eq_none ((andThen_eq_none h).resolve_left nofun) with h | h
    · rw [ihl h]
      rfl
    · have hr := (andThen_eq_none ((andThen_eq_none h).resolve_left nofun)).resolve_right nofun
      rw [ihr hr]
      cases reread l <;> rfl
  | unaryOp op e ih | isNull e negated ih =>
    rw [exprTokens] at h
    have he := (andThen_eq_none ((andThen_eq_none h).resolve_left nofun)).resolve_right nofun
    rw [reread, ih he, Option.map_none]
  | star name => cases h
  | funcCall name es ih =>
    rw [exprTokens] at h
    have hargs := (andThen_eq_none ((andThen_eq_none h).resolve_left nofun)).resolve_right nofun
    rw [reread]
    cases es with
    | nil => cases hargs
    | cons e es =>
      rw [argTokens] at hargs
      obtain ⟨he, hes⟩ := List.forall_mem_cons.1 ih
      rw [rereadList]
      rcases andThen_eq_none hargs with h | h
      · rw [he h]
        rfl
      · rw [rereadList_none hes h]
        cases reread e <;> rfl
  | param n => cases h

/-- What is read from the text of an expression. -/
theorem parseExprStr_display {b : Build} {c : ParseFromStr} (hc : EndsInNumber c) {e : Expr}
    (he : Valid e) : (parseExprStr b c (display e)).toOption = reread e := by
  have hlex : (tokenize (display e)).toOption = exprTokens e := by
    have h := lex_display he delim_nil
    rw [List.append_nil, lex_nil, lex] at h
    rw [h]
    cases exprTokens e with
    | none => rfl
    | some ts => exact congrArg some (List.append_nil ts)
  rw [parseExprStr, toOption_bind, hlex]
  cases hts : exprTokens e with
  | none => exact (reread_none hts).symm
  | some ts =>
    have hnone : ∀ {t : Token}, t ∉ ([] : List Token).head? := fun h => by cases h
    have hclose : Closes [] := fun _ h => absurd h hnone
    have hread : Reads (parseExpr b c (ts.length + 1)) (ts ++ []) (reread e) [] :=
      expr_reads (unary_reads (exprTokens_starts hts)
        (primary_reads hc hts le_rfl fun _ h => absurd h hnone)) hclose
    rw [List.append_nil] at hread
    rw [Option.bind_some, toOption_bind, hread]
    cases reread e <;> rfl

/-! ## When it is the expression -/

/-- A literal that is read back: no date, time or interval, and a floating point number only
where it is finite and has a fraction. -/
def SurvivesLiteral : LiteralValue → Prop
  | .float x => x.toNat ≠ Binary64.infinity ∧ ¬ Binary64.IsWhole x.toNat
  | .timestamp _ => False
  | .date _ => False
  | .time _ => False
  | .interval _ _ _ => False
  | _ => True

/-- Every literal of the expression is read back. -/
def Survives (e : Expr) : Prop := ∀ l, .literal l ∈ e.leaves → SurvivesLiteral l

theorem rereadLiteral_iff (l : LiteralValue) :
    rereadLiteral l = some (.literal l) ↔ SurvivesLiteral l := by
  cases l with
  | float x =>
    unfold rereadLiteral SurvivesLiteral
    dsimp only
    split
    · next h => exact ⟨fun he => (by cases he), fun he => absurd h he.1⟩
    · next hinf =>
      split
      · next h =>
        refine ⟨fun he => ?_, fun he => absurd h he.2⟩
        obtain ⟨n, -, he⟩ := Option.map_eq_some_iff.1 he
        cases he
      · next h => exact ⟨fun _ => ⟨hinf, h⟩, fun _ => rfl⟩
  | timestamp t | date d | time t | interval m d u => exact ⟨fun h => (by cases h), False.elim⟩
  | _ => exact ⟨fun _ => trivial, fun _ => rfl⟩

theorem rereadList_iff {es : List Expr} (ih : ∀ e ∈ es, (reread e = some e ↔ Survives e)) :
    rereadList es = some es ↔ ∀ e ∈ es, Survives e := by
  induction es with
  | nil => simp [rereadList]
  | cons e es ihes =>
    obtain ⟨he, hes⟩ := List.forall_mem_cons.1 ih
    rw [rereadList, Option.bind_eq_some_iff, List.forall_mem_cons, ← he, ← ihes hes]
    constructor
    · rintro ⟨e', he', h⟩
      obtain ⟨es', hes', h⟩ := Option.map_eq_some_iff.1 h
      cases h
      exact ⟨he', hes'⟩
    · rintro ⟨he', hes'⟩
      exact ⟨e, he', by rw [hes', Option.map_some]⟩

/-- When an expression is read back from its tokens. -/
theorem reread_iff (e : Expr) : reread e = some e ↔ Survives e := by
  induction e using Expr.inductionOn with
  | literal l =>
    rw [reread, rereadLiteral_iff, Survives, Expr.leaves]
    simp
  | column q name =>
    refine iff_of_true rfl fun l hl => ?_
    cases q <;> simp [Expr.leaves] at hl
  | binaryOp l op r ihl ihr =>
    have hmem : Survives (.binaryOp l op r) ↔ Survives l ∧ Survives r := by
      simp only [Survives, Expr.leaves, List.mem_append]
      exact ⟨fun h => ⟨fun a ha => h a (.inl ha), fun a ha => h a (.inr ha)⟩,
        fun h a ha => ha.elim (h.1 a) (h.2 a)⟩
    rw [reread, hmem, ← ihl, ← ihr, Option.bind_eq_some_iff]
    constructor
    · rintro ⟨l', hl', h⟩
      obtain ⟨r', hr', h⟩ := Option.map_eq_some_iff.1 h
      cases h
      exact ⟨hl', hr'⟩
    · rintro ⟨hl', hr'⟩
      exact ⟨l, hl', by rw [hr', Option.map_some]⟩
  | unaryOp op e ih | isNull e negated ih =>
    rw [reread, Option.map_eq_some_iff, Survives, Expr.leaves]
    refine Iff.trans ⟨?_, fun h => ⟨e, h, rfl⟩⟩ ih
    rintro ⟨e', he', h⟩
    cases h
    exact he'
  | star name => exact iff_of_true rfl fun l hl => by simp [Expr.leaves] at hl
  | funcCall name es ih =>
    have hmem : Survives (.funcCall name (some es)) ↔ ∀ e ∈ es, Survives e := by
      simp only [Survives, Expr.leaves, Expr.leavesList_eq, List.mem_cons, List.mem_flatMap]
      constructor
      · exact fun h e he l hl => h l (.inr ⟨e, he, hl⟩)
      · rintro h l (hl | ⟨e, he, hl⟩)
        · cases hl
        · exact h e he l hl
    rw [reread, hmem, ← rereadList_iff ih, Option.map_eq_some_iff]
    constructor
    · rintro ⟨es', hes', h⟩
      cases h
      exact hes'
    · exact fun h => ⟨es, h, rfl⟩
  | param n => exact iff_of_true rfl fun l hl => by simp [Expr.leaves] at hl

/-- The parser returns the expression at some place of some text. -/
def Produced (b : Build) (c : ParseFromStr) (e : Expr) : Prop :=
  ∃ s ts us rest, tokenize s = .ok ts ∧ us <:+ ts ∧ parseExpr b c (us.length + 1) us = .ok (e, rest)

theorem Produced.valid {b : Build} {c : ParseFromStr} {e : Expr} (h : Produced b c e) : Valid e := by
  obtain ⟨s, ts, us, rest, hts, hus, he⟩ := h
  have hout := parseExpr_parses b c (us.length + 1) us
    (valid_suffix (tokens_valid hts) hus) (Nat.lt_succ_self _)
  rw [he] at hout
  exact hout.2

/-- When the text of an expression that was parsed is read as that expression. -/
theorem survives_iff {b : Build} {c : ParseFromStr} (hc : EndsInNumber c) {e : Expr}
    (h : Produced b c e) : parseExprStr b c (display e) = .ok e ↔ Survives e := by
  rw [← reread_iff, ← parseExprStr_display (b := b) hc h.valid]
  cases parseExprStr b c (display e) with
  | error err => exact ⟨fun h => (by cases h), fun h => (by cases h)⟩
  | ok e' => exact ⟨fun h => by rw [h]; rfl, fun h => congrArg Except.ok (Option.some.inj h)⟩

/-- No text is a date or a time; what follows has none in it. -/
def noDates : ParseFromStr := ⟨fun _ _ => none, fun _ _ => none, fun _ _ => none, fun _ => "", fun _ => none⟩

theorem noDates_endsInNumber : EndsInNumber noDates :=
  ⟨fun _ _ _ _ _ => rfl, fun _ _ _ => rfl, fun _ _ _ _ _ => rfl⟩

/-- `CHECK (price >= 1.5)`. -/
theorem survives_iff_price :
    let e : Expr := .binaryOp (.column none "price") .ge (.literal (.float 0x3FF8000000000000))
    Produced .release noDates e ∧ parseExprStr .release noDates (display e) = .ok e := by
  intro e
  have h : Produced .release noDates e :=
    ⟨"price >= 1.5".toList, [.ident "price", .ge, .float 0x3FF8000000000000], _, [],
      by decide +kernel, List.suffix_rfl, rfl⟩
  refine ⟨h, (survives_iff noDates_endsInNumber h).2 fun l hl => ?_⟩
  simp only [e, Expr.leaves, List.mem_append, Option.toList_none, List.map_nil, List.nil_append,
    List.mem_singleton, reduceCtorEq, false_or, Expr.Leaf.literal.injEq] at hl
  subst hl
  exact ⟨by decide +kernel, by decide +kernel⟩

/-- `DEFAULT 1.0` comes back as the integer, and `DEFAULT INTERVAL '1 day'` is not read at all. -/
theorem whole_float_lost :
    (Produced .release noDates (.literal (.float 0x3FF0000000000000)) ∧
      parseExprStr .release noDates (display (.literal (.float 0x3FF0000000000000))) =
        .ok (.literal (.integer 1))) ∧
    Produced .release noDates (.literal (.interval 0 1 0)) ∧
      ∀ e, parseExprStr .release noDates (display (.literal (.interval 0 1 0))) ≠ .ok e := by
  have hone : Produced .release noDates (.literal (.float 0x3FF0000000000000)) :=
    ⟨"1.0".toList, [.float 0x3FF0000000000000], _, [], by decide +kernel, List.suffix_rfl, rfl⟩
  have hinterval : Interval.parseIntervalLiteral .release noDates.seconds "1 day".toList =
      .ok ⟨0, 1, 0⟩ := by decide +kernel
  have hday : Produced .release noDates (.literal (.interval 0 1 0)) := by
    refine ⟨"INTERVAL ".toList ++ quoted "1 day".toList, [.keyword .interval, .string "1 day"], _, [],
      by decide +kernel, List.suffix_rfl, ?_⟩
    refine reads_ok (expr_reads ?_ fun _ h => nomatch h)
    change (Interval.parseIntervalLiteral .release noDates.seconds "1 day".toList >>= fun t =>
      .ok (Expr.literal (.interval t.months t.days t.micros), [])).toOption = _
    rw [hinterval]
    rfl
  have hreread : reread (.literal (.float 0x3FF0000000000000)) = some (.literal (.integer 1)) := by
    have hparse : parseI64 (Binary64.writeWhole 0x3FF0000000000000) = some 1 := by
      rw [Binary64.writeWhole_one]
      decide +kernel
    change rereadLiteral (.float 0x3FF0000000000000) = _
    unfold rereadLiteral
    dsimp only
    rw [if_neg (by decide +kernel), if_pos (by decide +kernel)]
    exact congrArg (Option.map fun n => Expr.literal (.integer n)) hparse
  refine ⟨⟨hone, ?_⟩, hday, fun e he => ?_⟩
  · have h := parseExprStr_display (b := .release) noDates_endsInNumber hone.valid
    rw [hreread] at h
    cases hres : parseExprStr .release noDates (display (.literal (.float 0x3FF0000000000000))) with
    | error err =>
      rw [hres] at h
      cases h
    | ok e =>
      rw [hres] at h
      exact congrArg Except.ok (Option.some.inj h)
  · have h := parseExprStr_display (b := .release) noDates_endsInNumber hday.valid
    rw [he] at h
    cases h

end Ccdb.Display
