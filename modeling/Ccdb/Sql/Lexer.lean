import Ccdb.Lib.Binary64
import Ccdb.Sql.Interval

/-!
# Ccdb — the lexer

`lexer.rs`: the tokens of a text. A word is a keyword in any case. There is no way to write
a quote inside a string.

Main results:

* `tokenize_cons` — one token, and the tokens of the rest.
* `tokens_valid` — what is known of the tokens of a text.
-/

namespace Ccdb.Lexer

open Decimal
open Ccdb.Interval (parseI64)

/-! ## Tokens -/

inductive Keyword where
  | select
  | «from»
  | «where»
  | insert
  | into
  | values
  | delete
  | update
  | set
  | begin
  | commit
  | «end»
  | rollback
  | checkpoint
  | create
  | table
  | int
  | varchar
  | double
  | timestamp
  | date
  | time
  | interval
  | currentTimestamp
  | drop
  | truncate
  | alter
  | cascade
  | restrict
  | sequence
  | vacuum
  | analyze
  | copy
  | stdin
  | check
  | constraint
  | conflict
  | «do»
  | nothing
  | excluded
  | foreign
  | references
  | no
  | action
  | and
  | or
  | not
  | null
  | true
  | false
  | join
  | inner
  | left
  | on
  | as
  | group
  | «by»
  | having
  | order
  | asc
  | desc
  | limit
  | is
  | default
  | char
  | primary
  | key
  | index
  | between
  | distinct
  | «in»
  | «if»
  | exists
deriving DecidableEq, Repr

inductive Token where
  | keyword (k : Keyword)
  | ident (s : String)
  | integer (n : Int64)
  | float (bits : UInt64)
  | string (s : String)
  | asterisk
  | comma
  | semicolon
  | lparen
  | rparen
  | dot
  | eq
  | ne
  | lt
  | le
  | gt
  | ge
  | plus
  | minus
  | slash
  | param (n : Nat)
deriving DecidableEq, Repr

/-- The arms of `read_word`, without the last. -/
def keyword? (upper : String) : Option Keyword :=
  match upper with
  | "SELECT" => some .select
  | "FROM" => some .«from»
  | "WHERE" => some .«where»
  | "INSERT" => some .insert
  | "INTO" => some .into
  | "VALUES" => some .values
  | "DELETE" => some .delete
  | "UPDATE" => some .update
  | "SET" => some .set
  | "BEGIN" => some .begin
  | "COMMIT" => some .commit
  | "END" => some .«end»
  | "ROLLBACK" => some .rollback
  | "CHECKPOINT" => some .checkpoint
  | "CREATE" => some .create
  | "TABLE" => some .table
  | "INT" | "INTEGER" => some .int
  | "VARCHAR" => some .varchar
  | "DOUBLE" | "FLOAT" => some .double
  | "TIMESTAMP" => some .timestamp
  | "DATE" => some .date
  | "TIME" => some .time
  | "INTERVAL" => some .interval
  | "CURRENT_TIMESTAMP" => some .currentTimestamp
  | "DROP" => some .drop
  | "TRUNCATE" => some .truncate
  | "ALTER" => some .alter
  | "CASCADE" => some .cascade
  | "RESTRICT" => some .restrict
  | "SEQUENCE" => some .sequence
  | "VACUUM" => some .vacuum
  | "ANALYZE" => some .analyze
  | "COPY" => some .copy
  | "STDIN" => some .stdin
  | "CHECK" => some .check
  | "CONSTRAINT" => some .constraint
  | "CONFLICT" => some .conflict
  | "DO" => some .«do»
  | "NOTHING" => some .nothing
  | "EXCLUDED" => some .excluded
  | "FOREIGN" => some .foreign
  | "REFERENCES" => some .references
  | "NO" => some .no
  | "ACTION" => some .action
  | "AND" => some .and
  | "OR" => some .or
  | "NOT" => some .not
  | "NULL" => some .null
  | "TRUE" => some .true
  | "FALSE" => some .false
  | "JOIN" => some .join
  | "INNER" => some .inner
  | "LEFT" => some .left
  | "ON" => some .on
  | "AS" => some .as
  | "GROUP" => some .group
  | "BY" => some .«by»
  | "HAVING" => some .having
  | "ORDER" => some .order
  | "ASC" => some .asc
  | "DESC" => some .desc
  | "LIMIT" => some .limit
  | "IS" => some .is
  | "DEFAULT" => some .default
  | "CHAR" => some .char
  | "PRIMARY" => some .primary
  | "KEY" => some .key
  | "INDEX" => some .index
  | "BETWEEN" => some .between
  | "DISTINCT" => some .distinct
  | "IN" => some .«in»
  | "IF" => some .«if»
  | "EXISTS" => some .exists
  | _ => none

/-! ## The lexer -/

/-- The quotation mark of strings. -/
def quote : Char := Char.ofNat 39

def isWordChar (c : Char) : Bool := c.isAlphanum || c == '_'

def isWordStart (c : Char) : Bool := c.isAlpha || c == '_'

/-- The token of a whole word. -/
def wordToken (s : List Char) : Token :=
  match keyword? (String.ofList (s.map Char.toUpper)) with
  | some k => .keyword k
  | none => .ident (String.ofList s)

/-- `str::parse::<usize>` of digits. -/
def parseUsize (s : List Char) : Option Nat := (nat? s).filter (· < 2 ^ 64)

def readString (cs : List Char) : Except DbError (Token × List Char) :=
  match cs.dropWhile (· != quote) with
  | [] => .error (.bail "unterminated string literal")
  | _ :: rest => .ok (.string (String.ofList (cs.takeWhile (· != quote))), rest)

def readInteger (cs : List Char) : Except DbError (Token × List Char) :=
  let s := cs.takeWhile Char.isDigit
  let integer : Except DbError (Token × List Char) :=
    match parseI64 s with
    | some n => .ok (.integer n, cs.dropWhile Char.isDigit)
    | none => .error (.bail "number too large to fit in target type")
  match cs.dropWhile Char.isDigit with
  | '.' :: d :: rest =>
    if d.isDigit then
      let fraction := (d :: rest).takeWhile Char.isDigit
      .ok (.float (UInt64.ofNat (Binary64.readFraction s fraction)),
        (d :: rest).dropWhile Char.isDigit)
    else integer
  | _ => integer

def readWord (cs : List Char) : Token × List Char :=
  (wordToken (cs.takeWhile isWordChar), cs.dropWhile isWordChar)

def readParam (cs : List Char) : Except DbError (Token × List Char) :=
  let s := cs.takeWhile Char.isDigit
  if s = [] then .error (.bail "`$` not followed by parameter index")
  else
    match parseUsize s with
    | some n => .ok (.param n, cs.dropWhile Char.isDigit)
    | none => .error (.bail "number too large to fit in target type")

/-- `next_token` at `c`, before `cs`. -/
def nextToken (c : Char) (cs : List Char) : Except DbError (Token × List Char) :=
  match c with
  | '*' => .ok (.asterisk, cs)
  | ',' => .ok (.comma, cs)
  | '.' => .ok (.dot, cs)
  | ';' => .ok (.semicolon, cs)
  | '(' => .ok (.lparen, cs)
  | ')' => .ok (.rparen, cs)
  | '+' => .ok (.plus, cs)
  | '-' => .ok (.minus, cs)
  | '/' => .ok (.slash, cs)
  | '=' => .ok (.eq, cs)
  | '<' =>
    match cs with
    | '=' :: cs => .ok (.le, cs)
    | '>' :: cs => .ok (.ne, cs)
    | cs => .ok (.lt, cs)
  | '>' =>
    match cs with
    | '=' :: cs => .ok (.ge, cs)
    | cs => .ok (.gt, cs)
  | '$' => readParam cs
  | c =>
    if c = quote then readString cs
    else if c.isDigit then readInteger (c :: cs)
    else if isWordStart c then .ok (readWord (c :: cs))
    else .error (.bail s!"unexpected character: {repr c}")

/-- The loop of `tokenize`. -/
def tokens : Nat → List Char → Except DbError (List Token)
  | 0, _ => .error .diverge
  | n + 1, cs =>
    match cs.dropWhile isWhite with
    | [] => .ok []
    | c :: cs => do
      let (t, rest) ← nextToken c cs
      let ts ← tokens n rest
      return t :: ts

def tokenize (cs : List Char) : Except DbError (List Token) := tokens (cs.length + 1) cs

/-! ## Runs of characters -/

section Runs

variable {p : Char → Bool} {s rest : List Char}

/-- The text does not go on with such a character. -/
def StopsAt (p : Char → Bool) (rest : List Char) : Prop := ∀ c ∈ rest.head?, p c = false

theorem dropWhile_stop (hr : StopsAt p rest) : rest.dropWhile p = rest := by
  cases rest with
  | nil => rfl
  | cons c rest => rw [List.dropWhile_cons_of_neg (by rw [hr c rfl]; exact Bool.false_ne_true)]

theorem takeWhile_stop (hr : StopsAt p rest) : rest.takeWhile p = [] := by
  cases rest with
  | nil => rfl
  | cons c rest => rw [List.takeWhile_cons_of_neg (by rw [hr c rfl]; exact Bool.false_ne_true)]

theorem takeWhile_run (hs : ∀ c ∈ s, p c) (hr : StopsAt p rest) : (s ++ rest).takeWhile p = s := by
  rw [List.takeWhile_append_of_pos hs, takeWhile_stop hr, List.append_nil]

theorem dropWhile_run (hs : ∀ c ∈ s, p c) (hr : StopsAt p rest) : (s ++ rest).dropWhile p = rest := by
  rw [List.dropWhile_append_of_pos hs, dropWhile_stop hr]

theorem dropWhile_length_le (p : Char → Bool) (s : List Char) : (s.dropWhile p).length ≤ s.length :=
  (List.dropWhile_sublist p).length_le

end Runs

/-! ## One token after another -/

section Loop

variable {c : Char} {cs rest : List Char} {t : Token} {n m : Nat}

theorem readString_length (h : readString cs = .ok (t, rest)) : rest.length ≤ cs.length := by
  have hle := dropWhile_length_le (· != quote) cs
  unfold readString at h
  split at h
  · cases h
  · next hd =>
    cases h
    rw [hd, List.length_cons] at hle
    omega

theorem readInteger_length (hc : c.isDigit) (h : readInteger (c :: cs) = .ok (t, rest)) :
    rest.length ≤ cs.length := by
  have hle := dropWhile_length_le Char.isDigit cs
  have hd : (c :: cs).dropWhile Char.isDigit = cs.dropWhile Char.isDigit :=
    List.dropWhile_cons_of_pos hc
  have hinteger : ∀ s : List Char, (match parseI64 s with
      | some n => (.ok (.integer n, cs.dropWhile Char.isDigit) : Except DbError (Token × List Char))
      | none => .error (.bail "number too large to fit in target type")) = .ok (t, rest) →
      rest.length ≤ cs.length := by
    intro s hs
    split at hs
    · cases hs
      exact hle
    · cases hs
  unfold readInteger at h
  rw [hd] at h
  dsimp only at h
  split at h
  · next d tail htail =>
    split at h
    · cases h
      have hle' := dropWhile_length_le Char.isDigit (d :: tail)
      rw [htail, List.length_cons] at hle
      omega
    · exact hinteger _ h
  · exact hinteger _ h

theorem isWordChar_of_start (hc : isWordStart c) : isWordChar c := by
  rw [isWordStart, Bool.or_eq_true] at hc
  rw [isWordChar, Char.isAlphanum, Bool.or_eq_true, Bool.or_eq_true]
  exact hc.imp_left Or.inl

theorem readWord_length (hc : isWordStart c) : (readWord (c :: cs)).2.length ≤ cs.length := by
  rw [readWord, List.dropWhile_cons_of_pos (isWordChar_of_start hc)]
  exact dropWhile_length_le isWordChar cs

theorem readParam_length (h : readParam cs = .ok (t, rest)) : rest.length ≤ cs.length := by
  unfold readParam at h
  dsimp only at h
  split at h
  · cases h
  · split at h
    · cases h
      exact dropWhile_length_le Char.isDigit cs
    · cases h

theorem nextToken_length (h : nextToken c cs = .ok (t, rest)) : rest.length ≤ cs.length := by
  unfold nextToken at h
  split at h
  case h_11 =>
    split at h
    all_goals
      cases h
      simp
  case h_12 =>
    split at h
    all_goals
      cases h
      simp
  case h_13 => exact readParam_length h
  case h_14 =>
    split at h
    · exact readString_length h
    · split at h
      · next hd => exact readInteger_length hd h
      · split at h
        · next hw =>
          cases h
          exact readWord_length hw
        · cases h
  all_goals
    cases h
    exact le_rfl

section Ends

variable {α : Type}

/-- A computation that ends, and then another. -/
theorem bind_ends {β : Type} {x : Except DbError α} {f : α → Except DbError β}
    (hx : x ≠ .error .diverge) (hf : ∀ a, f a ≠ .error .diverge) : (x >>= f) ≠ .error .diverge := by
  cases x with
  | error e => exact fun h => hx (by cases h; rfl)
  | ok a => exact hf a

theorem ok_ends {a : α} : (.ok a : Except DbError α) ≠ .error .diverge := fun h => by cases h

theorem bail_ends {msg : String} : (.error (.bail msg) : Except DbError α) ≠ .error .diverge :=
  fun h => by cases h

end Ends

theorem tokens_eq (hn : cs.length < n) (hm : cs.length < m) : tokens n cs = tokens m cs := by
  induction n generalizing m cs with
  | zero => exact absurd hn (Nat.not_lt_zero _)
  | succ n ih =>
    obtain ⟨m, rfl⟩ := Nat.exists_eq_succ_of_ne_zero (Nat.ne_of_gt (Nat.zero_lt_of_lt hm))
    have hle := dropWhile_length_le isWhite cs
    rw [tokens, tokens]
    split
    · rfl
    · next c tail hcs =>
      rw [hcs, List.length_cons] at hle
      cases hnext : nextToken c tail with
      | error e => rfl
      | ok p =>
        obtain ⟨t, rest⟩ := p
        have := nextToken_length hnext
        simp only [bind, Except.bind]
        rw [ih (m := m) (by omega) (by omega)]

theorem tokenize_white (hc : isWhite c) : tokenize (c :: cs) = tokenize cs := by
  rw [tokenize, tokenize, tokens, tokens, List.dropWhile_cons_of_pos hc, List.length_cons]
  split
  · rfl
  · next c' tail hcs =>
    have hle := dropWhile_length_le isWhite cs
    rw [hcs, List.length_cons] at hle
    cases hnext : nextToken c' tail with
    | error e => rfl
    | ok p =>
      have := nextToken_length hnext
      simp only [bind, Except.bind]
      rw [tokens_eq (m := cs.length) (by omega) (by omega)]

/-- One token, and the tokens of the rest. -/
theorem tokenize_cons (hc : isWhite c = false) : tokenize (c :: cs) = (do
    let (t, rest) ← nextToken c cs
    let ts ← tokenize rest
    return t :: ts) := by
  rw [tokenize, tokens, List.dropWhile_cons_of_neg (by rw [hc]; exact Bool.false_ne_true)]
  dsimp only
  cases hnext : nextToken c cs with
  | error e => rfl
  | ok p =>
    have := nextToken_length hnext
    simp only [bind, Except.bind, List.length_cons]
    rw [tokens_eq (m := p.2.length + 1) (by omega) (by omega), tokenize]

end Loop

/-! ## The kinds of characters -/

section Characters

variable {c : Char}

theorem isWhite_of_visible (h : 33 ≤ c.toNat ∧ c.toNat ≤ 126) : isWhite c = false := by
  simp only [isWhite, Bool.or_eq_false_iff, Bool.and_eq_false_iff, decide_eq_false_iff_not,
    beq_eq_false_iff_ne]
  omega

theorem isDigit_iff : c.isDigit ↔ 48 ≤ c.toNat ∧ c.toNat ≤ 57 := by
  simp [Char.isDigit, UInt32.le_iff_toNat_le]

theorem isAlpha_iff :
    c.isAlpha ↔ (65 ≤ c.toNat ∧ c.toNat ≤ 90) ∨ (97 ≤ c.toNat ∧ c.toNat ≤ 122) := by
  simp [Char.isAlpha, Char.isUpper, Char.isLower, UInt32.le_iff_toNat_le]

theorem isWordStart_iff : isWordStart c ↔
    ((65 ≤ c.toNat ∧ c.toNat ≤ 90) ∨ (97 ≤ c.toNat ∧ c.toNat ≤ 122)) ∨ c.toNat = 95 := by
  rw [isWordStart, Bool.or_eq_true, isAlpha_iff, beq_iff_eq, ← Char.toNat_inj]
  rfl

theorem isWhite_of_isDigit (h : c.isDigit) : isWhite c = false := by
  rw [isDigit_iff] at h
  exact isWhite_of_visible (by omega)

theorem isWhite_of_isWordStart (h : isWordStart c) : isWhite c = false := by
  rw [isWordStart_iff] at h
  exact isWhite_of_visible (by omega)

theorem nextToken_digit (h : c.isDigit) (cs : List Char) :
    nextToken c cs = readInteger (c :: cs) := by
  unfold nextToken
  split
  case h_14 =>
    have hq : c ≠ quote := by
      rintro rfl
      cases h
    rw [if_neg hq, if_pos h]
  all_goals cases h

theorem nextToken_word (h : isWordStart c) (cs : List Char) :
    nextToken c cs = .ok (readWord (c :: cs)) := by
  unfold nextToken
  split
  case h_14 =>
    have hq : c ≠ quote := by
      rintro rfl
      cases h
    have hd : ¬ c.isDigit := by
      rw [isDigit_iff]
      rw [isWordStart_iff] at h
      omega
    rw [if_neg hq, if_neg hd, if_pos h]
  all_goals cases h

end Characters

/-! ## The tokens of a text -/

/-- The text of an identifier. -/
structure IsName (w : List Char) : Prop where
  start : ∃ c tail, w = c :: tail ∧ isWordStart c
  chars : ∀ c ∈ w, isWordChar c
  free : keyword? (String.ofList (w.map Char.toUpper)) = none

/-- What is known of a token of a text. -/
def Token.Valid : Token → Prop
  | .ident s => IsName s.toList
  | .integer n => 0 ≤ n.toInt
  | .float x => x.toNat ≤ Binary64.infinity
  | .string s => quote ∉ s.toList
  | .param n => n < 2 ^ 64
  | _ => True

section Valid

variable {c : Char} {cs rest : List Char} {t : Token} {ts : List Token}

theorem parseI64_numeral {s : List Char} (hs : IsNumeral s) :
    parseI64 s = if (value s : Int) < 2 ^ 63 then some (Int64.ofInt (value s)) else none := by
  have hint : int? s = some (value s : Int) := int?_signed hs false
  have hin : InI64 (value s) ↔ (value s : Int) < 2 ^ 63 := and_iff_right (by omega)
  simp only [parseI64, hint, hin]

theorem isNumeral_takeWhile (hc : c.isDigit) : IsNumeral ((c :: cs).takeWhile Char.isDigit) :=
  ⟨by rw [List.takeWhile_cons_of_pos hc]; exact List.cons_ne_nil _ _,
    fun _ hd => List.mem_takeWhile_imp hd⟩

theorem readString_valid (h : readString cs = .ok (t, rest)) : t.Valid := by
  unfold readString at h
  split at h
  · cases h
  · cases h
    intro hq
    rw [String.toList_ofList] at hq
    have := List.mem_takeWhile_imp hq
    rw [bne_self_eq_false] at this
    cases this

theorem readFraction_valid (whole fraction : List Char) :
    (Token.float (UInt64.ofNat (Binary64.readFraction whole fraction))).Valid := by
  have hle : Binary64.readFraction whole fraction ≤ Binary64.infinity := Nat.min_le_right _ _
  have hlt : Binary64.infinity < 2 ^ 64 := by decide
  rw [Token.Valid, UInt64.toNat_ofNat', Nat.mod_eq_of_lt (hle.trans_lt hlt)]
  exact hle

theorem readInteger_valid (hc : c.isDigit) (h : readInteger (c :: cs) = .ok (t, rest)) : t.Valid := by
  have hinteger : ∀ u : List Char, (match parseI64 ((c :: cs).takeWhile Char.isDigit) with
      | some n => (.ok (.integer n, u) : Except DbError (Token × List Char))
      | none => .error (.bail "number too large to fit in target type")) = .ok (t, rest) →
      t.Valid := by
    intro u hu
    rw [parseI64_numeral (isNumeral_takeWhile hc)] at hu
    split at hu
    · next n hn =>
      cases hu
      split at hn
      · next hlt =>
        cases hn
        rw [Token.Valid, ExactArithmetic.toInt_ofInt64 ⟨by omega, hlt⟩]
        exact Int.natCast_nonneg _
      · cases hn
    · cases hu
  unfold readInteger at h
  dsimp only at h
  split at h
  · split at h
    · cases h
      exact readFraction_valid _ _
    · exact hinteger _ h
  · exact hinteger _ h

theorem readWord_valid (cs : List Char) (hc : isWordStart c) : (readWord (c :: cs)).1.Valid := by
  rw [readWord, wordToken]
  split
  · trivial
  · next hnone =>
    rw [Token.Valid, String.toList_ofList]
    exact ⟨⟨c, _, List.takeWhile_cons_of_pos (isWordChar_of_start hc), hc⟩, fun _ => List.mem_takeWhile_imp, hnone⟩

theorem readParam_valid (h : readParam cs = .ok (t, rest)) : t.Valid := by
  unfold readParam at h
  dsimp only at h
  split at h
  · cases h
  · split at h
    · next n hn =>
      cases h
      have hlt : n < 2 ^ 64 := of_decide_eq_true (Option.filter_eq_some_iff.1 hn).2
      exact hlt
    · cases h

theorem nextToken_valid (h : nextToken c cs = .ok (t, rest)) : t.Valid := by
  unfold nextToken at h
  split at h
  case h_11 => split at h <;> (cases h; trivial)
  case h_12 => split at h <;> (cases h; trivial)
  case h_13 => exact readParam_valid h
  case h_14 =>
    split at h
    · exact readString_valid h
    · split at h
      · next hd => exact readInteger_valid hd h
      · split at h
        · next hw =>
          have := readWord_valid cs hw
          rw [Except.ok.inj h] at this
          exact this
        · cases h
  all_goals
    cases h
    trivial

/-- What is known of the tokens of a text. -/
theorem tokens_valid {n : Nat} (h : tokens n cs = .ok ts) : ∀ t ∈ ts, t.Valid := by
  induction n generalizing cs ts with
  | zero => cases h
  | succ n ih =>
    rw [tokens] at h
    split at h
    · cases h
      exact List.forall_mem_nil _
    · obtain ⟨⟨t, rest⟩, hnext, h⟩ := bind_ok.1 h
      obtain ⟨us, hus, h⟩ := bind_ok.1 h
      cases h
      exact List.forall_mem_cons.2 ⟨nextToken_valid hnext, ih hus⟩

end Valid

/-! ## Texts one after another -/

/-- The tokens of a text, or nothing where there is an error. -/
def lex (cs : List Char) : Option (List Token) := (tokenize cs).toOption

/-- The tokens of one text and then those of another. -/
def andThen (a b : Option (List Token)) : Option (List Token) :=
  a.bind fun ts => b.map fun us => ts ++ us

@[simp] theorem andThen_nil (b : Option (List Token)) : andThen (some []) b = b := by
  cases b <;> rfl

theorem andThen_assoc (a b d : Option (List Token)) :
    andThen (andThen a b) d = andThen a (andThen b d) := by
  cases a with
  | none => rfl
  | some ts =>
    cases b with
    | none => rfl
    | some us =>
      cases d with
      | none => rfl
      | some vs => exact congrArg some (List.append_assoc ts us vs)

theorem andThen_some (ts us : List Token) (b : Option (List Token)) :
    andThen (some ts) (andThen (some us) b) = andThen (some (ts ++ us)) b :=
  (andThen_assoc (some ts) (some us) b).symm

section Lex

variable {c : Char} {s rest : List Char} {t : Token}

@[simp] theorem lex_nil : lex [] = some [] := rfl

theorem lex_white (hc : isWhite c) : lex (c :: rest) = lex rest := by
  rw [lex, tokenize_white hc, lex]

theorem lex_space (cs : List Char) : lex (' ' :: cs) = lex cs := lex_white rfl

theorem lex_token {cs : List Char} (hc : isWhite c = false) (h : nextToken c cs = .ok (t, rest)) :
    lex (c :: cs) = andThen (some [t]) (lex rest) := by
  rw [lex, tokenize_cons hc, h, lex]
  simp only [bind, Except.bind]
  cases tokenize rest with
  | error e => rfl
  | ok ts => rfl

theorem lex_error {cs : List Char} {e : DbError} (hc : isWhite c = false)
    (h : nextToken c cs = .error e) : lex (c :: cs) = none := by
  rw [lex, tokenize_cons hc, h]
  rfl

theorem lex_word (h : ∃ c tail, s = c :: tail ∧ isWordStart c) (hs : ∀ c ∈ s, isWordChar c)
    (hr : StopsAt isWordChar rest) : lex (s ++ rest) = andThen (some [wordToken s]) (lex rest) := by
  obtain ⟨c, tail, rfl, hc⟩ := h
  rw [List.cons_append]
  refine lex_token (isWhite_of_isWordStart hc) ((nextToken_word hc _).trans ?_)
  rw [readWord, ← List.cons_append, takeWhile_run hs hr, dropWhile_run hs hr]

theorem lex_name (h : IsName s) (hr : StopsAt isWordChar rest) :
    lex (s ++ rest) = andThen (some [.ident (String.ofList s)]) (lex rest) := by
  rw [lex_word h.start h.chars hr, wordToken, h.free]

/-- What may follow an expression: nothing, a space, a comma or a bracket. -/
def Delim (rest : List Char) : Prop := ∀ c ∈ rest.head?, c = ' ' ∨ c = ',' ∨ c = ')'

theorem Delim.stopsAt {p : Char → Bool} (h : Delim rest)
    (hp : p ' ' = false ∧ p ',' = false ∧ p ')' = false) : StopsAt p rest := by
  intro c hc
  rcases h c hc with rfl | rfl | rfl
  · exact hp.1
  · exact hp.2.1
  · exact hp.2.2

theorem lex_integer (hs : IsNumeral s) (hr : Delim rest) :
    lex (s ++ rest) = andThen ((parseI64 s).map fun n => [.integer n]) (lex rest) := by
  obtain ⟨hne, hd⟩ := hs
  obtain ⟨c, tail, rfl⟩ := List.exists_cons_of_ne_nil hne
  have hc := hd c List.mem_cons_self
  have hstop : StopsAt Char.isDigit rest := hr.stopsAt ⟨rfl, rfl, rfl⟩
  have hread : nextToken c (tail ++ rest) = match parseI64 (c :: tail) with
      | some n => .ok (.integer n, rest)
      | none => .error (.bail "number too large to fit in target type") := by
    rw [nextToken_digit hc, ← List.cons_append, readInteger, takeWhile_run hd hstop,
      dropWhile_run hd hstop]
    split
    · have := hr '.' rfl
      rcases this with h | h | h <;> cases h
    · rfl
  cases hn : parseI64 (c :: tail) with
  | none =>
    rw [hn] at hread
    exact lex_error (isWhite_of_isDigit hc) hread
  | some n =>
    rw [hn] at hread
    exact lex_token (isWhite_of_isDigit hc) hread

theorem lex_float {whole fraction : List Char} (hw : IsNumeral whole) (hf : IsNumeral fraction)
    (hr : Delim rest) : lex (whole ++ '.' :: (fraction ++ rest)) =
      andThen (some [.float (UInt64.ofNat (Binary64.readFraction whole fraction))]) (lex rest) := by
  obtain ⟨hne, hd⟩ := hw
  obtain ⟨hne', hd'⟩ := hf
  obtain ⟨c, tail, rfl⟩ := List.exists_cons_of_ne_nil hne
  obtain ⟨d, tail', rfl⟩ := List.exists_cons_of_ne_nil hne'
  have hc := hd c List.mem_cons_self
  have hstop : StopsAt Char.isDigit ('.' :: (d :: tail' ++ rest)) := fun c hc => by
    cases hc
    rfl
  have hstop' : StopsAt Char.isDigit rest := hr.stopsAt ⟨rfl, rfl, rfl⟩
  rw [List.cons_append]
  refine lex_token (isWhite_of_isDigit hc) ((nextToken_digit hc _).trans ?_)
  rw [← List.cons_append, readInteger, takeWhile_run hd hstop, dropWhile_run hd hstop]
  simp only [List.cons_append, hd' d List.mem_cons_self, if_true]
  rw [← List.cons_append, takeWhile_run hd' hstop',
    dropWhile_run hd' hstop']

theorem lex_string (hs : quote ∉ s) :
    lex (quote :: (s ++ quote :: rest)) = andThen (some [.string (String.ofList s)]) (lex rest) := by
  have hrun : ∀ c ∈ s, (c != quote) = true := fun c hc => bne_iff_ne.2 fun h => hs (h ▸ hc)
  have hstop : StopsAt (· != quote) (quote :: rest) := fun c hc => by
    cases hc
    exact bne_self_eq_false quote
  refine lex_token rfl ?_
  change readString (s ++ quote :: rest) = _
  rw [readString, dropWhile_run hrun hstop, takeWhile_run hrun hstop]

theorem lex_param {n : Nat} (hn : n < 2 ^ 64) (hr : Delim rest) :
    lex ('$' :: (digits n ++ rest)) = andThen (some [.param n]) (lex rest) := by
  have hd := isNumeral_digits n
  have hstop : StopsAt Char.isDigit rest := hr.stopsAt ⟨rfl, rfl, rfl⟩
  have hparse : parseUsize (digits n) = some n := by
    rw [parseUsize, nat?_of_isNumeral hd, value_digits]
    exact Option.filter_some_pos (decide_eq_true hn)
  refine lex_token rfl ?_
  change readParam (digits n ++ rest) = _
  rw [readParam, takeWhile_run hd.2 hstop, dropWhile_run hd.2 hstop, if_neg hd.1, hparse]

end Lex

end Ccdb.Lexer
