import Ccdb.Exec.Planner
import Ccdb.Lib.Calendar

/-!
# Ccdb — the arithmetic of expressions

The arms of `evaluate_binary` that compute: integers, dates, times, timestamps and
intervals. Integer overflow panics in a debug build and wraps in a release build
(`Build`); division overflow panics in both. The floating point operations are a
parameter, and so are the first and the last year of `chrono`, whose dates are those of
the Gregorian calendar.

Main results:

* `arithmetic_type` — the types of the operands and of the result.
-/

namespace Ccdb

open Calendar

/-! ## Machine integers -/

/-- What integer overflow does. -/
inductive Build where
  | debug
  | release
deriving DecidableEq, Repr

def InI32 (n : Int) : Prop := -2 ^ 31 ≤ n ∧ n < 2 ^ 31
def InI64 (n : Int) : Prop := -2 ^ 63 ≤ n ∧ n < 2 ^ 63

instance (n : Int) : Decidable (InI32 n) := inferInstanceAs (Decidable (_ ∧ _))
instance (n : Int) : Decidable (InI64 n) := inferInstanceAs (Decidable (_ ∧ _))

/-- The `i32` result of an operation that is `n` without bounds. -/
def Build.i32 (b : Build) (what : String) (n : Int) : Except DbError Int32 :=
  if InI32 n ∨ b = .release then .ok (Int32.ofInt n)
  else .error (.panic s!"attempt to {what} with overflow")

def Build.i64 (b : Build) (what : String) (n : Int) : Except DbError Int64 :=
  if InI64 n ∨ b = .release then .ok (Int64.ofInt n)
  else .error (.panic s!"attempt to {what} with overflow")

theorem Build.i32_ok (b : Build) (what : String) {n : Int} (h : InI32 n) :
    b.i32 what n = .ok (Int32.ofInt n) := if_pos (Or.inl h)

theorem Build.i64_ok (b : Build) (what : String) {n : Int} (h : InI64 n) :
    b.i64 what n = .ok (Int64.ofInt n) := if_pos (Or.inl h)

/-- `x / n` for `n` not zero. -/
def divI32 (x n : Int32) : Except DbError Int32 :=
  if InI32 (x.toInt.tdiv n.toInt) then .ok (Int32.ofInt (x.toInt.tdiv n.toInt))
  else .error (.panic "attempt to divide with overflow")

def divI64 (x n : Int64) : Except DbError Int64 :=
  if InI64 (x.toInt.tdiv n.toInt) then .ok (Int64.ofInt (x.toInt.tdiv n.toInt))
  else .error (.panic "attempt to divide with overflow")

/-- `i32::saturating_add`. -/
def saturatingAdd (x y : Int32) : Int32 :=
  Int32.ofInt (max (-2 ^ 31) (min (2 ^ 31 - 1) (x.toInt + y.toInt)))

/-- IEEE 754 operations on bit patterns. -/
structure F64Ops where
  add : UInt64 → UInt64 → UInt64
  sub : UInt64 → UInt64 → UInt64
  mul : UInt64 → UInt64 → UInt64
  div : UInt64 → UInt64 → UInt64

/-- Operations for expressions that have none on DOUBLE. -/
def noF64 : F64Ops := ⟨fun x _ => x, fun x _ => x, fun x _ => x, fun x _ => x⟩

/-! ## Dates and times -/

def DAY_US : Int := 86400000000

/-- The years of `NaiveDate`. -/
structure Chrono where
  minYear : Int
  maxYear : Int
  epoch : minYear ≤ 2000 ∧ 2000 ≤ maxYear

/-- The years of `chrono` 0.4. -/
def chronoYears : Chrono := ⟨-262143, 262142, by decide⟩

namespace Chrono

variable (c : Chrono)

/-- A day that `NaiveDate` has. -/
def HasDay (n : Int) : Prop := c.minYear ≤ (civil n).year ∧ (civil n).year ≤ c.maxYear

instance (n : Int) : Decidable (c.HasDay n) := inferInstanceAs (Decidable (_ ∧ _))

/-- `NaiveDate::from_ymd_opt`. -/
def fromYmd (d : Date) : Option Int :=
  if (c.minYear ≤ d.year ∧ d.year ≤ c.maxYear) ∧ (1 ≤ d.month ∧ d.month ≤ 12) ∧
      1 ≤ d.day ∧ d.day ≤ monthLength d.year d.month then some (dayNumber d)
  else none

/-- `dt + Duration::microseconds(..)`, times being microseconds from the epoch. -/
def plus (dt us : Int) : Except DbError Int :=
  if c.HasDay ((dt + us) / DAY_US) then .ok (dt + us)
  else .error (.panic "`NaiveDateTime + TimeDelta` overflowed")

/-- `days_in_month`. -/
def daysInMonth (year month : Int) : Except DbError Int :=
  match c.fromYmd ⟨(nextMonth year month).1, (nextMonth year month).2, 1⟩ with
  | none => .error (.panic "valid first-of-month")
  | some next =>
    if c.HasDay (next - 1) then .ok (civil (next - 1)).day
    else .error (.panic "`NaiveDate - TimeDelta` overflowed")

/-- The first step of `apply_interval_to_timestamp`: the month counts, the day is clamped. -/
def addMonths (dt months : Int) : Except DbError Int :=
  if months = 0 then .ok dt
  else do
    let date := civil (dt / DAY_US)
    let total := date.year * 12 + (date.month - 1) + months
    let maxDay ← c.daysInMonth (total / 12) (total % 12 + 1)
    match c.fromYmd ⟨total / 12, total % 12 + 1, min date.day maxDay⟩ with
    | none => .error (.bail "date out of range")
    | some day => .ok (day * DAY_US + dt % DAY_US)

/-- A step that is left out when there is nothing to add. -/
def addMicros (dt us : Int) : Except DbError Int := if us = 0 then .ok dt else c.plus dt us

/-- `apply_interval_to_timestamp`. -/
def applyIntervalToTimestamp (ts : Int64) (months days : Int32) (micros : Int64) :
    Except DbError Int64 := do
  let dt ← c.plus 0 ts.toInt
  let dt ← c.addMonths dt months.toInt
  let dt ← c.addMicros dt (days.toInt * DAY_US)
  let dt ← c.addMicros dt micros.toInt
  if InI64 dt then .ok (Int64.ofInt dt) else .error (.bail "timestamp out of range")

end Chrono

/-! ## Operators -/

def mismatch (op : BinaryOperator) : Except DbError Value :=
  .error (.bail s!"type mismatch in binary op {op.debug}")

/-- The sign an operator gives its right operand. -/
def BinaryOperator.sign (op : BinaryOperator) : Int := if op = .add then 1 else -1

section Arms

variable (b : Build) (f : F64Ops) (c : Chrono)

def doubleArm (op : BinaryOperator) (x y : UInt64) : Except DbError Value :=
  match op with
  | .add => .ok (.double (f.add x y))
  | .sub => .ok (.double (f.sub x y))
  | .mul => .ok (.double (f.mul x y))
  | .div =>
    if f64PartialCmp y 0 = some .eq then .error (.bail "division by zero")
    else .ok (.double (f.div x y))
  | op => mismatch op

def intArm (op : BinaryOperator) (x y : Int32) : Except DbError Value :=
  match op with
  | .add => return .int (← b.i32 "add" (x.toInt + y.toInt))
  | .sub => return .int (← b.i32 "subtract" (x.toInt - y.toInt))
  | .mul => return .int (← b.i32 "multiply" (x.toInt * y.toInt))
  | .div => if y = 0 then .error (.bail "division by zero") else return .int (← divI32 x y)
  | op => mismatch op

/-- `date ± int`. -/
def dateIntArm (op : BinaryOperator) (d n : Int32) : Except DbError Value :=
  match op with
  | .add => .ok (.date (saturatingAdd d n))
  | .sub => do
    let delta ← b.i32 "negate" (-n.toInt)
    return .date (saturatingAdd d delta)
  | op => mismatch op

/-- `date ± interval` and `timestamp ± interval`, from the timestamp on. -/
def timestampIntervalArm (op : BinaryOperator) (ts : Int64) (months days : Int32) (micros : Int64) :
    Except DbError Value := do
  let months ← b.i32 "multiply" (op.sign * months.toInt)
  let days ← b.i32 "multiply" (op.sign * days.toInt)
  let micros ← b.i64 "multiply" (op.sign * micros.toInt)
  return .timestamp (← c.applyIntervalToTimestamp ts months days micros)

/-- `(*d as i64) * 86_400_000_000`. -/
def midnight (d : Int32) : Except DbError Int64 := b.i64 "multiply" (d.toInt * DAY_US)

def intervalIntervalArm (op : BinaryOperator) (m₁ d₁ : Int32) (u₁ : Int64) (m₂ d₂ : Int32)
    (u₂ : Int64) : Except DbError Value := do
  let m ← b.i32 "multiply" (op.sign * m₂.toInt)
  let months ← b.i32 "add" (m₁.toInt + m.toInt)
  let d ← b.i32 "multiply" (op.sign * d₂.toInt)
  let days ← b.i32 "add" (d₁.toInt + d.toInt)
  let u ← b.i64 "multiply" (op.sign * u₂.toInt)
  let micros ← b.i64 "add" (u₁.toInt + u.toInt)
  return .interval months days micros

/-- `interval * int` and `int * interval`. -/
def intervalMulArm (m d : Int32) (u : Int64) (n : Int32) : Except DbError Value := do
  let months ← b.i32 "multiply" (m.toInt * n.toInt)
  let days ← b.i32 "multiply" (d.toInt * n.toInt)
  let micros ← b.i64 "multiply" (u.toInt * n.toInt)
  return .interval months days micros

def intervalDivArm (m d : Int32) (u : Int64) (n : Int32) : Except DbError Value :=
  if n = 0 then .error (.bail "division by zero")
  else do
    let months ← divI32 m n
    let days ← divI32 d n
    let micros ← divI64 u n.toInt64
    return .interval months days micros

/-- `time ± interval`; months and days are ignored. -/
def timeIntervalArm (op : BinaryOperator) (t u : Int64) : Except DbError Value := do
  let us ← b.i64 "multiply" (op.sign * u.toInt)
  let sum ← b.i64 "add" (t.toInt + us.toInt)
  return .time (Int64.ofInt (sum.toInt % DAY_US))

/-- The four arithmetic operators of `evaluate_binary`. -/
def arithmetic : Arith := fun op l r =>
  match l, r with
  | .double x, .double y => doubleArm f op x y
  | .int x, .int y => intArm b op x y
  | .date d, .int n => if op = .add ∨ op = .sub then dateIntArm b op d n else mismatch op
  | .int n, .date d => if op = .add then .ok (.date (saturatingAdd d n)) else mismatch op
  | .date d, .interval months days micros =>
    if op = .add ∨ op = .sub then do
      let ts ← midnight b d
      timestampIntervalArm b c op ts months days micros
    else mismatch op
  | .interval months days micros, .date d =>
    if op = .add then do
      let ts ← midnight b d
      return .timestamp (← c.applyIntervalToTimestamp ts months days micros)
    else mismatch op
  | .timestamp ts, .interval months days micros =>
    if op = .add ∨ op = .sub then timestampIntervalArm b c op ts months days micros else mismatch op
  | .interval months days micros, .timestamp ts =>
    if op = .add then return .timestamp (← c.applyIntervalToTimestamp ts months days micros)
    else mismatch op
  | .interval m₁ d₁ u₁, .interval m₂ d₂ u₂ =>
    if op = .add ∨ op = .sub then intervalIntervalArm b op m₁ d₁ u₁ m₂ d₂ u₂ else mismatch op
  | .interval m d u, .int n =>
    if op = .mul then intervalMulArm b m d u n
    else if op = .div then intervalDivArm m d u n
    else mismatch op
  | .int n, .interval m d u => if op = .mul then intervalMulArm b m d u n else mismatch op
  | .time t, .interval _ _ u => if op = .add ∨ op = .sub then timeIntervalArm b op t u else mismatch op
  | .interval _ _ u, .time t => if op = .add then timeIntervalArm b .add t u else mismatch op
  | _, _ => mismatch op

end Arms

/-! ## Results -/

/-- The type of what an operator returns for operands of these types. -/
def resultType (op : BinaryOperator) : DataType → DataType → Option DataType
  | .double, .double => some .double
  | .int, .int => some .int
  | .date, .int => if op = .add ∨ op = .sub then some .date else none
  | .int, .date => if op = .add then some .date else none
  | .date, .interval => if op = .add ∨ op = .sub then some .timestamp else none
  | .interval, .date => if op = .add then some .timestamp else none
  | .timestamp, .interval => if op = .add ∨ op = .sub then some .timestamp else none
  | .interval, .timestamp => if op = .add then some .timestamp else none
  | .interval, .interval => if op = .add ∨ op = .sub then some .interval else none
  | .interval, .int => if op = .mul ∨ op = .div then some .interval else none
  | .int, .interval => if op = .mul then some .interval else none
  | .time, .interval => if op = .add ∨ op = .sub then some .time else none
  | .interval, .time => if op = .add then some .time else none
  | _, _ => none

section Types

variable {b : Build} {f : F64Ops} {c : Chrono} {op : BinaryOperator} {l r v : Value}

theorem bind_ok {α β : Type u} {x : Except DbError α} {g : α → Except DbError β} {y : β} :
    (x >>= g) = .ok y ↔ ∃ a, x = .ok a ∧ g a = .ok y := by
  cases x with
  | ok a => simp [bind, Except.bind]
  | error e => simp [bind, Except.bind]

theorem mismatch_ne_ok (op : BinaryOperator) : mismatch op ≠ .ok v := fun h => by cases h

theorem doubleArm_type {x y : UInt64} (h : doubleArm f op x y = .ok v) : v.dataType = some .double := by
  cases op
  case div =>
    simp only [doubleArm] at h
    split at h
    · cases h
    · cases h
      rfl
  all_goals cases h
  all_goals rfl

theorem intArm_type {x y : Int32} (h : intArm b op x y = .ok v) : v.dataType = some .int := by
  cases op
  case add =>
    obtain ⟨n, -, hn⟩ := bind_ok.1 h
    cases hn
    rfl
  case sub =>
    obtain ⟨n, -, hn⟩ := bind_ok.1 h
    cases hn
    rfl
  case mul =>
    obtain ⟨n, -, hn⟩ := bind_ok.1 h
    cases hn
    rfl
  case div =>
    simp only [intArm] at h
    split at h
    · cases h
    · obtain ⟨n, -, hn⟩ := bind_ok.1 h
      cases hn
      rfl
  all_goals cases h

theorem dateIntArm_type {d n : Int32} (h : dateIntArm b op d n = .ok v) : v.dataType = some .date := by
  cases op
  case add =>
    cases h
    rfl
  case sub =>
    obtain ⟨delta, -, hd⟩ := bind_ok.1 h
    cases hd
    rfl
  all_goals cases h

theorem timestampIntervalArm_type {ts micros : Int64} {months days : Int32}
    (h : timestampIntervalArm b c op ts months days micros = .ok v) : v.dataType = some .timestamp := by
  obtain ⟨m, -, h⟩ := bind_ok.1 h
  obtain ⟨d, -, h⟩ := bind_ok.1 h
  obtain ⟨u, -, h⟩ := bind_ok.1 h
  obtain ⟨n, -, h⟩ := bind_ok.1 h
  cases h
  rfl

theorem intervalIntervalArm_type {m₁ d₁ m₂ d₂ : Int32} {u₁ u₂ : Int64}
    (h : intervalIntervalArm b op m₁ d₁ u₁ m₂ d₂ u₂ = .ok v) : v.dataType = some .interval := by
  obtain ⟨m, -, h⟩ := bind_ok.1 h
  obtain ⟨months, -, h⟩ := bind_ok.1 h
  obtain ⟨d, -, h⟩ := bind_ok.1 h
  obtain ⟨days, -, h⟩ := bind_ok.1 h
  obtain ⟨u, -, h⟩ := bind_ok.1 h
  obtain ⟨micros, -, h⟩ := bind_ok.1 h
  cases h
  rfl

theorem intervalMulArm_type {m d n : Int32} {u : Int64} (h : intervalMulArm b m d u n = .ok v) :
    v.dataType = some .interval := by
  obtain ⟨months, -, h⟩ := bind_ok.1 h
  obtain ⟨days, -, h⟩ := bind_ok.1 h
  obtain ⟨micros, -, h⟩ := bind_ok.1 h
  cases h
  rfl

theorem intervalDivArm_type {m d n : Int32} {u : Int64} (h : intervalDivArm m d u n = .ok v) :
    v.dataType = some .interval := by
  unfold intervalDivArm at h
  split at h
  · cases h
  · obtain ⟨months, -, h⟩ := bind_ok.1 h
    obtain ⟨days, -, h⟩ := bind_ok.1 h
    obtain ⟨micros, -, h⟩ := bind_ok.1 h
    cases h
    rfl

theorem timeIntervalArm_type {t u : Int64} (h : timeIntervalArm b op t u = .ok v) :
    v.dataType = some .time := by
  obtain ⟨us, -, h⟩ := bind_ok.1 h
  obtain ⟨sum, -, h⟩ := bind_ok.1 h
  cases h
  rfl

/-- An arm that is only there for some operators. -/
theorem of_arm {p : Prop} [Decidable p] {x : Except DbError Value}
    (h : (if p then x else mismatch op) = .ok v) : p ∧ x = .ok v := by
  split at h
  · next hp => exact ⟨hp, h⟩
  · exact absurd h (mismatch_ne_ok op)

/-- **The type of a result**, arm by arm. -/
theorem arithmetic_type (h : arithmetic b f c op l r = .ok v) :
    ∃ tl tr t, l.dataType = some tl ∧ r.dataType = some tr ∧ v.dataType = some t ∧
      resultType op tl tr = some t := by
  unfold arithmetic at h
  split at h
  · exact ⟨_, _, _, rfl, rfl, doubleArm_type h, rfl⟩
  · exact ⟨_, _, _, rfl, rfl, intArm_type h, rfl⟩
  · obtain ⟨hop, h⟩ := of_arm h
    exact ⟨_, _, _, rfl, rfl, dateIntArm_type h, if_pos hop⟩
  · obtain ⟨hop, h⟩ := of_arm h
    cases h
    exact ⟨_, _, _, rfl, rfl, rfl, if_pos hop⟩
  · obtain ⟨hop, h⟩ := of_arm h
    obtain ⟨ts, -, h⟩ := bind_ok.1 h
    exact ⟨_, _, _, rfl, rfl, timestampIntervalArm_type h, if_pos hop⟩
  · obtain ⟨hop, h⟩ := of_arm h
    obtain ⟨ts, -, h⟩ := bind_ok.1 h
    obtain ⟨n, -, h⟩ := bind_ok.1 h
    cases h
    exact ⟨_, _, _, rfl, rfl, rfl, if_pos hop⟩
  · obtain ⟨hop, h⟩ := of_arm h
    exact ⟨_, _, _, rfl, rfl, timestampIntervalArm_type h, if_pos hop⟩
  · obtain ⟨hop, h⟩ := of_arm h
    obtain ⟨n, -, h⟩ := bind_ok.1 h
    cases h
    exact ⟨_, _, _, rfl, rfl, rfl, if_pos hop⟩
  · obtain ⟨hop, h⟩ := of_arm h
    exact ⟨_, _, _, rfl, rfl, intervalIntervalArm_type h, if_pos hop⟩
  · split at h
    · next hop => exact ⟨_, _, _, rfl, rfl, intervalMulArm_type h, if_pos (Or.inl hop)⟩
    · obtain ⟨hop, h⟩ := of_arm h
      exact ⟨_, _, _, rfl, rfl, intervalDivArm_type h, if_pos (Or.inr hop)⟩
  · obtain ⟨hop, h⟩ := of_arm h
    exact ⟨_, _, _, rfl, rfl, intervalMulArm_type h, if_pos hop⟩
  · obtain ⟨hop, h⟩ := of_arm h
    exact ⟨_, _, _, rfl, rfl, timeIntervalArm_type h, if_pos hop⟩
  · obtain ⟨hop, h⟩ := of_arm h
    exact ⟨_, _, _, rfl, rfl, timeIntervalArm_type h, if_pos hop⟩
  · exact absurd h (mismatch_ne_ok op)

end Types

end Ccdb
