import Ccdb.Exec.Arithmetic

/-!
# Ccdb — exact results

The operators on INT, DATE, TIME, TIMESTAMP and INTERVAL against the same operations on
unbounded integers and an unbounded calendar. Each arm of the evaluator is a chain of
steps that panic in one build and wrap in the other; it is exact, or an error, in both
builds when none of its steps leaves its range (`InRange`).

Main results:

* `bind_iff` — one step of an arm.
* `calendar_iff` — `apply_interval_to_timestamp` against the unbounded calendar.
* `arithmetic_exact_iff` — when an operator is exact or an error.
* `arithmetic_not_exact` — a sum, a date and a timestamp for which it is neither.
-/

namespace Ccdb.ExactArithmetic

open Calendar

/-! ## The evaluator of one build -/

/-- `evaluate_binary` with the differences of timestamps and of dates as the build has them. -/
def evaluateBinaryIn (b : Build) (f : F64Ops) (c : Chrono) (op : BinaryOperator) (l r : Value) :
    Except DbError Value :=
  match op, l, r with
  | .sub, .timestamp x, .timestamp y => return .interval 0 0 (← b.i64 "subtract" (x.toInt - y.toInt))
  | .sub, .date x, .date y => return .int (← b.i32 "subtract" (x.toInt - y.toInt))
  | op, l, r => evaluateBinary (arithmetic b f c) op l r

/-- `evaluate_unary` with the negation of the build. -/
def evaluateUnaryIn (b : Build) (op : UnaryOperator) (v : Value) : Except DbError Value :=
  match op, v with
  | .neg, .int n => return .int (← b.i32 "negate" (-n.toInt))
  | op, v => evaluateUnary op v

/-! ## The operations without bounds -/

/-- A result without bounds. -/
inductive Number where
  | bool (b : Bool)
  | int (n : Int)
  | date (n : Int)
  | time (n : Int)
  | timestamp (n : Int)
  | interval (months days micros : Int)
deriving DecidableEq, Repr

/-- The value is the number. -/
def Number.Is : Number → Value → Prop
  | .bool b, .bool b' => b' = b
  | .int n, .int k => k.toInt = n
  | .date n, .date k => k.toInt = n
  | .time n, .time k => k.toInt = n
  | .timestamp n, .timestamp k => k.toInt = n
  | .interval m d u, .interval m' d' u' => m'.toInt = m ∧ d'.toInt = d ∧ u'.toInt = u
  | _, _ => False

/-- A comparison operator on integers. -/
def holds (op : BinaryOperator) (x y : Int) : Option Number :=
  match op with
  | .eq => some (.bool (x = y))
  | .ne => some (.bool (x ≠ y))
  | .lt => some (.bool (x < y))
  | .le => some (.bool (x ≤ y))
  | .gt => some (.bool (y < x))
  | .ge => some (.bool (y ≤ x))
  | _ => none

/-- The year and the month an interval of months leads to, the month from 0 on. -/
def monthAfter (t months : Int) : Int :=
  (civil (t / DAY_US)).year * 12 + ((civil (t / DAY_US)).month - 1) + months

/-- The months of an interval: the calendar advances, the day is clamped to the month. -/
def shiftMonths (t months : Int) : Int :=
  if months = 0 then t
  else
    let year := monthAfter t months / 12
    let month := monthAfter t months % 12 + 1
    dayNumber ⟨year, month, min (civil (t / DAY_US)).day (monthLength year month)⟩ * DAY_US + t % DAY_US

/-- Months, then days, then microseconds. -/
def shift (t months days micros : Int) : Int := shiftMonths t months + days * DAY_US + micros

/-- The exact result of an operator, where there is one. -/
def exact (op : BinaryOperator) (l r : Value) : Option Number :=
  match l, r with
  | .int x, .int y =>
    match op with
    | .add => some (.int (x.toInt + y.toInt))
    | .sub => some (.int (x.toInt - y.toInt))
    | .mul => some (.int (x.toInt * y.toInt))
    | .div => if y = 0 then none else some (.int (x.toInt.tdiv y.toInt))
    | op => holds op x.toInt y.toInt
  | .date x, .date y => if op = .sub then some (.int (x.toInt - y.toInt)) else holds op x.toInt y.toInt
  | .timestamp x, .timestamp y =>
    if op = .sub then some (.interval 0 0 (x.toInt - y.toInt)) else holds op x.toInt y.toInt
  | .time x, .time y => holds op x.toInt y.toInt
  | .date d, .int n => if op = .add ∨ op = .sub then some (.date (d.toInt + op.sign * n.toInt)) else none
  | .int n, .date d => if op = .add then some (.date (d.toInt + n.toInt)) else none
  | .date d, .interval m k u =>
    if op = .add ∨ op = .sub then
      some (.timestamp
        (shift (d.toInt * DAY_US) (op.sign * m.toInt) (op.sign * k.toInt) (op.sign * u.toInt)))
    else none
  | .interval m k u, .date d =>
    if op = .add then some (.timestamp (shift (d.toInt * DAY_US) m.toInt k.toInt u.toInt)) else none
  | .timestamp t, .interval m k u =>
    if op = .add ∨ op = .sub then
      some (.timestamp (shift t.toInt (op.sign * m.toInt) (op.sign * k.toInt) (op.sign * u.toInt)))
    else none
  | .interval m k u, .timestamp t =>
    if op = .add then some (.timestamp (shift t.toInt m.toInt k.toInt u.toInt)) else none
  | .interval m₁ d₁ u₁, .interval m₂ d₂ u₂ =>
    if op = .add ∨ op = .sub then
      some (.interval (m₁.toInt + op.sign * m₂.toInt) (d₁.toInt + op.sign * d₂.toInt)
        (u₁.toInt + op.sign * u₂.toInt))
    else none
  | .interval m d u, .int n =>
    if op = .mul then some (.interval (m.toInt * n.toInt) (d.toInt * n.toInt) (u.toInt * n.toInt))
    else if op = .div ∧ n ≠ 0 then
      some (.interval (m.toInt.tdiv n.toInt) (d.toInt.tdiv n.toInt) (u.toInt.tdiv n.toInt))
    else none
  | .int n, .interval m d u =>
    if op = .mul then some (.interval (m.toInt * n.toInt) (d.toInt * n.toInt) (u.toInt * n.toInt))
    else none
  | .time t, .interval _ _ u =>
    if op = .add ∨ op = .sub then some (.time ((t.toInt + op.sign * u.toInt) % DAY_US)) else none
  | .interval _ _ u, .time t => if op = .add then some (.time ((t.toInt + u.toInt) % DAY_US)) else none
  | _, _ => none

/-- The exact result of a unary operator. -/
def exactUnary (op : UnaryOperator) (v : Value) : Option Number :=
  match op, v with
  | .neg, .int n => some (.int (-n.toInt))
  | _, _ => none

/-- A value with a property, or an error that is no panic. -/
def OkOrErr (P : Value → Prop) : Except DbError Value → Prop
  | .ok v => P v
  | .error (.bail _) => True
  | .error _ => False

/-- The exact result or an error. -/
def ExactOrErr (x : Option Number) : Except DbError Value → Prop := OkOrErr fun v => ∃ n ∈ x, n.Is v

/-! ## The range of every step -/

/-- The month and the one after it are in `chrono`'s years. -/
def MonthInRange (c : Chrono) (t months : Int) : Prop :=
  c.minYear ≤ monthAfter t months / 12 ∧
    (nextMonth (monthAfter t months / 12) (monthAfter t months % 12 + 1)).1 ≤ c.maxYear

/-- The timestamp and every step from it are in `chrono`'s years. -/
def CalendarInRange (c : Chrono) (t months days micros : Int) : Prop :=
  c.HasDay (t / DAY_US) ∧ (months ≠ 0 → MonthInRange c t months) ∧
    (days ≠ 0 → c.HasDay ((shiftMonths t months + days * DAY_US) / DAY_US)) ∧
    (micros ≠ 0 → c.HasDay ((shiftMonths t months + days * DAY_US + micros) / DAY_US))

/-- The three fields are in the ranges of their types. -/
def InInterval (months days micros : Int) : Prop := InI32 months ∧ InI32 days ∧ InI64 micros

/-- No step of the operator leaves its range. -/
def InRange (c : Chrono) (op : BinaryOperator) (l r : Value) : Prop :=
  match l, r with
  | .int x, .int y =>
    match op with
    | .add => InI32 (x.toInt + y.toInt)
    | .sub => InI32 (x.toInt - y.toInt)
    | .mul => InI32 (x.toInt * y.toInt)
    | .div => y ≠ 0 → InI32 (x.toInt.tdiv y.toInt)
    | _ => True
  | .date x, .date y => op = .sub → InI32 (x.toInt - y.toInt)
  | .timestamp x, .timestamp y => op = .sub → InI64 (x.toInt - y.toInt)
  | .date d, .int n => op = .add ∨ op = .sub →
      InI32 (op.sign * n.toInt) ∧ InI32 (d.toInt + op.sign * n.toInt)
  | .int n, .date d => op = .add → InI32 (d.toInt + n.toInt)
  | .date d, .interval m k u => op = .add ∨ op = .sub →
      InI64 (d.toInt * DAY_US) ∧ InInterval (op.sign * m.toInt) (op.sign * k.toInt) (op.sign * u.toInt) ∧
        CalendarInRange c (d.toInt * DAY_US) (op.sign * m.toInt) (op.sign * k.toInt)
          (op.sign * u.toInt)
  | .interval m k u, .date d => op = .add →
      InI64 (d.toInt * DAY_US) ∧ CalendarInRange c (d.toInt * DAY_US) m.toInt k.toInt u.toInt
  | .timestamp t, .interval m k u => op = .add ∨ op = .sub →
      InInterval (op.sign * m.toInt) (op.sign * k.toInt) (op.sign * u.toInt) ∧
        CalendarInRange c t.toInt (op.sign * m.toInt) (op.sign * k.toInt) (op.sign * u.toInt)
  | .interval m k u, .timestamp t => op = .add → CalendarInRange c t.toInt m.toInt k.toInt u.toInt
  | .interval m₁ d₁ u₁, .interval m₂ d₂ u₂ => op = .add ∨ op = .sub →
      InInterval (op.sign * m₂.toInt) (op.sign * d₂.toInt) (op.sign * u₂.toInt) ∧
        InInterval (m₁.toInt + op.sign * m₂.toInt) (d₁.toInt + op.sign * d₂.toInt)
          (u₁.toInt + op.sign * u₂.toInt)
  | .interval m d u, .int n =>
      (op = .mul → InInterval (m.toInt * n.toInt) (d.toInt * n.toInt) (u.toInt * n.toInt)) ∧
        (op = .div → n ≠ 0 →
          InInterval (m.toInt.tdiv n.toInt) (d.toInt.tdiv n.toInt) (u.toInt.tdiv n.toInt))
  | .int n, .interval m d u =>
      op = .mul → InInterval (m.toInt * n.toInt) (d.toInt * n.toInt) (u.toInt * n.toInt)
  | .time t, .interval _ _ u => op = .add ∨ op = .sub →
      InI64 (op.sign * u.toInt) ∧ InI64 (t.toInt + op.sign * u.toInt)
  | .interval _ _ u, .time t => op = .add → InI64 (t.toInt + u.toInt)
  | _, _ => True

def UnaryInRange (op : UnaryOperator) (v : Value) : Prop :=
  match op, v with
  | .neg, .int n => InI32 (-n.toInt)
  | _, _ => True

/-- The operands. -/
def Operand (v : Value) : Prop :=
  v.dataType ∈ [some .int, some .date, some .time, some .timestamp, some .interval]

instance (v : Value) : Decidable (Operand v) := inferInstanceAs (Decidable (_ ∈ _))

/-! ## Steps -/

/-- A value with a property or an error, in both builds. -/
def Sound (P : Value → Prop) (x : Build → Except DbError Value) : Prop := ∀ b, OkOrErr P (x b)

/-- A step with a result in its range, which panics outside it in some build. -/
structure Checked {α : Type} (x : Build → Except DbError α) (R : Prop) (a : α) : Prop where
  ok : R → ∀ b, x b = .ok a
  panics : ¬ R → ∃ b msg, x b = .error (.panic msg)

section Steps

variable {α : Type} {P : Value → Prop} {Q : Prop} {n : Int} {what : String}

theorem sound_ok {v : Value} : Sound P (fun _ => .ok v) ↔ P v := ⟨fun h => h .debug, fun h _ => h⟩

theorem sound_bail (msg : String) : Sound P fun _ => .error (.bail msg) := fun _ => trivial

/-- **One step of an arm**: it is in its range, and the rest is sound. -/
theorem bind_iff {x : Build → Except DbError α} {R : Prop} {a : α} (h : Checked x R a)
    {k : Build → α → Except DbError Value} :
    Sound P (fun b => x b >>= k b) ↔ R ∧ Sound P fun b => k b a := by
  constructor
  · intro hsound
    have hR : R := by
      by_contra hR
      obtain ⟨b, msg, hx⟩ := h.panics hR
      have hb := hsound b
      simp only [hx] at hb
      exact hb
    refine ⟨hR, fun b => ?_⟩
    have hb := hsound b
    simp only [h.ok hR b] at hb
    exact hb
  · rintro ⟨hR, hsound⟩ b
    simp only [h.ok hR b]
    exact hsound b

theorem toInt_ofInt32 (h : InI32 n) : (Int32.ofInt n).toInt = n := Int32.toInt_ofInt_of_le h.1 h.2

theorem toInt_ofInt64 (h : InI64 n) : (Int64.ofInt n).toInt = n := Int64.toInt_ofInt_of_le h.1 h.2

theorem checked_i32 : Checked (fun b => b.i32 what n) (InI32 n) (Int32.ofInt n) where
  ok h _ := if_pos (Or.inl h)
  panics h := ⟨.debug, _, if_neg (by simp [h])⟩

theorem checked_i64 : Checked (fun b => b.i64 what n) (InI64 n) (Int64.ofInt n) where
  ok h _ := if_pos (Or.inl h)
  panics h := ⟨.debug, _, if_neg (by simp [h])⟩

theorem checked_divI32 {x y : Int32} :
    Checked (fun _ => divI32 x y) (InI32 (x.toInt.tdiv y.toInt)) (Int32.ofInt (x.toInt.tdiv y.toInt)) where
  ok h _ := if_pos h
  panics h := ⟨.debug, _, if_neg h⟩

theorem checked_divI64 {x y : Int64} :
    Checked (fun _ => divI64 x y) (InI64 (x.toInt.tdiv y.toInt)) (Int64.ofInt (x.toInt.tdiv y.toInt)) where
  ok h _ := if_pos h
  panics h := ⟨.debug, _, if_neg h⟩

/-- A step to an `i32`, and the rest for the `i32` that is the number. -/
theorem i32_iff {x : Build → Except DbError Int32} (hx : Checked x (InI32 n) (Int32.ofInt n))
    {k : Build → Int32 → Except DbError Value}
    (h : ∀ m : Int32, m.toInt = n → (Sound P (fun b => k b m) ↔ Q)) :
    Sound P (fun b => x b >>= k b) ↔ InI32 n ∧ Q := by
  rw [bind_iff hx]
  exact and_congr_right fun hn => h _ (toInt_ofInt32 hn)

theorem i64_iff {x : Build → Except DbError Int64} (hx : Checked x (InI64 n) (Int64.ofInt n))
    {k : Build → Int64 → Except DbError Value}
    (h : ∀ m : Int64, m.toInt = n → (Sound P (fun b => k b m) ↔ Q)) :
    Sound P (fun b => x b >>= k b) ↔ InI64 n ∧ Q := by
  rw [bind_iff hx]
  exact and_congr_right fun hn => h _ (toInt_ofInt64 hn)

/-- The last step of an arm. -/
theorem last_i32 {x : Build → Except DbError Int32} (hx : Checked x (InI32 n) (Int32.ofInt n))
    {g : Int32 → Value} (h : ∀ m : Int32, m.toInt = n → P (g m)) :
    Sound P (fun b => x b >>= fun m => .ok (g m)) ↔ InI32 n :=
  (i32_iff hx fun m hm => (sound_ok (P := P)).trans (iff_true_intro (h m hm))).trans (and_iff_left trivial)

theorem last_i64 {x : Build → Except DbError Int64} (hx : Checked x (InI64 n) (Int64.ofInt n))
    {g : Int64 → Value} (h : ∀ m : Int64, m.toInt = n → P (g m)) :
    Sound P (fun b => x b >>= fun m => .ok (g m)) ↔ InI64 n :=
  (i64_iff hx fun m hm => (sound_ok (P := P)).trans (iff_true_intro (h m hm))).trans (and_iff_left trivial)

end Steps

/-! ## The calendar -/

section Calendar

variable {c : Chrono}

theorem checked_plus {dt us : Int} :
    Checked (fun _ => c.plus dt us) (c.HasDay ((dt + us) / DAY_US)) (dt + us) where
  ok h _ := if_pos h
  panics h := ⟨.debug, _, if_neg h⟩

theorem checked_addMicros {dt us : Int} :
    Checked (fun _ => c.addMicros dt us) (us ≠ 0 → c.HasDay ((dt + us) / DAY_US)) (dt + us) := by
  by_cases hus : us = 0
  · subst hus
    exact ⟨fun _ _ => by rw [Chrono.addMicros, if_pos rfl, Int.add_zero], fun h => absurd rfl (Classical.not_imp.1 h).1⟩
  · have hplus : ∀ _ : Build, c.addMicros dt us = c.plus dt us := fun _ => if_neg hus
    refine ⟨fun h b => (hplus b).trans (checked_plus.ok (h hus) b), fun h => ?_⟩
    obtain ⟨b, msg, hpanic⟩ := (checked_plus (c := c)).panics fun hday => h fun _ => hday
    exact ⟨b, msg, (hplus b).trans hpanic⟩

theorem fromYmd_eq {d : Date} (hd : d.Valid) : c.fromYmd d =
    if c.minYear ≤ d.year ∧ d.year ≤ c.maxYear then some (dayNumber d) else none := by
  unfold Chrono.fromYmd
  by_cases hyear : c.minYear ≤ d.year ∧ d.year ≤ c.maxYear
  · rw [if_pos ⟨hyear, hd.month, hd.day⟩, if_pos hyear]
  · rw [if_neg fun h => hyear h.1, if_neg hyear]

theorem valid_first {y m : Int} (hm : 1 ≤ m ∧ m ≤ 12) :
    Date.Valid ⟨(nextMonth y m).1, (nextMonth y m).2, 1⟩ := by
  have hnext : 1 ≤ (nextMonth y m).2 ∧ (nextMonth y m).2 ≤ 12 := by
    unfold nextMonth
    split <;> constructor <;> dsimp only <;> omega
  exact ⟨hnext, le_rfl, (valid_last hnext).day.1⟩

/-- The length of a month, when `chrono` has the month and the next one. -/
theorem checked_daysInMonth {y m : Int} (hm : 1 ≤ m ∧ m ≤ 12) :
    Checked (fun _ => c.daysInMonth y m) (c.minYear ≤ y ∧ (nextMonth y m).1 ≤ c.maxYear)
      (monthLength y m) := by
  have hle : y ≤ (nextMonth y m).1 ∧ (nextMonth y m).1 ≤ y + 1 := by
    unfold nextMonth
    split <;> constructor <;> dsimp only <;> omega
  have hday : c.HasDay (dayNumber ⟨(nextMonth y m).1, (nextMonth y m).2, 1⟩ - 1) ↔
      c.minYear ≤ y ∧ y ≤ c.maxYear := by
    rw [Chrono.HasDay, civil_pred_first hm]
  constructor
  · rintro ⟨hmin, hmax⟩ b
    have hnext : c.fromYmd ⟨(nextMonth y m).1, (nextMonth y m).2, 1⟩ =
        some (dayNumber ⟨(nextMonth y m).1, (nextMonth y m).2, 1⟩) := by
      rw [fromYmd_eq (valid_first hm), if_pos ⟨by dsimp only; omega, hmax⟩]
    simp only [Chrono.daysInMonth, hnext]
    rw [if_pos (hday.2 ⟨hmin, by omega⟩), civil_pred_first hm]
  · intro hout
    refine ⟨.debug, ?_⟩
    simp only [Chrono.daysInMonth, fromYmd_eq (valid_first hm)]
    split
    · exact ⟨_, rfl⟩
    · next next hnext =>
      split at hnext
      · next hyears =>
        cases hnext
        rw [if_neg fun h => hout ⟨(hday.1 h).1, hyears.2⟩]
        exact ⟨_, rfl⟩
      · cases hnext

theorem addMonths_of_ne {t months : Int} (hmonths : months ≠ 0) :
    c.addMonths t months = (do
      let maxDay ← c.daysInMonth (monthAfter t months / 12) (monthAfter t months % 12 + 1)
      match c.fromYmd ⟨monthAfter t months / 12, monthAfter t months % 12 + 1,
          min (civil (t / DAY_US)).day maxDay⟩ with
      | none => .error (.bail "date out of range")
      | some day => .ok (day * DAY_US + t % DAY_US)) := by
  rw [Chrono.addMonths, if_neg hmonths]
  rfl

/-- The months of an interval, when `chrono` has the month they lead to and the next one. -/
theorem checked_addMonths {t months : Int} :
    Checked (fun _ => c.addMonths t months) (months ≠ 0 → MonthInRange c t months)
      (shiftMonths t months) := by
  by_cases hmonths : months = 0
  · subst hmonths
    exact ⟨fun _ _ => rfl, fun h => absurd rfl (Classical.not_imp.1 h).1⟩
  · have hm : 1 ≤ monthAfter t months % 12 + 1 ∧ monthAfter t months % 12 + 1 ≤ 12 := by omega
    have hlast := valid_last (y := monthAfter t months / 12) hm
    have hdays := checked_daysInMonth (c := c) (y := monthAfter t months / 12) hm
    have harm := addMonths_of_ne (c := c) (t := t) hmonths
    constructor
    · intro h b
      obtain ⟨hmin, hmax⟩ := h hmonths
      have hyear : monthAfter t months / 12 ≤ c.maxYear := by
        refine le_trans ?_ hmax
        unfold nextMonth
        split <;> dsimp only <;> omega
      have hvalid : Date.Valid ⟨monthAfter t months / 12, monthAfter t months % 12 + 1,
          min (civil (t / DAY_US)).day
            (monthLength (monthAfter t months / 12) (monthAfter t months % 12 + 1))⟩ :=
        ⟨hm, le_min (civil_day_pos _) hlast.day.1, min_le_right _ _⟩
      simp only [harm, hdays.ok ⟨hmin, hmax⟩ b, bind, Except.bind, fromYmd_eq hvalid]
      rw [if_pos ⟨hmin, hyear⟩, shiftMonths, if_neg hmonths]
    · intro h
      obtain ⟨-, hout⟩ := Classical.not_imp.1 h
      obtain ⟨b, msg, hpanic⟩ := hdays.panics hout
      refine ⟨b, msg, ?_⟩
      simp only [harm, hpanic, bind, Except.bind]

/-- **The calendar**: `apply_interval_to_timestamp` is exact, or an error, when no step leaves
`chrono`'s years. -/
theorem calendar_iff {P : Value → Prop} {ts micros : Int64} {months days : Int32} {x : Int}
    (hx : x = shift ts.toInt months.toInt days.toInt micros.toInt)
    (hP : ∀ n : Int64, n.toInt = x → P (.timestamp n)) :
    Sound P (fun _ => c.applyIntervalToTimestamp ts months days micros >>= fun n => .ok (.timestamp n)) ↔
      CalendarInRange c ts.toInt months.toInt days.toInt micros.toInt := by
  have hdays : days.toInt * DAY_US ≠ 0 ↔ days.toInt ≠ 0 := by
    unfold DAY_US
    omega
  have hlast : Sound P (fun _ => (if InI64 x then .ok (Int64.ofInt x)
      else .error (.bail "timestamp out of range")) >>= fun n => .ok (.timestamp n)) := by
    by_cases hrange : InI64 x
    · rw [if_pos hrange]
      exact sound_ok.2 (hP _ (toInt_ofInt64 hrange))
    · rw [if_neg hrange]
      exact sound_bail _
  simp only [Chrono.applyIntervalToTimestamp, bind_assoc]
  rw [bind_iff checked_plus, bind_iff checked_addMonths, bind_iff checked_addMicros,
    bind_iff checked_addMicros, Int.zero_add, hdays, CalendarInRange]
  rw [hx] at hlast
  exact and_congr_right fun _ => and_congr_right fun _ => and_congr_right fun _ => and_iff_left hlast

end Calendar

/-! ## Arms -/

section Arms

variable {f : F64Ops} {c : Chrono} {op : BinaryOperator}

/-- The exact value of a result. -/
def IsExact (x : Option Number) (v : Value) : Prop := ∃ n ∈ x, n.Is v

theorem isExact_some {n : Number} {v : Value} (h : n.Is v) : IsExact (some n) v := ⟨n, rfl, h⟩

theorem sign_add : BinaryOperator.sign .add = 1 := rfl

theorem inI32_toInt (n : Int32) : InI32 n.toInt := ⟨n.le_toInt, n.toInt_lt⟩

theorem inI64_toInt (n : Int64) : InI64 n.toInt := ⟨n.le_toInt, n.toInt_lt⟩

theorem intArm_iff {x y : Int32} (hop : op.isArithmetic = true) :
    Sound (IsExact (exact op (.int x) (.int y))) (fun b => intArm b op x y) ↔
      InRange c op (.int x) (.int y) := by
  cases op <;> try cases hop
  case add => exact last_i32 checked_i32 fun m hm => isExact_some hm
  case sub => exact last_i32 checked_i32 fun m hm => isExact_some hm
  case mul => exact last_i32 checked_i32 fun m hm => isExact_some hm
  case div =>
    simp only [intArm, exact, InRange]
    by_cases hy : y = 0
    · simp only [if_pos hy]
      exact iff_of_true (sound_bail _) fun h => absurd hy h
    · simp only [ne_eq, hy, not_false_eq_true, true_imp_iff]
      exact last_i32 checked_divI32 fun m hm => isExact_some hm

/-- A saturating addition is exact when the sum is in the range. -/
theorem saturatingAdd_iff {x y : Int32} :
    (saturatingAdd x y).toInt = x.toInt + y.toInt ↔ InI32 (x.toInt + y.toInt) := by
  have hx := inI32_toInt x
  have hy := inI32_toInt y
  unfold InI32 at hx hy
  have hclamp : (saturatingAdd x y).toInt = max (-2 ^ 31) (min (2 ^ 31 - 1) (x.toInt + y.toInt)) :=
    toInt_ofInt32 ⟨by omega, by omega⟩
  rw [hclamp, InI32]
  omega

theorem isExact_date_iff {x n : Int32} {y : Int} (hy : n.toInt = y) :
    IsExact (some (.date (x.toInt + y))) (.date (saturatingAdd x n)) ↔ InI32 (x.toInt + y) := by
  subst hy
  rw [← saturatingAdd_iff]
  constructor
  · rintro ⟨_, hmem, h⟩
    cases hmem
    exact h
  · exact fun h => isExact_some h

theorem dateIntArm_iff {d n : Int32} (hop : op = .add ∨ op = .sub) :
    Sound (IsExact (some (.date (d.toInt + op.sign * n.toInt)))) (fun b => dateIntArm b op d n) ↔
      InI32 (op.sign * n.toInt) ∧ InI32 (d.toInt + op.sign * n.toInt) := by
  rcases hop with rfl | rfl
  · rw [sign_add, one_mul, and_iff_right (inI32_toInt n)]
    exact sound_ok.trans (isExact_date_iff rfl)
  · have hsign : BinaryOperator.sign .sub * n.toInt = -n.toInt := neg_one_mul _
    rw [hsign]
    exact i32_iff checked_i32 fun m hm => sound_ok.trans (isExact_date_iff hm)

theorem timestampIntervalArm_iff {ts u : Int64} {m d : Int32} :
    Sound (IsExact (some (.timestamp
        (shift ts.toInt (op.sign * m.toInt) (op.sign * d.toInt) (op.sign * u.toInt)))))
      (fun b => timestampIntervalArm b c op ts m d u) ↔
      InInterval (op.sign * m.toInt) (op.sign * d.toInt) (op.sign * u.toInt) ∧
        CalendarInRange c ts.toInt (op.sign * m.toInt) (op.sign * d.toInt) (op.sign * u.toInt) := by
  rw [InInterval, and_assoc, and_assoc]
  refine i32_iff checked_i32 fun m' hm => i32_iff checked_i32 fun d' hd => i64_iff checked_i64 fun u' hu => ?_
  rw [← hm, ← hd, ← hu]
  exact calendar_iff rfl fun n hn => isExact_some hn

/-- `date ± interval` and `interval + date`, at midnight. -/
theorem midnight_iff {P : Value → Prop} {Q : Int → Prop} {d : Int32}
    {k : Build → Int64 → Except DbError Value}
    (h : ∀ ts : Int64, ts.toInt = d.toInt * DAY_US → (Sound P (fun b => k b ts) ↔ Q ts.toInt)) :
    Sound P (fun b => midnight b d >>= k b) ↔ InI64 (d.toInt * DAY_US) ∧ Q (d.toInt * DAY_US) :=
  i64_iff checked_i64 fun ts hts => hts ▸ h ts hts

theorem intervalIntervalArm_iff {m₁ d₁ m₂ d₂ : Int32} {u₁ u₂ : Int64} :
    Sound (IsExact (some (.interval (m₁.toInt + op.sign * m₂.toInt) (d₁.toInt + op.sign * d₂.toInt)
        (u₁.toInt + op.sign * u₂.toInt))))
      (fun b => intervalIntervalArm b op m₁ d₁ u₁ m₂ d₂ u₂) ↔
      InInterval (op.sign * m₂.toInt) (op.sign * d₂.toInt) (op.sign * u₂.toInt) ∧
        InInterval (m₁.toInt + op.sign * m₂.toInt) (d₁.toInt + op.sign * d₂.toInt)
          (u₁.toInt + op.sign * u₂.toInt) := by
  have hsteps : Sound (IsExact (some (.interval (m₁.toInt + op.sign * m₂.toInt)
        (d₁.toInt + op.sign * d₂.toInt) (u₁.toInt + op.sign * u₂.toInt))))
      (fun b => intervalIntervalArm b op m₁ d₁ u₁ m₂ d₂ u₂) ↔
      InI32 (op.sign * m₂.toInt) ∧ InI32 (m₁.toInt + op.sign * m₂.toInt) ∧
        InI32 (op.sign * d₂.toInt) ∧ InI32 (d₁.toInt + op.sign * d₂.toInt) ∧
        InI64 (op.sign * u₂.toInt) ∧ InI64 (u₁.toInt + op.sign * u₂.toInt) := by
    refine i32_iff checked_i32 fun m hm => ?_
    rw [← hm]
    refine i32_iff checked_i32 fun months hmonths => i32_iff checked_i32 fun d hd => ?_
    rw [← hd]
    refine i32_iff checked_i32 fun days hdays => i64_iff checked_i64 fun u hu => ?_
    rw [← hu]
    exact last_i64 checked_i64 fun micros hmicros => isExact_some ⟨hmonths, hdays, hmicros⟩
  rw [hsteps, InInterval, InInterval]
  constructor
  · rintro ⟨hm, hmonths, hd, hdays, hu, hmicros⟩
    exact ⟨⟨hm, hd, hu⟩, hmonths, hdays, hmicros⟩
  · rintro ⟨⟨hm, hd, hu⟩, hmonths, hdays, hmicros⟩
    exact ⟨hm, hmonths, hd, hdays, hu, hmicros⟩

theorem intervalMulArm_iff {m d n : Int32} {u : Int64} :
    Sound (IsExact (some (.interval (m.toInt * n.toInt) (d.toInt * n.toInt) (u.toInt * n.toInt))))
      (fun b => intervalMulArm b m d u n) ↔
      InInterval (m.toInt * n.toInt) (d.toInt * n.toInt) (u.toInt * n.toInt) :=
  i32_iff checked_i32 fun _ hm => i32_iff checked_i32 fun _ hd =>
    last_i64 checked_i64 fun _ hu => isExact_some ⟨hm, hd, hu⟩

theorem intervalDivArm_iff {m d n : Int32} {u : Int64} (hn : n ≠ 0) :
    Sound (IsExact (some (.interval (m.toInt.tdiv n.toInt) (d.toInt.tdiv n.toInt)
        (u.toInt.tdiv n.toInt)))) (fun _ => intervalDivArm m d u n) ↔
      InInterval (m.toInt.tdiv n.toInt) (d.toInt.tdiv n.toInt) (u.toInt.tdiv n.toInt) := by
  simp only [intervalDivArm, if_neg hn]
  refine i32_iff checked_divI32 fun _ hm => i32_iff checked_divI32 fun _ hd => ?_
  have hdiv := checked_divI64 (x := u) (y := n.toInt64)
  rw [Int32.toInt_toInt64] at hdiv
  exact last_i64 hdiv fun _ hu => isExact_some ⟨hm, hd, hu⟩

theorem timeIntervalArm_iff {t u : Int64} :
    Sound (IsExact (some (.time ((t.toInt + op.sign * u.toInt) % DAY_US))))
      (fun b => timeIntervalArm b op t u) ↔
      InI64 (op.sign * u.toInt) ∧ InI64 (t.toInt + op.sign * u.toInt) := by
  refine i64_iff checked_i64 fun us hus => ?_
  rw [← hus]
  refine last_i64 (g := fun sum => .time (Int64.ofInt (sum.toInt % DAY_US))) checked_i64
    fun sum hsum => isExact_some ?_
  rw [← hsum]
  have hpos : 0 ≤ sum.toInt % DAY_US := Int.emod_nonneg _ (by decide)
  have hlt : sum.toInt % DAY_US < DAY_US := Int.emod_lt_of_pos _ (by decide)
  unfold DAY_US at hpos hlt
  exact toInt_ofInt64 ⟨by unfold DAY_US; omega, by unfold DAY_US; omega⟩

end Arms

/-! ## The evaluator -/

section Evaluator

variable {f : F64Ops} {c : Chrono} {op : BinaryOperator}

theorem holds_eq (op : BinaryOperator) (x y : Int) :
    holds op x y = (compareOp op (some (cmp x y))).map .bool := by
  rcases lt_trichotomy x y with h | rfl | h
  · rw [(cmp_eq_lt_iff x y).2 h]
    cases op <;> simp [holds, compareOp, h, h.ne, h.le, not_lt.2 h.le, not_le.2 h]
  · rw [cmp_self_eq_eq]
    cases op <;> simp [holds, compareOp]
  · rw [(cmp_eq_gt_iff x y).2 h]
    cases op <;> simp [holds, compareOp, h, h.ne', h.le, not_lt.2 h.le, not_le.2 h]

/-- The comparisons are exact; the other operators of the type are its own matter. -/
theorem comparison_sound {x y : Int} {other : Build → Except DbError Value} {z : Option Number}
    (hz : ∀ n ∈ holds op x y, z = some n) (hother : holds op x y = none → Sound (IsExact z) other) :
    Sound (IsExact z) fun b => comparison op (some (cmp x y)) (other b) := by
  intro b
  rw [holds_eq] at hz hother
  unfold comparison
  cases hcompare : compareOp op (some (cmp x y)) with
  | some result =>
    rw [hcompare] at hz
    rw [hz _ rfl]
    exact isExact_some rfl
  | none =>
    rw [hcompare] at hother
    exact hother rfl b

/-- An operator that is not there for the types of its operands. -/
theorem sound_mismatch (x : Option Number) (op : BinaryOperator) :
    Sound (IsExact x) fun _ => mismatch op := sound_bail _

theorem operand_cases {v : Value} (h : Operand v) : (∃ n, v = .int n) ∨ (∃ n, v = .date n) ∨
    (∃ n, v = .time n) ∨ (∃ n, v = .timestamp n) ∨ ∃ m d u, v = .interval m d u := by
  cases v <;> simp [Operand, Value.dataType] at h ⊢

/-- Operands of different types, and intervals, have arithmetic operators only. -/
theorem evaluate_mixed {l r : Value} (hl : Operand l) (hr : Operand r)
    (hne : l.dataType ≠ r.dataType ∨ r.dataType = some .interval) (b : Build) :
    evaluateBinaryIn b f c op l r = arithmetic b f c op l r := by
  rcases operand_cases hl with ⟨x, rfl⟩ | ⟨x, rfl⟩ | ⟨x, rfl⟩ | ⟨x, rfl⟩ | ⟨m, d, u, rfl⟩ <;>
  rcases operand_cases hr with ⟨y, rfl⟩ | ⟨y, rfl⟩ | ⟨y, rfl⟩ | ⟨y, rfl⟩ | ⟨m', d', u', rfl⟩ <;>
  first
    | (exfalso; revert hne; simp [Value.dataType]; done)
    | (cases op <;> rfl)

/-- An arm that is there for some operators. -/
theorem arm_iff {p R : Prop} [Decidable p] {n : Number} {x : Build → Except DbError Value}
    (h : p → (Sound (IsExact (some n)) x ↔ R)) :
    Sound (IsExact (if p then some n else none)) (fun b => if p then x b else mismatch op) ↔ (p → R) := by
  by_cases hp : p
  · simp only [if_pos hp]
    exact (h hp).trans ⟨fun hR _ => hR, fun hR => hR hp⟩
  · simp only [if_neg hp]
    exact iff_of_true (sound_mismatch _ _) fun h => absurd h hp

/-- `interval * int` and `interval / int`. -/
theorem intervalInt_iff {m d n : Int32} {u : Int64} :
    Sound (IsExact (exact op (.interval m d u) (.int n)))
      (fun b => arithmetic b f c op (.interval m d u) (.int n)) ↔
        InRange c op (.interval m d u) (.int n) := by
  simp only [exact, arithmetic, InRange]
  by_cases hmul : op = .mul
  · subst hmul
    simpa using intervalMulArm_iff
  · by_cases hdiv : op = .div
    · subst hdiv
      by_cases hn : n = 0
      · subst hn
        simpa [intervalDivArm] using sound_bail _
      · simpa [hn] using intervalDivArm_iff hn
    · simp only [hmul, hdiv, false_imp_iff, and_self]
      exact iff_true_intro (sound_mismatch _ op)

/-- The operators of mixed types. -/
theorem arithmetic_iff {l r : Value} (hl : Operand l) (hr : Operand r)
    (hne : l.dataType ≠ r.dataType ∨ r.dataType = some .interval) :
    Sound (IsExact (exact op l r)) (fun b => arithmetic b f c op l r) ↔ InRange c op l r := by
  have hmixed : ∀ {x : Option Number}, Sound (IsExact x) (fun _ => mismatch op) ↔ True :=
    iff_true_intro (sound_mismatch _ op)
  rcases operand_cases hl with ⟨x, rfl⟩ | ⟨x, rfl⟩ | ⟨x, rfl⟩ | ⟨x, rfl⟩ | ⟨m, d, u, rfl⟩
  · rcases operand_cases hr with ⟨y, rfl⟩ | ⟨y, rfl⟩ | ⟨y, rfl⟩ | ⟨y, rfl⟩ | ⟨m', d', u', rfl⟩
    · simp [Value.dataType] at hne
    · exact arm_iff fun _ => sound_ok.trans (isExact_date_iff rfl)
    · exact hmixed
    · exact hmixed
    · exact arm_iff fun _ => intervalMulArm_iff
  · rcases operand_cases hr with ⟨y, rfl⟩ | ⟨y, rfl⟩ | ⟨y, rfl⟩ | ⟨y, rfl⟩ | ⟨m', d', u', rfl⟩
    · exact arm_iff fun hop => dateIntArm_iff hop
    · simp [Value.dataType] at hne
    · exact hmixed
    · exact hmixed
    · refine arm_iff fun _ => ?_
      refine midnight_iff (Q := fun ts => InInterval (op.sign * m'.toInt) (op.sign * d'.toInt)
        (op.sign * u'.toInt) ∧ CalendarInRange c ts (op.sign * m'.toInt) (op.sign * d'.toInt)
          (op.sign * u'.toInt)) fun ts hts => ?_
      rw [← hts]
      exact timestampIntervalArm_iff
  · rcases operand_cases hr with ⟨y, rfl⟩ | ⟨y, rfl⟩ | ⟨y, rfl⟩ | ⟨y, rfl⟩ | ⟨m', d', u', rfl⟩
    · exact hmixed
    · exact hmixed
    · simp [Value.dataType] at hne
    · exact hmixed
    · exact arm_iff fun _ => timeIntervalArm_iff
  · rcases operand_cases hr with ⟨y, rfl⟩ | ⟨y, rfl⟩ | ⟨y, rfl⟩ | ⟨y, rfl⟩ | ⟨m', d', u', rfl⟩
    · exact hmixed
    · exact hmixed
    · exact hmixed
    · simp [Value.dataType] at hne
    · exact arm_iff fun _ => timestampIntervalArm_iff
  · rcases operand_cases hr with ⟨y, rfl⟩ | ⟨y, rfl⟩ | ⟨y, rfl⟩ | ⟨y, rfl⟩ | ⟨m', d', u', rfl⟩
    · exact intervalInt_iff
    · refine arm_iff fun _ => ?_
      refine midnight_iff (Q := fun ts => CalendarInRange c ts m.toInt d.toInt u.toInt) fun ts hts => ?_
      rw [← hts]
      exact calendar_iff rfl fun n hn => isExact_some hn
    · refine arm_iff fun _ => ?_
      have htime := @timeIntervalArm_iff .add y u
      rw [sign_add, one_mul, and_iff_right (inI64_toInt u)] at htime
      exact htime
    · exact arm_iff fun _ => calendar_iff rfl fun n hn => isExact_some hn
    · exact arm_iff fun _ => intervalIntervalArm_iff

/-- Comparisons and arithmetic of INT. -/
theorem intInt_iff {x y : Int32} :
    Sound (IsExact (exact op (.int x) (.int y)))
      (fun b => evaluateBinaryIn b f c op (.int x) (.int y)) ↔ InRange c op (.int x) (.int y) := by
  cases hop : op.isArithmetic with
  | true =>
    have harm : ∀ b, evaluateBinaryIn b f c op (.int x) (.int y) = intArm b op x y := by
      intro b
      cases op <;> cases hop <;> rfl
    simp only [harm]
    exact intArm_iff hop
  | false =>
    have hrange : InRange c op (.int x) (.int y) := by
      cases op <;> cases hop <;> trivial
    have hexact : exact op (.int x) (.int y) = holds op x.toInt y.toInt := by
      cases op <;> cases hop <;> rfl
    have harm : ∀ b, evaluateBinaryIn b f c op (.int x) (.int y) =
        comparison op (some (cmp x.toInt y.toInt)) (.error (.bail "AND/OR not supported on INT")) := by
      intro b
      cases op <;> cases hop <;> rfl
    simp only [harm, hexact]
    exact iff_of_true (comparison_sound (fun n hn => hn) fun _ => sound_bail _) hrange

/-- Comparisons and the difference of dates. -/
theorem dateDate_iff {x y : Int32} :
    Sound (IsExact (exact op (.date x) (.date y)))
      (fun b => evaluateBinaryIn b f c op (.date x) (.date y)) ↔ InRange c op (.date x) (.date y) := by
  by_cases hop : op = .sub
  · subst hop
    refine Iff.trans ?_ ⟨fun h _ => h, fun h => h rfl⟩
    exact last_i32 checked_i32 fun m hm => isExact_some hm
  · have harm : ∀ b, evaluateBinaryIn b f c op (.date x) (.date y) =
        comparison op (some (cmp x.toInt y.toInt)) (.error (unsupportedOp op "DATE")) := by
      intro b
      cases op <;> first | exact absurd rfl hop | rfl
    simp only [harm, exact, if_neg hop, InRange]
    exact iff_of_true (comparison_sound (fun n hn => hn) fun _ => sound_bail _) fun h => absurd h hop

/-- Comparisons and the difference of timestamps. -/
theorem timestampTimestamp_iff {x y : Int64} :
    Sound (IsExact (exact op (.timestamp x) (.timestamp y)))
      (fun b => evaluateBinaryIn b f c op (.timestamp x) (.timestamp y)) ↔
        InRange c op (.timestamp x) (.timestamp y) := by
  by_cases hop : op = .sub
  · subst hop
    refine Iff.trans ?_ ⟨fun h _ => h, fun h => h rfl⟩
    exact last_i64 checked_i64 fun m hm => isExact_some ⟨rfl, rfl, hm⟩
  · have harm : ∀ b, evaluateBinaryIn b f c op (.timestamp x) (.timestamp y) =
        comparison op (some (cmp x.toInt y.toInt)) (.error (unsupportedOp op "TIMESTAMP")) := by
      intro b
      cases op <;> first | exact absurd rfl hop | rfl
    simp only [harm, exact, if_neg hop, InRange]
    exact iff_of_true (comparison_sound (fun n hn => hn) fun _ => sound_bail _) fun h => absurd h hop

/-- Comparisons of times. -/
theorem timeTime_iff {x y : Int64} :
    Sound (IsExact (exact op (.time x) (.time y)))
      (fun b => evaluateBinaryIn b f c op (.time x) (.time y)) ↔ InRange c op (.time x) (.time y) := by
  have harm : ∀ b, evaluateBinaryIn b f c op (.time x) (.time y) =
      comparison op (some (cmp x.toInt y.toInt)) (.error (unsupportedOp op "TIME")) := by
    intro b
    cases op <;> rfl
  simp only [harm]
  exact iff_of_true (comparison_sound (fun n hn => hn) fun _ => sound_bail _) trivial

theorem same_cases {l r : Value} (hl : Operand l) (hr : Operand r)
    (hsame : ¬ (l.dataType ≠ r.dataType ∨ r.dataType = some .interval)) :
    (∃ x y, l = .int x ∧ r = .int y) ∨ (∃ x y, l = .date x ∧ r = .date y) ∨
      (∃ x y, l = .time x ∧ r = .time y) ∨ ∃ x y, l = .timestamp x ∧ r = .timestamp y := by
  rcases operand_cases hl with ⟨x, rfl⟩ | ⟨x, rfl⟩ | ⟨x, rfl⟩ | ⟨x, rfl⟩ | ⟨m, d, u, rfl⟩ <;>
  rcases operand_cases hr with ⟨y, rfl⟩ | ⟨y, rfl⟩ | ⟨y, rfl⟩ | ⟨y, rfl⟩ | ⟨m', d', u', rfl⟩ <;>
  simp [Value.dataType] at hsame ⊢

/-- **The binary operators.** -/
theorem evaluateBinary_iff {l r : Value} (hl : Operand l) (hr : Operand r) :
    Sound (IsExact (exact op l r)) (fun b => evaluateBinaryIn b f c op l r) ↔ InRange c op l r := by
  by_cases hne : l.dataType ≠ r.dataType ∨ r.dataType = some .interval
  · simp only [evaluate_mixed hl hr hne]
    exact arithmetic_iff hl hr hne
  · rcases same_cases hl hr hne with ⟨x, y, rfl, rfl⟩ | ⟨x, y, rfl, rfl⟩ | ⟨x, y, rfl, rfl⟩ |
      ⟨x, y, rfl, rfl⟩
    · exact intInt_iff
    · exact dateDate_iff
    · exact timeTime_iff
    · exact timestampTimestamp_iff

/-- **The unary operators.** -/
theorem evaluateUnary_iff {op : UnaryOperator} {v : Value} (hv : Operand v) :
    Sound (IsExact (exactUnary op v)) (fun b => evaluateUnaryIn b op v) ↔ UnaryInRange op v := by
  rcases operand_cases hv with ⟨x, rfl⟩ | ⟨x, rfl⟩ | ⟨x, rfl⟩ | ⟨x, rfl⟩ | ⟨m, d, u, rfl⟩
  · cases op with
    | not => exact iff_of_true (sound_bail _) trivial
    | neg => exact last_i32 checked_i32 fun m hm => isExact_some hm
  all_goals cases op <;> exact iff_of_true (sound_bail _) trivial

end Evaluator

/-- **Exact or an error**: an operator gives the exact result or an error in both builds exactly
when none of its steps leaves its range. -/
theorem arithmetic_exact_iff (f : F64Ops) (c : Chrono) :
    (∀ op l r, Operand l → Operand r →
      ((∀ b, ExactOrErr (exact op l r) (evaluateBinaryIn b f c op l r)) ↔ InRange c op l r)) ∧
    ∀ op v, Operand v →
      ((∀ b, ExactOrErr (exactUnary op v) (evaluateUnaryIn b op v)) ↔ UnaryInRange op v) :=
  ⟨fun _ _ _ hl hr => evaluateBinary_iff hl hr, fun _ _ hv => evaluateUnary_iff hv⟩

/-- 2000-01-31 and one month. -/
theorem arithmetic_exact_january : ∀ b, ExactOrErr (some (.timestamp (59 * DAY_US)))
    (evaluateBinaryIn b noF64 chronoYears .add (.date 30) (.interval 1 0 0)) := by
  have hshift : exact .add (.date 30) (.interval 1 0 0) = some (.timestamp (59 * DAY_US)) := by
    decide +kernel
  rw [← hshift]
  refine ((arithmetic_exact_iff noF64 chronoYears).1 _ _ _ (by decide) (by decide)).2 fun _ => ?_
  refine ⟨by decide, ⟨by decide, by decide, by decide⟩, by decide +kernel, fun _ => ?_, ?_, ?_⟩
  · exact ⟨by decide +kernel, by decide +kernel⟩
  · exact fun h => absurd rfl h
  · exact fun h => absurd rfl h

/-- A sum of INTs that wraps or panics, a date that saturates and a timestamp that panics, the
last two in both builds. -/
theorem arithmetic_not_exact :
    (∀ b, ¬ ExactOrErr (exact .add (.int 2147483647) (.int 1))
      (evaluateBinaryIn b noF64 chronoYears .add (.int 2147483647) (.int 1))) ∧
    (∀ b, ¬ ExactOrErr (exact .add (.date 2147483647) (.int 1))
      (evaluateBinaryIn b noF64 chronoYears .add (.date 2147483647) (.int 1))) ∧
    ∀ b, ¬ ExactOrErr (exact .add (.timestamp 0) (.interval 4000000 0 0))
      (evaluateBinaryIn b noF64 chronoYears .add (.timestamp 0) (.interval 4000000 0 0)) := by
  refine ⟨fun b => ?_, fun b => ?_, fun b => ?_⟩
  · have hwrap : evaluateBinaryIn .release noF64 chronoYears .add (.int 2147483647) (.int 1) =
        .ok (.int (-2147483648)) := by decide +kernel
    cases b with
    | debug => exact fun h => h
    | release =>
      rw [hwrap]
      rintro ⟨_, hmem, h⟩
      cases hmem
      exact absurd h (by decide : ¬ (-2147483648 : Int32).toInt = _)
  · have hsaturate : evaluateBinaryIn b noF64 chronoYears .add (.date 2147483647) (.int 1) =
        .ok (.date 2147483647) := by
      cases b <;> decide +kernel
    rw [hsaturate]
    rintro ⟨_, hmem, h⟩
    cases hmem
    exact absurd h (by decide : ¬ (2147483647 : Int32).toInt = _)
  · have hpanic : evaluateBinaryIn b noF64 chronoYears .add (.timestamp 0) (.interval 4000000 0 0) =
        .error (.panic "valid first-of-month") := by
      cases b <;> decide +kernel
    rw [hpanic]
    exact fun h => h

end Ccdb.ExactArithmetic
