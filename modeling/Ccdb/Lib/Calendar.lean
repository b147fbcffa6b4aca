import Mathlib.Tactic.Ring
import Mathlib.Order.Lattice

/-!
# The Gregorian calendar

Days counted from 2000-01-01 and dates, both without bounds. Years are cut before March,
so that the leap day is the last one of its year: the `y`-th such year begins
`365 * y + y / 4 - y / 100 + y / 400` days after the first of March of year 0, and month
`m` of it `(153 * m + 2) / 5` days later.

Main results:

* `civil_dayNumber` — a day number is that of one date.
* `civil_pred_first` — the day before the first of a month is the last of the one before.
-/

namespace Calendar

structure Date where
  year : Int
  month : Int
  day : Int
deriving DecidableEq, Repr

def IsLeap (y : Int) : Prop := y % 4 = 0 ∧ (y % 100 ≠ 0 ∨ y % 400 = 0)

instance (y : Int) : Decidable (IsLeap y) := inferInstanceAs (Decidable (_ ∧ _))

def monthLength (y m : Int) : Int :=
  if m = 2 then if IsLeap y then 29 else 28
  else if m = 4 ∨ m = 6 ∨ m = 9 ∨ m = 11 then 30
  else 31

/-- A date of the calendar. -/
structure Date.Valid (d : Date) : Prop where
  month : 1 ≤ d.month ∧ d.month ≤ 12
  day : 1 ≤ d.day ∧ d.day ≤ monthLength d.year d.month

/-- The days before a year that begins in March. -/
def daysBefore (y : Int) : Int := 365 * y + y / 4 - y / 100 + y / 400

/-- The days before a month of such a year, March being month 0. -/
def daysBeforeMonth (m : Int) : Int := (153 * m + 2) / 5

/-- The days from 2000-01-01. -/
def dayNumber (d : Date) : Int :=
  let m := if d.month ≤ 2 then d.month + 9 else d.month - 3
  let y := if d.month ≤ 2 then d.year - 1 else d.year
  daysBefore y + daysBeforeMonth m + d.day - 1 - 730425

/-- The date of a day. -/
def civil (n : Int) : Date :=
  let z := n + 730425
  let era := z / 146097
  let ofEra := z % 146097
  let century := min (ofEra / 36524) 3
  let ofCentury := ofEra - 36524 * century
  let cycle := ofCentury / 1461
  let ofCycle := ofCentury % 1461
  let rest := min (ofCycle / 365) 3
  let ofYear := ofCycle - 365 * rest
  let m := (5 * ofYear + 2) / 153
  let year := 400 * era + 100 * century + 4 * cycle + rest
  { year := if 10 ≤ m then year + 1 else year
    month := if 10 ≤ m then m - 9 else m + 3
    day := ofYear - daysBeforeMonth m + 1 }

/-! ## A year -/

/-- A month is found from the day of the year. -/
theorem month_of_ofYear {m d : Int} (hm : 0 ≤ m ∧ m ≤ 11) (hd : 1 ≤ d ∧ d ≤ 31)
    (hshort : m = 1 ∨ m = 3 ∨ m = 6 ∨ m = 8 → d ≤ 30) (hlast : m = 11 → d ≤ 29) :
    (5 * (daysBeforeMonth m + d - 1) + 2) / 153 = m := by
  unfold daysBeforeMonth
  have hcases : m = 0 ∨ m = 1 ∨ m = 2 ∨ m = 3 ∨ m = 4 ∨ m = 5 ∨ m = 6 ∨ m = 7 ∨ m = 8 ∨ m = 9 ∨
    m = 10 ∨ m = 11 := by omega
  rcases hcases with h | h | h | h | h | h | h | h | h | h | h | h <;> subst h <;> omega

/-- A day of the era: its century, cycle and year. -/
theorem ofEra_parts {r c q s n : Int} (hc : 0 ≤ c ∧ c ≤ 3) (hq : 0 ≤ q ∧ q ≤ 24) (hs : 0 ≤ s ∧ s ≤ 3)
    (hn : 0 ≤ n ∧ n ≤ 365) (hlast : n = 365 → s = 3 ∧ (q ≠ 24 ∨ c = 3))
    (hr : r = 36524 * c + 1461 * q + 365 * s + n) :
    min (r / 36524) 3 = c ∧ (r - 36524 * c) / 1461 = q ∧
      min ((r - 36524 * c) % 1461 / 365) 3 = s ∧ (r - 36524 * c) % 1461 - 365 * s = n := by
  have hcycle : (r - 36524 * c) / 1461 = q := by omega
  have hof : (r - 36524 * c) % 1461 = 365 * s + n := by omega
  refine ⟨?_, hcycle, ?_, ?_⟩
  · omega
  · rw [hof]
    omega
  · rw [hof]
    omega

/-- A year: its era, century, cycle and year of the cycle. -/
theorem year_parts (y : Int) : ∃ e c q s, (0 ≤ c ∧ c ≤ 3) ∧ (0 ≤ q ∧ q ≤ 24) ∧ (0 ≤ s ∧ s ≤ 3) ∧
    y = 400 * e + 100 * c + 4 * q + s ∧
    daysBefore y = 146097 * e + 36524 * c + 1461 * q + 365 * s := by
  refine ⟨y / 400, y % 400 / 100, y % 100 / 4, y % 4, by omega, by omega, by omega, by omega, ?_⟩
  unfold daysBefore
  omega

/-- The days of a month, March being month 0, and the last day of the year. -/
theorem ofYear_bounds {d : Date} (h : d.Valid) {m y : Int}
    (hm : m = if d.month ≤ 2 then d.month + 9 else d.month - 3)
    (hy : y = if d.month ≤ 2 then d.year - 1 else d.year) :
    (0 ≤ m ∧ m ≤ 11) ∧ (1 ≤ d.day ∧ d.day ≤ 31) ∧
      (m = 1 ∨ m = 3 ∨ m = 6 ∨ m = 8 → d.day ≤ 30) ∧
      (m = 11 → d.day ≤ 29 ∧ (d.day = 29 → IsLeap (y + 1))) := by
  obtain ⟨hmonth, hday⟩ := h
  unfold monthLength at hday
  refine ⟨by split at hm <;> omega, ?_, fun hshort => ?_, fun hlast => ?_⟩
  · split at hday
    · split at hday <;> omega
    · split at hday <;> omega
  · have hmonths : d.month = 4 ∨ d.month = 6 ∨ d.month = 9 ∨ d.month = 11 := by
      split at hm <;> omega
    rw [if_neg (by omega), if_pos hmonths] at hday
    exact hday.2
  · have hfeb : d.month = 2 := by split at hm <;> omega
    rw [if_pos hfeb] at hday
    rw [if_pos (by omega)] at hy
    have hyear : y + 1 = d.year := by omega
    rw [hyear]
    by_cases hleap : IsLeap d.year
    · rw [if_pos hleap] at hday
      exact ⟨hday.2, fun _ => hleap⟩
    · rw [if_neg hleap] at hday
      exact ⟨by omega, fun h29 => absurd hday.2 (by omega)⟩

/-- **A day number is that of one date.** -/
theorem civil_dayNumber {d : Date} (h : d.Valid) : civil (dayNumber d) = d := by
  obtain ⟨m, hm⟩ : ∃ m, m = if d.month ≤ 2 then d.month + 9 else d.month - 3 := ⟨_, rfl⟩
  obtain ⟨y, hy⟩ : ∃ y, y = if d.month ≤ 2 then d.year - 1 else d.year := ⟨_, rfl⟩
  obtain ⟨hm11, hd31, hshort, hlast⟩ := ofYear_bounds h hm hy
  obtain ⟨e, c, q, s, hc, hq, hs, hparts, hdays⟩ := year_parts y
  obtain ⟨n, hn⟩ : ∃ n, n = daysBeforeMonth m + d.day - 1 := ⟨_, rfl⟩
  have hmonth : (5 * n + 2) / 153 = m := by
    rw [hn]
    exact month_of_ofYear hm11 hd31 hshort fun h11 => (hlast h11).1
  have hn365 : 0 ≤ n ∧ n ≤ 365 := by
    have hle := fun h11 => (hlast h11).1
    unfold daysBeforeMonth at hn
    omega
  have hleap : n = 365 → s = 3 ∧ (q ≠ 24 ∨ c = 3) := by
    intro h365
    have h11 : m = 11 ∧ d.day = 29 := by
      have hle := fun h11 => (hlast h11).1
      unfold daysBeforeMonth at hn
      omega
    have hyear := (hlast h11.1).2 h11.2
    unfold IsLeap at hyear
    omega
  have hz : dayNumber d + 730425 = 146097 * e + (36524 * c + 1461 * q + 365 * s + n) := by
    unfold dayNumber
    simp only [← hm, ← hy, hdays]
    omega
  have hera : (dayNumber d + 730425) / 146097 = e := by omega
  have hofEra : (dayNumber d + 730425) % 146097 = 36524 * c + 1461 * q + 365 * s + n := by omega
  obtain ⟨hcentury, hcycle, hrest, hofYear⟩ := ofEra_parts hc hq hs hn365 hleap hofEra
  unfold civil
  simp only [hera, hcentury, hcycle, hrest, hofYear, hmonth]
  obtain ⟨year, month, day⟩ := d
  simp only at hm hy hn
  have hmonth12 : 1 ≤ month ∧ month ≤ 12 := h.month
  by_cases hfeb : month ≤ 2
  · rw [if_pos hfeb] at hm hy
    rw [if_pos (by omega), if_pos (by omega), Date.mk.injEq]
    omega
  · rw [if_neg hfeb] at hm hy
    rw [if_neg (by omega), if_neg (by omega), Date.mk.injEq]
    omega

/-- The days of a month are counted from 1. -/
theorem civil_day_pos (n : Int) : 1 ≤ (civil n).day := by
  simp only [civil, daysBeforeMonth]
  omega

/-- The month after. -/
def nextMonth (y m : Int) : Int × Int := if m = 12 then (y + 1, 1) else (y, m + 1)

/-- From March to November a month ends where the next one begins. -/
theorem daysBeforeMonth_next {y m : Int} (hm : 3 ≤ m ∧ m ≤ 11) :
    daysBeforeMonth (m - 2) = daysBeforeMonth (m - 3) + monthLength y m := by
  have hcases : m = 3 ∨ m = 4 ∨ m = 5 ∨ m = 6 ∨ m = 7 ∨ m = 8 ∨ m = 9 ∨ m = 10 ∨ m = 11 := by omega
  rcases hcases with h | h | h | h | h | h | h | h | h <;> subst h <;> rfl

theorem dayNumber_nextMonth {y m : Int} (hm : 1 ≤ m ∧ m ≤ 12) :
    dayNumber ⟨(nextMonth y m).1, (nextMonth y m).2, 1⟩ - 1 = dayNumber ⟨y, m, monthLength y m⟩ := by
  obtain rfl | rfl | rfl | hmid : m = 1 ∨ m = 2 ∨ m = 12 ∨ 3 ≤ m ∧ m ≤ 11 := by omega
  case inr.inl =>
    -- February, which ends the year
    have hlast : dayNumber ⟨y, 3, 1⟩ - 1 = daysBefore y - 730426 := by
      show daysBefore y + 0 + 1 - 1 - 730425 - 1 = _
      omega
    have hfeb : dayNumber ⟨y, 2, monthLength y 2⟩ =
        daysBefore (y - 1) + 337 + monthLength y 2 - 730426 := by
      show daysBefore (y - 1) + 337 + monthLength y 2 - 1 - 730425 = _
      omega
    have hlength : monthLength y 2 = if IsLeap y then 29 else 28 := rfl
    refine hlast.trans (Eq.trans ?_ hfeb.symm)
    rw [hlength]
    unfold daysBefore
    by_cases hleap : IsLeap y
    · rw [if_pos hleap]
      unfold IsLeap at hleap
      omega
    · rw [if_neg hleap]
      unfold IsLeap at hleap
      omega
  · show daysBefore (y - 1) + 337 + 1 - 1 - 730425 - 1 = daysBefore (y - 1) + 306 + 31 - 1 - 730425
    omega
  · show daysBefore (y + 1 - 1) + 306 + 1 - 1 - 730425 - 1 = daysBefore y + 275 + 31 - 1 - 730425
    rw [show y + 1 - 1 = y by omega]
    omega
  · have hlength := daysBeforeMonth_next (y := y) hmid
    have hnext : nextMonth y m = (y, m + 1) := if_neg (by omega)
    rw [hnext]
    unfold dayNumber
    dsimp only
    rw [if_neg (by omega), if_neg (by omega), if_neg (by omega), if_neg (by omega),
      show m + 1 - 3 = m - 2 by omega, hlength]
    omega

theorem valid_last {y m : Int} (hm : 1 ≤ m ∧ m ≤ 12) : Date.Valid ⟨y, m, monthLength y m⟩ := by
  refine ⟨hm, ?_, le_refl _⟩
  show 1 ≤ monthLength y m
  unfold monthLength
  split
  · split <;> decide
  · split <;> decide

/-- **The last day of a month**, from the first of the next one. -/
theorem civil_pred_first {y m : Int} (hm : 1 ≤ m ∧ m ≤ 12) :
    civil (dayNumber ⟨(nextMonth y m).1, (nextMonth y m).2, 1⟩ - 1) = ⟨y, m, monthLength y m⟩ := by
  rw [dayNumber_nextMonth hm, civil_dayNumber (valid_last hm)]

end Calendar
