import Ccdb.Exec.ExactArithmetic
import Ccdb.Lib.Decimal
import Ccdb.Sql.Text

/-!
# Ccdb — interval literals

`parse_interval_literal`, which reads pairs of a number and a unit and times of the day,
and `format_interval`, which writes them. The parser takes every `s` off the end of a unit,
also from `ms`, `us` and `s`. The printer cuts the microseconds towards zero for the hours,
minutes and seconds, and downwards for the fraction.

The conversion of the seconds from a floating point number is a parameter.

Main results:

* `exact_iff` — when a literal is read as the sums it stands for.
* `milliseconds_read_as_minutes` — `'5 ms'`.
* `roundTrips_iff` — when an interval that is printed is read back.
* `negative_fraction_lost` — minus one microsecond.
-/

namespace Ccdb.Interval

open Decimal
open ExactArithmetic (toInt_ofInt32 toInt_ofInt64)

/-! ## The parser -/

structure Fields where
  months : Int32
  days : Int32
  micros : Int64
deriving DecidableEq, Repr

inductive Field where
  | months
  | days
  | micros
deriving DecidableEq, Repr

/-- A unit: so many of a field. -/
structure Size where
  field : Field
  k : Int
deriving DecidableEq, Repr

/-- What the seconds are worth: `(sec_part.parse::<f64>()? * 1_000_000.0).round() as i64`. -/
abbrev SecMicros := List Char → Option Int64

/-- `str::parse::<i64>`. -/
def parseI64 (s : List Char) : Option Int64 :=
  match int? s with
  | some n => if InI64 n then some (Int64.ofInt n) else none
  | none => none

/-- `parse_hms`. -/
def parseHms (b : Build) (f : SecMicros) (s : List Char) : Except DbError (Option Int64) :=
  match s.splitOn ':' with
  | h :: m :: rest =>
    if 1 < rest.length then .ok none
    else
      match parseI64 h, parseI64 m with
      | some h, some m => do
        let hours ← b.i64 "multiply" (h.toInt * 3600000000)
        let minutes ← b.i64 "multiply" (m.toInt * 60000000)
        let micros ← b.i64 "add" (hours.toInt + minutes.toInt)
        match rest with
        | [] => return some micros
        | sec :: _ =>
          match f sec with
          | none => return none
          | some t => do
            let micros ← b.i64 "add" (micros.toInt + t.toInt)
            return some micros
      | _, _ => .ok none
  | _ => .ok none

/-- `trim_end_matches('s')` of the unit in lower case. -/
def singular (unit : List Char) : String :=
  String.ofList ((unit.map Char.toLower).rdropWhile (· == 's'))

/-- The arms of the match on the unit. -/
def readUnit (unit : String) : Option Size :=
  match unit with
  | "year" => some ⟨.months, 12⟩
  | "month" | "mon" => some ⟨.months, 1⟩
  | "week" => some ⟨.days, 7⟩
  | "day" => some ⟨.days, 1⟩
  | "hour" | "hr" | "h" => some ⟨.micros, 3600000000⟩
  | "minute" | "min" | "m" => some ⟨.micros, 60000000⟩
  | "second" | "sec" | "s" => some ⟨.micros, 1000000⟩
  | "millisecond" | "ms" => some ⟨.micros, 1000⟩
  | "microsecond" | "us" => some ⟨.micros, 1⟩
  | _ => none

/-- The body of an arm; the months and days are the `i64` product `as i32`. -/
def Fields.add (b : Build) (t : Fields) (size : Size) (n : Int64) : Except DbError Fields := do
  let x ← b.i64 "multiply" (n.toInt * size.k)
  match size.field with
  | .months => return { t with months := ← b.i32 "add" (t.months.toInt + x.toInt32.toInt) }
  | .days => return { t with days := ← b.i32 "add" (t.days.toInt + x.toInt32.toInt) }
  | .micros => return { t with micros := ← b.i64 "add" (t.micros.toInt + x.toInt) }

/-- The loop of `parse_interval_literal`. -/
def parseTokens (b : Build) (f : SecMicros) : List (List Char) → Fields → Except DbError Fields
  | [], t => .ok t
  | tok :: rest, t => do
    match ← parseHms b f tok with
    | some us =>
      let micros ← b.i64 "add" (t.micros.toInt + us.toInt)
      parseTokens b f rest { t with micros := micros }
    | none =>
      match rest with
      | [] => .error (.bail s!"interval token without unit: {repr (String.ofList tok)}")
      | unit :: rest =>
        match parseI64 tok with
        | none => .error (.bail s!"bad interval number: {repr (String.ofList tok)}")
        | some n =>
          match readUnit (singular unit) with
          | none => .error (.bail s!"unknown interval unit: {repr (singular unit)}")
          | some size => do
            let t ← t.add b size n
            parseTokens b f rest t

/-- `parse_interval_literal`. -/
def parseIntervalLiteral (b : Build) (f : SecMicros) (s : List Char) : Except DbError Fields :=
  parseTokens b f (splitWhitespace (trim s)) ⟨0, 0, 0⟩

/-! ## The printer -/

/-- `i32::abs`. -/
def absI32 (b : Build) (n : Int32) : Except DbError Int32 :=
  if n.toInt < 0 then b.i32 "negate" (-n.toInt) else .ok n

/-- A part for a number that is not zero. -/
def countPart (b : Build) (n : Int32) (unit : String) : Except DbError (List (List Char)) :=
  if n ≠ 0 then do
    let a ← absI32 b n
    return [text n.toInt ++ ' ' :: unit.toList ++ (if a = 1 then [] else ['s'])]
  else .ok []

/-- The fraction of a second without the zeros at its end. -/
def trimmedFrac (frac : Int) : List Char := (padded 6 frac).rdropWhile (· == '0')

def hmsPart (micros : Int64) : List Char :=
  let totalSecs := micros.toInt.tdiv 1000000
  let h := totalSecs.tdiv 3600
  let m := (totalSecs.tmod 3600).tdiv 60
  let s := totalSecs.tmod 60
  let frac := micros.toInt % 1000000
  padded 2 h ++ ':' :: padded 2 m ++ ':' :: padded 2 s ++
    (if frac = 0 then [] else '.' :: trimmedFrac frac)

/-- `format_interval`. -/
def formatInterval (b : Build) (t : Fields) : Except DbError (List Char) := do
  let years ← countPart b (Int32.ofInt (t.months.toInt.tdiv 12)) "year"
  let mons ← countPart b (Int32.ofInt (t.months.toInt.tmod 12)) "mon"
  let days ← countPart b t.days "day"
  let parts := years ++ mons ++ days
  return joinWords (if t.micros ≠ 0 ∨ parts = [] then parts ++ [hmsPart t.micros] else parts)

/-! ## Words that are read -/

section Words

variable {b : Build} {f : SecMicros} {n : Int} {s unit : List Char} {t : Fields} {size : Size}

theorem isWord_of_numeral (hne : s ≠ []) (h : ∀ c ∈ s, c = '-' ∨ c.isDigit) : IsWord s := by
  refine ⟨hne, fun c hc => ?_⟩
  rcases h c hc with rfl | hd
  · rfl
  · have h48 : 48 ≤ c.toNat ∧ c.toNat ≤ 57 := by
      simpa [Char.isDigit, UInt32.le_iff_toNat_le] using hd
    simp only [isWhite, Bool.or_eq_false_iff, Bool.and_eq_false_iff, decide_eq_false_iff_not,
      beq_eq_false_iff_ne]
    omega

theorem colon_not_mem (h : ∀ c ∈ s, c = '-' ∨ c.isDigit) : ':' ∉ s := by
  intro hc
  rcases h ':' hc with h | h <;> cases h

theorem parseI64_of_int? (h : int? s = some n) (hn : InI64 n) : parseI64 s = some (Int64.ofInt n) := by
  simp only [parseI64, h, if_pos hn]

/-- A token without a colon is no time. -/
theorem parseHms_number (h : ':' ∉ s) : parseHms b f s = .ok none := by
  rw [parseHms, List.splitOn_eq_singleton h]

/-- A pair that is read. -/
theorem parseTokens_pair (hcolon : ':' ∉ s) (hn : parseI64 s = some (Int64.ofInt n))
    (hsize : readUnit (singular unit) = some size) (rest : List (List Char)) :
    parseTokens b f (s :: unit :: rest) t = (do
      let t ← t.add b size (Int64.ofInt n)
      parseTokens b f rest t) := by
  rw [parseTokens, parseHms_number hcolon]
  simp only [bind, Except.bind, hn, hsize]

end Words

/-! ## One addition -/

/-- The field with `x` more, as the build without checks has it. -/
def Fields.put (t : Fields) (field : Field) (x : Int) : Fields :=
  match field with
  | .months => { t with months := t.months + Int32.ofInt x }
  | .days => { t with days := t.days + Int32.ofInt x }
  | .micros => { t with micros := t.micros + Int64.ofInt x }

/-- The addition does not overflow. -/
def Fields.Room (t : Fields) (field : Field) (x : Int) : Prop :=
  match field with
  | .months => InI32 (t.months.toInt + (Int32.ofInt x).toInt)
  | .days => InI32 (t.days.toInt + (Int32.ofInt x).toInt)
  | .micros => InI64 (t.micros.toInt + x)

section Add

variable {b : Build} {t : Fields} {n : Int} {size : Size}

theorem i64_wrap {what : String} (h : b = .debug → InI64 n) : b.i64 what n = .ok (Int64.ofInt n) := by
  cases b with
  | debug => exact Build.i64_ok _ _ (h rfl)
  | release => exact if_pos (Or.inr rfl)

theorem i32_wrap {what : String} (h : b = .debug → InI32 n) : b.i32 what n = .ok (Int32.ofInt n) := by
  cases b with
  | debug => exact Build.i32_ok _ _ (h rfl)
  | release => exact if_pos (Or.inr rfl)

theorem add_ok (hn : InI64 n)
    (h : b = .debug → InI64 (n * size.k) ∧ t.Room size.field (n * size.k)) :
    t.add b size (Int64.ofInt n) = .ok (t.put size.field (n * size.k)) := by
  obtain ⟨field, k⟩ := size
  rw [Fields.add, toInt_ofInt64 hn, i64_wrap fun hb => (h hb).1]
  have hnarrow : (Int64.ofInt (n * k)).toInt32 = Int32.ofInt (n * k) := Int64.toInt32_ofInt
  cases field with
  | months | days =>
    simp only [bind, Except.bind, hnarrow]
    rw [i32_wrap fun hb => (h hb).2]
    simp only [Fields.put, Int32.ofInt_add, Int32.ofInt_toInt, pure, Except.pure]
  | micros =>
    have hroom : b = .debug → InI64 (t.micros.toInt + (Int64.ofInt (n * k)).toInt) := fun hb => by
      rw [toInt_ofInt64 (h hb).1]
      exact (h hb).2
    simp only [bind, Except.bind]
    rw [i64_wrap hroom]
    simp only [Fields.put, Int64.ofInt_add, Int64.ofInt_toInt, pure, Except.pure]

end Add

/-! ## The round trip -/

/-- The microseconds of a seconds field with a fraction of at most six digits. -/
def seconds (neg : Bool) (whole frac : List Char) : Int :=
  let n : Int := (value whole * 10 ^ 6 + value frac * 10 ^ (6 - frac.length) : Nat)
  if neg then -n else n

def withPoint (frac : List Char) : List Char := if frac = [] then [] else '.' :: frac

/-- The parse of a seconds field, times `10 ^ 6`, rounds to the exact number. -/
def ReadsSeconds (f : SecMicros) : Prop := ∀ neg whole frac, IsNumeral whole → whole.length ≤ 2 →
  (∀ c ∈ frac, c.isDigit) → frac.length ≤ 6 →
    f (signed neg whole ++ withPoint frac) = some (Int64.ofInt (seconds neg whole frac))

/-- What is printed is read back. -/
def RoundTrips (b : Build) (f : SecMicros) (t : Fields) : Prop :=
  (formatInterval b t >>= parseIntervalLiteral b f) = .ok t

instance (b : Build) (f : SecMicros) (t : Fields) : Decidable (RoundTrips b f t) :=
  inferInstanceAs (Decidable (_ = _))

/-- The fraction taken downwards, with the sign of the seconds, is the one taken towards zero. -/
def SplitsAlike (u : Int) : Prop :=
  0 ≤ u ∨ u.tmod 1000000 = 0 ∨ u.tmod 1000000 = -500000 ∧ (u.tdiv 1000000).tmod 60 ≠ 0

instance (u : Int) : Decidable (SplitsAlike u) := inferInstanceAs (Decidable (_ ∨ _ ∨ _))

section Times

variable {b : Build} {f : SecMicros} {u : Int}

/-- Division that cuts towards zero. -/
theorem cut_spec (n : Int) {k : Int} (hk : 0 < k) : n.tdiv k * k + n.tmod k = n ∧
    (0 ≤ n → 0 ≤ n.tdiv k ∧ 0 ≤ n.tmod k ∧ n.tmod k < k) ∧
    (n ≤ 0 → n.tdiv k ≤ 0 ∧ n.tmod k ≤ 0 ∧ -k < n.tmod k) := by
  refine ⟨Int.tdiv_mul_add_tmod n k, fun hn => ?_, fun hn => ?_⟩
  · exact ⟨Int.tdiv_nonneg hn hk.le, Int.tmod_nonneg k hn, Int.tmod_lt_of_pos n hk⟩
  · have hneg : 0 ≤ -n := by omega
    have hdiv := Int.tdiv_nonneg hneg hk.le
    have hmod := Int.tmod_nonneg k hneg
    have hlt := Int.tmod_lt_of_pos (-n) hk
    rw [Int.neg_tdiv] at hdiv
    rw [Int.neg_tmod] at hmod hlt
    exact ⟨by omega, by omega, by omega⟩

/-- The seconds of the time of day that is printed, as they are read. -/
def reread (u : Int) : Int :=
  let secs := u.tdiv 1000000
  secs * 1000000 + if secs.tmod 60 < 0 then -(u % 1000000) else u % 1000000

theorem reread_eq_iff (u : Int) : reread u = u ↔ SplitsAlike u := by
  obtain ⟨hu, hpos, hneg⟩ := cut_spec u (k := 1000000) (by decide)
  obtain ⟨hsecs, hspos, hsneg⟩ := cut_spec (u.tdiv 1000000) (k := 60) (by decide)
  simp only [reread, SplitsAlike]
  split <;> omega

theorem reread_range (hu : u.natAbs < 10 ^ 15) : InI64 (reread u) := by
  obtain ⟨hu, hpos, hneg⟩ := cut_spec u (k := 1000000) (by decide)
  simp only [reread, InI64]
  split <;> omega

theorem value_rdropZeros (l : List Char) :
    value l = value (l.rdropWhile (· == '0')) * 10 ^ (l.length - (l.rdropWhile (· == '0')).length) := by
  induction l using List.reverseRecOn with
  | nil => rfl
  | append_singleton l c ih =>
    by_cases hc : (c == '0') = true
    · rw [List.rdropWhile_concat_pos (· == '0') l c hc, value_append, ih]
      have hle := (List.rdropWhile_prefix (· == '0') (l := l)).length_le
      obtain rfl : c = '0' := by simpa using hc
      have hzero : value ['0'] = 0 := rfl
      rw [List.length_append, List.length_singleton, Nat.succ_sub hle, Nat.succ_eq_add_one,
        pow_succ, hzero]
      ring
    · rw [List.rdropWhile_concat_neg (· == '0') l c hc, Nat.sub_self, pow_zero, Nat.mul_one]

/-- A padded number that fits the width is as long as the width. -/
theorem length_zeros {width m : Nat} (h : m < 10 ^ width) (hwidth : 0 < width) :
    (List.replicate (width - (digits m).length) '0' ++ digits m).length = width := by
  have hle : (digits m).length ≤ width := (Nat.length_toDigits_le_iff (by decide) hwidth).2 h
  rw [List.length_append, List.length_replicate]
  omega

/-- The fraction, with the zeros at its end or without. -/
theorem trimmedFrac_spec {frac : Int} (hpos : 0 < frac) (hlt : frac < 1000000) :
    trimmedFrac frac ≠ [] ∧ (∀ c ∈ trimmedFrac frac, c.isDigit) ∧ (trimmedFrac frac).length ≤ 6 ∧
      (value (trimmedFrac frac) * 10 ^ (6 - (trimmedFrac frac).length) : Nat) = frac := by
  obtain ⟨m, rfl⟩ := Int.eq_ofNat_of_zero_le hpos.le
  have hneg : decide ((m : Int) < 0) = false := by simp
  set l := List.replicate (6 - (digits m).length) '0' ++ digits m with hl
  have hpadded : padded 6 m = l := by
    simp only [padded, Int.natAbs_natCast, hneg, signed, Bool.false_eq_true, if_false, hl]
  have hlen : l.length = 6 := length_zeros (by omega) (by decide)
  have hvalue := value_rdropZeros l
  rw [hl, value_zeros, value_digits, ← hl, hlen, ← hpadded] at hvalue
  change m = value (trimmedFrac m) * 10 ^ (6 - (trimmedFrac m).length) at hvalue
  have hfront : trimmedFrac m <+: l := by
    rw [trimmedFrac, hpadded]
    exact List.rdropWhile_prefix _ l
  refine ⟨fun hnil => ?_, fun c hc => ?_, hlen ▸ hfront.length_le, by exact_mod_cast hvalue.symm⟩
  · rw [hnil] at hvalue
    have hzero : value [] = 0 := rfl
    rw [hzero, Nat.zero_mul] at hvalue
    omega
  · exact ((isNumeral_digits m).zeros _).2 c (hfront.subset hc)

/-- The seconds field, as it is read. -/
theorem secMicros_field (hf : ReadsSeconds f) (s frac : Int) (hs : -60 < s ∧ s < 60)
    (hfrac : 0 ≤ frac ∧ frac < 1000000) :
    f (padded 2 s ++ if frac = 0 then [] else '.' :: trimmedFrac frac) =
      some (Int64.ofInt (s * 1000000 + if s < 0 then -frac else frac)) := by
  set l := List.replicate (2 - (signed (s < 0) (digits s.natAbs)).length) '0' ++ digits s.natAbs with hl
  have hlen : l.length ≤ 2 := by
    have hle : (digits s.natAbs).length ≤ 2 :=
      (Nat.length_toDigits_le_iff (by decide) (by decide)).2 (by omega)
    rw [hl, List.length_append, List.length_replicate, signed]
    split
    · rw [List.length_cons]
      omega
    · omega
  have hnum : IsNumeral l := (isNumeral_digits _).zeros _
  have hval : value l = s.natAbs := by rw [hl, value_zeros, value_digits]
  have hpadded : padded 2 s = signed (s < 0) l := rfl
  rw [hpadded]
  have hdone : ∀ fr : List Char, (∀ c ∈ fr, c.isDigit) → fr.length ≤ 6 →
      ((value fr * 10 ^ (6 - fr.length) : Nat) : Int) = frac →
      f (signed (s < 0) l ++ withPoint fr) =
        some (Int64.ofInt (s * 1000000 + if s < 0 then -frac else frac)) := by
    intro fr hdigits hshort hfr
    rw [hf _ l fr hnum hlen hdigits hshort, seconds, hval]
    congr 2
    rw [← hfr]
    by_cases hneg : s < 0
    · simp only [hneg, decide_true, if_true]
      push_cast
      rw [abs_of_neg hneg]
      ring
    · simp only [hneg, decide_false, Bool.false_eq_true, if_false]
      push_cast
      rw [abs_of_nonneg (not_lt.1 hneg)]
  by_cases hzero : frac = 0
  · have hfield := hdone [] (fun c hc => by cases hc) (by simp) (by rw [hzero]; rfl)
    rw [withPoint, if_pos rfl] at hfield
    rw [if_pos hzero]
    exact hfield
  · obtain ⟨hne, hdigits, hshort, hfr⟩ := trimmedFrac_spec (by omega) hfrac.2
    have hfield := hdone (trimmedFrac frac) hdigits hshort (by exact_mod_cast hfr)
    rw [withPoint, if_neg hne] at hfield
    rw [if_neg hzero]
    exact hfield

/-- The fields of a time of day, by their sizes. -/
theorem hms_natAbs {n : Int} (hn : n.natAbs < 10 ^ 15) :
    ((n.tdiv 1000000).tdiv 3600).natAbs < 277778 ∧
      (((n.tdiv 1000000).tmod 3600).tdiv 60).natAbs < 60 ∧ ((n.tdiv 1000000).tmod 60).natAbs < 60 := by
  have hdiv : ∀ a b : Nat, a.div b = a / b := fun _ _ => rfl
  rw [Int.natAbs_tdiv, Int.natAbs_tdiv, Int.natAbs_tdiv, Int.natAbs_tmod, Int.natAbs_tmod,
    Int.natAbs_tdiv, hdiv, hdiv, hdiv, show Int.natAbs 1000000 = 1000000 from rfl,
    show Int.natAbs 3600 = 3600 from rfl, show Int.natAbs 60 = 60 from rfl]
  exact ⟨by omega, by omega, by omega⟩

/-- Nothing overflows while the fields are put together. -/
theorem hms_fits {h m sec : Int} (hh : h.natAbs < 277778) (hm : m.natAbs < 60)
    (hsec : sec.natAbs < 60000000) : InI64 h ∧ InI64 m ∧ InI64 sec ∧ InI64 (h * 3600000000) ∧
      InI64 (m * 60000000) ∧ InI64 (h * 3600000000 + m * 60000000) ∧
      InI64 (h * 3600000000 + m * 60000000 + sec) := by
  unfold InI64
  exact ⟨⟨by omega, by omega⟩, ⟨by omega, by omega⟩, ⟨by omega, by omega⟩, ⟨by omega, by omega⟩,
    ⟨by omega, by omega⟩, ⟨by omega, by omega⟩, ⟨by omega, by omega⟩⟩

/-- The fields of a time of day make up the seconds. -/
theorem hms_sum (secs sec : Int) : secs.tdiv 3600 * 3600000000 +
    (secs.tmod 3600).tdiv 60 * 60000000 + (secs.tmod 60 * 1000000 + sec) = secs * 1000000 + sec := by
  have hhours := Int.tdiv_mul_add_tmod secs 3600
  have hminutes := Int.tdiv_mul_add_tmod (secs.tmod 3600) 60
  rw [Int.tmod_tmod_of_dvd secs (by decide)] at hminutes
  omega

theorem splitOn_hmsPart (u : Int64) :
    (hmsPart u).splitOn ':' = [padded 2 ((u.toInt.tdiv 1000000).tdiv 3600),
      padded 2 (((u.toInt.tdiv 1000000).tmod 3600).tdiv 60),
      padded 2 ((u.toInt.tdiv 1000000).tmod 60) ++
        if u.toInt % 1000000 = 0 then [] else '.' :: trimmedFrac (u.toInt % 1000000)] := by
  have hcolon : ∀ {m : Int}, ':' ∉ padded 2 m := fun {m} => colon_not_mem fun _ => mem_padded
  have hlast : ':' ∉ padded 2 ((u.toInt.tdiv 1000000).tmod 60) ++
      if u.toInt % 1000000 = 0 then [] else '.' :: trimmedFrac (u.toInt % 1000000) := by
    intro hc
    rcases List.mem_append.1 hc with hc | hc
    · exact hcolon hc
    · split at hc
      · cases hc
      · next hfrac =>
        rcases List.mem_cons.1 hc with hc | hc
        · cases hc
        · have hdigit := (trimmedFrac_spec (by omega) (by omega)).2.1 ':' hc
          cases hdigit
  simp only [hmsPart, List.append_assoc, List.cons_append]
  rw [List.splitOn_append_cons_self_of_not_mem hcolon, List.splitOn_append_cons_self_of_not_mem hcolon,
    List.splitOn_eq_singleton hlast]

/-- The time of day that is printed is read. -/
theorem parseHms_hmsPart (hf : ReadsSeconds f) {u : Int64} (hu : u.toInt.natAbs < 10 ^ 15) :
    parseHms b f (hmsPart u) = .ok (some (Int64.ofInt (reread u.toInt))) := by
  obtain ⟨hhabs, hmabs, hsabs⟩ := hms_natAbs hu
  have hparts := splitOn_hmsPart u
  have hsum := hms_sum (u.toInt.tdiv 1000000)
    (if (u.toInt.tdiv 1000000).tmod 60 < 0 then -(u.toInt % 1000000) else u.toInt % 1000000)
  rw [show _ * 1000000 + _ = reread u.toInt from rfl] at hsum
  generalize (u.toInt.tdiv 1000000).tdiv 3600 = h at *
  generalize ((u.toInt.tdiv 1000000).tmod 3600).tdiv 60 = m at *
  generalize (u.toInt.tdiv 1000000).tmod 60 = s at *
  have hfrac : 0 ≤ u.toInt % 1000000 ∧ u.toInt % 1000000 < 1000000 := ⟨by omega, by omega⟩
  have hfield := secMicros_field hf s (u.toInt % 1000000) (by omega) hfrac
  have hsec : (s * 1000000 + if s < 0 then -(u.toInt % 1000000) else u.toInt % 1000000).natAbs <
      60000000 := by
    split <;> omega
  generalize (s * 1000000 + if s < 0 then -(u.toInt % 1000000) else u.toInt % 1000000) = sec at *
  obtain ⟨hh, hm, hS, hH, hM, hHM, hall⟩ := hms_fits hhabs hmabs hsec
  rw [hsum] at hall
  have hread : ∀ {m : Int}, InI64 m → parseI64 (padded 2 m) = some (Int64.ofInt m) := fun hm =>
    parseI64_of_int? (int?_padded 2 _) hm
  simp only [parseHms, hparts, List.length_singleton, lt_irrefl, if_false, hread hh, hread hm,
    toInt_ofInt64 hh, toInt_ofInt64 hm, hfield]
  simp only [bind, Except.bind, Build.i64_ok _ _ hH, Build.i64_ok _ _ hM, toInt_ofInt64 hH,
    toInt_ofInt64 hM, Build.i64_ok _ _ hHM, toInt_ofInt64 hHM, toInt_ofInt64 hS, Build.i64_ok _ _ hall,
    hsum, pure, Except.pure]

end Times

section RoundTrip

variable {b : Build} {f : SecMicros} {t : Fields} {unit : String} {n : Int32} {size : Size}

/-- A number and its unit are read back, if the number is printed at all. -/
theorem parse_countPart (unit : String) (size : Size) {v : Int} (hv : n.toInt = v)
    (hword : IsWord unit.toList)
    (hread : ∀ suffix ∈ [[], ['s']], readUnit (singular (unit.toList ++ suffix)) = some size)
    (habs : b = .debug → v ≠ -2 ^ 31) (hmul : InI64 (v * size.k))
    (hroom : t.Room size.field (v * size.k)) :
    ∃ parts, countPart b n unit = .ok parts ∧
      ∀ rest, parseTokens b f (parts.flatMap splitWhitespace ++ rest) t =
        parseTokens b f rest (t.put size.field (v * size.k)) := by
  subst hv
  by_cases hzero : n = 0
  · subst hzero
    refine ⟨[], rfl, fun rest => ?_⟩
    have hput : t.put size.field (Int32.toInt 0 * size.k) = t := by
      obtain ⟨field, k⟩ := size
      cases field <;> simp [Fields.put]
    rw [hput]
    rfl
  · have hrange : InI32 (-n.toInt) ∨ b = .release := by
      have hlo := n.le_toInt
      have hhi := n.toInt_lt
      cases b with
      | debug => exact Or.inl ⟨by omega, by have := habs rfl; omega⟩
      | release => exact Or.inr rfl
    obtain ⟨a, ha⟩ : ∃ a, absI32 b n = .ok a := by
      rw [absI32]
      split
      · exact ⟨_, if_pos hrange⟩
      · exact ⟨n, rfl⟩
    refine ⟨_, by rw [countPart, if_pos hzero, ha]; rfl, fun rest => ?_⟩
    obtain ⟨suffix, hsuffix, hmem⟩ : ∃ suffix, (if a = 1 then [] else ['s']) = suffix ∧
        suffix ∈ [[], ['s']] := ⟨_, rfl, by split <;> simp⟩
    rw [hsuffix]
    have hunit : IsWord (unit.toList ++ suffix) := by
      refine ⟨by simp [hword.1], fun c hc => ?_⟩
      rcases List.mem_append.1 hc with hc | hc
      · exact hword.2 c hc
      · simp only [List.mem_cons, List.not_mem_nil, or_false] at hmem
        rcases hmem with rfl | rfl
        · cases hc
        · rw [List.mem_singleton.1 hc]
          rfl
    have hnumber := isWord_of_numeral (text_ne_nil n.toInt) fun _ => mem_text
    have hin : InI64 n.toInt := ⟨by have := n.le_toInt; omega, by have := n.toInt_lt; omega⟩
    have hwords : splitWhitespace (text n.toInt ++ ' ' :: unit.toList ++ suffix) =
        [text n.toInt, unit.toList ++ suffix] := by
      rw [List.append_assoc, List.cons_append, splitWhitespace_append rfl,
        splitWhitespace_word hnumber, splitWhitespace_word hunit]
      rfl
    rw [List.flatMap_singleton, hwords]
    simp only [List.cons_append, List.nil_append]
    rw [parseTokens_pair (colon_not_mem fun _ => mem_text) (parseI64_of_int? (int?_text _) hin)
      (hread suffix hmem), add_ok hin fun _ => ⟨hmul, hroom⟩]
    rfl

/-- A whole number of days that cannot be made positive stops the printer. -/
theorem countPart_min (unit : String) (hn : n.toInt = -2 ^ 31) : ∃ e, countPart .debug n unit = .error e := by
  have hne : n ≠ 0 := by
    rintro rfl
    cases hn
  have habs : ∃ e, absI32 .debug n = .error e := by
    rw [absI32, if_pos (by omega), Build.i32, if_neg]
    · exact ⟨_, rfl⟩
    · rw [hn]
      decide
  obtain ⟨e, he⟩ := habs
  exact ⟨e, by rw [countPart, if_pos hne, he]; rfl⟩

theorem isWord_hmsPart (u : Int64) : IsWord (hmsPart u) := by
  have hnumeral : ∀ {n : Int} {c : Char}, c ∈ padded 2 n → isWhite c = false := fun hc =>
    (isWord_of_numeral (padded_ne_nil 2 _) fun _ => mem_padded).2 _ hc
  refine ⟨by simp [hmsPart], fun c hc => ?_⟩
  simp only [hmsPart, List.mem_append, List.mem_cons] at hc
  rcases hc with ((hc | rfl | hc) | rfl | hc) | hc
  · exact hnumeral hc
  · rfl
  · exact hnumeral hc
  · rfl
  · exact hnumeral hc
  · split at hc
    · cases hc
    · next hfrac =>
      rcases List.mem_cons.1 hc with rfl | hc
      · rfl
      · have hpos : 0 < u.toInt % 1000000 := by omega
        obtain ⟨hne, hdigits, -⟩ := trimmedFrac_spec hpos (by omega)
        exact (isWord_of_numeral hne fun c hc => Or.inr (hdigits c hc)).2 c hc

/-- The months come back as years and months. -/
theorem parse_months (b : Build) (f : SecMicros) (m : Int32) :
    ∃ years mons, countPart b (Int32.ofInt (m.toInt.tdiv 12)) "year" = .ok years ∧
      countPart b (Int32.ofInt (m.toInt.tmod 12)) "mon" = .ok mons ∧
      ∀ rest, parseTokens b f ((years ++ mons).flatMap splitWhitespace ++ rest) ⟨0, 0, 0⟩ =
        parseTokens b f rest ⟨m, 0, 0⟩ := by
  obtain ⟨hsplit, hpos, hneg⟩ := cut_spec m.toInt (k := 12) (by decide)
  have hlo := m.le_toInt
  have hhi := m.toInt_lt
  set y := m.toInt.tdiv 12
  set r := m.toInt.tmod 12
  have hy : InI32 y := ⟨by omega, by omega⟩
  have hr : InI32 r := ⟨by omega, by omega⟩
  have hyears12 : InI32 (y * 12) := ⟨by omega, by omega⟩
  obtain ⟨years, hyears, hreadYears⟩ := parse_countPart (b := b) (f := f) (t := ⟨0, 0, 0⟩)
    "year" ⟨.months, 12⟩ (toInt_ofInt32 hy) (by decide +kernel) (by decide +kernel)
    (fun _ => by omega) (by dsimp only; exact ⟨by omega, by omega⟩)
    (by simpa only [Fields.Room, toInt_ofInt32 hyears12, Int32.toInt_zero, Int.zero_add] using hyears12)
  have hsum : (0 + Int32.ofInt (y * 12)).toInt + (Int32.ofInt (r * 1)).toInt = m.toInt := by
    rw [Int32.zero_add, Int.mul_one, toInt_ofInt32 hyears12, toInt_ofInt32 hr, hsplit]
  obtain ⟨mons, hmons, hreadMons⟩ := parse_countPart (b := b) (f := f)
    (t := Fields.put ⟨0, 0, 0⟩ .months (y * 12)) "mon" ⟨.months, 1⟩
    (toInt_ofInt32 hr) (by decide +kernel) (by decide +kernel) (fun _ => by omega)
    (by dsimp only; exact ⟨by omega, by omega⟩)
    (by
      simp only [Fields.Room, Fields.put]
      rw [hsum]
      exact ⟨hlo, hhi⟩)
  refine ⟨years, mons, hyears, hmons, fun rest => ?_⟩
  rw [List.flatMap_append, List.append_assoc, hreadYears, hreadMons]
  congr 1
  simp only [Fields.put, Fields.mk.injEq, and_true]
  rw [Int32.zero_add, ← Int32.ofInt_add, Int.mul_one, hsplit, Int32.ofInt_toInt]

/-- **An interval that is printed is read back** exactly when its fraction splits alike, and
its days can be made positive. -/
theorem roundTrips_iff (hf : ReadsSeconds f) (hu : t.micros.toInt.natAbs < 10 ^ 15) :
    RoundTrips b f t ↔ (b = .debug → t.days.toInt ≠ -2 ^ 31) ∧ SplitsAlike t.micros.toInt := by
  obtain ⟨years, mons, hyears, hmons, hmonths⟩ := parse_months b f t.months
  by_cases hmin : b = .debug → t.days.toInt ≠ -2 ^ 31
  · have hlo := t.days.le_toInt
    have hhi := t.days.toInt_lt
    obtain ⟨days, hdays, hreadDays⟩ := parse_countPart (b := b) (f := f)
      (t := ⟨t.months, 0, 0⟩) "day" ⟨.days, 1⟩ (v := t.days.toInt) rfl
      (by decide +kernel) (by decide +kernel) hmin (by dsimp only; exact ⟨by omega, by omega⟩)
      (by
        simp only [Fields.Room, Int.mul_one, Int32.ofInt_toInt, Int32.toInt_zero, Int.zero_add]
        exact ⟨hlo, hhi⟩)
    have hput : Fields.put ⟨t.months, 0, 0⟩ .days (t.days.toInt * 1) = ⟨t.months, t.days, 0⟩ := by
      simp only [Fields.put, Int.mul_one, Int32.ofInt_toInt, Int32.zero_add]
    have hparts : ∀ rest, parseTokens b f ((years ++ mons ++ days).flatMap splitWhitespace ++ rest)
        ⟨0, 0, 0⟩ = parseTokens b f rest ⟨t.months, t.days, 0⟩ := fun rest => by
      rw [List.flatMap_append, List.append_assoc, hmonths, hreadDays, hput]
    rw [RoundTrips, formatInterval, hyears, hmons, hdays, and_iff_right hmin, ← reread_eq_iff]
    simp only [bind, Except.bind, pure, Except.pure]
    by_cases hprint : t.micros ≠ 0 ∨ years ++ mons ++ days = []
    · have hrange : InI64 (reread t.micros.toInt) := reread_range hu
      have hlast : parseTokens b f [hmsPart t.micros] ⟨t.months, t.days, 0⟩ =
          .ok ⟨t.months, t.days, Int64.ofInt (reread t.micros.toInt)⟩ := by
        rw [parseTokens, parseHms_hmsPart hf hu]
        simp only [bind, Except.bind, Int64.toInt_zero, Int.zero_add, toInt_ofInt64 hrange,
          Build.i64_ok _ _ hrange]
        rfl
      rw [if_pos hprint, parseIntervalLiteral, splitWhitespace_trim, splitWhitespace_joinWords,
        List.flatMap_append, List.flatMap_singleton, splitWhitespace_word (isWord_hmsPart _), hparts,
        hlast, Except.ok.injEq]
      constructor
      · intro h
        have hmicros := congrArg (fun t => t.micros.toInt) h
        exact (toInt_ofInt64 hrange).symm.trans hmicros
      · intro h
        rw [h, Int64.ofInt_toInt]
    · obtain ⟨hmicros, -⟩ := not_or.1 hprint
      have ht : (⟨t.months, t.days, 0⟩ : Fields) = t := by rw [← not_not.1 hmicros]
      rw [if_neg hprint, parseIntervalLiteral, splitWhitespace_trim, splitWhitespace_joinWords,
        ← List.append_nil ((years ++ mons ++ days).flatMap splitWhitespace), hparts, ht]
      exact iff_of_true rfl (by rw [not_not.1 hmicros]; rfl)
  · have hdebug : b = .debug := by
      by_contra hb
      exact hmin fun h => absurd h hb
    subst hdebug
    obtain ⟨e, he⟩ := countPart_min "day" (n := t.days) (by
      by_contra hne
      exact hmin fun _ => hne)
    refine iff_of_false (fun h => ?_) fun h => hmin h.1
    rw [RoundTrips, formatInterval, hyears, hmons, he] at h
    cases h

end RoundTrip

/-- Seconds that are read digit by digit. -/
def exactSeconds (s : List Char) : Option Int64 :=
  let (neg, s) := match s with
    | '-' :: s => (true, s)
    | s => (false, s)
  match s.splitOn '.' with
  | [whole] => if IsNumeral whole then some (Int64.ofInt (seconds neg whole [])) else none
  | [whole, frac] =>
    if IsNumeral whole ∧ IsNumeral frac ∧ frac.length ≤ 6 then
      some (Int64.ofInt (seconds neg whole frac))
    else none
  | _ => none

theorem readsSeconds_exactSeconds : ReadsSeconds exactSeconds := by
  intro neg whole frac hwhole _ hdigits hshort
  have hpoint : ∀ {l : List Char}, (∀ c ∈ l, c.isDigit) → '.' ∉ l := by
    intro l h hc
    exact absurd (h '.' hc) (by decide)
  have hsign : ∀ l : List Char, (match signed neg whole ++ l with
      | '-' :: s => (true, s)
      | s => (false, s)) = (neg, whole ++ l) := by
    intro l
    cases neg with
    | true => rfl
    | false =>
      obtain ⟨c, cs, rfl⟩ := List.exists_cons_of_ne_nil hwhole.1
      have hc : c ≠ '-' := by
        rintro rfl
        exact absurd (hwhole.2 '-' List.mem_cons_self) (by decide)
      simp only [signed, Bool.false_eq_true, if_false, List.cons_append]
      split
      · next heq => exact absurd (List.cons.inj heq).1 hc
      · rfl
  have hsplit : (whole ++ withPoint frac).splitOn '.' = if frac = [] then [whole] else [whole, frac] := by
    by_cases hnil : frac = []
    · rw [withPoint, if_pos hnil, if_pos hnil, List.append_nil, List.splitOn_eq_singleton (hpoint hwhole.2)]
    · rw [withPoint, if_neg hnil, if_neg hnil, List.splitOn_append_cons_self_of_not_mem (hpoint hwhole.2),
        List.splitOn_eq_singleton (hpoint hdigits)]
  unfold exactSeconds
  simp only [hsign, hsplit]
  by_cases hnil : frac = []
  · rw [if_pos hnil, hnil]
    exact if_pos hwhole
  · rw [if_neg hnil]
    exact if_pos ⟨hwhole, ⟨hnil, hdigits⟩, hshort⟩

theorem roundTrips_iff_year : RoundTrips .debug exactSeconds ⟨14, -3, -5401500000⟩ ∧
    RoundTrips .release exactSeconds ⟨14, -3, -5401500000⟩ := by
  have h := fun b => (roundTrips_iff (b := b) (t := ⟨14, -3, -5401500000⟩)
    readsSeconds_exactSeconds (by decide +kernel)).2 ⟨fun _ => by decide +kernel, by decide +kernel⟩
  exact ⟨h .debug, h .release⟩

/-- **One microsecond less than nothing** is printed as the last microsecond of a second. -/
theorem negative_fraction_lost : ¬ ∀ b f, ReadsSeconds f → ∀ t : Fields,
    t.micros.toInt.natAbs < 10 ^ 15 → RoundTrips b f t := by
  intro h
  have hlost := h .release exactSeconds readsSeconds_exactSeconds ⟨0, 0, -1⟩
    (by decide +kernel)
  revert hlost
  decide +kernel

/-! ## What a literal stands for -/

inductive IntervalUnit where
  | year
  | month
  | week
  | day
  | hour
  | minute
  | second
  | millisecond
  | microsecond
deriving DecidableEq, Repr

namespace IntervalUnit

/-- The unit as it is documented. -/
def size : IntervalUnit → Size
  | .year => ⟨.months, 12⟩
  | .month => ⟨.months, 1⟩
  | .week => ⟨.days, 7⟩
  | .day => ⟨.days, 1⟩
  | .hour => ⟨.micros, 3600000000⟩
  | .minute => ⟨.micros, 60000000⟩
  | .second => ⟨.micros, 1000000⟩
  | .millisecond => ⟨.micros, 1000⟩
  | .microsecond => ⟨.micros, 1⟩

/-- Singular, plural and abbreviated. -/
def spellings : IntervalUnit → List String
  | .year => ["year", "years"]
  | .month => ["month", "months", "mon", "mons"]
  | .week => ["week", "weeks"]
  | .day => ["day", "days"]
  | .hour => ["hour", "hours", "hr", "hrs", "h"]
  | .minute => ["minute", "minutes", "min", "mins", "m"]
  | .second => ["second", "seconds", "sec", "secs", "s"]
  | .millisecond => ["millisecond", "milliseconds", "ms"]
  | .microsecond => ["microsecond", "microseconds", "us"]

end IntervalUnit

/-- `<integer> <unit>`, in upper or lower case. -/
structure Pair where
  number : List Char
  spelling : List Char
  n : Int
  unit : IntervalUnit
  reads : int? number = some n
  spelled : String.ofList (spelling.map Char.toLower) ∈ unit.spellings

namespace Pair

variable (p : Pair)

def tokens : List (List Char) := [p.number, p.spelling]

def lower : String := String.ofList (p.spelling.map Char.toLower)

/-- The number is no `i64`, or nothing is left of the unit that is known. -/
def Refused : Prop := ¬ InI64 p.n ∨ p.lower = "s" ∨ p.lower = "us"

instance : Decidable p.Refused := inferInstanceAs (Decidable (_ ∨ _ ∨ _))

/-- The unit without the `s` at its end. -/
def asRead : Size := if p.lower = "ms" then IntervalUnit.minute.size else p.unit.size

end Pair

/-- The sum of the pairs of a field. -/
def total (field : Field) (ps : List Pair) : Int :=
  (ps.map fun p => if p.unit.size.field = field then p.n * p.unit.size.k else 0).sum

/-- The sum of the numbers of milliseconds spelled `ms`. -/
def milliseconds (ps : List Pair) : Int := (ps.map fun p => if p.lower = "ms" then p.n else 0).sum

/-- The exact sums, or an error that is no panic. -/
def ExactOrErr (ps : List Pair) : Except DbError Fields → Prop
  | .ok t => t.months.toInt = total .months ps ∧ t.days.toInt = total .days ps ∧
      t.micros.toInt = total .micros ps
  | .error e => ∃ m, e = .bail m

def InField : Field → Int → Prop
  | .months => InI32
  | .days => InI32
  | .micros => InI64

/-- A product as its field takes it. -/
def stored : Field → Int → Int
  | .months, x => (Int32.ofInt x).toInt
  | .days, x => (Int32.ofInt x).toInt
  | .micros, x => x

/-- The sum of what pairs add to a field. -/
def storedSum (field : Field) (ps : List Pair) : Int :=
  (ps.map fun p => if p.asRead.field = field then stored field (p.n * p.asRead.k) else 0).sum

/-- No product and no sum up to the first pair that is refused leaves its type, after `qs`. -/
def FitsAfter (qs : List Pair) : List Pair → Prop
  | [] => True
  | p :: ps => p.Refused ∨ InI64 (p.n * p.asRead.k) ∧
      (∀ field, InField field (storedSum field (qs ++ [p]))) ∧ FitsAfter (qs ++ [p]) ps

/-- The milliseconds are none too many, and the sums have room. -/
def SumsFit (ps : List Pair) : Prop :=
  (∀ field, InField field (total field ps)) ∧ (2 : Int) ^ 64 ∣ 59999000 * milliseconds ps

/-- The literals that a build reads exactly or not at all. -/
def ReadsRight (b : Build) (ps : List Pair) : Prop :=
  (b = .debug → FitsAfter [] ps) ∧ ((∀ p ∈ ps, ¬ p.Refused) → SumsFit ps)

/-! ## Running sums -/

/-- The sum of what a field is given, before it is cut to the field. -/
def readSum (field : Field) (ps : List Pair) : Int :=
  (ps.map fun p => if p.asRead.field = field then p.n * p.asRead.k else 0).sum

/-- The fields after some pairs. -/
def ofSums (ps : List Pair) : Fields :=
  ⟨Int32.ofInt (readSum .months ps), Int32.ofInt (readSum .days ps), Int64.ofInt (readSum .micros ps)⟩

section Sums

variable {b : Build} {f : SecMicros} {p : Pair} {ps qs : List Pair} {field : Field}

theorem i32_eq_iff {x y : Int} : (Int32.ofInt x).toInt = y ↔ InI32 y ∧ (2 : Int) ^ 32 ∣ x - y := by
  have hlo := (Int32.ofInt x).le_toInt
  have hhi := (Int32.ofInt x).toInt_lt
  have hdvd : (2 : Int) ^ 32 ∣ x - (Int32.ofInt x).toInt := by
    rw [Int32.toInt_ofInt]
    exact Int.dvd_self_sub_bmod
  unfold InI32
  omega

theorem i64_eq_iff {x y : Int} : (Int64.ofInt x).toInt = y ↔ InI64 y ∧ (2 : Int) ^ 64 ∣ x - y := by
  have hlo := (Int64.ofInt x).le_toInt
  have hhi := (Int64.ofInt x).toInt_lt
  have hdvd : (2 : Int) ^ 64 ∣ x - (Int64.ofInt x).toInt := by
    rw [Int64.toInt_ofInt]
    exact Int.dvd_self_sub_bmod
  unfold InI64
  omega

theorem readSum_concat : readSum field (qs ++ [p]) =
    readSum field qs + if p.asRead.field = field then p.n * p.asRead.k else 0 := by
  simp [readSum]

theorem storedSum_concat : storedSum field (qs ++ [p]) =
    storedSum field qs + if p.asRead.field = field then stored field (p.n * p.asRead.k) else 0 := by
  simp [storedSum]

theorem ofSums_concat : ofSums (qs ++ [p]) = (ofSums qs).put p.asRead.field (p.n * p.asRead.k) := by
  simp only [ofSums, readSum_concat]
  cases p.asRead.field <;>
    simp only [Fields.put, Int32.ofInt_add, Int64.ofInt_add, if_true, reduceCtorEq, if_false,
      Int.add_zero]

/-- Cut or not, the sums are the same to the field. -/
theorem storedSum_dvd (field : Field) (qs : List Pair) :
    (match field with | .micros => 0 | _ => 2 ^ 32) ∣ readSum field qs - storedSum field qs := by
  induction qs using List.reverseRecOn with
  | nil => exact dvd_zero _
  | append_singleton qs p ih =>
    rw [readSum_concat, storedSum_concat, add_sub_add_comm]
    refine Int.dvd_add ih ?_
    by_cases hfield : p.asRead.field = field
    · rw [if_pos hfield, if_pos hfield]
      cases field with
      | micros => exact dvd_of_eq (by simp [stored])
      | _ => exact (i32_eq_iff.1 rfl).2
    · rw [if_neg hfield, if_neg hfield]
      exact dvd_zero _

/-- The fields hold the stored sums while these are in range. -/
theorem ofSums_toInt (h : ∀ field, InField field (storedSum field qs)) :
    (ofSums qs).months.toInt = storedSum .months qs ∧ (ofSums qs).days.toInt = storedSum .days qs ∧
      (ofSums qs).micros.toInt = storedSum .micros qs := by
  have hmicros : readSum .micros qs = storedSum .micros qs :=
    sub_eq_zero.1 (zero_dvd_iff.1 (storedSum_dvd .micros qs))
  exact ⟨i32_eq_iff.2 ⟨h .months, storedSum_dvd .months qs⟩,
    i32_eq_iff.2 ⟨h .days, storedSum_dvd .days qs⟩,
    hmicros ▸ toInt_ofInt64 (hmicros ▸ h .micros)⟩

/-- An addition has room when all sums stay in range. -/
theorem room_iff (h : ∀ field, InField field (storedSum field qs)) :
    (ofSums qs).Room p.asRead.field (p.n * p.asRead.k) ↔
      ∀ field, InField field (storedSum field (qs ++ [p])) := by
  obtain ⟨hmonths, hdays, hmicros⟩ := ofSums_toInt h
  have hsame : ∀ {g}, p.asRead.field ≠ g → storedSum g (qs ++ [p]) = storedSum g qs := fun hne => by
    rw [storedSum_concat, if_neg hne, Int.add_zero]
  have hmore : storedSum p.asRead.field (qs ++ [p]) =
      storedSum p.asRead.field qs + stored p.asRead.field (p.n * p.asRead.k) := by
    rw [storedSum_concat, if_pos rfl]
  have hroom : (ofSums qs).Room p.asRead.field (p.n * p.asRead.k) ↔
      InField p.asRead.field (storedSum p.asRead.field (qs ++ [p])) := by
    rw [hmore]
    cases p.asRead.field with
    | months => rw [← hmonths]; rfl
    | days => rw [← hdays]; rfl
    | micros => rw [← hmicros]; rfl
  rw [hroom]
  refine ⟨fun hin g => ?_, fun hall => hall _⟩
  by_cases hg : p.asRead.field = g
  · exact hg ▸ hin
  · rw [hsame hg]
    exact h g

end Sums

/-! ## The run -/

section Run

variable {b : Build} {f : SecMicros} {p : Pair} {ps qs : List Pair}

theorem colon_not_mem_of_int? {s : List Char} {n : Int} (h : int? s = some n) : ':' ∉ s := by
  have hnat : ∀ {l : List Char} {k : Nat}, nat? l = some k → ':' ∉ l := by
    intro l k hl hc
    rw [nat?] at hl
    split at hl
    · next hnum => exact absurd (hnum.2 ':' hc) (by decide)
    · cases hl
  intro hc
  unfold int? at h
  split at h <;> obtain ⟨k, hk, -⟩ := Option.map_eq_some_iff.1 h
  · exact hnat hk (List.mem_of_ne_of_mem (by decide) hc)
  · exact hnat hk (List.mem_of_ne_of_mem (by decide) hc)
  · exact hnat hk hc

/-- What is left of the documented spellings is known, but for `s` and `us`. -/
theorem readUnit_singular (p : Pair) : readUnit (singular p.spelling) =
    if p.lower = "s" ∨ p.lower = "us" then none else some p.asRead := by
  have hall : ∀ u : IntervalUnit, ∀ s ∈ u.spellings,
      readUnit (String.ofList (s.toList.rdropWhile (· == 's'))) =
        if s = "s" ∨ s = "us" then none
        else some (if s = "ms" then IntervalUnit.minute.size else u.size) := by
    intro u
    cases u <;> decide +kernel
  have h := hall p.unit p.lower p.spelled
  rw [Pair.lower, String.toList_ofList] at h
  rw [singular, h]
  rfl

/-- A pair that is refused ends the parse. -/
theorem parse_refused (h : p.Refused) (t : Fields) (rest : List (List Char)) :
    ∃ m, parseTokens b f (p.number :: p.spelling :: rest) t = .error (.bail m) := by
  rw [parseTokens, parseHms_number (colon_not_mem_of_int? p.reads)]
  simp only [bind, Except.bind]
  by_cases hn : InI64 p.n
  · have hunit : readUnit (singular p.spelling) = none := by
      rw [readUnit_singular, if_pos (h.resolve_left (not_not.2 hn))]
    rw [parseI64_of_int? p.reads hn]
    simp only [hunit]
    exact ⟨_, rfl⟩
  · have hnumber : parseI64 p.number = none := by
      simp only [parseI64, p.reads, if_neg hn]
    simp only [hnumber]
    exact ⟨_, rfl⟩

theorem parse_taken (h : ¬ p.Refused) (t : Fields) (rest : List (List Char)) :
    parseTokens b f (p.number :: p.spelling :: rest) t = (do
      let t ← t.add b p.asRead (Int64.ofInt p.n)
      parseTokens b f rest t) := by
  obtain ⟨hn, hunit⟩ := not_or.1 h
  refine parseTokens_pair (colon_not_mem_of_int? p.reads) (parseI64_of_int? p.reads (not_not.1 hn)) ?_ rest
  rw [readUnit_singular, if_neg hunit]

theorem i32_panics (what : String) {n : Int} (h : ¬ InI32 n) :
    ∃ m, Build.debug.i32 what n = .error (.panic m) := ⟨_, if_neg (not_or.2 ⟨h, by decide⟩)⟩

theorem i64_panics (what : String) {n : Int} (h : ¬ InI64 n) :
    ∃ m, Build.debug.i64 what n = .error (.panic m) := ⟨_, if_neg (not_or.2 ⟨h, by decide⟩)⟩

/-- An addition without room stops a debug build. -/
theorem add_panics {t : Fields} {n : Int} {size : Size} (hn : InI64 n)
    (h : ¬ (InI64 (n * size.k) ∧ t.Room size.field (n * size.k))) :
    ∃ m, t.add .debug size (Int64.ofInt n) = .error (.panic m) := by
  obtain ⟨field, k⟩ := size
  rw [Fields.add, toInt_ofInt64 hn]
  by_cases hmul : InI64 (n * k)
  · have hroom : ¬ t.Room field (n * k) := fun hroom => h ⟨hmul, hroom⟩
    have hnarrow : (Int64.ofInt (n * k)).toInt32 = Int32.ofInt (n * k) := Int64.toInt32_ofInt
    rw [Build.i64_ok _ _ hmul]
    simp only [bind, Except.bind]
    cases field with
    | months =>
      obtain ⟨m, hm⟩ := i32_panics "add" (n := t.months.toInt + (Int32.ofInt (n * k)).toInt) hroom
      exact ⟨m, by rw [hnarrow, hm]⟩
    | days =>
      obtain ⟨m, hm⟩ := i32_panics "add" (n := t.days.toInt + (Int32.ofInt (n * k)).toInt) hroom
      exact ⟨m, by rw [hnarrow, hm]⟩
    | micros =>
      obtain ⟨m, hm⟩ := i64_panics "add" (n := t.micros.toInt + n * k) hroom
      exact ⟨m, by rw [toInt_ofInt64 hmul, hm]⟩
  · obtain ⟨m, hm⟩ := i64_panics "multiply" hmul
    exact ⟨m, by rw [hm]; rfl⟩

/-- **A run that fits** ends at the first pair that is refused, or has the sums. -/
theorem run_fits (hq : b = .debug → ∀ field, InField field (storedSum field qs))
    (h : b = .debug → FitsAfter qs ps) :
    (∃ p ∈ ps, p.Refused) ∧ (∃ m, parseTokens b f (ps.flatMap Pair.tokens) (ofSums qs) = .error (.bail m)) ∨
      (∀ p ∈ ps, ¬ p.Refused) ∧
        parseTokens b f (ps.flatMap Pair.tokens) (ofSums qs) = .ok (ofSums (qs ++ ps)) := by
  induction ps generalizing qs with
  | nil => exact Or.inr ⟨by simp, by rw [List.append_nil]; rfl⟩
  | cons p ps ih =>
    by_cases hp : p.Refused
    · exact Or.inl ⟨⟨p, List.mem_cons_self, hp⟩, parse_refused hp _ _⟩
    · have hn : InI64 p.n := not_not.1 (not_or.1 hp).1
      have hfit : b = .debug → InI64 (p.n * p.asRead.k) ∧
          (∀ field, InField field (storedSum field (qs ++ [p]))) ∧ FitsAfter (qs ++ [p]) ps :=
        fun hb => (h hb).resolve_left hp
      have hstep : parseTokens b f ((p :: ps).flatMap Pair.tokens) (ofSums qs) =
          parseTokens b f (ps.flatMap Pair.tokens) (ofSums (qs ++ [p])) := by
        rw [List.flatMap_cons, ofSums_concat]
        refine (parse_taken hp _ _).trans ?_
        rw [add_ok hn fun hb => ⟨(hfit hb).1, (room_iff (hq hb)).2 (hfit hb).2.1⟩]
        rfl
      rw [hstep]
      rcases ih (fun hb => (hfit hb).2.1) (fun hb => (hfit hb).2.2) with ⟨⟨r, hr, href⟩, herr⟩ | ⟨hnone, hok⟩
      · exact Or.inl ⟨⟨r, List.mem_cons_of_mem _ hr, href⟩, herr⟩
      · refine Or.inr ⟨List.forall_mem_cons.2 ⟨hp, hnone⟩, hok.trans ?_⟩
        rw [List.append_assoc, List.singleton_append]

/-- A run that does not fit stops a debug build. -/
theorem run_panics (hq : ∀ field, InField field (storedSum field qs)) (h : ¬ FitsAfter qs ps) :
    ∃ m, parseTokens .debug f (ps.flatMap Pair.tokens) (ofSums qs) = .error (.panic m) := by
  induction ps generalizing qs with
  | nil => exact absurd trivial h
  | cons p ps ih =>
    obtain ⟨hp, h⟩ := not_or.1 h
    have hn : InI64 p.n := not_not.1 (not_or.1 hp).1
    have htaken := parse_taken (b := .debug) (f := f) hp (ofSums qs) (ps.flatMap Pair.tokens)
    by_cases hroom : InI64 (p.n * p.asRead.k) ∧ (ofSums qs).Room p.asRead.field (p.n * p.asRead.k)
    · have hsums := (room_iff hq).1 hroom.2
      obtain ⟨m, hm⟩ := ih hsums fun hrest => h ⟨hroom.1, hsums, hrest⟩
      refine ⟨m, htaken.trans ?_⟩
      rw [add_ok hn fun _ => hroom, ← ofSums_concat]
      exact hm
    · obtain ⟨m, hm⟩ := add_panics hn hroom
      exact ⟨m, by rw [List.flatMap_cons]; exact htaken.trans (by rw [hm]; rfl)⟩

/-- The sums as they are read, and as they are documented. -/
theorem readSum_eq (ps : List Pair) : readSum .months ps = total .months ps ∧
    readSum .days ps = total .days ps ∧
    readSum .micros ps = total .micros ps + 59999000 * milliseconds ps := by
  have hms : ∀ p : Pair, p.lower = "ms" → p.unit = .millisecond := fun p hp => by
    have hspelled : "ms" ∈ p.unit.spellings := hp ▸ p.spelled
    generalize p.unit = u at hspelled
    cases u <;> first | rfl | exact absurd hspelled (by decide)
  induction ps with
  | nil => exact ⟨rfl, rfl, rfl⟩
  | cons p ps ih =>
    obtain ⟨hmonths, hdays, hmicros⟩ := ih
    simp only [readSum, total, milliseconds, List.map_cons, List.sum_cons] at hmonths hdays hmicros ⊢
    rw [hmonths, hdays, hmicros]
    by_cases hp : p.lower = "ms"
    · simp only [Pair.asRead, hp, hms p hp, IntervalUnit.size, if_true, reduceCtorEq, if_false, true_and]
      omega
    · simp only [Pair.asRead, hp, if_false, true_and]
      omega

/-- The sums of a run are the documented ones exactly when these fit. -/
theorem ofSums_exact (ps : List Pair) : ExactOrErr ps (.ok (ofSums ps)) ↔ SumsFit ps := by
  obtain ⟨hmonths, hdays, hmicros⟩ := readSum_eq ps
  have hall : (∀ field, InField field (total field ps)) ↔ InI32 (total .months ps) ∧
      InI32 (total .days ps) ∧ InI64 (total .micros ps) :=
    ⟨fun h => ⟨h .months, h .days, h .micros⟩, fun h field => by
      cases field
      · exact h.1
      · exact h.2.1
      · exact h.2.2⟩
  simp only [ExactOrErr, ofSums, i32_eq_iff, i64_eq_iff, hmonths, hdays, hmicros, SumsFit, hall, sub_self,
    dvd_zero, and_true, add_sub_cancel_left]
  tauto

/-- **When a literal is read exactly or not at all.** -/
theorem exact_iff {s : List Char} (h : splitWhitespace s = ps.flatMap Pair.tokens) :
    ExactOrErr ps (parseIntervalLiteral b f s) ↔ ReadsRight b ps := by
  have hstart : parseIntervalLiteral b f s = parseTokens b f (ps.flatMap Pair.tokens) (ofSums []) := by
    rw [parseIntervalLiteral, splitWhitespace_trim, h]
    rfl
  have hzero : ∀ field, InField field (storedSum field []) := fun field => by
    cases field <;> exact ⟨by decide, by decide⟩
  rw [hstart, ReadsRight]
  by_cases hfit : b = .debug → FitsAfter [] ps
  · rw [and_iff_right hfit]
    rcases run_fits (f := f) (fun _ => hzero) hfit with ⟨⟨p, hp, href⟩, m, hm⟩ | ⟨hnone, hok⟩
    · rw [hm]
      exact iff_of_true ⟨m, rfl⟩ fun hall => absurd href (hall p hp)
    · rw [hok, List.nil_append, ofSums_exact, forall_prop_of_true hnone]
  · have hdebug : b = .debug := by
      by_contra hb
      exact hfit fun h => absurd h hb
    subst hdebug
    obtain ⟨m, hm⟩ := run_panics (f := f) hzero fun h => hfit fun _ => h
    rw [hm]
    refine iff_of_false (fun ⟨m, hcontra⟩ => nomatch hcontra) fun hright => hfit hright.1

end Run

/-- `1 YEAR -3 hrs`. -/
def yearLessHours : List Pair :=
  [⟨"1".toList, "YEAR".toList, 1, .year, by decide +kernel, by decide +kernel⟩,
    ⟨"-3".toList, "hrs".toList, -3, .hour, by decide +kernel, by decide +kernel⟩]

theorem exact_iff_yearLessHours : (ReadsRight .debug yearLessHours ∧
      ExactOrErr yearLessHours (parseIntervalLiteral .debug (fun _ => none) " 1 YEAR  -3 hrs".toList)) ∧
    ReadsRight .release yearLessHours ∧
      ExactOrErr yearLessHours (parseIntervalLiteral .release (fun _ => none) " 1 YEAR  -3 hrs".toList) := by
  have hright : ∀ b, ReadsRight b yearLessHours := by
    refine fun b => ⟨fun _ => ?_, fun _ => ⟨fun field => ?_, by decide +kernel⟩⟩
    · refine Or.inr ⟨by decide +kernel, fun field => ?_, Or.inr ⟨by decide +kernel, fun field => ?_, trivial⟩⟩
      · cases field <;> exact ⟨by decide +kernel, by decide +kernel⟩
      · cases field <;> exact ⟨by decide +kernel, by decide +kernel⟩
    · cases field <;> exact ⟨by decide +kernel, by decide +kernel⟩
  have h := fun b => (exact_iff (b := b) (f := fun _ => none) (s := " 1 YEAR  -3 hrs".toList)
    (by decide +kernel)).2 (hright b)
  exact ⟨⟨hright _, h _⟩, hright _, h _⟩

/-- `5 ms`. -/
def fiveMs : Pair := ⟨"5".toList, "ms".toList, 5, .millisecond, by decide +kernel, by decide +kernel⟩

/-- **Five milliseconds** are read as five minutes. -/
theorem milliseconds_read_as_minutes : ¬ ∀ b f s ps, splitWhitespace s = ps.flatMap Pair.tokens →
    ExactOrErr ps (parseIntervalLiteral b f s) := by
  intro h
  have hexact := h .debug (fun _ => none) "5 ms".toList [fiveMs] (by decide +kernel)
  have hparse : parseIntervalLiteral .debug (fun _ => none) "5 ms".toList = .ok ⟨0, 0, 300000000⟩ := by
    decide +kernel
  rw [hparse] at hexact
  exact absurd hexact.2.2 (by decide +kernel)

end Ccdb.Interval
