import Ccdb.Lib.Decimal
import Mathlib.Data.Nat.Log
import Mathlib.Tactic.Ring

/-!
# Double precision numbers and their texts

The doubles from zero to infinity, in the order of their bits, as multiples of the smallest
one: the double nearest to a fraction, and the shortest decimal fraction that is nearest to
a double.

Main results:

* `nearest_scaled` — a double is nearest to itself.
* `isNumeral_writeWhole`, `readFraction_writeFraction` — what is written of a double.
-/

namespace Ccdb.Binary64

open Decimal

/-! ## Rounding -/

def infinity : Nat := 2047 * 2 ^ 52

/-- The digits after the point that every double has enough of. -/
def places : Nat := 1074

/-- One, in units of the smallest double. -/
def one : Nat := 2 ^ places

/-- The value of a finite double in units of the smallest. -/
def scaled (x : Nat) : Nat :=
  if x / 2 ^ 52 = 0 then x else (2 ^ 52 + x % 2 ^ 52) * 2 ^ (x / 2 ^ 52 - 1)

/-- The whole number nearest to `a / d`, the even one of two. -/
def roundHalfEven (a d : Nat) : Nat :=
  if 2 * (a % d) < d ∨ 2 * (a % d) = d ∧ a / d % 2 = 0 then a / d else a / d + 1

/-- The double nearest to `a / d` units. The bits that are carried go to the exponent. -/
def nearest (a d : Nat) : Nat :=
  let s := (a / d).log2 - 52
  min (s * 2 ^ 52 + roundHalfEven a (d * 2 ^ s)) infinity

/-- The double nearest to `n / 10 ^ k`. -/
def ofDecimal (n k : Nat) : Nat := nearest (n * one) (10 ^ k)

/-- The value is a whole number. -/
def IsWhole (x : Nat) : Prop := one ∣ scaled x

instance (x : Nat) : Decidable (IsWhole x) := inferInstanceAs (Decidable (_ ∣ _))

/-! ## The shortest text -/

/-- The whole numbers on both sides of `a / d`, the nearer first. -/
def candidates (a d : Nat) : List Nat :=
  if 2 * (a % d) < d then [a / d, a / d + 1] else [a / d + 1, a / d]

/-- With as many zeros at the end as there can be. -/
def shortestWhole (x : Nat) : Option (Nat × Nat) :=
  (List.range 309).reverse.findSome? fun j =>
    ((candidates (scaled x) (one * 10 ^ j)).find? fun n => ofDecimal (n * 10 ^ j) 0 = x).map (·, j)

/-- With as few digits after the point as there can be. -/
def shortestFraction (x : Nat) : Option (Nat × Nat) :=
  (List.range' 1 places).findSome? fun k =>
    ((candidates (scaled x * 10 ^ k) one).find? fun n => ofDecimal n k = x).map (·, k)

def writeWhole (x : Nat) : List Char :=
  if x = 0 then ['0']
  else ((shortestWhole x).map fun p => digits p.1 ++ List.replicate p.2 '0').getD []

/-- The digits before and after the point. -/
def writeFraction (x : Nat) : Option (List Char × List Char) :=
  (shortestFraction x).map fun p =>
    (digits (p.1 / 10 ^ p.2),
      List.replicate (p.2 - (digits (p.1 % 10 ^ p.2)).length) '0' ++ digits (p.1 % 10 ^ p.2))

/-- The double nearest to what is written with these digits. -/
def readFraction (whole fraction : List Char) : Nat :=
  ofDecimal (value (whole ++ fraction)) fraction.length

/-! ## A double is nearest to itself -/

section Exact

variable {x : Nat}

theorem roundHalfEven_mul {q d : Nat} (hd : 0 < d) : roundHalfEven (q * d) d = q := by
  rw [roundHalfEven, Nat.mul_mod_left, if_pos (Or.inl hd), Nat.mul_div_cancel q hd]

theorem log2_sub {n s : Nat} (hlt : n < 2 ^ (53 + s)) (hle : s = 0 ∨ 2 ^ (52 + s) ≤ n) :
    n.log2 - 52 = s := by
  rcases Nat.eq_zero_or_pos n with rfl | hpos
  · rcases hle with rfl | hle
    · rfl
    · exact absurd hle (Nat.not_le.2 (Nat.two_pow_pos _))
  · have h1 : n.log2 < 53 + s := (Nat.log2_lt hpos.ne').2 hlt
    rcases hle with rfl | hle
    · omega
    · have h2 : 52 + s ≤ n.log2 := (Nat.le_log2 hpos.ne').2 hle
      omega

/-- A double is nearest to itself. -/
theorem nearest_scaled (hx : x < infinity) {d : Nat} (hd : 0 < d) : nearest (scaled x * d) d = x := by
  have hmod : x % 2 ^ 52 < 2 ^ 52 := Nat.mod_lt _ (Nat.two_pow_pos 52)
  have hdiv : 2 ^ 52 * (x / 2 ^ 52) + x % 2 ^ 52 = x := Nat.div_add_mod x (2 ^ 52)
  have hmin : min x infinity = x := Nat.min_eq_left hx.le
  rw [nearest, Nat.mul_div_cancel _ hd]
  by_cases h0 : x / 2 ^ 52 = 0
  · have hs : (scaled x).log2 - 52 = 0 := by
      rw [scaled, if_pos h0]
      exact log2_sub (by omega) (.inl rfl)
    rw [hs, pow_zero, Nat.mul_one, roundHalfEven_mul hd, scaled, if_pos h0]
    omega
  · obtain ⟨e, he⟩ := Nat.exists_eq_succ_of_ne_zero h0
    have hscaled : scaled x = (2 ^ 52 + x % 2 ^ 52) * 2 ^ e := by
      rw [scaled, if_neg h0, he, Nat.succ_sub_one]
    have hs : (scaled x).log2 - 52 = e := by
      rw [hscaled]
      refine log2_sub ?_ (.inr ?_)
      · rw [pow_add]
        exact Nat.mul_lt_mul_of_pos_right (by omega) (Nat.two_pow_pos e)
      · rw [pow_add]
        exact Nat.mul_le_mul_right _ (Nat.le_add_right _ _)
    rw [hs, hscaled, Nat.mul_assoc, Nat.mul_comm (2 ^ e) d, roundHalfEven_mul (Nat.mul_pos hd (Nat.two_pow_pos e)),
      show e * 2 ^ 52 + (2 ^ 52 + x % 2 ^ 52) = x by omega, hmin]

/-- The exponent grows with the units. -/
theorem le_nearest {a e : Nat} (h : 2 ^ (52 + e) ≤ a) (he : e ≤ 2047) : e * 2 ^ 52 ≤ nearest a 1 := by
  have hne : a ≠ 0 := ((Nat.two_pow_pos _).trans_le h).ne'
  have hlog : e ≤ (a / 1).log2 - 52 := by
    rw [Nat.div_one]
    exact Nat.le_sub_of_add_le' ((Nat.le_log2 hne).2 h)
  rw [nearest]
  exact le_min ((Nat.mul_le_mul_right _ hlog).trans (Nat.le_add_right _ _)) (Nat.mul_le_mul_right _ he)

end Exact

/-! ## What is written -/

section Written

variable {x : Nat}

theorem div_mem_candidates (a d : Nat) : a / d ∈ candidates a d := by
  rw [candidates]
  split
  · exact List.mem_cons_self
  · exact List.mem_cons_of_mem _ List.mem_cons_self

theorem find_candidates {a d : Nat} {p : Nat → Bool} (h : p (a / d)) :
    ((candidates a d).find? p).isSome :=
  List.find?_isSome.2 ⟨a / d, div_mem_candidates a d, h⟩

theorem shortestWhole_isSome (hx : x < infinity) (h : IsWhole x) : (shortestWhole x).isSome := by
  have hread : ofDecimal (scaled x / one) 0 = x := by
    rw [ofDecimal, pow_zero, Nat.div_mul_cancel h]
    have := nearest_scaled hx Nat.one_pos
    rwa [Nat.mul_one] at this
  refine List.findSome?_isSome_iff.2 ⟨0, List.mem_reverse.2 (List.mem_range.2 (by decide)), ?_⟩
  rw [Option.isSome_map]
  refine find_candidates ?_
  simp only [pow_zero, Nat.mul_one, decide_eq_true_eq]
  exact hread

/-- The digits of a whole number. -/
theorem isNumeral_writeWhole (hx : x < infinity) (h : IsWhole x) : IsNumeral (writeWhole x) := by
  rw [writeWhole]
  split
  · exact ⟨List.cons_ne_nil _ _, fun c hc => by rw [List.mem_singleton.1 hc]; rfl⟩
  · obtain ⟨p, hp⟩ := Option.isSome_iff_exists.1 (shortestWhole_isSome hx h)
    rw [hp, Option.map_some, Option.getD_some]
    have hd := isNumeral_digits p.1
    refine ⟨by simp [hd.1], fun c hc => ?_⟩
    rcases List.mem_append.1 hc with hc | hc
    · exact hd.2 c hc
    · rw [List.eq_of_mem_replicate hc]
      rfl

theorem shortestFraction_isSome (hx : x < infinity) : (shortestFraction x).isSome := by
  have hone : one * 5 ^ places = 10 ^ places := by
    rw [one, ← Nat.mul_pow]
  have hpos : 0 < one := Nat.two_pow_pos _
  have hread : ofDecimal (scaled x * 10 ^ places / one) places = x := by
    rw [ofDecimal, ← hone, Nat.mul_left_comm, Nat.mul_div_cancel_left _ hpos, Nat.mul_assoc,
      Nat.mul_comm (5 ^ places) one, nearest_scaled hx (Nat.mul_pos hpos (Nat.pow_pos (by decide)))]
  refine List.findSome?_isSome_iff.2 ⟨places, List.mem_range'_1.2 (by decide), ?_⟩
  rw [Option.isSome_map]
  refine find_candidates ?_
  rw [decide_eq_true_eq]
  exact hread

/-- A fraction is read as the double it is written for. -/
theorem readFraction_writeFraction (hx : x < infinity) : ∃ whole fraction,
    writeFraction x = some (whole, fraction) ∧ IsNumeral whole ∧ IsNumeral fraction ∧
      readFraction whole fraction = x := by
  obtain ⟨⟨n, k⟩, hp⟩ := Option.isSome_iff_exists.1 (shortestFraction_isSome hx)
  obtain ⟨j, hj, hfound⟩ := List.exists_of_findSome?_eq_some hp
  obtain ⟨m, hm, hmk⟩ := Option.map_eq_some_iff.1 hfound
  cases hmk
  have hread : ofDecimal n k = x := by
    have := List.find?_some hm
    rwa [decide_eq_true_eq] at this
  have hk : 0 < k := (List.mem_range'_1.1 hj).1
  have hlen : (digits (n % 10 ^ k)).length ≤ k :=
    (Nat.length_toDigits_le_iff (by decide) hk).2 (Nat.mod_lt _ (Nat.pow_pos (by decide)))
  refine ⟨_, _, by rw [writeFraction, hp, Option.map_some], isNumeral_digits _,
    (isNumeral_digits _).zeros _, ?_⟩
  have hfull : (List.replicate (k - (digits (n % 10 ^ k)).length) '0' ++ digits (n % 10 ^ k)).length = k := by
    rw [List.length_append, List.length_replicate]
    omega
  rw [readFraction, hfull, value_append, hfull, value_zeros, value_digits, value_digits,
    Nat.div_add_mod, hread]

end Written

/-- `1`, with no zero at the end that is not its own. -/
theorem writeWhole_one : writeWhole 0x3FF0000000000000 = ['1'] := by
  have hscaled : scaled 0x3FF0000000000000 = one := by decide +kernel
  have hlarger : ∀ j, ((candidates one (one * 10 ^ (j + 1))).find? fun n =>
      ofDecimal (n * 10 ^ (j + 1)) 0 = 0x3FF0000000000000) = none := by
    intro j
    have hten : 2 ^ 2 ≤ 10 ^ (j + 1) := le_trans (by decide) (Nat.le_self_pow (Nat.succ_ne_zero j) 10)
    have hone : 0 < one := Nat.two_pow_pos _
    have hdouble : 2 * one < one * 10 ^ (j + 1) := by
      rw [Nat.mul_comm]
      exact (Nat.mul_lt_mul_left hone).2 (by omega)
    have hlt : one < one * 10 ^ (j + 1) :=
      (Nat.le_mul_of_pos_left _ Nat.two_pos).trans_lt hdouble
    have hnear : 1024 * 2 ^ 52 ≤ nearest (10 ^ (j + 1) * one) 1 := by
      refine le_nearest ?_ (by decide)
      rw [show 52 + 1024 = 2 + places from rfl, Nat.pow_add]
      exact Nat.mul_le_mul_right _ hten
    rw [candidates, Nat.mod_eq_of_lt hlt, Nat.div_eq_of_lt hlt, if_pos hdouble]
    have hzero : ofDecimal 0 0 ≠ 0x3FF0000000000000 := by decide +kernel
    have hpower : ofDecimal (10 ^ (j + 1)) 0 ≠ 0x3FF0000000000000 := by
      rw [ofDecimal, pow_zero]
      omega
    simp [hzero, hpower]
  have hshortest : shortestWhole 0x3FF0000000000000 = some (1, 0) := by
    rw [shortestWhole, List.range_succ_eq_map, List.reverse_cons, List.findSome?_append, hscaled,
      List.findSome?_eq_none_iff.2 fun j hj => ?_]
    · decide +kernel
    · obtain ⟨i, -, rfl⟩ := List.mem_map.1 (List.mem_reverse.1 hj)
      rw [hlarger, Option.map_none]
  rw [writeWhole, if_neg (by decide), hshortest]
  rfl

end Ccdb.Binary64
