import Mathlib

/-!
# Decimal numerals

Numerals as lists of characters: the digits of a number, with a sign and padded with
zeros, and the number a text stands for.

Main results:

* `int?_text`, `int?_padded` — what is written is read back.
-/

namespace Ccdb.Decimal

/-- The text is a digit at least, and nothing else. -/
def IsNumeral (l : List Char) : Prop := l ≠ [] ∧ ∀ c ∈ l, c.isDigit

instance (l : List Char) : Decidable (IsNumeral l) := @instDecidableAnd _ _ _ (List.decidableBAll _ l)

def value (l : List Char) : Nat := Nat.ofDigitChars 10 l 0

def digits (n : Nat) : List Char := Nat.toDigits 10 n

def nat? (l : List Char) : Option Nat := if IsNumeral l then some (value l) else none

/-- The number of a numeral with an optional sign. -/
def int? : List Char → Option Int
  | '-' :: l => (nat? l).map fun n : Nat => -(n : Int)
  | '+' :: l => (nat? l).map (Nat.cast (R := Int))
  | l => (nat? l).map (Nat.cast (R := Int))

/-- The sign of a number, before its digits. -/
def signed (neg : Bool) (l : List Char) : List Char := if neg then '-' :: l else l

def text (n : Int) : List Char := signed (n < 0) (digits n.natAbs)

/-- The text with zeros after the sign, up to a width. -/
def padded (width : Nat) (n : Int) : List Char :=
  let l := digits n.natAbs
  signed (n < 0) (List.replicate (width - (signed (n < 0) l).length) '0' ++ l)

section Numerals

variable {l : List Char} {n : Nat}

theorem isNumeral_digits (n : Nat) : IsNumeral (digits n) :=
  ⟨Nat.toDigits_ne_nil, fun _ hc => Nat.isDigit_of_mem_toDigits (by decide) (by decide) hc⟩

@[simp] theorem value_digits (n : Nat) : value (digits n) = n := Nat.ofDigitChars_ten_toDigits

@[simp] theorem value_zeros (k : Nat) (l : List Char) : value (List.replicate k '0' ++ l) = value l := by
  rw [value, Nat.ofDigitChars_append, Nat.ofDigitChars_replicate_zero, Nat.mul_zero, value]

theorem IsNumeral.zeros (h : IsNumeral l) (k : Nat) : IsNumeral (List.replicate k '0' ++ l) := by
  refine ⟨by simp [h.1], fun c hc => ?_⟩
  rcases List.mem_append.1 hc with hc | hc
  · rw [List.eq_of_mem_replicate hc]
    rfl
  · exact h.2 c hc

theorem value_append (l m : List Char) : value (l ++ m) = 10 ^ m.length * value l + value m := by
  rw [value, Nat.ofDigitChars_append, Nat.ofDigitChars_eq_ofDigitChars_zero]
  rfl

theorem nat?_of_isNumeral (h : IsNumeral l) : nat? l = some (value l) := if_pos h

theorem IsNumeral.head_ne (h : IsNumeral l) {c : Char} (hc : c.isDigit = false) {m : List Char} :
    l ≠ c :: m := by
  rintro rfl
  rw [h.2 c List.mem_cons_self] at hc
  cases hc

/-- A numeral with a sign or without. -/
theorem int?_signed (h : IsNumeral l) (neg : Bool) :
    int? (signed neg l) = some (if neg then -(value l : Int) else value l) := by
  cases neg with
  | true => simp [signed, int?, nat?_of_isNumeral h]
  | false =>
    rw [signed, if_neg Bool.false_ne_true, int?]
    · rw [nat?_of_isNumeral h]
      rfl
    · exact fun m hm => h.head_ne rfl hm
    · exact fun m hm => h.head_ne rfl hm

theorem sign_natAbs (n : Int) : (if decide (n < 0) then -(n.natAbs : Int) else n.natAbs) = n := by
  by_cases h : n < 0
  · rw [if_pos (decide_eq_true h)]
    omega
  · rw [if_neg (by simp [h])]
    omega

@[simp] theorem int?_text (n : Int) : int? (text n) = some n := by
  rw [text, int?_signed (isNumeral_digits _), value_digits, sign_natAbs]

@[simp] theorem int?_padded (width : Nat) (n : Int) : int? (padded width n) = some n := by
  rw [padded, int?_signed ((isNumeral_digits _).zeros _), value_zeros, value_digits, sign_natAbs]

/-- A number without a sign. -/
theorem text_natCast (n : Nat) : text n = digits n := by
  have h : decide ((n : Int) < 0) = false := decide_eq_false (Int.not_lt.2 (Int.natCast_nonneg n))
  rw [text, h, Int.natAbs_natCast, signed, if_neg Bool.false_ne_true]

theorem mem_signed {neg : Bool} {c : Char} (hc : c ∈ signed neg l) : c = '-' ∨ c ∈ l := by
  cases neg with
  | true => exact List.mem_cons.1 hc
  | false => exact Or.inr hc

theorem mem_text {n : Int} {c : Char} (hc : c ∈ text n) : c = '-' ∨ c.isDigit :=
  (mem_signed hc).imp_right ((isNumeral_digits _).2 c)

theorem mem_padded {width : Nat} {n : Int} {c : Char} (hc : c ∈ padded width n) :
    c = '-' ∨ c.isDigit :=
  (mem_signed hc).imp_right (((isNumeral_digits _).zeros _).2 c)

theorem signed_ne_nil {neg : Bool} (h : l ≠ []) : signed neg l ≠ [] := by
  cases neg with
  | true => exact List.cons_ne_nil _ _
  | false => exact h

theorem text_ne_nil (n : Int) : text n ≠ [] := signed_ne_nil (isNumeral_digits _).1

theorem padded_ne_nil (width : Nat) (n : Int) : padded width n ≠ [] :=
  signed_ne_nil ((isNumeral_digits _).zeros _).1

end Numerals

end Ccdb.Decimal
