import Mathlib.Data.Nat.Basic
import Mathlib.Data.List.Basic

/-!
# Ccdb — fields packed into bytes

Single bits and two-bit fields of a byte, read and written with the shifts and
masks a C-like program uses for bitmaps and status maps. Everything about longer
strings of them rests on the facts about one byte.

Main results:

* `bit_setBit` — setting a bit changes that bit only.
* `ext_bit` — a byte is its eight bits.
* `crumb_setCrumb` — a two-bit field that was set is read back, the other three
  of the byte stay.
-/

namespace Ccdb.Bits

/-! ## Bits -/

/-- `b & (1 << k) != 0`. -/
def bit (b : UInt8) (k : Nat) : Bool := (b &&& (1 <<< UInt8.ofNat k)) != 0

/-- `b | (1 << k)`. -/
def setBit (b : UInt8) (k : Nat) : UInt8 := b ||| (1 <<< UInt8.ofNat k)

theorem toBitVec_mask {k : Nat} (hk : k < 8) :
    ((1 : UInt8) <<< UInt8.ofNat k).toBitVec = BitVec.twoPow 8 k := by
  have hall : ∀ k ∈ List.range 8,
      ((1 : UInt8) <<< UInt8.ofNat k).toBitVec = BitVec.twoPow 8 k := by decide
  exact hall k (List.mem_range.2 hk)

theorem getLsbD_eq_bit (b : UInt8) {k : Nat} (hk : k < 8) : b.toBitVec.getLsbD k = bit b k := by
  have hand : (b &&& (1 <<< UInt8.ofNat k)).toBitVec =
      if b.toBitVec.getLsbD k then BitVec.twoPow 8 k else 0#8 := by
    rw [UInt8.toBitVec_and, toBitVec_mask hk, BitVec.and_twoPow]
  have hne : BitVec.twoPow 8 k ≠ 0#8 := by
    intro h
    have hbit := congrArg (fun x : BitVec 8 => x.getLsbD k) h
    simp [hk] at hbit
  rw [bit, Bool.eq_iff_iff, bne_iff_ne, ne_eq, ← UInt8.toBitVec_inj, hand]
  by_cases hb : b.toBitVec.getLsbD k
  · rw [if_pos hb]
    exact iff_of_true hb hne
  · rw [if_neg hb]
    exact iff_of_false hb fun h => h rfl

theorem bit_setBit (b : UInt8) {j k : Nat} (hj : j < 8) (hk : k < 8) :
    bit (setBit b j) k = (decide (j = k) || bit b k) := by
  rw [← getLsbD_eq_bit _ hk, ← getLsbD_eq_bit _ hk, setBit, UInt8.toBitVec_or, toBitVec_mask hj,
    BitVec.getLsbD_or, BitVec.getLsbD_twoPow, decide_eq_true hj, Bool.true_and, Bool.or_comm]

theorem bit_zero {k : Nat} (hk : k < 8) : bit 0 k = false := by
  have hall : ∀ k ∈ List.range 8, bit 0 k = false := by decide
  exact hall k (List.mem_range.2 hk)

/-- The bits of a byte that was built by setting some of them. -/
theorem bit_foldl_setBit (c : Nat → Prop) [DecidablePred c] {k : Nat} (hk : k < 8) :
    ∀ (l : List Nat) (acc : UInt8), (∀ j ∈ l, j < 8) →
      bit (l.foldl (fun acc j => if c j then setBit acc j else acc) acc) k =
        (bit acc k || decide (k ∈ l ∧ c k))
  | [], acc, _ => by simp
  | j :: l, acc, hl => by
    have hj := hl j List.mem_cons_self
    have ih := bit_foldl_setBit c hk l (if c j then setBit acc j else acc)
      fun x hx => hl x (List.mem_cons_of_mem j hx)
    rw [List.foldl_cons, ih]
    by_cases hc : c j
    · rw [if_pos hc, bit_setBit acc hj hk]
      by_cases hjk : j = k
      · subst hjk
        simp [hc]
      · simp [hjk, Ne.symm hjk]
    · rw [if_neg hc]
      by_cases hjk : j = k
      · subst hjk
        simp [hc]
      · simp [Ne.symm hjk]

/-- Bytes with the same bits are equal. -/
theorem ext_bit {a b : UInt8} (h : ∀ k, k < 8 → bit a k = bit b k) : a = b := by
  refine UInt8.toBitVec_inj.1 (BitVec.eq_of_getLsbD_eq fun k hk => ?_)
  rw [getLsbD_eq_bit a hk, getLsbD_eq_bit b hk]
  exact h k hk

/-! ## Two-bit fields -/

/-- `(b >> shift) & 0b11`. -/
def crumb (b : UInt8) (shift : UInt8) : UInt8 := (b >>> shift) &&& 3

/-- `(b & !(0b11 << shift)) | (v << shift)`. -/
def setCrumb (b : UInt8) (shift v : UInt8) : UInt8 := (b &&& ~~~(3 <<< shift)) ||| (v <<< shift)

/-- The shift of the `k`-th field of a byte. -/
def crumbShift (k : Nat) : UInt8 := UInt8.ofNat (k * 2)

theorem crumb_and (x y shift : UInt8) : crumb (x &&& y) shift = crumb x shift &&& crumb y shift := by
  refine UInt8.toBitVec_inj.1 (BitVec.eq_of_getLsbD_eq fun i _ => ?_)
  simp only [crumb, UInt8.shiftRight_and, UInt8.toBitVec_and, BitVec.getLsbD_and]
  cases (UInt8.toBitVec 3).getLsbD i <;> simp

theorem crumb_or (x y shift : UInt8) : crumb (x ||| y) shift = crumb x shift ||| crumb y shift := by
  refine UInt8.toBitVec_inj.1 (BitVec.eq_of_getLsbD_eq fun i _ => ?_)
  simp only [crumb, UInt8.shiftRight_or, UInt8.toBitVec_and, UInt8.toBitVec_or, BitVec.getLsbD_and,
    BitVec.getLsbD_or]
  rw [Bool.and_or_distrib_right]

theorem crumb_mask {j k : Nat} (hj : j < 4) (hk : k < 4) :
    crumb (~~~(3 <<< crumbShift j)) (crumbShift k) = if j = k then 0 else 3 := by
  have hall : ∀ j ∈ List.range 4, ∀ k ∈ List.range 4,
      crumb (~~~(3 <<< crumbShift j)) (crumbShift k) = if j = k then 0 else 3 := by decide
  exact hall j (List.mem_range.2 hj) k (List.mem_range.2 hk)

theorem crumb_shifted {j k : Nat} (hj : j < 4) (hk : k < 4) {v : UInt8} (hv : v.toNat < 4) :
    crumb (v <<< crumbShift j) (crumbShift k) = if j = k then v else 0 := by
  have hall : ∀ j ∈ List.range 4, ∀ k ∈ List.range 4, ∀ n ∈ List.range 4,
      crumb (UInt8.ofNat n <<< crumbShift j) (crumbShift k) =
        if j = k then UInt8.ofNat n else 0 := by decide
  have h := hall j (List.mem_range.2 hj) k (List.mem_range.2 hk) v.toNat (List.mem_range.2 hv)
  rwa [UInt8.ofNat_toNat] at h

theorem crumb_setCrumb (b : UInt8) {j k : Nat} (hj : j < 4) (hk : k < 4) {v : UInt8}
    (hv : v.toNat < 4) :
    crumb (setCrumb b (crumbShift j) v) (crumbShift k) =
      if j = k then v else crumb b (crumbShift k) := by
  rw [setCrumb, crumb_or, crumb_and, crumb_mask hj hk, crumb_shifted hj hk hv]
  by_cases hjk : j = k
  · rw [if_pos hjk, if_pos hjk, if_pos hjk, UInt8.and_zero, UInt8.zero_or]
  · rw [if_neg hjk, if_neg hjk, if_neg hjk, UInt8.or_zero, crumb, UInt8.and_assoc, UInt8.and_self]

theorem crumb_zero {k : Nat} (hk : k < 4) : crumb 0 (crumbShift k) = 0 := by
  have hall : ∀ k ∈ List.range 4, crumb 0 (crumbShift k) = 0 := by decide
  exact hall k (List.mem_range.2 hk)

end Ccdb.Bits
