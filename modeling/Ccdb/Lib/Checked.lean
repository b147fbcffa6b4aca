import Ccdb.Lib.Layout

/-!
# Ccdb — slices and words that panic

Indexing, slicing and `usize` arithmetic on a 64-bit machine, with the panics they end
in: an index or a range that is out of bounds, a sum or a difference that does not
fit. A definition that uses these is total in Lean, and a run of it panics exactly
where the program does.

Main results:

* `readAt_eq` — a field that lies inside the slice is read without a panic.
-/

namespace Ccdb.Checked

variable {α : Type}

/-! ## `usize` -/

/-- `usize` values are below this. -/
def USIZE : Nat := 2 ^ 64

/-- `n as usize` of a signed integer: the sign is extended. -/
def asUsize (n : Int) : Nat := (n % 2 ^ 64).toNat

/-- `a + b`. -/
def addUsize (a b : Nat) : Except DbError Nat :=
  if a + b < USIZE then .ok (a + b) else .error (.panic "attempt to add with overflow")

/-- `a - b`. -/
def subUsize (a b : Nat) : Except DbError Nat :=
  if b ≤ a then .ok (a - b) else .error (.panic "attempt to subtract with overflow")

theorem addUsize_ok {a b : Nat} (h : a + b < USIZE) : addUsize a b = .ok (a + b) := if_pos h

theorem subUsize_ok {a b : Nat} (h : b ≤ a) : subUsize a b = .ok (a - b) := if_pos h

theorem asUsize_of_nonneg {n : Int} (h : 0 ≤ n) (hlt : n < 2 ^ 64) : asUsize n = n.toNat := by
  rw [asUsize, Int.emod_eq_of_lt h hlt]

/-- A negative number of 32 bits or fewer is at the far end of the range. -/
theorem asUsize_of_neg {n : Int} (h : n < 0) (hlt : -2 ^ 31 ≤ n) : 2 ^ 64 - 2 ^ 31 ≤ asUsize n := by
  have hmod : n % 2 ^ 64 = n + 2 ^ 64 := by
    rw [← Int.add_emod_right, Int.emod_eq_of_lt (by omega) (by omega)]
  rw [asUsize, hmod]
  omega

/-! ## Slices -/

/-- `data[i]`. -/
def index (data : List α) (i : Nat) : Except DbError α :=
  match data[i]? with
  | some a => .ok a
  | none => .error (.panic "index out of bounds")

/-- `&data[lo..hi]`. -/
def slice (data : List α) (lo hi : Nat) : Except DbError (List α) :=
  if lo ≤ hi ∧ hi ≤ data.length then .ok ((data.drop lo).take (hi - lo))
  else .error (.panic "slice index out of range")

/-- `&data[lo..]`. -/
def sliceFrom (data : List α) (lo : Nat) : Except DbError (List α) :=
  if lo ≤ data.length then .ok (data.drop lo)
  else .error (.panic "slice index out of range")

/-- What `unwrap` makes of an `Err`. -/
def unwrapFailed : DbError := .panic "called `Result::unwrap()` on an `Err` value"

/-- `<[u8; width]>::try_from`, `fail` on a slice of another length. -/
def tryInto (width : Nat) (fail : DbError) (data : Bytes) : Except DbError Bytes :=
  if data.length = width then .ok data else .error fail

/-- `T::from_le_bytes(data[lo..lo + width].try_into())`. -/
def readAt (f : Field α) (fail : DbError) (data : Bytes) (lo : Nat) : Except DbError α := do
  let range ← slice data lo (lo + f.width)
  let array ← tryInto f.width fail range
  return f.dec array

theorem index_ok {data : List α} {i : Nat} (d : α) (h : i < data.length) :
    index data i = .ok (data.getD i d) := by
  rw [index, List.getElem?_eq_getElem h, List.getD_eq_getElem?_getD, List.getElem?_eq_getElem h]
  rfl

theorem slice_ok {data : List α} {lo hi : Nat} (h : lo ≤ hi) (hhi : hi ≤ data.length) :
    slice data lo hi = .ok ((data.drop lo).take (hi - lo)) := if_pos ⟨h, hhi⟩

theorem sliceFrom_ok {data : List α} {lo : Nat} (h : lo ≤ data.length) :
    sliceFrom data lo = .ok (data.drop lo) := if_pos h

theorem readAt_eq (f : Field α) (fail : DbError) {data : Bytes} {lo : Nat}
    (h : lo + f.width ≤ data.length) : readAt f fail data lo = .ok (f.read data lo) := by
  have hlen : ((data.drop lo).take f.width).length = f.width := by
    rw [List.length_take, List.length_drop]
    omega
  rw [readAt, slice_ok (by omega) h, Nat.add_sub_cancel_left]
  simp only [bind, Except.bind, tryInto, if_pos hlen]
  rfl

end Ccdb.Checked
