import Mathlib

/-!
# Ccdb — bytes and errors

Shared vocabulary of the storage modules: byte strings, the little-endian
integer layout of the on-disk formats (`to_le_bytes` / `from_le_bytes`),
and the outcomes a fallible function of the engine can have besides `Ok`.

Main results:

* `fromLe_toLe` — decoding a `w`-byte little-endian number gives it back
  modulo `256 ^ w`.
-/

namespace Ccdb

/-- `Vec<u8>` / `&[u8]`. -/
abbrev Bytes := List UInt8

/-- What a fallible function returns instead of a value.

* `bail` — an `anyhow` error with its text; where the text has a value as `{:?}` prints
  it, `repr` prints it here;
* `io` — an error of the operating system under `DiskManager`;
* `panic` — a failed `unwrap` / `expect`;
* `diverge` — a loop that has visited more pages than exist, so it never ends. -/
inductive DbError where
  | bail (msg : String)
  | io (what : String)
  | panic (msg : String)
  | diverge
deriving DecidableEq, Repr

/-- Two threads, for the schedules of the examples. -/
theorem neZero_two : NeZero 2 := ⟨by decide⟩

theorem mapM_ok {ε α β : Type} {f : α → Except ε β} {g : α → β} :
    ∀ {l : List α}, (∀ a ∈ l, f a = .ok (g a)) → l.mapM f = .ok (l.map g)
  | [], _ => rfl
  | a :: l, h => by
    rw [List.mapM_cons, h a List.mem_cons_self, mapM_ok fun b hb => h b (List.mem_cons_of_mem _ hb)]
    rfl

/-! ## Little-endian integers -/

/-- `to_le_bytes` of a `w`-byte unsigned integer. -/
def toLe : Nat → Nat → Bytes
  | 0, _ => []
  | w + 1, n => UInt8.ofNat (n % 256) :: toLe w (n / 256)

/-- `from_le_bytes`. -/
def fromLe : Bytes → Nat
  | [] => 0
  | b :: rest => b.toNat + 256 * fromLe rest

@[simp] theorem toLe_length (w n : Nat) : (toLe w n).length = w := by
  induction w generalizing n with
  | zero => rfl
  | succ w ih => simp [toLe, ih]

theorem fromLe_toLe (w n : Nat) : fromLe (toLe w n) = n % 256 ^ w := by
  induction w generalizing n with
  | zero => simp [toLe, fromLe, Nat.mod_one]
  | succ w ih =>
    have hb : (UInt8.ofNat (n % 256)).toNat = n % 256 := by
      simp [UInt8.toNat_ofNat']
    rw [toLe, fromLe, ih, hb, pow_succ, Nat.mul_comm (256 ^ w) 256, Nat.mod_mul]

theorem fromLe_lt (bs : Bytes) : fromLe bs < 256 ^ bs.length := by
  induction bs with
  | nil => simp [fromLe]
  | cons b rest ih =>
    have hb := b.toNat_lt
    simp only [fromLe, List.length_cons, pow_succ]
    omega

theorem fromLe_inj : ∀ {a b : Bytes}, a.length = b.length → fromLe a = fromLe b → a = b
  | [], [], _, _ => rfl
  | x :: a, y :: b, hlen, h => by
    have hx := x.toNat_lt
    have hy := y.toNat_lt
    simp only [fromLe] at h
    have hxy : x.toNat = y.toNat := by omega
    have hab : fromLe a = fromLe b := by omega
    rw [UInt8.toNat_inj.1 hxy, fromLe_inj (by simpa using hlen) hab]

end Ccdb
