import Ccdb.Base

/-!
# Ccdb — fixed-width fields of a binary layout

A binary record is a concatenation of fields. A `Field α` says how many bytes a
value of `α` takes and how it is written and read; `Field.read` reads a field at
an offset of a longer byte string, as a decoder with hard-coded offsets does.

Main results:

* `Field.read_enc` — the field at offset zero of `enc a ++ rest` is `a`.
* `Field.read_skip` — reading past a field reads the rest at the smaller offset.
* `Field.read_append` — the same past any byte string.
-/

namespace Ccdb

/-! ## Fields -/

/-- Values of `α` written as `width` bytes. -/
structure Field (α : Type) where
  width : Nat
  enc : α → Bytes
  dec : Bytes → α
  enc_length : ∀ a, (enc a).length = width
  dec_enc : ∀ a, dec (enc a) = a

namespace Field

variable {α β : Type}

/-- The field at offset `off`. -/
def read (f : Field α) (bs : Bytes) (off : Nat) : α := f.dec ((bs.drop off).take f.width)

@[simp] theorem length_enc (f : Field α) (a : α) : (f.enc a).length = f.width := f.enc_length a

@[simp] theorem read_enc (f : Field α) (a : α) (bs : Bytes) : f.read (f.enc a ++ bs) 0 = a := by
  have htake : (f.enc a ++ bs).take f.width = f.enc a := by
    rw [← f.enc_length a]
    exact List.take_left
  rw [Field.read, List.drop_zero, htake, f.dec_enc]

/-- The same for the last field of a string. -/
@[simp] theorem read_enc_last (f : Field α) (a : α) : f.read (f.enc a) 0 = a := by
  have h := f.read_enc a []
  rwa [List.append_nil] at h

theorem read_append (f : Field α) (pre bs : Bytes) (n : Nat) :
    f.read (pre ++ bs) (pre.length + n) = f.read bs n := by
  rw [Field.read, Field.read, List.drop_length_add_append]

theorem read_skip (f : Field α) (g : Field β) (b : β) (bs : Bytes) {off : Nat} (h : g.width ≤ off) :
    f.read (g.enc b ++ bs) off = f.read bs (off - g.width) := by
  have hat := f.read_append (g.enc b) bs (off - g.width)
  rwa [length_enc, Nat.add_sub_cancel' h] at hat

theorem drop_skip (g : Field β) (b : β) (bs : Bytes) {off : Nat} (h : g.width ≤ off) :
    (g.enc b ++ bs).drop off = bs.drop (off - g.width) := by
  have hdrop : (g.enc b ++ bs).drop ((g.enc b).length + (off - g.width)) =
      bs.drop (off - g.width) := List.drop_length_add_append _
  rwa [length_enc, Nat.add_sub_cancel' h] at hdrop

/-- A field that fits is read from a prefix. -/
theorem read_prefix (f : Field α) (bs post : Bytes) {off : Nat} (h : off + f.width ≤ bs.length) :
    f.read (bs ++ post) off = f.read bs off := by
  rw [Field.read, Field.read, List.drop_append_of_le_length (by omega), List.take_append_of_le_length]
  rw [List.length_drop]
  omega

end Field

/-! ## Machine integers -/

/-- Little-endian fields of an integer type with `2 ^ (8 * w)` values. -/
def Field.ofNat {α : Type} (w : Nat) (toNat : α → Nat) (ofNat : Nat → α)
    (hlt : ∀ a, toNat a < 256 ^ w) (hinv : ∀ a, ofNat (toNat a) = a) : Field α where
  width := w
  enc a := toLe w (toNat a)
  dec bs := ofNat (fromLe bs)
  enc_length a := toLe_length w (toNat a)
  dec_enc a := by rw [fromLe_toLe, Nat.mod_eq_of_lt (hlt a), hinv]

def u8 : Field UInt8 := .ofNat 1 UInt8.toNat UInt8.ofNat UInt8.toNat_lt fun _ => UInt8.ofNat_toNat
def u16 : Field UInt16 :=
  .ofNat 2 UInt16.toNat UInt16.ofNat UInt16.toNat_lt fun _ => UInt16.ofNat_toNat
def u32 : Field UInt32 :=
  .ofNat 4 UInt32.toNat UInt32.ofNat UInt32.toNat_lt fun _ => UInt32.ofNat_toNat
def u64 : Field UInt64 :=
  .ofNat 8 UInt64.toNat UInt64.ofNat UInt64.toNat_lt fun _ => UInt64.ofNat_toNat
def i32 : Field Int32 :=
  .ofNat 4 (fun n => n.toUInt32.toNat) (fun n => (UInt32.ofNat n).toInt32)
    (fun n => n.toUInt32.toNat_lt) fun n => by rw [UInt32.ofNat_toNat, Int32.toInt32_toUInt32]
def i64 : Field Int64 :=
  .ofNat 8 (fun n => n.toUInt64.toNat) (fun n => (UInt64.ofNat n).toInt64)
    (fun n => n.toUInt64.toNat_lt) fun n => by rw [UInt64.ofNat_toNat, Int64.toInt64_toUInt64]

@[simp] theorem u8_width : u8.width = 1 := rfl
@[simp] theorem u16_width : u16.width = 2 := rfl
@[simp] theorem u32_width : u32.width = 4 := rfl
@[simp] theorem u64_width : u64.width = 8 := rfl
@[simp] theorem i32_width : i32.width = 4 := rfl
@[simp] theorem i64_width : i64.width = 8 := rfl

end Ccdb
