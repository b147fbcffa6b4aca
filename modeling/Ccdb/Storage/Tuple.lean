import Ccdb.Base

/-!
# Ccdb — values and tuples

The data types of `tuple.rs` and the byte lengths their serialisations
take on a page. A heap tuple is the MVCC header (`xmin`, `xmax`, `t_ctid`)
followed by a null bitmap and the non-null values in column order; the
page modules only look at the header fields, the values and the length.
-/

namespace Ccdb

/-- Record identifier: page id (`u32`) + slot id inside that page (`u16`).
Page, slot, transaction and log sequence numbers are natural numbers. -/
abbrev Rid := Nat × Nat

/-- Sentinel meaning "no deletion yet" in `xmax`. -/
def invalidTxnId : Nat := 0

inductive DataType where
  | int
  | varchar
  | bool
  | double
  | timestamp
  | date
  | time
  | interval
deriving DecidableEq, Repr

/-- `Value`. A `DOUBLE` is kept as its IEEE 754 bit pattern. -/
inductive Value where
  | null
  | int (n : Int32)
  | varchar (s : String)
  | bool (b : Bool)
  | double (bits : UInt64)
  | timestamp (n : Int64)
  | date (n : Int32)
  | time (n : Int64)
  | interval (months days : Int32) (micros : Int64)
deriving DecidableEq, Repr

/-- The error of a predicate that gave a value of another type. -/
def notBoolean (what : String) (other : Value) : DbError :=
  .bail s!"{what} must be boolean, got {repr other}"

/-- The declared type of a non-null value. -/
def Value.dataType : Value → Option DataType
  | .null => none
  | .int _ => some .int
  | .varchar _ => some .varchar
  | .bool _ => some .bool
  | .double _ => some .double
  | .timestamp _ => some .timestamp
  | .date _ => some .date
  | .time _ => some .time
  | .interval .. => some .interval

/-! ## Serialised form -/

def MVCC_HEADER_SIZE : Nat := 22
def TCTID_PAGE_OFF : Nat := 16
def TCTID_SLOT_OFF : Nat := 20

/-- `s.as_bytes()`. -/
def stringBytes (s : String) : Bytes := s.toByteArray.toList

def i32Bytes (n : Int32) : Bytes := toLe 4 n.toUInt32.toNat
def i64Bytes (n : Int64) : Bytes := toLe 8 n.toUInt64.toNat

/-- `serialize_value`: a NULL takes no bytes, a VARCHAR has a `u32` length prefix. -/
def serializeValue : Value → Bytes
  | .null => []
  | .int n => i32Bytes n
  | .varchar s => toLe 4 (stringBytes s).length ++ stringBytes s
  | .bool b => [if b then 1 else 0]
  | .double bits => toLe 8 bits.toNat
  | .timestamp n => i64Bytes n
  | .date n => i32Bytes n
  | .time n => i64Bytes n
  | .interval months days micros => i32Bytes months ++ i32Bytes days ++ i64Bytes micros

/-- `null_bitmap_size`. -/
def nullBitmapSize (numColumns : Nat) : Nat := (numColumns + 7) / 8

/-- The null bitmap: bit `i % 8` of byte `i / 8` is set when column `i` is NULL. -/
def nullBitmap (values : List Value) : Bytes :=
  (List.range (nullBitmapSize values.length)).map fun byte =>
    (List.range 8).foldl
      (fun acc bit =>
        if values.getD (8 * byte + bit) (.bool true) = .null then acc ||| (1 <<< bit.toUInt8)
        else acc) 0

/-- `serialize_tuple`. -/
def serializeTuple (values : List Value) : Bytes :=
  nullBitmap values ++ values.flatMap serializeValue

/-- An MVCC tuple: header fields and column values. -/
structure HeapTuple where
  xmin : Nat
  xmax : Nat
  ctid : Rid
  values : List Value
deriving DecidableEq, Repr

/-- Sentinel "no successor" forward pointer, `(u32::MAX, u16::MAX)`. -/
def noCtid : Rid := (4294967295, 65535)

def isNoCtid (c : Rid) : Bool := c == noCtid

/-- The tuple `serialize_tuple_mvcc` lays out: no successor. -/
def HeapTuple.mk' (xmin xmax : Nat) (values : List Value) : HeapTuple :=
  ⟨xmin, xmax, noCtid, values⟩

/-- `serialize_tuple_mvcc_with_ctid`. -/
def HeapTuple.bytes (t : HeapTuple) : Bytes :=
  toLe 8 t.xmin ++ toLe 8 t.xmax ++ toLe 4 t.ctid.1 ++ toLe 2 t.ctid.2 ++
    serializeTuple t.values

/-- The length of a serialised tuple depends on its values only. -/
theorem HeapTuple.bytes_length (t : HeapTuple) :
    t.bytes.length = MVCC_HEADER_SIZE + (serializeTuple t.values).length := by
  simp [HeapTuple.bytes, MVCC_HEADER_SIZE]
  omega

end Ccdb
