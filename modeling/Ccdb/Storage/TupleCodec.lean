import Mathlib.Data.List.Forall2
import Ccdb.Lib.Bits
import Ccdb.Lib.Layout
import Ccdb.Storage.SlottedPage

/-!
# Ccdb — decoding tuples

The reading half of `tuple.rs`: `deserialize_value`, `deserialize_tuple` and
`deserialize_tuple_mvcc_full`, against the writing half in `Ccdb.Storage.Tuple`.
The header setters of `page.rs` patch tuples at offsets of their own, so they are
checked against the decoder here, on a page made by any sequence of operations.

Main results:

* `nullBitmap_eq_markNulls` — the bitmap is what the loop of `serialize_tuple`
  leaves in a zeroed buffer.
* `deserialize_serialize` — decoding a serialised tuple gives it back.
* `setTupleXmax_decodes`, `setTupleCtid_decodes` — the setters change their field
  of the decoded tuple and nothing else.
-/

namespace Ccdb.TupleCodec

open Ccdb.Bits Ccdb.RawPage

structure Column where
  name : String
  dataType : DataType
deriving DecidableEq

structure Schema where
  columns : List Column

/-! ## Decoding -/

/-- `String::from_utf8`. -/
def fromUtf8 (bytes : Bytes) : Except DbError String :=
  match String.fromUTF8? ⟨bytes.toArray⟩ with
  | some s => .ok s
  | none => .error (.bail "invalid utf-8 sequence")

/-- `deserialize_value`: the value and the bytes it takes. -/
def deserializeValue (data : Bytes) (dataType : DataType) (isNull : Bool) :
    Except DbError (Value × Nat) :=
  if isNull then .ok (.null, 0)
  else
    match dataType with
    | .int =>
      if data.length < 4 then .error (.bail "not enough bytes for INT")
      else .ok (.int (i32.read data 0), 4)
    | .varchar =>
      if data.length < 4 then .error (.bail "not enough bytes for VARCHAR length prefix")
      else
        let len := (u32.read data 0).toNat
        if data.length < 4 + len then .error (.bail "VARCHAR payload truncated")
        else do
          let v ← fromUtf8 ((data.drop 4).take len)
          return (.varchar v, 4 + len)
    | .bool =>
      match data with
      | [] => .error (.bail "not enough bytes for BOOL")
      | b :: _ => .ok (.bool (b != 0), 1)
    | .double =>
      if data.length < 8 then .error (.bail "not enough bytes for DOUBLE")
      else .ok (.double (u64.read data 0), 8)
    | .timestamp =>
      if data.length < 8 then .error (.bail "not enough bytes for TIMESTAMP")
      else .ok (.timestamp (i64.read data 0), 8)
    | .date =>
      if data.length < 4 then .error (.bail "not enough bytes for DATE")
      else .ok (.date (i32.read data 0), 4)
    | .time =>
      if data.length < 8 then .error (.bail "not enough bytes for TIME")
      else .ok (.time (i64.read data 0), 8)
    | .interval =>
      if data.length < 16 then .error (.bail "not enough bytes for INTERVAL")
      else .ok (.interval (i32.read data 0) (i32.read data 4) (i64.read data 8), 16)

/-- `bitmap[i / 8] & (1 << (i % 8)) != 0`. -/
def isNull (bitmap : Bytes) (i : Nat) : Bool := bit (bitmap.getD (i / 8) 0) (i % 8)

/-- The loop over the columns, at column `i` and byte `offset`. -/
def deserializeColumns (data bitmap : Bytes) :
    Nat → Nat → List Column → Except DbError (List Value)
  | _, _, [] => .ok []
  | i, offset, column :: columns => do
    let (value, len) ← deserializeValue (data.drop offset) column.dataType (isNull bitmap i)
    let values ← deserializeColumns data bitmap (i + 1) (offset + len) columns
    return value :: values

/-- `deserialize_tuple`. -/
def deserializeTuple (data : Bytes) (schema : Schema) : Except DbError (List Value) :=
  let bitmapLen := nullBitmapSize schema.columns.length
  if data.length < bitmapLen then .error (.bail "tuple truncated: missing null bitmap")
  else deserializeColumns data (data.take bitmapLen) 0 bitmapLen schema.columns

/-- `deserialize_tuple_mvcc_full`. -/
def deserializeTupleMvccFull (data : Bytes) (schema : Schema) :
    Except DbError (UInt64 × UInt64 × (UInt32 × UInt16) × List Value) :=
  if data.length < MVCC_HEADER_SIZE then .error (.bail "tuple truncated: missing MVCC header")
  else do
    let values ← deserializeTuple (data.drop MVCC_HEADER_SIZE) schema
    return (u64.read data 0, u64.read data 8,
      (u32.read data TCTID_PAGE_OFF, u16.read data TCTID_SLOT_OFF), values)

/-- `serialize_tuple_mvcc_with_ctid`. -/
def serializeTupleMvccWithCtid (xmin xmax : UInt64) (ctid : UInt32 × UInt16)
    (values : List Value) : Bytes :=
  (HeapTuple.mk xmin.toNat xmax.toNat (ctid.1.toNat, ctid.2.toNat) values).bytes

/-- The loop of `serialize_tuple` over the null bitmap. -/
def markNulls : List Value → Nat → Bytes → Bytes
  | [], _, buf => buf
  | v :: vs, i, buf =>
    markNulls vs (i + 1) (if v = .null then buf.modify (i / 8) (setBit · (i % 8)) else buf)

/-- What the analyzer has checked of a row: the values are NULL or of the column's type.
A VARCHAR is shorter than its length prefix can say. -/
def Fits (v : Value) (c : Column) : Prop :=
  (v = .null ∨ v.dataType = some c.dataType) ∧ ∀ s, v = .varchar s → (stringBytes s).length < 2 ^ 32

/-! ## The null bitmap -/

theorem nullBitmap_length (values : List Value) :
    (nullBitmap values).length = nullBitmapSize values.length := by
  simp [nullBitmap]

/-- One byte of the bitmap. -/
theorem nullBitmap_bit (values : List Value) {byte k : Nat}
    (hbyte : byte < nullBitmapSize values.length) (hk : k < 8) :
    bit ((nullBitmap values).getD byte 0) k = decide (values[8 * byte + k]? = some .null) := by
  have hget : (nullBitmap values).getD byte 0 =
      (List.range 8).foldl (fun acc j =>
        if values.getD (8 * byte + j) (.bool true) = .null then setBit acc j else acc) 0 := by
    unfold nullBitmap
    rw [List.getD_eq_getElem?_getD, List.getElem?_map, List.getElem?_range hbyte]
    rfl
  rw [hget, bit_foldl_setBit (fun j => values.getD (8 * byte + j) (.bool true) = .null) hk _ _
    fun j hj => List.mem_range.1 hj]
  rw [bit_zero hk, Bool.false_or]
  refine decide_eq_decide.2 ?_
  rw [List.getD_eq_getElem?_getD]
  cases values[8 * byte + k]? with
  | none => simp
  | some v => simp [hk]

theorem isNull_nullBitmap (values : List Value) {i : Nat} (hi : i < values.length) :
    isNull (nullBitmap values) i = decide (values[i]? = some .null) := by
  have hbyte : i / 8 < nullBitmapSize values.length := by
    unfold nullBitmapSize
    omega
  rw [isNull, nullBitmap_bit values hbyte (Nat.mod_lt i (by decide)), Nat.div_add_mod]

theorem markNulls_length : ∀ (vs : List Value) (i : Nat) (buf : Bytes),
    (markNulls vs i buf).length = buf.length
  | [], _, _ => rfl
  | v :: vs, i, buf => by
    rw [markNulls, markNulls_length vs]
    split <;> simp

/-- Setting bit `i % 8` of byte `i / 8`. -/
theorem modify_bit (buf : Bytes) (i : Nat) {byte k : Nat} (hbyte : byte < buf.length)
    (hk : k < 8) :
    bit ((buf.modify (i / 8) (setBit · (i % 8))).getD byte 0) k =
      (decide (i = 8 * byte + k) || bit (buf.getD byte 0) k) := by
  rw [List.getD_eq_getElem?_getD, List.getD_eq_getElem?_getD, List.getElem?_modify,
    List.getElem?_eq_getElem hbyte]
  by_cases hb : i / 8 = byte
  · have hi : (i % 8 = k) ↔ (i = 8 * byte + k) := by omega
    simp only [hb, if_true, Option.map_eq_map, Option.map_some, Option.getD_some]
    rw [bit_setBit _ (Nat.mod_lt i (by decide)) hk, decide_eq_decide.2 hi]
  · have hi : ¬ i = 8 * byte + k := by omega
    simp [hb, hi]

/-- What the loop does to the bits of its buffer. -/
theorem markNulls_bit : ∀ (vs : List Value) (i : Nat) (buf : Bytes) {byte k : Nat},
    byte < buf.length → k < 8 →
    bit ((markNulls vs i buf).getD byte 0) k =
      (bit (buf.getD byte 0) k ||
        decide (i ≤ 8 * byte + k ∧ vs[8 * byte + k - i]? = some .null))
  | [], i, buf, byte, k, _, _ => by simp [markNulls]
  | v :: vs, i, buf, byte, k, hbyte, hk => by
    set pos := 8 * byte + k with hpos
    have hfirst : bit ((if v = .null then buf.modify (i / 8) (setBit · (i % 8)) else buf).getD
        byte 0) k = (decide (i = pos ∧ v = .null) || bit (buf.getD byte 0) k) := by
      by_cases hv : v = .null
      · rw [if_pos hv, modify_bit buf i hbyte hk]
        simp [hv, hpos]
      · simp [hv]
    have hlen : byte < (if v = .null then buf.modify (i / 8) (setBit · (i % 8)) else buf).length := by
      split <;> simpa using hbyte
    rw [markNulls, markNulls_bit vs (i + 1) _ hlen hk, hfirst, ← hpos]
    -- the column at `i` itself, or one of those behind it
    have hcols : (i = pos ∧ v = .null ∨ i + 1 ≤ pos ∧ vs[pos - (i + 1)]? = some .null) ↔
        (i ≤ pos ∧ (v :: vs)[pos - i]? = some .null) := by
      rcases Nat.lt_trichotomy i pos with hlt | heq | hgt
      · have hsub : pos - i = (pos - (i + 1)) + 1 := by omega
        rw [hsub, List.getElem?_cons_succ]
        constructor
        · rintro (⟨h, _⟩ | ⟨_, h⟩)
          · omega
          · exact ⟨hlt.le, h⟩
        · rintro ⟨_, h⟩
          exact Or.inr ⟨hlt, h⟩
      · subst heq
        simp
      · constructor
        · rintro (⟨h, _⟩ | ⟨h, _⟩) <;> omega
        · rintro ⟨h, _⟩
          omega
    rw [← decide_eq_decide.2 hcols, Bool.decide_or, Bool.or_right_comm, Bool.or_comm (_ || _)]

/-- The bitmap is what the loop of `serialize_tuple` leaves in its zeroed buffer. -/
theorem nullBitmap_eq_markNulls (values : List Value) :
    nullBitmap values =
      markNulls values 0 (List.replicate (nullBitmapSize values.length) 0) := by
  have hlen : (markNulls values 0 (List.replicate (nullBitmapSize values.length) 0)).length =
      nullBitmapSize values.length := by
    rw [markNulls_length, List.length_replicate]
  refine List.ext_getElem (by rw [nullBitmap_length, hlen]) fun byte h₁ h₂ => ?_
  have hbyte : byte < nullBitmapSize values.length := by rwa [nullBitmap_length] at h₁
  refine ext_bit fun k hk => ?_
  have hleft := nullBitmap_bit values hbyte hk
  have hright := markNulls_bit values 0 (List.replicate (nullBitmapSize values.length) 0)
    (by rwa [List.length_replicate] : byte < _) hk
  rw [List.getD_eq_getElem?_getD, List.getElem?_eq_getElem h₁, Option.getD_some] at hleft
  rw [List.getD_eq_getElem?_getD, List.getElem?_eq_getElem h₂, Option.getD_some,
    List.getD_eq_getElem?_getD, List.getElem?_replicate, if_pos hbyte, Option.getD_some,
    bit_zero hk] at hright
  rw [hleft, hright]
  simp

/-! ## One value -/

/-- `ByteArray.toList` runs over the bytes in order. -/
theorem toList_loop (bs : ByteArray) : ∀ (k i : Nat) (acc : List UInt8), i + k = bs.size →
    ByteArray.toList.loop bs i acc = acc.reverse ++ bs.data.toList.drop i := by
  intro k
  induction k with
  | zero =>
    intro i acc h
    have hsize : bs.data.toList.length = bs.size := Array.length_toList
    rw [ByteArray.toList.loop, if_neg (by omega), List.drop_eq_nil_of_le (by omega),
      List.append_nil]
  | succ k ih =>
    intro i acc h
    have hi : i < bs.data.toList.length := by
      have hsize : bs.data.toList.length = bs.size := Array.length_toList
      omega
    have hget : bs.get! i = bs.data.toList[i] := by
      have hi' : i < bs.data.size := by simpa using hi
      rw [Array.getElem_toList]
      exact getElem!_pos bs.data i hi'
    rw [ByteArray.toList.loop, if_pos (by omega), ih (i + 1) _ (by omega), hget,
      List.drop_eq_getElem_cons hi]
    simp

theorem stringBytes_eq (s : String) : stringBytes s = s.toByteArray.data.toList := by
  have h := toList_loop s.toByteArray s.toByteArray.size 0 [] (Nat.zero_add _)
  rwa [List.reverse_nil, List.nil_append, List.drop_zero] at h

theorem fromUtf8_stringBytes (s : String) : fromUtf8 (stringBytes s) = .ok s := by
  have harray : (⟨(stringBytes s).toArray⟩ : ByteArray) = s.toByteArray := by
    rw [stringBytes_eq]
  rw [fromUtf8, harray, String.fromUTF8?, dif_pos s.isValidUTF8]
  rfl

theorem deserializeValue_serializeValue {v : Value} {c : Column} (h : Fits v c) (rest : Bytes) :
    deserializeValue (serializeValue v ++ rest) c.dataType (decide (v = .null)) =
      .ok (v, (serializeValue v).length) := by
  obtain ⟨hty, hlen⟩ := h
  have hcol : ∀ ty, v.dataType = some ty → v ≠ .null → c.dataType = ty := by
    intro ty hv hne
    rcases hty with hnull | hc
    · exact absurd hnull hne
    · exact Option.some.inj (hc.symm.trans hv)
  cases v with
  | null => rfl
  | int n =>
    rw [hcol .int rfl (by simp), deserializeValue, if_neg (by simp),
      if_neg (by simp [serializeValue, i32Bytes])]
    have hread : i32.read (serializeValue (.int n) ++ rest) 0 = n := Field.read_enc i32 n rest
    rw [hread]
    rfl
  | varchar s =>
    have hs := hlen s rfl
    have hword : (u32.read (serializeValue (.varchar s) ++ rest) 0).toNat =
        (stringBytes s).length := by
      have hread : u32.read (serializeValue (.varchar s) ++ rest) 0 =
          UInt32.ofNat (stringBytes s).length := by
        have henc : toLe 4 (stringBytes s).length =
            u32.enc (UInt32.ofNat (stringBytes s).length) := by
          show _ = toLe 4 _
          rw [UInt32.toNat_ofNat_of_lt' hs]
        rw [serializeValue, henc, List.append_assoc, Field.read_enc]
      rw [hread]
      exact UInt32.toNat_ofNat_of_lt' hs
    have hdrop : (serializeValue (.varchar s) ++ rest).drop 4 = stringBytes s ++ rest := by
      rw [serializeValue, List.append_assoc]
      exact List.drop_left' (toLe_length 4 _)
    have hsize : (serializeValue (.varchar s)).length = 4 + (stringBytes s).length := by
      simp [serializeValue]
    rw [hcol .varchar rfl (by simp), deserializeValue, if_neg (by simp),
      if_neg (by rw [List.length_append, hsize]; omega)]
    simp only [hword, hdrop, List.take_left, fromUtf8_stringBytes]
    rw [if_neg (by rw [List.length_append, hsize]; omega), hsize]
    rfl
  | bool b =>
    rw [hcol .bool rfl (by simp)]
    cases b <;> rfl
  | double bits =>
    rw [hcol .double rfl (by simp), deserializeValue, if_neg (by simp),
      if_neg (by simp [serializeValue])]
    have hread : u64.read (serializeValue (.double bits) ++ rest) 0 = bits :=
      Field.read_enc u64 bits rest
    rw [hread]
    rfl
  | timestamp n =>
    rw [hcol .timestamp rfl (by simp), deserializeValue, if_neg (by simp),
      if_neg (by simp [serializeValue, i64Bytes])]
    have hread : i64.read (serializeValue (.timestamp n) ++ rest) 0 = n :=
      Field.read_enc i64 n rest
    rw [hread]
    rfl
  | date n =>
    rw [hcol .date rfl (by simp), deserializeValue, if_neg (by simp),
      if_neg (by simp [serializeValue, i32Bytes])]
    have hread : i32.read (serializeValue (.date n) ++ rest) 0 = n := Field.read_enc i32 n rest
    rw [hread]
    rfl
  | time n =>
    rw [hcol .time rfl (by simp), deserializeValue, if_neg (by simp),
      if_neg (by simp [serializeValue, i64Bytes])]
    have hread : i64.read (serializeValue (.time n) ++ rest) 0 = n := Field.read_enc i64 n rest
    rw [hread]
    rfl
  | interval months days micros =>
    rw [hcol .interval rfl (by simp), deserializeValue, if_neg (by simp),
      if_neg (by simp [serializeValue, i32Bytes, i64Bytes]; omega)]
    have hbytes : serializeValue (.interval months days micros) ++ rest =
        i32.enc months ++ (i32.enc days ++ (i64.enc micros ++ rest)) := by
      simp only [serializeValue, List.append_assoc]
      rfl
    have hmonths : i32.read (serializeValue (.interval months days micros) ++ rest) 0 = months := by
      rw [hbytes, Field.read_enc]
    have hdays : i32.read (serializeValue (.interval months days micros) ++ rest) 4 = days := by
      rw [hbytes, Field.read_skip _ _ _ _ (by decide), i32_width, Nat.sub_self, Field.read_enc]
    have hmicros : i64.read (serializeValue (.interval months days micros) ++ rest) 8 = micros := by
      rw [hbytes, Field.read_skip _ _ _ _ (by decide), Field.read_skip _ _ _ _ (by decide)]
      exact Field.read_enc i64 micros rest
    rw [hmonths, hdays, hmicros]
    rfl

/-! ## Rows -/

/-- The loop over the columns from position `pre.length` on. -/
theorem deserializeColumns_eq (bitmap : Bytes) :
    ∀ (vs : List Value) (cs : List Column) (pre : List Value) (head : Bytes),
      List.Forall₂ Fits vs cs →
      (∀ i, i < (pre ++ vs).length → isNull bitmap i = decide ((pre ++ vs)[i]? = some .null)) →
      deserializeColumns (head ++ vs.flatMap serializeValue) bitmap pre.length head.length cs =
        .ok vs
  | [], _, pre, head, h, _ => by
    cases h
    rfl
  | v :: vs, _, pre, head, h, hbits => by
    cases h with
    | @cons _ c _ cs hv hvs =>
    have hbit : isNull bitmap pre.length = decide (v = .null) := by
      rw [hbits pre.length (by simp)]
      simp
    have hdata : (head ++ (v :: vs).flatMap serializeValue).drop head.length =
        serializeValue v ++ vs.flatMap serializeValue := by
      rw [List.drop_left, List.flatMap_cons]
    have hmove : head ++ (v :: vs).flatMap serializeValue =
        (head ++ serializeValue v) ++ vs.flatMap serializeValue := by
      simp [List.append_assoc]
    have ih := deserializeColumns_eq bitmap vs cs (pre ++ [v]) (head ++ serializeValue v) hvs
      (by simpa using hbits)
    rw [List.length_append, List.length_append, List.length_singleton] at ih
    rw [deserializeColumns, hdata, hbit, deserializeValue_serializeValue hv, hmove]
    simp only [bind, Except.bind, ih]
    rfl

theorem deserializeTuple_serializeTuple {values : List Value} {schema : Schema}
    (h : List.Forall₂ Fits values schema.columns) :
    deserializeTuple (serializeTuple values) schema = .ok values := by
  have hcols : values.length = schema.columns.length := h.length_eq
  have hmap : (nullBitmap values).length = nullBitmapSize schema.columns.length := by
    rw [nullBitmap_length, hcols]
  have hroom : ¬ (serializeTuple values).length < nullBitmapSize schema.columns.length := by
    rw [serializeTuple, List.length_append, hmap]
    omega
  have htake : (serializeTuple values).take (nullBitmapSize schema.columns.length) =
      nullBitmap values := List.take_left' hmap
  have hloop := deserializeColumns_eq (nullBitmap values) values schema.columns []
    (nullBitmap values) h fun i hi => isNull_nullBitmap values hi
  rw [hmap] at hloop
  simp only [deserializeTuple, if_neg hroom, htake]
  exact hloop

/-- The header fields of a stored tuple are where the decoder reads them. -/
theorem deserialize_serialize {values : List Value} {schema : Schema}
    (h : List.Forall₂ Fits values schema.columns) (xmin xmax : UInt64) (ctid : UInt32 × UInt16) :
    deserializeTupleMvccFull (serializeTupleMvccWithCtid xmin xmax ctid values) schema =
      .ok (xmin, xmax, ctid, values) := by
  set bytes := serializeTupleMvccWithCtid xmin xmax ctid values with hb
  have hbytes : bytes = u64.enc xmin ++ (u64.enc xmax ++ (u32.enc ctid.1 ++ (u16.enc ctid.2 ++
      serializeTuple values))) := by
    rw [hb, serializeTupleMvccWithCtid, HeapTuple.bytes]
    simp only [List.append_assoc]
    rfl
  have hroom : ¬ bytes.length < MVCC_HEADER_SIZE := by
    rw [hb, serializeTupleMvccWithCtid, HeapTuple.bytes_length]
    omega
  have hdrop : bytes.drop MVCC_HEADER_SIZE = serializeTuple values := by
    rw [hbytes, Field.drop_skip _ _ _ (by decide), Field.drop_skip _ _ _ (by decide),
      Field.drop_skip _ _ _ (by decide), Field.drop_skip _ _ _ (by decide)]
    rfl
  have hxmin : u64.read bytes 0 = xmin := by rw [hbytes, Field.read_enc]
  have hxmax : u64.read bytes 8 = xmax := by
    rw [hbytes, Field.read_skip _ _ _ _ (by decide)]
    exact Field.read_enc u64 _ _
  have hpage : u32.read bytes TCTID_PAGE_OFF = ctid.1 := by
    rw [hbytes, Field.read_skip _ _ _ _ (by decide), Field.read_skip _ _ _ _ (by decide)]
    exact Field.read_enc u32 _ _
  have hslot : u16.read bytes TCTID_SLOT_OFF = ctid.2 := by
    rw [hbytes, Field.read_skip _ _ _ _ (by decide), Field.read_skip _ _ _ _ (by decide),
      Field.read_skip _ _ _ _ (by decide)]
    exact Field.read_enc u16 _ _
  rw [deserializeTupleMvccFull, if_neg hroom, hdrop, deserializeTuple_serializeTuple h, hxmin,
    hxmax, hpage, hslot]
  rfl

/-! ## Patched headers -/

/-- A field the patch does not meet. -/
theorem read_splice_disjoint {α : Type} (f : Field α) {bytes : Bytes} {k off : Nat} {new : Bytes}
    (hk : k + new.length ≤ bytes.length) (h : off + f.width ≤ k ∨ k + new.length ≤ off) :
    f.read (splice bytes k new) off = f.read bytes off := by
  have htake : ((splice bytes k new).drop off).take f.width = (bytes.drop off).take f.width := by
    refine List.ext_getElem? fun i => ?_
    by_cases hi : i < f.width
    · rw [List.getElem?_take_of_lt hi, List.getElem?_take_of_lt hi, List.getElem?_drop,
        List.getElem?_drop, splice_getElem? hk, if_neg (by omega)]
    · rw [List.getElem?_take, List.getElem?_take, if_neg hi, if_neg hi]
  rw [Field.read, Field.read, htake]

/-- The field that is patched. -/
theorem read_splice_self {α : Type} (f : Field α) {bytes : Bytes} {k : Nat} (a : α)
    (hk : k + f.width ≤ bytes.length) : f.read (splice bytes k (f.enc a)) k = a := by
  have hpre : (bytes.take k).length = k := by
    rw [List.length_take]
    omega
  have h := f.read_append (bytes.take k) (f.enc a ++ bytes.drop (k + (f.enc a).length)) 0
  rw [hpre, Nat.add_zero, Field.read_enc] at h
  exact h

theorem splice_drop {bytes : Bytes} {k n : Nat} {new : Bytes} (hk : k + new.length ≤ bytes.length)
    (hn : k + new.length ≤ n) : (splice bytes k new).drop n = bytes.drop n := by
  refine List.ext_getElem? fun i => ?_
  rw [List.getElem?_drop, List.getElem?_drop, splice_getElem? hk, if_neg (by omega)]

section Patched

variable {bytes : Bytes} {schema : Schema} {xmin xmax : UInt64} {ctid : UInt32 × UInt16}
  {values : List Value}

/-- A decoded tuple has its header. -/
theorem header_of_decoded
    (h : deserializeTupleMvccFull bytes schema = .ok (xmin, xmax, ctid, values)) :
    MVCC_HEADER_SIZE ≤ bytes.length ∧
      deserializeTuple (bytes.drop MVCC_HEADER_SIZE) schema = .ok values ∧
      u64.read bytes 0 = xmin ∧ u64.read bytes 8 = xmax ∧
      (u32.read bytes TCTID_PAGE_OFF, u16.read bytes TCTID_SLOT_OFF) = ctid := by
  unfold deserializeTupleMvccFull at h
  split at h
  · cases h
  · rename_i hlen
    cases hv : deserializeTuple (bytes.drop MVCC_HEADER_SIZE) schema with
    | error e =>
      rw [hv] at h
      cases h
    | ok vs =>
      rw [hv] at h
      cases h
      exact ⟨Nat.le_of_not_lt hlen, rfl, rfl, rfl, rfl⟩

theorem decoded_of_header (hlen : MVCC_HEADER_SIZE ≤ bytes.length)
    (hv : deserializeTuple (bytes.drop MVCC_HEADER_SIZE) schema = .ok values) :
    deserializeTupleMvccFull bytes schema =
      .ok (u64.read bytes 0, u64.read bytes 8,
        (u32.read bytes TCTID_PAGE_OFF, u16.read bytes TCTID_SLOT_OFF), values) := by
  rw [deserializeTupleMvccFull, if_neg (by omega), hv]
  rfl

theorem decode_patch_xmax
    (h : deserializeTupleMvccFull bytes schema = .ok (xmin, xmax, ctid, values)) (x : UInt64) :
    deserializeTupleMvccFull (splice bytes 8 (toLe 8 x.toNat)) schema =
      .ok (xmin, x, ctid, values) := by
  obtain ⟨hlen, hv, rfl, rfl, rfl⟩ := header_of_decoded h
  have hle : 22 ≤ bytes.length := hlen
  have hfit : 8 + (toLe 8 x.toNat).length ≤ bytes.length := by
    rw [toLe_length]
    omega
  have hnew := read_splice_self u64 x (show 8 + u64.width ≤ bytes.length by simp; omega)
  have hv' : deserializeTuple ((splice bytes 8 (toLe 8 x.toNat)).drop MVCC_HEADER_SIZE) schema =
      .ok values := by rwa [splice_drop hfit (by simp [MVCC_HEADER_SIZE])]
  rw [decoded_of_header (by rwa [splice_length hfit]) hv',
    read_splice_disjoint u64 hfit (by simp),
    read_splice_disjoint u32 hfit (by simp [TCTID_PAGE_OFF]),
    read_splice_disjoint u16 hfit (by simp [TCTID_SLOT_OFF])]
  exact congrArg (fun y => Except.ok (_, y, _, values)) hnew

theorem decode_patch_ctid
    (h : deserializeTupleMvccFull bytes schema = .ok (xmin, xmax, ctid, values))
    (c : UInt32 × UInt16) :
    deserializeTupleMvccFull
        (splice (splice bytes 16 (toLe 4 c.1.toNat)) 20 (toLe 2 c.2.toNat)) schema =
      .ok (xmin, xmax, c, values) := by
  obtain ⟨hlen, hv, rfl, rfl, rfl⟩ := header_of_decoded h
  have hle : 22 ≤ bytes.length := hlen
  have hfit : 16 + (toLe 4 c.1.toNat).length ≤ bytes.length := by
    rw [toLe_length]
    omega
  have hsize := splice_length hfit
  have hfit' : 20 + (toLe 2 c.2.toNat).length ≤ (splice bytes 16 (toLe 4 c.1.toNat)).length := by
    rw [toLe_length, hsize]
    omega
  have hpage := read_splice_self u32 c.1 (show 16 + u32.width ≤ bytes.length by simp; omega)
  have hslot := read_splice_self u16 c.2
    (show 20 + u16.width ≤ (splice bytes 16 (toLe 4 c.1.toNat)).length by
      rw [hsize]; simp; omega)
  have hv' : deserializeTuple ((splice (splice bytes 16 (toLe 4 c.1.toNat)) 20
      (toLe 2 c.2.toNat)).drop MVCC_HEADER_SIZE) schema = .ok values := by
    rwa [splice_drop hfit' (by simp [MVCC_HEADER_SIZE]),
      splice_drop hfit (by simp [MVCC_HEADER_SIZE])]
  rw [decoded_of_header (by rw [splice_length hfit', hsize]; exact hlen) hv',
    read_splice_disjoint u64 hfit' (by simp), read_splice_disjoint u64 hfit (by simp),
    read_splice_disjoint u64 hfit' (by simp), read_splice_disjoint u64 hfit (by simp),
    read_splice_disjoint u32 hfit' (by simp [TCTID_PAGE_OFF])]
  exact congrArg₂ (fun y z => Except.ok (_, _, (y, z), values)) hpage hslot

end Patched

/-! ## On a page -/

/-- The slots but one, after a change of that one. -/
theorem getTuple_ne {p p' : RawPage} {m : SlotMap} {slot : Nat} {g : Bytes → Bytes}
    (h : Holds p m) (h' : Holds p' (m.modify slot (Option.map g))) {j : Nat} (hj : j ≠ slot) :
    p'.getTuple j = p.getTuple j := by
  rw [h.getTuple, h'.getTuple, List.getElem?_modify]
  simp [Ne.symm hj]

theorem getTuple_self {p' : RawPage} {m : SlotMap} {slot : Nat} {g : Bytes → Bytes}
    {bytes : Bytes} (hlive : m[slot]? = some (some bytes))
    (h' : Holds p' (m.modify slot (Option.map g))) :
    p'.getTuple slot = .ok (some (g bytes)) := by
  rw [h'.getTuple, List.getElem?_modify, hlive]
  simp

/-- A lookup that finds bytes finds them in the map. -/
theorem live_of_getTuple {p : RawPage} {m : SlotMap} (h : Holds p m) {slot : Nat} {bytes : Bytes}
    (hget : p.getTuple slot = .ok (some bytes)) : m[slot]? = some (some bytes) := by
  rw [h.getTuple] at hget
  cases ho : m[slot]? with
  | none =>
    rw [ho] at hget
    cases hget
  | some o =>
    rw [ho] at hget
    cases hget
    rfl

/-- The page `p'` differs from `p` in one slot, whose tuple now decodes to `decoded`. -/
def Redecodes (p p' : RawPage) (slot : Nat) (schema : Schema)
    (decoded : UInt64 × UInt64 × (UInt32 × UInt16) × List Value) : Prop :=
  (∃ bytes, p'.getTuple slot = .ok (some bytes) ∧
    deserializeTupleMvccFull bytes schema = .ok decoded) ∧
  ∀ j, j ≠ slot → p'.getTuple j = p.getTuple j

section Stored

variable {p : RawPage} {m : SlotMap} {slot : Nat} {bytes : Bytes} {schema : Schema}
  {xmin xmax : UInt64} {ctid : UInt32 × UInt16} {values : List Value}

theorem setTupleXmax_decodes (h : Holds p m) (hget : p.getTuple slot = .ok (some bytes))
    (hdec : deserializeTupleMvccFull bytes schema = .ok (xmin, xmax, ctid, values)) (x : UInt64) :
    ∃ p', RawPage.setTupleXmax slot x p = .ok () p' ∧
      Redecodes p p' slot schema (xmin, x, ctid, values) := by
  have hlive := live_of_getTuple h hget
  have hlen : 22 ≤ bytes.length := (header_of_decoded hdec).1
  obtain ⟨p', hp', hholds⟩ := setTupleXmax_ok h hlive (by omega) x
  exact ⟨p', hp', ⟨_, getTuple_self hlive hholds, decode_patch_xmax hdec x⟩,
    fun j hj => getTuple_ne h hholds hj⟩

theorem setTupleCtid_decodes (h : Holds p m) (hget : p.getTuple slot = .ok (some bytes))
    (hdec : deserializeTupleMvccFull bytes schema = .ok (xmin, xmax, ctid, values))
    (c : UInt32 × UInt16) :
    ∃ p', RawPage.setTupleCtid slot c p = .ok () p' ∧
      Redecodes p p' slot schema (xmin, xmax, c, values) := by
  have hlive := live_of_getTuple h hget
  obtain ⟨p', hp', hholds⟩ := setTupleCtid_ok h hlive (header_of_decoded hdec).1 c
  exact ⟨p', hp', ⟨_, getTuple_self hlive hholds, decode_patch_ctid hdec c⟩,
    fun j hj => getTuple_ne h hholds hj⟩

end Stored

/-- The tuple codec: a serialised row decodes to itself under every header, and on any page
the setters change their own field of a stored tuple and nothing else. -/
theorem tuple_codec :
    (∀ (schema : Schema) (values : List Value), List.Forall₂ Fits values schema.columns →
      ∀ (xmin xmax : UInt64) (ctid : UInt32 × UInt16),
        deserializeTupleMvccFull (serializeTupleMvccWithCtid xmin xmax ctid values) schema =
          .ok (xmin, xmax, ctid, values)) ∧
    ∀ (pageId : Nat) (ops : List Op) (slot : Nat) (bytes : Bytes),
      (runOps pageId ops).1.getTuple slot = .ok (some bytes) →
      ∀ (schema : Schema) (xmin xmax : UInt64) (ctid : UInt32 × UInt16) (values : List Value),
        deserializeTupleMvccFull bytes schema = .ok (xmin, xmax, ctid, values) →
        (∀ x, ∃ p', RawPage.setTupleXmax slot x (runOps pageId ops).1 = .ok () p' ∧
          Redecodes (runOps pageId ops).1 p' slot schema (xmin, x, ctid, values)) ∧
        ∀ c, ∃ p', RawPage.setTupleCtid slot c (runOps pageId ops).1 = .ok () p' ∧
          Redecodes (runOps pageId ops).1 p' slot schema (xmin, xmax, c, values) := by
  refine ⟨fun schema values h xmin xmax ctid => deserialize_serialize h xmin xmax ctid, ?_⟩
  intro pageId ops slot bytes hget schema xmin xmax ctid values hdec
  have h := runOps_holds pageId ops
  exact ⟨setTupleXmax_decodes h hget hdec, setTupleCtid_decodes h hget hdec⟩

/-- A NULL and a BOOL under a two-column schema. -/
def sampleSchema : Schema := ⟨[⟨"id", .int⟩, ⟨"ok", .bool⟩]⟩

theorem tuple_codec_sample :
    deserializeTupleMvccFull (serializeTupleMvccWithCtid 7 0 (3, 1) [.null, .bool true])
      sampleSchema = .ok (7, 0, (3, 1), [.null, .bool true]) ∧
    ∃ p', RawPage.setTupleXmax 0 9
        (runOps 0 [.insert (serializeTupleMvccWithCtid 7 0 (3, 1) [.null, .bool true])
          (by decide)]).1 = .ok () p' ∧
      Redecodes (runOps 0 [.insert (serializeTupleMvccWithCtid 7 0 (3, 1) [.null, .bool true])
          (by decide)]).1 p' 0 sampleSchema (7, 9, (3, 1), [.null, .bool true]) := by
  have hfits : List.Forall₂ Fits [.null, .bool true] sampleSchema.columns :=
    .cons ⟨Or.inl rfl, fun s hs => by cases hs⟩
      (.cons ⟨Or.inr rfl, fun s hs => by cases hs⟩ .nil)
  have hdec := tuple_codec.1 sampleSchema [.null, .bool true] hfits 7 0 (3, 1)
  refine ⟨hdec, (tuple_codec.2 0 _ 0 _ ?_ sampleSchema 7 0 (3, 1) [.null, .bool true] hdec).1 9⟩
  decide +kernel

end Ccdb.TupleCodec
