import Ccdb.Lib.Checked
import Ccdb.Storage.TupleCodec

/-!
# Ccdb — decoding tuples stays in bounds

The readers of `tuple.rs` once more, with every slice, index and sum checked: what the
source would panic at is a panic here. `Ccdb.TupleCodec` reads with `drop` and `take`,
which cannot fail; on any bytes the two are the same function.

Main results:

* `deserializeColumns_checked` — the offset never passes the end of the tuple.
* `deserializeTuple_checked` — the checked reader is the one of `Ccdb.TupleCodec`.
* `decoding_total` — an error, or one value per column from a prefix of the bytes.
-/

namespace Ccdb.TupleBounds

open Ccdb.Bits Ccdb.Checked Ccdb.TupleCodec

/-! ## The readers -/

/-- What `?` makes of a `TryFromSliceError`. -/
def notAnArray : DbError := .bail "could not convert slice to array"

/-- `deserialize_value`. -/
def deserializeValue (data : Bytes) (dataType : DataType) (isNull : Bool) :
    Except DbError (Value × Nat) :=
  if isNull then .ok (.null, 0)
  else
    match dataType with
    | .int =>
      if data.length < 4 then .error (.bail "not enough bytes for INT")
      else do
        let v ← readAt i32 notAnArray data 0
        return (.int v, 4)
    | .varchar =>
      if data.length < 4 then .error (.bail "not enough bytes for VARCHAR length prefix")
      else do
        let len ← readAt u32 notAnArray data 0
        let stop ← addUsize 4 len.toNat
        if data.length < stop then .error (.bail "VARCHAR payload truncated")
        else do
          let payload ← slice data 4 stop
          let v ← fromUtf8 payload
          return (.varchar v, stop)
    | .bool =>
      if data.isEmpty then .error (.bail "not enough bytes for BOOL")
      else do
        let b ← index data 0
        return (.bool (b != 0), 1)
    | .double =>
      if data.length < 8 then .error (.bail "not enough bytes for DOUBLE")
      else do
        let v ← readAt u64 notAnArray data 0
        return (.double v, 8)
    | .timestamp =>
      if data.length < 8 then .error (.bail "not enough bytes for TIMESTAMP")
      else do
        let v ← readAt i64 notAnArray data 0
        return (.timestamp v, 8)
    | .date =>
      if data.length < 4 then .error (.bail "not enough bytes for DATE")
      else do
        let v ← readAt i32 notAnArray data 0
        return (.date v, 4)
    | .time =>
      if data.length < 8 then .error (.bail "not enough bytes for TIME")
      else do
        let v ← readAt i64 notAnArray data 0
        return (.time v, 8)
    | .interval =>
      if data.length < 16 then .error (.bail "not enough bytes for INTERVAL")
      else do
        let months ← readAt i32 notAnArray data 0
        let days ← readAt i32 notAnArray data 4
        let micros ← readAt i64 notAnArray data 8
        return (.interval months days micros, 16)

/-- The loop of `deserialize_tuple`, at column `i` and byte `offset`. -/
def deserializeColumns (data bitmap : Bytes) :
    Nat → Nat → List Column → Except DbError (List Value)
  | _, _, [] => .ok []
  | i, offset, column :: columns => do
    let byte ← index bitmap (i / 8)
    let rest ← sliceFrom data offset
    let (value, len) ← deserializeValue rest column.dataType (bit byte (i % 8))
    let offset ← addUsize offset len
    let values ← deserializeColumns data bitmap (i + 1) offset columns
    return value :: values

/-- `deserialize_tuple`. -/
def deserializeTuple (data : Bytes) (schema : Schema) : Except DbError (List Value) :=
  let bitmapLen := nullBitmapSize schema.columns.length
  if data.length < bitmapLen then .error (.bail "tuple truncated: missing null bitmap")
  else do
    let bitmap ← slice data 0 bitmapLen
    deserializeColumns data bitmap 0 bitmapLen schema.columns

/-- `deserialize_tuple_mvcc`. -/
def deserializeTupleMvcc (data : Bytes) (schema : Schema) :
    Except DbError (UInt64 × UInt64 × List Value) :=
  if data.length < MVCC_HEADER_SIZE then .error (.bail "tuple truncated: missing MVCC header")
  else do
    let xmin ← readAt u64 unwrapFailed data 0
    let xmax ← readAt u64 unwrapFailed data 8
    let payload ← sliceFrom data MVCC_HEADER_SIZE
    let values ← deserializeTuple payload schema
    return (xmin, xmax, values)

/-- `deserialize_tuple_mvcc_full`. -/
def deserializeTupleMvccFull (data : Bytes) (schema : Schema) :
    Except DbError (UInt64 × UInt64 × (UInt32 × UInt16) × List Value) :=
  if data.length < MVCC_HEADER_SIZE then .error (.bail "tuple truncated: missing MVCC header")
  else do
    let xmin ← readAt u64 unwrapFailed data 0
    let xmax ← readAt u64 unwrapFailed data 8
    let ctidPage ← readAt u32 unwrapFailed data TCTID_PAGE_OFF
    let ctidSlot ← readAt u16 unwrapFailed data TCTID_SLOT_OFF
    let payload ← sliceFrom data MVCC_HEADER_SIZE
    let values ← deserializeTuple payload schema
    return (xmin, xmax, (ctidPage, ctidSlot), values)

/-! ## No check fails -/

theorem deserializeValue_checked (data : Bytes) (dataType : DataType) (isNull : Bool) :
    deserializeValue data dataType isNull = TupleCodec.deserializeValue data dataType isNull := by
  cases isNull with
  | true => rfl
  | false =>
    cases dataType with
    | int | double | timestamp | date | time =>
      simp only [deserializeValue, TupleCodec.deserializeValue, Bool.false_eq_true, if_false]
      split
      · rfl
      · rw [readAt_eq _ _ (by simp only [i32_width, i64_width, u64_width]; omega)]
        rfl
    | interval =>
      simp only [deserializeValue, TupleCodec.deserializeValue, Bool.false_eq_true, if_false]
      split
      · rfl
      · rw [readAt_eq i32 _ (by rw [i32_width]; omega), readAt_eq i32 _ (by rw [i32_width]; omega),
          readAt_eq i64 _ (by rw [i64_width]; omega)]
        rfl
    | bool =>
      cases data <;> rfl
    | varchar =>
      simp only [deserializeValue, TupleCodec.deserializeValue, Bool.false_eq_true, if_false]
      split
      · rfl
      · rw [readAt_eq u32 _ (by rw [u32_width]; omega)]
        simp only [bind, Except.bind]
        -- the length word has 32 bits, so the sum fits
        have hword := (u32.read data 0).toNat_lt
        rw [addUsize_ok (by unfold USIZE; omega)]
        dsimp only
        split
        · rfl
        · rw [slice_ok (by omega) (by omega), Nat.add_sub_cancel_left]

/-- A field inside a prefix does not see what is behind it. -/
theorem read_take_append {α : Type} (f : Field α) {data : Bytes} {off n : Nat} (rest : Bytes)
    (h : off + f.width ≤ n) (hn : n ≤ data.length) :
    f.read (data.take n ++ rest) off = f.read data off := by
  have hlen : off + f.width ≤ (data.take n).length := by
    rw [List.length_take]
    omega
  calc f.read (data.take n ++ rest) off
      = f.read (data.take n) off := f.read_prefix _ _ hlen
    _ = f.read (data.take n ++ data.drop n) off := (f.read_prefix _ _ hlen).symm
    _ = f.read data off := by rw [List.take_append_drop]

theorem stringBytes_fromUtf8 {bytes : Bytes} {s : String} (h : fromUtf8 bytes = .ok s) :
    stringBytes s = bytes := by
  rw [stringBytes_eq]
  unfold fromUtf8 String.fromUTF8? at h
  by_cases hv : ByteArray.IsValidUTF8 ⟨bytes.toArray⟩
  · rw [dif_pos hv] at h
    cases h
    rfl
  · rw [dif_neg hv] at h
    cases h

/-- What a column may hold. -/
def Typed (v : Value) (dataType : DataType) : Prop := v = .null ∨ v.dataType = some dataType

/-- One value takes the bytes of its serialisation from the front, whatever is behind them. -/
theorem deserializeValue_front {data : Bytes} {dataType : DataType} {isNull : Bool} {v : Value}
    {len : Nat} (h : TupleCodec.deserializeValue data dataType isNull = .ok (v, len)) :
    len ≤ data.length ∧ len = (serializeValue v).length ∧ Typed v dataType ∧
      ∀ rest, TupleCodec.deserializeValue (data.take len ++ rest) dataType isNull =
        .ok (v, len) := by
  cases isNull with
  | true =>
    cases h
    exact ⟨Nat.zero_le _, rfl, Or.inl rfl, fun _ => rfl⟩
  | false =>
    have hshort : ∀ {w : Nat}, ¬ data.length < w → ∀ rest : Bytes,
        ¬ (data.take w ++ rest).length < w := by
      intro w hw rest
      rw [List.length_append, List.length_take]
      omega
    cases dataType with
    | int | double | timestamp | date | time =>
      simp only [TupleCodec.deserializeValue, Bool.false_eq_true, if_false] at h ⊢
      split at h
      · cases h
      · rename_i hlen
        cases h
        refine ⟨by omega, by simp [serializeValue, i32Bytes, i64Bytes], Or.inr rfl, fun rest => ?_⟩
        rw [if_neg (hshort hlen rest), read_take_append _ _ (by decide) (by omega)]
    | interval =>
      simp only [TupleCodec.deserializeValue, Bool.false_eq_true, if_false] at h ⊢
      split at h
      · cases h
      · rename_i hlen
        cases h
        refine ⟨by omega, by simp [serializeValue, i32Bytes, i64Bytes], Or.inr rfl, fun rest => ?_⟩
        rw [if_neg (hshort hlen rest), read_take_append i32 _ (by decide) (by omega),
          read_take_append i32 _ (by decide) (by omega),
          read_take_append i64 _ (by decide) (by omega)]
    | bool =>
      cases data with
      | nil => cases h
      | cons b data =>
        cases h
        exact ⟨by simp, rfl, Or.inr rfl, fun rest => rfl⟩
    | varchar =>
      simp only [TupleCodec.deserializeValue, Bool.false_eq_true, if_false] at h ⊢
      split at h
      · cases h
      · rename_i hprefix
        split at h
        · cases h
        · rename_i hlen
          set n := (u32.read data 0).toNat with hn
          cases hs : fromUtf8 ((data.drop 4).take n) with
          | error e =>
            rw [hs] at h
            cases h
          | ok s =>
            rw [hs] at h
            cases h
            have hbytes := stringBytes_fromUtf8 hs
            have hsize : (stringBytes s).length = n := by
              rw [hbytes, List.length_take, List.length_drop]
              omega
            refine ⟨by omega, by simp [serializeValue, hsize], Or.inr rfl, fun rest => ?_⟩
            have hword : (u32.read (data.take (4 + n) ++ rest) 0).toNat = n := by
              rw [read_take_append u32 rest (by rw [u32_width]; omega) (by omega)]
            have hroom := hshort hlen rest
            rw [if_neg (by omega), hword, if_neg hroom]
            have hpayload : ((data.take (4 + n) ++ rest).drop 4).take n = (data.drop 4).take n := by
              rw [List.drop_append_of_le_length (by rw [List.length_take]; omega), List.drop_take,
                Nat.add_sub_cancel_left, List.take_append_of_le_length (by simp; omega),
                List.take_take, Nat.min_self]
            rw [hpayload, hs]
            rfl

/-- The loop keeps its offset inside the tuple, and so do its indices. -/
theorem deserializeColumns_checked {data bitmap : Bytes} (hdata : data.length < USIZE) :
    ∀ (columns : List Column) (i offset : Nat), offset ≤ data.length →
      i + columns.length ≤ 8 * bitmap.length →
      deserializeColumns data bitmap i offset columns =
        TupleCodec.deserializeColumns data bitmap i offset columns
  | [], _, _, _, _ => rfl
  | column :: columns, i, offset, hoff, hbits => by
    rw [List.length_cons] at hbits
    rw [deserializeColumns, TupleCodec.deserializeColumns, index_ok 0 (by omega), sliceFrom_ok hoff]
    have hbit : bit (bitmap.getD (i / 8) 0) (i % 8) = isNull bitmap i := rfl
    simp only [bind, Except.bind, deserializeValue_checked, hbit]
    cases hv : TupleCodec.deserializeValue (data.drop offset) column.dataType (isNull bitmap i) with
    | error e => rfl
    | ok p =>
      obtain ⟨v, len⟩ := p
      have hlen := (deserializeValue_front hv).1
      rw [List.length_drop] at hlen
      dsimp only
      rw [addUsize_ok (by omega)]
      dsimp only
      rw [deserializeColumns_checked hdata columns (i + 1) (offset + len) (by omega) (by omega)]

theorem deserializeTuple_checked {data : Bytes} (hdata : data.length < USIZE) (schema : Schema) :
    deserializeTuple data schema = TupleCodec.deserializeTuple data schema := by
  simp only [deserializeTuple, TupleCodec.deserializeTuple]
  split
  · rfl
  · rename_i hlen
    have htake : (data.take (nullBitmapSize schema.columns.length)).length =
        nullBitmapSize schema.columns.length := by
      rw [List.length_take]
      omega
    have hbits : 0 + schema.columns.length ≤
        8 * (data.take (nullBitmapSize schema.columns.length)).length := by
      rw [htake, nullBitmapSize]
      omega
    rw [slice_ok (Nat.zero_le _) (by omega), List.drop_zero, Nat.sub_zero]
    exact deserializeColumns_checked hdata _ _ _ (by omega) hbits

theorem deserializeTupleMvccFull_checked {data : Bytes} (hdata : data.length < USIZE)
    (schema : Schema) :
    deserializeTupleMvccFull data schema = TupleCodec.deserializeTupleMvccFull data schema := by
  have hpayload : (data.drop MVCC_HEADER_SIZE).length < USIZE := by
    rw [List.length_drop]
    omega
  simp only [deserializeTupleMvccFull, TupleCodec.deserializeTupleMvccFull]
  split
  · rfl
  · rename_i hlen
    have hroom : MVCC_HEADER_SIZE ≤ data.length := Nat.le_of_not_lt hlen
    have hbytes : 22 ≤ data.length := hroom
    rw [readAt_eq u64 _ (by rw [u64_width]; omega), readAt_eq u64 _ (by rw [u64_width]; omega),
      readAt_eq u32 _ (by rw [u32_width, TCTID_PAGE_OFF]; omega),
      readAt_eq u16 _ (by rw [u16_width, TCTID_SLOT_OFF]; omega), sliceFrom_ok hroom]
    simp only [bind, Except.bind, deserializeTuple_checked hpayload]

/-- `deserialize_tuple_mvcc` reads what `deserialize_tuple_mvcc_full` reads, less the `t_ctid`. -/
theorem deserializeTupleMvcc_checked {data : Bytes} (hdata : data.length < USIZE)
    (schema : Schema) :
    deserializeTupleMvcc data schema =
      (TupleCodec.deserializeTupleMvccFull data schema).map fun r => (r.1, r.2.1, r.2.2.2) := by
  have hpayload : (data.drop MVCC_HEADER_SIZE).length < USIZE := by
    rw [List.length_drop]
    omega
  simp only [deserializeTupleMvcc, TupleCodec.deserializeTupleMvccFull]
  split
  · rfl
  · rename_i hlen
    have hroom : MVCC_HEADER_SIZE ≤ data.length := Nat.le_of_not_lt hlen
    have hbytes : 22 ≤ data.length := hroom
    rw [readAt_eq u64 _ (by rw [u64_width]; omega), readAt_eq u64 _ (by rw [u64_width]; omega),
      sliceFrom_ok hroom]
    simp only [bind, Except.bind, deserializeTuple_checked hpayload]
    cases TupleCodec.deserializeTuple (data.drop MVCC_HEADER_SIZE) schema <;> rfl

/-! ## What is consumed -/

/-- The errors of the decoder are its own: nothing else of `DbError` comes out of it. -/
theorem deserializeValue_error {data : Bytes} {dataType : DataType} {isNull : Bool} {e : DbError}
    (h : TupleCodec.deserializeValue data dataType isNull = .error e) : ∃ msg, e = .bail msg := by
  cases isNull with
  | true => cases h
  | false =>
    cases dataType with
    | int | double | timestamp | date | time | interval =>
      simp only [TupleCodec.deserializeValue, Bool.false_eq_true, if_false] at h
      split at h <;> cases h
      exact ⟨_, rfl⟩
    | bool =>
      cases data <;> cases h
      exact ⟨_, rfl⟩
    | varchar =>
      simp only [TupleCodec.deserializeValue, Bool.false_eq_true, if_false] at h
      split at h
      · cases h
        exact ⟨_, rfl⟩
      · split at h
        · cases h
          exact ⟨_, rfl⟩
        · unfold fromUtf8 at h
          split at h <;> cases h
          exact ⟨_, rfl⟩

theorem deserializeColumns_error {data bitmap : Bytes} {e : DbError} :
    ∀ {columns : List Column} {i offset : Nat},
      TupleCodec.deserializeColumns data bitmap i offset columns = .error e → ∃ msg, e = .bail msg
  | [], _, _, h => by cases h
  | column :: columns, i, offset, h => by
    rw [TupleCodec.deserializeColumns] at h
    cases hv : TupleCodec.deserializeValue (data.drop offset) column.dataType (isNull bitmap i) with
    | error e' =>
      rw [hv] at h
      cases h
      exact deserializeValue_error hv
    | ok p =>
      rw [hv] at h
      simp only [bind, Except.bind] at h
      cases hrest : TupleCodec.deserializeColumns data bitmap (i + 1) (offset + p.2) columns with
      | error e' =>
        rw [hrest] at h
        cases h
        exact deserializeColumns_error hrest
      | ok vs =>
        rw [hrest] at h
        cases h

/-- The columns take the bytes of their serialisations from `offset` on, one after the other. -/
theorem deserializeColumns_front {data bitmap : Bytes} :
    ∀ {columns : List Column} {i offset : Nat} {vs : List Value}, offset ≤ data.length →
      TupleCodec.deserializeColumns data bitmap i offset columns = .ok vs →
      offset + (vs.flatMap serializeValue).length ≤ data.length ∧
        List.Forall₂ (fun v c => Typed v c.dataType) vs columns ∧
        ∀ stop, offset + (vs.flatMap serializeValue).length ≤ stop → stop ≤ data.length →
          ∀ rest, TupleCodec.deserializeColumns (data.take stop ++ rest) bitmap i offset columns =
            .ok vs
  | [], _, _, _, hoff, h => by
    cases h
    exact ⟨by simpa using hoff, List.Forall₂.nil, fun _ _ _ _ => rfl⟩
  | column :: columns, i, offset, vs, hoff, h => by
    rw [TupleCodec.deserializeColumns] at h
    cases hv : TupleCodec.deserializeValue (data.drop offset) column.dataType (isNull bitmap i) with
    | error e =>
      rw [hv] at h
      cases h
    | ok p =>
      obtain ⟨v, len⟩ := p
      rw [hv] at h
      simp only [bind, Except.bind] at h
      cases htail : TupleCodec.deserializeColumns data bitmap (i + 1) (offset + len) columns with
      | error e =>
        rw [htail] at h
        cases h
      | ok tail =>
        rw [htail] at h
        cases h
        obtain ⟨hlen, hsize, htyped, hfront⟩ := deserializeValue_front hv
        rw [List.length_drop] at hlen
        obtain ⟨hend, htypes, hloop⟩ := deserializeColumns_front (by omega) htail
        have hsum : offset + ((v :: tail).flatMap serializeValue).length =
            offset + len + (tail.flatMap serializeValue).length := by
          rw [List.flatMap_cons, List.length_append, ← hsize, Nat.add_assoc]
        rw [hsum]
        refine ⟨hend, List.Forall₂.cons htyped htypes, fun stop hstop hle rest => ?_⟩
        -- the bytes of this column lie in front of `stop`
        have hfirst : ((data.take stop ++ rest).drop offset).take len =
            (data.drop offset).take len := by
          rw [List.drop_append_of_le_length (by rw [List.length_take]; omega), List.drop_take,
            List.take_append_of_le_length (by simp; omega), List.take_take,
            Nat.min_eq_left (by omega)]
        have hcut : (data.take stop ++ rest).drop offset =
            (data.drop offset).take len ++ (data.take stop ++ rest).drop (offset + len) := by
          rw [← hfirst, ← List.drop_drop, List.take_append_drop]
        rw [TupleCodec.deserializeColumns, hcut, hfront]
        simp only [bind, Except.bind]
        rw [hloop stop hstop hle rest]
        rfl

/-! ## Totality -/

/-- What a decoder makes of `data`: an error of its own, or a result whose values are one per
column, each NULL or of the column's type. They take `header` bytes and those of their
serialisation from the front of `data`, and with other bytes behind these the result is the
same. -/
def Total {α : Type} (decode : Bytes → Schema → Except DbError α) (values : α → List Value)
    (header : Nat) (schema : Schema) (data : Bytes) : Prop :=
  (∃ msg, decode data schema = .error (.bail msg)) ∨
    ∃ r, decode data schema = .ok r ∧
      List.Forall₂ (fun v c => Typed v c.dataType) (values r) schema.columns ∧
      header + (serializeTuple (values r)).length ≤ data.length ∧
      ∀ rest : Bytes, header + (serializeTuple (values r)).length + rest.length < USIZE →
        decode (data.take (header + (serializeTuple (values r)).length) ++ rest) schema = .ok r

variable {schema : Schema}

/-- The reader of `Ccdb.TupleCodec`, whose loop starts behind the bitmap. -/
theorem codecTuple_total (data : Bytes) (schema : Schema) :
    (∃ msg, TupleCodec.deserializeTuple data schema = .error (.bail msg)) ∨
      ∃ vs, TupleCodec.deserializeTuple data schema = .ok vs ∧
        List.Forall₂ (fun v c => Typed v c.dataType) vs schema.columns ∧
        (serializeTuple vs).length ≤ data.length ∧
        ∀ stop, (serializeTuple vs).length ≤ stop → stop ≤ data.length → ∀ rest : Bytes,
          TupleCodec.deserializeTuple (data.take stop ++ rest) schema = .ok vs := by
  cases h : TupleCodec.deserializeTuple data schema with
  | error e =>
    refine Or.inl ?_
    simp only [TupleCodec.deserializeTuple] at h
    split at h
    · cases h
      exact ⟨_, rfl⟩
    · obtain ⟨msg, rfl⟩ := deserializeColumns_error h
      exact ⟨msg, rfl⟩
  | ok vs =>
    refine Or.inr ⟨vs, rfl, ?_⟩
    simp only [TupleCodec.deserializeTuple] at h ⊢
    split at h
    · cases h
    · rename_i hlen
      obtain ⟨hend, htypes, hloop⟩ := deserializeColumns_front (by omega) h
      have hsize : (serializeTuple vs).length =
          nullBitmapSize schema.columns.length + (vs.flatMap serializeValue).length := by
        rw [serializeTuple, List.length_append, nullBitmap_length, htypes.length_eq]
      refine ⟨htypes, by omega, fun stop hstop hle rest => ?_⟩
      have hbitmap : (data.take stop ++ rest).take (nullBitmapSize schema.columns.length) =
          data.take (nullBitmapSize schema.columns.length) := by
        rw [List.take_append_of_le_length (by rw [List.length_take]; omega), List.take_take,
          Nat.min_eq_left (by omega)]
      rw [if_neg (by rw [List.length_append, List.length_take]; omega), hbitmap]
      exact hloop stop (by omega) hle rest

theorem take_append_length {data rest : Bytes} {n : Nat} (h : n ≤ data.length)
    (hlt : n + rest.length < USIZE) : (data.take n ++ rest).length < USIZE := by
  rwa [List.length_append, List.length_take, Nat.min_eq_left h]

theorem deserializeTuple_total {data : Bytes} (hdata : data.length < USIZE) :
    Total deserializeTuple id 0 schema data := by
  dsimp only [Total]
  rw [deserializeTuple_checked hdata]
  rcases codecTuple_total data schema with herror | ⟨vs, hvs, htypes, hend, hfront⟩
  · exact Or.inl herror
  · refine Or.inr ⟨vs, hvs, htypes, by simpa using hend, fun rest hrest => ?_⟩
    simp only [id, Nat.zero_add] at hrest ⊢
    rw [deserializeTuple_checked (take_append_length hend hrest)]
    exact hfront _ (Nat.le_refl _) hend rest

/-- The header is in front of the tuple. -/
theorem deserializeTupleMvccFull_total {data : Bytes} (hdata : data.length < USIZE) :
    Total deserializeTupleMvccFull (·.2.2.2) MVCC_HEADER_SIZE schema data := by
  dsimp only [Total]
  rw [deserializeTupleMvccFull_checked hdata]
  by_cases hlen : data.length < MVCC_HEADER_SIZE
  · exact Or.inl ⟨_, if_pos hlen⟩
  · rw [TupleCodec.deserializeTupleMvccFull, if_neg hlen]
    rcases codecTuple_total (data.drop MVCC_HEADER_SIZE) schema with
      ⟨msg, herror⟩ | ⟨vs, hvs, htypes, hend, hfront⟩
    · exact Or.inl ⟨msg, by rw [herror]; rfl⟩
    · rw [List.length_drop] at hend
      refine Or.inr ⟨_, by rw [hvs]; rfl, htypes, by dsimp only; omega, fun rest hrest => ?_⟩
      set n := (serializeTuple vs).length with hn
      have hle : MVCC_HEADER_SIZE + n ≤ data.length := by omega
      have hdrop : (data.take (MVCC_HEADER_SIZE + n) ++ rest).drop MVCC_HEADER_SIZE =
          (data.drop MVCC_HEADER_SIZE).take n ++ rest := by
        rw [List.drop_append_of_le_length (by rw [List.length_take]; omega), List.drop_take,
          Nat.add_sub_cancel_left]
      have hheader : ¬ (data.take (MVCC_HEADER_SIZE + n) ++ rest).length < MVCC_HEADER_SIZE := by
        rw [List.length_append, List.length_take]
        omega
      have hfull := hfront n (Nat.le_refl _) (by rw [List.length_drop]; omega) rest
      rw [deserializeTupleMvccFull_checked (take_append_length hle hrest),
        TupleCodec.deserializeTupleMvccFull, if_neg hheader, hdrop, hfull,
        read_take_append u64 _ (by rw [u64_width, MVCC_HEADER_SIZE]; omega) hle,
        read_take_append u64 _ (by rw [u64_width, MVCC_HEADER_SIZE]; omega) hle,
        read_take_append u32 _ (by rw [u32_width, MVCC_HEADER_SIZE, TCTID_PAGE_OFF]; omega) hle,
        read_take_append u16 _ (by rw [u16_width, MVCC_HEADER_SIZE, TCTID_SLOT_OFF]; omega) hle]
      rfl

theorem deserializeTupleMvcc_total {data : Bytes} (hdata : data.length < USIZE) :
    Total deserializeTupleMvcc (·.2.2) MVCC_HEADER_SIZE schema data := by
  have hfull := @deserializeTupleMvccFull_total schema data hdata
  dsimp only [Total] at hfull ⊢
  rw [deserializeTupleMvccFull_checked hdata] at hfull
  rw [deserializeTupleMvcc_checked hdata]
  rcases hfull with ⟨msg, herror⟩ | ⟨r, hr, htypes, hend, hfront⟩
  · exact Or.inl ⟨msg, congrArg (Except.map _) herror⟩
  · refine Or.inr ⟨(r.1, r.2.1, r.2.2.2), congrArg (Except.map _) hr, htypes, hend,
      fun rest hrest => ?_⟩
    have hlt := take_append_length hend hrest
    have hsame := hfront rest hrest
    rw [deserializeTupleMvccFull_checked hlt] at hsame
    rw [deserializeTupleMvcc_checked hlt, hsame]
    rfl

/-- **Tuple decoding is total.** On every byte slice and schema the three readers return: no
slice, index or sum of theirs panics, and a result has one value of the column's type or NULL
per column, from a prefix of the bytes. -/
theorem decoding_total (data : Bytes) (schema : Schema) (hdata : data.length < USIZE) :
    Total deserializeTuple id 0 schema data ∧
      Total deserializeTupleMvcc (·.2.2) MVCC_HEADER_SIZE schema data ∧
      Total deserializeTupleMvccFull (·.2.2.2) MVCC_HEADER_SIZE schema data :=
  ⟨deserializeTuple_total hdata, deserializeTupleMvcc_total hdata,
    deserializeTupleMvccFull_total hdata⟩

/-- A length word that announces 4 GiB. -/
theorem decoding_total_truncated :
    deserializeTuple [0, 255, 255, 255, 255] ⟨[⟨"name", .varchar⟩]⟩ =
        .error (.bail "VARCHAR payload truncated") ∧
      Total deserializeTuple id 0 ⟨[⟨"name", .varchar⟩]⟩ [0, 255, 255, 255, 255] :=
  ⟨by rfl, (decoding_total _ _ (by decide)).1⟩

end Ccdb.TupleBounds
