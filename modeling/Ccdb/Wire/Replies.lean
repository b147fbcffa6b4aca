import Ccdb.Wire.RoundTrip
import Mathlib.Data.List.Forall2
import Mathlib.Data.List.Induction

/-!
# Ccdb — what the server writes

The writing half of `protocol.rs`. A message is queued, and what is queued is shipped where the
client cannot go on without it.

Main results:

* `sendAll_shipped` — the client has the messages up to the last that ships, and these whole.
* `stream_determines` — the bytes say which messages were sent, and which rows.
* `binary_rows_differ` — different rows make different bytes, in the binary format.
-/

namespace Ccdb.Wire

open Ccdb.Checked Ccdb.TupleCodec

/-! ## The output buffer -/

/-- The writing half of `Connection`: what the client has, and what is queued. -/
structure Connection where
  stream : Bytes
  outBuf : Bytes

structure ColumnDesc where
  name : String
  typeOid : Int32
  typeSize : Int16
deriving DecidableEq, Repr

/-- The methods of `Connection` that write: `send_auth_ok` and the others, and `flush_out`. -/
inductive Call where
  | authOk
  | parameterStatus (name value : String)
  | backendKeyData (pid secret : Int32)
  | readyForQuery
  | rowDescription (columns : List ColumnDesc)
  | dataRowBytes (columns : List (Option Bytes))
  | commandComplete (tag : String)
  | errorWithCode (sqlstate message : String)
  | emptyQuery
  | parseComplete
  | bindComplete
  | noData
  | parameterDescription (n : Nat)
  | closeComplete
  | copyInResponse (columns : Nat)
  | flushOut
deriving DecidableEq, Repr

namespace Call

/-- A column without a table, in the text format. -/
def columnField (c : ColumnDesc) : Bytes :=
  cstr c.name ++ be32 0 ++ be16 0 ++ be32 c.typeOid ++ be16 c.typeSize ++ be32 (-1) ++ be16 0

def errorBody (sqlstate message : String) : Bytes :=
  'S'.toUInt8 :: cstr "ERROR" ++ 'V'.toUInt8 :: cstr "ERROR" ++ 'C'.toUInt8 :: cstr sqlstate ++
    'M'.toUInt8 :: cstr message ++ [0]

/-- The type and the body of the message. -/
def written : Call → Option (UInt8 × Bytes)
  | authOk => some ('R'.toUInt8, be32 0)
  | parameterStatus name value => some ('S'.toUInt8, cstr name ++ cstr value)
  | backendKeyData pid secret => some ('K'.toUInt8, be32 pid ++ be32 secret)
  | readyForQuery => some ('Z'.toUInt8, ['I'.toUInt8])
  | rowDescription columns => some ('T'.toUInt8, counted columnField columns)
  | dataRowBytes columns => some ('D'.toUInt8, counted paramField columns)
  | commandComplete tag => some ('C'.toUInt8, cstr tag)
  | errorWithCode sqlstate message => some ('E'.toUInt8, errorBody sqlstate message)
  | emptyQuery => some ('I'.toUInt8, [])
  | parseComplete => some ('1'.toUInt8, [])
  | bindComplete => some ('2'.toUInt8, [])
  | noData => some ('n'.toUInt8, [])
  | parameterDescription n =>
    some ('t'.toUInt8, be16 (Int16.ofNat n) ++ (List.replicate n (be32 0)).flatten)
  | closeComplete => some ('3'.toUInt8, [])
  | copyInResponse columns =>
    some ('G'.toUInt8, 0 :: be16 (Int16.ofNat columns) ++ (List.replicate columns (be16 0)).flatten)
  | flushOut => none

/-- The client waits for the answer. -/
def ships : Call → Bool
  | readyForQuery | copyInResponse _ | flushOut => true
  | _ => false

end Call

namespace Connection

def new : Connection := ⟨[], []⟩

/-- `write_message`. -/
def writeMessage (conn : Connection) (msgType : UInt8) (body : Bytes) : Connection :=
  { conn with
    outBuf := conn.outBuf ++ msgType :: (be32 (Int32.ofNat (body.length + 4)) ++ body) }

/-- `flush_out`. -/
def flushOut (conn : Connection) : Connection := ⟨conn.stream ++ conn.outBuf, []⟩

def send (conn : Connection) (call : Call) : Connection :=
  let conn := match call.written with
    | some (msgType, body) => conn.writeMessage msgType body
    | none => conn
  if call.ships then conn.flushOut else conn

def sendAll (conn : Connection) (calls : List Call) : Connection := calls.foldl send conn

end Connection

/-- A message on the stream. -/
def frameOf (m : UInt8 × Bytes) : Bytes := m.1 :: (be32 (Int32.ofNat (m.2.length + 4)) ++ m.2)

/-- The messages of some calls on the stream. -/
def frames (calls : List Call) : Bytes := (calls.filterMap Call.written).flatMap frameOf

theorem frames_append (a b : List Call) : frames (a ++ b) = frames a ++ frames b := by
  rw [frames, List.filterMap_append, List.flatMap_append, frames, frames]

/-- What one call does. -/
theorem Connection.send_eq (conn : Connection) (call : Call) :
    conn.send call =
      if call.ships then ⟨conn.stream ++ (conn.outBuf ++ frames [call]), []⟩
      else ⟨conn.stream, conn.outBuf ++ frames [call]⟩ := by
  cases call <;> simp [send, Call.written, Call.ships, writeMessage, flushOut, frames, frameOf]

theorem Connection.sendAll_concat (conn : Connection) (calls : List Call) (call : Call) :
    conn.sendAll (calls ++ [call]) = (conn.sendAll calls).send call := List.foldl_concat ..

/-- **What the client has**: the messages up to the last call that ships; the others wait. -/
theorem sendAll_shipped (calls : List Call) :
    ∃ done pending, calls = done ++ pending ∧
      Connection.new.sendAll calls = ⟨frames done, frames pending⟩ ∧
      (∀ call ∈ pending, call.ships = false) ∧ ∀ call, done.getLast? = some call → call.ships := by
  induction calls using List.reverseRecOn with
  | nil => exact ⟨[], [], rfl, rfl, fun _ h => absurd h List.not_mem_nil, fun _ h => by cases h⟩
  | append_singleton calls call ih =>
    obtain ⟨done, pending, rfl, hsent, hpending, hdone⟩ := ih
    rw [Connection.sendAll_concat, hsent, Connection.send_eq]
    -- a call that ships empties the buffer; any other one is the last that waits
    cases hships : call.ships with
    | true =>
      refine ⟨done ++ pending ++ [call], [], (List.append_nil _).symm, ?_,
        fun _ h => absurd h List.not_mem_nil, fun c hc => ?_⟩
      · rw [frames_append, frames_append, List.append_assoc]
        rfl
      · rw [List.getLast?_concat] at hc
        cases hc
        exact hships
    | false =>
      refine ⟨done, pending ++ [call], List.append_assoc _ _ _, ?_, fun c hc => ?_, hdone⟩
      · rw [frames_append]
        rfl
      · rcases List.mem_append.1 hc with hc | hc
        · exact hpending c hc
        · cases List.mem_singleton.1 hc
          exact hships

/-- No byte is lost between the buffer and the stream. -/
theorem sendAll_bytes (calls : List Call) :
    (Connection.new.sendAll calls).stream ++ (Connection.new.sendAll calls).outBuf = frames calls := by
  induction calls using List.reverseRecOn with
  | nil => rfl
  | append_singleton calls call ih =>
    rw [Connection.sendAll_concat, Connection.send_eq, frames_append, ← ih]
    cases call.ships <;> simp

/-- Nothing waits behind a call that ships. -/
theorem sendAll_ships {calls : List Call} {call : Call} (hlast : calls.getLast? = some call)
    (hships : call.ships) : Connection.new.sendAll calls = ⟨frames calls, []⟩ := by
  obtain ⟨front, rfl⟩ := List.getLast?_eq_some_iff.1 hlast
  rw [Connection.sendAll_concat, Connection.send_eq, if_pos hships, ← List.append_assoc,
    sendAll_bytes, frames_append]

/-! ## What the bytes say -/

theorem be32_inj {n m : Int32} (h : be32 n = be32 m) : n = m := by
  rw [← i32Be_be32 n, h, i32Be_be32]

/-- The length words say where a message ends. -/
theorem frames_inj : ∀ {ms ms' : List (UInt8 × Bytes)}, (∀ m ∈ ms, m.2.length + 4 < 2 ^ 31) →
    (∀ m ∈ ms', m.2.length + 4 < 2 ^ 31) → ms.flatMap frameOf = ms'.flatMap frameOf → ms = ms'
  | [], [], _, _, _ => rfl
  | [], m' :: ms', _, _, h => by cases h
  | m :: ms, [], _, _, h => by cases h
  | (t, body) :: ms, (t', body') :: ms', hlen, hlen', h => by
    have hlong : (Int32.ofNat (body.length + 4)).toInt = (body.length + 4 : Nat) :=
      toInt_ofNat32 (hlen _ List.mem_cons_self)
    have hlong' : (Int32.ofNat (body'.length + 4)).toInt = (body'.length + 4 : Nat) :=
      toInt_ofNat32 (hlen' _ List.mem_cons_self)
    simp only [List.flatMap_cons, frameOf, List.cons_append, List.append_assoc] at h
    obtain ⟨rfl, htail⟩ := List.cons.inj h
    -- the words are of one width, so they are equal, and with them the lengths of the bodies
    obtain ⟨hword, htail⟩ := List.append_inj htail (by simp [be32])
    have hword := congrArg Int32.toInt (be32_inj hword)
    obtain ⟨rfl, hrest⟩ := List.append_inj htail (by omega)
    rw [frames_inj (fun m hm => hlen m (List.mem_cons_of_mem _ hm))
      (fun m hm => hlen' m (List.mem_cons_of_mem _ hm)) hrest]

/-- The columns of a data row. -/
def Call.columns : Call → Option (List (Option Bytes))
  | dataRowBytes columns => some columns
  | _ => none

/-- What the length words have room for. -/
structure Call.Fits (call : Call) : Prop where
  length : ∀ m, call.written = some m → m.2.length + 4 < 2 ^ 31
  count : ∀ cols, call.columns = some cols → cols.length < 2 ^ 15
  columns : ∀ cols bytes, call.columns = some cols → some bytes ∈ cols → bytes.length < 2 ^ 31

/-- A message that is no row. -/
theorem Call.Fits.of_columns_none {call : Call} {m : UInt8 × Bytes} (hm : call.written = some m)
    (hcolumns : call.columns = none) (hlen : m.2.length + 4 < 2 ^ 31) : call.Fits where
  length m' hm' := by
    cases hm.symm.trans hm'
    exact hlen
  count cols hcols := by cases hcolumns.symm.trans hcols
  columns cols bytes hcols := by cases hcolumns.symm.trans hcols

/-- A data row read the way `parse_bind` reads its parameters. -/
def readColumns (body : Bytes) : Run (List (Option Bytes)) := do
  let (n, i) ← readI16 body 0
  Run.allocate (frameSize body) (Checked.asUsize n.toInt) SIZE_OF_PARAM
  let p ← Run.times (readParam body) (Checked.asUsize n.toInt) i
  return p.1

def rowOf (m : UInt8 × Bytes) : Option (List (Option Bytes)) :=
  if m.1 = 'D'.toUInt8 then (readColumns m.2).result.toOption else none

theorem rowOf_written {call : Call} (h : call.Fits) : call.written.bind rowOf = call.columns := by
  cases call with
  | dataRowBytes cols =>
    -- a row has the form of the parameters of a Bind, so the parser of these reads it back
    have hbody : (counted paramField cols).length + 4 < 2 ^ 31 := h.length _ rfl
    have hparam : Reads (counted paramField cols) (readParam (counted paramField cols)) Param :=
      readParam_reads (by omega)
    obtain ⟨i, -, -, hread⟩ := counted_parsed hparam (by omega) (Nat.zero_le _)
      ((List.append_nil (counted paramField cols)).symm) (h.count cols rfl)
      (fun v hv => param_paramField fun bytes hbytes => h.columns cols bytes rfl (hbytes ▸ hv))
      (by decide : SIZE_OF_PARAM ≤ 24)
    have hresult : (readColumns (counted paramField cols)).result = .ok cols :=
      hread _ fun p => pure p.1
    show (readColumns (counted paramField cols)).result.toOption = some cols
    rw [hresult]
    rfl
  | _ => rfl

theorem columns_eq {calls : List Call} (h : ∀ c ∈ calls, c.Fits) :
    calls.filterMap Call.columns = (calls.filterMap Call.written).filterMap rowOf := by
  rw [List.filterMap_filterMap]
  exact List.filterMap_congr fun c hc => (rowOf_written (h c hc)).symm

/-- **The bytes determine the messages**, and the columns of every row. -/
theorem stream_determines {calls calls' : List Call} (h : ∀ c ∈ calls, c.Fits)
    (h' : ∀ c ∈ calls', c.Fits) (hready : calls.getLast? = some .readyForQuery)
    (hready' : calls'.getLast? = some .readyForQuery)
    (hstream : (Connection.new.sendAll calls).stream = (Connection.new.sendAll calls').stream) :
    calls.filterMap Call.written = calls'.filterMap Call.written ∧
      calls.filterMap Call.columns = calls'.filterMap Call.columns := by
  have hfits : ∀ {cs : List Call}, (∀ c ∈ cs, c.Fits) → ∀ m ∈ cs.filterMap Call.written,
      m.2.length + 4 < 2 ^ 31 := by
    intro cs hcs m hm
    obtain ⟨c, hc, hm⟩ := List.mem_filterMap.1 hm
    exact (hcs c hc).length m hm
  rw [sendAll_ships hready rfl, sendAll_ships hready' rfl] at hstream
  have hmessages := frames_inj (hfits h) (hfits h') hstream
  exact ⟨hmessages, by rw [columns_eq h, columns_eq h', hmessages]⟩

/-! ## Values -/

/-- `u64::to_be_bytes`. -/
def be64 (n : UInt64) : Bytes := (toLe 8 n.toNat).reverse

/-- `format_for_col`. -/
def formatForCol (formats : List Int16) (colIdx : Nat) : Int16 :=
  match formats with
  | [] => 0
  | [format] => format
  | formats => formats.getD colIdx 0

/-- The binary form of a value that is not NULL. -/
def binaryForm : Value → Bytes
  | .int n | .date n => be32 n
  | .bool b => [if b then 1 else 0]
  | .double bits => be64 bits
  | .varchar s => stringBytes s
  | .timestamp n | .time n => be64 n.toUInt64
  | .interval months days micros => be64 micros.toUInt64 ++ (be32 days ++ be32 months)
  | .null => []

/-- `value_to_wire`, with `value_to_text` for the text format. -/
def valueToWire (valueToText : Value → String) (v : Value) (format : Int16) : Option Bytes :=
  if v = .null then none
  else if format = 1 then some (binaryForm v)
  else some (stringBytes (valueToText v))

/-- The data rows of a result. -/
def dataRows (valueToText : Value → String) (formats : List Int16) (rows : List (List Value)) :
    List Call :=
  rows.map fun row => .dataRowBytes (row.mapIdx fun i v => valueToWire valueToText v (formatForCol formats i))

theorem be64_inj {n m : UInt64} (h : be64 n = be64 m) : n = m := by
  have hn := fromBe_reverse 8 n.toNat n.toNat_lt
  have hm := fromBe_reverse 8 m.toNat m.toNat_lt
  rw [be64, be64] at h
  exact UInt64.toNat_inj.1 (by rw [← hn, h, hm])

theorem stringBytes_inj {s t : String} (h : stringBytes s = stringBytes t) : s = t := by
  have hs := fromUtf8_stringBytes s
  rw [h, fromUtf8_stringBytes t] at hs
  exact (Except.ok.inj hs).symm

theorem i64_inj {n m : Int64} (h : be64 n.toUInt64 = be64 m.toUInt64) : n = m := by
  rw [← Int64.toInt64_toUInt64 n, be64_inj h, Int64.toInt64_toUInt64]

/-- A value of the type or NULL. -/
def OfType (v : Value) (t : DataType) : Prop := v = .null ∨ v.dataType = some t

theorem binaryForm_inj {v w : Value} {t : DataType} (hv : v.dataType = some t)
    (hw : w.dataType = some t) (h : binaryForm v = binaryForm w) : v = w := by
  -- two values of one type have one constructor
  cases v <;> cases w <;> cases hv <;> cases hw
  case int.int => rw [be32_inj h]
  case date.date => rw [be32_inj h]
  case varchar.varchar => rw [stringBytes_inj h]
  case double.double => rw [be64_inj h]
  case bool.bool b c => cases b <;> cases c <;> first | rfl | cases h
  case timestamp.timestamp => rw [i64_inj h]
  case time.time => rw [i64_inj h]
  case interval.interval =>
    obtain ⟨hmicros, h⟩ := List.append_inj h (by simp [be64])
    obtain ⟨hdays, hmonths⟩ := List.append_inj h (by simp [be32])
    rw [i64_inj hmicros, be32_inj hdays, be32_inj hmonths]

variable {valueToText : Value → String}

theorem valueToWire_inj {v w : Value} {t : DataType} (hv : OfType v t) (hw : OfType w t)
    (h : valueToWire valueToText v 1 = valueToWire valueToText w 1) : v = w := by
  rw [valueToWire, valueToWire] at h
  by_cases hnull : v = .null
  · by_cases hnull' : w = .null
    · rw [hnull, hnull']
    · rw [if_pos hnull, if_neg hnull', if_pos rfl] at h
      cases h
  · by_cases hnull' : w = .null
    · rw [if_neg hnull, if_pos hnull', if_pos rfl] at h
      cases h
    · rw [if_neg hnull, if_neg hnull', if_pos rfl, if_pos rfl] at h
      exact binaryForm_inj (hv.resolve_left hnull) (hw.resolve_left hnull') (Option.some.inj h)

/-- A row in the binary format. -/
theorem dataRow_inj {formats : List Int16} {types : List DataType} {row row' : List Value}
    (hbinary : ∀ i, i < types.length → formatForCol formats i = 1)
    (hrow : List.Forall₂ OfType row types) (hrow' : List.Forall₂ OfType row' types)
    (h : (row.mapIdx fun i v => valueToWire valueToText v (formatForCol formats i)) =
      row'.mapIdx fun i v => valueToWire valueToText v (formatForCol formats i)) : row = row' := by
  have hlength := hrow.length_eq.trans hrow'.length_eq.symm
  refine List.ext_getElem hlength fun i hi hi' => ?_
  have htypes : i < types.length := hrow.length_eq ▸ hi
  have hwire := congrArg (fun cols : List (Option Bytes) => cols[i]?) h
  simp only [List.getElem?_mapIdx, List.getElem?_eq_getElem hi, List.getElem?_eq_getElem hi',
    Option.map_some, hbinary i htypes] at hwire
  exact valueToWire_inj (hrow.get hi htypes) (hrow'.get hi' htypes) (Option.some.inj hwire)

/-- **The binary format is exact**: behind messages that are no rows, different rows make
different bytes. -/
theorem binary_rows_differ {formats : List Int16} {types : List DataType}
    {rows rows' : List (List Value)} {before before' : List Call} {tag tag' : String}
    (hbinary : ∀ i, i < types.length → formatForCol formats i = 1)
    (hrows : ∀ row ∈ rows, List.Forall₂ OfType row types)
    (hrows' : ∀ row ∈ rows', List.Forall₂ OfType row types)
    (hbefore : ∀ c ∈ before, c.columns = none) (hbefore' : ∀ c ∈ before', c.columns = none)
    (hfits : ∀ c ∈ before ++ dataRows valueToText formats rows ++ [.commandComplete tag, .readyForQuery],
      c.Fits)
    (hfits' : ∀ c ∈ before' ++ dataRows valueToText formats rows' ++
      [.commandComplete tag', .readyForQuery], c.Fits) (hne : rows ≠ rows') :
    (Connection.new.sendAll (before ++ dataRows valueToText formats rows ++
        [.commandComplete tag, .readyForQuery])).stream ≠
      (Connection.new.sendAll (before' ++ dataRows valueToText formats rows' ++
        [.commandComplete tag', .readyForQuery])).stream := by
  intro hstream
  have hnone : ∀ {cs : List Call}, (∀ c ∈ cs, c.columns = none) → cs.filterMap Call.columns = [] :=
    List.filterMap_eq_nil_iff.2
  have hmap : ∀ rows : List (List Value), (dataRows valueToText formats rows).filterMap Call.columns =
      rows.map fun row => row.mapIdx fun i v => valueToWire valueToText v (formatForCol formats i) := by
    intro rows
    rw [dataRows, List.filterMap_map, ← List.filterMap_eq_map]
    rfl
  -- the columns of the rows, and nothing of the messages around them, are compared
  obtain ⟨-, hcolumns⟩ := stream_determines hfits hfits' (by simp) (by simp) hstream
  simp only [List.filterMap_append, hnone hbefore, hnone hbefore', hmap, List.nil_append,
    List.filterMap_cons, Call.columns, List.filterMap_nil, List.append_nil] at hcolumns
  have hlength : rows.length = rows'.length := by simpa using congrArg List.length hcolumns
  refine hne (List.ext_getElem hlength fun i hi hi' => ?_)
  have hrow := congrArg (fun l : List (List (Option Bytes)) => l[i]?) hcolumns
  simp only [List.getElem?_map, List.getElem?_eq_getElem hi, List.getElem?_eq_getElem hi',
    Option.map_some] at hrow
  exact dataRow_inj hbinary (hrows _ (List.getElem_mem hi)) (hrows' _ (List.getElem_mem hi'))
    (Option.some.inj hrow)

/-- The answer to a SELECT of one row. -/
def answer (v : Value) : List Call :=
  [.bindComplete] ++ dataRows (fun _ => "") [1] [[v, .null]] ++
    [.commandComplete "SELECT 1", .readyForQuery]

theorem answer_eq {v : Value} (hv : v ≠ .null) :
    answer v = [.bindComplete, .dataRowBytes [some (binaryForm v), none],
      .commandComplete "SELECT 1", .readyForQuery] := by
  show [_, Call.dataRowBytes [valueToWire (fun _ => "") v 1, none], _, _] = _
  rw [valueToWire, if_neg hv, if_pos rfl]

theorem answer_fits {v : Value} (hv : v ≠ .null) (h : (binaryForm v).length < 100) :
    ∀ c ∈ answer v, c.Fits := by
  rw [answer_eq hv]
  intro c hc
  simp only [List.mem_cons, List.not_mem_nil, or_false] at hc
  rcases hc with rfl | rfl | rfl | rfl
  · exact .of_columns_none rfl rfl (by decide)
  · refine ⟨fun m hm => ?_, fun cols hc => ?_, fun cols bytes hc hb => ?_⟩
    · cases hm
      simp only [counted, paramField, be16, be32, List.flatMap_cons, List.flatMap_nil,
        List.length_append, List.length_reverse, toLe_length, List.length_nil]
      omega
    · cases hc
      show 2 < 2 ^ 15
      decide
    · cases hc
      rcases List.mem_pair.1 hb with hb | hb
      · cases hb
        omega
      · cases hb
  · exact .of_columns_none rfl rfl (by decide +kernel)
  · exact .of_columns_none rfl rfl (by decide)

theorem binary_rows_differ_seven :
    (Connection.new.sendAll (answer (.int 7))).stream ≠
      (Connection.new.sendAll (answer (.int 8))).stream := by
  have htyped : ∀ n : Int32, ∀ row ∈ [[Value.int n, .null]], List.Forall₂ OfType row [.int, .bool] := by
    intro n row hrow
    cases List.mem_singleton.1 hrow
    exact .cons (Or.inr rfl) (.cons (Or.inl rfl) .nil)
  have hbind : ∀ c ∈ [Call.bindComplete], c.columns = none := by
    intro c hc
    cases List.mem_singleton.1 hc
    rfl
  exact binary_rows_differ (fun _ _ => rfl) (htyped 7) (htyped 8) hbind hbind
    (answer_fits (by decide) (by decide)) (answer_fits (by decide) (by decide)) (by decide)

end Ccdb.Wire
