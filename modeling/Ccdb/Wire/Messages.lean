import Ccdb.Lib.Cursor
import Ccdb.Storage.TupleCodec

/-!
# Ccdb — frontend messages

The reading half of `protocol.rs`: `read_startup`, `read_message` and the parsers of
message bodies. The stream is the bytes that the client still sends; a read behind its
end is an I/O error. Every slice and sum is checked, and a computation notes the
allocations it sizes by a length or a count of the stream. Replies go out without an
error.
-/

namespace Ccdb.Wire

open Ccdb.Checked Ccdb.TupleCodec

def PROTO_V3 : Int32 := 196608
def SSL_REQUEST : Int32 := 80877103

structure StartupMessage where
  params : List (String × String)
deriving DecidableEq, Repr

inductive FrontendMessage where
  | query (sql : String)
  | parse (name query : String) (paramTypes : List Int32)
  | bind (portal statement : String) (paramFormats : List Int16) (params : List (Option Bytes))
      (resultFormats : List Int16)
  | describe (kind : UInt8) (name : String)
  | execute (portal : String) (maxRows : Int32)
  | close (kind : UInt8) (name : String)
  | sync
  | flush
  | copyData (bytes : Bytes)
  | copyDone
  | copyFail (reason : String)
  | terminate
  | unknown (msgType : UInt8)
deriving DecidableEq, Repr

/-- `from_be_bytes` of an unsigned integer. -/
def fromBe (bytes : Bytes) : Nat := fromLe bytes.reverse

/-- `i16::from_be_bytes`. -/
def i16Be (bytes : Bytes) : Int16 := (UInt16.ofNat (fromBe bytes)).toInt16

/-- `i32::from_be_bytes`. -/
def i32Be (bytes : Bytes) : Int32 := (UInt32.ofNat (fromBe bytes)).toInt32

/-- `position(|&b| b == 0)`. -/
def positionOfNul (bytes : Bytes) : Option Nat := bytes.findIdx? (· == 0)

/-! ## Fields of a body -/

/-- A string up to the next NUL, with the error `missing` where there is none. -/
def nulString (missing : String) (buf : Bytes) (i : Nat) : Except DbError (String × Nat) := do
  let rest ← sliceFrom buf i
  match positionOfNul rest with
  | none => .error (.bail missing)
  | some stop =>
    let hi ← addUsize i stop
    let bytes ← slice buf i hi
    let s ← fromUtf8 bytes
    let skip ← addUsize stop 1
    let i ← addUsize i skip
    return (s, i)

/-- `read_cstr`. -/
def readCstr : Bytes → Nat → Except DbError (String × Nat) :=
  nulString "expected NUL-terminated string"

/-- A big-endian integer of `width` bytes, with the error `short` where there are fewer. -/
def readInt {α : Type} (width : Nat) (fromBytes : Bytes → α) (short : String) (buf : Bytes)
    (i : Nat) : Except DbError (α × Nat) := do
  let stop ← addUsize i width
  if buf.length < stop then .error (.bail short)
  else do
    let bytes ← slice buf i stop
    let array ← tryInto width unwrapFailed bytes
    return (fromBytes array, stop)

/-- `read_i16`. -/
def readI16 : Bytes → Nat → Except DbError (Int16 × Nat) := readInt 2 i16Be "short read i16"

/-- `read_i32`. -/
def readI32 : Bytes → Nat → Except DbError (Int32 × Nat) := readInt 4 i32Be "short read i32"

/-- The frame around a body: the type byte and the length word. -/
def frameSize (buf : Bytes) : Nat := buf.length + 5

/-- A parameter value of Bind, behind its length. -/
def paramValue (buf : Bytes) (len : Int32) (i : Nat) : Run (Option Bytes × Nat) :=
  if len.toInt < 0 then return (none, i)
  else do
    let len := Checked.asUsize len.toInt
    let stop ← addUsize i len
    if buf.length < stop then Run.fail (.bail "Bind: short param value")
    else do
      let bytes ← slice buf i stop
      Run.allocate (frameSize buf) len 1
      return (some bytes, stop)

/-- A parameter value of Bind. -/
def readParam (buf : Bytes) (i : Nat) : Run (Option Bytes × Nat) := do
  let (len, i) ← readI32 buf i
  paramValue buf len i

/-! ## Bodies -/

def SIZE_OF_I16 : Nat := 2
def SIZE_OF_I32 : Nat := 4

/-- `size_of::<Option<Vec<u8>>>()`. -/
def SIZE_OF_PARAM : Nat := 24

/-- `parse_parse`. -/
def parseParse (buf : Bytes) : Run FrontendMessage := do
  let (name, i) ← readCstr buf 0
  let (query, i) ← readCstr buf i
  let (n, i) ← readI16 buf i
  Run.allocate (frameSize buf) (Checked.asUsize n.toInt) SIZE_OF_I32
  let (paramTypes, _) ← Run.times (fun i => liftM (readI32 buf i)) (Checked.asUsize n.toInt) i
  return .parse name query paramTypes

/-- `parse_bind`. -/
def parseBind (buf : Bytes) : Run FrontendMessage := do
  let (portal, i) ← readCstr buf 0
  let (statement, i) ← readCstr buf i
  let (nf, i) ← readI16 buf i
  Run.allocate (frameSize buf) (Checked.asUsize nf.toInt) SIZE_OF_I16
  let (paramFormats, i) ← Run.times (fun i => liftM (readI16 buf i)) (Checked.asUsize nf.toInt) i
  let (np, i) ← readI16 buf i
  Run.allocate (frameSize buf) (Checked.asUsize np.toInt) SIZE_OF_PARAM
  let (params, i) ← Run.times (readParam buf) (Checked.asUsize np.toInt) i
  let (nr, i) ← readI16 buf i
  Run.allocate (frameSize buf) (Checked.asUsize nr.toInt) SIZE_OF_I16
  let (resultFormats, _) ← Run.times (fun i => liftM (readI16 buf i)) (Checked.asUsize nr.toInt) i
  return .bind portal statement paramFormats params resultFormats

/-- `parse_describe`. -/
def parseDescribe (buf : Bytes) : Run FrontendMessage :=
  if buf.isEmpty then Run.fail (.bail "Describe: empty body")
  else do
    let kind ← index buf 0
    let (name, _) ← readCstr buf 1
    return .describe kind name

/-- `parse_execute`. -/
def parseExecute (buf : Bytes) : Run FrontendMessage := do
  let (portal, i) ← readCstr buf 0
  let (maxRows, _) ← readI32 buf i
  return .execute portal maxRows

/-- `parse_close`. -/
def parseClose (buf : Bytes) : Run FrontendMessage :=
  if buf.isEmpty then Run.fail (.bail "Close: empty body")
  else do
    let kind ← index buf 0
    let (name, _) ← readCstr buf 1
    return .close kind name

/-- The loop of `parse_kv_pairs`, with `fuel` rounds left. -/
def kvLoop (buf : Bytes) : Nat → Nat → Except DbError (List (String × String))
  | 0, _ => .error .diverge
  | fuel + 1, i =>
    if i < buf.length then do
      let b ← index buf i
      if b = 0 then return []
      else do
        let (key, i) ← nulString "startup: unterminated key" buf i
        let (val, i) ← nulString "startup: unterminated value" buf i
        let out ← kvLoop buf fuel i
        return (key, val) :: out
    else return []

/-- `parse_kv_pairs`: every round takes two bytes at least. -/
def parseKvPairs (buf : Bytes) : Except DbError (List (String × String)) :=
  kvLoop buf (buf.length + 1) 0

/-! ## The stream -/

/-- `read_exact`. -/
def readExact (n : Nat) (stream : Bytes) : Except DbError (Bytes × Bytes) :=
  if n ≤ stream.length then .ok (stream.take n, stream.drop n)
  else .error (.io "failed to fill whole buffer")

/-- `Connection::read_i32`. -/
def readWord (stream : Bytes) : Except DbError (Int32 × Bytes) := do
  let (b, stream) ← readExact 4 stream
  return (i32Be b, stream)

/-- `read_startup` behind the two words of its header. -/
def startupBody (len : Nat) (version : Int32) (stream : Bytes) : Run (StartupMessage × Bytes) :=
  if version ≠ PROTO_V3 then Run.fail (.bail s!"unsupported protocol version: {version}")
  else if len < 8 then Run.fail (.bail s!"startup length {len} smaller than header")
  else do
    Run.allocate len (len - 8) 1
    let (buf, stream) ← readExact (len - 8) stream
    let params ← parseKvPairs buf
    return (⟨params⟩, stream)

/-- `read_startup`. An SSL request is declined, and the function calls itself. -/
def readStartup : Bytes → Run (StartupMessage × Bytes)
  | l₀ :: l₁ :: l₂ :: l₃ :: v₀ :: v₁ :: v₂ :: v₃ :: stream =>
    let len := Checked.asUsize (i32Be [l₀, l₁, l₂, l₃]).toInt
    let version := i32Be [v₀, v₁, v₂, v₃]
    if version = SSL_REQUEST then do
      Run.nested
      readStartup stream
    else startupBody len version stream
  | _ => Run.fail (.io "failed to fill whole buffer")

/-- `unwrap_or_default`. A panic is not an `Err`. -/
def unwrapOrDefault : Except DbError (String × Nat) → Except DbError String
  | .ok (s, _) => .ok s
  | .error (.panic msg) => .error (.panic msg)
  | .error _ => .ok ""

/-- `b as char`: the code point with the byte's value. -/
def asChar (b : UInt8) : Char := Char.ofNat b.toNat

/-- The message in a frame of type `msgType`. -/
def parseBody (msgType : UInt8) (buf : Bytes) : Run FrontendMessage :=
  match asChar msgType with
  | 'Q' =>
    if buf.getLast? ≠ some 0 then
      Run.fail (.bail "Query message not null-terminated")
    else do
      let hi ← subUsize buf.length 1
      let bytes ← slice buf 0 hi
      let sql ← fromUtf8 bytes
      return .query sql
  | 'P' => parseParse buf
  | 'B' => parseBind buf
  | 'D' => parseDescribe buf
  | 'E' => parseExecute buf
  | 'C' => parseClose buf
  | 'S' => return .sync
  | 'H' => return .flush
  | 'd' => return .copyData buf
  | 'c' => return .copyDone
  | 'f' => do
    let reason ← unwrapOrDefault (readCstr buf 0)
    return .copyFail reason
  | 'X' => return .terminate
  | _ => return .unknown msgType

/-- `read_message`. -/
def readMessage : Bytes → Run (Option FrontendMessage × Bytes)
  | [] => return (none, [])
  | msgType :: stream => do
    let (word, stream) ← readWord stream
    let len := Checked.asUsize word.toInt
    if len < 4 then Run.fail (.bail s!"frame length {len} smaller than header")
    else do
      Run.allocate (1 + len) (len - 4) 1
      let (buf, stream) ← readExact (len - 4) stream
      let msg ← parseBody msgType buf
      return (some msg, stream)

end Ccdb.Wire
