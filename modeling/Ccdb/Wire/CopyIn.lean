import Ccdb.Lib.Guarantee
import Ccdb.Lib.LineBuffer
import Ccdb.Wire.CopyText

/-!
# Ccdb — COPY FROM STDIN

`run_copy_in`: the loop that puts the lines of a COPY together from the messages of the
client, `copy_apply_line`, and the bracket of log records around them. The messages are
what `read_message` returns, one after the other; behind the last one the connection is
closed. The engine is a state `σ` with the operations that are called on it.

Main results:

* `copyLoop_lines` — the loop applies the lines of the stream, however it is cut.
* `runCopyIn_lines` — so the whole of COPY depends on the stream alone.
-/

namespace Ccdb.Wire

variable {σ : Type}

/-- `AnalyzedCopyStatement`. -/
structure CopyStatement where
  tableId : Nat
  columnToField : List (Option Nat)
  fieldCount : Nat
  columnTypes : List DataType
  columnNullable : List Bool
deriving DecidableEq, Repr

/-- What COPY calls: the row insert, with the tail hint it takes and leaves, the socket, and
the two ends of the bracket. -/
structure CopyEngine (σ : Type) where
  /-- `perform_copy_row`. -/
  performCopyRow : Nat → List Value → Option Nat → EStateM DbError σ (Rid × Nat)
  /-- `send_copy_in_response`. -/
  sendCopyInResponse : Nat → EStateM DbError σ Unit
  /-- `tx.is_active()`. -/
  isActive : σ → Bool
  /-- `refresh_autocommit` and the Begin record. -/
  openBracket : EStateM DbError σ Unit
  /-- The Commit or Abort record, the locks and the transaction's end. -/
  closeBracket : Bool → EStateM DbError σ Unit
  /-- `str::parse::<f64>`. -/
  parseF64 : List Char → Option UInt64

/-- `rows_inserted` and `tail_hint`. -/
structure Progress where
  rowsInserted : Nat
  tailHint : Option Nat
deriving DecidableEq, Repr

variable (engine : CopyEngine σ) (stmt : CopyStatement)

/-! ## One line -/

/-- The line without the carriage return at its end. -/
def stripCr (line : Bytes) : Bytes := if line.getLast? = some 13 then line.dropLast else line

/-- The value of field `i`, by the column that takes it. -/
def decodeField (i : Nat) (raw : Bytes) : Except DbError Value :=
  match stmt.columnToField.findIdx? (· == some i) with
  | none => .error (.bail s!"internal: COPY field {i} maps to no column")
  | some col =>
    match stmt.columnTypes[col]?, stmt.columnNullable[col]? with
    | some dataType, some nullable => decodeCopyField engine.parseF64 raw dataType nullable
    | _, _ => .error (.panic "index out of bounds")

/-- The decoded fields, from field `i` on. -/
def decodeFields : Nat → List Bytes → Except DbError (List Value)
  | _, [] => .ok []
  | i, raw :: rest => do
    let v ← decodeField engine stmt i raw
    let vs ← decodeFields (i + 1) rest
    return v :: vs

/-- The row in the order of the table's columns. -/
def copyRow (decoded : List Value) : Except DbError (List Value) :=
  stmt.columnToField.mapM fun field =>
    match field with
    | none => .ok .null
    | some i =>
      match decoded[i]? with
      | some v => .ok v
      | none => .error (.panic "index out of bounds")

/-- `copy_apply_line`. -/
def copyApplyLine (progress : Progress) (line : Bytes) : EStateM DbError σ Progress := do
  let line := stripCr line
  if line = [92, 46] then return progress
  else
    let rawFields := splitCopyFields line
    if rawFields.length ≠ stmt.fieldCount then
      throw (.bail s!"COPY line has {rawFields.length} fields, expected {stmt.fieldCount}")
    else
      let decoded ← MonadExcept.ofExcept (decodeFields engine stmt 0 rawFields)
      let row ← MonadExcept.ofExcept (copyRow stmt decoded)
      let (_, newTail) ← engine.performCopyRow stmt.tableId row progress.tailHint
      return ⟨progress.rowsInserted + 1, some newTail⟩

/-! ## The messages -/

/-- The loop of `run_copy_in` over what `read_message` returns. `apply` is `copy_apply_line`. -/
def copyLoop {β : Type} (apply : β → Bytes → EStateM DbError σ β) :
    List (Except DbError (Option FrontendMessage)) → Bytes → β → EStateM DbError σ β
  | [], _, _ => throw (.bail "connection closed during COPY")
  | .error e :: _, _, _ => throw e
  | .ok message :: messages, leftover, progress =>
    match message with
    | some (.copyData bytes) => do
      let (leftover, progress) ← LineBuffer.drain 10 apply (leftover ++ bytes) progress
      copyLoop apply messages leftover progress
    | some .copyDone => LineBuffer.finish apply leftover progress
    | some (.copyFail reason) => throw (.bail s!"client cancelled COPY: {reason}")
    | some .terminate => throw (.bail "connection closed during COPY")
    | none => throw (.bail "connection closed during COPY")
    | some other => throw (.bail s!"unexpected message during COPY: {repr other}")

/-- The bracket around the lines: opened and closed when no transaction is active, and closed
by what became of them. -/
def inBracket (body : EStateM DbError σ Progress) : EStateM DbError σ Nat := do
  let wasInactive := !engine.isActive (← get)
  if wasInactive then engine.openBracket
  fun s =>
    match body s with
    | .ok progress s =>
      (do
        if wasInactive then engine.closeBracket true
        return progress.rowsInserted : EStateM DbError σ Nat) s
    | .error e s =>
      (do
        if wasInactive then engine.closeBracket false
        throw e : EStateM DbError σ Nat) s

/-- `run_copy_in`. -/
def runCopyIn (messages : List (Except DbError (Option FrontendMessage))) :
    EStateM DbError σ Nat := do
  engine.sendCopyInResponse stmt.fieldCount
  inBracket engine (copyLoop (copyApplyLine engine stmt) messages [] ⟨0, none⟩)

/-! ## Chunks -/

/-- A stream cut into CopyData messages, with the CopyDone behind them. -/
def cut (chunks : List Bytes) : List (Except DbError (Option FrontendMessage)) :=
  chunks.map (fun bytes => .ok (some (.copyData bytes))) ++ [.ok (some .copyDone)]

section Loop

variable {β : Type} (apply : β → Bytes → EStateM DbError σ β)

theorem copyLoop_copyData (bytes leftover : Bytes)
    (messages : List (Except DbError (Option FrontendMessage))) (b : β) :
    copyLoop apply (.ok (some (.copyData bytes)) :: messages) leftover b =
      LineBuffer.drain 10 apply (leftover ++ bytes) b >>= fun p =>
        copyLoop apply messages p.1 p.2 := rfl

/-- What was drained before the next chunk makes no difference. -/
theorem copyLoop_drain (rest : List (Except DbError (Option FrontendMessage))) :
    ∀ (chunks : List Bytes) (buf : Bytes) (b : β),
      (LineBuffer.drain 10 apply buf b >>= fun p =>
        copyLoop apply (cut chunks ++ rest) p.1 p.2) =
        LineBuffer.drain 10 apply (buf ++ chunks.flatten) b >>= fun p =>
          LineBuffer.finish apply p.1 p.2
  | [], buf, b => by
    rw [List.flatten_nil, List.append_nil]
    rfl
  | bytes :: chunks, buf, b => by
    have hnext : ∀ p : Bytes × β, copyLoop apply (cut (bytes :: chunks) ++ rest) p.1 p.2 =
        LineBuffer.drain 10 apply (p.1 ++ bytes) p.2 >>= fun p =>
          copyLoop apply (cut chunks ++ rest) p.1 p.2 :=
      fun p => copyLoop_copyData apply bytes p.1 (cut chunks ++ rest) p.2
    calc (LineBuffer.drain 10 apply buf b >>= fun p =>
          copyLoop apply (cut (bytes :: chunks) ++ rest) p.1 p.2)
        = (LineBuffer.drain 10 apply buf b >>= fun p =>
            LineBuffer.drain 10 apply (p.1 ++ bytes) p.2) >>= fun p =>
              copyLoop apply (cut chunks ++ rest) p.1 p.2 := by
          rw [bind_assoc]
          exact bind_congr hnext
      _ = LineBuffer.drain 10 apply (buf ++ bytes) b >>= fun p =>
            copyLoop apply (cut chunks ++ rest) p.1 p.2 := by
          rw [← LineBuffer.drain_append]
      _ = LineBuffer.drain 10 apply (buf ++ (bytes :: chunks).flatten) b >>= fun p =>
            LineBuffer.finish apply p.1 p.2 := by
          rw [copyLoop_drain rest chunks (buf ++ bytes) b, List.append_assoc, List.flatten_cons]

/-- The loop applies the lines of the stream, whatever the cut and whatever `apply` does. -/
theorem copyLoop_lines (chunks : List Bytes)
    (rest : List (Except DbError (Option FrontendMessage))) (b : β) :
    copyLoop apply (cut chunks ++ rest) [] b =
      (LineBuffer.lines 10 chunks.flatten).foldlM apply b := by
  have hempty : LineBuffer.drain 10 apply [] b = pure ([], b) :=
    LineBuffer.drain_last List.not_mem_nil b
  have h := copyLoop_drain apply rest chunks [] b
  rw [hempty, pure_bind, List.nil_append, LineBuffer.drain_finish] at h
  exact h

/-- `apply`, with a note of the lines it is called with. -/
def noting (b : β) (line : Bytes) : EStateM DbError (σ × List Bytes) β := fun s =>
  match apply b line s.1 with
  | .ok b s' => .ok b (s', s.2 ++ [line])
  | .error e s' => .error e (s', s.2 ++ [line])

/-- All the lines, or those up to the first one that fails. -/
def calls : β → σ → List Bytes → List Bytes
  | _, _, [] => []
  | b, s, line :: rest =>
    line ::
      match apply b line s with
      | .ok b s => calls b s rest
      | .error _ _ => []

theorem noting_foldlM : ∀ (lines : List Bytes) (b : β) (s : σ) (log : List Bytes),
    (lines.foldlM (noting apply) b (s, log)).final.2 = log ++ calls apply b s lines
  | [], _, _, log => (List.append_nil log).symm
  | line :: rest, b, s, log => by
    rw [List.foldlM_cons, calls]
    cases h : apply b line s with
    | ok b' s' =>
      have hnote : noting apply b line (s, log) = .ok b' (s', log ++ [line]) := by
        rw [noting, h]
      rw [EStateM.bind_of_ok hnote, noting_foldlM rest, List.append_assoc, List.singleton_append]
    | error e s' =>
      have hnote : noting apply b line (s, log) = .error e (s', log ++ [line]) := by
        rw [noting, h]
      rw [EStateM.bind_of_error hnote]
      rfl

end Loop

/-- **COPY does not see the message boundaries.** However a stream is cut, `run_copy_in` does
what applying the stream's lines one after the other does, and it calls `copy_apply_line` with
these lines up to the first that fails. -/
theorem runCopyIn_lines (chunks : List Bytes)
    (rest : List (Except DbError (Option FrontendMessage))) :
    runCopyIn engine stmt (cut chunks ++ rest) =
        (do
          engine.sendCopyInResponse stmt.fieldCount
          inBracket engine
            ((LineBuffer.lines 10 chunks.flatten).foldlM (copyApplyLine engine stmt) ⟨0, none⟩)) ∧
      ∀ s, (copyLoop (noting (copyApplyLine engine stmt)) (cut chunks ++ rest) [] ⟨0, none⟩
          (s, [])).final.2 =
        calls (copyApplyLine engine stmt) ⟨0, none⟩ s (LineBuffer.lines 10 chunks.flatten) := by
  constructor
  · rw [runCopyIn, copyLoop_lines]
  · intro s
    rw [copyLoop_lines, noting_foldlM, List.nil_append]

end Ccdb.Wire
