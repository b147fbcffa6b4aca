import Ccdb.Lib.LineBuffer
import Ccdb.Storage.TupleBounds
import Ccdb.Wire.Messages

/-!
# Ccdb — the parser on a client's bytes

Which streams make `read_startup` and `read_message` panic, allocate more than the
frame they read or call themselves too often. The format's fields are relations
between the bytes in front of a field and those behind it. Every index is in bounds on
every stream. What goes wrong are the signed counts and lengths that become `usize`
unchecked: a negative one is a capacity overflow, and a count may ask for more than
its frame has room for. A client that keeps asking for SSL nests `read_startup` once
more each time.

Main results:

* `readInt_reads`, `nulString_reads`, `readParam_reads` — the readers against the
  fields they read.
* `parseParse_safe`, `parseBind_safe` — bodies with counts; the others are safe.
* `wire_safe_iff` — exactly when the two functions are safe.
-/

namespace Ccdb.Wire

open Ccdb.Checked Ccdb.TupleCodec Ccdb.TupleBounds

/-! ## Fields, and counts that fit -/

/-- A string and its NUL. -/
def CStr (s : String) (front rest : Bytes) : Prop :=
  front = stringBytes s ++ 0 :: rest ∧ 0 ∉ stringBytes s

/-- An integer of `width` bytes. -/
def Word {α : Type} (width : Nat) (fromBytes : Bytes → α) (n : α) (front rest : Bytes) : Prop :=
  ∃ bytes, bytes.length = width ∧ n = fromBytes bytes ∧ front = bytes ++ rest

def Word16 : Int16 → Bytes → Bytes → Prop := Word 2 i16Be

def Word32 : Int32 → Bytes → Bytes → Prop := Word 4 i32Be

/-- What is behind the length of a parameter value: a negative one stands for NULL. -/
def ParamBytes (len : Int32) : Option Bytes → Bytes → Bytes → Prop
  | none, front, rest => len.toInt < 0 ∧ front = rest
  | some bytes, front, rest =>
    0 ≤ len.toInt ∧ bytes.length = len.toInt.toNat ∧ front = bytes ++ rest

/-- A parameter value. -/
def Param (v : Option Bytes) (front rest : Bytes) : Prop :=
  ∃ len mid, Word32 len front mid ∧ ParamBytes len v mid rest

/-- A count is not negative, and its elements of `size` bytes are no more than the frame. -/
def CountFits (frame size : Nat) (n : Int16) : Prop :=
  0 ≤ n.toInt ∧ n.toInt.toNat * size ≤ frame

/-- The count of a Parse body, where it has one. -/
def ParseCounts (buf : Bytes) : Prop :=
  ∀ name r₁, CStr name buf r₁ → ∀ query r₂, CStr query r₁ r₂ → ∀ n r₃, Word16 n r₂ r₃ →
    CountFits (frameSize buf) SIZE_OF_I32 n

/-- The three counts of a Bind body, as far as it goes. -/
def BindCounts (buf : Bytes) : Prop :=
  ∀ portal r₁, CStr portal buf r₁ → ∀ statement r₂, CStr statement r₁ r₂ →
    ∀ nf r₃, Word16 nf r₂ r₃ → CountFits (frameSize buf) SIZE_OF_I16 nf ∧
      ∀ paramFormats r₄, Many Word16 nf.toInt.toNat paramFormats r₃ r₄ →
        ∀ np r₅, Word16 np r₄ r₅ → CountFits (frameSize buf) SIZE_OF_PARAM np ∧
          ∀ params r₆, Many Param np.toInt.toNat params r₅ r₆ →
            ∀ nr r₇, Word16 nr r₆ r₇ → CountFits (frameSize buf) SIZE_OF_I16 nr

/-- A frame whose length word is not negative; its counts, if it is there as a whole. -/
def MessageCounts (stream : Bytes) : Prop :=
  ∀ msgType front, stream = msgType :: front → ∀ len body, Word32 len front body →
    0 ≤ len.toInt ∧
      ∀ buf rest, buf.length + 4 = len.toInt.toNat → body = buf ++ rest →
        (asChar msgType = 'P' → ParseCounts buf) ∧ (asChar msgType = 'B' → BindCounts buf)

def SslRequest (len : Int32) (front rest : Bytes) : Prop :=
  ∃ mid, Word32 len front mid ∧ Word32 SSL_REQUEST mid rest

/-- At most `bound` SSL requests, and behind them no startup message with a negative length
word. -/
def StartupCounts (bound : Nat) (stream : Bytes) : Prop :=
  ∀ k lens tail, Many SslRequest k lens stream tail →
    k ≤ bound ∧
      ∀ len mid rest, Word32 len tail mid → Word32 PROTO_V3 mid rest → 0 ≤ len.toInt

/-! ## Readers -/

variable {buf : Bytes}

theorem nulString_eq {missing : String} {i stop : Nat} (hbuf : buf.length < 2 ^ 63)
    (hi : i ≤ buf.length) (h : positionOfNul (buf.drop i) = some stop) :
    nulString missing buf i = (fromUtf8 ((buf.drop i).take stop)).map fun s =>
      (s, i + (stop + 1)) := by
  have hlt := (LineBuffer.position_some h).1
  rw [List.length_drop] at hlt
  rw [nulString, sliceFrom_ok hi]
  simp only [bind, Except.bind, h]
  rw [addUsize_ok (by unfold USIZE; omega)]
  dsimp only
  rw [slice_ok (by omega) (by omega), Nat.add_sub_cancel_left]
  dsimp only
  cases fromUtf8 ((buf.drop i).take stop) with
  | error e => rfl
  | ok s =>
    dsimp only
    rw [addUsize_ok (by unfold USIZE; omega)]
    dsimp only
    rw [addUsize_ok (by unfold USIZE; omega)]
    rfl

theorem fromUtf8_returns (bytes : Bytes) : Returns (fromUtf8 bytes) := by
  unfold fromUtf8
  split <;> trivial

theorem nulString_none {missing : String} {i : Nat} (hi : i ≤ buf.length)
    (h : positionOfNul (buf.drop i) = none) :
    nulString missing buf i = .error (.bail missing) := by
  rw [nulString, sliceFrom_ok hi]
  simp only [bind, Except.bind, h]

theorem nulString_reads (missing : String) (hbuf : buf.length < 2 ^ 63) :
    Reads buf (fun i => liftM (nulString missing buf i)) CStr := by
  refine Reads.lift (fun i hi => ?_) (fun i hi s j h => ?_) fun i hi s rest h => ?_
  · cases hpos : positionOfNul (buf.drop i) with
    | none =>
      rw [nulString_none hi hpos]
      trivial
    | some stop =>
      have hret := fromUtf8_returns ((buf.drop i).take stop)
      rw [nulString_eq hbuf hi hpos]
      cases hs : fromUtf8 ((buf.drop i).take stop) with
      | error e =>
        rw [hs] at hret
        cases e <;> exact hret
      | ok s => trivial
  · cases hpos : positionOfNul (buf.drop i) with
    | none =>
      rw [nulString_none hi hpos] at h
      cases h
    | some stop =>
      obtain ⟨hlt, hsplit, hfree⟩ := LineBuffer.position_some hpos
      rw [List.length_drop] at hlt
      rw [nulString_eq hbuf hi hpos] at h
      cases hs : fromUtf8 ((buf.drop i).take stop) with
      | error e =>
        rw [hs] at h
        cases h
      | ok s' =>
        rw [hs] at h
        cases h
        have hbytes := stringBytes_fromUtf8 hs
        rw [List.drop_drop] at hsplit
        exact ⟨by omega, by rw [hbytes]; exact hsplit, by rw [hbytes]; exact hfree⟩
  · obtain ⟨hfront, hfree⟩ := h
    have hpos : positionOfNul (buf.drop i) = some (stringBytes s).length := by
      rw [hfront]
      exact LineBuffer.position_append hfree rest
    have hlen := congrArg List.length hfront
    simp only [List.length_drop, List.length_append, List.length_cons] at hlen
    refine ⟨i + ((stringBytes s).length + 1), by omega, ?_, ?_⟩
    · rw [nulString_eq hbuf hi hpos, hfront, List.take_left, fromUtf8_stringBytes]
      rfl
    · rw [← List.drop_drop, hfront, ← List.drop_drop, List.drop_left]
      rfl

/-- An integer is read like a string: its bytes, or an error. -/
theorem readInt_reads {α : Type} {width : Nat} (fromBytes : Bytes → α) (short : String)
    (hbuf : buf.length < 2 ^ 63) (hwidth : width < 2 ^ 63) :
    Reads buf (fun i => liftM (readInt width fromBytes short buf i)) (Word width fromBytes) := by
  have hok : ∀ i, i + width ≤ buf.length →
      readInt width fromBytes short buf i =
        .ok (fromBytes ((buf.drop i).take width), i + width) := by
    intro i hi
    rw [readInt, addUsize_ok (by unfold USIZE; omega)]
    simp only [bind, Except.bind]
    rw [if_neg (by omega), slice_ok (by omega) hi, Nat.add_sub_cancel_left]
    simp only [tryInto]
    rw [if_pos (by rw [List.length_take, List.length_drop]; omega)]
    rfl
  have hshort : ∀ i, i ≤ buf.length → ¬ i + width ≤ buf.length →
      readInt width fromBytes short buf i = .error (.bail short) := by
    intro i hi hlt
    rw [readInt, addUsize_ok (by unfold USIZE; omega)]
    simp only [bind, Except.bind]
    rw [if_pos (by omega)]
  refine Reads.lift (fun i hi => ?_) (fun i hi n j h => ?_) fun i hi n rest h => ?_
  · by_cases hlen : i + width ≤ buf.length
    · rw [hok i hlen]
      trivial
    · rw [hshort i hi hlen]
      trivial
  · by_cases hlen : i + width ≤ buf.length
    · rw [hok i hlen] at h
      cases h
      refine ⟨hlen, (buf.drop i).take width, ?_, rfl, ?_⟩
      · rw [List.length_take, List.length_drop]
        omega
      · rw [← List.drop_drop, List.take_append_drop]
    · rw [hshort i hi hlen] at h
      cases h
  · obtain ⟨bytes, rfl, rfl, hfront⟩ := h
    have hlen := congrArg List.length hfront
    rw [List.length_drop, List.length_append] at hlen
    refine ⟨i + bytes.length, by omega, ?_, ?_⟩
    · rw [hok i (by omega), hfront, List.take_left]
    · rw [← List.drop_drop, hfront, List.drop_left]

theorem readCstr_reads (hbuf : buf.length < 2 ^ 63) :
    Reads buf (fun i => liftM (readCstr buf i)) CStr := nulString_reads _ hbuf

theorem readI16_reads (hbuf : buf.length < 2 ^ 63) :
    Reads buf (fun i => liftM (readI16 buf i)) Word16 := readInt_reads _ _ hbuf (by decide)

theorem readI32_reads (hbuf : buf.length < 2 ^ 63) :
    Reads buf (fun i => liftM (readI32 buf i)) Word32 := readInt_reads _ _ hbuf (by decide)

theorem asUsize_int32 {n : Int32} (h : 0 ≤ n.toInt) : Checked.asUsize n.toInt = n.toInt.toNat := by
  have hlt := n.toInt_lt
  exact asUsize_of_nonneg h (by omega)

theorem asUsize_int16 {n : Int16} (h : 0 ≤ n.toInt) : Checked.asUsize n.toInt = n.toInt.toNat := by
  have hlt := n.toInt_lt
  exact asUsize_of_nonneg h (by omega)

theorem paramValue_eq {len : Int32} {i : Nat} (hbuf : buf.length < 2 ^ 62) (hi : i ≤ buf.length)
    (h : 0 ≤ len.toInt) :
    paramValue buf len i =
      if i + len.toInt.toNat ≤ buf.length then
        ⟨[.allocated (frameSize buf) len.toInt.toNat],
          .ok (some ((buf.drop i).take len.toInt.toNat), i + len.toInt.toNat)⟩
      else Run.fail (.bail "Bind: short param value") := by
  have hlt := len.toInt_lt
  set k := len.toInt.toNat with hk
  rw [paramValue, if_neg (by omega), asUsize_int32 h, ← hk]
  dsimp only
  rw [addUsize_ok (by unfold USIZE; omega), Run.lift_ok_bind]
  by_cases hlen : i + k ≤ buf.length
  · rw [if_neg (by omega), if_pos hlen, slice_ok (by omega) hlen, Run.lift_ok_bind,
      Run.allocate_ok_bind (by unfold Run.ISIZE_MAX; omega), Nat.add_sub_cancel_left, Nat.mul_one]
    rfl
  · rw [if_pos (by omega), if_neg hlen]

theorem paramValue_reads (hbuf : buf.length < 2 ^ 62) (len : Int32) :
    Reads buf (paramValue buf len) (ParamBytes len) := by
  by_cases hneg : len.toInt < 0
  · have hpure : paramValue buf len = fun i => pure (none, i) := by
      funext i
      rw [paramValue, if_pos hneg]
    rw [hpure]
    refine (Reads.pure none).congr fun v front rest => ?_
    cases v with
    | none => simp [ParamBytes, hneg]
    | some bytes => simp [ParamBytes, hneg]
  · have hpos : 0 ≤ len.toInt := by omega
    constructor
    · intro i hi
      rw [paramValue_eq hbuf hi hpos]
      split
      · refine ⟨fun e he => ?_, trivial⟩
        rw [List.mem_singleton.1 he]
        show len.toInt.toNat ≤ buf.length + 5
        omega
      · exact Run.safe_bail _
    · intro i hi v j h
      rw [paramValue_eq hbuf hi hpos] at h
      split at h
      · rename_i hlen
        cases h
        refine ⟨hlen, hpos, ?_, ?_⟩
        · rw [List.length_take, List.length_drop]
          omega
        · rw [← List.drop_drop, List.take_append_drop]
      · cases h
    · intro i hi v rest h
      cases v with
      | none => exact absurd h.1 hneg
      | some bytes =>
        obtain ⟨-, hsize, hfront⟩ := h
        have hlen := congrArg List.length hfront
        rw [List.length_drop, List.length_append] at hlen
        refine ⟨i + bytes.length, by omega, ?_, ?_⟩
        · rw [paramValue_eq hbuf hi hpos, ← hsize, if_pos (by omega), hfront, List.take_left]
        · rw [← List.drop_drop, hfront, List.drop_left]

theorem readParam_reads (hbuf : buf.length < 2 ^ 62) : Reads buf (readParam buf) Param :=
  (readI32_reads (by omega)).bind fun len => paramValue_reads hbuf len

/-! ## Bodies -/

/-- An allocation for a count, and what comes after it. -/
theorem safe_allocate_count {β : Type} {frame size : Nat} (hframe : frame ≤ 2 ^ 62)
    (hsize : 0 < size) (n : Int16) (f : Unit → Run β) (P : Prop)
    (hf : 0 ≤ n.toInt → Checked.asUsize n.toInt = n.toInt.toNat → ((f ()).Safe ↔ P)) :
    (Run.allocate frame (Checked.asUsize n.toInt) size >>= f).Safe ↔ CountFits frame size n ∧ P := by
  rw [Run.safe_allocate (by unfold Run.ISIZE_MAX; omega)]
  by_cases hneg : n.toInt < 0
  · have hlo := n.le_toInt
    have hbig := asUsize_of_neg hneg (by omega)
    have hmul : Checked.asUsize n.toInt ≤ Checked.asUsize n.toInt * size := Nat.le_mul_of_pos_right _ hsize
    constructor
    · rintro ⟨hle, -⟩
      omega
    · rintro ⟨⟨hnonneg, -⟩, -⟩
      omega
  · have hpos : 0 ≤ n.toInt := by omega
    have hword := asUsize_int16 hpos
    rw [hf hpos hword, hword, CountFits]
    simp only [hpos, true_and]

/-- Parse panics or over-allocates where its count does not fit, and nowhere else. -/
theorem parseParse_safe (hbuf : buf.length < 2 ^ 61) : (parseParse buf).Safe ↔ ParseCounts buf := by
  have hframe : frameSize buf ≤ 2 ^ 62 := by
    unfold frameSize
    omega
  unfold parseParse ParseCounts
  refine (readCstr_reads (by omega)).safe_bind (Nat.zero_le _) fun name i hi => ?_
  refine (readCstr_reads (by omega)).safe_bind hi fun query j hj => ?_
  refine (readI16_reads (by omega)).safe_bind hj fun n k hk => ?_
  refine (safe_allocate_count hframe (by decide) n _ True fun _ _ => iff_true_intro ?_).trans
    (and_iff_left trivial)
  exact ((readI32_reads (by omega)).times _).safe_then hk fun _ _ _ => Run.safe_pure _

theorem parseBind_safe (hbuf : buf.length < 2 ^ 61) : (parseBind buf).Safe ↔ BindCounts buf := by
  have hframe : frameSize buf ≤ 2 ^ 62 := by
    unfold frameSize
    omega
  have hcstr : Reads buf (fun i => liftM (readCstr buf i)) CStr := readCstr_reads (by omega)
  have hword : Reads buf (fun i => liftM (readI16 buf i)) Word16 := readI16_reads (by omega)
  unfold parseBind BindCounts
  refine hcstr.safe_bind (Nat.zero_le _) fun portal i₁ h₁ => ?_
  refine hcstr.safe_bind h₁ fun statement i₂ h₂ => ?_
  refine hword.safe_bind h₂ fun nf i₃ h₃ => ?_
  refine safe_allocate_count hframe (by decide) nf _ _ fun _ hnf => ?_
  rw [hnf]
  refine (hword.times _).safe_bind h₃ fun paramFormats i₄ h₄ => ?_
  refine hword.safe_bind h₄ fun np i₅ h₅ => ?_
  refine safe_allocate_count hframe (by decide) np _ _ fun _ hnp => ?_
  rw [hnp]
  refine ((readParam_reads (by omega)).times _).safe_bind h₅ fun params i₆ h₆ => ?_
  refine hword.safe_bind h₆ fun nr i₇ h₇ => ?_
  refine (safe_allocate_count hframe (by decide) nr _ True fun _ _ => iff_true_intro ?_).trans
    (and_iff_left trivial)
  exact (hword.times _).safe_then h₇ fun _ _ _ => Run.safe_pure _

/-- The other bodies have no counts. -/
theorem parseExecute_safe (hbuf : buf.length < 2 ^ 63) : (parseExecute buf).Safe := by
  refine (readCstr_reads hbuf).safe_then (Nat.zero_le _) fun portal i hi => ?_
  exact (readI32_reads hbuf).safe_then hi fun _ _ _ => Run.safe_pure _

theorem parseDescribe_safe (hbuf : buf.length < 2 ^ 63) : (parseDescribe buf).Safe := by
  cases buf with
  | nil => exact Run.safe_bail _
  | cons b buf =>
    have hone : 1 ≤ (b :: buf).length := by simp
    exact (readCstr_reads hbuf).safe_then hone fun _ _ _ => Run.safe_pure _

theorem parseClose_safe (hbuf : buf.length < 2 ^ 63) : (parseClose buf).Safe := by
  cases buf with
  | nil => exact Run.safe_bail _
  | cons b buf =>
    have hone : 1 ≤ (b :: buf).length := by simp
    exact (readCstr_reads hbuf).safe_then hone fun _ _ _ => Run.safe_pure _

/-- A string takes a byte at least. -/
theorem nulString_lt {missing : String} {i j : Nat} {s : String} (hbuf : buf.length < 2 ^ 63)
    (hi : i ≤ buf.length) (h : nulString missing buf i = .ok (s, j)) : i < j ∧ j ≤ buf.length := by
  obtain ⟨hj, hfront, -⟩ := (nulString_reads missing hbuf).sound i hi s j h
  have hlen := congrArg List.length hfront
  simp only [List.length_drop, List.length_append, List.length_cons] at hlen
  omega

theorem nulString_returns {missing : String} {i : Nat} (hbuf : buf.length < 2 ^ 63)
    (hi : i ≤ buf.length) : Returns (nulString missing buf i) :=
  ((nulString_reads missing hbuf).safe i hi).2

/-- Every round moves the cursor, so the rounds suffice. -/
theorem kvLoop_returns (hbuf : buf.length < 2 ^ 63) : ∀ (fuel i : Nat), i ≤ buf.length →
    buf.length < i + fuel → Returns (kvLoop buf fuel i)
  | 0, i, hi, hfuel => by omega
  | fuel + 1, i, hi, hfuel => by
    rw [kvLoop]
    split
    · rename_i hlt
      rw [index_ok 0 hlt]
      refine Returns.bind trivial fun b _ => ?_
      split
      · trivial
      · refine Returns.bind (nulString_returns hbuf hi) ?_
        rintro ⟨key, j⟩ hkey
        obtain ⟨hij, hj⟩ := nulString_lt hbuf hi hkey
        refine Returns.bind (nulString_returns hbuf hj) ?_
        rintro ⟨val, k⟩ hval
        obtain ⟨hjk, hk⟩ := nulString_lt hbuf hj hval
        refine Returns.bind (kvLoop_returns hbuf fuel k hk (by omega)) fun out _ => ?_
        trivial
    · trivial

theorem parseKvPairs_returns (hbuf : buf.length < 2 ^ 63) : Returns (parseKvPairs buf) :=
  kvLoop_returns hbuf _ _ (Nat.zero_le _) (by omega)

theorem parseBody_safe (hbuf : buf.length < 2 ^ 61) (msgType : UInt8) :
    (parseBody msgType buf).Safe ↔
      (asChar msgType = 'P' → ParseCounts buf) ∧ (asChar msgType = 'B' → BindCounts buf) := by
  have hother : ∀ {x : Run FrontendMessage}, x.Safe → asChar msgType ≠ 'P' →
      asChar msgType ≠ 'B' →
      (x.Safe ↔ (asChar msgType = 'P' → ParseCounts buf) ∧
        (asChar msgType = 'B' → BindCounts buf)) :=
    fun hx hP hB => iff_of_true hx ⟨fun h => absurd h hP, fun h => absurd h hB⟩
  unfold parseBody
  split
  case h_1 h =>
    refine hother ?_ (by rw [h]; decide) (by rw [h]; decide)
    split
    · exact Run.safe_bail _
    · rename_i hlast
      have hne : buf ≠ [] := by
        rintro rfl
        exact hlast (by simp)
      have hpos := List.length_pos_iff.2 hne
      rw [subUsize_ok (by omega), Run.lift_ok_bind, slice_ok (Nat.zero_le _) (by omega),
        Run.lift_ok_bind, Run.safe_lift_bind (fromUtf8_returns _)]
      exact fun _ _ => Run.safe_pure _
  case h_2 h =>
    rw [parseParse_safe hbuf, h]
    exact ⟨fun hc => ⟨fun _ => hc, fun hB => absurd hB (by decide)⟩, fun hc => hc.1 rfl⟩
  case h_3 h =>
    rw [parseBind_safe hbuf, h]
    exact ⟨fun hc => ⟨fun hP => absurd hP (by decide), fun _ => hc⟩, fun hc => hc.2 rfl⟩
  case h_4 h => exact hother (parseDescribe_safe (by omega)) (by rw [h]; decide) (by rw [h]; decide)
  case h_5 h => exact hother (parseExecute_safe (by omega)) (by rw [h]; decide) (by rw [h]; decide)
  case h_6 h => exact hother (parseClose_safe (by omega)) (by rw [h]; decide) (by rw [h]; decide)
  case h_11 h =>
    refine hother ?_ (by rw [h]; decide) (by rw [h]; decide)
    have hret : Returns (unwrapOrDefault (readCstr buf 0)) := by
      have hreads : Reads buf (fun i => liftM (readCstr buf i)) CStr := readCstr_reads (by omega)
      have hcstr := (hreads.safe 0 (Nat.zero_le _)).2
      revert hcstr
      cases readCstr buf 0 with
      | ok p => exact fun _ => trivial
      | error e =>
        cases e with
        | panic msg => exact id
        | bail | io | diverge => exact fun _ => trivial
    rw [Run.safe_lift_bind hret]
    exact fun _ _ => Run.safe_pure _
  case h_13 h _ _ _ _ _ _ _ _ _ _ _ =>
    exact hother (Run.safe_pure _) (by assumption) (by assumption)
  all_goals
    rename_i h
    exact hother (Run.safe_pure _) (by rw [h]; decide) (by rw [h]; decide)

/-! ## The stream -/

theorem readExact_returns (n : Nat) (stream : Bytes) : Returns (readExact n stream) := by
  unfold readExact
  split <;> trivial

theorem readExact_ok {n : Nat} {stream bytes rest : Bytes} :
    readExact n stream = .ok (bytes, rest) ↔ bytes.length = n ∧ stream = bytes ++ rest := by
  unfold readExact
  constructor
  · intro h
    split at h
    · cases h
      exact ⟨by rw [List.length_take]; omega, (List.take_append_drop _ _).symm⟩
    · cases h
  · rintro ⟨rfl, rfl⟩
    rw [if_pos (by simp), List.take_left, List.drop_left]

theorem readWord_returns (stream : Bytes) : Returns (readWord stream) :=
  Returns.bind (readExact_returns 4 stream) fun _ _ => trivial

theorem readWord_ok {stream rest : Bytes} {n : Int32} :
    readWord stream = .ok (n, rest) ↔ Word32 n stream rest := by
  unfold readWord
  constructor
  · intro h
    cases hb : readExact 4 stream with
    | error e =>
      rw [hb] at h
      cases h
    | ok p =>
      rw [hb] at h
      cases h
      obtain ⟨hlen, hsplit⟩ := readExact_ok.1 hb
      exact ⟨p.1, hlen, rfl, hsplit⟩
  · rintro ⟨bytes, hlen, rfl, hsplit⟩
    rw [readExact_ok.2 ⟨hlen, hsplit⟩]
    rfl

/-- A frame behind its length word. -/
theorem readFrame_safe (msgType : UInt8) (len : Int32) (body : Bytes) :
    (if Checked.asUsize len.toInt < 4 then
        Run.fail (.bail s!"frame length {Checked.asUsize len.toInt} smaller than header")
      else do
        Run.allocate (1 + Checked.asUsize len.toInt) (Checked.asUsize len.toInt - 4) 1
        let (buf, stream) ← readExact (Checked.asUsize len.toInt - 4) body
        let msg ← parseBody msgType buf
        return (some msg, stream) : Run (Option FrontendMessage × Bytes)).Safe ↔
      0 ≤ len.toInt ∧
        ∀ buf rest, buf.length + 4 = len.toInt.toNat → body = buf ++ rest →
          (asChar msgType = 'P' → ParseCounts buf) ∧ (asChar msgType = 'B' → BindCounts buf) := by
  have hlo := len.le_toInt
  have hhi := len.toInt_lt
  by_cases hneg : len.toInt < 0
  · have hbig := asUsize_of_neg hneg hlo
    rw [if_neg (by omega)]
    refine iff_of_false (Run.not_safe_allocate ?_ _) fun h => absurd h.1 (by omega)
    unfold Run.ISIZE_MAX
    omega
  · have hpos : 0 ≤ len.toInt := by omega
    rw [asUsize_int32 hpos]
    set n := len.toInt.toNat with hn
    by_cases hshort : n < 4
    · rw [if_pos hshort]
      exact iff_of_true (Run.safe_bail _) ⟨hpos, fun buf rest hlen _ => by omega⟩
    · rw [if_neg hshort, Run.safe_allocate (by unfold Run.ISIZE_MAX; omega),
        Run.safe_lift_bind (readExact_returns _ _)]
      constructor
      · rintro ⟨-, hsafe⟩
        refine ⟨hpos, fun buf rest hlen hsplit => ?_⟩
        have hbuf := hsafe (buf, rest) (readExact_ok.2 ⟨by omega, hsplit⟩)
        exact (parseBody_safe (by omega) msgType).1 ((Run.safe_map _ _).1 hbuf)
      · rintro ⟨-, hcounts⟩
        refine ⟨by omega, ?_⟩
        rintro ⟨buf, rest⟩ hread
        obtain ⟨hlen, hsplit⟩ := readExact_ok.1 hread
        exact (Run.safe_map _ _).2
          ((parseBody_safe (by omega) msgType).2 (hcounts buf rest (by omega) hsplit))

theorem readMessage_safe (stream : Bytes) : (readMessage stream).Safe ↔ MessageCounts stream := by
  cases stream with
  | nil => exact iff_of_true (Run.safe_pure _) fun _ _ h => by cases h
  | cons msgType front =>
    rw [readMessage, Run.safe_lift_bind (readWord_returns front)]
    constructor
    · intro hsafe msgType' front' heq len body hword
      cases heq
      exact (readFrame_safe msgType len body).1 (hsafe (len, body) (readWord_ok.2 hword))
    · rintro hcounts ⟨len, body⟩ hread
      exact (readFrame_safe msgType len body).2
        (hcounts msgType front rfl len body (readWord_ok.1 hread))

theorem startupBody_depth (len : Nat) (version : Int32) (stream : Bytes) :
    (startupBody len version stream).depth = 0 := by
  unfold startupBody
  split
  · rfl
  · split
    · rfl
    · refine Run.depth_bind (Run.depth_allocate _ _ _) fun _ => Run.depth_bind rfl fun p => ?_
      exact Run.depth_bind rfl fun _ => rfl

/-- A startup message behind its header. -/
theorem startupBody_safe (len version : Int32) (stream : Bytes) :
    (startupBody (Checked.asUsize len.toInt) version stream).Safe ↔
      (version = PROTO_V3 → 0 ≤ len.toInt) := by
  have hlo := len.le_toInt
  have hhi := len.toInt_lt
  unfold startupBody
  by_cases hversion : version = PROTO_V3
  · rw [if_neg (not_not_intro hversion)]
    by_cases hneg : len.toInt < 0
    · have hbig := asUsize_of_neg hneg hlo
      rw [if_neg (by omega)]
      refine iff_of_false (Run.not_safe_allocate ?_ _) fun h => absurd (h hversion) (by omega)
      unfold Run.ISIZE_MAX
      omega
    · have hpos : 0 ≤ len.toInt := by omega
      rw [asUsize_int32 hpos]
      refine iff_of_true ?_ fun _ => hpos
      split
      · exact Run.safe_bail _
      · rw [Run.safe_allocate (by unfold Run.ISIZE_MAX; omega),
          Run.safe_lift_bind (readExact_returns _ _)]
        refine ⟨by omega, ?_⟩
        rintro ⟨buf, rest⟩ hread
        obtain ⟨hlen, -⟩ := readExact_ok.1 hread
        rw [Run.safe_lift_bind (parseKvPairs_returns (by omega))]
        exact fun _ _ => Run.safe_pure _
  · rw [if_pos hversion]
    exact iff_of_true (Run.safe_bail _) fun h => absurd h hversion

theorem word32_cons {n : Int32} {b₀ b₁ b₂ b₃ : UInt8} {front rest : Bytes} :
    Word32 n (b₀ :: b₁ :: b₂ :: b₃ :: front) rest ↔ n = i32Be [b₀, b₁, b₂, b₃] ∧ rest = front := by
  constructor
  · rintro ⟨bytes, hlen, rfl, hsplit⟩
    have htake := congrArg (List.take 4) hsplit
    have hdrop := congrArg (List.drop 4) hsplit
    rw [List.take_left' hlen] at htake
    rw [List.drop_left' hlen] at hdrop
    exact ⟨by rw [← htake]; rfl, hdrop.symm⟩
  · rintro ⟨rfl, rfl⟩
    exact ⟨[b₀, b₁, b₂, b₃], rfl, rfl, rfl⟩

/-- A header of two words, and what is behind it. -/
theorem header_words {len version : Int32} {mid front rest : Bytes} {l₀ l₁ l₂ l₃ v₀ v₁ v₂ v₃ : UInt8}
    (hlen : Word32 len (l₀ :: l₁ :: l₂ :: l₃ :: v₀ :: v₁ :: v₂ :: v₃ :: front) mid)
    (hversion : Word32 version mid rest) :
    len = i32Be [l₀, l₁, l₂, l₃] ∧ version = i32Be [v₀, v₁, v₂, v₃] ∧ rest = front := by
  obtain ⟨h₁, rfl⟩ := word32_cons.1 hlen
  obtain ⟨h₂, h₃⟩ := word32_cons.1 hversion
  exact ⟨h₁, h₂, h₃⟩

/-- **The startup message.** -/
theorem readStartup_safe (stream : Bytes) (bound : Nat) :
    (readStartup stream).Safe ∧ (readStartup stream).depth ≤ bound ↔ StartupCounts bound stream := by
  fun_induction readStartup stream generalizing bound with
  | case1 l₀ l₁ l₂ l₃ v₀ v₁ v₂ v₃ stream version hssl ih =>
    rw [Run.safe_nested, Run.depth_nested]
    cases bound with
    | zero =>
      refine iff_of_false (fun h => absurd h.2 (by omega)) fun h => ?_
      have hreq : SslRequest (i32Be [l₀, l₁, l₂, l₃])
          (l₀ :: l₁ :: l₂ :: l₃ :: v₀ :: v₁ :: v₂ :: v₃ :: stream) stream :=
        ⟨_, word32_cons.2 ⟨rfl, rfl⟩, word32_cons.2 ⟨hssl.symm, rfl⟩⟩
      have hone := (h 1 [_] stream ⟨_, stream, hreq, [], stream, ⟨rfl, rfl⟩, rfl, rfl⟩).1
      omega
    | succ bound =>
      rw [Nat.add_le_add_iff_right, ih]
      constructor
      · intro h k lens tail hmany
        cases k with
        | zero =>
          obtain ⟨-, rfl⟩ := hmany
          refine ⟨Nat.zero_le _, fun len' mid rest hlen hversion => ?_⟩
          obtain ⟨-, hv, -⟩ := header_words hlen hversion
          exact absurd (hv.trans hssl) (by decide)
        | succ k =>
          obtain ⟨len', mid, ⟨mid', hlen, hversion⟩, tail', rest', hrest, -, rfl⟩ := hmany
          obtain ⟨-, -, rfl⟩ := header_words hlen hversion
          obtain ⟨hk, hbody⟩ := h k tail' rest' hrest
          exact ⟨Nat.succ_le_succ hk, hbody⟩
      · intro h k lens tail hmany
        have hreq : SslRequest (i32Be [l₀, l₁, l₂, l₃])
            (l₀ :: l₁ :: l₂ :: l₃ :: v₀ :: v₁ :: v₂ :: v₃ :: stream) stream :=
          ⟨_, word32_cons.2 ⟨rfl, rfl⟩, word32_cons.2 ⟨hssl.symm, rfl⟩⟩
        obtain ⟨hk, hbody⟩ := h (k + 1) _ tail ⟨_, stream, hreq, lens, tail, hmany, rfl, rfl⟩
        exact ⟨Nat.le_of_succ_le_succ hk, hbody⟩
  | case2 l₀ l₁ l₂ l₃ v₀ v₁ v₂ v₃ stream len version hssl =>
    rw [startupBody_depth, startupBody_safe]
    constructor
    · rintro ⟨hbody, -⟩ k lens tail hmany
      cases k with
      | zero =>
        obtain ⟨-, rfl⟩ := hmany
        refine ⟨Nat.zero_le _, fun len' mid rest hlen hversion => ?_⟩
        obtain ⟨rfl, hv, -⟩ := header_words hlen hversion
        exact hbody hv.symm
      | succ k =>
        obtain ⟨len', mid, ⟨mid', hlen, hversion⟩, -⟩ := hmany
        obtain ⟨-, hv, -⟩ := header_words hlen hversion
        exact absurd hv.symm hssl
    · intro h
      refine ⟨fun hv => ?_, Nat.zero_le _⟩
      obtain ⟨-, hbody⟩ := h 0 [] _ ⟨rfl, rfl⟩
      exact hbody _ _ _ (word32_cons.2 ⟨rfl, rfl⟩) (word32_cons.2 ⟨hv.symm, rfl⟩)
  | case3 stream hshort =>
    have hnone : ∀ {len version mid rest}, Word32 len stream mid → ¬ Word32 version mid rest := by
      intro len version mid rest hlen hversion
      obtain ⟨first, hfirst, -, hstream⟩ := hlen
      obtain ⟨second, hsecond, -, hmid⟩ := hversion
      match first, hfirst, second, hsecond with
      | [l₀, l₁, l₂, l₃], _, [v₀, v₁, v₂, v₃], _ =>
        exact hshort l₀ l₁ l₂ l₃ v₀ v₁ v₂ v₃ rest (by rw [hstream, hmid]; rfl)
    refine iff_of_true ⟨Run.safe_io _, Nat.zero_le _⟩ fun k lens tail hmany => ?_
    cases k with
    | zero =>
      obtain ⟨-, rfl⟩ := hmany
      exact ⟨Nat.zero_le _, fun len mid rest hlen hversion => absurd hversion (hnone hlen)⟩
    | succ k =>
      obtain ⟨len, mid, ⟨mid', hlen, hversion⟩, -⟩ := hmany
      exact absurd hversion (hnone hlen)

/-- **Where the parser is safe.** `read_startup` returns without more than `bound` calls of
itself, and `read_message` returns, each without an allocation larger than its frame: exactly
when the length words are not negative, the counts fit their frames and there are at most
`bound` SSL requests. -/
theorem wire_safe_iff (bound : Nat) (stream : Bytes) :
    ((readStartup stream).Safe ∧ (readStartup stream).depth ≤ bound ↔
      StartupCounts bound stream) ∧
      ((readMessage stream).Safe ↔ MessageCounts stream) :=
  ⟨readStartup_safe stream bound, readMessage_safe stream⟩

/-- A Parse message without a name, a query or parameters, whose count is −1. -/
def negativeCount : Bytes := [80, 0, 0, 0, 8, 0, 0, 255, 255]

/-- Nine bytes stop the server. -/
theorem negativeCount_panics :
    (readMessage negativeCount).result = .error (.panic "capacity overflow") ∧
      ¬ ∃ bound, ∀ stream, (readStartup stream).Safe ∧ (readStartup stream).depth ≤ bound ∧
        (readMessage stream).Safe := by
  have hpanic : (readMessage negativeCount).result = .error (.panic "capacity overflow") := by
    decide +kernel
  refine ⟨hpanic, ?_⟩
  rintro ⟨bound, h⟩
  have hret := (h negativeCount).2.2.2
  rw [hpanic] at hret
  exact hret

end Ccdb.Wire
