import Ccdb.Wire.Bounds

/-!
# Ccdb — what a client writes is what the server reads

Frontend messages as a client writes them, and the reading half of `protocol.rs` on the
stream they make.

Main results:

* `readMessage_frame` — a frame is read back, whatever is behind it.
* `readAll_frames` — a conversation is read back, message by message.
* `readStartup_frame` — a startup is read back behind any number of SSL requests.
-/

namespace Ccdb.Wire

open Ccdb.Checked Ccdb.TupleCodec

/-! ## Frames -/

/-- `i16::to_be_bytes`. -/
def be16 (n : Int16) : Bytes := (toLe 2 n.toUInt16.toNat).reverse

/-- `i32::to_be_bytes`. -/
def be32 (n : Int32) : Bytes := (toLe 4 n.toUInt32.toNat).reverse

/-- A string and its NUL. -/
def cstr (s : String) : Bytes := stringBytes s ++ [0]

/-- Fields behind their number. -/
def counted {α : Type} (field : α → Bytes) (vs : List α) : Bytes :=
  be16 (Int16.ofNat vs.length) ++ vs.flatMap field

/-- A parameter value behind its length; NULL has the length -1. -/
def paramField : Option Bytes → Bytes
  | none => be32 (-1)
  | some bytes => be32 (Int32.ofNat bytes.length) ++ bytes

namespace FrontendMessage

def msgType : FrontendMessage → UInt8
  | query _ => 'Q'.toUInt8
  | parse .. => 'P'.toUInt8
  | bind .. => 'B'.toUInt8
  | describe .. => 'D'.toUInt8
  | execute .. => 'E'.toUInt8
  | close .. => 'C'.toUInt8
  | sync => 'S'.toUInt8
  | flush => 'H'.toUInt8
  | copyData _ => 'd'.toUInt8
  | copyDone => 'c'.toUInt8
  | copyFail _ => 'f'.toUInt8
  | terminate => 'X'.toUInt8
  | unknown msgType => msgType

def body : FrontendMessage → Bytes
  | query sql => cstr sql
  | parse name sql paramTypes => cstr name ++ (cstr sql ++ counted be32 paramTypes)
  | bind portal statement paramFormats params resultFormats =>
    cstr portal ++ (cstr statement ++ (counted be16 paramFormats ++
      (counted paramField params ++ counted be16 resultFormats)))
  | describe kind name => kind :: cstr name
  | execute portal maxRows => cstr portal ++ be32 maxRows
  | close kind name => kind :: cstr name
  | copyData bytes => bytes
  | copyFail reason => cstr reason
  | sync | flush | copyDone | terminate | unknown _ => []

/-- The type byte, the length word and the body. -/
def frame (m : FrontendMessage) : Bytes :=
  m.msgType :: (be32 (Int32.ofNat (m.body.length + 4)) ++ m.body)

/-- What the format has room for: no NUL in a name, counts and lengths that are not negative as
signed words, and of the other types no known one. -/
def Fields : FrontendMessage → Prop
  | parse name sql paramTypes =>
    0 ∉ stringBytes name ∧ 0 ∉ stringBytes sql ∧ paramTypes.length < 2 ^ 15
  | bind portal statement paramFormats params resultFormats =>
    0 ∉ stringBytes portal ∧ 0 ∉ stringBytes statement ∧ paramFormats.length < 2 ^ 15 ∧
      (params.length < 2 ^ 15 ∧ ∀ bytes, some bytes ∈ params → bytes.length < 2 ^ 31) ∧
      resultFormats.length < 2 ^ 15
  | describe _ name | close _ name => 0 ∉ stringBytes name
  | execute portal _ => 0 ∉ stringBytes portal
  | copyFail reason => 0 ∉ stringBytes reason
  | unknown msgType =>
    asChar msgType ∉ ['Q', 'P', 'B', 'D', 'E', 'C', 'S', 'H', 'd', 'c', 'f', 'X']
  | query _ | sync | flush | copyData _ | copyDone | terminate => True

structure WellFormed (m : FrontendMessage) : Prop where
  fields : m.Fields
  length : m.body.length + 4 < 2 ^ 31

end FrontendMessage

/-! ## Fields -/

theorem fromBe_reverse (width n : Nat) (h : n < 256 ^ width) :
    fromBe (toLe width n).reverse = n := by
  rw [fromBe, List.reverse_reverse, fromLe_toLe, Nat.mod_eq_of_lt h]

theorem i16Be_be16 (n : Int16) : i16Be (be16 n) = n := by
  rw [i16Be, be16, fromBe_reverse 2 _ n.toUInt16.toNat_lt]
  simp

theorem i32Be_be32 (n : Int32) : i32Be (be32 n) = n := by
  rw [i32Be, be32, fromBe_reverse 4 _ n.toUInt32.toNat_lt]
  simp

theorem word16_be16 (n : Int16) (rest : Bytes) : Word16 n (be16 n ++ rest) rest :=
  ⟨be16 n, by simp [be16], (i16Be_be16 n).symm, rfl⟩

theorem word32_be32 (n : Int32) (rest : Bytes) : Word32 n (be32 n ++ rest) rest :=
  ⟨be32 n, by simp [be32], (i32Be_be32 n).symm, rfl⟩

theorem cStr_cstr {s : String} (h : 0 ∉ stringBytes s) (rest : Bytes) : CStr s (cstr s ++ rest) rest :=
  ⟨by simp [cstr], h⟩

theorem toInt_ofNat32 {n : Nat} (h : n < 2 ^ 31) : (Int32.ofNat n).toInt = n :=
  Int32.toInt_ofNat_of_lt h

theorem asUsize_ofNat32 {n : Nat} (h : n < 2 ^ 31) :
    Checked.asUsize (Int32.ofNat n).toInt = n := by
  have htoInt := toInt_ofNat32 h
  rw [asUsize_int32 (by omega), htoInt, Int.toNat_natCast]

theorem toInt_ofNat16 {n : Nat} (h : n < 2 ^ 15) : (Int16.ofNat n).toInt = n :=
  Int16.toInt_ofNat_of_lt h

theorem param_paramField {v : Option Bytes} (h : ∀ bytes, v = some bytes → bytes.length < 2 ^ 31)
    (rest : Bytes) : Param v (paramField v ++ rest) rest := by
  cases v with
  | none => exact ⟨-1, rest, word32_be32 _ _, by decide, rfl⟩
  | some bytes =>
    have hlen := toInt_ofNat32 (h bytes rfl)
    refine ⟨Int32.ofNat bytes.length, bytes ++ rest, ?_, ?_, ?_, rfl⟩
    · rw [paramField, List.append_assoc]
      exact word32_be32 _ _
    · rw [hlen]
      exact Int.natCast_nonneg _
    · rw [hlen, Int.toNat_natCast]

theorem many_flatMap {α : Type} {R : α → Bytes → Bytes → Prop} {field : α → Bytes} (rest : Bytes) :
    ∀ {vs : List α}, (∀ v ∈ vs, ∀ rest, R v (field v ++ rest) rest) →
      Many R vs.length vs (vs.flatMap field ++ rest) rest
  | [], _ => ⟨rfl, rfl⟩
  | v :: vs, h => by
    refine ⟨v, vs.flatMap field ++ rest, ?_, vs, rest, ?_, rfl, rfl⟩
    · rw [List.flatMap_cons, List.append_assoc]
      exact h v List.mem_cons_self _
    · exact many_flatMap rest fun w hw => h w (List.mem_cons_of_mem _ hw)

/-! ## Bodies -/

section Bodies

variable {buf : Bytes} {α : Type} {r : Nat → Run (α × Nat)} {R : α → Bytes → Bytes → Prop} {i : Nat}

/-- A field in front of the rest of a parser. -/
theorem parsed (h : Reads buf r R) (hi : i ≤ buf.length) {a : α} {front rest : Bytes}
    (hdrop : buf.drop i = front) (hR : R a front rest) :
    ∃ j, j ≤ buf.length ∧ buf.drop j = rest ∧
      ∀ (β : Type) (f : α × Nat → Run β), (r i >>= f).result = (f (a, j)).result := by
  obtain ⟨j, hj, hok, hrest⟩ := h.complete i hi a rest (hdrop ▸ hR)
  exact ⟨j, hj, hrest, fun β f => by rw [Run.bind_of_ok hok]⟩

/-- Fields behind their number, with the allocation for them. -/
theorem counted_parsed (h : Reads buf r R) (hbuf : buf.length < 2 ^ 62) (hi : i ≤ buf.length)
    {field : α → Bytes} {vs : List α} {rest : Bytes} (hdrop : buf.drop i = counted field vs ++ rest)
    (hlen : vs.length < 2 ^ 15) (hR : ∀ v ∈ vs, ∀ rest, R v (field v ++ rest) rest) {size : Nat}
    (hsize : size ≤ 24) :
    ∃ j, j ≤ buf.length ∧ buf.drop j = rest ∧ ∀ (β : Type) (f : List α × Nat → Run β),
      (do
        let (n, i) ← readI16 buf i
        Run.allocate (frameSize buf) (Checked.asUsize n.toInt) size
        let p ← Run.times r (Checked.asUsize n.toInt) i
        f p : Run β).result = (f (vs, j)).result := by
  rw [counted, List.append_assoc] at hdrop
  obtain ⟨j, hj, hdrop, hn⟩ := parsed (readI16_reads (by omega)) hi hdrop (word16_be16 _ _)
  have htoInt := toInt_ofNat16 hlen
  have hcount : Checked.asUsize (Int16.ofNat vs.length).toInt = vs.length := by
    rw [asUsize_int16 (by omega), htoInt, Int.toNat_natCast]
  obtain ⟨k, hk, hrest, htimes⟩ := parsed (h.times vs.length) hj hdrop (many_flatMap rest hR)
  refine ⟨k, hk, hrest, fun β f => (hn β _).trans ?_⟩
  have hsmall : vs.length * size ≤ Run.ISIZE_MAX :=
    (Nat.mul_le_mul hlen.le hsize).trans (by decide)
  dsimp only
  rw [hcount, Run.allocate_ok_bind hsmall]
  exact htimes β f

end Bodies

/-- A body is parsed as the message it was written for. -/
theorem parseBody_body {m : FrontendMessage} (h : m.WellFormed) :
    (parseBody m.msgType m.body).result = .ok m := by
  obtain ⟨hfields, hlength⟩ := h
  have hcstr : Reads m.body (fun i => liftM (readCstr m.body i)) CStr := readCstr_reads (by omega)
  have h16 : Reads m.body (fun i => liftM (readI16 m.body i)) Word16 := readI16_reads (by omega)
  have h32 : Reads m.body (fun i => liftM (readI32 m.body i)) Word32 := readI32_reads (by omega)
  have hparam : Reads m.body (readParam m.body) Param := readParam_reads (by omega)
  cases m with
  | query sql =>
    have hlast : (cstr sql).getLast? = some 0 := by simp [cstr]
    have hbody : (FrontendMessage.query sql).body = stringBytes sql ++ [0] := rfl
    have hlen : (FrontendMessage.query sql).body.length = (stringBytes sql).length + 1 := by
      rw [hbody, List.length_append, List.length_singleton]
    -- a query is the one body that is cut by its length, not at its NUL
    show (if (cstr sql).getLast? ≠ some 0 then _ else _ : Run FrontendMessage).result = _
    rw [if_neg (not_not.2 hlast), hlen, subUsize_ok (by omega), Run.lift_ok_bind, Nat.add_sub_cancel,
      slice_ok (Nat.zero_le _) (by omega), Run.lift_ok_bind, List.drop_zero, Nat.sub_zero, hbody,
      List.take_left, fromUtf8_stringBytes]
    rfl
  | parse name sql paramTypes =>
    obtain ⟨hname, hsql, htypes⟩ := hfields
    obtain ⟨i, hi, hdrop, h₁⟩ := parsed hcstr (Nat.zero_le _) List.drop_zero
      (cStr_cstr hname _)
    obtain ⟨j, hj, hdrop, h₂⟩ := parsed hcstr hi hdrop (cStr_cstr hsql _)
    rw [← List.append_nil (counted be32 paramTypes)] at hdrop
    obtain ⟨k, -, -, h₃⟩ := counted_parsed h32 (by omega) hj hdrop htypes
      (fun n _ => word32_be32 n) (by decide : SIZE_OF_I32 ≤ 24)
    exact (h₁ _ _).trans ((h₂ _ _).trans (h₃ _ _))
  | bind portal statement paramFormats params resultFormats =>
    obtain ⟨hportal, hstatement, hformats, ⟨hparams, hvalues⟩, hresults⟩ := hfields
    obtain ⟨i, hi, hdrop, h₁⟩ := parsed hcstr (Nat.zero_le _) List.drop_zero
      (cStr_cstr hportal _)
    obtain ⟨j, hj, hdrop, h₂⟩ := parsed hcstr hi hdrop (cStr_cstr hstatement _)
    obtain ⟨k, hk, hdrop, h₃⟩ := counted_parsed h16 (by omega) hj hdrop hformats
      (fun n _ => word16_be16 n) (by decide : SIZE_OF_I16 ≤ 24)
    obtain ⟨l, hl, hdrop, h₄⟩ := counted_parsed hparam (by omega) hk hdrop hparams
      (fun v hv => param_paramField fun bytes hbytes => hvalues bytes (hbytes ▸ hv))
      (by decide : SIZE_OF_PARAM ≤ 24)
    rw [← List.append_nil (counted be16 resultFormats)] at hdrop
    -- three lists, each behind its number, and only the middle one with lengths of its own
    obtain ⟨n, -, -, h₅⟩ := counted_parsed h16 (by omega) hl hdrop hresults
      (fun n _ => word16_be16 n) (by decide : SIZE_OF_I16 ≤ 24)
    exact (h₁ _ _).trans ((h₂ _ _).trans ((h₃ _ _).trans ((h₄ _ _).trans (h₅ _ _))))
  | describe kind name =>
    obtain ⟨i, -, -, h₁⟩ := parsed (i := 1) hcstr (Nat.succ_le_succ (Nat.zero_le _))
      (List.append_nil (cstr name)).symm (cStr_cstr hfields _)
    exact h₁ _ _
  | execute portal maxRows =>
    obtain ⟨i, hi, hdrop, h₁⟩ := parsed hcstr (Nat.zero_le _) List.drop_zero
      (cStr_cstr hfields _)
    rw [← List.append_nil (be32 maxRows)] at hdrop
    obtain ⟨j, -, -, h₂⟩ := parsed h32 hi hdrop (word32_be32 maxRows _)
    exact (h₁ _ _).trans (h₂ _ _)
  | close kind name =>
    obtain ⟨i, -, -, h₁⟩ := parsed (i := 1) hcstr (Nat.succ_le_succ (Nat.zero_le _))
      (List.append_nil (cstr name)).symm (cStr_cstr hfields _)
    exact h₁ _ _
  | copyFail reason =>
    obtain ⟨i, -, hok, -⟩ := hcstr.complete 0 (Nat.zero_le _) reason [] ⟨rfl, hfields⟩
    have hok : readCstr (cstr reason) 0 = .ok (reason, i) := hok
    show (do
      let reason ← unwrapOrDefault (readCstr (cstr reason) 0)
      return .copyFail reason : Run FrontendMessage).result = _
    rw [hok]
    rfl
  | unknown msgType =>
    have hfields : asChar msgType ∉ ['Q', 'P', 'B', 'D', 'E', 'C', 'S', 'H', 'd', 'c', 'f', 'X'] :=
      hfields
    show (parseBody msgType []).result = _
    -- every type that `read_message` knows is excluded, so the last branch is left
    unfold parseBody
    split <;> rename_i hchar
    all_goals first
      | rfl
      | (rw [hchar] at hfields; exact absurd hfields (by decide))
  | _ => rfl

/-! ## The stream -/

theorem readExact_append {n : Nat} {a : Bytes} (h : a.length = n) (b : Bytes) :
    readExact n (a ++ b) = .ok (a, b) := by
  rw [← h, readExact, if_pos (by simp), List.take_left, List.drop_left]

/-- **A frame is read back**, and nothing behind it is touched. -/
theorem readMessage_frame {m : FrontendMessage} (h : m.WellFormed) (rest : Bytes) :
    (readMessage (m.frame ++ rest)).result = .ok (some m, rest) := by
  have hword : readWord (be32 (Int32.ofNat (m.body.length + 4)) ++ (m.body ++ rest)) =
      .ok (Int32.ofNat (m.body.length + 4), m.body ++ rest) := by
    rw [readWord, readExact_append (by simp [be32])]
    exact congrArg (fun n => Except.ok (n, m.body ++ rest)) (i32Be_be32 _)
  have hlen : Checked.asUsize (Int32.ofNat (m.body.length + 4)).toInt = m.body.length + 4 :=
    asUsize_ofNat32 h.length
  have hlength := h.length
  rw [FrontendMessage.frame, List.cons_append, List.append_assoc, readMessage, hword,
    Run.lift_ok_bind]
  dsimp only
  rw [hlen, if_neg (by omega), Run.allocate_ok_bind (by unfold Run.ISIZE_MAX; omega),
    Nat.add_sub_cancel, readExact_append rfl, Run.lift_ok_bind, Run.bind_of_ok (parseBody_body h)]
  rfl

/-- The messages of a stream, up to its end. -/
def readAll : Nat → Bytes → Except DbError (List FrontendMessage)
  | 0, _ => .error .diverge
  | fuel + 1, stream => do
    let (msg, stream) ← (readMessage stream).result
    match msg with
    | none => return []
    | some msg => do
      let msgs ← readAll fuel stream
      return msg :: msgs

/-- **A conversation is read back**: no message is lost, split or joined to another. -/
theorem readAll_frames {ms : List FrontendMessage} (h : ∀ m ∈ ms, m.WellFormed) :
    readAll (ms.length + 1) (ms.flatMap FrontendMessage.frame) = .ok ms := by
  induction ms with
  | nil => rfl
  | cons m ms ih =>
    rw [List.flatMap_cons, List.length_cons, readAll, readMessage_frame (h m List.mem_cons_self)]
    simp only [bind, Except.bind]
    rw [ih fun m' hm' => h m' (List.mem_cons_of_mem _ hm')]
    rfl

/-- A prepared statement that is executed once. -/
def prepared : List FrontendMessage :=
  [.parse "s" "SELECT $1, $2" [23], .bind "" "s" [] [some [55], none] [1], .execute "" 0, .sync]

theorem readAll_frames_prepared :
    readAll 5 (prepared.flatMap FrontendMessage.frame) = .ok prepared := by
  have hs : 0 ∉ stringBytes "s" := by decide +kernel
  have hempty : 0 ∉ stringBytes "" := by decide +kernel
  refine readAll_frames fun m hm => ?_
  simp only [prepared, List.mem_cons, List.not_mem_nil, or_false] at hm
  rcases hm with rfl | rfl | rfl | rfl
  · exact ⟨⟨hs, by decide +kernel, by decide⟩, by decide +kernel⟩
  · refine ⟨⟨hempty, hs, by decide, ⟨by decide, fun bytes hbytes => ?_⟩, by decide⟩, by decide +kernel⟩
    cases List.mem_pair.1 hbytes with
    | inl h => cases h; decide
    | inr h => cases h
  · exact ⟨hempty, by decide +kernel⟩
  · exact ⟨trivial, by decide⟩

/-! ## The startup -/

/-- An SSL request. -/
def sslRequest : Bytes := be32 8 ++ be32 SSL_REQUEST

namespace StartupMessage

/-- The parameters as C strings, and a NUL behind the last. -/
def body (m : StartupMessage) : Bytes := m.params.flatMap (fun p => cstr p.1 ++ cstr p.2) ++ [0]

def frame (m : StartupMessage) : Bytes :=
  be32 (Int32.ofNat (m.body.length + 8)) ++ (be32 PROTO_V3 ++ m.body)

/-- A key without characters would end the list. -/
structure WellFormed (m : StartupMessage) : Prop where
  keys : ∀ p ∈ m.params, p.1 ≠ "" ∧ 0 ∉ stringBytes p.1
  values : ∀ p ∈ m.params, 0 ∉ stringBytes p.2
  length : m.body.length + 8 < 2 ^ 31

end StartupMessage

theorem index_of_drop {buf rest : Bytes} {i : Nat} {b : UInt8} (h : buf.drop i = b :: rest) :
    i < buf.length ∧ index buf i = .ok b := by
  have hb : (buf.drop i)[0]? = buf[i]? := List.getElem?_drop
  rw [h] at hb
  exact ⟨(List.getElem?_eq_some_iff.1 hb.symm).1, by rw [index, ← hb]; rfl⟩

/-- The loop reads the pairs in front of the last NUL. -/
theorem kvLoop_pairs {buf : Bytes} (hbuf : buf.length < 2 ^ 63) :
    ∀ {params : List (String × String)} {fuel i : Nat}, i ≤ buf.length → buf.length < i + fuel →
      buf.drop i = params.flatMap (fun p => cstr p.1 ++ cstr p.2) ++ [0] →
      (∀ p ∈ params, (p.1 ≠ "" ∧ 0 ∉ stringBytes p.1) ∧ 0 ∉ stringBytes p.2) →
      kvLoop buf fuel i = .ok params
  | _, 0, i, hi, hfuel, _, _ => by omega
  | [], fuel + 1, i, hi, hfuel, hdrop, _ => by
    obtain ⟨hlt, hindex⟩ := index_of_drop hdrop
    rw [kvLoop, if_pos hlt, hindex]
    rfl
  | (key, val) :: params, fuel + 1, i, hi, hfuel, hdrop, hwf => by
    obtain ⟨⟨hne, hkey⟩, hval⟩ := hwf _ List.mem_cons_self
    rw [List.flatMap_cons, List.append_assoc, List.append_assoc] at hdrop
    obtain ⟨j, hj, hread₁, hdrop₁⟩ := (nulString_reads "startup: unterminated key" hbuf).complete i hi
      key _ (hdrop ▸ cStr_cstr hkey _)
    obtain ⟨k, hk, hread₂, hdrop₂⟩ := (nulString_reads "startup: unterminated value" hbuf).complete j hj
      val _ (hdrop₁ ▸ cStr_cstr hval _)
    have hread₁ : nulString "startup: unterminated key" buf i = .ok (key, j) := hread₁
    have hread₂ : nulString "startup: unterminated value" buf j = .ok (val, k) := hread₂
    obtain ⟨hij, -⟩ := nulString_lt hbuf hi hread₁
    obtain ⟨hjk, -⟩ := nulString_lt hbuf hj hread₂
    -- a key that is not empty does not start with the NUL that ends the list
    obtain ⟨b, bs, hbytes⟩ : ∃ b bs, stringBytes key = b :: bs := by
      refine List.exists_cons_of_ne_nil fun hnil => hne ?_
      have hempty := fromUtf8_stringBytes key
      rw [hnil] at hempty
      exact (Except.ok.inj hempty).symm
    have hbyte : b ≠ 0 := by
      rintro rfl
      exact hkey (hbytes ▸ List.mem_cons_self)
    rw [cstr, hbytes] at hdrop
    obtain ⟨hlt, hindex⟩ := index_of_drop hdrop
    rw [kvLoop, if_pos hlt, hindex]
    simp only [bind, Except.bind, if_neg hbyte, hread₁, hread₂]
    rw [kvLoop_pairs hbuf hk (by omega) hdrop₂ fun p hp => hwf p (List.mem_cons_of_mem _ hp)]
    rfl

theorem startupBody_body {m : StartupMessage} (h : m.WellFormed) (rest : Bytes) :
    (startupBody (m.body.length + 8) PROTO_V3 (m.body ++ rest)).result = .ok (m, rest) := by
  have hlength := h.length
  have hpairs : parseKvPairs m.body = .ok m.params :=
    kvLoop_pairs (by omega) (Nat.zero_le _) (by omega) List.drop_zero
      fun p hp => ⟨h.keys p hp, h.values p hp⟩
  rw [startupBody, if_neg (by simp), if_neg (by omega), Nat.add_sub_cancel,
    Run.allocate_ok_bind (by unfold Run.ISIZE_MAX; omega),
    readExact_append rfl, Run.lift_ok_bind]
  dsimp only
  rw [hpairs, Run.lift_ok_bind]
  rfl

/-- **A startup is read back** behind any number of SSL requests, at the price of one call of
`read_startup` inside the other for each of them. -/
theorem readStartup_frame {m : StartupMessage} (h : m.WellFormed) (n : Nat) (rest : Bytes) :
    (readStartup ((List.replicate n sslRequest).flatten ++ (m.frame ++ rest))).result = .ok (m, rest) ∧
      (readStartup ((List.replicate n sslRequest).flatten ++ (m.frame ++ rest))).depth = n := by
  induction n with
  | zero =>
    have hlen : Checked.asUsize (Int32.ofNat (m.body.length + 8)).toInt = m.body.length + 8 :=
      asUsize_ofNat32 h.length
    obtain ⟨l₀, l₁, l₂, l₃, hbytes⟩ : ∃ l₀ l₁ l₂ l₃,
        be32 (Int32.ofNat (m.body.length + 8)) = [l₀, l₁, l₂, l₃] := by
      have hfour : (be32 (Int32.ofNat (m.body.length + 8))).length = 4 := by simp [be32]
      match be32 (Int32.ofNat (m.body.length + 8)), hfour with
      | [l₀, l₁, l₂, l₃], _ => exact ⟨l₀, l₁, l₂, l₃, rfl⟩
    have hword : i32Be [l₀, l₁, l₂, l₃] = Int32.ofNat (m.body.length + 8) := hbytes ▸ i32Be_be32 _
    -- `readStartup` matches on eight bytes, so both words are written out
    have hproto : be32 PROTO_V3 = [0, 3, 0, 0] := by decide
    have hversion : i32Be [0, 3, 0, 0] = PROTO_V3 := by decide
    have hnossl : PROTO_V3 ≠ SSL_REQUEST := by decide
    have hread : readStartup (m.frame ++ rest) =
        startupBody (m.body.length + 8) PROTO_V3 (m.body ++ rest) := by
      rw [StartupMessage.frame, hbytes, hproto]
      simp only [List.cons_append, List.nil_append, readStartup, hword, hversion, if_neg hnossl, hlen]
    rw [List.replicate_zero, List.flatten_nil, List.nil_append, hread]
    exact ⟨startupBody_body h rest, startupBody_depth _ _ _⟩
  | succ n ih =>
    have hstream : (List.replicate (n + 1) sslRequest).flatten ++ (m.frame ++ rest) =
        [0, 0, 0, 8, 4, 210, 22, 47] ++ ((List.replicate n sslRequest).flatten ++ (m.frame ++ rest)) := by
      rw [List.replicate_succ, List.flatten_cons, List.append_assoc]
      rfl
    have hssl : i32Be [4, 210, 22, 47] = SSL_REQUEST := by decide
    rw [hstream]
    simp only [List.cons_append, List.nil_append, readStartup, hssl, if_true]
    rw [Run.depth_nested]
    exact ⟨ih.1, congrArg (· + 1) ih.2⟩

/-- What a client declares of itself. -/
def alice : StartupMessage := ⟨[("user", "alice"), ("database", "")]⟩

theorem readStartup_frame_alice :
    (readStartup ((List.replicate 2 sslRequest).flatten ++ (alice.frame ++ [88]))).result =
        .ok (alice, [88]) ∧
      (readStartup ((List.replicate 2 sslRequest).flatten ++ (alice.frame ++ [88]))).depth = 2 :=
  readStartup_frame ⟨by decide +kernel, by decide +kernel, by decide +kernel⟩ 2 [88]

end Ccdb.Wire
