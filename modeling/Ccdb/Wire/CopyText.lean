import Ccdb.Sql.Interval
import Ccdb.Wire.Messages

/-!
# Ccdb — the text format of COPY

`split_copy_fields` and `decode_copy_field`, against the text form a client writes: the
seven control characters escaped, everything else in UTF-8. The decoder takes every
byte for a character of its own, so what is not ASCII comes out as the characters of
its UTF-8 bytes. `str::parse::<f64>` is a parameter.

Main results:

* `splitCopyFields_join` — splitting undoes joining with tabs, on any characters.
* `unescape_copyText` — a field decodes to the bytes of its string, one character each.
* `copyText_round_trip_iff` — a row comes back when it has a field and is ASCII.
-/

namespace Ccdb.Wire

open Ccdb.Interval (parseI64)

/-! ## The server's side -/

/-- The loop of `split_copy_fields`; `cur` is the field that is being read. -/
def splitFrom : Bytes → Bytes → List Bytes
  | [], cur => [cur]
  | [b], cur => if b = 9 then [cur, []] else [cur ++ [b]]
  | b :: next :: rest, cur =>
    if b = 92 then splitFrom rest (cur ++ [b, next])
    else if b = 9 then cur :: splitFrom (next :: rest) []
    else splitFrom (next :: rest) (cur ++ [b])

/-- `split_copy_fields`. -/
def splitCopyFields (line : Bytes) : List Bytes := splitFrom line []

/-- The byte a backslash and `next` stand for. -/
def escapedByte (next : UInt8) : Option UInt8 :=
  match asChar next with
  | 'b' => some 0x08
  | 'f' => some 0x0C
  | 'n' => some 0x0A
  | 'r' => some 0x0D
  | 't' => some 0x09
  | 'v' => some 0x0B
  | '\\' => some 0x5C
  | _ => none

/-- The loop of `decode_copy_field`. Behind an unknown escape only the backslash is taken. -/
def unescape : Bytes → List Char
  | [] => []
  | [b] => [asChar b]
  | b :: next :: rest =>
    if b = 92 then
      match escapedByte next with
      | some mapped => asChar mapped :: unescape rest
      | none => asChar b :: unescape (next :: rest)
    else asChar b :: unescape (next :: rest)

/-- The text of `COPY: invalid …`. -/
def invalidCopy (what text : String) : DbError := .bail s!"COPY: invalid {what} '{text}'"

/-- `decode_copy_field`. -/
def decodeCopyField (parseF64 : List Char → Option UInt64) (raw : Bytes) (dataType : DataType)
    (nullable : Bool) : Except DbError Value :=
  if raw = [92, 78] then
    if nullable then .ok .null else .error (.bail "NULL value in non-nullable COPY column")
  else
    let s := unescape raw
    match dataType with
    | .int =>
      match parseI64 s with
      | some n => .ok (.int n.toInt32)
      | none => .error (invalidCopy "int" (String.ofList s))
    | .double =>
      match parseF64 s with
      | some bits => .ok (.double bits)
      | none => .error (invalidCopy "double" (String.ofList s))
    | .varchar => .ok (.varchar (String.ofList s))
    | .bool =>
      let lower := String.ofList (s.map Char.toLower)
      if lower = "t" ∨ lower = "true" ∨ lower = "1" then .ok (.bool true)
      else if lower = "f" ∨ lower = "false" ∨ lower = "0" then .ok (.bool false)
      else .error (invalidCopy "bool" (String.ofList s))
    | .timestamp => .error (.bail "COPY of Timestamp not yet supported")
    | .date => .error (.bail "COPY of Date not yet supported")
    | .time => .error (.bail "COPY of Time not yet supported")
    | .interval => .error (.bail "COPY of Interval not yet supported")

/-! ## The client's side -/

/-- A character in COPY text form. -/
def copyEscape (c : Char) : Bytes :=
  match c with
  | '\x08' => [92, 98]
  | '\x0c' => [92, 102]
  | '\n' => [92, 110]
  | '\r' => [92, 114]
  | '\t' => [92, 116]
  | '\x0b' => [92, 118]
  | '\\' => [92, 92]
  | c => String.utf8EncodeChar c

/-- A string in COPY text form. -/
def copyText (s : String) : Bytes := s.toList.flatMap copyEscape

/-- A row in COPY text form: its fields with tabs between them. -/
def copyLine (row : List String) : Bytes := [9].intercalate (row.map copyText)

/-- What the server makes of a row of VARCHAR columns. -/
def readLine (parseF64 : List Char → Option UInt64) (nullable : Bool) (line : Bytes) :
    Except DbError (List Value) :=
  (splitCopyFields line).mapM fun raw => decodeCopyField parseF64 raw .varchar nullable

/-! ## What an escape is -/

theorem utf8EncodeChar_ascii {c : Char} (h : c.toNat < 128) :
    String.utf8EncodeChar c = [UInt8.ofNat c.toNat] :=
  if_pos (Nat.le_of_lt_succ h)

theorem asChar_ascii {c : Char} (h : c.toNat < 128) : asChar (UInt8.ofNat c.toNat) = c := by
  rw [asChar, UInt8.toNat_ofNat_of_lt' (show c.toNat < 256 by omega), Char.ofNat_toNat]

/-- Beyond ASCII every byte has its high bit set, and there is more than one. -/
theorem utf8EncodeChar_high {c : Char} (h : 128 ≤ c.toNat) :
    (∀ b ∈ String.utf8EncodeChar c, 128 ≤ b.toNat) ∧ 2 ≤ (String.utf8EncodeChar c).length := by
  have hbyte : ∀ n, 128 ≤ n → n < 256 → 128 ≤ (UInt8.ofNat n).toNat := by
    intro n hlo hhi
    rwa [UInt8.toNat_ofNat_of_lt' hhi]
  unfold String.utf8EncodeChar
  have hv : ¬ c.val.toNat ≤ 0x7f := by
    have hval : c.val.toNat = c.toNat := rfl
    omega
  simp only [if_neg hv]
  split
  · simp only [List.mem_cons, List.not_mem_nil, or_false, forall_eq_or_imp, forall_eq]
    exact ⟨⟨hbyte _ (by omega) (by omega), hbyte _ (by omega) (by omega)⟩, by simp⟩
  · split
    · simp only [List.mem_cons, List.not_mem_nil, or_false, forall_eq_or_imp, forall_eq]
      exact ⟨⟨hbyte _ (by omega) (by omega), hbyte _ (by omega) (by omega),
        hbyte _ (by omega) (by omega)⟩, by simp⟩
    · simp only [List.mem_cons, List.not_mem_nil, or_false, forall_eq_or_imp, forall_eq]
      exact ⟨⟨hbyte _ (by omega) (by omega), hbyte _ (by omega) (by omega),
        hbyte _ (by omega) (by omega), hbyte _ (by omega) (by omega)⟩, by simp⟩

/-- A character is written as a backslash and a letter that stands for it, or as its UTF-8
bytes, none of which is a backslash or a tab. -/
theorem copyEscape_cases (c : Char) :
    (∃ next mapped, copyEscape c = [92, next] ∧ escapedByte next = some mapped ∧
      String.utf8EncodeChar c = [mapped]) ∨
    copyEscape c = String.utf8EncodeChar c ∧
      ∀ b ∈ String.utf8EncodeChar c, b ≠ 92 ∧ b ≠ 9 := by
  unfold copyEscape
  split
  case h_8 hb hf hn hr ht hv hslash =>
    refine Or.inr ⟨rfl, fun b hmem => ?_⟩
    by_cases hascii : c.toNat < 128
    · rw [utf8EncodeChar_ascii hascii, List.mem_singleton] at hmem
      subst hmem
      have hback := asChar_ascii hascii
      refine ⟨fun h => hslash ?_, fun h => ht ?_⟩ <;>
        rw [← hback, h] <;> rfl
    · have hhigh := (utf8EncodeChar_high (by omega)).1 b hmem
      refine ⟨fun h => ?_, fun h => ?_⟩ <;> subst h <;> exact absurd hhigh (by decide)
  all_goals exact Or.inl ⟨_, _, rfl, rfl, by decide⟩

/-! ## Splitting -/

theorem splitFrom_plain {b : UInt8} (h92 : b ≠ 92) (h9 : b ≠ 9) (rest cur : Bytes) :
    splitFrom (b :: rest) cur = splitFrom rest (cur ++ [b]) := by
  cases rest with
  | nil => simp [splitFrom, h9]
  | cons next rest => simp [splitFrom, h92, h9]

theorem splitFrom_tab (rest cur : Bytes) : splitFrom (9 :: rest) cur = cur :: splitFrom rest [] := by
  cases rest with
  | nil => rfl
  | cons next rest => simp [splitFrom]

theorem splitFrom_escape (next : UInt8) (rest cur : Bytes) :
    splitFrom (92 :: next :: rest) cur = splitFrom rest (cur ++ [92, next]) := by
  simp [splitFrom]

theorem splitFrom_bytes : ∀ (bytes : Bytes), (∀ b ∈ bytes, b ≠ 92 ∧ b ≠ 9) → ∀ rest cur,
    splitFrom (bytes ++ rest) cur = splitFrom rest (cur ++ bytes)
  | [], _, rest, cur => by rw [List.nil_append, List.append_nil]
  | b :: bytes, h, rest, cur => by
    obtain ⟨h92, h9⟩ := h b List.mem_cons_self
    rw [List.cons_append, splitFrom_plain h92 h9,
      splitFrom_bytes bytes (fun b hb => h b (List.mem_cons_of_mem _ hb)), List.append_assoc,
      List.singleton_append]

theorem splitFrom_copyEscape (c : Char) (rest cur : Bytes) :
    splitFrom (copyEscape c ++ rest) cur = splitFrom rest (cur ++ copyEscape c) := by
  rcases copyEscape_cases c with ⟨next, mapped, hpair, -, -⟩ | ⟨hplain, hbytes⟩
  · rw [hpair]
    exact splitFrom_escape next rest cur
  · rw [hplain]
    exact splitFrom_bytes _ hbytes rest cur

theorem splitFrom_text : ∀ (s : List Char) (rest cur : Bytes),
    splitFrom (s.flatMap copyEscape ++ rest) cur = splitFrom rest (cur ++ s.flatMap copyEscape)
  | [], rest, cur => by rw [List.flatMap_nil, List.nil_append, List.append_nil]
  | c :: s, rest, cur => by
    rw [List.flatMap_cons, List.append_assoc, splitFrom_copyEscape, splitFrom_text s,
      List.append_assoc]

/-- The fields of a line are those it was joined from. -/
theorem splitCopyFields_join : ∀ (row : List String), row ≠ [] →
    splitCopyFields (copyLine row) = row.map copyText
  | [], h => absurd rfl h
  | [s], _ => by
    have htext := splitFrom_text s.toList [] []
    rw [List.append_nil, List.nil_append] at htext
    simpa [splitCopyFields, copyLine, copyText, splitFrom] using htext
  | s :: s' :: row, _ => by
    have hline : copyLine (s :: s' :: row) = copyText s ++ 9 :: copyLine (s' :: row) := by
      simp [copyLine, List.intercalate_cons_cons]
    have ih := splitCopyFields_join (s' :: row) (List.cons_ne_nil _ _)
    rw [splitCopyFields] at ih ⊢
    rw [hline, copyText, splitFrom_text, splitFrom_tab, ih]
    rfl

/-! ## Unescaping -/

theorem unescape_plain {b : UInt8} (h92 : b ≠ 92) (rest : Bytes) :
    unescape (b :: rest) = asChar b :: unescape rest := by
  cases rest with
  | nil => rfl
  | cons next rest => simp [unescape, h92]

theorem unescape_bytes : ∀ (bytes : Bytes), (∀ b ∈ bytes, b ≠ 92 ∧ b ≠ 9) → ∀ rest,
    unescape (bytes ++ rest) = bytes.map asChar ++ unescape rest
  | [], _, _ => rfl
  | b :: bytes, h, rest => by
    rw [List.cons_append, unescape_plain (h b List.mem_cons_self).1,
      unescape_bytes bytes (fun b hb => h b (List.mem_cons_of_mem _ hb))]
    rfl

theorem unescape_copyEscape (c : Char) (rest : Bytes) :
    unescape (copyEscape c ++ rest) = (String.utf8EncodeChar c).map asChar ++ unescape rest := by
  rcases copyEscape_cases c with ⟨next, mapped, hpair, hmapped, hself⟩ | ⟨hplain, hbytes⟩
  · rw [hpair, hself]
    simp [unescape, hmapped]
  · rw [hplain]
    exact unescape_bytes _ hbytes rest

/-- What `b as char` makes of a text: every byte of its UTF-8 form is a character. -/
def byteChars (s : List Char) : List Char := s.flatMap fun c => (String.utf8EncodeChar c).map asChar

theorem unescape_copyText (s : String) : unescape (copyText s) = byteChars s.toList := by
  have h : ∀ l : List Char, unescape (l.flatMap copyEscape) = byteChars l := by
    intro l
    induction l with
    | nil => rfl
    | cons c l ih =>
      rw [List.flatMap_cons, unescape_copyEscape, ih]
      rfl
  exact h s.toList

theorem byteChars_length : ∀ s : List Char, s.length ≤ (byteChars s).length
  | [] => Nat.le_refl 0
  | c :: s => by
    have ih := byteChars_length s
    have hpos : 0 < (String.utf8EncodeChar c).length := List.length_pos_iff.2 String.utf8EncodeChar_ne_nil
    rw [byteChars, List.flatMap_cons, List.length_append, List.length_map, List.length_cons]
    change _ ≤ _ + (byteChars s).length
    omega

/-- A text is its bytes where, and only where, it is ASCII. -/
theorem byteChars_eq_iff : ∀ s : List Char, byteChars s = s ↔ ∀ c ∈ s, c.toNat < 128
  | [] => by simp [byteChars]
  | c :: s => by
    have hcons : byteChars (c :: s) = (String.utf8EncodeChar c).map asChar ++ byteChars s :=
      List.flatMap_cons
    rw [hcons, List.forall_mem_cons]
    by_cases hascii : c.toNat < 128
    · rw [utf8EncodeChar_ascii hascii, List.map_singleton, asChar_ascii hascii,
        List.singleton_append, List.cons.injEq, byteChars_eq_iff s]
      simp [hascii]
    · have hlong := (@utf8EncodeChar_high c (by omega)).2
      have hrest := byteChars_length s
      refine iff_of_false (fun h => ?_) fun h => hascii h.1
      have hlen := congrArg List.length h
      rw [List.length_append, List.length_map, List.length_cons] at hlen
      omega

/-! ## The round trip -/

/-- No text is written as the NULL marker. -/
theorem copyText_ne_null (s : String) : copyText s ≠ [92, 78] := by
  unfold copyText
  cases s.toList with
  | nil => exact nofun
  | cons c l =>
    rw [List.flatMap_cons]
    intro h
    rcases copyEscape_cases c with ⟨next, mapped, hpair, hmapped, -⟩ | ⟨hplain, hbytes⟩
    · rw [hpair] at h
      obtain ⟨rfl, -⟩ : next = 78 ∧ l.flatMap copyEscape = [] := by simpa using h
      cases hmapped
    · rw [hplain] at h
      cases hutf : String.utf8EncodeChar c with
      | nil => exact absurd hutf String.utf8EncodeChar_ne_nil
      | cons b bytes =>
        rw [hutf, List.cons_append, List.cons.injEq] at h
        exact (hbytes b (by rw [hutf]; exact List.mem_cons_self)).1 h.1

variable (parseF64 : List Char → Option UInt64) (nullable : Bool)

/-- Every row of at least one field comes back as the byte texts of its strings. -/
theorem readLine_copyLine {row : List String} (h : row ≠ []) :
    readLine parseF64 nullable (copyLine row) =
      .ok (row.map fun s => .varchar (String.ofList (byteChars s.toList))) := by
  rw [readLine, splitCopyFields_join row h]
  have hfields : ∀ raw ∈ row.map copyText, decodeCopyField parseF64 raw .varchar nullable =
      .ok (.varchar (String.ofList (unescape raw))) := by
    intro raw hraw
    obtain ⟨s, -, rfl⟩ := List.mem_map.1 hraw
    rw [decodeCopyField, if_neg (copyText_ne_null s)]
  rw [mapM_ok hfields, List.map_map]
  refine congrArg Except.ok (List.map_congr_left fun s _ => ?_)
  rw [Function.comp_apply, unescape_copyText]

/-- **COPY text decoding.** A row of strings comes back exactly when it has a field and its
strings are ASCII. -/
theorem copyText_round_trip_iff (row : List String) :
    readLine parseF64 nullable (copyLine row) = .ok (row.map .varchar) ↔
      row ≠ [] ∧ ∀ s ∈ row, ∀ c ∈ s.toList, c.toNat < 128 := by
  by_cases hrow : row = []
  · subst hrow
    exact iff_of_false nofun fun h => h.1 rfl
  · rw [readLine_copyLine parseF64 nullable hrow, Except.ok.injEq, List.map_inj_left]
    refine Iff.trans (forall₂_congr fun s _ => ?_) (and_iff_right hrow).symm
    rw [Value.varchar.injEq, ← byteChars_eq_iff, ← String.toList_inj, String.toList_ofList]

/-- One letter with an accent comes back as two characters. -/
theorem copyText_accent_mangled :
    readLine (fun _ => none) false (copyLine ["é"]) = .ok [.varchar "Ã©"] ∧
      readLine (fun _ => none) false (copyLine ["é"]) ≠ .ok [.varchar "é"] := by
  have h : readLine (fun _ => none) false (copyLine ["é"]) = .ok [.varchar "Ã©"] := by
    decide +kernel
  refine ⟨h, ?_⟩
  rw [h]
  decide

end Ccdb.Wire
