import Ccdb.Lib.Layout

/-!
# Ccdb — length-prefixed frames

An append-only file of frames: a `u32` length word, then that many bytes of
body. The reader goes through the file frame by frame and takes the end of the
file for the end of the log when it comes up while a length word is read; the
bytes of a body have to be there. A crash while the last frame is written leaves
a prefix of the file, and which prefixes the reader accepts is a matter of where
the cut falls.

Main results:

* `readFrames_files` — the whole file reads as the decoded bodies.
* `readFrames_take` — a prefix reads as the frames inside it when fewer than
  four bytes are left over, and is an error otherwise.
-/

namespace Ccdb

/-- A frame whose length word is `body.len() as u32`. -/
def frame (body : Bytes) : Bytes := u32.enc (UInt32.ofNat body.length) ++ body

/-- The frames of encoded records, one after the other. -/
def framesOf {ρ : Type} (encode : ρ → Bytes) (records : List ρ) : Bytes :=
  records.flatMap fun r => frame (encode r)

/-- The reading loop: `short` is the error of a body that ends early. -/
def readFrames {ε α : Type} (decode : Bytes → Except ε α) (short : ε) (file : Bytes)
    (out : List α) : Except ε (List α) :=
  if file.length < 4 then .ok out
  else
    let n := (u32.read file 0).toNat
    let tail := file.drop 4
    if tail.length < n then .error short
    else
      match decode (tail.take n) with
      | .error e => .error e
      | .ok r => readFrames decode short (tail.drop n) (out ++ [r])
termination_by file.length
decreasing_by
  simp only [List.length_drop]
  omega

/-- The records whose frames lie wholly inside the first `n` bytes. -/
def wholeFrames {ρ : Type} (encode : ρ → Bytes) : List ρ → Nat → List ρ
  | [], _ => []
  | r :: rs, n =>
    if (frame (encode r)).length ≤ n then
      r :: wholeFrames encode rs (n - (frame (encode r)).length)
    else []

/-! ## One frame -/

@[simp] theorem frame_length (body : Bytes) : (frame body).length = 4 + body.length := by
  simp [frame]

section Reader

variable {ε α : Type} {decode : Bytes → Except ε α} {short : ε}

theorem readFrames_nil (out : List α) : readFrames decode short [] out = .ok out := by
  rw [readFrames, if_pos (by simp)]

/-- A file too short for a length word ends the log. -/
theorem readFrames_short {file : Bytes} (h : file.length < 4) (out : List α) :
    readFrames decode short file out = .ok out := by
  rw [readFrames, if_pos h]

/-- The length word of a frame whose body is shorter than `2 ^ 32`. -/
theorem frame_word {body : Bytes} (h : body.length < 2 ^ 32) (rest : Bytes) :
    (u32.read (frame body ++ rest) 0).toNat = body.length := by
  rw [frame, List.append_assoc, Field.read_enc]
  exact UInt32.toNat_ofNat_of_lt' h

theorem readFrames_frame {body : Bytes} (h : body.length < 2 ^ 32) {r : α}
    (hr : decode body = .ok r) (rest : Bytes) (out : List α) :
    readFrames decode short (frame body ++ rest) out =
      readFrames decode short rest (out ++ [r]) := by
  have hdrop : (frame body ++ rest).drop 4 = body ++ rest := by
    rw [frame, List.append_assoc]
    exact List.drop_left' (by simp)
  rw [readFrames, if_neg (by simp; omega)]
  simp only [frame_word h, hdrop]
  rw [if_neg (by simp), List.take_left, List.drop_left, hr]

/-- A body that is cut is an error. -/
theorem readFrames_cut {body : Bytes} (h : body.length < 2 ^ 32) {n : Nat} (h4 : 4 ≤ n)
    (hn : n < (frame body).length) (out : List α) :
    readFrames decode short ((frame body).take n) out = .error short := by
  have hlen : ((frame body).take n).length = n := by
    rw [List.length_take]
    omega
  have hword : (u32.read ((frame body).take n) 0).toNat = body.length := by
    have hall := frame_word h []
    rw [List.append_nil, ← List.take_append_drop n (frame body),
      Field.read_prefix _ _ _ (by simp only [u32_width]; omega)] at hall
    exact hall
  rw [readFrames, if_neg (by omega)]
  simp only [hword]
  rw [if_pos]
  rw [frame_length] at hn
  rw [List.length_drop, hlen]
  omega

/-! ## Files -/

variable {ρ : Type} {encode : ρ → Bytes}

theorem framesOf_cons (r : ρ) (rs : List ρ) :
    framesOf encode (r :: rs) = frame (encode r) ++ framesOf encode rs := by
  simp [framesOf]

/-- What the reader makes of a prefix of a file of frames. `value` is what the
decoder returns for an encoded record. -/
theorem readFrames_take (value : ρ → α) :
    ∀ (rs : List ρ) (n : Nat) (out : List α),
      (∀ r ∈ rs, (encode r).length < 2 ^ 32 ∧ decode (encode r) = .ok (value r)) →
      readFrames decode short ((framesOf encode rs).take n) out =
        if ((framesOf encode rs).take n).length -
            (framesOf encode (wholeFrames encode rs n)).length < 4 then
          .ok (out ++ (wholeFrames encode rs n).map value)
        else .error short
  | [], n, out, _ => by
    simp [framesOf, wholeFrames, readFrames_nil]
  | r :: rs, n, out, h => by
    obtain ⟨hr, hdec⟩ := h r List.mem_cons_self
    rw [framesOf_cons]
    by_cases hn : (frame (encode r)).length ≤ n
    · -- the first frame is whole: the reader goes on behind it
      set k := n - (frame (encode r)).length with hk
      have htake : (frame (encode r) ++ framesOf encode rs).take n =
          frame (encode r) ++ (framesOf encode rs).take k := by
        rw [List.take_append, List.take_of_length_le hn]
      have ih := readFrames_take value rs k (out ++ [value r])
        fun x hx => h x (List.mem_cons_of_mem r hx)
      have hleft : (frame (encode r) ++ (framesOf encode rs).take k).length -
          (frame (encode r) ++ framesOf encode (wholeFrames encode rs k)).length =
          ((framesOf encode rs).take k).length -
            (framesOf encode (wholeFrames encode rs k)).length := by
        simp only [List.length_append]
        omega
      rw [htake, readFrames_frame hr hdec, ih, wholeFrames, if_pos hn, ← hk, framesOf_cons, hleft]
      simp
    · -- the cut falls into the first frame
      have htake : (frame (encode r) ++ framesOf encode rs).take n = (frame (encode r)).take n :=
        List.take_append_of_le_length (by omega)
      have hlen : ((frame (encode r)).take n).length = n := by
        rw [List.length_take]
        omega
      have hwhole : wholeFrames encode (r :: rs) n = [] := by rw [wholeFrames, if_neg hn]
      rw [htake, hwhole, hlen]
      by_cases h4 : n < 4
      · rw [readFrames_short (by omega)]
        simp [framesOf, h4]
      · rw [readFrames_cut hr (by omega) (by omega)]
        simp [framesOf, h4]

theorem wholeFrames_all : ∀ rs : List ρ,
    wholeFrames encode rs (framesOf encode rs).length = rs
  | [] => rfl
  | r :: rs => by
    rw [wholeFrames, framesOf_cons, List.length_append, if_pos (Nat.le_add_right _ _),
      Nat.add_sub_cancel_left, wholeFrames_all rs]

/-- A file of frames reads as its records. -/
theorem readFrames_files (value : ρ → α) {rs : List ρ} (out : List α)
    (h : ∀ r ∈ rs, (encode r).length < 2 ^ 32 ∧ decode (encode r) = .ok (value r)) :
    readFrames decode short (framesOf encode rs) out = .ok (out ++ rs.map value) := by
  have htake := @readFrames_take ε α decode short ρ encode value rs
    (framesOf encode rs).length out h
  rwa [List.take_length, wholeFrames_all, Nat.sub_self, if_pos (by decide)] at htake

end Reader

end Ccdb
