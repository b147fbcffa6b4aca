import Mathlib

/-!
# Ccdb — words

White space and the words between it, as `str::trim` and `str::split_whitespace` have them.
A text is the list of its characters.
-/

namespace Ccdb

/-- Unicode white space, as `str::trim` has it. -/
def isWhite (c : Char) : Bool :=
  let n := c.toNat
  (9 ≤ n && n ≤ 13) || n == 0x20 || n == 0x85 || n == 0xA0 || n == 0x1680 ||
    (0x2000 ≤ n && n ≤ 0x200A) || n == 0x2028 || n == 0x2029 || n == 0x202F || n == 0x205F ||
    n == 0x3000

/-- `str::trim`. -/
def trim (s : List Char) : List Char := (s.dropWhile isWhite).rdropWhile isWhite

/-- `str::split_whitespace`. -/
def splitWhitespace (s : List Char) : List (List Char) :=
  (s.splitOnP isWhite).filter (· ≠ [])

/-- A text that `split_whitespace` keeps in one piece. -/
def IsWord (w : List Char) : Prop := w ≠ [] ∧ ∀ c ∈ w, isWhite c = false

instance (w : List Char) : Decidable (IsWord w) := @instDecidableAnd _ _ _ (List.decidableBAll _ w)

/-- `join(" ")`. -/
def joinWords (ws : List (List Char)) : List Char := [' '].intercalate ws

section Words

variable {w s t : List Char} {ps : List (List Char)} {c : Char}

theorem splitWhitespace_word (h : IsWord w) : splitWhitespace w = [w] := by
  rw [splitWhitespace, List.splitOnP_eq_singleton h.2]
  simp [h.1]

theorem splitWhitespace_append (hc : isWhite c) :
    splitWhitespace (s ++ c :: t) = splitWhitespace s ++ splitWhitespace t := by
  rw [splitWhitespace, List.splitOnP_append_cons s t hc, List.filter_append]
  rfl

/-- The words of a joined text are those of its parts. -/
theorem splitWhitespace_joinWords : splitWhitespace (joinWords ps) = ps.flatMap splitWhitespace := by
  induction ps with
  | nil => rfl
  | cons p ps ih =>
    cases ps with
    | nil => rw [joinWords, List.intercalate_singleton, List.flatMap_singleton]
    | cons q ps =>
      rw [joinWords, List.intercalate_cons_cons, List.append_assoc, List.singleton_append,
        splitWhitespace_append rfl, List.flatMap_cons, ← ih, joinWords]

theorem splitWhitespace_dropWhile (s : List Char) :
    splitWhitespace (s.dropWhile isWhite) = splitWhitespace s := by
  induction s with
  | nil => rfl
  | cons c s ih =>
    by_cases hc : isWhite c = true
    · rw [List.dropWhile_cons_of_pos hc, ih]
      exact (splitWhitespace_append (s := []) hc).symm
    · rw [List.dropWhile_cons_of_neg hc]

/-- White space around a text has no part in its words. -/
@[simp] theorem splitWhitespace_trim (s : List Char) : splitWhitespace (trim s) = splitWhitespace s := by
  rw [trim, ← splitWhitespace_dropWhile s]
  induction s.dropWhile isWhite using List.reverseRecOn with
  | nil => rfl
  | append_singleton t c ih =>
    by_cases hc : isWhite c = true
    · rw [List.rdropWhile_concat_pos _ _ _ hc, ih, splitWhitespace_append hc]
      exact (List.append_nil _).symm
    · rw [List.rdropWhile_concat_neg _ _ _ hc]

end Words

end Ccdb
