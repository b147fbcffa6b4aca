import Mathlib.Data.List.Basic

/-!
# Lines from chunks

A stream of lines that arrives in chunks. A buffer takes each chunk in, gives the lines
it has complete to a step function and keeps the rest; at the end of the stream what is
kept is a last line, if it is anything. The step may have effects and may fail.

Main results:

* `drain_append` — draining in two goes is draining once.
* `drain_finish` — draining and the last line run over the lines of the stream.
-/

namespace Ccdb.LineBuffer

section Position

variable {α : Type} [BEq α] [LawfulBEq α] {sep : α}

theorem position_none {l : List α} (h : sep ∉ l) : l.findIdx? (· == sep) = none := by
  rw [List.findIdx?_eq_none_iff]
  intro a ha
  have hne : a ≠ sep := fun hsep => h (hsep ▸ ha)
  simpa using hne

/-- The first separator is where the prefix without one ends. -/
theorem position_append {pre : List α} (h : sep ∉ pre) (rest : List α) :
    (pre ++ sep :: rest).findIdx? (· == sep) = some pre.length := by
  rw [List.findIdx?_append, position_none h]
  simp [List.findIdx?_cons]

theorem position_some {l : List α} {stop : Nat} (h : l.findIdx? (· == sep) = some stop) :
    stop < l.length ∧ l = l.take stop ++ sep :: l.drop (stop + 1) ∧ sep ∉ l.take stop := by
  obtain ⟨hlt, hsep, hbefore⟩ := List.findIdx?_eq_some_iff_getElem.1 h
  have hget : l[stop] = sep := by simpa using hsep
  refine ⟨hlt, ?_, fun hmem => ?_⟩
  · rw [← hget, ← List.drop_eq_getElem_cons hlt, List.take_append_drop]
  · obtain ⟨k, hk, hkget⟩ := List.mem_take_iff_getElem.1 hmem
    have hne := hbefore k (by omega)
    simp [hkget] at hne

end Position

variable {α β : Type} [DecidableEq α] {m : Type → Type} [Monad m]

/-! ## Lines -/

/-- The pieces between separators, without a final empty one. -/
def lines (sep : α) (stream : List α) : List (List α) :=
  let pieces := stream.splitOn sep
  if pieces.getLast? = some [] then pieces.dropLast else pieces

theorem splitOn_last {sep : α} {line : List α} (h : sep ∉ line) : line.splitOn sep = [line] :=
  List.splitOnP_eq_singleton (List.findIdx?_eq_none_iff.1 (position_none h))

theorem splitOn_cons {sep : α} {line : List α} (h : sep ∉ line) (rest : List α) :
    (line ++ sep :: rest).splitOn sep = line :: rest.splitOn sep :=
  List.splitOnP_append_cons_of_forall_mem (List.findIdx?_eq_none_iff.1 (position_none h)) sep
    (by simp) rest

theorem lines_last {sep : α} {line : List α} (h : sep ∉ line) :
    lines sep line = if line = [] then [] else [line] := by
  simp [lines, splitOn_last h]

theorem lines_cons {sep : α} {line : List α} (h : sep ∉ line) (rest : List α) :
    lines sep (line ++ sep :: rest) = line :: lines sep rest := by
  have hne : rest.splitOn sep ≠ [] := List.splitOnP_ne_nil _ _
  simp only [lines, splitOn_cons h, List.getLast?_cons_of_ne_nil hne,
    List.dropLast_cons_of_ne_nil hne]
  split <;> rfl

/-! ## The buffer -/

/-- Every complete line of the buffer goes to `step`; the rest is kept. -/
def drain (sep : α) (step : β → List α → m β) (buf : List α) (b : β) : m (List α × β) :=
  match h : buf.findIdx? (· == sep) with
  | none => pure (buf, b)
  | some nl => do
    let b ← step b (buf.take nl)
    drain sep step (buf.drop (nl + 1)) b
termination_by buf.length
decreasing_by
  have hlt := (position_some h).1
  rw [List.length_drop]
  omega

/-- The end of the stream: what is kept is a line, if it is anything. -/
def finish (step : β → List α → m β) (kept : List α) (b : β) : m β :=
  if kept = [] then pure b else step b kept

variable {sep : α} {step : β → List α → m β}

theorem drain_last {line : List α} (h : sep ∉ line) (b : β) :
    drain sep step line b = pure (line, b) := by
  rw [drain]
  split
  · rfl
  · rename_i nl hnl
    rw [position_none h] at hnl
    cases hnl

theorem drain_cons {line : List α} (h : sep ∉ line) (rest : List α) (b : β) :
    drain sep step (line ++ sep :: rest) b = step b line >>= drain sep step rest := by
  rw [drain]
  split
  · rename_i hnl
    rw [position_append h] at hnl
    cases hnl
  · rename_i nl hnl
    rw [position_append h] at hnl
    cases hnl
    rw [List.take_left, ← List.drop_drop, List.drop_left]
    rfl

/-- A stream is a last line, or a line, a separator and a stream. -/
theorem byLine {P : List α → Prop} (sep : α) (last : ∀ line, sep ∉ line → P line)
    (cons : ∀ line rest, sep ∉ line → P rest → P (line ++ sep :: rest)) (stream : List α) :
    P stream := by
  induction hn : stream.length using Nat.strongRecOn generalizing stream with
  | ind n ih =>
    by_cases hmem : sep ∈ stream
    · obtain ⟨line, rest, rfl, hline⟩ := List.eq_append_cons_of_mem hmem
      refine cons line rest hline (ih rest.length ?_ rest rfl)
      rw [← hn, List.length_append, List.length_cons]
      omega
    · exact last stream hmem

variable [LawfulMonad m]

theorem drain_append (x y : List α) : ∀ b,
    drain sep step (x ++ y) b = drain sep step x b >>= fun p => drain sep step (p.1 ++ y) p.2 := by
  induction x using byLine sep with
  | last line h =>
    intro b
    rw [drain_last h, pure_bind]
  | cons line rest h ih =>
    intro b
    rw [List.append_assoc, List.cons_append, drain_cons h, drain_cons h, bind_assoc]
    exact bind_congr ih

theorem drain_finish (stream : List α) : ∀ b,
    (drain sep step stream b >>= fun p => finish step p.1 p.2) =
      (lines sep stream).foldlM step b := by
  induction stream using byLine sep with
  | last line h =>
    intro b
    rw [drain_last h, pure_bind, lines_last h, finish]
    split
    · rfl
    · rw [List.foldlM_cons]
      simp only [List.foldlM_nil, bind_pure]
  | cons line rest h ih =>
    intro b
    rw [drain_cons h, lines_cons h, List.foldlM_cons, bind_assoc]
    exact bind_congr ih

end Ccdb.LineBuffer
