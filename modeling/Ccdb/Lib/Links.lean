import Mathlib.Data.List.Nodup
import Mathlib.Data.List.Range
import Mathlib.Data.List.Perm.Subperm

/-!
# Linked lists in a store

The cells of a store are linked by a function `next`; a list ends at `stop`,
which is no cell of it. `Links next stop p ps q` says that following `next` from
`p` passes the cells `ps` in this order and then arrives at `q`.

Main results:

* `Links.snoc` — a cell is linked behind the last one.
* `Links.unlink` — a cell is taken out by linking its predecessor past it.
-/

variable {α : Type*}

/-- Following `next` from `p` passes `ps` and arrives at `q`. -/
def Links (next : α → α) (stop : α) : α → List α → α → Prop
  | p, [], q => p = q
  | p, r :: rs, q => p = r ∧ r ≠ stop ∧ Links next stop (next r) rs q

namespace Links

variable {next next' : α → α} {stop p q r : α} {ps qs : List α}

@[simp] theorem nil_iff : Links next stop p [] q ↔ p = q := Iff.rfl

@[simp] theorem cons_iff : Links next stop p (r :: ps) q ↔
    p = r ∧ r ≠ stop ∧ Links next stop (next r) ps q := Iff.rfl

theorem append_iff : Links next stop p (ps ++ qs) q ↔
    ∃ m, Links next stop p ps m ∧ Links next stop m qs q := by
  induction ps generalizing p with
  | nil => simp
  | cons r ps ih =>
    simp only [List.cons_append, cons_iff, ih]
    constructor
    · rintro ⟨hp, hr, m, hps, hqs⟩
      exact ⟨m, ⟨hp, hr, hps⟩, hqs⟩
    · rintro ⟨m, ⟨hp, hr, hps⟩, hqs⟩
      exact ⟨hp, hr, m, hps, hqs⟩

/-- The list depends on the links of its own cells only. -/
theorem congr (hnext : ∀ r ∈ ps, next' r = next r) (h : Links next stop p ps q) :
    Links next' stop p ps q := by
  induction ps generalizing p with
  | nil => exact h
  | cons r ps ih =>
    obtain ⟨hp, hr, hps⟩ := h
    refine ⟨hp, hr, ?_⟩
    rw [hnext r List.mem_cons_self]
    exact ih (fun s hs => hnext s (List.mem_cons_of_mem _ hs)) hps

/-- A list with a cell starts with it. -/
theorem mem_head (h : Links next stop p ps q) (hne : p ≠ q) : p ∈ ps := by
  cases ps with
  | nil => exact absurd h hne
  | cons r ps => exact h.1 ▸ List.mem_cons_self

/-- A cell `q` is linked behind the last one. -/
theorem snoc {last : α} (h : Links next stop p (ps ++ [last]) stop) (hq : q ≠ stop)
    (hlast : next' last = q) (hend : next' q = stop) (hnext : ∀ r ∈ ps, next' r = next r) :
    Links next' stop p (ps ++ [last, q]) stop := by
  obtain ⟨m, hps, hm, hl, -⟩ := append_iff.1 h
  refine append_iff.2 ⟨m, hps.congr hnext, hm, hl, ?_⟩
  rw [hlast]
  exact ⟨rfl, hq, hend⟩

/-- The cell behind `last` is taken out of the list. -/
theorem unlink {last cur : α} (h : Links next stop p (ps ++ last :: cur :: qs) q)
    (hlast : next' last = next cur) (hps : ∀ r ∈ ps, next' r = next r)
    (hqs : ∀ r ∈ qs, next' r = next r) : Links next' stop p (ps ++ last :: qs) q := by
  obtain ⟨m, hfront, hm, hl, -, -, hback⟩ := append_iff.1 h
  refine append_iff.2 ⟨m, hfront.congr hps, hm, hl, ?_⟩
  rw [hlast]
  exact hback.congr hqs

end Links

/-- Different numbers below `n` are at most `n`. -/
theorem List.Nodup.length_le_of_lt {l : List Nat} {n : Nat} (h : l.Nodup) (hlt : ∀ p ∈ l, p < n) :
    l.length ≤ n := by
  have hsub : l ⊆ List.range n := fun p hp => List.mem_range.2 (hlt p hp)
  have hle := (h.subperm hsub).length_le
  rwa [List.length_range] at hle
