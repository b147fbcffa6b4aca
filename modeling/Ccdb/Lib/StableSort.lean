import Mathlib.Data.List.Basic
import Mathlib.Data.List.Pairwise
import Mathlib.Data.List.Perm.Basic

/-!
# Stable sorting with a comparison that can fail

An insertion sort whose comparison answers in `Except`, as a comparison closure that may
stop the program does. Nothing is asked of the comparison outside of the elements of the
list.

Main results:

* `sortBy_spec` — over a total preorder the result is an ordered permutation, and elements
  that compare as equal keep their order.
-/

namespace Ccdb.StableSort

variable {ε α β : Type} {cmp : α → α → Except ε Ordering} {P : α → Prop} {x : α} {l : List α}

/-- The list with `x` before the first element it is not greater than. -/
def insertBy (cmp : α → α → Except ε Ordering) (x : α) : List α → Except ε (List α)
  | [] => .ok [x]
  | y :: ys => do
    if (← cmp x y) = .gt then
      let ys ← insertBy cmp x ys
      return y :: ys
    else
      return x :: y :: ys

def sortBy (cmp : α → α → Except ε Ordering) : List α → Except ε (List α)
  | [] => .ok []
  | x :: xs => do
    let xs ← sortBy cmp xs
    insertBy cmp x xs

/-- The comparison answers on the elements in question, the other way round with the
answer reversed, and "not greater" is transitive. -/
structure TotalPreorder (cmp : α → α → Except ε Ordering) (P : α → Prop) : Prop where
  total : ∀ x y, P x → P y → ∃ o, cmp x y = .ok o ∧ cmp y x = .ok o.swap
  trans : ∀ x y z, P x → P y → P z → cmp x y ≠ .ok .gt → cmp y z ≠ .ok .gt → cmp x z ≠ .ok .gt

theorem TotalPreorder.mono {Q : α → Prop} (h : TotalPreorder cmp P) (hsub : ∀ x, Q x → P x) :
    TotalPreorder cmp Q where
  total x y hx hy := h.total x y (hsub x hx) (hsub y hy)
  trans x y z hx hy hz := h.trans x y z (hsub x hx) (hsub y hy) (hsub z hz)

/-- The preorder of the images. -/
theorem TotalPreorder.comap {cmp : β → β → Except ε Ordering} {P : β → Prop}
    (h : TotalPreorder cmp P) (f : α → β) :
    TotalPreorder (fun x y => cmp (f x) (f y)) (fun x => P (f x)) where
  total x y := h.total (f x) (f y)
  trans x y z := h.trans (f x) (f y) (f z)

/-- Elements in order. -/
def Ordered (cmp : α → α → Except ε Ordering) (l : List α) : Prop :=
  l.Pairwise fun x y => cmp x y ≠ .ok .gt

/-- A list that keeps the order of the elements that `p` holds of, for each class `p` of
elements that compare as equal. -/
def KeepsTies (cmp : α → α → Except ε Ordering) (l l' : List α) : Prop :=
  ∀ p : α → Bool, (∀ x ∈ l, ∀ y ∈ l, p x → p y → cmp x y = .ok .eq) → l'.filter p = l.filter p

/-- One element more. -/
theorem insertBy_spec (h : TotalPreorder cmp P) (hx : P x) (hl : ∀ y ∈ l, P y)
    (hord : Ordered cmp l) :
    ∃ l', insertBy cmp x l = .ok l' ∧ l'.Perm (x :: l) ∧ Ordered cmp l' ∧
      KeepsTies cmp (x :: l) l' := by
  induction l with
  | nil => exact ⟨[x], rfl, .refl _, List.pairwise_singleton _ _, fun _ _ => rfl⟩
  | cons y ys ih =>
    obtain ⟨hys, hord'⟩ := List.pairwise_cons.1 hord
    have hy : P y := hl y List.mem_cons_self
    obtain ⟨o, hxy, hyx⟩ := h.total x y hx hy
    by_cases ho : o = .gt
    · subst ho
      obtain ⟨l', hl', hperm, hsorted, hties⟩ :=
        ih (fun z hz => hl z (List.mem_cons_of_mem _ hz)) hord'
      refine ⟨y :: l', ?_, ?_, ?_, fun p hp => ?_⟩
      · rw [insertBy, hxy]
        simp only [bind, Except.bind, if_true, hl', pure, Except.pure]
      · exact (hperm.cons y).trans (.swap x y ys)
      · refine List.pairwise_cons.2 ⟨fun z hz => ?_, hsorted⟩
        rcases List.mem_cons.1 (hperm.subset hz) with rfl | hz
        · rw [hyx]
          exact fun hcontra => nomatch hcontra
        · exact hys z hz
      · -- `x` and `y` do not tie, so the class has at most one of them
        have htail := hties p fun z hz w hw => hp z (by grind) w (by grind)
        have hne : ¬ (p x = true ∧ p y = true) := fun ⟨hpx, hpy⟩ => by
          have heq := hp x List.mem_cons_self y (by simp) hpx hpy
          rw [hxy] at heq
          cases heq
        simp only [List.filter_cons] at htail ⊢
        rw [htail]
        cases hpx : p x <;> cases hpy : p y <;> simp_all
    · refine ⟨x :: y :: ys, ?_, .refl _, ?_, fun _ _ => rfl⟩
      · rw [insertBy, hxy]
        simp only [bind, Except.bind, if_neg ho, pure, Except.pure]
      · refine List.pairwise_cons.2 ⟨fun z hz => ?_, hord⟩
        have hle : cmp x y ≠ .ok .gt := by
          rw [hxy]
          exact fun hcontra => ho (by injection hcontra)
        rcases List.mem_cons.1 hz with rfl | hz'
        · exact hle
        · exact h.trans x y z hx hy (hl z hz) hle (hys z hz')

/-- **The sort is stable**: an ordered permutation with the ties in their order. -/
theorem sortBy_spec (h : TotalPreorder cmp (· ∈ l)) :
    ∃ l', sortBy cmp l = .ok l' ∧ l'.Perm l ∧ Ordered cmp l' ∧ KeepsTies cmp l l' := by
  induction l with
  | nil => exact ⟨[], rfl, .refl _, List.Pairwise.nil, fun _ _ => rfl⟩
  | cons x xs ih =>
    obtain ⟨xs', hxs, hperm, hord, hties⟩ := ih (h.mono fun y hy => List.mem_cons_of_mem _ hy)
    obtain ⟨l', hl', hperm', hord', hties'⟩ := insertBy_spec h List.mem_cons_self
      (fun y hy => List.mem_cons_of_mem _ (hperm.subset hy)) hord
    refine ⟨l', ?_, hperm'.trans (hperm.cons x), hord', fun p hp => ?_⟩
    · rw [sortBy, hxs]
      exact hl'
    · have hmem : ∀ y ∈ x :: xs', y ∈ x :: xs := fun y hy => (hperm.cons x).subset hy
      rw [hties' p fun y hy z hz => hp y (hmem y hy) z (hmem z hz), List.filter_cons,
        hties p fun y hy z hz => hp y (by simp [hy]) z (by simp [hz]), List.filter_cons]

end Ccdb.StableSort
