import Mathlib.Data.Finset.Card
import Mathlib.Logic.Relation

/-!
# Acyclic relations

A relation is acyclic when no node leads back to itself. `height` counts the
nodes of a finite set that a node leads to; it goes down along every edge into
the set, so a recursion that follows the edges is at most that deep.

Main results:

* `Acyclic.through` — when all the new edges touch one node, a new cycle goes
  through that node.
* `Acyclic.height_lt` — the height goes down along an edge.
-/

open Relation

variable {α : Type*} {r r' : α → α → Prop} {x y n : α}

/-- No node leads back to itself. -/
def Acyclic (r : α → α → Prop) : Prop := ∀ x, ¬ TransGen r x x

namespace Acyclic

theorem mono (h : Acyclic r) (hsub : ∀ x y, r' x y → r x y) : Acyclic r' :=
  fun x hx => h x (TransGen.mono hsub x x hx)

/-- What every edge increases shows that there is no cycle. -/
theorem of_rank (rank : α → Nat) (h : ∀ x y, r x y → rank x < rank y) : Acyclic r := by
  have hpath : ∀ x y, TransGen r x y → rank x < rank y := by
    intro x y hxy
    induction hxy with
    | single hxy => exact h _ _ hxy
    | tail _ hyz ih => exact Nat.lt_trans ih (h _ _ hyz)
  exact fun x hx => Nat.lt_irrefl _ (hpath x x hx)

end Acyclic

/-! ## Edges at one node -/

/-- A path of old edges, or one through `n`. -/
theorem transGen_or_through (hnew : ∀ x y, r' x y → r x y ∨ x = n ∨ y = n) (h : TransGen r' x y) :
    TransGen r x y ∨ ReflTransGen r' x n ∧ ReflTransGen r' n y := by
  induction h with
  | single hxy =>
    rcases hnew _ _ hxy with hold | rfl | rfl
    · exact Or.inl (.single hold)
    · exact Or.inr ⟨.refl, .single hxy⟩
    · exact Or.inr ⟨.single hxy, .refl⟩
  | tail hxy hyz ih =>
    rcases ih with hpath | ⟨hin, hout⟩
    · rcases hnew _ _ hyz with hold | rfl | rfl
      · exact Or.inl (hpath.tail hold)
      · exact Or.inr ⟨hxy.to_reflTransGen, .single hyz⟩
      · exact Or.inr ⟨(hxy.tail hyz).to_reflTransGen, .refl⟩
    · exact Or.inr ⟨hin, hout.tail hyz⟩

/-- **A new cycle goes through the node** that all the new edges touch. -/
theorem Acyclic.through (h : Acyclic r) (hnew : ∀ x y, r' x y → r x y ∨ x = n ∨ y = n)
    (hn : ¬ TransGen r' n n) : Acyclic r' := by
  intro x hx
  rcases transGen_or_through hnew hx with hold | ⟨hin, hout⟩
  · exact h x hold
  · exact hn ((TransGen.trans_right hout hx).trans_left hin)

/-! ## Height -/

section Height

open Classical

/-- How many nodes of `s` the node leads to. -/
noncomputable def height (r : α → α → Prop) (s : Finset α) (x : α) : Nat :=
  (s.filter fun y => TransGen r x y).card

theorem height_le (r : α → α → Prop) (s : Finset α) (x : α) : height r s x ≤ s.card :=
  Finset.card_filter_le _ _

/-- **The height goes down** along an edge into the set. -/
theorem Acyclic.height_lt (h : Acyclic r) {s : Finset α} (hxy : r x y) (hy : y ∈ s) :
    height r s y < height r s x := by
  refine Finset.card_lt_card (Finset.ssubset_iff_of_subset (fun z hz => ?_) |>.2 ⟨y, ?_, fun hin => ?_⟩)
  · obtain ⟨hz, hyz⟩ := Finset.mem_filter.1 hz
    exact Finset.mem_filter.2 ⟨hz, TransGen.head hxy hyz⟩
  · exact Finset.mem_filter.2 ⟨hy, .single hxy⟩
  · exact h y (Finset.mem_filter.1 hin).2

end Height
