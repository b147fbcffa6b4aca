import Mathlib.Logic.Function.Basic
import Mathlib.Data.Nat.Basic

/-!
# Ccdb — the clock sweep

The Clock replacement rule over `cap` slots: an arm goes round, passes over pinned
slots, clears the reference bit of the others and stops at the first unpinned slot
whose bit was clear already. One round clears every bit it meets, so two rounds are
enough.

Main results:

* `sweep_some` — a slot that is returned is one of the `cap` and not pinned.
* `sweep_ref` — the only bits that change are those of unpinned slots, and they are
  cleared.
* `sweep_two_rounds` — two rounds that find nothing mean every slot is pinned.
-/

namespace Ccdb.ClockSweep

/-- `n` steps of the arm: the slot found, the arm and the reference bits after it. -/
def sweep (cap : Nat) (pinned : Nat → Bool) :
    Nat → Nat → (Nat → Bool) → Option Nat × Nat × (Nat → Bool)
  | 0, arm, ref => (none, arm, ref)
  | n + 1, arm, ref =>
    if pinned arm then sweep cap pinned n ((arm + 1) % cap) ref
    else if ref arm then
      sweep cap pinned n ((arm + 1) % cap) (Function.update ref arm false)
    else (some arm, (arm + 1) % cap, ref)

variable {cap : Nat} {pinned : Nat → Bool}

theorem sweep_succ (n arm : Nat) (ref : Nat → Bool) : sweep cap pinned (n + 1) arm ref =
    if pinned arm then sweep cap pinned n ((arm + 1) % cap) ref
    else if ref arm then sweep cap pinned n ((arm + 1) % cap) (Function.update ref arm false)
    else (some arm, (arm + 1) % cap, ref) := rfl

theorem sweep_arm (hcap : 0 < cap) : ∀ (n arm : Nat) (ref : Nat → Bool), arm < cap →
    (sweep cap pinned n arm ref).2.1 < cap
  | 0, _, _, h => h
  | n + 1, arm, ref, _ => by
    have hnext := Nat.mod_lt (arm + 1) hcap
    rw [sweep_succ]
    split
    · exact sweep_arm hcap n _ _ hnext
    · split
      · exact sweep_arm hcap n _ _ hnext
      · exact hnext

theorem sweep_some (hcap : 0 < cap) : ∀ (n arm : Nat) (ref : Nat → Bool) {fid : Nat}, arm < cap →
    (sweep cap pinned n arm ref).1 = some fid → fid < cap ∧ pinned fid = false
  | 0, _, _, _, _, h => by cases h
  | n + 1, arm, ref, fid, harm, h => by
    have hnext := Nat.mod_lt (arm + 1) hcap
    rw [sweep_succ] at h
    split at h
    · exact sweep_some hcap n _ _ hnext h
    · rename_i hpin
      split at h
      · exact sweep_some hcap n _ _ hnext h
      · cases h
        exact ⟨harm, by simpa using hpin⟩

/-- Bits are cleared, never set. -/
theorem sweep_ref_le : ∀ (n arm : Nat) (ref : Nat → Bool) (i : Nat),
    ref i = false → (sweep cap pinned n arm ref).2.2 i = false
  | 0, _, _, _, h => h
  | n + 1, arm, ref, i, h => by
    rw [sweep_succ]
    split
    · exact sweep_ref_le n _ _ i h
    · split
      · refine sweep_ref_le n _ _ i ?_
        by_cases hi : i = arm
        · rw [hi, Function.update_self]
        · rwa [Function.update_of_ne hi]
      · exact h

/-- A bit that changes was set, and belongs to an unpinned slot. -/
theorem sweep_ref (hcap : 0 < cap) : ∀ (n arm : Nat) (ref : Nat → Bool) (i : Nat), arm < cap →
    (sweep cap pinned n arm ref).2.2 i = ref i ∨
      i < cap ∧ pinned i = false ∧ ref i = true ∧ (sweep cap pinned n arm ref).2.2 i = false
  | 0, _, _, _, _ => Or.inl rfl
  | n + 1, arm, ref, i, harm => by
    have hnext := Nat.mod_lt (arm + 1) hcap
    rw [sweep_succ]
    split
    · exact sweep_ref hcap n _ ref i hnext
    · rename_i hpin
      split
      · rename_i href
        have hup := @sweep_ref_le cap pinned n ((arm + 1) % cap)
          (Function.update ref arm false) i
        by_cases hi : i = arm
        · subst hi
          exact Or.inr ⟨harm, by simpa using hpin, href, hup (Function.update_self i false ref)⟩
        · have ih := sweep_ref hcap n ((arm + 1) % cap) (Function.update ref arm false) i hnext
          rwa [Function.update_of_ne hi] at ih
      · exact Or.inl rfl

/-- The slot `k` steps ahead of the arm, once it has been passed without a find: if it is
not pinned its bit was set, and is clear now. -/
theorem sweep_passed (hcap : 0 < cap) : ∀ (n arm : Nat) (ref : Nat → Bool) (k : Nat), k < n →
    arm < cap → (sweep cap pinned n arm ref).1 = none → pinned ((arm + k) % cap) = false →
    k < cap → ref ((arm + k) % cap) = true ∧
      (sweep cap pinned n arm ref).2.2 ((arm + k) % cap) = false
  | 0, _, _, _, hk, _, _, _, _ => absurd hk (by omega)
  | n + 1, arm, ref, k, hk, harm, hnone, hpin, hkc => by
    have hnext := Nat.mod_lt (arm + 1) hcap
    cases k with
    | zero =>
      rw [Nat.add_zero, Nat.mod_eq_of_lt harm] at hpin ⊢
      rw [sweep_succ, if_neg (by simp [hpin])] at hnone ⊢
      split at hnone
      · rename_i href
        rw [if_pos href]
        exact ⟨href, sweep_ref_le n _ _ arm (Function.update_self arm false ref)⟩
      · cases hnone
    | succ k =>
      have hmod : ((arm + 1) % cap + k) % cap = (arm + (k + 1)) % cap := by
        rw [Nat.mod_add_mod, Nat.add_assoc, Nat.add_comm 1]
      have hne : (arm + (k + 1)) % cap ≠ arm := by
        intro h
        have hlt : arm + (k + 1) < 2 * cap := by omega
        by_cases hsmall : arm + (k + 1) < cap
        · rw [Nat.mod_eq_of_lt hsmall] at h
          omega
        · rw [Nat.mod_eq_sub_mod (by omega), Nat.mod_eq_of_lt (by omega)] at h
          omega
      rw [sweep_succ] at hnone ⊢
      by_cases hp : pinned arm = true
      · rw [if_pos hp] at hnone ⊢
        have ih := sweep_passed hcap n _ ref k (by omega) hnext hnone (by rwa [hmod]) (by omega)
        rwa [hmod] at ih
      · rw [if_neg hp] at hnone ⊢
        by_cases href : ref arm = true
        · rw [if_pos href] at hnone ⊢
          have ih := sweep_passed hcap n _ (Function.update ref arm false) k (by omega) hnext hnone
            (by rwa [hmod]) (by omega)
          rwa [hmod, Function.update_of_ne hne] at ih
        · rw [if_neg href] at hnone
          cases hnone

theorem sweep_add : ∀ (a b arm : Nat) (ref : Nat → Bool),
    (sweep cap pinned (a + b) arm ref).1 = none →
    (sweep cap pinned a arm ref).1 = none ∧
      (sweep cap pinned b (sweep cap pinned a arm ref).2.1 (sweep cap pinned a arm ref).2.2).1 =
        none
  | 0, b, arm, ref, h => ⟨rfl, by rwa [Nat.zero_add] at h⟩
  | a + 1, b, arm, ref, h => by
    rw [Nat.add_right_comm, sweep_succ] at h
    rw [sweep_succ]
    split at h
    · rename_i hp
      rw [if_pos hp]
      exact sweep_add a b _ _ h
    · rename_i hp
      rw [if_neg hp]
      split at h
      · rename_i href
        rw [if_pos href]
        exact sweep_add a b _ _ h
      · cases h

/-- Two rounds without a find: every slot is pinned. -/
theorem sweep_two_rounds {arm : Nat} {ref : Nat → Bool} (harm : arm < cap)
    (h : (sweep cap pinned (cap * 2) arm ref).1 = none) {fid : Nat} (hfid : fid < cap) :
    pinned fid = true := by
  have hcap : 0 < cap := by omega
  by_contra hpin
  have hfree : pinned fid = false := by simpa using hpin
  rw [Nat.mul_two] at h
  obtain ⟨h₁, h₂⟩ := sweep_add cap cap arm ref h
  -- the first round clears the bit of `fid`, the second one would stop there
  have hreach : ∀ a, a < cap → ∃ k, k < cap ∧ (a + k) % cap = fid := by
    intro a ha
    by_cases hle : a ≤ fid
    · exact ⟨fid - a, by omega, by rw [Nat.add_sub_cancel' hle, Nat.mod_eq_of_lt hfid]⟩
    · refine ⟨fid + cap - a, by omega, ?_⟩
      rw [Nat.add_sub_cancel' (by omega), Nat.add_mod_right, Nat.mod_eq_of_lt hfid]
  obtain ⟨k, hk, hkfid⟩ := hreach arm harm
  obtain ⟨_, hclear⟩ := sweep_passed hcap cap arm ref k hk harm h₁ (by rw [hkfid]; exact hfree) hk
  rw [hkfid] at hclear
  have harm' := @sweep_arm cap pinned hcap cap arm ref harm
  obtain ⟨j, hj, hjfid⟩ := hreach _ harm'
  obtain ⟨hset, _⟩ := sweep_passed hcap cap _ _ j hj harm' h₂ (by rw [hjfid]; exact hfree) hj
  rw [hjfid, hclear] at hset
  cases hset

end Ccdb.ClockSweep
