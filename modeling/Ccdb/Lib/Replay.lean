import Mathlib.Data.List.Basic
import Mathlib.Logic.Function.Basic

/-!
# Replaying a log over independently aged pages

A log record touches one page and carries a stamp; a page remembers the stamp of
the last record applied to it. Replay skips a record whose stamp the page has
reached. `Gated` states this of the function that redoes one record on one page.

A store is `Behind` a log when each of its pages is as old as some moment of the
first replay, a different one for each page.

Main results:

* `replay_behind` — replay brings a store that is behind to where the first
  replay ended.
-/

variable {P R E : Type}

/-- Redo one record on its page of the store. -/
def replayOne (page : R → Nat) (redo : R → EStateM E P Bool) (r : R) :
    EStateM E (Nat → P) Bool := fun st =>
  match redo r (st (page r)) with
  | .ok b p => .ok b (Function.update st (page r) p)
  | .error e p => .error e (Function.update st (page r) p)

/-- Redo the records in order and count those that were applied. -/
def replay (page : R → Nat) (redo : R → EStateM E P Bool) : List R → EStateM E (Nat → P) Nat
  | [] => fun st => .ok 0 st
  | r :: rest => fun st =>
    match replayOne page redo r st with
    | .error e st' => .error e st'
    | .ok applied st' =>
      match replay page redo rest st' with
      | .error e st'' => .error e st''
      | .ok n st'' => .ok (if applied then n + 1 else n) st''

/-- The stamp gate: a page that has reached the stamp is left alone, and a page
that a record was applied to has reached exactly its stamp. -/
structure Gated (stamp : R → Nat) (reached : P → Nat) (redo : R → EStateM E P Bool) : Prop where
  skip : ∀ {r p}, stamp r ≤ reached p → redo r p = .ok false p
  applied : ∀ {r p p'}, redo r p = .ok true p' → reached p < stamp r ∧ reached p' = stamp r

variable {page : R → Nat} {stamp : R → Nat} {reached : P → Nat} {redo : R → EStateM E P Bool}
  {r : R} {rs : List R} {base mid final st : Nat → P}

theorem replay_count_le {n : Nat} (h : replay page redo rs st = .ok n mid) : n ≤ rs.length := by
  induction rs generalizing st n mid with
  | nil =>
    cases h
    exact Nat.le_refl _
  | cons r rs ih =>
    unfold replay at h
    split at h
    · cases h
    · split at h
      · cases h
      · next m st'' hrest =>
        have := ih hrest
        cases h
        rw [List.length_cons]
        split <;> omega

/-- When every record is applied, the first is and then all the others are. -/
theorem replay_all (h : replay page redo (r :: rs) base = .ok (rs.length + 1) final) :
    ∃ p', redo r (base (page r)) = .ok true p' ∧
      replay page redo rs (Function.update base (page r) p') = .ok rs.length final := by
  unfold replay at h
  split at h
  · cases h
  · next applied st' hone =>
    unfold replayOne at hone
    split at hone
    · next b p' hredo =>
      cases hone
      split at h
      · cases h
      · next n st'' hrest =>
        have hn := replay_count_le hrest
        cases applied with
        | false =>
          simp only [Bool.false_eq_true, if_false, EStateM.Result.ok.injEq] at h
          omega
        | true =>
          simp only [if_true, EStateM.Result.ok.injEq] at h
          obtain ⟨hlen, rfl⟩ := h
          have hlen : n = rs.length := by omega
          exact ⟨p', hredo, hlen ▸ hrest⟩
    · cases hone

theorem replay_cons_of {b : Bool} {p' : P} {n : Nat} (h : redo r (st (page r)) = .ok b p')
    (hrest : replay page redo rs (Function.update st (page r) p') = .ok n final) :
    replay page redo (r :: rs) st = .ok (if b then n + 1 else n) final := by
  simp only [replay, replayOne, h, hrest]

section Gate

variable (hgate : Gated stamp reached redo)

include hgate

/-- Pages only grow older. -/
theorem reached_le_of_replay_all (h : replay page redo rs base = .ok rs.length final) (p : Nat) :
    reached (base p) ≤ reached (final p) := by
  induction rs generalizing base with
  | nil =>
    cases h
    exact Nat.le_refl _
  | cons r rs ih =>
    obtain ⟨p', hredo, hrest⟩ := replay_all h
    have hrest := ih hrest
    obtain ⟨hlt, heq⟩ := hgate.applied hredo
    by_cases hp : p = page r
    · subst hp
      rw [Function.update_self] at hrest
      omega
    · rwa [Function.update_of_ne hp] at hrest

/-- Where a replay that applies every record ends, every stamp is reached. -/
theorem stamp_le_of_replay_all (h : replay page redo rs base = .ok rs.length final) :
    ∀ r ∈ rs, stamp r ≤ reached (final (page r)) := by
  induction rs generalizing base with
  | nil => exact fun _ h => absurd h List.not_mem_nil
  | cons r rs ih =>
    obtain ⟨p', hredo, hrest⟩ := replay_all h
    intro r' hr'
    rcases List.mem_cons.1 hr' with rfl | hr'
    · have hle := reached_le_of_replay_all hgate hrest (page r')
      rw [Function.update_self, (hgate.applied hredo).2] at hle
      exact hle
    · exact ih hrest r' hr'

end Gate

/-- Each page of `st` is what it was at some moment of the replay from `base`. -/
def Behind (page : R → Nat) (redo : R → EStateM E P Bool) (rs : List R) (base st : Nat → P) :
    Prop :=
  ∀ p, ∃ k mid, replay page redo (rs.take k) base = .ok (rs.take k).length mid ∧ st p = mid p

/-- **Replay converges**, whatever the age of each page. -/
theorem replay_behind (hgate : Gated stamp reached redo)
    (hbase : replay page redo rs base = .ok rs.length final) (hst : Behind page redo rs base st) :
    ∃ n, replay page redo rs st = .ok n final := by
  induction rs generalizing base st with
  | nil =>
    -- no record left: every page is that of `base`
    cases hbase
    have : st = final := by
      funext p
      obtain ⟨k, mid, hmid, hp⟩ := hst p
      rw [List.take_nil] at hmid
      cases hmid
      exact hp
    exact ⟨0, by rw [this]; rfl⟩
  | cons r rs ih =>
    obtain ⟨p', hredo, hrest⟩ := replay_all hbase
    -- a page other than the record's is as old with respect to the rest
    have hother : ∀ p, p ≠ page r → ∃ k mid,
        replay page redo (rs.take k) (Function.update base (page r) p') =
          .ok (rs.take k).length mid ∧ st p = mid p := by
      intro p hp
      obtain ⟨k, mid, hmid, heq⟩ := hst p
      cases k with
      | zero =>
        cases hmid
        exact ⟨0, _, rfl, by rw [heq, Function.update_of_ne hp]⟩
      | succ k =>
        rw [List.take_succ_cons] at hmid
        obtain ⟨p'', hredo', hmid⟩ := replay_all hmid
        rw [hredo] at hredo'
        cases hredo'
        exact ⟨k, mid, hmid, heq⟩
    obtain ⟨k, mid, hmid, heq⟩ := hst (page r)
    cases k with
    | zero =>
      -- the record was not applied before the crash: it is now
      cases hmid
      have hnow : redo r (st (page r)) = .ok true p' := by rw [heq]; exact hredo
      have hbehind : Behind page redo rs (Function.update base (page r) p')
          (Function.update st (page r) p') := by
        intro p
        by_cases hp : p = page r
        · subst hp
          exact ⟨0, _, rfl, by rw [Function.update_self, Function.update_self]⟩
        · rw [Function.update_of_ne hp]
          exact hother p hp
      obtain ⟨n, hn⟩ := ih hrest hbehind
      exact ⟨n + 1, replay_cons_of (b := true) hnow hn⟩
    | succ k =>
      -- it was: the page has reached its stamp
      rw [List.take_succ_cons] at hmid
      obtain ⟨p'', hredo', hmid⟩ := replay_all hmid
      rw [hredo] at hredo'
      cases hredo'
      have hle := reached_le_of_replay_all hgate hmid (page r)
      rw [Function.update_self, (hgate.applied hredo).2, ← heq] at hle
      have hbehind : Behind page redo rs (Function.update base (page r) p') st := by
        intro p
        by_cases hp : p = page r
        · subst hp
          exact ⟨k, mid, hmid, heq⟩
        · exact hother p hp
      obtain ⟨n, hn⟩ := ih hrest hbehind
      refine ⟨n, replay_cons_of (b := false) (hgate.skip hle) ?_⟩
      rw [Function.update_eq_self]
      exact hn
