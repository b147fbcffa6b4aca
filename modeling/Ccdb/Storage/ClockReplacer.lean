import Ccdb.Storage.FramePool

/-!
# Ccdb — the clock replacer

`ClockReplacer::victim` over a shard of `cap` frames, with its arm at any of them
and any pins and reference bits. The sweep of two rounds is `ClockSweep.sweep`.

Main results:

* `victim_correct` — the victim is an unpinned frame, there is one unless every
  frame is pinned, the bits that change are bits of unpinned frames, and the arm
  stays in range.
-/

namespace Ccdb.FramePool

variable {α : Type} {cap : Nat} {sh : Shard α}

theorem victim_arm (harm : sh.arm < cap) : (victim cap sh).2.arm < cap :=
  ClockSweep.sweep_arm (Nat.zero_lt_of_lt harm) (cap * 2) sh.arm _ harm

theorem victim_some (harm : sh.arm < cap) {fid : Nat} (h : (victim cap sh).1 = some fid) :
    fid < cap ∧ (sh.frames fid).pinCount = 0 := by
  obtain ⟨hlt, hpin⟩ := ClockSweep.sweep_some (Nat.zero_lt_of_lt harm) _ _ _ harm h
  have hnot : ¬ 0 < (sh.frames fid).pinCount := by simpa using hpin
  exact ⟨hlt, Nat.eq_zero_of_not_pos hnot⟩

theorem victim_none (harm : sh.arm < cap) (h : (victim cap sh).1 = none) {fid : Nat}
    (hfid : fid < cap) : 0 < (sh.frames fid).pinCount := by
  simpa using ClockSweep.sweep_two_rounds harm h hfid

theorem victim_eq_none_iff (harm : sh.arm < cap) :
    (victim cap sh).1 = none ↔ ∀ fid, fid < cap → 0 < (sh.frames fid).pinCount := by
  constructor
  · intro h fid hfid
    exact victim_none harm h hfid
  · intro hall
    cases hv : (victim cap sh).1 with
    | none => rfl
    | some fid =>
      obtain ⟨hlt, hpin⟩ := victim_some harm hv
      have hpos := hall fid hlt
      omega

/-- A frame is left as it was, or it is unpinned and loses its reference bit. -/
theorem victim_frames (harm : sh.arm < cap) (fid : Nat) :
    (victim cap sh).2.frames fid = sh.frames fid ∨
      fid < cap ∧ (sh.frames fid).pinCount = 0 ∧
        (victim cap sh).2.frames fid = { sh.frames fid with referenced := false } := by
  set pinned := fun i => decide (0 < (sh.frames i).pinCount) with hpinned
  set bits := fun i => (sh.frames i).referenced with hbits
  have hframe : (victim cap sh).2.frames fid =
      { sh.frames fid with
        referenced := (ClockSweep.sweep cap pinned (cap * 2) sh.arm bits).2.2 fid } := rfl
  rw [hframe]
  rcases ClockSweep.sweep_ref (Nat.zero_lt_of_lt harm) (cap * 2) sh.arm bits fid harm with
    hsame | ⟨hlt, hpin, -, hclear⟩
  · exact Or.inl (by rw [hsame])
  · have hnot : ¬ 0 < (sh.frames fid).pinCount := by simpa [hpinned] using hpin
    exact Or.inr ⟨hlt, Nat.eq_zero_of_not_pos hnot, by rw [hclear]⟩

/-- **The clock finds a victim**: some unpinned frame if there is one, none exactly when all
are pinned; reference bits are cleared, and of unpinned frames only; the arm stays in
range. -/
theorem victim_correct (cap : Nat) (sh : Shard α) (harm : sh.arm < cap) :
    (∀ fid, (victim cap sh).1 = some fid → fid < cap ∧ (sh.frames fid).pinCount = 0) ∧
    ((∃ fid, fid < cap ∧ (sh.frames fid).pinCount = 0) → ∃ fid, (victim cap sh).1 = some fid) ∧
    ((victim cap sh).1 = none ↔ ∀ fid, fid < cap → 0 < (sh.frames fid).pinCount) ∧
    (∀ fid, (victim cap sh).2.frames fid = sh.frames fid ∨
      fid < cap ∧ (sh.frames fid).pinCount = 0 ∧
        (victim cap sh).2.frames fid = { sh.frames fid with referenced := false }) ∧
    (victim cap sh).2.arm < cap := by
  refine ⟨fun fid => victim_some harm, ?_, victim_eq_none_iff harm, victim_frames harm,
    victim_arm harm⟩
  rintro ⟨fid, hlt, hpin⟩
  cases hv : (victim cap sh).1 with
  | some found => exact ⟨found, rfl⟩
  | none =>
    have hpos := victim_none harm hv hlt
    omega

/-- Three frames, the arm at the last: frame 0 is pinned, the others were used. -/
def threeFrames : Shard Unit where
  frames i := ⟨(), some i, if i = 0 then 1 else 0, false, true⟩
  pageTable _ := none
  arm := 2
  dpt _ := none
  freeList := []
  freeFrames := []

/-- The second round stops at the frame whose bit went first. -/
theorem victim_correct_second_round :
    (victim 3 threeFrames).1 = some 2 ∧
      (∀ fid, (victim 3 threeFrames).1 = some fid →
        fid < 3 ∧ (threeFrames.frames fid).pinCount = 0) ∧
      (victim 3 threeFrames).2.arm < 3 := by
  obtain ⟨hsome, -, -, -, harm⟩ := victim_correct 3 threeFrames (by decide)
  exact ⟨by decide, hsome, harm⟩

end Ccdb.FramePool
