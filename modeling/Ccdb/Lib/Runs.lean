import Mathlib.Logic.Basic

/-!
# Runs of a labelled system

A system is a step function that returns nothing where a label is not enabled.
`Follows step ok s ls` says that the labels can be taken one after the other
from `s` and that each step meets `ok` where it is taken; `after` is the state
they lead to.

Main results:

* `Follows.invariant` — what every admissible step keeps, every run keeps.
* `follows_append`, `Follows.after_append` — a run is cut at any point.
* `Follows.or_broken` — a run is admissible or breaks at some step.
-/

variable {σ ℓ : Type*}

/-- The state the labels lead to; a label that is not enabled ends the run. -/
def after (step : σ → ℓ → Option σ) : σ → List ℓ → σ
  | s, [] => s
  | s, l :: ls =>
    match step s l with
    | none => s
    | some s' => after step s' ls

/-- Every label is enabled, and admissible, where it is taken. -/
def Follows (step : σ → ℓ → Option σ) (ok : σ → ℓ → Prop) : σ → List ℓ → Prop
  | _, [] => True
  | s, l :: ls =>
    ok s l ∧
      match step s l with
      | none => False
      | some s' => Follows step ok s' ls

variable {step : σ → ℓ → Option σ} {ok ok' : σ → ℓ → Prop}

instance decidableFollows [∀ s l, Decidable (ok s l)] :
    ∀ (s : σ) (ls : List ℓ), Decidable (Follows step ok s ls)
  | _, [] => inferInstanceAs (Decidable True)
  | s, l :: ls =>
    have : Decidable (match step s l with
        | none => False
        | some s' => Follows step ok s' ls) :=
      match step s l with
      | none => inferInstanceAs (Decidable False)
      | some s' => decidableFollows s' ls
    inferInstanceAs (Decidable (_ ∧ _))

theorem follows_cons {s : σ} {l : ℓ} {ls : List ℓ} :
    Follows step ok s (l :: ls) ↔ ok s l ∧ ∃ s', step s l = some s' ∧ Follows step ok s' ls := by
  rw [Follows]
  refine and_congr_right fun _ => ?_
  cases step s l with
  | none => simp
  | some s' => simp

theorem after_cons {s s' : σ} {l : ℓ} {ls : List ℓ} (h : step s l = some s') :
    after step s (l :: ls) = after step s' ls := by
  simp [after, h]

/-- **The run rule.** -/
theorem Follows.invariant {I : σ → Prop} {s : σ} {ls : List ℓ} (h : Follows step ok s ls)
    (hstep : ∀ {s l s'}, I s → ok s l → step s l = some s' → I s') (h0 : I s) :
    I (after step s ls) := by
  induction ls generalizing s with
  | nil => exact h0
  | cons l ls ih =>
    obtain ⟨hok, s', hs, hrest⟩ := follows_cons.1 h
    rw [after_cons hs]
    exact ih hrest (hstep h0 hok hs)

theorem Follows.mono {s : σ} {ls : List ℓ} (h : Follows step ok s ls)
    (hle : ∀ s l, ok s l → ok' s l) : Follows step ok' s ls := by
  induction ls generalizing s with
  | nil => trivial
  | cons l ls ih =>
    obtain ⟨hok, s', hs, hrest⟩ := follows_cons.1 h
    exact follows_cons.2 ⟨hle s l hok, s', hs, ih hrest⟩

theorem follows_append {s : σ} {ls ms : List ℓ} :
    Follows step ok s (ls ++ ms) ↔
      Follows step ok s ls ∧ Follows step ok (after step s ls) ms := by
  induction ls generalizing s with
  | nil => simp [Follows, after]
  | cons l ls ih =>
    rw [List.cons_append, follows_cons, follows_cons]
    constructor
    · rintro ⟨hok, s', hs, hrest⟩
      rw [after_cons hs]
      obtain ⟨hls, hms⟩ := ih.1 hrest
      exact ⟨⟨hok, s', hs, hls⟩, hms⟩
    · rintro ⟨⟨hok, s', hs, hls⟩, hms⟩
      rw [after_cons hs] at hms
      exact ⟨hok, s', hs, ih.2 ⟨hls, hms⟩⟩

theorem Follows.after_append {s : σ} {ls ms : List ℓ} (h : Follows step ok s ls) :
    after step s (ls ++ ms) = after step (after step s ls) ms := by
  induction ls generalizing s with
  | nil => rfl
  | cons l ls ih =>
    obtain ⟨-, s', hs, hrest⟩ := follows_cons.1 h
    rw [List.cons_append, after_cons hs, after_cons hs]
    exact ih hrest

/-- **The exact condition.** `J` is what the proofs carry, `P` what is promised. When every
admissible step keeps `J` and a step that is not admissible breaks `P`, a run is
admissible exactly when `P` holds all along it. -/
theorem follows_iff_prefixes {J P : σ → Prop} {s : σ} {ls : List ℓ}
    (hrun : Follows step (fun _ _ => True) s ls) (h0 : J s) (hP : ∀ {s}, J s → P s)
    (hkeep : ∀ {s l s'}, J s → ok s l → step s l = some s' → J s')
    (hbreak : ∀ {s l s'}, J s → step s l = some s' → P s' → ok s l) :
    Follows step ok s ls ↔ ∀ ms, ms <+: ls → P (after step s ms) := by
  constructor
  · rintro hok ms ⟨rest, rfl⟩
    exact hP ((follows_append.1 hok).1.invariant hkeep h0)
  · intro hall
    induction ls generalizing s with
    | nil => trivial
    | cons l ls ih =>
      obtain ⟨-, s', hs, hrest⟩ := follows_cons.1 hrun
      have hhead : P s' := by
        have := hall [l] ⟨ls, rfl⟩
        rwa [after_cons hs] at this
      have hok := hbreak h0 hs hhead
      refine follows_cons.2 ⟨hok, s', hs, ih hrest (hkeep h0 hok hs) fun ms hms => ?_⟩
      have := hall (l :: ms) (List.cons_prefix_cons.2 ⟨rfl, hms⟩)
      rwa [after_cons hs] at this

/-- **The first step that is not admissible.** Admissible steps keep `J`, any other one
leads to `B`, and `B` stays. -/
theorem Follows.or_broken {J B : σ → Prop} {s : σ} {ls : List ℓ}
    (hrun : Follows step (fun _ _ => True) s ls) (h0 : J s)
    (hkeep : ∀ {s l s'}, J s → ok s l → step s l = some s' → J s')
    (hbreak : ∀ {s l s'}, J s → ¬ ok s l → step s l = some s' → B s')
    (hstay : ∀ {s l s'}, B s → step s l = some s' → B s') :
    (Follows step ok s ls ∧ J (after step s ls)) ∨ B (after step s ls) := by
  induction ls generalizing s with
  | nil => exact Or.inl ⟨trivial, h0⟩
  | cons l ls ih =>
    obtain ⟨-, s', hs, hrest⟩ := follows_cons.1 hrun
    rw [after_cons hs]
    by_cases hok : ok s l
    · rcases ih hrest (hkeep h0 hok hs) with ⟨hls, hJ⟩ | hB
      · exact Or.inl ⟨follows_cons.2 ⟨hok, s', hs, hls⟩, hJ⟩
      · exact Or.inr hB
    · exact Or.inr (hrest.invariant (fun hB _ hstep => hstay hB hstep) (hbreak h0 hok hs))
