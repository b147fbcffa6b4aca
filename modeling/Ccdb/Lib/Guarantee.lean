import Mathlib

/-!
# Guarantees of stateful computations

A computation with state and errors keeps what it has done when it fails.
`Guar S P x Q` says: started in a state with `P`, the computation `x` changes
its state by `S`-steps only, whether it returns or fails, and where it returns,
its result and final state satisfy `Q`. Invariants of `S` are then invariants
of every program that has a guarantee for `S`.
-/

open Relation

variable {ε σ τ α β : Type} {x : EStateM ε σ α} {f : α → EStateM ε σ β}

/-- The state a computation ends in. -/
def EStateM.Result.final : EStateM.Result ε σ α → σ
  | .ok _ s => s
  | .error _ s => s

@[simp] theorem EStateM.Result.final_ok (a : α) (s : σ) :
    (EStateM.Result.ok a s : EStateM.Result ε σ α).final = s := rfl

@[simp] theorem EStateM.Result.final_error (e : ε) (s : σ) :
    (EStateM.Result.error e s : EStateM.Result ε σ α).final = s := rfl

/-- The answer of a computation that did not fail. -/
def EStateM.Result.answer : EStateM.Result ε σ α → Option α
  | .ok a _ => some a
  | .error _ _ => none

theorem EStateM.bind_of_ok {s s' : σ} {a : α} (h : x s = .ok a s') : (x >>= f) s = f a s' := by
  simp [Bind.bind, EStateM.bind, h]

theorem EStateM.bind_of_error {s s' : σ} {e : ε}
    (h : x s = .error e s') : (x >>= f) s = .error e s' := by
  simp [Bind.bind, EStateM.bind, h]

/-- The first round of a loop. -/
theorem EStateM.forM_of_ok {f : β → EStateM ε σ PUnit} {b : β} {l : List β} {s s' : σ}
    (h : f b s = .ok ⟨⟩ s') : (b :: l).forM f s = l.forM f s' := by
  show (f b >>= fun _ => l.forM f) s = _
  rw [EStateM.bind_of_ok h]

/-- A sequence that succeeds, taken apart. -/
theorem EStateM.of_bind_ok {s s' : σ} {b : β}
    (h : (x >>= f) s = .ok b s') : ∃ a s₁, x s = .ok a s₁ ∧ f a s₁ = .ok b s' := by
  cases hx : x s with
  | ok a s₁ => exact ⟨a, s₁, rfl, by rw [← h, EStateM.bind_of_ok hx]⟩
  | error e s₁ => rw [EStateM.bind_of_error hx] at h; cases h

/-- An invariant of the steps is one of the runs. -/
theorem Relation.ReflTransGen.invariant {S : σ → σ → Prop} {I : σ → Prop}
    (hI : ∀ s s', S s s' → I s → I s') {s s' : σ} (h : ReflTransGen S s s') (hs : I s) : I s' := by
  induction h with
  | refl => exact hs
  | tail _ hstep ih => exact hI _ _ hstep ih

/-- `x` moves along `S`, and from `P` its result satisfies `Q`. -/
def Guar (S : σ → σ → Prop) (P : σ → Prop) (x : EStateM ε σ α) (Q : α → σ → Prop) : Prop :=
  ∀ s, P s → ReflTransGen S s (x s).final ∧ ∀ a s', x s = .ok a s' → Q a s'

namespace Guar

variable {S S' : σ → σ → Prop} {P P' : σ → Prop} {Q Q' : α → σ → Prop}

theorem steps (h : Guar S P x Q) {s : σ} (hs : P s) :
    ReflTransGen S s (x s).final := (h s hs).1

theorem result (h : Guar S P x Q) {s s' : σ} {a : α} (hs : P s)
    (hx : x s = .ok a s') : Q a s' := (h s hs).2 a s' hx

theorem weaken (h : Guar S P x Q) (hP : ∀ s, P' s → P s)
    (hQ : ∀ a s, Q a s → Q' a s) : Guar S P' x Q' := fun s hs =>
  ⟨(h s (hP s hs)).1, fun a s' hx => hQ a s' ((h s (hP s hs)).2 a s' hx)⟩

theorem pre (h : Guar S P x Q) (hP : ∀ s, P' s → P s) : Guar S P' x Q :=
  h.weaken hP fun _ _ => id

theorem post (h : Guar S P x Q) (hQ : ∀ a s, Q a s → Q' a s) : Guar S P x Q' :=
  h.weaken (fun _ => id) hQ

theorem mono (h : Guar S P x Q) (hS : ∀ s s', S s s' → S' s s') :
    Guar S' P x Q := fun s hs =>
  ⟨ReflTransGen.mono hS _ _ (h s hs).1, (h s hs).2⟩

/-- A computation that fails to change anything or makes one step. -/
theorem ofStep (hstep : ∀ s, P s → (x s).final = s ∨ S s (x s).final)
    (hres : ∀ s a s', P s → x s = .ok a s' → Q a s') : Guar S P x Q := fun s hs => by
  refine ⟨?_, fun a s' hx => hres s a s' hs hx⟩
  rcases hstep s hs with heq | h
  · rw [heq]
  · exact ReflTransGen.single h

/-- A computation that reads only. -/
theorem ofRead (hread : ∀ s, P s → (x s).final = s)
    (hres : ∀ s a, P s → x s = .ok a s → Q a s) : Guar S P x Q := fun s hs => by
  refine ⟨by rw [hread s hs], fun a s' hx => ?_⟩
  have hs' : s' = s := by simpa [hx] using hread s hs
  subst hs'
  exact hres s' a hs hx

theorem pure {a : α} (h : ∀ s, P s → Q a s) : Guar S P (Pure.pure a : EStateM ε σ α) Q :=
  ofRead (fun _ _ => rfl) fun s b hs hb => by
    have hb : a = b := by
      simpa [Pure.pure, EStateM.pure] using hb
    exact hb ▸ h s hs

/-- Returning keeps what is known. -/
theorem ret {a : α} : Guar S P (Pure.pure a : EStateM ε σ α) fun _ => P := pure fun _ h => h

theorem throw {e : ε} : Guar S P (throw e : EStateM ε σ α) Q :=
  ofRead (fun _ _ => rfl) fun _ _ _ h => by cases h

theorem get : Guar S P (MonadState.get : EStateM ε σ σ) fun a s => a = s ∧ P s :=
  ofRead (fun _ _ => rfl) fun s a hs h => by
    have h : s = a := by
      simpa [MonadState.get, getThe, MonadStateOf.get, EStateM.get] using h
    exact ⟨h.symm, hs⟩

theorem bind {R : β → σ → Prop}
    (hx : Guar S P x Q) (hf : ∀ a, Guar S (Q a) (f a) R) : Guar S P (x >>= f) R := by
  intro s hs
  obtain ⟨hsteps, hres⟩ := hx s hs
  show ReflTransGen S s (EStateM.bind x f s).final ∧ ∀ b s', EStateM.bind x f s = .ok b s' → R b s'
  unfold EStateM.bind
  cases hrun : x s with
  | ok a s₁ =>
    rw [hrun] at hsteps
    obtain ⟨hsteps', hres'⟩ := hf a s₁ (hres a s₁ hrun)
    exact ⟨hsteps.trans hsteps', hres'⟩
  | error e s₁ =>
    rw [hrun] at hsteps
    exact ⟨hsteps, fun b s' h => by cases h⟩

theorem ite {c : Prop} [Decidable c] {x y : EStateM ε σ α} (hx : c → Guar S P x Q)
    (hy : ¬ c → Guar S P y Q) : Guar S P (if c then x else y) Q := by
  split
  · next h => exact hx h
  · next h => exact hy h

/-- A loop over a list: `P` is its invariant. -/
theorem forM {f : β → EStateM ε σ PUnit} : ∀ {l : List β},
    (∀ b ∈ l, Guar S P (f b) fun _ => P) → Guar S P (l.forM f) fun _ => P
  | [], _ => pure fun _ h => h
  | b :: l, hf => by
    show Guar S P (f b >>= fun _ => l.forM f) fun _ => P
    exact (hf b List.mem_cons_self).bind fun _ => forM fun c hc => hf c (List.mem_cons_of_mem _ hc)

/-- What every step preserves holds in between and at the end. -/
theorem frame {I : σ → Prop} (h : Guar S P x Q)
    (hI : ∀ s s', S s s' → I s → I s') : Guar S (fun s => P s ∧ I s) x fun a s => Q a s ∧ I s := by
  rintro s ⟨hs, hi⟩
  obtain ⟨hsteps, hres⟩ := h s hs
  refine ⟨hsteps, fun a s' hx => ⟨hres a s' hx, ?_⟩⟩
  rw [hx] at hsteps
  exact hsteps.invariant hI hi

/-- A computation between steps that keep an invariant. -/
theorem within {I : σ → Prop} (h : Guar S P x Q)
    (hI : ∀ s s', S s s' → I s → I s') (hP : ∀ s, I s → P s) : Guar S I x fun _ => I :=
  (h.frame hI).weaken (fun s hs => ⟨hP s hs, hs⟩) fun _ _ => And.right

end Guar

/-- Every round of the loop starts in a state that is `ok` for it. -/
def Along (ok : σ → β → Prop) (f : β → EStateM ε σ PUnit) : σ → List β → Prop
  | _, [] => True
  | s, b :: l => ok s b ∧
      match f b s with
      | .ok _ s' => Along ok f s' l
      | .error _ _ => True

instance decidableAlong {ok : σ → β → Prop} {f : β → EStateM ε σ PUnit}
    [∀ s b, Decidable (ok s b)] : ∀ (s : σ) (l : List β), Decidable (Along ok f s l)
  | _, [] => inferInstanceAs (Decidable True)
  | s, b :: l =>
    have : Decidable (match f b s with
        | .ok _ s' => Along ok f s' l
        | .error _ _ => True) :=
      match f b s with
      | .ok _ s' => decidableAlong s' l
      | .error _ _ => inferInstanceAs (Decidable True)
    inferInstanceAs (Decidable (_ ∧ _))

/-- What a round that is `ok` keeps, the loop keeps. -/
theorem Along.invariant {ok : σ → β → Prop} {f : β → EStateM ε σ PUnit} {I : σ → Prop}
    (hI : ∀ s b, I s → ok s b → I (f b s).final) : ∀ {l : List β} {s : σ}, Along ok f s l → I s →
    I (l.forM f s).final
  | [], _, _, hs => hs
  | b :: l, s, h, hs => by
    have hround := hI s b hs h.1
    have hrest := h.2
    show I ((f b >>= fun _ => l.forM f) s).final
    cases hf : f b s with
    | ok a s' =>
      rw [hf] at hround hrest
      rw [EStateM.bind_of_ok hf]
      exact Along.invariant hI hrest hround
    | error e s' =>
      rw [hf] at hround
      rw [EStateM.bind_of_error hf]
      exact hround

/-- `x` leaves the state as it is. -/
def ReadOnly (x : EStateM ε σ α) : Prop := ∀ s, (x s).final = s

namespace ReadOnly

theorem pure (a : α) : ReadOnly (Pure.pure a : EStateM ε σ α) := fun _ => rfl

theorem throw (e : ε) : ReadOnly (throw e : EStateM ε σ α) := fun _ => rfl

theorem get : ReadOnly (MonadState.get : EStateM ε σ σ) := fun _ => rfl

theorem bind (hx : ReadOnly x) (hf : ∀ a, ReadOnly (f a)) : ReadOnly (x >>= f) := by
  intro s
  have hs := hx s
  show (EStateM.bind x f s).final = s
  unfold EStateM.bind
  cases hrun : x s with
  | ok a s₁ =>
    rw [hrun] at hs
    have hs : s₁ = s := hs
    subst hs
    exact hf a s₁
  | error e s₁ =>
    rw [hrun] at hs
    exact hs

theorem ite {c : Prop} [Decidable c] {x y : EStateM ε σ α} (hx : ReadOnly x) (hy : ReadOnly y) :
    ReadOnly (if c then x else y) := by
  split
  · exact hx
  · exact hy

theorem mapM {f : β → EStateM ε σ α} (hf : ∀ b, ReadOnly (f b)) : ∀ l : List β, ReadOnly (l.mapM f)
  | [] => by
    rw [List.mapM_nil]
    exact .pure _
  | b :: l => by
    rw [List.mapM_cons]
    exact (hf b).bind fun _ => (mapM hf l).bind fun _ => .pure _

theorem eq_of_ok (hx : ReadOnly x) {s s' : σ} {a : α} (h : x s = .ok a s') :
    s' = s := by simpa [h] using hx s

theorem ok_of_answer (hx : ReadOnly x) {s : σ} {a : α}
    (h : (x s).answer = some a) : x s = .ok a s := by
  cases hrun : x s with
  | ok b s' =>
    rw [hrun] at h
    obtain rfl : b = a := Option.some.inj h
    rw [hx.eq_of_ok hrun]
  | error e s' =>
    rw [hrun] at h
    cases h

/-- What comes after a read runs in the same state. -/
theorem bind_cases (hx : ReadOnly x) (f : α → EStateM ε σ β) (s : σ) :
    (∃ a, x s = .ok a s ∧ (x >>= f) s = f a s) ∨ ∃ e, (x >>= f) s = .error e s := by
  have hs := hx s
  have hbind : (x >>= f) s = EStateM.bind x f s := rfl
  rw [hbind]
  unfold EStateM.bind
  cases hrun : x s with
  | ok a s₁ =>
    rw [hrun] at hs
    have hs : s₁ = s := hs
    subst hs
    exact Or.inl ⟨a, rfl, rfl⟩
  | error e s₁ =>
    rw [hrun] at hs
    have hs : s₁ = s := hs
    subst hs
    exact Or.inr ⟨e, rfl⟩

/-- Reading keeps everything that is known about the state. -/
theorem guar {S : σ → σ → Prop} {P : σ → Prop} (hx : ReadOnly x) :
    Guar S P x fun a s => P s ∧ x s = .ok a s :=
  Guar.ofRead (fun s _ => hx s) fun _ _ hs h => ⟨hs, h⟩

theorem keeps {S : σ → σ → Prop} {P : σ → Prop} (hx : ReadOnly x) :
    Guar S P x fun _ => P := hx.guar.post fun _ _ h => h.1

end ReadOnly

/-! ## Outcomes -/

/-- From `s` the computation returns with `Q` or fails with `E`. -/
def Ends (x : EStateM ε σ α) (s : σ) (Q : α → σ → Prop) (E : σ → Prop) : Prop :=
  match x s with
  | .ok a s' => Q a s'
  | .error _ s' => E s'

namespace Ends

variable {s : σ} {Q Q' : α → σ → Prop} {E E' : σ → Prop}

theorem mono (h : Ends x s Q E) (hQ : ∀ a s', Q a s' → Q' a s')
    (hE : ∀ s', E s' → E' s') : Ends x s Q' E' := by
  unfold Ends at *
  cases hx : x s with
  | ok a s' =>
    rw [hx] at h
    exact hQ a s' h
  | error e s' =>
    rw [hx] at h
    exact hE s' h

theorem pure {a : α} (h : Q a s) : Ends (Pure.pure a : EStateM ε σ α) s Q E := h

theorem throw {e : ε} (h : E s) : Ends (throw e : EStateM ε σ α) s Q E := h

theorem bind {R : β → σ → Prop} (hx : Ends x s Q E)
    (hf : ∀ a s', Q a s' → Ends (f a) s' R E) : Ends (x >>= f) s R E := by
  unfold Ends at *
  cases hrun : x s with
  | ok a s' =>
    rw [hrun] at hx
    rw [EStateM.bind_of_ok hrun]
    exact hf a s' hx
  | error e s' =>
    rw [hrun] at hx
    rw [EStateM.bind_of_error hrun]
    exact hx

/-- A loop over a list: `I` is its invariant. -/
theorem forM {f : β → EStateM ε σ PUnit} {I : σ → Prop}
    (hf : ∀ b s, I s → Ends (f b) s (fun _ => I) E) :
    ∀ (l : List β) (s : σ), I s → Ends (l.forM f) s (fun _ => I) E
  | [], _, hs => hs
  | b :: l, s, hs => by
    show Ends (f b >>= fun _ => l.forM f) s (fun _ => I) E
    exact (hf b s hs).bind fun _ s' hs' => forM hf l s' hs'

end Ends

/-! ## Invariants -/

/-- `x` keeps `I`, whether it returns or fails, and returns with `Q`. -/
def Maintains (I : σ → Prop) (x : EStateM ε σ α) (Q : α → Prop) : Prop :=
  ∀ s, I s → Ends x s (fun a s' => I s' ∧ Q a) I

namespace Maintains

variable {I : σ → Prop} {Q Q' : α → Prop}

theorem final (h : Maintains I x Q) {s : σ} (hs : I s) : I (x s).final := by
  have h := h s hs
  unfold Ends at h
  cases hx : x s with
  | ok a s' =>
    rw [hx] at h
    exact h.1
  | error e s' =>
    rw [hx] at h
    exact h

theorem mono (h : Maintains I x Q) (hQ : ∀ a, Q a → Q' a) : Maintains I x Q' :=
  fun s hs => (h s hs).mono (fun a _ ha => ⟨ha.1, hQ a ha.2⟩) fun _ => id

theorem pure {a : α} (h : Q a) : Maintains I (Pure.pure a : EStateM ε σ α) Q := fun _ hs => ⟨hs, h⟩

theorem throw {e : ε} : Maintains I (throw e : EStateM ε σ α) Q := fun _ hs => hs

theorem bind {R : β → Prop} (hx : Maintains I x Q)
    (hf : ∀ a, Q a → Maintains I (f a) R) : Maintains I (x >>= f) R :=
  fun s hs => (hx s hs).bind fun a s' ha => hf a ha.2 s' ha.1

theorem ite {c : Prop} [Decidable c] {x y : EStateM ε σ α} (hx : Maintains I x Q)
    (hy : Maintains I y Q) : Maintains I (if c then x else y) Q := by
  split
  · exact hx
  · exact hy

/-- A loop over a list. -/
theorem forM {f : β → EStateM ε σ PUnit} : ∀ {l : List β},
    (∀ b ∈ l, Maintains I (f b) fun _ => True) → Maintains I (l.forM f) fun _ => True
  | [], _ => pure trivial
  | b :: l, hf => by
    show Maintains I (f b >>= fun _ => l.forM f) fun _ => True
    exact (hf b List.mem_cons_self).bind fun _ _ => forM fun c hc => hf c (List.mem_cons_of_mem _ hc)

/-- The results of a loop. -/
theorem mapM {R : β → Prop} : ∀ {l : List α},
    (∀ a ∈ l, Maintains I (f a) R) → Maintains I (l.mapM f) fun bs => ∀ b ∈ bs, R b
  | [], _ => pure nofun
  | a :: l, hf => by
    rw [List.mapM_cons]
    refine (hf a List.mem_cons_self).bind fun b hb => ?_
    refine (mapM fun c hc => hf c (List.mem_cons_of_mem _ hc)).bind fun bs hbs => pure ?_
    exact List.forall_mem_cons.2 ⟨hb, hbs⟩

/-- A loop that carries a value. -/
theorem foldlM {f : β → α → EStateM ε σ β} : ∀ {l : List α} {b : β},
    (∀ a ∈ l, ∀ b, Maintains I (f b a) fun _ => True) → Maintains I (l.foldlM f b) fun _ => True
  | [], _, _ => pure trivial
  | a :: l, b, hf => by
    rw [List.foldlM_cons]
    exact (hf a List.mem_cons_self b).bind fun c _ => foldlM fun d hd => hf d (List.mem_cons_of_mem _ hd)

end Maintains
