import Ccdb.Lib.Checked

/-!
# Ccdb — parsing with a cursor

A parser of untrusted bytes as a computation that notes what it allocates and how deep
it calls itself. It is safe when it returns, with a value or an error, and no
allocation is larger than the frame it is made for.

A reader takes a value off the buffer at a cursor. `Reads` ties it to a relation
between the bytes in front of it and the bytes it leaves, that is, to a rule of the
format's grammar: the reader is safe, and succeeds exactly where the rule applies.

Main results:

* `Reads.bind` — two readers in a row read the rules in a row.
* `Reads.times` — so does a loop.
* `Reads.safe_bind` — a parser that starts with a reader is safe when it is safe
  behind whatever the rule takes off.
* `Run.safe_allocate` — an allocation is safe when it fits the frame.
-/

namespace Ccdb.Checked

/-! ## Runs -/

inductive Event where
  /-- `bytes` are allocated for what is in a frame of `frame` bytes. -/
  | allocated (frame bytes : Nat)
  /-- A function calls itself. -/
  | nested
deriving DecidableEq, Repr

/-- A computation: what it notes, and what it returns. -/
structure Run (α : Type) where
  events : List Event
  result : Except DbError α

namespace Run

variable {α β : Type}

instance : Monad Run where
  pure a := ⟨[], .ok a⟩
  bind x f :=
    match x.result with
    | .ok a => ⟨x.events ++ (f a).events, (f a).result⟩
    | .error e => ⟨x.events, .error e⟩

instance : MonadLift (Except DbError) Run := ⟨fun r => ⟨[], r⟩⟩

/-- `bail!` and the errors of the operating system. -/
def fail (e : DbError) : Run α := ⟨[], .error e⟩

def ISIZE_MAX : Nat := 2 ^ 63 - 1

/-- `Vec::with_capacity(n)` of elements of `size` bytes, and `vec![0u8; n]`. -/
def allocate (frame n size : Nat) : Run Unit :=
  if n * size ≤ ISIZE_MAX then ⟨[.allocated frame (n * size)], .ok ()⟩
  else ⟨[], .error (.panic "capacity overflow")⟩

def nested : Run Unit := ⟨[.nested], .ok ()⟩

/-- A loop of `n` rounds that each read a value, from the cursor on. -/
def times (r : Nat → Run (α × Nat)) : Nat → Nat → Run (List α × Nat)
  | 0, i => return ([], i)
  | n + 1, i => do
    let (v, i) ← r i
    let (vs, i) ← times r n i
    return (v :: vs, i)

end Run

/-- An allocation is no larger than its frame. -/
def Event.Bounded : Event → Prop
  | .allocated frame bytes => bytes ≤ frame
  | .nested => True

instance : DecidablePred Event.Bounded
  | .allocated frame bytes => inferInstanceAs (Decidable (bytes ≤ frame))
  | .nested => inferInstanceAs (Decidable True)

/-- `Ok` or `Err`: neither a panic nor a loop without end. -/
def Returns {α : Type} : Except DbError α → Prop
  | .ok _ => True
  | .error (.bail _) => True
  | .error (.io _) => True
  | .error _ => False

theorem Returns.bind {α β : Type} {r : Except DbError α} {f : α → Except DbError β} (h : Returns r)
    (hf : ∀ a, r = .ok a → Returns (f a)) : Returns (r >>= f) := by
  cases r with
  | ok a => exact hf a rfl
  | error e => cases e <;> exact h

namespace Run

variable {α β : Type}

def Safe (x : Run α) : Prop := (∀ e ∈ x.events, e.Bounded) ∧ Returns x.result

/-- How many calls of the function to itself are open at the end. -/
def depth (x : Run α) : Nat := x.events.count .nested

theorem bind_of_ok {x : Run α} {a : α} (h : x.result = .ok a) (f : α → Run β) :
    x >>= f = ⟨x.events ++ (f a).events, (f a).result⟩ := by
  show (match x.result with | .ok a => _ | .error e => _) = _
  rw [h]

theorem bind_of_error {x : Run α} {e : DbError} (h : x.result = .error e) (f : α → Run β) :
    x >>= f = ⟨x.events, .error e⟩ := by
  show (match x.result with | .ok a => _ | .error e => _) = _
  rw [h]

@[simp] theorem lift_ok_bind (a : α) (f : α → Run β) :
    (liftM (Except.ok a : Except DbError α) : Run α) >>= f = f a := rfl

theorem allocate_ok_bind {frame n size : Nat} (h : n * size ≤ ISIZE_MAX) (f : Unit → Run β) :
    allocate frame n size >>= f = ⟨.allocated frame (n * size) :: (f ()).events, (f ()).result⟩ := by
  rw [allocate, if_pos h]
  rfl

@[simp] theorem safe_pure (a : α) : (pure a : Run α).Safe :=
  ⟨fun _ h => absurd h List.not_mem_nil, trivial⟩

@[simp] theorem safe_bail (msg : String) : (fail (.bail msg) : Run α).Safe :=
  ⟨fun _ h => absurd h List.not_mem_nil, trivial⟩

@[simp] theorem safe_io (what : String) : (fail (.io what) : Run α).Safe :=
  ⟨fun _ h => absurd h List.not_mem_nil, trivial⟩

theorem safe_bind_of_ok {x : Run α} {a : α} (hx : x.Safe) (h : x.result = .ok a) (f : α → Run β) :
    (x >>= f).Safe ↔ (f a).Safe := by
  rw [bind_of_ok h]
  constructor
  · rintro ⟨hevents, hret⟩
    exact ⟨fun e he => hevents e (List.mem_append_right _ he), hret⟩
  · rintro ⟨hevents, hret⟩
    refine ⟨fun e he => ?_, hret⟩
    rcases List.mem_append.1 he with he | he
    · exact hx.1 e he
    · exact hevents e he

theorem safe_bind_of_error {x : Run α} {e : DbError} (hx : x.Safe) (h : x.result = .error e)
    (f : α → Run β) : (x >>= f).Safe := by
  rw [bind_of_error h]
  refine ⟨hx.1, ?_⟩
  have hret := hx.2
  rw [h] at hret
  cases e <;> exact hret

/-- What a computation without allocations returns decides how it goes on. -/
theorem safe_lift_bind {r : Except DbError α} (hr : Returns r) (f : α → Run β) :
    ((liftM r : Run α) >>= f).Safe ↔ ∀ a, r = .ok a → (f a).Safe := by
  have hsafe : (liftM r : Run α).Safe := ⟨fun _ h => absurd h List.not_mem_nil, hr⟩
  cases r with
  | ok a =>
    rw [@safe_bind_of_ok _ _ _ a hsafe rfl]
    exact ⟨fun h b hb => (Except.ok.inj hb) ▸ h, fun h => h a rfl⟩
  | error e =>
    exact ⟨fun _ b hb => (nomatch hb), fun _ => safe_bind_of_error hsafe rfl f⟩

theorem safe_allocate {frame n size : Nat} (hframe : frame ≤ ISIZE_MAX) (f : Unit → Run β) :
    (allocate frame n size >>= f).Safe ↔ n * size ≤ frame ∧ (f ()).Safe := by
  unfold allocate
  by_cases hcap : n * size ≤ ISIZE_MAX
  · rw [if_pos hcap, bind_of_ok rfl]
    constructor
    · rintro ⟨hevents, hret⟩
      exact ⟨hevents (.allocated frame (n * size)) List.mem_cons_self,
        fun e he => hevents e (List.mem_cons_of_mem _ he), hret⟩
    · rintro ⟨hle, hevents, hret⟩
      refine ⟨fun e he => ?_, hret⟩
      rcases List.mem_cons.1 he with rfl | he
      · exact hle
      · exact hevents e he
  · rw [if_neg hcap, bind_of_error rfl]
    exact ⟨fun h => absurd h.2 id, fun h => absurd (h.1.trans hframe) hcap⟩

theorem not_safe_allocate {frame n size : Nat} (h : ISIZE_MAX < n * size) (f : Unit → Run β) :
    ¬ (allocate frame n size >>= f).Safe := by
  rw [allocate, if_neg (by omega), bind_of_error rfl]
  exact fun hsafe => hsafe.2

@[simp] theorem safe_nested (f : Unit → Run β) : (nested >>= f).Safe ↔ (f ()).Safe := by
  have hsafe : nested.Safe := ⟨fun e h => List.mem_singleton.1 h ▸ trivial, trivial⟩
  exact @safe_bind_of_ok _ _ nested () hsafe rfl f

@[simp] theorem depth_nested (f : Unit → Run β) : (nested >>= f).depth = (f ()).depth + 1 :=
  List.count_cons_self

theorem depth_allocate (frame n size : Nat) : (allocate frame n size).depth = 0 := by
  unfold allocate
  split <;> rfl

theorem depth_bind {x : Run α} {f : α → Run β} (hx : x.depth = 0) (hf : ∀ a, (f a).depth = 0) :
    (x >>= f).depth = 0 := by
  cases hr : x.result with
  | error e =>
    rw [bind_of_error hr]
    exact hx
  | ok a =>
    rw [bind_of_ok hr, depth, List.count_append, Nat.add_eq_zero_iff]
    exact ⟨hx, hf a⟩

/-- A last step that only shapes the result. -/
theorem safe_map (x : Run α) (g : α → β) : (x >>= fun a => pure (g a)).Safe ↔ x.Safe := by
  constructor
  · intro h
    cases hx : x.result with
    | error e =>
      rw [bind_of_error hx] at h
      refine ⟨h.1, ?_⟩
      rw [hx]
      have hret := h.2
      cases e <;> exact hret
    | ok a =>
      rw [bind_of_ok hx] at h
      exact ⟨fun e he => h.1 e (List.mem_append_left _ he), by rw [hx]; trivial⟩
  · intro h
    cases hx : x.result with
    | error e => exact safe_bind_of_error h hx _
    | ok a => exact (safe_bind_of_ok h hx _).2 (safe_pure _)

end Run

/-! ## Readers -/

variable {α β : Type} {buf : Bytes}

/-- From any place in `buf` the reader `r` is safe, and it takes off an `a` where, and only
where, the rule `R a` leads from the bytes in front of it to those behind. -/
structure Reads (buf : Bytes) (r : Nat → Run (α × Nat)) (R : α → Bytes → Bytes → Prop) : Prop where
  safe : ∀ i, i ≤ buf.length → (r i).Safe
  sound : ∀ i, i ≤ buf.length → ∀ a j, (r i).result = .ok (a, j) →
    j ≤ buf.length ∧ R a (buf.drop i) (buf.drop j)
  complete : ∀ i, i ≤ buf.length → ∀ a rest, R a (buf.drop i) rest →
    ∃ j, j ≤ buf.length ∧ (r i).result = .ok (a, j) ∧ buf.drop j = rest

/-- `n` values in a row. -/
def Many (R : α → Bytes → Bytes → Prop) : Nat → List α → Bytes → Bytes → Prop
  | 0, vs, front, rest => vs = [] ∧ front = rest
  | n + 1, vs, front, rest =>
    ∃ v mid, R v front mid ∧ ∃ tail rest', Many R n tail mid rest' ∧ vs = v :: tail ∧ rest' = rest

namespace Reads

variable {r : Nat → Run (α × Nat)} {R : α → Bytes → Bytes → Prop}

theorem pure (a : α) : Reads buf (fun i => pure (a, i)) fun b front rest => b = a ∧ front = rest where
  safe _ _ := Run.safe_pure _
  sound i hi b j h := by
    cases h
    exact ⟨hi, rfl, rfl⟩
  complete i hi b rest h := by
    obtain ⟨rfl, rfl⟩ := h
    exact ⟨i, hi, rfl, rfl⟩

/-- A reader without allocations. -/
theorem lift {r : Nat → Except DbError (α × Nat)}
    (hreturns : ∀ i, i ≤ buf.length → Returns (r i))
    (hsound : ∀ i, i ≤ buf.length → ∀ a j, r i = .ok (a, j) →
      j ≤ buf.length ∧ R a (buf.drop i) (buf.drop j))
    (hcomplete : ∀ i, i ≤ buf.length → ∀ a rest, R a (buf.drop i) rest →
      ∃ j, j ≤ buf.length ∧ r i = .ok (a, j) ∧ buf.drop j = rest) :
    Reads buf (fun i => liftM (r i)) R where
  safe i hi := ⟨fun _ h => absurd h List.not_mem_nil, hreturns i hi⟩
  sound := hsound
  complete := hcomplete

/-- The rule in other words. -/
theorem congr {R' : α → Bytes → Bytes → Prop} (h : Reads buf r R)
    (hR : ∀ a front rest, R a front rest ↔ R' a front rest) : Reads buf r R' where
  safe := h.safe
  sound i hi a j hr := by
    obtain ⟨hj, hrule⟩ := h.sound i hi a j hr
    exact ⟨hj, (hR _ _ _).1 hrule⟩
  complete i hi a rest hrule := h.complete i hi a rest ((hR _ _ _).2 hrule)

/-- A parser that starts with a reader. -/
theorem safe_bind (h : Reads buf r R) {i : Nat} (hi : i ≤ buf.length) {f : α × Nat → Run β}
    {P : α → Bytes → Prop}
    (hf : ∀ a j, j ≤ buf.length → ((f (a, j)).Safe ↔ P a (buf.drop j))) :
    (r i >>= f).Safe ↔ ∀ a rest, R a (buf.drop i) rest → P a rest := by
  cases hr : (r i).result with
  | error e =>
    refine ⟨fun _ a rest hrule => ?_, fun _ => Run.safe_bind_of_error (h.safe i hi) hr f⟩
    obtain ⟨j, -, hok, -⟩ := h.complete i hi a rest hrule
    rw [hr] at hok
    cases hok
  | ok p =>
    obtain ⟨a, j⟩ := p
    obtain ⟨hj, hrule⟩ := h.sound i hi a j hr
    rw [Run.safe_bind_of_ok (h.safe i hi) hr, hf a j hj]
    refine ⟨fun hP b rest hb => ?_, fun hall => hall a _ hrule⟩
    obtain ⟨k, -, hok, rfl⟩ := h.complete i hi b rest hb
    rw [hr] at hok
    cases hok
    exact hP

theorem safe_then (h : Reads buf r R) {i : Nat} (hi : i ≤ buf.length) {f : α × Nat → Run β}
    (hf : ∀ a j, j ≤ buf.length → (f (a, j)).Safe) : (r i >>= f).Safe := by
  cases hr : (r i).result with
  | error e => exact Run.safe_bind_of_error (h.safe i hi) hr f
  | ok p =>
    obtain ⟨a, j⟩ := p
    exact (Run.safe_bind_of_ok (h.safe i hi) hr f).2 (hf a j (h.sound i hi a j hr).1)

/-- Two readers in a row. -/
theorem bind (h : Reads buf r R) {r' : α → Nat → Run (β × Nat)}
    {R' : α → β → Bytes → Bytes → Prop} (h' : ∀ a, Reads buf (r' a) (R' a)) :
    Reads buf (fun i => r i >>= fun p => r' p.1 p.2)
      fun b front rest => ∃ a mid, R a front mid ∧ R' a b mid rest where
  safe i hi := h.safe_then hi fun a j hj => (h' a).safe j hj
  sound i hi b k hr := by
    cases hfirst : (r i).result with
    | error e =>
      rw [Run.bind_of_error hfirst] at hr
      cases hr
    | ok p =>
      obtain ⟨a, j⟩ := p
      rw [Run.bind_of_ok hfirst] at hr
      obtain ⟨hj, hrule⟩ := h.sound i hi a j hfirst
      obtain ⟨hk, hrule'⟩ := (h' a).sound j hj b k hr
      exact ⟨hk, a, _, hrule, hrule'⟩
  complete i hi b rest hrule := by
    obtain ⟨a, mid, hrule, hrule'⟩ := hrule
    obtain ⟨j, hj, hok, rfl⟩ := h.complete i hi a mid hrule
    obtain ⟨k, hk, hok', hrest⟩ := (h' a).complete j hj b rest hrule'
    exact ⟨k, hk, by rw [Run.bind_of_ok hok]; exact hok', hrest⟩

/-- A loop of readers. -/
theorem times (h : Reads buf r R) : ∀ n, Reads buf (Run.times r n) (Many R n)
  | 0 => Reads.pure []
  | n + 1 => h.bind fun v => (h.times n).bind fun tail => Reads.pure (v :: tail)

end Reads

end Ccdb.Checked
