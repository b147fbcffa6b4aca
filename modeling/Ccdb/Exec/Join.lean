import Ccdb.Storage.Tuple

/-!
# Ccdb — the nested-loop join

`NestedLoopJoin` over two child executors, as the state machine it is: the
current outer tuple, whether it has matched, and a pending NULL-padded row.
`open` and the turn that leaves an outer tuple rewind the inner child; the
turn that emits a padded row goes to the next outer tuple without doing so.

Main results:

* `drains_loopRows` — what draining the operator yields, for every pair of
  children.
* `join_is_sqlJoin` — it is the SQL join exactly when LEFT has no outer tuple
  with a match after one without.
-/

namespace Ccdb.Join

open Ccdb

abbrev Row := List Value

/-! ## The operator -/

/-- `dyn Executor`: `open` and `next` on the state of an operator. -/
structure Executor (σ : Type) where
  openOp : σ → Except DbError σ
  next : σ → Except DbError (Option Row × σ)

inductive JoinType where
  | inner
  | left
deriving DecidableEq, Repr

/-- What `NestedLoopJoin` has fixed; `on` is `evaluate_expr` of the ON
expression. -/
structure Plan (σ τ : Type) where
  outer : Executor σ
  inner : Executor τ
  on : Row → Except DbError Value
  joinType : JoinType
  innerWidth : Nat

/-- The fields of `NestedLoopJoin` that change. -/
structure State (σ τ : Type) where
  outer : σ
  inner : τ
  curOuter : Option Row
  matchedCurrentOuter : Bool
  pendingLeftNullPad : Bool

/-- `concat`. -/
def concat (outer inner : Row) : Row := outer ++ inner

/-- `null_padded`. -/
def nullPadded (outer : Row) (innerWidth : Nat) : Row := outer ++ List.replicate innerWidth .null

variable {σ τ : Type}

/-- `open`. -/
def Plan.openJoin (p : Plan σ τ) (outer : σ) (inner : τ) : Except DbError (State σ τ) := do
  let outer ← p.outer.openOp outer
  let inner ← p.inner.openOp inner
  let (cur, outer) ← p.outer.next outer
  .ok ⟨outer, inner, cur, false, false⟩

/-- One turn of the loop of `next`: a result, or another turn. -/
def Plan.turn (p : Plan σ τ) (s : State σ τ) : Except DbError (Option (Option Row) × State σ τ) :=
  if s.pendingLeftNullPad then
    match s.curOuter with
    | none => .error (.panic "pending_left_null_pad implies a current outer")
    | some o => do
      let (cur, outer) ← p.outer.next s.outer
      .ok (some (some (nullPadded o p.innerWidth)), ⟨outer, s.inner, cur, false, false⟩)
  else
    match s.curOuter with
    | none => .ok (some none, s)
    | some o => do
      let (i, inner) ← p.inner.next s.inner
      match i with
      | some i => do
        match ← p.on (concat o i) with
        | .bool true => .ok (some (some (concat o i)), { s with inner := inner, matchedCurrentOuter := true })
        | .bool false => .ok (none, { s with inner := inner })
        | .null => .ok (none, { s with inner := inner })
        | other => .error (notBoolean "JOIN ON" other)
      | none =>
        if p.joinType = .left ∧ s.matchedCurrentOuter = false then
          .ok (none, { s with inner := inner, pendingLeftNullPad := true })
        else do
          let (cur, outer) ← p.outer.next s.outer
          match cur with
          | some _ => do
            let inner ← p.inner.openOp inner
            .ok (none, ⟨outer, inner, cur, false, false⟩)
          | none => .ok (none, ⟨outer, inner, cur, false, false⟩)

/-- `next` until it returns `None`. One unit of fuel is one turn of its loop. -/
def Plan.drain (p : Plan σ τ) : Nat → State σ τ → Except DbError (List Row)
  | 0, _ => .error .diverge
  | fuel + 1, s => do
    let (out, s') ← p.turn s
    match out with
    | none => p.drain fuel s'
    | some none => .ok []
    | some (some row) => do
      let rest ← p.drain fuel s'
      .ok (row :: rest)

/-- The join run from `open` to the end. -/
def Plan.run (p : Plan σ τ) (fuel : Nat) (outer : σ) (inner : τ) : Except DbError (List Row) := do
  let s ← p.openJoin outer inner
  p.drain fuel s

/-- The run ends and yields `rows`. -/
def Plan.Yields (p : Plan σ τ) (outer : σ) (inner : τ) (rows : List Row) : Prop :=
  ∃ n, ∀ fuel, n ≤ fuel → p.run fuel outer inner = .ok rows

/-! ## Children -/

/-- A re-openable child that delivers `rows`: `left ys s` says that `ys` are
still to come in state `s`, and `s₀` is the state the child is created in. -/
structure Delivers (e : Executor σ) (rows : List Row) (s₀ : σ) (left : List Row → σ → Prop) :
    Prop where
  opens : ∀ s, (s = s₀ ∨ ∃ ys, left ys s) → ∃ s', e.openOp s = .ok s' ∧ left rows s'
  row : ∀ x xs s, left (x :: xs) s → ∃ s', e.next s = .ok (some x, s') ∧ left xs s'
  done : ∀ s, left [] s → ∃ s', e.next s = .ok (none, s') ∧ left [] s'

/-! ## The join of SQL -/

def isTrue (v : Except DbError Value) : Bool :=
  match v with
  | .ok (.bool b) => b
  | _ => false

/-- The concatenations of `o` with the inner tuples for which ON is TRUE. -/
def matchesOf (on : Row → Except DbError Value) (inner : List Row) (o : Row) : List Row :=
  (inner.map (concat o)).filter fun row => isTrue (on row)

/-- The rows an outer tuple contributes. -/
def rowsOf (joinType : JoinType) (width : Nat) (on : Row → Except DbError Value) (inner : List Row)
    (o : Row) : List Row :=
  if joinType = .left ∧ matchesOf on inner o = [] then [nullPadded o width] else matchesOf on inner o

/-- The SQL join. -/
def sqlJoin (joinType : JoinType) (width : Nat) (on : Row → Except DbError Value)
    (outer inner : List Row) : List Row :=
  outer.flatMap (rowsOf joinType width on inner)

/-- What the operator yields: from the first unmatched outer tuple of a LEFT
join on, every outer tuple is padded. -/
def loopRows (joinType : JoinType) (width : Nat) (on : Row → Except DbError Value)
    (inner : List Row) : List Row → List Row
  | [] => []
  | o :: os =>
    if joinType = .left ∧ matchesOf on inner o = [] then
      (o :: os).map fun o => nullPadded o width
    else matchesOf on inner o ++ loopRows joinType width on inner os

/-- ON evaluates to a truth value on every pair of tuples. -/
def Evaluates (on : Row → Except DbError Value) (outer inner : List Row) : Prop :=
  ∀ o ∈ outer, ∀ i ∈ inner, on (concat o i) = .ok .null ∨ ∃ b, on (concat o i) = .ok (.bool b)

/-! ## Turns of the loop -/

section Drain

variable {p : Plan σ τ} {s s' : State σ τ} {row : Row} {rows : List Row}

/-- Draining from `s` ends and yields `rows`. -/
def Plan.Drains (p : Plan σ τ) (s : State σ τ) (rows : List Row) : Prop :=
  ∃ n, ∀ fuel, n ≤ fuel → p.drain fuel s = .ok rows

theorem drains_skip (h : p.turn s = .ok (none, s')) (hrest : p.Drains s' rows) : p.Drains s rows := by
  obtain ⟨n, hn⟩ := hrest
  refine ⟨n + 1, fun fuel hfuel => ?_⟩
  obtain ⟨f, rfl⟩ := Nat.exists_eq_add_of_le' hfuel
  have hdrain := hn (f + n) (Nat.le_add_left n f)
  rw [← Nat.add_assoc, Plan.drain, h]
  exact hdrain

theorem drains_emit (h : p.turn s = .ok (some (some row), s')) (hrest : p.Drains s' rows) :
    p.Drains s (row :: rows) := by
  obtain ⟨n, hn⟩ := hrest
  refine ⟨n + 1, fun fuel hfuel => ?_⟩
  obtain ⟨f, rfl⟩ := Nat.exists_eq_add_of_le' hfuel
  have hdrain := hn (f + n) (Nat.le_add_left n f)
  rw [← Nat.add_assoc, Plan.drain, h]
  simp only [bind, Except.bind, hdrain]

theorem drains_stop (h : p.turn s = .ok (some none, s')) : p.Drains s [] := by
  refine ⟨1, fun fuel hfuel => ?_⟩
  obtain ⟨f, rfl⟩ := Nat.exists_eq_add_of_le' hfuel
  rw [Plan.drain, h]
  rfl

end Drain

theorem Delivers.next_eq {e : Executor σ} {rows : List Row} {s₀ : σ} {left : List Row → σ → Prop}
    (h : Delivers e rows s₀ left) {ys : List Row} {s : σ} (hs : left ys s) :
    ∃ s', e.next s = .ok (ys.head?, s') ∧ left ys.tail s' := by
  cases ys with
  | nil => exact h.done s hs
  | cons y ys => exact h.row y ys s hs

section Run

variable {p : Plan σ τ} {outer inner : List Row} {o₀ : σ} {i₀ : τ} {leftO : List Row → σ → Prop}
  {leftI : List Row → τ → Prop}

/-- The operator before the outer tuples `os`, of which the first is compared
with the inner tuples `ys` still to come. -/
structure Before (leftO : List Row → σ → Prop) (leftI : List Row → τ → Prop) (os ys : List Row)
    (matched : Bool) (s : State σ τ) : Prop where
  cur : s.curOuter = os.head?
  outer : leftO os.tail s.outer
  inner : leftI ys s.inner
  matched : s.matchedCurrentOuter = matched
  pending : s.pendingLeftNullPad = false

variable (hO : Delivers p.outer outer o₀ leftO) (hI : Delivers p.inner inner i₀ leftI)

include hO hI

/-- With the inner child at its end, a LEFT join pads every outer tuple. -/
theorem drains_padded (hleft : p.joinType = .left) : ∀ (os : List Row) {s : State σ τ},
    Before leftO leftI os [] false s → p.Drains s (os.map fun o => nullPadded o p.innerWidth)
  | [], s, h => by
    have hturn : p.turn s = .ok (some none, s) := by
      rw [Plan.turn, h.pending, h.cur]
      rfl
    exact drains_stop hturn
  | o :: os, s, h => by
    obtain ⟨inner', hnext, hend⟩ := hI.done s.inner h.inner
    obtain ⟨outer', hout, hleftO⟩ := hO.next_eq h.outer
    have hturn : p.turn s = .ok (none, { s with inner := inner', pendingLeftNullPad := true }) := by
      rw [Plan.turn, h.pending, h.cur]
      simp [hnext, h.matched, hleft, bind, Except.bind]
    have hpad : p.turn { s with inner := inner', pendingLeftNullPad := true } =
        .ok (some (some (nullPadded o p.innerWidth)),
          ⟨outer', inner', os.head?, false, false⟩) := by
      rw [Plan.turn, h.cur]
      simp [hout, bind, Except.bind]
    refine drains_skip hturn (drains_emit hpad ?_)
    exact drains_padded hleft os ⟨rfl, hleftO, hend, rfl, rfl⟩

omit hI in
/-- The turn that leaves an outer tuple rewinds the inner child if there is
another one. -/
theorem turn_advance (hI : Delivers p.inner inner i₀ leftI) {o : Row} {os : List Row} {m : Bool}
    {s : State σ τ} (h : Before leftO leftI (o :: os) [] m s)
    (hpad : ¬ (p.joinType = .left ∧ m = false)) :
    ∃ s', p.turn s = .ok (none, s') ∧ s'.curOuter = os.head? ∧
      (os = [] ∨ Before leftO leftI os inner false s') ∧ s'.pendingLeftNullPad = false := by
  obtain ⟨inner', hnext, hend⟩ := hI.done s.inner h.inner
  obtain ⟨outer', hout, hleftO⟩ := hO.next_eq h.outer
  have hturn : p.turn s = (match os.head? with
      | some _ => do
        let inner ← p.inner.openOp inner'
        .ok (none, ⟨outer', inner, os.head?, false, false⟩)
      | none => .ok (none, ⟨outer', inner', os.head?, false, false⟩)) := by
    rw [Plan.turn, h.pending, h.cur]
    simp only [Bool.false_eq_true, if_false, List.head?_cons, hnext, bind, Except.bind, h.matched,
      hpad]
    rw [show s.outer = s.outer from rfl, hout]
    rfl
  cases os with
  | nil => exact ⟨_, hturn, rfl, Or.inl rfl, rfl⟩
  | cons o' os =>
    obtain ⟨inner'', hopen, hrewound⟩ := hI.opens inner' (Or.inr ⟨[], hend⟩)
    refine ⟨⟨outer', inner'', some o', false, false⟩, ?_, rfl, Or.inr ⟨rfl, hleftO, hrewound, rfl, rfl⟩,
      rfl⟩
    rw [hturn]
    simp [hopen, bind, Except.bind]

/-- The rows one outer tuple yields from the inner tuples `ys` on, and then. -/
theorem drains_scan {o : Row} {os rest : List Row}
    (hrest : ∀ s : State σ τ, s.curOuter = os.head? →
      (os = [] ∨ Before leftO leftI os inner false s) → s.pendingLeftNullPad = false →
      p.Drains s rest) : ∀ (ys : List Row) (m : Bool) {s : State σ τ},
    (∀ i ∈ ys, p.on (concat o i) = .ok .null ∨ ∃ b, p.on (concat o i) = .ok (.bool b)) →
    Before leftO leftI (o :: os) ys m s →
    p.Drains s (matchesOf p.on ys o ++
      if p.joinType = .left ∧ m = false ∧ matchesOf p.on ys o = [] then
        (o :: os).map fun o => nullPadded o p.innerWidth
      else rest)
  | [], m, s, _, h => by
    by_cases hpad : p.joinType = .left ∧ m = false
    · obtain ⟨hleft, rfl⟩ := hpad
      rw [if_pos ⟨hleft, rfl, rfl⟩]
      exact drains_padded hO hI hleft (o :: os) h
    · obtain ⟨s', hturn, hcur, hbefore, hpending⟩ := turn_advance hO hI h hpad
      rw [if_neg fun hall => hpad ⟨hall.1, hall.2.1⟩]
      exact drains_skip hturn (hrest s' hcur hbefore hpending)
  | i :: ys, m, s, hev, h => by
    obtain ⟨inner', hnext, hys⟩ := hI.row i ys s.inner h.inner
    have hevs := fun j hj => hev j (List.mem_cons_of_mem _ hj)
    -- one inner tuple that does not match
    have hskip : isTrue (p.on (concat o i)) = false →
        p.turn s = .ok (none, { s with inner := inner' }) →
        p.Drains s (matchesOf p.on (i :: ys) o ++
          if p.joinType = .left ∧ m = false ∧ matchesOf p.on (i :: ys) o = [] then
            (o :: os).map fun o => nullPadded o p.innerWidth
          else rest) := by
      intro hfalse hturn
      have hmatch : matchesOf p.on (i :: ys) o = matchesOf p.on ys o := by
        simp [matchesOf, hfalse]
      rw [hmatch]
      exact drains_skip hturn
        (drains_scan hrest ys m hevs ⟨h.cur, h.outer, hys, h.matched, h.pending⟩)
    have hturn : ∀ v, p.on (concat o i) = .ok v → p.turn s = (match v with
        | .bool true => .ok (some (some (concat o i)),
            { s with inner := inner', matchedCurrentOuter := true })
        | .bool false => .ok (none, { s with inner := inner' })
        | .null => .ok (none, { s with inner := inner' })
        | other => .error (notBoolean "JOIN ON" other)) := by
      intro v hv
      rw [Plan.turn, h.pending, h.cur]
      simp only [Bool.false_eq_true, if_false, List.head?_cons, hnext, bind, Except.bind, hv]
    rcases hev i List.mem_cons_self with hnull | ⟨b, hb⟩
    · exact hskip (by rw [hnull]; rfl) (hturn _ hnull)
    · cases b with
      | false => exact hskip (by rw [hb]; rfl) (hturn _ hb)
      | true =>
        have hmatch : matchesOf p.on (i :: ys) o = concat o i :: matchesOf p.on ys o := by
          simp [matchesOf, hb, isTrue]
        have hrec := drains_scan hrest ys true hevs
          (s := { s with inner := inner', matchedCurrentOuter := true })
          ⟨h.cur, h.outer, hys, rfl, h.pending⟩
        rw [if_neg (by simp)] at hrec
        rw [hmatch, if_neg (by simp)]
        exact drains_emit (hturn _ hb) hrec

/-- **What the operator yields**, for every pair of children. -/
theorem drains_loopRows : ∀ (os : List Row) {s : State σ τ}, Evaluates p.on os inner →
    s.curOuter = os.head? → (os = [] ∨ Before leftO leftI os inner false s) →
    s.pendingLeftNullPad = false →
    p.Drains s (loopRows p.joinType p.innerWidth p.on inner os)
  | [], s, _, hcur, _, hpending => by
    have hturn : p.turn s = .ok (some none, s) := by
      rw [Plan.turn, hpending, hcur]
      rfl
    exact drains_stop hturn
  | o :: os, s, hev, _, hbefore, _ => by
    have hbefore := hbefore.resolve_left (List.cons_ne_nil o os)
    have hrest : ∀ s' : State σ τ, s'.curOuter = os.head? →
        (os = [] ∨ Before leftO leftI os inner false s') → s'.pendingLeftNullPad = false →
        p.Drains s' (loopRows p.joinType p.innerWidth p.on inner os) := fun _ =>
      drains_loopRows os fun o' ho' => hev o' (List.mem_cons_of_mem _ ho')
    have hscan := drains_scan hO hI hrest inner false (hev o List.mem_cons_self) hbefore
    rw [loopRows]
    by_cases hpad : p.joinType = .left ∧ matchesOf p.on inner o = []
    · rw [if_pos ⟨hpad.1, rfl, hpad.2⟩, hpad.2] at hscan
      rw [if_pos hpad]
      exact hscan
    · rw [if_neg fun hall => hpad ⟨hall.1, hall.2.2⟩] at hscan
      rw [if_neg hpad]
      exact hscan

theorem yields_loopRows (hev : Evaluates p.on outer inner) :
    p.Yields o₀ i₀ (loopRows p.joinType p.innerWidth p.on inner outer) := by
  obtain ⟨o₁, hopenO, hleftO⟩ := hO.opens o₀ (Or.inl rfl)
  obtain ⟨i₁, hopenI, hleftI⟩ := hI.opens i₀ (Or.inl rfl)
  obtain ⟨o₂, hnext, hleft⟩ := hO.next_eq hleftO
  have hopen : p.openJoin o₀ i₀ = .ok ⟨o₂, i₁, outer.head?, false, false⟩ := by
    simp [Plan.openJoin, hopenO, hopenI, hnext, bind, Except.bind]
  obtain ⟨n, hn⟩ := drains_loopRows hO hI outer (s := ⟨o₂, i₁, outer.head?, false, false⟩) hev rfl
    (Or.inr ⟨rfl, hleft, hleftI, rfl, rfl⟩) rfl
  refine ⟨n, fun fuel hfuel => ?_⟩
  rw [Plan.run, hopen]
  exact hn fuel hfuel

/-- The run yields one list of rows only. -/
theorem yields_iff (hev : Evaluates p.on outer inner) (rows : List Row) :
    p.Yields o₀ i₀ rows ↔ loopRows p.joinType p.innerWidth p.on inner outer = rows := by
  have h := yields_loopRows hO hI hev
  constructor
  · rintro ⟨n, hn⟩
    obtain ⟨n', hn'⟩ := h
    have heq := (hn' (max n n') (le_max_right _ _)).symm.trans (hn (max n n') (le_max_left _ _))
    exact Except.ok.inj heq
  · rintro rfl
    exact h

end Run

/-! ## Against the join of SQL -/

section Sql

variable {joinType : JoinType} {width : Nat} {on : Row → Except DbError Value} {inner : List Row}

theorem rowsOf_ne_nil (hleft : joinType = .left) (o : Row) :
    rowsOf joinType width on inner o ≠ [] := by
  unfold rowsOf
  split
  · simp
  · rename_i hno
    exact fun h => hno ⟨hleft, h⟩

/-- Lists of at least one row each, joined to as many rows as there are lists,
have one row each. -/
theorem flatMap_eq_map {α β : Type} {f : α → List β} {g : α → β} (hne : ∀ a, f a ≠ []) :
    ∀ {l : List α}, l.flatMap f = l.map g ↔ ∀ a ∈ l, f a = [g a]
  | [] => by simp
  | a :: l => by
    have hlen : ∀ l : List α, l.length ≤ (l.flatMap f).length := by
      intro l
      induction l with
      | nil => simp
      | cons a l ih =>
        have hpos := List.length_pos_iff.2 (hne a)
        rw [List.flatMap_cons, List.length_append, List.length_cons]
        omega
    constructor
    · intro h
      obtain ⟨b, bs, hb⟩ := List.exists_cons_of_ne_nil (hne a)
      rw [List.flatMap_cons, hb, List.map_cons, List.cons_append, List.cons.injEq] at h
      obtain ⟨rfl, hrest⟩ := h
      have hbs : bs = [] := by
        have hcount := congrArg List.length hrest
        have hle := hlen l
        rw [List.length_append, List.length_map] at hcount
        exact List.length_eq_zero_iff.1 (by omega)
      subst hbs
      intro x hx
      rcases List.mem_cons.1 hx with rfl | hx
      · exact hb
      · exact (flatMap_eq_map hne).1 hrest x hx
    · intro h
      rw [List.flatMap_cons, h a List.mem_cons_self, List.map_cons, List.singleton_append,
        (flatMap_eq_map hne).2 fun x hx => h x (List.mem_cons_of_mem _ hx)]

/-- No outer tuple behind an unmatched one contributes anything but its
NULL-padded row. -/
def PaddedBehindUnmatched (width : Nat) (on : Row → Except DbError Value) (outer inner : List Row) :
    Prop :=
  ∀ pre o post, outer = pre ++ o :: post → matchesOf on inner o = [] →
    ∀ p ∈ post, matchesOf on inner p = [] ∨ matchesOf on inner p = [nullPadded p width]

theorem loopRows_inner : ∀ outer : List Row,
    loopRows .inner width on inner outer = sqlJoin .inner width on outer inner
  | [] => rfl
  | o :: os => by
    have hrow : rowsOf .inner width on inner o = matchesOf on inner o := if_neg (by simp)
    rw [loopRows, if_neg (by simp), loopRows_inner os]
    simp only [sqlJoin, List.flatMap_cons, hrow]

theorem rowsOf_left_iff (p : Row) : rowsOf .left width on inner p = [nullPadded p width] ↔
    matchesOf on inner p = [] ∨ matchesOf on inner p = [nullPadded p width] := by
  unfold rowsOf
  by_cases h : matchesOf on inner p = []
  · simp [h]
  · simp [h]

theorem loopRows_left : ∀ outer : List Row,
    loopRows .left width on inner outer = sqlJoin .left width on outer inner ↔
      PaddedBehindUnmatched width on outer inner
  | [] => by
    refine ⟨fun _ pre o post h => ?_, fun _ => rfl⟩
    simp at h
  | o :: os => by
    by_cases hno : matchesOf on inner o = []
    · -- from here on the operator pads
      have hrow : rowsOf .left width on inner o = [nullPadded o width] := by
        rw [rowsOf, if_pos ⟨rfl, hno⟩]
      rw [loopRows, if_pos ⟨rfl, hno⟩, sqlJoin, eq_comm, flatMap_eq_map (rowsOf_ne_nil rfl)]
      constructor
      · intro h pre u post hsplit _ p hp
        refine (rowsOf_left_iff p).1 (h p ?_)
        rw [hsplit]
        exact List.mem_append_right _ (List.mem_cons_of_mem _ hp)
      · intro h p hp
        rcases List.mem_cons.1 hp with rfl | hp
        · exact hrow
        · exact (rowsOf_left_iff p).2 (h [] o os rfl hno p hp)
    · have hrow : rowsOf .left width on inner o = matchesOf on inner o := by
        rw [rowsOf, if_neg fun h => hno h.2]
      rw [loopRows, if_neg fun h => hno h.2, sqlJoin, List.flatMap_cons, hrow,
        List.append_cancel_left_eq, ← sqlJoin, loopRows_left os]
      constructor
      · intro h pre u post hsplit hu p hp
        cases pre with
        | nil =>
          rw [List.nil_append, List.cons.injEq] at hsplit
          exact absurd (hsplit.1 ▸ hu) hno
        | cons x pre =>
          rw [List.cons_append, List.cons.injEq] at hsplit
          exact h pre u post hsplit.2 hu p hp
      · intro h pre u post hsplit hu p hp
        exact h (o :: pre) u post (by rw [hsplit]; rfl) hu p hp

end Sql

/-- **The nested-loop join is the SQL join** for INNER, and for LEFT exactly
when no outer tuple behind an unmatched one has a match (other than a single
inner tuple of NULLs). -/
theorem join_is_sqlJoin {p : Plan σ τ} {outer inner : List Row} {o₀ : σ} {i₀ : τ}
    {leftO : List Row → σ → Prop} {leftI : List Row → τ → Prop}
    (hO : Delivers p.outer outer o₀ leftO) (hI : Delivers p.inner inner i₀ leftI)
    (hev : Evaluates p.on outer inner) :
    p.Yields o₀ i₀ (sqlJoin p.joinType p.innerWidth p.on outer inner) ↔
      (p.joinType = .left → PaddedBehindUnmatched p.innerWidth p.on outer inner) := by
  rw [yields_iff hO hI hev]
  cases hjoin : p.joinType with
  | inner => exact ⟨fun _ h => JoinType.noConfusion h, fun _ => loopRows_inner outer⟩
  | left => exact (loopRows_left outer).trans ⟨fun h _ => h, fun h => h rfl⟩

/-! ## A list as a child -/

/-- A child over rows that are in memory. -/
def listChild (rows : List Row) : Executor (List Row) where
  openOp _ := .ok rows
  next s := .ok (s.head?, s.tail)

theorem delivers_listChild (rows s₀ : List Row) :
    Delivers (listChild rows) rows s₀ fun ys s => s = ys where
  opens _ _ := ⟨rows, rfl, rfl⟩
  row x xs s hs := ⟨xs, by simp [listChild, hs], rfl⟩
  done s hs := ⟨[], by simp [listChild, hs], rfl⟩

/-- `users u LEFT JOIN orders o ON u.id = o.user_id` on ids alone. -/
def usersOrders (users orders : List Int32) : Plan (List Row) (List Row) where
  outer := listChild (users.map fun n => [.int n])
  inner := listChild (orders.map fun n => [.int n])
  on row := .ok (.bool (row[0]? == row[1]?))
  joinType := .left
  innerWidth := 1

theorem evaluates_usersOrders (users orders : List Int32) :
    Evaluates (usersOrders users orders).on (users.map fun n => [.int n])
      (orders.map fun n => [.int n]) := fun _ _ _ _ => Or.inr ⟨_, rfl⟩

theorem join_is_sqlJoin_last : (usersOrders [1, 2] [1]).Yields [] []
    (sqlJoin .left 1 (usersOrders [1, 2] [1]).on [[.int 1], [.int 2]] [[.int 1]]) := by
  refine (join_is_sqlJoin (p := usersOrders [1, 2] [1]) (delivers_listChild _ _)
    (delivers_listChild _ _) (evaluates_usersOrders [1, 2] [1])).2 fun _ pre o post h hno q hq => ?_
  -- the only outer tuple with one behind it is user 1, who has an order
  have hhas : matchesOf (usersOrders [1, 2] [1]).on [[.int 1]] [.int 1] ≠ [] := by decide
  rcases pre with _ | ⟨_, _ | ⟨_, _ | _⟩⟩
  · obtain rfl : [.int 1] = o := (List.cons.inj h).1
    exact absurd hno hhas
  · have hpost := (List.cons.inj (List.cons.inj h).2).2
    rw [← hpost] at hq
    cases hq
  · simp at h
  · simp at h

/-- User 1 has no order and user 2 has one: user 2 comes out padded. -/
theorem left_join_loses_match : ¬ (usersOrders [1, 2] [2]).Yields [] []
    (sqlJoin .left 1 (usersOrders [1, 2] [2]).on [[.int 1], [.int 2]] [[.int 2]]) := by
  intro h
  have hrows := (yields_iff (p := usersOrders [1, 2] [2]) (delivers_listChild _ _)
    (delivers_listChild _ _) (evaluates_usersOrders [1, 2] [2]) _).1 h
  revert hrows
  decide

end Ccdb.Join
