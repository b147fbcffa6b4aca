import Ccdb.Exec.Aggregate
import Ccdb.Lib.StableSort
import Mathlib.Order.WithBot

/-!
# Ccdb — ORDER BY

`Sort` over any child executor. The keys of all rows are evaluated while the child is read,
and the entries are sorted with `compare_keys`, in which NULL is not a value like the others:
it comes last, or first if the key is descending.

Main results:

* `compareKeys_spec` — the comparison is the lexicographic order of the keys.
* `totalPreorder_compareKeys` — and a total preorder, as `sort_by` wants it.
* `sort_is_stable` — what the operator puts out.
-/

namespace Ccdb.Sort

open Join (Row Executor Delivers listChild delivers_listChild)
open HashAggregate (State new drain Left Runs rank delivers_of_buffer runs_of_delivers compareValues)
open StableSort (sortBy TotalPreorder Ordered KeepsTies)

/-! ## The operator -/

inductive OrderDir where
  | asc
  | desc
deriving DecidableEq, Repr

/-- `AnalyzedOrderBy`. -/
structure SortKey where
  expr : AnalyzedExpr
  dir : OrderDir

/-- The keys of `Sort`, and what its expressions are evaluated with. -/
structure Plan where
  keys : List SortKey
  build : Build
  arith : Arith

/-- The order of two values under one key. -/
def compareKey (b : Build) (dir : OrderDir) (x y : Value) : Except DbError Ordering :=
  match x, y with
  | .null, .null => .ok .eq
  | .null, _ => .ok (match dir with | .asc => .gt | .desc => .lt)
  | _, .null => .ok (match dir with | .asc => .lt | .desc => .gt)
  | x, y =>
    match compareValues b x y with
    | .ok o => .ok (match dir with | .asc => o | .desc => o.swap)
    -- the sum of an INTERVAL's fields overflowed
    | .error (.panic m) => .error (.panic m)
    | .error _ => .ok .eq

/-- `compare_keys`. -/
def compareKeys (b : Build) : List OrderDir → Row → Row → Except DbError Ordering
  | [], _, _ => .ok .eq
  | dir :: dirs, x :: xs, y :: ys => do
    let ord ← compareKey b dir x y
    if ord ≠ .eq then .ok ord
    else compareKeys b dirs xs ys
  | _ :: _, _, _ => .error (.panic "index out of bounds")

namespace Plan

variable (p : Plan)

/-- The sort keys of a tuple. -/
def keyvals (row : Row) : Except DbError Row :=
  p.keys.mapM fun k => evaluateExpr p.arith row k.expr

def dirs : List OrderDir := p.keys.map SortKey.dir

/-- The order of two entries. -/
def compareEntries (x y : Row × Row) : Except DbError Ordering :=
  compareKeys p.build p.dirs x.1 y.1

end Plan

section Operator

variable {σ : Type}

/-- The loop that reads the child. One unit of fuel is one call of its `next`. -/
def Plan.loop (p : Plan) (child : Executor σ) :
    Nat → List (Row × Row) → σ → Except DbError (List (Row × Row) × σ)
  | 0, _, _ => .error .diverge
  | fuel + 1, entries, s => do
    let (t, s) ← child.next s
    match t with
    | none => .ok (entries, s)
    | some t => do
      let keyvals ← p.keyvals t
      p.loop child fuel (entries ++ [(keyvals, t)]) s

/-- `Sort::build`. -/
def Plan.runBuild (p : Plan) (child : Executor σ) (fuel : Nat) (s : State σ) :
    Except DbError (State σ) := do
  let c ← child.openOp s.child
  let (entries, c) ← p.loop child fuel [] c
  let entries ← sortBy p.compareEntries entries
  return { s with child := c, rows := entries.map Prod.snd }

/-- `Sort` as an executor. -/
def sort (p : Plan) (child : Executor σ) (fuel : Nat) : Executor (State σ) where
  openOp s := do
    let s ← if s.initialized then .ok s
      else do
        let s ← p.runBuild child fuel s
        .ok { s with initialized := true }
    .ok { s with cursor := 0 }
  next s :=
    match s.rows[s.cursor]? with
    | none => .ok (none, s)
    | some t => .ok (some t, { s with cursor := s.cursor + 1 })

/-- The operator from `open` to the end. -/
def Plan.run (p : Plan) (child : Executor σ) (fuel : Nat) (s₀ : σ) : Except DbError (List Row) := do
  let s ← (sort p child fuel).openOp (new s₀)
  drain (sort p child fuel) fuel s

/-- The run ends and yields `rows`. -/
def Plan.Yields (p : Plan) (child : Executor σ) (s₀ : σ) (rows : List Row) : Prop :=
  ∃ n, ∀ fuel, n ≤ fuel → p.run child fuel s₀ = .ok rows

end Operator

/-! ## The order of the keys -/

/-- The place of a value among those of its type: NULL is above them all. -/
def place (v : Value) : WithTop (List Int) := if v = .null then ⊤ else (rank v : List Int)

/-- The value comes first under a key, NULL last if ascending and first if descending. -/
def Before : OrderDir → Value → Value → Prop
  | .asc, x, y => place x < place y
  | .desc, x, y => place y < place x

/-- The lexicographic order of the keys. -/
def Precedes : List OrderDir → Row → Row → Prop
  | dir :: dirs, x :: xs, y :: ys => Before dir x y ∨ ¬ Before dir y x ∧ Precedes dirs xs ys
  | _, _, _ => False

/-- The types whose values have an order of their own. -/
def Sortable (t : DataType) : Prop := t ∈ [.int, .varchar, .bool, .date, .time, .timestamp]

instance (t : DataType) : Decidable (Sortable t) := inferInstanceAs (Decidable (_ ∈ _))

section Order

variable {b : Build} {dir : OrderDir} {dirs : List OrderDir} {t : DataType} {ts : List DataType}
  {x y z : Value} {k k₁ k₂ k₃ : Row}

theorem Before.not_trans (hxy : ¬ Before dir x y) (hyz : ¬ Before dir y z) : ¬ Before dir x z := by
  cases dir with
  | asc => exact not_lt.2 (le_trans (not_lt.1 hyz) (not_lt.1 hxy))
  | desc => exact not_lt.2 (le_trans (not_lt.1 hxy) (not_lt.1 hyz))

theorem Precedes.not_trans : ∀ {dirs : List OrderDir} {k₁ k₂ k₃ : Row},
    ¬ Precedes dirs k₁ k₂ → ¬ Precedes dirs k₂ k₃ → k₂.length = dirs.length →
      ¬ Precedes dirs k₁ k₃
  | [], _, _, _, _, _, _ => id
  | _ :: _, [], _, _, _, _, _ => id
  | _ :: _, _ :: _, _, [], _, _, _ => id
  | _ :: _, _ :: _, [], _ :: _, _, _, hlen => by simp at hlen
  | dir :: dirs, x :: xs, y :: ys, z :: zs, h₁₂, h₂₃, hlen => by
    simp only [Precedes, not_or, not_and_or, not_not] at h₁₂ h₂₃ ⊢
    obtain ⟨hxy, h₁₂⟩ := h₁₂
    obtain ⟨hyz, h₂₃⟩ := h₂₃
    refine ⟨Before.not_trans hxy hyz, ?_⟩
    by_cases hzx : Before dir z x
    · exact Or.inl hzx
    · -- all three tie under the first key
      rcases h₁₂ with hyx | h₁₂
      · exact absurd hyx (Before.not_trans hyz hzx)
      rcases h₂₃ with hzy | h₂₃
      · exact absurd hzy (Before.not_trans hzx hxy)
      exact Or.inr (Precedes.not_trans h₁₂ h₂₃ (by simpa using hlen))

theorem place_null : place .null = ⊤ := rfl

theorem place_of_type (hx : x.dataType = some t) : place x = (rank x : List Int) := by
  rw [place, if_neg]
  rintro rfl
  cases hx

/-- Under one key the comparison is the order of the places. -/
theorem compareKey_spec (b : Build) (dir : OrderDir) (ht : Sortable t) (hx : HasType x t)
    (hy : HasType y t) :
    ∃ o, compareKey b dir x y = .ok o ∧ (o = .lt ↔ Before dir x y) ∧ (o = .gt ↔ Before dir y x) := by
  have hne : t ≠ .double ∧ t ≠ .interval := by
    constructor <;> rintro rfl <;> simp [Sortable] at ht
  have hlt : ∀ {v : Value}, v.dataType = some t → place v < ⊤ := fun hv => by
    rw [place_of_type hv]
    exact WithTop.coe_lt_top _
  have hnull : ∀ {v : Value}, v.dataType = some t → v ≠ .null := by
    rintro v hv rfl
    cases hv
  rcases hx with rfl | hx
  · rcases hy with rfl | hy
    · exact ⟨.eq, rfl, by cases dir <;> simp [Before], by cases dir <;> simp [Before]⟩
    · have hgt := hlt hy
      refine ⟨match dir with | .asc => .gt | .desc => .lt, ?_, ?_⟩
      · cases y with
        | null => cases hy
        | _ => rfl
      · cases dir <;> simp [Before, place_null, hgt, hgt.not_gt]
  · rcases hy with rfl | hy
    · have hgt := hlt hx
      refine ⟨match dir with | .asc => .lt | .desc => .gt, ?_, ?_⟩
      · cases x with
        | null => cases hx
        | _ => rfl
      · cases dir <;> simp [Before, place_null, hgt, hgt.not_gt]
    · obtain ⟨ord, hord, hcompares⟩ := HashAggregate.compareValues_compares b hne hx hy
      refine ⟨match dir with | .asc => ord | .desc => ord.swap, ?_, ?_⟩
      · unfold compareKey
        split
        · exact absurd rfl (hnull hx)
        · exact absurd rfl (hnull hx)
        · exact absurd rfl (hnull hy)
        · rw [hord]
      · have hplaces : (ord = .lt ↔ place x < place y) ∧ (ord = .gt ↔ place y < place x) := by
          rw [place_of_type hx, place_of_type hy, WithTop.coe_lt_coe, WithTop.coe_lt_coe]
          exact ⟨hcompares.eq_lt, hcompares.eq_gt⟩
        cases dir with
        | asc => exact hplaces
        | desc =>
          simp only [Before, Ordering.swap_eq_lt, Ordering.swap_eq_gt]
          exact hplaces.symm

/-- **The comparison is the lexicographic order of the keys.** -/
theorem compareKeys_spec (b : Build) : ∀ {dirs : List OrderDir} {ts : List DataType} {k₁ k₂ : Row},
    (∀ t ∈ ts, Sortable t) → List.Forall₂ HasType k₁ ts → List.Forall₂ HasType k₂ ts →
      ts.length = dirs.length → ∃ o, compareKeys b dirs k₁ k₂ = .ok o ∧
        (o = .lt ↔ Precedes dirs k₁ k₂) ∧ (o = .gt ↔ Precedes dirs k₂ k₁)
  | [], _, _, _, _, _, _, _ => ⟨.eq, rfl, by simp [Precedes], by simp [Precedes]⟩
  | dir :: dirs, t :: ts, x :: xs, y :: ys, hts, .cons hx hxs, .cons hy hys, hlen => by
    obtain ⟨o, ho, hlt, hgt⟩ := compareKey_spec b dir (hts t List.mem_cons_self) hx hy
    by_cases heq : o = .eq
    · subst heq
      obtain ⟨o', ho', hlt', hgt'⟩ := compareKeys_spec b
        (fun u hu => hts u (List.mem_cons_of_mem _ hu)) hxs hys (by simpa using hlen)
      have hnxy : ¬ Before dir x y := fun hxy => nomatch hlt.2 hxy
      have hnyx : ¬ Before dir y x := fun hyx => nomatch hgt.2 hyx
      refine ⟨o', ?_, by simp [Precedes, hnxy, hnyx, hlt'], by simp [Precedes, hnxy, hnyx, hgt']⟩
      rw [compareKeys, ho]
      exact ho'
    · refine ⟨o, ?_, ?_, ?_⟩
      · rw [compareKeys, ho]
        simp only [bind, Except.bind, ne_eq, heq, not_false_eq_true, if_true]
      · refine ⟨fun h => Or.inl (hlt.1 h), fun h => ?_⟩
        rcases h with h | ⟨h, -⟩
        · exact hlt.2 h
        · exact (by cases o <;> simp_all)
      · refine ⟨fun h => Or.inl (hgt.1 h), fun h => ?_⟩
        rcases h with h | ⟨h, -⟩
        · exact hgt.2 h
        · exact (by cases o <;> simp_all)

/-- **The comparison is a total preorder** on keys of the types. -/
theorem totalPreorder_compareKeys (b : Build) (hts : ∀ t ∈ ts, Sortable t)
    (hlen : ts.length = dirs.length) :
    TotalPreorder (compareKeys b dirs) (fun k => List.Forall₂ HasType k ts) where
  total x y hx hy := by
    obtain ⟨o, ho, hlt, hgt⟩ := compareKeys_spec b hts hx hy hlen
    obtain ⟨o', ho', hlt', hgt'⟩ := compareKeys_spec b hts hy hx hlen
    refine ⟨o, ho, ?_⟩
    have hswap : o' = o.swap := by
      cases o <;> cases o' <;> simp_all
    rw [ho', hswap]
  trans x y z hx hy hz hxy hyz := by
    obtain ⟨o, ho, -, hgt⟩ := compareKeys_spec b hts hx hy hlen
    obtain ⟨o', ho', -, hgt'⟩ := compareKeys_spec b hts hy hz hlen
    obtain ⟨o'', ho'', -, hgt''⟩ := compareKeys_spec b hts hx hz hlen
    rw [ho, ne_eq, Except.ok.injEq, hgt] at hxy
    rw [ho', ne_eq, Except.ok.injEq, hgt'] at hyz
    rw [ho'', ne_eq, Except.ok.injEq, hgt'']
    exact Precedes.not_trans hyz hxy (hy.length_eq.trans hlen)

end Order

/-! ## The operator over a child -/

section Run

variable {σ : Type} {p : Plan} {child : Executor σ} {rows ks : List Row} {s₀ : σ}
  {left : List Row → σ → Prop}

/-- The loop over a child that runs. -/
theorem loop_runs {ys : List Row} {s : σ} (h : Runs child s ys) (hks : ys.mapM p.keyvals = .ok ks) :
    ∃ s', ∀ fuel, ys.length < fuel → ∀ entries,
      p.loop child fuel entries s = .ok (entries ++ ks.zip ys, s') := by
  induction h generalizing ks with
  | @done s s' hnext =>
    cases hks
    refine ⟨s', fun fuel hfuel entries => ?_⟩
    obtain ⟨fuel, rfl⟩ := Nat.exists_eq_add_of_lt hfuel
    rw [Plan.loop, hnext]
    simp [bind, Except.bind]
  | @row s s₁ y ys hnext _ ih =>
    rw [List.mapM_cons] at hks
    obtain ⟨k, hk, hks⟩ := bind_ok.1 hks
    obtain ⟨ks', hks', hcons⟩ := bind_ok.1 hks
    cases hcons
    obtain ⟨s', hloop⟩ := ih hks'
    refine ⟨s', fun fuel hfuel entries => ?_⟩
    obtain ⟨fuel, rfl⟩ := Nat.exists_eq_add_of_lt hfuel
    rw [Plan.loop, hnext]
    simp only [bind, Except.bind, hk]
    rw [List.length_cons, hloop (ys.length + 1 + fuel) (by omega), List.append_assoc]
    rfl

/-- A sort of the rows is what the operator puts out. -/
theorem yields_sorted (h : Delivers child rows s₀ left) (hks : rows.mapM p.keyvals = .ok ks)
    {sorted : List (Row × Row)} (hsort : sortBy p.compareEntries (ks.zip rows) = .ok sorted) :
    p.Yields child s₀ (sorted.map Prod.snd) := by
  obtain ⟨c₁, hopen, hc₁⟩ := h.opens s₀ (Or.inl rfl)
  obtain ⟨c₂, hloop⟩ := loop_runs (runs_of_delivers h hc₁) hks
  refine ⟨max (rows.length + 1) ((sorted.map Prod.snd).length + 1), fun fuel hfuel => ?_⟩
  have hbuild : p.runBuild child fuel (new s₀) = .ok ⟨c₂, sorted.map Prod.snd, 0, false⟩ := by
    rw [Plan.runBuild, new, hopen]
    simp only [bind, Except.bind, hloop fuel (le_trans (le_max_left _ _) hfuel), List.nil_append,
      hsort]
    rfl
  have hdelivers : Delivers (sort p child fuel) (sorted.map Prod.snd) (new s₀)
      (Left (sorted.map Prod.snd)) := by
    refine delivers_of_buffer (c := c₂) (fun _ => rfl) ?_ fun s hinit => ?_
    · have hnew : (new s₀).initialized = false := rfl
      simp only [sort, hbuild, hnew, bind, Except.bind]
      rfl
    · simp [sort, hinit, bind, Except.bind]
  obtain ⟨s, hs, hleft⟩ := hdelivers.opens (new s₀) (Or.inl rfl)
  rw [Plan.run, hs]
  exact (runs_of_delivers hdelivers hleft).drain (le_trans (le_max_right _ _) hfuel)

/-- **ORDER BY is a stable sort** by the lexicographic order of its keys. -/
theorem sort_is_stable {ts : List DataType} (h : Delivers child rows s₀ left)
    (hks : rows.mapM p.keyvals = .ok ks) (hts : ∀ t ∈ ts, Sortable t)
    (hlen : ts.length = p.keys.length) (htyped : ∀ k ∈ ks, List.Forall₂ HasType k ts) :
    TotalPreorder (compareKeys p.build p.dirs) (· ∈ ks) ∧
      ∃ sorted : List (Row × Row), p.Yields child s₀ (sorted.map Prod.snd) ∧
        sorted.Perm (ks.zip rows) ∧
        sorted.Pairwise (fun e e' => ¬ Precedes p.dirs e'.1 e.1) ∧
        ∀ k, sorted.filter (fun e => e.1 = k) = (ks.zip rows).filter fun e => e.1 = k := by
  have hdirs : ts.length = p.dirs.length := by rw [hlen, Plan.dirs, List.length_map]
  have hpre := totalPreorder_compareKeys p.build hts hdirs
  have hfst : ∀ {e : Row × Row}, e ∈ ks.zip rows → List.Forall₂ HasType e.1 ts := fun he =>
    htyped _ (List.of_mem_zip he).1
  have hentries : TotalPreorder p.compareEntries (· ∈ ks.zip rows) :=
    (hpre.comap Prod.fst).mono fun e he => hfst he
  obtain ⟨sorted, hsort, hperm, hord, hties⟩ := StableSort.sortBy_spec hentries
  refine ⟨hpre.mono htyped, sorted, yields_sorted h hks hsort, hperm, ?_, fun k => ?_⟩
  · refine hord.imp_of_mem fun {e e'} he he' hle hprec => hle ?_
    obtain ⟨o, ho, -, hgt⟩ := compareKeys_spec p.build hts (hfst (hperm.subset he))
      (hfst (hperm.subset he')) hdirs
    rw [hgt.2 hprec] at ho
    exact ho
  · refine hties _ fun e he e' he' hk hk' => ?_
    obtain rfl := of_decide_eq_true hk
    have heq : e'.1 = e.1 := of_decide_eq_true hk'
    obtain ⟨o, ho, hswap⟩ := hentries.total e e he he
    rw [Plan.compareEntries] at ho hswap ⊢
    rw [heq, ho]
    rw [ho] at hswap
    cases o <;> cases hswap
    rfl

end Run

/-- `ORDER BY a DESC, b`. -/
def byFirstDesc : Plan :=
  ⟨[⟨.columnRef ⟨0, .int⟩, .desc⟩, ⟨.columnRef ⟨1, .varchar⟩, .asc⟩], .debug,
    arithmetic .debug noF64 chronoYears⟩

theorem sort_is_stable_byFirstDesc :
    let rows : List Row := [[.int 1, .varchar "y", .int 7], [.null, .varchar "x", .int 8],
      [.int 1, .varchar "y", .int 9], [.int 1, .varchar "x", .null]]
    ∃ sorted : List (Row × Row), byFirstDesc.Yields (listChild rows) [] (sorted.map Prod.snd) ∧
      sorted.Pairwise (fun e e' => ¬ Precedes [.desc, .asc] e'.1 e.1) ∧
      sorted.filter (fun e => e.1 = [.int 1, .varchar "y"]) =
        [([.int 1, .varchar "y"], [.int 1, .varchar "y", .int 7]),
          ([.int 1, .varchar "y"], [.int 1, .varchar "y", .int 9])] := by
  intro rows
  obtain ⟨-, sorted, hyields, -, hord, hties⟩ := sort_is_stable (p := byFirstDesc)
    (delivers_listChild rows [])
    (show rows.mapM byFirstDesc.keyvals = .ok [[.int 1, .varchar "y"], [.null, .varchar "x"],
      [.int 1, .varchar "y"], [.int 1, .varchar "x"]] by decide +kernel)
    (show ∀ t ∈ [.int, .varchar], Sortable t by decide)
    rfl
    (by
      intro k hk
      simp only [List.mem_cons, List.not_mem_nil, or_false] at hk
      rcases hk with rfl | rfl | rfl | rfl <;>
        exact .cons (by simp [HasType, Value.dataType]) (.cons (by simp [HasType, Value.dataType]) .nil))
  exact ⟨sorted, hyields, hord, (hties _).trans (by decide +kernel)⟩

end Ccdb.Sort
