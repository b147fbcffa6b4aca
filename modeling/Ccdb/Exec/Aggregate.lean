import Ccdb.Exec.Join
import Ccdb.Exec.Typing
import Ccdb.Lib.Grouping

/-!
# Ccdb — aggregation

`HashAggregate` over any child executor: two vectors, of the groups' keys and of their
accumulators, grown while the child is read. The keys are compared with the derived
equality of `Value`, which on DOUBLE is that of IEEE 754. Sums and counts are kept in
`i64` and put out in `i32`. The floating point operations are a parameter.

Main results:

* `step_iff` — one row more, for the two vectors and for the groups they stand for.
* `yields_iff_grouped` — one row for each key, folded from the rows with that key.
* `exactOrErr_iff` — when the emitted sums and counts are the exact ones.
* `sum_truncates` — two rows whose SUM comes out negative.
-/

namespace Ccdb.HashAggregate

open Join (Row Executor Delivers listChild delivers_listChild)
open BTree (cmpBytes f64Cmp boolRank)
open Grouping (Groups groups)

/-! ## Accumulators -/

/-- The DOUBLE operations, with `n as f64`. -/
structure AggF64 extends F64Ops where
  ofI64 : Int64 → UInt64

def noAggF64 : AggF64 := ⟨noF64, fun _ => 0⟩

inductive AggKind where
  | count
  | sum
  | avg
  | min
  | max
deriving DecidableEq, Repr

/-- `AnalyzedAggregate`; no argument is `*`. -/
structure AnalyzedAggregate where
  kind : AggKind
  arg : Option AnalyzedExpr

inductive AggState where
  | count (n : Int64)
  | sumInt (sum : Int64) (any : Bool)
  | sumDouble (sum : UInt64) (any : Bool)
  | avgInt (sum n : Int64)
  | avgDouble (sum : UInt64) (n : Int64)
  | min (cur : Option Value)
  | max (cur : Option Value)
deriving DecidableEq, Repr

/-- `AggState::init`. -/
def AggState.init (agg : AnalyzedAggregate) : AggState :=
  match agg.kind with
  | .count => .count 0
  | .sum => if agg.arg.bind AnalyzedExpr.dataType = some .double then .sumDouble 0 false else .sumInt 0 false
  | .avg => if agg.arg.bind AnalyzedExpr.dataType = some .double then .avgDouble 0 0 else .avgInt 0 0
  | .min => .min none
  | .max => .max none

/-- The microseconds `compare_values` orders intervals by. -/
def intervalTotal (b : Build) (months days : Int32) (micros : Int64) : Except DbError Int64 := do
  let m ← b.i64 "multiply" (months.toInt * 30)
  let m ← b.i64 "multiply" (m.toInt * DAY_US)
  let d ← b.i64 "multiply" (days.toInt * DAY_US)
  let md ← b.i64 "add" (m.toInt + d.toInt)
  b.i64 "add" (md.toInt + micros.toInt)

/-- `compare_values` of the executor, its message without the operands. -/
def compareValues (b : Build) (x y : Value) : Except DbError Ordering :=
  match x, y with
  | .int x, .int y => .ok (cmp x.toInt y.toInt)
  | .varchar x, .varchar y => .ok (cmpBytes (stringBytes x) (stringBytes y))
  | .bool x, .bool y => .ok (cmp (boolRank x) (boolRank y))
  | .double x, .double y => .ok (f64Cmp x y)
  | .int x, .double y => .ok (f64Cmp (doubleBits x) y)
  | .double x, .int y => .ok (f64Cmp x (doubleBits y))
  | .timestamp x, .timestamp y => .ok (cmp x.toInt y.toInt)
  | .date x, .date y => .ok (cmp x.toInt y.toInt)
  | .time x, .time y => .ok (cmp x.toInt y.toInt)
  | .interval m₁ d₁ u₁, .interval m₂ d₂ u₂ => do
    let total₁ ← intervalTotal b m₁ d₁ u₁
    let total₂ ← intervalTotal b m₂ d₂ u₂
    return cmp total₁.toInt total₂.toInt
  | _, _ => .error (.bail "cannot compare")

/-- The arms of MIN and MAX: a value replaces the current one when it compares as `o`. -/
def replace (b : Build) (o : Ordering) (cur arg : Option Value) : Except DbError (Option Value) :=
  match arg, cur with
  | none, cur => .ok cur
  | some .null, cur => .ok cur
  | some v, none => .ok (some v)
  | some v, some c => do
    let ord ← compareValues b v c
    return if ord = o then some v else some c

def notSupported (what : String) : DbError := .bail s!"{what} not supported"

/-- `AggState::update`, its messages without the operand. -/
def AggState.update (b : Build) (f : AggF64) (s : AggState) (arg : Option Value) :
    Except DbError AggState :=
  match s with
  | .count n =>
    match arg with
    | some .null => .ok (.count n)
    | _ => return .count (← b.i64 "add" (n.toInt + 1))
  | .sumInt sum any =>
    match arg with
    | none | some .null => .ok (.sumInt sum any)
    | some (.int i) => return .sumInt (← b.i64 "add" (sum.toInt + i.toInt)) true
    | some _ => .error (notSupported "SUM(INT)")
  | .sumDouble sum any =>
    match arg with
    | none | some .null => .ok (.sumDouble sum any)
    | some (.double d) => .ok (.sumDouble (f.add sum d) true)
    | some (.int i) => .ok (.sumDouble (f.add sum (doubleBits i)) true)
    | some _ => .error (notSupported "SUM(DOUBLE)")
  | .avgInt sum n =>
    match arg with
    | none | some .null => .ok (.avgInt sum n)
    | some (.int i) => do
      let sum ← b.i64 "add" (sum.toInt + i.toInt)
      let n ← b.i64 "add" (n.toInt + 1)
      return .avgInt sum n
    | some _ => .error (notSupported "AVG(INT)")
  | .avgDouble sum n =>
    match arg with
    | none | some .null => .ok (.avgDouble sum n)
    | some (.double d) => return .avgDouble (f.add sum d) (← b.i64 "add" (n.toInt + 1))
    | some (.int i) => return .avgDouble (f.add sum (doubleBits i)) (← b.i64 "add" (n.toInt + 1))
    | some _ => .error (notSupported "AVG(DOUBLE)")
  | .min cur => return .min (← replace b .lt cur arg)
  | .max cur => return .max (← replace b .gt cur arg)

/-- `AggState::finalize`; `n as i32` keeps the low 32 bits. -/
def AggState.finalize (f : AggF64) : AggState → Value
  | .count n => .int n.toInt32
  | .sumInt sum any => if any then .int sum.toInt32 else .null
  | .sumDouble sum any => if any then .double sum else .null
  | .avgInt sum n => if n = 0 then .null else .double (f.div (f.ofI64 sum) (f.ofI64 n))
  | .avgDouble sum n => if n = 0 then .null else .double (f.div sum (f.ofI64 n))
  | .min v => v.getD .null
  | .max v => v.getD .null

/-! ## The operator -/

/-- What `HashAggregate` has fixed, and what its expressions are evaluated with. -/
structure Plan where
  groupKeys : List AnalyzedExpr
  aggregates : List AnalyzedAggregate
  build : Build
  f64 : AggF64
  arith : Arith

/-- The local `keys` and `states`. -/
structure Table where
  keys : List Row
  states : List (List AggState)

/-- The derived `PartialEq` of `Value`. -/
def valueEq : Value → Value → Bool
  | .double x, .double y => f64PartialCmp x y == some .eq
  | x, y => x == y

/-- `k == &key`. -/
def keysEq (k key : Row) : Bool := k.isEqv key valueEq

namespace Plan

variable (p : Plan)

def keyOf (row : Row) : Except DbError Row := p.groupKeys.mapM (evaluateExpr p.arith row)

/-- One aggregate's turn of the inner loop. -/
def feed (agg : AnalyzedAggregate) (row : Row) (s : AggState) : Except DbError AggState :=
  match agg.arg with
  | none => s.update p.build p.f64 none
  | some e => do
    let v ← evaluateExpr p.arith row e
    s.update p.build p.f64 (some v)

/-- The inner loop, over the aggregates and their `states[group_idx]`. -/
def feedAll (row : Row) : List AnalyzedAggregate → List AggState → Except DbError (List AggState)
  | [], ss => .ok ss
  | _ :: _, [] => .error (.panic "index out of bounds")
  | agg :: aggs, s :: ss => do
    let s ← p.feed agg row s
    let ss ← feedAll row aggs ss
    return s :: ss

def initial : List AggState := p.aggregates.map AggState.init

/-- The vectors with a group for the key, and its place. -/
def findOrPush (tbl : Table) (key : Row) : Nat × Table :=
  match tbl.keys.findIdx? (keysEq · key) with
  | some i => (i, tbl)
  | none => (tbl.keys.length, ⟨tbl.keys ++ [key], tbl.states ++ [p.initial]⟩)

/-- One turn of the outer loop. -/
def step (tbl : Table) (row : Row) : Except DbError Table := do
  let key ← p.keyOf row
  let (i, tbl) := p.findOrPush tbl key
  match tbl.states[i]? with
  | none => .error (.panic "index out of bounds")
  | some ss => do
    let ss ← p.feedAll row p.aggregates ss
    return { tbl with states := tbl.states.set i ss }

/-- The rows of the vectors; an empty input has one group if there are no keys. -/
def finish (sawAnyInput : Bool) (tbl : Table) : List Row :=
  let tbl := if sawAnyInput = false ∧ p.groupKeys = [] ∧ p.aggregates ≠ [] then
      ⟨tbl.keys ++ [[]], tbl.states ++ [p.initial]⟩
    else tbl
  (tbl.keys.zip tbl.states).map fun (k, ss) => k ++ ss.map (AggState.finalize p.f64)

end Plan

/-- The fields of `HashAggregate` that change. -/
structure State (σ : Type) where
  child : σ
  rows : List Row
  cursor : Nat
  initialized : Bool

section Operator

variable {σ : Type}

/-- The outer loop. One unit of fuel is one call of the child's `next`. -/
def Plan.loop (p : Plan) (child : Executor σ) :
    Nat → Bool → Table → σ → Except DbError (Bool × Table × σ)
  | 0, _, _, _ => .error .diverge
  | fuel + 1, saw, tbl, s => do
    let (t, s) ← child.next s
    match t with
    | none => .ok (saw, tbl, s)
    | some row => do
      let tbl ← p.step tbl row
      p.loop child fuel true tbl s

/-- `HashAggregate::build`. -/
def Plan.runBuild (p : Plan) (child : Executor σ) (fuel : Nat) (s : State σ) :
    Except DbError (State σ) := do
  let c ← child.openOp s.child
  let (saw, tbl, c) ← p.loop child fuel false ⟨[], []⟩ c
  return { s with child := c, rows := s.rows ++ p.finish saw tbl }

/-- `HashAggregate` as an executor. -/
def hashAggregate (p : Plan) (child : Executor σ) (fuel : Nat) : Executor (State σ) where
  openOp s := do
    let s ← if s.initialized then .ok s
      else do
        let s ← p.runBuild child fuel s
        .ok { s with initialized := true }
    .ok { s with cursor := 0 }
  next s :=
    match s.rows[s.cursor]? with
    | none => .ok (none, s)
    | some t => .ok (some t, { s with cursor := s.cursor + 1 })

/-- `HashAggregate::new`. -/
def new (child : σ) : State σ := ⟨child, [], 0, false⟩

/-- `next` until it returns `None`. One unit of fuel is one call. -/
def drain (e : Executor σ) : Nat → σ → Except DbError (List Row)
  | 0, _ => .error .diverge
  | fuel + 1, s => do
    let (t, s) ← e.next s
    match t with
    | none => .ok []
    | some row => do
      let rest ← drain e fuel s
      return row :: rest

/-- The operator from `open` to the end. -/
def Plan.run (p : Plan) (child : Executor σ) (fuel : Nat) (s₀ : σ) : Except DbError (List Row) := do
  let s ← (hashAggregate p child fuel).openOp (new s₀)
  drain (hashAggregate p child fuel) fuel s

/-- The run ends with this outcome. -/
def Plan.Ends (p : Plan) (child : Executor σ) (s₀ : σ) (o : Except DbError (List Row)) : Prop :=
  ∃ n, ∀ fuel, n ≤ fuel → p.run child fuel s₀ = o

end Operator

/-! ## The groups -/

namespace Plan

variable (p : Plan)

/-- One aggregate over the rows of one group. -/
def column (agg : AnalyzedAggregate) (rows : List Row) : Except DbError AggState :=
  rows.foldlM (fun s row => p.feed agg row s) (AggState.init agg)

/-- The accumulators of a group are those of its rows. -/
def Columns (rows : List Row) (ss : List AggState) : Prop :=
  List.Forall₂ (fun agg s => p.column agg rows = .ok s) p.aggregates ss

/-- **The invariant of the scan**: the two vectors are the keys and the accumulators of
the same groups. -/
structure Tracks (gs : Groups Row Row) (tbl : Table) : Prop where
  keys : tbl.keys = gs.map Prod.fst
  states : List.Forall₂ (fun g ss => p.Columns g.2 ss) gs tbl.states

end Plan

section Lists

variable {α β : Type} {R : α → β → Prop} {as : List α} {bs bs' : List β} {a : α}

theorem forall₂_set_iff (hfun : ∀ a b b', R a b → R a b' → b = b') (h : List.Forall₂ R as bs)
    {i : Nat} (hi : i < as.length) :
    List.Forall₂ R (as.set i a) bs' ↔ ∃ b, R a b ∧ bs' = bs.set i b := by
  induction h generalizing i bs' with
  | nil => exact absurd hi (Nat.not_lt_zero i)
  | @cons x y xs ys hxy hrest ih =>
    cases i with
    | zero =>
      rw [List.set_cons_zero]
      constructor
      · intro h
        obtain ⟨b, bs₁, hb, hbs, rfl⟩ := List.forall₂_cons_left_iff.1 h
        refine ⟨b, hb, ?_⟩
        rw [List.set_cons_zero, List.right_unique_forall₂' hfun hbs hrest]
      · rintro ⟨b, hb, rfl⟩
        exact .cons hb hrest
    | succ i =>
      rw [List.set_cons_succ]
      constructor
      · intro h
        obtain ⟨b, bs₁, hb, hbs, rfl⟩ := List.forall₂_cons_left_iff.1 h
        obtain ⟨b', hb', rfl⟩ := (ih (Nat.lt_of_succ_lt_succ hi)).1 hbs
        exact ⟨b', hb', by rw [List.set_cons_succ, hfun x b y hb hxy]⟩
      · rintro ⟨b, hb, rfl⟩
        exact .cons hxy ((ih (Nat.lt_of_succ_lt_succ hi)).2 ⟨b, hb, rfl⟩)

theorem forall₂_concat_iff (hfun : ∀ a b b', R a b → R a b' → b = b') (h : List.Forall₂ R as bs) :
    List.Forall₂ R (as ++ [a]) bs' ↔ ∃ b, R a b ∧ bs' = bs ++ [b] := by
  constructor
  · intro h'
    have h₁ := List.forall₂_take as.length h'
    have h₂ := List.forall₂_drop as.length h'
    rw [List.take_left] at h₁
    rw [List.drop_left] at h₂
    obtain ⟨b, bs₁, hb, hbs, hdrop⟩ := List.forall₂_cons_left_iff.1 h₂
    cases hbs
    refine ⟨b, hb, ?_⟩
    rw [← List.take_append_drop as.length bs', hdrop, List.right_unique_forall₂' hfun h₁ h]
  · rintro ⟨b, hb, rfl⟩
    exact List.rel_append h (.cons hb .nil)

theorem exists_of_forall₂ (h : List.Forall₂ R as bs) (ha : a ∈ as) : ∃ b ∈ bs, R a b := by
  induction h with
  | nil => cases ha
  | @cons a' b' _ _ hab _ ih =>
    rcases List.mem_cons.1 ha with rfl | ha
    · exact ⟨b', List.mem_cons_self, hab⟩
    · obtain ⟨b, hb, hab⟩ := ih ha
      exact ⟨b, List.mem_cons_of_mem _ hb, hab⟩

end Lists

section Scan

variable {p : Plan} {agg : AnalyzedAggregate} {rows : List Row} {row key : Row}
  {ss ss' : List AggState} {gs : Groups Row Row} {tbl tbl' : Table}

theorem column_concat : p.column agg (rows ++ [row]) = p.column agg rows >>= p.feed agg row := by
  rw [Plan.column, List.foldlM_append]
  refine congrArg _ (funext fun s => ?_)
  simp

theorem column_fun {s s' : AggState} (h : p.column agg rows = .ok s)
    (h' : p.column agg rows = .ok s') : s = s' :=
  Except.ok.inj (h.symm.trans h')

theorem columns_fun (h : p.Columns rows ss) (h' : p.Columns rows ss') : ss = ss' :=
  List.right_unique_forall₂' (R := fun agg s => p.column agg rows = .ok s)
    (fun _ _ _ => column_fun) h h'

theorem columns_initial : p.Columns [] p.initial := by
  rw [Plan.Columns, Plan.initial, List.forall₂_map_right_iff]
  exact List.forall₂_same.2 fun agg _ => rfl

/-- One row more, for every accumulator of its group. -/
theorem feedAll_iff (h : p.Columns rows ss) :
    p.feedAll row p.aggregates ss = .ok ss' ↔ p.Columns (rows ++ [row]) ss' := by
  have hall : ∀ {aggs : List AnalyzedAggregate} {ss ss' : List AggState},
      List.Forall₂ (fun agg s => p.column agg rows = .ok s) aggs ss →
      (p.feedAll row aggs ss = .ok ss' ↔
        List.Forall₂ (fun agg s => p.column agg (rows ++ [row]) = .ok s) aggs ss') := by
    intro aggs ss ss' h
    induction h generalizing ss' with
    | nil =>
      rw [List.forall₂_nil_left_iff]
      exact ⟨fun h => by cases h; rfl, fun h => by rw [h]; rfl⟩
    | @cons agg s aggs ss hs hrest ih =>
      rw [List.forall₂_cons_left_iff, Plan.feedAll, bind_ok]
      have hnew : ∀ s', p.column agg (rows ++ [row]) = .ok s' ↔ p.feed agg row s = .ok s' := by
        intro s'
        rw [column_concat, hs]
        rfl
      constructor
      · rintro ⟨s', hs', h⟩
        obtain ⟨rest, hrest', h⟩ := bind_ok.1 h
        cases h
        exact ⟨s', rest, (hnew s').2 hs', ih.1 hrest', rfl⟩
      · rintro ⟨s', rest, hs', hrest', rfl⟩
        exact ⟨s', (hnew s').1 hs', bind_ok.2 ⟨rest, ih.2 hrest', rfl⟩⟩
  exact hall h

/-- **One row more**: the vectors go on to stand for the groups. -/
theorem step_iff (h : p.Tracks gs tbl) (hkey : p.keyOf row = .ok key) :
    p.step tbl row = .ok tbl' ↔ p.Tracks (Grouping.add keysEq key row gs) tbl' := by
  have hfun : ∀ (g : Row × List Row) (ss ss' : List AggState), p.Columns g.2 ss →
      p.Columns g.2 ss' → ss = ss' := fun _ _ _ => columns_fun
  have hstep : p.step tbl row = (match (p.findOrPush tbl key).2.states[(p.findOrPush tbl key).1]? with
      | none => .error (.panic "index out of bounds")
      | some ss => do
        let ss ← p.feedAll row p.aggregates ss
        return { (p.findOrPush tbl key).2 with
          states := (p.findOrPush tbl key).2.states.set (p.findOrPush tbl key).1 ss }) := by
    rw [Plan.step, hkey]
    rfl
  rw [hstep]
  cases hfind : tbl.keys.findIdx? (keysEq · key) with
  | some i =>
    obtain ⟨g, hg, hadd, hkeys⟩ := Grouping.add_of_findIdx?_some (x := row) (h.keys ▸ hfind)
    obtain ⟨hi, hgi⟩ := List.getElem?_eq_some_iff.1 hg
    have hi' : i < tbl.states.length := h.states.length_eq ▸ hi
    have hcolumns : p.Columns g.2 tbl.states[i] := by
      have hget := h.states.get hi hi'
      rw [List.get_eq_getElem, hgi] at hget
      exact hget
    have hset : List.Forall₂ (fun g ss => p.Columns g.2 ss) (Grouping.add keysEq key row gs) tbl'.states ↔
        ∃ ss, p.Columns (g.2 ++ [row]) ss ∧ tbl'.states = tbl.states.set i ss := by
      rw [hadd]
      exact forall₂_set_iff hfun h.states hi
    simp only [Plan.findOrPush, hfind, List.getElem?_eq_getElem hi', bind_ok]
    constructor
    · rintro ⟨ss', hss', htbl⟩
      cases htbl
      exact ⟨h.keys.trans hkeys.symm, hset.2 ⟨ss', (feedAll_iff hcolumns).1 hss', rfl⟩⟩
    · intro h'
      obtain ⟨ss', hss', hstates⟩ := hset.1 h'.states
      refine ⟨ss', (feedAll_iff hcolumns).2 hss', ?_⟩
      rw [← hstates, h.keys, ← hkeys, ← h'.keys]
      rfl
  | none =>
    have hadd := Grouping.add_of_findIdx?_none (x := row) (h.keys ▸ hfind)
    have hlen : tbl.keys.length = tbl.states.length := by
      rw [h.keys, List.length_map, h.states.length_eq]
    have hconcat : List.Forall₂ (fun g ss => p.Columns g.2 ss) (gs ++ [(key, [row])]) tbl'.states ↔
        ∃ ss, p.Columns [row] ss ∧ tbl'.states = tbl.states ++ [ss] :=
      forall₂_concat_iff hfun h.states
    have hkeys : (gs ++ [(key, [row])]).map Prod.fst = tbl.keys ++ [key] := by
      rw [List.map_append, h.keys]
      rfl
    rw [hadd]
    simp only [Plan.findOrPush, hfind, hlen, List.getElem?_concat_length, bind_ok]
    constructor
    · rintro ⟨ss', hss', htbl⟩
      cases htbl
      refine ⟨hkeys.symm, hconcat.2 ⟨ss', (feedAll_iff columns_initial).1 hss', ?_⟩⟩
      simp
    · intro h'
      obtain ⟨ss', hss', hstates⟩ := hconcat.1 h'.states
      refine ⟨ss', (feedAll_iff columns_initial).2 hss', ?_⟩
      rw [List.set_append_right _ _ le_rfl, Nat.sub_self, List.set_cons_zero, ← hstates, ← hkeys,
        ← h'.keys]
      rfl

/-- The rows before the last one had accumulators as well. -/
theorem columns_of_concat (h : p.Columns (rows ++ [row]) ss) : ∃ ss, p.Columns rows ss := by
  have hall : ∀ {aggs : List AnalyzedAggregate} {ss : List AggState},
      List.Forall₂ (fun agg s => p.column agg (rows ++ [row]) = .ok s) aggs ss →
      ∃ ss, List.Forall₂ (fun agg s => p.column agg rows = .ok s) aggs ss := by
    intro aggs ss h
    induction h with
    | nil => exact ⟨[], .nil⟩
    | cons hs _ ih =>
      rw [column_concat] at hs
      obtain ⟨s, hs, -⟩ := bind_ok.1 hs
      obtain ⟨ss, hss⟩ := ih
      exact ⟨s :: ss, .cons hs hss⟩
  exact hall h

theorem exists_tracks (h : ∀ g ∈ gs, ∃ ss, p.Columns g.2 ss) : ∃ tbl, p.Tracks gs tbl := by
  induction gs with
  | nil => exact ⟨⟨[], []⟩, rfl, .nil⟩
  | cons g gs ih =>
    obtain ⟨ss, hss⟩ := h g List.mem_cons_self
    obtain ⟨tbl, hkeys, hstates⟩ := ih fun g' hg' => h g' (List.mem_cons_of_mem _ hg')
    exact ⟨⟨g.1 :: tbl.keys, ss :: tbl.states⟩, congrArg _ hkeys, .cons hss hstates⟩

theorem Plan.Tracks.columns (h : p.Tracks gs tbl) {g : Row × List Row} (hg : g ∈ gs) :
    ∃ ss, p.Columns g.2 ss := by
  obtain ⟨ss, -, hss⟩ := exists_of_forall₂ h.states hg
  exact ⟨ss, hss⟩

/-- The groups before the last row had vectors as well. -/
theorem exists_tracks_of_add (h : p.Tracks (Grouping.add keysEq key row gs) tbl') :
    ∃ tbl, p.Tracks gs tbl := by
  refine exists_tracks fun g hg => ?_
  have hmem : g ∈ Grouping.add keysEq key row gs ∨ (g.1, g.2 ++ [row]) ∈ Grouping.add keysEq key row gs :=
    Grouping.mem_add_of_mem hg
  rcases hmem with hg | hg
  · exact h.columns hg
  · obtain ⟨ss, hss⟩ := h.columns hg
    exact columns_of_concat hss

/-- One result for each element. -/
theorem forall₂_of_mapM {α β : Type} {f : α → Except DbError β} : ∀ {as : List α} {bs : List β},
    as.mapM f = .ok bs → List.Forall₂ (fun b a => f a = .ok b) bs as
  | [], bs, h => by
    cases h
    exact .nil
  | a :: as, bs, h => by
    rw [List.mapM_cons] at h
    obtain ⟨b, hb, h⟩ := bind_ok.1 h
    obtain ⟨bs', hbs, h⟩ := bind_ok.1 h
    cases h
    exact .cons hb (forall₂_of_mapM hbs)

theorem length_of_mapM {α β : Type} {f : α → Except DbError β} {as : List α} {bs : List β}
    (h : as.mapM f = .ok bs) : bs.length = as.length :=
  (forall₂_of_mapM h).length_eq

theorem mem_of_mapM {α β : Type} {f : α → Except DbError β} {as : List α} {bs : List β} {b : β}
    (h : as.mapM f = .ok bs) (hb : b ∈ bs) : ∃ a ∈ as, f a = .ok b := by
  replace h := forall₂_of_mapM h
  induction h with
  | nil => cases hb
  | @cons b' a' _ _ hrow _ ih =>
    rcases List.mem_cons.1 hb with rfl | hb
    · exact ⟨a', List.mem_cons_self, hrow⟩
    · obtain ⟨a, hmem, hrow⟩ := ih hb
      exact ⟨a, List.mem_cons_of_mem _ hmem, hrow⟩

/-- **The scan**: its vectors stand for the groups of the rows. -/
theorem scan_iff : rows.foldlM p.step ⟨[], []⟩ = .ok tbl ↔
    ∃ ks, rows.mapM p.keyOf = .ok ks ∧ p.Tracks (groups keysEq (ks.zip rows)) tbl := by
  induction rows using List.reverseRecOn generalizing tbl with
  | nil =>
    constructor
    · intro h
      cases h
      exact ⟨[], rfl, rfl, .nil⟩
    · rintro ⟨ks, hks, htracks⟩
      cases hks
      obtain ⟨keys, states⟩ := tbl
      obtain ⟨hkeys, hstates⟩ := htracks
      cases hkeys
      cases hstates
      rfl
  | append_singleton rows row ih =>
    have hzip : ∀ {ks : List Row} (k : Row), rows.mapM p.keyOf = .ok ks →
        groups keysEq ((ks ++ [k]).zip (rows ++ [row])) =
          Grouping.add keysEq k row (groups keysEq (ks.zip rows)) := by
      intro ks k hks
      rw [List.zip_append (length_of_mapM hks)]
      exact Grouping.groups_concat _ (k, row)
    rw [List.foldlM_append, bind_ok]
    simp only [List.foldlM_cons, List.foldlM_nil, bind_pure, List.mapM_append, List.mapM_cons,
      List.mapM_nil, bind_ok]
    constructor
    · rintro ⟨tbl₁, htbl₁, hstep⟩
      obtain ⟨ks, hks, htracks⟩ := ih.1 htbl₁
      obtain ⟨k, hk, -⟩ := bind_ok.1 hstep
      refine ⟨ks ++ [k], ⟨ks, hks, [k], ⟨k, hk, [], rfl, rfl⟩, rfl⟩, ?_⟩
      rw [hzip k hks]
      exact (step_iff htracks hk).1 hstep
    · rintro ⟨ks', ⟨ks, hks, k', ⟨k, hk, rest, hrest, hk'⟩, happend⟩, htracks'⟩
      cases hrest
      cases hk'
      cases happend
      rw [hzip k hks] at htracks'
      obtain ⟨tbl₁, htracks⟩ := exists_tracks_of_add htracks'
      exact ⟨tbl₁, ih.2 ⟨ks, hks, htracks⟩, (step_iff htracks hk).2 htracks'⟩

end Scan

/-! ## The output -/

namespace Plan

variable (p : Plan)

/-- The operator over rows that are all there. -/
def buildRows (rows : List Row) : Except DbError (List Row) := do
  let tbl ← rows.foldlM p.step ⟨[], []⟩
  return p.finish (!rows.isEmpty) tbl

/-- An input without rows and an aggregation without keys. -/
def OneGroup (rows : List Row) : Prop := rows = [] ∧ p.groupKeys = [] ∧ p.aggregates ≠ []

instance (rows : List Row) : Decidable (p.OneGroup rows) := inferInstanceAs (Decidable (_ ∧ _ ∧ _))

/-- The groups that are put out. -/
def outputGroups (ks rows : List Row) : Groups Row Row :=
  if p.OneGroup rows then [([], [])] else groups keysEq (ks.zip rows)

/-- One row for each group: its key, and its aggregates. -/
def Output (gs : Groups Row Row) (out : List Row) : Prop :=
  List.Forall₂ (fun g row => ∃ ss, p.Columns g.2 ss ∧ row = g.1 ++ ss.map (AggState.finalize p.f64)) gs out

end Plan

section Output

variable {p : Plan} {rows out : List Row} {gs : Groups Row Row} {tbl : Table}

theorem output_iff (h : p.Tracks gs tbl) : p.Output gs out ↔
    out = (tbl.keys.zip tbl.states).map fun (k, ss) => k ++ ss.map (AggState.finalize p.f64) := by
  obtain ⟨keys, states⟩ := tbl
  obtain ⟨hkeys, hstates⟩ := h
  dsimp only at hkeys hstates ⊢
  subst hkeys
  unfold Plan.Output
  induction hstates generalizing out with
  | nil => rw [List.forall₂_nil_left_iff, List.map_nil, List.zip_nil_left, List.map_nil]
  | @cons g ss gs states hss _ ih =>
    rw [List.forall₂_cons_left_iff, List.map_cons, List.zip_cons_cons, List.map_cons]
    constructor
    · rintro ⟨row, rest, ⟨ss', hss', rfl⟩, hrest, rfl⟩
      rw [columns_fun hss hss', ih.1 hrest]
    · rintro rfl
      exact ⟨_, _, ⟨ss, hss, rfl⟩, ih.2 rfl, rfl⟩

/-- **What is put out**: the rows of the groups, the accumulators folded group by group. -/
theorem buildRows_iff : p.buildRows rows = .ok out ↔
    ∃ ks, rows.mapM p.keyOf = .ok ks ∧ p.Output (p.outputGroups ks rows) out := by
  have hfinish : ∀ {ks : List Row} {tbl : Table}, rows.mapM p.keyOf = .ok ks →
      p.Tracks (groups keysEq (ks.zip rows)) tbl →
      (p.Output (p.outputGroups ks rows) out ↔ out = p.finish (!rows.isEmpty) tbl) := by
    intro ks tbl hks h
    unfold Plan.outputGroups Plan.finish
    by_cases hone : p.OneGroup rows
    · obtain ⟨rfl, hnone, hsome⟩ := hone
      cases hks
      rw [if_pos ⟨rfl, hnone, hsome⟩, if_pos ⟨rfl, hnone, hsome⟩]
      refine output_iff ⟨?_, ?_⟩
      · rw [h.keys]
        rfl
      · exact List.rel_append h.states (.cons columns_initial .nil)
    · have hsaw : ¬ ((!rows.isEmpty) = false ∧ p.groupKeys = [] ∧ p.aggregates ≠ []) := fun hall =>
        hone ⟨by simpa using hall.1, hall.2⟩
      rw [if_neg hone, if_neg hsaw]
      exact output_iff h
  rw [Plan.buildRows, bind_ok]
  constructor
  · rintro ⟨tbl, htbl, hout⟩
    obtain ⟨ks, hks, htracks⟩ := scan_iff.1 htbl
    cases hout
    exact ⟨ks, hks, (hfinish hks htracks).2 rfl⟩
  · rintro ⟨ks, hks, hout⟩
    have hcolumns : ∀ g ∈ groups keysEq (ks.zip rows), ∃ ss, p.Columns g.2 ss := by
      intro g hg
      by_cases hone : p.OneGroup rows
      · rw [hone.1, List.zip_nil_right] at hg
        cases hg
      · rw [Plan.outputGroups, if_neg hone] at hout
        obtain ⟨row, -, ss, hss, -⟩ := exists_of_forall₂ hout hg
        exact ⟨ss, hss⟩
    obtain ⟨tbl, htracks⟩ := exists_tracks hcolumns
    exact ⟨tbl, scan_iff.2 ⟨ks, hks, htracks⟩, by rw [(hfinish hks htracks).1 hout]; rfl⟩

end Output

/-! ## The operator over a child -/

section Run

variable {σ : Type} {p : Plan} {child : Executor σ} {rows out : List Row} {s₀ : σ}
  {left : List Row → σ → Prop}

/-- Calls of `next` from the state return the rows and then `None`. -/
inductive Runs (e : Executor σ) : σ → List Row → Prop where
  | done {s s' : σ} (h : e.next s = .ok (none, s')) : Runs e s []
  | row {s s' : σ} {y : Row} {ys : List Row} (h : e.next s = .ok (some y, s')) (hrest : Runs e s' ys) :
    Runs e s (y :: ys)

theorem Runs.drain {ys : List Row} {s : σ} (h : Runs child s ys) {fuel : Nat}
    (hfuel : ys.length < fuel) : drain child fuel s = .ok ys := by
  induction h generalizing fuel with
  | done hnext =>
    obtain ⟨fuel, rfl⟩ := Nat.exists_eq_add_of_lt hfuel
    rw [HashAggregate.drain, hnext]
    rfl
  | row hnext _ ih =>
    obtain ⟨fuel, rfl⟩ := Nat.exists_eq_add_of_lt hfuel
    rw [HashAggregate.drain, hnext]
    simp only [bind, Except.bind]
    rw [ih (by rw [List.length_cons]; omega)]
    rfl

/-- A child that delivers its rows runs. -/
theorem runs_of_delivers (h : Delivers child rows s₀ left) {ys : List Row} {s : σ} (hs : left ys s) :
    Runs child s ys := by
  induction ys generalizing s with
  | nil =>
    obtain ⟨s', hnext, -⟩ := h.done s hs
    exact .done hnext
  | cons y ys ih =>
    obtain ⟨s', hnext, hs'⟩ := h.row y ys s hs
    exact .row hnext (ih hs')

/-- The outer loop over a child that runs. -/
theorem loop_runs {ys : List Row} {s : σ} (h : Runs child s ys) (p : Plan) :
    ∃ s', ∀ fuel, ys.length < fuel → ∀ saw tbl, p.loop child fuel saw tbl s = (do
      let tbl ← ys.foldlM p.step tbl
      return (saw || !ys.isEmpty, tbl, s')) := by
  induction h with
  | @done s s' hnext =>
    refine ⟨s', fun fuel hfuel saw tbl => ?_⟩
    obtain ⟨fuel, rfl⟩ := Nat.exists_eq_add_of_lt hfuel
    rw [Plan.loop, hnext]
    simp [bind, Except.bind, pure, Except.pure]
  | @row s s₁ y ys hnext _ ih =>
    obtain ⟨s', hloop⟩ := ih
    refine ⟨s', fun fuel hfuel saw tbl => ?_⟩
    obtain ⟨fuel, rfl⟩ := Nat.exists_eq_add_of_lt hfuel
    rw [Plan.loop, hnext, List.foldlM_cons, bind_assoc]
    simp only [bind, Except.bind]
    cases p.step tbl y with
    | error e => rfl
    | ok tbl₁ =>
      have hrest := hloop (ys.length + 1 + fuel) (by omega) true tbl₁
      dsimp only
      rw [List.length_cons, hrest]
      simp [bind, Except.bind]

/-- What the operator has still to put out. -/
def Left (out ys : List Row) (s : State σ) : Prop :=
  s.initialized = true ∧ s.rows = out ∧ out.drop s.cursor = ys

theorem openOp_runs {s₁ : σ} (hopen : child.openOp s₀ = .ok s₁) (h : Runs child s₁ rows) :
    ∃ c, ∀ fuel, rows.length < fuel → (hashAggregate p child fuel).openOp (new s₀) = (do
      let out ← p.buildRows rows
      return ⟨c, out, 0, true⟩) := by
  obtain ⟨c₂, hloop⟩ := loop_runs h p
  refine ⟨c₂, fun fuel hfuel => ?_⟩
  have hbuild : p.runBuild child fuel (new s₀) = (do
      let out ← p.buildRows rows
      return ⟨c₂, out, 0, false⟩) := by
    rw [Plan.runBuild, new, hopen, Plan.buildRows]
    simp only [bind, Except.bind, hloop fuel hfuel]
    cases rows.foldlM p.step ⟨[], []⟩ with
    | error e => rfl
    | ok tbl => rfl
  simp only [hashAggregate, hbuild]
  cases p.buildRows rows with
  | error e => rfl
  | ok out => rfl

theorem openOp_eq (h : Delivers child rows s₀ left) {fuel : Nat} (hfuel : rows.length < fuel) :
    ∃ c, (hashAggregate p child fuel).openOp (new s₀) = (do
      let out ← p.buildRows rows
      return ⟨c, out, 0, true⟩) := by
  obtain ⟨c₁, hopen, hc₁⟩ := h.opens s₀ (Or.inl rfl)
  obtain ⟨c, hruns⟩ := openOp_runs (p := p) hopen (runs_of_delivers h hc₁)
  exact ⟨c, hruns fuel hfuel⟩

/-- **A blocking operator is a child like any other**: it delivers the rows it has built, each
time it is opened. -/
theorem delivers_of_buffer {e : Executor (State σ)} {c : σ}
    (hnext : ∀ s, e.next s = match s.rows[s.cursor]? with
      | none => .ok (none, s)
      | some t => .ok (some t, { s with cursor := s.cursor + 1 }))
    (hopen : e.openOp (new s₀) = .ok ⟨c, out, 0, true⟩)
    (hreopen : ∀ s, s.initialized = true → e.openOp s = .ok { s with cursor := 0 }) :
    Delivers e out (new s₀) (Left out) where
  opens s hs := by
    rcases hs with rfl | ⟨ys, hinit, hrows, -⟩
    · exact ⟨_, hopen, rfl, rfl, rfl⟩
    · exact ⟨{ s with cursor := 0 }, hreopen s hinit, hinit, hrows, rfl⟩
  row x xs s hs := by
    obtain ⟨hinit, hrows, hdrop⟩ := hs
    refine ⟨{ s with cursor := s.cursor + 1 }, ?_, hinit, hrows, ?_⟩
    · have hget : s.rows[s.cursor]? = some x := by
        rw [hrows, ← List.head?_drop, hdrop]
        rfl
      rw [hnext, hget]
    · rw [← List.tail_drop, hdrop]
      rfl
  done s hs := by
    obtain ⟨hinit, hrows, hdrop⟩ := hs
    refine ⟨s, ?_, hinit, hrows, hdrop⟩
    have hget : s.rows[s.cursor]? = none := by
      rw [hrows, ← List.head?_drop, hdrop]
      rfl
    rw [hnext, hget]

theorem delivers_hashAggregate (h : Delivers child rows s₀ left) (hout : p.buildRows rows = .ok out)
    {fuel : Nat} (hfuel : rows.length < fuel) :
    Delivers (hashAggregate p child fuel) out (new s₀) (Left out) := by
  obtain ⟨c, hopen⟩ := openOp_eq (p := p) h hfuel
  refine delivers_of_buffer (c := c) (fun _ => rfl) ?_ fun s hinit => ?_
  · rw [hopen, hout]
    rfl
  · simp [hashAggregate, hinit, bind, Except.bind]

/-- The operator ends, with the outcome it has on the child's rows. -/
theorem ends_buildRows (h : Delivers child rows s₀ left) : p.Ends child s₀ (p.buildRows rows) := by
  cases hout : p.buildRows rows with
  | error e =>
    refine ⟨rows.length + 1, fun fuel hfuel => ?_⟩
    obtain ⟨c, hopen⟩ := openOp_eq (p := p) h hfuel
    rw [Plan.run, hopen, hout]
    rfl
  | ok out =>
    refine ⟨max (rows.length + 1) (out.length + 1), fun fuel hfuel => ?_⟩
    have hdelivers := delivers_hashAggregate h hout (le_trans (le_max_left _ _) hfuel)
    obtain ⟨s, hopen, hs⟩ := hdelivers.opens (new s₀) (Or.inl rfl)
    rw [Plan.run, hopen]
    exact (runs_of_delivers hdelivers hs).drain (le_trans (le_max_right _ _) hfuel)

theorem ends_iff (h : Delivers child rows s₀ left) (o : Except DbError (List Row)) :
    p.Ends child s₀ o ↔ p.buildRows rows = o := by
  constructor
  · rintro ⟨n, hn⟩
    obtain ⟨n', hn'⟩ := ends_buildRows (p := p) h
    exact (hn' (max n n') (le_max_right _ _)).symm.trans (hn (max n n') (le_max_left _ _))
  · rintro rfl
    exact ends_buildRows h

end Run

/-! ## Groups of equal keys -/

/-- The rows with a key. -/
def rowsWith (ks rows : List Row) (k : Row) : List Row := Grouping.withKey (ks.zip rows) k

/-- The distinct keys in the order they first appear; one empty key for an input without
rows and an aggregation without keys. -/
def Plan.distinctKeys (p : Plan) (ks rows : List Row) : List Row :=
  if p.OneGroup rows then [[]] else ks.eraseDups

/-- One row for each distinct key, folded from the rows that have it. -/
def Plan.Grouped (p : Plan) (ks rows out : List Row) : Prop :=
  List.Forall₂ (fun k row => ∃ ss, p.Columns (rowsWith ks rows k) ss ∧
    row = k ++ ss.map (AggState.finalize p.f64)) (p.distinctKeys ks rows) out

def NoDouble (k : Row) : Prop := ∀ v ∈ k, v.dataType ≠ some .double

theorem valueEq_eq {v w : Value} (h : v.dataType ≠ some .double) : valueEq v w = (v == w) := by
  unfold valueEq
  split
  · exact absurd rfl h
  · rfl

theorem keysEq_eq {k k' : Row} (h : NoDouble k) : keysEq k k' = (k == k') := by
  induction k generalizing k' with
  | nil => cases k' <;> rfl
  | cons v k ih =>
    cases k' with
    | nil => rfl
    | cons w k' =>
      have ih : keysEq k k' = (k == k') := ih fun u hu => h u (List.mem_cons_of_mem _ hu)
      rw [keysEq] at ih ⊢
      rw [List.isEqv, valueEq_eq (h v List.mem_cons_self), ih]
      rfl

theorem outputGroups_eq {p : Plan} {ks rows : List Row} (hlen : ks.length = rows.length)
    (hks : ∀ k ∈ ks, NoDouble k) :
    p.outputGroups ks rows = (p.distinctKeys ks rows).map fun k => (k, rowsWith ks rows k) := by
  unfold Plan.outputGroups Plan.distinctKeys
  split
  · next hone =>
    rw [hone.1, List.map_singleton, rowsWith, List.zip_nil_right]
    rfl
  · have hkeys : (ks.zip rows).map Prod.fst = ks := List.map_fst_zip (le_of_eq hlen)
    have hcongr : groups keysEq (ks.zip rows) = groups (· == ·) (ks.zip rows) := by
      refine Grouping.groups_congr fun k hk k' _ => ?_
      rw [hkeys] at hk
      exact keysEq_eq (hks k hk)
    rw [hcongr, Grouping.groups_eq, hkeys]
    rfl

/-- **Grouping**: over any child, with keys that are not DOUBLE, the operator ends and puts
out one row for each distinct key, in the order the keys first appear, with the aggregates
folded from the rows that have the key. -/
theorem yields_iff_grouped {σ : Type} {p : Plan} {child : Executor σ} {rows out : List Row} {s₀ : σ}
    {left : List Row → σ → Prop} (hchild : Delivers child rows s₀ left)
    (hkeys : ∀ row ∈ rows, ∀ k, p.keyOf row = .ok k → NoDouble k) :
    p.Ends child s₀ (.ok out) ↔ ∃ ks, rows.mapM p.keyOf = .ok ks ∧ p.Grouped ks rows out := by
  rw [ends_iff hchild, buildRows_iff]
  refine exists_congr fun ks => and_congr_right fun hks => ?_
  have hnone : ∀ k ∈ ks, NoDouble k := by
    intro k hk
    obtain ⟨row, hrow, hkey⟩ := mem_of_mapM hks hk
    exact hkeys row hrow k hkey
  rw [outputGroups_eq (length_of_mapM hks) hnone, Plan.Output, List.forall₂_map_left_iff]
  rfl

/-- `SELECT a, COUNT(*), MAX(b) FROM t GROUP BY a`. -/
def countByFirst : Plan :=
  ⟨[.columnRef ⟨0, .varchar⟩], [⟨.count, none⟩, ⟨.max, some (.columnRef ⟨1, .int⟩)⟩], .debug, noAggF64,
    arithmetic .debug noF64 chronoYears⟩

theorem yields_iff_grouped_first : countByFirst.Ends
    (listChild [[.null, .int 3], [.varchar "x", .int 4], [.null, .int 5]]) []
      (.ok [[.null, .int 2, .int 5], [.varchar "x", .int 1, .int 4]]) := by
  refine (yields_iff_grouped (delivers_listChild _ []) ?_).2
    ⟨[[.null], [.varchar "x"], [.null]], by decide +kernel, ?_⟩
  · intro row hrow k hk v hv
    simp only [List.mem_cons, List.not_mem_nil, or_false] at hrow
    rcases hrow with rfl | rfl | rfl <;> cases hk <;> cases List.mem_singleton.1 hv <;> decide
  · have hkeys : countByFirst.distinctKeys [[.null], [.varchar "x"], [.null]]
        [[.null, .int 3], [.varchar "x", .int 4], [.null, .int 5]] = [[.null], [.varchar "x"]] := by
      decide +kernel
    rw [Plan.Grouped, hkeys]
    refine .cons ⟨[.count 2, .max (some (.int 5))], ?_, by decide +kernel⟩
      (.cons ⟨[.count 1, .max (some (.int 4))], ?_, by decide +kernel⟩ .nil)
    · exact .cons (by decide +kernel) (.cons (by decide +kernel) .nil)
    · exact .cons (by decide +kernel) (.cons (by decide +kernel) .nil)

/-! ## MIN and MAX -/

section Extrema

variable {p : Plan} {agg : AnalyzedAggregate} {e : AnalyzedExpr} {rows : List Row} {t : DataType}
  {o : Ordering}

def rank (v : Value) : List Int := (BTree.valueRank v).getD []

/-- Values of one type are compared by their ranks. -/
theorem compareValues_compares (b : Build) (ht : t ≠ .double ∧ t ≠ .interval) {v w : Value}
    (hv : v.dataType = some t) (hw : w.dataType = some t) :
    ∃ ord, compareValues b v w = .ok ord ∧ ord.Compares (rank v) (rank w) := by
  have hrank : ∀ {u : Value}, u.dataType = some t → BTree.valueRank u = some (rank u) := by
    intro u hu
    cases u <;> cases hu <;> first | rfl | exact absurd rfl ht.1 | exact absurd rfl ht.2
  obtain ⟨ord, hord, hcompares⟩ := BTree.compareValues_compares hv hw (hrank hv) (hrank hw)
  refine ⟨ord, ?_, hcompares⟩
  rw [← hord]
  cases v <;> cases hv <;> cases w <;> cases hw <;> first | rfl | exact absurd rfl ht.2

end Extrema

/-! ## Sums and counts -/

/-- A COUNT, or a SUM of an INT expression. -/
def AnalyzedAggregate.Counts (agg : AnalyzedAggregate) : Prop :=
  agg.kind = .count ∨ agg.kind = .sum ∧ ∃ e, agg.arg = some e ∧ e.dataType ≠ some .double

namespace Plan

variable (p : Plan)

/-- The inputs of an aggregate that are not NULL. -/
def inputs (e : AnalyzedExpr) (rows : List Row) : List Int :=
  rows.filterMap fun row =>
    match evaluateExpr p.arith row e with
    | .ok (.int n) => some n.toInt
    | _ => none

/-- The sum or the count without bounds. -/
def exact (agg : AnalyzedAggregate) (rows : List Row) : Int :=
  match agg.arg with
  | none => rows.length
  | some e => if agg.kind = .count then (p.inputs e rows).length else (p.inputs e rows).sum

/-- The value SQL gives the aggregate; a SUM of nothing is NULL. -/
def IsExact (agg : AnalyzedAggregate) (rows : List Row) (v : Value) : Prop :=
  if agg.kind = .sum ∧ ∀ e ∈ agg.arg, p.inputs e rows = [] then v = .null
  else ∃ n : Int32, v = .int n ∧ n.toInt = p.exact agg rows

/-- The totals fit: the last one in an INT and, where overflow panics, every one on the way
in an `i64`. -/
def Fits (agg : AnalyzedAggregate) (rows : List Row) : Prop :=
  InI32 (p.exact agg rows) ∧ (p.build = .debug → ∀ pre, pre <+: rows → InI64 (p.exact agg pre))

/-- Its inputs over the rows are INT or NULL. -/
def IntInputs (agg : AnalyzedAggregate) (rows : List Row) : Prop :=
  ∀ e ∈ agg.arg, ∀ row ∈ rows,
    evaluateExpr p.arith row e = .ok .null ∨ ∃ n, evaluateExpr p.arith row e = .ok (.int n)

/-- What the emitted columns should be: the exact values, or an error when one of them
is not an INT. -/
def ExactOrErr (gs : Groups Row Row) : Except DbError (List Row) → Prop
  | .ok out => List.Forall₂ (fun g row => ∃ vs, row = g.1 ++ vs ∧
      List.Forall₂ (fun agg v => p.IsExact agg g.2 v) p.aggregates vs) gs out
  | .error (.bail _) => ∃ g ∈ gs, ∃ agg ∈ p.aggregates, ¬ InI32 (p.exact agg g.2)
  | .error _ => False

/-- The accumulator that holds the exact value as far as an `i64` can. -/
def exactState (agg : AnalyzedAggregate) (rows : List Row) : AggState :=
  if agg.kind = .count then .count (Int64.ofInt (p.exact agg rows))
  else .sumInt (Int64.ofInt (p.exact agg rows)) (!(agg.arg.all fun e => (p.inputs e rows).isEmpty))

end Plan

section Integers

/-- One addition to an `i64` that holds a number as far as it can. -/
theorem i64_add {b : Build} {what : String} {x y : Int} (h : b = .debug → InI64 x) :
    b.i64 what ((Int64.ofInt x).toInt + y) = if InI64 (x + y) ∨ b = .release then
      .ok (Int64.ofInt (x + y)) else .error (.panic s!"attempt to {what} with overflow") := by
  cases b with
  | debug =>
    obtain ⟨hlo, hhi⟩ := h rfl
    rw [Int64.toInt_ofInt_of_le hlo hhi, Build.i64]
  | release =>
    rw [Build.i64, if_pos (Or.inr rfl), if_pos (Or.inr rfl), Int64.ofInt_add, Int64.ofInt_toInt,
      ← Int64.ofInt_add]

/-- `n as i32` keeps the number exactly when it is an INT. -/
theorem toInt32_ofInt {x : Int} : (Int64.ofInt x).toInt32.toInt = x ↔ InI32 x := by
  have hmod : (Int64.ofInt x).toInt32.toInt = x.bmod (2 ^ 32) := by
    rw [Int64.toInt_toInt32, Int64.toInt_ofInt,
      Int.bmod_bmod_of_dvd (m := Int64.size) (n := 2 ^ 32) ⟨2 ^ 32, by decide⟩]
  rw [hmod]
  constructor
  · intro h
    rw [← h]
    exact ⟨Int.le_bmod (by decide), Int.bmod_lt (by decide)⟩
  · rintro ⟨hlo, hhi⟩
    exact Int.bmod_eq_of_le hlo hhi

variable {p : Plan} {agg : AnalyzedAggregate} {rows : List Row} {row : Row}

theorem inputs_concat (e : AnalyzedExpr) : p.inputs e (rows ++ [row]) = p.inputs e rows ++
    p.inputs e [row] := by
  rw [Plan.inputs, List.filterMap_append]
  rfl

/-- What a row adds to the exact value. -/
theorem exact_concat : p.exact agg (rows ++ [row]) = p.exact agg rows + p.exact agg [row] := by
  unfold Plan.exact
  cases agg.arg with
  | none => simp
  | some e =>
    dsimp only
    split <;> simp [inputs_concat]

theorem Plan.IntInputs.mono {rows' : List Row} (h : p.IntInputs agg rows)
    (hsub : ∀ row ∈ rows', row ∈ rows) : p.IntInputs agg rows' :=
  fun e he row hrow => h e he row (hsub row hrow)

/-- A row with a NULL argument adds nothing. -/
theorem exactState_null {e : AnalyzedExpr} (harg : agg.arg = some e)
    (hnull : evaluateExpr p.arith row e = .ok .null) :
    p.exact agg (rows ++ [row]) = p.exact agg rows ∧
      p.exactState agg (rows ++ [row]) = p.exactState agg rows := by
  have hnone : p.inputs e [row] = [] := by simp [Plan.inputs, hnull]
  simp [Plan.exactState, Plan.exact, harg, inputs_concat, hnone]

/-- One row more, from the accumulator that holds the exact value. -/
theorem feed_exactState (hcounts : agg.Counts) (hinputs : p.IntInputs agg [row])
    (hfits : p.build = .debug → InI64 (p.exact agg rows)) :
    p.feed agg row (p.exactState agg rows) =
      if InI64 (p.exact agg (rows ++ [row])) ∨ p.build = .release then
        .ok (p.exactState agg (rows ++ [row]))
      else .error (.panic "attempt to add with overflow") := by
  -- a row with a NULL argument
  have hnull : ∀ e, agg.arg = some e → evaluateExpr p.arith row e = .ok .null →
      (p.exactState agg rows).update p.build p.f64 (some .null) = .ok (p.exactState agg rows) →
      p.feed agg row (p.exactState agg rows) =
        if InI64 (p.exact agg (rows ++ [row])) ∨ p.build = .release then
          .ok (p.exactState agg (rows ++ [row]))
        else .error (.panic "attempt to add with overflow") := by
    intro e harg hv hupdate
    obtain ⟨hexact, hstate⟩ : p.exact agg (rows ++ [row]) = p.exact agg rows ∧
        p.exactState agg (rows ++ [row]) = p.exactState agg rows := exactState_null harg hv
    have hok : InI64 (p.exact agg rows) ∨ p.build = .release := by
      cases hb : p.build with
      | debug => exact Or.inl (hfits hb)
      | release => exact Or.inr rfl
    rw [hexact, hstate, if_pos hok, Plan.feed, harg]
    simp [hv, bind, Except.bind, hupdate]
  -- one addition
  have hadd : ∀ (y : Int) (g : Int64 → AggState), p.exact agg [row] = y →
      p.feed agg row (p.exactState agg rows) =
        (p.build.i64 "add" ((Int64.ofInt (p.exact agg rows)).toInt + y) >>= fun n => .ok (g n)) →
      p.exactState agg (rows ++ [row]) = g (Int64.ofInt (p.exact agg (rows ++ [row]))) →
      p.feed agg row (p.exactState agg rows) =
        if InI64 (p.exact agg (rows ++ [row])) ∨ p.build = .release then
          .ok (p.exactState agg (rows ++ [row]))
        else .error (.panic "attempt to add with overflow") := by
    intro y g hy hfeed hstate
    rw [hfeed, hstate, i64_add hfits, exact_concat, hy]
    split <;> rfl
  rcases hcounts with hkind | ⟨hkind, e, harg, htype⟩
  · cases harg : agg.arg with
    | none =>
      refine hadd 1 .count (by simp [Plan.exact, harg]) ?_ (by simp [Plan.exactState, hkind])
      simp [Plan.feed, harg, Plan.exactState, hkind, AggState.update]
      rfl
    | some e =>
      rcases hinputs e harg row List.mem_cons_self with hv | ⟨n, hv⟩
      · exact hnull e harg hv (by simp [Plan.exactState, hkind, AggState.update])
      · refine hadd 1 .count (by simp [Plan.exact, Plan.inputs, harg, hkind, hv]) ?_
          (by simp [Plan.exactState, hkind])
        simp [Plan.feed, harg, Plan.exactState, hkind, AggState.update, hv, bind, Except.bind]
        rfl
  · rcases hinputs e harg row List.mem_cons_self with hv | ⟨n, hv⟩
    · exact hnull e harg hv (by simp [Plan.exactState, hkind, AggState.update])
    · refine hadd n.toInt (fun sum => .sumInt sum true)
        (by simp [Plan.exact, Plan.inputs, harg, hkind, hv]) ?_ ?_
      · simp [Plan.feed, harg, Plan.exactState, hkind, AggState.update, hv, bind, Except.bind]
        rfl
      · simp [Plan.exactState, hkind, harg, Plan.inputs, hv]

/-- **A column of exact values**: the accumulator is the exact one as long as no addition
has overflowed. -/
theorem column_ok_iff (hcounts : agg.Counts) (hinputs : p.IntInputs agg rows) {s : AggState} :
    p.column agg rows = .ok s ↔
      (p.build = .debug → ∀ pre, pre <+: rows → InI64 (p.exact agg pre)) ∧
        s = p.exactState agg rows := by
  induction rows using List.reverseRecOn generalizing s with
  | nil =>
    have hexact : p.exact agg [] = 0 := by
      unfold Plan.exact
      cases agg.arg with
      | none => rfl
      | some e => simp [Plan.inputs]
    have hinit : AggState.init agg = p.exactState agg [] := by
      rw [Plan.exactState, hexact, AggState.init]
      rcases hcounts with hkind | ⟨hkind, e, harg, htype⟩
      · rw [hkind]
        rfl
      · rw [hkind, harg]
        simp [htype, Plan.inputs]
    have hpre : ∀ pre, pre <+: [] → InI64 (p.exact agg pre) := by
      intro pre hpre
      rw [List.prefix_nil.1 hpre, hexact]
      decide
    constructor
    · intro h
      cases h
      exact ⟨fun _ => hpre, hinit⟩
    · rintro ⟨-, rfl⟩
      rw [← hinit]
      rfl
  | append_singleton rows row ih =>
    have hrows := hinputs.mono fun r hr => List.mem_append_left [row] hr
    have hrow := hinputs.mono fun r hr => List.mem_append_right rows hr
    rw [column_concat, bind_ok]
    constructor
    · rintro ⟨s', hs', hfeed⟩
      obtain ⟨hfits, rfl⟩ := (ih hrows).1 hs'
      rw [feed_exactState hcounts hrow fun hb => hfits hb rows (List.prefix_refl rows)] at hfeed
      split at hfeed
      · next hok =>
        cases hfeed
        refine ⟨fun hb pre hpre => ?_, rfl⟩
        rcases List.prefix_concat_iff.1 hpre with rfl | hpre
        · exact hok.resolve_right (by rw [hb]; decide)
        · exact hfits hb pre hpre
      · cases hfeed
    · rintro ⟨hfits, rfl⟩
      have hbefore : p.build = .debug → ∀ pre, pre <+: rows → InI64 (p.exact agg pre) :=
        fun hb pre hpre => hfits hb pre (hpre.trans (List.prefix_append rows [row]))
      refine ⟨p.exactState agg rows, (ih hrows).2 ⟨hbefore, rfl⟩, ?_⟩
      rw [feed_exactState hcounts hrow fun hb => hbefore hb rows (List.prefix_refl rows), if_pos]
      cases hb : p.build with
      | debug => exact Or.inl (hfits hb _ (List.prefix_refl _))
      | release => exact Or.inr rfl

/-- The exact accumulator is put out as the exact value when that is an INT. -/
theorem finalize_exactState (hcounts : agg.Counts) :
    p.IsExact agg rows ((p.exactState agg rows).finalize p.f64) ↔ InI32 (p.exact agg rows) := by
  have hint : (∃ n : Int32, Value.int (Int64.ofInt (p.exact agg rows)).toInt32 = .int n ∧
      n.toInt = p.exact agg rows) ↔ InI32 (p.exact agg rows) := by
    rw [← toInt32_ofInt]
    exact ⟨fun ⟨n, hn, heq⟩ => by cases hn; exact heq, fun h => ⟨_, rfl, h⟩⟩
  rcases hcounts with hkind | ⟨hkind, e, harg, -⟩
  · rw [Plan.IsExact, if_neg (by simp [hkind]), Plan.exactState, if_pos hkind]
    exact hint
  · by_cases hnone : p.inputs e rows = []
    · have hzero : p.exact agg rows = 0 := by simp [Plan.exact, harg, hnone]
      rw [Plan.IsExact, if_pos ⟨hkind, by simp [harg, hnone]⟩, Plan.exactState,
        if_neg (by simp [hkind]), hzero]
      simp only [harg, Option.all_some, hnone, List.isEmpty_nil, AggState.finalize]
      exact ⟨fun _ => by decide, fun _ => rfl⟩
    · rw [Plan.IsExact, if_neg (by simp [harg, hnone]), Plan.exactState, if_neg (by simp [hkind])]
      simp only [harg, Option.all_some, List.isEmpty_eq_false_iff.2 hnone, AggState.finalize]
      exact hint

/-- The columns of a group. -/
theorem columns_exact {ss : List AggState} (hcounts : ∀ agg ∈ p.aggregates, agg.Counts)
    (hinputs : ∀ agg ∈ p.aggregates, p.IntInputs agg rows) (h : p.Columns rows ss) :
    List.Forall₂ (fun agg v => p.IsExact agg rows v) p.aggregates (ss.map (AggState.finalize p.f64)) ↔
      ∀ agg ∈ p.aggregates, p.Fits agg rows := by
  rw [Plan.Columns] at h
  rw [List.forall₂_map_right_iff]
  generalize p.aggregates = aggs at h hcounts hinputs ⊢
  induction h with
  | nil => simp
  | @cons agg s aggs ss hs _ ih =>
    have hagg := hcounts agg List.mem_cons_self
    obtain ⟨hfits, rfl⟩ := (column_ok_iff hagg (hinputs agg List.mem_cons_self)).1 hs
    rw [List.forall₂_cons, finalize_exactState hagg, List.forall_mem_cons,
      ih (fun a ha => hcounts a (List.mem_cons_of_mem _ ha))
        fun a ha => hinputs a (List.mem_cons_of_mem _ ha)]
    exact and_congr_left fun _ => ⟨fun h => ⟨h, hfits⟩, fun h => h.1⟩

/-- A group whose totals fit has columns. -/
theorem exists_columns (hcounts : ∀ agg ∈ p.aggregates, agg.Counts)
    (hinputs : ∀ agg ∈ p.aggregates, p.IntInputs agg rows)
    (hfits : ∀ agg ∈ p.aggregates, p.Fits agg rows) : ∃ ss, p.Columns rows ss := by
  refine ⟨p.aggregates.map fun agg => p.exactState agg rows, ?_⟩
  rw [Plan.Columns, List.forall₂_map_right_iff]
  exact List.forall₂_same.2 fun agg hagg =>
    (column_ok_iff (hcounts agg hagg) (hinputs agg hagg)).2 ⟨(hfits agg hagg).2, rfl⟩

end Integers

/-! ## Errors -/

section Errors

variable {α β : Type}

/-- A result with a property, or a panic. -/
def OkOrPanic (P : α → Prop) : Except DbError α → Prop
  | .ok a => P a
  | .error (.panic _) => True
  | .error _ => False

theorem OkOrPanic.bind {P : α → Prop} {Q : β → Prop} {x : Except DbError α}
    {g : α → Except DbError β} (hx : OkOrPanic P x) (hg : ∀ a, P a → OkOrPanic Q (g a)) :
    OkOrPanic Q (x >>= g) := by
  cases x with
  | ok a => exact hg a hx
  | error e => cases e <;> exact hx

theorem okOrPanic_i64 (b : Build) (what : String) (n : Int) :
    OkOrPanic (fun _ => True) (b.i64 what n) := by
  unfold Build.i64
  split <;> trivial

/-- The accumulators of sums and counts of INT. -/
def IntState : AggState → Prop
  | .count _ | .sumInt _ _ => True
  | _ => False

variable {p : Plan} {agg : AnalyzedAggregate} {rows : List Row} {row : Row}

theorem okOrPanic_update {s : AggState} (hs : IntState s) {arg : Option Value}
    (harg : arg = none ∨ arg = some .null ∨ ∃ n, arg = some (.int n)) :
    OkOrPanic IntState (s.update p.build p.f64 arg) := by
  cases s with
  | count n =>
    rcases harg with rfl | rfl | ⟨i, rfl⟩
    · exact (okOrPanic_i64 _ _ _).bind fun _ _ => trivial
    · trivial
    · exact (okOrPanic_i64 _ _ _).bind fun _ _ => trivial
  | sumInt sum any =>
    rcases harg with rfl | rfl | ⟨i, rfl⟩
    · trivial
    · trivial
    · exact (okOrPanic_i64 _ _ _).bind fun _ _ => trivial
  | _ => cases hs

theorem okOrPanic_feed (hinputs : p.IntInputs agg [row]) {s : AggState} (hs : IntState s) :
    OkOrPanic IntState (p.feed agg row s) := by
  unfold Plan.feed
  cases harg : agg.arg with
  | none => exact okOrPanic_update hs (Or.inl rfl)
  | some e =>
    rcases hinputs e harg row List.mem_cons_self with hv | ⟨n, hv⟩
    · simp only [hv]
      exact okOrPanic_update hs (Or.inr (Or.inl rfl))
    · simp only [hv]
      exact okOrPanic_update hs (Or.inr (Or.inr ⟨n, rfl⟩))

theorem okOrPanic_feedAll : ∀ {aggs : List AnalyzedAggregate} {ss : List AggState},
    (∀ agg ∈ aggs, p.IntInputs agg [row]) → (∀ s ∈ ss, IntState s) →
    OkOrPanic (fun ss => ∀ s ∈ ss, IntState s) (p.feedAll row aggs ss)
  | [], _, _, hss => hss
  | _ :: _, [], _, _ => trivial
  | agg :: aggs, s :: ss, hinputs, hss => by
    obtain ⟨hagg, haggs⟩ := List.forall_mem_cons.1 hinputs
    obtain ⟨hs, hss⟩ := List.forall_mem_cons.1 hss
    refine (okOrPanic_feed hagg hs).bind fun s' hs' => ?_
    refine (okOrPanic_feedAll haggs hss).bind fun ss' hss' => ?_
    exact List.forall_mem_cons.2 ⟨hs', hss'⟩

/-- A query that sums and counts INTs does not fail otherwise. -/
theorem okOrPanic_buildRows (hcounts : ∀ agg ∈ p.aggregates, agg.Counts)
    (hinputs : ∀ agg ∈ p.aggregates, p.IntInputs agg rows)
    (hkeys : ∀ row ∈ rows, ∃ k, p.keyOf row = .ok k) :
    OkOrPanic (fun _ => True) (p.buildRows rows) := by
  have hinit : ∀ s ∈ p.initial, IntState s := by
    intro s hs
    obtain ⟨agg, hagg, rfl⟩ := List.mem_map.1 hs
    unfold AggState.init
    rcases hcounts agg hagg with hkind | ⟨hkind, e, harg, htype⟩
    · rw [hkind]
      trivial
    · rw [hkind, harg]
      simp [htype, IntState]
  have hstep : ∀ {tbl : Table} {row : Row}, row ∈ rows → (∀ ss ∈ tbl.states, ∀ s ∈ ss, IntState s) →
      OkOrPanic (fun tbl => ∀ ss ∈ tbl.states, ∀ s ∈ ss, IntState s) (p.step tbl row) := by
    intro tbl row hrow htbl
    obtain ⟨k, hk⟩ := hkeys row hrow
    have hpush : ∀ ss ∈ (p.findOrPush tbl k).2.states, ∀ s ∈ ss, IntState s := by
      unfold Plan.findOrPush
      split
      · exact htbl
      · intro ss hss
        rcases List.mem_append.1 hss with hss | hss
        · exact htbl ss hss
        · rw [List.mem_singleton.1 hss]
          exact hinit
    simp only [Plan.step, hk]
    dsimp only [bind, Except.bind]
    split
    · trivial
    · next ss hss =>
      have hrows : ∀ agg ∈ p.aggregates, p.IntInputs agg [row] := fun agg hagg =>
        (hinputs agg hagg).mono fun r hr => by rwa [List.mem_singleton.1 hr]
      refine (okOrPanic_feedAll hrows (hpush ss (List.mem_of_getElem? hss))).bind fun ss' hss' => ?_
      intro ss₁ hss₁
      rcases List.mem_or_eq_of_mem_set hss₁ with h | rfl
      · exact hpush ss₁ h
      · exact hss'
  have hfold : ∀ {rs : List Row} {tbl : Table}, (∀ r ∈ rs, r ∈ rows) →
      (∀ ss ∈ tbl.states, ∀ s ∈ ss, IntState s) →
      OkOrPanic (fun _ => True) (rs.foldlM p.step tbl) := by
    intro rs
    induction rs with
    | nil => exact fun _ _ => trivial
    | cons r rs ih =>
      intro tbl hrs htbl
      rw [List.foldlM_cons]
      exact (hstep (hrs r List.mem_cons_self) htbl).bind fun tbl' htbl' =>
        ih (fun r' hr' => hrs r' (List.mem_cons_of_mem _ hr')) htbl'
  exact (hfold (fun r hr => hr) fun ss hss => by cases hss).bind fun _ _ => trivial

end Errors

/-! ## Exact totals -/

section Exact

variable {p : Plan} {rows out : List Row} {gs : Groups Row Row}

theorem output_exact (hcounts : ∀ agg ∈ p.aggregates, agg.Counts)
    (hinputs : ∀ g ∈ gs, ∀ agg ∈ p.aggregates, p.IntInputs agg g.2) (h : p.Output gs out) :
    p.ExactOrErr gs (.ok out) ↔ ∀ g ∈ gs, ∀ agg ∈ p.aggregates, p.Fits agg g.2 := by
  simp only [Plan.ExactOrErr]
  induction h with
  | nil => simp
  | @cons g row gs out hrow _ ih =>
    obtain ⟨ss, hss, rfl⟩ := hrow
    obtain ⟨hg, hgs⟩ := List.forall_mem_cons.1 hinputs
    rw [List.forall₂_cons, List.forall_mem_cons, ← columns_exact hcounts hg hss]
    refine and_congr ⟨?_, fun h => ⟨_, rfl, h⟩⟩ (ih hgs)
    rintro ⟨vs, happend, hvs⟩
    rwa [List.append_cancel_left happend]

/-- Groups whose totals fit are put out. -/
theorem exists_output (hcounts : ∀ agg ∈ p.aggregates, agg.Counts)
    (hinputs : ∀ g ∈ gs, ∀ agg ∈ p.aggregates, p.IntInputs agg g.2)
    (hfits : ∀ g ∈ gs, ∀ agg ∈ p.aggregates, p.Fits agg g.2) : ∃ out, p.Output gs out := by
  obtain ⟨tbl, htbl⟩ := exists_tracks fun g hg =>
    exists_columns hcounts (hinputs g hg) (hfits g hg)
  exact ⟨_, (output_iff htbl).2 rfl⟩

/-- **Integer aggregates**: over any child, with any keys, a query of COUNTs and of SUMs of
INT ends with the exact values, or with an error for one that is not an INT, exactly when
every total is an INT (and no debug build overflows on the way). -/
theorem exactOrErr_iff {σ : Type} {child : Executor σ} {s₀ : σ} {left : List Row → σ → Prop}
    {ks : List Row} (hchild : Delivers child rows s₀ left) (hks : rows.mapM p.keyOf = .ok ks)
    (hcounts : ∀ agg ∈ p.aggregates, agg.Counts)
    (hinputs : ∀ agg ∈ p.aggregates, p.IntInputs agg rows) :
    (∃ o, p.Ends child s₀ o ∧ p.ExactOrErr (p.outputGroups ks rows) o) ↔
      ∀ g ∈ p.outputGroups ks rows, ∀ agg ∈ p.aggregates, p.Fits agg g.2 := by
  have hgroups : ∀ g ∈ p.outputGroups ks rows, ∀ agg ∈ p.aggregates, p.IntInputs agg g.2 := by
    intro g hg agg hagg
    refine (hinputs agg hagg).mono fun row hrow => ?_
    unfold Plan.outputGroups at hg
    split at hg
    · rw [List.mem_singleton.1 hg] at hrow
      cases hrow
    · have hmem := Grouping.mem_of_mem_group hg hrow
      rwa [List.map_snd_zip (le_of_eq (length_of_mapM hks).symm)] at hmem
  have hkeys : ∀ row ∈ rows, ∃ k, p.keyOf row = .ok k := by
    intro row hrow
    obtain ⟨k, -, hk⟩ := exists_of_forall₂ (forall₂_of_mapM hks).flip hrow
    exact ⟨k, hk⟩
  constructor
  · rintro ⟨o, hends, hexact⟩
    rw [ends_iff hchild] at hends
    subst hends
    have hpanic := okOrPanic_buildRows hcounts hinputs hkeys
    cases hrun : p.buildRows rows with
    | ok out =>
      rw [hrun] at hexact
      obtain ⟨ks', hks', hout⟩ := buildRows_iff.1 hrun
      cases hks.symm.trans hks'
      exact (output_exact hcounts hgroups hout).1 hexact
    | error e =>
      rw [hrun] at hexact hpanic
      cases e with
      | panic m => exact hexact.elim
      | _ => exact hpanic.elim
  · intro hfits
    obtain ⟨out, hout⟩ := exists_output hcounts hgroups hfits
    exact ⟨.ok out, (ends_iff hchild _).2 (buildRows_iff.2 ⟨ks, hks, hout⟩),
      (output_exact hcounts hgroups hout).2 hfits⟩

end Exact

/-- `SELECT SUM(n) FROM t`, where `t` has one column. -/
def sumOf (b : Build) : Plan :=
  ⟨[], [⟨.sum, some (.columnRef ⟨0, .int⟩)⟩], b, noAggF64, arithmetic b noF64 chronoYears⟩

theorem exactOrErr_small : ∃ o, (sumOf .debug).Ends (listChild [[.int 2], [.null], [.int 3]]) [] o ∧
    (sumOf .debug).ExactOrErr
      ((sumOf .debug).outputGroups [[], [], []] [[.int 2], [.null], [.int 3]]) o := by
  refine (exactOrErr_iff (delivers_listChild _ []) rfl ?_ ?_).2 ?_
  · intro agg hagg
    rw [List.mem_singleton.1 hagg]
    exact Or.inr ⟨rfl, _, rfl, by decide⟩
  · intro agg hagg e he row hrow
    rw [List.mem_singleton.1 hagg] at he
    cases he
    simp only [List.mem_cons, List.not_mem_nil, or_false] at hrow
    rcases hrow with rfl | rfl | rfl
    · exact Or.inr ⟨2, rfl⟩
    · exact Or.inl rfl
    · exact Or.inr ⟨3, rfl⟩
  · intro g hg agg hagg
    have hgroups : (sumOf .debug).outputGroups [[], [], []] [[.int 2], [.null], [.int 3]] =
        [([], [[.int 2], [.null], [.int 3]])] := by decide +kernel
    rw [hgroups] at hg
    rw [List.mem_singleton.1 hg, List.mem_singleton.1 hagg]
    refine ⟨by decide +kernel, fun _ pre hpre => ?_⟩
    have htake : ∀ n ≤ 3, InI64 ((sumOf .debug).exact ⟨.sum, some (.columnRef ⟨0, .int⟩)⟩
        ([[.int 2], [.null], [.int 3]].take n)) := by decide +kernel
    rw [List.prefix_iff_eq_take.1 hpre]
    exact htake pre.length hpre.length_le

/-- 2147483647 and 1 have the SUM -2147483648. -/
theorem sum_not_exact (b : Build) :
    ¬ ∃ o, (sumOf b).Ends (listChild [[.int 2147483647], [.int 1]]) [] o ∧
      (sumOf b).ExactOrErr
        ((sumOf b).outputGroups [[], []] [[.int 2147483647], [.int 1]]) o := by
  rintro ⟨o, hends, hexact⟩
  rw [ends_iff (delivers_listChild _ [])] at hends
  have hrun : (sumOf b).buildRows [[.int 2147483647], [.int 1]] = .ok [[.int (-2147483648)]] := by
    cases b <;> decide +kernel
  have hgroups : (sumOf b).outputGroups [[], []] [[.int 2147483647], [.int 1]] =
      [([], [[.int 2147483647], [.int 1]])] := by
    cases b <;> decide +kernel
  rw [← hends, hrun, hgroups] at hexact
  obtain ⟨⟨vs, hrow, hvs⟩, -⟩ := List.forall₂_cons.1 hexact
  rw [List.nil_append] at hrow
  subst hrow
  obtain ⟨hv, -⟩ := List.forall₂_cons.1 hvs
  have hinputs : (sumOf b).inputs (.columnRef ⟨0, .int⟩) [[.int 2147483647], [.int 1]] =
      [2147483647, 1] := by
    cases b <;> decide +kernel
  simp only [Plan.IsExact, Plan.exact, Option.mem_some_iff, forall_eq', hinputs] at hv
  rw [if_neg (by simp)] at hv
  obtain ⟨n, hn, htotal⟩ := hv
  cases hn
  revert htotal
  decide

/-- A SUM that comes out negative, in either build. -/
theorem sum_truncates :
    (¬ ∃ o, (sumOf .debug).Ends (listChild [[.int 2147483647], [.int 1]]) [] o ∧
      (sumOf .debug).ExactOrErr
        ((sumOf .debug).outputGroups [[], []] [[.int 2147483647], [.int 1]]) o) ∧
    ¬ ∃ o, (sumOf .release).Ends (listChild [[.int 2147483647], [.int 1]]) [] o ∧
      (sumOf .release).ExactOrErr
        ((sumOf .release).outputGroups [[], []] [[.int 2147483647], [.int 1]]) o :=
  ⟨sum_not_exact .debug, sum_not_exact .release⟩

end Ccdb.HashAggregate
