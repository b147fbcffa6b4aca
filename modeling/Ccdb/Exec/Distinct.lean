import Ccdb.Exec.PostAgg

/-!
# Ccdb — SELECT DISTINCT

The operators above the FROM clause, as `build_select_pipeline` stacks them, and a SELECT run
to its end. DISTINCT is a GROUP BY over the items whose items are then analyzed once more, by
rules that only know bare grouped columns.

Main results:

* `runs_filter`, `runs_project`, `outputs_aggregated` — what the operators put out, from what
  their child does.
* `postAggItems_accepts` — which items the second analysis takes.
* `items_of_key` — on a distinct row the rewritten items give the row back.
* `distinct_iff` — when SELECT DISTINCT is accepted and returns the distinct rows.
-/

namespace Ccdb.Select

open Join (Row Executor listChild)
open HashAggregate (AnalyzedAggregate drain keysEq forall₂_of_mapM exists_of_forall₂)
open Pipeline (DynExecutor)
open FromClause (Tables)
open Ast (SelectColumn SelectStatement)

/-! ## The operators -/

section Operators

variable {σ : Type} (arith : Arith)

/-- `Filter::next`. One unit of fuel is one call of the child's `next`. -/
def nextFilter (predicate : AnalyzedExpr) (child : Executor σ) :
    Nat → σ → Except DbError (Option Row × σ)
  | 0, _ => .error .diverge
  | fuel + 1, s => do
    let (t, s) ← child.next s
    match t with
    | none => .ok (none, s)
    | some t => do
      match ← evaluateExpr arith t predicate with
      | .bool true => .ok (some t, s)
      | .bool false => nextFilter predicate child fuel s
      | .null => nextFilter predicate child fuel s
      | other => .error (notBoolean "WHERE predicate" other)

/-- `Filter` as an executor. -/
def filter (predicate : AnalyzedExpr) (child : Executor σ) (fuel : Nat) : Executor σ where
  openOp := child.openOp
  next := nextFilter arith predicate child fuel

/-- `Project` as an executor. -/
def project (exprs : List AnalyzedExpr) (child : Executor σ) : Executor σ where
  openOp := child.openOp
  next s := do
    let (t, s) ← child.next s
    match t with
    | none => .ok (none, s)
    | some t => do
      let row ← exprs.mapM (evaluateExpr arith t)
      .ok (some row, s)

/-- `Limit` as an executor; the second component is `remaining`. -/
def limit (child : Executor σ) : Executor (σ × Nat) where
  openOp s := do
    let c ← child.openOp s.1
    .ok (c, s.2)
  next s :=
    if s.2 = 0 then .ok (none, s)
    else do
      let (t, c) ← child.next s.1
      match t with
      | some t => .ok (some t, (c, s.2 - 1))
      | none => .ok (none, (c, s.2))

end Operators

/-- `substitute_now_in_select`. -/
def substituteNowInSelect (ts : Int64) (an : AnalyzedSelectStatement) : AnalyzedSelectStatement :=
  { an with
    fromTree := FromClause.substituteNowInFrom ts an.fromTree
    whereClause := an.whereClause.map (substituteNow ts)
    aggregation := an.aggregation.map fun agg =>
      ⟨agg.groupKeys.map (substituteNow ts), agg.aggregates.map (substituteNowInAgg ts)⟩
    selectItems := an.selectItems.map fun item => ⟨substituteNow ts item.expr, item.aliasName⟩
    having := an.having.map (substituteNow ts)
    orderBy := an.orderBy.map fun key => ⟨substituteNow ts key.expr, key.dir⟩ }

section Pipeline

variable (ev : Evaluation) (fuel : Nat)

/-- A filter, if there is a predicate. -/
def filtered (predicate : Option AnalyzedExpr) (child : DynExecutor) : DynExecutor :=
  match predicate with
  | some p => ⟨child.State, filter ev.arith p child.exec fuel, child.state⟩
  | none => child

/-- `HashAggregate`, if the analyzer decided for it. -/
def aggregatedBy (aggregation : Option AnalyzedAggregation) (child : DynExecutor) : DynExecutor :=
  match aggregation with
  | some agg =>
    let p : HashAggregate.Plan := ⟨agg.groupKeys, agg.aggregates, ev.build, ev.f64, ev.arith⟩
    ⟨HashAggregate.State child.State, HashAggregate.hashAggregate p child.exec fuel,
      HashAggregate.new child.state⟩
  | none => child

/-- `Sort`, if there are keys. -/
def sortedBy (keys : List Sort.SortKey) (child : DynExecutor) : DynExecutor :=
  match keys with
  | [] => child
  | keys =>
    ⟨HashAggregate.State child.State, Sort.sort ⟨keys, ev.build, ev.arith⟩ child.exec fuel,
      HashAggregate.new child.state⟩

/-- `Limit`, if there is one. -/
def limitedTo (n : Option UInt64) (child : DynExecutor) : DynExecutor :=
  match n with
  | some n => ⟨child.State × Nat, limit child.exec, (child.state, n.toNat)⟩
  | none => child

/-- `build_select_pipeline` above its `from_exec`. -/
def buildSelectPipeline (an : AnalyzedSelectStatement) (fromExec : DynExecutor) : DynExecutor :=
  let postAgg := aggregatedBy ev fuel an.aggregation (filtered ev fuel an.whereClause fromExec)
  let postHaving := filtered ev fuel an.having postAgg
  let limited := limitedTo an.limit (sortedBy ev fuel an.orderBy postHaving)
  ⟨limited.State, project ev.arith (an.selectItems.map AnalyzedSelectItem.expr) limited.exec,
    limited.state⟩

/-- `open`, and `next` until it returns `None`. -/
def runPipeline (d : DynExecutor) : Except DbError (List Row) := do
  let s ← d.exec.openOp d.state
  drain d.exec fuel s

variable {τ : Type}

/-- The sequence calls of the items. -/
def evaluateItems (call : EStateM DbError τ Int64) :
    List AnalyzedSelectItem → EStateM DbError τ (List AnalyzedSelectItem)
  | [] => return []
  | item :: items => do
    let x ← evaluateSequenceCalls call item.expr
    let items ← evaluateItems call items
    return ⟨x, item.aliasName⟩ :: items

/-- The arm of `execute` for SELECT. Sequence calls are evaluated without a FROM clause only. -/
def executeSelect (call : EStateM DbError τ Int64) (an : AnalyzedSelectStatement)
    (fromExec : DynExecutor) : EStateM DbError τ (List Row) := do
  let an := substituteNowInSelect ev.now an
  let items ← if an.fromTree = .empty then evaluateItems call an.selectItems
    else pure an.selectItems
  match runPipeline fuel (buildSelectPipeline ev fuel { an with selectItems := items } fromExec) with
  | .ok rows => return rows
  | .error e => throw e

end Pipeline

/-- The statement ends and returns `rows`. -/
def Yields {τ : Type} (ev : Evaluation) (call : EStateM DbError τ Int64) (t : τ)
    (an : AnalyzedSelectStatement) (fromExec : DynExecutor) (rows : List Row) : Prop :=
  ∃ n t', ∀ fuel, n ≤ fuel → executeSelect ev fuel call an fromExec t = .ok rows t'

/-! ## What the operators put out -/

/-- The rows that pass a predicate. -/
def passing (arith : Arith) (predicate : AnalyzedExpr) : List Row → Except DbError (List Row)
  | [] => .ok []
  | t :: ts => do
    match ← evaluateExpr arith t predicate with
    | .bool true => do
      let rest ← passing arith predicate ts
      return t :: rest
    | .bool false => passing arith predicate ts
    | .null => passing arith predicate ts
    | other => .error (notBoolean "WHERE predicate" other)

section Outputs

variable {σ : Type} {arith : Arith} {predicate : AnalyzedExpr} {exprs : List AnalyzedExpr}
  {child : Executor σ} {s s' : σ} {raw rows : List Row}

theorem runs_of_drain {e : Executor σ} : ∀ {fuel : Nat} {s : σ} {rows : List Row},
    drain e fuel s = .ok rows → HashAggregate.Runs e s rows
  | 0, _, _, h => by cases h
  | fuel + 1, s, rows, h => by
    rw [drain] at h
    obtain ⟨⟨t, s'⟩, hnext, h⟩ := bind_ok.1 h
    cases t with
    | none =>
      cases h
      exact .done hnext
    | some row =>
      obtain ⟨rest, hrest, h⟩ := bind_ok.1 h
      cases h
      exact .row hnext (runs_of_drain hrest)

/-- What a filter puts out from `s'` on tells what it puts out from `s` on. -/
def Reads (arith : Arith) (predicate : AnalyzedExpr) (child : Executor σ) (s s' : σ) :
    Option Row → Prop
  | none => ∃ raw, HashAggregate.Runs child s raw ∧ passing arith predicate raw = .ok []
  | some t => ∀ raw rows, HashAggregate.Runs child s' raw → passing arith predicate raw = .ok rows →
      ∃ raw', HashAggregate.Runs child s raw' ∧ passing arith predicate raw' = .ok (t :: rows)

/-- A row that does not pass is in front of what the rest of a call reads. -/
theorem Reads.skip {s₁ : σ} {t : Option Row} {t₁ : Row} (h : Reads arith predicate child s₁ s' t)
    (hnext : child.next s = .ok (some t₁, s₁))
    (hpass : ∀ raw, passing arith predicate (t₁ :: raw) = passing arith predicate raw) :
    Reads arith predicate child s s' t := by
  cases t with
  | none =>
    obtain ⟨raw, hruns, hraw⟩ := h
    exact ⟨t₁ :: raw, .row hnext hruns, (hpass raw).trans hraw⟩
  | some t =>
    intro raw rows hruns hrows
    obtain ⟨raw', hruns', hraw'⟩ := h raw rows hruns hrows
    exact ⟨t₁ :: raw', .row hnext hruns', (hpass raw').trans hraw'⟩

/-- A call of `Filter::next` reads up to a row that passes. -/
theorem nextFilter_reads : ∀ {fuel : Nat} {s s' : σ} {t : Option Row},
    nextFilter arith predicate child fuel s = .ok (t, s') → Reads arith predicate child s s' t
  | 0, _, _, _, h => by cases h
  | fuel + 1, s, s', t, h => by
    rw [nextFilter] at h
    obtain ⟨⟨t₁, s₁⟩, hnext, h⟩ := bind_ok.1 h
    cases t₁ with
    | none =>
      cases h
      exact ⟨[], .done hnext, rfl⟩
    | some t₁ =>
      obtain ⟨v, hv, h⟩ := bind_ok.1 h
      split at h
      · cases h
        intro raw rows hruns hrows
        refine ⟨t₁ :: raw, .row hnext hruns, ?_⟩
        rw [passing, hv]
        show (do let rest ← passing arith predicate raw; return t₁ :: rest) = _
        rw [hrows]
        rfl
      · refine (nextFilter_reads h).skip hnext fun raw => ?_
        rw [passing, hv]
        rfl
      · refine (nextFilter_reads h).skip hnext fun raw => ?_
        rw [passing, hv]
        rfl
      · cases h

/-- What a filter puts out passed the predicate. -/
theorem raw_of_filter {fuel : Nat} (h : HashAggregate.Runs (filter arith predicate child fuel) s rows) :
    ∃ raw, HashAggregate.Runs child s raw ∧ passing arith predicate raw = .ok rows := by
  induction h with
  | done hnext => exact nextFilter_reads hnext
  | row hnext _ ih =>
    obtain ⟨raw, hruns, hraw⟩ := ih
    exact nextFilter_reads hnext raw _ hruns hraw

/-- The next row of a filter, whatever the fuel. -/
theorem nextFilter_of_runs (h : HashAggregate.Runs child s raw) (hrows : passing arith predicate raw = .ok rows) :
    (rows = [] ∧ ∃ s', ∀ fuel, raw.length < fuel →
      nextFilter arith predicate child fuel s = .ok (none, s')) ∨
    ∃ t rest raw' s', rows = t :: rest ∧ raw'.length < raw.length ∧ HashAggregate.Runs child s' raw' ∧
      passing arith predicate raw' = .ok rest ∧ ∀ fuel, raw.length < fuel →
        nextFilter arith predicate child fuel s = .ok (some t, s') := by
  induction h generalizing rows with
  | @done s s' hnext =>
    cases hrows
    refine Or.inl ⟨rfl, s', fun fuel hfuel => ?_⟩
    obtain ⟨fuel, rfl⟩ := Nat.exists_eq_add_of_lt hfuel
    rw [nextFilter, hnext]
    rfl
  | @row s s₁ t raw hnext hruns ih =>
    rw [passing] at hrows
    obtain ⟨v, hv, hrows⟩ := bind_ok.1 hrows
    have hskip : passing arith predicate raw = .ok rows →
        (∀ fuel, nextFilter arith predicate child (fuel + 1) s =
          nextFilter arith predicate child fuel s₁) →
        (rows = [] ∧ ∃ s', ∀ fuel, (t :: raw).length < fuel →
          nextFilter arith predicate child fuel s = .ok (none, s')) ∨
        ∃ t' rest raw' s', rows = t' :: rest ∧ raw'.length < (t :: raw).length ∧
          HashAggregate.Runs child s' raw' ∧ passing arith predicate raw' = .ok rest ∧
            ∀ fuel, (t :: raw).length < fuel →
              nextFilter arith predicate child fuel s = .ok (some t', s') := by
      intro hrest hnextFilter
      rcases ih hrest with ⟨hnil, s', hs'⟩ | ⟨t', rest, raw', s', heq, hlen, hruns', hpass, hs'⟩
      · refine Or.inl ⟨hnil, s', fun fuel hfuel => ?_⟩
        obtain ⟨fuel, rfl⟩ := Nat.exists_eq_add_of_lt hfuel
        rw [hnextFilter]
        exact hs' _ (by rw [List.length_cons]; omega)
      · refine Or.inr ⟨t', rest, raw', s', heq, Nat.lt_succ_of_lt hlen, hruns', hpass,
          fun fuel hfuel => ?_⟩
        obtain ⟨fuel, rfl⟩ := Nat.exists_eq_add_of_lt hfuel
        rw [hnextFilter]
        exact hs' _ (by rw [List.length_cons]; omega)
    have hunfold : ∀ fuel, nextFilter arith predicate child (fuel + 1) s = (do
        match ← evaluateExpr arith t predicate with
        | .bool true => .ok (some t, s₁)
        | .bool false => nextFilter arith predicate child fuel s₁
        | .null => nextFilter arith predicate child fuel s₁
        | other => .error (notBoolean "WHERE predicate" other)) := by
      intro fuel
      rw [nextFilter, hnext]
      rfl
    split at hrows
    · obtain ⟨rest, hrest, hrows⟩ := bind_ok.1 hrows
      cases hrows
      refine Or.inr ⟨t, rest, raw, s₁, rfl, Nat.lt_succ_self _, hruns, hrest, fun fuel hfuel => ?_⟩
      obtain ⟨fuel, rfl⟩ := Nat.exists_eq_add_of_lt hfuel
      rw [hunfold, hv]
      rfl
    · refine hskip hrows fun fuel => ?_
      rw [hunfold, hv]
      rfl
    · refine hskip hrows fun fuel => ?_
      rw [hunfold, hv]
      rfl
    · cases hrows

/-- **A filter puts out the rows that pass.** -/
theorem runs_filter {fuel : Nat} (h : HashAggregate.Runs child s raw)
    (hrows : passing arith predicate raw = .ok rows) (hfuel : raw.length < fuel) :
    HashAggregate.Runs (filter arith predicate child fuel) s rows := by
  induction rows generalizing s raw with
  | nil =>
    rcases nextFilter_of_runs h hrows with ⟨-, s', hs'⟩ | ⟨t, rest, raw', s', heq, -⟩
    · exact .done (hs' fuel hfuel)
    · cases heq
  | cons t rest ih =>
    rcases nextFilter_of_runs h hrows with ⟨heq, -⟩ | ⟨t', rest', raw', s', heq, hlen, hruns, hpass, hs'⟩
    · cases heq
    · cases heq
      exact .row (hs' fuel hfuel) (ih hruns hpass (Nat.lt_trans hlen hfuel))

/-- **A projection evaluates its expressions on every row.** -/
theorem runs_project : HashAggregate.Runs (project arith exprs child) s rows ↔
    ∃ raw, HashAggregate.Runs child s raw ∧ raw.mapM (fun t => exprs.mapM (evaluateExpr arith t)) = .ok rows := by
  constructor
  · intro h
    induction h with
    | done hnext =>
      obtain ⟨⟨t, s'⟩, ht, hnext⟩ := bind_ok.1 hnext
      cases t with
      | none => exact ⟨[], .done ht, rfl⟩
      | some t =>
        obtain ⟨row, -, hnext⟩ := bind_ok.1 hnext
        cases hnext
    | row hnext _ ih =>
      obtain ⟨raw, hruns, hraw⟩ := ih
      obtain ⟨⟨t, s'⟩, ht, hnext⟩ := bind_ok.1 hnext
      cases t with
      | none => cases hnext
      | some t =>
        obtain ⟨row, hrow, hnext⟩ := bind_ok.1 hnext
        cases hnext
        refine ⟨t :: raw, .row ht hruns, ?_⟩
        rw [List.mapM_cons, hrow, hraw]
        rfl
  · rintro ⟨raw, h, hrows⟩
    induction h generalizing rows with
    | @done s s' hnext =>
      cases hrows
      have hproject : (project arith exprs child).next s = .ok (none, s') := by
        simp only [project, hnext, bind, Except.bind]
      exact .done hproject
    | @row s s₁ t ts hnext _ ih =>
      rw [List.mapM_cons] at hrows
      obtain ⟨row, hrow, hrows⟩ := bind_ok.1 hrows
      obtain ⟨rest, hrest, hrows⟩ := bind_ok.1 hrows
      cases hrows
      have hproject : (project arith exprs child).next s = .ok (some row, s₁) := by
        simp only [project, hnext, hrow, bind, Except.bind]
      exact .row hproject (ih hrest)

end Outputs

/-- Opened, the executor puts out the rows. -/
def Outputs (d : DynExecutor) (rows : List Row) : Prop :=
  ∃ s, d.exec.openOp d.state = .ok s ∧ HashAggregate.Runs d.exec s rows

/-- The rows that pass WHERE. -/
def passes (arith : Arith) (predicate : Option AnalyzedExpr) (rows : List Row) :
    Except DbError (List Row) :=
  match predicate with
  | some p => passing arith p rows
  | none => .ok rows

section Stack

variable {ev : Evaluation} {d : DynExecutor} {rows raw out : List Row} {fuel : Nat}

theorem outputs_of_run (h : runPipeline fuel d = .ok rows) : Outputs d rows := by
  obtain ⟨s, hopen, hdrain⟩ := bind_ok.1 h
  exact ⟨s, hopen, runs_of_drain hdrain⟩

theorem Outputs.run (h : Outputs d rows) (hfuel : rows.length < fuel) :
    runPipeline fuel d = .ok rows := by
  obtain ⟨s, hopen, hruns⟩ := h
  exact bind_ok.2 ⟨s, hopen, hruns.drain hfuel⟩

theorem outputs_of_filtered {predicate : Option AnalyzedExpr}
    (h : Outputs (filtered ev fuel predicate d) rows) :
    ∃ raw, Outputs d raw ∧ passes ev.arith predicate raw = .ok rows := by
  cases predicate with
  | none => exact ⟨rows, h, rfl⟩
  | some p =>
    obtain ⟨s, hopen, hruns⟩ := h
    obtain ⟨raw, hraw, hpass⟩ := raw_of_filter hruns
    exact ⟨raw, ⟨s, hopen, hraw⟩, hpass⟩

theorem outputs_filtered {predicate : Option AnalyzedExpr} (h : Outputs d raw)
    (hpass : passes ev.arith predicate raw = .ok rows) (hfuel : raw.length < fuel) :
    Outputs (filtered ev fuel predicate d) rows := by
  cases predicate with
  | none =>
    cases hpass
    exact h
  | some p =>
    obtain ⟨s, hopen, hruns⟩ := h
    exact ⟨s, hopen, runs_filter hruns hpass hfuel⟩

/-- **An aggregation puts out what it builds from the rows of its child.** -/
theorem outputs_aggregated {agg : AnalyzedAggregation} (h : Outputs d rows)
    (hout : (HashAggregate.Plan.mk agg.groupKeys agg.aggregates ev.build ev.f64 ev.arith).buildRows
      rows = .ok out) (hfuel : rows.length < fuel) :
    Outputs (aggregatedBy ev fuel (some agg) d) out := by
  obtain ⟨s, hopen, hruns⟩ := h
  obtain ⟨c, hbuilt⟩ := HashAggregate.openOp_runs
    (p := ⟨agg.groupKeys, agg.aggregates, ev.build, ev.f64, ev.arith⟩) hopen hruns
  have hopened := hbuilt fuel hfuel
  rw [hout] at hopened
  have hdelivers := HashAggregate.delivers_of_buffer (fun _ => rfl) hopened fun s hinit => by
    simp [HashAggregate.hashAggregate, hinit, bind, Except.bind]
  exact ⟨_, hopened, HashAggregate.runs_of_delivers hdelivers ⟨rfl, rfl, rfl⟩⟩

end Stack

/-! ## What the second analysis takes -/

/-- The columns an expression reads; the arguments of a builtin are literals. -/
def columnNames : Expr → List (Option String × String)
  | .literal _ => []
  | .column qualifier name => [(qualifier, name)]
  | .binaryOp l _ r => columnNames l ++ columnNames r
  | .unaryOp _ e => columnNames e
  | .isNull e _ => columnNames e
  | .funcCall _ _ => []
  | .param _ => []

/-- The name is that of a key. -/
def Grouped (a : Analyzer) (groupKeys : List AnalyzedExpr) (ref : Option String × String) : Prop :=
  ∃ c, a.resolveColumn ref.1 ref.2 = .ok c ∧ ∃ gk ∈ groupKeys, sameExpr gk (.columnRef c)

section Accepts

variable {a : Analyzer} {groupKeys : List AnalyzedExpr} {e : Expr} {x : AnalyzedExpr}

theorem findIdx?_sameExpr (c : AnalyzedColumnRef) :
    (groupKeys.findIdx? (sameExpr · (.columnRef c))).isSome ↔
      ∃ gk ∈ groupKeys, sameExpr gk (.columnRef c) := by
  rw [List.findIdx?_isSome, List.any_eq_true]

/-- **The second analysis of an accepted expression** asks for its columns only, and collects no
aggregates. -/
theorem postAgg_accepts (groupKeys : List AnalyzedExpr) (hx : a.analyzeExpr e = .ok x)
    (aggs : List AnalyzedAggregate) :
    ((∀ ref ∈ columnNames e, Grouped a groupKeys ref) →
      ∃ x', analyzePostAgg a groupKeys e aggs = .ok (x', aggs)) ∧
    ∀ x' aggs', analyzePostAgg a groupKeys e aggs = .ok (x', aggs') →
      aggs' = aggs ∧ ∀ ref ∈ columnNames e, Grouped a groupKeys ref := by
  induction e using analyzeExpr_cases generalizing x with
  | case1 l =>
    refine ⟨fun _ => ⟨_, rfl⟩, fun x' aggs' h => ?_⟩
    cases h
    exact ⟨rfl, fun ref href => by cases href⟩
  | case2 qualifier name =>
    obtain ⟨c, hc, -⟩ := bind_ok.1 hx
    rw [analyzePostAgg, hc]
    constructor
    · intro hgrouped
      obtain ⟨c', hc', hkey⟩ := hgrouped (qualifier, name) List.mem_cons_self
      rw [hc] at hc'
      cases hc'
      obtain ⟨pos, hpos⟩ := Option.isSome_iff_exists.1 ((findIdx?_sameExpr c).2 hkey)
      refine ⟨.columnRef ⟨pos, c.dataType⟩, ?_⟩
      simp only [bind, Except.bind, hpos]
    · intro x' aggs' h
      simp only [bind, Except.bind] at h
      split at h
      · cases h
      · next pos hpos =>
        cases h
        refine ⟨rfl, fun ref href => ?_⟩
        cases List.mem_singleton.1 href
        exact ⟨c, hc, (findIdx?_sameExpr c).1 (hpos ▸ rfl)⟩
  | case3 left op right ihl ihr =>
    obtain ⟨l, hl, hx⟩ := bind_ok.1 hx
    obtain ⟨r, hr, -⟩ := bind_ok.1 hx
    obtain ⟨hlto, hlof⟩ := ihl hl
    obtain ⟨hrto, hrof⟩ := ihr hr
    rw [columnNames]
    constructor
    · intro hgrouped
      obtain ⟨l', hl'⟩ := hlto fun ref href => hgrouped ref (List.mem_append_left _ href)
      obtain ⟨r', hr'⟩ := hrto fun ref href => hgrouped ref (List.mem_append_right _ href)
      refine ⟨.binaryOp l' op r' (inferBinaryType op l'.dataType r'.dataType), ?_⟩
      rw [analyzePostAgg, hl']
      simp only [bind, Except.bind, hr']
      rfl
    · intro x' aggs' h
      obtain ⟨⟨l', aggs₁⟩, hl', h⟩ := bind_ok.1 h
      obtain ⟨⟨r', aggs₂⟩, hr', h⟩ := bind_ok.1 h
      cases h
      obtain ⟨rfl, hleft⟩ := hlof _ _ hl'
      obtain ⟨rfl, hright⟩ := hrof _ _ hr'
      exact ⟨rfl, fun ref href => (List.mem_append.1 href).elim (hleft ref) (hright ref)⟩
  | case4 op expr ih =>
    obtain ⟨inner, hinner, -⟩ := bind_ok.1 hx
    obtain ⟨hto, hof⟩ := ih hinner
    constructor
    · intro hgrouped
      obtain ⟨x', hx'⟩ := hto hgrouped
      refine ⟨.unaryOp op x' (inferUnaryType op), ?_⟩
      rw [analyzePostAgg, hx']
      rfl
    · intro x' aggs' h
      obtain ⟨⟨y, aggs₁⟩, hy, h⟩ := bind_ok.1 h
      cases h
      exact hof _ _ hy
  | case5 expr negated ih =>
    obtain ⟨inner, hinner, -⟩ := bind_ok.1 hx
    obtain ⟨hto, hof⟩ := ih hinner
    constructor
    · intro hgrouped
      obtain ⟨x', hx'⟩ := hto hgrouped
      refine ⟨.isNull x' negated, ?_⟩
      rw [analyzePostAgg, hx']
      rfl
    · intro x' aggs' h
      obtain ⟨⟨y, aggs₁⟩, hy, h⟩ := bind_ok.1 h
      cases h
      exact hof _ _ hy
  | case6 name args =>
    rw [Analyzer.analyzeExpr] at hx
    obtain ⟨b, hb, hx⟩ := bind_ok.1 hx
    cases b with
    | none =>
      dsimp only at hx
      split at hx <;> cases hx
    | some y =>
      have hpost : analyzePostAgg a groupKeys (.funcCall name args) aggs = .ok (y, aggs) := by
        rw [analyzePostAgg, hb]
        rfl
      refine ⟨fun _ => ⟨y, hpost⟩, fun x' aggs' h => ?_⟩
      rw [hpost] at h
      cases h
      exact ⟨rfl, fun ref href => by cases href⟩
  | case7 n => cases hx

end Accepts

/-! ## The statement with and without DISTINCT -/

/-- `SELECT e1, ..., en FROM ... WHERE ...`. -/
def plainSelect (items : List (Expr × Option String)) (clause : Ast.FromClause)
    (whereClause : Option Expr) : SelectStatement where
  columns := items.map fun item => .expr item.1 item.2
  fromClause := clause
  whereClause := whereClause
  groupBy := []
  having := none
  orderBy := []
  limit := none
  distinct := false

/-- `SELECT DISTINCT e1, ..., en FROM ... WHERE ...`. -/
def distinctSelect (items : List (Expr × Option String)) (clause : Ast.FromClause)
    (whereClause : Option Expr) : SelectStatement :=
  { plainSelect items clause whereClause with distinct := true }

/-- The expression is the bare column of the name. -/
def IsColumn (a : Analyzer) (e : Expr) (ref : Option String × String) : Prop :=
  ∃ qualifier name c c', e = .column qualifier name ∧ a.resolveColumn qualifier name = .ok c' ∧
    a.resolveColumn ref.1 ref.2 = .ok c ∧ c'.columnIndex = c.columnIndex

section Statement

variable {cat : Tables} {findSequence : String → Except DbError Bool}
  {items : List (Expr × Option String)} {clause : Ast.FromClause} {whereClause : Option Expr}
  {an an' : AnalyzedSelectStatement} {a : Analyzer}

theorem hasAggregateCall_items (hfree : ∀ item ∈ items, containsAggregate item.1 = false)
    (distinct : Bool) :
    hasAggregateCall { plainSelect items clause whereClause with distinct := distinct } = false := by
  unfold hasAggregateCall plainSelect
  rw [Option.map_none, Option.getD_none, Bool.or_false, List.any_map, List.any_eq_false]
  intro item hitem
  show ¬ containsAggregate item.1 = true
  rw [hfree item hitem]
  exact Bool.false_ne_true

theorem distinctKeys_items (hfree : ∀ item ∈ items, containsAggregate item.1 = false) :
    distinctKeys (items.map fun item => SelectColumn.expr item.1 item.2) =
      .ok (items.map Prod.fst) := by
  induction items with
  | nil => rfl
  | cons item items ih =>
    rw [List.map_cons, distinctKeys, hfree item List.mem_cons_self,
      ih fun item hitem => hfree item (List.mem_cons_of_mem _ hitem)]
    rfl

theorem plainItems_ok {selectItems : List AnalyzedSelectItem}
    (h : plainItems a (items.map fun item => SelectColumn.expr item.1 item.2) = .ok selectItems) :
    List.Forall₂ (fun item it => a.analyzeExpr item.1 = .ok it.expr) items selectItems := by
  induction items generalizing selectItems with
  | nil =>
    cases h
    exact .nil
  | cons item items ih =>
    obtain ⟨x, hx, h⟩ := bind_ok.1 h
    obtain ⟨rest, hrest, h⟩ := bind_ok.1 h
    cases h
    exact .cons hx (ih hrest)

/-- What the analysis of the plain statement consists of. -/
theorem plainSelect_ok (hfree : ∀ item ∈ items, containsAggregate item.1 = false)
    (h : analyzeSelect cat findSequence (plainSelect items clause whereClause) = .ok an) :
    (∃ w, FromClause.analyzeFrom cat clause 0 (.start findSequence) =
      .ok ((an.fromTree, w), an.scope)) ∧
    analyzeWhere an.scope.analyzer whereClause = .ok an.whereClause ∧
    List.Forall₂ (fun item it => an.scope.analyzer.analyzeExpr item.1 = .ok it.expr) items
      an.selectItems ∧
    an.aggregation = none ∧ an.having = none ∧ an.orderBy = [] ∧ an.limit = none := by
  obtain ⟨w, keys, groupKeys, out, hfrom, hwhere, hkeys, hgroup, hout, h₁, h₂, h₃, h₄, h₅⟩ :=
    analyzeSelect_ok h
  cases hkeys
  cases hgroup
  unfold branch at hout
  have hnone : hasAggregateCall (plainSelect items clause whereClause) = false :=
    hasAggregateCall_items hfree false
  rw [if_neg (by rw [hnone]; simp)] at hout
  obtain ⟨selectItems, hitems, hout⟩ := bind_ok.1 hout
  cases hout
  rw [h₁, h₂, h₃, h₄, h₅]
  exact ⟨⟨w, hfrom⟩, hwhere, plainItems_ok hitems, rfl, rfl, rfl, rfl⟩

theorem mapM_of_forall₂ {α β : Type} {f : α → Except DbError β} {as : List α} {bs : List β}
    (h : List.Forall₂ (fun a b => f a = .ok b) as bs) : as.mapM f = .ok bs := by
  induction h with
  | nil => rfl
  | cons hab _ ih =>
    rw [List.mapM_cons, hab, ih]
    rfl

/-- DISTINCT groups by the analyzed items and analyzes them again. -/
theorem analyzeSelect_distinct (hne : items ≠ [])
    (hfree : ∀ item ∈ items, containsAggregate item.1 = false)
    (h : analyzeSelect cat findSequence (plainSelect items clause whereClause) = .ok an) :
    analyzeSelect cat findSequence (distinctSelect items clause whereClause) = (do
      let (selectItems, aggs) ← postAggItems an.scope.analyzer
        (an.selectItems.map AnalyzedSelectItem.expr)
        (items.map fun item => .expr item.1 item.2) []
      return ⟨an.scope, an.fromTree, an.whereClause,
        some ⟨an.selectItems.map AnalyzedSelectItem.expr, aggs⟩, selectItems, none, [], none⟩) := by
  obtain ⟨⟨w, hfrom⟩, hwhere, hitems, -⟩ := plainSelect_ok hfree h
  have hkeys : groupByAst (distinctSelect items clause whereClause) = .ok (items.map Prod.fst) := by
    unfold groupByAst
    exact distinctKeys_items hfree
  have hgroup : (items.map Prod.fst).mapM an.scope.analyzer.analyzeExpr =
      .ok (an.selectItems.map AnalyzedSelectItem.expr) := by
    refine mapM_of_forall₂ ?_
    rw [List.forall₂_map_left_iff, List.forall₂_map_right_iff]
    exact hitems
  have hsome : an.selectItems.map AnalyzedSelectItem.expr ≠ [] := by
    intro hnil
    rw [List.map_eq_nil_iff.1 hnil, List.forall₂_nil_right_iff] at hitems
    exact hne hitems
  unfold analyzeSelect
  rw [show (distinctSelect items clause whereClause).fromClause = clause from rfl, hfrom,
    show (distinctSelect items clause whereClause).whereClause = whereClause from rfl, hkeys]
  simp only [bind, Except.bind, hwhere, hgroup, branch]
  rw [if_pos (Or.inl hsome)]
  unfold aggregated
  rw [show (distinctSelect items clause whereClause).columns =
    items.map fun item => .expr item.1 item.2 from rfl]
  cases postAggItems an.scope.analyzer (an.selectItems.map AnalyzedSelectItem.expr)
      (items.map fun item => .expr item.1 item.2) [] with
  | error e => rfl
  | ok r => rfl

/-- A key that is a column comes from an item that is one. -/
theorem analyzeExpr_columnRef {e : Expr} {c : AnalyzedColumnRef}
    (h : a.analyzeExpr e = .ok (.columnRef c)) :
    ∃ qualifier name, e = .column qualifier name ∧ a.resolveColumn qualifier name = .ok c := by
  cases e with
  | literal l => cases h
  | column qualifier name =>
    obtain ⟨c', hc', h⟩ := bind_ok.1 h
    cases h
    exact ⟨qualifier, name, rfl, hc'⟩
  | binaryOp l op r =>
    obtain ⟨x, -, h⟩ := bind_ok.1 h
    obtain ⟨y, -, h⟩ := bind_ok.1 h
    cases h
  | unaryOp op e =>
    obtain ⟨x, -, h⟩ := bind_ok.1 h
    cases h
  | isNull e negated =>
    obtain ⟨x, -, h⟩ := bind_ok.1 h
    cases h
  | funcCall name args =>
    rw [Analyzer.analyzeExpr] at h
    obtain ⟨b, hb, h⟩ := bind_ok.1 h
    cases b with
    | none =>
      dsimp only at h
      split at h <;> cases h
    | some y =>
      cases h
      rcases analyzeScalarBuiltin_some hb with hy | hy <;> cases hy
  | param n => cases h

/-- The keys DISTINCT groups by and the items. -/
theorem grouped_iff {selectItems : List AnalyzedSelectItem}
    (h : List.Forall₂ (fun item it => a.analyzeExpr item.1 = .ok it.expr) items selectItems)
    (ref : Option String × String) :
    Grouped a (selectItems.map AnalyzedSelectItem.expr) ref ↔
      ∃ item ∈ items, IsColumn a item.1 ref := by
  constructor
  · rintro ⟨c, hc, gk, hgk, hsame⟩
    obtain ⟨c', rfl, hindex⟩ := sameExpr_columnRef hsame
    obtain ⟨it, hit, hexpr⟩ := List.mem_map.1 hgk
    obtain ⟨item, hitem, hanalyzed⟩ := exists_of_forall₂ h.flip hit
    replace hanalyzed : a.analyzeExpr item.1 = .ok it.expr := hanalyzed
    rw [hexpr] at hanalyzed
    obtain ⟨qualifier, name, he, hc'⟩ := analyzeExpr_columnRef hanalyzed
    exact ⟨item, hitem, qualifier, name, c, c', he, hc', hc, hindex⟩
  · rintro ⟨item, hitem, qualifier, name, c, c', he, hc', hc, hindex⟩
    obtain ⟨it, hit, hanalyzed⟩ := exists_of_forall₂ h hitem
    rw [he] at hanalyzed
    obtain ⟨c'', hc'', hexpr⟩ := bind_ok.1 hanalyzed
    rw [hc'] at hc''
    cases hc''
    refine ⟨c, hc, .columnRef c', List.mem_map.2 ⟨it, hit, ?_⟩, decide_eq_true hindex⟩
    exact (Except.ok.inj hexpr).symm

/-- Which lists of items the second analysis takes. -/
theorem postAggItems_accepts (groupKeys : List AnalyzedExpr)
    {selectItems : List AnalyzedSelectItem}
    (h : List.Forall₂ (fun item it => a.analyzeExpr item.1 = .ok it.expr) items selectItems)
    (aggs : List AnalyzedAggregate) :
    ((∀ item ∈ items, ∀ ref ∈ columnNames item.1, Grouped a groupKeys ref) →
      ∃ its, postAggItems a groupKeys (items.map fun item => .expr item.1 item.2) aggs =
        .ok (its, aggs)) ∧
    ∀ its aggs', postAggItems a groupKeys (items.map fun item => .expr item.1 item.2) aggs =
      .ok (its, aggs') →
      aggs' = aggs ∧ ∀ item ∈ items, ∀ ref ∈ columnNames item.1, Grouped a groupKeys ref := by
  induction h with
  | nil =>
    refine ⟨fun _ => ⟨[], rfl⟩, fun its aggs' h => ?_⟩
    cases h
    exact ⟨rfl, fun item hitem => by cases hitem⟩
  | @cons item it items selectItems hx _ ih =>
    obtain ⟨hto, hof⟩ := postAgg_accepts groupKeys hx aggs
    constructor
    · intro hgrouped
      obtain ⟨x', hx'⟩ := hto (hgrouped item List.mem_cons_self)
      obtain ⟨its, hits⟩ := ih.1 fun item' hitem' => hgrouped item' (List.mem_cons_of_mem _ hitem')
      refine ⟨⟨x', item.2⟩ :: its, ?_⟩
      rw [List.map_cons, postAggItems, hx']
      simp only [bind, Except.bind, hits]
      rfl
    · intro its aggs' hits
      obtain ⟨⟨x', aggs₁⟩, hx', hits⟩ := bind_ok.1 hits
      obtain ⟨⟨rest, aggs₂⟩, hrest, hits⟩ := bind_ok.1 hits
      cases hits
      obtain ⟨rfl, hhead⟩ := hof _ _ hx'
      obtain ⟨rfl, htail⟩ := ih.2 _ _ hrest
      refine ⟨rfl, fun item' hitem' => ?_⟩
      rcases List.mem_cons.1 hitem' with rfl | hitem'
      · exact hhead
      · exact htail item' hitem'

end Statement

/-! ## The two runs -/

theorem analyzeFrom_ne_empty {cat : Tables} {clause : Ast.FromClause} {offset w : Nat}
    {st st' : FromClause.State} {tree : FromClause.AnalyzedFrom} (hclause : clause ≠ .empty)
    (h : FromClause.analyzeFrom cat clause offset st = .ok ((tree, w), st')) : tree ≠ .empty := by
  cases clause with
  | empty => exact absurd rfl hclause
  | table t =>
    obtain ⟨⟨rte, st₁⟩, -, h⟩ := bind_ok.1 h
    obtain ⟨width, -, h⟩ := bind_ok.1 h
    cases h
    exact nofun
  | join left right joinType on =>
    obtain ⟨⟨⟨left', w₁⟩, st₁⟩, -, h⟩ := bind_ok.1 h
    obtain ⟨⟨rte, st₂⟩, -, h⟩ := bind_ok.1 h
    obtain ⟨width, -, h⟩ := bind_ok.1 h
    obtain ⟨on', -, h⟩ := bind_ok.1 h
    split at h
    · cases h
      exact nofun
    · cases h

section Runs

variable {τ : Type} {ev : Evaluation} {call : EStateM DbError τ Int64} {t : τ}
  {scope : FromClause.State} {tree : FromClause.AnalyzedFrom} {whereClause : Option AnalyzedExpr}
  {selectItems : List AnalyzedSelectItem} {fromExec : DynExecutor} {raw rows groups out : List Row}

/-- With a FROM clause, running the statement is running its pipeline. -/
theorem executeSelect_ok {an : AnalyzedSelectStatement} (htree : an.fromTree ≠ .empty) {fuel : Nat}
    {t' : τ} : executeSelect ev fuel call an fromExec t = .ok rows t' ↔
      t' = t ∧ runPipeline fuel
        (buildSelectPipeline ev fuel (substituteNowInSelect ev.now an) fromExec) = .ok rows := by
  have htree' : (substituteNowInSelect ev.now an).fromTree ≠ .empty := by
    show FromClause.substituteNowInFrom ev.now an.fromTree ≠ .empty
    cases htree'' : an.fromTree with
    | empty => exact absurd htree'' htree
    | table rte => exact nofun
    | join left rte joinType on => exact nofun
  unfold executeSelect
  rw [if_neg htree']
  show (match runPipeline fuel
    (buildSelectPipeline ev fuel (substituteNowInSelect ev.now an) fromExec) with
    | .ok rows => EStateM.pure rows
    | .error e => EStateM.throw e) t = _ ↔ _
  cases runPipeline fuel (buildSelectPipeline ev fuel (substituteNowInSelect ev.now an) fromExec) with
  | error e =>
    constructor
    · intro h
      cases h
    · rintro ⟨-, h⟩
      cases h
  | ok rows' =>
    constructor
    · intro h
      cases h
      exact ⟨rfl, rfl⟩
    · rintro ⟨rfl, h⟩
      cases h
      rfl

/-- The rows of a statement without aggregation. -/
theorem yields_plain_iff (htree : tree ≠ .empty) :
    Yields ev call t ⟨scope, tree, whereClause, none, selectItems, none, [], none⟩ fromExec out ↔
    ∃ raw rows, Outputs fromExec raw ∧
      passes ev.arith (whereClause.map (substituteNow ev.now)) raw = .ok rows ∧
      rows.mapM (fun r => (selectItems.map fun it => substituteNow ev.now it.expr).mapM
        (evaluateExpr ev.arith r)) = .ok out := by
  have hmap : ∀ rows : List Row,
      (rows.mapM fun r => ((selectItems.map fun item => AnalyzedSelectItem.mk
        (substituteNow ev.now item.expr) item.aliasName).map AnalyzedSelectItem.expr).mapM
          (evaluateExpr ev.arith r)) =
      rows.mapM fun r => (selectItems.map fun it => substituteNow ev.now it.expr).mapM
        (evaluateExpr ev.arith r) := by
    intro rows
    rw [List.map_map]
    rfl
  constructor
  · rintro ⟨n, t', h⟩
    obtain ⟨-, hrun⟩ := (executeSelect_ok htree).1 (h n (Nat.le_refl n))
    obtain ⟨s, hopen, hruns⟩ := outputs_of_run hrun
    obtain ⟨rows, hrows, hproject⟩ := runs_project.1 hruns
    have hfiltered :
        Outputs (filtered ev n (whereClause.map (substituteNow ev.now)) fromExec) rows :=
      ⟨s, hopen, hrows⟩
    obtain ⟨raw, hraw, hpass⟩ := outputs_of_filtered hfiltered
    exact ⟨raw, rows, hraw, hpass, (hmap rows).symm.trans hproject⟩
  · rintro ⟨raw, rows, hraw, hpass, hout⟩
    refine ⟨raw.length + out.length + 1, t, fun fuel hfuel => (executeSelect_ok htree).2 ⟨rfl, ?_⟩⟩
    have hfiltered :
        Outputs (filtered ev fuel (whereClause.map (substituteNow ev.now)) fromExec) rows :=
      outputs_filtered hraw hpass (by omega)
    obtain ⟨s, hopen, hruns⟩ := hfiltered
    exact Outputs.run ⟨s, hopen, runs_project.2 ⟨rows, hruns, (hmap rows).trans hout⟩⟩ (by omega)

/-- The rows of a statement with one. -/
theorem yields_grouped {agg : AnalyzedAggregation} (htree : tree ≠ .empty) (hraw : Outputs fromExec raw)
    (hpass : passes ev.arith (whereClause.map (substituteNow ev.now)) raw = .ok rows)
    (hgroups : (ev.plan agg).buildRows rows = .ok groups)
    (hitems : groups.mapM (fun r => (selectItems.map fun it => substituteNow ev.now it.expr).mapM
      (evaluateExpr ev.arith r)) = .ok out) :
    Yields ev call t ⟨scope, tree, whereClause, some agg, selectItems, none, [], none⟩ fromExec out := by
  refine ⟨raw.length + rows.length + out.length + 1, t, fun fuel hfuel => ?_⟩
  rw [executeSelect_ok htree]
  refine ⟨rfl, ?_⟩
  have hfiltered : Outputs (filtered ev fuel (whereClause.map (substituteNow ev.now)) fromExec) rows :=
    outputs_filtered hraw hpass (by omega)
  have hagg : Outputs (aggregatedBy ev fuel (some ⟨agg.groupKeys.map (substituteNow ev.now),
      agg.aggregates.map (substituteNowInAgg ev.now)⟩)
      (filtered ev fuel (whereClause.map (substituteNow ev.now)) fromExec)) groups :=
    outputs_aggregated hfiltered hgroups (by omega)
  obtain ⟨s, hopen, hruns⟩ := hagg
  have hlen : groups.length = out.length := (HashAggregate.length_of_mapM hitems).symm
  refine Outputs.run ⟨s, hopen, runs_project.2 ⟨groups, hruns, ?_⟩⟩ (by omega)
  rw [← hitems]
  show (groups.mapM fun r => ((selectItems.map fun item => AnalyzedSelectItem.mk
    (substituteNow ev.now item.expr) item.aliasName).map AnalyzedSelectItem.expr).mapM
      (evaluateExpr ev.arith r)) = _
  rw [List.map_map]
  rfl

end Runs

/-! ## The distinct rows -/

section Rows

variable {ev : Evaluation} {a : Analyzer} {e : Expr} {x : AnalyzedExpr}

/-- An operator with keys alone puts out the distinct keys. -/
theorem buildRows_keys {groupKeys : List AnalyzedExpr} {rows ks : List Row}
    (hks : rows.mapM (ev.plan ⟨groupKeys, []⟩).keyOf = .ok ks) :
    (ev.plan ⟨groupKeys, []⟩).buildRows rows = .ok (Grouping.firsts keysEq ks) := by
  refine HashAggregate.buildRows_iff.2 ⟨ks, hks, ?_⟩
  have hlen : ks.length = rows.length := HashAggregate.length_of_mapM hks
  have hone : ¬ (ev.plan ⟨groupKeys, []⟩).OneGroup rows := fun hone => hone.2.2 rfl
  rw [HashAggregate.Plan.outputGroups, if_neg hone]
  unfold HashAggregate.Plan.Output
  have hkeys : (ks.zip rows).map Prod.fst = ks := List.map_fst_zip (le_of_eq hlen)
  have hfirsts := Grouping.keys_groups keysEq (ks.zip rows)
  rw [hkeys] at hfirsts
  rw [← hfirsts, List.forall₂_map_right_iff, List.forall₂_same]
  exact fun g _ => ⟨[], .nil, (List.append_nil _).symm⟩

/-- On a single row an expression without aggregates is what it is on the row. -/
theorem groupValue_row (ev : Evaluation) (hx : a.analyzeExpr e = .ok x) (row : Row) :
    ev.onGroup a e [row] = ev.rowValue (columns a) row e := by
  unfold Evaluation.onGroup
  induction e using analyzeExpr_cases generalizing x with
  | case1 l => rfl
  | case2 qualifier name => rfl
  | case3 left op right ihl ihr =>
    obtain ⟨l, hl, hx⟩ := bind_ok.1 hx
    obtain ⟨r, hr, -⟩ := bind_ok.1 hx
    rw [Evaluation.groupValue, Evaluation.rowValue, ihl hl, ihr hr]
  | case4 op expr ih | case5 expr negated ih =>
    obtain ⟨inner, hinner, -⟩ := bind_ok.1 hx
    rw [Evaluation.groupValue, Evaluation.rowValue, ih hinner]
  | case6 name args =>
    rw [Analyzer.analyzeExpr] at hx
    obtain ⟨b, hb, hx⟩ := bind_ok.1 hx
    cases b with
    | none =>
      dsimp only at hx
      split at hx <;> cases hx
    | some y =>
      have hbuiltin := (builtin_some ev hb).1 row
      rw [Evaluation.groupValue, Evaluation.rowValue, hbuiltin]
      rfl
  | case7 n => cases hx

theorem forall₂_comp {α β γ : Type} {R : α → β → Prop} {S : α → γ → Prop} {as : List α}
    {bs : List β} {cs : List γ} (h : List.Forall₂ R as bs) (h' : List.Forall₂ S as cs) :
    List.Forall₂ (fun b c => ∃ a, R a b ∧ S a c) bs cs := by
  induction h generalizing cs with
  | nil =>
    cases h'
    exact .nil
  | @cons a b as bs hab _ ih =>
    cases h' with
    | cons hac h' => exact .cons ⟨a, hab, hac⟩ (ih h')

/-- **The rewritten items give back the key.** -/
theorem items_of_key {items : List (Expr × Option String)}
    {selectItems its : List AnalyzedSelectItem} {row key : Row}
    (hitems : List.Forall₂ (fun item it => a.analyzeExpr item.1 = .ok it.expr) items selectItems)
    (hpost : postAggItems a (selectItems.map AnalyzedSelectItem.expr)
      (items.map fun item => .expr item.1 item.2) [] = .ok (its, []))
    (hkey : (ev.plan ⟨selectItems.map AnalyzedSelectItem.expr, []⟩).keyOf row = .ok key) :
    (its.map fun it => substituteNow ev.now it.expr).mapM (evaluateExpr ev.arith key) = .ok key := by
  have hgroup : IsGroup ev ⟨selectItems.map AnalyzedSelectItem.expr, []⟩ key [row] [] := by
    refine ⟨fun r hr => ?_, ?_, Or.inl (List.cons_ne_nil _ _), .nil⟩
    · rw [List.mem_singleton.1 hr]
      exact hkey
    · rw [HashAggregate.length_of_mapM hkey]
      exact List.length_map _
  -- an item, the key's value and the rewritten item
  have hvalues : List.Forall₂ (fun item v => ev.onGroup a item.1 [row] = .ok v) items key := by
    have hkeys := forall₂_of_mapM hkey
    rw [show (ev.plan ⟨selectItems.map AnalyzedSelectItem.expr, []⟩).groupKeys =
      (selectItems.map AnalyzedSelectItem.expr).map (substituteNow ev.now) from rfl,
      List.forall₂_map_right_iff, List.forall₂_map_right_iff] at hkeys
    refine (forall₂_comp hitems.flip hkeys.flip).imp fun item v hboth => ?_
    obtain ⟨it, hitem, hv⟩ := hboth
    rw [groupValue_row ev hitem, (rowValue_analyzed ev hitem).1]
    exact hv
  obtain ⟨-, hfaithful⟩ := postAggItems_faithful ev hpost
  rw [List.forall₂_map_left_iff] at hfaithful
  refine mapM_of_forall₂ ?_
  rw [List.forall₂_map_left_iff]
  refine (forall₂_comp hfaithful hvalues).imp fun it v hboth => ?_
  obtain ⟨item, ⟨e, he, hf⟩, hv⟩ := hboth
  rw [← hv, (SelectColumn.expr.inj he).1, ← hf [] key [row] [] hgroup]
  exact congrArg (evaluateExpr ev.arith · _) (List.append_nil key).symm

end Rows

/-! ## The statement -/

/-- **When DISTINCT means de-duplication**: of an accepted query of expressions without aggregates
that returns rows, SELECT DISTINCT is accepted and returns the distinct ones in the order they
first appear, exactly if every column an item reads is an item itself. -/
theorem distinct_iff {cat : Tables} {findSequence : String → Except DbError Bool}
    {items : List (Expr × Option String)} {clause : Ast.FromClause} {whereClause : Option Expr}
    {an : AnalyzedSelectStatement} (hne : items ≠ []) (hclause : clause ≠ .empty)
    (hfree : ∀ item ∈ items, containsAggregate item.1 = false)
    (h : analyzeSelect cat findSequence (plainSelect items clause whereClause) = .ok an)
    {ev : Evaluation} {τ : Type} {call : EStateM DbError τ Int64} {t : τ} {fromExec : DynExecutor}
    {out : List Row} (hrun : Yields ev call t an fromExec out) :
    (∃ an', analyzeSelect cat findSequence (distinctSelect items clause whereClause) = .ok an' ∧
      an'.scope = an.scope ∧ an'.fromTree = an.fromTree ∧ an'.whereClause = an.whereClause ∧
      Yields ev call t an' fromExec (Grouping.firsts keysEq out)) ↔
    ∀ item ∈ items, ∀ ref ∈ columnNames item.1,
      ∃ item' ∈ items, IsColumn an.scope.analyzer item'.1 ref := by
  obtain ⟨⟨w, hfrom⟩, -, hitems, hagg, hhaving, horder, hlimit⟩ := plainSelect_ok hfree h
  have htree := analyzeFrom_ne_empty hclause hfrom
  have hdistinct := analyzeSelect_distinct hne hfree h
  obtain ⟨hto, hof⟩ := postAggItems_accepts (an.selectItems.map AnalyzedSelectItem.expr) hitems []
  constructor
  · rintro ⟨an', han', -⟩ item hitem ref href
    rw [hdistinct] at han'
    obtain ⟨⟨its, aggs⟩, hpost, -⟩ := bind_ok.1 han'
    obtain ⟨-, hgrouped⟩ := hof its aggs hpost
    exact (grouped_iff hitems ref).1 (hgrouped item hitem ref href)
  · intro hcolumns
    obtain ⟨its, hpost⟩ := hto fun item hitem ref href =>
      (grouped_iff hitems ref).2 (hcolumns item hitem ref href)
    rw [hdistinct, hpost]
    refine ⟨_, rfl, rfl, rfl, rfl, ?_⟩
    obtain ⟨scope, tree, where', aggregation, selectItems, having, orderBy, limit⟩ := an
    cases hagg
    cases hhaving
    cases horder
    cases hlimit
    obtain ⟨raw, rows, hraw, hpass, hout⟩ := (yields_plain_iff htree).1 hrun
    have hks : rows.mapM (ev.plan ⟨selectItems.map AnalyzedSelectItem.expr, []⟩).keyOf = .ok out := by
      rw [← hout]
      show (rows.mapM fun r => ((selectItems.map AnalyzedSelectItem.expr).map
        (substituteNow ev.now)).mapM (evaluateExpr ev.arith r)) = _
      rw [List.map_map]
      rfl
    refine yields_grouped htree hraw hpass (buildRows_keys hks) ?_
    -- a distinct row is the key of one of the rows
    have hkeys : ∀ key ∈ Grouping.firsts keysEq out,
        (its.map fun it => substituteNow ev.now it.expr).mapM (evaluateExpr ev.arith key) = .ok key := by
      intro key hkey
      obtain ⟨row, -, hrow⟩ := HashAggregate.mem_of_mapM hks (Grouping.mem_of_mem_firsts hkey)
      exact items_of_key hitems hpost hrow
    rw [mapM_ok (g := id) hkeys, List.map_id]

/-- A FROM clause that puts out these rows. -/
def listFrom (rows : List Row) : DynExecutor := ⟨List Row, listChild rows, []⟩

theorem outputs_listFrom (rows : List Row) : Outputs (listFrom rows) rows :=
  ⟨rows, rfl, HashAggregate.runs_of_delivers (Join.delivers_listChild rows []) rfl⟩

/-- The rows of a query without WHERE. -/
theorem yields_listFrom {cat : Tables} {findSequence : String → Except DbError Bool}
    {items : List (Expr × Option String)} {clause : Ast.FromClause} {an : AnalyzedSelectStatement}
    (hclause : clause ≠ .empty) (hfree : ∀ item ∈ items, containsAggregate item.1 = false)
    (h : analyzeSelect cat findSequence (plainSelect items clause none) = .ok an)
    {ev : Evaluation} {τ : Type} {call : EStateM DbError τ Int64} {t : τ} {rows out : List Row}
    (hout : rows.mapM (fun r => ((an.selectItems.map AnalyzedSelectItem.expr).map
      (substituteNow ev.now)).mapM (evaluateExpr ev.arith r)) = .ok out) :
    Yields ev call t an (listFrom rows) out := by
  obtain ⟨⟨w, hfrom⟩, hwhere, -, hagg, hhaving, horder, hlimit⟩ := plainSelect_ok hfree h
  obtain ⟨scope, tree, where', aggregation, selectItems, having, orderBy, limit⟩ := an
  cases hagg
  cases hhaving
  cases horder
  cases hlimit
  cases hwhere
  refine (yields_plain_iff (analyzeFrom_ne_empty hclause hfrom)).2
    ⟨rows, rows, outputs_listFrom rows, rfl, ?_⟩
  rw [← hout, List.map_map]
  rfl

/-- The column `a`. -/
def itemA : Expr × Option String := (.column none "a", none)

/-- `a + 1`. -/
def itemNext : Expr × Option String :=
  (.binaryOp (.column none "a") .add (.literal (.integer 1)), none)

def analyzedA : AnalyzedExpr := .columnRef ⟨0, .int⟩

def analyzedNext : AnalyzedExpr := .binaryOp analyzedA .add (.literal ⟨.integer 1, some .int⟩) .int

/-- `SELECT DISTINCT a, a + 1 FROM t`. -/
theorem distinct_iff_keyed : ∃ an',
    analyzeSelect FromClause.oneTable (fun _ => .ok false)
      (distinctSelect [itemA, itemNext] (.table ⟨"t", none⟩) none) = .ok an' ∧
    Yields plainEvaluation (pure 0 : EStateM DbError Unit Int64) () an'
      (listFrom [[.int 2, .null], [.int 1, .null], [.int 2, .varchar "p"]])
      [[.int 2, .int 3], [.int 1, .int 2]] := by
  have hok : (match analyzeSelect FromClause.oneTable (fun _ => .ok false)
        (plainSelect [itemA, itemNext] (.table ⟨"t", none⟩) none) with
      | .ok an => decide (an.selectItems.map AnalyzedSelectItem.expr = [analyzedA, analyzedNext]) &&
          (an.scope.analyzer.resolveColumn none "a").toOption.isSome
      | .error _ => false) = true := by
    decide +kernel
  split at hok
  · next an han =>
    obtain ⟨hexprs, hcolumn⟩ := Bool.and_eq_true_iff.1 hok
    have hclause : Ast.FromClause.table ⟨"t", none⟩ ≠ .empty := nofun
    have hfree : ∀ item ∈ [itemA, itemNext], containsAggregate item.1 = false := by decide
    have hrun : Yields plainEvaluation (pure 0 : EStateM DbError Unit Int64) () an
        (listFrom [[.int 2, .null], [.int 1, .null], [.int 2, .varchar "p"]])
        [[.int 2, .int 3], [.int 1, .int 2], [.int 2, .int 3]] := by
      refine yields_listFrom hclause hfree han ?_
      rw [of_decide_eq_true hexprs]
      decide +kernel
    obtain ⟨an', han', -, -, -, hyields⟩ := (distinct_iff (List.cons_ne_nil _ _) hclause hfree han hrun).2 (by
      have ha : ∃ c, an.scope.analyzer.resolveColumn none "a" = .ok c := by
        cases hc : an.scope.analyzer.resolveColumn none "a" with
        | error e =>
          rw [hc] at hcolumn
          cases hcolumn
        | ok c => exact ⟨c, rfl⟩
      obtain ⟨c, hc⟩ := ha
      intro item hitem ref href
      have href' : ref = (none, "a") := by
        simp only [List.mem_cons, List.not_mem_nil, or_false] at hitem
        rcases hitem with rfl | rfl <;> exact List.mem_singleton.1 href
      rw [href']
      exact ⟨itemA, List.mem_cons_self, none, "a", c, c, rfl, hc, hc, rfl⟩)
    exact ⟨an', han', hyields⟩
  · cases hok

/-- `SELECT a + 1 FROM t` returns rows, and SELECT DISTINCT of it is not accepted. -/
theorem distinct_next_rejected : ∃ an,
    analyzeSelect FromClause.oneTable (fun _ => .ok false)
      (plainSelect [itemNext] (.table ⟨"t", none⟩) none) = .ok an ∧
    Yields plainEvaluation (pure 0 : EStateM DbError Unit Int64) () an
      (listFrom [[.int 2, .null], [.int 2, .null]]) [[.int 3], [.int 3]] ∧
    ∀ an', analyzeSelect FromClause.oneTable (fun _ => .ok false)
      (distinctSelect [itemNext] (.table ⟨"t", none⟩) none) ≠ .ok an' := by
  have hok : (match analyzeSelect FromClause.oneTable (fun _ => .ok false)
        (plainSelect [itemNext] (.table ⟨"t", none⟩) none) with
      | .ok an => decide (an.selectItems.map AnalyzedSelectItem.expr = [analyzedNext])
      | .error _ => false) = true := by
    decide +kernel
  have hrejected : (analyzeSelect FromClause.oneTable (fun _ => .ok false)
      (distinctSelect [itemNext] (.table ⟨"t", none⟩) none)).toOption.isSome = false := by
    decide +kernel
  split at hok
  · next an han =>
    have hclause : Ast.FromClause.table ⟨"t", none⟩ ≠ .empty := nofun
    have hfree : ∀ item ∈ [itemNext], containsAggregate item.1 = false := by decide
    refine ⟨an, han, yields_listFrom hclause hfree han ?_, fun an' han' => ?_⟩
    · rw [of_decide_eq_true hok]
      decide +kernel
    · rw [han'] at hrejected
      cases hrejected
  · cases hok

end Ccdb.Select
