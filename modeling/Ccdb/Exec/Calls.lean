import Ccdb.Exec.Distinct
import Ccdb.Lib.Guarantee

/-!
# Ccdb — the calls of `evaluate_expr` in a SELECT

The operators once more, with the store below them and with a note of every expression that
`evaluate_expr` is called on. An invariant of the calls for the expressions an operator was
built with is an invariant of everything the operator does.

Main results:

* `Source.Keeps` and its lemmas — one for each operator.
* `maintains_runPipeline` — the pipeline of a SELECT calls for the expressions of its statement.
-/

namespace Ccdb.Calls

open Join (Row JoinType)
open HashAggregate (AnalyzedAggregate AggState AggF64)
open StableSort (sortBy)
open FromClause (AnalyzedFrom)
open Select (AnalyzedSelectStatement AnalyzedSelectItem AnalyzedAggregation Evaluation)

/-! ## Computations -/

/-- What is under the executor, the entries of `analyzed_check_cache`, and the expressions
`evaluate_expr` was called on. -/
structure Run (τ : Type) where
  store : τ
  checks : List (Nat × AnalyzedExpr)
  calls : List AnalyzedExpr

abbrev RunM (τ : Type) := EStateM DbError (Run τ)

variable {τ α : Type}

/-- `evaluate_expr`. -/
def evaluate (arith : Arith) (row : Row) (e : AnalyzedExpr) : RunM τ Value := fun s =>
  match evaluateExpr arith row e with
  | .ok v => .ok v { s with calls := s.calls ++ [e] }
  | .error err => .error err { s with calls := s.calls ++ [e] }

/-- What does not evaluate expressions. -/
def onStore (x : EStateM DbError τ α) : RunM τ α := fun s =>
  match x s.store with
  | .ok a t => .ok a { s with store := t }
  | .error e t => .error e { s with store := t }

/-! ## Operators -/

/-- A scan. -/
structure Scan (τ : Type) where
  State : Type
  openOp : State → EStateM DbError τ State
  next : State → EStateM DbError τ (Option Row × State)
  state : State

/-- `Box<dyn Executor>`. -/
structure Source (τ : Type) where
  State : Type
  openOp : State → RunM τ State
  next : State → RunM τ (Option Row × State)
  state : State

def Scan.source (scan : Scan τ) : Source τ :=
  ⟨scan.State, fun s => onStore (scan.openOp s), fun s => onStore (scan.next s), scan.state⟩

/-- `OneRowRelation::new`. -/
def oneRowRelation : Source τ :=
  ⟨Bool, fun _ => return false, fun emitted => if emitted then return (none, emitted)
    else return (some [], true), false⟩

/-- `open`, and `next` until it returns `None`. One unit of fuel is one call. -/
def drain (d : Source τ) : Nat → d.State → RunM τ (List Row)
  | 0, _ => throw .diverge
  | fuel + 1, s => do
    let (t, s) ← d.next s
    match t with
    | none => return []
    | some row => do
      let rest ← drain d fuel s
      return row :: rest

section Operators

variable (ev : Evaluation) (fuel : Nat)

/-- `Filter::next`. -/
def filterNext (predicate : AnalyzedExpr) (child : Source τ) :
    Nat → child.State → RunM τ (Option Row × child.State)
  | 0, _ => throw .diverge
  | fuel + 1, s => do
    let (t, s) ← child.next s
    match t with
    | none => return (none, s)
    | some t => do
      match ← evaluate ev.arith t predicate with
      | .bool true => return (some t, s)
      | .bool false => filterNext predicate child fuel s
      | .null => filterNext predicate child fuel s
      | other => throw (notBoolean "WHERE predicate" other)

/-- `Filter`. -/
def filter (predicate : AnalyzedExpr) (child : Source τ) : Source τ :=
  ⟨child.State, child.openOp, filterNext ev predicate child fuel, child.state⟩

/-- `Project`. -/
def project (exprs : List AnalyzedExpr) (child : Source τ) : Source τ where
  State := child.State
  openOp := child.openOp
  next s := do
    let (t, s) ← child.next s
    match t with
    | none => return (none, s)
    | some t => do
      let row ← exprs.mapM (evaluate ev.arith t)
      return (some row, s)
  state := child.state

/-- `Limit`; the second component is `remaining`. -/
def limit (n : Nat) (child : Source τ) : Source τ where
  State := child.State × Nat
  openOp s := do
    let c ← child.openOp s.1
    return (c, s.2)
  next s :=
    if s.2 = 0 then return (none, s)
    else do
      let (t, c) ← child.next s.1
      match t with
      | some t => return (some t, (c, s.2 - 1))
      | none => return (none, (c, s.2))
  state := (child.state, n)

/-- `NestedLoopJoin::next`. One unit of fuel is one turn of its loop. -/
def joinNext (outer inner : Source τ) (on : AnalyzedExpr) (joinType : JoinType) (innerWidth : Nat) :
    Nat → Join.State outer.State inner.State →
      RunM τ (Option Row × Join.State outer.State inner.State)
  | 0, _ => throw .diverge
  | fuel + 1, s =>
    if s.pendingLeftNullPad then
      match s.curOuter with
      | none => throw (.panic "pending_left_null_pad implies a current outer")
      | some o => do
        let (cur, os) ← outer.next s.outer
        return (some (Join.nullPadded o innerWidth), ⟨os, s.inner, cur, false, false⟩)
    else
      match s.curOuter with
      | none => return (none, s)
      | some o => do
        let (i, is) ← inner.next s.inner
        match i with
        | some i => do
          match ← evaluate ev.arith (Join.concat o i) on with
          | .bool true =>
            return (some (Join.concat o i), { s with inner := is, matchedCurrentOuter := true })
          | .bool false => joinNext outer inner on joinType innerWidth fuel { s with inner := is }
          | .null => joinNext outer inner on joinType innerWidth fuel { s with inner := is }
          | other => throw (notBoolean "JOIN ON" other)
        | none =>
          if joinType = .left ∧ s.matchedCurrentOuter = false then
            joinNext outer inner on joinType innerWidth fuel
              { s with inner := is, pendingLeftNullPad := true }
          else do
            let (cur, os) ← outer.next s.outer
            match cur with
            | some _ => do
              let is ← inner.openOp is
              joinNext outer inner on joinType innerWidth fuel ⟨os, is, cur, false, false⟩
            | none => joinNext outer inner on joinType innerWidth fuel ⟨os, is, cur, false, false⟩

/-- `NestedLoopJoin`. -/
def nestedLoopJoin (outer inner : Source τ) (on : AnalyzedExpr) (joinType : JoinType)
    (innerWidth : Nat) : Source τ where
  State := Join.State outer.State inner.State
  openOp s := do
    let os ← outer.openOp s.outer
    let is ← inner.openOp s.inner
    let (cur, os) ← outer.next os
    return ⟨os, is, cur, false, false⟩
  next := joinNext ev outer inner on joinType innerWidth fuel
  state := ⟨outer.state, inner.state, none, false, false⟩

/-- `arg_val`. -/
def argument (row : Row) : Option AnalyzedExpr → RunM τ (Option Value)
  | none => return none
  | some e => do
    let v ← evaluate ev.arith row e
    return some v

/-- The loop of `HashAggregate::build` over the aggregates of one row. -/
def feedAll (row : Row) : List AnalyzedAggregate → List AggState → RunM τ (List AggState)
  | [], ss => return ss
  | _ :: _, [] => throw (.panic "index out of bounds")
  | agg :: aggs, s :: ss => do
    let arg ← argument ev row agg.arg
    let s ← ofExcept (s.update ev.build ev.f64 arg)
    let ss ← feedAll row aggs ss
    return s :: ss

/-- One row of `HashAggregate::build`. -/
def aggregateRow (p : HashAggregate.Plan) (tbl : HashAggregate.Table) (row : Row) :
    RunM τ HashAggregate.Table := do
  let key ← p.groupKeys.mapM (evaluate ev.arith row)
  let (i, tbl) := p.findOrPush tbl key
  match tbl.states[i]? with
  | none => throw (.panic "index out of bounds")
  | some ss => do
    let ss ← feedAll ev row p.aggregates ss
    return { tbl with states := tbl.states.set i ss }

/-- The rows of the child of a blocking operator, one at a time. -/
def consume {β : Type} (child : Source τ) (f : β → Row → RunM τ β) :
    Nat → Bool × β → child.State → RunM τ ((Bool × β) × child.State)
  | 0, _, _ => throw .diverge
  | fuel + 1, acc, s => do
    let (t, s) ← child.next s
    match t with
    | none => return (acc, s)
    | some row => do
      let b ← f acc.2 row
      consume child f fuel (true, b) s

/-- `build`, if it has not been called. -/
def fill {β : Type} (child : Source τ) (f : β → Row → RunM τ β) (b₀ : β)
    (finish : Bool × β → RunM τ (List Row)) (s : HashAggregate.State child.State) :
    RunM τ (HashAggregate.State child.State) :=
  if s.initialized then return s
  else do
    let c ← child.openOp s.child
    let (acc, c) ← consume child f fuel (false, b₀) c
    let rows ← finish acc
    return { s with child := c, rows := s.rows ++ rows, initialized := true }

/-- A blocking operator: it fills its buffer when it is opened first. -/
def buffered {β : Type} (child : Source τ) (f : β → Row → RunM τ β) (b₀ : β)
    (finish : Bool × β → RunM τ (List Row)) : Source τ where
  State := HashAggregate.State child.State
  openOp s := do
    let s ← fill fuel child f b₀ finish s
    return { s with cursor := 0 }
  next s :=
    match s.rows[s.cursor]? with
    | none => return (none, s)
    | some t => return (some t, { s with cursor := s.cursor + 1 })
  state := HashAggregate.new child.state

/-- What a `HashAggregate` has fixed. -/
def aggregatePlan (agg : AnalyzedAggregation) : HashAggregate.Plan :=
  ⟨agg.groupKeys, agg.aggregates, ev.build, ev.f64, ev.arith⟩

/-- `HashAggregate`. -/
def hashAggregate (agg : AnalyzedAggregation) (child : Source τ) : Source τ :=
  buffered fuel child (aggregateRow ev (aggregatePlan ev agg)) ⟨[], []⟩
    fun acc => return (aggregatePlan ev agg).finish acc.1 acc.2

/-- One row of `Sort::build`. -/
def sortRow (keys : List Sort.SortKey) (entries : List (Row × Row)) (t : Row) :
    RunM τ (List (Row × Row)) := do
  let keyvals ← keys.mapM fun k => evaluate ev.arith t k.expr
  return entries ++ [(keyvals, t)]

/-- The end of `Sort::build`. -/
def sortEntries (keys : List Sort.SortKey) (acc : Bool × List (Row × Row)) : RunM τ (List Row) := do
  let entries ← ofExcept (sortBy (Sort.Plan.mk keys ev.build ev.arith).compareEntries acc.2)
  return entries.map Prod.snd

/-- `Sort`. -/
def sort (keys : List Sort.SortKey) (child : Source τ) : Source τ :=
  buffered fuel child (sortRow ev keys) [] (sortEntries ev keys)

end Operators

/-! ## The pipeline -/

/-- The scans of a database: `SeqScan::new` of a table, and `IndexScan::new` if the WHERE clause
has a predicate for an index of the table. -/
structure Scans (τ : Type) where
  seqScan : Nat → Except DbError (Scan τ)
  indexScan : Nat → Option AnalyzedExpr → Except DbError (Option (Scan τ))

section Pipeline

variable (ev : Evaluation) (fuel : Nat) (scans : Scans τ)

/-- A scan of the base table of `range_table[rte_index]`. -/
def scanRte (scope : FromClause.State) (rteIndex : Nat) : Except DbError (Source τ) :=
  match scope.sources[rteIndex]? with
  | none => .error (.panic "index out of bounds")
  | some tableId => (scans.seqScan tableId).map Scan.source

/-- `build_from_pipeline`. -/
def buildFromPipeline (scope : FromClause.State) : AnalyzedFrom → Except DbError (Source τ)
  | .empty => .ok oneRowRelation
  | .table rteIndex => scanRte scans scope rteIndex
  | .join left rightRte joinType on => do
    let outer ← buildFromPipeline scope left
    let inner ← scanRte scans scope rightRte
    match scope.width rightRte with
    | .error e => .error e
    | .ok innerWidth => .ok (nestedLoopJoin ev fuel outer inner on joinType innerWidth)

/-- The `from_exec` of `build_select_pipeline`. -/
def fromExec (an : AnalyzedSelectStatement) : Except DbError (Source τ) :=
  match an.fromTree with
  | .table rteIndex =>
    match an.scope.sources[rteIndex]? with
    | none => .error (.panic "index out of bounds")
    | some tableId => do
      match ← scans.indexScan tableId an.whereClause with
      | some scan => .ok scan.source
      | none => buildFromPipeline ev fuel scans an.scope an.fromTree
  | _ => buildFromPipeline ev fuel scans an.scope an.fromTree

def filtered (predicate : Option AnalyzedExpr) (child : Source τ) : Source τ :=
  match predicate with
  | some p => filter ev fuel p child
  | none => child

def aggregatedBy (aggregation : Option AnalyzedAggregation) (child : Source τ) : Source τ :=
  match aggregation with
  | some agg => hashAggregate ev fuel agg child
  | none => child

def sortedBy (keys : List Sort.SortKey) (child : Source τ) : Source τ :=
  match keys with
  | [] => child
  | keys => sort ev fuel keys child

def limitedTo (n : Option UInt64) (child : Source τ) : Source τ :=
  match n with
  | some n => limit n.toNat child
  | none => child

/-- `build_select_pipeline`. -/
def buildSelectPipeline (an : AnalyzedSelectStatement) : Except DbError (Source τ) := do
  let d ← fromExec ev fuel scans an
  let postAgg := aggregatedBy ev fuel an.aggregation (filtered ev fuel an.whereClause d)
  let postHaving := filtered ev fuel an.having postAgg
  let limited := limitedTo an.limit (sortedBy ev fuel an.orderBy postHaving)
  .ok (project ev (an.selectItems.map AnalyzedSelectItem.expr) limited)

/-- The rows of a SELECT. -/
def runPipeline (an : AnalyzedSelectStatement) : RunM τ (List Row) :=
  match buildSelectPipeline ev fuel scans an with
  | .error e => throw e
  | .ok d => do
    let s ← d.openOp d.state
    drain d fuel s

end Pipeline

/-! ## The expressions of a statement -/

/-- The ON expressions. -/
def onExprs : AnalyzedFrom → List AnalyzedExpr
  | .join left _ _ on => onExprs left ++ [on]
  | _ => []

/-- The keys and the arguments of an aggregation. -/
def aggregationExprs (agg : AnalyzedAggregation) : List AnalyzedExpr :=
  agg.groupKeys ++ agg.aggregates.filterMap AnalyzedAggregate.arg

def itemExprs (an : AnalyzedSelectStatement) : List AnalyzedExpr :=
  an.selectItems.map AnalyzedSelectItem.expr

/-- The expressions of a SELECT besides its items. -/
def clauseExprs (an : AnalyzedSelectStatement) : List AnalyzedExpr :=
  onExprs an.fromTree ++ an.whereClause.toList ++
    (an.aggregation.toList.flatMap aggregationExprs) ++ an.having.toList ++
      an.orderBy.map Sort.SortKey.expr

/-! ## Invariants of the calls -/

/-- The invariant does not depend on the store. -/
def Above (I : Run τ → Prop) : Prop := ∀ s t, I s → I { s with store := t }

/-- A call for the expression keeps the invariant. -/
def Allows (I : Run τ → Prop) (e : AnalyzedExpr) : Prop :=
  ∀ s, I s → I { s with calls := s.calls ++ [e] }

section Computations

variable {I : Run τ → Prop}

theorem maintains_evaluate {e : AnalyzedExpr} (h : Allows I e) (arith : Arith) (row : Row) :
    Maintains I (evaluate arith row e) fun _ => True := by
  intro s hs
  unfold Ends evaluate
  cases evaluateExpr arith row e with
  | ok v => exact ⟨h s hs, trivial⟩
  | error err => exact h s hs

theorem maintains_onStore (h : Above I) (x : EStateM DbError τ α) :
    Maintains I (onStore x) fun _ => True := by
  intro s hs
  unfold Ends onStore
  cases x s.store with
  | ok a t => exact ⟨h s t hs, trivial⟩
  | error e t => exact h s t hs

theorem maintains_ofExcept (x : Except DbError α) :
    Maintains I (ofExcept x : RunM τ α) fun a => x = .ok a := by
  cases x with
  | ok a => exact .pure rfl
  | error e => exact .throw

end Computations

/-- Everything an operator does keeps the invariant. -/
structure Source.Keeps (I : Run τ → Prop) (d : Source τ) : Prop where
  openOp : ∀ s, Maintains I (d.openOp s) fun _ => True
  next : ∀ s, Maintains I (d.next s) fun _ => True

section Operators

variable {I : Run τ → Prop} {ev : Evaluation} {fuel : Nat} {child outer inner : Source τ}

theorem Scan.keeps (h : Above I) (scan : Scan τ) : scan.source.Keeps I :=
  ⟨fun _ => maintains_onStore h _, fun _ => maintains_onStore h _⟩

theorem oneRowRelation_keeps : (oneRowRelation : Source τ).Keeps I := by
  refine ⟨fun _ => .pure trivial, fun emitted => ?_⟩
  show Maintains I (if (show Bool from emitted) then pure (none, emitted) else pure (some [], true)) _
  exact Maintains.ite (.pure trivial) (.pure trivial)

theorem filterNext_maintains {predicate : AnalyzedExpr} (hp : Allows I predicate)
    (hchild : child.Keeps I) : ∀ (fuel : Nat) (s : child.State),
    Maintains I (filterNext ev predicate child fuel s) fun _ => True
  | 0, _ => .throw
  | fuel + 1, s => by
    refine (hchild.next s).bind fun r _ => ?_
    obtain ⟨t, s'⟩ := r
    cases t with
    | none => exact .pure trivial
    | some t =>
      refine (maintains_evaluate hp ev.arith t).bind fun v _ => ?_
      split
      · exact .pure trivial
      · exact filterNext_maintains hp hchild fuel s'
      · exact filterNext_maintains hp hchild fuel s'
      · exact .throw

theorem filter_keeps {predicate : AnalyzedExpr} (hp : Allows I predicate) (hchild : child.Keeps I) :
    (filter ev fuel predicate child).Keeps I :=
  ⟨hchild.openOp, filterNext_maintains hp hchild fuel⟩

theorem project_keeps {exprs : List AnalyzedExpr} (he : ∀ e ∈ exprs, Allows I e)
    (hchild : child.Keeps I) : (project ev exprs child).Keeps I := by
  refine ⟨hchild.openOp, fun s => (hchild.next s).bind fun r _ => ?_⟩
  obtain ⟨t, s'⟩ := r
  cases t with
  | none => exact .pure trivial
  | some t =>
    refine Maintains.bind (Maintains.mapM fun e hmem => maintains_evaluate (he e hmem) ev.arith t)
      fun row _ => ?_
    exact .pure trivial

theorem limit_keeps {n : Nat} (hchild : child.Keeps I) : (limit n child).Keeps I := by
  refine ⟨fun s => (hchild.openOp s.1).bind fun c _ => .pure trivial, fun s => ?_⟩
  refine Maintains.ite (.pure trivial) ((hchild.next s.1).bind fun r _ => ?_)
  obtain ⟨t, c⟩ := r
  cases t with
  | none => exact .pure trivial
  | some t => exact .pure trivial

theorem joinNext_maintains {on : AnalyzedExpr} (joinType : JoinType) (innerWidth : Nat)
    (hon : Allows I on) (houter : outer.Keeps I) (hinner : inner.Keeps I) :
    ∀ (fuel : Nat) (s : Join.State outer.State inner.State),
      Maintains I (joinNext ev outer inner on joinType innerWidth fuel s) fun _ => True
  | 0, _ => .throw
  | fuel + 1, s => by
    have hrest := joinNext_maintains joinType innerWidth hon houter hinner fuel
    unfold joinNext
    refine Maintains.ite ?_ ?_
    · split
      · exact .throw
      · exact (houter.next s.outer).bind fun r _ => .pure trivial
    · split
      · exact .pure trivial
      · next o _ =>
        refine (hinner.next s.inner).bind fun r _ => ?_
        obtain ⟨i, is⟩ := r
        cases i with
        | some i =>
          refine (maintains_evaluate hon ev.arith (Join.concat o i)).bind fun v _ => ?_
          split
          · exact .pure trivial
          · exact hrest _
          · exact hrest _
          · exact .throw
        | none =>
          refine Maintains.ite (hrest _) ((houter.next s.outer).bind fun r _ => ?_)
          obtain ⟨cur, os⟩ := r
          cases cur with
          | none => exact hrest _
          | some cur => exact (hinner.openOp is).bind fun is' _ => hrest _

theorem nestedLoopJoin_keeps {on : AnalyzedExpr} {joinType : JoinType} {innerWidth : Nat}
    (hon : Allows I on) (houter : outer.Keeps I) (hinner : inner.Keeps I) :
    (nestedLoopJoin ev fuel outer inner on joinType innerWidth).Keeps I := by
  refine ⟨fun s => ?_, joinNext_maintains joinType innerWidth hon houter hinner fuel⟩
  refine (houter.openOp s.outer).bind fun os _ => (hinner.openOp s.inner).bind fun is _ => ?_
  exact (houter.next os).bind fun r _ => .pure trivial

section Buffered

variable {β : Type} {f : β → Row → RunM τ β} {b₀ : β} {finish : Bool × β → RunM τ (List Row)}

theorem consume_maintains (hchild : child.Keeps I)
    (hf : ∀ b row, Maintains I (f b row) fun _ => True) :
    ∀ (fuel : Nat) (acc : Bool × β) (s : child.State),
      Maintains I (consume child f fuel acc s) fun _ => True
  | 0, _, _ => .throw
  | fuel + 1, acc, s => by
    refine (hchild.next s).bind fun r _ => ?_
    obtain ⟨t, s'⟩ := r
    cases t with
    | none => exact .pure trivial
    | some row => exact (hf acc.2 row).bind fun b _ => consume_maintains hchild hf fuel (true, b) s'

theorem buffered_keeps (hchild : child.Keeps I)
    (hf : ∀ b row, Maintains I (f b row) fun _ => True)
    (hfinish : ∀ acc, Maintains I (finish acc) fun _ => True) :
    (buffered fuel child f b₀ finish).Keeps I := by
  constructor
  · intro s
    have hfill : Maintains I (fill fuel child f b₀ finish s) fun _ => True := by
      refine Maintains.ite (.pure trivial) ((hchild.openOp s.child).bind fun c _ => ?_)
      refine (consume_maintains hchild hf fuel (false, b₀) c).bind fun r _ => ?_
      exact (hfinish r.1).bind fun rows _ => .pure trivial
    exact hfill.bind fun s' _ => .pure trivial
  · intro s
    show Maintains I (match s.rows[s.cursor]? with
      | none => pure (none, s)
      | some t => pure (some t, { s with cursor := s.cursor + 1 })) fun _ => True
    split
    · exact .pure trivial
    · exact .pure trivial

end Buffered

theorem feedAll_maintains {row : Row} : ∀ {aggs : List AnalyzedAggregate} {ss : List AggState},
    (∀ agg ∈ aggs, ∀ e, agg.arg = some e → Allows I e) →
      Maintains I (feedAll ev row aggs ss) fun _ => True
  | [], _, _ => .pure trivial
  | _ :: _, [], _ => .throw
  | agg :: aggs, s :: ss, h => by
    have harg : Maintains I (argument ev row agg.arg) fun _ => True := by
      cases harg : agg.arg with
      | none => exact .pure trivial
      | some e =>
        exact (maintains_evaluate (h agg List.mem_cons_self e harg) ev.arith row).bind fun v _ =>
          .pure trivial
    refine harg.bind fun arg _ => (maintains_ofExcept _).bind fun s' _ => ?_
    exact (feedAll_maintains fun agg' hmem => h agg' (List.mem_cons_of_mem _ hmem)).bind
      fun ss' _ => .pure trivial

theorem hashAggregate_keeps {agg : AnalyzedAggregation} (hkeys : ∀ e ∈ agg.groupKeys, Allows I e)
    (hargs : ∀ a ∈ agg.aggregates, ∀ e, a.arg = some e → Allows I e) (hchild : child.Keeps I) :
    (hashAggregate ev fuel agg child).Keeps I := by
  refine buffered_keeps hchild (fun tbl row => ?_) fun acc => .pure trivial
  refine Maintains.bind (Maintains.mapM fun e hmem => maintains_evaluate (hkeys e hmem) ev.arith row)
    fun key _ => ?_
  dsimp only
  split
  · exact .throw
  · exact (feedAll_maintains hargs).bind fun ss _ => .pure trivial

theorem sort_keeps {keys : List Sort.SortKey} (hkeys : ∀ k ∈ keys, Allows I k.expr)
    (hchild : child.Keeps I) : (sort ev fuel keys child).Keeps I := by
  refine buffered_keeps hchild (fun entries t => ?_) fun acc => ?_
  · exact Maintains.bind (Maintains.mapM fun k hmem => maintains_evaluate (hkeys k hmem) ev.arith t)
      fun keyvals _ => .pure trivial
  · exact (maintains_ofExcept _).bind fun entries _ => .pure trivial

theorem drain_maintains (hchild : child.Keeps I) : ∀ (fuel : Nat) (s : child.State),
    Maintains I (drain child fuel s) fun _ => True
  | 0, _ => .throw
  | fuel + 1, s => by
    refine (hchild.next s).bind fun r _ => ?_
    obtain ⟨t, s'⟩ := r
    cases t with
    | none => exact .pure trivial
    | some row => exact (drain_maintains hchild fuel s').bind fun rest _ => .pure trivial

end Operators

section Pipeline

variable {I : Run τ → Prop} {ev : Evaluation} {fuel : Nat} {scans : Scans τ} {d : Source τ}
  {scope : FromClause.State} {an : AnalyzedSelectStatement}

theorem scanRte_keeps (hI : Above I) {rteIndex : Nat} (h : scanRte scans scope rteIndex = .ok d) :
    d.Keeps I := by
  unfold scanRte at h
  split at h
  · cases h
  · next tableId _ =>
    cases hscan : scans.seqScan tableId with
    | error e =>
      rw [hscan] at h
      cases h
    | ok scan =>
      rw [hscan] at h
      cases h
      exact scan.keeps hI

theorem buildFromPipeline_keeps (hI : Above I) : ∀ {tree : AnalyzedFrom} {d : Source τ},
    (∀ e ∈ onExprs tree, Allows I e) → buildFromPipeline ev fuel scans scope tree = .ok d →
      d.Keeps I
  | .empty, _, _, h => by
    cases h
    exact oneRowRelation_keeps
  | .table rteIndex, _, _, h => scanRte_keeps hI h
  | .join left rightRte joinType on, _, hon, h => by
    obtain ⟨outer, houter, h⟩ := bind_ok.1 h
    obtain ⟨inner, hinner, h⟩ := bind_ok.1 h
    have hleft := buildFromPipeline_keeps hI (fun e he => hon e (List.mem_append_left _ he)) houter
    split at h
    · cases h
    · cases h
      exact nestedLoopJoin_keeps (hon on (List.mem_append_right _ List.mem_cons_self)) hleft
        (scanRte_keeps hI hinner)

theorem fromExec_keeps (hI : Above I) (hon : ∀ e ∈ onExprs an.fromTree, Allows I e)
    (h : fromExec ev fuel scans an = .ok d) : d.Keeps I := by
  unfold fromExec at h
  split at h
  · split at h
    · cases h
    · obtain ⟨index, hindex, h⟩ := bind_ok.1 h
      cases index with
      | some scan =>
        cases h
        exact scan.keeps hI
      | none => exact buildFromPipeline_keeps hI hon h
  · exact buildFromPipeline_keeps hI hon h

theorem filtered_keeps {predicate : Option AnalyzedExpr}
    (hp : ∀ e ∈ predicate.toList, Allows I e) (hd : d.Keeps I) :
    (filtered ev fuel predicate d).Keeps I := by
  cases predicate with
  | none => exact hd
  | some p => exact filter_keeps (hp p List.mem_cons_self) hd

theorem aggregatedBy_keeps {aggregation : Option AnalyzedAggregation}
    (h : ∀ e ∈ aggregation.toList.flatMap aggregationExprs, Allows I e) (hd : d.Keeps I) :
    (aggregatedBy ev fuel aggregation d).Keeps I := by
  cases aggregation with
  | none => exact hd
  | some agg =>
    have hmem : ∀ e ∈ aggregationExprs agg, Allows I e := fun e he =>
      h e (List.mem_flatMap.2 ⟨agg, List.mem_cons_self, he⟩)
    refine hashAggregate_keeps (fun e he => hmem e (List.mem_append_left _ he))
      (fun a ha e harg => hmem e (List.mem_append_right _ ?_)) hd
    exact List.mem_filterMap.2 ⟨a, ha, harg⟩

theorem sortedBy_keeps {keys : List Sort.SortKey} (h : ∀ e ∈ keys.map Sort.SortKey.expr, Allows I e)
    (hd : d.Keeps I) : (sortedBy ev fuel keys d).Keeps I := by
  cases keys with
  | nil => exact hd
  | cons key keys => exact sort_keeps (fun k hk => h k.expr (List.mem_map_of_mem hk)) hd

theorem limitedTo_keeps {n : Option UInt64} (hd : d.Keeps I) : (limitedTo n d).Keeps I := by
  cases n with
  | none => exact hd
  | some n => exact limit_keeps hd

theorem mem_clauseExprs {e : AnalyzedExpr} : e ∈ clauseExprs an ↔ e ∈ onExprs an.fromTree ∨
    e ∈ an.whereClause.toList ∨ e ∈ an.aggregation.toList.flatMap aggregationExprs ∨
    e ∈ an.having.toList ∨ e ∈ an.orderBy.map Sort.SortKey.expr := by
  simp only [clauseExprs, List.mem_append, or_assoc]

theorem buildSelectPipeline_keeps (hI : Above I) (hclauses : ∀ e ∈ clauseExprs an, Allows I e)
    (hitems : ∀ e ∈ itemExprs an, Allows I e) (h : buildSelectPipeline ev fuel scans an = .ok d) :
    d.Keeps I := by
  obtain ⟨src, hsrc, h⟩ := bind_ok.1 h
  cases h
  have hclause := fun e he => hclauses e (mem_clauseExprs.2 he)
  have hfrom := fromExec_keeps hI (fun e he => hclause e (Or.inl he)) hsrc
  refine project_keeps hitems (limitedTo_keeps ?_)
  refine sortedBy_keeps (fun e he => hclause e (Or.inr (Or.inr (Or.inr (Or.inr he))))) ?_
  refine filtered_keeps (fun e he => hclause e (Or.inr (Or.inr (Or.inr (Or.inl he))))) ?_
  refine aggregatedBy_keeps (fun e he => hclause e (Or.inr (Or.inr (Or.inl he)))) ?_
  exact filtered_keeps (fun e he => hclause e (Or.inr (Or.inl he))) hfrom

/-- **A SELECT** calls for the expressions of its statement. -/
theorem maintains_runPipeline (hI : Above I) (hclauses : ∀ e ∈ clauseExprs an, Allows I e)
    (hitems : ∀ e ∈ itemExprs an, Allows I e) :
    Maintains I (runPipeline ev fuel scans an) fun _ => True := by
  unfold runPipeline
  split
  · exact .throw
  · next d hd =>
    have hkeeps := buildSelectPipeline_keeps hI hclauses hitems hd
    exact (hkeeps.openOp _).bind fun s _ => drain_maintains hkeeps fuel s

end Pipeline

end Ccdb.Calls
