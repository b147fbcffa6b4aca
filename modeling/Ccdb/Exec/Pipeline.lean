import Ccdb.Exec.Arithmetic
import Ccdb.Exec.Join
import Ccdb.Storage.TupleCodec

/-!
# Ccdb — what the operators of a FROM clause can produce

`SeqScan`, `OneRowRelation` and `NestedLoopJoin` as executors, and the rows that come out of
them whatever calls of `open` and `next` are made on them. The heap is the raw pages a scan
fetches.

Main results:

* `SeqScan.produces_width` — a scan decodes as many values as its schema has columns.
* `produces_join` — a join only combines rows of its children, or pads one of the outer ones.
-/

namespace Ccdb.Pipeline

open Bits RawPage
open TupleCodec (Column Schema deserializeColumns deserializeTuple)
open Join (Row Executor Plan)

/-! ## Rows that come out of an executor -/

/-- `Box<dyn Executor>`: an executor and the state it is in. -/
structure DynExecutor where
  State : Type
  exec : Executor State
  state : State

/-- The states calls of `open` and `next` lead to. -/
inductive Reaches {σ : Type} (e : Executor σ) (s₀ : σ) : σ → Prop where
  | start : Reaches e s₀ s₀
  | opened {s s' : σ} (h : Reaches e s₀ s) (hopen : e.openOp s = .ok s') : Reaches e s₀ s'
  | next {s s' : σ} {row : Option Row} (h : Reaches e s₀ s) (hnext : e.next s = .ok (row, s')) :
    Reaches e s₀ s'

/-- Some call of `next` returns the row. -/
def Returns {σ : Type} (e : Executor σ) (s₀ : σ) (row : Row) : Prop :=
  ∃ s s', Reaches e s₀ s ∧ e.next s = .ok (some row, s')

def DynExecutor.Produces (d : DynExecutor) (row : Row) : Prop := Returns d.exec d.state row

/-! ## Scans -/

/-- What `SeqScan::next` reads of a heap page; a slot without a tuple is a tombstone. -/
structure HeapPage where
  nextPageId : Nat
  allVisible : Bool
  tuples : List (Option Bytes)

/-- What a statement's operators run on. -/
structure Env where
  pageCount : Nat
  fetchPage : Nat → Except DbError HeapPage
  snapshot : Snapshot
  tm : TransactionManager
  arith : Arith
  -- turns of a loop before the model gives up
  fuel : Nat

structure SeqScan where
  schema : Schema
  firstPage : Nat
  curPage : Nat
  curSlot : Nat

namespace SeqScan

variable (env : Env)

/-- `deserialize_tuple_mvcc`. -/
def deserializeTupleMvcc (data : Bytes) (schema : Schema) :
    Except DbError (UInt64 × UInt64 × List Value) :=
  if data.length < MVCC_HEADER_SIZE then .error (.bail "tuple truncated: missing MVCC header")
  else do
    let values ← deserializeTuple (data.drop MVCC_HEADER_SIZE) schema
    return (u64.read data 0, u64.read data 8, values)

/-- `SeqScan::open`. -/
def openScan (s : SeqScan) : SeqScan := { s with curPage := s.firstPage, curSlot := 0 }

/-- The loop over the slots from `cur_slot` on. -/
def slots (schema : Schema) (allVisible : Bool) :
    List (Option Bytes) → Nat → Except DbError (Option Row × Nat)
  | [], slot => .ok (none, slot)
  | none :: rest, slot => slots schema allVisible rest (slot + 1)
  | some raw :: rest, slot => do
    let (xmin, xmax, values) ← deserializeTupleMvcc raw schema
    if allVisible || isVisible xmin.toNat xmax.toNat env.snapshot env.tm then
      .ok (some values, slot + 1)
    else slots schema allVisible rest (slot + 1)

/-- `SeqScan::next`. -/
def next : Nat → SeqScan → Except DbError (Option Row × SeqScan)
  | 0, _ => .error .diverge
  | fuel + 1, s =>
    if s.curPage ≠ NO_NEXT_PAGE ∧ s.curPage < env.pageCount then do
      let page ← env.fetchPage s.curPage
      let (found, slot) ← slots env s.schema page.allVisible (page.tuples.drop s.curSlot) s.curSlot
      match found with
      | some values => .ok (some values, { s with curSlot := slot })
      | none => next fuel { s with curPage := page.nextPageId, curSlot := 0 }
    else .ok (none, s)

def executor : Executor SeqScan where
  openOp s := .ok s.openScan
  next := next env env.fuel

/-- `SeqScan::new`, once the table is found. -/
def new (schema : Schema) (firstPage : Nat) : DynExecutor :=
  ⟨SeqScan, executor env, ⟨schema, firstPage, firstPage, 0⟩⟩

variable {env : Env} {schema : Schema}

theorem deserializeColumns_length {data bitmap : Bytes} : ∀ {columns : List Column} {i offset : Nat}
    {values : List Value}, deserializeColumns data bitmap i offset columns = .ok values →
    values.length = columns.length
  | [], _, _, _, h => by
    cases h
    rfl
  | column :: columns, i, offset, values, h => by
    rw [deserializeColumns] at h
    obtain ⟨⟨value, len⟩, -, h⟩ := bind_ok.1 h
    obtain ⟨rest, hrest, h⟩ := bind_ok.1 h
    cases h
    rw [List.length_cons, List.length_cons, deserializeColumns_length hrest]

theorem deserializeTuple_length {data : Bytes} {values : List Value}
    (h : deserializeTuple data schema = .ok values) : values.length = schema.columns.length := by
  unfold deserializeTuple at h
  dsimp only at h
  split at h
  · cases h
  · exact deserializeColumns_length h

theorem deserializeTupleMvcc_length {data : Bytes} {xmin xmax : UInt64} {values : List Value}
    (h : deserializeTupleMvcc data schema = .ok (xmin, xmax, values)) :
    values.length = schema.columns.length := by
  unfold deserializeTupleMvcc at h
  split at h
  · cases h
  · obtain ⟨vs, hvs, h⟩ := bind_ok.1 h
    cases h
    exact deserializeTuple_length hvs

theorem slots_width {allVisible : Bool} {row : Row} : ∀ (raws : List (Option Bytes)) {slot slot' : Nat},
    slots env schema allVisible raws slot = .ok (some row, slot') → row.length = schema.columns.length
  | [], _, _, h => by cases h
  | none :: rest, slot, slot', h => slots_width rest h
  | some raw :: rest, slot, slot', h => by
    rw [slots] at h
    obtain ⟨⟨xmin, xmax, values⟩, hraw, h⟩ := bind_ok.1 h
    dsimp only at h
    split at h
    · cases h
      exact deserializeTupleMvcc_length hraw
    · exact slots_width rest h

theorem next_spec : ∀ {fuel : Nat} {s s' : SeqScan} {row : Option Row},
    next env fuel s = .ok (row, s') →
      s'.schema = s.schema ∧ ∀ values ∈ row, values.length = s.schema.columns.length
  | 0, _, _, _, h => by cases h
  | fuel + 1, s, s', row, h => by
    rw [next] at h
    split at h
    · obtain ⟨page, -, h⟩ := bind_ok.1 h
      obtain ⟨⟨found, slot⟩, hslots, h⟩ := bind_ok.1 h
      cases found with
      | some values =>
        cases h
        refine ⟨rfl, fun values hvalues => ?_⟩
        cases hvalues
        exact slots_width _ hslots
      | none =>
        have hrest := next_spec h
        exact hrest
    · cases h
      exact ⟨rfl, fun values hvalues => by cases hvalues⟩

theorem reaches_schema {s₀ s : SeqScan} (h : Reaches (executor env) s₀ s) : s.schema = s₀.schema := by
  induction h with
  | start => rfl
  | opened h hopen ih =>
    cases hopen
    exact ih
  | next h hnext ih => rw [(next_spec hnext).1, ih]

/-- **The rows of a scan have a value for each column**, whatever bytes the pages hold. -/
theorem produces_width {firstPage : Nat} {row : Row} (h : (new env schema firstPage).Produces row) :
    row.length = schema.columns.length := by
  obtain ⟨s, s', hs, hnext⟩ := h
  rw [(next_spec hnext).2 row rfl, reaches_schema hs]
  rfl

end SeqScan

/-! ## No table -/

/-- `OneRowRelation`; the state is `emitted`. -/
def oneRowRelation : Executor Bool where
  openOp _ := .ok false
  next emitted := if emitted then .ok (none, emitted) else .ok (some [], true)

/-- `OneRowRelation::new`. -/
def OneRowRelation.new : DynExecutor := ⟨Bool, oneRowRelation, false⟩

theorem produces_oneRow {row : Row} (h : OneRowRelation.new.Produces row) : row = [] := by
  obtain ⟨s, s', -, hnext⟩ := h
  dsimp only [OneRowRelation.new, oneRowRelation] at hnext
  split at hnext <;> cases hnext
  rfl

/-! ## Joins -/

section Join

variable {σ τ : Type}

/-- `NestedLoopJoin::next`. -/
def nextJoin (p : Plan σ τ) : Nat → Join.State σ τ → Except DbError (Option Row × Join.State σ τ)
  | 0, _ => .error .diverge
  | fuel + 1, s => do
    let (out, s) ← p.turn s
    match out with
    | some row => .ok (row, s)
    | none => nextJoin p fuel s

def nestedLoopJoin (p : Plan σ τ) (fuel : Nat) : Executor (Join.State σ τ) where
  openOp s := p.openJoin s.outer s.inner
  next := nextJoin p fuel

/-- `NestedLoopJoin::new`. -/
def NestedLoopJoin.new (env : Env) (outer inner : DynExecutor) (on : AnalyzedExpr)
    (joinType : Join.JoinType) (innerWidth : Nat) : DynExecutor :=
  let p : Plan outer.State inner.State :=
    ⟨outer.exec, inner.exec, fun row => evaluateExpr env.arith row on, joinType, innerWidth⟩
  ⟨_, nestedLoopJoin p env.fuel, ⟨outer.state, inner.state, none, false, false⟩⟩

variable {p : Plan σ τ} {o₀ : σ} {i₀ : τ} {s s' : Join.State σ τ}

/-- The children are in states calls lead to, and the current outer tuple came out of one. -/
structure Nested (p : Plan σ τ) (o₀ : σ) (i₀ : τ) (s : Join.State σ τ) : Prop where
  outer : Reaches p.outer o₀ s.outer
  inner : Reaches p.inner i₀ s.inner
  cur : ∀ o ∈ s.curOuter, Returns p.outer o₀ o

/-- The two shapes of a row of a join. -/
def Joined (p : Plan σ τ) (o₀ : σ) (i₀ : τ) (row : Row) : Prop :=
  (∃ o i, Returns p.outer o₀ o ∧ Returns p.inner i₀ i ∧ row = Join.concat o i) ∨
    ∃ o, Returns p.outer o₀ o ∧ row = Join.nullPadded o p.innerWidth

theorem returns_next {e : Executor σ} {s s' : σ} {row : Option Row} (h : Reaches e o₀ s)
    (hnext : e.next s = .ok (row, s')) : ∀ r ∈ row, Returns e o₀ r := by
  intro r hr
  cases hr
  exact ⟨s, s', h, hnext⟩

/-- The next outer tuple. -/
theorem Nested.advance (h : Nested p o₀ i₀ s) {cur : Option Row} {outer : σ} {inner : τ}
    (hnext : p.outer.next s.outer = .ok (cur, outer)) (hinner : Reaches p.inner i₀ inner)
    (matched pending : Bool) : Nested p o₀ i₀ ⟨outer, inner, cur, matched, pending⟩ :=
  ⟨h.outer.next hnext, hinner, returns_next h.outer hnext⟩

theorem Nested.openJoin (h : Nested p o₀ i₀ s) (hopen : p.openJoin s.outer s.inner = .ok s') :
    Nested p o₀ i₀ s' := by
  obtain ⟨outer, houter, hopen⟩ := bind_ok.1 hopen
  obtain ⟨inner, hinner, hopen⟩ := bind_ok.1 hopen
  obtain ⟨⟨cur, outer'⟩, hnext, hopen⟩ := bind_ok.1 hopen
  cases hopen
  have h' : Nested p o₀ i₀ { s with outer := outer } := ⟨h.outer.opened houter, h.inner, h.cur⟩
  exact h'.advance hnext (h.inner.opened hinner) false false

theorem Nested.turn (h : Nested p o₀ i₀ s) {out : Option (Option Row)}
    (hturn : p.turn s = .ok (out, s')) :
    Nested p o₀ i₀ s' ∧ ∀ row, out = some (some row) → Joined p o₀ i₀ row := by
  unfold Plan.turn at hturn
  split at hturn
  · split at hturn
    · cases hturn
    · next o ho =>
      obtain ⟨⟨cur, outer⟩, hnext, hturn⟩ := bind_ok.1 hturn
      cases hturn
      refine ⟨h.advance hnext h.inner false false, fun row hrow => ?_⟩
      cases hrow
      exact Or.inr ⟨o, h.cur o ho, rfl⟩
  · split at hturn
    · cases hturn
      exact ⟨h, fun row hrow => by cases hrow⟩
    · next o ho =>
      obtain ⟨⟨i, inner⟩, hinext, hturn⟩ := bind_ok.1 hturn
      have hinner := h.inner.next hinext
      cases i with
      | some i =>
        obtain ⟨v, -, hturn⟩ := bind_ok.1 hturn
        have hstay : ∀ matched pending,
            Nested p o₀ i₀ ⟨s.outer, inner, s.curOuter, matched, pending⟩ :=
          fun _ _ => ⟨h.outer, hinner, h.cur⟩
        split at hturn
        · cases hturn
          refine ⟨hstay _ _, fun row hrow => ?_⟩
          cases hrow
          exact Or.inl ⟨o, i, h.cur o ho, returns_next h.inner hinext i rfl, rfl⟩
        · cases hturn
          exact ⟨hstay _ _, fun row hrow => by cases hrow⟩
        · cases hturn
          exact ⟨hstay _ _, fun row hrow => by cases hrow⟩
        · cases hturn
      | none =>
        dsimp only at hturn
        split at hturn
        · cases hturn
          exact ⟨⟨h.outer, hinner, h.cur⟩, fun row hrow => by cases hrow⟩
        · obtain ⟨⟨cur, outer⟩, hnext, hturn⟩ := bind_ok.1 hturn
          cases cur with
          | some o' =>
            obtain ⟨inner', hopen, hturn⟩ := bind_ok.1 hturn
            cases hturn
            exact ⟨h.advance hnext (hinner.opened hopen) false false, fun row hrow => by cases hrow⟩
          | none =>
            cases hturn
            exact ⟨h.advance hnext hinner false false, fun row hrow => by cases hrow⟩

theorem Nested.nextJoin : ∀ {fuel : Nat} {s s' : Join.State σ τ} {row : Option Row},
    Nested p o₀ i₀ s → nextJoin p fuel s = .ok (row, s') →
      Nested p o₀ i₀ s' ∧ ∀ r ∈ row, Joined p o₀ i₀ r
  | 0, _, _, _, _, hnext => by cases hnext
  | fuel + 1, s, s', row, h, hnext => by
    rw [Pipeline.nextJoin] at hnext
    obtain ⟨⟨out, s₁⟩, hturn, hnext⟩ := bind_ok.1 hnext
    obtain ⟨h₁, hout⟩ := h.turn hturn
    cases out with
    | some r =>
      cases hnext
      refine ⟨h₁, fun r hr => ?_⟩
      cases hr
      exact hout r rfl
    | none => exact h₁.nextJoin hnext

/-- **A join only combines rows of its children, or pads one of the outer ones.** -/
theorem produces_join {env : Env} {outer inner : DynExecutor} {on : AnalyzedExpr}
    {joinType : Join.JoinType} {innerWidth : Nat} {row : Row}
    (h : (NestedLoopJoin.new env outer inner on joinType innerWidth).Produces row) :
    (∃ o i, outer.Produces o ∧ inner.Produces i ∧ row = Join.concat o i) ∨
      ∃ o, outer.Produces o ∧ row = Join.nullPadded o innerWidth := by
  obtain ⟨s, s', hs, hnext⟩ := h
  let p : Plan outer.State inner.State :=
    ⟨outer.exec, inner.exec, fun row => evaluateExpr env.arith row on, joinType, innerWidth⟩
  have hreach : ∀ {s}, Reaches (nestedLoopJoin p env.fuel) ⟨outer.state, inner.state, none, false, false⟩ s →
      Nested p outer.state inner.state s := by
    intro s hs
    induction hs with
    | start => exact ⟨.start, .start, fun o ho => by cases ho⟩
    | opened _ hopen ih => exact ih.openJoin hopen
    | next _ hnext ih => exact (ih.nextJoin hnext).1
  exact ((hreach hs).nextJoin hnext).2 row rfl

end Join

end Ccdb.Pipeline
