import Mathlib.Data.List.Forall2
import Ccdb.Catalog.Lookup
import Ccdb.Exec.Pipeline
import Ccdb.Exec.Typing
import Ccdb.Sql.Ast

/-!
# Ccdb — the columns of a FROM clause and where they are in its rows

`intro_table` and `analyze_from` give every table a place in the flat row and a name in the
scope; `build_from_pipeline` walks the analyzed tree again and concatenates rows. A row is
looked at as its parts, one for each table, each of them a row of that table or all NULLs.

Main results:

* `laid_of_inScope` — the scope and the range table are those of the tables of the tree, in
  the order in which they are written.
* `Laid.sees` — so are the parts of the rows.
* `columns_match_layout` — what names and `*` refer to.
-/

namespace Ccdb.FromClause

open Join (Row JoinType)
open Pipeline
open Ast (TableRef FromClause)

/-! ## The catalog -/

/-- The lookups of the catalog: a table that is found by its name is found by its id. -/
structure Tables where
  findTable : String → Except DbError (Option (Nat × PgCatalog.TableDef))
  tableById : Nat → Except DbError (Option PgCatalog.TableDef)
  coherent : ∀ name id t, findTable name = .ok (some (id, t)) → tableById id = .ok (some t)

/-- `to_schema`. -/
def toSchema (t : PgCatalog.TableDef) : TupleCodec.Schema :=
  ⟨t.columns.map fun c => ⟨c.name, c.dataType⟩⟩

/-- The `output_columns` of a table. -/
def outputColumns (t : PgCatalog.TableDef) : List OutputColumn := t.columns.map fun c => ⟨c.name, c.dataType⟩

/-! ## The analyzer's walk -/

inductive AnalyzedFrom where
  | empty
  | table (rteIndex : Nat)
  | join (left : AnalyzedFrom) (rightRteIndex : Nat) (joinType : JoinType) (on : AnalyzedExpr)
deriving DecidableEq

/-- The analyzer with the `table_id` of each entry of its range table. -/
structure State where
  analyzer : Analyzer
  sources : List Nat

/-- `Analyzer::new`, with the scope `analyze_select` pushes. -/
def State.start (findSequence : String → Except DbError Bool) : State :=
  ⟨⟨[], [[]], findSequence⟩, []⟩

/-- `self.range_table[rte_index].output_columns.len()`. -/
def State.width (st : State) (rteIndex : Nat) : Except DbError Nat :=
  match st.analyzer.rangeTable[rteIndex]? with
  | some r => .ok r.outputColumns.length
  | none => .error (.panic "index out of bounds")

/-- More tables were introduced since. -/
def State.Extended (st st' : State) : Prop :=
  st.analyzer.rangeTable <+: st'.analyzer.rangeTable ∧ st.sources <+: st'.sources

/-- The name a table goes by. -/
def visibleName (t : TableRef) : String := t.aliasName.getD t.name

section Walk

variable (cat : Tables)

/-- `intro_table`. -/
def introTable (t : TableRef) (currentOffset : Nat) (st : State) : Except DbError (Nat × State) := do
  match ← cat.findTable t.name with
  | none => .error (.bail s!"table '{t.name}' not found")
  | some (tableId, table) =>
    let rteIndex := st.analyzer.rangeTable.length
    match st.analyzer.scopes.getLast? with
    | none => .error (.panic "scope pushed")
    | some scope =>
      if scope.any fun e => e.visibleName = visibleName t then
        .error (.bail s!"table name or alias '{visibleName t}' duplicated in FROM")
      else
        .ok (rteIndex,
          { analyzer := { st.analyzer with
              rangeTable := st.analyzer.rangeTable ++ [⟨outputColumns table, currentOffset⟩]
              scopes := st.analyzer.scopes.dropLast ++ [scope ++ [⟨visibleName t, rteIndex⟩]] }
            sources := st.sources ++ [tableId] })

/-- `analyze_from`. -/
def analyzeFrom : FromClause → Nat → State → Except DbError ((AnalyzedFrom × Nat) × State)
  | .empty, offset, st => .ok ((.empty, offset), st)
  | .table t, offset, st => do
    let (rteIndex, st) ← introTable cat t offset st
    let width ← st.width rteIndex
    .ok ((.table rteIndex, offset + width), st)
  | .join left right joinType on, offset, st => do
    let ((left, afterLeft), st) ← analyzeFrom left offset st
    let (rightRte, st) ← introTable cat right afterLeft st
    let width ← st.width rightRte
    let on ← st.analyzer.analyzeExpr on
    if on.whereAccepted then .ok ((.join left rightRte joinType on, afterLeft + width), st)
    else .error (.bail s!"JOIN ON must be boolean, got {repr on.dataType}")

/-- The items for one table of `*`. -/
def itemsOf (a : Analyzer) (e : ScopeEntry) : Except DbError (List AnalyzedExpr) := do
  let r ← a.rte e
  return r.outputColumns.mapIdx fun i c => .columnRef ⟨r.flatOffset + i, c.dataType⟩

/-- The items `analyze_select` puts in the place of `*`. -/
def expandAsterisk (a : Analyzer) : Except DbError (List AnalyzedExpr) :=
  match a.scopes.getLast? with
  | none => .error (.panic "scope pushed")
  | some scope => do
    let items ← scope.mapM (itemsOf a)
    return items.flatten

/-! ## The executor's walk -/

/-- `substitute_now_in_from`. -/
def substituteNowInFrom (ts : Int64) : AnalyzedFrom → AnalyzedFrom
  | .join left rightRte joinType on =>
    .join (substituteNowInFrom ts left) rightRte joinType (substituteNow ts on)
  | f => f

variable (env : Env)

/-- `SeqScan::new`. -/
def seqScan (tableId : Nat) : Except DbError DynExecutor :=
  match cat.tableById tableId with
  | .error e => .error e
  | .ok none => .error (.bail s!"table id {tableId} not in catalog")
  | .ok (some t) => .ok (SeqScan.new env (toSchema t) t.firstPageId)

/-- A scan of the base table of `range_table[rte_index]`. -/
def scanRte (st : State) (rteIndex : Nat) : Except DbError DynExecutor :=
  match st.sources[rteIndex]? with
  | none => .error (.panic "index out of bounds")
  | some tableId => seqScan cat env tableId

/-- `build_from_pipeline`. -/
def buildFromPipeline (st : State) : AnalyzedFrom → Except DbError DynExecutor
  | .empty => .ok OneRowRelation.new
  | .table rteIndex => scanRte cat env st rteIndex
  | .join left rightRte joinType on => do
    let outer ← buildFromPipeline st left
    let inner ← scanRte cat env st rightRte
    match st.width rightRte with
    | .error e => .error e
    | .ok innerWidth => .ok (NestedLoopJoin.new env outer inner on joinType innerWidth)

end Walk

/-! ## Tables of a FROM clause and parts of a row -/

/-- A table under the name it goes by in the FROM clause. -/
structure Source where
  visibleName : String
  tableId : Nat
  table : PgCatalog.TableDef

namespace Source

/-- The first column of the name. -/
def column (s : Source) (name : String) : Option Nat :=
  s.table.columns.findIdx? fun c => c.name == name

def HasColumn (s : Source) (name : String) : Prop := ∃ c ∈ s.table.columns, c.name = name

def width (s : Source) : Nat := s.table.columns.length

end Source

/-- The tables of a FROM clause as they are written. -/
def tableRefs : FromClause → List TableRef
  | .empty => []
  | .table t => [t]
  | .join left right _ _ => tableRefs left ++ [right]

section Spec

variable (cat : Tables)

/-- The tables the catalog has for the names of a FROM clause. -/
def Lists (clause : FromClause) (sources : List Source) : Prop :=
  List.Forall₂ (fun t s => s.visibleName = visibleName t ∧
    cat.findTable t.name = .ok (some (s.tableId, s.table))) (tableRefs clause) sources

/-- A scope names are resolved in: that of a FROM clause, or that of the ON of its last join. -/
inductive InScope (findSequence : String → Except DbError Bool) : FromClause → State → Prop where
  | whole {clause : FromClause} {analyzed : AnalyzedFrom} {width : Nat} {st : State}
    (h : analyzeFrom cat clause 0 (.start findSequence) = .ok ((analyzed, width), st)) :
    InScope findSequence clause st
  | on {left : FromClause} {right : TableRef} {joinType : JoinType} {on : Expr}
    {analyzed : AnalyzedFrom} {afterLeft rightRte : Nat} {st₁ st : State}
    (hleft : analyzeFrom cat left 0 (.start findSequence) = .ok ((analyzed, afterLeft), st₁))
    (hright : introTable cat right afterLeft st₁ = .ok (rightRte, st)) :
    InScope findSequence (.join left right joinType on) st

/-- The rows expressions are evaluated on: those of the pipeline, and for the ON of its last
join the pairs of rows. -/
inductive Sees (env : Env) (st : State) : AnalyzedFrom → Row → Prop where
  | produced {analyzed : AnalyzedFrom} {d : DynExecutor} {row : Row}
    (hbuild : buildFromPipeline cat env st analyzed = .ok d) (hrow : d.Produces row) :
    Sees env st analyzed row
  | on {left : AnalyzedFrom} {rightRte : Nat} {joinType : JoinType} {on : AnalyzedExpr}
    {outer inner : DynExecutor} {o i : Row} (houter : buildFromPipeline cat env st left = .ok outer)
    (hinner : scanRte cat env st rightRte = .ok inner) (ho : outer.Produces o)
    (hi : inner.Produces i) : Sees env st (.join left rightRte joinType on) (Join.concat o i)

/-- A join under the top one is on the left; its clause and its analyzed tree. -/
inductive Under : FromClause → AnalyzedFrom → FromClause → AnalyzedFrom → Prop where
  | top {clause : FromClause} {analyzed : AnalyzedFrom} : Under clause analyzed clause analyzed
  | left {left clause : FromClause} {left' analyzed : AnalyzedFrom} {right : TableRef}
    {rightRte : Nat} {joinType joinType' : JoinType} {on : Expr} {on' : AnalyzedExpr}
    (h : Under left left' clause analyzed) :
    Under (.join left right joinType on) (.join left' rightRte joinType' on') clause analyzed

/-- What a table contributes to a row: one of its rows, or NULLs. -/
def Part (env : Env) (s : Source) (part : Row) : Prop :=
  part = List.replicate s.width .null ∨
    ∃ d, seqScan cat env s.tableId = .ok d ∧ d.Produces part

end Spec

/-- The value of a column of the `k`-th table. -/
def columnOf (sources : List Source) (parts : List Row) (k : Nat) (name : String) : Option Value :=
  sources[k]?.bind fun s => parts[k]?.bind fun part => (s.column name).bind fun i => part[i]?

/-- What the names of a scope mean on the rows of its FROM clause. A row may be seen at any
join of the whole tree the clause is part of. -/
structure Matches (cat : Tables) (findSequence : String → Except DbError Bool)
    (clause : FromClause) (st : State) (sources : List Source) : Prop where
  lists : Lists cat clause sources
  names : (sources.map Source.visibleName).Nodup
  rows : ∀ whole wholeAnalyzed analyzed w st',
    analyzeFrom cat whole 0 (.start findSequence) = .ok ((wholeAnalyzed, w), st') →
    Under whole wholeAnalyzed clause analyzed →
    ∀ env ts row, Sees cat env st' (substituteNowInFrom ts analyzed) row →
      ∃ parts, List.Forall₂ (Part cat env) sources parts ∧ row = parts.flatten ∧
        (∀ q name c, st.analyzer.resolveColumn q name = .ok c →
          ∃ k s v, sources[k]? = some s ∧ (∀ visible ∈ q, s.visibleName = visible) ∧
            columnOf sources parts k name = some v ∧
            evaluateExpr env.arith row (.columnRef c) = .ok v) ∧
        ∃ items, expandAsterisk st.analyzer = .ok items ∧
          items.mapM (evaluateExpr env.arith row) = .ok row
  bare : ∀ name, (∃ c, st.analyzer.resolveColumn none name = .ok c) ↔
    ∃! k : Nat, ∃ s, sources[k]? = some s ∧ s.HasColumn name
  asterisk : expandAsterisk st.analyzer =
    .ok ((sources.flatMap fun s => s.table.columns).mapIdx fun i col => .columnRef ⟨i, col.dataType⟩)

/-- The columns of the tables before the `k`-th. -/
def offset (sources : List Source) (k : Nat) : Nat := ((sources.take k).map Source.width).sum

/-- **The layout** of the analyzer's tables. -/
structure Laid (cat : Tables) (sources : List Source) (st : State) : Prop where
  scopes : st.analyzer.scopes = [sources.mapIdx fun k s => ⟨s.visibleName, k⟩]
  range : st.analyzer.rangeTable =
    sources.mapIdx fun k s => ⟨outputColumns s.table, offset sources k⟩
  ids : st.sources = sources.map Source.tableId
  known : ∀ s ∈ sources, cat.tableById s.tableId = .ok (some s.table)
  names : (sources.map Source.visibleName).Nodup

section Offsets

variable {sources : List Source} {s : Source} {k : Nat}

theorem offset_concat (h : k ≤ sources.length) : offset (sources ++ [s]) k = offset sources k := by
  rw [offset, offset, List.take_append_of_le_length h]

@[simp] theorem offset_length : offset sources sources.length = (sources.map Source.width).sum := by
  rw [offset, List.take_length]

/-- The place of a value of one part in the row. -/
theorem flatten_getElem? {parts : List Row} {part : Row} {i : Nat}
    (h : List.Forall₂ (fun s (part : Row) => part.length = s.width) sources parts)
    (hk : parts[k]? = some part) (hi : i < part.length) :
    parts.flatten[offset sources k + i]? = part[i]? := by
  induction h generalizing k with
  | nil => cases hk
  | @cons s p sources parts hp hrest ih =>
    rw [List.flatten_cons]
    cases k with
    | zero =>
      cases hk
      rw [offset, List.take_zero, List.map_nil, List.sum_nil, Nat.zero_add,
        List.getElem?_append_left hi]
    | succ k =>
      have hoff : offset (s :: sources) (k + 1) = p.length + offset sources k := by
        rw [offset, offset, List.take_succ_cons, List.map_cons, List.sum_cons, hp]
      rw [hoff, Nat.add_assoc, List.getElem?_append_right (Nat.le_add_right _ _),
        Nat.add_sub_cancel_left]
      exact ih hk

theorem lengths_of_widths {parts : List Row}
    (h : List.Forall₂ (fun s (part : Row) => part.length = s.width) sources parts) :
    parts.map List.length = sources.map Source.width := by
  induction h with
  | nil => rfl
  | cons hpart hrest ih => rw [List.map_cons, List.map_cons, hpart, ih]

end Offsets

/-! ## The scope of a FROM clause -/

section Layout

variable {cat : Tables} {findSequence : String → Except DbError Bool} {sources : List Source}
  {st st' : State} {clause : FromClause} {analyzed : AnalyzedFrom} {w : Nat}

theorem laid_start (findSequence : String → Except DbError Bool) :
    Laid cat [] (.start findSequence) :=
  ⟨rfl, rfl, rfl, fun _ hs => (List.not_mem_nil hs).elim, List.nodup_nil⟩

/-- One more table. -/
theorem Laid.introTable (h : Laid cat sources st) {t : TableRef} {rteIndex : Nat}
    (hintro : introTable cat t (sources.map Source.width).sum st = .ok (rteIndex, st')) :
    ∃ s, s.visibleName = visibleName t ∧ cat.findTable t.name = .ok (some (s.tableId, s.table)) ∧
      rteIndex = sources.length ∧ Laid cat (sources ++ [s]) st' ∧ st'.width rteIndex = .ok s.width := by
  obtain ⟨found, hfind, hintro⟩ := bind_ok.1 hintro
  cases found with
  | none => cases hintro
  | some found =>
    obtain ⟨tableId, table⟩ := found
    dsimp only at hintro
    rw [h.scopes, List.getLast?_singleton] at hintro
    dsimp only at hintro
    split at hintro
    · cases hintro
    · next hfresh =>
      cases hintro
      have hlen : st.analyzer.rangeTable.length = sources.length := by
        rw [h.range, List.length_mapIdx]
      refine ⟨⟨visibleName t, tableId, table⟩, rfl, hfind, hlen, ⟨?_, ?_, ?_, ?_, ?_⟩, ?_⟩
      · show [].dropLast ++ _ = _
        rw [List.mapIdx_concat, hlen]
        rfl
      · show _ ++ _ = _
        rw [List.mapIdx_concat, h.range, offset_concat (Nat.le_refl _), offset_length]
        congr 1
        refine List.mapIdx_eq_mapIdx_iff.2 fun k hk => ?_
        rw [offset_concat (Nat.le_of_lt hk)]
      · show _ ++ _ = _
        rw [h.ids, List.map_append]
        rfl
      · intro s hs
        rcases List.mem_append.1 hs with hs | hs
        · exact h.known s hs
        · cases List.mem_singleton.1 hs
          exact cat.coherent t.name tableId table hfind
      · rw [List.map_append, List.nodup_append]
        refine ⟨h.names, List.nodup_singleton _, fun name hname other hother hne => hfresh ?_⟩
        cases List.mem_singleton.1 hother
        obtain ⟨k, hk, hget⟩ := List.getElem_of_mem hname
        rw [List.length_map] at hk
        rw [List.any_eq_true]
        refine ⟨⟨sources[k].visibleName, k⟩, List.mem_of_getElem? (i := k) ?_, ?_⟩
        · rw [List.getElem?_mapIdx, List.getElem?_eq_getElem hk]
          rfl
        · rw [List.getElem_map] at hget
          rw [hget, hne]
          exact decide_eq_true rfl
      · unfold State.width
        rw [List.getElem?_concat_length]
        show Except.ok (outputColumns table).length = _
        rw [outputColumns, List.length_map]
        rfl

/-- The tree refers to the first `n` tables in order. -/
inductive Shape : AnalyzedFrom → Nat → Prop where
  | empty : Shape .empty 0
  | table : Shape (.table 0) 1
  | join {left : AnalyzedFrom} {n : Nat} {joinType : JoinType} {on : AnalyzedExpr}
    (h : Shape left n) : Shape (.join left n joinType on) (n + 1)

theorem Shape.substituteNow {n : Nat} (h : Shape analyzed n) (ts : Int64) :
    Shape (substituteNowInFrom ts analyzed) n := by
  induction h with
  | empty => exact .empty
  | table => exact .table
  | join h ih => exact .join ih

theorem Shape.of_join {left : AnalyzedFrom} {n m : Nat} {joinType : JoinType} {on : AnalyzedExpr}
    (h : Shape (.join left n joinType on) m) : m = n + 1 ∧ Shape left n := by
  cases h with
  | join hleft => exact ⟨rfl, hleft⟩

theorem laid_of_analyzeFrom : ∀ {clause : FromClause} {analyzed : AnalyzedFrom} {w : Nat} {st : State},
    analyzeFrom cat clause 0 (.start findSequence) = .ok ((analyzed, w), st) →
      ∃ sources, Lists cat clause sources ∧ Laid cat sources st ∧ Shape analyzed sources.length ∧
        w = (sources.map Source.width).sum
  | .empty, _, _, _, h => by
    cases h
    exact ⟨[], .nil, laid_start findSequence, .empty, rfl⟩
  | .table t, _, _, _, h => by
    obtain ⟨⟨rteIndex, st₁⟩, hintro, h⟩ := bind_ok.1 h
    obtain ⟨width, hwidth, h⟩ := bind_ok.1 h
    cases h
    obtain ⟨s, hname, hfind, rfl, hlaid, hw⟩ :=
      (laid_start findSequence).introTable hintro
    rw [hw] at hwidth
    cases hwidth
    exact ⟨[s], .cons ⟨hname, hfind⟩ .nil, hlaid, .table, Nat.zero_add _⟩
  | .join left right joinType on, _, _, _, h => by
    obtain ⟨⟨⟨left', afterLeft⟩, st₁⟩, hleft, h⟩ := bind_ok.1 h
    obtain ⟨⟨rightRte, st₂⟩, hintro, h⟩ := bind_ok.1 h
    obtain ⟨width, hwidth, h⟩ := bind_ok.1 h
    obtain ⟨on', -, h⟩ := bind_ok.1 h
    obtain ⟨sources, hlists, hlaid, hshape, rfl⟩ := laid_of_analyzeFrom hleft
    obtain ⟨s, hname, hfind, rfl, hlaid', hw⟩ := hlaid.introTable hintro
    rw [hw] at hwidth
    cases hwidth
    split at h
    · cases h
      refine ⟨sources ++ [s], List.rel_append hlists (.cons ⟨hname, hfind⟩ .nil), hlaid', ?_, ?_⟩
      · rw [List.length_append]
        exact .join hshape
      · simp
    · cases h

theorem analyzeFrom_join {left : FromClause} {right : TableRef} {joinType : JoinType} {on : Expr}
    (h : analyzeFrom cat (.join left right joinType on) 0 (.start findSequence) =
      .ok ((analyzed, w), st)) :
    ∃ left' afterLeft st₁ rightRte on', analyzed = .join left' rightRte joinType on' ∧
      analyzeFrom cat left 0 (.start findSequence) = .ok ((left', afterLeft), st₁) ∧
      introTable cat right afterLeft st₁ = .ok (rightRte, st) := by
  obtain ⟨⟨⟨left', afterLeft⟩, st₁⟩, hleft, h⟩ := bind_ok.1 h
  obtain ⟨⟨rightRte, st₂⟩, hintro, h⟩ := bind_ok.1 h
  obtain ⟨width, -, h⟩ := bind_ok.1 h
  obtain ⟨on', -, h⟩ := bind_ok.1 h
  split at h
  · cases h
    exact ⟨left', afterLeft, st₁, rightRte, on', rfl, hleft, hintro⟩
  · cases h

theorem introTable_extended {t : TableRef} {off rteIndex : Nat}
    (h : introTable cat t off st = .ok (rteIndex, st')) : st.Extended st' := by
  obtain ⟨found, -, h⟩ := bind_ok.1 h
  cases found with
  | none => cases h
  | some found =>
    dsimp only at h
    split at h
    · cases h
    · split at h
      · cases h
      · cases h
        exact ⟨List.prefix_append _ _, List.prefix_append _ _⟩

/-- A join under the top one was analyzed with the tables up to its own. -/
theorem Under.isAnalyzed {whole : FromClause} {wholeAnalyzed : AnalyzedFrom} {w' : Nat}
    (h : Under whole wholeAnalyzed clause analyzed)
    (hwhole : analyzeFrom cat whole 0 (.start findSequence) = .ok ((wholeAnalyzed, w'), st')) :
    ∃ w st, analyzeFrom cat clause 0 (.start findSequence) = .ok ((analyzed, w), st) ∧
      st.Extended st' := by
  induction h generalizing w' st' with
  | top => exact ⟨w', st', hwhole, List.prefix_refl _, List.prefix_refl _⟩
  | left h ih =>
    obtain ⟨left', afterLeft, st₁, rightRte, on', heq, hleft, hintro⟩ := analyzeFrom_join hwhole
    cases heq
    obtain ⟨w, st, hclause, hext⟩ := ih hleft
    have hmore := introTable_extended hintro
    exact ⟨w, st, hclause, hext.1.trans hmore.1, hext.2.trans hmore.2⟩

/-- ON is analyzed in the scope the join leaves. -/
theorem InScope.state_eq (h : InScope cat findSequence clause st)
    (hclause : analyzeFrom cat clause 0 (.start findSequence) = .ok ((analyzed, w), st')) :
    st = st' := by
  cases h with
  | whole h =>
    rw [h] at hclause
    cases hclause
    rfl
  | on hleft hright =>
    obtain ⟨left', afterLeft, st₁, rightRte, on', -, hleft', hright'⟩ := analyzeFrom_join hclause
    rw [hleft] at hleft'
    cases hleft'
    rw [hright] at hright'
    cases hright'
    rfl

/-- **The scope of a FROM clause is that of its tables.** -/
theorem laid_of_inScope (h : InScope cat findSequence clause st) :
    ∃ sources, Lists cat clause sources ∧ Laid cat sources st := by
  cases h with
  | whole h =>
    obtain ⟨sources, hlists, hlaid, -, -⟩ := laid_of_analyzeFrom h
    exact ⟨sources, hlists, hlaid⟩
  | on hleft hright =>
    obtain ⟨sources, hlists, hlaid, -, rfl⟩ := laid_of_analyzeFrom hleft
    obtain ⟨s, hname, hfind, -, hlaid', -⟩ := hlaid.introTable hright
    exact ⟨sources ++ [s], List.rel_append hlists (.cons ⟨hname, hfind⟩ .nil), hlaid'⟩

/-! ## The rows -/

variable {env : Env}

theorem toSchema_width (s : Source) : (toSchema s.table).columns.length = s.width :=
  List.length_map _

/-- A part has a value for each column of its table. -/
theorem Part.width {s : Source} {part : Row} (hknown : cat.tableById s.tableId = .ok (some s.table))
    (h : Part cat env s part) : part.length = s.width := by
  rcases h with rfl | ⟨d, hscan, hpart⟩
  · exact List.length_replicate
  · unfold seqScan at hscan
    rw [hknown] at hscan
    cases hscan
    rw [SeqScan.produces_width hpart, toSchema_width]

theorem Laid.scanRte (h : Laid cat sources st) (hext : st.Extended st') {k : Nat}
    (hk : k < sources.length) {d : DynExecutor} (hscan : scanRte cat env st' k = .ok d) :
    ∃ s, sources[k]? = some s ∧ seqScan cat env s.tableId = .ok d := by
  obtain ⟨more, hmore⟩ := hext.2
  have hget : st'.sources[k]? = some sources[k].tableId := by
    rw [← hmore, h.ids, List.getElem?_append_left (by rwa [List.length_map]), List.getElem?_map,
      List.getElem?_eq_getElem hk]
    rfl
  unfold FromClause.scanRte at hscan
  rw [hget] at hscan
  exact ⟨_, List.getElem?_eq_getElem hk, hscan⟩

theorem Laid.width (h : Laid cat sources st) (hext : st.Extended st') {k : Nat} {s : Source}
    (hs : sources[k]? = some s) : st'.width k = .ok s.width := by
  obtain ⟨more, hmore⟩ := hext.1
  have hk : k < sources.length := (List.getElem?_eq_some_iff.1 hs).1
  unfold State.width
  rw [← hmore, h.range, List.getElem?_append_left (by rwa [List.length_mapIdx]), List.getElem?_mapIdx,
    hs]
  show Except.ok (outputColumns s.table).length = _
  rw [outputColumns, List.length_map]
  rfl

theorem take_concat {k : Nat} {s : Source} (hs : sources[k]? = some s) :
    sources.take (k + 1) = sources.take k ++ [s] := by
  rw [List.take_add_one, hs]
  rfl

/-- The rows of the pipeline of the first `n` tables, by the tree. -/
theorem Laid.produces (h : Laid cat sources st) (hext : st.Extended st') {n : Nat}
    (hshape : Shape analyzed n) (hn : n ≤ sources.length) {d : DynExecutor} {row : Row}
    (hbuild : buildFromPipeline cat env st' analyzed = .ok d) (hrow : d.Produces row) :
    ∃ parts, List.Forall₂ (Part cat env) (sources.take n) parts ∧ row = parts.flatten := by
  induction hshape generalizing d row with
  | empty =>
    cases hbuild
    exact ⟨[], .nil, produces_oneRow hrow⟩
  | table =>
    obtain ⟨s, hs, hscan⟩ := h.scanRte hext hn hbuild
    refine ⟨[row], ?_, (List.append_nil row).symm⟩
    rw [take_concat hs, List.take_zero]
    exact .cons (Or.inr ⟨d, hscan, hrow⟩) .nil
  | @join left n joinType on hleft ih =>
    obtain ⟨outer, houter, hbuild⟩ := bind_ok.1 hbuild
    obtain ⟨inner, hinner, hbuild⟩ := bind_ok.1 hbuild
    obtain ⟨s, hs, hscan⟩ := h.scanRte hext hn hinner
    rw [h.width hext hs] at hbuild
    cases hbuild
    rw [take_concat hs]
    rcases produces_join hrow with ⟨o, i, ho, hi, rfl⟩ | ⟨o, ho, rfl⟩
    · obtain ⟨parts, hparts, rfl⟩ := ih (Nat.le_of_succ_le hn) houter ho
      exact ⟨parts ++ [i], List.rel_append hparts (.cons (Or.inr ⟨inner, hscan, hi⟩) .nil),
        by rw [Join.concat, List.flatten_concat]⟩
    · obtain ⟨parts, hparts, rfl⟩ := ih (Nat.le_of_succ_le hn) houter ho
      exact ⟨parts ++ [List.replicate s.width .null],
        List.rel_append hparts (.cons (Or.inl rfl) .nil),
        by rw [Join.nullPadded, List.flatten_concat]⟩

/-- **A row is made of a part for each table**, in the order of the FROM clause. -/
theorem Laid.sees (h : Laid cat sources st) (hext : st.Extended st')
    (hshape : Shape analyzed sources.length) {row : Row} (hrow : Sees cat env st' analyzed row) :
    ∃ parts, List.Forall₂ (Part cat env) sources parts ∧ row = parts.flatten := by
  cases hrow with
  | produced hbuild hrow =>
    have hparts := h.produces hext hshape (Nat.le_refl _) hbuild hrow
    rwa [List.take_length] at hparts
  | on houter hinner ho hi =>
    obtain ⟨hlen, hleft⟩ := hshape.of_join
    have hlt := Nat.lt_of_succ_le (Nat.le_of_eq hlen.symm)
    obtain ⟨s, hs, hscan⟩ := h.scanRte hext hlt hinner
    obtain ⟨parts, hparts, rfl⟩ := h.produces hext hleft (Nat.le_of_lt hlt) houter ho
    refine ⟨parts ++ [_], ?_, by rw [Join.concat, List.flatten_concat]⟩
    rw [← List.take_length (l := sources), hlen, take_concat hs]
    exact List.rel_append hparts (.cons (Or.inr ⟨_, hscan, hi⟩) .nil)

theorem Laid.widths (h : Laid cat sources st) {parts : List Row}
    (hparts : List.Forall₂ (Part cat env) sources parts) :
    List.Forall₂ (fun s (part : Row) => part.length = s.width) sources parts := by
  rw [List.forall₂_iff_get] at hparts ⊢
  refine ⟨hparts.1, fun k hk hk' => ?_⟩
  exact (hparts.2 k hk hk').width (h.known _ (List.get_mem _ _))

end Layout

/-! ## Names -/

/-- The reference is to the column of that name of the `k`-th table. -/
def RefersTo (sources : List Source) (c : AnalyzedColumnRef) (k : Nat) (name : String) : Prop :=
  ∃ s i col, sources[k]? = some s ∧ s.column name = some i ∧ s.table.columns[i]? = some col ∧
    c = ⟨offset sources k + i, col.dataType⟩

section Lists

variable {α β : Type}

theorem find?_zipIdx (p : α → Bool) : ∀ (l : List α) (n : Nat),
    (l.zipIdx n).find? (fun c => p c.1) = (l.findIdx? p).bind fun i => l[i]?.map fun c => (c, n + i)
  | [], _ => rfl
  | a :: l, n => by
    rw [List.zipIdx_cons, List.find?_cons, List.findIdx?_cons]
    cases hp : p a with
    | true => rfl
    | false =>
      simp only [Bool.false_eq_true, if_false]
      rw [find?_zipIdx p l (n + 1), Option.bind_map]
      congr 1
      funext i
      show _ = Option.map _ l[i]?
      rw [Nat.add_assoc, Nat.add_comm 1 i]

/-- One element passes, and it is the one at place `k`. -/
theorem filterMap_eq_singleton {g : α → Option β} {c : β} : ∀ {l : List α},
    l.filterMap g = [c] ↔
      ∃ k : Nat, l[k]?.bind g = some c ∧ ∀ j : Nat, j ≠ k → l[j]?.bind g = none
  | [] => by simp
  | a :: l => by
    cases ha : g a with
    | none =>
      rw [List.filterMap_cons_none ha, filterMap_eq_singleton]
      constructor
      · rintro ⟨k, hk, hother⟩
        refine ⟨k + 1, hk, fun j hj => ?_⟩
        cases j with
        | zero => exact ha
        | succ j => exact hother j fun h => hj (congrArg _ h)
      · rintro ⟨k, hk, hother⟩
        cases k with
        | zero =>
          rw [List.getElem?_cons_zero, Option.bind_some, ha] at hk
          cases hk
        | succ k => exact ⟨k, hk, fun j hj => hother (j + 1) fun h => hj (Nat.succ.inj h)⟩
    | some b =>
      rw [List.filterMap_cons_some ha, List.cons.injEq, List.filterMap_eq_nil_iff]
      constructor
      · rintro ⟨rfl, hrest⟩
        refine ⟨0, ha, fun j hj => ?_⟩
        cases j with
        | zero => exact absurd rfl hj
        | succ j =>
          rw [List.getElem?_cons_succ, Option.bind_eq_none_iff]
          exact fun x hx => hrest x (List.mem_of_getElem? hx)
      · rintro ⟨k, hk, hother⟩
        have hzero : k = 0 := by
          by_contra hne
          have hnone := hother 0 fun h => hne h.symm
          rw [List.getElem?_cons_zero, Option.bind_some, ha] at hnone
          cases hnone
        subst hzero
        rw [List.getElem?_cons_zero, Option.bind_some, ha] at hk
        refine ⟨Option.some.inj hk, fun x hx => ?_⟩
        obtain ⟨i, hi, rfl⟩ := List.getElem_of_mem hx
        have hnone := hother (i + 1) (Nat.succ_ne_zero i)
        rwa [List.getElem?_cons_succ, List.getElem?_eq_getElem hi, Option.bind_some] at hnone

end Lists

section Names

variable {cat : Tables} {findSequence : String → Except DbError Bool} {sources : List Source}
  {st : State} {a : Analyzer} {c : AnalyzedColumnRef} {name : String} {k : Nat} {s : Source}

theorem findColumn_eq (r : RangeTableEntry) (name : String) :
    r.findColumn name = (r.outputColumns.findIdx? fun c => c.name == name).bind fun i =>
      r.outputColumns[i]?.map fun c => ⟨r.flatOffset + i, c.dataType⟩ := by
  unfold RangeTableEntry.findColumn
  rw [find?_zipIdx (fun c : OutputColumn => c.name == name), Option.map_bind]
  congr 1
  funext i
  rw [Function.comp, Option.map_map]
  cases r.outputColumns[i]? with
  | none => rfl
  | some c =>
    show some (AnalyzedColumnRef.mk (r.flatOffset + (0 + i)) c.dataType) = _
    rw [Nat.zero_add]
    rfl

/-- The entry of the range table and the table have the same columns. -/
theorem findColumn_source (off : Nat) (s : Source) (name : String) :
    RangeTableEntry.findColumn ⟨outputColumns s.table, off⟩ name =
      (s.column name).bind fun i => s.table.columns[i]?.map fun c => ⟨off + i, c.dataType⟩ := by
  rw [findColumn_eq]
  dsimp only
  rw [outputColumns, List.findIdx?_map]
  show (s.column name).bind _ = _
  congr 1
  funext i
  rw [List.getElem?_map, Option.map_map]
  rfl

theorem column_eq_none : s.column name = none ↔ ¬ s.HasColumn name := by
  rw [Source.column, List.findIdx?_eq_none_iff, Source.HasColumn]
  simp

theorem column_some {i : Nat} (h : s.column name = some i) : i < s.width :=
  (List.findIdx?_eq_some_iff_findIdx_eq.1 h).1

/-- What a table has for a name. -/
def hit (sources : List Source) (name : String) (k : Nat) (s : Source) : Option AnalyzedColumnRef :=
  (s.column name).bind fun i => s.table.columns[i]?.map fun c => ⟨offset sources k + i, c.dataType⟩

theorem hit_eq_none : hit sources name k s = none ↔ ¬ s.HasColumn name := by
  rw [← column_eq_none, hit]
  cases hi : s.column name with
  | none => simp
  | some i =>
    rw [Option.bind_some, List.getElem?_eq_getElem (column_some hi)]
    simp

theorem refersTo_of_hit (hs : sources[k]? = some s) (h : hit sources name k s = some c) :
    RefersTo sources c k name := by
  obtain ⟨i, hi, h⟩ := Option.bind_eq_some_iff.1 h
  obtain ⟨col, hcol, rfl⟩ := Option.map_eq_some_iff.1 h
  exact ⟨s, i, col, hs, hi, hcol, rfl⟩

theorem Laid.entries (h : Laid cat sources st) :
    st.analyzer.entries = sources.mapIdx fun k s => ⟨s.visibleName, k⟩ := by
  unfold Analyzer.entries
  rw [h.scopes, List.reverse_singleton, List.flatten_singleton]

theorem Laid.rte (h : Laid cat sources st) (hs : sources[k]? = some s) (visible : String) :
    st.analyzer.rte ⟨visible, k⟩ = .ok ⟨outputColumns s.table, offset sources k⟩ := by
  unfold Analyzer.rte
  rw [h.range, List.getElem?_mapIdx, hs]
  rfl

theorem resolveQualified_ok {q : String} : ∀ {es : List ScopeEntry},
    a.resolveQualified q name es = .ok c →
      ∃ e ∈ es, e.visibleName = q ∧ ∃ r, a.rte e = .ok r ∧ r.findColumn name = some c
  | [], h => by cases h
  | e :: es, h => by
    rw [Analyzer.resolveQualified] at h
    split at h
    · obtain ⟨e', he', hrest⟩ := resolveQualified_ok h
      exact ⟨e', List.mem_cons_of_mem _ he', hrest⟩
    · next hq =>
      obtain ⟨r, hr, h⟩ := bind_ok.1 h
      refine ⟨e, List.mem_cons_self, not_not.1 hq, r, hr, ?_⟩
      cases hfind : r.findColumn name with
      | none =>
        rw [hfind] at h
        cases h
      | some c' =>
        rw [hfind] at h
        cases h
        rfl

theorem resolveUnqualified_cons {e : ScopeEntry} {es : List ScopeEntry} {r : RangeTableEntry}
    {found : Option AnalyzedColumnRef} (hr : a.rte e = .ok r) :
    a.resolveUnqualified name found (e :: es) = match r.findColumn name with
      | none => a.resolveUnqualified name found es
      | some c' =>
        if found.isSome then .error (.bail s!"column '{name}' is ambiguous")
        else a.resolveUnqualified name (some c') es := by
  cases found <;> (rw [Analyzer.resolveUnqualified, hr]; rfl)

/-- Exactly one entry has to have the name. -/
theorem resolveUnqualified_iff {g : ScopeEntry → Option AnalyzedColumnRef} :
    ∀ (es : List ScopeEntry) (found : Option AnalyzedColumnRef),
    (∀ e ∈ es, ∃ r, a.rte e = .ok r ∧ r.findColumn name = g e) →
    (a.resolveUnqualified name found es = .ok c ↔ found.toList ++ es.filterMap g = [c])
  | [], none, _ => by simp [Analyzer.resolveUnqualified]
  | [], some c', _ => by simp [Analyzer.resolveUnqualified]
  | e :: es, found, h => by
    obtain ⟨r, hr, hfind⟩ := h e List.mem_cons_self
    have ih := fun found => resolveUnqualified_iff es found fun e he =>
      h e (List.mem_cons_of_mem _ he)
    rw [resolveUnqualified_cons hr, hfind, List.filterMap_cons]
    cases g e with
    | none => exact ih found
    | some c' =>
      cases found with
      | none => exact ih (some c')
      | some c'' =>
        -- two hits make a list that is too long
        constructor
        · intro h
          cases h
        · intro h
          cases h

theorem Laid.resolveUnqualified (h : Laid cat sources st) :
    st.analyzer.resolveColumn none name = .ok c ↔
      ∃ k : Nat, sources[k]?.bind (hit sources name k) = some c ∧
        ∀ j : Nat, j ≠ k → sources[j]?.bind (hit sources name j) = none := by
  let g (e : ScopeEntry) : Option AnalyzedColumnRef :=
    sources[e.rteIndex]?.bind (hit sources name e.rteIndex)
  have hentries : ∀ e ∈ st.analyzer.entries, ∃ r, st.analyzer.rte e = .ok r ∧
      r.findColumn name = g e := by
    intro e he
    rw [h.entries] at he
    obtain ⟨k, hk, rfl⟩ := List.mem_mapIdx.1 he
    have hs := List.getElem?_eq_getElem hk
    refine ⟨_, h.rte hs _, ?_⟩
    rw [findColumn_source]
    show _ = sources[k]?.bind (hit sources name k)
    rw [hs]
    rfl
  have hget : ∀ k : Nat, st.analyzer.entries[k]?.bind g = sources[k]?.bind (hit sources name k) := by
    intro k
    rw [h.entries, List.getElem?_mapIdx]
    cases hs : sources[k]? with
    | none => rfl
    | some s =>
      show sources[k]?.bind (hit sources name k) = _
      rw [hs]
  unfold Analyzer.resolveColumn
  rw [resolveUnqualified_iff _ _ hentries, Option.toList_none, List.nil_append, filterMap_eq_singleton]
  simp only [hget]

theorem hits_none_iff : sources[k]?.bind (hit sources name k) = none ↔
    ¬ ∃ s, sources[k]? = some s ∧ s.HasColumn name := by
  cases hs : sources[k]? with
  | none => simp
  | some s =>
    rw [Option.bind_some, hit_eq_none]
    simp

/-- **A bare name is accepted exactly when one table has a column of that name.** -/
theorem Laid.accepts_iff (h : Laid cat sources st) :
    (∃ c, st.analyzer.resolveColumn none name = .ok c) ↔
      ∃! k : Nat, ∃ s, sources[k]? = some s ∧ s.HasColumn name := by
  simp only [h.resolveUnqualified, ExistsUnique, hits_none_iff]
  constructor
  · rintro ⟨c, k, hk, hother⟩
    refine ⟨k, ?_, fun j hj => ?_⟩
    · by_contra hnone
      rw [hits_none_iff.2 hnone] at hk
      cases hk
    · by_contra hne
      exact hother j hne hj
  · rintro ⟨k, hk, huniq⟩
    have hsome : sources[k]?.bind (hit sources name k) ≠ none := fun hnone => hits_none_iff.1 hnone hk
    obtain ⟨c, hc⟩ := Option.ne_none_iff_exists'.1 hsome
    exact ⟨c, k, hc, fun j hj hhas => hj (huniq j hhas)⟩

/-- What the names of a scope refer to. -/
theorem Laid.resolves (h : Laid cat sources st) {q : Option String}
    (hc : st.analyzer.resolveColumn q name = .ok c) :
    ∃ k s, sources[k]? = some s ∧ (∀ visible ∈ q, s.visibleName = visible) ∧
      RefersTo sources c k name := by
  cases q with
  | some q =>
    unfold Analyzer.resolveColumn at hc
    obtain ⟨e, he, hq, r, hr, hfind⟩ := resolveQualified_ok hc
    rw [h.entries] at he
    obtain ⟨k, hk, rfl⟩ := List.mem_mapIdx.1 he
    have hs := List.getElem?_eq_getElem hk
    rw [h.rte hs] at hr
    cases hr
    rw [findColumn_source] at hfind
    refine ⟨k, sources[k], hs, fun visible hvisible => ?_, refersTo_of_hit hs hfind⟩
    cases hvisible
    exact hq
  | none =>
    obtain ⟨k, hk, -⟩ := h.resolveUnqualified.1 hc
    obtain ⟨s, hs, hhit⟩ := Option.bind_eq_some_iff.1 hk
    exact ⟨k, s, hs, (fun _ hvisible => nomatch hvisible), refersTo_of_hit hs hhit⟩

/-- The value a reference has in a row of the tables. -/
theorem RefersTo.reads (h : RefersTo sources c k name) {parts : List Row}
    (hparts : List.Forall₂ (fun s (part : Row) => part.length = s.width) sources parts)
    (arith : Arith) : ∃ v, columnOf sources parts k name = some v ∧
      evaluateExpr arith parts.flatten (.columnRef c) = .ok v := by
  obtain ⟨s, i, col, hs, hi, -, rfl⟩ := h
  have hk : k < sources.length := (List.getElem?_eq_some_iff.1 hs).1
  obtain ⟨hlen, hwidth⟩ := List.forall₂_iff_get.1 hparts
  have hkp : k < parts.length := hlen ▸ hk
  have hpart : (parts[k]).length = s.width := by
    have hw := hwidth k hk hkp
    rwa [List.get_eq_getElem, List.get_eq_getElem, (List.getElem?_eq_some_iff.1 hs).2] at hw
  have hip : i < (parts[k]).length := hpart ▸ column_some hi
  refine ⟨(parts[k])[i], ?_, ?_⟩
  · unfold columnOf
    rw [hs, Option.bind_some, List.getElem?_eq_getElem hkp, Option.bind_some, hi, Option.bind_some,
      List.getElem?_eq_getElem hip]
  · show Except.ok (parts.flatten.getD _ _) = _
    rw [List.getD_eq_getElem?_getD, flatten_getElem? hparts (List.getElem?_eq_getElem hkp) hip,
      List.getElem?_eq_getElem hip]
    rfl

/-! ## The asterisk -/

/-- References to columns at consecutive places. -/
def columnRefs (off : Nat) (columns : List PgCatalog.ColumnDef) : List AnalyzedExpr :=
  columns.mapIdx fun i c => .columnRef ⟨off + i, c.dataType⟩

theorem columnRefs_append (off : Nat) (columns more : List PgCatalog.ColumnDef) :
    columnRefs off (columns ++ more) =
      columnRefs off columns ++ columnRefs (off + columns.length) more := by
  unfold columnRefs
  rw [List.mapIdx_append]
  congr 1
  refine List.mapIdx_eq_mapIdx_iff.2 fun i _ => ?_
  rw [Nat.add_assoc, Nat.add_comm i]

theorem flatten_columnRefs (sources : List Source) :
    (sources.mapIdx fun k s => columnRefs (offset sources k) s.table.columns).flatten =
      columnRefs 0 (sources.flatMap fun s => s.table.columns) := by
  induction sources using List.reverseRecOn with
  | nil => rfl
  | append_singleton sources s ih =>
    have hsame : (sources.mapIdx fun k t => columnRefs (offset (sources ++ [s]) k) t.table.columns) =
        sources.mapIdx fun k t => columnRefs (offset sources k) t.table.columns :=
      List.mapIdx_eq_mapIdx_iff.2 fun k hk => by rw [offset_concat (Nat.le_of_lt hk)]
    rw [List.mapIdx_concat, List.flatten_concat, hsame, ih, List.flatMap_append, columnRefs_append,
      offset_concat (Nat.le_refl _), offset_length, List.length_flatMap, Nat.zero_add,
      List.flatMap_singleton]
    rfl

theorem Laid.asterisk (h : Laid cat sources st) : expandAsterisk st.analyzer =
    .ok (columnRefs 0 (sources.flatMap fun s => s.table.columns)) := by
  let g (e : ScopeEntry) : List AnalyzedExpr :=
    (sources[e.rteIndex]?.map fun s => columnRefs (offset sources e.rteIndex) s.table.columns).getD []
  have hitem : ∀ e ∈ sources.mapIdx fun k s => ScopeEntry.mk s.visibleName k,
      itemsOf st.analyzer e = .ok (g e) := by
    intro e he
    obtain ⟨k, hk, rfl⟩ := List.mem_mapIdx.1 he
    have hs := List.getElem?_eq_getElem hk
    unfold itemsOf
    rw [h.rte hs]
    show Except.ok ((outputColumns sources[k].table).mapIdx _) =
      Except.ok ((sources[k]?.map _).getD [])
    rw [hs, outputColumns]
    refine congrArg Except.ok (List.ext_getElem? fun i => ?_)
    rw [List.getElem?_mapIdx, List.getElem?_map, Option.map_some, Option.getD_some, columnRefs,
      List.getElem?_mapIdx, Option.map_map]
    rfl
  have hmap : (sources.mapIdx fun k s => ScopeEntry.mk s.visibleName k).map g =
      sources.mapIdx fun k s => columnRefs (offset sources k) s.table.columns := by
    refine List.ext_getElem? fun k => ?_
    rw [List.getElem?_map, List.getElem?_mapIdx, List.getElem?_mapIdx, Option.map_map]
    cases hs : sources[k]? with
    | none => rfl
    | some s =>
      show some ((sources[k]?.map _).getD []) = _
      rw [hs]
      rfl
  unfold expandAsterisk
  rw [h.scopes, List.getLast?_singleton]
  dsimp only
  rw [mapM_ok hitem, hmap]
  exact congrArg Except.ok (flatten_columnRefs sources)

/-- The items of `*` give the row back. -/
theorem columnRefs_evaluate (arith : Arith) {columns : List PgCatalog.ColumnDef} {row : Row}
    (h : row.length = columns.length) :
    (columnRefs 0 columns).mapM (evaluateExpr arith row) = .ok row := by
  let g : AnalyzedExpr → Value := fun e => (evaluateExpr arith row e).toOption.getD .null
  have heval : ∀ e ∈ columnRefs 0 columns, evaluateExpr arith row e = .ok (g e) := by
    intro e he
    obtain ⟨i, -, rfl⟩ := List.mem_mapIdx.1 he
    rfl
  rw [mapM_ok heval]
  congr 1
  refine List.ext_getElem? fun i => ?_
  rw [List.getElem?_map, columnRefs, List.getElem?_mapIdx]
  by_cases hi : i < columns.length
  · rw [List.getElem?_eq_getElem hi, List.getElem?_eq_getElem (h ▸ hi)]
    show some (row.getD (0 + i) .null) = _
    rw [Nat.zero_add, List.getD_eq_getElem?_getD, List.getElem?_eq_getElem (h ▸ hi)]
    rfl
  · rw [List.getElem?_eq_none (Nat.le_of_not_lt hi),
      List.getElem?_eq_none (h ▸ Nat.le_of_not_lt hi)]
    rfl

/-- **The columns of a scope and the layout of its rows agree.** -/
theorem columns_match_layout (cat : Tables) (findSequence : String → Except DbError Bool)
    {clause : FromClause} {st : State} (h : InScope cat findSequence clause st) :
    ∃ sources, Matches cat findSequence clause st sources := by
  obtain ⟨sources, hlists, hlaid⟩ := laid_of_inScope h
  have hstar : expandAsterisk st.analyzer = .ok ((sources.flatMap fun s => s.table.columns).mapIdx
      fun i col => .columnRef ⟨i, col.dataType⟩) := by
    rw [hlaid.asterisk]
    refine congrArg Except.ok (List.mapIdx_eq_mapIdx_iff.2 fun i _ => ?_)
    rw [Nat.zero_add]
  refine ⟨sources, hlists, hlaid.names, ?_, fun _ => hlaid.accepts_iff, hstar⟩
  intro whole wholeAnalyzed analyzed w st' hwhole hunder env ts row hrow
  obtain ⟨w₁, st₁, hclause, hext⟩ := hunder.isAnalyzed hwhole
  obtain rfl := h.state_eq hclause
  obtain ⟨sources', hlists', -, hshape, -⟩ := laid_of_analyzeFrom hclause
  rw [← hlists'.length_eq, hlists.length_eq] at hshape
  obtain ⟨parts, hparts, rfl⟩ := hlaid.sees hext (hshape.substituteNow ts) hrow
  have hwidths := hlaid.widths hparts
  refine ⟨parts, hparts, rfl, fun q name c hc => ?_, _, hlaid.asterisk, columnRefs_evaluate _ ?_⟩
  · obtain ⟨k, s, hs, hq, hrefers⟩ := hlaid.resolves hc
    obtain ⟨v, hv, heval⟩ := hrefers.reads hwidths env.arith
    exact ⟨k, s, v, hs, hq, hv, heval⟩
  · rw [List.length_flatten, List.length_flatMap, lengths_of_widths hwidths]
    rfl

/-- A catalog with one table of two columns. -/
def oneTable : Tables where
  findTable name :=
    .ok (if name = "t" then
      some (5, ⟨5, "t", 7, [⟨"a", .int, true, none⟩, ⟨"b", .varchar, true, none⟩]⟩) else none)
  tableById id :=
    .ok (if id = 5 then
      some ⟨5, "t", 7, [⟨"a", .int, true, none⟩, ⟨"b", .varchar, true, none⟩]⟩ else none)
  coherent name id t h := by
    split at h
    · cases h
      rfl
    · cases h

/-- `t LEFT JOIN t AS v ON t.a = v.a`. -/
def selfJoin : FromClause :=
  .join (.table ⟨"t", none⟩) ⟨"t", some "v"⟩ .left
    (.binaryOp (.column (some "t") "a") .eq (.column (some "v") "a"))

theorem columns_match_layout_selfJoin : ∃ st sources,
    Matches oneTable (fun _ => .ok false) selfJoin st sources ∧ st.sources = [5, 5] := by
  have hok : (match analyzeFrom oneTable selfJoin 0 (.start fun _ => .ok false) with
      | .ok (_, st) => decide (st.sources = [5, 5])
      | .error _ => false) = true := by
    decide +kernel
  split at hok
  · next analyzed st h =>
    obtain ⟨sources, hmatches⟩ := columns_match_layout oneTable _ (.whole h)
    exact ⟨st, sources, hmatches, of_decide_eq_true hok⟩
  · cases hok

end Names

end Ccdb.FromClause
