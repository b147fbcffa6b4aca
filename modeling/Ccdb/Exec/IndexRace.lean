import Ccdb.BTree.SortedMap
import Ccdb.Catalog.Lookup
import Ccdb.Lib.Runs

/-!
# Ccdb — two insertions into one index

`btree::insert` latches one node at a time. On the way down the latch goes once the
child is known; after a split of the child the node is latched again to take the
separator; a split of the node the call started from gets a new root, outside of any
latch. `index_insert_for_row_with_lm` then records a root that changed, which is one
pass over the pages of `pg_index` and two writes.

Two calls that read the same root page id take these sections in any order. Neither
looks at a page again to see whether the other one has split it.
-/

namespace Ccdb.IndexRace

open BTree

/-! ## State -/

/-- What the two calls are given: the index definition, and a key and a rid each. -/
structure Setup (ty : DataType) where
  indexId : Nat
  root : Nat
  key : Bool → Key ty
  rid : Bool → Rid

/-- The section a call is about to take. `stack` are the nodes it came down through,
the nearest one first. -/
inductive Pc where
  /-- `insert_recursive` on a node -/
  | visit (node : Nat) (stack : List Nat)
  /-- the child of the first node was split; no node is left above the root -/
  | absorb (sep : Bytes) (right : Nat) (stack : List Nat)
  /-- first pass of `update_index_root`, on the `i`-th page -/
  | scan (root i : Nat)
  | remove (root i slot : Nat) (vals : List Value)
  | emit (root : Nat) (vals : List Value)
  | done
  | failed (e : DbError)
deriving DecidableEq

/-- `cuts` and `top` are not in the code: the last separator a page was split at, and
the root of the tree. The pages of `pg_index` are apart from those of the tree. -/
structure State where
  pool : BufferPool
  pgIndex : List Page
  pc : Bool → Pc
  cuts : Nat → Option Bytes
  top : Nat

variable {ty : DataType}

/-- Both calls are about to start. -/
def Setup.start (su : Setup ty) (pool : BufferPool) (pgIndex : List Page) : State where
  pool := pool
  pgIndex := pgIndex
  pc _ := .visit su.root []
  cuts _ := none
  top := su.root

/-! ## Sections -/

/-- The first section of `insert_recursive`. A call that fits returns the root it was
given, and there is nothing to record. -/
def visit (key : Bytes) (rid : Rid) (ty : DataType) (node : Nat) (stack : List Nat) : PoolM Pc := do
  let page ← fetchPage node
  match page.pageKind with
  | .btreeLeaf => do
    match ← insertLeaf node page key rid ty with
    | .fit => return .done
    | .split sep right => return .absorb sep right stack
  | .btreeInternal => do
    let child ← liftE (childFor page key ty)
    return .visit child (node :: stack)
  | _ => throw (.bail "insert hit a non-btree page (corruption)")

/-- The second section, on a node whose child was split. -/
def absorbAt (ty : DataType) (sep : Bytes) (right node : Nat) (stack : List Nat) : PoolM Pc := do
  match ← absorbSplit node sep right ty with
  | .fit => return .done
  | .split sep right => return .absorb sep right stack

/-- The end of `insert`, and the comparison of the roots. -/
def growRoot (root : Nat) (sep : Bytes) (right : Nat) : PoolM Pc := do
  let newRoot ← newPage
  writePage newRoot (initInternal (.new newRoot) root)
  insertInto newRoot (.internal sep right)
  return if newRoot ≠ root then .scan newRoot 0 else .done

/-- The first row of the index on a page, from slot `i` on. -/
def findRow (indexId : Nat) : Nat → List Slot → Except DbError (Option (Nat × List Value))
  | _, [] => .ok none
  | i, s :: rest =>
    match s.tuple with
    | none => findRow indexId (i + 1) rest
    | some raw => do
      let t ← decodeRow raw
      if isIndexRow indexId t then .ok (some (i, t.values)) else findRow indexId (i + 1) rest

/-- One page of pass 1 of `update_index_root`. -/
def scanPage (indexId root i : Nat) (pages : List Page) : Except DbError Pc :=
  match pages[i]? with
  | none => .error (.bail s!"update_index_root: index {indexId} not found")
  | some page => do
    match ← findRow indexId 0 page.slots with
    | none => .ok (.scan root (i + 1))
    | some (slot, vals) => .ok (.remove root i slot vals)

/-- The first write of pass 2. -/
def removeRow (i slot : Nat) (pages : List Page) : Except DbError (List Page) :=
  match pages[i]? with
  | none => .error (.panic "page not found")
  | some page => do
    let page' ← page.delete slot
    .ok (pages.set i page')

/-- The row that is written for the new root: all other columns are kept. -/
def rootRow (root : Nat) (vals : List Value) : HeapTuple :=
  .mk' SYSTEM_TXN_ID invalidTxnId
    (vals.take 4 ++ [.int (PgCatalog.asI32 root), vals.getD 5 (.bool false)])

/-- The second write, to the head page. -/
def emitRow (root : Nat) (vals : List Value) : List Page → Except DbError (List Page)
  | [] => .error (.panic "page not found")
  | head :: rest => do
    let (_, head') ← head.insert (.heap (rootRow root vals))
    .ok (head' :: rest)

/-- A section on the pages of the tree. -/
def State.onTree (s : State) (b : Bool) (x : PoolM Pc) : State :=
  match x s.pool with
  | .ok pc pool => { s with pool := pool, pc := Function.update s.pc b pc }
  | .error e pool => { s with pool := pool, pc := Function.update s.pc b (.failed e) }

/-- A section on the pages of `pg_index`. -/
def State.onRows (s : State) (b : Bool) (x : Except DbError (Pc × List Page)) : State :=
  match x with
  | .ok (pc, pages) => { s with pgIndex := pages, pc := Function.update s.pc b pc }
  | .error e => { s with pc := Function.update s.pc b (.failed e) }

/-- The next section of a call, unless it has returned. -/
def latched (su : Setup ty) (s : State) (b : Bool) : Option State :=
  match s.pc b with
  | .visit node stack => some (s.onTree b (visit (su.key b).bytes (su.rid b) ty node stack))
  | .absorb sep right (node :: stack) => some (s.onTree b (absorbAt ty sep right node stack))
  | .absorb sep right [] => some (s.onTree b (growRoot su.root sep right))
  | .scan root i =>
    some (s.onRows b ((scanPage su.indexId root i s.pgIndex).map fun pc => (pc, s.pgIndex)))
  | .remove root i slot vals =>
    some (s.onRows b ((removeRow i slot s.pgIndex).map fun pages => (.emit root vals, pages)))
  | .emit root vals => some (s.onRows b ((emitRow root vals s.pgIndex).map fun pages => (.done, pages)))
  | .done => none
  | .failed _ => none

/-! ## Splits seen from outside -/

/-- The node a section split, the separator, and the new page. -/
def splitOf : Pc → Pc → Option (Nat × Bytes × Nat)
  | .visit node _, .absorb sep right _ => some (node, sep, right)
  | .absorb _ _ (node :: _), .absorb sep right _ => some (node, sep, right)
  | _, _ => none

/-- The upper part of a node ends where the node ended. -/
def cutsAfter (cuts : Nat → Option Bytes) : Option (Nat × Bytes × Nat) → Nat → Option Bytes
  | none => cuts
  | some (node, sep, right) =>
    Function.update (Function.update cuts node (some sep)) right (cuts node)

/-- A new root, if the section made one. -/
def topAfter (top : Nat) : Pc → Pc → Nat
  | .absorb _ _ [], .scan root _ => root
  | _, _ => top

/-- A section, and what it did to the tree. -/
def step (su : Setup ty) (s : State) (b : Bool) : Option State :=
  (latched su s b).map fun s' =>
    { s' with
      cuts := cutsAfter s.cuts (splitOf (s.pc b) (s'.pc b))
      top := topAfter s.top (s.pc b) (s'.pc b) }

/-! ## What a later search sees -/

/-- The `root_page_id` that `all_indexes` reads for the index. -/
def pgRoot (indexId : Nat) (pages : List Page) : Option Nat :=
  (((PgCatalog.scanChain pages).filterMap decodeIndexRow).find? fun d => d.indexId = indexId).map
    IndexDef.rootPageId

/-- Every pair is what a search for its key returns, from the root in `pg_index`. -/
def Found (su : Setup ty) (s : State) (S : Set (Key ty × Rid)) : Prop :=
  ∃ root, pgRoot su.indexId s.pgIndex = some root ∧
    ∀ e ∈ S, lookupEq root e.1.bytes ty s.pool = .ok [e.2] s.pool

/-- The pairs stored before and the two new ones. -/
def Setup.entries (su : Setup ty) (S : Set (Key ty × Rid)) : Set (Key ty × Rid) :=
  insert (su.key false, su.rid false) (insert (su.key true, su.rid true) S)

/-! ## When sections do not get in each other's way -/

/-- The key is below the last separator the page was split at. -/
def below (ty : DataType) (key : Bytes) : Option Bytes → Bool
  | none => true
  | some cut =>
    match compareKeys key cut ty with
    | .ok .lt => true
    | _ => false

/-- The page a section latches has not been split at or below the key or the separator
the section brings, and a new root goes above the root of the tree. -/
def clear (su : Setup ty) (s : State) (b : Bool) : Bool :=
  match s.pc b with
  | .visit node _ => below ty (su.key b).bytes (s.cuts node)
  | .absorb sep _ (node :: _) => below ty sep (s.cuts node)
  | .absorb _ _ [] => s.top == su.root
  | _ => true

/-! ## One call alone -/

/-- Where a call stands when `insert_recursive` has returned. -/
def afterOutcome (stack : List Nat) : InsertOutcome → Pc
  | .fit => .done
  | .split sep right => .absorb sep right stack

theorem onTree_ok {s : State} {b : Bool} {x : PoolM Pc} {pc : Pc} {pool : BufferPool}
    (h : x s.pool = .ok pc pool) :
    s.onTree b x = { s with pool := pool, pc := Function.update s.pc b pc } := by
  rw [State.onTree, h]

end Ccdb.IndexRace
