import Ccdb.BTree.Key
import Ccdb.Storage.BufferPool

/-!
# Ccdb — B+Tree operations

The functions of `btree.rs` on the page store: descent, exact lookup,
ordered iteration, insertion with leaf and internal splits, and deletion.
Loops over the slots of a page are recursions over its slot directory; a
loop that follows page pointers has as many steps as there are pages, so
running out of them (`DbError.diverge`) means that the loop never ends.
Latches are not part of the sequential functions.
-/

namespace Ccdb.BTree

open Ccdb

/-! ## Reading entries -/

/-- `page.get_tuple(slot).unwrap()`. -/
def unwrapTuple (s : Slot) : Except DbError PageTuple :=
  match s.tuple with
  | some t => .ok t
  | none => .error (.panic "entry not tombstoned in btree")

/-- `decode_leaf_entry` on a slot's bytes. -/
def asLeafEntry : PageTuple → Except DbError (Bytes × Rid)
  | .leaf key rid => .ok (key, rid)
  | _ => .error (.panic "not a leaf entry")

/-- `decode_internal_entry` on a slot's bytes. -/
def asInternalEntry : PageTuple → Except DbError (Bytes × Nat)
  | .internal key child => .ok (key, child)
  | _ => .error (.panic "not an internal entry")

/-- The key half of `decode_internal_entry_or_leaf_key`. -/
def entryKey (kind : PageKind) (t : PageTuple) : Except DbError Bytes :=
  match kind with
  | .btreeLeaf => (asLeafEntry t).map Prod.fst
  | .btreeInternal => (asInternalEntry t).map Prod.fst
  | _ => .error (.panic "rightmost_le on non-btree page")

/-! ## Node initialization -/

/-- `init_leaf`. -/
def initLeaf (page : Page) : Page :=
  ((Page.new page.pageId).setPageKind .btreeLeaf).setNextPageId NO_NEXT_PAGE

/-- `init_internal`. -/
def initInternal (page : Page) (p0 : Nat) : Page :=
  ((Page.new page.pageId).setPageKind .btreeInternal).setNextPageId p0

/-! ## Search -/

/-- The loop of `rightmost_le` from slot `i` on. -/
def rightmostLeFrom (kind : PageKind) (target : Bytes) (ty : DataType) :
    Nat → Option Nat → List Slot → Except DbError (Option Nat)
  | _, found, [] => .ok found
  | i, found, s :: rest => do
    let raw ← unwrapTuple s
    let key ← entryKey kind raw
    if (← compareKeys key target ty) = .gt then .ok found
    else rightmostLeFrom kind target ty (i + 1) (some i) rest

/-- `rightmost_le`: the last slot whose key is ≤ `target`. -/
def rightmostLe (page : Page) (target : Bytes) (ty : DataType) : Except DbError (Option Nat) :=
  rightmostLeFrom page.pageKind target ty 0 none page.slots

/-- The child an internal node sends `target` to: `p0`, or the child of
the rightmost entry whose key is ≤ `target`. -/
def childFor (page : Page) (target : Bytes) (ty : DataType) : Except DbError Nat := do
  match ← rightmostLe page target ty with
  | none => .ok page.nextPageId
  | some slot =>
    match page.getTuple slot with
    | none => .error (.panic "called `Option::unwrap()` on a `None` value")
    | some raw => (asInternalEntry raw).map Prod.snd

def liftE {α : Type} (x : Except DbError α) : PoolM α := fun s =>
  match x with
  | .ok a => .ok a s
  | .error e => .error e s

/-- The number of steps after which a walk over pages must have repeated one. -/
def pageFuel : PoolM Nat := fun s => .ok (s.pageCount + 1) s

def descendLoop (target : Bytes) (ty : DataType) : Nat → Nat → PoolM Nat
  | 0, _ => throw .diverge
  | fuel + 1, current => do
    let page ← fetchPage current
    match page.pageKind with
    | .btreeLeaf => return page.pageId
    | .btreeInternal => do
      let next ← liftE (childFor page target ty)
      descendLoop target ty fuel next
    | _ => throw (.bail "descend hit a non-btree page (corruption)")

/-- `descend_to_leaf`. -/
def descendToLeaf (root : Nat) (target : Bytes) (ty : DataType) : PoolM Nat := do
  descendLoop target ty (← pageFuel) root

/-- The loop of `leaf_lookup_eq`: it stops at the first greater key. -/
def lookupEqFrom (target : Bytes) (ty : DataType) : List Slot → Except DbError (List Rid)
  | [] => .ok []
  | s :: rest => do
    let raw ← unwrapTuple s
    let (key, rid) ← asLeafEntry raw
    match ← compareKeys key target ty with
    | .eq => do
      let out ← lookupEqFrom target ty rest
      .ok (rid :: out)
    | .gt => .ok []
    | .lt => lookupEqFrom target ty rest

/-- `leaf_lookup_eq`: every rid stored under `target` in one leaf. -/
def leafLookupEq (page : Page) (target : Bytes) (ty : DataType) : Except DbError (List Rid) :=
  lookupEqFrom target ty page.slots

/-- `descend_to_leaf` followed by `leaf_lookup_eq`, as every index probe does. -/
def lookupEq (root : Nat) (target : Bytes) (ty : DataType) : PoolM (List Rid) := do
  let leafId ← descendToLeaf root target ty
  let page ← fetchPage leafId
  liftE (leafLookupEq page target ty)

/-! ## Ordered iteration -/

/-- The slot loop of `first_ge`: the first slot with a key ≥ `target`. -/
def firstGeFrom (target : Bytes) (ty : DataType) : Nat → List Slot → Except DbError (Option Nat)
  | _, [] => .ok none
  | i, s :: rest => do
    let raw ← unwrapTuple s
    let (key, _) ← asLeafEntry raw
    if (← compareKeys key target ty) ≠ .lt then .ok (some i)
    else firstGeFrom target ty (i + 1) rest

def firstGeLoop (target : Bytes) (ty : DataType) : Nat → Nat → PoolM (Option Rid)
  | 0, _ => throw .diverge
  | fuel + 1, pageId => do
    let p ← fetchPage pageId
    match ← liftE (firstGeFrom target ty 0 p.slots) with
    | some slot => return some (pageId, slot)
    | none =>
      if p.nextPageId = NO_NEXT_PAGE then return none
      else firstGeLoop target ty fuel p.nextPageId

/-- `first_ge`: cursor of the first entry with key ≥ `target`. -/
def firstGe (root : Nat) (target : Bytes) (ty : DataType) : PoolM (Option Rid) := do
  let leafId ← descendToLeaf root target ty
  firstGeLoop target ty (← pageFuel) leafId

/-- The slot loop of `read_at`: the first live slot at or after the cursor,
`n - i` slots being left. -/
def firstLive (p : Page) : Nat → Nat → Option (Nat × PageTuple)
  | 0, _ => none
  | left + 1, i =>
    match p.getTuple i with
    | some raw => some (i, raw)
    | none => firstLive p left (i + 1)

def readAtLoop : Nat → Nat → Nat → PoolM (Option (Bytes × Rid × Option Rid))
  | 0, _, _ => throw .diverge
  | fuel + 1, pageId, slot => do
    let p ← fetchPage pageId
    match firstLive p (p.tupleCount - slot) slot with
    | some (i, raw) => do
      let (key, rid) ← liftE (asLeafEntry raw)
      let nextCursor :=
        if i + 1 < p.tupleCount then some (pageId, i + 1)
        else if p.nextPageId = NO_NEXT_PAGE then none
        else some (p.nextPageId, 0)
      return some (key, rid, nextCursor)
    | none =>
      if p.nextPageId = NO_NEXT_PAGE then return none
      else readAtLoop fuel p.nextPageId 0

/-- `read_at`: the entry at the cursor and the cursor of the next one. -/
def readAt (cursor : Rid) : PoolM (Option (Bytes × Rid × Option Rid)) := do
  readAtLoop (← pageFuel) cursor.1 cursor.2

/-! ## Insert -/

/-- `fits`. -/
def fits (page : Page) (entryLen : Nat) : Bool := decide (entryLen + SLOT_SIZE ≤ page.freeSpace)

/-- The entry list of a node with `entry` merged in before the first entry
with a greater key; equal keys keep the new entry after them. -/
def mergeEntry (kind : PageKind) (key : Bytes) (entry : PageTuple) (ty : DataType) :
    Bool → List Slot → Except DbError (List PageTuple)
  | inserted, [] => .ok (if inserted then [] else [entry])
  | true, s :: rest => do
    let raw ← unwrapTuple s
    let _ ← entryKey kind raw
    let out ← mergeEntry kind key entry ty true rest
    .ok (raw :: out)
  | false, s :: rest => do
    let raw ← unwrapTuple s
    let k ← entryKey kind raw
    if (← compareKeys key k ty) = .lt then do
      let out ← mergeEntry kind key entry ty true rest
      .ok (entry :: raw :: out)
    else do
      let out ← mergeEntry kind key entry ty false rest
      .ok (raw :: out)

/-- The empty page a node is rebuilt on: same id, kind, link and LSN. -/
def resetPage (page : Page) (next : Nat) : Page :=
  (((Page.new page.pageId).setPageKind page.pageKind).setNextPageId next).setPageLsn page.pageLsn

/-- `for raw in entries { page.insert(raw)?; }` on page `p`. -/
def insertAll (p : Nat) : List PageTuple → PoolM Unit
  | [] => return ()
  | t :: ts => do
    insertInto p t
    insertAll p ts

/-- `insert_sorted`: rebuild the page with `entry` in key order. -/
def insertSorted (p : Nat) (page : Page) (key : Bytes) (entry : PageTuple) (ty : DataType) :
    PoolM Unit := do
  let entries ← liftE (mergeEntry page.pageKind key entry ty false page.slots)
  writePage p (resetPage page page.nextPageId)
  insertAll p entries

/-- The idempotence check of the leaf case: is `(key, rid)` already here? -/
def leafHasEntry (key : Bytes) (rid : Rid) (ty : DataType) : List Slot → Except DbError Bool
  | [] => .ok false
  | s :: rest => do
    let raw ← unwrapTuple s
    let (k, r) ← asLeafEntry raw
    if r = rid then do
      if (← compareKeys k key ty) = .eq then .ok true else leafHasEntry key rid ty rest
    else leafHasEntry key rid ty rest

inductive InsertOutcome where
  | fit
  | split (sepKey : Bytes) (right : Nat)
deriving DecidableEq, Repr

/-- The leaf split: left half rebuilt in place, right half on a new
sibling that takes over the chain link. The rebuilt left page has no link
until the sibling exists. -/
def splitLeaf (nodeId : Nat) (page : Page) (entries : List PageTuple) : PoolM InsertOutcome := do
  let mid := entries.length / 2
  writePage nodeId (resetPage page NO_NEXT_PAGE)
  insertAll nodeId (entries.take mid)
  let newPid ← newPage
  writePage newPid (initLeaf (.new newPid))
  insertAll newPid (entries.drop mid)
  modify fun s => s.set newPid ((s.pages newPid).setNextPageId page.nextPageId)
  modify fun s => s.set nodeId ((s.pages nodeId).setNextPageId newPid)
  match entries.drop mid with
  | [] => throw (.panic "index out of bounds")
  | raw :: _ => do
    let (sepKey, _) ← liftE (asLeafEntry raw)
    return .split sepKey newPid

/-- The internal split: the middle entry is promoted and removed from both
halves, its child becomes the new node's `p0`. -/
def splitInternal (nodeId : Nat) (page : Page) (entries : List PageTuple) :
    PoolM InsertOutcome := do
  let mid := entries.length / 2
  match entries.drop mid with
  | [] => throw (.panic "index out of bounds")
  | promotedRaw :: rest => do
    let (promotedKey, promotedChild) ← liftE (asInternalEntry promotedRaw)
    writePage nodeId (resetPage page page.nextPageId)
    insertAll nodeId (entries.take mid)
    let newPid ← newPage
    writePage newPid (initInternal (.new newPid) promotedChild)
    insertAll newPid rest
    return .split promotedKey newPid

/-- The leaf case of `insert_recursive`. -/
def insertLeaf (nodeId : Nat) (page : Page) (key : Bytes) (rid : Rid) (ty : DataType) :
    PoolM InsertOutcome := do
  if ← liftE (leafHasEntry key rid ty page.slots) then return .fit
  else
    let entry := PageTuple.leaf key rid
    if fits page entry.len then do
      insertSorted nodeId page key entry ty
      return .fit
    else do
      let entries ← liftE (mergeEntry .btreeLeaf key entry ty false page.slots)
      splitLeaf nodeId page entries

/-- The second half of the internal case: absorb a child's split. -/
def absorbSplit (nodeId : Nat) (sepKey : Bytes) (right : Nat) (ty : DataType) :
    PoolM InsertOutcome := do
  let page ← fetchPage nodeId
  let entry := PageTuple.internal sepKey right
  if fits page entry.len then do
    insertSorted nodeId page sepKey entry ty
    return .fit
  else do
    let entries ← liftE (mergeEntry .btreeInternal sepKey entry ty false page.slots)
    splitInternal nodeId page entries

/-- `insert_recursive`. -/
def insertRecursive (key : Bytes) (rid : Rid) (ty : DataType) : Nat → Nat → PoolM InsertOutcome
  | 0, _ => throw .diverge
  | fuel + 1, nodeId => do
    let page ← fetchPage nodeId
    match page.pageKind with
    | .btreeLeaf => insertLeaf nodeId page key rid ty
    | .btreeInternal => do
      let child ← liftE (childFor page key ty)
      match ← insertRecursive key rid ty fuel child with
      | .fit => return .fit
      | .split sepKey right => absorbSplit nodeId sepKey right ty
    | _ => throw (.bail "insert hit a non-btree page (corruption)")

/-- `insert`: the returned page is the root from now on. -/
def insert (root : Nat) (key : Bytes) (rid : Rid) (ty : DataType) : PoolM Nat := do
  match ← insertRecursive key rid ty (← pageFuel) root with
  | .fit => return root
  | .split sepKey right => do
    let newRoot ← newPage
    writePage newRoot (initInternal (.new newRoot) root)
    insertInto newRoot (.internal sepKey right)
    return newRoot

/-! ## Delete -/

/-- The entry list of a leaf without the first `(key, rid)` entry, and
whether there was one. -/
def removeEntry (key : Bytes) (rid : Rid) (ty : DataType) :
    Bool → List Slot → Except DbError (List PageTuple × Bool)
  | removed, [] => .ok ([], removed)
  | removed, s :: rest => do
    let raw ← unwrapTuple s
    let (k, r) ← asLeafEntry raw
    if !removed && r = rid then do
      if (← compareKeys k key ty) = .eq then removeEntry key rid ty true rest
      else do
        let (out, removed) ← removeEntry key rid ty removed rest
        .ok (raw :: out, removed)
    else do
      let (out, removed) ← removeEntry key rid ty removed rest
      .ok (raw :: out, removed)

/-- `delete`: drop `(key, rid)` from the leaf the descent reaches. -/
def delete (root : Nat) (key : Bytes) (rid : Rid) (ty : DataType) : PoolM Bool := do
  let leafId ← descendToLeaf root key ty
  let page ← fetchPage leafId
  let (entries, removed) ← liftE (removeEntry key rid ty false page.slots)
  if !removed then return false
  else do
    writePage leafId
      ((((Page.new page.pageId).setPageKind .btreeLeaf).setNextPageId page.nextPageId).setPageLsn
        page.pageLsn)
    insertAll leafId entries
    return true

/-! ## Leftmost leaf -/

def leftmostLoop : Nat → Nat → PoolM Nat
  | 0, _ => throw .diverge
  | fuel + 1, cur => do
    let p ← fetchPage cur
    match p.pageKind with
    | .btreeLeaf => return cur
    | .btreeInternal => leftmostLoop fuel p.nextPageId
    | _ => throw (.bail "leftmost_leaf: not a btree page")

/-- `leftmost_leaf`. -/
def leftmostLeaf (root : Nat) : PoolM Nat := do
  leftmostLoop (← pageFuel) root

end Ccdb.BTree
