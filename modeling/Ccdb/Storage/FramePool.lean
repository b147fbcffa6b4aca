import Ccdb.Base
import Ccdb.Lib.ClockSweep

/-!
# Ccdb — frames, pins and eviction

`buffer_pool.rs` and `disk.rs` as they run on one thread: sixteen shards of frames
with their page tables, clock arms, free-frame and recycled-page lists, the guards
the callers hold, and the data file. The contents of a page are a parameter `α`;
what the pool looks at of them is `Page::new` and the page LSN (`PageOps`). Reads
and writes of the file and the log forces before a write succeed; page ids and
LSNs are natural numbers.

The end of a `Vec` that is popped and pushed is the head of the list here.
-/

namespace Ccdb.FramePool

/-- What the pool uses of a page's contents. -/
structure PageOps (α : Type) where
  /-- `Page::new`. -/
  fresh : Nat → α
  /-- `page_lsn`. -/
  pageLsn : α → Nat

def NUM_SHARDS : Nat := 16

def shardIdx (pageId : Nat) : Nat := pageId % NUM_SHARDS

structure Frame (α : Type) where
  page : α
  pageId : Option Nat
  pinCount : Nat
  dirty : Bool
  referenced : Bool

/-- `frames i` for `i` below the shard's capacity. `dpt` is the shard's part of the dirty
page table. -/
structure Shard (α : Type) where
  frames : Nat → Frame α
  pageTable : Nat → Option Nat
  arm : Nat
  dpt : Nat → Option Nat
  freeList : List Nat
  freeFrames : List Nat

/-- The data file. -/
structure Disk (α : Type) where
  pageCount : Nat
  pages : Nat → α

/-- `perShard` is the capacity of every shard. -/
structure Pool (α : Type) where
  perShard : Nat
  shards : Nat → Shard α
  disk : Disk α

/-- `PageGuard`. -/
structure Guard where
  pageId : Nat
  fid : Nat
  mutated : Bool
deriving DecidableEq

variable {α : Type}

def Pool.shard (pool : Pool α) (pageId : Nat) : Shard α := pool.shards (shardIdx pageId)

def Pool.setShard (pool : Pool α) (idx : Nat) (sh : Shard α) : Pool α :=
  { pool with shards := Function.update pool.shards idx sh }

def Shard.setFrame (sh : Shard α) (fid : Nat) (f : Frame α) : Shard α :=
  { sh with frames := Function.update sh.frames fid f }

/-- `BufferPool::new`. -/
def Pool.new (ops : PageOps α) (capacity : Nat) (disk : Disk α) : Pool α where
  perShard := max ((capacity + NUM_SHARDS - 1) / NUM_SHARDS) 1
  shards _ :=
    { frames := fun _ => ⟨ops.fresh 0, none, 0, false, false⟩
      pageTable := fun _ => none
      arm := 0
      dpt := fun _ => none
      freeList := []
      freeFrames := List.range (max ((capacity + NUM_SHARDS - 1) / NUM_SHARDS) 1) }
  disk := disk

/-! ## The file -/

/-- `read_page`: `read_exact_at` fails behind the end of the file. -/
def Disk.read (d : Disk α) (pageId : Nat) : Except DbError α :=
  if pageId < d.pageCount then .ok (d.pages pageId)
  else .error (.io "failed to fill whole buffer")

/-- `write_page`. -/
def Disk.write (d : Disk α) (pageId : Nat) (page : α) : Disk α :=
  { d with pages := Function.update d.pages pageId page }

/-- `allocate_page`. -/
def Disk.allocate (ops : PageOps α) (d : Disk α) : Nat × Disk α :=
  (d.pageCount,
    { pageCount := d.pageCount + 1
      pages := Function.update d.pages d.pageCount (ops.fresh d.pageCount) })

/-! ## Frames -/

/-- `evict`: a dirty frame is written, the frame becomes empty. -/
def evict (sh : Shard α) (d : Disk α) (fid : Nat) : Shard α × Disk α :=
  let frame := sh.frames fid
  let empty : Frame α := ⟨frame.page, none, 0, false, false⟩
  match frame.pageId with
  | none => (sh.setFrame fid empty, d)
  | some pid =>
    let d := if frame.dirty then d.write pid frame.page else d
    ({ sh.setFrame fid empty with
        pageTable := Function.update sh.pageTable pid none
        dpt := Function.update sh.dpt pid none }, d)

/-- `victim`, with the arm and the reference bits it leaves. -/
def victim (cap : Nat) (sh : Shard α) : Option Nat × Shard α :=
  let (found, arm, ref) :=
    ClockSweep.sweep cap (fun i => decide (0 < (sh.frames i).pinCount)) (cap * 2) sh.arm
      fun i => (sh.frames i).referenced
  (found,
    { sh with
      arm := arm
      frames := fun i => { sh.frames i with referenced := ref i } })

/-- `buffer pool exhausted`. -/
def exhausted : DbError := .bail "buffer pool exhausted: all frames pinned"

/-- `pick_or_evict`. -/
def pickOrEvict (cap : Nat) (sh : Shard α) (d : Disk α) : Except DbError Nat × Shard α × Disk α :=
  match sh.freeFrames with
  | fid :: rest => (.ok fid, { sh with freeFrames := rest }, d)
  | [] =>
    match victim cap sh with
    | (none, sh) => (.error exhausted, sh, d)
    | (some fid, sh) => (.ok fid, evict sh d fid)

/-- The frame and the page table entry of a page that has just been brought in. -/
def Shard.install (sh : Shard α) (fid pageId : Nat) (page : α) (dirty : Bool) : Shard α :=
  { sh.setFrame fid ⟨page, some pageId, 1, dirty, true⟩ with
    pageTable := Function.update sh.pageTable pageId (some fid) }

/-! ## Fetching and allocating -/

/-- `fetch_page`. The fast path pins the resident frame; should the frame have another page
id, the slow path finds the same entry in the page table and pins it all the same. -/
def Pool.fetchPage (pool : Pool α) (pageId : Nat) : Except DbError Guard × Pool α :=
  let idx := shardIdx pageId
  let sh := pool.shards idx
  match sh.pageTable pageId with
  | some fid =>
    let frame := sh.frames fid
    (.ok ⟨pageId, fid, false⟩,
      pool.setShard idx
        (sh.setFrame fid { frame with pinCount := frame.pinCount + 1, referenced := true }))
  | none =>
    match pickOrEvict pool.perShard sh pool.disk with
    | (.error e, sh, d) => (.error e, { pool.setShard idx sh with disk := d })
    | (.ok fid, sh, d) =>
      match d.read pageId with
      | .error e => (.error e, { pool.setShard idx sh with disk := d })
      | .ok buf =>
        (.ok ⟨pageId, fid, false⟩,
          { pool.setShard idx (sh.install fid pageId buf false) with disk := d })

/-- The frame for a page that is not read from the file (`install_fresh` and the second
half of `install_recycled`). -/
def Pool.installNew (ops : PageOps α) (pool : Pool α) (sh : Shard α) (d : Disk α) (pageId : Nat) :
    Except DbError Guard × Pool α :=
  let idx := shardIdx pageId
  match pickOrEvict pool.perShard sh d with
  | (.error e, sh, d) => (.error e, { pool.setShard idx sh with disk := d })
  | (.ok fid, sh, d) =>
    (.ok ⟨pageId, fid, false⟩,
      { pool.setShard idx (sh.install fid pageId (ops.fresh pageId) true) with disk := d })

/-- `install_recycled`: a stale resident copy is evicted first and gives up its frame. -/
def Pool.installRecycled (ops : PageOps α) (pool : Pool α) (pageId : Nat) :
    Except DbError Guard × Pool α :=
  let sh := pool.shard pageId
  match sh.pageTable pageId with
  | none => pool.installNew ops sh pool.disk pageId
  | some fid =>
    let (sh, d) := evict sh pool.disk fid
    pool.installNew ops { sh with freeFrames := fid :: sh.freeFrames } d pageId

/-- The first shard with a recycled page, among `n` from `idx` on. -/
def Pool.firstRecycled (pool : Pool α) : Nat → Nat → Option (Nat × Nat × List Nat)
  | _, 0 => none
  | idx, n + 1 =>
    match (pool.shards idx).freeList with
    | pageId :: rest => some (idx, pageId, rest)
    | [] => pool.firstRecycled (idx + 1) n

/-- `new_page`. -/
def Pool.newPage (ops : PageOps α) (pool : Pool α) : Except DbError Guard × Pool α :=
  match pool.firstRecycled 0 NUM_SHARDS with
  | some (idx, pageId, rest) =>
    (pool.setShard idx { pool.shards idx with freeList := rest }).installRecycled ops pageId
  | none =>
    let (pageId, d) := pool.disk.allocate ops
    Pool.installNew ops { pool with disk := d } (pool.shard pageId) d pageId

/-! ## Writing back and releasing -/

/-- One dirty frame is written back. -/
def flushFrame (sh : Shard α) (d : Disk α) (fid : Nat) : Shard α × Disk α :=
  let frame := sh.frames fid
  if frame.dirty then
    match frame.pageId with
    | none => (sh, d)
    | some pid =>
      ({ sh.setFrame fid { frame with dirty := false } with
          dpt := Function.update sh.dpt pid none }, d.write pid frame.page)
  else (sh, d)

/-- The frames of one shard, from `fid` on. -/
def flushFrames : Nat → Nat → Shard α → Disk α → Shard α × Disk α
  | _, 0, sh, d => (sh, d)
  | fid, n + 1, sh, d =>
    let (sh, d) := flushFrame sh d fid
    flushFrames (fid + 1) n sh d

/-- `flush_all`, over `n` shards from `idx` on. -/
def Pool.flushShards : Nat → Nat → Pool α → Pool α
  | _, 0, pool => pool
  | idx, n + 1, pool =>
    let (sh, d) := flushFrames 0 pool.perShard (pool.shards idx) pool.disk
    flushShards (idx + 1) n { pool.setShard idx sh with disk := d }

/-- `flush_all`. -/
def Pool.flushAll (pool : Pool α) : Pool α := Pool.flushShards 0 NUM_SHARDS pool

/-- `flush_page`. -/
def Pool.flushPage (pool : Pool α) (pageId : Nat) : Pool α :=
  let idx := shardIdx pageId
  let sh := pool.shards idx
  match sh.pageTable pageId with
  | none => pool
  | some fid =>
    let frame := sh.frames fid
    if frame.dirty then
      { pool.setShard idx
          { sh.setFrame fid { frame with dirty := false } with
            dpt := Function.update sh.dpt pageId none } with
        disk := pool.disk.write pageId frame.page }
    else pool

/-- `recycle_page`. -/
def Pool.recyclePage (pool : Pool α) (pageId : Nat) : Pool α :=
  let idx := shardIdx pageId
  let sh := pool.shards idx
  pool.setShard idx { sh with freeList := pageId :: sh.freeList }

/-- `release`, when a guard is dropped. -/
def Pool.release (ops : PageOps α) (pool : Pool α) (g : Guard) : Pool α :=
  let idx := shardIdx g.pageId
  let sh := pool.shards idx
  let frame := sh.frames g.fid
  if frame.pinCount = 0 then pool
  else
    let dpt :=
      if g.mutated ∧ frame.dirty = false then
        Function.update sh.dpt g.pageId
          (some ((sh.dpt g.pageId).getD (ops.pageLsn frame.page)))
      else sh.dpt
    pool.setShard idx
      { sh.setFrame g.fid
          { frame with dirty := frame.dirty || g.mutated, pinCount := frame.pinCount - 1 } with
        dpt := dpt }

/-- `PageGuard::read`. -/
def Pool.readGuard (pool : Pool α) (g : Guard) : α := ((pool.shard g.pageId).frames g.fid).page

/-- What is written through `PageGuard::write`. -/
def Pool.writeGuard (pool : Pool α) (g : Guard) (page : α) : Pool α :=
  let idx := shardIdx g.pageId
  let sh := pool.shards idx
  pool.setShard idx (sh.setFrame g.fid { sh.frames g.fid with page := page })

/-- `dpt_snapshot`. -/
def Pool.dptSnapshot (pool : Pool α) (pageId : Nat) : Option Nat := (pool.shard pageId).dpt pageId

end Ccdb.FramePool
