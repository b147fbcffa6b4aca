import Ccdb.Storage.Page

/-!
# Ccdb — the bytes of a page

`page.rs` and the page half of `sequence.rs` at the level of the 4096 bytes: the
header fields at their offsets, the slot directory and the tuple data. Nothing
is assumed of the bytes, so slices that leave the page end in a panic here as
they do in the source.

The operations that change a page keep what they have written when they fail
(`EStateM`).

Main results:

* `RawPage.slice_copy_self` — what was copied into a page is read back.
* `RawPage.pageLsn_setPageLsn` — in particular the LSN of the header.
-/

namespace Ccdb

/-- `[u8; PAGE_SIZE]`. -/
def RawPage := Fin PAGE_SIZE → UInt8

abbrev RawM := EStateM DbError RawPage

def PageKind.fromU8 (b : UInt8) : PageKind :=
  if b = 1 then .btreeLeaf
  else if b = 2 then .btreeInternal
  else if b = 3 then .sequenceRel
  else .heap

/-- `k as u8`. -/
def PageKind.toU8 : PageKind → UInt8
  | .heap => 0
  | .btreeLeaf => 1
  | .btreeInternal => 2
  | .sequenceRel => 3

/-- The panic of a slice that ends outside the page. -/
def sliceError : DbError := .panic "range end index out of range for slice of length 4096"

namespace RawPage

/-! ## Slices -/

def byte (p : RawPage) (i : Nat) : UInt8 := if h : i < PAGE_SIZE then p ⟨i, h⟩ else 0

/-- `data[off..off + n]`, for a range inside the page. -/
def slice (p : RawPage) (off n : Nat) : Bytes := (List.range n).map fun i => p.byte (off + i)

/-- `data[off..off + bytes.len()].copy_from_slice(bytes)`. -/
def copy (p : RawPage) (off : Nat) (bytes : Bytes) : RawPage := fun i =>
  if off ≤ i.val ∧ i.val < off + bytes.length then bytes.getD (i.val - off) 0 else p i

/-- A little-endian field. -/
def field (p : RawPage) (off width : Nat) : Nat := fromLe (p.slice off width)

def setField (p : RawPage) (off width n : Nat) : RawPage := p.copy off (toLe width n)

@[simp] theorem slice_length (p : RawPage) (off n : Nat) : (p.slice off n).length = n := by
  simp [slice]

theorem byte_copy (p : RawPage) (off : Nat) (bytes : Bytes) {i : Nat} (hi : i < PAGE_SIZE) :
    (p.copy off bytes).byte i =
      if off ≤ i ∧ i < off + bytes.length then bytes.getD (i - off) 0 else p.byte i := by
  simp [byte, copy, hi]

theorem slice_copy_self (p : RawPage) {off : Nat} {bytes : Bytes}
    (h : off + bytes.length ≤ PAGE_SIZE) : (p.copy off bytes).slice off bytes.length = bytes := by
  refine List.ext_getElem (by simp) fun i hi hb => ?_
  have hlt : off + i < PAGE_SIZE := by omega
  have hin : off ≤ off + i ∧ off + i < off + bytes.length := by omega
  simp only [slice, List.getElem_map, List.getElem_range]
  rw [byte_copy p off bytes hlt, if_pos hin, Nat.add_sub_cancel_left]
  simp [List.getD, hb]

/-- What a slice holds after `new` was copied over it at offset `k`. -/
def splice (bs : Bytes) (k : Nat) (new : Bytes) : Bytes :=
  bs.take k ++ (new ++ bs.drop (k + new.length))

theorem splice_length {bs : Bytes} {k : Nat} {new : Bytes} (h : k + new.length ≤ bs.length) :
    (splice bs k new).length = bs.length := by
  simp only [splice, List.length_append, List.length_take, List.length_drop]
  omega

theorem splice_getElem? {bs : Bytes} {k : Nat} {new : Bytes} (h : k + new.length ≤ bs.length)
    (i : Nat) :
    (splice bs k new)[i]? =
      if k ≤ i ∧ i < k + new.length then new[i - k]? else bs[i]? := by
  have htake : (bs.take k).length = k := by
    rw [List.length_take]
    omega
  unfold splice
  by_cases hk : i < k
  · rw [List.getElem?_append_left (by omega), List.getElem?_take, if_pos hk, if_neg (by omega)]
  · rw [List.getElem?_append_right (by omega), htake]
    by_cases hn : i < k + new.length
    · rw [List.getElem?_append_left (by omega), if_pos (by omega)]
    · rw [List.getElem?_append_right (by omega), List.getElem?_drop, if_neg (by omega)]
      congr 1
      omega

theorem slice_getElem? (p : RawPage) (off n i : Nat) :
    (p.slice off n)[i]? = if i < n then some (p.byte (off + i)) else none := by
  unfold slice
  by_cases h : i < n <;> simp [h]

/-- A slice the copy does not meet. -/
theorem slice_copy_disjoint (p : RawPage) {off n off' : Nat} {bytes : Bytes}
    (h : off + n ≤ off' ∨ off' + bytes.length ≤ off) :
    (p.copy off' bytes).slice off n = p.slice off n := by
  refine List.map_congr_left fun i hi => ?_
  have hlt : i < n := by simpa using hi
  by_cases hin : off + i < PAGE_SIZE
  · rw [byte_copy p off' bytes hin, if_neg (by omega)]
  · simp [byte, hin]

/-- A slice the copy lies in. -/
theorem slice_copy_inside (p : RawPage) {off n k : Nat} {new : Bytes}
    (hk : k + new.length ≤ n) (h : off + n ≤ PAGE_SIZE) :
    (p.copy (off + k) new).slice off n = splice (p.slice off n) k new := by
  refine List.ext_getElem? fun i => ?_
  rw [splice_getElem? (by rw [slice_length]; exact hk), slice_getElem?, slice_getElem?]
  by_cases hi : i < n
  · rw [if_pos hi, if_pos hi, byte_copy p (off + k) new (by omega)]
    by_cases hin : k ≤ i ∧ i < k + new.length
    · rw [if_pos (by omega), if_pos hin, Nat.add_sub_add_left, List.getD,
        List.getElem?_eq_getElem (by omega)]
      rfl
    · rw [if_neg (by omega), if_neg hin]
  · rw [if_neg hi, if_neg hi, if_neg (by omega)]

/-- A field the copy does not meet. -/
theorem field_copy_disjoint (p : RawPage) {off w off' : Nat} {bytes : Bytes}
    (h : off + w ≤ off' ∨ off' + bytes.length ≤ off) :
    (p.copy off' bytes).field off w = p.field off w := by
  rw [field, field, slice_copy_disjoint p h]

theorem slice_setField_disjoint (p : RawPage) {off n off' w v : Nat}
    (h : off + n ≤ off' ∨ off' + w ≤ off) : (p.setField off' w v).slice off n = p.slice off n :=
  slice_copy_disjoint p (by rwa [toLe_length])

theorem field_setField_disjoint (p : RawPage) {off n off' w v : Nat}
    (h : off + n ≤ off' ∨ off' + w ≤ off) : (p.setField off' w v).field off n = p.field off n :=
  field_copy_disjoint p (by rwa [toLe_length])

/-- A field that was set is read back, up to its width. -/
theorem field_setField (p : RawPage) {off width n : Nat} (h : off + width ≤ PAGE_SIZE) :
    (p.setField off width n).field off width = n % 256 ^ width := by
  have hlen : (toLe width n).length = width := toLe_length width n
  have hslice : (p.copy off (toLe width n)).slice off width = toLe width n := by
    have := @slice_copy_self p off (toLe width n) (by rw [hlen]; exact h)
    rwa [hlen] at this
  unfold field setField
  rw [hslice, fromLe_toLe]

/-! ## The header -/

def pageId (p : RawPage) : Nat := p.field 0 4
def setPageId (p : RawPage) (id : Nat) : RawPage := p.setField 0 4 id
def nextPageId (p : RawPage) : Nat := p.field 4 4
def setNextPageId (p : RawPage) (next : Nat) : RawPage := p.setField 4 4 next
def tupleCount (p : RawPage) : Nat := p.field 8 2
def setTupleCount (p : RawPage) (n : Nat) : RawPage := p.setField 8 2 n
def freeSpaceOffset (p : RawPage) : Nat := p.field 10 2
def setFreeSpaceOffset (p : RawPage) (off : Nat) : RawPage := p.setField 10 2 off
def pageLsn (p : RawPage) : Nat := p.field 12 8
def setPageLsn (p : RawPage) (lsn : UInt64) : RawPage := p.setField 12 8 lsn.toNat
def pageKind (p : RawPage) : PageKind := .fromU8 (p.byte 20)
def setPageKind (p : RawPage) (k : PageKind) : RawPage := p.copy 20 [k.toU8]
def allVisible (p : RawPage) : Bool := p.byte 22 != 0
def setAllVisible (p : RawPage) (v : Bool) : RawPage := p.copy 22 [if v then 1 else 0]

/-- `[0u8; PAGE_SIZE]`. -/
def zeroed : RawPage := fun _ => 0

/-- `Page::new`. -/
def new (pageId : Nat) : RawPage :=
  (((zeroed.setPageId pageId).setNextPageId NO_NEXT_PAGE).setTupleCount 0).setFreeSpaceOffset
    PAGE_SIZE

/-- `free_space`; the subtraction saturates. -/
def freeSpace (p : RawPage) : Nat :=
  p.freeSpaceOffset - (HEADER_SIZE + p.tupleCount * SLOT_SIZE)

@[simp] theorem pageLsn_setPageLsn (p : RawPage) (lsn : UInt64) :
    (p.setPageLsn lsn).pageLsn = lsn.toNat := by
  unfold pageLsn setPageLsn
  rw [field_setField p (by decide)]
  exact Nat.mod_eq_of_lt lsn.toNat_lt

/-! ## Slots -/

def slotPos (slot : Nat) : Nat := HEADER_SIZE + slot * SLOT_SIZE

/-- `read_slot`: offset and length. -/
def readSlot (p : RawPage) (slot : Nat) : Except DbError (Nat × Nat) :=
  if slotPos slot + 4 ≤ PAGE_SIZE then
    .ok (p.field (slotPos slot) 2, p.field (slotPos slot + 2) 2)
  else .error sliceError

/-- `write_slot`. -/
def writeSlot (slot off len : Nat) : RawM Unit := fun p =>
  if slotPos slot + 4 ≤ PAGE_SIZE then
    .ok () ((p.setField (slotPos slot) 2 off).setField (slotPos slot + 2) 2 len)
  else .error sliceError p

/-- `copy_from_slice` into a range that may leave the page. -/
def copyAt (off : Nat) (bytes : Bytes) : RawM Unit := fun p =>
  if off + bytes.length ≤ PAGE_SIZE then .ok () (p.copy off bytes) else .error sliceError p

/-- A check that does not change the page. -/
def check {α : Type} (x : Except DbError α) : RawM α := fun p =>
  match x with
  | .ok a => .ok a p
  | .error e => .error e p

/-- `insert`. -/
def insert (data : Bytes) : RawM Nat := do
  let p ← get
  let need := data.length + SLOT_SIZE
  if p.freeSpace < need then
    throw (.bail s!"page full: need {need} bytes (tuple {data.length} + slot 4), have {p.freeSpace}")
  else do
    let newOff := p.freeSpaceOffset - data.length
    copyAt newOff data
    let slot := p.tupleCount
    writeSlot slot newOff data.length
    modify fun p => ((p.setTupleCount (slot + 1)).setFreeSpaceOffset newOff).setAllVisible false
    return slot

/-- `get_tuple`. -/
def getTuple (p : RawPage) (slot : Nat) : Except DbError (Option Bytes) :=
  if p.tupleCount ≤ slot then .ok none
  else do
    let (off, len) ← p.readSlot slot
    if len = 0 then .ok none
    else if off + len ≤ PAGE_SIZE then .ok (some (p.slice off len))
    else .error sliceError

/-- `delete`. -/
def delete (slot : Nat) : RawM Unit := do
  let p ← get
  if p.tupleCount ≤ slot then throw (.bail s!"slot {slot} out of range")
  else do
    let (off, len) ← check (p.readSlot slot)
    if len = 0 then throw (.bail s!"slot {slot} already deleted")
    else writeSlot slot off 0

/-- `set_tuple_xmax`. -/
def setTupleXmax (slot : Nat) (xmax : UInt64) : RawM Unit := do
  let p ← get
  if p.tupleCount ≤ slot then throw (.bail s!"slot {slot} out of range")
  else do
    let (off, len) ← check (p.readSlot slot)
    if len = 0 then throw (.bail s!"slot {slot} is tombstoned (legacy delete)")
    else if len < 16 then throw (.bail s!"slot {slot} too short for MVCC header")
    else do
      copyAt (off + 8) (toLe 8 xmax.toNat)
      modify fun p => p.setAllVisible false

/-- `set_tuple_ctid`. -/
def setTupleCtid (slot : Nat) (ctid : UInt32 × UInt16) : RawM Unit := do
  let p ← get
  if p.tupleCount ≤ slot then throw (.bail s!"slot {slot} out of range")
  else do
    let (off, len) ← check (p.readSlot slot)
    if len = 0 then throw (.bail s!"slot {slot} tombstoned")
    else if len < MVCC_HEADER_SIZE then throw (.bail s!"slot {slot} too short for MVCC header")
    else do
      copyAt (off + TCTID_PAGE_OFF) (toLe 4 ctid.1.toNat)
      copyAt (off + TCTID_SLOT_OFF) (toLe 2 ctid.2.toNat)

/-- The snapshot `vacuum_compact` takes of the live tuples of `k` slots from `slot` on. -/
def readLive (p : RawPage) : Nat → Nat → Except DbError (List (Nat × Bytes))
  | _, 0 => .ok []
  | slot, k + 1 => do
    let (off, len) ← p.readSlot slot
    if len = 0 then readLive p (slot + 1) k
    else if off + len ≤ PAGE_SIZE then do
      let rest ← readLive p (slot + 1) k
      return (slot, p.slice off len) :: rest
    else .error sliceError

/-- Every slot becomes `(0, 0)`. -/
def clearSlots : Nat → Nat → RawM Unit
  | _, 0 => pure ()
  | slot, k + 1 => do
    writeSlot slot 0 0
    clearSlots (slot + 1) k

/-- The live tuples are written from the back, as fresh inserts would. -/
def repack : List (Nat × Bytes) → Nat → RawM Nat
  | [], freeOff => pure freeOff
  | (slot, bytes) :: rest, freeOff =>
    if freeOff < bytes.length then throw (.panic "attempt to subtract with overflow")
    else do
      copyAt (freeOff - bytes.length) bytes
      writeSlot slot (freeOff - bytes.length) bytes.length
      repack rest (freeOff - bytes.length)

/-- `vacuum_compact`. -/
def vacuumCompact : RawM Unit := do
  let p ← get
  let live ← check (p.readLive 0 p.tupleCount)
  clearSlots 0 p.tupleCount
  let freeOff ← repack live PAGE_SIZE
  modify fun p => p.setFreeSpaceOffset freeOff

/-- `restore`. -/
def restore (slot : Nat) (data : Bytes) : RawM Unit := do
  let p ← get
  if p.tupleCount ≤ slot then throw (.bail s!"slot {slot} out of range")
  else do
    let (off, len) ← check (p.readSlot slot)
    if len ≠ 0 then throw (.bail s!"slot {slot} is not deleted (length={len})")
    else if PAGE_SIZE < off + data.length then throw (.bail "restore would overflow page")
    else do
      copyAt off data
      -- `n as u16`
      writeSlot slot off (data.length % 2 ^ 16)
      modify fun p => p.setAllVisible false

/-! ## Sequence pages -/

structure SequenceState where
  lastValue : Int64
  logCnt : Int32
  isCalled : Bool
deriving DecidableEq, Repr

/-- `read_state`. -/
def readState (p : RawPage) : SequenceState where
  lastValue := (UInt64.ofNat (p.field 24 8)).toInt64
  logCnt := (UInt32.ofNat (p.field 32 4)).toInt32
  isCalled := p.byte 36 != 0

/-- `write_state`. -/
def writeState (p : RawPage) (s : SequenceState) : RawPage :=
  ((p.copy 24 (i64Bytes s.lastValue)).copy 32 (i32Bytes s.logCnt)).copy 36
    [if s.isCalled then 1 else 0]

/-- `init_sequence_page`. -/
def initSequencePage (p : RawPage) : RawPage :=
  ((new p.pageId).setPageKind .sequenceRel).writeState ⟨0, 0, false⟩

end RawPage

end Ccdb
