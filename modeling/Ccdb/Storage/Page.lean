import Ccdb.Storage.Entry

/-!
# Ccdb — slotted pages

The page of `page.rs`: a header, a slot directory that grows forward and
tuple data that grows backward from the end of the page. A slot keeps the
offset of its data and the data itself; a tombstone (`length = 0`) keeps
its slot id and offset but has no data. Slot ids are never reused.

Main results:

* `Page.insert_eq_ok` — a tuple is appended exactly when its bytes and a
  slot entry fit in the free space.
* `Packed` / `packed_insert` — pages filled by `insert` alone account for
  every byte, which is what `fits` and the split arithmetic rely on.
-/

namespace Ccdb

def PAGE_SIZE : Nat := 4096
def HEADER_SIZE : Nat := 24
def SLOT_SIZE : Nat := 4

/-- `u32::MAX`. -/
def NO_NEXT_PAGE : Nat := 4294967295

inductive PageKind where
  | heap
  | btreeLeaf
  | btreeInternal
  | sequenceRel
deriving DecidableEq, Repr

structure Slot where
  offset : Nat
  tuple : Option PageTuple
deriving DecidableEq, Repr

/-- The `length` half of a slot entry. -/
def Slot.length (s : Slot) : Nat := (s.tuple.map PageTuple.len).getD 0

structure Page where
  pageId : Nat
  nextPageId : Nat
  slots : List Slot
  freeSpaceOffset : Nat
  pageLsn : Nat
  pageKind : PageKind
  allVisible : Bool
deriving DecidableEq, Repr

namespace Page

/-- `Page::new`. -/
def new (pageId : Nat) : Page where
  pageId := pageId
  nextPageId := NO_NEXT_PAGE
  slots := []
  freeSpaceOffset := PAGE_SIZE
  pageLsn := 0
  pageKind := .heap
  allVisible := false

def tupleCount (p : Page) : Nat := p.slots.length

/-- `free_space`; the subtraction saturates. -/
def freeSpace (p : Page) : Nat :=
  p.freeSpaceOffset - (HEADER_SIZE + p.tupleCount * SLOT_SIZE)

def setNextPageId (p : Page) (next : Nat) : Page := { p with nextPageId := next }
def setPageLsn (p : Page) (lsn : Nat) : Page := { p with pageLsn := lsn }
def setPageKind (p : Page) (k : PageKind) : Page := { p with pageKind := k }
def setAllVisible (p : Page) (v : Bool) : Page := { p with allVisible := v }

/-- `insert` of `len` bytes, `data` being `none` for the empty string. -/
def insertRaw (p : Page) (len : Nat) (data : Option PageTuple) : Except DbError (Nat × Page) :=
  let need := len + SLOT_SIZE
  if p.freeSpace < need then
    .error (.bail s!"page full: need {need} bytes (tuple {len} + slot 4), have {p.freeSpace}")
  else
    let newOff := p.freeSpaceOffset - len
    .ok (p.tupleCount,
      { p with
        slots := p.slots ++ [⟨newOff, data⟩]
        freeSpaceOffset := newOff
        allVisible := false })

/-- `insert`: append a tuple, or fail when it does not fit. -/
def insert (p : Page) (t : PageTuple) : Except DbError (Nat × Page) :=
  p.insertRaw t.len (some t)

/-- `get_tuple`: `None` past the last slot and for tombstones. -/
def getTuple (p : Page) (slot : Nat) : Option PageTuple :=
  p.slots[slot]?.bind Slot.tuple

/-- Replace the contents of one slot, keeping its offset. -/
def setSlot (p : Page) (slot : Nat) (data : Option PageTuple) : Page :=
  { p with slots := p.slots.modify slot fun s => { s with tuple := data } }

/-- `delete`: tombstone a slot; its bytes are not reclaimed. -/
def delete (p : Page) (slot : Nat) : Except DbError Page :=
  match p.slots[slot]? with
  | none => .error (.bail s!"slot {slot} out of range")
  | some s =>
    match s.tuple with
    | none => .error (.bail s!"slot {slot} already deleted")
    | some _ => .ok (p.setSlot slot none)

/-- `set_tuple_xmax`: patch the deleter field of an MVCC tuple in place. -/
def setTupleXmax (p : Page) (slot : Nat) (xmax : Nat) : Except DbError Page :=
  match p.slots[slot]? with
  | none => .error (.bail s!"slot {slot} out of range")
  | some s =>
    match s.tuple with
    | none => .error (.bail s!"slot {slot} is tombstoned (legacy delete)")
    | some (.heap t) =>
      .ok ((p.setSlot slot (some (.heap { t with xmax := xmax }))).setAllVisible false)
    | some _ => .error (.bail s!"slot {slot} too short for MVCC header")

/-- `set_tuple_ctid`: patch the HOT forward pointer; `all_visible` is left alone. -/
def setTupleCtid (p : Page) (slot : Nat) (ctid : Rid) : Except DbError Page :=
  match p.slots[slot]? with
  | none => .error (.bail s!"slot {slot} out of range")
  | some s =>
    match s.tuple with
    | none => .error (.bail s!"slot {slot} tombstoned")
    | some (.heap t) => .ok (p.setSlot slot (some (.heap { t with ctid := ctid })))
    | some _ => .error (.bail s!"slot {slot} too short for MVCC header")

/-- Repack live slots against the end of the page, in slot order. -/
def compactSlots : Nat → List Slot → List Slot × Nat
  | off, [] => ([], off)
  | off, s :: rest =>
    match s.tuple with
    | none =>
      let (rest', off') := compactSlots off rest
      (⟨0, none⟩ :: rest', off')
    | some t =>
      let (rest', off') := compactSlots (off - t.len) rest
      (⟨off - t.len, some t⟩ :: rest', off')

/-- `vacuum_compact`: slot ids survive, tombstones end at `(0, 0)`. -/
def vacuumCompact (p : Page) : Page :=
  let (slots, off) := compactSlots PAGE_SIZE p.slots
  { p with slots := slots, freeSpaceOffset := off }

/-- `is_empty`: no live tuple. -/
def isEmpty (p : Page) : Bool := p.slots.all fun s => s.tuple.isNone

/-- `restore`: revive a tombstone at its old offset. -/
def restore (p : Page) (slot : Nat) (data : PageTuple) : Except DbError Page :=
  match p.slots[slot]? with
  | none => .error (.bail s!"slot {slot} out of range")
  | some s =>
    match s.tuple with
    | some t => .error (.bail s!"slot {slot} is not deleted (length={t.len})")
    | none =>
      if PAGE_SIZE < s.offset + data.len then .error (.bail "restore would overflow page")
      else .ok ((p.setSlot slot (some data)).setAllVisible false)

/-! ## Spec lemmas -/

/-- The page after a successful `insert`. -/
def push (p : Page) (t : PageTuple) : Page :=
  { p with
    slots := p.slots ++ [⟨p.freeSpaceOffset - t.len, some t⟩]
    freeSpaceOffset := p.freeSpaceOffset - t.len
    allVisible := false }

theorem insert_eq_ok {p : Page} {t : PageTuple} (h : t.len + SLOT_SIZE ≤ p.freeSpace) :
    p.insert t = .ok (p.tupleCount, p.push t) := by
  simp [insert, insertRaw, push, Nat.not_lt.mpr h]

theorem insert_eq_error {p : Page} {t : PageTuple} (h : p.freeSpace < t.len + SLOT_SIZE) :
    ∃ msg, p.insert t = .error (.bail msg) := by
  simp [insert, insertRaw, h]

theorem insert_inv {p q : Page} {t : PageTuple} {slot : Nat}
    (h : p.insert t = .ok (slot, q)) :
    t.len + SLOT_SIZE ≤ p.freeSpace ∧ slot = p.tupleCount ∧ q = p.push t := by
  by_cases hfit : t.len + SLOT_SIZE ≤ p.freeSpace
  · rw [insert_eq_ok hfit] at h
    simp only [Except.ok.injEq, Prod.mk.injEq] at h
    exact ⟨hfit, h.1.symm, h.2.symm⟩
  · obtain ⟨msg, herr⟩ := insert_eq_error (p := p) (t := t) (by omega)
    rw [herr] at h
    cases h

/-! ## Pages filled by `insert` alone -/

/-- Bytes a list of tuples takes on a page, slot entries included. -/
def spaceOf (ts : List PageTuple) : Nat := (ts.map fun t => t.len + SLOT_SIZE).sum

@[simp] theorem spaceOf_nil : spaceOf [] = 0 := rfl

@[simp] theorem spaceOf_cons (t : PageTuple) (ts : List PageTuple) :
    spaceOf (t :: ts) = t.len + SLOT_SIZE + spaceOf ts := by
  simp [spaceOf]

@[simp] theorem spaceOf_append (a b : List PageTuple) :
    spaceOf (a ++ b) = spaceOf a + spaceOf b := by
  simp [spaceOf]

/-- `ts` are the live tuples of the page in slot order, there are no
tombstones, and every byte is accounted for. -/
structure Packed (p : Page) (ts : List PageTuple) : Prop where
  tuples : p.slots.map Slot.tuple = ts.map some
  offset : p.freeSpaceOffset + (ts.map PageTuple.len).sum = PAGE_SIZE
  room : HEADER_SIZE + spaceOf ts ≤ PAGE_SIZE

theorem Packed.length_eq {p : Page} {ts : List PageTuple} (h : Packed p ts) :
    p.slots.length = ts.length := by
  simpa using congrArg List.length h.tuples

theorem sum_len_add (ts : List PageTuple) :
    (ts.map PageTuple.len).sum + ts.length * SLOT_SIZE = spaceOf ts := by
  induction ts with
  | nil => rfl
  | cons t ts ih =>
    simp only [List.map_cons, List.sum_cons, List.length_cons, spaceOf_cons]
    rw [Nat.add_mul]
    omega

theorem Packed.freeSpace_eq {p : Page} {ts : List PageTuple} (h : Packed p ts) :
    p.freeSpace + HEADER_SIZE + spaceOf ts = PAGE_SIZE := by
  have hoff := h.offset
  have hroom := h.room
  have hsum := sum_len_add ts
  rw [freeSpace, tupleCount, h.length_eq]
  omega

theorem Packed.getTuple_eq {p : Page} {ts : List PageTuple} (h : Packed p ts) (i : Nat) :
    p.getTuple i = ts[i]? := by
  have hi : (p.slots.map Slot.tuple)[i]? = (ts.map some)[i]? := by rw [h.tuples]
  rw [List.getElem?_map, List.getElem?_map] at hi
  rw [getTuple]
  cases hs : p.slots[i]? with
  | none => rw [hs] at hi; cases ht : ts[i]? <;> simp_all
  | some s => rw [hs] at hi; cases ht : ts[i]? <;> simp_all

theorem packed_new (pid : Nat) : Packed (new pid) [] :=
  ⟨rfl, rfl, by decide⟩

theorem packed_push {p : Page} {ts : List PageTuple} {t : PageTuple} (h : Packed p ts)
    (hfit : HEADER_SIZE + spaceOf (ts ++ [t]) ≤ PAGE_SIZE) : Packed (p.push t) (ts ++ [t]) := by
  have hoff := h.offset
  have hsum := sum_len_add ts
  refine ⟨by simp [push, h.tuples], ?_, hfit⟩
  simp only [push, List.map_append, List.map_cons, List.map_nil, List.sum_append,
    List.sum_cons, List.sum_nil]
  simp only [spaceOf_append, spaceOf_cons, spaceOf_nil] at hfit
  omega

/-- One `insert` into a packed page: it succeeds exactly when the grown
contents fit. -/
theorem packed_insert {p : Page} {ts : List PageTuple} {t : PageTuple} (h : Packed p ts) :
    t.len + SLOT_SIZE ≤ p.freeSpace ↔ HEADER_SIZE + spaceOf (ts ++ [t]) ≤ PAGE_SIZE := by
  have hfree := h.freeSpace_eq
  simp only [spaceOf_append, spaceOf_cons, spaceOf_nil]
  omega

end Page

end Ccdb
