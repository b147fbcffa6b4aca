import Ccdb.Storage.Tuple

/-!
# Ccdb — what a page slot holds

A slotted page stores byte strings. Three kinds of them occur: MVCC heap
tuples, B+Tree leaf entries `[key_len | key | rid_page | rid_slot]` and
B+Tree internal entries `[key_len | key | child]`. The page model keeps
them decoded; this module gives their byte layout, from which the space
they take on a page is computed.
-/

namespace Ccdb

/-- `encode_leaf_entry`. -/
def encodeLeafEntry (key : Bytes) (rid : Rid) : Bytes :=
  toLe 2 key.length ++ key ++ toLe 4 rid.1 ++ toLe 2 rid.2

/-- `encode_internal_entry`. -/
def encodeInternalEntry (key : Bytes) (child : Nat) : Bytes :=
  toLe 2 key.length ++ key ++ toLe 4 child

/-- The contents of a live slot. -/
inductive PageTuple where
  | heap (t : HeapTuple)
  | leaf (key : Bytes) (rid : Rid)
  | internal (key : Bytes) (child : Nat)
deriving DecidableEq, Repr

/-- The bytes the slot's data area holds. -/
def PageTuple.bytes : PageTuple → Bytes
  | .heap t => t.bytes
  | .leaf key rid => encodeLeafEntry key rid
  | .internal key child => encodeInternalEntry key child

def PageTuple.len (t : PageTuple) : Nat := t.bytes.length

@[simp] theorem PageTuple.len_leaf (key : Bytes) (rid : Rid) :
    (PageTuple.leaf key rid).len = key.length + 8 := by
  simp [PageTuple.len, PageTuple.bytes, encodeLeafEntry]
  omega

@[simp] theorem PageTuple.len_internal (key : Bytes) (child : Nat) :
    (PageTuple.internal key child).len = key.length + 6 := by
  simp [PageTuple.len, PageTuple.bytes, encodeInternalEntry]
  omega

theorem PageTuple.len_heap (t : HeapTuple) :
    (PageTuple.heap t).len = MVCC_HEADER_SIZE + (serializeTuple t.values).length :=
  t.bytes_length

end Ccdb
