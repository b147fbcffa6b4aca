import Mathlib.Data.Finmap
import Ccdb.Lib.Framing
import Ccdb.Storage.Page

/-!
# Ccdb — the bytes of the write-ahead log

`WalRecord::encode` / `decode`, `WalManager::append` and `read_records` of
`wal.rs`. Integers have the widths of the source here. The two tables of a
checkpoint record are association lists without duplicate keys: the order of the
list is the iteration order of the `HashMap`, so records are compared with
`SameRecord`, which takes the tables for maps.

The file is the sequence of frames the appends have written. A crash leaves a
prefix of it.

Main results:

* `read_records_files` — decoding gives a record back, and reading a file of
  frames gives the list of records back.
* `read_records_torn` — a prefix reads as the frames inside it exactly when
  the cut leaves fewer than four bytes of the torn frame.
-/

namespace Ccdb.WalCodec

abbrev Lsn := UInt64
abbrev Rid := UInt32 × UInt16

/-- `HashMap<K, V>`, with its iteration order. -/
abbrev Table (κ ν : Type) := AList fun _ : κ => ν

inductive ClrRedo where
  | undoInsert (rid : Rid)
  | undoDelete (rid : Rid) (oldXmax : UInt64)
deriving DecidableEq

inductive WalRecordType where
  | begin
  | commit
  | abort
  | insert (rid : Rid) (data : Bytes)
  | delete (rid : Rid) (xmax : UInt64)
  | clr (undoNextLsn : Lsn) (redo : ClrRedo)
  | checkpoint (att : Table UInt64 Lsn) (dpt : Table UInt32 Lsn)
  | indexInsert (indexId : UInt64) (key : Bytes) (rid : Rid)
  | sequenceAdvance (seqPageId : UInt32) (newLastValue : Int64)
  | pageInit (pageId : UInt32) (kind : UInt8)
deriving DecidableEq

structure WalRecord where
  lsn : Lsn
  txnId : UInt64
  prevLsn : Lsn
  recordType : WalRecordType
deriving DecidableEq

def TAG_BEGIN : UInt8 := 0
def TAG_COMMIT : UInt8 := 1
def TAG_ABORT : UInt8 := 2
def TAG_INSERT : UInt8 := 3
def TAG_DELETE : UInt8 := 4
def TAG_CLR : UInt8 := 5
def TAG_CHECKPOINT : UInt8 := 6
def TAG_INDEX_INSERT : UInt8 := 7
def TAG_SEQ_ADVANCE : UInt8 := 8
def TAG_PAGE_INIT : UInt8 := 9

def CLR_UNDO_INSERT : UInt8 := 0
def CLR_UNDO_DELETE : UInt8 := 1

/-! ## Encoding -/

def encodeRid (rid : Rid) : Bytes := u32.enc rid.1 ++ u16.enc rid.2

def encodeEntry {κ ν : Type} (k : Field κ) (v : Field ν) (e : (_ : κ) × ν) : Bytes :=
  k.enc e.1 ++ v.enc e.2

/-- A table: `len() as u32`, then the entries in iteration order. -/
def encodeTable {κ ν : Type} (k : Field κ) (v : Field ν) (m : Table κ ν) : Bytes :=
  u32.enc (UInt32.ofNat m.entries.length) ++ m.entries.flatMap (encodeEntry k v)

def encodeRedo : ClrRedo → Bytes
  | .undoInsert rid => u8.enc CLR_UNDO_INSERT ++ encodeRid rid
  | .undoDelete rid oldXmax => u8.enc CLR_UNDO_DELETE ++ (encodeRid rid ++ u64.enc oldXmax)

/-- The tag of a record and its payload. -/
def encodeType : WalRecordType → UInt8 × Bytes
  | .begin => (TAG_BEGIN, [])
  | .commit => (TAG_COMMIT, [])
  | .abort => (TAG_ABORT, [])
  | .insert rid data => (TAG_INSERT, encodeRid rid ++ data)
  | .delete rid xmax => (TAG_DELETE, encodeRid rid ++ u64.enc xmax)
  | .clr undoNextLsn redo => (TAG_CLR, u64.enc undoNextLsn ++ encodeRedo redo)
  | .indexInsert indexId key rid =>
    (TAG_INDEX_INSERT,
      u64.enc indexId ++ (u32.enc (UInt32.ofNat key.length) ++ (key ++ encodeRid rid)))
  | .sequenceAdvance seqPageId newLastValue =>
    (TAG_SEQ_ADVANCE, u32.enc seqPageId ++ i64.enc newLastValue)
  | .pageInit pageId kind => (TAG_PAGE_INIT, u32.enc pageId ++ u8.enc kind)
  | .checkpoint att dpt => (TAG_CHECKPOINT, encodeTable u64 u64 att ++ encodeTable u32 u64 dpt)

/-- `WalRecord::encode`: `[lsn:8][txn_id:8][prev_lsn:8][tag:1][payload]`. -/
def encode (r : WalRecord) : Bytes :=
  u64.enc r.lsn ++ (u64.enc r.txnId ++ (u64.enc r.prevLsn ++
    (u8.enc (encodeType r.recordType).1 ++ (encodeType r.recordType).2)))

/-! ## Decoding -/

def readRid (bs : Bytes) (off : Nat) : Rid := (u32.read bs off, u16.read bs (off + 4))

/-- The loop over the `n` entries of a table at offset `p`. -/
def decodeTable {κ ν : Type} [DecidableEq κ] (k : Field κ) (v : Field ν) (truncated : String)
    (rest : Bytes) : Nat → Nat → Table κ ν → Except DbError (Table κ ν × Nat)
  | 0, p, m => .ok (m, p)
  | n + 1, p, m =>
    if rest.length < p + (k.width + v.width) then .error (.bail truncated)
    else
      decodeTable k v truncated rest n (p + (k.width + v.width))
        (m.insert (k.read rest p) (v.read rest (p + k.width)))

def decodeRedo (tag : UInt8) (rest : Bytes) : Except DbError ClrRedo :=
  if tag = CLR_UNDO_INSERT then
    if rest.length < 6 then .error (.bail "CLR UndoInsert missing rid")
    else .ok (.undoInsert (readRid rest 0))
  else if tag = CLR_UNDO_DELETE then
    if rest.length < 14 then .error (.bail "CLR UndoDelete missing rid+old_xmax")
    else .ok (.undoDelete (readRid rest 0) (u64.read rest 6))
  else .error (.bail s!"unknown CLR redo tag: {tag.toNat}")

def decodeInsert (rest : Bytes) : Except DbError WalRecordType :=
  if rest.length < 6 then .error (.bail "Insert record missing rid bytes")
  else .ok (.insert (readRid rest 0) (rest.drop 6))

def decodeDelete (rest : Bytes) : Except DbError WalRecordType :=
  if rest.length < 14 then .error (.bail "Delete record missing rid+xmax bytes")
  else .ok (.delete (readRid rest 0) (u64.read rest 6))

def decodeClr (rest : Bytes) : Except DbError WalRecordType :=
  if rest.length < 9 then .error (.bail "CLR record missing fields")
  else do
    let redo ← decodeRedo (u8.read rest 8) (rest.drop 9)
    return .clr (u64.read rest 0) redo

def decodeIndexInsert (rest : Bytes) : Except DbError WalRecordType :=
  if rest.length < 12 then .error (.bail "IndexInsert record too short")
  else
    let klen := (u32.read rest 8).toNat
    if rest.length < 12 + klen + 6 then .error (.bail "IndexInsert payload truncated")
    else .ok (.indexInsert (u64.read rest 0) ((rest.drop 12).take klen) (readRid rest (12 + klen)))

def decodeSequenceAdvance (rest : Bytes) : Except DbError WalRecordType :=
  if rest.length < 12 then .error (.bail "SequenceAdvance record too short")
  else .ok (.sequenceAdvance (u32.read rest 0) (i64.read rest 4))

def decodePageInit (rest : Bytes) : Except DbError WalRecordType :=
  if rest.length < 5 then .error (.bail "PageInit record too short")
  else .ok (.pageInit (u32.read rest 0) (u8.read rest 4))

def decodeCheckpoint (rest : Bytes) : Except DbError WalRecordType :=
  if rest.length < 4 then .error (.bail "Checkpoint record missing att length")
  else do
    let attLen := (u32.read rest 0).toNat
    let (att, p) ← decodeTable u64 u64 "Checkpoint att truncated" rest attLen 4 ∅
    if rest.length < p + 4 then .error (.bail "Checkpoint missing dpt length")
    else do
      let dptLen := (u32.read rest p).toNat
      let (dpt, _) ← decodeTable u32 u64 "Checkpoint dpt truncated" rest dptLen (p + 4) ∅
      return .checkpoint att dpt

/-- The `match tag` of `decode`. -/
def decodeType (tag : UInt8) (rest : Bytes) : Except DbError WalRecordType :=
  if tag = TAG_BEGIN then .ok .begin
  else if tag = TAG_COMMIT then .ok .commit
  else if tag = TAG_ABORT then .ok .abort
  else if tag = TAG_INSERT then decodeInsert rest
  else if tag = TAG_DELETE then decodeDelete rest
  else if tag = TAG_CLR then decodeClr rest
  else if tag = TAG_INDEX_INSERT then decodeIndexInsert rest
  else if tag = TAG_SEQ_ADVANCE then decodeSequenceAdvance rest
  else if tag = TAG_PAGE_INIT then decodePageInit rest
  else if tag = TAG_CHECKPOINT then decodeCheckpoint rest
  else .error (.bail s!"unknown WAL tag: {tag.toNat}")

/-- `WalRecord::decode`. -/
def decode (body : Bytes) : Except DbError WalRecord :=
  if body.length < 25 then .error (.bail s!"WAL record too short: {body.length} bytes")
  else do
    let recordType ← decodeType (u8.read body 24) (body.drop 25)
    return ⟨u64.read body 0, u64.read body 8, u64.read body 16, recordType⟩

/-! ## The file -/

/-- `UnexpectedEof` of `read_exact`. -/
def unexpectedEof : DbError := .io "failed to fill whole buffer"

/-- The frames of `records`, one after the other. -/
def walFile (records : List WalRecord) : Bytes := framesOf encode records

/-- `read_records`; a missing file has no records. -/
def readRecords (file : Option Bytes) : Except DbError (List WalRecord) :=
  match file with
  | none => .ok []
  | some bytes => readFrames decode unexpectedEof bytes []

/-! ## Records as what they say -/

/-- The same record type, the tables of a checkpoint as finite maps. -/
def SameType : WalRecordType → WalRecordType → Prop
  | .checkpoint att dpt, .checkpoint att' dpt' =>
    att.toFinmap = att'.toFinmap ∧ dpt.toFinmap = dpt'.toFinmap
  | t, t' => t = t'

/-- Equality of records, the tables of a checkpoint as finite maps. -/
def SameRecord (r r' : WalRecord) : Prop :=
  r.lsn = r'.lsn ∧ r.txnId = r'.txnId ∧ r.prevLsn = r'.prevLsn ∧
    SameType r.recordType r'.recordType

/-- The table a decoder builds: the entries inserted one after the other. -/
def rebuild {κ ν : Type} [DecidableEq κ] (m : Table κ ν) : Table κ ν :=
  m.entries.foldl (fun acc e => acc.insert e.1 e.2) ∅

/-- The record a decoder makes of an encoded one. -/
def rebuildType : WalRecordType → WalRecordType
  | .checkpoint att dpt => .checkpoint (rebuild att) (rebuild dpt)
  | t => t

def rebuildRecord (r : WalRecord) : WalRecord := { r with recordType := rebuildType r.recordType }

/-- Inserting entries with fresh keys puts them in front, the last one first. -/
theorem foldl_insert_entries {κ ν : Type} [DecidableEq κ] :
    ∀ (l : List ((_ : κ) × ν)) (acc : Table κ ν), (l.map Sigma.fst).Nodup →
      (∀ e ∈ l, e.1 ∉ acc) →
      (l.foldl (fun acc e => acc.insert e.1 e.2) acc).entries = l.reverse ++ acc.entries
  | [], acc, _, _ => by simp
  | e :: l, acc, hnd, hfresh => by
    have hkeys : e.1 ∉ l.map Sigma.fst ∧ (l.map Sigma.fst).Nodup := by simpa using hnd
    have hnew : ∀ x ∈ l, x.1 ∉ acc.insert e.1 e.2 := by
      intro x hx hmem
      rcases AList.mem_insert _ |>.1 hmem with heq | hin
      · exact hkeys.1 (heq ▸ List.mem_map_of_mem hx)
      · exact hfresh x (List.mem_cons_of_mem e hx) hin
    rw [List.foldl_cons, foldl_insert_entries l _ hkeys.2 hnew,
      AList.entries_insert_of_notMem (hfresh e List.mem_cons_self)]
    simp

theorem rebuild_toFinmap {κ ν : Type} [DecidableEq κ] (m : Table κ ν) :
    (rebuild m).toFinmap = m.toFinmap := by
  have hentries : (rebuild m).entries = m.entries.reverse := by
    have h := foldl_insert_entries m.entries ∅ m.nodupKeys fun _ _ => AList.notMem_empty _
    rwa [AList.empty_entries, List.append_nil] at h
  rw [AList.toFinmap_eq, hentries]
  exact List.reverse_perm m.entries

theorem sameType_rebuildType (t : WalRecordType) : SameType (rebuildType t) t := by
  cases t with
  | checkpoint att dpt => exact ⟨rebuild_toFinmap att, rebuild_toFinmap dpt⟩
  | _ => rfl

theorem sameRecord_rebuildRecord (r : WalRecord) : SameRecord (rebuildRecord r) r :=
  ⟨rfl, rfl, rfl, sameType_rebuildType r.recordType⟩

/-! ## Each layout against its decoder -/

@[simp] theorem encodeRid_length (rid : Rid) : (encodeRid rid).length = 6 := by
  simp [encodeRid]

@[simp] theorem readRid_encodeRid (rid : Rid) (bs : Bytes) :
    readRid (encodeRid rid ++ bs) 0 = rid := by
  unfold readRid encodeRid
  rw [List.append_assoc, Field.read_enc, Field.read_skip _ _ _ _ (by decide)]
  exact congrArg (Prod.mk rid.1) (Field.read_enc u16 rid.2 bs)

theorem read_ridSkip {α : Type} (f : Field α) (rid : Rid) (bs : Bytes) {off : Nat} (h : 6 ≤ off) :
    f.read (encodeRid rid ++ bs) off = f.read bs (off - 6) := by
  have hread := f.read_append (encodeRid rid) bs (off - 6)
  rwa [encodeRid_length, Nat.add_sub_cancel' h] at hread

theorem readRid_skip (pre bs : Bytes) (n : Nat) :
    readRid (pre ++ bs) (pre.length + n) = readRid bs n := by
  simp [readRid, Field.read_append, Nat.add_assoc]

theorem encodeEntry_length {κ ν : Type} (k : Field κ) (v : Field ν) (e : (_ : κ) × ν) :
    (encodeEntry k v e).length = k.width + v.width := by
  simp [encodeEntry]

theorem entries_length {κ ν : Type} (k : Field κ) (v : Field ν) (l : List ((_ : κ) × ν)) :
    (l.flatMap (encodeEntry k v)).length = l.length * (k.width + v.width) := by
  induction l with
  | nil => simp
  | cons e l ih =>
    rw [List.flatMap_cons, List.length_append, encodeEntry_length, ih, List.length_cons]
    ring

/-- The loop over entries that stand at offset `pre.length`. -/
theorem decodeTable_entries {κ ν : Type} [DecidableEq κ] (k : Field κ) (v : Field ν)
    (truncated : String) (post : Bytes) :
    ∀ (l : List ((_ : κ) × ν)) (pre : Bytes) (m : Table κ ν),
      decodeTable k v truncated (pre ++ (l.flatMap (encodeEntry k v) ++ post)) l.length
        pre.length m =
        .ok (l.foldl (fun acc e => acc.insert e.1 e.2) m,
          pre.length + l.length * (k.width + v.width))
  | [], pre, m => by simp [decodeTable]
  | e :: l, pre, m => by
    have hbytes : pre ++ ((e :: l).flatMap (encodeEntry k v) ++ post) =
        (pre ++ encodeEntry k v e) ++ (l.flatMap (encodeEntry k v) ++ post) := by
      simp [List.append_assoc]
    have hkey : k.read (pre ++ ((e :: l).flatMap (encodeEntry k v) ++ post)) pre.length = e.1 := by
      have h := k.read_append pre ((e :: l).flatMap (encodeEntry k v) ++ post) 0
      rw [Nat.add_zero] at h
      rw [h, List.flatMap_cons, encodeEntry, List.append_assoc, List.append_assoc, Field.read_enc]
    have hval : v.read (pre ++ ((e :: l).flatMap (encodeEntry k v) ++ post))
        (pre.length + k.width) = e.2 := by
      rw [v.read_append, List.flatMap_cons, encodeEntry, List.append_assoc, List.append_assoc,
        Field.read_skip _ _ _ _ (Nat.le_refl _), Nat.sub_self, Field.read_enc]
    have hroom : ¬ (pre ++ ((e :: l).flatMap (encodeEntry k v) ++ post)).length <
        pre.length + (k.width + v.width) := by
      simp [encodeEntry_length]
    have ih := decodeTable_entries k v truncated post l (pre ++ encodeEntry k v e)
      (m.insert e.1 e.2)
    rw [List.length_append, encodeEntry_length] at ih
    rw [List.length_cons, decodeTable, if_neg hroom, hkey, hval, hbytes, ih, List.foldl_cons]
    congr 2
    ring

theorem encodeTable_length {κ ν : Type} (k : Field κ) (v : Field ν) (m : Table κ ν) :
    (encodeTable k v m).length = 4 + m.entries.length * (k.width + v.width) := by
  rw [encodeTable, List.length_append, entries_length, Field.length_enc, u32_width]

theorem decodeRedo_encodeRedo (redo : ClrRedo) :
    decodeRedo (u8.read (encodeRedo redo) 0) ((encodeRedo redo).drop 1) = .ok redo := by
  cases redo with
  | undoInsert rid =>
    have hrid := readRid_encodeRid rid []
    rw [List.append_nil] at hrid
    rw [encodeRedo, Field.read_enc, List.drop_left' (by simp)]
    simp [decodeRedo, hrid]
  | undoDelete rid oldXmax =>
    rw [encodeRedo, Field.read_enc, List.drop_left' (by simp)]
    simp [decodeRedo, CLR_UNDO_INSERT, CLR_UNDO_DELETE, read_ridSkip]

theorem decodeClr_encode (undoNextLsn : Lsn) (redo : ClrRedo) :
    decodeClr (u64.enc undoNextLsn ++ encodeRedo redo) = .ok (.clr undoNextLsn redo) := by
  have hlen : ¬ (u64.enc undoNextLsn ++ encodeRedo redo).length < 9 := by
    cases redo <;> simp [encodeRedo]
  have htag : u8.read (u64.enc undoNextLsn ++ encodeRedo redo) 8 = u8.read (encodeRedo redo) 0 :=
    Field.read_skip _ _ _ _ (by decide)
  have hrest : (u64.enc undoNextLsn ++ encodeRedo redo).drop 9 = (encodeRedo redo).drop 1 :=
    Field.drop_skip _ _ _ (by decide)
  rw [decodeClr, if_neg hlen, htag, hrest, decodeRedo_encodeRedo, Field.read_enc]
  rfl

theorem decodeIndexInsert_encode (indexId : UInt64) (key : Bytes) (rid : Rid)
    (hkey : key.length < 2 ^ 32) :
    decodeIndexInsert
        (u64.enc indexId ++ (u32.enc (UInt32.ofNat key.length) ++ (key ++ encodeRid rid))) =
      .ok (.indexInsert indexId key rid) := by
  set rest := u64.enc indexId ++ (u32.enc (UInt32.ofNat key.length) ++ (key ++ encodeRid rid))
    with hrest
  have hlen : rest.length = 12 + key.length + 6 := by
    simp [hrest]
    omega
  have hklen : (u32.read rest 8).toNat = key.length := by
    rw [hrest, Field.read_skip _ _ _ _ (by decide), u64_width, Nat.sub_self,
      Field.read_enc]
    exact UInt32.toNat_ofNat_of_lt' hkey
  have hdrop : rest.drop 12 = key ++ encodeRid rid := by
    rw [hrest, Field.drop_skip _ _ _ (by decide)]
    exact List.drop_left' (by simp)
  have hrid : readRid rest (12 + key.length) = rid := by
    have h := readRid_skip
      (u64.enc indexId ++ (u32.enc (UInt32.ofNat key.length) ++ key)) (encodeRid rid) 0
    have hback := readRid_encodeRid rid []
    rw [List.append_nil] at hback
    rw [hback] at h
    rw [hrest]
    simpa [List.append_assoc, Nat.add_assoc, ← Nat.add_assoc 8 4] using h
  rw [decodeIndexInsert, if_neg (by omega)]
  simp only [hklen, hdrop, hrid, List.take_left]
  rw [if_neg (by omega), hrest, Field.read_enc]

theorem decodeCheckpoint_encode (att : Table UInt64 Lsn) (dpt : Table UInt32 Lsn)
    (hatt : att.entries.length < 2 ^ 32) (hdpt : dpt.entries.length < 2 ^ 32) :
    decodeCheckpoint (encodeTable u64 u64 att ++ encodeTable u32 u64 dpt) =
      .ok (.checkpoint (rebuild att) (rebuild dpt)) := by
  set attLen := u32.enc (UInt32.ofNat att.entries.length)
  set dptLen := u32.enc (UInt32.ofNat dpt.entries.length)
  set attBytes := att.entries.flatMap (encodeEntry u64 u64) with hattBytes
  set dptBytes := dpt.entries.flatMap (encodeEntry u32 u64)
  set rest := encodeTable u64 u64 att ++ encodeTable u32 u64 dpt
  have hrest : rest = attLen ++ (attBytes ++ (dptLen ++ dptBytes)) := List.append_assoc _ _ _
  have hrest' : rest = (attLen ++ attBytes ++ dptLen) ++ (dptBytes ++ []) := by
    rw [hrest]
    simp [List.append_assoc]
  have hfour : attLen.length = 4 := Field.length_enc _ _
  have hfour' : dptLen.length = 4 := Field.length_enc _ _
  have hattSize : attBytes.length = att.entries.length * 16 := entries_length u64 u64 att.entries
  -- the two length words
  have hattLen : (u32.read rest 0).toNat = att.entries.length := by
    rw [hrest, Field.read_enc]
    exact UInt32.toNat_ofNat_of_lt' hatt
  have hdptLen : (u32.read rest (4 + att.entries.length * 16)).toNat = dpt.entries.length := by
    have h := u32.read_append (attLen ++ attBytes) (dptLen ++ dptBytes) 0
    rw [List.append_assoc, ← hrest, List.length_append, hfour, hattSize, Nat.add_zero,
      Field.read_enc] at h
    rw [h]
    exact UInt32.toNat_ofNat_of_lt' hdpt
  -- the two loops
  have hloop := decodeTable_entries u64 u64 "Checkpoint att truncated" (dptLen ++ dptBytes)
    att.entries attLen ∅
  rw [← hattBytes, ← hrest, hfour] at hloop
  have hloop' := decodeTable_entries u32 u64 "Checkpoint dpt truncated" [] dpt.entries
    (attLen ++ attBytes ++ dptLen) ∅
  rw [← hrest'] at hloop'
  simp only [List.length_append, hfour, hfour', hattSize] at hloop'
  have hroom : ¬ rest.length < 4 := by
    rw [hrest, List.length_append, hfour]
    omega
  have hroom' : ¬ rest.length < 4 + att.entries.length * 16 + 4 := by
    rw [hrest]
    simp only [List.length_append, hfour, hfour', hattSize]
    omega
  simp only [decodeCheckpoint, if_neg hroom, hattLen, hloop, bind, Except.bind, u64_width,
    Nat.reduceAdd, if_neg hroom', hdptLen, hloop', pure, Except.pure]
  rfl

theorem decodeSequenceAdvance_encode (seqPageId : UInt32) (newLastValue : Int64) :
    decodeSequenceAdvance (u32.enc seqPageId ++ i64.enc newLastValue) =
      .ok (.sequenceAdvance seqPageId newLastValue) := by
  have hval : i64.read (u32.enc seqPageId ++ i64.enc newLastValue) 4 = newLastValue := by
    rw [Field.read_skip _ _ _ _ (by decide)]
    exact Field.read_enc_last i64 newLastValue
  rw [decodeSequenceAdvance, if_neg (by simp), Field.read_enc, hval]

theorem decodePageInit_encode (pageId : UInt32) (kind : UInt8) :
    decodePageInit (u32.enc pageId ++ u8.enc kind) = .ok (.pageInit pageId kind) := by
  have hkind : u8.read (u32.enc pageId ++ u8.enc kind) 4 = kind := by
    rw [Field.read_skip _ _ _ _ (by decide)]
    exact Field.read_enc_last u8 kind
  rw [decodePageInit, if_neg (by simp), Field.read_enc, hkind]

theorem decodeInsert_encode (rid : Rid) (data : Bytes) :
    decodeInsert (encodeRid rid ++ data) = .ok (.insert rid data) := by
  rw [decodeInsert, if_neg (by simp), readRid_encodeRid, List.drop_left' (encodeRid_length rid)]

theorem decodeDelete_encode (rid : Rid) (xmax : UInt64) :
    decodeDelete (encodeRid rid ++ u64.enc xmax) = .ok (.delete rid xmax) := by
  have hxmax : u64.read (encodeRid rid ++ u64.enc xmax) 6 = xmax := by
    rw [read_ridSkip _ _ _ (Nat.le_refl 6)]
    exact Field.read_enc_last u64 xmax
  rw [decodeDelete, if_neg (by simp), readRid_encodeRid, hxmax]

/-! ## The round trip -/

/-- The variable parts of a record whose payload is shorter than `2 ^ 32`. -/
theorem decodeType_encodeType (t : WalRecordType) (h : (encodeType t).2.length < 2 ^ 32) :
    decodeType (encodeType t).1 (encodeType t).2 = .ok (rebuildType t) := by
  cases t with
  | begin => rfl
  | commit => rfl
  | abort => rfl
  | insert rid data => exact decodeInsert_encode rid data
  | delete rid xmax => exact decodeDelete_encode rid xmax
  | clr undoNextLsn redo => exact decodeClr_encode undoNextLsn redo
  | indexInsert indexId key rid =>
    have hkey : key.length < 2 ^ 32 := by
      simp only [encodeType, List.length_append] at h
      omega
    have htag : ∀ rest, decodeType TAG_INDEX_INSERT rest = decodeIndexInsert rest := fun _ => rfl
    exact (htag _).trans (decodeIndexInsert_encode indexId key rid hkey)
  | sequenceAdvance seqPageId newLastValue =>
    exact decodeSequenceAdvance_encode seqPageId newLastValue
  | pageInit pageId kind => exact decodePageInit_encode pageId kind
  | checkpoint att dpt =>
    simp only [encodeType, List.length_append, encodeTable_length, u64_width, u32_width] at h
    exact decodeCheckpoint_encode att dpt (by omega) (by omega)

theorem encode_length (r : WalRecord) :
    (encode r).length = 25 + (encodeType r.recordType).2.length := by
  simp [encode]
  omega

theorem decode_encode_eq {r : WalRecord} (h : (encodeType r.recordType).2.length < 2 ^ 32) :
    decode (encode r) = .ok (rebuildRecord r) := by
  have htype := decodeType_encodeType r.recordType h
  have htag : u8.read (encode r) 24 = (encodeType r.recordType).1 := by
    rw [encode, Field.read_skip _ _ _ _ (by decide), Field.read_skip _ _ _ _ (by decide),
      Field.read_skip _ _ _ _ (by decide)]
    exact Field.read_enc u8 _ _
  have hrest : (encode r).drop 25 = (encodeType r.recordType).2 := by
    rw [encode, Field.drop_skip _ _ _ (by decide), Field.drop_skip _ _ _ (by decide),
      Field.drop_skip _ _ _ (by decide), Field.drop_skip _ _ _ (by decide)]
    rfl
  have hlsn : u64.read (encode r) 0 = r.lsn := Field.read_enc u64 _ _
  have htxn : u64.read (encode r) 8 = r.txnId := by
    rw [encode, Field.read_skip _ _ _ _ (by decide)]
    exact Field.read_enc u64 _ _
  have hprev : u64.read (encode r) 16 = r.prevLsn := by
    rw [encode, Field.read_skip _ _ _ _ (by decide), Field.read_skip _ _ _ _ (by decide)]
    exact Field.read_enc u64 _ _
  have hlen : ¬ (encode r).length < 25 := by
    rw [encode_length]
    omega
  simp only [decode, if_neg hlen, htag, hrest, htype, hlsn, htxn, hprev, bind, Except.bind, pure,
    Except.pure, rebuildRecord]

theorem sameRecords_rebuild (rs : List WalRecord) :
    List.Forall₂ SameRecord (rs.map rebuildRecord) rs := by
  induction rs with
  | nil => exact List.Forall₂.nil
  | cons r rs ih => exact List.Forall₂.cons (sameRecord_rebuildRecord r) ih

/-- A record whose frame has a true length word is read back. -/
theorem decode_framed {rs : List WalRecord} (h : ∀ r ∈ rs, (encode r).length < 2 ^ 32) :
    ∀ r ∈ rs, (encode r).length < 2 ^ 32 ∧ decode (encode r) = .ok (rebuildRecord r) := by
  intro r hr
  have hlen := h r hr
  refine ⟨hlen, decode_encode_eq ?_⟩
  rw [encode_length] at hlen
  omega

/-- The codec of the log: each record decodes to itself, and reading the frames of
a list of records gives the list back. The length word of a frame counts the whole
encoded record, so there it is the record that has to be shorter than `2 ^ 32`. -/
theorem read_records_files :
    (∀ r : WalRecord, (encodeType r.recordType).2.length < 2 ^ 32 →
      ∃ r', decode (encode r) = .ok r' ∧ SameRecord r' r) ∧
    ∀ rs : List WalRecord, (∀ r ∈ rs, (encode r).length < 2 ^ 32) →
      ∃ out, readRecords (some (walFile rs)) = .ok out ∧ List.Forall₂ SameRecord out rs := by
  refine ⟨fun r hr => ⟨rebuildRecord r, decode_encode_eq hr, sameRecord_rebuildRecord r⟩, ?_⟩
  intro rs hrs
  exact ⟨rs.map rebuildRecord, readFrames_files rebuildRecord [] (decode_framed hrs),
    sameRecords_rebuild rs⟩

/-- The log of a transaction that writes a row, its index entry and a sequence, deletes another
row and is aborted, with a checkpoint of two running transactions and a dirty page inside. -/
def sampleLog : List WalRecord :=
  [⟨1, 7, 0, .begin⟩, ⟨2, 7, 1, .pageInit 5 0⟩, ⟨3, 7, 2, .insert (5, 0) [0, 7, 0, 0, 0]⟩,
    ⟨4, 7, 3, .indexInsert 2 [7, 0, 0, 0] (5, 0)⟩, ⟨5, 7, 4, .sequenceAdvance 6 (-33)⟩,
    ⟨6, 0, 0, .checkpoint (AList.insert 7 5 (AList.insert 8 0 ∅)) (AList.insert 5 2 ∅)⟩,
    ⟨7, 7, 5, .delete (5, 1) 7⟩, ⟨8, 7, 7, .clr 5 (.undoDelete (5, 1) 0)⟩, ⟨9, 7, 8, .abort⟩]

theorem read_records_files_sampleLog :
    (∀ r ∈ sampleLog, ∃ r', decode (encode r) = .ok r' ∧ SameRecord r' r) ∧
    ∃ out, readRecords (some (walFile sampleLog)) = .ok out ∧
      List.Forall₂ SameRecord out sampleLog :=
  ⟨fun r hr => read_records_files.1 r
      ((by decide : ∀ r ∈ sampleLog, (encodeType r.recordType).2.length < 2 ^ 32) r hr),
    read_records_files.2 sampleLog (by decide)⟩

/-- An insert of `n` bytes of tuple data. -/
def bigInsert (n : Nat) : WalRecord := ⟨1, 1, 0, .insert (0, 0) (List.replicate n 0)⟩

theorem bigInsert_length (n : Nat) : (encode (bigInsert n)).length = n + 31 := by
  rw [encode_length]
  simp [bigInsert, encodeType]
  omega

theorem bigInsert_payload (n : Nat) :
    (encodeType (bigInsert n).recordType).2.length = n + 6 := by
  have h := bigInsert_length n
  rw [encode_length] at h
  omega

/-- With `2 ^ 32` bytes the length word is zero, so the reader takes an empty body. -/
theorem read_bigInsert {n : Nat} (h : n + 31 = 2 ^ 32) :
    readRecords (some (walFile [bigInsert n])) =
      .error (.bail "WAL record too short: 0 bytes") := by
  have hlen := bigInsert_length n
  have hword : UInt32.ofNat (encode (bigInsert n)).length = 0 := by
    rw [hlen, h]
    rfl
  have hfile : walFile [bigInsert n] = u32.enc 0 ++ encode (bigInsert n) := by
    rw [walFile, framesOf_cons, frame, hword]
    simp [framesOf]
  have hlong : ¬ (u32.enc 0 ++ encode (bigInsert n)).length < 4 := by simp
  rw [readRecords, hfile, readFrames, if_neg hlong, Field.read_enc]
  simp only [UInt32.toNat_zero, Nat.not_lt_zero, if_false, List.take_zero]
  rfl

/-- A record with a payload of `2 ^ 32 - 25` bytes is not read back. -/
theorem length_word_wraps :
    (encodeType (bigInsert (2 ^ 32 - 31)).recordType).2.length < 2 ^ 32 ∧
      ¬ ∃ out, readRecords (some (walFile [bigInsert (2 ^ 32 - 31)])) = .ok out ∧
        List.Forall₂ SameRecord out [bigInsert (2 ^ 32 - 31)] := by
  refine ⟨by rw [bigInsert_payload]; decide, ?_⟩
  rintro ⟨out, hread, -⟩
  rw [read_bigInsert (by decide)] at hread
  cases hread

/-- A torn tail is read as the whole frames before it exactly when fewer than four
bytes of it are left: an incomplete length word ends the log, but once the length
word is there the body has to be. -/
theorem read_records_torn (rs : List WalRecord) (h : ∀ r ∈ rs, (encode r).length < 2 ^ 32)
    (n : Nat) :
    (∃ out, readRecords (some ((walFile rs).take n)) = .ok out ∧
        List.Forall₂ SameRecord out (wholeFrames encode rs n)) ↔
      ((walFile rs).take n).length - (walFile (wholeFrames encode rs n)).length < 4 := by
  have hread := @readFrames_take _ _ decode unexpectedEof _ encode rebuildRecord rs n []
    (decode_framed h)
  unfold readRecords walFile
  simp only [hread]
  constructor
  · rintro ⟨out, hout, -⟩
    by_contra hleft
    rw [if_neg hleft] at hout
    cases hout
  · intro hleft
    rw [if_pos hleft]
    exact ⟨_, rfl, sameRecords_rebuild _⟩

theorem read_records_torn_begin :
    (∃ out, readRecords (some ((walFile [⟨1, 5, 0, .begin⟩, ⟨2, 5, 1, .commit⟩]).take 30)) =
          .ok out ∧
        List.Forall₂ SameRecord out
          (wholeFrames encode [⟨1, 5, 0, .begin⟩, ⟨2, 5, 1, .commit⟩] 30)) ↔
      ((walFile [⟨1, 5, 0, .begin⟩, ⟨2, 5, 1, .commit⟩]).take 30).length -
        (walFile (wholeFrames encode [⟨1, 5, 0, .begin⟩, ⟨2, 5, 1, .commit⟩] 30)).length < 4 :=
  read_records_torn [⟨1, 5, 0, .begin⟩, ⟨2, 5, 1, .commit⟩] (by decide) 30

/-- A crash right behind the length word of the second record: one frame lies
wholly inside the prefix, and reading it fails. -/
theorem torn_body_is_an_error :
    wholeFrames encode [⟨1, 5, 0, .begin⟩, ⟨2, 5, 1, .commit⟩] 33 = [⟨1, 5, 0, .begin⟩] ∧
    readRecords (some ((walFile [⟨1, 5, 0, .begin⟩, ⟨2, 5, 1, .commit⟩]).take 33)) =
      .error unexpectedEof ∧
    ¬ ∃ out, readRecords (some ((walFile [⟨1, 5, 0, .begin⟩, ⟨2, 5, 1, .commit⟩]).take 33)) =
        .ok out ∧
      List.Forall₂ SameRecord out
        (wholeFrames encode [⟨1, 5, 0, .begin⟩, ⟨2, 5, 1, .commit⟩] 33) := by
  have hread : readRecords (some ((walFile [⟨1, 5, 0, .begin⟩, ⟨2, 5, 1, .commit⟩]).take 33)) =
      .error unexpectedEof :=
    @readFrames_take _ _ decode unexpectedEof _ encode rebuildRecord
      [⟨1, 5, 0, .begin⟩, ⟨2, 5, 1, .commit⟩] 33 [] (decode_framed (by decide))
  refine ⟨by decide, hread, ?_⟩
  rintro ⟨out, hout, -⟩
  rw [hread] at hout
  cases hout

end Ccdb.WalCodec
