import Ccdb.Recovery.Redo
import Ccdb.Lib.Runs

/-!
# Ccdb — sequences across crashes

`sequence.rs` and the part of `recovery.rs` that redoes it: the page of one sequence in
memory and on disk, and the log. One call of `nextval` in 33 writes a SequenceAdvance
record, which reserves the values of the calls that follow; the page has the LSN of
that record from then on.

A page that reaches the disk between two records has that LSN too. Redo passes it over,
and the values handed out after the flush come again (`values_come_again`).

Records of other pages are `other` here. A crash loses the page in memory and nothing of
the log; recovery may be cut short by another one.

Main results:

* `Inv.step` — what the page, the disk and the log say about the values handed out.
* `nextval_increasing` — they increase as long as no such page is what a crash finds.
-/

namespace Ccdb

namespace RawPage

/-! ## The state of a sequence page -/

variable (p : RawPage) (s : SequenceState)

theorem i32Bytes_length (n : Int32) : (i32Bytes n).length = 4 := toLe_length 4 _

theorem byte_copy_of_lt {off i : Nat} {bytes : Bytes} (h : i < off) : (p.copy off bytes).byte i = p.byte i := by
  by_cases hi : i < PAGE_SIZE
  · rw [byte_copy p off bytes hi, if_neg (by omega)]
  · simp [byte, hi]

theorem field_writeState {off w : Nat} (h : off + w ≤ 24) : (p.writeState s).field off w = p.field off w := by
  unfold writeState
  rw [field_copy_disjoint _ (by omega), field_copy_disjoint _ (by omega), field_copy_disjoint _ (by omega)]

theorem pageLsn_new (pageId : Nat) : (RawPage.new pageId).pageLsn = 0 := by
  unfold RawPage.new pageLsn setFreeSpaceOffset setTupleCount setNextPageId setPageId
  rw [field_setField_disjoint _ (by decide), field_setField_disjoint _ (by decide),
    field_setField_disjoint _ (by decide), field_setField_disjoint _ (by decide)]
  rfl

@[simp] theorem pageLsn_writeState : (p.writeState s).pageLsn = p.pageLsn :=
  field_writeState p s (by decide)

@[simp] theorem pageKind_writeState : (p.writeState s).pageKind = p.pageKind := by
  unfold pageKind writeState
  rw [byte_copy_of_lt _ (by decide), byte_copy_of_lt _ (by decide), byte_copy_of_lt _ (by decide)]

@[simp] theorem readState_writeState : (p.writeState s).readState = s := by
  have hvalue : (p.writeState s).field 24 8 = s.lastValue.toUInt64.toNat := by
    unfold writeState
    rw [field_copy_disjoint _ (by simp), field_copy_disjoint _ (by simp [i32Bytes_length])]
    unfold i64Bytes
    rw [show ∀ bytes, p.copy 24 (toLe 8 bytes) = p.setField 24 8 bytes from fun _ => rfl,
      field_setField p (by decide)]
    exact Nat.mod_eq_of_lt s.lastValue.toUInt64.toNat_lt
  have hcnt : (p.writeState s).field 32 4 = s.logCnt.toUInt32.toNat := by
    unfold writeState
    rw [field_copy_disjoint _ (by simp)]
    unfold i32Bytes
    rw [show ∀ (q : RawPage) bytes, q.copy 32 (toLe 4 bytes) = q.setField 32 4 bytes from fun _ _ => rfl,
      field_setField _ (by decide)]
    exact Nat.mod_eq_of_lt s.logCnt.toUInt32.toNat_lt
  have hcalled : ((p.writeState s).byte 36 != 0) = s.isCalled := by
    unfold writeState
    rw [byte_copy _ 36 _ (by decide), if_pos (by simp)]
    cases s.isCalled <;> rfl
  unfold readState
  rw [hvalue, hcnt, hcalled, UInt64.ofNat_toNat, UInt32.ofNat_toNat]
  simp

@[simp] theorem readState_setPageLsn (lsn : UInt64) : (p.setPageLsn lsn).readState = p.readState := by
  have hbyte : (p.setField 12 8 lsn.toNat).byte 36 = p.byte 36 := by
    unfold setField
    rw [byte_copy _ 12 _ (by decide), if_neg (by simp)]
  unfold readState setPageLsn
  rw [field_setField_disjoint p (by decide), field_setField_disjoint p (by decide), hbyte]

@[simp] theorem pageKind_setPageLsn (lsn : UInt64) : (p.setPageLsn lsn).pageKind = p.pageKind := by
  unfold pageKind setPageLsn setField
  rw [byte_copy _ 12 _ (by decide), if_neg (by simp)]

@[simp] theorem pageKind_setPageKind (k : PageKind) : (p.setPageKind k).pageKind = k := by
  unfold pageKind setPageKind
  rw [byte_copy _ 20 _ (by decide), if_pos (by simp)]
  cases k <;> rfl

@[simp] theorem pageKind_initSequencePage : p.initSequencePage.pageKind = .sequenceRel := by
  unfold initSequencePage
  simp

@[simp] theorem readState_initSequencePage : p.initSequencePage.readState = ⟨0, 0, false⟩ := by
  unfold initSequencePage
  simp

end RawPage

namespace Sequence

open RawPage

/-! ## nextval -/

def SEQ_LOG_VALS : Int32 := 32

/-- An `i64` that is not too large or too small. -/
def ofInt? (n : Int) : Option Int64 :=
  if Int64.minValue.toInt ≤ n ∧ n ≤ Int64.maxValue.toInt then some (Int64.ofInt n) else none

def checkedAdd (a b : Int64) : Option Int64 := ofInt? (a.toInt + b.toInt)

def checkedMul (a b : Int64) : Option Int64 := ofInt? (a.toInt * b.toInt)

/-- `reserved_to`. -/
def reservedTo (next increment : Int64) : Int64 :=
  (checkedAdd next ((checkedMul increment SEQ_LOG_VALS.toInt64).getD .maxValue)).getD .maxValue

/-- `redoing` has the records recovery has not read yet. `returned` are the values `nextval`
has returned, in their order; no step reads them. -/
structure Store where
  page : RawPage
  disk : RawPage
  log : List RawRecord
  nextLsn : UInt64
  redoing : Option (List RawRecord)
  returned : List Int64

/-- A sequence as `nextval` gets it from the catalog, where the columns are INTEGER. -/
structure Params where
  seqPageId : UInt32
  startValue : Int32
  increment : Int32

namespace Store

/-- `wal.append`; the LSN is that of the record. -/
def append (st : Store) (rt : RawRecordType) : Store :=
  { st with log := st.log ++ [⟨st.nextLsn, rt⟩], nextLsn := st.nextLsn + 1 }

/-- `nextval`. -/
def nextval (st : Store) (seqPageId : UInt32) (startValue increment : Int64) : Except DbError Int64 × Store :=
  if st.page.pageKind ≠ .sequenceRel then
    (.error (.bail s!"page {seqPageId} is not a sequence relation"), st)
  else
    let s := st.page.readState
    match if s.isCalled then checkedAdd s.lastValue increment else some startValue with
    | none => (.error (.bail "sequence overflow"), st)
    | some next =>
      if s.logCnt ≤ 0 then
        let page := st.page.setPageLsn st.nextLsn
        (.ok next, { st.append (.sequenceAdvance seqPageId (reservedTo next increment)) with
          page := page.writeState ⟨next, SEQ_LOG_VALS, true⟩ })
      else (.ok next, { st with page := st.page.writeState ⟨next, s.logCnt - 1, true⟩ })

inductive Op where
  | nextval
  -- a record of another page, or of none
  | log
  | flush
  | crash
  -- recovery reads the next record, or is through and flushes
  | redo
deriving DecidableEq, Repr

/-- The log has LSNs left. -/
def hasLsn (st : Store) : Prop := st.nextLsn.toNat + 1 < 2 ^ 64

instance (st : Store) : Decidable st.hasLsn := inferInstanceAs (Decidable (_ < _))

def step (q : Params) (st : Store) : Op → Option Store
  | .nextval =>
    match st.redoing with
    | some _ => none
    | none =>
      if st.hasLsn then
        match st.nextval q.seqPageId q.startValue.toInt64 q.increment.toInt64 with
        | (.ok v, st) => some { st with returned := st.returned ++ [v] }
        | (.error _, st) => some st
      else none
  | .log => if st.hasLsn then some (st.append .other) else none
  | .flush => some { st with disk := st.page }
  | .crash => some { st with page := st.disk, redoing := some st.log }
  | .redo =>
    match st.redoing with
    | none => none
    | some [] => some { st with disk := st.page, redoing := none }
    | some (r :: rest) =>
      match redoPage r st.page with
      | .ok _ page => some { st with page := page, redoing := some rest }
      | .error _ _ => none

/-- `perform_create_sequence`: the page is new, the PageInit record is written, and the page
is initialised. -/
def created (q : Params) (lsn : UInt64) : Store where
  page := (RawPage.new q.seqPageId.toNat).initSequencePage.setPageLsn lsn
  disk := .new q.seqPageId.toNat
  log := [⟨lsn, .pageInit q.seqPageId (PageKind.toU8 .sequenceRel)⟩]
  nextLsn := lsn + 1
  redoing := none
  returned := []

end Store

/-! ## Arithmetic -/

theorem ofInt?_eq_some {n : Int} {c : Int64} (h : ofInt? n = some c) : c.toInt = n := by
  unfold ofInt? at h
  split at h
  · next hn =>
    cases h
    have hmin : Int64.minValue.toInt = -2 ^ 63 := by decide
    have hmax : Int64.maxValue.toInt = 2 ^ 63 - 1 := by decide
    exact Int64.toInt_ofInt_of_le (by omega) (by omega)
  · cases h

/-- A step of an INTEGER fits 32 times into an `i64`. -/
theorem checkedMul_increment (n : Int32) :
    ∃ m, checkedMul n.toInt64 SEQ_LOG_VALS.toInt64 = some m ∧ m.toInt = n.toInt * 32 := by
  have hlow := Int32.le_toInt n
  have hhigh := Int32.toInt_lt n
  have hmin : Int64.minValue.toInt = -2 ^ 63 := by decide
  have hmax : Int64.maxValue.toInt = 2 ^ 63 - 1 := by decide
  have hvals : SEQ_LOG_VALS.toInt64.toInt = 32 := by decide
  have hsome : checkedMul n.toInt64 SEQ_LOG_VALS.toInt64 = some (.ofInt (n.toInt * 32)) := by
    unfold checkedMul ofInt?
    rw [Int32.toInt_toInt64, hvals, if_pos]
    omega
  exact ⟨_, hsome, by rw [ofInt?_eq_some hsome, Int32.toInt_toInt64, hvals]⟩

/-- What a record reserves: the 32 values that follow, or everything there is. -/
theorem reservedTo_spec (next : Int64) (n : Int32) :
    (reservedTo next n.toInt64).toInt = next.toInt + n.toInt * 32 ∨
      reservedTo next n.toInt64 = .maxValue := by
  obtain ⟨m, hm, hint⟩ := checkedMul_increment n
  unfold reservedTo
  rw [hm, Option.getD_some]
  cases hadd : checkedAdd next m with
  | none => exact .inr rfl
  | some c =>
    left
    rw [Option.getD_some, ofInt?_eq_some hadd, hint]

/-! ## Redo of the sequence's records -/

/-- A record of the sequence page, or one that does not touch it. -/
def Mine (q : Params) (r : RawRecord) : Prop :=
  r.recordType = .other ∨ r.recordType = .pageInit q.seqPageId (PageKind.toU8 .sequenceRel) ∨
    ∃ v, r.recordType = .sequenceAdvance q.seqPageId v

/-- The state a record leaves on the page. -/
def stateOf (rt : RawRecordType) : SequenceState :=
  match rt with
  | .sequenceAdvance _ v => ⟨v, 0, true⟩
  | _ => ⟨0, 0, false⟩

/-- Redo of a record that the page has already, or that is not about it. -/
theorem redo_skip {r : RawRecord} {p : RawPage} (h : r.recordType = .other ∨ r.stamp ≤ p.pageLsn) :
    redoPage r p = .ok false p := by
  rcases h with hother | hle
  · unfold redoPage
    rw [hother]
    rfl
  · exact redoPage_gated.skip hle

theorem gated_run {lsn : UInt64} (change : RawM Unit) {p p' : RawPage} (hlt : p.pageLsn < lsn.toNat)
    (hc : change p = .ok () p') : gated lsn change p = .ok true (p'.setPageLsn lsn) := by
  unfold gated
  rw [EStateM.bind_of_ok (show (get : RawM RawPage) p = .ok p p from rfl), if_neg (not_le.2 hlt),
    EStateM.bind_of_ok hc]
  rfl

theorem redo_apply {q : Params} {r : RawRecord} {p : RawPage} (hm : Mine q r)
    (hne : r.recordType ≠ .other) (hlt : p.pageLsn < r.stamp) :
    ∃ p', redoPage r p = .ok true p' ∧ p'.pageLsn = r.stamp ∧ p'.pageKind = .sequenceRel ∧
      p'.readState = stateOf r.recordType := by
  rcases hm with hother | hinit | ⟨v, hadvance⟩
  · exact absurd hother hne
  · have hkind : PageKind.fromU8 (PageKind.toU8 .sequenceRel) = .sequenceRel := rfl
    have hrun := gated_run (initRaw q.seqPageId.toNat (PageKind.toU8 .sequenceRel)) hlt rfl
    unfold redoPage
    rw [hinit]
    refine ⟨_, hrun, pageLsn_setPageLsn _ _, ?_, ?_⟩
    · rw [hkind, if_pos rfl]
      simp
    · rw [hkind, if_pos rfl]
      simp [stateOf]
  · have hrun := gated_run (advanceRaw v) hlt rfl
    unfold redoPage
    rw [hadvance]
    refine ⟨_, hrun, pageLsn_setPageLsn _ _, ?_, ?_⟩
    · rw [pageKind_setPageLsn, pageKind_writeState]
      split
      · next hk => exact hk
      · simp
    · simp [stateOf]

/-! ## What the page and the log say about the values -/

/-- The state reserves no more than the record did, and no value is past it. -/
structure Ahead (inc : Int) (reserved : Int64) (returned : List Int64) (s : SequenceState) : Prop where
  called : s.isCalled = true
  count : 0 ≤ s.logCnt.toInt
  room : s.lastValue.toInt + s.logCnt.toInt * inc ≤ reserved.toInt ∨ reserved = .maxValue
  past : ∀ x ∈ returned, x ≤ s.lastValue

/-- A page that has the last record, with the values handed out since. -/
structure Good (q : Params) (tip : RawRecord) (returned : List Int64) (p : RawPage) : Prop where
  lsn : p.pageLsn = tip.stamp
  kind : p.pageKind = .sequenceRel
  state : match tip.recordType with
    | .sequenceAdvance _ v => Ahead q.increment.toInt v returned p.readState
    | _ => p.readState = ⟨0, 0, false⟩

/-- A page that redo makes good. -/
def Settles (q : Params) (tip : RawRecord) (returned : List Int64) (p : RawPage) : Prop :=
  p.pageLsn < tip.stamp ∨ Good q tip returned p

/-- The values handed out are within what the last record reserves. -/
def Reserved (tip : RawRecord) (returned : List Int64) : Prop :=
  match tip.recordType with
  | .sequenceAdvance _ v => ∀ x ∈ returned, x ≤ v
  | _ => returned = []

/-- The last record about the page, older ones before it, other pages' after it. -/
structure Tip (q : Params) (tip : RawRecord) (rs : List RawRecord) : Prop where
  split : ∃ pre post, rs = pre ++ tip :: post ∧ (∀ r ∈ pre, r.stamp < tip.stamp) ∧
    ∀ r ∈ post, r.recordType = .other
  mine : ∀ r ∈ rs, Mine q r
  change : tip.recordType ≠ .other

/-- What recovery has still to read, and the page it has come to. -/
def Redoing (q : Params) (tip : RawRecord) (returned : List Int64) (rest : List RawRecord) (p : RawPage) :
    Prop :=
  (Tip q tip rest ∧ Settles q tip returned p) ∨
    (Good q tip returned p ∧ ∀ r ∈ rest, r.recordType = .other)

structure Inv (q : Params) (tip : RawRecord) (st : Store) : Prop where
  log : Tip q tip st.log
  below : ∀ r ∈ st.log, r.stamp < st.nextLsn.toNat
  reserved : Reserved tip st.returned
  increasing : st.returned.Pairwise (· < ·)
  disk_le : st.disk.pageLsn ≤ tip.stamp
  disk_kind : st.disk.pageLsn = tip.stamp → st.disk.pageKind = .sequenceRel
  phase : match st.redoing with
    | none => Good q tip st.returned st.page
    | some rest => Settles q tip st.returned st.disk ∧ Redoing q tip st.returned rest st.page

theorem Tip.mem {q : Params} {tip : RawRecord} {rs : List RawRecord} (h : Tip q tip rs) : tip ∈ rs := by
  obtain ⟨pre, post, rfl, -, -⟩ := h.split
  simp

theorem Settles.le {q : Params} {tip : RawRecord} {returned : List Int64} {p : RawPage}
    (h : Settles q tip returned p) : p.pageLsn ≤ tip.stamp := by
  rcases h with hlt | hgood
  · exact hlt.le
  · exact hgood.lsn.le

/-- The last record makes a page good. -/
theorem good_of_redone {q : Params} {tip : RawRecord} {returned : List Int64} {p : RawPage}
    (hm : Mine q tip) (hne : tip.recordType ≠ .other) (hr : Reserved tip returned)
    (hlsn : p.pageLsn = tip.stamp) (hkind : p.pageKind = .sequenceRel)
    (hstate : p.readState = stateOf tip.recordType) : Good q tip returned p := by
  refine ⟨hlsn, hkind, ?_⟩
  rcases hm with hother | hinit | ⟨v, hadvance⟩
  · exact absurd hother hne
  · rw [hinit] at hstate ⊢
    exact hstate
  · unfold Reserved at hr
    rw [hadvance] at hstate hr ⊢
    rw [hstate]
    exact ⟨rfl, by simp [stateOf], .inl (by simp [stateOf]), hr⟩

variable {q : Params} {tip : RawRecord} {returned : List Int64}

/-- One record of recovery. -/
theorem Redoing.step {r : RawRecord} {rest : List RawRecord} {p : RawPage}
    (hr : Reserved tip returned) (h : Redoing q tip returned (r :: rest) p) :
    ∃ b p', redoPage r p = .ok b p' ∧ Redoing q tip returned rest p' := by
  rcases h with ⟨htip, hsettles⟩ | ⟨hgood, hother⟩
  · obtain ⟨pre, post, hsplit, hpre, hpost⟩ := htip.split
    cases pre with
    | nil =>
      -- the last record itself
      obtain ⟨rfl, rfl⟩ := List.cons.inj hsplit
      rcases hsettles with hlt | hgood
      · obtain ⟨p', hrun, hlsn, hkind, hstate⟩ := redo_apply (htip.mine _ htip.mem) htip.change hlt
        have hgood := good_of_redone (htip.mine _ htip.mem) htip.change hr hlsn hkind hstate
        exact ⟨true, p', hrun, .inr ⟨hgood, hpost⟩⟩
      · exact ⟨false, p, redo_skip (.inr hgood.lsn.ge), .inr ⟨hgood, hpost⟩⟩
    | cons r' pre =>
      obtain ⟨rfl, rfl⟩ := List.cons.inj hsplit
      have hrest : Tip q tip (pre ++ tip :: post) :=
        ⟨⟨pre, post, rfl, fun x hx => hpre x (List.mem_cons_of_mem _ hx), hpost⟩,
          fun x hx => htip.mine x (List.mem_cons_of_mem _ hx), htip.change⟩
      by_cases hskip : r.recordType = .other ∨ r.stamp ≤ p.pageLsn
      · exact ⟨false, p, redo_skip hskip, .inl ⟨hrest, hsettles⟩⟩
      · rw [not_or, not_le] at hskip
        obtain ⟨p', hrun, hlsn, -, -⟩ :=
          redo_apply (htip.mine r List.mem_cons_self) hskip.1 hskip.2
        refine ⟨true, p', hrun, .inl ⟨hrest, .inl ?_⟩⟩
        rw [hlsn]
        exact hpre r List.mem_cons_self
  · exact ⟨false, p, redo_skip (.inl (hother r List.mem_cons_self)),
      .inr ⟨hgood, fun x hx => hother x (List.mem_cons_of_mem _ hx)⟩⟩

theorem Redoing.settles {rest : List RawRecord} {p : RawPage} (h : Redoing q tip returned rest p) :
    Settles q tip returned p := by
  rcases h with ⟨-, hsettles⟩ | ⟨hgood, -⟩
  · exact hsettles
  · exact .inr hgood

theorem Redoing.good {p : RawPage} (h : Redoing q tip returned [] p) : Good q tip returned p := by
  rcases h with ⟨htip, -⟩ | ⟨hgood, -⟩
  · cases htip.mem
  · exact hgood

theorem Settles.kind {p : RawPage} (h : Settles q tip returned p) (hlsn : p.pageLsn = tip.stamp) :
    p.pageKind = .sequenceRel := by
  rcases h with hlt | hgood
  · exact absurd hlsn hlt.ne
  · exact hgood.kind

/-- A page with the LSN and the state of a good one is good. -/
theorem Good.congr {p p' : RawPage} (h : Good q tip returned p) (hlsn : p'.pageLsn = p.pageLsn)
    (hkind : p'.pageKind = .sequenceRel) (hstate : p'.readState = p.readState) :
    Good q tip returned p' := by
  refine ⟨hlsn.trans h.lsn, hkind, ?_⟩
  rw [hstate]
  exact h.state

theorem Tip.append_other {rs : List RawRecord} (h : Tip q tip rs) (lsn : UInt64) :
    Tip q tip (rs ++ [⟨lsn, .other⟩]) := by
  obtain ⟨pre, post, rfl, hpre, hpost⟩ := h.split
  refine ⟨⟨pre, post ++ [⟨lsn, .other⟩], by simp, hpre, ?_⟩, ?_, h.change⟩
  · intro r hr
    rcases List.mem_append.1 hr with hr | hr
    · exact hpost r hr
    · rw [List.mem_singleton.1 hr]
  · intro r hr
    rcases List.mem_append.1 hr with hr | hr
    · exact h.mine r hr
    · exact .inl (by rw [List.mem_singleton.1 hr])

/-- A new record about the page. -/
theorem Tip.append_advance {rs : List RawRecord} (h : Tip q tip rs) {lsn : UInt64} (v : Int64)
    (hlsn : ∀ r ∈ rs, r.stamp < lsn.toNat) :
    Tip q ⟨lsn, .sequenceAdvance q.seqPageId v⟩ (rs ++ [⟨lsn, .sequenceAdvance q.seqPageId v⟩]) := by
  refine ⟨⟨rs, [], rfl, hlsn, fun r hr => by cases hr⟩, ?_, by simp⟩
  intro r hr
  rcases List.mem_append.1 hr with hr | hr
  · exact h.mine r hr
  · exact .inr (.inr ⟨v, by rw [List.mem_singleton.1 hr]⟩)

theorem below_append {st : Store} (h : ∀ r ∈ st.log, r.stamp < st.nextLsn.toNat) (hlsn : st.hasLsn)
    (rt : RawRecordType) : ∀ r ∈ (st.append rt).log, r.stamp < (st.append rt).nextLsn.toNat := by
  have hnext : (st.nextLsn + 1).toNat = st.nextLsn.toNat + 1 := by
    have hlt : st.nextLsn.toNat + 1 < 2 ^ 64 := hlsn
    rw [UInt64.toNat_add]
    exact Nat.mod_eq_of_lt hlt
  intro r hr
  show r.stamp < (st.nextLsn + 1).toNat
  rw [hnext]
  rcases List.mem_append.1 hr with hr | hr
  · exact Nat.lt_succ_of_lt (h r hr)
  · rw [List.mem_singleton.1 hr]
    exact Nat.lt_succ_self _

/-- No page with the LSN of the page in memory is on disk in another state. -/
def Synced (st : Store) : Store.Op → Prop
  | .crash => st.redoing = none → st.disk.pageLsn = st.page.pageLsn →
      st.disk.readState = st.page.readState
  | .nextval | .log | .flush | .redo => True

instance (st : Store) : DecidablePred (Synced st)
  | .crash => inferInstanceAs (Decidable (_ → _ → _))
  | .nextval | .log | .flush | .redo => inferInstanceAs (Decidable True)

theorem pairwise_append_last {xs : List Int64} {v : Int64} (h : xs.Pairwise (· < ·))
    (hv : ∀ x ∈ xs, x < v) : (xs ++ [v]).Pairwise (· < ·) :=
  List.pairwise_append.2 ⟨h, List.pairwise_singleton _ _, fun x hx y hy => by
    rw [List.mem_singleton.1 hy]
    exact hv x hx⟩

/-- `nextval` writes a record: the page has it, and the batch is full again. -/
theorem Inv.advance {st : Store} (h : Inv q tip st) (hpos : 0 < q.increment.toInt) (hlsn : st.hasLsn)
    (hrun : st.redoing = none) (hkind : st.page.pageKind = .sequenceRel) {next : Int64}
    (hnext : ∀ x ∈ st.returned, x < next) :
    Inv q ⟨st.nextLsn, .sequenceAdvance q.seqPageId (reservedTo next q.increment.toInt64)⟩
      { st.append (.sequenceAdvance q.seqPageId (reservedTo next q.increment.toInt64)) with
        page := (st.page.setPageLsn st.nextLsn).writeState ⟨next, SEQ_LOG_VALS, true⟩
        returned := st.returned ++ [next] } := by
  have hspec := reservedTo_spec next q.increment
  have hle : next ≤ reservedTo next q.increment.toInt64 := by
    rw [Int64.le_iff_toInt_le]
    rcases hspec with hint | hmax
    · rw [hint]
      omega
    · rw [hmax]
      exact Int64.toInt_le next
  have hall : ∀ x ∈ st.returned ++ [next], x ≤ next := by
    intro x hx
    rcases List.mem_append.1 hx with hx | hx
    · exact Int64.le_of_lt (hnext x hx)
    · rw [List.mem_singleton.1 hx]
      exact Int64.le_refl next
  have htip : tip.stamp < st.nextLsn.toNat := h.below tip h.log.mem
  refine ⟨h.log.append_advance _ h.below, below_append h.below hlsn _, ?_,
    pairwise_append_last h.increasing hnext, ?_, ?_, ?_⟩
  · intro x hx
    exact Int64.le_trans (hall x hx) hle
  · exact (h.disk_le.trans_lt htip).le
  · intro heq
    exact absurd heq (h.disk_le.trans_lt htip).ne
  · show match st.redoing with
      | none => Good q _ _ _
      | some rest => _
    rw [hrun]
    refine ⟨by simp [RawRecord.stamp], by simpa using hkind, ?_⟩
    simp only [readState_writeState]
    have hvals : SEQ_LOG_VALS.toInt = 32 := by decide
    refine ⟨rfl, ?_, ?_, hall⟩
    · show 0 ≤ SEQ_LOG_VALS.toInt
      omega
    · rcases hspec with hint | hmax
      · left
        show next.toInt + SEQ_LOG_VALS.toInt * q.increment.toInt ≤ _
        rw [hint, hvals]
        omega
      · exact .inr hmax

/-- `nextval` goes on in the batch. -/
theorem Inv.batch {st : Store} (h : Inv q tip st) (hpos : 0 < q.increment.toInt)
    (hrun : st.redoing = none) {v : Int64} {page : UInt32}
    (htip : tip.recordType = .sequenceAdvance page v)
    (hahead : Ahead q.increment.toInt v st.returned st.page.readState)
    (hcnt : 0 < st.page.readState.logCnt.toInt) {next : Int64}
    (hnext : next.toInt = st.page.readState.lastValue.toInt + q.increment.toInt) :
    Inv q tip { st with
      page := st.page.writeState ⟨next, st.page.readState.logCnt - 1, true⟩
      returned := st.returned ++ [next] } := by
  have hgood : Good q tip st.returned st.page := by
    have hphase := h.phase
    rw [hrun] at hphase
    exact hphase
  have hlt : ∀ x ∈ st.returned, x < next := by
    intro x hx
    have := Int64.le_iff_toInt_le.1 (hahead.past x hx)
    rw [Int64.lt_iff_toInt_lt]
    omega
  have hdec : (st.page.readState.logCnt - 1).toInt = st.page.readState.logCnt.toInt - 1 := by
    have := Int32.toInt_lt st.page.readState.logCnt
    rw [Int32.toInt_sub]
    exact Int.bmod_eq_of_le (by simp; omega) (by simp; omega)
  -- one step further and one value fewer
  have hroom : next.toInt + (st.page.readState.logCnt.toInt - 1) * q.increment.toInt =
      st.page.readState.lastValue.toInt + st.page.readState.logCnt.toInt * q.increment.toInt := by
    rw [hnext]
    ring
  have hle : next ≤ v := by
    rw [Int64.le_iff_toInt_le]
    rcases hahead.room with hroom' | hmax
    · have : 0 ≤ (st.page.readState.logCnt.toInt - 1) * q.increment.toInt :=
        Int.mul_nonneg (by omega) hpos.le
      omega
    · rw [hmax]
      exact Int64.toInt_le next
  have hreserved := h.reserved
  refine ⟨h.log, h.below, ?_, pairwise_append_last h.increasing hlt, h.disk_le, h.disk_kind, ?_⟩
  · unfold Reserved at hreserved ⊢
    rw [htip] at hreserved ⊢
    intro x hx
    rcases List.mem_append.1 hx with hx | hx
    · exact hreserved x hx
    · rw [List.mem_singleton.1 hx]
      exact hle
  · show match st.redoing with
      | none => Good q _ _ _
      | some rest => _
    rw [hrun]
    refine ⟨by simpa using hgood.lsn, by simpa using hgood.kind, ?_⟩
    rw [htip]
    simp only [readState_writeState]
    refine ⟨rfl, ?_, ?_, ?_⟩
    · show 0 ≤ (st.page.readState.logCnt - 1).toInt
      omega
    · refine hahead.room.imp_left fun hroom' => ?_
      show next.toInt + (st.page.readState.logCnt - 1).toInt * q.increment.toInt ≤ _
      rw [hdec, hroom]
      exact hroom'
    · intro x hx
      rcases List.mem_append.1 hx with hx | hx
      · exact Int64.le_of_lt (hlt x hx)
      · rw [List.mem_singleton.1 hx]
        exact Int64.le_refl next

theorem Inv.nextval {st st' : Store} (h : Inv q tip st) (hpos : 0 < q.increment.toInt)
    (hs : st.step q .nextval = some st') : ∃ tip', Inv q tip' st' := by
  simp only [Store.step] at hs
  split at hs
  · cases hs
  · next hrun =>
    split at hs
    · next hlsn =>
      have hgood : Good q tip st.returned st.page := by
        have hphase := h.phase
        rw [hrun] at hphase
        exact hphase
      have hstate := hgood.state
      have hreserved := h.reserved
      unfold Reserved at hreserved
      unfold Store.nextval at hs
      rw [if_neg (by simp [hgood.kind])] at hs
      rcases h.log.mine tip h.log.mem with hother | hinit | ⟨v, hadvance⟩
      · exact absurd hother h.log.change
      · -- the first call of the sequence
        rw [hinit] at hstate hreserved
        simp only [hstate] at hs
        cases hs
        refine ⟨_, h.advance hpos hlsn hrun hgood.kind fun x hx => ?_⟩
        rw [hreserved] at hx
        cases hx
      · rw [hadvance] at hstate
        have hahead : Ahead q.increment.toInt v st.returned st.page.readState := hstate
        simp only [hahead.called, if_true] at hs
        cases hadd : checkedAdd st.page.readState.lastValue q.increment.toInt64 with
        | none =>
          simp only [hadd] at hs
          cases hs
          exact ⟨tip, h⟩
        | some next =>
          have hnext : next.toInt = st.page.readState.lastValue.toInt + q.increment.toInt := by
            rw [ofInt?_eq_some hadd, Int32.toInt_toInt64]
          simp only [hadd] at hs
          by_cases hcnt : st.page.readState.logCnt ≤ 0
          · simp only [hcnt, if_true] at hs
            cases hs
            refine ⟨_, h.advance hpos hlsn hrun hgood.kind fun x hx => ?_⟩
            have := Int64.le_iff_toInt_le.1 (hahead.past x hx)
            rw [Int64.lt_iff_toInt_lt]
            omega
          · simp only [hcnt, if_false] at hs
            cases hs
            refine ⟨tip, h.batch hpos hrun hadvance hahead ?_ hnext⟩
            rw [Int32.le_iff_toInt_le] at hcnt
            simpa using hcnt
    · cases hs

theorem Inv.step {st st' : Store} {op : Store.Op} (h : Inv q tip st) (hpos : 0 < q.increment.toInt)
    (hok : Synced st op) (hs : st.step q op = some st') : ∃ tip', Inv q tip' st' := by
  have hphase := h.phase
  cases op with
  | nextval => exact h.nextval hpos hs
  | log =>
    simp only [Store.step] at hs
    split at hs
    · next hlsn =>
      cases hs
      exact ⟨tip, h.log.append_other _, below_append h.below hlsn _, h.reserved, h.increasing, h.disk_le,
        h.disk_kind, hphase⟩
    · cases hs
  | flush =>
    cases hs
    cases hrun : st.redoing with
    | none =>
      rw [hrun] at hphase
      exact ⟨tip, h.log, h.below, h.reserved, h.increasing, hphase.lsn.le, fun _ => hphase.kind, hphase⟩
    | some rest =>
      rw [hrun] at hphase
      have hsettles := hphase.2.settles
      exact ⟨tip, h.log, h.below, h.reserved, h.increasing, hsettles.le, hsettles.kind, hsettles, hphase.2⟩
  | crash =>
    cases hs
    have hdisk : Settles q tip st.returned st.disk := by
      cases hrun : st.redoing with
      | none =>
        rw [hrun] at hphase
        rcases h.disk_le.lt_or_eq with hlt | heq
        · exact .inl hlt
        · have hlsn := heq.trans hphase.lsn.symm
          exact .inr (hphase.congr hlsn (h.disk_kind heq) (hok hrun hlsn))
      | some rest =>
        rw [hrun] at hphase
        exact hphase.1
    exact ⟨tip, h.log, h.below, h.reserved, h.increasing, h.disk_le, h.disk_kind, hdisk, .inl ⟨h.log, hdisk⟩⟩
  | redo =>
    simp only [Store.step] at hs
    cases hrun : st.redoing with
    | none =>
      rw [hrun] at hs
      cases hs
    | some rest =>
      rw [hrun] at hphase hs
      cases rest with
      | nil =>
        cases hs
        have hgood := hphase.2.good
        exact ⟨tip, h.log, h.below, h.reserved, h.increasing, hgood.lsn.le, fun _ => hgood.kind, hgood⟩
      | cons r rest =>
        obtain ⟨b, p', hredo, hrest⟩ := hphase.2.step h.reserved
        simp only [hredo] at hs
        cases hs
        exact ⟨tip, h.log, h.below, h.reserved, h.increasing, h.disk_le, h.disk_kind, hphase.1, hrest⟩

theorem inv_created {lsn : UInt64} (hlsn : 0 < lsn.toNat) (hroom : lsn.toNat + 1 < 2 ^ 64) :
    Inv q ⟨lsn, .pageInit q.seqPageId (PageKind.toU8 .sequenceRel)⟩ (Store.created q lsn) where
  log := by
    refine ⟨⟨[], [], rfl, by simp, by simp⟩, ?_, by simp⟩
    intro r hr
    rw [List.mem_singleton.1 hr]
    exact .inr (.inl rfl)
  below := by
    intro r hr
    rw [List.mem_singleton.1 hr]
    show lsn.toNat < (lsn + 1).toNat
    rw [UInt64.toNat_add]
    show lsn.toNat < (lsn.toNat + 1) % 2 ^ 64
    omega
  reserved := rfl
  increasing := .nil
  disk_le := by
    show (RawPage.new q.seqPageId.toNat).pageLsn ≤ lsn.toNat
    rw [pageLsn_new]
    exact Nat.zero_le _
  disk_kind := by
    intro heq
    have hzero : (0 : Nat) = lsn.toNat := (pageLsn_new _).symm.trans heq
    omega
  phase := by
    refine ⟨by simp [Store.created, RawRecord.stamp], by simp [Store.created], ?_⟩
    simp [Store.created]

/-- **No value twice.** The values `nextval` returns increase through crashes and recoveries
as long as no crash finds on disk a page with the LSN of the last record in an older
state. -/
theorem nextval_increasing {lsn : UInt64} (hpos : 0 < q.increment) (hlsn : 0 < lsn.toNat)
    (hroom : lsn.toNat + 1 < 2 ^ 64) {ops : List Store.Op}
    (hrun : Follows (Store.step q) Synced (.created q lsn) ops) :
    (after (Store.step q) (.created q lsn) ops).returned.Pairwise (· < ·) := by
  have hinc : 0 < q.increment.toInt := by simpa using Int32.lt_iff_toInt_lt.1 hpos
  obtain ⟨tip, h⟩ := hrun.invariant (I := fun st => ∃ tip, Inv q tip st)
    (fun ⟨_, h⟩ hok hs => h.step hinc hok hs) ⟨_, inv_created hlsn hroom⟩
  exact h.increasing

/-- A flush in the middle of a batch, and a crash before the next call. -/
def flushThenCrash : List Store.Op :=
  [.nextval, .nextval, .log, .flush, .crash, .redo, .redo, .crash, .redo, .redo, .redo, .redo, .nextval]

def serial : Params := ⟨7, 1, 1⟩

theorem nextval_increasing_flushThenCrash :
    (after (Store.step serial) (.created serial 5) flushThenCrash).returned.Pairwise (· < ·) :=
  nextval_increasing (by decide) (by decide) (by decide) (by decide)

/-- The same with a call between the flush and the crash. -/
def crashAfterFlush : List Store.Op :=
  [.nextval, .nextval, .flush, .nextval, .crash, .redo, .redo, .redo, .nextval]

theorem values_come_again :
    Follows (Store.step serial) (fun _ _ => True) (.created serial 5) crashAfterFlush ∧
      (after (Store.step serial) (.created serial 5) crashAfterFlush).returned = [1, 2, 3, 3] ∧
        ¬ (after (Store.step serial) (.created serial 5) crashAfterFlush).returned.Pairwise (· < ·) := by
  decide

end Sequence

end Ccdb
