import Ccdb.Lib.Replay
import Ccdb.Lib.Guarantee
import Ccdb.Storage.BufferPool
import Ccdb.Storage.RawPage

/-!
# Ccdb — redo on the bytes of the pages

`redo_from` of `recovery.rs` and the four functions it calls, on raw pages. The
pool is that of a restart: its recycled-page lists are empty, so a page is
allocated by extending the file.

A page that is not in the file yet counts as `Page::new`, which is what the
allocation on demand makes of it (`RawPool.content`).

Main results:

* `redoPage_gated` — the `page_lsn` gate of all four functions.
* `redo_converges` — redo brings pages of any ages to the same contents, and a
  second redo does nothing.
-/

namespace Ccdb

open RawPage

/-! ## Redo of one record on its page -/

/-- A log record as redo reads it. Records that touch no page are `other`. -/
inductive RawRecordType where
  | insert (page : UInt32) (slot : UInt16) (data : Bytes)
  | delete (page : UInt32) (slot : UInt16) (xmax : UInt64)
  | sequenceAdvance (page : UInt32) (newLastValue : Int64)
  | pageInit (page : UInt32) (kind : UInt8)
  | undoDelete (page : UInt32) (slot : UInt16) (oldXmax : UInt64)
  | other
deriving DecidableEq, Repr

structure RawRecord where
  lsn : UInt64
  recordType : RawRecordType
deriving DecidableEq, Repr

namespace RawRecord

/-- The page a record touches. -/
def page (r : RawRecord) : Nat :=
  match r.recordType with
  | .insert page _ _ => page.toNat
  | .delete page _ _ => page.toNat
  | .sequenceAdvance page _ => page.toNat
  | .pageInit page _ => page.toNat
  | .undoDelete page _ _ => page.toNat
  | .other => 0

def stamp (r : RawRecord) : Nat := r.lsn.toNat

end RawRecord

/-- The frame of the redo functions: nothing to do on a page that is new enough,
otherwise the change and then the record's LSN. -/
def gated (lsn : UInt64) (change : RawM Unit) : RawM Bool := do
  let p ← get
  if lsn.toNat ≤ p.pageLsn then return false
  else do
    change
    modify fun p => p.setPageLsn lsn
    return true

/-- The gap of `redo_insert`: an empty tuple is inserted and then deleted. -/
def fillRawGap (slot : Nat) : Nat → RawM Unit
  | 0 => return ()
  | n + 1 => do
    let p ← get
    if p.tupleCount < slot then do
      let id ← RawPage.insert []
      RawPage.delete id
      fillRawGap slot n
    else return ()

/-- The page change of `redo_insert`. -/
def placeRaw (slot : Nat) (data : Bytes) : RawM Unit := do
  let p ← get
  if slot < p.tupleCount then do
    match ← check (p.getTuple slot) with
    | none => RawPage.restore slot data
    | some _ => return ()
  else do
    if p.tupleCount < slot then fillRawGap slot slot
    let _ ← RawPage.insert data

/-- The page change of `redo_page_init`. -/
def initRaw (page : Nat) (kind : UInt8) : RawM Unit := fun _ =>
  let p := (RawPage.new page).setPageKind (.fromU8 kind)
  .ok () (if PageKind.fromU8 kind = .sequenceRel then p.initSequencePage else p)

/-- The page change of `redo_seq_advance`. -/
def advanceRaw (newLastValue : Int64) : RawM Unit := fun p =>
  let p := if p.pageKind = .sequenceRel then p else p.initSequencePage
  .ok () (p.writeState { p.readState with lastValue := newLastValue, logCnt := 0, isCalled := true })

/-- What redo does to the page of a record. -/
def redoPage (r : RawRecord) : RawM Bool :=
  match r.recordType with
  | .insert _ slot data => gated r.lsn (placeRaw slot.toNat data)
  | .delete _ slot xmax => gated r.lsn (RawPage.setTupleXmax slot.toNat xmax)
  | .sequenceAdvance _ newLastValue => gated r.lsn (advanceRaw newLastValue)
  | .pageInit page kind => gated r.lsn (initRaw page.toNat kind)
  | .undoDelete _ slot oldXmax => gated r.lsn (RawPage.setTupleXmax slot.toNat oldXmax)
  | .other => return false

theorem gated_skip {lsn : UInt64} {change : RawM Unit} {p : RawPage}
    (h : lsn.toNat ≤ p.pageLsn) : gated lsn change p = .ok false p := by
  unfold gated
  rw [EStateM.bind_of_ok (show (get : RawM RawPage) p = .ok p p from rfl), if_pos h]
  rfl

theorem gated_applied {lsn : UInt64} {change : RawM Unit} {p p' : RawPage}
    (h : gated lsn change p = .ok true p') : p.pageLsn < lsn.toNat ∧ p'.pageLsn = lsn.toNat := by
  unfold gated at h
  rw [EStateM.bind_of_ok (show (get : RawM RawPage) p = .ok p p from rfl)] at h
  split at h
  · cases h
  · next hlt =>
    refine ⟨not_le.1 hlt, ?_⟩
    cases hc : change p with
    | error e q =>
      rw [EStateM.bind_of_error hc] at h
      cases h
    | ok u q =>
      rw [EStateM.bind_of_ok hc] at h
      cases h
      exact pageLsn_setPageLsn q lsn

theorem redoPage_eq (r : RawRecord) :
    redoPage r = (return false) ∨ ∃ change, redoPage r = gated r.lsn change := by
  unfold redoPage
  cases r.recordType with
  | insert page slot data | delete page slot xmax | sequenceAdvance page newLastValue
  | pageInit page kind | undoDelete page slot oldXmax => exact Or.inr ⟨_, rfl⟩
  | other => exact Or.inl rfl

/-- **The gate.** -/
theorem redoPage_gated : Gated RawRecord.stamp RawPage.pageLsn redoPage := by
  constructor
  · intro r p h
    rcases redoPage_eq r with heq | ⟨change, heq⟩
    · rw [heq]
      rfl
    · rw [heq]
      exact gated_skip h
  · intro r p p' h
    rcases redoPage_eq r with heq | ⟨change, heq⟩
    · rw [heq] at h
      cases h
    · rw [heq] at h
      exact gated_applied h

/-! ## The pool of a restart -/

/-- The file and what is cached of it; `diskPages` is what the device holds. -/
structure RawPool where
  pages : Nat → RawPage
  pageCount : Nat
  diskPages : Nat

abbrev RawPoolM := EStateM DbError RawPool

/-- `new_page` with nothing to recycle. -/
def newRawPage : RawPoolM Unit := fun s =>
  if s.pageCount < s.diskPages then
    .ok () { s with
      pages := Function.update s.pages s.pageCount (.new s.pageCount)
      pageCount := s.pageCount + 1 }
  else .error newPageError s

/-- The loop of `ensure_page_allocated`. -/
def allocateRawLoop (page : Nat) : Nat → RawPoolM Unit
  | 0 => throw .diverge
  | fuel + 1 => do
    let s ← get
    if s.pageCount ≤ page then do
      newRawPage
      allocateRawLoop page fuel
    else return ()

/-- `ensure_page_allocated`. -/
def ensureRawAllocated (page : Nat) : RawPoolM Unit := allocateRawLoop page (page + 2)

/-- `fetch_page` and a change through the write guard. -/
def onRawPage {α : Type} (page : Nat) (x : RawM α) : RawPoolM α := fun s =>
  if page < s.pageCount then
    match x (s.pages page) with
    | .ok a p => .ok a { s with pages := Function.update s.pages page p }
    | .error e p => .error e { s with pages := Function.update s.pages page p }
  else .error (.io "failed to fill whole buffer") s

/-- Redo of a record whose page is allocated when it is missing. -/
def redoAllocating (r : RawRecord) : RawPoolM Bool := do
  ensureRawAllocated r.page
  onRawPage r.page (redoPage r)

/-- `redo_set_xmax`: a record whose page is missing is passed over. -/
def redoExisting (r : RawRecord) : RawPoolM Bool := do
  let s ← get
  if s.pageCount ≤ r.page then return false
  else onRawPage r.page (redoPage r)

/-- The `match` of `redo_from`. -/
def redoRaw (r : RawRecord) : RawPoolM Bool :=
  match r.recordType with
  | .insert .. => redoAllocating r
  | .delete .. => redoExisting r
  | .sequenceAdvance .. => redoAllocating r
  | .pageInit .. => redoAllocating r
  | .undoDelete .. => redoExisting r
  | .other => return false

/-- `redo_from`: how many records were applied. -/
def redoRawFrom (start : UInt64) : List RawRecord → RawPoolM Nat
  | [] => return 0
  | r :: rest => do
    if r.lsn < start then redoRawFrom start rest
    else do
      let applied ← redoRaw r
      let n ← redoRawFrom start rest
      return if applied then n + 1 else n

/-! ## Allocation on demand -/

namespace RawPool

/-- What a page holds, or will hold once it is allocated. -/
def content (s : RawPool) (page : Nat) : RawPage :=
  if page < s.pageCount then s.pages page else .new page

/-- The page is in the file or the device has room up to it. -/
def Fits (s : RawPool) (page : Nat) : Prop := page < s.pageCount ∨ page < s.diskPages

variable {s s' : RawPool} {page : Nat}

theorem content_of_lt (h : page < s.pageCount) : s.content page = s.pages page := if_pos h

theorem content_of_le (h : s.pageCount ≤ page) : s.content page = .new page := if_neg (not_lt.2 h)

end RawPool

variable {s s' : RawPool} {page : Nat} {r : RawRecord} {rs : List RawRecord} {start : UInt64}

theorem newRawPage_spec (h : s.pageCount < s.diskPages) : ∃ s', newRawPage s = .ok () s' ∧
    s'.content = s.content ∧ s'.pageCount = s.pageCount + 1 ∧ s'.diskPages = s.diskPages := by
  refine ⟨_, if_pos h, funext fun q => ?_, rfl, rfl⟩
  by_cases hq : q = s.pageCount
  · subst hq
    rw [RawPool.content_of_le (le_refl _), RawPool.content_of_lt (Nat.lt_succ_self _)]
    exact Function.update_self ..
  · by_cases hlt : q < s.pageCount
    · rw [RawPool.content_of_lt hlt, RawPool.content_of_lt (Nat.lt_succ_of_lt hlt)]
      exact Function.update_of_ne hq _ _
    · have hge : s.pageCount + 1 ≤ q := by omega
      rw [RawPool.content_of_le (not_lt.1 hlt), RawPool.content_of_le hge]

theorem getRaw (s : RawPool) : (get : RawPoolM RawPool) s = .ok s s := rfl

theorem allocateRawLoop_spec (fuel : Nat) (hfuel : page + 2 ≤ s.pageCount + (fuel + 1))
    (h : s.Fits page) : ∃ s', allocateRawLoop page (fuel + 1) s = .ok () s' ∧
      s'.content = s.content ∧ s'.pageCount = max s.pageCount (page + 1) ∧
      s'.diskPages = s.diskPages := by
  induction fuel generalizing s with
  | zero =>
    have hlt : ¬ s.pageCount ≤ page := by omega
    refine ⟨s, ?_, rfl, by omega, rfl⟩
    rw [allocateRawLoop, EStateM.bind_of_ok (getRaw s), if_neg hlt]
    rfl
  | succ fuel ih =>
    rw [allocateRawLoop, EStateM.bind_of_ok (getRaw s)]
    by_cases hle : s.pageCount ≤ page
    · rw [if_pos hle]
      have hroom : s.pageCount < s.diskPages := by
        rcases h with h | h <;> omega
      obtain ⟨s₁, hnew, hcontent, hcount, hdisk⟩ := newRawPage_spec hroom
      rw [EStateM.bind_of_ok hnew]
      obtain ⟨s₂, hloop, hcontent₂, hcount₂, hdisk₂⟩ := ih (s := s₁) (by omega) (by
        unfold RawPool.Fits at h ⊢
        omega)
      exact ⟨s₂, hloop, hcontent₂.trans hcontent, by omega, hdisk₂.trans hdisk⟩
    · rw [if_neg hle]
      exact ⟨s, rfl, rfl, by omega, rfl⟩

/-- **Allocation on demand** adds fresh pages up to the one asked for. -/
theorem ensureRawAllocated_spec (h : s.Fits page) : ∃ s', ensureRawAllocated page s = .ok () s' ∧
    s'.content = s.content ∧ s'.pageCount = max s.pageCount (page + 1) ∧
    s'.diskPages = s.diskPages :=
  allocateRawLoop_spec (page + 1) (by omega) h

theorem fits_of_allocateRawLoop {fuel : Nat} (h : allocateRawLoop page fuel s = .ok () s') :
    s.Fits page := by
  induction fuel generalizing s with
  | zero => cases h
  | succ fuel ih =>
    rw [allocateRawLoop, EStateM.bind_of_ok (getRaw s)] at h
    unfold RawPool.Fits
    by_cases hle : s.pageCount ≤ page
    · rw [if_pos hle] at h
      by_cases hroom : s.pageCount < s.diskPages
      · obtain ⟨s₁, hnew, -, hcount, hdisk⟩ := newRawPage_spec hroom
        rw [EStateM.bind_of_ok hnew] at h
        have := ih h
        unfold RawPool.Fits at this
        omega
      · rw [EStateM.bind_of_error (show newRawPage s = .error newPageError s from if_neg hroom)] at h
        cases h
    · omega

theorem onRawPage_ok {α : Type} {x : RawM α} {a : α} {p : RawPage} (hlt : page < s.pageCount)
    (h : x (s.content page) = .ok a p) : ∃ s', onRawPage page x s = .ok a s' ∧
      s'.content = Function.update s.content page p ∧ s'.pageCount = s.pageCount ∧
      s'.diskPages = s.diskPages := by
  rw [RawPool.content_of_lt hlt] at h
  refine ⟨{ s with pages := Function.update s.pages page p }, ?_, funext fun q => ?_, rfl, rfl⟩
  · unfold onRawPage
    rw [if_pos hlt, h]
  · by_cases hq : q = page
    · subst hq
      rw [Function.update_self]
      exact (if_pos hlt).trans (Function.update_self ..)
    · rw [Function.update_of_ne hq]
      unfold RawPool.content
      show (if q < s.pageCount then Function.update s.pages page p q else _) = _
      rw [Function.update_of_ne hq]

theorem onRawPage_error {α : Type} {x : RawM α} {e : DbError} {p : RawPage}
    (hlt : page < s.pageCount) (h : x (s.content page) = .error e p) :
    ∃ s', onRawPage page x s = .error e s' := by
  rw [RawPool.content_of_lt hlt] at h
  refine ⟨{ s with pages := Function.update s.pages page p }, ?_⟩
  unfold onRawPage
  rw [if_pos hlt, h]

/-! ## Redo of one record on the pool -/

/-- The page of the record can be had. -/
def RawPool.Ready (s : RawPool) (r : RawRecord) : Prop :=
  match r.recordType with
  | .insert .. => s.Fits r.page
  | .sequenceAdvance .. => s.Fits r.page
  | .pageInit .. => s.Fits r.page
  | .delete .. => r.page < s.pageCount
  | .undoDelete .. => r.page < s.pageCount
  | .other => False

/-- The pool after the record's page has become `p`. -/
structure RawPool.Stepped (s s' : RawPool) (r : RawRecord) (p : RawPage) : Prop where
  content : s'.content = Function.update s.content r.page p
  pageCount : s'.pageCount = max s.pageCount (r.page + 1)
  diskPages : s'.diskPages = s.diskPages

theorem RawPool.Ready.mono (h : s.Ready r) (hcount : s.pageCount ≤ s'.pageCount)
    (hdisk : s'.diskPages = s.diskPages) : s'.Ready r := by
  unfold RawPool.Ready at h ⊢
  cases hr : r.recordType with
  | insert page slot data =>
    simp only [hr, RawPool.Fits] at h ⊢
    omega
  | sequenceAdvance page newLastValue =>
    simp only [hr, RawPool.Fits] at h ⊢
    omega
  | pageInit page kind =>
    simp only [hr, RawPool.Fits] at h ⊢
    omega
  | delete page slot xmax =>
    simp only [hr] at h ⊢
    omega
  | undoDelete page slot oldXmax =>
    simp only [hr] at h ⊢
    omega
  | other => simp only [hr] at h

theorem redoAllocating_ok {b : Bool} {p : RawPage} (hfits : s.Fits r.page)
    (h : redoPage r (s.content r.page) = .ok b p) :
    ∃ s', redoAllocating r s = .ok b s' ∧ s.Stepped s' r p := by
  obtain ⟨s₁, halloc, hcontent, hcount, hdisk⟩ := ensureRawAllocated_spec hfits
  rw [← hcontent] at h
  obtain ⟨s₂, hpage, hcontent₂, hcount₂, hdisk₂⟩ := onRawPage_ok (by omega) h
  refine ⟨s₂, ?_, ⟨by rw [hcontent₂, hcontent], by omega, hdisk₂.trans hdisk⟩⟩
  unfold redoAllocating
  rw [EStateM.bind_of_ok halloc]
  exact hpage

theorem redoAllocating_error {e : DbError} {p : RawPage} (hfits : s.Fits r.page)
    (h : redoPage r (s.content r.page) = .error e p) :
    ∃ s', redoAllocating r s = .error e s' := by
  obtain ⟨s₁, halloc, hcontent, hcount, hdisk⟩ := ensureRawAllocated_spec hfits
  rw [← hcontent] at h
  obtain ⟨s₂, hpage⟩ := onRawPage_error (by omega) h
  refine ⟨s₂, ?_⟩
  unfold redoAllocating
  rw [EStateM.bind_of_ok halloc]
  exact hpage

theorem redoExisting_ok {b : Bool} {p : RawPage} (hlt : r.page < s.pageCount)
    (h : redoPage r (s.content r.page) = .ok b p) :
    ∃ s', redoExisting r s = .ok b s' ∧ s.Stepped s' r p := by
  obtain ⟨s₁, hpage, hcontent, hcount, hdisk⟩ := onRawPage_ok hlt h
  refine ⟨s₁, ?_, ⟨hcontent, by omega, hdisk⟩⟩
  unfold redoExisting
  rw [EStateM.bind_of_ok (getRaw s), if_neg (not_le.2 hlt)]
  exact hpage

theorem redoExisting_error {e : DbError} {p : RawPage} (hlt : r.page < s.pageCount)
    (h : redoPage r (s.content r.page) = .error e p) :
    ∃ s', redoExisting r s = .error e s' := by
  obtain ⟨s₁, hpage⟩ := onRawPage_error hlt h
  refine ⟨s₁, ?_⟩
  unfold redoExisting
  rw [EStateM.bind_of_ok (getRaw s), if_neg (not_le.2 hlt)]
  exact hpage

/-- Redo of a record whose page can be had is redo on the page. -/
theorem redoRaw_ok {b : Bool} {p : RawPage} (hready : s.Ready r)
    (h : redoPage r (s.content r.page) = .ok b p) :
    ∃ s', redoRaw r s = .ok b s' ∧ s.Stepped s' r p := by
  unfold RawPool.Ready at hready
  unfold redoRaw
  cases hr : r.recordType with
  | insert page slot data => exact redoAllocating_ok (by simpa only [hr] using hready) h
  | sequenceAdvance page newLastValue =>
    exact redoAllocating_ok (by simpa only [hr] using hready) h
  | pageInit page kind => exact redoAllocating_ok (by simpa only [hr] using hready) h
  | delete page slot xmax => exact redoExisting_ok (by simpa only [hr] using hready) h
  | undoDelete page slot oldXmax => exact redoExisting_ok (by simpa only [hr] using hready) h
  | other => simp only [hr] at hready

theorem redoRaw_error {e : DbError} {p : RawPage} (hready : s.Ready r)
    (h : redoPage r (s.content r.page) = .error e p) : ∃ s', redoRaw r s = .error e s' := by
  unfold RawPool.Ready at hready
  unfold redoRaw
  cases hr : r.recordType with
  | insert page slot data => exact redoAllocating_error (by simpa only [hr] using hready) h
  | sequenceAdvance page newLastValue =>
    exact redoAllocating_error (by simpa only [hr] using hready) h
  | pageInit page kind => exact redoAllocating_error (by simpa only [hr] using hready) h
  | delete page slot xmax => exact redoExisting_error (by simpa only [hr] using hready) h
  | undoDelete page slot oldXmax =>
    exact redoExisting_error (by simpa only [hr] using hready) h
  | other => simp only [hr] at hready

theorem fits_of_redoAllocating (h : redoAllocating r s = .ok true s') : s.Fits r.page := by
  unfold redoAllocating at h
  cases halloc : ensureRawAllocated r.page s with
  | ok u s₁ => exact fits_of_allocateRawLoop halloc
  | error e s₁ =>
    rw [EStateM.bind_of_error halloc] at h
    cases h

theorem lt_of_redoExisting (h : redoExisting r s = .ok true s') : r.page < s.pageCount := by
  unfold redoExisting at h
  rw [EStateM.bind_of_ok (getRaw s)] at h
  by_contra hge
  rw [if_pos (not_lt.1 hge)] at h
  cases h

/-- A record that was applied had its page, and was applied to it. -/
theorem redoRaw_applied (h : redoRaw r s = .ok true s') :
    s.Ready r ∧ ∃ p, redoPage r (s.content r.page) = .ok true p ∧ s.Stepped s' r p := by
  have hready : s.Ready r := by
    unfold redoRaw at h
    unfold RawPool.Ready
    cases hr : r.recordType with
    | insert page slot data | sequenceAdvance page newLastValue | pageInit page kind =>
      simp only [hr] at h
      exact fits_of_redoAllocating h
    | delete page slot xmax =>
      simp only [hr] at h
      exact lt_of_redoExisting h
    | undoDelete page slot oldXmax =>
      simp only [hr] at h
      exact lt_of_redoExisting h
    | other =>
      simp only [hr] at h
      cases h
  refine ⟨hready, ?_⟩
  cases hp : redoPage r (s.content r.page) with
  | error e p =>
    obtain ⟨s₁, herr⟩ := redoRaw_error hready hp
    rw [herr] at h
    cases h
  | ok b p =>
    obtain ⟨s₁, hok, hstep⟩ := redoRaw_ok hready hp
    rw [hok] at h
    cases h
    exact ⟨p, rfl, hstep⟩

theorem ensureRawAllocated_of_lt (h : page < s.pageCount) :
    ensureRawAllocated page s = .ok () s := by
  unfold ensureRawAllocated
  rw [allocateRawLoop, EStateM.bind_of_ok (getRaw s), if_neg (not_le.2 h)]
  rfl

/-- A record that its page has seen leaves the pool alone. -/
theorem redoRaw_skip (hlt : r.page < s.pageCount)
    (h : r.stamp ≤ (s.content r.page).pageLsn) : redoRaw r s = .ok false s := by
  have hpage : onRawPage r.page (redoPage r) s = .ok false s := by
    rw [RawPool.content_of_lt hlt] at h
    unfold onRawPage
    rw [if_pos hlt, redoPage_gated.skip h]
    dsimp only
    rw [Function.update_eq_self]
  have hallocating : redoAllocating r s = .ok false s := by
    unfold redoAllocating
    rw [EStateM.bind_of_ok (ensureRawAllocated_of_lt hlt)]
    exact hpage
  have hexisting : redoExisting r s = .ok false s := by
    unfold redoExisting
    rw [EStateM.bind_of_ok (getRaw s), if_neg (not_le.2 hlt)]
    exact hpage
  unfold redoRaw
  cases r.recordType with
  | insert page slot data => exact hallocating
  | sequenceAdvance page newLastValue => exact hallocating
  | pageInit page kind => exact hallocating
  | delete page slot xmax => exact hexisting
  | undoDelete page slot oldXmax => exact hexisting
  | other => rfl

/-! ## Redo of the log -/

theorem redoRawFrom_cons {b : Bool} {n : Nat} {s₁ s₂ : RawPool}
    (hstart : ¬ r.lsn < start) (h : redoRaw r s = .ok b s₁)
    (hrest : redoRawFrom start rs s₁ = .ok n s₂) :
    redoRawFrom start (r :: rs) s = .ok (if b then n + 1 else n) s₂ := by
  rw [redoRawFrom, if_neg hstart, EStateM.bind_of_ok h, EStateM.bind_of_ok hrest]
  rfl

theorem redoRawFrom_count_le {n : Nat} (h : redoRawFrom start rs s = .ok n s') : n ≤ rs.length := by
  induction rs generalizing s n s' with
  | nil =>
    cases h
    exact Nat.le_refl _
  | cons r rs ih =>
    rw [redoRawFrom] at h
    by_cases hstart : r.lsn < start
    · rw [if_pos hstart] at h
      exact Nat.le_succ_of_le (ih h)
    · rw [if_neg hstart] at h
      cases hone : redoRaw r s with
      | error e s₁ =>
        rw [EStateM.bind_of_error hone] at h
        cases h
      | ok b s₁ =>
        rw [EStateM.bind_of_ok hone] at h
        cases hrest : redoRawFrom start rs s₁ with
        | error e s₂ =>
          rw [EStateM.bind_of_error hrest] at h
          cases h
        | ok m s₂ =>
          rw [EStateM.bind_of_ok hrest] at h
          have := ih hrest
          cases h
          rw [List.length_cons]
          split <;> omega

/-- When every record is applied, the first is and then all the others are. -/
theorem redoRawFrom_all (h : redoRawFrom start (r :: rs) s = .ok (rs.length + 1) s') :
    ¬ r.lsn < start ∧ ∃ s₁, redoRaw r s = .ok true s₁ ∧
      redoRawFrom start rs s₁ = .ok rs.length s' := by
  rw [redoRawFrom] at h
  by_cases hstart : r.lsn < start
  · rw [if_pos hstart] at h
    have := redoRawFrom_count_le h
    omega
  · rw [if_neg hstart] at h
    refine ⟨hstart, ?_⟩
    cases hone : redoRaw r s with
    | error e s₁ =>
      rw [EStateM.bind_of_error hone] at h
      cases h
    | ok b s₁ =>
      rw [EStateM.bind_of_ok hone] at h
      cases hrest : redoRawFrom start rs s₁ with
      | error e s₂ =>
        rw [EStateM.bind_of_error hrest] at h
        cases h
      | ok m s₂ =>
        rw [EStateM.bind_of_ok hrest] at h
        have hm := redoRawFrom_count_le hrest
        cases b with
        | false =>
          have hlen : m = rs.length + 1 := congrArg (fun x => match x with
            | EStateM.Result.ok a _ => a
            | EStateM.Result.error _ _ => 0) h
          omega
        | true =>
          cases h
          exact ⟨s₁, rfl, hrest⟩

/-- The pages of a redo that applies every record. -/
theorem replay_of_redoRawFrom (h : redoRawFrom start rs s = .ok rs.length s') :
    replay RawRecord.page redoPage rs s.content = .ok rs.length s'.content := by
  induction rs generalizing s with
  | nil =>
    cases h
    rfl
  | cons r rs ih =>
    obtain ⟨-, s₁, hone, hrest⟩ := redoRawFrom_all h
    obtain ⟨-, p, hpage, hstep⟩ := redoRaw_applied hone
    have hrest := ih hrest
    rw [hstep.content] at hrest
    exact replay_cons_of (b := true) hpage hrest

/-- The file is long enough for every record that was applied. -/
theorem page_lt_of_redoRawFrom (h : redoRawFrom start rs s = .ok rs.length s') :
    s.pageCount ≤ s'.pageCount ∧ ∀ r ∈ rs, r.page < s'.pageCount := by
  induction rs generalizing s with
  | nil =>
    cases h
    exact ⟨le_refl _, fun _ h => absurd h List.not_mem_nil⟩
  | cons r rs ih =>
    obtain ⟨-, s₁, hone, hrest⟩ := redoRawFrom_all h
    obtain ⟨-, p, -, hstep⟩ := redoRaw_applied hone
    obtain ⟨hle, hpages⟩ := ih hrest
    rw [hstep.pageCount] at hle
    refine ⟨by omega, fun r' hr' => ?_⟩
    rcases List.mem_cons.1 hr' with rfl | hr'
    · omega
    · exact hpages r' hr'

/-- The pool follows the pages: a pool at least as long as one from which every
record is applied can redo what its pages can. -/
theorem redoRawFrom_of_replay {base final : RawPool} {n : Nat}
    {pages : Nat → RawPage} (hbase : redoRawFrom start rs base = .ok rs.length final)
    (hcount : base.pageCount ≤ s.pageCount) (hdisk : s.diskPages = base.diskPages)
    (h : replay RawRecord.page redoPage rs s.content = .ok n pages) :
    ∃ s', redoRawFrom start rs s = .ok n s' ∧ s'.content = pages ∧
      final.pageCount ≤ s'.pageCount := by
  induction rs generalizing base s n with
  | nil =>
    cases hbase
    cases h
    exact ⟨s, rfl, rfl, hcount⟩
  | cons r rs ih =>
    obtain ⟨hstart, base₁, hone, hrest⟩ := redoRawFrom_all hbase
    obtain ⟨hready, p, -, hstep⟩ := redoRaw_applied hone
    unfold replay at h
    split at h
    · cases h
    · next b pages₁ hpages =>
      unfold replayOne at hpages
      split at hpages
      · next b' p' hpage =>
        cases hpages
        split at h
        · cases h
        · next m pages₂ hrest' =>
          cases h
          -- what was missing for the base is missing for no longer file
          obtain ⟨s₁, hredo, hstep'⟩ := redoRaw_ok (hready.mono hcount hdisk) hpage
          rw [← hstep'.content] at hrest'
          obtain ⟨s₂, hfrom, hcontent, hfinal⟩ := ih hrest
            (by rw [hstep.pageCount, hstep'.pageCount]; omega)
            (by rw [hstep.diskPages, hstep'.diskPages, hdisk]) hrest'
          exact ⟨s₂, redoRawFrom_cons hstart hredo hfrom, hcontent, hfinal⟩
      · cases hpages

/-- A log that every page has seen is passed over. -/
theorem redoRawFrom_again (hstart : ∀ r ∈ rs, ¬ r.lsn < start)
    (h : ∀ r ∈ rs, r.page < s.pageCount ∧ r.stamp ≤ (s.content r.page).pageLsn) :
    redoRawFrom start rs s = .ok 0 s := by
  induction rs with
  | nil => rfl
  | cons r rs ih =>
    obtain ⟨hlt, hseen⟩ := h r List.mem_cons_self
    refine redoRawFrom_cons (b := false) (n := 0) (hstart r List.mem_cons_self)
      (redoRaw_skip hlt hseen) ?_
    exact ih (fun r' hr' => hstart r' (List.mem_cons_of_mem _ hr'))
      fun r' hr' => h r' (List.mem_cons_of_mem _ hr')

theorem start_le_of_redoRawFrom (h : redoRawFrom start rs s = .ok rs.length s') :
    ∀ r ∈ rs, ¬ r.lsn < start := by
  induction rs generalizing s with
  | nil => exact fun _ h => absurd h List.not_mem_nil
  | cons r rs ih =>
    obtain ⟨hstart, s₁, -, hrest⟩ := redoRawFrom_all h
    intro r' hr'
    rcases List.mem_cons.1 hr' with rfl | hr'
    · exact hstart
    · exact ih hrest r' hr'

/-- **Redo converges and is idempotent.** From `base` redo applies every record
and ends in `final`. In the crash image every page of `base` is still in the
file, and each page is what it was after some of the records (`rs.take k`,
with a `k` of its own). Then redo returns, every page is as in `final`, and a
second redo changes nothing and counts nothing. That the LSNs grow from page
state to page state follows from the records being applied. -/
theorem redo_converges (start : UInt64) (rs : List RawRecord) (base final crash : RawPool)
    (hbase : redoRawFrom start rs base = .ok rs.length final)
    (hcount : base.pageCount ≤ crash.pageCount) (hdisk : crash.diskPages = base.diskPages)
    (hcrash : ∀ page, ∃ k mid, redoRawFrom start (rs.take k) base = .ok (rs.take k).length mid ∧
      crash.content page = mid.content page) :
    ∃ n recovered, redoRawFrom start rs crash = .ok n recovered ∧
      (∀ page, recovered.content page = final.content page) ∧
      final.pageCount ≤ recovered.pageCount ∧
      redoRawFrom start rs recovered = .ok 0 recovered := by
  have hpages := replay_of_redoRawFrom hbase
  have hbehind : Behind RawRecord.page redoPage rs base.content crash.content := by
    intro page
    obtain ⟨k, mid, hmid, hpage⟩ := hcrash page
    exact ⟨k, mid.content, replay_of_redoRawFrom hmid, hpage⟩
  obtain ⟨n, hreplay⟩ := replay_behind redoPage_gated hpages hbehind
  obtain ⟨recovered, hredo, hcontent, hfinal⟩ := redoRawFrom_of_replay hbase hcount hdisk hreplay
  refine ⟨n, recovered, hredo, fun page => by rw [hcontent], hfinal, ?_⟩
  refine redoRawFrom_again (start_le_of_redoRawFrom hbase) fun r hr => ⟨?_, ?_⟩
  · exact lt_of_lt_of_le ((page_lt_of_redoRawFrom hbase).2 r hr) hfinal
  · rw [hcontent]
    exact stamp_le_of_replay_all redoPage_gated hpages r hr

/-- Two fresh pages. -/
def twoPages : RawPool := ⟨RawPage.new, 2, 10⟩

/-- A tuple for each of them. -/
def twoInserts : List RawRecord :=
  [⟨1, .insert 0 0 (List.replicate 22 7)⟩, ⟨2, .insert 1 0 (List.replicate 22 9)⟩]

/-- The second page reached the disk after its record, the first did not. -/
def secondSurvives : RawPool :=
  { twoPages with
    pages := Function.update (redoRawFrom 0 twoInserts twoPages).final.pages 0 (.new 0) }

theorem redo_converges_secondSurvives :
    ∃ n recovered, redoRawFrom 0 twoInserts secondSurvives = .ok n recovered ∧
      (∀ page, recovered.content page =
        (redoRawFrom 0 twoInserts twoPages).final.content page) ∧
      (redoRawFrom 0 twoInserts twoPages).final.pageCount ≤ recovered.pageCount ∧
      redoRawFrom 0 twoInserts recovered = .ok 0 recovered := by
  have hall : redoRawFrom 0 twoInserts twoPages =
      .ok twoInserts.length (redoRawFrom 0 twoInserts twoPages).final := rfl
  refine redo_converges 0 twoInserts twoPages _ secondSurvives hall (le_refl _) rfl fun page => ?_
  match page with
  | 0 => exact ⟨0, twoPages, rfl, rfl⟩
  | 1 => exact ⟨2, _, hall, rfl⟩
  | page + 2 =>
    refine ⟨0, twoPages, rfl, ?_⟩
    have hout : 2 ≤ page + 2 := by omega
    rw [RawPool.content_of_le (s := secondSurvives) hout, RawPool.content_of_le (s := twoPages) hout]

end Ccdb
