import Ccdb.Recovery.Redo
import Ccdb.Storage.Tombstones

/-!
# Ccdb — where `redo_insert` puts the logged bytes

The four cases of `redo_insert` on one page: the slot is the next one, it is further away,
it is a tombstone, or it has a tuple. `Lands` says when the page then has the logged bytes
in the slot and every other tuple as it was.

Main results:

* `redo_gap_fails` — the dummy tuple of a gap cannot be deleted.
* `redo_insert_places_iff` — `redo_insert` keeps its word where the bytes land.
* `redo_insert_gap` — not on a page with one slot too few.
-/

namespace Ccdb.RedoInsert

open RawPage hiding Follows
open Tombstones

variable {p p' : RawPage} {slot i : Nat} {data bytes : Bytes} {lsn : UInt64}

/-! ## What redo of an insert promises -/

/-- The page has the record's bytes, and every other tuple as it was. -/
structure Placed (p p' : RawPage) (slot : Nat) (data : Bytes) : Prop where
  here : p'.getTuple slot = .ok (some data)
  others : ∀ i bytes, i ≠ slot → p.getTuple i = .ok (some bytes) → p'.getTuple i = .ok (some bytes)
  valid : Valid p'

/-- What redo of an insert is for. A slot that is taken has the bytes already. -/
def Places (p : RawPage) (page : UInt32) (slot : UInt16) (data : Bytes) (lsn : UInt64) : Prop :=
  (p.tupleCount ≤ slot.toNat ∨ p.getTuple slot.toNat = .ok none →
    ∃ p', redoPage ⟨lsn, .insert page slot data⟩ p = .ok true p' ∧ Placed p p' slot.toNat data) ∧
  ∀ bytes, p.getTuple slot.toNat = .ok (some bytes) →
    ∀ p', redoPage ⟨lsn, .insert page slot data⟩ p = .ok true p' → bytes = data

/-- The slot is the next one, it is a tombstone whose offset is in the tuple data with room
for the bytes, or it has them. -/
inductive Lands (p : RawPage) (slot : Nat) (data : Bytes) : Prop where
  | appended (next : slot = p.tupleCount)
  | revived (below : slot < p.tupleCount) (dead : p.slotLen slot = 0)
      (low : p.freeSpaceOffset ≤ p.slotOff slot) (high : p.slotOff slot + data.length ≤ PAGE_SIZE)
      -- what is written over the bytes of another tuple is what they are
      (apart : ∀ i, i < p.tupleCount → i ≠ slot → p.slotLen i ≠ 0 → ∀ k,
        p.slotOff i ≤ k → k < p.slotOff i + p.slotLen i →
        p.slotOff slot ≤ k → k < p.slotOff slot + data.length →
        data.getD (k - p.slotOff slot) 0 = p.byte k)
  | there (same : p.getTuple slot = .ok (some data))

/-! ## The stamp -/

/-- Bytes outside the LSN field. -/
theorem slice_setPageLsn {o n : Nat} (ho : o + n ≤ 12 ∨ 20 ≤ o) :
    (p.setPageLsn lsn).slice o n = p.slice o n :=
  slice_setField_disjoint p (by omega)

theorem slot_setPageLsn (i : Nat) : (p.setPageLsn lsn).slotOff i = p.slotOff i ∧
    (p.setPageLsn lsn).slotLen i = p.slotLen i := by
  have h24 := header_le_slotPos i
  exact ⟨congrArg fromLe (slice_setPageLsn (Or.inr (by omega))),
    congrArg fromLe (slice_setPageLsn (Or.inr (by omega)))⟩

theorem tupleCount_setPageLsn : (p.setPageLsn lsn).tupleCount = p.tupleCount :=
  congrArg fromLe (slice_setPageLsn (Or.inl (by decide)))

theorem freeSpaceOffset_setPageLsn : (p.setPageLsn lsn).freeSpaceOffset = p.freeSpaceOffset :=
  congrArg fromLe (slice_setPageLsn (Or.inl (by decide)))

theorem valid_setPageLsn : Valid (p.setPageLsn lsn) ↔ Valid p := by
  have hslot := fun i => @slot_setPageLsn p lsn i
  constructor
  · rintro ⟨hroom, htop, hinside⟩
    rw [tupleCount_setPageLsn, freeSpaceOffset_setPageLsn] at hroom
    rw [freeSpaceOffset_setPageLsn] at htop
    rw [tupleCount_setPageLsn, freeSpaceOffset_setPageLsn] at hinside
    simp only [hslot] at hinside
    exact ⟨hroom, htop, hinside⟩
  · rintro ⟨hroom, htop, hinside⟩
    refine ⟨?_, ?_, ?_⟩
    · rw [tupleCount_setPageLsn, freeSpaceOffset_setPageLsn]
      exact hroom
    · rw [freeSpaceOffset_setPageLsn]
      exact htop
    · rw [tupleCount_setPageLsn, freeSpaceOffset_setPageLsn]
      simp only [hslot]
      exact hinside

theorem getTuple_setPageLsn (h : Valid p) (i : Nat) : (p.setPageLsn lsn).getTuple i = p.getTuple i := by
  have h24 := header_le_slotPos p.tupleCount
  rw [(valid_setPageLsn.2 h).getTuple, h.getTuple, tupleCount_setPageLsn, (slot_setPageLsn i).1,
    (slot_setPageLsn i).2]
  by_cases hlive : i < p.tupleCount ∧ p.slotLen i ≠ 0
  · have hroom := h.room
    have hin := h.inside i hlive.1 hlive.2
    rw [if_pos hlive, if_pos hlive, slice_setPageLsn (Or.inr (by omega))]
  · rw [if_neg hlive, if_neg hlive]

/-- Only the page before the stamp matters. -/
theorem placed_stamped (h : Valid p') : Placed p (p'.setPageLsn lsn) slot data ↔ Placed p p' slot data := by
  constructor
  · rintro ⟨hhere, hothers, -⟩
    rw [getTuple_setPageLsn h] at hhere
    simp only [getTuple_setPageLsn h] at hothers
    exact ⟨hhere, hothers, h⟩
  · rintro ⟨hhere, hothers, -⟩
    refine ⟨?_, ?_, valid_setPageLsn.2 h⟩
    · rw [getTuple_setPageLsn h]
      exact hhere
    · simp only [getTuple_setPageLsn h]
      exact hothers

/-- Past the gate, redo is the change and the stamp. -/
theorem redo_ok_iff {page : UInt32} {slot : UInt16} (hlsn : p.pageLsn < lsn.toNat) :
    redoPage ⟨lsn, .insert page slot data⟩ p = .ok true p' ↔
      ∃ q, placeRaw slot.toNat data p = .ok () q ∧ p' = q.setPageLsn lsn := by
  show gated lsn (placeRaw slot.toNat data) p = _ ↔ _
  unfold gated
  rw [EStateM.bind_of_ok (show (get : RawM RawPage) p = .ok p p from rfl), if_neg (not_le.2 hlsn)]
  constructor
  · intro h
    obtain ⟨u, q, hq, hrest⟩ := EStateM.of_bind_ok h
    cases hrest
    exact ⟨q, hq, rfl⟩
  · rintro ⟨q, hq, rfl⟩
    rw [EStateM.bind_of_ok hq]
    rfl

/-! ## The next slot -/

theorem placeRaw_next (h : Valid p) (hfit : data.length + SLOT_SIZE ≤ p.freeSpace) :
    placeRaw p.tupleCount data p = .ok () (inserted p data) := by
  unfold placeRaw
  rw [EStateM.bind_of_ok (show (get : RawM RawPage) p = .ok p p from rfl), if_neg (Nat.lt_irrefl _),
    if_neg (Nat.lt_irrefl _)]
  obtain ⟨hfull, -⟩ | ⟨-, heq⟩ := @insert_eq p data h.room h.top
  · omega
  · show (RawPage.insert data >>= fun _ => pure ()) p = _
    rw [EStateM.bind_of_ok heq]
    rfl

theorem valid_inserted (h : Valid p) (hfit : data.length + SLOT_SIZE ≤ p.freeSpace) :
    Valid (inserted p data) := by
  have hbelow := below_of_fit hfit
  have htop := h.top
  have hcount := tupleCount_inserted hfit htop
  have hfree := @freeSpaceOffset_inserted p data htop
  refine ⟨?_, ?_, fun i hi hlen => ?_⟩
  · rw [hcount, hfree]
    omega
  · rw [hfree]
    omega
  · rw [hcount] at hi
    rw [hfree]
    rcases Nat.lt_succ_iff_lt_or_eq.1 hi with hlt | rfl
    · rw [(slot_inserted hfit hlt).2] at hlen ⊢
      rw [(slot_inserted hfit hlt).1]
      have hin := h.inside i hlt hlen
      omega
    · rw [slotOff_inserted hfit htop, slotLen_inserted hfit htop]
      omega

theorem placed_next (h : Valid p) (hne : data ≠ []) (hfit : data.length + SLOT_SIZE ≤ p.freeSpace) :
    Placed p (inserted p data) p.tupleCount data := by
  have htop := h.top
  have hvalid := valid_inserted h hfit
  have hcount := tupleCount_inserted hfit htop
  refine ⟨?_, fun i bytes _ hget => ?_, hvalid⟩
  · refine hvalid.getTuple_eq_some.2 ⟨by omega, ?_, ?_⟩
    · rw [slotLen_inserted hfit htop]
      exact fun hz => hne (List.length_eq_zero_iff.1 hz)
    · rw [slotOff_inserted hfit htop, slotLen_inserted hfit htop]
      exact tuple_inserted hfit htop
  · obtain ⟨hlt, hlen, hslice⟩ := h.getTuple_eq_some.1 hget
    have hin := h.inside i hlt hlen
    obtain ⟨hoff, hlen'⟩ := @slot_inserted p i data hfit hlt
    refine hvalid.getTuple_eq_some.2 ⟨by omega, ?_, ?_⟩
    · rw [hlen']
      exact hlen
    · rw [hoff, hlen', data_inserted hfit hin.1]
      exact hslice

/-! ## A gap -/

/-- **The dummy tuple of a gap has no bytes, and `delete` takes it for a tombstone.** -/
theorem redo_gap_fails (h : Valid p) (hgap : p.tupleCount < slot) (hfit : SLOT_SIZE ≤ p.freeSpace) :
    ∃ e q, placeRaw slot data p = .error e q := by
  obtain ⟨n, rfl⟩ : ∃ n, slot = n + 1 := ⟨slot - 1, by omega⟩
  have hfit' : ([] : Bytes).length + SLOT_SIZE ≤ p.freeSpace := by simpa using hfit
  have hvalid := valid_inserted h hfit'
  have hcount := tupleCount_inserted hfit' h.top
  have hdelete : ∃ e, RawPage.delete p.tupleCount (inserted p []) = .error e (inserted p []) := by
    unfold RawPage.delete
    rw [EStateM.bind_of_ok (show (get : RawM RawPage) _ = .ok _ _ from rfl), if_neg (by omega),
      readSlot_eq hvalid (by omega), slotLen_inserted hfit' h.top]
    exact ⟨_, rfl⟩
  obtain ⟨e, he⟩ := hdelete
  have hfill : fillRawGap (n + 1) (n + 1) p = .error e (inserted p []) := by
    rw [fillRawGap, EStateM.bind_of_ok (show (get : RawM RawPage) p = .ok p p from rfl), if_pos hgap]
    obtain ⟨hfull, -⟩ | ⟨-, heq⟩ := @insert_eq p [] h.room h.top
    · omega
    · rw [EStateM.bind_of_ok heq, EStateM.bind_of_error he]
  refine ⟨e, inserted p [], ?_⟩
  unfold placeRaw
  rw [EStateM.bind_of_ok (show (get : RawM RawPage) p = .ok p p from rfl), if_neg (by omega), if_pos hgap,
    EStateM.bind_of_error hfill]

/-! ## A tombstone -/

theorem placeRaw_dead (hlt : slot < p.tupleCount) (hget : p.getTuple slot = .ok none) :
    placeRaw slot data p = RawPage.restore slot data p := by
  unfold placeRaw
  rw [EStateM.bind_of_ok (show (get : RawM RawPage) p = .ok p p from rfl), if_pos hlt, hget]
  rfl

theorem placeRaw_live (hlt : slot < p.tupleCount) (hget : p.getTuple slot = .ok (some bytes)) :
    placeRaw slot data p = .ok () p := by
  unfold placeRaw
  rw [EStateM.bind_of_ok (show (get : RawM RawPage) p = .ok p p from rfl), if_pos hlt, hget]
  rfl

/-- A copy that leaves a slice as it is. -/
theorem slice_copy_eq_iff {off o n : Nat} (hend : o + n ≤ PAGE_SIZE) :
    (p.copy off data).slice o n = p.slice o n ↔ ∀ k, o ≤ k → k < o + n → off ≤ k →
      k < off + data.length → data.getD (k - off) 0 = p.byte k := by
  constructor
  · intro h k hlow hhigh hlow' hhigh'
    have hbyte := byte_eq_of_slice h hlow hhigh
    rw [byte_copy p off data (by omega), if_pos ⟨hlow', hhigh'⟩] at hbyte
    exact hbyte
  · intro h
    refine List.map_congr_left fun j hj => ?_
    have hj := List.mem_range.1 hj
    rw [byte_copy p off data (by omega)]
    split
    · next hin => exact h (o + j) (by omega) (by omega) hin.1 hin.2
    · rfl

/-- A tuple that is put back above the others' bytes keeps them when it agrees with them. -/
theorem placed_revived_iff (h : Valid p) (hlt : slot < p.tupleCount)
    (hne : data ≠ []) (high : p.slotOff slot + data.length ≤ PAGE_SIZE) :
    Placed p (restored p slot data) slot data ↔
      p.freeSpaceOffset ≤ p.slotOff slot ∧
        ∀ i, i < p.tupleCount → i ≠ slot → p.slotLen i ≠ 0 → ∀ k,
          p.slotOff i ≤ k → k < p.slotOff i + p.slotLen i →
          p.slotOff slot ≤ k → k < p.slotOff slot + data.length →
          data.getD (k - p.slotOff slot) 0 = p.byte k := by
  have hroom := h.room
  have h24 := header_le_slotPos p.tupleCount
  have hoff := @slotOff_restored p slot data hlt h
  have hlen := slotLen_restored hlt h high
  have hpos := List.length_pos_iff.2 hne
  have hslots := fun hlow : p.freeSpaceOffset ≤ p.slotOff slot =>
    fun i => @slot_restored p slot i data (Or.inr (by omega))
  constructor
  · intro hplaced
    -- the slot is live, so its offset is above the slot array and the header is untouched
    obtain ⟨hlt', -, -⟩ := hplaced.valid.getTuple_eq_some.1 hplaced.here
    have hin := hplaced.valid.inside slot hlt' (by omega)
    have hroom' := hplaced.valid.room
    have h24' := header_le_slotPos (restored p slot data).tupleCount
    have hfree := @freeSpaceOffset_restored p slot data (Or.inr (by omega))
    have hlow : p.freeSpaceOffset ≤ p.slotOff slot := by omega
    refine ⟨hlow, fun i hi hne' hlive => ?_⟩
    have hini := h.inside i hi hlive
    obtain ⟨hoffi, hleni⟩ := hslots hlow i hi hne'
    have hget := hplaced.others i _ hne' (h.getTuple_eq_some.2 ⟨hi, hlive, rfl⟩)
    obtain ⟨-, -, hslice⟩ := hplaced.valid.getTuple_eq_some.1 hget
    rw [hoffi, hleni, data_restored hlt (by omega)] at hslice
    exact (slice_copy_eq_iff hini.2).1 hslice
  · rintro ⟨hlow, hagree⟩
    have hcount := @tupleCount_restored p slot data (Or.inr (by omega))
    have hfree := @freeSpaceOffset_restored p slot data (Or.inr (by omega))
    have hvalid : Valid (restored p slot data) := by
      refine ⟨by rw [hcount, hfree]; exact hroom, by rw [hfree]; exact h.top, fun i hi hlive => ?_⟩
      rw [hcount] at hi
      rw [hfree]
      by_cases hs : i = slot
      · rw [hs, hoff, hlen]
        exact ⟨hlow, high⟩
      · rw [(hslots hlow i hi hs).2] at hlive ⊢
        rw [(hslots hlow i hi hs).1]
        exact h.inside i hi hlive
    refine ⟨?_, fun i bytes hs hget => ?_, hvalid⟩
    · refine hvalid.getTuple_eq_some.2 ⟨by omega, by omega, ?_⟩
      rw [hoff, hlen, data_restored hlt (by omega)]
      exact slice_copy_self p high
    · obtain ⟨hi, hlive, hslice⟩ := h.getTuple_eq_some.1 hget
      have hini := h.inside i hi hlive
      obtain ⟨hoffi, hleni⟩ := hslots hlow i hi hs
      refine hvalid.getTuple_eq_some.2 ⟨by omega, by omega, ?_⟩
      rw [hoffi, hleni, data_restored hlt (by omega),
        (slice_copy_eq_iff hini.2).2 (hagree i hi hs hlive)]
      exact hslice

/-! ## All slots -/

/-- The result of redo is the stamped page after the change. -/
theorem exists_placed_iff {page : UInt32} {slot : UInt16} (hlsn : p.pageLsn < lsn.toNat) :
    (∃ p', redoPage ⟨lsn, .insert page slot data⟩ p = .ok true p' ∧ Placed p p' slot.toNat data) ↔
      ∃ q, placeRaw slot.toNat data p = .ok () q ∧ Placed p q slot.toNat data := by
  constructor
  · rintro ⟨p', hredo, hplaced⟩
    obtain ⟨q, hq, rfl⟩ := (redo_ok_iff hlsn).1 hredo
    exact ⟨q, hq, (placed_stamped (valid_setPageLsn.1 hplaced.valid)).1 hplaced⟩
  · rintro ⟨q, hq, hplaced⟩
    exact ⟨_, (redo_ok_iff hlsn).2 ⟨q, hq, rfl⟩, (placed_stamped hplaced.valid).2 hplaced⟩

theorem valid_new (pageId : Nat) : Valid (RawPage.new pageId) := (kept_fresh pageId).valid

/-- **`redo_insert` does what it is for exactly where the bytes land.** -/
theorem redo_insert_places_iff {page : UInt32} {slot : UInt16} (h : Valid p)
    (hlsn : p.pageLsn < lsn.toNat) (hne : data ≠ [])
    (hfit : data.length + SLOT_SIZE * (slot.toNat + 1 - p.tupleCount) ≤ p.freeSpace) :
    Places p page slot data lsn ↔ Lands p slot.toNat data := by
  unfold Places
  rw [exists_placed_iff hlsn]
  rcases Nat.lt_trichotomy slot.toNat p.tupleCount with hlt | heq | hgap
  · by_cases hdead : p.slotLen slot.toNat = 0
    · have hget : p.getTuple slot.toNat = .ok none := by
        rw [h.getTuple, if_neg fun hc => hc.2 hdead]
      rw [placeRaw_dead hlt hget]
      constructor
      · rintro ⟨hplaces, -⟩
        obtain ⟨q, hq, hplaced⟩ := hplaces (Or.inr hget)
        obtain ⟨-, -, high, rfl⟩ := (restore_ok_iff h).1 hq
        obtain ⟨hlow, hagree⟩ := (placed_revived_iff h hlt hne high).1 hplaced
        exact .revived hlt hdead hlow high hagree
      · intro hlands
        refine ⟨fun _ => ?_, fun bytes hlive => ?_⟩
        · cases hlands with
          | appended next => omega
          | revived _ _ hlow high hagree =>
            exact ⟨_, (restore_ok_iff h).2 ⟨hlt, hdead, high, rfl⟩,
              (placed_revived_iff h hlt hne high).2 ⟨hlow, hagree⟩⟩
          | there same =>
            rw [hget] at same
            cases same
        · rw [hget] at hlive
          cases hlive
    · have hget : p.getTuple slot.toNat = .ok (some _) := h.getTuple_eq_some.2 ⟨hlt, hdead, rfl⟩
      have hplace := @placeRaw_live _ _ data _ hlt hget
      constructor
      · rintro ⟨-, hsame⟩
        have hdata := hsame _ hget _ ((redo_ok_iff hlsn).2 ⟨p, hplace, rfl⟩)
        exact .there (hdata ▸ hget)
      · intro hlands
        refine ⟨fun hfree => ?_, fun bytes hlive p' _ => ?_⟩
        · rcases hfree with hle | hnone
          · omega
          · rw [hget] at hnone
            cases hnone
        · cases hlands with
          | appended next => omega
          | revived _ hdead' => exact absurd hdead' hdead
          | there same =>
            rw [same] at hlive
            cases hlive
            rfl
  · rw [heq, Nat.add_sub_cancel_left, Nat.mul_one] at hfit
    rw [heq]
    refine ⟨fun _ => .appended rfl, fun _ => ⟨fun _ => ?_, fun bytes hlive => ?_⟩⟩
    · exact ⟨_, placeRaw_next h hfit, placed_next h hne hfit⟩
    · have hlt := (h.getTuple_eq_some.1 hlive).1
      omega
  · obtain ⟨e, q, herror⟩ := @redo_gap_fails p slot.toNat data h hgap (by
      have hone : 1 ≤ slot.toNat + 1 - p.tupleCount := by omega
      have hmul := Nat.mul_le_mul_left SLOT_SIZE hone
      omega)
    constructor
    · rintro ⟨hplaces, -⟩
      obtain ⟨q', hq', -⟩ := hplaces (Or.inl (Nat.le_of_lt hgap))
      rw [herror] at hq'
      cases hq'
    · intro hlands
      cases hlands with
      | appended next => omega
      | revived hlt => omega
      | there same =>
        have hlt := (h.getTuple_eq_some.1 same).1
        omega

/-- Three tuples, the second of them deleted. -/
def deletedSecond : Traced :=
  after step (fresh 0) [.insert [1, 2], .insert [3, 4], .insert [5, 6], .delete 1]

theorem valid_deletedSecond : Valid deletedSecond.page := by
  have hrun : Follows step Careful (fresh 0)
      [.insert [1, 2], .insert [3, 4], .insert [5, 6], .delete 1] := by decide +kernel
  exact (hrun.invariant (fun h ha hs => Kept.step h ha hs) (kept_fresh 0)).valid

/-- The deleted tuple is put back between the other two. -/
theorem redo_insert_places_revived :
    deletedSecond.page.getTuple 1 = .ok none ∧
    deletedSecond.page.getTuple 2 = .ok (some [5, 6]) ∧
    Places deletedSecond.page 0 1 [3, 4] 5 := by
  have hapart : ∀ i, i < deletedSecond.page.tupleCount → i ≠ 1 →
      deletedSecond.page.slotOff i + deletedSecond.page.slotLen i ≤ deletedSecond.page.slotOff 1 ∨
        deletedSecond.page.slotOff 1 + 2 ≤ deletedSecond.page.slotOff i := by decide +kernel
  refine ⟨by decide +kernel, by decide +kernel, (redo_insert_places_iff valid_deletedSecond
    (by decide +kernel) (by decide) (by decide +kernel)).2 (.revived (by decide +kernel)
      (by decide +kernel) (by decide +kernel) (by decide +kernel) fun i hi hne _ k h₁ h₂ h₃ h₄ => ?_)⟩
  have h := hapart i hi hne
  have h₃ : deletedSecond.page.slotOff 1 ≤ k := h₃
  have h₄ : k < deletedSecond.page.slotOff 1 + 2 := h₄
  omega

/-- **A gap of one slot**: the record that comes second is redone on an empty page. -/
theorem redo_insert_gap : ¬ ∀ (p : RawPage) (page : UInt32) (slot : UInt16) (data : Bytes) (lsn : UInt64),
    Valid p → p.pageLsn < lsn.toNat → data ≠ [] →
    data.length + SLOT_SIZE * (slot.toNat + 1 - p.tupleCount) ≤ p.freeSpace →
    Places p page slot data lsn := by
  intro hall
  obtain ⟨hplaces, -⟩ := hall (RawPage.new 0) 0 1 [7] 1 (valid_new 0) (by decide +kernel) (by decide)
    (by decide +kernel)
  obtain ⟨p', hredo, -⟩ := hplaces (Or.inl (by decide +kernel))
  obtain ⟨q, hq, -⟩ := (redo_ok_iff (by decide +kernel)).1 hredo
  obtain ⟨e, q', herror⟩ := @redo_gap_fails (RawPage.new 0) 1 [7] (valid_new 0) (by decide +kernel)
    (by decide +kernel)
  rw [show (1 : UInt16).toNat = 1 from rfl, herror] at hq
  cases hq

end Ccdb.RedoInsert
