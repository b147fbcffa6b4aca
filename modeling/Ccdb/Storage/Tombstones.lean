import Ccdb.Lib.Guarantee
import Ccdb.Lib.Runs
import Ccdb.Storage.SlottedPage
import Mathlib.Algebra.Order.BigOperators.Group.List

/-!
# Ccdb — deleted slots and `restore`

`delete` keeps the offset of the slot, and `restore` writes the bytes back there. The
space of a deleted slot stays its own until a compaction clears the slot array, or a
longer tuple is restored in it: `capacity` is the space a slot has, and the spaces of all
slots, live or deleted, stand apart.

Main results:

* `insert_eq`, `restore_ok_iff` — what the two operations write.
* `restore_undoes_delete` — in runs that leave deleted slots their space.
* `compaction_loses_offset` — a compaction between the two puts the tuple over the header.
-/

namespace Ccdb.Tombstones

open RawPage hiding Follows

/-! ## Pages in order -/

/-- The slot array ends before the tuple data, and the live tuples are in the data. -/
structure Valid (p : RawPage) : Prop where
  room : slotPos p.tupleCount ≤ p.freeSpaceOffset
  top : p.freeSpaceOffset ≤ PAGE_SIZE
  inside : ∀ i, i < p.tupleCount → p.slotLen i ≠ 0 →
    p.freeSpaceOffset ≤ p.slotOff i ∧ p.slotOff i + p.slotLen i ≤ PAGE_SIZE

variable {p p' : RawPage} {slot i : Nat} {data bytes : Bytes}

theorem readSlot_eq (h : Valid p) (hi : i < p.tupleCount) :
    p.readSlot i = .ok (p.slotOff i, p.slotLen i) := by
  have hpos := slotPos_mono hi
  have hroom := h.room
  have htop := h.top
  rw [RawPage.readSlot, if_pos (by omega)]
  rfl

theorem Valid.getTuple (h : Valid p) (i : Nat) :
    p.getTuple i = .ok (if i < p.tupleCount ∧ p.slotLen i ≠ 0 then
      some (p.slice (p.slotOff i) (p.slotLen i)) else none) := by
  unfold RawPage.getTuple
  by_cases hi : i < p.tupleCount
  · rw [if_neg (by omega), readSlot_eq h hi]
    simp only [bind, Except.bind]
    by_cases hlen : p.slotLen i = 0
    · rw [if_pos hlen, if_neg fun hc => hc.2 hlen]
    · rw [if_neg hlen, if_pos (h.inside i hi hlen).2, if_pos ⟨hi, hlen⟩]
  · rw [if_pos (by omega), if_neg fun hc => hi hc.1]

theorem Valid.getTuple_eq_some (h : Valid p) : p.getTuple i = .ok (some bytes) ↔
    i < p.tupleCount ∧ p.slotLen i ≠ 0 ∧ p.slice (p.slotOff i) (p.slotLen i) = bytes := by
  rw [h.getTuple, Except.ok.injEq]
  by_cases hlive : i < p.tupleCount ∧ p.slotLen i ≠ 0
  · rw [if_pos hlive, Option.some.injEq]
    exact ⟨fun hb => ⟨hlive.1, hlive.2, hb⟩, fun hb => hb.2.2⟩
  · rw [if_neg hlive]
    exact ⟨fun hb => (by cases hb), fun hb => absurd ⟨hb.1, hb.2.1⟩ hlive⟩

theorem copy_nil (p : RawPage) (off : Nat) : p.copy off [] = p := by
  funext i
  exact if_neg fun h => by
    rw [List.length_nil] at h
    omega

/-! ## What `insert` writes -/

/-- The page after `insert`. -/
def inserted (p : RawPage) (data : Bytes) : RawPage :=
  let off := p.freeSpaceOffset - data.length
  ((((p.copy off data).setSlot p.tupleCount off data.length).setTupleCount
    (p.tupleCount + 1)).setFreeSpaceOffset off).setAllVisible false

theorem insert_eq (hroom : slotPos p.tupleCount ≤ p.freeSpaceOffset)
    (htop : p.freeSpaceOffset ≤ PAGE_SIZE) :
    (p.freeSpace < data.length + SLOT_SIZE ∧ ∃ e, RawPage.insert data p = .error e p) ∨
      (data.length + SLOT_SIZE ≤ p.freeSpace ∧
        RawPage.insert data p = .ok p.tupleCount (inserted p data)) := by
  unfold RawPage.insert
  simp only [bind, EStateM.bind, get, getThe, MonadStateOf.get, EStateM.get]
  by_cases hfull : p.freeSpace < data.length + SLOT_SIZE
  · rw [if_pos hfull]
    exact Or.inl ⟨hfull, _, rfl⟩
  · refine Or.inr ⟨not_lt.1 hfull, ?_⟩
    rw [if_neg hfull]
    have hfree : slotPos p.tupleCount + (data.length + 4) ≤ p.freeSpaceOffset := by
      simp only [freeSpace, SLOT_SIZE] at hfull
      simp only [slotPos, SLOT_SIZE] at hroom ⊢
      omega
    have hfit : p.freeSpaceOffset - data.length + data.length ≤ PAGE_SIZE := by omega
    simp only [copyAt, if_pos hfit, EStateM.bind]
    rw [writeSlot_eq _ _ _ (by omega)]
    rfl

section Inserted

/-- The tuple is below the others and leaves room for its slot. -/
theorem below_of_fit (hfit : data.length + SLOT_SIZE ≤ p.freeSpace) :
    slotPos (p.tupleCount + 1) + data.length ≤ p.freeSpaceOffset := by
  simp only [freeSpace, slotPos, SLOT_SIZE] at hfit ⊢
  omega

theorem tupleCount_inserted (hfit : data.length + SLOT_SIZE ≤ p.freeSpace)
    (htop : p.freeSpaceOffset ≤ PAGE_SIZE) : (inserted p data).tupleCount = p.tupleCount + 1 := by
  have hbelow := below_of_fit hfit
  unfold inserted RawPage.setAllVisible setFreeSpaceOffset setTupleCount RawPage.tupleCount
  rw [field_copy_disjoint _ (Or.inl (by decide)), field_setField_disjoint _ (Or.inl (by decide)),
    field_setField _ (by decide)]
  refine Nat.mod_eq_of_lt ?_
  simp only [slotPos, HEADER_SIZE, SLOT_SIZE, PAGE_SIZE, RawPage.tupleCount] at hbelow htop ⊢
  omega

theorem freeSpaceOffset_inserted (htop : p.freeSpaceOffset ≤ PAGE_SIZE) :
    (inserted p data).freeSpaceOffset = p.freeSpaceOffset - data.length := by
  unfold inserted RawPage.setAllVisible setFreeSpaceOffset RawPage.freeSpaceOffset
  rw [field_copy_disjoint _ (Or.inl (by decide)), field_setField _ (by decide)]
  exact Nat.mod_eq_of_lt (Nat.lt_of_le_of_lt ((Nat.sub_le _ _).trans htop) (by decide))

/-- Past the header, only the tuple and its slot are written. -/
theorem slice_inserted {o n : Nat} (ho : 24 ≤ o) :
    (inserted p data).slice o n =
      ((p.copy (p.freeSpaceOffset - data.length) data).setSlot p.tupleCount
        (p.freeSpaceOffset - data.length) data.length).slice o n := by
  unfold inserted RawPage.setAllVisible setFreeSpaceOffset setTupleCount
  rw [slice_copy_disjoint _ (Or.inr (by simp; omega)), slice_setField_disjoint _ (Or.inr (by omega)),
    slice_setField_disjoint _ (Or.inr (by omega))]

theorem slot_inserted (hfit : data.length + SLOT_SIZE ≤ p.freeSpace) (hi : i < p.tupleCount) :
    (inserted p data).slotOff i = p.slotOff i ∧ (inserted p data).slotLen i = p.slotLen i := by
  have h24 := header_le_slotPos i
  have hbelow := below_of_fit hfit
  have hpos := slotPos_mono hi
  have hpos' := slotPos_succ p.tupleCount
  have hset := slot_setSlot_ne (p.copy (p.freeSpaceOffset - data.length) data) (Nat.ne_of_lt hi)
    (p.freeSpaceOffset - data.length) data.length
  have hcopy := slot_copy p (show slotPos i + 4 ≤ p.freeSpaceOffset - data.length by omega) data
  refine ⟨Eq.trans ?_ (hset.1.trans hcopy.1), Eq.trans ?_ (hset.2.trans hcopy.2)⟩
  · unfold slotOff field
    rw [slice_inserted h24]
  · unfold slotLen field
    rw [slice_inserted (by omega)]

variable (hfit : data.length + SLOT_SIZE ≤ p.freeSpace) (htop : p.freeSpaceOffset ≤ PAGE_SIZE)

include hfit htop

theorem slotOff_inserted :
    (inserted p data).slotOff p.tupleCount = p.freeSpaceOffset - data.length := by
  have h24 := header_le_slotPos p.tupleCount
  have hbelow := below_of_fit hfit
  have hpos := slotPos_succ p.tupleCount
  refine Eq.trans ?_ (@slotOff_setSlot (p.copy (p.freeSpaceOffset - data.length) data)
    p.tupleCount _ data.length (by omega) (by omega))
  unfold slotOff field
  rw [slice_inserted h24]

theorem slotLen_inserted : (inserted p data).slotLen p.tupleCount = data.length := by
  have h24 := header_le_slotPos p.tupleCount
  have hbelow := below_of_fit hfit
  have hpos := slotPos_succ p.tupleCount
  refine Eq.trans ?_ (@slotLen_setSlot (p.copy (p.freeSpaceOffset - data.length) data)
    p.tupleCount (p.freeSpaceOffset - data.length) _ (by omega) (by omega))
  unfold slotLen field
  rw [slice_inserted (by omega)]

omit htop in
/-- The tuples there are keep their bytes. -/
theorem data_inserted {o n : Nat} (ho : p.freeSpaceOffset ≤ o) :
    (inserted p data).slice o n = p.slice o n := by
  have h24 := header_le_slotPos (p.tupleCount + 1)
  have hbelow := below_of_fit hfit
  have hpos := slotPos_succ p.tupleCount
  rw [slice_inserted (by omega), slice_setSlot _ (Or.inr (by omega)),
    slice_copy_disjoint _ (Or.inr (by omega))]

theorem tuple_inserted :
    (inserted p data).slice (p.freeSpaceOffset - data.length) data.length = data := by
  have h24 := header_le_slotPos (p.tupleCount + 1)
  have hbelow := below_of_fit hfit
  have hpos := slotPos_succ p.tupleCount
  rw [slice_inserted (by omega), slice_setSlot _ (Or.inr (by omega))]
  exact slice_copy_self p (by omega)

end Inserted

/-! ## What `restore` writes -/

/-- The page after `restore`. -/
def restored (p : RawPage) (slot : Nat) (data : Bytes) : RawPage :=
  ((p.copy (p.slotOff slot) data).setSlot slot (p.slotOff slot) data.length).setAllVisible false

theorem restore_ok_iff (h : Valid p) : RawPage.restore slot data p = .ok () p' ↔
    slot < p.tupleCount ∧ p.slotLen slot = 0 ∧ p.slotOff slot + data.length ≤ PAGE_SIZE ∧
      p' = restored p slot data := by
  unfold RawPage.restore
  simp only [bind, EStateM.bind, get, getThe, MonadStateOf.get, EStateM.get]
  by_cases hslot : p.tupleCount ≤ slot
  · rw [if_pos hslot]
    exact ⟨fun h => (by cases h), fun h => absurd h.1 (by omega)⟩
  · have hlt := not_le.1 hslot
    rw [if_neg hslot, readSlot_eq h hlt]
    simp only [check, EStateM.bind]
    by_cases hlen : p.slotLen slot = 0
    · rw [if_neg (not_not.2 hlen)]
      by_cases hend : PAGE_SIZE < p.slotOff slot + data.length
      · rw [if_pos hend]
        exact ⟨fun h => (by cases h), fun h => absurd h.2.2.1 (by omega)⟩
      · have hroom := h.room
        have htop := h.top
        have hpos := slotPos_mono hlt
        have hmod : data.length % 2 ^ 16 = data.length :=
          Nat.mod_eq_of_lt (Nat.lt_of_le_of_lt (by omega : data.length ≤ PAGE_SIZE) (by decide))
        have hcopy : copyAt (p.slotOff slot) data p = .ok () (p.copy (p.slotOff slot) data) :=
          if_pos (not_lt.1 hend)
        have hwrite := @writeSlot_eq (p.copy (p.slotOff slot) data) slot (p.slotOff slot)
          data.length (by omega)
        rw [if_neg hend, hmod]
        simp only [EStateM.bind, hcopy, hwrite]
        constructor
        · intro hok
          cases hok
          exact ⟨hlt, hlen, not_lt.1 hend, rfl⟩
        · rintro ⟨-, -, -, rfl⟩
          rfl
    · rw [if_pos hlen]
      exact ⟨fun h => (by cases h), fun h => absurd h.2.1 hlen⟩

theorem slotOff_lt (p : RawPage) (slot : Nat) : p.slotOff slot < 256 ^ 2 := by
  have h := fromLe_lt (p.slice (slotPos slot) 2)
  rwa [slice_length] at h

section Restored

theorem slice_restored {o n : Nat} (ho : o + n ≤ 22 ∨ 23 ≤ o) :
    (restored p slot data).slice o n =
      ((p.copy (p.slotOff slot) data).setSlot slot (p.slotOff slot) data.length).slice o n := by
  unfold restored RawPage.setAllVisible
  rw [slice_copy_disjoint _ (by simp; omega)]

/-- What is in front of the tuple and not in the slot stays. -/
theorem front_restored {o n : Nat} (hdata : data = [] ∨ o + n ≤ p.slotOff slot)
    (ho : o + n ≤ 22 ∨ 23 ≤ o) (hs : o + n ≤ slotPos slot ∨ slotPos slot + 4 ≤ o) :
    (restored p slot data).slice o n = p.slice o n := by
  rw [slice_restored ho, slice_setSlot _ hs]
  rcases hdata with rfl | hdata
  · rw [copy_nil]
  · rw [slice_copy_disjoint _ (Or.inl hdata)]

theorem header_restored {o n : Nat} (hdata : data = [] ∨ 24 ≤ p.slotOff slot)
    (ho : o + n ≤ 22 ∨ 23 ≤ o) (hend : o + n ≤ 24) :
    (restored p slot data).slice o n = p.slice o n := by
  have h24 := header_le_slotPos slot
  exact front_restored (hdata.imp_right fun h => by omega) ho (by omega)

theorem tupleCount_restored (hdata : data = [] ∨ 24 ≤ p.slotOff slot) :
    (restored p slot data).tupleCount = p.tupleCount :=
  congrArg fromLe (header_restored hdata (Or.inl (by decide)) (by decide))

theorem freeSpaceOffset_restored (hdata : data = [] ∨ 24 ≤ p.slotOff slot) :
    (restored p slot data).freeSpaceOffset = p.freeSpaceOffset :=
  congrArg fromLe (header_restored hdata (Or.inl (by decide)) (by decide))

theorem slot_restored (hdata : data = [] ∨ slotPos p.tupleCount ≤ p.slotOff slot)
    (hi : i < p.tupleCount) (hne : i ≠ slot) :
    (restored p slot data).slotOff i = p.slotOff i ∧
      (restored p slot data).slotLen i = p.slotLen i := by
  have h24 := header_le_slotPos i
  have hend := slotPos_mono hi
  have hpos : slotPos i + 4 ≤ slotPos slot ∨ slotPos slot + 4 ≤ slotPos i := by
    rcases Nat.lt_or_gt_of_ne hne with hlt | hlt
    · exact Or.inl (slotPos_mono hlt)
    · exact Or.inr (slotPos_mono hlt)
  exact ⟨congrArg fromLe (front_restored (hdata.imp_right fun h => by omega) (by omega) (by omega)),
    congrArg fromLe (front_restored (hdata.imp_right fun h => by omega) (by omega) (by omega))⟩

variable (hslot : slot < p.tupleCount)

include hslot

theorem slotOff_restored (h : Valid p) : (restored p slot data).slotOff slot = p.slotOff slot := by
  have h24 := header_le_slotPos slot
  have hpos := slotPos_mono hslot
  have hroom := h.room
  have htop := h.top
  refine (congrArg fromLe (slice_restored (Or.inr (by omega)))).trans ?_
  show ((p.copy (p.slotOff slot) data).setSlot slot (p.slotOff slot) data.length).slotOff slot = _
  rw [slotOff, setSlot, field_setField_disjoint _ (by omega), field_setField _ (by omega)]
  exact Nat.mod_eq_of_lt (slotOff_lt p slot)

theorem slotLen_restored (h : Valid p) (hend : p.slotOff slot + data.length ≤ PAGE_SIZE) :
    (restored p slot data).slotLen slot = data.length := by
  have h24 := header_le_slotPos slot
  have hpos := slotPos_mono hslot
  have hroom := h.room
  have htop := h.top
  exact (congrArg fromLe (slice_restored (Or.inr (by omega)))).trans
    (slotLen_setSlot (p.copy (p.slotOff slot) data) (by omega) (by omega))

/-- Above the slot array, only the tuple is written. -/
theorem data_restored {o n : Nat} (ho : slotPos p.tupleCount ≤ o) :
    (restored p slot data).slice o n = (p.copy (p.slotOff slot) data).slice o n := by
  have h24 := header_le_slotPos p.tupleCount
  have hpos := slotPos_mono hslot
  rw [slice_restored (Or.inr (by omega)), slice_setSlot _ (Or.inr (by omega))]

end Restored

/-! ## Runs -/

/-- A page, and what each slot held when it was last deleted. -/
structure Traced where
  page : RawPage
  held : Nat → Option Bytes

/-- `Page::new`. -/
def fresh (pageId : Nat) : Traced := ⟨RawPage.new pageId, fun _ => none⟩

inductive Act where
  | insert (data : Bytes)
  | delete (slot : Nat)
  | vacuumCompact
  | restore (slot : Nat) (data : Bytes)

/-- What `get_tuple` finds, if it does not panic. -/
def contents (p : RawPage) (slot : Nat) : Option Bytes :=
  match p.getTuple slot with
  | .ok found => found
  | .error _ => none

/-- An operation that returns `Ok`. -/
def step (s : Traced) : Act → Option Traced
  | .insert data =>
    match RawPage.insert data s.page with
    | .ok _ p => some { s with page := p }
    | .error _ _ => none
  | .delete slot =>
    match RawPage.delete slot s.page with
    | .ok _ p => some ⟨p, Function.update s.held slot (contents s.page slot)⟩
    | .error _ _ => none
  | .vacuumCompact =>
    match RawPage.vacuumCompact s.page with
    | .ok _ p => some { s with page := p }
    | .error _ _ => none
  | .restore slot data =>
    match RawPage.restore slot data s.page with
    | .ok _ p => some { s with page := p }
    | .error _ _ => none

/-- **The slot has the bytes again, and nothing else has changed**: no other slot, and of the
header at most the all-visible byte. -/
structure Undoes (p p' : RawPage) (slot : Nat) (bytes : Bytes) : Prop where
  back : p'.getTuple slot = .ok (some bytes)
  others : ∀ i, i ≠ slot → p'.getTuple i = p.getTuple i
  count : p'.tupleCount = p.tupleCount
  header : ∀ i, i < HEADER_SIZE → i ≠ 22 → p'.byte i = p.byte i

/-- Deleted slots keep their space: none is there when the page is compacted, and none gets a
longer tuple than it had. -/
def Careful (s : Traced) : Act → Prop
  | .vacuumCompact => ∀ slot, slot < s.page.tupleCount → s.page.slotLen slot = 0 → s.held slot = none
  | .restore slot data => data.length ≤ ((s.held slot).getD []).length
  | _ => True

instance (s : Traced) : ∀ a, Decidable (Careful s a)
  | .vacuumCompact => inferInstanceAs
      (Decidable (∀ slot, slot < s.page.tupleCount → s.page.slotLen slot = 0 → s.held slot = none))
  | .restore slot data => inferInstanceAs (Decidable (data.length ≤ ((s.held slot).getD []).length))
  | .insert _ => isTrue trivial
  | .delete _ => isTrue trivial

/-! ## The space of a slot -/

/-- The bytes at the offset of a slot that are its own. -/
def capacity (s : Traced) (i : Nat) : Nat :=
  if s.page.slotLen i = 0 then ((s.held i).getD []).length else s.page.slotLen i

def totalCapacity (s : Traced) : Nat := ((List.range s.page.tupleCount).map (capacity s)).sum

/-- **The spaces of all slots stand apart**, above the slot array. -/
structure Kept (s : Traced) : Prop where
  room : slotPos s.page.tupleCount ≤ s.page.freeSpaceOffset
  budget : s.page.freeSpaceOffset + totalCapacity s ≤ PAGE_SIZE
  inside : ∀ i, i < s.page.tupleCount → capacity s i ≠ 0 →
    s.page.freeSpaceOffset ≤ s.page.slotOff i ∧ s.page.slotOff i + capacity s i ≤ PAGE_SIZE
  apart : ∀ i j, i < s.page.tupleCount → j < s.page.tupleCount → i ≠ j → capacity s i ≠ 0 →
    capacity s j ≠ 0 → s.page.slotOff i + capacity s i ≤ s.page.slotOff j ∨
      s.page.slotOff j + capacity s j ≤ s.page.slotOff i
  fresh : ∀ i, s.page.tupleCount ≤ i → s.held i = none
  nonempty : ∀ i, s.held i ≠ some []

variable {s s' : Traced}

theorem capacity_live (h : s.page.slotLen i ≠ 0) : capacity s i = s.page.slotLen i := if_neg h

theorem capacity_deleted (h : s.page.slotLen i = 0) : capacity s i = ((s.held i).getD []).length :=
  if_pos h

theorem Kept.top (h : Kept s) : s.page.freeSpaceOffset ≤ PAGE_SIZE :=
  (Nat.le_add_right _ _).trans h.budget

theorem Kept.valid (h : Kept s) : Valid s.page where
  room := h.room
  top := h.top
  inside i hi hlen := by
    have hcap := capacity_live hlen
    rw [← hcap]
    exact h.inside i hi (hcap ▸ hlen)

/-- Slots that stay where they are, with no more space than before. -/
theorem Kept.shrink (h : Kept s) (hcount : s'.page.tupleCount = s.page.tupleCount)
    (hfree : s'.page.freeSpaceOffset = s.page.freeSpaceOffset)
    (hoff : ∀ i, i < s.page.tupleCount → s'.page.slotOff i = s.page.slotOff i)
    (hcap : ∀ i, i < s.page.tupleCount → capacity s' i ≤ capacity s i)
    (hfresh : ∀ i, s.page.tupleCount ≤ i → s'.held i = none) (hnonempty : ∀ i, s'.held i ≠ some []) :
    Kept s' where
  room := by
    rw [hcount, hfree]
    exact h.room
  budget := by
    have hle : totalCapacity s' ≤ totalCapacity s := by
      unfold totalCapacity
      rw [hcount]
      exact List.sum_le_sum fun i hi => hcap i (List.mem_range.1 hi)
    rw [hfree]
    exact (Nat.add_le_add_left hle _).trans h.budget
  inside i hi hne := by
    rw [hcount] at hi
    have hle := hcap i hi
    obtain ⟨hlow, hend⟩ := h.inside i hi (by omega)
    rw [hfree, hoff i hi]
    omega
  apart i j hi hj hij hci hcj := by
    rw [hcount] at hi hj
    have hlei := hcap i hi
    have hlej := hcap j hj
    have hapart := h.apart i j hi hj hij (by omega) (by omega)
    rw [hoff i hi, hoff j hj]
    omega
  fresh i hi := hfresh i (hcount ▸ hi)
  nonempty := hnonempty

theorem kept_fresh (pageId : Nat) : Kept (fresh pageId) := by
  have h := holds_new pageId
  have hcount : (fresh pageId).page.tupleCount = 0 := h.count
  refine ⟨?_, ?_, fun i hi => ?_, fun i j hi => ?_, fun _ _ => rfl, fun i hi => by cases hi⟩
  · rw [hcount]
    exact h.packed.room
  · unfold totalCapacity
    rw [hcount]
    exact h.packed.top
  · omega
  · omega

/-! ## One operation -/

theorem Kept.insert (h : Kept s) {id : Nat} (hok : RawPage.insert data s.page = .ok id p') :
    Kept { s with page := p' } := by
  have htop := h.top
  obtain ⟨-, e, herr⟩ | ⟨hfit, heq⟩ := @insert_eq s.page data h.room htop
  · rw [herr] at hok
    cases hok
  · rw [heq] at hok
    cases hok
    have hbelow := below_of_fit hfit
    have hcount := tupleCount_inserted hfit htop
    have hfree := @freeSpaceOffset_inserted s.page data htop
    have hnew := slotLen_inserted hfit htop
    have hnewOff := slotOff_inserted hfit htop
    have hcapNew : capacity { s with page := inserted s.page data } s.page.tupleCount = data.length := by
      unfold capacity
      rw [hnew, h.fresh _ (Nat.le_refl _)]
      split
      · next hnil => exact hnil.symm
      · rfl
    have hcapOld : ∀ i, i < s.page.tupleCount →
        capacity { s with page := inserted s.page data } i = capacity s i := by
      intro i hi
      unfold capacity
      rw [(slot_inserted hfit hi).2]
    have htotal : totalCapacity { s with page := inserted s.page data } =
        totalCapacity s + data.length := by
      have hold : (List.range s.page.tupleCount).map (capacity { s with page := inserted s.page data }) =
          (List.range s.page.tupleCount).map (capacity s) :=
        List.map_congr_left fun i hi => hcapOld i (List.mem_range.1 hi)
      unfold totalCapacity
      rw [hcount, List.range_succ, List.map_append, List.sum_append, List.map_singleton,
        List.sum_singleton, hcapNew, hold]
    have hbudget := h.budget
    refine ⟨?_, ?_, fun i hi hne => ?_, fun i j hi hj hij hci hcj => ?_, fun i hi => ?_, h.nonempty⟩
    · rw [hcount, hfree]
      omega
    · rw [hfree, htotal]
      omega
    · rw [hcount] at hi
      rw [hfree]
      rcases Nat.lt_succ_iff_lt_or_eq.1 hi with hlt | rfl
      · rw [hcapOld i hlt] at hne ⊢
        rw [(slot_inserted hfit hlt).1]
        have hin := h.inside i hlt hne
        omega
      · rw [hnewOff, hcapNew]
        omega
    · rw [hcount] at hi hj
      rcases Nat.lt_succ_iff_lt_or_eq.1 hi with hlti | rfl
      · rw [hcapOld i hlti] at hci ⊢
        rw [(slot_inserted hfit hlti).1]
        rcases Nat.lt_succ_iff_lt_or_eq.1 hj with hltj | rfl
        · rw [hcapOld j hltj] at hcj ⊢
          rw [(slot_inserted hfit hltj).1]
          exact h.apart i j hlti hltj hij hci hcj
        · rw [hnewOff, hcapNew]
          have hin := h.inside i hlti hci
          omega
      · have hltj : j < s.page.tupleCount := by omega
        rw [hcapOld j hltj] at hcj ⊢
        rw [(slot_inserted hfit hltj).1, hnewOff, hcapNew]
        have hin := h.inside j hltj hcj
        omega
    · rw [hcount] at hi
      exact h.fresh i (by omega)

theorem delete_ok (h : Valid p) (hok : RawPage.delete slot p = .ok () p') :
    slot < p.tupleCount ∧ p.slotLen slot ≠ 0 ∧ p' = p.setSlot slot (p.slotOff slot) 0 := by
  unfold RawPage.delete at hok
  simp only [bind, EStateM.bind, get, getThe, MonadStateOf.get, EStateM.get] at hok
  by_cases hslot : p.tupleCount ≤ slot
  · rw [if_pos hslot] at hok
    cases hok
  · have hlt := not_le.1 hslot
    rw [if_neg hslot, readSlot_eq h hlt] at hok
    simp only [check, EStateM.bind] at hok
    by_cases hlen : p.slotLen slot = 0
    · rw [if_pos hlen] at hok
      cases hok
    · have hpos := slotPos_mono hlt
      have hroom := h.room
      have htop := h.top
      rw [if_neg hlen, writeSlot_eq _ _ _ (by omega)] at hok
      cases hok
      exact ⟨hlt, hlen, rfl⟩

theorem contents_eq (h : Valid p) (i : Nat) : contents p i = if i < p.tupleCount ∧ p.slotLen i ≠ 0 then
    some (p.slice (p.slotOff i) (p.slotLen i)) else none := by
  unfold contents
  rw [h.getTuple]

/-- What a live slot holds. -/
theorem contents_live (h : Valid p) (hi : i < p.tupleCount) (hlen : p.slotLen i ≠ 0) :
    contents p i = some (p.slice (p.slotOff i) (p.slotLen i)) :=
  (contents_eq h i).trans (if_pos ⟨hi, hlen⟩)

theorem Kept.delete (h : Kept s) (hok : RawPage.delete slot s.page = .ok () p') :
    Kept ⟨p', Function.update s.held slot (contents s.page slot)⟩ := by
  obtain ⟨hlt, hlen, rfl⟩ := delete_ok h.valid hok
  have hroom := h.room
  have htop := h.top
  have hpos := slotPos_mono hlt
  have hheld := contents_live h.valid hlt hlen
  obtain ⟨hcount, hfree⟩ := Holds.setSlot_header s.page slot (s.page.slotOff slot) 0
  have hin := h.inside slot hlt (by rw [capacity_live hlen]; exact hlen)
  refine h.shrink hcount hfree (fun i hi => ?_) (fun i hi => ?_) (fun i hi => ?_) fun i => ?_
  · by_cases hs : i = slot
    · rw [hs]
      exact slotOff_setSlot s.page (by omega) (by omega)
    · exact (slot_setSlot_ne s.page hs _ _).1
  · refine Nat.le_of_eq ?_
    by_cases hs : i = slot
    · subst hs
      have hzero : (s.page.setSlot i (s.page.slotOff i) 0).slotLen i = 0 :=
        slotLen_setSlot s.page (by omega) (Nat.zero_le _)
      have hcap : capacity ⟨s.page.setSlot i (s.page.slotOff i) 0,
          Function.update s.held i (contents s.page i)⟩ i =
            ((Function.update s.held i (contents s.page i) i).getD []).length := capacity_deleted hzero
      rw [hcap, capacity_live hlen, Function.update_self, hheld]
      exact slice_length _ _ _
    · unfold capacity
      rw [(slot_setSlot_ne s.page hs _ _).2]
      show (if _ then ((Function.update s.held slot (contents s.page slot) i).getD []).length else _) = _
      rw [Function.update_of_ne hs]
  · show Function.update s.held slot (contents s.page slot) i = none
    rw [Function.update_of_ne (by omega)]
    exact h.fresh i hi
  · show Function.update s.held slot (contents s.page slot) i ≠ some []
    by_cases hs : i = slot
    · rw [hs, Function.update_self, hheld]
      intro hnil
      have hzero := congrArg List.length (Option.some.inj hnil)
      rw [slice_length] at hzero
      exact hlen hzero
    · rw [Function.update_of_ne hs]
      exact h.nonempty i

/-- A deleted slot that gets a tuple no longer than it had is above the slot array. -/
theorem Kept.above (h : Kept s) (hlt : slot < s.page.tupleCount) (hlen : s.page.slotLen slot = 0)
    (hfits : data.length ≤ ((s.held slot).getD []).length) :
    data = [] ∨ slotPos s.page.tupleCount ≤ s.page.slotOff slot := by
  by_cases hnil : data = []
  · exact Or.inl hnil
  · have hroom := h.room
    have hcap := capacity_deleted hlen
    have hpos := List.length_pos_iff.2 hnil
    have hin := h.inside slot hlt (by omega)
    exact Or.inr (by omega)

theorem Kept.restore (h : Kept s) (hfits : data.length ≤ ((s.held slot).getD []).length)
    (hok : RawPage.restore slot data s.page = .ok () p') : Kept { s with page := p' } := by
  obtain ⟨hlt, hlen, hend, rfl⟩ := (restore_ok_iff h.valid).1 hok
  have habove := h.above hlt hlen hfits
  have h24 := header_le_slotPos s.page.tupleCount
  have hheader := habove.imp_right h24.trans
  have hnew := slotLen_restored hlt h.valid hend
  refine h.shrink (tupleCount_restored hheader) (freeSpaceOffset_restored hheader)
    (fun i hi => ?_) (fun i hi => ?_) h.fresh h.nonempty
  · by_cases hs : i = slot
    · rw [hs]
      exact slotOff_restored hlt h.valid
    · exact (slot_restored habove hi hs).1
  · by_cases hs : i = slot
    · rw [hs, capacity_deleted hlen]
      unfold capacity
      rw [hnew]
      split
      · exact Nat.le_refl _
      · exact hfits
    · unfold capacity
      rw [(slot_restored habove hi hs).2]

/-- The slots as the page has them. -/
def slots (p : RawPage) : SlotMap := (List.range p.tupleCount).map (contents p)

theorem slots_eq (h : Valid p) (i : Nat) : (slots p)[i]? = if i < p.tupleCount then
    some (if p.slotLen i ≠ 0 then some (p.slice (p.slotOff i) (p.slotLen i)) else none) else none := by
  unfold slots
  rw [List.getElem?_map]
  by_cases hi : i < p.tupleCount
  · rw [List.getElem?_range hi, if_pos hi, Option.map_some, contents_eq h]
    simp only [hi, true_and]
  · rw [List.getElem?_eq_none (by simpa using hi), if_neg hi, Option.map_none]

theorem slots_eq_some (h : Valid p) : (slots p)[i]? = some (some bytes) ↔
    i < p.tupleCount ∧ p.slotLen i ≠ 0 ∧ p.slice (p.slotOff i) (p.slotLen i) = bytes := by
  rw [slots_eq h]
  by_cases hi : i < p.tupleCount <;> by_cases hlen : p.slotLen i = 0 <;> simp [hi, hlen]

theorem slots_eq_none (h : Valid p) : (slots p)[i]? = some none ↔ i < p.tupleCount ∧ p.slotLen i = 0 := by
  rw [slots_eq h]
  by_cases hi : i < p.tupleCount <;> by_cases hlen : p.slotLen i = 0 <;> simp [hi, hlen]

theorem Kept.holds (h : Kept s) : Holds s.page (slots s.page) := by
  have hlive := fun i bytes => @slots_eq_some s.page i bytes h.valid
  have hlength : (slots s.page).length = s.page.tupleCount := by simp [slots]
  refine ⟨hlength.symm, ?_, ?_, fun i hi => ?_, fun i bytes hi => ?_, fun i j a b hij hi hj => ?_⟩
  · rw [hlength]
    exact h.room
  · have hle : liveBytes (slots s.page) ≤ totalCapacity s := by
      unfold liveBytes slots totalCapacity
      rw [List.map_map]
      refine List.sum_le_sum fun i hi => ?_
      have hi := List.mem_range.1 hi
      by_cases hlen : s.page.slotLen i = 0
      · have hnone := (contents_eq h.valid i).trans (if_neg fun hc => hc.2 hlen)
        simp [hnone]
      · rw [capacity_live hlen, Function.comp_apply, contents_live h.valid hi hlen, Option.getD_some,
          slice_length]
    exact (Nat.add_le_add_left hle _).trans h.budget
  · exact ((slots_eq_none h.valid).1 hi).2
  · obtain ⟨hlt, hlen, rfl⟩ := (hlive i bytes).1 hi
    obtain ⟨hlow, hend⟩ := h.valid.inside i hlt hlen
    refine ⟨fun hnil => hlen ?_, (slice_length _ _ _).symm, hlow, hend, rfl⟩
    rw [← slice_length s.page (s.page.slotOff i) (s.page.slotLen i), hnil]
    rfl
  · obtain ⟨hlti, hleni, -⟩ := (hlive i a).1 hi
    obtain ⟨hltj, hlenj, -⟩ := (hlive j b).1 hj
    have hapart := h.apart i j hlti hltj hij
    rw [capacity_live hleni, capacity_live hlenj] at hapart
    exact hapart hleni hlenj

/-- The slots of a page without deleted ones have no other space. -/
theorem capacity_of_holds {m : SlotMap} (h : Holds s.page m)
    (hheld : ∀ i, m[i]? = some none → s.held i = none) {i : Nat} (hi : i < m.length) :
    capacity s i = ((m[i]?.join).getD []).length := by
  cases hm : m[i] with
  | none =>
    have hget : m[i]? = some none := by rw [List.getElem?_eq_getElem hi, hm]
    rw [capacity_deleted (h.packed.dead i hget), hheld i hget, hget]
    rfl
  | some bytes =>
    have hget : m[i]? = some (some bytes) := by rw [List.getElem?_eq_getElem hi, hm]
    obtain ⟨hne, hlen, -⟩ := h.packed.live i bytes hget
    have hpos : s.page.slotLen i ≠ 0 := by
      rw [hlen]
      exact fun hz => hne (List.length_eq_zero_iff.1 hz)
    rw [capacity_live hpos, hlen, hget]
    rfl

theorem kept_of_holds {m : SlotMap} (h : Holds s.page m)
    (hheld : ∀ i, m[i]? = some none → s.held i = none)
    (hfresh : ∀ i, s.page.tupleCount ≤ i → s.held i = none) (hnonempty : ∀ i, s.held i ≠ some []) :
    Kept s := by
  have hcap := fun i hi => @capacity_of_holds s m h hheld i hi
  have hlive : ∀ i, i < s.page.tupleCount → capacity s i ≠ 0 →
      ∃ bytes, m[i]? = some (some bytes) ∧ capacity s i = s.page.slotLen i := by
    intro i hi hne
    obtain ⟨-, ⟨hnone, -⟩ | ⟨bytes, hsome, hlen, hnil⟩⟩ := slot_cases h (not_le.2 hi)
    · rw [hcap i (getElem?_lt hnone), hnone] at hne
      exact absurd rfl hne
    · refine ⟨bytes, hsome, capacity_live ?_⟩
      rw [hlen]
      exact fun hz => hnil (List.length_eq_zero_iff.1 hz)
  refine ⟨?_, ?_, fun i hi hne => ?_, fun i j hi hj hij hci hcj => ?_, hfresh, hnonempty⟩
  · rw [h.count]
    exact h.packed.room
  · have htotal : totalCapacity s = liveBytes m := by
      unfold totalCapacity liveBytes
      rw [h.count]
      refine congrArg List.sum (List.ext_getElem (by simp) fun i hi hi' => ?_)
      have hlt : i < m.length := by simpa using hi'
      rw [List.getElem_map, List.getElem_range, List.getElem_map, hcap i hlt,
        List.getElem?_eq_getElem hlt]
      rfl
    rw [htotal]
    exact h.packed.budget
  · obtain ⟨bytes, hsome, heq⟩ := hlive i hi hne
    obtain ⟨-, -, hlow, hend, -⟩ := h.packed.live i bytes hsome
    rw [heq]
    exact ⟨hlow, hend⟩
  · obtain ⟨a, ha, heqi⟩ := hlive i hi hci
    obtain ⟨b, hb, heqj⟩ := hlive j hj hcj
    rw [heqi, heqj]
    exact h.packed.apart i j a b hij ha hb

theorem Kept.compact (h : Kept s)
    (hnone : ∀ slot, slot < s.page.tupleCount → s.page.slotLen slot = 0 → s.held slot = none)
    (hok : RawPage.vacuumCompact s.page = .ok () p') : Kept { s with page := p' } := by
  obtain ⟨q, hq, hholds, -⟩ := vacuumCompact_eq h.holds
  rw [hq] at hok
  cases hok
  refine kept_of_holds hholds (fun i hi => ?_) (fun i hi => ?_) h.nonempty
  · obtain ⟨hlt, hlen⟩ := (slots_eq_none h.valid).1 hi
    exact hnone i hlt hlen
  · have hcount := hholds.count.trans h.holds.count.symm
    exact h.fresh i (hcount ▸ hi)

/-- **A careful operation keeps the spaces apart.** -/
theorem Kept.step {a : Act} (h : Kept s) (ha : Careful s a) (hstep : step s a = some s') : Kept s' := by
  cases a with
  | insert data =>
    simp only [Tombstones.step] at hstep
    split at hstep
    · next hok =>
      cases hstep
      exact h.insert hok
    · cases hstep
  | delete slot =>
    simp only [Tombstones.step] at hstep
    split at hstep
    · next hok =>
      cases hstep
      exact h.delete hok
    · cases hstep
  | vacuumCompact =>
    simp only [Tombstones.step] at hstep
    split at hstep
    · next hok =>
      cases hstep
      exact h.compact ha hok
    · cases hstep
  | restore slot data =>
    simp only [Tombstones.step] at hstep
    split at hstep
    · next hok =>
      cases hstep
      exact h.restore ha hok
    · cases hstep

/-! ## `restore` after `delete` -/

theorem byte_eq_of_slice {o n : Nat} (h : p'.slice o n = p.slice o n) {i : Nat} (hi : o ≤ i)
    (hi' : i < o + n) : p'.byte i = p.byte i := by
  have hget := congrArg (fun bs : Bytes => bs[i - o]?) h
  simp only [slice_getElem?, if_pos (show i - o < n by omega), Nat.add_sub_cancel' hi] at hget
  exact Option.some.inj hget

theorem Kept.undoes (h : Kept s) (hheld : s.held slot = some bytes)
    (hok : RawPage.restore slot bytes s.page = .ok () p') : Undoes s.page p' slot bytes := by
  have hfits : bytes.length ≤ ((s.held slot).getD []).length := by
    rw [hheld]
    exact Nat.le_refl _
  have hkept := h.restore hfits hok
  obtain ⟨hlt, hlen, hend, rfl⟩ := (restore_ok_iff h.valid).1 hok
  have habove := h.above hlt hlen hfits
  have hne : bytes ≠ [] := fun hnil => h.nonempty slot (hnil ▸ hheld)
  have hpos := List.length_pos_iff.2 hne
  have hcap : capacity s slot = bytes.length := by
    rw [capacity_deleted hlen, hheld]
    rfl
  have h24 := header_le_slotPos s.page.tupleCount
  have hheader := habove.imp_right h24.trans
  have hroom := h.room
  have hin := h.inside slot hlt (by omega)
  have hcount := tupleCount_restored hheader
  have hnew := slotLen_restored hlt h.valid hend
  refine ⟨?_, fun i hi => ?_, hcount, fun i hi hi' => ?_⟩
  · refine hkept.valid.getTuple_eq_some.2 ⟨?_, ?_, ?_⟩
    · exact hcount.symm ▸ hlt
    · exact fun hz => hne (List.length_eq_zero_iff.1 (hnew.symm.trans hz))
    · show (restored s.page slot bytes).slice _ _ = _
      rw [slotOff_restored hlt h.valid, hnew, data_restored hlt (by omega)]
      exact slice_copy_self s.page hend
  · rw [hkept.valid.getTuple, h.valid.getTuple]
    show Except.ok (if i < (restored s.page slot bytes).tupleCount ∧
      (restored s.page slot bytes).slotLen i ≠ 0 then some ((restored s.page slot bytes).slice
        ((restored s.page slot bytes).slotOff i) ((restored s.page slot bytes).slotLen i)) else none) = _
    rw [hcount]
    by_cases hi' : i < s.page.tupleCount
    · obtain ⟨hoff, hleni⟩ := slot_restored habove hi' hi
      rw [hoff, hleni]
      by_cases hlive : s.page.slotLen i = 0
      · rw [if_neg fun hc => hc.2 hlive, if_neg fun hc => hc.2 hlive]
      · have hcapi := capacity_live hlive
        have hini := h.inside i hi' (by omega)
        have hapart := h.apart i slot hi' hlt hi (by omega) (by omega)
        rw [data_restored hlt (by omega), slice_copy_disjoint _ (by omega)]
    · rw [if_neg fun hc => hi' hc.1, if_neg fun hc => hi' hc.1]
  · simp only [HEADER_SIZE] at hi
    rcases Nat.lt_or_gt_of_ne hi' with hlow | hhigh
    · exact byte_eq_of_slice (header_restored hheader (Or.inl (show 0 + 22 ≤ 22 by omega))
        (by omega)) (Nat.zero_le _) (by omega)
    · exact byte_eq_of_slice (header_restored hheader (Or.inr (show 23 ≤ 23 by omega))
        (show 23 + 1 ≤ 24 by omega)) (by omega) (by omega)

/-- **A deleted slot gets its tuple back**, after any run from `Page::new` that leaves
deleted slots their space. -/
theorem restore_undoes_delete {pageId : Nat} {acts : List Act}
    (hrun : Follows step Careful (fresh pageId) acts)
    (hheld : (after step (fresh pageId) acts).held slot = some bytes)
    (hok : RawPage.restore slot bytes (after step (fresh pageId) acts).page = .ok () p') :
    Undoes (after step (fresh pageId) acts).page p' slot bytes :=
  (hrun.invariant (fun h ha hs => Kept.step h ha hs) (kept_fresh pageId)).undoes hheld hok

/-- A restore that returns `Ok`, by evaluation. -/
theorem restore_final
    (h : (match RawPage.restore slot data p with | .ok _ _ => true | .error _ _ => false) = true) :
    RawPage.restore slot data p = .ok () (RawPage.restore slot data p).final := by
  cases hr : RawPage.restore slot data p with
  | ok u q => rfl
  | error e q =>
    rw [hr] at h
    cases h

theorem restore_undoes_delete_compacted_before :
    Undoes (after step (fresh 0) [.insert [104, 105], .vacuumCompact, .insert [7], .delete 0]).page
      (RawPage.restore 0 [104, 105]
        (after step (fresh 0) [.insert [104, 105], .vacuumCompact, .insert [7], .delete 0]).page).final
      0 [104, 105] :=
  restore_undoes_delete (by decide +kernel) (by decide +kernel) (restore_final (by decide +kernel))

/-- **A compaction between the two**: the offset is gone, and the tuple goes over the page id. -/
theorem compaction_loses_offset :
    ¬ ∀ (pageId : Nat) (acts : List Act) (slot : Nat) (bytes : Bytes) (p' : RawPage),
      Follows step (fun _ _ => True) (fresh pageId) acts →
      (after step (fresh pageId) acts).held slot = some bytes →
      RawPage.restore slot bytes (after step (fresh pageId) acts).page = .ok () p' →
      Undoes (after step (fresh pageId) acts).page p' slot bytes := by
  intro h
  have hundoes := h 0 [.insert [7], .delete 0, .vacuumCompact] 0 [7] _ (by decide +kernel)
    (by decide +kernel) (restore_final (by decide +kernel))
  have hbyte := hundoes.header 0 (by decide) (by decide)
  revert hbyte
  decide +kernel

end Ccdb.Tombstones
