import Ccdb.Storage.RawPage

/-!
# Ccdb — the slotted page as a map of slots

`page.rs` from `insert` to `vacuum_compact`, over whole runs of operations on a
fresh page. The abstract page is a list of slots, each empty or holding bytes;
`Packed p f m` says that the bytes of `p` hold the slots `m`, the tuple data
standing between `f` and the end of the page, and is what every operation keeps.

Two lemmas carry the operations: `Packed.place` writes a tuple below `f` and its
slot (an insert, one step of a compaction), and `Packed.keep` says that copies
outside slots and tuples do not matter.

Main results:

* `Op.apply_follows` — one operation follows its abstract counterpart, or fails and
  leaves the page as it was.
* `slotted_page_refines` — so does every run from `Page::new`.
-/

namespace Ccdb.RawPage

/-- The contents of a page: slot ids are positions, a tombstone holds nothing. -/
abbrev SlotMap := List (Option Bytes)

/-- The bytes of the live tuples. -/
def liveBytes (m : SlotMap) : Nat := (m.map fun o => (o.getD []).length).sum

def slotOff (p : RawPage) (slot : Nat) : Nat := p.field (slotPos slot) 2
def slotLen (p : RawPage) (slot : Nat) : Nat := p.field (slotPos slot + 2) 2

/-- `p` holds the slots `m`, its tuple data between `f` and the end of the page. -/
structure Packed (p : RawPage) (f : Nat) (m : SlotMap) : Prop where
  room : slotPos m.length ≤ f
  budget : f + liveBytes m ≤ PAGE_SIZE
  dead : ∀ i, m[i]? = some none → p.slotLen i = 0
  live : ∀ i bytes, m[i]? = some (some bytes) →
    bytes ≠ [] ∧ p.slotLen i = bytes.length ∧ f ≤ p.slotOff i ∧
      p.slotOff i + p.slotLen i ≤ PAGE_SIZE ∧ p.slice (p.slotOff i) (p.slotLen i) = bytes
  apart : ∀ i j a b, i ≠ j → m[i]? = some (some a) → m[j]? = some (some b) →
    p.slotOff i + p.slotLen i ≤ p.slotOff j ∨ p.slotOff j + p.slotLen j ≤ p.slotOff i

/-- The page holds exactly the slots `m`. -/
structure Holds (p : RawPage) (m : SlotMap) : Prop where
  count : p.tupleCount = m.length
  packed : Packed p p.freeSpaceOffset m

/-! ## Slots and their positions -/

theorem slotPos_succ (slot : Nat) : slotPos (slot + 1) = slotPos slot + 4 := by
  simp only [slotPos, SLOT_SIZE]
  omega

theorem slotPos_mono {i j : Nat} (h : i < j) : slotPos i + 4 ≤ slotPos j := by
  simp only [slotPos, SLOT_SIZE]
  omega

theorem header_le_slotPos (slot : Nat) : 24 ≤ slotPos slot := by
  simp only [slotPos, HEADER_SIZE]
  omega

theorem liveBytes_append (a b : SlotMap) : liveBytes (a ++ b) = liveBytes a + liveBytes b := by
  simp [liveBytes]

theorem liveBytes_set {m : SlotMap} {i : Nat} {o : Option Bytes} (h : m[i]? = some o)
    (o' : Option Bytes) :
    liveBytes (m.set i o') + (o.getD []).length = liveBytes m + (o'.getD []).length := by
  induction m generalizing i with
  | nil => simp at h
  | cons x m ih =>
    cases i with
    | zero =>
      have hx : x = o := by simpa using h
      subst hx
      simp only [liveBytes, List.set_cons_zero, List.map_cons, List.sum_cons]
      omega
    | succ i =>
      have hi : m[i]? = some o := by simpa using h
      have hstep := ih hi
      simp only [liveBytes, List.set_cons_succ, List.map_cons, List.sum_cons] at hstep ⊢
      omega

theorem getElem?_lt {m : SlotMap} {i : Nat} {o : Option Bytes} (h : m[i]? = some o) :
    i < m.length := by
  obtain ⟨hi, _⟩ := List.getElem?_eq_some_iff.1 h
  exact hi

/-- A change of a live slot's contents. -/
theorem modify_live {m : SlotMap} {i : Nat} {bytes : Bytes} (h : m[i]? = some (some bytes))
    (g : Bytes → Bytes) : m.modify i (Option.map g) = m.set i (some (g bytes)) := by
  have hi := getElem?_lt h
  refine List.ext_getElem? fun j => ?_
  rw [List.getElem?_modify, List.getElem?_set]
  by_cases hij : i = j
  · subst hij
    rw [if_pos rfl, if_pos hi, h]
    simp
  · simp [hij]

namespace Packed

variable {p q : RawPage} {f : Nat} {m : SlotMap}

theorem top (h : Packed p f m) : f ≤ PAGE_SIZE := by
  have hb := h.budget
  omega

theorem readSlot (h : Packed p f m) {i : Nat} (hi : i < m.length) :
    p.readSlot i = .ok (p.slotOff i, p.slotLen i) := by
  have hpos := slotPos_mono hi
  have hroom := h.room
  have htop := h.top
  rw [RawPage.readSlot, if_pos (by omega)]
  rfl

/-- Two pages that agree on slots and tuple data. -/
theorem keep (h : Packed p f m)
    (hslots : ∀ i, i < m.length → q.slotOff i = p.slotOff i ∧ q.slotLen i = p.slotLen i)
    (hdata : ∀ off n, f ≤ off → off + n ≤ PAGE_SIZE → q.slice off n = p.slice off n) :
    Packed q f m where
  room := h.room
  budget := h.budget
  dead i hi := by
    rw [(hslots i (getElem?_lt hi)).2]
    exact h.dead i hi
  live i bytes hi := by
    obtain ⟨hoff, hlen⟩ := hslots i (getElem?_lt hi)
    obtain ⟨hne, hbytes, hf, hend, hslice⟩ := h.live i bytes hi
    rw [hoff, hlen, hdata _ _ hf hend]
    exact ⟨hne, hbytes, hf, hend, hslice⟩
  apart i j a b hij hi hj := by
    obtain ⟨hoffi, hleni⟩ := hslots i (getElem?_lt hi)
    obtain ⟨hoffj, hlenj⟩ := hslots j (getElem?_lt hj)
    rw [hoffi, hleni, hoffj, hlenj]
    exact h.apart i j a b hij hi hj

/-- A copy into the header. -/
theorem header (h : Packed p f m) {off : Nat} {bytes : Bytes} (hb : off + bytes.length ≤ 24) :
    Packed (p.copy off bytes) f m := by
  have hroom := h.room
  have hpos := header_le_slotPos m.length
  refine h.keep (fun i _ => ?_) fun o n ho _ => slice_copy_disjoint p (by omega)
  have hi := header_le_slotPos i
  exact ⟨field_copy_disjoint p (by omega), field_copy_disjoint p (by omega)⟩

end Packed

/-! ## Writing a slot -/

/-- The page after `write_slot`. -/
def setSlot (p : RawPage) (slot off len : Nat) : RawPage :=
  (p.setField (slotPos slot) 2 off).setField (slotPos slot + 2) 2 len

theorem writeSlot_eq (p : RawPage) {slot : Nat} (off len : Nat)
    (h : slotPos slot + 4 ≤ PAGE_SIZE) : writeSlot slot off len p = .ok () (p.setSlot slot off len) := by
  rw [writeSlot, if_pos h]
  rfl

theorem slice_setSlot (p : RawPage) {slot off len o n : Nat}
    (h : o + n ≤ slotPos slot ∨ slotPos slot + 4 ≤ o) :
    (p.setSlot slot off len).slice o n = p.slice o n := by
  rw [setSlot, slice_setField_disjoint _ (by omega), slice_setField_disjoint _ (by omega)]

theorem field_setSlot (p : RawPage) {slot off len o n : Nat}
    (h : o + n ≤ slotPos slot ∨ slotPos slot + 4 ≤ o) :
    (p.setSlot slot off len).field o n = p.field o n := by
  rw [field, field, slice_setSlot p h]

theorem slotOff_setSlot (p : RawPage) {slot off len : Nat} (h : slotPos slot + 4 ≤ PAGE_SIZE)
    (hoff : off ≤ PAGE_SIZE) : (p.setSlot slot off len).slotOff slot = off := by
  rw [slotOff, setSlot, field_setField_disjoint _ (by omega), field_setField _ (by omega)]
  exact Nat.mod_eq_of_lt (Nat.lt_of_le_of_lt hoff (by decide))

theorem slotLen_setSlot (p : RawPage) {slot off len : Nat} (h : slotPos slot + 4 ≤ PAGE_SIZE)
    (hlen : len ≤ PAGE_SIZE) : (p.setSlot slot off len).slotLen slot = len := by
  rw [slotLen, setSlot, field_setField _ (by omega)]
  exact Nat.mod_eq_of_lt (Nat.lt_of_le_of_lt hlen (by decide))

/-- The other slots stay. -/
theorem slot_setSlot_ne (p : RawPage) {slot i : Nat} (h : i ≠ slot) (off len : Nat) :
    (p.setSlot slot off len).slotOff i = p.slotOff i ∧
      (p.setSlot slot off len).slotLen i = p.slotLen i := by
  have hpos : slotPos i + 4 ≤ slotPos slot ∨ slotPos slot + 4 ≤ slotPos i := by
    rcases Nat.lt_or_gt_of_ne h with hlt | hlt
    · exact Or.inl (slotPos_mono hlt)
    · exact Or.inr (slotPos_mono hlt)
  exact ⟨field_setSlot p (by omega), field_setSlot p (by omega)⟩

/-- A copy above the slot array leaves the slots alone. -/
theorem slot_copy (p : RawPage) {off i : Nat} (h : slotPos i + 4 ≤ off) (bytes : Bytes) :
    (p.copy off bytes).slotOff i = p.slotOff i ∧ (p.copy off bytes).slotLen i = p.slotLen i :=
  ⟨field_copy_disjoint p (by omega), field_copy_disjoint p (by omega)⟩

/-! ## What the operations do to the slots -/

namespace Packed

variable {p : RawPage} {f : Nat} {m : SlotMap} {bytes : Bytes} {slot : Nat}

/-- A tuple written below `f`, with its slot, which was not live before. -/
theorem place (h : Packed p f m) (hne : bytes ≠ []) (hfit : bytes.length ≤ f) (slot : Nat)
    (m' : SlotMap) (hroom : slotPos m'.length ≤ f - bytes.length) (hslot : slot < m'.length)
    (hold : ∀ b, m[slot]? ≠ some (some b))
    (hnew : ∀ i, m'[i]? = if i = slot then some (some bytes) else m[i]?)
    (hbytes : liveBytes m' = liveBytes m + bytes.length) :
    Packed ((p.copy (f - bytes.length) bytes).setSlot slot (f - bytes.length) bytes.length)
      (f - bytes.length) m' := by
  set off := f - bytes.length with hoff
  set q := (p.copy off bytes).setSlot slot off bytes.length with hq
  have htop := h.top
  have hpos := slotPos_mono hslot
  have hend : off + bytes.length ≤ PAGE_SIZE := by omega
  have hsame : ∀ i, i < m'.length → i ≠ slot →
      q.slotOff i = p.slotOff i ∧ q.slotLen i = p.slotLen i := by
    intro i hi hne'
    have hposi := slotPos_mono hi
    have habove : slotPos i + 4 ≤ off := by omega
    obtain ⟨h1, h2⟩ := slot_setSlot_ne (p.copy off bytes) hne' off bytes.length
    obtain ⟨h3, h4⟩ := slot_copy p habove bytes
    exact ⟨h1.trans h3, h2.trans h4⟩
  have hslotOff : q.slotOff slot = off := slotOff_setSlot _ (by omega) (by omega)
  have hslotLen : q.slotLen slot = bytes.length := slotLen_setSlot _ (by omega) (by omega)
  have hdata : ∀ o n, f ≤ o → q.slice o n = p.slice o n := by
    intro o n ho
    rw [hq, slice_setSlot _ (by omega), slice_copy_disjoint _ (by omega)]
  have hself : q.slice off bytes.length = bytes := by
    rw [hq, slice_setSlot _ (by omega)]
    exact slice_copy_self p hend
  -- the tuples of the other slots lie above `f`
  have hlive : ∀ i b, i ≠ slot → m'[i]? = some (some b) →
      b ≠ [] ∧ q.slotLen i = b.length ∧ f ≤ q.slotOff i ∧
        q.slotOff i + q.slotLen i ≤ PAGE_SIZE ∧ q.slice (q.slotOff i) (q.slotLen i) = b := by
    intro i b hi hib
    obtain ⟨hqo, hql⟩ := hsame i (getElem?_lt hib) hi
    rw [hnew i, if_neg hi] at hib
    obtain ⟨hb, hlen, hf, hfin, hslice⟩ := h.live i b hib
    rw [hqo, hql, hdata _ _ hf]
    exact ⟨hb, hlen, hf, hfin, hslice⟩
  refine ⟨hroom, ?_, ?_, ?_, ?_⟩
  · have hb := h.budget
    omega
  · intro i hi
    by_cases his : i = slot
    · rw [hnew i, if_pos his] at hi
      cases hi
    · rw [(hsame i (getElem?_lt hi) his).2]
      rw [hnew i, if_neg his] at hi
      exact h.dead i hi
  · intro i b hi
    by_cases his : i = slot
    · subst his
      have hb : bytes = b := by
        rw [hnew i, if_pos rfl] at hi
        cases hi
        rfl
      subst hb
      rw [hslotOff, hslotLen]
      exact ⟨hne, rfl, Nat.le_refl _, hend, hself⟩
    · obtain ⟨hb, hlen, hf, hfin, hslice⟩ := hlive i b his hi
      exact ⟨hb, hlen, by omega, hfin, hslice⟩
  · intro i j a b hij hi hj
    by_cases his : i = slot
    · subst his
      obtain ⟨_, _, hf, _, _⟩ := hlive j b (fun hji => hij hji.symm) hj
      left
      rw [hslotOff, hslotLen]
      omega
    · by_cases hjs : j = slot
      · subst hjs
        obtain ⟨_, _, hf, _, _⟩ := hlive i a his hi
        right
        rw [hslotOff, hslotLen]
        omega
      · obtain ⟨hqi, hqil⟩ := hsame i (getElem?_lt hi) his
        obtain ⟨hqj, hqjl⟩ := hsame j (getElem?_lt hj) hjs
        rw [hqi, hqil, hqj, hqjl]
        rw [hnew i, if_neg his] at hi
        rw [hnew j, if_neg hjs] at hj
        exact h.apart i j a b hij hi hj

/-- Bytes patched inside one tuple. -/
theorem patch (h : Packed p f m) (hlive : m[slot]? = some (some bytes)) {k : Nat} {new : Bytes}
    (hk : k + new.length ≤ bytes.length) :
    Packed (p.copy (p.slotOff slot + k) new) f (m.set slot (some (splice bytes k new))) := by
  obtain ⟨hne, hlen, hf, hend, hslice⟩ := h.live slot bytes hlive
  have hlt := getElem?_lt hlive
  set q := p.copy (p.slotOff slot + k) new with hq
  have hroom := h.room
  have hsame : ∀ i, i < m.length → q.slotOff i = p.slotOff i ∧ q.slotLen i = p.slotLen i := by
    intro i hi
    have hpos := slotPos_mono hi
    exact slot_copy p (by omega) new
  have hspl : (splice bytes k new).length = bytes.length := splice_length hk
  refine ⟨by rw [List.length_set]; exact hroom, ?_, ?_, ?_, ?_⟩
  · have hset := liveBytes_set hlive (some (splice bytes k new))
    have hb := h.budget
    simp only [Option.getD_some, hspl] at hset
    omega
  · intro i hi
    rw [List.getElem?_set] at hi
    split at hi
    · cases hi
    · rw [(hsame i (getElem?_lt hi)).2]
      exact h.dead i hi
  · intro i b hi
    by_cases his : slot = i
    · subst his
      rw [List.getElem?_set_self hlt] at hi
      cases hi
      obtain ⟨hqo, hql⟩ := hsame slot hlt
      rw [hqo, hql, hspl]
      refine ⟨?_, hlen, hf, hend, ?_⟩
      · intro hnil
        rw [hnil] at hspl
        exact hne (List.length_eq_zero_iff.1 hspl.symm)
      · rw [hq, slice_copy_inside p (by omega) hend, hslice]
    · rw [List.getElem?_set_ne his] at hi
      obtain ⟨hqo, hql⟩ := hsame i (getElem?_lt hi)
      obtain ⟨hb, hblen, hbf, hbend, hbslice⟩ := h.live i b hi
      have hdis := h.apart slot i bytes b his hlive hi
      rw [hqo, hql]
      refine ⟨hb, hblen, hbf, hbend, ?_⟩
      rw [hq, slice_copy_disjoint p (by omega)]
      exact hbslice
  · intro i j a b hij hi hj
    have hi' := getElem?_lt hi
    have hj' := getElem?_lt hj
    rw [List.length_set] at hi' hj'
    have hwas : ∀ (x : Nat) (y : Bytes), (m.set slot (some (splice bytes k new)))[x]? = some (some y) →
        ∃ z : Bytes, m[x]? = some (some z) := by
      intro x y hx
      by_cases hxs : slot = x
      · exact ⟨bytes, hxs ▸ hlive⟩
      · rw [List.getElem?_set_ne hxs] at hx
        exact ⟨y, hx⟩
    obtain ⟨a', ha'⟩ := hwas i a hi
    obtain ⟨b', hb'⟩ := hwas j b hj
    rw [(hsame i hi').1, (hsame i hi').2, (hsame j hj').1, (hsame j hj').2]
    exact h.apart i j a' b' hij ha' hb'

/-- A live slot becomes a tombstone. -/
theorem kill (h : Packed p f m) (hlive : m[slot]? = some (some bytes)) :
    Packed (p.setSlot slot (p.slotOff slot) 0) f (m.set slot none) := by
  obtain ⟨_, _, hf, hend, _⟩ := h.live slot bytes hlive
  have hlt := getElem?_lt hlive
  have hpos := slotPos_mono hlt
  have hroom := h.room
  have htop := h.top
  have hsame : ∀ i, slot ≠ i → (p.setSlot slot (p.slotOff slot) 0).slotOff i = p.slotOff i ∧
      (p.setSlot slot (p.slotOff slot) 0).slotLen i = p.slotLen i :=
    fun i hi => slot_setSlot_ne p (fun his => hi his.symm) _ _
  refine ⟨by rw [List.length_set]; exact hroom, ?_, ?_, ?_, ?_⟩
  · have hset := liveBytes_set hlive none
    have hb := h.budget
    simp only [Option.getD_some, Option.getD_none, List.length_nil] at hset
    omega
  · intro i hi
    by_cases his : slot = i
    · subst his
      exact slotLen_setSlot p (by omega) (Nat.zero_le _)
    · rw [List.getElem?_set_ne his] at hi
      rw [(hsame i his).2]
      exact h.dead i hi
  · intro i b hi
    by_cases his : slot = i
    · subst his
      rw [List.getElem?_set_self hlt] at hi
      cases hi
    · rw [List.getElem?_set_ne his] at hi
      obtain ⟨hb, hblen, hbf, hbend, hbslice⟩ := h.live i b hi
      rw [(hsame i his).1, (hsame i his).2]
      refine ⟨hb, hblen, hbf, hbend, ?_⟩
      rw [slice_setSlot p (by omega)]
      exact hbslice
  · intro i j a b hij hi hj
    have his : slot ≠ i := by
      rintro rfl
      rw [List.getElem?_set_self hlt] at hi
      cases hi
    have hjs : slot ≠ j := by
      rintro rfl
      rw [List.getElem?_set_self hlt] at hj
      cases hj
    rw [List.getElem?_set_ne his] at hi
    rw [List.getElem?_set_ne hjs] at hj
    rw [(hsame i his).1, (hsame i his).2, (hsame j hjs).1, (hsame j hjs).2]
    exact h.apart i j a b hij hi hj

end Packed

/-! ## The operations -/

namespace Holds

variable {p : RawPage} {m : SlotMap} {slot : Nat} {bytes : Bytes}

/-- The header fields the slots hang on, after a copy into the rest of the page. -/
theorem copy_data (p : RawPage) {off : Nat} (h : 24 ≤ off) (new : Bytes) :
    (p.copy off new).tupleCount = p.tupleCount ∧
      (p.copy off new).freeSpaceOffset = p.freeSpaceOffset :=
  ⟨field_copy_disjoint p (by omega), field_copy_disjoint p (by omega)⟩

theorem setSlot_header (p : RawPage) (slot off len : Nat) :
    (p.setSlot slot off len).tupleCount = p.tupleCount ∧
      (p.setSlot slot off len).freeSpaceOffset = p.freeSpaceOffset := by
  have h := header_le_slotPos slot
  exact ⟨field_setSlot p (by omega), field_setSlot p (by omega)⟩

/-- `get_tuple` is the lookup in the map. -/
theorem getTuple (h : Holds p m) (i : Nat) : p.getTuple i = .ok (m[i]?.getD none) := by
  unfold RawPage.getTuple
  rw [h.count]
  by_cases hi : i < m.length
  · rw [if_neg (by omega), h.packed.readSlot hi]
    simp only [bind, Except.bind]
    cases ho : m[i] with
    | none =>
      have hget : m[i]? = some none := by rw [List.getElem?_eq_getElem hi, ho]
      rw [if_pos (h.packed.dead i hget), hget]
      rfl
    | some b =>
      have hget : m[i]? = some (some b) := by rw [List.getElem?_eq_getElem hi, ho]
      obtain ⟨hne, hlen, _, hend, hslice⟩ := h.packed.live i b hget
      have hpos : p.slotLen i ≠ 0 := by
        rw [hlen]
        exact fun h0 => hne (List.length_eq_zero_iff.1 h0)
      rw [if_neg hpos, if_pos hend, hslice, hget]
      rfl
  · rw [if_pos (by omega), List.getElem?_eq_none (by omega)]
    rfl

/-- A flag of the header. -/
theorem setAllVisible (h : Holds p m) (v : Bool) : Holds (p.setAllVisible v) m where
  count := by
    rw [← h.count]
    exact field_copy_disjoint p (Or.inl (by decide))
  packed := by
    have hoff : (p.setAllVisible v).freeSpaceOffset = p.freeSpaceOffset :=
      field_copy_disjoint p (Or.inl (by decide))
    rw [hoff]
    exact h.packed.header (by simp)

theorem patch (h : Holds p m) (hlive : m[slot]? = some (some bytes)) (k : Nat) (new : Bytes)
    (hk : k + new.length ≤ bytes.length) :
    Holds (p.copy (p.slotOff slot + k) new) (m.set slot (some (splice bytes k new))) := by
  obtain ⟨_, _, hf, _, _⟩ := h.packed.live slot bytes hlive
  have hroom := h.packed.room
  have hpos := header_le_slotPos m.length
  obtain ⟨hcount, hoff⟩ := copy_data p (show 24 ≤ p.slotOff slot + k by omega) new
  refine ⟨by rw [hcount, h.count, List.length_set], ?_⟩
  rw [hoff]
  exact h.packed.patch hlive hk

end Holds

/-- One call of an operation of `Page`. The data of an insert is not empty. -/
inductive Op where
  | insert (data : Bytes) (nonempty : data ≠ [])
  | delete (slot : Nat)
  | setTupleXmax (slot : Nat) (xmax : UInt64)
  | setTupleCtid (slot : Nat) (ctid : UInt32 × UInt16)
  | vacuumCompact

/-- The operation on the page; an insert returns the new slot id. -/
def Op.apply : Op → RawM (Option Nat)
  | .insert data _ => do return some (← RawPage.insert data)
  | .delete slot => do RawPage.delete slot; return none
  | .setTupleXmax slot xmax => do RawPage.setTupleXmax slot xmax; return none
  | .setTupleCtid slot ctid => do RawPage.setTupleCtid slot ctid; return none
  | .vacuumCompact => do RawPage.vacuumCompact; return none

/-- The operation on the map, when it succeeds: an insert appends, a delete empties the
slot, the setters overwrite bytes of its contents, a compaction changes nothing. -/
def Op.spec : Op → SlotMap → SlotMap
  | .insert data _, m => m ++ [some data]
  | .delete slot, m => m.set slot none
  | .setTupleXmax slot xmax, m =>
    m.modify slot (Option.map fun bytes => splice bytes 8 (toLe 8 xmax.toNat))
  | .setTupleCtid slot ctid, m =>
    m.modify slot (Option.map fun bytes =>
      splice (splice bytes 16 (toLe 4 ctid.1.toNat)) 20 (toLe 2 ctid.2.toNat))
  | .vacuumCompact, m => m

/-- What an insert returns is the number of slots there were. -/
def Op.answer : Op → SlotMap → Option Nat
  | .insert _ _, m => some m.length
  | _, _ => none

/-- A result that follows the map to `m'`, or an error that leaves the page `p`. -/
inductive Follows {α : Type} (p : RawPage) (answer : α) (m' : SlotMap) :
    EStateM.Result DbError RawPage α → Prop
  | ok {p' : RawPage} (h : Holds p' m') : Follows p answer m' (.ok answer p')
  | failed (msg : String) : Follows p answer m' (.error (.bail msg) p)

section Follows

variable {p : RawPage} {m : SlotMap}

theorem insert_follows (h : Holds p m) {data : Bytes} (hne : data ≠ []) :
    Follows p m.length (m ++ [some data]) (RawPage.insert data p) := by
  unfold RawPage.insert
  simp only [bind, EStateM.bind, get, getThe, MonadStateOf.get, EStateM.get]
  by_cases hfull : p.freeSpace < data.length + SLOT_SIZE
  · rw [if_pos hfull]
    exact .failed _
  · rw [if_neg hfull]
    have hroom := h.packed.room
    have htop := h.packed.top
    have hfree : slotPos m.length + (data.length + 4) ≤ p.freeSpaceOffset := by
      simp only [freeSpace, h.count, SLOT_SIZE] at hfull
      simp only [slotPos, SLOT_SIZE] at hroom ⊢
      omega
    have hlen : slotPos (m ++ [some data]).length = slotPos m.length + 4 := by
      rw [List.length_append]
      exact slotPos_succ m.length
    set off := p.freeSpaceOffset - data.length with hoff
    have hfit : off + data.length ≤ PAGE_SIZE := by omega
    -- the tuple and its slot
    have hplace : Packed ((p.copy off data).setSlot m.length off data.length) off
        (m ++ [some data]) := by
      refine h.packed.place hne (by omega) m.length _ (by omega) (by simp) (by simp) ?_ ?_
      · intro i
        by_cases hi : i = m.length
        · subst hi
          simp
        · rw [if_neg hi, List.getElem?_append]
          by_cases hlt : i < m.length
          · rw [if_pos hlt]
          · rw [if_neg hlt, List.getElem?_eq_none (by simp; omega),
              List.getElem?_eq_none (by omega)]
      · rw [liveBytes_append]
        simp [liveBytes]
    set q := (p.copy off data).setSlot m.length off data.length with hq
    -- the header behind it
    have hheader : Packed (((q.setTupleCount (m.length + 1)).setFreeSpaceOffset off).setAllVisible
        false) off (m ++ [some data]) :=
      ((hplace.header (by simp)).header (by simp)).header (by simp)
    simp only [copyAt, if_pos hfit, EStateM.bind]
    rw [h.count, writeSlot_eq _ _ _ (by omega)]
    simp only [modify, modifyGet, MonadStateOf.modifyGet, EStateM.modifyGet, pure, EStateM.pure]
    refine .ok ⟨?_, ?_⟩
    · have hcount : (((q.setTupleCount (m.length + 1)).setFreeSpaceOffset off).setAllVisible
          false).tupleCount = m.length + 1 := by
        unfold RawPage.setAllVisible setFreeSpaceOffset setTupleCount RawPage.tupleCount
        rw [field_copy_disjoint _ (Or.inl (by decide)),
          field_setField_disjoint _ (Or.inl (by decide)), field_setField _ (by decide)]
        refine Nat.mod_eq_of_lt ?_
        simp only [slotPos, HEADER_SIZE, SLOT_SIZE, PAGE_SIZE] at hfree htop
        omega
      rw [← hq, hcount]
      simp
    · have hfso : (((q.setTupleCount (m.length + 1)).setFreeSpaceOffset off).setAllVisible
          false).freeSpaceOffset = off := by
        unfold RawPage.setAllVisible setFreeSpaceOffset RawPage.freeSpaceOffset
        rw [field_copy_disjoint _ (Or.inl (by decide)), field_setField _ (by decide)]
        exact Nat.mod_eq_of_lt (Nat.lt_of_le_of_lt (by omega : off ≤ PAGE_SIZE) (by decide))
      rw [← hq, hfso]
      exact hheader

/-- A slot below the tuple count is a tombstone or live. -/
theorem slot_cases (h : Holds p m) {slot : Nat} (hslot : ¬ p.tupleCount ≤ slot) :
    p.readSlot slot = .ok (p.slotOff slot, p.slotLen slot) ∧
      (m[slot]? = some none ∧ p.slotLen slot = 0 ∨
        ∃ bytes, m[slot]? = some (some bytes) ∧ p.slotLen slot = bytes.length ∧ bytes ≠ []) := by
  rw [h.count] at hslot
  have hlt : slot < m.length := by omega
  refine ⟨h.packed.readSlot hlt, ?_⟩
  cases ho : m[slot] with
  | none =>
    have hget : m[slot]? = some none := by rw [List.getElem?_eq_getElem hlt, ho]
    exact Or.inl ⟨hget, h.packed.dead slot hget⟩
  | some bytes =>
    have hget : m[slot]? = some (some bytes) := by rw [List.getElem?_eq_getElem hlt, ho]
    obtain ⟨hne, hlen, _⟩ := h.packed.live slot bytes hget
    exact Or.inr ⟨bytes, hget, hlen, hne⟩

theorem delete_follows (h : Holds p m) (slot : Nat) :
    Follows p () (m.set slot none) (RawPage.delete slot p) := by
  unfold RawPage.delete
  simp only [bind, EStateM.bind, get, getThe, MonadStateOf.get, EStateM.get]
  by_cases hslot : p.tupleCount ≤ slot
  · rw [if_pos hslot]
    exact .failed _
  · rw [if_neg hslot]
    obtain ⟨hread, ⟨_, hlen⟩ | ⟨bytes, hlive, hlen, hne⟩⟩ := slot_cases h hslot
    · simp only [hread, check, hlen, if_true, EStateM.bind]
      exact .failed _
    · have hpos : p.slotLen slot ≠ 0 := fun h0 => hne (List.length_eq_zero_iff.1 (hlen ▸ h0))
      have hlt := getElem?_lt hlive
      have hroom := h.packed.room
      have htop := h.packed.top
      have hposn := slotPos_mono hlt
      simp only [hread, check, if_neg hpos, EStateM.bind]
      rw [writeSlot_eq _ _ _ (by omega)]
      obtain ⟨hcount, hoff⟩ := Holds.setSlot_header p slot (p.slotOff slot) 0
      refine .ok ⟨by rw [hcount, h.count, List.length_set], ?_⟩
      rw [hoff]
      exact h.packed.kill hlive

/-- A live slot reads as live. -/
theorem slot_live (h : Holds p m) {slot : Nat} {bytes : Bytes}
    (hlive : m[slot]? = some (some bytes)) :
    ¬ p.tupleCount ≤ slot ∧ p.readSlot slot = .ok (p.slotOff slot, p.slotLen slot) ∧
      p.slotLen slot = bytes.length ∧ p.slotLen slot ≠ 0 := by
  have hlt := getElem?_lt hlive
  obtain ⟨hne, hlen, _⟩ := h.packed.live slot bytes hlive
  refine ⟨by rw [h.count]; omega, h.packed.readSlot hlt, hlen, ?_⟩
  rw [hlen]
  exact fun h0 => hne (List.length_eq_zero_iff.1 h0)

theorem setTupleXmax_ok (h : Holds p m) {slot : Nat} {bytes : Bytes}
    (hlive : m[slot]? = some (some bytes)) (hlong : 16 ≤ bytes.length) (xmax : UInt64) :
    ∃ p', RawPage.setTupleXmax slot xmax p = .ok () p' ∧
      Holds p' (m.modify slot (Option.map fun bytes => splice bytes 8 (toLe 8 xmax.toNat))) := by
  obtain ⟨hslot, hread, hlen, hpos⟩ := slot_live h hlive
  obtain ⟨_, _, _, hend, _⟩ := h.packed.live slot bytes hlive
  have hshort : ¬ p.slotLen slot < 16 := by omega
  have hfit : p.slotOff slot + 8 + (toLe 8 xmax.toNat).length ≤ PAGE_SIZE := by
    rw [toLe_length]
    omega
  refine ⟨(p.copy (p.slotOff slot + 8) (toLe 8 xmax.toNat)).setAllVisible false, ?_, ?_⟩
  · unfold RawPage.setTupleXmax
    simp only [bind, EStateM.bind, get, getThe, MonadStateOf.get, EStateM.get, if_neg hslot, hread,
      check, if_neg hpos, if_neg hshort, copyAt, if_pos hfit, modify, modifyGet,
      MonadStateOf.modifyGet, EStateM.modifyGet]
  · rw [modify_live hlive]
    exact (h.patch hlive 8 _ (by rw [toLe_length]; omega)).setAllVisible false

theorem setTupleXmax_follows (h : Holds p m) (slot : Nat) (xmax : UInt64) :
    Follows p () (m.modify slot (Option.map fun bytes => splice bytes 8 (toLe 8 xmax.toNat)))
      (RawPage.setTupleXmax slot xmax p) := by
  by_cases hslot : p.tupleCount ≤ slot
  · unfold RawPage.setTupleXmax
    simp only [bind, EStateM.bind, get, getThe, MonadStateOf.get, EStateM.get, if_pos hslot]
    exact .failed _
  · obtain ⟨hread, ⟨_, hlen⟩ | ⟨bytes, hlive, hlen, hne⟩⟩ := slot_cases h hslot
    · unfold RawPage.setTupleXmax
      simp only [bind, EStateM.bind, get, getThe, MonadStateOf.get, EStateM.get, if_neg hslot,
        hread, check, hlen, if_true]
      exact .failed _
    · by_cases hlong : 16 ≤ bytes.length
      · obtain ⟨p', hp', hholds⟩ := setTupleXmax_ok h hlive hlong xmax
        exact hp' ▸ .ok hholds
      · obtain ⟨_, _, _, hpos⟩ := slot_live h hlive
        have hshort : p.slotLen slot < 16 := by omega
        unfold RawPage.setTupleXmax
        simp only [bind, EStateM.bind, get, getThe, MonadStateOf.get, EStateM.get, if_neg hslot,
          hread, check, if_neg hpos, if_pos hshort]
        exact .failed _

theorem setTupleCtid_ok (h : Holds p m) {slot : Nat} {bytes : Bytes}
    (hlive : m[slot]? = some (some bytes)) (hlong : MVCC_HEADER_SIZE ≤ bytes.length)
    (ctid : UInt32 × UInt16) :
    ∃ p', RawPage.setTupleCtid slot ctid p = .ok () p' ∧
      Holds p' (m.modify slot (Option.map fun bytes =>
        splice (splice bytes 16 (toLe 4 ctid.1.toNat)) 20 (toLe 2 ctid.2.toNat))) := by
  obtain ⟨hslot, hread, hlen, hpos⟩ := slot_live h hlive
  obtain ⟨_, _, hf, hend, _⟩ := h.packed.live slot bytes hlive
  have hlong' : 22 ≤ bytes.length := hlong
  have hshort : ¬ p.slotLen slot < MVCC_HEADER_SIZE := by omega
  set pageBytes := toLe 4 ctid.1.toNat with hpageBytes
  set slotBytes := toLe 2 ctid.2.toNat with hslotBytes
  have h4 : pageBytes.length = 4 := toLe_length 4 _
  have h2 : slotBytes.length = 2 := toLe_length 2 _
  -- the page half, then the slot half
  have hfirst := h.patch hlive 16 pageBytes (by omega)
  have hlive' : (m.set slot (some (splice bytes 16 pageBytes)))[slot]? =
      some (some (splice bytes 16 pageBytes)) := List.getElem?_set_self (getElem?_lt hlive)
  have hsplen : (splice bytes 16 pageBytes).length = bytes.length := splice_length (by omega)
  have hsecond := hfirst.patch hlive' 20 slotBytes (by omega)
  have hroom := h.packed.room
  have hposn := slotPos_mono (getElem?_lt hlive)
  rw [(slot_copy p (by omega) pageBytes).1] at hsecond
  have hfit : p.slotOff slot + TCTID_PAGE_OFF + pageBytes.length ≤ PAGE_SIZE := by
    simp only [TCTID_PAGE_OFF]
    omega
  have hfit' : p.slotOff slot + TCTID_SLOT_OFF + slotBytes.length ≤ PAGE_SIZE := by
    simp only [TCTID_SLOT_OFF]
    omega
  refine ⟨(p.copy (p.slotOff slot + 16) pageBytes).copy (p.slotOff slot + 20) slotBytes, ?_, ?_⟩
  · unfold RawPage.setTupleCtid
    simp only [bind, EStateM.bind, get, getThe, MonadStateOf.get, EStateM.get, if_neg hslot, hread,
      check, if_neg hpos, if_neg hshort, copyAt, ← hpageBytes, ← hslotBytes, if_pos hfit,
      if_pos hfit']
    rfl
  · rw [modify_live hlive]
    rwa [List.set_set] at hsecond

theorem setTupleCtid_follows (h : Holds p m) (slot : Nat) (ctid : UInt32 × UInt16) :
    Follows p ()
      (m.modify slot (Option.map fun bytes =>
        splice (splice bytes 16 (toLe 4 ctid.1.toNat)) 20 (toLe 2 ctid.2.toNat)))
      (RawPage.setTupleCtid slot ctid p) := by
  by_cases hslot : p.tupleCount ≤ slot
  · unfold RawPage.setTupleCtid
    simp only [bind, EStateM.bind, get, getThe, MonadStateOf.get, EStateM.get, if_pos hslot]
    exact .failed _
  · obtain ⟨hread, ⟨_, hlen⟩ | ⟨bytes, hlive, hlen, hne⟩⟩ := slot_cases h hslot
    · unfold RawPage.setTupleCtid
      simp only [bind, EStateM.bind, get, getThe, MonadStateOf.get, EStateM.get, if_neg hslot,
        hread, check, hlen, if_true]
      exact .failed _
    · by_cases hlong : MVCC_HEADER_SIZE ≤ bytes.length
      · obtain ⟨p', hp', hholds⟩ := setTupleCtid_ok h hlive hlong ctid
        exact hp' ▸ .ok hholds
      · obtain ⟨_, _, _, hpos⟩ := slot_live h hlive
        have hshort : p.slotLen slot < MVCC_HEADER_SIZE := by omega
        unfold RawPage.setTupleCtid
        simp only [bind, EStateM.bind, get, getThe, MonadStateOf.get, EStateM.get, if_neg hslot,
          hread, check, if_neg hpos, if_pos hshort]
        exact .failed _

end Follows

/-! ## Compaction -/

/-- The live tuples of the slots from `slot` on. -/
def liveFrom : Nat → SlotMap → List (Nat × Bytes)
  | _, [] => []
  | slot, none :: m => liveFrom (slot + 1) m
  | slot, some bytes :: m => (slot, bytes) :: liveFrom (slot + 1) m

/-- The snapshot is the live tuples. -/
theorem readLive_eq {p : RawPage} {f : Nat} : ∀ (m pre : SlotMap), Packed p f (pre ++ m) →
    p.readLive pre.length m.length = .ok (liveFrom pre.length m)
  | [], pre, _ => rfl
  | o :: m, pre, h => by
    have hsplit : pre ++ o :: m = (pre ++ [o]) ++ m := by simp
    have hget : (pre ++ o :: m)[pre.length]? = some o := by simp
    have hrest := readLive_eq m (pre ++ [o]) (hsplit ▸ h)
    rw [List.length_append, List.length_singleton] at hrest
    rw [List.length_cons, readLive, h.readSlot (getElem?_lt hget)]
    simp only [bind, Except.bind]
    cases o with
    | none => rw [if_pos (h.dead _ hget), hrest, liveFrom]
    | some bytes =>
      obtain ⟨hne, hlen, _, hend, hslice⟩ := h.live _ bytes hget
      have hpos : p.slotLen pre.length ≠ 0 := fun h0 =>
        hne (List.length_eq_zero_iff.1 (hlen ▸ h0))
      rw [if_neg hpos, if_pos hend, hslice, hrest, liveFrom]
      rfl

/-- Clearing the slot array: every slot reads `(0, 0)`, the tuple count stays. -/
theorem clearSlots_eq : ∀ (k slot : Nat) (p : RawPage), slotPos (slot + k) ≤ PAGE_SIZE →
    ∃ q, clearSlots slot k p = .ok () q ∧ q.tupleCount = p.tupleCount ∧
      (∀ i, slot ≤ i → i < slot + k → q.slotLen i = 0) ∧
      ∀ i, i < slot → q.slotLen i = p.slotLen i
  | 0, slot, p, _ => ⟨p, rfl, rfl, fun i h h' => absurd h' (by omega), fun _ _ => rfl⟩
  | k + 1, slot, p, h => by
    have hpos := slotPos_mono (show slot < slot + (k + 1) by omega)
    have hfit : slotPos slot + 4 ≤ PAGE_SIZE := by omega
    obtain ⟨q, hq, hcount, hzero, hsame⟩ := clearSlots_eq k (slot + 1) (p.setSlot slot 0 0)
      (by rwa [Nat.add_right_comm, Nat.add_assoc])
    refine ⟨q, ?_, ?_, ?_, ?_⟩
    · simp only [clearSlots, bind, EStateM.bind]
      rw [writeSlot_eq _ _ _ hfit]
      exact hq
    · rw [hcount]
      exact (Holds.setSlot_header p slot 0 0).1
    · intro i hi hi'
      by_cases his : i = slot
      · subst his
        rw [hsame i (by omega)]
        exact slotLen_setSlot p hfit (Nat.zero_le _)
      · exact hzero i (by omega) (by omega)
    · intro i hi
      rw [hsame i (by omega)]
      exact (slot_setSlot_ne p (by omega) 0 0).2

/-- Repacking the slots `m` behind the slots `pre` that are done already. -/
theorem repack_eq : ∀ (m pre : SlotMap) (f : Nat) (p : RawPage),
    Packed p f (pre ++ List.replicate m.length none) →
    slotPos (pre.length + m.length) + liveBytes m ≤ f → some [] ∉ m →
    ∃ q, repack (liveFrom pre.length m) f p = .ok (f - liveBytes m) q ∧
      Packed q (f - liveBytes m) (pre ++ m) ∧ q.tupleCount = p.tupleCount
  | [], pre, f, p, h, _, _ => ⟨p, rfl, by simpa [liveBytes] using h, rfl⟩
  | none :: m, pre, f, p, h, hroom, hne => by
    have hsplit : pre ++ none :: m = (pre ++ [none]) ++ m := by simp
    have hdead : pre ++ List.replicate (none :: m).length none =
        (pre ++ [none]) ++ List.replicate m.length none := by
      simp [List.replicate_succ]
    have hbytes : liveBytes (none :: m) = liveBytes m := by simp [liveBytes]
    obtain ⟨q, hq, hpacked, hcount⟩ := repack_eq m (pre ++ [none]) f p (hdead ▸ h)
      (by rw [hbytes, List.length_cons] at hroom; simp only [List.length_append,
            List.length_singleton]; rwa [Nat.add_assoc, Nat.add_comm 1])
      (fun hmem => hne (List.mem_cons_of_mem _ hmem))
    rw [List.length_append, List.length_singleton] at hq
    exact ⟨q, by rw [liveFrom, hbytes, hq], by rw [hsplit, hbytes]; exact hpacked, hcount⟩
  | some bytes :: m, pre, f, p, h, hroom, hne => by
    have hsplit : pre ++ some bytes :: m = (pre ++ [some bytes]) ++ m := by simp
    have hbytes : liveBytes (some bytes :: m) = bytes.length + liveBytes m := by simp [liveBytes]
    rw [hbytes] at hroom ⊢
    have hfit : bytes.length ≤ f := by omega
    have hnil : bytes ≠ [] := fun h0 => hne (h0 ▸ List.mem_cons_self)
    set old : SlotMap := pre ++ List.replicate (some bytes :: m).length none with hold
    have hget : old[pre.length]? = some none := by simp [hold, List.replicate_succ]
    have hlt := getElem?_lt hget
    have hset : old.set pre.length (some bytes) =
        (pre ++ [some bytes]) ++ List.replicate m.length none := by
      simp [hold, List.replicate_succ]
    have hlen : (old.set pre.length (some bytes)).length = pre.length + (m.length + 1) := by
      simp [hold]
    rw [List.length_cons] at hroom
    -- one tuple goes below `f`, the rest below it
    have hplace := h.place hnil hfit pre.length (old.set pre.length (some bytes))
      (by rw [hlen]; omega) (by rw [hlen]; omega) (by rw [hget]; simp)
      (fun i => by
        rw [List.getElem?_set]
        by_cases hi : pre.length = i
        · subst hi
          simp [hlt]
        · rw [if_neg hi, if_neg fun h' => hi h'.symm])
      (by have hb := liveBytes_set hget (some bytes); simpa using hb)
    rw [hset] at hplace
    set p' := (p.copy (f - bytes.length) bytes).setSlot pre.length (f - bytes.length)
      bytes.length with hp'
    have hpos := slotPos_mono (show pre.length < pre.length + (m.length + 1) by omega)
    have htop := h.top
    obtain ⟨q, hq, hpacked, hcount⟩ := repack_eq m (pre ++ [some bytes]) (f - bytes.length) p'
      hplace
      (by
        simp only [List.length_append, List.length_singleton]
        rw [Nat.add_assoc, Nat.add_comm 1]
        omega)
      fun hmem => hne (List.mem_cons_of_mem _ hmem)
    rw [List.length_append, List.length_singleton] at hq
    have hroomy : f - bytes.length + bytes.length ≤ PAGE_SIZE := by omega
    refine ⟨q, ?_, by rw [hsplit, ← Nat.sub_sub]; exact hpacked, ?_⟩
    · rw [liveFrom, repack, if_neg (by omega)]
      simp only [bind, EStateM.bind, copyAt, if_pos hroomy]
      rw [writeSlot_eq _ _ _ (by omega)]
      simp only
      rw [← hp', hq, Nat.sub_sub]
    · rw [hcount, hp', (Holds.setSlot_header _ _ _ _).1]
      have h24 := header_le_slotPos pre.length
      exact (Holds.copy_data p (by omega) bytes).1

theorem liveBytes_replicate (n : Nat) : liveBytes (List.replicate n none) = 0 := by
  simp [liveBytes]

/-- Compaction keeps the map and leaves no hole. -/
theorem vacuumCompact_eq {p : RawPage} {m : SlotMap} (h : Holds p m) :
    ∃ q, RawPage.vacuumCompact p = .ok () q ∧ Holds q m ∧
      q.freeSpaceOffset = PAGE_SIZE - liveBytes m := by
  have hroom := h.packed.room
  have hbudget := h.packed.budget
  have hlive := readLive_eq m [] h.packed
  obtain ⟨p₁, hclear, hcount₁, hzero, _⟩ := clearSlots_eq m.length 0 p
    (by rw [Nat.zero_add]; omega)
  -- all slots dead: nothing in the data area
  have hempty : Packed p₁ PAGE_SIZE (List.replicate m.length none) := by
    refine ⟨?_, ?_, ?_, ?_, ?_⟩
    · rw [List.length_replicate]
      omega
    · rw [liveBytes_replicate]
      omega
    · intro i hi
      exact hzero i (Nat.zero_le _) (by have := getElem?_lt hi; simpa using this)
    · intro i bytes hi
      simp [List.getElem?_replicate] at hi
    · intro i j a b _ hi
      simp [List.getElem?_replicate] at hi
  have hnil : some [] ∉ m := by
    intro hmem
    obtain ⟨i, hi⟩ := List.mem_iff_getElem?.1 hmem
    exact (h.packed.live i [] hi).1 rfl
  obtain ⟨p₂, hrepack, hpacked, hcount₂⟩ := repack_eq m [] PAGE_SIZE p₁ hempty
    (by simp only [List.length_nil, Nat.zero_add]; omega) hnil
  rw [List.length_nil] at hlive hrepack
  refine ⟨p₂.setFreeSpaceOffset (PAGE_SIZE - liveBytes m), ?_, ?_, ?_⟩
  · unfold RawPage.vacuumCompact
    simp only [bind, EStateM.bind, get, getThe, MonadStateOf.get, EStateM.get, h.count, hlive,
      check, hclear, hrepack, modify, modifyGet, MonadStateOf.modifyGet, EStateM.modifyGet]
  · have hoff : (p₂.setFreeSpaceOffset (PAGE_SIZE - liveBytes m)).freeSpaceOffset =
        PAGE_SIZE - liveBytes m := by
      unfold setFreeSpaceOffset freeSpaceOffset
      rw [field_setField _ (by decide)]
      exact Nat.mod_eq_of_lt (Nat.lt_of_le_of_lt (Nat.sub_le _ _) (by decide))
    refine ⟨?_, ?_⟩
    · rw [setFreeSpaceOffset, tupleCount, field_setField_disjoint _ (Or.inl (by decide))]
      exact hcount₂.trans (hcount₁.trans h.count)
    · rw [hoff]
      exact hpacked.header (by simp)
  · unfold setFreeSpaceOffset freeSpaceOffset
    rw [field_setField _ (by decide)]
    exact Nat.mod_eq_of_lt (Nat.lt_of_le_of_lt (Nat.sub_le _ _) (by decide))

/-! ## Runs -/

theorem Follows.andReturn {α β : Type} {p : RawPage} {m' : SlotMap} {a : α} {x : RawM α}
    (hf : Follows p a m' (x p)) (g : α → β) :
    Follows p (g a) m' ((x >>= fun v => pure (g v)) p) := by
  simp only [bind, EStateM.bind]
  revert hf
  generalize x p = r
  rintro (h | msg)
  · exact .ok h
  · exact .failed msg

/-- One operation follows the map. -/
theorem Op.apply_follows {p : RawPage} {m : SlotMap} (h : Holds p m) (op : Op) :
    Follows p (op.answer m) (op.spec m) (op.apply p) := by
  cases op with
  | insert data hne => exact (insert_follows h hne).andReturn some
  | delete slot => exact (delete_follows h slot).andReturn fun _ => none
  | setTupleXmax slot xmax => exact (setTupleXmax_follows h slot xmax).andReturn fun _ => none
  | setTupleCtid slot ctid => exact (setTupleCtid_follows h slot ctid).andReturn fun _ => none
  | vacuumCompact =>
    obtain ⟨q, hq, hholds, _⟩ := vacuumCompact_eq h
    have hf : Follows p () m (RawPage.vacuumCompact p) := hq ▸ .ok hholds
    exact hf.andReturn fun _ => none

/-- An operation on a page and its map; the map follows when the operation succeeds. -/
def Op.step (op : Op) (s : RawPage × SlotMap) : RawPage × SlotMap :=
  match op.apply s.1 with
  | .ok _ p' => (p', op.spec s.2)
  | .error _ p' => (p', s.2)

/-- A sequence of operations on a fresh page. -/
def runOps (pageId : Nat) (ops : List Op) : RawPage × SlotMap :=
  ops.foldl (fun s op => op.step s) (RawPage.new pageId, [])

theorem holds_new (pageId : Nat) : Holds (RawPage.new pageId) [] := by
  have hcount : (RawPage.new pageId).tupleCount = 0 := by
    unfold RawPage.new setFreeSpaceOffset setTupleCount tupleCount
    rw [field_setField_disjoint _ (Or.inl (by decide)), field_setField _ (by decide)]
    rfl
  have hoff : (RawPage.new pageId).freeSpaceOffset = PAGE_SIZE := by
    unfold RawPage.new setFreeSpaceOffset freeSpaceOffset
    rw [field_setField _ (by decide)]
    rfl
  refine ⟨hcount, ?_⟩
  rw [hoff]
  exact ⟨by decide, by decide, by simp, by simp, by simp⟩

theorem Op.step_holds {s : RawPage × SlotMap} (h : Holds s.1 s.2) (op : Op) :
    Holds (op.step s).1 (op.step s).2 := by
  have hf := op.apply_follows h
  unfold Op.step
  revert hf
  generalize op.apply s.1 = r
  rintro (h' | msg)
  · exact h'
  · exact h

theorem runOps_holds (pageId : Nat) (ops : List Op) :
    Holds (runOps pageId ops).1 (runOps pageId ops).2 := by
  suffices hrun : ∀ (ops : List Op) (s : RawPage × SlotMap), Holds s.1 s.2 →
      Holds (ops.foldl (fun s op => op.step s) s).1 (ops.foldl (fun s op => op.step s) s).2 from
    hrun ops _ (holds_new pageId)
  intro ops
  induction ops with
  | nil => exact fun s h => h
  | cons op ops ih => exact fun s h => ih _ (op.step_holds h)

/-- What the bytes of a page say about its slots: they are the positions of the map, a
lookup finds what the map holds, and the live tuples stand apart from each other, from the
slot array and inside the data area. -/
structure View (p : RawPage) (m : SlotMap) : Prop where
  dense : p.tupleCount = m.length
  lookup : ∀ i, p.getTuple i = .ok (m[i]?.getD none)
  inside : ∀ i, i < p.tupleCount → p.slotLen i ≠ 0 →
    slotPos p.tupleCount ≤ p.freeSpaceOffset ∧ p.freeSpaceOffset ≤ p.slotOff i ∧
      p.slotOff i + p.slotLen i ≤ PAGE_SIZE
  apart : ∀ i j, i < p.tupleCount → j < p.tupleCount → i ≠ j → p.slotLen i ≠ 0 →
    p.slotLen j ≠ 0 →
    p.slotOff i + p.slotLen i ≤ p.slotOff j ∨ p.slotOff j + p.slotLen j ≤ p.slotOff i

theorem Holds.live_of_len {p : RawPage} {m : SlotMap} (h : Holds p m) {i : Nat}
    (hi : i < p.tupleCount) (hlen : p.slotLen i ≠ 0) : ∃ bytes, m[i]? = some (some bytes) := by
  obtain ⟨_, ⟨_, hzero⟩ | ⟨bytes, hlive, _⟩⟩ := slot_cases h (by omega : ¬ p.tupleCount ≤ i)
  · exact absurd hzero hlen
  · exact ⟨bytes, hlive⟩

theorem Holds.view {p : RawPage} {m : SlotMap} (h : Holds p m) : View p m where
  dense := h.count
  lookup := h.getTuple
  inside i hi hlen := by
    obtain ⟨bytes, hlive⟩ := h.live_of_len hi hlen
    obtain ⟨_, _, hf, hend, _⟩ := h.packed.live i bytes hlive
    exact ⟨h.count ▸ h.packed.room, hf, hend⟩
  apart i j hi hj hij hleni hlenj := by
    obtain ⟨a, ha⟩ := h.live_of_len hi hleni
    obtain ⟨b, hb⟩ := h.live_of_len hj hlenj
    exact h.packed.apart i j a b hij ha hb

/-- A page that was made by `Page::new` and any sequence of operations is a view of the map
the same operations make of the empty one. Whatever is called next fails and leaves the
page alone, or returns what the map says: an insert gets the next slot id, no other
operation adds one. A compaction keeps every slot and frees all but the live bytes. -/
theorem slotted_page_refines (pageId : Nat) (ops : List Op) :
    View (runOps pageId ops).1 (runOps pageId ops).2 ∧
    (∀ op : Op,
      match op.apply (runOps pageId ops).1 with
      | .ok v p' => v = op.answer (runOps pageId ops).2 ∧ View p' (op.spec (runOps pageId ops).2)
      | .error _ p' => p' = (runOps pageId ops).1) ∧
    ∃ q, RawPage.vacuumCompact (runOps pageId ops).1 = .ok () q ∧
      View q (runOps pageId ops).2 ∧
      q.freeSpace + HEADER_SIZE + q.tupleCount * SLOT_SIZE + liveBytes (runOps pageId ops).2 =
        PAGE_SIZE := by
  have h := runOps_holds pageId ops
  refine ⟨h.view, fun op => ?_, ?_⟩
  · have hf := op.apply_follows h
    revert hf
    generalize op.apply (runOps pageId ops).1 = r
    rintro (h' | msg)
    · exact ⟨rfl, h'.view⟩
    · rfl
  · obtain ⟨q, hq, hholds, hoff⟩ := vacuumCompact_eq h
    refine ⟨q, hq, hholds.view, ?_⟩
    have hroom := hholds.packed.room
    have hbudget := h.packed.budget
    rw [hoff] at hroom
    simp only [freeSpace, hoff, hholds.count]
    simp only [slotPos] at hroom
    omega

end Ccdb.RawPage
