import Ccdb.Exec.Trace
import Ccdb.Lib.Links

/-!
# Ccdb — heap files

A heap file is a chain of pages with rows on them. `Heaps` is the shape of all
heap files of a database: every chain ends, no page is in two places, none of
them is free. Next to the heap files there are index pages, of which only this
much matters here: a leaf is followed by a leaf.

Main results:

* `Heaps.seqScan_eq` — what a sequential scan returns.
* `Heaps.change`, `Heaps.alloc`, `Heaps.link`, `Heaps.unlink`, `Heaps.tree` — the
  ways a pool changes that keep the files apart.
-/

namespace Ccdb

open BTree (liftE pageFuel)

/-! ## Rows of a page -/

def PageTuple.row? : PageTuple → Option HeapTuple
  | .heap t => some t
  | _ => none

/-- The row in a slot. -/
def Slot.row? (s : Slot) : Option HeapTuple := s.tuple.bind PageTuple.row?

/-- The rows of a page in slot order. -/
def Page.rows (p : Page) : List HeapTuple := p.slots.filterMap Slot.row?

/-- Every live slot holds a row. -/
def Page.HoldsRows (p : Page) : Prop := ∀ s ∈ p.slots, ∀ x, s.tuple = some x → ∃ t, x = .heap t

/-- The rows of a slot directory from slot `i` on, with their slots. -/
def slotRows : Nat → List Slot → List (Nat × HeapTuple)
  | _, [] => []
  | i, s :: rest =>
    match s.row? with
    | some t => (i, t) :: slotRows (i + 1) rest
    | none => slotRows (i + 1) rest

theorem slotRows_snd : ∀ (i : Nat) (slots : List Slot),
    (slotRows i slots).map Prod.snd = slots.filterMap Slot.row?
  | _, [] => rfl
  | i, s :: rest => by
    unfold slotRows
    rw [List.filterMap_cons]
    cases s.row? with
    | none => exact slotRows_snd (i + 1) rest
    | some t => simp [slotRows_snd (i + 1) rest]

theorem liveRows_eq : ∀ (i : Nat) (slots : List Slot),
    (∀ s ∈ slots, ∀ x, s.tuple = some x → ∃ t, x = .heap t) →
      liveRows i slots = .ok (slotRows i slots)
  | _, [], _ => rfl
  | i, s :: rest, h => by
    have ih := liveRows_eq (i + 1) rest fun r hr => h r (List.mem_cons_of_mem _ hr)
    unfold liveRows slotRows Slot.row?
    cases hs : s.tuple with
    | none => exact ih
    | some x =>
      obtain ⟨t, rfl⟩ := h s List.mem_cons_self x hs
      rw [ih]
      rfl

theorem mem_slotRows {i k : Nat} {t : HeapTuple} : ∀ {slots : List Slot},
    (i, t) ∈ slotRows k slots → k ≤ i ∧ ∃ s, slots[i - k]? = some s ∧ s.row? = some t
  | [], h => by cases h
  | s :: rest, h => by
    have htail : (i, t) ∈ slotRows (k + 1) rest →
        k ≤ i ∧ ∃ r, (s :: rest)[i - k]? = some r ∧ r.row? = some t := by
      intro h
      obtain ⟨hle, r, hr, ht⟩ := mem_slotRows h
      refine ⟨by omega, r, ?_, ht⟩
      rw [show i - k = i - (k + 1) + 1 by omega, List.getElem?_cons_succ]
      exact hr
    unfold slotRows at h
    split at h
    · next u hu =>
      rcases List.mem_cons.1 h with heq | h
      · cases heq
        exact ⟨le_refl _, s, by simp, hu⟩
      · exact htail h
    · exact htail h

/-- What a scan reads off one page. -/
def seenOn (snap : Snapshot) (tm : TransactionManager) (p : Nat × Page) : List (Rid × List Value) :=
  (((slotRows 0 p.2.slots).map fun r => ((p.1, r.1), r.2)).filter fun r =>
    rowVisible p.2 r.2 snap tm).map fun r => (r.1, r.2.values)

theorem visibleOn_eq {p : Nat × Page} (h : p.2.HoldsRows) (snap : Snapshot) (tm : TransactionManager) :
    visibleOn snap tm p = .ok (seenOn snap tm p) := by
  unfold visibleOn pageRows
  rw [liveRows_eq 0 p.2.slots h]
  rfl

theorem mem_seenOn {snap : Snapshot} {tm : TransactionManager} {p : Nat × Page}
    {r : Rid × List Value} (h : r ∈ seenOn snap tm p) : r.1.1 = p.1 ∧
      ∃ t, p.2.getTuple r.1.2 = some (.heap t) ∧ rowVisible p.2 t snap tm = true := by
  obtain ⟨x, hx, rfl⟩ := List.mem_map.1 h
  obtain ⟨hx, hvis⟩ := List.mem_filter.1 hx
  obtain ⟨y, hy, rfl⟩ := List.mem_map.1 hx
  obtain ⟨-, s, hs, hrow⟩ := mem_slotRows hy
  obtain ⟨u, hu, htuple⟩ := Option.bind_eq_some_iff.1 hrow
  refine ⟨rfl, y.2, ?_, hvis⟩
  unfold Page.getTuple
  rw [show p.2.slots[y.1]? = some s from hs, Option.bind_some, hu]
  cases u <;> cases htuple
  rfl

theorem seenOn_snd (snap : Snapshot) (tm : TransactionManager) (p : Nat × Page) :
    (seenOn snap tm p).map Prod.snd =
      (p.2.rows.filter fun t => rowVisible p.2 t snap tm).map HeapTuple.values := by
  rw [Page.rows, ← slotRows_snd 0]
  simp only [seenOn, List.filter_map, List.map_map]
  rfl

/-! ## Changes of a page -/

variable {page page' : Page} {slot : Nat} {t : HeapTuple}

/-- A slot directory with one row replaced. -/
theorem filterMap_modify {slots : List Slot} {f : Slot → Slot} {r u : HeapTuple} {s : Slot}
    (hs : slots[slot]? = some s) (hr : s.row? = some r) (hu : (f s).row? = some u) :
    ∃ front back, slots.filterMap Slot.row? = front ++ r :: back ∧
      (slots.modify slot f).filterMap Slot.row? = front ++ u :: back := by
  obtain ⟨hlt, rfl⟩ := List.getElem?_eq_some_iff.1 hs
  refine ⟨(slots.take slot).filterMap Slot.row?, (slots.drop (slot + 1)).filterMap Slot.row?, ?_, ?_⟩
  · conv_lhs => rw [← List.take_append_drop slot slots, List.drop_eq_getElem_cons hlt]
    rw [List.filterMap_append, List.filterMap_cons, hr]
  · rw [List.modify_eq_take_cons_drop hlt, List.filterMap_append, List.filterMap_cons, hu]

theorem getTuple_eq_some {x : PageTuple} (h : page.getTuple slot = some x) :
    ∃ s, page.slots[slot]? = some s ∧ s.tuple = some x := by
  unfold Page.getTuple at h
  cases hs : page.slots[slot]? with
  | none => rw [hs] at h; cases h
  | some s => rw [hs] at h; exact ⟨s, rfl, h⟩

/-- What replacing the contents of a slot keeps. -/
theorem Page.HoldsRows.setSlot (h : page.HoldsRows) (slot : Nat) {x : Option PageTuple}
    (hx : ∀ y, x = some y → ∃ t, y = .heap t) : (page.setSlot slot x).HoldsRows := by
  intro s hs y hy
  have hs : s ∈ page.slots.modify slot fun s => { s with tuple := x } := hs
  obtain ⟨i, hi⟩ := List.mem_iff_getElem?.1 hs
  rw [List.getElem?_modify] at hi
  split at hi
  · obtain ⟨r, hr, rfl⟩ := Option.map_eq_some_iff.1 hi
    exact hx y hy
  · exact h s (List.mem_of_getElem? (by simpa using hi)) y hy

/-- `insert` of a row. -/
theorem insert_rows (h : page.insert (.heap t) = .ok (slot, page')) :
    page'.rows = page.rows ++ [t] ∧ page'.nextPageId = page.nextPageId ∧
      page'.pageKind = page.pageKind ∧ page'.pageId = page.pageId ∧ page'.allVisible = false ∧
      (page.HoldsRows → page'.HoldsRows) := by
  obtain ⟨-, -, rfl⟩ := Page.insert_inv h
  refine ⟨?_, rfl, rfl, rfl, rfl, fun hrows s hs x hx => ?_⟩
  · simp only [Page.rows, Page.push, List.filterMap_append]
    rfl
  · rcases List.mem_append.1 hs with hs | hs
    · exact hrows s hs x hx
    · rw [List.mem_singleton.1 hs] at hx
      exact ⟨t, (Option.some.inj hx).symm⟩

/-- A step of the transaction `id` on a page: a row that is in a slot afterwards has no
deleter, this one, or that of the row that was there. -/
def Aged (id : Nat) (page page' : Page) : Prop :=
  ∀ slot u, page'.getTuple slot = some (.heap u) → u.xmax = invalidTxnId ∨ u.xmax = id ∨
    ∃ t, page.getTuple slot = some (.heap t) ∧ t.xmax = u.xmax

theorem Aged.of_slots {id : Nat} (h : page'.slots = page.slots) : Aged id page page' := by
  intro slot u hu
  unfold Page.getTuple at hu
  rw [h] at hu
  exact Or.inr (Or.inr ⟨u, hu, rfl⟩)

theorem aged_insert {id : Nat} (h : page.insert (.heap t) = .ok (slot, page'))
    (ht : t.xmax = invalidTxnId) : Aged id page page' := by
  obtain ⟨-, -, rfl⟩ := Page.insert_inv h
  intro i u hu
  unfold Page.getTuple Page.push at hu
  by_cases hi : i < page.slots.length
  · rw [List.getElem?_append_left hi] at hu
    exact Or.inr (Or.inr ⟨u, hu, rfl⟩)
  · obtain ⟨s, hs, hu⟩ := Option.bind_eq_some_iff.1 hu
    rw [List.getElem?_append_right (Nat.not_lt.1 hi)] at hs
    rw [List.mem_singleton.1 (List.mem_of_getElem? hs)] at hu
    cases hu
    exact Or.inl ht

theorem aged_setSlot {id : Nat} {u : HeapTuple} (h : page.getTuple slot = some (.heap t))
    (hu : u.xmax = id ∨ u.xmax = t.xmax) : Aged id page (page.setSlot slot (some (.heap u))) := by
  intro i r hr
  obtain ⟨s, hs, hr⟩ := getTuple_eq_some hr
  have hs : (page.slots.modify slot fun s => { s with tuple := some (.heap u) })[i]? = some s := hs
  rw [List.getElem?_modify] at hs
  split at hs
  · next heq =>
    obtain ⟨s', -, rfl⟩ := Option.map_eq_some_iff.1 hs
    cases hr
    rcases hu with hu | hu
    · exact Or.inr (Or.inl hu)
    · exact Or.inr (Or.inr ⟨t, heq ▸ h, hu.symm⟩)
  · refine Or.inr (Or.inr ⟨r, ?_, rfl⟩)
    have hs : page.slots[i]? = some s := by simpa using hs
    unfold Page.getTuple
    rw [hs]
    exact hr

/-- The row in a slot is replaced. -/
structure Replaced (page page' : Page) (slot : Nat) (t u : HeapTuple) : Prop where
  get : page.getTuple slot = some (.heap t)
  rows : ∃ front back, page.rows = front ++ t :: back ∧ page'.rows = front ++ u :: back
  next : page'.nextPageId = page.nextPageId
  kind : page'.pageKind = page.pageKind
  id : page'.pageId = page.pageId
  holds : page.HoldsRows → page'.HoldsRows
  aged : ∀ x, u.xmax = x ∨ u.xmax = t.xmax → Aged x page page'

theorem replaced_setSlot {u : HeapTuple} (h : page.getTuple slot = some (.heap t)) :
    Replaced page (page.setSlot slot (some (.heap u))) slot t u := by
  obtain ⟨s, hs, ht⟩ := getTuple_eq_some h
  refine ⟨h, ?_, rfl, rfl, rfl, fun hrows => hrows.setSlot slot fun y hy => ?_,
    fun x hx => aged_setSlot h hx⟩
  · exact filterMap_modify (f := fun s => { s with tuple := some (.heap u) }) hs
      (by simp [Slot.row?, ht, PageTuple.row?]) rfl
  · exact ⟨u, (Option.some.inj hy).symm⟩

theorem setTupleXmax_rows {x : Nat} (h : page.setTupleXmax slot x = .ok page') :
    ∃ t, Replaced page page' slot t { t with xmax := x } ∧ page'.allVisible = false := by
  unfold Page.setTupleXmax at h
  split at h
  · cases h
  · next s hs =>
    split at h
    · cases h
    · next t ht =>
      cases h
      have hget : page.getTuple slot = some (.heap t) := by
        unfold Page.getTuple
        rw [hs]
        exact ht
      obtain ⟨h1, h2, h3, h4, h5, h6, h7⟩ := replaced_setSlot (u := { t with xmax := x }) hget
      exact ⟨t, ⟨h1, h2, h3, h4, h5, h6, h7⟩, rfl⟩
    · cases h

theorem setTupleCtid_rows {c : Rid} (h : page.setTupleCtid slot c = .ok page') :
    ∃ t, Replaced page page' slot t { t with ctid := c } ∧ page'.allVisible = page.allVisible := by
  unfold Page.setTupleCtid at h
  split at h
  · cases h
  · next s hs =>
    split at h
    · cases h
    · next t ht =>
      cases h
      have hget : page.getTuple slot = some (.heap t) := by
        unfold Page.getTuple
        rw [hs]
        exact ht
      exact ⟨t, replaced_setSlot hget, rfl⟩
    · cases h

/-! ## Heap files -/

/-- The link of a page. -/
def BufferPool.next (s : BufferPool) (p : Nat) : Nat := (s.pages p).nextPageId

/-- What the index pages keep to. -/
structure Leaves (s : BufferPool) : Prop where
  free : ∀ p ∈ s.freeList, (s.pages p).pageKind = .heap
  id : ∀ p < s.pageCount, (s.pages p).pageKind = .btreeLeaf → (s.pages p).pageId = p
  next : ∀ p < s.pageCount, (s.pages p).pageKind = .btreeLeaf → s.next p = NO_NEXT_PAGE ∨
    s.next p < s.pageCount ∧ (s.pages (s.next p)).pageKind = .btreeLeaf

/-- The heap files start at the pages `files`; `chain f` are the pages of the
one that starts at `f`. -/
structure Heaps (files : List Nat) (chain : Nat → List Nat) (s : BufferPool) : Prop where
  wf : s.WF
  leaves : Leaves s
  links : ∀ f ∈ files, Links s.next NO_NEXT_PAGE f (chain f) NO_NEXT_PAGE
  nodup : ∀ f ∈ files, (chain f).Nodup
  apart : ∀ f ∈ files, ∀ g ∈ files, ∀ p ∈ chain f, p ∈ chain g → f = g
  used : ∀ f ∈ files, ∀ p ∈ chain f, s.Used p
  kind : ∀ f ∈ files, ∀ p ∈ chain f, (s.pages p).pageKind = .heap
  rows : ∀ f ∈ files, ∀ p ∈ chain f, (s.pages p).HoldsRows

/-- What a reader that takes the rows `live` finds on the pages `ps`. -/
def BufferPool.contents (s : BufferPool) (ps : List Nat) (live : Nat → HeapTuple → Bool) :
    List (List Value) :=
  ps.flatMap fun p => ((s.pages p).rows.filter (live p)).map HeapTuple.values

theorem chainLoop_eq {s : BufferPool} : ∀ {fuel cur : Nat} {ps : List Nat},
    Links s.next NO_NEXT_PAGE cur ps NO_NEXT_PAGE → (∀ p ∈ ps, p < s.pageCount) → ps.length < fuel →
      chainLoop fuel cur s = .ok (ps.map fun p => (p, s.pages p)) s
  | 0, _, _, _, _, h => absurd h (Nat.not_lt_zero _)
  | fuel + 1, cur, [], hlinks, _, _ => by
    obtain rfl : cur = NO_NEXT_PAGE := hlinks
    unfold chainLoop
    rw [EStateM.bind_of_ok (show (get : PoolM BufferPool) s = .ok s s from rfl), if_pos (Or.inl rfl)]
    rfl
  | fuel + 1, cur, p :: ps, hlinks, hlt, hfuel => by
    obtain ⟨rfl, hne, hlinks⟩ := hlinks
    have hcur : cur < s.pageCount := hlt cur List.mem_cons_self
    have hrest : chainLoop fuel (s.pages cur).nextPageId s = .ok (ps.map fun p => (p, s.pages p)) s :=
      chainLoop_eq hlinks (fun p hp => hlt p (List.mem_cons_of_mem _ hp)) (by simpa using hfuel)
    unfold chainLoop
    rw [EStateM.bind_of_ok (show (get : PoolM BufferPool) s = .ok s s from rfl), if_neg (by omega),
      EStateM.bind_of_ok (fetchPage_lt hcur), EStateM.bind_of_ok hrest]
    rfl

/-- The walk to the tail ends at the last page of the chain. -/
theorem tailLoop_eq {s s' : BufferPool} {last : Nat} (hwf : s.WF) : ∀ {n cur : Nat} {ps : List Nat},
    Links s.next NO_NEXT_PAGE cur ps NO_NEXT_PAGE → tailLoop n cur s = .ok last s' →
      ∃ front, ps = front ++ [last]
  | 0, _, _, _, h => by cases h
  | n + 1, cur, ps, hlinks, h => by
    unfold tailLoop at h
    obtain ⟨hlt, h⟩ := fetchPage_bind h
    have hne : cur ≠ NO_NEXT_PAGE := by
      have := hwf.count_le
      have := s.diskPages_le
      omega
    cases ps with
    | nil => exact absurd hlinks hne
    | cons p ps =>
      obtain ⟨rfl, -, hlinks⟩ := hlinks
      split at h
      · next hend =>
        cases h
        have hps : ps = [] := by
          cases ps with
          | nil => rfl
          | cons q qs => exact absurd (hlinks.1.symm.trans hend) hlinks.2.1
        exact ⟨[], by rw [hps]; rfl⟩
      · obtain ⟨front, rfl⟩ := tailLoop_eq hwf hlinks h
        exact ⟨cur :: front, rfl⟩

namespace Heaps

variable {files : List Nat} {chain : Nat → List Nat} {s s' : BufferPool} {f p q : Nat}

theorem lt (h : Heaps files chain s) (hf : f ∈ files) (hp : p ∈ chain f) : p < s.pageCount :=
  (h.used f hf p hp).1

theorem chainPages_eq (h : Heaps files chain s) (hf : f ∈ files) :
    chainPages f s = .ok ((chain f).map fun p => (p, s.pages p)) s := by
  have hlen : (chain f).length ≤ s.pageCount :=
    (h.nodup f hf).length_le_of_lt fun p hp => h.lt hf hp
  exact chainLoop_eq (h.links f hf) (fun p hp => h.lt hf hp) (Nat.lt_succ_of_le hlen)

/-- The visible rows, page by page. -/
theorem visibleRows_eq (h : Heaps files chain s) (hf : f ∈ files) (snap : Snapshot)
    (tm : TransactionManager) : visibleRows f snap tm s =
      .ok (((chain f).map fun p => (p, s.pages p)).map (seenOn snap tm)).flatten s := by
  have hseen : ((chain f).map fun p => (p, s.pages p)).mapM (visibleOn snap tm) =
      .ok (((chain f).map fun p => (p, s.pages p)).map (seenOn snap tm)) := by
    refine mapM_ok fun a ha => ?_
    obtain ⟨p, hp, rfl⟩ := List.mem_map.1 ha
    exact visibleOn_eq (h.rows f hf p hp) snap tm
  unfold visibleRows
  rw [EStateM.bind_of_ok (h.chainPages_eq hf), hseen]
  rfl

/-- **Sequential scan.** The rows of the chain that are visible, in chain order. -/
theorem seqScan_eq (h : Heaps files chain s) (hf : f ∈ files) (snap : Snapshot)
    (tm : TransactionManager) : seqScan f snap tm s =
      .ok (s.contents (chain f) fun p t => rowVisible (s.pages p) t snap tm) s := by
  unfold seqScan
  rw [EStateM.bind_of_ok (h.visibleRows_eq hf snap tm)]
  refine congrArg (fun out => EStateM.Result.ok out s) ?_
  simp only [BufferPool.contents, List.map_flatten, List.map_map, List.flatMap_def]
  congr 1
  refine List.map_congr_left fun p _ => ?_
  exact seenOn_snd snap tm (p, s.pages p)

/-! ## Changes of the pool -/

/-- The link of a page after one page was overwritten. -/
theorem next_set (s : BufferPool) (p q : Nat) (page : Page) :
    (s.set q page).next p = if p = q then page.nextPageId else s.next p := by
  unfold BufferPool.next
  by_cases hp : p = q
  · rw [if_pos hp, hp, BufferPool.set_pages_self]
  · rw [if_neg hp, BufferPool.set_pages_ne _ _ hp]

/-- A fact about the pages of a pool, after one page was overwritten. -/
theorem pages_set {P : Nat → Page → Prop} {page : Page} (hpage : P q (s.pages q) → P q page)
    (h : P p (s.pages p)) : P p ((s.set q page).pages p) := by
  by_cases hp : p = q
  · subst hp
    rw [BufferPool.set_pages_self]
    exact hpage h
  · rw [BufferPool.set_pages_ne _ _ hp]
    exact h

/-- The contents of a page change; its place does not. -/
theorem change {page : Page} (h : Heaps files chain s) (hnext : page.nextPageId = s.next q)
    (hkind : page.pageKind = (s.pages q).pageKind) (hid : page.pageId = (s.pages q).pageId)
    (hrows : (s.pages q).HoldsRows → page.HoldsRows) : Heaps files chain (s.set q page) := by
  have hlinks : ∀ p, (s.set q page).next p = s.next p := by
    intro p
    rw [next_set]
    split
    · next hp => rw [hp, hnext]
    · rfl
  have hkinds : ∀ p, ((s.set q page).pages p).pageKind = (s.pages p).pageKind := fun p =>
    pages_set (P := fun p' x => x.pageKind = (s.pages p').pageKind) (fun _ => hkind) rfl
  have hids : ∀ p, ((s.set q page).pages p).pageId = (s.pages p).pageId := fun p =>
    pages_set (P := fun p' x => x.pageId = (s.pages p').pageId) (fun _ => hid) rfl
  refine ⟨h.wf.set q page, ⟨fun p hp => ?_, fun p hp hleaf => ?_, fun p hp hleaf => ?_⟩,
    fun f hf => (h.links f hf).congr fun p _ => hlinks p, h.nodup, h.apart, h.used,
    fun f hf p hp => ?_, fun f hf p hp => pages_set (P := fun _ x => x.HoldsRows) hrows (h.rows f hf p hp)⟩
  · rw [hkinds]
    exact h.leaves.free p hp
  · rw [hids]
    rw [hkinds] at hleaf
    exact h.leaves.id p hp hleaf
  · rw [hkinds] at hleaf
    rw [hlinks, hkinds]
    exact h.leaves.next p hp hleaf
  · rw [hkinds]
    exact h.kind f hf p hp

/-- A page that no file has becomes or stays an index page. -/
theorem tree {page : Page} (h : Heaps files chain s) (hq : s.Used q)
    (hout : ∀ f ∈ files, q ∉ chain f)
    (hleaf : (s.pages q).pageKind = .btreeLeaf → page.pageKind = .btreeLeaf)
    (hnew : page.pageKind = .btreeLeaf → page.pageId = q ∧ (page.nextPageId = NO_NEXT_PAGE ∨
      page.nextPageId < s.pageCount ∧ (s.pages page.nextPageId).pageKind = .btreeLeaf)) :
    Heaps files chain (s.set q page) := by
  have hold : ∀ f ∈ files, ∀ p ∈ chain f, (s.set q page).pages p = s.pages p := by
    intro f hf p hp
    refine BufferPool.set_pages_ne _ _ ?_
    rintro rfl
    exact hout f hf hp
  -- what was a leaf is one
  have hkeep : ∀ p, (s.pages p).pageKind = .btreeLeaf →
      ((s.set q page).pages p).pageKind = .btreeLeaf := fun p hp =>
    pages_set (P := fun _ x => x.pageKind = .btreeLeaf) hleaf hp
  refine ⟨h.wf.set q page, ⟨fun p hp => ?_, fun p hp hk => ?_, fun p hp hk => ?_⟩,
    fun f hf => (h.links f hf).congr fun p hp => ?_, h.nodup, h.apart, h.used, fun f hf p hp => ?_,
    fun f hf p hp => ?_⟩
  · have hne : p ≠ q := by
      rintro rfl
      exact hq.2 hp
    rw [BufferPool.set_pages_ne _ _ hne]
    exact h.leaves.free p hp
  · by_cases hpq : p = q
    · subst hpq
      rw [BufferPool.set_pages_self] at hk ⊢
      exact (hnew hk).1
    · rw [BufferPool.set_pages_ne _ _ hpq] at hk ⊢
      exact h.leaves.id p hp hk
  · rw [next_set]
    by_cases hpq : p = q
    · subst hpq
      rw [if_pos rfl]
      rw [BufferPool.set_pages_self] at hk
      exact (hnew hk).2.imp_right fun hn => ⟨hn.1, hkeep _ hn.2⟩
    · rw [if_neg hpq]
      rw [BufferPool.set_pages_ne _ _ hpq] at hk
      exact (h.leaves.next p hp hk).imp_right fun hn => ⟨hn.1, hkeep _ hn.2⟩
  · unfold BufferPool.next
    rw [hold f hf p hp]
  · rw [hold f hf p hp]
    exact h.kind f hf p hp
  · rw [hold f hf p hp]
    exact h.rows f hf p hp

/-- A page that is free after an allocation was free before. -/
theorem newPage_freeList (h : newPage s = .ok p s') : ∀ q ∈ s'.freeList, q ∈ s.freeList := by
  unfold newPage at h
  cases hpop : s.popFree with
  | some r =>
    rw [hpop] at h
    cases h
    exact fun q hq => List.mem_of_mem_erase hq
  | none =>
    rw [hpop] at h
    dsimp only at h
    split at h
    · cases h
      exact fun q hq => hq
    · cases h

/-- A page is allocated. -/
theorem alloc (h : Heaps files chain s) (hnew : newPage s = .ok p s') :
    Heaps files chain s' ∧ (∀ f ∈ files, p ∉ chain f) ∧ s'.Used p ∧ s'.pages p = .new p ∧
      ∀ q, q ≠ p → s'.pages q = s.pages q := by
  obtain ⟨hwf, hnot, hfresh, hframe, hused, hcount⟩ := newPage_ok h.wf hnew
  have hout : ∀ f ∈ files, p ∉ chain f := fun f hf hp => hnot (h.used f hf p hp)
  have hold : ∀ f ∈ files, ∀ q ∈ chain f, s'.pages q = s.pages q := by
    intro f hf q hq
    refine hframe q ?_
    rintro rfl
    exact hout f hf hq
  have hheap : (s'.pages p).pageKind = .heap := by
    rw [hfresh]
    rfl
  -- a leaf was one before
  have hleaf : ∀ q < s'.pageCount, (s'.pages q).pageKind = .btreeLeaf →
      q ≠ p ∧ q < s.pageCount ∧ (s.pages q).pageKind = .btreeLeaf := by
    intro q hq hk
    have hne : q ≠ p := by
      rintro rfl
      rw [hheap] at hk
      cases hk
    rw [hframe q hne] at hk
    refine ⟨hne, ?_, hk⟩
    by_cases hfree : q ∈ s'.freeList
    · exact h.wf.free_lt q (newPage_freeList hnew q hfree)
    · exact (((hused q).1 ⟨hq, hfree⟩).resolve_right hne).1
  refine ⟨⟨hwf, ⟨fun q hq => ?_, fun q hq hk => ?_, fun q hq hk => ?_⟩,
    fun f hf => (h.links f hf).congr fun q hq => ?_, h.nodup, h.apart,
    fun f hf q hq => (hused q).2 (Or.inl (h.used f hf q hq)), fun f hf q hq => ?_, fun f hf q hq => ?_⟩,
    hout, (hused p).2 (Or.inr rfl), hfresh, hframe⟩
  · by_cases hqp : q = p
    · rw [hqp, hheap]
    · rw [hframe q hqp]
      exact h.leaves.free q (newPage_freeList hnew q hq)
  · obtain ⟨hne, hlt, hk⟩ := hleaf q hq hk
    rw [hframe q hne]
    exact h.leaves.id q hlt hk
  · obtain ⟨hne, hlt, hk⟩ := hleaf q hq hk
    have hn : s'.next q = s.next q := congrArg Page.nextPageId (hframe q hne)
    rw [hn]
    refine (h.leaves.next q hlt hk).imp_right fun hl => ⟨lt_of_lt_of_le hl.1 hcount, ?_⟩
    have hnp : s.next q ≠ p := by
      intro heq
      rw [heq] at hl
      -- the page was free, and free pages are no leaves
      have hfree : p ∈ s.freeList := by
        by_contra hnf
        exact hnot ⟨hl.1, hnf⟩
      rw [h.leaves.free p hfree] at hl
      cases hl.2
    rw [hframe _ hnp]
    exact hl.2
  · unfold BufferPool.next
    rw [hold f hf q hq]
  · rw [hold f hf q hq]
    exact h.kind f hf q hq
  · rw [hold f hf q hq]
    exact h.rows f hf q hq

/-- A page with rows is linked behind the last page of a file. -/
theorem link {front : List Nat} {last : Nat} (h : Heaps files chain s) (hf : f ∈ files)
    (hchain : chain f = front ++ [last]) (hp : s.Used p) (hout : ∀ g ∈ files, p ∉ chain g)
    (hkind : (s.pages p).pageKind = .heap) (hrows : (s.pages p).HoldsRows)
    (hend : s.next p = NO_NEXT_PAGE) :
    Heaps files (Function.update chain f (front ++ [last, p]))
      (s.set last ((s.pages last).setNextPageId p)) := by
  have hlast : last ∈ chain f := hchain ▸ List.mem_append_right _ (List.mem_singleton_self _)
  have hpl : p ≠ last := fun heq => hout f hf (heq ▸ hlast)
  have hmem : ∀ {g q}, q ∈ Function.update chain f (front ++ [last, p]) g →
      q ∈ chain g ∨ g = f ∧ q = p := by
    intro g q hq
    by_cases hg : g = f
    · subst hg
      rw [Function.update_self] at hq
      simp only [List.mem_append, List.mem_cons, List.not_mem_nil, or_false] at hq
      rw [hchain]
      simp only [List.mem_append, List.mem_singleton]
      tauto
    · rw [Function.update_of_ne hg] at hq
      exact Or.inl hq
  have hpage : ∀ q, ((s.set last ((s.pages last).setNextPageId p)).pages q).pageKind =
      (s.pages q).pageKind := fun q =>
    pages_set (P := fun q' x => x.pageKind = (s.pages q').pageKind) (fun _ => rfl) rfl
  have hnext : ∀ q, q ≠ last → (s.set last ((s.pages last).setNextPageId p)).next q = s.next q :=
    fun q hq => by rw [next_set, if_neg hq]
  have hnodup : (front ++ [last]).Nodup := hchain ▸ h.nodup f hf
  have hheap : (s.pages last).pageKind = .heap := h.kind f hf last hlast
  refine ⟨h.wf.set _ _, ⟨fun q hq => ?_, fun q hq hk => ?_, fun q hq hk => ?_⟩, fun g hg => ?_,
    fun g hg => ?_, fun g hg k hk q hqg hqk => ?_, fun g hg q hq => ?_, fun g hg q hq => ?_,
    fun g hg q hq => ?_⟩
  · rw [hpage]
    exact h.leaves.free q hq
  · rw [hpage] at hk
    exact pages_set (P := fun q' x => x.pageId = q') (fun hid => hid) (h.leaves.id q hq hk)
  · rw [hpage] at hk
    have hne : q ≠ last := by
      rintro rfl
      rw [hheap] at hk
      cases hk
    rw [hnext q hne, hpage]
    exact h.leaves.next q hq hk
  · by_cases hgf : g = f
    · subst hgf
      rw [Function.update_self]
      have hlinks := h.links g hg
      rw [hchain] at hlinks
      refine hlinks.snoc (hp.ne_none h.wf) ?_ ?_ fun r hr => hnext r ?_
      · rw [next_set, if_pos rfl]
        rfl
      · rw [hnext p hpl, hend]
      · rintro rfl
        exact (List.nodup_append.1 hnodup).2.2 r hr r (List.mem_singleton_self _) rfl
    · rw [Function.update_of_ne hgf]
      refine (h.links g hg).congr fun r hr => hnext r ?_
      rintro rfl
      exact hgf (h.apart g hg f hf r hr hlast)
  · by_cases hgf : g = f
    · subst hgf
      rw [Function.update_self]
      have hp' : p ∉ front ++ [last] := hchain ▸ hout g hg
      have : (front ++ [last] ++ [p]).Nodup := by
        rw [List.nodup_append]
        refine ⟨hnodup, List.nodup_singleton p, fun a ha b hb hab => ?_⟩
        rw [List.mem_singleton.1 hb] at hab
        exact hp' (hab ▸ ha)
      simpa using this
    · rw [Function.update_of_ne hgf]
      exact h.nodup g hg
  · rcases hmem hqg with hold | ⟨rfl, rfl⟩
    · rcases hmem hqk with hold' | ⟨-, rfl⟩
      · exact h.apart g hg k hk q hold hold'
      · exact absurd hold (hout g hg)
    · rcases hmem hqk with hold' | ⟨rfl, -⟩
      · exact absurd hold' (hout k hk)
      · rfl
  · rcases hmem hq with hq | ⟨-, rfl⟩
    · exact h.used g hg q hq
    · exact hp
  · rw [hpage]
    rcases hmem hq with hq | ⟨-, rfl⟩
    · exact h.kind g hg q hq
    · exact hkind
  · refine pages_set (P := fun _ x => x.HoldsRows) (fun hr => hr) ?_
    rcases hmem hq with hq | ⟨-, rfl⟩
    · exact h.rows g hg q hq
    · exact hrows

/-- A page is taken out of its file and given back. -/
theorem unlink {front back : List Nat} {prev cur : Nat} {page : Page} (h : Heaps files chain s)
    (hf : f ∈ files) (hchain : chain f = front ++ prev :: cur :: back)
    (hnext : page.nextPageId = s.next cur) (hkind : page.pageKind = .heap)
    (hrows : page.HoldsRows) :
    Heaps files (Function.update chain f (front ++ prev :: back))
      { s.set prev page with freeList := cur :: s.freeList } := by
  set s' : BufferPool := { s.set prev page with freeList := cur :: s.freeList } with hs'
  have hprev : prev ∈ chain f := by simp [hchain]
  have hcur : cur ∈ chain f := by simp [hchain]
  have hnodup : (front ++ prev :: cur :: back).Nodup := hchain ▸ h.nodup f hf
  obtain ⟨hfront, hback, hdisj⟩ := List.nodup_append.1 hnodup
  obtain ⟨hpc, hcb⟩ := List.nodup_cons.1 hback
  have hcb : cur ∉ back := (List.nodup_cons.1 hcb).1
  have hmem : ∀ {g q}, q ∈ Function.update chain f (front ++ prev :: back) g → q ∈ chain g ∧ (g ∈ files → q ≠ cur) := by
    intro g q hq
    by_cases hg : g = f
    · subst hg
      rw [Function.update_self] at hq
      have hqc : q ≠ cur := by
        rintro rfl
        rcases List.mem_append.1 hq with hq | hq
        · exact hdisj q hq q (by simp) rfl
        · rcases List.mem_cons.1 hq with rfl | hq
          · exact hpc List.mem_cons_self
          · exact hcb hq
      refine ⟨?_, fun _ => hqc⟩
      rw [hchain]
      simp only [List.mem_append, List.mem_cons] at hq ⊢
      tauto
    · rw [Function.update_of_ne hg] at hq
      refine ⟨hq, fun hgf => ?_⟩
      rintro rfl
      exact hg (h.apart g hgf f hf q hq hcur)
  have hkindPrev : (s.pages prev).pageKind = .heap := h.kind f hf prev hprev
  have hkinds : ∀ q, (s'.pages q).pageKind = (s.pages q).pageKind := fun q =>
    pages_set (P := fun q' x => x.pageKind = (s.pages q').pageKind)
      (fun _ => hkind.trans hkindPrev.symm) rfl
  have hnexts : ∀ q, q ≠ prev → s'.next q = s.next q := by
    intro q hq
    show (s.set prev page).next q = _
    rw [next_set, if_neg hq]
  have hpages : ∀ q, q ≠ prev → s'.pages q = s.pages q := fun q hq =>
    BufferPool.set_pages_ne _ _ hq
  have hcurUsed := h.used f hf cur hcur
  refine ⟨⟨?_, ?_, h.wf.count_le⟩, ⟨fun q hq => ?_, fun q hq hk => ?_, fun q hq hk => ?_⟩,
    fun g hg => ?_, fun g hg => ?_, fun g hg k hk q hqg hqk => ?_, fun g hg q hq => ?_,
    fun g hg q hq => ?_, fun g hg q hq => ?_⟩
  · exact List.nodup_cons.2 ⟨hcurUsed.2, h.wf.nodup⟩
  · intro q hq
    rcases List.mem_cons.1 hq with rfl | hq
    · exact hcurUsed.1
    · exact h.wf.free_lt q hq
  · rw [hkinds]
    rcases List.mem_cons.1 hq with rfl | hq
    · exact h.kind f hf q hcur
    · exact h.leaves.free q hq
  · rw [hkinds] at hk
    have hne : q ≠ prev := by
      rintro rfl
      rw [hkindPrev] at hk
      cases hk
    rw [hpages q hne]
    exact h.leaves.id q hq hk
  · rw [hkinds] at hk
    have hne : q ≠ prev := by
      rintro rfl
      rw [hkindPrev] at hk
      cases hk
    rw [hnexts q hne, hkinds]
    exact h.leaves.next q hq hk
  · by_cases hgf : g = f
    · subst hgf
      rw [Function.update_self]
      have hlinks := h.links g hg
      rw [hchain] at hlinks
      refine hlinks.unlink ?_ (fun r hr => hnexts r ?_) fun r hr => hnexts r ?_
      · show (s.set prev page).next prev = _
        rw [next_set, if_pos rfl, hnext]
      · rintro rfl
        exact hdisj r hr r List.mem_cons_self rfl
      · rintro rfl
        exact hpc (List.mem_cons_of_mem _ hr)
    · rw [Function.update_of_ne hgf]
      refine (h.links g hg).congr fun r hr => hnexts r ?_
      rintro rfl
      exact hgf (h.apart g hg f hf r hr hprev)
  · by_cases hgf : g = f
    · subst hgf
      rw [Function.update_self]
      refine hnodup.sublist (List.Sublist.append_left ?_ front)
      exact (List.sublist_cons_self cur back).cons_cons prev
    · rw [Function.update_of_ne hgf]
      exact h.nodup g hg
  · exact h.apart g hg k hk q (hmem hqg).1 (hmem hqk).1
  · obtain ⟨hq, hne⟩ := hmem hq
    have hused := h.used g hg q hq
    exact ⟨hused.1, fun hfree => (List.mem_cons.1 hfree).elim (hne hg) hused.2⟩
  · rw [hkinds]
    exact h.kind g hg q (hmem hq).1
  · exact pages_set (P := fun _ x => x.HoldsRows) (fun _ => hrows) (h.rows g hg q (hmem hq).1)

end Heaps

end Ccdb
