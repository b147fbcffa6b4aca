import Ccdb.Storage.Page

/-!
# Ccdb — page store

The buffer pool seen from above: pages by id, the allocator of
`DiskManager` and the recycled-page lists. Frames, pins and eviction move
contents between memory and disk without changing what a fetch returns, so
they do not appear here. Functions that fail part-way keep the writes they
have already made, which is why the state stays outside the result
(`EStateM`).

Main results:

* `newPage_ok` — a successful `new_page` returns a page that was not in
  use, leaves every used page alone and marks the new one used.
-/

namespace Ccdb

def NUM_SHARDS : Nat := 16

/-- Pages by id. `pageCount` is the length of the data file in pages;
`freeList` are the pages handed back by `recycle_page`, most recent first;
`diskPages` is how many pages the device can hold, so that every page id
stays below the `NO_NEXT_PAGE` sentinel. -/
structure BufferPool where
  pages : Nat → Page
  pageCount : Nat
  freeList : List Nat
  diskPages : Nat
  diskPages_le : diskPages ≤ NO_NEXT_PAGE

theorem nine_le_noNextPage : 9 ≤ NO_NEXT_PAGE := by decide

theorem hundred_le_noNextPage : 100 ≤ NO_NEXT_PAGE := by decide

abbrev PoolM := EStateM DbError BufferPool

namespace BufferPool

/-- The page is part of the file and not on a recycled-page list. -/
def Used (s : BufferPool) (p : Nat) : Prop := p < s.pageCount ∧ p ∉ s.freeList

instance (s : BufferPool) (p : Nat) : Decidable (s.Used p) :=
  inferInstanceAs (Decidable (_ ∧ _))

/-- Overwrite one page. -/
def set (s : BufferPool) (p : Nat) (page : Page) : BufferPool :=
  { s with pages := Function.update s.pages p page }

@[simp] theorem set_pages_self (s : BufferPool) (p : Nat) (page : Page) :
    (s.set p page).pages p = page := by
  simp [set]

theorem set_pages_ne (s : BufferPool) {p q : Nat} (page : Page) (h : q ≠ p) :
    (s.set p page).pages q = s.pages q := by
  simp [set, h]

@[simp] theorem set_pageCount (s : BufferPool) (p : Nat) (page : Page) :
    (s.set p page).pageCount = s.pageCount := rfl

@[simp] theorem set_freeList (s : BufferPool) (p : Nat) (page : Page) :
    (s.set p page).freeList = s.freeList := rfl

@[simp] theorem used_set (s : BufferPool) (p q : Nat) (page : Page) :
    (s.set p page).Used q ↔ s.Used q := Iff.rfl

/-- The recycled page `new_page` pops: shards are tried in order and each
shard's list is a stack. -/
def popFree (s : BufferPool) : Option Nat :=
  (List.range NUM_SHARDS).findSome? fun sh => s.freeList.find? fun p => p % NUM_SHARDS == sh

theorem popFree_mem {s : BufferPool} {p : Nat} (h : s.popFree = some p) : p ∈ s.freeList := by
  obtain ⟨sh, _, hp⟩ := List.exists_of_findSome?_eq_some h
  exact List.mem_of_find?_eq_some hp

end BufferPool

/-- `fetch_page`: reading past the end of the file is an I/O error. -/
def fetchPage (p : Nat) : PoolM Page := fun s =>
  if p < s.pageCount then .ok (s.pages p) s else .error (.io "failed to fill whole buffer") s

/-- Write through a page guard. -/
def writePage (p : Nat) (page : Page) : PoolM Unit := fun s => .ok () (s.set p page)

/-- The error of a file that cannot be extended. -/
def newPageError : DbError := .io "No space left on device"

/-- `new_page`: a recycled page if there is one, otherwise the file grows. -/
def newPage : PoolM Nat := fun s =>
  match s.popFree with
  | some p =>
    .ok p { s with pages := Function.update s.pages p (.new p), freeList := s.freeList.erase p }
  | none =>
    if s.pageCount < s.diskPages then
      .ok s.pageCount
        { s with
          pages := Function.update s.pages s.pageCount (.new s.pageCount)
          pageCount := s.pageCount + 1 }
    else .error newPageError s

/-- `page.insert(raw)?` through a write guard on page `p`. -/
def insertInto (p : Nat) (t : PageTuple) : PoolM Unit := fun s =>
  match (s.pages p).insert t with
  | .ok (_, page) => .ok () (s.set p page)
  | .error e => .error e s

/-! ## Well-formed pools -/

/-- What the allocator keeps: recycled pages are distinct pages of the file,
and the file fits the device. -/
structure BufferPool.WF (s : BufferPool) : Prop where
  nodup : s.freeList.Nodup
  free_lt : ∀ p ∈ s.freeList, p < s.pageCount
  count_le : s.pageCount ≤ s.diskPages

theorem BufferPool.WF.set {s : BufferPool} (h : s.WF) (p : Nat) (page : Page) :
    (s.set p page).WF := ⟨h.nodup, h.free_lt, h.count_le⟩

theorem BufferPool.Used.lt {s : BufferPool} {p : Nat} (h : s.Used p) : p < s.pageCount := h.1

theorem BufferPool.Used.ne_none {s : BufferPool} (hwf : s.WF) {p : Nat} (h : s.Used p) :
    p ≠ NO_NEXT_PAGE := by
  have := hwf.count_le
  have := s.diskPages_le
  have := h.1
  omega

theorem fetchPage_used {s : BufferPool} {p : Nat} (h : s.Used p) :
    fetchPage p s = .ok (s.pages p) s := by
  simp [fetchPage, h.1]

/-- **Allocation.** What a successful `new_page` does. -/
theorem newPage_ok {s s' : BufferPool} {p : Nat} (hwf : s.WF)
    (h : newPage s = .ok p s') :
    s'.WF ∧ ¬ s.Used p ∧ s'.pages p = .new p ∧ (∀ q, q ≠ p → s'.pages q = s.pages q) ∧
      (∀ q, s'.Used q ↔ s.Used q ∨ q = p) ∧ s.pageCount ≤ s'.pageCount := by
  unfold newPage at h
  cases hpop : s.popFree with
  | some r =>
    rw [hpop] at h
    simp only [EStateM.Result.ok.injEq] at h
    obtain ⟨rfl, rfl⟩ := h
    have hmem := BufferPool.popFree_mem hpop
    refine ⟨⟨hwf.nodup.erase _, fun q hq => hwf.free_lt q (List.mem_of_mem_erase hq), hwf.count_le⟩,
      fun hu => hu.2 hmem, by simp, fun q hq => by simp [hq], fun q => ?_, le_refl _⟩
    simp only [BufferPool.Used, hwf.nodup.mem_erase_iff]
    by_cases hq : q = r
    · subst hq
      simp [hwf.free_lt q hmem]
    · simp [hq]
  | none =>
    rw [hpop] at h
    dsimp only at h
    split at h
    · rename_i hlt
      simp only [EStateM.Result.ok.injEq] at h
      obtain ⟨rfl, rfl⟩ := h
      refine ⟨⟨hwf.nodup, fun q hq => Nat.lt_succ_of_lt (hwf.free_lt q hq), hlt⟩,
        fun hu => absurd hu.1 (by omega), by simp, fun q hq => by simp [hq], fun q => ?_,
        Nat.le_succ _⟩
      simp only [BufferPool.Used]
      constructor
      · rintro ⟨hq, hnf⟩
        by_cases hqe : q = s.pageCount
        · exact Or.inr hqe
        · exact Or.inl ⟨by omega, hnf⟩
      · rintro (⟨hq, hnf⟩ | rfl)
        · exact ⟨by omega, hnf⟩
        · exact ⟨by omega, fun hmem => absurd (hwf.free_lt _ hmem) (by omega)⟩
    · cases h

/-- The file never shrinks. -/
theorem newPage_count_le {s s' : BufferPool} {p : Nat} (h : newPage s = .ok p s') :
    s.pageCount ≤ s'.pageCount := by
  unfold newPage at h
  split at h
  · cases h
    exact le_refl _
  · split at h
    · cases h
      exact Nat.le_succ _
    · cases h

theorem newPage_error {s s' : BufferPool} {e : DbError} (h : newPage s = .error e s') :
    e = newPageError ∧ s' = s := by
  unfold newPage at h
  split at h
  · cases h
  · split at h
    · cases h
    · simp only [EStateM.Result.error.injEq] at h
      exact ⟨h.1.symm, h.2.symm⟩

/-! ## Room for new pages -/

/-- How many more pages can be allocated. -/
def BufferPool.room (s : BufferPool) : Nat := s.freeList.length + (s.diskPages - s.pageCount)

@[simp] theorem BufferPool.room_set (s : BufferPool) (p : Nat) (page : Page) :
    (s.set p page).room = s.room := rfl

theorem newPage_room {s s' : BufferPool} {p : Nat} (h : newPage s = .ok p s') :
    s.room ≤ s'.room + 1 ∧ s'.pageCount ≤ s.pageCount + 1 := by
  unfold newPage at h
  cases hpop : s.popFree with
  | some r =>
    rw [hpop] at h
    simp only [EStateM.Result.ok.injEq] at h
    obtain ⟨rfl, rfl⟩ := h
    have hlen := List.length_erase_of_mem (BufferPool.popFree_mem hpop)
    refine ⟨?_, Nat.le_succ _⟩
    simp only [BufferPool.room, hlen]
    omega
  | none =>
    rw [hpop] at h
    dsimp only at h
    split at h
    · simp only [EStateM.Result.ok.injEq] at h
      obtain ⟨rfl, rfl⟩ := h
      refine ⟨?_, le_refl _⟩
      simp only [BufferPool.room]
      omega
    · cases h

/-- A recycled page of any shard would have been taken. -/
theorem BufferPool.freeList_nil_of_popFree {s : BufferPool} (h : s.popFree = none) :
    s.freeList = [] := by
  rw [popFree, List.findSome?_eq_none_iff] at h
  refine List.eq_nil_iff_forall_not_mem.2 fun p hp => ?_
  have hshard : p % NUM_SHARDS < NUM_SHARDS := Nat.mod_lt _ (by decide)
  have hfind := List.find?_eq_none.1 (h (p % NUM_SHARDS) (List.mem_range.2 hshard)) p hp
  simp at hfind

theorem newPage_error_room {s s' : BufferPool} {e : DbError} (h : newPage s = .error e s') :
    s.room = 0 := by
  unfold newPage at h
  cases hpop : s.popFree with
  | some r => rw [hpop] at h; cases h
  | none =>
    rw [hpop] at h
    dsimp only at h
    split at h
    · cases h
    · rename_i hfull
      rw [BufferPool.room, BufferPool.freeList_nil_of_popFree hpop]
      simp only [List.length_nil]
      omega

end Ccdb
