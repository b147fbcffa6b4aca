import Ccdb.BTree.Fits
import Ccdb.BTree.Duplicates
import Ccdb.BTree.KeyCodec

/-!
# Ccdb — what a split loses

A leaf split rewrites the page before it asks for a sibling, cuts the entries in the
middle by their number and stores the second half last. When a half does not fit, or
`new_page` fails, the call returns in the middle of that. This module says exactly
when an insertion does all it has to whatever happens: the entries stay on the leaf
chain, and only `new_page` makes it fail.

Main results:

* `insertRecursive_eq` — the descent, the leaf and the climb back up.
* `climb_spec` — the splits above the leaf leave the leaf chain alone.
* `insert_keeps_iff` — the exact condition.
-/

namespace Ccdb

/-! ## Pages to allocate -/

theorem newPage_eq_error {s : BufferPool} (h : s.room = 0) : newPage s = .error newPageError s := by
  have hfree : s.freeList = [] := List.eq_nil_of_length_eq_zero (by unfold BufferPool.room at h; omega)
  have hpop : s.popFree = none := by
    unfold BufferPool.popFree
    simp [hfree]
  have hfull : ¬ s.pageCount < s.diskPages := by
    unfold BufferPool.room at h
    omega
  simp [newPage, hpop, hfull]

theorem newPage_eq_ok {s : BufferPool} (h : 0 < s.room) : ∃ p s', newPage s = .ok p s' := by
  cases hnew : newPage s with
  | ok p s' => exact ⟨p, s', rfl⟩
  | error e s' =>
    rw [newPage_error_room hnew] at h
    exact absurd h (lt_irrefl 0)

/-- A page that is allocated is one less to allocate. -/
theorem newPage_room_eq {s s' : BufferPool} {p : Nat} (h : newPage s = .ok p s') :
    s'.room + 1 = s.room := by
  unfold newPage at h
  cases hpop : s.popFree with
  | some r =>
    rw [hpop] at h
    cases h
    have hmem := BufferPool.popFree_mem hpop
    have hlen := List.length_erase_of_mem hmem
    have hpos := List.length_pos_of_mem hmem
    simp only [BufferPool.room, hlen]
    omega
  | none =>
    rw [hpop] at h
    dsimp only at h
    split at h
    · cases h
      simp only [BufferPool.room]
      omega
    · cases h

namespace BTree

open BPlus Page

variable {ty : DataType}

/-! ## Halves that do not fit -/

/-- The program fails, and not because of `new_page`. -/
def Breaks {α : Type} (x : PoolM α) (s : BufferPool) : Prop :=
  ∃ e s', x s = .error e s' ∧ e ≠ newPageError

theorem Breaks.bind {α β : Type} {x : PoolM α} {f : α → PoolM β} {s : BufferPool} (h : Breaks x s) :
    Breaks (x >>= f) s := by
  obtain ⟨e, s', hx, hne⟩ := h
  exact ⟨e, s', bind_error hx, hne⟩

theorem Breaks.bind_ok {α β : Type} {x : PoolM α} {f : α → PoolM β} {s s' : BufferPool} {a : α}
    (hx : x s = .ok a s') (h : Breaks (f a) s') : Breaks (x >>= f) s := by
  obtain ⟨e, s'', hf, hne⟩ := h
  exact ⟨e, s'', (BTree.bind_ok hx).trans hf, hne⟩

/-- Rebuilding a page out of entries that do not fit. -/
theorem insertAll_breaks {p : Nat} (ts : List PageTuple) : ∀ {s : BufferPool} {ts₀ : List PageTuple},
    Packed (s.pages p) ts₀ → ¬ HEADER_SIZE + spaceOf (ts₀ ++ ts) ≤ PAGE_SIZE →
    Breaks (insertAll p ts) s := by
  induction ts with
  | nil =>
    intro s ts₀ hp hfull
    exact absurd (by simpa using hp.room) hfull
  | cons t ts ih =>
    intro s ts₀ hp hfull
    by_cases hroom : HEADER_SIZE + spaceOf (ts₀ ++ [t]) ≤ PAGE_SIZE
    · have hone : insertInto p t s = .ok () (s.set p ((s.pages p).push t)) := by
        rw [insertInto, Page.insert_eq_ok ((packed_insert hp).2 hroom)]
      have hpushed : Packed ((s.set p ((s.pages p).push t)).pages p) (ts₀ ++ [t]) := by
        rw [BufferPool.set_pages_self]
        exact packed_push hp hroom
      exact Breaks.bind_ok hone (ih hpushed (by simpa using hfull))
    · obtain ⟨msg, herr⟩ := Page.insert_eq_error (not_le.1 (mt (packed_insert hp).1 hroom))
      refine Breaks.bind ⟨.bail msg, s, ?_, by simp [newPageError]⟩
      rw [insertInto, herr]

theorem insertAll_set_breaks {s : BufferPool} {p : Nat} {page : Page} {ts : List PageTuple}
    (hnew : Packed page []) (hfull : ¬ HEADER_SIZE + spaceOf ts ≤ PAGE_SIZE) :
    Breaks (insertAll p ts) (s.set p page) :=
  insertAll_breaks ts (by rwa [BufferPool.set_pages_self]) (by simpa using hfull)

/-! ## The split of a leaf -/

/-- The first half of the entries, cut by number. -/
abbrev leftHalf {β : Type} (es : List β) : List β := es.take (es.length / 2)

/-- The second half. -/
abbrev rightHalf {β : Type} (es : List β) : List β := es.drop (es.length / 2)

theorem splitLeaf_left_breaks {s : BufferPool} {p : Nat} {page : Page} {entries : List PageTuple}
    (hfull : ¬ HEADER_SIZE + spaceOf (leftHalf entries) ≤ PAGE_SIZE) :
    Breaks (splitLeaf p page entries) s :=
  Breaks.bind_ok rfl (Breaks.bind (insertAll_set_breaks (packed_resetPage _ _) hfull))

/-- With the first half in place, the rest of a leaf split starts at `new_page`. -/
theorem splitLeaf_eq {s : BufferPool} {p : Nat} {page : Page} {entries : List PageTuple}
    (hleft : HEADER_SIZE + spaceOf (leftHalf entries) ≤ PAGE_SIZE) :
    ∃ f : Nat → PoolM InsertOutcome, splitLeaf p page entries s = (newPage >>= f)
        (s.set p (pushAll (resetPage page NO_NEXT_PAGE) (leftHalf entries))) ∧
      (∀ q s', ¬ HEADER_SIZE + spaceOf (rightHalf entries) ≤ PAGE_SIZE → Breaks (f q) s') ∧
      ∀ q s' key rid rest, HEADER_SIZE + spaceOf (rightHalf entries) ≤ PAGE_SIZE →
        rightHalf entries = .leaf key rid :: rest →
        ∃ out s'', f q s' = .ok out s'' ∧ s''.room = s'.room := by
  rw [splitLeaf, bind_ok (writePage_apply _ _ _), bind_ok (insertAll_set (packed_resetPage _ _) hleft)]
  refine ⟨_, rfl, fun q s' hfull => ?_, fun q s' key rid rest hright hsplit => ?_⟩
  · exact Breaks.bind_ok rfl (Breaks.bind (insertAll_set_breaks ⟨rfl, rfl, by decide⟩ hfull))
  · have hdrop : entries.drop (entries.length / 2) = .leaf key rid :: rest := hsplit
    dsimp only
    rw [bind_ok (writePage_apply _ _ _), bind_ok (insertAll_set ⟨rfl, rfl, by decide⟩ hright), hdrop]
    exact ⟨_, _, rfl, rfl⟩

section Leaf

variable {s : BufferPool} {L : LeafNode ty} {k : Key ty} {rid : Rid}

theorem leftHalf_leafTuples (es : List (Key ty × Rid)) :
    leftHalf (leafTuples es) = leafTuples (leftHalf es) := by
  simp [leftHalf, leafTuples, List.map_take]

theorem rightHalf_leafTuples (es : List (Key ty × Rid)) :
    rightHalf (leafTuples es) = leafTuples (rightHalf es) := by
  simp [rightHalf, leafTuples, List.map_drop]

theorem leafFits_leftHalf {es : List (Key ty × Rid)} : (capacity ty).leafFits (leftHalf es) ↔
    HEADER_SIZE + spaceOf (leftHalf (leafTuples es)) ≤ PAGE_SIZE := by
  rw [leftHalf_leafTuples]
  rfl

theorem leafFits_rightHalf {es : List (Key ty × Rid)} : (capacity ty).leafFits (rightHalf es) ↔
    HEADER_SIZE + spaceOf (rightHalf (leafTuples es)) ≤ PAGE_SIZE := by
  rw [rightHalf_leafTuples]
  rfl

theorem insertLeaf_left_breaks (hp : IsLeafPage (s.pages L.id) L)
    (hnot : ¬ Present Key.rank k rid L.entries)
    (hfull : ¬ (capacity ty).leafFits (grow Key.rank k rid L.entries))
    (hleft : ¬ (capacity ty).leafFits (leftHalf (grow Key.rank k rid L.entries))) :
    Breaks (insertLeaf L.id (s.pages L.id) k.bytes rid ty) s := by
  unfold Breaks
  rw [insertLeaf_overflow hp hnot hfull]
  exact splitLeaf_left_breaks (mt leafFits_leftHalf.2 hleft)

/-- The cut leaf: its second half and its link are gone. -/
theorem insertLeaf_cut (hp : IsLeafPage (s.pages L.id) L)
    (hnot : ¬ Present Key.rank k rid L.entries)
    (hfull : ¬ (capacity ty).leafFits (grow Key.rank k rid L.entries))
    (hleft : (capacity ty).leafFits (leftHalf (grow Key.rank k rid L.entries)))
    (hroom : s.room = 0) : ∃ page,
      IsLeafPage page (⟨L.id, NO_NEXT_PAGE, leftHalf (grow Key.rank k rid L.entries)⟩ : LeafNode ty) ∧
      insertLeaf L.id (s.pages L.id) k.bytes rid ty s = .error newPageError (s.set L.id page) := by
  have hfit := leafFits_leftHalf.1 hleft
  obtain ⟨f, heq, -, -⟩ := @splitLeaf_eq s L.id (s.pages L.id) _ hfit
  have hhead := pushAll_header (resetPage (s.pages L.id) NO_NEXT_PAGE)
    (leftHalf (leafTuples (grow Key.rank k rid L.entries)))
  refine ⟨_, ⟨hhead.2.2.trans hp.kind, hhead.1.trans hp.pageId, hhead.2.1, ?_⟩, ?_⟩
  · rw [leftHalf_leafTuples] at hfit ⊢
    exact packed_rebuilt (packed_resetPage _ _) hfit
  · rw [insertLeaf_overflow hp hnot hfull, heq]
    exact bind_error (newPage_eq_error (by simpa using hroom))

theorem insertLeaf_right_breaks (hp : IsLeafPage (s.pages L.id) L)
    (hnot : ¬ Present Key.rank k rid L.entries)
    (hfull : ¬ (capacity ty).leafFits (grow Key.rank k rid L.entries))
    (hleft : (capacity ty).leafFits (leftHalf (grow Key.rank k rid L.entries)))
    (hright : ¬ (capacity ty).leafFits (rightHalf (grow Key.rank k rid L.entries)))
    (hroom : 0 < s.room) : Breaks (insertLeaf L.id (s.pages L.id) k.bytes rid ty) s := by
  obtain ⟨f, heq, hbreaks, -⟩ := @splitLeaf_eq s L.id (s.pages L.id) _
    (leafFits_leftHalf.1 hleft)
  obtain ⟨q, s', hnew⟩ := newPage_eq_ok (s := s.set L.id _) hroom
  unfold Breaks
  rw [insertLeaf_overflow hp hnot hfull, heq]
  exact Breaks.bind_ok hnew (hbreaks q s' (mt leafFits_rightHalf.2 hright))

/-- A leaf section that returns, and the pages it leaves to allocate. -/
theorem insertLeaf_returns (hp : IsLeafPage (s.pages L.id) L)
    (hok : Present Key.rank k rid L.entries ∨
      (capacity ty).leafFits (grow Key.rank k rid L.entries) ∨
      ((capacity ty).leafFits (leftHalf (grow Key.rank k rid L.entries)) ∧ 0 < s.room ∧
        (capacity ty).leafFits (rightHalf (grow Key.rank k rid L.entries)))) :
    ∃ out s', insertLeaf L.id (s.pages L.id) k.bytes rid ty s = .ok out s' ∧
      ((out = .fit) ∨ s'.room + 1 = s.room) := by
  by_cases hpres : Present Key.rank k rid L.entries
  · obtain ⟨b, hb, hpresent⟩ := leafHasEntry_eq k rid L.entries _ hp.packed.tuples
    refine ⟨.fit, s, ?_, Or.inl rfl⟩
    unfold insertLeaf
    rw [hb, bind_ok (liftE_ok _ _), if_pos (hpresent.2 hpres)]
    rfl
  by_cases hfits : (capacity ty).leafFits (grow Key.rank k rid L.entries)
  · obtain ⟨b, hb, hpresent⟩ := leafHasEntry_eq k rid L.entries _ hp.packed.tuples
    have hroom : fits (s.pages L.id) (PageTuple.leaf k.bytes rid).len = true :=
      (fits_iff (leafEntry ty) (fun e => beyond Key.rank k e.1) k rid hp.packed).2 hfits
    obtain ⟨s', hs'⟩ : ∃ s', insertLeaf L.id (s.pages L.id) k.bytes rid ty s = .ok .fit s' := by
      unfold insertLeaf
      rw [hb, bind_ok (liftE_ok _ _), if_neg fun h => hpres (hpresent.1 h)]
      simp only [if_pos hroom]
      exact ⟨_, bind_ok (insertSorted_ok (leafEntry ty) hp.kind hp.packed hfits)⟩
    exact ⟨.fit, s', hs', Or.inl rfl⟩
  obtain ⟨hleft, hroom, hright⟩ := (hok.resolve_left hpres).resolve_left hfits
  obtain ⟨f, heq, -, hdone⟩ := @splitLeaf_eq s L.id (s.pages L.id) _
    (leafFits_leftHalf.1 hleft)
  obtain ⟨q, s', hnew⟩ := newPage_eq_ok (s := s.set L.id _) hroom
  obtain ⟨e, es, hes⟩ : ∃ e es, rightHalf (grow Key.rank k rid L.entries) = e :: es := by
    refine List.exists_cons_of_ne_nil (List.ne_nil_of_length_pos ?_)
    simp only [rightHalf, List.length_drop, grow, insertBefore_length]
    omega
  obtain ⟨out, s'', hf, hkeep⟩ := hdone q s' e.1.bytes e.2 (leafTuples es) (leafFits_rightHalf.1 hright)
    (by rw [rightHalf_leafTuples, hes]; rfl)
  refine ⟨out, s'', ?_, Or.inr ?_⟩
  · rw [insertLeaf_overflow hp hpres hfits, heq, bind_ok hnew, hf]
  · rw [hkeep]
    simpa using newPage_room_eq hnew

end Leaf

/-! ## The split of an internal node -/

/-- The separators of a node with a new one. -/
abbrev withSep (sep : Key ty) (seps : List (Key ty)) : List (Key ty) :=
  insertBefore (beyond Key.rank sep) sep seps

/-- What steps at the internal nodes `ids` leave: the nodes still have their kind and
their first child, and nothing else that was in use has changed. -/
structure Climbed (s s' : BufferPool) (ids : List Nat) : Prop where
  wf : s'.WF
  used : ∀ q, s.Used q → s'.Used q
  frame : ∀ q, s.Used q → q ∉ ids → s'.pages q = s.pages q
  kept : ∀ q ∈ ids, (s'.pages q).pageKind = .btreeInternal ∧
    (s'.pages q).nextPageId = (s.pages q).nextPageId

namespace Climbed

variable {s s' s₁ s₂ : BufferPool} {id q : Nat} {ids : List Nat}

theorem refl (hwf : s.WF) : Climbed s s [] := ⟨hwf, fun _ h => h, fun _ _ _ => rfl, nofun⟩

/-- Rewriting a node's own page. -/
theorem set {page : Page} (hwf : s.WF) (hkind : page.pageKind = .btreeInternal)
    (hnext : page.nextPageId = (s.pages id).nextPageId) : Climbed s (s.set id page) [id] where
  wf := hwf.set _ _
  used _ h := h
  frame _ _ hne := s.set_pages_ne page (by simpa using hne)
  kept q hq := by
    rw [List.mem_singleton.1 hq, BufferPool.set_pages_self]
    exact ⟨hkind, hnext⟩

/-- After that a page is allocated and filled. -/
theorem newPage (h : Climbed s s₁ ids) (hu : ∀ q ∈ ids, s.Used q) (hnew : newPage s₁ = .ok q s₂)
    (page : Page) : Climbed s (s₂.set q page) ids := by
  obtain ⟨hwf, hfresh, -, hframe, hused, -⟩ := newPage_ok h.wf hnew
  have hsame : ∀ p, s.Used p → (s₂.set q page).pages p = s₁.pages p := by
    intro p hp
    have hne : p ≠ q := fun heq => hfresh (heq ▸ h.used p hp)
    rw [BufferPool.set_pages_ne _ _ hne, hframe p hne]
  refine ⟨hwf.set _ _, fun p hp => (hused p).2 (Or.inl (h.used p hp)), fun p hp hpid => ?_,
    fun p hp => ?_⟩
  · rw [hsame p hp, h.frame p hp hpid]
  · rw [hsame p (hu p hp)]
    exact h.kept p hp

/-- The nodes that were not reached. -/
theorem more {ids' : List Nat} (h : Climbed s s' ids) (hsub : ids ⊆ ids')
    (hnode : ∀ q ∈ ids', s.Used q ∧ (s.pages q).pageKind = .btreeInternal) :
    Climbed s s' ids' where
  wf := h.wf
  used := h.used
  frame q hq hne := h.frame q hq fun hin => hne (hsub hin)
  kept q hq := by
    by_cases hin : q ∈ ids
    · exact h.kept q hin
    · rw [h.frame q (hnode q hq).1 hin]
      exact ⟨(hnode q hq).2, rfl⟩

/-- One node, then the others. -/
theorem trans (h₁ : Climbed s s₁ [id]) (h₂ : Climbed s₁ s₂ ids) (hid : id ∉ ids)
    (hu : ∀ q ∈ id :: ids, s.Used q) : Climbed s s₂ (id :: ids) where
  wf := h₂.wf
  used q hq := h₂.used q (h₁.used q hq)
  frame q hq hne := by
    rw [List.mem_cons, not_or] at hne
    rw [h₂.frame q (h₁.used q hq) hne.2, h₁.frame q hq (by simpa using hne.1)]
  kept q hq := by
    rcases List.mem_cons.1 hq with rfl | hq
    · rw [h₂.frame q (h₁.used q (hu q List.mem_cons_self)) hid]
      exact h₁.kept q (List.mem_singleton_self q)
    · have hne : q ∉ [id] := by
        rintro hmem
        exact hid (List.mem_singleton.1 hmem ▸ hq)
      rw [← h₁.frame q (hu q (List.mem_cons_of_mem _ hq)) hne]
      exact h₂.kept q hq

end Climbed

theorem splitInternal_left_breaks {s : BufferPool} {p : Nat} {page : Page}
    {entries rest : List PageTuple} {key : Bytes} {child : Nat}
    (hdrop : rightHalf entries = .internal key child :: rest)
    (hfull : ¬ HEADER_SIZE + spaceOf (leftHalf entries) ≤ PAGE_SIZE) :
    Breaks (splitInternal p page entries) s := by
  have hdrop : entries.drop (entries.length / 2) = .internal key child :: rest := hdrop
  unfold Breaks
  simp only [splitInternal, hdrop]
  exact Breaks.bind_ok rfl
    (Breaks.bind_ok rfl (Breaks.bind (insertAll_set_breaks (packed_resetPage _ _) hfull)))

/-- With the first half in place, the rest of an internal split starts at `new_page`. -/
theorem splitInternal_eq {s : BufferPool} {p : Nat} {page : Page} {entries rest : List PageTuple}
    {key : Bytes} {child : Nat} (hdrop : rightHalf entries = .internal key child :: rest)
    (hleft : HEADER_SIZE + spaceOf (leftHalf entries) ≤ PAGE_SIZE) :
    ∃ f : Nat → PoolM InsertOutcome, splitInternal p page entries s = (newPage >>= f)
        (s.set p (pushAll (resetPage page page.nextPageId) (leftHalf entries))) ∧
      (∀ q s', ¬ HEADER_SIZE + spaceOf rest ≤ PAGE_SIZE → Breaks (f q) s') ∧
      ∀ q s', HEADER_SIZE + spaceOf rest ≤ PAGE_SIZE →
        ∃ page', f q s' = .ok (.split key q) (s'.set q page') := by
  have hdrop : entries.drop (entries.length / 2) = .internal key child :: rest := hdrop
  have hkey : asInternalEntry (.internal key child) = .ok (key, child) := rfl
  simp only [splitInternal, hdrop, hkey]
  rw [bind_ok (liftE_ok _ _), bind_ok (writePage_apply _ _ _),
    bind_ok (insertAll_set (packed_resetPage _ _) hleft)]
  refine ⟨_, rfl, fun q s' hfull => ?_, fun q s' hright => ?_⟩
  · exact Breaks.bind_ok rfl (Breaks.bind (insertAll_set_breaks ⟨rfl, rfl, by decide⟩ hfull))
  · dsimp only
    rw [bind_ok (writePage_apply _ _ _), bind_ok (insertAll_set ⟨rfl, rfl, by decide⟩ hright)]
    exact ⟨_, rfl⟩

section Node

variable {s : BufferPool} {id right : Nat} {kids : SepList (Key ty) Nat} {sep : Key ty}

theorem nodeFits_tuples {es : List (Key ty × Nat)} : (capacity ty).nodeFits (es.map Prod.fst) ↔
    HEADER_SIZE + spaceOf (nodeTuples es) ≤ PAGE_SIZE := by
  rw [spaceOf_nodeTuples]
  rfl

/-- What `insert_recursive` does at an internal node without room for the separator. -/
theorem absorbSplit_overflow (hu : s.Used id) (hp : IsNodePage (s.pages id) id kids)
    (hfull : ¬ (capacity ty).nodeFits (withSep sep kids.seps)) :
    ∃ es : List (Key ty × Nat), es.map Prod.fst = withSep sep kids.seps ∧
      absorbSplit id sep.bytes right ty s = splitInternal id (s.pages id) (nodeTuples es) s := by
  refine ⟨insertBefore (fun e => beyond Key.rank sep e.1) (sep, right) kids.tail, ?_, ?_⟩
  · rw [← tail_insertSep, ← SepList.seps_eq, seps_insertSep]
  · have hfits : ¬ fits (s.pages id) (PageTuple.internal sep.bytes right).len = true := fun hf => by
      refine hfull ?_
      have hfit := (fits_iff (nodeEntry ty) (fun e => beyond Key.rank sep e.1) sep right hp.packed).1 hf
      rw [withSep, ← seps_insertSep (r := right), SepList.seps_eq, tail_insertSep]
      exact nodeFits_tuples.2 hfit
    have hmerge : mergeEntry .btreeInternal sep.bytes (.internal sep.bytes right) ty false
        (s.pages id).slots = .ok (nodeTuples (insertBefore (fun e => beyond Key.rank sep e.1)
          (sep, right) kids.tail)) :=
      mergeEntry_eq (nodeEntry ty) sep right kids.tail _ hp.packed.tuples
    unfold absorbSplit
    rw [bind_ok (fetchPage_used hu)]
    simp only [if_neg hfits]
    rw [hmerge, bind_ok (liftE_ok _ _)]

/-- The node takes the separator. -/
theorem absorbSplit_fit (hwf : s.WF) (hu : s.Used id) (hp : IsNodePage (s.pages id) id kids)
    (hfits : (capacity ty).nodeFits (withSep sep kids.seps)) :
    ∃ s', absorbSplit id sep.bytes right ty s = .ok .fit s' ∧ Climbed s s' [id] := by
  have hspace : HEADER_SIZE + spaceOf ((nodeEntry ty).tuples (insertBefore
      (fun e => beyond Key.rank sep e.1) (sep, right) kids.tail)) ≤ PAGE_SIZE := by
    rw [withSep, ← seps_insertSep (r := right), SepList.seps_eq, tail_insertSep] at hfits
    exact nodeFits_tuples.1 hfits
  have hroom : fits (s.pages id) (PageTuple.internal sep.bytes right).len = true :=
    (fits_iff (nodeEntry ty) (fun e => beyond Key.rank sep e.1) sep right hp.packed).2 hspace
  have hhead := pushAll_header (resetPage (s.pages id) (s.pages id).nextPageId)
    ((nodeEntry ty).tuples (insertBefore (fun e => beyond Key.rank sep e.1) (sep, right) kids.tail))
  unfold absorbSplit
  rw [bind_ok (fetchPage_used hu)]
  simp only [if_pos hroom]
  exact ⟨_, bind_ok (insertSorted_ok (nodeEntry ty) hp.kind hp.packed hspace),
    Climbed.set hwf (hhead.2.2.trans hp.kind) hhead.2.1⟩

/-- The halves of the separators that the code cuts, and the one it promotes. -/
theorem nodeTuples_halves {es : List (Key ty × Nat)} {ks : List (Key ty)} (h : es.map Prod.fst = ks)
    (hpos : 0 < ks.length) : ∃ m child, ks[ks.length / 2]? = some m ∧
      rightHalf (nodeTuples es) = .internal m.bytes child ::
        nodeTuples (es.drop (es.length / 2 + 1)) ∧
      leftHalf (nodeTuples es) = nodeTuples (leftHalf es) := by
  have hlen : es.length = ks.length := by rw [← h, List.length_map]
  have hmid : es.length / 2 < es.length := by omega
  refine ⟨(es[es.length / 2]).1, (es[es.length / 2]).2, ?_, ?_, ?_⟩
  · rw [← hlen, ← h, List.getElem?_map, List.getElem?_eq_getElem hmid]
    rfl
  · simp only [rightHalf, nodeTuples, List.length_map]
    rw [← List.map_drop, List.drop_eq_getElem_cons hmid]
    rfl
  · simp [leftHalf, nodeTuples, List.map_take]

/-- **An internal split**: the condition under which nothing but `new_page` can fail. -/
theorem absorbSplit_split (hwf : s.WF) (hu : s.Used id) (hp : IsNodePage (s.pages id) id kids)
    (hfull : ¬ (capacity ty).nodeFits (withSep sep kids.seps)) :
    let ks := withSep sep kids.seps
    (¬ (capacity ty).nodeFits (leftHalf ks) → Breaks (absorbSplit id sep.bytes right ty) s) ∧
      ((capacity ty).nodeFits (leftHalf ks) → s.room = 0 →
        ∃ s', absorbSplit id sep.bytes right ty s = .error newPageError s' ∧ Climbed s s' [id]) ∧
      ((capacity ty).nodeFits (leftHalf ks) → 0 < s.room →
        ¬ (capacity ty).nodeFits (ks.drop (ks.length / 2 + 1)) →
        Breaks (absorbSplit id sep.bytes right ty) s) ∧
      ((capacity ty).nodeFits (leftHalf ks) → 0 < s.room →
        (capacity ty).nodeFits (ks.drop (ks.length / 2 + 1)) →
        ∃ m newId s', ks[ks.length / 2]? = some m ∧
          absorbSplit id sep.bytes right ty s = .ok (.split m.bytes newId) s' ∧
          Climbed s s' [id] ∧ s'.room + 1 = s.room) := by
  intro ks
  obtain ⟨es, hes, heq⟩ := @absorbSplit_overflow ty s id right kids sep hu hp hfull
  obtain ⟨m, child, hm, hright, hleft⟩ := nodeTuples_halves hes
    (by rw [withSep, insertBefore_length]; omega)
  have hes : es.map Prod.fst = ks := hes
  have hlen : es.length = ks.length := by rw [← hes, List.length_map]
  have hfitL : (capacity ty).nodeFits (leftHalf ks) ↔
      HEADER_SIZE + spaceOf (leftHalf (nodeTuples es)) ≤ PAGE_SIZE := by
    rw [hleft, ← nodeFits_tuples, leftHalf, leftHalf, ← hes, List.map_take, List.length_map]
  have hfitR : (capacity ty).nodeFits (ks.drop (ks.length / 2 + 1)) ↔
      HEADER_SIZE + spaceOf (nodeTuples (es.drop (es.length / 2 + 1))) ≤ PAGE_SIZE := by
    rw [← nodeFits_tuples, ← hlen, ← hes, List.map_drop]
  have hown : ∀ q ∈ [id], s.Used q := fun q hq => List.mem_singleton.1 hq ▸ hu
  unfold Breaks
  rw [heq]
  refine ⟨fun hl => splitInternal_left_breaks hright (mt hfitL.2 hl), fun hl hroom => ?_,
    fun hl hroom hr => ?_, fun hl hroom hr => ?_⟩
  all_goals
    obtain ⟨f, hf, hbreaks, hdone⟩ := @splitInternal_eq s id (s.pages id) _ _ _ _ hright (hfitL.1 hl)
    have hhead := pushAll_header (resetPage (s.pages id) (s.pages id).nextPageId)
      (leftHalf (nodeTuples es))
    have hclimbed : Climbed s _ [id] := Climbed.set hwf (hhead.2.2.trans hp.kind) hhead.2.1
    rw [hf]
  · exact ⟨_, bind_error (newPage_eq_error (by simpa using hroom)), hclimbed⟩
  · obtain ⟨q, s', hnew⟩ := newPage_eq_ok (s := s.set id _) hroom
    exact Breaks.bind_ok hnew (hbreaks q s' (mt hfitR.2 hr))
  · obtain ⟨q, s', hnew⟩ := newPage_eq_ok (s := s.set id _) hroom
    obtain ⟨page', hdone⟩ := hdone q s' (hfitR.1 hr)
    refine ⟨m, q, s'.set q page', hm, (bind_ok hnew).trans hdone, hclimbed.newPage hown hnew page', ?_⟩
    simpa using newPage_room_eq hnew

end Node

/-! ## The climb -/

/-- The internal nodes from the leaf's parent up to the root. -/
def ancestors (k : Key ty) : (d : Nat) → PageTree ty d → List (Nat × SepList (Key ty) Nat)
  | 0, _ => []
  | d + 1, t => ancestors k d ((Node.kids t).route (upTo Key.rank k)) ++
      [(Node.id t, (Node.kids t).map Tree.rootId)]

/-- What an ancestor does with the outcome from below. -/
def climbStep (ty : DataType) : InsertOutcome → Nat → PoolM InsertOutcome
  | .fit, _ => return .fit
  | .split sepKey right, id => absorbSplit id sepKey right ty

theorem bind_state_congr {α β : Type} {x y : PoolM α} {f g : α → PoolM β} {s : BufferPool}
    (h : x s = y s) (hfg : ∀ a, f a = g a) : (x >>= f) s = (y >>= g) s := by
  show EStateM.bind x f s = EStateM.bind y g s
  rw [EStateM.bind, EStateM.bind, h, funext hfg]

/-- **The recursion unrolled**: the leaf, then its ancestors. -/
theorem insertRecursive_eq (k : Key ty) (rid : Rid) {s : BufferPool} : ∀ (d : Nat)
    (t : PageTree ty d) (fuel : Nat), d < fuel → Repr s d t → (∀ q ∈ t.ids d, s.Used q) →
    insertRecursive k.bytes rid ty fuel t.rootId s =
      (insertLeaf (t.descend Key.rank k d).id (s.pages (t.descend Key.rank k d).id) k.bytes rid ty >>=
        ((ancestors k d t).map Prod.fst).foldlM (climbStep ty)) s
  | 0, t, fuel, hfuel, hr, hown => by
    obtain ⟨f, rfl⟩ := Nat.exists_eq_add_one.2 hfuel
    have hr : IsLeafPage (s.pages (Leaf.id t)) t := hr
    rw [insertRecursive, bind_ok (fetchPage_used (hown _ (rootId_mem_ids 0 t))), Tree.rootId, hr.kind]
    simp only [ancestors, List.map_nil, List.foldlM_nil, bind_pure]
    rfl
  | d + 1, t, fuel, hfuel, hr, hown => by
    obtain ⟨f, rfl⟩ := Nat.exists_eq_add_one.2 (Nat.zero_lt_of_lt hfuel)
    have hsub : ∀ q ∈ Tree.ids d ((Node.kids t).route (upTo Key.rank k)), s.Used q := by
      intro q hq
      refine hown q ?_
      rw [ids_succ k t]
      simp [hq]
    have hchild := insertRecursive_eq k rid d _ f (by omega) (hr.2 _ (SepList.route_mem_items _)) hsub
    rw [insertRecursive, bind_ok (fetchPage_used (hown _ (rootId_mem_ids (d + 1) t))), Tree.rootId,
      hr.1.kind]
    dsimp only
    rw [childFor_repr hr k, bind_ok (liftE_ok _ _)]
    simp only [ancestors, List.map_append, List.map_cons, List.map_nil, List.foldlM_append,
      List.foldlM_cons, List.foldlM_nil, bind_pure]
    rw [← bind_assoc]
    refine bind_state_congr hchild fun out => ?_
    cases out <;> rfl

/-- The separator alone fits on a page. -/
def Small (sep : Key ty) : Prop := HEADER_SIZE + (sep.bytes.length + 6 + SLOT_SIZE) ≤ PAGE_SIZE

/-- On the way up with the separator `sep` and `room` pages to allocate, past the
separators of the ancestors: the halves of each split fit, until an ancestor has room
or there is no page left. -/
def ClimbFits : Nat → Key ty → List (List (Key ty)) → Prop
  | _, _, [] => True
  | room, sep, seps :: rest =>
    let ks := withSep sep seps
    (capacity ty).nodeFits ks ∨ ((capacity ty).nodeFits (leftHalf ks) ∧
      (room = 0 ∨ ((capacity ty).nodeFits (ks.drop (ks.length / 2 + 1)) ∧
        ∀ m, ks[ks.length / 2]? = some m → ClimbFits (room - 1) m rest)))

/-- Separators that stand on a page are small. -/
theorem small_of_mem {s : BufferPool} {id : Nat} {kids : SepList (Key ty) Nat} {sep m : Key ty}
    (hp : IsNodePage (s.pages id) id kids) (hsep : Small sep) (hm : m ∈ withSep sep kids.seps) :
    Small m := by
  obtain ⟨x, y, hxy, hins, -, -⟩ := insertBefore_eq (beyond Key.rank sep) sep kids.seps
  have hcase : m = sep ∨ m ∈ kids.seps := by
    rw [withSep, hins] at hm
    rw [hxy]
    simp only [List.mem_append, List.mem_cons] at hm ⊢
    tauto
  rcases hcase with rfl | hm
  · exact hsep
  · have hroom := hp.packed.room
    rw [spaceOf_nodeTuples, ← SepList.seps_eq] at hroom
    have := len_le_spaceOf (t := .internal m.bytes 0) (l := kids.seps.map fun k => .internal k.bytes 0)
      (List.mem_map.2 ⟨m, hm, rfl⟩)
    rw [PageTuple.len_internal] at this
    unfold Small
    omega

theorem climb_fit (ids : List Nat) (s : BufferPool) :
    ids.foldlM (climbStep ty) .fit s = .ok .fit s := by
  induction ids with
  | nil => rfl
  | cons id ids ih =>
    rw [List.foldlM_cons]
    exact (bind_ok rfl).trans ih

/-- Only `new_page` fails, and what was in use keeps its place. -/
def ClimbsTo (s : BufferPool) (ids : List Nat) (x : PoolM InsertOutcome) : Prop :=
  (∃ out s', x s = .ok out s' ∧ Climbed s s' ids ∧
      (out = .fit ∨ ∃ (m : Key ty) (right : Nat), out = .split m.bytes right ∧ Small m)) ∨
    ∃ s', x s = .error newPageError s' ∧ Climbed s s' ids

/-- **The climb**: it succeeds or runs out of pages exactly when the halves fit. -/
theorem climb_spec : ∀ (anc : List (Nat × SepList (Key ty) Nat)) {s : BufferPool} {sep : Key ty}
    (right : Nat), s.WF → (∀ a ∈ anc, s.Used a.1 ∧ IsNodePage (s.pages a.1) a.1 a.2) →
    (anc.map Prod.fst).Nodup → Small sep →
    let x := (anc.map Prod.fst).foldlM (climbStep ty) (.split sep.bytes right)
    (ClimbFits s.room sep (anc.map fun a => a.2.seps) → @ClimbsTo ty s (anc.map Prod.fst) x) ∧
      (¬ ClimbFits s.room sep (anc.map fun a => a.2.seps) → Breaks x s)
  | [], s, sep, right, hwf, _, _, hsmall => by
    refine ⟨fun _ => Or.inl ⟨_, s, rfl, Climbed.refl hwf, Or.inr ⟨sep, right, rfl, hsmall⟩⟩, ?_⟩
    exact fun h => absurd trivial h
  | (id, kids) :: anc, s, sep, right, hwf, hanc, hnd, hsmall => by
    obtain ⟨hu, hp⟩ := hanc (id, kids) List.mem_cons_self
    have hnode : ∀ q ∈ id :: anc.map Prod.fst, s.Used q ∧ (s.pages q).pageKind = .btreeInternal := by
      intro q hq
      obtain ⟨a, ha, rfl⟩ := List.mem_map.1 (show q ∈ ((id, kids) :: anc).map Prod.fst from hq)
      exact ⟨(hanc a ha).1, (hanc a ha).2.kind⟩
    rw [List.map_cons, List.nodup_cons] at hnd
    simp only [List.map_cons, List.foldlM_cons, ClimbFits]
    by_cases hfits : (capacity ty).nodeFits (withSep sep kids.seps)
    · -- the node takes the separator
      obtain ⟨s', heq, hclimbed⟩ := @absorbSplit_fit ty s id right kids sep hwf hu hp hfits
      refine ⟨fun _ => Or.inl ⟨.fit, s', ?_, hclimbed.more (by simp) hnode, Or.inl rfl⟩,
        fun h => absurd (Or.inl hfits) h⟩
      exact (bind_ok heq).trans (climb_fit _ s')
    obtain ⟨hleftB, hcut, hrightB, hsplit⟩ := @absorbSplit_split ty s id right kids sep hwf hu hp hfits
    by_cases hleft : (capacity ty).nodeFits (leftHalf (withSep sep kids.seps))
    swap
    · exact ⟨fun h => absurd (h.resolve_left hfits).1 hleft, fun _ => (hleftB hleft).bind⟩
    by_cases hroom : s.room = 0
    · obtain ⟨s', heq, hclimbed⟩ := hcut hleft hroom
      exact ⟨fun _ => Or.inr ⟨s', bind_error heq, hclimbed.more (by simp) hnode⟩,
        fun h => absurd (Or.inr ⟨hleft, Or.inl hroom⟩) h⟩
    by_cases hright : (capacity ty).nodeFits ((withSep sep kids.seps).drop
        ((withSep sep kids.seps).length / 2 + 1))
    swap
    · exact ⟨fun h => absurd ((h.resolve_left hfits).2.resolve_left hroom).1 hright,
        fun _ => (hrightB hleft (Nat.pos_of_ne_zero hroom) hright).bind⟩
    obtain ⟨m, newId, s', hm, heq, hclimbed, hspent⟩ :=
      hsplit hleft (Nat.pos_of_ne_zero hroom) hright
    have hstep : climbStep ty (.split sep.bytes right) id s = .ok (.split m.bytes newId) s' := heq
    -- the rest of the climb, with the promoted separator
    have hrest := climb_spec anc newId hclimbed.wf (fun a ha => ?_) hnd.2
      (small_of_mem hp hsmall (List.mem_of_getElem? hm))
    swap
    · obtain ⟨hua, hpa⟩ := hanc a (List.mem_cons_of_mem _ ha)
      have hmem : a.1 ∈ anc.map Prod.fst := List.mem_map_of_mem ha
      have hne : a.1 ∉ [id] := fun hin => hnd.1 (List.mem_singleton.1 hin ▸ hmem)
      exact ⟨hclimbed.used _ hua, by rw [hclimbed.frame _ hua hne]; exact hpa⟩
    have hroom' : s'.room = s.room - 1 := by omega
    rw [hroom'] at hrest
    refine ⟨fun h => ?_, fun h => Breaks.bind_ok hstep (hrest.2 fun hfit => h ?_)⟩
    · have hown : ∀ q ∈ id :: anc.map Prod.fst, s.Used q := fun q hq => (hnode q hq).1
      have hfit := ((h.resolve_left hfits).2.resolve_left hroom).2 m hm
      rcases hrest.1 hfit with ⟨out, s₂, hx, hc, hout⟩ | ⟨s₂, hx, hc⟩
      · exact Or.inl ⟨out, s₂, (bind_ok hstep).trans hx, hclimbed.trans hc hnd.1 hown, hout⟩
      · exact Or.inr ⟨s₂, (bind_ok hstep).trans hx, hclimbed.trans hc hnd.1 hown⟩
    · refine Or.inr ⟨hleft, Or.inr ⟨hright, fun m' hm' => ?_⟩⟩
      rw [hm] at hm'
      exact Option.some.inj hm' ▸ hfit

/-! ## The root -/

/-- What `insert` does with the outcome of the recursion. -/
def rootStep (root : Nat) : InsertOutcome → PoolM Nat
  | .fit => return root
  | .split sepKey right => do
    let newRoot ← newPage
    writePage newRoot (initInternal (.new newRoot) root)
    insertInto newRoot (.internal sepKey right)
    return newRoot

theorem insert_eq {s : BufferPool} {root d : Nat} {t : PageTree ty d} (h : Stored s root d t)
    (k : Key ty) (rid : Rid) : insert root k.bytes rid ty s =
      (insertLeaf (t.descend Key.rank k d).id (s.pages (t.descend Key.rank k d).id) k.bytes rid ty >>=
        fun out => ((ancestors k d t).map Prod.fst).foldlM (climbStep ty) out >>= rootStep root) s := by
  have hrec := insertRecursive_eq k rid d t (s.pageCount + 1) h.depth_lt h.repr h.used
  rw [insert, bind_ok (pageFuel_apply s), ← bind_assoc, ← h.root_eq]
  refine bind_state_congr hrec fun out => ?_
  cases out <;> rfl

/-- A page that points to the old root. -/
structure AboveRoot (s₁ s' : BufferPool) (root root' : Nat) : Prop where
  fresh : ¬ s₁.Used root'
  used : s'.Used root'
  kind : (s'.pages root').pageKind = .btreeInternal
  next : (s'.pages root').nextPageId = root

/-- **The last step**: it returns, or `new_page` fails. -/
theorem rootStep_spec {s₁ s₂ : BufferPool} {ids : List Nat} {root : Nat} {out : InsertOutcome}
    (hc : Climbed s₁ s₂ ids) (hown : ∀ q ∈ ids, s₁.Used q)
    (hout : out = .fit ∨ ∃ (m : Key ty) (right : Nat), out = .split m.bytes right ∧ Small m) :
    ∃ s', Climbed s₁ s' ids ∧ (rootStep root out s₂ = .error newPageError s' ∨
      ∃ root', rootStep root out s₂ = .ok root' s' ∧
        (root' = root ∨ AboveRoot s₁ s' root root')) := by
  rcases hout with rfl | ⟨m, right, rfl, hsmall⟩
  · exact ⟨s₂, hc, Or.inr ⟨root, rfl, Or.inl rfl⟩⟩
  by_cases hroom : s₂.room = 0
  · exact ⟨s₂, hc, Or.inl (bind_error (newPage_eq_error hroom))⟩
  obtain ⟨q, s₃, hnew⟩ := newPage_eq_ok (Nat.pos_of_ne_zero hroom)
  have hpacked : Packed (initInternal (.new q) root) [] := ⟨rfl, rfl, by decide⟩
  let page := (initInternal (.new q) root).push (.internal m.bytes right)
  have hinsert : insertInto q (.internal m.bytes right) (s₃.set q (initInternal (.new q) root)) =
      .ok () (s₃.set q page) := by
    have hfit : HEADER_SIZE + spaceOf ([] ++ [.internal m.bytes right]) ≤ PAGE_SIZE := by
      simpa [Small] using hsmall
    rw [insertInto, BufferPool.set_pages_self, insert_eq_ok ((packed_insert hpacked).2 hfit)]
    simp [BufferPool.set, page]
  obtain ⟨-, hfresh, -, -, hused, -⟩ := newPage_ok hc.wf hnew
  refine ⟨s₃.set q page, hc.newPage hown hnew page,
    Or.inr ⟨q, ?_, Or.inr ⟨fun hu => hfresh (hc.used q hu), ?_, ?_, ?_⟩⟩⟩
  · exact (bind_ok hnew).trans ((bind_ok rfl).trans (bind_ok hinsert))
  · exact (hused q).2 (Or.inr rfl)
  · rw [BufferPool.set_pages_self]
    rfl
  · rw [BufferPool.set_pages_self]
    rfl

/-! ## The leaf chain afterwards -/

theorem ancestors_node {s : BufferPool} (k : Key ty) : ∀ (d : Nat) (t : PageTree ty d), Repr s d t →
    ∀ a ∈ ancestors k d t, IsNodePage (s.pages a.1) a.1 a.2
  | 0, _, _, _, ha => absurd ha List.not_mem_nil
  | d + 1, t, hr, a, ha => by
    rcases List.mem_append.1 ha with ha | ha
    · exact ancestors_node k d _ (hr.2 _ (SepList.route_mem_items _)) a ha
    · rw [List.mem_singleton.1 ha]
      exact hr.1

/-- The pages on the way to a leaf are different pages of the tree. -/
theorem path_subperm (k : Key ty) : ∀ (d : Nat) (t : PageTree ty d),
    ((t.descend Key.rank k d).id :: (ancestors k d t).map Prod.fst).Subperm (t.ids d)
  | 0, _ => List.Subperm.refl _
  | d + 1, t => by
    have hchild := path_subperm k d ((Node.kids t).route (upTo Key.rank k))
    have hperm : List.Perm ((t.descend Key.rank k (d + 1)).id :: (ancestors k (d + 1) t).map Prod.fst)
        (Node.id t :: ((((Node.kids t).route (upTo Key.rank k)).descend Key.rank k d).id ::
          (ancestors k d ((Node.kids t).route (upTo Key.rank k))).map Prod.fst)) := by
      simp only [ancestors, List.map_append, List.map_cons, List.map_nil, ← List.cons_append]
      exact List.perm_append_singleton _ _
    refine hperm.subperm.trans ?_
    rw [ids_succ k t, List.append_assoc, List.cons_append, List.subperm_cons]
    exact (hchild.trans (List.sublist_append_left _ _).subperm).trans
      (List.sublist_append_right _ _).subperm

section Chain

variable {s s' : BufferPool} {root d : Nat} {t : PageTree ty d} {A B mid : List (LeafNode ty)}
  {L : LeafNode ty}

/-- The chain with `mid` in the place of `L`, read from the leftmost leaf. -/
theorem leafChain_after (h : OnPages s root d t) (hitems : (t.flat d).items = A ++ L :: B)
    {B' : List (LeafNode ty)} (hsub : B'.Sublist B) (hlinkB : Linked NO_NEXT_PAGE B') (hwf : s'.WF)
    (hused : ∀ q, s.Used q → s'.Used q)
    (hframe : ∀ M ∈ A ++ B', s'.pages M.id = s.pages M.id)
    (hmid : ∀ M ∈ mid, IsLeafPage (s'.pages M.id) M ∧ s'.Used M.id)
    (hhead : mid.head?.map Leaf.id = some L.id)
    (hlink : Linked ((B'.head?.map Leaf.id).getD NO_NEXT_PAGE) mid)
    (hnd : ((A ++ mid ++ B').map Leaf.id).Nodup) {root' : Nat}
    (hleft : leftmostLeaf root' s' = .ok (t.flat d).head.id s') :
    leafChain root' s' =
      .ok ((A ++ mid ++ B').map fun M => (M.id, rawEntries M.entries)) s' := by
  have hold : ∀ M ∈ A ++ B', M ∈ (t.flat d).items := by
    intro M hM
    rw [hitems]
    rcases List.mem_append.1 hM with hM | hM
    · exact List.mem_append_left _ hM
    · exact List.mem_append_right _ (List.mem_cons_of_mem _ (hsub.subset hM))
  have hchain : ChainOn s' (A ++ mid ++ B') := by
    have hpage : ∀ M ∈ A ++ mid ++ B', IsLeafPage (s'.pages M.id) M ∧ s'.Used M.id := by
      intro M hM
      have hM : M ∈ A ++ B' ∨ M ∈ mid := by
        simp only [List.mem_append] at hM ⊢
        tauto
      rcases hM with hM | hM
      · rw [hframe M hM]
        exact ⟨h.repr.leaf_page d t M (hold M hM),
          hused _ (h.used _ (leaf_id_mem_ids d t M (hold M hM)))⟩
      · exact hmid M hM
    refine ⟨?_, fun M hM => (hpage M hM).1, fun M hM => (hpage M hM).2⟩
    have hlinked := h.linked
    rw [hitems, linked_append] at hlinked
    rw [List.append_assoc, linked_append, linked_append]
    refine ⟨?_, hlink, hlinkB⟩
    obtain ⟨M, rest, rfl⟩ : ∃ M rest, mid = M :: rest := by
      cases mid with
      | nil => cases hhead
      | cons M rest => exact ⟨M, rest, rfl⟩
    have hid : M.id = L.id := by simpa using hhead
    simpa [hid] using hlinked.1
  -- the first leaf is the one it was
  obtain ⟨M, ls, hls, hM⟩ : ∃ M ls, A ++ mid ++ B' = M :: ls ∧ M.id = (t.flat d).head.id := by
    have hfirst : (A ++ mid ++ B').head?.map Leaf.id = some (t.flat d).head.id := by
      have hflat : ((t.flat d).items).head?.map Leaf.id = some (t.flat d).head.id := by
        rw [SepList.items_eq]
        rfl
      rw [hitems] at hflat
      cases A with
      | nil =>
        cases mid with
        | nil => cases hhead
        | cons M rest => exact hhead.trans hflat
      | cons M rest => exact hflat
    cases hall : A ++ mid ++ B' with
    | nil =>
      rw [hall] at hfirst
      cases hfirst
    | cons M ls =>
      rw [hall] at hfirst
      exact ⟨M, ls, rfl, by simpa using hfirst⟩
  have hlen := length_le_pageCount hnd fun q hq => by
    obtain ⟨N, hN, rfl⟩ := List.mem_map.1 hq
    exact hchain.used N hN
  rw [List.length_map, hls, List.length_cons] at hlen
  rw [hls] at hchain ⊢
  rw [leafChain, bind_ok hleft, bind_ok (pageFuel_apply s'), ← hM]
  exact chainFrom_eq hwf ls M _ (by omega) hchain

end Chain

/-- `leftmost_leaf` from the old root, and from a page above it. -/
theorem leftmostLeaf_after {s s₁ s' : BufferPool} {root root' d : Nat} {t : PageTree ty d}
    (h : Stored s root d t) (hused : ∀ q ∈ t.ids d, s₁.Used q) (hused' : ∀ q ∈ t.ids d, s'.Used q)
    (hsame : SameShape s s' (t.ids d)) (hroot : root' = root ∨ AboveRoot s₁ s' root root') :
    leftmostLeaf root' s' = .ok (t.flat d).head.id s' := by
  have hdepth := ids_length_pos d t
  rw [leftmostLeaf, bind_ok (pageFuel_apply s')]
  rcases hroot with rfl | habove
  · have hlen := length_le_pageCount h.nodup hused'
    rw [← h.root_eq]
    exact leftmostLoop_shape d t _ (by omega) h.repr hused' hsame
  · have hnd : (root' :: t.ids d).Nodup :=
      List.nodup_cons.2 ⟨fun hin => habove.fresh (hused _ hin), h.nodup⟩
    have hlen := length_le_pageCount hnd fun q hq => by
      rcases List.mem_cons.1 hq with rfl | hq
      · exact habove.used
      · exact hused' q hq
    rw [List.length_cons] at hlen
    rw [leftmostLoop, bind_ok (fetchPage_used habove.used), habove.kind]
    dsimp only
    rw [habove.next, ← h.root_eq]
    exact leftmostLoop_shape d t _ (by omega) h.repr hused' hsame

/-! ## Insertions that keep what was stored -/

/-- The pairs on a leaf chain. -/
def pairsOf (chain : List (Nat × List (Bytes × Rid))) : List (Bytes × Rid) :=
  (chain.map Prod.snd).flatten

/-- Whether `insert` returns `Ok` or fails, what was on the leaf chain is on it
afterwards, and it fails because of `new_page` only. -/
def InsertKeeps (s : BufferPool) (root : Nat) (key : Bytes) (rid : Rid) (ty : DataType) : Prop :=
  ∃ before, leafChain root s = .ok before s ∧
    match insert root key rid ty s with
    | .ok root' s' =>
      ∃ after, leafChain root' s' = .ok after s' ∧ (pairsOf before).Subperm (pairsOf after)
    | .error e s' => e = newPageError ∧
      ∃ after, leafChain root s' = .ok after s' ∧ (pairsOf before).Subperm (pairsOf after)

/-- The leaf has the pair or room for it; or both halves of its entries fit, `new_page`
succeeds and the climb goes through; or `new_page` fails and the second half is the new
entry alone, with no entry behind the leaf. -/
def InsertFits (s : BufferPool) {d : Nat} (t : PageTree ty d) (k : Key ty) (rid : Rid) : Prop :=
  let L := t.descend Key.rank k d
  let es := grow Key.rank k rid L.entries
  Present Key.rank k rid L.entries ∨ (capacity ty).leafFits es ∨
    ((capacity ty).leafFits (leftHalf es) ∧
      ((s.room = 0 ∧ rightHalf es = [(k, rid)] ∧
          ∀ A B, (t.flat d).items = A ++ L :: B → ∀ M ∈ B, M.entries = []) ∨
        (0 < s.room ∧ (capacity ty).leafFits (rightHalf es) ∧
          ∀ e, (rightHalf es).head? = some e →
            ClimbFits (s.room - 1) e.1 ((ancestors k d t).map fun a => a.2.seps))))

theorem pairsOf_map (ls : List (LeafNode ty)) :
    pairsOf (ls.map fun M => (M.id, rawEntries M.entries)) = rawEntries (ls.flatMap Leaf.entries) := by
  induction ls with
  | nil => rfl
  | cons M ls ih =>
    simp only [pairsOf, List.map_cons, List.flatten_cons, rawEntries, List.flatMap_cons,
      List.map_append] at ih ⊢
    rw [ih]

section Keeps

variable {s : BufferPool} {root d : Nat} {t : PageTree ty d} {k : Key ty} {rid : Rid}

theorem Breaks.not_keeps (h : Breaks (insert root k.bytes rid ty) s) :
    ¬ InsertKeeps s root k.bytes rid ty := by
  obtain ⟨e, s', heq, hne⟩ := h
  rintro ⟨before, -, hkeep⟩
  rw [heq] at hkeep
  exact hne hkeep.1

/-- A leaf that was cut is the last one on the chain. -/
theorem leafChain_cut (h : OnPages s root d t) {A B : List (LeafNode ty)}
    (hitems : (t.flat d).items = A ++ t.descend Key.rank k d :: B) {page : Page}
    {es : List (Key ty × Rid)} (hpage : IsLeafPage page
      (⟨(t.descend Key.rank k d).id, NO_NEXT_PAGE, es⟩ : LeafNode ty)) :
    leafChain root (s.set (t.descend Key.rank k d).id page) =
      .ok ((A ++ [(⟨(t.descend Key.rank k d).id, NO_NEXT_PAGE, es⟩ : LeafNode ty)]).map fun M =>
        (M.id, rawEntries M.entries)) (s.set (t.descend Key.rank k d).id page) := by
  let L := t.descend Key.rank k d
  let s' := s.set L.id page
  have hmem : L ∈ (t.flat d).items := descend_mem_items k d t
  have hold : IsLeafPage (s.pages L.id) L := h.repr.leaf_page d t L hmem
  have hids : ((A ++ L :: B).map Leaf.id).Nodup := hitems ▸ h.nodup.sublist (leaf_ids_sublist d t)
  have hsame : SameShape s s' (t.ids d) := by
    intro q hq
    by_cases hqL : q = L.id
    · subst hqL
      rw [show s'.pages L.id = page from s.set_pages_self _ _, hold.kind]
      exact ⟨hpage.kind, nofun⟩
    · rw [show s'.pages q = s.pages q from s.set_pages_ne page hqL]
      exact ⟨rfl, fun _ => rfl⟩
  have hchain := @leafChain_after ty s s' root d t A B [⟨L.id, NO_NEXT_PAGE, es⟩] L h hitems []
    (List.nil_sublist B) trivial (h.wf.set _ _) (fun _ hq => hq) (fun M hM => ?_) (fun M hM => ?_)
    rfl ⟨rfl, trivial⟩ ?_ root (leftmostLeaf_after h.toStored h.used h.used hsame (Or.inl rfl))
  · simpa using hchain
  · refine s.set_pages_ne page fun heq => ?_
    rw [List.append_nil] at hM
    rw [List.map_append, List.map_cons, List.nodup_append] at hids
    exact hids.2.2 _ (List.mem_map_of_mem hM) _ List.mem_cons_self heq
  · rw [List.mem_singleton.1 hM]
    refine ⟨?_, h.used _ (leaf_id_mem_ids d t L hmem)⟩
    show IsLeafPage (s'.pages L.id) _
    rw [show s'.pages L.id = page from s.set_pages_self _ _]
    exact hpage
  · refine hids.sublist ?_
    simp only [List.map_append, List.map_cons, List.map_nil, List.append_nil]
    exact (List.Sublist.refl _).append (List.singleton_sublist.2 List.mem_cons_self)

/-! ## From the leaf section to the call -/

/-- What takes the place of the leaf: the chain goes on through it, and it has every
entry the leaf had. -/
theorem leafIns_chain {L : LeafNode ty} {o : Outcome (Key ty) (LeafNode ty)}
    (hins : LeafIns Key.rank (capacity ty) L k rid o) {last : Nat} (hlast : L.next = last) :
    o.toSep.items.head?.map Leaf.id = some L.id ∧ Linked last o.toSep.items ∧
      L.entries.Sublist (o.toSep.items.flatMap Leaf.entries) := by
  have hgrow : L.entries.Sublist (grow Key.rank k rid L.entries) := by
    obtain ⟨x, y, hxy, hins, -, -⟩ := insertBefore_eq (fun e => beyond Key.rank k e.1) (k, rid) L.entries
    rw [grow, hins, hxy]
    exact (List.Sublist.refl x).append (List.sublist_cons_self _ _)
  cases hins with
  | present _ => simp [Outcome.toSep, Linked, hlast]
  | fit _ _ => simpa [Outcome.toSep, Linked, hlast] using hgrow
  | split newId a b e _ _ hcut _ _ _ =>
    rw [hcut] at hgrow
    simpa [Outcome.toSep, Linked, hlast] using hgrow

/-- A promoted key had room on the new leaf. -/
theorem small_of_leafFits {es : List (Key ty × Rid)} {e : Key ty × Rid}
    (hfits : (capacity ty).leafFits (e :: es)) : Small e.1 := by
  have hlen := len_le_spaceOf (t := .leaf e.1.bytes e.2) (l := leafTuples (e :: es))
    (by simp [leafTuples])
  have hfits : HEADER_SIZE + spaceOf (leafTuples (e :: es)) ≤ PAGE_SIZE := hfits
  rw [PageTuple.len_leaf] at hlen
  unfold Small
  omega

section Section

variable {s₁ : BufferPool} {o : Outcome (Key ty) (LeafNode ty)}

/-- The ancestors are not leaves. -/
theorem ancestor_kind (h : OnPages s root d t) {q : Nat}
    (hq : q ∈ (ancestors k d t).map Prod.fst) :
    (s.pages q).pageKind = .btreeInternal ∧ q ∈ t.ids d := by
  have hsub := (path_subperm k d t).subset
  obtain ⟨a, ha, rfl⟩ := List.mem_map.1 hq
  exact ⟨(ancestors_node k d t h.repr a ha).kind, hsub (List.mem_cons_of_mem _ hq)⟩

/-- The ancestors after the leaf section. -/
theorem ancestors_after (h : OnPages s root d t)
    (hgrown : Grown s s₁ [(t.descend Key.rank k d).id] (o.toSep.items.map Leaf.id)) :
    (∀ a ∈ ancestors k d t, s₁.Used a.1 ∧ IsNodePage (s₁.pages a.1) a.1 a.2) ∧
      ((ancestors k d t).map Prod.fst).Nodup := by
  obtain ⟨l, hperm, hsub⟩ := path_subperm k d t
  have hnd := List.nodup_cons.1 (hperm.nodup_iff.1 (h.nodup.sublist hsub))
  refine ⟨fun a ha => ?_, hnd.2⟩
  have hq : a.1 ∈ (ancestors k d t).map Prod.fst := List.mem_map_of_mem ha
  have hu : s.Used a.1 := h.used _ (ancestor_kind h hq).2
  have hne : a.1 ∉ [(t.descend Key.rank k d).id] := fun hin => hnd.1 (List.mem_singleton.1 hin ▸ hq)
  exact ⟨hgrown.used _ hu, by rw [hgrown.frame _ hu hne]; exact ancestors_node k d t h.repr a ha⟩

/-- **The chain after the call**: the leaf section replaced one leaf, and the steps
above it left the leaves alone. -/
theorem leafChain_kept (h : OnPages s root d t)
    (hins : LeafIns Key.rank (capacity ty) (t.descend Key.rank k d) k rid o)
    (hpages : ∀ M ∈ o.toSep.items, IsLeafPage (s₁.pages M.id) M)
    (hgrown : Grown s s₁ [(t.descend Key.rank k d).id] (o.toSep.items.map Leaf.id))
    {s₂ : BufferPool} (hc : Climbed s₁ s₂ ((ancestors k d t).map Prod.fst)) {root' : Nat}
    (hroot : root' = root ∨ AboveRoot s₁ s₂ root root') :
    ∃ after, leafChain root' s₂ = .ok after s₂ ∧
      (rawEntries ((t.flat d).items.flatMap Leaf.entries)).Subperm (pairsOf after) := by
  let L := t.descend Key.rank k d
  have hmem : L ∈ (t.flat d).items := descend_mem_items k d t
  obtain ⟨A, B, hitems⟩ := List.append_of_mem hmem
  have hlinked := h.linked
  rw [hitems, linked_append] at hlinked
  obtain ⟨hhead, hlink, hsub⟩ := leafIns_chain hins hlinked.2.1
  have hidsub : ((A ++ L :: B).map Leaf.id).Sublist (t.ids d) := hitems ▸ leaf_ids_sublist d t
  have hids : (A.map Leaf.id ++ [L.id] ++ B.map Leaf.id).Nodup := by
    simpa using h.nodup.sublist hidsub
  have hall := hgrown.context (fun q hq => h.used q (hidsub.subset (by simpa using hq))) hids
  -- a leaf is not among the ancestors
  have hleafOld : ∀ M ∈ (t.flat d).items, M.id ∉ (ancestors k d t).map Prod.fst := by
    intro M hM hin
    have hkind := (ancestor_kind h hin).1
    rw [(h.repr.leaf_page d t M hM).kind] at hkind
    cases hkind
  have hmid : ∀ M ∈ o.toSep.items, s₂.pages M.id = s₁.pages M.id := by
    intro M hM
    have hid := List.mem_map_of_mem (f := Leaf.id) hM
    refine hc.frame _ (hgrown.owned _ hid) fun hin => ?_
    rcases hgrown.fresh _ hid with hL | hfresh
    · rw [List.mem_singleton.1 hL] at hin
      exact hleafOld L hmem hin
    · exact hfresh (h.used _ (ancestor_kind h hin).2)
  have hframe : ∀ q, s.Used q → q ≠ L.id → q ∉ (ancestors k d t).map Prod.fst →
      s₂.pages q = s.pages q := by
    intro q hq hne hnot
    rw [hc.frame q (hgrown.used q hq) hnot, hgrown.frame q hq (by simpa using hne)]
  have hsame : SameShape s s₂ (t.ids d) := by
    intro q hq
    by_cases hqL : q = L.id
    · obtain ⟨M, rest, hM⟩ : ∃ M rest, o.toSep.items = M :: rest := by
        cases hl : o.toSep.items with
        | nil =>
          rw [hl] at hhead
          cases hhead
        | cons M rest => exact ⟨M, rest, rfl⟩
      rw [hM] at hhead
      have hid : M.id = q := (Option.some.inj hhead).trans hqL.symm
      have hMmem : M ∈ o.toSep.items := hM ▸ List.mem_cons_self
      have hnew := hpages M hMmem
      rw [← hmid M hMmem, hid] at hnew
      have hold : IsLeafPage (s.pages q) L := hqL ▸ h.repr.leaf_page d t L hmem
      rw [hnew.kind, hold.kind]
      exact ⟨rfl, nofun⟩
    by_cases hanc : q ∈ (ancestors k d t).map Prod.fst
    · obtain ⟨hkind, hnext⟩ := hc.kept q hanc
      rw [hkind, hnext, (ancestor_kind h hanc).1, hgrown.frame q (h.used q hq) (by simpa using hqL)]
      exact ⟨rfl, fun _ => rfl⟩
    · rw [hframe q (h.used q hq) hqL hanc]
      exact ⟨rfl, fun _ => rfl⟩
  have hchain := @leafChain_after ty s s₂ root d t A B o.toSep.items L h hitems B
    (List.Sublist.refl B) hlinked.2.2 hc.wf (fun q hq => hc.used q (hgrown.used q hq))
    (fun M hM => ?_) (fun M hM => ?_) hhead hlink (by simpa using hall.nodup) root'
    (leftmostLeaf_after h.toStored (fun q hq => hgrown.used q (h.used q hq))
      (fun q hq => hc.used q (hgrown.used q (h.used q hq))) hsame hroot)
  · refine ⟨_, hchain, ?_⟩
    rw [pairsOf_map, hitems]
    refine List.Sublist.subperm (List.Sublist.map _ ?_)
    simp only [List.flatMap_append, List.flatMap_cons, List.append_assoc]
    exact (List.Sublist.refl _).append (hsub.append (List.Sublist.refl _))
  · have hM' : M ∈ (t.flat d).items := by
      rw [hitems]
      simp only [List.mem_append, List.mem_cons] at hM ⊢
      tauto
    refine hframe _ (h.used _ (leaf_id_mem_ids d t M hM')) (fun heq => ?_) (hleafOld M hM')
    have hcount := hids
    rw [List.append_assoc, List.nodup_append] at hcount
    obtain ⟨-, hB, hdisj⟩ := hcount
    rcases List.mem_append.1 hM with hA | hB'
    · exact hdisj _ (List.mem_map_of_mem hA) L.id (by simp) heq
    · rw [List.singleton_append, List.nodup_cons] at hB
      exact hB.1 (heq ▸ List.mem_map_of_mem hB')
  · rw [hmid M hM]
    exact ⟨hpages M hM, hc.used _ (hgrown.owned _ (List.mem_map_of_mem hM))⟩

/-- A climb that goes through. -/
theorem keeps_of_climbsTo (h : OnPages s root d t)
    (hleaf : insertLeaf (t.descend Key.rank k d).id (s.pages (t.descend Key.rank k d).id) k.bytes rid
      ty s = .ok (leafOutcome o) s₁)
    (hins : LeafIns Key.rank (capacity ty) (t.descend Key.rank k d) k rid o)
    (hpages : ∀ M ∈ o.toSep.items, IsLeafPage (s₁.pages M.id) M)
    (hgrown : Grown s s₁ [(t.descend Key.rank k d).id] (o.toSep.items.map Leaf.id))
    (hto : @ClimbsTo ty s₁ ((ancestors k d t).map Prod.fst)
      (((ancestors k d t).map Prod.fst).foldlM (climbStep ty) (leafOutcome o))) :
    InsertKeeps s root k.bytes rid ty := by
  refine ⟨_, leafChain_eq h, ?_⟩
  rw [insert_eq h.toStored k rid, bind_ok hleaf, pairsOf_map]
  have hown : ∀ q ∈ (ancestors k d t).map Prod.fst, s₁.Used q := by
    intro q hq
    exact hgrown.used q (h.used q (ancestor_kind h hq).2)
  rcases hto with ⟨out, s₂, heq, hc, hout⟩ | ⟨s₂, heq, hc⟩
  · obtain ⟨s', hc', hend⟩ := @rootStep_spec ty s₁ s₂ _ root out hc hown hout
    rw [bind_ok heq]
    rcases hend with herr | ⟨root', hok, hroot⟩
    · rw [herr]
      exact ⟨rfl, leafChain_kept h hins hpages hgrown hc' (Or.inl rfl)⟩
    · rw [hok]
      exact leafChain_kept h hins hpages hgrown hc' hroot
  · rw [bind_error heq]
    exact ⟨rfl, leafChain_kept h hins hpages hgrown hc (Or.inl rfl)⟩

end Section

/-- The leaf has the pair or room for it. -/
theorem insert_keeps_fit (h : OnPages s root d t)
    (hfit : Present Key.rank k rid (t.descend Key.rank k d).entries ∨
      (capacity ty).leafFits (grow Key.rank k rid (t.descend Key.rank k d).entries)) :
    InsertKeeps s root k.bytes rid ty := by
  have hmem := descend_mem_items k d t
  have hu : s.Used (t.descend Key.rank k d).id := h.used _ (leaf_id_mem_ids d t _ hmem)
  have hno : SplitsFit Key.rank (capacity ty) k rid 0 (t.descend Key.rank k d : PageTree ty 0) :=
    fun hpres hover => absurd hfit (not_or.2 ⟨hpres, hover⟩)
  have hp := h.repr.leaf_page d t _ hmem
  have hspec := insertLeaf_spec h.wf hu hp k rid hno
  obtain ⟨out, s₁, hleaf, -⟩ := @insertLeaf_returns ty s _ k rid hp (hfit.imp id Or.inl)
  rw [Succeeds, hleaf] at hspec
  obtain ⟨o, hins, hpages, hgrown, rfl⟩ := hspec
  refine keeps_of_climbsTo h hleaf hins hpages hgrown (Or.inl ⟨.fit, s₁, ?_, ?_, Or.inl rfl⟩)
  · cases hins with
    | present _ => exact climb_fit _ s₁
    | fit _ _ => exact climb_fit _ s₁
    | split _ _ _ _ hpres hover _ _ _ _ => exact absurd hfit (not_or.2 ⟨hpres, hover⟩)
  · refine (Climbed.refl hgrown.wf).more (List.nil_subset _) fun q hq => ?_
    obtain ⟨a, ha, rfl⟩ := List.mem_map.1 hq
    have hanc := (ancestors_after h hgrown).1 a ha
    exact ⟨hanc.1, hanc.2.kind⟩

/-- **A leaf split with a page to allocate**: the climb decides. -/
theorem insert_keeps_split (h : OnPages s root d t)
    (hpres : ¬ Present Key.rank k rid (t.descend Key.rank k d).entries)
    (hfull : ¬ (capacity ty).leafFits (grow Key.rank k rid (t.descend Key.rank k d).entries))
    (hleft : (capacity ty).leafFits (leftHalf (grow Key.rank k rid (t.descend Key.rank k d).entries)))
    (hroom : 0 < s.room)
    (hright : (capacity ty).leafFits
      (rightHalf (grow Key.rank k rid (t.descend Key.rank k d).entries))) :
    InsertKeeps s root k.bytes rid ty ↔
      ∀ e, (rightHalf (grow Key.rank k rid (t.descend Key.rank k d).entries)).head? = some e →
        ClimbFits (s.room - 1) e.1 ((ancestors k d t).map fun a => a.2.seps) := by
  have hmem := descend_mem_items k d t
  have hu : s.Used (t.descend Key.rank k d).id := h.used _ (leaf_id_mem_ids d t _ hmem)
  have hp := h.repr.leaf_page d t _ hmem
  have hspec := insertLeaf_spec h.wf hu hp k rid fun _ _ => ⟨hleft, hright⟩
  obtain ⟨out, s₁, hleaf, hspent⟩ :=
    insertLeaf_returns hp (Or.inr (Or.inr ⟨hleft, hroom, hright⟩))
  rw [Succeeds, hleaf] at hspec
  obtain ⟨o, hins, hpages, hgrown, rfl⟩ := hspec
  obtain ⟨hanc, hnd⟩ := ancestors_after h hgrown
  cases hins with
  | present hin => exact absurd hin hpres
  | fit _ hroom => exact absurd hroom hfull
  | split newId a b e _ _ hcut hlen ha hb =>
    have hroom₁ : s₁.room = s.room - 1 := by
      rcases hspent with hfit | hspent
      · cases hfit
      · omega
    have hhalf : rightHalf (grow Key.rank k rid (t.descend Key.rank k d).entries) = e :: b := by
      rw [rightHalf, ← hlen, hcut, List.drop_left' rfl]
    rw [hhalf]
    simp only [List.head?_cons, Option.some.injEq, forall_eq']
    obtain ⟨hgo, hbreak⟩ := climb_spec (ancestors k d t) newId hgrown.wf hanc hnd (small_of_leafFits hb)
    rw [hroom₁] at hgo hbreak
    refine ⟨fun hkeep => ?_, fun hfits => ?_⟩
    · by_contra hfits
      refine Breaks.not_keeps ?_ hkeep
      unfold Breaks
      rw [insert_eq h.toStored k rid]
      exact Breaks.bind_ok hleaf (hbreak hfits).bind
    · exact keeps_of_climbsTo h hleaf (.split newId a b e hpres hfull hcut hlen ha hb) hpages hgrown
        (hgo hfits)

theorem grow_perm (k : Key ty) (rid : Rid) (es : List (Key ty × Rid)) :
    (grow Key.rank k rid es).Perm ((k, rid) :: es) := by
  obtain ⟨x, y, hxy, hins, -, -⟩ := insertBefore_eq (fun e => beyond Key.rank k e.1) (k, rid) es
  rw [grow, hins, hxy]
  exact List.perm_middle

theorem rawEntries_singleton_inj {x : Key ty × Rid}
    (h : (rawEntries [x]).Perm (rawEntries [(k, rid)])) : x = (k, rid) := by
  have heq : (x.1.bytes, x.2) = (k.bytes, rid) := List.singleton_perm_singleton.1 h
  rw [Prod.mk.injEq] at heq
  exact Prod.ext (Key.bytes_inj heq.1) heq.2

/-- What a leaf that kept its first half still has of the leaf and of those behind it. -/
theorem cut_keeps_iff (es rest : List (Key ty × Rid)) :
    (rawEntries (es ++ rest)).Subperm (rawEntries (leftHalf (grow Key.rank k rid es))) ↔
      rightHalf (grow Key.rank k rid es) = [(k, rid)] ∧ rest = [] := by
  let gs := grow Key.rank k rid es
  have hsplit : (leftHalf gs ++ rightHalf gs).Perm ((k, rid) :: es) := by
    rw [List.take_append_drop]
    exact grow_perm k rid es
  have hlen : gs.length = es.length + 1 := insertBefore_length _ _ _
  have hleft : (leftHalf gs).length = (es.length + 1) / 2 := by
    rw [leftHalf, List.length_take, hlen]
    omega
  refine ⟨fun hsub => ?_, fun ⟨hright, hrest⟩ => ?_⟩
  · have hle := hsub.length_le
    simp only [rawEntries, List.length_map, List.length_append] at hle
    have hle : es.length + rest.length ≤ (es.length + 1) / 2 := hleft ▸ hle
    have hrest : rest = [] := List.eq_nil_of_length_eq_zero (by omega)
    obtain ⟨x, hx⟩ : ∃ x, rightHalf gs = [x] := by
      refine List.length_eq_one_iff.1 ?_
      rw [rightHalf, List.length_drop, hlen]
      omega
    subst hrest
    rw [List.append_nil] at hsub
    have hsame : (rawEntries es).Perm (rawEntries (leftHalf gs)) := by
      refine hsub.perm_of_length_le ?_
      simp only [rawEntries, List.length_map]
      show (leftHalf gs).length ≤ _
      omega
    -- the second half is what is left of the new entry and the old ones
    have hraw : (rawEntries es ++ rawEntries [x]).Perm (rawEntries es ++ rawEntries [(k, rid)]) := by
      rw [hx] at hsplit
      have hmap := (hsplit.trans (List.perm_append_singleton _ _).symm).map
        fun e : Key ty × Rid => (e.1.bytes, e.2)
      rw [List.map_append, List.map_append] at hmap
      exact (hsame.append_right _).trans hmap
    have hone := rawEntries_singleton_inj ((List.perm_append_left_iff _).1 hraw)
    exact ⟨hone ▸ hx, rfl⟩
  · rw [show rightHalf gs = [(k, rid)] from hright] at hsplit
    rw [hrest, List.append_nil]
    have hperm : es.Perm (leftHalf gs) :=
      (List.Perm.cons_inv ((List.perm_append_singleton _ _).symm.trans hsplit)).symm
    exact (hperm.map _).subperm

/-- **A leaf split without a page to allocate** keeps the first half and no link. -/
theorem insert_keeps_cut (h : OnPages s root d t)
    (hpres : ¬ Present Key.rank k rid (t.descend Key.rank k d).entries)
    (hfull : ¬ (capacity ty).leafFits (grow Key.rank k rid (t.descend Key.rank k d).entries))
    (hleft : (capacity ty).leafFits (leftHalf (grow Key.rank k rid (t.descend Key.rank k d).entries)))
    (hroom : s.room = 0) {A B : List (LeafNode ty)}
    (hitems : (t.flat d).items = A ++ t.descend Key.rank k d :: B) :
    InsertKeeps s root k.bytes rid ty ↔
      rightHalf (grow Key.rank k rid (t.descend Key.rank k d).entries) = [(k, rid)] ∧
        B.flatMap Leaf.entries = [] := by
  have hp := h.repr.leaf_page d t _ (descend_mem_items k d t)
  obtain ⟨page, hpage, hleaf⟩ := insertLeaf_cut hp hpres hfull hleft hroom
  have hafter := leafChain_cut h hitems hpage
  have hrun : insert root k.bytes rid ty s = .error newPageError (s.set (t.descend Key.rank k d).id page) := by
    rw [insert_eq h.toStored k rid]
    exact bind_error hleaf
  unfold InsertKeeps
  rw [← cut_keeps_iff, leafChain_eq h, hrun]
  have hsub : ∀ after, (pairsOf ((t.flat d).items.map fun M => (M.id, rawEntries M.entries))).Subperm
      (pairsOf ((A ++ [(⟨(t.descend Key.rank k d).id, NO_NEXT_PAGE, after⟩ : LeafNode ty)]).map fun M =>
        (M.id, rawEntries M.entries))) ↔
      (rawEntries ((t.descend Key.rank k d).entries ++ B.flatMap Leaf.entries)).Subperm
        (rawEntries after) := by
    intro after
    rw [pairsOf_map, pairsOf_map, hitems]
    simp only [rawEntries, List.flatMap_append, List.flatMap_cons, List.flatMap_nil, List.append_nil,
      List.map_append]
    exact List.subperm_append_left _
  constructor
  · rintro ⟨before, hbefore, -, after, hchain, hkeep⟩
    cases hbefore
    rw [hafter] at hchain
    cases hchain
    exact (hsub _).1 hkeep
  · intro hkeep
    exact ⟨_, rfl, rfl, _, hafter, (hsub _).2 hkeep⟩

/-- **Exactly when an insertion keeps everything** and fails for want of a page only. -/
theorem insert_keeps_iff (h : OnPages s root d t) (k : Key ty) (rid : Rid) :
    InsertKeeps s root k.bytes rid ty ↔ InsertFits s t k rid := by
  have hmem := descend_mem_items k d t
  have hp := h.repr.leaf_page d t _ hmem
  simp only [InsertFits]
  by_cases hpres : Present Key.rank k rid (t.descend Key.rank k d).entries
  · exact iff_of_true (insert_keeps_fit h (Or.inl hpres)) (Or.inl hpres)
  by_cases hfull : (capacity ty).leafFits (grow Key.rank k rid (t.descend Key.rank k d).entries)
  · exact iff_of_true (insert_keeps_fit h (Or.inr hfull)) (Or.inr (Or.inl hfull))
  have hfails : Breaks (insertLeaf (t.descend Key.rank k d).id (s.pages (t.descend Key.rank k d).id)
      k.bytes rid ty) s → ¬ InsertKeeps s root k.bytes rid ty := by
    intro hbreaks
    refine Breaks.not_keeps ?_
    unfold Breaks
    rw [insert_eq h.toStored k rid]
    exact hbreaks.bind
  simp only [hpres, hfull, false_or]
  by_cases hleft : (capacity ty).leafFits
      (leftHalf (grow Key.rank k rid (t.descend Key.rank k d).entries))
  swap
  · exact iff_of_false (hfails (insertLeaf_left_breaks hp hpres hfull hleft)) fun hfits => hleft hfits.1
  rcases Nat.eq_zero_or_pos s.room with hroom | hroom
  · -- no page: the leaf is cut
    simp only [hleft, hroom, lt_irrefl, false_and, or_false, true_and]
    refine ⟨fun hkeep => ?_, fun ⟨hright, hlast⟩ => ?_⟩
    · obtain ⟨A, B, hitems⟩ := List.append_of_mem hmem
      refine ⟨((insert_keeps_cut h hpres hfull hleft hroom hitems).1 hkeep).1, fun A B hitems => ?_⟩
      exact List.flatMap_eq_nil_iff.1 ((insert_keeps_cut h hpres hfull hleft hroom hitems).1 hkeep).2
    · obtain ⟨A, B, hitems⟩ := List.append_of_mem hmem
      exact (insert_keeps_cut h hpres hfull hleft hroom hitems).2
        ⟨hright, List.flatMap_eq_nil_iff.2 (hlast A B hitems)⟩
  · simp only [hleft, Nat.pos_iff_ne_zero.1 hroom, hroom, false_and, false_or, true_and]
    by_cases hright : (capacity ty).leafFits
        (rightHalf (grow Key.rank k rid (t.descend Key.rank k d).entries))
    · rw [insert_keeps_split h hpres hfull hleft hroom hright]
      exact (and_iff_right hright).symm
    · exact iff_of_false (hfails (insertLeaf_right_breaks hp hpres hfull hleft hright hroom))
        fun hfits => hright hfits.1

end Keeps

/-! ## Keys of very different lengths -/

/-- The VARCHAR key of `n` copies of a character. -/
def textKey (c : Char) (n : Nat) : Key .varchar :=
  ⟨encodeKey (.varchar (String.ofList (List.replicate n c))), by
    rw [keyRank, decodeKey_encodeKey_self rfl]
    rfl⟩

theorem textKey_bytes {c : Char} {b : UInt8} (hc : String.utf8EncodeChar c = [b]) (n : Nat) :
    (textKey c n).bytes = List.replicate n b := by
  have hbytes : (textKey c n).bytes = stringBytes (String.ofList (List.replicate n c)) := rfl
  rw [hbytes, TupleCodec.stringBytes_eq, String.toByteArray_ofList, List.utf8Encode]
  simp [hc, List.flatMap_replicate]

theorem textKey_rank {c : Char} {b : UInt8} (hc : String.utf8EncodeChar c = [b]) (n : Nat) :
    (textKey c n).rank = List.replicate n (b.toNat : Int) := by
  have hrank : keyRank .varchar (textKey c n).bytes = some (bytesRank (textKey c n).bytes) := by
    show keyRank .varchar (encodeKey (.varchar (String.ofList (List.replicate n c)))) = _
    rw [keyRank, decodeKey_encodeKey_self rfl]
    rfl
  rw [(textKey c n).keyRank_bytes, textKey_bytes hc, bytesRank, List.map_replicate] at hrank
  exact Option.some.inj hrank

theorem textKey_lt {c d : Char} {x y : UInt8} (hc : String.utf8EncodeChar c = [x])
    (hd : String.utf8EncodeChar d = [y]) (hxy : x.toNat < y.toNat) {n m : Nat}
    (hn : 0 < n) (hm : 0 < m) : (textKey c n).rank < (textKey d m).rank := by
  obtain ⟨n, rfl⟩ := Nat.exists_eq_add_one_of_ne_zero hn.ne'
  obtain ⟨m, rfl⟩ := Nat.exists_eq_add_one_of_ne_zero hm.ne'
  rw [textKey_rank hc, textKey_rank hd, List.replicate_succ, List.replicate_succ]
  exact List.Lex.rel (Int.ofNat_lt.2 hxy)

/-- A leaf with two keys of any lengths. -/
def twoTexts (n m : Nat) : LeafNode .varchar :=
  ⟨0, NO_NEXT_PAGE, [(textKey 'a' n, (1, 0)), (textKey 'c' m, (1, 1))]⟩

/-- It alone in a file that can grow. -/
def textPool (n m : Nat) : BufferPool :=
  (emptyLeafPool 9 (by decide)).set 0
    (pushAll (initLeaf (.new 0)) (leafTuples (twoTexts n m).entries))

theorem onPages_textPool {n m : Nat}
    (hfits : (capacity .varchar).leafFits (twoTexts n m).entries) :
    OnPages (textPool n m) 0 0 (twoTexts n m) := by
  have hnew : Packed (initLeaf (.new 0)) [] := ⟨rfl, rfl, by decide⟩
  have hhead := pushAll_header (initLeaf (.new 0)) (leafTuples (twoTexts n m).entries)
  have h₀ := emptyLeaf_emptyLeafPool (n := 9) (by decide) (by decide)
  refine ⟨⟨h₀.wf.set _ _, rfl, ?_, ?_, List.nodup_singleton _⟩, rfl, trivial⟩
  · show IsLeafPage ((textPool n m).pages 0) (twoTexts n m)
    rw [textPool, BufferPool.set_pages_self]
    exact ⟨hhead.2.2, hhead.1, hhead.2.1, packed_rebuilt hnew hfits⟩
  · intro q hq
    rw [List.mem_singleton.1 hq]
    exact h₀.used

/-- A key between the two. -/
theorem grow_twoTexts {n l m : Nat} (hn : 0 < n) (hl : 0 < l) (hm : 0 < m) (rid : Rid) :
    ¬ Present Key.rank (textKey 'b' l) rid (twoTexts n m).entries ∧
      grow Key.rank (textKey 'b' l) rid (twoTexts n m).entries =
        [(textKey 'a' n, (1, 0)), (textKey 'b' l, rid), (textKey 'c' m, (1, 1))] := by
  have hab := textKey_lt (c := 'a') (d := 'b') (x := 97) (y := 98) rfl rfl (by decide) hn hl
  have hbc := textKey_lt (c := 'b') (d := 'c') (x := 98) (y := 99) rfl rfl (by decide) hl hm
  constructor
  · rintro ⟨e, he, hrank, -⟩
    simp only [twoTexts, List.mem_cons, List.not_mem_nil, or_false] at he
    rcases he with rfl | rfl
    · exact hab.ne hrank
    · exact hbc.ne' hrank
  · simp [grow, twoTexts, insertBefore, beyond, hab.not_gt, hbc]

theorem leafFits_varchar (es : List (Key .varchar × Rid)) : (capacity .varchar).leafFits es ↔
    HEADER_SIZE + (es.map fun e => e.1.bytes.length + 12).sum ≤ PAGE_SIZE := by
  have hspace : spaceOf (leafTuples es) = (es.map fun e => e.1.bytes.length + 12).sum := by
    induction es with
    | nil => rfl
    | cons e es ih =>
      rw [leafTuples, List.map_cons, spaceOf_cons, List.map_cons, List.sum_cons, ← ih,
        PageTuple.len_leaf]
      rfl
  exact hspace ▸ Iff.rfl

theorem length_textKey {c : Char} {b : UInt8} (hc : String.utf8EncodeChar c = [b]) (n : Nat) :
    (textKey c n).bytes.length = n := by
  rw [textKey_bytes hc, List.length_replicate]

/-- What a list of these keys takes. -/
theorem leafFits_texts {n l m : Nat} (rid : Rid) :
    ((capacity .varchar).leafFits [(textKey 'a' n, (1, 0))] ↔ HEADER_SIZE + (n + 12) ≤ PAGE_SIZE) ∧
    ((capacity .varchar).leafFits (twoTexts n m).entries ↔
      HEADER_SIZE + (n + 12 + (m + 12)) ≤ PAGE_SIZE) ∧
    ((capacity .varchar).leafFits [(textKey 'b' l, rid), (textKey 'c' m, (1, 1))] ↔
      HEADER_SIZE + (l + 12 + (m + 12)) ≤ PAGE_SIZE) ∧
    ((capacity .varchar).leafFits [(textKey 'a' n, (1, 0)), (textKey 'b' l, rid),
      (textKey 'c' m, (1, 1))] ↔ HEADER_SIZE + (n + 12 + (l + 12 + (m + 12))) ≤ PAGE_SIZE) := by
  simp only [leafFits_varchar, twoTexts, List.map_cons, List.map_nil, List.sum_cons, List.sum_nil,
    Nat.add_zero, length_textKey (c := 'a') (b := 97) rfl, length_textKey (c := 'b') (b := 98) rfl,
    length_textKey (c := 'c') (b := 99) rfl, and_self]

theorem halves_three {β : Type} (x y z : β) :
    leftHalf [x, y, z] = [x] ∧ rightHalf [x, y, z] = [y, z] := by
  simp [leftHalf, rightHalf]

/-- **A full leaf of long keys**: the leaf splits, and both halves fit. -/
theorem insert_keeps_iff_split : OnPages (textPool 2000 2000) 0 0 (twoTexts 2000 2000) ∧
    ¬ (capacity .varchar).leafFits
      (grow Key.rank (textKey 'b' 2000) (1, 2) (twoTexts 2000 2000).entries) ∧
    InsertKeeps (textPool 2000 2000) 0 (textKey 'b' 2000).bytes (1, 2) .varchar := by
  obtain ⟨hleft, htwo, hright, hthree⟩ := leafFits_texts (n := 2000) (l := 2000) (m := 2000) (1, 2)
  have hon := onPages_textPool (n := 2000) (m := 2000) (htwo.2 (by decide))
  obtain ⟨-, hgrow⟩ := grow_twoTexts (n := 2000) (l := 2000) (m := 2000) (by decide) (by decide)
    (by decide) (1, 2)
  have hfull : ¬ (capacity .varchar).leafFits
      (grow Key.rank (textKey 'b' 2000) (1, 2) (twoTexts 2000 2000).entries) := by
    rw [hgrow, hthree]
    decide
  refine ⟨hon, hfull, (insert_keeps_iff hon (textKey 'b' 2000) (1, 2)).2 (Or.inr (Or.inr ?_))⟩
  have hleaf : Tree.descend Key.rank (textKey 'b' 2000) 0 (twoTexts 2000 2000) = twoTexts 2000 2000 := rfl
  rw [hleaf, hgrow, (halves_three _ _ _).1, (halves_three _ _ _).2]
  exact ⟨hleft.2 (by decide), Or.inr ⟨by decide, hright.2 (by decide), fun _ _ => trivial⟩⟩

/-- **A long key between them**: the second half does not fit on the new page. -/
theorem insert_loses_entry : OnPages (textPool 1 200) 0 0 (twoTexts 1 200) ∧
    0 < (textPool 1 200).room ∧
    ¬ InsertKeeps (textPool 1 200) 0 (textKey 'b' 4000).bytes (1, 2) .varchar := by
  obtain ⟨hleft, htwo, hright, hthree⟩ := leafFits_texts (n := 1) (l := 4000) (m := 200) (1, 2)
  have hon := onPages_textPool (n := 1) (m := 200) (htwo.2 (by decide))
  obtain ⟨hnot, hgrow⟩ := grow_twoTexts (n := 1) (l := 4000) (m := 200) (by decide) (by decide)
    (by decide) (1, 2)
  refine ⟨hon, by decide, Breaks.not_keeps ?_⟩
  unfold Breaks
  rw [insert_eq hon.toStored]
  refine (insertLeaf_right_breaks (L := twoTexts 1 200) hon.repr hnot ?_ ?_ ?_ (by decide)).bind
  all_goals rw [hgrow]
  · rw [hthree]
    decide
  · rw [(halves_three _ _ _).1, hleft]
    decide
  · rw [(halves_three _ _ _).2, hright]
    decide

end BTree
end Ccdb
