import Ccdb.Exec.Chains

/-!
# Ccdb — index operations and heap files

The B+Tree writes to pages that are no heap pages and to pages it has just
allocated, whatever its nodes hold and wherever it fails. So the heap files are
as they were after any index operation, that is, after an insertion, a deletion,
a leaf sweep and the update of a root in `pg_index`, whose own pages change.

Main results:

* `frames_insert`, `frames_delete`, `frames_sweepEmptyLeaves`,
  `frames_updateIndexRoot`, `frames_cleanEntry` — the operations keep the files.
-/

namespace Ccdb

open BTree (liftE pageFuel)

variable {files : List Nat} {chain : Nat → List Nat} {s s' s₁ s₂ : BufferPool} {q : Nat}
variable {k : PageKind}

/-- The page is part of the file and of kind `k`. -/
def HasKind (s : BufferPool) (q : Nat) (k : PageKind) : Prop :=
  q < s.pageCount ∧ (s.pages q).pageKind = k

/-- From `s` to `s'` index pages have changed, and rows of `pg_index`. -/
structure Indexes (files : List Nat) (chain : Nat → List Nat) (s s' : BufferPool) : Prop where
  heaps : Heaps files chain s'
  same : ∀ f ∈ files, f ≠ PG_INDEX_PAGE_ID → ∀ p ∈ chain f, s'.pages p = s.pages p
  kept : ∀ p k, k ≠ .heap → HasKind s p k → HasKind s' p k

theorem Indexes.refl (h : Heaps files chain s) : Indexes files chain s s :=
  ⟨h, fun _ _ _ _ _ => rfl, fun _ _ _ hp => hp⟩

theorem Indexes.trans (h : Indexes files chain s s₁) (h' : Indexes files chain s₁ s₂) :
    Indexes files chain s s₂ :=
  ⟨h'.heaps, fun f hf hne p hp => (h'.same f hf hne p hp).trans (h.same f hf hne p hp),
    fun p k hk hp => h'.kept p k hk (h.kept p k hk hp)⟩

/-- Started with heap files, `x` leaves them as they are, however it ends, and
where it returns its result satisfies `Q`. -/
def Frames {α : Type} (files : List Nat) (chain : Nat → List Nat) (x : PoolM α) (s : BufferPool)
    (Q : α → BufferPool → Prop) : Prop :=
  Heaps files chain s →
    Ends x s (fun a s' => Indexes files chain s s' ∧ Q a s') (Indexes files chain s)

namespace Frames

variable {α β : Type} {Q Q' : α → BufferPool → Prop} {R : β → BufferPool → Prop}

theorem final {x : PoolM α} (h : Frames files chain x s Q) (hs : Heaps files chain s) :
    Indexes files chain s (x s).final := by
  have hends := h hs
  unfold Ends at hends
  cases hx : x s with
  | ok a s' =>
    rw [hx] at hends
    exact hends.1
  | error e s' =>
    rw [hx] at hends
    exact hends

theorem pure {a : α} (h : Q a s) : Frames files chain (Pure.pure a) s Q :=
  fun hs => ⟨.refl hs, h⟩

theorem throw {e : DbError} : Frames files chain (throw e : PoolM α) s Q := fun hs => Indexes.refl hs

theorem bind {x : PoolM α} {f : α → PoolM β} (hx : Frames files chain x s Q)
    (hf : ∀ a s', Indexes files chain s s' → Q a s' → Frames files chain (f a) s' R) :
    Frames files chain (x >>= f) s R := by
  intro hs
  unfold Ends
  have hends := hx hs
  unfold Ends at hends
  cases hrun : x s with
  | error e s₁ =>
    rw [hrun] at hends
    rw [EStateM.bind_of_error hrun]
    exact hends
  | ok a s₁ =>
    rw [hrun] at hends
    rw [EStateM.bind_of_ok hrun]
    have hrest := hf a s₁ hends.1 hends.2 hends.1.heaps
    unfold Ends at hrest
    cases hrun' : f a s₁ with
    | ok b s₂ =>
      rw [hrun'] at hrest
      exact ⟨hends.1.trans hrest.1, hrest.2⟩
    | error e s₂ =>
      rw [hrun'] at hrest
      exact hends.1.trans hrest

/-- Reading. -/
theorem read {x : PoolM α} (hx : ReadOnly x) :
    Frames files chain x s fun a s' => s' = s ∧ x s = .ok a s := by
  intro hs
  have hfinal := hx s
  unfold Ends
  cases hrun : x s with
  | ok a s' =>
    rw [hrun] at hfinal
    have hfinal : s' = s := hfinal
    subst hfinal
    exact ⟨.refl hs, rfl, rfl⟩
  | error e s' =>
    rw [hrun] at hfinal
    have hfinal : s' = s := hfinal
    subst hfinal
    exact .refl hs

/-- After a read the state is as before. -/
theorem after {x : PoolM α} (hx : ReadOnly x) {f : α → PoolM β}
    (h : ∀ a, x s = .ok a s → Frames files chain (f a) s R) : Frames files chain (x >>= f) s R := by
  refine (Frames.read hx).bind fun a s' _ hs' => ?_
  obtain ⟨rfl, ha⟩ := hs'
  exact h a ha

theorem fetch {f : Page → PoolM β} {p : Nat}
    (h : p < s.pageCount → Frames files chain (f (s.pages p)) s R) :
    Frames files chain (fetchPage p >>= f) s R := by
  refine .after (readOnly_fetchPage p) fun page hpage => ?_
  obtain ⟨hlt, rfl⟩ := fetchPage_ok hpage
  exact h hlt

/-- A page is overwritten. -/
theorem update {f : BufferPool → BufferPool} (h : Heaps files chain s → Indexes files chain s (f s)) :
    Frames files chain (modify f : PoolM PUnit) s fun _ s' => s' = f s :=
  fun hs => ⟨h hs, rfl⟩

end Frames

/-! ## Writing one page -/

theorem Heaps.not_mem_of_kind (h : Heaps files chain s) (hk : k ≠ .heap)
    (hq : HasKind s q k) : ∀ f ∈ files, q ∉ chain f :=
  fun f hf hmem => hk (hq.2.symm.trans (h.kind f hf q hmem))

theorem Heaps.used_of_kind (h : Heaps files chain s) (hk : k ≠ .heap)
    (hq : HasKind s q k) : s.Used q :=
  ⟨hq.1, fun hfree => hk (hq.2.symm.trans (h.leaves.free q hfree))⟩

/-- A page outside the files becomes or stays an index page. -/
theorem Heaps.node (page : Page) (h : Heaps files chain s) (hq : s.Used q)
    (hout : ∀ f ∈ files, q ∉ chain f) (hold : (s.pages q).pageKind ≠ .heap → (s.pages q).pageKind = k)
    (hkind : page.pageKind = k) (hleaf : k = .btreeLeaf → page.pageId = q ∧
      (page.nextPageId = NO_NEXT_PAGE ∨ HasKind s page.nextPageId .btreeLeaf)) :
    Indexes files chain s (s.set q page) := by
  refine ⟨h.tree hq hout (fun hl => ?_) fun hl => hleaf (hkind.symm.trans hl), fun f hf _ p hp => ?_,
    fun p k' hk' hp => ⟨hp.1, ?_⟩⟩
  · rw [hkind, ← hold (by rw [hl]; decide), hl]
  · refine BufferPool.set_pages_ne _ _ ?_
    rintro rfl
    exact hout f hf hp
  · by_cases hpq : p = q
    · subst hpq
      rw [BufferPool.set_pages_self, hkind, ← hp.2]
      exact (hold (by rw [hp.2]; exact hk')).symm
    · rw [BufferPool.set_pages_ne _ _ hpq]
      exact hp.2

/-- A node is rewritten. -/
theorem frames_writePage (page : Page) (hk : k ≠ .heap) (hq : HasKind s q k)
    (hkind : page.pageKind = k) (hleaf : k = .btreeLeaf → page.pageId = q ∧
      (page.nextPageId = NO_NEXT_PAGE ∨ HasKind s page.nextPageId .btreeLeaf)) :
    Frames files chain (writePage q page) s fun _ s' => s' = s.set q page :=
  fun hs => ⟨hs.node page (hs.used_of_kind hk hq) (hs.not_mem_of_kind hk hq) (fun _ => hq.2) hkind hleaf, rfl⟩

/-- A new node is initialised. -/
theorem frames_initNode (init : Nat → Page) (hkind : ∀ p, (init p).pageKind = k)
    (hleaf : k = .btreeLeaf → ∀ p, (init p).pageId = p ∧ (init p).nextPageId = NO_NEXT_PAGE) :
    Frames files chain (do
      let p ← newPage
      writePage p (init p)
      return p) s fun p s' => HasKind s' p k := by
  intro hs
  unfold Ends
  cases hnew : newPage s with
  | error e s₁ =>
    rw [EStateM.bind_of_error hnew]
    obtain ⟨-, rfl⟩ := newPage_error hnew
    exact .refl hs
  | ok p s₁ =>
    obtain ⟨hheaps, hout, hused, hfresh, hframe⟩ := hs.alloc hnew
    have hheap : (s₁.pages p).pageKind = .heap := by rw [hfresh]; rfl
    have hset : Indexes files chain s₁ (s₁.set p (init p)) :=
      hheaps.node _ hused hout (fun hne => absurd hheap hne) (hkind p) fun hl =>
        ⟨(hleaf hl p).1, Or.inl (hleaf hl p).2⟩
    have hrun : (newPage >>= fun p => do
        writePage p (init p)
        return p) s = .ok p (s₁.set p (init p)) := by
      rw [EStateM.bind_of_ok hnew]
      rfl
    rw [hrun]
    have hnew' : Indexes files chain s s₁ := by
      refine ⟨hheaps, fun f hf _ r hr => hframe r ?_, fun r k' hk' hr => ?_⟩
      · rintro rfl
        exact hout f hf hr
      · have hne : r ≠ p := by
          -- the page was free, and free pages are no nodes
          rintro rfl
          exact (newPage_ok hs.wf hnew).2.1 (hs.used_of_kind hk' hr)
        exact ⟨lt_of_lt_of_le hr.1 (newPage_count_le hnew), by rw [hframe r hne]; exact hr.2⟩
    refine ⟨hnew'.trans hset, hused.1, ?_⟩
    rw [BufferPool.set_pages_self]
    exact hkind p

theorem frames_newNode {β : Type} (init : Nat → Page) {rest : Nat → PoolM β}
    {R : β → BufferPool → Prop} (hkind : ∀ p, (init p).pageKind = k)
    (hleaf : k = .btreeLeaf → ∀ p, (init p).pageId = p ∧ (init p).nextPageId = NO_NEXT_PAGE)
    (hrest : ∀ p s', Indexes files chain s s' → HasKind s' p k → Frames files chain (rest p) s' R) :
    Frames files chain (newPage >>= fun p => writePage p (init p) >>= fun _ => rest p) s R := by
  have h := (frames_initNode (s := s) init hkind hleaf).bind hrest
  simpa only [bind_assoc, pure_bind] using h

/-- The link of a leaf, as later states see it. -/
theorem Heaps.leaf_next (h : Heaps files chain s) (hq : HasKind s q .btreeLeaf) :
    (s.pages q).nextPageId = NO_NEXT_PAGE ∨ HasKind s (s.pages q).nextPageId .btreeLeaf :=
  h.leaves.next q hq.1 hq.2

theorem frames_insertInto (hk : k ≠ .heap) (hq : HasKind s q k) (t : PageTuple) :
    Frames files chain (insertInto q t) s fun _ _ => True := by
  intro hs
  unfold Ends insertInto
  cases hins : (s.pages q).insert t with
  | error e => exact .refl hs
  | ok r =>
    obtain ⟨slot, page⟩ := r
    obtain ⟨-, -, rfl⟩ := Page.insert_inv hins
    refine ⟨hs.node _ (hs.used_of_kind hk hq) (hs.not_mem_of_kind hk hq) (fun _ => hq.2) hq.2 ?_, trivial⟩
    rintro rfl
    exact ⟨hs.leaves.id q hq.1 hq.2, hs.leaf_next hq⟩

theorem frames_insertAll {k : PageKind} (hk : k ≠ .heap) : ∀ (ts : List PageTuple) {s : BufferPool},
    HasKind s q k → Frames files chain (BTree.insertAll q ts) s fun _ _ => True
  | [], _, _ => .pure trivial
  | t :: ts, _, hq => (frames_insertInto hk hq t).bind fun _ _ hs₁ _ =>
      frames_insertAll hk ts (hs₁.kept q k hk hq)

/-! ## Insertion -/

theorem leaf_ne_heap : PageKind.btreeLeaf ≠ .heap := by decide
theorem internal_ne_heap : PageKind.btreeInternal ≠ .heap := by decide

/-- A page as it was read from the pool, and what is known about it. -/
structure NodeRead (s : BufferPool) (q : Nat) (k : PageKind) (page : Page) : Prop where
  has : HasKind s q k
  kind : page.pageKind = k
  leaf : k = .btreeLeaf → page.pageId = q ∧
    (page.nextPageId = NO_NEXT_PAGE ∨ HasKind s page.nextPageId .btreeLeaf)

theorem Heaps.nodeRead (h : Heaps files chain s) (hq : HasKind s q k) :
    NodeRead s q k (s.pages q) :=
  ⟨hq, hq.2, fun hk => by
    subst hk
    exact ⟨h.leaves.id q hq.1 hq.2, h.leaf_next hq⟩⟩

/-- A page that was read is still about the same node later. -/
theorem NodeRead.later {page : Page} (h : NodeRead s q k page) (hk : k ≠ .heap)
    (hs : Indexes files chain s s') : NodeRead s' q k page :=
  ⟨hs.kept q k hk h.has, h.kind, fun hl => ⟨(h.leaf hl).1,
    (h.leaf hl).2.imp_right fun hn => hs.kept _ _ leaf_ne_heap hn⟩⟩

theorem frames_insertSorted {page : Page} (hk : k ≠ .heap)
    (h : NodeRead s q k page) (key : Bytes) (entry : PageTuple) (ty : DataType) :
    Frames files chain (BTree.insertSorted q page key entry ty) s fun _ _ => True := by
  refine Frames.after (readOnly_liftE _) fun entries _ => ?_
  refine (frames_writePage (BTree.resetPage page page.nextPageId) hk h.has h.kind h.leaf).bind fun _ s₂ hs₂ _ => ?_
  exact frames_insertAll hk entries (hs₂.kept q k hk h.has)

theorem frames_splitLeaf {page : Page} (h : NodeRead s q .btreeLeaf page) (entries : List PageTuple) :
    Frames files chain (BTree.splitLeaf q page entries) s fun _ _ => True := by
  have hk := leaf_ne_heap
  refine (frames_writePage (BTree.resetPage page NO_NEXT_PAGE) hk h.has h.kind fun hl =>
    ⟨(h.leaf hl).1, Or.inl rfl⟩).bind fun _ s₁ hs₁ _ => ?_
  have h₁ := h.later hk hs₁
  refine (frames_insertAll hk _ h₁.has).bind fun _ s₂ hs₂ _ => ?_
  have h₂ := h₁.later hk hs₂
  refine frames_newNode (k := .btreeLeaf) (fun p => BTree.initLeaf (.new p)) (fun _ => rfl)
    (fun _ _ => ⟨rfl, rfl⟩) fun newPid s₃ hs₃ hnew => ?_
  have h₃ := h₂.later hk hs₃
  refine (frames_insertAll hk _ hnew).bind fun _ s₄ hs₄ _ => ?_
  have h₄ := h₃.later hk hs₄
  have hnew := hs₄.kept _ _ hk hnew
  -- the new leaf takes over the link, and the old one is linked to it
  refine (Frames.update fun hs => hs.node ((s₄.pages newPid).setNextPageId page.nextPageId)
    (hs.used_of_kind hk hnew) (hs.not_mem_of_kind hk hnew)
    (fun _ => hnew.2) hnew.2 fun hl => ⟨hs.leaves.id _ hnew.1 hnew.2, (h₄.leaf hl).2⟩).bind
    fun _ s₅ hs₅ _ => ?_
  have h₅ := h₄.later hk hs₅
  have hnew := hs₅.kept _ _ hk hnew
  refine (Frames.update fun hs => hs.node ((s₅.pages q).setNextPageId newPid)
    (hs.used_of_kind hk h₅.has) (hs.not_mem_of_kind hk h₅.has)
    (fun _ => h₅.has.2) h₅.has.2 fun _ => ⟨hs.leaves.id _ h₅.has.1 h₅.has.2, Or.inr hnew⟩).bind
    fun _ s₆ _ _ => ?_
  split
  · exact .throw
  · exact Frames.after (readOnly_liftE _) fun _ _ => .pure trivial

theorem frames_splitInternal {page : Page} (h : NodeRead s q .btreeInternal page)
    (entries : List PageTuple) :
    Frames files chain (BTree.splitInternal q page entries) s fun _ _ => True := by
  have hk := internal_ne_heap
  unfold BTree.splitInternal
  dsimp only
  split
  · exact .throw
  · refine Frames.after (readOnly_liftE _) fun promoted _ => ?_
    refine (frames_writePage (BTree.resetPage page page.nextPageId) hk h.has h.kind
      fun hl => by cases hl).bind fun _ s₂ hs₂ _ => ?_
    refine (frames_insertAll hk _ (hs₂.kept _ _ hk h.has)).bind fun _ s₃ _ _ => ?_
    refine frames_newNode (k := .btreeInternal) (fun p => BTree.initInternal (.new p) promoted.2)
      (fun _ => rfl) (fun hl => by cases hl) fun newPid s₄ _ hnew => ?_
    exact (frames_insertAll hk _ hnew).bind fun _ _ _ _ => .pure trivial

theorem frames_insertLeaf {page : Page} (h : NodeRead s q .btreeLeaf page) (key : Bytes) (rid : Rid)
    (ty : DataType) : Frames files chain (BTree.insertLeaf q page key rid ty) s fun _ _ => True := by
  refine Frames.after (readOnly_liftE _) fun found _ => ?_
  split
  · exact .pure trivial
  · dsimp only
    split
    · exact (frames_insertSorted leaf_ne_heap h _ _ _).bind fun _ _ _ _ => .pure trivial
    · refine Frames.after (readOnly_liftE _) fun entries _ => ?_
      exact frames_splitLeaf h entries

theorem frames_absorbSplit (hq : HasKind s q .btreeInternal) (sepKey : Bytes) (right : Nat)
    (ty : DataType) : Frames files chain (BTree.absorbSplit q sepKey right ty) s fun _ _ => True := by
  intro hs
  refine (Frames.fetch fun _ => ?_) hs
  have hread := hs.nodeRead hq
  dsimp only
  split
  · exact (frames_insertSorted internal_ne_heap hread _ _ _).bind fun _ _ _ _ => .pure trivial
  · refine Frames.after (readOnly_liftE _) fun entries _ => ?_
    exact frames_splitInternal hread entries

theorem frames_insertRecursive (key : Bytes) (rid : Rid) (ty : DataType) :
    ∀ (fuel nodeId : Nat) (s : BufferPool),
      Frames files chain (BTree.insertRecursive key rid ty fuel nodeId) s fun _ _ => True
  | 0, _, _ => .throw
  | fuel + 1, nodeId, s => by
    intro hs
    refine (Frames.fetch fun hlt => ?_) hs
    split
    · next hk => exact frames_insertLeaf (hs.nodeRead ⟨hlt, hk⟩) key rid ty
    · next hk =>
      refine Frames.after (readOnly_liftE _) fun child _ => ?_
      refine (frames_insertRecursive key rid ty fuel child _).bind fun out s₃ hs₃ _ => ?_
      split
      · exact .pure trivial
      · exact frames_absorbSplit (hs₃.kept _ _ internal_ne_heap ⟨hlt, hk⟩) _ _ _
    · exact .throw

/-- **Insertion** into an index. -/
theorem frames_insert (root : Nat) (key : Bytes) (rid : Rid) (ty : DataType) (s : BufferPool) :
    Frames files chain (BTree.insert root key rid ty) s fun _ _ => True := by
  refine Frames.after readOnly_pageFuel fun fuel _ => ?_
  refine (frames_insertRecursive key rid ty fuel root _).bind fun out s₂ _ _ => ?_
  split
  · exact .pure trivial
  · refine frames_newNode (k := .btreeInternal) (fun p => BTree.initInternal (.new p) root)
      (fun _ => rfl) (fun hl => by cases hl) fun newRoot s₃ _ hnew => ?_
    exact (frames_insertInto internal_ne_heap hnew _).bind fun _ _ _ _ => .pure trivial

/-! ## Deletion and leaf sweeps -/

/-- A descent ends at a leaf. -/
theorem descendLoop_leaf {target : Bytes} {ty : DataType} {leafId : Nat} (h : Leaves s) :
    ∀ {fuel cur : Nat}, BTree.descendLoop target ty fuel cur s = .ok leafId s' →
      HasKind s leafId .btreeLeaf
  | 0, _, hrun => by cases hrun
  | fuel + 1, cur, hrun => by
    unfold BTree.descendLoop at hrun
    obtain ⟨hlt, hrun⟩ := fetchPage_bind hrun
    cases hk : (s.pages cur).pageKind with
    | btreeLeaf =>
      simp only [hk] at hrun
      cases hrun
      rw [h.id cur hlt hk]
      exact ⟨hlt, hk⟩
    | btreeInternal =>
      simp only [hk] at hrun
      obtain ⟨next, s₁, hchild, hrun⟩ := EStateM.of_bind_ok hrun
      rw [(readOnly_liftE _).eq_of_ok hchild] at hrun
      exact descendLoop_leaf h hrun
    | heap =>
      simp only [hk] at hrun
      cases hrun
    | sequenceRel =>
      simp only [hk] at hrun
      cases hrun

theorem leftmostLoop_leaf {leafId : Nat} :
    ∀ {fuel cur : Nat}, BTree.leftmostLoop fuel cur s = .ok leafId s' → HasKind s leafId .btreeLeaf
  | 0, _, hrun => by cases hrun
  | fuel + 1, cur, hrun => by
    unfold BTree.leftmostLoop at hrun
    obtain ⟨hlt, hrun⟩ := fetchPage_bind hrun
    cases hk : (s.pages cur).pageKind with
    | btreeLeaf =>
      simp only [hk] at hrun
      cases hrun
      exact ⟨hlt, hk⟩
    | btreeInternal =>
      simp only [hk] at hrun
      exact leftmostLoop_leaf hrun
    | heap =>
      simp only [hk] at hrun
      cases hrun
    | sequenceRel =>
      simp only [hk] at hrun
      cases hrun

theorem readOnly_leftmostLoop : ∀ fuel cur, ReadOnly (BTree.leftmostLoop fuel cur)
  | 0, _ => .throw _
  | fuel + 1, cur => (readOnly_fetchPage _).bind fun page => by
    split
    · exact .pure _
    · exact readOnly_leftmostLoop fuel _
    · exact .throw _

/-- **Deletion** from an index. -/
theorem frames_delete (root : Nat) (key : Bytes) (rid : Rid) (ty : DataType) (s : BufferPool) :
    Frames files chain (BTree.delete root key rid ty) s fun _ _ => True := by
  intro hs
  refine (Frames.after (readOnly_descendToLeaf root key ty) fun leafId hleaf => ?_) hs
  have hleaf : HasKind s leafId .btreeLeaf := descendLoop_leaf hs.leaves hleaf
  have hread := hs.nodeRead hleaf
  refine Frames.fetch fun _ => ?_
  refine Frames.after (readOnly_liftE _) fun out _ => ?_
  dsimp only
  split
  · exact .pure trivial
  · refine (frames_writePage ((((Page.new (s.pages leafId).pageId).setPageKind .btreeLeaf).setNextPageId
      (s.pages leafId).nextPageId).setPageLsn (s.pages leafId).pageLsn) leaf_ne_heap hleaf rfl
      hread.leaf).bind fun _ s₄ hs₄ _ => ?_
    exact (frames_insertAll leaf_ne_heap _ (hs₄.kept _ _ leaf_ne_heap hleaf)).bind
      fun _ _ _ _ => .pure trivial

theorem stampPage_fields (page : Page) (lsn : Nat) : (stampPage page lsn).nextPageId = page.nextPageId ∧
    (stampPage page lsn).pageKind = page.pageKind ∧ (stampPage page lsn).pageId = page.pageId ∧
    (stampPage page lsn).slots = page.slots ∧ (stampPage page lsn).allVisible = page.allVisible := by
  unfold stampPage
  split
  · exact ⟨rfl, rfl, rfl, rfl, rfl⟩
  · exact ⟨rfl, rfl, rfl, rfl, rfl⟩

theorem frames_sweepLoop (stampLsn : Nat) : ∀ (fuel prev cur : Nat) (s : BufferPool),
    HasKind s prev .btreeLeaf → (cur = NO_NEXT_PAGE ∨ HasKind s cur .btreeLeaf) →
      Frames files chain (sweepLoop stampLsn fuel prev cur) s fun _ _ => True
  | 0, _, _, _, _, _ => .throw
  | fuel + 1, prev, cur, s, hprev, hcur => by
    unfold sweepLoop
    split
    · exact .pure trivial
    · next hne =>
      have hcur := hcur.resolve_left hne
      intro hs
      have hread := hs.nodeRead hcur
      refine (Frames.fetch fun _ => ?_) hs
      split
      · refine Frames.fetch fun _ => ?_
        obtain ⟨hnext, hkind, hid, -, -⟩ :=
          stampPage_fields ((s.pages prev).setNextPageId (s.pages cur).nextPageId) stampLsn
        refine (frames_writePage _ leaf_ne_heap hprev (hkind.trans hprev.2) fun _ => ?_).bind
          fun _ s₃ hs₃ _ => ?_
        · rw [hid, hnext]
          exact ⟨hs.leaves.id prev hprev.1 hprev.2, (hread.leaf rfl).2⟩
        · exact frames_sweepLoop stampLsn fuel prev _ s₃ (hs₃.kept _ _ leaf_ne_heap hprev)
            ((hread.leaf rfl).2.imp_right fun hn => hs₃.kept _ _ leaf_ne_heap hn)
      · exact frames_sweepLoop stampLsn fuel cur _ s hcur (hread.leaf rfl).2

/-- **Sweeping** the leaf chain of an index. -/
theorem frames_sweepEmptyLeaves (stampLsn root : Nat) (s : BufferPool) :
    Frames files chain (sweepEmptyLeaves stampLsn root) s fun _ _ => True := by
  intro hs
  have hread : ReadOnly (BTree.leftmostLeaf root) :=
    readOnly_pageFuel.bind fun _ => readOnly_leftmostLoop _ _
  refine (Frames.after hread fun first hfirst => ?_) hs
  have hfirst : HasKind s first .btreeLeaf := leftmostLoop_leaf hfirst
  refine Frames.fetch fun _ => ?_
  refine Frames.after readOnly_pageFuel fun fuel _ => ?_
  exact frames_sweepLoop stampLsn fuel first _ _ hfirst ((hs.nodeRead hfirst).leaf rfl).2

/-! ## The roots in `pg_index` -/

/-- A row of `pg_index` changes. -/
theorem Heaps.indexRow {page : Page} (h : Heaps files chain s) (hf : PG_INDEX_PAGE_ID ∈ files)
    (hq : q ∈ chain PG_INDEX_PAGE_ID) (hnext : page.nextPageId = s.next q)
    (hkind : page.pageKind = (s.pages q).pageKind) (hid : page.pageId = (s.pages q).pageId)
    (hrows : (s.pages q).HoldsRows → page.HoldsRows) : Indexes files chain s (s.set q page) := by
  refine ⟨h.change hnext hkind hid hrows, fun f hfm hne p hp => ?_, fun p k _ hp => ⟨hp.1, ?_⟩⟩
  · refine BufferPool.set_pages_ne _ _ ?_
    rintro rfl
    exact hne (h.apart f hfm _ hf p hp hq)
  · exact pages_set (P := fun _ x => x.pageKind = k) (fun hx => hkind.trans hx) hp.2

theorem delete_rows {page page' : Page} {slot : Nat} (h : page.delete slot = .ok page') :
    page' = page.setSlot slot none := by
  unfold Page.delete at h
  split at h
  · cases h
  · split at h
    · cases h
    · cases h
      rfl

/-- **The root** of an index in `pg_index`. -/
theorem frames_updateIndexRoot (hf : PG_INDEX_PAGE_ID ∈ files) (indexId newRoot : Nat)
    (s : BufferPool) :
    Frames files chain (updateIndexRoot indexId newRoot) s fun _ _ => True := by
  intro hs
  refine (Frames.after (readOnly_chainPages _) fun pages hpages => ?_) hs
  rw [hs.chainPages_eq hf] at hpages
  cases hpages
  refine Frames.after (readOnly_liftE _) fun rows hrows => ?_
  split
  · exact .throw
  · next rid t hfind =>
    -- the row is on a page of the chain
    have hrid : rid.1 ∈ chain PG_INDEX_PAGE_ID := by
      have hmap := mapM_ok (f := pageRows)
        (g := fun p => (slotRows 0 p.2.slots).map fun r => ((p.1, r.1), r.2))
        (l := (chain PG_INDEX_PAGE_ID).map fun p => (p, s.pages p)) fun a ha => by
          obtain ⟨p, hp, rfl⟩ := List.mem_map.1 ha
          unfold pageRows
          rw [liveRows_eq 0 _ (hs.rows _ hf p hp)]
          rfl
      rw [hmap] at hrows
      cases hrows
      obtain ⟨chunk, hchunk, hmem⟩ := List.mem_flatten.1 (List.mem_of_find?_eq_some hfind)
      obtain ⟨a, ha, rfl⟩ := List.mem_map.1 hchunk
      obtain ⟨p, hp, rfl⟩ := List.mem_map.1 ha
      obtain ⟨r, -, hr⟩ := List.mem_map.1 hmem
      cases hr
      exact hp
    refine Frames.fetch fun _ => ?_
    refine Frames.after (readOnly_liftE _) fun page' hdel => ?_
    have hdel : page' = (s.pages rid.1).setSlot rid.2 none := by
      refine delete_rows ?_
      unfold liftE at hdel
      split at hdel
      · cases hdel
        assumption
      · cases hdel
    have hwrite : Frames files chain (writePage rid.1 page') s fun _ s' => s' = s.set rid.1 page' :=
      fun h => ⟨h.indexRow hf hrid (by rw [hdel]; rfl) (by rw [hdel]; rfl) (by rw [hdel]; rfl)
        (fun hr => hdel ▸ hr.setSlot _ (fun y hy => by cases hy)), rfl⟩
    refine hwrite.bind fun _ s₅ _ _ => ?_
    refine Frames.fetch fun _ => ?_
    refine Frames.after (readOnly_liftE _) fun out hins => ?_
    obtain ⟨slot, head'⟩ := out
    have hins : ∃ t, (s₅.pages PG_INDEX_PAGE_ID).insert (.heap t) = .ok (slot, head') := by
      unfold liftE at hins
      split at hins
      · cases hins
        exact ⟨_, by assumption⟩
      · cases hins
    obtain ⟨u, hins⟩ := hins
    obtain ⟨-, hnext, hkind, hid, -, hholds⟩ := insert_rows hins
    intro h
    have hhead : PG_INDEX_PAGE_ID ∈ chain PG_INDEX_PAGE_ID :=
      (h.links _ hf).mem_head (by decide)
    exact ⟨h.indexRow hf hhead hnext hkind hid hholds, trivial⟩

/-! ## The index entries of a dead row -/

theorem readOnly_aliveLoop (tm : TransactionManager) : ∀ n rid, ReadOnly (aliveLoop tm n rid)
  | 0, _ => .pure _
  | n + 1, rid => (readOnly_fetchTuple rid).bind fun o => by
    split
    · exact .pure _
    · split
      · exact .pure _
      · split
        · exact .pure _
        · exact readOnly_aliveLoop tm n _

theorem frames_cleanEntry (hf : PG_INDEX_PAGE_ID ∈ files) (tm : TransactionManager) (pageId : Nat)
    (idx : IndexDef) (ty : DataType) (dead : Nat × HeapTuple) (s : BufferPool) :
    Frames files chain (cleanEntry tm pageId idx ty dead) s fun _ _ => True := by
  refine Frames.after (readOnly_liftE _) fun keyValue _ => ?_
  split
  · exact .pure trivial
  · have halive : ReadOnly (aliveOf tm dead.2.ctid) := by
      unfold aliveOf
      split
      · exact .pure _
      · exact readOnly_aliveLoop tm _ _
    refine Frames.after halive fun alive _ => ?_
    refine (frames_delete _ _ _ _ s).bind fun _ s₃ _ _ => ?_
    split
    · exact .pure trivial
    · refine Frames.after (readOnly_liftE _) fun liveKey _ => ?_
      split
      · refine (frames_insert _ _ _ _ s₃).bind fun newRoot s₅ _ _ => ?_
        split
        · exact frames_updateIndexRoot hf _ _ s₅
        · exact .pure trivial
      · exact .pure trivial

end Ccdb
