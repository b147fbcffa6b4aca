import Ccdb.BTree.Pages

/-!
# Ccdb — trees on pages

The abstraction relation between a page store and a tree of the B+tree
library, and the simulation of `insert_recursive`: whenever the pages below
a node form a tree, the code performs the library's `Ins` on it, writes
only the tree's own pages and pages that were not in use, and fails only
when `new_page` does.

Main results:

* `insertRecursive_sim` — the simulation, by induction on the depth.
* `splitsFit_of_fixedWidth` — for fixed-width keys the halves of a split
  always fit.
-/

namespace Ccdb.BTree

open Ccdb BPlus Page

variable {ty : DataType} {s : BufferPool}

/-! ## The abstraction relation -/

abbrev LeafNode (ty : DataType) := Leaf Nat (Key ty) Rid
abbrev PageTree (ty : DataType) := Tree Nat (Key ty) Rid

/-- What fits on a page: leaf entries with their rids, internal entries
with their child pointers. -/
def capacity (ty : DataType) : Capacity (Key ty) Rid where
  leafFits es := HEADER_SIZE + spaceOf (leafTuples es) ≤ PAGE_SIZE
  nodeFits ks := HEADER_SIZE + spaceOf (ks.map fun k => .internal k.bytes 0) ≤ PAGE_SIZE

structure IsLeafPage (p : Page) (L : LeafNode ty) : Prop where
  kind : p.pageKind = .btreeLeaf
  pageId : p.pageId = L.id
  next : p.nextPageId = L.next
  packed : Packed p (leafTuples L.entries)

structure IsNodePage (p : Page) (id : Nat) (kids : SepList (Key ty) Nat) : Prop where
  kind : p.pageKind = .btreeInternal
  pageId : p.pageId = id
  next : p.nextPageId = kids.head
  packed : Packed p (nodeTuples kids.tail)

/-- The pages of the store form the tree. -/
def Repr (s : BufferPool) : (d : Nat) → PageTree ty d → Prop
  | 0, t => IsLeafPage (s.pages (Leaf.id t)) t
  | d + 1, t => IsNodePage (s.pages (Node.id t)) (Node.id t) ((Node.kids t).map Tree.rootId) ∧
      ∀ c ∈ (Node.kids t).items, Repr s d c

/-- Every internal page routes a key to the child the tree does. -/
theorem childFor_repr {d : Nat} {t : PageTree ty (d + 1)} (hr : Repr s (d + 1) t)
    (k : Key ty) : childFor (s.pages (Node.id t)) k.bytes ty =
      .ok ((Node.kids t).route (upTo Key.rank k)).rootId := by
  rw [childFor_eq k hr.1.kind hr.1.next hr.1.packed, SepList.ofTail_eq, SepList.route_map]

/-- The tree depends on its own pages only. -/
theorem Repr.congr {s s' : BufferPool} : ∀ (d : Nat) (t : PageTree ty d),
    (∀ q ∈ t.ids d, s'.pages q = s.pages q) → Repr s d t → Repr s' d t
  | 0, t, h, hr => by
    have hpage := h (Leaf.id t) (rootId_mem_ids 0 t)
    simpa [Repr, hpage] using hr
  | d + 1, t, h, hr => by
    refine ⟨?_, fun c hc => Repr.congr d c (fun q hq => h q ?_) (hr.2 c hc)⟩
    · rw [h (Node.id t) (rootId_mem_ids (d + 1) t)]
      exact hr.1
    · rw [Tree.ids, SepList.spell_eq_flatMap_items]
      exact List.mem_cons_of_mem _ (List.mem_flatMap.2 ⟨c, hc, hq⟩)

/-! ## Outcomes of page programs -/

/-- The program succeeds with `Q`, or `new_page` fails. -/
def Succeeds {α : Type} (x : PoolM α) (s : BufferPool) (Q : α → BufferPool → Prop) : Prop :=
  match x s with
  | .ok a s' => Q a s'
  | .error e _ => e = newPageError

theorem Succeeds.bind {α β : Type} {x : PoolM α} {f : α → PoolM β}
    {P : α → BufferPool → Prop} {Q : β → BufferPool → Prop} (hx : Succeeds x s P)
    (hf : ∀ a s', P a s' → Succeeds (f a) s' Q) : Succeeds (x >>= f) s Q := by
  unfold Succeeds at hx
  cases h : x s with
  | ok a s' =>
    rw [h] at hx
    unfold Succeeds
    rw [bind_ok h]
    exact hf a s' hx
  | error e s' =>
    rw [h] at hx
    unfold Succeeds
    rw [bind_error h]
    exact hx

theorem Succeeds.of_ok {α : Type} {x : PoolM α} {s s' : BufferPool} {a : α}
    {Q : α → BufferPool → Prop} (h : x s = .ok a s') (hq : Q a s') : Succeeds x s Q := by
  unfold Succeeds
  rw [h]
  exact hq

theorem Succeeds.bind_ok {α β : Type} {x : PoolM α} {f : α → PoolM β} {s s' : BufferPool} {a : α}
    {Q : β → BufferPool → Prop} (h : x s = .ok a s') (hf : Succeeds (f a) s' Q) :
    Succeeds (x >>= f) s Q := by
  unfold Succeeds
  rw [BTree.bind_ok h]
  exact hf

theorem Succeeds.imp {α : Type} {x : PoolM α} {P Q : α → BufferPool → Prop}
    (h : Succeeds x s P) (hpq : ∀ a s', P a s' → Q a s') : Succeeds x s Q := by
  unfold Succeeds at h ⊢
  cases hx : x s with
  | ok a s' => rw [hx] at h; exact hpq a s' h
  | error e s' => rw [hx] at h; exact h

theorem succeeds_newPage (hwf : s.WF) :
    Succeeds newPage s fun p s' => s'.WF ∧ ¬ s.Used p ∧ s'.pages p = .new p ∧
      (∀ q, q ≠ p → s'.pages q = s.pages q) ∧ (∀ q, s'.Used q ↔ s.Used q ∨ q = p) ∧
      s.room ≤ s'.room + 1 ∧ s'.pageCount ≤ s.pageCount + 1 := by
  unfold Succeeds
  cases h : newPage s with
  | ok p s' =>
    obtain ⟨h1, h2, h3, h4, h5, -⟩ := newPage_ok hwf h
    exact ⟨h1, h2, h3, h4, h5, newPage_room h⟩
  | error e s' => exact (newPage_error h).1

/-- A step that owned the pages `own` before and owns `own'` after: other
used pages are untouched, pages gained were not in use, and no page was
allocated in vain. -/
structure Grown (s s' : BufferPool) (own own' : List Nat) : Prop where
  wf : s'.WF
  used : ∀ q, s.Used q → s'.Used q
  owned : ∀ q ∈ own', s'.Used q
  frame : ∀ q, s.Used q → q ∉ own → s'.pages q = s.pages q
  fresh : ∀ q ∈ own', q ∈ own ∨ ¬ s.Used q
  nodup : own'.Nodup
  spent : s.room + own.length ≤ s'.room + own'.length ∧
    s'.pageCount + own.length ≤ s.pageCount + own'.length

theorem Grown.trans {s s₁ s₂ : BufferPool} {a b c : List Nat} (h₁ : Grown s s₁ a b)
    (h₂ : Grown s₁ s₂ b c) : Grown s s₂ a c where
  wf := h₂.wf
  used q hq := h₂.used q (h₁.used q hq)
  owned := h₂.owned
  frame q hq hqa := by
    have hqb : q ∉ b := fun hb => (h₁.fresh q hb).elim hqa fun hn => hn hq
    rw [h₂.frame q (h₁.used q hq) hqb, h₁.frame q hq hqa]
  fresh q hq := by
    rcases h₂.fresh q hq with hb | hn
    · exact h₁.fresh q hb
    · exact Or.inr fun hu => hn (h₁.used q hu)
  nodup := h₂.nodup
  spent := by
    have := h₁.spent
    have := h₂.spent
    omega

theorem Grown.perm {s s' : BufferPool} {a b c : List Nat} (h : Grown s s' a b) (hp : b.Perm c) :
    Grown s s' a c :=
  ⟨h.wf, h.used, fun q hq => h.owned q (hp.mem_iff.2 hq), h.frame,
    fun q hq => h.fresh q (hp.mem_iff.2 hq), hp.nodup_iff.1 h.nodup, hp.length_eq ▸ h.spent⟩

/-- A step on part of what is owned. -/
theorem Grown.context {s s' : BufferPool} {a b : List Nat} (h : Grown s s' a b) {l r : List Nat}
    (hown : ∀ q ∈ l ++ a ++ r, s.Used q) (hnd : (l ++ a ++ r).Nodup) :
    Grown s s' (l ++ a ++ r) (l ++ b ++ r) := by
  rw [List.append_assoc] at hnd
  obtain ⟨hl, har, hlar⟩ := List.nodup_append.1 hnd
  obtain ⟨ha, hr, har'⟩ := List.nodup_append.1 har
  have hout : ∀ q, s.Used q → q ∉ a → q ∉ b := fun q hq hqa hqb =>
    (h.fresh q hqb).elim hqa fun hn => hn hq
  have hlu : ∀ q ∈ l, s.Used q := fun q hq => hown q (by simp [hq])
  have hru : ∀ q ∈ r, s.Used q := fun q hq => hown q (by simp [hq])
  refine ⟨h.wf, h.used, fun q hq => ?_, fun q hq hqo => h.frame q hq fun hqa => hqo (by simp [hqa]),
    fun q hq => ?_, ?_, ?_⟩
  · simp only [List.mem_append] at hq
    rcases hq with (hq | hq) | hq
    · exact h.used q (hlu q hq)
    · exact h.owned q hq
    · exact h.used q (hru q hq)
  · simp only [List.mem_append] at hq ⊢
    rcases hq with (hq | hq) | hq
    · exact Or.inl (Or.inl (Or.inl hq))
    · exact (h.fresh q hq).imp (fun hq => Or.inl (Or.inr hq)) id
    · exact Or.inl (Or.inr hq)
  · rw [List.append_assoc]
    refine List.nodup_append.2 ⟨hl, List.nodup_append.2 ⟨h.nodup, hr, ?_⟩, ?_⟩
    · rintro x hx y hy rfl
      exact hout x (hru x hy) (fun hxa => har' x hxa x hy rfl) hx
    · rintro x hx y hy rfl
      rcases List.mem_append.1 hy with hy | hy
      · exact hout x (hlu x hx) (fun hxa => hlar x hx x (by simp [hxa]) rfl) hy
      · exact hlar x hx x (by simp [hy]) rfl
  · have := h.spent
    simp only [List.length_append]
    omega

theorem grown_set {own : List Nat} (hwf : s.WF) {p : Nat} (page : Page)
    (hp : p ∈ own) (hown : ∀ q ∈ own, s.Used q) (hnd : own.Nodup) :
    Grown s (s.set p page) own own where
  wf := hwf.set p page
  used _ h := h
  owned := hown
  frame _ _ hq := s.set_pages_ne page fun heq => hq (heq ▸ hp)
  fresh _ hq := Or.inl hq
  nodup := hnd
  spent := ⟨le_rfl, le_rfl⟩

/-! ## Rebuilding pages -/

section Rebuild

variable {β : Type} (E : EntryKind ty β)

theorem spaceOf_insertBefore (gt : Key ty × β → Bool) (k : Key ty) (b : β)
    (es : List (Key ty × β)) :
    spaceOf (E.tuples (insertBefore gt (k, b) es)) =
      spaceOf (E.tuples es) + ((E.tuple k b).len + SLOT_SIZE) := by
  obtain ⟨l, r, hes, hins, -, -⟩ := insertBefore_eq gt (k, b) es
  rw [hins, hes]
  simp only [EntryKind.tuples, List.map_append, List.map_cons, spaceOf_append, spaceOf_cons]
  omega

theorem spaceOf_nodeTuples (es : List (Key ty × Nat)) :
    spaceOf (nodeTuples es) = spaceOf ((es.map Prod.fst).map fun k => .internal k.bytes 0) := by
  induction es with
  | nil => rfl
  | cons e es ih =>
    simp only [nodeTuples, List.map_cons, spaceOf_cons, PageTuple.len_internal] at ih ⊢
    rw [ih]

/-- `fits` decides whether the merged entries fit. -/
theorem fits_iff {page : Page} {es : List (Key ty × β)} (gt : Key ty × β → Bool) (k : Key ty)
    (b : β) (h : Packed page (E.tuples es)) :
    fits page (E.tuple k b).len = true ↔
      HEADER_SIZE + spaceOf (E.tuples (insertBefore gt (k, b) es)) ≤ PAGE_SIZE := by
  rw [fits, decide_eq_true_eq, packed_insert h, spaceOf_insertBefore]
  simp only [spaceOf_append, spaceOf_cons, spaceOf_nil, Nat.add_zero]

/-- A page rebuilt from entries that fit. -/
theorem packed_rebuilt {p : Page} {ts : List PageTuple} (hnew : Packed p [])
    (hfit : HEADER_SIZE + spaceOf ts ≤ PAGE_SIZE) : Packed (pushAll p ts) ts := by
  simpa using packed_pushAll ts hnew (by simpa using hfit)

@[simp] theorem resetPage_header (page : Page) (next : Nat) :
    (resetPage page next).pageId = page.pageId ∧ (resetPage page next).nextPageId = next ∧
      (resetPage page next).pageKind = page.pageKind := ⟨rfl, rfl, rfl⟩

theorem packed_resetPage (page : Page) (next : Nat) : Packed (resetPage page next) [] :=
  ⟨rfl, rfl, by decide⟩

theorem insertAll_set {p : Nat} {page : Page} {ts : List PageTuple}
    (hnew : Packed page []) (hfit : HEADER_SIZE + spaceOf ts ≤ PAGE_SIZE) :
    insertAll p ts (s.set p page) = .ok () (s.set p (pushAll page ts)) := by
  rw [insertAll_eq ts (by simpa using hnew) (by simpa using hfit)]
  simp [BufferPool.set]

theorem insertSorted_ok {p : Nat} {page : Page} {es : List (Key ty × β)}
    {k : Key ty} {b : β} (hkind : page.pageKind = E.kind) (h : Packed page (E.tuples es))
    (hfit : HEADER_SIZE +
      spaceOf (E.tuples (insertBefore (fun e => beyond Key.rank k e.1) (k, b) es)) ≤ PAGE_SIZE) :
    insertSorted p page k.bytes (E.tuple k b) ty s =
      .ok () (s.set p (pushAll (resetPage page page.nextPageId)
        (E.tuples (insertBefore (fun e => beyond Key.rank k e.1) (k, b) es)))) := by
  have hmerge := mergeEntry_eq E k b es page.slots h.tuples
  rw [insertSorted, hkind, hmerge, bind_ok (liftE_ok _ _), bind_ok (writePage_apply _ _ _)]
  exact insertAll_set (packed_resetPage _ _) hfit

end Rebuild

/-! ## Leaves -/

/-- What the recursion returns for an outcome. -/
def outcomeOf {d : Nat} : Outcome (Key ty) (PageTree ty d) → InsertOutcome
  | .fit _ => .fit
  | .split _ sep r => .split sep.bytes r.rootId

def leafOutcome : Outcome (Key ty) (LeafNode ty) → InsertOutcome
  | .fit _ => .fit
  | .split _ sep r => .split sep.bytes r.id

/-- The middle of an overflowing leaf. -/
theorem exists_halves {es : List (Key ty × Rid)}
    (h : (capacity ty).leafFits (es.take (es.length / 2)) ∧
      (capacity ty).leafFits (es.drop (es.length / 2))) (hne : 0 < es.length) :
    ∃ a e b, es = a ++ e :: b ∧ a.length = es.length / 2 ∧ (capacity ty).leafFits a ∧
      (capacity ty).leafFits (e :: b) := by
  have hmid : es.length / 2 < es.length := by omega
  refine ⟨es.take (es.length / 2), es[es.length / 2], es.drop (es.length / 2 + 1), ?_, ?_, h.1, ?_⟩
  · rw [← List.drop_eq_getElem_cons hmid, List.take_append_drop]
  · exact List.length_take_of_le hmid.le
  · rw [← List.drop_eq_getElem_cons hmid]
    exact h.2

/-- The code's step from `s` to `s'` is insertion outcome `o` of tree `t`. -/
structure InsSim (s s' : BufferPool) (k : Key ty) (rid : Rid) (d : Nat) (t : PageTree ty d)
    (o : Outcome (Key ty) (PageTree ty d)) : Prop where
  ins : Ins Key.rank (capacity ty) k rid d t o
  repr : ∀ c ∈ o.toSep.items, Repr s' d c
  grown : Grown s s' (t.ids d) (o.toSep.spell (Tree.ids d) (fun _ => []))

/-- The tuples of a leaf that is cut in the middle. -/
theorem leafTuples_halves {a b : List (Key ty × Rid)} {e : Key ty × Rid}
    (hlen : a.length = (a ++ e :: b).length / 2) :
    (leafTuples (a ++ e :: b)).length / 2 = a.length ∧
      (leafTuples (a ++ e :: b)).take a.length = leafTuples a ∧
      (leafTuples (a ++ e :: b)).drop a.length = leafTuples (e :: b) := by
  refine ⟨?_, ?_, ?_⟩
  · rw [hlen]
    simp [leafTuples]
  · rw [leafTuples, List.map_append]
    exact List.take_left' (by simp)
  · rw [leafTuples, List.map_append]
    exact List.drop_left' (by simp)

/-- The pages of a leaf split. -/
theorem splitLeaf_spec {L : LeafNode ty} (hwf : s.WF) (hu : s.Used L.id)
    (hp : IsLeafPage (s.pages L.id) L) {a b : List (Key ty × Rid)} {e : Key ty × Rid}
    (hlen : a.length = (a ++ e :: b).length / 2) (ha : (capacity ty).leafFits a)
    (hb : (capacity ty).leafFits (e :: b)) :
    Succeeds (splitLeaf L.id (s.pages L.id) (leafTuples (a ++ e :: b))) s fun out s' =>
      ∃ newId, out = .split e.1.bytes newId ∧
        IsLeafPage (s'.pages L.id) (⟨L.id, newId, a⟩ : LeafNode ty) ∧
        IsLeafPage (s'.pages newId) (⟨newId, L.next, e :: b⟩ : LeafNode ty) ∧
        Grown s s' [L.id] [L.id, newId] := by
  obtain ⟨hmid, htake, hdrop⟩ := leafTuples_halves hlen
  simp only [splitLeaf, hmid, htake, hdrop]
  refine Succeeds.bind_ok rfl ?_
  refine Succeeds.bind_ok (insertAll_set (packed_resetPage _ _) ha) ?_
  refine Succeeds.bind (succeeds_newPage (hwf.set _ _)) ?_
  rintro newId s₁ ⟨hwf₁, hfresh, hnew, hframe, hused, hroom, hcount⟩
  rw [BufferPool.used_set] at hfresh
  have hne : newId ≠ L.id := fun h => hfresh (h ▸ hu)
  refine Succeeds.bind_ok rfl ?_
  refine Succeeds.bind_ok (insertAll_set ⟨rfl, rfl, by decide⟩ hb) ?_
  refine Succeeds.bind_ok rfl ?_
  refine Succeeds.bind_ok rfl ?_
  refine Succeeds.of_ok rfl ⟨newId, rfl, ?_, ?_, ?_⟩
  · have hleft := packed_rebuilt (packed_resetPage (s.pages L.id) NO_NEXT_PAGE) ha
    have hhead := pushAll_header (resetPage (s.pages L.id) NO_NEXT_PAGE) (leafTuples a)
    have hpage : s₁.pages L.id = pushAll (resetPage (s.pages L.id) NO_NEXT_PAGE) (leafTuples a) := by
      rw [hframe _ hne.symm]
      simp
    refine ⟨?_, ?_, ?_, ?_⟩
    · simpa [BufferPool.set, hne.symm, setNextPageId, hpage, hhead] using hp.kind
    · simpa [BufferPool.set, hne.symm, setNextPageId, hpage, hhead] using hp.pageId
    · simp [BufferPool.set, setNextPageId]
    · simp only [BufferPool.set, Function.update_self, ne_eq, hne.symm, not_false_eq_true,
        Function.update_of_ne, hpage]
      exact ⟨hleft.tuples, hleft.offset, hleft.room⟩
  · have hright := packed_rebuilt (p := initLeaf (.new newId)) ⟨rfl, rfl, by decide⟩ hb
    have hhead := pushAll_header (initLeaf (.new newId)) (leafTuples (e :: b))
    refine ⟨?_, ?_, ?_, ?_⟩
    · simp [BufferPool.set, hne, setNextPageId, hhead]
      rfl
    · simp [BufferPool.set, hne, setNextPageId, hhead]
      rfl
    · simp [BufferPool.set, hne, setNextPageId, hp.next]
    · simp only [BufferPool.set, Function.update_self, ne_eq, hne, not_false_eq_true,
        Function.update_of_ne]
      exact ⟨hright.tuples, hright.offset, hright.room⟩
  · refine ⟨((hwf₁.set _ _).set _ _).set _ _, fun q hq => (hused q).2 (Or.inl hq),
      fun q hq => (hused q).2 ?_, fun q hq hqn => ?_, fun q hq => ?_, by simp [hne.symm], ⟨?_, ?_⟩⟩
    · simp only [List.mem_cons, List.not_mem_nil, or_false] at hq
      rcases hq with rfl | rfl
      · exact Or.inl hu
      · exact Or.inr rfl
    · have hq1 : q ≠ newId := fun h => hfresh (h ▸ hq)
      have hq2 : q ≠ L.id := by simpa using hqn
      simp [BufferPool.set, hq1, hq2, hframe q hq1]
    · simp only [List.mem_cons, List.not_mem_nil, or_false] at hq
      rcases hq with rfl | rfl
      · exact Or.inl (List.mem_singleton_self _)
      · exact Or.inr hfresh
    · simpa using hroom
    · simpa using hcount

/-- The leaf case. -/
theorem insertLeaf_spec {L : LeafNode ty} (hwf : s.WF) (hu : s.Used L.id)
    (hp : IsLeafPage (s.pages L.id) L) (k : Key ty) (rid : Rid)
    (hfit : SplitsFit Key.rank (capacity ty) k rid 0 (L : PageTree ty 0)) :
    Succeeds (insertLeaf L.id (s.pages L.id) k.bytes rid ty) s fun out s' =>
      ∃ o, LeafIns Key.rank (capacity ty) L k rid o ∧
        (∀ M ∈ o.toSep.items, IsLeafPage (s'.pages M.id) M) ∧
        Grown s s' [L.id] (o.toSep.items.map Leaf.id) ∧ out = leafOutcome o := by
  have hown : ∀ q ∈ [L.id], s.Used q := fun q hq => (List.mem_singleton.1 hq) ▸ hu
  obtain ⟨b, hb, hpresent⟩ := leafHasEntry_eq k rid L.entries _ hp.packed.tuples
  have hfits : fits (s.pages L.id) (PageTuple.leaf k.bytes rid).len = true ↔
      (capacity ty).leafFits (grow Key.rank k rid L.entries) :=
    fits_iff (leafEntry ty) (fun e => beyond Key.rank k e.1) k rid hp.packed
  unfold insertLeaf
  rw [hb]
  refine Succeeds.bind_ok (liftE_ok _ _) ?_
  dsimp only
  by_cases hpres : Present Key.rank k rid L.entries
  · rw [if_pos (hpresent.2 hpres)]
    refine Succeeds.of_ok rfl ⟨.fit L, .present hpres, by simpa [Outcome.toSep] using hp, ?_, rfl⟩
    exact ⟨hwf, fun _ h => h, hown, fun _ _ _ => rfl, fun _ hq => Or.inl hq, by simp [Outcome.toSep],
      ⟨le_rfl, le_rfl⟩⟩
  · rw [if_neg (fun h => hpres (hpresent.1 h))]
    by_cases hroom : (capacity ty).leafFits (grow Key.rank k rid L.entries)
    · rw [if_pos (hfits.2 hroom)]
      refine Succeeds.bind_ok (insertSorted_ok (leafEntry ty) hp.kind hp.packed hroom) ?_
      refine Succeeds.of_ok rfl ⟨.fit { L with entries := grow Key.rank k rid L.entries },
        .fit hpres hroom, ?_, grown_set hwf _ (List.mem_singleton_self _) hown
          (by simp), rfl⟩
      have hpacked := packed_rebuilt
        (packed_resetPage (s.pages L.id) (s.pages L.id).nextPageId) hroom
      have hhead := pushAll_header (resetPage (s.pages L.id) (s.pages L.id).nextPageId)
        (leafTuples (grow Key.rank k rid L.entries))
      simp only [Outcome.toSep, SepList.items_single, List.mem_singleton, forall_eq]
      rw [BufferPool.set_pages_self]
      exact ⟨hhead.2.2.trans hp.kind, hhead.1.trans hp.pageId, hhead.2.1.trans hp.next, hpacked⟩
    · rw [if_neg (fun h => hroom (hfits.1 h))]
      obtain ⟨a, e, b, hsplit, hlen, ha, hb⟩ := exists_halves (hfit hpres hroom)
        (by rw [grow, insertBefore_length]; omega)
      have hmerge : mergeEntry .btreeLeaf k.bytes (.leaf k.bytes rid) ty false
          (s.pages L.id).slots = .ok (leafTuples (a ++ e :: b)) := by
        rw [← hsplit]
        exact mergeEntry_eq (leafEntry ty) k rid L.entries _ hp.packed.tuples
      rw [hmerge]
      refine Succeeds.bind_ok (liftE_ok _ _) ?_
      refine Succeeds.imp (splitLeaf_spec hwf hu hp (by rw [← hsplit]; exact hlen) ha hb) ?_
      rintro out s' ⟨newId, rfl, hleft, hright, hgrown⟩
      refine ⟨.split ⟨L.id, newId, a⟩ e.1 ⟨newId, L.next, e :: b⟩,
        .split newId a b e hpres hroom hsplit hlen ha hb, ?_, hgrown, rfl⟩
      simp only [Outcome.toSep, SepList.items_cons, SepList.items_single, List.mem_cons,
        List.not_mem_nil, or_false, forall_eq_or_imp, forall_eq]
      exact ⟨hleft, hright⟩

/-! ## Internal nodes -/

/-- The pages of an internal split. -/
theorem splitInternal_spec {id : Nat} {kids a b : SepList (Key ty) Nat}
    {m : Key ty} (hwf : s.WF) (hu : s.Used id) (hp : IsNodePage (s.pages id) id kids)
    (hhead : a.head = kids.head)
    (hlen : a.seps.length = (a.append m b).seps.length / 2) (ha : (capacity ty).nodeFits a.seps)
    (hb : (capacity ty).nodeFits b.seps) :
    Succeeds (splitInternal id (s.pages id) (nodeTuples (a.append m b).tail)) s fun out s' =>
      ∃ newId, out = .split m.bytes newId ∧ IsNodePage (s'.pages id) id a ∧
        IsNodePage (s'.pages newId) newId b ∧ Grown s s' [id] [id, newId] := by
  have hatail : (nodeTuples a.tail).length = a.seps.length := by simp [nodeTuples, SepList.seps_eq]
  have hmid : (nodeTuples (a.append m b).tail).length / 2 = (nodeTuples a.tail).length := by
    rw [hatail, hlen]
    simp [nodeTuples, SepList.seps_eq]
  have hes : nodeTuples (a.append m b).tail =
      nodeTuples a.tail ++ .internal m.bytes b.head :: nodeTuples b.tail := by
    simp [nodeTuples, SepList.tail_append]
  have hdrop : (nodeTuples (a.append m b).tail).drop (nodeTuples a.tail).length =
      .internal m.bytes b.head :: nodeTuples b.tail := by
    rw [hes]
    exact List.drop_left' rfl
  have htake : (nodeTuples (a.append m b).tail).take (nodeTuples a.tail).length =
      nodeTuples a.tail := by
    rw [hes]
    exact List.take_left' rfl
  have hfa : HEADER_SIZE + spaceOf (nodeTuples a.tail) ≤ PAGE_SIZE := by
    rw [spaceOf_nodeTuples, ← SepList.seps_eq]
    exact ha
  have hfb : HEADER_SIZE + spaceOf (nodeTuples b.tail) ≤ PAGE_SIZE := by
    rw [spaceOf_nodeTuples, ← SepList.seps_eq]
    exact hb
  simp only [splitInternal, hmid, htake, hdrop]
  refine Succeeds.bind_ok rfl ?_
  refine Succeeds.bind_ok rfl ?_
  refine Succeeds.bind_ok (insertAll_set (packed_resetPage _ _) hfa) ?_
  refine Succeeds.bind (succeeds_newPage (hwf.set _ _)) ?_
  rintro newId s₁ ⟨hwf₁, hfresh, hnew, hframe, hused, hroom, hcount⟩
  rw [BufferPool.used_set] at hfresh
  have hne : newId ≠ id := fun h => hfresh (h ▸ hu)
  refine Succeeds.bind_ok rfl ?_
  refine Succeeds.bind_ok (insertAll_set ⟨rfl, rfl, by decide⟩ hfb) ?_
  refine Succeeds.of_ok rfl ⟨newId, rfl, ?_, ?_, ?_⟩
  · have hleft := packed_rebuilt (packed_resetPage (s.pages id) (s.pages id).nextPageId) hfa
    have hhd := pushAll_header (resetPage (s.pages id) (s.pages id).nextPageId) (nodeTuples a.tail)
    have hpage : (s₁.set newId (pushAll (initInternal (.new newId) b.head)
        (nodeTuples b.tail))).pages id =
          pushAll (resetPage (s.pages id) (s.pages id).nextPageId) (nodeTuples a.tail) := by
      rw [BufferPool.set_pages_ne _ _ hne.symm, hframe _ hne.symm, BufferPool.set_pages_self]
    rw [hpage]
    exact ⟨hhd.2.2.trans hp.kind, hhd.1.trans hp.pageId, hhd.2.1.trans (hp.next.trans hhead.symm),
      hleft⟩
  · have hright := packed_rebuilt (p := initInternal (.new newId) b.head)
      ⟨rfl, rfl, by decide⟩ hfb
    have hhd := pushAll_header (initInternal (.new newId) b.head) (nodeTuples b.tail)
    rw [BufferPool.set_pages_self]
    exact ⟨hhd.2.2, hhd.1, hhd.2.1, hright⟩
  · refine ⟨hwf₁.set _ _, fun q hq => (hused q).2 (Or.inl hq), fun q hq => (hused q).2 ?_,
      fun q hq hqn => ?_, fun q hq => ?_, by simp [hne.symm], ⟨?_, ?_⟩⟩
    · simp only [List.mem_cons, List.not_mem_nil, or_false] at hq
      rcases hq with rfl | rfl
      · exact Or.inl hu
      · exact Or.inr rfl
    · have hq1 : q ≠ newId := fun h => hfresh (h ▸ hq)
      have hq2 : q ≠ id := by simpa using hqn
      rw [BufferPool.set_pages_ne _ _ hq1, hframe q hq1, BufferPool.set_pages_ne _ _ hq2]
    · simp only [List.mem_cons, List.not_mem_nil, or_false] at hq
      rcases hq with rfl | rfl
      · exact Or.inl (List.mem_singleton_self _)
      · exact Or.inr hfresh
    · simpa using hroom
    · simpa using hcount

/-- Absorbing a child's split, on the page of the node. -/
theorem absorbSplit_spec {id right : Nat} {kids : SepList (Key ty) Nat}
    {sep : Key ty} (hwf : s.WF) (hu : s.Used id) (hp : IsNodePage (s.pages id) id kids)
    (hfit : ¬ (capacity ty).nodeFits (insertBefore (beyond Key.rank sep) sep kids.seps) →
      let ks := insertBefore (beyond Key.rank sep) sep kids.seps
      (capacity ty).nodeFits (ks.take (ks.length / 2)) ∧
        (capacity ty).nodeFits (ks.drop (ks.length / 2 + 1))) :
    Succeeds (absorbSplit id sep.bytes right ty) s fun out s' =>
      let kids' := kids.insertSep (beyond Key.rank sep) sep right
      ((capacity ty).nodeFits kids'.seps ∧ out = .fit ∧ IsNodePage (s'.pages id) id kids' ∧
          Grown s s' [id] [id]) ∨
        (¬ (capacity ty).nodeFits kids'.seps ∧ ∃ newId a m b, kids' = a.append m b ∧
          a.seps.length = kids'.seps.length / 2 ∧ (capacity ty).nodeFits a.seps ∧
          (capacity ty).nodeFits b.seps ∧ out = .split m.bytes newId ∧
          IsNodePage (s'.pages id) id a ∧ IsNodePage (s'.pages newId) newId b ∧
          Grown s s' [id] [id, newId]) := by
  have hown : ∀ q ∈ [id], s.Used q := fun q hq => (List.mem_singleton.1 hq) ▸ hu
  have htail : nodeTuples (kids.insertSep (beyond Key.rank sep) sep right).tail =
      (nodeEntry ty).tuples (insertBefore (fun e => beyond Key.rank sep e.1) (sep, right)
        kids.tail) := by
    rw [tail_insertSep]
    rfl
  have hroom_iff : (capacity ty).nodeFits (kids.insertSep (beyond Key.rank sep) sep right).seps ↔
      HEADER_SIZE + spaceOf (nodeTuples (kids.insertSep (beyond Key.rank sep) sep right).tail) ≤
        PAGE_SIZE := by
    rw [spaceOf_nodeTuples, ← SepList.seps_eq]
    rfl
  have hfits : fits (s.pages id) (PageTuple.internal sep.bytes right).len = true ↔
      (capacity ty).nodeFits (kids.insertSep (beyond Key.rank sep) sep right).seps := by
    rw [hroom_iff, htail]
    exact fits_iff (nodeEntry ty) (fun e => beyond Key.rank sep e.1) sep right hp.packed
  unfold absorbSplit
  refine Succeeds.bind_ok (fetchPage_used hu) ?_
  dsimp only
  by_cases hroom : (capacity ty).nodeFits (kids.insertSep (beyond Key.rank sep) sep right).seps
  · rw [if_pos (hfits.2 hroom)]
    have hspace := hroom_iff.1 hroom
    refine Succeeds.bind_ok
      (insertSorted_ok (nodeEntry ty) hp.kind hp.packed (by rw [← htail]; exact hspace)) ?_
    rw [← htail]
    refine Succeeds.of_ok rfl (Or.inl ⟨hroom, rfl, ?_,
      grown_set hwf _ (List.mem_singleton_self _) hown (by simp)⟩)
    have hhead := pushAll_header (resetPage (s.pages id) (s.pages id).nextPageId)
      (nodeTuples (kids.insertSep (beyond Key.rank sep) sep right).tail)
    rw [BufferPool.set_pages_self]
    refine ⟨hhead.2.2.trans hp.kind, hhead.1.trans hp.pageId, ?_,
      packed_rebuilt (packed_resetPage _ _) hspace⟩
    rw [SepList.head_insertSep]
    exact hhead.2.1.trans hp.next
  · rw [if_neg (fun h => hroom (hfits.1 h))]
    rw [seps_insertSep] at hroom
    obtain ⟨hfa, hfb⟩ := hfit hroom
    rw [← seps_insertSep (r := right)] at hroom hfa hfb
    obtain ⟨a, m, b, hab, hlen⟩ := SepList.exists_append_of_lt
      (kids.insertSep (beyond Key.rank sep) sep right)
      ((kids.insertSep (beyond Key.rank sep) sep right).seps.length / 2)
      (by rw [seps_insertSep, insertBefore_length]; omega)
    have hhead : a.head = kids.head := by
      rw [← SepList.head_append a m b, ← hab, SepList.head_insertSep]
    have hmerge : mergeEntry .btreeInternal sep.bytes (.internal sep.bytes right) ty false
        (s.pages id).slots = .ok (nodeTuples (a.append m b).tail) := by
      rw [← hab, htail]
      exact mergeEntry_eq (nodeEntry ty) sep right kids.tail _ hp.packed.tuples
    rw [← hlen, hab, SepList.seps_append] at hfa hfb
    rw [List.take_left' rfl] at hfa
    rw [← List.drop_drop, List.drop_left' rfl, List.drop_one, List.tail_cons] at hfb
    rw [hmerge]
    refine Succeeds.bind_ok (liftE_ok _ _) ?_
    refine Succeeds.imp
      (splitInternal_spec hwf hu hp hhead (by rw [← hab]; exact hlen) hfa hfb) ?_
    rintro out s' ⟨newId, rfl, hleft, hright, hgrown⟩
    exact Or.inr ⟨hroom, newId, a, m, b, hab, hlen, hfa, hfb, rfl, hleft, hright, hgrown⟩

/-! ## The recursion -/

/-- The children of a node with the routed one replaced by its outcome. -/
def childrenAfter {d : Nat} (k : Key ty) (n : Node Nat (Key ty) (PageTree ty d))
    (oc : Outcome (Key ty) (PageTree ty d)) : List (PageTree ty d) :=
  n.kids.before (upTo Key.rank k) (fun c => [c]) (fun _ => []) ++ oc.toSep.items ++
    n.kids.after (upTo Key.rank k) (fun c => [c]) (fun _ => [])

theorem ids_succ {d : Nat} (k : Key ty) (n : Node Nat (Key ty) (PageTree ty d)) :
    Tree.ids (d + 1) n = (n.id :: (n.kids.before (upTo Key.rank k) (fun c => [c])
      (fun _ => [])).flatMap (Tree.ids d)) ++ Tree.ids d (n.kids.route (upTo Key.rank k)) ++
        (n.kids.after (upTo Key.rank k) (fun c => [c]) (fun _ => [])).flatMap (Tree.ids d) := by
  have hitems : n.kids.items = _ :=
    SepList.spell_eq (upTo Key.rank k) (fun c : PageTree ty d => [c]) (fun _ => []) n.kids
  show n.id :: n.kids.spell (Tree.ids d) (fun _ => []) = _
  rw [SepList.spell_eq_flatMap_items, hitems]
  simp

/-- After the child's step, before the node absorbs it. -/
theorem children_sim {s s₁ : BufferPool} {k : Key ty} {rid : Rid} {d : Nat}
    {n : Node Nat (Key ty) (PageTree ty d)} {oc : Outcome (Key ty) (PageTree ty d)}
    (hr : Repr s (d + 1) n) (hown : ∀ q ∈ Tree.ids (d + 1) n, s.Used q)
    (hnd : (Tree.ids (d + 1) n).Nodup)
    (hsim : InsSim s s₁ k rid d (n.kids.route (upTo Key.rank k)) oc) :
    (∀ c ∈ childrenAfter k n oc, Repr s₁ d c) ∧
      IsNodePage (s₁.pages n.id) n.id (n.kids.map Tree.rootId) ∧
      Grown s s₁ (Tree.ids (d + 1) n) (n.id :: (childrenAfter k n oc).flatMap (Tree.ids d)) := by
  have hids := ids_succ k n
  rw [hids] at hown hnd
  have hctx := hsim.grown.context hown hnd
  have hitems : n.kids.items = _ :=
    SepList.spell_eq (upTo Key.rank k) (fun c : PageTree ty d => [c]) (fun _ => []) n.kids
  -- a page of the node that is not one of the routed child's is untouched
  have hkeep : ∀ q, s.Used q → q ∉ Tree.ids d (n.kids.route (upTo Key.rank k)) →
      s₁.pages q = s.pages q := hsim.grown.frame
  have hleft : ∀ q ∈ n.id :: (n.kids.before (upTo Key.rank k) (fun c => [c])
      (fun _ => [])).flatMap (Tree.ids d), s₁.pages q = s.pages q := by
    intro q hq
    refine hkeep q (hown q (by simp only [List.mem_append]; exact Or.inl (Or.inl hq))) ?_
    rw [List.append_assoc] at hnd
    exact fun hqc => (List.nodup_append.1 hnd).2.2 q hq q (List.mem_append_left _ hqc) rfl
  have hright : ∀ q ∈ (n.kids.after (upTo Key.rank k) (fun c => [c])
      (fun _ => [])).flatMap (Tree.ids d), s₁.pages q = s.pages q := by
    intro q hq
    refine hkeep q (hown q (by simp only [List.mem_append]; exact Or.inr hq)) ?_
    exact fun hqc => (List.nodup_append.1 hnd).2.2 q (List.mem_append_right _ hqc) q hq rfl
  refine ⟨fun c hc => ?_, ?_, ?_⟩
  · simp only [childrenAfter, List.mem_append] at hc
    rcases hc with (hc | hc) | hc
    · refine Repr.congr d c (fun q hq => hleft q ?_) (hr.2 c (by rw [hitems]; simp [hc]))
      exact List.mem_cons_of_mem _ (List.mem_flatMap.2 ⟨c, hc, hq⟩)
    · exact hsim.repr c hc
    · refine Repr.congr d c (fun q hq => hright q ?_) (hr.2 c (by rw [hitems]; simp [hc]))
      exact List.mem_flatMap.2 ⟨c, hc, hq⟩
  · rw [hleft n.id List.mem_cons_self]
    exact hr.1
  · rw [hids]
    have heq : n.id :: (childrenAfter k n oc).flatMap (Tree.ids d) =
        (n.id :: (n.kids.before (upTo Key.rank k) (fun c => [c])
          (fun _ => [])).flatMap (Tree.ids d)) ++ oc.toSep.spell (Tree.ids d) (fun _ => []) ++
            (n.kids.after (upTo Key.rank k) (fun c => [c]) (fun _ => [])).flatMap (Tree.ids d) := by
      simp [childrenAfter, SepList.spell_eq_flatMap_items]
    rw [heq]
    exact hctx

/-- A node whose child fitted keeps its page. -/
theorem keep_sim {s s₁ : BufferPool} {k : Key ty} {rid : Rid} {d : Nat}
    {n : Node Nat (Key ty) (PageTree ty d)} {c : PageTree ty d}
    (hr : Repr s (d + 1) n) (hown : ∀ q ∈ Tree.ids (d + 1) n, s.Used q)
    (hnd : (Tree.ids (d + 1) n).Nodup)
    (hsim : InsSim s s₁ k rid d (n.kids.route (upTo Key.rank k)) (.fit c)) :
    InsSim s s₁ k rid (d + 1) n (.fit ⟨n.id, absorb Key.rank k n.kids (.fit c)⟩) := by
  obtain ⟨hkids, hpage, hgrown⟩ := children_sim hr hown hnd hsim
  have hperm := absorb_items_perm Key.rank k n.kids (.fit c)
  have hroot : c.rootId = (n.kids.route (upTo Key.rank k)).rootId :=
    Ins.rootId_head Key.rank (capacity ty) d _ _ hsim.ins
  refine ⟨⟨.fit c, hsim.ins, .keep c⟩, ?_, ?_⟩
  · intro y hy
    obtain rfl := List.mem_singleton.1 hy
    refine ⟨?_, fun y hy => hkids y (hperm.mem_iff.1 hy)⟩
    show IsNodePage (s₁.pages n.id) n.id ((n.kids.graft _ (.single c)).map Tree.rootId)
    rw [SepList.map_graft_single Tree.rootId n.kids hroot]
    exact hpage
  · refine hgrown.perm ?_
    show List.Perm _ (n.id :: (absorb Key.rank k n.kids (.fit c)).spell (Tree.ids d) (fun _ => []))
    rw [SepList.spell_eq_flatMap_items]
    exact (hperm.symm.flatMap_right _).cons n.id

/-- A node whose child split: the separator is absorbed, with or without a
split of the node. -/
theorem absorb_sim {s s₁ : BufferPool} {k sep : Key ty} {rid : Rid} {d : Nat}
    {n : Node Nat (Key ty) (PageTree ty d)} {l r : PageTree ty d}
    (hr : Repr s (d + 1) n) (hown : ∀ q ∈ Tree.ids (d + 1) n, s.Used q)
    (hnd : (Tree.ids (d + 1) n).Nodup)
    (hsim : InsSim s s₁ k rid d (n.kids.route (upTo Key.rank k)) (.split l sep r))
    (hfit : SplitsFit Key.rank (capacity ty) k rid (d + 1) n) :
    Succeeds (absorbSplit n.id sep.bytes r.rootId ty) s₁ fun out s' =>
      ∃ o, InsSim s s' k rid (d + 1) n o ∧ out = outcomeOf o := by
  obtain ⟨hkids, hpage, hgrown⟩ := children_sim hr hown hnd hsim
  have hperm := absorb_items_perm Key.rank k n.kids (.split l sep r)
  have hroot : l.rootId = (n.kids.route (upTo Key.rank k)).rootId :=
    Ins.rootId_head Key.rank (capacity ty) d _ _ hsim.ins
  have hmap : (absorb Key.rank k n.kids (.split l sep r)).map Tree.rootId =
      (n.kids.map Tree.rootId).insertSep (beyond Key.rank sep) sep r.rootId := by
    rw [absorb, SepList.map_insertSep, SepList.map_graft_single Tree.rootId n.kids hroot]
  have hseps : ((n.kids.map Tree.rootId).insertSep (beyond Key.rank sep) sep r.rootId).seps =
      (absorb Key.rank k n.kids (.split l sep r)).seps := by
    rw [← hmap, SepList.seps_map]
  have hnin : n.id ∉ (childrenAfter k n (.split l sep r)).flatMap (Tree.ids d) :=
    (List.nodup_cons.1 hgrown.nodup).1
  refine Succeeds.imp (absorbSplit_spec hgrown.wf (hgrown.owned _ List.mem_cons_self) hpage ?_) ?_
  · rw [SepList.seps_map]
    exact hfit.2 l sep r hsim.ins
  · -- the children's pages are not touched while the node is rebuilt
    intro out s' hout
    have hstep : ∀ new, Grown s₁ s' [n.id] (n.id :: new) →
        (∀ y ∈ (absorb Key.rank k n.kids (.split l sep r)).items, Repr s' d y) ∧
        Grown s s' (Tree.ids (d + 1) n) ((n.id :: new) ++
          (absorb Key.rank k n.kids (.split l sep r)).items.flatMap (Tree.ids d)) := by
      intro new hg
      have hctx := hg.context (l := []) (r := (childrenAfter k n (.split l sep r)).flatMap
        (Tree.ids d)) hgrown.owned hgrown.nodup
      refine ⟨fun y hy => ?_, (hgrown.trans hctx).perm ?_⟩
      · have hy' := hperm.mem_iff.1 hy
        refine Repr.congr d y (fun q hq => ?_) (hkids y hy')
        have hmem : q ∈ (childrenAfter k n (.split l sep r)).flatMap (Tree.ids d) :=
          List.mem_flatMap.2 ⟨y, hy', hq⟩
        refine hg.frame q (hgrown.owned q (List.mem_cons_of_mem _ hmem)) fun hqn => hnin ?_
        exact (List.mem_singleton.1 hqn) ▸ hmem
      · rw [List.nil_append]
        exact ((hperm.symm.flatMap_right _).append_left _)
    rcases hout with ⟨hroom, rfl, hnode, hg⟩ | ⟨hroom, newId, a, m, b, hab, hlen, hfa, hfb, rfl,
      hleft, hright, hg⟩
    · obtain ⟨hrepr, hgr⟩ := hstep [] hg
      rw [hseps] at hroom
      refine ⟨.fit ⟨n.id, absorb Key.rank k n.kids (.split l sep r)⟩,
        ⟨⟨_, hsim.ins, .fit l r sep hroom⟩, ?_, ?_⟩, rfl⟩
      · intro y hy
        obtain rfl := List.mem_singleton.1 hy
        refine ⟨?_, hrepr⟩
        show IsNodePage (s'.pages n.id) n.id ((absorb _ k n.kids (.split l sep r)).map Tree.rootId)
        rw [hmap]
        exact hnode
      · show Grown s s' _
          (n.id :: (absorb Key.rank k n.kids (.split l sep r)).spell (Tree.ids d) (fun _ => []))
        rw [SepList.spell_eq_flatMap_items]
        exact hgr
    · obtain ⟨hrepr, hgr⟩ := hstep [newId] hg
      rw [hseps] at hroom hlen
      -- cut the list of subtrees where the list of page ids was cut
      obtain ⟨a', m', b', hab', hlen'⟩ := SepList.exists_append_of_lt
        (absorb Key.rank k n.kids (.split l sep r)) a.seps.length
        (by rw [← hseps, hab, SepList.seps_append]; simp)
      have hcut : (a'.map Tree.rootId).append m' (b'.map Tree.rootId) = a.append m b := by
        rw [← SepList.map_append, ← hab', hmap, hab]
      obtain ⟨rfl, rfl, rfl⟩ := SepList.append_inj hcut (by simpa using hlen')
      simp only [SepList.seps_map] at hlen hfa hfb
      refine ⟨.split ⟨n.id, a'⟩ m' ⟨newId, b'⟩,
        ⟨⟨_, hsim.ins, .split l r sep newId a' b' m' hroom hab' hlen hfa hfb⟩, ?_, ?_⟩, rfl⟩
      · simp only [hab', SepList.items_append, List.mem_append] at hrepr
        intro y hy
        rcases List.mem_cons.1 hy with rfl | hy
        · exact ⟨hleft, fun y hy => hrepr y (Or.inl hy)⟩
        · obtain rfl := List.mem_singleton.1 hy
          exact ⟨hright, fun y hy => hrepr y (Or.inr hy)⟩
      · refine hgr.perm ?_
        show List.Perm _ ((n.id :: a'.spell (Tree.ids d) (fun _ => [])) ++ [] ++
          (newId :: b'.spell (Tree.ids d) (fun _ => [])))
        rw [hab', SepList.items_append, List.flatMap_append]
        simp only [SepList.spell_eq_flatMap_items, List.append_nil, List.cons_append,
          List.nil_append]
        exact List.Perm.cons _ List.perm_middle.symm

/-- **Simulation of `insert_recursive`.** -/
theorem insertRecursive_sim (k : Key ty) (rid : Rid) : ∀ (d : Nat) (t : PageTree ty d) (fuel : Nat)
    (s : BufferPool), d < fuel → s.WF → Repr s d t → (∀ q ∈ t.ids d, s.Used q) → (t.ids d).Nodup →
    SplitsFit Key.rank (capacity ty) k rid d t →
    Succeeds (insertRecursive k.bytes rid ty fuel t.rootId) s fun out s' =>
      ∃ o, InsSim s s' k rid d t o ∧ out = outcomeOf o
  | 0, t, fuel, s, hfuel, hwf, hr, hown, hnd, hfit => by
    obtain ⟨f, rfl⟩ := Nat.exists_eq_add_one.2 hfuel
    have hr : IsLeafPage (s.pages (Leaf.id t)) t := hr
    have hu : s.Used (Leaf.id t) := hown _ (rootId_mem_ids 0 t)
    rw [insertRecursive]
    refine Succeeds.bind_ok (fetchPage_used hu) ?_
    rw [Tree.rootId, hr.kind]
    refine Succeeds.imp (insertLeaf_spec hwf hu hr k rid hfit) ?_
    rintro out s' ⟨o, hins, hrepr, hgrown, rfl⟩
    refine ⟨o, ⟨hins, hrepr, ?_⟩, by cases o <;> rfl⟩
    have hids : o.toSep.spell (fun M => [M.id]) (fun _ => []) = o.toSep.items.map Leaf.id := by
      rw [SepList.spell_eq_flatMap_items]
      exact List.flatMap_pure_eq_map Leaf.id _
    exact hids ▸ hgrown
  | d + 1, t, fuel, s, hfuel, hwf, hr, hown, hnd, hfit => by
    obtain ⟨f, rfl⟩ := Nat.exists_eq_add_one.2 (Nat.zero_lt_of_lt hfuel)
    have hu : s.Used (Node.id t) := hown _ (rootId_mem_ids (d + 1) t)
    have hsub : ∀ q ∈ Tree.ids d ((Node.kids t).route (upTo Key.rank k)), q ∈ t.ids (d + 1) := by
      intro q hq
      rw [ids_succ k t]
      simp [hq]
    rw [insertRecursive]
    refine Succeeds.bind_ok (fetchPage_used hu) ?_
    rw [Tree.rootId, hr.1.kind]
    dsimp only
    rw [childFor_repr hr k]
    refine Succeeds.bind_ok (liftE_ok _ _) ?_
    refine Succeeds.bind (insertRecursive_sim k rid d _ f s (by omega) hwf
      (hr.2 _ (SepList.route_mem_items _)) (fun q hq => hown q (hsub q hq)) ?_ hfit.1) ?_
    · rw [ids_succ k t] at hnd
      exact (List.nodup_append.1 (List.nodup_append.1 hnd).1).2.1
    · rintro out s₁ ⟨oc, hsim, rfl⟩
      cases oc with
      | fit c => exact Succeeds.of_ok rfl ⟨_, keep_sim hr hown hnd hsim, rfl⟩
      | split l sep r => exact absorb_sim hr hown hnd hsim hfit

end Ccdb.BTree
