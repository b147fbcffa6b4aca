import Ccdb.BTree.Repr
import Mathlib.Data.List.Perm.Subperm

/-!
# Ccdb — reading a tree off its pages

Observers over the page store (the leaf chain, the in-order traversal of
the internal nodes, a whole scan by `first_ge` and `read_at`) and what they
and the lookups of `btree.rs` return when the pages form a tree.

Main results:

* `descendToLeaf_eq`, `lookupEq_eq` — descent and exact lookup.
* `leafChain_eq`, `inOrder_eq` — the chain from the leftmost leaf and the
  traversal visit the leaves of `flat` in order.
* `scanFrom_eq` — a scan from a cursor returns the entries from there on.
-/

namespace Ccdb.BTree

open Ccdb BPlus Page

/-! ## Observers -/

/-- All entries of a leaf page, decoded. -/
def slotEntries : List Slot → Except DbError (List (Bytes × Rid))
  | [] => .ok []
  | s :: rest => do
    let raw ← unwrapTuple s
    let e ← asLeafEntry raw
    let out ← slotEntries rest
    .ok (e :: out)

/-- The pages from `pid` on along `next_page_id`, with their entries. -/
def chainFrom : Nat → Nat → PoolM (List (Nat × List (Bytes × Rid)))
  | 0, _ => throw .diverge
  | fuel + 1, pid => do
    let page ← fetchPage pid
    let es ← liftE (slotEntries page.slots)
    if page.nextPageId = NO_NEXT_PAGE then return [(pid, es)]
    else do
      let rest ← chainFrom fuel page.nextPageId
      return (pid, es) :: rest

/-- The leaf chain walked from `leftmost_leaf`. -/
def leafChain (root : Nat) : PoolM (List (Nat × List (Bytes × Rid))) := do
  let first ← leftmostLeaf root
  chainFrom (← pageFuel) first

/-- The children of an internal page: `p0`, then the entries by slot. -/
def childrenOf (page : Page) : Except DbError (List Nat) := do
  let kids ← page.slots.mapM fun s => do
    let raw ← unwrapTuple s
    let e ← asInternalEntry raw
    .ok e.2
  .ok (page.nextPageId :: kids)

/-- In-order traversal: the leaves below `node` with their depths. -/
def inOrderLoop : Nat → Nat → Nat → PoolM (List (Nat × Nat))
  | 0, _, _ => throw .diverge
  | fuel + 1, depth, node => do
    let page ← fetchPage node
    match page.pageKind with
    | .btreeLeaf => return [(node, depth)]
    | .btreeInternal => do
      let kids ← liftE (childrenOf page)
      let parts ← kids.mapM (inOrderLoop fuel (depth + 1))
      return parts.flatten
    | _ => throw (.bail "not a btree page")

def inOrder (root : Nat) : PoolM (List (Nat × Nat)) := do
  inOrderLoop (← pageFuel) 0 root

/-- `read_at` repeated from a cursor, as an index scan does. -/
def scanFrom : Nat → Option Rid → PoolM (List (Bytes × Rid))
  | _, none => return []
  | 0, some _ => throw .diverge
  | fuel + 1, some cursor => do
    match ← readAt cursor with
    | none => return []
    | some (key, rid, next) => do
      let rest ← scanFrom fuel next
      return (key, rid) :: rest

variable {ty : DataType} {s : BufferPool}

/-- Entries as the observers return them. -/
def rawEntries (es : List (Key ty × Rid)) : List (Bytes × Rid) := es.map fun e => (e.1.bytes, e.2)

/-! ## Trees rooted in the store -/

/-- The tree `t` is stored in the pages of `s` below `root`. -/
structure Stored (s : BufferPool) (root : Nat) (d : Nat) (t : PageTree ty d) : Prop where
  wf : s.WF
  root_eq : t.rootId = root
  repr : Repr s d t
  used : ∀ q ∈ t.ids d, s.Used q
  nodup : (t.ids d).Nodup

/-- A stored tree whose leaves are chained left to right. -/
structure OnPages (s : BufferPool) (root : Nat) (d : Nat) (t : PageTree ty d) : Prop
    extends Stored s root d t where
  linked : Linked NO_NEXT_PAGE (t.flat d).items

/-- Different pages in use are no more than the file has. -/
theorem length_le_pageCount {ids : List Nat} (hnd : ids.Nodup)
    (hused : ∀ q ∈ ids, s.Used q) : ids.length ≤ s.pageCount := by
  have hsub : ids ⊆ List.range s.pageCount := fun q hq => List.mem_range.2 (hused q hq).1
  simpa using (List.subperm_of_subset hnd hsub).length_le

/-- The depth of a tree is below the number of pages. -/
theorem Stored.depth_lt {root d : Nat} {t : PageTree ty d}
    (h : Stored s root d t) : d < s.pageCount + 1 := by
  have hlen := length_le_pageCount h.nodup h.used
  have := ids_length_pos d t
  omega

/-! ## Leaves of the tree -/

theorem Repr.leaf_page : ∀ (d : Nat) (t : PageTree ty d), Repr s d t →
    ∀ L ∈ (t.flat d).items, IsLeafPage (s.pages L.id) L
  | 0, _, h, _, hL => by
    obtain rfl := List.mem_singleton.1 hL
    exact h
  | d + 1, t, h, L, hL => by
    rw [flat_items_succ, List.mem_flatMap] at hL
    obtain ⟨c, hc, hLc⟩ := hL
    exact leaf_page d c (h.2 c hc) L hLc

/-- A run of linked leaves on their pages. -/
structure ChainOn (s : BufferPool) (ls : List (LeafNode ty)) : Prop where
  linked : Linked NO_NEXT_PAGE ls
  page : ∀ L ∈ ls, IsLeafPage (s.pages L.id) L
  used : ∀ L ∈ ls, s.Used L.id

theorem OnPages.chainOn {root d : Nat} {t : PageTree ty d}
    (h : OnPages s root d t) : ChainOn s (t.flat d).items :=
  ⟨h.linked, h.repr.leaf_page d t, fun L hL => h.used _ (leaf_id_mem_ids d t L hL)⟩

theorem ChainOn.suffix {a b : List (LeafNode ty)} (h : ChainOn s (a ++ b)) :
    ChainOn s b :=
  ⟨((linked_append a b).1 h.linked).2, fun L hL => h.page L (List.mem_append_right _ hL),
    fun L hL => h.used L (List.mem_append_right _ hL)⟩

/-- A leaf's link is the sentinel exactly at the end of the chain. -/
theorem ChainOn.next_eq (hwf : s.WF) {L : LeafNode ty} {ls : List (LeafNode ty)}
    (h : ChainOn s (L :: ls)) :
    (ls = [] ∧ (s.pages L.id).nextPageId = NO_NEXT_PAGE) ∨
      ∃ M rest, ls = M :: rest ∧ (s.pages L.id).nextPageId = M.id ∧ M.id ≠ NO_NEXT_PAGE := by
  have hnext := (h.page L List.mem_cons_self).next
  have hlink := h.linked.1
  cases ls with
  | nil => exact Or.inl ⟨rfl, by rw [hnext, hlink]; rfl⟩
  | cons M rest =>
    refine Or.inr ⟨M, rest, rfl, by rw [hnext, hlink]; rfl, ?_⟩
    exact (h.used M (by simp)).ne_none hwf

/-! ## Descent and exact lookup -/

theorem descendLoop_eq (k : Key ty) : ∀ (d : Nat) (t : PageTree ty d) (fuel : Nat),
    d < fuel → Repr s d t → (∀ q ∈ t.ids d, s.Used q) →
    descendLoop k.bytes ty fuel t.rootId s = .ok (t.descend Key.rank k d).id s
  | 0, t, fuel, hfuel, hr, hown => by
    obtain ⟨f, rfl⟩ := Nat.exists_eq_add_one.2 hfuel
    have hr : IsLeafPage (s.pages (Leaf.id t)) t := hr
    rw [descendLoop, bind_ok (fetchPage_used (hown _ (rootId_mem_ids 0 t)))]
    rw [Tree.rootId, hr.kind]
    exact congrArg (EStateM.Result.ok · s) hr.pageId
  | d + 1, t, fuel, hfuel, hr, hown => by
    obtain ⟨f, rfl⟩ := Nat.exists_eq_add_one.2 (Nat.zero_lt_of_lt hfuel)
    rw [descendLoop, bind_ok (fetchPage_used (hown _ (rootId_mem_ids (d + 1) t)))]
    rw [Tree.rootId, hr.1.kind]
    dsimp only
    rw [childFor_repr hr k, bind_ok (liftE_ok _ _)]
    refine descendLoop_eq k d _ f (by omega) (hr.2 _ (SepList.route_mem_items _)) fun q hq => ?_
    refine hown q ?_
    rw [ids_succ k t]
    simp [hq]

theorem descendToLeaf_eq {root d : Nat} {t : PageTree ty d} (h : Stored s root d t) (k : Key ty) :
    descendToLeaf root k.bytes ty s = .ok (t.descend Key.rank k d).id s := by
  rw [descendToLeaf, bind_ok (pageFuel_apply s), ← h.root_eq]
  exact descendLoop_eq k d t _ h.depth_lt h.repr h.used

theorem descend_mem_items (k : Key ty) : ∀ (d : Nat) (t : PageTree ty d),
    t.descend Key.rank k d ∈ (t.flat d).items
  | 0, t => List.mem_singleton_self t
  | d + 1, t => by
    rw [flat_items_succ, List.mem_flatMap]
    exact ⟨_, SepList.route_mem_items _, descend_mem_items k d _⟩

/-- **Exact lookup** reads the leaf the descent ends at. -/
theorem lookupEq_eq {root d : Nat} {t : PageTree ty d} (h : Stored s root d t)
    (k : Key ty) : lookupEq root k.bytes ty s =
      .ok ((((t.descend Key.rank k d).entries.takeWhile fun e => upTo Key.rank k e.1).filter
        fun e => decide (e.1.rank = k.rank)).map Prod.snd) s := by
  have hmem := descend_mem_items k d t
  have hpage := h.repr.leaf_page d t _ hmem
  have hused := h.used _ (leaf_id_mem_ids d t _ hmem)
  rw [lookupEq, bind_ok (descendToLeaf_eq h k), bind_ok (fetchPage_used hused)]
  rw [leafLookupEq, lookupEqFrom_eq k _ _ hpage.packed.tuples]
  rfl

/-! ## The leaf chain -/

theorem slotEntries_bytes (es : List (Bytes × Rid)) : ∀ slots,
    Holds slots (es.map fun e => .leaf e.1 e.2) → slotEntries slots = .ok es := by
  induction es with
  | nil =>
    intro slots h
    rw [holds_nil h]
    rfl
  | cons e es ih =>
    intro slots h
    obtain ⟨s, rest, rfl, hs, hrest⟩ := holds_cons h
    simp [slotEntries, unwrapTuple_eq hs, asLeafEntry, ih rest hrest]

theorem slotEntries_eq (es : List (Key ty × Rid)) (slots : List Slot)
    (h : Holds slots (leafTuples es)) : slotEntries slots = .ok (rawEntries es) :=
  slotEntries_bytes _ slots (by simpa [rawEntries, leafTuples, Function.comp_def] using h)

/-- Pages linked in order, with the entries they hold. -/
def PageChain (s : BufferPool) : List (Nat × List (Bytes × Rid)) → Prop
  | [] => True
  | (p, es) :: rest => s.Used p ∧ slotEntries (s.pages p).slots = .ok es ∧
      (s.pages p).nextPageId = (rest.head?.map Prod.fst).getD NO_NEXT_PAGE ∧ PageChain s rest

theorem chainFrom_pages (hwf : s.WF) : ∀ (rest : List (Nat × List (Bytes × Rid)))
    (p : Nat) (es : List (Bytes × Rid)) (fuel : Nat), rest.length < fuel →
    PageChain s ((p, es) :: rest) → chainFrom fuel p s = .ok ((p, es) :: rest) s
  | rest, p, es, 0, hfuel, _ => absurd hfuel (Nat.not_lt_zero _)
  | rest, p, es, fuel + 1, hfuel, ⟨hused, hes, hnext, hrest⟩ => by
    rw [chainFrom, bind_ok (fetchPage_used hused), hes, bind_ok (liftE_ok _ _)]
    cases rest with
    | nil =>
      have hnext : (s.pages p).nextPageId = NO_NEXT_PAGE := hnext
      rw [if_pos hnext]
      rfl
    | cons e rest =>
      have hrec := chainFrom_pages hwf rest e.1 e.2 fuel (Nat.lt_of_succ_lt_succ hfuel) hrest
      have hnext : (s.pages p).nextPageId = e.1 := hnext
      have hne : e.1 ≠ NO_NEXT_PAGE := hrest.1.ne_none hwf
      rw [hnext, if_neg hne, bind_ok hrec]
      rfl

theorem ChainOn.pageChain : ∀ {ls : List (LeafNode ty)}, ChainOn s ls →
    PageChain s (ls.map fun M => (M.id, rawEntries M.entries))
  | [], _ => trivial
  | L :: ls, h => by
    have hpage := h.page L List.mem_cons_self
    refine ⟨h.used L List.mem_cons_self, slotEntries_eq _ _ hpage.packed.tuples, ?_,
      (h.suffix (a := [L])).pageChain⟩
    rw [hpage.next, h.linked.1]
    cases ls <;> rfl

theorem chainFrom_eq (hwf : s.WF) (ls : List (LeafNode ty)) (L : LeafNode ty)
    (fuel : Nat) (hfuel : ls.length < fuel) (h : ChainOn s (L :: ls)) :
    chainFrom fuel L.id s = .ok ((L :: ls).map fun M => (M.id, rawEntries M.entries)) s :=
  chainFrom_pages hwf _ _ _ _ (by rwa [List.length_map]) h.pageChain

/-- The pages `ids` have the kind they had, and internal ones their first child. -/
def SameShape (s s' : BufferPool) (ids : List Nat) : Prop :=
  ∀ q ∈ ids, (s'.pages q).pageKind = (s.pages q).pageKind ∧
    ((s.pages q).pageKind = .btreeInternal → (s'.pages q).nextPageId = (s.pages q).nextPageId)

/-- The first children from a node down. -/
def Spine {K V : Type} (s : BufferPool) : (d : Nat) → Tree Nat K V d → Prop
  | 0, t => s.Used (Leaf.id t) ∧ (s.pages (Leaf.id t)).pageKind = .btreeLeaf
  | d + 1, t => s.Used (Node.id t) ∧ (s.pages (Node.id t)).pageKind = .btreeInternal ∧
      (s.pages (Node.id t)).nextPageId = (Node.kids t).head.rootId ∧ Spine s d (Node.kids t).head

/-- `leftmost_leaf` follows first children only. -/
theorem leftmostLoop_spine {K V : Type} : ∀ (d : Nat) (t : Tree Nat K V d)
    (fuel : Nat), d < fuel → Spine s d t → leftmostLoop fuel t.rootId s = .ok (t.flat d).head.id s
  | 0, t, fuel, hfuel, ⟨hused, hkind⟩ => by
    obtain ⟨f, rfl⟩ := Nat.exists_eq_add_one.2 hfuel
    rw [leftmostLoop, Tree.rootId, bind_ok (fetchPage_used hused), hkind]
    rfl
  | d + 1, t, fuel, hfuel, ⟨hused, hkind, hnext, hspine⟩ => by
    obtain ⟨f, rfl⟩ := Nat.exists_eq_add_one.2 (Nat.zero_lt_of_lt hfuel)
    rw [leftmostLoop, Tree.rootId, bind_ok (fetchPage_used hused), hkind]
    dsimp only
    rw [hnext, head_flat]
    exact leftmostLoop_spine d _ f (by omega) hspine

theorem Repr.spine {s s' : BufferPool} : ∀ (d : Nat) (t : PageTree ty d), Repr s d t →
    (∀ q ∈ t.ids d, s'.Used q) → SameShape s s' (t.ids d) → Spine s' d t
  | 0, t, hr, hown, hsame =>
    ⟨hown _ (rootId_mem_ids 0 t), (hsame _ (rootId_mem_ids 0 t)).1.trans (IsLeafPage.kind hr)⟩
  | d + 1, t, hr, hown, hsame => by
    have hhead : (Node.kids t).head ∈ (Node.kids t).items := by rw [SepList.items_eq]; simp
    have hsub : ∀ q ∈ Tree.ids d (Node.kids t).head, q ∈ t.ids (d + 1) := fun q hq => by
      rw [ids_node]
      exact List.mem_cons_of_mem _ (List.mem_flatMap.2 ⟨_, hhead, hq⟩)
    obtain ⟨hkind, hnext⟩ := hsame _ (rootId_mem_ids (d + 1) t)
    refine ⟨hown _ (rootId_mem_ids (d + 1) t), hkind.trans hr.1.kind, ?_,
      Repr.spine d _ (hr.2 _ hhead) (fun q hq => hown q (hsub q hq)) fun q hq => hsame q (hsub q hq)⟩
    refine (hnext hr.1.kind).trans (hr.1.next.trans ?_)
    cases Node.kids t <;> rfl

theorem leftmostLoop_shape {s s' : BufferPool} (d : Nat) (t : PageTree ty d) (fuel : Nat)
    (hfuel : d < fuel) (hr : Repr s d t) (hown : ∀ q ∈ t.ids d, s'.Used q)
    (hsame : SameShape s s' (t.ids d)) : leftmostLoop fuel t.rootId s' = .ok (t.flat d).head.id s' :=
  leftmostLoop_spine d t fuel hfuel (hr.spine d t hown hsame)

theorem leftmostLoop_eq (d : Nat) (t : PageTree ty d) (fuel : Nat) (hfuel : d < fuel)
    (hr : Repr s d t) (hown : ∀ q ∈ t.ids d, s.Used q) :
    leftmostLoop fuel t.rootId s = .ok (t.flat d).head.id s :=
  leftmostLoop_shape d t fuel hfuel hr hown fun _ _ => ⟨rfl, fun _ => rfl⟩

theorem Stored.leaves_length_le {root d : Nat} {t : PageTree ty d}
    (h : Stored s root d t) : (t.flat d).items.length ≤ s.pageCount := by
  have hsub := leaf_ids_sublist d t
  have hlen := length_le_pageCount (h.nodup.sublist hsub) fun q hq => h.used q (hsub.subset hq)
  simpa using hlen

/-- **The leaf chain** visits the leaves from left to right. -/
theorem leafChain_eq {root d : Nat} {t : PageTree ty d} (h : OnPages s root d t) :
    leafChain root s = .ok ((t.flat d).items.map fun M => (M.id, rawEntries M.entries)) s := by
  have hleft : leftmostLeaf root s = .ok (t.flat d).head.id s := by
    rw [leftmostLeaf, bind_ok (pageFuel_apply s), ← h.root_eq]
    exact leftmostLoop_eq d t _ h.depth_lt h.repr h.used
  have hitems := SepList.items_eq (t.flat d)
  have hlen := h.leaves_length_le
  rw [hitems] at hlen ⊢
  rw [leafChain, bind_ok hleft, bind_ok (pageFuel_apply s)]
  refine chainFrom_eq h.wf _ _ _ ?_ (hitems ▸ h.chainOn)
  rw [List.length_cons] at hlen
  omega

/-! ## In-order traversal -/

theorem childrenOf_eq {page : Page} {id : Nat} {kids : SepList (Key ty) Nat}
    (h : IsNodePage page id kids) : childrenOf page = .ok kids.items := by
  have hmap : ∀ (es : List (Key ty × Nat)) (slots : List Slot), Holds slots (nodeTuples es) →
      (slots.mapM fun s => do
        let raw ← unwrapTuple s
        let e ← asInternalEntry raw
        Except.ok e.2) = Except.ok (ε := DbError) (es.map Prod.snd) := by
    intro es
    induction es with
    | nil =>
      intro slots hs
      rw [holds_nil hs]
      rfl
    | cons e es ih =>
      intro slots hs
      obtain ⟨s, rest, rfl, hs, hrest⟩ := holds_cons hs
      rw [List.mapM_cons, ih rest hrest, unwrapTuple_eq hs]
      rfl
  rw [childrenOf, hmap _ _ h.packed.tuples, except_ok_bind, h.next, SepList.items_eq]

theorem mapM_ok {α β : Type} {f : α → PoolM β} {g : α → β} (l : List α)
    (h : ∀ x ∈ l, f x s = .ok (g x) s) : l.mapM f s = .ok (l.map g) s := by
  induction l with
  | nil => rfl
  | cons x l ih =>
    rw [List.mapM_cons, bind_ok (h x List.mem_cons_self),
      bind_ok (ih fun y hy => h y (List.mem_cons_of_mem _ hy))]
    rfl

theorem inOrderLoop_eq : ∀ (d : Nat) (t : PageTree ty d) (fuel depth : Nat),
    d < fuel → Repr s d t → (∀ q ∈ t.ids d, s.Used q) →
    inOrderLoop fuel depth t.rootId s = .ok ((t.flat d).items.map fun L => (L.id, depth + d)) s
  | 0, t, fuel, depth, hfuel, hr, hown => by
    obtain ⟨f, rfl⟩ := Nat.exists_eq_add_one.2 hfuel
    have hr : IsLeafPage (s.pages (Leaf.id t)) t := hr
    rw [inOrderLoop, bind_ok (fetchPage_used (hown _ (rootId_mem_ids 0 t)))]
    rw [Tree.rootId, hr.kind]
    rfl
  | d + 1, t, fuel, depth, hfuel, hr, hown => by
    obtain ⟨f, rfl⟩ := Nat.exists_eq_add_one.2 (Nat.zero_lt_of_lt hfuel)
    have hparts : ((Node.kids t).items.map Tree.rootId).mapM (inOrderLoop f (depth + 1)) s =
        .ok ((Node.kids t).items.map fun c =>
          (Tree.flat d c).items.map fun L => (L.id, depth + 1 + d)) s := by
      rw [List.mapM_map]
      refine mapM_ok _ fun c hc => ?_
      refine inOrderLoop_eq d c f (depth + 1) (by omega) (hr.2 c hc) fun q hq => hown q ?_
      rw [ids_node]
      exact List.mem_cons_of_mem _ (List.mem_flatMap.2 ⟨c, hc, hq⟩)
    rw [inOrderLoop, bind_ok (fetchPage_used (hown _ (rootId_mem_ids (d + 1) t)))]
    rw [Tree.rootId, hr.1.kind]
    dsimp only
    rw [childrenOf_eq hr.1, bind_ok (liftE_ok _ _), SepList.items_map, bind_ok hparts, pure_apply,
      flat_items_succ, List.map_flatMap, List.flatMap, Nat.add_right_comm]
    rfl

/-- **The traversal** visits the leaves of the tree in order, all at depth `d`. -/
theorem inOrder_eq {root d : Nat} {t : PageTree ty d} (h : Stored s root d t) :
    inOrder root s = .ok ((t.flat d).items.map fun L => (L.id, d)) s := by
  rw [inOrder, bind_ok (pageFuel_apply s), ← h.root_eq,
    inOrderLoop_eq d t _ 0 h.depth_lt h.repr h.used]
  simp

/-! ## Ordered scans -/

/-- The entries from slot `i` of the first leaf on. -/
def entriesFrom (ls : List (LeafNode ty)) (i : Nat) : List (Key ty × Rid) :=
  match ls with
  | [] => []
  | L :: rest => L.entries.drop i ++ rest.flatMap Leaf.entries

/-- The cursor stands before exactly the entries `es` of the chain. -/
def CursorAt (s : BufferPool) (n : Nat) (es : List (Key ty × Rid)) : Option Rid → Prop
  | none => es = []
  | some (p, i) => ∃ L ls, L.id = p ∧ ChainOn s (L :: ls) ∧ ls.length < n ∧
      entriesFrom (L :: ls) i = es

theorem readAtLoop_eq (hwf : s.WF) {n : Nat} : ∀ (ls : List (LeafNode ty))
    (L : LeafNode ty) (fuel i : Nat), ls.length < fuel → ls.length < n → ChainOn s (L :: ls) →
    (entriesFrom (L :: ls) i = [] ∧ readAtLoop fuel L.id i s = .ok none s) ∨
      ∃ e rest next, entriesFrom (L :: ls) i = e :: rest ∧ CursorAt s n rest next ∧
        readAtLoop fuel L.id i s = .ok (some (e.1.bytes, e.2, next)) s
  | ls, L, 0, i, hfuel, _, _ => absurd hfuel (Nat.not_lt_zero _)
  | ls, L, fuel + 1, i, hfuel, hn, h => by
    have hpage := h.page L List.mem_cons_self
    have hlive := firstLive_eq hpage.packed i
    have hcount : (s.pages L.id).tupleCount = L.entries.length := by
      simpa [leafTuples, tupleCount] using hpage.packed.length_eq
    rw [readAtLoop, bind_ok (fetchPage_used (h.used L List.mem_cons_self)), hlive]
    by_cases hi : i < L.entries.length
    · -- the cursor is on an entry of this leaf
      have hget : (leafTuples L.entries)[i]? = some (.leaf L.entries[i].1.bytes L.entries[i].2) := by
        simp [leafTuples, hi]
      have hfrom : entriesFrom (L :: ls) i = L.entries[i] :: entriesFrom (L :: ls) (i + 1) := by
        rw [entriesFrom, entriesFrom, List.drop_eq_getElem_cons hi, List.cons_append]
      refine Or.inr ⟨_, _, if i + 1 < (s.pages L.id).tupleCount then some (L.id, i + 1)
        else if (s.pages L.id).nextPageId = NO_NEXT_PAGE then none
        else some ((s.pages L.id).nextPageId, 0), hfrom, ?_, by rw [hget]; rfl⟩
      by_cases hi1 : i + 1 < L.entries.length
      · rw [if_pos (by rw [hcount]; exact hi1)]
        exact ⟨L, ls, rfl, h, hn, rfl⟩
      · rw [if_neg (by rw [hcount]; exact hi1)]
        have hdone : L.entries.drop (i + 1) = [] := List.drop_eq_nil_of_le (by omega)
        rcases h.next_eq hwf with ⟨rfl, hnext⟩ | ⟨M, rest, rfl, hnext, hne⟩
        · rw [if_pos hnext]
          simp [CursorAt, entriesFrom, hdone]
        · rw [if_neg (by rw [hnext]; exact hne), hnext]
          refine ⟨M, rest, rfl, h.suffix (a := [L]), ?_, by simp [entriesFrom, hdone]⟩
          rw [List.length_cons] at hn
          omega
    · -- this leaf is exhausted
      have hget : (leafTuples L.entries)[i]? = none := by
        simp [leafTuples]
        omega
      have hdone : L.entries.drop i = [] := List.drop_eq_nil_of_le (by omega)
      rw [hget]
      dsimp only [Option.map_none]
      rcases h.next_eq hwf with ⟨rfl, hnext⟩ | ⟨M, rest, rfl, hnext, hne⟩
      · rw [if_pos hnext]
        exact Or.inl ⟨by simp [entriesFrom, hdone], rfl⟩
      · rw [if_neg (by rw [hnext]; exact hne), hnext]
        have heq : entriesFrom (L :: M :: rest) i = entriesFrom (M :: rest) 0 := by
          simp [entriesFrom, hdone]
        rw [heq]
        rw [List.length_cons] at hfuel hn
        exact readAtLoop_eq hwf rest M fuel 0 (by omega) (by omega) (h.suffix (a := [L]))

theorem drop_findIdx?_eq {E : Type} {p : E → Bool} {es : List E} {i : Nat}
    (h : es.findIdx? p = some i) : es.drop i = es.dropWhile fun e => !p e := by
  induction es generalizing i with
  | nil => simp at h
  | cons e es ih =>
    rw [List.findIdx?_cons] at h
    by_cases hp : p e
    · simp only [hp, if_true, Option.some.injEq] at h
      simp [← h, hp]
    · simp only [hp, Bool.false_eq_true, if_false, Option.map_eq_some_iff] at h
      obtain ⟨j, hj, rfl⟩ := h
      simp [hp, ih hj]

theorem dropWhile_eq_nil_of_findIdx? {E : Type} {p : E → Bool} {es : List E}
    (h : es.findIdx? p = none) : (es.dropWhile fun e => !p e) = [] := by
  induction es with
  | nil => rfl
  | cons e es ih =>
    rw [List.findIdx?_cons] at h
    by_cases hp : p e
    · simp [hp] at h
    · simp only [hp, Bool.false_eq_true, if_false, Option.map_eq_none_iff] at h
      simp [hp, ih h]

theorem firstGeLoop_eq (hwf : s.WF) (k : Key ty) {n : Nat} :
    ∀ (ls : List (LeafNode ty)) (L : LeafNode ty) (fuel : Nat), ls.length < fuel → ls.length < n →
    ChainOn s (L :: ls) → ∃ cursor, firstGeLoop k.bytes ty fuel L.id s = .ok cursor s ∧
      CursorAt s n ((entriesFrom (L :: ls) 0).dropWhile fun e => !decide (k.rank ≤ e.1.rank)) cursor
  | ls, L, 0, hfuel, _, _ => absurd hfuel (Nat.not_lt_zero _)
  | ls, L, fuel + 1, hfuel, hn, h => by
    have hpage := h.page L List.mem_cons_self
    rw [firstGeLoop, bind_ok (fetchPage_used (h.used L List.mem_cons_self)),
      firstGeFrom_eq k _ _ 0 hpage.packed.tuples, bind_ok (liftE_ok _ _)]
    cases hidx : L.entries.findIdx? fun e => decide (k.rank ≤ e.1.rank) with
    | some i =>
      have hdrop := drop_findIdx?_eq hidx
      have hlt : i < L.entries.length := (List.findIdx?_eq_some_iff_findIdx_eq.1 hidx).1
      refine ⟨some (L.id, i), by simp, L, ls, rfl, h, hn, ?_⟩
      have hne : (L.entries.dropWhile fun e => !decide (k.rank ≤ e.1.rank)).isEmpty = false := by
        rw [← hdrop, List.isEmpty_eq_false_iff, ne_eq, List.drop_eq_nil_iff]
        omega
      simp only [entriesFrom, List.drop_zero, List.dropWhile_append, hne, Bool.false_eq_true,
        if_false, hdrop]
    | none =>
      have hnil := dropWhile_eq_nil_of_findIdx? hidx
      dsimp only [Option.map_none]
      rcases h.next_eq hwf with ⟨rfl, hnext⟩ | ⟨M, rest, rfl, hnext, hne⟩
      · rw [if_pos hnext]
        exact ⟨none, rfl, by simpa [CursorAt, entriesFrom] using hnil⟩
      · rw [List.length_cons] at hfuel hn
        rw [if_neg (by rw [hnext]; exact hne), hnext]
        have hn' : rest.length < n := by omega
        obtain ⟨cursor, hrun, hcur⟩ := firstGeLoop_eq hwf k rest M fuel (by omega) hn'
          (h.suffix (a := [L]))
        refine ⟨cursor, hrun, ?_⟩
        have heq : entriesFrom (L :: M :: rest) 0 = L.entries ++ entriesFrom (M :: rest) 0 := by
          simp [entriesFrom]
        rw [heq, List.dropWhile_append, hnil]
        exact hcur

/-- **A scan** returns the entries in front of its cursor. -/
theorem scanFrom_eq (hwf : s.WF) : ∀ (es : List (Key ty × Rid)) (fuel : Nat)
    (cursor : Option Rid), es.length < fuel → CursorAt s (s.pageCount + 1) es cursor →
    scanFrom fuel cursor s = .ok (rawEntries es) s
  | es, 0, _, hfuel, _ => absurd hfuel (Nat.not_lt_zero _)
  | es, fuel + 1, none, _, hcur => by
    obtain rfl : es = [] := hcur
    rfl
  | es, fuel + 1, some (p, i), hfuel, hcur => by
    obtain ⟨L, ls, rfl, hchain, hlen, rfl⟩ := hcur
    have hread : readAt (L.id, i) s = readAtLoop (s.pageCount + 1) L.id i s := by
      rw [readAt, bind_ok (pageFuel_apply s)]
    rcases readAtLoop_eq hwf ls L (s.pageCount + 1) i hlen hlen hchain with
      ⟨hnil, hnone⟩ | ⟨e, rest, next, hes, hnext, hsome⟩
    · rw [scanFrom, bind_ok (hread.trans hnone), hnil]
      rfl
    · rw [hes] at hfuel ⊢
      have hrec := scanFrom_eq hwf rest fuel next (by simpa using hfuel) hnext
      rw [scanFrom, bind_ok (hread.trans hsome)]
      dsimp only
      rw [bind_ok hrec]
      rfl

end Ccdb.BTree
