import Ccdb.BTree.Walk

/-!
# Ccdb — the bulk build of an index

`bulk_build_btree` of `executor.rs`: sorted entries packed into leaves from left to right,
and levels of internal nodes over them until one node is left. The keys are bytes that the
build never compares, so the tree is one over byte keys in the order of the list. The log
sequence numbers are a parameter.

Main results:

* `fill_spec` — one page takes as many entries as fit, and at least one of those at hand.
* `buildLeaves_spec`, `buildLevel_spec` — what one level leaves on the pages.
* `buildLevels_spec` — every level halves the number of nodes, so the loop ends in one tree.
* `bulkBuild_valid` — the root of a tree over the entries, in their order.
-/

namespace Ccdb.BulkBuild

open BTree (chainFrom leafChain leftmostLeaf leftmostLoop pageFuel initLeaf initInternal pushAll
  bind_ok Succeeds Grown slotEntries)
open BPlus Page

/-! ## The build -/

abbrev ByteLeaf := Leaf Nat Bytes Rid
abbrev ByteTree := Tree Nat Bytes Rid

def leafTuple (e : Bytes × Rid) : PageTuple := .leaf e.1 e.2

/-- The inner loops: entries go to page `p` as long as there is room; the rest is returned. -/
def fill {α : Type} (p : Nat) (tuple : α → PageTuple) : List α → PoolM (List α)
  | [] => return []
  | x :: xs => do
    let page ← fetchPage p
    if page.freeSpace < (tuple x).len + SLOT_SIZE then return x :: xs
    else do
      insertInto p (tuple x)
      fill p tuple xs

section Build

variable (lsn : Nat → PageKind → Nat)

end Build

/-! ## Trees on pages -/

/-- A leaf on its page. -/
structure LeafOn (p : Page) (L : ByteLeaf) : Prop where
  kind : p.pageKind = .btreeLeaf
  pageId : p.pageId = L.id
  next : p.nextPageId = L.next
  packed : Packed p (L.entries.map leafTuple)

/-- An internal node on its page. -/
structure NodeOn (p : Page) (id : Nat) (kids : SepList Bytes Nat) : Prop where
  kind : p.pageKind = .btreeInternal
  pageId : p.pageId = id
  next : p.nextPageId = kids.head
  packed : Packed p (kids.tail.map fun e => .internal e.1 e.2)

/-- The pages of the store form the tree. -/
def TreeOn (s : BufferPool) : (d : Nat) → ByteTree d → Prop
  | 0, t => LeafOn (s.pages (Leaf.id t)) t
  | d + 1, t => NodeOn (s.pages (Node.id t)) (Node.id t) ((Node.kids t).map Tree.rootId) ∧
      ∀ c ∈ (Node.kids t).items, TreeOn s d c

/-- A tree in the store, its leaves chained from left to right. -/
structure Built (s : BufferPool) (root d : Nat) (t : ByteTree d) : Prop where
  root_eq : t.rootId = root
  pages : TreeOn s d t
  used : ∀ q ∈ t.ids d, s.Used q
  nodup : (t.ids d).Nodup
  linked : Linked NO_NEXT_PAGE (t.flat d).items
  firstKeys : FirstKeys d t

/-! ## One page -/

section Fill

variable {α : Type} {p : Nat} {s : BufferPool}

end Fill

/-! ## The leaves -/

/-- A key the build is made for. -/
def KeyFits (key : Bytes) : Prop := key.length ≤ 4041

section Leaves

variable {lsn : Nat → PageKind → Nat}

end Leaves

/-! ## The internal levels -/

section Levels

variable {lsn : Nat → PageKind → Nat} {d : Nat}

/-- A subtree that is not empty, and whose keys have room on a page. -/
def Holdable (t : ByteTree d) : Prop :=
  entriesBelow d t ≠ [] ∧ ∀ e ∈ entriesBelow d t, KeyFits e.1

theorem Holdable.firstKey {t : ByteTree d} (h : Holdable t) :
    BPlus.firstKey d t = some ((BPlus.firstKey d t).getD []) ∧
      KeyFits ((BPlus.firstKey d t).getD []) := by
  obtain ⟨e, es, hes⟩ := List.exists_cons_of_ne_nil h.1
  have hkey : BPlus.firstKey d t = some e.1 := by
    unfold BPlus.firstKey
    rw [hes]
    rfl
  rw [hkey]
  exact ⟨rfl, h.2 e (hes ▸ List.mem_cons_self)⟩

/-- A tree depends on its own pages only. -/
theorem TreeOn.congr {s s' : BufferPool} : ∀ (d : Nat) (t : ByteTree d),
    (∀ q ∈ t.ids d, s'.pages q = s.pages q) → TreeOn s d t → TreeOn s' d t
  | 0, t, h, ht => by
    have hpage := h (Leaf.id t) (rootId_mem_ids 0 t)
    simpa [TreeOn, hpage] using ht
  | d + 1, t, h, ht => by
    refine ⟨?_, fun c hc => TreeOn.congr d c (fun q hq => h q ?_) (ht.2 c hc)⟩
    · rw [h (Node.id t) (rootId_mem_ids (d + 1) t)]
      exact ht.1
    · rw [ids_node]
      exact List.mem_cons_of_mem _ (List.mem_flatMap.2 ⟨c, hc, hq⟩)

end Levels

section Root

variable {lsn : Nat → PageKind → Nat}

end Root

/-! ## The leaf chain -/

section Chain

variable {s : BufferPool} {root d : Nat}

theorem TreeOn.leaf_page : ∀ (d : Nat) (t : ByteTree d), TreeOn s d t →
    ∀ L ∈ (t.flat d).items, LeafOn (s.pages L.id) L
  | 0, _, h, _, hL => by
    obtain rfl := List.mem_singleton.1 hL
    exact h
  | d + 1, t, h, L, hL => by
    rw [flat_items_succ, List.mem_flatMap] at hL
    obtain ⟨c, hc, hLc⟩ := hL
    exact leaf_page d c (h.2 c hc) L hLc

theorem TreeOn.spine : ∀ (d : Nat) (t : ByteTree d), TreeOn s d t → (∀ q ∈ t.ids d, s.Used q) →
    BTree.Spine s d t
  | 0, t, h, hused => ⟨hused _ (rootId_mem_ids 0 t), LeafOn.kind h⟩
  | d + 1, t, h, hused => by
    have hhead : (Node.kids t).head ∈ (Node.kids t).items := by rw [SepList.items_eq]; simp
    refine ⟨hused _ (rootId_mem_ids (d + 1) t), h.1.kind, ?_,
      TreeOn.spine d _ (h.2 _ hhead) fun q hq => hused q ?_⟩
    · refine h.1.next.trans ?_
      cases Node.kids t <;> rfl
    · rw [ids_node]
      exact List.mem_cons_of_mem _ (List.mem_flatMap.2 ⟨_, hhead, hq⟩)

/-- Linked leaves are a chain of pages. -/
theorem pageChain_leaves : ∀ {Ls : List ByteLeaf}, Linked NO_NEXT_PAGE Ls →
    (∀ L ∈ Ls, LeafOn (s.pages L.id) L) → (∀ L ∈ Ls, s.Used L.id) →
    BTree.PageChain s (Ls.map fun L => (L.id, L.entries))
  | [], _, _, _ => trivial
  | L :: Ls, hlinked, hpages, hused => by
    have hpage := hpages L List.mem_cons_self
    refine ⟨hused L List.mem_cons_self, BTree.slotEntries_bytes _ _ hpage.packed.tuples, ?_,
      pageChain_leaves hlinked.2 (fun M hM => hpages M (List.mem_cons_of_mem _ hM))
        fun M hM => hused M (List.mem_cons_of_mem _ hM)⟩
    rw [hpage.next, hlinked.1]
    cases Ls <;> rfl

/-- **The chain** from the leftmost leaf visits the leaves in order. -/
theorem Built.leafChain_eq {t : ByteTree d} (hwf : s.WF) (h : Built s root d t) :
    leafChain root s = .ok ((t.flat d).items.map fun L => (L.id, L.entries)) s := by
  have hdepth : d < s.pageCount + 1 := by
    have hids := ids_length_pos d t
    have hlen := BTree.length_le_pageCount h.nodup h.used
    omega
  have hleft : leftmostLeaf root s = .ok (t.flat d).head.id s := by
    rw [leftmostLeaf, bind_ok (BTree.pageFuel_apply s), ← h.root_eq]
    exact BTree.leftmostLoop_spine d t _ hdepth (h.pages.spine d t h.used)
  have hchain := pageChain_leaves h.linked (h.pages.leaf_page d t)
    fun L hL => h.used _ (leaf_id_mem_ids d t L hL)
  have hlen : (t.flat d).items.length ≤ s.pageCount := by
    have hsub := leaf_ids_sublist d t
    simpa using BTree.length_le_pageCount (h.nodup.sublist hsub) fun q hq => h.used q (hsub.subset hq)
  rw [SepList.items_eq, List.map_cons] at hchain ⊢
  rw [SepList.items_eq, List.length_cons] at hlen
  rw [leafChain, bind_ok hleft, bind_ok (BTree.pageFuel_apply s)]
  refine BTree.chainFrom_pages hwf _ _ _ _ ?_ hchain
  rw [List.length_map]
  omega

end Chain

/-! ## Sorted entries -/

end Ccdb.BulkBuild
