import Ccdb.Lib.BPlusSkips
import Ccdb.BTree.LeafOrder
import Ccdb.Exec.IndexFrame

/-!
# Ccdb — sweeping empty leaves

`sweep_empty_leaves` takes empty leaves out of the leaf chain and leaves them
below their parents, so that the descent still ends at them. Its comment
supposes that a search which lands there bails on the page kind; it does not,
and an `insert` there stores its entry where no walk of the chain passes.

Main results:

* `sweep_scannable` — in every run whose insertions go to leaves of the chain,
  the chain has every stored entry in key order and scans return them.
* `sweep_loses_entry` — 255 insertions that split a leaf, deletions that empty
  the right half, a sweep, and one more insertion: its entry is on no chain.
-/

namespace Ccdb.BTree

open Ccdb BPlus Page

variable {ty : DataType} {s : BufferPool}

/-! ## Runs -/

/-- The leaf a key is routed to is on the chain from `leftmost_leaf`. -/
def OnChain (s : BufferPool) (root : Nat) (key : Bytes) (ty : DataType) : Prop :=
  ∃ leaf chain, descendToLeaf root key ty s = .ok leaf s ∧ leafChain root s = .ok chain s ∧
    leaf ∈ chain.map Prod.fst

/-- Calls that return `Ok`, from an empty leaf, the returned root being used by
the next call; `S` are the pairs inserted and not deleted since, and `ok` is
what every insertion meets. -/
inductive SweepRun (ty : DataType) (ok : BufferPool → Nat → Bytes → Prop) (s₀ : BufferPool)
    (root₀ : Nat) : BufferPool → Nat → Finset (Key ty × Rid) → Prop
  | start : SweepRun ty ok s₀ root₀ s₀ root₀ ∅
  | insert {s s' : BufferPool} {root root' : Nat} {S : Finset (Key ty × Rid)} (k : Key ty)
      (rid : Rid) : SweepRun ty ok s₀ root₀ s root S → Insertable S k rid → ok s root k.bytes →
      insert root k.bytes rid ty s = .ok root' s' →
      SweepRun ty ok s₀ root₀ s' root' (Insert.insert (k, rid) S)
  | delete {s s' : BufferPool} {root : Nat} {S : Finset (Key ty × Rid)} {b : Bool} (k : Key ty)
      (rid : Rid) : SweepRun ty ok s₀ root₀ s root S → delete root k.bytes rid ty s = .ok b s' →
      SweepRun ty ok s₀ root₀ s' root (S.erase (k, rid))
  | sweep {s s' : BufferPool} {root : Nat} {S : Finset (Key ty × Rid)} (stampLsn : Nat) :
      SweepRun ty ok s₀ root₀ s root S → sweepEmptyLeaves stampLsn root s = .ok () s' →
      SweepRun ty ok s₀ root₀ s' root S

/-- What the leaf chain and the scans have to return when `S` is stored. -/
structure Scannable (s : BufferPool) (root : Nat) (S : Finset (Key ty × Rid)) : Prop where
  /-- The leaf chain lists the pairs in strictly increasing key order. -/
  chain : ∃ leaves es, leafChain root s = .ok leaves s ∧ leaves.flatMap Prod.snd = rawEntries es ∧
    (es.Pairwise fun x y => x.1.rank < y.1.rank) ∧ ∀ e, e ∈ es ↔ e ∈ S
  /-- A scan from `first_ge` lists the pairs from the target on. -/
  scan : ∀ k : Key ty, ∃ cursor es, firstGe root k.bytes ty s = .ok cursor s ∧
    (es.Pairwise fun x y => x.1.rank < y.1.rank) ∧
    (∀ e, e ∈ es ↔ e ∈ S ∧ k.rank ≤ e.1.rank) ∧
    ∀ fuel, S.card < fuel → scanFrom fuel cursor s = .ok (rawEntries es) s

/-! ## The invariant -/

/-- A strictly separated tree on pages, some of whose leaves are off the chain. -/
structure Swept (s : BufferPool) (root d : Nat) (t : PageTree ty d) (on : Nat → Bool) : Prop
    extends Stored s root d t where
  ordered : Ordered Key.rank true (t.flat d)
  first_on : ∀ L ∈ (t.flat d).items.head?, on L.id = true
  woven : Woven on NO_NEXT_PAGE (t.flat d).items

/-- The invariant of runs. -/
def SweptIndex (s : BufferPool) (root : Nat) (S : Finset (Key ty × Rid)) : Prop :=
  ∃ d, ∃ t : PageTree ty d, ∃ on, Swept s root d t on ∧
    ((entriesOf (t.flat d)).Pairwise fun x y => x.1.rank < y.1.rank) ∧
    ∀ e, e ∈ entriesOf (t.flat d) ↔ e ∈ S

theorem sweptIndex_emptyLeaf {root : Nat} (h : EmptyLeaf s root) :
    SweptIndex s root (∅ : Finset (Key ty × Rid)) := by
  refine ⟨0, _, fun _ => true, ⟨(onPages_emptyLeaf h).toStored, List.Pairwise.nil, fun _ _ => rfl,
    ⟨⟨fun _ => rfl, fun hoff => ?_⟩, trivial⟩⟩, List.Pairwise.nil, fun e => ?_⟩
  · cases hoff
  · simp [entriesOf, Tree.flat]

/-- The first leaf stays the first. -/
theorem head?_replace {on : Nat → Bool} (on' : Nat → Bool) {a b b' : List (LeafNode ty)}
    {M M' : LeafNode ty} (h : ∀ L ∈ (a ++ M :: b).head?, on L.id = true) (ha : ∀ L ∈ a, on' L.id = on L.id)
    (hM' : on' M'.id = true) : ∀ L ∈ (a ++ M' :: b').head?, on' L.id = true := by
  cases a with
  | nil => simpa using hM'
  | cons L a =>
    have hL := h L (by simp)
    simpa [ha L List.mem_cons_self] using hL

section Reading

variable {s : BufferPool} {root d : Nat} {t : PageTree ty d} {on : Nat → Bool}
  (h : Swept s root d t on)

include h

theorem Swept.items_nodup : ((t.flat d).items.map Leaf.id).Nodup :=
  h.nodup.sublist (leaf_ids_sublist d t)

theorem Swept.chainOn {ls : List (LeafNode ty)} (hsub : ls.Sublist (t.flat d).items)
    (hlinked : BPlus.Linked NO_NEXT_PAGE ls) : ChainOn s ls :=
  ⟨hlinked, fun L hL => h.repr.leaf_page d t L (hsub.subset hL),
    fun L hL => h.used _ (leaf_id_mem_ids d t L (hsub.subset hL))⟩

theorem Swept.leftmostLeaf_eq : leftmostLeaf root s = .ok (t.flat d).head.id s := by
  rw [leftmostLeaf, bind_ok (pageFuel_apply s), ← h.root_eq]
  exact leftmostLoop_eq d t _ h.depth_lt h.repr h.used

/-- The chain from `leftmost_leaf` consists of the leaves that are `on`. -/
theorem Swept.leafChain_eq : leafChain root s =
    .ok (((t.flat d).items.filter fun L => on L.id).map fun M => (M.id, rawEntries M.entries)) s := by
  have hitems := SepList.items_eq (t.flat d)
  have hfirst := h.first_on (t.flat d).head (by rw [hitems]; rfl)
  have hlen : ((t.flat d).items.filter fun L => on L.id).length ≤ s.pageCount :=
    List.filter_sublist.length_le.trans h.leaves_length_le
  have hchain := h.chainOn List.filter_sublist h.woven.chain.1
  rw [hitems, List.filter_cons_of_pos (by simpa using hfirst)] at hchain hlen ⊢
  rw [leafChain, bind_ok h.leftmostLeaf_eq, bind_ok (pageFuel_apply s)]
  refine chainFrom_eq h.wf _ _ _ ?_ hchain
  rw [List.length_cons] at hlen
  omega

theorem Swept.onChain_iff (k : Key ty) :
    OnChain s root k.bytes ty ↔ on (t.descend Key.rank k d).id = true := by
  constructor
  · rintro ⟨leaf, chain, hleaf, hchain, hmem⟩
    rw [descendToLeaf_eq h.toStored k] at hleaf
    rw [h.leafChain_eq] at hchain
    cases hleaf
    cases hchain
    rw [List.map_map, List.mem_map] at hmem
    obtain ⟨M, hM, hid⟩ := hmem
    have hid : M.id = (t.descend Key.rank k d).id := hid
    rw [← hid]
    exact (List.mem_filter.1 hM).2
  · intro hon
    refine ⟨_, _, descendToLeaf_eq h.toStored k, h.leafChain_eq, ?_⟩
    rw [List.map_map]
    exact List.mem_map.2 ⟨_, List.mem_filter.2 ⟨descend_mem_items k d t, hon⟩, rfl⟩

theorem Swept.firstGe_scan (k : Key ty) : ∃ cursor, firstGe root k.bytes ty s = .ok cursor s ∧
    ∀ fuel, (entriesOf (t.flat d)).length < fuel → scanFrom fuel cursor s =
      .ok (rawEntries ((entriesOf (t.flat d)).filter fun e => decide (k.rank ≤ e.1.rank))) s := by
  have hitems := items_eq_route (t.flat d) k
  have hwoven := h.woven
  have hlen := h.leaves_length_le
  rw [hitems] at hwoven hlen
  obtain ⟨ls, hsub, hlinked, hes⟩ := hwoven.suffix.path
  have hsub' : ((t.flat d).route (upTo Key.rank k) :: ls).Sublist (t.flat d).items := by
    rw [hitems]
    exact (hsub.cons_cons _).trans (List.sublist_append_right _ _)
  have hshort := hsub.length_le
  simp only [List.length_append, List.length_cons] at hlen
  refine firstGe_scan_of_chain h.toStored h.ordered k (h.chainOn hsub' hlinked) (by omega) ?_
  rw [hes, SepList.after_flatMap]

end Reading

/-- What the invariant gives the callers. -/
theorem SweptIndex.scannable {root : Nat} {S : Finset (Key ty × Rid)}
    (h : SweptIndex s root S) : Scannable s root S := by
  obtain ⟨d, t, on, hsw, hlt, hmem⟩ := h
  have hcard := length_eq_card hlt hmem
  refine ⟨⟨_, entriesOf (t.flat d), hsw.leafChain_eq, ?_, hlt, hmem⟩, fun k => ?_⟩
  · rw [entriesOf, SepList.spell_eq_flatMap_items, ← hsw.woven.chain.2.2, rawEntries,
      List.map_flatMap, List.flatMap_map]
    rfl
  · obtain ⟨cursor, hfirst, hscan⟩ := hsw.firstGe_scan k
    refine ⟨cursor, (entriesOf (t.flat d)).filter fun e => decide (k.rank ≤ e.1.rank), hfirst,
      hlt.sublist List.filter_sublist, fun e => ?_, fun fuel hfuel => ?_⟩
    · rw [List.mem_filter, hmem, decide_eq_true_eq]
    · exact hscan fuel (by rw [hcard]; exact hfuel)

/-! ## Insertion and deletion -/

theorem removeFrom_empty {L : LeafNode ty} (k : Key ty) (rid : Rid) (h : L.entries = []) :
    removeFrom k rid L = L := by
  obtain ⟨id, next, es⟩ := L
  obtain rfl : es = [] := h
  rfl

/-- The leaf level after a change at the leaf a key is routed to. -/
theorem items_graft (s g : SepList (Key ty) (LeafNode ty)) (k : Key ty) :
    (s.graft (upTo Key.rank k) g).items =
      s.before (upTo Key.rank k) (fun L => [L]) (fun _ => []) ++
        (g.items ++ s.after (upTo Key.rank k) (fun L => [L]) (fun _ => [])) := by
  rw [SepList.items, SepList.spell_graft, List.append_assoc]
  rfl

section FixedWidth

variable {w : Nat} (hw : fixedWidth ty = some w) {s : BufferPool} {root : Nat}
  {S : Finset (Key ty × Rid)}

include hw

/-- The step lemma of deletion. -/
theorem SweptIndex.delete (h : SweptIndex s root S) (k : Key ty) (rid : Rid) :
    ∃ b s', BTree.delete root k.bytes rid ty s = .ok b s' ∧ SweptIndex s' root (S.erase (k, rid)) := by
  obtain ⟨d, t, on, hsw, hlt, hmem⟩ := h
  obtain ⟨b, s', hrun, -, hst, -⟩ := delete_sim hsw.toStored k rid
  have hflat := Tree.flat_update (k := k) (f := removeFrom k rid) d t hsw.ordered
  rw [Tree.descend_eq_route d t hsw.ordered] at hflat
  have hfirst := hsw.first_on
  have hwoven := hsw.woven
  rw [items_eq_route (t.flat d) k] at hfirst hwoven
  have hrest := hwoven.suffix
  -- a leaf off the chain has nothing to remove
  have hcases : on ((t.flat d).route (upTo Key.rank k)).id = true ∨
      removeFrom k rid ((t.flat d).route (upTo Key.rank k)) = (t.flat d).route (upTo Key.rank k) := by
    cases hon : on ((t.flat d).route (upTo Key.rank k)).id with
    | true => exact Or.inl rfl
    | false => exact Or.inr (removeFrom_empty k rid (hrest.1.skipped hon).1)
  refine ⟨b, s', hrun, d, _, on, ⟨hst, ?_, ?_, ?_⟩, ?_⟩
  · rw [hflat]
    exact ordered_graft_sublist hsw.ordered (dropPair_sublist k rid _)
  · rw [hflat, items_graft]
    rcases hcases with hon | hkeep
    · exact head?_replace on hfirst (fun _ _ => rfl) hon
    · rw [hkeep]
      exact hfirst
  · rw [hflat, items_graft]
    rcases hcases with hon | hkeep
    · refine hwoven.replace (fun _ _ => rfl) hon hon rfl ⟨⟨hrest.1.chained, fun hoff => ?_⟩, hrest.2⟩
      exact absurd (hon.symm.trans hoff) (by decide)
    · rw [hkeep]
      exact hwoven
  · rw [hflat]
    exact entries_delete hw hsw.ordered hlt hmem k rid

/-- The step lemma of insertion into a leaf of the chain. -/
theorem SweptIndex.insert (h : SweptIndex s root S) {k : Key ty} {rid : Rid}
    (hk : Insertable S k rid) (hchain : OnChain s root k.bytes ty) :
    Succeeds (BTree.insert root k.bytes rid ty) s fun root' s' =>
      SweptIndex s' root' (Insert.insert (k, rid) S) := by
  obtain ⟨d, t, on, hsw, hlt, hmem⟩ := h
  have hon := (hsw.onChain_iff k).1 hchain
  rw [Tree.descend_eq_route d t hsw.ordered] at hon
  refine Succeeds.imp (insert_graft hsw.toStored hsw.ordered k rid
    (splitsFit_of_fixedWidth hw k rid d t hsw.repr)
    (cleanCut_route hw hsw.ordered hlt hmem hk)) ?_
  rintro root' s' ⟨d', t', g, hst, hord, hg, hflat⟩
  have hes := entries_insert hw hsw.ordered hlt hmem hk hg (hflat ▸ hord)
  have hfirst := hsw.first_on
  have hwoven := hsw.woven
  rw [items_eq_route (t.flat d) k] at hfirst hwoven
  have hrest := hwoven.suffix
  have hnd := hst.nodup.sublist (leaf_ids_sublist d' t')
  rw [hflat, items_graft] at hnd
  rw [← hflat] at hes
  -- where the leaf and what is put in its place have one id
  have hfit : ∀ L' : LeafNode ty, L'.id = ((t.flat d).route (upTo Key.rank k)).id →
      L'.next = ((t.flat d).route (upTo Key.rank k)).next → g = .fit L' →
      SweptIndex s' root' (Insert.insert (k, rid) S) := by
    rintro L' hid hnext rfl
    have hon' : on L'.id = true := hid ▸ hon
    refine ⟨d', t', on, ⟨hst, hord, ?_, ?_⟩, hes⟩
    · rw [hflat, items_graft]
      exact head?_replace on hfirst (fun _ _ => rfl) hon'
    · rw [hflat, items_graft]
      refine hwoven.replace (fun _ _ => rfl) hon hon' hid
        ⟨⟨fun _ => hnext.trans (hrest.1.chained hon), fun hoff => ?_⟩, hrest.2⟩
      exact absurd (hon'.symm.trans hoff) (by decide)
  cases hg with
  | present _ => exact hfit _ rfl rfl rfl
  | fit _ _ => exact hfit _ (by rfl) (by rfl) rfl
  | split newId a b e _ _ _ _ _ _ =>
    have hnew : ∀ L ∈ (t.flat d).before (upTo Key.rank k) (fun L => [L]) (fun _ => []) ++
        (t.flat d).route (upTo Key.rank k) ::
          (t.flat d).after (upTo Key.rank k) (fun L => [L]) (fun _ => []), L.id ≠ newId := by
      rintro L hL rfl
      simp only [Outcome.toSep, SepList.items_cons, SepList.items_single, List.cons_append,
        List.nil_append, List.map_append, List.map_cons] at hnd
      obtain ⟨-, hback, hcross⟩ := List.nodup_append.1 hnd
      obtain ⟨hroute, hback⟩ := List.nodup_cons.1 hback
      simp only [List.mem_append, List.mem_cons] at hL
      rcases hL with hL | rfl | hL
      · exact hcross L.id (List.mem_map_of_mem hL) L.id (by simp) rfl
      · exact hroute List.mem_cons_self
      · exact (List.nodup_cons.1 hback).1 (List.mem_map_of_mem hL)
    refine ⟨d', t', fun p => decide (p = newId) || on p, ⟨hst, hord, ?_, ?_⟩, hes⟩
    · rw [hflat, items_graft]
      refine head?_replace (fun p => decide (p = newId) || on p) hfirst (fun L hL => ?_) ?_
      · simp [hnew L (List.mem_append_left _ hL)]
      · simp [hon]
    · rw [hflat, items_graft]
      exact hwoven.split hnew hon

end FixedWidth

/-! ## The sweep -/

/-- The leaf `p` with another link. -/
def relink (p q : Nat) (L : LeafNode ty) : LeafNode ty := if L.id = p then { L with next := q } else L

theorem relink_id (p q : Nat) (L : LeafNode ty) : (relink p q L).id = L.id := by
  unfold relink
  split <;> rfl

theorem relink_entries (p q : Nat) (L : LeafNode ty) : (relink p q L).entries = L.entries := by
  unfold relink
  split <;> rfl

/-- One leaf of the level gets another link. -/
theorem map_relink {a b : List (LeafNode ty)} {P : LeafNode ty} (q : Nat)
    (hnd : ((a ++ P :: b).map Leaf.id).Nodup) :
    (a ++ P :: b).map (relink P.id q) = a ++ { P with next := q } :: b := by
  simp only [List.map_append, List.map_cons] at hnd ⊢
  obtain ⟨-, hback, hcross⟩ := List.nodup_append.1 hnd
  have hkeep : ∀ ls : List (LeafNode ty), (∀ L ∈ ls, L.id ≠ P.id) → ls.map (relink P.id q) = ls :=
    fun ls hls => (List.map_congr_left fun L hL => if_neg (hls L hL)).trans (List.map_id ls)
  have hP : relink P.id q P = { P with next := q } := if_pos rfl
  rw [hP, hkeep a fun L hL => hcross L.id (List.mem_map_of_mem hL) P.id List.mem_cons_self,
    hkeep b fun L hL heq => (List.nodup_cons.1 hback).1 (heq ▸ List.mem_map_of_mem hL)]

/-- Rewriting the pages of leaves only. -/
theorem Repr.mapLeaves {s s' : BufferPool} {f : LeafNode ty → LeafNode ty}
    (hf : ∀ L, (f L).id = L.id) : ∀ (d : Nat) (t : PageTree ty d), Repr s d t →
    (∀ L ∈ (t.flat d).items, IsLeafPage (s'.pages L.id) (f L)) →
    (∀ q, (s.pages q).pageKind = .btreeInternal → s'.pages q = s.pages q) →
    Repr s' d (t.mapLeaves f d)
  | 0, t, _, hleaf, _ => by
    have hid : (f t).id = Leaf.id t := hf t
    show IsLeafPage (s'.pages (f t).id) (f t)
    exact hid ▸ hleaf t (List.mem_singleton_self _)
  | d + 1, t, hr, hleaf, hnode => by
    refine ⟨?_, fun c hc => ?_⟩
    · show IsNodePage (s'.pages (Node.id t)) (Node.id t)
        (((Node.kids t).map (Tree.mapLeaves f d)).map Tree.rootId)
      rw [hnode _ hr.1.kind, SepList.map_map, funext (Tree.rootId_mapLeaves hf d)]
      exact hr.1
    · have hc : c ∈ ((Node.kids t).map (Tree.mapLeaves f d)).items := hc
      rw [SepList.items_map, List.mem_map] at hc
      obtain ⟨c, hmem, rfl⟩ := hc
      refine Repr.mapLeaves hf d c (hr.2 c hmem) (fun L hL => hleaf L ?_) hnode
      rw [flat_items_succ, List.mem_flatMap]
      exact ⟨c, hmem, hL⟩

theorem isEmpty_iff {page : Page} {L : LeafNode ty} (h : IsLeafPage page L) :
    page.isEmpty = true ↔ L.entries = [] := by
  have htuples := h.packed.tuples
  rw [Page.isEmpty, List.all_eq_true]
  constructor
  · intro hall
    by_contra hne
    obtain ⟨e, es, hes⟩ := List.exists_cons_of_ne_nil hne
    rw [hes] at htuples
    have hholds : Holds page.slots (.leaf e.1.bytes e.2 :: leafTuples es) := htuples
    obtain ⟨slot, rest, hslots, hslot, -⟩ := holds_cons hholds
    have hnone := hall slot (by rw [hslots]; exact List.mem_cons_self)
    rw [hslot] at hnone
    cases hnone
  · intro hes
    rw [hes] at htuples
    rw [holds_nil htuples]
    simp

/-- A leaf page that gets another link and another LSN. -/
theorem isLeafPage_stamp {page : Page} {L : LeafNode ty} (h : IsLeafPage page L) (q lsn : Nat) :
    IsLeafPage (stampPage (page.setNextPageId q) lsn) { L with next := q } := by
  obtain ⟨htuples, hoffset, hroom⟩ := h.packed
  unfold stampPage
  split
  · exact ⟨h.kind, h.pageId, rfl, htuples, hoffset, hroom⟩
  · exact ⟨h.kind, h.pageId, rfl, htuples, hoffset, hroom⟩

/-- A leaf gets another link. -/
theorem Stored.relink {root d : Nat} {t : PageTree ty d} (h : Stored s root d t)
    {P : LeafNode ty} (hP : P ∈ (t.flat d).items) (q lsn : Nat) :
    Stored (s.set P.id (stampPage ((s.pages P.id).setNextPageId q) lsn)) root d
      (t.mapLeaves (relink P.id q) d) := by
  have hid : ∀ L : LeafNode ty, (BTree.relink P.id q L).id = L.id := relink_id P.id q
  have hleaf := h.repr.leaf_page d t
  have hnd := h.nodup.sublist (leaf_ids_sublist d t)
  refine ⟨h.wf.set _ _, (Tree.rootId_mapLeaves hid d t).trans h.root_eq, ?_, ?_, ?_⟩
  · refine h.repr.mapLeaves hid d t (fun L hL => ?_) fun p hp => ?_
    · by_cases hLP : L.id = P.id
      · obtain rfl : L = P := List.inj_on_of_nodup_map hnd hL hP hLP
        rw [BufferPool.set_pages_self, BTree.relink, if_pos rfl]
        exact isLeafPage_stamp (hleaf L hL) q lsn
      · rw [BufferPool.set_pages_ne _ _ hLP, BTree.relink, if_neg hLP]
        exact hleaf L hL
    · refine BufferPool.set_pages_ne _ _ ?_
      rintro rfl
      rw [(hleaf P hP).kind] at hp
      cases hp
  · rw [Tree.ids_mapLeaves hid]
    exact h.used
  · rw [Tree.ids_mapLeaves hid]
    exact h.nodup

/-- **One leaf is taken out** of the chain. -/
theorem Swept.unlink {root d : Nat} {t : PageTree ty d} {on : Nat → Bool}
    (h : Swept s root d t on) (lsn : Nat) {a mid b : List (LeafNode ty)} {P C : LeafNode ty}
    (hitems : (t.flat d).items = a ++ P :: (mid ++ C :: b)) (hP : on P.id = true)
    (hC : on C.id = true) (hes : C.entries = []) (hmid : ∀ L ∈ mid, on L.id = false) :
    Swept (s.set P.id (stampPage ((s.pages P.id).setNextPageId C.next) lsn)) root d
      (t.mapLeaves (relink P.id C.next) d) (offChain on C.id) ∧
    ((t.mapLeaves (relink P.id C.next) d).flat d).items =
      a ++ { P with next := C.next } :: (mid ++ C :: b) := by
  have hnd := h.items_nodup
  have hfirst := h.first_on
  have hwoven := h.woven
  rw [hitems] at hnd hfirst hwoven
  have hflat := Tree.flat_mapLeaves (relink P.id C.next) d t
  have hnew : ((t.mapLeaves (relink P.id C.next) d).flat d).items =
      a ++ { P with next := C.next } :: (mid ++ C :: b) := by
    rw [hflat, SepList.items_map, hitems, map_relink C.next hnd]
  refine ⟨⟨h.toStored.relink (by rw [hitems]; simp) C.next lsn, ?_, ?_, ?_⟩, hnew⟩
  · rw [hflat, Ordered, ranks_map (relink_entries P.id C.next)]
    exact h.ordered
  · rw [hnew]
    obtain ⟨ha, hPC, -⟩ := ids_ne hnd
    exact head?_replace _ hfirst (fun L hL => offChain_of_ne (ha L hL)) ((offChain_of_ne hPC).trans hP)
  · rw [hnew]
    exact hwoven.unlink hnd hP hC hes hmid

/-- The loop of the sweep from the leaf `P` of the chain on. -/
theorem sweepLoop_swept {root d : Nat} (lsn : Nat) : ∀ (fuel : Nat) {s : BufferPool}
    {t : PageTree ty d} {on : Nat → Bool} {a b : List (LeafNode ty)} {P : LeafNode ty},
    Swept s root d t on → (t.flat d).items = a ++ P :: b → on P.id = true →
    (b.filter fun L => on L.id).length < fuel →
    ∃ s' t' on', sweepLoop lsn fuel P.id (firstOn on NO_NEXT_PAGE b) s = .ok () s' ∧
      Swept s' root d t' on' ∧ entriesOf (Tree.flat d t') = entriesOf (t.flat d)
  | 0, _, _, _, _, _, _, _, _, _, hfuel => absurd hfuel (Nat.not_lt_zero _)
  | fuel + 1, s, t, on, a, b, P, h, hitems, hP, hfuel => by
    rcases firstOn_cases on NO_NEXT_PAGE b with ⟨-, hend⟩ | ⟨mid, C, b, rfl, hmid, hC, hfirst⟩
    · refine ⟨s, t, on, ?_, h, rfl⟩
      rw [sweepLoop, hend, if_pos rfl]
      rfl
    · have hCmem : C ∈ (t.flat d).items := by rw [hitems]; simp
      have hPmem : P ∈ (t.flat d).items := by rw [hitems]; simp
      have hCused := h.used _ (leaf_id_mem_ids d t C hCmem)
      have hPused := h.used _ (leaf_id_mem_ids d t P hPmem)
      have hCpage := h.repr.leaf_page d t C hCmem
      have hwoven := h.woven
      rw [hitems, ← List.cons_append, ← List.append_assoc] at hwoven
      have hCnext : C.next = firstOn on NO_NEXT_PAGE b := hwoven.suffix.1.chained hC
      have hoff : mid.filter (fun L => on L.id) = [] := by
        rw [List.filter_eq_nil_iff]
        exact fun L hL => by simp [hmid L hL]
      rw [List.filter_append, hoff, List.nil_append, List.filter_cons_of_pos (by simpa using hC),
        List.length_cons] at hfuel
      rw [sweepLoop, hfirst, if_neg (hCused.ne_none h.wf), bind_ok (fetchPage_used hCused)]
      by_cases hes : C.entries = []
      · -- the leaf is empty and leaves the chain
        obtain ⟨h', hitems'⟩ := h.unlink lsn hitems hP hC hes hmid
        obtain ⟨-, -, hb⟩ := ids_ne (hitems ▸ h.items_nodup)
        have hon : ∀ L ∈ b, offChain on C.id L.id = on L.id := fun L hL => offChain_of_ne (hb L hL)
        have hskip : ∀ L ∈ mid ++ [C], offChain on C.id L.id = false := by
          intro L hL
          rcases List.mem_append.1 hL with hL | hL
          · simp [offChain, hmid L hL]
          · rw [List.mem_singleton.1 hL, offChain_self]
        have hnext : firstOn (offChain on C.id) NO_NEXT_PAGE (mid ++ C :: b) = C.next := by
          rw [List.append_cons mid C b, firstOn_append_off hskip, firstOn_congr hon, hCnext]
        have hlen : ((mid ++ C :: b).filter fun L => offChain on C.id L.id).length < fuel := by
          have hnone : (mid ++ [C]).filter (fun L => offChain on C.id L.id) = [] := by
            rw [List.filter_eq_nil_iff]
            exact fun L hL => by simp [hskip L hL]
          rw [List.append_cons mid C b, List.filter_append, hnone, List.nil_append,
            List.filter_congr hon]
          exact Nat.lt_of_succ_lt_succ hfuel
        obtain ⟨hPa, hPC, -⟩ := ids_ne (hitems ▸ h.items_nodup)
        obtain ⟨s', t', on', hrun, hsw, hent⟩ := sweepLoop_swept lsn fuel h' hitems'
          ((offChain_of_ne hPC).trans hP) hlen
        refine ⟨s', t', on', ?_, hsw, ?_⟩
        · rw [if_pos ((isEmpty_iff hCpage).2 hes), bind_ok (fetchPage_used hPused),
            bind_ok (writePage_apply _ _ _), hCpage.next]
          rw [hnext] at hrun
          exact hrun
        · rw [hent, Tree.flat_mapLeaves, entriesOf_map (relink_entries P.id C.next)]
      · have hitems' : (t.flat d).items = (a ++ P :: mid) ++ C :: b := by
          rw [hitems, List.append_assoc, List.cons_append]
        obtain ⟨s', t', on', hrun, hsw, hent⟩ := sweepLoop_swept lsn fuel h hitems' hC (by omega)
        refine ⟨s', t', on', ?_, hsw, hent⟩
        rw [if_neg fun hempty => hes ((isEmpty_iff hCpage).1 hempty), hCpage.next, hCnext]
        exact hrun

/-- The step lemma of the sweep, which always returns `Ok`. -/
theorem SweptIndex.sweep {root : Nat} {S : Finset (Key ty × Rid)}
    (h : SweptIndex s root S) (lsn : Nat) :
    ∃ s', sweepEmptyLeaves lsn root s = .ok () s' ∧ SweptIndex s' root S := by
  obtain ⟨d, t, on, hsw, hlt, hmem⟩ := h
  have hitems := SepList.items_eq (t.flat d)
  have hhead : (t.flat d).head ∈ (t.flat d).items := by rw [hitems]; simp
  have hfirst := hsw.first_on (t.flat d).head (by rw [hitems]; rfl)
  have hwoven := hsw.woven
  have hlen := hsw.leaves_length_le
  rw [hitems] at hwoven hlen
  have hshort : (((t.flat d).tail.map Prod.snd).filter fun L => on L.id).length < s.pageCount + 1 := by
    have hle := List.length_filter_le (fun L : LeafNode ty => on L.id) ((t.flat d).tail.map Prod.snd)
    rw [List.length_cons] at hlen
    exact lt_of_le_of_lt hle (by omega)
  obtain ⟨s', t', on', hrun, hsw', hent⟩ := sweepLoop_swept lsn _ hsw
    (a := []) hitems hfirst hshort
  refine ⟨s', ?_, d, t', on', hsw', ?_, ?_⟩
  · rw [sweepEmptyLeaves, bind_ok hsw.leftmostLeaf_eq,
      bind_ok (fetchPage_used (hsw.used _ (leaf_id_mem_ids d t _ hhead))),
      bind_ok (pageFuel_apply s), (hsw.repr.leaf_page d t _ hhead).next,
      hwoven.1.chained hfirst]
    exact hrun
  · rw [hent]
    exact hlt
  · rw [hent]
    exact hmem

/-! ## Runs whose insertions go to leaves of the chain -/

section Run

variable {w : Nat} (hw : fixedWidth ty = some w) {s₀ s : BufferPool} {root₀ root : Nat}
  {S : Finset (Key ty × Rid)}

include hw

theorem sweepRun_sweptIndex (h₀ : EmptyLeaf s₀ root₀)
    (hrun : SweepRun ty (fun s root key => OnChain s root key ty) s₀ root₀ s root S) :
    SweptIndex s root S := by
  induction hrun with
  | start => exact sweptIndex_emptyLeaf h₀
  | insert k rid _ hk hok hcall ih =>
    have hstep := ih.insert hw hk hok
    unfold Succeeds at hstep
    rw [hcall] at hstep
    exact hstep
  | delete k rid _ hcall ih =>
    obtain ⟨b, s', hdel, hstep⟩ := ih.delete hw k rid
    rw [hcall] at hdel
    cases hdel
    exact hstep
  | sweep lsn _ hcall ih =>
    obtain ⟨s', hsweep, hstep⟩ := ih.sweep lsn
    rw [hcall] at hsweep
    cases hsweep
    exact hstep

/-- **Sweeping keeps the index scannable** as long as no insertion goes to a
leaf off the chain. -/
theorem sweep_scannable (h₀ : EmptyLeaf s₀ root₀)
    (hrun : SweepRun ty (fun s root key => OnChain s root key ty) s₀ root₀ s root S) :
    Scannable s root S :=
  (sweepRun_sweptIndex hw h₀ hrun).scannable

end Run

section TwoLeaves

variable {w : Nat} (hw : fixedWidth ty = some w) {s₀ : BufferPool} {root₀ : Nat}
  {ok : BufferPool → Nat → Bytes → Prop}

/-- Insertions of distinct keys that all meet `ok` are a run. -/
theorem told_sweep {es : List (Key ty × Rid)} (hlt : es.Pairwise fun x y => x.1.rank < y.1.rank)
    (hok : ∀ front e, front ++ [e] <+: es → ∀ s,
      Stored s root₀ 0 (⟨root₀, NO_NEXT_PAGE, front⟩ : LeafNode ty) → ok s root₀ e.1.bytes) :
    Told s₀ root₀ (fun s root es => SweepRun ty ok s₀ root₀ s root es.toFinset) es where
  start := .start
  insert front e hpre s s' root' hst hrun hcall := by
    have hset : (front ++ [e]).toFinset = Insert.insert (e.1, e.2) front.toFinset := by
      ext x
      simp
    have hins : Insertable front.toFinset e.1 e.2 :=
      insertable_of_sorted hlt (hpre.subset (by simp)) fun x hx =>
        hpre.subset (List.mem_append_left _ (List.mem_toFinset.1 hx))
    rw [hset]
    exact .insert e.1 e.2 hrun hins (hok front e hpre s hst) hcall

/-- Deleting the entries of the right leaf one by one empties it. -/
theorem drain_right {root newId : Nat} {l : LeafNode ty} {m : Key ty} :
    ∀ (es : List (Key ty × Rid)) {s : BufferPool} {S : Finset (Key ty × Rid)},
    SweepRun ty ok s₀ root₀ s root S →
    Stored s root 1 (twoLeaves root l m ⟨newId, NO_NEXT_PAGE, es⟩) →
    (∀ e ∈ es, m.rank ≤ e.1.rank) → ∃ s', SweepRun ty ok s₀ root₀ s' root (S \ es.toFinset) ∧
      Stored s' root 1 (twoLeaves root l m ⟨newId, NO_NEXT_PAGE, []⟩) ∧
      s'.room = s.room ∧ s'.pageCount = s.pageCount
  | [], s, S, hrun, hst, _ => ⟨s, by simpa using hrun, hst, rfl, rfl⟩
  | e :: es, s, S, hrun, hst, hge => by
    obtain ⟨b, s₁, hcall, -, hst₁, hr₁, hc₁⟩ := delete_sim hst e.1 e.2
    have hkeep : removeFrom e.1 e.2 (⟨newId, NO_NEXT_PAGE, e :: es⟩ : LeafNode ty) =
        ⟨newId, NO_NEXT_PAGE, es⟩ := by
      simp [removeFrom, dropPair]
    have htree : (twoLeaves root l m ⟨newId, NO_NEXT_PAGE, e :: es⟩).update Key.rank e.1
        (removeFrom e.1 e.2) 1 = twoLeaves root l m ⟨newId, NO_NEXT_PAGE, es⟩ := by
      have hle := hge e List.mem_cons_self
      rw [← hkeep]
      simp only [twoLeaves, Tree.update, SepList.graft, SepList.route, upTo, hle, decide_true,
        if_true]
      rfl
    rw [htree] at hst₁
    obtain ⟨s', hrun', hst', hr', hc'⟩ := drain_right es (.delete e.1 e.2 hrun hcall) hst₁
      fun x hx => hge x (List.mem_cons_of_mem _ hx)
    have hset : S \ (e :: es).toFinset = S.erase (e.1, e.2) \ es.toFinset := by
      rw [List.toFinset_cons, Finset.sdiff_insert, Finset.erase_sdiff_comm]
    rw [hset]
    exact ⟨s', hrun', hst', hr'.trans hr₁, hc'.trans hc₁⟩

theorem leftmostLeaf_twoLeaves {root : Nat} {L R : LeafNode ty} {m : Key ty}
    (hst : Stored s root 1 (twoLeaves root L m R)) : leftmostLeaf root s = .ok L.id s := by
  rw [leftmostLeaf, bind_ok (pageFuel_apply s), ← hst.root_eq]
  exact leftmostLoop_eq 1 _ _ hst.depth_lt hst.repr hst.used

/-- The sweep takes an empty right leaf out of the chain. -/
theorem sweep_right {root newId : Nat} {id : Nat} {a : List (Key ty × Rid)}
    {m : Key ty} (hst : Stored s root 1 (twoLeaves root ⟨id, newId, a⟩ m ⟨newId, NO_NEXT_PAGE, []⟩))
    (lsn : Nat) : ∃ s', sweepEmptyLeaves lsn root s = .ok () s' ∧
      Stored s' root 1 (twoLeaves root ⟨id, NO_NEXT_PAGE, a⟩ m ⟨newId, NO_NEXT_PAGE, []⟩) ∧
      s'.room = s.room ∧ s'.pageCount = s.pageCount := by
  have hl : (⟨id, newId, a⟩ : LeafNode ty) ∈ (Tree.flat 1 (twoLeaves root ⟨id, newId, a⟩ m
      (⟨newId, NO_NEXT_PAGE, []⟩ : LeafNode ty))).items := List.mem_cons_self
  have hr : (⟨newId, NO_NEXT_PAGE, []⟩ : LeafNode ty) ∈ (Tree.flat 1 (twoLeaves root ⟨id, newId, a⟩ m
      (⟨newId, NO_NEXT_PAGE, []⟩ : LeafNode ty))).items := List.mem_cons_of_mem _ List.mem_cons_self
  have hlpage := hst.repr.leaf_page 1 _ _ hl
  have hrpage := hst.repr.leaf_page 1 _ _ hr
  have hlused : s.Used id := hst.used _ (leaf_id_mem_ids 1 _ _ hl)
  have hrused : s.Used newId := hst.used _ (leaf_id_mem_ids 1 _ _ hr)
  have hleft := leftmostLeaf_twoLeaves hst
  have hnd : id ≠ newId := by
    have h : ([root, id, newId] : List Nat).Nodup := hst.nodup
    simp only [List.nodup_cons, List.mem_cons, List.not_mem_nil, or_false] at h
    exact h.2.1
  have hst' := hst.relink hl NO_NEXT_PAGE lsn
  have htree : (twoLeaves root ⟨id, newId, a⟩ m ⟨newId, NO_NEXT_PAGE, []⟩).mapLeaves
      (relink id NO_NEXT_PAGE) 1 =
        twoLeaves root ⟨id, NO_NEXT_PAGE, a⟩ m (⟨newId, NO_NEXT_PAGE, []⟩ : LeafNode ty) := by
    simp only [twoLeaves, Tree.mapLeaves, SepList.map, relink, if_true, if_neg hnd.symm]
    rfl
  refine ⟨s.set id (stampPage ((s.pages id).setNextPageId NO_NEXT_PAGE) lsn), ?_, htree ▸ hst', rfl,
    rfl⟩
  have hcount : 1 < s.pageCount + 1 := hst.depth_lt
  obtain ⟨n, hn⟩ := Nat.exists_eq_add_one.2 (Nat.lt_of_succ_lt_succ hcount)
  rw [sweepEmptyLeaves, bind_ok hleft, bind_ok (fetchPage_used hlused), bind_ok (pageFuel_apply s),
    hlpage.next, sweepLoop, if_neg (hrused.ne_none hst.wf), bind_ok (fetchPage_used hrused),
    if_pos ((isEmpty_iff hrpage).2 rfl), bind_ok (fetchPage_used hlused),
    bind_ok (writePage_apply _ _ _), hrpage.next, hn, sweepLoop, if_pos rfl]
  rfl

/-- The chain of two leaves, where the left one ends it. -/
theorem leafChain_left {root id : Nat} {a : List (Key ty × Rid)} {R : LeafNode ty}
    {m : Key ty} (hst : Stored s root 1 (twoLeaves root ⟨id, NO_NEXT_PAGE, a⟩ m R)) :
    leafChain root s = .ok [(id, rawEntries a)] s := by
  have hl : (⟨id, NO_NEXT_PAGE, a⟩ : LeafNode ty) ∈ (Tree.flat 1 (twoLeaves root
      ⟨id, NO_NEXT_PAGE, a⟩ m R)).items := List.mem_cons_self
  have hon : ChainOn s [(⟨id, NO_NEXT_PAGE, a⟩ : LeafNode ty)] := by
    refine ⟨⟨rfl, trivial⟩, fun L hL => ?_, fun L hL => ?_⟩
    · rw [List.mem_singleton.1 hL]
      exact hst.repr.leaf_page 1 _ _ hl
    · rw [List.mem_singleton.1 hL]
      exact hst.used _ (leaf_id_mem_ids 1 _ _ hl)
  have hone : chainFrom (s.pageCount + 1) id s = .ok [(id, rawEntries a)] s :=
    chainFrom_eq hst.wf [] _ _ (Nat.succ_pos _) hon
  rw [leafChain, bind_ok (leftmostLeaf_twoLeaves hst), bind_ok (pageFuel_apply s), hone]

/-- An entry of the right leaf is stored and on no walk of the chain. -/
theorem not_scannable_right {root newId id : Nat} {a es : List (Key ty × Rid)}
    {e : Key ty × Rid} {S : Finset (Key ty × Rid)}
    (hst : Stored s root 1 (twoLeaves root ⟨id, NO_NEXT_PAGE, a⟩ e.1 ⟨newId, NO_NEXT_PAGE, es⟩))
    (hS : e ∈ S) (ha : e ∉ a) : ¬ Scannable s root S := by
  rintro ⟨⟨leaves, out, hchain, hraw, -, hmem⟩, -⟩
  rw [leafChain_left hst] at hchain
  cases hchain
  have hraw : rawEntries a = rawEntries out := by simpa using hraw
  have hinj : Function.Injective fun e : Key ty × Rid => (e.1.bytes, e.2) := fun x y hxy =>
    Prod.ext (Key.bytes_inj (Prod.mk.inj hxy).1) (Prod.mk.inj hxy).2
  exact ha ((List.map_injective_iff.2 hinj hraw) ▸ (hmem e).2 hS)

/-- A key is sent to the leaf on its side of the separator. -/
theorem descendToLeaf_twoLeaves {root : Nat} {L R : LeafNode ty} {m : Key ty}
    (hst : Stored s root 1 (twoLeaves root L m R)) (k : Key ty) : descendToLeaf root k.bytes ty s =
      .ok (if m.rank ≤ k.rank then R.id else L.id) s := by
  rw [descendToLeaf_eq hst k]
  by_cases h : m.rank ≤ k.rank <;> simp [twoLeaves, Tree.descend, SepList.route, upTo, h]

theorem onChain_left_iff {root id newId : Nat} {a es : List (Key ty × Rid)} {m : Key ty}
    (hst : Stored s root 1 (twoLeaves root ⟨id, NO_NEXT_PAGE, a⟩ m ⟨newId, NO_NEXT_PAGE, es⟩))
    (k : Key ty) : OnChain s root k.bytes ty ↔ k.rank < m.rank := by
  have hne : newId ≠ id := by
    have h : ([root, id, newId] : List Nat).Nodup := hst.nodup
    simp only [List.nodup_cons, List.mem_cons, List.not_mem_nil, or_false] at h
    exact fun heq => h.2.1 heq.symm
  rw [OnChain, descendToLeaf_twoLeaves hst k, leafChain_left hst]
  by_cases h : m.rank ≤ k.rank
  · rw [if_pos h]
    simp [hne, h]
  · rw [if_neg h]
    simp [not_le.1 h]

/-- While the tree is one leaf every insertion goes to the chain. -/
theorem onChain_rootLeaf {root : Nat} {es : List (Key ty × Rid)}
    (hst : Stored s root 0 (⟨root, NO_NEXT_PAGE, es⟩ : LeafNode ty)) (k : Key ty) :
    OnChain s root k.bytes ty := by
  have hon : ChainOn s [(⟨root, NO_NEXT_PAGE, es⟩ : LeafNode ty)] := by
    refine ⟨⟨rfl, trivial⟩, fun L hL => ?_, fun L hL => ?_⟩
    · rw [List.mem_singleton.1 hL]
      exact hst.repr
    · rw [List.mem_singleton.1 hL]
      exact hst.used root (List.mem_singleton_self root)
  have hleft : leftmostLeaf root s = .ok root s := by
    rw [leftmostLeaf, bind_ok (pageFuel_apply s)]
    exact leftmostLoop_eq 0 _ _ hst.depth_lt hst.repr hst.used
  refine ⟨root, [(root, rawEntries es)], descendToLeaf_eq hst k, ?_, List.mem_singleton_self root⟩
  rw [leafChain, bind_ok hleft, bind_ok (pageFuel_apply s)]
  exact chainFrom_eq hst.wf [] _ _ (Nat.succ_pos _) hon

include hw

/-- An insertion into the empty right leaf fits there. -/
theorem insert_right {root newId : Nat} {l : LeafNode ty} {m : Key ty} (rid : Rid)
    (hst : Stored s root 1 (twoLeaves root l m ⟨newId, NO_NEXT_PAGE, []⟩))
    (hroom : s.pageCount + 2 < s.room) : ∃ s', insert root m.bytes rid ty s = .ok root s' ∧
      Stored s' root 1 (twoLeaves root l m ⟨newId, NO_NEXT_PAGE, [(m, rid)]⟩) := by
  obtain ⟨root', s', o, d', t', hcall, hins, hrooted, hst', -⟩ :=
    hst.insert_ok m rid (splitsFit_of_fixedWidth hw m rid 1 _ hst.repr) hroom
  obtain ⟨oc, hoc, hnode⟩ := hins
  have hroute : (SepList.cons l m (.single (⟨newId, NO_NEXT_PAGE, []⟩ : LeafNode ty))).route
      (upTo Key.rank m) = ⟨newId, NO_NEXT_PAGE, []⟩ := by
    simp [SepList.route, upTo]
  have hoc : LeafIns Key.rank (capacity ty) ((SepList.cons l m (.single
      (⟨newId, NO_NEXT_PAGE, []⟩ : LeafNode ty))).route (upTo Key.rank m)) m rid oc := hoc
  rw [hroute] at hoc
  have hfits : (capacity ty).leafFits (grow Key.rank m rid ([] : List (Key ty × Rid))) := by
    have hw8 := fixedWidth_le hw
    rw [leafFits_iff hw]
    simp only [grow, insertBefore, List.length_singleton, HEADER_SIZE, PAGE_SIZE]
    omega
  cases hoc with
  | present hp =>
    obtain ⟨x, hx, -⟩ := hp
    cases hx
  | split _ _ _ _ _ hfull => exact absurd hfits hfull
  | fit _ _ =>
    have hkids : absorb Key.rank m (SepList.cons l m (.single
        (⟨newId, NO_NEXT_PAGE, []⟩ : LeafNode ty)))
          (.fit ⟨newId, NO_NEXT_PAGE, grow Key.rank m rid []⟩) =
        .cons l m (.single ⟨newId, NO_NEXT_PAGE, [(m, rid)]⟩) := by
      simp [absorb, SepList.graft, upTo, grow, insertBefore]
    cases hnode with
    | keep c =>
      have hst' := hrooted.of_fit (P := fun d t => Stored s' root' d t) hst'
      have hroot : root = root' := hst'.root_eq
      subst hroot
      have htree : (Node.mk root (absorb Key.rank m (SepList.cons l m (.single
          (⟨newId, NO_NEXT_PAGE, []⟩ : LeafNode ty)))
            (.fit ⟨newId, NO_NEXT_PAGE, grow Key.rank m rid []⟩)) : PageTree ty 1) =
          twoLeaves root l m ⟨newId, NO_NEXT_PAGE, [(m, rid)]⟩ :=
        congrArg (fun kids => (Node.mk root kids : PageTree ty 1)) hkids
      exact ⟨s', hcall, htree ▸ hst'⟩

omit hw in
/-- The pairs left when the right half of a split leaf is deleted. -/
theorem toFinset_sdiff_right {es a c : List (Key ty × Rid)}
    (hlt : es.Pairwise fun x y => x.1.rank < y.1.rank) (hab : es = a ++ c) :
    es.toFinset \ c.toFinset = a.toFinset := by
  rw [hab] at hlt ⊢
  rw [List.toFinset_append, Finset.union_sdiff_right, Finset.sdiff_eq_self_iff_disjoint,
    List.disjoint_toFinset_iff_disjoint]
  exact fun x hx hx' => (List.pairwise_append.1 hlt).2.2 x hx x hx' |>.ne rfl

/-- Fill a leaf until it splits, delete the right half, and sweep it away. -/
theorem swept_right (ok : BufferPool → Nat → Bytes → Prop) (h₀ : EmptyLeaf s₀ root₀) (hroom : s₀.pageCount + 6 < s₀.room)
    {es : List (Key ty × Rid)} {e : Key ty × Rid}
    (hlt : (es ++ [e]).Pairwise fun x y => x.1.rank < y.1.rank)
    (hrids : ((es ++ [e]).map Prod.snd).Nodup)
    (hfit : HEADER_SIZE + es.length * (w + 12) ≤ PAGE_SIZE)
    (hover : ¬ HEADER_SIZE + (es.length + 1) * (w + 12) ≤ PAGE_SIZE)
    (hok : ∀ front e', front ++ [e'] <+: es ++ [e] → ∀ s,
      Stored s root₀ 0 (⟨root₀, NO_NEXT_PAGE, front⟩ : LeafNode ty) → ok s root₀ e'.1.bytes) :
    ∃ s root newId a m b, es ++ [e] = a ++ m :: b ∧ a.length = (es.length + 1) / 2 ∧
      SweepRun ty ok s₀ root₀ s root a.toFinset ∧
      Stored s root 1 (twoLeaves root ⟨root₀, NO_NEXT_PAGE, a⟩ m.1 ⟨newId, NO_NEXT_PAGE, []⟩) ∧
      s.pageCount + 2 < s.room := by
  obtain ⟨s₁, root, newId, a, m, b, hab, hlen, hrun₁, hst₁, hr₁, hc₁⟩ :=
    overfill_leaf hw h₀ (by omega) (hlt.imp fun h => h.le) hrids hfit hover (told_sweep hlt hok)
  have hsplit := hlt
  rw [hab] at hsplit
  obtain ⟨-, hright, -⟩ := List.pairwise_append.1 hsplit
  have hge : ∀ x ∈ m :: b, m.1.rank ≤ x.1.rank := by
    intro x hx
    rcases List.mem_cons.1 hx with rfl | hx
    · exact le_rfl
    · exact ((List.pairwise_cons.1 hright).1 x hx).le
  obtain ⟨s₂, hrun₂, hst₂, hr₂, hc₂⟩ := drain_right (m :: b) hrun₁ hst₁ hge
  obtain ⟨s₃, hsweep, hst₃, hr₃, hc₃⟩ := sweep_right hst₂ 0
  rw [toFinset_sdiff_right hlt hab] at hrun₂
  exact ⟨s₃, root, newId, a, m, b, hab, hlen, .sweep 0 hrun₂ hsweep, hst₃, by omega⟩

end TwoLeaves

/-- 255 insertions split the root leaf, the right half is deleted and its leaf
swept away; the key -1 goes to the leaf that is left. -/
theorem sweep_scannable_split : ∃ s s' root root',
    SweepRun .int (fun s root key => OnChain s root key .int) (emptyLeafPool 9 (by decide)) 0 s root
      (ascending 127).toFinset ∧
    ¬ OnChain s root (intKey 127).bytes .int ∧
    insert root (intKey (-1)).bytes (1, 0) .int s = .ok root' s' ∧
    Scannable s' root' (Insert.insert (intKey (-1), (1, 0)) (ascending 127).toFinset) := by
  have h₀ := emptyLeaf_emptyLeafPool (n := 9) (by decide) (by decide)
  have hlt := ascending_sorted (n := 255) (by decide)
  obtain ⟨s, root, newId, a, m, b, hab, hlen, hrun, hst, hroom⟩ := swept_right (w := 4) rfl
    (fun s root key => OnChain s root key .int) h₀ (by decide) (ascending_succ 254 ▸ hlt)
    (ascending_succ 254 ▸ nodup_ascending 255) (by rw [length_ascending]; decide)
    (by rw [length_ascending]; decide) fun front e _ s hst => onChain_rootLeaf hst e.1
  rw [← ascending_succ] at hab
  rw [length_ascending] at hlen
  obtain ⟨ha, hm⟩ := ascending_cut (n := 127) hab hlen
  rw [hm] at hst
  rw [ha] at hrun
  have hon := (onChain_left_iff hst (intKey (-1))).2 (by rw [rank_intKey, rank_intKey]; decide)
  have hins : Insertable (ascending 127).toFinset (intKey (-1)) (1, 0) := fun r hr => by
    obtain ⟨i, hi, he⟩ := List.mem_map.1 (List.mem_toFinset.1 hr)
    have hi := List.mem_range.1 hi
    have hrank := congrArg Key.rank (Prod.mk.inj he).1
    rw [rank_intKey, rank_intKey, Int32.toInt_ofNat_of_lt (by omega)] at hrank
    have hneg : (i : Int) = -1 := (List.cons.inj hrank).1
    omega
  obtain ⟨root', s', -, -, -, hcall, -⟩ := hst.insert_ok (intKey (-1)) (1, 0)
    (splitsFit_of_fixedWidth (w := 4) rfl _ _ 1 _ hst.repr) hroom
  exact ⟨s, s', root, root', hrun,
    fun h => absurd ((onChain_left_iff hst (intKey 127)).1 h) (lt_irrefl _), hcall,
    sweep_scannable (w := 4) rfl h₀ (.insert _ (1, 0) hrun hins hon hcall)⟩

/-! ## An insertion into a leaf off the chain -/

/-- Every call is allowed. -/
abbrev anyCall : BufferPool → Nat → Bytes → Prop := fun _ _ _ => True

/-- **A sweep loses an entry.** 255 insertions of INT keys in ascending order
split the leaf; the keys of the right half are deleted, the index is swept, and
the first of them is inserted again. All calls return `Ok`, and the chain does
not have the entry. -/
theorem sweep_loses_entry : ∃ s root S,
    SweepRun .int anyCall (emptyLeafPool 9 (by decide)) 0 s root S ∧ ¬ Scannable s root S := by
  have h₀ := emptyLeaf_emptyLeafPool (n := 9) (by decide) (by decide)
  have hlt := ascending_sorted (n := 255) (by decide)
  obtain ⟨s, root, newId, a, m, b, hab, -, hrun, hst, hroom⟩ := swept_right (w := 4) rfl anyCall h₀
    (by decide) (ascending_succ 254 ▸ hlt) (ascending_succ 254 ▸ nodup_ascending 255)
    (by rw [length_ascending]; decide) (by rw [length_ascending]; decide)
    fun _ _ _ _ _ => trivial
  rw [← ascending_succ] at hab
  obtain ⟨s', hcall, hst'⟩ := insert_right (w := 4) rfl m.2 hst hroom
  have hmem : m ∈ ascending 255 := by rw [hab]; simp
  have hsub : ∀ x ∈ a.toFinset, x ∈ ascending 255 := fun x hx => by
    rw [hab]
    exact List.mem_append_left _ (List.mem_toFinset.1 hx)
  refine ⟨s', root, _, .insert m.1 m.2 hrun (insertable_of_sorted hlt hmem hsub) trivial hcall,
    not_scannable_right hst' (Finset.mem_insert_self _ _) fun hma => ?_⟩
  rw [hab] at hlt
  exact ((List.pairwise_append.1 hlt).2.2 m hma m List.mem_cons_self).ne rfl

end Ccdb.BTree
