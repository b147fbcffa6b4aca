import Ccdb.BTree.Walk

/-!
# Ccdb — insert and delete on stored trees

`insert` and `delete` of `btree.rs` as operations on the tree stored below
the root, for any key type `compare_keys` can order.

Main results:

* `insert_sim` — `insert` performs the library's insertion and returns the
  root of the new tree.
* `delete_sim` — `delete` removes the pair from the leaf reached and says
  whether it was there.
* `splitsFit_of_fixedWidth` — for fixed-width keys no split overflows.
-/

namespace Ccdb.BTree

open Ccdb BPlus Page

variable {ty : DataType}

/-! ## Space -/

theorem len_le_spaceOf {t : PageTuple} {l : List PageTuple} (h : t ∈ l) :
    t.len + SLOT_SIZE ≤ spaceOf l := by
  induction l with
  | nil => simp at h
  | cons x l ih =>
    rw [spaceOf_cons]
    rcases List.mem_cons.1 h with rfl | h
    · omega
    · have := ih h
      omega

theorem spaceOf_sublist {a b : List PageTuple} (h : a.Sublist b) : spaceOf a ≤ spaceOf b := by
  induction h with
  | slnil => exact le_rfl
  | cons x _ ih =>
    rw [spaceOf_cons]
    omega
  | cons_cons x _ ih =>
    rw [spaceOf_cons, spaceOf_cons]
    omega

/-- A promoted separator fits as the only entry of a new root. -/
theorem promoted_small {s : BufferPool} {k : Key ty} {rid : Rid} : ∀ (d : Nat) (t l r : PageTree ty d)
    (sep : Key ty), Repr s d t → Ins Key.rank (capacity ty) k rid d t (.split l sep r) →
    HEADER_SIZE + (sep.bytes.length + 6 + SLOT_SIZE) ≤ PAGE_SIZE
  | 0, t, l, r, sep, _, hins => by
    have hins : LeafIns Key.rank (capacity ty) t k rid (.split l sep r) := hins
    cases hins with
    | split newId a b e _ _ _ _ _ hb =>
      have := len_le_spaceOf (t := .leaf e.1.bytes e.2) (l := leafTuples (e :: b))
        (by simp [leafTuples])
      have hb : HEADER_SIZE + spaceOf (leafTuples (e :: b)) ≤ PAGE_SIZE := hb
      rw [PageTuple.len_leaf] at this
      omega
  | d + 1, t, l, r, sep, hr, hins => by
    obtain ⟨oc, hoc, hn⟩ := hins
    cases hn with
    | split lc rc sc newId a b m _ hcut _ _ _ =>
      have hchild := promoted_small d _ lc rc sc (hr.2 _ (SepList.route_mem_items _)) hoc
      have hmem : sep ∈ insertBefore (beyond Key.rank sc) sc (Node.kids t).seps := by
        rw [← absorb_seps Key.rank (capacity ty) hoc, hcut, SepList.seps_append]
        simp
      obtain ⟨x, y, hxy, hins, -, -⟩ := insertBefore_eq (beyond Key.rank sc) sc (Node.kids t).seps
      rw [hins] at hmem
      have hcase : sep = sc ∨ sep ∈ (Node.kids t).seps := by
        rw [hxy]
        simp only [List.mem_append, List.mem_cons] at hmem ⊢
        tauto
      rcases hcase with rfl | hmem
      · exact hchild
      · have hroom := hr.1.packed.room
        rw [spaceOf_nodeTuples, ← SepList.seps_eq, SepList.seps_map] at hroom
        have := len_le_spaceOf (t := .internal sep.bytes 0)
          (l := (Node.kids t).seps.map fun k => .internal k.bytes 0) (List.mem_map.2 ⟨sep, hmem, rfl⟩)
        rw [PageTuple.len_internal] at this
        omega

/-! ## Fixed-width keys -/

theorem Key.length_eq {w : Nat} (hw : fixedWidth ty = some w) (k : Key ty) : k.bytes.length = w :=
  keyRank_length hw k.2

theorem Key.rank_inj {w : Nat} (hw : fixedWidth ty = some w) {a b : Key ty}
    (h : a.rank = b.rank) : a = b :=
  Key.bytes_inj (keyRank_inj hw a.keyRank_bytes (h ▸ b.keyRank_bytes))

theorem leafFits_iff {w : Nat} (hw : fixedWidth ty = some w) (es : List (Key ty × Rid)) :
    (capacity ty).leafFits es ↔ HEADER_SIZE + es.length * (w + 12) ≤ PAGE_SIZE := by
  have hspace : spaceOf (leafTuples es) = es.length * (w + 12) := by
    induction es with
    | nil => simp [leafTuples]
    | cons e es ih =>
      have hk := e.1.length_eq hw
      simp only [leafTuples, List.map_cons, spaceOf_cons, PageTuple.len_leaf, List.length_cons,
        SLOT_SIZE] at ih ⊢
      rw [ih, Nat.add_mul]
      omega
  rw [← hspace]
  rfl

theorem nodeFits_iff {w : Nat} (hw : fixedWidth ty = some w) (ks : List (Key ty)) :
    (capacity ty).nodeFits ks ↔ HEADER_SIZE + ks.length * (w + 10) ≤ PAGE_SIZE := by
  have hspace : spaceOf (ks.map fun k => .internal k.bytes 0) = ks.length * (w + 10) := by
    induction ks with
    | nil => simp
    | cons k ks ih =>
      have hk := k.length_eq hw
      simp only [List.map_cons, spaceOf_cons, PageTuple.len_internal, List.length_cons,
        SLOT_SIZE] at ih ⊢
      rw [ih, Nat.add_mul]
      omega
  rw [← hspace]
  rfl

theorem fixedWidth_le {w : Nat} (hw : fixedWidth ty = some w) : w ≤ 8 := by
  cases ty <;> cases hw <;> decide

/-- If one entry too many does not fit, both halves do. -/
theorem halves_fit {n w c : Nat} (hw : w + c ≤ 2036) (hfull : HEADER_SIZE + n * (w + c) ≤ PAGE_SIZE)
    (hover : ¬ HEADER_SIZE + (n + 1) * (w + c) ≤ PAGE_SIZE) :
    HEADER_SIZE + (n + 1) / 2 * (w + c) ≤ PAGE_SIZE ∧
      HEADER_SIZE + (n + 1 - (n + 1) / 2) * (w + c) ≤ PAGE_SIZE := by
  simp only [HEADER_SIZE, PAGE_SIZE] at hfull hover ⊢
  have hn : 1 ≤ n := by
    rcases Nat.eq_zero_or_pos n with rfl | hn
    · omega
    · exact hn
  have h1 : (n + 1) / 2 * (w + c) ≤ n * (w + c) := Nat.mul_le_mul_right _ (by omega)
  have h2 : (n + 1 - (n + 1) / 2) * (w + c) ≤ n * (w + c) := Nat.mul_le_mul_right _ (by omega)
  omega

/-- **Splits of fixed-width nodes never overflow.** -/
theorem splitsFit_of_fixedWidth {s : BufferPool} {w : Nat} (hw : fixedWidth ty = some w)
    (k : Key ty) (rid : Rid) : ∀ (d : Nat) (t : PageTree ty d), Repr s d t →
    SplitsFit Key.rank (capacity ty) k rid d t
  | 0, t, hr => by
    intro _ hover
    have hr : IsLeafPage (s.pages (Leaf.id t)) t := hr
    have hfull := (leafFits_iff hw (Leaf.entries t)).1 hr.packed.room
    have hw8 := fixedWidth_le hw
    rw [leafFits_iff hw, grow, insertBefore_length] at hover
    obtain ⟨h1, h2⟩ := halves_fit (by omega) hfull hover
    dsimp only
    rw [leafFits_iff hw, leafFits_iff hw, List.length_take, List.length_drop, grow,
      insertBefore_length, Nat.min_eq_left (by omega)]
    exact ⟨h1, h2⟩
  | d + 1, t, hr => by
    refine ⟨splitsFit_of_fixedWidth hw k rid d _ (hr.2 _ (SepList.route_mem_items _)), ?_⟩
    intro l sep r _ hover
    have hfull : (capacity ty).nodeFits (Node.kids t).seps := by
      have hroom := hr.1.packed.room
      rw [spaceOf_nodeTuples, ← SepList.seps_eq, SepList.seps_map] at hroom
      exact hroom
    have hw8 := fixedWidth_le hw
    rw [nodeFits_iff hw] at hfull
    rw [nodeFits_iff hw, insertBefore_length] at hover
    obtain ⟨h1, h2⟩ := halves_fit (by omega) hfull hover
    dsimp only
    rw [nodeFits_iff hw, nodeFits_iff hw, List.length_take, List.length_drop, insertBefore_length,
      Nat.min_eq_left (by omega)]
    refine ⟨h1, le_trans (Nat.add_le_add_left (Nat.mul_le_mul_right _ ?_) _) h2⟩
    omega

/-! ## Insert -/

/-- The new root after the old one split. -/
theorem newRoot_stored {s s₁ : BufferPool} {root d : Nat} {t l r : PageTree ty d} {k sep : Key ty}
    {rid : Rid} (h : Stored s root d t) (hsim : InsSim s s₁ k rid d t (.split l sep r)) :
    Succeeds (do
      let newRoot ← newPage
      writePage newRoot (initInternal (.new newRoot) root)
      insertInto newRoot (.internal sep.bytes r.rootId)
      return newRoot) s₁ fun root' s' =>
        Stored s' root' (d + 1) (Node.mk root' (.cons l sep (.single r)) : PageTree ty (d + 1)) ∧
          s.room + (t.ids d).length ≤ s'.room + (Tree.ids (d + 1)
            (Node.mk root' (.cons l sep (.single r)) : PageTree ty (d + 1))).length ∧
          s'.pageCount + (t.ids d).length ≤ s.pageCount + (Tree.ids (d + 1)
            (Node.mk root' (.cons l sep (.single r)) : PageTree ty (d + 1))).length := by
  have hsmall := promoted_small d t l r sep h.repr hsim.ins
  have hroot : l.rootId = root := (Ins.rootId_head Key.rank (capacity ty) d t _ hsim.ins).trans h.root_eq
  refine Succeeds.bind (succeeds_newPage hsim.grown.wf) ?_
  rintro newRoot s₂ ⟨hwf₂, hfresh, hnew, hframe, hused, hroom₂, hcount₂⟩
  refine Succeeds.bind_ok rfl ?_
  have hpacked : Packed (initInternal (.new newRoot) root) [] := ⟨rfl, rfl, by decide⟩
  have hroom : HEADER_SIZE + spaceOf ([] ++ [.internal sep.bytes r.rootId]) ≤ PAGE_SIZE := by
    simpa using hsmall
  have hinsert : insertInto newRoot (.internal sep.bytes r.rootId)
      (s₂.set newRoot (initInternal (.new newRoot) root)) =
        .ok () (s₂.set newRoot ((initInternal (.new newRoot) root).push
          (.internal sep.bytes r.rootId))) := by
    rw [insertInto, BufferPool.set_pages_self, insert_eq_ok ((packed_insert hpacked).2 hroom)]
    simp [BufferPool.set]
  refine Succeeds.bind_ok hinsert ?_
  have hids : Tree.ids (d + 1) (Node.mk newRoot (.cons l sep (.single r)) : PageTree ty (d + 1)) =
      newRoot :: (Outcome.split l sep r).toSep.spell (Tree.ids d) (fun _ => []) := rfl
  have hnotin : newRoot ∉ (Outcome.split l sep r).toSep.spell (Tree.ids d) (fun _ => []) :=
    fun hmem => hfresh (hsim.grown.owned _ hmem)
  refine Succeeds.of_ok rfl ⟨⟨hwf₂.set _ _, rfl, ⟨?_, fun c hc => ?_⟩, fun q hq => ?_, ?_⟩, ?_⟩
  · show IsNodePage ((s₂.set newRoot _).pages newRoot) newRoot
      (.cons l.rootId sep (.single r.rootId))
    rw [BufferPool.set_pages_self]
    exact ⟨rfl, rfl, hroot.symm, packed_push hpacked hroom⟩
  · refine Repr.congr d c (fun q hq => ?_) (hsim.repr c hc)
    have hmem : q ∈ (Outcome.split l sep r).toSep.spell (Tree.ids d) (fun _ => []) := by
      rw [SepList.spell_eq_flatMap_items]
      exact List.mem_flatMap.2 ⟨c, hc, hq⟩
    have hne : q ≠ newRoot := fun heq => hnotin (heq ▸ hmem)
    rw [BufferPool.set_pages_ne _ _ hne, hframe q hne]
  · rw [hids, List.mem_cons] at hq
    rcases hq with rfl | hq
    · exact (hused _).2 (Or.inr rfl)
    · exact (hused q).2 (Or.inl (hsim.grown.owned q hq))
  · rw [hids, List.nodup_cons]
    exact ⟨hnotin, hsim.grown.nodup⟩
  · have hspent := hsim.grown.spent
    rw [hids, List.length_cons]
    simp only [BufferPool.room_set, BufferPool.set_pageCount]
    omega

/-- **Insertion** on the stored tree. -/
theorem insert_sim {s : BufferPool} {root d : Nat} {t : PageTree ty d} (h : Stored s root d t)
    (k : Key ty) (rid : Rid) (hfit : SplitsFit Key.rank (capacity ty) k rid d t) :
    Succeeds (insert root k.bytes rid ty) s fun root' s' =>
      ∃ o d' t', Ins Key.rank (capacity ty) k rid d t o ∧ Rooted o d' t' ∧
        Stored s' root' d' t' ∧ s.room + (t.ids d).length ≤ s'.room + (t'.ids d').length ∧
        s'.pageCount + (t.ids d).length ≤ s.pageCount + (t'.ids d').length := by
  rw [insert]
  refine Succeeds.bind_ok (pageFuel_apply s) ?_
  rw [← h.root_eq]
  refine Succeeds.bind
    (insertRecursive_sim k rid d t _ s h.depth_lt h.wf h.repr h.used h.nodup hfit) ?_
  rintro out s₁ ⟨o, hsim, rfl⟩
  cases o with
  | fit t' =>
    refine Succeeds.of_ok rfl ⟨_, d, t', hsim.ins, .fit t', ⟨hsim.grown.wf,
      Ins.rootId_head Key.rank (capacity ty) d t _ hsim.ins, hsim.repr t' (List.mem_singleton_self _),
      hsim.grown.owned, hsim.grown.nodup⟩, hsim.grown.spent⟩
  | split l sep r =>
    rw [h.root_eq]
    refine Succeeds.imp (newRoot_stored h hsim) fun root' s' hst => ?_
    exact ⟨_, d + 1, _, hsim.ins, .split l r sep root', hst⟩

/-! ## Delete -/

/-- The leaf without `(k, rid)`. -/
def removeFrom (k : Key ty) (rid : Rid) (L : LeafNode ty) : LeafNode ty :=
  { L with entries := dropPair k rid L.entries }

theorem dropPair_sublist (k : Key ty) (rid : Rid) (es : List (Key ty × Rid)) :
    (dropPair k rid es).Sublist es := List.eraseP_sublist

theorem dropPair_eq_self {k : Key ty} {rid : Rid} {es : List (Key ty × Rid)}
    (h : ¬ Present Key.rank k rid es) : dropPair k rid es = es := by
  refine List.eraseP_of_forall_not fun e he hp => h ⟨e, he, ?_⟩
  simpa using hp

theorem rootId_update_descend {k : Key ty} {f : LeafNode ty → LeafNode ty} : ∀ (d : Nat)
    (t : PageTree ty d), (f (t.descend Key.rank k d)).id = (t.descend Key.rank k d).id →
    (t.update Key.rank k f d).rootId = t.rootId
  | 0, _, h => h
  | _ + 1, _, _ => rfl

/-- Rewriting the page of the leaf reached. -/
theorem Repr.update {s : BufferPool} {k : Key ty} {f : LeafNode ty → LeafNode ty} {page : Page} :
    ∀ (d : Nat) (t : PageTree ty d), Repr s d t → (t.ids d).Nodup →
      (f (t.descend Key.rank k d)).id = (t.descend Key.rank k d).id →
      IsLeafPage page (f (t.descend Key.rank k d)) →
      Repr (s.set (t.descend Key.rank k d).id page) d (t.update Key.rank k f d)
  | 0, t, _, _, hid, hpage => by
    show IsLeafPage ((s.set (Leaf.id t) page).pages (Leaf.id (f t))) (f t)
    have hid : (f t).id = Leaf.id t := hid
    rw [hid, BufferPool.set_pages_self]
    exact hpage
  | d + 1, t, hr, hnd, hid, hpage => by
    have hids := ids_succ k t
    rw [hids] at hnd
    -- the leaf's page belongs to the routed child alone
    have hmem : (t.descend Key.rank k (d + 1)).id ∈
        Tree.ids d ((Node.kids t).route (upTo Key.rank k)) :=
      leaf_id_mem_ids d _ _ (descend_mem_items k d _)
    have hleft : ∀ q ∈ Node.id t :: ((Node.kids t).before (upTo Key.rank k) (fun c => [c])
        (fun _ => [])).flatMap (Tree.ids d), q ≠ (t.descend Key.rank k (d + 1)).id := by
      rintro q hq rfl
      rw [List.append_assoc] at hnd
      exact (List.nodup_append.1 hnd).2.2 _ hq _ (List.mem_append_left _ hmem) rfl
    have hright : ∀ q ∈ ((Node.kids t).after (upTo Key.rank k) (fun c => [c])
        (fun _ => [])).flatMap (Tree.ids d), q ≠ (t.descend Key.rank k (d + 1)).id := by
      rintro q hq rfl
      exact (List.nodup_append.1 hnd).2.2 _ (List.mem_append_right _ hmem) _ hq rfl
    have hitems : (Node.kids t).items = _ :=
      SepList.spell_eq (upTo Key.rank k) (fun c : PageTree ty d => [c]) (fun _ => []) (Node.kids t)
    have hchild := Repr.update (k := k) (f := f) d
      ((Node.kids t).route (upTo Key.rank k)) (hr.2 _ (SepList.route_mem_items _))
      (List.nodup_append.1 (List.nodup_append.1 hnd).1).2.1 hid hpage
    refine ⟨?_, fun c hc => ?_⟩
    · show IsNodePage ((s.set _ page).pages (Node.id t)) (Node.id t)
        (((Node.kids t).graft (upTo Key.rank k) (.single _)).map Tree.rootId)
      rw [BufferPool.set_pages_ne _ _ (hleft _ List.mem_cons_self),
        SepList.map_graft_single Tree.rootId _ (rootId_update_descend d _ hid)]
      exact hr.1
    · have hc : c ∈ ((Node.kids t).graft (upTo Key.rank k) (.single ((
          (Node.kids t).route (upTo Key.rank k)).update Key.rank k f d))).items := hc
      rw [SepList.items, SepList.spell_graft, List.mem_append, List.mem_append] at hc
      rcases hc with (hc | hc) | hc
      · refine Repr.congr d c (fun q hq => ?_) (hr.2 c (by rw [hitems]; simp [hc]))
        refine BufferPool.set_pages_ne _ _ (hleft q ?_)
        exact List.mem_cons_of_mem _ (List.mem_flatMap.2 ⟨c, hc, hq⟩)
      · obtain rfl := List.mem_singleton.1 hc
        exact hchild
      · refine Repr.congr d c (fun q hq => ?_) (hr.2 c (by rw [hitems]; simp [hc]))
        exact BufferPool.set_pages_ne _ _ (hright q (List.mem_flatMap.2 ⟨c, hc, hq⟩))

/-- **Deletion** on the stored tree. -/
theorem delete_sim {s : BufferPool} {root d : Nat} {t : PageTree ty d} (h : Stored s root d t)
    (k : Key ty) (rid : Rid) :
    ∃ b s', delete root k.bytes rid ty s = .ok b s' ∧
      (b = true ↔ Present Key.rank k rid (t.descend Key.rank k d).entries) ∧
      Stored s' root d (t.update Key.rank k (removeFrom k rid) d) ∧
      s'.room = s.room ∧ s'.pageCount = s.pageCount := by
  have hmem := descend_mem_items k d t
  have hpage := h.repr.leaf_page d t _ hmem
  have hu := h.used _ (leaf_id_mem_ids d t _ hmem)
  obtain ⟨b, hb, hiff⟩ := removeEntry_eq k rid _ _ hpage.packed.tuples
  by_cases hpres : Present Key.rank k rid (t.descend Key.rank k d).entries
  · have hbt : b = true := hiff.2 hpres
    subst hbt
    have hfit : HEADER_SIZE + spaceOf (leafTuples (dropPair k rid
        (t.descend Key.rank k d).entries)) ≤ PAGE_SIZE := by
      refine le_trans (Nat.add_le_add_left ?_ _) hpage.packed.room
      exact spaceOf_sublist ((dropPair_sublist k rid _).map _)
    have hhead := pushAll_header (resetPage (s.pages (t.descend Key.rank k d).id)
      (s.pages (t.descend Key.rank k d).id).nextPageId)
      (leafTuples (dropPair k rid (t.descend Key.rank k d).entries))
    have hrun : delete root k.bytes rid ty s = .ok true (s.set (t.descend Key.rank k d).id
        (pushAll (resetPage (s.pages (t.descend Key.rank k d).id)
          (s.pages (t.descend Key.rank k d).id).nextPageId)
            (leafTuples (dropPair k rid (t.descend Key.rank k d).entries)))) := by
      rw [delete, bind_ok (descendToLeaf_eq h k), bind_ok (fetchPage_used hu), hb,
        bind_ok (liftE_ok _ _)]
      dsimp only [Bool.not_true, Bool.false_eq_true, if_false]
      rw [if_neg (by decide), bind_ok (writePage_apply _ _ _),
        bind_ok (insertAll_set ⟨rfl, rfl, by decide⟩ hfit), pure_apply, resetPage, hpage.kind]
    have hids := Tree.ids_update (ρ := Key.rank) (k := k) (f := removeFrom k rid)
      (fun _ => rfl) d t
    refine ⟨true, _, hrun, by simp [hpres], ⟨h.wf.set _ _,
      (rootId_update_descend d t rfl).trans h.root_eq, h.repr.update d t h.nodup rfl ?_,
      by rw [hids]; exact h.used, by rw [hids]; exact h.nodup⟩, rfl, rfl⟩
    exact ⟨hhead.2.2.trans hpage.kind, hhead.1.trans hpage.pageId, hhead.2.1.trans hpage.next,
      packed_rebuilt (packed_resetPage _ _) hfit⟩
  · have hbf : b = false := by simpa using fun h => hpres (hiff.1 h)
    subst hbf
    refine ⟨false, s, ?_, by simp [hpres], ?_, rfl, rfl⟩
    · rw [delete, bind_ok (descendToLeaf_eq h k), bind_ok (fetchPage_used hu), hb,
        bind_ok (liftE_ok _ _)]
      rfl
    · rw [Tree.update_eq_self d t (by rw [removeFrom, dropPair_eq_self hpres])]
      exact h

end Ccdb.BTree
