import Ccdb.BTree.Budget
import Ccdb.BTree.Index
import Mathlib.Data.Finset.Card

/-!
# Ccdb — the B+Tree is a sorted map when keys are distinct

Runs of `insert` and `delete` on an index of a fixed-width key type (INT,
DATE, TIME, TIMESTAMP), threading the returned root, in which no key is
inserted while it is stored under another rid.

Main results:

* `insert_strict` — one insertion into a strictly separated tree.
* `run_refines_sortedMap` — every state of such a run behaves as the sorted
  map of the pairs stored so far.
-/

namespace Ccdb.BTree

open Ccdb BPlus Page

variable {ty : DataType} {s : BufferPool} {es : List (Key ty × Rid)}

/-! ## One step on a strictly separated tree -/

/-- An insertion into a strictly separated tree changes the leaf level at
the leaf reached; nothing fails but `new_page`. -/
theorem insert_graft {root d : Nat} {t : PageTree ty d} (h : Stored s root d t)
    (hord : Ordered Key.rank true (t.flat d)) (k : Key ty) (rid : Rid)
    (hfit : SplitsFit Key.rank (capacity ty) k rid d t)
    (hcut : CleanCut Key.rank (capacity ty) k rid ((t.flat d).route (upTo Key.rank k)).entries) :
    Succeeds (insert root k.bytes rid ty) s fun root' s' => ∃ d' t' g,
      Stored s' root' d' t' ∧ Ordered Key.rank true (t'.flat d') ∧
        LeafIns Key.rank (capacity ty) ((t.flat d).route (upTo Key.rank k)) k rid g ∧
        t'.flat d' = (t.flat d).graft (upTo Key.rank k) g.toSep := by
  refine Succeeds.imp (insert_sim h k rid hfit) ?_
  rintro root' s' ⟨o, d', t', hins, hrooted, hst, -⟩
  rw [← Tree.descend_eq_route d t hord] at hcut
  obtain ⟨g, hg, hflat⟩ := Ins.flat_eq d t o hins hord hcut
  rw [Tree.descend_eq_route d t hord] at hg hcut
  rw [← hrooted.flat_eq] at hflat
  refine ⟨d', t', g, hst, ?_, hg, hflat⟩
  rw [hflat]
  exact ordered_graft hord hg fun _ => hcut

/-- **One insertion** into a strictly separated tree on pages. -/
theorem insert_strict {root d : Nat} {t : PageTree ty d} (h : OnPages s root d t)
    (hord : Ordered Key.rank true (t.flat d)) (k : Key ty) (rid : Rid)
    (hfit : SplitsFit Key.rank (capacity ty) k rid d t)
    (hcut : CleanCut Key.rank (capacity ty) k rid ((t.flat d).route (upTo Key.rank k)).entries) :
    Succeeds (insert root k.bytes rid ty) s fun root' s' => ∃ d' t' g,
      OnPages s' root' d' t' ∧ Ordered Key.rank true (t'.flat d') ∧
        LeafIns Key.rank (capacity ty) ((t.flat d).route (upTo Key.rank k)) k rid g ∧
        t'.flat d' = (t.flat d).graft (upTo Key.rank k) g.toSep := by
  refine Succeeds.imp (insert_graft h.toStored hord k rid hfit hcut) ?_
  rintro root' s' ⟨d', t', g, hst, hord', hg, hflat⟩
  refine ⟨d', t', g, ⟨hst, ?_⟩, hord', hg, hflat⟩
  rw [hflat]
  exact linked_graft h.linked hg

/-- Distinct keys are never separated by a cut. -/
theorem cleanCut_of_nodup {k : Key ty} {rid : Rid}
    (hsorted : es.Pairwise fun x y => x.1.rank < y.1.rank)
    (hnew : ¬ Present Key.rank k rid es → ∀ e ∈ es, e.1.rank ≠ k.rank) :
    CleanCut Key.rank (capacity ty) k rid es := by
  intro hnot _ a e b hab _ x hx
  have hgrow : (grow Key.rank k rid es).Pairwise fun x y => x.1.rank < y.1.rank := by
    obtain ⟨p, q, hes, hins, hp, hq⟩ := insertBefore_eq (fun e => beyond Key.rank k e.1) (k, rid) es
    rw [grow, hins]
    rw [hes] at hsorted hnew
    refine pairwise_insert hsorted (fun w hw => ?_) (fun w hw => ?_)
    · refine lt_of_le_of_ne ?_ (hnew (by rw [← hes]; exact hnot) w (List.mem_append_left _ hw))
      simpa [beyond] using hp w hw
    · cases q with
      | nil => simp at hw
      | cons f q =>
        have hf : k.rank < f.1.rank := by simpa [beyond] using hq f rfl
        rcases List.mem_cons.1 hw with rfl | hw
        · exact hf
        · have hq := (List.pairwise_append.1 hsorted).2.1
          exact lt_trans hf ((List.pairwise_cons.1 hq).1 w hw)
  rw [hab] at hgrow
  exact (List.pairwise_append.1 hgrow).2.2 x hx e List.mem_cons_self

/-- Reinserting a pair of the leaf reached returns before any write. -/
theorem insertRecursive_present {k : Key ty} {rid : Rid} : ∀ (d : Nat)
    (t : PageTree ty d) (fuel : Nat), d < fuel → Repr s d t → (∀ q ∈ t.ids d, s.Used q) →
    Present Key.rank k rid (t.descend Key.rank k d).entries →
    insertRecursive k.bytes rid ty fuel t.rootId s = .ok .fit s
  | 0, t, fuel, hfuel, hr, hown, hpres => by
    obtain ⟨f, rfl⟩ := Nat.exists_eq_add_one.2 hfuel
    have hr : IsLeafPage (s.pages (Leaf.id t)) t := hr
    obtain ⟨b, hb, hiff⟩ := leafHasEntry_eq k rid _ _ hr.packed.tuples
    have hbt : b = true := hiff.2 hpres
    rw [insertRecursive, bind_ok (fetchPage_used (hown _ (rootId_mem_ids 0 t)))]
    rw [Tree.rootId, hr.kind]
    dsimp only
    rw [insertLeaf, hb, hbt, bind_ok (liftE_ok _ _)]
    rfl
  | d + 1, t, fuel, hfuel, hr, hown, hpres => by
    obtain ⟨f, rfl⟩ := Nat.exists_eq_add_one.2 (Nat.zero_lt_of_lt hfuel)
    have hrec := insertRecursive_present d _ f (by omega) (hr.2 _ (SepList.route_mem_items _))
      (fun q hq => hown q (by rw [ids_succ k t]; simp [hq])) hpres
    rw [insertRecursive, bind_ok (fetchPage_used (hown _ (rootId_mem_ids (d + 1) t)))]
    rw [Tree.rootId, hr.1.kind]
    dsimp only
    rw [childFor_repr hr k, bind_ok (liftE_ok _ _), bind_ok hrec]
    rfl

theorem insert_present {root d : Nat} {t : PageTree ty d} (h : Stored s root d t)
    {k : Key ty} {rid : Rid} (hpres : Present Key.rank k rid (t.descend Key.rank k d).entries) :
    insert root k.bytes rid ty s = .ok root s := by
  rw [insert, bind_ok (pageFuel_apply s), ← h.root_eq,
    bind_ok (insertRecursive_present d t _ h.depth_lt h.repr h.used hpres)]
  rfl

/-- A scan from `first_ge` in a strictly separated tree, when the links from
the leaf reached pass all entries behind it. -/
theorem firstGe_scan_of_chain {root d : Nat} {t : PageTree ty d}
    (h : Stored s root d t) (hord : Ordered Key.rank true (t.flat d)) (k : Key ty)
    {ls : List (LeafNode ty)} (hchain : ChainOn s ((t.flat d).route (upTo Key.rank k) :: ls))
    (hlen : ls.length < s.pageCount)
    (hes : ls.flatMap Leaf.entries = (t.flat d).after (upTo Key.rank k) Leaf.entries fun _ => []) :
    ∃ cursor, firstGe root k.bytes ty s = .ok cursor s ∧
      ∀ fuel, (entriesOf (t.flat d)).length < fuel → scanFrom fuel cursor s =
        .ok (rawEntries ((entriesOf (t.flat d)).filter fun e => decide (k.rank ≤ e.1.rank))) s := by
  obtain ⟨cursor, hrun, hcur⟩ := firstGeLoop_eq (n := s.pageCount + 1) h.wf k ls _
    (s.pageCount + 1) (by omega) (by omega) hchain
  rw [entriesFrom, List.drop_zero, hes, hord.scan_eq k] at hcur
  refine ⟨cursor, ?_, fun fuel hfuel => scanFrom_eq h.wf _ fuel cursor ?_ hcur⟩
  · rw [firstGe, bind_ok (descendToLeaf_eq h k), Tree.descend_eq_route d t hord,
      bind_ok (pageFuel_apply s)]
    exact hrun
  · exact lt_of_le_of_lt (List.length_filter_le _ _) hfuel

/-- The leaf level around the leaf a key is routed to. -/
theorem items_eq_route (s : SepList (Key ty) (LeafNode ty)) (k : Key ty) :
    s.items = s.before (upTo Key.rank k) (fun L => [L]) (fun _ => []) ++
      s.route (upTo Key.rank k) :: s.after (upTo Key.rank k) (fun L => [L]) (fun _ => []) := by
  have hitems : s.items = _ :=
    SepList.spell_eq (upTo Key.rank k) (fun L : LeafNode ty => [L]) (fun _ => []) s
  rw [hitems, List.append_assoc, List.singleton_append]

/-- A scan of a strictly separated tree from `first_ge`. -/
theorem firstGe_scan {root d : Nat} {t : PageTree ty d} (h : OnPages s root d t)
    (hord : Ordered Key.rank true (t.flat d)) (k : Key ty) :
    ∃ cursor, firstGe root k.bytes ty s = .ok cursor s ∧
      ∀ fuel, (entriesOf (t.flat d)).length < fuel → scanFrom fuel cursor s =
        .ok (rawEntries ((entriesOf (t.flat d)).filter fun e => decide (k.rank ≤ e.1.rank))) s := by
  have hlen := h.leaves_length_le
  have hchain := h.chainOn
  rw [items_eq_route (t.flat d) k] at hchain hlen
  simp only [List.length_append, List.length_cons] at hlen
  exact firstGe_scan_of_chain h.toStored hord k hchain.suffix (by omega)
    (SepList.after_flatMap _ _ _)

/-- Entries of one rank in strictly increasing order: there is at most one. -/
theorem length_le_one {r : List Int}
    (hlt : es.Pairwise fun x y => x.1.rank < y.1.rank) (hr : ∀ e ∈ es, e.1.rank = r) :
    es.length ≤ 1 := by
  match es, hlt, hr with
  | [], _, _ => simp
  | [_], _, _ => simp
  | x :: y :: rest, hlt, hr =>
    have hxy := (List.pairwise_cons.1 hlt).1 y List.mem_cons_self
    exact absurd ((hr x (by simp)).trans (hr y (by simp)).symm) hxy.ne

/-- Entries of distinct keys are as many as the pairs they are. -/
theorem length_eq_card {S : Finset (Key ty × Rid)}
    (hlt : es.Pairwise fun x y => x.1.rank < y.1.rank) (hmem : ∀ e, e ∈ es ↔ e ∈ S) :
    es.length = S.card := by
  have hnd : es.Nodup := by
    refine hlt.imp fun hxy heq => hxy.ne ?_
    rw [heq]
  rw [← List.toFinset_card_of_nodup hnd]
  exact congrArg Finset.card (Finset.ext fun e => by rw [List.mem_toFinset, hmem])

/-! ## Runs -/

/-- `root` is an empty leaf, as `init_leaf` leaves it. -/
structure EmptyLeaf (s : BufferPool) (root : Nat) : Prop where
  wf : s.WF
  used : s.Used root
  page : s.pages root = initLeaf (.new root)

/-- The key is free, or stored under the same rid. -/
def Insertable (S : Finset (Key ty × Rid)) (k : Key ty) (rid : Rid) : Prop :=
  ∀ r, (k, r) ∈ S → r = rid

/-- Successful calls from an empty leaf, the returned root being used by
the next call; `S` are the pairs inserted and not deleted since. -/
inductive Run (ty : DataType) (s₀ : BufferPool) (root₀ : Nat) :
    BufferPool → Nat → Finset (Key ty × Rid) → Prop
  | start : Run ty s₀ root₀ s₀ root₀ ∅
  | insert {s s' : BufferPool} {root root' : Nat} {S : Finset (Key ty × Rid)} (k : Key ty)
      (rid : Rid) : Run ty s₀ root₀ s root S → Insertable S k rid →
      insert root k.bytes rid ty s = .ok root' s' → Run ty s₀ root₀ s' root' (Insert.insert (k, rid) S)
  | delete {s s' : BufferPool} {root : Nat} {S : Finset (Key ty × Rid)} {b : Bool} (k : Key ty)
      (rid : Rid) : Run ty s₀ root₀ s root S → delete root k.bytes rid ty s = .ok b s' →
      Run ty s₀ root₀ s' root (S.erase (k, rid))

/-- What the store below `root` has to do to be the sorted map `S`. -/
structure IsSortedMap (s : BufferPool) (root : Nat) (S : Finset (Key ty × Rid)) : Prop where
  /-- `insert` returns `Ok` unless `new_page` fails. -/
  insert_ok : ∀ k rid, Insertable S k rid → ∀ e s', insert root k.bytes rid ty s = .error e s' →
    e = newPageError
  /-- `delete` returns `Ok`, with `true` exactly for a stored pair. -/
  delete_ok : ∀ (k : Key ty) rid, ∃ b s', delete root k.bytes rid ty s = .ok b s' ∧
    (b = true ↔ (k, rid) ∈ S)
  /-- All leaves are at one depth. -/
  one_depth : ∃ leaves d, inOrder root s = .ok leaves s ∧ ∀ x ∈ leaves, x.2 = d
  /-- The leaf chain lists the pairs in strictly increasing key order. -/
  chain : ∃ leaves es, leafChain root s = .ok leaves s ∧ leaves.flatMap Prod.snd = rawEntries es ∧
    (es.Pairwise fun x y => x.1.rank < y.1.rank) ∧ ∀ e, e ∈ es ↔ e ∈ S
  /-- Lookup finds the stored rid of the key and nothing else. -/
  lookup : ∀ k : Key ty, ∃ rids, lookupEq root k.bytes ty s = .ok rids s ∧ rids.length ≤ 1 ∧
    ∀ rid, rid ∈ rids ↔ (k, rid) ∈ S
  /-- A scan from `first_ge` lists the pairs from the target on. -/
  scan : ∀ k : Key ty, ∃ cursor es, firstGe root k.bytes ty s = .ok cursor s ∧
    (es.Pairwise fun x y => x.1.rank < y.1.rank) ∧
    (∀ e, e ∈ es ↔ e ∈ S ∧ k.rank ≤ e.1.rank) ∧
    ∀ fuel, S.card < fuel → scanFrom fuel cursor s = .ok (rawEntries es) s
  /-- Inserting a stored pair changes nothing. -/
  reinsert : ∀ k rid, (k, rid) ∈ S → insert root k.bytes rid ty s = .ok root s

/-- The invariant of runs: a strictly separated tree with distinct keys. -/
def SortedIndex (s : BufferPool) (root : Nat) (S : Finset (Key ty × Rid)) : Prop :=
  ∃ d, ∃ t : PageTree ty d, OnPages s root d t ∧ Ordered Key.rank true (t.flat d) ∧
    ((entriesOf (t.flat d)).Pairwise fun x y => x.1.rank < y.1.rank) ∧
    ∀ e, e ∈ entriesOf (t.flat d) ↔ e ∈ S

theorem onPages_emptyLeaf {root : Nat} (h : EmptyLeaf s root) :
    OnPages s root 0 (⟨root, NO_NEXT_PAGE, []⟩ : LeafNode ty) where
  wf := h.wf
  root_eq := rfl
  repr := by
    show IsLeafPage (s.pages root) (⟨root, NO_NEXT_PAGE, []⟩ : LeafNode ty)
    rw [h.page]
    exact ⟨rfl, rfl, rfl, packed_new root |>.tuples, rfl, (packed_new root).room⟩
  used q hq := (List.mem_singleton.1 hq) ▸ h.used
  nodup := List.nodup_cons.2 ⟨List.not_mem_nil, List.nodup_nil⟩
  linked := ⟨rfl, trivial⟩

theorem sortedIndex_emptyLeaf {root : Nat} (h : EmptyLeaf s root) :
    SortedIndex s root (∅ : Finset (Key ty × Rid)) :=
  ⟨0, _, onPages_emptyLeaf h, List.Pairwise.nil, List.Pairwise.nil, fun e => by
    simp [entriesOf, Tree.flat]⟩

section FixedWidth

variable {w : Nat} (hw : fixedWidth ty = some w) {s : BufferPool} {root : Nat}
  {S : Finset (Key ty × Rid)}

include hw

/-- For fixed-width keys the code's test for the pair is equality of pairs. -/
theorem present_iff_mem {k : Key ty} {rid : Rid} :
    Present Key.rank k rid es ↔ (k, rid) ∈ es := by
  constructor
  · rintro ⟨⟨k', r⟩, he, hk, rfl⟩
    have hkk : k' = k := Key.rank_inj hw hk
    exact hkk ▸ he
  · exact fun he => ⟨_, he, rfl, rfl⟩

theorem mem_dropPair {k : Key ty} {rid : Rid}
    (hlt : es.Pairwise fun x y => x.1.rank < y.1.rank) (e : Key ty × Rid) :
    e ∈ dropPair k rid es ↔ e ≠ (k, rid) ∧ e ∈ es := by
  induction es with
  | nil => simp [dropPair]
  | cons x es ih =>
    obtain ⟨hx, hes⟩ := List.pairwise_cons.1 hlt
    rw [dropPair, List.eraseP_cons]
    by_cases hxk : x.1.rank = k.rank ∧ x.2 = rid
    · have hxe : x = (k, rid) := Prod.ext (Key.rank_inj hw hxk.1) hxk.2
      have hnot : (k, rid) ∉ es := fun hmem => (hx _ hmem).ne (hxe ▸ rfl)
      simp only [and_self, decide_true, cond_true, List.mem_cons, hxe]
      constructor
      · exact fun he => ⟨fun h => hnot (h ▸ he), Or.inr he⟩
      · exact fun h => h.2.resolve_left h.1
    · have hxe : x ≠ (k, rid) := fun h => hxk (by simp [h])
      have ih := ih hes
      rw [dropPair] at ih
      simp only [hxk, decide_false, cond_false, List.mem_cons, ih]
      constructor
      · rintro (rfl | ⟨hne, he⟩)
        · exact ⟨hxe, Or.inl rfl⟩
        · exact ⟨hne, Or.inr he⟩
      · rintro ⟨hne, rfl | he⟩
        · exact Or.inl rfl
        · exact Or.inr ⟨hne, he⟩

section Entries

variable {ls : SepList (Key ty) (LeafNode ty)} (hord : Ordered Key.rank true ls)
  (hlt : (entriesOf ls).Pairwise fun x y => x.1.rank < y.1.rank)
  (hmem : ∀ e, e ∈ entriesOf ls ↔ e ∈ S) {k : Key ty} {rid : Rid}

include hord hmem

theorem present_route_iff :
    Present Key.rank k rid (ls.route (upTo Key.rank k)).entries ↔ (k, rid) ∈ S := by
  rw [hord.present_iff, present_iff_mem hw, hmem]

omit hord in
/-- A key that is not stored has a rank of its own. -/
theorem rank_ne_of_insertable (hk : Insertable S k rid) (hnot : (k, rid) ∉ S) :
    ∀ e ∈ entriesOf ls, e.1.rank ≠ k.rank := by
  rintro ⟨k', r⟩ he hrank
  obtain rfl := Key.rank_inj hw hrank
  exact hnot (hk r ((hmem _).1 he) ▸ (hmem _).1 he)

include hlt

/-- Distinct keys leave the leaf a clean cut. -/
theorem cleanCut_route (hk : Insertable S k rid) :
    CleanCut Key.rank (capacity ty) k rid (ls.route (upTo Key.rank k)).entries := by
  have hsub : (ls.route (upTo Key.rank k)).entries.Sublist (entriesOf ls) := by
    rw [(hord.around k).1]
    exact (List.sublist_append_right _ _).trans (List.sublist_append_left _ _)
  refine cleanCut_of_nodup (hlt.sublist hsub) fun hnot e he => ?_
  exact rank_ne_of_insertable hw hmem hk
    (fun h => hnot ((present_route_iff hw hord hmem).2 h)) e (hsub.subset he)

/-- The entries after an insertion. -/
theorem entries_insert (hk : Insertable S k rid) {g : Outcome (Key ty) (LeafNode ty)}
    (hg : LeafIns Key.rank (capacity ty) (ls.route (upTo Key.rank k)) k rid g)
    (hord' : Ordered Key.rank true (ls.graft (upTo Key.rank k) g.toSep)) :
    ((entriesOf (ls.graft (upTo Key.rank k) g.toSep)).Pairwise fun x y => x.1.rank < y.1.rank) ∧
      ∀ e, e ∈ entriesOf (ls.graft (upTo Key.rank k) g.toSep) ↔
        e ∈ Insert.insert (k, rid) S := by
  have hpres : Present Key.rank k rid (ls.route (upTo Key.rank k)).entries ↔ (k, rid) ∈ S :=
    present_route_iff hw hord hmem
  rcases entriesOf_graft hg with ⟨hp, heq⟩ | ⟨hp, hperm⟩
  · rw [heq]
    refine ⟨hlt, fun e => ?_⟩
    rw [hmem, Finset.insert_eq_self.2 (hpres.1 hp)]
  · have hnot : (k, rid) ∉ S := fun h => hp (hpres.2 h)
    refine ⟨?_, fun e => ?_⟩
    · -- sorted, and no two ranks are equal
      have hne : ((k, rid) :: entriesOf ls).Pairwise fun x y => x.1.rank ≠ y.1.rank :=
        List.pairwise_cons.2 ⟨fun e he => (rank_ne_of_insertable hw hmem hk hnot e he).symm,
          hlt.imp fun h => h.ne⟩
      have hne' := (hperm.pairwise_iff fun h => h.symm).2 hne
      exact hord'.entries_sorted.imp₂ (fun _ _ hle hne => lt_of_le_of_ne hle hne) hne'
    · rw [hperm.mem_iff, List.mem_cons, Finset.mem_insert, hmem]

/-- The entries after a deletion. -/
theorem entries_delete (k : Key ty) (rid : Rid) :
    ((entriesOf (ls.graft (upTo Key.rank k)
      (.single (removeFrom k rid (ls.route (upTo Key.rank k)))))).Pairwise
        fun x y => x.1.rank < y.1.rank) ∧
      ∀ e, e ∈ entriesOf (ls.graft (upTo Key.rank k)
        (.single (removeFrom k rid (ls.route (upTo Key.rank k))))) ↔ e ∈ S.erase (k, rid) := by
  obtain ⟨heq, hbefore, hafter⟩ := hord.around k
  rw [heq] at hlt
  have hleaf : (ls.route (upTo Key.rank k)).entries.Pairwise fun x y => x.1.rank < y.1.rank :=
    (List.pairwise_append.1 (List.pairwise_append.1 hlt).1).2.1
  have hsub : (removeFrom k rid (ls.route (upTo Key.rank k))).entries.Sublist
      (ls.route (upTo Key.rank k)).entries := dropPair_sublist k rid _
  rw [entriesOf, SepList.spell_graft, SepList.spell_single]
  refine ⟨hlt.sublist (((List.Sublist.refl _).append hsub).append (List.Sublist.refl _)),
    fun e => ?_⟩
  rw [Finset.mem_erase, ← hmem, heq]
  have hdrop : e ∈ dropPair k rid _ ↔ e ≠ (k, rid) ∧ e ∈ _ := mem_dropPair hw hleaf e
  simp only [List.mem_append, removeFrom, hdrop]
  constructor
  · rintro ((he | he) | he)
    · exact ⟨fun h => (hbefore e he).ne (h ▸ rfl), Or.inl (Or.inl he)⟩
    · exact ⟨he.1, Or.inl (Or.inr he.2)⟩
    · exact ⟨fun h => (hafter e he).ne' (h ▸ rfl), Or.inr he⟩
  · rintro ⟨hne, (he | he) | he⟩
    · exact Or.inl (Or.inl he)
    · exact Or.inl (Or.inr ⟨hne, he⟩)
    · exact Or.inr he

end Entries

/-- The step lemma of insertion. -/
theorem SortedIndex.insert (h : SortedIndex s root S) {k : Key ty} {rid : Rid}
    (hk : Insertable S k rid) : Succeeds (BTree.insert root k.bytes rid ty) s fun root' s' =>
      SortedIndex s' root' (Insert.insert (k, rid) S) := by
  obtain ⟨d, t, hon, hord, hlt, hmem⟩ := h
  refine Succeeds.imp (insert_strict hon hord k rid
    (splitsFit_of_fixedWidth hw k rid d t hon.repr) (cleanCut_route hw hord hlt hmem hk)) ?_
  rintro root' s' ⟨d', t', g, hon', hord', hg, hflat⟩
  refine ⟨d', t', hon', hord', ?_⟩
  rw [hflat] at hord' ⊢
  exact entries_insert hw hord hlt hmem hk hg hord'

/-- The step lemma of deletion. -/
theorem SortedIndex.delete (h : SortedIndex s root S) (k : Key ty) (rid : Rid) :
    ∃ b s', BTree.delete root k.bytes rid ty s = .ok b s' ∧ (b = true ↔ (k, rid) ∈ S) ∧
      SortedIndex s' root (S.erase (k, rid)) := by
  obtain ⟨d, t, hon, hord, hlt, hmem⟩ := h
  obtain ⟨b, s', hrun, hb, hst, -⟩ := delete_sim hon.toStored k rid
  have hroute := Tree.descend_eq_route (k := k) d t hord
  have hflat := Tree.flat_update (k := k) (f := removeFrom k rid) d t hord
  rw [hroute] at hflat
  refine ⟨b, s', hrun, ?_, d, _, ⟨hst, ?_⟩, ?_, ?_⟩
  · rw [hb, hroute, present_route_iff hw hord hmem]
  · -- the leaf keeps its id and its link
    have hlinked := hon.linked
    rw [hflat, SepList.items, SepList.spell_graft, SepList.spell_single]
    rw [SepList.items, SepList.spell_eq (upTo Key.rank k)] at hlinked
    rw [List.append_assoc, linked_append, linked_append] at hlinked ⊢
    exact hlinked
  · rw [hflat]
    exact ordered_graft_sublist hord (dropPair_sublist k rid _)
  · rw [hflat]
    exact entries_delete hw hord hlt hmem k rid

/-- What the invariant gives the callers. -/
theorem SortedIndex.isSortedMap (h : SortedIndex s root S) : IsSortedMap s root S := by
  have hins := fun k rid (hk : Insertable S k rid) => h.insert hw hk
  have hdel := h.delete hw
  obtain ⟨d, t, hon, hord, hlt, hmem⟩ := h
  have hcard := length_eq_card hlt hmem
  refine ⟨fun k rid hk e s' herr => ?_, fun k rid => ?_, ?_, ?_, fun k => ?_, fun k => ?_,
    fun k rid hk => ?_⟩
  · have := hins k rid hk
    unfold Succeeds at this
    rw [herr] at this
    exact this
  · obtain ⟨b, s', hrun, hb, -⟩ := hdel k rid
    exact ⟨b, s', hrun, hb⟩
  · exact ⟨_, d, inOrder_eq hon.toStored, by simp⟩
  · refine ⟨_, entriesOf (t.flat d), leafChain_eq hon, ?_, hlt, hmem⟩
    rw [entriesOf, SepList.spell_eq_flatMap_items, rawEntries, List.map_flatMap, List.flatMap_map]
    rfl
  · refine ⟨_, lookupEq_eq hon.toStored k, ?_, fun rid => ?_⟩
    all_goals rw [Tree.descend_eq_route d t hord, hord.lookup_eq k]
    · rw [List.length_map]
      refine length_le_one (hlt.sublist List.filter_sublist) (r := k.rank) fun e he => ?_
      simpa using (List.mem_filter.1 he).2
    · rw [← hmem, ← present_iff_mem hw]
      simp [Present, List.mem_map, List.mem_filter, and_assoc]
  · obtain ⟨cursor, hfirst, hscan⟩ := firstGe_scan hon hord k
    refine ⟨cursor, (entriesOf (t.flat d)).filter fun e => decide (k.rank ≤ e.1.rank), hfirst,
      hlt.sublist List.filter_sublist, fun e => ?_, fun fuel hfuel => ?_⟩
    · rw [List.mem_filter, hmem, decide_eq_true_eq]
    · exact hscan fuel (by rw [hcard]; exact hfuel)
  · refine insert_present hon.toStored ?_
    rw [Tree.descend_eq_route d t hord, hord.present_iff, present_iff_mem hw, hmem]
    exact hk

/-- Every state of a run carries the invariant. -/
theorem run_sortedIndex {s₀ : BufferPool} {root₀ : Nat} (h₀ : EmptyLeaf s₀ root₀)
    (hrun : Run ty s₀ root₀ s root S) : SortedIndex s root S := by
  induction hrun with
  | start => exact sortedIndex_emptyLeaf h₀
  | insert k rid _ hk hcall ih =>
    have hstep := ih.insert hw hk
    unfold Succeeds at hstep
    rw [hcall] at hstep
    exact hstep
  | delete k rid _ hcall ih =>
    obtain ⟨b, s', hdel, -, hstep⟩ := ih.delete hw k rid
    rw [hcall] at hdel
    cases hdel
    exact hstep

/-- **The B+Tree is a sorted map.** In every state that `insert` and
`delete` calls on a fixed-width index can reach from an empty leaf, when no
key is inserted while stored under another rid, the index is the sorted map
of the pairs stored: calls return `Ok` unless `new_page` fails, and the
leaf chain, lookups, scans, reinsertion and deletion agree with it. -/
theorem run_refines_sortedMap {s₀ : BufferPool} {root₀ : Nat} (h₀ : EmptyLeaf s₀ root₀)
    (hrun : Run ty s₀ root₀ s root S) : IsSortedMap s root S :=
  (run_sortedIndex hw h₀ hrun).isSortedMap hw

end FixedWidth

/-- The allocator's account of a step from `n` to `m` owned pages. -/
def Spent (s s' : BufferPool) (n m : Nat) : Prop :=
  s.room + n ≤ s'.room + m ∧ s'.pageCount + n ≤ s.pageCount + m

/-- With enough pages left an insertion returns `Ok`. -/
theorem Stored.insert_ok {root d : Nat} {t : PageTree ty d}
    (h : Stored s root d t) (k : Key ty) (rid : Rid)
    (hfit : SplitsFit Key.rank (capacity ty) k rid d t) (hroom : s.pageCount + 2 < s.room) :
    ∃ root' s' o d' t', insert root k.bytes rid ty s = .ok root' s' ∧
      Ins Key.rank (capacity ty) k rid d t o ∧ Rooted o d' t' ∧ Stored s' root' d' t' ∧
      Spent s s' (t.ids d).length (t'.ids d').length := by
  have hsim := insert_sim h k rid hfit
  unfold Succeeds at hsim
  cases hcall : insert root k.bytes rid ty s with
  | ok root' s' =>
    rw [hcall] at hsim
    obtain ⟨o, d', t', hrest⟩ := hsim
    exact ⟨root', s', o, d', t', rfl, hrest⟩
  | error e s' =>
    rw [hcall] at hsim
    have he : e = newPageError := hsim
    rw [he] at hcall
    have := insert_error_room hcall
    omega

/-- A root with two leaves. -/
def twoLeaves (root : Nat) (l : LeafNode ty) (k : Key ty) (r : LeafNode ty) : PageTree ty 1 :=
  Node.mk root (.cons l k (.single r))

section Fill

variable {s₀ : BufferPool} {root₀ : Nat} {P : BufferPool → Nat → List (Key ty × Rid) → Prop}

/-- `P` can be told of the insertion of `es`, one after the other, into a root leaf. -/
structure Told (s₀ : BufferPool) (root₀ : Nat) (P : BufferPool → Nat → List (Key ty × Rid) → Prop)
    (es : List (Key ty × Rid)) : Prop where
  start : P s₀ root₀ []
  insert : ∀ front e, front ++ [e] <+: es → ∀ s s' root',
    Stored s root₀ 0 (⟨root₀, NO_NEXT_PAGE, front⟩ : LeafNode ty) → P s root₀ front →
      insert root₀ e.1.bytes e.2 ty s = .ok root' s' → P s' root' (front ++ [e])

theorem Told.init {es : List (Key ty × Rid)} {e : Key ty × Rid} (h : Told s₀ root₀ P (es ++ [e])) :
    Told s₀ root₀ P es :=
  ⟨h.start, fun front x hx => h.insert front x (hx.trans (List.prefix_append es [e]))⟩

/-- A key that no entry is above goes behind them. -/
theorem grow_last {e : Key ty × Rid} (hle : (es ++ [e]).Pairwise fun x y => x.1.rank ≤ y.1.rank)
    (hrids : ((es ++ [e]).map Prod.snd).Nodup) :
    grow Key.rank e.1 e.2 es = es ++ [e] ∧ ¬ Present Key.rank e.1 e.2 es := by
  constructor
  · have h := grow_between (ρ := Key.rank) (k := e.1) (v := e.2) (a := es) (b := [])
      (fun x hx => (List.pairwise_append.1 hle).2.2 x hx e (List.mem_singleton_self e)) (by simp)
    rwa [List.append_nil] at h
  · rintro ⟨x, hx, -, hrid⟩
    rw [List.map_append, List.map_singleton, List.nodup_append] at hrids
    exact hrids.2.2 x.2 (List.mem_map_of_mem hx) e.2 (List.mem_singleton_self _) hrid

variable {w : Nat} (hw : fixedWidth ty = some w) (h₀ : EmptyLeaf s₀ root₀)
  (hroom : s₀.pageCount + 2 < s₀.room)

include hw h₀ hroom

/-- Entries inserted in key order fill the root leaf as long as they fit. -/
theorem fill_leaf (es : List (Key ty × Rid)) (hle : es.Pairwise fun x y => x.1.rank ≤ y.1.rank)
    (hrids : (es.map Prod.snd).Nodup) (hfit : HEADER_SIZE + es.length * (w + 12) ≤ PAGE_SIZE)
    (htold : Told s₀ root₀ P es) : ∃ s, P s root₀ es ∧
      Stored s root₀ 0 (⟨root₀, NO_NEXT_PAGE, es⟩ : LeafNode ty) ∧
      s₀.room ≤ s.room ∧ s.pageCount ≤ s₀.pageCount := by
  induction es using List.reverseRecOn with
  | nil => exact ⟨s₀, htold.start, (onPages_emptyLeaf h₀).toStored, le_rfl, le_rfl⟩
  | append_singleton es e ih =>
    rw [List.length_append, List.length_singleton] at hfit
    have hsub := List.sublist_append_left es [e]
    obtain ⟨s, hP, hst, hr, hc⟩ := ih (hle.sublist hsub) (hrids.sublist (hsub.map _))
      (le_trans (Nat.add_le_add_left (Nat.mul_le_mul_right _ (Nat.le_succ _)) _) hfit)
      htold.init
    obtain ⟨root', s', o, d', t', hcall, hins, hrooted, hst'⟩ :=
      hst.insert_ok e.1 e.2 (splitsFit_of_fixedWidth hw e.1 e.2 0 _ hst.repr) (by omega)
    have hins : LeafIns Key.rank (capacity ty) (⟨root₀, NO_NEXT_PAGE, es⟩ : LeafNode ty) e.1 e.2 o :=
      hins
    obtain ⟨hgrow, hnot⟩ := grow_last hle hrids
    have hfits : (capacity ty).leafFits (grow Key.rank e.1 e.2 es) := by
      rw [leafFits_iff hw, hgrow, List.length_append, List.length_singleton]
      exact hfit
    cases hins with
    | present hp => exact absurd hp hnot
    | split _ _ _ _ _ hfull => exact absurd hfits hfull
    | fit _ _ =>
      obtain ⟨hst', hr', hc'⟩ := hrooted.of_fit
        (P := fun d t => Stored s' root' d t ∧ Spent s s' 1 (t.ids d).length) hst'
      have hroot : root' = root₀ := hst'.root_eq.symm
      subst hroot
      have hr' : s.room + 1 ≤ s'.room + 1 := hr'
      have hc' : s'.pageCount + 1 ≤ s.pageCount + 1 := hc'
      refine ⟨s', htold.insert es e List.prefix_rfl s s' _ hst hP hcall, ?_, by omega, by omega⟩
      rw [← hgrow]
      exact hst'

/-- One entry too many splits the leaf. -/
theorem overfill_leaf {e : Key ty × Rid} (hle : (es ++ [e]).Pairwise fun x y => x.1.rank ≤ y.1.rank)
    (hrids : ((es ++ [e]).map Prod.snd).Nodup)
    (hfit : HEADER_SIZE + es.length * (w + 12) ≤ PAGE_SIZE)
    (hover : ¬ HEADER_SIZE + (es.length + 1) * (w + 12) ≤ PAGE_SIZE)
    (htold : Told s₀ root₀ P (es ++ [e])) :
    ∃ s root newId a m b, es ++ [e] = a ++ m :: b ∧ a.length = (es.length + 1) / 2 ∧
      P s root (es ++ [e]) ∧
      Stored s root 1 (twoLeaves root ⟨root₀, newId, a⟩ m.1 ⟨newId, NO_NEXT_PAGE, m :: b⟩) ∧
      s₀.room ≤ s.room + 2 ∧ s.pageCount ≤ s₀.pageCount + 2 := by
  have hsub := List.sublist_append_left es [e]
  obtain ⟨s, hP, hst, hr, hc⟩ := fill_leaf hw h₀ hroom es (hle.sublist hsub)
    (hrids.sublist (hsub.map _)) hfit htold.init
  obtain ⟨root', s', o, d', t', hcall, hins, hrooted, hst'⟩ :=
    hst.insert_ok e.1 e.2 (splitsFit_of_fixedWidth hw e.1 e.2 0 _ hst.repr) (by omega)
  have hins : LeafIns Key.rank (capacity ty) (⟨root₀, NO_NEXT_PAGE, es⟩ : LeafNode ty) e.1 e.2 o :=
    hins
  obtain ⟨hgrow, hnot⟩ := grow_last hle hrids
  have hfull : ¬ (capacity ty).leafFits (grow Key.rank e.1 e.2 es) := by
    rw [leafFits_iff hw, hgrow, List.length_append, List.length_singleton]
    exact hover
  cases hins with
  | present hp => exact absurd hp hnot
  | fit _ hfits => exact absurd hfits hfull
  | split newId a b m _ _ hab hlen _ _ =>
    obtain ⟨id, hst', hr', hc'⟩ := hrooted.of_split
      (P := fun d t => Stored s' root' d t ∧ Spent s s' 1 (t.ids d).length) hst'
    have hroot : id = root' := hst'.root_eq
    subst hroot
    have hr' : s.room + 1 ≤ s'.room + 3 := hr'
    have hc' : s'.pageCount + 1 ≤ s.pageCount + 3 := hc'
    rw [hgrow] at hab hlen
    rw [List.length_append, List.length_singleton] at hlen
    exact ⟨s', id, newId, a, m, b, hab, hlen, htold.insert es e List.prefix_rfl s s' id hst hP hcall,
      hst', by omega, by omega⟩

end Fill

theorem eq_of_rank_eq (hlt : es.Pairwise fun x y => x.1.rank < y.1.rank)
    {x y : Key ty × Rid} (hx : x ∈ es) (hy : y ∈ es) (h : x.1.rank = y.1.rank) : x = y := by
  have hnd : (es.map fun e => e.1.rank).Nodup := List.pairwise_map.2 (hlt.imp fun h => h.ne)
  exact List.inj_on_of_nodup_map hnd hx hy h

theorem insertable_of_sorted {S : Finset (Key ty × Rid)} {k : Key ty}
    {rid : Rid} (hlt : es.Pairwise fun x y => x.1.rank < y.1.rank) (hmem : (k, rid) ∈ es)
    (hS : ∀ e ∈ S, e ∈ es) : Insertable S k rid := fun _ hr =>
  congrArg Prod.snd (eq_of_rank_eq hlt (hS _ hr) hmem rfl)

/-- The insertions of distinct keys are a run. -/
theorem told_sorted {s₀ : BufferPool} {root₀ : Nat}
    (hlt : es.Pairwise fun x y => x.1.rank < y.1.rank) :
    Told s₀ root₀ (fun s root es => Run ty s₀ root₀ s root es.toFinset) es where
  start := .start
  insert front e hpre s s' root' _ hrun hcall := by
    have hset : (front ++ [e]).toFinset = Insert.insert (e.1, e.2) front.toFinset := by
      ext x
      simp
    rw [hset]
    refine .insert e.1 e.2 hrun (insertable_of_sorted hlt (hpre.subset (by simp)) fun x hx => ?_) hcall
    exact hpre.subset (List.mem_append_left _ (List.mem_toFinset.1 hx))

/-- A one-page file whose page is an empty leaf. -/
def emptyLeafPool (diskPages : Nat) (h : diskPages ≤ NO_NEXT_PAGE) : BufferPool where
  pages := fun p => initLeaf (.new p)
  pageCount := 1
  freeList := []
  diskPages := diskPages
  diskPages_le := h

theorem emptyLeaf_emptyLeafPool {n : Nat} (hn : n ≤ NO_NEXT_PAGE) (h1 : 1 ≤ n) :
    EmptyLeaf (emptyLeafPool n hn) 0 :=
  ⟨⟨List.nodup_nil, by simp [emptyLeafPool], h1⟩, ⟨Nat.one_pos, by simp [emptyLeafPool]⟩, rfl⟩

/-- The key of an INT value. -/
def intKey (n : Int32) : Key .int :=
  ⟨encodeKey (.int n), by rw [keyRank_encodeKey (w := 4) rfl rfl]; rfl⟩

theorem rank_intKey (n : Int32) : (intKey n).rank = [n.toInt] := by
  have h : keyRank .int (intKey n).bytes = some [n.toInt] := by
    show keyRank .int (encodeKey (.int n)) = _
    rw [keyRank_encodeKey (w := 4) rfl rfl]
    rfl
  exact Option.some.inj ((intKey n).keyRank_bytes.symm.trans h)

/-- The INT keys from 0 on, each with a rid of its own. -/
def ascending (n : Nat) : List (Key .int × Rid) :=
  (List.range n).map fun i => (intKey (Int32.ofNat i), (0, i))

theorem ascending_sorted {n : Nat} (hn : n < 2 ^ 31) :
    (ascending n).Pairwise fun x y => x.1.rank < y.1.rank := by
  rw [ascending, List.pairwise_map]
  refine List.pairwise_lt_range.imp_of_mem fun {i j} hi hj hij => ?_
  have hi := List.mem_range.1 hi
  have hj := List.mem_range.1 hj
  rw [rank_intKey, rank_intKey, Int32.toInt_ofNat_of_lt (by omega),
    Int32.toInt_ofNat_of_lt (by omega)]
  refine List.Lex.rel ?_
  omega

theorem ascending_succ (n : Nat) :
    ascending (n + 1) = ascending n ++ [(intKey (Int32.ofNat n), (0, n))] := by
  rw [ascending, List.range_succ, List.map_append]
  rfl

@[simp] theorem length_ascending (n : Nat) : (ascending n).length = n := by simp [ascending]

theorem nodup_ascending (n : Nat) : ((ascending n).map Prod.snd).Nodup := by
  rw [ascending, List.map_map]
  exact List.nodup_range.map fun i j h => (Prod.mk.inj h).2

/-- The front of a cut is an ascending list of its own. -/
theorem ascending_cut {n l : Nat} {a b : List (Key .int × Rid)} {m : Key .int × Rid}
    (hab : ascending l = a ++ m :: b) (hlen : a.length = n) :
    a = ascending n ∧ m.1 = intKey (Int32.ofNat n) := by
  have hn : n < l := by
    have h := congrArg List.length hab
    simp only [length_ascending, List.length_append, List.length_cons] at h
    omega
  have htake : a = (ascending l).take n := by rw [hab, List.take_left' hlen]
  have hget : (ascending l)[n]? = some m := by
    rw [hab, List.getElem?_append_right hlen.le, hlen, Nat.sub_self]
    rfl
  rw [ascending, List.getElem?_map, List.getElem?_range hn] at hget
  refine ⟨?_, (congrArg Prod.fst (Option.some.inj hget)).symm⟩
  rw [htake, ascending, ← List.map_take, List.take_range, Nat.min_eq_left hn.le]
  rfl

/-- 255 insertions, which split the root leaf, and a deletion. -/
theorem run_refines_sortedMap_split : ∃ s root,
    Run .int (emptyLeafPool 9 (by decide)) 0 s root ((ascending 255).toFinset.erase (intKey 3, (0, 3))) ∧
      root ≠ 0 ∧ IsSortedMap s root ((ascending 255).toFinset.erase (intKey 3, (0, 3))) := by
  have h₀ := emptyLeaf_emptyLeafPool (n := 9) (by decide) (by decide)
  have hsorted := ascending_sorted (n := 255) (by decide)
  obtain ⟨s, root, newId, a, m, b, -, -, hrun, hst, -, -⟩ := overfill_leaf (w := 4) rfl h₀ (by decide)
    (P := fun s root es => Run .int (emptyLeafPool 9 (by decide)) 0 s root es.toFinset)
    (ascending_succ 254 ▸ hsorted.imp fun h => h.le) (ascending_succ 254 ▸ nodup_ascending 255)
    (by rw [length_ascending]; decide) (by rw [length_ascending]; decide)
    (told_sorted (ascending_succ 254 ▸ hsorted))
  rw [← ascending_succ] at hrun
  have hroot : root ≠ 0 := fun h0 => by
    have hnodup : ([root, 0, newId] : List Nat).Nodup := hst.nodup
    simp [h0] at hnodup
  obtain ⟨b, s', hdelete, -, -⟩ := delete_sim hst (intKey 3) (0, 3)
  have hrun := hrun.delete (intKey 3) (0, 3) hdelete
  exact ⟨s', root, hrun, hroot, run_refines_sortedMap (w := 4) rfl h₀ hrun⟩

end Ccdb.BTree
