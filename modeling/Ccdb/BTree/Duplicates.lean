import Ccdb.BTree.SortedMap

/-!
# Ccdb — lookups in a non-unique index

`descend_to_leaf` follows one path, and `leaf_lookup_eq` reads one leaf. A
leaf split that cuts between two entries of one key leaves copies of the
key on both sides of its own separator, and the left ones are no longer
found. This module says which splits an insertion makes (`leafOverflow`,
`promoted`), when they are harmless (`SplitsOk`), and what follows for
whole runs of insertions.

Main results:

* `run_lookups_complete` — in a run whose splits never cut between equal
  keys every lookup and every scan finds all rids of the key.
* `lookup_misses_duplicates` — 255 copies of one INT key: the lookup
  returns half of them.
-/

namespace Ccdb.BTree

open Ccdb BPlus Page

/-! ## The splits of one insertion -/

/-- The entries a leaf would hold if it has to split for `(key, rid)`. -/
def leafOverflow (page : Page) (key : Bytes) (rid : Rid) (ty : DataType) :
    Option (List PageTuple) :=
  match leafHasEntry key rid ty page.slots with
  | .ok false =>
    if fits page (PageTuple.leaf key rid).len then none
    else (mergeEntry .btreeLeaf key (.leaf key rid) ty false page.slots).toOption
  | _ => none

/-- The entries an internal node would hold if it has to split for a new
separator; the child pointer does not matter for the space it takes. -/
def nodeOverflow (page : Page) (sepKey : Bytes) (ty : DataType) : Option (List PageTuple) :=
  if fits page (PageTuple.internal sepKey 0).len then none
  else (mergeEntry .btreeInternal sepKey (.internal sepKey 0) ty false page.slots).toOption

/-- The key of the entry in the middle. -/
def midKey (kind : PageKind) (entries : List PageTuple) : Option Bytes :=
  entries[entries.length / 2]?.bind fun raw => (entryKey kind raw).toOption

/-- The separator the subtree below a node passes to the node's parent. -/
def promoted (s : BufferPool) (key : Bytes) (rid : Rid) (ty : DataType) : Nat → Nat → Option Bytes
  | 0, _ => none
  | fuel + 1, node =>
    match (s.pages node).pageKind with
    | .btreeLeaf => (leafOverflow (s.pages node) key rid ty).bind (midKey .btreeLeaf)
    | .btreeInternal =>
      match childFor (s.pages node) key ty with
      | .ok child => (promoted s key rid ty fuel child).bind fun sep =>
          (nodeOverflow (s.pages node) sep ty).bind (midKey .btreeInternal)
      | .error _ => none
    | _ => none

/-- The two entries at the cut of a leaf have different keys. -/
def CutsApart (ty : DataType) (entries : List PageTuple) : Prop :=
  ∀ x y a b, entries[entries.length / 2 - 1]? = some x → entries[entries.length / 2]? = some y →
    entryKey .btreeLeaf x = .ok a → entryKey .btreeLeaf y = .ok b → compareKeys a b ty ≠ .ok .eq

/-- The halves of a leaf split fit on their pages. -/
def LeafHalvesFit (entries : List PageTuple) : Prop :=
  HEADER_SIZE + spaceOf (entries.take (entries.length / 2)) ≤ PAGE_SIZE ∧
    HEADER_SIZE + spaceOf (entries.drop (entries.length / 2)) ≤ PAGE_SIZE

/-- The halves of an internal split fit on their pages. -/
def NodeHalvesFit (entries : List PageTuple) : Prop :=
  HEADER_SIZE + spaceOf (entries.take (entries.length / 2)) ≤ PAGE_SIZE ∧
    HEADER_SIZE + spaceOf (entries.drop (entries.length / 2 + 1)) ≤ PAGE_SIZE

/-- The splits that inserting `(key, rid)` below `node` makes: the leaf is
not cut between equal keys, and the halves of every split fit. -/
def SplitsOk (s : BufferPool) (key : Bytes) (rid : Rid) (ty : DataType) : Nat → Nat → Prop
  | 0, _ => True
  | fuel + 1, node =>
    match (s.pages node).pageKind with
    | .btreeLeaf => ∀ entries, leafOverflow (s.pages node) key rid ty = some entries →
        CutsApart ty entries ∧ LeafHalvesFit entries
    | .btreeInternal => ∀ child, childFor (s.pages node) key ty = .ok child →
        SplitsOk s key rid ty fuel child ∧
        ∀ sep, promoted s key rid ty fuel child = some sep →
          ∀ entries, nodeOverflow (s.pages node) sep ty = some entries → NodeHalvesFit entries
    | _ => True

/-- The condition on one call: the key is one that `compare_keys` orders
(the type is not INTERVAL, the bytes decode, a DOUBLE is not NaN), and the
splits the call makes are harmless. -/
def InsertOk (s : BufferPool) (root : Nat) (key : Bytes) (rid : Rid) (ty : DataType) : Prop :=
  (keyRank ty key).isSome ∧ SplitsOk s key rid ty (s.pageCount + 1) root

variable {ty : DataType} {log : List (Bytes × Rid)} {k : Key ty}

/-! ## Page splits and tree splits -/

theorem leafOverflow_eq {page : Page} {L : LeafNode ty} (hp : IsLeafPage page L)
    {rid : Rid} (hnot : ¬ Present Key.rank k rid L.entries)
    (hfull : ¬ (capacity ty).leafFits (grow Key.rank k rid L.entries)) :
    leafOverflow page k.bytes rid ty = some (leafTuples (grow Key.rank k rid L.entries)) := by
  obtain ⟨b, hb, hiff⟩ := leafHasEntry_eq k rid L.entries _ hp.packed.tuples
  have hbf : b = false := by simpa using fun h => hnot (hiff.1 h)
  have hfits : ¬ fits page (PageTuple.leaf k.bytes rid).len = true := fun h =>
    hfull ((fits_iff (leafEntry ty) (fun e => beyond Key.rank k e.1) k rid hp.packed).1 h)
  have hmerge : mergeEntry .btreeLeaf k.bytes (.leaf k.bytes rid) ty false page.slots =
      .ok (leafTuples (grow Key.rank k rid L.entries)) :=
    mergeEntry_eq (leafEntry ty) k rid L.entries _ hp.packed.tuples
  rw [leafOverflow, hb, hbf]
  dsimp only
  rw [if_neg hfits, hmerge]
  rfl

theorem nodeOverflow_eq {page : Page} {id : Nat} {kids : SepList (Key ty) Nat}
    (hp : IsNodePage page id kids) {sep : Key ty}
    (hfull : ¬ (capacity ty).nodeFits (insertBefore (beyond Key.rank sep) sep kids.seps)) :
    nodeOverflow page sep.bytes ty = some (nodeTuples (insertBefore
      (fun e => beyond Key.rank sep e.1) (sep, 0) kids.tail)) := by
  have hroom : (capacity ty).nodeFits (insertBefore (beyond Key.rank sep) sep kids.seps) ↔
      HEADER_SIZE + spaceOf ((nodeEntry ty).tuples (insertBefore
        (fun e => beyond Key.rank sep e.1) (sep, 0) kids.tail)) ≤ PAGE_SIZE := by
    rw [← tail_insertSep, ← seps_insertSep (r := 0), SepList.seps_eq]
    show _ ↔ HEADER_SIZE + spaceOf (nodeTuples _) ≤ _
    rw [spaceOf_nodeTuples]
    rfl
  have hfits : ¬ fits page (PageTuple.internal sep.bytes 0).len = true := fun h =>
    hfull (hroom.2 ((fits_iff (nodeEntry ty) (fun e => beyond Key.rank sep e.1) sep 0
      hp.packed).1 h))
  have hmerge : mergeEntry .btreeInternal sep.bytes (.internal sep.bytes 0) ty false page.slots =
      .ok (nodeTuples (insertBefore (fun e => beyond Key.rank sep e.1) (sep, 0) kids.tail)) :=
    mergeEntry_eq (nodeEntry ty) sep 0 kids.tail _ hp.packed.tuples
  rw [nodeOverflow, if_neg hfits, hmerge]
  rfl

theorem midKey_leaf {es a b : List (Key ty × Rid)} {e : Key ty × Rid} (hes : es = a ++ e :: b)
    (hlen : a.length = es.length / 2) : midKey .btreeLeaf (leafTuples es) = some e.1.bytes := by
  have hget : es[es.length / 2]? = some e := by
    rw [← hlen, hes]
    simp
  rw [midKey, show (leafTuples es).length = es.length by simp [leafTuples], leafTuples,
    List.getElem?_map, hget]
  rfl

theorem midKey_node {es : List (Key ty × Nat)} {a b : List (Key ty)} {m : Key ty}
    (hes : es.map Prod.fst = a ++ m :: b) (hlen : a.length = es.length / 2) :
    midKey .btreeInternal (nodeTuples es) = some m.bytes := by
  have hget : (es.map Prod.fst)[es.length / 2]? = some m := by
    rw [← hlen, hes]
    simp
  rw [List.getElem?_map] at hget
  rw [midKey, show (nodeTuples es).length = es.length by simp [nodeTuples], nodeTuples,
    List.getElem?_map]
  cases hx : es[es.length / 2]? with
  | none => rw [hx] at hget; cases hget
  | some x =>
    rw [hx] at hget
    cases hget
    rfl

/-- `promoted` predicts the separator of a split. -/
theorem promoted_eq {s : BufferPool} {k : Key ty} {rid : Rid} : ∀ (d : Nat) (t l r : PageTree ty d)
    (sep : Key ty) (fuel : Nat), d < fuel → Repr s d t →
    Ins Key.rank (capacity ty) k rid d t (.split l sep r) →
    promoted s k.bytes rid ty fuel t.rootId = some sep.bytes
  | 0, t, l, r, sep, fuel, hfuel, hr, hins => by
    obtain ⟨f, rfl⟩ := Nat.exists_eq_add_one.2 hfuel
    have hr : IsLeafPage (s.pages (Leaf.id t)) t := hr
    have hins : LeafIns Key.rank (capacity ty) t k rid (.split l sep r) := hins
    cases hins with
    | split newId a b e hnot hfull hab hlen _ _ =>
      rw [promoted, Tree.rootId, hr.kind]
      dsimp only
      rw [leafOverflow_eq hr hnot hfull, Option.bind_some, midKey_leaf hab hlen]
  | d + 1, t, l, r, sep, fuel, hfuel, hr, hins => by
    obtain ⟨f, rfl⟩ := Nat.exists_eq_add_one.2 (Nat.zero_lt_of_lt hfuel)
    obtain ⟨oc, hoc, hn⟩ := hins
    cases hn with
    | split lc rc sc newId a b m hfull hcut hlen _ _ =>
      have hchild := promoted_eq d _ lc rc sc f (by omega) (hr.2 _ (SepList.route_mem_items _)) hoc
      have hseps := absorb_seps Key.rank (capacity ty) hoc
      rw [hseps] at hfull hlen
      rw [promoted, Tree.rootId, hr.1.kind]
      dsimp only
      rw [childFor_repr hr k]
      dsimp only
      rw [hchild, Option.bind_some, nodeOverflow_eq hr.1 (by rw [SepList.seps_map]; exact hfull),
        Option.bind_some]
      refine midKey_node (a := a.seps) (b := b.seps) ?_ ?_
      · rw [← tail_insertSep, ← SepList.seps_eq, seps_insertSep, SepList.seps_map, ← hseps, hcut,
          SepList.seps_append]
      · rw [hlen, insertBefore_length, insertBefore_length, SepList.seps_eq]
        simp [SepList.length_tail_map]

theorem leafTuples_take (es : List (Key ty × Rid)) (n : Nat) :
    leafTuples (es.take n) = (leafTuples es).take n := by
  simp [leafTuples, List.map_take]

theorem leafTuples_drop (es : List (Key ty × Rid)) (n : Nat) :
    leafTuples (es.drop n) = (leafTuples es).drop n := by
  simp [leafTuples, List.map_drop]

/-- `SplitsOk` on the pages is what the tree's insertion needs. -/
theorem splitsFit_of_splitsOk {s : BufferPool} {k : Key ty} {rid : Rid} : ∀ (d : Nat)
    (t : PageTree ty d) (fuel : Nat), d < fuel → Repr s d t →
    SplitsOk s k.bytes rid ty fuel t.rootId → SplitsFit Key.rank (capacity ty) k rid d t
  | 0, t, fuel, hfuel, hr, hok => by
    obtain ⟨f, rfl⟩ := Nat.exists_eq_add_one.2 hfuel
    have hr : IsLeafPage (s.pages (Leaf.id t)) t := hr
    rw [SplitsOk, Tree.rootId, hr.kind] at hok
    intro hnot hfull
    obtain ⟨hleft, hright⟩ := (hok _ (leafOverflow_eq hr hnot hfull)).2
    have hlen : (leafTuples (grow Key.rank k rid (Leaf.entries t))).length =
        (grow Key.rank k rid (Leaf.entries t)).length := by simp [leafTuples]
    rw [hlen, ← leafTuples_take] at hleft
    rw [hlen, ← leafTuples_drop] at hright
    exact ⟨hleft, hright⟩
  | d + 1, t, fuel, hfuel, hr, hok => by
    obtain ⟨f, rfl⟩ := Nat.exists_eq_add_one.2 (Nat.zero_lt_of_lt hfuel)
    rw [SplitsOk, Tree.rootId, hr.1.kind] at hok
    obtain ⟨hchild, hnode⟩ := hok _ (childFor_repr hr k)
    have hrc : Repr s d ((Node.kids t).route (upTo Key.rank k)) := hr.2 _ (SepList.route_mem_items _)
    refine ⟨splitsFit_of_splitsOk d _ f (by omega) hrc hchild, fun l sep r hins hfull => ?_⟩
    rw [← SepList.seps_map Tree.rootId] at hfull
    have hover := nodeOverflow_eq hr.1 hfull
    obtain ⟨hleft, hright⟩ := hnode _ (promoted_eq d _ l r sep f (by omega) hrc hins) _ hover
    -- the code's entry list and the tree's separators have the same keys
    have hkeys : (insertBefore (fun e => beyond Key.rank sep e.1) (sep, 0)
        ((Node.kids t).map Tree.rootId).tail).map Prod.fst =
          insertBefore (beyond Key.rank sep) sep (Node.kids t).seps := by
      rw [← tail_insertSep, ← SepList.seps_eq, seps_insertSep, SepList.seps_map]
    have hlen : (nodeTuples (insertBefore (fun e => beyond Key.rank sep e.1) (sep, 0)
        ((Node.kids t).map Tree.rootId).tail)).length =
          (insertBefore (beyond Key.rank sep) sep (Node.kids t).seps).length := by
      rw [← hkeys]
      simp [nodeTuples]
    have hspace : ∀ es : List (Key ty × Nat), HEADER_SIZE + spaceOf (nodeTuples es) ≤ PAGE_SIZE →
        (capacity ty).nodeFits (es.map Prod.fst) := by
      intro es h
      rw [spaceOf_nodeTuples] at h
      exact h
    rw [hlen, nodeTuples, ← List.map_take] at hleft
    rw [hlen, nodeTuples, ← List.map_drop] at hright
    have h1 := hspace _ hleft
    have h2 := hspace _ hright
    rw [List.map_take, hkeys] at h1
    rw [List.map_drop, hkeys] at h2
    exact ⟨h1, h2⟩

theorem cutsApart_of_splitsOk {s : BufferPool} {k : Key ty} {rid : Rid} : ∀ (d : Nat)
    (t : PageTree ty d) (fuel : Nat), d < fuel → Repr s d t →
    SplitsOk s k.bytes rid ty fuel t.rootId →
    ∀ es, leafOverflow (s.pages (t.descend Key.rank k d).id) k.bytes rid ty = some es →
      CutsApart ty es
  | 0, t, fuel, hfuel, hr, hok => by
    obtain ⟨f, rfl⟩ := Nat.exists_eq_add_one.2 hfuel
    have hr : IsLeafPage (s.pages (Leaf.id t)) t := hr
    rw [SplitsOk, Tree.rootId, hr.kind] at hok
    exact fun es hes => (hok es hes).1
  | d + 1, t, fuel, hfuel, hr, hok => by
    obtain ⟨f, rfl⟩ := Nat.exists_eq_add_one.2 (Nat.zero_lt_of_lt hfuel)
    rw [SplitsOk, Tree.rootId, hr.1.kind] at hok
    exact cutsApart_of_splitsOk d _ f (by omega) (hr.2 _ (SepList.route_mem_items _))
      (hok _ (childFor_repr hr k)).1

/-- In a sorted leaf a cut between different keys separates no equal ones. -/
theorem cleanCut_of_cutsApart {page : Page} {L : LeafNode ty} (hp : IsLeafPage page L)
    {rid : Rid} (hsorted : L.entries.Pairwise fun x y => x.1.rank ≤ y.1.rank)
    (hcut : ∀ es, leafOverflow page k.bytes rid ty = some es → CutsApart ty es) :
    CleanCut Key.rank (capacity ty) k rid L.entries := by
  intro hnot hfull a e b hab hlen x hx
  have happ := hcut _ (leafOverflow_eq hp hnot hfull)
  have hgrow : (a ++ e :: b).Pairwise fun x y => x.1.rank ≤ y.1.rank := by
    rw [← hab]
    exact grow_sorted hsorted
  obtain ⟨ha, hb, hcross⟩ := List.pairwise_append.1 hgrow
  -- compare with the last entry of the left half
  obtain ⟨a', y, rfl⟩ : ∃ a' y, a = a' ++ [y] := by
    refine ⟨a.dropLast, a.getLast (List.ne_nil_of_mem hx), ?_⟩
    rw [List.dropLast_concat_getLast]
  have hxy : x.1.rank ≤ y.1.rank := by
    rcases List.mem_append.1 hx with hx | hx
    · exact (List.pairwise_append.1 ha).2.2 x hx y (List.mem_singleton_self _)
    · rw [List.mem_singleton.1 hx]
  have hye : y.1.rank ≠ e.1.rank := by
    intro heq
    have hl : (leafTuples (grow Key.rank k rid L.entries)).length =
        (grow Key.rank k rid L.entries).length := by simp [leafTuples]
    rw [List.length_append, List.length_singleton] at hlen
    refine happ (.leaf y.1.bytes y.2) (.leaf e.1.bytes e.2) y.1.bytes e.1.bytes ?_ ?_ rfl rfl ?_
    · rw [hl, ← hlen, leafTuples, List.getElem?_map, hab]
      simp
    · rw [hl, ← hlen, leafTuples, List.getElem?_map, hab]
      simp
    · rw [Key.compareKeys_eq, heq]
      simp
  have hyle := hcross y (by simp) e List.mem_cons_self
  exact lt_of_le_of_lt hxy (lt_of_le_of_ne hyle hye)

/-! ## Runs of insertions -/

/-- Successful insertions from an empty leaf, each meeting `ok` in the state
it is made in; the log has the inserted pairs, last first. -/
inductive InsertRun (ty : DataType) (ok : BufferPool → Nat → Bytes → Rid → Prop)
    (s₀ : BufferPool) (root₀ : Nat) : BufferPool → Nat → List (Bytes × Rid) → Prop
  | start : InsertRun ty ok s₀ root₀ s₀ root₀ []
  | insert {s s' : BufferPool} {root root' : Nat} {log : List (Bytes × Rid)} (key : Bytes)
      (rid : Rid) : InsertRun ty ok s₀ root₀ s root log → ok s root key rid →
      insert root key rid ty s = .ok root' s' →
      InsertRun ty ok s₀ root₀ s' root' ((key, rid) :: log)

/-- Every rid inserted under a key is returned by the exact lookup, and by
the scan from `first_ge` continued while the key is equal. -/
def LookupsComplete (s : BufferPool) (root : Nat) (ty : DataType) (log : List (Bytes × Rid)) :
    Prop :=
  ∀ key rid, (key, rid) ∈ log →
    (∃ rids, lookupEq root key ty s = .ok rids s ∧ rid ∈ rids) ∧
    ∃ cursor es, firstGe root key ty s = .ok cursor s ∧
      (∀ fuel, log.length < fuel → scanFrom fuel cursor s = .ok es s) ∧
      rid ∈ (es.takeWhile fun e =>
        decide ((compareKeys e.1 key ty).toOption = some .eq)).map Prod.snd

/-- The invariant of runs: a strictly separated tree that holds the log. -/
def HoldsLog (ty : DataType) (s : BufferPool) (root : Nat) (log : List (Bytes × Rid)) : Prop :=
  ∃ d, ∃ t : PageTree ty d, OnPages s root d t ∧ Ordered Key.rank true (t.flat d) ∧
    (entriesOf (t.flat d)).length ≤ log.length ∧
    ∀ key rid, (key, rid) ∈ log → ∃ k : Key ty, k.bytes = key ∧
      Present Key.rank k rid (entriesOf (t.flat d))

theorem HoldsLog.insert {s : BufferPool} {root : Nat}
    (h : HoldsLog ty s root log) {key : Bytes} {rid : Rid} (hok : InsertOk s root key rid ty) :
    Succeeds (BTree.insert root key rid ty) s fun root' s' =>
      HoldsLog ty s' root' ((key, rid) :: log) := by
  obtain ⟨d, t, hon, hord, hlen, hlog⟩ := h
  obtain ⟨hkey, hsplits⟩ := hok
  obtain ⟨k, rfl⟩ : ∃ k : Key ty, k.bytes = key := ⟨⟨key, hkey⟩, rfl⟩
  rw [← hon.root_eq] at hsplits
  have hleaf := hon.repr.leaf_page d t _ (descend_mem_items k d t)
  have hsorted : (t.descend Key.rank k d).entries.Pairwise fun x y => x.1.rank ≤ y.1.rank := by
    have hall := hord.entries_sorted
    rw [(hord.around k).1] at hall
    rw [Tree.descend_eq_route d t hord]
    exact (List.pairwise_append.1 (List.pairwise_append.1 hall).1).2.1
  have hcut := cleanCut_of_cutsApart hleaf hsorted
    (cutsApart_of_splitsOk d t _ hon.depth_lt hon.repr hsplits)
  rw [Tree.descend_eq_route d t hord] at hcut
  refine Succeeds.imp (insert_strict hon hord k rid
    (splitsFit_of_splitsOk d t _ hon.depth_lt hon.repr hsplits) hcut) ?_
  rintro root' s' ⟨d', t', g, hon', hord', hg, hflat⟩
  refine ⟨d', t', hon', hord', ?_, fun key' rid' hmem => ?_⟩
  · rw [hflat]
    rcases entriesOf_graft hg with ⟨-, heq⟩ | ⟨-, hperm⟩
    · rw [heq, List.length_cons]
      omega
    · rw [hperm.length_eq, List.length_cons, List.length_cons]
      omega
  · rw [hflat]
    have hold : ∀ {k' : Key ty} {r : Rid}, Present Key.rank k' r (entriesOf (t.flat d)) →
        Present Key.rank k' r (entriesOf ((t.flat d).graft (upTo Key.rank k) g.toSep)) := by
      rintro k' r ⟨e, he, hek⟩
      rcases entriesOf_graft hg with ⟨-, heq⟩ | ⟨-, hperm⟩
      · exact ⟨e, by rw [heq]; exact he, hek⟩
      · exact ⟨e, hperm.mem_iff.2 (List.mem_cons_of_mem _ he), hek⟩
    rcases List.mem_cons.1 hmem with heq | hmem
    · obtain ⟨rfl, rfl⟩ := Prod.mk.inj heq
      refine ⟨k, rfl, ?_⟩
      rcases entriesOf_graft hg with ⟨hp, -⟩ | ⟨-, hperm⟩
      · exact hold (hord.present_iff.1 hp)
      · exact ⟨_, hperm.mem_iff.2 List.mem_cons_self, rfl, rfl⟩
    · obtain ⟨k', hk', hp⟩ := hlog key' rid' hmem
      exact ⟨k', hk', hold hp⟩

/-- In a sorted list that starts at the key's rank, the entries of that rank
come first. -/
theorem mem_takeWhile_equal {e : Key ty × Rid} (hrank : e.1.rank = k.rank)
    (es : List (Key ty × Rid)) (hsorted : es.Pairwise fun x y => x.1.rank ≤ y.1.rank)
    (hge : ∀ x ∈ es, k.rank ≤ x.1.rank) (hin : e ∈ es) :
    e.2 ∈ ((rawEntries es).takeWhile fun e =>
      decide ((compareKeys e.1 k.bytes ty).toOption = some .eq)).map Prod.snd := by
  induction es with
  | nil => simp at hin
  | cons x es ih =>
    obtain ⟨hx, hes⟩ := List.pairwise_cons.1 hsorted
    have hxk : x.1.rank = k.rank := by
      rcases List.mem_cons.1 hin with rfl | hin
      · exact hrank
      · exact le_antisymm (hrank ▸ hx e hin) (hge x List.mem_cons_self)
    have hcmp : (compareKeys x.1.bytes k.bytes ty).toOption = some .eq := by
      rw [Key.compareKeys_eq, hxk]
      simp [Except.toOption]
    rw [rawEntries, List.map_cons, List.takeWhile_cons_of_pos (by simpa using hcmp), List.map_cons,
      List.mem_cons]
    rcases List.mem_cons.1 hin with rfl | hin
    · exact Or.inl rfl
    · exact Or.inr (ih hes (fun y hy => hge y (List.mem_cons_of_mem _ hy)) hin)

theorem HoldsLog.lookupsComplete {s : BufferPool} {root : Nat}
    (h : HoldsLog ty s root log) : LookupsComplete s root ty log := by
  obtain ⟨d, t, hon, hord, hlen, hlog⟩ := h
  intro key rid hmem
  obtain ⟨k, rfl, e, he, hrank, rfl⟩ := hlog key rid hmem
  constructor
  · refine ⟨_, lookupEq_eq hon.toStored k, ?_⟩
    rw [Tree.descend_eq_route d t hord, hord.lookup_eq k]
    exact List.mem_map.2 ⟨e, List.mem_filter.2 ⟨he, by simpa using hrank⟩, rfl⟩
  · obtain ⟨cursor, hfirst, hscan⟩ := firstGe_scan hon hord k
    refine ⟨cursor, _, hfirst, fun fuel hfuel => hscan fuel (by omega), ?_⟩
    refine mem_takeWhile_equal hrank _ (hord.entries_sorted.sublist List.filter_sublist)
      (fun x hx => by simpa using (List.mem_filter.1 hx).2) ?_
    exact List.mem_filter.2 ⟨he, by simpa using hrank.ge⟩

theorem run_holdsLog {s₀ s : BufferPool} {root₀ root : Nat} (h₀ : EmptyLeaf s₀ root₀)
    (hrun : InsertRun ty (fun s root key rid => InsertOk s root key rid ty) s₀ root₀ s root log) :
    HoldsLog ty s root log := by
  induction hrun with
  | start =>
    exact ⟨0, _, onPages_emptyLeaf h₀, List.Pairwise.nil, Nat.le_refl _, fun _ _ h => by cases h⟩
  | insert key rid _ hok hcall ih =>
    have hstep := ih.insert hok
    unfold Succeeds at hstep
    rw [hcall] at hstep
    exact hstep

/-- **Complete lookups.** In every run of insertions that meet `InsertOk`,
every state answers lookups and scans completely, and a further call that
meets it returns `Ok` unless `new_page` fails. -/
theorem run_lookups_complete {s₀ s : BufferPool} {root₀ root : Nat} {log : List (Bytes × Rid)}
    (h₀ : EmptyLeaf s₀ root₀)
    (hrun : InsertRun ty (fun s root key rid => InsertOk s root key rid ty) s₀ root₀ s root log) :
    LookupsComplete s root ty log ∧
      ∀ key rid, InsertOk s root key rid ty → ∀ e s', insert root key rid ty s = .error e s' →
        e = newPageError := by
  have hlog := run_holdsLog h₀ hrun
  refine ⟨hlog.lookupsComplete, fun key rid hok e s' herr => ?_⟩
  have hstep := hlog.insert hok
  unfold Succeeds at hstep
  rw [herr] at hstep
  exact hstep

/-! ## Copies of one key -/

/-- `n` entries of one key, under the rids `(p, 0)`, `(p, 1)`, …. -/
def copies (k : Key ty) (p n : Nat) : List (Key ty × Rid) :=
  (List.range n).map fun i => (k, (p, i))

theorem copies_succ (k : Key ty) (p n : Nat) : copies k p (n + 1) = copies k p n ++ [(k, (p, n))] := by
  simp [copies, List.range_succ]

@[simp] theorem length_copies (k : Key ty) (p n : Nat) : (copies k p n).length = n := by
  simp [copies]

theorem rank_of_mem_copies {p n : Nat} {e : Key ty × Rid} (h : e ∈ copies k p n) :
    e.1 = k ∧ e.2.1 = p ∧ e.2.2 < n := by
  obtain ⟨i, hi, rfl⟩ := List.mem_map.1 h
  exact ⟨rfl, rfl, List.mem_range.1 hi⟩

theorem rids_copies (k : Key ty) (p n : Nat) :
    (copies k p n).map Prod.snd = (List.range n).map fun i => (p, i) := by
  simp [copies]

theorem nodup_rids_copies (k : Key ty) (p n : Nat) : ((copies k p n).map Prod.snd).Nodup := by
  rw [rids_copies]
  exact List.nodup_range.map fun i j h => congrArg Prod.snd h

theorem fst_of_mem_rids {p n : Nat} {rid : Rid}
    (h : rid ∈ (copies k p n).map Prod.snd) : ∃ i, rid = (p, i) := by
  rw [rids_copies] at h
  obtain ⟨i, -, rfl⟩ := List.mem_map.1 h
  exact ⟨i, rfl⟩

theorem copies_sorted (k : Key ty) (p n : Nat) :
    (copies k p n).Pairwise fun x y => x.1.rank ≤ y.1.rank :=
  List.pairwise_of_forall_mem_list fun x hx y hy => by
    rw [(rank_of_mem_copies hx).1, (rank_of_mem_copies hy).1]

/-- Insertions that all meet `ok` are a run of insertions. -/
theorem told_log {s₀ : BufferPool} {root₀ : Nat} (ok : BufferPool → Nat → Bytes → Rid → Prop)
    {es : List (Key ty × Rid)} (hok : ∀ front e, front ++ [e] <+: es → ∀ s,
      Stored s root₀ 0 (⟨root₀, NO_NEXT_PAGE, front⟩ : LeafNode ty) → ok s root₀ e.1.bytes e.2) :
    Told s₀ root₀ (fun s root es => InsertRun ty ok s₀ root₀ s root (rawEntries es).reverse) es where
  start := .start
  insert front e hpre s s' root' hst hrun hcall := by
    have hlog : (rawEntries (front ++ [e])).reverse =
        (e.1.bytes, e.2) :: (rawEntries front).reverse := by
      simp [rawEntries]
    rw [hlog]
    exact .insert e.1.bytes e.2 hrun (hok front e hpre s hst) hcall

theorem leafOverflow_none {page : Page} {L : LeafNode ty} (hp : IsLeafPage page L)
    {rid : Rid} (hnot : ¬ Present Key.rank k rid L.entries)
    (hfit : (capacity ty).leafFits (grow Key.rank k rid L.entries)) :
    leafOverflow page k.bytes rid ty = none := by
  obtain ⟨b, hb, hiff⟩ := leafHasEntry_eq k rid L.entries _ hp.packed.tuples
  have hbf : b = false := by simpa using fun h => hnot (hiff.1 h)
  have hfits : fits page (PageTuple.leaf k.bytes rid).len = true :=
    (fits_iff (leafEntry ty) (fun e => beyond Key.rank k e.1) k rid hp.packed).2 hfit
  rw [leafOverflow, hb, hbf]
  dsimp only
  rw [if_pos hfits]

/-- A root leaf of a fixed-width key type may split where two keys meet. -/
theorem insertOk_rootLeaf {w : Nat} (hw : fixedWidth ty = some w) {s : BufferPool} {root : Nat}
    {es : List (Key ty × Rid)}
    (hst : Stored s root 0 (⟨root, NO_NEXT_PAGE, es⟩ : LeafNode ty)) {rid : Rid}
    (hnot : ¬ Present Key.rank k rid es)
    (hcut : ¬ (capacity ty).leafFits (grow Key.rank k rid es) →
      CutsApart ty (leafTuples (grow Key.rank k rid es))) : InsertOk s root k.bytes rid ty := by
  have hpage : IsLeafPage (s.pages root) (⟨root, NO_NEXT_PAGE, es⟩ : LeafNode ty) := hst.repr
  refine ⟨k.2, ?_⟩
  rw [SplitsOk, hpage.kind]
  intro entries hover
  by_cases hfit : (capacity ty).leafFits (grow Key.rank k rid es)
  · rw [leafOverflow_none hpage hnot hfit] at hover
    cases hover
  · rw [leafOverflow_eq hpage hnot hfit] at hover
    cases hover
    obtain ⟨hleft, hright⟩ := splitsFit_of_fixedWidth hw k rid 0 _ hst.repr hnot hfit
    have hlen : (leafTuples (grow Key.rank k rid es)).length = (grow Key.rank k rid es).length := by
      simp [leafTuples]
    refine ⟨hcut hfit, ?_⟩
    rw [LeafHalvesFit, hlen, ← leafTuples_take, ← leafTuples_drop]
    exact ⟨hleft, hright⟩

/-- 127 copies of the key 5, then 127 of the key 7: a full leaf. -/
def fivesAndSevens : List (Key .int × Rid) := copies (intKey 5) 0 127 ++ copies (intKey 7) 1 127

theorem fivesAndSevens_succ : fivesAndSevens ++ [(intKey 7, (1, 127))] =
    copies (intKey 5) 0 127 ++ copies (intKey 7) 1 128 := by
  rw [fivesAndSevens, copies_succ (intKey 7) 1 127, List.append_assoc]

@[simp] theorem length_fivesAndSevens : fivesAndSevens.length = 254 := by simp [fivesAndSevens]

theorem fivesAndSevens_sorted : (fivesAndSevens ++ [(intKey 7, (1, 127))]).Pairwise
    fun x y : Key .int × Rid => x.1.rank ≤ y.1.rank := by
  rw [fivesAndSevens_succ]
  refine List.pairwise_append.2 ⟨copies_sorted _ _ _, copies_sorted _ _ _, fun x hx y hy => ?_⟩
  rw [(rank_of_mem_copies hx).1, (rank_of_mem_copies hy).1, rank_intKey, rank_intKey]
  decide

theorem nodup_fivesAndSevens : ((fivesAndSevens ++ [(intKey 7, (1, 127))]).map Prod.snd).Nodup := by
  rw [fivesAndSevens_succ, List.map_append]
  refine List.nodup_append.2 ⟨nodup_rids_copies _ _ _, nodup_rids_copies _ _ _, ?_⟩
  intro x hx y hy hxy
  obtain ⟨n, rfl⟩ := fst_of_mem_rids hx
  obtain ⟨m, rfl⟩ := fst_of_mem_rids hy
  cases hxy

/-- The leaf of fives and sevens is cut where they meet. -/
theorem fivesAndSevens_cut :
    CutsApart .int (leafTuples (fivesAndSevens ++ [(intKey 7, (1, 127))])) := by
  rw [fivesAndSevens_succ]
  intro x y a b hx hy ha hb
  have hlen : (leafTuples (copies (intKey 5) 0 127 ++ copies (intKey 7) 1 128)).length / 2 = 127 := by
    simp [leafTuples]
  rw [hlen, leafTuples, List.getElem?_map] at hx hy
  rw [List.getElem?_append_left (by simp), copies, List.getElem?_map,
    List.getElem?_range (by decide)] at hx
  rw [List.getElem?_append_right (by simp), copies, List.getElem?_map,
    List.getElem?_range (by simp)] at hy
  cases hx
  cases hy
  cases ha
  cases hb
  rw [Key.compareKeys_eq, rank_intKey, rank_intKey]
  decide

/-- Copies of two keys, and a split between them. -/
theorem run_lookups_complete_copies : ∃ s root,
    InsertRun .int (fun s root key rid => InsertOk s root key rid .int) (emptyLeafPool 9 (by decide)) 0
      s root (rawEntries (fivesAndSevens ++ [(intKey 7, (1, 127))])).reverse ∧ root ≠ 0 ∧
    LookupsComplete s root .int (rawEntries (fivesAndSevens ++ [(intKey 7, (1, 127))])).reverse := by
  have h₀ := emptyLeaf_emptyLeafPool (n := 9) (by decide) (by decide)
  have hsorted := fivesAndSevens_sorted
  have hrids := nodup_fivesAndSevens
  obtain ⟨s, root, newId, a, m, b, -, -, hrun, hst, -, -⟩ := overfill_leaf (w := 4) rfl h₀ (by decide)
    hsorted hrids (by rw [length_fivesAndSevens]; decide) (by rw [length_fivesAndSevens]; decide)
    (told_log (fun s root key rid => InsertOk s root key rid .int) fun front e hpre s hst => by
      obtain ⟨hgrow, hnot⟩ := grow_last (hsorted.sublist hpre.sublist)
        (hrids.sublist (hpre.sublist.map _))
      refine insertOk_rootLeaf (w := 4) rfl hst hnot fun hfull => ?_
      -- only the last insertion finds the leaf full
      have hlen : (fivesAndSevens ++ [(intKey 7, (1, 127))]).length ≤ (front ++ [e]).length := by
        rw [hgrow, leafFits_iff (w := 4) rfl] at hfull
        simp only [HEADER_SIZE, PAGE_SIZE] at hfull
        rw [List.length_append, length_fivesAndSevens, List.length_singleton]
        omega
      rw [hgrow, hpre.eq_of_length_le hlen]
      exact fivesAndSevens_cut)
  have hroot : root ≠ 0 := fun h0 => by
    have hnodup : ([root, 0, newId] : List Nat).Nodup := hst.nodup
    simp [h0] at hnodup
  exact ⟨s, root, hrun, hroot, (run_lookups_complete h₀ hrun).1⟩

/-- **Lookups miss duplicates.** 255 insertions of the INT key 7 under
different rids all return `Ok`; afterwards the lookup of 7 does not return
the first rid. -/
theorem lookup_misses_duplicates : ∃ s root,
    InsertRun .int (fun _ _ _ _ => True) (emptyLeafPool 9 (by decide)) 0 s root
      (rawEntries (copies (intKey 7) 0 255)).reverse ∧
    ¬ LookupsComplete s root .int (rawEntries (copies (intKey 7) 0 255)).reverse := by
  have h₀ := emptyLeaf_emptyLeafPool (n := 9) (by decide) (by decide)
  have hsucc : copies (intKey 7) 0 255 = copies (intKey 7) 0 254 ++ [(intKey 7, (0, 254))] :=
    copies_succ _ _ 254
  obtain ⟨s, root, newId, a, m, b, hab, hlen, hrun, hst, -, -⟩ := overfill_leaf (w := 4) rfl h₀
    (by decide) (hsucc ▸ copies_sorted _ _ _) (hsucc ▸ nodup_rids_copies _ _ _)
    (by rw [length_copies]; decide) (by rw [length_copies]; decide)
    (told_log (fun _ _ _ _ => True) fun _ _ _ _ _ => trivial)
  rw [← hsucc] at hab hrun
  rw [length_copies] at hlen
  refine ⟨s, root, hrun, fun hcomplete => ?_⟩
  have hmem : ((intKey 7).bytes, (0, 0)) ∈ (rawEntries (copies (intKey 7) 0 255)).reverse := by
    rw [List.mem_reverse]
    exact List.mem_map.2 ⟨(intKey 7, (0, 0)), List.mem_map.2 ⟨0, by decide, rfl⟩, rfl⟩
  obtain ⟨⟨rids, hlookup, hrid⟩, -⟩ := hcomplete _ _ hmem
  rw [lookupEq_eq hst (intKey 7)] at hlookup
  cases hlookup
  -- the descent goes right of the separator 7, where the rids start at 127
  obtain ⟨e, he, hrid⟩ := List.mem_map.1 hrid
  have he := (List.takeWhile_sublist _).subset (List.mem_filter.1 he).1
  have hm : m.1 = intKey 7 := (rank_of_mem_copies (hab ▸ List.mem_append_right a List.mem_cons_self)).1
  have hright : Tree.descend Key.rank (intKey 7) 1
      (twoLeaves root ⟨0, newId, a⟩ m.1 ⟨newId, NO_NEXT_PAGE, m :: b⟩) =
        (⟨newId, NO_NEXT_PAGE, m :: b⟩ : LeafNode .int) := by
    simp [twoLeaves, Tree.descend, SepList.route, upTo, hm]
  have hdrop : m :: b = (copies (intKey 7) 0 255).drop 127 := by
    rw [hab, List.drop_left' hlen]
  rw [hright, hdrop, copies, ← List.map_drop, List.mem_map] at he
  obtain ⟨i, hi, rfl⟩ := he
  have hzero : i = 0 := congrArg Prod.snd hrid
  subst hzero
  revert hi
  decide

end Ccdb.BTree
