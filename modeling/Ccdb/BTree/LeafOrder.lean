import Ccdb.Lib.BPlusTies
import Ccdb.BTree.Duplicates

/-!
# Ccdb — leaf order with repeated keys

Two orders of the leaves: along `next_page_id` from `leftmost_leaf`, and as
the internal nodes list them. They part when a leaf split promotes a key
equal to the separator that follows the leaf, since `insert_sorted` puts the
new entry behind all equal ones. A full 4-byte leaf has an even number of
entries, and the count of `BPlus.Counted` excludes the tie; an 8-byte leaf
holds 203, and it can happen.

Main results:

* `run_leafOrder` — in every run the two orders agree, for 4-byte keys
  without condition, for 8-byte keys when no insertion ties (`TieFree`).
* `leaf_order_breaks` — 204 copies of one TIME key, then 102 of a smaller
  one: the traversal and the chain disagree.
-/

namespace Ccdb.BTree

open Ccdb BPlus Page

/-! ## Ties -/

/-- The key of the first entry beyond `key`, which is the separator that
follows the child `key` is sent to. -/
def nextSeparator (page : Page) (key : Bytes) (ty : DataType) : Option Bytes :=
  page.slots.findSome? fun slot =>
    match (unwrapTuple slot).bind (entryKey .btreeInternal) with
    | .ok sep => if compareKeys sep key ty = .ok .gt then some sep else none
    | .error _ => none

/-- On the way down to the leaf for `key`: if the leaf splits, the key it
promotes is not equal to the separator that follows the leaf in its parent. -/
def TieFree (s : BufferPool) (key : Bytes) (rid : Rid) (ty : DataType) : Nat → Nat → Prop
  | 0, _ => True
  | fuel + 1, node =>
    match (s.pages node).pageKind with
    | .btreeInternal => ∀ child, childFor (s.pages node) key ty = .ok child →
        (∀ entries sep next, (s.pages child).pageKind = .btreeLeaf →
          leafOverflow (s.pages child) key rid ty = some entries →
          midKey .btreeLeaf entries = some sep →
          nextSeparator (s.pages node) key ty = some next → compareKeys sep next ty ≠ .ok .eq) ∧
        TieFree s key rid ty fuel child
    | _ => True

/-- The condition on one call: the key decodes, and for 8-byte keys the leaf
split does not tie. -/
def OrderOk (s : BufferPool) (root : Nat) (key : Bytes) (rid : Rid) (ty : DataType) : Prop :=
  (keyRank ty key).isSome ∧
    (fixedWidth ty = some 4 ∨ TieFree s key rid ty (s.pageCount + 1) root)

variable {ty : DataType} {log : List (Bytes × Rid)}

theorem nextSeparator_eq {page : Page} {id : Nat} {kids : SepList (Key ty) Nat}
    (hp : IsNodePage page id kids) (k : Key ty) :
    nextSeparator page k.bytes ty = (kids.nextSep (upTo Key.rank k)).map Key.bytes := by
  have hall : ∀ (kids : SepList (Key ty) Nat) (slots : List Slot),
      Holds slots (nodeTuples kids.tail) →
      (slots.findSome? fun slot =>
        match (unwrapTuple slot).bind (entryKey .btreeInternal) with
        | .ok sep => if compareKeys sep k.bytes ty = .ok .gt then some sep else none
        | .error _ => none) = (kids.nextSep (upTo Key.rank k)).map Key.bytes := by
    intro kids
    induction kids with
    | single c =>
      intro slots h
      rw [holds_nil h]
      rfl
    | cons c m rest ih =>
      intro slots h
      obtain ⟨slot, slots, rfl, hs, hrest⟩ := holds_cons h
      have hkey : (unwrapTuple slot).bind (entryKey .btreeInternal) = .ok m.bytes := by
        rw [unwrapTuple_eq hs]
        rfl
      rw [List.findSome?_cons, hkey, SepList.nextSep]
      dsimp only
      rw [Key.compareKeys_eq]
      by_cases hm : m.rank ≤ k.rank
      · have hup : upTo Key.rank k m = true := by simpa [upTo] using hm
        rw [if_pos hup, ← ih slots hrest]
        have hnot : ¬ (Except.ok (if m.rank < k.rank then Ordering.lt else
            if m.rank = k.rank then .eq else .gt) : Except DbError Ordering) = .ok .gt := by
          rcases lt_or_eq_of_le hm with hlt | heq
          · simp [hlt]
          · simp [heq]
        rw [if_neg hnot]
      · have hup : ¬ upTo Key.rank k m = true := by simpa [upTo] using hm
        have hlt : ¬ m.rank < k.rank := fun h => hm h.le
        have hne : ¬ m.rank = k.rank := fun h => hm h.le
        rw [if_neg hup, if_neg hlt, if_neg hne, if_pos rfl]
        rfl
  exact hall kids _ hp.packed.tuples

/-- `TieFree` on the pages is what the tree's insertion needs. -/
theorem noLeafTie_of_tieFree {s : BufferPool} {k : Key ty} {rid : Rid} : ∀ (d : Nat)
    (t : PageTree ty d) (fuel : Nat), d < fuel → Repr s d t →
    TieFree s k.bytes rid ty fuel t.rootId → NoLeafTie Key.rank (capacity ty) k rid d t
  | 0, _, _, _, _, _ => trivial
  | d + 1, t, fuel, hfuel, hr, hfree => by
    obtain ⟨f, rfl⟩ := Nat.exists_eq_add_one.2 (Nat.zero_lt_of_lt hfuel)
    rw [TieFree, Tree.rootId, hr.1.kind] at hfree
    obtain ⟨hhere, hbelow⟩ := hfree _ (childFor_repr hr k)
    have hrc : Repr s d ((Node.kids t).route (upTo Key.rank k)) := hr.2 _ (SepList.route_mem_items _)
    refine ⟨fun hd l sep r hins x hx => ?_, noLeafTie_of_tieFree d _ f (by omega) hrc hbelow⟩
    subst hd
    have hleaf : IsLeafPage (s.pages (Leaf.id ((Node.kids t).route (upTo Key.rank k)))) _ := hrc
    have hins : LeafIns Key.rank (capacity ty) ((Node.kids t).route (upTo Key.rank k)) k rid
      (.split l sep r) := hins
    cases hins with
    | split newId a b e hnot hfull hab hlen _ _ =>
      have hnext : nextSeparator (s.pages (Node.id t)) k.bytes ty = some x.bytes := by
        have hx' : ((Node.kids t).map Tree.rootId).nextSep (upTo Key.rank k) = some x := by
          rw [SepList.nextSep_map]
          exact hx
        rw [nextSeparator_eq hr.1, hx']
        rfl
      have hne := hhere _ e.1.bytes x.bytes hleaf.kind (leafOverflow_eq hleaf hnot hfull)
        (midKey_leaf hab hlen) hnext
      intro heq
      have heq : e.1.rank = x.rank := heq
      rw [Key.compareKeys_eq, heq] at hne
      simp at hne

/-! ## Runs -/

/-- The leaf chain holds every pair of the log once, in non-decreasing key
order, and visits the leaves as the in-order traversal does. -/
def LeafOrder (s : BufferPool) (root : Nat) (ty : DataType) (log : List (Bytes × Rid)) : Prop :=
  ∃ chain order, leafChain root s = .ok chain s ∧ inOrder root s = .ok order s ∧
    (chain.flatMap Prod.snd).Perm log ∧
    ((chain.flatMap Prod.snd).Pairwise fun x y =>
      compareKeys x.1 y.1 ty = .ok .lt ∨ compareKeys x.1 y.1 ty = .ok .eq) ∧
    chain.map Prod.fst = order.map Prod.fst

/-- Half of a full leaf, where a full leaf is even. -/
def leafHalf : Nat := 127

/-- Half of a full internal node. -/
def nodeHalf (ty : DataType) : Nat := if fixedWidth ty = some 4 then 145 else 113

def evenLeaves (ty : DataType) : Bool := fixedWidth ty = some 4

theorem leafFits_even {w : Nat} (hw : fixedWidth ty = some w) (he : evenLeaves ty = true)
    (es : List (Key ty × Rid)) : (capacity ty).leafFits es ↔ es.length ≤ 2 * leafHalf := by
  have hw4 : w = 4 := by
    have h : fixedWidth ty = some 4 := by simpa [evenLeaves] using he
    rw [hw] at h
    exact Option.some.inj h
  rw [leafFits_iff hw, hw4]
  simp only [HEADER_SIZE, PAGE_SIZE, leafHalf]
  omega

theorem nodeFits_even {w : Nat} (hw : fixedWidth ty = some w) (ks : List (Key ty)) :
    (capacity ty).nodeFits ks ↔ ks.length ≤ 2 * nodeHalf ty := by
  rw [nodeFits_iff hw, nodeHalf]
  have hcase : w = 4 ∨ w = 8 := by
    cases ty <;> simp [fixedWidth] at hw <;> omega
  rcases hcase with rfl | rfl
  · rw [if_pos hw]
    simp only [HEADER_SIZE, PAGE_SIZE]
    omega
  · rw [if_neg (by rw [hw]; decide)]
    simp only [HEADER_SIZE, PAGE_SIZE]
    omega

/-- The invariant of runs: an ordered and counted tree that holds the log. -/
def CountedLog (ty : DataType) (s : BufferPool) (root : Nat) (log : List (Bytes × Rid)) : Prop :=
  ∃ d, ∃ t : PageTree ty d, OnPages s root d t ∧ Ordered Key.rank false (t.flat d) ∧
    Counted Key.rank (capacity ty) (evenLeaves ty) leafHalf (nodeHalf ty) d none t ∧
    (rawEntries (entriesOf (t.flat d))).Perm log

/-- The step lemma: a new rid keeps the invariant. -/
theorem CountedLog.insert {w : Nat} (hw : fixedWidth ty = some w) {s : BufferPool} {root : Nat}
    (h : CountedLog ty s root log) {key : Bytes} {rid : Rid}
    (hnew : rid ∉ log.map Prod.snd) (hok : OrderOk s root key rid ty) :
    Succeeds (BTree.insert root key rid ty) s fun root' s' =>
      CountedLog ty s' root' ((key, rid) :: log) := by
  obtain ⟨d, t, hon, hord, hcount, hlog⟩ := h
  obtain ⟨hkey, htie⟩ := hok
  obtain ⟨k, rfl⟩ : ∃ k : Key ty, k.bytes = key := ⟨⟨key, hkey⟩, rfl⟩
  have htight : evenLeaves ty = true ∨ NoLeafTie Key.rank (capacity ty) k rid d t := by
    refine htie.imp (fun h => by simpa [evenLeaves] using h) fun h => ?_
    rw [← hon.root_eq] at h
    exact noLeafTie_of_tieFree d t _ hon.depth_lt hon.repr h
  refine Succeeds.imp (insert_sim hon.toStored k rid
    (splitsFit_of_fixedWidth hw k rid d t hon.repr)) ?_
  rintro root' s' ⟨o, d', t', hins, hrooted, hst, -⟩
  have hhalf : 1 ≤ nodeHalf ty := by
    rw [nodeHalf]
    split <;> decide
  obtain ⟨⟨g, hg, hflat⟩, hall, -⟩ := Ins.counted hhalf (leafFits_even hw) (nodeFits_even hw) d t o
    none hins hord (fun u hu => by cases hu) hcount (fun u hu => by cases hu) htight
  rw [Tree.descend_eq_route d t hord] at hg
  rw [← hrooted.flat_eq] at hflat
  refine ⟨d', t', ⟨hst, ?_⟩, ?_, hrooted.counted hhalf (nodeFits_even hw) hall, ?_⟩
  · rw [hflat]
    exact linked_graft hon.linked hg
  · rw [hflat]
    exact ordered_graft hord hg (by simp)
  · rw [hflat]
    rcases entriesOf_graft hg with ⟨⟨e, he, -, hrid⟩, -⟩ | ⟨-, hperm⟩
    · -- the rid is new, so the pair cannot be there already
      refine absurd ?_ hnew
      have hmem : e ∈ entriesOf (t.flat d) := by
        rw [entriesOf, SepList.spell_eq (upTo Key.rank k)]
        exact List.mem_append_left _ (List.mem_append_right _ he)
      have hin : (e.1.bytes, e.2) ∈ log := hlog.mem_iff.1 (List.mem_map.2 ⟨e, hmem, rfl⟩)
      exact List.mem_map.2 ⟨_, hin, hrid⟩
    · exact (hperm.map _).trans (hlog.cons (k.bytes, rid))

theorem CountedLog.leafOrder {s : BufferPool} {root : Nat}
    (h : CountedLog ty s root log) : LeafOrder s root ty log := by
  obtain ⟨d, t, hon, hord, -, hlog⟩ := h
  have hchain : ((t.flat d).items.map fun M => (M.id, rawEntries M.entries)).flatMap Prod.snd =
      rawEntries (entriesOf (t.flat d)) := by
    rw [entriesOf, SepList.spell_eq_flatMap_items, rawEntries, List.map_flatMap, List.flatMap_map]
    rfl
  refine ⟨_, _, leafChain_eq hon, inOrder_eq hon.toStored, ?_, ?_, ?_⟩
  · rw [hchain]
    exact hlog
  · rw [hchain, rawEntries, List.pairwise_map]
    refine hord.entries_sorted.imp fun {x y} hxy => ?_
    rcases lt_or_eq_of_le hxy with hlt | heq
    · exact Or.inl (Key.compareKeys_eq_lt.2 hlt)
    · refine Or.inr ?_
      rw [Key.compareKeys_eq, heq]
      simp
  · rw [List.map_map, List.map_map]
    rfl

theorem rids_rawEntries (es : List (Key ty × Rid)) :
    (rawEntries es).map Prod.snd = es.map Prod.snd := by
  simp [rawEntries]

theorem run_countedLog {w : Nat} (hw : fixedWidth ty = some w) {s₀ s : BufferPool}
    {root₀ root : Nat} (h₀ : EmptyLeaf s₀ root₀)
    (hrun : InsertRun ty (fun s root key rid => OrderOk s root key rid ty) s₀ root₀ s root log)
    (hrids : (log.map Prod.snd).Nodup) : CountedLog ty s root log := by
  induction hrun with
  | start =>
    refine ⟨0, _, onPages_emptyLeaf h₀, List.Pairwise.nil, ⟨?_, fun _ u hu => (by cases hu)⟩,
      List.Perm.refl _⟩
    show (capacity ty).leafFits []
    rw [leafFits_iff hw, List.length_nil, Nat.zero_mul]
    decide
  | insert key rid _ hok hcall ih =>
    rw [List.map_cons, List.nodup_cons] at hrids
    have hstep := (ih hrids.2).insert hw hrids.1 hok
    unfold Succeeds at hstep
    rw [hcall] at hstep
    exact hstep

/-- **Leaf order.** For fixed-width keys and distinct rids, every state of a
run whose insertions meet `OrderOk` has its leaves in order, and a further
insertion that meets it returns `Ok` unless `new_page` fails. -/
theorem run_leafOrder {w : Nat} (hw : fixedWidth ty = some w) {s₀ s : BufferPool}
    {root₀ root : Nat} {log : List (Bytes × Rid)} (h₀ : EmptyLeaf s₀ root₀)
    (hrun : InsertRun ty (fun s root key rid => OrderOk s root key rid ty) s₀ root₀ s root log)
    (hrids : (log.map Prod.snd).Nodup) :
    LeafOrder s root ty log ∧
      ∀ key rid, rid ∉ log.map Prod.snd → OrderOk s root key rid ty →
        ∀ e s', insert root key rid ty s = .error e s' → e = newPageError := by
  have hlog := run_countedLog hw h₀ hrun hrids
  refine ⟨hlog.leafOrder, fun key rid hnew hok e s' herr => ?_⟩
  have hstep := hlog.insert hw hnew hok
  unfold Succeeds at hstep
  rw [herr] at hstep
  exact hstep

/-- Duplicates and a split, between INT keys. -/
theorem run_leafOrder_copies : ∃ s root,
    InsertRun .int (fun s root key rid => OrderOk s root key rid .int) (emptyLeafPool 9 (by decide)) 0
      s root (rawEntries (fivesAndSevens ++ [(intKey 7, (1, 127))])).reverse ∧ root ≠ 0 ∧
    LeafOrder s root .int (rawEntries (fivesAndSevens ++ [(intKey 7, (1, 127))])).reverse := by
  have h₀ := emptyLeaf_emptyLeafPool (n := 9) (by decide) (by decide)
  obtain ⟨s, root, newId, a, m, b, -, -, hrun, hst, -, -⟩ := overfill_leaf (w := 4) rfl h₀ (by decide)
    fivesAndSevens_sorted nodup_fivesAndSevens (by rw [length_fivesAndSevens]; decide)
    (by rw [length_fivesAndSevens]; decide)
    (told_log (fun s root key rid => OrderOk s root key rid .int)
      fun _ e _ _ _ => ⟨e.1.2, Or.inl rfl⟩)
  have hroot : root ≠ 0 := fun h0 => by
    have hnodup : ([root, 0, newId] : List Nat).Nodup := hst.nodup
    simp [h0] at hnodup
  refine ⟨s, root, hrun, hroot, (run_leafOrder (w := 4) rfl h₀ hrun ?_).1⟩
  rw [List.map_reverse, List.nodup_reverse, rids_rawEntries]
  exact nodup_fivesAndSevens

/-! ## A tie -/

section Tie

variable {w : Nat} (hw : fixedWidth ty = some w) {s₀ s : BufferPool} {root₀ root a b : Nat}
  {log : List (Bytes × Rid)} {E : List (Key ty × Rid)} {j k : Key ty} {R : LeafNode ty}

theorem grow_copies_left (hjE : ∀ e ∈ E, j.rank < e.1.rank) (n : Nat) :
    grow Key.rank j (1, n) (copies j 1 n ++ E) = copies j 1 (n + 1) ++ E := by
  rw [grow_between (fun e he => by rw [(rank_of_mem_copies he).1]) hjE, copies_succ]
  simp

theorem not_present_copies_left (hjE : ∀ e ∈ E, j.rank < e.1.rank) (n : Nat) :
    ¬ Present Key.rank j (1, n) (copies j 1 n ++ E) := by
  rintro ⟨e, he, hrank, hrid⟩
  rcases List.mem_append.1 he with he | he
  · have hlt := (rank_of_mem_copies he).2.2
    rw [hrid] at hlt
    exact lt_irrefl _ hlt
  · exact (hjE e he).ne' hrank

theorem route_left (hjk : j.rank < k.rank) (l : LeafNode ty) :
    (SepList.cons l k (.single R)).route (upTo Key.rank j) = l := by
  simp [SepList.route, upTo, hjk]

theorem log_succ (j : Key ty) (n : Nat) (log : List (Bytes × Rid)) :
    (rawEntries (copies j 1 (n + 1))).reverse ++ log =
      (j.bytes, (1, n)) :: ((rawEntries (copies j 1 n)).reverse ++ log) := by
  rw [copies_succ]
  simp [rawEntries]

/-- Inserting below the separator touches the left leaf only. -/
theorem ins_twoLeaves (hjk : j.rank < k.rank) {l : LeafNode ty} {rid : Rid}
    {o : Outcome (Key ty) (PageTree ty 1)}
    (h : Ins Key.rank (capacity ty) j rid 1 (twoLeaves root l k R) o) :
    ∃ oc, LeafIns Key.rank (capacity ty) l j rid oc ∧
      NodeIns Key.rank (capacity ty) (Node.mk root (.cons l k (.single R))) j oc o := by
  obtain ⟨oc, hoc, hn⟩ := h
  have hoc : LeafIns Key.rank (capacity ty) ((SepList.cons l k (.single R)).route (upTo Key.rank j))
    j rid oc := hoc
  rw [route_left hjk] at hoc
  exact ⟨oc, hoc, hn⟩

include hw

theorem ins_left_fit (hjk : j.rank < k.rank) (hjE : ∀ e ∈ E, j.rank < e.1.rank) {n : Nat}
    (hn : HEADER_SIZE + (n + 1 + E.length) * (w + 12) ≤ PAGE_SIZE)
    {o : Outcome (Key ty) (PageTree ty 1)}
    (h : Ins Key.rank (capacity ty) j (1, n) 1 (twoLeaves root ⟨a, b, copies j 1 n ++ E⟩ k R) o) :
    o = .fit (twoLeaves root ⟨a, b, copies j 1 (n + 1) ++ E⟩ k R) := by
  obtain ⟨oc, hoc, hnode⟩ := ins_twoLeaves hjk h
  have hfits : (capacity ty).leafFits (grow Key.rank j (1, n) (copies j 1 n ++ E)) := by
    rw [leafFits_iff hw, grow_copies_left hjE, List.length_append, length_copies]
    exact hn
  cases hoc with
  | present hp => exact absurd hp (not_present_copies_left hjE n)
  | split _ _ _ _ _ hfull => exact absurd hfits hfull
  | fit _ _ =>
    have hkids : absorb Key.rank j (SepList.cons (⟨a, b, copies j 1 n ++ E⟩ : LeafNode ty) k
        (.single R)) (.fit ⟨a, b, grow Key.rank j (1, n) (copies j 1 n ++ E)⟩) =
        .cons ⟨a, b, copies j 1 (n + 1) ++ E⟩ k (.single R) := by
      rw [grow_copies_left hjE]
      simp [absorb, SepList.graft, upTo, hjk, SepList.append]
    cases hnode with
    | keep c => exact congrArg (fun kids => Outcome.fit (Node.mk root kids : PageTree ty 1)) hkids

/-- A split whose middle ties with the separator goes behind the right leaf. -/
theorem ins_left_split (hjk : j.rank < k.rank) (hjE : ∀ e ∈ E, j.rank < e.1.rank) {n : Nat}
    (hover : ¬ HEADER_SIZE + (n + 1 + E.length) * (w + 12) ≤ PAGE_SIZE)
    (hmid : (n + 1 + E.length) / 2 = n + 1) (hE : ∀ e ∈ E, e.1 = k)
    {o : Outcome (Key ty) (PageTree ty 1)}
    (h : Ins Key.rank (capacity ty) j (1, n) 1 (twoLeaves root ⟨a, b, copies j 1 n ++ E⟩ k R) o) :
    ∃ c, o = .fit (Node.mk root (.cons (⟨a, c, copies j 1 (n + 1)⟩ : LeafNode ty) k
      (.cons R k (.single ⟨c, b, E⟩))) : PageTree ty 1) := by
  obtain ⟨oc, hoc, hnode⟩ := ins_twoLeaves hjk h
  have hfull : ¬ (capacity ty).leafFits (grow Key.rank j (1, n) (copies j 1 n ++ E)) := by
    rw [leafFits_iff hw, grow_copies_left hjE, List.length_append, length_copies]
    exact hover
  cases hoc with
  | present hp => exact absurd hp (not_present_copies_left hjE n)
  | fit _ hfits => exact absurd hfits hfull
  | split c p q e _ _ hab hlen _ _ =>
    rw [grow_copies_left hjE] at hab hlen
    rw [List.length_append, length_copies, hmid] at hlen
    obtain ⟨hp, hq⟩ := List.append_inj hab.symm (by rw [hlen, length_copies])
    have he : e.1 = k := hE e (by rw [← hq]; exact List.mem_cons_self)
    have hkids : absorb Key.rank j (SepList.cons (⟨a, b, copies j 1 n ++ E⟩ : LeafNode ty) k
        (.single R)) (.split ⟨a, c, p⟩ e.1 ⟨c, b, e :: q⟩) =
        .cons ⟨a, c, copies j 1 (n + 1)⟩ k (.cons R k (.single ⟨c, b, E⟩)) := by
      rw [hp, hq, he]
      simp [absorb, SepList.graft, upTo, not_le.2 hjk, SepList.append, SepList.insertSep, beyond]
    have hfit : (capacity ty).nodeFits [k, k] := by
      have := fixedWidth_le hw
      rw [nodeFits_iff hw]
      simp only [List.length_cons, List.length_nil, HEADER_SIZE, PAGE_SIZE]
      omega
    refine ⟨c, ?_⟩
    cases hnode with
    | fit _ _ _ _ => exact congrArg (fun kids => Outcome.fit (Node.mk root kids : PageTree ty 1)) hkids
    | split _ _ _ _ _ _ _ hnot =>
      refine absurd ?_ hnot
      have hseps := congrArg SepList.seps hkids
      exact hseps ▸ hfit

/-- Copies of a smaller key go to the left leaf as long as they fit. -/
theorem fill_left (hrun : InsertRun ty (fun _ _ _ _ => True) s₀ root₀ s root log)
    (hst : Stored s root 1 (twoLeaves root ⟨a, b, E⟩ k R)) (hroom : s.pageCount + 2 < s.room)
    (hjk : j.rank < k.rank) (hjE : ∀ e ∈ E, j.rank < e.1.rank) : ∀ n,
    HEADER_SIZE + (n + E.length) * (w + 12) ≤ PAGE_SIZE → ∃ s',
      InsertRun ty (fun _ _ _ _ => True) s₀ root₀ s' root
        ((rawEntries (copies j 1 n)).reverse ++ log) ∧
      Stored s' root 1 (twoLeaves root ⟨a, b, copies j 1 n ++ E⟩ k R) ∧
      s.room ≤ s'.room ∧ s'.pageCount ≤ s.pageCount
  | 0, _ => ⟨s, hrun, hst, le_rfl, le_rfl⟩
  | n + 1, hn => by
    obtain ⟨s₁, hrun₁, hst₁, hr, hc⟩ := fill_left hrun hst hroom hjk hjE n
      (le_trans (Nat.add_le_add_left (Nat.mul_le_mul_right _ (by omega)) _) hn)
    obtain ⟨root', s', o, d', t', hcall, hins, hrooted, hst'⟩ :=
      hst₁.insert_ok j (1, n) (splitsFit_of_fixedWidth hw j (1, n) 1 _ hst₁.repr) (by omega)
    obtain rfl := ins_left_fit hw hjk hjE hn hins
    obtain ⟨hst', hr', hc'⟩ := hrooted.of_fit
      (P := fun d t => Stored s' root' d t ∧ Spent s₁ s' 3 (t.ids d).length) hst'
    have hroot : root = root' := hst'.root_eq
    subst hroot
    have hr' : s₁.room + 3 ≤ s'.room + 3 := hr'
    have hc' : s'.pageCount + 3 ≤ s₁.pageCount + 3 := hc'
    rw [log_succ]
    exact ⟨s', .insert j.bytes (1, n) hrun₁ trivial hcall, hst', by omega, by omega⟩

end Tie

/-- A chain that leaves the order of the tree: the new leaf is linked in
before the right leaf and listed after it. -/
theorem not_leafOrder_of_tie {s : BufferPool} {root : Nat} {L R M : LeafNode ty} {k : Key ty}
    (hst : Stored s root 1 (Node.mk root (.cons L k (.cons R k (.single M))) : PageTree ty 1))
    (hL : L.next = M.id) (hM : M.next = R.id) (hR : R.next = NO_NEXT_PAGE) :
    ¬ LeafOrder s root ty log := by
  rintro ⟨chain, order, hchain, horder, -, -, hids⟩
  have hleaf := hst.repr.leaf_page 1 _
  have hmem := leaf_id_mem_ids 1 (Node.mk root (.cons L k (.cons R k (.single M))) : PageTree ty 1)
  have hsub : ∀ x ∈ [L, M, R], x ∈ (Tree.flat 1 (Node.mk root (.cons L k (.cons R k (.single M))) :
      PageTree ty 1)).items := by
    have hitems : (Tree.flat 1 (Node.mk root (.cons L k (.cons R k (.single M))) :
      PageTree ty 1)).items = [L, R, M] := rfl
    rw [hitems]
    intro x hx
    simp only [List.mem_cons, List.not_mem_nil, or_false] at hx ⊢
    tauto
  have hon : ChainOn s [L, M, R] :=
    ⟨⟨hL, hM, hR, trivial⟩, fun x hx => hleaf x (hsub x hx), fun x hx => hst.used _ (hmem x (hsub x hx))⟩
  have hcount : 3 ≤ s.pageCount := by
    have h := hst.leaves_length_le
    exact h
  have hleft : leftmostLeaf root s = .ok L.id s := by
    rw [leftmostLeaf, bind_ok (pageFuel_apply s), ← hst.root_eq]
    exact leftmostLoop_eq 1 _ _ hst.depth_lt hst.repr hst.used
  rw [leafChain, bind_ok hleft, bind_ok (pageFuel_apply s),
    chainFrom_eq hst.wf [M, R] L _ (by simp only [List.length_cons, List.length_nil]; omega) hon]
    at hchain
  rw [inOrder_eq hst] at horder
  cases hchain
  cases horder
  have hMR : M.id = R.id := by
    have h : [L.id, M.id, R.id] = [L.id, R.id, M.id] := hids
    simp only [List.cons.injEq] at h
    exact h.2.1
  have hnd : ([root, L.id, R.id, M.id] : List Nat).Nodup := hst.nodup
  simp [hMR] at hnd

/-- The key of a TIME value. -/
def timeKey (n : Int64) : Key .time :=
  ⟨encodeKey (.time n), by rw [keyRank_encodeKey (w := 8) rfl rfl]; rfl⟩

/-- **The two orders part.** 204 insertions of the TIME key 10 and 102 of the
TIME key 5, all under different rids, return `Ok`; afterwards the leaf chain
and the in-order traversal visit the leaves in different orders. -/
theorem leaf_order_breaks : ∃ s root log,
    InsertRun .time (fun _ _ _ _ => True) (emptyLeafPool 9 (by decide)) 0 s root log ∧
    (log.map Prod.snd).Nodup ∧ (∀ e ∈ log, (keyRank .time e.1).isSome) ∧
    ¬ LeafOrder s root .time log := by
  have h₀ := emptyLeaf_emptyLeafPool (n := 9) (by decide) (by decide)
  have hsucc : copies (timeKey 10) 0 204 = copies (timeKey 10) 0 203 ++ [(timeKey 10, (0, 203))] :=
    copies_succ _ _ 203
  obtain ⟨s₁, root, b, E, m, F, hEF, hlen, hrun₁, hst₁, hr₁, hc₁⟩ := overfill_leaf (w := 8) rfl h₀
    (by decide) (hsucc ▸ copies_sorted _ _ _) (hsucc ▸ nodup_rids_copies _ _ _)
    (by rw [length_copies]; decide) (by rw [length_copies]; decide)
    (told_log (fun _ _ _ _ => True) fun _ _ _ _ _ => trivial)
  rw [← hsucc] at hEF hrun₁
  rw [length_copies] at hlen
  have hroom : 8 ≤ (emptyLeafPool 9 (by decide)).room := by decide
  have hcount : (emptyLeafPool 9 (by decide)).pageCount = 1 := rfl
  rw [hcount] at hc₁
  have hm : m.1 = timeKey 10 :=
    (rank_of_mem_copies (hEF ▸ List.mem_append_right E List.mem_cons_self)).1
  rw [hm] at hst₁
  have hjk : (timeKey 5).rank < (timeKey 10).rank := by decide
  have hE : ∀ e ∈ E, e.1 = timeKey 10 := fun e he =>
    (rank_of_mem_copies (hEF ▸ List.mem_append_left _ he)).1
  have hjE : ∀ e ∈ E, (timeKey 5).rank < e.1.rank := fun e he => by
    rw [hE e he]
    exact hjk
  obtain ⟨s₂, hrun₂, hst₂, hr₂, hc₂⟩ := fill_left (w := 8) rfl hrun₁ hst₁ (by omega) hjk hjE 101
    (by rw [hlen]; decide)
  obtain ⟨root', s', o, d', t', hcall, hins, hrooted, hst'⟩ :=
    hst₂.insert_ok (timeKey 5) (1, 101) (splitsFit_of_fixedWidth rfl _ _ 1 _ hst₂.repr) (by omega)
  obtain ⟨c, rfl⟩ := ins_left_split (w := 8) rfl hjk hjE (by rw [hlen]; decide) (by rw [hlen]) hE hins
  have hst' := hrooted.of_fit (P := fun d t => Stored s' root' d t) hst'.1
  have hroot : root = root' := hst'.root_eq
  subst hroot
  refine ⟨s', root, _, .insert (timeKey 5).bytes (1, 101) hrun₂ trivial hcall, ?_, ?_,
    not_leafOrder_of_tie hst' rfl rfl rfl⟩
  · -- the rids of the two keys have different page numbers
    rw [← log_succ, List.map_append, List.map_reverse, List.map_reverse, rids_rawEntries,
      rids_rawEntries, List.nodup_append, List.nodup_reverse, List.nodup_reverse]
    refine ⟨nodup_rids_copies _ 1 102, nodup_rids_copies _ 0 204, ?_⟩
    intro x hx y hy hxy
    obtain ⟨n, hn⟩ := fst_of_mem_rids (List.mem_reverse.1 hx)
    obtain ⟨m, hm⟩ := fst_of_mem_rids (List.mem_reverse.1 hy)
    rw [hn, hm] at hxy
    cases hxy
  · intro e he
    rw [← log_succ, List.mem_append, List.mem_reverse, List.mem_reverse] at he
    rcases he with he | he <;>
    · obtain ⟨x, -, rfl⟩ := List.mem_map.1 he
      exact x.1.2

end Ccdb.BTree
