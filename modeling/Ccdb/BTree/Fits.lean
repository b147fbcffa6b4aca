import Ccdb.BTree.Repr
import Ccdb.Lib.Guarantee

/-!
# Ccdb — what a split that succeeds says about sizes

A split rebuilds both halves with `page.insert`, which refuses what does not fit.
So when a section of `insert_recursive` returns, the halves it made did fit, whatever
the widths of the keys.

Main results:

* `insertLeaf_fits`, `absorbSplit_fits` — the premises of `insertLeaf_spec` and
  `absorbSplit_spec` from success.
-/

namespace Ccdb.BTree

open Ccdb BPlus Page

variable {ty : DataType} {s s' : BufferPool}

/-- The page that a split allocates. -/
theorem Grown.not_used {pool pool' : BufferPool} {p r : Nat} (h : Grown pool pool' [p] [p, r]) :
    ¬ pool.Used r := by
  refine (h.fresh r (by simp)).resolve_left fun hin => ?_
  have hnd := h.nodup
  rw [List.mem_singleton.1 hin] at hnd
  simp at hnd

theorem insertAll_fits {p : Nat} (ts : List PageTuple) : ∀ {s : BufferPool} {ts₀ : List PageTuple},
    Packed (s.pages p) ts₀ → insertAll p ts s = .ok () s' →
    HEADER_SIZE + spaceOf (ts₀ ++ ts) ≤ PAGE_SIZE := by
  induction ts with
  | nil =>
    intro s ts₀ hp _
    simpa using hp.room
  | cons t ts ih =>
    intro s ts₀ hp h
    obtain ⟨_, s₁, hone, hrest⟩ := EStateM.of_bind_ok h
    rw [insertInto] at hone
    cases hins : (s.pages p).insert t with
    | error e => rw [hins] at hone; cases hone
    | ok r =>
      obtain ⟨slot, page⟩ := r
      obtain ⟨hfree, -, rfl⟩ := insert_inv hins
      have hroom := (packed_insert hp).1 hfree
      rw [hins] at hone
      cases hone
      have hall := ih (by simpa using packed_push hp hroom) hrest
      simpa using hall

/-- One half of a split. -/
theorem rebuild_fits {p : Nat} {page : Page} {ts : List PageTuple} (hnew : Packed page [])
    {f : Unit → PoolM InsertOutcome} {out : InsertOutcome}
    (h : (do
      writePage p page
      insertAll p ts
      f ()) s = .ok out s') :
    HEADER_SIZE + spaceOf ts ≤ PAGE_SIZE ∧ ∃ s₁, f () s₁ = .ok out s' := by
  rw [bind_ok (writePage_apply p page s)] at h
  obtain ⟨_, s₁, hall, hrest⟩ := EStateM.of_bind_ok h
  have hpage : Packed ((s.set p page).pages p) [] := by
    rw [BufferPool.set_pages_self]
    exact hnew
  exact ⟨insertAll_fits ts hpage hall, s₁, hrest⟩

theorem splitLeaf_fits {p : Nat} {page : Page} {entries : List PageTuple} {out : InsertOutcome}
    (h : splitLeaf p page entries s = .ok out s') :
    HEADER_SIZE + spaceOf (entries.take (entries.length / 2)) ≤ PAGE_SIZE ∧
      HEADER_SIZE + spaceOf (entries.drop (entries.length / 2)) ≤ PAGE_SIZE := by
  obtain ⟨hleft, s₁, h⟩ := rebuild_fits (f := fun _ => _) (packed_resetPage _ _) h
  obtain ⟨newPid, s₂, -, h⟩ := EStateM.of_bind_ok h
  obtain ⟨hright, -⟩ := rebuild_fits (f := fun _ => _) ⟨rfl, rfl, by decide⟩ h
  exact ⟨hleft, hright⟩

theorem splitInternal_fits {p : Nat} {page : Page} {entries : List PageTuple} {out : InsertOutcome}
    (h : splitInternal p page entries s = .ok out s') :
    HEADER_SIZE + spaceOf (entries.take (entries.length / 2)) ≤ PAGE_SIZE ∧
      HEADER_SIZE + spaceOf (entries.drop (entries.length / 2 + 1)) ≤ PAGE_SIZE := by
  rw [splitInternal] at h
  cases hdrop : entries.drop (entries.length / 2) with
  | nil =>
    simp only [hdrop] at h
    cases h
  | cons promoted rest =>
    simp only [hdrop] at h
    obtain ⟨_, s₁, -, h⟩ := EStateM.of_bind_ok h
    obtain ⟨hleft, s₂, h⟩ := rebuild_fits (f := fun _ => _) (packed_resetPage _ _) h
    obtain ⟨newPid, s₃, -, h⟩ := EStateM.of_bind_ok h
    obtain ⟨hright, -⟩ := rebuild_fits (f := fun _ => _) ⟨rfl, rfl, by decide⟩ h
    refine ⟨hleft, ?_⟩
    rw [← List.drop_drop, hdrop]
    exact hright

/-- What `insert_recursive` does at a leaf that overflows. -/
theorem insertLeaf_overflow {L : LeafNode ty} {k : Key ty} {rid : Rid} (hp : IsLeafPage (s.pages L.id) L)
    (hnot : ¬ Present Key.rank k rid L.entries)
    (hfull : ¬ (capacity ty).leafFits (grow Key.rank k rid L.entries)) :
    insertLeaf L.id (s.pages L.id) k.bytes rid ty s =
      splitLeaf L.id (s.pages L.id) (leafTuples (grow Key.rank k rid L.entries)) s := by
  obtain ⟨b, hb, hpresent⟩ := leafHasEntry_eq k rid L.entries _ hp.packed.tuples
  have hfits : ¬ fits (s.pages L.id) (PageTuple.leaf k.bytes rid).len = true := fun hf =>
    hfull ((fits_iff (leafEntry ty) (fun e => beyond Key.rank k e.1) k rid hp.packed).1 hf)
  have hmerge : mergeEntry .btreeLeaf k.bytes (.leaf k.bytes rid) ty false (s.pages L.id).slots =
      .ok (leafTuples (grow Key.rank k rid L.entries)) :=
    mergeEntry_eq (leafEntry ty) k rid L.entries _ hp.packed.tuples
  unfold insertLeaf
  rw [hb, bind_ok (liftE_ok _ _), if_neg fun h => hnot (hpresent.1 h)]
  simp only [if_neg hfits]
  rw [hmerge, bind_ok (liftE_ok _ _)]

/-- A leaf that is split, where the file grows by a page. -/
theorem insertLeaf_grows {p next : Nat} {es a b : List (Key ty × Rid)} {e : Key ty × Rid}
    {k : Key ty} {rid : Rid} (hp : IsLeafPage (s.pages p) (⟨p, next, es⟩ : LeafNode ty))
    (hnot : ¬ Present Key.rank k rid es) (hgrow : grow Key.rank k rid es = a ++ e :: b)
    (hfull : ¬ (capacity ty).leafFits (a ++ e :: b)) (hlen : a.length = (a ++ e :: b).length / 2)
    (ha : (capacity ty).leafFits a) (hb : (capacity ty).leafFits (e :: b))
    (hfree : s.freeList = []) (hroom : s.pageCount < s.diskPages) (hne : p ≠ s.pageCount) :
    insertLeaf p (s.pages p) k.bytes rid ty s = .ok (.split e.1.bytes s.pageCount) { s with
      pages := Function.update (Function.update s.pages s.pageCount
        ((pushAll (initLeaf (.new s.pageCount)) (leafTuples (e :: b))).setNextPageId next)) p
        ((pushAll (resetPage (s.pages p) NO_NEXT_PAGE) (leafTuples a)).setNextPageId s.pageCount)
      pageCount := s.pageCount + 1 } := by
  obtain ⟨hmid, htake, hdrop⟩ := leafTuples_halves hlen
  have hnew : ∀ page, newPage (s.set p page) = .ok s.pageCount { s.set p page with
      pages := Function.update (s.set p page).pages s.pageCount (.new s.pageCount)
      pageCount := s.pageCount + 1 } := by
    intro page
    have hpop : (s.set p page).popFree = none := by simp [BufferPool.popFree, BufferPool.set, hfree]
    simp only [newPage, hpop]
    exact if_pos hroom
  have hover := insertLeaf_overflow (L := ⟨p, next, es⟩) hp hnot (hgrow.symm ▸ hfull)
  refine hover.trans ?_
  simp only [hgrow, splitLeaf, hmid, htake, hdrop]
  rw [bind_ok (writePage_apply _ _ _), bind_ok (insertAll_set (packed_resetPage _ _) ha), bind_ok (hnew _),
    bind_ok (writePage_apply _ _ _), bind_ok (insertAll_set ⟨rfl, rfl, by decide⟩ hb)]
  refine congrArg (EStateM.Result.ok _) ?_
  simp only [BufferPool.set, BufferPool.mk.injEq, and_true]
  funext q
  by_cases hqp : q = p
  · subst hqp
    simp [hne]
  · by_cases hq : q = s.pageCount
    · subst hq
      simp [hqp, hp.next]
    · simp [hqp, hq]

/-- **A leaf section that returns.** -/
theorem insertLeaf_fits {L : LeafNode ty} (hp : IsLeafPage (s.pages L.id) L) {k : Key ty} {rid : Rid}
    {out : InsertOutcome} (h : insertLeaf L.id (s.pages L.id) k.bytes rid ty s = .ok out s') :
    SplitsFit Key.rank (capacity ty) k rid 0 (L : PageTree ty 0) := by
  intro hpres hover
  have hpres : ¬ Present Key.rank k rid L.entries := hpres
  have hover : ¬ (capacity ty).leafFits (grow Key.rank k rid L.entries) := hover
  rw [insertLeaf_overflow hp hpres hover] at h
  have hhalves := splitLeaf_fits h
  simp only [leafTuples, List.length_map, ← List.map_take, ← List.map_drop] at hhalves
  exact hhalves

/-- **An inner section that returns.** -/
theorem absorbSplit_fits {id right : Nat} {kids : SepList (Key ty) Nat} {sep : Key ty}
    (hu : s.Used id) (hp : IsNodePage (s.pages id) id kids) {out : InsertOutcome}
    (h : absorbSplit id sep.bytes right ty s = .ok out s')
    (hover : ¬ (capacity ty).nodeFits (insertBefore (beyond Key.rank sep) sep kids.seps)) :
    let ks := insertBefore (beyond Key.rank sep) sep kids.seps
    (capacity ty).nodeFits (ks.take (ks.length / 2)) ∧
      (capacity ty).nodeFits (ks.drop (ks.length / 2 + 1)) := by
  let es := insertBefore (fun e => beyond Key.rank sep e.1) (sep, right) kids.tail
  have hseps : insertBefore (beyond Key.rank sep) sep kids.seps = es.map Prod.fst := by
    rw [← seps_insertSep (r := right), SepList.seps_eq, tail_insertSep]
  have hspace : ∀ es' : List (Key ty × Nat), (capacity ty).nodeFits (es'.map Prod.fst) ↔
      HEADER_SIZE + spaceOf (nodeTuples es') ≤ PAGE_SIZE := fun es' => by
    rw [spaceOf_nodeTuples]
    rfl
  have hfits : ¬ fits (s.pages id) (PageTuple.internal sep.bytes right).len = true := fun hf => by
    refine hover ?_
    rw [hseps, hspace]
    exact (fits_iff (nodeEntry ty) (fun e => beyond Key.rank sep e.1) sep right hp.packed).1 hf
  have hmerge : mergeEntry .btreeInternal sep.bytes (.internal sep.bytes right) ty false
      (s.pages id).slots = .ok (nodeTuples es) :=
    mergeEntry_eq (nodeEntry ty) sep right kids.tail _ hp.packed.tuples
  unfold absorbSplit at h
  rw [bind_ok (fetchPage_used hu)] at h
  simp only [if_neg hfits] at h
  rw [hmerge, bind_ok (liftE_ok _ _)] at h
  have hhalves := splitInternal_fits h
  rw [hseps]
  simp only [nodeTuples, List.length_map, ← List.map_take, ← List.map_drop] at hhalves ⊢
  exact ⟨(hspace _).2 hhalves.1, (hspace _).2 hhalves.2⟩

end Ccdb.BTree
