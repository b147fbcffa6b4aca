import Ccdb.Catalog.FreshIds
import Mathlib.Data.List.Flatten

/-!
# Ccdb — the row of an index

`update_index_root` removes the first `pg_index` row with the id of the index, whether it
is deleted or not, and then inserts the new one on the head page, which may be full. After
TRUNCATE the first row is the deleted one: the live one stays beside the new one. On a full
head page the live row is gone.

The theorems are about the rows of the chain with their headers, in the order of a scan.

Main results:

* `updateIndexRoot_cases` — the row that goes, and the one that comes.
* `IndexRows.step` — runs without such an update keep one live row an id.
* `rootSet_iff` — where an update does what it has to.
-/

namespace Ccdb.PgCatalog.IndexRoot

open Relation

/-! ## The rows of pg_index -/

/-- All rows of `pg_index`, deleted ones as well. -/
def indexTuples (st : State) : List HeapTuple := (st.chains .pgIndex).flatMap pageTuples

/-- A row with the id that is not deleted. -/
def isLiveRow (id : Nat) (t : HeapTuple) : Bool := t.xmax = 0 ∧ isIndexRow id t = true

def liveRows (st : State) (id : Nat) : List HeapTuple := (indexTuples st).filter (isLiveRow id)

/-- The row `update_index_root` finds. -/
def firstRow (st : State) (id : Nat) : Option HeapTuple := (indexTuples st).find? (isIndexRow id)

/-- The columns of its replacement. -/
def rewired (t : HeapTuple) (root : Nat) : List Value :=
  t.values.take 4 ++ [.int (asI32 root), t.values.getD 5 (.bool false)]

/-- The head page takes the row. -/
def HeadRoom (st : State) (values : List Value) : Prop :=
  rowSpace values ≤ ((st.chains .pgIndex).head?.map Page.freeSpace).getD 0

instance (st : State) (values : List Value) : Decidable (HeadRoom st values) :=
  inferInstanceAs (Decidable (_ ≤ _))

/-- What `update_index_root` is for: where it returns, there is one live row with the id,
it has the new root, and the other columns of the live row there was; where it fails, the
live row is still there. -/
def RootSet (st : State) (id root : Nat) : Prop :=
  match updateIndexRoot id root st with
  | .ok _ st' => ∃ row, liveRows st' id = [row] ∧ row.values[4]? = some (.int (asI32 root)) ∧
      ∀ t ∈ liveRows st id, ∀ k, k ≠ 4 → row.values[k]? = t.values[k]?
  | .error _ st' => liveRows st' id = liveRows st id

/-- There is no row with the id; or the first one is live, and there is room for the new
one on the head page; or it is deleted, and no row with the id is live or there is no room. -/
def Rewirable (st : State) (id root : Nat) : Prop :=
  match firstRow st id with
  | none => True
  | some t =>
    if t.xmax = 0 then HeadRoom st (rewired t root)
    else liveRows st id = [] ∨ ¬ HeadRoom st (rewired t root)

instance (st : State) (id root : Nat) : Decidable (Rewirable st id root) := by
  unfold Rewirable
  split
  · infer_instance
  · split <;> infer_instance

/-- The columns of `pg_index`. -/
def isShaped : List Value → Bool
  | [.int _, .varchar _, .int _, .int _, .int _, .bool _] => true
  | _ => false

/-- The rows have the columns of the table, and at most one an id is live. -/
structure IndexRows (l : List HeapTuple) : Prop where
  shaped : ∀ t ∈ l, isShaped t.values = true
  single : ∀ id, l.countP (isLiveRow id) ≤ 1

/-! ## Statements -/

/-- The ids of the indexes have not run out. -/
def IndexIdsLeft (st : State) : Prop := ∀ x ∈ st.allIndexes, asI32 x.indexId ≠ Int32.maxValue

instance (st : State) : Decidable (IndexIdsLeft st) :=
  inferInstanceAs (Decidable (∀ x ∈ st.allIndexes, _))

/-- The body of the loop of `index_insert_for_row_with_lm`. -/
def rewireRoot (grown : List (Nat × Nat)) (idx : IndexDef) : CatM Unit :=
  if insertedRoot grown idx ≠ idx.rootPageId then
    updateIndexRoot idx.indexId (insertedRoot grown idx)
  else pure ()

/-- The update of the root, where there is one, does what it has to. -/
def RootOk (grown : List (Nat × Nat)) (st : State) (idx : IndexDef) : Prop :=
  insertedRoot grown idx ≠ idx.rootPageId → Rewirable st idx.indexId (insertedRoot grown idx)

instance (grown : List (Nat × Nat)) (st : State) (idx : IndexDef) : Decidable (RootOk grown st idx) :=
  inferInstanceAs (Decidable (_ → _))

def OpOk (st : State) : Op → Prop
  | .indexInsert tableId grown =>
    match indexesForTable tableId st with
    | .ok indexes st₁ =>
      match tableById tableId st₁ with
      | .ok (some _) st₂ => Along (RootOk grown) (rewireRoot grown) st₂ indexes
      | _ => True
    | .error _ _ => True
  | _ => True

instance (st : State) (op : Op) : Decidable (OpOk st op) := by
  unfold OpOk
  split
  · split
    · split <;> infer_instance
    · infer_instance
  · infer_instance

/-- A row that DML puts into `pg_index` has the columns of the table and an id of its own. -/
def WriteOk (st : State) : RowWrite → Prop
  | .insert (.int n :: vals) => isShaped (.int n :: vals) = true ∧ liveRows st (asUsize n) = []
  | .insert _ => False
  | .delete _ => True

instance (st : State) (w : RowWrite) : Decidable (WriteOk st w) := by
  unfold WriteOk
  split <;> infer_instance

/-- No index id is given twice, and every root is set by an update that does what it has to. -/
def Careful (st : State) : Stmt → Prop
  | .createTable .. => IndexIdsLeft st
  | .createIndex .. => IndexIdsLeft st
  | .dml ops => Along OpOk Op.run st ops
  | .direct rel txn writes => rel = .pgIndex → Along WriteOk (RowWrite.run rel txn) st writes
  | _ => True

instance (st : State) : ∀ stmt : Stmt, Decidable (Careful st stmt)
  | .createTable .. => inferInstanceAs (Decidable (IndexIdsLeft st))
  | .createIndex .. => inferInstanceAs (Decidable (IndexIdsLeft st))
  | .dml ops => inferInstanceAs (Decidable (Along OpOk Op.run st ops))
  | .direct rel txn writes =>
    inferInstanceAs (Decidable (rel = .pgIndex → Along WriteOk (RowWrite.run rel txn) st writes))
  | .createSequence .. | .dropTable .. | .dropIndex .. | .dropSequence .. | .truncate .. | .vacuum .. =>
    inferInstanceAs (Decidable True)

/-! ## Lists of rows -/

section Rows

variable {l l' : List HeapTuple} {t : HeapTuple}

theorem isShaped_iff {vals : List Value} : isShaped vals = true ↔
    ∃ id name table col root u, vals = [.int id, .varchar name, .int table, .int col, .int root, .bool u] := by
  constructor
  · intro h
    unfold isShaped at h
    split at h
    · exact ⟨_, _, _, _, _, _, rfl⟩
    · cases h
  · rintro ⟨_, _, _, _, _, _, rfl⟩
    rfl

/-- Only the root is new. -/
theorem rewired_eq (h : isShaped t.values = true) (root : Nat) :
    rewired t root = t.values.set 4 (.int (asI32 root)) := by
  obtain ⟨_, _, _, _, _, _, hvals⟩ := isShaped_iff.1 h
  unfold rewired
  rw [hvals]
  rfl

theorem isShaped_set {vals : List Value} (h : isShaped vals = true) (root : Int32) :
    isShaped (vals.set 4 (.int root)) = true := by
  obtain ⟨_, _, _, _, _, _, rfl⟩ := isShaped_iff.1 h
  rfl

theorem isIndexRow_congr {t' : HeapTuple} (h : t'.values.head? = t.values.head?) (id : Nat) :
    isIndexRow id t' = isIndexRow id t := by
  unfold isIndexRow
  cases hv : t.values with
  | nil =>
    rw [hv, List.head?_nil, List.head?_eq_none_iff] at h
    rw [h]
  | cons v vs =>
    rw [hv, List.head?_cons, List.head?_eq_some_iff] at h
    obtain ⟨vs', hv'⟩ := h
    rw [hv']
    cases v <;> rfl

/-- A row has one id. -/
theorem isIndexRow_unique {id id' : Nat} (h : isIndexRow id t = true) (h' : isIndexRow id' t = true) :
    id = id' := by
  unfold isIndexRow at h h'
  split at h
  · next n _ heq =>
    rw [heq] at h'
    simp only [beq_iff_eq] at h h'
    rw [← h, ← h']
  · cases h

theorem IndexRows.perm (h : IndexRows l) (hp : l.Perm l') : IndexRows l' where
  shaped t ht := h.shaped t (hp.mem_iff.2 ht)
  single id := by
    rw [← hp.countP_eq]
    exact h.single id

theorem IndexRows.sublist (h : IndexRows l) (hsub : l'.Sublist l) : IndexRows l' where
  shaped t ht := h.shaped t (hsub.subset ht)
  single id := (hsub.countP_le).trans (h.single id)

/-- Rows may be deleted. -/
theorem IndexRows.map (h : IndexRows l) {f : HeapTuple → HeapTuple}
    (hvals : ∀ t, (f t).values = t.values) (hlive : ∀ t, (f t).xmax = 0 → t.xmax = 0) :
    IndexRows (l.map f) where
  shaped t ht := by
    obtain ⟨u, hu, rfl⟩ := List.mem_map.1 ht
    rw [hvals]
    exact h.shaped u hu
  single id := by
    rw [List.countP_map]
    refine le_trans (List.countP_mono_left fun t _ ht => ?_) (h.single id)
    simp only [Function.comp_apply, isLiveRow, decide_eq_true_eq] at ht ⊢
    exact ⟨hlive t ht.1, by rw [← isIndexRow_congr (by rw [hvals]) id]; exact ht.2⟩

/-- A row with an id no live row has. -/
theorem IndexRows.cons (h : IndexRows l) (hshape : isShaped t.values = true)
    (hnew : ∀ id, isIndexRow id t = true → l.countP (isLiveRow id) = 0) : IndexRows (t :: l) where
  shaped u hu := by
    rcases List.mem_cons.1 hu with rfl | hu
    · exact hshape
    · exact h.shaped u hu
  single id := by
    rw [List.countP_cons]
    split
    · next hlive =>
      simp only [isLiveRow, decide_eq_true_eq] at hlive
      rw [hnew id hlive.2]
    · exact h.single id

end Rows

/-! ## The writes -/

variable {st st' : State}

/-- The row of a slot. -/
def slotTuple (s : Slot) : Option HeapTuple :=
  match s.tuple with
  | some (.heap t) => some t
  | _ => none

theorem flatMap_pageTuples (pages : List Page) :
    pages.flatMap pageTuples = (pages.flatMap Page.slots).filterMap slotTuple := by
  rw [List.filterMap_flatMap]
  rfl

theorem pageTuples_insert {p : Page} {t : HeapTuple} {r : Nat × Page}
    (h : p.insert (.heap t) = .ok r) : pageTuples r.2 = pageTuples p ++ [t] := by
  obtain ⟨slot, p'⟩ := r
  obtain ⟨-, -, rfl⟩ := Page.insert_inv h
  simp [pageTuples, Page.push]

theorem placeLast_tuples {pages pages' : List Page} {t : HeapTuple}
    (h : placeLast pages t = some pages') :
    pages'.flatMap pageTuples = pages.flatMap pageTuples ++ [t] := by
  unfold placeLast at h
  split at h
  · cases h
  · next last hlast =>
    split at h
    · next slot page hins =>
      cases h
      obtain ⟨init, rfl⟩ := List.getLast?_eq_some_iff.1 hlast
      rw [List.dropLast_concat, List.flatMap_append, List.flatMap_append, List.flatMap_singleton,
        List.flatMap_singleton, pageTuples_insert hins, List.append_assoc]
    · cases h

theorem indexTuples_setChain (st : State) (pages : List Page) :
    indexTuples (st.setChain .pgIndex pages) = pages.flatMap pageTuples := by
  show (Function.update st.chains .pgIndex pages .pgIndex).flatMap pageTuples = _
  rw [Function.update_self]

/-- A new row goes to the end. -/
theorem insertBytes_index (t : HeapTuple) (st : State) : Ends (insertBytes .pgIndex t) st
    (fun _ st' => indexTuples st' = indexTuples st ++ [t])
    (fun st' => indexTuples st' = indexTuples st) := by
  unfold Ends
  rw [insertBytes_eq]
  cases hp : placeLast (st.chains .pgIndex) t with
  | some pages =>
    show indexTuples (st.setChain .pgIndex pages) = _
    rw [indexTuples_setChain, placeLast_tuples hp]
    rfl
  | none =>
    dsimp only
    rw [EStateM.bind_of_ok (x := newPage) rfl]
    cases hins : (Page.new (st.fresh st.allocs)).insert (.heap t) with
    | error e => rfl
    | ok r =>
      show indexTuples (State.setChain _ .pgIndex (st.chains .pgIndex ++ [r.2])) = _
      rw [indexTuples_setChain, List.flatMap_append, List.flatMap_singleton,
        pageTuples_insert hins]
      rfl

/-- `set_tuple_xmax` on a matching row. -/
def entomb (pred : List Value → Bool) (txn : Nat) (t : HeapTuple) : HeapTuple :=
  if t.xmax = 0 ∧ pred t.values then { t with xmax := txn } else t

theorem slotTuple_tombstoned (pred : List Value → Bool) (txn : Nat) (s : Slot) :
    slotTuple (match liveMatch pred s with
      | some t => { s with tuple := some (.heap { t with xmax := txn }) }
      | none => s) = (slotTuple s).map (entomb pred txn) := by
  unfold liveMatch slotTuple
  cases hs : s.tuple with
  | none => simp [hs]
  | some raw =>
    cases raw with
    | heap t =>
      by_cases hmatch : t.xmax = 0 ∧ pred t.values = true
      · simp [entomb, hmatch]
      · simp [entomb, hmatch, hs]
    | leaf key rid => simp [hs]
    | internal key child => simp [hs]

theorem tombstone_index (pred : List Value → Bool) (txn : Nat) (st : State) :
    indexTuples (tombstoneCatalogRows .pgIndex txn pred st).final =
      (indexTuples st).map (entomb pred txn) := by
  show indexTuples (st.setChain .pgIndex ((st.chains .pgIndex).map (tombstonePage pred txn))) = _
  rw [indexTuples_setChain, indexTuples, List.flatMap_map, List.map_flatMap]
  refine List.flatMap_congr fun p _ => ?_
  show (tombstoneSlots pred txn p.slots).filterMap slotTuple = (p.slots.filterMap slotTuple).map _
  rw [tombstoneSlots, List.filterMap_map, List.map_filterMap]
  exact List.filterMap_congr fun s _ => slotTuple_tombstoned pred txn s

/-- What `changeFirst` does to the rows. -/
theorem changeFirst_tuples {f : Slot → Option (HeapTuple × Slot)} {pages pages' : List Page}
    {t : HeapTuple} (h : changeFirst f pages = some (t, pages'))
    (hf : ∀ s t s', f s = some (t, s') → slotTuple s = some t) :
    ∃ a b s s', pages.flatMap pageTuples = a ++ t :: b ∧ f s = some (t, s') ∧
      pages'.flatMap pageTuples = a ++ (slotTuple s').toList ++ b ∧
      ∀ u ∈ a, ∃ x, slotTuple x = some u ∧ f x = none := by
  obtain ⟨a, s, s', b, hpages, hpages', hs, ha⟩ := changeFirst_split h
  refine ⟨a.filterMap slotTuple, b.filterMap slotTuple, s, s', ?_, hs, ?_, fun u hu => ?_⟩
  · rw [flatMap_pageTuples, hpages, List.filterMap_append, List.filterMap_cons_some (hf s t s' hs)]
  · rw [flatMap_pageTuples, hpages', List.filterMap_append, List.filterMap_cons, List.append_assoc]
    cases slotTuple s' <;> rfl
  · obtain ⟨x, hx, hxu⟩ := List.mem_filterMap.1 hu
    exact ⟨x, hxu, ha x hx⟩

theorem compactSlots_tuples (off : Nat) (slots : List Slot) :
    (Page.compactSlots off slots).1.filterMap slotTuple = slots.filterMap slotTuple := by
  induction slots generalizing off with
  | nil => rfl
  | cons s rest ih =>
    rw [Page.compactSlots]
    cases hs : s.tuple with
    | none =>
      have hnone : slotTuple s = none := by simp [slotTuple, hs]
      rw [List.filterMap_cons_none hnone]
      exact ih off
    | some t =>
      have hsame : slotTuple ⟨off - t.len, some t⟩ = slotTuple s := by simp [slotTuple, hs]
      simp only [List.filterMap_cons, hsame, ih]

/-- VACUUM only takes rows away. -/
theorem vacuumChain_tuples (dead : Nat → Nat → Bool) (pages : List Page) :
    ((vacuumChain dead pages).flatMap pageTuples).Sublist (pages.flatMap pageTuples) := by
  have hpage : ∀ p, (pageTuples (vacuumPage dead p)).Sublist (pageTuples p) := by
    intro p
    unfold vacuumPage
    split
    · show ((Page.compactSlots PAGE_SIZE (p.slots.map (reclaimSlot dead))).1.filterMap slotTuple).Sublist
        (p.slots.filterMap slotTuple)
      rw [compactSlots_tuples]
      refine filterMap_sublist (fun s => ?_) _
      unfold reclaimSlot
      split
      · split
        · exact Or.inl rfl
        · exact Or.inr rfl
      · exact Or.inr rfl
    · exact List.Sublist.refl _
  have hmap : ∀ ps : List Page,
      ((ps.map (vacuumPage dead)).flatMap pageTuples).Sublist (ps.flatMap pageTuples) := by
    intro ps
    rw [List.flatMap_map]
    exact List.Sublist.flatMap_right ps fun p _ => hpage p
  refine List.Sublist.trans ?_ (hmap pages)
  unfold vacuumChain
  cases pages.map (vacuumPage dead) with
  | nil => exact List.Sublist.refl _
  | cons head rest => exact (List.Sublist.refl _).append (List.filter_sublist.flatMap _)

/-! ## update_index_root -/

/-- `changeFirst` leaves the room on the head page as it is. -/
theorem changeFirst_head {f : Slot → Option (HeapTuple × Slot)} {pages pages' : List Page}
    {t : HeapTuple} (h : changeFirst f pages = some (t, pages')) :
    pages'.head?.map Page.freeSpace = pages.head?.map Page.freeSpace := by
  cases pages with
  | nil => cases h
  | cons p rest =>
    rw [changeFirst] at h
    split at h
    · next t' slots hs =>
      cases h
      obtain ⟨a, s, s', b, hl, hl', -⟩ := changeSlot_split hs
      have hlen : slots.length = p.slots.length := by
        rw [hl, hl', List.length_append, List.length_append, List.length_cons, List.length_cons]
      show some _ = some _
      unfold Page.freeSpace Page.tupleCount
      rw [hlen]
    · obtain ⟨r, -, heq⟩ := Option.map_eq_some_iff.1 h
      cases heq
      rfl

/-- The first row with the id of the index, on the way out. -/
def takeRow (id : Nat) (s : Slot) : Option (HeapTuple × Slot) :=
  match s.tuple with
  | some (.heap t) => if isIndexRow id t then some (t, { s with tuple := none }) else none
  | _ => none

theorem takeRow_eq_some {id : Nat} {s s' : Slot} {t : HeapTuple} (h : takeRow id s = some (t, s')) :
    slotTuple s = some t ∧ isIndexRow id t = true ∧ slotTuple s' = none := by
  unfold takeRow at h
  split at h
  · next u hs =>
    split at h
    · next hid =>
      cases h
      exact ⟨by simp [slotTuple, hs], hid, rfl⟩
    · cases h
  · cases h

theorem takeRow_eq_none {id : Nat} {s : Slot} {t : HeapTuple} (h : takeRow id s = none)
    (hs : slotTuple s = some t) : isIndexRow id t = false := by
  unfold takeRow at h
  unfold slotTuple at hs
  split at hs
  · next u hu =>
    cases hs
    rw [hu] at h
    simpa using h
  · cases hs

theorem updateIndexRoot_run (st : State) (id root : Nat) :
    updateIndexRoot id root st = (match changeFirst (takeRow id) (st.chains .pgIndex) with
      | none => throw (.bail s!"update_index_root: index {id} not found")
      | some (t, pages) => do
        modify fun st => st.setChain .pgIndex pages
        match pages with
        | [] => throw (.panic "pg_index has no head page")
        | head :: rest => do
          let (_, head') ← liftE (head.insert (.heap (.mk' SYSTEM_TXN_ID invalidTxnId (rewired t root))))
          modify fun st => st.setChain .pgIndex (head' :: rest) : CatM Unit) st := rfl

/-- **`update_index_root`**: the first row with the id goes; the new one comes where there
is room on the head page. -/
theorem updateIndexRoot_cases (st : State) (id root : Nat) :
    (firstRow st id = none ∧ ∃ e, updateIndexRoot id root st = .error e st) ∨
    ∃ t a b, firstRow st id = some t ∧ indexTuples st = a ++ t :: b ∧ isIndexRow id t = true ∧
      ((HeadRoom st (rewired t root) ∧ ∃ st', updateIndexRoot id root st = .ok () st' ∧
          (indexTuples st').Perm (.mk' SYSTEM_TXN_ID invalidTxnId (rewired t root) :: (a ++ b))) ∨
        ¬ HeadRoom st (rewired t root) ∧ ∃ e st', updateIndexRoot id root st = .error e st' ∧
          indexTuples st' = a ++ b) := by
  rw [updateIndexRoot_run]
  cases hc : changeFirst (takeRow id) (st.chains .pgIndex) with
  | none =>
    refine Or.inl ⟨?_, _, rfl⟩
    rw [firstRow, List.find?_eq_none, indexTuples, flatMap_pageTuples]
    intro t ht
    obtain ⟨s, hs, hst⟩ := List.mem_filterMap.1 ht
    simp [takeRow_eq_none (changeFirst_eq_none.1 hc s hs) hst]
  | some r =>
    obtain ⟨t, pages⟩ := r
    obtain ⟨a, b, s, s', htuples, hs, htuples', ha⟩ :=
      changeFirst_tuples hc fun s t s' h => (takeRow_eq_some h).1
    obtain ⟨-, hid, hgone⟩ := takeRow_eq_some hs
    rw [hgone, Option.toList_none, List.append_nil] at htuples'
    have hfirst : firstRow st id = some t := by
      refine List.find?_eq_some_iff_append.2 ⟨hid, a, b, htuples, fun u hu => ?_⟩
      obtain ⟨x, hxu, hx⟩ := ha u hu
      rw [takeRow_eq_none hx hxu]
      rfl
    have hhead := changeFirst_head hc
    refine Or.inr ⟨t, a, b, hfirst, htuples, hid, ?_⟩
    cases pages with
    | nil =>
      -- the chain has a page, the one the row was on
      have hnil : (st.chains .pgIndex).head? = none := by simpa using hhead.symm
      rw [List.head?_eq_none_iff.1 hnil] at hc
      cases hc
    | cons head rest =>
      have hroom : HeadRoom st (rewired t root) ↔ rowSpace (rewired t root) ≤ head.freeSpace := by
        unfold HeadRoom
        rw [← hhead]
        rfl
      by_cases hfits : rowSpace (rewired t root) ≤ head.freeSpace
      · have hins := insert_heap_fits (t := .mk' SYSTEM_TXN_ID invalidTxnId (rewired t root)) hfits
        refine Or.inl ⟨hroom.2 hfits, (st.setChain .pgIndex (head :: rest)).setChain .pgIndex
          (head.push (.heap (.mk' SYSTEM_TXN_ID invalidTxnId (rewired t root))) :: rest), ?_, ?_⟩
        · dsimp only
          rw [hins]
          rfl
        · rw [indexTuples_setChain, List.flatMap_cons, pageTuples_insert hins]
          have hrest : a ++ b = pageTuples head ++ rest.flatMap pageTuples := by
            rw [← htuples', List.flatMap_cons]
          rw [hrest, List.append_assoc]
          exact List.perm_middle
      · obtain ⟨msg, hins⟩ := insert_heap_full
          (t := .mk' SYSTEM_TXN_ID invalidTxnId (rewired t root)) hfits
        refine Or.inr ⟨fun h => hfits (hroom.1 h), .bail msg, st.setChain .pgIndex (head :: rest), ?_, ?_⟩
        · dsimp only
          rw [hins]
          rfl
        · rw [indexTuples_setChain, htuples']

section Update

variable {id root : Nat} {t : HeapTuple} {a b : List HeapTuple}

/-- The live rows without the one that goes. -/
theorem liveRows_split (htuples : indexTuples st = a ++ t :: b) (hid : isIndexRow id t = true) :
    (t.xmax = 0 → (liveRows st id).Perm (t :: (a ++ b).filter (isLiveRow id))) ∧
      (t.xmax ≠ 0 → liveRows st id = (a ++ b).filter (isLiveRow id)) := by
  unfold liveRows
  rw [htuples, List.filter_append, List.filter_append, List.filter_cons]
  refine ⟨fun hlive => ?_, fun hdead => ?_⟩
  · rw [if_pos (by simp [isLiveRow, hlive, hid])]
    exact List.perm_middle
  · rw [if_neg (by simp [isLiveRow, hdead])]

/-- The live row is the only one. -/
theorem IndexRows.alone (h : IndexRows (indexTuples st)) (htuples : indexTuples st = a ++ t :: b)
    (hid : isIndexRow id t = true) (hlive : t.xmax = 0) :
    (a ++ b).filter (isLiveRow id) = [] ∧ liveRows st id = [t] := by
  have hperm := (liveRows_split htuples hid).1 hlive
  have hsingle := h.single id
  rw [List.countP_eq_length_filter] at hsingle
  have hlen : (liveRows st id).length = _ := hperm.length_eq
  have hnil : (a ++ b).filter (isLiveRow id) = [] := by
    refine List.eq_nil_of_length_eq_zero ?_
    rw [List.length_cons] at hlen
    unfold liveRows at hlen
    omega
  rw [hnil] at hperm
  exact ⟨hnil, List.perm_singleton.1 hperm⟩

/-- The new row is a live one with the id and the new root. -/
theorem rewired_row (root : Nat) (hshape : isShaped t.values = true) (hid : isIndexRow id t = true) :
    isLiveRow id (.mk' SYSTEM_TXN_ID invalidTxnId (rewired t root)) = true ∧
      (rewired t root)[4]? = some (.int (asI32 root)) ∧
      ∀ k, k ≠ 4 → (rewired t root)[k]? = t.values[k]? := by
  have hvals := rewired_eq hshape root
  obtain ⟨_, _, _, _, _, _, hcols⟩ := isShaped_iff.1 hshape
  refine ⟨?_, ?_, fun k hk => ?_⟩
  · have hrow : isIndexRow id (.mk' SYSTEM_TXN_ID invalidTxnId (rewired t root)) = isIndexRow id t := by
      refine isIndexRow_congr ?_ id
      show (rewired t root).head? = _
      rw [hvals, hcols]
      rfl
    unfold isLiveRow
    rw [hrow, hid]
    rfl
  · rw [hvals, hcols]
    rfl
  · rw [hvals, List.getElem?_set_ne (Ne.symm hk)]

/-- **The condition is exact** in a state with at most one live row an id. -/
theorem IndexRows.rootIsSet_iff (h : IndexRows (indexTuples st)) (id root : Nat) :
    RootSet st id root ↔ Rewirable st id root := by
  unfold RootSet Rewirable
  rcases updateIndexRoot_cases st id root with ⟨hfirst, e, hrun⟩ |
    ⟨t, a, b, hfirst, htuples, hid, hcase⟩
  · rw [hfirst, hrun]
    exact iff_of_true rfl trivial
  have hshape : isShaped t.values = true := h.shaped t (by rw [htuples]; simp)
  obtain ⟨hnew, hroot, hcols⟩ := rewired_row root hshape hid
  rw [hfirst]
  dsimp only
  rcases hcase with ⟨hroom, st', hrun, hperm⟩ | ⟨hroom, e, st', hrun, htuples'⟩
  · rw [hrun]
    have hlive' : (liveRows st' id).Perm (.mk' SYSTEM_TXN_ID invalidTxnId (rewired t root) ::
        (a ++ b).filter (isLiveRow id)) := by
      have hfilter := hperm.filter (isLiveRow id)
      rwa [List.filter_cons, if_pos hnew] at hfilter
    by_cases hlive : t.xmax = 0
    · obtain ⟨hnil, hone⟩ := h.alone htuples hid hlive
      rw [if_pos hlive]
      rw [hnil] at hlive'
      refine iff_of_true ⟨_, List.perm_singleton.1 hlive', hroot, fun u hu k hk => ?_⟩ hroom
      rw [hone] at hu
      rw [List.mem_singleton.1 hu]
      exact hcols k hk
    · have hdead := (liveRows_split htuples hid).2 hlive
      rw [if_neg hlive, hdead]
      refine ⟨fun ⟨row, hrow, _⟩ => Or.inl ?_, fun hor => ?_⟩
      · rw [hrow] at hlive'
        exact (List.cons.inj (List.perm_singleton.1 hlive'.symm)).2
      · have hnil := hor.resolve_right (not_not_intro hroom)
        rw [hnil] at hlive' ⊢
        exact ⟨_, List.perm_singleton.1 hlive', hroot, fun u hu => (List.not_mem_nil hu).elim⟩
  · rw [hrun]
    have hlive' : liveRows st' id = (a ++ b).filter (isLiveRow id) := by
      unfold liveRows
      rw [htuples']
    dsimp only
    rw [hlive']
    by_cases hlive : t.xmax = 0
    · obtain ⟨hnil, hone⟩ := h.alone htuples hid hlive
      rw [if_pos hlive, hnil, hone]
      exact iff_of_false (fun heq => List.cons_ne_nil _ _ heq.symm) hroom
    · rw [if_neg hlive, (liveRows_split htuples hid).2 hlive]
      exact iff_of_true rfl (Or.inr hroom)

/-- **An update that does what it has to** keeps one live row an id. -/
theorem IndexRows.rewire (h : IndexRows (indexTuples st)) (hok : Rewirable st id root) :
    IndexRows (indexTuples (updateIndexRoot id root st).final) := by
  rcases updateIndexRoot_cases st id root with ⟨-, e, hrun⟩ |
    ⟨t, a, b, hfirst, htuples, hid, hcase⟩
  · rw [hrun]
    exact h
  have hrest : IndexRows (a ++ b) := by
    refine h.sublist ?_
    rw [htuples]
    exact (List.Sublist.refl a).append (List.sublist_cons_self t b)
  rcases hcase with ⟨hroom, st', hrun, hperm⟩ | ⟨-, e, st', hrun, htuples'⟩
  · have hshape : isShaped t.values = true := h.shaped t (by rw [htuples]; simp)
    have hnil : (a ++ b).filter (isLiveRow id) = [] := by
      by_cases hlive : t.xmax = 0
      · exact (h.alone htuples hid hlive).1
      · unfold Rewirable at hok
        rw [hfirst] at hok
        dsimp only at hok
        rw [if_neg hlive, (liveRows_split htuples hid).2 hlive] at hok
        exact hok.resolve_right (not_not_intro hroom)
    have hnew := (rewired_row root hshape hid).1
    rw [hrun]
    refine IndexRows.perm (hrest.cons ?_ fun id' hid' => ?_) hperm.symm
    · show isShaped (rewired t root) = true
      rw [rewired_eq hshape]
      exact isShaped_set hshape _
    · simp only [isLiveRow, decide_eq_true_eq] at hnew
      rw [isIndexRow_unique hid' hnew.2, List.countP_eq_length_filter, hnil]
      rfl
  · rw [hrun]
    show IndexRows (indexTuples st')
    rw [htuples']
    exact hrest

end Update

/-! ## Programs -/

/-- Steps that keep one live row an id. -/
def Kept (st st' : State) : Prop := IndexRows (indexTuples st) → IndexRows (indexTuples st')

abbrev KeepsRows {α : Type} (x : CatM α) : Prop := Guar Kept (fun _ => True) x fun _ _ => True

/-- A program that does not write `pg_index`. -/
abbrev SparesIndex {α : Type} (x : CatM α) : Prop :=
  Guar (fun s s' : State => s'.chains .pgIndex = s.chains .pgIndex) (fun _ => True) x fun _ _ => True

theorem KeepsRows.final {α : Type} {x : CatM α} (h : KeepsRows x) (hst : IndexRows (indexTuples st)) :
    IndexRows (indexTuples (x st).final) :=
  (h.steps (s := st) trivial).invariant (I := fun s => IndexRows (indexTuples s))
    (fun _ _ hs hi => hs hi) hst

theorem kept_of_chain (h : st'.chains .pgIndex = st.chains .pgIndex) : Kept st st' := fun hst => by
  unfold indexTuples
  rw [h]
  exact hst

/-- What depends on `pg_index` only, stays. -/
theorem SparesIndex.keeps {α : Type} {x : CatM α} {P : State → Prop} (h : SparesIndex x)
    (hP : ∀ s s', s'.chains .pgIndex = s.chains .pgIndex → P s → P s') :
    Guar Kept P x fun _ => P :=
  ((Guar.frame h hP).mono fun _ _ => kept_of_chain).weaken (fun _ hs => ⟨trivial, hs⟩) fun _ _ h => h.2

theorem SparesIndex.keepsRows {α : Type} {x : CatM α} (h : SparesIndex x) : KeepsRows x :=
  h.mono fun _ _ => kept_of_chain

theorem spares_of_reading {α : Type} {x : CatM α} (h : FreshIds.Reading x) : SparesIndex x :=
  h.mono fun _ _ hr => congrFun hr.chains _

theorem spares_get : SparesIndex (get : CatM State) := Guar.get.post fun _ _ _ => trivial

theorem spares_newPage : SparesIndex newPage :=
  Guar.ofStep (fun _ _ => Or.inr rfl) fun _ _ _ _ _ => trivial

theorem spares_invalidate : SparesIndex invalidate :=
  Guar.ofStep (fun _ _ => Or.inr rfl) fun _ _ _ _ _ => trivial

theorem spares_insertOther {rel : Rel} {t : HeapTuple} (hrel : rel ≠ .pgIndex) (ht : t.xmax = 0) :
    SparesIndex (insertBytes rel t) := by
  refine Guar.ofStep (fun s _ => Or.inr ?_) fun _ _ _ _ _ => trivial
  have hends := FreshIds.insertBytes_ends rel ht s
  unfold Ends at hends
  cases hx : insertBytes rel t s with
  | ok a s' =>
    rw [hx] at hends
    exact hends.others _ hrel.symm
  | error e s' =>
    rw [hx] at hends
    exact hends.others _ hrel.symm

theorem setChain_other {rel : Rel} (hrel : rel ≠ .pgIndex) (st : State) (pages : List Page) :
    (st.setChain rel pages).chains .pgIndex = st.chains .pgIndex :=
  Function.update_of_ne hrel.symm _ _

theorem keeps_tombstone {rel : Rel} {txn : Nat} {pred : List Value → Bool} (htxn : txn ≠ 0) :
    KeepsRows (tombstoneCatalogRows rel txn pred) := by
  refine Guar.ofStep (fun s _ => Or.inr ?_) fun _ _ _ _ _ => trivial
  by_cases hrel : rel = .pgIndex
  · subst hrel
    intro hs
    rw [tombstone_index]
    refine hs.map (fun t => ?_) fun t ht => ?_
    · unfold entomb
      split <;> rfl
    · unfold entomb at ht
      split at ht
      · exact absurd ht htxn
      · exact ht
  · exact kept_of_chain (setChain_other hrel s _)

/-- **TRUNCATE** deletes the live row and puts a new one at the end. -/
theorem rewrite_index {txn root id : Nat} (htxn : txn ≠ 0) :
    KeepsRows (rewriteCatalogRow .pgIndex txn (hasId 0 id) fun vals => vals.set 4 (.int (asI32 root))) := by
  refine Guar.ofStep (fun st _ => ?_) fun _ _ _ _ _ => trivial
  rw [rewriteCatalogRow_run]
  cases hc : changeFirst (fun s => (liveMatch (hasId 0 id) s).map fun t =>
      (t, { s with tuple := some (.heap { t with xmax := txn }) })) (st.chains .pgIndex) with
  | none => exact Or.inl rfl
  | some r =>
    obtain ⟨t, pages⟩ := r
    refine Or.inr fun hst => ?_
    show IndexRows (indexTuples (insertBytes .pgIndex _ (st.setChain .pgIndex pages)).final)
    have hmatch : ∀ {s : Slot} {t : HeapTuple} {s' : Slot}, ((liveMatch (hasId 0 id) s).map fun t =>
        (t, { s with tuple := some (.heap { t with xmax := txn }) })) = some (t, s') →
        slotTuple s = some t ∧ t.xmax = 0 ∧ slotTuple s' = some { t with xmax := txn } := by
      intro s t s' h
      obtain ⟨u, hu, heq⟩ := Option.map_eq_some_iff.1 h
      cases heq
      unfold liveMatch at hu
      split at hu
      · next v hs =>
        split at hu
        · next hcond =>
          cases hu
          exact ⟨by simp [slotTuple, hs], hcond.1, rfl⟩
        · cases hu
      · cases hu
    obtain ⟨a, b, s, s', htuples, hs, htuples', -⟩ := changeFirst_tuples hc fun _ _ _ h => (hmatch h).1
    obtain ⟨-, hlive, hgone⟩ := hmatch hs
    have htuples : indexTuples st = a ++ t :: b := htuples
    have hshape : isShaped t.values = true := hst.shaped t (by rw [htuples]; simp)
    rw [hgone, Option.toList_some] at htuples'
    -- the deleted row, and the others
    have hdead : IndexRows (a ++ [{ t with xmax := txn }] ++ b) := by
      refine IndexRows.perm (l := { t with xmax := txn } :: (a ++ b)) (IndexRows.cons ?_ hshape ?_) ?_
      · refine hst.sublist ?_
        rw [htuples]
        exact (List.Sublist.refl a).append (List.sublist_cons_self t b)
      · intro id' hid'
        rw [List.countP_eq_length_filter, (hst.alone htuples hid' hlive).1]
        rfl
      · rw [List.append_assoc]
        exact List.perm_middle.symm
    have hins := insertBytes_index (.mk' SYSTEM_TXN_ID invalidTxnId
      (t.values.set 4 (.int (asI32 root)))) (st.setChain .pgIndex pages)
    rw [indexTuples_setChain, htuples'] at hins
    unfold Ends at hins
    cases hx : insertBytes .pgIndex (.mk' SYSTEM_TXN_ID invalidTxnId
        (t.values.set 4 (.int (asI32 root)))) (st.setChain .pgIndex pages) with
    | error e s₁ =>
      rw [hx] at hins
      show IndexRows (indexTuples s₁)
      rw [show indexTuples s₁ = _ from hins]
      exact hdead
    | ok u s₁ =>
      rw [hx] at hins
      show IndexRows (indexTuples s₁)
      rw [show indexTuples s₁ = _ from hins]
      refine IndexRows.perm (hdead.cons (isShaped_set hshape _) fun id' hid' => ?_)
        (List.perm_append_singleton _ _).symm
      -- nobody else has the id
      have hrow : isIndexRow id' t = true := by
        obtain ⟨_, _, _, _, _, _, hvals⟩ := isShaped_iff.1 hshape
        rw [← hid']
        refine isIndexRow_congr ?_ id'
        show t.values.head? = (t.values.set 4 _).head?
        rw [hvals]
        rfl
      have hnil := (hst.alone htuples hrow hlive).1
      rw [List.countP_eq_length_filter, List.filter_append, List.filter_append,
        List.filter_singleton]
      rw [List.filter_append, List.append_eq_nil_iff] at hnil
      have hgone' : isLiveRow id' { t with xmax := txn } = false := by simp [isLiveRow, htxn]
      rw [hnil.1, hnil.2, hgone']
      rfl

/-! ## Statements -/

theorem indexIdsLeft_of_chain (s s' : State) (h : s'.chains .pgIndex = s.chains .pgIndex)
    (hleft : IndexIdsLeft s) : IndexIdsLeft s' := by
  unfold IndexIdsLeft State.allIndexes at hleft ⊢
  rw [h]
  exact hleft

/-- **The next id** is on no live row. -/
theorem nextIndexId_fresh (hst : IndexRows (indexTuples st)) (hleft : IndexIdsLeft st) :
    (indexTuples st).countP (isLiveRow (asUsize (FreshIds.nextIndexId st))) = 0 := by
  rw [List.countP_eq_zero]
  intro t ht hlive
  simp only [isLiveRow, decide_eq_true_eq] at hlive
  obtain ⟨n, name, table, col, root, u, hvals⟩ := isShaped_iff.1 (hst.shaped t ht)
  have hid : asUsize n = asUsize (FreshIds.nextIndexId st) := by
    have hrow := hlive.2
    unfold isIndexRow at hrow
    rw [hvals] at hrow
    exact beq_iff_eq.1 hrow
  obtain ⟨x, hx, hxid⟩ : ∃ x ∈ st.allIndexes, x.indexId = asUsize n := by
    refine ⟨⟨asUsize n, name, asUsize table, asUsize col, asPageId root, u⟩, ?_, rfl⟩
    refine List.mem_filterMap.2 ⟨t.values, List.mem_filterMap.2 ⟨t, ht, ?_⟩, ?_⟩
    · unfold notDeleted
      rw [if_pos hlive.1]
    · rw [hvals]
      rfl
  have hmax : maxId (st.allIndexes.map IndexDef.indexId) ≠ Int32.maxValue :=
    FreshIds.maxId_ne fun id hmem => by
      obtain ⟨y, hy, rfl⟩ := List.mem_map.1 hmem
      exact hleft y hy
  have hlt := Int32.lt_of_le_of_lt (FreshIds.le_maxId (List.mem_map_of_mem (f := IndexDef.indexId) hx))
    (lt_add_one hmax)
  rw [hxid, hid, asI32_asUsize] at hlt
  exact Int32.lt_irrefl hlt

theorem keeps_performCreateIndex (txn pages : Nat) (a : CreateIndexStmt) :
    Guar Kept IndexIdsLeft (performCreateIndex txn pages a) fun _ _ => True := by
  refine Guar.ofStep (fun st hleft => Or.inr fun hst => ?_) fun _ _ _ _ _ => trivial
  have htable := (FreshIds.tableById_reading a.tableId).reads st
  rw [performCreateIndex_eq]
  cases hx : tableById a.tableId st with
  | error e s₁ =>
    rw [hx] at htable
    exact kept_of_chain (congrFun htable.chains _) hst
  | ok r s₁ =>
    rw [hx] at htable
    have hchain : s₁.chains .pgIndex = st.chains .pgIndex := congrFun htable.chains _
    cases r with
    | none => exact kept_of_chain hchain hst
    | some t =>
      dsimp only
      have hins := insertBytes_index (.mk' txn invalidTxnId
        (indexValues st a (s₁.fresh (s₁.allocs + pages)))) { s₁ with allocs := s₁.allocs + pages + 1 }
      have hsame : indexTuples { s₁ with allocs := s₁.allocs + pages + 1 } = indexTuples st := by
        unfold indexTuples
        rw [← hchain]
      rw [hsame] at hins
      unfold Ends at hins
      cases hrun : insertBytes .pgIndex (.mk' txn invalidTxnId
          (indexValues st a (s₁.fresh (s₁.allocs + pages)))) { s₁ with allocs := s₁.allocs + pages + 1 } with
      | error e s₂ =>
        rw [hrun] at hins
        rw [EStateM.bind_of_error hrun]
        show IndexRows (indexTuples s₂)
        rw [show indexTuples s₂ = _ from hins]
        exact hst
      | ok u s₂ =>
        rw [hrun] at hins
        rw [EStateM.bind_of_ok hrun]
        show IndexRows (indexTuples s₂)
        rw [show indexTuples s₂ = _ from hins]
        refine IndexRows.perm (hst.cons rfl fun id hid => ?_) (List.perm_append_singleton _ _).symm
        have hnext : asUsize (FreshIds.nextIndexId st) = id := beq_iff_eq.1 hid
        rw [← hnext]
        exact nextIndexId_fresh hst hleft

theorem keeps_createIndex (txn : TxnId) (pages : Nat) (name table column : String) (isUnique : Bool) :
    Guar Kept IndexIdsLeft (Stmt.createIndex txn pages name table column isUnique).run
      fun _ _ => True := by
  have hanalysis : SparesIndex (analyzeCreateIndex name table column isUnique) :=
    spares_of_reading ((guar_analyzeCreateIndex FreshIds.findTable_reading name table column
      isUnique).post fun _ _ _ => trivial)
  exact (hanalysis.keeps indexIdsLeft_of_chain).bind fun a => keeps_performCreateIndex txn pages a

theorem keeps_createTable (txn : TxnId) (pages : Nat) (s : CreateTableStmt) :
    Guar Kept IndexIdsLeft (Stmt.createTable txn pages s).run fun _ _ => True := by
  have hanalysis : SparesIndex (analyzeCreateTable s) :=
    spares_of_reading ((guar_analyzeCreateTable FreshIds.findTable_reading s).post fun _ _ _ => trivial)
  have hinsert : ∀ {rel : Rel} {t : HeapTuple}, rel ≠ .pgIndex → t.xmax = 0 →
      Guar Kept IndexIdsLeft (insertBytes rel t) fun _ => IndexIdsLeft := fun hrel ht =>
    (spares_insertOther hrel ht).keeps indexIdsLeft_of_chain
  have hget : Guar Kept IndexIdsLeft (get : CatM State) fun _ => IndexIdsLeft :=
    spares_get.keeps indexIdsLeft_of_chain
  refine (hanalysis.keeps indexIdsLeft_of_chain).bind fun pk => hget.bind fun st => ?_
  refine (guar_liftE _).bind fun tables => (spares_newPage.keeps indexIdsLeft_of_chain).bind fun page => ?_
  refine (hinsert (by decide) rfl).bind fun _ => ?_
  refine Guar.bind (Q := fun _ => IndexIdsLeft) (Guar.forM fun c _ => hinsert (by decide) rfl) fun _ => ?_
  refine hget.bind fun st' => ?_
  refine Guar.bind (Q := fun _ => IndexIdsLeft) (Guar.forM fun c _ => hinsert (by decide) rfl) fun _ => ?_
  refine Guar.bind (Q := fun _ => IndexIdsLeft) (Guar.forM fun c _ => hinsert (by decide) rfl) fun _ => ?_
  refine Guar.bind (Q := fun _ _ => True) ?_ fun _ => spares_invalidate.keepsRows
  cases pk with
  | none => exact Guar.pure fun _ _ => trivial
  | some col => exact keeps_performCreateIndex txn pages _

theorem keeps_createSequence (txn : TxnId) (s : CreateSequenceStmt) :
    KeepsRows (Stmt.createSequence txn s).run := by
  refine ((analyzeCreateSequence_reads s).guar.post fun _ _ _ => trivial).bind fun a => ?_
  refine spares_get.keepsRows.bind fun st => spares_newPage.keepsRows.bind fun page => ?_
  exact (spares_insertOther (by decide) rfl).keepsRows.bind fun _ => spares_invalidate.keepsRows

theorem keeps_resolveTables (ifExists : Bool) (names : List String) :
    KeepsRows (resolveTables ifExists names) :=
  (spares_of_reading ((guar_resolveTables FreshIds.findTable_reading ifExists names).post
    fun _ _ _ => trivial)).keepsRows

theorem keeps_dropTable (txn : TxnId) (names : List String) (ifExists : Bool) :
    KeepsRows (Stmt.dropTable txn names ifExists).run := by
  refine (keeps_resolveTables ifExists names).bind fun ids => ?_
  refine Guar.bind (Q := fun _ _ => True) (Guar.forM fun id _ => ?_) fun _ => spares_invalidate.keepsRows
  refine (keeps_tombstone txn.2).bind fun _ => (keeps_tombstone txn.2).bind fun _ => ?_
  exact keeps_tombstone txn.2

theorem keeps_dropIndex (txn : TxnId) (name : String) (ifExists : Bool) :
    KeepsRows (Stmt.dropIndex txn name ifExists).run := by
  refine spares_get.keepsRows.bind fun st => ?_
  split
  · exact (keeps_tombstone txn.2).bind fun _ => spares_invalidate.keepsRows
  · exact Guar.ite (fun _ => Guar.ret) fun _ => Guar.throw

theorem keeps_dropSequence (txn : TxnId) (names : List String) (ifExists : Bool) :
    KeepsRows (Stmt.dropSequence txn names ifExists).run := by
  refine spares_get.keepsRows.bind fun st => (guar_liftE _).bind fun ids => ?_
  refine Guar.bind (Q := fun _ _ => True) (Guar.forM fun id _ => ?_) fun _ => spares_invalidate.keepsRows
  exact keeps_tombstone txn.2

theorem keeps_rewriteOther {rel : Rel} {txn : Nat} {pred : List Value → Bool}
    {transform : List Value → List Value} (hrel : rel ≠ .pgIndex) :
    KeepsRows (rewriteCatalogRow rel txn pred transform) := by
  refine spares_get.keepsRows.bind fun st => ?_
  split
  · exact Guar.throw
  · refine Guar.bind (Q := fun _ _ => True) ?_ fun _ => (spares_insertOther hrel rfl).keepsRows
    refine Guar.ofStep (fun s _ => Or.inr ?_) fun _ _ _ _ _ => trivial
    exact kept_of_chain (setChain_other hrel s _)

theorem keeps_truncate (txn : TxnId) (names : List String) :
    KeepsRows (Stmt.truncate txn names).run := by
  refine (keeps_resolveTables false names).bind fun ids => ?_
  refine Guar.bind (Q := fun _ _ => True) (Guar.forM fun id _ => ?_) fun _ => spares_invalidate.keepsRows
  refine spares_newPage.keepsRows.bind fun page => ?_
  refine (keeps_rewriteOther (by decide)).bind fun _ => ?_
  refine (spares_of_reading (FreshIds.indexesForTable_reading id)).keepsRows.bind fun indexes => ?_
  exact Guar.forM fun idx _ => spares_newPage.keepsRows.bind fun root => rewrite_index txn.2

theorem keeps_lookup {α : Type} {x : CatM α} (h : FreshIds.Reading x) :
    KeepsRows (do let _ ← x : CatM Unit) :=
  (spares_of_reading h).keepsRows.bind fun _ => Guar.ret

theorem kept_rewireRoot {grown : List (Nat × Nat)} {idx : IndexDef}
    (hst : IndexRows (indexTuples st)) (hok : RootOk grown st idx) :
    IndexRows (indexTuples (rewireRoot grown idx st).final) := by
  unfold rewireRoot
  split
  · next hne => exact hst.rewire (hok hne)
  · exact hst

/-- The updates of one row's insertion. -/
theorem kept_indexInsert {tableId : Nat} {grown : List (Nat × Nat)}
    (hst : IndexRows (indexTuples st)) (hok : OpOk st (.indexInsert tableId grown)) :
    IndexRows (indexTuples (indexInsertForRow tableId grown st).final) := by
  have hindexes := KeepsRows.final (spares_of_reading (FreshIds.indexesForTable_reading tableId)).keepsRows hst
  simp only [OpOk] at hok
  unfold indexInsertForRow
  cases hx : indexesForTable tableId st with
  | error e st₁ =>
    rw [hx] at hindexes
    rw [EStateM.bind_of_error hx]
    exact hindexes
  | ok indexes st₁ =>
    rw [hx] at hindexes hok
    have hst₁ : IndexRows (indexTuples st₁) := hindexes
    rw [EStateM.bind_of_ok hx]
    split
    · exact hst₁
    have htable := KeepsRows.final (spares_of_reading (FreshIds.tableById_reading tableId)).keepsRows hst₁
    dsimp only at hok
    cases hy : tableById tableId st₁ with
    | error e st₂ =>
      rw [hy] at htable
      rw [EStateM.bind_of_error hy]
      exact htable
    | ok r st₂ =>
      rw [hy] at htable hok
      rw [EStateM.bind_of_ok hy]
      cases r with
      | none => exact htable
      | some t =>
        exact Along.invariant (I := fun s => IndexRows (indexTuples s))
          (fun _ _ hs hround => kept_rewireRoot hs hround) hok htable

theorem kept_op {op : Op} (hst : IndexRows (indexTuples st)) (hok : OpOk st op) :
    IndexRows (indexTuples (op.run st).final) := by
  cases op with
  | findTable name => exact (keeps_lookup (FreshIds.findTable_reading name)).final hst
  | tableById id => exact (keeps_lookup (FreshIds.tableById_reading id)).final hst
  | indexesForTable id => exact (keeps_lookup (FreshIds.indexesForTable_reading id)).final hst
  | constraintsForTable id =>
    have hquiet : SparesIndex (constraintsForTable id) := by
      refine Guar.ofStep (fun s _ => ?_) fun _ _ _ _ _ => trivial
      unfold constraintsForTable
      split
      · exact Or.inl rfl
      · exact Or.inr rfl
    have hkeeps : KeepsRows (Op.constraintsForTable id).run := hquiet.keepsRows.bind fun _ => Guar.ret
    exact hkeeps.final hst
  | indexInsert tableId grown => exact kept_indexInsert hst hok

/-- One row DML writes to `pg_index`. -/
theorem kept_write {txn : TxnId} {w : RowWrite} (hst : IndexRows (indexTuples st))
    (hok : WriteOk st w) : IndexRows (indexTuples (w.run .pgIndex txn st).final) := by
  cases w with
  | delete pred => exact (keeps_tombstone txn.2).final hst
  | insert values =>
    unfold WriteOk at hok
    split at hok
    · next n vals hvals =>
      cases hvals
      have hins := insertBytes_index (.mk' txn invalidTxnId (.int n :: vals)) st
      unfold Ends at hins
      show IndexRows (indexTuples (insertBytes .pgIndex (.mk' txn invalidTxnId (.int n :: vals)) st).final)
      cases hx : insertBytes .pgIndex (.mk' txn invalidTxnId (.int n :: vals)) st with
      | error e s₁ =>
        rw [hx] at hins
        show IndexRows (indexTuples s₁)
        rw [show indexTuples s₁ = _ from hins]
        exact hst
      | ok u s₁ =>
        rw [hx] at hins
        show IndexRows (indexTuples s₁)
        rw [show indexTuples s₁ = _ from hins]
        refine IndexRows.perm (hst.cons hok.1 fun id hid => ?_) (List.perm_append_singleton _ _).symm
        have hn : asUsize n = id := beq_iff_eq.1 hid
        rw [← hn, List.countP_eq_length_filter]
        exact List.length_eq_zero_iff.2 hok.2
    · exact hok.elim
    · next h => cases h

theorem kept_writeOther {rel : Rel} {txn : TxnId} (hrel : rel ≠ .pgIndex) (w : RowWrite) :
    KeepsRows (w.run rel txn) := by
  cases w with
  | delete pred => exact keeps_tombstone txn.2
  | insert values => exact (spares_insertOther hrel rfl).keepsRows

/-- **One statement.** -/
theorem IndexRows.step {stmt : Stmt} (hst : IndexRows (indexTuples st)) (hok : Careful st stmt)
    (hstep : st.step stmt = some st') : IndexRows (indexTuples st') := by
  cases hstep
  cases stmt with
  | createTable txn pages s =>
    exact ((keeps_createTable txn pages s).steps hok).invariant
      (I := fun s => IndexRows (indexTuples s)) (fun _ _ hs hi => hs hi) hst
  | createIndex txn pages name table column isUnique =>
    exact ((keeps_createIndex txn pages name table column isUnique).steps hok).invariant
      (I := fun s => IndexRows (indexTuples s)) (fun _ _ hs hi => hs hi) hst
  | createSequence txn s => exact (keeps_createSequence txn s).final hst
  | dropTable txn names ifExists => exact (keeps_dropTable txn names ifExists).final hst
  | dropIndex txn name ifExists => exact (keeps_dropIndex txn name ifExists).final hst
  | dropSequence txn names ifExists => exact (keeps_dropSequence txn names ifExists).final hst
  | truncate txn names => exact (keeps_truncate txn names).final hst
  | dml ops =>
    exact Along.invariant (I := fun s => IndexRows (indexTuples s))
      (fun _ _ hs hround => kept_op hs hround) hok hst
  | direct rel txn writes =>
    by_cases hrel : rel = .pgIndex
    · subst hrel
      exact Along.invariant (I := fun s => IndexRows (indexTuples s))
        (fun _ _ hs hround => kept_write hs hround) (hok rfl) hst
    · have hkeeps : KeepsRows (Stmt.direct rel txn writes).run :=
        Guar.forM fun w _ => kept_writeOther hrel w
      exact hkeeps.final hst
  | vacuum rel dead =>
    by_cases hrel : rel = .pgIndex
    · subst hrel
      refine hst.sublist ?_
      show List.Sublist ((Function.update st.chains .pgIndex _ .pgIndex).flatMap pageTuples) _
      rw [Function.update_self]
      exact vacuumChain_tuples dead _
    · exact kept_of_chain (Function.update_of_ne (Ne.symm hrel) _ _) hst

/-! ## Runs -/

theorem indexRows_bootstrap : IndexRows (indexTuples bootstrap) :=
  ⟨fun _ ht => (List.not_mem_nil ht).elim, fun _ => Nat.zero_le 1⟩

/-- **The root of an index**: after any run of statements whose own updates do what they
have to, an update does so exactly where the first row with the id is in order. -/
theorem rootSet_iff (stmts : List Stmt) (hrun : Follows State.step Careful bootstrap stmts)
    (id root : Nat) : RootSet (after State.step bootstrap stmts) id root ↔
      Rewirable (after State.step bootstrap stmts) id root := by
  have hrows : IndexRows (indexTuples (after State.step bootstrap stmts)) :=
    hrun.invariant (I := fun s => IndexRows (indexTuples s))
      (fun hs hok hstep => hs.step hok hstep) indexRows_bootstrap
  exact hrows.rootIsSet_iff id root

/-- An index whose root was split, then TRUNCATE and VACUUM of the catalog: the next root
split finds the live row. -/
theorem rootSet_after_vacuum : RootSet (after State.step bootstrap
    [createT, .dml [.indexInsert 5 [(0, 8)]], .truncate 4 ["t"],
      .vacuum .pgIndex fun _ xmax => xmax = 4]) 0 9 :=
  (rootSet_iff _ (by decide +kernel) 0 9).2 (by decide +kernel)

/-- **TRUNCATE hides the live row from `update_index_root`**: the first row of the index is
the deleted one, and after the update two rows are live. -/
theorem root_split_after_truncate : ¬ ∀ (stmts : List Stmt) (id root : Nat),
    RootSet (after State.step bootstrap stmts) id root := by
  intro h
  have hset := h [createT, .truncate 4 ["t"]] 0 9
  have htwo : (match updateIndexRoot 0 9 (after State.step bootstrap
      [createT, .truncate 4 ["t"]]) with
    | .ok _ st' => (liveRows st' 0).length
    | .error _ _ => 0) = 2 := by decide +kernel
  unfold RootSet at hset
  split at hset
  · next st' hx =>
    obtain ⟨row, hrow, -⟩ := hset
    rw [hx] at htwo
    dsimp only at htwo
    rw [hrow, List.length_singleton] at htwo
    cases htwo
  · next e st' hx =>
    rw [hx] at htwo
    cases htwo

end Ccdb.PgCatalog.IndexRoot
