import Ccdb.BTree.Ops
import Ccdb.Lib.BPlusTree

/-!
# Ccdb — B+Tree pages as nodes

What the page loops of `btree.rs` compute on a page that holds a leaf or an
internal node. A `Key` is a byte string that `compare_keys` can order, so a
node never contains a key on which a comparison fails.

Main results:

* `mergeEntry_eq` — merging an entry is `insertBefore` on the entry list.
* `childFor_eq` — the child an internal page selects is the `route` of its
  children.
* `insertAll_eq` — rebuilding a page succeeds when the entries fit.
-/

namespace Ccdb.BTree

open Ccdb BPlus

/-! ## Ordered keys -/

/-- A key that `compare_keys` can order. -/
def Key (ty : DataType) : Type := { bytes : Bytes // (keyRank ty bytes).isSome }

namespace Key

variable {ty : DataType}

instance : DecidableEq (Key ty) := inferInstanceAs (DecidableEq (Subtype _))

def bytes (k : Key ty) : Bytes := k.1

def rank (k : Key ty) : List Int := (keyRank ty k.1).get k.2

theorem keyRank_bytes (k : Key ty) : keyRank ty k.bytes = some k.rank := (Option.some_get k.2).symm

theorem bytes_inj {a b : Key ty} (h : a.bytes = b.bytes) : a = b := Subtype.ext h

/-- `compare_keys` on ordered keys. -/
theorem compareKeys_eq (a b : Key ty) : compareKeys a.bytes b.bytes ty =
    .ok (if a.rank < b.rank then .lt else if a.rank = b.rank then .eq else .gt) := by
  obtain ⟨o, ho, hcmp⟩ := compareKeys_compares a.keyRank_bytes b.keyRank_bytes
  rw [ho]
  cases o with
  | lt =>
    have hlt : a.rank < b.rank := hcmp
    rw [if_pos hlt]
  | eq =>
    have heq : a.rank = b.rank := hcmp
    rw [if_neg (by rw [heq]; exact lt_irrefl _), if_pos heq]
  | gt =>
    have hlt : b.rank < a.rank := hcmp
    rw [if_neg hlt.not_gt, if_neg hlt.ne']

theorem compareKeys_eq_lt {a b : Key ty} :
    compareKeys a.bytes b.bytes ty = .ok .lt ↔ a.rank < b.rank := by
  rw [compareKeys_eq]
  split
  · simp [*]
  · split <;> simp [*]

end Key

/-! ## Monad plumbing -/

theorem bind_ok {α β : Type} {x : PoolM α} {f : α → PoolM β} {s s' : BufferPool} {a : α}
    (h : x s = .ok a s') : (x >>= f) s = f a s' := by
  simp [bind, EStateM.bind, h]

theorem bind_error {α β : Type} {x : PoolM α} {f : α → PoolM β} {s s' : BufferPool} {e : DbError}
    (h : x s = .error e s') : (x >>= f) s = .error e s' := by
  simp [bind, EStateM.bind, h]

@[simp] theorem liftE_ok {α : Type} (a : α) (s : BufferPool) : liftE (.ok a) s = .ok a s := rfl

theorem writePage_apply (p : Nat) (page : Page) (s : BufferPool) :
    writePage p page s = .ok () (s.set p page) := rfl

theorem pageFuel_apply (s : BufferPool) : pageFuel s = .ok (s.pageCount + 1) s := rfl

@[simp] theorem pure_apply {α : Type} (a : α) (s : BufferPool) : (pure a : PoolM α) s = .ok a s := rfl

@[simp] theorem except_ok_bind {α β : Type} (a : α) (f : α → Except DbError β) :
    (Except.ok a >>= f) = f a := rfl

/-! ## Entries on pages -/

section Entries

variable {ty : DataType}

def leafTuples (es : List (Key ty × Rid)) : List PageTuple :=
  es.map fun e => .leaf e.1.bytes e.2

def nodeTuples (es : List (Key ty × Nat)) : List PageTuple :=
  es.map fun e => .internal e.1.bytes e.2

/-- The slots hold exactly these tuples. -/
def Holds (slots : List Slot) (ts : List PageTuple) : Prop := slots.map Slot.tuple = ts.map some

theorem holds_cons {slots : List Slot} {t : PageTuple} {ts : List PageTuple}
    (h : Holds slots (t :: ts)) : ∃ s rest, slots = s :: rest ∧ s.tuple = some t ∧ Holds rest ts := by
  cases slots with
  | nil => simp [Holds] at h
  | cons s rest =>
    simp only [Holds, List.map_cons, List.cons.injEq] at h
    exact ⟨s, rest, rfl, h.1, h.2⟩

theorem holds_nil {slots : List Slot} (h : Holds slots []) : slots = [] := by
  simpa [Holds] using h

theorem unwrapTuple_eq {s : Slot} {t : PageTuple} (h : s.tuple = some t) : unwrapTuple s = .ok t := by
  simp [unwrapTuple, h]

/-- The two kinds of entries, for the loops that treat them alike. -/
structure EntryKind (ty : DataType) (β : Type) where
  kind : PageKind
  tuple : Key ty → β → PageTuple
  key_eq : ∀ k b, entryKey kind (tuple k b) = .ok k.bytes

def leafEntry (ty : DataType) : EntryKind ty Rid where
  kind := .btreeLeaf
  tuple k rid := .leaf k.bytes rid
  key_eq _ _ := rfl

def nodeEntry (ty : DataType) : EntryKind ty Nat where
  kind := .btreeInternal
  tuple k child := .internal k.bytes child
  key_eq _ _ := rfl

variable {β : Type} (E : EntryKind ty β)

def EntryKind.tuples (es : List (Key ty × β)) : List PageTuple := es.map fun e => E.tuple e.1 e.2

theorem mergeEntry_true (key : Bytes) (entry : PageTuple) (es : List (Key ty × β)) :
    ∀ slots, Holds slots (E.tuples es) →
      mergeEntry E.kind key entry ty true slots = .ok (E.tuples es) := by
  induction es with
  | nil =>
    intro slots h
    rw [holds_nil h]
    rfl
  | cons e es ih =>
    intro slots h
    obtain ⟨s, rest, rfl, hs, hrest⟩ := holds_cons h
    simp [mergeEntry, unwrapTuple_eq hs, E.key_eq, ih rest hrest, EntryKind.tuples]

/-- **Merging an entry** puts it before the first greater key. -/
theorem mergeEntry_eq (k : Key ty) (b : β) (es : List (Key ty × β)) :
    ∀ slots, Holds slots (E.tuples es) →
      mergeEntry E.kind k.bytes (E.tuple k b) ty false slots =
        .ok (E.tuples (insertBefore (fun e => beyond Key.rank k e.1) (k, b) es)) := by
  induction es with
  | nil =>
    intro slots h
    rw [holds_nil h]
    rfl
  | cons e es ih =>
    intro slots h
    obtain ⟨s, rest, rfl, hs, hrest⟩ := holds_cons h
    simp only [mergeEntry, unwrapTuple_eq hs, E.key_eq, except_ok_bind, Key.compareKeys_eq,
      insertBefore]
    by_cases hlt : k.rank < e.1.rank
    · have hb : beyond Key.rank k e.1 = true := by simpa [beyond] using hlt
      simp [hlt, hb, mergeEntry_true E _ _ es rest hrest, EntryKind.tuples]
    · have hb : beyond Key.rank k e.1 = false := by simpa [beyond] using hlt
      have hne : (if k.rank = e.1.rank then Ordering.eq else Ordering.gt) ≠ .lt := by
        split <;> decide
      simp [hlt, hne, hb, ih rest hrest, EntryKind.tuples]

theorem rightmostLeFrom_eq (k : Key ty) (es : List (Key ty × β)) :
    ∀ slots i found, Holds slots (E.tuples es) →
      rightmostLeFrom E.kind k.bytes ty i found slots =
        .ok (if (es.takeWhile fun e => upTo Key.rank k e.1).length = 0 then found
          else some (i + (es.takeWhile fun e => upTo Key.rank k e.1).length - 1)) := by
  induction es with
  | nil =>
    intro slots i found h
    rw [holds_nil h]
    rfl
  | cons e es ih =>
    intro slots i found h
    obtain ⟨s, rest, rfl, hs, hrest⟩ := holds_cons h
    simp only [rightmostLeFrom, unwrapTuple_eq hs, E.key_eq, except_ok_bind, Key.compareKeys_eq]
    by_cases hle : e.1.rank ≤ k.rank
    · have hngt : (if e.1.rank < k.rank then Ordering.lt
          else if e.1.rank = k.rank then .eq else .gt) ≠ .gt := by
        rcases hle.lt_or_eq with h | h
        · simp [h]
        · simp [h]
      rw [if_neg hngt, ih rest (i + 1) (some i) hrest]
      rw [List.takeWhile_cons_of_pos (by simpa [upTo] using hle)]
      congr 1
      rw [List.length_cons, if_neg (Nat.succ_ne_zero _)]
      split
      · rename_i h0
        simp [h0]
      · congr 1
        omega
    · have hlt : k.rank < e.1.rank := not_le.1 hle
      rw [List.takeWhile_cons_of_neg (by simpa [upTo] using hlt)]
      simp [hlt.not_gt, hlt.ne']

/-- **The selected child** of an internal page is the route of its children. -/
theorem childFor_eq {page : Page} {p0 : Nat} {es : List (Key ty × Nat)} (k : Key ty)
    (hkind : page.pageKind = .btreeInternal) (hnext : page.nextPageId = p0)
    (hpacked : Page.Packed page (nodeTuples es)) :
    childFor page k.bytes ty = .ok ((SepList.ofTail p0 es).route (upTo Key.rank k)) := by
  have hscan := rightmostLeFrom_eq (nodeEntry ty) k es page.slots 0 none hpacked.tuples
  rw [childFor, rightmostLe, hkind, show PageKind.btreeInternal = (nodeEntry ty).kind from rfl, hscan]
  simp only [except_ok_bind, hpacked.getTuple_eq, hnext, Nat.zero_add]
  clear hscan hpacked hnext
  -- the last entry passed is entry `length - 1` of the passed prefix
  induction es generalizing p0 with
  | nil => rfl
  | cons e es ih =>
    by_cases he : upTo Key.rank k e.1
    · rw [List.takeWhile_cons_of_pos (p := fun e : Key ty × Nat => upTo Key.rank k e.1) he]
      simp only [SepList.ofTail, SepList.route, he, if_true, List.length_cons, Nat.add_eq_zero_iff,
        Nat.one_ne_zero, and_false, if_false, Nat.add_sub_cancel, nodeTuples, List.map_cons]
      rw [← ih]
      by_cases h0 : (es.takeWhile fun e => upTo Key.rank k e.1).length = 0
      · simp only [h0, List.getElem?_cons_zero, if_true]
        rfl
      · obtain ⟨n, hn⟩ := Nat.exists_eq_succ_of_ne_zero h0
        simp only [hn, List.getElem?_cons_succ, Nat.succ_eq_add_one, Nat.add_eq_zero_iff,
          Nat.one_ne_zero, and_false, if_false, Nat.add_sub_cancel, nodeTuples]
    · rw [List.takeWhile_cons_of_neg (p := fun e : Key ty × Nat => upTo Key.rank k e.1) he]
      simp [SepList.ofTail, SepList.route, he]

/-- `leaf_lookup_eq` collects the entries of the key's rank up to the first
greater key. -/
theorem lookupEqFrom_eq (k : Key ty) (es : List (Key ty × Rid)) :
    ∀ slots, Holds slots (leafTuples es) →
      lookupEqFrom k.bytes ty slots =
        .ok (((es.takeWhile fun e => upTo Key.rank k e.1).filter
          fun e => decide (e.1.rank = k.rank)).map Prod.snd) := by
  induction es with
  | nil =>
    intro slots h
    rw [holds_nil h]
    rfl
  | cons e es ih =>
    intro slots h
    obtain ⟨s, rest, rfl, hs, hrest⟩ := holds_cons h
    simp only [lookupEqFrom, unwrapTuple_eq hs, asLeafEntry, except_ok_bind, Key.compareKeys_eq]
    rcases lt_trichotomy e.1.rank k.rank with hlt | heq | hgt
    · rw [List.takeWhile_cons_of_pos (by simpa [upTo] using hlt.le)]
      simp [hlt, hlt.ne, ih rest hrest]
    · rw [List.takeWhile_cons_of_pos (by simp [upTo, heq])]
      simp [heq, ih rest hrest]
    · rw [List.takeWhile_cons_of_neg (by simpa [upTo] using hgt)]
      simp [hgt.not_gt, hgt.ne']

theorem firstGeFrom_eq (k : Key ty) (es : List (Key ty × Rid)) :
    ∀ slots i, Holds slots (leafTuples es) →
      firstGeFrom k.bytes ty i slots =
        .ok ((es.findIdx? fun e => decide (k.rank ≤ e.1.rank)).map (i + ·)) := by
  induction es with
  | nil =>
    intro slots i h
    rw [holds_nil h]
    rfl
  | cons e es ih =>
    intro slots i h
    obtain ⟨s, rest, rfl, hs, hrest⟩ := holds_cons h
    simp only [firstGeFrom, unwrapTuple_eq hs, asLeafEntry, except_ok_bind, Key.compareKeys_eq,
      List.findIdx?_cons]
    by_cases hlt : e.1.rank < k.rank
    · simp only [hlt, if_true, ne_eq, not_true_eq_false, if_false, ih rest (i + 1) hrest,
        not_le.2 hlt, decide_false, Bool.false_eq_true, Option.map_map]
      congr 2
      funext x
      simp only [Function.comp]
      omega
    · have hne : (if e.1.rank = k.rank then Ordering.eq else Ordering.gt) ≠ .lt := by
        split <;> decide
      simp [hlt, hne, not_lt.1 hlt]

theorem leafHasEntry_eq (k : Key ty) (rid : Rid) (es : List (Key ty × Rid)) :
    ∀ slots, Holds slots (leafTuples es) →
      ∃ b, leafHasEntry k.bytes rid ty slots = .ok b ∧ (b = true ↔ Present Key.rank k rid es) := by
  induction es with
  | nil =>
    intro slots h
    rw [holds_nil h]
    exact ⟨false, rfl, by simp [Present]⟩
  | cons e es ih =>
    intro slots h
    obtain ⟨s, rest, rfl, hs, hrest⟩ := holds_cons h
    obtain ⟨b, hb, hiff⟩ := ih rest hrest
    simp only [leafHasEntry, unwrapTuple_eq hs, asLeafEntry, except_ok_bind, Key.compareKeys_eq,
      hb, present_cons]
    by_cases hrid : e.2 = rid
    · rcases lt_trichotomy e.1.rank k.rank with hlt | heq | hgt
      · exact ⟨b, by simp [hrid, hlt], by simpa [hlt.ne] using hiff⟩
      · exact ⟨true, by simp [hrid, heq], by simp [hrid, heq]⟩
      · exact ⟨b, by simp [hrid, hgt.not_gt, hgt.ne'], by simpa [hgt.ne'] using hiff⟩
    · exact ⟨b, by simp [hrid], by simpa [hrid] using hiff⟩

/-- A leaf's entries without the first `(k, rid)`. -/
def dropPair (k : Key ty) (rid : Rid) (es : List (Key ty × Rid)) : List (Key ty × Rid) :=
  es.eraseP fun e => decide (e.1.rank = k.rank ∧ e.2 = rid)

theorem removeEntry_true (k : Key ty) (rid : Rid) (es : List (Key ty × Rid)) :
    ∀ slots, Holds slots (leafTuples es) →
      removeEntry k.bytes rid ty true slots = .ok (leafTuples es, true) := by
  induction es with
  | nil =>
    intro slots h
    rw [holds_nil h]
    rfl
  | cons e es ih =>
    intro slots h
    obtain ⟨s, rest, rfl, hs, hrest⟩ := holds_cons h
    simp [removeEntry, unwrapTuple_eq hs, asLeafEntry, ih rest hrest, leafTuples]

theorem removeEntry_eq (k : Key ty) (rid : Rid) (es : List (Key ty × Rid)) :
    ∀ slots, Holds slots (leafTuples es) →
      ∃ b, removeEntry k.bytes rid ty false slots = .ok (leafTuples (dropPair k rid es), b) ∧
        (b = true ↔ Present Key.rank k rid es) := by
  induction es with
  | nil =>
    intro slots h
    rw [holds_nil h]
    exact ⟨false, rfl, by simp [Present]⟩
  | cons e es ih =>
    intro slots h
    obtain ⟨s, rest, rfl, hs, hrest⟩ := holds_cons h
    obtain ⟨b, hb, hiff⟩ := ih rest hrest
    simp only [removeEntry, unwrapTuple_eq hs, asLeafEntry, except_ok_bind, Key.compareKeys_eq,
      hb, present_cons, dropPair, List.eraseP_cons]
    simp only [dropPair] at hb
    by_cases hrid : e.2 = rid
    · rcases lt_trichotomy e.1.rank k.rank with hlt | heq | hgt
      · exact ⟨b, by simp [hrid, hlt, hlt.ne, leafTuples], by simpa [hlt.ne] using hiff⟩
      · refine ⟨true, ?_, by simp [hrid, heq]⟩
        simp [hrid, heq, removeEntry_true k rid es rest hrest]
      · refine ⟨b, ?_, by simpa [hgt.ne'] using hiff⟩
        simp [hrid, hgt.not_gt, hgt.ne', leafTuples]
    · exact ⟨b, by simp [hrid, leafTuples], by simpa [hrid] using hiff⟩

theorem firstLive_eq {p : Page} {ts : List PageTuple} (h : Page.Packed p ts) (slot : Nat) :
    firstLive p (p.tupleCount - slot) slot = (ts[slot]?).map fun t => (slot, t) := by
  have hlen : p.tupleCount = ts.length := h.length_eq
  cases hn : p.tupleCount - slot with
  | zero =>
    rw [firstLive, List.getElem?_eq_none (by omega)]
    rfl
  | succ n =>
    have hlt : slot < ts.length := by omega
    simp only [firstLive, h.getTuple_eq, List.getElem?_eq_getElem hlt, Option.map_some]

end Entries

/-! ## Rebuilding a page -/

/-- The page after appending all of `ts`. -/
def pushAll (p : Page) (ts : List PageTuple) : Page := ts.foldl Page.push p

theorem pushAll_header (p : Page) (ts : List PageTuple) :
    (pushAll p ts).pageId = p.pageId ∧ (pushAll p ts).nextPageId = p.nextPageId ∧
      (pushAll p ts).pageKind = p.pageKind := by
  induction ts generalizing p with
  | nil => exact ⟨rfl, rfl, rfl⟩
  | cons t ts ih => exact ih (p.push t)

theorem packed_pushAll {p : Page} {ts₀ : List PageTuple} (ts : List PageTuple)
    (h : Page.Packed p ts₀) (hfit : HEADER_SIZE + Page.spaceOf (ts₀ ++ ts) ≤ PAGE_SIZE) :
    Page.Packed (pushAll p ts) (ts₀ ++ ts) := by
  induction ts generalizing p ts₀ with
  | nil => simpa [pushAll] using h
  | cons t ts ih =>
    have hpush := Page.packed_push (t := t) h (by
      simp only [Page.spaceOf_append, Page.spaceOf_cons, Page.spaceOf_nil] at hfit ⊢
      omega)
    simpa [pushAll] using ih hpush (by simpa using hfit)

/-- **Rebuilding** a page out of entries that fit. -/
theorem insertAll_eq {s : BufferPool} {p : Nat} {ts₀ : List PageTuple} (ts : List PageTuple)
    (h : Page.Packed (s.pages p) ts₀) (hfit : HEADER_SIZE + Page.spaceOf (ts₀ ++ ts) ≤ PAGE_SIZE) :
    insertAll p ts s = .ok () (s.set p (pushAll (s.pages p) ts)) := by
  induction ts generalizing s ts₀ with
  | nil => simp [insertAll, pushAll, BufferPool.set]
  | cons t ts ih =>
    have hroom : HEADER_SIZE + Page.spaceOf (ts₀ ++ [t]) ≤ PAGE_SIZE := by
      simp only [Page.spaceOf_append, Page.spaceOf_cons, Page.spaceOf_nil] at hfit ⊢
      omega
    have hone : insertInto p t s = .ok () (s.set p ((s.pages p).push t)) := by
      rw [insertInto, Page.insert_eq_ok ((Page.packed_insert h).2 hroom)]
    rw [insertAll, bind_ok hone, ih (by simpa using Page.packed_push h hroom) (by simpa using hfit)]
    simp [BufferPool.set, pushAll]

end Ccdb.BTree
