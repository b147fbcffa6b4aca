import Ccdb.BTree.Ops

/-!
# Ccdb — how many pages an insertion can ask for

A node splits into at most one new page, so an insertion allocates at most
one page per level and one for a new root. This bounds how much room makes
a failure of `new_page` impossible.

Main results:

* `insert_error_room` — `insert` runs out of pages only when fewer are left
  than the file has, plus two.
-/

namespace Ccdb.BTree

open Ccdb

/-- A computation on one page that does not report a full device. -/
def Local {α : Type} (x : Except DbError α) : Prop := ∀ e, x = .error e → e ≠ newPageError

theorem local_ok {α : Type} (a : α) : Local (.ok a : Except DbError α) := by
  intro e h
  cases h

theorem local_bail {α : Type} (msg : String) : Local (.error (.bail msg) : Except DbError α) := by
  intro e h
  cases h
  simp [newPageError]

theorem local_panic {α : Type} (msg : String) : Local (.error (.panic msg) : Except DbError α) := by
  intro e h
  cases h
  simp [newPageError]

theorem Local.bind {α β : Type} {x : Except DbError α} {f : α → Except DbError β} (hx : Local x)
    (hf : ∀ a, Local (f a)) : Local (x >>= f) := by
  cases x with
  | ok a => exact hf a
  | error e => exact fun e' h => hx e' (by cases h; rfl)

theorem Local.map {α β : Type} {x : Except DbError α} {f : α → β} (hx : Local x) :
    Local (x.map f) := by
  cases x with
  | ok a => exact local_ok _
  | error e => exact fun e' h => hx e' (by cases h; rfl)

theorem local_unwrapTuple (s : Slot) : Local (unwrapTuple s) := by
  unfold unwrapTuple
  split
  · exact local_ok _
  · exact local_panic _

theorem local_asLeafEntry (t : PageTuple) : Local (asLeafEntry t) := by
  cases t
  case leaf => exact local_ok _
  all_goals exact local_panic _

theorem local_asInternalEntry (t : PageTuple) : Local (asInternalEntry t) := by
  cases t
  case internal => exact local_ok _
  all_goals exact local_panic _

theorem local_entryKey (kind : PageKind) (t : PageTuple) : Local (entryKey kind t) := by
  cases kind
  case btreeLeaf => exact (local_asLeafEntry t).map
  case btreeInternal => exact (local_asInternalEntry t).map
  all_goals exact local_panic _

theorem local_decodeKey (bytes : Bytes) (ty : DataType) : Local (decodeKey bytes ty) := by
  cases ty <;> unfold decodeKey <;> dsimp only <;> split <;>
    first | exact local_ok _ | exact local_bail _

theorem local_compareValues (a b : Value) : Local (compareValues a b) := by
  unfold compareValues
  split <;> first | exact local_ok _ | exact local_bail _

theorem local_compareKeys (a b : Bytes) (ty : DataType) : Local (compareKeys a b ty) :=
  (local_decodeKey a ty).bind fun _ => (local_decodeKey b ty).bind fun _ => local_compareValues _ _

theorem local_rightmostLeFrom (kind : PageKind) (target : Bytes) (ty : DataType)
    (slots : List Slot) : ∀ i found, Local (rightmostLeFrom kind target ty i found slots) := by
  induction slots with
  | nil => exact fun _ _ => local_ok _
  | cons s rest ih =>
    intro i found
    refine (local_unwrapTuple s).bind fun raw => (local_entryKey kind raw).bind fun key => ?_
    refine (local_compareKeys key target ty).bind fun o => ?_
    split
    · exact local_ok _
    · exact ih _ _

theorem local_childFor (page : Page) (target : Bytes) (ty : DataType) :
    Local (childFor page target ty) := by
  refine (local_rightmostLeFrom _ _ _ _ _ _).bind fun found => ?_
  split
  · exact local_ok _
  · split
    · exact local_panic _
    · exact (local_asInternalEntry _).map

theorem local_mergeEntry (kind : PageKind) (key : Bytes) (entry : PageTuple) (ty : DataType)
    (slots : List Slot) : ∀ inserted, Local (mergeEntry kind key entry ty inserted slots) := by
  induction slots with
  | nil => exact fun _ => local_ok _
  | cons s rest ih =>
    intro inserted
    cases inserted with
    | true =>
      exact (local_unwrapTuple s).bind fun raw => (local_entryKey kind raw).bind fun _ =>
        (ih true).bind fun _ => local_ok _
    | false =>
      refine (local_unwrapTuple s).bind fun raw => (local_entryKey kind raw).bind fun k => ?_
      refine (local_compareKeys key k ty).bind fun o => ?_
      split
      · exact (ih true).bind fun _ => local_ok _
      · exact (ih false).bind fun _ => local_ok _

theorem local_leafHasEntry (key : Bytes) (rid : Rid) (ty : DataType) (slots : List Slot) :
    Local (leafHasEntry key rid ty slots) := by
  induction slots with
  | nil => exact local_ok _
  | cons s rest ih =>
    refine (local_unwrapTuple s).bind fun raw => (local_asLeafEntry raw).bind fun e => ?_
    dsimp only
    split
    · refine (local_compareKeys _ _ ty).bind fun o => ?_
      split
      · exact local_ok _
      · exact ih
    · exact ih

/-! ## Page programs -/

/-- The program allocates at most `n` pages, and reports a full device only
when no more than `n` were left. -/
def Frugal {α : Type} (n : Nat) (x : PoolM α) : Prop := ∀ s,
  match x s with
  | .ok _ s' => s.room ≤ s'.room + n
  | .error e _ => e = newPageError → s.room ≤ n

theorem Frugal.bind {α β : Type} {n m : Nat} {x : PoolM α} {f : α → PoolM β} (hx : Frugal n x)
    (hf : ∀ a, Frugal m (f a)) : Frugal (n + m) (x >>= f) := by
  intro s
  have hxs := hx s
  show match EStateM.bind x f s with
    | .ok _ s' => s.room ≤ s'.room + (n + m)
    | .error e _ => e = newPageError → s.room ≤ n + m
  unfold EStateM.bind
  cases h : x s with
  | error e s' =>
    rw [h] at hxs
    exact fun he => le_trans (hxs he) (Nat.le_add_right _ _)
  | ok a s' =>
    rw [h] at hxs
    have hfs := hf a s'
    dsimp only at hxs ⊢
    cases h' : f a s' with
    | ok b s'' =>
      rw [h'] at hfs
      dsimp only at hfs ⊢
      omega
    | error e s'' =>
      rw [h'] at hfs
      dsimp only at hfs ⊢
      intro he
      have := hfs he
      omega

theorem Frugal.bind_zero {α β : Type} {m : Nat} {x : PoolM α} {f : α → PoolM β} (hx : Frugal 0 x)
    (hf : ∀ a, Frugal m (f a)) : Frugal m (x >>= f) :=
  Nat.zero_add m ▸ hx.bind hf

theorem Frugal.mono {α : Type} {n m : Nat} {x : PoolM α} (hx : Frugal n x) (h : n ≤ m) :
    Frugal m x := by
  intro s
  have hxs := hx s
  cases hr : x s with
  | ok a s' =>
    rw [hr] at hxs
    dsimp only at hxs ⊢
    omega
  | error e s' =>
    rw [hr] at hxs
    exact fun he => le_trans (hxs he) h

theorem frugal_pure {α : Type} (a : α) : Frugal 0 (pure a : PoolM α) := fun _ => le_rfl

theorem frugal_throw {α : Type} {e : DbError} (h : e ≠ newPageError) :
    Frugal 0 (throw e : PoolM α) := fun _ he => absurd he h

theorem frugal_liftE {α : Type} {x : Except DbError α} (h : Local x) : Frugal 0 (liftE x) := by
  intro s
  cases x with
  | ok a => exact le_rfl
  | error e => exact fun he => absurd he (h e rfl)

theorem frugal_fetchPage (p : Nat) : Frugal 0 (fetchPage p) := by
  intro s
  unfold fetchPage
  split
  · rename_i h
    split at h
    · cases h
      exact le_rfl
    · cases h
  · rename_i h
    split at h
    · cases h
    · cases h
      simp [newPageError]

theorem frugal_writePage (p : Nat) (page : Page) : Frugal 0 (writePage p page) := fun _ => le_rfl

theorem frugal_set (f : BufferPool → Page) (p : Nat) :
    Frugal 0 (modify fun s => s.set p (f s) : PoolM Unit) := fun _ => le_rfl

theorem frugal_newPage : Frugal 1 newPage := by
  intro s
  cases h : newPage s with
  | ok p s' => exact (newPage_room h).1
  | error e s' =>
    intro _
    rw [newPage_error_room h]
    exact Nat.zero_le _

theorem frugal_insertInto (p : Nat) (t : PageTuple) : Frugal 0 (insertInto p t) := by
  intro s
  unfold insertInto
  by_cases hfit : t.len + SLOT_SIZE ≤ (s.pages p).freeSpace
  · rw [Page.insert_eq_ok hfit]
    exact le_rfl
  · obtain ⟨msg, herr⟩ := Page.insert_eq_error (not_le.1 hfit)
    rw [herr]
    exact fun he => by simp [newPageError] at he

theorem frugal_insertAll (p : Nat) (ts : List PageTuple) : Frugal 0 (insertAll p ts) := by
  induction ts with
  | nil => exact frugal_pure _
  | cons t ts ih => exact (frugal_insertInto p t).bind_zero fun _ => ih

theorem frugal_insertSorted (p : Nat) (page : Page) (key : Bytes) (entry : PageTuple)
    (ty : DataType) : Frugal 0 (insertSorted p page key entry ty) :=
  (frugal_liftE (local_mergeEntry _ _ _ _ _ _)).bind_zero fun _ =>
    (frugal_writePage _ _).bind_zero fun _ => frugal_insertAll _ _

theorem frugal_splitLeaf (nodeId : Nat) (page : Page) (entries : List PageTuple) :
    Frugal 1 (splitLeaf nodeId page entries) := by
  refine (frugal_writePage _ _).bind_zero fun _ => (frugal_insertAll _ _).bind_zero fun _ => ?_
  refine frugal_newPage.bind (m := 0) fun newPid => ?_
  refine (frugal_writePage _ _).bind_zero fun _ => (frugal_insertAll _ _).bind_zero fun _ => ?_
  refine (frugal_set _ _).bind_zero fun _ => (frugal_set _ _).bind_zero fun _ => ?_
  split
  · exact frugal_throw (by simp [newPageError])
  · exact (frugal_liftE (local_asLeafEntry _)).bind_zero fun _ => frugal_pure _

theorem frugal_splitInternal (nodeId : Nat) (page : Page) (entries : List PageTuple) :
    Frugal 1 (splitInternal nodeId page entries) := by
  unfold splitInternal
  dsimp only
  split
  · exact (frugal_throw (by simp [newPageError])).mono (Nat.zero_le _)
  · refine (frugal_liftE (local_asInternalEntry _)).bind_zero fun _ => ?_
    refine (frugal_writePage _ _).bind_zero fun _ => (frugal_insertAll _ _).bind_zero fun _ => ?_
    refine frugal_newPage.bind (m := 0) fun newPid => ?_
    exact (frugal_writePage _ _).bind_zero fun _ => (frugal_insertAll _ _).bind_zero fun _ =>
      frugal_pure _

theorem frugal_insertLeaf (nodeId : Nat) (page : Page) (key : Bytes) (rid : Rid) (ty : DataType) :
    Frugal 1 (insertLeaf nodeId page key rid ty) := by
  refine (frugal_liftE (local_leafHasEntry _ _ _ _)).bind_zero fun b => ?_
  split
  · exact (frugal_pure _).mono (Nat.zero_le _)
  · dsimp only
    split
    · exact ((frugal_insertSorted _ _ _ _ _).bind_zero fun _ => frugal_pure _).mono (Nat.zero_le _)
    · exact (frugal_liftE (local_mergeEntry _ _ _ _ _ _)).bind_zero fun _ => frugal_splitLeaf _ _ _

theorem frugal_absorbSplit (nodeId : Nat) (sepKey : Bytes) (right : Nat) (ty : DataType) :
    Frugal 1 (absorbSplit nodeId sepKey right ty) := by
  refine (frugal_fetchPage _).bind_zero fun page => ?_
  dsimp only
  split
  · exact ((frugal_insertSorted _ _ _ _ _).bind_zero fun _ => frugal_pure _).mono (Nat.zero_le _)
  · exact (frugal_liftE (local_mergeEntry _ _ _ _ _ _)).bind_zero fun _ =>
      frugal_splitInternal _ _ _

/-- One page per level. -/
theorem frugal_insertRecursive (key : Bytes) (rid : Rid) (ty : DataType) : ∀ fuel nodeId,
    Frugal fuel (insertRecursive key rid ty fuel nodeId)
  | 0, _ => frugal_throw (by simp [newPageError])
  | fuel + 1, nodeId => by
    refine (frugal_fetchPage _).bind_zero fun page => ?_
    split
    · exact (frugal_insertLeaf _ _ _ _ _).mono (by omega)
    · refine (frugal_liftE (local_childFor _ _ _)).bind_zero fun child => ?_
      refine (frugal_insertRecursive key rid ty fuel child).bind fun out => ?_
      split
      · exact (frugal_pure _).mono (Nat.zero_le _)
      · exact frugal_absorbSplit _ _ _ _
    · exact (frugal_throw (by simp [newPageError])).mono (Nat.zero_le _)

/-- `insert` behind the fuel it takes. -/
theorem frugal_insert (key : Bytes) (rid : Rid) (ty : DataType) (fuel root : Nat) :
    Frugal (fuel + 1) (do
      match ← insertRecursive key rid ty fuel root with
      | .fit => return root
      | .split sepKey right => do
        let newRoot ← newPage
        writePage newRoot (initInternal (.new newRoot) root)
        insertInto newRoot (.internal sepKey right)
        return newRoot) := by
  refine (frugal_insertRecursive key rid ty _ root).bind fun out => ?_
  cases out with
  | fit => exact (frugal_pure _).mono (Nat.zero_le _)
  | split sepKey right =>
    exact frugal_newPage.bind fun _ => (frugal_writePage _ _).bind_zero fun _ =>
      (frugal_insertInto _ _).bind_zero fun _ => frugal_pure _

/-- **Running out of pages** takes a device with no more pages left than
the file has, plus two. -/
theorem insert_error_room {root : Nat} {key : Bytes} {rid : Rid} {ty : DataType}
    {s s' : BufferPool} (h : insert root key rid ty s = .error newPageError s') :
    s.room ≤ s.pageCount + 2 := by
  have hs := frugal_insert key rid ty (s.pageCount + 1) root s
  rw [show insert root key rid ty s = _ from rfl] at h
  split at hs
  · rename_i hok
    exact absurd (hok.symm.trans h) (by simp)
  · rename_i e s'' herr
    have heq := herr.symm.trans h
    cases heq
    exact hs rfl

end Ccdb.BTree
