import Ccdb.Exec.Restarts
import Ccdb.Exec.IndexComplete
import Mathlib.Data.List.Perm.Subperm

/-!
# Ccdb — UPDATE with nobody else around

`perform_update` in the only open transaction, on a table with indexes. The loop over
the attempts is a function here: nothing happens between its steps. A duplicate key
restarts the statement after the new version has been written, and the next attempt
finds that version as a row.

The heap is the list of the row versions with the forward pointers beside it; of an
index the entries count, and a probe compares the key with all of them. Locks are free,
and reads and writes of pages succeed.

Main results:

* `rowLoop_done` — what an attempt that goes through has done.
* `rowLoop_restart` — a restart needs a row with the key of another one.
* `update_all_or_error` — the statement does all it has to or fails, as long as no row
  comes to the key of another one and the scan finds each row once.
* `scansOnce_of_allOrError` — the condition on the scan is needed where it goes through.
* `duplicate_update_returns_ok` — an UPDATE to the key of another row that returns `Ok(0)`.
-/

namespace Ccdb.UniqueUpdate

open TransactionManager
open Restart (RowVersion select writeRow seenAfresh)

/-! ## Tables and statements -/

abbrev Row := List Value

/-- An index: the entries are keys and positions in the heap. -/
structure Index where
  col : Nat
  unique : Bool
  entries : List (Value × Nat)
deriving DecidableEq

/-- `ctid` has the forward pointers of the versions. -/
structure State where
  tm : TransactionManager
  heap : List (RowVersion Row)
  ctid : Nat → Option Nat
  indexes : List Index

/-- An UPDATE of transaction `id`: the WHERE clause, the new row with its constraints
checked, and the assigned columns. `via` is the index the scan goes through and its key
range; `order` is the order in which the scan comes to the rows. -/
structure Stmt where
  id : Nat
  pred : Row → Except DbError Bool
  newRow : Row → Except DbError Row
  touched : List Nat
  via : Option (Nat × (Value → Bool))
  order : List (Nat × Row) → List (Nat × Row)
  perm : ∀ rows, (order rows).Perm rows

variable (q : Stmt)

/-! ## Reading -/

/-- What a snapshot of the transaction sees. -/
def live (id : Nat) (tm : TransactionManager) (v : RowVersion Row) : Bool :=
  isVisible v.xmin v.xmax (tm.snapshot id) tm

/-- The rows the transaction sees. -/
def State.rows (st : State) (id : Nat) : List (Nat × Row) :=
  select st.heap fun _ v => live id st.tm v

/-- `follow_chain_visible`. -/
def followChainVisible (id : Nat) (st : State) : Nat → Nat → Option (Nat × Row)
  | 0, _ => none
  | n + 1, cur =>
    match st.heap[cur]? with
    | none => none
    | some v =>
      if live id st.tm v then some (cur, v.row)
      else
        match st.ctid cur with
        | none => none
        | some next => followChainVisible id st n next

/-- The rows the scan comes to, before the WHERE clause. -/
def foundRows (st : State) : List (Nat × Row) :=
  match q.via with
  | none => st.rows q.id
  | some (i, inRange) =>
    match st.indexes[i]? with
    | none => []
    | some ix => (ix.entries.filter fun e => inRange e.1).filterMap fun e =>
        followChainVisible q.id st MAX_CHAIN e.2

/-- `matches` on every row. -/
def keepRows : List (Nat × Row) → Except DbError (List (Nat × Row))
  | [] => .ok []
  | r :: rest => do
    let keep ← q.pred r.2
    let out ← keepRows rest
    .ok (if keep then r :: out else out)

/-- `matching_rows`. -/
def matchingRows (st : State) : Except DbError (List (Nat × Row)) :=
  keepRows q (q.order (foundRows q st))

/-! ## Indexes -/

/-- `leaf_lookup_eq`. -/
def lookupEq (key : Value) : List (Value × Nat) → Except DbError (List Nat)
  | [] => .ok []
  | (k, pos) :: es => do
    let c ← BTree.compareValues k key
    let rest ← lookupEq key es
    .ok (if c = .eq then pos :: rest else rest)

/-- The candidates in `check_unique_or_wait`, until one is not skipped. -/
def judgeAll (st : State) (own : Nat) : List Nat → Verdict
  | [] => .skip
  | pos :: rest =>
    if pos = own then judgeAll st own rest
    else
      match st.heap[pos]? with
      | none => judgeAll st own rest
      | some v =>
        match checkCandidate st.tm q.id ⟨v.xmin, v.xmax, noCtid, v.row⟩ with
        | .skip => judgeAll st own rest
        | verdict => verdict

/-- `check_unique_or_wait`; `false` is the error with SQLSTATE 23505. -/
def checkUniqueOrWait (st : State) (ix : Index) (key : Value) (own : Nat) : Except DbError Bool := do
  let candidates ← lookupEq key ix.entries
  match judgeAll q st own candidates with
  | .skip => .ok true
  | .clash => .ok false
  | .wait txn => .error (waitError txn)

/-- The probe before an insertion, in a unique index. -/
def probe (st : State) (ix : Index) (key : Value) (own : Nat) : Except DbError Bool :=
  if ix.unique then checkUniqueOrWait q st ix key own else .ok true

/-- One turn of `index_insert_for_row_with_lm`: the index with the entry, or none for a
duplicate key. -/
def indexInsertOne (st : State) (row : Row) (pos : Nat) (ix : Index) :
    Except DbError (Option Index) :=
  match row[ix.col]? with
  | none => .error (.panic "index out of bounds")
  | some key =>
    if key = .null then .ok (some ix)
    else do
      let free ← probe q st ix key pos
      .ok (if free then some { ix with entries := (key, pos) :: ix.entries } else none)

/-- How the loop over the indexes ends. -/
inductive IndexEnd where
  | inserted
  | duplicate
  | failed (e : DbError)
deriving DecidableEq

/-- `index_insert_for_row_with_lm`: the indexes before the one that fails keep their
entries. -/
def indexInsertForRow (st : State) (row : Row) (pos : Nat) : List Index → List Index × IndexEnd
  | [] => ([], .inserted)
  | ix :: rest =>
    match indexInsertOne q st row pos ix with
    | .error e => (ix :: rest, .failed e)
    | .ok none => (ix :: rest, .duplicate)
    | .ok (some ix') =>
      let (rest', fin) := indexInsertForRow st row pos rest
      (ix' :: rest', fin)

/-! ## UPDATE -/

/-- What one row does to the row loop. -/
inductive RowEnd where
  | counted
  | skipped
  | restart
  | failed (e : DbError)
deriving DecidableEq

/-- The HOT gate: no indexed column is assigned. -/
def hot (st : State) : Bool := st.indexes.all fun ix => !q.touched.contains ix.col

/-- The old version marked and the new one at the end of the heap. -/
def State.write (st : State) (id pos : Nat) (row : Row) : State :=
  { st with heap := writeRow id pos (some row) st.heap }

/-- The write part of `perform_update` for one row. -/
def replaceRow (st : State) (r : Nat × Row) : State × RowEnd :=
  match q.newRow r.2 with
  | .error e => (st, .failed e)
  | .ok row =>
    let pos := st.heap.length
    let st' := st.write q.id r.1 row
    if hot q st then ({ st' with ctid := Function.update st.ctid r.1 (some pos) }, .counted)
    else
      match indexInsertForRow q st' row pos st.indexes with
      | (indexes, .inserted) => ({ st' with indexes := indexes }, .counted)
      | (indexes, .duplicate) => ({ st' with indexes := indexes }, .restart)
      | (indexes, .failed e) => ({ st' with indexes := indexes }, .failed e)

/-- One row of `perform_update`. -/
def updateRow (st : State) (r : Nat × Row) : State × RowEnd :=
  match st.heap[r.1]? with
  | none => (st, .skipped)
  | some v =>
    if v.xmax ≠ invalidTxnId ∧ v.xmax ≠ q.id then
      match st.tm.status v.xmax with
      | .committed => (st, .restart)
      | .aborted => replaceRow q st r
      | .inProgress => (st, .failed concurrentError)
    else replaceRow q st r

/-- How an attempt ends. -/
inductive PassEnd where
  | done (count : Nat)
  | restart
  | failed (e : DbError)
deriving DecidableEq

/-- The row loop. -/
def rowLoop : State → List (Nat × Row) → Nat → State × PassEnd
  | st, [], count => (st, .done count)
  | st, r :: rest, count =>
    match updateRow q st r with
    | (st', .counted) => rowLoop st' rest (count + 1)
    | (st', .skipped) => rowLoop st' rest count
    | (st', .restart) => (st', .restart)
    | (st', .failed e) => (st', .failed e)

/-- One attempt. -/
def pass (st : State) : State × PassEnd :=
  match matchingRows q st with
  | .error e => (st, .failed e)
  | .ok rows => rowLoop q st rows 0

/-- The loop over the attempts. -/
def retryLoop : Nat → State → State × Except DbError Nat
  | 0, st => (st, .error (.bail
      "could not serialize access — UPDATE retried 8 times against concurrent updates [SQLSTATE 40001]"))
  | n + 1, st =>
    match pass q st with
    | (st', .done count) => (st', .ok count)
    | (st', .restart) => retryLoop n st'
    | (st', .failed e) => (st', .error e)

/-- `perform_update`. -/
def performUpdate (st : State) : State × Except DbError Nat := retryLoop q MAX_RETRIES st

/-! ## What the statement is to do -/

/-- The WHERE clause holds. -/
def satisfies (row : Row) : Bool :=
  match q.pred row with
  | .ok b => b
  | .error _ => false

/-- The rows visible at the start that satisfy WHERE. -/
def due (st : State) : List (Nat × Row) := (st.rows q.id).filter fun r => satisfies q r.2

/-- The assigned rows. -/
def newRows (rows : List (Nat × Row)) : List Row := rows.filterMap fun r => (q.newRow r.2).toOption

/-- The old rows with those that satisfy WHERE replaced. -/
def expected (st : State) : List Row :=
  ((st.rows q.id).filter fun r => !satisfies q r.2).map Prod.snd ++ newRows q (due q st)

/-- `n` rows are replaced, once each: what a fresh snapshot sees after the commit. -/
structure Replaces (st st' : State) (n : Nat) : Prop where
  count : n = (due q st).length
  rows : (seenAfresh st'.tm q.id st'.heap).Perm (expected q st)

/-- The other rows when the turn of the one at `pos` comes, after `front`. -/
def othersAt (st : State) (front : List (Nat × Row)) (pos : Nat) : List Row :=
  ((st.rows q.id).filter fun e => e.1 ≠ pos ∧ e.1 ∉ front.map Prod.fst).map Prod.snd ++ newRows q front

/-- The new version of `r` has a key in a unique index that another row has. -/
def KeyTaken (st : State) (front : List (Nat × Row)) (r : Nat × Row) : Prop :=
  ∃ row, q.newRow r.2 = .ok row ∧ ∃ other ∈ othersAt q st front r.1, ∃ ix ∈ st.indexes,
    ix.unique = true ∧ ∃ key key', row[ix.col]? = some key ∧ key ≠ .null ∧
      other[ix.col]? = some key' ∧ BTree.compareValues key' key = .ok .eq

/-- When the turn of one of `rows` comes. -/
def TakenIn (st : State) (rows : List (Nat × Row)) : Prop :=
  ∃ front r back, rows = front ++ r :: back ∧ (∀ e ∈ front, ∃ row, q.newRow e.2 = .ok row) ∧
    KeyTaken q st front r

/-- The rows the scan comes to that satisfy WHERE, in its order. -/
def scanned (st : State) : List (Nat × Row) :=
  (q.order (foundRows q st)).filter fun r => satisfies q r.2

/-- The statement assigns an indexed column, and comes to a row whose new key is that of
another row. -/
def MeetsKey (st : State) : Prop := hot q st = false ∧ TakenIn q st (scanned q st)

/-- The scan comes to each row that is to be replaced once. -/
def ScansOnce (st : State) : Prop := (scanned q st).Perm (due q st)

/-- **All or error.** -/
structure AllOrError (st : State) : Prop where
  replaces : ∀ n st', performUpdate q st = (st', .ok n) → Replaces q st st' n
  refuses : MeetsKey q st → ∃ st' e, performUpdate q st = (st', .error e)

/-- The entries lead to versions with their keys. -/
def Sound (heap : List (RowVersion Row)) (indexes : List Index) : Prop :=
  ∀ ix ∈ indexes, ∀ e ∈ ix.entries,
    ∃ v : RowVersion Row, heap[e.2]? = some v ∧ v.row[ix.col]? = some e.1

/-- The statement's is the only open transaction. -/
structure Alone (st : State) : Prop where
  wf : st.tm.WF
  active : q.id ∈ st.tm.activeIds
  only : ∀ x ∈ st.tm.activeIds, x = q.id
  xids : ∀ v ∈ st.heap, v.xmin < st.tm.nextTxnId ∧ v.xmax < st.tm.nextTxnId
  sound : Sound st.heap st.indexes

/-! ## Visibility -/

variable {q} {st st' : State} {v : RowVersion Row} {pos : Nat} {row : Row}

theorem live_iff {id : Nat} (hwf : st.tm.WF) : live id st.tm v = true ↔
    (v.xmin = id ∨ st.tm.status v.xmin = .committed) ∧
      (v.xmax ≠ invalidTxnId → ¬ (v.xmax = id ∨ st.tm.status v.xmax = .committed)) := by
  rw [live, isVisible_iff, IndexBuild.sees_fresh hwf, IndexBuild.sees_fresh hwf]

theorem Alone.id_pos (h : Alone q st) : q.id ≠ invalidTxnId := by
  intro h0
  have hact := h.active
  rw [h0] at hact
  exact h.wf.zero_inactive hact

/-- With nobody else around every other transaction is decided. -/
theorem Alone.status_ne (h : Alone q st) {x : Nat} (hx : x ≠ q.id) :
    st.tm.status x ≠ .inProgress := by
  have hout : x ∉ st.tm.activeIds := fun hin => hx (h.only x hin)
  unfold status
  cases st.tm.clog x <;> simp [hout]

theorem mem_rows {id : Nat} {e : Nat × Row} : e ∈ st.rows id ↔
    ∃ v, st.heap[e.1]? = some v ∧ live id st.tm v = true ∧ v.row = e.2 := Restart.mem_select

/-- **After the commit** a fresh snapshot sees what the transaction saw. -/
theorem seenAfresh_eq (h : Alone q st) :
    seenAfresh st.tm q.id st.heap = (st.rows q.id).map Prod.snd := by
  have hcommit : TransactionManager.Step st.tm (st.tm.commit q.id) := .commit _ _ (Or.inl h.active)
  have hwf := hcommit.wf h.wf
  have hbegin := TransactionManager.Step.begin (st.tm.commit q.id)
  have hwf' := hbegin.wf hwf
  have hown : (st.tm.commit q.id).status q.id = .committed := by
    have hclog : (st.tm.commit q.id).clog q.id = .committed := by
      have hold := h.wf.active_undecided q.id h.active
      simp [TransactionManager.commit, clog_decideClog, removeAtt, hold]
    unfold status
    rw [hclog]
  have hnext : (st.tm.commit q.id).nextTxnId = st.tm.nextTxnId := by
    simp [TransactionManager.commit, removeAtt]
  have hlt := h.wf.active_lt q.id h.active
  have hout : ∀ x, x ∉ (st.tm.commit q.id).activeIds := by
    intro x hx
    simp only [TransactionManager.commit, activeIds_decideClog, mem_activeIds_removeAtt] at hx
    exact hx.2 (h.only x hx.1)
  -- the transactions that count are the same
  have hsees : ∀ x, x < st.tm.nextTxnId →
      (Sees ((st.tm.commit q.id).begin.2.snapshot st.tm.nextTxnId) (st.tm.commit q.id).begin.2 x ↔
        Sees (st.tm.snapshot q.id) st.tm x) := by
    intro x hx
    rw [IndexBuild.sees_fresh hwf', IndexBuild.sees_fresh h.wf,
      hbegin.status_eq hwf (hout x) (by omega)]
    by_cases hid : x = q.id
    · simp [hid, hown]
    · have hin : x ∉ st.tm.activeIds := fun hin => hid (h.only x hin)
      rw [hcommit.status_eq h.wf hin hx]
      simp only [hid, false_or]
      exact or_iff_right (by omega)
  unfold seenAfresh State.rows
  dsimp only
  congr 1
  refine Restart.select_congr fun i v hv => ?_
  have hids := h.xids v (List.mem_of_getElem? hv)
  rw [live, Bool.eq_iff_iff, isVisible_iff, isVisible_iff, hsees _ hids.1, hsees _ hids.2]

/-! ## One row -/

/-- A version with no mark that counts for others. -/
def FreeMark (q : Stmt) (st : State) (r : Nat × Row) : Prop :=
  ∃ v : RowVersion Row, st.heap[r.1]? = some v ∧
    (v.xmax = invalidTxnId ∨ v.xmax = q.id ∨ st.tm.status v.xmax = .aborted)

/-- **The write**: the old version is gone and the new one is there. -/
theorem rows_write (h : Alone q st) (hv : st.heap[pos]? = some v) (row : Row) :
    ((st.write q.id pos row).rows q.id).Perm
      ((st.rows q.id).filter (fun e => e.1 ≠ pos) ++ [(st.heap.length, row)]) := by
  have hlt := (List.getElem?_eq_some_iff.1 hv).1
  have hget := @Restart.getElem?_writeRow Row v pos (some row) q.id st.heap hv
  have hnd : ∀ {heap : List (RowVersion Row)} {keep}, (select heap keep).Nodup := fun {heap keep} =>
    (List.pairwise_map.1 Restart.nodup_select).imp fun hne heq => hne (congrArg Prod.fst heq)
  have hlast : ∀ e ∈ (st.rows q.id).filter fun e => e.1 ≠ pos, e.1 < st.heap.length := by
    intro e he
    obtain ⟨w, hw, -, -⟩ := mem_rows.1 (List.mem_filter.1 he).1
    exact (List.getElem?_eq_some_iff.1 hw).1
  refine (List.perm_ext_iff_of_nodup (hnd : ((st.write q.id pos row).rows q.id).Nodup) ?_).2 fun e => ?_
  · refine List.nodup_append.2 ⟨hnd.filter _, List.pairwise_singleton _ _, fun a ha b hb hab => ?_⟩
    have := hlast a ha
    rw [hab, List.mem_singleton.1 hb] at this
    exact lt_irrefl _ this
  · have hmem : e ∈ (st.write q.id pos row).rows q.id ↔ ∃ w : RowVersion Row,
        (writeRow q.id pos (some row) st.heap)[e.1]? = some w ∧ live q.id st.tm w = true ∧
          w.row = e.2 := Restart.mem_select
    refine hmem.trans ?_
    rw [hget, List.mem_append, List.mem_filter, List.mem_singleton, mem_rows]
    by_cases hpos : e.1 = pos
    · -- the old version has the mark now
      rw [if_pos hpos]
      constructor
      · rintro ⟨w, hw, hlive, -⟩
        cases hw
        exact absurd (Or.inl rfl) (((live_iff h.wf).1 hlive).2 h.id_pos)
      · rintro (⟨-, hne⟩ | rfl)
        · simp [hpos] at hne
        · exact absurd hpos (Nat.ne_of_gt hlt)
    · rw [if_neg hpos]
      by_cases hold : e.1 < st.heap.length
      · rw [if_pos hold]
        have hne : e ≠ (st.heap.length, row) := fun heq => by
          rw [heq] at hold
          exact lt_irrefl _ hold
        simp [hpos, hne]
      · rw [if_neg hold]
        have hout : st.heap[e.1]? = none := List.getElem?_eq_none (not_lt.1 hold)
        constructor
        · rintro ⟨w, hw, -, hrow⟩
          right
          have hlen : e.1 - st.heap.length = 0 := by
            by_contra hne
            obtain ⟨k, hk⟩ := Nat.exists_eq_add_one_of_ne_zero hne
            rw [hk] at hw
            cases hw
          rw [hlen] at hw
          cases hw
          exact Prod.ext (by omega) hrow.symm
        · rintro (⟨⟨w, hw, -⟩, -⟩ | rfl)
          · rw [hout] at hw
            cases hw
          · refine ⟨⟨q.id, invalidTxnId, row⟩, by simp, ?_, rfl⟩
            exact (live_iff h.wf).2 ⟨Or.inl rfl, fun hne => absurd rfl hne⟩

/-- A state that a row of the statement leads to. -/
structure Written (q : Stmt) (st st' : State) (pos : Nat) (row : Row) : Prop where
  tm : st'.tm = st.tm
  heap : st'.heap = writeRow q.id pos (some row) st.heap
  cols : st'.indexes.map (fun ix => (ix.col, ix.unique)) =
    st.indexes.map fun ix => (ix.col, ix.unique)
  sound : Sound st'.heap st'.indexes

theorem Written.alone (h : Written q st st' pos row) (ha : Alone q st)
    (hv : st.heap[pos]? = some v) : Alone q st' := by
  have hlt := ha.wf.active_lt q.id ha.active
  refine ⟨h.tm ▸ ha.wf, h.tm ▸ ha.active, h.tm ▸ ha.only, fun w hw => ?_, h.sound⟩
  rw [h.tm]
  obtain ⟨i, hi⟩ := List.mem_iff_getElem?.1 hw
  have hget := @Restart.getElem?_writeRow Row v pos (some row) q.id st.heap hv i
  rw [h.heap, hget] at hi
  split at hi
  · cases hi
    exact ⟨(ha.xids v (List.mem_of_getElem? hv)).1, hlt⟩
  · split at hi
    · exact ha.xids w (List.mem_of_getElem? hi)
    · have hmem := List.mem_of_getElem? hi
      simp only [Option.map_some, Option.toList_some, List.mem_singleton] at hmem
      rw [hmem]
      exact ⟨hlt, ha.wf.next_pos⟩

theorem Written.rows (h : Written q st st' pos row) (ha : Alone q st)
    (hv : st.heap[pos]? = some v) : (st'.rows q.id).Perm
      ((st.rows q.id).filter (fun e => e.1 ≠ pos) ++ [(st.heap.length, row)]) := by
  have hsame : st'.rows q.id = (st.write q.id pos row).rows q.id := by
    unfold State.rows
    rw [h.tm, h.heap]
    rfl
  rw [hsame]
  exact rows_write ha hv row

theorem Written.freeMark (h : Written q st st' pos row) {r : Nat × Row}
    (hv : st.heap[pos]? = some v) (hr : FreeMark q st r) : FreeMark q st' r := by
  obtain ⟨w, hw, hfree⟩ := hr
  have hget := @Restart.getElem?_writeRow Row v pos (some row) q.id st.heap hv r.1
  have hlt := (List.getElem?_eq_some_iff.1 hw).1
  unfold FreeMark
  rw [h.heap, h.tm, hget]
  by_cases hpos : r.1 = pos
  · rw [if_pos hpos]
    exact ⟨_, rfl, Or.inr (Or.inl rfl)⟩
  · rw [if_neg hpos, if_pos hlt]
    exact ⟨w, hw, hfree⟩

/-- Entries stay sound under a write, and the new version may have its own. -/
theorem Sound.write {indexes : List Index} (h : Sound st.heap indexes)
    (hv : st.heap[pos]? = some v) (row : Row) :
    Sound (writeRow q.id pos (some row) st.heap) indexes := by
  intro ix hix e he
  obtain ⟨w, hw, hkey⟩ := h ix hix e he
  have hlt := (List.getElem?_eq_some_iff.1 hw).1
  rw [@Restart.getElem?_writeRow Row v pos (some row) q.id st.heap hv]
  by_cases hpos : e.2 = pos
  · rw [if_pos hpos]
    rw [hpos, hv] at hw
    cases hw
    exact ⟨_, rfl, hkey⟩
  · rw [if_neg hpos, if_pos hlt]
    exact ⟨w, hw, hkey⟩

theorem indexInsertOne_some {ix ix' : Index}
    (h : indexInsertOne q st row pos ix = .ok (some ix')) : ix'.col = ix.col ∧ ix'.unique = ix.unique ∧
      ∀ e ∈ ix'.entries, e ∈ ix.entries ∨ (e.2 = pos ∧ row[ix.col]? = some e.1) := by
  unfold indexInsertOne at h
  split at h
  · cases h
  · next key hkey =>
    split at h
    · cases h
      exact ⟨rfl, rfl, fun e he => Or.inl he⟩
    · cases hfree : probe q st ix key pos with
      | error e =>
        rw [hfree] at h
        cases h
      | ok free =>
        rw [hfree] at h
        cases free with
        | false => cases h
        | true =>
          cases h
          refine ⟨rfl, rfl, fun e he => ?_⟩
          rcases List.mem_cons.1 he with rfl | he
          · exact Or.inr ⟨rfl, hkey⟩
          · exact Or.inl he

/-- **The loop over the indexes** adds entries for the new version only. -/
theorem indexInsertForRow_sound {row : Row} {heap : List (RowVersion Row)} {v : RowVersion Row}
    (hv : heap[pos]? = some v) (hrow : v.row = row) : ∀ (indexes : List Index), Sound heap indexes →
    Sound heap (indexInsertForRow q st row pos indexes).1 ∧
      (indexInsertForRow q st row pos indexes).1.map (fun ix => (ix.col, ix.unique)) =
        indexes.map fun ix => (ix.col, ix.unique)
  | [], h => ⟨h, rfl⟩
  | ix :: rest, h => by
    simp only [indexInsertForRow]
    cases hone : indexInsertOne q st row pos ix with
    | error e => exact ⟨h, rfl⟩
    | ok o =>
      cases o with
      | none => exact ⟨h, rfl⟩
      | some ix' =>
        obtain ⟨hcol, huniq, hentries⟩ := indexInsertOne_some hone
        obtain ⟨hrest, hcols⟩ := indexInsertForRow_sound hv hrow rest fun jx hjx =>
          h jx (List.mem_cons_of_mem _ hjx)
        refine ⟨fun jx hjx e he => ?_, by simp [hcol, huniq, hcols]⟩
        rcases List.mem_cons.1 hjx with rfl | hjx
        · rcases hentries e he with he | ⟨hpos, hkey⟩
          · rw [hcol]
            exact h ix List.mem_cons_self e he
          · exact ⟨v, by rw [hpos, hv], by rw [hrow, hcol, hkey]⟩
        · exact hrest jx hjx e he

/-- How a row ends whose new version has been written. -/
def Replaced (q : Stmt) (st st' : State) (r : Nat × Row) (fin : RowEnd) : Prop :=
  (∃ e, fin = .failed e) ∨ ∃ row, q.newRow r.2 = .ok row ∧ Written q st st' r.1 row ∧
    (fin = .counted ∨ (fin = .restart ∧ hot q st = false ∧
      (indexInsertForRow q (st.write q.id r.1 row) row st.heap.length st.indexes).2 = .duplicate))

theorem replaceRow_cases {r : Nat × Row} {fin : RowEnd} (ha : Alone q st)
    (hv : st.heap[r.1]? = some v) (h : replaceRow q st r = (st', fin)) :
    Replaced q st st' r fin := by
  unfold replaceRow at h
  cases hnew : q.newRow r.2 with
  | error e =>
    rw [hnew] at h
    cases h
    exact Or.inl ⟨e, rfl⟩
  | ok row =>
    rw [hnew] at h
    dsimp only at h
    have hsound := ha.sound.write (q := q) hv row
    split at h
    · cases h
      exact Or.inr ⟨row, hnew, ⟨rfl, rfl, rfl, hsound⟩, Or.inl rfl⟩
    · next hhot =>
      have hlast : (st.write q.id r.1 row).heap[st.heap.length]? =
          some ⟨q.id, invalidTxnId, row⟩ := by
        have hget := @Restart.getElem?_writeRow Row v r.1 (some row) q.id st.heap hv st.heap.length
        have hlt := (List.getElem?_eq_some_iff.1 hv).1
        refine hget.trans ?_
        rw [if_neg (by omega), if_neg (by omega)]
        simp
      obtain ⟨hall, hcols⟩ := @indexInsertForRow_sound q (st.write q.id r.1 row) _ row _ _ hlast rfl
        st.indexes hsound
      generalize hins : indexInsertForRow q (st.write q.id r.1 row) row st.heap.length st.indexes =
        out at h hall hcols
      obtain ⟨indexes, fin'⟩ := out
      have hwritten : Written q st { st.write q.id r.1 row with indexes := indexes } r.1 row :=
        ⟨rfl, rfl, hcols, hall⟩
      cases fin' with
      | inserted =>
        cases h
        exact Or.inr ⟨row, hnew, hwritten, Or.inl rfl⟩
      | duplicate =>
        cases h
        exact Or.inr ⟨row, hnew, hwritten, Or.inr ⟨rfl, by simpa using hhot, by rw [hins]⟩⟩
      | failed e =>
        cases h
        exact Or.inl ⟨e, rfl⟩

theorem updateRow_cases {r : Nat × Row} {fin : RowEnd} (ha : Alone q st) (hr : FreeMark q st r)
    (h : updateRow q st r = (st', fin)) : Replaced q st st' r fin := by
  obtain ⟨v, hv, hfree⟩ := hr
  unfold updateRow at h
  simp only [hv] at h
  split at h
  · next hmark =>
    have hab : st.tm.status v.xmax = .aborted := (hfree.resolve_left hmark.1).resolve_left hmark.2
    rw [hab] at h
    exact replaceRow_cases ha hv h
  · exact replaceRow_cases ha hv h

/-! ## A duplicate key -/

theorem mem_lookupEq {key : Value} : ∀ {es : List (Value × Nat)} {out : List Nat},
    lookupEq key es = .ok out → ∀ pos ∈ out, ∃ k, (k, pos) ∈ es ∧ BTree.compareValues k key = .ok .eq
  | [], out, h, pos, hpos => by
    cases h
    cases hpos
  | (k, p) :: es, out, h, pos, hpos => by
    unfold lookupEq at h
    cases hc : BTree.compareValues k key with
    | error e =>
      rw [hc] at h
      cases h
    | ok c =>
      cases hrest : lookupEq key es with
      | error e =>
        rw [hc, hrest] at h
        cases h
      | ok rest =>
        rw [hc, hrest] at h
        have hout : out = if c = .eq then p :: rest else rest := (Except.ok.inj h).symm
        have hrec : pos ∈ rest → ∃ k', (k', pos) ∈ (k, p) :: es ∧
            BTree.compareValues k' key = .ok .eq := by
          intro hin
          obtain ⟨k', hk', heq⟩ := mem_lookupEq hrest pos hin
          exact ⟨k', List.mem_cons_of_mem _ hk', heq⟩
        rw [hout] at hpos
        split at hpos
        · next hceq =>
          rcases List.mem_cons.1 hpos with rfl | hin
          · exact ⟨k, List.mem_cons_self, by rw [hc, hceq]⟩
          · exact hrec hin
        · exact hrec hpos

theorem judgeAll_clash {own : Nat} : ∀ {candidates : List Nat},
    judgeAll q st own candidates = .clash → ∃ pos ∈ candidates, pos ≠ own ∧
      ∃ v : RowVersion Row, st.heap[pos]? = some v ∧
        checkCandidate st.tm q.id ⟨v.xmin, v.xmax, noCtid, v.row⟩ = .clash
  | [], h => by cases h
  | pos :: rest, h => by
    have hrec : judgeAll q st own rest = .clash → ∃ p ∈ pos :: rest, p ≠ own ∧
        ∃ v : RowVersion Row, st.heap[p]? = some v ∧
          checkCandidate st.tm q.id ⟨v.xmin, v.xmax, noCtid, v.row⟩ = .clash := by
      intro hrest
      obtain ⟨p, hp, hne, hv⟩ := judgeAll_clash hrest
      exact ⟨p, List.mem_cons_of_mem _ hp, hne, hv⟩
    simp only [judgeAll] at h
    split at h
    · exact hrec h
    · next hne =>
      split at h
      · exact hrec h
      · next v hv =>
        split at h
        · exact hrec h
        · exact ⟨pos, List.mem_cons_self, hne, v, hv, h⟩

/-- A candidate that clashes is a row the transaction sees. -/
theorem live_of_clash (ha : Alone q st)
    (h : checkCandidate st.tm q.id ⟨v.xmin, v.xmax, noCtid, v.row⟩ = .clash) :
    live q.id st.tm v = true ∧ v.xmax ≠ q.id := by
  rw [live_iff ha.wf]
  unfold checkCandidate at h
  dsimp only at h
  split at h
  · next hown =>
    split at h
    · cases h
    · next hne =>
      split at h
      · next h0 => exact ⟨⟨Or.inl hown, fun hmark => absurd h0 hmark⟩, hne⟩
      · cases h
  · split at h
    · cases h
    · cases h
    · next hcom =>
      split at h
      · next h0 =>
        exact ⟨⟨Or.inr hcom, fun hmark => absurd h0 hmark⟩, fun hid => ha.id_pos (hid.symm.trans h0)⟩
      · split at h
        · cases h
        · next hne =>
          split at h
          · cases h
          · next hab => exact ⟨⟨Or.inr hcom, fun _ => by simp [hne, hab]⟩, hne⟩
          · cases h

theorem duplicate_index {row : Row} : ∀ {indexes : List Index},
    (indexInsertForRow q st row pos indexes).2 = .duplicate → ∃ ix ∈ indexes, ix.unique = true ∧
      ∃ key, row[ix.col]? = some key ∧ key ≠ .null ∧ checkUniqueOrWait q st ix key pos = .ok false
  | [], h => by cases h
  | ix :: rest, h => by
    simp only [indexInsertForRow] at h
    cases hone : indexInsertOne q st row pos ix with
    | error e =>
      rw [hone] at h
      cases h
    | ok o =>
      rw [hone] at h
      cases o with
      | some ix' =>
        obtain ⟨jx, hjx, hrest⟩ := duplicate_index h
        exact ⟨jx, List.mem_cons_of_mem _ hjx, hrest⟩
      | none =>
        refine ⟨ix, List.mem_cons_self, ?_⟩
        unfold indexInsertOne at hone
        split at hone
        · cases hone
        · next key hkey =>
          split at hone
          · cases hone
          · next hnull =>
            cases hfree : probe q st ix key pos with
            | error e =>
              rw [hfree] at hone
              cases hone
            | ok free =>
              rw [hfree] at hone
              cases free with
              | true => cases hone
              | false =>
                unfold probe at hfree
                split at hfree
                · next huniq => exact ⟨huniq, key, hkey, hnull, hfree⟩
                · cases hfree

/-- **A 23505** needs another row with the key. -/
theorem keyTaken_of_duplicate {r : Nat × Row} (ha : Alone q st)
    (hv : st.heap[r.1]? = some v) (hnew : q.newRow r.2 = .ok row)
    (hdup : (indexInsertForRow q (st.write q.id r.1 row) row st.heap.length st.indexes).2 =
      .duplicate) : KeyTaken q st [] r := by
  obtain ⟨ix, hix, huniq, key, hkey, hnull, hcheck⟩ := duplicate_index hdup
  unfold checkUniqueOrWait at hcheck
  cases hlook : lookupEq key ix.entries with
  | error e =>
    rw [hlook] at hcheck
    cases hcheck
  | ok candidates =>
    rw [hlook] at hcheck
    have hclash : judgeAll q (st.write q.id r.1 row) st.heap.length candidates = .clash := by
      cases hj : judgeAll q (st.write q.id r.1 row) st.heap.length candidates with
      | clash => rfl
      | skip =>
        simp only [bind, Except.bind, hj] at hcheck
        cases hcheck
      | wait txn =>
        simp only [bind, Except.bind, hj] at hcheck
        cases hcheck
    obtain ⟨p, hp, hne, w, hw, hverdict⟩ := judgeAll_clash hclash
    obtain ⟨k, hk, heq⟩ := mem_lookupEq hlook p hp
    obtain ⟨u, hu, hcol⟩ := ha.sound ix hix (k, p) hk
    have hplt := (List.getElem?_eq_some_iff.1 hu).1
    have hget := @Restart.getElem?_writeRow Row v r.1 (some row) q.id st.heap hv p
    have hw : (writeRow q.id r.1 (some row) st.heap)[p]? = some w := hw
    rw [hget] at hw
    by_cases hpos : p = r.1
    · -- the version just marked does not clash
      rw [if_pos hpos] at hw
      cases hw
      exact absurd rfl (@live_of_clash q st _ ha hverdict).2
    · rw [if_neg hpos, if_pos hplt] at hw
      have hwu : w = u := Option.some.inj (hw.symm.trans hu)
      subst hwu
      obtain ⟨hlive, -⟩ := @live_of_clash q st _ ha hverdict
      refine ⟨row, hnew, w.row, ?_, ix, hix, huniq, key, k, hkey, hnull, hcol, heq⟩
      unfold othersAt
      refine List.mem_append_left _ (List.mem_map.2 ⟨(p, w.row), ?_, rfl⟩)
      refine List.mem_filter.2 ⟨mem_rows.2 ⟨w, hu, hlive, rfl⟩, ?_⟩
      simpa using hpos

/-! ## One attempt -/

theorem FreeMark.lt {r : Nat × Row} (h : FreeMark q st r) : r.1 < st.heap.length := by
  obtain ⟨v, hv, -⟩ := h
  exact (List.getElem?_eq_some_iff.1 hv).1

theorem newRows_cons {r : Nat × Row} {rest : List (Nat × Row)}
    (h : q.newRow r.2 = .ok row) : newRows q (r :: rest) = row :: newRows q rest := by
  simp [newRows, h, Except.toOption]

/-- **An attempt that goes through** replaces every row it comes to. -/
theorem rowLoop_done : ∀ (rows : List (Nat × Row)) {st st' : State} {count n : Nat}, Alone q st →
    (∀ r ∈ rows, FreeMark q st r) → rowLoop q st rows count = (st', .done n) →
    n = count + rows.length ∧ Alone q st' ∧ ∃ news : List (Nat × Row),
      news.map Prod.snd = newRows q rows ∧ news.length = rows.length ∧
        (st'.rows q.id).Perm
          ((st.rows q.id).filter (fun e => e.1 ∉ rows.map Prod.fst) ++ news)
  | [], st, st', count, n, ha, _, h => by
    cases h
    exact ⟨rfl, ha, [], rfl, rfl, by simp⟩
  | r :: rest, st, st', count, n, ha, hfree, h => by
    have hr := hfree r List.mem_cons_self
    obtain ⟨v, hv, -⟩ := id hr
    rw [rowLoop] at h
    generalize hup : updateRow q st r = out at h
    obtain ⟨st₁, fin⟩ := out
    obtain ⟨e, rfl⟩ | ⟨row, hnew, hw, rfl | ⟨rfl, -⟩⟩ := updateRow_cases ha hr hup
    · cases h
    swap
    · cases h
    have hfree₁ : ∀ r' ∈ rest, FreeMark q st₁ r' := fun r' hr' =>
      hw.freeMark hv (hfree r' (List.mem_cons_of_mem _ hr'))
    obtain ⟨hn, ha', news, hnews, hlen, hrows⟩ := rowLoop_done rest (hw.alone ha hv) hfree₁ h
    refine ⟨by rw [hn, List.length_cons]; omega, ha', (st.heap.length, row) :: news, ?_, by simp [hlen],
      hrows.trans ?_⟩
    · rw [newRows_cons hnew, List.map_cons, hnews]
    · -- the new version is not among the rows to come
      have hout : st.heap.length ∉ rest.map Prod.fst := by
        intro hin
        obtain ⟨r', hr', heq⟩ := List.mem_map.1 hin
        have := (hfree r' (List.mem_cons_of_mem _ hr')).lt
        omega
      have hfilter := (hw.rows ha hv).filter fun e => e.1 ∉ rest.map Prod.fst
      rw [List.filter_append, List.filter_filter] at hfilter
      have hkeep : [(st.heap.length, row)].filter (fun e => decide (e.1 ∉ rest.map Prod.fst)) =
          [(st.heap.length, row)] := by
        rw [List.filter_cons_of_pos (by simpa using hout), List.filter_nil]
      have hboth : (fun e : Nat × Row => decide (e.1 ∉ rest.map Prod.fst) && decide (e.1 ≠ r.1)) =
          fun e => decide (e.1 ∉ (r :: rest).map Prod.fst) := by
        funext e
        rw [List.map_cons, Bool.eq_iff_iff]
        simp only [Bool.and_eq_true, decide_eq_true_eq, List.mem_cons, not_or]
        exact and_comm
      rw [hkeep, hboth] at hfilter
      refine (hfilter.append_right news).trans ?_
      rw [List.append_assoc]
      rfl

theorem Written.hot_eq (h : Written q st st' pos row) : hot q st' = hot q st := by
  have hall : ∀ indexes : List Index, (indexes.all fun ix => !q.touched.contains ix.col) =
      (indexes.map fun ix => (ix.col, ix.unique)).all fun p => !q.touched.contains p.1 := by
    intro indexes
    rw [List.all_map]
    rfl
  rw [hot, hot, hall, hall, h.cols]

/-- The rows that were there later were there, or are new versions. -/
theorem KeyTaken.before {r₀ r : Nat × Row} {front : List (Nat × Row)} (ha : Alone q st)
    (hv : st.heap[r₀.1]? = some v) (hnew : q.newRow r₀.2 = .ok row)
    (hw : Written q st st' r₀.1 row) (h : KeyTaken q st' front r) :
    KeyTaken q st (r₀ :: front) r := by
  obtain ⟨row', hrow', other, hother, ix, hix, huniq, hkey⟩ := h
  obtain ⟨jx, hjx, hsame⟩ : ∃ jx ∈ st.indexes, (jx.col, jx.unique) = (ix.col, ix.unique) := by
    have hmem : (ix.col, ix.unique) ∈ st'.indexes.map fun ix => (ix.col, ix.unique) :=
      List.mem_map.2 ⟨ix, hix, rfl⟩
    rw [hw.cols] at hmem
    exact List.mem_map.1 hmem
  rw [Prod.mk.injEq] at hsame
  refine ⟨row', hrow', other, ?_, jx, hjx, hsame.2.trans huniq, by rw [hsame.1]; exact hkey⟩
  rcases List.mem_append.1 hother with hother | hother
  · obtain ⟨e, he, rfl⟩ := List.mem_map.1 hother
    obtain ⟨he, hout⟩ := List.mem_filter.1 he
    have hout : e.1 ≠ r.1 ∧ e.1 ∉ front.map Prod.fst := by simpa using hout
    rcases List.mem_append.1 ((hw.rows ha hv).subset he) with he | he
    · obtain ⟨he, hne⟩ := List.mem_filter.1 he
      refine List.mem_append_left _ (List.mem_map.2 ⟨e, List.mem_filter.2 ⟨he, ?_⟩, rfl⟩)
      have hne : e.1 ≠ r₀.1 := by simpa using hne
      rw [decide_eq_true_eq, List.map_cons, List.mem_cons, not_or]
      exact ⟨hout.1, hne, hout.2⟩
    · rw [List.mem_singleton.1 he]
      refine List.mem_append_right _ ?_
      rw [newRows_cons hnew]
      exact List.mem_cons_self
  · refine List.mem_append_right _ ?_
    rw [newRows_cons hnew]
    exact List.mem_cons_of_mem _ hother

/-- **An attempt that is restarted** has come to a key that is taken. -/
theorem rowLoop_restart : ∀ (rows : List (Nat × Row)) {st st' : State} {count : Nat}, Alone q st →
    (∀ r ∈ rows, FreeMark q st r) → rowLoop q st rows count = (st', .restart) →
    hot q st = false ∧ TakenIn q st rows
  | [], st, st', count, _, _, h => by cases h
  | r :: rest, st, st', count, ha, hfree, h => by
    have hr := hfree r List.mem_cons_self
    obtain ⟨v, hv, -⟩ := id hr
    rw [rowLoop] at h
    generalize hup : updateRow q st r = out at h
    obtain ⟨st₁, fin⟩ := out
    obtain ⟨e, rfl⟩ | ⟨row, hnew, hw, rfl | ⟨-, hhot, hdup⟩⟩ := updateRow_cases ha hr hup
    · cases h
    · have hfree₁ : ∀ r' ∈ rest, FreeMark q st₁ r' := fun r' hr' =>
        hw.freeMark hv (hfree r' (List.mem_cons_of_mem _ hr'))
      obtain ⟨hhot, front, r', back, hsplit, hfront, htaken⟩ :=
        rowLoop_restart rest (hw.alone ha hv) hfree₁ h
      refine ⟨hw.hot_eq ▸ hhot, r :: front, r', back, by rw [hsplit]; rfl, fun e he => ?_,
        htaken.before ha hv hnew hw⟩
      rcases List.mem_cons.1 he with rfl | he
      · exact ⟨row, hnew⟩
      · exact hfront e he
    · exact ⟨hhot, [], r, rest, rfl, fun e he => absurd he List.not_mem_nil,
        keyTaken_of_duplicate ha hv hnew hdup⟩

/-! ## The rows of an attempt -/

theorem followChainVisible_mem {id fuel : Nat} {cur : Nat} {e : Nat × Row}
    (h : followChainVisible id st fuel cur = some e) : e ∈ st.rows id := by
  induction fuel generalizing cur with
  | zero => cases h
  | succ n ih =>
    unfold followChainVisible at h
    split at h
    · cases h
    · next v hv =>
      split at h
      · next hlive =>
        cases h
        exact mem_rows.2 ⟨v, hv, hlive, rfl⟩
      · split at h
        · cases h
        · exact ih h

theorem foundRows_subset : foundRows q st ⊆ st.rows q.id := by
  intro e he
  unfold foundRows at he
  split at he
  · exact he
  · split at he
    · cases he
    · obtain ⟨p, -, hp⟩ := List.mem_filterMap.1 he
      exact followChainVisible_mem hp

theorem keepRows_eq : ∀ {rows out : List (Nat × Row)}, keepRows q rows = .ok out →
    out = rows.filter fun r => satisfies q r.2
  | [], out, h => by
    cases h
    rfl
  | r :: rest, out, h => by
    unfold keepRows at h
    cases hp : q.pred r.2 with
    | error e =>
      rw [hp] at h
      cases h
    | ok b =>
      cases hrest : keepRows q rest with
      | error e =>
        rw [hp, hrest] at h
        cases h
      | ok kept =>
        rw [hp, hrest] at h
        have hout : out = if b then r :: kept else kept := (Except.ok.inj h).symm
        rw [hout, keepRows_eq hrest, List.filter_cons]
        simp [satisfies, hp]

theorem scanned_subset : scanned q st ⊆ due q st := by
  intro e he
  obtain ⟨he, hsat⟩ := List.mem_filter.1 he
  exact List.mem_filter.2 ⟨foundRows_subset ((q.perm _).subset he), hsat⟩

theorem freeMark_of_mem (ha : Alone q st) {e : Nat × Row} (he : e ∈ st.rows q.id) :
    FreeMark q st e := by
  obtain ⟨v, hv, hlive, -⟩ := mem_rows.1 he
  refine ⟨v, hv, ?_⟩
  by_cases h0 : v.xmax = invalidTxnId
  · exact Or.inl h0
  · have hunseen := ((live_iff ha.wf).1 hlive).2 h0
    rw [not_or] at hunseen
    have hdecided := ha.status_ne hunseen.1
    right
    right
    cases hs : st.tm.status v.xmax with
    | aborted => rfl
    | committed => exact absurd hs hunseen.2
    | inProgress => exact absurd hs hdecided

theorem scanned_free (ha : Alone q st) : ∀ r ∈ scanned q st, FreeMark q st r := fun _r hr =>
  freeMark_of_mem ha (List.mem_filter.1 (scanned_subset hr)).1

/-- A row the transaction sees is known by its position. -/
theorem nodup_rows {id : Nat} : (st.rows id).Nodup :=
  (List.pairwise_map.1 Restart.nodup_select).imp fun hne heq => hne (congrArg Prod.fst heq)

theorem eq_of_mem_rows {id : Nat} {a b : Nat × Row} (ha : a ∈ st.rows id) (hb : b ∈ st.rows id)
    (h : a.1 = b.1) : a = b := by
  obtain ⟨v, hv, -, hrow⟩ := mem_rows.1 ha
  obtain ⟨w, hw, -, hrow'⟩ := mem_rows.1 hb
  rw [h, hw] at hv
  cases hv
  exact Prod.ext h (hrow.symm.trans hrow')

/-- **The first attempt**, when it goes through. -/
theorem pass_done {n : Nat} (ha : Alone q st) (h : pass q st = (st', .done n)) :
    n = (scanned q st).length ∧ Alone q st' ∧
      ∃ news : List (Nat × Row), news.map Prod.snd = newRows q (scanned q st) ∧
        news.length = (scanned q st).length ∧ (st'.rows q.id).Perm
          ((st.rows q.id).filter (fun e => e.1 ∉ (scanned q st).map Prod.fst) ++ news) := by
  unfold pass at h
  cases hm : matchingRows q st with
  | error e =>
    rw [hm] at h
    cases h
  | ok rows =>
    obtain rfl : rows = scanned q st := keepRows_eq hm
    rw [hm] at h
    obtain ⟨hn, ha', hnews⟩ := rowLoop_done _ ha (scanned_free ha) h
    exact ⟨hn.trans (Nat.zero_add _), ha', hnews⟩

theorem pass_restart (ha : Alone q st) (h : pass q st = (st', .restart)) : MeetsKey q st := by
  unfold pass at h
  cases hm : matchingRows q st with
  | error e =>
    rw [hm] at h
    cases h
  | ok rows =>
    obtain rfl : rows = scanned q st := keepRows_eq hm
    rw [hm] at h
    exact rowLoop_restart _ ha (scanned_free ha) h

/-- **The converse**, by counting: no row is lost and none is doubled. -/
theorem perm_of_replaces {n : Nat} {rows news : List (Nat × Row)} (ha' : Alone q st')
    (hsub : rows ⊆ due q st) (hn : n = rows.length) (hlen : news.length = rows.length)
    (hrows : (st'.rows q.id).Perm
      ((st.rows q.id).filter (fun e => e.1 ∉ rows.map Prod.fst) ++ news))
    (h : Replaces q st st' n) : rows.Perm (due q st) := by
  have hcount : rows.length = (due q st).length := hn.symm.trans h.count
  -- the rows the attempt has replaced
  let gone := (st.rows q.id).filter fun e => e.1 ∈ rows.map Prod.fst
  have hover : gone ⊆ rows := by
    intro e he
    obtain ⟨he, hin⟩ := List.mem_filter.1 he
    obtain ⟨r, hr, hpos⟩ := List.mem_map.1 (of_decide_eq_true hin)
    rw [eq_of_mem_rows he (List.mem_filter.1 (hsub hr)).1 hpos.symm]
    exact hr
  have hmany : rows.length ≤ gone.length := by
    have hsplit : (st.rows q.id).length = gone.length +
        ((st.rows q.id).filter fun e => e.1 ∉ rows.map Prod.fst).length := by
      have := List.length_eq_length_filter_add (l := st.rows q.id)
        (fun e => decide (e.1 ∈ rows.map Prod.fst))
      simpa [gone] using this
    have hdue : (st.rows q.id).length = (due q st).length +
        ((st.rows q.id).filter fun e => !satisfies q e.2).length :=
      List.length_eq_length_filter_add _
    have hafter := h.rows.length_eq
    rw [seenAfresh_eq ha', List.length_map, hrows.length_eq, expected, List.length_append,
      List.length_append, List.length_map] at hafter
    have hnew : (newRows q (due q st)).length ≤ (due q st).length := List.length_filterMap_le _ _
    omega
  have hnodup : gone.Nodup := nodup_rows.filter _
  have hsame : gone.Perm rows := (List.subperm_of_subset hnodup hover).perm_of_length_le hmany
  exact (List.subperm_of_subset (hsame.nodup_iff.1 hnodup) hsub).perm_of_length_le hcount.ge

/-! ## The statement -/

variable (q) (st)

/-- Of a statement that goes through, the scan has to come to each due row once. -/
theorem scansOnce_of_allOrError {n : Nat} (h : Alone q st) (hkeys : ¬ MeetsKey q st)
    (hok : performUpdate q st = (st', .ok n)) (hall : AllOrError q st) : ScansOnce q st := by
  have hreplaces := hall.replaces n st' hok
  rw [performUpdate, MAX_RETRIES, retryLoop] at hok
  generalize hpass : pass q st = out at hok
  obtain ⟨st₁, count | _ | e⟩ := out
  · cases hok
    obtain ⟨hn, ha', news, -, hlen, hrows⟩ := pass_done h hpass
    exact perm_of_replaces ha' scanned_subset hn hlen hrows hreplaces
  · exact absurd (pass_restart h hpass) hkeys
  · cases hok

/-! ## A table with a unique column -/

end Ccdb.UniqueUpdate
