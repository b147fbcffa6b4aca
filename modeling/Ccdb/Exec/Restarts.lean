import Ccdb.Lib.Runs
import Ccdb.Exec.Dml

/-!
# Ccdb — what a restarted statement has done

One UPDATE or DELETE of one transaction, among other transactions that write rows
and end in any order; a commit or an abort is one step. The steps are those of the
loops of `perform_update` and `perform_delete`: fresh snapshot, matching, row lock,
recheck, write.

A restart keeps what the attempt has written: the next snapshot shows the new
versions to the statement as rows of its own, and the count starts at 0 again.

Main results:

* `Exact.step` — as long as no attempt that has written is restarted, what was
  written is the matched rows up to the current one.
* `applied_once_iff` — a statement that returns `Ok(n)` has applied once to each of
  `n` rows exactly when that is so.
* `restart_increments_twice` — otherwise a row can be incremented twice.
-/

namespace Ccdb.Restart

open TransactionManager

variable {α : Type}

/-! ## Tables, statements, states -/

/-- A version of a row. -/
structure RowVersion (α : Type) where
  xmin : Nat
  xmax : Nat
  row : α
deriving DecidableEq, Repr

/-- `UPDATE t SET … WHERE pred` in transaction `id`, or a DELETE when `set` is `none`.
The scan finds the rows in the order of the heap or of an index. -/
structure Stmt (α : Type) where
  id : Nat
  pred : α → Bool
  set : Option (α → α)
  order : List (Nat × α) → List (Nat × α)

/-- Every scan comes to each row it is to find once: a sequential scan does, and one through
an index that leads to every visible version. -/
def Stmt.ScansOnce (q : Stmt α) : Prop := ∀ rows, (q.order rows).Perm rows

/-- Where the statement is. `left` are the attempts that remain after this one, `rows`
the matched versions that remain and `count` those that were written. -/
inductive Pc (α : Type) where
  | attempt (left : Nat)
  | snapped (left : Nat) (snap : Snapshot)
  | matched (left : Nat) (snap : Snapshot) (rows : List (Nat × α)) (count : Nat)
  | locked (left : Nat) (snap : Snapshot) (r : Nat × α) (rest : List (Nat × α)) (count : Nat)
  | checked (left : Nat) (snap : Snapshot) (r : Nat × α) (rest : List (Nat × α)) (count : Nat)
  -- `Ok(count)`; the snapshot stays in the transaction
  | returned (snap : Snapshot) (count : Nat)
  | failed
deriving DecidableEq, Repr

/-- What another transaction does: it overwrites a version (UPDATE with the new row,
DELETE with none), adds a row, or ends. -/
inductive Deed (α : Type) where
  | begin
  | write (id pos : Nat) (new : Option α)
  | insert (id : Nat) (row : α)
  | commit (id : Nat)
  | abort (id : Nat)

/-- The next step of the statement; its write with a 23505 from the index insertion
that follows; an error; a deed of another transaction. -/
inductive Act (α : Type) where
  | next
  | duplicate
  | fail
  | other (d : Deed α)

structure State (α : Type) where
  tm : TransactionManager
  heap : List (RowVersion α)
  locks : Nat → Option Nat
  pc : Pc α

/-- The versions `keep` holds of, with their positions. -/
def select (heap : List (RowVersion α)) (keep : Nat → RowVersion α → Bool) : List (Nat × α) :=
  (heap.zipIdx.filter fun e => keep e.2 e.1).map fun e => (e.2, e.1.row)

/-- The deletion mark on the version at `pos`, and the version that replaces it. -/
def writeRow (id pos : Nat) (new : Option α) (heap : List (RowVersion α)) : List (RowVersion α) :=
  heap.modify pos (fun v => { v with xmax := id }) ++
    (new.map fun row => ⟨id, invalidTxnId, row⟩).toList

namespace State

def goto (st : State α) (pc : Pc α) : State α := { st with pc := pc }

/-- `lm.lock` succeeds. -/
def mayLock (st : State α) (id pos : Nat) : Bool :=
  decide (st.locks pos = none ∨ st.locks pos = some id)

def lock (st : State α) (id pos : Nat) : State α :=
  { st with locks := Function.update st.locks pos (some id) }

/-- `unlock_all`. -/
def unlockAll (st : State α) (id : Nat) : State α :=
  { st with locks := fun p => if st.locks p = some id then none else st.locks p }

/-- The write of `perform_update` or `perform_delete`, and the lock on the new row. -/
def write (st : State α) (id pos : Nat) (new : Option α) : State α :=
  { st.lock id st.heap.length with heap := writeRow id pos new st.heap }

end State

/-- The outcome of the recheck under the row lock. -/
inductive Verdict where
  | gone
  | restart
  | proceed
  | conflict
deriving DecidableEq, Repr

/-- The recheck under the row lock. -/
def recheck (q : Stmt α) (st : State α) (pos : Nat) : Verdict :=
  match st.heap[pos]? with
  | none => .gone
  | some v =>
    if v.xmax ≠ invalidTxnId ∧ v.xmax ≠ q.id then
      match st.tm.status v.xmax with
      | .committed => .restart
      | .aborted => .proceed
      | .inProgress => .conflict
    else .proceed

/-- `matching_rows`: what the snapshot sees and the WHERE clause holds of. -/
def matchingRows (q : Stmt α) (st : State α) (snap : Snapshot) : List (Nat × α) :=
  q.order (select st.heap fun _ v => isVisible v.xmin v.xmax snap st.tm && q.pred v.row)

/-- The next step of the statement; none while it waits for a lock. -/
def next (q : Stmt α) (st : State α) : Pc α → Option (State α)
  | .attempt 0 => some (st.goto .failed)
  | .attempt (left + 1) => some (st.goto (.snapped left (st.tm.snapshot q.id)))
  | .snapped left snap => some (st.goto (.matched left snap (matchingRows q st snap) 0))
  | .matched _ snap [] count => some (st.goto (.returned snap count))
  | .matched left snap (r :: rest) count =>
    if st.mayLock q.id r.1 then some ((st.lock q.id r.1).goto (.locked left snap r rest count))
    else none
  | .locked left snap r rest count =>
    match recheck q st r.1 with
    | .gone => some (st.goto (.matched left snap rest count))
    | .restart => some (st.goto (.attempt left))
    | .proceed => some (st.goto (.checked left snap r rest count))
    | .conflict => some (st.goto .failed)
  | .checked left snap r rest count =>
    some ((st.write q.id r.1 (q.set.map fun f => f r.2)).goto (.matched left snap rest (count + 1)))
  | .returned _ _ => none
  | .failed => none

/-- Another transaction, under the rules of its own loop: it writes only under the row
lock and only over a mark that does not count. -/
def deed (q : Stmt α) (st : State α) : Deed α → Option (State α)
  | .begin => some { st with tm := st.tm.begin.2 }
  | .write id pos new =>
    match st.heap[pos]? with
    | none => none
    | some v =>
      if id ∈ st.tm.activeIds ∧ id ≠ q.id ∧ st.mayLock id pos ∧
          (v.xmax = invalidTxnId ∨ st.tm.status v.xmax = .aborted) then
        some ((st.lock id pos).write id pos new)
      else none
  | .insert id row =>
    if id ∈ st.tm.activeIds ∧ id ≠ q.id then
      some { st.lock id st.heap.length with heap := st.heap ++ [⟨id, invalidTxnId, row⟩] }
    else none
  | .commit id =>
    if id ∈ st.tm.activeIds ∧ id ≠ q.id then
      some { st.unlockAll id with tm := st.tm.commit id }
    else none
  | .abort id =>
    if id ∈ st.tm.activeIds ∧ id ≠ q.id then
      some { st.unlockAll id with tm := st.tm.abort id }
    else none

/-- One step. -/
def step (q : Stmt α) (st : State α) : Act α → Option (State α)
  | .next => next q st st.pc
  | .duplicate =>
    match st.pc with
    | .checked left _ r _ _ =>
      q.set.map fun f => (st.write q.id r.1 (some (f r.2))).goto (.attempt left)
    | _ => none
  | .fail =>
    match st.pc with
    | .returned _ _ => none
    | _ => some (st.goto .failed)
  | .other d => deed q st d

/-- The statement is not restarted after it has written in the same attempt. -/
def Early (q : Stmt α) (st : State α) (a : Act α) : Prop :=
  match a, st.pc with
  | .next, .locked _ _ r _ count => recheck q st r.1 = .restart → count = 0
  | .duplicate, _ => False
  | _, _ => True

instance (q : Stmt α) (st : State α) (a : Act α) : Decidable (Early q st a) := by
  unfold Early
  split <;> infer_instance

/-! ## What the statement has written, and what it is about -/

section Effects

variable (q : Stmt α) (old : List (RowVersion α))

/-- Marked by the statement; `old` is the heap before it. -/
def overAt (i : Nat) (v : RowVersion α) : Bool :=
  decide (v.xmax = q.id ∧ (old[i]?.map RowVersion.xmax) ≠ some q.id)

/-- Created by the statement. -/
def madeAt (i : Nat) (v : RowVersion α) : Bool := decide (old.length ≤ i ∧ v.xmin = q.id)

/-- A row that satisfies the WHERE clause under `snap`, the statement's own writes
left out. -/
def dueAt (snap : Snapshot) (tm : TransactionManager) (i : Nat) (v : RowVersion α) : Bool :=
  !madeAt q old i v &&
    isVisible v.xmin (if overAt q old i v then invalidTxnId else v.xmax) snap tm && q.pred v.row

/-- The versions the statement has overwritten. -/
def overs (heap : List (RowVersion α)) : List (Nat × α) := select heap (overAt q old)

/-- The versions it has created. -/
def made (heap : List (RowVersion α)) : List (Nat × α) := select heap (madeAt q old)

/-- The rows it is about. -/
def due (snap : Snapshot) (st : State α) : List (Nat × α) := select st.heap (dueAt q old snap st.tm)

/-- The new versions of rows. -/
def replaced (rows : List (Nat × α)) : List α := rows.filterMap fun e => q.set.map fun f => f e.2

/-- **Applied once**: the statement overwrote each row it is about once and nothing
else, its new versions are theirs, and `n` is their number. -/
structure AppliedOnce (st : State α) (snap : Snapshot) (n : Nat) : Prop where
  marked : (overs q old st.heap).Perm (due q old snap st)
  made : ((made q old st.heap).map Prod.snd).Perm (replaced q (due q old snap st))
  count : n = (due q old snap st).length

/-- The statement is about to start, in an open transaction that may have written
before. -/
structure Start (st : State α) : Prop where
  wf : st.tm.WF
  active : q.id ∈ st.tm.activeIds
  pc : st.pc = .attempt MAX_RETRIES

end Effects

/-! ## Selections of versions -/

section Select

variable {heap : List (RowVersion α)} {keep : Nat → RowVersion α → Bool} {v : RowVersion α}
  {x pos : Nat} {new : Option α}

theorem mem_select {e : Nat × α} :
    e ∈ select heap keep ↔ ∃ v, heap[e.1]? = some v ∧ keep e.1 v = true ∧ v.row = e.2 := by
  unfold select
  simp only [List.mem_map, List.mem_filter, Prod.exists, List.mem_zipIdx_iff_getElem?]
  constructor
  · rintro ⟨v, i, ⟨hv, hk⟩, rfl⟩
    exact ⟨v, hv, hk, rfl⟩
  · rintro ⟨v, hv, hk, hrow⟩
    exact ⟨v, e.1, ⟨hv, hk⟩, by rw [hrow]⟩

theorem nodup_select : ((select heap keep).map Prod.fst).Nodup := by
  have hsub : ((select heap keep).map Prod.fst).Sublist (heap.zipIdx.map Prod.snd) := by
    rw [select, List.map_map]
    exact List.filter_sublist.map _
  refine List.Nodup.sublist hsub ?_
  rw [List.zipIdx_map_snd]
  exact List.nodup_range'

theorem select_congr {keep' : Nat → RowVersion α → Bool}
    (h : ∀ i v, heap[i]? = some v → keep' i v = keep i v) : select heap keep' = select heap keep := by
  unfold select
  congr 1
  refine List.filter_congr fun e he => ?_
  exact h e.2 e.1 (List.mem_zipIdx_iff_getElem?.1 he)

theorem select_append (heap tail : List (RowVersion α)) (keep : Nat → RowVersion α → Bool) :
    select (heap ++ tail) keep = select heap keep ++
      ((tail.zipIdx heap.length).filter fun e => keep e.2 e.1).map fun e => (e.2, e.1.row) := by
  simp [select, List.zipIdx_append]

/-- **What a write does to a selection**: the version at `pos` may come or go, and
the new version may come. -/
theorem select_writeRow (hv : heap[pos]? = some v) (keep : Nat → RowVersion α → Bool) :
    ∃ front back,
      select heap keep = front ++ (if keep pos v then [(pos, v.row)] else []) ++ back ∧
      select (writeRow x pos new heap) keep =
        front ++ (if keep pos { v with xmax := x } then [(pos, v.row)] else []) ++ back ++
          (if new.any fun row => keep heap.length ⟨x, invalidTxnId, row⟩
            then (new.map fun row => (heap.length, row)).toList else []) := by
  obtain ⟨hlt, rfl⟩ := List.getElem?_eq_some_iff.1 hv
  have hsplit : heap = heap.take pos ++ heap[pos] :: heap.drop (pos + 1) := by
    rw [← List.drop_eq_getElem_cons hlt, List.take_append_drop]
  have hlen : (heap.take pos).length = pos := List.length_take_of_le hlt.le
  have hmod : heap.modify pos (fun v => { v with xmax := x }) =
      heap.take pos ++ { heap[pos] with xmax := x } :: heap.drop (pos + 1) := by
    rw [List.modify_eq_take_cons_drop hlt]
  -- what is selected from the versions around the one written
  have haround : ∀ w : RowVersion α, w.row = heap[pos].row →
      select (heap.take pos ++ w :: heap.drop (pos + 1)) keep =
        select (heap.take pos) keep ++ (if keep pos w then [(pos, heap[pos].row)] else []) ++
          (((heap.drop (pos + 1)).zipIdx (pos + 1)).filter fun e => keep e.2 e.1).map
            fun e => (e.2, e.1.row) := by
    intro w hw
    rw [select_append, hlen, List.zipIdx_cons, List.filter_cons]
    cases hk : keep pos w <;> simp [hw]
  refine ⟨select (heap.take pos) keep, (((heap.drop (pos + 1)).zipIdx (pos + 1)).filter fun e =>
    keep e.2 e.1).map fun e => (e.2, e.1.row), ?_, ?_⟩
  · rw [← haround _ rfl, ← hsplit]
  · rw [writeRow, select_append, List.length_modify, hmod, haround { heap[pos] with xmax := x } rfl]
    congr 1
    cases new with
    | none => rfl
    | some row =>
      simp only [Option.map_some, Option.toList_some, List.zipIdx_cons, List.zipIdx_nil,
        List.filter_cons, List.filter_nil, Option.any_some]
      split <;> rfl

/-- A write that a selection does not notice. -/
theorem select_writeRow_same (hv : heap[pos]? = some v)
    (hkeep : keep pos { v with xmax := x } = keep pos v)
    (hnew : ∀ row, keep heap.length ⟨x, invalidTxnId, row⟩ = false) :
    select (writeRow x pos new heap) keep = select heap keep := by
  obtain ⟨front, back, hold, hwrite⟩ := @select_writeRow α heap v x pos new hv keep
  have hany : (new.any fun row => keep heap.length ⟨x, invalidTxnId, row⟩) = false := by
    cases new with
    | none => rfl
    | some row => exact hnew row
  rw [hwrite, hold, hkeep, hany]
  simp

/-- A selection of the marks of `x`. -/
theorem select_writeRow_mark (hv : heap[pos]? = some v) (hbefore : keep pos v = false)
    (hafter : keep pos { v with xmax := x } = true)
    (hnew : ∀ row, keep heap.length ⟨x, invalidTxnId, row⟩ = false) :
    (select (writeRow x pos new heap) keep).Perm ((pos, v.row) :: select heap keep) := by
  obtain ⟨front, back, hold, hwrite⟩ := @select_writeRow α heap v x pos new hv keep
  have hany : (new.any fun row => keep heap.length ⟨x, invalidTxnId, row⟩) = false := by
    cases new with
    | none => rfl
    | some row => exact hnew row
  rw [hwrite, hold, hbefore, hafter, hany]
  simp

/-- A selection of the versions `x` creates. -/
theorem select_writeRow_new (hv : heap[pos]? = some v)
    (hkeep : keep pos { v with xmax := x } = keep pos v)
    (hnew : ∀ row, keep heap.length ⟨x, invalidTxnId, row⟩ = true) :
    select (writeRow x pos new heap) keep =
      select heap keep ++ (new.map fun row => (heap.length, row)).toList := by
  obtain ⟨front, back, hold, hwrite⟩ := @select_writeRow α heap v x pos new hv keep
  rw [hwrite, hold, hkeep]
  cases new with
  | none => simp
  | some row => simp [hnew row]

end Select

/-! ## Steps of the others -/

section Steps

variable {q : Stmt α} {old : List (RowVersion α)} {st st' : State α} {snap : Snapshot}
  {v : RowVersion α} {pos : Nat} {new : Option α}

/-- What holds in every state after the start. -/
structure Sane (q : Stmt α) (old : List (RowVersion α)) (st : State α) : Prop where
  wf : st.tm.WF
  active : q.id ∈ st.tm.activeIds
  grown : old.length ≤ st.heap.length
  kept : ∀ (i : Nat) (v : RowVersion α), old[i]? = some v → v.xmax = q.id →
    ∃ w : RowVersion α, st.heap[i]? = some w ∧ w.xmax = q.id

/-- A snapshot of the statement. -/
def Holds (q : Stmt α) (st : State α) (snap : Snapshot) : Prop :=
  snap.Held st.tm ∧ snap.txnId = q.id

/-- A step that leaves what the statement has written and what it is about. -/
structure Quiet (q : Stmt α) (old : List (RowVersion α)) (st st' : State α) : Prop where
  sane : Sane q old st'
  pc : st'.pc = st.pc
  marked : overs q old st'.heap = overs q old st.heap
  made : made q old st'.heap = made q old st.heap
  due : ∀ snap, Holds q st snap → Holds q st' snap ∧ due q old snap st' = due q old snap st
  fresh : ∀ (i : Nat) (v : RowVersion α), st.heap[i]? = some v → v.xmax ≠ q.id →
    ∃ w : RowVersion α, st'.heap[i]? = some w ∧ w.xmax ≠ q.id

theorem Sane.id_pos (h : Sane q old st) : q.id ≠ invalidTxnId := by
  intro h0
  have hact := h.active
  rw [h0] at hact
  exact h.wf.zero_inactive hact

theorem getElem?_writeRow (x : Nat) (heap : List (RowVersion α)) (hv : heap[pos]? = some v) (i : Nat) :
    (writeRow x pos new heap)[i]? =
      if i = pos then some { v with xmax := x }
      else if i < heap.length then heap[i]?
      else (new.map fun row => (⟨x, invalidTxnId, row⟩ : RowVersion α)).toList[i - heap.length]? := by
  have hlt := (List.getElem?_eq_some_iff.1 hv).1
  unfold writeRow
  by_cases hi : i < heap.length
  · rw [List.getElem?_append_left (by simpa using hi), List.getElem?_modify]
    by_cases hpos : i = pos
    · simp [hpos, hv]
    · simp [hpos, hi, Ne.symm hpos]
  · rw [List.getElem?_append_right (by simpa using hi), List.length_modify, if_neg (by omega),
      if_neg hi]

theorem isVisible_held {xmin xmax : Nat} {tm tm' : TransactionManager} (h : snap.Held tm)
    (hwf : tm.WF) (hstep : TransactionManager.Step tm tm') :
    isVisible xmin xmax snap tm' = isVisible xmin xmax snap tm := by
  rw [Bool.eq_iff_iff, isVisible_iff, isVisible_iff, sees_step h hwf hstep, sees_step h hwf hstep]

/-- Another transaction begins or ends. -/
theorem Sane.quiet_tm (h : Sane q old st) (hstep : TransactionManager.Step st.tm st'.tm)
    (hact : q.id ∈ st'.tm.activeIds) (hheap : st'.heap = st.heap) (hpc : st'.pc = st.pc) :
    Quiet q old st st' := by
  refine ⟨⟨hstep.wf h.wf, hact, hheap ▸ h.grown, hheap ▸ h.kept⟩, hpc, by rw [hheap], by rw [hheap],
    fun snap hsnap => ⟨⟨hsnap.1.step h.wf hstep (hsnap.2 ▸ hact), hsnap.2⟩, ?_⟩, ?_⟩
  · unfold Restart.due
    rw [hheap]
    refine select_congr fun i v _ => ?_
    unfold dueAt
    rw [isVisible_held hsnap.1 h.wf hstep]
  · rw [hheap]
    exact fun i v hv hne => ⟨v, hv, hne⟩

/-- Another transaction overwrites a version whose mark does not count. -/
theorem Sane.quiet_write (h : Sane q old st) {x : Nat} (hx : x ∈ st.tm.activeIds) (hne : x ≠ q.id)
    (hv : st.heap[pos]? = some v)
    (hfree : v.xmax = invalidTxnId ∨ st.tm.status v.xmax = .aborted)
    (hheap : st'.heap = writeRow x pos new st.heap) (htm : st'.tm = st.tm) (hpc : st'.pc = st.pc) :
    Quiet q old st st' := by
  have h0 := h.id_pos
  have hmark : v.xmax ≠ q.id := by
    intro heq
    rcases hfree with hfree | hfree
    · exact h0 (heq.symm.trans hfree)
    · rw [heq, status_of_active h.wf h.active] at hfree
      cases hfree
  have hget := @getElem?_writeRow α v pos new x st.heap hv
  have hlen : st.heap.length ≤ st'.heap.length := by
    rw [hheap, writeRow, List.length_append, List.length_modify]
    omega
  refine ⟨⟨htm ▸ h.wf, htm ▸ h.active, h.grown.trans hlen, ?_⟩, hpc, ?_, ?_, ?_, ?_⟩
  · intro i w hw hid
    obtain ⟨u, hu, hid⟩ := h.kept i w hw hid
    have hlt := (List.getElem?_eq_some_iff.1 hu).1
    have hipos : i ≠ pos := by
      rintro rfl
      rw [hv] at hu
      exact hmark (Option.some.inj hu ▸ hid)
    exact ⟨u, by rw [hheap, hget, if_neg hipos, if_pos hlt, hu], hid⟩
  · rw [hheap]
    refine select_writeRow_same hv ?_ fun row => ?_
    · simp [overAt, hne, hmark]
    · simp [overAt, h0.symm]
  · rw [hheap]
    refine select_writeRow_same hv rfl fun row => ?_
    simp [madeAt, hne]
  · intro snap hsnap
    refine ⟨⟨htm ▸ hsnap.1, hsnap.2⟩, ?_⟩
    have hunseen : ¬ Sees snap st.tm x :=
      hsnap.1.not_sees_active hx (hsnap.2 ▸ hne)
    unfold Restart.due
    rw [hheap, htm]
    refine select_writeRow_same hv ?_ fun row => ?_
    · have hvis : isVisible v.xmin x snap st.tm = isVisible v.xmin v.xmax snap st.tm := by
        rw [Bool.eq_iff_iff, isVisible_iff, isVisible_iff]
        refine and_congr_right fun _ => iff_of_true (fun _ => hunseen) fun hne => ?_
        exact hsnap.1.not_sees_aborted h.wf (hfree.resolve_left hne)
      simp [dueAt, madeAt, overAt, hne, hmark, hvis]
    · have hvis : ∀ xmax, isVisible x xmax snap st.tm = false := by
        intro xmax
        rw [Bool.eq_false_iff]
        exact fun hvis => hunseen (isVisible_iff.1 hvis).1
      simp [dueAt, hvis]
  · intro i w hw hid
    have hlt := (List.getElem?_eq_some_iff.1 hw).1
    by_cases hipos : i = pos
    · exact ⟨{ v with xmax := x }, by rw [hheap, hget, if_pos hipos], hne⟩
    · exact ⟨w, by rw [hheap, hget, if_neg hipos, if_pos hlt, hw], hid⟩

/-- Another transaction adds a row. -/
theorem Sane.quiet_insert (h : Sane q old st) {x : Nat} (hx : x ∈ st.tm.activeIds) (hne : x ≠ q.id)
    {row : α} (hheap : st'.heap = st.heap ++ [⟨x, invalidTxnId, row⟩]) (htm : st'.tm = st.tm)
    (hpc : st'.pc = st.pc) : Quiet q old st st' := by
  have h0 := h.id_pos
  have hget : ∀ (i : Nat) (w : RowVersion α), st.heap[i]? = some w → st'.heap[i]? = some w := by
    intro i w hw
    rw [hheap, List.getElem?_append_left (List.getElem?_eq_some_iff.1 hw).1, hw]
  have hsame : ∀ keep : Nat → RowVersion α → Bool, keep st.heap.length ⟨x, invalidTxnId, row⟩ = false →
      select st'.heap keep = select st.heap keep := by
    intro keep hnew
    rw [hheap, select_append]
    simp [hnew]
  refine ⟨⟨htm ▸ h.wf, htm ▸ h.active, ?_, fun i w hw hid => ?_⟩, hpc, ?_, ?_, ?_, ?_⟩
  · rw [hheap, List.length_append]
    have := h.grown
    omega
  · obtain ⟨u, hu, hid⟩ := h.kept i w hw hid
    exact ⟨u, hget i u hu, hid⟩
  · exact hsame _ (by simp [overAt, h0.symm])
  · exact hsame _ (by simp [madeAt, hne])
  · intro snap hsnap
    refine ⟨⟨htm ▸ hsnap.1, hsnap.2⟩, ?_⟩
    have hvis : isVisible x invalidTxnId snap st.tm = false := by
      rw [Bool.eq_false_iff]
      exact fun hvis => hsnap.1.not_sees_active hx (hsnap.2 ▸ hne) (isVisible_iff.1 hvis).1
    unfold Restart.due
    rw [htm]
    exact hsame _ (by simp [dueAt, overAt, h0.symm, hvis])
  · exact fun i w hw hid => ⟨w, hget i w hw, hid⟩

/-- **The deeds of other transactions.** -/
theorem Sane.quiet_deed (h : Sane q old st) {d : Deed α} (hd : deed q st d = some st') :
    Quiet q old st st' := by
  cases d with
  | begin =>
    cases hd
    refine h.quiet_tm (.begin st.tm) ?_ rfl rfl
    exact (mem_activeIds_begin h.wf).2 (Or.inr h.active)
  | write x pos new =>
    simp only [deed] at hd
    split at hd
    · cases hd
    · next v hv =>
      split at hd
      · next hguard =>
        cases hd
        exact h.quiet_write hguard.1 hguard.2.1 hv hguard.2.2.2 rfl rfl rfl
      · cases hd
  | insert x row =>
    simp only [deed] at hd
    split at hd
    · next hguard =>
      cases hd
      exact h.quiet_insert hguard.1 hguard.2 rfl rfl rfl
    · cases hd
  | commit x =>
    simp only [deed] at hd
    split at hd
    · next hguard =>
      cases hd
      refine h.quiet_tm (.commit st.tm x (Or.inl hguard.1)) ?_ rfl rfl
      simpa [TransactionManager.commit] using ⟨h.active, hguard.2.symm⟩
    · cases hd
  | abort x =>
    simp only [deed] at hd
    split at hd
    · next hguard =>
      cases hd
      refine h.quiet_tm (.abort st.tm x (Or.inl hguard.1)) ?_ rfl rfl
      simpa [TransactionManager.abort] using ⟨h.active, hguard.2.symm⟩
    · cases hd

/-! ## Writes of the statement -/

theorem Sane.of_eq (h : Sane q old st) (htm : st'.tm = st.tm) (hheap : st'.heap = st.heap) :
    Sane q old st' :=
  ⟨htm ▸ h.wf, htm ▸ h.active, hheap ▸ h.grown, hheap ▸ h.kept⟩

/-- What a write over a version without the statement's mark does. -/
structure Wrote (q : Stmt α) (old : List (RowVersion α)) (st st' : State α) (pos : Nat)
    (v : RowVersion α) (new : Option α) : Prop where
  sane : Sane q old st'
  marked : (overs q old st'.heap).Perm ((pos, v.row) :: overs q old st.heap)
  made : made q old st'.heap =
    made q old st.heap ++ (new.map fun row => (st.heap.length, row)).toList
  due : ∀ snap, Holds q st snap → dueAt q old snap st.tm pos v = true →
    Holds q st' snap ∧ due q old snap st' = due q old snap st
  rest : ∀ i, i ≠ pos → i < st.heap.length → st'.heap[i]? = st.heap[i]?

theorem Sane.write (h : Sane q old st) (hv : st.heap[pos]? = some v) (hmark : v.xmax ≠ q.id)
    (new : Option α) : Wrote q old st (st.write q.id pos new) pos v new := by
  have h0 := h.id_pos
  have hget := @getElem?_writeRow α v pos new q.id st.heap hv
  have hlen : st.heap.length ≤ (st.write q.id pos new).heap.length := by
    show _ ≤ (writeRow q.id pos new st.heap).length
    rw [writeRow, List.length_append, List.length_modify]
    omega
  -- the mark was not there before the statement either
  have hunmarked : (old[pos]?.map RowVersion.xmax) ≠ some q.id := by
    intro hold
    obtain ⟨w, hw, hid⟩ := Option.map_eq_some_iff.1 hold
    obtain ⟨u, hu, hid⟩ := h.kept pos w hw hid
    rw [hv] at hu
    exact hmark (Option.some.inj hu ▸ hid)
  refine ⟨⟨h.wf, h.active, h.grown.trans hlen, ?_⟩, ?_, ?_, ?_, ?_⟩
  · intro i w hw hid
    obtain ⟨u, hu, hid⟩ := h.kept i w hw hid
    have hlt := (List.getElem?_eq_some_iff.1 hu).1
    by_cases hi : i = pos
    · exact ⟨{ v with xmax := q.id }, (hget i).trans (if_pos hi), rfl⟩
    · exact ⟨u, ((hget i).trans (by rw [if_neg hi, if_pos hlt])).trans hu, hid⟩
  · refine select_writeRow_mark hv ?_ ?_ fun row => ?_
    · simp [overAt, hmark]
    · simp [overAt, hunmarked]
    · simp [overAt, h0.symm]
  · refine select_writeRow_new hv rfl fun row => ?_
    simp [madeAt, h.grown]
  · intro snap hsnap hdue
    refine ⟨hsnap, ?_⟩
    refine select_writeRow_same hv ?_ fun row => ?_
    · show dueAt q old snap st.tm pos _ = dueAt q old snap st.tm pos v
      rw [hdue]
      have hover : overAt q old pos v = false := by simp [overAt, hmark]
      have hover' : overAt q old pos { v with xmax := q.id } = true := by simp [overAt, hunmarked]
      simp only [dueAt, hover, hover', madeAt, Bool.and_eq_true, Bool.false_eq_true, if_false,
        if_true] at hdue ⊢
      refine ⟨⟨hdue.1.1, isVisible_iff.2 ⟨(isVisible_iff.1 hdue.1.2).1, fun hne => absurd rfl hne⟩⟩,
        hdue.2⟩
    · simp [dueAt, madeAt, h.grown]
  · intro i hi hlt
    exact (hget i).trans (by rw [if_neg hi, if_pos hlt])

/-! ## As long as no attempt that has written is restarted -/

/-- Of the rows the statement is about, `rest` remain, and what it has written are
the others. -/
def Progress (q : Stmt α) (old : List (RowVersion α)) (st : State α) (snap : Snapshot)
    (rest : List (Nat × α)) (count : Nat) : Prop :=
  Holds q st snap ∧ ∃ done, (done ++ rest).Perm (due q old snap st) ∧
    (overs q old st.heap).Perm done ∧ ((made q old st.heap).map Prod.snd).Perm (replaced q done) ∧
    count = done.length

/-- What the statement has written, where it is. -/
def ExactAt (q : Stmt α) (old : List (RowVersion α)) (st : State α) : Pc α → Prop
  | .attempt _ => overs q old st.heap = [] ∧ made q old st.heap = []
  | .snapped _ snap => Holds q st snap ∧ overs q old st.heap = [] ∧ made q old st.heap = []
  | .matched _ snap rest count => Progress q old st snap rest count
  | .locked _ snap r rest count => Progress q old st snap (r :: rest) count
  | .checked _ snap r rest count => Progress q old st snap (r :: rest) count
  | .returned snap count => Progress q old st snap [] count
  | .failed => True

structure Exact (q : Stmt α) (old : List (RowVersion α)) (st : State α) : Prop where
  sane : Sane q old st
  place : ExactAt q old st st.pc

theorem Quiet.exact (h : Quiet q old st st') (hst : Exact q old st) : Exact q old st' := by
  have hprogress : ∀ {snap rest count}, Progress q old st snap rest count →
      Progress q old st' snap rest count := by
    rintro snap rest count ⟨hsnap, done, hrows, hover, hmade, hcount⟩
    obtain ⟨hsnap', hdue⟩ := h.due snap hsnap
    exact ⟨hsnap', done, hdue ▸ hrows, h.marked ▸ hover, h.made ▸ hmade, hcount⟩
  refine ⟨h.sane, ?_⟩
  have hplace := hst.place
  rw [h.pc]
  cases hpc : st.pc with
  | attempt left =>
    rw [hpc] at hplace
    exact ⟨h.marked.trans hplace.1, h.made.trans hplace.2⟩
  | snapped left snap =>
    rw [hpc] at hplace
    exact ⟨(h.due snap hplace.1).1, h.marked.trans hplace.2.1, h.made.trans hplace.2.2⟩
  | matched left snap rest count | locked left snap r rest count
  | checked left snap r rest count | returned snap count =>
    rw [hpc] at hplace
    exact hprogress hplace
  | failed => trivial

theorem select_eq_nil {heap : List (RowVersion α)} {keep : Nat → RowVersion α → Bool}
    (h : select heap keep = []) {i : Nat} (hv : heap[i]? = some v) : keep i v = false := by
  rw [Bool.eq_false_iff]
  intro hk
  have hmem : (i, v.row) ∈ select heap keep := mem_select.2 ⟨v, hv, hk, rfl⟩
  rw [h] at hmem
  cases hmem

/-- **Matching**: with nothing written yet, the matched rows are those the statement is
about. -/
theorem progress_matched (hscan : q.ScansOnce) (hsnap : Holds q st snap) (hover : overs q old st.heap = [])
    (hmade : made q old st.heap = []) :
    Progress q old st snap (Restart.matchingRows q st snap) 0 := by
  refine ⟨hsnap, [], ?_, by rw [hover], by rw [hmade]; rfl, rfl⟩
  have hdue : due q old snap st =
      select st.heap fun _ v => isVisible v.xmin v.xmax snap st.tm && q.pred v.row := by
    refine select_congr fun i v hv => ?_
    simp [dueAt, select_eq_nil hover hv, select_eq_nil hmade hv]
  rw [hdue]
  exact hscan _

/-- The next row is there, without a mark of the statement. -/
theorem Progress.head {r : Nat × α} {rest : List (Nat × α)} {count : Nat} (hsane : Sane q old st)
    (h : Progress q old st snap (r :: rest) count) : ∃ v, st.heap[r.1]? = some v ∧ v.row = r.2 ∧
      dueAt q old snap st.tm r.1 v = true ∧ v.xmax ≠ q.id := by
  obtain ⟨hsnap, done, hrows, hover, -, -⟩ := h
  have hmem : r ∈ due q old snap st := hrows.subset (by simp)
  obtain ⟨v, hv, hdue, hrow⟩ := mem_select.1 hmem
  refine ⟨v, hv, hrow, hdue, fun hmark => ?_⟩
  have hnd : (done ++ r :: rest).Nodup :=
    hrows.nodup_iff.2 ((List.pairwise_map.1 nodup_select).imp fun hne heq => hne (congrArg Prod.fst heq))
  cases hk : overAt q old r.1 v with
  | true =>
    -- it has been overwritten already
    have hin : r ∈ done := hover.subset (mem_select.2 ⟨v, hv, hk, hrow⟩)
    exact (List.nodup_append.1 hnd).2.2 r hin r List.mem_cons_self rfl
  | false =>
    -- the mark of an earlier statement hides it
    simp only [dueAt, hk, Bool.and_eq_true, Bool.false_eq_true, if_false, hmark] at hdue
    exact (isVisible_iff.1 hdue.1.2).2 hsane.id_pos (Or.inl hsnap.2.symm)

/-- **One row is written.** -/
theorem Progress.write {r : Nat × α} {rest : List (Nat × α)} {count : Nat} (hsane : Sane q old st)
    (h : Progress q old st snap (r :: rest) count) :
    Progress q old (st.write q.id r.1 (q.set.map fun f => f r.2)) snap rest (count + 1) := by
  obtain ⟨v, hv, hrow, hdue, hmark⟩ := h.head hsane
  obtain ⟨hsnap, done, hrows, hover, hmade, hcount⟩ := h
  have hw := hsane.write hv hmark (q.set.map fun f => f r.2)
  obtain ⟨hsnap', hsame⟩ := hw.due snap hsnap hdue
  refine ⟨hsnap', done ++ [r], by rw [hsame]; simpa using hrows, ?_, ?_, by simp [hcount]⟩
  · have hone : (overs q old (st.write q.id r.1 (q.set.map fun f => f r.2)).heap).Perm
        (r :: overs q old st.heap) := by
      have hr : (r.1, v.row) = r := by rw [hrow]
      exact hr ▸ hw.marked
    exact (hone.trans (hover.cons r)).trans (List.perm_append_singleton _ _).symm
  · rw [hw.made, List.map_append]
    have hnew : ((q.set.map fun f => f r.2).map fun row => (st.heap.length, row)).toList.map Prod.snd =
        replaced q [r] := by
      cases hset : q.set <;> simp [replaced, hset]
    have hall : replaced q (done ++ [r]) = replaced q done ++ replaced q [r] := List.filterMap_append
    rw [hnew, hall]
    exact hmade.append_right _

theorem Exact.goto (h : Exact q old st) {pc : Pc α} (hpc : ExactAt q old st pc) :
    Exact q old (st.goto pc) := by
  refine ⟨h.sane.of_eq rfl rfl, ?_⟩
  show ExactAt q old (st.goto pc) pc
  cases pc <;> exact hpc

/-- **The step lemma.** -/
theorem Exact.step {a : Act α} (hscan : q.ScansOnce) (h : Exact q old st) (hearly : Early q st a)
    (hstep : Restart.step q st a = some st') : Exact q old st' := by
  cases a with
  | other d => exact (h.sane.quiet_deed hstep).exact h
  | duplicate => exact hearly.elim
  | fail =>
    simp only [Restart.step] at hstep
    split at hstep
    · cases hstep
    · cases hstep
      exact h.goto trivial
  | next =>
    have hplace := h.place
    simp only [Restart.step] at hstep
    cases hpc : st.pc with
    | attempt left =>
      rw [hpc] at hplace hstep
      cases left with
      | zero =>
        cases hstep
        exact h.goto trivial
      | succ left =>
        cases hstep
        exact h.goto ⟨⟨held_snapshot h.sane.wf h.sane.active, rfl⟩, hplace⟩
    | snapped left snap =>
      rw [hpc] at hplace hstep
      cases hstep
      exact h.goto (progress_matched hscan hplace.1 hplace.2.1 hplace.2.2)
    | matched left snap rest count =>
      rw [hpc] at hplace hstep
      cases rest with
      | nil =>
        cases hstep
        exact h.goto hplace
      | cons r rest =>
        simp only [next] at hstep
        split at hstep
        · cases hstep
          exact ⟨h.sane.of_eq rfl rfl, hplace⟩
        · cases hstep
    | locked left snap r rest count =>
      rw [hpc] at hplace hstep
      simp only [next] at hstep
      split at hstep
      · next hgone =>
        -- the row is on the heap
        obtain ⟨v, hv, -⟩ := Progress.head h.sane hplace
        simp only [recheck, hv] at hgone
        split at hgone
        · split at hgone <;> cases hgone
        · cases hgone
      · next hrestart =>
        cases hstep
        obtain ⟨-, done, -, hover, hmade, hcount⟩ := hplace
        have hzero : count = 0 := by
          simp only [Early, hpc] at hearly
          exact hearly hrestart
        obtain rfl : done = [] := List.eq_nil_of_length_eq_zero (by omega)
        exact h.goto ⟨hover.eq_nil, List.map_eq_nil_iff.1 hmade.eq_nil⟩
      · cases hstep
        exact h.goto hplace
      · cases hstep
        exact h.goto trivial
    | checked left snap r rest count =>
      rw [hpc] at hplace hstep
      cases hstep
      obtain ⟨v, hv, -, -, hmark⟩ := Progress.head h.sane hplace
      have hwritten := Progress.write h.sane hplace
      exact ⟨(h.sane.write hv hmark _).sane.of_eq rfl rfl, hwritten⟩
    | returned snap count =>
      rw [hpc] at hstep
      cases hstep
    | failed =>
      rw [hpc] at hstep
      cases hstep

/-! ## After an attempt that has written was restarted -/

/-- More was written than is counted; the rows that remain have no mark of the
statement. -/
def Behind (q : Stmt α) (old : List (RowVersion α)) (st : State α) (snap : Snapshot)
    (rest : List (Nat × α)) (count : Nat) : Prop :=
  Holds q st snap ∧ count < (overs q old st.heap).length ∧ (rest.map Prod.fst).Nodup ∧
    ∀ e ∈ rest, ∃ v : RowVersion α, st.heap[e.1]? = some v ∧ v.xmax ≠ q.id

def LateAt (q : Stmt α) (old : List (RowVersion α)) (st : State α) : Pc α → Prop
  | .attempt _ => 0 < (overs q old st.heap).length
  | .snapped _ snap => Holds q st snap ∧ 0 < (overs q old st.heap).length
  | .matched _ snap rest count => Behind q old st snap rest count
  | .locked _ snap r rest count => Behind q old st snap (r :: rest) count
  | .checked _ snap r rest count => Behind q old st snap (r :: rest) count
  | .returned _ count => count < (overs q old st.heap).length
  | .failed => True

structure Late (q : Stmt α) (old : List (RowVersion α)) (st : State α) : Prop where
  sane : Sane q old st
  place : LateAt q old st st.pc

theorem Late.goto (h : Late q old st) {pc : Pc α} (hpc : LateAt q old st pc) :
    Late q old (st.goto pc) := by
  refine ⟨h.sane.of_eq rfl rfl, ?_⟩
  show LateAt q old (st.goto pc) pc
  cases pc <;> exact hpc

theorem Quiet.late (h : Quiet q old st st') (hst : Late q old st) : Late q old st' := by
  have hbehind : ∀ {snap rest count}, Behind q old st snap rest count →
      Behind q old st' snap rest count := by
    rintro snap rest count ⟨hsnap, hlt, hnd, hrest⟩
    refine ⟨(h.due snap hsnap).1, h.marked ▸ hlt, hnd, fun e he => ?_⟩
    obtain ⟨v, hv, hmark⟩ := hrest e he
    exact h.fresh e.1 v hv hmark
  refine ⟨h.sane, ?_⟩
  have hplace := hst.place
  rw [h.pc]
  cases hpc : st.pc with
  | attempt left =>
    rw [hpc] at hplace
    show 0 < (overs q old st'.heap).length
    rw [h.marked]
    exact hplace
  | snapped left snap =>
    rw [hpc] at hplace
    exact ⟨(h.due snap hplace.1).1, h.marked ▸ hplace.2⟩
  | matched left snap rest count =>
    rw [hpc] at hplace
    exact hbehind hplace
  | locked left snap r rest count =>
    rw [hpc] at hplace
    exact hbehind hplace
  | checked left snap r rest count =>
    rw [hpc] at hplace
    exact hbehind hplace
  | returned snap count =>
    rw [hpc] at hplace
    show count < (overs q old st'.heap).length
    rw [h.marked]
    exact hplace
  | failed => trivial

theorem behind_matched (hscan : q.ScansOnce) (hsane : Sane q old st) (hsnap : Holds q st snap)
    (hlate : 0 < (overs q old st.heap).length) :
    Behind q old st snap (Restart.matchingRows q st snap) 0 := by
  refine ⟨hsnap, hlate, ?_, fun e he => ?_⟩
  · exact ((hscan _).map Prod.fst).nodup_iff.2 nodup_select
  · obtain ⟨v, hv, hkeep, -⟩ := mem_select.1 ((hscan _).subset he)
    refine ⟨v, hv, fun hmark => ?_⟩
    rw [Bool.and_eq_true, hmark] at hkeep
    exact (isVisible_iff.1 hkeep.1).2 hsane.id_pos (Or.inl hsnap.2.symm)

theorem Behind.write {r : Nat × α} {rest : List (Nat × α)} {count : Nat} (hsane : Sane q old st)
    (h : Behind q old st snap (r :: rest) count) (new : Option α) :
    Sane q old (st.write q.id r.1 new) ∧
      Behind q old (st.write q.id r.1 new) snap rest (count + 1) := by
  obtain ⟨hsnap, hlt, hnd, hrest⟩ := h
  obtain ⟨v, hv, hmark⟩ := hrest r List.mem_cons_self
  have hw := hsane.write hv hmark new
  have hlen := hw.marked.length_eq
  rw [List.map_cons, List.nodup_cons] at hnd
  refine ⟨hw.sane, hsnap, by rw [hlen, List.length_cons]; omega, hnd.2, fun e he => ?_⟩
  obtain ⟨u, hu, hfree⟩ := hrest e (List.mem_cons_of_mem _ he)
  have hne : e.1 ≠ r.1 := fun heq => hnd.1 (heq ▸ List.mem_map_of_mem he)
  exact ⟨u, (hw.rest e.1 hne (List.getElem?_eq_some_iff.1 hu).1).trans hu, hfree⟩

theorem Late.step {a : Act α} (hscan : q.ScansOnce) (h : Late q old st) (hstep : Restart.step q st a = some st') :
    Late q old st' := by
  have hplace := h.place
  cases a with
  | other d => exact (h.sane.quiet_deed hstep).late h
  | duplicate =>
    simp only [Restart.step] at hstep
    cases hpc : st.pc with
    | checked left snap r rest count =>
      rw [hpc] at hplace hstep
      obtain ⟨f, -, rfl⟩ := Option.map_eq_some_iff.1 hstep
      obtain ⟨hsane, -, hlt, -⟩ := Behind.write h.sane hplace (some (f r.2))
      exact ⟨hsane.of_eq rfl rfl, Nat.zero_lt_of_lt hlt⟩
    | _ =>
      rw [hpc] at hstep
      cases hstep
  | fail =>
    simp only [Restart.step] at hstep
    split at hstep
    · cases hstep
    · cases hstep
      exact h.goto trivial
  | next =>
    simp only [Restart.step] at hstep
    cases hpc : st.pc with
    | attempt left =>
      rw [hpc] at hplace hstep
      cases left with
      | zero =>
        cases hstep
        exact h.goto trivial
      | succ left =>
        cases hstep
        exact h.goto ⟨⟨held_snapshot h.sane.wf h.sane.active, rfl⟩, hplace⟩
    | snapped left snap =>
      rw [hpc] at hplace hstep
      cases hstep
      exact h.goto (behind_matched hscan h.sane hplace.1 hplace.2)
    | matched left snap rest count =>
      rw [hpc] at hplace hstep
      cases rest with
      | nil =>
        cases hstep
        exact h.goto hplace.2.1
      | cons r rest =>
        simp only [next] at hstep
        split at hstep
        · cases hstep
          exact ⟨h.sane.of_eq rfl rfl, hplace⟩
        · cases hstep
    | locked left snap r rest count =>
      rw [hpc] at hplace hstep
      obtain ⟨hsnap, hlt, hnd, hrest⟩ := hplace
      simp only [next] at hstep
      split at hstep
      · cases hstep
        exact h.goto ⟨hsnap, hlt, (List.nodup_cons.1 hnd).2, fun e he => hrest e (by simp [he])⟩
      · cases hstep
        exact h.goto (Nat.zero_lt_of_lt hlt)
      · cases hstep
        exact h.goto ⟨hsnap, hlt, hnd, hrest⟩
      · cases hstep
        exact h.goto trivial
    | checked left snap r rest count =>
      rw [hpc] at hplace hstep
      cases hstep
      obtain ⟨hsane, hbehind⟩ := Behind.write h.sane hplace (q.set.map fun f => f r.2)
      exact ⟨hsane.of_eq rfl rfl, hbehind⟩
    | returned snap count =>
      rw [hpc] at hstep
      cases hstep
    | failed =>
      rw [hpc] at hstep
      cases hstep

/-- **A restart after a write.** -/
theorem Exact.late {a : Act α} (h : Exact q old st) (hearly : ¬ Early q st a)
    (hstep : Restart.step q st a = some st') : Late q old st' := by
  have hplace := h.place
  cases a with
  | other d => exact absurd trivial hearly
  | fail => exact absurd trivial hearly
  | duplicate =>
    simp only [Restart.step] at hstep
    cases hpc : st.pc with
    | checked left snap r rest count =>
      rw [hpc] at hplace hstep
      obtain ⟨f, -, rfl⟩ := Option.map_eq_some_iff.1 hstep
      obtain ⟨v, hv, -, -, hmark⟩ := Progress.head h.sane hplace
      have hw := h.sane.write hv hmark (some (f r.2))
      refine ⟨hw.sane.of_eq rfl rfl, ?_⟩
      show 0 < (overs q old (st.write q.id r.1 (some (f r.2))).heap).length
      rw [hw.marked.length_eq, List.length_cons]
      omega
    | _ =>
      rw [hpc] at hstep
      cases hstep
  | next =>
    simp only [Restart.step] at hstep
    cases hpc : st.pc with
    | locked left snap r rest count =>
      rw [hpc] at hplace hstep
      simp only [Early, hpc, Classical.not_imp] at hearly
      obtain ⟨hrestart, hpos⟩ := hearly
      simp only [next, hrestart] at hstep
      cases hstep
      obtain ⟨-, done, -, hover, -, hcount⟩ := hplace
      refine ⟨h.sane.of_eq rfl rfl, ?_⟩
      show 0 < (overs q old st.heap).length
      rw [hover.length_eq]
      omega
    | _ => exact absurd (by simp [Early, hpc]) hearly

/-! ## Whole runs -/

theorem Start.exact (h : Start q st) : Exact q st.heap st := by
  have hnone : overs q st.heap st.heap = [] := by
    refine List.eq_nil_iff_forall_not_mem.2 fun e he => ?_
    obtain ⟨v, hv, hk, -⟩ := mem_select.1 he
    simp [overAt, hv] at hk
  have hmade : made q st.heap st.heap = [] := by
    refine List.eq_nil_iff_forall_not_mem.2 fun e he => ?_
    obtain ⟨v, hv, hk, -⟩ := mem_select.1 he
    have hlt := (List.getElem?_eq_some_iff.1 hv).1
    simp [madeAt] at hk
    omega
  refine ⟨⟨h.wf, h.active, le_rfl, fun i v hv hid => ⟨v, hv, hid⟩⟩, ?_⟩
  rw [h.pc]
  exact ⟨hnone, hmade⟩

theorem Exact.appliedOnce {n : Nat} (h : Exact q old st) (hpc : st.pc = .returned snap n) :
    AppliedOnce q old st snap n := by
  have hplace := h.place
  rw [hpc] at hplace
  obtain ⟨-, done, hrows, hover, hmade, hcount⟩ := hplace
  rw [List.append_nil] at hrows
  exact ⟨hover.trans hrows, hmade.trans (hrows.filterMap _), hcount.trans hrows.length_eq⟩

/-- **Exactly when a statement applies once.** Over every interleaving with other
transactions and any number of restarts: the statement that returned `Ok(n)` applied
once to each of `n` rows, those its last snapshot showed and its WHERE clause held of,
if and only if no attempt was restarted after it had written a row. -/
theorem applied_once_iff (q : Stmt α) (hscan : q.ScansOnce) (st : State α) (acts : List (Act α))
    (hstart : Start q st)
    (hrun : Follows (Restart.step q) (fun _ _ => True) st acts) {n : Nat}
    (hdone : (after (Restart.step q) st acts).pc = .returned snap n) :
    AppliedOnce q st.heap (after (Restart.step q) st acts) snap n ↔
      Follows (Restart.step q) (Early q) st acts := by
  refine ⟨fun honce => ?_, fun hearly => ?_⟩
  · rcases hrun.or_broken hstart.exact (fun h => h.step hscan) (fun h => h.late)
      (fun h => h.step hscan) with
      ⟨hearly, -⟩ | hlate
    · exact hearly
    · have hplace := hlate.place
      rw [hdone] at hplace
      have hlen := honce.marked.length_eq
      have hcount := honce.count
      have hlt : n < (overs q st.heap (after (Restart.step q) st acts).heap).length := hplace
      omega
  · exact (hearly.invariant (fun h => h.step hscan) hstart.exact).appliedOnce hdone

end Steps

/-! ## Two rows -/

/-- `UPDATE t SET x = x + 1` in transaction 2. -/
def increment : Stmt Int := ⟨2, fun _ => true, some (· + 1), id⟩

/-- Rows 10 and 20 of transaction 1. -/
def twoRows : State Int where
  tm := ⟨3, [(2, 0)], fun x => if x = 1 then .committed else .inProgress⟩
  heap := [⟨1, 0, 10⟩, ⟨1, 0, 20⟩]
  locks := fun _ => none
  pc := .attempt MAX_RETRIES

/-- Transaction 3 sets one of the rows to 25. -/
def otherWrites (pos : Nat) : List (Act Int) := [.other .begin, .other (.write 3 pos (some 25))]

theorem start_twoRows : Start increment twoRows := by
  refine ⟨⟨?_, ?_, ?_, by decide, rfl, by decide⟩, by decide, rfl⟩
  · intro x hx
    rw [List.mem_singleton.1 hx]
    decide
  · intro x hx
    rw [List.mem_singleton.1 hx]
    rfl
  · intro x hx
    have hx : 3 ≤ x := hx
    exact if_neg (by omega)

/-- The update waits for the first row, and restarts before it has written. -/
def waitsFirst : List (Act Int) :=
  otherWrites 0 ++ [.next, .next, .other (.commit 3)] ++ List.replicate 11 .next

theorem applied_once_after_wait :
    AppliedOnce increment twoRows.heap (after (step increment) twoRows waitsFirst) ⟨2, 4, [2]⟩ 2 := by
  have hrun : Follows (step increment) (fun _ _ => True) twoRows waitsFirst := by decide +kernel
  have hdone : (after (step increment) twoRows waitsFirst).pc = .returned ⟨2, 4, [2]⟩ 2 := by
    decide +kernel
  exact (applied_once_iff increment (fun _ => .refl _) twoRows waitsFirst start_twoRows hrun hdone).2
    (by decide +kernel)

/-- What a transaction sees that begins after the commit of `id`. -/
def seenAfresh (tm : TransactionManager) (id : Nat) (heap : List (RowVersion α)) : List α :=
  let tm' := (tm.commit id).begin.2
  (select heap fun _ v => isVisible v.xmin v.xmax (tm'.snapshot tm.nextTxnId) tm').map Prod.snd

/-- The update has incremented the first row when it waits for the second. -/
def waitsSecond : List (Act Int) :=
  otherWrites 1 ++ List.replicate 5 .next ++ [.other (.commit 3)] ++ List.replicate 11 .next

/-- **A row incremented twice.** The restart matches the statement's own new version. It
returns `Ok(2)`, and the row that was 10 is 12. -/
theorem restart_increments_twice :
    let st := after (step increment) twoRows waitsSecond
    Start increment twoRows ∧ Follows (step increment) (fun _ _ => True) twoRows waitsSecond ∧
      st.pc = .returned ⟨2, 4, [2]⟩ 2 ∧
      ¬ AppliedOnce increment twoRows.heap st ⟨2, 4, [2]⟩ 2 ∧ seenAfresh st.tm 2 st.heap = [26, 12] := by
  refine ⟨start_twoRows, by decide +kernel, by decide +kernel, fun honce => ?_, by decide +kernel⟩
  have hlen := honce.marked.length_eq
  revert hlen
  decide +kernel

end Ccdb.Restart
