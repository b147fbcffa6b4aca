import Ccdb.Txn.Visibility
import Ccdb.Exec.Dml

/-!
# Ccdb — two concurrent updates of one row

Two explicit transactions that each run `UPDATE t SET x = x + 1` on the same row
and commit. The steps are those of `perform_update` (fresh snapshot, matching,
row lock, recheck, write) and of COMMIT (log record, `unlock_all`, removal from
the active transaction table, commit log), taken in any order.

COMMIT releases the row locks before the outcome is published. Between the
removal from the table and the write to the commit log a lookup calls the
transaction aborted; an updater whose matching or recheck looks it up there
overwrites the committed deletion.

Main results:

* `Race.Inv.step` — while no lookup falls into that window the versions of the
  row form a chain, in the order of the writes.
* `Race.both_updates_count` — then both increments are kept.
* `Race.update_lost_in_commit_window` — inside it one can be lost.
-/

namespace Ccdb

open TransactionManager

/-! ## Sessions and their steps -/

/-- A version of the row; other columns do not take part. -/
structure Version where
  xmin : Nat
  xmax : Nat
  x : Int32
deriving DecidableEq, Repr

/-- Where a session is. `left` are the attempts that remain after this one, `rows`
the matched versions still to be updated, `count` those that were. -/
inductive UpdatePc where
  | idle
  -- the top of the loop of `perform_update`
  | attempt (left : Nat)
  | snapped (left : Nat) (snap : Snapshot)
  | matched (left : Nat) (rows : List (Nat × Int32)) (count : Nat)
  | locked (left row : Nat) (x : Int32) (rest : List (Nat × Int32)) (count : Nat)
  | checked (left row : Nat) (x : Int32) (rest : List (Nat × Int32)) (count : Nat)
  -- the statement has returned `Ok(count)`
  | updated (count : Nat)
  -- COMMIT: the Commit record is durable
  | logged (count : Nat)
  | unlocked (count : Nat)
  | removed (count : Nat)
  -- the commit log said in progress
  | deciding (count : Nat)
  | committed (count : Nat)
  | failed
deriving DecidableEq, Repr

/-- The next step of a session; the write with a unique violation reported by the
index insertion that follows it; an error (a lock timeout, a full disk). -/
inductive UpdateAct where
  | next
  | duplicate
  | fail
deriving DecidableEq, Repr

/-- The sessions are `false` and `true`, each with its own thread. `wheres` are the
WHERE clauses, as predicates on the one column an UPDATE changes. -/
structure Race where
  tm : TransactionManager
  caches : Bool → StatusCache
  wheres : Bool → Int32 → Bool
  heap : List Version
  locks : Nat → Option Bool
  ids : Bool → Nat
  pcs : Bool → UpdatePc

namespace Race

def goto (st : Race) (t : Bool) (pc : UpdatePc) : Race :=
  { st with pcs := Function.update st.pcs t pc }

def withCache (st : Race) (t : Bool) (cache : StatusCache) : Race :=
  { st with caches := Function.update st.caches t cache }

/-- `matching_rows` by a sequential scan: position and value of the visible
versions, and the memo after the lookups. -/
def scan (snap : Snapshot) (tm : TransactionManager) :
    Nat → List Version → StatusCache → List (Nat × Int32) × StatusCache
  | _, [], cache => ([], cache)
  | i, v :: vs, cache =>
    let (visible, cache') := isVisibleCached v.xmin v.xmax snap tm cache
    let (rows, cache'') := scan snap tm (i + 1) vs cache'
    (if visible then (i, v.x) :: rows else rows, cache'')

/-- The write: the old version's `xmax`, the new version and the lock on it. -/
def write (st : Race) (t : Bool) (row : Nat) (x : Int32) : Race :=
  { st with
    heap := (st.heap.modify row fun v => { v with xmax := st.ids t }) ++ [⟨st.ids t, 0, x + 1⟩]
    locks := Function.update st.locks st.heap.length (some t) }

/-- The recheck under the row lock. -/
def recheck (st : Race) (t : Bool) (left row : Nat) (x : Int32) (rest : List (Nat × Int32))
    (count : Nat) : Race :=
  match st.heap[row]? with
  | none => st.goto t (.matched left rest count)
  | some v =>
    if v.xmax ≠ invalidTxnId ∧ v.xmax ≠ st.ids t then
      match st.tm.statusCached (st.caches t) v.xmax with
      | (.committed, cache) => (st.withCache t cache).goto t (.attempt left)
      | (.aborted, cache) => (st.withCache t cache).goto t (.checked left row x rest count)
      | (.inProgress, cache) => (st.withCache t cache).goto t .failed
    else st.goto t (.checked left row x rest count)

/-- The next step of a session. -/
def next (st : Race) (t : Bool) : UpdatePc → Option Race
  | .idle =>
    -- BEGIN, then the statement
    some ({ st with
      tm := st.tm.begin.2
      ids := Function.update st.ids t st.tm.begin.1 }.goto t (.attempt MAX_RETRIES))
  | .attempt 0 => some (st.goto t .failed)
  | .attempt (left + 1) => some (st.goto t (.snapped left (st.tm.snapshot (st.ids t))))
  | .snapped left snap =>
    let (rows, cache) := scan snap st.tm 0 st.heap (st.caches t)
    some ((st.withCache t cache).goto t
      (.matched left (rows.filter fun r => st.wheres t r.2) 0))
  | .matched _ [] count => some (st.goto t (.updated count))
  | .matched left ((row, x) :: rest) count =>
    if st.locks row = none ∨ st.locks row = some t then
      some ({ st with locks := Function.update st.locks row (some t) }.goto t
        (.locked left row x rest count))
    else none
  | .locked left row x rest count => some (st.recheck t left row x rest count)
  | .checked left row x rest count =>
    some ((st.write t row x).goto t (.matched left rest (count + 1)))
  | .updated count => some (st.goto t (.logged count))
  | .logged count =>
    some ({ st with locks := fun r => if st.locks r = some t then none else st.locks r }.goto t
      (.unlocked count))
  | .unlocked count => some ({ st with tm := st.tm.removeAtt (st.ids t) }.goto t (.removed count))
  | .removed count =>
    if st.tm.clog (st.ids t) = .inProgress then some (st.goto t (.deciding count))
    else some (st.goto t (.committed count))
  | .deciding count =>
    some ({ st with tm := st.tm.setClog (st.ids t) .committed }.goto t (.committed count))
  | .committed _ => none
  | .failed => none

/-- One step of one session. -/
def step (st : Race) (l : Bool × UpdateAct) : Option Race :=
  match l.2, st.pcs l.1 with
  | .next, pc => st.next l.1 pc
  | .duplicate, .checked left row x _ _ =>
    some ((st.write l.1 row x).goto l.1 (.attempt left))
  | .duplicate, _ => none
  | .fail, .committed _ => none
  | .fail, _ => some (st.goto l.1 .failed)

/-- Between the removal from the table and the write to the commit log. -/
def undecided : UpdatePc → Bool
  | .removed _ => true
  | .deciding _ => true
  | _ => false

/-- The lookups of a step are clear of the other session's window, and no index
insertion reports a unique violation. -/
def Clear (st : Race) (l : Bool × UpdateAct) : Prop :=
  match l.2, st.pcs l.1 with
  | .next, .snapped _ snap => undecided (st.pcs !l.1) → ¬ snap.Asks (st.ids !l.1)
  | .next, .locked _ row _ _ _ =>
    undecided (st.pcs !l.1) → (st.heap[row]?.map Version.xmax) ≠ some (st.ids !l.1)
  | .duplicate, _ => False
  | _, _ => True

instance (snap : Snapshot) (x : Nat) : Decidable (snap.Asks x) :=
  inferInstanceAs (Decidable (_ ∧ _ ∧ _))

instance (st : Race) (l : Bool × UpdateAct) : Decidable (st.Clear l) := by
  unfold Clear
  split <;> infer_instance

/-! ## What a scan finds -/

/-- The scan without the memo. -/
def visibleRows (snap : Snapshot) (tm : TransactionManager) :
    Nat → List Version → List (Nat × Int32)
  | _, [] => []
  | i, v :: vs =>
    if isVisible v.xmin v.xmax snap tm then (i, v.x) :: visibleRows snap tm (i + 1) vs
    else visibleRows snap tm (i + 1) vs

/-- Every memoised outcome is the one in the commit log. -/
def Good (tm : TransactionManager) (cache : StatusCache) : Prop :=
  ∀ e ∈ cache, e.2 ≠ .inProgress ∧ tm.clog e.1 = e.2

/-- A lookup that says aborted has it from the commit log. -/
def Sure (tm : TransactionManager) (x : Nat) : Prop :=
  tm.status x = .aborted → tm.clog x = .aborted

variable {tm : TransactionManager} {cache : StatusCache} {snap : Snapshot} {x i : Nat}
  {v w : Version} {vs : List Version}

theorem status_of_clog (h : tm.clog x ≠ .inProgress) : tm.status x = tm.clog x := by
  unfold status
  cases hc : tm.clog x with
  | inProgress => exact absurd hc h
  | committed => rfl
  | aborted => rfl

theorem sure_of_decided (hx : tm.clog x ≠ .inProgress) : Sure tm x := by
  intro hs
  rwa [status_of_clog hx] at hs

theorem clog_of_status_committed (h : tm.status x = .committed) : tm.clog x = .committed := by
  unfold status at h
  split at h
  · assumption
  · cases h
  · split at h <;> cases h

theorem Good.statusCached_fst (h : Good tm cache) (x : Nat) :
    (tm.statusCached cache x).1 = tm.status x := by
  rw [TransactionManager.statusCached_fst]
  cases hf : cache.find? fun e => e.1 = x with
  | none => rfl
  | some e =>
    obtain ⟨hne, hclog⟩ := h e (List.mem_of_find?_eq_some hf)
    have hid : e.1 = x := by simpa using List.find?_some hf
    rw [hid] at hclog
    rw [status_of_clog (by rw [hclog]; exact hne), hclog]
    rfl

theorem Good.statusCached_snd (h : Good tm cache) (hx : Sure tm x) :
    Good tm (tm.statusCached cache x).2 := by
  unfold statusCached
  split
  · exact h
  · have hgrow : ∀ s, s ≠ .inProgress → tm.clog x = s →
        Good tm ((x, s) :: if CACHE_LIMIT ≤ cache.length then [] else cache) := by
      intro s hne hclog e he
      rcases List.mem_cons.1 he with rfl | he
      · exact ⟨hne, hclog⟩
      · split at he
        · cases he
        · exact h e he
    split
    · exact h
    · next s hs =>
      refine hgrow _ hs ?_
      cases hstat : tm.status x with
      | inProgress => exact absurd hstat hs
      | committed => exact clog_of_status_committed hstat
      | aborted => exact hx hstat

theorem Good.creatorVisibleCached (h : Good tm cache) (hx : snap.Asks x → Sure tm x)
    (hpos : 0 < x) :
    (creatorVisibleCached x snap tm cache).1 = creatorVisible x snap tm ∧
      Good tm (creatorVisibleCached x snap tm cache).2 := by
  unfold Ccdb.creatorVisibleCached creatorVisible
  split
  · exact ⟨rfl, h⟩
  · split
    · exact ⟨rfl, h⟩
    · next hlt =>
      split
      · exact ⟨rfl, h⟩
      · next hact =>
        have hfst := h.statusCached_fst x
        have hsnd := h.statusCached_snd (hx ⟨hpos, by omega, hact⟩)
        generalize tm.statusCached cache x = r at hfst hsnd
        obtain ⟨s, cache'⟩ := r
        dsimp only at hfst hsnd
        rw [← hfst]
        cases s <;> exact ⟨rfl, hsnd⟩

theorem Good.isVisibleCached (h : Good tm cache) (hpos : 0 < v.xmin)
    (hmin : snap.Asks v.xmin → Sure tm v.xmin) (hmax : snap.Asks v.xmax → Sure tm v.xmax) :
    (isVisibleCached v.xmin v.xmax snap tm cache).1 = isVisible v.xmin v.xmax snap tm ∧
      Good tm (isVisibleCached v.xmin v.xmax snap tm cache).2 := by
  obtain ⟨hval, hnext⟩ := h.creatorVisibleCached hmin hpos
  unfold Ccdb.isVisibleCached isVisible
  generalize Ccdb.creatorVisibleCached v.xmin snap tm cache = r at hval hnext
  obtain ⟨b, cache'⟩ := r
  dsimp only at hval hnext
  rw [← hval]
  cases b with
  | false => exact ⟨rfl, hnext⟩
  | true =>
    simp only [Bool.not_true, Bool.false_eq_true, if_false]
    split
    · exact ⟨rfl, hnext⟩
    · next hne =>
      split
      · exact ⟨rfl, hnext⟩
      · split
        · exact ⟨rfl, hnext⟩
        · next hlt =>
          split
          · exact ⟨rfl, hnext⟩
          · next hact =>
            have hfst := hnext.statusCached_fst v.xmax
            have hsnd := hnext.statusCached_snd
              (hmax ⟨Nat.pos_of_ne_zero hne, by omega, hact⟩)
            generalize tm.statusCached cache' v.xmax = d at hfst hsnd
            obtain ⟨s, cache''⟩ := d
            dsimp only at hfst hsnd
            rw [← hfst]
            cases s <;> exact ⟨rfl, hsnd⟩

/-- The versions a snapshot can look at without asking inside the window. -/
def Safe (snap : Snapshot) (tm : TransactionManager) (v : Version) : Prop :=
  0 < v.xmin ∧ (snap.Asks v.xmin → Sure tm v.xmin) ∧ (snap.Asks v.xmax → Sure tm v.xmax)

theorem scan_eq (h : Good tm cache) (hsafe : ∀ v ∈ vs, Safe snap tm v) :
    (scan snap tm i vs cache).1 = visibleRows snap tm i vs ∧
      Good tm (scan snap tm i vs cache).2 := by
  induction vs generalizing i cache with
  | nil => exact ⟨rfl, h⟩
  | cons v vs ih =>
    obtain ⟨hpos, hmin, hmax⟩ := hsafe v List.mem_cons_self
    obtain ⟨hval, hnext⟩ := h.isVisibleCached hpos hmin hmax
    obtain ⟨hrows, hgood⟩ := ih (i := i + 1) hnext fun w hw => hsafe w (List.mem_cons_of_mem v hw)
    refine ⟨?_, hgood⟩
    simp only [scan, visibleRows, hval, hrows]

theorem visibleRows_append (vs ws : List Version) (i : Nat) :
    visibleRows snap tm i (vs ++ ws) =
      visibleRows snap tm i vs ++ visibleRows snap tm (i + vs.length) ws := by
  induction vs generalizing i with
  | nil => rfl
  | cons v vs ih =>
    have hlen : i + 1 + vs.length = i + (v :: vs).length := by
      rw [List.length_cons]
      omega
    simp only [List.cons_append, visibleRows, ih, hlen]
    split <;> rfl

theorem visibleRows_hidden (h : ∀ v ∈ vs, isVisible v.xmin v.xmax snap tm = false) :
    visibleRows snap tm i vs = [] := by
  induction vs generalizing i with
  | nil => rfl
  | cons v vs ih =>
    rw [visibleRows, h v List.mem_cons_self, if_neg Bool.false_ne_true]
    exact ih fun w hw => h w (List.mem_cons_of_mem v hw)

/-- One visible version among hidden ones. -/
theorem visibleRows_one {front : List Version} (back : List Version) (hvs : vs = front ++ v :: back)
    (hv : isVisible v.xmin v.xmax snap tm = true)
    (hf : ∀ w ∈ front, isVisible w.xmin w.xmax snap tm = false)
    (hb : ∀ w ∈ back, isVisible w.xmin w.xmax snap tm = false) :
    visibleRows snap tm 0 vs = [(front.length, v.x)] := by
  rw [hvs, visibleRows_append, visibleRows_hidden hf, visibleRows, if_pos hv, visibleRows_hidden hb,
    Nat.zero_add]
  rfl

/-! ## The invariant -/

/-- Created by a committed transaction and deleted by none. -/
def Live (tm : TransactionManager) (v : Version) : Prop :=
  tm.clog v.xmin = .committed ∧ tm.clog v.xmax ≠ .committed

/-- The row before the race: `v` is its one live version, between dead ones. -/
structure OneLive (tm : TransactionManager) (front : List Version) (v : Version)
    (back : List Version) : Prop where
  decided : ∀ w ∈ front ++ v :: back,
    tm.clog w.xmin ≠ .inProgress ∧ (w.xmax = 0 ∨ tm.clog w.xmax ≠ .inProgress)
  live : Live tm v
  dead : ∀ w ∈ front ++ back, ¬ Live tm w

/-- What the manager keeps also inside the window of a COMMIT. -/
structure Tidy (tm : TransactionManager) : Prop where
  active_lt : ∀ x ∈ tm.activeIds, x < tm.nextTxnId
  active_undecided : ∀ x ∈ tm.activeIds, tm.clog x = .inProgress
  future : ∀ x, tm.nextTxnId ≤ x → tm.clog x = .inProgress
  zero : tm.clog 0 = .inProgress
  next_pos : 0 < tm.nextTxnId

/-- The heap after the sessions in `ws` have written, in that order. -/
def chain (front : List Version) (v : Version) (back : List Version) (ids : Bool → Nat) :
    List Bool → List Version
  | [] => front ++ v :: back
  | [t] => front ++ { v with xmax := ids t } :: (back ++ [⟨ids t, 0, v.x + 1⟩])
  | t :: u :: _ =>
    front ++ { v with xmax := ids t } ::
      (back ++ [⟨ids t, ids u, v.x + 1⟩, ⟨ids u, 0, v.x + 1 + 1⟩])

/-- The transaction is no longer in the table. -/
def left : UpdatePc → Bool
  | .removed _ => true
  | .deciding _ => true
  | .committed _ => true
  | _ => false

/-- What the manager says about a session. -/
def Phase (tm : TransactionManager) (id : Nat) : UpdatePc → Prop
  | .idle => True
  | .failed => True
  | .removed _ => id ∉ tm.activeIds ∧ tm.clog id = .inProgress
  | .deciding _ => id ∉ tm.activeIds ∧ tm.clog id = .inProgress
  | .committed _ => tm.clog id = .committed
  | _ => id ∈ tm.activeIds

variable (front : List Version) (v : Version) (back : List Version)

/-- The version a session is to update: the first, or the one the other session
left when it committed. -/
def Target (st : Race) (ws : List Bool) (t : Bool) (r : Nat × Int32) : Prop :=
  r = (front.length, v.x) ∨
    (r = (front.length + 1 + back.length, v.x + 1) ∧ ws = [!t] ∧ ∃ c, st.pcs (!t) = .committed c)

/-- Where a session is, against the writes so far. -/
def Place (st : Race) (ws : List Bool) (t : Bool) : UpdatePc → Prop
  | .idle => t ∉ ws
  | .attempt _ => t ∉ ws
  | .snapped _ snap =>
    t ∉ ws ∧ snap.txnId = st.ids t ∧ snap.xmax ≤ st.tm.nextTxnId ∧
      (∀ w ∈ front ++ v :: back, snap.Asks w.xmin ∧ (w.xmax ≠ 0 → snap.Asks w.xmax)) ∧
      -- whoever the snapshot asks about had left the table by then
      (st.pcs (!t) ≠ .idle → snap.Asks (st.ids (!t)) → left (st.pcs (!t)) = true)
  | .matched _ rows count =>
    (count = 0 ∧ t ∉ ws ∧ (rows = [] ∨ ∃ r, rows = [r] ∧ Target front v back st ws t r)) ∨
      (count = 1 ∧ t ∈ ws ∧ rows = [])
  | .locked _ row x rest count =>
    count = 0 ∧ t ∉ ws ∧ rest = [] ∧ Target front v back st ws t (row, x) ∧
      st.locks row = some t
  | .checked _ row x rest count =>
    count = 0 ∧ t ∉ ws ∧ rest = [] ∧ Target front v back st ws t (row, x) ∧
      st.locks row = some t ∧ (row = front.length → ws = [])
  | .updated count => (count = 0 ∧ t ∉ ws) ∨ (count = 1 ∧ t ∈ ws)
  | .logged count => (count = 0 ∧ t ∉ ws) ∨ (count = 1 ∧ t ∈ ws)
  | .unlocked count => (count = 0 ∧ t ∉ ws) ∨ (count = 1 ∧ t ∈ ws)
  | .removed count => (count = 0 ∧ t ∉ ws) ∨ (count = 1 ∧ t ∈ ws)
  | .deciding count => (count = 0 ∧ t ∉ ws) ∨ (count = 1 ∧ t ∈ ws)
  | .committed count => (count = 0 ∧ t ∉ ws) ∨ (count = 1 ∧ t ∈ ws)
  | .failed => False

/-- The invariant of runs in which no session has failed. -/
structure Core (ws : List Bool) (st : Race) : Prop where
  tidy : Tidy st.tm
  one : OneLive st.tm front v back
  good : ∀ t, Good st.tm (st.caches t)
  heap : st.heap = chain front v back st.ids ws
  nodup : ws.Nodup
  begun : ∀ t, st.pcs t ≠ .idle → 0 < st.ids t ∧ st.ids t < st.tm.nextTxnId
  ids_ne : ∀ t, st.pcs t ≠ .idle → st.pcs (!t) ≠ .idle → st.ids t ≠ st.ids (!t)
  phase : ∀ t, Phase st.tm (st.ids t) (st.pcs t)
  place : ∀ t, Place front v back st ws t (st.pcs t)

/-- The invariant. -/
def Inv (st : Race) : Prop := (∃ t, st.pcs t = .failed) ∨ ∃ ws, Core front v back ws st

/-- A step of `t` that writes no version. -/
structure Frame (st st' : Race) (t : Bool) (pc : UpdatePc) : Prop where
  pcs : st'.pcs = Function.update st.pcs t pc
  caches : st'.caches (!t) = st.caches (!t)
  heap : st'.heap = st.heap
  tidy : Tidy st'.tm
  ids : st'.ids = st.ids ∧ st.pcs t ≠ .idle ∨
    st.pcs t = .idle ∧ st'.ids = Function.update st.ids t st.tm.nextTxnId ∧
      st.tm.nextTxnId < st'.tm.nextTxnId
  next_le : st.tm.nextTxnId ≤ st'.tm.nextTxnId
  active : ∀ x ≠ st'.ids t, (x ∈ st'.tm.activeIds ↔ x ∈ st.tm.activeIds)
  clog : ∀ x ≠ st'.ids t, st'.tm.clog x = st.tm.clog x
  decided : ∀ x, st.tm.clog x ≠ .inProgress → st'.tm.clog x = st.tm.clog x
  locks : ∀ r, st.locks r = some (!t) → st'.locks r = some (!t)
  uncommitted : ∀ c, st.pcs t ≠ .committed c
  started : pc ≠ .idle
  left : left (st.pcs t) = true → left pc = true

variable {front v back} {st st' : Race} {t u : Bool} {pc : UpdatePc}
  {ws : List Bool} {cache : StatusCache}

theorem OneLive.of_decided {tm' : TransactionManager} (h : OneLive tm front v back)
    (hd : ∀ x, tm.clog x ≠ .inProgress → tm'.clog x = tm.clog x) (h0 : tm.clog 0 = .inProgress)
    (h0' : tm'.clog 0 = .inProgress) : OneLive tm' front v back := by
  have hlive : ∀ w ∈ front ++ v :: back, (Live tm' w ↔ Live tm w) := by
    intro w hw
    obtain ⟨hmin, hmax⟩ := h.decided w hw
    unfold Live
    rw [hd _ hmin]
    refine and_congr_right fun _ => ?_
    rcases hmax with hmax | hmax
    · rw [hmax, h0, h0']
    · rw [hd _ hmax]
  refine ⟨fun w hw => ?_, (hlive v (by simp)).2 h.live, fun w hw => ?_⟩
  · obtain ⟨hmin, hmax⟩ := h.decided w hw
    rw [hd _ hmin]
    refine ⟨hmin, hmax.imp id fun hmax => ?_⟩
    rwa [hd _ hmax]
  · rw [hlive w (by simp only [List.mem_append, List.mem_cons] at hw ⊢; tauto)]
    exact h.dead w hw

namespace Tidy

theorem mem_activeIds_begin (h : Tidy tm) :
    x ∈ tm.begin.2.activeIds ↔ x = tm.nextTxnId ∨ x ∈ tm.activeIds := by
  have hnew : tm.nextTxnId ∉ tm.activeIds := fun hin => lt_irrefl _ (h.active_lt _ hin)
  have hfilter : tm.att.filter (fun e => e.1 ≠ tm.nextTxnId) = tm.att := by
    rw [List.filter_eq_self]
    intro e he
    have hne : e.1 ≠ tm.nextTxnId := fun heq =>
      hnew (heq ▸ List.mem_map_of_mem (f := Prod.fst) he)
    simpa using hne
  simp only [activeIds, TransactionManager.begin, hfilter, List.map_cons, List.mem_cons]

theorem begin (h : Tidy tm) : Tidy tm.begin.2 := by
  refine ⟨fun x hx => ?_, fun x hx => ?_, fun x hx => ?_, h.zero, Nat.succ_pos _⟩
  · show x < tm.nextTxnId + 1
    rcases h.mem_activeIds_begin.1 hx with rfl | hx
    · omega
    · have := h.active_lt x hx
      omega
  · rcases h.mem_activeIds_begin.1 hx with rfl | hx
    · exact h.future _ (le_refl _)
    · exact h.active_undecided x hx
  · have hx : tm.nextTxnId + 1 ≤ x := hx
    exact h.future x (by omega)

/-- A snapshot asks about every decided transaction. -/
theorem asks_of_decided (h : Tidy tm) {id : Nat} (hx : tm.clog x ≠ .inProgress) :
    (tm.snapshot id).Asks x := by
  refine ⟨Nat.pos_of_ne_zero fun h0 => hx (h0 ▸ h.zero), ?_, fun hact => ?_⟩
  · by_contra hge
    exact hx (h.future x (Nat.le_of_not_lt hge))
  · exact hx (h.active_undecided x hact)

end Tidy

theorem Good.of_decided {tm' : TransactionManager} (h : Good tm cache)
    (hd : ∀ x, tm.clog x ≠ .inProgress → tm'.clog x = tm.clog x) : Good tm' cache := by
  intro e he
  obtain ⟨hne, hclog⟩ := h e he
  exact ⟨hne, by rw [hd _ (by rw [hclog]; exact hne), hclog]⟩

theorem chain_congr {ids ids' : Bool → Nat} (h : ∀ t ∈ ws, ids' t = ids t) :
    chain front v back ids' ws = chain front v back ids ws := by
  match ws with
  | [] => rfl
  | [t] => simp only [chain, h t (by simp)]
  | t :: u :: _ => simp only [chain, h t (by simp), h u (by simp)]

theorem Phase.congr {tm' : TransactionManager} {id : Nat} (h : Phase tm id pc)
    (hactive : id ∈ tm'.activeIds ↔ id ∈ tm.activeIds) (hclog : tm'.clog id = tm.clog id) :
    Phase tm' id pc := by
  cases pc <;> simp only [Phase, hactive, hclog] at h ⊢ <;> exact h

theorem not_eq_or (t u : Bool) : u = t ∨ u = !t := by cases t <;> cases u <;> decide

namespace Frame

theorem pcs_self (f : Frame st st' t pc) : st'.pcs t = pc := by
  rw [f.pcs, Function.update_self]

theorem pcs_other (f : Frame st st' t pc) : st'.pcs (!t) = st.pcs (!t) := by
  rw [f.pcs, Function.update_of_ne (by simp)]

theorem ids_other (f : Frame st st' t pc) : st'.ids (!t) = st.ids (!t) := by
  rcases f.ids with ⟨hids, -⟩ | ⟨-, hids, -⟩
  · rw [hids]
  · rw [hids, Function.update_of_ne (by simp)]

/-- The other session's target stands: its condition on `t` never applied. -/
theorem target_other (f : Frame st st' t pc) {r : Nat × Int32}
    (h : Target front v back st ws (!t) r) : Target front v back st' ws (!t) r := by
  rcases h with h | ⟨-, -, c, hc⟩
  · exact Or.inl h
  · rw [Bool.not_not] at hc
    exact absurd hc (f.uncommitted c)

theorem target_self (f : Frame st st' t pc) {r : Nat × Int32}
    (h : Target front v back st ws t r) : Target front v back st' ws t r := by
  refine h.imp id ?_
  rintro ⟨hr, hone, c, hc⟩
  exact ⟨hr, hone, c, by rw [f.pcs_other, hc]⟩

theorem place_other (f : Frame st st' t pc) {pc' : UpdatePc}
    (h : Place front v back st ws (!t) pc') : Place front v back st' ws (!t) pc' := by
  cases pc' with
  | snapped n snap =>
    obtain ⟨hws, htxn, hle, hcover, hasks⟩ := h
    refine ⟨hws, by rw [htxn, f.ids_other], le_trans hle f.next_le, hcover, ?_⟩
    rw [Bool.not_not, f.pcs_self] at *
    intro _ hask
    rcases f.ids with ⟨hids, hidle⟩ | ⟨-, hids, -⟩
    · rw [hids] at hask
      exact f.left (hasks hidle hask)
    · -- begun after the snapshot was taken
      rw [hids, Function.update_self] at hask
      have := hask.2.1
      omega
  | matched n rows count =>
    rcases h with ⟨hcount, hws, hrows⟩ | h
    · refine Or.inl ⟨hcount, hws, hrows.imp id ?_⟩
      rintro ⟨r, hr, htarget⟩
      exact ⟨r, hr, f.target_other htarget⟩
    · exact Or.inr h
  | locked n row x rest count =>
    obtain ⟨hcount, hws, hrest, htarget, hlock⟩ := h
    exact ⟨hcount, hws, hrest, f.target_other htarget, f.locks row hlock⟩
  | checked n row x rest count =>
    obtain ⟨hcount, hws, hrest, htarget, hlock, hfirst⟩ := h
    exact ⟨hcount, hws, hrest, f.target_other htarget, f.locks row hlock, hfirst⟩
  | _ => exact h

end Frame

namespace Core

/-- Only the stepping session's own clauses are left to show. -/
theorem of_frame (h : Core front v back ws st) (f : Frame st st' t pc)
    (hgood : Good st'.tm (st'.caches t)) (hphase : Phase st'.tm (st'.ids t) pc)
    (hplace : Place front v back st' ws t pc) : Core front v back ws st' := by
  have hids : ∀ s ∈ ws, st'.ids s = st.ids s := by
    intro s hs
    rcases f.ids with ⟨hids, -⟩ | ⟨hidle, hids, -⟩
    · rw [hids]
    · have hout : Place front v back st ws t (st.pcs t) := h.place t
      rw [hidle] at hout
      rw [hids, Function.update_of_ne]
      rintro rfl
      exact hout hs
  have hbegun : ∀ s, st'.pcs s ≠ .idle → 0 < st'.ids s ∧ st'.ids s < st'.tm.nextTxnId := by
    intro s hs
    rcases not_eq_or t s with rfl | rfl
    · rcases f.ids with ⟨hids, hne⟩ | ⟨-, hids, hlt⟩
      · obtain ⟨hpos, hlt⟩ := h.begun s hne
        rw [hids]
        exact ⟨hpos, lt_of_lt_of_le hlt f.next_le⟩
      · rw [hids, Function.update_self]
        exact ⟨h.tidy.next_pos, hlt⟩
    · rw [f.pcs_other] at hs
      obtain ⟨hpos, hlt⟩ := h.begun (!t) hs
      rw [f.ids_other]
      exact ⟨hpos, lt_of_lt_of_le hlt f.next_le⟩
  have hne : st.pcs (!t) ≠ .idle → st'.ids t ≠ st.ids (!t) := by
    intro hother
    rcases f.ids with ⟨hids, hne⟩ | ⟨-, hids, -⟩
    · rw [hids]
      exact h.ids_ne t hne hother
    · have hlt := (h.begun (!t) hother).2
      rw [hids, Function.update_self]
      omega
  refine ⟨f.tidy, h.one.of_decided f.decided h.tidy.zero f.tidy.zero, ?_, ?_, h.nodup, hbegun, ?_,
    ?_, ?_⟩
  · intro s
    rcases not_eq_or t s with rfl | rfl
    · exact hgood
    · rw [f.caches]
      exact (h.good _).of_decided f.decided
  · rw [f.heap, h.heap, chain_congr hids]
  · intro s hs hother
    rcases not_eq_or t s with rfl | rfl
    · rw [f.ids_other]
      rw [f.pcs_other] at hother
      exact hne hother
    · rw [f.pcs_other] at hs
      rw [Bool.not_not, f.ids_other]
      exact (hne hs).symm
  · intro s
    rcases not_eq_or t s with rfl | rfl
    · rw [f.pcs_self]
      exact hphase
    · rw [f.pcs_other, f.ids_other]
      by_cases hidle : st.pcs (!t) = .idle
      · rw [hidle]
        trivial
      · exact (h.phase _).congr (f.active _ (hne hidle).symm) (f.clog _ (hne hidle).symm)
  · intro s
    rcases not_eq_or t s with rfl | rfl
    · rw [f.pcs_self]
      exact hplace
    · rw [f.pcs_other]
      exact f.place_other (h.place _)

end Core

/-! ## What a snapshot finds in the chain -/

/-- The snapshot asks about every transaction of the table before the race. -/
structure Covers (tm : TransactionManager) (snap : Snapshot) (front : List Version) (v : Version)
    (back : List Version) : Prop where
  asks : ∀ w ∈ front ++ v :: back, snap.Asks w.xmin ∧ (w.xmax ≠ 0 → snap.Asks w.xmax)
  own : tm.clog snap.txnId = .inProgress

theorem sees_of_decided (hask : snap.Asks x) (hown : tm.clog snap.txnId = .inProgress)
    (hx : tm.clog x ≠ .inProgress) : Sees snap tm x ↔ tm.clog x = .committed := by
  have hne : x ≠ snap.txnId := fun h => hx (h ▸ hown)
  unfold Sees
  rw [status_of_clog hx]
  simp [hne, hask.2.1, hask.2.2]

namespace OneLive

theorem safe {w : Version} (h : OneLive tm front v back) (h0 : tm.clog 0 = .inProgress)
    (hw : w ∈ front ++ v :: back) : Safe snap tm w := by
  obtain ⟨hmin, hmax⟩ := h.decided w hw
  refine ⟨Nat.pos_of_ne_zero fun hz => hmin (hz ▸ h0), fun _ => sure_of_decided hmin,
    fun hask => sure_of_decided (hmax.resolve_left ?_)⟩
  have := hask.1
  omega

theorem visible_iff {w : Version} (h : OneLive tm front v back) (hc : Covers tm snap front v back)
    (h0 : tm.clog 0 = .inProgress) (hw : w ∈ front ++ v :: back) :
    isVisible w.xmin w.xmax snap tm = true ↔ Live tm w := by
  obtain ⟨hmin, hmax⟩ := h.decided w hw
  obtain ⟨hamin, hamax⟩ := hc.asks w hw
  rw [isVisible_iff, sees_of_decided hamin hc.own hmin]
  refine and_congr_right fun _ => ?_
  by_cases hz : w.xmax = 0
  · simp [hz, invalidTxnId, h0]
  · have hdec := hmax.resolve_left hz
    rw [sees_of_decided (hamax hz) hc.own hdec]
    exact ⟨fun hv => hv hz, fun hv _ => hv⟩

theorem dead_hidden {w : Version} (h : OneLive tm front v back)
    (hc : Covers tm snap front v back) (h0 : tm.clog 0 = .inProgress) (hw : w ∈ front ++ back) :
    isVisible w.xmin w.xmax snap tm = false := by
  have hmem : w ∈ front ++ v :: back := by
    simp only [List.mem_append, List.mem_cons] at hw ⊢
    tauto
  rw [Bool.eq_false_iff, ne_eq, h.visible_iff hc h0 hmem]
  exact h.dead w hw

theorem sees_creator (h : OneLive tm front v back) (hc : Covers tm snap front v back) :
    Sees snap tm v.xmin :=
  (sees_of_decided (hc.asks v (by simp)).1 hc.own (h.decided v (by simp)).1).2 h.live.1

/-- Nobody has written: the first version. -/
theorem rows_nil (h : OneLive tm front v back) (hc : Covers tm snap front v back)
    (h0 : tm.clog 0 = .inProgress) {ids : Bool → Nat} :
    visibleRows snap tm 0 (chain front v back ids []) = [(front.length, v.x)] :=
  visibleRows_one back rfl ((h.visible_iff hc h0 (by simp)).2 h.live)
    (fun _ hw => h.dead_hidden hc h0 (List.mem_append_left _ hw))
    (fun _ hw => h.dead_hidden hc h0 (List.mem_append_right _ hw))

/-- A writer the snapshot does not see: still the first version. -/
theorem rows_unseen (h : OneLive tm front v back) (hc : Covers tm snap front v back)
    (h0 : tm.clog 0 = .inProgress) {ids : Bool → Nat} {u : Bool} (hu : ¬ Sees snap tm (ids u)) :
    visibleRows snap tm 0 (chain front v back ids [u]) = [(front.length, v.x)] := by
  refine visibleRows_one _ (v := { v with xmax := ids u }) rfl
    (isVisible_iff.2 ⟨h.sees_creator hc, fun _ => hu⟩)
    (fun w hw => h.dead_hidden hc h0 (List.mem_append_left _ hw)) fun w hw => ?_
  rcases List.mem_append.1 hw with hw | hw
  · exact h.dead_hidden hc h0 (List.mem_append_right _ hw)
  · obtain rfl := List.mem_singleton.1 hw
    rw [Bool.eq_false_iff, ne_eq, isVisible_iff]
    exact fun hv => hu hv.1

/-- A version with a deleter that the snapshot sees. -/
theorem deleted_hidden {xmin xmax : Nat} (hne : xmax ≠ invalidTxnId) (hx : Sees snap tm xmax) :
    isVisible xmin xmax snap tm = false := by
  rw [Bool.eq_false_iff, ne_eq, isVisible_iff]
  exact fun hv => hv.2 hne hx

/-- A writer the snapshot sees: its version. -/
theorem rows_seen (h : OneLive tm front v back) (hc : Covers tm snap front v back)
    (h0 : tm.clog 0 = .inProgress) {ids : Bool → Nat} {u : Bool} (hu : Sees snap tm (ids u))
    (hpos : 0 < ids u) :
    visibleRows snap tm 0 (chain front v back ids [u]) =
      [(front.length + 1 + back.length, v.x + 1)] := by
  have hlen : (front ++ { v with xmax := ids u } :: back).length =
      front.length + 1 + back.length := by
    simp only [List.length_append, List.length_cons]
    omega
  rw [← hlen]
  refine visibleRows_one [] (v := ⟨ids u, 0, v.x + 1⟩) (by simp [chain])
    (isVisible_iff.2 ⟨hu, fun hz => absurd rfl hz⟩) (fun w hw => ?_) fun w hw => by cases hw
  rcases List.mem_append.1 hw with hw | hw
  · exact h.dead_hidden hc h0 (List.mem_append_left _ hw)
  · rcases List.mem_cons.1 hw with rfl | hw
    · exact deleted_hidden (show ids u ≠ 0 by omega) hu
    · exact h.dead_hidden hc h0 (List.mem_append_right _ hw)

/-- Both writers seen: the last version. -/
theorem rows_both (h : OneLive tm front v back) (hc : Covers tm snap front v back)
    (h0 : tm.clog 0 = .inProgress) {ids : Bool → Nat} {t u : Bool} (ht : Sees snap tm (ids t))
    (hu : Sees snap tm (ids u)) (htpos : 0 < ids t) (hupos : 0 < ids u) :
    visibleRows snap tm 0 (chain front v back ids [t, u]) =
      [(front.length + 1 + back.length + 1, v.x + 1 + 1)] := by
  have hlen : (front ++ { v with xmax := ids t } ::
      (back ++ [(⟨ids t, ids u, v.x + 1⟩ : Version)])).length =
      front.length + 1 + back.length + 1 := by
    simp only [List.length_append, List.length_cons, List.length_nil]
    omega
  rw [← hlen]
  refine visibleRows_one [] (v := ⟨ids u, 0, v.x + 1 + 1⟩) (by simp [chain])
    (isVisible_iff.2 ⟨hu, fun hz => absurd rfl hz⟩) (fun w hw => ?_) fun w hw => by cases hw
  rcases List.mem_append.1 hw with hw | hw
  · exact h.dead_hidden hc h0 (List.mem_append_left _ hw)
  · rcases List.mem_cons.1 hw with rfl | hw
    · exact deleted_hidden (show ids t ≠ 0 by omega) ht
    · rcases List.mem_append.1 hw with hw | hw
      · exact h.dead_hidden hc h0 (List.mem_append_right _ hw)
      · obtain rfl := List.mem_singleton.1 hw
        exact deleted_hidden (show ids u ≠ 0 by omega) hu

end OneLive

/-! ## Steps -/

/-- A step that leaves the manager alone. -/
theorem Core.still (h : Core front v back ws st) (hpcs : st'.pcs = Function.update st.pcs t pc)
    (htm : st'.tm = st.tm) (hids : st'.ids = st.ids) (hheap : st'.heap = st.heap)
    (hcaches : st'.caches (!t) = st.caches (!t))
    (hlocks : ∀ r, st.locks r = some (!t) → st'.locks r = some (!t)) (hidle : st.pcs t ≠ .idle)
    (hcommitted : ∀ c, st.pcs t ≠ .committed c) (hstarted : pc ≠ .idle)
    (hleft : left (st.pcs t) = true → left pc = true) : Frame st st' t pc where
  pcs := hpcs
  caches := hcaches
  heap := hheap
  tidy := htm ▸ h.tidy
  ids := Or.inl ⟨hids, hidle⟩
  next_le := by rw [htm]
  active := fun _ _ => by rw [htm]
  clog := fun _ _ => by rw [htm]
  decided := fun _ _ => by rw [htm]
  locks := hlocks
  uncommitted := hcommitted
  started := hstarted
  left := hleft

/-- A step to another place and nothing else. -/
theorem Core.goto (h : Core front v back ws st) (hidle : st.pcs t ≠ .idle)
    (hcommitted : ∀ c, st.pcs t ≠ .committed c) (hstarted : pc ≠ .idle)
    (hleft : left (st.pcs t) = true → left pc = true)
    (hphase : Phase st.tm (st.ids t) pc) (hplace : Place front v back (st.goto t pc) ws t pc) :
    Core front v back ws (st.goto t pc) :=
  h.of_frame (h.still rfl rfl rfl rfl rfl (fun _ hr => hr) hidle hcommitted hstarted hleft)
    (h.good t) hphase hplace

namespace Core

theorem place_of (h : Core front v back ws st) (hpc : st.pcs t = pc) :
    Place front v back st ws t pc := hpc ▸ h.place t

theorem phase_of (h : Core front v back ws st) (hpc : st.pcs t = pc) :
    Phase st.tm (st.ids t) pc := hpc ▸ h.phase t

theorem not_idle_of_mem (h : Core front v back ws st) (ht : t ∈ ws) : st.pcs t ≠ .idle :=
  fun hpc => h.place_of hpc ht

/-- A begun session that is not in the table has left it. -/
theorem left_of_out (h : Core front v back ws st) (hidle : st.pcs t ≠ .idle)
    (hout : st.ids t ∉ st.tm.activeIds) : left (st.pcs t) = true := by
  have hphase := h.phase t
  have hplace := h.place t
  cases hpc : st.pcs t with
  | idle => exact absurd hpc hidle
  | removed c => rfl
  | deciding c => rfl
  | committed c => rfl
  | failed =>
    rw [hpc] at hplace
    exact hplace.elim
  | _ =>
    rw [hpc] at hphase
    exact absurd hphase hout

theorem ws_cases (h : Core front v back ws st) (ht : t ∉ ws) : ws = [] ∨ ws = [!t] := by
  have hnodup := h.nodup
  have hall : ∀ s ∈ ws, s = !t := fun s hs =>
    (not_eq_or t s).resolve_left (fun heq => ht (heq ▸ hs))
  match ws with
  | [] => exact Or.inl rfl
  | [s] => exact Or.inr (by rw [hall s (by simp)])
  | s :: s' :: _ =>
    rw [hall s (by simp), hall s' (by simp)] at hnodup
    simp at hnodup

theorem begin (h : Core front v back ws st) (hpc : st.pcs t = .idle) :
    Core front v back ws ({ st with
      tm := st.tm.begin.2
      ids := Function.update st.ids t st.tm.begin.1 }.goto t (.attempt MAX_RETRIES)) := by
  refine h.of_frame (show Frame st _ t (.attempt MAX_RETRIES) from
    ⟨rfl, rfl, rfl, h.tidy.begin, Or.inr ⟨hpc, rfl, Nat.lt_succ_self _⟩, Nat.le_succ _, ?_,
      fun _ _ => rfl, fun _ _ => rfl, fun _ hr => hr, by simp [hpc], by simp, by simp [hpc, left]⟩)
    (h.good t) ?_ (h.place_of hpc)
  · intro x hx
    have hne : x ≠ st.tm.nextTxnId := by simpa [Race.goto, TransactionManager.begin] using hx
    show x ∈ st.tm.begin.2.activeIds ↔ _
    rw [h.tidy.mem_activeIds_begin]
    exact or_iff_right hne
  · show Function.update st.ids t st.tm.begin.1 t ∈ st.tm.begin.2.activeIds
    rw [Function.update_self, h.tidy.mem_activeIds_begin]
    exact Or.inl rfl

theorem snapshot (h : Core front v back ws st) {n m : Nat} (hpc : st.pcs t = .attempt m) :
    Core front v back ws (st.goto t (.snapped n (st.tm.snapshot (st.ids t)))) := by
  have hws := h.place_of hpc
  have hopen := h.phase_of hpc
  refine h.goto (by simp [hpc]) (by simp [hpc]) (by simp) (by simp [hpc, left])
    hopen ⟨hws, rfl, le_refl _, fun w hw => ?_, fun hidle hask => ?_⟩
  · obtain ⟨hmin, hmax⟩ := h.one.decided w hw
    exact ⟨h.tidy.asks_of_decided hmin, fun hne => h.tidy.asks_of_decided (hmax.resolve_left hne)⟩
  · have hother : (st.goto t (.snapped n (st.tm.snapshot (st.ids t)))).pcs (!t) = st.pcs (!t) :=
      Function.update_of_ne (by simp) _ _
    rw [hother] at hidle ⊢
    exact h.left_of_out hidle hask.2.2

/-- A session that has left the table and is not in the window has committed. -/
theorem committed_of_left (h : Core front v back ws st) (hleft : left (st.pcs t) = true)
    (hdec : undecided (st.pcs t) ≠ true) :
    (∃ c, st.pcs t = .committed c) ∧ st.tm.clog (st.ids t) = .committed := by
  cases hpc : st.pcs t with
  | committed c => exact ⟨⟨c, rfl⟩, h.phase_of hpc⟩
  | removed c => exact absurd (by rw [hpc]; rfl) hdec
  | deciding c => exact absurd (by rw [hpc]; rfl) hdec
  | _ =>
    rw [hpc] at hleft
    cases hleft

/-- Outside the window a session's status is what it will stay or in progress. -/
theorem status_ne_aborted (h : Core front v back ws st) (hidle : st.pcs t ≠ .idle)
    (hdec : undecided (st.pcs t) ≠ true) : st.tm.status (st.ids t) ≠ .aborted := by
  by_cases hact : st.ids t ∈ st.tm.activeIds
  · simp [status, h.tidy.active_undecided _ hact, hact]
  · have hclog := (h.committed_of_left (h.left_of_out hidle hact) hdec).2
    rw [status_of_clog (by rw [hclog]; decide), hclog]
    decide

/-- The versions a clear matching looks at. -/
theorem safe (h : Core front v back ws st) (hws : t ∉ ws)
    (hdec : snap.Asks (st.ids !t) → undecided (st.pcs !t) ≠ true) :
    ∀ w ∈ st.heap, Safe snap st.tm w := by
  have htable : ∀ w ∈ front ++ v :: back, Safe snap st.tm w := fun w hw =>
    h.one.safe h.tidy.zero hw
  rcases h.ws_cases hws with rfl | rfl
  · rw [h.heap]
    exact htable
  · have hidle : st.pcs (!t) ≠ .idle := h.not_idle_of_mem (by simp)
    have hother : snap.Asks (st.ids !t) → Sure st.tm (st.ids !t) := fun hask hs =>
      absurd hs (h.status_ne_aborted hidle (hdec hask))
    have hfirst := htable v (by simp)
    intro w hw
    rw [h.heap] at hw
    simp only [chain, List.mem_append, List.mem_cons, List.not_mem_nil, or_false] at hw
    rcases hw with hw | rfl | hw | rfl
    · exact htable w (by simp [hw])
    · exact ⟨hfirst.1, hfirst.2.1, hother⟩
    · exact htable w (by simp [hw])
    · exact ⟨(h.begun _ hidle).1, hother, fun hask => absurd hask.1 (lt_irrefl 0)⟩

theorem matching (h : Core front v back ws st) {n : Nat} {q : Nat × Int32 → Bool}
    (hpc : st.pcs t = .snapped n snap)
    (hclear : undecided (st.pcs !t) → ¬ snap.Asks (st.ids !t)) :
    Core front v back ws
      ((st.withCache t (scan snap st.tm 0 st.heap (st.caches t)).2).goto t
        (.matched n ((scan snap st.tm 0 st.heap (st.caches t)).1.filter q) 0)) := by
  obtain ⟨hws, htxn, -, hasks, hleft⟩ := h.place_of hpc
  have hopen : st.ids t ∈ st.tm.activeIds := h.phase_of hpc
  have hcover : Covers st.tm snap front v back :=
    ⟨hasks, by rw [htxn]; exact h.tidy.active_undecided _ hopen⟩
  have hdec : snap.Asks (st.ids !t) → undecided (st.pcs !t) ≠ true := fun hask hu =>
    hclear hu hask
  obtain ⟨hrows, hgood⟩ := scan_eq (i := 0) (h.good t) (h.safe hws hdec)
  have htarget : ∃ r, visibleRows snap st.tm 0 st.heap = [r] ∧ Target front v back st ws t r := by
    rcases h.ws_cases hws with rfl | rfl
    · rw [h.heap]
      exact ⟨_, h.one.rows_nil hcover h.tidy.zero, Or.inl rfl⟩
    · have hidle : st.pcs (!t) ≠ .idle := h.not_idle_of_mem (by simp)
      rw [h.heap]
      by_cases hsees : Sees snap st.tm (st.ids !t)
      · -- seen, so it was asked about and has committed
        have hne : st.ids (!t) ≠ snap.txnId := by
          rw [htxn]
          exact (h.ids_ne t (by simp [hpc]) hidle).symm
        obtain ⟨hlt, hact, -⟩ := hsees.resolve_left hne
        have hask : snap.Asks (st.ids !t) := ⟨(h.begun _ hidle).1, hlt, hact⟩
        exact ⟨_, h.one.rows_seen hcover h.tidy.zero hsees (h.begun _ hidle).1,
          Or.inr ⟨rfl, rfl, (h.committed_of_left (hleft hidle hask) (hdec hask)).1⟩⟩
      · exact ⟨_, h.one.rows_unseen hcover h.tidy.zero hsees, Or.inl rfl⟩
  have hf : Frame st ((st.withCache t (scan snap st.tm 0 st.heap (st.caches t)).2).goto t
      (.matched n ((scan snap st.tm 0 st.heap (st.caches t)).1.filter q) 0)) t
      (.matched n ((scan snap st.tm 0 st.heap (st.caches t)).1.filter q) 0) :=
    h.still rfl rfl rfl rfl (Function.update_of_ne (by simp) _ _) (fun _ hr => hr) (by simp [hpc])
      (by simp [hpc]) (by simp) (by simp [hpc, left])
  refine h.of_frame hf ?_ hopen (Or.inl ⟨rfl, hws, ?_⟩)
  · show Good st.tm (Function.update st.caches t _ t)
    rw [Function.update_self]
    exact hgood
  · obtain ⟨r, hr, htarget⟩ := htarget
    have hfilter : (scan snap st.tm 0 st.heap (st.caches t)).1.filter q = [] ∨
        (scan snap st.tm 0 st.heap (st.caches t)).1.filter q = [r] := by
      rw [hrows, hr]
      cases hq : q r <;> simp [hq]
    exact hfilter.imp id fun heq => ⟨r, heq, hf.target_self htarget⟩

theorem lock (h : Core front v back ws st) {n row c : Nat} {x : Int32}
    {rest : List (Nat × Int32)} (hpc : st.pcs t = .matched n ((row, x) :: rest) c)
    (hfree : st.locks row = none ∨ st.locks row = some t) :
    Core front v back ws ({ st with locks := Function.update st.locks row (some t) }.goto t
      (.locked n row x rest c)) := by
  have hopen := h.phase_of hpc
  refine (fun hf : Frame st ({ st with
      locks := Function.update st.locks row (some t) }.goto t (.locked n row x rest c)) t
      (.locked n row x rest c) => ?_) (h.still rfl rfl rfl rfl rfl ?_ (by simp [hpc]) (by simp [hpc])
        (by simp) (by simp [hpc, left]))
  · rcases h.place_of hpc with ⟨hcount, hws, hrows⟩ | ⟨-, -, hrows⟩
    · rcases hrows with hrows | ⟨r, hrows, htarget⟩
      · cases hrows
      · obtain ⟨rfl, rfl⟩ := List.cons.inj hrows
        exact h.of_frame hf (h.good t) hopen
          ⟨hcount, hws, rfl, hf.target_self htarget, Function.update_self _ _ _⟩
    · cases hrows
  · intro r hr
    have hne : r ≠ row := by
      rintro rfl
      rcases hfree with hfree | hfree
      · rw [hr] at hfree
        cases hfree
      · rw [hr] at hfree
        simp at hfree
    exact (Function.update_of_ne hne _ _).trans hr

theorem heap_first (h : Core front v back ws st) (hws : t ∉ ws) :
    st.heap[front.length]? = some (if ws = [] then v else { v with xmax := st.ids (!t) }) := by
  rcases h.ws_cases hws with rfl | rfl
  · rw [h.heap]
    simp [chain]
  · rw [h.heap]
    simp [chain]

theorem heap_second (h : Core front v back [u] st) :
    st.heap[front.length + 1 + back.length]? = some ⟨st.ids u, 0, v.x + 1⟩ := by
  rw [h.heap, chain, List.getElem?_append_right (by omega)]
  have hpos : front.length + 1 + back.length - front.length = back.length + 1 := by omega
  rw [hpos, List.getElem?_cons_succ]
  simp

/-- What the recheck can find: a version nobody is deleting, an outcome from the
commit log, or the other session, which has written the first version. -/
theorem recheck_finds (h : Core front v back ws st) {row : Nat} {x : Int32} {w : Version}
    (hws : t ∉ ws) (htarget : Target front v back st ws t (row, x))
    (hw : st.heap[row]? = some w) (hne : w.xmax ≠ 0) :
    (st.tm.clog w.xmax ≠ .inProgress ∧ ws = []) ∨ (w.xmax = st.ids (!t) ∧ ws = [!t]) := by
  rcases htarget with htarget | ⟨htarget, rfl, -⟩
  · obtain ⟨rfl, -⟩ := Prod.mk.inj htarget
    rw [h.heap_first hws] at hw
    rcases h.ws_cases hws with rfl | rfl
    · rw [if_pos rfl] at hw
      cases hw
      exact Or.inl ⟨(h.one.decided v (by simp)).2.resolve_left hne, rfl⟩
    · rw [if_neg (List.cons_ne_nil _ _)] at hw
      cases hw
      exact Or.inr ⟨rfl, rfl⟩
  · obtain ⟨rfl, -⟩ := Prod.mk.inj htarget
    rw [h.heap_second] at hw
    cases hw
    exact absurd rfl hne

theorem recheck (h : Core front v back ws st) {n row c : Nat} {x : Int32}
    {rest : List (Nat × Int32)} (hpc : st.pcs t = .locked n row x rest c)
    (hclear : undecided (st.pcs !t) → st.heap[row]?.map Version.xmax ≠ some (st.ids !t)) :
    Inv front v back (st.recheck t n row x rest c) := by
  obtain ⟨rfl, hws, rfl, htarget, hlock⟩ := h.place_of hpc
  have hopen := h.phase_of hpc
  have hframe : ∀ (cache : StatusCache) (pc : UpdatePc), pc ≠ .idle →
      Frame st ((st.withCache t cache).goto t pc) t pc := fun cache pc hstarted =>
    h.still rfl rfl rfl rfl (Function.update_of_ne (by simp) _ _) (fun _ hr => hr) (by simp [hpc])
      (by simp [hpc]) hstarted (by simp [hpc, left])
  have hcache : ∀ (cache : StatusCache) (pc : UpdatePc), Good st.tm cache →
      Good st.tm (((st.withCache t cache).goto t pc).caches t) := by
    intro cache pc hgood
    show Good st.tm (Function.update st.caches t cache t)
    rwa [Function.update_self]
  unfold Race.recheck
  cases hw : st.heap[row]? with
  | none =>
    exact Or.inr ⟨ws, h.goto (by simp [hpc]) (by simp [hpc]) (by simp) (by simp [hpc, left]) hopen
      (Or.inl ⟨rfl, hws, Or.inl rfl⟩)⟩
  | some w =>
    dsimp only
    have hfirst : row = front.length → ws = [] ∨ w.xmax = st.ids (!t) := by
      rintro rfl
      rw [h.heap_first hws] at hw
      rcases h.ws_cases hws with rfl | rfl
      · exact Or.inl rfl
      · rw [if_neg (List.cons_ne_nil _ _)] at hw
        cases hw
        exact Or.inr rfl
    split
    · next hne =>
      have hfinds := h.recheck_finds hws htarget hw hne.1
      -- the other session is not in its window, or it would be asked about here
      have hother : w.xmax = st.ids (!t) → ws = [!t] →
          st.tm.status w.xmax ≠ .aborted := by
        intro heq hone
        rw [heq]
        refine h.status_ne_aborted (h.not_idle_of_mem (by simp [hone])) fun hu => ?_
        exact hclear hu (by rw [hw, ← heq]; rfl)
      have hsure : Sure st.tm w.xmax := by
        rcases hfinds with ⟨hdec, -⟩ | ⟨heq, hone⟩
        · exact sure_of_decided hdec
        · exact fun hs => absurd hs (hother heq hone)
      have hfst := (h.good t).statusCached_fst w.xmax
      have hsnd := (h.good t).statusCached_snd hsure
      generalize st.tm.statusCached (st.caches t) w.xmax = r at hfst hsnd
      obtain ⟨s, cache⟩ := r
      dsimp only at hfst hsnd
      cases s with
      | committed =>
        exact Or.inr ⟨ws, h.of_frame (hframe cache (.attempt n) (by simp)) (hcache _ _ hsnd) hopen
          hws⟩
      | aborted =>
        have hnil : ws = [] := by
          rcases hfinds with ⟨-, hnil⟩ | ⟨heq, hone⟩
          · exact hnil
          · exact absurd hfst.symm (hother heq hone)
        have hf := hframe cache (.checked n row x [] 0) (by simp)
        exact Or.inr ⟨ws, h.of_frame hf (hcache _ _ hsnd) hopen
          ⟨rfl, hws, rfl, hf.target_self htarget, hlock, fun _ => hnil⟩⟩
      | inProgress => exact Or.inl ⟨t, Function.update_self _ _ _⟩
    · next hne =>
      have hf : Frame st (st.goto t (.checked n row x [] 0)) t (.checked n row x [] 0) :=
        h.still rfl rfl rfl rfl rfl (fun _ hr => hr) (by simp [hpc]) (by simp [hpc]) (by simp)
          (by simp [hpc, left])
      refine Or.inr ⟨ws, h.of_frame hf (h.good t) hopen
        ⟨rfl, hws, rfl, hf.target_self htarget, hlock, fun hrow => ?_⟩⟩
      rcases hfirst hrow with hnil | heq
      · exact hnil
      · -- an `xmax` of the other session is neither empty nor one's own
        by_contra hnil
        have hone := (h.ws_cases hws).resolve_left hnil
        have hidle : st.pcs (!t) ≠ .idle := h.not_idle_of_mem (by simp [hone])
        have hpos := (h.begun _ hidle).1
        refine hne ⟨?_, ?_⟩
        · rw [heq, invalidTxnId]
          omega
        · rw [heq]
          exact (h.ids_ne t (by simp [hpc]) hidle).symm

theorem modify_append_cons {f : Version → Version} {w : Version} (l r : List Version) :
    (l ++ w :: r).modify l.length f = l ++ f w :: r := by
  induction l with
  | nil => rfl
  | cons a l ih => simpa using ih

/-- The first write. The other session cannot be past its lock on the row. -/
theorem place_other_write {pc' : UpdatePc} (hlock : st.locks front.length = some t)
    (hst : st'.ids (!t) = st.ids (!t)) (htm : st'.tm = st.tm) (hpcs : st'.pcs t = pc)
    (hidle : st.pcs t ≠ .idle) (hleft : left (st.pcs t) = true → left pc = true)
    (hids : st'.ids t = st.ids t)
    (h : Place front v back st [] (!t) pc') : Place front v back st' [t] (!t) pc' := by
  have hout : (!t) ∉ [t] := by simp
  have htarget : ∀ r, Target front v back st [] (!t) r → r = (front.length, v.x) := by
    rintro r (h | ⟨-, h, -⟩)
    · exact h
    · cases h
  have hlocked : ∀ row x, Target front v back st [] (!t) (row, x) →
      st.locks row ≠ some (!t) := by
    intro row x hr hl
    obtain ⟨rfl, -⟩ := Prod.mk.inj (htarget _ hr)
    rw [hlock] at hl
    simp at hl
  cases pc' with
  | idle => exact hout
  | attempt n => exact hout
  | snapped n snap =>
    obtain ⟨-, htxn, hle, hasks, hother⟩ := h
    refine ⟨hout, by rw [htxn, hst], by rwa [htm], hasks, ?_⟩
    rw [Bool.not_not] at hother ⊢
    rw [hpcs, hids]
    exact fun _ hask => hleft (hother hidle hask)
  | matched n rows count =>
    rcases h with ⟨hcount, -, hrows⟩ | ⟨-, hws, -⟩
    · refine Or.inl ⟨hcount, hout, hrows.imp id ?_⟩
      rintro ⟨r, hr, hrow⟩
      exact ⟨r, hr, Or.inl (htarget r hrow)⟩
    · cases hws
  | locked n row x rest count =>
    obtain ⟨-, -, -, hrow, hl⟩ := h
    exact absurd hl (hlocked row x hrow)
  | checked n row x rest count =>
    obtain ⟨-, -, -, hrow, hl, -⟩ := h
    exact absurd hl (hlocked row x hrow)
  | failed => exact h
  | _ =>
    rcases h with ⟨hcount, -⟩ | ⟨-, hws⟩
    · exact Or.inl ⟨hcount, hout⟩
    · cases hws

theorem write (h : Core front v back ws st) {n row c : Nat} {x : Int32}
    {rest : List (Nat × Int32)} (hpc : st.pcs t = .checked n row x rest c) :
    Core front v back (ws ++ [t]) ((st.write t row x).goto t (.matched n rest (c + 1))) := by
  obtain ⟨rfl, hws, rfl, htarget, hlock, hfirst⟩ := h.place_of hpc
  have hopen : st.ids t ∈ st.tm.activeIds := h.phase_of hpc
  have hself : ((st.write t row x).goto t (.matched n [] (0 + 1))).pcs t = .matched n [] 1 :=
    Function.update_self _ _ _
  have hother : ((st.write t row x).goto t (.matched n [] (0 + 1))).pcs (!t) = st.pcs (!t) :=
    Function.update_of_ne (by simp) _ _
  have hidle : ∀ s, ((st.write t row x).goto t (.matched n [] (0 + 1))).pcs s ≠ .idle →
      st.pcs s ≠ .idle := by
    intro s hs
    rcases not_eq_or t s with rfl | rfl
    · simp [hpc]
    · rwa [hother] at hs
  refine ⟨h.tidy, h.one, h.good, ?_, ?_, fun s hs => h.begun s (hidle s hs),
    fun s hs hs' => h.ids_ne s (hidle s hs) (hidle _ hs'), fun s => ?_, fun s => ?_⟩
  · show (st.heap.modify row fun w => { w with xmax := st.ids t }) ++ [⟨st.ids t, 0, x + 1⟩] = _
    rcases htarget with htarget | ⟨htarget, rfl, -⟩
    · obtain ⟨rfl, rfl⟩ := Prod.mk.inj htarget
      obtain rfl := hfirst rfl
      rw [h.heap, chain, modify_append_cons]
      simp [chain, Race.goto, Race.write]
    · obtain ⟨rfl, rfl⟩ := Prod.mk.inj htarget
      have hlen : front.length + 1 + back.length =
          (front ++ { v with xmax := st.ids (!t) } :: back).length := by
        simp only [List.length_append, List.length_cons]
        omega
      have hheap : st.heap = (front ++ { v with xmax := st.ids (!t) } :: back) ++
          [(⟨st.ids (!t), 0, v.x + 1⟩ : Version)] := by
        rw [h.heap]
        simp [chain]
      rw [hheap, hlen, modify_append_cons]
      simp [chain, Race.goto, Race.write]
  · rw [List.nodup_append]
    refine ⟨h.nodup, List.pairwise_singleton _ t, fun a ha b hb heq => ?_⟩
    rw [heq, List.mem_singleton.1 hb] at ha
    exact hws ha
  · rcases not_eq_or t s with rfl | rfl
    · rw [hself]
      exact hopen
    · rw [hother]
      exact h.phase (!t)
  · rcases not_eq_or t s with rfl | rfl
    · rw [hself]
      exact Or.inr ⟨rfl, by simp, rfl⟩
    · rw [hother]
      rcases htarget with htarget | ⟨-, rfl, c, hc⟩
      · obtain ⟨rfl, rfl⟩ := Prod.mk.inj htarget
        obtain rfl := hfirst rfl
        exact place_other_write hlock rfl rfl hself (by simp [hpc]) (by simp [hpc, left]) rfl
          (h.place (!t))
      · have hplace := h.place_of hc
        rw [hc]
        rcases hplace with ⟨-, hout⟩ | ⟨hcount, -⟩
        · exact absurd (List.mem_singleton_self _) hout
        · exact Or.inr ⟨hcount, by simp⟩

/-- `unlock_all` keeps the locks of the other session. -/
theorem unlock (h : Core front v back ws st) {c : Nat} (hpc : st.pcs t = .logged c) :
    Core front v back ws
      ({ st with locks := fun r => if st.locks r = some t then none else st.locks r }.goto t
        (.unlocked c)) := by
  have hopen := h.phase_of hpc
  have hplace := h.place_of hpc
  refine h.of_frame (h.still rfl rfl rfl rfl rfl (fun r hr => ?_) (by simp [hpc]) (by simp [hpc])
    (by simp) (by simp [hpc, left])) (h.good t) hopen hplace
  show (if st.locks r = some t then none else st.locks r) = _
  rw [hr, if_neg (by simp)]

theorem remove (h : Core front v back ws st) {c : Nat} (hpc : st.pcs t = .unlocked c) :
    Core front v back ws
      ({ st with tm := st.tm.removeAtt (st.ids t) }.goto t (.removed c)) := by
  have hopen : st.ids t ∈ st.tm.activeIds := h.phase_of hpc
  have hplace := h.place_of hpc
  have hclog := h.tidy.active_undecided _ hopen
  have htidy : Tidy (st.tm.removeAtt (st.ids t)) :=
    ⟨fun x hx => h.tidy.active_lt x (mem_activeIds_removeAtt.1 hx).1,
      fun x hx => h.tidy.active_undecided x (mem_activeIds_removeAtt.1 hx).1,
      h.tidy.future, h.tidy.zero, h.tidy.next_pos⟩
  refine h.of_frame (show Frame st _ t (.removed c) from
    ⟨rfl, rfl, rfl, htidy, Or.inl ⟨rfl, by simp [hpc]⟩, le_refl _, fun x hx => ?_, fun _ _ => rfl,
      fun _ _ => rfl, fun _ hr => hr, by simp [hpc], by simp, fun _ => rfl⟩)
    (h.good t) ⟨fun hx => ?_, hclog⟩ hplace
  · exact mem_activeIds_removeAtt.trans (and_iff_left hx)
  · exact (mem_activeIds_removeAtt.1 hx).2 rfl

theorem decide (h : Core front v back ws st) {c : Nat} (hpc : st.pcs t = .deciding c) :
    Core front v back ws
      ({ st with tm := st.tm.setClog (st.ids t) .committed }.goto t (.committed c)) := by
  obtain ⟨hout, hclog⟩ := h.phase_of hpc
  have hplace := h.place_of hpc
  obtain ⟨hpos, hlt⟩ := h.begun t (by simp [hpc])
  have hsame : ∀ x ≠ st.ids t, (st.tm.setClog (st.ids t) .committed).clog x = st.tm.clog x :=
    fun x hx => Function.update_of_ne hx _ _
  have hdec : ∀ x, st.tm.clog x ≠ .inProgress →
      (st.tm.setClog (st.ids t) .committed).clog x = st.tm.clog x :=
    fun x hx => hsame x fun heq => hx (heq ▸ hclog)
  have htidy : Tidy (st.tm.setClog (st.ids t) .committed) := by
    refine ⟨h.tidy.active_lt, fun x hx => ?_, fun x hx => ?_, ?_, h.tidy.next_pos⟩
    · rw [hsame x fun heq => hout (heq ▸ hx)]
      exact h.tidy.active_undecided x hx
    · have hx : st.tm.nextTxnId ≤ x := hx
      rw [hsame x (by omega)]
      exact h.tidy.future x hx
    · rw [hsame 0 (by omega)]
      exact h.tidy.zero
  exact h.of_frame (show Frame st _ t (.committed c) from
    ⟨rfl, rfl, rfl, htidy, Or.inl ⟨rfl, by simp [hpc]⟩, le_refl _, fun _ _ => Iff.rfl, hsame, hdec,
      fun _ hr => hr, by simp [hpc], by simp, fun _ => rfl⟩)
    ((h.good t).of_decided hdec) (Function.update_self _ _ _) hplace

/-- One step of a session that has not failed. -/
theorem next (h : Core front v back ws st) (hclear : st.Clear (t, .next))
    (hstep : st.next t (st.pcs t) = some st') : Inv front v back st' := by
  cases hpc : st.pcs t with
  | idle =>
    rw [hpc] at hstep
    cases hstep
    exact Or.inr ⟨ws, h.begin hpc⟩
  | attempt m =>
    cases m with
    | zero =>
      rw [hpc] at hstep
      cases hstep
      exact Or.inl ⟨t, Function.update_self _ _ _⟩
    | succ m =>
      rw [hpc] at hstep
      cases hstep
      exact Or.inr ⟨ws, h.snapshot hpc⟩
  | snapped m snap =>
    rw [hpc] at hstep
    cases hstep
    simp only [Clear, hpc] at hclear
    exact Or.inr ⟨ws, h.matching hpc hclear⟩
  | matched m rows c =>
    cases rows with
    | nil =>
      rw [hpc] at hstep
      cases hstep
      have hopen := h.phase_of hpc
      have hplace := h.place_of hpc
      refine Or.inr ⟨ws, h.goto (by simp [hpc]) (by simp [hpc]) (by simp) (by simp [hpc, left])
        hopen ?_⟩
      rcases hplace with ⟨hc, hws, -⟩ | ⟨hc, hws, -⟩
      · exact Or.inl ⟨hc, hws⟩
      · exact Or.inr ⟨hc, hws⟩
    | cons r rest =>
      obtain ⟨row, x⟩ := r
      simp only [hpc, Race.next, Option.ite_none_right_eq_some] at hstep
      cases hstep.2
      exact Or.inr ⟨ws, h.lock hpc hstep.1⟩
  | locked m row x rest c =>
    rw [hpc] at hstep
    cases hstep
    simp only [Clear, hpc] at hclear
    exact h.recheck hpc hclear
  | checked m row x rest c =>
    rw [hpc] at hstep
    cases hstep
    exact Or.inr ⟨ws ++ [t], h.write hpc⟩
  | updated c =>
    rw [hpc] at hstep
    cases hstep
    have hopen := h.phase_of hpc
    have hplace := h.place_of hpc
    exact Or.inr ⟨ws, h.goto (by simp [hpc]) (by simp [hpc]) (by simp) (by simp [hpc, left]) hopen
      hplace⟩
  | logged c =>
    rw [hpc] at hstep
    cases hstep
    exact Or.inr ⟨ws, h.unlock hpc⟩
  | unlocked c =>
    rw [hpc] at hstep
    cases hstep
    exact Or.inr ⟨ws, h.remove hpc⟩
  | removed c =>
    have hphase := h.phase_of hpc
    have hplace := h.place_of hpc
    simp only [hpc, Race.next, if_pos hphase.2] at hstep
    cases hstep
    exact Or.inr ⟨ws, h.goto (by simp [hpc]) (by simp [hpc]) (by simp) (fun _ => rfl) hphase
      hplace⟩
  | deciding c =>
    rw [hpc] at hstep
    cases hstep
    exact Or.inr ⟨ws, h.decide hpc⟩
  | committed c =>
    rw [hpc] at hstep
    cases hstep
  | failed =>
    rw [hpc] at hstep
    cases hstep

end Core

theorem recheck_pcs_other {n row c : Nat} {x : Int32} {rest : List (Nat × Int32)} :
    (st.recheck t n row x rest c).pcs (!t) = st.pcs (!t) := by
  have hgoto : ∀ (r : Race) (pc : UpdatePc), (r.goto t pc).pcs (!t) = r.pcs (!t) :=
    fun _ _ => Function.update_of_ne (by simp) _ _
  unfold recheck
  split
  · exact hgoto _ _
  · split
    · split <;> exact hgoto _ _
    · exact hgoto _ _

/-- A session moves only itself. -/
theorem step_pcs_other {a : UpdateAct} (h : st.step (t, a) = some st') :
    st'.pcs (!t) = st.pcs (!t) := by
  have hgoto : ∀ (r : Race) (pc : UpdatePc), (r.goto t pc).pcs (!t) = r.pcs (!t) :=
    fun _ _ => Function.update_of_ne (by simp) _ _
  unfold step at h
  dsimp only at h
  split at h
  · unfold next at h
    split at h <;> first
      | (cases h; exact hgoto _ _)
      | (cases h; exact recheck_pcs_other)
      | (split at h <;> cases h <;> exact hgoto _ _)
      | cases h
  · cases h
    exact hgoto _ _
  · cases h
  · cases h
  · cases h
    exact hgoto _ _

/-- **The step lemma.** -/
theorem Inv.step {l : Bool × UpdateAct} (h : Inv front v back st) (hclear : st.Clear l)
    (hstep : st.step l = some st') : Inv front v back st' := by
  obtain ⟨t, a⟩ := l
  rcases h with ⟨s, hs⟩ | ⟨ws, h⟩
  · -- a failed session stays failed
    rcases not_eq_or t s with rfl | rfl
    · cases a with
      | next =>
        simp only [Race.step, hs, Race.next] at hstep
        cases hstep
      | duplicate => exact hclear.elim
      | fail =>
        simp only [Race.step, hs] at hstep
        cases hstep
        exact Or.inl ⟨s, Function.update_self _ _ _⟩
    · exact Or.inl ⟨!t, by rw [step_pcs_other hstep, hs]⟩
  · cases a with
    | next => exact h.next hclear hstep
    | duplicate => exact hclear.elim
    | fail =>
      cases hpc : st.pcs t with
      | committed c =>
        simp only [Race.step, hpc] at hstep
        cases hstep
      | _ =>
        simp only [Race.step, hpc] at hstep
        cases hstep
        exact Or.inl ⟨t, Function.update_self _ _ _⟩

/-- Before either transaction has begun. -/
structure Start (front : List Version) (v : Version) (back : List Version) (st : Race) :
    Prop where
  tidy : Tidy st.tm
  one : OneLive st.tm front v back
  good : ∀ t, Good st.tm (st.caches t)
  heap : st.heap = front ++ v :: back
  pcs : ∀ t, st.pcs t = .idle

theorem Start.inv (h : Start front v back st) : Inv front v back st := by
  refine Or.inr ⟨[], h.tidy, h.one, h.good, h.heap, List.nodup_nil, fun t ht => ?_,
    fun t ht => absurd (h.pcs t) ht, fun t => ?_, fun t => ?_⟩
  · exact absurd (h.pcs t) ht
  · rw [h.pcs t]
    trivial
  · rw [h.pcs t]
    exact List.not_mem_nil

/-- What a transaction that begins now sees of the row. -/
def seenAfresh (st : Race) : List Int32 :=
  (scan (st.tm.begin.2.snapshot st.tm.begin.1) st.tm.begin.2 0 st.heap []).1.map Prod.snd

/-- Both have written and committed: a new snapshot sees the last version only. -/
theorem Core.seenAfresh (h : Core front v back [t, u] st)
    (hdone : ∀ s, st.pcs s = .committed 1) : st.seenAfresh = [v.x + 2] := by
  have htidy := h.tidy.begin
  have hone : OneLive st.tm.begin.2 front v back :=
    h.one.of_decided (fun _ _ => rfl) h.tidy.zero h.tidy.zero
  have hcover : Covers st.tm.begin.2 (st.tm.begin.2.snapshot st.tm.begin.1) front v back := by
    refine ⟨fun w hw => ?_, h.tidy.future st.tm.nextTxnId (le_refl _)⟩
    obtain ⟨hmin, hmax⟩ := hone.decided w hw
    exact ⟨htidy.asks_of_decided hmin, fun hne => htidy.asks_of_decided (hmax.resolve_left hne)⟩
  have hclog : ∀ s, st.tm.begin.2.clog (st.ids s) = .committed := fun s => h.phase_of (hdone s)
  have hdec : ∀ s, st.tm.begin.2.clog (st.ids s) ≠ .inProgress := by simp [hclog]
  have hpos : ∀ s, 0 < st.ids s := fun s => (h.begun s (by simp [hdone s])).1
  have hsees : ∀ s, Sees (st.tm.begin.2.snapshot st.tm.begin.1) st.tm.begin.2 (st.ids s) :=
    fun s => (sees_of_decided (htidy.asks_of_decided (hdec s)) hcover.own (hdec s)).2 (hclog s)
  have hsafe : ∀ w ∈ st.heap, Safe (st.tm.begin.2.snapshot st.tm.begin.1) st.tm.begin.2 w := by
    have hfirst : Safe (st.tm.begin.2.snapshot st.tm.begin.1) st.tm.begin.2 v :=
      hone.safe htidy.zero (by simp)
    intro w hw
    rw [h.heap] at hw
    simp only [chain, List.mem_append, List.mem_cons, List.not_mem_nil, or_false] at hw
    rcases hw with hw | rfl | hw | rfl | rfl
    · exact hone.safe htidy.zero (by simp [hw])
    · exact ⟨hfirst.1, hfirst.2.1, fun _ => sure_of_decided (hdec t)⟩
    · exact hone.safe htidy.zero (by simp [hw])
    · exact ⟨hpos t, fun _ => sure_of_decided (hdec t), fun _ => sure_of_decided (hdec u)⟩
    · exact ⟨hpos u, fun _ => sure_of_decided (hdec u), fun hask => absurd hask.1 (lt_irrefl 0)⟩
  have hgood : Good st.tm.begin.2 [] := fun e he => by cases he
  have hrows := hone.rows_both hcover htidy.zero (hsees t) (hsees u) (hpos t) (hpos u)
  unfold Race.seenAfresh
  rw [(scan_eq hgood hsafe).1, h.heap, hrows]
  simp [Int32.add_assoc]

/-- **No update is lost outside the window.** Over every interleaving in which no
matching and no recheck looks up the other transaction between its removal from
the active transaction table and its write to the commit log, and no index
insertion reports a unique violation: when both statements have updated one row
and both COMMITs have returned, a fresh snapshot sees one version, two up. -/
theorem both_updates_count (front : List Version) (v : Version) (back : List Version) (st : Race)
    (ls : List (Bool × UpdateAct)) (hstart : Start front v back st)
    (hrun : Follows step Clear st ls) (hdone : ∀ t, (after step st ls).pcs t = .committed 1) :
    (after step st ls).seenAfresh = [v.x + 2] := by
  have hinv : Inv front v back (after step st ls) := hrun.invariant (fun h => h.step) hstart.inv
  obtain ⟨t, ht⟩ | ⟨ws, h⟩ := hinv
  · rw [hdone t] at ht
    cases ht
  · -- both are among the writers, and there are no others
    have hmem : ∀ t, t ∈ ws := by
      intro t
      rcases h.place_of (hdone t) with ⟨hc, -⟩ | ⟨-, hmem⟩
      · cases hc
      · exact hmem
    match ws, hmem, h with
    | [], hmem, _ => exact absurd (hmem true) List.not_mem_nil
    | [s], hmem, _ =>
      have := hmem (!s)
      simp at this
    | [s, s'], _, h => exact h.seenAfresh hdone
    | s :: s' :: s'' :: rest, _, h =>
      have hnodup := h.nodup
      cases s <;> cases s' <;> cases s'' <;> simp at hnodup

/-- A row with `x = 10`, written by transaction 1. -/
def tenRace : Race where
  tm := ⟨2, [], fun x => if x = 1 then .committed else .inProgress⟩
  caches := fun _ => []
  wheres := fun _ _ => true
  heap := [⟨1, 0, 10⟩]
  locks := fun _ => none
  ids := fun _ => 0
  pcs := fun _ => .idle

/-- So many steps of one session. -/
def steps (t : Bool) (n : Nat) : List (Bool × UpdateAct) := List.replicate n (t, .next)

theorem start_tenRace : Start [] ⟨1, 0, 10⟩ [] tenRace := by
  refine ⟨⟨?_, ?_, ?_, rfl, by decide⟩, ⟨?_, ?_, ?_⟩, ?_, rfl, fun _ => rfl⟩
  · intro x hx
    cases hx
  · intro x hx
    cases hx
  · intro x hx
    have hx : 2 ≤ x := hx
    exact if_neg (by omega)
  · decide
  · unfold Live
    decide
  · intro w hw
    cases hw
  · intro t e he
    cases he

/-- The second updater matches the old version, waits, and restarts on the new. -/
theorem both_updates_count_with_restart :
    (after step tenRace
      (steps false 6 ++ steps true 3 ++ steps false 6 ++ steps true 13)).seenAfresh = [10 + 2] :=
  both_updates_count [] ⟨1, 0, 10⟩ [] tenRace
    (steps false 6 ++ steps true 3 ++ steps false 6 ++ steps true 13) start_tenRace
    (by decide +kernel) (by decide +kernel)

/-- **The window loses an update.** The first session stands between the removal
from the table and the commit log while the second matches, locks, rechecks and
writes: the second overwrites a deletion it takes for aborted. Both statements
return `Ok(1)`, both COMMITs return, and a fresh snapshot sees two versions. -/
theorem update_lost_in_commit_window : ¬ ∀ (front : List Version) (v : Version)
    (back : List Version) (st : Race) (ls : List (Bool × UpdateAct)), Start front v back st →
    Follows step (fun _ _ => True) st ls → (∀ t, (after step st ls).pcs t = .committed 1) →
    (after step st ls).seenAfresh = [v.x + 2] := by
  intro h
  have hrun := h [] ⟨1, 0, 10⟩ [] tenRace
    (steps false 10 ++ steps true 7 ++ steps false 2 ++ steps true 5) start_tenRace
    (by decide +kernel) (by decide +kernel)
  exact absurd hrun (by decide +kernel)

end Race

end Ccdb
