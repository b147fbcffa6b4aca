import Ccdb.Lib.Runs
import Ccdb.Txn.Manager

/-!
# Ccdb — what a snapshot sees over a run

`is_visible` as a thread runs it (through the thread's memo of `status`), over
runs of whole manager calls. The history of the calls says when a transaction
committed; the code never looks at it and decides by id comparison, membership
in the active set and a current lookup.

Main results:

* `isVisibleCached_eq` — with a memo that agrees with fresh lookups the memo
  does not show.
* `History.run` — what the table and the commit log hold is what the history of
  the calls says.
* `isVisible_exact` — a snapshot sees its own transaction and those committed
  before it was taken.
-/

namespace Ccdb

open TransactionManager

/-! ## Visibility through the memo -/

/-- `creator_visible`, with the memo before and after. -/
def creatorVisibleCached (xmin : Nat) (snap : Snapshot) (tm : TransactionManager)
    (cache : StatusCache) : Bool × StatusCache :=
  if xmin = snap.txnId then (true, cache)
  else if snap.xmax ≤ xmin then (false, cache)
  else if xmin ∈ snap.active then (false, cache)
  else
    match tm.statusCached cache xmin with
    | (.committed, cache') => (true, cache')
    | (.aborted, cache') => (false, cache')
    | (.inProgress, cache') => (false, cache')

/-- `is_visible`, with the memo before and after. -/
def isVisibleCached (xmin xmax : Nat) (snap : Snapshot) (tm : TransactionManager)
    (cache : StatusCache) : Bool × StatusCache :=
  match creatorVisibleCached xmin snap tm cache with
  | (false, cache') => (false, cache')
  | (true, cache') =>
    if xmax = invalidTxnId then (true, cache')
    else if xmax = snap.txnId then (false, cache')
    else if snap.xmax ≤ xmax then (true, cache')
    else if xmax ∈ snap.active then (true, cache')
    else
      match tm.statusCached cache' xmax with
      | (.committed, cache'') => (false, cache'')
      | (.aborted, cache'') => (true, cache'')
      | (.inProgress, cache'') => (true, cache'')

/-- The ids a snapshot looks up. -/
def Snapshot.Asks (snap : Snapshot) (x : Nat) : Prop :=
  0 < x ∧ x < snap.xmax ∧ x ∉ snap.active

/-- The memo calls the same ids committed as a fresh lookup does, among those
in `P`. -/
def TransactionManager.Agrees (tm : TransactionManager) (P : Nat → Prop) (cache : StatusCache) :
    Prop :=
  ∀ x, P x → ((tm.statusCached cache x).1 = .committed ↔ tm.status x = .committed)

variable {tm : TransactionManager} {cache : StatusCache} {P : Nat → Prop} {snap : Snapshot}
  {x xmin xmax : Nat}

theorem TransactionManager.statusCached_fst : (tm.statusCached cache x).1 =
    ((cache.find? fun e => e.1 = x).map Prod.snd).getD (tm.status x) := by
  unfold statusCached
  cases cache.find? fun e => e.1 = x with
  | some e => rfl
  | none => cases hs : tm.status x <;> simp

/-- A lookup leaves the memo or puts the outcome in front of it, or of nothing. -/
theorem TransactionManager.statusCached_snd : (tm.statusCached cache x).2 = cache ∨
    (tm.statusCached cache x).2 = [(x, tm.status x)] ∨
    (tm.statusCached cache x).2 = (x, tm.status x) :: cache := by
  unfold statusCached
  cases cache.find? fun e => e.1 = x with
  | some e => exact Or.inl rfl
  | none =>
    by_cases hfull : CACHE_LIMIT ≤ cache.length
    · cases hs : tm.status x <;> simp [hfull]
    · cases hs : tm.status x <;> simp [hfull]

theorem TransactionManager.Agrees.lookup (h : tm.Agrees P cache) (x : Nat) :
    tm.Agrees P (tm.statusCached cache x).2 := by
  intro y hy
  have hold := h y hy
  rcases (statusCached_snd : (tm.statusCached cache x).2 = cache ∨ _) with heq | heq | heq
  · rwa [heq]
  · rw [heq, statusCached_fst]
    by_cases hxy : x = y
    · simp [hxy]
    · simp [hxy]
  · rw [heq, statusCached_fst]
    rw [statusCached_fst] at hold
    by_cases hxy : x = y
    · simp [hxy]
    · rw [List.find?_cons_of_neg (by simpa using hxy)]
      exact hold

theorem creatorVisibleCached_eq (h : tm.Agrees snap.Asks cache) (hmin : 0 < xmin) :
    (creatorVisibleCached xmin snap tm cache).1 = creatorVisible xmin snap tm ∧
      tm.Agrees snap.Asks (creatorVisibleCached xmin snap tm cache).2 := by
  unfold creatorVisibleCached creatorVisible
  split
  · exact ⟨rfl, h⟩
  · split
    · exact ⟨rfl, h⟩
    · next hlt =>
      split
      · exact ⟨rfl, h⟩
      · next hact =>
        have hval := h xmin ⟨hmin, by omega, hact⟩
        have hnext := h.lookup xmin
        generalize tm.statusCached cache xmin = r at hval hnext
        obtain ⟨s, cache'⟩ := r
        dsimp only at hval hnext
        -- an open creator and an aborted one are treated alike
        cases s <;> cases hs : tm.status xmin <;> simp_all

/-- The memo does not show in the answer. -/
theorem isVisibleCached_eq (h : tm.Agrees snap.Asks cache) (hmin : 0 < xmin) :
    (isVisibleCached xmin xmax snap tm cache).1 = isVisible xmin xmax snap tm := by
  obtain ⟨hval, hnext⟩ := creatorVisibleCached_eq h hmin
  unfold isVisibleCached isVisible
  generalize creatorVisibleCached xmin snap tm cache = r at hval hnext
  obtain ⟨b, cache'⟩ := r
  dsimp only at hval hnext
  rw [← hval]
  cases b with
  | false => rfl
  | true =>
    simp only [Bool.not_true, Bool.false_eq_true, if_false]
    split
    · rfl
    · next hmax =>
      split
      · rfl
      · split
        · rfl
        · next hlt =>
          split
          · rfl
          · next hact =>
            have hdel := hnext xmax ⟨Nat.pos_of_ne_zero hmax, by omega, hact⟩
            generalize tm.statusCached cache' xmax = d at hdel
            obtain ⟨s, cache''⟩ := d
            dsimp only at hdel
            cases s <;> cases hs : tm.status xmax <;> simp_all

/-! ## Runs of manager calls -/

/-- An id that `begin` has handed out. -/
def TransactionManager.Begun (tm : TransactionManager) (id : Nat) : Prop :=
  0 < id ∧ id < tm.nextTxnId

instance (tm : TransactionManager) (id : Nat) : Decidable (tm.Begun id) :=
  inferInstanceAs (Decidable (_ ∧ _))

/-- Every transaction begun is in the table or has an outcome. -/
def TransactionManager.Settled (tm : TransactionManager) : Prop :=
  ∀ x, tm.Begun x → x ∈ tm.activeIds ∨ tm.clog x ≠ .inProgress

theorem TransactionManager.Settled.decide (h : tm.Settled) {s : TxnStatus} (hs : s ≠ .inProgress)
    (id : Nat) : ((tm.removeAtt id).decideClog id s).Settled := by
  intro x hx
  rw [Begun, nextTxnId_decideClog] at hx
  rw [activeIds_decideClog, mem_activeIds_removeAtt, clog_decideClog]
  by_cases hxid : x = id
  · refine Or.inr ?_
    split
    · exact hs
    · next hcase => exact fun hprog => hcase ⟨hxid, hxid ▸ hprog⟩
  · rw [if_neg fun hcase => hxid hcase.1]
    exact (h x hx).imp_left fun hact => ⟨hact, hxid⟩

theorem TransactionManager.Step.settled {tm' : TransactionManager} (hstep : Step tm tm')
    (hwf : tm.WF) (h : tm.Settled) : tm'.Settled := by
  cases hstep with
  | begin =>
    intro x hx
    have hlt : x < tm.nextTxnId + 1 := hx.2
    rw [mem_activeIds_begin hwf]
    rcases Nat.lt_succ_iff_lt_or_eq.1 hlt with hlt | rfl
    · exact (h x ⟨hx.1, hlt⟩).imp_left Or.inr
    · exact Or.inl (Or.inl rfl)
  | updateLastLsn id lsn =>
    intro x hx
    rw [activeIds_updateLastLsn]
    exact h x hx
  | commit id => exact h.decide (by decide) id
  | abort id => exact h.decide (by decide) id

/-- The manager and the memo of each thread. -/
structure Registry where
  tm : TransactionManager
  caches : Nat → StatusCache

/-- `TransactionManager::new` over an empty commit log. -/
def Registry.new : Registry := ⟨⟨1, [], fun _ => .inProgress⟩, fun _ => []⟩

/-- One call, made by some thread. A snapshot changes nothing and is read off
the state it is taken in. -/
inductive Call where
  | begin
  | updateLastLsn (id lsn : Nat)
  | commit (id : Nat)
  | abort (id : Nat)
  | status (thread id : Nat)
deriving DecidableEq, Repr

def Registry.call (r : Registry) : Call → Registry
  | .begin => { r with tm := r.tm.begin.2 }
  | .updateLastLsn id lsn => { r with tm := r.tm.updateLastLsn id lsn }
  | .commit id => { r with tm := r.tm.commit id }
  | .abort id => { r with tm := r.tm.abort id }
  | .status thread id =>
    { r with caches :=
        Function.update r.caches thread (r.tm.statusCached (r.caches thread) id).2 }

def Registry.step (r : Registry) (c : Call) : Option Registry := some (r.call c)

/-- The calls name transactions that were begun. -/
def Registry.OnBegun (r : Registry) : Call → Prop
  | .begin => True
  | .updateLastLsn _ _ => True
  | .commit id => r.tm.Begun id
  | .abort id => r.tm.Begun id
  | .status _ id => r.tm.Begun id

instance (r : Registry) (c : Call) : Decidable (r.OnBegun c) := by
  cases c <;> unfold Registry.OnBegun <;> infer_instance

/-- What the call decides about a transaction. -/
def Call.decides (x : Nat) : Call → Option TxnStatus
  | .commit id => if id = x then some .committed else none
  | .abort id => if id = x then some .aborted else none
  | _ => none

/-- The first decision of the history on a transaction. -/
def outcome (calls : List Call) (x : Nat) : Option TxnStatus :=
  calls.findSome? (Call.decides x)

/-- The transaction committed during the calls. -/
def CommittedIn (calls : List Call) (x : Nat) : Prop := outcome calls x = some .committed

/-- The table and the commit log hold what the history says, and no memo is
wrong. -/
structure History (calls : List Call) (r : Registry) : Prop where
  wf : r.tm.WF
  settled : r.tm.Settled
  caches : ∀ thread, r.tm.CacheOk (r.caches thread)
  clog : ∀ x, r.tm.clog x = (outcome calls x).getD .inProgress

variable {calls before later : List Call} {r : Registry}

theorem outcome_ne_inProgress {s : TxnStatus} (h : outcome calls x = some s) :
    s ≠ .inProgress := by
  obtain ⟨c, -, hc⟩ := List.exists_of_findSome?_eq_some h
  cases c with
  | commit id | abort id =>
    simp only [Call.decides, Option.ite_none_right_eq_some] at hc
    rw [← Option.some.inj hc.2]
    decide
  | begin => cases hc
  | updateLastLsn id lsn => cases hc
  | status thread id => cases hc

theorem outcome_append :
    outcome (before ++ later) x = (outcome before x).or (outcome later x) := by
  unfold outcome
  rw [List.findSome?_append]

/-- One more decision on `id`: it counts when there was none before. -/
theorem clog_of_decides {s : TxnStatus} {id : Nat}
    (hclog : ∀ x, tm.clog x = (outcome calls x).getD .inProgress) {c : Call}
    (hc : ∀ x, c.decides x = if id = x then some s else none) (x : Nat) :
    ((tm.removeAtt id).decideClog id s).clog x =
      (outcome (calls ++ [c]) x).getD .inProgress := by
  have hlast : outcome [c] x = if id = x then some s else none := by
    simp [outcome, List.findSome?, hc]
    split <;> simp_all
  rw [clog_decideClog, outcome_append, hlast]
  show (if x = id ∧ tm.clog id = .inProgress then s else tm.clog x) = _
  rw [hclog, hclog]
  by_cases hx : x = id
  · subst hx
    cases ho : outcome calls x with
    | none => simp
    | some s' => simp [outcome_ne_inProgress ho]
  · have hx' : ¬ id = x := fun h => hx h.symm
    simp [hx, hx']

/-- A call that decides nothing adds nothing to the history. -/
theorem outcome_undecided {c : Call} (hc : ∀ x, c.decides x = none) :
    outcome (calls ++ [c]) x = outcome calls x := by
  rw [outcome_append]
  have : outcome [c] x = none := by simp [outcome, hc]
  simp [this]

namespace History

/-- A call that is a step of the manager keeps the memos right. -/
theorem of_step (h : History calls r) {tm' : TransactionManager} {c : Call}
    (hstep : TransactionManager.Step r.tm tm')
    (hclog : ∀ x, tm'.clog x = (outcome (calls ++ [c]) x).getD .inProgress) :
    History (calls ++ [c]) { r with tm := tm' } :=
  ⟨hstep.wf h.wf, hstep.settled h.wf h.settled, fun thread => (h.caches thread).step h.wf hstep, hclog⟩

theorem call (h : History calls r) {c : Call} (hok : r.OnBegun c) :
    History (calls ++ [c]) (r.call c) := by
  cases c with
  | begin =>
    refine h.of_step (.begin r.tm) fun x => ?_
    rw [outcome_undecided fun _ => rfl]
    exact h.clog x
  | updateLastLsn id lsn =>
    refine h.of_step (.updateLastLsn r.tm id lsn) fun x => ?_
    rw [outcome_undecided fun _ => rfl]
    exact h.clog x
  | commit id =>
    exact h.of_step (.commit r.tm id (h.settled id hok)) (clog_of_decides h.clog fun _ => rfl)
  | abort id =>
    exact h.of_step (.abort r.tm id (h.settled id hok)) (clog_of_decides h.clog fun _ => rfl)
  | status thread id =>
    refine ⟨h.wf, h.settled, fun t => ?_, fun x => ?_⟩
    · show r.tm.CacheOk (Function.update r.caches thread _ t)
      by_cases ht : t = thread
      · subst ht
        rw [Function.update_self]
        exact ((h.caches t).status_eq hok.2).2
      · rw [Function.update_of_ne ht]
        exact h.caches t
    · rw [outcome_undecided fun _ => rfl]
      exact h.clog x

/-- **The run lemma**: the calls made so far and those still to come. -/
theorem run (h : History before r) (hrun : Follows Registry.step Registry.OnBegun r later) :
    History (before ++ later) (after Registry.step r later) := by
  induction later generalizing before r with
  | nil => simpa [after] using h
  | cons c later ih =>
    obtain ⟨hok, r', hr, hrest⟩ := follows_cons.1 hrun
    cases hr
    rw [after_cons rfl]
    simpa using ih (h.call hok) hrest

theorem new : History [] Registry.new := by
  refine ⟨⟨?_, ?_, ?_, ?_, rfl, by decide⟩, fun x hx => ?_, ?_, fun _ => rfl⟩
  · intro x hx
    cases hx
  · intro x hx
    cases hx
  · exact fun _ _ => rfl
  · exact List.not_mem_nil
  · have hlt : x < 1 := hx.2
    have hpos := hx.1
    omega
  · intro thread e he
    cases he

/-- The status of a decided transaction is its outcome in the history. -/
theorem status_eq (h : History calls r) {s : TxnStatus} (hs : outcome calls x = some s) :
    r.tm.status x = s := by
  have hclog : r.tm.clog x = s := by rw [h.clog, hs]; rfl
  have hne := outcome_ne_inProgress hs
  unfold status
  rw [hclog]
  cases s with
  | inProgress => exact absurd rfl hne
  | committed => rfl
  | aborted => rfl

/-- A begun transaction is in the table until the history decides it. -/
theorem mem_activeIds (h : History calls r) (hx : r.tm.Begun x) :
    x ∈ r.tm.activeIds ↔ outcome calls x = none := by
  constructor
  · intro hact
    have hclog := h.clog x
    rw [h.wf.active_undecided x hact] at hclog
    cases ho : outcome calls x with
    | none => rfl
    | some s =>
      rw [ho] at hclog
      exact absurd hclog.symm (outcome_ne_inProgress ho)
  · intro ho
    rcases h.settled x hx with hact | hdec
    · exact hact
    · rw [h.clog, ho] at hdec
      exact absurd rfl hdec

end History

/-- What the snapshot sees, by the history: its own transaction, and those that
committed before it was taken. -/
theorem sees_iff_committedIn {r₁ : Registry} {txn : Nat} (h₀ : History before r)
    (h₁ : History (before ++ later) r₁) (hx : 0 < x) :
    Sees (r.tm.snapshot txn) r₁.tm x ↔ x = txn ∨ CommittedIn before x := by
  refine or_congr Iff.rfl ⟨?_, fun hc => ?_⟩
  · rintro ⟨hlt, hact, hs⟩
    -- begun and no longer in the table: decided before the snapshot, for good
    have hout : outcome before x ≠ none := fun ho =>
      hact ((h₀.mem_activeIds ⟨hx, hlt⟩).2 ho)
    obtain ⟨s, ho⟩ := Option.ne_none_iff_exists'.1 hout
    have hlater : outcome (before ++ later) x = some s := by rw [outcome_append, ho]; rfl
    rw [h₁.status_eq hlater] at hs
    rw [CommittedIn, ho, hs]
  · have hc : outcome before x = some .committed := hc
    have hlt : x < r.tm.nextTxnId := lt_of_committed h₀.wf (h₀.status_eq hc)
    have hact : x ∉ r.tm.activeIds := by
      rw [h₀.mem_activeIds ⟨hx, hlt⟩, hc]
      exact Option.some_ne_none _
    have hlater : outcome (before ++ later) x = some .committed := by rw [outcome_append, hc]; rfl
    exact ⟨hlt, hact, h₁.status_eq hlater⟩

/-- The lookups a snapshot needs go through the memo unchanged. -/
theorem History.agrees (h : History calls r) (thread : Nat) (hle : snap.xmax ≤ r.tm.nextTxnId) :
    r.tm.Agrees snap.Asks (r.caches thread) :=
  fun _ hx => by rw [((h.caches thread).status_eq (lt_of_lt_of_le hx.2.1 hle)).1]

theorem nextTxnId_call_le (r : Registry) (c : Call) : r.tm.nextTxnId ≤ (r.call c).tm.nextTxnId := by
  cases c with
  | begin => exact Nat.le_succ _
  | updateLastLsn id lsn => exact le_refl _
  | commit id => exact (show (r.tm.commit id).nextTxnId = r.tm.nextTxnId from nextTxnId_decideClog).ge
  | abort id => exact (show (r.tm.abort id).nextTxnId = r.tm.nextTxnId from nextTxnId_decideClog).ge
  | status thread id => exact le_refl _

theorem nextTxnId_after_le (hrun : Follows Registry.step Registry.OnBegun r later) :
    r.tm.nextTxnId ≤ (after Registry.step r later).tm.nextTxnId := by
  refine hrun.invariant (I := fun r' => r.tm.nextTxnId ≤ r'.tm.nextTxnId) ?_ (le_refl _)
  intro r₁ c r₂ hle _ hstep
  cases hstep
  exact le_trans hle (nextTxnId_call_le r₁ c)

/-- **Snapshot isolation is exact.** Over any run of whole calls: a snapshot
taken after `before` and used after `later`, by any thread, sees a tuple when
its creator is the snapshot's own transaction or committed before the snapshot,
and its deleter is neither. Every begun id is positive; nothing else is asked of
`xmin` and `xmax`. -/
theorem isVisible_exact (before later : List Call) (txn thread xmin xmax : Nat)
    (hrun : Follows Registry.step Registry.OnBegun Registry.new (before ++ later))
    (hmin : 0 < xmin) :
    (isVisibleCached xmin xmax ((after Registry.step Registry.new before).tm.snapshot txn)
        (after Registry.step Registry.new (before ++ later)).tm
        ((after Registry.step Registry.new (before ++ later)).caches thread)).1 = true ↔
      (xmin = txn ∨ CommittedIn before xmin) ∧
        ¬ (xmax ≠ 0 ∧ (xmax = txn ∨ CommittedIn before xmax)) := by
  obtain ⟨hbefore, hlater⟩ := follows_append.1 hrun
  have h₀ := History.new.run hbefore
  rw [List.nil_append] at h₀
  have h₁ := h₀.run hlater
  have hnext := nextTxnId_after_le hlater
  rw [hbefore.after_append]
  rw [isVisibleCached_eq (h₁.agrees thread hnext) hmin, isVisible_iff]
  refine and_congr (sees_iff_committedIn h₀ h₁ hmin) ?_
  rw [not_and]
  refine imp_congr_right fun hne => not_congr (sees_iff_committedIn h₀ h₁ ?_)
  exact Nat.pos_of_ne_zero hne

/-- Two rows under the snapshot of transaction 3: one that 1 created and 2,
still open then, deleted; and one that 2 created. -/
theorem isVisible_exact_concurrent_delete :
    (isVisibleCached 1 2
        ((after Registry.step Registry.new [.begin, .begin, .commit 1, .begin]).tm.snapshot 3)
        (after Registry.step Registry.new
          ([.begin, .begin, .commit 1, .begin] ++ [.commit 2, .status 0 2])).tm
        ((after Registry.step Registry.new
          ([.begin, .begin, .commit 1, .begin] ++ [.commit 2, .status 0 2])).caches 0)).1 = true ↔
      (1 = 3 ∨ CommittedIn [.begin, .begin, .commit 1, .begin] 1) ∧
        ¬ (2 ≠ 0 ∧ (2 = 3 ∨ CommittedIn [.begin, .begin, .commit 1, .begin] 2)) :=
  isVisible_exact [.begin, .begin, .commit 1, .begin] [.commit 2, .status 0 2] 3 0 1 2
    (by decide) (by decide)

end Ccdb
