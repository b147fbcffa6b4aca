import Ccdb.Txn.LockCalls

/-!
# Ccdb — what the queues are left with

`grant_waiting` runs when a row is released and at no other time. A call that gives up
in front of readers, or an Exclusive holder that asks for Shared, leaves requests in the
queue that the walk would grant; an upgrade that only joins the queue leaves a request
nobody sleeps for, and what it is granted later belongs to no call.

Main results:

* `grantWalk_stuck` — after a walk there is nothing left to grant.
* `tidy_iff` — queues and holders are as they should be along exactly the runs without
  these three kinds of step.
-/

namespace Ccdb.Locks

/-- `grant_waiting` would grant none of the requests. -/
def Stuck (h : Holders) (q : List LockRequest) : Prop := grantWalk h q = (h, q)

/-- What stops the walk: an Exclusive holder, or an Exclusive request at the head. -/
def Halts (h : Holders) : List LockRequest → Prop
  | [] => True
  | req :: _ => (∃ x, h.lookup x = some .exclusive) ∨ ((∃ u, u ∈ h) ∧ req.mode = .exclusive)

theorem not_grantable {h : Holders} {req : LockRequest} (hnone : h.lookup req.txnId = none)
    (hhalt : (∃ x, h.lookup x = some .exclusive) ∨ ((∃ u, u ∈ h) ∧ req.mode = .exclusive)) :
    ¬ grantable h req = true := by
  intro hg
  have hout : req.txnId ∉ h := AList.lookup_eq_none.1 hnone
  have hsole : ¬ ∀ u ∈ h, u = req.txnId := by
    intro hall
    rcases hhalt with ⟨x, hx⟩ | ⟨⟨u, hu⟩, -⟩
    · exact hout (hall x (mem_of_lookup hx) ▸ mem_of_lookup hx)
    · exact hout (hall u hu ▸ hu)
  rcases compatible_of_grantable hg with ⟨hshared, hno⟩ | hall
  · rcases hhalt with ⟨x, hx⟩ | ⟨-, hex⟩
    · exact hno x hx
    · rw [hshared] at hex
      cases hex
  · exact hsole hall

/-- Under an Exclusive holder that queues for nothing the walk goes through without a grant. -/
theorem stuck_of_exclusive {h : Holders} {q : List LockRequest} {x : Nat}
    (hx : h.lookup x = some .exclusive) (hq : ∀ e ∈ q, h.lookup e.txnId = none) : Stuck h q := by
  induction q with
  | nil => rfl
  | cons req rest ih =>
    have hrest := ih fun e he => hq e (List.mem_cons_of_mem _ he)
    unfold Stuck at hrest ⊢
    unfold grantWalk
    rw [if_neg (not_grantable (hq req List.mem_cons_self) (.inl ⟨x, hx⟩)), hrest, ite_self]

theorem stuck_iff {h : Holders} {q : List LockRequest} (hq : ∀ e ∈ q, h.lookup e.txnId = none) :
    Stuck h q ↔ Halts h q := by
  cases q with
  | nil => exact iff_of_true rfl trivial
  | cons req rest =>
    constructor
    · intro hstuck
      unfold Stuck at hstuck
      unfold grantWalk at hstuck
      split at hstuck
      · -- a request that is granted leaves the queue
        have hlen := (grantWalk_sublist (h.insert req.txnId req.mode) rest).length_le
        rw [hstuck, List.length_cons] at hlen
        omega
      · next hg =>
        cases hm : req.mode with
        | shared => exact .inl (exists_exclusive_of_skip hm hg)
        | exclusive =>
          refine .inr ⟨?_, hm⟩
          by_contra hempty
          refine hg ?_
          unfold grantable
          rw [if_pos]
          rw [List.isEmpty_iff, List.eq_nil_iff_forall_not_mem]
          exact fun u hu => hempty ⟨u, AList.mem_keys.2 hu⟩
    · intro hhalt
      rcases hhalt with ⟨x, hx⟩ | ⟨hu, hm⟩
      · exact stuck_of_exclusive hx hq
      · unfold Stuck grantWalk
        rw [if_neg (not_grantable (hq req List.mem_cons_self) (.inr ⟨hu, hm⟩)), if_pos hm]

/-- After a walk there is nothing left to grant. -/
theorem grantWalk_stuck {h : Holders} {q : List LockRequest}
    (hnodup : (q.map LockRequest.txnId).Nodup) (hq : ∀ e ∈ q, h.lookup e.txnId = none) :
    Stuck (grantWalk h q).1 (grantWalk h q).2 := by
  induction q generalizing h with
  | nil => rfl
  | cons req rest ih =>
    rw [List.map_cons, List.nodup_cons] at hnodup
    unfold grantWalk
    split
    · refine ih hnodup.2 fun e he => ?_
      have hne : e.txnId ≠ req.txnId := fun heq => hnodup.1 (List.mem_map.2 ⟨e, he, heq⟩)
      rw [lookup_insert_of_ne hne]
      exact hq e (List.mem_cons_of_mem _ he)
    · next hg =>
      split
      · next hm =>
        unfold Stuck grantWalk
        rw [if_neg hg, if_pos hm]
      · next hm =>
        -- passed over for an Exclusive holder, which stops all the others too
        have hshared : req.mode = .shared := by
          cases hreq : req.mode with
          | shared => rfl
          | exclusive => exact absurd hreq hm
        obtain ⟨x, hx⟩ := exists_exclusive_of_skip hshared hg
        have hrest := stuck_of_exclusive hx fun e he => hq e (List.mem_cons_of_mem _ he)
        have hall := stuck_of_exclusive hx hq
        unfold Stuck at hrest
        rw [hrest]
        exact hall

namespace LockManager

variable {st st' : LockManager} {act : Act}

/-! ## Steps that leave something behind -/

/-- The head of the queue asks for Shared. -/
def headShared : List LockRequest → Bool
  | [] => false
  | req :: _ => req.mode = .shared

/-- An Exclusive holder asks for Shared while a Shared request is next. -/
def Downgrade (st : LockManager) (txn : Nat) (rid : Rid) (mode : LockMode) : Prop :=
  st.mode rid txn = some .exclusive ∧ mode = .shared ∧ headShared (st.queue rid) = true

/-- The head of the queue, kept waiting by readers, is the transaction's, and a Shared
request is next. -/
def LeavesReaders (st : LockManager) (txn : Nat) (rid : Rid) : Prop :=
  allShared (st.entry rid).holders = true ∧
    match st.queue rid with
    | [] => False
    | req :: rest => req.txnId = txn ∧ headShared rest = true

/-- None of the three kinds of step, and `unlock_all` is passed every row its caller holds. -/
def Orderly (st : LockManager) : Act → Prop
  | .lock txn rid mode => ¬ st.BlockedUpgrade txn rid mode ∧ ¬ st.Downgrade txn rid mode
  | .timeout txn =>
    match st.phase txn with
    | .blocked rid _ => ¬ st.LeavesReaders txn rid
    | _ => True
  | .unlockAll txn rids => ∀ r ∈ (st.held txn).keys, r ∈ rids
  | .wake _ | .release _ => True

instance (st : LockManager) (txn : Nat) (rid : Rid) (mode : LockMode) :
    Decidable (st.Downgrade txn rid mode) := inferInstanceAs (Decidable (_ ∧ _))

instance (st : LockManager) (txn : Nat) (rid : Rid) : Decidable (st.LeavesReaders txn rid) :=
  have : Decidable (match st.queue rid with
      | [] => False
      | req :: rest => req.txnId = txn ∧ headShared rest = true) :=
    match st.queue rid with
    | [] => inferInstanceAs (Decidable False)
    | _ :: _ => inferInstanceAs (Decidable (_ ∧ _))
  inferInstanceAs (Decidable (_ ∧ _))

instance (st : LockManager) : DecidablePred st.Orderly
  | .lock _ _ _ => inferInstanceAs (Decidable (_ ∧ _))
  | .timeout txn =>
    have : Decidable (match st.phase txn with
        | .blocked rid _ => ¬ st.LeavesReaders txn rid
        | _ => True) :=
      match st.phase txn with
      | .blocked rid _ => inferInstanceAs (Decidable (¬ st.LeavesReaders txn rid))
      | .running | .unlocking _ => inferInstanceAs (Decidable True)
    this
  | .unlockAll txn rids => inferInstanceAs (Decidable (∀ r ∈ (st.held txn).keys, r ∈ rids))
  | .wake _ | .release _ => inferInstanceAs (Decidable True)

/-- No request is left that the walk would grant, every request belongs to a call that is
asleep on it, and every holder was answered, or is about to be, and is not through with
`unlock_all`. -/
structure Tidy (st : LockManager) : Prop where
  stuck : ∀ r, Stuck (st.entry r).holders (st.queue r)
  waiting : ∀ r, ∀ e ∈ st.queue r, st.phase e.txnId = .blocked r e.mode
  answered : ∀ r t, (st.mode r t).isSome →
    (r ∈ st.held t ∧ ∀ rids, st.phase t = .unlocking rids → r ∈ rids) ∨
      ∃ m, st.phase t = .blocked r m

/-- What the runs carry. -/
structure Settled (st : LockManager) : Prop where
  alone : ∀ r, Alone (st.entry r).holders
  tracked : Tracked st
  halts : ∀ r, Halts (st.entry r).holders (st.queue r)
  leaving : ∀ t rids, st.phase t = .unlocking rids → ∀ r ∈ st.held t, r ∈ rids

theorem settled_new : Settled new := by
  refine ⟨fun _ => alone_empty, tracked_new, fun _ => trivial, ?_⟩
  intro t rids hp
  cases hp

theorem Settled.tidy (h : Settled st) : Tidy st where
  stuck r := (stuck_iff fun _ he => (h.tracked.asleep he).2).2 (h.halts r)
  waiting r e he := (h.tracked.asleep he).1
  answered := by
    intro r t hm
    obtain ⟨m, hm⟩ := Option.isSome_iff_exists.1 hm
    rcases h.tracked.answered hm with hheld | hblock
    · exact .inl ⟨hheld, fun rids hp => h.leaving t rids hp r hheld⟩
    · exact .inr ⟨m, hblock⟩

/-- A grant at once does not set the walk going again. -/
theorem Settled.halts_granted (h : Settled st) {txn : Nat} {rid : Rid} {mode : LockMode}
    (hgrant : (st.entry rid).canGrant txn mode = true) (hok : ¬ st.Downgrade txn rid mode) :
    Halts ((st.entry rid).holders.insert txn mode) (st.queue rid) := by
  have hhalt := h.halts rid
  cases hq : st.queue rid with
  | nil => trivial
  | cons req rest =>
    rw [hq] at hhalt
    have hin : ∃ u, u ∈ (st.entry rid).holders.insert txn mode :=
      ⟨txn, (AList.mem_insert _).2 (.inl rfl)⟩
    rcases hhalt with ⟨x, hx⟩ | ⟨-, hex⟩
    · cases hl : (st.entry rid).holders.lookup txn with
      | none =>
        -- a newcomer is granted at once only with the queue empty
        simp only [LockState.canGrant, hl] at hgrant
        rw [entry_queue, hq] at hgrant
        cases hgrant
      | some held =>
        obtain rfl := h.alone rid x hx txn (mem_of_lookup hl)
        cases hm : req.mode with
        | exclusive => exact .inr ⟨hin, hm⟩
        | shared =>
          cases mode with
          | exclusive => exact .inl ⟨txn, AList.lookup_insert _⟩
          | shared => exact absurd ⟨hx, rfl, by simp [hq, headShared, hm]⟩ hok
    · exact .inr ⟨hin, hex⟩

/-- A request that is refused is not one the walk would grant. -/
theorem Settled.halts_queued (h : Settled st) {txn : Nat} {rid : Rid} {mode : LockMode}
    (hgrant : (st.entry rid).canGrant txn mode = false) (hl : (st.entry rid).holders.lookup txn = none) :
    Halts (st.entry rid).holders (st.queue rid ++ [⟨txn, mode⟩]) := by
  have hhalt := h.halts rid
  cases hq : st.queue rid with
  | nil =>
    simp only [LockState.canGrant, hl, entry_queue, hq] at hgrant
    cases mode with
    | shared =>
      -- refused beside an Exclusive holder only
      left
      by_contra hno
      have hall : allShared (st.entry rid).holders = true := allShared_iff.2 fun u hu => hno ⟨u, hu⟩
      simp [hall] at hgrant
    | exclusive =>
      refine .inr ⟨?_, rfl⟩
      obtain ⟨u, hu⟩ := List.exists_mem_of_ne_nil (st.entry rid).holders.keys (by
        rintro hnil
        simp [hnil] at hgrant)
      exact ⟨u, AList.mem_keys.2 hu⟩
  | cons req rest =>
    -- the head is who it was
    rw [hq] at hhalt
    exact hhalt

theorem filter_head {req : LockRequest} {rest : List LockRequest} {txn : Nat}
    (hnodup : ((req :: rest).map LockRequest.txnId).Nodup) (ht : req.txnId = txn) :
    (req :: rest).filter (fun r => r.txnId ≠ txn) = rest := by
  rw [List.map_cons, List.nodup_cons] at hnodup
  rw [List.filter_cons_of_neg (by simp [ht]), List.filter_eq_self]
  intro e he
  have hne : e.txnId ≠ txn := by
    rintro rfl
    exact hnodup.1 (List.mem_map.2 ⟨e, he, ht.symm⟩)
  simpa using hne

/-- A call that gives up leaves the next request waiting for what it waited for. -/
theorem Settled.halts_timedOut (h : Settled st) {txn : Nat} {rid : Rid} (hok : ¬ st.LeavesReaders txn rid) :
    Halts (st.entry rid).holders ((st.queue rid).filter fun r => r.txnId ≠ txn) := by
  have hhalt := h.halts rid
  have hnodup := h.tracked.once rid
  cases hq : st.queue rid with
  | nil => trivial
  | cons req rest =>
    rw [hq] at hhalt hnodup
    by_cases ht : req.txnId = txn
    · -- the head gives up: the next must not be a reader that only it kept out
      rw [filter_head hnodup ht]
      cases rest with
      | nil => trivial
      | cons next tl =>
        by_cases hx : ∃ x, (st.entry rid).holders.lookup x = some .exclusive
        · exact .inl hx
        · rcases hhalt with hx' | ⟨hu, -⟩
          · exact absurd hx' hx
          · cases hm : next.mode with
            | exclusive => exact .inr ⟨hu, hm⟩
            | shared =>
              refine absurd ⟨allShared_iff.2 fun u hu => hx ⟨u, hu⟩, ?_⟩ hok
              rw [hq]
              exact ⟨ht, by simp [headShared, hm]⟩
    · rw [List.filter_cons_of_pos (by simp [ht])]
      exact hhalt

theorem Settled.halts_step (h : Settled st) (hs : Does st act st') (hok : st.Orderly act) (r : Rid) :
    Halts (st'.entry r).holders (st'.queue r) := by
  cases hs with
  | granted hrun hgrant =>
    rw [entry_acquired, queue_acquired, entry_setEntry, queue_setEntry]
    split
    · exact h.halts_granted hgrant hok.2
    · exact h.halts r
  | passed hrun hgrant hholds => exact absurd (blockedUpgrade_of_passed hgrant hholds) hok.1
  | queued hrun hgrant hholds =>
    rw [entry_setPhase, queue_setPhase, entry_setEntry, queue_setEntry]
    split
    · exact h.halts_queued hgrant hholds
    · exact h.halts r
  | woken hblock hholds => exact h.halts r
  | timedOut hblock hholds =>
    rw [entry_setPhase, queue_setPhase, entry_setEntry, queue_setEntry]
    split
    · simp only [Orderly, hblock] at hok
      exact h.halts_timedOut hok
    · exact h.halts r
  | unlocking hrun => exact h.halts r
  | unlocked hphase => exact h.halts r
  | @released txn rid rest hphase =>
    show Halts ((st.releaseOne txn rid).entry r).holders ((st.releaseOne txn rid).queue r)
    rw [entry_releaseOne, queue_releaseOne]
    split
    · have hgone : ∀ e ∈ st.queue rid, ((st.entry rid).holders.erase txn).lookup e.txnId = none := by
        intro e he
        rw [lookup_erase, holders_lookup, (h.tracked.asleep he).2, ite_self]
      have hstuck := grantWalk_stuck (h.tracked.once rid) hgone
      exact (stuck_iff (lookup_of_waiting (h.tracked.once rid) hgone)).1 hstuck
    · exact h.halts r

theorem Settled.leaving_step (h : Settled st) (hs : Does st act st') (hok : st.Orderly act) :
    ∀ t rids, st'.phase t = .unlocking rids → ∀ r ∈ st'.held t, r ∈ rids := by
  have hold := h.leaving
  intro t rids hp r hr
  cases hs with
  | granted | passed | woken =>
    simp only [phase_acquired, phase_setEntry, held_acquired, held_setEntry, Function.update_apply] at hp hr
    grind
  | queued | timedOut | unlocked =>
    simp only [phase_setPhase, phase_setEntry, held_setPhase, held_setEntry, Function.update_apply] at hp hr
    grind
  | unlocking hrun =>
    simp only [phase_setPhase, held_setPhase, Function.update_apply] at hp hr
    have hall : ∀ r ∈ (st.held _).keys, r ∈ _ := hok
    grind [AList.mem_keys]
  | released hphase =>
    simp only [Function.update_apply] at hp hr
    grind [AList.mem_erase]

theorem Settled.step (h : Settled st) (hs : st.step act = some st') (hok : st.Orderly act) : Settled st' := by
  have hdoes := step_does hs
  refine ⟨alone_step h.alone hdoes, h.tracked.step hdoes ?_, h.halts_step hdoes hok,
    h.leaving_step hdoes hok⟩
  rintro txn rid mode rfl
  exact hok.1

/-- With readers only the walk stops at an Exclusive request. -/
theorem not_halts_of_shared {h : Holders} {q : List LockRequest} (hh : allShared h = true)
    (hq : headShared q = true) : ¬ Halts h q := by
  cases q with
  | nil => cases hq
  | cons req rest =>
    rintro (⟨x, hx⟩ | ⟨-, hm⟩)
    · exact allShared_iff.1 hh x hx
    · simp [headShared, hm] at hq

theorem not_upgrade_of_tidy {txn : Nat} {rid : Rid} {mode : LockMode}
    (ht : Tidy (st.lock txn rid mode)) : ¬ st.BlockedUpgrade txn rid mode := by
  intro hup
  have hshared := hup.1
  have hgrant := canGrant_of_blockedUpgrade hup
  -- the request is in the queue, and its call has returned
  have hreq : ⟨txn, mode⟩ ∈ (st.lock txn rid mode).queue rid := by
    simp [lock, hgrant, holders_lookup, hshared]
  have hblock := ht.waiting rid _ hreq
  simp [lock, hgrant, holders_lookup, hshared] at hblock

theorem Settled.not_downgrade_of_tidy (h : Settled st) {txn : Nat} {rid : Rid} {mode : LockMode}
    (ht : Tidy (st.lock txn rid mode)) : ¬ st.Downgrade txn rid mode := by
  rintro ⟨hex, rfl, hhead⟩
  have hgrant : (st.entry rid).canGrant txn .shared = true := by
    simp [LockState.canGrant, holders_lookup, hex]
  have hstuck := ht.stuck rid
  simp only [lock, hgrant, if_true, entry_acquired, queue_acquired, entry_setEntry, queue_setEntry] at hstuck
  have hout : ∀ e ∈ st.queue rid, ((st.entry rid).holders.insert txn .shared).lookup e.txnId = none := by
    intro e he
    have hnone := (h.tracked.asleep he).2
    have hne : e.txnId ≠ txn := by
      rintro rfl
      rw [hex] at hnone
      cases hnone
    rw [lookup_insert, if_neg hne]
    exact hnone
  refine not_halts_of_shared ?_ hhead ((stuck_iff hout).1 hstuck)
  rw [allShared_iff]
  intro u hu
  rw [lookup_insert] at hu
  split at hu
  · cases hu
  · next hne => exact hne (h.alone rid txn hex u (mem_of_lookup hu))

theorem Settled.orderly_of_tidy (h : Settled st) (hs : st.step act = some st') (ht : Tidy st') :
    st.Orderly act := by
  cases act with
  | lock txn rid mode =>
    cases hp : st.phase txn with
    | blocked => simp [LockManager.step, hp] at hs
    | unlocking => simp [LockManager.step, hp] at hs
    | running =>
      simp only [LockManager.step, hp, Option.some.injEq] at hs
      subst hs
      exact ⟨not_upgrade_of_tidy ht, h.not_downgrade_of_tidy ht⟩
  | wake => trivial
  | timeout txn =>
    have hdoes := step_does hs
    cases hdoes with
    | @timedOut _ rid mode hblock hholds =>
      simp only [Orderly, hblock]
      rintro ⟨hshared, hq⟩
      have hstuck := ht.stuck rid
      rw [entry_setPhase, queue_setPhase, entry_setEntry, queue_setEntry, if_pos rfl, if_pos rfl] at hstuck
      have hnodup := h.tracked.once rid
      have hout : ∀ e ∈ (st.queue rid).filter (fun r => r.txnId ≠ txn),
          (st.entry rid).holders.lookup e.txnId = none :=
        fun e he => (h.tracked.asleep (List.mem_of_mem_filter he)).2
      have hhalt := (stuck_iff hout).1 hstuck
      cases hqueue : st.queue rid with
      | nil =>
        rw [hqueue] at hq
        exact hq
      | cons req rest =>
        rw [hqueue] at hq hhalt hnodup
        rw [filter_head hnodup hq.1] at hhalt
        exact not_halts_of_shared hshared hq.2 hhalt
  | unlockAll txn rids =>
    have hdoes := step_does hs
    cases hdoes with
    | unlocking hrun =>
      intro r hr
      have hheld : r ∈ st.held txn := AList.mem_keys.2 hr
      rcases ht.answered r txn (h.tracked.kept hheld) with ⟨-, hall⟩ | ⟨m, hblock⟩
      · exact hall rids (by simp)
      · simp at hblock
  | release => trivial

/-- The queues and the holders are as they should be in every state of a run exactly when
no step of the run is of one of the three kinds and `unlock_all` gets all the rows. -/
theorem tidy_iff {acts : List Act} (hrun : Follows step (fun _ _ => True) new acts) :
    Follows step Orderly new acts ↔ ∀ before, before <+: acts → Tidy (after step new before) :=
  follows_iff_prefixes hrun settled_new Settled.tidy (fun h hok hs => h.step hs hok)
    fun h hs ht => h.orderly_of_tidy hs ht

/-- A writer gives up behind another one, and a reader gets the row after it. -/
def writerGivesUp : List Act :=
  [.lock 1 (0, 0) .exclusive, .lock 2 (0, 0) .exclusive, .lock 3 (0, 0) .shared, .timeout 2,
    .unlockAll 1 [(0, 0)], .release 1, .wake 3]

theorem tidy_writerGivesUp : Tidy (after step new writerGivesUp) :=
  (tidy_iff (by decide)).1 (by decide) writerGivesUp List.prefix_rfl

/-- An upgrade next to another reader joins the queue. Both readers leave, and the walk
gives the row to the one that asked, after its `unlock_all`. -/
def upgradeOutlivesCall : List Act :=
  [.lock 1 (0, 0) .shared, .lock 2 (0, 0) .shared, .lock 1 (0, 0) .exclusive,
    .unlockAll 1 [(0, 0)], .release 1, .release 1, .unlockAll 2 [(0, 0)], .release 2]

theorem phantom_grant :
    Follows step (fun _ _ => True) new upgradeOutlivesCall ∧
      ¬ Tidy (after step new upgradeOutlivesCall) := by
  refine ⟨by decide, fun h => ?_⟩
  have hphase : (after step new upgradeOutlivesCall).phase 1 = .running := by decide
  rcases h.answered (0, 0) 1 (by decide) with ⟨hheld, -⟩ | ⟨m, hblock⟩
  · exact absurd hheld (by decide)
  · rw [hphase] at hblock
    cases hblock

end LockManager

end Ccdb.Locks
