import Ccdb.Txn.LockManager

/-!
# Ccdb — what a lock call promises

Two ways of asking for a row one already holds are answered `Ok` with less than was
asked for: an upgrade while there are other holders only joins the queue, and a Shared
request of an Exclusive holder replaces its mode.

Main results:

* `Tracked.step` — without upgrades of the first kind the queues hold the sleeping calls,
  and the holders are the transactions that were answered.
* `honoured_iff` — `lock` keeps its word along exactly the runs without either kind.
-/

namespace Ccdb.Locks

/-- "The existing lock covers it." -/
def LockMode.covers (held mode : LockMode) : Prop := held = .exclusive ∨ mode = .shared

instance (held mode : LockMode) : Decidable (held.covers mode) := inferInstanceAs (Decidable (_ ∨ _))

/-! ## The walk -/

theorem lookup_grantWalk (h : Holders) (q : List LockRequest) (t : Nat) :
    (grantWalk h q).1.lookup t = h.lookup t ∨
      ∃ e ∈ q, e.txnId = t ∧ (grantWalk h q).1.lookup t = some e.mode := by
  induction q generalizing h with
  | nil => exact .inl rfl
  | cons req rest ih =>
    unfold grantWalk
    split
    · rcases ih (h.insert req.txnId req.mode) with hsame | ⟨e, he, het, hmode⟩
      · by_cases ht : req.txnId = t
        · refine .inr ⟨req, List.mem_cons_self, ht, ?_⟩
          rw [hsame, ht, AList.lookup_insert]
        · rw [hsame]
          exact .inl (lookup_insert_of_ne (Ne.symm ht))
      · exact .inr ⟨e, List.mem_cons_of_mem _ he, het, hmode⟩
    · split
      · exact .inl rfl
      · rcases ih h with hsame | ⟨e, he, het, hmode⟩
        · exact .inl hsame
        · exact .inr ⟨e, List.mem_cons_of_mem _ he, het, hmode⟩

theorem lookup_grantWalk_of_absent {h : Holders} {q : List LockRequest} {t : Nat}
    (ht : ∀ e ∈ q, e.txnId ≠ t) : (grantWalk h q).1.lookup t = h.lookup t := by
  rcases lookup_grantWalk h q t with hsame | ⟨e, he, het, -⟩
  · exact hsame
  · exact absurd het (ht e he)

/-- Who still waits after the walk did not get the row. -/
theorem lookup_of_waiting {h : Holders} {q : List LockRequest}
    (hnodup : (q.map LockRequest.txnId).Nodup) (hq : ∀ e ∈ q, h.lookup e.txnId = none) :
    ∀ e ∈ (grantWalk h q).2, (grantWalk h q).1.lookup e.txnId = none := by
  induction q generalizing h with
  | nil =>
    intro e he
    cases he
  | cons req rest ih =>
    rw [List.map_cons, List.nodup_cons] at hnodup
    have hne : ∀ e ∈ rest, e.txnId ≠ req.txnId := by
      intro e he heq
      exact hnodup.1 (List.mem_map.2 ⟨e, he, heq⟩)
    intro e he
    unfold grantWalk at he ⊢
    split at he
    · next hg =>
      rw [if_pos hg]
      refine ih hnodup.2 (fun e' he' => ?_) e he
      rw [lookup_insert_of_ne (hne e' he')]
      exact hq e' (List.mem_cons_of_mem _ he')
    · next hg =>
      rw [if_neg hg]
      split at he
      · next hm =>
        rw [if_pos hm]
        exact hq e he
      · next hm =>
        rw [if_neg hm]
        rcases List.mem_cons.1 he with rfl | he
        · rw [lookup_grantWalk_of_absent hne]
          exact hq e List.mem_cons_self
        · exact ih hnodup.2 (fun e' he' => hq e' (List.mem_cons_of_mem _ he')) e he

theorem lookup_insert {α : Type*} [DecidableEq α] (h : AList fun _ : α => LockMode) (a b : α)
    (m : LockMode) : (h.insert a m).lookup b = if b = a then some m else h.lookup b := by
  split
  · next hb => rw [hb, AList.lookup_insert]
  · next hb => exact AList.lookup_insert_ne hb

theorem lookup_erase {α : Type*} [DecidableEq α] (h : AList fun _ : α => LockMode) (a b : α) :
    (h.erase a).lookup b = if b = a then none else h.lookup b := by
  split
  · next hb => rw [hb, AList.lookup_erase]
  · next hb => exact AList.lookup_erase_ne hb

namespace LockManager

variable {st st' : LockManager} {act : Act} {txn : Nat} {rid : Rid}

/-! ## What a step changes -/

theorem holders_lookup (st : LockManager) (rid : Rid) (t : Nat) :
    (st.entry rid).holders.lookup t = st.mode rid t := rfl

theorem entry_queue (st : LockManager) (rid : Rid) : (st.entry rid).waitQueue = st.queue rid := rfl

@[simp] theorem mode_setEntry (st : LockManager) (rid r : Rid) (s : LockState) (t : Nat) :
    (st.setEntry rid s).mode r t = if r = rid then s.holders.lookup t else st.mode r t := by
  unfold mode
  rw [entry_setEntry]
  split <;> rfl

@[simp] theorem queue_setEntry (st : LockManager) (rid r : Rid) (s : LockState) :
    (st.setEntry rid s).queue r = if r = rid then s.waitQueue else st.queue r := by
  unfold queue
  rw [entry_setEntry]
  split <;> rfl

@[simp] theorem phase_setEntry (st : LockManager) (rid : Rid) (s : LockState) :
    (st.setEntry rid s).phase = st.phase := rfl

@[simp] theorem held_setEntry (st : LockManager) (rid : Rid) (s : LockState) :
    (st.setEntry rid s).held = st.held := rfl

@[simp] theorem mode_setPhase (st : LockManager) (txn : Nat) (p : Phase) :
    (st.setPhase txn p).mode = st.mode := rfl

@[simp] theorem queue_setPhase (st : LockManager) (txn : Nat) (p : Phase) :
    (st.setPhase txn p).queue = st.queue := rfl

@[simp] theorem phase_setPhase (st : LockManager) (txn : Nat) (p : Phase) :
    (st.setPhase txn p).phase = Function.update st.phase txn p := rfl

@[simp] theorem held_setPhase (st : LockManager) (txn : Nat) (p : Phase) :
    (st.setPhase txn p).held = st.held := rfl

@[simp] theorem mode_acquired (st : LockManager) (txn : Nat) (rid : Rid) (m : LockMode) :
    (st.acquired txn rid m).mode = st.mode := rfl

@[simp] theorem queue_acquired (st : LockManager) (txn : Nat) (rid : Rid) (m : LockMode) :
    (st.acquired txn rid m).queue = st.queue := rfl

@[simp] theorem phase_acquired (st : LockManager) (txn : Nat) (rid : Rid) (m : LockMode) :
    (st.acquired txn rid m).phase = Function.update st.phase txn .running := rfl

@[simp] theorem held_acquired (st : LockManager) (txn : Nat) (rid : Rid) (m : LockMode) :
    (st.acquired txn rid m).held = Function.update st.held txn
      ((st.held txn).insert rid (stronger ((st.held txn).lookup rid) m)) := rfl

/-- A transaction gives a row up; what it is doing and what it holds are set aside. -/
theorem mode_releaseOne (st : LockManager) (txn : Nat) (rid r : Rid) (t : Nat) :
    (st.releaseOne txn rid).mode r t =
      if r = rid then (grantWalk ((st.entry rid).holders.erase txn) (st.queue rid)).1.lookup t
      else st.mode r t := by
  unfold mode
  rw [entry_releaseOne]
  split <;> rfl

theorem queue_releaseOne (st : LockManager) (txn : Nat) (rid r : Rid) :
    (st.releaseOne txn rid).queue r =
      if r = rid then (grantWalk ((st.entry rid).holders.erase txn) (st.queue rid)).2
      else st.queue r := by
  conv_lhs => unfold queue
  rw [entry_releaseOne]
  split <;> rfl

theorem mode_released {p : Nat → Phase} {hd : Nat → AList fun _ : Rid => LockMode}
    (r : Rid) (t : Nat) :
    mode ⟨(st.releaseOne txn rid).table, p, hd⟩ r t = (st.releaseOne txn rid).mode r t := rfl

theorem queue_released {p : Nat → Phase} {hd : Nat → AList fun _ : Rid => LockMode} (r : Rid) :
    queue ⟨(st.releaseOne txn rid).table, p, hd⟩ r = (st.releaseOne txn rid).queue r := rfl

/-- A holder that is refused asks for Exclusive next to others. -/
def BlockedUpgrade (st : LockManager) (txn : Nat) (rid : Rid) (mode : LockMode) : Prop :=
  st.mode rid txn = some .shared ∧ mode = .exclusive ∧ ∃ u ∈ (st.entry rid).holders.keys, u ≠ txn

instance (st : LockManager) (txn : Nat) (rid : Rid) (mode : LockMode) :
    Decidable (st.BlockedUpgrade txn rid mode) := inferInstanceAs (Decidable (_ ∧ _))

theorem exists_other {h : Holders} (hmem : txn ∈ h) (hlen : h.keys.length ≠ 1) :
    ∃ u ∈ h.keys, u ≠ txn := by
  by_contra hno
  have hall : ∀ u ∈ h.keys, u = txn := by
    intro u hu
    by_contra hne
    exact hno ⟨u, hu, hne⟩
  have hrep := List.eq_replicate_of_mem hall
  have hnodup := h.keys_nodup
  rw [hrep, List.nodup_replicate] at hnodup
  have hpos : 0 < h.keys.length := List.length_pos_of_mem (AList.mem_keys.1 hmem)
  omega

theorem blockedUpgrade_of_passed {mode : LockMode}
    (hgrant : (st.entry rid).canGrant txn mode = false)
    (hholds : ((st.entry rid).holders.lookup txn).isSome = true) : st.BlockedUpgrade txn rid mode := by
  cases hl : (st.entry rid).holders.lookup txn with
  | none =>
    rw [hl] at hholds
    cases hholds
  | some held =>
    simp only [LockState.canGrant, hl] at hgrant
    split at hgrant
    · cases hgrant
    · next hcover =>
      have hother := exists_other (mem_of_lookup hl) (by simpa using hgrant)
      rw [not_or] at hcover
      refine ⟨?_, ?_, hother⟩
      · cases held with
        | shared => exact hl
        | exclusive => exact absurd rfl hcover.1
      · cases mode with
        | exclusive => rfl
        | shared => exact absurd rfl hcover.2

/-! ## Calls and rows -/

/-- The queues hold the calls that are asleep, and the holders are the transactions that
were answered or are about to be. -/
structure Tracked (st : LockManager) : Prop where
  asleep : ∀ {r e}, e ∈ st.queue r → st.phase e.txnId = .blocked r e.mode ∧ st.mode r e.txnId = none
  once : ∀ r, ((st.queue r).map LockRequest.txnId).Nodup
  answered : ∀ {r t m}, st.mode r t = some m → r ∈ st.held t ∨ st.phase t = .blocked r m
  kept : ∀ {r t}, r ∈ st.held t → (st.mode r t).isSome
  fresh : ∀ {r t m}, st.phase t = .blocked r m → r ∉ st.held t

theorem tracked_new : Tracked new where
  asleep := by
    intro r e he
    cases he
  once _ := .nil
  answered := by
    intro r t m hm
    cases hm
  kept := by
    intro r t hr
    exact absurd hr (AList.notMem_empty r)
  fresh := by
    intro r t m hb
    cases hb

/-- A row is given up, and the walk answers some of those that queue for it. -/
theorem Tracked.released (h : Tracked st) {rest : List Rid}
    (hphase : st.phase txn = .unlocking (rid :: rest)) :
    Tracked { st.releaseOne txn rid with
      phase := Function.update st.phase txn (.unlocking rest)
      held := Function.update st.held txn ((st.held txn).erase rid) } := by
  obtain ⟨asleep, once, answered, kept, fresh⟩ := h
  have hgone : ∀ e ∈ st.queue rid, ((st.entry rid).holders.erase txn).lookup e.txnId = none := by
    intro e he
    rw [lookup_erase, holders_lookup, (asleep he).2, ite_self]
  have hsub := grantWalk_sublist ((st.entry rid).holders.erase txn) (st.queue rid)
  have hwait := lookup_of_waiting (once rid) hgone
  have hwalk := lookup_grantWalk ((st.entry rid).holders.erase txn) (st.queue rid)
  simp only [lookup_erase, holders_lookup] at hwalk
  constructor
  · intro r e he
    rw [queue_released, queue_releaseOne] at he
    rw [mode_released, mode_releaseOne]
    split at he
    · next hr =>
      subst hr
      have hblock := (asleep (hsub.subset he)).1
      refine ⟨?_, ?_⟩
      · show Function.update st.phase txn (.unlocking rest) e.txnId = _
        grind
      · rw [if_pos rfl]
        exact hwait e he
    · next hr =>
      have := asleep he
      simp only [Function.update_apply]
      grind
  · intro r
    rw [queue_released, queue_releaseOne]
    split
    · exact (once rid).sublist (hsub.map _)
    · exact once r
  · intro r t m hm
    rw [mode_released, mode_releaseOne] at hm
    simp only [Function.update_apply]
    grind [AList.mem_erase]
  · intro r t hr
    rw [mode_released, mode_releaseOne]
    simp only [Function.update_apply] at hr
    grind [AList.mem_erase]
  · intro r t m hb
    simp only [Function.update_apply] at hb ⊢
    grind

/-- A transaction that makes a call is not asleep, so no request is its own. -/
theorem Tracked.granted (h : Tracked st) {mode : LockMode}
    (hrun : st.phase txn = .running) : Tracked ((st.setEntry rid { st.entry rid with
      holders := (st.entry rid).holders.insert txn mode }).acquired txn rid mode) := by
  obtain ⟨asleep, once, answered, kept, fresh⟩ := h
  constructor <;> simp only [mode_acquired, mode_setEntry, queue_acquired, queue_setEntry, phase_acquired,
    held_acquired, phase_setEntry, held_setEntry, Function.update_apply, lookup_insert, holders_lookup, entry_queue]
    <;> grind [AList.mem_insert]

theorem Tracked.queued (h : Tracked st) {mode : LockMode}
    (hrun : st.phase txn = .running) (hholds : st.mode rid txn = none) :
    Tracked ((st.setEntry rid { st.entry rid with
      waitQueue := (st.entry rid).waitQueue ++ [⟨txn, mode⟩] }).setPhase txn (.blocked rid mode)) := by
  obtain ⟨asleep, once, answered, kept, fresh⟩ := h
  constructor <;> simp only [mode_setPhase, mode_setEntry, queue_setPhase, queue_setEntry, phase_setPhase,
    held_setPhase, phase_setEntry, held_setEntry, Function.update_apply, holders_lookup, entry_queue]
    <;> grind

theorem Tracked.woken (h : Tracked st) {mode : LockMode}
    (hblock : st.phase txn = .blocked rid mode) (hholds : (st.mode rid txn).isSome = true) :
    Tracked (st.acquired txn rid mode) := by
  obtain ⟨asleep, once, answered, kept, fresh⟩ := h
  constructor <;> simp only [mode_acquired, queue_acquired, phase_acquired, held_acquired,
    Function.update_apply] <;> grind [AList.mem_insert]

theorem Tracked.timedOut (h : Tracked st) {mode : LockMode}
    (hblock : st.phase txn = .blocked rid mode) (hholds : st.mode rid txn = none) :
    Tracked ((st.setEntry rid { st.entry rid with
      waitQueue := (st.entry rid).waitQueue.filter fun r => r.txnId ≠ txn }).setPhase txn .running) := by
  obtain ⟨asleep, once, answered, kept, fresh⟩ := h
  constructor <;> simp only [mode_setPhase, mode_setEntry, queue_setPhase, queue_setEntry, phase_setPhase,
    held_setPhase, phase_setEntry, held_setEntry, Function.update_apply, holders_lookup, entry_queue]
    <;> grind

/-- Nobody who is awake goes to sleep. -/
theorem Tracked.setPhase (h : Tracked st) {phase : Phase}
    (hawake : ∀ r m, st.phase txn ≠ .blocked r m) (hphase : ∀ r m, phase ≠ .blocked r m) :
    Tracked (st.setPhase txn phase) := by
  obtain ⟨asleep, once, answered, kept, fresh⟩ := h
  constructor <;> simp only [mode_setPhase, queue_setPhase, phase_setPhase, held_setPhase,
    Function.update_apply] <;> grind

theorem Tracked.step (h : Tracked st) (hs : Does st act st')
    (hok : ∀ txn rid mode, act = .lock txn rid mode → ¬ st.BlockedUpgrade txn rid mode) : Tracked st' := by
  cases hs with
  | granted hrun hgrant => exact h.granted hrun
  | passed hrun hgrant hholds => exact absurd (blockedUpgrade_of_passed hgrant hholds) (hok _ _ _ rfl)
  | queued hrun hgrant hholds => exact h.queued hrun ((holders_lookup _ _ _).symm.trans hholds)
  | woken hblock hholds => exact h.woken hblock (holders_lookup st _ _ ▸ hholds)
  | timedOut hblock hholds => exact h.timedOut hblock ((holders_lookup _ _ _).symm.trans hholds)
  | unlocking hrun => exact h.setPhase (by simp [hrun]) (by simp)
  | unlocked hrun => exact h.setPhase (by simp [hrun]) (by simp)
  | released hphase => exact h.released hphase

/-! ## What `Ok` promises -/

/-- Every row `lock` has answered `Ok` for is held in a mode that covers the strongest
one asked for, and alone where that is Exclusive. -/
def Honoured (st : LockManager) : Prop :=
  ∀ t r m, (st.held t).lookup r = some m →
    (∃ held, st.mode r t = some held ∧ held.covers m) ∧
      (m = .exclusive → ∀ u, (st.mode r u).isSome → u = t)

/-- No Shared request for a row held in Exclusive mode, no upgrade next to other holders. -/
def Consistent (st : LockManager) : Act → Prop
  | .lock txn rid mode =>
    ¬ (st.mode rid txn = some .exclusive ∧ mode = .shared) ∧ ¬ st.BlockedUpgrade txn rid mode
  | _ => True

instance (st : LockManager) : DecidablePred st.Consistent
  | .lock _ _ _ => inferInstanceAs (Decidable (_ ∧ _))
  | .wake _ | .timeout _ | .unlockAll _ _ | .release _ => inferInstanceAs (Decidable True)

/-- The mode of the table is the strongest one asked for. -/
def Agrees (st : LockManager) : Prop := ∀ t r m, (st.held t).lookup r = some m → st.mode r t = some m

theorem stronger_of_ne {held : Option LockMode} {mode : LockMode}
    (h : held = some .exclusive → mode = .exclusive) : stronger held mode = mode := by
  cases held with
  | none => rfl
  | some m =>
    cases m with
    | shared => rfl
    | exclusive => exact (h rfl).symm

theorem Agrees.step (ha : Agrees st) (h : Tracked st) (hs : Does st act st')
    (hok : st.Consistent act) : Agrees st' := by
  intro t r m hm
  cases hs with
  | @granted txn rid mode hrun hgrant =>
    have hstrong : stronger ((st.held txn).lookup rid) mode = mode := by
      refine stronger_of_ne fun hheld => ?_
      have hnot := hok.1
      rw [ha _ _ _ hheld] at hnot
      cases mode with
      | exclusive => rfl
      | shared => exact absurd ⟨rfl, rfl⟩ hnot
    simp only [mode_acquired, mode_setEntry, held_acquired, held_setEntry, Function.update_apply,
      lookup_insert, holders_lookup, hstrong] at hm ⊢
    by_cases ht : t = txn
    · subst ht
      by_cases hr : r = rid
      · subst hr
        simpa [lookup_insert] using hm
      · simp only [if_neg hr, if_true, lookup_insert] at hm ⊢
        exact ha _ _ _ hm
    · simp only [if_neg ht] at hm ⊢
      split
      · next hr =>
        rw [← hr]
        exact ha _ _ _ hm
      · exact ha _ _ _ hm
  | passed hrun hgrant hholds => exact absurd (blockedUpgrade_of_passed hgrant hholds) hok.2
  | queued hrun hgrant hholds =>
    simp only [mode_setPhase, mode_setEntry, held_setPhase, held_setEntry, holders_lookup] at hm ⊢
    have := ha _ _ _ hm
    grind
  | @woken txn rid mode hblock hholds =>
    -- the row is new to the caller, and the walk gave it the mode the call asked for
    have hnew : (st.held txn).lookup rid = none := AList.lookup_eq_none.2 (h.fresh hblock)
    have hmode : st.mode rid txn = some mode := by
      obtain ⟨m', hm'⟩ := Option.isSome_iff_exists.1 hholds
      rcases h.answered hm' with hheld | hasleep
      · exact absurd hheld (h.fresh hblock)
      · rw [hblock] at hasleep
        cases hasleep
        exact hm'
    simp only [held_acquired, hnew, Function.update_apply] at hm
    rw [mode_acquired]
    by_cases ht : t = txn
    · subst ht
      rw [if_pos rfl, lookup_insert] at hm
      by_cases hr : r = rid
      · subst hr
        rw [if_pos rfl] at hm
        rw [← hm]
        exact hmode
      · rw [if_neg hr] at hm
        exact ha _ _ _ hm
    · rw [if_neg ht] at hm
      exact ha _ _ _ hm
  | timedOut hblock hholds =>
    simp only [mode_setPhase, mode_setEntry, held_setPhase, held_setEntry, holders_lookup] at hm ⊢
    have := ha _ _ _ hm
    grind
  | unlocking hrun => exact ha _ _ _ hm
  | unlocked hrun => exact ha _ _ _ hm
  | @released txn rid rest hphase =>
    rw [mode_released, mode_releaseOne]
    simp only [Function.update_apply] at hm
    by_cases hr : r = rid
    · subst hr
      rw [if_pos rfl]
      by_cases ht : t = txn
      · subst ht
        rw [if_pos rfl, lookup_erase, if_pos rfl] at hm
        cases hm
      · rw [if_neg ht] at hm
        have hold := ha _ _ _ hm
        -- a holder has no request in the queue, so the walk leaves its mode
        have habsent : ∀ e ∈ st.queue r, e.txnId ≠ t := by
          rintro e he rfl
          rw [(h.asleep he).2] at hold
          cases hold
        rw [lookup_grantWalk_of_absent habsent, lookup_erase, if_neg ht]
        exact hold
    · rw [if_neg hr]
      by_cases ht : t = txn
      · subst ht
        rw [if_pos rfl, lookup_erase, if_neg hr] at hm
        exact ha _ _ _ hm
      · rw [if_neg ht] at hm
        exact ha _ _ _ hm

/-- What the runs below carry. -/
structure Kept (st : LockManager) : Prop where
  alone : ∀ r, Alone (st.entry r).holders
  tracked : Tracked st
  agrees : Agrees st

theorem kept_new : Kept new := by
  refine ⟨fun _ => alone_empty, tracked_new, ?_⟩
  intro t r m hm
  cases hm

theorem Kept.step (h : Kept st) (hs : st.step act = some st') (hok : st.Consistent act) : Kept st' := by
  have hdoes := step_does hs
  refine ⟨alone_step h.alone hdoes, h.tracked.step hdoes ?_, h.agrees.step h.tracked hdoes hok⟩
  rintro txn rid mode rfl
  exact hok.2

theorem Kept.honoured (h : Kept st) : Honoured st := by
  intro t r m hm
  have hmode := h.agrees _ _ _ hm
  refine ⟨⟨m, hmode, ?_⟩, ?_⟩
  · cases m with
    | shared => exact .inr rfl
    | exclusive => exact .inl rfl
  · rintro rfl u hu
    exact h.alone r t hmode u (mem_iff_lookup.2 hu)

theorem canGrant_of_blockedUpgrade {mode : LockMode}
    (h : st.BlockedUpgrade txn rid mode) : (st.entry rid).canGrant txn mode = false := by
  obtain ⟨hshared, rfl, u, hu, hne⟩ := h
  rw [← holders_lookup] at hshared
  unfold LockState.canGrant
  rw [hshared]
  have hlen : (st.entry rid).holders.keys.length ≠ 1 := by
    intro hlen
    exact hne (sole_of_length hlen (mem_of_lookup hshared) u (AList.mem_keys.2 hu))
  simp [hlen]

theorem Kept.held_of_mode (h : Kept st) (hrun : st.phase txn = .running)
    {mode : LockMode} (hm : st.mode rid txn = some mode) : (st.held txn).lookup rid = some mode := by
  rcases h.tracked.answered hm with hheld | hblock
  · obtain ⟨m, hlook⟩ := Option.isSome_iff_exists.1 (AList.lookup_isSome.2 hheld)
    rw [h.agrees _ _ _ hlook] at hm
    rw [hlook, hm]
  · rw [hrun] at hblock
    cases hblock

/-- After a step of one of the two kinds the mode of the table no longer covers. -/
theorem Kept.consistent_of_honoured (h : Kept st) (hs : st.step act = some st') (hh : Honoured st') :
    st.Consistent act := by
  cases act with
  | lock txn rid mode =>
    cases hp : st.phase txn with
    | blocked => simp [LockManager.step, hp] at hs
    | unlocking => simp [LockManager.step, hp] at hs
    | running =>
      simp only [LockManager.step, hp, Option.some.injEq] at hs
      subst hs
      refine ⟨?_, ?_⟩
      · rintro ⟨hex, rfl⟩
        have hheld := h.held_of_mode hp hex
        have hgrant : (st.entry rid).canGrant txn .shared = true := by
          simp [LockState.canGrant, holders_lookup, hex]
        obtain ⟨⟨held, hmode, hcovers⟩, -⟩ := hh txn rid .exclusive (by
          simp [lock, hgrant, hheld, stronger])
        simp [lock, hgrant] at hmode
        rcases hcovers with rfl | hcovers
        · cases hmode
        · cases hcovers
      · intro hup
        have hshared := hup.1
        have hheld := h.held_of_mode hp hshared
        have hgrant := canGrant_of_blockedUpgrade hup
        rw [hup.2.1] at hh hgrant
        obtain ⟨⟨held, hmode, hcovers⟩, -⟩ := hh txn rid .exclusive (by
          simp [lock, hgrant, hheld, stronger, holders_lookup, hshared])
        simp [lock, hgrant, holders_lookup, hshared] at hmode
        rcases hcovers with rfl | hcovers
        · cases hmode
        · cases hcovers
  | wake => trivial
  | timeout => trivial
  | unlockAll => trivial
  | release => trivial

/-- `lock` keeps its word in every state of a run exactly when no call of the run is of
one of the two kinds. -/
theorem honoured_iff {acts : List Act} (hrun : Follows step (fun _ _ => True) new acts) :
    Follows step Consistent new acts ↔ ∀ before, before <+: acts → Honoured (after step new before) :=
  follows_iff_prefixes hrun kept_new Kept.honoured (fun h hok hs => h.step hs hok)
    fun h hs hh => h.consistent_of_honoured hs hh

/-- A reader upgrades alone, and another one has to wait for it. -/
def upgradeAlone : List Act :=
  [.lock 1 (0, 0) .shared, .lock 1 (0, 0) .exclusive, .lock 2 (0, 0) .shared, .unlockAll 1 [(0, 0)],
    .release 1, .wake 2]

theorem honoured_upgradeAlone : Honoured (after step new upgradeAlone) :=
  (honoured_iff (by decide)).1 (by decide) upgradeAlone List.prefix_rfl

/-- Two readers, one of which asks for more. -/
def upgradeNextToReader : List Act :=
  [.lock 1 (0, 0) .shared, .lock 2 (0, 0) .shared, .lock 1 (0, 0) .exclusive]

theorem upgrade_is_not_honoured :
    Follows step (fun _ _ => True) new upgradeNextToReader ∧ ¬ Honoured (after step new upgradeNextToReader) := by
  refine ⟨by decide, fun h => ?_⟩
  have htwo := (h 1 (0, 0) .exclusive (by decide)).2 rfl 2 (by decide)
  cases htwo

end LockManager

end Ccdb.Locks
