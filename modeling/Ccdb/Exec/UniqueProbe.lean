import Ccdb.Exec.Trace

/-!
# Ccdb — the two uniqueness probes

`check_unique_or_wait` runs after a row was written, `detect_unique_conflict`
before INSERT ... ON CONFLICT writes it. Each is a loop of passes over the
index entries of a key; a pass raises a conflict, waits for a transaction, or
finds nothing. The two decision trees differ in one leaf: a row the caller
inserted and deleted itself.

Main results:

* `detectCandidate_eq` — that leaf.
* `probes_agree_iff` — the passes agree, and neither waits on the caller,
  exactly when no such row is reached.
-/

namespace Ccdb

open BTree (liftE)

/-- The caller is a transaction that has begun and is not over. -/
structure Running (s : Ctx) : Prop where
  begun : s.tx.id ≠ invalidTxnId
  inProgress : s.tm.status s.tx.id = .inProgress

/-! ## Passes -/

/-- One pass of a probe over the index entries of `key`: the first candidate
that decides. -/
def probe (judge : TransactionManager → Nat → HeapTuple → Verdict) (keep : Rid → Bool)
    (idx : IndexDef) (key : Bytes) (ty : DataType) : ExecM (Option (Rid × Verdict)) := do
  let s ← getCtx
  let candidates ← onPool (BTree.lookupEq idx.rootPageId key ty)
  onPool (judgeAll (judge s.tm s.tx.id) (candidates.filter keep))

/-- What a pass says: `skip` when no candidate decides. -/
def passVerdict : Option (Rid × Verdict) → Verdict
  | none => .skip
  | some (_, v) => v

/-- A conflict, a transaction to wait for, or neither. -/
def detectPass (idx : IndexDef) (key : Bytes) (ty : DataType) : ExecM Verdict :=
  passVerdict <$> probe detectCandidate (fun _ => true) idx key ty

def checkPass (idx : IndexDef) (key : Bytes) (ty : DataType) (own : Rid) : ExecM Verdict :=
  passVerdict <$> probe checkCandidate (fun c => c ≠ own) idx key ty

/-- The probes agree on the index entries of `key`, and neither waits on the
caller. -/
def ProbesAgree (idx : IndexDef) (key : Bytes) (ty : DataType) (own : Rid) (s : Ctx) : Prop :=
  detectPass idx key ty s = checkPass idx key ty own s ∧
    ∀ s', detectPass idx key ty s ≠ .ok (.wait s.tx.id) s' ∧
      checkPass idx key ty own s ≠ .ok (.wait s.tx.id) s'

/-! ## Candidates -/

/-- The header a candidate points at. -/
def headerOf (pool : BufferPool) (rid : Rid) : Except DbError (Option HeapTuple) :=
  match fetchTuple rid pool with
  | .ok found _ => .ok (found.map Prod.snd)
  | .error e _ => .error e

/-- A row both probes go past: its creator aborted, or its creator committed and
its deleter is the caller or committed. -/
def GoneRow (tm : TransactionManager) (self : Nat) (t : HeapTuple) : Prop :=
  tm.status t.xmin = .aborted ∨
    (tm.status t.xmin = .committed ∧ t.xmax ≠ invalidTxnId ∧
      (t.xmax = self ∨ tm.status t.xmax = .committed))

/-- A row that the caller inserted and that has a deleter since. -/
def OwnDeleted (self : Nat) (t : HeapTuple) : Prop := t.xmin = self ∧ t.xmax ≠ invalidTxnId

/-- No candidate that the caller inserted and deleted is reached: one that
decides stands in front of it. -/
def NoOwnDeleted (s : Ctx) (candidates : List Rid) : Prop :=
  ∀ pre c post, candidates = pre ++ c :: post →
    (∀ r ∈ pre, headerOf s.pool r = .ok none ∨
      ∃ t, headerOf s.pool r = .ok (some t) ∧ GoneRow s.tm s.tx.id t) →
    ∀ t, headerOf s.pool c = .ok (some t) → ¬ OwnDeleted s.tx.id t

section Candidate

variable {tm : TransactionManager} {self : Nat} {t : HeapTuple}

/-- The leaf in which the decision trees differ. -/
theorem detectCandidate_ownDeleted (hrun : tm.status self = .inProgress) (h : OwnDeleted self t) :
    detectCandidate tm self t = .wait self := by
  unfold detectCandidate
  rw [if_neg fun hlive => h.2 hlive.2, h.1, hrun]

theorem detectCandidate_eq (hself : self ≠ invalidTxnId) (h : ¬ OwnDeleted self t) :
    detectCandidate tm self t = checkCandidate tm self t := by
  unfold detectCandidate checkCandidate
  by_cases hown : t.xmin = self
  · have hlive : t.xmax = invalidTxnId := by_contra fun hne => h ⟨hown, hne⟩
    rw [if_pos ⟨hown, hlive⟩, if_pos hown, if_neg (hlive ▸ hself.symm), if_pos hlive]
  · rw [if_neg fun hlive => hown hlive.1, if_neg hown]

theorem checkCandidate_ne_wait_self : checkCandidate tm self t ≠ .wait self := by
  unfold checkCandidate
  repeat' split
  all_goals simp_all

theorem checkCandidate_eq_skip (hrun : tm.status self = .inProgress) (h : ¬ OwnDeleted self t)
    (hself : self ≠ invalidTxnId) : checkCandidate tm self t = .skip ↔ GoneRow tm self t := by
  unfold checkCandidate GoneRow
  by_cases hown : t.xmin = self
  · have hlive : t.xmax = invalidTxnId := by_contra fun hne => h ⟨hown, hne⟩
    rw [if_pos hown, if_neg (hlive ▸ hself.symm), if_pos hlive, hown, hrun]
    simp
  · rw [if_neg hown]
    cases tm.status t.xmin with
    | aborted => simp
    | inProgress => simp
    | committed =>
      by_cases hmax : t.xmax = invalidTxnId
      · simp [hmax]
      · rw [if_neg hmax]
        by_cases hmine : t.xmax = self
        · simp [hmine, hself]
        · rw [if_neg hmine]
          cases tm.status t.xmax <;> simp [hmax, hmine]

end Candidate

/-! ## One pass -/

/-- What the candidates of a pass say, as a function of the heap. -/
def firstVerdict (judge : HeapTuple → Verdict) (pool : BufferPool) : List Rid → Except DbError Verdict
  | [] => .ok .skip
  | rid :: rest =>
    match headerOf pool rid with
    | .error e => .error e
    | .ok none => firstVerdict judge pool rest
    | .ok (some t) => if judge t = .skip then firstVerdict judge pool rest else .ok (judge t)

theorem judgeAll_cons (judge : HeapTuple → Verdict) (pool : BufferPool) (rid : Rid)
    (rest : List Rid) : judgeAll judge (rid :: rest) pool =
      match headerOf pool rid with
      | .error e => .error e pool
      | .ok none => judgeAll judge rest pool
      | .ok (some t) =>
        if judge t = .skip then judgeAll judge rest pool else .ok (some (rid, judge t)) pool := by
  have hread := readOnly_fetchTuple rid pool
  cases hfetch : fetchTuple rid pool with
  | error e pool' =>
    rw [hfetch] at hread
    obtain rfl : pool' = pool := hread
    simp only [judgeAll, headerOf, bind, EStateM.bind, hfetch]
  | ok found pool' =>
    rw [hfetch] at hread
    obtain rfl : pool' = pool := hread
    cases found with
    | none => simp only [judgeAll, headerOf, bind, EStateM.bind, hfetch, Option.map_none]
    | some pt =>
      simp only [judgeAll, headerOf, bind, EStateM.bind, hfetch, Option.map_some]
      cases judge pt.2 <;> rfl

theorem judgeAll_eq (judge : HeapTuple → Verdict) (pool : BufferPool) : ∀ rids,
    (passVerdict <$> judgeAll judge rids) pool = liftE (firstVerdict judge pool rids) pool
  | [] => rfl
  | rid :: rest => by
    have hrest := judgeAll_eq judge pool rest
    simp only [Functor.map, EStateM.map] at hrest ⊢
    rw [judgeAll_cons, firstVerdict]
    cases headerOf pool rid with
    | error e => rfl
    | ok found =>
      cases found with
      | none => exact hrest
      | some t =>
        by_cases hskip : judge t = .skip
        · simp only [hskip, if_true]
          exact hrest
        · simp only [hskip, if_false]
          rfl

theorem liftX_inj {α : Type} {x y : Except DbError α} {s : Ctx} (h : liftX x s = liftX y s) : x = y := by
  cases x <;> cases y <;> cases h <;> rfl

theorem liftX_ok {α : Type} {x : Except DbError α} {a : α} {s s' : Ctx}
    (h : liftX x s = .ok a s') : x = .ok a ∧ s' = s := by
  cases x <;> cases h
  exact ⟨rfl, rfl⟩

/-- A pass, given what the index holds. -/
theorem probe_eq {judge : TransactionManager → Nat → HeapTuple → Verdict} {keep : Rid → Bool}
    {idx : IndexDef} {key : Bytes} {ty : DataType} {s s₁ : Ctx} {candidates : List Rid}
    (hlookup : onPool (BTree.lookupEq idx.rootPageId key ty) s = .ok candidates s₁) :
    (passVerdict <$> probe judge keep idx key ty) s =
      liftX (firstVerdict (judge s.tm s.tx.id) s.pool (candidates.filter keep)) s := by
  obtain rfl := (readOnly_onPool (readOnly_lookupEq _ _ _)).eq_of_ok hlookup
  have hpass := judgeAll_eq (judge s₁.tm s₁.tx.id) s₁.pool (candidates.filter keep)
  simp only [Functor.map, EStateM.map] at hpass ⊢
  simp only [probe, bind, EStateM.bind, getCtx, hlookup]
  unfold onPool
  revert hpass
  cases judgeAll (judge s₁.tm s₁.tx.id) (candidates.filter keep) s₁.pool <;>
    cases firstVerdict (judge s₁.tm s₁.tx.id) s₁.pool (candidates.filter keep) <;>
      simp +contextual [liftE, liftX]

/-! ## Agreement -/

section Agree

variable {s : Ctx}

/-- The first candidate is not such a row, and if it is passed the others have
none that is reached. -/
theorem noOwnDeleted_cons {c : Rid} {rest : List Rid} : NoOwnDeleted s (c :: rest) ↔
    (∀ t, headerOf s.pool c = .ok (some t) → ¬ OwnDeleted s.tx.id t) ∧
      ((headerOf s.pool c = .ok none ∨
        ∃ t, headerOf s.pool c = .ok (some t) ∧ GoneRow s.tm s.tx.id t) → NoOwnDeleted s rest) := by
  constructor
  · intro h
    refine ⟨h [] c rest rfl fun r hr => absurd hr List.not_mem_nil, fun hpass pre d post hsplit hpre => ?_⟩
    refine h (c :: pre) d post (by rw [hsplit]; rfl) fun r hr => ?_
    rcases List.mem_cons.1 hr with rfl | hr
    · exact hpass
    · exact hpre r hr
  · rintro ⟨hfirst, hrest⟩ pre d post hsplit hpre
    cases pre with
    | nil =>
      rw [List.nil_append, List.cons.injEq] at hsplit
      exact hsplit.1 ▸ hfirst
    | cons x pre =>
      rw [List.cons_append, List.cons.injEq] at hsplit
      obtain ⟨rfl, hsplit⟩ := hsplit
      exact hrest (hpre c List.mem_cons_self) pre d post hsplit fun r hr =>
        hpre r (List.mem_cons_of_mem _ hr)

/-- The verdicts of one pass agree, and neither names the caller, exactly when no
row is reached that the caller inserted and deleted. -/
theorem firstVerdict_agree (hrun : Running s) : ∀ candidates : List Rid,
    (firstVerdict (detectCandidate s.tm s.tx.id) s.pool candidates =
        firstVerdict (checkCandidate s.tm s.tx.id) s.pool candidates ∧
      firstVerdict (checkCandidate s.tm s.tx.id) s.pool candidates ≠ .ok (.wait s.tx.id)) ↔
    NoOwnDeleted s candidates
  | [] => by
    refine ⟨fun _ pre c post h => ?_, fun _ => ⟨rfl, by simp [firstVerdict]⟩⟩
    simp at h
  | c :: rest => by
    have hrest := firstVerdict_agree hrun rest
    rw [noOwnDeleted_cons, firstVerdict, firstVerdict]
    cases hc : headerOf s.pool c with
    | error e => simp
    | ok found =>
      cases found with
      | none => simpa using hrest
      | some t =>
        by_cases hown : OwnDeleted s.tx.id t
        · -- detection waits on the caller, the check never does
          refine iff_of_false ?_ fun h => h.1 t rfl hown
          rintro ⟨heq, hne⟩
          refine hne (heq.symm.trans ?_)
          simp [detectCandidate_ownDeleted hrun.inProgress hown]
        · have hskip := checkCandidate_eq_skip hrun.inProgress hown hrun.begun
          simp only [detectCandidate_eq hrun.begun hown]
          by_cases hgone : GoneRow s.tm s.tx.id t
          · simpa [hskip.2 hgone, hown, hgone] using hrest
          · -- this candidate decides
            simp [mt hskip.1 hgone, hown, hgone, checkCandidate_ne_wait_self]

/-- **The two uniqueness checks agree** on a key, and neither waits on the caller,
exactly when no row is reached that the caller inserted and deleted itself. -/
theorem probes_agree_iff {s₁ : Ctx} {idx : IndexDef} {key : Bytes} {ty : DataType} {own : Rid}
    {candidates : List Rid} (hrun : Running s)
    (hlookup : onPool (BTree.lookupEq idx.rootPageId key ty) s = .ok candidates s₁)
    (hown : own ∉ candidates) :
    ProbesAgree idx key ty own s ↔ NoOwnDeleted s candidates := by
  have hkeep : candidates.filter (fun c => c ≠ own) = candidates :=
    List.filter_eq_self.2 fun c hc => by simpa using fun (heq : c = own) => hown (heq ▸ hc)
  rw [ProbesAgree, detectPass, checkPass, probe_eq hlookup, probe_eq hlookup, List.filter_true, hkeep,
    ← firstVerdict_agree hrun candidates]
  constructor
  · rintro ⟨heq, hne⟩
    exact ⟨liftX_inj heq, fun hwait => (hne s).2 (by rw [hwait]; rfl)⟩
  · rintro ⟨heq, hne⟩
    have hself : ∀ s', liftX (firstVerdict (checkCandidate s.tm s.tx.id) s.pool candidates) s ≠
        .ok (.wait s.tx.id) s' := fun s' hwait => hne (liftX_ok hwait).1
    rw [heq]
    exact ⟨rfl, fun s' => ⟨hself s', hself s'⟩⟩

end Agree

/-! ## A row inserted and deleted in one transaction -/

/-- A table `t (c INT)` with a unique index on `c`, at root page 5. -/
def uniqueOnC : IndexDef := ⟨1, "t_c", 1, 0, 5, true⟩

def indexedTable : Ctx where
  pool := ⟨fun p => if p = 5 then BTree.initLeaf (.new 5) else .new p, 6, [], 100, hundred_le_noNextPage⟩
  versions := fun p => [.new p]
  wal := ⟨[], 1, 0⟩
  tm := ⟨2, [], fun _ => .inProgress⟩
  catalog := ⟨[⟨1, "t", 4, [.int], ["c"]⟩], [], [(1, [uniqueOnC])]⟩
  locks := []
  tx := ⟨false, 0, 0, none, []⟩

/-- BEGIN; INSERT INTO t VALUES (7). -/
def afterInsert : Ctx :=
  ((do
    beginTxn true
    let _ ← performInsert ⟨1, [.ok [.int 7]], none, fun _ => .ok ()⟩ : ExecM Unit) indexedTable).final

/-- DELETE FROM t, in the same block. -/
def afterDelete : Ctx :=
  ((do let _ ← performDelete 1 ⟨1, none, fun _ _ => .ok ()⟩ : ExecM Unit) afterInsert).final

theorem lookupSeven {s : Ctx} {candidates : List Rid}
    (h : (onPool (BTree.lookupEq uniqueOnC.rootPageId (BTree.encodeKey (.int 7)) .int) s).answer =
      some candidates) :
    onPool (BTree.lookupEq uniqueOnC.rootPageId (BTree.encodeKey (.int 7)) .int) s =
      .ok candidates s :=
  (readOnly_onPool (readOnly_lookupEq _ _ _)).ok_of_answer h

/-- After the INSERT alone both report the row. -/
theorem probes_agree_afterInsert :
    ProbesAgree uniqueOnC (BTree.encodeKey (.int 7)) .int (4, 1) afterInsert := by
  have hfound : (onPool (BTree.lookupEq uniqueOnC.rootPageId (BTree.encodeKey (.int 7)) .int)
      afterInsert).answer = some [(4, 0)] := by
    decide +kernel
  refine (probes_agree_iff ⟨by decide +kernel, by decide +kernel⟩ (lookupSeven hfound)
    (by decide)).2 ?_
  rw [noOwnDeleted_cons]
  refine ⟨fun t ht hown => hown.2 ?_, fun _ pre c post h => by simp at h⟩
  have hlive : (headerOf afterInsert.pool (4, 0)).toOption.join.map HeapTuple.xmax = some 0 := by
    decide +kernel
  rw [ht] at hlive
  exact Option.some.inj hlive

/-- After INSERT and DELETE, detection waits on the transaction that runs it; the
check finds nothing. -/
theorem detection_waits_on_caller : ¬ ∀ (s s₁ : Ctx) (idx : IndexDef) (key : Bytes) (ty : DataType)
    (own : Rid) (candidates : List Rid), Running s →
    onPool (BTree.lookupEq idx.rootPageId key ty) s = .ok candidates s₁ → own ∉ candidates →
    ProbesAgree idx key ty own s := by
  intro h
  obtain ⟨heq, -⟩ := h afterDelete afterDelete uniqueOnC (BTree.encodeKey (.int 7)) .int (4, 1)
    [(4, 0)] ⟨by decide +kernel, by decide +kernel⟩ (lookupSeven (by decide +kernel)) (by decide)
  have hdetect : (detectPass uniqueOnC (BTree.encodeKey (.int 7)) .int afterDelete).answer =
      some (.wait 2) := by
    decide +kernel
  have hcheck : (checkPass uniqueOnC (BTree.encodeKey (.int 7)) .int (4, 1) afterDelete).answer =
      some .skip := by
    decide +kernel
  rw [heq, hcheck] at hdetect
  cases hdetect

end Ccdb
