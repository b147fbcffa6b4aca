import Ccdb.Exec.IndexComplete

/-!
# Ccdb — the single writes of a statement

Whatever a statement does, and wherever it fails, it changes the table by single
writes: a row lock, a delete mark, a forward pointer, a new version, an entry for
one that was just stored. A property that each of these keeps is kept by every
statement and by every run.

Main results:

* `Stable.step` — the step lemma of a property of that kind.
* `Grounded.stable` — an entry points to a version that no HOT update wrote.
-/

namespace Ccdb.IndexBuild

/-- Each single write keeps `I`. -/
structure Stable (I : State → Prop) : Prop where
  lock : ∀ st L, I st → I { st with locks := L }
  delete : ∀ st id r, I st → I { st with heap := st.heap.modify r fun v => { v with xmax := id } }
  link : ∀ st r next, I st →
    I { st with heap := st.heap.modify r fun v => { v with ctid := some next } }
  append : ∀ st id vals hops, (st.entries = none → hops = 0) → I st →
    I { st with heap := st.heap ++ [⟨id, invalidTxnId, none, vals, hops⟩] }
  entry : ∀ st r v, st.heap[r]? = some v → v.hops = 0 → I st →
    I { st with entries := st.entries.map (st.rowEntries v.vals r ++ ·) }
  build : ∀ st snap, st.entries = none → I st → I { st with entries := some (st.bulkEntries snap) }
  snapshot : ∀ st i id, I st → I (st.setSession i (some (st.fresh id)))
  close : ∀ st i, I st → I (st.setSession i none)
  tm : ∀ st tm, I st → I { st with tm := tm }

/-- A computation keeps `I`, whether it returns or fails. -/
abbrev Keeps {α : Type} (I : State → Prop) (x : M α) : Prop :=
  ∀ st, I st → Ends x st (fun _ => I) I

namespace Stable

variable {I : State → Prop} {st : State} {α β : Type}

theorem bind {x : M α} {f : α → M β} (hx : Keeps I x) (hf : ∀ a, Keeps I (f a)) :
    Keeps I (x >>= f) := fun st h => (hx st h).bind fun a st' h' => hf a st' h'

theorem ret (a : α) : Keeps I (Pure.pure a : M α) := fun _ h => h

theorem fail (e : DbError) : Keeps I (throw e : M α) := fun _ h => h

theorem lockRow (hI : Stable I) (id r : Nat) : Keeps I (lockRow id r) := by
  intro st h
  refine (lockRow_ends id r st).mono (fun _ st' hst => ?_) fun _ hst => hst ▸ h
  obtain ⟨L, rfl⟩ := hst
  exact hI.lock st L h

theorem recheck (id r : Nat) : Keeps I (recheck id r) := by
  intro st h
  have hread : (IndexBuild.recheck id r st).final = st := by
    unfold IndexBuild.recheck
    split
    · rfl
    · split
      · split <;> rfl
      · rfl
  unfold Ends
  cases hrun : IndexBuild.recheck id r st with
  | ok c st' =>
    obtain rfl : st' = st := by simpa [hrun] using hread
    exact h
  | error e st' =>
    obtain rfl : st' = st := by simpa [hrun] using hread
    exact h

/-- A new version is stored where the heap ended. -/
theorem appendRow (hI : Stable I) (id : Nat) (vals : List Value) {hops : Nat}
    (hflat : st.entries = none → hops = 0) (h : I st) :
    Ends (appendRow id vals hops) st
      (fun r' st' => I st' ∧ ∃ v, st'.heap[r']? = some v ∧ v.vals = vals ∧ v.hops = hops)
      fun _ => False :=
  ⟨hI.lock _ _ (hI.append st id vals hops hflat h), ⟨id, invalidTxnId, none, vals, hops⟩, by simp⟩

/-- The entry of a version that was just stored. -/
theorem indexInsert (hI : Stable I) {r : Nat} {vals : List Value} (h : I st)
    (hv : ∃ v, st.heap[r]? = some v ∧ v.vals = vals ∧ v.hops = 0) :
    Ends (indexInsert vals r) st (fun _ => I) I := by
  obtain ⟨v, hv, rfl, hhops⟩ := hv
  exact hI.entry st r v hv hhops h

theorem replaceRow (hI : Stable I) (id : Nat) (u : UpdateStmt) (r : Nat) (v : RowVersion)
    (vals : List Value) : Keeps I (replaceRow id u r v vals) := by
  intro st h
  let marked : State := { st with heap := st.heap.modify r fun v => { v with xmax := id } }
  have hmarked : I marked := hI.delete st id r h
  refine (show Ends (if doHot st u.assignments then _ else _) marked _ _ from ?_)
  split
  · refine ((hI.appendRow id vals (fun hnone => ?_) hmarked).mono (fun _ _ hQ => hQ)
      fun _ hF => hF.elim).bind fun r' st' hst => hI.link st' r r' hst.1
    have hnone : st.entries = none := hnone
    simp [hnone]
  · refine ((hI.appendRow id vals (fun _ => rfl) hmarked).mono (fun _ _ hQ => hQ)
      fun _ hF => hF.elim).bind fun r' st' hst => ?_
    split
    · exact hst.1
    · exact (hI.indexInsert hst.1 hst.2).bind fun _ _ h' => h'

theorem updateRow (hI : Stable I) (id : Nat) (u : UpdateStmt) (r : Nat) :
    Keeps I (updateRow id u r) := by
  refine bind (hI.lockRow id r) fun _ => bind (recheck id r) fun c => ?_
  cases c with
  | skip => exact ret true
  | restart => exact ret false
  | proceed v =>
    dsimp only
    split
    · exact fail _
    · exact hI.replaceRow id u r v _

theorem deleteRow (hI : Stable I) (id r : Nat) : Keeps I (deleteRow id r) := by
  refine bind (hI.lockRow id r) fun _ => bind (recheck id r) fun c => ?_
  cases c with
  | skip => exact ret true
  | restart => exact ret false
  | proceed v => exact bind (fun st h => hI.delete st id r h) fun _ => ret true

theorem rowLoop {row : Nat → M Bool} (hrow : ∀ r, Keeps I (row r)) :
    ∀ rids, Keeps I (rowLoop row rids)
  | [] => ret true
  | r :: rids => bind (hrow r) fun b => by
    cases b with
    | true => exact rowLoop hrow rids
    | false => exact ret false

theorem retryLoop (hI : Stable I) (i id : Nat) (scan : Scan) {row : Nat → M Bool}
    (hrow : ∀ r, Keeps I (row r)) : ∀ n, Keeps I (retryLoop i id scan row n)
  | 0 => fail _
  | n + 1 => bind (fun st h => hI.snapshot st i id h) fun _ => bind (fun _ h => h) fun _ =>
    bind (rowLoop hrow _) fun b => by
      cases b with
      | true => exact ret ()
      | false => exact hI.retryLoop i id scan hrow n

theorem insertRow (hI : Stable I) (id : Nat) (row : NewRow) : Keeps I (insertRow id row) := by
  intro st h
  unfold IndexBuild.insertRow
  split
  · refine ((hI.appendRow id row.vals (fun _ => rfl) h).mono (fun _ _ hQ => hQ)
      fun _ hF => hF.elim).bind fun r st' hst => ?_
    split
    · exact hst.1
    · exact hI.indexInsert hst.1 hst.2
  · exact h

theorem createIndex (hI : Stable I) (tx : Txn) : Keeps I (createIndex tx) := by
  intro st h
  unfold Ends IndexBuild.createIndex
  cases hes : st.entries with
  | some es => exact h
  | none => exact hI.build st tx.snap hes h

/-- **A statement**, whether it succeeds or fails. -/
theorem run (hI : Stable I) (i : Nat) (tx : Txn) : ∀ s : Stmt, Keeps I (s.run i tx)
  | .insert rows => fun st h =>
    Ends.forM (fun row st' h' => hI.insertRow tx.id row st' h') rows st h
  | .update u => hI.retryLoop i tx.id u.scan (hI.updateRow tx.id u) MAX_RETRIES
  | .delete scan => hI.retryLoop i tx.id scan (hI.deleteRow tx.id) MAX_RETRIES
  | .createIndex => hI.createIndex tx

/-- COMMIT and ROLLBACK. -/
theorem finish (hI : Stable I) (h : I st) (i id : Nat) (tm : TransactionManager) :
    I { (st.unlockAll id).setSession i none with tm := tm } :=
  hI.tm _ tm (hI.close _ i (hI.lock st _ h))

/-- **The step lemma.** -/
theorem step {st' : State} {e : Event} (hI : Stable I) (h : I st) (hstep : st.step e = some st') :
    I st' := by
  cases e with
  | begin i =>
    simp only [State.step] at hstep
    split at hstep
    · cases hstep
      exact hI.snapshot _ i _ (hI.tm st _ h)
    · cases hstep
  | stmt i s =>
    simp only [State.step] at hstep
    split at hstep
    · cases hstep
    · next tx _ =>
      have hrun := hI.run i tx s st h
      unfold Ends at hrun
      split at hstep
      · next heq =>
        rw [heq] at hrun
        cases hstep
        exact hrun
      · next heq =>
        rw [heq] at hrun
        cases hstep
        exact hI.finish hrun i tx.id _
  | commit i =>
    obtain ⟨tx, -, rfl⟩ := Option.map_eq_some_iff.1 hstep
    exact hI.finish h i tx.id _
  | rollback i =>
    obtain ⟨tx, -, rfl⟩ := Option.map_eq_some_iff.1 hstep
    exact hI.finish h i tx.id _

end Stable

/-! ## Entries -/

/-- An entry points to a version with its key, which no HOT update wrote. Without the
index no version counts as one that a HOT update wrote. -/
structure Grounded (st : State) : Prop where
  flat : st.entries = none → ∀ v ∈ st.heap, v.hops = 0
  entry : ∀ es, st.entries = some es → ∀ e ∈ es,
    ∃ v, st.heap[e.2]? = some v ∧ st.key v.vals = e.1 ∧ v.hops = 0

namespace Grounded

variable {st : State}

/-- The heap grows at the end, and headers change. -/
theorem heap {heap' : List RowVersion} (h : Grounded st)
    (hold : ∀ (r : Nat) v, st.heap[r]? = some v → ∃ v', heap'[r]? = some v' ∧
      v'.vals = v.vals ∧ v'.hops = v.hops)
    (hnew : st.entries = none → ∀ v ∈ heap', v.hops = 0) :
    Grounded { st with heap := heap' } := by
  refine ⟨hnew, fun es hes e he => ?_⟩
  obtain ⟨v, hv, hkey, hhops⟩ := h.entry es hes e he
  obtain ⟨v', hv', hvals, hhops'⟩ := hold e.2 v hv
  exact ⟨v', hv', (congrArg st.key hvals).trans hkey, hhops'.trans hhops⟩

theorem modify (h : Grounded st) (r : Nat) {f : RowVersion → RowVersion}
    (hvals : ∀ v, (f v).vals = v.vals) (hhops : ∀ v, (f v).hops = v.hops) :
    Grounded { st with heap := st.heap.modify r f } := by
  refine h.heap (fun q v hq => ?_) fun hnone v hv => ?_
  · by_cases hrq : r = q
    · subst hrq
      exact ⟨f v, by simp [hq], hvals v, hhops v⟩
    · exact ⟨v, by simp [hrq, hq], rfl, rfl⟩
  · obtain ⟨q, hq⟩ := List.getElem?_of_mem hv
    rw [List.getElem?_modify] at hq
    obtain ⟨w, hw, rfl⟩ := Option.map_eq_some_iff.1 hq
    have hflat := h.flat hnone w (List.mem_of_getElem? hw)
    split
    · exact (hhops w).trans hflat
    · exact hflat

theorem stable : Stable Grounded where
  lock _ _ h := ⟨h.flat, h.entry⟩
  delete _ _ r h := h.modify r (fun _ => rfl) fun _ => rfl
  link _ r _ h := h.modify r (fun _ => rfl) fun _ => rfl
  append st id vals hops hflat h := by
    refine h.heap (fun r v hr => ⟨v, ?_, rfl, rfl⟩) fun hnone v hv => ?_
    · rw [List.getElem?_append_left (List.getElem?_eq_some_iff.1 hr).1]
      exact hr
    · rcases List.mem_append.1 hv with hv | hv
      · exact h.flat hnone v hv
      · rw [List.mem_singleton.1 hv]
        exact hflat hnone
  entry st r v hv hhops h := by
    refine ⟨fun hnone => h.flat (by simpa using hnone), fun es hes e he => ?_⟩
    obtain ⟨es₀, hes₀, rfl⟩ := Option.map_eq_some_iff.1 hes
    rcases List.mem_append.1 he with he | he
    · unfold State.rowEntries at he
      split at he
      · cases he
      · rw [List.mem_singleton.1 he]
        exact ⟨v, hv, rfl, hhops⟩
    · exact h.entry es₀ hes₀ e he
  build st snap hnone h := by
    refine ⟨nofun, fun es hes e he => ?_⟩
    cases hes
    obtain ⟨⟨v, r⟩, hmem, rfl⟩ := List.mem_map.1 he
    have hv := List.mem_zipIdx_iff_getElem?.1 (List.mem_filter.1 hmem).1
    exact ⟨v, hv, rfl, h.flat hnone v (List.mem_of_getElem? hv)⟩
  snapshot _ _ _ h := ⟨h.flat, h.entry⟩
  close _ _ h := ⟨h.flat, h.entry⟩
  tm _ _ h := ⟨h.flat, h.entry⟩

end Grounded

/-! ## A table with an index -/

/-- The index is there, and was when the sessions took their snapshots. -/
structure Indexed (st : State) : Prop where
  isSome : st.entries.isSome = true
  late : ∀ i tx, st.sessions i = some tx → tx.late = true

namespace Indexed

variable {st : State}

/-- A session that changes took its snapshot with the index there. -/
theorem setSession (h : Indexed st) (i : Nat) {tx : Option Txn}
    (htx : ∀ x, tx = some x → x.late = true) : Indexed (st.setSession i tx) := by
  refine ⟨h.isSome, fun j x hj => ?_⟩
  by_cases hji : j = i
  · subst hji
    exact htx x (by simpa [State.setSession] using hj)
  · exact h.late j x (by simpa [State.setSession, hji] using hj)

theorem stable : Stable Indexed where
  lock _ _ h := ⟨h.isSome, h.late⟩
  delete _ _ _ h := ⟨h.isSome, h.late⟩
  link _ _ _ h := ⟨h.isSome, h.late⟩
  append _ _ _ _ _ h := ⟨h.isSome, h.late⟩
  entry _ _ _ _ _ h := ⟨by simpa using h.isSome, h.late⟩
  build _ _ _ h := ⟨rfl, h.late⟩
  snapshot _ i _ h := h.setSession i fun x hx => by
    cases hx
    exact h.isSome
  close _ i h := h.setSession i nofun
  tm _ _ h := ⟨h.isSome, h.late⟩

end Indexed

end Ccdb.IndexBuild
