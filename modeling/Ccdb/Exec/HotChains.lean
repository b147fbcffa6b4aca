import Ccdb.Exec.IndexWrites

/-!
# Ccdb — HOT chains

A row that is only updated in columns without an index keeps the entry of its
first version; the other versions are reached from there through the forward
pointers. An aborted update leaves a branch, and the next one overwrites the
pointer to it. The table has its index from the start, and nothing is reclaimed.

Main results:

* `visible_version_linked` — in every run, each visible version is linked to an
  entry with its key, however many updates lie between them.
* `hot_chain_followed_iff` — the walk from the entry finds the version if fewer
  than `MAX_CHAIN` links lead to it, and only then.
-/

namespace Ccdb.IndexBuild

/-- An empty table with the index on `col`, and others on the columns `others`. -/
def State.newIndexed (others : List Nat) (col : Nat) : State :=
  { State.new others col with entries := some [] }

/-- An UPDATE touches no indexed column, or meets no 23505 where it does. -/
def KeepsEntries (st : State) : Event → Prop
  | .stmt _ (.update u) => doHot st u.assignments = true ∨ u.rejected = []
  | _ => True

instance (st : State) : ∀ e : Event, Decidable (KeepsEntries st e)
  | .stmt _ (.update _) => inferInstanceAs (Decidable (_ ∨ _))
  | .stmt _ (.insert _) => inferInstanceAs (Decidable True)
  | .stmt _ (.delete _) => inferInstanceAs (Decidable True)
  | .stmt _ .createIndex => inferInstanceAs (Decidable True)
  | .begin _ => inferInstanceAs (Decidable True)
  | .commit _ => inferInstanceAs (Decidable True)
  | .rollback _ => inferInstanceAs (Decidable True)

/-! ## Runs -/

theorem Inv.newIndexed (others : List Nat) (col : Nat) :
    Inv (fun _ => True) invalidTxnId (State.newIndexed others col) :=
  ⟨History.new.wf, nofun, nofun, nofun, nofun, nofun, nofun, nofun, fun _ _ _ _ => rfl, nofun⟩

theorem Indexed.newIndexed (others : List Nat) (col : Nat) :
    Indexed (State.newIndexed others col) := ⟨rfl, nofun⟩

/-- With the index there, a statement is within the invariant that leaves the
lengths open. -/
theorem KeepsEntries.admitted {st : State} {i : Nat} {tx : Txn} (hst : Indexed st) :
    ∀ {s : Stmt}, KeepsEntries st (.stmt i s) → s.Admitted (fun _ => True) st tx
  | .insert _, _ => trivial
  | .update _, h => fun _ _ _ => ⟨fun hhot => h.resolve_left (by simp [hhot]), fun _ => trivial⟩
  | .delete _, _ => trivial
  | .createIndex, _ => fun hnone => by
    have := hst.isSome
    simp [hnone] at this

variable {others : List Nat} {col : Nat} {events : List Event}

/-- **The run lemma**: the chains are intact, however long. -/
theorem chains_intact
    (hrun : Follows State.step KeepsEntries (State.newIndexed others col) events) :
    let st := after State.step (State.newIndexed others col) events
    Inv (fun _ => True) invalidTxnId st ∧ Indexed st :=
  hrun.invariant (I := fun st => Inv (fun _ => True) invalidTxnId st ∧ Indexed st)
    (fun h hkeeps hs => ⟨h.1.step trivial (fun i s tx he _ => by
      subst he
      exact KeepsEntries.admitted h.2 hkeeps) hs, Indexed.stable.step h.2 hs⟩)
    ⟨Inv.newIndexed others col, Indexed.newIndexed others col⟩

/-- A visible version is `hops` links away from an entry with its key. -/
theorem visible_version_linked {st : State} (h : Inv (fun _ => True) invalidTxnId st)
    (hst : Indexed st) {i r : Nat} {tx : Txn} {v : RowVersion} (hs : st.sessions i = some tx)
    (hv : st.heap[r]? = some v) (hk : st.key v.vals ≠ .null)
    (hvis : st.sees tx.snap v = true) :
    ∃ es, st.entries = some es ∧ ∃ e, (st.key v.vals, e) ∈ es ∧ Path st.heap v.hops e r := by
  obtain ⟨hmin, hmax⟩ := isVisible_iff.1 hvis
  have hx := h.xids v (List.mem_of_getElem? hv)
  rcases h.cover hst.isSome r v hv hk hx.1 with ⟨-, hcov⟩ | hab | heq | ⟨h0, -, hall⟩
  · exact hcov
  · exact absurd hmin ((h.held i tx hs).not_sees_aborted h.wf hab)
  · exact absurd (heq ▸ hmin) (hmax (heq ▸ hx.1))
  · exact absurd (hall i tx hs (hst.late i tx hs)) (hmax h0)

/-- **HOT chains**: over every run in which the updates touch no indexed column, a
version that a snapshot sees is linked to an entry with its key, and the walk from an
entry that leads to it finds it if and only if there are fewer than `MAX_CHAIN` links. -/
theorem hot_chain_followed_iff (others : List Nat) (col : Nat) (events : List Event)
    (hrun : Follows State.step KeepsEntries (State.newIndexed others col) events) :
    let st := after State.step (State.newIndexed others col) events
    ∀ i tx, st.sessions i = some tx → ∀ r v, st.heap[r]? = some v →
      st.key v.vals ≠ .null → st.sees tx.snap v = true →
      (∃ es, st.entries = some es ∧ ∃ e n, (st.key v.vals, e) ∈ es ∧ Path st.heap n e r) ∧
        ∀ e n, Path st.heap n e r →
          (followChainVisible st tx.snap MAX_CHAIN e = some r ↔ n < MAX_CHAIN) := by
  intro st i tx hs r v hv hk hvis
  obtain ⟨hinv, hst⟩ := chains_intact hrun
  obtain ⟨es, hes, e, he, hpath⟩ := visible_version_linked hinv hst hs hv hk hvis
  refine ⟨⟨es, hes, e, v.hops, he, hpath⟩, fun e' n hpath' => ⟨fun hfound => ?_, fun hlt => ?_⟩⟩
  · by_contra hlong
    rw [hpath'.followChainVisible_none (hinv.ordered i tx hs) hv hvis (by omega)] at hfound
    cases hfound
  · exact hpath'.followChainVisible (hinv.ordered i tx hs) hv hvis hlt

/-- One row, an update of its second column that is rolled back, and `n` that are
committed. -/
def hotRun (n : Nat) : List Event :=
  let upd : UpdateStmt := ⟨.seq fun _ _ => true, [(1, fun _ => some (.int 5))], fun _ => true, []⟩
  [.begin 0, .stmt 0 (.insert [⟨[.int 7, .int 0], true, false⟩]), .commit 0,
    .begin 0, .stmt 0 (.update upd), .rollback 0] ++
    (List.replicate n [.begin 0, .stmt 0 (.update upd), .commit 0]).flatten ++ [.begin 0]

theorem hot_chain_two_links :
    let st := after State.step (State.newIndexed [] 0) (hotRun 2)
    ∃ tx, st.sessions 0 = some tx ∧ followChainVisible st tx.snap MAX_CHAIN 0 = some 3 := by
  have hiff := hot_chain_followed_iff [] 0 (hotRun 2) (by decide +kernel) 0
    ⟨5, ⟨5, 6, [5]⟩, true⟩ (by decide +kernel) 3 ⟨4, 0, none, [.int 7, .int 5], 2⟩
    (by decide +kernel) (by decide +kernel) (by decide +kernel)
  refine ⟨_, by decide +kernel, (hiff.2 0 2 ?_).2 (by decide)⟩
  refine ⟨⟨1, 3, some 2, [.int 7, .int 0], 0⟩, 2, ⟨3, 4, some 3, [.int 7, .int 5], 1⟩,
    by decide +kernel, rfl, by decide +kernel, by decide, by decide, ?_⟩
  exact ⟨⟨3, 4, some 3, [.int 7, .int 5], 1⟩, 3, ⟨4, 0, none, [.int 7, .int 5], 2⟩,
    by decide +kernel, rfl, by decide +kernel, by decide, by decide, rfl⟩

/-- **A live version is cut off**: after 32 updates the row is not found through its
only entry. -/
theorem long_hot_chain_cut :
    Follows State.step KeepsEntries (State.newIndexed [] 0) (hotRun 32) ∧
      let st := after State.step (State.newIndexed [] 0) (hotRun 32)
      st.entries = some [(.int 7, 0)] ∧
      ∃ tx v, st.sessions 0 = some tx ∧ st.heap[33]? = some v ∧ st.key v.vals = .int 7 ∧
        st.sees tx.snap v = true ∧ followChainVisible st tx.snap MAX_CHAIN 0 = none := by
  have hall : Follows State.step KeepsEntries (State.newIndexed [] 0) (hotRun 32) ∧
      let st := after State.step (State.newIndexed [] 0) (hotRun 32)
      let tx : Txn := ⟨35, ⟨35, 36, [35]⟩, true⟩
      let v : RowVersion := ⟨34, 0, none, [.int 7, .int 5], 32⟩
      st.entries = some [(.int 7, 0)] ∧ st.sessions 0 = some tx ∧ st.heap[33]? = some v ∧
        st.key v.vals = .int 7 ∧ st.sees tx.snap v = true ∧
        followChainVisible st tx.snap MAX_CHAIN 0 = none := by
    decide +kernel
  obtain ⟨hrun, hentries, hfacts⟩ := hall
  exact ⟨hrun, hentries, _, _, hfacts⟩

end Ccdb.IndexBuild
