import Ccdb.BTree.SortedMap
import Ccdb.Exec.IndexFrame
import Ccdb.Exec.Relational

/-!
# Ccdb — index scans

`IndexScan` as an executor over the pages it reads. From the first entry that is not below
its range it walks the leaves up to the first one past it, and follows the chain of versions
behind each entry. UPDATE and DELETE find their rows by a loop of their own.

Main results:

* `range_scan` — the rows of an index scan are those behind the entries of the range, in the
  order of their keys.
* `select_finds_matching_rows` — under WHERE it puts out what that loop returns.
-/

namespace Ccdb.Pipeline.IndexScan

open BTree (Key SortedIndex EmptyLeaf rawEntries scanFrom)
open Join (Row Executor)

/-! ## The operator -/

/-- What a read of the pages returns. -/
def reads {α : Type} (pool : BufferPool) (x : PoolM α) : Except DbError α :=
  match x pool with
  | .ok a _ => .ok a
  | .error e _ => .error e

/-- What `IndexScan` has fixed; `pool` has the pages of the index and of the heap. -/
structure Plan where
  pool : BufferPool
  root : Nat
  range : IndexRange
  keyType : DataType
  snapshot : Snapshot
  tm : TransactionManager

/-- The fields of `IndexScan` that change. -/
structure State where
  cursor : Option Rid
  initialized : Bool

section Reads

variable {pool : BufferPool} {α β : Type}

theorem reads_of_ok {x : PoolM α} {a : α} {s : BufferPool} (h : x pool = .ok a s) :
    reads pool x = .ok a := by
  rw [reads, h]

theorem reads_liftE (x : Except DbError α) : reads pool (BTree.liftE x) = x := by
  cases x <;> rfl

theorem reads_bind {x : PoolM α} (hx : ReadOnly x) (f : α → PoolM β) :
    reads pool (x >>= f) = reads pool x >>= fun a => reads pool (f a) := by
  have hs := hx pool
  cases h : x pool with
  | ok a s =>
    obtain rfl : s = pool := hx.eq_of_ok h
    rw [reads_of_ok h, reads, EStateM.bind_of_ok h]
    rfl
  | error e s =>
    rw [reads, EStateM.bind_of_error h, reads, h]
    rfl

end Reads

variable (p : Plan)

/-- The version an entry leads to. -/
def Plan.version (rid : Rid) : Except DbError (Option (Rid × Row)) :=
  reads p.pool (followChainVisible p.snapshot p.tm MAX_CHAIN rid)

/-- `IndexScan::open`. It does not rewind. -/
def openScan (s : State) : Except DbError State :=
  if s.initialized then .ok s
  else do
    let cursor ← reads p.pool (BTree.firstGe p.root p.range.startKey p.keyType)
    .ok ⟨cursor, true⟩

/-- `IndexScan::next`. -/
def next : Nat → State → Except DbError (Option Row × State)
  | 0, _ => .error .diverge
  | fuel + 1, s =>
    match s.cursor with
    | none => .ok (none, s)
    | some c => do
      match ← reads p.pool (BTree.readAt c) with
      | none => .ok (none, { s with cursor := none })
      | some (key, rid, nextCursor) =>
        if ← p.range.past key p.keyType then .ok (none, { s with cursor := none })
        else
          match ← p.version rid with
          | some (_, values) => .ok (some values, { s with cursor := nextCursor })
          | none => next fuel { s with cursor := nextCursor }

def executor (fuel : Nat) : Executor State where
  openOp := openScan p
  next := next p fuel

/-- `IndexScan::new`. -/
def new (fuel : Nat) : DynExecutor := ⟨State, executor p fuel, ⟨none, false⟩⟩

/-! ## A walk along the leaves -/

/-- From the cursor on, the versions behind the entries of the range. -/
inductive Walks : Option Rid → List (Option (Rid × Row)) → Prop where
  | stop : Walks none []
  | ended {c : Rid} (h : reads p.pool (BTree.readAt c) = .ok none) : Walks (some c) []
  | past {c : Rid} {key : Bytes} {rid : Rid} {nextCursor : Option Rid}
    (h : reads p.pool (BTree.readAt c) = .ok (some (key, rid, nextCursor)))
    (hpast : p.range.past key p.keyType = .ok true) : Walks (some c) []
  | entry {c : Rid} {key : Bytes} {rid : Rid} {nextCursor : Option Rid}
    {v : Option (Rid × Row)} {vs : List (Option (Rid × Row))}
    (h : reads p.pool (BTree.readAt c) = .ok (some (key, rid, nextCursor)))
    (hpast : p.range.past key p.keyType = .ok false) (hversion : p.version rid = .ok v)
    (hrest : Walks nextCursor vs) : Walks (some c) (v :: vs)

/-- The rows of the versions found. -/
def rowsOf (vs : List (Option (Rid × Row))) : List Row := vs.reduceOption.map Prod.snd

variable {p : Plan} {fuel : Nat}

/-- One call of `next` on a walk. -/
theorem next_walk {vs : List (Option (Rid × Row))} {cursor : Option Rid} (h : Walks p cursor vs)
    (hfuel : vs.length < fuel) (init : Bool) :
    (rowsOf vs = [] ∧ ∃ s', next p fuel ⟨cursor, init⟩ = .ok (none, s')) ∨
      ∃ row cursor' vs', rowsOf vs = row :: rowsOf vs' ∧ vs'.length < vs.length ∧
        Walks p cursor' vs' ∧ next p fuel ⟨cursor, init⟩ = .ok (some row, ⟨cursor', init⟩) := by
  obtain ⟨fuel, rfl⟩ := Nat.exists_eq_add_of_lt hfuel
  induction h generalizing fuel with
  | stop => exact Or.inl ⟨rfl, _, rfl⟩
  | ended h => exact Or.inl ⟨rfl, ⟨none, init⟩, by simp only [next, h, bind, Except.bind]⟩
  | past h hpast =>
    exact Or.inl ⟨rfl, ⟨none, init⟩, by simp only [next, h, hpast, bind, Except.bind, if_true]⟩
  | @entry c key rid nextCursor v vs h hpast hversion hrest ih =>
    cases v with
    | some r =>
      refine Or.inr ⟨r.2, nextCursor, vs, rfl, Nat.lt_succ_self _, hrest, ?_⟩
      simp only [next, h, hpast, hversion, bind, Except.bind, Bool.false_eq_true, if_false]
    | none =>
      -- no visible version: the loop of `next` goes on to the entry behind
      have hnext : next p ((none :: vs).length + fuel + 1) ⟨some c, init⟩ =
          next p (vs.length + fuel + 1) ⟨nextCursor, init⟩ := by
        rw [List.length_cons, Nat.add_right_comm vs.length 1 fuel, next]
        simp only [h, hpast, hversion, bind, Except.bind, Bool.false_eq_true, if_false]
      rw [hnext]
      rcases ih fuel (by omega) with hend | ⟨row, cursor', vs', hrows, hlen, hwalk, hrow⟩
      · exact Or.inl hend
      · exact Or.inr ⟨row, cursor', vs', hrows, Nat.lt_succ_of_lt hlen, hwalk, hrow⟩

theorem runs_walk (init : Bool) : ∀ {n : Nat} {vs : List (Option (Rid × Row))} {cursor : Option Rid},
    vs.length ≤ n → n < fuel → Walks p cursor vs →
      HashAggregate.Runs (executor p fuel) ⟨cursor, init⟩ (rowsOf vs)
  | n, vs, cursor, hn, hfuel, h => by
    rcases next_walk h (lt_of_le_of_lt hn hfuel) init with
      ⟨hnil, s', hs'⟩ | ⟨row, cursor', vs', hrows, hlen, hwalk, hrow⟩
    · rw [hnil]
      exact .done hs'
    · obtain ⟨m, rfl⟩ : ∃ m, n = m + 1 := ⟨n - 1, by omega⟩
      rw [hrows]
      exact .row hrow (runs_walk init (show vs'.length ≤ m by omega) (by omega) hwalk)

/-- **A scan puts out the rows of its walk.** -/
theorem outputs_walk {cursor : Option Rid} {vs : List (Option (Rid × Row))}
    (hopen : reads p.pool (BTree.firstGe p.root p.range.startKey p.keyType) = .ok cursor)
    (h : Walks p cursor vs) (hfuel : vs.length < fuel) :
    Select.Outputs (new p fuel) (rowsOf vs) := by
  refine ⟨⟨cursor, true⟩, ?_, runs_walk true (Nat.le_refl _) hfuel h⟩
  simp only [new, executor, openScan, hopen, bind, Except.bind, Bool.false_eq_true, if_false]

/-! ## The entries of the range -/

/-- The range from one key to another, both of them in it. -/
def Plan.Within (p : Plan) (low high : Key p.keyType) : Prop :=
  p.range = .between low.bytes high.bytes ∨ p.range = .eq low.bytes ∧ low = high

section Entries

variable {low high : Key p.keyType}

theorem Plan.Within.startKey (h : p.Within low high) : p.range.startKey = low.bytes := by
  rcases h with h | ⟨h, -⟩ <;> rw [h] <;> rfl

/-- Behind its first key the range ends with its last one. -/
theorem Plan.Within.past (h : p.Within low high) {k : Key p.keyType} (hk : low.rank ≤ k.rank) :
    p.range.past k.bytes p.keyType = .ok (decide (high.rank < k.rank)) := by
  rcases h with h | ⟨h, rfl⟩
  · rw [h]
    simp only [IndexRange.past, Key.compareKeys_eq, bind, Except.bind]
    rcases lt_trichotomy k.rank high.rank with hlt | heq | hgt
    · simp [hlt, hlt.not_gt]
    · simp [heq]
    · simp [hgt, hgt.not_gt, hgt.ne']
  · rw [h]
    simp only [IndexRange.past, Key.compareKeys_eq, bind, Except.bind]
    rcases eq_or_lt_of_le hk with heq | hgt
    · simp [heq]
    · simp [hgt, hgt.not_gt, hgt.ne']

/-- The walk over sorted entries stops behind the last one of the range. -/
theorem walks_entries (hwithin : p.Within low high) {version : Rid → Option (Rid × Row)} :
    ∀ {es : List (Key p.keyType × Rid)} {n : Nat} {cursor : Option Rid},
    scanFrom n cursor p.pool = .ok (rawEntries es) p.pool →
    (es.Pairwise fun x y => x.1.rank < y.1.rank) → (∀ e ∈ es, low.rank ≤ e.1.rank) →
    (∀ e ∈ es, p.version e.2 = .ok (version e.2)) →
    Walks p cursor ((es.filter fun e => e.1.rank ≤ high.rank).map fun e => version e.2)
  | es, n, none, h, _, _, _ => by
    rw [scanFrom] at h
    cases es with
    | nil => exact .stop
    | cons e es => cases h
  | _, 0, some _, h, _, _, _ => by cases h
  | es, n + 1, some c, h, hlt, hlow, hversion => by
    rw [scanFrom] at h
    obtain ⟨found, s, hread, h⟩ := EStateM.of_bind_ok h
    obtain rfl : s = p.pool := (readOnly_readAt c).eq_of_ok hread
    have hread := reads_of_ok hread
    cases found with
    | none =>
      cases es with
      | nil => exact .ended hread
      | cons e es => cases h
    | some entry =>
      obtain ⟨key, rid, nextCursor⟩ := entry
      obtain ⟨rest, s, hrest, h⟩ := EStateM.of_bind_ok h
      cases es with
      | nil => cases h
      | cons e es =>
        obtain ⟨k, r⟩ := e
        have hraw : (key, rid) :: rest = (k.bytes, r) :: rawEntries es := (EStateM.Result.ok.inj h).1
        obtain rfl : s = p.pool := (EStateM.Result.ok.inj h).2
        obtain ⟨hentry, rfl⟩ := List.cons.inj hraw
        obtain ⟨rfl, rfl⟩ := Prod.mk.inj hentry
        have hpast := hwithin.past (hlow (k, rid) List.mem_cons_self)
        obtain ⟨hk, hlt⟩ := List.pairwise_cons.1 hlt
        -- behind the first key past the range no key is in it: they only grow
        by_cases hhigh : k.rank ≤ high.rank
        · rw [decide_eq_false hhigh.not_gt] at hpast
          rw [List.filter_cons_of_pos (by simpa using hhigh), List.map_cons]
          exact .entry hread hpast (hversion (k, rid) List.mem_cons_self)
            (walks_entries hwithin hrest hlt (fun e he => hlow e (List.mem_cons_of_mem _ he))
              fun e he => hversion e (List.mem_cons_of_mem _ he))
        · rw [decide_eq_true (not_le.1 hhigh)] at hpast
          have hnone : ((k, rid) :: es).filter (fun e => e.1.rank ≤ high.rank) = [] := by
            refine List.filter_eq_nil_iff.2 fun e he => ?_
            rcases List.mem_cons.1 he with rfl | he
            · simpa using hhigh
            · simpa using (not_le.1 hhigh).trans (hk e he)
          rw [hnone]
          exact .past hread hpast

/-- **An index scan puts out the rows of its range**, in the order of the keys and each once, in
every state that insertions and deletions of distinct keys lead to. -/
theorem range_scan {w : Nat} (hw : BTree.fixedWidth p.keyType = some w) {s₀ : BufferPool}
    {root₀ : Nat} {S : Finset (Key p.keyType × Rid)} (h₀ : EmptyLeaf s₀ root₀)
    (hrun : BTree.Run p.keyType s₀ root₀ p.pool p.root S) (hwithin : p.Within low high)
    {version : Rid → Option (Rid × Row)} (hversion : ∀ e ∈ S, p.version e.2 = .ok (version e.2)) :
    ∃ es : List (Key p.keyType × Rid), (es.Pairwise fun x y => x.1.rank < y.1.rank) ∧
      (∀ e, e ∈ es ↔ e ∈ S ∧ low.rank ≤ e.1.rank ∧ e.1.rank ≤ high.rank) ∧
      ∀ fuel, S.card < fuel →
        Select.Outputs (new p fuel) (es.filterMap fun e => (version e.2).map Prod.snd) := by
  obtain ⟨cursor, es, hopen, hlt, hmem, hscan⟩ := (BTree.run_refines_sortedMap hw h₀ hrun).scan low
  have hwalk := walks_entries hwithin (hscan _ (Nat.lt_succ_self _)) hlt
    (fun e he => ((hmem e).1 he).2) fun e he => hversion e ((hmem e).1 he).1
  have hsorted := hlt.sublist (List.filter_sublist (p := fun e => decide (e.1.rank ≤ high.rank)))
  have hin : ∀ e, e ∈ es.filter (fun e => decide (e.1.rank ≤ high.rank)) ↔
      e ∈ S ∧ low.rank ≤ e.1.rank ∧ e.1.rank ≤ high.rank := fun e => by
    rw [List.mem_filter, hmem, decide_eq_true_eq, and_assoc]
  refine ⟨_, hsorted, hin, fun fuel hfuel => ?_⟩
  -- the fuel: the entries are distinct, so there are at most as many as in the index
  have hcard := (BTree.length_eq_card hsorted fun e =>
    (hin e).trans (Finset.mem_filter (p := fun e : Key p.keyType × Rid => low.rank ≤ e.1.rank ∧ e.1.rank ≤ high.rank)).symm).trans_le
      (Finset.card_filter_le _ _)
  rw [← hwithin.startKey] at hopen
  have hout : Select.Outputs (new p fuel) _ :=
    outputs_walk (reads_of_ok hopen) hwalk (by rw [List.length_map]; omega)
  rw [rowsOf, List.reduceOption, List.filterMap_map, List.map_filterMap] at hout
  exact hout

end Entries

/-- An empty index in front of a page with the rows of 5, 6, 7, 8, 9 and 12, in this order;
transaction 2 has written them and deleted the one of 6. -/
def sixRows : BufferPool where
  pages := fun q =>
    if q = 1 then
      ⟨1, NO_NEXT_PAGE, [(5, 0), (6, 2), (7, 0), (8, 0), (9, 0), (12, 0)].map fun e =>
        ⟨0, some (.heap ⟨2, e.2, noCtid, [.int e.1]⟩)⟩, 0, 0, .heap, false⟩
    else BTree.initLeaf (.new q)
  pageCount := 2
  freeList := []
  diskPages := 9
  diskPages_le := nine_le_noNextPage

/-- Their entries. -/
def sixEntries : List (Key .int × Rid) :=
  ([5, 6, 7, 8, 9, 12] : List Int32).zipIdx.map fun e => (BTree.intKey e.1, (1, e.2))

theorem sixEntries_sorted : sixEntries.Pairwise fun x y => x.1.rank < y.1.rank := by
  rw [sixEntries, List.pairwise_map]
  simp only [BTree.rank_intKey]
  decide

theorem heaps_sixRows : Heaps [1] (fun _ => [1]) sixRows := by
  have hone : ∀ {q : Nat}, q ∈ [1] → q = 1 := List.mem_singleton.1
  have hlink : ∀ q, sixRows.next q = NO_NEXT_PAGE := fun q => by
    simp only [BufferPool.next, sixRows]
    split <;> rfl
  refine ⟨⟨List.nodup_nil, by simp [sixRows], by decide⟩, ⟨by simp [sixRows], fun q hq _ => ?_,
    fun q _ _ => Or.inl (hlink q)⟩, fun f hf => ?_, fun _ _ => List.nodup_singleton 1,
    fun f hf g hg _ _ _ => (hone hf).trans (hone hg).symm, fun f hf q hq => ?_, fun f hf q hq => ?_,
    fun f hf q hq => ?_⟩
  · simp only [sixRows]
    split
    · next h => exact h.symm
    · rfl
  · rw [hone hf]
    exact ⟨rfl, by decide, hlink 1⟩
  all_goals rw [hone hq]
  · decide
  · rfl
  · intro slot hslot x hx
    simp only [sixRows, if_true, List.mem_map] at hslot
    obtain ⟨e, -, rfl⟩ := hslot
    cases hx
    exact ⟨_, rfl⟩

/-- The six insertions, which leave the rows alone. -/
theorem run_sixEntries : ∃ s, BTree.Run .int sixRows 0 s 0 sixEntries.toFinset ∧
    s.Used 1 ∧ s.pages 1 = sixRows.pages 1 := by
  have h₀ : EmptyLeaf sixRows 0 :=
    ⟨⟨List.nodup_nil, by simp [sixRows], by decide⟩, ⟨by decide, by simp [sixRows]⟩, rfl⟩
  have htold : BTree.Told sixRows 0
      (fun s root es => BTree.Run .int sixRows 0 s root es.toFinset) sixEntries :=
    BTree.told_sorted sixEntries_sorted
  have hframe : BTree.Told sixRows 0 (fun s root es => BTree.Run .int sixRows 0 s root es.toFinset ∧
      Indexes [1] (fun _ => [1]) sixRows s) sixEntries := by
    refine ⟨⟨htold.start, .refl heaps_sixRows⟩, fun front e hpre s s' root' hst hP hcall =>
      ⟨htold.insert front e hpre s s' root' hst hP.1 hcall, hP.2.trans ?_⟩⟩
    have hfinal := (frames_insert 0 e.1.bytes e.2 .int s).final hP.2.heaps
    rw [hcall] at hfinal
    exact hfinal
  obtain ⟨s, ⟨hrun, hs⟩, -⟩ := BTree.fill_leaf (w := 4) rfl h₀ (by decide) sixEntries
    (sixEntries_sorted.imp fun h => h.le) (by decide) (by decide) hframe
  exact ⟨s, hrun, hs.heaps.used 1 (List.mem_singleton_self 1) 1 (List.mem_singleton_self 1),
    hs.same 1 (List.mem_singleton_self 1) (by decide) 1 (List.mem_singleton_self 1)⟩

/-- The keys from 5 to 9, read by transaction 3. -/
def fiveToNine (pool : BufferPool) : Plan where
  pool := pool
  root := 0
  range := .between (BTree.intKey 5).bytes (BTree.intKey 9).bytes
  keyType := .int
  snapshot := ⟨3, 4, [3]⟩
  tm := ⟨4, [(3, 0)], fun id => if id = 2 then .committed else .inProgress⟩

/-- What the page of the rows has for it. -/
def sixVersions (rid : Rid) : Option (Rid × Row) :=
  ([some 5, none, some 7, some 8, some 9, some 12].getD rid.2 none).map fun n => (rid, [.int n])

theorem version_sixRows {s : BufferPool} (hused : s.Used 1) (hpage : s.pages 1 = sixRows.pages 1)
    {i : Nat} (hi : i < 6) : (fiveToNine s).version (1, i) = .ok (sixVersions (1, i)) := by
  have hfetch : fetchPage 1 s = .ok (sixRows.pages 1) s := by rw [fetchPage_used hused, hpage]
  have hread : ∀ t, ((sixRows.pages 1).getTuple i).map decodeRow = some (.ok t) →
      fetchTuple (1, i) s = .ok (some (sixRows.pages 1, t)) s := fun t ht => by
    obtain ⟨raw, hraw, ht⟩ := Option.map_eq_some_iff.1 ht
    rw [fetchTuple, EStateM.bind_of_ok hfetch]
    simp only [hraw, ht]
    rfl
  have hfollow : ∀ t, ((sixRows.pages 1).getTuple i).map decodeRow = some (.ok t) →
      isNoCtid t.ctid = true → (fiveToNine s).version (1, i) =
        .ok (if rowVisible (sixRows.pages 1) t (fiveToNine s).snapshot (fiveToNine s).tm
          then some ((1, i), t.values) else none) := fun t ht hend => by
    show reads s (followChainVisible _ _ (31 + 1) (1, i)) = _
    rw [followChainVisible, reads_bind (readOnly_fetchTuple _), reads_of_ok (hread t ht)]
    simp only [bind, Except.bind]
    split
    · rfl
    · rfl
  interval_cases i <;> exact hfollow _ rfl rfl

theorem mem_take_five : ∀ x ∈ ([5, 6, 7, 8, 9, 12] : List Int32).zipIdx,
    [(5 : Int32).toInt] ≤ [x.1.toInt] ∧ [x.1.toInt] ≤ [(9 : Int32).toInt] ↔
      x ∈ ([5, 6, 7, 8, 9, 12] : List Int32).zipIdx.take 5 := by decide

/-- **The rows from 5 to 9** but the deleted one, and not the one of 12. -/
theorem range_scan_fiveToNine : ∃ s, BTree.Run .int sixRows 0 s 0 sixEntries.toFinset ∧
    ∀ fuel, 6 < fuel → Select.Outputs (new (fiveToNine s) fuel)
      [[.int 5], [.int 7], [.int 8], [.int 9]] := by
  have h₀ : EmptyLeaf sixRows 0 :=
    ⟨⟨List.nodup_nil, by simp [sixRows], by decide⟩, ⟨by decide, by simp [sixRows]⟩, rfl⟩
  obtain ⟨s, hrun, hused, hpage⟩ := run_sixEntries
  have hversion : ∀ e ∈ sixEntries.toFinset,
      (fiveToNine s).version e.2 = .ok (sixVersions e.2) := fun e he => by
    obtain ⟨x, hx, rfl⟩ := List.mem_map.1 (List.mem_toFinset.1 he)
    exact version_sixRows hused hpage (by simpa using List.snd_lt_of_mem_zipIdx hx)
  have hscan : ∃ es : List (Key .int × Rid), (es.Pairwise fun x y => x.1.rank < y.1.rank) ∧
      (∀ e, e ∈ es ↔ e ∈ sixEntries.toFinset ∧ (BTree.intKey 5).rank ≤ e.1.rank ∧
        e.1.rank ≤ (BTree.intKey 9).rank) ∧
      ∀ fuel, sixEntries.toFinset.card < fuel → Select.Outputs (new (fiveToNine s) fuel)
        (es.filterMap fun e => (sixVersions e.2).map Prod.snd) :=
    range_scan (p := fiveToNine s) (w := 4) rfl h₀ hrun (Or.inl rfl) hversion
  obtain ⟨es, hlt, hmem, hout⟩ := hscan
  -- the entries of the range are the first five
  have hes : es = sixEntries.take 5 := by
    have htake := sixEntries_sorted.sublist (List.take_sublist 5 sixEntries)
    refine List.Perm.eq_of_pairwise (fun x y _ _ hxy hyx => absurd hxy hyx.asymm) hlt htake ?_
    refine (List.perm_ext_iff_of_nodup (hlt.imp fun h heq => ?_) (htake.imp fun h heq => ?_)).2 fun e => ?_
    · exact h.ne (congrArg (fun x : Key .int × Rid => x.1.rank) heq)
    · exact h.ne (congrArg (fun x : Key .int × Rid => x.1.rank) heq)
    · rw [hmem, List.mem_toFinset, sixEntries, ← List.map_take, List.mem_map, List.mem_map]
      constructor
      · rintro ⟨⟨x, hx, rfl⟩, hrange⟩
        rw [BTree.rank_intKey, BTree.rank_intKey, BTree.rank_intKey] at hrange
        exact ⟨x, (mem_take_five x hx).1 hrange, rfl⟩
      · rintro ⟨x, hx, rfl⟩
        have hx' := List.mem_of_mem_take hx
        rw [BTree.rank_intKey, BTree.rank_intKey, BTree.rank_intKey]
        exact ⟨⟨x, hx', rfl⟩, (mem_take_five x hx').2 hx⟩
  subst hes
  exact ⟨s, hrun, fun fuel hfuel => hout fuel (lt_of_le_of_lt (List.toFinset_card_le _) hfuel)⟩

/-! ## The rows of UPDATE and DELETE -/

/-- A row the loop looks at, kept or not. -/
theorem passing_matchesRow {arith : Arith} {e : AnalyzedExpr} {row : Row} {rows out : List Row}
    {keep : Bool} (hkeep : matchesRow (some (e.predicate arith)) row = .ok keep)
    (hrows : Select.passing arith e rows = .ok out) :
    Select.passing arith e (row :: rows) = .ok (if keep then row :: out else out) := by
  obtain ⟨v, hv, hkeep⟩ := bind_ok.1 hkeep
  have hv : evaluateExpr arith row e = .ok v := hv
  simp only [Select.passing, hv, bind, Except.bind]
  split at hkeep
  · next b =>
    cases hkeep
    cases keep with
    | true =>
      simp only [hrows]
      rfl
    | false => exact hrows
  · cases hkeep
    exact hrows
  · cases hkeep

theorem walks_of_indexRows {arith : Arith} {e : AnalyzedExpr} : ∀ {n : Nat} {cursor : Option Rid}
    {out : List (Rid × Row)}, reads p.pool (indexRowsLoop (some (e.predicate arith)) p.range p.keyType
      p.snapshot p.tm n cursor) = .ok out →
    ∃ vs, Walks p cursor vs ∧ Select.passing arith e (rowsOf vs) = .ok (out.map Prod.snd)
  | 0, _, _, h => by cases h
  | _ + 1, none, _, h => by
    cases h
    exact ⟨[], .stop, rfl⟩
  | n + 1, some c, out, h => by
    rw [indexRowsLoop, reads_bind (readOnly_readAt c)] at h
    obtain ⟨found, hread, h⟩ := bind_ok.1 h
    cases found with
    | none =>
      cases h
      exact ⟨[], .ended hread, rfl⟩
    | some entry =>
      obtain ⟨key, rid, nextCursor⟩ := entry
      dsimp only at h
      rw [reads_bind (readOnly_liftE _), reads_liftE] at h
      obtain ⟨past, hpast, h⟩ := bind_ok.1 h
      cases past with
      | true =>
        cases h
        exact ⟨[], .past hread hpast, rfl⟩
      | false =>
        rw [if_neg Bool.false_ne_true, reads_bind (readOnly_followChainVisible _ _ _ _)] at h
        obtain ⟨v, hversion, h⟩ := bind_ok.1 h
        cases v with
        | none =>
          obtain ⟨vs, hwalk, hpass⟩ := walks_of_indexRows h
          exact ⟨none :: vs, .entry hread hpast hversion hwalk, hpass⟩
        | some r =>
          obtain ⟨live, values⟩ := r
          dsimp only at h
          rw [reads_bind (readOnly_liftE _), reads_liftE] at h
          obtain ⟨keep, hkeep, h⟩ := bind_ok.1 h
          rw [reads_bind (readOnly_indexRowsLoop _ _ _ _ _ _ _)] at h
          obtain ⟨rest, hrest, h⟩ := bind_ok.1 h
          cases h
          obtain ⟨vs, hwalk, hpass⟩ := walks_of_indexRows hrest
          refine ⟨some (live, values) :: vs, .entry hread hpast hversion hwalk, ?_⟩
          have hrows := passing_matchesRow hkeep hpass
          cases keep <;> exact hrows

/-- **SELECT finds the rows UPDATE and DELETE find.** Where their loop over the index returns,
the index scan under WHERE puts out the same rows in the same order. -/
theorem select_finds_matching_rows {ev : Select.Evaluation} {e : AnalyzedExpr} {n : Nat}
    {out : List (Rid × Row)}
    (h : reads p.pool (do
      let cursor ← BTree.firstGe p.root p.range.startKey p.keyType
      indexRowsLoop (some (e.predicate ev.arith)) p.range p.keyType p.snapshot p.tm n cursor) = .ok out) :
    ∃ m, ∀ fuel, m ≤ fuel →
      Select.Outputs (Select.filtered ev fuel (some e) (new p fuel)) (out.map Prod.snd) := by
  rw [reads_bind (readOnly_firstGe _ _ _)] at h
  obtain ⟨cursor, hopen, h⟩ := bind_ok.1 h
  obtain ⟨vs, hwalk, hpass⟩ := walks_of_indexRows h
  refine ⟨vs.length + (rowsOf vs).length + 1, fun fuel hfuel => ?_⟩
  exact Select.outputs_filtered (outputs_walk hopen hwalk (by omega)) hpass (by omega)

/-- The pages behind the insertions. -/
def sixPool : BufferPool :=
  sixRows.set 0 (BTree.pushAll (BTree.initLeaf (.new 0)) (BTree.leafTuples sixEntries))

/-- `a <> 8`, over the rows from 5 to 9. -/
def notEight : AnalyzedExpr := .binaryOp (.columnRef ⟨0, .int⟩) .ne (.literal ⟨.integer 8, some .int⟩) .bool

theorem select_finds_matching_rows_notEight : ∃ m, ∀ fuel, m ≤ fuel →
    Select.Outputs (Select.filtered Select.plainEvaluation fuel (some notEight)
      (new (fiveToNine sixPool) fuel)) [[.int 5], [.int 7], [.int 9]] :=
  @select_finds_matching_rows (fiveToNine sixPool) Select.plainEvaluation notEight 7
    [((1, 0), [.int 5]), ((1, 2), [.int 7]), ((1, 4), [.int 9])] rfl

end Ccdb.Pipeline.IndexScan
