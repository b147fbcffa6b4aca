import Ccdb.BTree.KeyCodec
import Ccdb.Exec.HotChains

/-!
# Ccdb — the foreign-key probe

`fk_target_exists` looks for a visible row with a value in the referenced column:
through the index on that column if there is one, else through all visible rows.
The index path looks at the versions the entries point to and at no others. Of the
tree it reads one leaf, which is a parameter here.

Main results:

* `mem_leafLookupEq` — what an exact lookup in a leaf finds.
* `fk_probe_agrees_iff` — the two paths agree if a row with the value that was not
  written by a HOT update has its entry in the leaf, or no row has the value.
-/

namespace Ccdb.IndexBuild

open BTree (encodeKey compareKeys)

/-! ## The two paths -/

/-- `leaf_lookup_eq` on the entries of a leaf, in the order of its slots. -/
def leafLookupEq (ty : DataType) (key : Bytes) : List (Value × Nat) → Except DbError (List Nat)
  | [] => .ok []
  | e :: rest => do
    match ← compareKeys (encodeKey e.1) key ty with
    | .eq =>
      let rids ← leafLookupEq ty key rest
      return e.2 :: rids
    | .gt => return []
    | .lt => leafLookupEq ty key rest

/-- `fk_target_exists`: `leaf` is the leaf that the descent for the value reaches in the
index on the referenced column, if there is one. -/
def fkTargetExists (st : State) (snap : Snapshot) (ty : DataType)
    (leaf : Option (List (Value × Nat))) (target : Value) : Except DbError Bool :=
  let hit := fun v : RowVersion => st.sees snap v && valuesEqual (st.key v.vals) target
  match leaf with
  | some leaf => do
    let candidates ← leafLookupEq ty (encodeKey target) leaf
    return candidates.any fun r => (st.heap[r]?).any hit
  | none => .ok (st.heap.any hit)

/-- The snapshot sees the version at `r`, and it has the value. -/
def Target (st : State) (snap : Snapshot) (target : Value) (r : Nat) (v : RowVersion) : Prop :=
  st.heap[r]? = some v ∧ st.sees snap v = true ∧ valuesEqual (st.key v.vals) target = true

/-- An entry for `r` with the key stands in the leaf, behind no greater one. -/
def InFront (ty : DataType) (key : Bytes) (leaf : List (Value × Nat)) (r : Nat) : Prop :=
  ∃ pre k post, leaf = pre ++ (k, r) :: post ∧ compareKeys (encodeKey k) key ty = .ok .eq ∧
    ∀ e ∈ pre, compareKeys (encodeKey e.1) key ty ≠ .ok .gt

/-! ## Lookups in a leaf -/

section Leaf

variable {ty : DataType} {key : Bytes} {target : Value} {e : Value × Nat}
  {leaf rest : List (Value × Nat)} {r : Nat} {rids : List Nat}

theorem inFront_cons : InFront ty key (e :: rest) r ↔
    (e.2 = r ∧ compareKeys (encodeKey e.1) key ty = .ok .eq) ∨
      (compareKeys (encodeKey e.1) key ty ≠ .ok .gt ∧ InFront ty key rest r) := by
  constructor
  · rintro ⟨pre, k, post, hsplit, hk, hpre⟩
    cases pre with
    | nil =>
      obtain ⟨rfl, -⟩ := List.cons.inj hsplit
      exact Or.inl ⟨rfl, hk⟩
    | cons x pre =>
      obtain ⟨rfl, htail⟩ := List.cons.inj hsplit
      refine Or.inr ⟨hpre e List.mem_cons_self, pre, k, post, htail, hk, fun y hy => ?_⟩
      exact hpre y (List.mem_cons_of_mem _ hy)
  · rintro (⟨rfl, hk⟩ | ⟨hne, pre, k, post, rfl, hk, hpre⟩)
    · exact ⟨[], e.1, rest, rfl, hk, nofun⟩
    · refine ⟨e :: pre, k, post, rfl, hk, fun y hy => ?_⟩
      rcases List.mem_cons.1 hy with rfl | hy
      · exact hne
      · exact hpre y hy

theorem InFront.mem (h : InFront ty key leaf r) : ∃ k, (k, r) ∈ leaf := by
  obtain ⟨pre, k, post, rfl, -⟩ := h
  exact ⟨k, by simp⟩

/-- **An exact lookup in a leaf** finds the entries that no greater key stands before. -/
theorem mem_leafLookupEq (h : leafLookupEq ty key leaf = .ok rids) :
    r ∈ rids ↔ InFront ty key leaf r := by
  induction leaf generalizing rids with
  | nil =>
    cases h
    exact iff_of_false List.not_mem_nil fun ⟨pre, k, post, hsplit, _⟩ => by simp at hsplit
  | cons e rest ih =>
    rw [inFront_cons]
    unfold leafLookupEq at h
    cases ho : compareKeys (encodeKey e.1) key ty with
    | error x =>
      rw [ho] at h
      cases h
    | ok o =>
      rw [ho] at h
      cases o with
      | lt => simpa using ih h
      | gt =>
        cases h
        simp
      | eq =>
        cases hrest : leafLookupEq ty key rest with
        | error x =>
          rw [hrest] at h
          cases h
        | ok rids' =>
          rw [hrest] at h
          cases h
          simp [ih hrest, eq_comm]

/-- A lookup fails on INTERVAL keys only. -/
theorem leafLookupEq_ok (hty : ty ≠ .interval) (ht : target.dataType = some ty)
    (hleaf : ∀ e ∈ leaf, e.1.dataType = some ty) :
    ∃ rids, leafLookupEq ty (encodeKey target) leaf = .ok rids := by
  induction leaf with
  | nil => exact ⟨[], rfl⟩
  | cons e rest ih =>
    obtain ⟨rids, hrids⟩ := ih fun x hx => hleaf x (List.mem_cons_of_mem _ hx)
    have he := hleaf e List.mem_cons_self
    obtain ⟨o, ho, -⟩ := BTree.compareValues_rank hty he ht
    rw [← BTree.compareKeys_self he ht] at ho
    unfold leafLookupEq
    rw [ho, hrids]
    cases o <;> exact ⟨_, rfl⟩

theorem leafLookupEq_interval (ht : target.dataType = some .interval)
    (he : e.1.dataType = some .interval) :
    ∃ x, leafLookupEq .interval (encodeKey target) (e :: rest) = .error x := by
  unfold leafLookupEq
  rw [BTree.compareKeys_self he ht]
  obtain ⟨k, r⟩ := e
  cases k <;> cases he
  cases target <;> cases ht
  exact ⟨_, rfl⟩

end Leaf

/-! ## Agreement -/

theorem valuesEqual_iff {v w : Value} : valuesEqual v w = true ↔
    v = w ∧ v ≠ .null ∧ v.dataType ≠ some .interval := by
  cases v <;> cases w <;> simp [valuesEqual, Value.dataType]

section Probe

variable {st : State} {snap : Snapshot} {ty : DataType} {leaf es : List (Value × Nat)}
  {target : Value} {r : Nat} {rids : List Nat}

/-- The heap path: some visible row has the value. -/
theorem fkTargetExists_scan : fkTargetExists st snap ty none target = .ok true ↔
    ∃ r v, Target st snap target r v := by
  simp only [fkTargetExists, Except.ok.injEq, List.any_eq_true, Bool.and_eq_true]
  constructor
  · rintro ⟨v, hv, hhit⟩
    obtain ⟨r, hr⟩ := List.getElem?_of_mem hv
    exact ⟨r, v, hr, hhit⟩
  · rintro ⟨r, v, hr, hhit⟩
    exact ⟨v, List.mem_of_getElem? hr, hhit⟩

/-- The index path: an entry that the lookup finds points to such a row. -/
theorem fkTargetExists_probe (h : leafLookupEq ty (encodeKey target) leaf = .ok rids) :
    fkTargetExists st snap ty (some leaf) target = .ok true ↔
      ∃ r v, Target st snap target r v ∧ InFront ty (encodeKey target) leaf r := by
  simp only [fkTargetExists, h, bind, Except.bind, pure, Except.pure, Except.ok.injEq,
    List.any_eq_true, mem_leafLookupEq h, Option.any_eq_true, Bool.and_eq_true]
  constructor
  · rintro ⟨r, hr, v, hv, hhit⟩
    exact ⟨r, v, ⟨hv, hhit⟩, hr⟩
  · rintro ⟨r, v, ⟨hv, hhit⟩, hr⟩
    exact ⟨r, hr, v, hv, hhit⟩

/-- Both paths return the same. -/
def FkProbeAgrees (st : State) (snap : Snapshot) (ty : DataType) (leaf : List (Value × Nat))
    (target : Value) : Prop :=
  fkTargetExists st snap ty (some leaf) target = fkTargetExists st snap ty none target

/-- Without INTERVAL keys both return, and a row that the probe finds is one that the
scan finds. -/
theorem fkProbeAgrees_iff (h : leafLookupEq ty (encodeKey target) leaf = .ok rids) :
    FkProbeAgrees st snap ty leaf target ↔ ((∃ r v, Target st snap target r v) →
      ∃ r v, Target st snap target r v ∧ InFront ty (encodeKey target) leaf r) := by
  obtain ⟨b, hb⟩ : ∃ b, fkTargetExists st snap ty (some leaf) target = .ok b := by
    simp only [fkTargetExists, h, bind, Except.bind, pure, Except.pure]
    exact ⟨_, rfl⟩
  obtain ⟨c, hc⟩ : ∃ c, fkTargetExists st snap ty none target = .ok c := ⟨_, rfl⟩
  rw [← @fkTargetExists_scan st snap ty target, ← fkTargetExists_probe h, FkProbeAgrees, hb, hc]
  constructor
  · intro heq hscan
    rw [heq, hscan]
  · intro hscan
    have hback : b = true → c = true := by
      rintro rfl
      obtain ⟨r, v, hv, -⟩ := (fkTargetExists_probe h).1 hb
      have hfound := (@fkTargetExists_scan st snap ty target).2 ⟨r, v, hv⟩
      rw [hc] at hfound
      exact Except.ok.inj hfound
    cases b <;> cases c <;> simp_all

end Probe

/-- INTERVAL keys do not compare: the probe fails as soon as the leaf has an entry, and
the scan finds nothing. -/
theorem fkProbeAgrees_interval {st : State} {snap : Snapshot} {leaf : List (Value × Nat)}
    {target : Value} (ht : target.dataType = some .interval)
    (hleaf : ∀ e ∈ leaf, e.1.dataType = some .interval) :
    FkProbeAgrees st snap .interval leaf target ↔ leaf = [] := by
  have hnone : ¬ ∃ r v, Target st snap target r v := by
    rintro ⟨r, v, -, -, heq⟩
    obtain ⟨hv, -, hne⟩ := valuesEqual_iff.1 heq
    exact hne (hv ▸ ht)
  cases leaf with
  | nil =>
    have hempty : leafLookupEq .interval (encodeKey target) [] = .ok [] := rfl
    exact iff_of_true ((fkProbeAgrees_iff hempty).2 fun h => absurd h hnone) rfl
  | cons e rest =>
    obtain ⟨x, hx⟩ := @leafLookupEq_interval target e rest ht (hleaf e List.mem_cons_self)
    refine iff_of_false (fun heq => ?_) (List.cons_ne_nil _ _)
    simp only [FkProbeAgrees, fkTargetExists, hx, bind, Except.bind] at heq
    cases heq

/-- An empty table before the CREATE INDEX. -/
theorem Grounded.new (others : List Nat) (col : Nat) : Grounded (State.new others col) :=
  ⟨fun _ _ hv => absurd hv List.not_mem_nil, nofun⟩

/-- What the probe finds was not written by a HOT update. -/
theorem Grounded.fkProbeAgrees_iff {st : State} {es leaf : List (Value × Nat)} {snap : Snapshot}
    {ty : DataType} {target : Value} (h : Grounded st) (hes : st.entries = some es)
    (hleaf : ∀ e ∈ leaf, e ∈ es ∧ e.1.dataType = some ty) (ht : target.dataType = some ty) :
    FkProbeAgrees st snap ty leaf target ↔ (ty = .interval → leaf = []) ∧
      ((∃ r v, Target st snap target r v) → ∃ r v, Target st snap target r v ∧ v.hops = 0 ∧
        InFront ty (encodeKey target) leaf r) := by
  have hhops : ∀ {r v}, InFront ty (encodeKey target) leaf r → Target st snap target r v →
      v.hops = 0 := by
    intro r v hfront hv
    obtain ⟨k, hk⟩ := hfront.mem
    obtain ⟨w, hw, -, hzero⟩ := h.entry es hes (k, r) (hleaf _ hk).1
    rw [hv.1] at hw
    cases hw
    exact hzero
  by_cases hty : ty = .interval
  · subst hty
    rw [fkProbeAgrees_interval ht fun e he => (hleaf e he).2]
    refine ⟨fun hnil => ⟨fun _ => hnil, fun ⟨r, v, hv⟩ => ?_⟩, fun h => h.1 rfl⟩
    obtain ⟨heq, -, hne⟩ := valuesEqual_iff.1 hv.2.2
    exact absurd (heq ▸ ht) hne
  · obtain ⟨rids, hrids⟩ := leafLookupEq_ok hty ht fun e he => (hleaf e he).2
    rw [IndexBuild.fkProbeAgrees_iff hrids]
    constructor
    · refine fun h => ⟨fun heq => absurd heq hty, fun hscan => ?_⟩
      obtain ⟨r, v, hv, hfront⟩ := h hscan
      exact ⟨r, v, hv, hhops hfront hv, hfront⟩
    · rintro ⟨-, h⟩ hscan
      obtain ⟨r, v, hv, -, hfront⟩ := h hscan
      exact ⟨r, v, hv, hfront⟩

/-- **The foreign-key probe**: in every reachable state, for every snapshot and every
value of the column's type, the index path agrees with the scan if and only if the
snapshot sees no row with the value, or one that no HOT update has written since the
CREATE INDEX and whose entry stands in the leaf behind no greater key; on an INTERVAL
column the leaf has to be empty. -/
theorem fk_probe_agrees_iff (others : List Nat) (col : Nat) (events : List Event)
    (hrun : Follows State.step (fun _ _ => True) (State.new others col) events) :
    let st := after State.step (State.new others col) events
    ∀ es, st.entries = some es → ∀ (snap : Snapshot) (ty : DataType) (leaf : List (Value × Nat))
      (target : Value), (∀ e ∈ leaf, e ∈ es ∧ e.1.dataType = some ty) →
      target.dataType = some ty →
      (FkProbeAgrees st snap ty leaf target ↔ (ty = .interval → leaf = []) ∧
        ((∃ r v, Target st snap target r v) → ∃ r v, Target st snap target r v ∧ v.hops = 0 ∧
          InFront ty (encodeKey target) leaf r)) := by
  intro st es hes snap ty leaf target hleaf ht
  have hground : Grounded st := hrun.invariant (I := Grounded)
    (fun h _ hs => Grounded.stable.step h hs) (Grounded.new others col)
  exact hground.fkProbeAgrees_iff hes hleaf ht

/-- Session 0 builds the index; a second row is inserted, and the first one updated in
the column without an index. -/
def referencedRun : List Event :=
  [.begin 0, .stmt 0 (.insert [⟨[.int 7, .int 0], true, false⟩]), .stmt 0 .createIndex,
    .stmt 0 (.insert [⟨[.int 8, .int 0], true, false⟩]), .commit 0,
    .begin 0, .stmt 0 (.update ⟨.seq fun r _ => r == 0, [(1, fun _ => some (.int 5))],
      fun _ => true, []⟩), .commit 0]

def referenced : State := after State.step (State.new [] 0) referencedRun

def laterSnapshot : Snapshot := ⟨9, 9, []⟩

theorem fk_probe_agrees_for_fresh_row :
    FkProbeAgrees referenced laterSnapshot .int [(.int 7, 0), (.int 8, 1)] (.int 8) := by
  have hiff := fk_probe_agrees_iff [] 0 referencedRun (by decide +kernel)
    [(.int 8, 1), (.int 7, 0)] (by decide +kernel) laterSnapshot .int [(.int 7, 0), (.int 8, 1)]
    (.int 8) (by decide +kernel) rfl
  refine hiff.2 ⟨nofun, fun _ => ⟨1, ⟨1, 0, none, [.int 8, .int 0], 0⟩, ?_, rfl, ?_⟩⟩
  · exact ⟨by decide +kernel, by decide +kernel, by decide +kernel⟩
  · refine ⟨[(.int 7, 0)], .int 8, [], rfl, by decide +kernel, fun e he => ?_⟩
    rw [List.mem_singleton.1 he]
    decide +kernel

/-- **A referenced row is not found** after an update that leaves the referenced column
alone. -/
theorem fk_probe_misses_hot_row :
    Follows State.step (fun _ _ => True) (State.new [] 0) referencedRun ∧
      referenced.entries = some [(.int 8, 1), (.int 7, 0)] ∧
      fkTargetExists referenced laterSnapshot .int (some [(.int 7, 0), (.int 8, 1)]) (.int 7) =
        .ok false ∧
      fkTargetExists referenced laterSnapshot .int none (.int 7) = .ok true := by
  exact ⟨by decide +kernel, by decide +kernel, by decide +kernel, by decide +kernel⟩

end Ccdb.IndexBuild
