import Ccdb.Lib.BPlusTree
import Mathlib.Data.List.Count

/-!
# B+trees with repeated keys

With repeated keys a leaf split may promote a separator equal to the one
that follows, and the entry is then placed behind the wrong subtree. This
module counts copies of the upper bound of every node: as long as at most
half of a full node are copies, the middle of an overflowing node is below
the bound, so no split ties. Leaves of odd capacity escape the count, and
for them a tie at the leaf's parent has to be excluded separately
(`NoLeafTie`).

Main results:

* `Ins.counted` — insertion keeps the count and is a graft on the leaf level.
-/

namespace BPlus

variable {ι K V α : Type} [LinearOrder α] (ρ : K → α)

/-! ## Upper bounds -/

/-- Every child satisfies `P` with the separator that follows it; `hi`
follows the last one. -/
def AllBelow {T : Type} (P : Option α → T → Prop) : Option α → SepList K T → Prop
  | hi, .single c => P hi c
  | hi, .cons c k rest => P (some (ρ k)) c ∧ AllBelow P hi rest

/-- The bound that follows the routed child. -/
def boundAt {T : Type} (le : K → Bool) (hi : Option α) (s : SepList K T) : Option α :=
  match s.nextSep le with
  | some x => some (ρ x)
  | none => hi

variable {ρ}

omit [LinearOrder α] in
theorem allBelow_append {T : Type} {P : Option α → T → Prop} {hi : Option α} {a b : SepList K T}
    {k : K} : AllBelow ρ P hi (a.append k b) ↔ AllBelow ρ P (some (ρ k)) a ∧ AllBelow ρ P hi b := by
  induction a with
  | single c => exact Iff.rfl
  | cons c m a ih =>
    simp only [SepList.append, AllBelow, ih, and_assoc]

omit [LinearOrder α] in
theorem AllBelow.route {T : Type} {P : Option α → T → Prop} {hi : Option α} {s : SepList K T}
    {le : K → Bool} (h : AllBelow ρ P hi s) : P (boundAt ρ le hi s) (s.route le) := by
  induction s with
  | single c => exact h
  | cons c k rest ih =>
    by_cases hk : le k
    · have := ih h.2
      simpa [boundAt, SepList.nextSep, SepList.route, hk] using this
    · simpa [boundAt, SepList.nextSep, SepList.route, hk] using h.1

omit [LinearOrder α] in
theorem AllBelow.graft {T : Type} {P : Option α → T → Prop} {hi : Option α} {s g : SepList K T}
    {le : K → Bool} (h : AllBelow ρ P hi s) (hg : AllBelow ρ P (boundAt ρ le hi s) g) :
    AllBelow ρ P hi (s.graft le g) := by
  induction s with
  | single c => exact hg
  | cons c k rest ih =>
    by_cases hk : le k
    · simp only [boundAt, SepList.nextSep, hk, if_true] at hg
      simp only [SepList.graft, hk, if_true]
      exact ⟨h.1, ih h.2 hg⟩
    · simp only [boundAt, SepList.nextSep, hk, Bool.false_eq_true, if_false] at hg
      simp only [SepList.graft, hk, Bool.false_eq_true, if_false]
      exact allBelow_append.2 ⟨hg, h.2⟩

/-- No rank of the leaf level exceeds `hi`. -/
def BoundedBy (ρ : K → α) (hi : Option α) (s : SepList K (Leaf ι K V)) : Prop :=
  ∀ u, hi = some u → ∀ w ∈ ranks ρ s, w.1 ≤ u

theorem BoundedBy.graft {cap : Capacity K V} {hi : Option α} {s : SepList K (Leaf ι K V)} {k : K}
    {v : V} {o : Outcome K (Leaf ι K V)} (h : BoundedBy ρ hi s) (hk : ∀ u, hi = some u → ρ k < u)
    (hins : LeafIns ρ cap (s.route (upTo ρ k)) k v o) :
    BoundedBy ρ hi (s.graft (upTo ρ k) o.toSep) := by
  intro u hu w hw
  have hs := h u hu
  rw [ranks, SepList.spell_eq (upTo ρ k)] at hs
  simp only [List.mem_append, or_imp, forall_and] at hs
  obtain ⟨⟨hbefore, hleaf⟩, hafter⟩ := hs
  have hgrow : ∀ e ∈ grow ρ k v (s.route (upTo ρ k)).entries, ρ e.1 ≤ u := by
    intro e he
    rcases mem_grow he with rfl | he
    · exact (hk u hu).le
    · exact hleaf _ (List.mem_map.2 ⟨e, he, rfl⟩)
  rw [ranks, SepList.spell_graft] at hw
  simp only [List.mem_append] at hw
  rcases hw with (hw | hw) | hw
  · exact hbefore w hw
  · cases hins with
    | present _ => exact hleaf w hw
    | fit _ _ =>
      obtain ⟨e, he, rfl⟩ := List.mem_map.1 hw
      exact hgrow e he
    | split newId a b e _ _ hab _ _ _ =>
      rw [hab] at hgrow
      simp only [Outcome.toSep, SepList.spell_cons, SepList.spell_single, List.mem_append,
        List.mem_singleton] at hw
      rcases hw with (hw | rfl) | hw
      · obtain ⟨x, hx, rfl⟩ := List.mem_map.1 hw
        exact hgrow x (by simp [hx])
      · exact hgrow e (by simp)
      · obtain ⟨x, hx, rfl⟩ := List.mem_map.1 hw
        exact hgrow x (List.mem_append_right _ hx)
  · exact hafter w hw

/-- The leaf level below one child is bounded by what follows the child. -/
theorem boundedBy_route {T : Type} {s : SepList K T} {h : T → SepList K (Leaf ι K V)}
    {le : K → Bool} {strict : Bool} {hi : Option α} (hord : Ordered ρ strict (s.bind h))
    (hb : BoundedBy ρ hi (s.bind h)) : BoundedBy ρ (boundAt ρ le hi s) (h (s.route le)) := by
  intro u hu w hw
  rw [Ordered, ranks, SepList.spell_bind, SepList.spell_eq le] at hord
  rcases SepList.after_eq_cons le (fun c => ranks ρ (h c)) (fun k => [(ρ k, true)]) s with
    ⟨hnext, -⟩ | ⟨x, post, hnext, hpost, -⟩
  · rw [boundAt, hnext] at hu
    refine hb u hu w ?_
    rw [ranks, SepList.spell_bind, SepList.spell_eq le]
    exact List.mem_append_left _ (List.mem_append_right _ hw)
  · rw [boundAt, hnext] at hu
    obtain rfl := Option.some.inj hu
    have hcross := (List.pairwise_append.1 hord).2.2 w (List.mem_append_right _ hw) (ρ x, true) (by
      simp only [ranks] at hpost
      rw [hpost]
      simp)
    exact hcross.1

/-! ## Counting copies of the bound -/

section Count

variable (ρ) (cap : Capacity K V) (tight : Bool) (mL mN : Nat)

/-- How many of the keys have rank `u`. -/
def copiesOf (u : α) (ks : List K) : Nat := ks.countP fun k => decide (ρ k = u)

/-- At most half of a node are copies of the bound that follows it; for
leaves this is asked only when `tight`. -/
def Counted : (d : Nat) → Option α → Tree ι K V d → Prop
  | 0, hi, t => cap.leafFits (Leaf.entries t) ∧
      (tight = true → ∀ u, hi = some u → copiesOf ρ u ((Leaf.entries t).map Prod.fst) ≤ mL)
  | d + 1, hi, t => cap.nodeFits (Node.kids t).seps ∧
      (∀ u, hi = some u → copiesOf ρ u (Node.kids t).seps ≤ mN) ∧
      AllBelow ρ (Counted d) hi (Node.kids t)

/-- A split of the leaf reached does not promote the separator that follows
the leaf in its parent. -/
def NoLeafTie (k : K) (v : V) : (d : Nat) → Tree ι K V d → Prop
  | 0, _ => True
  | d + 1, t => (d = 0 → ∀ l sep r, Ins ρ cap k v d ((Node.kids t).route (upTo ρ k)) (.split l sep r) →
      ∀ x, (Node.kids t).nextSep (upTo ρ k) = some x → ρ sep ≠ ρ x) ∧
        NoLeafTie k v d ((Node.kids t).route (upTo ρ k))

end Count

theorem copiesOf_append (u : α) (a b : List K) :
    copiesOf ρ u (a ++ b) = copiesOf ρ u a + copiesOf ρ u b := List.countP_append

theorem copiesOf_cons (u : α) (k : K) (ks : List K) :
    copiesOf ρ u (k :: ks) = copiesOf ρ u ks + if ρ k = u then 1 else 0 := by
  simp [copiesOf, List.countP_cons]

theorem copiesOf_le_length (u : α) (ks : List K) : copiesOf ρ u ks ≤ ks.length :=
  List.countP_le_length

theorem copiesOf_eq_length {u : α} {ks : List K} (h : ∀ k ∈ ks, ρ k = u) :
    copiesOf ρ u ks = ks.length :=
  List.countP_eq_length.2 fun k hk => by simpa using h k hk

theorem copiesOf_eq_zero {u : α} {ks : List K} (h : ∀ k ∈ ks, ρ k ≠ u) : copiesOf ρ u ks = 0 :=
  List.countP_eq_zero.2 fun k hk => by simpa using h k hk

theorem copiesOf_insertBefore {E : Type} (u : α) (gt : E → Bool) (f : E → K) (x : E) (es : List E) :
    copiesOf ρ u ((insertBefore gt x es).map f) =
      copiesOf ρ u (es.map f) + if ρ (f x) = u then 1 else 0 := by
  obtain ⟨a, b, hes, hins, -, -⟩ := insertBefore_eq gt x es
  rw [hins, hes, List.map_append, List.map_cons, List.map_append, copiesOf_append, copiesOf_cons,
    copiesOf_append]
  omega

/-- The middle of a sorted list at most half of which are copies of its
bound is below the bound. -/
theorem middle_ne_bound {u : α} {a b : List K} {m : K} {n : Nat}
    (hsorted : (a ++ m :: b).Pairwise fun x y => ρ x ≤ ρ y) (hbound : ∀ k ∈ b, ρ k ≤ u)
    (hcount : copiesOf ρ u (a ++ m :: b) ≤ n) (hlen : n ≤ b.length) : ρ m ≠ u := by
  intro hm
  have hall : ∀ k ∈ m :: b, ρ k = u := by
    intro k hk
    rcases List.mem_cons.1 hk with rfl | hk
    · exact hm
    · have hmk := (List.pairwise_cons.1 (List.pairwise_append.1 hsorted).2.1).1 k hk
      exact le_antisymm (hbound k hk) (hm ▸ hmk)
  rw [copiesOf_append, copiesOf_eq_length hall, List.length_cons] at hcount
  omega

/-! ## Insertion keeps the count -/

section Insertion

variable {cap : Capacity K V} {tight : Bool} {mL mN : Nat} {k : K} {v : V}

theorem boundAt_gt {T : Type} {s : SepList K T} {hi : Option α} (hk : ∀ u, hi = some u → ρ k < u) :
    ∀ u, boundAt ρ (upTo ρ k) hi s = some u → ρ k < u := by
  intro u hu
  rcases SepList.after_eq_cons (upTo ρ k) (fun _ : T => ([] : List K)) (fun x => [x]) s with
    ⟨hnext, -⟩ | ⟨x, post, hnext, -, hx⟩
  · rw [boundAt, hnext] at hu
    exact hk u hu
  · rw [boundAt, hnext] at hu
    obtain rfl := Option.some.inj hu
    simpa [upTo] using hx

/-- A leaf split with a clean count: the halves are counted below the new
separator and below the old bound, and the separator is below the bound. -/
theorem LeafIns.counted {L : Leaf ι K V} {o : Outcome K (Leaf ι K V)} {hi : Option α}
    (hcap : tight = true → ∀ es, cap.leafFits es ↔ es.length ≤ 2 * mL)
    (hins : LeafIns ρ cap L k v o) (hsorted : L.entries.Pairwise fun x y => ρ x.1 ≤ ρ y.1)
    (hbound : ∀ u, hi = some u → ∀ e ∈ L.entries, ρ e.1 ≤ u)
    (hc : Counted ρ cap tight mL mN 0 hi L) (hk : ∀ u, hi = some u → ρ k < u) :
    AllBelow ρ (Counted ρ cap tight mL mN 0) hi o.toSep ∧
      ∀ l sep r, o = .split l sep r → ∀ u, hi = some u → ρ sep = u → tight = false := by
  have hcopies : tight = true → ∀ u, hi = some u →
      copiesOf ρ u ((grow ρ k v L.entries).map Prod.fst) ≤ mL := by
    intro ht u hu
    rw [grow, copiesOf_insertBefore, if_neg (hk u hu).ne]
    exact hc.2 ht u hu
  cases hins with
  | present _ => exact ⟨hc, fun _ _ _ h => by cases h⟩
  | fit _ hfit => exact ⟨⟨hfit, hcopies⟩, fun _ _ _ h => by cases h⟩
  | split newId a b e hnot hfull hab hlen hfa hfb =>
    have hsize : tight = true → L.entries.length = 2 * mL ∧ a.length = mL ∧ b.length = mL := by
      intro ht
      have h1 := (hcap ht _).1 hc.1
      have h2 : ¬ (grow ρ k v L.entries).length ≤ 2 * mL := fun h => hfull ((hcap ht _).2 h)
      have h3 : (grow ρ k v L.entries).length = L.entries.length + 1 := insertBefore_length _ _ _
      have h4 := congrArg List.length hab
      simp only [List.length_append, List.length_cons] at h4
      refine ⟨?_, ?_, ?_⟩ <;> omega
    refine ⟨⟨⟨hfa, fun ht u _ => ?_⟩, hfb, fun ht u hu => ?_⟩, ?_⟩
    · calc copiesOf ρ u (a.map Prod.fst) ≤ (a.map Prod.fst).length := copiesOf_le_length u _
        _ = mL := by rw [List.length_map, (hsize ht).2.1]
    · have hall := hcopies ht u hu
      rw [hab, List.map_append, copiesOf_append] at hall
      exact le_trans (Nat.le_add_left _ _) hall
    · intro l sep r ho u hu hsep
      cases ho
      by_contra hf
      have ht : tight = true := by simpa using hf
      have hgsorted := grow_sorted (k := k) (v := v) hsorted
      have hgbound : ∀ x ∈ grow ρ k v L.entries, ρ x.1 ≤ u := by
        intro x hx
        rcases mem_grow hx with rfl | hx
        · exact (hk u hu).le
        · exact hbound u hu x hx
      have hcount := hcopies ht u hu
      rw [hab] at hgsorted hgbound hcount
      rw [List.map_append, List.map_cons] at hcount
      refine middle_ne_bound (a := a.map Prod.fst) (b := b.map Prod.fst) (n := mL) ?_ ?_ hcount ?_ hsep
      · rw [← List.map_cons, ← List.map_append, List.pairwise_map]
        exact hgsorted
      · intro x hx
        obtain ⟨y, hy, rfl⟩ := List.mem_map.1 hx
        exact hgbound y (by simp [hy])
      · rw [List.length_map, (hsize ht).2.2]

/-- A split that does not tie adds a copy of the bound only to a node that
had none. -/
theorem copiesOf_absorb {T : Type} {s : SepList K T} {l r : T} {sep : K} {u : α} (hk : ρ k < u)
    (hs : (s.graft (upTo ρ k) (.cons l sep (.single r))).seps.Pairwise fun x y => ρ x ≤ ρ y)
    (htie : ∀ x, s.nextSep (upTo ρ k) = some x → ρ sep ≠ ρ x) (hle : ∀ x ∈ s.seps, ρ x ≤ u) :
    copiesOf ρ u (s.graft (upTo ρ k) (.cons l sep (.single r))).seps ≤
      max 1 (copiesOf ρ u s.seps) := by
  have hold := SepList.spell_eq (upTo ρ k) (fun _ : T => []) (fun x => [x]) s
  rw [SepList.seps, SepList.spell_graft] at hs ⊢
  rw [SepList.seps, hold] at hle ⊢
  simp only [SepList.spell_cons, SepList.spell_single, List.nil_append, List.append_nil,
    List.append_assoc, List.singleton_append, copiesOf_append, copiesOf_cons] at hs hle ⊢
  by_cases hsep : ρ sep = u
  · have hzero : copiesOf ρ u (s.before (upTo ρ k) (fun _ => []) fun x => [x]) = 0 := by
      refine copiesOf_eq_zero fun x hx => ?_
      have hxk : ρ x ≤ ρ k := by simpa [upTo] using SepList.le_of_mem_before s hx
      exact (lt_of_le_of_lt hxk hk).ne
    rcases SepList.after_eq_cons (upTo ρ k) (fun _ : T => []) (fun x => [x]) s with
      ⟨-, hafter⟩ | ⟨x, post, hnext, hafter, -⟩
    · rw [hzero, hafter, if_pos hsep]
      exact Nat.le_max_left _ _
    · -- a separator that follows would have to tie
      rw [hafter] at hs hle
      have hsx := (List.pairwise_cons.1 (List.pairwise_append.1 hs).2.1).1 x (by simp)
      have hxu := hle x (by simp)
      exact absurd (le_antisymm hsx (hsep ▸ hxu)) (htie x hnext)
  · rw [if_neg hsep]
    exact Nat.le_max_right _ _

/-- A node that absorbs an outcome without a tie keeps the count. -/
theorem NodeIns.counted {d : Nat} {t : Tree ι K V (d + 1)} {oc : Outcome K (Tree ι K V d)}
    {o : Outcome K (Tree ι K V (d + 1))} {hi : Option α} (hm : 1 ≤ mN)
    (hcap : ∀ ks, cap.nodeFits ks ↔ ks.length ≤ 2 * mN)
    (hseps : (Node.kids t).seps.Pairwise fun x y => ρ x ≤ ρ y)
    (hgseps : ((Node.kids t).graft (upTo ρ k) oc.toSep).seps.Pairwise fun x y => ρ x ≤ ρ y)
    (htie : ∀ l sep r, oc = .split l sep r →
      ∀ x, (Node.kids t).nextSep (upTo ρ k) = some x → ρ sep ≠ ρ x)
    (hk : ∀ u, hi = some u → ρ k < u)
    (hgle : ∀ u, hi = some u → ∀ x ∈ ((Node.kids t).graft (upTo ρ k) oc.toSep).seps, ρ x ≤ u)
    (hc : Counted ρ cap tight mL mN (d + 1) hi t)
    (hoc : AllBelow ρ (Counted ρ cap tight mL mN d) (boundAt ρ (upTo ρ k) hi (Node.kids t)) oc.toSep)
    (hn : NodeIns ρ cap t k oc o) :
    AllBelow ρ (Counted ρ cap tight mL mN (d + 1)) hi o.toSep ∧
      ∀ l sep r, o = .split l sep r → ∀ u, hi = some u → ρ sep ≠ u := by
  obtain ⟨hfit, hcount, hbelow⟩ := hc
  have hall := hbelow.graft hoc
  obtain ⟨p, q, hold, hnew⟩ := SepList.seps_graft (upTo ρ k) oc.toSep (Node.kids t)
  have hsub : ∀ x ∈ (Node.kids t).seps, x ∈ ((Node.kids t).graft (upTo ρ k) oc.toSep).seps := by
    intro x hx
    rw [hold] at hx
    rw [hnew]
    simp only [List.mem_append] at hx ⊢
    tauto
  have hcopies : ∀ u, hi = some u →
      copiesOf ρ u ((Node.kids t).graft (upTo ρ k) oc.toSep).seps ≤ mN := by
    intro u hu
    cases oc with
    | fit c =>
      rw [Outcome.toSep, SepList.seps_graft_single]
      exact hcount u hu
    | split l sep r =>
      have h := copiesOf_absorb (hk u hu) hgseps (htie l sep r rfl)
        fun x hx => hgle u hu x (hsub x hx)
      exact le_trans h (max_le hm (hcount u hu))
  cases hn with
  | keep c =>
    refine ⟨⟨?_, hcopies, hall⟩, fun _ _ _ h => by cases h⟩
    rw [absorb, SepList.seps_graft_single]
    exact hfit
  | fit l r sep hfits =>
    have habs := absorb_split_eq hseps hgseps (htie l sep r rfl)
    have hgoal : Counted ρ cap tight mL mN (d + 1) hi
        (Node.mk (Node.id t) (absorb ρ k (Node.kids t) (.split l sep r)) : Tree ι K V (d + 1)) := by
      refine ⟨hfits, ?_⟩
      rw [habs]
      exact ⟨hcopies, hall⟩
    exact ⟨hgoal, fun _ _ _ h => by cases h⟩
  | split l r sep newId a b m hfull hcut hlen hfa hfb =>
    have habs := absorb_split_eq hseps hgseps (htie l sep r rfl)
    rw [habs] at hcut hfull hlen
    have hsize : ((Node.kids t).graft (upTo ρ k) (.cons l sep (.single r))).seps.length =
        (Node.kids t).seps.length + 1 := by
      have hnew : ((Node.kids t).graft (upTo ρ k) (.cons l sep (.single r))).seps = _ := hnew
      rw [hnew, hold]
      simp only [Outcome.toSep, SepList.seps_cons, SepList.seps_single, List.length_append,
        List.length_cons, List.length_nil]
      omega
    have hfit' := (hcap _).1 hfit
    rw [hcap] at hfull
    have hgseps : (a.append m b).seps.Pairwise fun x y => ρ x ≤ ρ y := hcut ▸ hgseps
    have hgle : ∀ u, hi = some u → ∀ x ∈ (a.append m b).seps, ρ x ≤ u := hcut ▸ hgle
    have hcopies : ∀ u, hi = some u → copiesOf ρ u (a.append m b).seps ≤ mN := hcut ▸ hcopies
    have hall : AllBelow ρ (Counted ρ cap tight mL mN d) hi (a.append m b) := hcut ▸ hall
    rw [hcut] at hfull hlen hsize
    rw [SepList.seps_append] at hgseps hgle hcopies
    rw [SepList.seps_append, List.length_append, List.length_cons] at hfull hlen hsize
    have ha : a.seps.length = mN := by omega
    have hb : b.seps.length = mN := by omega
    obtain ⟨halla, hallb⟩ := allBelow_append.1 hall
    have hleft : Counted ρ cap tight mL mN (d + 1) (some (ρ m))
        (Node.mk (Node.id t) a : Tree ι K V (d + 1)) :=
      ⟨hfa, fun u _ => le_trans (copiesOf_le_length u _) (le_of_eq ha), halla⟩
    have hright : Counted ρ cap tight mL mN (d + 1) hi
        (Node.mk newId b : Tree ι K V (d + 1)) := by
      refine ⟨hfb, fun u hu => ?_, hallb⟩
      have h := hcopies u hu
      rw [copiesOf_append, copiesOf_cons] at h
      show copiesOf ρ u b.seps ≤ mN
      omega
    refine ⟨⟨hleft, hright⟩, ?_⟩
    intro l' sep' r' ho u hu
    cases ho
    exact middle_ne_bound hgseps (fun x hx => hgle u hu x (by simp [hx])) (hcopies u hu) hb.ge

/-- **Insertion keeps the count**, and is a graft at the leaf the search ends
at. A split promotes the bound itself only from a leaf that is not tight. -/
theorem Ins.counted (hm : 1 ≤ mN) (hleaf : tight = true → ∀ es, cap.leafFits es ↔ es.length ≤ 2 * mL)
    (hnode : ∀ ks, cap.nodeFits ks ↔ ks.length ≤ 2 * mN) : ∀ (d : Nat) (t : Tree ι K V d)
    (o : Outcome K (Tree ι K V d)) (hi : Option α), Ins ρ cap k v d t o →
    Ordered ρ false (t.flat d) → BoundedBy ρ hi (t.flat d) → Counted ρ cap tight mL mN d hi t →
    (∀ u, hi = some u → ρ k < u) → (tight = true ∨ NoLeafTie ρ cap k v d t) →
    (∃ g, LeafIns ρ cap (t.descend ρ k d) k v g ∧
      o.toSep.bind (Tree.flat d) = (t.flat d).graft (upTo ρ k) g.toSep) ∧
    AllBelow ρ (Counted ρ cap tight mL mN d) hi o.toSep ∧
    ∀ l sep r, o = .split l sep r → ∀ u, hi = some u → ρ sep = u → d = 0 ∧ tight = false
  | 0, t, o, hi, hins, hord, hb, hc, hk, _ => by
    have hsorted : (Leaf.entries t).Pairwise fun x y => ρ x.1 ≤ ρ y.1 := by
      have h : ((Leaf.entries t).map fun e => (ρ e.1, false)).Pairwise (Prec (α := α) false) := hord
      rw [List.pairwise_map] at h
      exact h.imp fun h => h.1
    have hbound : ∀ u, hi = some u → ∀ e ∈ Leaf.entries t, ρ e.1 ≤ u :=
      fun u hu e he => hb u hu (ρ e.1, false) (List.mem_map.2 ⟨e, he, rfl⟩)
    obtain ⟨hall, hsep⟩ := LeafIns.counted hleaf hins hsorted hbound hc hk
    refine ⟨⟨o, hins, ?_⟩, hall, fun l sep r ho u hu hs => ⟨rfl, hsep l sep r ho u hu hs⟩⟩
    cases o <;> rfl
  | d + 1, t, o, hi, hins, hord, hb, hc, hk, htight => by
    obtain ⟨oc, hoc, hn⟩ := hins
    have hroute : Ordered ρ false (Tree.flat d ((Node.kids t).route (upTo ρ k))) :=
      ordered_of_route hord
    obtain ⟨⟨g, hg, hflat⟩, hall, htop⟩ := counted hm hleaf hnode d _ oc _ hoc hroute
      (boundedBy_route hord hb) hc.2.2.route (boundAt_gt hk) (htight.imp id fun h => h.2)
    -- a tie is excluded by the count below, and at the leaf's parent by hypothesis
    have htie : ∀ l sep r, oc = .split l sep r →
        ∀ x, (Node.kids t).nextSep (upTo ρ k) = some x → ρ sep ≠ ρ x := by
      intro l sep r ho x hx heq
      obtain ⟨hd, ht⟩ := htop l sep r ho (ρ x) (by rw [boundAt, hx]) heq
      rcases htight with ht' | hno
      · rw [ht'] at ht
        cases ht
      · exact hno.1 hd l sep r (ho ▸ hoc) x hx heq
    have hleafIns : LeafIns ρ cap ((t.flat (d + 1)).route (upTo ρ k)) k v g := by
      rw [← Tree.descend_eq_route _ t hord]
      exact hg
    have hgord := ordered_graft (o := g) hord hleafIns (by simp)
    have hbind := SepList.bind_graft _ _ _ _ (hord.downClosed k) hflat
    have hgb : BoundedBy ρ hi ((t.flat (d + 1)).graft (upTo ρ k) g.toSep) := hb.graft hk hleafIns
    have hgseps := pairwise_seps_of_ordered_bind (hbind ▸ hgord)
    have hgle : ∀ u, hi = some u →
        ∀ x ∈ ((Node.kids t).graft (upTo ρ k) oc.toSep).seps, ρ x ≤ u := by
      intro u hu x hx
      refine hgb u hu (ρ x, true) (mem_ranks_of_mem_seps ?_)
      have hx' := (SepList.seps_sublist_bind _ (Tree.flat d)).subset hx
      rw [hbind] at hx'
      exact hx'
    obtain ⟨hcount, hsep⟩ := NodeIns.counted hm hnode
      ((pairwise_seps_of_ordered_bind hord).imp fun h => h.1) (hgseps.imp fun h => h.1) htie hk hgle
      hc hall hn
    refine ⟨⟨g, hg, ?_⟩, hcount, fun l sep r ho u hu hs => absurd hs (hsep l sep r ho u hu)⟩
    exact nodeIns_flat hord hgord hflat htie hn

/-- The tree after an insertion at the root is counted. -/
theorem Rooted.counted {d d' : Nat} {o : Outcome K (Tree ι K V d)} {t' : Tree ι K V d'}
    (hm : 1 ≤ mN) (hnode : ∀ ks, cap.nodeFits ks ↔ ks.length ≤ 2 * mN)
    (hc : AllBelow ρ (Counted ρ cap tight mL mN d) none o.toSep) (h : Rooted o d' t') :
    Counted ρ cap tight mL mN d' none t' := by
  cases h with
  | fit t => exact hc
  | split l r sep id =>
    refine ⟨(hnode _).2 ?_, fun u hu => (by cases hu), hc⟩
    show 1 ≤ 2 * mN
    omega

end Insertion

end BPlus
