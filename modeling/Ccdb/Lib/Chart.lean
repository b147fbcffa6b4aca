import Ccdb.Lib.BPlusTree
import Mathlib.Data.Fintype.Card

/-!
# B+trees between a split and its separator

A split moves the upper part of a node to a new one; the parent learns of it in
a later step. A chart says of every node which ranks it is responsible for, and
which nodes no parent knows yet (`hidden`). Whatever a parent sends to the wrong
child is in a hidden node, and that child was cut since.

Main results:

* `Chart.Sound.cut_of_route` — a search that is sent astray is sent to a node that
  was cut at or below its rank.
* `Chart.Sound.put`, `Chart.Sound.split`, `Chart.Sound.publish`,
  `Chart.Sound.newRoot` — the steps of concurrent insertions keep a chart sound, as
  long as each works on the node that is responsible.
* `Chart.Sound.route_has` — with every node known to a parent, a search is never
  sent astray.
-/

namespace BPlus

variable {ι K V α : Type}

theorem mem_insertBefore {E : Type} {gt : E → Bool} {x e : E} {es : List E} :
    e ∈ insertBefore gt x es ↔ e = x ∨ e ∈ es := by
  obtain ⟨a, b, hes, hins, -, -⟩ := insertBefore_eq gt x es
  rw [hins, hes]
  simp only [List.mem_append, List.mem_cons]
  tauto

theorem map_insertBefore {E F : Type} {f : E → F} {gt : F → Bool} {x : E} {es : List E} :
    (insertBefore (fun e => gt (f e)) x es).map f = insertBefore gt (f x) (es.map f) := by
  induction es with
  | nil => rfl
  | cons e es ih =>
    simp only [insertBefore, List.map_cons]
    split
    · rfl
    · rw [List.map_cons, ih]

/-- What a node is responsible for: the ranks from `lo` on and below `hi`. `cut`
says that `hi` is where a split took its upper part away. Leaves have level 0 and
entries, other nodes have children. -/
structure Info (ι K V α : Type) where
  level : Nat
  lo : Option α
  hi : Option α
  cut : Bool
  entries : List (K × V)
  kids : SepList K ι

structure Chart (ι K V α : Type) where
  nodes : ι → Option (Info ι K V α)
  hidden : ι → Prop
  root : ι

/-! ## Changes of a chart -/

namespace Chart

variable {C C' : Chart ι K V α} {p q r : ι} {n m n' n₁ n₂ : Info ι K V α} {gone : ι → Prop}

/-- The same responsibility, whatever the contents. -/
structure SameRange (n n' : Info ι K V α) : Prop where
  level : n'.level = n.level
  lo : n'.lo = n.lo
  hi : n'.hi = n.hi
  cut : n'.cut = n.cut

theorem SameRange.refl (n : Info ι K V α) : SameRange n n := ⟨rfl, rfl, rfl, rfl⟩

/-- Where a node ends another one of its level starts. -/
def Tiled (C : Chart ι K V α) : Prop :=
  ∀ p n, C.nodes p = some n → ∀ b ∈ n.hi, ∃ q m, C.nodes q = some m ∧ m.level = n.level ∧
    m.lo = some b

/-- Nodes that a parent knows stay known; none gets a new place, and a node that loses
ranks is marked as cut. -/
structure Keeps (C C' : Chart ι K V α) : Prop where
  info : ∀ {q m}, C.nodes q = some m → ∃ m', C'.nodes q = some m' ∧ m'.level = m.level ∧
    m'.lo = m.lo ∧ (m'.cut = true ∨ m'.cut = m.cut ∧ m'.hi = m.hi)
  shown : ∀ {q m}, C.nodes q = some m → ¬ C.hidden q → ¬ C'.hidden q

theorem Keeps.refl (C : Chart ι K V α) : C.Keeps C :=
  ⟨fun hq => ⟨_, hq, rfl, rfl, Or.inr ⟨rfl, rfl⟩⟩, fun _ => id⟩

theorem Keeps.trans {C'' : Chart ι K V α} (h : C.Keeps C') (h' : C'.Keeps C'') : C.Keeps C'' := by
  refine ⟨fun hq => ?_, fun hq hs => ?_⟩
  · obtain ⟨m', hm', hl, hlo, hcut⟩ := h.info hq
    obtain ⟨m'', hm'', hl', hlo', hcut'⟩ := h'.info hm'
    refine ⟨m'', hm'', hl'.trans hl, hlo'.trans hlo, ?_⟩
    rcases hcut' with hcut' | ⟨hcut', hhi'⟩
    · exact Or.inl hcut'
    · rcases hcut with hcut | ⟨hcut, hhi⟩
      · exact Or.inl (hcut'.trans hcut)
      · exact Or.inr ⟨hcut'.trans hcut, hhi'.trans hhi⟩
  · obtain ⟨m', hm', -⟩ := h.info hq
    exact h'.shown hm' (h.shown hq hs)

variable [DecidableEq ι]

/-- A node is cut: `n₁` is what stays, `n₂` goes to the hidden node `r`. -/
def cutAt (C : Chart ι K V α) (p r : ι) (n₁ n₂ : Info ι K V α) : Chart ι K V α where
  nodes := Function.update (Function.update C.nodes p (some n₁)) r (some n₂)
  hidden q := C.hidden q ∨ q = r
  root := C.root

theorem cutAt_left (hpr : p ≠ r) : (C.cutAt p r n₁ n₂).nodes p = some n₁ := by
  simp [cutAt, hpr]

theorem cutAt_right : (C.cutAt p r n₁ n₂).nodes r = some n₂ := by simp [cutAt]

theorem cutAt_other (hqp : q ≠ p) (hqr : q ≠ r) : (C.cutAt p r n₁ n₂).nodes q = C.nodes q := by
  simp [cutAt, hqp, hqr]

/-- The nodes of the new chart. -/
theorem cutAt_cases (hq : (C.cutAt p r n₁ n₂).nodes q = some m) :
    (q = r ∧ m = n₂) ∨ (q = p ∧ m = n₁) ∨ (q ≠ p ∧ q ≠ r ∧ C.nodes q = some m) := by
  by_cases hqr : q = r
  · subst hqr
    rw [cutAt_right] at hq
    exact Or.inl ⟨rfl, (Option.some.inj hq).symm⟩
  · by_cases hqp : q = p
    · subst hqp
      rw [cutAt_left hqr] at hq
      exact Or.inr (Or.inl ⟨rfl, (Option.some.inj hq).symm⟩)
    · rw [cutAt_other hqp hqr] at hq
      exact Or.inr (Or.inr ⟨hqp, hqr, hq⟩)

/-- The node `p` has new contents; `gone` is no longer hidden. -/
def refill (C : Chart ι K V α) (p : ι) (n : Info ι K V α) (gone : ι → Prop) : Chart ι K V α where
  nodes := Function.update C.nodes p (some n)
  hidden q := C.hidden q ∧ ¬ gone q
  root := C.root

theorem refill_self : (C.refill p n' gone).nodes p = some n' := by simp [refill]

theorem refill_other (hq : q ≠ p) : (C.refill p n' gone).nodes q = C.nodes q := by
  simp [refill, hq]

/-- Every node of the new chart has the range it had. -/
theorem refill_old (hp : C.nodes p = some n) (hs : SameRange n n')
    (hq : (C.refill p n' gone).nodes q = some m) :
    ∃ m₀, C.nodes q = some m₀ ∧ SameRange m₀ m ∧ (q ≠ p → m = m₀) ∧ (q = p → m = n') := by
  by_cases hqp : q = p
  · subst hqp
    rw [refill_self] at hq
    cases hq
    exact ⟨n, hp, hs, fun hne => absurd rfl hne, fun _ => rfl⟩
  · rw [refill_other hqp] at hq
    exact ⟨m, hq, .refl m, fun _ => rfl, fun heq => absurd heq hqp⟩

theorem refill_cases (hp : C.nodes p = some n) (hs : SameRange n n')
    (hq : (C.refill p n' gone).nodes q = some m) : q = p ∧ m = n' ∨ q ≠ p ∧ C.nodes q = some m := by
  obtain ⟨m₀, hq₀, -, hother, hself⟩ := refill_old hp hs hq
  by_cases hqp : q = p
  · exact Or.inl ⟨hqp, hself hqp⟩
  · exact Or.inr ⟨hqp, hother hqp ▸ hq₀⟩

theorem refill_new (hp : C.nodes p = some n) (hs : SameRange n n') (hq : C.nodes q = some m) :
    ∃ m', (C.refill p n' gone).nodes q = some m' ∧ SameRange m m' := by
  by_cases hqp : q = p
  · subst hqp
    obtain rfl : m = n := Option.some.inj (hq.symm.trans hp)
    exact ⟨n', refill_self, hs⟩
  · exact ⟨m, by rw [refill_other hqp]; exact hq, .refl m⟩

theorem Tiled.refill (h : C.Tiled) (hp : C.nodes p = some n)
    (hs : SameRange n n') : (C.refill p n' gone).Tiled := by
  intro q m hq b hb
  obtain ⟨m₀, hold, hsame, -⟩ := refill_old hp hs hq
  rw [hsame.hi] at hb
  obtain ⟨r, mr, hr, hl, hlo⟩ := h q m₀ hold b hb
  obtain ⟨mr', hr', hsame'⟩ : ∃ m', (C.refill p n' gone).nodes r = some m' ∧ SameRange mr m' :=
    refill_new hp hs hr
  exact ⟨r, mr', hr', hsame'.level.trans (hl.trans hsame.level.symm), hsame'.lo.trans hlo⟩

theorem Keeps.refill (hp : C.nodes p = some n) (hs : SameRange n n') :
    C.Keeps (C.refill p n' gone) := by
  refine ⟨fun {q m} hq => ?_, fun hq hs hh => hs hh.1⟩
  obtain ⟨m', hm', hsame⟩ : ∃ m', (C.refill p n' gone).nodes q = some m' ∧ SameRange m m' :=
    refill_new hp hs hq
  exact ⟨m', hm', hsame.level, hsame.lo, Or.inr ⟨hsame.cut, hsame.hi⟩⟩

/-- A new root above the old one and the node split off it. -/
def grow (C : Chart ι K V α) (q : ι) (n : Info ι K V α) (r : ι) : Chart ι K V α where
  nodes := Function.update C.nodes q (some n)
  hidden p := C.hidden p ∧ p ≠ r
  root := q

theorem grow_old (hq : C.nodes q = none) (hp : C.nodes p = some m) :
    (C.grow q n' r).nodes p = some m := by
  have hne : p ≠ q := by
    rintro rfl
    rw [hq] at hp
    cases hp
  simpa [Chart.grow, hne] using hp

theorem Keeps.grow (hq : C.nodes q = none) : C.Keeps (C.grow q n' r) :=
  ⟨fun hp => ⟨_, grow_old hq hp, rfl, rfl, Or.inr ⟨rfl, rfl⟩⟩, fun _ hs hh => hs hh.1⟩

theorem Tiled.grow (h : C.Tiled) (hq : C.nodes q = none) (hhi : n'.hi = none) :
    (C.grow q n' r).Tiled := by
  intro p m hp b hb
  by_cases hpq : p = q
  · subst hpq
    obtain rfl : n' = m := by simpa [Chart.grow] using hp
    rw [hhi] at hb
    cases hb
  · obtain ⟨q', m', hq', hrest⟩ := h p m (by simpa [Chart.grow, hpq] using hp) b hb
    exact ⟨q', m', grow_old hq hq', hrest⟩

end Chart

section Order

variable [LinearOrder α] (ρ : K → α)

/-- The rank is in the node's range. -/
def Info.Has (n : Info ι K V α) (x : α) : Prop := (∀ a ∈ n.lo, a ≤ x) ∧ ∀ b ∈ n.hi, x < b

/-- A range that ends at `hi` is before one that starts at `lo`. -/
def Before (hi lo : Option α) : Prop := ∃ b ∈ hi, ∃ a ∈ lo, b ≤ a

/-- The separators a search for rank `x` passes. -/
def passes (x : α) : K → Bool := fun k => decide (ρ k ≤ x)

/-- The rank is in a node of this level that no parent knows. -/
def Chart.Gap (C : Chart ι K V α) (level : Nat) (x : α) : Prop :=
  ∃ r m, C.hidden r ∧ C.nodes r = some m ∧ m.level = level ∧ m.Has x

/-- An inner node whose children have the level `l`. -/
structure Chart.NodeOk (C : Chart ι K V α) (l : Nat) (n : Info ι K V α) : Prop where
  sorted : n.kids.seps.Pairwise fun a b => ρ a < ρ b
  within : ∀ k ∈ n.kids.seps, n.Has (ρ k) ∧ ∀ a ∈ n.lo, a < ρ k
  head : ∃ m, C.nodes n.kids.head = some m ∧ m.level = l ∧ m.lo = n.lo
  tail : ∀ e ∈ n.kids.tail, ∃ m, C.nodes e.2 = some m ∧ m.level = l ∧ m.lo = some (ρ e.1)
  shown : ∀ c ∈ n.kids.items, ¬ C.hidden c
  covers : ∀ x, n.Has x → ∀ m, C.nodes (n.kids.route (passes ρ x)) = some m →
    m.Has x ∨ C.Gap l x

structure Chart.Sound (C : Chart ι K V α) : Prop where
  proper : ∀ {p n}, C.nodes p = some n → ∀ a ∈ n.lo, ∀ b ∈ n.hi, a < b
  apart : ∀ {p q n m}, C.nodes p = some n → C.nodes q = some m → p ≠ q → n.level = m.level →
    Before n.hi m.lo ∨ Before m.hi n.lo
  leaf : ∀ {p n}, C.nodes p = some n → n.level = 0 →
    n.entries.Pairwise (fun x y => ρ x.1 < ρ y.1) ∧ ∀ e ∈ n.entries, n.Has (ρ e.1)
  node : ∀ {p n l}, C.nodes p = some n → n.level = l + 1 → C.NodeOk ρ l n
  hidden_lo : ∀ {r}, C.hidden r → ∃ m a, C.nodes r = some m ∧ m.lo = some a
  edge : ∀ {r q m n}, C.hidden r → C.nodes r = some m → C.nodes q = some n →
    n.level = m.level → n.hi = m.lo → n.cut = true
  root : ∃ n, C.nodes C.root = some n ∧ ¬ C.hidden C.root ∧ n.lo = none ∧
    (∀ {p m}, C.nodes p = some m → m.level ≤ n.level) ∧ ∀ x, n.Has x ∨ C.Gap n.level x

variable {ρ}

/-! ## Routing -/

theorem route_congr {s : SepList K ι} {x y : α}
    (h : ∀ k ∈ s.seps, ρ k ≤ x ↔ ρ k ≤ y) :
    s.route (passes ρ x) = s.route (passes ρ y) := by
  induction s with
  | single c => rfl
  | cons c k rest ih =>
    have hk := h k (by simp)
    have ih := ih fun m hm => h m (by simp [hm])
    simp only [SepList.route, passes, decide_eq_true_eq, hk]
    split
    · exact ih
    · rfl

/-- The child a search ends at: the first one, or that of the last separator passed. -/
theorem route_cases {s : SepList K ι} (hs : s.seps.Pairwise fun a b => ρ a < ρ b) (x : α) :
    (s.route (passes ρ x) = s.head ∧ ∀ k ∈ s.seps, x < ρ k) ∨
      ∃ e ∈ s.tail, s.route (passes ρ x) = e.2 ∧ ρ e.1 ≤ x ∧
        ∀ k ∈ s.seps, ρ k ≤ x → ρ k ≤ ρ e.1 := by
  induction s with
  | single c => exact Or.inl ⟨rfl, by simp⟩
  | cons c k rest ih =>
    rw [SepList.seps_cons, List.pairwise_cons] at hs
    obtain ⟨hk, hrest⟩ := hs
    simp only [SepList.route, passes, decide_eq_true_eq]
    by_cases hx : ρ k ≤ x
    · right
      rw [if_pos hx]
      rcases ih hrest with ⟨hroute, hall⟩ | ⟨e, he, hroute, hle, hall⟩
      · refine ⟨(k, rest.head), by simp [SepList.tail], hroute, hx, fun m hm hmx => ?_⟩
        rcases List.mem_cons.1 (SepList.seps_cons c k rest ▸ hm) with rfl | hm
        · exact le_refl _
        · exact absurd hmx (not_le.2 (hall m hm))
      · refine ⟨e, by simp [SepList.tail, he], hroute, hle, fun m hm hmx => ?_⟩
        rcases List.mem_cons.1 (SepList.seps_cons c k rest ▸ hm) with rfl | hm
        · refine (hk e.1 ?_).le
          rw [SepList.seps_eq]
          exact List.mem_map_of_mem he
        · exact hall m hm hmx
    · left
      rw [if_neg hx]
      refine ⟨rfl, fun m hm => ?_⟩
      rcases List.mem_cons.1 (SepList.seps_cons c k rest ▸ hm) with rfl | hm
      · exact not_le.1 hx
      · exact lt_trans (not_le.1 hx) (hk m hm)

/-- A new separator takes over the ranks up to the next one. -/
theorem route_insertSep {s : SepList K ι} (hs : s.seps.Pairwise fun a b => ρ a < ρ b) (sep : K)
    (r : ι) (x : α) :
    (s.insertSep (beyond ρ sep) sep r).route (passes ρ x) =
      if ρ sep ≤ x ∧ ∀ k ∈ s.seps, ρ k ≤ x → ρ k ≤ ρ sep then r else s.route (passes ρ x) := by
  induction s with
  | single c => simp [SepList.insertSep, SepList.route, passes]
  | cons c m rest ih =>
    rw [SepList.seps_cons, List.pairwise_cons] at hs
    obtain ⟨hm, hrest⟩ := hs
    have ih := ih hrest
    simp only [SepList.insertSep, beyond, decide_eq_true_eq]
    by_cases hgt : ρ sep < ρ m
    · rw [if_pos hgt]
      simp only [SepList.route, passes, decide_eq_true_eq, SepList.seps_cons, List.mem_cons,
        forall_eq_or_imp]
      by_cases hsx : ρ sep ≤ x
      · by_cases hmx : ρ m ≤ x
        · simp [hsx, hmx, not_le.2 hgt]
        · have hall : ∀ k ∈ rest.seps, ρ k ≤ x → ρ k ≤ ρ sep := fun k hk hkx =>
            absurd (le_trans (hm k hk).le hkx) hmx
          simp only [hsx, hmx, if_true, if_false, IsEmpty.forall_iff, true_and]
          rw [if_pos hall]
      · have hmx : ¬ ρ m ≤ x := fun h => hsx (le_trans hgt.le h)
        simp [hsx, hmx]
    · rw [if_neg hgt]
      have hle : ρ m ≤ ρ sep := not_lt.1 hgt
      simp only [SepList.route, passes, decide_eq_true_eq, SepList.seps_cons, List.mem_cons,
        forall_eq_or_imp]
      by_cases hmx : ρ m ≤ x
      · simp only [hmx, if_true, hle, forall_const, true_and]
        exact ih
      · have hsx : ¬ ρ sep ≤ x := fun h => hmx (le_trans hle h)
        simp [hmx, hsx]

namespace Chart

variable {C C' : Chart ι K V α} {p q r : ι} {n m : Info ι K V α} {l : Nat} {x : α}

/-- What the search knows about the child it is sent to. -/
theorem NodeOk.route_info (h : C.NodeOk ρ l n) (hx : n.Has x) :
    ∃ m, C.nodes (n.kids.route (passes ρ x)) = some m ∧ m.level = l ∧ (∀ a ∈ m.lo, a ≤ x) ∧
      ¬ C.hidden (n.kids.route (passes ρ x)) ∧ ∀ a ∈ n.lo, ∃ b ∈ m.lo, a ≤ b := by
  have hroute : n.kids.route (passes ρ x) ∈ n.kids.items := SepList.route_mem_items n.kids
  have hshown := h.shown _ hroute
  rcases route_cases h.sorted x with ⟨hroute, -⟩ | ⟨e, he, hroute, hle, -⟩
  · obtain ⟨m, hm, hl, hlo⟩ := h.head
    refine ⟨m, hroute ▸ hm, hl, fun a ha => hx.1 a (hlo ▸ ha), hshown, fun a ha => ?_⟩
    exact ⟨a, hlo ▸ ha, le_refl a⟩
  · obtain ⟨m, hm, hl, hlo⟩ := h.tail e he
    refine ⟨m, hroute ▸ hm, hl, fun a ha => ?_, hshown, fun a ha => ⟨ρ e.1, by simp [hlo], ?_⟩⟩
    · rw [hlo, Option.mem_some_iff] at ha
      exact ha ▸ hle
    · refine ((h.within e.1 ?_).2 a ha).le
      rw [SepList.seps_eq]
      exact List.mem_map_of_mem he

namespace Sound

/-- One rank, one node of a level. -/
theorem eq_of_has (h : C.Sound ρ) (hp : C.nodes p = some n) (hq : C.nodes q = some m)
    (hl : n.level = m.level) (hn : n.Has x) (hm : m.Has x) : p = q := by
  by_contra hne
  rcases h.apart hp hq hne hl with ⟨b, hb, a, ha, hle⟩ | ⟨b, hb, a, ha, hle⟩
  · exact absurd (lt_of_lt_of_le (hn.2 b hb) (le_trans hle (hm.1 a ha))) (lt_irrefl x)
  · exact absurd (lt_of_lt_of_le (hm.2 b hb) (le_trans hle (hn.1 a ha))) (lt_irrefl x)

theorem has_lo (h : C.Sound ρ) (hp : C.nodes p = some n) {a : α} (ha : n.lo = some a) :
    n.Has a := by
  refine ⟨fun b hb => ?_, fun b hb => h.proper hp a (by simp [ha]) b hb⟩
  rw [ha, Option.mem_some_iff] at hb
  exact hb ▸ le_refl _

/-- **Astray means cut**: the child a search is sent to has the rank, or it was cut at
or below it. -/
theorem cut_of_route (h : C.Sound ρ) (hp : C.nodes p = some n) (hl : n.level = l + 1)
    (hx : n.Has x) (hm : C.nodes (n.kids.route (passes ρ x)) = some m) :
    m.Has x ∨ m.cut = true ∧ ∃ b ∈ m.hi, b ≤ x := by
  have hok := h.node hp hl
  obtain ⟨m', hm', hml, hlo, hshown, hlo'⟩ := hok.route_info hx
  obtain rfl : m = m' := Option.some.inj (hm.symm.trans hm')
  by_cases hhas : m.Has x
  · exact Or.inl hhas
  right
  obtain ⟨b, hb, hbx⟩ : ∃ b ∈ m.hi, b ≤ x := by
    by_contra hno
    push Not at hno
    exact hhas ⟨hlo, hno⟩
  -- the end of the child's range is a rank of the parent, sent to the same child
  have hnb : n.Has b := by
    refine ⟨fun a ha => ?_, fun c hc => lt_of_le_of_lt hbx (hx.2 c hc)⟩
    obtain ⟨a', ha', hle⟩ := hlo' a ha
    exact le_trans hle (h.proper hm a' ha' b hb).le
  have hsame : n.kids.route (passes ρ b) = n.kids.route (passes ρ x) := by
    refine route_congr fun k hk => ⟨fun hkb => le_trans hkb hbx, fun hkx => ?_⟩
    rcases route_cases hok.sorted x with ⟨-, hall⟩ | ⟨e, he, hroute, -, hall⟩
    · exact absurd hkx (not_le.2 (hall k hk))
    · obtain ⟨m'', hm'', -, hlo''⟩ := hok.tail e he
      obtain rfl : m = m'' := Option.some.inj (hm.symm.trans (hroute ▸ hm''))
      exact le_trans (hall k hk hkx) (h.proper hm (ρ e.1) (by simp [hlo'']) b hb).le
  rcases hok.covers b hnb m (hsame ▸ hm) with hhb | ⟨r, mr, hr, hmr, hrl, hrb⟩
  · exact absurd (hhb.2 b hb) (lt_irrefl b)
  -- the hidden node that has it starts there
  obtain ⟨mr', a, hmr', ha⟩ := h.hidden_lo hr
  obtain rfl : mr = mr' := Option.some.inj (hmr.symm.trans hmr')
  have hab : a = b := by
    have hle : a ≤ b := hrb.1 a (by simp [ha])
    have hne : n.kids.route (passes ρ x) ≠ r := fun heq => hshown (heq ▸ hr)
    rcases h.apart hm hmr hne (hml.trans hrl.symm) with ⟨b', hb', a', ha', hle'⟩ |
      ⟨b', hb', a', ha', hle'⟩
    · rw [Option.mem_def, Option.mem_def.1 hb, Option.some.injEq] at hb'
      rw [ha, Option.mem_some_iff] at ha'
      subst hb' ha'
      exact le_antisymm hle hle'
    · exact absurd (lt_trans (hrb.2 b' hb') (lt_of_le_of_lt hle' (h.proper hm a' ha' b hb)))
        (lt_irrefl b)
  refine ⟨h.edge hr hmr hm (hml.trans hrl.symm) ?_, b, hb, hbx⟩
  rw [ha, hab]
  exact hb

end Sound

/-! ## Splits -/

/-- Nodes keep their levels and where they start; what a node loses is in a hidden
one, and what was hidden still is. -/
structure Extends (C C' : Chart ι K V α) : Prop where
  info : ∀ {q m}, C.nodes q = some m → ∃ m', C'.nodes q = some m' ∧ m'.level = m.level ∧
    m'.lo = m.lo ∧ ∀ x, m.Has x → m'.Has x ∨ C'.Gap m.level x
  shown : ∀ {q m}, C.nodes q = some m → ¬ C.hidden q → ¬ C'.hidden q
  gap : ∀ {l x}, C.Gap l x → C'.Gap l x

theorem NodeOk.mem_items (h : C.NodeOk ρ l n) {c : ι} (hc : c ∈ n.kids.items) :
    ∃ m, C.nodes c = some m ∧ m.level = l := by
  rw [SepList.items_eq, List.mem_cons] at hc
  rcases hc with rfl | hc
  · obtain ⟨m, hm, hl, -⟩ := h.head
    exact ⟨m, hm, hl⟩
  · obtain ⟨e, he, rfl⟩ := List.mem_map.1 hc
    obtain ⟨m, hm, hl, -⟩ := h.tail e he
    exact ⟨m, hm, hl⟩

theorem NodeOk.extend (h : C.NodeOk ρ l n) (hext : C.Extends C') : C'.NodeOk ρ l n where
  sorted := h.sorted
  within := h.within
  head := by
    obtain ⟨m, hm, hl, hlo⟩ := h.head
    obtain ⟨m', hm', hl', hlo', -⟩ := hext.info hm
    exact ⟨m', hm', hl'.trans hl, hlo'.trans hlo⟩
  tail e he := by
    obtain ⟨m, hm, hl, hlo⟩ := h.tail e he
    obtain ⟨m', hm', hl', hlo', -⟩ := hext.info hm
    exact ⟨m', hm', hl'.trans hl, hlo'.trans hlo⟩
  shown c hc := by
    obtain ⟨m, hm, -⟩ := h.mem_items hc
    exact hext.shown hm (h.shown c hc)
  covers x hx m' hm' := by
    obtain ⟨m, hm, hl, -⟩ := h.route_info hx
    obtain ⟨m'', hm'', -, -, hhas⟩ := hext.info hm
    obtain rfl : m' = m'' := Option.some.inj (hm'.symm.trans hm'')
    rcases h.covers x hx m hm with hmx | hgap
    · exact hl ▸ hhas x hmx
    · exact Or.inr (hext.gap hgap)

/-- The lower half of a node that was cut at a separator. -/
theorem NodeOk.left {a b : SepList K ι} {k : K} {n₁ : Info ι K V α} (h : C.NodeOk ρ l n)
    (hkids : n.kids = a.append k b) (hlo : n₁.lo = n.lo) (hhi : n₁.hi = some (ρ k))
    (ha : n₁.kids = a) : C.NodeOk ρ l n₁ := by
  have hseps : n.kids.seps = a.seps ++ k :: b.seps := by rw [hkids, SepList.seps_append]
  have hsorted := hseps ▸ h.sorted
  obtain ⟨hsa, -, hcross⟩ := List.pairwise_append.1 hsorted
  have hk : k ∈ n.kids.seps := by simp [hseps]
  have hhas : ∀ {x}, n₁.Has x → n.Has x ∧ x < ρ k := by
    intro x hx
    have hxk : x < ρ k := hx.2 (ρ k) (by simp [hhi])
    exact ⟨⟨fun c hc => hx.1 c (hlo ▸ hc), fun c hc => lt_trans hxk ((h.within k hk).1.2 c hc)⟩, hxk⟩
  refine ⟨ha ▸ hsa, fun c hc => ?_, ?_, fun e he => ?_, fun c hc => ?_, fun x hx m hm => ?_⟩
  · rw [ha] at hc
    obtain ⟨hin, hgt⟩ := h.within c (by simp [hseps, hc])
    refine ⟨⟨fun d hd => hin.1 d (hlo ▸ hd), fun d hd => ?_⟩, fun d hd => hgt d (hlo ▸ hd)⟩
    rw [hhi, Option.mem_some_iff] at hd
    exact hd ▸ hcross c hc k List.mem_cons_self
  · obtain ⟨m, hm, hl, hml⟩ := h.head
    rw [hkids, SepList.head_append] at hm
    exact ⟨m, ha ▸ hm, hl, hml.trans hlo.symm⟩
  · rw [ha] at he
    exact h.tail e (by rw [hkids, SepList.tail_append]; exact List.mem_append_left _ he)
  · rw [ha] at hc
    exact h.shown c (by rw [hkids, SepList.items_append]; exact List.mem_append_left _ hc)
  · obtain ⟨hnx, hxk⟩ := hhas hx
    refine h.covers x hnx m ?_
    rw [hkids, SepList.route_append_of_not (by simp [passes, hxk]), ← ha]
    exact hm

/-- The upper half. -/
theorem NodeOk.right {a b : SepList K ι} {k : K} {n₂ : Info ι K V α} (h : C.NodeOk ρ l n)
    (hkids : n.kids = a.append k b) (hlo : n₂.lo = some (ρ k)) (hhi : n₂.hi = n.hi)
    (hb : n₂.kids = b) : C.NodeOk ρ l n₂ := by
  have hseps : n.kids.seps = a.seps ++ k :: b.seps := by rw [hkids, SepList.seps_append]
  have hsorted := hseps ▸ h.sorted
  obtain ⟨-, hkb, hcross⟩ := List.pairwise_append.1 hsorted
  obtain ⟨hkb, hsb⟩ := List.pairwise_cons.1 hkb
  have hk : k ∈ n.kids.seps := by simp [hseps]
  have htail : (k, b.head) ∈ n.kids.tail := by rw [hkids, SepList.tail_append]; simp
  refine ⟨hb ▸ hsb, fun c hc => ?_, ?_, fun e he => ?_, fun c hc => ?_, fun x hx m hm => ?_⟩
  · rw [hb] at hc
    obtain ⟨hin, -⟩ := h.within c (by simp [hseps, hc])
    have hlt : ∀ d ∈ n₂.lo, d < ρ c := fun d hd => by
      rw [hlo, Option.mem_some_iff] at hd
      exact hd ▸ hkb c hc
    exact ⟨⟨fun d hd => (hlt d hd).le, fun d hd => hin.2 d (hhi ▸ hd)⟩, hlt⟩
  · obtain ⟨m, hm, hl, hml⟩ := h.tail _ htail
    exact ⟨m, hb ▸ hm, hl, hml.trans hlo.symm⟩
  · rw [hb] at he
    exact h.tail e (by rw [hkids, SepList.tail_append]; simp [he])
  · rw [hb] at hc
    exact h.shown c (by rw [hkids, SepList.items_append]; exact List.mem_append_right _ hc)
  · have hkx : ρ k ≤ x := hx.1 (ρ k) (by simp [hlo])
    have hnx : n.Has x := ⟨fun c hc => le_trans ((h.within k hk).2 c hc).le hkx,
      fun c hc => hx.2 c (hhi ▸ hc)⟩
    refine h.covers x hnx m ?_
    rw [hkids, SepList.route_append_of_all (fun c hc => ?_) (by simp [passes, hkx]), ← hb]
    · exact hm
    · simp [passes, le_trans (hcross c hc k List.mem_cons_self).le hkx]

/-- The two halves of a node, at the rank `s` inside its range. -/
structure Halves (ρ : K → α) (n n₁ n₂ : Info ι K V α) (s : α) : Prop where
  inside : n.Has s
  above : ∀ a ∈ n.lo, a < s
  level₁ : n₁.level = n.level
  lo₁ : n₁.lo = n.lo
  hi₁ : n₁.hi = some s
  cut₁ : n₁.cut = true
  level₂ : n₂.level = n.level
  lo₂ : n₂.lo = some s
  hi₂ : n₂.hi = n.hi
  cut₂ : n₂.cut = n.cut
  leaf : n.level = 0 → n.entries = n₁.entries ++ n₂.entries ∧
    (∀ e ∈ n₁.entries, ρ e.1 < s) ∧ ∀ e ∈ n₂.entries, s ≤ ρ e.1
  node : n.level ≠ 0 → ∃ k, ρ k = s ∧ n.kids = n₁.kids.append k n₂.kids

section Split

variable {n₁ n₂ : Info ι K V α} {s : α}

theorem Halves.has_or (h : Halves ρ n n₁ n₂ s) (hx : n.Has x) :
    n₁.Has x ∨ n₂.Has x := by
  rcases lt_or_ge x s with hlt | hge
  · refine Or.inl ⟨fun a ha => hx.1 a (h.lo₁ ▸ ha), fun b hb => ?_⟩
    rw [h.hi₁, Option.mem_some_iff] at hb
    exact hb ▸ hlt
  · refine Or.inr ⟨fun a ha => ?_, fun b hb => hx.2 b (h.hi₂ ▸ hb)⟩
    rw [h.lo₂, Option.mem_some_iff] at ha
    exact ha ▸ hge

theorem Halves.apart₁ (h : Halves ρ n n₁ n₂ s) (hm : Before n.hi m.lo ∨ Before m.hi n.lo) :
    Before n₁.hi m.lo ∨ Before m.hi n₁.lo := by
  rw [h.lo₁]
  refine hm.imp_left ?_
  rintro ⟨b, hb, a, ha, hle⟩
  exact ⟨s, by simp [h.hi₁], a, ha, le_trans (h.inside.2 b hb).le hle⟩

theorem Halves.apart₂ (h : Halves ρ n n₁ n₂ s) (hm : Before n.hi m.lo ∨ Before m.hi n.lo) :
    Before n₂.hi m.lo ∨ Before m.hi n₂.lo := by
  rw [h.hi₂]
  refine hm.imp_right ?_
  rintro ⟨b, hb, a, ha, hle⟩
  exact ⟨b, hb, s, by simp [h.lo₂], le_trans hle (h.above a ha).le⟩

variable [DecidableEq ι]

theorem Halves.extends (hv : Halves ρ n n₁ n₂ s) (hp : C.nodes p = some n)
    (hr : C.nodes r = none) : C.Extends (C.cutAt p r n₁ n₂) := by
  have hpr : p ≠ r := by
    rintro rfl
    rw [hp] at hr
    cases hr
  have hne : ∀ {q m}, C.nodes q = some m → q ≠ r := by
    rintro q m hq rfl
    rw [hq] at hr
    cases hr
  refine ⟨fun {q m} hq => ?_, fun {q m} hq hshown => ?_, ?_⟩
  · by_cases hqp : q = p
    · subst hqp
      obtain rfl : m = n := Option.some.inj (hq.symm.trans hp)
      refine ⟨n₁, cutAt_left hpr, hv.level₁, hv.lo₁, fun x hx => ?_⟩
      exact (hv.has_or hx).imp_right fun hx₂ => ⟨r, n₂, Or.inr rfl, cutAt_right, hv.level₂, hx₂⟩
    · exact ⟨m, by rw [cutAt_other hqp (hne hq)]; exact hq, rfl, rfl, fun x hx => Or.inl hx⟩
  · rintro (hh | heq)
    · exact hshown hh
    · exact hne hq heq
  · rintro l x ⟨q, m, hh, hq, hl, hx⟩
    by_cases hqp : q = p
    · subst hqp
      obtain rfl : m = n := Option.some.inj (hq.symm.trans hp)
      rcases hv.has_or hx with hx₁ | hx₂
      · exact ⟨q, n₁, Or.inl hh, cutAt_left hpr, hv.level₁.trans hl, hx₁⟩
      · exact ⟨r, n₂, Or.inr rfl, cutAt_right, hv.level₂.trans hl, hx₂⟩
    · exact ⟨q, m, Or.inl hh, by rw [cutAt_other hqp (hne hq)]; exact hq, hl, hx⟩

/-- **A split.** The upper half is hidden until its separator is published. -/
theorem Sound.split (h : C.Sound ρ) (hp : C.nodes p = some n) (hr : C.nodes r = none)
    (hv : Halves ρ n n₁ n₂ s) : (C.cutAt p r n₁ n₂).Sound ρ := by
  have hext := hv.extends hp hr
  have hpr : p ≠ r := by
    rintro rfl
    rw [hp] at hr
    cases hr
  refine ⟨fun {q m} hq => ?_, fun {q q' m m'} hq hq' hne hl => ?_, fun {q m} hq hl => ?_,
    fun {q m l} hq hl => ?_, fun {q} hh => ?_, fun {q q' m m'} hh hq hq' hl heq => ?_, ?_⟩
  · rcases cutAt_cases hq with ⟨-, rfl⟩ | ⟨-, rfl⟩ | ⟨-, -, hq⟩
    · intro a ha b hb
      rw [hv.lo₂, Option.mem_some_iff] at ha
      exact ha ▸ hv.inside.2 b (hv.hi₂ ▸ hb)
    · intro a ha b hb
      rw [hv.hi₁, Option.mem_some_iff] at hb
      exact hb ▸ hv.above a (hv.lo₁ ▸ ha)
    · exact h.proper hq
  · have hcross : Before n₁.hi n₂.lo := ⟨s, by simp [hv.hi₁], s, by simp [hv.lo₂], le_refl s⟩
    rcases cutAt_cases hq with ⟨rfl, rfl⟩ | ⟨rfl, rfl⟩ | ⟨hqp, -, hold⟩
    · rcases cutAt_cases hq' with ⟨rfl, -⟩ | ⟨rfl, rfl⟩ | ⟨hqp', -, hold'⟩
      · exact absurd rfl hne
      · exact Or.inr hcross
      · exact hv.apart₂ (h.apart hp hold' (Ne.symm hqp') (hv.level₂ ▸ hl))
    · rcases cutAt_cases hq' with ⟨rfl, rfl⟩ | ⟨rfl, -⟩ | ⟨hqp', -, hold'⟩
      · exact Or.inl hcross
      · exact absurd rfl hne
      · exact hv.apart₁ (h.apart hp hold' (Ne.symm hqp') (hv.level₁ ▸ hl))
    · rcases cutAt_cases hq' with ⟨rfl, rfl⟩ | ⟨rfl, rfl⟩ | ⟨-, -, hold'⟩
      · exact (hv.apart₂ (h.apart hp hold (Ne.symm hqp) (hv.level₂ ▸ hl.symm))).symm
      · exact (hv.apart₁ (h.apart hp hold (Ne.symm hqp) (hv.level₁ ▸ hl.symm))).symm
      · exact h.apart hold hold' hne hl
  · rcases cutAt_cases hq with ⟨-, rfl⟩ | ⟨-, rfl⟩ | ⟨-, -, hq⟩
    · have hn0 : n.level = 0 := hv.level₂.symm.trans hl
      obtain ⟨hes, -, hge⟩ := hv.leaf hn0
      obtain ⟨hsorted, hin⟩ := h.leaf hp hn0
      rw [hes] at hsorted hin
      refine ⟨(List.pairwise_append.1 hsorted).2.1, fun e he => ⟨fun a ha => ?_, fun b hb => ?_⟩⟩
      · rw [hv.lo₂, Option.mem_some_iff] at ha
        exact ha ▸ hge e he
      · exact (hin e (List.mem_append_right _ he)).2 b (hv.hi₂ ▸ hb)
    · have hn0 : n.level = 0 := hv.level₁.symm.trans hl
      obtain ⟨hes, hlt, -⟩ := hv.leaf hn0
      obtain ⟨hsorted, hin⟩ := h.leaf hp hn0
      rw [hes] at hsorted hin
      refine ⟨(List.pairwise_append.1 hsorted).1, fun e he => ⟨fun a ha => ?_, fun b hb => ?_⟩⟩
      · exact (hin e (List.mem_append_left _ he)).1 a (hv.lo₁ ▸ ha)
      · rw [hv.hi₁, Option.mem_some_iff] at hb
        exact hb ▸ hlt e he
    · exact h.leaf hq hl
  · rcases cutAt_cases hq with ⟨-, rfl⟩ | ⟨-, rfl⟩ | ⟨-, -, hq⟩
    · have hnl : n.level = l + 1 := hv.level₂.symm.trans hl
      obtain ⟨k, rfl, hkids⟩ := hv.node (by omega)
      exact ((h.node hp hnl).right hkids hv.lo₂ hv.hi₂ rfl).extend hext
    · have hnl : n.level = l + 1 := hv.level₁.symm.trans hl
      obtain ⟨k, rfl, hkids⟩ := hv.node (by omega)
      exact ((h.node hp hnl).left hkids hv.lo₁ hv.hi₁ rfl).extend hext
    · exact (h.node hq hl).extend hext
  · rcases hh with hh | rfl
    · obtain ⟨m, a, hm, ha⟩ := h.hidden_lo hh
      obtain ⟨m', hm', -, hlo, -⟩ := hext.info hm
      exact ⟨m', a, hm', hlo.trans ha⟩
    · exact ⟨n₂, s, cutAt_right, hv.lo₂⟩
  · -- the node that ends where a hidden one starts
    rcases cutAt_cases hq with ⟨rfl, rfl⟩ | ⟨rfl, rfl⟩ | ⟨hqp, hqr, hold⟩
    · rw [hv.lo₂] at heq
      rcases cutAt_cases hq' with ⟨-, rfl⟩ | ⟨-, rfl⟩ | ⟨hqp', -, hold'⟩
      · exact absurd (hv.inside.2 s (hv.hi₂ ▸ heq)) (lt_irrefl s)
      · exact hv.cut₁
      · rcases h.apart hp hold' (Ne.symm hqp') (hv.level₂ ▸ hl.symm) with ⟨b, hb, a, ha, hle⟩ |
          ⟨b, hb, a, ha, hle⟩
        · exact absurd (lt_trans (h.proper hold' a ha s heq)
            (lt_of_lt_of_le (hv.inside.2 b hb) hle)) (lt_irrefl a)
        · rw [heq, Option.mem_some_iff] at hb
          exact absurd (hv.above a ha) (not_lt.2 (hb ▸ hle))
    · have hhp : C.hidden q := hh.resolve_right hpr
      rw [hv.lo₁] at heq
      rcases cutAt_cases hq' with ⟨-, rfl⟩ | ⟨-, rfl⟩ | ⟨-, -, hold'⟩
      · obtain ⟨n', a, hn', ha⟩ := h.hidden_lo hhp
        obtain rfl : n = n' := Option.some.inj (hp.symm.trans hn')
        have hhi : a ∈ n.hi := by rw [← hv.hi₂, heq, ha]; rfl
        exact absurd (hv.inside.2 a hhi) (not_lt.2 (hv.inside.1 a (by simp [ha])))
      · exact hv.cut₁
      · exact h.edge hhp hp hold' (hv.level₁ ▸ hl) heq
    · have hhq : C.hidden q := hh.resolve_right hqr
      rcases cutAt_cases hq' with ⟨-, rfl⟩ | ⟨-, rfl⟩ | ⟨-, -, hold'⟩
      · rw [hv.cut₂]
        exact h.edge hhq hold hp (hv.level₂ ▸ hl) (hv.hi₂ ▸ heq)
      · exact hv.cut₁
      · exact h.edge hhq hold hold' hl heq
  · obtain ⟨n₀, hroot, hshown, hlo, htop, hall⟩ := h.root
    obtain ⟨m, hm, hml, hmlo, hhas⟩ := hext.info hroot
    refine ⟨m, hm, hext.shown hroot hshown, hmlo.trans hlo, fun {q m'} hq => ?_, fun x => ?_⟩
    · rw [hml]
      rcases cutAt_cases hq with ⟨-, rfl⟩ | ⟨-, rfl⟩ | ⟨-, -, hold⟩
      · exact hv.level₂ ▸ htop hp
      · exact hv.level₁ ▸ htop hp
      · exact htop hold
    · rw [hml]
      rcases hall x with hx | hgap
      · exact hhas x hx
      · exact Or.inr (hext.gap hgap)

end Split

/-! ## New contents -/

theorem SameRange.has {n n' : Info ι K V α} (h : SameRange n n') : n'.Has x ↔ n.Has x := by
  unfold Info.Has
  rw [h.lo, h.hi]

variable [DecidableEq ι]

section Refill

variable {n' : Info ι K V α} {gone : ι → Prop}

theorem refill_gap (hp : C.nodes p = some n) (hs : SameRange n n') (hgap : C.Gap l x)
    (hgone : ∀ q m, gone q → C.nodes q = some m → m.level = l → ¬ m.Has x) :
    (C.refill p n' gone).Gap l x := by
  obtain ⟨q, m, hh, hq, hl, hx⟩ := hgap
  obtain ⟨m', hq', hsame⟩ : ∃ m', (C.refill p n' gone).nodes q = some m' ∧ SameRange m m' :=
    refill_new hp hs hq
  exact ⟨q, m', ⟨hh, fun hg => hgone q m hg hq hl hx⟩, hq', hsame.level.trans hl, hsame.has.2 hx⟩

/-- What does not depend on the contents. -/
theorem Sound.refill (h : C.Sound ρ) (hp : C.nodes p = some n) (hs : SameRange n n')
    (hleaf : n.level = 0 → n'.entries.Pairwise (fun x y => ρ x.1 < ρ y.1) ∧
      ∀ e ∈ n'.entries, n.Has (ρ e.1))
    (hnode : ∀ {q m l}, (C.refill p n' gone).nodes q = some m → m.level = l + 1 →
      (C.refill p n' gone).NodeOk ρ l m)
    (hroot : ∀ q m, gone q → C.nodes q = some m → ∀ n₀, C.nodes C.root = some n₀ →
      m.level ≠ n₀.level) : (C.refill p n' gone).Sound ρ := by
  refine ⟨fun {q m} hq => ?_, fun {q q' m m'} hq hq' hne hl => ?_, fun {q m} hq hl => ?_, hnode,
    fun {q} hh => ?_, fun {q q' m m'} hh hq hq' hl heq => ?_, ?_⟩
  · obtain ⟨m₀, hq, hsame, -⟩ := refill_old hp hs hq
    rw [hsame.lo, hsame.hi]
    exact h.proper hq
  · obtain ⟨m₀, hq, hsame, -⟩ := refill_old hp hs hq
    obtain ⟨m₀', hq', hsame', -⟩ := refill_old hp hs hq'
    rw [hsame.lo, hsame.hi, hsame'.lo, hsame'.hi]
    exact h.apart hq hq' hne (hsame.level.symm.trans (hl.trans hsame'.level))
  · obtain ⟨m₀, hold, hsame, hother, hself⟩ := refill_old hp hs hq
    have hl₀ : m₀.level = 0 := hsame.level.symm.trans hl
    by_cases hqp : q = p
    · subst hqp
      obtain rfl : n = m₀ := Option.some.inj (hp.symm.trans hold)
      obtain ⟨hsorted, hin⟩ := hleaf hl₀
      rw [hself rfl]
      exact ⟨hsorted, fun e he => hs.has.2 (hin e he)⟩
    · rw [hother hqp]
      exact h.leaf hold hl₀
  · obtain ⟨m, a, hm, ha⟩ := h.hidden_lo hh.1
    obtain ⟨m', hm', hsame⟩ : ∃ m', (C.refill p n' gone).nodes q = some m' ∧ SameRange m m' :=
      refill_new hp hs hm
    exact ⟨m', a, hm', hsame.lo.trans ha⟩
  · obtain ⟨m₀, hq, hsame, -⟩ := refill_old hp hs hq
    obtain ⟨m₀', hq', hsame', -⟩ := refill_old hp hs hq'
    rw [hsame'.cut]
    exact h.edge hh.1 hq hq' (hsame'.level.symm.trans (hl.trans hsame.level))
      (hsame'.hi.symm.trans (heq.trans hsame.lo))
  · obtain ⟨n₀, hr₀, hshown, hlo, htop, hall⟩ := h.root
    obtain ⟨m, hm, hsame⟩ : ∃ m, (C.refill p n' gone).nodes C.root = some m ∧ SameRange n₀ m :=
      refill_new hp hs hr₀
    refine ⟨m, hm, fun hh => hshown hh.1, hsame.lo.trans hlo, fun {q m'} hq => ?_, fun x => ?_⟩
    · obtain ⟨m₀, hq, hsame', -⟩ := refill_old hp hs hq
      rw [hsame.level, hsame'.level]
      exact htop hq
    · rw [hsame.has, hsame.level]
      refine (hall x).imp_right fun hgap => refill_gap hp hs hgap fun q mq hg hq hl _ => ?_
      exact hroot q mq hg hq n₀ hr₀ hl

/-- **A leaf has new entries**, all in its range. -/
theorem Sound.put (h : C.Sound ρ) (hp : C.nodes p = some n) (hs : SameRange n n')
    (hl : n.level = 0) (hsorted : n'.entries.Pairwise (fun x y => ρ x.1 < ρ y.1))
    (hin : ∀ e ∈ n'.entries, n.Has (ρ e.1)) : (C.refill p n' fun _ => False).Sound ρ := by
  refine h.refill hp hs (fun _ => ⟨hsorted, hin⟩) (fun {q m l} hq hml => ?_) fun _ _ hg => hg.elim
  have hext : C.Extends (C.refill p n' fun _ => False) := by
    refine ⟨fun {q m} hq => ?_, fun _ hshown hh => hshown hh.1, fun hgap =>
      refill_gap hp hs hgap fun _ _ hg => hg.elim⟩
    obtain ⟨m', hm', hsame⟩ := refill_new hp hs hq
    exact ⟨m', hm', hsame.level, hsame.lo, fun x hx => Or.inl (hsame.has.2 hx)⟩
  obtain ⟨m₀, hold, hsame, hother, -⟩ := refill_old hp hs hq
  have hqp : q ≠ p := by
    rintro rfl
    obtain rfl : n = m₀ := Option.some.inj (hp.symm.trans hold)
    have := hsame.level
    omega
  rw [hother hqp]
  exact (h.node hold (hsame.level ▸ hml)).extend hext

end Refill

/-! ## Separators -/

omit [DecidableEq ι] in
/-- No child of a node starts inside a hidden one. -/
theorem Sound.not_start (h : C.Sound ρ) (hok : C.NodeOk ρ l n) (hr : C.hidden r)
    (hm : C.nodes r = some m) (hml : m.level = l) :
    (∀ a ∈ n.lo, ¬ m.Has a) ∧ ∀ k ∈ n.kids.seps, ¬ m.Has (ρ k) := by
  have hchild : ∀ c mc a, c ∈ n.kids.items → C.nodes c = some mc → mc.level = l →
      mc.lo = some a → ¬ m.Has a := by
    intro c mc a hc hmc hl ha hhas
    have := h.eq_of_has hmc hm (hl.trans hml.symm) (h.has_lo hmc ha) hhas
    exact hok.shown c hc (this ▸ hr)
  constructor
  · intro a ha
    obtain ⟨mc, hmc, hl, hlo⟩ := hok.head
    exact hchild _ mc a (by simp [SepList.items_eq]) hmc hl (hlo.trans ha)
  · intro k hk
    rw [SepList.seps_eq] at hk
    obtain ⟨e, he, rfl⟩ := List.mem_map.1 hk
    obtain ⟨mc, hmc, hl, hlo⟩ := hok.tail e he
    refine hchild _ mc _ ?_ hmc hl hlo
    rw [SepList.items_eq]
    exact List.mem_cons_of_mem _ (List.mem_map_of_mem he)

theorem pairwise_insertBefore {ks : List K} {sep : K} (hs : ks.Pairwise fun a b => ρ a < ρ b)
    (hne : ∀ k ∈ ks, ρ k ≠ ρ sep) :
    (insertBefore (beyond ρ sep) sep ks).Pairwise fun a b => ρ a < ρ b := by
  obtain ⟨a, b, hks, hins, ha, hb⟩ := insertBefore_eq (beyond ρ sep) sep ks
  rw [hins]
  rw [hks] at hs hne
  refine pairwise_insert hs (fun k hk => ?_) fun k hk => ?_
  · have hle : ρ k ≤ ρ sep := by simpa [beyond] using ha k hk
    exact lt_of_le_of_ne hle (hne k (List.mem_append_left _ hk))
  · cases b with
    | nil => cases hk
    | cons k₀ b =>
      have hk₀ : ρ sep < ρ k₀ := by simpa [beyond] using hb k₀ (by simp)
      rcases List.mem_cons.1 hk with rfl | hk
      · exact hk₀
      · have hkb := (List.pairwise_append.1 hs).2.1
        exact lt_trans hk₀ ((List.pairwise_cons.1 hkb).1 k hk)

/-- A leaf with a new entry of another rank. -/
theorem grow_strict {es : List (K × V)} {k : K} {v : V}
    (hs : es.Pairwise fun x y => ρ x.1 < ρ y.1) (hne : ∀ e ∈ es, ρ e.1 ≠ ρ k) :
    (BPlus.grow ρ k v es).Pairwise fun x y => ρ x.1 < ρ y.1 := by
  have hkeys : ((BPlus.grow ρ k v es).map Prod.fst).Pairwise fun a b => ρ a < ρ b := by
    rw [BPlus.grow, map_insertBefore]
    refine pairwise_insertBefore (List.pairwise_map.2 hs) fun c hc => ?_
    obtain ⟨e, he, rfl⟩ := List.mem_map.1 hc
    exact hne e he
  rw [List.pairwise_map] at hkeys
  exact hkeys

/-- The parent that takes the separator. -/
theorem Sound.publish_node (h : C.Sound ρ) (hok : C.NodeOk ρ l n) {sep : K}
    {gone : ι → Prop} {n' : Info ι K V α} (hp : C.nodes p = some n) (hs : SameRange n n')
    (hl : n.level = l + 1) (hr : C.hidden r) (hm : C.nodes r = some m) (hml : m.level = l)
    (hlo : m.lo = some (ρ sep)) (hsep : n.Has (ρ sep)) (hgone : ∀ q, gone q ↔ q = r)
    (hkids : n'.kids = n.kids.insertSep (beyond ρ sep) sep r) :
    (C.refill p n' gone).NodeOk ρ l n' := by
  have hmsep : m.Has (ρ sep) := h.has_lo hm hlo
  obtain ⟨hnlo, hnsep⟩ := h.not_start hok hr hm hml
  have hne : ∀ k ∈ n.kids.seps, ρ k ≠ ρ sep := fun k hk heq => hnsep k hk (heq ▸ hmsep)
  have habove : ∀ a ∈ n.lo, a < ρ sep := fun a ha =>
    lt_of_le_of_ne (hsep.1 a ha) fun heq => hnlo a ha (heq ▸ hmsep)
  have hmem : ∀ k ∈ n'.kids.seps, k = sep ∨ k ∈ n.kids.seps := by
    intro k hk
    rw [hkids, seps_insertSep, mem_insertBefore] at hk
    exact hk
  have hdown : ∀ {c mc}, C.nodes c = some mc → mc.level = l →
      (C.refill p n' gone).nodes c = some mc := by
    intro c mc hc hcl
    rw [refill_other]
    · exact hc
    · rintro rfl
      obtain rfl : n = mc := Option.some.inj (hp.symm.trans hc)
      omega
  refine ⟨?_, fun k hk => ?_, ?_, fun e he => ?_, fun c hc => ?_, fun x hx mc hmc => ?_⟩
  · rw [hkids, seps_insertSep]
    exact pairwise_insertBefore hok.sorted hne
  · rw [hs.lo, hs.has]
    rcases hmem k hk with rfl | hk
    · exact ⟨hsep, habove⟩
    · exact hok.within k hk
  · obtain ⟨mc, hmc, hcl, hclo⟩ := hok.head
    rw [hkids, SepList.head_insertSep]
    exact ⟨mc, hdown hmc hcl, hcl, hclo.trans hs.lo.symm⟩
  · rw [hkids, tail_insertSep, mem_insertBefore] at he
    rcases he with rfl | he
    · exact ⟨m, hdown hm hml, hml, hlo⟩
    · obtain ⟨mc, hmc, hcl, hclo⟩ := hok.tail e he
      exact ⟨mc, hdown hmc hcl, hcl, hclo⟩
  · rw [hkids, (SepList.items_insertSep_perm _ _ _ _).mem_iff, List.mem_cons] at hc
    rintro ⟨hh, hg⟩
    rcases hc with rfl | hc
    · exact hg ((hgone _).2 rfl)
    · exact hok.shown c hc hh
  · rw [hs.has] at hx
    -- the child that had the rank, or the hidden node that has it
    obtain ⟨mo, hmo, hmol, hmolo, hmoshown, -⟩ := hok.route_info hx
    have hold := hok.covers x hx mo hmo
    have hrest : C.Gap l x → m.Has x ∨ (C.refill p n' gone).Gap l x := by
      rintro ⟨q, mq, hh, hq, hql, hqx⟩
      by_cases hqr : q = r
      · subst hqr
        obtain rfl : mq = m := Option.some.inj (hq.symm.trans hm)
        exact Or.inl hqx
      · exact Or.inr ⟨q, mq, ⟨hh, fun hg => hqr ((hgone q).1 hg)⟩, hdown hq hql, hql, hqx⟩
    rw [hkids, route_insertSep hok.sorted] at hmc
    split at hmc
    · next hcase =>
      obtain ⟨hsx, hlast⟩ := hcase
      obtain rfl : m = mc := Option.some.inj ((hdown hm hml).symm.trans hmc)
      rcases hold with hmox | hgap
      · -- the old child does not reach the separator
        have hmosep : mo.Has (ρ sep) := by
          refine ⟨fun a ha => ?_, fun b hb => lt_of_le_of_lt hsx (hmox.2 b hb)⟩
          rcases route_cases hok.sorted x with ⟨hroute, -⟩ | ⟨e, he, hroute, hex, -⟩
          · obtain ⟨mh, hmh, -, hmhlo⟩ := hok.head
            obtain rfl : mo = mh := Option.some.inj (hmo.symm.trans (hroute ▸ hmh))
            exact hsep.1 a (hmhlo ▸ ha)
          · obtain ⟨me, hme, -, hmelo⟩ := hok.tail e he
            obtain rfl : mo = me := Option.some.inj (hmo.symm.trans (hroute ▸ hme))
            rw [hmelo, Option.mem_some_iff] at ha
            refine ha ▸ hlast e.1 ?_ hex
            rw [SepList.seps_eq]
            exact List.mem_map_of_mem he
        have heq := h.eq_of_has hmo hm (hmol.trans hml.symm) hmosep hmsep
        exact absurd hr (heq ▸ hmoshown)
      · exact hrest hgap
    · next hcase =>
      obtain rfl : mo = mc := Option.some.inj ((hdown hmo hmol).symm.trans hmc)
      rcases hold with hmox | hgap
      · exact Or.inl hmox
      · refine Or.inr ((hrest hgap).resolve_left fun hmx => hcase ?_)
        -- a separator past the new one would start inside the hidden node
        refine ⟨hmx.1 _ (by simp [hlo]), fun k hk hkx => ?_⟩
        by_contra hlt
        refine hnsep k hk ⟨fun a ha => ?_, fun b hb => lt_of_le_of_lt hkx (hmx.2 b hb)⟩
        rw [hlo, Option.mem_some_iff] at ha
        exact ha ▸ (not_le.1 hlt).le

/-- **A separator is published** in the node that is responsible for it. -/
theorem Sound.publish (h : C.Sound ρ) {sep : K} {n' : Info ι K V α} (hp : C.nodes p = some n)
    (hs : SameRange n n') (hl : n.level = l + 1) (hr : C.hidden r) (hm : C.nodes r = some m)
    (hml : m.level = l) (hlo : m.lo = some (ρ sep)) (hsep : n.Has (ρ sep))
    (hkids : n'.kids = n.kids.insertSep (beyond ρ sep) sep r) :
    (C.refill p n' (· = r)).Sound ρ := by
  have hmsep : m.Has (ρ sep) := h.has_lo hm hlo
  refine h.refill hp hs (fun hl₀ => by omega) (fun {q mq l'} hq hql => ?_) ?_
  · obtain ⟨m₀, hold, hsame, hother, hself⟩ := refill_old hp hs hq
    by_cases hqp : q = p
    · subst hqp
      obtain rfl : n = m₀ := Option.some.inj (hp.symm.trans hold)
      obtain rfl : l = l' := by
        have := hsame.level
        omega
      rw [hself rfl]
      exact h.publish_node (h.node hp hl) hp hs hl hr hm hml hlo hsep (fun q => Iff.rfl) hkids
    · rw [hother hqp]
      have hml₀ : m₀.level = l' + 1 := hsame.level.symm.trans hql
      have hok := h.node hold hml₀
      -- the other nodes of this level have nothing to do with the published one
      have hkeep : ∀ x, m₀.Has x → ∀ q mq, q = r → C.nodes q = some mq → mq.level = l' →
          ¬ mq.Has x := by
        rintro x hx q mq rfl hq hql hqx
        obtain rfl : mq = m := Option.some.inj (hq.symm.trans hm)
        have hl' : m₀.level = n.level := by omega
        rcases h.apart hold hp hqp hl' with ⟨b, hb, a, ha, hle⟩ | ⟨b, hb, a, ha, hle⟩
        · exact absurd (lt_of_lt_of_le (hx.2 b hb) (le_trans hle (hsep.1 a ha)))
            (not_lt.2 (hqx.1 _ (by simp [hlo])))
        · refine (h.not_start hok hr hm (by omega)).1 a ha ⟨fun c hc => ?_, fun c hc => ?_⟩
          · rw [hlo, Option.mem_some_iff] at hc
            exact hc ▸ (le_trans (hsep.2 b hb).le hle)
          · exact lt_of_le_of_lt (hx.1 a ha) (hqx.2 c hc)
      refine ⟨hok.sorted, hok.within, ?_, fun e he => ?_, fun c hc hh => hok.shown c hc hh.1,
        fun x hx mc hmc => ?_⟩
      · obtain ⟨mc, hmc, hcl, hclo⟩ := hok.head
        obtain ⟨mc', hmc', hsame'⟩ := refill_new hp hs hmc
        exact ⟨mc', hmc', hsame'.level.trans hcl, hsame'.lo.trans hclo⟩
      · obtain ⟨mc, hmc, hcl, hclo⟩ := hok.tail e he
        obtain ⟨mc', hmc', hsame'⟩ := refill_new hp hs hmc
        exact ⟨mc', hmc', hsame'.level.trans hcl, hsame'.lo.trans hclo⟩
      · obtain ⟨mo, hmo, hsame', -⟩ := refill_old hp hs hmc
        rw [hsame'.has]
        refine (hok.covers x hx mo hmo).imp_right fun hgap => refill_gap hp hs hgap ?_
        exact hkeep x hx
  · rintro q mq rfl hq n₀ hn₀ heq
    obtain rfl : mq = m := Option.some.inj (hq.symm.trans hm)
    obtain ⟨n₁, hroot, -, -, htop, -⟩ := h.root
    obtain rfl : n₀ = n₁ := Option.some.inj (hn₀.symm.trans hroot)
    have := htop hp
    omega

/-- **The root was split**: the new one is responsible for everything. -/
theorem Sound.newRoot (h : C.Sound ρ) {sep : K} {n' : Info ι K V α} (hq : C.nodes q = none)
    (hp : C.nodes C.root = some n) (hr : C.hidden r) (hm : C.nodes r = some m)
    (hml : m.level = n.level) (hlo : m.lo = some (ρ sep)) (hlevel : n'.level = n.level + 1)
    (hlo' : n'.lo = none) (hhi' : n'.hi = none)
    (hkids : n'.kids = .cons C.root sep (.single r)) : (C.grow q n' r).Sound ρ := by
  have hmsep : m.Has (ρ sep) := h.has_lo hm hlo
  obtain ⟨n₀, hroot, hshown, hrlo, htop, hall⟩ := h.root
  obtain rfl : n = n₀ := Option.some.inj (hp.symm.trans hroot)
  have hrr : C.root ≠ r := fun heq => hshown (heq ▸ hr)
  have hself : (C.grow q n' r).nodes q = some n' := by simp [Chart.grow]
  have hkeep : ∀ {p mp}, C.nodes p = some mp → (C.grow q n' r).nodes p = some mp := by
    intro p mp hpn
    have hne : p ≠ q := by
      rintro rfl
      rw [hq] at hpn
      cases hpn
    simpa [Chart.grow, hne] using hpn
  have hcases : ∀ {p mp}, (C.grow q n' r).nodes p = some mp →
      (p = q ∧ mp = n') ∨ C.nodes p = some mp := by
    intro p mp hpn
    by_cases hpq : p = q
    · subst hpq
      rw [hself] at hpn
      exact Or.inl ⟨rfl, (Option.some.inj hpn).symm⟩
    · exact Or.inr (by simpa [Chart.grow, hpq] using hpn)
  have hgap : ∀ {l x}, C.Gap l x → (l = n.level ∧ m.Has x) ∨ (C.grow q n' r).Gap l x := by
    rintro l x ⟨p, mp, hh, hpn, hl, hx⟩
    by_cases hpr : p = r
    · subst hpr
      obtain rfl : mp = m := Option.some.inj (hpn.symm.trans hm)
      exact Or.inl ⟨hl.symm.trans hml, hx⟩
    · exact Or.inr ⟨p, mp, ⟨hh, hpr⟩, hkeep hpn, hl, hx⟩
  refine ⟨fun {p mp} hpn => ?_, fun {p p' mp mp'} hpn hpn' hne hl => ?_, fun {p mp} hpn hl => ?_,
    fun {p mp l} hpn hl => ?_, fun {p} hh => ?_, fun {p p' mp mp'} hh hpn hpn' hl heq => ?_, ?_⟩
  · rcases hcases hpn with ⟨-, rfl⟩ | hold
    · simp [hlo']
    · exact h.proper hold
  · rcases hcases hpn with ⟨rfl, rfl⟩ | hold
    · rcases hcases hpn' with ⟨rfl, -⟩ | hold'
      · exact absurd rfl hne
      · have := htop hold'
        omega
    · rcases hcases hpn' with ⟨rfl, rfl⟩ | hold'
      · have := htop hold
        omega
      · exact h.apart hold hold' hne hl
  · rcases hcases hpn with ⟨-, rfl⟩ | hold
    · omega
    · exact h.leaf hold hl
  · rcases hcases hpn with ⟨-, rfl⟩ | hold
    · obtain rfl : l = n.level := by omega
      refine ⟨by simp [hkids], fun k hk => ?_, ⟨n, ?_, rfl, hrlo.trans hlo'.symm⟩, fun e he => ?_,
        fun c hc => ?_, fun x _ mc hmc => ?_⟩
      · exact ⟨⟨by simp [hlo'], by simp [hhi']⟩, by simp [hlo']⟩
      · rw [hkids]
        exact hkeep hp
      · obtain rfl : e = (sep, r) := by simpa [hkids, SepList.tail, SepList.head] using he
        exact ⟨m, hkeep hm, hml, hlo⟩
      · have hc : c = C.root ∨ c = r := by simpa [hkids] using hc
        rintro ⟨hh, hne⟩
        rcases hc with rfl | rfl
        · exact hshown hh
        · exact hne rfl
      · rw [hkids] at hmc
        simp only [SepList.route, passes, decide_eq_true_eq] at hmc
        split at hmc
        · next hsx =>
          obtain rfl : m = mc := Option.some.inj ((hkeep hm).symm.trans hmc)
          rcases hall x with hnx | hg
          · -- the old root ends before the separator
            have hnsep : n.Has (ρ sep) :=
              ⟨by simp [hrlo], fun b hb => lt_of_le_of_lt hsx (hnx.2 b hb)⟩
            exact absurd (h.eq_of_has hp hm hml.symm hnsep hmsep) hrr
          · exact (hgap hg).imp_left fun hx => hx.2
        · next hsx =>
          obtain rfl : n = mc := Option.some.inj ((hkeep hp).symm.trans hmc)
          rcases hall x with hnx | hg
          · exact Or.inl hnx
          · refine Or.inr ((hgap hg).resolve_left fun hx => hsx ?_)
            exact hx.2.1 _ (by simp [hlo])
    · have hok := h.node hold hl
      have hlt := htop hold
      refine ⟨hok.sorted, hok.within, ?_, fun e he => ?_, fun c hc hh => hok.shown c hc hh.1,
        fun x hx mc hmc => ?_⟩
      · obtain ⟨mc, hmc, hcl, hclo⟩ := hok.head
        exact ⟨mc, hkeep hmc, hcl, hclo⟩
      · obtain ⟨mc, hmc, hcl, hclo⟩ := hok.tail e he
        exact ⟨mc, hkeep hmc, hcl, hclo⟩
      · obtain ⟨mo, hmo, -⟩ := hok.route_info hx
        obtain rfl : mo = mc := Option.some.inj ((hkeep hmo).symm.trans hmc)
        refine (hok.covers x hx mo hmo).imp_right fun hg => (hgap hg).resolve_left fun hx => ?_
        omega
  · obtain ⟨mp, a, hpn, ha⟩ := h.hidden_lo hh.1
    exact ⟨mp, a, hkeep hpn, ha⟩
  · obtain ⟨mh, a, hmh, ha⟩ := h.hidden_lo hh.1
    obtain rfl : mh = mp := Option.some.inj ((hkeep hmh).symm.trans hpn)
    rcases hcases hpn' with ⟨rfl, rfl⟩ | hold'
    · rw [hhi', ha] at heq
      cases heq
    · exact h.edge hh.1 hmh hold' hl heq
  · refine ⟨n', hself, fun hh => ?_, hlo', fun {p mp} hpn => ?_, fun x => Or.inl ?_⟩
    · obtain ⟨mq, -, hmq, -⟩ := h.hidden_lo hh.1
      rw [show (C.grow q n' r).root = q from rfl, hq] at hmq
      cases hmq
    · rcases hcases hpn with ⟨-, rfl⟩ | hold
      · exact le_refl _
      · have := htop hold
        omega
    · exact ⟨by simp [hlo'], by simp [hhi']⟩

end Chart

/-! ## What an insertion remembers -/

/-- The node is responsible for the rank, or was until it was cut. -/
def Info.Meant (n : Info ι K V α) (x : α) : Prop :=
  (∀ a ∈ n.lo, a ≤ x) ∧ (n.cut = true ∨ ∀ b ∈ n.hi, x < b)

theorem Info.Has.meant {n : Info ι K V α} {x : α} (h : n.Has x) : n.Meant x := ⟨h.1, Or.inr h.2⟩

namespace Chart

variable {C C' : Chart ι K V α} {p q r : ι} {n m n' : Info ι K V α} {l : Nat} {x y : α}

theorem Keeps.meant (h : C.Keeps C') (hq : C.nodes q = some m) (hx : m.Meant x) :
    ∃ m', C'.nodes q = some m' ∧ m'.level = m.level ∧ m'.lo = m.lo ∧ m'.Meant x := by
  obtain ⟨m', hm', hl, hlo, hcut⟩ := h.info hq
  refine ⟨m', hm', hl, hlo, hlo ▸ hx.1, ?_⟩
  rcases hcut with hcut | ⟨hcut, hhi⟩
  · exact Or.inl hcut
  · rw [hcut, hhi]
    exact hx.2

/-- Every rank of `lo'` and above is one of `lo` and above. -/
def Within (lo lo' : Option α) : Prop := ∀ a ∈ lo, ∃ b ∈ lo', a ≤ b

theorem Within.refl (lo : Option α) : Within lo lo := fun a ha => ⟨a, ha, le_refl a⟩

theorem Within.trans {lo lo' lo'' : Option α} (h : Within lo lo') (h' : Within lo' lo'') :
    Within lo lo'' := by
  intro a ha
  obtain ⟨b, hb, hab⟩ := h a ha
  obtain ⟨c, hc, hbc⟩ := h' b hb
  exact ⟨c, hc, hab.trans hbc⟩

/-- The nodes an insertion came down through, from level `l` up: each of them is meant
for the rank and starts no later than the one before. -/
def Above (C : Chart ι K V α) (x : α) : Nat → Option α → List ι → Prop
  | _, _, [] => True
  | l, lo, p :: stack => ∃ n, C.nodes p = some n ∧ n.level = l ∧ ¬ C.hidden p ∧ Within n.lo lo ∧
      n.Meant x ∧ Above C x (l + 1) n.lo stack

theorem Above.keeps (hk : C.Keeps C') : ∀ {stack : List ι} {l : Nat} {lo : Option α},
    C.Above x l lo stack → C'.Above x l lo stack
  | [], _, _, _ => trivial
  | p :: stack, l, lo, ⟨n, hn, hl, hs, hlo, hx, hrest⟩ => by
    obtain ⟨n', hn', hl', hlo', hx'⟩ := hk.meant hn hx
    refine ⟨n', hn', hl'.trans hl, hk.shown hn hs, hlo'.symm ▸ hlo, hx', ?_⟩
    rw [hlo']
    exact Above.keeps hk hrest

theorem Above.weaken {lo lo' : Option α} {stack : List ι} (h : C.Above x l lo stack)
    (hle : Within lo lo') : C.Above x l lo' stack := by
  cases stack with
  | nil => trivial
  | cons p stack =>
    obtain ⟨n, hn, hl, hs, hlo, hrest⟩ := h
    exact ⟨n, hn, hl, hs, hlo.trans hle, hrest⟩

/-- At every level below a node that starts at a rank, another one does. -/
theorem Sound.exists_start (h : C.Sound ρ) {a : α} : ∀ (k : Nat) {p : ι} {n : Info ι K V α},
    C.nodes p = some n → n.level = l + k → n.lo = some a →
    ∃ q m, C.nodes q = some m ∧ m.level = l ∧ m.lo = some a
  | 0, p, n, hp, hl, hlo => ⟨p, n, hp, hl, hlo⟩
  | k + 1, _, _, hp, hl, hlo => by
    obtain ⟨m, hm, hml, hmlo⟩ := (h.node (l := l + k) hp hl).head
    exact h.exists_start k hm hml (hmlo.trans hlo)

/-- **What was meant for a rank is meant for the separator**: the node is split at a rank
of its range, and the nodes above do not end inside that range. -/
theorem Sound.meant_split (h : C.Sound ρ) (ht : C.Tiled) (hp : C.nodes p = some n)
    (hx : n.Has x) (hy : n.Has y) (hq : C.nodes q = some m) {k : Nat} (hl : m.level = n.level + k)
    (hlo : Within m.lo n.lo) (hm : m.Meant x) : m.Meant y := by
  refine ⟨fun a ha => ?_, hm.2.imp_right fun hhi b hb => ?_⟩
  · obtain ⟨b, hb, hab⟩ := hlo a ha
    exact hab.trans (hy.1 b hb)
  by_contra hyb
  have hby : b ≤ y := not_lt.1 hyb
  -- a node of the level of `n` starts where `m` ends, inside the range of `n`
  obtain ⟨q', m', hq', hl', hlo'⟩ := ht q m hq b hb
  obtain ⟨r, mr, hr, hrl, hrlo⟩ := h.exists_start k hq' (hl'.trans hl) hlo'
  have hnb : n.Has b := ⟨fun a ha => (hx.1 a ha).trans (hhi b hb).le, fun c hc =>
    lt_of_le_of_lt hby (hy.2 c hc)⟩
  obtain rfl := h.eq_of_has hp hr hrl.symm hnb (h.has_lo hr hrlo)
  obtain rfl : n = mr := Option.some.inj (hp.symm.trans hr)
  exact absurd (hx.1 b (by simp [hrlo])) (not_le.2 (hhi b hb))

theorem Sound.above_split (h : C.Sound ρ) (ht : C.Tiled) (hp : C.nodes p = some n)
    (hx : n.Has x) (hy : n.Has y) : ∀ {stack : List ι} {l : Nat} {lo : Option α},
    n.level ≤ l → Within lo n.lo → C.Above x l lo stack → C.Above y l lo stack
  | [], _, _, _, _, _ => trivial
  | q :: stack, l, lo, hl, hlo, ⟨m, hm, hml, hs, hmlo, hmx, hrest⟩ => by
    have hwithin : Within m.lo n.lo := hmlo.trans hlo
    have hlevel : m.level = n.level + (l - n.level) := by omega
    refine ⟨m, hm, hml, hs, hmlo, h.meant_split ht hp hx hy hm hlevel hwithin hmx, ?_⟩
    exact h.above_split ht hp hx hy (Nat.le_succ_of_le hl) hwithin hrest

variable [DecidableEq ι]

section Split

variable {n₁ n₂ : Info ι K V α} {s : α}

theorem Keeps.split (hv : Halves ρ n n₁ n₂ s) (hp : C.nodes p = some n) (hr : C.nodes r = none) :
    C.Keeps (C.cutAt p r n₁ n₂) := by
  have hext := hv.extends hp hr
  refine ⟨fun {q m} hq => ?_, hext.shown⟩
  obtain ⟨m', hm', hl, hlo, -⟩ := hext.info hq
  refine ⟨m', hm', hl, hlo, ?_⟩
  rcases cutAt_cases hm' with ⟨rfl, -⟩ | ⟨-, rfl⟩ | ⟨-, -, hold⟩
  · rw [hr] at hq
    cases hq
  · exact Or.inl hv.cut₁
  · obtain rfl : m = m' := Option.some.inj (hq.symm.trans hold)
    exact Or.inr ⟨rfl, rfl⟩

theorem Tiled.split (h : C.Tiled) (hv : Halves ρ n n₁ n₂ s) (hp : C.nodes p = some n)
    (hr : C.nodes r = none) : (C.cutAt p r n₁ n₂).Tiled := by
  have hext := hv.extends hp hr
  have hstart : ∀ {q m b}, C.nodes q = some m → m.hi = some b →
      ∃ q' m', (C.cutAt p r n₁ n₂).nodes q' = some m' ∧ m'.level = m.level ∧ m'.lo = some b := by
    intro q m b hq hb
    obtain ⟨q', m', hq', hl, hlo⟩ := h q m hq b hb
    obtain ⟨m'', hm'', hl', hlo', -⟩ := hext.info hq'
    exact ⟨q', m'', hm'', hl'.trans hl, hlo'.trans hlo⟩
  intro q m hq b hb
  rcases cutAt_cases hq with ⟨-, rfl⟩ | ⟨-, rfl⟩ | ⟨-, -, hold⟩
  · rw [hv.hi₂] at hb
    rw [hv.level₂]
    exact hstart hp hb
  · refine ⟨r, n₂, cutAt_right, hv.level₂.trans hv.level₁.symm, ?_⟩
    rw [hv.lo₂, ← hv.hi₁]
    exact hb
  · exact hstart hold hb

end Split

end Chart

/-! ## The entries of a chart -/

namespace Chart

variable {C : Chart ι K V α} {p q r : ι} {n m : Info ι K V α} {l : Nat} {x : α} {S : Set (K × V)}

variable (ρ) in
/-- The leaves hold `S`, every entry where its rank belongs. -/
structure Stores (C : Chart ι K V α) (S : Set (K × V)) : Prop where
  mem : ∀ {p n}, C.nodes p = some n → n.level = 0 → ∀ e ∈ n.entries, e ∈ S
  found : ∀ {p n}, C.nodes p = some n → n.level = 0 → ∀ e ∈ S, n.Has (ρ e.1) → e ∈ n.entries

variable [DecidableEq ι]

theorem Stores.split (h : C.Stores ρ S) {n₁ n₂ : Info ι K V α} {s : α} (hp : C.nodes p = some n)
    (hv : Halves ρ n n₁ n₂ s) : (C.cutAt p r n₁ n₂).Stores ρ S := by
  constructor
  · intro q m hq hl e he
    rcases cutAt_cases hq with ⟨-, rfl⟩ | ⟨-, rfl⟩ | ⟨-, -, hq⟩
    · have hn0 : n.level = 0 := hv.level₂.symm.trans hl
      exact h.mem hp hn0 e (by rw [(hv.leaf hn0).1]; exact List.mem_append_right _ he)
    · have hn0 : n.level = 0 := hv.level₁.symm.trans hl
      exact h.mem hp hn0 e (by rw [(hv.leaf hn0).1]; exact List.mem_append_left _ he)
    · exact h.mem hq hl e he
  · intro q m hq hl e he hhas
    rcases cutAt_cases hq with ⟨-, rfl⟩ | ⟨-, rfl⟩ | ⟨-, -, hq⟩
    · have hn0 : n.level = 0 := hv.level₂.symm.trans hl
      obtain ⟨hes, hlt, -⟩ := hv.leaf hn0
      have hse : s ≤ ρ e.1 := hhas.1 s (by simp [hv.lo₂])
      have hn : n.Has (ρ e.1) :=
        ⟨fun a ha => (hv.above a ha).le.trans hse, fun b hb => hhas.2 b (hv.hi₂ ▸ hb)⟩
      have hmem := h.found hp hn0 e he hn
      rw [hes, List.mem_append] at hmem
      exact hmem.resolve_left fun h₁ => absurd (hlt e h₁) (not_lt.2 hse)
    · have hn0 : n.level = 0 := hv.level₁.symm.trans hl
      obtain ⟨hes, -, hge⟩ := hv.leaf hn0
      have hse : ρ e.1 < s := hhas.2 s (by simp [hv.hi₁])
      have hn : n.Has (ρ e.1) :=
        ⟨fun a ha => hhas.1 a (hv.lo₁ ▸ ha), fun b hb => lt_trans hse (hv.inside.2 b hb)⟩
      have hmem := h.found hp hn0 e he hn
      rw [hes, List.mem_append] at hmem
      exact hmem.resolve_right fun h₂ => absurd (hge e h₂) (not_le.2 hse)
    · exact h.found hq hl e he hhas

/-- A new entry in the leaf that is responsible for it. -/
theorem Stores.put (h : C.Stores ρ S) (hC : C.Sound ρ) {n' : Info ι K V α} {e₀ : K × V}
    {gone : ι → Prop} (hp : C.nodes p = some n) (hs : SameRange n n') (hl : n.level = 0)
    (hhas : n.Has (ρ e₀.1)) (hes : ∀ e, e ∈ n'.entries ↔ e = e₀ ∨ e ∈ n.entries) :
    (C.refill p n' gone).Stores ρ (Insert.insert e₀ S) := by
  constructor
  · intro q m hq hml e he
    obtain ⟨m₀, hold, hsame, hother, hself⟩ := refill_old hp hs hq
    by_cases hqp : q = p
    · rw [hself hqp, hes] at he
      exact he.imp id fun he => h.mem hp hl e he
    · rw [hother hqp] at he
      exact Or.inr (h.mem hold (hsame.level ▸ hml) e he)
  · intro q m hq hml e he hme
    obtain ⟨m₀, hold, hsame, hother, hself⟩ := refill_old hp hs hq
    rw [hsame.has] at hme
    by_cases hqp : q = p
    · subst hqp
      obtain rfl : n = m₀ := Option.some.inj (hp.symm.trans hold)
      rw [hself rfl, hes]
      exact he.imp id fun he => h.found hp hl e he hme
    · rw [hother hqp]
      rcases he with rfl | he
      · have hlev : m₀.level = n.level := hsame.level.symm.trans (hml.trans hl.symm)
        exact absurd (hC.eq_of_has hold hp hlev hme hhas) hqp
      · exact h.found hold (hsame.level ▸ hml) e he hme

theorem Stores.refill (h : C.Stores ρ S) {n' : Info ι K V α} {gone : ι → Prop}
    (hp : C.nodes p = some n) (hs : SameRange n n') (hl : n.level ≠ 0) :
    (C.refill p n' gone).Stores ρ S := by
  have hback : ∀ {q m}, (C.refill p n' gone).nodes q = some m → m.level = 0 → C.nodes q = some m := by
    intro q m hq hml
    obtain ⟨m₀, hold, hsame, hother, -⟩ := refill_old hp hs hq
    have hqp : q ≠ p := by
      rintro rfl
      obtain rfl : n = m₀ := Option.some.inj (hp.symm.trans hold)
      exact hl (hsame.level.symm.trans hml)
    rw [hother hqp]
    exact hold
  exact ⟨fun hq hml => h.mem (hback hq hml) hml, fun hq hml => h.found (hback hq hml) hml⟩

theorem Stores.newRoot (h : C.Stores ρ S) {n' : Info ι K V α} (hl : n'.level ≠ 0) :
    (C.grow q n' r).Stores ρ S := by
  have hback : ∀ {p m}, (C.grow q n' r).nodes p = some m → m.level = 0 → C.nodes p = some m := by
    intro p m hp hml
    by_cases hpq : p = q
    · subst hpq
      simp only [Chart.grow, Function.update_self, Option.some.injEq] at hp
      exact absurd (hp ▸ hml) hl
    · simpa [Chart.grow, hpq] using hp
  exact ⟨fun hp hml => h.mem (hback hp hml) hml, fun hp hml => h.found (hback hp hml) hml⟩

/-! ## Searching a chart without hidden nodes -/

omit [DecidableEq ι] in
/-- One step of a search. -/
theorem Sound.route_has (h : C.Sound ρ) (hshown : ∀ r, ¬ C.hidden r) (hp : C.nodes p = some n)
    (hl : n.level = l + 1) (hx : n.Has x) :
    ∃ m, C.nodes (n.kids.route (passes ρ x)) = some m ∧ m.level = l ∧ m.Has x := by
  have hok := h.node hp hl
  obtain ⟨m, hm, hml, -⟩ := hok.route_info hx
  refine ⟨m, hm, hml, (hok.covers x hx m hm).resolve_right ?_⟩
  rintro ⟨r, -, hr, -⟩
  exact hshown r hr

omit [DecidableEq ι] in
/-- There are nodes at every level below a node. -/
theorem Sound.exists_level (h : C.Sound ρ) : ∀ (k : Nat) {p : ι} {n : Info ι K V α},
    C.nodes p = some n → n.level = l + k → ∃ q m, C.nodes q = some m ∧ m.level = l
  | 0, p, n, hp, hl => ⟨p, n, hp, hl⟩
  | k + 1, _, _, hp, hl => by
    obtain ⟨m, hm, hml, -⟩ := (h.node (l := l + k) hp hl).head
    exact h.exists_level k hm hml

omit [DecidableEq ι] in
/-- A tree has fewer levels than nodes. -/
theorem Sound.level_lt (h : C.Sound ρ) {F : Finset ι}
    (hF : ∀ {q m}, C.nodes q = some m → q ∈ F) (hp : C.nodes p = some n) : n.level < F.card := by
  have hex : ∀ i : Fin (n.level + 1), ∃ q m, C.nodes q = some m ∧ m.level = i.val := fun i =>
    h.exists_level (n.level - i) hp (by omega)
  choose f m hf hm using hex
  have hinj : Function.Injective f := by
    intro i j hij
    have heq : m i = m j := Option.some.inj ((hf i).symm.trans (hij ▸ hf j))
    exact Fin.ext ((hm i).symm.trans (heq ▸ hm j))
  have hcard := Finset.card_le_card_of_injOn (s := Finset.univ) (t := F) f (fun i _ => hF (hf i))
    (fun i _ j _ hij => hinj hij)
  rw [Finset.card_univ, Fintype.card_fin] at hcard
  omega

end Chart

end Order

end BPlus
