import Ccdb.Lib.Chart

/-!
# The chart of a B+tree at rest

Every node of an ordered tree is responsible for the ranks between the separators
around it. Listed from the root down with these ranges, the nodes form a chart in
which nothing is hidden and nothing was cut.

Main results:

* `listed_infos` — the ranges of an ordered tree, by induction on its depth.
* `Tree.chart_sound` — the chart of a tree with distinct ids is sound.
-/

namespace BPlus

variable {ι K V α : Type}

variable {ρ : K → α}

/-! ## Ranges of the nodes -/

variable (ρ) in
/-- Children side by side, each from its separator to the next. -/
def spread {T W : Type} (f : T → Option α → Option α → List W) :
    SepList K T → Option α → Option α → List W
  | .single c, lo, hi => f c lo hi
  | .cons c k rest, lo, hi => f c lo (some (ρ k)) ++ spread f rest (some (ρ k)) hi

variable (ρ) in
/-- The nodes of a tree that is responsible for the ranks from `lo` to `hi`. -/
def Tree.infos : (d : Nat) → Tree ι K V d → Option α → Option α → List (ι × Info ι K V α)
  | 0, t, lo, hi => [(Leaf.id t, ⟨0, lo, hi, false, Leaf.entries t, .single (Leaf.id t)⟩)]
  | d + 1, t, lo, hi =>
    (Node.id t, ⟨d + 1, lo, hi, false, [], (Node.kids t).map Tree.rootId⟩) ::
      spread ρ (infos d) (Node.kids t) lo hi

theorem ranks_append {a b : SepList K (Leaf ι K V)} {k : K} :
    ranks ρ (a.append k b) = ranks ρ a ++ (ρ k, true) :: ranks ρ b := by
  simp [ranks]

theorem map_fst_spread {d : Nat} (ih : ∀ (t : Tree ι K V d) (lo hi : Option α),
      (t.infos ρ d lo hi).map Prod.fst = t.ids d) (s : SepList K (Tree ι K V d)) :
    ∀ lo hi, (spread ρ (Tree.infos ρ d) s lo hi).map Prod.fst = s.spell (Tree.ids d) fun _ => [] := by
  induction s with
  | single c => exact ih c
  | cons c k rest ihs =>
    intro lo hi
    rw [spread, List.map_append, ih, ihs, SepList.spell_cons, List.append_nil]

theorem map_fst_infos : ∀ (d : Nat) (t : Tree ι K V d) (lo hi : Option α),
    (t.infos ρ d lo hi).map Prod.fst = t.ids d
  | 0, _, _, _ => rfl
  | d + 1, t, lo, hi => by
    rw [Tree.infos, List.map_cons, map_fst_spread (map_fst_infos d)]
    rfl

theorem mem_entriesOf_spread {d : Nat} {e : K × V} (ih : ∀ (t : Tree ι K V d) (lo hi : Option α),
      e ∈ entriesOf (t.flat d) ↔
        ∃ x ∈ t.infos ρ d lo hi, x.2.level = 0 ∧ e ∈ x.2.entries) (s : SepList K (Tree ι K V d)) :
    ∀ lo hi, e ∈ entriesOf (s.bind (Tree.flat d)) ↔
      ∃ x ∈ spread ρ (Tree.infos ρ d) s lo hi, x.2.level = 0 ∧ e ∈ x.2.entries := by
  induction s with
  | single c => exact ih c
  | cons c k rest ihs =>
    intro lo hi
    rw [SepList.bind_cons, entriesOf, SepList.spell_append, List.append_nil, List.mem_append, spread]
    simp only [List.mem_append, or_and_right, exists_or]
    exact or_congr (ih c lo (some (ρ k))) (ihs (some (ρ k)) hi)

/-- The entries of a tree are those of its leaves. -/
theorem mem_entriesOf_infos {e : K × V} : ∀ (d : Nat) (t : Tree ι K V d) (lo hi : Option α),
    e ∈ entriesOf (t.flat d) ↔ ∃ x ∈ t.infos ρ d lo hi, x.2.level = 0 ∧ e ∈ x.2.entries
  | 0, t, lo, hi => by
    show e ∈ Leaf.entries t ↔ _
    simp [Tree.infos]
  | d + 1, t, lo, hi => by
    rw [Tree.flat, mem_entriesOf_spread (mem_entriesOf_infos d) (Node.kids t) lo hi, Tree.infos]
    simp

section Start

variable [DecidableEq ι]

variable (ρ) in
/-- The chart of a tree in which no split is under way. -/
def Tree.chart (d : Nat) (t : Tree ι K V d) : Chart ι K V α where
  nodes p := ((t.infos ρ d none none).find? fun e => e.1 = p).map Prod.snd
  hidden _ := False
  root := t.rootId

theorem chart_nodes {d : Nat} {t : Tree ι K V d} (hnd : (t.ids d).Nodup) {p : ι}
    {m : Info ι K V α} : (t.chart ρ d).nodes p = some m ↔ (p, m) ∈ t.infos ρ d none none := by
  rw [← map_fst_infos (ρ := ρ) d t none none] at hnd
  simp only [Tree.chart, Option.map_eq_some_iff]
  constructor
  · rintro ⟨⟨q, m'⟩, hfind, rfl⟩
    have hq : q = p := by simpa using List.find?_some hfind
    exact hq ▸ List.mem_of_find?_eq_some hfind
  · intro hmem
    cases hfind : (t.infos ρ d none none).find? fun e => e.1 = p with
    | none =>
      have := List.find?_eq_none.1 hfind (p, m) hmem
      simp at this
    | some e =>
      have he : e.1 = p := by simpa using List.find?_some hfind
      have heq := List.inj_on_of_nodup_map hnd (List.mem_of_find?_eq_some hfind) hmem he
      exact ⟨e, rfl, by rw [heq]⟩

end Start

section Order

variable [LinearOrder α]

/-- The ranks of a tree are from `lo` to `hi`, its separators above `lo`. -/
def InRange (lo hi : Option α) (ws : List (α × Bool)) : Prop :=
  (∀ a ∈ lo, ∀ b ∈ hi, a < b) ∧
    ∀ w ∈ ws, (∀ a ∈ lo, a ≤ w.1 ∧ (w.2 = true → a < w.1)) ∧ ∀ b ∈ hi, w.1 < b

variable (ρ) in
/-- The children of a node are on the list, and a search finds the right one. -/
structure KidsOn (L : List (ι × Info ι K V α)) (l : Nat) (lo hi : Option α) (kids : SepList K ι) :
    Prop where
  sorted : kids.seps.Pairwise fun a b => ρ a < ρ b
  within : ∀ k ∈ kids.seps, (∀ a ∈ lo, a < ρ k) ∧ ∀ b ∈ hi, ρ k < b
  head : ∃ m, (kids.head, m) ∈ L ∧ m.level = l ∧ m.lo = lo
  tail : ∀ e ∈ kids.tail, ∃ m, (e.2, m) ∈ L ∧ m.level = l ∧ m.lo = some (ρ e.1)
  covers : ∀ x, (∀ a ∈ lo, a ≤ x) → (∀ b ∈ hi, x < b) →
    ∃ m, (kids.route (passes ρ x), m) ∈ L ∧ m.Has x

theorem KidsOn.mono {L L' : List (ι × Info ι K V α)} {lo hi : Option α} {kids : SepList K ι}
    {l : Nat} (h : KidsOn ρ L l lo hi kids) (hsub : ∀ e ∈ L, e ∈ L') : KidsOn ρ L' l lo hi kids where
  sorted := h.sorted
  within := h.within
  head := by
    obtain ⟨m, hm, hrest⟩ := h.head
    exact ⟨m, hsub _ hm, hrest⟩
  tail e he := by
    obtain ⟨m, hm, hrest⟩ := h.tail e he
    exact ⟨m, hsub _ hm, hrest⟩
  covers x hlo hhi := by
    obtain ⟨m, hm, hrest⟩ := h.covers x hlo hhi
    exact ⟨m, hsub _ hm, hrest⟩

variable (ρ) in
/-- A list of nodes of levels up to `d` that are responsible for `lo` to `hi`. -/
structure Listed (d : Nat) (lo hi : Option α) (L : List (ι × Info ι K V α)) : Prop where
  uncut : ∀ e ∈ L, e.2.cut = false
  level : ∀ e ∈ L, e.2.level ≤ d
  from_lo : ∀ e ∈ L, ∀ a ∈ lo, ∃ b ∈ e.2.lo, a ≤ b
  to_hi : ∀ e ∈ L, ∀ b ∈ hi, ∃ c ∈ e.2.hi, c ≤ b
  proper : ∀ e ∈ L, ∀ a ∈ e.2.lo, ∀ b ∈ e.2.hi, a < b
  apart : L.Pairwise fun e e' => e.2.level = e'.2.level → Before e.2.hi e'.2.lo
  leaf : ∀ e ∈ L, e.2.level = 0 → e.2.entries.Pairwise (fun x y => ρ x.1 < ρ y.1) ∧
    ∀ x ∈ e.2.entries, e.2.Has (ρ x.1)
  node : ∀ e ∈ L, ∀ l, e.2.level = l + 1 → KidsOn ρ L l e.2.lo e.2.hi e.2.kids
  first : ∀ l ≤ d, ∃ e ∈ L, e.2.level = l ∧ e.2.lo = lo
  next : ∀ e ∈ L, ∀ b ∈ e.2.hi, b ∈ hi ∨ ∃ e' ∈ L, e'.2.level = e.2.level ∧ e'.2.lo = some b

theorem Listed.append {d : Nat} {lo hi : Option α} {k : α} {L L' : List (ι × Info ι K V α)}
    (h : Listed ρ d lo (some k) L) (h' : Listed ρ d (some k) hi L') (hlo : ∀ a ∈ lo, a < k)
    (hhi : ∀ b ∈ hi, k < b) : Listed ρ d lo hi (L ++ L') := by
  have hmem : ∀ {e}, e ∈ L ++ L' → e ∈ L ∨ e ∈ L' := fun he => List.mem_append.1 he
  refine ⟨fun e he => (hmem he).elim (h.uncut e) (h'.uncut e),
    fun e he => (hmem he).elim (h.level e) (h'.level e), fun e he a ha => ?_, fun e he b hb => ?_,
    fun e he => (hmem he).elim (h.proper e) (h'.proper e), ?_,
    fun e he => (hmem he).elim (h.leaf e) (h'.leaf e), fun e he l hl => ?_, fun l hl => ?_,
    fun e he b hb => ?_⟩
  · rcases hmem he with he | he
    · exact h.from_lo e he a ha
    · obtain ⟨b, hb, hkb⟩ := h'.from_lo e he k rfl
      exact ⟨b, hb, le_trans (hlo a ha).le hkb⟩
  · rcases hmem he with he | he
    · obtain ⟨c, hc, hck⟩ := h.to_hi e he k rfl
      exact ⟨c, hc, le_trans hck (hhi b hb).le⟩
    · exact h'.to_hi e he b hb
  · refine List.pairwise_append.2 ⟨h.apart, h'.apart, fun e he e' he' _ => ?_⟩
    obtain ⟨c, hc, hck⟩ := h.to_hi e he k rfl
    obtain ⟨b, hb, hkb⟩ := h'.from_lo e' he' k rfl
    exact ⟨c, hc, b, hb, le_trans hck hkb⟩
  · rcases hmem he with he | he
    · exact (h.node e he l hl).mono fun e he => List.mem_append_left _ he
    · exact (h'.node e he l hl).mono fun e he => List.mem_append_right _ he
  · obtain ⟨e, he, hrest⟩ := h.first l hl
    exact ⟨e, List.mem_append_left _ he, hrest⟩
  · rcases hmem he with he | he
    · right
      rcases h.next e he b hb with hbk | ⟨e', he', hrest⟩
      · obtain ⟨e', he', hl', hlo'⟩ := h'.first e.2.level (h.level e he)
        exact ⟨e', List.mem_append_right _ he', hl', hlo'.trans hbk⟩
      · exact ⟨e', List.mem_append_left _ he', hrest⟩
    · rcases h'.next e he b hb with hbh | ⟨e', he', hrest⟩
      · exact Or.inl hbh
      · exact Or.inr ⟨e', List.mem_append_right _ he', hrest⟩

/-- The ranges on both sides of a separator. -/
theorem InRange.append {a b : SepList K (Leaf ι K V)} {k : K} {lo hi : Option α}
    (hord : Ordered ρ true (a.append k b)) (h : InRange lo hi (ranks ρ (a.append k b))) :
    InRange lo (some (ρ k)) (ranks ρ a) ∧ InRange (some (ρ k)) hi (ranks ρ b) := by
  rw [Ordered, ranks_append] at hord
  rw [ranks_append] at h
  obtain ⟨-, hkb, hcross⟩ := List.pairwise_append.1 hord
  obtain ⟨hkb, -⟩ := List.pairwise_cons.1 hkb
  obtain ⟨-, hall⟩ := h
  obtain ⟨hklo, hkhi⟩ := hall (ρ k, true) (by simp)
  refine ⟨⟨fun a ha b hb => ?_, fun w hw => ⟨(hall w (by simp [hw])).1, fun b hb => ?_⟩⟩,
    ⟨fun a ha b hb => ?_, fun w hw => ⟨fun a ha => ?_, (hall w (by simp [hw])).2⟩⟩⟩
  · rw [Option.mem_some_iff] at hb
    exact hb ▸ (hklo a ha).2 rfl
  · rw [Option.mem_some_iff] at hb
    exact hb ▸ (hcross w hw (ρ k, true) List.mem_cons_self).2 rfl rfl
  · rw [Option.mem_some_iff] at ha
    exact ha ▸ hkhi b hb
  · rw [Option.mem_some_iff] at ha
    exact ha ▸ ⟨(hkb w hw).1, (hkb w hw).2 rfl⟩

/-- The root of a listed tree is on the list. -/
def RootOn (L : List (ι × Info ι K V α)) (d : Nat) (p : ι) (lo hi : Option α) : Prop :=
  ∃ m, (p, m) ∈ L ∧ m.level = d ∧ m.lo = lo ∧ m.hi = hi

section Spread

variable {d : Nat}

/-- The children of a node, when each child is listed. -/
theorem listed_spread (ih : ∀ (t : Tree ι K V d) lo hi, Ordered ρ true (t.flat d) →
      InRange lo hi (ranks ρ (t.flat d)) →
      (entriesOf (t.flat d)).Pairwise (fun x y => ρ x.1 < ρ y.1) →
      Listed ρ d lo hi (t.infos ρ d lo hi) ∧ RootOn (t.infos ρ d lo hi) d t.rootId lo hi)
    (s : SepList K (Tree ι K V d)) : ∀ lo hi, Ordered ρ true (s.bind (Tree.flat d)) →
      InRange lo hi (ranks ρ (s.bind (Tree.flat d))) →
      (entriesOf (s.bind (Tree.flat d))).Pairwise (fun x y => ρ x.1 < ρ y.1) →
      Listed ρ d lo hi (spread ρ (Tree.infos ρ d) s lo hi) ∧
        KidsOn ρ (spread ρ (Tree.infos ρ d) s lo hi) d lo hi (s.map Tree.rootId) := by
  induction s with
  | single c =>
    intro lo hi hord hin hes
    obtain ⟨hlisted, m, hm, hl, hlo, hhi⟩ := ih c lo hi hord hin hes
    refine ⟨hlisted, by simp [SepList.map], by simp [SepList.map], ⟨m, hm, hl, hlo⟩,
      by simp [SepList.map, SepList.tail], fun x hxlo hxhi => ⟨m, hm, ?_⟩⟩
    exact ⟨hlo ▸ hxlo, hhi ▸ hxhi⟩
  | cons c k rest ihs =>
    intro lo hi hord hin hes
    rw [SepList.bind_cons] at hord hin hes
    obtain ⟨hin₁, hin₂⟩ := InRange.append hord hin
    have hord' := hord
    rw [Ordered, ranks_append] at hord'
    obtain ⟨hord₁, hord₂, -⟩ := List.pairwise_append.1 hord'
    rw [entriesOf, SepList.spell_append, List.append_nil] at hes
    obtain ⟨hes₁, hes₂, -⟩ := List.pairwise_append.1 hes
    obtain ⟨hl₁, m, hm, hml, hmlo, hmhi⟩ := ih c lo (some (ρ k)) hord₁ hin₁ hes₁
    obtain ⟨hl₂, hkids⟩ := ihs (some (ρ k)) hi (List.pairwise_cons.1 hord₂).2 hin₂ hes₂
    have hlok : ∀ a ∈ lo, a < ρ k := fun a ha => hin₁.1 a ha (ρ k) rfl
    have hkhi : ∀ b ∈ hi, ρ k < b := fun b hb => hin₂.1 (ρ k) rfl b hb
    have hm' : (c.rootId, m) ∈ spread ρ (Tree.infos ρ d) (.cons c k rest) lo hi :=
      List.mem_append_left _ hm
    have hkids : KidsOn ρ (spread ρ (Tree.infos ρ d) (.cons c k rest) lo hi) d (some (ρ k)) hi
        (rest.map Tree.rootId) := hkids.mono fun e he => List.mem_append_right _ he
    refine ⟨hl₁.append hl₂ hlok hkhi, ?_, fun k' hk' => ?_, ⟨m, hm', hml, hmlo⟩, fun e he => ?_,
      fun x hxlo hxhi => ?_⟩
    · rw [SepList.map, SepList.seps_cons, List.pairwise_cons]
      exact ⟨fun k' hk' => (hkids.within k' hk').1 (ρ k) rfl, hkids.sorted⟩
    · rw [SepList.map, SepList.seps_cons, List.mem_cons] at hk'
      rcases hk' with rfl | hk'
      · exact ⟨hlok, hkhi⟩
      · obtain ⟨hgt, hlt⟩ := hkids.within k' hk'
        exact ⟨fun a ha => lt_trans (hlok a ha) (hgt (ρ k) rfl), hlt⟩
    · rw [SepList.map, SepList.tail, List.mem_cons] at he
      rcases he with rfl | he
      · exact hkids.head
      · exact hkids.tail e he
    · rw [SepList.map]
      simp only [SepList.route, passes, decide_eq_true_eq]
      split
      · next hkx =>
        refine hkids.covers x (fun a ha => ?_) hxhi
        rw [Option.mem_some_iff] at ha
        exact ha ▸ hkx
      · next hkx =>
        refine ⟨m, hm', hmlo ▸ hxlo, fun b hb => ?_⟩
        rw [hmhi, Option.mem_some_iff] at hb
        exact hb ▸ not_le.1 hkx

end Spread

/-- **The nodes of an ordered tree** are responsible for its range. -/
theorem listed_infos : ∀ (d : Nat) (t : Tree ι K V d) (lo hi : Option α),
    Ordered ρ true (t.flat d) → InRange lo hi (ranks ρ (t.flat d)) →
    (entriesOf (t.flat d)).Pairwise (fun x y => ρ x.1 < ρ y.1) →
    Listed ρ d lo hi (t.infos ρ d lo hi) ∧ RootOn (t.infos ρ d lo hi) d t.rootId lo hi
  | 0, t, lo, hi, hord, hin, hes => by
    refine ⟨?_, _, List.mem_singleton_self _, rfl, rfl, rfl⟩
    have hall : ∀ {P : ι × Info ι K V α → Prop},
        P (Leaf.id t, ⟨0, lo, hi, false, Leaf.entries t, .single (Leaf.id t)⟩) →
        ∀ e ∈ t.infos ρ 0 lo hi, P e := fun hP e he => List.mem_singleton.1 he ▸ hP
    refine ⟨hall rfl, hall (le_refl 0), hall fun a ha => ⟨a, ha, le_refl a⟩,
      hall fun b hb => ⟨b, hb, le_refl b⟩, hall hin.1, List.pairwise_singleton _ _,
      hall fun _ => ⟨hes, fun x hx => ?_⟩, (hall fun l hl => by cases hl),
      fun l hl => ⟨_, List.mem_singleton_self _, (Nat.le_zero.1 hl).symm, rfl⟩,
      hall fun b hb => Or.inl hb⟩
    obtain ⟨hlo, hhi⟩ := hin.2 (ρ x.1, false) (List.mem_map.2 ⟨x, hx, rfl⟩)
    exact ⟨fun a ha => (hlo a ha).1, hhi⟩
  | d + 1, t, lo, hi, hord, hin, hes => by
    obtain ⟨hl, hkids⟩ := listed_spread (listed_infos d) (Node.kids t) lo hi hord hin hes
    refine ⟨?_, _, List.mem_cons_self, rfl, rfl, rfl⟩
    have hall : ∀ {P : ι × Info ι K V α → Prop},
        P (Node.id t, ⟨d + 1, lo, hi, false, [], (Node.kids t).map Tree.rootId⟩) →
        (∀ e ∈ spread ρ (Tree.infos ρ d) (Node.kids t) lo hi, P e) →
        ∀ e ∈ t.infos ρ (d + 1) lo hi, P e := fun hP hrest e he =>
      (List.mem_cons.1 he).elim (fun heq => heq ▸ hP) (hrest e)
    have hsub : ∀ e ∈ spread ρ (Tree.infos ρ d) (Node.kids t) lo hi, e ∈ t.infos ρ (d + 1) lo hi :=
      fun e he => List.mem_cons_of_mem _ he
    refine ⟨hall rfl hl.uncut, hall (le_refl _) fun e he => (hl.level e he).trans (Nat.le_succ d),
      hall (fun a ha => ⟨a, ha, le_refl a⟩) hl.from_lo, hall (fun b hb => ⟨b, hb, le_refl b⟩) hl.to_hi,
      hall hin.1 hl.proper, List.pairwise_cons.2 ⟨fun e he heq => ?_, hl.apart⟩,
      hall (fun h0 => by cases h0) hl.leaf, hall (fun l hl' => ?_) fun e he l hl' => ?_,
      fun l hl' => ?_, hall (fun b hb => Or.inl hb) fun e he b hb => ?_⟩
    · have := hl.level e he
      simp only at heq
      omega
    · obtain rfl : d = l := Nat.succ.inj hl'
      exact hkids.mono hsub
    · exact (hl.node e he l hl').mono hsub
    · rcases Nat.lt_or_ge l (d + 1) with hlt | hge
      · obtain ⟨e, he, hrest⟩ := hl.first l (Nat.le_of_lt_succ hlt)
        exact ⟨e, hsub e he, hrest⟩
      · exact ⟨_, List.mem_cons_self, le_antisymm hge hl', rfl⟩
    · refine (hl.next e he b hb).imp_right ?_
      rintro ⟨e', he', hrest⟩
      exact ⟨e', hsub e' he', hrest⟩

section Start

variable [DecidableEq ι]

/-- **A tree at rest is sound.** -/
theorem Tree.chart_sound {d : Nat} {t : Tree ι K V d} (hnd : (t.ids d).Nodup)
    (hord : Ordered ρ true (t.flat d))
    (hes : (entriesOf (t.flat d)).Pairwise fun x y => ρ x.1 < ρ y.1) : (t.chart ρ d).Sound ρ := by
  have hin : InRange none none (ranks ρ (t.flat d)) := ⟨by simp, by simp⟩
  obtain ⟨hl, m₀, hm₀, hl₀, hlo₀, hhi₀⟩ := listed_infos d t none none hord hin hes
  have hmem : ∀ {p m}, (t.chart ρ d).nodes p = some m ↔ (p, m) ∈ t.infos ρ d none none :=
    fun {p m} => chart_nodes hnd
  refine ⟨fun hp => hl.proper _ (hmem.1 hp), fun {p q n m} hp hq hne hlev => ?_,
    fun hp => hl.leaf _ (hmem.1 hp), fun {p n l} hp hlev => ?_, fun hh => hh.elim,
    fun hh => hh.elim, m₀, hmem.2 hm₀, id, hlo₀, fun hp => hl₀ ▸ hl.level _ (hmem.1 hp),
    fun x => Or.inl ⟨by simp [hlo₀], by simp [hhi₀]⟩⟩
  · obtain ⟨i, hi, hpi⟩ := List.getElem_of_mem (hmem.1 hp)
    obtain ⟨j, hj, hqj⟩ := List.getElem_of_mem (hmem.1 hq)
    have hpw := List.pairwise_iff_getElem.1 hl.apart
    rcases Nat.lt_trichotomy i j with hij | rfl | hji
    · have := hpw i j hi hj hij
      rw [hpi, hqj] at this
      exact Or.inl (this hlev)
    · rw [hpi] at hqj
      exact absurd (congrArg Prod.fst hqj) hne
    · have := hpw j i hj hi hji
      rw [hpi, hqj] at this
      exact Or.inr (this hlev.symm)
  · have hk := hl.node _ (hmem.1 hp) l hlev
    refine ⟨hk.sorted, fun k hks => ?_, ?_, fun e he => ?_, fun _ _ => id, fun x hx m hm => Or.inl ?_⟩
    · obtain ⟨hgt, hlt⟩ := hk.within k hks
      exact ⟨⟨fun a ha => (hgt a ha).le, hlt⟩, hgt⟩
    · obtain ⟨m, hm, hrest⟩ := hk.head
      exact ⟨m, hmem.2 hm, hrest⟩
    · obtain ⟨m, hm, hrest⟩ := hk.tail e he
      exact ⟨m, hmem.2 hm, hrest⟩
    · obtain ⟨m', hm', hhas⟩ := hk.covers x hx.1 hx.2
      obtain rfl : m = m' := Option.some.inj (hm.symm.trans (hmem.2 hm'))
      exact hhas

/-- Its levels have no gaps. -/
theorem Tree.chart_tiled {d : Nat} {t : Tree ι K V d} (hnd : (t.ids d).Nodup)
    (hord : Ordered ρ true (t.flat d))
    (hes : (entriesOf (t.flat d)).Pairwise fun x y => ρ x.1 < ρ y.1) : (t.chart ρ d).Tiled := by
  have hin : InRange none none (ranks ρ (t.flat d)) := ⟨by simp, by simp⟩
  obtain ⟨hl, -⟩ := listed_infos d t none none hord hin hes
  intro p n hp b hb
  rcases hl.next _ ((chart_nodes hnd).1 hp) b hb with hnone | ⟨⟨q, m⟩, hq, hrest⟩
  · cases hnone
  · exact ⟨q, m, (chart_nodes hnd).2 hq, hrest⟩

theorem Tree.chart_stores {d : Nat} {t : Tree ι K V d} (hnd : (t.ids d).Nodup)
    (hord : Ordered ρ true (t.flat d))
    (hes : (entriesOf (t.flat d)).Pairwise fun x y => ρ x.1 < ρ y.1) :
    (t.chart ρ d).Stores ρ { e | e ∈ entriesOf (t.flat d) } := by
  have hC := Tree.chart_sound hnd hord hes
  have hmem : ∀ e, e ∈ entriesOf (t.flat d) ↔
      ∃ x ∈ t.infos ρ d none none, x.2.level = 0 ∧ e ∈ x.2.entries := fun e =>
    mem_entriesOf_infos d t none none
  refine ⟨fun hp hl e he => (hmem e).2 ⟨_, (chart_nodes hnd).1 hp, hl, he⟩,
    fun {p n} hp hl e he hhas => ?_⟩
  obtain ⟨⟨q, m⟩, hq, hml, hem⟩ := (hmem e).1 he
  have hq := (chart_nodes hnd).2 hq
  obtain rfl := hC.eq_of_has hp hq (hl.trans hml.symm) hhas ((hC.leaf hq hml).2 e hem)
  obtain rfl : n = m := Option.some.inj (hp.symm.trans hq)
  exact hem

end Start

end Order

end BPlus
