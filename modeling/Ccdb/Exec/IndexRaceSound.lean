import Ccdb.Exec.IndexRace
import Ccdb.BTree.Fits
import Ccdb.Lib.ChartTree

/-!
# Ccdb — two insertions that stay out of each other's way

A chart says of every page of the tree which keys it is responsible for; the right
half of a split is hidden from the search until the caller that made it takes the
separator to the parent. Each section keeps the chart sound as long as the page it
latches is responsible for what it brings. A caller that came down before the other
one split a page may be astray, but then the page was cut, at or below the key.

Main results:

* `good_step` — a clear section keeps the invariant, or its call fails.
* `inserts_found` — after a run of clear sections every entry is found.
-/

namespace Ccdb.IndexRace

open BTree BPlus

variable {ty : DataType} {stack : List Nat}

/-! ## The invariant -/

abbrev PageChart (ty : DataType) := Chart Nat (Key ty) Rid (List Int)

/-- The page holds what the chart says. -/
structure OnPage (s : BufferPool) (p : Nat) (n : Info Nat (Key ty) Rid (List Int)) : Prop where
  leaf : n.level = 0 → ∃ next, IsLeafPage (s.pages p) (⟨p, next, n.entries⟩ : LeafNode ty)
  node : n.level ≠ 0 → IsNodePage (s.pages p) p n.kids

structure Drawn (C : PageChart ty) (s : BufferPool) : Prop where
  used : ∀ {p n}, C.nodes p = some n → s.Used p
  page : ∀ {p n}, C.nodes p = some n → OnPage s p n

/-- The page that a call still has to publish. -/
def rightOf : Pc → Option Nat
  | .absorb _ right _ => some right
  | _ => none

/-- The entry of the call is in a leaf. -/
def arrived : Pc → Bool
  | .visit _ _ => false
  | _ => true

/-- The entries in the leaves: those from before, and those of calls that arrived. -/
def stored (su : Setup ty) (S : Set (Key ty × Rid)) (pc : Bool → Pc) : Set (Key ty × Rid) :=
  { e | e ∈ S ∨ ∃ b, arrived (pc b) = true ∧ e = (su.key b, su.rid b) }

/-- Where a call stands; `N` is the level of the page it started from. -/
def JobOk (C : PageChart ty) (N : Nat) (k : Key ty) : Pc → Prop
  | .visit node stack => ∃ n, C.nodes node = some n ∧ ¬ C.hidden node ∧
      n.level + stack.length = N ∧ n.Meant k.rank ∧ C.Above k.rank (n.level + 1) n.lo stack
  | .absorb sep right stack => ∃ (sk : Key ty) (m : _), sep = sk.bytes ∧
      C.nodes right = some m ∧ m.lo = some sk.rank ∧ m.level + stack.length = N ∧
      C.Above sk.rank (m.level + 1) (some sk.rank) stack
  | .failed _ => False
  | _ => True

structure Inv (su : Setup ty) (S : Set (Key ty × Rid)) (s : State) (C : PageChart ty) (N : Nat) :
    Prop where
  sound : C.Sound Key.rank
  tiled : C.Tiled
  stores : C.Stores Key.rank (stored su S s.pc)
  drawn : Drawn C s.pool
  wf : s.pool.WF
  cuts : ∀ {p n}, C.nodes p = some n → n.cut = true →
    ∃ sep : Key ty, s.cuts p = some sep.bytes ∧ n.hi = some sep.rank
  top : C.root = s.top
  level : ∃ n, C.nodes su.root = some n ∧ n.level = N
  hidden : ∀ p, C.hidden p ↔ ∃ b, rightOf (s.pc b) = some p
  apart : ∀ b p, rightOf (s.pc b) = some p → rightOf (s.pc !b) ≠ some p
  jobs : ∀ b, JobOk C N (su.key b) (s.pc b)

/-- The keys are distinct. -/
structure Distinct (su : Setup ty) (S : Set (Key ty × Rid)) : Prop where
  new : (su.key false).rank ≠ (su.key true).rank
  old : ∀ b, ∀ e ∈ S, e.1.rank ≠ (su.key b).rank

/-! ## Parts of the invariant -/

section Frame

variable {su : Setup ty} {S : Set (Key ty × Rid)} {s : State} {C C' : PageChart ty} {N : Nat}
  {b : Bool}

theorem JobOk.keeps {k : Key ty} {pc : Pc} (h : JobOk C N k pc) (hk : C.Keeps C') :
    JobOk C' N k pc := by
  cases pc with
  | visit node stack =>
    obtain ⟨n, hn, hs, hl, hx, ha⟩ := h
    obtain ⟨n', hn', hl', hlo', hx'⟩ := hk.meant hn hx
    refine ⟨n', hn', hk.shown hn hs, hl'.symm ▸ hl, hx', ?_⟩
    rw [hl', hlo']
    exact Chart.Above.keeps hk ha
  | absorb sep right stack =>
    obtain ⟨sk, m, hsep, hm, hlo, hl, ha⟩ := h
    obtain ⟨m', hm', hl', hlo', -⟩ := hk.info hm
    refine ⟨sk, m', hsep, hm', hlo'.trans hlo, hl'.symm ▸ hl, ?_⟩
    rw [hl']
    exact Chart.Above.keeps hk ha
  | failed e => exact h
  | scan root i => trivial
  | remove root i slot vals => trivial
  | emit root vals => trivial
  | done => trivial

/-- Pages a section does not own keep their place in the chart. -/
theorem Drawn.frame {pool pool' : BufferPool} {own own' : List Nat} (h : Drawn C pool)
    (hg : Grown pool pool' own own') (hsub : ∀ q ∈ own, q ∈ own')
    (hnodes : ∀ q m, C'.nodes q = some m → (q ∈ own' ∧ OnPage pool' q m) ∨
      (q ∉ own' ∧ C.nodes q = some m)) : Drawn C' pool' := by
  constructor
  · intro q m hq
    rcases hnodes q m hq with ⟨hin, -⟩ | ⟨-, hold⟩
    · exact hg.owned q hin
    · exact hg.used q (h.used hold)
  · intro q m hq
    rcases hnodes q m hq with ⟨-, hpage⟩ | ⟨hout, hold⟩
    · exact hpage
    · have hsame : pool'.pages q = pool.pages q :=
        hg.frame q (h.used hold) fun hin => hout (hsub q hin)
      obtain ⟨hleaf, hnode⟩ := h.page hold
      exact ⟨fun hl => hsame.symm ▸ hleaf hl, fun hl => hsame.symm ▸ hnode hl⟩

theorem Drawn.fresh {pool : BufferPool} {p : Nat} (h : Drawn C pool) (hp : ¬ pool.Used p) :
    C.nodes p = none := by
  cases hn : C.nodes p with
  | none => rfl
  | some n => exact absurd (h.used hn) hp

theorem stored_same {pc' : Pc} (h : arrived pc' = arrived (s.pc b)) :
    stored su S (Function.update s.pc b pc') = stored su S s.pc := by
  have hpc : ∀ c, arrived (Function.update s.pc b pc' c) = arrived (s.pc c) := by
    intro c
    by_cases hc : c = b
    · subst hc
      rw [Function.update_self, h]
    · rw [Function.update_of_ne hc]
  unfold stored
  simp only [hpc]

theorem stored_arrived {pc' : Pc} (h : arrived pc' = true) :
    stored su S (Function.update s.pc b pc') =
      insert (su.key b, su.rid b) (stored su S s.pc) ∨ arrived (s.pc b) = true := by
  by_cases hb : arrived (s.pc b) = true
  · exact Or.inr hb
  left
  ext e
  simp only [stored, Set.mem_insert_iff, Set.mem_ofPred_eq]
  constructor
  · rintro (he | ⟨c, hc, rfl⟩)
    · exact Or.inr (Or.inl he)
    · by_cases hcb : c = b
      · exact Or.inl (by rw [hcb])
      · rw [Function.update_of_ne hcb] at hc
        exact Or.inr (Or.inr ⟨c, hc, rfl⟩)
  · rintro (rfl | he | ⟨c, hc, rfl⟩)
    · exact Or.inr ⟨b, by rw [Function.update_self]; exact h, rfl⟩
    · exact Or.inl he
    · refine Or.inr ⟨c, ?_, rfl⟩
      rw [Function.update_of_ne]
      · exact hc
      · rintro rfl
        exact hb hc

/-- No entry of another call has the key of a call that is still on its way. -/
theorem Distinct.ne (h : Distinct su S) (hb : arrived (s.pc b) = false) :
    ∀ e ∈ stored su S s.pc, e.1.rank ≠ (su.key b).rank := by
  rintro e (he | ⟨c, hc, rfl⟩)
  · exact h.old b e he
  · have hcb : c ≠ b := by
      rintro rfl
      rw [hb] at hc
      cases hc
    cases c <;> cases b
    · exact absurd rfl hcb
    · exact h.new
    · exact h.new.symm
    · exact absurd rfl hcb

theorem Inv.hidden_iff (h : Inv su S s C N) (b : Bool) (p : Nat) :
    C.hidden p ↔ rightOf (s.pc b) = some p ∨ rightOf (s.pc !b) = some p := by
  rw [h.hidden]
  constructor
  · rintro ⟨c, hc⟩
    by_cases hcb : c = b
    · exact Or.inl (hcb ▸ hc)
    · exact Or.inr ((Bool.eq_not_of_ne hcb) ▸ hc)
  · rintro (hb | hb)
    · exact ⟨b, hb⟩
    · exact ⟨!b, hb⟩

/-- **A page that has not been split at or below the key is responsible for it.** -/
theorem Inv.has (h : Inv su S s C N) {p : Nat} {n : Info Nat (Key ty) Rid (List Int)} {k : Key ty}
    (hp : C.nodes p = some n) (hx : n.Meant k.rank) (hclear : below ty k.bytes (s.cuts p) = true) :
    n.Has k.rank := by
  refine ⟨hx.1, fun c hc => ?_⟩
  rcases hx.2 with hcut | hhi
  · obtain ⟨sep, hsep, hend⟩ := h.cuts hp hcut
    rw [hend, Option.mem_some_iff] at hc
    rw [hsep, below] at hclear
    split at hclear
    · next hlt => exact hc ▸ Key.compareKeys_eq_lt.1 hlt
    · cases hclear
  · exact hhi c hc

/-- The state after a section of call `b`, as `step` leaves it. -/
def State.moved (s : State) (b : Bool) (pool : BufferPool) (pages : List Page) (pc : Pc) : State where
  pool := pool
  pgIndex := pages
  pc := Function.update s.pc b pc
  cuts := cutsAfter s.cuts (splitOf (s.pc b) pc)
  top := topAfter s.top (s.pc b) pc

/-- What a section has to bring for the invariant: the other call is only told that
nodes keep their places. -/
theorem Inv.advance (h : Inv su S s C N) {pc' : Pc} {pool' : BufferPool} {pages' : List Page}
    (hk : C.Keeps C') (hsound : C'.Sound Key.rank) (htiled : C'.Tiled)
    (hstores : C'.Stores Key.rank (stored su S (Function.update s.pc b pc')))
    (hdrawn : Drawn C' pool') (hwf : pool'.WF)
    (hcuts : ∀ {p n}, C'.nodes p = some n → n.cut = true →
      ∃ sep : Key ty, cutsAfter s.cuts (splitOf (s.pc b) pc') p = some sep.bytes ∧
        n.hi = some sep.rank)
    (htop : C'.root = topAfter s.top (s.pc b) pc')
    (hhidden : ∀ p, C'.hidden p ↔ rightOf pc' = some p ∨ rightOf (s.pc !b) = some p)
    (hfresh : ∀ p, rightOf pc' = some p → rightOf (s.pc !b) ≠ some p)
    (hjob : JobOk C' N (su.key b) pc') : Inv su S (s.moved b pool' pages' pc') C' N := by
  have hself : (s.moved b pool' pages' pc').pc b = pc' := Function.update_self ..
  have hother : (s.moved b pool' pages' pc').pc (!b) = s.pc !b :=
    Function.update_of_ne (by cases b <;> decide) ..
  have hcases : ∀ {P : Bool → Prop}, P b → P (!b) → ∀ c, P c := by
    intro P h₁ h₂ c
    by_cases hc : c = b
    · exact hc ▸ h₁
    · exact (Bool.eq_not_of_ne hc) ▸ h₂
  refine ⟨hsound, htiled, hstores, hdrawn, hwf, hcuts, htop, ?_, fun p => ?_, hcases ?_ ?_,
    hcases ?_ ?_⟩
  · obtain ⟨n, hn, hl⟩ := h.level
    obtain ⟨n', hn', hl', -⟩ := hk.info hn
    exact ⟨n', hn', hl'.trans hl⟩
  · rw [hhidden]
    constructor
    · rintro (hp | hp)
      · exact ⟨b, by rw [hself]; exact hp⟩
      · exact ⟨!b, by rw [hother]; exact hp⟩
    · rintro ⟨c, hc⟩
      by_cases hcb : c = b
      · subst hcb
        exact Or.inl (hself ▸ hc)
      · rw [Bool.eq_not_of_ne hcb, hother] at hc
        exact Or.inr hc
  · intro p hp
    rw [hself] at hp
    rw [hother]
    exact hfresh p hp
  · intro p hp hp'
    rw [hother] at hp
    rw [Bool.not_not, hself] at hp'
    exact hfresh p hp' hp
  · rw [hself]
    exact hjob
  · rw [hother]
    exact (h.jobs !b).keeps hk

end Frame

/-! ## Sections on the tree -/

section Tree

variable {su : Setup ty} {S : Set (Key ty × Rid)} {s : State} {C : PageChart ty} {N : Nat}
  {b : Bool} {pool' : BufferPool}

theorem topAfter_absorb {top : Nat} {pc : Pc} {sep : Bytes} {right : Nat} :
    topAfter top pc (.absorb sep right stack) = top := by
  unfold topAfter
  split
  · next heq => cases heq
  · rfl

/-- A section that splits the page `p` after it gave it the contents `n₀`. -/
theorem Inv.advance_split (h : Inv su S s C N) {C₀ : PageChart ty} {p newId : Nat}
    {n₀ n₁ n₂ : Info Nat (Key ty) Rid (List Int)} {sep : Key ty} {x : List Int}
    (hk : C.Keeps C₀) (hsound : C₀.Sound Key.rank) (htiled : C₀.Tiled)
    (hstores : C₀.Stores Key.rank
      (stored su S (Function.update s.pc b (.absorb sep.bytes newId stack))))
    (hn₀ : C₀.nodes p = some n₀) (hr : C.nodes newId = none) (hr₀ : C₀.nodes newId = none)
    (hv : Chart.Halves Key.rank n₀ n₁ n₂ sep.rank) (hdrawn : Drawn (C₀.cutAt p newId n₁ n₂) pool')
    (hwf : pool'.WF)
    (hcuts : ∀ {q m}, C₀.nodes q = some m → m.cut = true →
      ∃ k : Key ty, s.cuts q = some k.bytes ∧ m.hi = some k.rank)
    (hsplit : splitOf (s.pc b) (.absorb sep.bytes newId stack) = some (p, sep.bytes, newId))
    (htop : C₀.root = s.top) (hhidden : ∀ q, C₀.hidden q ↔ rightOf (s.pc !b) = some q)
    (hx : n₀.Has x) (hlevel : n₀.level + stack.length = N)
    (habove : C₀.Above x (n₀.level + 1) n₀.lo stack) :
    Inv su S (s.moved b pool' s.pgIndex (.absorb sep.bytes newId stack))
      (C₀.cutAt p newId n₁ n₂) N := by
  have hkeeps := Chart.Keeps.split hv hn₀ hr₀
  have hne : p ≠ newId := by
    rintro rfl
    rw [hn₀] at hr₀
    cases hr₀
  refine h.advance (hk.trans hkeeps) (hsound.split hn₀ hr₀ hv) (htiled.split hv hn₀ hr₀)
    (hstores.split hn₀ hv) hdrawn hwf (fun {q m} hq hcut => ?_) ?_ (fun q => ?_) (fun q hq hq' => ?_) ?_
  · rw [hsplit, cutsAfter]
    rcases Chart.cutAt_cases hq with ⟨rfl, rfl⟩ | ⟨rfl, rfl⟩ | ⟨hqp, hqr, hold⟩
    · obtain ⟨k, hk, hhi⟩ := hcuts hn₀ (hv.cut₂ ▸ hcut)
      exact ⟨k, by rw [Function.update_self, hk], hv.hi₂.trans hhi⟩
    · exact ⟨sep, by rw [Function.update_of_ne hne, Function.update_self], hv.hi₁⟩
    · obtain ⟨k, hk, hhi⟩ := hcuts hold hcut
      exact ⟨k, by rw [Function.update_of_ne hqr, Function.update_of_ne hqp, hk], hhi⟩
  · rw [topAfter_absorb]
    exact htop
  · show C₀.hidden q ∨ q = newId ↔ some newId = some q ∨ _
    rw [hhidden, Option.some_inj, or_comm, eq_comm]
  · -- a page that the other call has to publish was there before
    obtain rfl : newId = q := Option.some.inj hq
    obtain ⟨m, -, hm, -⟩ := h.sound.hidden_lo ((h.hidden_iff b newId).2 (Or.inr hq'))
    rw [hr] at hm
    cases hm
  · refine ⟨sep, n₂, rfl, Chart.cutAt_right, hv.lo₂, hv.level₂.symm ▸ hlevel, ?_⟩
    rw [hv.level₂]
    have hsame := hsound.above_split htiled hn₀ hx hv.inside (Nat.le_succ _) (.refl _) habove
    refine Chart.Above.keeps hkeeps (hsame.weaken fun a ha => ⟨sep.rank, rfl, ?_⟩)
    exact (hv.above a ha).le

/-- New contents leave the cuts where they were. -/
theorem Inv.cuts_refill (h : Inv su S s C N) {node : Nat} {n n' : Info Nat (Key ty) Rid (List Int)}
    {gone : Nat → Prop} (hn : C.nodes node = some n) (hs : Chart.SameRange n n') {q : Nat}
    {m : Info Nat (Key ty) Rid (List Int)} (hq : (C.refill node n' gone).nodes q = some m)
    (hcut : m.cut = true) : ∃ k : Key ty, s.cuts q = some k.bytes ∧ m.hi = some k.rank := by
  obtain ⟨m₀, hq₀, hsame, -⟩ := Chart.refill_old hn hs hq
  rw [hsame.hi]
  exact h.cuts hq₀ (hsame.cut ▸ hcut)

/-- A leaf that is responsible for the key. -/
theorem Inv.visit_leaf (h : Inv su S s C N) (hd : Distinct su S) {node : Nat}
    {n : Info Nat (Key ty) Rid (List Int)} (hpc : s.pc b = .visit node stack)
    (hn : C.nodes node = some n) (hl : n.level = 0) (hx : n.Has (su.key b).rank)
    (hlevel : n.level + stack.length = N)
    (habove : C.Above (su.key b).rank (n.level + 1) n.lo stack) {out : InsertOutcome}
    (hok : insertLeaf node (s.pool.pages node) (su.key b).bytes (su.rid b) ty s.pool =
      .ok out pool') :
    ∃ C', Inv su S (s.moved b pool' s.pgIndex (afterOutcome stack out)) C' N := by
  obtain ⟨next, hpage⟩ := (h.drawn.page hn).leaf hl
  have hspec := insertLeaf_spec (L := ⟨node, next, n.entries⟩) h.wf (h.drawn.used hn) hpage
    (su.key b) (su.rid b) (insertLeaf_fits (L := ⟨node, next, n.entries⟩) hpage hok)
  unfold Succeeds at hspec
  rw [hok] at hspec
  obtain ⟨o, hins, hpages, hgrown, rfl⟩ := hspec
  have harr : arrived (s.pc b) = false := by rw [hpc]; rfl
  have hne : ∀ e ∈ n.entries, e.1.rank ≠ (su.key b).rank := fun e he =>
    hd.ne harr e (h.stores.mem hn hl e he)
  -- the leaf with the new entry, before it is split
  let n₀ : Info Nat (Key ty) Rid (List Int) :=
    { n with entries := grow Key.rank (su.key b) (su.rid b) n.entries }
  have hs : Chart.SameRange n n₀ := ⟨rfl, rfl, rfl, rfl⟩
  have hsorted : n₀.entries.Pairwise fun x y => x.1.rank < y.1.rank :=
    Chart.grow_strict (h.sound.leaf hn hl).1 hne
  have hin : ∀ e ∈ n₀.entries, n.Has e.1.rank := by
    intro e he
    rcases mem_insertBefore.1 he with rfl | he
    · exact hx
    · exact (h.sound.leaf hn hl).2 e he
  let C₀ : PageChart ty := C.refill node n₀ fun _ => False
  have hsound : C₀.Sound Key.rank := h.sound.put hn hs hl hsorted hin
  have htiled : C₀.Tiled := h.tiled.refill hn hs
  have hkeeps : C.Keeps C₀ := Chart.Keeps.refill hn hs
  have hn₀ : C₀.nodes node = some n₀ := Chart.refill_self
  have hold : ∀ {q m}, C₀.nodes q = some m → q = node ∧ m = n₀ ∨ q ≠ node ∧ C.nodes q = some m :=
    Chart.refill_cases hn hs
  have hstores : ∀ pc', arrived pc' = true →
      C₀.Stores Key.rank (stored su S (Function.update s.pc b pc')) := by
    intro pc' hpc'
    rw [(stored_arrived hpc').resolve_right (by rw [harr]; decide)]
    exact h.stores.put h.sound hn hs hl hx fun e => mem_insertBefore
  have hcuts : ∀ {q m}, C₀.nodes q = some m → m.cut = true →
      ∃ k : Key ty, s.cuts q = some k.bytes ∧ m.hi = some k.rank := h.cuts_refill hn hs
  have hhidden : ∀ q, C₀.hidden q ↔ rightOf (s.pc !b) = some q := by
    intro q
    show C.hidden q ∧ ¬ False ↔ _
    rw [h.hidden_iff b, hpc]
    simp [rightOf]
  cases hins with
  | present hpres =>
    obtain ⟨e, he, hrank, -⟩ := hpres
    exact absurd hrank (hne e he)
  | fit _ _ =>
    have hpage' : IsLeafPage (pool'.pages node) (⟨node, next, n₀.entries⟩ : LeafNode ty) :=
      hpages _ (List.mem_singleton_self _)
    refine ⟨C₀, h.advance hkeeps hsound htiled (hstores _ rfl)
      (h.drawn.frame hgrown (fun q hq => hq) fun q m hq => ?_) hgrown.wf ?_ ?_ (fun q => ?_)
      (fun q hq => ?_) trivial⟩
    · rcases hold hq with ⟨rfl, rfl⟩ | ⟨hqn, hq⟩
      · exact Or.inl ⟨List.mem_singleton_self _, fun _ => ⟨next, hpage'⟩, fun h0 => absurd hl h0⟩
      · exact Or.inr ⟨fun hin => hqn (List.mem_singleton.1 hin), hq⟩
    · rw [hpc]
      exact hcuts
    · rw [hpc]
      exact h.top
    · show C₀.hidden q ↔ none = some q ∨ _
      rw [hhidden]
      simp
    · cases hq
  | split newId as bs e _ hover hgrow hlen _ hfits =>
    have hgrown : Grown s.pool pool' [node] [node, newId] := hgrown
    have hleft : IsLeafPage (pool'.pages node) (⟨node, newId, as⟩ : LeafNode ty) :=
      hpages _ List.mem_cons_self
    have hright : IsLeafPage (pool'.pages newId) (⟨newId, next, e :: bs⟩ : LeafNode ty) :=
      hpages _ (List.mem_cons_of_mem _ (List.mem_singleton_self _))
    have hnew := hgrown.not_used
    have hr := h.drawn.fresh hnew
    have hr₀ : C₀.nodes newId = none := by
      rw [Chart.refill_other]
      · exact hr
      · rintro rfl
        rw [hn] at hr
        cases hr
    have hentries : n₀.entries = as ++ e :: bs := hgrow
    rw [hentries] at hsorted
    obtain ⟨-, hsorted₂, hcross⟩ := List.pairwise_append.1 hsorted
    have hv : Chart.Halves Key.rank n₀ { n with hi := some e.1.rank, cut := true, entries := as }
        { n with lo := some e.1.rank, entries := e :: bs } e.1.rank := by
      refine ⟨hin e (by simp [hentries]), fun lo hlo => ?_, rfl, rfl, rfl, rfl, rfl, rfl, rfl, rfl,
        fun _ => ⟨hentries, fun y hy => hcross y hy e List.mem_cons_self, fun y hy => ?_⟩,
        fun h0 => absurd hl h0⟩
      · -- the left half is not empty: one entry alone would have fitted
        cases as with
        | nil =>
          rw [hgrow] at hover
          exact absurd hfits hover
        | cons y as =>
          have hylo := (hin y (by simp [hentries])).1 lo hlo
          exact lt_of_le_of_lt hylo (hcross y List.mem_cons_self e List.mem_cons_self)
      · rcases List.mem_cons.1 hy with rfl | hy
        · exact le_refl _
        · exact ((List.pairwise_cons.1 hsorted₂).1 y hy).le
    refine ⟨_, h.advance_split hkeeps hsound htiled (hstores _ rfl) hn₀ hr hr₀ hv
      (h.drawn.frame hgrown (fun q hq => ?_) fun q m hq => ?_) hgrown.wf hcuts ?_ h.top hhidden hx hlevel
      (Chart.Above.keeps hkeeps habove)⟩
    · rw [List.mem_singleton.1 hq]
      exact List.mem_cons_self
    · rcases Chart.cutAt_cases hq with ⟨rfl, rfl⟩ | ⟨rfl, rfl⟩ | ⟨hqp, hqr, hq⟩
      · exact Or.inl ⟨by simp, fun _ => ⟨next, hright⟩, fun h0 => absurd hl h0⟩
      · exact Or.inl ⟨by simp, fun _ => ⟨newId, hleft⟩, fun h0 => absurd hl h0⟩
      · rcases hold hq with ⟨heq, -⟩ | ⟨-, hq⟩
        · exact absurd heq hqp
        · exact Or.inr ⟨by simp [hqp, hqr], hq⟩
    · rw [hpc]
      rfl

/-- An inner node that is responsible for the key: the search goes on at a child. -/
theorem Inv.visit_node (h : Inv su S s C N) {node : Nat}
    {n : Info Nat (Key ty) Rid (List Int)} {l : Nat} (hpc : s.pc b = .visit node stack)
    (hn : C.nodes node = some n) (hl : n.level = l + 1) (hs : ¬ C.hidden node)
    (hx : n.Has (su.key b).rank) (hlevel : n.level + stack.length = N)
    (habove : C.Above (su.key b).rank (n.level + 1) n.lo stack) :
    Inv su S (s.moved b s.pool s.pgIndex
      (.visit (n.kids.route (upTo Key.rank (su.key b))) (node :: stack))) C N := by
  obtain ⟨m, hm, hml, hlo, hshown, hwithin⟩ := (h.sound.node hn hl).route_info hx
  have hmeant : m.Meant (su.key b).rank := by
    rcases h.sound.cut_of_route hn hl hx hm with hhas | ⟨hcut, -⟩
    · exact hhas.meant
    · exact ⟨hlo, Or.inl hcut⟩
  refine h.advance (.refl C) h.sound h.tiled ?_ h.drawn h.wf ?_ ?_ (fun p => ?_) (fun p hp => ?_)
    ⟨m, hm, hshown, ?_, hmeant, n, hn, by omega, hs, hwithin, hx.meant, ?_⟩
  · rw [stored_same (by rw [hpc]; rfl)]
    exact h.stores
  · rw [hpc]
    exact h.cuts
  · rw [hpc]
    exact h.top
  · rw [h.hidden_iff b, hpc]
    rfl
  · cases hp
  · rw [List.length_cons]
    omega
  · rw [hml, ← hl]
    exact habove

/-- **A separator comes to the parent.** -/
theorem Inv.absorb_node (h : Inv su S s C N) {node right : Nat} {sep : Bytes}
    (hpc : s.pc b = .absorb sep right (node :: stack))
    (hclear : below ty sep (s.cuts node) = true) {out : InsertOutcome}
    (hok : absorbSplit node sep right ty s.pool = .ok out pool') :
    ∃ C', Inv su S (s.moved b pool' s.pgIndex (afterOutcome stack out)) C' N := by
  have hjob := h.jobs b
  rw [hpc] at hjob
  obtain ⟨sk, m, rfl, hm, hlo, hlevel, n, hn, hl, hs, -, hmeant, habove⟩ := hjob
  have hx : n.Has sk.rank := h.has hn hmeant hclear
  have hl0 : n.level ≠ 0 := by omega
  have hkids := (h.drawn.page hn).node hl0
  have hu := h.drawn.used hn
  have hspec : Succeeds (absorbSplit node sk.bytes right ty) s.pool _ :=
    absorbSplit_spec h.wf hu hkids (absorbSplit_fits hu hkids hok)
  unfold Succeeds at hspec
  rw [hok] at hspec
  have hr : C.hidden right := (h.hidden right).2 ⟨b, by rw [hpc]; rfl⟩
  -- the node with the separator, before it is split
  let n₀ : Info Nat (Key ty) Rid (List Int) :=
    { n with kids := n.kids.insertSep (beyond Key.rank sk) sk right }
  have hsame : Chart.SameRange n n₀ := ⟨rfl, rfl, rfl, rfl⟩
  let C₀ : PageChart ty := C.refill node n₀ (· = right)
  have hsound : C₀.Sound Key.rank := h.sound.publish hn hsame hl hr hm rfl hlo hx rfl
  have htiled : C₀.Tiled := h.tiled.refill hn hsame
  have hkeeps : C.Keeps C₀ := Chart.Keeps.refill hn hsame
  have hn₀ : C₀.nodes node = some n₀ := Chart.refill_self
  have hold : ∀ {q m}, C₀.nodes q = some m → q = node ∧ m = n₀ ∨ q ≠ node ∧ C.nodes q = some m :=
    Chart.refill_cases hn hsame
  have hstores : ∀ pc', arrived pc' = true →
      C₀.Stores Key.rank (stored su S (Function.update s.pc b pc')) := by
    intro pc' hpc'
    rw [stored_same (by rw [hpc', hpc]; rfl)]
    exact h.stores.refill hn hsame hl0
  have hcuts : ∀ {q m}, C₀.nodes q = some m → m.cut = true →
      ∃ k : Key ty, s.cuts q = some k.bytes ∧ m.hi = some k.rank := h.cuts_refill hn hsame
  have hhidden : ∀ q, C₀.hidden q ↔ rightOf (s.pc !b) = some q := by
    intro q
    have hright : rightOf (s.pc b) = some right := by rw [hpc]; rfl
    show C.hidden q ∧ ¬ q = right ↔ _
    rw [h.hidden_iff b, hright]
    constructor
    · rintro ⟨hq | hq, hne⟩
      · exact absurd (Option.some.inj hq).symm hne
      · exact hq
    · intro hq
      refine ⟨Or.inr hq, ?_⟩
      rintro rfl
      exact h.apart b q hright hq
  rcases hspec with ⟨-, rfl, hpage, hgrown⟩ | ⟨-, newId, ka, mk, kb, hab, -, -, -, rfl, hleft,
    hright, hgrown⟩
  · refine ⟨C₀, h.advance hkeeps hsound htiled (hstores _ rfl)
      (h.drawn.frame hgrown (fun q hq => hq) fun q m hq => ?_) hgrown.wf ?_ ?_ (fun q => ?_)
      (fun q hq => ?_) trivial⟩
    · rcases hold hq with ⟨rfl, rfl⟩ | ⟨hqn, hq⟩
      · exact Or.inl ⟨List.mem_singleton_self _, fun h0 => absurd h0 hl0, fun _ => hpage⟩
      · exact Or.inr ⟨fun hin => hqn (List.mem_singleton.1 hin), hq⟩
    · rw [hpc]
      exact hcuts
    · rw [hpc]
      exact h.top
    · show C₀.hidden q ↔ none = some q ∨ _
      rw [hhidden]
      simp
    · cases hq
  · have hr := h.drawn.fresh hgrown.not_used
    have hr₀ : C₀.nodes newId = none := by
      rw [Chart.refill_other]
      · exact hr
      · rintro rfl
        rw [hn] at hr
        cases hr
    have hk : n₀.kids = ka.append mk kb := hab
    have hmk : mk ∈ n₀.kids.seps := by simp [hk]
    obtain ⟨hin, hgt⟩ := (hsound.node (l := m.level) hn₀ hl).within mk hmk
    have hv : Chart.Halves Key.rank n₀ { n with hi := some mk.rank, cut := true, kids := ka }
        { n with lo := some mk.rank, kids := kb } mk.rank :=
      ⟨hin, hgt, rfl, rfl, rfl, rfl, rfl, rfl, rfl, rfl, fun h0 => absurd h0 hl0,
        fun _ => ⟨mk, rfl, hk⟩⟩
    refine ⟨_, h.advance_split hkeeps hsound htiled (hstores _ rfl) hn₀ hr hr₀ hv
      (h.drawn.frame hgrown (fun q hq => ?_) fun q m hq => ?_) hgrown.wf hcuts ?_ h.top hhidden hx ?_
      (Chart.Above.keeps hkeeps (hl.symm ▸ habove))⟩
    · rw [List.mem_singleton.1 hq]
      exact List.mem_cons_self
    · rcases Chart.cutAt_cases hq with ⟨rfl, rfl⟩ | ⟨rfl, rfl⟩ | ⟨hqp, hqr, hq⟩
      · exact Or.inl ⟨by simp, fun h0 => absurd h0 hl0, fun _ => hright⟩
      · exact Or.inl ⟨by simp, fun h0 => absurd h0 hl0, fun _ => hleft⟩
      · rcases hold hq with ⟨heq, -⟩ | ⟨-, hq⟩
        · exact absurd heq hqp
        · exact Or.inr ⟨by simp [hqp, hqr], hq⟩
    · rw [hpc]
      rfl
    · show n.level + stack.length = N
      rw [List.length_cons] at hlevel
      omega

/-- The page of a new root. -/
theorem growRoot_spec {s s' : BufferPool} {root right : Nat} {sep : Key ty} {pc : Pc}
    (hwf : s.WF) (hu : s.Used root) (hok : growRoot root sep.bytes right s = .ok pc s') :
    ∃ newRoot, pc = .scan newRoot 0 ∧ newRoot ≠ root ∧ ¬ s.Used newRoot ∧
      Grown s s' [] [newRoot] ∧
      IsNodePage (s'.pages newRoot) newRoot (.cons root sep (.single right)) := by
  obtain ⟨newRoot, s₁, hnew, hok⟩ := EStateM.of_bind_ok hok
  obtain ⟨hwf₁, hfresh, hpage, hframe, hused, -⟩ := newPage_ok hwf hnew
  have hroom := newPage_room hnew
  rw [bind_ok (writePage_apply _ _ _)] at hok
  obtain ⟨_, s₂, hins, hok⟩ := EStateM.of_bind_ok hok
  have hpacked : Page.Packed ((s₁.set newRoot (initInternal (.new newRoot) root)).pages newRoot) [] := by
    rw [BufferPool.set_pages_self]
    exact ⟨rfl, rfl, by decide⟩
  have hne : newRoot ≠ root := fun heq => hfresh (heq ▸ hu)
  rw [insertInto] at hins
  cases hpush : ((s₁.set newRoot (initInternal (.new newRoot) root)).pages newRoot).insert
      (.internal sep.bytes right) with
  | error e => rw [hpush] at hins; cases hins
  | ok r =>
    obtain ⟨slot, page⟩ := r
    obtain ⟨hfree, -, rfl⟩ := Page.insert_inv hpush
    rw [hpush] at hins
    cases hins
    rw [if_pos hne] at hok
    cases hok
    refine ⟨newRoot, rfl, hne, hfresh, ?_, ?_⟩
    · refine ⟨(hwf₁.set _ _).set _ _, fun q hq => (hused q).2 (Or.inl hq), fun q hq => ?_,
        fun q hq _ => ?_, fun q hq => ?_, List.nodup_singleton _, ?_⟩
      · exact (hused q).2 (Or.inr (List.mem_singleton.1 hq))
      · have hqn : q ≠ newRoot := fun heq => hfresh (heq ▸ hq)
        rw [BufferPool.set_pages_ne _ _ hqn, BufferPool.set_pages_ne _ _ hqn, hframe q hqn]
      · rw [List.mem_singleton.1 hq]
        exact Or.inr hfresh
      · exact hroom
    · rw [BufferPool.set_pages_self, BufferPool.set_pages_self] at *
      exact ⟨rfl, rfl, rfl, Page.packed_push hpacked ((Page.packed_insert hpacked).1 hfree)⟩

/-- **A new root**, above the root of the tree. -/
theorem Inv.grow_root (h : Inv su S s C N) {right : Nat} {sep : Bytes} {pc' : Pc}
    (hpc : s.pc b = .absorb sep right []) (htop : s.top = su.root)
    (hok : growRoot su.root sep right s.pool = .ok pc' pool') :
    ∃ C', Inv su S (s.moved b pool' s.pgIndex pc') C' N ∧
      ∃ root, pc' = .scan root 0 ∧ root ≠ su.root := by
  have hjob := h.jobs b
  rw [hpc] at hjob
  obtain ⟨sk, m, rfl, hm, hlo, hlevel, -⟩ := hjob
  obtain ⟨n, hn, hl⟩ := h.level
  obtain ⟨newRoot, rfl, hne, hnew, hgrown, hpage⟩ := growRoot_spec h.wf (h.drawn.used hn) hok
  have hq := h.drawn.fresh hnew
  have hroot : C.root = su.root := h.top.trans htop
  have hr : C.hidden right := (h.hidden right).2 ⟨b, by rw [hpc]; rfl⟩
  let n' : Info Nat (Key ty) Rid (List Int) :=
    ⟨n.level + 1, none, none, false, [], .cons su.root sk (.single right)⟩
  have hml : m.level = n.level := by
    rw [List.length_nil] at hlevel
    omega
  have hsound : (C.grow newRoot n' right).Sound Key.rank :=
    h.sound.newRoot hq (hroot ▸ hn) hr hm hml hlo rfl rfl rfl (by rw [hroot])
  have hold : ∀ {q m}, (C.grow newRoot n' right).nodes q = some m →
      q = newRoot ∧ m = n' ∨ q ≠ newRoot ∧ C.nodes q = some m := by
    intro q m hq
    by_cases hqn : q = newRoot
    · subst hqn
      exact Or.inl ⟨rfl, by simpa [Chart.grow] using hq.symm⟩
    · exact Or.inr ⟨hqn, by simpa [Chart.grow, hqn] using hq⟩
  refine ⟨_, h.advance (Chart.Keeps.grow hq) hsound (h.tiled.grow hq rfl) ?_
    (h.drawn.frame hgrown (fun q hq => absurd hq List.not_mem_nil) fun q m hq => ?_) hgrown.wf
    (fun {q m} hq hcut => ?_) ?_ (fun q => ?_) (fun q hq => ?_) trivial, newRoot, rfl, hne⟩
  · rw [stored_same (by rw [hpc]; rfl)]
    exact h.stores.newRoot (Nat.succ_ne_zero _)
  · rcases hold hq with ⟨rfl, rfl⟩ | ⟨hqn, hq⟩
    · exact Or.inl ⟨List.mem_singleton_self _, fun h0 => absurd h0 (Nat.succ_ne_zero _), fun _ => hpage⟩
    · exact Or.inr ⟨fun hin => hqn (List.mem_singleton.1 hin), hq⟩
  · rw [hpc]
    rcases hold hq with ⟨-, rfl⟩ | ⟨-, hq⟩
    · cases hcut
    · exact h.cuts hq hcut
  · rw [hpc]
    rfl
  · have hright : rightOf (s.pc b) = some right := by rw [hpc]; rfl
    show C.hidden q ∧ q ≠ right ↔ none = some q ∨ _
    rw [h.hidden_iff b, hright]
    constructor
    · rintro ⟨hq | hq, hne⟩
      · exact absurd (Option.some.inj hq).symm hne
      · exact Or.inr hq
    · rintro (hq | hq)
      · cases hq
      · refine ⟨Or.inr hq, ?_⟩
        rintro rfl
        exact h.apart b q hright hq
  · cases hq

end Tree

/-! ## The row in `pg_index` -/

/-- Not a row of the index. -/
def Quiet (id : Nat) (sl : Slot) : Prop :=
  ∀ raw ∈ sl.tuple, ∃ t, raw = .heap t ∧ isIndexRow id t = false

def NoRow (id : Nat) (pages : List Page) : Prop := ∀ p ∈ pages, ∀ sl ∈ p.slots, Quiet id sl

/-- The columns of the index, with this root. -/
def Names (id root : Nat) (vals : List Value) : Prop :=
  ∃ d, decodeIndexRow vals = some d ∧ d.indexId = id ∧ d.rootPageId = root

/-- The one row of the index, between the slots and pages around it. -/
structure RowAt (id root : Nat) (vals : List Value) (pages pre : List Page) (before : List Slot) :
    Prop where
  row : ∃ page post sl after t, pages = pre ++ page :: post ∧ page.slots = before ++ sl :: after ∧
    sl.tuple = some (.heap t) ∧ t.xmax = 0 ∧ t.values = vals ∧ NoRow id post ∧
    ∀ sl ∈ after, Quiet id sl
  names : Names id root vals
  pre : NoRow id pre
  before : ∀ sl ∈ before, Quiet id sl

/-- The index has one row in `pg_index`, a live one that names this root. -/
def OneRow (id root : Nat) (pages : List Page) : Prop :=
  ∃ vals pre before, RowAt id root vals pages pre before

section Rows

variable {id root : Nat} {vals : List Value}

theorem Names.isIndexRow (h : Names id root vals) {t : HeapTuple} (ht : t.values = vals) :
    isIndexRow id t = true := by
  obtain ⟨d, hd, rfl, -⟩ := h
  unfold decodeIndexRow at hd
  split at hd
  · cases hd
    simp [Ccdb.isIndexRow, ht]
  · cases hd

theorem asPageId_asI32 (h : root < 2 ^ 32) : asPageId (PgCatalog.asI32 root) = root := by
  simp only [asPageId, PgCatalog.asI32, UInt32.toUInt32_toInt32, UInt32.toNat_ofNat']
  exact Nat.mod_eq_of_lt h

/-- The new row is one of the same index, with the new root. -/
theorem Names.rootRow {new : Nat} (h : Names id root vals) (hnew : new < 2 ^ 32) :
    Names id new (rootRow new vals).values := by
  obtain ⟨d, hd, rfl, -⟩ := h
  unfold decodeIndexRow at hd
  split at hd
  · cases hd
    exact ⟨_, rfl, rfl, asPageId_asI32 hnew⟩
  · cases hd

theorem quiet_pgRoot {sl : Slot} (h : Quiet id sl) {t : HeapTuple} (ht : sl.tuple = some (.heap t))
    {d : IndexDef} (hd : decodeIndexRow t.values = some d) : d.indexId ≠ id := by
  rintro rfl
  obtain ⟨t', heq, hno⟩ := h _ ht
  cases heq
  rw [Names.isIndexRow ⟨d, hd, rfl, rfl⟩ rfl] at hno
  cases hno

/-- The rows that `all_indexes` reads in some slots. -/
def slotDefs (slots : List Slot) : List IndexDef :=
  ((slots.filterMap fun s =>
    match s.tuple with
    | some (.heap t) => some t
    | _ => none).filterMap PgCatalog.notDeleted).filterMap decodeIndexRow

theorem slotDefs_append (a b : List Slot) : slotDefs (a ++ b) = slotDefs a ++ slotDefs b := by
  simp [slotDefs]

theorem slotDefs_quiet {slots : List Slot} (h : ∀ sl ∈ slots, Quiet id sl) :
    ∀ d ∈ slotDefs slots, d.indexId ≠ id := by
  intro d hd
  obtain ⟨vals, hvals, hdec⟩ := List.mem_filterMap.1 hd
  obtain ⟨t, ht, hlive⟩ := List.mem_filterMap.1 hvals
  obtain ⟨sl, hsl, hheap⟩ := List.mem_filterMap.1 ht
  rw [PgCatalog.notDeleted] at hlive
  split at hlive
  · cases hlive
    split at hheap
    · next heq =>
      cases hheap
      exact quiet_pgRoot (h sl hsl) heq hdec
    · cases hheap
  · cases hlive

theorem pgRoot_eq (id : Nat) (pages : List Page) : pgRoot id pages =
    ((slotDefs (pages.flatMap Page.slots)).find? fun d => d.indexId = id).map IndexDef.rootPageId := by
  have hrows : pages.flatMap PgCatalog.pageTuples = (pages.flatMap Page.slots).filterMap fun s =>
      match s.tuple with
      | some (.heap t) => some t
      | _ => none := by
    rw [List.filterMap_flatMap]
    rfl
  rw [pgRoot, PgCatalog.scanChain, hrows]
  rfl

/-- **The one row decides** what a later statement reads. -/
theorem OneRow.pgRoot {pages : List Page} (h : OneRow id root pages) :
    pgRoot id pages = some root := by
  obtain ⟨vals, pre, before, ⟨page, post, sl, after, t, rfl, hslots, ht, hx, hvals, -, -⟩, hnames,
    hpre, hbefore⟩ := h
  obtain ⟨d, hd, hid, hroot⟩ := hnames
  have hone : slotDefs [sl] = [d] := by
    simp [slotDefs, ht, PgCatalog.notDeleted, hx, hvals, hd]
  rw [pgRoot_eq]
  simp only [List.flatMap_append, List.flatMap_cons, hslots, List.append_assoc, List.cons_append]
  rw [← List.append_assoc, ← List.singleton_append, slotDefs_append, slotDefs_append (a := [sl]), hone,
    List.find?_append, List.find?_eq_none.2, List.singleton_append, List.find?_cons_of_pos]
  · simp [hroot]
  · simpa using hid
  · intro e he
    have hquiet : ∀ sl ∈ pre.flatMap Page.slots ++ before, Quiet id sl := by
      intro sl hsl
      rcases List.mem_append.1 hsl with hsl | hsl
      · obtain ⟨p, hp, hsl⟩ := List.mem_flatMap.1 hsl
        exact hpre p hp sl hsl
      · exact hbefore sl hsl
    simpa using slotDefs_quiet hquiet e he

/-! ## Sections on `pg_index` -/

theorem findRow_quiet : ∀ {slots : List Slot} (i : Nat), (∀ sl ∈ slots, Quiet id sl) →
    findRow id i slots = .ok none
  | [], _, _ => rfl
  | sl :: rest, i, h => by
    have ih := findRow_quiet (i + 1) fun sl hsl => h sl (List.mem_cons_of_mem _ hsl)
    rw [findRow]
    cases ht : sl.tuple with
    | none => exact ih
    | some raw =>
      obtain ⟨t, rfl, hno⟩ := h sl List.mem_cons_self raw ht
      simp only [decodeRow, except_ok_bind, hno, Bool.false_eq_true, if_false]
      exact ih

theorem findRow_found (after : List Slot) {sl : Slot} {t : HeapTuple}
    (ht : sl.tuple = some (.heap t)) (hrow : isIndexRow id t = true) :
    ∀ {before : List Slot} (i : Nat), (∀ sl ∈ before, Quiet id sl) →
    findRow id i (before ++ sl :: after) = .ok (some (i + before.length, t.values))
  | [], i, _ => by
    simp [findRow, ht, decodeRow, hrow]
  | s :: rest, i, h => by
    have ih := findRow_found after ht hrow (i + 1) fun sl hsl => h sl (List.mem_cons_of_mem s hsl)
    rw [List.cons_append, findRow]
    have hlen : i + 1 + rest.length = i + (s :: rest).length := by
      rw [List.length_cons]
      omega
    rw [hlen] at ih
    cases hs : s.tuple with
    | none => exact ih
    | some raw =>
      obtain ⟨t', rfl, hno⟩ := h s List.mem_cons_self raw hs
      simp only [decodeRow, except_ok_bind, hno, Bool.false_eq_true, if_false]
      exact ih

/-- Pass 1 stops at the row, and nowhere before it. -/
theorem RowAt.scanPage {pages pre : List Page} {before : List Slot} {new i : Nat}
    (h : RowAt id root vals pages pre before) (hi : i ≤ pre.length) :
    scanPage id new i pages = .ok (if i < pre.length then .scan new (i + 1)
      else .remove new pre.length before.length vals) := by
  obtain ⟨⟨page, post, sl, after, t, rfl, hslots, ht, hx, hvals, -, -⟩, hnames, hpre, hbefore⟩ := h
  unfold IndexRace.scanPage
  by_cases hlt : i < pre.length
  · have hpage := hpre pre[i] (List.getElem_mem hlt)
    rw [if_pos hlt, List.getElem?_append_left hlt, List.getElem?_eq_getElem hlt]
    simp [findRow_quiet 0 hpage]
  · obtain rfl : i = pre.length := le_antisymm hi (not_lt.1 hlt)
    have hfound := findRow_found after ht (hnames.isIndexRow hvals) 0 hbefore
    rw [if_neg hlt, List.getElem?_append_right (le_refl _)]
    simp [hslots, hfound, hvals]

theorem modify_append_cons {α : Type} (f : α → α) (a b : List α) (x : α) :
    (a ++ x :: b).modify a.length f = a ++ f x :: b := by
  induction a with
  | nil => simp
  | cons y a ih => simp [ih]

/-- The first write takes the row away. -/
theorem RowAt.removeRow {pages pre pages' : List Page} {before : List Slot}
    (h : RowAt id root vals pages pre before)
    (hok : removeRow pre.length before.length pages = .ok pages') : NoRow id pages' := by
  obtain ⟨⟨page, post, sl, after, t, rfl, hslots, ht, hx, hvals, hpost, hafter⟩, -, hpre, hbefore⟩ := h
  have hsl : page.slots[before.length]? = some sl := by
    rw [hslots, List.getElem?_append_right (le_refl _)]
    simp
  unfold IndexRace.removeRow at hok
  rw [List.getElem?_append_right (le_refl _)] at hok
  simp only [Nat.sub_self, List.getElem?_cons_zero, Page.delete, hsl, ht, except_ok_bind,
    Except.ok.injEq] at hok
  subst hok
  rw [List.set_append_right _ _ (le_refl _), Nat.sub_self, List.set_cons_zero]
  intro p hp
  rcases List.mem_append.1 hp with hp | hp
  · exact hpre p hp
  rcases List.mem_cons.1 hp with rfl | hp
  · intro s hs
    rw [Page.setSlot, hslots, modify_append_cons, List.mem_append, List.mem_cons] at hs
    rcases hs with hs | rfl | hs
    · exact hbefore s hs
    · intro raw hraw
      cases hraw
    · exact hafter s hs
  · exact hpost p hp

/-- The second write brings one row that names the new root. -/
theorem emitRow_oneRow {pages pages' : List Page} {new : Nat} (h : NoRow id pages)
    (hnames : Names id root vals) (hnew : new < 2 ^ 32)
    (hok : emitRow new vals pages = .ok pages') : OneRow id new pages' := by
  cases pages with
  | nil => cases hok
  | cons head rest =>
    rw [emitRow] at hok
    cases hins : head.insert (.heap (rootRow new vals)) with
    | error e => rw [hins] at hok; cases hok
    | ok r =>
      obtain ⟨slot, page⟩ := r
      obtain ⟨-, -, rfl⟩ := Page.insert_inv hins
      rw [hins] at hok
      cases hok
      refine ⟨_, [], head.slots, ⟨_, rest, _, [], _, rfl, rfl, rfl, rfl, rfl, fun p hp => ?_,
        by simp⟩, hnames.rootRow hnew, by simp [NoRow], h head List.mem_cons_self⟩
      exact h p (List.mem_cons_of_mem _ hp)

end Rows

/-! ## Runs -/

/-- A call in `update_index_root`. -/
def recording : Pc → Bool
  | .scan _ _ => true
  | .remove _ _ _ _ => true
  | .emit _ _ => true
  | _ => false

/-- How far the call that made the new root `top` has recorded it. -/
def Recorded (id start top : Nat) (pages : List Page) : Pc → Prop
  | .scan root i => root = top ∧ ∃ vals pre before, RowAt id start vals pages pre before ∧
      i ≤ pre.length
  | .remove root i slot vals => root = top ∧ ∃ pre before, RowAt id start vals pages pre before ∧
      i = pre.length ∧ slot = before.length
  | .emit root vals => root = top ∧ NoRow id pages ∧ Names id start vals
  | .done => OneRow id top pages
  | _ => False

/-- Nothing is recorded until there is a new root, and then one call does it. -/
def Rows (su : Setup ty) (s : State) : Prop :=
  (s.top = su.root ∧ OneRow su.indexId su.root s.pgIndex ∧ ∀ b, recording (s.pc b) = false) ∨
    (s.top ≠ su.root ∧ ∃ b, recording (s.pc !b) = false ∧
      Recorded su.indexId su.root s.top s.pgIndex (s.pc b))

section Runs

variable {su : Setup ty} {S : Set (Key ty × Rid)} {s s' : State} {C : PageChart ty} {N : Nat}
  {b : Bool}

theorem Recorded.active {id start top : Nat} {pages : List Page} {pc : Pc}
    (h : Recorded id start top pages pc) : recording pc = true ∨ pc = .done := by
  cases pc with
  | scan root i => exact Or.inl rfl
  | remove root i slot vals => exact Or.inl rfl
  | emit root vals => exact Or.inl rfl
  | done => exact Or.inr rfl
  | visit node stack => exact h.elim
  | absorb sep right stack => exact h.elim
  | failed e => exact h.elim

/-- A section on the tree leaves `pg_index` alone, and its call was not recording. -/
theorem Rows.tree (h : Rows su s) {pool' : BufferPool} {pc' : Pc}
    (hpc : recording (s.pc b) = false) (hdone : s.pc b ≠ .done) (hpc' : recording pc' = false)
    (htop : topAfter s.top (s.pc b) pc' = s.top) : Rows su (s.moved b pool' s.pgIndex pc') := by
  have hself : (s.moved b pool' s.pgIndex pc').pc b = pc' := Function.update_self ..
  have hother : (s.moved b pool' s.pgIndex pc').pc (!b) = s.pc !b :=
    Function.update_of_ne (by cases b <;> decide) ..
  have htop' : (s.moved b pool' s.pgIndex pc').top = s.top := htop
  rcases h with ⟨heq, hrow, hall⟩ | ⟨hne, c, hquiet, hrec⟩
  · refine Or.inl ⟨htop'.trans heq, hrow, fun c => ?_⟩
    by_cases hc : c = b
    · subst hc
      rw [hself]
      exact hpc'
    · rw [Bool.eq_not_of_ne hc, hother]
      exact hall _
  · have hc : c ≠ b := by
      rintro rfl
      rcases hrec.active with hrec | hrec
      · rw [hpc] at hrec
        cases hrec
      · exact hdone hrec
    rw [Bool.eq_not_of_ne hc, Bool.not_not] at hquiet
    rw [Bool.eq_not_of_ne hc] at hrec
    refine Or.inr ⟨by rw [htop']; exact hne, !b, ?_, ?_⟩
    · rw [Bool.not_not, hself]
      exact hpc'
    · rw [hother, htop']
      exact hrec

/-- A call has returned an error. -/
def Failed (s : State) : Prop := ∃ b e, s.pc b = .failed e

def Good (su : Setup ty) (S : Set (Key ty × Rid)) (s : State) : Prop :=
  ∃ C N, Inv su S s C N ∧ Rows su s

/-- What a step does, when it is a section on the tree. -/
theorem step_onTree {x : PoolM Pc} (hl : latched su s b = some (s.onTree b x))
    (hs : step su s b = some s') :
    Failed s' ∨ ∃ pc pool, x s.pool = .ok pc pool ∧ s' = s.moved b pool s.pgIndex pc := by
  rw [step, hl, Option.map_some, Option.some.injEq] at hs
  subst hs
  cases hx : x s.pool with
  | ok pc pool =>
    refine Or.inr ⟨pc, pool, rfl, ?_⟩
    simp [State.onTree, hx, State.moved]
  | error e pool =>
    refine Or.inl ⟨b, e, ?_⟩
    simp [State.onTree, hx]

theorem step_onRows {x : Except DbError (Pc × List Page)} (hl : latched su s b = some (s.onRows b x))
    (hs : step su s b = some s') :
    Failed s' ∨ ∃ pc pages, x = .ok (pc, pages) ∧ s' = s.moved b s.pool pages pc := by
  rw [step, hl, Option.map_some, Option.some.injEq] at hs
  subst hs
  cases x with
  | ok r =>
    obtain ⟨pc, pages⟩ := r
    refine Or.inr ⟨pc, pages, rfl, ?_⟩
    simp [State.onRows, State.moved]
  | error e =>
    refine Or.inl ⟨b, e, ?_⟩
    simp [State.onRows]

theorem recording_afterOutcome (stack : List Nat) (out : InsertOutcome) :
    recording (afterOutcome stack out) = false := by
  cases out <;> rfl

theorem Good.visit (h : Good su S s) (hd : Distinct su S) {node : Nat}
    (hpc : s.pc b = .visit node stack) (hclear : clear su s b = true)
    (hs : step su s b = some s') : Failed s' ∨ Good su S s' := by
  obtain ⟨C, N, h, hrows⟩ := h
  have hlatched : latched su s b =
      some (s.onTree b (IndexRace.visit (su.key b).bytes (su.rid b) ty node stack)) := by
    rw [latched, hpc]
  refine (step_onTree hlatched hs).imp_right ?_
  rintro ⟨pc, pool, hok, rfl⟩
  have hjob := h.jobs b
  rw [hpc] at hjob
  obtain ⟨n, hn, hshown, hlevel, hmeant, habove⟩ := hjob
  rw [clear, hpc] at hclear
  have hx : n.Has (su.key b).rank := h.has hn hmeant hclear
  have htree : ∀ pc', topAfter s.top (s.pc b) pc' = s.top := by
    intro pc'
    rw [hpc]
    rfl
  have hfree : recording (s.pc b) = false ∧ s.pc b ≠ .done := by
    rw [hpc]
    exact ⟨rfl, by simp⟩
  rw [IndexRace.visit, bind_ok (fetchPage_used (h.drawn.used hn))] at hok
  cases hl : n.level with
  | zero =>
    obtain ⟨next, hpage⟩ := (h.drawn.page hn).leaf hl
    simp only [hpage.kind] at hok
    obtain ⟨out, s₁, hins, hrest⟩ := EStateM.of_bind_ok hok
    obtain ⟨rfl, rfl⟩ : afterOutcome stack out = pc ∧ s₁ = pool := by
      cases out <;> cases hrest <;> exact ⟨rfl, rfl⟩
    obtain ⟨C', hinv⟩ := h.visit_leaf hd hpc hn hl hx hlevel habove hins
    exact ⟨C', N, hinv, hrows.tree hfree.1 hfree.2 (recording_afterOutcome _ _) (htree _)⟩
  | succ l =>
    have hpage := (h.drawn.page hn).node (by omega)
    simp only [hpage.kind] at hok
    rw [childFor_eq (su.key b) hpage.kind hpage.next hpage.packed, SepList.ofTail_eq,
      bind_ok (liftE_ok _ _)] at hok
    cases hok
    exact ⟨C, N, h.visit_node hpc hn hl hshown hx hlevel habove,
      hrows.tree hfree.1 hfree.2 rfl (htree _)⟩

theorem Good.absorb (h : Good su S s) {sep : Bytes} {right : Nat}
    (hpc : s.pc b = .absorb sep right stack) (hclear : clear su s b = true)
    (hs : step su s b = some s') : Failed s' ∨ Good su S s' := by
  obtain ⟨C, N, h, hrows⟩ := h
  rw [clear, hpc] at hclear
  have hfree : recording (s.pc b) = false ∧ s.pc b ≠ .done := by
    rw [hpc]
    exact ⟨rfl, by simp⟩
  cases stack with
  | cons node stack =>
    have hlatched : latched su s b = some (s.onTree b (absorbAt ty sep right node stack)) := by
      rw [latched, hpc]
    refine (step_onTree hlatched hs).imp_right ?_
    rintro ⟨pc, pool, hok, rfl⟩
    obtain ⟨out, s₁, hins, hrest⟩ := EStateM.of_bind_ok hok
    obtain ⟨rfl, rfl⟩ : afterOutcome stack out = pc ∧ s₁ = pool := by
      cases out <;> cases hrest <;> exact ⟨rfl, rfl⟩
    obtain ⟨C', hinv⟩ := h.absorb_node hpc hclear hins
    refine ⟨C', N, hinv, hrows.tree hfree.1 hfree.2 (recording_afterOutcome _ _) ?_⟩
    rw [hpc]
    cases out <;> rfl
  | nil =>
    have hlatched : latched su s b = some (s.onTree b (growRoot su.root sep right)) := by
      rw [latched, hpc]
    refine (step_onTree hlatched hs).imp_right ?_
    rintro ⟨pc, pool, hok, rfl⟩
    have htop : s.top = su.root := by simpa using hclear
    obtain ⟨C', hinv, root, rfl, hne⟩ := h.grow_root hpc htop hok
    refine ⟨C', N, hinv, Or.inr ⟨?_, b, ?_, ?_⟩⟩
    · show topAfter s.top (s.pc b) (.scan root 0) ≠ su.root
      rw [hpc]
      exact hne
    · show recording (Function.update s.pc b (.scan root 0) !b) = false
      rw [Function.update_of_ne (by cases b <;> decide)]
      exact (hrows.resolve_right fun hr => hr.1 htop).2.2 !b
    · show Recorded su.indexId su.root (topAfter s.top (s.pc b) (.scan root 0)) s.pgIndex
        (Function.update s.pc b (.scan root 0) b)
      obtain ⟨vals, pre, before, hrow⟩ := (hrows.resolve_right fun hr => hr.1 htop).2.1
      rw [hpc, Function.update_self]
      exact ⟨rfl, vals, pre, before, hrow, Nat.zero_le _⟩

/-- A call in `update_index_root`, or past it, has nothing to do with the tree. -/
theorem offTree {pc : Pc} (h : recording pc = true ∨ pc = .done) :
    rightOf pc = none ∧ arrived pc = true ∧ (∀ pc₀, splitOf pc₀ pc = none) ∧
      ∀ k, JobOk C N k pc := by
  have hsplit : ∀ {pc₀ pc : Pc}, rightOf pc = none → splitOf pc₀ pc = none := by
    intro pc₀ pc hright
    unfold splitOf
    split
    · cases hright
    · cases hright
    · rfl
  cases pc with
  | scan root i | remove root i slot vals | emit root vals
  | done => exact ⟨rfl, rfl, fun _ => hsplit rfl, fun _ => trivial⟩
  | visit node stack | absorb sep right stack | failed e => simp [recording] at h

/-- A section on `pg_index` leaves the tree alone. -/
theorem Inv.rows (h : Inv su S s C N) {pages' : List Page} {pc' : Pc} (hpc : recording (s.pc b) = true)
    (hpc' : recording pc' = true ∨ pc' = .done) : Inv su S (s.moved b s.pool pages' pc') C N := by
  obtain ⟨hright, harr, -, -⟩ := offTree (C := C) (N := N) (Or.inl hpc)
  obtain ⟨hright', harr', hsplit, hjob⟩ := offTree (C := C) (N := N) hpc'
  have htop : topAfter s.top (s.pc b) pc' = s.top := by
    unfold topAfter
    split
    · next heq =>
      rw [heq] at hpc
      cases hpc
    · rfl
  have hjob := hjob (su.key b)
  have harr : arrived pc' = arrived (s.pc b) := harr'.trans harr.symm
  have hsplit := hsplit (s.pc b)
  refine h.advance (.refl C) h.sound h.tiled (stored_same harr ▸ h.stores) h.drawn h.wf ?_
    (h.top.trans htop.symm) (fun p => ?_) (fun p hp => ?_) hjob
  · rw [hsplit]
    exact h.cuts
  · rw [h.hidden_iff b, hright, hright']
  · rw [hright'] at hp
    cases hp

theorem Good.record (h : Good su S s) (hpc : recording (s.pc b) = true)
    (hs : step su s b = some s') : Failed s' ∨ Good su S s' := by
  obtain ⟨C, N, h, hrows⟩ := h
  -- this call is the one that made the new root
  obtain ⟨hne, hquiet, hrec⟩ : s.top ≠ su.root ∧ recording (s.pc !b) = false ∧
      Recorded su.indexId su.root s.top s.pgIndex (s.pc b) := by
    rcases hrows with ⟨-, -, hall⟩ | ⟨hne, c, hquiet, hrec⟩
    · rw [hall b] at hpc
      cases hpc
    · have hcb : c = b := by
        by_contra hcb
        rw [Bool.eq_not_of_ne hcb, Bool.not_not, hpc] at hquiet
        cases hquiet
      exact ⟨hne, hcb ▸ hquiet, hcb ▸ hrec⟩
  have hroot : s.top < 2 ^ 32 := by
    obtain ⟨n, hn, -⟩ := h.sound.root
    have hlt := (h.drawn.used (h.top ▸ hn)).lt
    have := h.wf.count_le
    have := s.pool.diskPages_le
    rw [NO_NEXT_PAGE] at this
    omega
  have hgood : ∀ pages' pc', recording pc' = true ∨ pc' = .done →
      Recorded su.indexId su.root s.top pages' pc' → Good su S (s.moved b s.pool pages' pc') := by
    intro pages' pc' hact hrec'
    have hinv : Inv su S (s.moved b s.pool pages' pc') C N := h.rows hpc hact
    have htop : (s.moved b s.pool pages' pc').top = s.top := hinv.top.symm.trans h.top
    refine ⟨C, N, hinv, Or.inr ⟨by rw [htop]; exact hne, b, ?_, ?_⟩⟩
    · show recording (Function.update s.pc b pc' !b) = false
      rw [Function.update_of_ne (by cases b <;> decide)]
      exact hquiet
    · rw [htop]
      show Recorded su.indexId su.root s.top pages' (Function.update s.pc b pc' b)
      rw [Function.update_self]
      exact hrec'
  cases hp : s.pc b with
  | scan root i =>
    have hlatched : latched su s b = some (s.onRows b
        ((scanPage su.indexId root i s.pgIndex).map fun pc => (pc, s.pgIndex))) := by
      rw [latched, hp]
    refine (step_onRows hlatched hs).imp_right ?_
    rintro ⟨pc, pages, hok, rfl⟩
    rw [hp] at hrec
    obtain ⟨rfl, vals, pre, before, hrow, hi⟩ := hrec
    rw [hrow.scanPage hi] at hok
    cases hok
    split
    · next hlt => exact hgood _ _ (Or.inl rfl) ⟨rfl, vals, pre, before, hrow, hlt⟩
    · exact hgood _ _ (Or.inl rfl) ⟨rfl, pre, before, hrow, rfl, rfl⟩
  | remove root i slot vals =>
    have hlatched : latched su s b = some (s.onRows b
        ((removeRow i slot s.pgIndex).map fun pages => (.emit root vals, pages))) := by
      rw [latched, hp]
    refine (step_onRows hlatched hs).imp_right ?_
    rintro ⟨pc, pages, hok, rfl⟩
    rw [hp] at hrec
    obtain ⟨rfl, pre, before, hrow, rfl, rfl⟩ := hrec
    cases hrm : IndexRace.removeRow pre.length before.length s.pgIndex with
    | error e => rw [hrm] at hok; cases hok
    | ok pages₁ =>
      rw [hrm] at hok
      cases hok
      exact hgood _ _ (Or.inl rfl) ⟨rfl, hrow.removeRow hrm, hrow.names⟩
  | emit root vals =>
    have hlatched : latched su s b = some (s.onRows b
        ((emitRow root vals s.pgIndex).map fun pages => (.done, pages))) := by
      rw [latched, hp]
    refine (step_onRows hlatched hs).imp_right ?_
    rintro ⟨pc, pages, hok, rfl⟩
    rw [hp] at hrec
    obtain ⟨rfl, hnone, hnames⟩ := hrec
    cases hem : emitRow s.top vals s.pgIndex with
    | error e => rw [hem] at hok; cases hok
    | ok pages₁ =>
      rw [hem] at hok
      cases hok
      exact hgood _ _ (Or.inr rfl) (emitRow_oneRow hnone hnames hroot hem)
  | visit node stack | absorb sep right stack | done | failed e => rw [hp] at hpc; cases hpc

theorem Failed.step (h : Failed s) (hs : step su s b = some s') : Failed s' := by
  obtain ⟨c, e, hc⟩ := h
  have hcb : c ≠ b := by
    rintro rfl
    rw [IndexRace.step, latched, hc] at hs
    cases hs
  have hkeep : ∀ s₁, latched su s b = some s₁ → s₁.pc c = s.pc c := by
    intro s₁ hl
    rw [latched] at hl
    split at hl <;> cases hl <;> simp only [State.onTree, State.onRows] <;> split <;>
      exact Function.update_of_ne hcb ..
  rw [IndexRace.step, Option.map_eq_some_iff] at hs
  obtain ⟨s₁, hl, rfl⟩ := hs
  exact ⟨c, e, (hkeep s₁ hl).trans hc⟩

/-- **A clear section** keeps the invariant, or its call fails. -/
theorem good_step (hd : Distinct su S) (h : Failed s ∨ Good su S s) (hclear : clear su s b = true)
    (hs : step su s b = some s') : Failed s' ∨ Good su S s' := by
  rcases h with h | h
  · exact Or.inl (h.step hs)
  cases hp : s.pc b with
  | visit node stack => exact h.visit hd hp hclear hs
  | absorb sep right stack => exact h.absorb hp hclear hs
  | scan root i | remove root i slot vals | emit root vals => exact h.record (by rw [hp]; rfl) hs
  | done => rw [step, latched, hp] at hs; cases hs
  | failed e => rw [step, latched, hp] at hs; cases hs

end Runs

/-! ## The first and the last state -/

section Ends

variable {su : Setup ty} {S : Set (Key ty × Rid)} {s : State} {C : PageChart ty} {N : Nat}

theorem mem_spread {T W α K : Type} {ρ : K → α} {f : T → Option α → Option α → List W} {w : W} :
    ∀ {s : SepList K T} {lo hi : Option α}, w ∈ spread ρ f s lo hi →
      ∃ c ∈ s.items, ∃ lo' hi', w ∈ f c lo' hi'
  | .single c, lo, hi, h => ⟨c, by simp, lo, hi, h⟩
  | .cons c k rest, lo, hi, h => by
    rcases List.mem_append.1 h with h | h
    · exact ⟨c, by simp, _, _, h⟩
    · obtain ⟨c', hc', hrest⟩ := mem_spread h
      exact ⟨c', by simp [hc'], hrest⟩

/-- The pages of a stored tree are what its chart says. -/
theorem repr_infos {pool : BufferPool} : ∀ (d : Nat) (t : PageTree ty d) {lo hi : Option (List Int)},
    Repr pool d t → ∀ e ∈ t.infos Key.rank d lo hi, OnPage pool e.1 e.2
  | 0, t, lo, hi, hr, e, he => by
    rw [List.mem_singleton.1 he]
    exact ⟨fun _ => ⟨Leaf.next t, hr⟩, fun h0 => absurd rfl h0⟩
  | d + 1, t, lo, hi, hr, e, he => by
    rcases List.mem_cons.1 he with rfl | he
    · exact ⟨fun h0 => absurd h0 (Nat.succ_ne_zero d), fun _ => hr.1⟩
    · obtain ⟨c, hc, lo', hi', he⟩ := mem_spread he
      exact repr_infos d c (hr.2 c hc) e he

theorem good_start {pool : BufferPool} {pgIndex : List Page} {S : Finset (Key ty × Rid)}
    (hidx : SortedIndex pool su.root S) (hrow : OneRow su.indexId su.root pgIndex) :
    Good su (S : Set (Key ty × Rid)) (su.start pool pgIndex) := by
  obtain ⟨d, t, hp, hord, hes, hmem⟩ := hidx
  have hsound := Tree.chart_sound hp.nodup hord hes
  have hroot : (t.chart Key.rank d).root = su.root := hp.root_eq
  obtain ⟨n, hn, -, hlo, -, hall⟩ := hsound.root
  rw [hroot] at hn
  have hhas : ∀ x, n.Has x := fun x => (hall x).resolve_right fun ⟨_, _, hh, _⟩ => hh
  have hset : { e | e ∈ entriesOf (t.flat d) } = stored su (S : Set (Key ty × Rid))
      (su.start pool pgIndex).pc := by
    ext e
    show e ∈ entriesOf (t.flat d) ↔ e ∈ S ∨ ∃ b, false = true ∧ _
    rw [hmem]
    simp
  refine ⟨t.chart Key.rank d, n.level, ⟨hsound, Tree.chart_tiled hp.nodup hord hes,
    hset ▸ Tree.chart_stores hp.nodup hord hes, ⟨fun hq => hp.used _ ?_, fun hq => ?_⟩, hp.wf,
    fun hq hcut => ?_, hroot, ⟨n, hn, rfl⟩, fun p => ⟨fun hh => hh.elim, ?_⟩, fun b p hb => ?_,
    fun b => ⟨n, hn, id, rfl, (hhas _).meant, trivial⟩⟩, Or.inl ⟨rfl, hrow, fun b => rfl⟩⟩
  · rw [← map_fst_infos (ρ := Key.rank) d t none none]
    exact List.mem_map_of_mem ((chart_nodes hp.nodup).1 hq)
  · exact repr_infos d t hp.repr _ ((chart_nodes hp.nodup).1 hq)
  · have hin : InRange none none (ranks Key.rank (t.flat d)) := ⟨by simp, by simp⟩
    have huncut := (listed_infos d t none none hord hin hes).1.uncut _ ((chart_nodes hp.nodup).1 hq)
    rw [huncut] at hcut
    cases hcut
  · rintro ⟨b, hb⟩
    cases hb
  · cases hb

/-- A search in a chart without hidden pages. -/
theorem descendLoop_chart (h : Inv su S s C N) (hshown : ∀ p, ¬ C.hidden p) (k : Key ty) :
    ∀ (l fuel : Nat) {p : Nat} {n : Info Nat (Key ty) Rid (List Int)}, C.nodes p = some n →
      n.level = l → l < fuel → n.Has k.rank →
      ∃ q m, descendLoop k.bytes ty fuel p s.pool = .ok q s.pool ∧ C.nodes q = some m ∧
        m.level = 0 ∧ m.Has k.rank
  | 0, fuel, p, n, hn, hl, hfuel, hx => by
    obtain ⟨f, rfl⟩ := Nat.exists_eq_add_one.2 hfuel
    obtain ⟨next, hpage⟩ := (h.drawn.page hn).leaf hl
    refine ⟨p, n, ?_, hn, hl, hx⟩
    rw [descendLoop, bind_ok (fetchPage_used (h.drawn.used hn))]
    simp only [hpage.kind, hpage.pageId, pure_apply]
  | l + 1, fuel, p, n, hn, hl, hfuel, hx => by
    obtain ⟨f, rfl⟩ := Nat.exists_eq_add_one.2 (Nat.zero_lt_of_lt hfuel)
    have hpage := (h.drawn.page hn).node (by omega)
    obtain ⟨m, hm, hml, hmx⟩ := h.sound.route_has hshown hn hl hx
    obtain ⟨q, mq, hloop, hrest⟩ :=
      descendLoop_chart h hshown k l f hm hml (Nat.lt_of_succ_lt_succ hfuel) hmx
    refine ⟨q, mq, ?_, hrest⟩
    rw [descendLoop, bind_ok (fetchPage_used (h.drawn.used hn))]
    simp only [hpage.kind]
    rw [childFor_eq k hpage.kind hpage.next hpage.packed, SepList.ofTail_eq, bind_ok (liftE_ok _ _)]
    exact hloop

theorem filter_rank_eq {es : List (Key ty × Rid)} {e : Key ty × Rid}
    (hs : es.Pairwise fun x y => x.1.rank < y.1.rank) (he : e ∈ es) :
    (es.filter fun x => decide (x.1.rank = e.1.rank)) = [e] := by
  obtain ⟨a, b, rfl⟩ := List.append_of_mem he
  obtain ⟨-, hb, hcross⟩ := List.pairwise_append.1 hs
  have ha : (a.filter fun x => decide (x.1.rank = e.1.rank)) = [] :=
    List.filter_eq_nil_iff.2 fun x hx => by
      simpa using (hcross x hx e List.mem_cons_self).ne
  have hb' : (b.filter fun x => decide (x.1.rank = e.1.rank)) = [] :=
    List.filter_eq_nil_iff.2 fun x hx => by
      simpa using ((List.pairwise_cons.1 hb).1 x hx).ne'
  rw [List.filter_append, ha, List.filter_cons_of_pos (by simp), hb', List.nil_append]

/-- **With nothing left to publish every entry is found.** -/
theorem Inv.lookupEq (h : Inv su S s C N) (hshown : ∀ p, ¬ C.hidden p) {e : Key ty × Rid}
    (he : e ∈ stored su S s.pc) : lookupEq s.top e.1.bytes ty s.pool = .ok [e.2] s.pool := by
  obtain ⟨n, hn, -, -, -, hall⟩ := h.sound.root
  rw [h.top] at hn
  have hx : n.Has e.1.rank := (hall _).resolve_right fun ⟨r, _, hh, _⟩ => hshown r hh
  have hlevel : n.level < s.pool.pageCount + 1 := by
    have hlt := h.sound.level_lt (F := Finset.range s.pool.pageCount)
      (fun hq => Finset.mem_range.2 (h.drawn.used hq).lt) hn
    rw [Finset.card_range] at hlt
    omega
  obtain ⟨q, m, hloop, hm, hml, hmx⟩ := descendLoop_chart h hshown e.1 n.level _ hn rfl hlevel hx
  obtain ⟨next, hpage⟩ := (h.drawn.page hm).leaf hml
  have hsorted := (h.sound.leaf hm hml).1
  have hdescend : descendToLeaf s.top e.1.bytes ty s.pool = .ok q s.pool := by
    rw [descendToLeaf, bind_ok (pageFuel_apply _)]
    exact hloop
  rw [BTree.lookupEq, bind_ok hdescend, bind_ok (fetchPage_used (h.drawn.used hm)), leafLookupEq,
    lookupEqFrom_eq e.1 m.entries _ hpage.packed.tuples,
    filter_takeWhile_sorted (hsorted.imp fun hlt => hlt.le),
    filter_rank_eq hsorted (h.stores.found hm hml e he hmx)]
  rfl

/-- **Two insertions into one index.** In every run whose sections stay clear of each
other, the pairs from before and both new ones are found from the root in `pg_index`. -/
theorem inserts_found {pool : BufferPool} {pgIndex : List Page} {S : Finset (Key ty × Rid)}
    {ls : List Bool} (hidx : SortedIndex pool su.root S)
    (hrow : OneRow su.indexId su.root pgIndex) (hd : Distinct su (S : Set (Key ty × Rid)))
    (hrun : Follows (step su) (fun s b => clear su s b = true) (su.start pool pgIndex) ls)
    (hdone : ∀ b, (after (step su) (su.start pool pgIndex) ls).pc b = .done) :
    Found su (after (step su) (su.start pool pgIndex) ls) (su.entries (S : Set (Key ty × Rid))) := by
  have hgood := hrun.invariant (I := fun s => Failed s ∨ Good su (S : Set (Key ty × Rid)) s)
    (fun h hc hs => good_step hd h hc hs) (Or.inr (good_start hidx hrow))
  generalize after (step su) (su.start pool pgIndex) ls = s at hgood hdone
  rcases hgood with ⟨b, e, hfailed⟩ | ⟨C, N, hinv, hrows⟩
  · rw [hdone b] at hfailed
    cases hfailed
  have hshown : ∀ p, ¬ C.hidden p := by
    intro p hh
    obtain ⟨b, hb⟩ := (hinv.hidden p).1 hh
    rw [hdone b] at hb
    cases hb
  have htop : OneRow su.indexId s.top s.pgIndex := by
    rcases hrows with ⟨heq, hrow, -⟩ | ⟨-, b, -, hrec⟩
    · exact heq.symm ▸ hrow
    · rw [hdone b] at hrec
      exact hrec
  refine ⟨s.top, htop.pgRoot, fun e he => hinv.lookupEq hshown ?_⟩
  rcases he with rfl | rfl | he
  · exact Or.inr ⟨false, by rw [hdone]; rfl, rfl⟩
  · exact Or.inr ⟨true, by rw [hdone]; rfl, rfl⟩
  · exact Or.inl he

end Ends

/-! ## A full root leaf -/

/-- As many INT entries as a leaf holds. -/
def fullEntries : List (Key .int × Rid) :=
  (List.range 254).map fun i => (intKey (Int32.ofNat i), (9, i))

/-- A file of one page, the full leaf. -/
def fullPool : BufferPool where
  pages := fun p => pushAll (initLeaf (.new p)) (leafTuples fullEntries)
  pageCount := 1
  freeList := []
  diskPages := 9
  diskPages_le := nine_le_noNextPage

/-- `pg_index` with one row, for index 5 with root 0. -/
def onePgIndex : List Page :=
  [(Page.new 2).push (.heap (.mk' SYSTEM_TXN_ID invalidTxnId
    [.int 5, .varchar "i", .int 7, .int 0, .int 0, .bool false]))]

theorem rank_intKey (n : Int32) : (intKey n).rank = [n.toInt] := by
  have h : keyRank .int (intKey n).bytes = some [n.toInt] :=
    keyRank_encodeKey (v := .int n) (w := 4) rfl rfl
  rw [Key.keyRank_bytes] at h
  exact Option.some.inj h

theorem rank_fullEntries {e : Key .int × Rid} (he : e ∈ fullEntries) :
    ∃ i : Nat, i < 254 ∧ e.1.rank = [(i : Int)] := by
  obtain ⟨i, hi, rfl⟩ := List.mem_map.1 he
  have hi := List.mem_range.1 hi
  refine ⟨i, hi, ?_⟩
  rw [rank_intKey, Int32.toInt_ofNat_of_lt (by omega)]

theorem fullEntries_sorted : fullEntries.Pairwise fun x y => x.1.rank < y.1.rank := by
  refine List.pairwise_map.2 (List.Pairwise.imp_of_mem ?_ List.pairwise_lt_range)
  intro i j hi hj hlt
  have hi := List.mem_range.1 hi
  have hj := List.mem_range.1 hj
  rw [rank_intKey, rank_intKey, Int32.toInt_ofNat_of_lt (by omega), Int32.toInt_ofNat_of_lt (by omega)]
  exact List.Lex.rel (by exact_mod_cast hlt)

theorem isLeafPage_fullPool :
    IsLeafPage (fullPool.pages 0) (⟨0, NO_NEXT_PAGE, fullEntries⟩ : LeafNode .int) := by
  have hfits : (capacity .int).leafFits fullEntries := by
    rw [leafFits_iff (w := 4) rfl]
    simp [fullEntries, HEADER_SIZE, PAGE_SIZE]
  have hpacked : Page.Packed (pushAll (initLeaf (.new 0)) (leafTuples fullEntries))
      (leafTuples fullEntries) := packed_rebuilt ⟨rfl, rfl, by decide⟩ hfits
  have hhead := pushAll_header (initLeaf (.new 0)) (leafTuples fullEntries)
  simp only [fullPool]
  exact ⟨hhead.2.2, hhead.1, hhead.2.1, hpacked⟩

theorem sortedIndex_fullPool : SortedIndex fullPool 0 fullEntries.toFinset := by
  have hpage := isLeafPage_fullPool
  refine ⟨0, (⟨0, NO_NEXT_PAGE, fullEntries⟩ : LeafNode .int), ⟨⟨⟨List.nodup_nil, ?_, by decide⟩, rfl,
    hpage, fun q hq => ?_, List.nodup_singleton _⟩, rfl, trivial⟩, ?_, fullEntries_sorted,
    fun e => ?_⟩
  · simp [fullPool]
  · rw [List.mem_singleton.1 hq]
    exact ⟨Nat.one_pos, List.not_mem_nil⟩
  · show (fullEntries.map fun e => (e.1.rank, false)).Pairwise (Prec true)
    refine List.pairwise_map.2 (fullEntries_sorted.imp fun hlt => prec_of_lt hlt)
  · rw [List.mem_toFinset]
    rfl

theorem oneRow_onePgIndex : OneRow 5 0 onePgIndex :=
  ⟨_, [], [], ⟨_, [], _, [], _, rfl, rfl, rfl, rfl, rfl, by simp [NoRow], by simp⟩,
    ⟨_, rfl, rfl, rfl⟩, by simp [NoRow], by simp⟩

/-- The first call has to split the full leaf; the second one brings the key `n`. -/
def fullSetup (n : Int32) : Setup .int where
  indexId := 5
  root := 0
  key b := intKey (if b then n else 1000)
  rid _ := (9, 300)

theorem distinct_fullSetup {n : Int32} (hne : n.toInt ≠ 1000) (hn : n.toInt < 0 ∨ 254 ≤ n.toInt) :
    Distinct (fullSetup n) (fullEntries.toFinset : Set (Key .int × Rid)) := by
  refine ⟨?_, fun b e he heq => ?_⟩
  · show (intKey 1000).rank ≠ (intKey n).rank
    rw [rank_intKey, rank_intKey]
    simpa using fun h => hne h.symm
  · obtain ⟨i, hi, hrank⟩ := rank_fullEntries (List.mem_toFinset.1 he)
    have heq : e.1.rank = (intKey (if b then n else 1000)).rank := heq
    rw [hrank, rank_intKey, List.cons.injEq] at heq
    cases b
    · have h : (i : Int) = 1000 := heq.1
      omega
    · have h : (i : Int) = n.toInt := heq.1
      omega

/-- The key of the first call goes behind all others. -/
theorem grow_fullEntries :
    grow Key.rank (intKey 1000) (9, 300) fullEntries = fullEntries ++ [(intKey 1000, (9, 300))] := by
  refine insertBefore_of_forall fun e he => ?_
  obtain ⟨i, hi, hrank⟩ := rank_fullEntries he
  rw [beyond, hrank, rank_intKey, decide_eq_false_iff_not, List.cons_lt_cons_iff]
  rintro (hlt | ⟨-, hnil⟩)
  · have hlt : (1000 : Int) < i := hlt
    omega
  · exact List.not_lt_nil _ hnil

/-- The halves of the leaf. -/
def splitPool : BufferPool where
  pages := Function.update (Function.update fullPool.pages 1
      ((pushAll (initLeaf (.new 1))
        (leafTuples (fullEntries.drop 127 ++ [(intKey 1000, (9, 300))]))).setNextPageId NO_NEXT_PAGE))
    0 ((pushAll (resetPage (fullPool.pages 0) NO_NEXT_PAGE)
        (leafTuples (fullEntries.take 127))).setNextPageId 1)
  pageCount := 2
  freeList := []
  diskPages := 9
  diskPages_le := nine_le_noNextPage

theorem drop_fullEntries : fullEntries.drop 127 =
    (intKey 127, (9, 127)) :: fullEntries.drop 128 := by
  have hlt : 127 < fullEntries.length := by simp [fullEntries]
  rw [List.drop_eq_getElem_cons hlt]
  simp only [fullEntries, List.getElem_map, List.getElem_range]
  rfl

theorem insertLeaf_fullPool :
    insertLeaf 0 (fullPool.pages 0) (intKey 1000).bytes (9, 300) .int fullPool =
      .ok (.split (intKey 127).bytes 1) splitPool := by
  have hlen : fullEntries.length = 254 := by simp [fullEntries]
  have hnot : ¬ Present Key.rank (intKey 1000) (9, 300) fullEntries := by
    rintro ⟨e, he, hrank, -⟩
    obtain ⟨i, hi, hi'⟩ := rank_fullEntries he
    rw [hi', rank_intKey, List.cons.injEq] at hrank
    have h : (i : Int) = 1000 := hrank.1
    omega
  have hgrow : grow Key.rank (intKey 1000) (9, 300) fullEntries = fullEntries.take 127 ++
      (intKey 127, (9, 127)) :: (fullEntries.drop 128 ++ [(intKey 1000, (9, 300))]) := by
    rw [grow_fullEntries, ← List.cons_append, ← drop_fullEntries, ← List.append_assoc,
      List.take_append_drop]
  have hfits : ∀ es : List (Key .int × Rid), (capacity .int).leafFits es ↔
      HEADER_SIZE + es.length * 16 ≤ PAGE_SIZE := leafFits_iff (w := 4) rfl
  have h := insertLeaf_grows isLeafPage_fullPool hnot hgrow (by simp [hfits, hlen, HEADER_SIZE, PAGE_SIZE])
    (by simp [hlen]) (by simp [hfits, hlen, HEADER_SIZE, PAGE_SIZE])
    (by simp [hfits, hlen, HEADER_SIZE, PAGE_SIZE]) rfl (by decide) (by decide)
  rw [← List.cons_append, ← drop_fullEntries] at h
  exact h

/-- The first call has split the leaf. -/
def splitState : State where
  pool := splitPool
  pgIndex := onePgIndex
  pc := Function.update (fun _ => .visit 0 []) false (.absorb (intKey 127).bytes 1 [])
  cuts := cutsAfter (fun _ => none) (some (0, (intKey 127).bytes, 1))
  top := 0

theorem step_fullSetup (n : Int32) :
    step (fullSetup n) ((fullSetup n).start fullPool onePgIndex) false = some splitState := by
  have hvisit : visit (intKey 1000).bytes (9, 300) .int 0 [] fullPool =
      .ok (.absorb (intKey 127).bytes 1 []) splitPool := by
    have hfetch : fetchPage 0 fullPool = .ok (fullPool.pages 0) fullPool := rfl
    unfold visit
    rw [bind_ok hfetch]
    simp only [isLeafPage_fullPool.kind]
    rw [bind_ok insertLeaf_fullPool]
    rfl
  have hlatched : latched (fullSetup n) ((fullSetup n).start fullPool onePgIndex) false =
      some { (fullSetup n).start fullPool onePgIndex with
        pool := splitPool
        pc := Function.update (fun _ => .visit 0 []) false (.absorb (intKey 127).bytes 1 []) } := by
    have htree := onTree_ok (s := (fullSetup n).start fullPool onePgIndex) (b := false) hvisit
    exact congrArg some htree
  rw [step, hlatched]
  rfl

/-- The first call splits the leaf, the second one visits it, and then the first one
makes the new root and records it. -/
def lateVisit : List Bool := [false, true, false, false, false, false]

theorem after_lateVisit (n : Int32) :
    after (step (fullSetup n)) ((fullSetup n).start fullPool onePgIndex) lateVisit =
      after (step (fullSetup n)) splitState [true, false, false, false, false] :=
  after_cons (step_fullSetup n)

/-- A key that belongs in the left half, where the second call puts it. -/
theorem inserts_found_left : Found (fullSetup (-1))
    (after (step (fullSetup (-1))) ((fullSetup (-1)).start fullPool onePgIndex) lateVisit)
    ((fullSetup (-1)).entries (fullEntries.toFinset : Set (Key .int × Rid))) := by
  have hrest : Follows (step (fullSetup (-1))) (fun s b => clear (fullSetup (-1)) s b = true)
        splitState [true, false, false, false, false] ∧
      ∀ b, (after (step (fullSetup (-1))) splitState [true, false, false, false, false]).pc b = .done := by
    decide +kernel
  have hrun : Follows (step (fullSetup (-1))) (fun s b => clear (fullSetup (-1)) s b = true)
      ((fullSetup (-1)).start fullPool onePgIndex) lateVisit :=
    follows_cons.2 ⟨rfl, splitState, step_fullSetup _, hrest.1⟩
  have hdone : ∀ b, (after (step (fullSetup (-1))) ((fullSetup (-1)).start fullPool onePgIndex)
      lateVisit).pc b = .done := by
    rw [after_lateVisit]
    exact hrest.2
  exact inserts_found sortedIndex_fullPool oneRow_onePgIndex
    (distinct_fullSetup (by decide) (by decide)) hrun hdone

/-- **A key that went to the right half is lost**: the second call read the root before
the split and puts it into the left half. -/
theorem insert_lost : ∃ (su : Setup .int) (pool : BufferPool) (pgIndex : List Page)
    (S : Finset (Key .int × Rid)) (ls : List Bool), SortedIndex pool su.root S ∧
    OneRow su.indexId su.root pgIndex ∧ Distinct su (S : Set (Key .int × Rid)) ∧
    Follows (step su) (fun _ _ => True) (su.start pool pgIndex) ls ∧
    (∀ b, (after (step su) (su.start pool pgIndex) ls).pc b = .done) ∧
    ¬ Found su (after (step su) (su.start pool pgIndex) ls)
      (su.entries (S : Set (Key .int × Rid))) := by
  have hall : Follows (step (fullSetup 1001)) (fun _ _ => True)
        splitState [true, false, false, false, false] ∧
      (∀ b, (after (step (fullSetup 1001)) splitState [true, false, false, false, false]).pc b = .done) ∧
      (pgRoot 5 (after (step (fullSetup 1001)) splitState
        [true, false, false, false, false]).pgIndex).map (fun root =>
          match lookupEq root (intKey 1001).bytes .int (after (step (fullSetup 1001)) splitState
            [true, false, false, false, false]).pool with
          | .ok rids _ => rids
          | .error _ _ => [(0, 0)]) = some [] := by decide +kernel
  obtain ⟨hrest, hdone, hkey⟩ := hall
  refine ⟨fullSetup 1001, fullPool, onePgIndex, fullEntries.toFinset, lateVisit,
    sortedIndex_fullPool, oneRow_onePgIndex, distinct_fullSetup (by decide) (by decide),
    follows_cons.2 ⟨trivial, splitState, step_fullSetup _, hrest⟩, ?_⟩
  rw [after_lateVisit]
  refine ⟨hdone, ?_⟩
  rintro ⟨root, hroot, hall⟩
  generalize after (step (fullSetup 1001)) splitState [true, false, false, false, false] = s
    at hkey hroot hall
  have hfound : lookupEq root (intKey 1001).bytes .int s.pool = .ok [(9, 300)] s.pool :=
    hall (intKey 1001, (9, 300)) (Or.inr (Or.inl rfl))
  have hroot : pgRoot 5 s.pgIndex = some root := hroot
  rw [hroot, Option.map_some, hfound] at hkey
  cases hkey

end Ccdb.IndexRace
