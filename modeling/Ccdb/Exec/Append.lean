import Ccdb.Exec.Dml
import Ccdb.Lib.Runs
import Mathlib.Data.Fintype.Basic

/-!
# Ccdb — concurrent appends to a heap chain

`insert_bytes_hinted` takes one page latch at a time: it walks to the tail, tries
to insert there, allocates a page, inserts into that, and links it behind the
tail it saw. Here each latched section is a step and any number of callers
interleave.

The tail a caller links to may have got a successor since the caller saw it; the
link then overwrites the other's. While every link is made behind a page that
still is the tail, nothing is lost.

Main results:

* `reaches_link` — a link behind the tail adds one page to the chain.
* `Appending.Inv.step` — one section keeps what every caller relies on.
* `appends_reachable` — over every run whose links are clear.
-/

namespace Ccdb

open Relation (ReflTransGen)

/-! ## Chains -/

/-- `q` is the successor of `p` in its chain. -/
def Linked (s : BufferPool) (p q : Nat) : Prop :=
  (s.pages p).nextPageId = q ∧ q ≠ NO_NEXT_PAGE

/-- The pages a scan from `first` visits. -/
def Reaches (s : BufferPool) (first p : Nat) : Prop := ReflTransGen (Linked s) first p

variable {s s' : BufferPool} {first p q : Nat}

/-- The chain depends only on the links of its pages. -/
theorem Reaches.congr (h : Reaches s first p)
    (hnext : ∀ q, Reaches s first q → (s'.pages q).nextPageId = (s.pages q).nextPageId) :
    Reaches s' first p := by
  have key : Reaches s first p ∧ Reaches s' first p := by
    induction h with
    | refl => exact ⟨.refl, .refl⟩
    | tail hq hl ih => exact ⟨ih.1.tail hl, ih.2.tail ⟨(hnext _ ih.1).trans hl.1, hl.2⟩⟩
  exact key.2

theorem reaches_congr
    (hnext : ∀ q, Reaches s first q → (s'.pages q).nextPageId = (s.pages q).nextPageId) :
    Reaches s' first p ↔ Reaches s first p := by
  refine ⟨fun h => ?_, fun h => h.congr hnext⟩
  induction h with
  | refl => exact .refl
  | tail _ hl ih => exact ih.tail ⟨(hnext _ ih).symm.trans hl.1, hl.2⟩

/-- A link behind the tail adds one page to the chain. -/
theorem reaches_link {last new : Nat} (hlast : Reaches s first last)
    (htail : (s.pages last).nextPageId = NO_NEXT_PAGE) (hnew : ¬ Reaches s first new)
    (hend : (s.pages new).nextPageId = NO_NEXT_PAGE) (hne : new ≠ NO_NEXT_PAGE) :
    Reaches (s.set last ((s.pages last).setNextPageId new)) first p ↔
      Reaches s first p ∨ p = new := by
  have hlink : Linked (s.set last ((s.pages last).setNextPageId new)) last new :=
    ⟨by rw [BufferPool.set_pages_self]; rfl, hne⟩
  have hkeep : ∀ {q r}, Linked s q r →
      Linked (s.set last ((s.pages last).setNextPageId new)) q r := by
    intro q r hl
    have hql : q ≠ last := by
      -- the tail has no link to lose
      rintro rfl
      exact hl.2 (hl.1.symm.trans htail)
    exact ⟨by rw [BufferPool.set_pages_ne _ _ hql]; exact hl.1, hl.2⟩
  have hmono : ∀ {q}, Reaches s first q →
      Reaches (s.set last ((s.pages last).setNextPageId new)) first q := by
    intro q h
    exact ReflTransGen.mono (fun _ _ => hkeep) _ _ h
  constructor
  · intro h
    induction h with
    | refl => exact Or.inl .refl
    | @tail q r _ hl ih =>
      by_cases hql : q = last
      · subst hql
        have hr := hl.1
        rw [BufferPool.set_pages_self] at hr
        exact Or.inr hr.symm
      · have hl' : Linked s q r := ⟨by rw [← hl.1, BufferPool.set_pages_ne _ _ hql], hl.2⟩
        rcases ih with hq | rfl
        · exact Or.inl (hq.tail hl')
        · exact absurd (hl'.1.symm.trans hend) hl'.2
  · rintro (h | rfl)
    · exact hmono h
    · exact (hmono hlast).tail hlink

/-! ## Callers and their sections -/

/-- Where a caller of `insert_bytes_hinted` is. -/
inductive AppendPc where
  | walking (last : Nat)
  -- nothing followed `last` when it was read
  | atTail (last : Nat)
  -- the row did not fit on `last`
  | full (last : Nat)
  | fresh (last newPid : Nat)
  -- the row is on the new page, which is not linked yet
  | linking (last newPid : Nat) (rid : Rid)
  | done (rid : Rid)
  | failed (e : DbError)
deriving DecidableEq, Repr

/-- `n` calls on one pool. `nextLsn` is the log's counter, taken inside the
latched section that places a row. -/
structure Appending (n : Nat) where
  pool : BufferPool
  nextLsn : Nat
  pcs : Fin n → AppendPc

namespace Appending

variable {n : Nat}

/-- Every caller starts at its hint, or at the first page. -/
def start (n : Nat) (pool : BufferPool) (nextLsn first : Nat) (hints : Fin n → Option Nat) :
    Appending n :=
  ⟨pool, nextLsn, fun t => .walking ((hints t).getD first)⟩

def goto (st : Appending n) (t : Fin n) (pc : AppendPc) : Appending n :=
  { st with pcs := Function.update st.pcs t pc }

/-- A page is written under its latch. -/
def put (st : Appending n) (p : Nat) (page : Page) : Appending n :=
  { st with pool := st.pool.set p page }

/-- The row goes to page `p`, with its Insert record. -/
def place (st : Appending n) (p : Nat) (page : Page) : Appending n :=
  { st.put p (page.setPageLsn st.nextLsn) with nextLsn := st.nextLsn + 1 }

/-- The next latched section of one caller. -/
def step (rows : Fin n → HeapTuple) (st : Appending n) (t : Fin n) : Option (Appending n) :=
  match st.pcs t with
  | .walking last =>
    match fetchPage last st.pool with
    | .ok page _ =>
      if page.nextPageId = NO_NEXT_PAGE then some (st.goto t (.atTail last))
      else some (st.goto t (.walking page.nextPageId))
    | .error e _ => some (st.goto t (.failed e))
  | .atTail last =>
    match fetchPage last st.pool with
    | .ok page _ =>
      match page.insert (.heap (rows t)) with
      | .ok (slot, page') => some ((st.place last page').goto t (.done (last, slot)))
      | .error _ => some (st.goto t (.full last))
    | .error e _ => some (st.goto t (.failed e))
  | .full last =>
    match newPage st.pool with
    | .ok newPid pool => some { st.goto t (.fresh last newPid) with pool := pool }
    | .error e _ => some (st.goto t (.failed e))
  | .fresh last newPid =>
    match (st.pool.pages newPid).insert (.heap (rows t)) with
    | .ok (slot, page') => some ((st.place newPid page').goto t (.linking last newPid (newPid, slot)))
    | .error e => some (st.goto t (.failed (freshPageError e)))
  | .linking last newPid rid =>
    match fetchPage last st.pool with
    | .ok page _ => some ((st.put last (page.setNextPageId newPid)).goto t (.done rid))
    | .error e _ => some (st.goto t (.failed e))
  | .done _ => none
  | .failed _ => none

/-- The page a caller links to still is the tail. -/
def Clear (st : Appending n) (t : Fin n) : Prop :=
  match st.pcs t with
  | .linking last _ _ => (st.pool.pages last).nextPageId = NO_NEXT_PAGE
  | _ => True

instance (st : Appending n) (t : Fin n) : Decidable (st.Clear t) := by
  unfold Clear
  split <;> infer_instance

/-! ## The invariant -/

/-- The page a caller has allocated and not linked. -/
def owns : AppendPc → Option Nat
  | .fresh _ newPid => some newPid
  | .linking _ newPid _ => some newPid
  | _ => none

/-- A page outside the chain that ends it once it is linked. -/
structure Spare (s : BufferPool) (first p : Nat) : Prop where
  used : s.Used p
  outside : ¬ Reaches s first p
  ends : (s.pages p).nextPageId = NO_NEXT_PAGE

/-- The row is in its slot. -/
def Holds (s : BufferPool) (rid : Rid) (row : HeapTuple) : Prop :=
  (s.pages rid.1).getTuple rid.2 = some (.heap row)

/-- What a caller relies on. -/
def PcOk (s : BufferPool) (first : Nat) (row : HeapTuple) : AppendPc → Prop
  | .walking last => Reaches s first last
  | .atTail last => Reaches s first last
  | .full last => Reaches s first last
  | .fresh last newPid => Reaches s first last ∧ Spare s first newPid
  | .linking last newPid rid =>
    Reaches s first last ∧ Spare s first newPid ∧ rid.1 = newPid ∧ Holds s rid row
  | .done rid => Reaches s first rid.1 ∧ Holds s rid row
  | .failed _ => True

structure Inv (rows : Fin n → HeapTuple) (first : Nat) (st : Appending n) : Prop where
  wf : st.pool.WF
  used : ∀ p, Reaches st.pool first p → st.pool.Used p
  pcs : ∀ t, PcOk st.pool first (rows t) (st.pcs t)
  apart : ∀ t u p, owns (st.pcs t) = some p → owns (st.pcs u) = some p → t = u

/-- What a section leaves to the other callers, who own the pages in `P`. -/
structure Frame (s s' : BufferPool) (first : Nat) (P : Nat → Prop) : Prop where
  wf : s'.WF
  reaches : ∀ p, Reaches s first p → Reaches s' first p
  used : ∀ p, Reaches s' first p → s'.Used p
  spare : ∀ p, P p → Spare s first p → Spare s' first p
  holds : ∀ rid row, s.Used rid.1 → Holds s rid row → Holds s' rid row

variable {rows : Fin n → HeapTuple} {st st' : Appending n} {t u : Fin n} {P : Nat → Prop}

theorem Frame.refl (hwf : s.WF) (hused : ∀ p, Reaches s first p → s.Used p) :
    Frame s s first P :=
  ⟨hwf, fun _ h => h, hused, fun _ _ h => h, fun _ _ _ h => h⟩

/-- The callers that do not move keep what they rely on. -/
theorem PcOk.frame {pc : AppendPc} {row : HeapTuple} (hused : ∀ p, Reaches s first p → s.Used p)
    (hf : Frame s s' first P) (hP : ∀ p, owns pc = some p → P p) (h : PcOk s first row pc) :
    PcOk s' first row pc := by
  cases pc with
  | walking last | atTail last | full last => exact hf.reaches last h
  | fresh last newPid => exact ⟨hf.reaches last h.1, hf.spare newPid (hP _ rfl) h.2⟩
  | linking last newPid rid =>
    obtain ⟨hlast, hspare, hrid, hholds⟩ := h
    exact ⟨hf.reaches last hlast, hf.spare newPid (hP _ rfl) hspare, hrid,
      hf.holds rid row (hrid ▸ hspare.used) hholds⟩
  | done rid => exact ⟨hf.reaches _ h.1, hf.holds rid row (hused _ h.1) h.2⟩
  | failed e => trivial

/-- A row is added to a page whose link stays as it is. -/
theorem Frame.place {page : Page} (hwf : s.WF) (hused : ∀ p, Reaches s first p → s.Used p)
    (hnext : page.nextPageId = (s.pages q).nextPageId)
    (hslots : ∀ slot x, (s.pages q).getTuple slot = some x → page.getTuple slot = some x) :
    Frame s (s.set q page) first P := by
  have hlink : ∀ r, ((s.set q page).pages r).nextPageId = (s.pages r).nextPageId := by
    intro r
    by_cases hr : r = q
    · subst hr
      rw [BufferPool.set_pages_self, hnext]
    · rw [BufferPool.set_pages_ne _ _ hr]
  have hreach : ∀ r, Reaches (s.set q page) first r ↔ Reaches s first r :=
    fun r => reaches_congr fun r' _ => hlink r'
  refine ⟨hwf.set _ _, fun r h => (hreach r).2 h, fun r h => hused r ((hreach r).1 h),
    fun r _ h => ⟨h.used, fun h' => h.outside ((hreach r).1 h'), (hlink r).trans h.ends⟩,
    fun rid row _ h => ?_⟩
  unfold Holds at h ⊢
  by_cases hr : rid.1 = q
  · rw [hr] at h ⊢
    rw [BufferPool.set_pages_self]
    exact hslots _ _ h
  · rw [BufferPool.set_pages_ne _ _ hr]
    exact h

/-- A page is allocated. -/
theorem Frame.alloc {new : Nat} (hwf : s.WF) (hused : ∀ p, Reaches s first p → s.Used p)
    (hnew : newPage s = .ok new s') :
    Frame s s' first P ∧ Spare s' first new ∧ ¬ s.Used new := by
  obtain ⟨hwf', hunused, hpage, hother, husedIff, -⟩ := newPage_ok hwf hnew
  have hne : ∀ {r}, s.Used r → r ≠ new := fun hr he => hunused (he ▸ hr)
  have hreach : ∀ r, Reaches s' first r ↔ Reaches s first r := by
    intro r
    refine reaches_congr fun r' h => ?_
    rw [hother r' (hne (hused r' h))]
  refine ⟨⟨hwf', fun r h => (hreach r).2 h,
    fun r h => (husedIff r).2 (Or.inl (hused r ((hreach r).1 h))), fun r _ h => ?_,
    fun rid row hrid h => ?_⟩, ⟨(husedIff new).2 (Or.inr rfl), ?_, ?_⟩, hunused⟩
  · refine ⟨(husedIff r).2 (Or.inl h.used), fun h' => h.outside ((hreach r).1 h'), ?_⟩
    rw [hother r (hne h.used)]
    exact h.ends
  · unfold Holds at h ⊢
    rw [hother _ (hne hrid)]
    exact h
  · exact fun h => hunused (hused new ((hreach new).1 h))
  · rw [hpage]
    rfl

/-- The caller's page is linked behind the tail. -/
theorem Frame.link {last new : Nat} (hwf : s.WF) (hused : ∀ p, Reaches s first p → s.Used p)
    (hlast : Reaches s first last) (hspare : Spare s first new)
    (htail : (s.pages last).nextPageId = NO_NEXT_PAGE) (hP : ∀ p, P p → p ≠ new) :
    Frame s (s.set last ((s.pages last).setNextPageId new)) first P ∧
      Reaches (s.set last ((s.pages last).setNextPageId new)) first new := by
  have hreach : ∀ r, Reaches (s.set last ((s.pages last).setNextPageId new)) first r ↔
      Reaches s first r ∨ r = new :=
    fun r => reaches_link hlast htail hspare.outside hspare.ends (hspare.used.ne_none hwf)
  refine ⟨⟨hwf.set _ _, fun r h => (hreach r).2 (Or.inl h), fun r h => ?_, fun r hr h => ?_,
    fun rid row _ h => ?_⟩, (hreach new).2 (Or.inr rfl)⟩
  · rcases (hreach r).1 h with h | rfl
    · exact hused r h
    · exact hspare.used
  · refine ⟨h.used, fun h' => ?_, ?_⟩
    · rcases (hreach r).1 h' with h' | h'
      · exact h.outside h'
      · exact hP r hr h'
    · have hrl : r ≠ last := by
        rintro rfl
        exact h.outside hlast
      rw [BufferPool.set_pages_ne _ _ hrl]
      exact h.ends
  · unfold Holds at h ⊢
    by_cases hr : rid.1 = last
    · rw [hr] at h ⊢
      rw [BufferPool.set_pages_self]
      exact h
    · rw [BufferPool.set_pages_ne _ _ hr]
      exact h

/-- The parts a step has to supply. -/
theorem Inv.of_frame {pc : AppendPc} (hinv : Inv rows first st)
    (hf : Frame st.pool st'.pool first fun p => ∃ u, u ≠ t ∧ owns (st.pcs u) = some p)
    (hpcs : st'.pcs = Function.update st.pcs t pc) (hok : PcOk st'.pool first (rows t) pc)
    (howns : ∀ p, owns pc = some p → ∀ u, u ≠ t → owns (st.pcs u) ≠ some p) :
    Inv rows first st' ∧ ∀ p, Reaches st.pool first p → Reaches st'.pool first p := by
  refine ⟨⟨hf.wf, hf.used, fun u => ?_, fun u v p hu hv => ?_⟩, hf.reaches⟩
  · by_cases hut : u = t
    · subst hut
      rw [hpcs, Function.update_self]
      exact hok
    · rw [hpcs, Function.update_of_ne hut]
      exact PcOk.frame hinv.used hf (fun p hp => ⟨u, hut, hp⟩) (hinv.pcs u)
  · rw [hpcs] at hu hv
    by_cases hut : u = t
    · by_cases hvt : v = t
      · rw [hut, hvt]
      · rw [hut, Function.update_self] at hu
        rw [Function.update_of_ne hvt] at hv
        exact absurd hv (howns p hu v hvt)
    · rw [Function.update_of_ne hut] at hu
      by_cases hvt : v = t
      · rw [hvt, Function.update_self] at hv
        exact absurd hu (howns p hv u hut)
      · rw [Function.update_of_ne hvt] at hv
        exact hinv.apart u v p hu hv

/-- The pool is left alone. -/
theorem Inv.goto {pc : AppendPc} (hinv : Inv rows first st)
    (hok : PcOk st.pool first (rows t) pc) (howns : owns pc = none) :
    Inv rows first (st.goto t pc) ∧
      ∀ p, Reaches st.pool first p → Reaches (st.goto t pc).pool first p := by
  refine hinv.of_frame (Frame.refl hinv.wf hinv.used) rfl hok fun p hp => ?_
  rw [howns] at hp
  cases hp

/-- A page after an insert: the old rows, and the new one in its slot. -/
theorem insert_spec {page page' : Page} {row : HeapTuple} {slot : Nat} (lsn : Nat)
    (h : page.insert (.heap row) = .ok (slot, page')) :
    (page'.setPageLsn lsn).nextPageId = page.nextPageId ∧
      (page'.setPageLsn lsn).getTuple slot = some (.heap row) ∧
      ∀ i x, page.getTuple i = some x → (page'.setPageLsn lsn).getTuple i = some x := by
  obtain ⟨-, rfl, rfl⟩ := Page.insert_inv h
  refine ⟨rfl, ?_, fun i x hx => ?_⟩
  · simp [Page.getTuple, Page.push, Page.setPageLsn, Page.tupleCount]
  · have hi : i < page.slots.length := by
      by_contra hge
      simp [Page.getTuple, List.getElem?_eq_none (not_lt.1 hge)] at hx
    show ((page.slots ++ _)[i]?).bind Slot.tuple = some x
    rw [List.getElem?_append_left hi]
    exact hx

/-- **One section keeps what every caller relies on**, and every page of the
chain. -/
theorem Inv.step (hinv : Inv rows first st) (hclear : st.Clear t)
    (h : step rows st t = some st') :
    Inv rows first st' ∧ ∀ p, Reaches st.pool first p → Reaches st'.pool first p := by
  have hok := hinv.pcs t
  have hfetch : ∀ {q}, Reaches st.pool first q →
      fetchPage q st.pool = .ok (st.pool.pages q) st.pool :=
    fun hq => fetchPage_used (hinv.used _ hq)
  unfold Appending.step at h
  cases hpc : st.pcs t with
  | walking last =>
    rw [hpc] at h hok
    simp only [hfetch hok] at h
    split at h
    · cases h
      exact hinv.goto hok rfl
    · next hnext =>
      cases h
      refine hinv.goto ?_ rfl
      exact ReflTransGen.tail hok ⟨rfl, hnext⟩
  | atTail last =>
    rw [hpc] at h hok
    simp only [hfetch hok] at h
    split at h
    · next slot page' hins =>
      cases h
      obtain ⟨hnext, hrow, hslots⟩ := insert_spec st.nextLsn hins
      have hf := Frame.place (P := fun p => ∃ u, u ≠ t ∧ owns (st.pcs u) = some p) hinv.wf
        hinv.used hnext hslots
      refine hinv.of_frame hf rfl ⟨hf.reaches last hok, ?_⟩ fun p hp => by cases hp
      show ((st.pool.set last _).pages last).getTuple slot = _
      rw [BufferPool.set_pages_self]
      exact hrow
    · cases h
      exact hinv.goto hok rfl
  | full last =>
    rw [hpc] at h hok
    simp only at h
    split at h
    · next newPid pool hnew =>
      cases h
      obtain ⟨hf, hspare, hunused⟩ := Frame.alloc
        (P := fun p => ∃ u, u ≠ t ∧ owns (st.pcs u) = some p) hinv.wf hinv.used hnew
      refine hinv.of_frame hf rfl ⟨hf.reaches last hok, hspare⟩ fun p hp u hu hpu => ?_
      -- another caller's page is in use, the new one was not
      cases hp
      have hother := hinv.pcs u
      cases hcu : st.pcs u with
      | fresh last' q =>
        rw [hcu] at hother hpu
        cases hpu
        exact hunused hother.2.used
      | linking last' q rid =>
        rw [hcu] at hother hpu
        cases hpu
        exact hunused hother.2.1.used
      | _ =>
        rw [hcu] at hpu
        cases hpu
    · cases h
      exact hinv.goto trivial rfl
  | fresh last newPid =>
    rw [hpc] at h hok
    simp only at h
    split at h
    · next slot page' hins =>
      cases h
      obtain ⟨hnext, hrow, hslots⟩ := insert_spec st.nextLsn hins
      have hf := Frame.place (P := fun _ => True) hinv.wf hinv.used hnext hslots
      refine hinv.of_frame ⟨hf.wf, hf.reaches, hf.used, fun p _ => hf.spare p trivial, hf.holds⟩ rfl
        ⟨hf.reaches last hok.1, hf.spare newPid trivial hok.2, rfl, ?_⟩ fun p hp u hu hpu => ?_
      · show ((st.pool.set newPid _).pages newPid).getTuple slot = _
        rw [BufferPool.set_pages_self]
        exact hrow
      · cases hp
        exact hu (hinv.apart u t newPid hpu (by rw [hpc]; rfl))
    · cases h
      exact hinv.goto trivial rfl
  | linking last newPid rid =>
    rw [hpc] at h hok
    obtain ⟨hlast, hspare, hrid, hholds⟩ := hok
    simp only [hfetch hlast] at h
    cases h
    have htail : (st.pool.pages last).nextPageId = NO_NEXT_PAGE := by
      simpa only [Clear, hpc] using hclear
    obtain ⟨hf, hreach⟩ := Frame.link (P := fun p => ∃ u, u ≠ t ∧ owns (st.pcs u) = some p)
      hinv.wf hinv.used hlast hspare htail (by
        rintro p ⟨u, hu, hpu⟩ rfl
        exact hu (hinv.apart u t p hpu (by rw [hpc]; rfl)))
    refine hinv.of_frame hf rfl ⟨hrid ▸ hreach, ?_⟩ fun p hp => by cases hp
    exact hf.holds rid _ (hrid ▸ hspare.used) hholds
  | done rid =>
    rw [hpc] at h
    cases h
  | failed e =>
    rw [hpc] at h
    cases h

theorem Inv.start {pool : BufferPool} {lsn : Nat} {hints : Fin n → Option Nat} (hwf : pool.WF)
    (hused : ∀ p, Reaches pool first p → pool.Used p)
    (hhints : ∀ t h, hints t = some h → Reaches pool first h) :
    Inv rows first (Appending.start n pool lsn first hints) := by
  refine ⟨hwf, hused, fun t => ?_, fun t u p h => by cases h⟩
  show Reaches pool first ((hints t).getD first)
  cases hh : hints t with
  | none => exact .refl
  | some h => exact hhints t h hh

end Appending

/-- **No append is lost.** Over every run of any number of `insert_bytes` calls on
one chain in which every link is made behind a page that still is the tail: the
row of every call that has returned is on a page of the chain, and every page
of the chain stays in it. -/
theorem appends_reachable (n : Nat) (rows : Fin n → HeapTuple) (pool : BufferPool)
    (lsn first : Nat) (hints : Fin n → Option Nat) (ls : List (Fin n)) (hwf : pool.WF)
    (hused : ∀ p, Reaches pool first p → pool.Used p)
    (hhints : ∀ t h, hints t = some h → Reaches pool first h)
    (hrun : Follows (Appending.step rows) Appending.Clear
      (Appending.start n pool lsn first hints) ls) :
    (∀ t rid, (after (Appending.step rows) (Appending.start n pool lsn first hints) ls).pcs t =
        .done rid →
      Reaches (after (Appending.step rows) (Appending.start n pool lsn first hints) ls).pool
          first rid.1 ∧
        ((after (Appending.step rows) (Appending.start n pool lsn first hints) ls).pool.pages
          rid.1).getTuple rid.2 = some (.heap (rows t))) ∧
    (∀ p, Reaches pool first p →
      Reaches (after (Appending.step rows) (Appending.start n pool lsn first hints) ls).pool
        first p) := by
  have key : Appending.Inv rows first
        (after (Appending.step rows) (Appending.start n pool lsn first hints) ls) ∧
      ∀ p, Reaches pool first p →
        Reaches (after (Appending.step rows) (Appending.start n pool lsn first hints) ls).pool
          first p := by
    refine hrun.invariant
      (I := fun st => Appending.Inv rows first st ∧
        ∀ p, Reaches pool first p → Reaches st.pool first p) ?_
      ⟨Appending.Inv.start hwf hused hhints, fun _ h => h⟩
    rintro st t st' ⟨hinv, hkeep⟩ hclear hstep
    obtain ⟨hinv', hkeep'⟩ := hinv.step hclear hstep
    exact ⟨hinv', fun p hp => hkeep' p (hkeep p hp)⟩
  refine ⟨fun t rid hpc => ?_, key.2⟩
  have hok := key.1.pcs t
  rw [hpc] at hok
  exact hok

/-- A row of 250 intervals, too large for two of them to share a page. -/
def wideRow (xmin : Nat) : HeapTuple := .mk' xmin 0 (List.replicate 250 (.interval 0 0 0))

/-- One heap page that holds one wide row. -/
def wideTable : BufferPool where
  pages := fun p => if p = 0 then (Page.new 0).push (.heap (wideRow 1)) else Page.new p
  pageCount := 1
  freeList := []
  diskPages := 10
  diskPages_le := by decide

theorem wideTable_reaches {p : Nat} (h : Reaches wideTable 0 p) : p = 0 := by
  induction h with
  | refl => rfl
  | tail _ hl ih =>
    subst ih
    exact absurd hl.1.symm hl.2

/-- The second caller walks again after the first has linked its page. -/
def oneAfterTheOther : List (Fin 2) :=
  haveI := neZero_two
  [0, 0, 0, 0, 0, 1, 1, 1, 1, 1, 1]

theorem appends_reachable_one_after_the_other :
    (after (Appending.step fun t : Fin 2 => wideRow (t + 2))
      (Appending.start 2 wideTable 1 0 fun _ => none) oneAfterTheOther).pcs 1 = .done (2, 0) ∧
    ∀ t rid, (after (Appending.step fun t : Fin 2 => wideRow (t + 2))
        (Appending.start 2 wideTable 1 0 fun _ => none) oneAfterTheOther).pcs t = .done rid →
      Reaches (after (Appending.step fun t : Fin 2 => wideRow (t + 2))
        (Appending.start 2 wideTable 1 0 fun _ => none) oneAfterTheOther).pool 0 rid.1 ∧
        ((after (Appending.step fun t : Fin 2 => wideRow (t + 2))
          (Appending.start 2 wideTable 1 0 fun _ => none) oneAfterTheOther).pool.pages
            rid.1).getTuple rid.2 = some (.heap (wideRow (t + 2))) := by
  refine ⟨by decide +kernel, ?_⟩
  exact (appends_reachable 2 (fun t => wideRow (t + 2)) wideTable 1 0 (fun _ => none)
    oneAfterTheOther ⟨List.nodup_nil, fun _ h => absurd h List.not_mem_nil, by decide⟩
    (fun _ h => by rw [wideTable_reaches h]; decide) (fun _ _ h => by cases h)
    (by decide +kernel)).1

/-- Both callers see page 0 as the tail and find it full. -/
def sameTail : List (Fin 2) :=
  haveI := neZero_two
  [0, 1, 0, 1, 0, 1, 0, 1, 0, 1]

/-- Both calls return, with rows on pages 1 and 2; the second link has replaced
the first, and page 1 is in no chain. -/
theorem append_lost_on_same_tail :
    ¬ ∀ (rows : Fin 2 → HeapTuple) (pool : BufferPool) (lsn first : Nat) (ls : List (Fin 2)),
      pool.WF → (∀ p, Reaches pool first p → pool.Used p) →
      Follows (Appending.step rows) (fun _ _ => True)
        (Appending.start 2 pool lsn first fun _ => none) ls →
      ∀ t rid, (after (Appending.step rows)
          (Appending.start 2 pool lsn first fun _ => none) ls).pcs t = .done rid →
        Reaches (after (Appending.step rows)
          (Appending.start 2 pool lsn first fun _ => none) ls).pool first rid.1 := by
  intro h
  -- the chain is page 0, then page 2, which is its end
  have hall : Follows (Appending.step fun t : Fin 2 => wideRow (t + 2)) (fun _ _ => True)
        (Appending.start 2 wideTable 1 0 fun _ => none) sameTail ∧
      let st := after (Appending.step fun t : Fin 2 => wideRow (t + 2))
        (Appending.start 2 wideTable 1 0 fun _ => none) sameTail
      st.pcs 0 = .done (1, 0) ∧ (st.pool.pages 0).nextPageId = 2 ∧
        (st.pool.pages 2).nextPageId = NO_NEXT_PAGE := by
    decide +kernel
  obtain ⟨hrun, hdone, hzero, htwo⟩ := hall
  have hreach := h (fun t => wideRow (t + 2)) wideTable 1 0 sameTail
    ⟨List.nodup_nil, fun _ h => absurd h List.not_mem_nil, by decide⟩
    (fun _ h => by rw [wideTable_reaches h]; decide) hrun 0 (1, 0) hdone
  generalize after (Appending.step fun t : Fin 2 => wideRow (t + 2))
    (Appending.start 2 wideTable 1 0 fun _ => none) sameTail = st at hreach hzero htwo
  have honly : ∀ p, Reaches st.pool 0 p → p = 0 ∨ p = 2 := by
    intro p hp
    induction hp with
    | refl => exact Or.inl rfl
    | tail _ hl ih =>
      rcases ih with rfl | rfl
      · exact Or.inr (hl.1.symm.trans hzero)
      · exact absurd (hl.1.symm.trans htwo) hl.2
  rcases honly 1 hreach with h | h <;> cases h

end Ccdb
