import Ccdb.Lib.BPlusTree

/-!
# B+trees some of whose leaves are off the leaf chain

A leaf taken out of the chain stays below its parent. `on` tells the leaves
of the chain from those taken out; `Woven` says of the leaf level that the
chain links each of its leaves to the next one, and that a leaf off the chain
is empty and still leads to a place further right with nothing but leaves off
the chain in front of it.

Main results:

* `Woven.path` — from any leaf the links pass all entries to the right of it.
* `Woven.chain` — from a leaf of the chain they pass the chain.
* `Woven.replace`, `Woven.unlink` — a leaf of the chain is replaced, or taken
  out of the chain.
-/

namespace BPlus

variable {ι K V : Type}

/-! ## Links over leaves that are off the chain -/

/-- The first leaf of the chain, or `last`. -/
def firstOn (on : ι → Bool) (last : ι) (ls : List (Leaf ι K V)) : ι :=
  ((ls.find? fun M => on M.id).map Leaf.id).getD last

/-- `p` is a leaf in front of which all leaves are off the chain, or the end
when all of them are. -/
def Lands (on : ι → Bool) (last p : ι) : List (Leaf ι K V) → Prop
  | [] => p = last
  | M :: rest => p = M.id ∨ on M.id = false ∧ Lands on last p rest

/-- The link of `L` in front of `rest`. -/
structure LinkOk (on : ι → Bool) (last : ι) (L : Leaf ι K V) (rest : List (Leaf ι K V)) : Prop where
  chained : on L.id = true → L.next = firstOn on last rest
  skipped : on L.id = false → L.entries = [] ∧ Lands on last L.next rest

def Woven (on : ι → Bool) (last : ι) : List (Leaf ι K V) → Prop
  | [] => True
  | L :: rest => LinkOk on last L rest ∧ Woven on last rest

variable {on on' : ι → Bool} {last p : ι} {L M M' : Leaf ι K V} {a b b' rest : List (Leaf ι K V)}

theorem firstOn_cons_on (hM : on M.id = true) : firstOn on last (M :: rest) = M.id := by
  simp [firstOn, hM]

theorem firstOn_append_off (ha : ∀ L ∈ a, on L.id = false) :
    firstOn on last (a ++ b) = firstOn on last b := by
  have hnone : (a.find? fun M => on M.id) = none := by
    rw [List.find?_eq_none]
    exact fun L hL => by simp [ha L hL]
  rw [firstOn, List.find?_append, hnone, Option.none_or, firstOn]

/-- Nothing behind a leaf of the chain matters to what is in front of it. -/
theorem firstOn_cut (ha : ∀ L ∈ a, on' L.id = on L.id) (hM : on M.id = true) (hM' : on' M'.id = true)
    (hid : M'.id = M.id) : firstOn on' last (a ++ M' :: b') = firstOn on last (a ++ M :: b) := by
  induction a with
  | nil => rw [List.nil_append, List.nil_append, firstOn_cons_on hM, firstOn_cons_on hM', hid]
  | cons L a ih =>
    have ih := ih fun L hL => ha L (List.mem_cons_of_mem _ hL)
    have hL := ha L List.mem_cons_self
    simp only [firstOn] at ih
    cases h : on L.id with
    | true => simp [firstOn, hL, h]
    | false => simpa [firstOn, hL, h] using ih

theorem firstOn_congr (h : ∀ L ∈ a, on' L.id = on L.id) :
    firstOn on' last a = firstOn on last a := by
  induction a with
  | nil => rfl
  | cons L a ih =>
    have ih := ih fun L hL => h L (List.mem_cons_of_mem _ hL)
    simp only [firstOn] at ih
    cases hL : on L.id with
    | true => simp [firstOn, h L List.mem_cons_self, hL]
    | false => simpa [firstOn, h L List.mem_cons_self, hL] using ih

/-- Either no leaf is on the chain, or there is a first one. -/
theorem firstOn_cases (on : ι → Bool) (last : ι) (ls : List (Leaf ι K V)) :
    ((∀ L ∈ ls, on L.id = false) ∧ firstOn on last ls = last) ∨
      ∃ mid C b, ls = mid ++ C :: b ∧ (∀ L ∈ mid, on L.id = false) ∧ on C.id = true ∧
        firstOn on last ls = C.id := by
  induction ls with
  | nil => exact Or.inl ⟨by simp, rfl⟩
  | cons L ls ih =>
    cases hL : on L.id with
    | true => exact Or.inr ⟨[], L, ls, rfl, by simp, hL, firstOn_cons_on hL⟩
    | false =>
      have hskip : firstOn on last (L :: ls) = firstOn on last ls :=
        firstOn_append_off (a := [L]) (by simpa using hL)
      rcases ih with ⟨hoff, hend⟩ | ⟨mid, C, b, rfl, hmid, hC, hfirst⟩
      · exact Or.inl ⟨by simpa [hL] using hoff, hskip.trans hend⟩
      · exact Or.inr ⟨L :: mid, C, b, rfl, by simpa [hL] using hmid, hC, hskip.trans hfirst⟩

theorem lands_firstOn (on : ι → Bool) (last : ι) (ls : List (Leaf ι K V)) :
    Lands on last (firstOn on last ls) ls := by
  induction ls with
  | nil => rfl
  | cons L ls ih =>
    cases hL : on L.id with
    | true => exact Or.inl (firstOn_cons_on hL)
    | false =>
      have hskip : firstOn on last (L :: ls) = firstOn on last ls :=
        firstOn_append_off (a := [L]) (by simpa using hL)
      exact Or.inr ⟨hL, hskip ▸ ih⟩

/-- More leaves off the chain are more leaves to pass. -/
theorem Lands.mono (hoff : ∀ L ∈ a, on L.id = false → on' L.id = false)
    (h : Lands on last p a) : Lands on' last p a := by
  induction a with
  | nil => exact h
  | cons L a ih =>
    refine h.imp_right fun ⟨hL, hrest⟩ => ⟨hoff L List.mem_cons_self hL, ?_⟩
    exact ih (fun L hL => hoff L (List.mem_cons_of_mem _ hL)) hrest

theorem Lands.cut (ha : ∀ L ∈ a, on' L.id = on L.id) (hM : on M.id = true) (hid : M'.id = M.id)
    (h : Lands on last p (a ++ M :: b)) : Lands on' last p (a ++ M' :: b') := by
  induction a with
  | nil =>
    refine Or.inl ?_
    rw [hid]
    exact h.resolve_right fun hoff => by simp [hM] at hoff
  | cons L a ih =>
    refine h.imp_right fun ⟨hL, hrest⟩ => ⟨(ha L List.mem_cons_self).trans hL, ?_⟩
    exact ih (fun L hL => ha L (List.mem_cons_of_mem _ hL)) hrest

theorem LinkOk.lands (h : LinkOk on last L rest) : Lands on last L.next rest := by
  cases hL : on L.id with
  | true => exact h.chained hL ▸ lands_firstOn on last rest
  | false => exact (h.skipped hL).2

/-! ## Following the links -/

/-- The links from where a link lands pass all the entries. -/
theorem Lands.path (hwoven : Woven on last rest) (h : Lands on last p rest) :
    ∃ ls, ls.Sublist rest ∧ (ls.head?.map Leaf.id).getD last = p ∧ Linked last ls ∧
      ls.flatMap Leaf.entries = rest.flatMap Leaf.entries := by
  induction rest generalizing p with
  | nil => exact ⟨[], List.Sublist.refl _, h.symm, trivial, rfl⟩
  | cons M rest ih =>
    obtain ⟨hM, hrest⟩ := hwoven
    rcases h with rfl | ⟨hoff, hland⟩
    · obtain ⟨ls, hsub, hhead, hlinked, hes⟩ := ih hrest hM.lands
      exact ⟨M :: ls, hsub.cons_cons M, rfl, ⟨hhead.symm, hlinked⟩, by simp [hes]⟩
    · obtain ⟨ls, hsub, hhead, hlinked, hes⟩ := ih hrest hland
      refine ⟨ls, hsub.cons M, hhead, hlinked, ?_⟩
      rw [List.flatMap_cons, (hM.skipped hoff).1, List.nil_append]
      exact hes

/-- **From any leaf** the links pass all entries to the right of it. -/
theorem Woven.path (h : Woven on last (L :: rest)) :
    ∃ ls, ls.Sublist rest ∧ Linked last (L :: ls) ∧
      ls.flatMap Leaf.entries = rest.flatMap Leaf.entries := by
  obtain ⟨ls, hsub, hhead, hlinked, hes⟩ := h.1.lands.path h.2
  exact ⟨ls, hsub, ⟨hhead.symm, hlinked⟩, hes⟩

/-- **The chain** is linked and has all entries. -/
theorem Woven.chain (h : Woven on last a) : Linked last (a.filter fun L => on L.id) ∧
    ((a.filter fun L => on L.id).head?.map Leaf.id).getD last = firstOn on last a ∧
    (a.filter fun L => on L.id).flatMap Leaf.entries = a.flatMap Leaf.entries := by
  induction a with
  | nil => exact ⟨trivial, rfl, rfl⟩
  | cons L a ih =>
    obtain ⟨hlinked, hhead, hes⟩ := ih h.2
    cases hL : on L.id with
    | true =>
      rw [List.filter_cons_of_pos (by simpa using hL)]
      refine ⟨⟨(h.1.chained hL).trans hhead.symm, hlinked⟩, ?_, by simp [hes]⟩
      simp [firstOn_cons_on hL]
    | false =>
      rw [List.filter_cons_of_neg (by simp [hL])]
      have hskip : firstOn on last (L :: a) = firstOn on last a :=
        firstOn_append_off (a := [L]) (by simpa using hL)
      refine ⟨hlinked, hhead.trans hskip.symm, ?_⟩
      rw [hes, List.flatMap_cons, (h.1.skipped hL).1, List.nil_append]

theorem Woven.suffix (h : Woven on last (a ++ b)) : Woven on last b := by
  induction a with
  | nil => exact h
  | cons L a ih => exact ih h.2

/-! ## Changes at one leaf of the chain -/

theorem Woven.congr (hon : ∀ L ∈ a, on' L.id = on L.id) (h : Woven on last a) :
    Woven on' last a := by
  induction a with
  | nil => exact h
  | cons L a ih =>
    have hL := hon L List.mem_cons_self
    have ha : ∀ L ∈ a, on' L.id = on L.id := fun L hL => hon L (List.mem_cons_of_mem _ hL)
    refine ⟨⟨fun hon => ?_, fun hoff => ?_⟩, ih ha h.2⟩
    · rw [firstOn_congr ha]
      exact h.1.chained (hL ▸ hon)
    · obtain ⟨hes, hland⟩ := h.1.skipped (hL ▸ hoff)
      exact ⟨hes, hland.mono fun M hM hoff => (ha M hM).trans hoff⟩

/-- **A leaf of the chain** and everything behind it may be replaced. -/
theorem Woven.replace (ha : ∀ L ∈ a, on' L.id = on L.id) (hM : on M.id = true)
    (hM' : on' M'.id = true) (hid : M'.id = M.id) (h : Woven on last (a ++ M :: b))
    (hnew : Woven on' last (M' :: b')) : Woven on' last (a ++ M' :: b') := by
  induction a with
  | nil => exact hnew
  | cons L a ih =>
    have hL := ha L List.mem_cons_self
    have ha : ∀ L ∈ a, on' L.id = on L.id := fun L hL => ha L (List.mem_cons_of_mem _ hL)
    refine ⟨⟨fun hon => ?_, fun hoff => ?_⟩, ih ha h.2⟩
    · exact (h.1.chained (hL ▸ hon)).trans (firstOn_cut ha hM hM' hid).symm
    · obtain ⟨hes, hland⟩ := h.1.skipped (hL ▸ hoff)
      exact ⟨hes, hland.cut ha hM hid⟩

variable [DecidableEq ι]

/-- The chain without the leaf `q`. -/
def offChain (on : ι → Bool) (q : ι) : ι → Bool := fun p => on p && decide (p ≠ q)

theorem offChain_of_ne {q : ι} (h : p ≠ q) : offChain on q p = on p := by
  simp [offChain, h]

theorem offChain_self (q : ι) : offChain on q q = false := by
  simp [offChain]

/-- An empty leaf of the chain is passed over from now on. -/
theorem Woven.skip {mid : List (Leaf ι K V)} {C : Leaf ι K V} (hC : on C.id = true)
    (hes : C.entries = []) (hmid : ∀ L ∈ mid, on L.id = false) (hb : ∀ L ∈ b, L.id ≠ C.id)
    (h : Woven on last (mid ++ C :: b)) : Woven (offChain on C.id) last (mid ++ C :: b) := by
  have hon : ∀ L ∈ b, offChain on C.id L.id = on L.id := fun L hL => offChain_of_ne (hb L hL)
  induction mid with
  | nil =>
    obtain ⟨hlink, hrest⟩ := h
    refine ⟨⟨fun hself => ?_, fun _ => ⟨hes, ?_⟩⟩, hrest.congr hon⟩
    · simp [offChain_self] at hself
    · rw [hlink.chained hC, ← firstOn_congr hon]
      exact lands_firstOn _ _ _
  | cons L mid ih =>
    have hL := hmid L List.mem_cons_self
    have hoff : offChain on C.id L.id = false := by simp [offChain, hL]
    obtain ⟨hentries, hland⟩ := h.1.skipped hL
    refine ⟨⟨fun hself => ?_, fun _ => ⟨hentries, hland.mono fun M _ hM => ?_⟩⟩,
      ih (fun L hL => hmid L (List.mem_cons_of_mem _ hL)) h.2⟩
    · simp [hoff] at hself
    · simp [offChain, hM]

omit [DecidableEq ι] in
theorem ids_ne {mid : List (Leaf ι K V)} {P C : Leaf ι K V}
    (hnd : ((a ++ P :: (mid ++ C :: b)).map Leaf.id).Nodup) :
    (∀ L ∈ a, L.id ≠ C.id) ∧ P.id ≠ C.id ∧ ∀ L ∈ b, L.id ≠ C.id := by
  simp only [List.map_append, List.map_cons] at hnd
  obtain ⟨-, hback, hcross⟩ := List.nodup_append.1 hnd
  obtain ⟨hPback, hback⟩ := List.nodup_cons.1 hback
  obtain ⟨-, hCb, -⟩ := List.nodup_append.1 hback
  refine ⟨fun L hL => hcross L.id (List.mem_map_of_mem hL) C.id (by simp), fun heq => ?_,
    fun L hL heq => (List.nodup_cons.1 hCb).1 (heq ▸ List.mem_map_of_mem hL)⟩
  exact hPback (by simp [heq])

/-- **An empty leaf is taken out of the chain** by linking the leaf before it
past it. -/
theorem Woven.unlink {mid : List (Leaf ι K V)} {P C : Leaf ι K V}
    (hnd : ((a ++ P :: (mid ++ C :: b)).map Leaf.id).Nodup) (hP : on P.id = true)
    (hC : on C.id = true) (hes : C.entries = []) (hmid : ∀ L ∈ mid, on L.id = false)
    (h : Woven on last (a ++ P :: (mid ++ C :: b))) :
    Woven (offChain on C.id) last (a ++ { P with next := C.next } :: (mid ++ C :: b)) := by
  obtain ⟨ha, hPC, hb⟩ := ids_ne hnd
  have hPon : offChain on C.id P.id = true := (offChain_of_ne hPC).trans hP
  have hsuffix : Woven on last (mid ++ C :: b) := (h.suffix (b := P :: (mid ++ C :: b))).2
  refine h.replace (fun L hL => offChain_of_ne (ha L hL)) hP hPon rfl
    ⟨⟨fun _ => ?_, fun hoff => ?_⟩, hsuffix.skip hC hes hmid hb⟩
  · have hCb : LinkOk on last C b := (hsuffix.suffix (b := C :: b)).1
    have hoff : ∀ L ∈ mid ++ [C], offChain on C.id L.id = false := by
      intro L hL
      rcases List.mem_append.1 hL with hL | hL
      · simp [offChain, hmid L hL]
      · rw [List.mem_singleton.1 hL, offChain_self]
    rw [List.append_cons mid C b, firstOn_append_off hoff,
      firstOn_congr fun L hL => offChain_of_ne (hb L hL)]
    exact hCb.chained hC
  · simp [hPon] at hoff

/-- A leaf of the chain splits; the new leaf is on the chain. -/
theorem Woven.split {q : ι} {x y : List (K × V)} (hq : ∀ L ∈ a ++ M :: b, L.id ≠ q)
    (hM : on M.id = true) (h : Woven on last (a ++ M :: b)) :
    Woven (fun p => decide (p = q) || on p) last (a ++ ⟨M.id, q, x⟩ :: ⟨q, M.next, y⟩ :: b) := by
  have hon : ∀ L ∈ a ++ M :: b, (decide (L.id = q) || on L.id) = on L.id := fun L hL => by
    simp [hq L hL]
  have hbon : ∀ L ∈ b, (decide (L.id = q) || on L.id) = on L.id := fun L hL => hon L (by simp [hL])
  have hnew : Woven (fun p => decide (p = q) || on p) last
      ((⟨M.id, q, x⟩ : Leaf ι K V) :: ⟨q, M.next, y⟩ :: b) := by
    refine ⟨⟨fun _ => ?_, fun hoff => ?_⟩, ⟨fun _ => ?_, fun hoff => ?_⟩, ?_⟩
    · rw [firstOn_cons_on (by simp)]
    · simp [hM] at hoff
    · rw [firstOn_congr hbon]
      exact (h.suffix (b := M :: b)).1.chained hM
    · simp at hoff
    · exact ((h.suffix (b := M :: b)).2).congr hbon
  exact h.replace (fun L hL => hon L (by simp [hL])) hM (by simp [hM]) rfl hnew

/-! ## Changing every leaf -/

/-- The tree with every leaf changed. -/
def Tree.mapLeaves (f : Leaf ι K V → Leaf ι K V) : (d : Nat) → Tree ι K V d → Tree ι K V d
  | 0, t => f t
  | d + 1, t => Node.mk (Node.id t) ((Node.kids t).map (mapLeaves f d))

omit [DecidableEq ι] in
theorem Tree.flat_mapLeaves (f : Leaf ι K V → Leaf ι K V) : ∀ (d : Nat) (t : Tree ι K V d),
    (t.mapLeaves f d).flat d = (t.flat d).map f
  | 0, _ => rfl
  | d + 1, t => by
    show ((Node.kids t).map (mapLeaves f d)).bind (flat d) = ((Node.kids t).bind (flat d)).map f
    rw [SepList.bind_map, SepList.map_bind]
    exact congrArg _ (funext (flat_mapLeaves f d))

omit [DecidableEq ι] in
theorem Tree.rootId_mapLeaves {f : Leaf ι K V → Leaf ι K V} (hf : ∀ L, (f L).id = L.id) :
    ∀ (d : Nat) (t : Tree ι K V d), (t.mapLeaves f d).rootId = t.rootId
  | 0, t => hf t
  | _ + 1, _ => rfl

omit [DecidableEq ι] in
theorem Tree.ids_mapLeaves {f : Leaf ι K V → Leaf ι K V} (hf : ∀ L, (f L).id = L.id) :
    ∀ (d : Nat) (t : Tree ι K V d), (t.mapLeaves f d).ids d = t.ids d
  | 0, t => congrArg (fun i => [i]) (hf t)
  | d + 1, t => by
    show Node.id t :: ((Node.kids t).map (mapLeaves f d)).spell (ids d) (fun _ => []) =
      Node.id t :: (Node.kids t).spell (ids d) (fun _ => [])
    rw [SepList.spell_eq_flatMap_items, SepList.spell_eq_flatMap_items, SepList.items_map,
      List.flatMap_map, funext (ids_mapLeaves hf d)]

omit [DecidableEq ι] in
/-- Ranks are those of the entries and the separators. -/
theorem ranks_map {α : Type} {ρ : K → α} {f : Leaf ι K V → Leaf ι K V}
    (hf : ∀ L, (f L).entries = L.entries) (s : SepList K (Leaf ι K V)) :
    ranks ρ (s.map f) = ranks ρ s := by
  induction s with
  | single L => simp [ranks, SepList.map, hf]
  | cons L k s ih =>
    simp only [ranks] at ih
    simp [ranks, SepList.map, hf, ih]

omit [DecidableEq ι] in
theorem entriesOf_map {f : Leaf ι K V → Leaf ι K V} (hf : ∀ L, (f L).entries = L.entries)
    (s : SepList K (Leaf ι K V)) : entriesOf (s.map f) = entriesOf s := by
  induction s with
  | single L => exact hf L
  | cons L k s ih =>
    simp only [entriesOf] at ih
    simp [entriesOf, SepList.map, hf, ih]

end BPlus
