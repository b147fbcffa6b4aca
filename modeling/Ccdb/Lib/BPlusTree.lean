import Ccdb.Lib.SepList
import Mathlib.Order.Defs.LinearOrder
import Mathlib.Order.Lattice
import Mathlib.Data.List.Pairwise

/-!
# B+trees over ranked keys

Trees of a fixed depth whose leaves hold entries and carry a link to the
next leaf. Keys of type `K` are ordered through a rank `ρ : K → α`; equal
ranks may occur more than once. `Ins` is insertion with splits at the
middle, as a relation between a tree and its outcome; what fits a page is a
parameter (`Capacity`).

The leaf level of a tree together with the separators of *all* levels is
one separated list, `flat`. Internal splits do not change it, so insertion
is a `graft` on it, and the search-tree invariant (`Ordered`) is the
sortedness of one list of ranks.

Main results:

* `ordered_graft` — inserting into the leaf the search ends at keeps the
  leaf level ordered.
* `nodeIns_flat` — an internal node that absorbs a split keeps `flat`,
  provided the new separator does not tie with the separator that follows.
* `Ins.flat_eq` — in a strictly separated tree an insertion is a graft at
  the leaf reached.
-/

namespace BPlus

variable {ι K V α : Type}

/-! ## Trees -/

structure Leaf (ι K V : Type) where
  id : ι
  next : ι
  entries : List (K × V)
deriving DecidableEq, Repr

structure Node (ι K C : Type) where
  id : ι
  kids : SepList K C

/-- Trees with all leaves at depth `d`. -/
def Tree (ι K V : Type) : Nat → Type
  | 0 => Leaf ι K V
  | d + 1 => Node ι K (Tree ι K V d)

def Tree.rootId : {d : Nat} → Tree ι K V d → ι
  | 0, t => Leaf.id t
  | _ + 1, t => Node.id t

/-- The leaf level with every separator of the tree in its place. -/
def Tree.flat : (d : Nat) → Tree ι K V d → SepList K (Leaf ι K V)
  | 0, t => .single t
  | d + 1, t => (Node.kids t).bind (flat d)

/-- The ids of all nodes. -/
def Tree.ids : (d : Nat) → Tree ι K V d → List ι
  | 0, t => [Leaf.id t]
  | d + 1, t => Node.id t :: (Node.kids t).spell (ids d) (fun _ => [])

theorem rootId_mem_ids : ∀ (d : Nat) (t : Tree ι K V d), t.rootId ∈ t.ids d
  | 0, _ => List.mem_singleton_self _
  | _ + 1, _ => List.mem_cons_self

theorem ids_node {d : Nat} (t : Tree ι K V (d + 1)) :
    t.ids (d + 1) = Node.id t :: (Node.kids t).items.flatMap (Tree.ids d) := by
  rw [← SepList.spell_eq_flatMap_items]
  rfl

theorem ids_length_pos : ∀ (d : Nat) (t : Tree ι K V d), d < (t.ids d).length
  | 0, _ => Nat.one_pos
  | d + 1, t => by
    have hchild := ids_length_pos d (Node.kids t).head
    rw [ids_node, SepList.items_eq]
    simp only [List.flatMap_cons, List.length_cons, List.length_append]
    omega

theorem flat_items_succ {d : Nat} (t : Tree ι K V (d + 1)) :
    (t.flat (d + 1)).items = (Node.kids t).items.flatMap fun c => (Tree.flat d c).items := by
  rw [← SepList.spell_eq_flatMap_items]
  exact SepList.spell_bind _ _ _ _

theorem leaf_id_mem_ids : ∀ (d : Nat) (t : Tree ι K V d), ∀ L ∈ (t.flat d).items, L.id ∈ t.ids d
  | 0, _, _, hL => by
    obtain rfl := List.mem_singleton.1 hL
    exact List.mem_singleton_self _
  | d + 1, t, L, hL => by
    rw [flat_items_succ, List.mem_flatMap] at hL
    obtain ⟨c, hc, hLc⟩ := hL
    have hmem := leaf_id_mem_ids d c L hLc
    rw [ids_node]
    exact List.mem_cons_of_mem _ (List.mem_flatMap.2 ⟨c, hc, hmem⟩)

theorem head_flat {d : Nat} (t : Tree ι K V (d + 1)) :
    (t.flat (d + 1)).head = (Tree.flat d (Node.kids t).head).head := by
  show ((Node.kids t).bind (Tree.flat d)).head = _
  cases Node.kids t with
  | single c => rfl
  | cons c k rest => rw [SepList.bind_cons, SepList.head_append]; rfl

/-- Leaves occur once in the tree. -/
theorem leaf_ids_sublist : ∀ (d : Nat) (t : Tree ι K V d),
    ((t.flat d).items.map Leaf.id).Sublist (t.ids d)
  | 0, _ => List.Sublist.refl _
  | d + 1, t => by
    rw [flat_items_succ, List.map_flatMap, ids_node]
    refine List.Sublist.cons _ ?_
    induction (Node.kids t).items with
    | nil => exact List.Sublist.refl _
    | cons c cs ih =>
      simp only [List.flatMap_cons]
      exact (leaf_ids_sublist d c).append ih

/-- The entries of the leaf level, in order. -/
def entriesOf (s : SepList K (Leaf ι K V)) : List (K × V) := s.spell Leaf.entries (fun _ => [])

/-- What inserting into a node gives its parent. -/
inductive Outcome (K T : Type) where
  | fit (t : T)
  | split (l : T) (sep : K) (r : T)

def Outcome.toSep {T : Type} : Outcome K T → SepList K T
  | fit t => .single t
  | split l sep r => .cons l sep (.single r)

/-! ## Insertion -/

/-- Put `x` before the first element that satisfies `gt`. -/
def insertBefore {E : Type} (gt : E → Bool) (x : E) : List E → List E
  | [] => [x]
  | e :: es => if gt e then x :: e :: es else e :: insertBefore gt x es

theorem insertBefore_eq {E : Type} (gt : E → Bool) (x : E) (es : List E) :
    ∃ a b, es = a ++ b ∧ insertBefore gt x es = a ++ x :: b ∧ (∀ e ∈ a, gt e = false) ∧
      (∀ e ∈ b.head?, gt e = true) := by
  induction es with
  | nil => exact ⟨[], [], rfl, rfl, by simp, by simp⟩
  | cons e es ih =>
    cases he : gt e with
    | true => exact ⟨[], e :: es, rfl, by simp [insertBefore, he], by simp, by simp [he]⟩
    | false =>
      obtain ⟨a, b, hes, hins, ha, hb⟩ := ih
      refine ⟨e :: a, b, by simp [hes], by simp [insertBefore, he, hins], ?_, hb⟩
      simpa [he] using ha

/-- What goes before nothing goes to the end. -/
theorem insertBefore_of_forall {E : Type} {gt : E → Bool} {x : E} :
    ∀ {es : List E}, (∀ e ∈ es, gt e = false) → insertBefore gt x es = es ++ [x]
  | [], _ => rfl
  | e :: es, h => by
    have hhead : ¬ gt e = true := by
      rw [h e List.mem_cons_self]
      exact Bool.false_ne_true
    rw [insertBefore, if_neg hhead, insertBefore_of_forall fun d hd => h d (List.mem_cons_of_mem e hd),
      List.cons_append]

theorem insertBefore_length {E : Type} (gt : E → Bool) (x : E) (es : List E) :
    (insertBefore gt x es).length = es.length + 1 := by
  obtain ⟨a, b, hes, hins, -, -⟩ := insertBefore_eq gt x es
  rw [hins, hes]
  simp only [List.length_append, List.length_cons]
  omega

theorem tail_insertSep {C : Type} (gt : K → Bool) (k : K) (r : C) (s : SepList K C) :
    (s.insertSep gt k r).tail = insertBefore (fun e => gt e.1) (k, r) s.tail := by
  induction s with
  | single c => rfl
  | cons c m rest ih =>
    by_cases hm : gt m
    · simp [SepList.insertSep, SepList.tail, SepList.head, insertBefore, hm]
    · simp [SepList.insertSep, SepList.tail, insertBefore, hm, ih, SepList.head_insertSep]

theorem seps_insertSep {C : Type} (gt : K → Bool) (k : K) (r : C) (s : SepList K C) :
    (s.insertSep gt k r).seps = insertBefore gt k s.seps := by
  induction s with
  | single c => rfl
  | cons c m rest ih =>
    by_cases hm : gt m
    · simp [SepList.insertSep, insertBefore, hm]
    · simp [SepList.insertSep, insertBefore, hm, ih]

/-- What fits on one page. -/
structure Capacity (K V : Type) where
  leafFits : List (K × V) → Prop
  nodeFits : List K → Prop

section Insertion

variable [LinearOrder α] (ρ : K → α) (cap : Capacity K V)

/-- The separators a search for `k` passes. -/
def upTo (k : K) : K → Bool := fun x => decide (ρ x ≤ ρ k)

/-- The keys that `k` is inserted before. -/
def beyond (k : K) : K → Bool := fun x => decide (ρ k < ρ x)

/-- A leaf's entries with `(k, v)` added after all entries of its rank. -/
def grow (k : K) (v : V) (es : List (K × V)) : List (K × V) :=
  insertBefore (fun e => beyond ρ k e.1) (k, v) es

/-- The pair is already there. -/
def Present (k : K) (v : V) (es : List (K × V)) : Prop := ∃ e ∈ es, ρ e.1 = ρ k ∧ e.2 = v

instance [DecidableEq V] (k : K) (v : V) (es : List (K × V)) : Decidable (Present ρ k v es) :=
  inferInstanceAs (Decidable (∃ e ∈ es, ρ e.1 = ρ k ∧ e.2 = v))

omit [LinearOrder α] in
theorem present_cons {k : K} {v : V} {e : K × V} {es : List (K × V)} :
    Present ρ k v (e :: es) ↔ (ρ e.1 = ρ k ∧ e.2 = v) ∨ Present ρ k v es := by
  simp only [Present, List.mem_cons, exists_eq_or_imp]

/-- Insertion into a leaf. The halves of a split must fit in their turn. -/
inductive LeafIns (L : Leaf ι K V) (k : K) (v : V) : Outcome K (Leaf ι K V) → Prop
  | present : Present ρ k v L.entries → LeafIns L k v (.fit L)
  | fit : ¬ Present ρ k v L.entries → cap.leafFits (grow ρ k v L.entries) →
      LeafIns L k v (.fit { L with entries := grow ρ k v L.entries })
  | split (newId : ι) (a b : List (K × V)) (e : K × V) : ¬ Present ρ k v L.entries →
      ¬ cap.leafFits (grow ρ k v L.entries) → grow ρ k v L.entries = a ++ e :: b →
      a.length = (grow ρ k v L.entries).length / 2 → cap.leafFits a → cap.leafFits (e :: b) →
      LeafIns L k v (.split ⟨L.id, newId, a⟩ e.1 ⟨newId, L.next, e :: b⟩)

/-- A node's children with the outcome of the child `k` is routed to. -/
def absorb {T : Type} (k : K) (s : SepList K T) : Outcome K T → SepList K T
  | .fit c => s.graft (upTo ρ k) (.single c)
  | .split l sep r => (s.graft (upTo ρ k) (.single l)).insertSep (beyond ρ sep) sep r

/-- An internal node that takes over its child's outcome. -/
inductive NodeIns {T : Type} (n : Node ι K T) (k : K) : Outcome K T → Outcome K (Node ι K T) → Prop
  | keep (c : T) : NodeIns n k (.fit c) (.fit ⟨n.id, absorb ρ k n.kids (.fit c)⟩)
  | fit (l r : T) (sep : K) : cap.nodeFits (absorb ρ k n.kids (.split l sep r)).seps →
      NodeIns n k (.split l sep r) (.fit ⟨n.id, absorb ρ k n.kids (.split l sep r)⟩)
  | split (l r : T) (sep : K) (newId : ι) (a b : SepList K T) (m : K) :
      ¬ cap.nodeFits (absorb ρ k n.kids (.split l sep r)).seps →
      absorb ρ k n.kids (.split l sep r) = a.append m b →
      a.seps.length = (absorb ρ k n.kids (.split l sep r)).seps.length / 2 →
      cap.nodeFits a.seps → cap.nodeFits b.seps →
      NodeIns n k (.split l sep r) (.split ⟨n.id, a⟩ m ⟨newId, b⟩)

/-- Insertion into a tree. -/
def Ins (k : K) (v : V) : (d : Nat) → Tree ι K V d → Outcome K (Tree ι K V d) → Prop
  | 0, t, o => LeafIns ρ cap t k v o
  | d + 1, t, o => ∃ oc, Ins k v d ((Node.kids t).route (upTo ρ k)) oc ∧ NodeIns ρ cap t k oc o

/-- Up to order, absorbing replaces the routed child by the outcome. -/
theorem absorb_items_perm {T : Type} (k : K) (s : SepList K T) (o : Outcome K T) :
    (absorb ρ k s o).items.Perm (s.before (upTo ρ k) (fun c => [c]) (fun _ => []) ++
      o.toSep.items ++ s.after (upTo ρ k) (fun c => [c]) (fun _ => [])) := by
  cases o with
  | fit c =>
    rw [absorb, SepList.items, SepList.spell_graft]
    exact List.Perm.refl _
  | split l sep r =>
    refine (SepList.items_insertSep_perm _ _ _ _).trans ?_
    rw [SepList.items, SepList.spell_graft]
    simp only [SepList.spell_single, Outcome.toSep, SepList.items_cons, SepList.items_single,
      List.append_assoc, List.cons_append, List.nil_append]
    have hmid : ∀ B A : List T, (r :: ((B ++ [l]) ++ A)).Perm ((B ++ [l]) ++ r :: A) :=
      fun _ _ => List.perm_middle.symm
    simpa using hmid _ _

/-- The left half of a split stays where the node was. -/
theorem Ins.rootId_head {k : K} {v : V} : ∀ (d : Nat) (t : Tree ι K V d)
    (o : Outcome K (Tree ι K V d)), Ins ρ cap k v d t o → o.toSep.head.rootId = t.rootId
  | 0, t, o, h => by
    have h : LeafIns ρ cap t k v o := h
    cases h <;> rfl
  | d + 1, t, o, h => by
    obtain ⟨oc, -, hn⟩ := h
    cases hn <;> rfl

/-- The separators of a node after its child split. -/
theorem absorb_seps {k : K} {v : V} {d : Nat} {s : SepList K (Tree ι K V d)} {l r : Tree ι K V d}
    {sep : K} (h : Ins ρ cap k v d (s.route (upTo ρ k)) (.split l sep r)) :
    (absorb ρ k s (.split l sep r)).seps = insertBefore (beyond ρ sep) sep s.seps := by
  have hroot : l.rootId = (s.route (upTo ρ k)).rootId := Ins.rootId_head ρ cap d _ _ h
  rw [absorb, seps_insertSep, ← SepList.seps_map Tree.rootId,
    SepList.map_graft_single Tree.rootId s hroot, SepList.seps_map]

/-- Splits made while inserting `(k, v)` leave halves that fit. -/
def SplitsFit (k : K) (v : V) : (d : Nat) → Tree ι K V d → Prop
  | 0, t => ¬ Present ρ k v (Leaf.entries t) → ¬ cap.leafFits (grow ρ k v (Leaf.entries t)) →
      let es := grow ρ k v (Leaf.entries t)
      cap.leafFits (es.take (es.length / 2)) ∧ cap.leafFits (es.drop (es.length / 2))
  | d + 1, t => SplitsFit k v d ((Node.kids t).route (upTo ρ k)) ∧
      ∀ l sep r, Ins ρ cap k v d ((Node.kids t).route (upTo ρ k)) (.split l sep r) →
        ¬ cap.nodeFits (insertBefore (beyond ρ sep) sep (Node.kids t).seps) →
        let ks := insertBefore (beyond ρ sep) sep (Node.kids t).seps
        cap.nodeFits (ks.take (ks.length / 2)) ∧ cap.nodeFits (ks.drop (ks.length / 2 + 1))

end Insertion

/-! ## Order -/

section Order

variable [LinearOrder α] (ρ : K → α) (strict : Bool)

/-- The ranks of the leaf level from left to right; separators are marked. -/
def ranks (s : SepList K (Leaf ι K V)) : List (α × Bool) :=
  s.spell (fun L => L.entries.map fun e => (ρ e.1, false)) (fun k => [(ρ k, true)])

/-- Two ranks in their place; in the strict reading everything before a
separator is below it. -/
def Prec (x y : α × Bool) : Prop := x.1 ≤ y.1 ∧ (strict = true → y.2 = true → x.1 < y.1)

/-- The search-tree invariant of a leaf level. -/
def Ordered (s : SepList K (Leaf ι K V)) : Prop := (ranks ρ s).Pairwise (Prec strict)

variable {ρ strict} {s : SepList K (Leaf ι K V)}

theorem prec_entry {x : α × Bool} {a : α} (h : x.1 ≤ a) : Prec strict x (a, false) :=
  ⟨h, fun _ hf => by cases hf⟩

theorem prec_of_lt {x y : α × Bool} (h : x.1 < y.1) : Prec strict x y := ⟨h.le, fun _ _ => h⟩

omit [LinearOrder α] in
theorem mem_ranks_of_mem_seps {y : K} (hy : y ∈ s.seps) : (ρ y, true) ∈ ranks ρ s := by
  induction s with
  | single c => simp at hy
  | cons c m rest ih =>
    rw [SepList.seps_cons, List.mem_cons] at hy
    rcases hy with rfl | hy
    · simp [ranks]
    · have := ih hy
      simp only [ranks] at this
      simp [ranks, this]

theorem ordered_seps (h : Ordered ρ strict s) :
    s.seps.Pairwise fun x y => ρ x ≤ ρ y ∧ (strict = true → ρ x < ρ y) := by
  induction s with
  | single L => simp
  | cons L k rest ih =>
    simp only [Ordered, ranks, SepList.spell_cons, List.append_assoc, List.singleton_append] at h ih
    obtain ⟨-, h, -⟩ := List.pairwise_append.1 h
    obtain ⟨hk, hrest⟩ := List.pairwise_cons.1 h
    rw [SepList.seps_cons, List.pairwise_cons]
    refine ⟨fun y hy => ?_, ih hrest⟩
    have hp := hk _ (mem_ranks_of_mem_seps hy)
    exact ⟨hp.1, fun hs => hp.2 hs rfl⟩

theorem Ordered.downClosed (h : Ordered ρ strict s) (k : K) :
    SepList.DownClosed (upTo ρ k) s.seps := by
  refine (ordered_seps h).imp fun {x y} hxy hy => ?_
  simp only [upTo, decide_eq_true_eq] at hy ⊢
  exact le_trans hxy.1 hy

/-- Ranks before the leaf a search for `k` ends at. -/
theorem Ordered.before_le (h : Ordered ρ strict s) {k : K} :
    ∀ w ∈ s.before (upTo ρ k) (fun L => L.entries.map fun e => (ρ e.1, false))
      (fun k => [(ρ k, true)]), w.1 ≤ ρ k ∧ (strict = true → w.2 = false → w.1 < ρ k) := by
  intro w hw
  rcases SepList.before_eq_concat (upTo ρ k)
      (fun L : Leaf ι K V => L.entries.map fun e => (ρ e.1, false)) (fun k => [(ρ k, true)]) s with
    ⟨hnil, -⟩ | ⟨pre, c, hpre, hc⟩
  · simp [hnil] at hw
  · simp only [upTo, decide_eq_true_eq] at hc
    rw [Ordered, ranks, SepList.spell_eq (upTo ρ k), hpre] at h
    rw [hpre, List.mem_append, List.mem_singleton] at hw
    rcases hw with hw | rfl
    · obtain ⟨h, -, -⟩ := List.pairwise_append.1 h
      obtain ⟨h, -, -⟩ := List.pairwise_append.1 h
      have hp := (List.pairwise_append.1 h).2.2 w hw (ρ c, true) (by simp)
      exact ⟨le_trans hp.1 hc, fun hs _ => lt_of_lt_of_le (hp.2 hs rfl) hc⟩
    · exact ⟨hc, fun _ hf => by cases hf⟩

/-- Ranks after the leaf a search for `k` ends at. -/
theorem Ordered.lt_after (h : Ordered ρ strict s) {k : K} :
    ∀ w ∈ s.after (upTo ρ k) (fun L => L.entries.map fun e => (ρ e.1, false))
      (fun k => [(ρ k, true)]), ρ k < w.1 := by
  intro w hw
  rcases SepList.after_eq_cons (upTo ρ k)
      (fun L : Leaf ι K V => L.entries.map fun e => (ρ e.1, false)) (fun k => [(ρ k, true)]) s with
    ⟨-, hnil⟩ | ⟨c, post, -, hpost, hc⟩
  · simp [hnil] at hw
  · simp only [upTo, decide_eq_false_iff_not, not_le] at hc
    rw [Ordered, ranks, SepList.spell_eq (upTo ρ k), hpost] at h
    rw [hpost, List.singleton_append, List.mem_cons] at hw
    rcases hw with rfl | hw
    · exact hc
    · obtain ⟨-, h, -⟩ := List.pairwise_append.1 h
      exact lt_of_lt_of_le hc ((List.pairwise_cons.1 h).1 w hw).1

theorem pairwise_insert {E : Type} {R : E → E → Prop} {p q : List E} {x : E}
    (h : (p ++ q).Pairwise R) (hp : ∀ w ∈ p, R w x) (hq : ∀ w ∈ q, R x w) :
    (p ++ x :: q).Pairwise R := by
  obtain ⟨h1, h2, h3⟩ := List.pairwise_append.1 h
  refine List.pairwise_append.2 ⟨h1, List.pairwise_cons.2 ⟨hq, h2⟩, fun a ha b hb => ?_⟩
  rcases List.mem_cons.1 hb with rfl | hb
  · exact hp a ha
  · exact h3 a ha b hb

/-- The new entry in its place, between what is before and after the leaf. -/
theorem pairwise_grow {B A : List (α × Bool)} {es : List (K × V)} {k : K} {v : V}
    (h : (B ++ es.map (fun e => (ρ e.1, false)) ++ A).Pairwise (Prec strict))
    (hB : ∀ w ∈ B, w.1 ≤ ρ k) (hA : ∀ w ∈ A, ρ k < w.1) :
    (B ++ (grow ρ k v es).map (fun e => (ρ e.1, false)) ++ A).Pairwise (Prec strict) := by
  obtain ⟨a, b, hes, hgrow, ha, hb⟩ := insertBefore_eq (fun e => beyond ρ k e.1) (k, v) es
  rw [grow, hgrow]
  simp only [hes, List.map_append, List.map_cons, List.append_assoc, List.cons_append] at h ⊢
  simp only [← List.append_assoc B] at h ⊢
  refine pairwise_insert h (fun w hw => prec_entry ?_) (fun w hw => prec_of_lt ?_)
  · rcases List.mem_append.1 hw with hw | hw
    · exact hB w hw
    · obtain ⟨e, he, rfl⟩ := List.mem_map.1 hw
      simpa [beyond] using ha e he
  · rcases List.mem_append.1 hw with hw | hw
    · -- the first entry of `b` is beyond `k`, the others are not below it
      obtain ⟨e, he, rfl⟩ := List.mem_map.1 hw
      obtain ⟨-, h, -⟩ := List.pairwise_append.1 h
      cases b with
      | nil => simp at he
      | cons f b =>
        have hf : ρ k < ρ f.1 := by simpa [beyond] using hb f rfl
        rcases List.mem_cons.1 he with rfl | he
        · exact hf
        · rw [List.map_cons, List.cons_append, List.pairwise_cons] at h
          refine lt_of_lt_of_le hf (h.1 (ρ e.1, false) ?_).1
          exact List.mem_append_left _ (List.mem_map.2 ⟨e, he, rfl⟩)
    · exact hA w hw

/-- A sorted leaf stays sorted. -/
theorem grow_sorted {es : List (K × V)} {k : K} {v : V}
    (h : es.Pairwise fun x y => ρ x.1 ≤ ρ y.1) :
    (grow ρ k v es).Pairwise fun x y => ρ x.1 ≤ ρ y.1 := by
  have hranks : ([] ++ es.map (fun e : K × V => (ρ e.1, false)) ++ []).Pairwise (Prec false) := by
    rw [List.nil_append, List.append_nil, List.pairwise_map]
    exact h.imp fun h => prec_entry h
  have hg := pairwise_grow (k := k) (v := v) hranks (by simp) (by simp)
  rw [List.nil_append, List.append_nil, List.pairwise_map] at hg
  exact hg.imp fun h => h.1

theorem mem_grow {es : List (K × V)} {k : K} {v : V} {e : K × V} (h : e ∈ grow ρ k v es) :
    e = (k, v) ∨ e ∈ es := by
  obtain ⟨a, b, hes, hins, -, -⟩ := insertBefore_eq (fun e => beyond ρ k e.1) (k, v) es
  rw [grow, hins] at h
  rw [hes]
  simp only [List.mem_append, List.mem_cons] at h ⊢
  tauto

/-- A key goes between what is not above it and what is. -/
theorem grow_between {k : K} {v : V} {a b : List (K × V)} (ha : ∀ e ∈ a, ρ e.1 ≤ ρ k)
    (hb : ∀ e ∈ b, ρ k < ρ e.1) : grow ρ k v (a ++ b) = a ++ (k, v) :: b := by
  induction a with
  | nil =>
    cases b with
    | nil => rfl
    | cons e b => simp [grow, insertBefore, beyond, hb e List.mem_cons_self]
  | cons e a ih =>
    have hrest := ih fun x hx => ha x (List.mem_cons_of_mem _ hx)
    have hle := ha e List.mem_cons_self
    rw [grow] at hrest
    simp only [grow, List.cons_append, insertBefore, beyond, not_lt.2 hle, decide_false,
      Bool.false_eq_true, if_false]
    exact congrArg (e :: ·) hrest

/-- If the leaf has to split for `(k, v)`, the cut separates no equal keys. -/
def CleanCut (ρ : K → α) (cap : Capacity K V) (k : K) (v : V) (es : List (K × V)) : Prop :=
  ¬ Present ρ k v es → ¬ cap.leafFits (grow ρ k v es) → ∀ a e b, grow ρ k v es = a ++ e :: b →
    a.length = (grow ρ k v es).length / 2 → ∀ x ∈ a, ρ x.1 < ρ e.1

/-- **Insertion at the leaf reached keeps the leaf level ordered.** -/
theorem ordered_graft {cap : Capacity K V} {k : K} {v : V}
    {o : Outcome K (Leaf ι K V)} (h : Ordered ρ strict s)
    (hins : LeafIns ρ cap (s.route (upTo ρ k)) k v o)
    (hcut : strict = true → CleanCut ρ cap k v (s.route (upTo ρ k)).entries) :
    Ordered ρ strict (s.graft (upTo ρ k) o.toSep) := by
  have hB := fun w hw => (h.before_le (k := k) w hw).1
  have hA := h.lt_after (k := k)
  have h0 := h
  rw [Ordered, ranks, SepList.spell_eq (upTo ρ k)] at h
  have hgrow := pairwise_grow (v := v) h hB hA
  rw [Ordered, ranks, SepList.spell_graft]
  cases hins with
  | present _ => exact h
  | fit _ _ => exact hgrow
  | split newId a b e hnot hfull hab hlen hfa hfb =>
    have ha : a ≠ [] := by
      rintro rfl
      exact hfull (by rw [hab]; exact hfb)
    rw [hab] at hgrow
    simp only [Outcome.toSep, SepList.spell_cons, SepList.spell_single, List.map_append,
      List.map_cons, List.append_assoc, List.cons_append, List.nil_append] at hgrow ⊢
    simp only [← List.append_assoc (SepList.before _ _ _ _)] at hgrow ⊢
    obtain ⟨hl, hr, hcross⟩ := List.pairwise_append.1 hgrow
    -- the separator repeats the first rank of the right half
    refine pairwise_insert hgrow (fun w hw => ⟨(hcross w hw _ List.mem_cons_self).1, fun hs _ => ?_⟩)
      (fun w hw => ?_)
    · have hcut := hcut hs hnot hfull a e b hab hlen
      rcases List.mem_append.1 hw with hwB | hwa
      · obtain ⟨x, hx⟩ := List.exists_mem_of_ne_nil a ha
        refine lt_of_le_of_lt ?_ (hcut x hx)
        exact ((List.pairwise_append.1 hl).2.2 w hwB (ρ x.1, false) (List.mem_map.2 ⟨x, hx, rfl⟩)).1
      · obtain ⟨x, hx, rfl⟩ := List.mem_map.1 hwa
        exact hcut x hx
    · rcases List.mem_cons.1 hw with rfl | hw
      · exact prec_entry le_rfl
      · exact (List.pairwise_cons.1 hr).1 w hw

/-! ## Insertion is a graft on the leaf level -/

/-- A separator that lands right after the routed child and does not tie
with the next one is where `insertSep` puts it. -/
theorem absorb_split_eq {T : Type} {s : SepList K T} {k sep : K} {l r : T}
    (hs : s.seps.Pairwise fun x y => ρ x ≤ ρ y)
    (hsep : (s.graft (upTo ρ k) (.cons l sep (.single r))).seps.Pairwise fun x y => ρ x ≤ ρ y)
    (htie : ∀ x, s.nextSep (upTo ρ k) = some x → ρ sep ≠ ρ x) :
    absorb ρ k s (.split l sep r) = s.graft (upTo ρ k) (.cons l sep (.single r)) := by
  rw [absorb]
  refine SepList.insertSep_graft s fun x hx => ?_
  rw [SepList.seps, SepList.spell_graft, ← SepList.seps] at hsep
  rw [SepList.seps, SepList.spell_eq (upTo ρ k)] at hs hx
  simp only [List.append_nil, SepList.seps_cons, SepList.seps_single, List.append_assoc,
    List.singleton_append] at hs hsep hx
  obtain ⟨-, hright, hcross⟩ := List.pairwise_append.1 hsep
  rcases List.mem_append.1 hx with hx | hx
  · have hle := SepList.le_of_mem_before s hx
    have hxs := hcross x hx sep List.mem_cons_self
    simp [hle, beyond, hxs]
  · rcases SepList.after_eq_cons (upTo ρ k) (fun _ : T => []) (fun k => [k]) s with
      ⟨-, hnil⟩ | ⟨c, post, hnext, hpost, hc⟩
    · simp [hnil] at hx
    · -- everything after the routed child is at or beyond the next separator
      have hcx : ρ c ≤ ρ x := by
        rw [hpost, List.singleton_append] at hs hx
        rcases List.mem_cons.1 hx with rfl | hx
        · exact le_rfl
        · exact (List.pairwise_cons.1 (List.pairwise_append.1 hs).2.1).1 x hx
      have hsc : ρ sep ≤ ρ c := (List.pairwise_cons.1 hright).1 c (by simp [hpost])
      have hlt : ρ sep < ρ c := lt_of_le_of_ne hsc (htie c hnext)
      have hkx : ¬ ρ x ≤ ρ k := by
        simp only [upTo, decide_eq_false_iff_not] at hc
        exact fun hxk => hc (le_trans hcx hxk)
      simp [beyond, upTo, hkx, lt_of_lt_of_le hlt hcx]

/-- The separators of one node, read in a refinement of its children. -/
theorem pairwise_seps_of_ordered_bind {T : Type} {s : SepList K T}
    {h : T → SepList K (Leaf ι K V)} (hord : Ordered ρ strict (s.bind h)) :
    s.seps.Pairwise fun x y => ρ x ≤ ρ y ∧ (strict = true → ρ x < ρ y) :=
  (ordered_seps hord).sublist (SepList.seps_sublist_bind s h)

/-- **A node that absorbs its child's outcome** changes the leaf level below
it exactly as the child does. -/
theorem nodeIns_flat {T : Type} {cap : Capacity K V} {n : Node ι K T}
    {h : T → SepList K (Leaf ι K V)} {k : K} {oc : Outcome K T} {o : Outcome K (Node ι K T)}
    {g : SepList K (Leaf ι K V)} (hord : Ordered ρ strict (n.kids.bind h))
    (hgord : Ordered ρ strict ((n.kids.bind h).graft (upTo ρ k) g))
    (hc : oc.toSep.bind h = (h (n.kids.route (upTo ρ k))).graft (upTo ρ k) g)
    (htie : ∀ l sep r, oc = .split l sep r →
      ∀ x, n.kids.nextSep (upTo ρ k) = some x → ρ sep ≠ ρ x)
    (hn : NodeIns ρ cap n k oc o) :
    o.toSep.bind (fun m => m.kids.bind h) = (n.kids.bind h).graft (upTo ρ k) g := by
  have hbind := SepList.bind_graft h n.kids oc.toSep g (hord.downClosed k) hc
  have habs : ∀ l sep r, oc = .split l sep r →
      absorb ρ k n.kids (.split l sep r) = n.kids.graft (upTo ρ k) (.cons l sep (.single r)) := by
    rintro l sep r rfl
    rw [← hbind] at hgord
    exact absorb_split_eq ((pairwise_seps_of_ordered_bind hord).imp fun h => h.1)
      ((pairwise_seps_of_ordered_bind hgord).imp fun h => h.1) (htie l sep r rfl)
  cases hn with
  | keep c => exact hbind
  | fit l r sep _ =>
    rw [Outcome.toSep, SepList.bind_single, habs l sep r rfl]
    exact hbind
  | split l r sep newId a b m _ hcut _ _ _ =>
    rw [habs l sep r rfl] at hcut
    rw [Outcome.toSep, SepList.bind_cons, SepList.bind_single, ← SepList.bind_append, ← hcut]
    exact hbind

/-- In a strictly separated leaf level a split never ties. -/
theorem no_tie_of_strict {T : Type} {s : SepList K T} {h : T → SepList K (Leaf ι K V)} {k sep x : K}
    {l r : T}
    (hord : Ordered ρ true ((s.graft (upTo ρ k) (.cons l sep (.single r))).bind h))
    (hx : s.nextSep (upTo ρ k) = some x) : ρ sep ≠ ρ x := by
  have hs := pairwise_seps_of_ordered_bind hord
  rw [SepList.nextSep_eq_head_after] at hx
  rw [SepList.seps, SepList.spell_graft] at hs
  have hmem := List.mem_of_mem_head? hx
  have hpair := (List.pairwise_append.1 hs).2.2 sep (by simp) x hmem
  exact (hpair.2 rfl).ne

/-- The leaf a search for `k` ends at. -/
def Tree.descend (ρ : K → α) (k : K) : (d : Nat) → Tree ι K V d → Leaf ι K V
  | 0, t => t
  | d + 1, t => descend ρ k d ((Node.kids t).route (upTo ρ k))

theorem ordered_of_route {T : Type} {s : SepList K T} {h : T → SepList K (Leaf ι K V)}
    {le : K → Bool} (hord : Ordered ρ strict (s.bind h)) : Ordered ρ strict (h (s.route le)) := by
  rw [Ordered, ranks, SepList.spell_bind, SepList.spell_eq le] at hord
  exact (List.pairwise_append.1 (List.pairwise_append.1 hord).1).2.1

theorem Tree.descend_eq_route {k : K} : ∀ (d : Nat) (t : Tree ι K V d),
    Ordered ρ strict (t.flat d) → t.descend ρ k d = (t.flat d).route (upTo ρ k)
  | 0, _, _ => rfl
  | d + 1, t, h => by
    rw [descend, flat, SepList.route_bind _ _ (h.downClosed k)]
    exact descend_eq_route d _ (ordered_of_route h)

/-- **Insertion into a strictly separated tree** is a graft at the leaf the
search ends at, as long as the split there separates no equal keys. -/
theorem Ins.flat_eq {cap : Capacity K V} {k : K} {v : V} : ∀ (d : Nat) (t : Tree ι K V d)
    (o : Outcome K (Tree ι K V d)), Ins ρ cap k v d t o → Ordered ρ true (t.flat d) →
    CleanCut ρ cap k v (t.descend ρ k d).entries →
    ∃ g, LeafIns ρ cap (t.descend ρ k d) k v g ∧
      o.toSep.bind (Tree.flat d) = (t.flat d).graft (upTo ρ k) g.toSep
  | 0, t, o, hins, _, _ => by
    refine ⟨o, hins, ?_⟩
    cases o <;> rfl
  | d + 1, t, o, hins, hord, hcut => by
    obtain ⟨oc, hoc, hn⟩ := hins
    obtain ⟨g, hg, hflat⟩ := flat_eq d _ oc hoc (ordered_of_route hord) hcut
    refine ⟨g, hg, ?_⟩
    rw [Tree.descend_eq_route _ t hord] at hcut
    have hgord := ordered_graft (o := g) hord
      (by rw [← Tree.descend_eq_route _ t hord]; exact hg) (fun _ => hcut)
    refine nodeIns_flat hord hgord hflat (fun l sep r hoc x hx => ?_) hn
    subst hoc
    have hbind := SepList.bind_graft _ _ _ _ (hord.downClosed k) hflat
    refine no_tie_of_strict (h := Tree.flat d) (l := l) (r := r) ?_ hx
    exact hbind ▸ hgord

/-! ## Whole trees -/

/-- The tree after an insertion: a split of the root adds a level. -/
inductive Rooted {d : Nat} : Outcome K (Tree ι K V d) → (d' : Nat) → Tree ι K V d' → Prop
  | fit (t : Tree ι K V d) : Rooted (.fit t) d t
  | split (l r : Tree ι K V d) (sep : K) (id : ι) :
      Rooted (.split l sep r) (d + 1) (Node.mk id (.cons l sep (.single r)))

omit [LinearOrder α] in
theorem Rooted.flat_eq {d d' : Nat} {o : Outcome K (Tree ι K V d)} {t' : Tree ι K V d'}
    (h : Rooted o d' t') : t'.flat d' = o.toSep.bind (Tree.flat d) := by
  cases h <;> rfl

omit [LinearOrder α] in
theorem Rooted.of_fit {d : Nat} {t : Tree ι K V d} {P : (d' : Nat) → Tree ι K V d' → Prop}
    {d' : Nat} {t' : Tree ι K V d'} (h : Rooted (.fit t) d' t') (hp : P d' t') : P d t := by
  cases h
  exact hp

omit [LinearOrder α] in
theorem Rooted.of_split {d : Nat} {l r : Tree ι K V d} {sep : K}
    {P : (d' : Nat) → Tree ι K V d' → Prop} {d' : Nat} {t' : Tree ι K V d'}
    (h : Rooted (.split l sep r) d' t') (hp : P d' t') :
    ∃ id, P (d + 1) (Node.mk id (.cons l sep (.single r))) := by
  cases h
  exact ⟨_, hp⟩

/-- Change the leaf a search for `k` ends at. -/
def Tree.update (ρ : K → α) (k : K) (f : Leaf ι K V → Leaf ι K V) :
    (d : Nat) → Tree ι K V d → Tree ι K V d
  | 0, t => f t
  | d + 1, t => Node.mk (Node.id t) ((Node.kids t).graft (upTo ρ k)
      (.single (update ρ k f d ((Node.kids t).route (upTo ρ k)))))

theorem Tree.flat_update {k : K} {f : Leaf ι K V → Leaf ι K V} : ∀ (d : Nat) (t : Tree ι K V d),
    Ordered ρ strict (t.flat d) →
    (t.update ρ k f d).flat d = (t.flat d).graft (upTo ρ k) (.single (f (t.descend ρ k d)))
  | 0, _, _ => rfl
  | d + 1, t, h => SepList.bind_graft (Tree.flat d) (Node.kids t) _ _ (h.downClosed k)
      (flat_update d _ (ordered_of_route h))

theorem Tree.ids_update {k : K} {f : Leaf ι K V → Leaf ι K V} (hf : ∀ L, (f L).id = L.id) :
    ∀ (d : Nat) (t : Tree ι K V d), (t.update ρ k f d).ids d = t.ids d
  | 0, t => congrArg (fun i => [i]) (hf t)
  | d + 1, t => by
    show Node.id t :: ((Node.kids t).graft (upTo ρ k) (.single _)).spell (ids d) (fun _ => []) =
      Node.id t :: (Node.kids t).spell (ids d) (fun _ => [])
    rw [SepList.spell_graft, SepList.spell_single, ids_update hf d,
      ← SepList.spell_eq (upTo ρ k)]

theorem Tree.update_eq_self {k : K} {f : Leaf ι K V → Leaf ι K V} : ∀ (d : Nat) (t : Tree ι K V d),
    f (t.descend ρ k d) = t.descend ρ k d → t.update ρ k f d = t
  | 0, _, h => h
  | d + 1, t, h => by
    show Node.mk (Node.id t) ((Node.kids t).graft (upTo ρ k) (.single _)) = t
    rw [update_eq_self d _ h, SepList.graft_route]
    rfl

/-- Dropping entries of the leaf reached keeps the order. -/
theorem ordered_graft_sublist {k : K} {L : Leaf ι K V}
    (h : Ordered ρ strict s) (hL : L.entries.Sublist (s.route (upTo ρ k)).entries) :
    Ordered ρ strict (s.graft (upTo ρ k) (.single L)) := by
  rw [Ordered, ranks, SepList.spell_eq (upTo ρ k)] at h
  rw [Ordered, ranks, SepList.spell_graft]
  refine h.sublist ?_
  exact ((List.Sublist.refl _).append (hL.map _)).append (List.Sublist.refl _)

/-! ## Contents -/

omit [LinearOrder α] in
theorem mem_before_ranks {le : K → Bool} {e : K × V}
    (he : e ∈ s.before le Leaf.entries (fun _ => [])) :
    (ρ e.1, false) ∈ s.before le (fun L => L.entries.map fun e => (ρ e.1, false))
      (fun k => [(ρ k, true)]) := by
  induction s with
  | single L => simp [SepList.before] at he
  | cons L k rest ih =>
    by_cases hk : le k
    · simp only [SepList.before, hk, if_true, List.append_nil, List.mem_append] at he ⊢
      rcases he with he | he
      · exact Or.inl (Or.inl (List.mem_map.2 ⟨e, he, rfl⟩))
      · exact Or.inr (ih he)
    · simp [SepList.before, hk] at he

omit [LinearOrder α] in
theorem mem_ranks_of_mem_entriesOf {e : K × V}
    (he : e ∈ entriesOf s) : (ρ e.1, false) ∈ ranks ρ s := by
  induction s with
  | single L => exact List.mem_map.2 ⟨e, he, rfl⟩
  | cons L k rest ih =>
    simp only [entriesOf, ranks, SepList.spell_cons, List.append_nil, List.mem_append] at he ih ⊢
    rcases he with he | he
    · exact Or.inl (Or.inl (List.mem_map.2 ⟨e, he, rfl⟩))
    · exact Or.inr (ih he)

omit [LinearOrder α] in
theorem mem_after_ranks {le : K → Bool} {e : K × V}
    (he : e ∈ s.after le Leaf.entries (fun _ => [])) :
    (ρ e.1, false) ∈ s.after le (fun L => L.entries.map fun e => (ρ e.1, false))
      (fun k => [(ρ k, true)]) := by
  induction s with
  | single L => simp [SepList.after] at he
  | cons L k rest ih =>
    by_cases hk : le k
    · simp only [SepList.after, hk, if_true] at he ⊢
      exact ih he
    · simp only [SepList.after, hk, Bool.false_eq_true, if_false, List.nil_append,
        List.mem_append] at he ⊢
      exact Or.inr (mem_ranks_of_mem_entriesOf he)

/-- The entries of an ordered leaf level are sorted. -/
theorem Ordered.entries_sorted (h : Ordered ρ strict s) :
    (entriesOf s).Pairwise fun x y => ρ x.1 ≤ ρ y.1 := by
  induction s with
  | single L =>
    rw [Ordered, ranks, SepList.spell_single, List.pairwise_map] at h
    exact h.imp fun hxy => hxy.1
  | cons L k rest ih =>
    simp only [Ordered, ranks, SepList.spell_cons] at h
    obtain ⟨hLk, hrest, hcross⟩ := List.pairwise_append.1 h
    have hL := (List.pairwise_append.1 hLk).1
    rw [List.pairwise_map] at hL
    simp only [entriesOf, SepList.spell_cons, List.append_nil]
    refine List.pairwise_append.2 ⟨hL.imp fun hxy => hxy.1, ih hrest, fun x hx y hy => ?_⟩
    exact (hcross (ρ x.1, false) (List.mem_append_left _ (List.mem_map.2 ⟨x, hx, rfl⟩))
      (ρ y.1, false) (mem_ranks_of_mem_entriesOf hy)).1

/-- The entries around the leaf a search for `k` ends at: in a strictly
separated leaf level only that leaf has entries of rank `ρ k`. -/
theorem Ordered.around (h : Ordered ρ true s) (k : K) :
    entriesOf s = s.before (upTo ρ k) Leaf.entries (fun _ => []) ++ (s.route (upTo ρ k)).entries ++
        s.after (upTo ρ k) Leaf.entries (fun _ => []) ∧
      (∀ e ∈ s.before (upTo ρ k) Leaf.entries (fun _ => []), ρ e.1 < ρ k) ∧
      ∀ e ∈ s.after (upTo ρ k) Leaf.entries (fun _ => []), ρ k < ρ e.1 := by
  refine ⟨SepList.spell_eq (upTo ρ k) _ _ _, fun e he => ?_, fun e he => ?_⟩
  · exact (h.before_le (k := k) _ (mem_before_ranks he)).2 rfl rfl
  · exact h.lt_after (k := k) _ (mem_after_ranks he)

theorem filter_takeWhile_sorted [DecidableEq α] {es : List (K × V)} {k : K}
    (h : es.Pairwise fun x y => ρ x.1 ≤ ρ y.1) :
    ((es.takeWhile fun e => upTo ρ k e.1).filter fun e => decide (ρ e.1 = ρ k)) =
      es.filter fun e => decide (ρ e.1 = ρ k) := by
  induction es with
  | nil => rfl
  | cons e es ih =>
    obtain ⟨he, hes⟩ := List.pairwise_cons.1 h
    by_cases hle : ρ e.1 ≤ ρ k
    · rw [List.takeWhile_cons_of_pos (by simpa [upTo] using hle), List.filter_cons, List.filter_cons,
        ih hes]
    · -- everything from here on is greater
      rw [List.takeWhile_cons_of_neg (by simpa [upTo] using hle)]
      symm
      rw [List.filter_nil, List.filter_eq_nil_iff]
      intro x hx
      have hkx : ρ k < ρ x.1 := by
        rcases List.mem_cons.1 hx with rfl | hx
        · exact not_le.1 hle
        · exact lt_of_lt_of_le (not_le.1 hle) (he x hx)
      simpa using hkx.ne'

/-- **Lookup is complete** in a strictly separated tree. -/
theorem Ordered.lookup_eq [DecidableEq α] (h : Ordered ρ true s) (k : K) :
    (((s.route (upTo ρ k)).entries.takeWhile fun e => upTo ρ k e.1).filter
      fun e => decide (ρ e.1 = ρ k)) = (entriesOf s).filter fun e => decide (ρ e.1 = ρ k) := by
  obtain ⟨heq, hbefore, hafter⟩ := h.around k
  have hsorted := h.entries_sorted
  rw [heq] at hsorted
  have hleaf := (List.pairwise_append.1 (List.pairwise_append.1 hsorted).1).2.1
  have h1 : (s.before (upTo ρ k) Leaf.entries (fun _ => [])).filter
      (fun e => decide (ρ e.1 = ρ k)) = [] := by
    rw [List.filter_eq_nil_iff]
    exact fun e he => by simpa using (hbefore e he).ne
  have h2 : (s.after (upTo ρ k) Leaf.entries (fun _ => [])).filter
      (fun e => decide (ρ e.1 = ρ k)) = [] := by
    rw [List.filter_eq_nil_iff]
    exact fun e he => by simpa using (hafter e he).ne'
  rw [filter_takeWhile_sorted hleaf, heq, List.filter_append, List.filter_append, h1, h2]
  simp

theorem dropWhile_sorted {es : List (K × V)} {k : K}
    (h : es.Pairwise fun x y => ρ x.1 ≤ ρ y.1) :
    (es.dropWhile fun e => !decide (ρ k ≤ ρ e.1)) = es.filter fun e => decide (ρ k ≤ ρ e.1) := by
  induction es with
  | nil => rfl
  | cons e es ih =>
    obtain ⟨he, hes⟩ := List.pairwise_cons.1 h
    by_cases hle : ρ k ≤ ρ e.1
    · rw [List.dropWhile_cons_of_neg (by simpa using hle)]
      symm
      rw [List.filter_eq_self]
      intro x hx
      rcases List.mem_cons.1 hx with rfl | hx
      · simpa using hle
      · simpa using le_trans hle (he x hx)
    · rw [List.dropWhile_cons_of_pos (by simpa using hle), ih hes]
      simp [hle]

/-- **Scanning** from the leaf reached passes exactly the entries of rank at
least `ρ k`. -/
theorem Ordered.scan_eq (h : Ordered ρ true s) (k : K) :
    (((s.route (upTo ρ k)).entries ++ s.after (upTo ρ k) Leaf.entries (fun _ => [])).dropWhile
      fun e => !decide (ρ k ≤ ρ e.1)) = (entriesOf s).filter fun e => decide (ρ k ≤ ρ e.1) := by
  obtain ⟨heq, hbefore, -⟩ := h.around k
  have hsorted := h.entries_sorted
  rw [heq, List.append_assoc] at hsorted
  have h1 : (s.before (upTo ρ k) Leaf.entries (fun _ => [])).filter
      (fun e => decide (ρ k ≤ ρ e.1)) = [] := by
    rw [List.filter_eq_nil_iff]
    exact fun e he => by simpa using hbefore e he
  rw [dropWhile_sorted (List.pairwise_append.1 hsorted).2.1, heq, List.append_assoc,
    List.filter_append (s.before _ _ _), h1, List.nil_append]

/-- Only the leaf reached can hold the pair. -/
theorem Ordered.present_iff (h : Ordered ρ true s) {k : K} {v : V} :
    Present ρ k v (s.route (upTo ρ k)).entries ↔ Present ρ k v (entriesOf s) := by
  obtain ⟨heq, hbefore, hafter⟩ := h.around k
  rw [heq]
  constructor
  · rintro ⟨e, he, hek⟩
    exact ⟨e, by simp [he], hek⟩
  · rintro ⟨e, he, hek⟩
    rcases List.mem_append.1 he with he | he
    · rcases List.mem_append.1 he with he | he
      · exact absurd hek.1 (hbefore e he).ne
      · exact ⟨e, he, hek⟩
    · exact absurd hek.1 (hafter e he).ne'

/-- What an insertion does to the entries of the leaf level. -/
theorem entriesOf_graft {cap : Capacity K V} {k : K} {v : V}
    {o : Outcome K (Leaf ι K V)} (h : LeafIns ρ cap (s.route (upTo ρ k)) k v o) :
    (Present ρ k v (s.route (upTo ρ k)).entries ∧
        entriesOf (s.graft (upTo ρ k) o.toSep) = entriesOf s) ∨
      (¬ Present ρ k v (s.route (upTo ρ k)).entries ∧
        (entriesOf (s.graft (upTo ρ k) o.toSep)).Perm ((k, v) :: entriesOf s)) := by
  have hgrow : ∀ B A : List (K × V), (B ++ grow ρ k v (s.route (upTo ρ k)).entries ++ A).Perm
      ((k, v) :: (B ++ (s.route (upTo ρ k)).entries ++ A)) := by
    intro B A
    obtain ⟨a, b, hes, hins, -, -⟩ := insertBefore_eq (fun e => beyond ρ k e.1) (k, v)
      (s.route (upTo ρ k)).entries
    rw [grow, hins, hes]
    have hmid : ((B ++ a) ++ (k, v) :: (b ++ A)).Perm ((k, v) :: ((B ++ a) ++ (b ++ A))) :=
      List.perm_middle
    simpa using hmid
  have hs : entriesOf s = _ := SepList.spell_eq (upTo ρ k) Leaf.entries (fun _ => []) s
  rw [hs, entriesOf, SepList.spell_graft]
  cases h with
  | present hp => exact Or.inl ⟨hp, rfl⟩
  | fit hnot _ => exact Or.inr ⟨hnot, hgrow _ _⟩
  | split newId a b e hnot _ hab _ _ _ =>
    refine Or.inr ⟨hnot, ?_⟩
    have hhalves : (Outcome.split (K := K) (T := Leaf ι K V) ⟨(s.route (upTo ρ k)).id, newId, a⟩ e.1
        ⟨newId, (s.route (upTo ρ k)).next, e :: b⟩).toSep.spell Leaf.entries (fun _ => []) =
          grow ρ k v (s.route (upTo ρ k)).entries := by
      simp [Outcome.toSep, hab]
    rw [hhalves]
    exact hgrow _ _

end Order

/-! ## The leaf chain -/

/-- Each leaf links to the next one and the last to `last`. -/
def Linked (last : ι) : List (Leaf ι K V) → Prop
  | [] => True
  | L :: rest => L.next = (rest.head?.map Leaf.id).getD last ∧ Linked last rest

theorem linked_append {last : ι} (a b : List (Leaf ι K V)) :
    Linked last (a ++ b) ↔ Linked ((b.head?.map Leaf.id).getD last) a ∧ Linked last b := by
  induction a with
  | nil => simp [Linked]
  | cons L a ih =>
    simp only [List.cons_append, Linked, ih]
    cases a with
    | nil => simp [and_assoc]
    | cons M a => simp [and_assoc]

theorem linked_graft [LinearOrder α] {ρ : K → α} {cap : Capacity K V} {last : ι}
    {s : SepList K (Leaf ι K V)} {k : K} {v : V} {o : Outcome K (Leaf ι K V)}
    (h : Linked last s.items) (hins : LeafIns ρ cap (s.route (upTo ρ k)) k v o) :
    Linked last (s.graft (upTo ρ k) o.toSep).items := by
  rw [SepList.items, SepList.spell_eq (upTo ρ k)] at h
  rw [SepList.items, SepList.spell_graft]
  rw [List.append_assoc] at h ⊢
  rw [linked_append, linked_append] at h ⊢
  obtain ⟨hpre, hmid, hpost⟩ := h
  cases hins with
  | present _ => exact ⟨hpre, hmid, hpost⟩
  | fit _ _ => exact ⟨hpre, hmid, hpost⟩
  | split newId a b e _ _ _ _ _ _ =>
    refine ⟨hpre, ?_, hpost⟩
    simpa [Outcome.toSep, Linked] using hmid

/-! ## First keys as separators -/

/-- The entries below a node, from left to right. -/
def entriesBelow (d : Nat) (t : Tree ι K V d) : List (K × V) := entriesOf (t.flat d)

/-- The first key of a subtree. -/
def firstKey (d : Nat) (t : Tree ι K V d) : Option K := (entriesBelow d t).head?.map Prod.fst

/-- Every separator of the tree is the first key of the child to its right. -/
def FirstKeys : (d : Nat) → Tree ι K V d → Prop
  | 0, _ => True
  | d + 1, t => (∀ e ∈ (Node.kids t).tail, firstKey d e.2 = some e.1) ∧
      ∀ c ∈ (Node.kids t).items, FirstKeys d c

section Separated

variable {le : K → K → Prop} (hrefl : ∀ k, le k k)

include hrefl

end Separated

end BPlus
