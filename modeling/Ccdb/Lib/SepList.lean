import Mathlib.Data.List.Basic

/-!
# Separated lists

A non-empty sequence of items with a separator between any two neighbours:
`c₀ k₁ c₁ k₂ c₂ …`. The children of a search-tree node are one, and so is
the leaf level of a whole search tree, with the separators of every level
in between. A test on separators that a search evaluates from left to right
(`route`) selects one item; `graft` replaces that item by a sequence.

Everything one may want to read off a separated list (its items, its
separators, the entries of its items) is an instance of `spell`, so what a
`graft` does to all of them is one lemma, `spell_graft`.
-/

/-- `c₀ k₁ c₁ … kₙ cₙ`. -/
inductive SepList (K C : Type) where
  | single (c : C)
  | cons (c : C) (k : K) (rest : SepList K C)
deriving DecidableEq, Repr

namespace SepList

variable {K C D W : Type}

/-! ## Reading -/

/-- The first item. -/
def head : SepList K C → C
  | single c => c
  | cons c _ _ => c

/-- Every item but the first, with the separator before it. -/
def tail : SepList K C → List (K × C)
  | single _ => []
  | cons _ k rest => (k, rest.head) :: rest.tail

def ofTail (c : C) : List (K × C) → SepList K C
  | [] => single c
  | (k, c') :: l => cons c k (ofTail c' l)

/-- Spell out the list: `f` on items, `g` on separators. -/
def spell (f : C → List W) (g : K → List W) : SepList K C → List W
  | single c => f c
  | cons c k rest => f c ++ g k ++ spell f g rest

/-- The items in order. -/
def items (s : SepList K C) : List C := s.spell (fun c => [c]) (fun _ => [])

/-- The separators in order. -/
def seps (s : SepList K C) : List K := s.spell (fun _ => []) (fun k => [k])

@[simp] theorem spell_single (f : C → List W) (g : K → List W) (c : C) :
    (single c).spell f g = f c := rfl

@[simp] theorem spell_cons (f : C → List W) (g : K → List W) (c : C) (k : K) (rest : SepList K C) :
    (cons c k rest).spell f g = f c ++ g k ++ rest.spell f g := rfl

@[simp] theorem items_single (c : C) : (single c : SepList K C).items = [c] := rfl

@[simp] theorem items_cons (c : C) (k : K) (rest : SepList K C) :
    (cons c k rest).items = c :: rest.items := rfl

@[simp] theorem seps_single (c : C) : (single c : SepList K C).seps = [] := rfl

@[simp] theorem seps_cons (c : C) (k : K) (rest : SepList K C) :
    (cons c k rest).seps = k :: rest.seps := rfl

theorem spell_eq_flatMap_items (f : C → List W) (s : SepList K C) :
    s.spell f (fun _ => []) = s.items.flatMap f := by
  induction s with
  | single c => simp
  | cons c k rest ih => simp [ih]

theorem items_eq (s : SepList K C) : s.items = s.head :: s.tail.map Prod.snd := by
  induction s with
  | single c => rfl
  | cons c k rest ih => simp [head, tail, ih]

theorem seps_eq (s : SepList K C) : s.seps = s.tail.map Prod.fst := by
  induction s with
  | single c => rfl
  | cons c k rest ih => simp [tail, ih]

/-- `a` and `b` with separator `k` between them. -/
def append : SepList K C → K → SepList K C → SepList K C
  | single c, k, b => cons c k b
  | cons c m a, k, b => cons c m (append a k b)

/-- Replace every item by a separated list. -/
def bind (s : SepList K C) (h : C → SepList K D) : SepList K D :=
  match s with
  | single c => h c
  | cons c k rest => (h c).append k (bind rest h)

@[simp] theorem bind_single (h : C → SepList K D) (c : C) : (single c).bind h = h c := rfl

@[simp] theorem bind_cons (h : C → SepList K D) (c : C) (k : K) (rest : SepList K C) :
    (cons c k rest).bind h = (h c).append k (rest.bind h) := rfl

@[simp] theorem spell_append (f : C → List W) (g : K → List W) (a : SepList K C) (k : K)
    (b : SepList K C) : (a.append k b).spell f g = a.spell f g ++ g k ++ b.spell f g := by
  induction a with
  | single c => rfl
  | cons c m a ih => simp [append, ih]

@[simp] theorem items_append (a : SepList K C) (k : K) (b : SepList K C) :
    (a.append k b).items = a.items ++ b.items := by
  simp [items]

@[simp] theorem seps_append (a : SepList K C) (k : K) (b : SepList K C) :
    (a.append k b).seps = a.seps ++ k :: b.seps := by
  simp [seps]

@[simp] theorem head_append (a : SepList K C) (k : K) (b : SepList K C) :
    (a.append k b).head = a.head := by
  cases a <;> rfl

theorem tail_append (a : SepList K C) (k : K) (b : SepList K C) :
    (a.append k b).tail = a.tail ++ (k, b.head) :: b.tail := by
  induction a with
  | single c => rfl
  | cons c m a ih => simp [append, tail, ih]

theorem append_assoc (a : SepList K C) (k : K) (b : SepList K C) (m : K) (c : SepList K C) :
    (a.append k b).append m c = a.append k (b.append m c) := by
  induction a with
  | single x => rfl
  | cons x n a ih => simp [append, ih]

theorem bind_append (h : C → SepList K D) (a : SepList K C) (k : K) (b : SepList K C) :
    (a.append k b).bind h = (a.bind h).append k (b.bind h) := by
  induction a with
  | single c => rfl
  | cons c m a ih => simp [append, ih, append_assoc]

theorem spell_bind (f : D → List W) (g : K → List W) (s : SepList K C) (h : C → SepList K D) :
    (s.bind h).spell f g = s.spell (fun c => (h c).spell f g) g := by
  induction s with
  | single c => rfl
  | cons c k rest ih => simp [ih]

/-- The separators of the list itself are among those of every refinement. -/
theorem seps_sublist_bind (s : SepList K C) (h : C → SepList K D) :
    s.seps.Sublist (s.bind h).seps := by
  induction s with
  | single c => simp
  | cons c k rest ih =>
    simp only [bind_cons, seps_append, seps_cons]
    exact List.sublist_append_of_sublist_right (ih.cons_cons k)

theorem append_inj {a a' b b' : SepList K C} {k k' : K} (h : a.append k b = a'.append k' b')
    (hlen : a.seps.length = a'.seps.length) : a = a' ∧ k = k' ∧ b = b' := by
  induction a generalizing a' with
  | single c =>
    cases a' with
    | single c' => simpa [append] using h
    | cons c' m a' => simp at hlen
  | cons c m a ih =>
    cases a' with
    | single c' => simp at hlen
    | cons c' m' a' =>
      simp only [append, cons.injEq] at h
      obtain ⟨rfl, rfl, h⟩ := h
      obtain ⟨rfl, hk, hb⟩ := ih h (by simpa using hlen)
      exact ⟨rfl, hk, hb⟩

/-- A list with more than `n` separators is cut at separator `n`. -/
theorem exists_append_of_lt (s : SepList K C) (n : Nat) (h : n < s.seps.length) :
    ∃ a k b, s = append a k b ∧ a.seps.length = n := by
  induction s generalizing n with
  | single c => simp at h
  | cons c k rest ih =>
    cases n with
    | zero => exact ⟨single c, k, rest, rfl, rfl⟩
    | succ n =>
      obtain ⟨a, m, b, hab, hn⟩ := ih n (by simpa using h)
      exact ⟨cons c k a, m, b, by simp [append, hab], by simp [hn]⟩

def map (f : C → D) : SepList K C → SepList K D
  | single c => single (f c)
  | cons c k rest => cons (f c) k (map f rest)

@[simp] theorem seps_map (f : C → D) (s : SepList K C) : (s.map f).seps = s.seps := by
  induction s with
  | single c => rfl
  | cons c k rest ih => simp [map, ih]

@[simp] theorem items_map (f : C → D) (s : SepList K C) : (s.map f).items = s.items.map f := by
  induction s with
  | single c => rfl
  | cons c k rest ih => simp [map, ih]

theorem length_tail_map (f : C → D) (s : SepList K C) : (s.map f).tail.length = s.tail.length := by
  have h := congrArg List.length (seps_map f s)
  simpa [seps_eq] using h

theorem map_append (f : C → D) (a : SepList K C) (k : K) (b : SepList K C) :
    (a.append k b).map f = (a.map f).append k (b.map f) := by
  induction a with
  | single c => rfl
  | cons c m a ih => simp [append, map, ih]

theorem map_map {E : Type} (f : C → D) (g : D → E) (s : SepList K C) :
    (s.map f).map g = s.map fun c => g (f c) := by
  induction s with
  | single c => rfl
  | cons c k rest ih => simp [map, ih]

theorem bind_map (f : C → D) {E : Type} (h : D → SepList K E) (s : SepList K C) :
    (s.map f).bind h = s.bind fun c => h (f c) := by
  induction s with
  | single c => rfl
  | cons c k rest ih => simp [map, ih]

theorem map_bind {E : Type} (f : D → E) (h : C → SepList K D) (s : SepList K C) :
    (s.bind h).map f = s.bind fun c => (h c).map f := by
  induction s with
  | single c => rfl
  | cons c k rest ih => simp [map_append, ih]

theorem ofTail_eq (s : SepList K C) : ofTail s.head s.tail = s := by
  induction s with
  | single c => rfl
  | cons c k rest ih =>
    rw [tail, ofTail, ih]
    rfl

/-! ## Routing -/

/-- The item a left-to-right search ends at: it passes separators as long
as they satisfy `le`. -/
def route (le : K → Bool) : SepList K C → C
  | single c => c
  | cons c k rest => if le k then route le rest else c

/-- Replace the item that `route` ends at by the separated list `g`. -/
def graft (le : K → Bool) : SepList K C → SepList K C → SepList K C
  | single _, g => g
  | cons c k rest, g => if le k then cons c k (graft le rest g) else g.append k rest

/-- Put `(k, r)` before the first separator that satisfies `gt`. -/
def insertSep (gt : K → Bool) (k : K) (r : C) : SepList K C → SepList K C
  | single c => cons c k (single r)
  | cons c m rest => if gt m then cons c k (cons r m rest) else cons c m (insertSep gt k r rest)

/-- The separator that follows the routed item. -/
def nextSep (le : K → Bool) : SepList K C → Option K
  | single _ => none
  | cons _ k rest => if le k then nextSep le rest else some k

/-- What `spell` puts before the routed item. -/
def before (le : K → Bool) (f : C → List W) (g : K → List W) : SepList K C → List W
  | single _ => []
  | cons c k rest => if le k then f c ++ g k ++ before le f g rest else []

/-- What `spell` puts after the routed item. -/
def after (le : K → Bool) (f : C → List W) (g : K → List W) : SepList K C → List W
  | single _ => []
  | cons _ k rest => if le k then after le f g rest else g k ++ rest.spell f g

variable {le : K → Bool}

/-- **Grafting in any reading** of the list changes only the routed item. -/
theorem spell_graft (f : C → List W) (g : K → List W) (t s : SepList K C) :
    (s.graft le t).spell f g = s.before le f g ++ t.spell f g ++ s.after le f g := by
  induction s with
  | single c => simp [graft, before, after]
  | cons c k rest ih =>
    by_cases hk : le k
    · simp [graft, before, after, hk, ih]
    · simp [graft, before, after, hk]

theorem graft_route (le : K → Bool) (s : SepList K C) : s.graft le (single (s.route le)) = s := by
  induction s with
  | single c => rfl
  | cons c k rest ih =>
    by_cases hk : le k
    · simp [graft, route, hk, ih]
    · simp [graft, route, hk, append]

theorem spell_eq (le : K → Bool) (f : C → List W) (g : K → List W) (s : SepList K C) :
    s.spell f g = s.before le f g ++ f (s.route le) ++ s.after le f g := by
  conv_lhs => rw [← graft_route le s]
  rw [spell_graft, spell_single]

/-- The separators of a graft are those of both lists. -/
theorem seps_graft (le : K → Bool) (t s : SepList K C) :
    ∃ a b, s.seps = a ++ b ∧ (s.graft le t).seps = a ++ t.seps ++ b := by
  refine ⟨s.before le (fun _ => []) fun k => [k], s.after le (fun _ => []) fun k => [k], ?_, ?_⟩
  · rw [seps, spell_eq le, List.append_nil]
  · rw [seps, spell_graft]
    rfl

theorem seps_graft_single (le : K → Bool) (c : C) (s : SepList K C) :
    (s.graft le (single c)).seps = s.seps := by
  obtain ⟨a, b, hs, hg⟩ := seps_graft le (single c) s
  rw [hg, hs, seps_single, List.append_nil]

theorem after_flatMap (le : K → Bool) (f : C → List W) (s : SepList K C) :
    (s.after le (fun c => [c]) (fun _ => [])).flatMap f = s.after le f (fun _ => []) := by
  induction s with
  | single c => rfl
  | cons c k rest ih =>
    by_cases hk : le k
    · simp [after, hk, ih]
    · simp only [after, hk, Bool.false_eq_true, if_false, List.nil_append]
      rw [spell_eq_flatMap_items f]
      rfl

theorem route_mem_items (s : SepList K C) : s.route le ∈ s.items := by
  have h : s.items = _ := spell_eq le (fun c => [c]) (fun _ => []) s
  rw [h]
  simp

theorem route_append_of_not {a b : SepList K C} {k : K} (hk : le k = false) :
    (a.append k b).route le = a.route le := by
  induction a with
  | single c => simp [append, route, hk]
  | cons c m a ih => simp [append, route, ih]

theorem route_append_of_all {a b : SepList K C} {k : K} (ha : ∀ x ∈ a.seps, le x = true)
    (hk : le k = true) : (a.append k b).route le = b.route le := by
  induction a with
  | single c => simp [append, route, hk]
  | cons c m a ih =>
    simp only [seps_cons, List.mem_cons, forall_eq_or_imp] at ha
    simp [append, route, ha.1, ih ha.2]

theorem graft_append_of_not {a b t : SepList K C} {k : K} (hk : le k = false) :
    (a.append k b).graft le t = (a.graft le t).append k b := by
  induction a with
  | single c => simp [append, graft, hk]
  | cons c m a ih =>
    by_cases hm : le m
    · simp [append, graft, hm, ih]
    · simp [append, graft, hm, append_assoc]

theorem graft_append_of_all {a b t : SepList K C} {k : K} (ha : ∀ x ∈ a.seps, le x = true)
    (hk : le k = true) : (a.append k b).graft le t = a.append k (b.graft le t) := by
  induction a with
  | single c => simp [append, graft, hk]
  | cons c m a ih =>
    simp only [seps_cons, List.mem_cons, forall_eq_or_imp] at ha
    simp [append, graft, ha.1, ih ha.2]

/-- Separators that `le` passes come before those it does not. -/
def DownClosed (le : K → Bool) (ks : List K) : Prop :=
  ks.Pairwise fun a b => le b = true → le a = true

theorem downClosed_append_cons {a b : List K} {k : K} (h : DownClosed le (a ++ k :: b)) :
    DownClosed le b ∧ (le k = true → ∀ x ∈ a, le x = true) := by
  obtain ⟨-, hkb, hcross⟩ := List.pairwise_append.1 h
  exact ⟨(List.pairwise_cons.1 hkb).2, fun hk x hx => hcross x hx k List.mem_cons_self hk⟩

/-- Searching the refined list is searching the list, then the item. -/
theorem route_bind (h : C → SepList K D) (s : SepList K C) (hd : DownClosed le (s.bind h).seps) :
    (s.bind h).route le = (h (s.route le)).route le := by
  induction s with
  | single c => rfl
  | cons c k rest ih =>
    rw [bind_cons, seps_append] at hd
    obtain ⟨hrest, hall⟩ := downClosed_append_cons hd
    cases hk : le k with
    | true => rw [bind_cons, route_append_of_all (hall hk) hk, ih hrest]; simp [route, hk]
    | false => rw [bind_cons, route_append_of_not hk]; simp [route, hk]

/-- Grafting in the refined list is grafting in the list, when the new
piece refines to the graft of the old item. -/
theorem bind_graft (h : C → SepList K D) (s t : SepList K C) (t' : SepList K D)
    (hd : DownClosed le (s.bind h).seps) (ht : t.bind h = (h (s.route le)).graft le t') :
    (s.graft le t).bind h = (s.bind h).graft le t' := by
  induction s with
  | single c => exact ht
  | cons c k rest ih =>
    rw [bind_cons, seps_append] at hd
    obtain ⟨hrest, hall⟩ := downClosed_append_cons hd
    cases hk : le k with
    | true =>
      simp only [route, hk, if_true] at ht
      rw [bind_cons, graft_append_of_all (hall hk) hk]
      simp [graft, hk, ih hrest ht]
    | false =>
      simp only [route, hk, Bool.false_eq_true, if_false] at ht
      rw [bind_cons, graft_append_of_not hk]
      simp [graft, hk, bind_append, ht]

/-- A separator that falls between the routed item and its successor is
inserted right after the item. -/
theorem insertSep_graft {gt : K → Bool} {k : K} {l r : C} (s : SepList K C)
    (h : ∀ x ∈ s.seps, gt x = !le x) :
    (s.graft le (single l)).insertSep gt k r = s.graft le (cons l k (single r)) := by
  induction s with
  | single c => rfl
  | cons c m rest ih =>
    simp only [seps_cons, List.mem_cons, forall_eq_or_imp] at h
    by_cases hm : le m
    · simp [graft, insertSep, hm, h.1, ih h.2]
    · simp [graft, insertSep, hm, h.1, append]

theorem route_map (f : C → D) (s : SepList K C) : (s.map f).route le = f (s.route le) := by
  induction s with
  | single c => rfl
  | cons c k rest ih =>
    by_cases hk : le k
    · simp [map, route, hk, ih]
    · simp [map, route, hk]

/-- Replacing an item by one with the same image does not change the image. -/
theorem map_graft_single (f : C → D) (s : SepList K C) {c : C} (hc : f c = f (s.route le)) :
    (s.graft le (single c)).map f = s.map f := by
  induction s with
  | single d => simp [graft, map, hc, route]
  | cons d k rest ih =>
    by_cases hk : le k
    · simp only [route, hk, if_true] at hc
      simp [graft, map, hk, ih hc]
    · simp only [route, hk, Bool.false_eq_true, if_false] at hc
      simp [graft, map, hk, append, hc]

theorem map_insertSep (f : C → D) (gt : K → Bool) (k : K) (r : C) (s : SepList K C) :
    (s.insertSep gt k r).map f = (s.map f).insertSep gt k (f r) := by
  induction s with
  | single c => rfl
  | cons c m rest ih =>
    by_cases hm : gt m
    · simp [insertSep, map, hm]
    · simp [insertSep, map, hm, ih]

theorem head_insertSep (gt : K → Bool) (k : K) (r : C) (s : SepList K C) :
    (s.insertSep gt k r).head = s.head := by
  cases s with
  | single c => rfl
  | cons c m rest =>
    by_cases hm : gt m
    · simp [insertSep, hm, head]
    · simp [insertSep, hm, head]

/-- Up to order, inserting a separator adds the new item. -/
theorem items_insertSep_perm (gt : K → Bool) (k : K) (r : C) (s : SepList K C) :
    (s.insertSep gt k r).items.Perm (r :: s.items) := by
  induction s with
  | single c => exact List.Perm.swap _ _ _
  | cons c m rest ih =>
    by_cases hm : gt m
    · simpa [insertSep, hm] using List.Perm.swap _ _ _
    · simp only [insertSep, hm, Bool.false_eq_true, if_false, items_cons]
      exact (ih.cons c).trans (List.Perm.swap _ _ _)

theorem nextSep_map (f : C → D) (s : SepList K C) : (s.map f).nextSep le = s.nextSep le := by
  induction s with
  | single c => rfl
  | cons c k rest ih => simp only [map, nextSep, ih]

theorem nextSep_eq_head_after (s : SepList K C) :
    s.nextSep le = (s.after le (fun _ => []) (fun k => [k])).head? := by
  induction s with
  | single c => rfl
  | cons c k rest ih =>
    by_cases hk : le k
    · simp [nextSep, after, hk, ih]
    · simp [nextSep, after, hk]

/-- Before the routed item `le` has passed every separator. -/
theorem le_of_mem_before {x : K} (s : SepList K C)
    (hx : x ∈ s.before le (fun _ => []) (fun k => [k])) : le x = true := by
  induction s with
  | single c => simp [before] at hx
  | cons c k rest ih =>
    by_cases hk : le k
    · simp only [before, hk, if_true, List.nil_append, List.cons_append, List.mem_cons] at hx
      rcases hx with rfl | hx
      · exact hk
      · exact ih hx
    · simp [before, hk] at hx

/-- A non-empty prefix ends with the separator the search passed last. -/
theorem before_eq_concat (le : K → Bool) (f : C → List W) (g : K → List W) (s : SepList K C) :
    s.before le f g = [] ∧ s.before le (fun _ => []) (fun k => [k]) = [] ∨
      ∃ pre k, s.before le f g = pre ++ g k ∧ le k = true := by
  induction s with
  | single c => exact Or.inl ⟨rfl, rfl⟩
  | cons c k rest ih =>
    by_cases hk : le k
    · refine Or.inr ?_
      rcases ih with ⟨h, -⟩ | ⟨pre, m, h, hm⟩
      · exact ⟨f c, k, by simp [before, hk, h], hk⟩
      · exact ⟨f c ++ g k ++ pre, m, by simp [before, hk, h], hm⟩
    · exact Or.inl ⟨by simp [before, hk], by simp [before, hk]⟩

/-- A non-empty suffix starts with the separator the search stopped at. -/
theorem after_eq_cons (le : K → Bool) (f : C → List W) (g : K → List W) (s : SepList K C) :
    s.nextSep le = none ∧ s.after le f g = [] ∨
      ∃ k post, s.nextSep le = some k ∧ s.after le f g = g k ++ post ∧ le k = false := by
  induction s with
  | single c => exact Or.inl ⟨rfl, rfl⟩
  | cons c k rest ih =>
    by_cases hk : le k
    · simpa [nextSep, after, hk] using ih
    · exact Or.inr ⟨k, rest.spell f g, by simp [nextSep, hk], by simp [after, hk], by simpa using hk⟩

end SepList
