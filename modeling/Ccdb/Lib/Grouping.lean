import Mathlib.Data.List.Induction

/-!
# Grouping

Elements put into groups by a key, one at a time: an element goes to the first group
whose key counts as equal to its own, or behind the others as a new one. The relation on
keys is arbitrary. Where it is equality, the groups are those of the distinct keys.

Main results:

* `add_of_findIdx?_some`, `add_of_findIdx?_none` — the two ways to add an element.
* `keys_groups` — the keys of the groups are those that are not equal to an earlier one.
* `groups_eq` — the groups of a lawful equality.
-/

namespace Grouping

variable {κ α : Type}

/-- Keys with the elements they have so far. -/
abbrev Groups (κ α : Type) := List (κ × List α)

/-- One element more. -/
def add (eqv : κ → κ → Bool) (k : κ) (x : α) : Groups κ α → Groups κ α
  | [] => [(k, [x])]
  | g :: gs => if eqv g.1 k then (g.1, g.2 ++ [x]) :: gs else g :: add eqv k x gs

/-- The groups of elements with their keys. -/
def groups (eqv : κ → κ → Bool) (xs : List (κ × α)) : Groups κ α :=
  xs.foldl (fun gs p => add eqv p.1 p.2 gs) []

section Add

variable {eqv : κ → κ → Bool} {k : κ} {x : α} {gs : Groups κ α}

theorem add_cons (g : κ × List α) : add eqv k x (g :: gs) =
    if eqv g.1 k then (g.1, g.2 ++ [x]) :: gs else g :: add eqv k x gs := rfl

theorem groups_concat (xs : List (κ × α)) (p : κ × α) :
    groups eqv (xs ++ [p]) = add eqv p.1 p.2 (groups eqv xs) := by
  rw [groups, List.foldl_append]
  rfl

/-- The first group with an equal key gets the element; the keys stay. -/
theorem add_of_findIdx?_some {i : Nat} (h : (gs.map Prod.fst).findIdx? (eqv · k) = some i) :
    ∃ g, gs[i]? = some g ∧ add eqv k x gs = gs.set i (g.1, g.2 ++ [x]) ∧
      (add eqv k x gs).map Prod.fst = gs.map Prod.fst := by
  induction gs generalizing i with
  | nil => cases h
  | cons g gs ih =>
    rw [List.map_cons, List.findIdx?_cons] at h
    by_cases hg : eqv g.1 k = true
    · rw [if_pos hg] at h
      cases h
      rw [add_cons, if_pos hg]
      exact ⟨g, rfl, rfl, rfl⟩
    · rw [if_neg hg] at h
      obtain ⟨j, hj, rfl⟩ := Option.map_eq_some_iff.1 h
      obtain ⟨g', hg', hadd, hkeys⟩ := ih hj
      rw [add_cons, if_neg hg, List.map_cons, hkeys, hadd]
      exact ⟨g', hg', rfl, rfl⟩

/-- Without one, it starts a group. -/
theorem add_of_findIdx?_none (h : (gs.map Prod.fst).findIdx? (eqv · k) = none) :
    add eqv k x gs = gs ++ [(k, [x])] := by
  induction gs with
  | nil => rfl
  | cons g gs ih =>
    rw [List.findIdx?_eq_none_iff] at h
    have hg := h g.1 List.mem_cons_self
    rw [add_cons, if_neg (Bool.eq_false_iff.1 hg), ih, List.cons_append]
    rw [List.findIdx?_eq_none_iff]
    exact fun k' hk' => h k' (List.mem_cons_of_mem _ hk')

/-- A group stays, or gets the element. -/
theorem mem_add_of_mem {g : κ × List α} (h : g ∈ gs) :
    g ∈ add eqv k x gs ∨ (g.1, g.2 ++ [x]) ∈ add eqv k x gs := by
  induction gs with
  | nil => cases h
  | cons g' gs ih =>
    rw [add_cons]
    split
    · rcases List.mem_cons.1 h with rfl | h
      · exact Or.inr List.mem_cons_self
      · exact Or.inl (List.mem_cons_of_mem _ h)
    · rcases List.mem_cons.1 h with rfl | h
      · exact Or.inl List.mem_cons_self
      · exact (ih h).imp (List.mem_cons_of_mem _) (List.mem_cons_of_mem _)

/-- The keys of the groups are keys of elements. -/
theorem mem_keys_of_mem_add {k' : κ} (h : k' ∈ (add eqv k x gs).map Prod.fst) :
    k' ∈ gs.map Prod.fst ∨ k' = k := by
  induction gs with
  | nil => exact Or.inr (List.mem_singleton.1 h)
  | cons g gs ih =>
    rw [add_cons] at h
    split at h
    · exact Or.inl h
    · rcases List.mem_cons.1 h with rfl | h
      · exact Or.inl List.mem_cons_self
      · exact (ih h).imp_left fun h => List.mem_cons_of_mem _ h

theorem mem_of_mem_groups {xs : List (κ × α)} {k' : κ}
    (h : k' ∈ (groups eqv xs).map Prod.fst) : k' ∈ xs.map Prod.fst := by
  induction xs using List.reverseRecOn with
  | nil => exact h
  | append_singleton xs p ih =>
    rw [groups_concat] at h
    rw [List.map_append, List.mem_append]
    rcases mem_keys_of_mem_add h with h | rfl
    · exact Or.inl (ih h)
    · exact Or.inr List.mem_cons_self

/-- A group was there, or got the element, or is the new one. -/
theorem mem_add {g : κ × List α} (hg : g ∈ add eqv k x gs) :
    g ∈ gs ∨ (∃ g' ∈ gs, g.2 = g'.2 ++ [x]) ∨ g.2 = [x] := by
  induction gs with
  | nil => exact Or.inr (Or.inr (congrArg Prod.snd (List.mem_singleton.1 hg)))
  | cons g' gs ih =>
    rw [add_cons] at hg
    split at hg
    · rcases List.mem_cons.1 hg with rfl | hg
      · exact Or.inr (Or.inl ⟨g', List.mem_cons_self, rfl⟩)
      · exact Or.inl (List.mem_cons_of_mem _ hg)
    · rcases List.mem_cons.1 hg with rfl | hg
      · exact Or.inl List.mem_cons_self
      · rcases ih hg with h | ⟨g'', hg'', h⟩ | h
        · exact Or.inl (List.mem_cons_of_mem _ h)
        · exact Or.inr (Or.inl ⟨g'', List.mem_cons_of_mem _ hg'', h⟩)
        · exact Or.inr (Or.inr h)

/-- The elements of a group are elements. -/
theorem mem_of_mem_group {xs : List (κ × α)} {g : κ × List α} {y : α} (hg : g ∈ groups eqv xs)
    (hy : y ∈ g.2) : y ∈ xs.map Prod.snd := by
  induction xs using List.reverseRecOn generalizing g y with
  | nil => cases hg
  | append_singleton xs p ih =>
    rw [groups_concat] at hg
    rw [List.map_append, List.mem_append]
    rcases mem_add hg with hg | ⟨g', hg', heq⟩ | heq
    · exact Or.inl (ih hg hy)
    · rw [heq, List.mem_append, List.mem_singleton] at hy
      rcases hy with hy | rfl
      · exact Or.inl (ih hg' hy)
      · exact Or.inr List.mem_cons_self
    · rw [heq, List.mem_singleton] at hy
      subst hy
      exact Or.inr List.mem_cons_self

/-- A relation that says the same of the keys at hand makes the same groups. -/
theorem groups_congr {eqv' : κ → κ → Bool} {xs : List (κ × α)}
    (h : ∀ k ∈ xs.map Prod.fst, ∀ k' ∈ xs.map Prod.fst, eqv k k' = eqv' k k') :
    groups eqv xs = groups eqv' xs := by
  have hadd : ∀ {k : κ} {x : α} {gs : Groups κ α},
      (∀ k' ∈ gs.map Prod.fst, eqv k' k = eqv' k' k) → add eqv k x gs = add eqv' k x gs := by
    intro k x gs hk
    induction gs with
    | nil => rfl
    | cons g gs ih =>
      rw [add_cons, add_cons, hk g.1 List.mem_cons_self, ih fun k' hk' => hk k' (List.mem_cons_of_mem _ hk')]
  induction xs using List.reverseRecOn with
  | nil => rfl
  | append_singleton xs p ih =>
    have hmem : ∀ {k : κ}, k ∈ xs.map Prod.fst → k ∈ (xs ++ [p]).map Prod.fst := fun hk => by
      rw [List.map_append]
      exact List.mem_append_left _ hk
    rw [groups_concat, groups_concat, ← ih fun k hk k' hk' => h k (hmem hk) k' (hmem hk')]
    exact hadd fun k' hk' => h k' (hmem (mem_of_mem_groups hk')) p.1 (by simp)

end Add

/-! ## Equality -/

/-- The elements that are not equal to an earlier one. -/
def firsts (eqv : κ → κ → Bool) (ks : List κ) : List κ :=
  ks.foldl (fun seen k => if seen.any (eqv · k) then seen else seen ++ [k]) []

theorem firsts_concat (eqv : κ → κ → Bool) (ks : List κ) (k : κ) :
    firsts eqv (ks ++ [k]) =
      if (firsts eqv ks).any (eqv · k) then firsts eqv ks else firsts eqv ks ++ [k] := by
  rw [firsts, List.foldl_append]
  rfl

theorem mem_of_mem_firsts {ks : List κ} (h : k ∈ firsts eqv ks) : k ∈ ks := by
  induction ks using List.reverseRecOn with
  | nil => cases h
  | append_singleton ks k' ih =>
    rw [firsts_concat] at h
    split at h
    · exact List.mem_append_left _ (ih h)
    · rcases List.mem_append.1 h with h | h
      · exact List.mem_append_left _ (ih h)
      · exact List.mem_append_right _ h

/-- The keys of the groups. -/
theorem keys_groups (eqv : κ → κ → Bool) (xs : List (κ × α)) :
    (groups eqv xs).map Prod.fst = firsts eqv (xs.map Prod.fst) := by
  induction xs using List.reverseRecOn with
  | nil => rfl
  | append_singleton xs p ih =>
    rw [groups_concat, List.map_append, List.map_singleton, firsts_concat, ← ih]
    cases hfind : ((groups eqv xs).map Prod.fst).findIdx? (eqv · p.1) with
    | none =>
      rw [add_of_findIdx?_none hfind, List.map_append, if_neg]
      · rfl
      · rw [List.findIdx?_eq_none_iff] at hfind
        rw [List.any_eq_true]
        rintro ⟨k, hk, heq⟩
        rw [hfind k hk] at heq
        cases heq
    | some i =>
      obtain ⟨g, -, -, hkeys⟩ := add_of_findIdx?_some (x := p.2) hfind
      obtain ⟨hlt, heq, -⟩ := List.findIdx?_eq_some_iff_getElem.1 hfind
      rw [hkeys, if_pos]
      exact List.any_eq_true.2 ⟨_, List.getElem_mem hlt, heq⟩

section Lawful

variable [BEq κ] [LawfulBEq κ]

/-- The elements with a key. -/
def withKey (xs : List (κ × α)) (k : κ) : List α := (xs.filter fun p => p.1 == k).map Prod.snd

omit [LawfulBEq κ] in
theorem withKey_concat (xs : List (κ × α)) (p : κ × α) (k : κ) :
    withKey (xs ++ [p]) k = withKey xs k ++ if p.1 == k then [p.2] else [] := by
  simp only [withKey, List.filter_append, List.map_append]
  by_cases h : p.1 == k
  · simp [h]
  · simp [h]

theorem withKey_eq_nil {xs : List (κ × α)} {k : κ} (h : k ∉ xs.map Prod.fst) : withKey xs k = [] := by
  rw [withKey, List.map_eq_nil_iff, List.filter_eq_nil_iff]
  intro p hp heq
  rw [← eq_of_beq heq] at h
  exact h (List.mem_map_of_mem hp)

/-- Adding to the groups of distinct keys. -/
theorem add_map (f : κ → List α) {ks : List κ} (hnd : ks.Nodup) (k : κ) (x : α) (hk : k ∈ ks) :
    add (· == ·) k x (ks.map fun k => (k, f k)) =
      ks.map fun k' => (k', f k' ++ if k == k' then [x] else []) := by
  induction ks with
  | nil => cases hk
  | cons k' ks ih =>
    obtain ⟨hk', hnd⟩ := List.nodup_cons.1 hnd
    rw [List.map_cons, add_cons, List.map_cons]
    by_cases heq : k' = k
    · subst heq
      rw [if_pos (beq_self_eq_true _), if_pos (beq_self_eq_true _)]
      congr 1
      refine List.map_congr_left fun k'' hk'' => ?_
      have hne : (k' == k'') = false := beq_eq_false_iff_ne.2 fun h => hk' (h ▸ hk'')
      rw [hne]
      simp
    · have hne : (k == k') = false := beq_eq_false_iff_ne.2 (Ne.symm heq)
      rw [if_neg (by simpa using heq), hne, ih hnd ((List.mem_cons.1 hk).resolve_left (Ne.symm heq))]
      simp

theorem nodup_eraseDups : ∀ ks : List κ, ks.eraseDups.Nodup
  | [] => List.nodup_nil
  | k :: ks => by
    rw [List.eraseDups_cons, List.nodup_cons]
    exact ⟨fun hmem => by simp at hmem, nodup_eraseDups (ks.filter fun k' => !k' == k)⟩
termination_by ks => ks.length
decreasing_by exact Nat.lt_succ_of_le (List.length_filter_le _ ks)

/-- **The groups of equality**: the distinct keys in the order they first appear, each
with its elements in their order. -/
theorem groups_eq (xs : List (κ × α)) :
    groups (· == ·) xs = (xs.map Prod.fst).eraseDups.map fun k => (k, withKey xs k) := by
  induction xs using List.reverseRecOn with
  | nil => rfl
  | append_singleton xs p ih =>
    rw [groups_concat, ih, List.map_append, List.map_singleton, List.eraseDups_append]
    simp only [withKey_concat]
    by_cases hmem : p.1 ∈ xs.map Prod.fst
    · have hremove : [p.1].removeAll (xs.map Prod.fst) = [] := by simp [List.removeAll, hmem]
      rw [hremove, add_map _ (nodup_eraseDups _) p.1 p.2 (List.mem_eraseDups.2 hmem)]
      simp
    · have hremove : [p.1].removeAll (xs.map Prod.fst) = [p.1] := by simp [List.removeAll, hmem]
      have hnone : ((((xs.map Prod.fst).eraseDups.map fun k => (k, withKey xs k))).map
          Prod.fst).findIdx? (· == p.1) = none := by
        rw [List.findIdx?_eq_none_iff]
        intro k hk
        rw [List.map_map, List.mem_map] at hk
        obtain ⟨k', hk', rfl⟩ := hk
        exact beq_eq_false_iff_ne.2 fun h => hmem (h ▸ List.mem_eraseDups.1 hk')
      rw [hremove, add_of_findIdx?_none hnone, List.eraseDups_cons, List.filter_nil,
        List.eraseDups_nil, List.map_append, List.map_singleton, withKey_eq_nil hmem,
        if_pos (beq_self_eq_true _), List.nil_append]
      congr 1
      refine List.map_congr_left fun k hk => ?_
      have hne : (p.1 == k) = false :=
        beq_eq_false_iff_ne.2 fun h => hmem (h ▸ List.mem_eraseDups.1 hk)
      rw [hne]
      simp

end Lawful

end Grouping
