import Mathlib.Data.List.AList

/-!
# Lookups after an update

What is found after an update was put there by it, or was there before: for lists, and for maps kept as association lists.
-/

namespace Update

section List

variable {α : Type*} {l : List α} {i j : ℕ} {x y : α}

theorem getElem?_set_cases (h : (l.set i x)[j]? = some y) : j = i ∧ y = x ∨ j ≠ i ∧ l[j]? = some y := by
  by_cases hij : i = j
  · subst hij
    have hlt : i < l.length := by simpa using (List.getElem?_eq_some_iff.1 h).1
    rw [List.getElem?_set_self hlt] at h
    exact Or.inl ⟨rfl, (Option.some.inj h).symm⟩
  · rw [List.getElem?_set_ne hij] at h
    exact Or.inr ⟨Ne.symm hij, h⟩

theorem mem_set_self_of_getElem? (hi : l[i]? = some x) : y ∈ l.set i y :=
  List.mem_set (List.getElem?_eq_some_iff.1 hi).1 y

/-- Another entry than the one that is replaced stays. -/
theorem mem_set_of_ne {z : α} (h : x ∈ l) (hi : l[i]? = some y) (hne : x ≠ y) : x ∈ l.set i z := by
  obtain ⟨j, hj⟩ := List.mem_iff_getElem?.1 h
  have hij : i ≠ j := by
    intro hij
    rw [hij, hj] at hi
    exact hne (Option.some.inj hi)
  exact List.mem_iff_getElem?.2 ⟨j, (List.getElem?_set_ne hij).trans hj⟩

/-- An update that `f` does not see. -/
theorem map_set_of_eq {β : Type*} {f : α → β} (hi : l[i]? = some x) (hf : f y = f x) : (l.set i y).map f = l.map f := by
  have hx : (l.map f)[i]? = some (f x) := by rw [List.getElem?_map, hi]; rfl
  obtain ⟨hlt, hx⟩ := List.getElem?_eq_some_iff.1 hx
  rw [List.map_set, hf, ← hx, List.set_getElem_self]

theorem prefix_of_eq {l l' : List α} (h : l = l') : l <+: l' := h ▸ List.prefix_rfl

theorem getElem?_concat_cases (h : (l ++ [x])[j]? = some y) : l[j]? = some y ∨ j = l.length ∧ y = x := by
  have hlt : j < l.length + 1 := by simpa using (List.getElem?_eq_some_iff.1 h).1
  rcases Nat.lt_succ_iff_lt_or_eq.1 hlt with hlt | rfl
  · rw [List.getElem?_append_left hlt] at h
    exact Or.inl h
  · rw [List.getElem?_concat_length] at h
    exact Or.inr ⟨rfl, (Option.some.inj h).symm⟩

end List

section Map

variable {κ ν : Type*} [DecidableEq κ] {m : AList fun _ : κ => ν} {k k' : κ} {v v' : ν}

theorem lookup_insert_cases (h : (m.insert k v).lookup k' = some v') :
    k' = k ∧ v' = v ∨ k' ≠ k ∧ m.lookup k' = some v' := by
  by_cases hk : k' = k
  · rw [hk, AList.lookup_insert] at h
    exact Or.inl ⟨hk, (Option.some.inj h).symm⟩
  · rw [AList.lookup_insert_ne hk] at h
    exact Or.inr ⟨hk, h⟩

theorem lookup_erase_cases (h : (m.erase k).lookup k' = some v) : k' ≠ k ∧ m.lookup k' = some v := by
  by_cases hk : k' = k
  · rw [hk, AList.lookup_erase] at h
    cases h
  · rw [AList.lookup_erase_ne hk] at h
    exact ⟨hk, h⟩

/-- Maps that agree at every key have the same entries. -/
theorem perm_of_lookup {m m' : AList fun _ : κ => ν} (h : ∀ k, m.lookup k = m'.lookup k) :
    m.entries.Perm m'.entries :=
  List.lookup_ext m.nodupKeys m'.nodupKeys fun k v => by
    have hk : m.entries.dlookup k = m'.entries.dlookup k := h k
    rw [hk]

/-- The entry of a key and those of the other keys. -/
theorem perm_cons_erase (h : m.lookup k = some v) : m.entries.Perm (⟨k, v⟩ :: (m.erase k).entries) := by
  have hnotin : k ∉ m.erase k := fun hk => (AList.mem_erase.1 hk).1 rfl
  have hperm : m.entries.Perm ((m.erase k).insert k v).entries := by
    apply perm_of_lookup
    intro k'
    by_cases hk : k' = k
    · rw [hk, AList.lookup_insert, h]
    · rw [AList.lookup_insert_ne hk, AList.lookup_erase_ne hk]
  rwa [AList.entries_insert_of_notMem hnotin] at hperm

end Map

end Update
