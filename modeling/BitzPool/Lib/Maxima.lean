import Mathlib.Data.List.AList
import Mathlib.Data.List.Perm.Basic
import Mathlib.Order.Bounds.Basic

/-!
# Maxima by key

A map is offered values under keys and keeps, for each key, the first value of the highest measure.  Which value that is
depends on the order of the offers, but its measure does not (`Keeps.map_lookup_eq`), and so neither does anything that is
computed from the measures (`entries_map_perm`).
-/

namespace Maxima

variable {κ ν β γ : Type*} [DecidableEq κ] [LinearOrder β] {f : ν → β} {m m' : AList fun _ : κ => ν}

/-- The map after an offer: the value is taken when there was none for its key, or one of a lower measure. -/
def offer (f : ν → β) (m : AList fun _ : κ => ν) (x : κ × ν) : AList fun _ : κ => ν :=
  match m.lookup x.1 with
  | some old => if f old < f x.2 then m.insert x.1 x.2 else m
  | none => m.insert x.1 x.2

theorem offer_of_lt {x : κ × ν} (h : ∀ old, m.lookup x.1 = some old → f old < f x.2) :
    offer f m x = m.insert x.1 x.2 := by
  unfold offer
  split
  · next old hold => exact if_pos (h old hold)
  · rfl

theorem offer_of_le {x : κ × ν} {old : ν} (hold : m.lookup x.1 = some old) (hle : f x.2 ≤ f old) :
    offer f m x = m := by
  unfold offer
  rw [hold]
  exact if_neg hle.not_gt

/-- The map holds values that were offered, for each key one of the highest measure. -/
structure Keeps (f : ν → β) (m : AList fun _ : κ => ν) (offers : List (κ × ν)) : Prop where
  offered : ∀ {k v}, m.lookup k = some v → (k, v) ∈ offers
  highest : ∀ {k v}, (k, v) ∈ offers → ∃ w, m.lookup k = some w ∧ f v ≤ f w

theorem keeps_empty : Keeps f (∅ : AList fun _ : κ => ν) [] where
  offered h := by cases h
  highest h := by cases h

theorem Keeps.offer {offers : List (κ × ν)} (h : Keeps f m offers) (x : κ × ν) :
    Keeps f (offer f m x) (offers ++ [x]) := by
  by_cases hlt : ∀ old, m.lookup x.1 = some old → f old < f x.2
  · rw [offer_of_lt hlt]
    refine ⟨fun {k v} hv => ?_, fun {k v} hv => ?_⟩
    · by_cases hk : k = x.1
      · subst hk
        rw [AList.lookup_insert] at hv
        cases hv
        exact List.mem_append_right _ (List.mem_singleton_self x)
      · rw [AList.lookup_insert_ne hk] at hv
        exact List.mem_append_left _ (h.offered hv)
    · rcases List.mem_append.1 hv with hv | hv
      · obtain ⟨w, hw, hle⟩ := h.highest hv
        by_cases hk : k = x.1
        · subst hk
          exact ⟨x.2, AList.lookup_insert _, hle.trans (hlt w hw).le⟩
        · exact ⟨w, (AList.lookup_insert_ne hk).trans hw, hle⟩
      · obtain rfl := List.mem_singleton.1 hv
        exact ⟨v, AList.lookup_insert _, le_rfl⟩
  · -- the old value stays
    push Not at hlt
    obtain ⟨old, hold, hle⟩ := hlt
    rw [offer_of_le hold hle]
    refine ⟨fun hv => List.mem_append_left _ (h.offered hv), fun {k v} hv => ?_⟩
    rcases List.mem_append.1 hv with hv | hv
    · exact h.highest hv
    · obtain rfl := List.mem_singleton.1 hv
      exact ⟨old, hold, hle⟩

/-- What is kept of the same offers in another order has the same measure, and agrees in all that the measure decides. -/
theorem Keeps.map_lookup_eq {offers offers' : List (κ × ν)} (h : Keeps f m offers) (h' : Keeps f m' offers')
    (hoffers : ∀ x, x ∈ offers ↔ x ∈ offers') {g : ν → γ}
    (hg : ∀ {k v w}, (k, v) ∈ offers → (k, w) ∈ offers → f v = f w → g v = g w) (k : κ) :
    (m.lookup k).map g = (m'.lookup k).map g := by
  rcases hv : m.lookup k with _ | v <;> rcases hw : m'.lookup k with _ | w
  · rfl
  · obtain ⟨v, hv', -⟩ := h.highest ((hoffers _).2 (h'.offered hw))
    cases hv.symm.trans hv'
  · obtain ⟨w, hw', -⟩ := h'.highest ((hoffers _).1 (h.offered hv))
    cases hw.symm.trans hw'
  · have hvm : (k, v) ∈ offers := h.offered hv
    have hwm : (k, w) ∈ offers := (hoffers _).2 (h'.offered hw)
    have hle : f v ≤ f w := by
      obtain ⟨w', hw', hle⟩ := h'.highest ((hoffers _).1 hvm)
      cases hw.symm.trans hw'
      exact hle
    have hge : f w ≤ f v := by
      obtain ⟨v', hv', hle⟩ := h.highest hwm
      cases hv.symm.trans hv'
      exact hle
    exact congrArg some (hg hvm hwm (le_antisymm hle hge))

omit [LinearOrder β] in
/-- Maps with the same lookups have the same entries, in some order. -/
theorem entries_map_perm {g : ν → γ} (h : ∀ k, (m.lookup k).map g = (m'.lookup k).map g) :
    (m.entries.map fun e => (e.1, g e.2)).Perm (m'.entries.map fun e => (e.1, g e.2)) := by
  have hnodup : ∀ m : AList fun _ : κ => ν, (m.entries.map fun e => (e.1, g e.2)).Nodup := by
    intro m
    have hkeys : ((m.entries.map fun e => (e.1, g e.2)).map Prod.fst).Nodup := by
      rw [List.map_map]
      exact m.nodupKeys
    exact hkeys.of_map _
  have hmem : ∀ (m : AList fun _ : κ => ν) (x : κ × γ),
      x ∈ m.entries.map (fun e => (e.1, g e.2)) ↔ (m.lookup x.1).map g = some x.2 := by
    intro m x
    rw [List.mem_map, Option.map_eq_some_iff]
    constructor
    · rintro ⟨⟨k, v⟩, hv, rfl⟩
      exact ⟨v, AList.mem_lookup_iff.2 hv, rfl⟩
    · rintro ⟨v, hv, hx⟩
      exact ⟨⟨x.1, v⟩, AList.mem_lookup_iff.1 hv, Prod.ext rfl hx⟩
  refine (List.perm_ext_iff_of_nodup (hnodup m) (hnodup m')).2 fun x => ?_
  rw [hmem m, hmem m', h]

/-- The measures of the values that are kept. -/
def measures (f : ν → β) (m : AList fun _ : κ => ν) : Set β := {b | ∃ k, (m.lookup k).map f = some b}

/-- A value that is higher than the one it replaces raises the maximum to its measure, or leaves it. -/
theorem isLUB_measures_insert {d : β} (h : IsLUB (measures f m) d) {k : κ} {v : ν}
    (hlt : ∀ old, m.lookup k = some old → f old < f v) : IsLUB (measures f (m.insert k v)) (max d (f v)) := by
  refine ⟨?_, fun u hu => max_le (h.2 ?_) (hu ⟨k, by rw [AList.lookup_insert]; rfl⟩)⟩
  · rintro b ⟨k', hb⟩
    by_cases hk : k' = k
    · rw [hk, AList.lookup_insert] at hb
      cases hb
      exact le_max_right _ _
    · rw [AList.lookup_insert_ne hk] at hb
      exact (h.1 ⟨k', hb⟩).trans (le_max_left _ _)
  · rintro b ⟨k', hb⟩
    by_cases hk : k' = k
    · subst hk
      obtain ⟨old, hold, rfl⟩ := Option.map_eq_some_iff.1 hb
      exact (hlt old hold).le.trans (hu ⟨k', by rw [AList.lookup_insert]; rfl⟩)
    · exact hu ⟨k', by rw [AList.lookup_insert_ne hk, hb]⟩

end Maxima
