import Mathlib.Data.List.Nodup
import Mathlib.Algebra.BigOperators.Group.List.Basic
import Mathlib.Algebra.Order.BigOperators.Group.List
import Mathlib.Algebra.GroupWithZero.Nat

/-!
# Tables with a unique key, and sums grouped by a key

`Table key` is a list of rows no two of which share a key: the rows of a relation under a `UNIQUE` constraint.
`sumAt key amount l k` is the sum of the amounts of the entries of `l` with key `k` (`SELECT SUM .. GROUP BY key`).
The facts used later: an update that keeps keys keeps the table (`update`), acts on each row (`value_update`), and
adding to every row what a list of entries holds for its key adds at most the whole list (`total_sumAt_le`), since
no key occurs in two rows.
-/

namespace Keyed

/-! ### Sums grouped by a key -/

section SumAt

variable {E K : Type*} [DecidableEq K] {key : E → K} {amount : E → ℕ}

/-- The sum of the amounts of the entries of `l` whose key is `k`. -/
def sumAt (key : E → K) (amount : E → ℕ) (l : List E) (k : K) : ℕ :=
  ((l.filter fun e => key e = k).map amount).sum

@[simp] theorem sumAt_nil (k : K) : sumAt key amount [] k = 0 := rfl

theorem sumAt_cons (e : E) (l : List E) (k : K) :
    sumAt key amount (e :: l) k = (if key e = k then amount e else 0) + sumAt key amount l k := by
  by_cases h : key e = k <;> simp [sumAt, h]

@[simp] theorem sumAt_append (l₁ l₂ : List E) (k : K) :
    sumAt key amount (l₁ ++ l₂) k = sumAt key amount l₁ k + sumAt key amount l₂ k := by
  simp [sumAt]

/-- Rows of another type with the same keys and amounts have the same grouped sums. -/
theorem sumAt_map {E' : Type*} {key' : E' → K} {amount' : E' → ℕ} (f : E → E')
    (hk : ∀ e, key' (f e) = key e) (ha : ∀ e, amount' (f e) = amount e) (l : List E) (k : K) :
    sumAt key' amount' (l.map f) k = sumAt key amount l k := by
  induction l with
  | nil => rfl
  | cons e l ih => simp [sumAt_cons, hk, ha, ih]

theorem sumAt_perm {l l' : List E} (h : l.Perm l') (k : K) : sumAt key amount l k = sumAt key amount l' k :=
  ((h.filter _).map amount).sum_eq

theorem sumAt_eq_zero {l : List E} {k : K} (h : ∀ e ∈ l, key e ≠ k) : sumAt key amount l k = 0 := by
  induction l with
  | nil => rfl
  | cons e l ih =>
    rw [sumAt_cons, ih fun e' he' => h e' (List.mem_cons_of_mem _ he')]
    simp [h e (List.mem_cons_self ..)]

/-- A grouped sum vanishes when all amounts of the group do. -/
theorem sumAt_eq_zero_iff {l : List E} {k : K} :
    sumAt key amount l k = 0 ↔ ∀ e ∈ l, key e = k → amount e = 0 := by
  induction l with
  | nil => simp
  | cons e l ih =>
    rw [sumAt_cons, Nat.add_eq_zero_iff, ih, List.forall_mem_cons]
    by_cases h : key e = k <;> simp [h]

theorem sumAt_congr {l : List E} {key' : E → K} {amount' : E → ℕ} (hk : ∀ e ∈ l, key' e = key e)
    (ha : ∀ e ∈ l, amount' e = amount e) (k : K) : sumAt key' amount' l k = sumAt key amount l k := by
  induction l with
  | nil => rfl
  | cons e l ih =>
    rw [sumAt_cons, sumAt_cons, hk e List.mem_cons_self, ha e List.mem_cons_self,
      ih (fun e' he' => hk e' (List.mem_cons_of_mem _ he')) fun e' he' => ha e' (List.mem_cons_of_mem _ he')]

theorem sumAt_le_sumAt {l : List E} {amount' : E → ℕ} (h : ∀ e ∈ l, amount' e ≤ amount e) (k : K) :
    sumAt key amount' l k ≤ sumAt key amount l k := by
  induction l with
  | nil => exact Nat.le_refl _
  | cons e l ih =>
    have hrest := ih fun e' he' => h e' (List.mem_cons_of_mem _ he')
    rw [sumAt_cons, sumAt_cons]
    by_cases he : key e = k
    · rw [if_pos he, if_pos he]
      exact Nat.add_le_add (h e List.mem_cons_self) hrest
    · rw [if_neg he, if_neg he]
      exact Nat.add_le_add_left hrest 0

/-- When the amount of one entry of a list without repetitions grows, so does the sum at its key. -/
theorem sumAt_add_at {l : List E} (hl : l.Nodup) {e : E} (he : e ∈ l) {amount' : E → ℕ} {n : ℕ}
    (hself : amount' e = amount e + n) (hrest : ∀ e' ∈ l, e' ≠ e → amount' e' = amount e') (k : K) :
    sumAt key amount' l k = sumAt key amount l k + if key e = k then n else 0 := by
  induction l with
  | nil => cases he
  | cons x l ih =>
    obtain ⟨hx, hl⟩ := List.nodup_cons.1 hl
    rw [sumAt_cons, sumAt_cons]
    by_cases hxe : x = e
    · subst hxe
      have hl' : sumAt key amount' l k = sumAt key amount l k := by
        refine sumAt_congr (fun _ _ => rfl) (fun e' he' => ?_) k
        refine hrest e' (List.mem_cons_of_mem _ he') ?_
        rintro rfl
        exact hx he'
      rw [hl', hself]
      split <;> omega
    · have he' : e ∈ l := (List.mem_cons.1 he).resolve_left (Ne.symm hxe)
      have hamount : amount' x = amount x := hrest x List.mem_cons_self hxe
      rw [ih hl he' fun y hy => hrest y (List.mem_cons_of_mem _ hy), hamount, Nat.add_assoc]

private theorem sum_ite_le_of_nodup {ks : List K} (hks : ks.Nodup) (k : K) (n : ℕ) :
    (ks.map fun k' => if k = k' then n else 0).sum ≤ n := by
  induction ks with
  | nil => simp
  | cons k' ks ih =>
    rw [List.nodup_cons] at hks
    rw [List.map_cons, List.sum_cons]
    by_cases h : k = k'
    · subst h
      have h0 : (ks.map fun k' => if k = k' then n else 0).sum = 0 := by
        apply List.sum_eq_zero
        intro x hx
        obtain ⟨k'', hk'', rfl⟩ := List.mem_map.1 hx
        exact if_neg (by rintro rfl; exact hks.1 hk'')
      rw [h0, if_pos rfl, Nat.add_zero]
    · rw [if_neg h, Nat.zero_add]
      exact ih hks.2

/-- The grouped sums at distinct keys add up to at most the sum of all amounts. -/
theorem sum_sumAt_le {ks : List K} (hks : ks.Nodup) (l : List E) :
    (ks.map fun k => sumAt key amount l k).sum ≤ (l.map amount).sum := by
  induction l with
  | nil => simp
  | cons e l ih =>
    simp only [sumAt_cons, List.sum_map_add, List.map_cons, List.sum_cons]
    exact Nat.add_le_add (sum_ite_le_of_nodup hks (key e) (amount e)) ih

end SumAt

/-- Replacing an element of a list changes a sum by the change of that element. -/
theorem sum_map_set {α : Type*} {l : List α} {i : ℕ} {x y : α} (h : l[i]? = some x) (f : α → ℕ) :
    ((l.set i y).map f).sum + f x = (l.map f).sum + f y := by
  induction l generalizing i with
  | nil => simp at h
  | cons a l ih =>
    cases i with
    | zero =>
      simp only [List.getElem?_cons_zero, Option.some.injEq] at h
      subst h
      simp only [List.set_cons_zero, List.map_cons, List.sum_cons]
      omega
    | succ i =>
      have := ih (List.getElem?_cons_succ ▸ h)
      simp only [List.set_cons_succ, List.map_cons, List.sum_cons]
      omega

/-! ### Tables -/

/-- Rows of type `R`, no two of which have the same key. -/
structure Table {R K : Type*} (key : R → K) where
  rows : List R
  unique : (rows.map key).Nodup

namespace Table

variable {R K : Type*} {key : R → K}

theorem eq_of_rows {t t' : Table key} (h : t.rows = t'.rows) : t = t' := by
  cases t
  cases t'
  congr

instance : EmptyCollection (Table key) := ⟨⟨[], List.nodup_nil⟩⟩

/-- The table has a row with key `k`. -/
def Has (t : Table key) (k : K) : Prop := k ∈ t.rows.map key

instance [DecidableEq K] (t : Table key) (k : K) : Decidable (t.Has k) :=
  inferInstanceAs (Decidable (k ∈ t.rows.map key))

/-- `UPDATE`: change every row by a function that keeps its key. -/
def update (t : Table key) (f : R → R) (hf : ∀ r, key (f r) = key r) : Table key :=
  ⟨t.rows.map f, by simpa [Function.comp_def, hf] using t.unique⟩

theorem map_key_update (t : Table key) {f : R → R} (hf : ∀ r, key (f r) = key r) :
    (t.update f hf).rows.map key = t.rows.map key := by
  simp [update, Function.comp_def, hf]

/-- The sum of `v` over all rows. -/
def total (t : Table key) (v : R → ℕ) : ℕ := (t.rows.map v).sum

variable [DecidableEq K]

/-- `SELECT`: the row with key `k`. -/
def find? (t : Table key) (k : K) : Option R := t.rows.find? fun r => key r = k

/-- `INSERT`: rejected when the key is taken. -/
def insert? (t : Table key) (r : R) : Option (Table key) :=
  if h : key r ∈ t.rows.map key then none
  else some ⟨t.rows ++ [r], by
    rw [List.map_append, List.nodup_append]
    exact ⟨t.unique, by simp, fun a ha b hb => by simp at hb; rintro rfl; exact h (hb ▸ ha)⟩⟩

/-- The value of `v` in the row with key `k`, or 0. -/
def value (t : Table key) (v : R → ℕ) (k : K) : ℕ := ((t.find? k).map v).getD 0

theorem find?_eq_some {t : Table key} {k : K} {r : R} : t.find? k = some r ↔ r ∈ t.rows ∧ key r = k := by
  have hsound : ∀ {r}, t.find? k = some r → r ∈ t.rows ∧ key r = k := by
    intro r h
    unfold find? at h
    exact ⟨List.mem_of_find?_eq_some h, by simpa using List.find?_some h⟩
  refine ⟨hsound, fun ⟨hr, hk⟩ => ?_⟩
  have hsome : (t.find? k).isSome := List.find?_isSome.2 ⟨r, hr, decide_eq_true hk⟩
  obtain ⟨r₁, h₁⟩ := Option.isSome_iff_exists.1 hsome
  have := hsound h₁
  rw [h₁, List.inj_on_of_nodup_map t.unique this.1 hr (this.2.trans hk.symm)]

theorem has_iff {t : Table key} {k : K} : t.Has k ↔ ∃ r, t.find? k = some r := by
  simp [Has, find?_eq_some]

theorem find?_eq_none {t : Table key} {k : K} : t.find? k = none ↔ ¬ t.Has k := by
  rw [has_iff, ← Option.isSome_iff_exists]
  simp

/-- The row with key `k` is the only one. -/
theorem filter_of_find? {t : Table key} {k : K} {r : R} (h : t.find? k = some r) :
    t.rows.filter (fun r => key r = k) = [r] := by
  obtain ⟨hr, hk⟩ := find?_eq_some.1 h
  have hmem : ∀ r', r' ∈ t.rows.filter (fun r => key r = k) ↔ r' = r := by
    intro r'
    rw [List.mem_filter, decide_eq_true_iff, ← find?_eq_some, h, Option.some.injEq, eq_comm]
  have hnodup : (t.rows.filter fun r => key r = k).Nodup := (List.Nodup.of_map _ t.unique).filter _
  exact List.perm_singleton.1 ((List.perm_ext_iff_of_nodup hnodup (List.nodup_singleton r)).2 fun r' => by
    rw [hmem, List.mem_singleton])

theorem find?_update (t : Table key) (f : R → R) (hf : ∀ r, key (f r) = key r) (k : K) :
    (t.update f hf).find? k = (t.find? k).map f := by
  have hcomp : ((fun r => decide (key r = k)) ∘ f) = fun r => decide (key r = k) := by
    funext r
    rw [Function.comp_apply, hf]
  rw [find?, find?, update, List.find?_map, hcomp]

omit [DecidableEq K] in
theorem has_update {t : Table key} {f : R → R} (hf : ∀ r, key (f r) = key r) {k : K} :
    (t.update f hf).Has k ↔ t.Has k := by
  simp [Has, update, hf]

theorem value_of_find? {t : Table key} {k : K} {r : R} (h : t.find? k = some r) (v : R → ℕ) :
    t.value v k = v r := by
  simp [value, h]

theorem value_of_not_has {t : Table key} {k : K} (h : ¬ t.Has k) (v : R → ℕ) : t.value v k = 0 := by
  simp [value, find?_eq_none.2 h]

theorem value_update {t : Table key} {f : R → R} (hf : ∀ r, key (f r) = key r) {k : K} {r : R}
    (h : t.find? k = some r) (v : R → ℕ) : (t.update f hf).value v k = v (f r) := by
  simp [value, find?_update, h]

theorem insert?_eq_some {t t' : Table key} {r : R} (h : t.insert? r = some t') :
    ¬ t.Has (key r) ∧ t'.rows = t.rows ++ [r] := by
  unfold insert? at h
  split at h
  · cases h
  · next hk =>
    cases h
    exact ⟨hk, rfl⟩

theorem insert?_isSome {t : Table key} {r : R} : (t.insert? r).isSome ↔ ¬ t.Has (key r) := by
  unfold insert? Has
  split <;> simp_all

theorem find?_insert {t t' : Table key} {r : R} (h : t.insert? r = some t') (k : K) :
    t'.find? k = if key r = k then some r else t.find? k := by
  obtain ⟨hk, hrows⟩ := insert?_eq_some h
  by_cases he : key r = k
  · rw [if_pos he, find?_eq_some, hrows]
    exact ⟨by simp, he⟩
  · rw [if_neg he, find?, find?, hrows, List.find?_append]
    simp [he]

theorem has_insert {t t' : Table key} {r : R} (h : t.insert? r = some t') (k : K) :
    t'.Has k ↔ key r = k ∨ t.Has k := by
  simp [Has, (insert?_eq_some h).2, or_comm, eq_comm]

theorem total_insert {t t' : Table key} {r : R} (h : t.insert? r = some t') (v : R → ℕ) :
    t'.total v = t.total v + v r := by
  simp [total, (insert?_eq_some h).2]

/-- Adding to every row what the entries `l` hold for its key adds at most the whole of `l` to the total. -/
theorem total_sumAt_le {E : Type*} {ekey : E → K} {amount : E → ℕ} {t : Table key} {f : R → R}
    (hf : ∀ r, key (f r) = key r) {v : R → ℕ} (l : List E)
    (h : ∀ r ∈ t.rows, v (f r) = v r + sumAt ekey amount l (key r)) :
    (t.update f hf).total v ≤ t.total v + (l.map amount).sum := by
  have e : (t.update f hf).total v = (t.rows.map fun r => v r + sumAt ekey amount l (key r)).sum := by
    simp only [total, update, List.map_map]
    exact congrArg List.sum (List.map_congr_left h)
  have hsum : ((t.rows.map key).map fun k => sumAt ekey amount l k).sum ≤ (l.map amount).sum :=
    sum_sumAt_le t.unique l
  rw [List.map_map] at hsum
  rw [e, List.sum_map_add]
  exact Nat.add_le_add_left hsum _

omit [DecidableEq K] in
private theorem sum_single {rows : List R} (hu : (rows.map key).Nodup) {r₀ : R} (h₀ : r₀ ∈ rows) {f : R → R}
    (hne : ∀ r, key r ≠ key r₀ → f r = r) (v : R → ℕ) :
    ((rows.map f).map v).sum + v r₀ = (rows.map v).sum + v (f r₀) := by
  induction rows with
  | nil => cases h₀
  | cons r rows ih =>
    rw [List.map_cons, List.nodup_cons] at hu
    simp only [List.map_cons, List.sum_cons]
    rcases List.mem_cons.1 h₀ with rfl | h₀
    · have e : rows.map f = rows := by
        conv_rhs => rw [← List.map_id rows]
        exact List.map_congr_left fun r hr => hne r fun he => hu.1 (he ▸ List.mem_map_of_mem hr)
      rw [e]
      omega
    · have := ih hu.2 h₀
      rw [hne r fun he => hu.1 (he ▸ List.mem_map_of_mem h₀)]
      omega

/-- Changing the row with key `k` only changes the total by the change of that row. -/
theorem total_update_single {t : Table key} {k : K} {r₀ : R} (h₀ : t.find? k = some r₀) {f : R → R}
    (hf : ∀ r, key (f r) = key r) (hne : ∀ r, key r ≠ k → f r = r) (v : R → ℕ) :
    (t.update f hf).total v + v r₀ = t.total v + v (f r₀) := by
  obtain ⟨hr₀, rfl⟩ := find?_eq_some.1 h₀
  exact sum_single t.unique hr₀ hne v

end Table

end Keyed
