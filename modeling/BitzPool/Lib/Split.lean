import Mathlib.Algebra.BigOperators.Group.List.Basic
import Mathlib.Algebra.Order.BigOperators.Group.List
import Mathlib.Algebra.BigOperators.Ring.List
import Mathlib.Algebra.Order.Field.Basic
import Mathlib.Data.Rat.Defs
import Mathlib.Algebra.Order.Ring.Rat
import Mathlib.Tactic.Linarith
import Mathlib.Tactic.FieldSimp
import Mathlib.Tactic.Ring

/-!
# Splitting an amount in proportion to weights, in whole units

An amount `R` is split among recipients of weight `w` out of a total weight `W` by first rounding the proportion
`w / W` down to a multiple of `1 / q` and then rounding that part of `R` down to a whole unit (`share`).  Both
roundings go down, so a share never exceeds the exact proportion (`share_mul_le`) and the shares never exceed `R`
(`sum_share_le`); each share loses less than `R / q + 1` (`lt_share`), so `n` recipients leave at most
`n * (R / q + 1)` units over (`sub_sum_share_le`).  Through both roundings a share stays monotone in the proportion
(`share_mono_weight`, `share_anti_total`, `share_mono_own`).

`chunks n l` cuts a list into consecutive pieces of length `n`, the last one possibly shorter.
-/

namespace Split

/-- The share of `R` for weight `w` out of `W`, with the proportion `w / W` rounded down to a multiple of
`1 / q`. -/
def share (q W R w : ℕ) : ℕ := w * q / W * R / q

theorem share_mul_le {q : ℕ} (hq : 0 < q) (W R w : ℕ) : share q W R w * W ≤ w * R := by
  unfold share
  have h1 : w * q / W * W ≤ w * q := Nat.div_mul_le_self _ _
  have h2 : w * q / W * R / q * q ≤ w * q / W * R := Nat.div_mul_le_self _ _
  refine Nat.le_of_mul_le_mul_right (c := q) ?_ hq
  calc w * q / W * R / q * W * q
      = w * q / W * R / q * q * W := by ring
    _ ≤ w * q / W * R * W := Nat.mul_le_mul_right W h2
    _ = w * q / W * W * R := by ring
    _ ≤ w * q * R := Nat.mul_le_mul_right R h1
    _ = w * R * q := by ring

/-- A share is at most the exact proportion. -/
theorem share_le {q W : ℕ} (hq : 0 < q) (hW : 0 < W) (R w : ℕ) :
    (share q W R w : ℚ) ≤ (R : ℚ) * w / W := by
  rw [le_div_iff₀ (by exact_mod_cast hW)]
  have := share_mul_le hq W R w
  calc (share q W R w : ℚ) * W = ((share q W R w * W : ℕ) : ℚ) := by push_cast; ring
    _ ≤ ((w * R : ℕ) : ℚ) := by exact_mod_cast this
    _ = (R : ℚ) * w := by push_cast; ring

private theorem lt_div_add_one (a : ℕ) {b : ℕ} (hb : 0 < b) : (a : ℚ) / b < (a / b : ℕ) + 1 := by
  rw [div_lt_iff₀ (by exact_mod_cast hb)]
  have := Nat.lt_mul_div_succ a hb
  calc (a : ℚ) < ((b * (a / b + 1) : ℕ) : ℚ) := by exact_mod_cast this
    _ = ((a / b : ℕ) + 1) * b := by push_cast; ring

/-- A share misses the exact proportion by less than `R / q + 1`. -/
theorem lt_share {q W : ℕ} (hq : 0 < q) (hW : 0 < W) (R w : ℕ) :
    (R : ℚ) * w / W - R / q - 1 < share q W R w := by
  have hq' : (0 : ℚ) < q := by exact_mod_cast hq
  have hW' : (0 : ℚ) < W := by exact_mod_cast hW
  have hR : (0 : ℚ) ≤ R := Nat.cast_nonneg R
  have h1 := lt_div_add_one (w * q) hW
  have h2 := lt_div_add_one (w * q / W * R) hq
  push_cast at h1 h2
  have h3 : (R : ℚ) * w / W - R / q ≤ (w * q / W : ℕ) * R / q := by
    have e : (R : ℚ) * w / W = (w * q / W : ℚ) * R / q := by
      field_simp
    rw [e, sub_le_iff_le_add, ← add_div, div_le_div_iff_of_pos_right hq']
    nlinarith
  unfold share
  linarith

/-! ### Shares of different weights -/

private theorem div_le_div_of_mul_le_mul {a b c d : ℕ} (hb : 0 < b) (hd : 0 < d) (h : a * d ≤ c * b) : a / b ≤ c / d := by
  rw [Nat.le_div_iff_mul_le hd]
  refine Nat.le_of_mul_le_mul_right (c := b) ?_ hb
  calc a / b * d * b
      = a / b * b * d := by ring
    _ ≤ a * d := Nat.mul_le_mul_right d (Nat.div_mul_le_self a b)
    _ ≤ c * b := h

/-- A share is monotone in the proportion that it rounds. -/
private theorem share_le_share {q W W' w w' : ℕ} (R : ℕ) (hW : 0 < W) (hW' : 0 < W') (h : w * W' ≤ w' * W) :
    share q W R w ≤ share q W' R w' := by
  have hcross : w * q * W' ≤ w' * q * W := by
    calc w * q * W' = w * W' * q := by ring
      _ ≤ w' * W * q := Nat.mul_le_mul_right q h
      _ = w' * q * W := by ring
  exact Nat.div_le_div_right (Nat.mul_le_mul_right R (div_le_div_of_mul_le_mul hW hW' hcross))

/-- Out of the same total, a larger weight has no smaller share. -/
theorem share_mono_weight (q W R : ℕ) {w w' : ℕ} (h : w ≤ w') : share q W R w ≤ share q W R w' := by
  rcases Nat.eq_zero_or_pos W with rfl | hW
  · simp [share]
  · exact share_le_share R hW hW (Nat.mul_le_mul_right W h)

/-- Out of a larger total, a weight has no larger share. -/
theorem share_anti_total (q R w : ℕ) {W W' : ℕ} (hW : 0 < W) (h : W ≤ W') : share q W' R w ≤ share q W R w :=
  share_le_share R (hW.trans_le h) hW (Nat.mul_le_mul_left w h)

/-- A weight that grows, and the total with it, has no smaller share. -/
theorem share_mono_own (q R o : ℕ) {w w' : ℕ} (hw : 0 < w) (h : w ≤ w') :
    share q (w + o) R w ≤ share q (w' + o) R w' := by
  refine share_le_share R (by omega) (by omega) ?_
  calc w * (w' + o) = w * w' + w * o := by ring
    _ ≤ w * w' + w' * o := Nat.add_le_add_left (Nat.mul_le_mul_right o h) _
    _ = w' * (w + o) := by ring

variable {ι : Type*}

/-- The shares of a list of recipients whose weights add up to `W` add up to at most `R`. -/
theorem sum_share_le {q W : ℕ} (hq : 0 < q) (R : ℕ) (l : List ι) (w : ι → ℕ) (hw : (l.map w).sum = W) :
    (l.map fun i => share q W R (w i)).sum ≤ R := by
  have key : (l.map fun i => share q W R (w i)).sum * W ≤ (l.map w).sum * R := by
    rw [← List.sum_map_mul_right, ← List.sum_map_mul_right]
    exact List.sum_le_sum fun i _ => share_mul_le hq W R (w i)
  rcases Nat.eq_zero_or_pos W with rfl | hW
  · have h0 : ∀ i ∈ l, share q 0 R (w i) = 0 := fun i _ => by simp [share]
    rw [List.sum_eq_zero]
    · exact Nat.zero_le R
    · intro x hx
      obtain ⟨i, hi, rfl⟩ := List.mem_map.1 hx
      exact h0 i hi
  · rw [hw, Nat.mul_comm W] at key
    exact Nat.le_of_mul_le_mul_right key hW

/-- What the shares leave over. -/
theorem sub_sum_share_le {q W : ℕ} (hq : 0 < q) (hW : 0 < W) (R : ℕ) (l : List ι) (w : ι → ℕ)
    (hw : (l.map w).sum = W) :
    (R : ℚ) - ((l.map fun i => share q W R (w i)).sum : ℕ) ≤ l.length * ((R : ℚ) / q + 1) := by
  have hW' : (0 : ℚ) < W := by exact_mod_cast hW
  have key : ∀ l : List ι, (R : ℚ) * ((l.map w).sum : ℕ) / W - ((l.map fun i => share q W R (w i)).sum : ℕ) ≤
      l.length * ((R : ℚ) / q + 1) := by
    intro l
    induction l with
    | nil => simp
    | cons i l ih =>
      have := lt_share hq hW R (w i)
      simp only [List.map_cons, List.sum_cons, List.length_cons, Nat.cast_add, Nat.cast_one, mul_add, add_div]
      linarith
  have := key l
  rwa [hw, mul_div_assoc, div_self hW'.ne', mul_one] at this

/-! ### Consecutive pieces of a list -/

/-- The consecutive pieces of length `n` of a list; the last one holds the rest. -/
def chunks (n : ℕ) (l : List ι) : List (List ι) :=
  (List.range ((l.length + (n - 1)) / n)).map fun i => (l.drop (i * n)).take n

private theorem flatten_take (n : ℕ) (l : List ι) (k : ℕ) :
    ((List.range k).map fun i => (l.drop (i * n)).take n).flatten = l.take (k * n) := by
  induction k with
  | zero => simp
  | succ k ih =>
    rw [List.range_succ, List.map_append, List.flatten_append, ih, Nat.succ_mul, List.take_add]
    simp

/-- The pieces, one after the other, are the list. -/
theorem flatten_chunks {n : ℕ} (hn : 0 < n) (l : List ι) : (chunks n l).flatten = l := by
  rw [chunks, flatten_take, List.take_of_length_le]
  have := Nat.lt_mul_div_succ (l.length + (n - 1)) hn
  rw [Nat.mul_add, Nat.mul_one, Nat.mul_comm] at this
  omega

/-- No piece is empty. -/
theorem ne_nil_of_mem_chunks {n : ℕ} (hn : 0 < n) {l piece : List ι} (h : piece ∈ chunks n l) : piece ≠ [] := by
  obtain ⟨i, hi, rfl⟩ := List.mem_map.1 h
  have hlt : (i + 1) * n ≤ l.length + (n - 1) := (Nat.le_div_iff_mul_le hn).1 (List.mem_range.1 hi)
  rw [Nat.succ_mul] at hlt
  rw [Ne, ← List.length_eq_zero_iff, List.length_take, List.length_drop]
  omega

theorem mem_of_mem_chunks {n : ℕ} {l piece : List ι} {x : ι} (h : piece ∈ chunks n l) (hx : x ∈ piece) : x ∈ l := by
  obtain ⟨i, -, rfl⟩ := List.mem_map.1 h
  exact List.mem_of_mem_drop (List.mem_of_mem_take hx)

end Split
