/-
# `TinyLlm.Lib.Tiling` — counts that tile `[0, total)`

Counts `f 0, …, f (n - 1)` cut `[0, ∑ f)` into consecutive slots; slot `i`
starts at `∑ j < i, f j`.  A value below the total lies in exactly one of
them (`slot_unique`, `exists_slot`).

The second half is proportional rounding: weights `w` are turned into counts
by truncation, one unit reserved for each entry; they sum to no more than the
total (`sum_share_le_spread`), and the leftover is given to one entry
(`sum_update_add`).
-/
import Mathlib.Algebra.BigOperators.Group.Finset.Basic
import Mathlib.Algebra.BigOperators.Ring.Finset
import Mathlib.Algebra.Order.BigOperators.Group.Finset
import Mathlib.Algebra.Order.Ring.Nat

namespace Tiling

open Finset

variable {f : Nat → Nat}

/-- Cumulative sums grow. -/
theorem cum_mono (f : Nat → Nat) {i j : Nat} (h : i ≤ j) :
    ∑ k ∈ range i, f k ≤ ∑ k ∈ range j, f k :=
  sum_le_sum_of_subset (range_mono h)

/-- A slot ends inside the total. -/
theorem slot_end_le {n i : Nat} (hi : i < n) :
    ∑ k ∈ range i, f k + f i ≤ ∑ k ∈ range n, f k := by
  rw [← sum_range_succ]
  exact cum_mono f hi

/-- A value lies in at most one slot. -/
theorem slot_unique {i j x : Nat}
    (hi : ∑ k ∈ range i, f k ≤ x) (hi' : x < ∑ k ∈ range i, f k + f i)
    (hj : ∑ k ∈ range j, f k ≤ x) (hj' : x < ∑ k ∈ range j, f k + f j) : i = j := by
  rw [← sum_range_succ] at hi' hj'
  rcases Nat.lt_trichotomy i j with h | h | h
  · have := cum_mono f (show _ + 1 ≤ _ from h)
    omega
  · exact h
  · have := cum_mono f (show _ + 1 ≤ _ from h)
    omega

/-- A value below the total lies in a slot. -/
theorem exists_slot (f : Nat → Nat) {x : Nat} :
    ∀ n, x < ∑ k ∈ range n, f k →
      ∃ i < n, ∑ k ∈ range i, f k ≤ x ∧ x < ∑ k ∈ range i, f k + f i := by
  intro n
  induction n with
  | zero => intro h; simp at h
  | succ n ih =>
      intro h
      rw [sum_range_succ] at h
      by_cases hx : x < ∑ k ∈ range n, f k
      · obtain ⟨i, hi, hslot⟩ := ih hx
        exact ⟨i, Nat.lt_succ_of_lt hi, hslot⟩
      · exact ⟨n, Nat.lt_succ_self n, by omega, h⟩

/-! ## Proportional rounding -/

/-- Truncated shares of `spread` do not exceed it. -/
theorem sum_share_le (w : Nat → Nat) (spread S : Nat) :
    ∀ n, ∑ k ∈ range n, w k * spread / S ≤ (∑ k ∈ range n, w k) * spread / S := by
  intro n
  induction n with
  | zero => simp
  | succ n ih =>
      rw [sum_range_succ, sum_range_succ, Nat.add_mul]
      exact Nat.le_trans (Nat.add_le_add_right ih _) Nat.div_add_div_le_add_div

theorem sum_share_le_spread {w : Nat → Nat} {n : Nat} (spread : Nat)
    (hS : 0 < ∑ k ∈ range n, w k) :
    ∑ k ∈ range n, w k * spread / (∑ k ∈ range n, w k) ≤ spread := by
  have h := sum_share_le w spread (∑ k ∈ range n, w k) n
  rwa [Nat.mul_div_cancel_left _ hS] at h

/-- Raising one entry raises the sum by as much. -/
theorem sum_update_add {n top : Nat} (htop : top < n) (f : Nat → Nat) (d : Nat) :
    ∑ k ∈ range n, Function.update f top (f top + d) k = ∑ k ∈ range n, f k + d := by
  have hmem : top ∈ range n := mem_range.mpr htop
  rw [sum_update_of_mem hmem, ← add_sum_erase _ _ hmem, ← sdiff_singleton_eq_erase]
  omega

end Tiling
