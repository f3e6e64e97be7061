/-
# `TinyLlm.Lib.TopMass` — the heaviest entries that carry a given mass

Entries in descending order of weight, and the shortest prefix whose weight
exceeds a bound.  Where such a prefix has two entries or more, each of its
entries is at least what the weight above the bound leaves on average for the
entries behind the first (`Shortest.cutoff_le`); so everything below that can
be dropped beforehand.

The cumulative weights cut the weight of the prefix into half-open slices, no
two of which share a number (`InSlice.unique`).
-/
import Mathlib.Algebra.Order.BigOperators.Group.List
import Mathlib.Algebra.Order.Field.Basic
import Mathlib.Tactic.Linarith

namespace TopMass

variable {α K : Type*} [Field K] {p : α → K} {order : List α} {bound : K} {k m : Nat}

/-- The weight of the first `k` entries. -/
def mass (p : α → K) (order : List α) (k : Nat) : K := ((order.take k).map p).sum

theorem mass_zero (p : α → K) (order : List α) : mass p order 0 = 0 := rfl

theorem mass_succ (p : α → K) (h : k < order.length) :
    mass p order (k + 1) = mass p order k + p order[k] := by
  unfold mass
  rw [List.take_succ_eq_append_getElem h, List.map_append, List.sum_append,
    List.map_cons, List.map_nil, List.sum_singleton]

theorem mass_length (p : α → K) (order : List α) :
    mass p order order.length = (order.map p).sum := by
  rw [mass, List.take_length]

theorem mass_append (p : α → K) (front back : List α) (h : k ≤ front.length) :
    mass p (front ++ back) k = mass p front k := by
  rw [mass, mass, List.take_append_of_le_length h]

variable [LinearOrder K]

/-- The shortest prefix of a descending order whose weight exceeds `bound`. -/
structure Shortest (p : α → K) (order : List α) (bound : K) (m : Nat) : Prop where
  descending : order.Pairwise fun a b => p b ≤ p a
  size : m ≤ order.length
  exceeds : bound < mass p order m
  shortest : ∀ k < m, mass p order k ≤ bound

/-- **There is a shortest prefix** when everything together exceeds the bound. -/
theorem exists_shortest (hd : order.Pairwise fun a b => p b ≤ p a) (h : bound < (order.map p).sum) :
    ∃ m, Shortest p order bound m := by
  classical
  rw [← mass_length] at h
  have hex : ∃ k, bound < mass p order k := ⟨_, h⟩
  refine ⟨Nat.find hex, hd, Nat.find_min' hex h, Nat.find_spec hex, fun k hk => ?_⟩
  exact not_lt.mp (Nat.find_min hex hk)

/-- It has an entry. -/
theorem Shortest.pos (h : Shortest p order bound m) (hb : 0 ≤ bound) : 0 < m := by
  rcases Nat.eq_zero_or_pos m with rfl | hpos
  · have := h.exceeds
    rw [mass_zero] at this
    exact absurd hb (not_le.mpr this)
  · exact hpos

/-- `x` lies in the slice of the entry at `k`. -/
def InSlice (p : α → K) (order : List α) (x : K) (k : Nat) : Prop :=
  mass p order k ≤ x ∧ x < mass p order (k + 1)

variable [IsStrictOrderedRing K]

theorem mass_mono (hp : ∀ a ∈ order, 0 ≤ p a) (h : k ≤ m) : mass p order k ≤ mass p order m := by
  have hsplit : order.take m = order.take k ++ (order.take m).drop k := by
    conv_lhs => rw [← List.take_append_drop k (order.take m), List.take_take, Nat.min_eq_left h]
  unfold mass
  rw [hsplit, List.map_append, List.sum_append]
  refine le_add_of_nonneg_right (List.sum_nonneg fun x hx => ?_)
  obtain ⟨a, ha, rfl⟩ := List.mem_map.mp hx
  exact hp a (List.mem_of_mem_take (List.mem_of_mem_drop ha))

/-- What is behind an entry weighs no more than as many copies of it. -/
theorem sum_drop_le (hd : order.Pairwise fun a b => p b ≤ p a) (h : k < order.length) :
    ((order.drop k).map p).sum ≤ (order.length - k : Nat) * p order[k] := by
  have hle : ∀ x ∈ (order.drop k).map p, x ≤ p order[k] := by
    intro x hx
    obtain ⟨a, ha, rfl⟩ := List.mem_map.mp hx
    rw [List.drop_eq_getElem_cons h] at ha
    rcases List.mem_cons.mp ha with rfl | ha
    · exact le_refl _
    · have hcons := hd.sublist (List.drop_sublist k order)
      rw [List.drop_eq_getElem_cons h] at hcons
      exact (List.pairwise_cons.mp hcons).1 a ha
  have hsum := List.sum_le_card_nsmul _ _ hle
  rwa [List.length_map, List.length_drop, nsmul_eq_mul] at hsum

/-- **No entry of the prefix falls below the cutoff**, where it has two or more. -/
theorem Shortest.cutoff_le (h : Shortest p order bound m) (hb : bound ≤ (order.map p).sum) {n : Nat}
    (hn : order.length = n) (hm : 2 ≤ m) (hk : k < m) (hlen : k < order.length) :
    ((order.map p).sum - bound) / (n - 1 : Nat) ≤ p order[k] := by
  subst hn
  have hsize := h.size
  have hlast : m - 1 < order.length := by omega
  have hbefore := h.shortest (m - 1) (by omega)
  have hbehind := sum_drop_le h.descending hlast
  have hsplit : mass p order (m - 1) + ((order.drop (m - 1)).map p).sum = (order.map p).sum := by
    rw [mass, ← List.sum_append, ← List.map_append, List.take_append_drop]
  have hpos : (0 : K) < (order.length - 1 : Nat) := Nat.cast_pos.mpr (by omega)
  have hrest : (order.map p).sum - bound ≤
      (order.length - (m - 1) : Nat) * p order[m - 1] := by linarith
  have hcard : ((order.length - (m - 1) : Nat) : K) ≤ (order.length - 1 : Nat) :=
    Nat.cast_le.mpr (by omega)
  have hcount : (0 : K) < (order.length - (m - 1) : Nat) := Nat.cast_pos.mpr (by omega)
  have hnonneg : 0 ≤ p order[m - 1] := by
    refine nonneg_of_mul_nonneg_right (le_trans ?_ hrest) hcount
    linarith
  have hle : p order[m - 1] ≤ p order[k] := by
    rcases (show k ≤ m - 1 by omega).eq_or_lt with heq | hlt
    · exact le_of_eq (by congr 1; simp only [heq])
    · exact List.pairwise_iff_getElem.mp h.descending k (m - 1) hlen hlast hlt
  rw [div_le_iff₀ hpos]
  calc (order.map p).sum - bound ≤ (order.length - (m - 1) : Nat) * p order[m - 1] := hrest
    _ ≤ (order.length - 1 : Nat) * p order[m - 1] := mul_le_mul_of_nonneg_right hcard hnonneg
    _ ≤ (order.length - 1 : Nat) * p order[k] := mul_le_mul_of_nonneg_left hle hpos.le
    _ = p order[k] * (order.length - 1 : Nat) := mul_comm _ _

/-- The slices do not overlap. -/
theorem InSlice.unique {x : K} {i j : Nat} (hp : ∀ a ∈ order, 0 ≤ p a) (hi : InSlice p order x i)
    (hj : InSlice p order x j) : i = j := by
  by_contra hne
  rcases Nat.lt_or_gt_of_ne hne with hlt | hlt
  · exact absurd hi.2 (not_lt.mpr ((mass_mono hp hlt).trans hj.1))
  · exact absurd hj.2 (not_lt.mpr ((mass_mono hp hlt).trans hi.1))

/-- No slice of the prefix is empty. -/
theorem Shortest.slice_pos (h : Shortest p order bound m) (hk : k < m) :
    mass p order k < mass p order (k + 1) := by
  have hsize := h.size
  have hlast : m - 1 < order.length := by omega
  have hlen : k < order.length := by omega
  have hbefore := h.shortest (m - 1) (by omega)
  have hlastPos : 0 < p order[m - 1] := by
    have hsucc := mass_succ p hlast
    have hexceeds := h.exceeds
    rw [show m - 1 + 1 = m by omega] at hsucc
    linarith
  rw [mass_succ p hlen]
  refine lt_add_of_pos_right _ ?_
  rcases (show k ≤ m - 1 by omega).eq_or_lt with heq | hlt
  · exact heq ▸ hlastPos
  · exact hlastPos.trans_le (List.pairwise_iff_getElem.mp h.descending k (m - 1) hlen hlast hlt)

end TopMass
