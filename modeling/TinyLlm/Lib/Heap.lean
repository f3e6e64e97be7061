/-
# `TinyLlm.Lib.Heap` — binary heaps laid out in an array

The children of position `i` are `2 i + 1` and `2 i + 2`.  An array is a
function on positions, of which the first `n` count, and an exchange of two
elements is the composition with `Equiv.swap`.

`Sinking` is the state of a heap in the middle of a sift: in order everywhere
but below one position.  An exchange with the larger child moves that position
down (`Sinking.sink`), and where no child is larger the heap is in order
(`Sinking.settle`).  `Sorting` is the state of the second phase of heapsort: a
heap in front, and behind it what was taken off it, in ascending order.
-/
import Mathlib.Data.List.Perm.Basic
import Mathlib.Data.List.Nodup
import Mathlib.Data.List.Range
import Mathlib.Logic.Equiv.Basic
import Mathlib.Order.Lattice

namespace Heap

/-- `c` is a child of `p`. -/
def Child (p c : Nat) : Prop := c = 2 * p + 1 ∨ c = 2 * p + 2

theorem Child.lt {p c : Nat} (h : Child p c) : p < c := by
  rcases h with rfl | rfl <;> omega

/-- A child has one parent. -/
theorem Child.unique {p q c : Nat} (hp : Child p c) (hq : Child q c) : p = q := by
  unfold Child at hp hq
  omega

theorem exists_parent {c : Nat} (h : 0 < c) : ∃ p, Child p c := by
  refine ⟨(c - 1) / 2, ?_⟩
  unfold Child
  omega

/-- A permutation that moves nothing from `n` on. -/
def FixesFrom (n : Nat) (σ : Equiv.Perm Nat) : Prop := ∀ i, n ≤ i → σ i = i

section Fixes
variable {n m i j : Nat} {σ τ : Equiv.Perm Nat}

theorem FixesFrom.refl (n : Nat) : FixesFrom n (Equiv.refl Nat) := fun _ _ => rfl

theorem FixesFrom.trans (hσ : FixesFrom n σ) (hτ : FixesFrom n τ) : FixesFrom n (σ.trans τ) := by
  intro i hi
  rw [Equiv.trans_apply, hσ i hi, hτ i hi]

theorem FixesFrom.mono (hσ : FixesFrom m σ) (h : m ≤ n) : FixesFrom n σ :=
  fun i hi => hσ i (h.trans hi)

theorem FixesFrom.swap (hi : i < n) (hj : j < n) : FixesFrom n (Equiv.swap i j) := by
  intro k hk
  exact Equiv.swap_apply_of_ne_of_ne (by omega) (by omega)

/-- Positions below `n` stay below. -/
theorem FixesFrom.lt (hσ : FixesFrom n σ) (hi : i < n) : σ i < n := by
  by_contra h
  have hfix : σ (σ i) = σ i := hσ _ (Nat.not_lt.mp h)
  have : σ i = i := σ.injective hfix
  omega

/-- The first `n` elements are permuted. -/
theorem FixesFrom.perm {α : Type*} (hσ : FixesFrom n σ) (a : Nat → α) :
    ((List.range n).map (a ∘ σ)).Perm ((List.range n).map a) := by
  have hrange : ((List.range n).map σ).Perm (List.range n) := by
    refine (List.perm_ext_iff_of_nodup (List.nodup_range.map σ.injective) List.nodup_range).mpr
      fun k => ?_
    constructor
    · intro hk
      obtain ⟨i, hi, rfl⟩ := List.mem_map.mp hk
      exact List.mem_range.mpr (hσ.lt (List.mem_range.mp hi))
    · intro hk
      refine List.mem_map.mpr ⟨σ.symm k, List.mem_range.mpr ?_, σ.apply_symm_apply k⟩
      by_contra h
      have hfix := hσ _ (Nat.not_lt.mp h)
      rw [σ.apply_symm_apply] at hfix
      have := List.mem_range.mp hk
      omega
  rw [← List.map_map]
  exact hrange.map a

end Fixes

variable {K : Type*} [LinearOrder K] {a : Nat → K} {lo n i hole : Nat}

/-! ## Heaps -/

/-- Among the first `n` elements none from `lo` on has a larger child. -/
def HeapFrom (a : Nat → K) (lo n : Nat) : Prop := ∀ p c, lo ≤ p → Child p c → c < n → a c ≤ a p

/-- **The root is the largest.** -/
theorem HeapFrom.root (h : HeapFrom a 0 n) (hi : i < n) : a i ≤ a 0 := by
  induction i using Nat.strongRecOn with
  | ind i ih =>
      rcases Nat.eq_zero_or_pos i with rfl | hpos
      · exact le_refl _
      · obtain ⟨p, hp⟩ := exists_parent hpos
        exact (h p i (Nat.zero_le p) hp hi).trans (ih p hp.lt (hp.lt.trans hi))

/-- In order from `lo` on, but for the children of `hole`, which are no larger
than its parent. -/
structure Sinking (a : Nat → K) (lo hole n : Nat) : Prop where
  except : ∀ p c, lo ≤ p → p ≠ hole → Child p c → c < n → a c ≤ a p
  grand : ∀ p c, lo ≤ p → Child p hole → Child hole c → c < n → a c ≤ a p

/-- A sift that begins: everything behind `lo` is in order. -/
theorem HeapFrom.sinking (h : HeapFrom a (lo + 1) n) : Sinking a lo lo n where
  except p c hp hne hc hcn := h p c (by omega) hc hcn
  grand p c hp hchild _ _ := by
    have := hchild.lt
    omega

/-- **One round of a sift**, with the larger of the children. -/
theorem Sinking.sink {big : Nat} (h : Sinking a lo hole n) (hbig : Child hole big) (hbn : big < n)
    (hmax : ∀ c, Child hole c → c < n → a c ≤ a big) (hgt : a hole ≤ a big) :
    Sinking (a ∘ Equiv.swap hole big) lo big n := by
  have hlt := hbig.lt
  have hother : ∀ c, c ≠ hole → c ≠ big → (a ∘ Equiv.swap hole big) c = a c := fun c h₁ h₂ =>
    congrArg a (Equiv.swap_apply_of_ne_of_ne h₁ h₂)
  have hhole : (a ∘ Equiv.swap hole big) hole = a big := congrArg a (Equiv.swap_apply_left hole big)
  have hbigAt : (a ∘ Equiv.swap hole big) big = a hole :=
    congrArg a (Equiv.swap_apply_right hole big)
  constructor
  · intro p c hp hne hc hcn
    have hpc := hc.lt
    by_cases hph : p = hole
    · subst hph
      rw [hhole]
      by_cases hcb : c = big
      · rw [hcb, hbigAt]
        exact hgt
      · rw [hother c (by omega) hcb]
        exact hmax c hc hcn
    · rw [hother p hph hne]
      by_cases hch : c = hole
      · subst hch
        rw [hhole]
        exact h.grand p big hp hc hbig hbn
      · have hcb : c ≠ big := by
          rintro rfl
          exact hph (hc.unique hbig)
        rw [hother c hch hcb]
        exact h.except p c hp hph hc hcn
  · intro p c hp hpb hc hcn
    obtain rfl := hpb.unique hbig
    have hbc := hc.lt
    rw [hhole, hother c (by omega) (by omega)]
    exact h.except big c (by omega) (by omega) hc hcn

/-- Where no child is larger, the heap is in order. -/
theorem Sinking.settle (h : Sinking a lo hole n) (hmax : ∀ c, Child hole c → c < n → a c ≤ a hole) :
    HeapFrom a lo n := by
  intro p c hp hc hcn
  by_cases hph : p = hole
  · subst hph
    exact hmax c hc hcn
  · exact h.except p c hp hph hc hcn

/-! ## Taking the largest off, again and again -/

/-- The first `m` elements are a heap; the others, up to `n`, ascend and are no
smaller than those in front. -/
structure Sorting (a : Nat → K) (m n : Nat) : Prop where
  heap : HeapFrom a 0 m
  ascend : ∀ i j, m ≤ i → i ≤ j → j < n → a i ≤ a j
  above : ∀ i j, i < m → m ≤ j → j < n → a i ≤ a j

theorem HeapFrom.sorting (h : HeapFrom a 0 n) : Sorting a n n where
  heap := h
  ascend i j hi hij hj := absurd hj (by omega)
  above i j _ hj hjn := absurd hjn (by omega)

/-- The largest goes behind the others, which are a heap but for its root. -/
theorem Sorting.pop {m : Nat} (h : Sorting a (m + 1) n) :
    Sinking (a ∘ Equiv.swap 0 m) 0 0 m ∧
      (∀ i j, m ≤ i → i ≤ j → j < n → (a ∘ Equiv.swap 0 m) i ≤ (a ∘ Equiv.swap 0 m) j) ∧
      ∀ i j, i < m → m ≤ j → j < n → (a ∘ Equiv.swap 0 m) i ≤ (a ∘ Equiv.swap 0 m) j := by
  have hlast : (a ∘ Equiv.swap 0 m) m = a 0 := congrArg a (Equiv.swap_apply_right 0 m)
  have hother : ∀ i, i ≠ 0 → i ≠ m → (a ∘ Equiv.swap 0 m) i = a i := fun i h₁ h₂ =>
    congrArg a (Equiv.swap_apply_of_ne_of_ne h₁ h₂)
  have hfront : ∀ i, i < m → ∃ k < m + 1, (a ∘ Equiv.swap 0 m) i = a k := fun i hi =>
    ⟨Equiv.swap 0 m i, (FixesFrom.swap (Nat.succ_pos m) (Nat.lt_succ_self m)).lt (by omega), rfl⟩
  have hbehind : ∀ k < m + 1, ∀ j, m ≤ j → j < n → a k ≤ (a ∘ Equiv.swap 0 m) j := by
    intro k hk j hj hjn
    rcases hj.eq_or_lt with rfl | hlt
    · rw [hlast]
      exact h.heap.root hk
    · rw [hother j (by omega) (by omega)]
      exact h.above k j hk hlt hjn
  refine ⟨⟨?_, ?_⟩, ?_, ?_⟩
  · intro p c _ hp hc hcm
    have hpc := hc.lt
    rw [hother p hp (by omega), hother c (by omega) (by omega)]
    exact h.heap p c (Nat.zero_le p) hc (by omega)
  · intro p c _ hp _ _
    exact absurd hp.lt (Nat.not_lt_zero p)
  · intro i j hi hij hj
    rcases hi.eq_or_lt with rfl | hlt
    · rw [hlast]
      exact hbehind 0 (Nat.succ_pos m) j hij hj
    · rw [hother i (by omega) (by omega), hother j (by omega) (by omega)]
      exact h.ascend i j hlt hij hj
  · intro i j hi hj hjn
    obtain ⟨k, hk, hik⟩ := hfront i hi
    rw [hik]
    exact hbehind k hk j hj hjn

/-- The heap in front is put in order again, which moves nothing behind it. -/
theorem Sorting.push {b : Nat → K} {m : Nat} {σ : Equiv.Perm Nat} (hσ : FixesFrom m σ)
    (hheap : HeapFrom (b ∘ σ) 0 m) (hascend : ∀ i j, m ≤ i → i ≤ j → j < n → b i ≤ b j)
    (habove : ∀ i j, i < m → m ≤ j → j < n → b i ≤ b j) : Sorting (b ∘ σ) m n := by
  have hbehind : ∀ j, m ≤ j → (b ∘ σ) j = b j := fun j hj => congrArg b (hσ j hj)
  refine ⟨hheap, ?_, ?_⟩
  · intro i j hi hij hj
    rw [hbehind i hi, hbehind j (hi.trans hij)]
    exact hascend i j hi hij hj
  · intro i j hi hj hjn
    rw [hbehind j hj]
    exact habove (σ i) j (hσ.lt hi) hj hjn

/-- With one element left in front everything ascends. -/
theorem Sorting.ascending {m : Nat} (h : Sorting a m n) (hm : m ≤ 1) {i j : Nat} (hij : i ≤ j)
    (hj : j < n) :
    a i ≤ a j := by
  by_cases hi : m ≤ i
  · exact h.ascend i j hi hij hj
  · rcases hij.eq_or_lt with rfl | hlt
    · exact le_refl _
    · exact h.above i j (by omega) (by omega) hj

end Heap
