/-
# `TinyLlm.Lib.Search` — binary search by probing

A search over the indices `lo … hi` that sees the array only through `probe`,
which says where the key lies relative to an index.  What is found is a hit
(`bsearch_some`) and was probed (`bsearch_mem`), and over a sorted array a hit
is found if the fuel is the size of the window (`bsearch_hit`,
`directed_of_sorted`).
-/
import Mathlib.Order.Basic
import Mathlib.Tactic.Common

namespace Search

/-- `while (lo <= hi) { mid = lo + (hi - lo) / 2; … }` -/
def bsearch (probe : Int → Ordering) : Nat → Int → Int → Option Int
  | 0, _, _ => none
  | n + 1, lo, hi =>
      if lo ≤ hi then
        let mid := lo + (hi - lo) / 2
        match probe mid with
        | .eq => some mid
        | .lt => bsearch probe n lo (mid - 1)
        | .gt => bsearch probe n (mid + 1) hi
      else none

/-- The indices that the search probes. -/
def path (probe : Int → Ordering) : Nat → Int → Int → List Int
  | 0, _, _ => []
  | n + 1, lo, hi =>
      if lo ≤ hi then
        let mid := lo + (hi - lo) / 2
        mid :: match probe mid with
          | .eq => []
          | .lt => path probe n lo (mid - 1)
          | .gt => path probe n (mid + 1) hi
      else []

variable {probe : Int → Ordering}

/-- What is found is in the window and is a hit. -/
theorem bsearch_some : ∀ {n : Nat} {lo hi i : Int}, bsearch probe n lo hi = some i →
    lo ≤ i ∧ i ≤ hi ∧ probe i = .eq := by
  intro n
  induction n with
  | zero => intro lo hi i h; cases h
  | succ n ih =>
      intro lo hi i h
      unfold bsearch at h
      split at h
      · next hle =>
          dsimp only at h
          split at h
          · next heq =>
              cases h
              exact ⟨by omega, by omega, heq⟩
          · obtain ⟨h₁, h₂, h₃⟩ := ih h
            exact ⟨h₁, by omega, h₃⟩
          · obtain ⟨h₁, h₂, h₃⟩ := ih h
            exact ⟨by omega, h₂, h₃⟩
      · cases h

/-- The search probes its window only. -/
theorem path_mem : ∀ {n : Nat} {lo hi i : Int}, i ∈ path probe n lo hi → lo ≤ i ∧ i ≤ hi := by
  intro n
  induction n with
  | zero => intro lo hi i h; cases h
  | succ n ih =>
      intro lo hi i h
      unfold path at h
      split at h
      · next hle =>
          dsimp only at h
          rcases List.mem_cons.mp h with rfl | h
          · omega
          · split at h
            · cases h
            · have hin := ih h
              omega
            · have hin := ih h
              omega
      · cases h

/-- What is found was probed. -/
theorem bsearch_mem : ∀ {n : Nat} {lo hi i : Int}, bsearch probe n lo hi = some i →
      i ∈ path probe n lo hi := by
  intro n
  induction n with
  | zero => intro lo hi i h; cases h
  | succ n ih =>
      intro lo hi i h
      unfold bsearch at h
      unfold path
      split at h
      · next hle =>
          rw [if_pos hle]
          dsimp only at h ⊢
          cases hp : probe (lo + (hi - lo) / 2) with
          | eq =>
              rw [hp] at h
              cases h
              exact List.mem_cons_self
          | lt =>
              rw [hp] at h
              exact List.mem_cons_of_mem _ (ih h)
          | gt =>
              rw [hp] at h
              exact List.mem_cons_of_mem _ (ih h)
      · cases h

/-- The probe points to one side of an index, and so does every index beyond it. -/
def Directed (probe : Int → Ordering) (lo hi : Int) : Prop :=
  ∀ i j, lo ≤ i → i ≤ j → j ≤ hi →
    (probe i = .lt → probe j = .lt) ∧ (probe j = .gt → probe i = .gt)

/-- **A hit is found.** -/
theorem bsearch_hit : ∀ {n : Nat} {lo hi i : Int}, Directed probe lo hi → lo ≤ i → i ≤ hi →
    probe i = .eq → hi + 1 - lo ≤ n → ∃ j, bsearch probe n lo hi = some j := by
  intro n
  induction n with
  | zero => intro lo hi i _ h₁ h₂ _ hn; omega
  | succ n ih =>
      intro lo hi i hdir hlo hhi hit hn
      rw [bsearch, if_pos (by omega)]
      dsimp only
      generalize hmid : lo + (hi - lo) / 2 = mid
      have hin : lo ≤ mid ∧ mid ≤ hi := by omega
      split
      · exact ⟨mid, rfl⟩
      · next hlt =>
          -- the key is below `mid`, so the hit is
          refine ih (fun a b h₁ h₂ h₃ => hdir a b h₁ h₂ (by omega)) hlo ?_ hit (by omega)
          by_contra hgt
          have hsame := (hdir mid i hin.1 (by omega) hhi).1 hlt
          rw [hit] at hsame
          cases hsame
      · next hgt =>
          refine ih (fun a b h₁ h₂ h₃ => hdir a b (by omega) h₂ h₃) ?_ hhi hit (by omega)
          by_contra hlt
          have hsame := (hdir i mid hlo (by omega) hin.2).2 hgt
          rw [hit] at hsame
          cases hsame

/-- Comparing a key with a sorted array is such a probe. -/
theorem directed_of_sorted {α : Type*} {cmp : α → α → Ordering} [Std.TransCmp cmp]
    {get : Int → α} {lo hi : Int} (key : α)
    (h : ∀ i j, lo ≤ i → i ≤ j → j ≤ hi → (cmp (get i) (get j)).isLE = true) :
    Directed (fun i => cmp key (get i)) lo hi := by
  intro i j hi' hij hj
  refine ⟨fun hlt => Std.TransCmp.lt_of_lt_of_isLE hlt (h i j hi' hij hj), fun hgt => ?_⟩
  refine Std.TransCmp.gt_of_gt_of_isGE hgt ?_
  have hswap : cmp (get j) (get i) = (cmp (get i) (get j)).swap := Std.OrientedCmp.eq_swap
  rw [hswap, Ordering.isGE_swap]
  exact h i j hi' hij hj

end Search
