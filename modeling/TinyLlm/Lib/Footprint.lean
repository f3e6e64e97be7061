/-
# `TinyLlm.Lib.Footprint` — what an operation on memory reads and writes

A memory is a dependent function from locations to values.  An operation has
footprint `(R, W)` when it leaves every location outside `W` alone and fills
every location in `W` with a value that depends on the locations in `R` only.

From two memories that agree on `A ⊇ R` such an operation reaches memories
that agree on `A ∪ W` (`Footprint.agree`): what was stale before and is in `W`
is stale no longer.  Footprints compose along a sequence and along a counted
loop, where a later step may read what an earlier one wrote.
-/
import Mathlib.Logic.Function.DependsOn
import Mathlib.Data.Set.Lattice
import TinyLlm.Lib.Loop

namespace Footprints

open Loop

variable {ι : Type} {V : ι → Type} {β γ : Type}

/-- Two memories agree on a set of locations. -/
def Agree (A : Set ι) (m₁ m₂ : ∀ l, V l) : Prop := ∀ l ∈ A, m₁ l = m₂ l

theorem Agree.mono {A B : Set ι} {m₁ m₂ : ∀ l, V l} (h : Agree B m₁ m₂) (hsub : A ⊆ B) :
    Agree A m₁ m₂ :=
  fun l hl => h l (hsub hl)

/-- See the head of this file. -/
structure Footprint (R W : Set ι) (op : (∀ l, V l) → ∀ l, V l) : Prop where
  frame : ∀ m, ∀ l ∉ W, op m l = m l
  det : ∀ l ∈ W, DependsOn (fun m => op m l) R

variable {R R' R₁ R₂ W W₁ W₂ : Set ι} {op op₁ op₂ : (∀ l, V l) → ∀ l, V l}

/-- **An operation extends agreement** by what it writes. -/
theorem Footprint.agree (h : Footprint R W op) {A : Set ι} (hR : R ⊆ A) {m₁ m₂ : ∀ l, V l}
    (hA : Agree A m₁ m₂) : Agree (A ∪ W) (op m₁) (op m₂) := by
  intro l hl
  by_cases hw : l ∈ W
  · exact h.det l hw fun k hk => hA k (hR hk)
  · rw [h.frame m₁ l hw, h.frame m₂ l hw]
    exact hA l (hl.resolve_right hw)

theorem Footprint.mono (h : Footprint R W op) (hR : R ⊆ R') : Footprint R' W op :=
  ⟨h.frame, fun l hl => (h.det l hl).mono hR⟩

/-- Doing nothing. -/
theorem Footprint.id : Footprint R ∅ (fun m : ∀ l, V l => m) :=
  ⟨fun _ _ _ => rfl, fun _ hl => absurd hl (Set.notMem_empty _)⟩

/-- **Sequence**: the second operation may read what the first wrote. -/
theorem Footprint.comp (h₂ : Footprint R₂ W₂ op₂) (h₁ : Footprint R W₁ op₁) (hR : R₂ ⊆ R ∪ W₁) :
    Footprint R (W₁ ∪ W₂) (fun m => op₂ (op₁ m)) := by
  constructor
  · intro m l hl
    rw [h₂.frame _ l fun h => hl (.inr h), h₁.frame _ l fun h => hl (.inl h)]
  · intro l hl m₁ m₂ hA
    have hmid := h₁.agree (Set.Subset.refl R) hA
    by_cases hw : l ∈ W₂
    · exact h₂.det l hw fun k hk => hmid k (hR hk)
    · show op₂ (op₁ m₁) l = op₂ (op₁ m₂) l
      rw [h₂.frame _ l hw, h₂.frame _ l hw]
      exact h₁.det l (hl.resolve_right hw) hA

/-- A local value that is computed from memory first. -/
theorem Footprint.bind {g : (∀ l, V l) → β} {f : β → (∀ l, V l) → ∀ l, V l}
    (hg : DependsOn g R) (h : ∀ b, Footprint R W (f b)) : Footprint R W (fun m => f (g m) m) := by
  constructor
  · intro m l hl
    exact (h (g m)).frame m l hl
  · intro l hl m₁ m₂ hA
    show f (g m₁) m₁ l = f (g m₂) m₂ l
    rw [hg hA]
    exact (h (g m₂)).det l hl hA

/-- **The loop**: round `i` may read what the rounds before it wrote. -/
theorem Footprint.forUp {f : Nat → (∀ l, V l) → ∀ l, V l} {n : Nat} {S : Nat → Set ι}
    (h : ∀ i < n, Footprint (R ∪ ⋃ k < i, S k) (S i) (f i)) :
    Footprint R (⋃ k < n, S k) (fun m => Loop.forUp n f m) := by
  induction n with
  | zero =>
      have hempty : (⋃ k < 0, S k) = (∅ : Set ι) := by simp
      rw [hempty]
      exact Footprint.id
  | succ n ih =>
      have hstep := h n (Nat.lt_succ_self n)
      have hrest := ih fun i hi => h i (Nat.lt_succ_of_lt hi)
      have hunion : (⋃ k < n + 1, S k) = (⋃ k < n, S k) ∪ S n := by
        simp only [Nat.lt_succ_iff_lt_or_eq, Set.iUnion_or, Set.iUnion_union_distrib,
          Set.iUnion_iUnion_eq_left]
      rw [hunion]
      exact hstep.comp hrest (Set.Subset.refl _)

/-- What is in `R` and left alone is as good as written. -/
theorem Footprint.widen (h : Footprint R W op) {W' : Set ι} (hW : W ⊆ W') (hR : W' ⊆ R ∪ W) :
    Footprint R W' op := by
  constructor
  · intro m l hl
    exact h.frame m l fun hw => hl (hW hw)
  · intro l hl m₁ m₂ hA
    exact h.agree (Set.Subset.refl R) hA l (hR hl)

/-- A loop whose rounds all work on the same locations. -/
theorem Footprint.forUp_same {f : Nat → (∀ l, V l) → ∀ l, V l} {n : Nat} (hW : W ⊆ R)
    (h : ∀ i < n, Footprint R W (f i)) : Footprint R W (fun m => Loop.forUp n f m) := by
  refine (Footprint.forUp (S := fun _ => W) fun i hi => ?_).widen (fun l hl => ?_)
    fun l hl => .inl (hW hl)
  · exact (h i hi).mono Set.subset_union_left
  · obtain ⟨_, _, hl⟩ := Set.mem_iUnion₂.mp hl
    exact hl

/-- The first `n` locations of a sequence. -/
def cells (loc : Nat → ι) (n : Nat) : Set ι := {l | ∃ i < n, l = loc i}

section Update
variable [DecidableEq ι]

/-- One write. -/
theorem Footprint.write {l : ι} {g : (∀ l, V l) → V l} (hg : DependsOn g R) :
    Footprint R {l} (fun m => Function.update m l (g m)) := by
  constructor
  · intro m k hk
    exact Function.update_of_ne hk _ _
  · intro k hk m₁ m₂ hA
    cases hk
    show Function.update m₁ l (g m₁) l = Function.update m₂ l (g m₂) l
    rw [Function.update_self, Function.update_self]
    exact hg hA

/-- **A loop that writes one location in each round.** -/
theorem Footprint.fill {c : Nat → ι} {g : ∀ i, (∀ l, V l) → V (c i)} {n : Nat}
    (h : ∀ i < n, DependsOn (g i) R) :
    Footprint R (cells c n)
      (fun m => Loop.forUp n (fun i m => Function.update m (c i) (g i m)) m) := by
  have hloop := Footprint.forUp (n := n) (S := fun i => {c i}) fun i hi =>
    (Footprint.write (h i hi)).mono (Set.subset_union_left : R ⊆ R ∪ ⋃ k < i, {c k})
  have hcells : (⋃ k < n, {c k}) = cells c n := by
    ext l
    simp only [Set.mem_iUnion, Set.mem_singleton_iff, exists_prop]
    rfl
  rw [hcells] at hloop
  exact hloop

/-- Locations that no round writes. -/
theorem fill_frame (c : Nat → ι) (g : ∀ i, (∀ l, V l) → V (c i)) (m : ∀ l, V l) {l : ι} :
    ∀ {n : Nat}, (∀ k < n, l ≠ c k) →
      Loop.forUp n (fun i m => Function.update m (c i) (g i m)) m l = m l := by
  intro n hl
  refine Loop.forUp_inv (I := fun _ (m' : ∀ l, V l) => m' l = m l) rfl fun i hi m' hm' => ?_
  exact (Function.update_of_ne (hl i hi) _ _).trans hm'

/-- **What such a loop writes**: in each location what its round makes of the
memory before the loop, if no round reads what another wrote before it. -/
theorem fill_apply {c : Nat → ι} {g : ∀ i, (∀ l, V l) → V (c i)} {n : Nat}
    (hc : ∀ i < n, ∀ k < i, c k ≠ c i) (h : ∀ i < n, DependsOn (g i) {l | ∀ k < i, l ≠ c k})
    (m : ∀ l, V l) :
    ∀ i < n, Loop.forUp n (fun i m => Function.update m (c i) (g i m)) m (c i) = g i m := by
  induction n with
  | zero => exact fun i hi => absurd hi (Nat.not_lt_zero i)
  | succ n ih =>
      intro i hi
      rw [Loop.forUp]
      rcases Nat.lt_succ_iff_lt_or_eq.mp hi with hlt | rfl
      · rw [Function.update_of_ne (hc n (Nat.lt_succ_self n) i hlt)]
        exact ih (fun i hi => hc i (Nat.lt_succ_of_lt hi))
          (fun i hi => h i (Nat.lt_succ_of_lt hi)) i hlt
      · rw [Function.update_self]
        exact h i (Nat.lt_succ_self i) fun l hl => fill_frame c g m hl

end Update

/-! ## Values computed from memory -/

theorem dependsOn_read {l : ι} (h : l ∈ R) : DependsOn (fun m : ∀ l, V l => m l) R :=
  fun _ _ hA => hA l h

/-- Whatever is computed from values that depend on `R`. -/
theorem dependsOn_map {g : (∀ l, V l) → β} (f : β → γ) (hg : DependsOn g R) :
    DependsOn (fun m => f (g m)) R :=
  fun _ _ hA => congrArg f (hg hA)

theorem dependsOn_map₂ {δ : Type} {g : (∀ l, V l) → β} {g' : (∀ l, V l) → γ} (f : β → γ → δ)
    (hg : DependsOn g R) (hg' : DependsOn g' R) : DependsOn (fun m => f (g m) (g' m)) R := by
  intro m₁ m₂ hA
  show f (g m₁) (g' m₁) = f (g m₂) (g' m₂)
  rw [hg hA, hg' hA]

/-- An accumulator over values that depend on `R`. -/
theorem dependsOn_forUp {n : Nat} {f : Nat → (∀ l, V l) → γ → γ} {c : γ}
    (h : ∀ i < n, ∀ b, DependsOn (fun m => f i m b) R) :
    DependsOn (fun m => Loop.forUp n (fun i => f i m) c) R := by
  intro m₁ m₂ hA
  show Loop.forUp n (fun i => f i m₁) c = Loop.forUp n (fun i => f i m₂) c
  induction n with
  | zero => rfl
  | succ n ih =>
      rw [Loop.forUp, Loop.forUp, ih fun i hi => h i (Nat.lt_succ_of_lt hi)]
      exact h n (Nat.lt_succ_self n) _ hA

end Footprints
