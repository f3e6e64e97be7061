/-
# `TinyLlm.Lib.Touches` — what a program reads and writes

A program over a state that has a memory in it touches `(R, W)` when it leaves
every location outside `W` alone, whether it returns or fails, and from two
states that agree on `R` it ends alike: with the same failure, or with memories
that agree on `W`.  What else the states hold may differ.

The rules follow the program text, as those of `TinyLlm.Lib.Relational` do, and
an operation on memory brings its footprint along (`Touches.modify`).
-/
import TinyLlm.Lib.Footprint
import TinyLlm.Lib.Relational

namespace Footprints

open Relational

variable {ι : Type} {V : ι → Type} {ε σ α : Type} {mem : σ → ∀ l, V l}

/-- Both runs fail alike; no failure is excluded. -/
def alike : Mode ε := Mode.agree fun _ => False

/-- See the head of this file. -/
structure Touches (mem : σ → ∀ l, V l) (R W : Set ι) (p : Prog ε σ Unit) : Prop where
  frame : Keeps (fun s t => ∀ l ∉ W, mem t l = mem s l) p
  det : Rel alike (fun s t => Agree R (mem s) (mem t)) p p fun _ _ s t => Agree W (mem s) (mem t)

variable {R R' R₁ R₂ W W₁ W₂ : Set ι} {p q : Prog ε σ Unit}

/-- **A program extends agreement** by what it writes. -/
theorem Touches.agree (h : Touches mem R W p) {A : Set ι} (hR : R ⊆ A) :
    Rel alike (fun s t => Agree A (mem s) (mem t)) p p
      fun _ _ s t => Agree (A ∪ W) (mem s) (mem t) := by
  intro s t hA
  have hdet := h.det s t (hA.mono hR)
  have hs := h.frame s
  have ht := h.frame t
  rcases hps : p.exec s with ⟨e | a, s'⟩
  · rw [hps] at hdet
    exact hdet
  · rw [hps] at hdet hs
    obtain ⟨b, t', hpt, hW⟩ := hdet
    rw [hpt] at ht
    refine ⟨b, t', hpt, fun l hl => ?_⟩
    by_cases hw : l ∈ W
    · exact hW l hw
    · rw [hs l hw, ht l hw]
      exact hA l (hl.resolve_right hw)

/-- One run leaves alone what the program does not write. -/
theorem Touches.exec_frame (h : Touches mem R W p) {s s' : σ} {r : Except ε Unit}
    (hrun : p.exec s = (r, s')) :
    ∀ l ∉ W, mem s' l = mem s l := by
  intro l hl
  have hframe := h.frame s l hl
  rw [hrun] at hframe
  exact hframe

theorem Touches.mono (h : Touches mem R W p) (hR : R ⊆ R') : Touches mem R' W p :=
  ⟨h.frame, h.det.conseq (fun _ _ hA => hA.mono hR) fun _ _ _ _ hW => hW⟩

/-- An operation on the memory. -/
theorem Touches.modify {op : (∀ l, V l) → ∀ l, V l} {f : σ → σ} (h : Footprint R W op)
    (hf : ∀ s, mem (f s) = op (mem s)) : Touches mem R W (modify f : Prog ε σ Unit) := by
  constructor
  · intro s l hl
    show mem (f s) l = mem s l
    rw [hf]
    exact h.frame (mem s) l hl
  · refine Rel.modify fun s t hA => ?_
    rw [hf, hf]
    exact (h.agree (Set.Subset.refl R) hA).mono Set.subset_union_right

theorem Touches.pure : Touches mem R ∅ (pure () : Prog ε σ Unit) :=
  ⟨fun _ _ _ => rfl, Rel.pure fun _ _ _ _ hl => absurd hl (Set.notMem_empty _)⟩

/-- A failure skips the rest. -/
theorem Touches.throw_bind {e : ε} {f : α → Prog ε σ Unit} :
    Touches mem R W ((MonadExcept.throw e : Prog ε σ α) >>= f) :=
  ⟨fun _ _ _ => rfl, Rel.throw_bind id⟩

/-- **Sequence**: the second program may read what the first wrote. -/
theorem Touches.seq (hp : Touches mem R W₁ p) (hq : Touches mem R₂ W₂ q) (hR : R₂ ⊆ R ∪ W₁) :
    Touches mem R (W₁ ∪ W₂) (p >>= fun _ => q) := by
  constructor
  · refine Keeps.bind (fun s t u hst htu l hl => (htu l hl).trans (hst l hl)) ?_ fun _ => ?_
    · exact fun s l hl => hp.frame s l fun h => hl (.inl h)
    · exact fun s l hl => hq.frame s l fun h => hl (.inr h)
  · refine ((hp.agree (Set.Subset.refl R)).seq (hq.agree hR)).conseq (fun _ _ hA => hA) ?_
    intro _ _ s t hA
    refine hA.mono ?_
    rw [Set.union_assoc]
    exact Set.subset_union_right

/-- Sequence, as it is read from the program: the rest may read what was read
before and what was written. -/
theorem Touches.andThen (hp : Touches mem R₁ W₁ p) (hR : R₁ ⊆ R) (hq : Touches mem (R ∪ W₁) W₂ q) :
    Touches mem R (W₁ ∪ W₂) (p >>= fun _ => q) :=
  (hp.mono hR).seq hq (Set.Subset.refl _)

/-- A value that no two states give differently, and that is got without a write. -/
theorem Touches.bind {p : Prog ε σ α} {f : α → Prog ε σ Unit}
    (hkeep : ∀ s, mem (p.exec s).2 = mem s) (hsame : ∀ s t, (p.exec s).1 = (p.exec t).1)
    (hf : ∀ a, Touches mem R W (f a)) :
    Touches mem R W (p >>= f) := by
  constructor
  · refine Keeps.bind (fun s t u hst htu l hl => (htu l hl).trans (hst l hl)) ?_
      fun a => (hf a).frame
    exact fun s l _ => congrFun (hkeep s) l
  · refine Rel.bind_alike (I := fun s t => Agree R (mem s) (mem t)) ?_ fun a => (hf a).det
    intro s t hA
    have hst := hsame s t
    have hs := hkeep s
    have ht := hkeep t
    rcases hps : p.exec s with ⟨e | a, s'⟩
    · rcases hpt : p.exec t with ⟨r, t'⟩
      rw [hps, hpt] at hst
      cases hst
      exact ⟨id, fun _ => ⟨t', rfl⟩⟩
    · rcases hpt : p.exec t with ⟨r, t'⟩
      rw [hps, hpt] at hst
      rw [hps] at hs
      rw [hpt] at ht
      cases hst
      refine ⟨a, t', rfl, rfl, fun l hl => ?_⟩
      exact (congrFun hs l).trans ((hA l hl).trans (congrFun ht l).symm)

theorem Touches.ite {c : Prop} [Decidable c] (ht : c → Touches mem R W p)
    (hf : ¬ c → Touches mem R W q) :
    Touches mem R W (if c then p else q) := by
  by_cases hc : c
  · rw [if_pos hc]
    exact ht hc
  · rw [if_neg hc]
    exact hf hc

/-- **The loop**: round `i` may read what the rounds before it wrote. -/
theorem Touches.forUpTo {body : Nat → Prog ε σ Unit} {n : Nat} {S : Nat → Set ι}
    (h : ∀ i < n, Touches mem (R ∪ ⋃ k < i, S k) (S i) (body i)) :
    Touches mem R (⋃ k < n, S k) (forUpTo n body) := by
  induction n with
  | zero =>
      have hempty : (⋃ k < 0, S k) = (∅ : Set ι) := by simp
      rw [hempty]
      exact Touches.pure
  | succ n ih =>
      have hstep := h n (Nat.lt_succ_self n)
      have hrest := ih fun i hi => h i (Nat.lt_succ_of_lt hi)
      have hunion : (⋃ k < n + 1, S k) = (⋃ k < n, S k) ∪ S n := by
        simp only [Nat.lt_succ_iff_lt_or_eq, Set.iUnion_or, Set.iUnion_union_distrib,
          Set.iUnion_iUnion_eq_left]
      rw [hunion]
      exact hrest.seq hstep (Set.Subset.refl _)

end Footprints
