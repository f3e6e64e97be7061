/-
# `TinyLlm.Lib.Loop` — while loops with fuel

A `while` loop over a state, run for at most `fuel` rounds.  The result is
`none` when the condition still holds after the last round, so a loop that
never ends is `none` at every fuel and a proof that it ends names a fuel.

A counted loop is `forUp`, with an invariant indexed by the round (`forUp_inv`);
where a round may fail it is `forUpM`, or `forDownM` towards zero, and the rule
gives a run without a failure.
-/
import Mathlib.Order.Basic

namespace Loop

variable {σ : Type*}

/-- `while (c s) s = f s;` for at most `fuel` rounds. -/
def whileFuel (c : σ → Bool) (f : σ → σ) : Nat → σ → Option σ
  | 0, s => if c s then none else some s
  | n + 1, s => if c s then whileFuel c f n (f s) else some s

theorem whileFuel_done {c : σ → Bool} {f : σ → σ} {s : σ} (h : c s = false) :
    ∀ n, whileFuel c f n s = some s
  | 0 => by simp [whileFuel, h]
  | _ + 1 => by simp [whileFuel, h]

theorem whileFuel_step {c : σ → Bool} {f : σ → σ} {s : σ} (h : c s = true) (n : Nat) :
    whileFuel c f (n + 1) s = whileFuel c f n (f s) := by
  simp [whileFuel, h]

/-! ## Counted loops -/

/-- `for (i = 0; i < n; i++) s = f(i, s);` -/
def forUp : Nat → (Nat → σ → σ) → σ → σ
  | 0, _, s => s
  | n + 1, f, s => f n (forUp n f s)

/-- **The counted loop rule.** -/
theorem forUp_inv {I : Nat → σ → Prop} {f : Nat → σ → σ} : ∀ {n : Nat} {s : σ}, I 0 s →
    (∀ i < n, ∀ s, I i s → I (i + 1) (f i s)) → I n (forUp n f s)
  | 0, _, h, _ => h
  | n + 1, _, h, hstep =>
      hstep n (Nat.lt_succ_self n) _
        (forUp_inv h fun i hi => hstep i (Nat.lt_succ_of_lt hi))

/-- **Two counted loops side by side.** -/
theorem forUp_rel {τ : Type*} {I : Nat → σ → τ → Prop} {f : Nat → σ → σ} {g : Nat → τ → τ} :
    ∀ {n : Nat} {s : σ} {t : τ}, I 0 s t →
      (∀ i < n, ∀ s t, I i s t → I (i + 1) (f i s) (g i t)) → I n (forUp n f s) (forUp n g t)
  | 0, _, _, h, _ => h
  | n + 1, _, _, h, hstep =>
      hstep n (Nat.lt_succ_self n) _ _ (forUp_rel h fun i hi => hstep i (Nat.lt_succ_of_lt hi))

/-- A loop is determined by its rounds. -/
theorem forUp_congr {f g : Nat → σ → σ} : ∀ {n : Nat} (s : σ), (∀ i < n, ∀ s, f i s = g i s) →
    forUp n f s = forUp n g s
  | 0, _, _ => rfl
  | n + 1, s, h => by
      rw [forUp, forUp, forUp_congr s fun i hi => h i (Nat.lt_succ_of_lt hi)]
      exact h n (Nat.lt_succ_self n) _

/-- A loop in two parts. -/
theorem forUp_add (f : Nat → σ → σ) (a : Nat) (s : σ) : ∀ b : Nat,
    forUp (a + b) f s = forUp b (fun i => f (a + i)) (forUp a f s)
  | 0 => rfl
  | b + 1 => by
      rw [Nat.add_succ, forUp, forUp, forUp_add f a s b]

/-! ## Counted loops whose rounds may fail -/

/-- `for (i = 0; i < n; i++)`, up to the first round that fails. -/
def forUpM (f : Nat → σ → Option σ) : Nat → σ → Option σ
  | 0, s => some s
  | n + 1, s => (forUpM f n s).bind (f n)

/-- `for (i = n - 1; i >= 0; i--)`, up to the first round that fails. -/
def forDownM (f : Nat → σ → Option σ) : Nat → σ → Option σ
  | 0, s => some s
  | n + 1, s => (f n s).bind (forDownM f n)

theorem forUpM_inv {I : Nat → σ → Prop} {f : Nat → σ → Option σ} : ∀ {n : Nat} {s : σ}, I 0 s →
    (∀ i < n, ∀ s, I i s → ∃ t, f i s = some t ∧ I (i + 1) t) → ∃ t, forUpM f n s = some t ∧ I n t
  | 0, s, h, _ => ⟨s, rfl, h⟩
  | n + 1, s, h, hstep => by
      obtain ⟨u, hu, hI⟩ := forUpM_inv h fun i hi => hstep i (Nat.lt_succ_of_lt hi)
      obtain ⟨t, ht, hI'⟩ := hstep n (Nat.lt_succ_self n) u hI
      refine ⟨t, ?_, hI'⟩
      rw [forUpM, hu]
      exact ht

/-- A loop none of whose rounds fails. -/
theorem forUpM_of_some {f : Nat → σ → Option σ} {g : Nat → σ → σ} (s : σ) : ∀ {n : Nat},
    (∀ i < n, ∀ s, f i s = some (g i s)) → forUpM f n s = some (forUp n g s)
  | 0, _ => rfl
  | n + 1, h => by
      rw [forUpM, forUpM_of_some s fun i hi => h i (Nat.lt_succ_of_lt hi)]
      exact h n (Nat.lt_succ_self n) _

theorem forDownM_inv {I : Nat → σ → Prop} {f : Nat → σ → Option σ} : ∀ {n : Nat} {s : σ}, I n s →
    (∀ i < n, ∀ s, I (i + 1) s → ∃ t, f i s = some t ∧ I i t) → ∃ t, forDownM f n s = some t ∧ I 0 t
  | 0, s, h, _ => ⟨s, rfl, h⟩
  | n + 1, s, h, hstep => by
      obtain ⟨u, hu, hI⟩ := hstep n (Nat.lt_succ_self n) s h
      obtain ⟨t, ht, hI'⟩ := forDownM_inv hI fun i hi => hstep i (Nat.lt_succ_of_lt hi)
      refine ⟨t, ?_, hI'⟩
      rw [forDownM, hu]
      exact ht

/-- Two such loops side by side, neither of which fails. -/
theorem forUpM_rel {τ : Type*} {I : Nat → σ → τ → Prop} {f : Nat → σ → Option σ}
    {g : Nat → τ → Option τ} :
    ∀ {n : Nat} {s : σ} {t : τ}, I 0 s t →
      (∀ i < n, ∀ s t, I i s t → ∃ s' t', f i s = some s' ∧ g i t = some t' ∧ I (i + 1) s' t') →
      ∃ s' t', forUpM f n s = some s' ∧ forUpM g n t = some t' ∧ I n s' t'
  | 0, s, t, h, _ => ⟨s, t, rfl, rfl, h⟩
  | n + 1, s, t, h, hstep => by
      obtain ⟨u, v, hu, hv, hI⟩ := forUpM_rel h fun i hi => hstep i (Nat.lt_succ_of_lt hi)
      obtain ⟨s', t', hs, ht, hI'⟩ := hstep n (Nat.lt_succ_self n) u v hI
      refine ⟨s', t', ?_, ?_, hI'⟩
      · rw [forUpM, hu]
        exact hs
      · rw [forUpM, hv]
        exact ht

theorem forDownM_rel {τ : Type*} {I : Nat → σ → τ → Prop} {f : Nat → σ → Option σ}
    {g : Nat → τ → Option τ} :
    ∀ {n : Nat} {s : σ} {t : τ}, I n s t →
      (∀ i < n, ∀ s t, I (i + 1) s t → ∃ s' t', f i s = some s' ∧ g i t = some t' ∧ I i s' t') →
      ∃ s' t', forDownM f n s = some s' ∧ forDownM g n t = some t' ∧ I 0 s' t'
  | 0, s, t, h, _ => ⟨s, t, rfl, rfl, h⟩
  | n + 1, s, t, h, hstep => by
      obtain ⟨u, v, hu, hv, hI⟩ := hstep n (Nat.lt_succ_self n) s t h
      obtain ⟨s', t', hs, ht, hI'⟩ := forDownM_rel hI fun i hi => hstep i (Nat.lt_succ_of_lt hi)
      refine ⟨s', t', ?_, ?_, hI'⟩
      · rw [forDownM, hu]
        exact hs
      · rw [forDownM, hv]
        exact ht

/-- The same where a failure says why. -/
def forUpE {ε : Type*} (f : Nat → σ → Except ε σ) : Nat → σ → Except ε σ
  | 0, s => .ok s
  | n + 1, s => (forUpE f n s).bind (f n)

end Loop
