/-
# `TinyLlm.Lib.Relational` — two programs side by side

A program over a state `σ` that may fail with an `ε` is a
`Prog ε σ α = ExceptT ε (StateM σ) α`.  `Rel E P p q Q` relates two such
programs: from states related by `P`, if `p` returns then `q` returns with
values and states related by `Q`.  What is asked when `p` fails is the mode
`E`: in `Mode.agree` the other fails alike, in `Mode.refine` nothing, and in
both a failure in `bad` cannot happen.

The rules follow the program text: `pure`, `throw`, `modify`, `bind`, `ite`
and the counted loop.  `Triple` is the same for one program alone, and
`Rel.of_triple` joins the two where a loop on one side is one step on the other.
-/
import Mathlib.Order.Basic

namespace Relational

variable {ε σ τ α β γ δ : Type}

/-- A program with state `σ` and failures `ε`; the state survives a failure. -/
abbrev Prog (ε σ α : Type) := ExceptT ε (StateM σ) α

/-- Run a program. -/
def Prog.exec (p : Prog ε σ α) (s : σ) : Except ε α × σ := p s

/-- `for (i = 0; i < n; i++) body(i);` -/
def forUpTo (n : Nat) (body : Nat → Prog ε σ Unit) : Prog ε σ Unit :=
  match n with
  | 0 => pure ()
  | n + 1 => do
      forUpTo n body
      body n

section Exec
variable {p : Prog ε σ α} {f : α → Prog ε σ β} {s s' : σ} {a : α} {e : ε}

@[simp] theorem exec_pure (a : α) (s : σ) : (pure a : Prog ε σ α).exec s = (.ok a, s) := rfl

@[simp] theorem exec_throw (e : ε) (s : σ) :
    (throw e : Prog ε σ α).exec s = (.error e, s) := rfl

@[simp] theorem exec_modify (g : σ → σ) (s : σ) :
    (modify g : Prog ε σ Unit).exec s = (.ok (), g s) := rfl

@[simp] theorem exec_get (s : σ) : (get : Prog ε σ σ).exec s = (.ok s, s) := rfl

theorem exec_bind (p : Prog ε σ α) (f : α → Prog ε σ β) (s : σ) :
    (p >>= f).exec s = match p.exec s with
      | (.ok a, s') => (f a).exec s'
      | (.error e, s') => (.error e, s') := by
  show (ExceptT.bindCont f (p s).1 (p s).2) = _
  unfold Prog.exec
  rcases p s with ⟨_ | a, s'⟩ <;> rfl

theorem exec_bind_ok (h : p.exec s = (.ok a, s')) : (p >>= f).exec s = (f a).exec s' := by
  rw [exec_bind, h]

theorem exec_bind_error (h : p.exec s = (.error e, s')) :
    (p >>= f).exec s = (.error e, s') := by
  rw [exec_bind, h]

/-- A sequence returned, so both parts did. -/
theorem exec_bind_eq_ok {b : β} {t : σ} (h : (p >>= f).exec s = (.ok b, t)) :
    ∃ a s', p.exec s = (.ok a, s') ∧ (f a).exec s' = (.ok b, t) := by
  rw [exec_bind] at h
  rcases hp : p.exec s with ⟨e | a, s'⟩
  · rw [hp] at h
    cases h
  · rw [hp] at h
    exact ⟨a, s', rfl, h⟩

/-- A loop returned, so all its rounds did. -/
theorem exec_forUpTo_ok {n : Nat} {body : Nat → Prog ε σ Unit} {t : σ}
    (h : (forUpTo n body).exec s = (.ok (), t)) :
    ∀ i < n, (body i).exec ((forUpTo i body).exec s).2 =
      (.ok (), ((forUpTo (i + 1) body).exec s).2) := by
  induction n generalizing t with
  | zero => exact fun i hi => absurd hi (Nat.not_lt_zero i)
  | succ n ih =>
      obtain ⟨u, s₁, hloop, hround⟩ := exec_bind_eq_ok h
      intro i hi
      rcases Nat.lt_succ_iff_lt_or_eq.mp hi with hlt | rfl
      · exact ih hloop i hlt
      · rw [h, hloop]
        exact hround

end Exec

/-! ## The triple -/

/-- What is asked when the left program fails: never with a failure in `bad`,
and in `strict` mode the right one fails with the same. -/
structure Mode (ε : Type) where
  strict : Prop
  bad : ε → Prop

/-- Both programs fail alike. -/
def Mode.agree (bad : ε → Prop) : Mode ε := ⟨True, bad⟩

/-- The right program does what the left one does, where the left returns. -/
def Mode.refine (bad : ε → Prop) : Mode ε := ⟨False, bad⟩

/-- `p` from a state and `q` from a related one; see the head of this file. -/
def Rel (E : Mode ε) (P : σ → τ → Prop) (p : Prog ε σ α) (q : Prog ε τ β)
    (Q : α → β → σ → τ → Prop) : Prop :=
  ∀ s t, P s t → match p.exec s with
    | (.ok a, s') => ∃ b t', q.exec t = (.ok b, t') ∧ Q a b s' t'
    | (.error e, _) => ¬ E.bad e ∧ (E.strict → ∃ t', q.exec t = (.error e, t'))

variable {E : Mode ε} {P P' I : σ → τ → Prop} {Q Q' : α → β → σ → τ → Prop}
variable {p : Prog ε σ α} {q : Prog ε τ β}

theorem Rel.pure {a : α} {b : β} (h : ∀ s t, P s t → Q a b s t) :
    Rel E P (pure a) (pure b) Q := by
  intro s t hst
  exact ⟨b, t, rfl, h s t hst⟩

theorem Rel.throw {e : ε} (h : ¬ E.bad e) : Rel E P (throw e) (throw e) Q := by
  intro s t _
  exact ⟨h, fun _ => ⟨t, rfl⟩⟩

theorem Rel.modify {f : σ → σ} {g : τ → τ} {Q : Unit → Unit → σ → τ → Prop}
    (h : ∀ s t, P s t → Q () () (f s) (g t)) : Rel E P (modify f) (modify g) Q := by
  intro s t hst
  exact ⟨(), g t, rfl, h s t hst⟩

/-- What the right program does when the left one returns. -/
theorem Rel.of_ok (hp : Rel E P p q Q) {s : σ} {t : τ} {a : α} (hst : P s t)
    (h : (p.exec s).1 = .ok a) : ∃ b t', q.exec t = (.ok b, t') ∧ Q a b (p.exec s).2 t' := by
  have hrel := hp s t hst
  rcases hps : p.exec s with ⟨e | a', s'⟩
  · rw [hps] at h
    cases h
  · rw [hps] at h hrel
    cases h
    exact hrel

/-- A bad failure does not happen. -/
theorem Rel.not_bad (hp : Rel E P p q Q) {s : σ} {t : τ} {e : ε} (hst : P s t)
    (h : (p.exec s).1 = .error e) : ¬ E.bad e := by
  have hrel := hp s t hst
  rcases hps : p.exec s with ⟨e' | a, s'⟩
  · rw [hps] at h hrel
    cases h
    exact hrel.1
  · rw [hps] at h
    cases h

/-- **Consequence.** -/
theorem Rel.conseq (hp : Rel E P p q Q) (hpre : ∀ s t, P' s t → P s t)
    (hpost : ∀ a b s t, Q a b s t → Q' a b s t) : Rel E P' p q Q' := by
  intro s t hst
  have h := hp s t (hpre s t hst)
  split at h
  · obtain ⟨b, t', hq, hQ⟩ := h
    exact ⟨b, t', hq, hpost _ _ _ _ hQ⟩
  · exact h

/-- **Sequence.** -/
theorem Rel.bind {f : α → Prog ε σ γ} {g : β → Prog ε τ δ} {R : γ → δ → σ → τ → Prop}
    (hp : Rel E P p q Q) (hf : ∀ a b, Rel E (Q a b) (f a) (g b) R) :
    Rel E P (p >>= f) (q >>= g) R := by
  intro s t hst
  have h := hp s t hst
  rw [exec_bind]
  rcases hps : p.exec s with ⟨e | a, s'⟩
  · rw [hps] at h
    refine ⟨h.1, fun hs => ?_⟩
    obtain ⟨t', hq⟩ := h.2 hs
    exact ⟨t', exec_bind_error hq⟩
  · rw [hps] at h
    obtain ⟨b, t', hq, hQ⟩ := h
    rw [exec_bind_ok hq]
    exact hf a b s' t' hQ

/-- Sequence with a condition that the values do not matter to. -/
theorem Rel.seq {p : Prog ε σ Unit} {q : Prog ε τ Unit} {f : Prog ε σ γ} {g : Prog ε τ δ}
    {R : γ → δ → σ → τ → Prop} (hp : Rel E P p q fun _ _ => I) (hf : Rel E I f g R) :
    Rel E P (p >>= fun _ => f) (q >>= fun _ => g) R :=
  hp.bind fun _ _ => hf

/-- A failure skips the rest. -/
theorem Rel.throw_bind {e : ε} {f : α → Prog ε σ γ} {g : β → Prog ε τ δ}
    {R : γ → δ → σ → τ → Prop} (h : ¬ E.bad e) :
    Rel E P ((MonadExcept.throw e : Prog ε σ α) >>= f)
      ((MonadExcept.throw e : Prog ε τ β) >>= g) R := by
  intro s t _
  exact ⟨h, fun _ => ⟨t, rfl⟩⟩

/-- Equal values, and states related by `I`. -/
def Alike (I : σ → τ → Prop) (a b : α) (s : σ) (t : τ) : Prop := a = b ∧ I s t

/-- Sequence where the second part goes on with the same value on both sides. -/
theorem Rel.bind_alike {q : Prog ε τ α} {f : α → Prog ε σ γ} {g : α → Prog ε τ δ}
    {R : γ → δ → σ → τ → Prop} (hp : Rel E P p q (Alike I)) (hf : ∀ a, Rel E I (f a) (g a) R) :
    Rel E P (p >>= f) (q >>= g) R := by
  refine hp.bind fun a b => ?_
  rintro s t ⟨rfl, hI⟩
  exact hf a s t hI

/-- **The loop.** An invariant that round `i` takes from `I i` to `I (i + 1)`. -/
theorem Rel.forUpTo {n : Nat} {body : Nat → Prog ε σ Unit} {body' : Nat → Prog ε τ Unit}
    {I : Nat → σ → τ → Prop}
    (h : ∀ i < n, Rel E (I i) (body i) (body' i) fun _ _ => I (i + 1)) :
    Rel E (I 0) (forUpTo n body) (forUpTo n body') fun _ _ => I n := by
  induction n with
  | zero => exact Rel.pure fun _ _ h => h
  | succ n ih =>
      exact (ih fun i hi => h i (Nat.lt_succ_of_lt hi)).seq (h n (Nat.lt_succ_self n))

/-- Conditions that do not depend on the states. -/
theorem Rel.ite {c : Prop} [Decidable c] {p' : Prog ε σ α} {q' : Prog ε τ β}
    (ht : c → Rel E P p q Q) (hf : ¬ c → Rel E P p' q' Q) :
    Rel E P (if c then p else p') (if c then q else q') Q := by
  by_cases hc : c
  · rw [if_pos hc, if_pos hc]
    exact ht hc
  · rw [if_neg hc, if_neg hc]
    exact hf hc

/-! ## One program alone -/

/-- From states in `P`, if `p` returns then in `Q`, and a failure in `bad`
cannot happen. -/
def Triple (bad : ε → Prop) (P : σ → Prop) (p : Prog ε σ α) (Q : α → σ → Prop) : Prop :=
  ∀ s, P s → match p.exec s with
    | (.ok a, s') => Q a s'
    | (.error e, _) => ¬ bad e

section Triple
variable {bad : ε → Prop} {P P' : σ → Prop} {Q Q' : α → σ → Prop} {p : Prog ε σ α}

theorem Triple.pure {a : α} (h : ∀ s, P s → Q a s) : Triple bad P (pure a) Q := h

theorem Triple.throw {e : ε} (h : ¬ bad e) : Triple bad P (throw e) Q := fun _ _ => h

theorem Triple.conseq (hp : Triple bad P p Q) (hpre : ∀ s, P' s → P s)
    (hpost : ∀ a s, Q a s → Q' a s) : Triple bad P' p Q' := by
  intro s hs
  have h := hp s (hpre s hs)
  split at h
  · exact hpost _ _ h
  · exact h

theorem Triple.bind {f : α → Prog ε σ γ} {R : γ → σ → Prop} (hp : Triple bad P p Q)
    (hf : ∀ a, Triple bad (Q a) (f a) R) : Triple bad P (p >>= f) R := by
  intro s hs
  have h := hp s hs
  rw [exec_bind]
  rcases hps : p.exec s with ⟨e | a, s'⟩
  · rw [hps] at h
    exact h
  · rw [hps] at h
    exact hf a s' h

/-- A program refines another when what it returns with says how the other runs. -/
theorem Rel.of_triple {P : σ → τ → Prop} {q : Prog ε τ β} {Q : α → β → σ → τ → Prop}
    (h : ∀ t, Triple bad (fun s => P s t) p fun a s' => ∃ b t', q.exec t = (.ok b, t') ∧
      Q a b s' t') :
    Rel (Mode.refine bad) P p q Q := by
  intro s t hst
  have hp := h t s hst
  split at hp
  · exact hp
  · exact ⟨hp, False.elim⟩

end Triple

/-! ## Programs that return, and programs that fail -/

/-- The program returns, from every state. -/
def Returns (p : Prog ε σ α) : Prop := ∀ s, ∃ a s', p.exec s = (.ok a, s')

/-- The program fails with one of `E`, from every state. -/
def Fails (E : ε → Prop) (p : Prog ε σ α) : Prop := ∀ s, ∃ e s', E e ∧ p.exec s = (.error e, s')

section Returns

theorem Returns.pure (a : α) : Returns (pure a : Prog ε σ α) := fun s => ⟨a, s, rfl⟩

theorem Returns.modify (g : σ → σ) : Returns (modify g : Prog ε σ Unit) := fun s => ⟨(), g s, rfl⟩

theorem Returns.bind {f : α → Prog ε σ β} (hp : Returns p) (hf : ∀ a, Returns (f a)) :
    Returns (p >>= f) := by
  intro s
  obtain ⟨a, s', h⟩ := hp s
  rw [exec_bind_ok h]
  exact hf a s'

theorem Returns.forUpTo {n : Nat} {body : Nat → Prog ε σ Unit} (h : ∀ i < n, Returns (body i)) :
    Returns (forUpTo n body) := by
  induction n with
  | zero => exact Returns.pure ()
  | succ n ih =>
      exact (ih fun i hi => h i (Nat.lt_succ_of_lt hi)).bind fun _ => h n (Nat.lt_succ_self n)

variable {E : ε → Prop}

/-- The first part fails. -/
theorem Fails.bind {f : α → Prog ε σ β} (hp : Fails E p) : Fails E (p >>= f) := by
  intro s
  obtain ⟨e, s', he, h⟩ := hp s
  exact ⟨e, s', he, exec_bind_error h⟩

/-- The first part returns and the second fails. -/
theorem Returns.fails {f : α → Prog ε σ β} (hp : Returns p) (hf : ∀ a, Fails E (f a)) :
    Fails E (p >>= f) := by
  intro s
  obtain ⟨a, s', h⟩ := hp s
  rw [exec_bind_ok h]
  exact hf a s'

/-- A loop fails with its first round. -/
theorem Fails.forUpTo {n : Nat} (hn : 0 < n) {body : Nat → Prog ε σ Unit} (h : Fails E (body 0)) :
    Fails E (forUpTo n body) := by
  induction n with
  | zero => exact absurd hn (Nat.lt_irrefl 0)
  | succ n ih =>
      rcases Nat.eq_zero_or_pos n with rfl | hpos
      · exact (Returns.pure ()).fails fun _ => h
      · exact (ih hpos).bind

theorem Fails.not_ok (hp : Fails E p) (s : σ) (a : α) : (p.exec s).1 ≠ .ok a := by
  obtain ⟨e, s', -, h⟩ := hp s
  rw [h]
  exact nofun

end Returns

/-! ## What a program leaves alone -/

/-- The program moves the state along `R` only, whether it returns or fails. -/
def Keeps (R : σ → σ → Prop) (p : Prog ε σ α) : Prop := ∀ s, R s (p.exec s).2

section Keeps
variable {R : σ → σ → Prop}

theorem Keeps.bind (ht : ∀ s t u, R s t → R t u → R s u) {f : α → Prog ε σ γ} (hp : Keeps R p)
    (hf : ∀ a, Keeps R (f a)) : Keeps R (p >>= f) := by
  intro s
  have h := hp s
  rw [exec_bind]
  rcases hps : p.exec s with ⟨e | a, s'⟩
  · rw [hps] at h
    exact h
  · rw [hps] at h
    exact ht _ _ _ h (hf a s')

end Keeps

end Relational
