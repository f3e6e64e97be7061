/-
# `TinyLlm.Lib.Causal` — layered networks that look back

A network answers every position of a sequence.  A token is embedded as a
state; each layer makes the next state of it, and may look at the row that the
layer takes from the state of every position up to this one.

Read as it stands, that is a recursion over the layers in which each layer goes
back over all positions (`Net.hidden`).  An implementation keeps the rows of the
positions behind it and makes one pass over the layers for each token.
`LayerStep` says what one layer of it has to do, and `Net.pass` is the induction
over the layers: such a pass leaves the state of the recursion, and one more row
for each layer.

Two networks whose parts are related give related states (`Net.hidden_rel`).  A
network related to itself is one that does not look ahead.
-/
import Mathlib.Order.Basic

namespace Causal

variable {T X R Y T' X' R' Y' : Type*}

/-- What a token becomes, the row that a layer takes from a state, the state it
makes of one state and the rows of all positions, and the answer of a state. -/
structure Net (T X R Y : Type*) where
  layers : Nat
  embed : T → X
  row : Nat → Nat → X → R
  out : Nat → Nat → X → (Nat → R) → X
  answer : X → Y

namespace Net

/-- The state of a position behind `l` layers. -/
def hidden (N : Net T X R Y) (tokens : Nat → T) : Nat → Nat → X
  | 0, pos => N.embed (tokens pos)
  | l + 1, pos => N.out l pos (N.hidden tokens l pos) fun t => N.row l t (N.hidden tokens l t)

/-- The answer of a position. -/
def answers (N : Net T X R Y) (tokens : Nat → T) (pos : Nat) : Y :=
  N.answer (N.hidden tokens N.layers pos)

/-! ## Related networks -/

/-- **Related parts make related states**, up to a position. -/
theorem hidden_rel {N : Net T X R Y} {N' : Net T' X' R' Y'} {E : X → X' → Prop} {ER : R → R' → Prop}
    {tokens : Nat → T} {tokens' : Nat → T'} {n : Nat}
    (hembed : ∀ t ≤ n, E (N.embed (tokens t)) (N'.embed (tokens' t)))
    (hrow : ∀ l < N.layers, ∀ t ≤ n, ∀ x x', E x x' → ER (N.row l t x) (N'.row l t x'))
    (hout : ∀ l < N.layers, ∀ t ≤ n, ∀ x x' rows rows', E x x' → (∀ u ≤ t, ER (rows u) (rows' u)) →
      E (N.out l t x rows) (N'.out l t x' rows')) :
    ∀ l ≤ N.layers, ∀ t ≤ n, E (N.hidden tokens l t) (N'.hidden tokens' l t) := by
  intro l
  induction l with
  | zero => exact fun _ t ht => hembed t ht
  | succ l ih =>
      intro hl t ht
      have hbelow := ih (Nat.le_of_succ_le hl)
      refine hout l hl t ht _ _ _ _ (hbelow t ht) fun u hu => ?_
      exact hrow l hl u (Nat.le_trans hu ht) _ _ (hbelow u (Nat.le_trans hu ht))

/-- No layer looks at a row behind its position. -/
def LooksBack (N : Net T X R Y) : Prop :=
  ∀ l < N.layers, ∀ pos x rows rows', (∀ t ≤ pos, rows t = rows' t) → N.out l pos x rows =
    N.out l pos x rows'

/-- **No later token counts.** -/
theorem LooksBack.answers {N : Net T X R Y} (h : N.LooksBack) {tokens tokens' : Nat → T} {n : Nat}
    (htokens : ∀ t ≤ n, tokens t = tokens' t) : N.answers tokens n = N.answers tokens' n := by
  refine congrArg N.answer ?_
  refine @hidden_rel T X R Y T X R Y N N Eq Eq tokens tokens' n ?_ ?_ ?_ N.layers (Nat.le_refl _) n
    (Nat.le_refl _)
  · intro t ht
    exact congrArg N.embed (htokens t ht)
  · rintro l - t - x _ rfl
    rfl
  · rintro l hl t - x _ rows rows' rfl hrows
    exact h l hl t x rows rows' hrows

/-! ## One pass over the layers -/

section Pass
variable {σ : Type*} (N : Net T X R Y) (state : σ → X → Prop) (holds : σ → Nat → Nat → R → Prop)

/-- What a layer of an implementation does at a position: from the rows behind
and its own it computes the next state, its own row is there afterwards, and no
other row is lost. -/
structure LayerStep (l pos : Nat) (s s' : σ) : Prop where
  computes : ∀ x rows, state s x → rows pos = N.row l pos x → (∀ t < pos, holds s l t (rows t)) →
    state s' (N.out l pos x rows) ∧ holds s' l pos (rows pos)
  keeps : ∀ l' < N.layers, ∀ t ≤ pos, l' ≠ l ∨ t ≠ pos → ∀ r, holds s l' t r → holds s' l' t r

/-- The rows of all positions below `n`. -/
def Holding (tokens : Nat → T) (n : Nat) (s : σ) : Prop :=
  ∀ l < N.layers, ∀ t < n, holds s l t (N.row l t (N.hidden tokens l t))

variable {N state holds}

/-- **A pass** computes the state of the recursion, and holds one row more. -/
theorem pass {tokens : Nat → T} {pos : Nat} {s : Nat → σ}
    (hstep : ∀ l < N.layers, N.LayerStep state holds l pos (s l) (s (l + 1)))
    (hembed : state (s 0) (N.embed (tokens pos))) (hrows : N.Holding holds tokens pos (s 0)) :
    state (s N.layers) (N.hidden tokens N.layers pos) ∧
      N.Holding holds tokens (pos + 1) (s N.layers) := by
  have hinv : ∀ k ≤ N.layers, state (s k) (N.hidden tokens k pos) ∧
      ∀ l < N.layers, ∀ t ≤ pos, t < pos ∨ l < k →
      holds (s k) l t (N.row l t (N.hidden tokens l t)) := by
    intro k
    induction k with
    | zero =>
        refine fun _ => ⟨hembed, fun l hl t ht hlt => ?_⟩
        exact hrows l hl t (hlt.resolve_right (Nat.not_lt_zero l))
    | succ k ih =>
        intro hk
        obtain ⟨hstate, hheld⟩ := ih (Nat.le_of_succ_le hk)
        obtain ⟨hnext, hown⟩ :=
          (hstep k hk).computes _ (fun t => N.row k t (N.hidden tokens k t)) hstate rfl
          fun t ht => hheld k hk t (Nat.le_of_lt ht) (.inl ht)
        refine ⟨hnext, fun l hl t ht hlt => ?_⟩
        by_cases hhere : l = k ∧ t = pos
        · obtain ⟨rfl, rfl⟩ := hhere
          exact hown
        · have hother : l ≠ k ∨ t ≠ pos := not_and_or.mp hhere
          refine (hstep k hk).keeps l hl t ht hother _ (hheld l hl t ht ?_)
          rcases hlt with hlt | hlt
          · exact .inl hlt
          · rcases Nat.lt_succ_iff_lt_or_eq.mp hlt with hlt | rfl
            · exact .inr hlt
            · exact .inl (Nat.lt_of_le_of_ne ht (hother.resolve_left fun h => h rfl))
  obtain ⟨hstate, hheld⟩ := hinv N.layers (Nat.le_refl _)
  exact ⟨hstate, fun l hl t ht => hheld l hl t (Nat.le_of_lt_succ ht) (.inr hl)⟩

end Pass

end Net

end Causal
