/-
# `TinyLlm.Lib.Ieee` — binary interchange formats and rounding to nearest

A format has an exponent field of `exp` bits over a fraction of `frac` bits,
under a sign.  Without its sign a pattern is a number again, its *code*, and
the magnitude is strictly increasing in it (`mag_strictMono`): the exponent
follows the fraction, so that a carry out of the fraction is the next binade.

Rounding is stated on that order.  `Rounded f top x R` says that among the
points `f 0 < … < f top` the number `x` is nearest to the one at `R`, ties
going to the even index, with everything above the last midpoint at `top`.
Such an `R` is unique and monotone in `x`; `Rounded.of_rule` is the rule an
implementation follows on what it cuts off.  Read on the magnitudes of a
format, with the code of infinity as `top`, it is the standard's
`roundTiesToEven` (`RoundsTo.of_rounded`), within half a step of the result
for a normal magnitude (`abs_sub_mag_le`).  `pattern` computes it for a
rational.
-/
import Mathlib.Algebra.Order.Field.Rat
import Mathlib.Algebra.Order.Field.Power
import Mathlib.Algebra.Order.Ring.Unbundled.Rat
import Mathlib.Order.WithBot
import Mathlib.Tactic.Linarith
import Mathlib.Tactic.Ring
import Mathlib.Tactic.NormNum

namespace Ieee

/-! ## Rounding to a grid -/

section Grid
variable {f : Nat → ℚ} {top R S : Nat} {x y : ℚ}

/-- `x` rounds to the point at `R`, ties to the even index, `top` the last. -/
structure Rounded (f : Nat → ℚ) (top : Nat) (x : ℚ) (R : Nat) : Prop where
  le_top : R ≤ top
  below : ∀ r, r + 1 = R → f r + f R ≤ 2 * x
  below_tie : ∀ r, r + 1 = R → f r + f R = 2 * x → Even R
  above : R < top → 2 * x ≤ f R + f (R + 1)
  above_tie : R < top → 2 * x = f R + f (R + 1) → Even R

/-- **Rounding is monotone.** -/
theorem Rounded.mono (hf : StrictMono f) (hx : Rounded f top x R) (hy : Rounded f top y S)
    (hxy : x ≤ y) :
    R ≤ S := by
  by_contra hlt
  have hlt : S < R := not_le.mp hlt
  obtain ⟨r, rfl⟩ : ∃ r, R = r + 1 := ⟨R - 1, by omega⟩
  have hS : S < top := lt_of_lt_of_le hlt hx.le_top
  have h₁ := hx.below r rfl
  have h₂ := hy.above hS
  have h₃ : f S ≤ f r := hf.monotone (by omega)
  have h₄ : f (S + 1) ≤ f (r + 1) := hf.monotone (by omega)
  -- every bound is met with equality, so the two are neighbours and both even
  have hSr : S = r := hf.injective (by linarith)
  subst hSr
  have hR : Even (S + 1) := hx.below_tie S rfl (by linarith)
  have hE : Even S := hy.above_tie hS (by linarith)
  exact absurd hE (Nat.even_add_one.mp hR)

theorem Rounded.unique (hf : StrictMono f) (hx : Rounded f top x R) (hy : Rounded f top x S) :
    R = S :=
  le_antisymm (hx.mono hf hy le_rfl) (hy.mono hf hx le_rfl)

/-- A point of the grid rounds to itself. -/
theorem Rounded.self (hf : StrictMono f) (hR : R ≤ top) : Rounded f top (f R) R where
  le_top := hR
  below r hr := by have := hf (show r < R by omega); linarith
  below_tie r hr h := by have := hf (show r < R by omega); linarith
  above _ := by have := hf (Nat.lt_succ_self R); linarith
  above_tie _ h := by have := hf (Nat.lt_succ_self R); linarith

/-- Whatever lies past the last point rounds to it. -/
theorem Rounded.of_top_le (hf : StrictMono f) (hx : f top ≤ x) : Rounded f top x top where
  le_top := le_rfl
  below r hr := by have := hf (show r < top by omega); linarith
  below_tie r hr h := by have := hf (show r < top by omega); linarith
  above h := absurd h (lt_irrefl _)
  above_tie h := absurd h (lt_irrefl _)

/-- **The rule**: the part `r` cut off at `q` against half of the step `2 h`. -/
theorem Rounded.of_rule (hf : StrictMono f) {q r h : Nat} {u : ℚ} (hu : 0 < u)
    (hx : x = f q + u * r) (hnext : f (q + 1) = f q + u * (2 * h)) (hr : r < 2 * h) (hq : q < top) :
    Rounded f top x (if h < r ∨ (r = h ∧ q % 2 = 1) then q + 1 else q) := by
  have hr' : u * r < u * (2 * h) := by
    have : (r : ℚ) < 2 * h := by exact_mod_cast hr
    exact mul_lt_mul_of_pos_left this hu
  have hur : 0 ≤ u * r := mul_nonneg hu.le (Nat.cast_nonneg r)
  have tie : u * (2 * h) = 2 * (u * r) → r = h := fun h' => by
    have : (h : ℚ) = r := mul_left_cancel₀ hu.ne' (by linarith)
    exact_mod_cast this.symm
  split
  case isTrue hup =>
    have hle : u * (2 * h) ≤ 2 * (u * r) := by
      have : (h : ℚ) ≤ r := by exact_mod_cast (show h ≤ r by omega)
      have := mul_le_mul_of_nonneg_left this hu.le
      linarith
    refine ⟨hq, ?_, ?_, ?_, ?_⟩
    · intro p hp
      obtain rfl : p = q := by omega
      linarith
    · intro p hp h'
      obtain rfl : p = q := by omega
      have := tie (by linarith)
      rw [Nat.even_iff]
      omega
    · intro _
      have := hf (Nat.lt_succ_self (q + 1))
      linarith
    · intro _ h'
      have := hf (Nat.lt_succ_self (q + 1))
      linarith
  case isFalse hdown =>
    have hle : 2 * (u * r) ≤ u * (2 * h) := by
      have : (r : ℚ) ≤ h := by exact_mod_cast (show r ≤ h by omega)
      have := mul_le_mul_of_nonneg_left this hu.le
      linarith
    refine ⟨hq.le, ?_, ?_, ?_, ?_⟩
    · intro p hp
      have := hf (show p < q by omega)
      linarith
    · intro p hp h'
      have := hf (show p < q by omega)
      linarith
    · intro _
      linarith
    · intro _ h'
      have := tie (by linarith)
      rw [Nat.even_iff]
      omega

/-- The point it rounds to is nearest among all up to the last but one. -/
theorem Rounded.nearest (hf : StrictMono f) (hx : Rounded f top x R) {s : Nat} (hs : s < top) :
    |x - f R| ≤ |x - f s| := by
  rcases lt_trichotomy s R with hlt | rfl | hgt
  · obtain ⟨r, rfl⟩ : ∃ r, R = r + 1 := ⟨R - 1, by omega⟩
    have h₁ := hx.below r rfl
    have h₂ : f s ≤ f r := hf.monotone (by omega)
    have h₃ := hf (Nat.lt_succ_self r)
    rw [abs_of_nonneg (show (0 : ℚ) ≤ x - f s by linarith), abs_le]
    constructor <;> linarith
  · exact le_rfl
  · have h₁ := hx.above (by omega)
    have h₂ : f (R + 1) ≤ f s := hf.monotone (by omega)
    have h₃ := hf (Nat.lt_succ_self R)
    rw [abs_of_nonpos (show x - f s ≤ (0 : ℚ) by linarith), abs_le]
    constructor <;> linarith

/-- Another point as near makes the index even. -/
theorem Rounded.even_of_tie (hf : StrictMono f) (hx : Rounded f top x R) {s : Nat}
    (hs : s < top) (hne : s ≠ R) (htie : |x - f s| = |x - f R|) : Even R := by
  rcases lt_or_gt_of_ne hne with hlt | hgt
  · obtain ⟨r, rfl⟩ : ∃ r, R = r + 1 := ⟨R - 1, by omega⟩
    have h₁ := hx.below r rfl
    have h₂ : f s ≤ f r := hf.monotone (by omega)
    have h₃ := hf (Nat.lt_succ_self r)
    refine hx.below_tie r rfl (le_antisymm h₁ ?_)
    rw [abs_of_nonneg (show (0 : ℚ) ≤ x - f s by linarith)] at htie
    rcases abs_cases (x - f (r + 1)) with ⟨h, _⟩ | ⟨h, _⟩ <;> linarith
  · have h₁ := hx.above (by omega)
    have h₂ : f (R + 1) ≤ f s := hf.monotone (by omega)
    have h₃ := hf (Nat.lt_succ_self R)
    refine hx.above_tie (by omega) (le_antisymm h₁ ?_)
    rw [abs_of_nonpos (show x - f s ≤ (0 : ℚ) by linarith)] at htie
    rcases abs_cases (x - f R) with ⟨h, _⟩ | ⟨h, _⟩ <;> linarith

end Grid

/-! ## Formats -/

/-- The bits of the fraction and of the exponent. -/
structure Format where
  frac : Nat
  exp : Nat

def half : Format := ⟨10, 5⟩

def single : Format := ⟨23, 8⟩

namespace Format
variable (F : Format)

def bias : Nat := 2 ^ (F.exp - 1) - 1

/-- A pattern without its sign. -/
def code (n : Nat) : Nat := n % 2 ^ (F.frac + F.exp)

def fraction (n : Nat) : Nat := n % 2 ^ F.frac

def Negative (n : Nat) : Prop := n / 2 ^ (F.frac + F.exp) % 2 = 1

instance (n : Nat) : Decidable (F.Negative n) := by unfold Negative; infer_instance

/-- The code of infinity: all ones in the exponent, no fraction. -/
def inf : Nat := (2 ^ F.exp - 1) * 2 ^ F.frac

def IsFinite (n : Nat) : Prop := F.code n < F.inf

def IsInf (n : Nat) : Prop := F.code n = F.inf

def IsNan (n : Nat) : Prop := F.inf < F.code n

instance (n : Nat) : Decidable (F.IsInf n) := by unfold IsInf; infer_instance

/-- The magnitude of a code: a subnormal has no implicit bit and the exponent
of the first binade. -/
def mag (c : Nat) : ℚ :=
  if c < 2 ^ F.frac then c * 2 ^ (1 - F.bias - F.frac : ℤ)
  else (2 ^ F.frac + c % 2 ^ F.frac : ℕ) * 2 ^ ((c / 2 ^ F.frac : ℕ) - F.bias - F.frac : ℤ)

/-- The rational a finite pattern stands for. -/
def value (n : Nat) : ℚ := if F.Negative n then -F.mag (F.code n) else F.mag (F.code n)

/-- What a pattern other than a NaN stands for, the infinities included. -/
def extended (n : Nat) : WithBot (WithTop ℚ) :=
  if F.IsInf n then (if F.Negative n then ⊥ else ⊤)
    else ((F.value n : WithTop ℚ) : WithBot (WithTop ℚ))

/-- The midpoint between the largest finite magnitude and the one after it. -/
def overflow : ℚ := (F.mag (F.inf - 1) + F.mag F.inf) / 2

/-- `r` is what the standard rounds `v` to, its sign apart: a nearest finite
pattern, where another is as near one with an even significand, and infinity
from the overflow bound on. -/
structure RoundsTo (v : ℚ) (r : Nat) : Prop where
  finite : |v| < F.overflow → F.IsFinite r
  nearest : |v| < F.overflow → ∀ s, F.IsFinite s → |v - F.value r| ≤ |v - F.value s|
  even : |v| < F.overflow → ∀ s, F.IsFinite s → |v - F.value s| = |v - F.value r| →
    F.value s ≠ F.value r → Even (F.fraction r)
  infinite : F.overflow ≤ |v| → F.IsInf r

variable {F} {c n m r s R : Nat} {v : ℚ}

/-! ### Magnitudes -/

/-- The step from one magnitude to the next. -/
def ulp (F : Format) (c : Nat) : ℚ := 2 ^ ((max (c / 2 ^ F.frac) 1 : ℕ) - F.bias - F.frac : ℤ)

theorem ulp_pos (F : Format) (c : Nat) : 0 < F.ulp c := zpow_pos (by norm_num) _

theorem mag_of_lt (h : c < 2 ^ F.frac) : F.mag c = c * F.ulp c := by
  rw [mag, if_pos h, ulp, Nat.div_eq_of_lt h]
  rfl

theorem mag_of_le (h : 2 ^ F.frac ≤ c) : F.mag c = (2 ^ F.frac + c % 2 ^ F.frac : ℕ) * F.ulp c := by
  have : 1 ≤ c / 2 ^ F.frac := (Nat.one_le_div_iff (by positivity)).mpr h
  rw [mag, if_neg (not_lt.mpr h), ulp, max_eq_left this]

/-- The first normal magnitude carries on where the subnormal ones end. -/
theorem mag_of_le_two_pow (h : c ≤ 2 ^ F.frac) : F.mag c = c * 2 ^ (1 - F.bias - F.frac : ℤ) := by
  rcases h.lt_or_eq with h | rfl
  · rw [mag, if_pos h]
  · rw [mag, if_neg (lt_irrefl _), Nat.mod_self, Nat.div_self (by positivity)]
    rfl

theorem mag_succ (F : Format) (c : Nat) : F.mag (c + 1) = F.mag c + F.ulp c := by
  rcases Nat.lt_or_ge c (2 ^ F.frac) with h | h
  · have hulp : F.ulp c = 2 ^ (1 - F.bias - F.frac : ℤ) := by rw [ulp, Nat.div_eq_of_lt h]; rfl
    rw [mag_of_le_two_pow h, mag_of_lt h, hulp, Nat.cast_succ, add_one_mul]
  · have hq : 1 ≤ c / 2 ^ F.frac := (Nat.one_le_div_iff (by positivity)).mpr h
    have hlt : c % 2 ^ F.frac < 2 ^ F.frac := Nat.mod_lt _ (by positivity)
    have hdm := Nat.div_add_mod c (2 ^ F.frac)
    rw [mag_of_le h, mag_of_le (by omega : 2 ^ F.frac ≤ c + 1)]
    by_cases hcarry : c % 2 ^ F.frac + 1 = 2 ^ F.frac
    · -- the carry goes into the exponent
      have hc : c + 1 = 2 ^ F.frac * (c / 2 ^ F.frac + 1) := by rw [Nat.mul_succ]; omega
      have hdiv : (c + 1) / 2 ^ F.frac = c / 2 ^ F.frac + 1 := by
        rw [hc, Nat.mul_div_cancel_left _ (by positivity)]
      have hmod : (c + 1) % 2 ^ F.frac = 0 := by rw [hc, Nat.mul_mod_right]
      have hulp : F.ulp (c + 1) = 2 * F.ulp c := by
        rw [ulp, ulp, hdiv, max_eq_left (by omega), max_eq_left hq, ← zpow_one_add₀ (by norm_num)]
        congr 1
        push_cast
        ring
      have hm : ((c % 2 ^ F.frac : ℕ) : ℚ) = 2 ^ F.frac - 1 := by
        rw [eq_sub_iff_add_eq]
        exact_mod_cast hcarry
      rw [hmod, hulp, Nat.cast_add, Nat.cast_add, hm]
      push_cast
      ring
    · have hnext : c % 2 ^ F.frac + 1 < 2 ^ F.frac := by omega
      have hc : c + 1 = 2 ^ F.frac * (c / 2 ^ F.frac) + (c % 2 ^ F.frac + 1) := by omega
      have hdiv : (c + 1) / 2 ^ F.frac = c / 2 ^ F.frac := by
        rw [hc, Nat.mul_add_div (by positivity), Nat.div_eq_of_lt hnext, Nat.add_zero]
      have hmod : (c + 1) % 2 ^ F.frac = c % 2 ^ F.frac + 1 := by
        rw [hc, Nat.mul_add_mod, Nat.mod_eq_of_lt hnext]
      rw [hmod, ulp, hdiv, ← ulp]
      push_cast
      ring

theorem mag_strictMono (F : Format) : StrictMono F.mag :=
  strictMono_nat_of_lt_succ fun c => by rw [mag_succ]; linarith [F.ulp_pos c]

theorem mag_zero (F : Format) : F.mag 0 = 0 := by
  rw [mag_of_lt (by positivity), Nat.cast_zero, zero_mul]

theorem mag_nonneg (F : Format) (c : Nat) : 0 ≤ F.mag c := by
  rw [← F.mag_zero]
  exact F.mag_strictMono.monotone (Nat.zero_le c)

theorem abs_value (F : Format) (n : Nat) : |F.value n| = F.mag (F.code n) := by
  unfold value
  split
  · rw [abs_neg, abs_of_nonneg (F.mag_nonneg _)]
  · exact abs_of_nonneg (F.mag_nonneg _)

theorem inf_lt (F : Format) : F.inf < 2 ^ (F.frac + F.exp) := by
  rw [inf, Nat.add_comm, Nat.pow_add]
  exact Nat.mul_lt_mul_of_pos_right (Nat.sub_lt (by positivity) one_pos) (by positivity)

/-- The magnitude by the fields, of a normal code. -/
theorem mag_fields {e m : Nat} (he : 0 < e) (hm : m < 2 ^ F.frac) :
    F.mag (e * 2 ^ F.frac + m) = (2 ^ F.frac + m : ℕ) * 2 ^ (e - F.bias - F.frac : ℤ) := by
  have hdiv : (e * 2 ^ F.frac + m) / 2 ^ F.frac = e := by
    rw [Nat.mul_comm, Nat.mul_add_div (by positivity), Nat.div_eq_of_lt hm, Nat.add_zero]
  have hmod : (e * 2 ^ F.frac + m) % 2 ^ F.frac = m := by
    rw [Nat.mul_comm, Nat.mul_add_mod, Nat.mod_eq_of_lt hm]
  have hle : 2 ^ F.frac ≤ e * 2 ^ F.frac + m := Nat.le_add_right_of_le (Nat.le_mul_of_pos_left _ he)
  rw [mag, if_neg (not_lt.mpr hle), hdiv, hmod]

theorem ulp_fields {e m : Nat} (hm : m < 2 ^ F.frac) :
    F.ulp (e * 2 ^ F.frac + m) = 2 ^ ((max e 1 : ℕ) - F.bias - F.frac : ℤ) := by
  rw [ulp, Nat.mul_comm, Nat.mul_add_div (by positivity), Nat.div_eq_of_lt hm, Nat.add_zero]

/-! ### Rounding in a format -/

theorem even_fraction_iff (hF : 0 < F.frac) (n : Nat) : Even (F.fraction n) ↔ Even (F.code n) := by
  have hdvd : ∀ k, 0 < k → 2 ∣ 2 ^ k := fun k hk => dvd_pow_self 2 (by omega)
  rw [Nat.even_iff, Nat.even_iff, fraction, code, Nat.mod_mod_of_dvd _ (hdvd _ hF),
    Nat.mod_mod_of_dvd _ (hdvd _ (by omega))]

/-- Below the overflow bound the result is finite, from there on it is not. -/
theorem overflow_le_iff (hF : 0 < F.frac) (hE : 0 < F.exp) (h : Rounded F.mag F.inf |v| R) :
    F.overflow ≤ |v| ↔ R = F.inf := by
  have hpos : 0 < F.inf :=
    Nat.mul_pos (Nat.sub_pos_of_lt (Nat.one_lt_two_pow (by omega))) (by positivity)
  have hev : F.inf % 2 = 0 := by
    rw [inf, Nat.mul_mod, Nat.pow_mod, Nat.mod_self, Nat.zero_pow hF, Nat.zero_mod, Nat.mul_zero]
  have hov : F.mag (F.inf - 1) + F.mag F.inf = 2 * F.overflow := by unfold overflow; ring
  constructor
  · intro hv
    by_contra hne
    have hlt : R < F.inf := lt_of_le_of_ne h.le_top hne
    have h₁ := h.above hlt
    have h₂ : F.mag R ≤ F.mag (F.inf - 1) := F.mag_strictMono.monotone (by omega)
    have h₃ : F.mag (R + 1) ≤ F.mag F.inf := F.mag_strictMono.monotone (by omega)
    -- so `R` is the last finite code, which is odd
    have hR : R = F.inf - 1 := F.mag_strictMono.injective (by linarith)
    have hRe := h.above_tie hlt (by linarith)
    rw [Nat.even_iff] at hRe
    omega
  · rintro rfl
    have := h.below (F.inf - 1) (by omega)
    linarith

theorem overflow_lt_iff (hF : 0 < F.frac) (hE : 0 < F.exp) (h : Rounded F.mag F.inf |v| R) :
    |v| < F.overflow ↔ R < F.inf := by
  rw [← not_le, overflow_le_iff hF hE h]
  exact ⟨fun hne => lt_of_le_of_ne h.le_top hne, fun hlt => hlt.ne⟩

/-- The sign of a pattern agrees with that of what it rounds. -/
def Signed (F : Format) (v : ℚ) (r : Nat) : Prop :=
  (v < 0 → F.Negative r) ∧ (0 < v → ¬ F.Negative r)

/-- A pattern with the sign of another carries the sign of its value. -/
theorem signed_value {G : Format} (h : F.Negative r ↔ G.Negative n) : F.Signed (G.value n) r := by
  have hmag := G.mag_nonneg (G.code n)
  unfold Signed value
  rw [h]
  by_cases hneg : G.Negative n
  · rw [if_pos hneg]
    exact ⟨fun _ => hneg, fun h => absurd h (by linarith)⟩
  · rw [if_neg hneg]
    exact ⟨fun h => absurd h (by linarith), fun _ => hneg⟩

/-- With the right sign the distance is that of the magnitudes. -/
theorem abs_sub_value (h : F.Signed v r) : |v - F.value r| = |(|v| - F.mag (F.code r))| := by
  unfold value
  rcases lt_trichotomy v 0 with hv | rfl | hv
  · rw [if_pos (h.1 hv), abs_of_neg hv, ← abs_neg]
    ring_nf
  · split <;> simp
  · rw [if_neg (h.2 hv), abs_of_pos hv]

/-- A value of the same magnitude is the same value or its negation. -/
theorem value_eq_or_neg (h : F.code s = F.code r) :
    F.value s = F.value r ∨ F.value s = -F.value r := by
  unfold value
  rw [h]
  split <;> split <;> simp

/-- Only zero is as near to a number as to its negation. -/
theorem eq_zero_of_tie {w : ℚ} (h : |v - -w| = |v - w|) (hw : w ≠ 0) : v = 0 := by
  have hsq : (v - -w) ^ 2 = (v - w) ^ 2 := (sq_eq_sq_iff_abs_eq_abs _ _).mpr h
  have hmul : v * w = 0 := by linarith [hsq]
  exact (mul_eq_zero.mp hmul).resolve_right hw

/-- Zero rounds to zero. -/
theorem code_eq_zero (h : Rounded F.mag F.inf |(0 : ℚ)| (F.code r)) : F.code r = 0 := by
  refine h.unique F.mag_strictMono ?_
  rw [abs_zero, ← F.mag_zero]
  exact Rounded.self F.mag_strictMono (Nat.zero_le _)

/-- **Rounding the magnitude and keeping the sign is the standard's rounding.** -/
theorem RoundsTo.of_rounded (hF : 0 < F.frac) (hE : 0 < F.exp)
    (h : Rounded F.mag F.inf |v| (F.code r)) (hs : F.Signed v r) : F.RoundsTo v r where
  finite hv := (overflow_lt_iff hF hE h).mp hv
  infinite hv := (overflow_le_iff hF hE h).mp hv
  nearest _ s hfin := by
    calc |v - F.value r| = |(|v| - F.mag (F.code r))| := abs_sub_value hs
      _ ≤ |(|v| - F.mag (F.code s))| := h.nearest F.mag_strictMono hfin
      _ = |(|v| - |F.value s|)| := by rw [abs_value]
      _ ≤ |v - F.value s| := abs_abs_sub_abs_le_abs_sub v (F.value s)
  even _ s hfin htie hne := by
    rw [even_fraction_iff hF]
    by_cases hcode : F.code s = F.code r
    · -- the same magnitude under the other sign is as near only from zero
      have hneg : F.value s = -F.value r := (value_eq_or_neg hcode).resolve_left hne
      have hr : F.value r ≠ 0 := fun h0 => hne (by rw [hneg, h0, neg_zero])
      have hv : v = 0 := eq_zero_of_tie (hneg ▸ htie) hr
      subst hv
      rw [code_eq_zero h]
      exact ⟨0, rfl⟩
    · rw [abs_sub_value hs] at htie
      have hfar : |(|v| - F.mag (F.code s))| ≤ |v - F.value s| := by
        rw [← abs_value F s]
        exact abs_abs_sub_abs_le_abs_sub v (F.value s)
      have hnear := h.nearest F.mag_strictMono hfin
      exact h.even_of_tie F.mag_strictMono hfin hcode (le_antisymm (hfar.trans_eq htie) hnear)

theorem value_of_nonneg (h : Rounded F.mag F.inf |v| (F.code r)) (hs : F.Signed v r) (hv : 0 ≤ v) :
    F.value r = F.mag (F.code r) := by
  rcases hv.lt_or_eq with hv | rfl
  · rw [value, if_neg (hs.2 hv)]
  · rw [value, code_eq_zero h, F.mag_zero, neg_zero, ite_self]

theorem value_of_nonpos (h : Rounded F.mag F.inf |v| (F.code r)) (hs : F.Signed v r) (hv : v ≤ 0) :
    F.value r = -F.mag (F.code r) := by
  rcases hv.lt_or_eq with hv | rfl
  · rw [value, if_pos (hs.1 hv)]
  · rw [value, code_eq_zero h, F.mag_zero, neg_zero, ite_self]

/-- Rounding keeps the order of signed values. -/
theorem value_le_value {w : ℚ} (hv : Rounded F.mag F.inf |v| (F.code r))
    (hw : Rounded F.mag F.inf |w| (F.code s)) (hr : F.Signed v r) (hs : F.Signed w s)
    (hvw : v ≤ w) : F.value r ≤ F.value s := by
  rcases le_total 0 v with h0 | h0
  · rw [value_of_nonneg hv hr h0, value_of_nonneg hw hs (h0.trans hvw)]
    refine F.mag_strictMono.monotone (hv.mono F.mag_strictMono hw ?_)
    rwa [abs_of_nonneg h0, abs_of_nonneg (h0.trans hvw)]
  · rw [value_of_nonpos hv hr h0]
    rcases le_total 0 w with h1 | h1
    · rw [value_of_nonneg hw hs h1]
      exact (neg_nonpos.mpr (F.mag_nonneg _)).trans (F.mag_nonneg _)
    · rw [value_of_nonpos hw hs h1]
      refine neg_le_neg (F.mag_strictMono.monotone (hw.mono F.mag_strictMono hv ?_))
      rw [abs_of_nonpos h0, abs_of_nonpos h1]
      exact neg_le_neg hvw

/-- Every pattern that is not a NaN lies within the infinities. -/
theorem abs_value_le (h : ¬ F.IsNan n) : |F.value n| ≤ F.mag F.inf := by
  rw [abs_value]
  exact F.mag_strictMono.monotone (not_lt.mp h)

theorem abs_value_lt (h : ¬ F.IsNan n) (hi : ¬ F.IsInf n) : |F.value n| < F.mag F.inf := by
  rw [abs_value]
  exact F.mag_strictMono (lt_of_le_of_ne (not_lt.mp h) hi)

/-- The two infinities lie past every finite value, on their sides. -/
theorem extended_of_inf (hi : F.IsInf n) :
    (F.extended n = ⊥ ∧ F.value n = -F.mag F.inf) ∨
      (F.extended n = ⊤ ∧ F.value n = F.mag F.inf) := by
  rw [extended, if_pos hi, value, show F.code n = F.inf from hi]
  by_cases hneg : F.Negative n
  · exact .inl ⟨if_pos hneg, if_pos hneg⟩
  · exact .inr ⟨if_neg hneg, if_neg hneg⟩

theorem extended_of_not_inf (hi : ¬ F.IsInf n) :
    F.extended n = ((F.value n : WithTop ℚ) : WithBot (WithTop ℚ)) := by
  rw [extended, if_neg hi]

/-- The order of the extended values is that of the values, an infinity
valued as its code. -/
theorem extended_le_iff (hF : 0 < F.inf) (hn : ¬ F.IsNan n) (hm : ¬ F.IsNan m) :
    F.extended n ≤ F.extended m ↔ F.value n ≤ F.value m := by
  have hpos : F.mag 0 < F.mag F.inf := F.mag_strictMono hF
  rw [F.mag_zero] at hpos
  have hvn := abs_le.mp (abs_value_le hn)
  have hvm := abs_le.mp (abs_value_le hm)
  by_cases hi : F.IsInf n
  · rcases extended_of_inf hi with ⟨he, hv⟩ | ⟨he, hv⟩
    · rw [he, hv]
      exact iff_of_true bot_le hvm.1
    · rw [he, hv]
      by_cases hj : F.IsInf m
      · rcases extended_of_inf hj with ⟨he', hv'⟩ | ⟨he', hv'⟩
        · rw [he', hv']
          exact iff_of_false (by decide) (by linarith)
        · rw [he', hv']
          exact iff_of_true le_rfl le_rfl
      · rw [extended_of_not_inf hj]
        refine iff_of_false ?_ (not_le.mpr (abs_lt.mp (abs_value_lt hm hj)).2)
        intro h
        exact WithTop.coe_ne_top (WithBot.coe_injective (top_le_iff.mp h))
  · rw [extended_of_not_inf hi]
    by_cases hj : F.IsInf m
    · rcases extended_of_inf hj with ⟨he', hv'⟩ | ⟨he', hv'⟩
      · rw [he', hv']
        refine iff_of_false ?_ (not_le.mpr (abs_lt.mp (abs_value_lt hn hi)).1)
        intro h
        exact WithBot.coe_ne_bot (le_bot_iff.mp h)
      · rw [he', hv']
        exact iff_of_true le_top hvn.2
    · rw [extended_of_not_inf hj, WithBot.coe_le_coe, WithTop.coe_le_coe]

/-! ### Rounding a rational -/

/-- `x` has got past the midpoint in front of a code, or onto it where the
code is even. -/
def Past (F : Format) (x : ℚ) : Nat → Prop
  | 0 => True
  | r + 1 => F.mag r + F.mag (r + 1) < 2 * x ∨ (F.mag r + F.mag (r + 1) = 2 * x ∧ (r + 1) % 2 = 0)

instance (F : Format) (x : ℚ) : DecidablePred (F.Past x)
  | 0 => isTrue trivial
  | r + 1 => inferInstanceAs (Decidable (F.mag r + F.mag (r + 1) < 2 * x ∨
      (F.mag r + F.mag (r + 1) = 2 * x ∧ (r + 1) % 2 = 0)))

/-- The code of the magnitude nearest to `x`: the last that it has got past. -/
def round (F : Format) (x : ℚ) : Nat := Nat.findGreatest (F.Past x) F.inf

/-- The pattern of a rational, rounded. -/
def pattern (F : Format) (v : ℚ) : Nat := (if v < 0 then 2 ^ (F.frac + F.exp) else 0) + F.round |v|

theorem round_rounded (F : Format) (x : ℚ) : Rounded F.mag F.inf x (F.round x) := by
  have hpast : F.Past x (F.round x) := Nat.findGreatest_spec (Nat.zero_le F.inf) trivial
  have hnext : F.round x < F.inf → ¬ F.Past x (F.round x + 1) := fun hlt =>
    Nat.findGreatest_is_greatest (Nat.lt_succ_self _) hlt
  refine ⟨Nat.findGreatest_le _, ?_, ?_, ?_, ?_⟩
  · intro r hr
    rw [← hr] at hpast ⊢
    rcases hpast with h | ⟨h, _⟩
    · exact h.le
    · exact h.le
  · intro r hr heq
    rw [← hr] at hpast heq ⊢
    rcases hpast with h | ⟨_, h⟩
    · exact absurd heq h.ne
    · exact Nat.even_iff.mpr h
  · intro hlt
    exact not_lt.mp fun h => hnext hlt (.inl h)
  · intro hlt heq
    have hodd : ¬ (F.round x + 1) % 2 = 0 := fun h => hnext hlt (.inr ⟨heq.symm, h⟩)
    rw [Nat.even_iff]
    omega

theorem round_lt (F : Format) (x : ℚ) : F.round x < 2 ^ (F.frac + F.exp) :=
  lt_of_le_of_lt (F.round_rounded x).le_top F.inf_lt

theorem code_pattern (F : Format) (v : ℚ) : F.code (F.pattern v) = F.round |v| := by
  unfold code pattern
  split
  · rw [Nat.add_mod_left, Nat.mod_eq_of_lt (F.round_lt _)]
  · rw [Nat.zero_add, Nat.mod_eq_of_lt (F.round_lt _)]

theorem negative_pattern (F : Format) (v : ℚ) : F.Negative (F.pattern v) ↔ v < 0 := by
  unfold Negative pattern
  split
  case isTrue h =>
    rw [Nat.add_div_left _ (by positivity), Nat.div_eq_of_lt (F.round_lt _)]
    exact iff_of_true rfl h
  case isFalse h =>
    rw [Nat.zero_add, Nat.div_eq_of_lt (F.round_lt _)]
    exact iff_of_false (by decide) h

theorem pattern_rounded (F : Format) (v : ℚ) : Rounded F.mag F.inf |v| (F.code (F.pattern v)) := by
  rw [code_pattern]
  exact F.round_rounded _

theorem pattern_signed (F : Format) (v : ℚ) : F.Signed v (F.pattern v) :=
  ⟨(F.negative_pattern v).mpr, fun h => (F.negative_pattern v).not.mpr (not_lt.mpr h.le)⟩

/-! ### The error in the normal range -/

theorem ulp_mono (F : Format) {c d : Nat} (h : c ≤ d) : F.ulp c ≤ F.ulp d := by
  have hdiv : c / 2 ^ F.frac ≤ d / 2 ^ F.frac := Nat.div_le_div_right h
  exact zpow_le_zpow_right₀ (by norm_num) (by omega)

/-- **Half a step of the result**, for a magnitude that is normal and finite. -/
theorem abs_sub_mag_le {x : ℚ} (h : Rounded F.mag F.inf x R) (hlo : F.mag (2 ^ F.frac) ≤ x)
    (hhi : x ≤ F.mag (F.inf - 1)) (hF : 2 ^ F.frac < F.inf) :
    2 ^ F.frac ≤ R ∧ R < F.inf ∧ 2 ^ (F.frac + 1) * |x - F.mag R| ≤ F.mag R := by
  have hR : 2 ^ F.frac ≤ R := (Rounded.self F.mag_strictMono hF.le).mono F.mag_strictMono h hlo
  have hR' : R < F.inf := by
    have hle := h.mono F.mag_strictMono (Rounded.self F.mag_strictMono (Nat.sub_le F.inf 1)) hhi
    exact lt_of_le_of_lt hle (Nat.sub_lt (Nat.zero_lt_of_lt hF) one_pos)
  have hmag : 2 ^ F.frac * F.ulp R ≤ F.mag R := by
    rw [mag_of_le hR]
    refine mul_le_mul_of_nonneg_right ?_ (F.ulp_pos R).le
    push_cast
    linarith [Nat.cast_nonneg (α := ℚ) (R % 2 ^ F.frac)]
  have hhalf : 2 * |x - F.mag R| ≤ F.ulp R := by
    have hup := h.above hR'
    rw [mag_succ] at hup
    have hdown : 2 * (F.mag R - x) ≤ F.ulp R := by
      rcases hR.eq_or_lt with heq | hlt
      · rw [← heq]
        linarith [F.ulp_pos (2 ^ F.frac)]
      · obtain ⟨r, rfl⟩ : ∃ r, R = r + 1 :=
          ⟨R - 1, (Nat.succ_pred_eq_of_pos (Nat.zero_lt_of_lt hlt)).symm⟩
        have hlow := h.below r rfl
        have hstep := F.mag_succ r
        linarith [F.ulp_mono (Nat.le_succ r)]
    rcases abs_cases (x - F.mag R) with ⟨h', _⟩ | ⟨h', _⟩ <;> linarith
  refine ⟨hR, hR', ?_⟩
  calc 2 ^ (F.frac + 1) * |x - F.mag R| = 2 ^ F.frac * (2 * |x - F.mag R|) := by ring
    _ ≤ 2 ^ F.frac * F.ulp R := mul_le_mul_of_nonneg_left hhalf (by positivity)
    _ ≤ F.mag R := hmag

end Format

end Ieee
