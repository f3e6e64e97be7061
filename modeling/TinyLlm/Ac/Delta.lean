/-
# `TinyLlm.Ac.Delta` — from logits to the fixed-point exponent

`tq_ac_delta_q16` is the last float operation of the codec.  A logit 18 or more
below the maximum is clamped there, and what it is clamped to has no weight, so
three integers 18 apart are levels (`levels_delta`), if the operations are
exact on small integers.
-/
import TinyLlm.Ac.Worst
import TinyLlm.Kernels.Float
import Mathlib.Data.Rat.Floor

namespace TinyLlm

section Delta
variable {F : Type} (O : FloatOps F)

/-- `TQ_AC_MIN_DELTA`. -/
def tqAcMinDelta : F := O.ofInt (-18)

/-- `TQ_AC_LOG2E_Q16`, the float next to `log2 e` times `65536`. -/
def tqAcLog2eQ16 : F := O.mul (O.ofBits 0x3FB8AA3B) (O.ofInt 65536)

def tqAcDeltaQ16 (logit max : F) : Int :=
  let d := O.sub logit max
  let d := if O.lt (tqAcMinDelta O) d then d else tqAcMinDelta O
  let d := if O.lt (O.ofInt 0) d then O.ofInt 0 else d
  O.toInt (O.mul d (tqAcLog2eQ16 O))

/-- What float arithmetic says of integers between -36 and 0. -/
structure FloatOps.ExactSmall : Prop where
  lt : ∀ a b : Int, -36 ≤ a → a ≤ 0 → -36 ≤ b → b ≤ 0 →
    O.lt (O.ofInt a) (O.ofInt b) = decide (a < b)
  sub : ∀ a b : Int, -36 ≤ a → a ≤ b → b ≤ 0 → O.sub (O.ofInt a) (O.ofInt b) = O.ofInt (a - b)
  zero : O.toInt (O.mul (O.ofInt 0) (tqAcLog2eQ16 O)) = 0
  clamp : O.toInt (O.mul (O.ofInt (-18)) (tqAcLog2eQ16 O)) = -1701872

/-- The levels: -36, -18 and 0. -/
def smallLevel (a : Nat) : F := O.ofInt (18 * a - 36)

variable {O} (hO : O.ExactSmall)
include hO

/-- A difference of at least 18 is clamped. -/
theorem tqAcDeltaQ16_far {logit max : F} {c : Int} (hc : -36 ≤ c ∧ c ≤ -18)
    (h : O.sub logit max = O.ofInt c) : tqAcDeltaQ16 O logit max = -1701872 := by
  have hclamp : O.lt (tqAcMinDelta O) (O.ofInt c) = false :=
    (hO.lt _ _ (by decide) (by decide) hc.1 (by omega)).trans (decide_eq_false (by omega))
  have hneg : O.lt (O.ofInt 0) (tqAcMinDelta O) = false :=
    hO.lt _ _ (by decide) (by decide) (by decide) (by decide)
  unfold tqAcDeltaQ16
  simp only [h, hclamp, hneg, Bool.false_eq_true, if_false]
  exact hO.clamp

/-- The maximum itself. -/
theorem tqAcDeltaQ16_max {logit max : F} (h : O.sub logit max = O.ofInt 0) :
    tqAcDeltaQ16 O logit max = 0 := by
  have hclamp : O.lt (tqAcMinDelta O) (O.ofInt 0) = true :=
    hO.lt _ _ (by decide) (by decide) (by decide) (by decide)
  have hneg : O.lt (O.ofInt 0) (O.ofInt 0) = false :=
    hO.lt _ _ (by decide) (by decide) (by decide) (by decide)
  unfold tqAcDeltaQ16
  simp only [h, hclamp, hneg, Bool.false_eq_true, if_false, if_true]
  exact hO.zero

theorem levels_delta : Levels (fun a b => O.lt b a) (tqAcDeltaQ16 O) (smallLevel O) where
  gt a ha b hb :=
    (hO.lt _ _ (by omega) (by omega) (by omega) (by omega)).trans (decide_eq_decide.mpr (by omega))
  same a ha := by
    have hsub := hO.sub (18 * a - 36) (18 * a - 36) (by omega) (Int.le_refl _) (by omega)
    rw [Int.sub_self] at hsub
    exact tqAcDeltaQ16_max hO hsub
  below b hb a hab := by
    have hsub := hO.sub (18 * a - 36) (18 * b - 36) (by omega) (by omega) (by omega)
    have hfar : tqAcDeltaQ16 O (smallLevel O a) (smallLevel O b) = -1701872 :=
      tqAcDeltaQ16_far hO (by omega) hsub
    rw [hfar]
    decide

end Delta

/-! ## Exact arithmetic -/

/-- The value of the bits of a normal float. -/
def ratOfBits (w : UInt32) : Rat :=
  let sign : Rat := if w >>> 31 = 0 then 1 else -1
  let exp : Int := ((w >>> 23) &&& 0xFF).toNat
  let mant : Rat := (((w &&& 0x7FFFFF).toNat + 2 ^ 23 : Nat) : Rat)
  if exp ≥ 150 then sign * mant * 2 ^ (exp - 150).toNat else sign * mant / 2 ^ (150 - exp).toNat

/-- Rational arithmetic, rounded nowhere. -/
def ratOps : FloatOps Rat where
  ofBits := ratOfBits
  toBits _ := 0
  ofInt i := i
  toInt q := if q < 0 then -⌊-q⌋ else ⌊q⌋
  half := 1 / 2
  add a b := a + b
  sub a b := a - b
  mul a b := a * b
  div a b := a / b
  neg a := -a
  sqrt a := a
  lt a b := decide (a < b)
  beq a b := decide (a = b)
  tqExpf a := a
  tqPowf a _ := a
  tqCosf a := a
  tqSinf a := a

theorem ratOps_exactSmall : ratOps.ExactSmall where
  lt a b _ _ _ _ := decide_eq_decide.mpr Int.cast_lt
  sub a b _ _ _ := (Int.cast_sub a b).symm
  zero := by decide +kernel
  clamp := by decide +kernel

end TinyLlm
