/-
# `TinyLlm.Kernels.Half` — the half conversions round correctly

`tq_float_to_half` and `tq_half_to_float` against the formats of
`TinyLlm.Lib.Ieee`.  The bit operations are read off as arithmetic on the
fields first (`floatBitsToHalf_toNat`, `halfToFloatBits_toNat`), the same
functions on natural numbers.  A float with a normal or subnormal half under
it is then the magnitude of the code it is cut to plus a part of one step, to
which the rule of `Rounded.of_rule` applies in both branches.
-/
import TinyLlm.Kernels.Float
import TinyLlm.Lib.Bytes
import TinyLlm.Lib.Ieee

namespace TinyLlm

open Bytes Ieee

/-! ## The words as numbers -/

section Words
variable {k : Nat}

theorem toNat_shiftRight_ofNat (x : UInt32) (hk : k < 32) :
    (x >>> UInt32.ofNat k).toNat = x.toNat / 2 ^ k := by
  rw [UInt32.toNat_shiftRight, UInt32.toNat_ofNat', Nat.mod_eq_of_lt (by omega : k < 2 ^ 32),
    Nat.mod_eq_of_lt hk, Nat.shiftRight_eq_div_pow]

theorem toNat_shiftLeft_ofNat (x : UInt32) (hk : k < 32) (h : x.toNat * 2 ^ k < 2 ^ 32) :
    (x <<< UInt32.ofNat k).toNat = x.toNat * 2 ^ k := by
  rw [UInt32.toNat_shiftLeft, UInt32.toNat_ofNat', Nat.mod_eq_of_lt (by omega : k < 2 ^ 32),
    Nat.mod_eq_of_lt hk, Nat.shiftLeft_eq, Nat.mod_eq_of_lt h]

theorem toNat_one_shiftLeft (hk : k < 32) : ((1 : UInt32) <<< UInt32.ofNat k).toNat = 2 ^ k := by
  have h : 2 ^ k < 2 ^ 32 := Nat.pow_lt_pow_right (by decide) hk
  rw [toNat_shiftLeft_ofNat _ hk (by rwa [UInt32.toNat_one, Nat.one_mul]),
    UInt32.toNat_one, Nat.one_mul]

/-- A mask of low bits is a remainder. -/
theorem toNat_and_low {mask : UInt32} (x : UInt32) (h : mask.toNat = 2 ^ k - 1) :
    (x &&& mask).toNat = x.toNat % 2 ^ k := by
  rw [UInt32.toNat_and, h, Nat.and_two_pow_sub_one_eq_mod]

theorem toNat_low_mask (hk : k < 32) :
    (((1 : UInt32) <<< UInt32.ofNat k) - 1).toNat = 2 ^ k - 1 := by
  rw [UInt32.toNat_sub_of_le, toNat_one_shiftLeft hk, UInt32.toNat_one]
  rw [UInt32.le_iff_toNat_le, toNat_one_shiftLeft hk]
  exact Nat.one_le_two_pow

/-- Fields side by side are joined by adding them. -/
theorem toNat_or_fields {x y : UInt32} {a : Nat} (hx : x.toNat = a * 2 ^ k) (hy : y.toNat < 2 ^ k) :
    (x ||| y).toNat = a * 2 ^ k + y.toNat := by
  rw [UInt32.toNat_or, hx, Nat.mul_comm, Nat.two_pow_add_eq_or_of_lt hy]

/-- The sign moved down to the bit it has in a half. -/
theorem toNat_sign (x : UInt32) :
    ((x >>> (16 : UInt32)) &&& 0x8000).toNat = x.toNat / 2 ^ 31 * 2 ^ 15 := by
  have hlt := x.toNat_lt
  have h : (x >>> (16 : UInt32)).toNat = x.toNat / 2 ^ 16 :=
    toNat_shiftRight_ofNat x (by decide : 16 < 32)
  rw [UInt32.toNat_and, h, show (0x8000 : UInt32).toNat = 2 ^ 15 from rfl, and_top (by omega),
    Nat.div_div_eq_div_mul, ← Nat.pow_add]

/-- The sign moved up to the bit it has in a float. -/
theorem toNat_sign_up (h : UInt16) :
    ((h &&& 0x8000).toUInt32 <<< (16 : UInt32)).toNat = h.toNat / 2 ^ 15 * 2 ^ 31 := by
  have hlt := h.toNat_lt
  have hand : (h &&& 0x8000).toUInt32.toNat = h.toNat / 2 ^ 15 * 2 ^ 15 := by
    rw [UInt16.toNat_toUInt32, UInt16.toNat_and]
    exact and_top hlt
  have hshift := toNat_shiftLeft_ofNat (h &&& 0x8000).toUInt32 (k := 16) (by decide) (by omega)
  rw [hand] at hshift
  exact hshift.trans (by omega)

end Words

/-! ## `tq_float_to_half` on the fields -/

/-- What is cut off rounds the kept part. -/
def roundNat (q r h : Nat) : Nat := if h < r ∨ (r = h ∧ q % 2 = 1) then q + 1 else q

/-- The code of a half from the exponent and the fraction of a float. -/
def halfCode (e m : Nat) : Nat :=
  if e = 255 then 0x7C00 + (if m = 0 then 0 else 0x200)
  else if 143 ≤ e then 0x7C00
  else if e < 102 then 0
  else if e ≤ 112 then roundNat ((2 ^ 23 + m) / 2 ^ (126 - e)) ((2 ^ 23 + m) % 2 ^ (126 - e))
    (2 ^ (125 - e))
  else roundNat ((e - 112) * 2 ^ 10 + m / 2 ^ 13) (m % 2 ^ 13) (2 ^ 12)

theorem roundNat_le (q r h : Nat) : roundNat q r h ≤ q + 1 := by
  unfold roundNat
  split <;> omega

theorem toNat_roundEven {q r h : UInt32} (hq : q.toNat < 2 ^ 32 - 1) :
    (roundEven q r h).toNat = roundNat q.toNat r.toNat h.toNat := by
  have hodd : q &&& 1 ≠ 0 ↔ q.toNat % 2 = 1 := by
    rw [ne_eq, ← UInt32.toNat_inj, toNat_and_low q (k := 1) rfl, UInt32.toNat_zero]
    omega
  have hcond : (r > h ∨ (r = h ∧ q &&& 1 ≠ 0)) ↔
      (h.toNat < r.toNat ∨ (r.toNat = h.toNat ∧ q.toNat % 2 = 1)) := by
    rw [hodd, gt_iff_lt, UInt32.lt_iff_toNat_lt, ← UInt32.toNat_inj]
  rw [roundEven, roundNat, apply_ite UInt32.toNat]
  refine if_congr hcond ?_ rfl
  rw [UInt32.toNat_add, UInt32.toNat_one, Nat.mod_eq_of_lt (by omega)]

theorem halfCode_le {e m : Nat} (hm : m < 2 ^ 23) : halfCode e m < 2 ^ 15 := by
  unfold halfCode
  split
  · split <;> decide
  split
  · decide
  split
  · decide
  split
  · have h : 2 ^ 14 ≤ 2 ^ (126 - e) := Nat.pow_le_pow_right (by decide) (by omega)
    have : (2 ^ 23 + m) / 2 ^ (126 - e) < 2 ^ 10 := by
      rw [Nat.div_lt_iff_lt_mul (by positivity)]
      omega
    have := roundNat_le ((2 ^ 23 + m) / 2 ^ (126 - e)) ((2 ^ 23 + m) % 2 ^ (126 - e))
      (2 ^ (125 - e))
    omega
  · have := roundNat_le ((e - 112) * 2 ^ 10 + m / 2 ^ 13) (m % 2 ^ 13) (2 ^ 12)
    omega

/-- A sign in front of a code. -/
theorem toNat_signed {sign c : UInt32} {b : Nat} (hs : sign.toNat = b * 2 ^ 15) (hb : b < 2)
    (hc : c.toNat < 2 ^ 15) : (sign ||| c).toUInt16.toNat = b * 2 ^ 15 + c.toNat := by
  rw [UInt32.toNat_toUInt16, toNat_or_fields hs hc, Nat.mod_eq_of_lt (by omega)]

/-- **The half on the fields of the float.** -/
theorem floatBitsToHalf_toNat (x : UInt32) :
    (floatBitsToHalf x).toNat =
      x.toNat / 2 ^ 31 * 2 ^ 15 + halfCode (x.toNat / 2 ^ 23 % 2 ^ 8) (x.toNat % 2 ^ 23) := by
  have hx := x.toNat_lt
  have hs := toNat_sign x
  have hb : x.toNat / 2 ^ 31 < 2 := by omega
  have hmant : (x &&& 0x7FFFFF).toNat = x.toNat % 2 ^ 23 := toNat_and_low x rfl
  have hexp : ((x >>> (23 : UInt32)) &&& 0xFF).toNat = x.toNat / 2 ^ 23 % 2 ^ 8 := by
    rw [toNat_and_low _ (k := 8) rfl]
    exact congrArg (· % 2 ^ 8) (toNat_shiftRight_ofNat x (by decide : 23 < 32))
  have hm : x.toNat % 2 ^ 23 < 2 ^ 23 := Nat.mod_lt _ (by decide)
  have he : x.toNat / 2 ^ 23 % 2 ^ 8 < 2 ^ 8 := Nat.mod_lt _ (by decide)
  have hzero : x &&& 0x7FFFFF = 0 ↔ x.toNat % 2 ^ 23 = 0 := by
    rw [← UInt32.toNat_inj, hmant, UInt32.toNat_zero]
  unfold floatBitsToHalf halfCode
  rw [hexp]
  generalize x.toNat / 2 ^ 23 % 2 ^ 8 = e at he ⊢
  generalize (x >>> (16 : UInt32)) &&& 0x8000 = sign at hs ⊢
  generalize x &&& 0x7FFFFF = mant at hmant hzero ⊢
  generalize x.toNat / 2 ^ 31 = b at hb hs ⊢
  generalize x.toNat % 2 ^ 23 = m at hm hmant hzero ⊢
  dsimp only
  by_cases h255 : e = 255
  · -- infinity, or a NaN with its quiet bit
    rw [if_pos (by omega), if_pos h255, UInt32.or_assoc]
    by_cases h0 : mant = 0
    · rw [if_neg (not_not.mpr h0), if_pos (hzero.mp h0)]
      exact toNat_signed hs hb (by decide)
    · rw [if_pos h0, if_neg (mt hzero.mpr h0)]
      exact toNat_signed hs hb (by decide)
  by_cases h143 : 143 ≤ e
  · rw [if_neg (by omega), if_pos (by omega), if_neg h255, if_pos h143]
    exact toNat_signed hs hb (by decide)
  by_cases h102 : e < 102
  · rw [if_neg (by omega), if_neg (by omega), if_pos (by omega), if_pos (by omega),
      if_neg h255, if_neg h143, if_pos h102]
    have h := toNat_signed (c := 0) hs hb (by decide)
    rwa [UInt32.or_zero] at h
  by_cases h112 : e ≤ 112
  · rw [if_neg (by omega), if_neg (by omega), if_pos (by omega), if_neg (by omega),
      if_neg h255, if_neg h143, if_neg h102, if_pos h112]
    -- a subnormal: the implicit bit is restored and shifted down with the rest
    have hM : (mant ||| 0x800000).toNat = 2 ^ 23 + m := by
      rw [UInt32.or_comm, toNat_or_fields (a := 1) (k := 23) rfl (by omega), hmant, Nat.one_mul]
    have hk : (14 - ((e : Int) - 127 + 15)).toNat = 126 - e := by omega
    have hone : UInt32.ofNat (126 - e) - 1 = UInt32.ofNat (125 - e) := by
      rw [show 126 - e = 125 - e + 1 by omega, UInt32.ofNat_add]
      exact UInt32.add_sub_cancel _ _
    have hhalf : 2 ^ 14 ≤ 2 ^ (126 - e) := Nat.pow_le_pow_right (by decide) (by omega)
    have hq : (2 ^ 23 + m) / 2 ^ (126 - e) < 2 ^ 10 := by
      rw [Nat.div_lt_iff_lt_mul (by positivity)]
      omega
    rw [hk, hone]
    have hround := toNat_roundEven (q := (mant ||| 0x800000) >>> UInt32.ofNat (126 - e))
      (r := (mant ||| 0x800000) &&& (((1 : UInt32) <<< UInt32.ofNat (126 - e)) - 1))
      (h := (1 : UInt32) <<< UInt32.ofNat (125 - e))
      (by rw [toNat_shiftRight_ofNat _ (by omega), hM]; omega)
    rw [toNat_shiftRight_ofNat _ (by omega), toNat_and_low _ (toNat_low_mask (by omega)),
      toNat_one_shiftLeft (by omega), hM] at hround
    rw [toNat_signed hs hb, hround]
    rw [hround]
    have := roundNat_le ((2 ^ 23 + m) / 2 ^ (126 - e)) ((2 ^ 23 + m) % 2 ^ (126 - e))
      (2 ^ (125 - e))
    omega
  · rw [if_neg (by omega), if_neg (by omega), if_neg (by omega), if_neg h255, if_neg h143,
      if_neg h102, if_neg h112]
    -- a normal half: the fields stay side by side, the exponent rebiased
    have hk : ((e : Int) - 127 + 15).toNat = e - 112 := by omega
    have hE : (UInt32.ofNat (e - 112) <<< (10 : UInt32)).toNat = (e - 112) * 2 ^ 10 := by
      have := toNat_shiftLeft_ofNat (UInt32.ofNat (e - 112)) (k := 10) (by decide)
      rw [UInt32.toNat_ofNat', Nat.mod_eq_of_lt (by omega : e - 112 < 2 ^ 32)] at this
      exact this (by omega)
    have hM : (mant >>> (13 : UInt32)).toNat = m / 2 ^ 13 := by
      rw [← hmant]
      exact toNat_shiftRight_ofNat mant (by decide : 13 < 32)
    have hh : (UInt32.ofNat (e - 112) <<< (10 : UInt32) ||| mant >>> (13 : UInt32)).toNat =
        (e - 112) * 2 ^ 10 + m / 2 ^ 13 := by
      rw [toNat_or_fields hE (by omega), hM]
    rw [hk]
    have hround :=
      toNat_roundEven (q := UInt32.ofNat (e - 112) <<< (10 : UInt32) ||| mant >>> (13 : UInt32))
      (r := mant &&& 0x1FFF) (h := 0x1000) (by omega)
    rw [hh, toNat_and_low mant (k := 13) rfl, hmant, show (0x1000 : UInt32).toNat =
      2 ^ 12 from rfl] at hround
    have := roundNat_le ((e - 112) * 2 ^ 10 + m / 2 ^ 13) (m % 2 ^ 13) (2 ^ 12)
    rw [toNat_signed hs hb (by omega), hround]

/-! ## The rounding -/

theorem half_inf : half.inf = 0x7C00 := rfl

theorem single_mag {e m : Nat} (he : 0 < e) (hm : m < 2 ^ 23) :
    single.mag (e * 2 ^ 23 + m) = (2 ^ 23 + m : ℕ) * 2 ^ (e - 150 : ℤ) := by
  have h := Format.mag_fields (F := single) he hm
  rw [show single.bias = 127 from rfl] at h
  rw [show (e - 150 : ℤ) = e - (127 : ℕ) - (23 : ℕ) by omega]
  exact h

theorem half_mag {e m : Nat} (he : 0 < e) (hm : m < 2 ^ 10) :
    half.mag (e * 2 ^ 10 + m) = (2 ^ 10 + m : ℕ) * 2 ^ (e - 25 : ℤ) := by
  have h := Format.mag_fields (F := half) he hm
  rw [show half.bias = 15 from rfl] at h
  rw [show (e - 25 : ℤ) = e - (15 : ℕ) - (10 : ℕ) by omega]
  exact h

theorem half_ulp {e m : Nat} (he : 0 < e) (hm : m < 2 ^ 10) :
    half.ulp (e * 2 ^ 10 + m) = 2 ^ (e - 25 : ℤ) := by
  have h := Format.ulp_fields (F := half) (e := e) hm
  rw [show half.bias = 15 from rfl, max_eq_left he] at h
  rw [show (e - 25 : ℤ) = e - (15 : ℕ) - (10 : ℕ) by omega]
  exact h

theorem half_mag_inf : half.mag half.inf = 65536 := by
  rw [show half.inf = 31 * 2 ^ 10 + 0 from rfl, half_mag (by decide) (by decide)]
  norm_num

/-- Half of the last step past 65504. -/
theorem half_overflow : half.overflow = 65520 := by
  rw [Format.overflow, half_mag_inf, show half.inf - 1 = 30 * 2 ^ 10 + 1023 from rfl,
    half_mag (by decide) (by decide)]
  norm_num

/-- The infinity of a half is still finite as a float. -/
theorem half_inf_le : half.mag half.inf ≤ single.mag single.inf := by
  rw [half_mag_inf, show single.inf = 255 * 2 ^ 23 + 0 from rfl, single_mag (by decide) (by decide)]
  norm_num

/-- A step of the binade is the part of it below the cut, doubled up. -/
theorem zpow_mul_two_pow (a : ℤ) (k : Nat) : (2 : ℚ) ^ a * 2 ^ k = 2 ^ (a + k) := by
  rw [zpow_add₀ (by norm_num), zpow_natCast]

/-- From the code of infinity on everything is infinity. -/
theorem halfCode_rounded_over {e m : Nat} (h143 : 143 ≤ e) (he : e < 255 ∨ (e = 255 ∧ m = 0)) :
    Rounded half.mag half.inf (single.mag (e * 2 ^ 23 + m)) (halfCode e m) := by
  have hcode : halfCode e m = half.inf := by
    rcases he with he | ⟨rfl, rfl⟩
    · rw [halfCode, if_neg he.ne, if_pos h143, half_inf]
    · rfl
  rw [hcode]
  refine Rounded.of_top_le half.mag_strictMono ?_
  calc half.mag half.inf = single.mag (143 * 2 ^ 23 + 0) := by
        rw [half_mag_inf, single_mag (by decide) (by decide)]
        norm_num
    _ ≤ single.mag (e * 2 ^ 23 + m) := single.mag_strictMono.monotone (by omega)

/-- Below half of the least subnormal everything is zero. -/
theorem halfCode_rounded_under {e m : Nat} (hm : m < 2 ^ 23) (h102 : e < 102) :
    Rounded half.mag half.inf (single.mag (e * 2 ^ 23 + m)) (halfCode e m) := by
  have hlt : single.mag (e * 2 ^ 23 + m) < 2 ^ (-25 : ℤ) := by
    calc single.mag (e * 2 ^ 23 + m) < single.mag (102 * 2 ^ 23 + 0) :=
      single.mag_strictMono (by omega)
      _ = 2 ^ (-25 : ℤ) := by
        rw [single_mag (by decide) (by decide)]
        norm_num
  have h1 : half.mag 1 = 2 ^ (-24 : ℤ) := by
    rw [Format.mag_of_le_two_pow (by decide), Nat.cast_one, one_mul]
    rfl
  have hdouble : (2 : ℚ) ^ (-24 : ℤ) = 2 * 2 ^ (-25 : ℤ) := by norm_num
  rw [halfCode, if_neg (by omega), if_neg (by omega), if_pos h102]
  refine ⟨Nat.zero_le _, by simp, by simp, fun _ => ?_, fun _ h => ?_⟩
  · rw [half.mag_zero, h1]
    linarith
  · rw [half.mag_zero, h1] at h
    linarith

/-- A subnormal: the quotient counts the least magnitudes. -/
theorem halfCode_rounded_subnormal {e m : Nat} (hm : m < 2 ^ 23) (h102 : 102 ≤ e) (h112 : e ≤ 112) :
    Rounded half.mag half.inf (single.mag (e * 2 ^ 23 + m)) (halfCode e m) := by
  have hpow : 2 ^ (126 - e) = 2 * 2 ^ (125 - e) := by
    rw [← Nat.pow_succ', Nat.succ_eq_add_one, show 125 - e + 1 = 126 - e by omega]
  have hpow' : (2 : ℚ) * (2 ^ (125 - e) : ℕ) = 2 ^ (126 - e) := by exact_mod_cast hpow.symm
  have hstep : (2 : ℚ) ^ (e - 150 : ℤ) * 2 ^ (126 - e) = 2 ^ (-24 : ℤ) := by
    rw [zpow_mul_two_pow]
    congr 1
    omega
  have hq : (2 ^ 23 + m) / 2 ^ (126 - e) < 2 ^ 10 := by
    have : 2 ^ 14 ≤ 2 ^ (126 - e) := Nat.pow_le_pow_right (by decide) (by omega)
    rw [Nat.div_lt_iff_lt_mul (by positivity)]
    omega
  have hmag : ∀ q, q ≤ 2 ^ 10 → half.mag q = q * 2 ^ (-24 : ℤ) :=
    fun q hq => Format.mag_of_le_two_pow hq
  have hdm : ((2 ^ 23 + m : ℕ) : ℚ) = (2 ^ (126 - e) : ℕ) * ((2 ^ 23 + m) / 2 ^ (126 - e) : ℕ) +
      ((2 ^ 23 + m) % 2 ^ (126 - e) : ℕ) := by
    exact_mod_cast (Nat.div_add_mod (2 ^ 23 + m) (2 ^ (126 - e))).symm
  have hu : (0 : ℚ) < 2 ^ (e - 150 : ℤ) := zpow_pos (by norm_num) _
  rw [halfCode, if_neg (by omega), if_neg (by omega), if_neg (by omega), if_pos h112]
  refine Rounded.of_rule half.mag_strictMono hu ?_ ?_ ?_ (by rw [half_inf]; omega)
  · rw [single_mag (by omega) hm, hmag _ hq.le, ← hstep, hdm, Nat.cast_pow, Nat.cast_ofNat]
    ring
  · rw [hmag _ hq.le, hmag _ hq, hpow', hstep]
    push_cast
    ring
  · rw [← hpow]
    exact Nat.mod_lt _ (by positivity)

/-- A normal half: the same binade with thirteen bits fewer. -/
theorem halfCode_rounded_normal {e m : Nat} (hm : m < 2 ^ 23) (h112 : 112 < e) (h143 : e < 143) :
    Rounded half.mag half.inf (single.mag (e * 2 ^ 23 + m)) (halfCode e m) := by
  have hstep : (2 : ℚ) ^ (e - 150 : ℤ) * 2 ^ 13 = 2 ^ ((e - 112 : ℕ) - 25 : ℤ) := by
    rw [zpow_mul_two_pow]
    congr 1
    omega
  have hm' : m / 2 ^ 13 < 2 ^ 10 := by omega
  have he' : 0 < e - 112 := by omega
  have hdm : ((m : ℕ) : ℚ) = 2 ^ 13 * (m / 2 ^ 13 : ℕ) + (m % 2 ^ 13 : ℕ) := by
    exact_mod_cast (Nat.div_add_mod m (2 ^ 13)).symm
  have hu : (0 : ℚ) < 2 ^ (e - 150 : ℤ) := zpow_pos (by norm_num) _
  rw [halfCode, if_neg (by omega), if_neg (by omega), if_neg (by omega), if_neg (by omega)]
  refine Rounded.of_rule half.mag_strictMono hu ?_ ?_ (by omega) (by rw [half_inf]; omega)
  · rw [single_mag (by omega) hm, half_mag he' hm', ← hstep, Nat.cast_add, Nat.cast_add, hdm]
    push_cast
    ring
  · rw [Format.mag_succ, half_ulp he' hm', ← hstep]
    norm_num

/-- **The code is the magnitude rounded to nearest, ties to even.** -/
theorem halfCode_rounded {e m : Nat} (hm : m < 2 ^ 23) (he : e < 255 ∨ (e = 255 ∧ m = 0)) :
    Rounded half.mag half.inf (single.mag (e * 2 ^ 23 + m)) (halfCode e m) := by
  by_cases h143 : 143 ≤ e
  · exact halfCode_rounded_over h143 he
  by_cases h102 : e < 102
  · exact halfCode_rounded_under hm h102
  by_cases h112 : e ≤ 112
  · exact halfCode_rounded_subnormal hm (not_lt.mp h102) h112
  · exact halfCode_rounded_normal hm (not_le.mp h112) (not_le.mp h143)

/-! ## On patterns -/

theorem single_code (x : UInt32) :
    single.code x.toNat = x.toNat / 2 ^ 23 % 2 ^ 8 * 2 ^ 23 + x.toNat % 2 ^ 23 := by
  have h : single.code x.toNat = x.toNat % 2 ^ 31 := rfl
  rw [h]
  omega

theorem half_code (x : UInt32) :
    half.code (floatBitsToHalf x).toNat =
      halfCode (x.toNat / 2 ^ 23 % 2 ^ 8) (x.toNat % 2 ^ 23) := by
  have hlt := halfCode_le (e := x.toNat / 2 ^ 23 % 2 ^ 8) (m := x.toNat % 2 ^ 23)
    (Nat.mod_lt _ (by decide))
  have h : half.code (floatBitsToHalf x).toNat = (floatBitsToHalf x).toNat % 2 ^ 15 := rfl
  rw [h, floatBitsToHalf_toNat]
  omega

/-- The sign stays. -/
theorem half_negative_iff (x : UInt32) :
    half.Negative (floatBitsToHalf x).toNat ↔ single.Negative x.toNat := by
  have hlt := halfCode_le (e := x.toNat / 2 ^ 23 % 2 ^ 8) (m := x.toNat % 2 ^ 23)
    (Nat.mod_lt _ (by decide))
  have hx := x.toNat_lt
  have h : half.Negative (floatBitsToHalf x).toNat ↔
      (floatBitsToHalf x).toNat / 2 ^ 15 % 2 = 1 := Iff.rfl
  have h' : single.Negative x.toNat ↔ x.toNat / 2 ^ 31 % 2 = 1 := Iff.rfl
  rw [h, h', floatBitsToHalf_toNat]
  omega

/-- A pattern other than a NaN is rounded by its magnitude. -/
theorem half_rounded {x : UInt32} (hx : ¬ single.IsNan x.toNat) :
    Rounded half.mag half.inf |single.value x.toNat| (half.code (floatBitsToHalf x).toNat) := by
  have hle : single.code x.toNat ≤ 255 * 2 ^ 23 := not_lt.mp hx
  rw [single_code] at hle
  have hm : x.toNat % 2 ^ 23 < 2 ^ 23 := Nat.mod_lt _ (by decide)
  rw [Format.abs_value, single_code, half_code]
  exact halfCode_rounded hm (by omega)

theorem half_not_isNan {x : UInt32} (hx : ¬ single.IsNan x.toNat) :
    ¬ half.IsNan (floatBitsToHalf x).toNat :=
  not_lt.mpr (half_rounded hx).le_top

theorem half_signed (x : UInt32) : half.Signed (single.value x.toNat) (floatBitsToHalf x).toNat :=
  Format.signed_value (half_negative_iff x)

/-- Infinity stays infinity. -/
theorem half_isInf {x : UInt32} (hx : single.IsInf x.toNat) :
    half.IsInf (floatBitsToHalf x).toNat := by
  have hcode : single.code x.toNat = 255 * 2 ^ 23 := hx
  rw [single_code] at hcode
  have he : x.toNat / 2 ^ 23 % 2 ^ 8 = 255 := by omega
  have hm : x.toNat % 2 ^ 23 = 0 := by omega
  unfold Format.IsInf
  rw [half_code, he, hm]
  rfl

/-- A NaN stays a NaN. -/
theorem half_isNan {x : UInt32} (hx : single.IsNan x.toNat) :
    half.IsNan (floatBitsToHalf x).toNat := by
  have hcode : 255 * 2 ^ 23 < single.code x.toNat := hx
  rw [single_code] at hcode
  have he : x.toNat / 2 ^ 23 % 2 ^ 8 = 255 := by omega
  have hm : x.toNat % 2 ^ 23 ≠ 0 := by omega
  unfold Format.IsNan
  rw [half_code, he, halfCode, if_pos rfl, if_neg hm]
  decide

/-! ## `tq_half_to_float` on the fields -/

theorem low_of_bit_clear {x : UInt32} (hx : x.toNat < 2048) (h : x &&& 0x400 = 0) :
    x.toNat < 1024 := by
  rw [← UInt32.toNat_inj, UInt32.toNat_and, show (0x400 : UInt32).toNat = 2 ^ 10 from rfl,
    Nat.and_two_pow, Nat.testBit_eq_decide_div_mod_eq, UInt32.toNat_zero] at h
  by_contra hge
  rw [decide_eq_true (by omega)] at h
  exact absurd h (by decide)

theorem high_of_bit_set {x : UInt32} (h : x &&& 0x400 ≠ 0) : 1024 ≤ x.toNat := by
  by_contra hlt
  apply h
  rw [← UInt32.toNat_inj, UInt32.toNat_and, show (0x400 : UInt32).toNat = 2 ^ 10 from rfl,
    Nat.and_two_pow, Nat.testBit_lt_two_pow (by omega), UInt32.toNat_zero]
  rfl

/-- The loop stops with the implicit bit set, having paid for each shift in
the exponent. -/
theorem halfNormalize_spec (k : Nat) {mant e : UInt32} (hlt : mant.toNat < 2048)
    (hge : 1024 ≤ mant.toNat * 2 ^ k) (he : k ≤ e.toNat) :
    ∃ j ≤ k, (halfNormalize k mant e).1.toNat = mant.toNat * 2 ^ j ∧
      (halfNormalize k mant e).2.toNat = e.toNat - j ∧
      1024 ≤ mant.toNat * 2 ^ j ∧ mant.toNat * 2 ^ j < 2048 := by
  induction k generalizing mant e with
  | zero => exact ⟨0, le_rfl, by simp [halfNormalize], rfl, hge, by simpa using hlt⟩
  | succ k ih =>
    rw [halfNormalize]
    by_cases hbit : mant &&& 0x400 = 0
    · rw [if_pos hbit]
      have hlow := low_of_bit_clear hlt hbit
      have hshift : (mant <<< (1 : UInt32)).toNat = mant.toNat * 2 ^ 1 :=
        toNat_shiftLeft_ofNat mant (k := 1) (by decide) (by omega)
      have hdec : (e - 1).toNat = e.toNat - 1 := by
        rw [UInt32.toNat_sub_of_le _ _ (by rw [UInt32.le_iff_toNat_le, UInt32.toNat_one]; omega),
          UInt32.toNat_one]
      have hge' : 1024 ≤ (mant <<< (1 : UInt32)).toNat * 2 ^ k := by
        rw [hshift, Nat.mul_assoc, ← Nat.pow_add, Nat.add_comm 1]
        exact hge
      obtain ⟨j, hj, h₁, h₂, h₃, h₄⟩ := ih (by omega) hge' (by omega : k ≤ (e - 1).toNat)
      rw [hshift, Nat.mul_assoc, ← Nat.pow_add, Nat.add_comm 1] at h₁ h₃ h₄
      exact ⟨j + 1, by omega, h₁, by omega, h₃, h₄⟩
    · rw [if_neg hbit]
      exact ⟨0, Nat.zero_le _, by simp, rfl, by simpa using high_of_bit_set hbit,
        by simpa using hlt⟩

/-- The code of a float from the exponent and the fraction of a half: its
magnitude is the same, and infinity is infinity. -/
structure Widened (e m c : Nat) : Prop where
  code_lt : c < 2 ^ 31
  finite : e < 31 → single.mag c = half.mag (e * 2 ^ 10 + m)
  inf : e = 31 → c = single.inf + m * 2 ^ 13

theorem widened_normal {e m : Nat} (he : 0 < e) (he' : e < 31) (hm : m < 2 ^ 10) :
    Widened e m ((e + 112) * 2 ^ 23 + m * 2 ^ 13) where
  code_lt := by omega
  inf h := by omega
  finite _ := by
    have hstep : (2 : ℚ) ^ ((e + 112 : ℕ) - 150 : ℤ) * 2 ^ 13 = 2 ^ (e - 25 : ℤ) := by
      rw [zpow_mul_two_pow]
      congr 1
      omega
    rw [single_mag (by omega) (by omega), half_mag he hm, ← hstep]
    push_cast
    ring

theorem widened_subnormal {m j : Nat} (hge : 1024 ≤ m * 2 ^ j)
    (hlt : m * 2 ^ j < 2048) (hj : j ≤ 10) (hm : m < 2 ^ 10) :
    Widened 0 m ((113 - j) * 2 ^ 23 + (m * 2 ^ j - 1024) * 2 ^ 13) where
  code_lt := by omega
  inf h := by omega
  finite _ := by
    have hstep : (2 : ℚ) ^ ((113 - j : ℕ) - 150 : ℤ) * 2 ^ (13 + j) = 2 ^ (-24 : ℤ) := by
      rw [zpow_mul_two_pow]
      congr 1
      omega
    have hsig : 2 ^ 23 + (m * 2 ^ j - 1024) * 2 ^ 13 = m * 2 ^ (13 + j) := by
      rw [Nat.pow_add, Nat.mul_left_comm, Nat.mul_comm (2 ^ 13)]
      omega
    have hmag : half.mag m = m * 2 ^ (-24 : ℤ) := Format.mag_of_le_two_pow (le_of_lt hm)
    rw [single_mag (by omega) (by omega), hsig, Nat.zero_mul, Nat.zero_add, hmag, ← hstep]
    push_cast
    ring

/-- A sign in front of an exponent and a fraction. -/
theorem toNat_fields {sign a b : UInt32} {s e : Nat} (hs : sign.toNat = s * 2 ^ 31)
    (ha : a.toNat = e * 2 ^ 23) (he : e < 2 ^ 8) (hb : b.toNat < 2 ^ 23) :
    (sign ||| a ||| b).toNat = s * 2 ^ 31 + (e * 2 ^ 23 + b.toNat) := by
  have hab : (a ||| b).toNat = e * 2 ^ 23 + b.toNat := toNat_or_fields ha hb
  rw [UInt32.or_assoc, toNat_or_fields hs (by omega), hab]

/-- What the subnormal branch puts together. -/
theorem toNat_widen_subnormal {sign mant : UInt32} {s : Nat} (hs : sign.toNat = s * 2 ^ 31)
    (hm : mant.toNat < 2 ^ 10) (h0 : mant.toNat ≠ 0) :
    ∃ c, Widened 0 mant.toNat c ∧
      (sign ||| ((halfNormalize 10 mant (127 - 15 + 1)).2 <<< (23 : UInt32)) |||
        (((halfNormalize 10 mant (127 - 15 + 1)).1 &&& 0x3FF) <<< (13 : UInt32))).toNat =
        s * 2 ^ 31 + c := by
  have h113 : (127 - 15 + 1 : UInt32).toNat = 113 := rfl
  have hspec := @halfNormalize_spec 10 mant (127 - 15 + 1) (by omega) (by omega)
    (by rw [h113]; decide)
  obtain ⟨j, hj, h₁, h₂, h₃, h₄⟩ := hspec
  rw [h113] at h₂
  generalize (halfNormalize 10 mant (127 - 15 + 1)).1 = mant' at h₁ ⊢
  generalize (halfNormalize 10 mant (127 - 15 + 1)).2 = e' at h₂ ⊢
  have hfrac : (mant' &&& 0x3FF).toNat = mant.toNat * 2 ^ j - 1024 := by
    rw [toNat_and_low mant' (k := 10) rfl, h₁]
    omega
  have hfrac13 : ((mant' &&& 0x3FF) <<< (13 : UInt32)).toNat =
      (mant.toNat * 2 ^ j - 1024) * 2 ^ 13 := by
    rw [← hfrac]
    exact toNat_shiftLeft_ofNat _ (k := 13) (by decide) (by omega)
  have hexp23 : (e' <<< (23 : UInt32)).toNat = (113 - j) * 2 ^ 23 := by
    rw [← h₂]
    exact toNat_shiftLeft_ofNat _ (k := 23) (by decide) (by omega)
  refine ⟨_, widened_subnormal h₃ h₄ hj hm, ?_⟩
  rw [toNat_fields hs hexp23 (by omega) (by omega), hfrac13]

/-- What the normal branch puts together. -/
theorem toNat_widen_normal {sign exp mant : UInt32} {s : Nat} (hs : sign.toNat = s * 2 ^ 31)
    (he : 0 < exp.toNat) (he' : exp.toNat < 31) (hm : mant.toNat < 2 ^ 10) :
    ∃ c, Widened exp.toNat mant.toNat c ∧
      (sign ||| ((exp - 15 + 127) <<< (23 : UInt32)) ||| (mant <<< (13 : UInt32))).toNat =
      s * 2 ^ 31 + c := by
  have hmant13 : (mant <<< (13 : UInt32)).toNat = mant.toNat * 2 ^ 13 :=
    toNat_shiftLeft_ofNat mant (k := 13) (by decide) (by omega)
  have hbias : (exp - 15 + 127).toNat = exp.toNat + 112 := by
    rw [UInt32.toNat_add, UInt32.toNat_sub, show (15 : UInt32).toNat = 15 from rfl,
      show (127 : UInt32).toNat = 127 from rfl]
    omega
  have hexp23 : ((exp - 15 + 127) <<< (23 : UInt32)).toNat = (exp.toNat + 112) * 2 ^ 23 := by
    rw [← hbias]
    exact toNat_shiftLeft_ofNat _ (k := 23) (by decide) (by omega)
  refine ⟨_, widened_normal he he' hm, ?_⟩
  rw [toNat_fields hs hexp23 (by omega) (by omega), hmant13]

/-- **The float on the fields of the half.** -/
theorem halfToFloatBits_toNat (h : UInt16) :
    ∃ c, Widened (h.toNat / 2 ^ 10 % 2 ^ 5) (h.toNat % 2 ^ 10) c ∧
      (halfToFloatBits h).toNat = h.toNat / 2 ^ 15 * 2 ^ 31 + c := by
  have hsign := toNat_sign_up h
  have hexp : ((h >>> (10 : UInt16)).toUInt32 &&& 0x1F).toNat = h.toNat / 2 ^ 10 % 2 ^ 5 := by
    rw [toNat_and_low _ (k := 5) rfl, UInt16.toNat_toUInt32, UInt16.toNat_shiftRight,
      Nat.shiftRight_eq_div_pow]
    rfl
  have hmant : (h.toUInt32 &&& 0x3FF).toNat = h.toNat % 2 ^ 10 := by
    rw [toNat_and_low _ (k := 10) rfl]
    rfl
  have hm : h.toNat % 2 ^ 10 < 2 ^ 10 := Nat.mod_lt _ (by decide)
  have he : h.toNat / 2 ^ 10 % 2 ^ 5 < 2 ^ 5 := Nat.mod_lt _ (by decide)
  rw [← hexp] at he ⊢
  rw [← hmant] at hm ⊢
  unfold halfToFloatBits
  generalize (h &&& 0x8000).toUInt32 <<< (16 : UInt32) = sign at hsign ⊢
  generalize (h >>> (10 : UInt16)).toUInt32 &&& 0x1F = exp at he ⊢
  generalize h.toUInt32 &&& 0x3FF = mant at hm ⊢
  by_cases h0 : exp = 0
  · subst h0
    by_cases hm0 : mant = 0
    · subst hm0
      have hzero : Widened 0 0 0 := ⟨by decide,
        fun _ => single.mag_zero.trans half.mag_zero.symm, by decide⟩
      exact ⟨0, hzero, by rw [if_pos rfl, if_pos rfl, hsign, Nat.add_zero]⟩
    · have h0 : mant.toNat ≠ 0 := fun h => hm0 (UInt32.toNat_inj.mp h)
      obtain ⟨c, hc, hbits⟩ := toNat_widen_subnormal hsign hm h0
      exact ⟨c, hc, by rw [if_pos rfl, if_neg hm0]; exact hbits⟩
  have h0' : exp.toNat ≠ 0 := fun h => h0 (UInt32.toNat_inj.mp h)
  by_cases h31 : exp = 31
  · subst h31
    have hmant13 : (mant <<< (13 : UInt32)).toNat = mant.toNat * 2 ^ 13 :=
      toNat_shiftLeft_ofNat mant (k := 13) (by decide) (by omega)
    refine ⟨255 * 2 ^ 23 + mant.toNat * 2 ^ 13, ⟨by omega, fun h => absurd h (by decide),
      fun _ => rfl⟩, ?_⟩
    rw [if_neg h0, if_pos rfl, toNat_fields (e := 255) hsign rfl (by decide) (by omega), hmant13]
  · have h31' : exp.toNat ≠ 31 := fun h => h31 (UInt32.toNat_inj.mp h)
    obtain ⟨c, hc, hbits⟩ := toNat_widen_normal hsign (Nat.pos_of_ne_zero h0') (by omega) hm
    exact ⟨c, hc, by rw [if_neg h0, if_neg h31]; exact hbits⟩

theorem half_code_fields (h : UInt16) :
    half.code h.toNat = h.toNat / 2 ^ 10 % 2 ^ 5 * 2 ^ 10 + h.toNat % 2 ^ 10 := by
  have hc : half.code h.toNat = h.toNat % 2 ^ 15 := rfl
  rw [hc]
  omega

/-- Reading a half as a float keeps the sign, the finite magnitudes and the
infinities. -/
theorem widen_half {h : UInt16} (hn : ¬ half.IsNan h.toNat) :
    (single.Negative (halfToFloatBits h).toNat ↔ half.Negative h.toNat) ∧
      ((half.IsFinite h.toNat ∧ single.mag (single.code (halfToFloatBits h).toNat) =
      half.mag (half.code h.toNat)) ∨
        (half.IsInf h.toNat ∧ single.IsInf (halfToFloatBits h).toNat)) := by
  obtain ⟨c, hc, hbits⟩ := halfToFloatBits_toNat h
  have hh := h.toNat_lt
  have hlt := hc.code_lt
  have hcode : single.code (halfToFloatBits h).toNat = c := by
    have hc' : single.code (halfToFloatBits h).toNat = (halfToFloatBits h).toNat % 2 ^ 31 := rfl
    rw [hc', hbits]
    omega
  constructor
  · have h₁ : single.Negative (halfToFloatBits h).toNat ↔
        (halfToFloatBits h).toNat / 2 ^ 31 % 2 = 1 := Iff.rfl
    have h₂ : half.Negative h.toNat ↔ h.toNat / 2 ^ 15 % 2 = 1 := Iff.rfl
    rw [h₁, h₂, hbits]
    omega
  · have hle : half.code h.toNat ≤ 31 * 2 ^ 10 := not_lt.mp hn
    rw [hcode]
    rcases hle.lt_or_eq with hfin | hinf
    · refine .inl ⟨hfin, ?_⟩
      rw [half_code_fields] at hfin ⊢
      exact hc.finite (by omega)
    · refine .inr ⟨hinf, ?_⟩
      rw [half_code_fields] at hinf
      have hm : h.toNat % 2 ^ 10 = 0 := by omega
      have hinf' := hc.inf (by omega)
      rw [hm, Nat.zero_mul, Nat.add_zero] at hinf'
      exact hcode.trans hinf'

/-- A finite half is the same rational as a float. -/
theorem value_halfToFloatBits {h : UInt16} (hf : half.IsFinite h.toNat) :
    single.value (halfToFloatBits h).toNat = half.value h.toNat := by
  obtain ⟨hneg, ⟨_, hmag⟩ | ⟨hinf, _⟩⟩ := widen_half (not_lt.mpr (le_of_lt hf))
  · rw [Format.value, Format.value, hmag]
    exact if_congr hneg rfl rfl
  · exact absurd hinf (ne_of_lt hf)

/-- **Every half but a NaN comes back.** -/
theorem floatBitsToHalf_halfToFloatBits {h : UInt16} (hn : ¬ half.IsNan h.toNat) :
    floatBitsToHalf (halfToFloatBits h) = h := by
  obtain ⟨hneg, hval⟩ := widen_half hn
  have hle : half.code h.toNat ≤ half.inf := not_lt.mp hn
  have hround : Rounded half.mag half.inf |single.value (halfToFloatBits h).toNat|
      (half.code h.toNat) := by
    rw [Format.abs_value]
    rcases hval with ⟨_, hmag⟩ | ⟨hinf, hinf'⟩
    · rw [hmag]
      exact Rounded.self half.mag_strictMono hle
    · rw [show single.code (halfToFloatBits h).toNat = single.inf from hinf',
        show half.code h.toNat = half.inf from hinf]
      exact Rounded.of_top_le half.mag_strictMono half_inf_le
  have hnan : ¬ single.IsNan (halfToFloatBits h).toNat := by
    refine not_lt.mpr (single.mag_strictMono.le_iff_le.mp ?_)
    rcases hval with ⟨_, hmag⟩ | ⟨_, hinf'⟩
    · rw [hmag]
      exact (half.mag_strictMono.monotone hle).trans half_inf_le
    · rw [show single.code (halfToFloatBits h).toNat = single.inf from hinf']
  have hcode := (half_rounded hnan).unique half.mag_strictMono hround
  have hsign := (half_negative_iff (halfToFloatBits h)).trans hneg
  change (floatBitsToHalf (halfToFloatBits h)).toNat % 2 ^ 15 = h.toNat % 2 ^ 15 at hcode
  change (floatBitsToHalf (halfToFloatBits h)).toNat / 2 ^ 15 % 2 = 1 ↔
    h.toNat / 2 ^ 15 % 2 = 1 at hsign
  have h₁ := (floatBitsToHalf (halfToFloatBits h)).toNat_lt
  have h₂ := h.toNat_lt
  rw [← UInt16.toNat_inj]
  omega

/-- **Half precision is correctly rounded.**  A finite float goes to the
nearest half, ties to the even significand and infinity from 65520 on, with
its sign; infinities and NaNs stay what they are; the order of what the
patterns stand for is kept; and a half read as a float comes back. -/
theorem floatBitsToHalf_correct :
    (∀ f : UInt32, single.IsFinite f.toNat →
      half.RoundsTo (single.value f.toNat) (floatBitsToHalf f).toNat) ∧
    half.overflow = 65520 ∧
    (∀ f : UInt32, half.Negative (floatBitsToHalf f).toNat ↔ single.Negative f.toNat) ∧
    (∀ f : UInt32, single.IsInf f.toNat → half.IsInf (floatBitsToHalf f).toNat) ∧
    (∀ f : UInt32, single.IsNan f.toNat → half.IsNan (floatBitsToHalf f).toNat) ∧
    (∀ f g : UInt32, ¬ single.IsNan f.toNat → ¬ single.IsNan g.toNat →
      single.extended f.toNat ≤ single.extended g.toNat →
      half.extended (floatBitsToHalf f).toNat ≤ half.extended (floatBitsToHalf g).toNat) ∧
    (∀ h : UInt16, ¬ half.IsNan h.toNat → floatBitsToHalf (halfToFloatBits h) = h) := by
  refine ⟨fun f hf => ?_, ?_, half_negative_iff, fun f => half_isInf, fun f => half_isNan,
    fun f g hf hg hfg => ?_,
    fun h => floatBitsToHalf_halfToFloatBits⟩
  · exact .of_rounded (by decide) (by decide) (half_rounded (not_lt.mpr (le_of_lt hf)))
      (half_signed f)
  · exact half_overflow
  · rw [Format.extended_le_iff (by decide) (half_not_isNan hf) (half_not_isNan hg)]
    rw [Format.extended_le_iff (by decide) hf hg] at hfg
    exact Format.value_le_value (half_rounded hf) (half_rounded hg) (half_signed f)
      (half_signed g) hfg

end TinyLlm
