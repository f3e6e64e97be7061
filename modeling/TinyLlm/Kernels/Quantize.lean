/-
# `TinyLlm.Kernels.Quantize` — what quantizing a block loses

`tq_quantize_q8` in exact arithmetic, the scale rounded to a half.  The scale
is rounded before the values are divided by it, so the extreme value can land
past the last code: the stored scale is within one part in 2048 of the true
one (`halfOf_error`), which leaves every quotient below 127.5 and the clamp
idle.
-/
import Mathlib.Data.Rat.Floor
import TinyLlm.Ac.Delta
import TinyLlm.Kernels.Block
import TinyLlm.Kernels.Half

namespace TinyLlm

open Loop Ieee

/-! ## Exact arithmetic with half-precision scales -/

/-- A rational rounded to a half. -/
def halfOf (v : ℚ) : UInt16 := UInt16.ofNat (half.pattern v)

/-- Exact arithmetic.  The bits of a rational, which only `tq_float_to_half`
reads here, are those of the half it rounds to. -/
def halfOps : FloatOps ℚ :=
  { ratOps with
    ofBits := fun b => single.value b.toNat
    toBits := fun v => halfToFloatBits (halfOf v) }

theorem toNat_halfOf (v : ℚ) : (halfOf v).toNat = half.pattern v := by
  have hlt : half.pattern v < 2 ^ 16 := by
    have h := half.round_lt |v|
    change half.round |v| < 2 ^ 15 at h
    unfold Format.pattern
    split
    · change 2 ^ 15 + _ < _
      omega
    · omega
  rw [halfOf, UInt16.toNat_ofNat', Nat.mod_eq_of_lt hlt]

theorem halfOf_rounded (v : ℚ) : Rounded half.mag half.inf |v| (half.code (halfOf v).toNat) := by
  rw [toNat_halfOf]
  exact half.pattern_rounded v

theorem tqFloatToHalf_halfOps (v : ℚ) : tqFloatToHalf halfOps v = halfOf v :=
  floatBitsToHalf_halfToFloatBits (not_lt.mpr (halfOf_rounded v).le_top)

theorem tqHalfToFloat_halfOps {h : UInt16} (hf : half.IsFinite h.toNat) :
    tqHalfToFloat halfOps h = half.value h.toNat :=
  value_halfToFloatBits hf

/-- A scale in the normal range of a half. -/
def NormalScale (s : ℚ) : Prop := 2 ^ (-14 : ℤ) ≤ s ∧ s ≤ 65504

theorem half_mag_normal : half.mag (2 ^ half.frac) = 2 ^ (-14 : ℤ) := by
  rw [show 2 ^ half.frac = 1 * 2 ^ 10 + 0 from rfl, half_mag (by decide) (by decide)]
  norm_num

theorem half_mag_last : half.mag (half.inf - 1) = 65504 := by
  rw [show half.inf - 1 = 30 * 2 ^ 10 + 1023 from rfl, half_mag (by decide) (by decide)]
  norm_num

/-- **The stored scale** is finite, not zero, and within one part in 2048. -/
theorem halfOf_error {s : ℚ} (hs : NormalScale |s|) :
    half.IsFinite (halfOf s).toNat ∧ 0 < |half.value (halfOf s).toNat| ∧
      2048 * |s - half.value (halfOf s).toNat| ≤ |half.value (halfOf s).toNat| := by
  have hround := halfOf_rounded s
  obtain ⟨hlo, hfin, herr⟩ := Format.abs_sub_mag_le hround (by rw [half_mag_normal]; exact hs.1)
    (by rw [half_mag_last]; exact hs.2) (by decide)
  have hsigned : half.Signed s (halfOf s).toNat := by
    rw [toNat_halfOf]
    exact half.pattern_signed s
  refine ⟨hfin, ?_, ?_⟩
  · rw [Format.abs_value]
    calc (0 : ℚ) = half.mag 0 := half.mag_zero.symm
      _ < half.mag (half.code (halfOf s).toNat) :=
        half.mag_strictMono (lt_of_lt_of_le (by decide) hlo)
  · rw [Format.abs_sub_value hsigned, Format.abs_value]
    exact herr

/-! ## Rounding to a code -/

/-- To the nearest integer, halves away from zero. -/
def roundAway (v : ℚ) : Int := if v < 0 then -⌊1 / 2 - v⌋ else ⌊v + 1 / 2⌋

theorem roundAway_error (v : ℚ) : |v - roundAway v| ≤ 1 / 2 := by
  unfold roundAway
  rw [abs_le]
  split
  · have h₁ := Int.floor_le (1 / 2 - v)
    have h₂ := Int.lt_floor_add_one (1 / 2 - v)
    push_cast
    constructor <;> linarith
  · have h₁ := Int.floor_le (v + 1 / 2)
    have h₂ := Int.lt_floor_add_one (v + 1 / 2)
    constructor <;> linarith

/-- A quotient within `k` by less than a half rounds to within `k`. -/
theorem abs_roundAway_le {v : ℚ} {k : Nat} (h : |v| < k + 1 / 2) : |roundAway v| ≤ k := by
  have herr := abs_le.mp (roundAway_error v)
  have hv := abs_lt.mp h
  rw [abs_le]
  constructor
  · have : (-(k : ℤ) - 1 : ℚ) < roundAway v := by push_cast; linarith
    have : -(k : ℤ) - 1 < roundAway v := by exact_mod_cast this
    omega
  · have : (roundAway v : ℚ) < (k : ℤ) + 1 := by push_cast; linarith
    have : roundAway v < (k : ℤ) + 1 := by exact_mod_cast this
    omega

/-- `(int)(v < 0 ? v - 0.5f : v + 0.5f)`. -/
theorem toInt_halfOps (v : ℚ) :
    halfOps.toInt
      (if halfOps.lt v (halfOps.ofInt 0) then halfOps.sub v halfOps.half
        else halfOps.add v halfOps.half) =
      roundAway v := by
  have hlt : halfOps.lt v (halfOps.ofInt 0) = decide (v < 0) := by
    show decide (v < ((0 : Int) : ℚ)) = _
    rw [Int.cast_zero]
  rw [hlt]
  unfold roundAway
  by_cases h : v < 0
  · rw [if_pos (decide_eq_true h), if_pos h]
    show (if v - 1 / 2 < 0 then -⌊-(v - 1 / 2)⌋ else ⌊v - 1 / 2⌋) = _
    rw [if_pos (by linarith), neg_sub]
  · rw [if_neg (by simpa using h), if_neg h]
    show (if v + 1 / 2 < 0 then -⌊-(v + 1 / 2)⌋ else ⌊v + 1 / 2⌋) = _
    rw [if_neg (by linarith)]

theorem roundClamp_halfOps {v : ℚ} (h : |roundAway v| ≤ 127) :
    roundClamp halfOps v = roundAway v := by
  have hle := abs_le.mp h
  rw [roundClamp, toInt_halfOps]
  rw [if_neg (by omega), if_neg (by omega)]

/-- The quotient by the stored scale of a value that has the extent of `k`
true scales. -/
theorem abs_div_scale_le {s x : ℚ} {k : Nat} (hs : NormalScale |s|) (hx : |x| ≤ k * |s|) :
    |x / half.value (halfOf s).toNat| ≤ k * (2049 / 2048) := by
  obtain ⟨_, hpos, herr⟩ := halfOf_error hs
  have htri : |s| ≤ |s - half.value (halfOf s).toNat| + |half.value (halfOf s).toNat| := by
    have := abs_add_le (s - half.value (halfOf s).toNat) (half.value (halfOf s).toNat)
    rwa [sub_add_cancel] at this
  have hle : |s| ≤ 2049 / 2048 * |half.value (halfOf s).toNat| := by linarith
  rw [abs_div, div_le_iff₀ hpos]
  calc |x| ≤ k * |s| := hx
    _ ≤ k * (2049 / 2048 * |half.value (halfOf s).toNat|) :=
      mul_le_mul_of_nonneg_left hle (Nat.cast_nonneg k)
    _ = k * (2049 / 2048) * |half.value (halfOf s).toNat| := by ring

/-- The error of a value from that of its quotient. -/
theorem abs_sub_mul {x d : ℚ} (hd : 0 < |d|) (q : ℚ) : |x - q * d| = |x / d - q| * |d| := by
  rw [← abs_mul, sub_mul, div_mul_cancel₀ x (abs_pos.mp hd)]

/-! ## Blocks -/

/-- `a` is the largest magnitude of a block. -/
def IsAmax (b : Nat → ℚ) (a : ℚ) : Prop := (∀ j < 32, |b j| ≤ a) ∧ ∃ j < 32, |b j| = a

theorem IsAmax.unique {b : Nat → ℚ} {a c : ℚ} (ha : IsAmax b a) (hc : IsAmax b c) : a = c := by
  obtain ⟨i, hi, rfl⟩ := ha.2
  obtain ⟨j, hj, rfl⟩ := hc.2
  exact le_antisymm (hc.1 i hi) (ha.1 j hj)

/-- The magnitude that the loop takes. -/
theorem abs_halfOps (v : ℚ) :
    (if halfOps.lt v (halfOps.ofInt 0) then halfOps.neg v else v) = |v| := by
  have hlt : halfOps.lt v (halfOps.ofInt 0) = decide (v < 0) := by
    show decide (v < ((0 : Int) : ℚ)) = _
    rw [Int.cast_zero]
  rw [hlt]
  by_cases h : v < 0
  · rw [if_pos (decide_eq_true h), abs_of_neg h]
    rfl
  · rw [if_neg (by simpa using h), abs_of_nonneg (not_lt.mp h)]

/-- A maximum kept from zero upward, over the entries so far. -/
def AmaxOf (b : Nat → ℚ) (k : Nat) (a : ℚ) : Prop :=
  0 ≤ a ∧ (∀ j < k, |b j| ≤ a) ∧ (a = 0 ∨ ∃ j < k, |b j| = a)

theorem AmaxOf.zero (b : Nat → ℚ) : AmaxOf b 0 0 := ⟨le_rfl, nofun, .inl rfl⟩

theorem AmaxOf.step {b : Nat → ℚ} {k : Nat} {a : ℚ} (h : AmaxOf b k a) :
    AmaxOf b (k + 1) (if a < |b k| then |b k| else a) := by
  obtain ⟨h0, hle, hmem⟩ := h
  split
  case isTrue hlt =>
    refine ⟨abs_nonneg _, fun j hj => ?_, .inr ⟨k, Nat.lt_succ_self k, rfl⟩⟩
    rcases Nat.lt_succ_iff_lt_or_eq.mp hj with hj | rfl
    · exact (hle j hj).trans hlt.le
    · exact le_rfl
  case isFalse hge =>
    refine ⟨h0, fun j hj => ?_, hmem.imp_right fun ⟨j, hj, heq⟩ => ⟨j, Nat.lt_succ_of_lt hj, heq⟩⟩
    rcases Nat.lt_succ_iff_lt_or_eq.mp hj with hj | rfl
    · exact hle j hj
    · exact not_lt.mp hge

theorem AmaxOf.isAmax {b : Nat → ℚ} {a : ℚ} (h : AmaxOf b 32 a) : IsAmax b a := by
  obtain ⟨_, hle, h0 | hmem⟩ := h
  · refine ⟨hle, 0, by decide, ?_⟩
    have hb := hle 0 (by decide)
    rw [h0] at hb ⊢
    exact le_antisymm hb (abs_nonneg _)
  · exact ⟨hle, hmem⟩

theorem blockAmax_isAmax (b : Nat → ℚ) : IsAmax b (blockAmax halfOps b) := by
  refine AmaxOf.isAmax (forUp_inv (n := 32) (I := AmaxOf b) ?_ fun k _ a ha => ?_)
  · have h : halfOps.ofInt 0 = 0 := Int.cast_zero
    rw [h]
    exact AmaxOf.zero b
  · have hlt : ∀ u v, halfOps.lt u v = decide (u < v) := fun _ _ => rfl
    dsimp only
    rw [abs_halfOps, hlt]
    simp only [decide_eq_true_eq]
    exact ha.step

/-- What is promised of a Q8_0 block: a finite scale, codes that leave out
-128, and half a scale's error for every element. -/
structure Q80Bound (b : Nat → ℚ) (w : TqBlockQ80) : Prop where
  finite : half.IsFinite w.d.toNat
  codes : ∀ j < 32, -127 ≤ (w.q j).toInt ∧ (w.q j).toInt ≤ 127
  error : ∀ j < 32, |b j - (w.q j).toInt * half.value w.d.toNat| ≤ |half.value w.d.toNat| / 2

/-- Codes that round the quotients by the stored scale keep the promise. -/
theorem Q80Bound.of_rounded {b : Nat → ℚ} {a : ℚ} {w : TqBlockQ80} (ha : IsAmax b a)
    (hs : NormalScale (a / 127)) (hd : w.d = halfOf (a / 127))
    (hq : ∀ j < 32, |roundAway (b j / half.value w.d.toNat)| ≤ 127 →
      (w.q j).toInt = roundAway (b j / half.value w.d.toNat)) : Q80Bound b w := by
  have hpos : 0 < a / 127 := lt_of_lt_of_le (by positivity) hs.1
  have habs : NormalScale |a / 127| := by rwa [abs_of_pos hpos]
  obtain ⟨hfin, hd0, _⟩ := halfOf_error habs
  rw [← hd] at hfin hd0
  have hround : ∀ j < 32, |roundAway (b j / half.value w.d.toNat)| ≤ 127 := by
    intro j hj
    have hx : |b j| ≤ (127 : ℕ) * |a / 127| := by
      rw [abs_of_pos hpos]
      refine (ha.1 j hj).trans_eq ?_
      push_cast
      ring
    have hquot := abs_div_scale_le habs hx
    rw [← hd] at hquot
    refine abs_roundAway_le (k := 127) (hquot.trans_lt ?_)
    norm_num
  refine ⟨hfin, fun j hj => ?_, fun j hj => ?_⟩
  · rw [hq j hj (hround j hj)]
    exact abs_le.mp (hround j hj)
  · rw [hq j hj (hround j hj), abs_sub_mul hd0]
    have herr := roundAway_error (b j / half.value w.d.toNat)
    calc _ ≤ 1 / 2 * |half.value w.d.toNat| := mul_le_mul_of_nonneg_right herr hd0.le
      _ = |half.value w.d.toNat| / 2 := by ring

/-- `d != 0.0f ? 1.0f / d : 0.0f`, times a value. -/
theorem mul_inverse_halfOps {d : ℚ} (hd : d ≠ 0) (x : ℚ) :
    halfOps.mul x
      (if halfOps.beq d (halfOps.ofInt 0) then halfOps.ofInt 0 else halfOps.div
      (halfOps.ofInt 1) d) =
      x / d := by
  have hbeq : halfOps.beq d (halfOps.ofInt 0) = decide (d = 0) := by
    show decide (d = ((0 : Int) : ℚ)) = _
    rw [Int.cast_zero]
  rw [hbeq, if_neg (by simpa using hd)]
  show x * (((1 : Int) : ℚ) / d) = x / d
  rw [Int.cast_one, mul_one_div]

/-- **One block** of `tq_quantize_q8`. -/
theorem quantizeBlock_bound {b : Nat → ℚ} {a : ℚ} (ha : IsAmax b a) (hs : NormalScale (a / 127)) :
    Q80Bound b (quantizeBlock halfOps b) := by
  have hamax : blockAmax halfOps b = a := (blockAmax_isAmax b).unique ha
  have hpos : 0 < a / 127 := lt_of_lt_of_le (by positivity) hs.1
  obtain ⟨hfin, hd0, _⟩ := halfOf_error (by rwa [abs_of_pos hpos] : NormalScale |a / 127|)
  have hdh : tqFloatToHalf halfOps (halfOps.div (blockAmax halfOps b) (halfOps.ofInt 127)) =
      halfOf (a / 127) := by
    show tqFloatToHalf halfOps (blockAmax halfOps b / ((127 : Int) : ℚ)) = _
    rw [tqFloatToHalf_halfOps, hamax, Int.cast_ofNat]
  refine Q80Bound.of_rounded ha hs hdh fun j hj hle => ?_
  have hd : (quantizeBlock halfOps b).d = halfOf (a / 127) := hdh
  rw [hd] at hle ⊢
  have hq : (quantizeBlock halfOps b).q j =
      Int8.ofInt (roundAway (b j / half.value (halfOf (a / 127)).toNat)) := by
    have hj' : ((Fin.ofNat 32 j : Fin 32) : Nat) = j := Nat.mod_eq_of_lt hj
    unfold TqBlockQ80.q quantizeBlock
    dsimp only
    rw [hdh, tqHalfToFloat_halfOps hfin, hj', mul_inverse_halfOps (abs_pos.mp hd0),
      roundClamp_halfOps hle]
  have hle' := abs_le.mp hle
  rw [hq, Int8.toInt_ofInt_of_le (by omega) (by omega)]

theorem tqQuantizeQ8_apply {F : Type} (O : FloatOps F) (x : Nat → F)
    (out : Nat → TqBlockQ80) (n b : Nat) :
    tqQuantizeQ8 O x out n b =
      if b < n / tqGroupSize then quantizeBlock O (fun j => x (b * tqGroupSize + j))
      else out b := by
  refine forUp_inv (I := fun k (o : Nat → TqBlockQ80) => ∀ b, o b =
    if b < k then quantizeBlock O (fun j => x (b * tqGroupSize + j)) else out b) (fun b => ?_)
      (fun k _ o ho b => ?_) b
  · rw [if_neg (Nat.not_lt_zero b)]
  · rw [Function.update_apply]
    by_cases hb : b = k
    · rw [if_pos hb, if_pos (by omega), hb]
    · rw [if_neg hb, ho b]
      exact if_congr (by omega) rfl rfl

end TinyLlm
