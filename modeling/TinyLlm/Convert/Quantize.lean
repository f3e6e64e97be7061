/-
# `TinyLlm.Convert.Quantize` — what the exporter's quantizers lose

`quantize_q8_0` and `quantize_q4_0` in exact arithmetic with half-precision
scales, read back by the kernels.  For Q8_0 the bound is that of
`TinyLlm.Kernels.Quantize`.  The Q4_0 codebook is one-sided: the scale comes
from the signed extreme, which gets the code -8, and an element near the other
extreme rounds to 8, which the clamp takes to 7.  What it loses there is one
scale and eight parts in 2048, the 257/256 of the bound.
-/
import TinyLlm.Convert.Total
import TinyLlm.Kernels.Dequant
import TinyLlm.Kernels.Quantize

namespace TinyLlm.Etq

open Loop Bytes Ieee

/-! ## numpy on rationals -/

/-- `np.trunc`. -/
def npTrunc (q : ℚ) : Int := if q < 0 then ⌈q⌉ else ⌊q⌋

/-- `_round_half_away`: `np.trunc(v + np.copysign(0.5, v))`. -/
def roundHalfAway (v : ℚ) : Int := npTrunc (v + if v < 0 then -(1 / 2) else 1 / 2)

/-- `np.clip`. -/
def npClip (q lo hi : Int) : Int := min (max q lo) hi

/-- `np.where(d != 0.0, 1.0 / d, 0.0)`. -/
def npInverse (d : UInt16) : ℚ := if half.value d.toNat ≠ 0 then 1 / half.value d.toNat else 0

/-- `np.abs(b).max()` of a row. -/
def npAmax (b : Nat → ℚ) : ℚ := forUp tqGroupSize (fun j m => if m < |b j| then |b j| else m) |b 0|

/-- `np.abs(b).argmax()` of a row: the first largest. -/
def npAbsArgmax (b : Nat → ℚ) : Nat :=
  forUp tqGroupSize (fun j i => if |b i| < |b j| then j else i) 0

/-- numpy without rounding, the scales apart. -/
def exactNumpy (bits : ℚ → UInt32) : Numpy ℚ where
  bits := bits
  scaleQ80 b := halfOf (npAmax b / 127)
  valueQ80 d v := (Int8.ofInt (npClip (roundHalfAway (v * npInverse d)) (-127) 127)).toUInt8
  scaleQ40 b := halfOf (b (npAbsArgmax b) / -8)
  valueQ40 d v := UInt8.ofNat (npClip (roundHalfAway (v * npInverse d) + 8) 0 15).toNat

theorem roundHalfAway_eq (v : ℚ) : roundHalfAway v = roundAway v := by
  unfold roundHalfAway npTrunc roundAway
  by_cases h : v < 0
  · rw [if_pos h, if_pos h, if_pos (by linarith), ← neg_neg ⌈_⌉, ← Int.floor_neg]
    congr 2
    ring
  · rw [if_neg h, if_neg h, if_neg (by linarith)]

theorem mul_npInverse {d : UInt16} (hd : half.value d.toNat ≠ 0) (v : ℚ) :
    v * npInverse d = v / half.value d.toNat := by
  rw [npInverse, if_pos hd, mul_one_div]

theorem npAmax_isAmax (b : Nat → ℚ) : IsAmax b (npAmax b) := by
  have hinv := forUp_inv (n := 32) (s := |b 0|) (f := fun j m => if m < |b j| then |b j| else m)
    (I := fun k m => (∀ j < k, |b j| ≤ m) ∧ ∃ j < 32, |b j| = m) ⟨nofun, 0, by decide, rfl⟩ ?_
  · exact hinv
  · rintro k hk m ⟨hle, hmem⟩
    split
    case isTrue hlt =>
      refine ⟨fun j hj => ?_, k, hk, rfl⟩
      rcases Nat.lt_succ_iff_lt_or_eq.mp hj with hj | rfl
      · exact (hle j hj).trans hlt.le
      · exact le_rfl
    case isFalse hge =>
      refine ⟨fun j hj => ?_, hmem⟩
      rcases Nat.lt_succ_iff_lt_or_eq.mp hj with hj | rfl
      · exact hle j hj
      · exact not_lt.mp hge

theorem npAbsArgmax_isAmax (b : Nat → ℚ) : IsAmax b |b (npAbsArgmax b)| := by
  have hinv := forUp_inv (n := 32) (s := 0) (f := fun j i => if |b i| < |b j| then j else i)
    (I := fun k i => (∀ j < k, |b j| ≤ |b i|) ∧ i < 32) ⟨nofun, by decide⟩ ?_
  · exact ⟨hinv.1, _, hinv.2, rfl⟩
  · rintro k hk i ⟨hle, hi⟩
    split
    case isTrue hlt =>
      refine ⟨fun j hj => ?_, hk⟩
      rcases Nat.lt_succ_iff_lt_or_eq.mp hj with hj | rfl
      · exact (hle j hj).trans hlt.le
      · exact le_rfl
    case isFalse hge =>
      refine ⟨fun j hj => ?_, hi⟩
      rcases Nat.lt_succ_iff_lt_or_eq.mp hj with hj | rfl
      · exact hle j hj
      · exact not_lt.mp hge

/-! ## Reading a row back -/

/-- Rows of one length lie at its multiples. -/
theorem slice_flatMap {row : Nat → List UInt8} {n m k : Nat} (hrow : ∀ i, (row i).length = n)
    (hk : k < m) :
    slice ((List.range m).flatMap row) (k * n) n = row k := by
  induction m with
  | zero => exact absurd hk (Nat.not_lt_zero k)
  | succ m ih =>
    have hlen : ((List.range m).flatMap row).length = m * n := by
      rw [length_flatMap_const hrow, List.length_range]
    rw [List.range_succ, List.flatMap_append, List.flatMap_singleton]
    rcases Nat.lt_succ_iff_lt_or_eq.mp hk with hlt | rfl
    · have hle : k * n + n ≤ m * n := by
        rw [← Nat.succ_mul]
        exact Nat.mul_le_mul_right n hlt
      rw [slice_append_left (by rw [hlen]; exact hle), ih hlt]
    · rw [slice_append_right hlen.le, hlen, Nat.sub_self, slice_zero (hrow k)]

theorem ofBytes_slice_q80 (bs : List UInt8) (off : Nat) :
    TqBlockQ80.ofBytes bs off = TqBlockQ80.ofBytes (slice bs off 34) 0 := by
  unfold TqBlockQ80.ofBytes
  congr 1
  · rw [leAt_slice (by omega), Nat.add_zero]
  · funext j
    rw [getD_slice (by omega)]
    congr 2
    omega

theorem ofBytes_slice_q40 (bs : List UInt8) (off : Nat) :
    TqBlockQ40.ofBytes bs off = TqBlockQ40.ofBytes (slice bs off 18) 0 := by
  unfold TqBlockQ40.ofBytes
  congr 1
  · rw [leAt_slice (by omega), Nat.add_zero]
  · funext j
    rw [getD_slice (by omega)]
    congr 1
    omega

section Rows
variable {F : Type} (np : Numpy F)

theorem blocks_ok {w : NdArray F} {row : (Nat → F) → List UInt8} {bs : List UInt8}
    (h : blocks w row = .ok bs) :
    bs = (List.range (w.shape.prod / tqGroupSize)).flatMap fun k => row
      fun i => w.data (k * tqGroupSize + i) := by
  unfold blocks at h
  split at h
  · exact absurd h (by simp)
  · exact (Except.ok.inj h).symm

theorem scale_read (d : UInt16) (rest : List UInt8) :
    UInt16.ofNat (leAt (toLE 2 d.toNat ++ rest) 0 2) = d := by
  rw [leAt_toLE d.toNat_lt, UInt16.ofNat_toNat]

theorem value_read {n : Nat} (d : UInt16) (g : Nat → UInt8) {j : Nat} (hj : j < n) :
    (toLE 2 d.toNat ++ (List.range n).map g).getD (2 + j) 0 = g j := by
  rw [List.getD_append_right _ _ _ _ (by rw [length_toLE]; omega), length_toLE,
    Nat.add_sub_cancel_left, List.getD_eq_getElem _ _ (by rwa [List.length_map, List.length_range]),
    List.getElem_map, List.getElem_range]

/-- A row of `quantize_q8_0` as the kernels read it. -/
theorem ofBytes_blockQ80 (b : Nat → F) : TqBlockQ80.ofBytes (blockQ80 np b) 0 =
    ⟨np.scaleQ80 b, fun j => (np.valueQ80 (np.scaleQ80 b) (b j)).toInt8⟩ := by
  unfold TqBlockQ80.ofBytes blockQ80
  congr 1
  · exact scale_read _ _
  · funext j
    rw [Nat.zero_add, value_read _ _ j.isLt]

/-- A row of `quantize_q4_0` as the kernels read it. -/
theorem ofBytes_blockQ40 (b : Nat → F) : TqBlockQ40.ofBytes (blockQ40 np b) 0 =
    ⟨np.scaleQ40 b,
      fun j => np.valueQ40 (np.scaleQ40 b) (b j) |||
      (np.valueQ40 (np.scaleQ40 b) (b (j + 16))) <<< 4⟩ := by
  unfold TqBlockQ40.ofBytes blockQ40
  congr 1
  · exact scale_read _ _
  · funext j
    rw [Nat.zero_add, value_read _ _ j.isLt]

/-- Block `k` of a quantized array. -/
theorem quantize_q80_read {w : NdArray F} {bs : List UInt8}
    (h : quantize np w tqDtQ80 = .ok bs) {k : Nat} (hk : k < w.shape.prod / tqGroupSize) :
    TqBlockQ80.ofBytes bs (k * 34) =
      TqBlockQ80.ofBytes (blockQ80 np fun i => w.data (k * tqGroupSize + i)) 0 := by
  have h' : blocks w (blockQ80 np) = .ok bs := h
  rw [ofBytes_slice_q80, blocks_ok h', slice_flatMap (fun _ => length_blockQ80 np _) hk]

theorem quantize_q40_read {w : NdArray F} {bs : List UInt8}
    (h : quantize np w tqDtQ40 = .ok bs) {k : Nat} (hk : k < w.shape.prod / tqGroupSize) :
    TqBlockQ40.ofBytes bs (k * 18) =
      TqBlockQ40.ofBytes (blockQ40 np fun i => w.data (k * tqGroupSize + i)) 0 := by
  have h' : blocks w (blockQ40 np) = .ok bs := h
  rw [ofBytes_slice_q40, blocks_ok h', slice_flatMap (fun _ => length_blockQ40 np _) hk]

end Rows

/-! ## The split nibbles -/

theorem toNat_nibbles {p q : UInt8} (hp : p.toNat < 16) (hq : q.toNat < 16) :
    (p ||| q <<< 4).toNat = q.toNat * 16 + p.toNat := by
  have hshift : (q <<< 4).toNat = 2 ^ 4 * q.toNat := by
    rw [UInt8.toNat_shiftLeft, Nat.shiftLeft_eq, Nat.mul_comm,
      show (4 : UInt8).toNat % 8 = 4 from rfl]
    exact Nat.mod_eq_of_lt (by omega)
  rw [UInt8.toNat_or, hshift, Nat.or_comm, ← Nat.two_pow_add_eq_or_of_lt hp]
  omega

theorem loNibble_nibbles {p q : UInt8} (hp : p.toNat < 16) (hq : q.toNat < 16) :
    loNibble (p ||| q <<< 4) = p.toNat - 8 := by
  unfold loNibble
  rw [UInt8.toNat_and, show (0x0F : UInt8).toNat = 2 ^ 4 - 1 from rfl,
    Nat.and_two_pow_sub_one_eq_mod, toNat_nibbles hp hq]
  omega

theorem hiNibble_nibbles {p q : UInt8} (hp : p.toNat < 16) (hq : q.toNat < 16) :
    hiNibble (p ||| q <<< 4) = q.toNat - 8 := by
  unfold hiNibble
  rw [UInt8.toNat_shiftRight, show (4 : UInt8).toNat % 8 = 4 from rfl, Nat.shiftRight_eq_div_pow,
    toNat_nibbles hp hq]
  omega

/-- **The order of the elements**: what the split nibbles hold of element `j`
is what the dequantizer takes for it. -/
theorem dequantQ40_split {F : Type} (O : FloatOps F) (d : UInt16) {value : Nat → UInt8}
    (hv : ∀ j < 32, (value j).toNat < 16) {j : Nat} (hj : j < 32) :
    dequantQ40 O ⟨d, fun i => value i ||| value (i + 16) <<< 4⟩ j =
      O.mul (O.ofInt ((value j).toNat - 8)) (tqHalfToFloat O d) := by
  unfold dequantQ40 TqBlockQ40.q
  dsimp only
  by_cases h16 : j < 16
  · have hj' : ((Fin.ofNat 16 j : Fin 16) : Nat) = j := Nat.mod_eq_of_lt h16
    rw [if_pos h16, hj', loNibble_nibbles (hv j hj) (hv (j + 16) (by omega))]
  · have hj' : ((Fin.ofNat 16 (j - 16) : Fin 16) : Nat) = j - 16 := Nat.mod_eq_of_lt (by omega)
    have hback : j - 16 + 16 = j := by omega
    rw [if_neg h16, hj', hback, hiNibble_nibbles (hv (j - 16) (by omega)) (hv j hj)]

/-! ## The bounds -/

section Bounds
variable (bits : ℚ → UInt32)

/-- A row of `quantize_q8_0`. -/
theorem blockQ80_bound {b : Nat → ℚ} {a : ℚ} (ha : IsAmax b a) (hs : NormalScale (a / 127)) :
    Q80Bound b (TqBlockQ80.ofBytes (blockQ80 (exactNumpy bits) b) 0) := by
  have hamax : npAmax b = a := (npAmax_isAmax b).unique ha
  have hpos : 0 < a / 127 := lt_of_lt_of_le (by positivity) hs.1
  obtain ⟨-, hd0, -⟩ := halfOf_error (by rwa [abs_of_pos hpos] : NormalScale |a / 127|)
  have hscale : (exactNumpy bits).scaleQ80 b = halfOf (a / 127) :=
    congrArg (fun a => halfOf (a / 127)) hamax
  rw [ofBytes_blockQ80, hscale]
  refine Q80Bound.of_rounded ha hs rfl fun j hj hle => ?_
  have hj' : ((Fin.ofNat 32 j : Fin 32) : Nat) = j := Nat.mod_eq_of_lt hj
  dsimp only at hle ⊢
  have hle' := abs_le.mp hle
  have hcode : ((exactNumpy bits).valueQ80 (halfOf (a / 127)) (b j)).toInt8 =
      Int8.ofInt (roundAway (b j / half.value (halfOf (a / 127)).toNat)) := by
    show ((Int8.ofInt (npClip (roundHalfAway (b j * npInverse _)) (-127) 127)).toUInt8).toInt8 = _
    rw [Int8.toInt8_toUInt8, mul_npInverse (abs_pos.mp hd0), roundHalfAway_eq, npClip,
      max_eq_left hle'.1, min_eq_left hle'.2]
  unfold TqBlockQ80.q
  dsimp only
  rw [hj', hcode, Int8.toInt_ofInt_of_le (by omega) (by omega)]

/-- The code of an element of a Q4_0 block. -/
theorem valueQ40_spec {s x : ℚ} (hs : NormalScale |s|) (hx : |x| ≤ (8 : ℕ) * |s|) :
    ((exactNumpy bits).valueQ40 (halfOf s) x).toNat < 16 ∧
      |x - (((exactNumpy bits).valueQ40 (halfOf s) x).toNat - 8 : ℤ) * half.value
        (halfOf s).toNat| ≤
        |half.value (halfOf s).toNat| * (257 / 256) := by
  obtain ⟨-, hd0, -⟩ := halfOf_error hs
  have hquot := abs_div_scale_le hs hx
  have hle := abs_le.mp (abs_roundAway_le (k := 8) (hquot.trans_lt (by norm_num)))
  have herr := abs_le.mp (roundAway_error (x / half.value (halfOf s).toNat))
  have hv := abs_le.mp hquot
  have hvalue : ((exactNumpy bits).valueQ40 (halfOf s) x).toNat =
      (npClip (roundAway (x / half.value (halfOf s).toNat) + 8) 0 15).toNat := by
    show (UInt8.ofNat (npClip (roundHalfAway (x * npInverse _) + 8) 0 15).toNat).toNat = _
    rw [mul_npInverse (abs_pos.mp hd0), roundHalfAway_eq, UInt8.toNat_ofNat', npClip]
    exact Nat.mod_eq_of_lt (by omega)
  rw [abs_sub_mul hd0, mul_comm |half.value _|, hvalue]
  generalize x / half.value (halfOf s).toNat = v at hle herr hv ⊢
  generalize roundAway v = q at hle herr ⊢
  have hclip : (npClip (q + 8) 0 15).toNat < 16 ∧ (((npClip (q + 8) 0 15).toNat : ℤ) - 8 = q ∨
      (((npClip (q + 8) 0 15).toNat : ℤ) - 8 = 7 ∧ q = 8)) := by
    unfold npClip
    omega
  refine ⟨hclip.1, mul_le_mul_of_nonneg_right ?_ hd0.le⟩
  rw [abs_le]
  rcases hclip.2 with hq | ⟨hq, h8⟩
  · rw [hq]
    constructor <;> linarith
  · -- past the last code, which is one less than where the value is
    rw [hq]
    rw [h8] at herr
    push_cast at herr hv ⊢
    constructor <;> linarith

/-- A row of `quantize_q4_0` through the kernels: each element comes back in
its place, as its own code times the scale. -/
theorem blockQ40_bound {b : Nat → ℚ} {a : ℚ} (ha : IsAmax b a) (hs : NormalScale (a / 8)) :
    half.IsFinite (TqBlockQ40.ofBytes (blockQ40 (exactNumpy bits) b) 0).d.toNat ∧
      ∀ j < 32, |b j - dequantQ40 halfOps (TqBlockQ40.ofBytes (blockQ40 (exactNumpy bits) b) 0) j| ≤
        |half.value (TqBlockQ40.ofBytes (blockQ40 (exactNumpy bits) b) 0).d.toNat| *
          (257 / 256) := by
  have hamax : |b (npAbsArgmax b)| = a := (npAbsArgmax_isAmax b).unique ha
  have hscale : |b (npAbsArgmax b) / -8| = a / 8 := by
    rw [abs_div, hamax, abs_neg, abs_of_pos (by norm_num)]
  have hnorm : NormalScale |b (npAbsArgmax b) / -8| := by rwa [hscale]
  obtain ⟨hfin, -, -⟩ := halfOf_error hnorm
  have hx : ∀ i < 32, |b i| ≤ (8 : ℕ) * |b (npAbsArgmax b) / -8| := by
    intro i hi
    rw [hscale]
    refine (ha.1 i hi).trans_eq ?_
    push_cast
    ring
  have hspec := fun i hi => valueQ40_spec bits hnorm (hx i hi)
  rw [ofBytes_blockQ40, show (exactNumpy bits).scaleQ40 b =
    halfOf (b (npAbsArgmax b) / -8) from rfl]
  refine ⟨hfin, fun j hj => ?_⟩
  rw [dequantQ40_split halfOps _ (fun i hi => (hspec i hi).1) hj, tqHalfToFloat_halfOps hfin]
  exact (hspec j hj).2

end Bounds

/-- The block of an array that starts at `b * 32`. -/
def blockAt (x : Nat → ℚ) (b : Nat) (j : Nat) : ℚ := x (b * tqGroupSize + j)

/-- **Quantization error bounds.**  For a block whose unrounded scale is in
the normal range of a half: on the board and in the exporter the codes of Q8_0
are in [-127, 127] and each element is within half a scale of its code, and an
element that `quantize_q4_0` wrote and `tq_dequantize` read is within 257/256
of a scale, in its own place. -/
theorem quantize_error (bits : ℚ → UInt32) :
    (∀ (x : Nat → ℚ) (out : Nat → TqBlockQ80) (n : Nat), ∀ b < n / tqGroupSize, ∀ a,
      IsAmax (blockAt x b) a → NormalScale (a / 127) →
      Q80Bound (blockAt x b) (tqQuantizeQ8 halfOps x out n b)) ∧
    (∀ (w : NdArray ℚ) (bs : List UInt8), quantize (exactNumpy bits) w tqDtQ80 = .ok bs →
      ∀ b < w.shape.prod / tqGroupSize, ∀ a, IsAmax (blockAt w.data b) a → NormalScale (a / 127) →
      Q80Bound (blockAt w.data b) (TqBlockQ80.ofBytes bs (b * 34))) ∧
    (∀ (w : NdArray ℚ) (bs : List UInt8), quantize (exactNumpy bits) w tqDtQ40 = .ok bs →
      ∀ b < w.shape.prod / tqGroupSize, ∀ a, IsAmax (blockAt w.data b) a → NormalScale (a / 8) →
      half.IsFinite (TqBlockQ40.ofBytes bs (b * 18)).d.toNat ∧
      ∀ out, ∀ j < tqGroupSize,
        |blockAt w.data b j - tqDequantize halfOps bs tqDtQ40 out w.shape.prod
          (b * tqGroupSize + j)| ≤
          |half.value (TqBlockQ40.ofBytes bs (b * 18)).d.toNat| * (257 / 256)) := by
  refine ⟨fun x out n b hb a ha hs => ?_, fun w bs hw b hb a ha hs => ?_,
    fun w bs hw b hb a ha hs => ?_⟩
  · rw [tqQuantizeQ8_apply, if_pos hb]
    exact quantizeBlock_bound ha hs
  · rw [quantize_q80_read _ hw hb]
    exact blockQ80_bound bits ha hs
  · have hbound := blockQ40_bound bits ha hs
    unfold blockAt at hbound
    rw [← quantize_q40_read _ hw hb] at hbound
    refine ⟨hbound.1, fun out j hj => ?_⟩
    have hplace : tqDequantize halfOps bs tqDtQ40 out w.shape.prod (b * tqGroupSize + j) =
        dequantQ40 halfOps (TqBlockQ40.ofBytes bs (b * 18)) j := by
      obtain ⟨hdiv, hmod⟩ := block_index (b := b) hj
      have hlen : b * tqGroupSize + j < dequantLen tqDtQ40 w.shape.prod := by
        unfold dequantLen tqGroupSize at *
        rw [if_pos (.inr rfl)]
        omega
      rw [tqDequantize_apply, if_pos hlen, dequantAt, if_neg (by decide), if_pos rfl]
      unfold tqGroupSize
      rw [hdiv, hmod]
    rw [hplace]
    exact hbound.2 j hj

/-- The ramp from -62 to 62, in both formats and in the kernel. -/
theorem quantize_error_ramp :
    let ramp : NdArray ℚ := ⟨[32], fun i => 4 * i - 62⟩
    Q80Bound (blockAt ramp.data 0)
      (tqQuantizeQ8 halfOps ramp.data (fun _ => ⟨0, fun _ => 0⟩) 32 0) ∧
    (∃ bs, quantize (exactNumpy fun _ => 0) ramp tqDtQ80 = .ok bs ∧
      Q80Bound (blockAt ramp.data 0) (TqBlockQ80.ofBytes bs 0)) ∧
    ∃ bs, quantize (exactNumpy fun _ => 0) ramp tqDtQ40 = .ok bs ∧
      half.IsFinite (TqBlockQ40.ofBytes bs 0).d.toNat ∧
      ∀ out, ∀ j < tqGroupSize,
        |blockAt ramp.data 0 j - tqDequantize halfOps bs tqDtQ40 out 32 (0 * tqGroupSize + j)| ≤
          |half.value (TqBlockQ40.ofBytes bs 0).d.toNat| * (257 / 256) := by
  intro ramp
  have hamax : IsAmax (blockAt ramp.data 0) 62 := by
    refine ⟨fun j hj => ?_, 0, by decide, by norm_num [blockAt, ramp]⟩
    have hle : (j : ℚ) ≤ 31 := by exact_mod_cast Nat.le_of_lt_succ hj
    have hnonneg : (0 : ℚ) ≤ j := Nat.cast_nonneg j
    simp only [blockAt, ramp, Nat.zero_mul, Nat.zero_add]
    exact abs_le.mpr ⟨by linarith, by linarith⟩
  have hscale : NormalScale (62 / 127) ∧ NormalScale (62 / 8) := by norm_num [NormalScale]
  obtain ⟨hkernel, hq80, hq40⟩ := quantize_error fun _ => 0
  have hblocks : ramp.shape.prod % tqGroupSize = 0 := by decide
  obtain ⟨bs, hbs, -⟩ := @quantize_total _ (exactNumpy fun _ => 0) ramp tqDtQ80 (.inr rfl) hblocks
  obtain ⟨bs', hbs', -⟩ := @quantize_total _ (exactNumpy fun _ => 0) ramp tqDtQ40 (.inl rfl) hblocks
  exact ⟨hkernel ramp.data _ 32 0 (by decide) 62 hamax hscale.1,
    ⟨bs, hbs, hq80 ramp bs hbs 0 (by decide) 62 hamax hscale.1⟩, bs', hbs',
    hq40 ramp bs' hbs' 0 (by decide) 62 hamax hscale.2⟩

end TinyLlm.Etq
