/-
# `TinyLlm.Convert.Numpy` — the oracle's operations and the engine's

In exact arithmetic (`SameNumbers`) a function of `reference.py` gives what the
loop of the engine gives.  A sum is a sum in any order there, and where numpy
divides, the engine multiplies with an inverse.  A block is quantized with a
scale that was rounded to a half; both round it alike, so the codes are the
same, and so are the products of the codes, which are integers.

Each lemma is about the elements within the shape of its result and asks for
those within the shapes of its arguments.
-/
import Mathlib.Tactic.Ring
import TinyLlm.Convert.Reference
import TinyLlm.Forward.Values

namespace TinyLlm.Etq

open Bytes Loop
open Finset (range mem_range sum_congr sum_range_zero sum_range_succ sum_range_add
  sum_add_distrib sup'_le_iff)

/-- One field for the floats of both, and the same functions on it. -/
structure SameNumbers {R : Type} [Field R] [LinearOrder R] (O : FloatOps R) (np : RefNumpy R) :
    Prop where
  ofInt : ∀ z, O.ofInt z = z
  half : O.half = 1 / 2
  add : ∀ x y, O.add x y = x + y
  sub : ∀ x y, O.sub x y = x - y
  mul : ∀ x y, O.mul x y = x * y
  div : ∀ x y, O.div x y = x / y
  neg : ∀ x, O.neg x = -x
  lt : ∀ x y, O.lt x y = decide (x < y)
  beq : ∀ x y, O.beq x y = decide (x = y)
  float32 : ∀ b, O.ofBits b = np.float32 b
  float16 : ∀ x, tqHalfToFloat O (tqFloatToHalf O x) = np.ofFloat16 (np.float16 x)
  ofFloat16 : ∀ h, tqHalfToFloat O h = np.ofFloat16 h
  trunc : ∀ x, O.toInt x = np.trunc x
  sqrt : ∀ x, O.sqrt x = np.sqrt x
  exp : ∀ x, O.tqExpf x = np.exp x
  cos : ∀ x, O.tqCosf x = np.cos x
  sin : ∀ x, O.tqSinf x = np.sin x
  power : ∀ x y, O.tqPowf x y = np.power x y

/-! ## Sums and maxima -/

section Maxima
variable {R : Type} [LinearOrder R]

theorem arrayMax_zero (x : Nat → R) : arrayMax 0 x = x 0 := rfl

theorem arrayMax_succ (n : Nat) (x : Nat → R) :
    arrayMax (n + 1) x = max (arrayMax n x) (x (n + 1)) := by
  refine eq_of_forall_ge_iff fun a => ?_
  simp only [arrayMax, sup'_le_iff, max_le_iff, mem_range, Nat.lt_succ_iff_lt_or_eq (n := n + 1)]
  constructor
  · intro h
    exact ⟨fun i hi => h i (.inl hi), h (n + 1) (.inr rfl)⟩
  · rintro ⟨hlow, hlast⟩ i (hi | rfl)
    · exact hlow i hi
    · exact hlast

end Maxima

section Operations
variable {R : Type} [Field R] [LinearOrder R] {O : FloatOps R} {np : RefNumpy R}

theorem sum_loop (hO : SameNumbers O np) (n : Nat) (f : Nat → R) :
    forUp n (fun i s => O.add s (f i)) (O.ofInt 0) = ∑ i ∈ range n, f i := by
  induction n with
  | zero => rw [forUp, hO.ofInt, Int.cast_zero, sum_range_zero]
  | succ n ih => rw [forUp, ih, hO.add, sum_range_succ]

/-- `b > a ? b : a`, as the loops have it. -/
theorem max_loop (hO : SameNumbers O np) (a b : R) : (if O.lt a b then b else a) = max a b := by
  rw [hO.lt, max_def_lt]
  simp only [decide_eq_true_eq]

theorem softmaxMax_eq (hO : SameNumbers O np) (n : Nat) (x : Nat → R) :
    softmaxMax O (n + 1) x = arrayMax n x := by
  show forUp n _ _ = _
  induction n with
  | zero => rfl
  | succ n ih => rw [forUp, ih, max_loop hO, arrayMax_succ]

/-! ## Vectors -/

theorem rmsScale_eq (hO : SameNumbers O np) (n : Nat) (eps : R) (x : Nat → R) :
    rmsScale O n eps x = 1 / np.sqrt ((∑ i ∈ range n, x i * x i) / n + eps) := by
  unfold rmsScale
  dsimp only
  rw [sum_loop hO]
  simp only [hO.mul, hO.div, hO.sqrt, hO.add, hO.ofInt, Int.cast_one, Int.cast_natCast]

theorem rmsnorm_eq (hO : SameNumbers O np) {n : Nat} {eps : R} {x y v w : Nat → R}
    (hx : ∀ i < n, x i = y i) (hw : ∀ i < n, v i = w i) :
    ∀ i < n, rmsnorm np n x v eps i = normed O n eps w y i := by
  intro i hi
  have hss : ∑ j ∈ range n, x j * x j = ∑ j ∈ range n, y j * y j :=
    sum_congr rfl fun j hj => by rw [hx j (mem_range.mp hj)]
  unfold rmsnorm normed
  rw [rmsScale_eq hO, hss, hx i hi, hw i hi, hO.mul, hO.mul, one_div_mul_eq_div]

theorem softmax_eq (hO : SameNumbers O np) {n : Nat} {x y : Nat → R} (h : ∀ i < n + 1, x i = y i) :
    ∀ i < n + 1, softmax np n x i = softmaxed O (n + 1) y i := by
  intro i hi
  rw [← softmaxed_congr O (Nat.succ_pos n) h hi]
  unfold softmax softmaxed
  dsimp only
  rw [sum_loop hO, softmaxMax_eq hO, hO.mul, hO.div, hO.ofInt, Int.cast_one, mul_one_div]
  simp only [hO.exp, hO.sub]

theorem swiglu_eq (hO : SameNumbers O np) {x y v w : Nat → R} {i : Nat} (hx : x i = v i)
    (hy : y i = w i) :
    x i / (1 + np.exp (-x i)) * y i = swiglu O v w i := by
  rw [hx, hy]
  simp only [swiglu, hO.mul, hO.div, hO.add, hO.exp, hO.neg, hO.ofInt, Int.cast_one]

/-- `np.clip` after `np.trunc`. -/
theorem roundClamp_eq (hO : SameNumbers O np) (v : R) :
    roundClamp O v = min (max (np.trunc (if v < 0 then v - 1 / 2 else v + 1 / 2)) (-127)) 127 := by
  unfold roundClamp
  simp only [hO.lt, hO.sub, hO.add, hO.half, hO.trunc, hO.ofInt, Int.cast_zero, decide_eq_true_eq]
  omega

/-! ## Blocks -/

end Operations

section Blocks
variable {R : Type} [Field R] [LinearOrder R] [IsStrictOrderedRing R] {O : FloatOps R}
    {np : RefNumpy R}

theorem abs_loop (hO : SameNumbers O np) (x : R) :
    (if O.lt x (O.ofInt 0) then O.neg x else x) = |x| := by
  rw [hO.lt, hO.neg, hO.ofInt, Int.cast_zero]
  by_cases h : x < 0
  · rw [if_pos (decide_eq_true h), abs_of_neg h]
  · rw [if_neg (by simpa using h), abs_of_nonneg (not_lt.mp h)]

/-- The loop starts with zero, which is no more than any magnitude. -/
theorem blockAmax_eq (hO : SameNumbers O np) (x : Nat → R) :
    blockAmax O x = arrayMax (tqGroupSize - 1) fun j => |x j| := by
  show forUp (tqGroupSize - 1 + 1) _ _ = _
  generalize tqGroupSize - 1 = n
  induction n with
  | zero => rw [forUp, forUp, abs_loop hO, max_loop hO, hO.ofInt, Int.cast_zero,
    max_eq_right (abs_nonneg _),
      arrayMax_zero]
  | succ n ih => rw [forUp, ih, abs_loop hO, max_loop hO, arrayMax_succ]

/-- **A quantized block** has one scale and the same codes. -/
theorem quantizeAct_eq (hO : SameNumbers O np) (x : Nat → R) (b : Nat) :
    (quantizeAct np x b).2 = tqHalfToFloat O (TinyLlm.quantized O x b).d ∧
      ∀ j < tqGroupSize, (quantizeAct np x b).1 j = ((TinyLlm.quantized O x b).q j).toInt := by
  have hd : tqHalfToFloat O (TinyLlm.quantized O x b).d = (quantizeAct np x b).2 := by
    show tqHalfToFloat O (tqFloatToHalf O (O.div (blockAmax O _) (O.ofInt 127))) = _
    rw [hO.float16, hO.div, hO.ofInt, Int.cast_ofNat, blockAmax_eq hO]
    rfl
  refine ⟨hd.symm, fun j hj => ?_⟩
  have hidx : ((Fin.ofNat 32 j : Fin 32) : Nat) = j := Nat.mod_eq_of_lt hj
  have hq : (TinyLlm.quantized O x b).q j = Int8.ofInt ((quantizeAct np x b).1 j) := by
    show Int8.ofInt (roundClamp O (O.mul (x (b * tqGroupSize + ((Fin.ofNat 32 j : Fin 32) : Nat)))
      (if O.beq (tqHalfToFloat O (TinyLlm.quantized O x b).d) (O.ofInt 0) then O.ofInt 0
        else O.div (O.ofInt 1) (tqHalfToFloat O (TinyLlm.quantized O x b).d)))) = _
    rw [hd, hidx, roundClamp_eq hO]
    simp only [hO.mul, hO.beq, hO.ofInt, hO.div, Int.cast_zero, Int.cast_one, decide_eq_true_eq]
    unfold quantizeAct
    simp only [ne_eq, ite_not]
  have hrange : -127 ≤ (quantizeAct np x b).1 j ∧ (quantizeAct np x b).1 j ≤ 127 := by
    show -127 ≤ min (max _ _) _ ∧ min (max _ _) _ ≤ (127 : Int)
    omega
  rw [hq, Int8.toInt_ofInt_of_le (by omega) (by omega)]

end Blocks

/-! ## Matrices -/

section Matrices
variable {R : Type} [Field R] [LinearOrder R] {O : FloatOps R} {np : RefNumpy R}

/-- Codes and scales of a row: what it is times a quantized vector, and what it
is dequantized. -/
structure Unpacked (O : FloatOps R) (dtype nb : Nat) (row : List UInt8) (q : Nat → Nat → Int)
    (s : Nat → R) :
    Prop where
  dot : ∀ v : Nat → TqBlockQ80, rowDot O dtype row v nb = ∑ b ∈ range nb,
    ((∑ k ∈ range tqGroupSize, q b k * ((v b).q k).toInt : Int) : R) * s b * tqHalfToFloat O (v b).d
  value : ∀ b < nb, ∀ k < tqGroupSize, dequantAt O row dtype (b * tqGroupSize + k) = q b k * s b

/-- Both kernels accumulate what the codes of a block give, and scale it. -/
theorem dotFold_codes (hO : SameNumbers O np) {acc : Nat → Acc32} {dw : Nat → UInt16} {nb : Nat}
    {q : Nat → Nat → Int} {s : Nat → R} {v : Nat → TqBlockQ80}
    (hs : ∀ b < nb, tqHalfToFloat O (dw b) = s b)
    (hacc : ∀ b < nb, (acc b).val.toInt = ∑ k ∈ range tqGroupSize, q b k * ((v b).q k).toInt) :
    dotFold O acc dw (fun b => (v b).d) nb = ∑ b ∈ range nb,
      ((∑ k ∈ range tqGroupSize, q b k * ((v b).q k).toInt : Int) : R) * s b *
      tqHalfToFloat O (v b).d := by
  unfold dotFold
  rw [sum_loop hO]
  refine sum_congr rfl fun b hb => ?_
  have hb := mem_range.mp hb
  rw [hO.mul, hO.mul, hO.ofInt, hacc b hb, hs b hb]

section Rows
variable {payload : List UInt8} {nb width r b : Nat}

theorem row_block_end (hb : b < nb) (width : Nat) : b * width + width ≤ nb * width := by
  have hend := Nat.mul_le_mul_right width (Nat.succ_le_of_lt hb)
  rwa [Nat.succ_mul] at hend

/-- A byte of a block of a row. -/
theorem row_byte (hb : b < nb) {i : Nat} (hi : i < width) :
    (slice payload (nb * width * r) (nb * width)).getD (b * width + i) 0 =
      payload.getD ((r * nb + b) * width + i) 0 := by
  have hend := row_block_end hb width
  rw [getD_slice (by omega)]
  congr 1
  ring

/-- The scale of a block of a row. -/
theorem row_scale (hO : SameNumbers O np) (hb : b < nb) (hwidth : 2 ≤ width) :
    tqHalfToFloat O
      (UInt16.ofNat (leAt (slice payload (nb * width * r) (nb * width)) (b * width) 2)) =
      np.ofFloat16 (UInt16.ofNat (leAt payload ((r * nb + b) * width) 2)) := by
  have hend := row_block_end hb width
  rw [hO.ofFloat16, leAt_slice (by omega)]
  congr 3
  ring

end Rows

theorem unpacked_q80 (hO : SameNumbers O np) (payload : List UInt8) (nb r : Nat) :
    Unpacked O tqDtQ80 nb (slice payload (nb * 34 * r) (nb * 34))
      (fun b k => (payload.getD ((r * nb + b) * 34 + 2 + k) 0).toInt8.toInt)
      (fun b => np.ofFloat16 (UInt16.ofNat (leAt payload ((r * nb + b) * 34) 2))) := by
  have hs : ∀ b < nb,
      tqHalfToFloat O (TqBlockQ80.ofBytes (slice payload (nb * 34 * r) (nb * 34)) (b * 34)).d =
      np.ofFloat16 (UInt16.ofNat (leAt payload ((r * nb + b) * 34) 2)) := by
    intro b hb
    exact row_scale hO hb (by decide)
  have hq : ∀ b < nb, ∀ k < tqGroupSize,
      ((TqBlockQ80.ofBytes (slice payload (nb * 34 * r) (nb * 34)) (b * 34)).q k).toInt =
        (payload.getD ((r * nb + b) * 34 + 2 + k) 0).toInt8.toInt := by
    intro b hb k hk
    have hidx : ((Fin.ofNat 32 k : Fin 32) : Nat) = k := Nat.mod_eq_of_lt hk
    have hk' : k < 32 := hk
    unfold TqBlockQ80.q TqBlockQ80.ofBytes
    dsimp only
    rw [hidx, Nat.add_assoc, row_byte hb (by omega), Nat.add_assoc]
  constructor
  · intro v
    unfold rowDot tqDotQ80Q80
    rw [if_neg (by decide)]
    refine dotFold_codes hO hs fun b hb => ?_
    rw [(accQ80_holds _ _).val]
    exact sum_congr rfl fun k hk => congrArg (· * _) (hq b hb k (mem_range.mp hk))
  · intro b hb k hk
    obtain ⟨hdiv, hmod⟩ := block_index (b := b) hk
    unfold dequantAt dequantQ80
    rw [if_pos rfl, show tqGroupSize = 32 from rfl, hdiv, hmod, hs b hb, hq b hb k hk,
      hO.mul, hO.ofInt]

/-- The split nibbles of a block, element by element. -/
theorem sum_nibbles (w : TqBlockQ40) (x : TqBlockQ80) : ∑ j ∈ range 16, termQ40 w x j =
    ∑ k ∈ range tqGroupSize, (if k < 16 then loNibble (w.q k) else hiNibble (w.q (k - 16))) *
      (x.q k).toInt := by
  rw [show tqGroupSize = 16 + 16 from rfl, sum_range_add, ← sum_add_distrib]
  refine sum_congr rfl fun j hj => ?_
  rw [if_pos (mem_range.mp hj), if_neg (by omega), Nat.add_sub_cancel_left, Nat.add_comm 16 j]
  rfl

theorem unpacked_q40 (hO : SameNumbers O np) (payload : List UInt8) (nb r : Nat) :
    Unpacked O tqDtQ40 nb (slice payload (nb * 18 * r) (nb * 18))
      (fun b k => if k < 16 then loNibble (payload.getD ((r * nb + b) * 18 + 2 + k) 0)
        else hiNibble (payload.getD ((r * nb + b) * 18 + 2 + (k - 16)) 0))
      (fun b => np.ofFloat16 (UInt16.ofNat (leAt payload ((r * nb + b) * 18) 2))) := by
  have hs : ∀ b < nb,
      tqHalfToFloat O (TqBlockQ40.ofBytes (slice payload (nb * 18 * r) (nb * 18)) (b * 18)).d =
      np.ofFloat16 (UInt16.ofNat (leAt payload ((r * nb + b) * 18) 2)) := by
    intro b hb
    exact row_scale hO hb (by decide)
  have hbyte : ∀ b < nb, ∀ j < 16,
      (TqBlockQ40.ofBytes (slice payload (nb * 18 * r) (nb * 18)) (b * 18)).q j =
      payload.getD ((r * nb + b) * 18 + 2 + j) 0 := by
    intro b hb j hj
    have hidx : ((Fin.ofNat 16 j : Fin 16) : Nat) = j := Nat.mod_eq_of_lt hj
    unfold TqBlockQ40.q TqBlockQ40.ofBytes
    dsimp only
    rw [hidx, Nat.add_assoc, row_byte hb (by omega), Nat.add_assoc]
  -- an element is in the low nibble of its byte or in the high one
  have hq : ∀ b < nb, ∀ k < tqGroupSize,
      (if k < 16 then loNibble
        ((TqBlockQ40.ofBytes (slice payload (nb * 18 * r) (nb * 18)) (b * 18)).q k)
        else hiNibble
        ((TqBlockQ40.ofBytes (slice payload (nb * 18 * r) (nb * 18)) (b * 18)).q (k - 16))) =
      if k < 16 then loNibble (payload.getD ((r * nb + b) * 18 + 2 + k) 0)
        else hiNibble (payload.getD ((r * nb + b) * 18 + 2 + (k - 16)) 0) := by
    intro b hb k hk
    have hk : k < 32 := hk
    by_cases hlow : k < 16
    · rw [if_pos hlow, if_pos hlow, hbyte b hb k hlow]
    · rw [if_neg hlow, if_neg hlow, hbyte b hb (k - 16) (by omega)]
  constructor
  · intro v
    unfold rowDot tqDotQ40Q80
    rw [if_pos rfl]
    refine dotFold_codes hO hs fun b hb => ?_
    rw [(accQ40_holds _ _).val, sum_nibbles]
    exact sum_congr rfl fun k hk => congrArg (· * _) (hq b hb k (mem_range.mp hk))
  · intro b hb k hk
    obtain ⟨hdiv, hmod⟩ := block_index (b := b) hk
    unfold dequantAt dequantQ40
    rw [if_neg (by decide), if_pos rfl, show tqGroupSize = 32 from rfl, hdiv, hmod, hs b hb,
      hq b hb k hk, hO.mul, hO.ofInt]

theorem tqDtypeNbytes_blocks {dtype n width : Nat} (hn : tqGroupSize ∣ n) (hlt : n < 2 ^ 31)
    (hwidth : (dtype = tqDtQ80 ∧ width = 34) ∨ (dtype = tqDtQ40 ∧ width = 18)) :
    tqDtypeNbytes dtype n = n / tqGroupSize * width := by
  have hwhole : ¬ n % tqGroupSize ≠ 0 := not_not.mpr (Nat.mod_eq_zero_of_dvd hn)
  have hdiv := Nat.div_le_self n tqGroupSize
  unfold tqDtypeNbytes
  rcases hwidth with ⟨rfl, rfl⟩ | ⟨rfl, rfl⟩
  · rw [if_neg (by decide), if_neg (by decide), if_pos rfl, if_neg hwhole,
      Nat.mod_eq_of_lt (by omega)]
  · rw [if_neg (by decide), if_neg (by decide), if_neg (by decide), if_pos rfl, if_neg hwhole,
      Nat.mod_eq_of_lt (by omega)]

/-- **A matrix is unpacked** row by row. -/
theorem unpackWeight_spec (hO : SameNumbers O np) {dtype n : Nat}
    (hdtype : dtype = tqDtQ40 ∨ dtype = tqDtQ80) (hn : tqGroupSize ∣ n) (hlt : n < 2 ^ 31) {d : Nat}
    {payload : List UInt8} (hlen : payload.length = tqDtypeNbytes dtype n * d) :
    ∃ q s, unpackWeight np payload dtype n d = some (q, s) ∧ ∀ r, Unpacked O dtype (n / tqGroupSize)
      (slice payload (tqDtypeNbytes dtype n * r) (tqDtypeNbytes dtype n)) (q r) (s r) := by
  unfold unpackWeight
  dsimp only
  rcases hdtype with rfl | rfl
  · rw [tqDtypeNbytes_blocks hn hlt (.inr ⟨rfl, rfl⟩)] at hlen ⊢
    have hsize : payload.length = d * (n / tqGroupSize) * 18 := hlen.trans (by ring)
    rw [if_neg (by decide), if_pos rfl, if_neg (not_not.mpr hsize)]
    exact ⟨_, _, rfl, unpacked_q40 hO payload (n / tqGroupSize)⟩
  · rw [tqDtypeNbytes_blocks hn hlt (.inl ⟨rfl, rfl⟩)] at hlen ⊢
    have hsize : payload.length = d * (n / tqGroupSize) * 34 := hlen.trans (by ring)
    rw [if_pos rfl, if_neg (not_not.mpr hsize)]
    exact ⟨_, _, rfl, unpacked_q80 hO payload (n / tqGroupSize)⟩

end Matrices

end TinyLlm.Etq
