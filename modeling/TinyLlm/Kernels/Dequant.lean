/-
# `TinyLlm.Kernels.Dequant` — the dequantizer and the dot products

`tq_dequantize` fills an array block by block.  `dequantAt` is what element
`i` gets, so the loops have a closed form (`tqDequantize_apply`), and in exact
arithmetic a dot product of quantized rows is the dot product of the
dequantized ones.

With `TinyLlm.Kernels.Dsp` this makes three readings of the split nibble
layout coincide: the scalar kernel, the vector kernel and the dequantizer.
-/
import Mathlib.Algebra.BigOperators.Ring.Finset
import Mathlib.Data.Int.Cast.Lemmas
import TinyLlm.Kernels.Dsp

namespace TinyLlm

open Loop Bytes

section Element
variable {F : Type} (O : FloatOps F)

/-- Element `j` of a Q8_0 block. -/
def dequantQ80 (w : TqBlockQ80) (j : Nat) : F :=
  O.mul (O.ofInt (w.q j).toInt) (tqHalfToFloat O w.d)

/-- Element `j` of a Q4_0 block. -/
def dequantQ40 (w : TqBlockQ40) (j : Nat) : F :=
  O.mul (O.ofInt (if j < 16 then loNibble (w.q j) else hiNibble (w.q (j - 16))))
    (tqHalfToFloat O w.d)

/-- Element `i` of a row. -/
def dequantAt (blocks : List UInt8) (dtype i : Nat) : F :=
  if dtype = tqDtQ80 then
    dequantQ80 O (TqBlockQ80.ofBytes blocks (i / 32 * 34)) (i % 32)
  else if dtype = tqDtQ40 then
    dequantQ40 O (TqBlockQ40.ofBytes blocks (i / 32 * 18)) (i % 32)
  else O.ofBits (UInt32.ofNat (leAt blocks (4 * i) 4))

/-- How many elements a row of `n` values has filled. -/
def dequantLen (dtype n : Nat) : Nat :=
  if dtype = tqDtQ80 ∨ dtype = tqDtQ40 then n / tqGroupSize * tqGroupSize
  else if dtype = tqDtF32 then n else 0

/-- The first `k` elements of an array are those of `g`, the others of `out`. -/
def FilledTo (g out : Nat → F) (k : Nat) (a : Nat → F) : Prop :=
  ∀ i, a i = if i < k then g i else out i

theorem FilledTo.zero (g out : Nat → F) : FilledTo g out 0 out := fun i => by
  rw [if_neg (Nat.not_lt_zero i)]

theorem FilledTo.step {g out a : Nat → F} {k : Nat} (h : FilledTo g out k a) {x : F}
    (hx : x = g k) : FilledTo g out (k + 1) (Function.update a k x) := by
  intro i
  rw [Function.update_apply]
  by_cases hi : i = k
  · rw [if_pos hi, if_pos (by omega), hx, hi]
  · rw [if_neg hi, h i]
    by_cases hlt : i < k
    · rw [if_pos hlt, if_pos (by omega)]
    · rw [if_neg hlt, if_neg (by omega)]

/-- Blocks filled from the left. -/
theorem forUp_blocks {g out : Nat → F} {nb : Nat} {body : Nat → (Nat → F) → Nat → F}
    (h : ∀ b a, FilledTo g out (b * 32) a → FilledTo g out ((b + 1) * 32) (body b a)) :
    FilledTo g out (nb * 32) (forUp nb body out) :=
  forUp_inv (I := fun b a => FilledTo g out (b * 32) a)
    (by rw [Nat.zero_mul]; exact FilledTo.zero g out) fun b _ a ha => h b a ha

/-- Splitting the index of an element. -/
theorem block_index {b j : Nat} (hj : j < 32) : (b * 32 + j) / 32 = b ∧ (b * 32 + j) % 32 = j := by
  omega

/-- A Q4_0 block writes its two halves in step. -/
theorem forUp_halves {g out : Nat → F} {b : Nat} {lo hi : Nat → F} {a : Nat → F}
    (ha : FilledTo g out (b * 32) a) (hlo : ∀ j < 16, lo j = g (b * 32 + j))
    (hhi : ∀ j < 16, hi j = g (b * 32 + (j + 16))) :
    FilledTo g out ((b + 1) * 32) (forUp (tqGroupSize / 2) (fun j a =>
      Function.update (Function.update a (b * 32 + j) (lo j)) (b * 32 + (j + 16)) (hi j)) a) := by
  have hinv := forUp_inv (n := 16) (s := a)
    (f := fun j a =>
      Function.update (Function.update a (b * 32 + j) (lo j)) (b * 32 + (j + 16)) (hi j))
    (I := fun j (c : Nat → F) => ∀ i, c i =
      if i < b * 32 + j ∨ (b * 32 + 16 ≤ i ∧ i < b * 32 + 16 + j) then g i else out i)
    (fun i => by
      rw [ha i]
      by_cases h : i < b * 32
      · rw [if_pos h, if_pos (by omega)]
      · rw [if_neg h, if_neg (by omega)])
    (fun j hj c hc i => by
      rw [Function.update_apply, Function.update_apply]
      by_cases h₁ : i = b * 32 + (j + 16)
      · rw [if_pos h₁, if_pos (by omega), h₁, hhi j hj]
      · by_cases h₂ : i = b * 32 + j
        · rw [if_neg h₁, if_pos h₂, if_pos (by omega), h₂, hlo j hj]
        · rw [if_neg h₁, if_neg h₂, hc i]
          by_cases h : i < b * 32 + j ∨ (b * 32 + 16 ≤ i ∧ i < b * 32 + 16 + j)
          · rw [if_pos h, if_pos (by omega)]
          · rw [if_neg h, if_neg (by omega)])
  intro i
  rw [show tqGroupSize / 2 = 16 from rfl, hinv i]
  by_cases h : i < (b + 1) * 32
  · rw [if_pos (by omega), if_pos h]
  · rw [if_neg (by omega), if_neg h]

/-- **The closed form** of `tq_dequantize`. -/
theorem tqDequantize_apply (blocks : List UInt8) (dtype : Nat) (out : Nat → F) (n i : Nat) :
    tqDequantize O blocks dtype out n i
      = if i < dequantLen dtype n then dequantAt O blocks dtype i else out i := by
  suffices h : FilledTo (dequantAt O blocks dtype) out (dequantLen dtype n)
      (tqDequantize O blocks dtype out n) from h i
  unfold tqDequantize tqDequantizeWith dequantLen
  by_cases h80 : dtype = tqDtQ80
  · subst h80
    simp only [if_true, true_or]
    refine forUp_blocks fun b a ha => ?_
    rw [Nat.succ_mul]
    refine forUp_inv (n := 32) (I := fun j c => FilledTo (dequantAt O blocks tqDtQ80) out
      (b * 32 + j) c) ha fun j hj c hc => FilledTo.step hc ?_
    obtain ⟨hb, hm⟩ := block_index (b := b) hj
    simp only [dequantAt, if_true, hb, hm]
    rfl
  by_cases h40 : dtype = tqDtQ40
  · subst h40
    simp only [if_neg h80, if_true, or_true]
    refine forUp_blocks fun b a ha => ?_
    refine forUp_halves ha (fun j hj => ?_) fun j hj => ?_
    · obtain ⟨hb, hm⟩ := block_index (b := b) (show j < 32 by omega)
      simp only [dequantAt, if_neg h80, if_true, hb, hm, dequantQ40, if_pos hj]
    · obtain ⟨hb, hm⟩ := block_index (b := b) (show j + 16 < 32 by omega)
      simp only [dequantAt, if_neg h80, if_true, hb, hm, dequantQ40,
        if_neg (show ¬ j + 16 < 16 by omega), Nat.add_sub_cancel]
  rw [if_neg h80, if_neg h40, if_neg (not_or.mpr ⟨h80, h40⟩)]
  by_cases h32 : dtype = tqDtF32
  · rw [if_pos h32, if_pos h32]
    refine forUp_inv (I := fun k c => FilledTo (dequantAt O blocks dtype) out k c)
      (FilledTo.zero _ _) fun k _ c hc => hc.step ?_
    rw [dequantAt, if_neg h80, if_neg h40]
  · rw [if_neg h32, if_neg h32]
    exact FilledTo.zero _ _

end Element

/-! ## Dot products of dequantized rows -/

section Exact
variable (O : FloatOps ℚ) (w x : List UInt8)

/-- The blocks of a Q4_0 row. -/
def rowQ40 (w : List UInt8) (b : Nat) : TqBlockQ40 := TqBlockQ40.ofBytes w (b * 18)

/-- The blocks of a Q8_0 row. -/
def rowQ80 (x : List UInt8) (b : Nat) : TqBlockQ80 := TqBlockQ80.ofBytes x (b * 34)

theorem dequantize_exact {dtype : Nat} (hd : dtype = tqDtQ80 ∨ dtype = tqDtQ40) (out : Nat → ℚ)
    {nb b j : Nat} (hb : b < nb) (hj : j < 32) :
    tqDequantize O.exact w dtype out (32 * nb) (b * 32 + j)
      = dequantAt O.exact w dtype (b * 32 + j) := by
  rw [tqDequantize_apply, if_pos]
  rw [dequantLen, if_pos hd, tqGroupSize]
  omega

/-- The terms of a Q4_0 block are products of dequantized elements. -/
theorem sum_termQ40 (w : TqBlockQ40) (x : TqBlockQ80) :
    ((∑ j ∈ Finset.range 16, termQ40 w x j : Int) : ℚ) * tqHalfToFloat O w.d * tqHalfToFloat O x.d
      = ∑ j ∈ Finset.range 32, dequantQ40 O.exact w j * dequantQ80 O.exact x j := by
  have hsplit :=
    Finset.sum_range_add (fun j => dequantQ40 O.exact w j * dequantQ80 O.exact x j) 16 16
  rw [hsplit, ← Finset.sum_add_distrib, Int.cast_sum, Finset.sum_mul, Finset.sum_mul]
  refine Finset.sum_congr rfl fun j hj => ?_
  have hj := Finset.mem_range.mp hj
  have hhi : ¬ 16 + j < 16 := by omega
  rw [dequantQ40, dequantQ40, if_pos hj, if_neg hhi, Nat.add_sub_cancel_left, Nat.add_comm 16 j]
  show ((termQ40 w x j : Int) : ℚ) * _ * _ = ((loNibble (w.q j) : Int) : ℚ) * tqHalfToFloat O w.d
      * (((x.q j).toInt : ℚ) * tqHalfToFloat O x.d)
    + ((hiNibble (w.q j) : Int) : ℚ) * tqHalfToFloat O w.d
      * (((x.q (j + 16)).toInt : ℚ) * tqHalfToFloat O x.d)
  rw [termQ40]
  push_cast
  ring

theorem sum_termQ80 (w x : TqBlockQ80) :
    ((∑ j ∈ Finset.range 32, termQ80 w x j : Int) : ℚ) * tqHalfToFloat O w.d * tqHalfToFloat O x.d
      = ∑ j ∈ Finset.range 32, dequantQ80 O.exact w j * dequantQ80 O.exact x j := by
  rw [Int.cast_sum, Finset.sum_mul, Finset.sum_mul]
  refine Finset.sum_congr rfl fun j _ => ?_
  show ((termQ80 w x j : Int) : ℚ) * _ * _ = ((w.q j).toInt : ℚ) * tqHalfToFloat O w.d
      * (((x.q j).toInt : ℚ) * tqHalfToFloat O x.d)
  rw [termQ80]
  push_cast
  ring

/-- A sum over blocks is a sum over the row. -/
theorem sum_blocks (f : Nat → ℚ) (nb : Nat) :
    ∑ b ∈ Finset.range nb, ∑ j ∈ Finset.range 32, f (b * 32 + j) =
      ∑ i ∈ Finset.range (32 * nb), f i := by
  induction nb with
  | zero => rfl
  | succ nb ih =>
      rw [Finset.sum_range_succ, ih, Nat.mul_succ 32 nb, Finset.sum_range_add, Nat.mul_comm nb 32]

theorem tqDotQ40Q80_exact (out out' : Nat → ℚ) (nb : Nat) :
    tqDotQ40Q80 O.exact (rowQ40 w) (rowQ80 x) nb
      = ∑ i ∈ Finset.range (32 * nb), tqDequantize O.exact w tqDtQ40 out (32 * nb) i
          * tqDequantize O.exact x tqDtQ80 out' (32 * nb) i := by
  rw [tqDotQ40Q80, dotFold_exact, ← sum_blocks]
  refine Finset.sum_congr rfl fun b hb => ?_
  have hb := Finset.mem_range.mp hb
  rw [(accQ40_holds _ _).val, sum_termQ40]
  refine Finset.sum_congr rfl fun j hj => ?_
  have hj := Finset.mem_range.mp hj
  obtain ⟨hq, hm⟩ := block_index (b := b) hj
  rw [dequantize_exact O w (.inr rfl) out hb hj, dequantize_exact O x (.inl rfl) out' hb hj,
    dequantAt, dequantAt, if_neg (by decide), if_pos rfl, if_pos rfl, hq, hm]
  rfl

theorem tqDotQ80Q80_exact (out out' : Nat → ℚ) (nb : Nat) :
    tqDotQ80Q80 O.exact (rowQ80 w) (rowQ80 x) nb
      = ∑ i ∈ Finset.range (32 * nb), tqDequantize O.exact w tqDtQ80 out (32 * nb) i
          * tqDequantize O.exact x tqDtQ80 out' (32 * nb) i := by
  rw [tqDotQ80Q80, dotFold_exact, ← sum_blocks]
  refine Finset.sum_congr rfl fun b hb => ?_
  have hb := Finset.mem_range.mp hb
  rw [(accQ80_holds _ _).val, sum_termQ80]
  refine Finset.sum_congr rfl fun j hj => ?_
  have hj := Finset.mem_range.mp hj
  obtain ⟨hq, hm⟩ := block_index (b := b) hj
  rw [dequantize_exact O w (.inl rfl) out hb hj, dequantize_exact O x (.inl rfl) out' hb hj,
    dequantAt, dequantAt, if_pos rfl, if_pos rfl, hq, hm]
  rfl

end Exact

/-- **The kernels and the dequantizer agree.**  Block by block the two backends
compute the same sum and overflow nowhere, so their results are equal for any
float operations; and in exact arithmetic a dot product is that of the
dequantized rows. -/
theorem kernels_agree :
    (∀ w x, accQ40Dsp w x = accQ40 w x ∧ (accQ40 w x).overflow = false) ∧
    (∀ w x, accQ80Dsp w x = accQ80 w x ∧ (accQ80 w x).overflow = false) ∧
    (∀ (F : Type) (O : FloatOps F) w x nb, tqDotQ40Q80Dsp O w x nb = tqDotQ40Q80 O w x nb) ∧
    (∀ (F : Type) (O : FloatOps F) w x nb, tqDotQ80Q80Dsp O w x nb = tqDotQ80Q80 O w x nb) ∧
    (∀ (O : FloatOps ℚ) (w x : List UInt8) (out out' : Nat → ℚ) nb,
      tqDotQ40Q80 O.exact (rowQ40 w) (rowQ80 x) nb
        = ∑ i ∈ Finset.range (32 * nb), tqDequantize O.exact w tqDtQ40 out (32 * nb) i
            * tqDequantize O.exact x tqDtQ80 out' (32 * nb) i) ∧
    (∀ (O : FloatOps ℚ) (w x : List UInt8) (out out' : Nat → ℚ) nb,
      tqDotQ80Q80 O.exact (rowQ80 w) (rowQ80 x) nb
        = ∑ i ∈ Finset.range (32 * nb), tqDequantize O.exact w tqDtQ80 out (32 * nb) i
            * tqDequantize O.exact x tqDtQ80 out' (32 * nb) i) := by
  refine ⟨fun w x => ⟨accQ40Dsp_eq w x, (accQ40_holds w x).clear⟩,
    fun w x => ⟨accQ80Dsp_eq w x, (accQ80_holds w x).clear⟩, ?_, ?_, ?_, ?_⟩
  · intro F O w x nb
    exact tqDotQ40Q80Dsp_eq O w x nb
  · intro F O w x nb
    exact tqDotQ80Q80Dsp_eq O w x nb
  · intro O w x out out' nb
    exact tqDotQ40Q80_exact O w x out out' nb
  · intro O w x out out' nb
    exact tqDotQ80Q80_exact O w x out out' nb

end TinyLlm
