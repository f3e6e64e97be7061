/-
# `TinyLlm.Kernels.Dsp` — the Cortex-M7 path

The kernels that `tq_kernels.c` compiles for a core with the DSP extension.
A 32-bit register is read as four signed bytes (`lane8`) or two signed
halfwords (`lane16`), and the three instructions are stated on lanes:

  `SSUB8`    subtracts byte by byte, each lane wrapping
  `SXTB16`   sign-extends bytes 0 and 2 to halfwords
  `SMLAD`    adds both halfword products to the accumulator, sticky on overflow

A lane of `SSUB8` that would wrap is recorded in the same sticky flag, so a
clear flag at the end says that no lane and no sum overflowed.
-/
import Mathlib.Algebra.BigOperators.Intervals
import Mathlib.Data.Rat.Defs
import Mathlib.Algebra.Order.Ring.Int
import Mathlib.Tactic.Linarith
import TinyLlm.Kernels.Block

namespace TinyLlm

open Loop

/-! ## Lanes -/

/-- Signed byte `i` of a register. -/
def lane8 (v : UInt32) (i : Nat) : Int8 := ⟨⟨v.toBitVec.extractLsb' (8 * i) 8⟩⟩

/-- Signed halfword `i` of a register. -/
def lane16 (v : UInt32) (i : Nat) : Int16 := ⟨⟨v.toBitVec.extractLsb' (16 * i) 16⟩⟩

/-- The register with these bytes. -/
def pack8 (f : Nat → Int8) : UInt32 :=
  ⟨((f 3).toBitVec ++ (f 2).toBitVec ++ (f 1).toBitVec ++ (f 0).toBitVec).setWidth 32⟩

/-- The register with these halfwords. -/
def pack16 (f : Nat → Int16) : UInt32 := ⟨((f 1).toBitVec ++ (f 0).toBitVec).setWidth 32⟩

/-- A little-endian 32-bit load of four bytes. -/
def tqLd32 (p : Nat → Int8) (j : Nat) : UInt32 := pack8 fun i => p (j + i)

def tqSsub8 (a b : UInt32) : UInt32 := pack8 fun i => lane8 a i - lane8 b i

/-- No lane of `tqSsub8 a b` wraps. -/
def ssub8Fits (a b : UInt32) : Bool :=
  (List.range 4).all fun i =>
    let z := (lane8 a i).toInt - (lane8 b i).toInt
    decide (-128 ≤ z ∧ z < 128)

def tqSxtb16 (a : UInt32) : UInt32 := pack16 fun i => (lane8 a (2 * i)).toInt16

def tqSmlad (a b : UInt32) (acc : Acc32) : Acc32 :=
  acc.dual (lane16 a 0).toInt (lane16 b 0).toInt (lane16 a 1).toInt (lane16 b 1).toInt

/-- Record whether a lane wrapped. -/
def Acc32.check (acc : Acc32) (fits : Bool) : Acc32 :=
  { acc with overflow := acc.overflow || !fits }

/-! ## The kernels -/

/-- One round of the Q4_0 kernel: eight products. -/
def dspRoundQ40 (w : TqBlockQ40) (x : TqBlockQ80) (j : Nat) (acc : Acc32) : Acc32 :=
  let v := tqLd32 (fun i => (w.q i).toInt8) j
  let loN := v &&& 0x0F0F0F0F
  let hiN := (v >>> 4) &&& 0x0F0F0F0F
  let lo := tqSsub8 loN 0x08080808
  let hi := tqSsub8 hiN 0x08080808
  let xa := tqLd32 x.q j
  let xh := tqLd32 x.q (j + 16)
  let acc := (acc.check (ssub8Fits loN 0x08080808)).check (ssub8Fits hiN 0x08080808)
  let acc := tqSmlad (tqSxtb16 lo) (tqSxtb16 xa) acc
  let acc := tqSmlad (tqSxtb16 (lo >>> 8)) (tqSxtb16 (xa >>> 8)) acc
  let acc := tqSmlad (tqSxtb16 hi) (tqSxtb16 xh) acc
  tqSmlad (tqSxtb16 (hi >>> 8)) (tqSxtb16 (xh >>> 8)) acc

/-- One block of `tq_dot_q40_q80`, DSP path. -/
def accQ40Dsp (w : TqBlockQ40) (x : TqBlockQ80) : Acc32 :=
  forUp 4 (fun r acc => dspRoundQ40 w x (4 * r) acc) .zero

/-- One round of the Q8_0 kernel: four products. -/
def dspRoundQ80 (w x : TqBlockQ80) (j : Nat) (acc : Acc32) : Acc32 :=
  let wv := tqLd32 w.q j
  let xv := tqLd32 x.q j
  let acc := tqSmlad (tqSxtb16 wv) (tqSxtb16 xv) acc
  tqSmlad (tqSxtb16 (wv >>> 8)) (tqSxtb16 (xv >>> 8)) acc

/-- One block of `tq_dot_q80_q80`, DSP path. -/
def accQ80Dsp (w x : TqBlockQ80) : Acc32 :=
  forUp 8 (fun r acc => dspRoundQ80 w x (4 * r) acc) .zero

section Ops
variable {F : Type} (O : FloatOps F)

/-- `tq_dot_q40_q80`, DSP path. -/
def tqDotQ40Q80Dsp (w : Nat → TqBlockQ40) (x : Nat → TqBlockQ80) (nb : Nat) : F :=
  dotFold O (fun b => accQ40Dsp (w b) (x b)) (fun b => (w b).d) (fun b => (x b).d) nb

/-- `tq_dot_q80_q80`, DSP path. -/
def tqDotQ80Q80Dsp (w x : Nat → TqBlockQ80) (nb : Nat) : F :=
  dotFold O (fun b => accQ80Dsp (w b) (x b)) (fun b => (w b).d) (fun b => (x b).d) nb

end Ops

/-! ## What a lane holds -/

theorem int8_ext {a b : Int8} (h : ∀ n < 8, a.toBitVec.getLsbD n = b.toBitVec.getLsbD n) : a = b :=
  Int8.toBitVec_inj.mp (BitVec.eq_of_getLsbD_eq h)

theorem lane8_bits (v : UInt32) (i : Nat) {n : Nat} (hn : n < 8) :
    (lane8 v i).toBitVec.getLsbD n = v.toBitVec.getLsbD (8 * i + n) := by
  show (v.toBitVec.extractLsb' (8 * i) 8).getLsbD n = _
  rw [BitVec.getLsbD_extractLsb', decide_eq_true hn, Bool.true_and]

theorem pack8_bits (f : Nat → Int8) {i n : Nat} (hi : i < 4) (hn : n < 8) :
    (pack8 f).toBitVec.getLsbD (8 * i + n) = (f i).toBitVec.getLsbD n := by
  show (((f 3).toBitVec ++ (f 2).toBitVec ++ (f 1).toBitVec
    ++ (f 0).toBitVec).setWidth 32).getLsbD _ = _
  simp only [BitVec.getLsbD_setWidth, BitVec.getLsbD_append]
  have h8 : ¬ 8 + n < 8 := by omega
  have h16 : ¬ 16 + n < 8 := by omega
  have h24 : ¬ 24 + n < 8 := by omega
  rcases i with _ | _ | _ | _ | i
  · simp [hn, show n < 32 by omega]
  · simp [h8, hn, show 8 + n < 32 by omega]
  · simp [h16, show 16 + n - 8 = 8 + n by omega, h8, hn, show 16 + n < 32 by omega]
  · simp [h24, show 24 + n - 8 = 16 + n by omega, h16, show 16 + n - 8 = 8 + n by omega, h8, hn,
      show 24 + n < 32 by omega]
  · omega

theorem lane8_pack8 (f : Nat → Int8) {i : Nat} (hi : i < 4) : lane8 (pack8 f) i = f i :=
  int8_ext fun n hn => by rw [lane8_bits _ _ hn, pack8_bits f hi hn]

theorem lane16_pack16 (f : Nat → Int16) {i : Nat} (hi : i < 2) : lane16 (pack16 f) i = f i := by
  refine Int16.toBitVec_inj.mp (BitVec.eq_of_getLsbD_eq fun n hn => ?_)
  show ((((f 1).toBitVec ++ (f 0).toBitVec).setWidth 32).extractLsb' (16 * i) 16).getLsbD n = _
  rw [BitVec.getLsbD_extractLsb', BitVec.getLsbD_setWidth, BitVec.getLsbD_append]
  rcases i with _ | _ | i
  · simp [hn, show n < 32 by omega]
  · simp [hn, show ¬ 16 + n < 16 by omega, show 16 + n < 32 by omega]
  · omega

/-- Shifting a register down by a byte moves the lanes. -/
theorem lane8_shift (v : UInt32) (i : Nat) : lane8 (v >>> 8) i = lane8 v (i + 1) :=
  int8_ext fun n hn => by
    rw [lane8_bits _ _ hn, lane8_bits _ _ hn, UInt32.toBitVec_shiftRight,
      show (8 : UInt32).toBitVec % 32 = 8#32 from rfl, BitVec.ushiftRight_eq',
      BitVec.getLsbD_ushiftRight]
    congr 1
    show 8 + _ = _
    omega

theorem mask_bits {i n : Nat} (hi : i < 4) (hn : n < 8) :
    (0x0F0F0F0F : UInt32).toBitVec.getLsbD (8 * i + n) = decide (n < 4) := by
  have h : ∀ i < 4, ∀ n < 8,
      (0x0F0F0F0F : UInt32).toBitVec.getLsbD (8 * i + n) = decide (n < 4) := by decide
  exact h i hi n hn

section Nibbles
variable {v : UInt32} {i : Nat} {b : UInt8}

/-- The low nibbles of four bytes at once. -/
theorem lane8_lo (hi : i < 4) (hb : lane8 v i = b.toInt8) :
    lane8 (v &&& 0x0F0F0F0F) i = (b &&& 0x0F).toInt8 :=
  int8_ext fun n hn => by
    have hbit : v.toBitVec.getLsbD (8 * i + n) = b.toBitVec.getLsbD n := by
      rw [← lane8_bits v i hn, hb]
      rfl
    have hmask : ∀ n < 8, (0x0F : UInt8).toBitVec.getLsbD n = decide (n < 4) := by decide
    rw [lane8_bits _ _ hn, UInt32.toBitVec_and, BitVec.getLsbD_and, mask_bits hi hn, hbit]
    show _ = (b.toBitVec &&& (0x0F : UInt8).toBitVec).getLsbD n
    rw [BitVec.getLsbD_and, hmask n hn]

/-- And the high ones. -/
theorem lane8_hi (hi : i < 4) (hb : lane8 v i = b.toInt8) :
    lane8 ((v >>> 4) &&& 0x0F0F0F0F) i = (b >>> 4).toInt8 :=
  int8_ext fun n hn => by
    rw [lane8_bits _ _ hn, UInt32.toBitVec_and, BitVec.getLsbD_and, mask_bits hi hn,
      UInt32.toBitVec_shiftRight, show (4 : UInt32).toBitVec % 32 = 4#32 from rfl,
      BitVec.ushiftRight_eq', BitVec.getLsbD_ushiftRight]
    show _ = (b.toBitVec >>> ((4 : UInt8).toBitVec % 8)).getLsbD n
    rw [show (4 : UInt8).toBitVec % 8 = 4#8 from rfl, BitVec.ushiftRight_eq',
      BitVec.getLsbD_ushiftRight]
    show (v.toBitVec.getLsbD (4 + (8 * i + n)) && _) = b.toBitVec.getLsbD (4 + n)
    rcases Nat.lt_or_ge n 4 with h4 | h4
    · have hbit : v.toBitVec.getLsbD (8 * i + (4 + n)) = b.toBitVec.getLsbD (4 + n) := by
        rw [← lane8_bits v i (show 4 + n < 8 by omega), hb]
        rfl
      rw [decide_eq_true h4, Bool.and_true, ← hbit]
      congr 1
      omega
    · rw [decide_eq_false (by omega), Bool.and_false, BitVec.getLsbD_of_ge]
      omega

end Nibbles

/-- A byte below 128 is itself as a signed byte. -/
theorem toInt_toInt8 {c : UInt8} (h : c.toNat ≤ 15) : c.toInt8.toInt = (c.toNat : Int) := by
  show c.toBitVec.toInt = _
  rw [BitVec.toInt_eq_toNat_of_lt]
  · rfl
  · show 2 * c.toNat < 2 ^ 8
    omega

theorem lo_le (b : UInt8) : (b &&& 0x0F).toNat ≤ 15 := by
  rw [UInt8.toNat_and]
  exact Nat.and_le_right

theorem hi_le (b : UInt8) : (b >>> 4).toNat ≤ 15 := by
  have hb := b.toNat_lt
  rw [UInt8.toNat_shiftRight]
  show b.toNat >>> 4 ≤ 15
  rw [Nat.shiftRight_eq_div_pow]
  omega

/-- Subtracting 8 from a nibble in a lane. -/
theorem sub_eight {c : UInt8} (h : c.toNat ≤ 15) : (c.toInt8 - 8).toInt = (c.toNat : Int) - 8 := by
  have h8 : (8 : Int8).toInt = 8 := by decide
  rw [Int8.toInt_sub, toInt_toInt8 h, h8]
  exact Int.bmod_eq_of_le (by omega) (by omega)

theorem lane8_eights {i : Nat} (hi : i < 4) : lane8 0x08080808 i = 8 := by
  have h : ∀ i < 4, lane8 0x08080808 i = 8 := by decide
  exact h i hi

/-- Four nibbles less 8: no lane wraps. -/
theorem ssub8_nibbles {n : UInt32} {c : Nat → UInt8} (h : ∀ i < 4, lane8 n i = (c i).toInt8)
    (hc : ∀ i, (c i).toNat ≤ 15) :
    ssub8Fits n 0x08080808 = true ∧
      ∀ i < 4, (lane8 (tqSsub8 n 0x08080808) i).toInt = ((c i).toNat : Int) - 8 := by
  constructor
  · refine List.all_eq_true.mpr fun i hi => ?_
    have hi := List.mem_range.mp hi
    have h8 : (8 : Int8).toInt = 8 := by decide
    have := hc i
    rw [h i hi, lane8_eights hi, toInt_toInt8 (hc i), h8]
    exact decide_eq_true (by omega)
  · intro i hi
    rw [tqSsub8, lane8_pack8 _ hi, h i hi, lane8_eights hi, sub_eight (hc i)]

/-- `SMLAD` of two `SXTB16`: lanes 0 and 2. -/
theorem smlad_sxtb16 (a b : UInt32) (acc : Acc32) :
    tqSmlad (tqSxtb16 a) (tqSxtb16 b) acc
      = acc.dual (lane8 a 0).toInt (lane8 b 0).toInt (lane8 a 2).toInt (lane8 b 2).toInt := by
  unfold tqSmlad tqSxtb16
  rw [lane16_pack16 _ (by decide), lane16_pack16 _ (by decide), lane16_pack16 _ (by decide),
    lane16_pack16 _ (by decide), Int8.toInt_toInt16, Int8.toInt_toInt16, Int8.toInt_toInt16,
    Int8.toInt_toInt16]

/-! ## Sums that do not overflow -/

/-- The sum is exactly `z`, no step of it overflowed, and `n` pairs of bytes
were multiplied so far. -/
structure Acc32.Holds (acc : Acc32) (z : Int) (n : Nat) : Prop where
  val : acc.val.toInt = z
  clear : acc.overflow = false
  bound : -(n * 2 ^ 15 : Int) ≤ z ∧ z ≤ n * 2 ^ 15

theorem Acc32.holds_zero : Acc32.zero.Holds 0 0 := ⟨by decide, rfl, by simp⟩

/-- An exact sum with a clear flag is determined by its value. -/
theorem Acc32.Holds.unique {acc acc' : Acc32} {z : Int} {n n' : Nat} (h : acc.Holds z n)
    (h' : acc'.Holds z n') : acc = acc' := by
  obtain ⟨v, o⟩ := acc
  obtain ⟨v', o'⟩ := acc'
  have hv : v = v' := Int32.toInt_inj.mp (h.val.trans h'.val.symm)
  have ho : o = o' := h.clear.trans h'.clear.symm
  rw [hv, ho]

theorem byte_mul {a b : Int} (ha : -128 ≤ a ∧ a < 128) (hb : -128 ≤ b ∧ b < 128) :
    -2 ^ 14 ≤ a * b ∧ a * b ≤ 2 ^ 14 := by
  constructor <;> nlinarith

theorem fits_of_bound {z : Int} (h : -2 ^ 30 ≤ z ∧ z ≤ 2 ^ 30) : fits32 z = true :=
  decide_eq_true (by omega)

section Steps
variable {acc : Acc32} {z : Int} {n : Nat}

theorem toInt_add_ofInt {v : Int32} {p : Int} (hv : -2 ^ 29 ≤ v.toInt ∧ v.toInt ≤ 2 ^ 29)
    (hp : -2 ^ 29 ≤ p ∧ p ≤ 2 ^ 29) : (v + Int32.ofInt p).toInt = v.toInt + p := by
  have hof : (Int32.ofInt p).toInt = p := by
    rw [Int32.toInt_ofInt]
    exact Int.bmod_eq_of_le (by simp [Int32.size]; omega) (by simp [Int32.size]; omega)
  rw [Int32.toInt_add, hof]
  exact Int.bmod_eq_of_le (by omega) (by omega)

/-- **Two products** of bytes are added exactly. -/
theorem Acc32.Holds.dual (h : acc.Holds z n) (hn : n ≤ 2 ^ 10) {a₀ b₀ a₁ b₁ : Int}
    (ha₀ : -128 ≤ a₀ ∧ a₀ < 128) (hb₀ : -128 ≤ b₀ ∧ b₀ < 128) (ha₁ : -128 ≤ a₁ ∧ a₁ < 128)
    (hb₁ : -128 ≤ b₁ ∧ b₁ < 128) :
    (acc.dual a₀ b₀ a₁ b₁).Holds (z + (a₀ * b₀ + a₁ * b₁)) (n + 1) := by
  have hm₀ := byte_mul ha₀ hb₀
  have hm₁ := byte_mul ha₁ hb₁
  have hval := h.val
  have hbound := h.bound
  generalize hp₀ : a₀ * b₀ = p₀ at hm₀ ⊢
  generalize hp₁ : a₁ * b₁ = p₁ at hm₁ ⊢
  have hz : -2 ^ 25 ≤ z ∧ z ≤ 2 ^ 25 := by omega
  refine ⟨?_, ?_, ?_⟩
  · show (acc.val + Int32.ofInt (a₀ * b₀ + a₁ * b₁)).toInt = _
    rw [hp₀, hp₁, toInt_add_ofInt (by omega) (by omega), hval]
  · show (acc.overflow || !(fits32 (a₀ * b₀) && fits32 (a₁ * b₁) && fits32 (a₀ * b₀ + a₁ * b₁) &&
      fits32 (acc.val.toInt + (a₀ * b₀ + a₁ * b₁)))) = false
    rw [hp₀, hp₁, hval, h.clear, fits_of_bound (by omega), fits_of_bound (by omega),
      fits_of_bound (by omega), fits_of_bound (by omega)]
    rfl
  · push_cast
    omega

/-- One product. -/
theorem Acc32.Holds.mac (h : acc.Holds z n) (hn : n ≤ 2 ^ 10) {a b : Int}
    (ha : -128 ≤ a ∧ a < 128) (hb : -128 ≤ b ∧ b < 128) :
    (acc.mac a b).Holds (z + a * b) (n + 1) := by
  have hm := byte_mul ha hb
  have hval := h.val
  have hbound := h.bound
  generalize hp : a * b = p at hm ⊢
  have hz : -2 ^ 25 ≤ z ∧ z ≤ 2 ^ 25 := by omega
  refine ⟨?_, ?_, ?_⟩
  · show (acc.val + Int32.ofInt (a * b)).toInt = _
    rw [hp, toInt_add_ofInt (by omega) (by omega), hval]
  · show (acc.overflow || !(fits32 (a * b) && fits32 (acc.val.toInt + a * b))) = false
    rw [hp, hval, h.clear, fits_of_bound (by omega), fits_of_bound (by omega)]
    rfl
  · push_cast
    omega

theorem Acc32.Holds.check (h : acc.Holds z n) {fits : Bool} (hf : fits = true) :
    (acc.check fits).Holds z n := by
  rw [hf]
  exact ⟨h.val, by show (acc.overflow || !true) = false; rw [h.clear]; rfl, h.bound⟩

end Steps

theorem byte_range (q : Int8) : -128 ≤ q.toInt ∧ q.toInt < 128 := ⟨q.le_toInt, q.toInt_lt⟩

theorem lo_range (b : UInt8) : -128 ≤ loNibble b ∧ loNibble b < 128 := by
  have := lo_le b
  unfold loNibble
  omega

theorem hi_range (b : UInt8) : -128 ≤ hiNibble b ∧ hiNibble b < 128 := by
  have := hi_le b
  unfold hiNibble
  omega

/-! ## One block -/

section Blocks
variable (w : TqBlockQ40) (v x : TqBlockQ80)

/-- What byte `j` of a Q4_0 block contributes. -/
def termQ40 (j : Nat) : Int :=
  loNibble (w.q j) * (x.q j).toInt + hiNibble (w.q j) * (x.q (j + 16)).toInt

/-- What element `j` of a Q8_0 block contributes. -/
def termQ80 (j : Nat) : Int := (v.q j).toInt * (x.q j).toInt

/-- The generic path computes the exact sum. -/
theorem accQ40_holds : (accQ40 w x).Holds (∑ j ∈ Finset.range 16, termQ40 w x j) 16 := by
  refine forUp_inv
    (I := fun k (acc : Acc32) => acc.Holds (∑ j ∈ Finset.range k, termQ40 w x j) k ∧ k ≤ 16)
    ⟨Acc32.holds_zero, Nat.zero_le _⟩ ?_ |>.1
  rintro j hj acc ⟨h, -⟩
  rw [Finset.sum_range_succ]
  exact ⟨h.dual (by omega) (lo_range _) (byte_range _) (hi_range _) (byte_range _), hj⟩

theorem accQ80_holds : (accQ80 v x).Holds (∑ j ∈ Finset.range 32, termQ80 v x j) 32 := by
  refine forUp_inv
    (I := fun k (acc : Acc32) => acc.Holds (∑ j ∈ Finset.range k, termQ80 v x j) k ∧ k ≤ 32)
    ⟨Acc32.holds_zero, Nat.zero_le _⟩ ?_ |>.1
  rintro j hj acc ⟨h, -⟩
  rw [Finset.sum_range_succ]
  exact ⟨h.mac (by omega) (byte_range _) (byte_range _), hj⟩

theorem lane8_ld32 (p : Nat → Int8) (j : Nat) {i : Nat} (hi : i < 4) :
    lane8 (tqLd32 p j) i = p (j + i) :=
  lane8_pack8 _ hi

/-- **One round** of the Q4_0 kernel adds the terms of four bytes. -/
theorem dspRoundQ40_holds {acc : Acc32} {z : Int} {n : Nat} (h : acc.Holds z n)
    (hn : n + 4 ≤ 2 ^ 10) (j : Nat) :
    (dspRoundQ40 w x j acc).Holds (z + ∑ i ∈ Finset.range 4, termQ40 w x (j + i)) (n + 4) := by
  have hv : ∀ i < 4, lane8 (tqLd32 (fun i => (w.q i).toInt8) j) i = (w.q (j + i)).toInt8 :=
    fun i hi => lane8_ld32 _ j hi
  obtain ⟨hfl, hlo⟩ := ssub8_nibbles (fun i hi => lane8_lo hi (hv i hi))
    fun i => lo_le (w.q (j + i))
  obtain ⟨hfh, hhi⟩ := ssub8_nibbles (fun i hi => lane8_hi hi (hv i hi))
    fun i => hi_le (w.q (j + i))
  change ∀ i < 4, _ = loNibble (w.q (j + i)) at hlo
  change ∀ i < 4, _ = hiNibble (w.q (j + i)) at hhi
  unfold dspRoundQ40
  dsimp only
  generalize tqLd32 (fun i => (w.q i).toInt8) j = v at hfl hlo hfh hhi ⊢
  rw [smlad_sxtb16, smlad_sxtb16, smlad_sxtb16, smlad_sxtb16, lane8_shift, lane8_shift, lane8_shift,
    lane8_shift, lane8_shift, lane8_shift, lane8_shift, lane8_shift]
  rw [hlo 0 (by decide), hlo (0 + 1) (by decide), hlo 2 (by decide), hlo (2 + 1) (by decide),
    hhi 0 (by decide), hhi (0 + 1) (by decide), hhi 2 (by decide), hhi (2 + 1) (by decide),
    lane8_ld32 _ _ (by decide), lane8_ld32 _ _ (by decide), lane8_ld32 _ _ (by decide),
    lane8_ld32 _ _ (by decide), lane8_ld32 _ _ (by decide), lane8_ld32 _ _ (by decide),
    lane8_ld32 _ _ (by decide), lane8_ld32 _ _ (by decide)]
  have h₁ := ((h.check hfl).check hfh).dual (by omega) (lo_range (w.q (j + 0)))
    (byte_range (x.q (j + 0))) (lo_range (w.q (j + 2))) (byte_range (x.q (j + 2)))
  have h₂ := h₁.dual (by omega) (lo_range (w.q (j + (0 + 1)))) (byte_range (x.q (j + (0 + 1))))
    (lo_range (w.q (j + (2 + 1)))) (byte_range (x.q (j + (2 + 1))))
  have h₃ := h₂.dual (by omega) (hi_range (w.q (j + 0))) (byte_range (x.q (j + 16 + 0)))
    (hi_range (w.q (j + 2))) (byte_range (x.q (j + 16 + 2)))
  have h₄ := h₃.dual (by omega) (hi_range (w.q (j + (0 + 1)))) (byte_range (x.q (j + 16 + (0 + 1))))
    (hi_range (w.q (j + (2 + 1)))) (byte_range (x.q (j + 16 + (2 + 1))))
  have hsum : ∑ i ∈ Finset.range 4, termQ40 w x (j + i)
      = (loNibble (w.q (j + 0)) * (x.q (j + 0)).toInt + loNibble (w.q (j + 2)) *
        (x.q (j + 2)).toInt) + (loNibble (w.q (j + (0 + 1))) * (x.q (j + (0 + 1))).toInt
          + loNibble (w.q (j + (2 + 1))) * (x.q (j + (2 + 1))).toInt)
        + (hiNibble (w.q (j + 0)) * (x.q (j + 16 + 0)).toInt
          + hiNibble (w.q (j + 2)) * (x.q (j + 16 + 2)).toInt)
        + (hiNibble (w.q (j + (0 + 1))) * (x.q (j + 16 + (0 + 1))).toInt
          + hiNibble (w.q (j + (2 + 1))) * (x.q (j + 16 + (2 + 1))).toInt) := by
    simp only [Finset.sum_range_succ, Finset.sum_range_zero, termQ40, Nat.add_right_comm j 16]
    ring
  rw [hsum]
  convert h₄ using 1
  ring

theorem dspRoundQ80_holds {acc : Acc32} {z : Int} {n : Nat} (h : acc.Holds z n)
    (hn : n + 2 ≤ 2 ^ 10) (j : Nat) :
    (dspRoundQ80 v x j acc).Holds (z + ∑ i ∈ Finset.range 4, termQ80 v x (j + i)) (n + 2) := by
  unfold dspRoundQ80
  dsimp only
  rw [smlad_sxtb16, smlad_sxtb16, lane8_shift, lane8_shift, lane8_shift, lane8_shift,
    lane8_ld32 _ _ (by decide), lane8_ld32 _ _ (by decide), lane8_ld32 _ _ (by decide),
    lane8_ld32 _ _ (by decide), lane8_ld32 _ _ (by decide), lane8_ld32 _ _ (by decide),
    lane8_ld32 _ _ (by decide), lane8_ld32 _ _ (by decide)]
  have h₁ := h.dual (by omega) (byte_range (v.q (j + 0))) (byte_range (x.q (j + 0)))
    (byte_range (v.q (j + 2))) (byte_range (x.q (j + 2)))
  have h₂ := h₁.dual (by omega) (byte_range (v.q (j + (0 + 1)))) (byte_range (x.q (j + (0 + 1))))
    (byte_range (v.q (j + (2 + 1)))) (byte_range (x.q (j + (2 + 1))))
  have hsum : ∑ i ∈ Finset.range 4, termQ80 v x (j + i)
      = ((v.q (j + 0)).toInt * (x.q (j + 0)).toInt + (v.q (j + 2)).toInt * (x.q (j + 2)).toInt)
        + ((v.q (j + (0 + 1))).toInt * (x.q (j + (0 + 1))).toInt
          + (v.q (j + (2 + 1))).toInt * (x.q (j + (2 + 1))).toInt) := by
    simp only [Finset.sum_range_succ, Finset.sum_range_zero, termQ80]
    ring
  rw [hsum]
  convert h₂ using 1
  ring

/-- Sums over `4 * k` terms, four at a time. -/
theorem sum_four (f : Nat → Int) (k : Nat) :
    ∑ j ∈ Finset.range (4 * (k + 1)), f j
      = ∑ j ∈ Finset.range (4 * k), f j + ∑ i ∈ Finset.range 4, f (4 * k + i) := by
  rw [Nat.mul_succ, Finset.sum_range_add]

theorem accQ40Dsp_holds : (accQ40Dsp w x).Holds (∑ j ∈ Finset.range 16, termQ40 w x j) 16 := by
  refine forUp_inv (I := fun k (acc : Acc32) =>
    acc.Holds (∑ j ∈ Finset.range (4 * k), termQ40 w x j) (4 * k) ∧ k ≤ 4)
    ⟨Acc32.holds_zero, Nat.zero_le _⟩ ?_ |>.1
  rintro k hk acc ⟨h, -⟩
  rw [sum_four]
  exact ⟨dspRoundQ40_holds w x h (by omega) (4 * k), hk⟩

theorem accQ80Dsp_holds : (accQ80Dsp v x).Holds (∑ j ∈ Finset.range 32, termQ80 v x j) 16 := by
  refine forUp_inv (I := fun k (acc : Acc32) =>
    acc.Holds (∑ j ∈ Finset.range (4 * k), termQ80 v x j) (2 * k) ∧ k ≤ 8)
    ⟨Acc32.holds_zero, Nat.zero_le _⟩ ?_ |>.1
  rintro k hk acc ⟨h, -⟩
  rw [sum_four]
  exact ⟨dspRoundQ80_holds v x h (by omega) (4 * k), hk⟩

/-- **The two backends agree** on every block, with nothing overflowed. -/
theorem accQ40Dsp_eq : accQ40Dsp w x = accQ40 w x :=
  (accQ40Dsp_holds w x).unique (accQ40_holds w x)

theorem accQ80Dsp_eq : accQ80Dsp v x = accQ80 v x :=
  (accQ80Dsp_holds v x).unique (accQ80_holds v x)

/-- Equal sums give equal results, whatever the float operations are. -/
theorem tqDotQ40Q80Dsp_eq {F : Type} (O : FloatOps F) (w : Nat → TqBlockQ40) (x : Nat → TqBlockQ80)
    (nb : Nat) : tqDotQ40Q80Dsp O w x nb = tqDotQ40Q80 O w x nb := by
  unfold tqDotQ40Q80Dsp tqDotQ40Q80
  simp only [accQ40Dsp_eq]

theorem tqDotQ80Q80Dsp_eq {F : Type} (O : FloatOps F) (w x : Nat → TqBlockQ80) (nb : Nat) :
    tqDotQ80Q80Dsp O w x nb = tqDotQ80Q80 O w x nb := by
  unfold tqDotQ80Q80Dsp tqDotQ80Q80
  simp only [accQ80Dsp_eq]

end Blocks

/-! ## Exact arithmetic -/

section Exact

/-- The same operations with exact rational sums, products and conversions;
the value of a scale stays whatever `ofBits` makes of it. -/
def FloatOps.exact (O : FloatOps ℚ) : FloatOps ℚ :=
  { O with ofInt := fun z => z, add := (· + ·), mul := (· * ·) }

variable (O : FloatOps ℚ)

/-- In exact arithmetic the fold is a sum over the blocks. -/
theorem dotFold_exact (acc : Nat → Acc32) (dw dx : Nat → UInt16) (nb : Nat) :
    dotFold O.exact acc dw dx nb
      = ∑ b ∈ Finset.range nb, ((acc b).val.toInt : ℚ) * tqHalfToFloat O (dw b)
          * tqHalfToFloat O (dx b) := by
  refine forUp_inv (I := fun k (sum : ℚ) => sum = ∑ b ∈ Finset.range k,
    ((acc b).val.toInt : ℚ) * tqHalfToFloat O (dw b) * tqHalfToFloat O (dx b)) ?_ ?_
  · exact Int.cast_zero
  · rintro b _ sum rfl
    rw [Finset.sum_range_succ]
    rfl

end Exact

end TinyLlm
