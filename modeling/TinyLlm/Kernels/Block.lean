/-
# `TinyLlm.Kernels.Block` — quantized blocks

The two block formats of `tq_format.h` and what `tq_kernels.c` does with them.
A block is 32 weights and one half-precision scale.  Q4_0 packs its nibbles
split: the low nibble of byte `j` is element `j`, the high nibble is element
`j + 16`.

The inner sums are 32-bit integers.  `Acc32` is such a sum together with a
sticky flag that records whether any step of it left the range, so that
"nothing overflowed" is a statement about the code as it runs.
-/
import TinyLlm.Kernels.Float
import TinyLlm.Lib.Bytes
import TinyLlm.Lib.Loop
import Mathlib.Logic.Function.Basic

namespace TinyLlm

open Loop Bytes

/-- `TQ_GROUP_SIZE`. -/
def tqGroupSize : Nat := 32

structure TqBlockQ80 where
  d : UInt16
  qs : Fin 32 → Int8
deriving DecidableEq

structure TqBlockQ40 where
  d : UInt16
  qs : Fin 16 → UInt8
deriving DecidableEq

/-- Element `j` of a Q8_0 block, `j < 32`. -/
def TqBlockQ80.q (b : TqBlockQ80) (j : Nat) : Int8 := b.qs (Fin.ofNat 32 j)

/-- Byte `j` of a Q4_0 block, `j < 16`. -/
def TqBlockQ40.q (b : TqBlockQ40) (j : Nat) : UInt8 := b.qs (Fin.ofNat 16 j)

/-- The block whose 34 bytes start at `off`. -/
def TqBlockQ80.ofBytes (bs : List UInt8) (off : Nat) : TqBlockQ80 where
  d := UInt16.ofNat (leAt bs off 2)
  qs j := (bs.getD (off + 2 + j) 0).toInt8

/-- The block whose 18 bytes start at `off`. -/
def TqBlockQ40.ofBytes (bs : List UInt8) (off : Nat) : TqBlockQ40 where
  d := UInt16.ofNat (leAt bs off 2)
  qs j := bs.getD (off + 2 + j) 0

/-! ## Types and sizes -/

/-- The storage types of `tq_format.h`. -/
def tqDtF32 : Nat := 0

def tqDtQ80 : Nat := 1

def tqDtQ40 : Nat := 2

def tqDtU8 : Nat := 3

def tqDtU32 : Nat := 4

/-- Bytes of `n` values, in 64-bit arithmetic; zero for a bad type or a
quantized length that is not a whole number of blocks. -/
def tqDtypeNbytes (dtype n : Nat) : Nat :=
  if dtype = tqDtF32 ∨ dtype = tqDtU32 then n * 4 % 2 ^ 64
  else if dtype = tqDtU8 then n
  else if dtype = tqDtQ80 then if n % tqGroupSize ≠ 0 then 0 else n / tqGroupSize * 34 % 2 ^ 64
  else if dtype = tqDtQ40 then if n % tqGroupSize ≠ 0 then 0 else n / tqGroupSize * 18 % 2 ^ 64
  else 0

/-! ## Sums -/

/-- A 32-bit sum, and whether it ever overflowed. -/
structure Acc32 where
  val : Int32
  overflow : Bool
deriving DecidableEq

def Acc32.zero : Acc32 := ⟨0, false⟩

/-- The value fits an `int32_t`. -/
def fits32 (z : Int) : Bool := decide (-2 ^ 31 ≤ z ∧ z < 2 ^ 31)

/-- `acc += a₀ * b₀ + a₁ * b₁`. -/
def Acc32.dual (acc : Acc32) (a₀ b₀ a₁ b₁ : Int) : Acc32 where
  val := acc.val + Int32.ofInt (a₀ * b₀ + a₁ * b₁)
  overflow := acc.overflow || !(fits32 (a₀ * b₀) && fits32 (a₁ * b₁) &&
    fits32 (a₀ * b₀ + a₁ * b₁) && fits32 (acc.val.toInt + (a₀ * b₀ + a₁ * b₁)))

/-- `acc += a * b`. -/
def Acc32.mac (acc : Acc32) (a b : Int) : Acc32 where
  val := acc.val + Int32.ofInt (a * b)
  overflow := acc.overflow || !(fits32 (a * b) && fits32 (acc.val.toInt + a * b))

/-- The low nibble of a byte, as a weight. -/
def loNibble (b : UInt8) : Int := (b &&& 0x0F).toNat - 8

/-- The high nibble. -/
def hiNibble (b : UInt8) : Int := (b >>> 4).toNat - 8

/-- One block of `tq_dot_q40_q80`, generic path. -/
def accQ40 (w : TqBlockQ40) (x : TqBlockQ80) : Acc32 :=
  forUp 16 (fun j acc =>
    acc.dual (loNibble (w.q j)) (x.q j).toInt (hiNibble (w.q j)) (x.q (j + 16)).toInt) .zero

/-- One block of `tq_dot_q80_q80`, generic path. -/
def accQ80 (w x : TqBlockQ80) : Acc32 :=
  forUp 32 (fun j acc => acc.mac (w.q j).toInt (x.q j).toInt) .zero

section Ops
variable {F : Type} (O : FloatOps F)

/-- The float fold of the dot products, over the sum `acc b` and the scales of
each block. -/
def dotFold (acc : Nat → Acc32) (dw dx : Nat → UInt16) (nb : Nat) : F :=
  forUp nb (fun b sum =>
    O.add sum (O.mul (O.mul (O.ofInt (acc b).val.toInt) (tqHalfToFloat O (dw b)))
      (tqHalfToFloat O (dx b)))) (O.ofInt 0)

def tqDotQ40Q80 (w : Nat → TqBlockQ40) (x : Nat → TqBlockQ80) (nb : Nat) : F :=
  dotFold O (fun b => accQ40 (w b) (x b)) (fun b => (w b).d) (fun b => (x b).d) nb

def tqDotQ80Q80 (w x : Nat → TqBlockQ80) (nb : Nat) : F :=
  dotFold O (fun b => accQ80 (w b) (x b)) (fun b => (w b).d) (fun b => (x b).d) nb

/-! ## Quantizing -/

/-- The largest magnitude of a block. -/
def blockAmax (src : Nat → F) : F :=
  forUp tqGroupSize (fun j amax =>
    let v := if O.lt (src j) (O.ofInt 0) then O.neg (src j) else src j
    if O.lt amax v then v else amax) (O.ofInt 0)

/-- `(int)(v < 0 ? v - 0.5f : v + 0.5f)`, clamped to `[-127, 127]`. -/
def roundClamp (v : F) : Int :=
  let q := O.toInt (if O.lt v (O.ofInt 0) then O.sub v O.half else O.add v O.half)
  if q > 127 then 127 else if q < -127 then -127 else q

/-- One round of `tq_quantize_q8`. -/
def quantizeBlock (src : Nat → F) : TqBlockQ80 :=
  let amax := blockAmax O src
  let dh := tqFloatToHalf O (O.div amax (O.ofInt 127))
  let d := tqHalfToFloat O dh
  let id := if O.beq d (O.ofInt 0) then O.ofInt 0 else O.div (O.ofInt 1) d
  { d := dh, qs := fun j => Int8.ofInt (roundClamp O (O.mul (src j) id)) }

def tqQuantizeQ8 (x : Nat → F) (out : Nat → TqBlockQ80) (n : Nat) : Nat → TqBlockQ80 :=
  forUp (n / tqGroupSize) (fun b out =>
    Function.update out b (quantizeBlock O fun j => x (b * tqGroupSize + j))) out

/-! ## Dequantizing -/

/-- The loops of `tq_dequantize`, into anything that takes one element after the other. -/
def tqDequantizeWith {A : Type} (write : Nat → F → A → A) (blocks : List UInt8) (dtype n : Nat)
    (out : A) : A :=
  let nb := n / tqGroupSize
  if dtype = tqDtQ80 then
    forUp nb (fun b out =>
      let w := TqBlockQ80.ofBytes blocks (b * 34)
      let d := tqHalfToFloat O w.d
      forUp tqGroupSize (fun j out =>
        write (b * tqGroupSize + j) (O.mul (O.ofInt (w.q j).toInt) d) out) out) out
  else if dtype = tqDtQ40 then
    forUp nb (fun b out =>
      let w := TqBlockQ40.ofBytes blocks (b * 18)
      let d := tqHalfToFloat O w.d
      let o := b * tqGroupSize
      forUp (tqGroupSize / 2) (fun j out =>
        write (o + (j + 16)) (O.mul (O.ofInt (hiNibble (w.q j))) d)
          (write (o + j) (O.mul (O.ofInt (loNibble (w.q j))) d) out)) out) out
  else if dtype = tqDtF32 then
    forUp n (fun i out => write i (O.ofBits (UInt32.ofNat (leAt blocks (4 * i) 4))) out) out
  else out

/-- `tq_dequantize` into an array. -/
def tqDequantize (blocks : List UInt8) (dtype : Nat) (out : Nat → F) (n : Nat) : Nat → F :=
  tqDequantizeWith O (fun i v out => Function.update out i v) blocks dtype n out

/-- Two targets side by side. -/
theorem tqDequantizeWith_rel {A B : Type} {I : A → B → Prop} {write : Nat → F → A → A}
    {write' : Nat → F → B → B} {n : Nat}
    (h : ∀ i < n, ∀ v s t, I s t → I (write i v s) (write' i v t)) (blocks : List UInt8)
    (dtype : Nat) {s : A} {t : B} (hst : I s t) :
    I (tqDequantizeWith O write blocks dtype n s) (tqDequantizeWith O write' blocks dtype n t) := by
  have hblock : ∀ {b j : Nat}, b < n / tqGroupSize → j < tqGroupSize → b * tqGroupSize + j < n := by
    intro b j hb hj
    have hend := Nat.mul_le_mul_right tqGroupSize (Nat.succ_le_of_lt hb)
    have hn := Nat.div_mul_le_self n tqGroupSize
    rw [Nat.succ_mul] at hend
    omega
  unfold tqDequantizeWith
  dsimp only
  split
  · refine forUp_rel (I := fun _ => I) hst fun b hb s t hst => ?_
    exact forUp_rel (I := fun _ => I) hst fun j hj s t hst => h _ (hblock hb hj) _ s t hst
  split
  · refine forUp_rel (I := fun _ => I) hst fun b hb s t hst => ?_
    refine forUp_rel (I := fun _ => I) hst fun j hj s t hst => ?_
    have hj : j < 16 := hj
    have hlow : b * tqGroupSize + j < n := hblock hb (by unfold tqGroupSize; omega)
    have hhigh : b * tqGroupSize + (j + 16) < n := hblock hb (by unfold tqGroupSize; omega)
    exact h _ hhigh _ _ _ (h _ hlow _ s t hst)
  split
  · exact forUp_rel (I := fun _ => I) hst fun i hi s t hst => h i hi _ s t hst
  · exact hst

end Ops

end TinyLlm
