/-
# `TinyLlm.Kernels.Float` — the scalar operations

The engine computes in `float`.  What an operation on floats returns is left
open: `FloatOps F` names each one the source uses on an arbitrary type `F`,
and a result about `FloatOps` holds for any of them, the IEEE ones included.
A constant is the conversion of its integer value, except `0.5f`.

Half precision is different: the two conversions are written out on the bit
patterns in `tq_kernels.c`, so they are functions on words here and only
`memcpy` between a `float` and its bits is an operation.
-/
import Mathlib.Data.UInt

namespace TinyLlm

/-- The float operations of the source, uninterpreted. -/
structure FloatOps (F : Type) where
  ofBits : UInt32 → F
  toBits : F → UInt32
  ofInt : Int → F
  toInt : F → Int
  half : F
  add : F → F → F
  sub : F → F → F
  mul : F → F → F
  div : F → F → F
  neg : F → F
  sqrt : F → F
  lt : F → F → Bool
  beq : F → F → Bool
  tqExpf : F → F
  tqPowf : F → F → F
  tqCosf : F → F
  tqSinf : F → F

/-! ## Half precision -/

/-- The loop that shifts a subnormal mantissa up; ten rounds bring any
non-zero ten-bit mantissa to its implicit bit. -/
def halfNormalize : Nat → UInt32 → UInt32 → UInt32 × UInt32
  | 0, mant, e => (mant, e)
  | k + 1, mant, e =>
      if mant &&& 0x400 = 0 then halfNormalize k (mant <<< 1) (e - 1) else (mant, e)

/-- The `float` bits of a half. -/
def halfToFloatBits (h : UInt16) : UInt32 :=
  let sign : UInt32 := (h &&& 0x8000).toUInt32 <<< 16
  let exp : UInt32 := (h >>> 10).toUInt32 &&& 0x1F
  let mant : UInt32 := h.toUInt32 &&& 0x3FF
  if exp = 0 then
    if mant = 0 then sign
    else
      let (mant, e) := halfNormalize 10 mant (127 - 15 + 1)
      sign ||| (e <<< (23 : UInt32)) ||| ((mant &&& 0x3FF) <<< (13 : UInt32))
  else if exp = 31 then sign ||| 0x7F800000 ||| (mant <<< (13 : UInt32))
  else sign ||| ((exp - 15 + 127) <<< (23 : UInt32)) ||| (mant <<< (13 : UInt32))

/-- Round half to even, given the part below the last bit kept. -/
def roundEven (half rem halfway : UInt32) : UInt32 :=
  if rem > halfway ∨ (rem = halfway ∧ half &&& 1 ≠ 0) then half + 1 else half

/-- The half that the bits of a `float` round to. -/
def floatBitsToHalf (x : UInt32) : UInt16 :=
  let sign : UInt32 := (x >>> (16 : UInt32)) &&& 0x8000
  let mant : UInt32 := x &&& 0x7FFFFF
  let exp₀ : Int := ((x >>> (23 : UInt32)) &&& 0xFF).toNat
  let exp : Int := exp₀ - 127 + 15
  if exp₀ = 0xFF then (sign ||| 0x7C00 ||| (if mant ≠ 0 then 0x200 else 0)).toUInt16
  else if exp ≥ 31 then (sign ||| 0x7C00).toUInt16
  else if exp ≤ 0 then
    if exp < -10 then sign.toUInt16
    else
      let mant : UInt32 := mant ||| 0x800000
      let shift : UInt32 := UInt32.ofNat (14 - exp).toNat
      let rem : UInt32 := mant &&& (((1 : UInt32) <<< shift) - 1)
      (sign ||| roundEven (mant >>> shift) rem ((1 : UInt32) <<< (shift - 1))).toUInt16
  else
    let h : UInt32 := (UInt32.ofNat exp.toNat <<< (10 : UInt32)) ||| (mant >>> (13 : UInt32))
    (sign ||| roundEven h (mant &&& 0x1FFF) 0x1000).toUInt16

section Half
variable {F : Type} (O : FloatOps F)

def tqHalfToFloat (h : UInt16) : F := O.ofBits (halfToFloatBits h)

def tqFloatToHalf (f : F) : UInt16 := floatBitsToHalf (O.toBits f)

end Half

end TinyLlm
