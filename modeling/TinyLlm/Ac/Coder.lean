/-
# `TinyLlm.Ac.Coder` — the range coder of `tq_ac.c`

The encoder and the decoder as the C computes them: `low` is 64 bits wide,
`range`, `code` and `r` are 32 bits wide, and every operation on them wraps.
A definition returns `none` where the C would divide by zero or stay in its
`while (range < TQ_AC_TOP)` loop for ever, which it does exactly when the
range has become zero.

`buf` is the written part of the caller's buffer, so `len` is its length.
`pending` counts bytes that are owed to the buffer.  It is a `Nat` here: the
64-bit counter of the C could wrap only after `2 ^ 64` deferred bytes, more
than any `cap` admits.
-/
import Mathlib.Data.UInt
import Mathlib.Data.List.DropRight
import TinyLlm.Lib.Loop

namespace TinyLlm

open Loop

/-- `TQ_AC_TOT`, the total of every count table of the token codec. -/
def tqAcTot : UInt32 := (1 : UInt32) <<< (16 : UInt32)

/-- `TQ_AC_TOP`, the floor under the range. -/
def tqAcTop : UInt32 := (1 : UInt32) <<< (24 : UInt32)

/-! ## The encoder -/

structure TqAcEnc where
  buf : List UInt8
  cap : Nat
  low : UInt64
  range : UInt32
  cache : UInt8
  pending : Nat
  primed : Bool
  finished : Bool
  overflow : Bool
deriving DecidableEq, Repr

def tqAcEncInit (cap : Nat) : TqAcEnc :=
  { buf := [], cap := cap, low := 0, range := 0xFFFFFFFF, cache := 0, pending := 0,
    primed := false, finished := false, overflow := false }

def tqAcPut (e : TqAcEnc) (byte : UInt8) : TqAcEnc :=
  if e.buf.length < e.cap then { e with buf := e.buf ++ [byte] }
  else { e with overflow := true }

/-- `while (e->pending != 0u) { tq_ac_put(e, 0xFFu + carry); e->pending--; }` -/
def tqAcDrain (carry : UInt8) : Nat → TqAcEnc → TqAcEnc
  | 0, e => { e with pending := 0 }
  | n + 1, e => tqAcDrain carry n (tqAcPut e (0xFF + carry))

/-- The branch of `tq_ac_shift_low` that settles the cached byte and the run
of pending `0xFF`s, given the carry. -/
def tqAcSettle (e : TqAcEnc) : TqAcEnc :=
  let carry := (e.low >>> 32).toUInt8
  let e₁ := if e.primed then tqAcPut e (e.cache + carry) else e
  { tqAcDrain carry e.pending e₁ with cache := (e.low >>> 24).toUInt8, primed := true }

def tqAcShiftLow (e : TqAcEnc) : TqAcEnc :=
  let e₁ :=
    if (e.low >>> 32).toUInt32 ≠ 0 ∨ e.low.toUInt32 < 0xFF000000 then tqAcSettle e
    else { e with pending := e.pending + 1 }
  { e₁ with low := (e.low.toUInt32 <<< 8).toUInt64 }

/-- The renormalising loop.  Three rounds bring any positive range to the
floor, so the fuel runs out only when the range is zero. -/
def tqAcEncRenorm (e : TqAcEnc) : Option TqAcEnc :=
  whileFuel (fun e => decide (e.range < tqAcTop))
    (fun e => { tqAcShiftLow e with range := e.range <<< 8 }) 3 e

def tqAcEncSym (e : TqAcEnc) (cum freq tot : UInt32) : Option TqAcEnc :=
  if tot = 0 then none
  else
    let r := e.range / tot
    tqAcEncRenorm { e with low := e.low + r.toUInt64 * cum.toUInt64, range := r * freq }

/-- The rounding loop of `tq_ac_enc_finish`: the first rounding of `low` that
stays inside the interval. -/
def tqAcRound (e : TqAcEnc) : List Nat → UInt64
  | [] => e.low
  | i :: is =>
      let mask : UInt32 := if i = 4 then 0 else 0xFFFFFFFF >>> UInt32.ofNat (8 * i)
      let v := (e.low + mask.toUInt64) &&& ~~~mask.toUInt64
      if v < e.low + e.range.toUInt64 then v else tqAcRound e is

/-- `low` becomes the point of the interval that the message will spell. -/
def tqAcEncPick (e : TqAcEnc) (v : UInt64) : TqAcEnc := { e with finished := true, low := v }

/-- `while (e->len > 0 && e->buf[e->len - 1] == 0u) e->len--;` -/
def tqAcEncStrip (e : TqAcEnc) : TqAcEnc := { e with buf := e.buf.rdropWhile (· == 0) }

@[simp] theorem tqAcEncStrip_overflow (e : TqAcEnc) : (tqAcEncStrip e).overflow = e.overflow := rfl

@[simp] theorem tqAcEncStrip_buf (e : TqAcEnc) :
    (tqAcEncStrip e).buf = e.buf.rdropWhile (· == 0) := rfl

@[simp] theorem tqAcEncPick_low (e : TqAcEnc) (v : UInt64) : (tqAcEncPick e v).low = v := rfl

@[simp] theorem tqAcEncPick_overflow (e : TqAcEnc) (v : UInt64) :
    (tqAcEncPick e v).overflow = e.overflow := rfl

def tqAcEncFinish (e : TqAcEnc) : TqAcEnc :=
  if e.finished then e
  else tqAcEncStrip (tqAcShiftLow^[5] (tqAcEncPick e (tqAcRound e [1, 2, 3, 4])))

/-! ## The decoder -/

structure TqAcDec where
  buf : List UInt8
  pos : Nat
  range : UInt32
  code : UInt32
  r : UInt32
  starved : Bool
deriving DecidableEq, Repr

/-- One round of the loop of `tq_ac_dec_init`, which reads a zero past the
end of the buffer without noting it. -/
def tqAcDecLoad (d : TqAcDec) : TqAcDec :=
  match d.buf[d.pos]? with
  | some b => { d with code := (d.code <<< 8) ||| b.toUInt32, pos := d.pos + 1 }
  | none => { d with code := (d.code <<< 8) ||| 0 }

def tqAcDecInit (buf : List UInt8) : TqAcDec :=
  tqAcDecLoad^[4]
    { buf := buf, pos := 0, range := 0xFFFFFFFF, code := 0, r := 0, starved := false }

def tqAcGet (d : TqAcDec) : UInt32 × TqAcDec :=
  match d.buf[d.pos]? with
  | some b => (b.toUInt32, { d with pos := d.pos + 1 })
  | none => (0, { d with starved := true })

/-- One round of the loop of `tq_ac_dec_update`. -/
def tqAcDecShift (d : TqAcDec) : TqAcDec :=
  let got := tqAcGet d
  { got.2 with code := (d.code <<< 8) ||| got.1, range := d.range <<< 8 }

def tqAcDecTarget (d : TqAcDec) (tot : UInt32) : Option (UInt32 × TqAcDec) :=
  if tot = 0 then none
  else
    let r := d.range / tot
    if r = 0 then none
    else
      let t := d.code / r
      some (if t ≥ tot then tot - 1 else t, { d with r := r })

def tqAcDecUpdate (d : TqAcDec) (cum freq : UInt32) : Option TqAcDec :=
  whileFuel (fun d => decide (d.range < tqAcTop)) tqAcDecShift 3
    { d with code := d.code - cum * d.r, range := d.r * freq }

end TinyLlm
