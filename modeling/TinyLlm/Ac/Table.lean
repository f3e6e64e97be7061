/-
# `TinyLlm.Ac.Table` — the count tables of `tq_ac.c`

The probability table of one decode step: integer weights `2 ^ delta` in Q24,
normalised to counts that sum to `TQ_AC_TOT`.  The floats end before this
file: `deltaQ16 logit max` is `tq_ac_delta_q16` and `gt` is the comparison of
two logits, and nothing is assumed of either.  A NaN is a value on which `gt`
answers as it likes.

An array is a function on the index, and a loop writes the indices it visits
and leaves the others as they were, so `bcnt`, `scnt` and `w` carry whatever
an earlier call left in them.
-/
import Mathlib.Data.UInt
import Mathlib.Logic.Function.Basic
import TinyLlm.Ac.Coder
import TinyLlm.Status

namespace TinyLlm

/-- `TQ_AC_BUCKET`. -/
def tqAcBucket : Nat := 128

/-- `TQ_AC_MAX_BUCKETS`. -/
def tqAcMaxBuckets : Nat := 512

/-- `TQ_AC_MAX_VOCAB`. -/
def tqAcMaxVocab : Nat := tqAcBucket * tqAcMaxBuckets

/-- `for (i = 0; i < n; i++) a[i] = f(i);` -/
def fill {α : Type} (a : Nat → α) (n : Nat) (f : Nat → α) : Nat → α :=
  fun i => if i < n then f i else a i

theorem fill_lt {α : Type} {a : Nat → α} {n : Nat} {f : Nat → α} {i : Nat} (h : i < n) :
    fill a n f i = f i :=
  if_pos h

/-! ## Fixed-point exp2 -/

/-- `TQ_EXP2_C`. -/
def tqExp2C : List Nat := [16777216, 11629076, 4030398, 930811, 162474, 20789, 3668]

/-- `2 ^ (x / 65536)` in Q24.  Every intermediate is a non-negative integer
below `2 ^ 42`, so the `int64_t` accumulator is a `Nat`. -/
def tqAcExp2Q24 (xQ16 : Int) : UInt32 :=
  let x := if xQ16 > 0 then 0 else xQ16
  let ip := x / 65536
  let f := (x % 65536).toNat
  let acc := [5, 4, 3, 2, 1, 0].foldl (fun acc k => acc * f / 65536 + tqExp2C.getD k 0)
    (tqExp2C.getD 6 0)
  let sh := -ip
  if sh ≥ 32 then 0 else UInt32.ofNat (acc / 2 ^ sh.toNat)

/-! ## Counts -/

structure TqAcModel where
  vocab : Nat
  nbuckets : Nat
  bucket : Int
  bcnt : Nat → UInt32
  scnt : Nat → UInt32
  w : Nat → UInt64

def tqAcModelInit (vocab : Int) : Except TqStatus TqAcModel :=
  if vocab < 1 ∨ vocab > tqAcMaxVocab then .error .errRange
  else
    .ok { vocab := vocab.toNat, nbuckets := (vocab.toNat + tqAcBucket - 1) / tqAcBucket,
          bucket := -1, bcnt := fun _ => 0, scnt := fun _ => 0, w := fun _ => 0 }

/-- The first loop of `tq_ac_normalize`: the sum and the first heaviest index. -/
def tqAcSumTop (w : Nat → UInt64) : Nat → UInt64 × Nat
  | 0 => (0, 0)
  | i + 1 =>
      let st := tqAcSumTop w i
      (st.1 + w i, if w i > w st.2 then i else st.2)

/-- Cumulative count below index `i`. -/
def tqAcCum (cnt : Nat → UInt32) : Nat → UInt32
  | 0 => 0
  | k + 1 => tqAcCum cnt k + cnt k

/-- `cnt[top] += d;` -/
def tqAcRaise (cnt : Nat → UInt32) (top : Nat) (d : UInt32) : Nat → UInt32 :=
  Function.update cnt top (cnt top + d)

def tqAcNormalize (cnt : Nat → UInt32) (w : Nat → UInt64) (n : Nat) : Nat → UInt32 :=
  let sum := (tqAcSumTop w n).1
  let top := (tqAcSumTop w n).2
  let spread := tqAcTot - UInt32.ofNat n
  if sum = 0 then tqAcRaise (fill cnt n fun _ => 1) top spread
  else
    let cnt₁ := fill cnt n fun i => 1 + (w i * spread.toUInt64 / sum).toUInt32
    let used := tqAcCum cnt₁ n
    tqAcRaise cnt₁ top (tqAcTot - used)

section Logits
variable {F : Type} (gt : F → F → Bool) (deltaQ16 : F → F → Int)

/-- `max` after `k` rounds of the loop that starts at `logits[base + 1]`. -/
def tqAcMax (logits : Nat → F) (base : Nat) : Nat → F
  | 0 => logits base
  | k + 1 =>
      let max := tqAcMax logits base k
      if gt (logits (base + (k + 1))) max then logits (base + (k + 1)) else max

/-- The loop that adds every symbol's weight to its bucket. -/
def tqAcBucketWeights (logits : Nat → F) (max : F) (w : Nat → UInt64) : Nat → Nat → UInt64
  | 0 => w
  | i + 1 =>
      let w₁ := tqAcBucketWeights logits max w i
      let b := i / tqAcBucket
      Function.update w₁ b (w₁ b + (tqAcExp2Q24 (deltaQ16 (logits i) max)).toUInt64)

def tqAcBucketCounts (pm : TqAcModel) (logits : Nat → F) : TqAcModel :=
  let max := tqAcMax gt logits 0 (pm.vocab - 1)
  let w₀ := fill pm.w pm.nbuckets fun _ => 0
  let w := tqAcBucketWeights deltaQ16 logits max w₀ pm.vocab
  { pm with w := w, bcnt := tqAcNormalize pm.bcnt w pm.nbuckets }

/-- `n`, the number of symbols in a bucket: 128, fewer in the last one. -/
def tqAcBucketSize (pm : TqAcModel) (bucket : Nat) : Nat :=
  min (pm.vocab - bucket * tqAcBucket) tqAcBucket

def tqAcSymbolCounts (pm : TqAcModel) (logits : Nat → F) (bucket : Nat) : TqAcModel :=
  let base := bucket * tqAcBucket
  let n := tqAcBucketSize pm bucket
  let max := tqAcMax gt logits base (n - 1)
  let w := fill pm.w n fun i => (tqAcExp2Q24 (deltaQ16 (logits (base + i)) max)).toUInt64
  { pm with w := w, scnt := tqAcNormalize pm.scnt w n, bucket := bucket }

end Logits

/-! ## The token codec -/

/-- The loop of `tq_ac_find` with `k` entries still to test, `c` counts below them. -/
def tqAcFindFrom (cnt : Nat → UInt32) (n : Nat) (target : UInt32) : Nat → UInt32 → Nat × UInt32
  | 0, c => (n - 1, c - cnt (n - 1))
  | k + 1, c =>
      let i := n - (k + 1)
      if target < c + cnt i then (i, c) else tqAcFindFrom cnt n target k (c + cnt i)

/-- The index whose slot holds `target`, and the count below it. -/
def tqAcFind (cnt : Nat → UInt32) (n : Nat) (target : UInt32) : Nat × UInt32 :=
  tqAcFindFrom cnt n target n 0

section Token
variable {F : Type} (gt : F → F → Bool) (deltaQ16 : F → F → Int)

/-- `none` where the coder does not return; see `TinyLlm.Ac.Coder`. -/
def tqAcEncToken (e : TqAcEnc) (pm : TqAcModel) (logits : Nat → F) (token : Int) :
    Option (TqStatus × TqAcEnc × TqAcModel) :=
  if token < 0 ∨ token ≥ pm.vocab then some (.errRange, e, pm)
  else
    let b := token.toNat / tqAcBucket
    let s := token.toNat % tqAcBucket
    let pm₁ := tqAcBucketCounts gt deltaQ16 pm logits
    do
      let e₁ ← tqAcEncSym e (tqAcCum pm₁.bcnt b) (pm₁.bcnt b) tqAcTot
      let pm₂ := tqAcSymbolCounts gt deltaQ16 pm₁ logits b
      let e₂ ← tqAcEncSym e₁ (tqAcCum pm₂.scnt s) (pm₂.scnt s) tqAcTot
      some (.ok, e₂, pm₂)

def tqAcDecToken (d : TqAcDec) (pm : TqAcModel) (logits : Nat → F) :
    Option (Except TqStatus Nat × TqAcDec × TqAcModel) :=
  let pm₁ := tqAcBucketCounts gt deltaQ16 pm logits
  do
    let (target, d₁) ← tqAcDecTarget d tqAcTot
    let (b, cum) := tqAcFind pm₁.bcnt pm₁.nbuckets target
    let d₂ ← tqAcDecUpdate d₁ cum (pm₁.bcnt b)
    let pm₂ := tqAcSymbolCounts gt deltaQ16 pm₁ logits b
    let n := tqAcBucketSize pm₂ b
    let (target₂, d₃) ← tqAcDecTarget d₂ tqAcTot
    let (s, cum₂) := tqAcFind pm₂.scnt n target₂
    let d₄ ← tqAcDecUpdate d₃ cum₂ (pm₂.scnt s)
    let token := b * tqAcBucket + s
    some (if token < pm.vocab then .ok token else .error .errTruncated, d₄, pm₂)

end Token

end TinyLlm
