/-
# `TinyLlm.Sample.Sampler` — `tq_sample`

Greedy, temperature and nucleus sampling.  The nucleus branch keeps the entries
that reach a cutoff, sorts them and draws from the shortest prefix whose sum
exceeds `topp`; where no entry reaches the cutoff it answers with the largest.

`tqNucleus` is that branch, given the softmaxed logits and the draw.
-/
import TinyLlm.Kernels.Float
import TinyLlm.Sample.Heapsort

namespace TinyLlm

open Loop

/-! ## The generator -/

/-- xorshift64*: the number and the next state. -/
def tqRandU32 (s : UInt64) : UInt32 × UInt64 :=
  let x := s ^^^ (s >>> 12)
  let x := x ^^^ (x <<< 25)
  let x := x ^^^ (x >>> 27)
  (((x * 0x2545F4914F6CDD1D) >>> 32).toUInt32, x)

section Ops
variable {F : Type} (O : FloatOps F)

/-- 24 bits of it, as a fraction. -/
def tqRandF32 (s : UInt64) : F × UInt64 :=
  let (u, s) := tqRandU32 s
  (O.mul (O.ofInt (u >>> 8).toNat) (O.div (O.ofInt 1) (O.ofInt 16777216)), s)

/-- `idx` and `prob` are scratch that may be missing. -/
structure TqSampler (F : Type) where
  rng : UInt64
  temperature : F
  topp : F
  vocabSize : Nat
  idx : Option (Nat → Int)
  prob : Option (Nat → F)

def tqSamplerInit (vocabSize : Nat) (temperature topp : F) (seed : UInt64)
    (idx : Option (Nat → Int)) (prob : Option (Nat → F)) : TqSampler F where
  rng := if seed ≠ 0 then seed else 0x853c49e6748fea9b
  temperature := temperature
  topp := topp
  vocabSize := vocabSize
  idx := idx
  prob := prob

/-- `a <= b`. -/
def FloatOps.le (a b : F) : Bool := O.lt a b || O.beq a b

def tqArgmax (v : Nat → F) (n : Nat) : Nat :=
  forUp (n - 1) (fun k best => if O.lt (v best) (v (k + 1)) then k + 1 else best) 0

/-! ## The distribution -/

/-- `for (i = 0; i < n; i++) a[i] = f(a[i]);` -/
def mapTo (n : Nat) (f : F → F) (a : Nat → F) : Nat → F := fun i => if i < n then f (a i) else a i

/-- `softmax(logits / T)`. -/
def softmaxLogits (temperature : F) (n : Nat) (logits : Nat → F) : Nat → F :=
  let invT := O.div (O.ofInt 1) temperature
  let logits := mapTo n (fun x => O.mul x invT) logits
  let max := logits (tqArgmax O logits n)
  let logits := mapTo n (fun x => O.tqExpf (O.sub x max)) logits
  let sum := forUp n (fun i sum => O.add sum (logits i)) (O.ofInt 0)
  let sum := O.div (O.ofInt 1) sum
  mapTo n (fun x => O.mul x sum) logits

/-- The first of `left` positions, from `i` on, at which the sum of `p` passes `r`. -/
def pickFrom (p : Nat → F) (r : F) : Nat → Nat → F → Option Nat
  | 0, _, _ => none
  | left + 1, i, cdf =>
      let cdf := O.add cdf (p i)
      if O.lt r cdf then some i else pickFrom p r left (i + 1) cdf

/-! ## The nucleus -/

/-- The entries from the cutoff on, and how many there are. -/
def survivors (cutoff : F) (n : Nat) (p : Nat → F) (s : Candidates F Int) :
    Candidates F Int × Nat :=
  forUp n (fun i (s, k) =>
    if O.le cutoff (p i) then
      (⟨Function.update s.prob k (p i), Function.update s.idx k (i : Int)⟩, k + 1)
    else (s, k)) (s, 0)

/-- Where the sum of `p` exceeds `topp`, if it does, and the sum up to there. -/
def cutFrom (p : Nat → F) (topp : F) : Nat → Nat → F → Option Nat × F
  | 0, _, cum => (none, cum)
  | left + 1, i, cum =>
      let cum := O.add cum (p i)
      if O.lt topp cum then (some i, cum) else cutFrom p topp left (i + 1) cum

/-- The branch, with what the generator would draw: the token, the generator's
state and the scratch. -/
def tqNucleus (topp : F) (n : Nat) (p : Nat → F) (s : Candidates F Int) (rng : UInt64)
    (draw : F × UInt64) :
    Option (Int × UInt64 × Candidates F Int) :=
  let cutoff := O.div (O.sub (O.ofInt 1) topp) (O.ofInt ((n : Int) - 1))
  let (s, k) := survivors O cutoff n p s
  if k = 0 then some (tqArgmax O p n, rng, s)
  else do
    let s ← s.tqHeapsortDesc O.lt k
    let (cut, cum) := cutFrom O s.prob topp k 0 (O.ofInt 0)
    let last := cut.getD (k - 1)
    let r := O.mul draw.1 cum
    some (s.idx ((pickFrom O s.prob r (last + 1) 0 (O.ofInt 0)).getD last), draw.2, s)

/-- The token, the sampler and the logits, which are softmaxed in place. -/
def tqSample (s : TqSampler F) (logits : Nat → F) : Option (Int × TqSampler F × (Nat → F)) :=
  let n := s.vocabSize
  if O.le s.temperature (O.ofInt 0) then some (tqArgmax O logits n, s, logits)
  else
    let logits := softmaxLogits O s.temperature n logits
    let (r, rng) := tqRandF32 O s.rng
    let multinomial : Int × TqSampler F × (Nat → F) :=
      (((pickFrom O logits r n 0 (O.ofInt 0)).elim ((n : Int) - 1) fun i => i),
        { s with rng := rng }, logits)
    if O.le s.topp (O.ofInt 0) || O.le (O.ofInt 1) s.topp then some multinomial
    else
      match s.idx, s.prob with
      | some idx, some prob =>
          (tqNucleus O s.topp n logits ⟨prob, idx⟩ s.rng (r, rng)).map fun (token, rng, c) =>
            (token, { s with rng := rng, idx := some c.idx, prob := some c.prob }, logits)
      | _, _ => some multinomial

end Ops

end TinyLlm
