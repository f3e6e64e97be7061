/-
# `TinyLlm.Convert.Reference` — the forward pass in numpy

`tools/etq/reference.py`, the oracle that the engine is tested against.  It sums
in double precision where the engine sums in single precision, so nothing is
said about its rounding: its numbers are those of an ordered field, and what
numpy does beyond field arithmetic is a parameter (`RefNumpy`).

A call is `none` where numpy or a dictionary raises; that a norm has as many
weights as a vector has elements is left to the file.  An array is a function of
its index, of which only the elements within its shape count.
-/
import Mathlib.Algebra.BigOperators.Group.Finset.Basic
import Mathlib.Algebra.Order.Field.Basic
import Mathlib.Data.Finset.Lattice.Fold
import TinyLlm.Convert.Reader

namespace TinyLlm.Etq

open Bytes Loop
open Finset (range nonempty_range_add_one)

/-- Floats and their bits, halves, truncation and the functions of numpy. -/
structure RefNumpy (R : Type) where
  float32 : UInt32 → R
  float16 : R → UInt16
  ofFloat16 : UInt16 → R
  trunc : R → Int
  sqrt : R → R
  exp : R → R
  cos : R → R
  sin : R → R
  power : R → R → R

section Arrays
variable {R : Type} [Field R] [LinearOrder R] (np : RefNumpy R)

/-- `x.max()` of `n + 1` elements. -/
def arrayMax (n : Nat) (x : Nat → R) : R := (range (n + 1)).sup' nonempty_range_add_one x

/-- The codes of block `b` and its scale, in `quantize_act`. -/
def quantizeAct (x : Nat → R) (b : Nat) : (Nat → Int) × R :=
  let v := fun j => x (b * tqGroupSize + j)
  let amax := arrayMax (tqGroupSize - 1) fun j => |v j|
  let d := np.ofFloat16 (np.float16 (amax / 127))
  let inv := if d ≠ 0 then 1 / d else 0
  (fun j =>
    let u := v j * inv
    min (max (np.trunc (if u < 0 then u - 1 / 2 else u + 1 / 2)) (-127)) 127, d)

/-- `unpack_weight`: the codes and the scales of `d` rows of `n` values. -/
def unpackWeight (payload : List UInt8) (dtype n d : Nat) :
    Option ((Nat → Nat → Nat → Int) × (Nat → Nat → R)) :=
  let nb := n / tqGroupSize
  if dtype = tqDtQ80 then
    if payload.length ≠ d * nb * 34 then none
    else
      some (fun r b k => (payload.getD ((r * nb + b) * 34 + 2 + k) 0).toInt8.toInt,
        fun r b => np.ofFloat16 (UInt16.ofNat (leAt payload ((r * nb + b) * 34) 2)))
  else if dtype = tqDtQ40 then
    if payload.length ≠ d * nb * 18 then none
    else
      let p := fun r b j => payload.getD ((r * nb + b) * 18 + 2 + j) 0
      let lo := fun r b j => ((p r b j &&& 0x0F).toNat : Int) - 8
      let hi := fun r b j => ((p r b j >>> 4).toNat : Int) - 8
      some (fun r b k => if k < 16 then lo r b k else hi r b (k - 16),
        fun r b => np.ofFloat16 (UInt16.ofNat (leAt payload ((r * nb + b) * 18) 2)))
  else none

/-- `Reader.array`, as doubles. -/
def Reader.array (r : Reader R) (name : List UInt8) : Option (Nat → R) := do
  let t ← r.get name
  let n := t.shape.prod
  if t.dtype = tqDtF32 then
    if t.payload.length ≠ 4 * n then none
    else some fun i => np.float32 (UInt32.ofNat (leAt t.payload (4 * i) 4))
  else if t.dtype = tqDtU32 then
    if t.payload.length ≠ 4 * n then none
    else some fun i => ((leAt t.payload (4 * i) 4 : Nat) : R)
  else if t.dtype = tqDtU8 then some fun i => ((t.payload.getD i 0).toNat : R)
  else
    let (q, s) ← unpackWeight np t.payload t.dtype n 1
    some fun i => q 0 (i / tqGroupSize) (i % tqGroupSize) * s 0 (i / tqGroupSize)

def rmsnorm (n : Nat) (x w : Nat → R) (eps : R) (i : Nat) : R :=
  w i * (x i / np.sqrt ((∑ j ∈ range n, x j * x j) / n + eps))

/-- `softmax` of `n + 1` elements. -/
def softmax (n : Nat) (x : Nat → R) (i : Nat) : R :=
  let e := fun i => np.exp (x i - arrayMax n x)
  e i / ∑ j ∈ range (n + 1), e j

/-- The rotation of the pairs of each row of `hs` elements, of `n`; numpy does
not broadcast the angles of `hs / 2` pairs over rows of odd length. -/
def rope (n hs : Nat) (cos sin : Nat → R) (v : Nat → R) : Option (Nat → R) :=
  if n % hs ≠ 0 ∨ hs % 2 ≠ 0 then none
  else some fun i =>
    let j := i % hs / 2
    if i % hs % 2 = 0 then v i * cos j - v (i + 1) * sin j else v (i - 1) * sin j + v i * cos j

end Arrays

section Model
variable {R : Type} [Field R] [LinearOrder R] (np : RefNumpy R) (r : Reader R)

/-- `Model.matvec`: the products of the blocks in integers. -/
def Reader.matvec (name : List UInt8) (x : Nat → R) (n d : Nat) : Option (Nat → R) := do
  let t ← r.get name
  let (wq, ws) ← unpackWeight np t.payload t.dtype n d
  if n % tqGroupSize ≠ 0 then none
  else some fun row => ∑ b ∈ range (n / tqGroupSize),
    ((∑ k ∈ range tqGroupSize, wq row b k * (quantizeAct np x b).1 k : Int) : R) * ws row b *
      (quantizeAct np x b).2

/-- `Model.embed`. -/
def Reader.embed (token : Nat) : Option (Nat → R) := do
  let t ← r.get (ascii "tok_emb")
  let stride := r.cfg.dim.toNat / tqGroupSize * (if t.dtype = tqDtQ80 then 34 else 18)
  let (q, s) ← unpackWeight np (slice t.payload (token * stride) stride) t.dtype r.cfg.dim.toNat 1
  some fun i => q 0 (i / tqGroupSize) (i % tqGroupSize) * s 0 (i / tqGroupSize)

def ReadConfig.headSize {R : Type} (c : ReadConfig R) : Nat := c.dim.toNat / c.nHeads.toNat

def ReadConfig.kvDim {R : Type} (c : ReadConfig R) : Nat := c.headSize * c.nKvHeads.toNat

/-- The angles of a position. -/
def Reader.angle (pos i : Nat) : R := pos * (1 / np.power r.cfg.ropeTheta (i * 2 / r.cfg.headSize))

/-- `kc` and `vc`, by layer and position, and the vector that runs through the layers. -/
structure RefState (R : Type) where
  kc : Nat → Nat → Nat → R
  vc : Nat → Nat → Nat → R
  x : Nat → R

/-- The scores of a head at a position, behind the softmax. -/
def Reader.headScores (pos h : Nat) (q : Nat → R) (k : Nat → Nat → R) : Nat → R :=
  let hs := r.cfg.headSize
  let kvh := h / (r.cfg.nHeads.toNat / r.cfg.nKvHeads.toNat)
  softmax np pos fun t => (∑ j ∈ range hs, k t (kvh * hs + j) * q (h * hs + j)) / np.sqrt hs

/-- `att_out`.  If the heads are not shared out evenly, the last one has no key. -/
def Reader.attOut (pos : Nat) (q : Nat → R) (k v : Nat → Nat → R) : Option (Nat → R) :=
  if r.cfg.nHeads.toNat % r.cfg.nKvHeads.toNat ≠ 0 then none
  else some fun i =>
    let hs := r.cfg.headSize
    let h := i / hs
    let kvh := h / (r.cfg.nHeads.toNat / r.cfg.nKvHeads.toNat)
    ∑ t ∈ range (pos + 1), r.headScores np pos h q k t * v t (kvh * hs + i % hs)

/-- A round of the loop over the layers. -/
def refLayer (pos l : Nat) (s : RefState R) : Option (RefState R) := do
  let c := r.cfg
  let dim := c.dim.toNat
  let cos := fun i => np.cos (r.angle np pos i)
  let sin := fun i => np.sin (r.angle np pos i)
  let xb := rmsnorm np dim s.x (← r.array np (layerName l .rmsAtt)) c.normEps
  let q ← rope dim c.headSize cos sin (← r.matvec np (layerName l .wq) xb dim dim)
  let k ← rope c.kvDim c.headSize cos sin (← r.matvec np (layerName l .wk) xb dim c.kvDim)
  let v ← r.matvec np (layerName l .wv) xb dim c.kvDim
  let kc := Function.update s.kc l (Function.update (s.kc l) pos k)
  let vc := Function.update s.vc l (Function.update (s.vc l) pos v)
  let attOut ← r.attOut np pos q (kc l) (vc l)
  let o ← r.matvec np (layerName l .wo) attOut dim dim
  let x := fun i => s.x i + o i
  let xb := rmsnorm np dim x (← r.array np (layerName l .rmsFfn)) c.normEps
  let h1 ← r.matvec np (layerName l .w1) xb dim c.hiddenDim.toNat
  let h3 ← r.matvec np (layerName l .w3) xb dim c.hiddenDim.toNat
  let hh := fun i => h1 i / (1 + np.exp (-h1 i)) * h3 i
  let o ← r.matvec np (layerName l .w2) hh c.hiddenDim.toNat dim
  some { kc := kc, vc := vc, x := fun i => x i + o i }

/-- A round of the loop over the tokens: the caches, and the logits. -/
def refToken (pos token : Nat) (s : RefState R) : Option (RefState R × (Nat → R)) := do
  let c := r.cfg
  let x ← r.embed np token
  let s ← forUpM (refLayer np r pos) c.nLayers.toNat { s with x := x }
  let xf := rmsnorm np c.dim.toNat s.x (← r.array np (ascii "rms_final")) c.normEps
  let cls := if c.sharedClassifier ≠ 0 then ascii "tok_emb" else ascii "cls"
  let logits ← r.matvec np cls xf c.dim.toNat c.vocabSize.toNat
  some (s, logits)

/-- The tokens from position `pos` on. -/
def refTokens : Nat → List Nat → RefState R → Option (List (Nat → R))
  | _, [], _ => some []
  | pos, token :: tokens, s => do
      let (s, logits) ← refToken np r pos token s
      let out ← refTokens (pos + 1) tokens s
      some (logits :: out)

end Model

/-- `generate_logits`: the logits after each token, `vocab_size` of them. -/
def generateLogits {R : Type} [Field R] [LinearOrder R] (np : RefNumpy R) (file : List UInt8)
    (tokens : List Nat) :
    Option (List (List R)) := do
  let r ← (read np.float32 file).toOption
  let out ← refTokens np r 0 tokens ⟨fun _ _ _ => 0, fun _ _ _ => 0, fun _ => 0⟩
  some (out.map fun logits => (List.range r.cfg.vocabSize.toNat).map logits)

end TinyLlm.Etq
