/-
# `TinyLlm.Forward.Transformer` — what a decode step is meant to compute

The network that a model file stands for, as functions on vectors: RMS norms,
matrices times quantized vectors, rotations, grouped-query attention and SwiGLU.
There is no memory in it, no buffer is used twice, and nothing is cached: the
state of a position behind a layer is a function of the tokens
(`Causal.Net.hidden`).  A vector is a function of the index, of which only the
first elements count.

Float operations are not associative, so the order of each sum is part of what
is computed, and so is the type of the cache: a key that went through a byte
cache is not the key that was stored (`keyDot`, `valueTerm`).
-/
import TinyLlm.Lib.Causal
import TinyLlm.Forward.Ops
import TinyLlm.Kernels.Dequant

namespace TinyLlm

open Loop Bytes Causal

section Vectors
variable {F : Type} (O : FloatOps F)

/-! ## Vectors -/

/-- The RMS norm of a vector of `n` elements, weighted. -/
def normed (n : Nat) (eps : F) (w x : Nat → F) : Nat → F :=
  fun i => O.mul (w i) (O.mul (rmsScale O n eps x) (x i))

/-- The blocks that a vector is quantized to. -/
def quantized (x : Nat → F) : Nat → TqBlockQ80 :=
  fun b => quantizeBlock O fun j => x (b * tqGroupSize + j)

def softmaxed (n : Nat) (x : Nat → F) : Nat → F :=
  let e := fun i => O.tqExpf (O.sub (x i) (softmaxMax O n x))
  let sum := forUp n (fun i s => O.add s (e i)) (O.ofInt 0)
  fun i => O.mul (e i) (O.div (O.ofInt 1) sum)

/-- `silu(v) * w`. -/
def swiglu (v w : Nat → F) : Nat → F := fun i =>
  O.mul (O.div (v i) (O.add (O.ofInt 1) (O.tqExpf (O.neg (v i))))) (w i)

/-! ## Weights -/

section Weights
variable (image : List UInt8) (m : TqModel)

/-- Floats at an offset. -/
def vectorAt (off : Nat) : Nat → F := fun i => O.ofBits (UInt32.ofNat (leAt image (off + 4 * i) 4))

/-- The bytes of a row of a quantized matrix of `n` columns. -/
def matrixRow (off n r : Nat) : List UInt8 :=
  slice image (off + tqDtypeNbytes m.qtype n * r) (tqDtypeNbytes m.qtype n)

/-- A matrix of `n` columns times a vector, which is quantized for it. -/
def project (off n : Nat) (x : Nat → F) : Nat → F := fun r =>
  rowDot O m.qtype (matrixRow image m off n r) (quantized O x) (n / tqGroupSize)

def embedding (token : Nat) : Nat → F :=
  dequantAt O (matrixRow image m m.tokEmb m.dim token) m.qtype

end Weights

/-! ## Attention -/

section Attention
variable (m : TqModel)

/-- The angle of a pair at a position. -/
def ropeAngle (pos i : Nat) : F :=
  O.mul (O.ofInt pos) (O.div (O.ofInt 1) (O.tqPowf (O.ofBits (UInt32.ofNat m.hdr.ropeTheta))
    (O.div (O.ofInt (2 * i)) (O.ofInt m.headSize))))

/-- The pairs of every head rotated; the last element of a head of odd size stays. -/
def roped (pos : Nat) (v : Nat → F) : Nat → F := fun i =>
  let j := i % m.headSize
  let c := O.tqCosf (ropeAngle O m pos (j / 2))
  let s := O.tqSinf (ropeAngle O m pos (j / 2))
  if j % 2 = 1 then O.add (O.mul (v (i - 1)) s) (O.mul (v i) c)
  else if j + 1 < m.headSize then O.sub (O.mul (v i) c) (O.mul (v (i + 1)) s)
  else v i

/-- The key and the value of a position in a layer. -/
structure KvRow (F : Type) where
  key : Nat → F
  value : Nat → F

/-- The scale of a head in a byte cache. -/
def headScale (v : Nat → F) (h : Nat) : F :=
  O.div (absMax O m.headSize fun i => v (h * m.headSize + i)) (O.ofInt 127)

/-- What a byte cache keeps of element `i` of a head. -/
def headByte (v : Nat → F) (h i : Nat) : Int8 :=
  let ks := headScale O m v h
  let ki := if O.beq ks (O.ofInt 0) then O.ofInt 0 else O.div (O.ofInt 1) ks
  Int8.ofInt (roundClamp O (O.mul (v (h * m.headSize + i)) ki))

/-- The query at `qo` times a key. -/
def keyDot (kv : TqKv) (row : KvRow F) (kvh : Nat) (q : Nat → F) (qo : Nat) : F :=
  match kv with
  | .f32 =>
    forUp m.headSize (fun i s => O.add s (O.mul (q (qo + i)) (row.key (kvh * m.headSize + i))))
    (O.ofInt 0)
  | .q8 =>
      O.mul (forUp m.headSize (fun i s =>
        O.add s (O.mul (q (qo + i)) (O.ofInt (headByte O m row.key kvh i).toInt))) (O.ofInt 0))
        (headScale O m row.key kvh)

/-- Element `i` of a value, weighted with `a`. -/
def valueTerm (kv : TqKv) (row : KvRow F) (a : F) (kvh i : Nat) : F :=
  match kv with
  | .f32 => O.mul a (row.value (kvh * m.headSize + i))
  | .q8 =>
    O.mul (O.mul a (headScale O m row.value kvh)) (O.ofInt (headByte O m row.value kvh i).toInt)

/-- `1 / sqrt(head_size)`. -/
def invSqrtHeadSize : F := O.div (O.ofInt 1) (O.sqrt (O.ofInt m.headSize))

/-- The weights of a head at a position. -/
def headWeights (kv : TqKv) (pos : Nat) (q : Nat → F) (rows : Nat → KvRow F) (h : Nat) : Nat → F :=
  softmaxed O (pos + 1) fun t =>
    O.mul (keyDot O m kv (rows t) (h / m.kvMul) q (h * m.headSize)) (invSqrtHeadSize O m)

/-- Element `j` of what a head sees. -/
def headOut (kv : TqKv) (pos : Nat) (q : Nat → F) (rows : Nat → KvRow F) (h j : Nat) : F :=
  forUp (pos + 1) (fun t acc =>
    O.add acc (valueTerm O m kv (rows t) (headWeights O m kv pos q rows h t) (h / m.kvMul) j))
      (O.ofInt 0)

/-- All heads, one after the other. -/
def attended (kv : TqKv) (pos : Nat) (q : Nat → F) (rows : Nat → KvRow F) : Nat → F := fun i =>
  headOut O m kv pos q rows (i / m.headSize) (i % m.headSize)

end Attention

/-! ## The network -/

section Network
variable (image : List UInt8) (m : TqModel)

/-- The vector that a layer projects, behind the norm whose weights are at `off`. -/
def normedAt (off : Nat) (x : Nat → F) : Nat → F :=
  normed O m.dim (normEps O m) (vectorAt O image off) x

/-- The key and the value that a layer makes of a state. -/
def kvRowOf (l pos : Nat) (x : Nat → F) : KvRow F where
  key := roped O m pos
    (project O image m (m.layers l .wk) m.dim (normedAt O image m (m.layers l .rmsAtt) x))
  value := project O image m (m.layers l .wv) m.dim (normedAt O image m (m.layers l .rmsAtt) x)

/-- The state behind the attention of a layer. -/
def attentionOut (kv : TqKv) (l pos : Nat) (x : Nat → F) (rows : Nat → KvRow F) :
    Nat → F := fun i =>
  let q := roped O m pos
    (project O image m (m.layers l .wq) m.dim (normedAt O image m (m.layers l .rmsAtt) x))
  O.add (x i) (project O image m (m.layers l .wo) m.dim (attended O m kv pos q rows) i)

/-- The state behind its feed-forward half. -/
def feedForwardOut (l : Nat) (x : Nat → F) : Nat → F := fun i =>
  let xb := normedAt O image m (m.layers l .rmsFfn) x
  let hb := swiglu O (project O image m (m.layers l .w1) m.dim xb)
    (project O image m (m.layers l .w3) m.dim xb)
  O.add (x i) (project O image m (m.layers l .w2) m.hiddenDim hb i)

/-- The transformer of a model file, with the logits of a position as its answer. -/
def transformer (kv : TqKv) : Net Int (Nat → F) (KvRow F) (Nat → F) where
  layers := m.nLayers
  embed token := embedding O image m token.toNat
  row := kvRowOf O image m
  out l pos x rows := feedForwardOut O image m l (attentionOut O image m kv l pos x rows)
  answer x := project O image m m.classifier m.dim (normedAt O image m m.rmsFinal x)

end Network

/-! ## Rows behind a position -/

/-- A softmax is taken of `n` elements. -/
theorem softmaxed_congr {n : Nat} (hn : 0 < n) {x y : Nat → F} (h : ∀ i < n, x i = y i) {i : Nat}
    (hi : i < n) :
    softmaxed O n x i = softmaxed O n y i := by
  have hmax : softmaxMax O n x = softmaxMax O n y := by
    unfold softmaxMax
    rw [h 0 hn]
    refine forUp_congr _ fun j hj max => ?_
    rw [h (j + 1) (Nat.add_lt_of_lt_sub hj)]
  have hsum : forUp n (fun i s => O.add s (O.tqExpf (O.sub (x i) (softmaxMax O n x)))) (O.ofInt 0) =
      forUp n (fun i s => O.add s (O.tqExpf (O.sub (y i) (softmaxMax O n y)))) (O.ofInt 0) := by
    refine forUp_congr _ fun j hj s => ?_
    rw [h j hj, hmax]
  unfold softmaxed
  dsimp only
  rw [hsum, hmax, h i hi]

/-- **The network does not look ahead.** -/
theorem transformer_looksBack (image : List UInt8) (m : TqModel) (kv : TqKv) :
    (transformer O image m kv).LooksBack := by
  intro l _ pos x rows rows' hrows
  have hweights : ∀ q h t, t < pos + 1 → headWeights O m kv pos q rows h t =
      headWeights O m kv pos q rows' h t := by
    intro q h t ht
    refine softmaxed_congr O (Nat.succ_pos pos) (fun u hu => ?_) ht
    rw [hrows u (Nat.le_of_lt_succ hu)]
  have hattended : ∀ q, attended O m kv pos q rows = attended O m kv pos q rows' := by
    intro q
    funext i
    unfold attended headOut
    refine forUp_congr _ fun t ht acc => ?_
    rw [hrows t (Nat.le_of_lt_succ ht), hweights q _ t ht]
  show feedForwardOut O image m l _ = feedForwardOut O image m l _
  unfold attentionOut
  dsimp only
  rw [hattended]

/-- **No later token counts.** -/
theorem transformer_answers (image : List UInt8) (m : TqModel) (kv : TqKv)
    {tokens tokens' : Nat → Int} {pos : Nat} (htokens : ∀ t ≤ pos, tokens t = tokens' t) :
    (transformer O image m kv).answers tokens pos =
      (transformer O image m kv).answers tokens' pos :=
  (transformer_looksBack O image m kv).answers htokens

end Vectors

end TinyLlm
