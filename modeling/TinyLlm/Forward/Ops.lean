/-
# `TinyLlm.Forward.Ops` — the parts of a decode step

The static functions of `tq_forward.c` and the kernels that read the store, as
operations on memory and programs on a machine.  A pointer argument is a buffer
and an offset in it, so an operation in place is the same operation with its
two arguments equal.
-/
import TinyLlm.Forward.Memory

namespace TinyLlm

open Loop Bytes Relational TqMemory

section Ops
variable {F : Type} (O : FloatOps F) {M : Type} [TqMemory F M]

/-! ## Primitives -/

/-- `ss`, the scale that `tq_rmsnorm` computes first. -/
def rmsScale (n : Nat) (eps : F) (x : Nat → F) : F :=
  let ss := forUp n (fun i ss => O.add ss (O.mul (x i) (x i))) (O.ofInt 0)
  O.div (O.ofInt 1) (O.sqrt (O.add (O.div ss (O.ofInt n)) eps))

def tqRmsnorm (out x : TqBuf) (w : Nat → F) (n : Nat) (eps : F) (mem : M) : M :=
  let ss := rmsScale O n eps (f mem x)
  forUp n (fun i mem => put mem (.f out i) (O.mul (w i) (O.mul ss (f mem x i)))) mem

/-- The largest of `x[0 .. n)`. -/
def softmaxMax (n : Nat) (x : Nat → F) : F :=
  forUp (n - 1) (fun i max => if O.lt max (x (i + 1)) then x (i + 1) else max) (x 0)

/-- `tq_softmax(x, n)` at offset `off` of a buffer. -/
def tqSoftmax (b : TqBuf) (off n : Nat) (mem : M) : M :=
  let max := softmaxMax O n fun i => f mem b (off + i)
  let exps := forUp n (fun i (s : M × F) =>
    let v := O.tqExpf (O.sub (f s.1 b (off + i)) max)
    (put s.1 (.f b (off + i)) v, O.add s.2 v)) (mem, O.ofInt 0)
  let sum := O.div (O.ofInt 1) exps.2
  forUp n (fun i mem => put mem (.f b (off + i)) (O.mul (f mem b (off + i)) sum)) exps.1

/-- `tq_quantize_q8` from a float buffer into a block buffer. -/
def tqQuantizeMem (x : TqBuf) (out : TqQuant) (n : Nat) (mem : M) : M :=
  forUp (n / tqGroupSize) (fun b mem =>
    put mem (.blk out b) (quantizeBlock O fun j => f mem x (b * tqGroupSize + j))) mem

/-- `for (i = 0; i < n; i++) x[i] += y[i];` -/
def tqAddInto (x y : TqBuf) (n : Nat) (mem : M) : M :=
  forUp n (fun i mem => put mem (.f x i) (O.add (f mem x i) (f mem y i))) mem

/-- The SwiGLU loop over `hb` and `hb3`. -/
def tqSwiglu (n : Nat) (mem : M) : M :=
  forUp n (fun i mem =>
    let v := f mem .hb i
    put mem (.f .hb i)
      (O.mul (O.div v (O.add (O.ofInt 1) (O.tqExpf (O.neg v)))) (f mem .hb3 i))) mem

/-! ## The KV cache -/

/-- The largest magnitude of `n` values. -/
def absMax (n : Nat) (k : Nat → F) : F :=
  forUp n (fun i ka =>
    let a := if O.lt (k i) (O.ofInt 0) then O.neg (k i) else k i
    if O.lt ka a then a else ka) (O.ofInt 0)

/-- One head of the byte branch of `tq_kv_store`: the scale and the values. -/
def tqKvQuantHead (cache : TqBytes) (scale src : TqBuf) (headSize idx sidx off : Nat)
    (mem : M) : M :=
  let ks := O.div (absMax O headSize fun i => f mem src (off + i)) (O.ofInt 127)
  let mem := put mem (.f scale sidx) ks
  let ki := if O.beq ks (O.ofInt 0) then O.ofInt 0 else O.div (O.ofInt 1) ks
  forUp headSize (fun i mem =>
    put mem (.i8 cache (idx + (off + i)))
      (Int8.ofInt (roundClamp O (O.mul (f mem src (off + i)) ki)))) mem

section Cache
variable (m : TqModel) (rt : TqRuntime)

/-- The row of a position in a layer: `layer * max_seq + pos`. -/
def kvRow (layer pos : Nat) : Nat := layer * rt.maxSeq + pos

def tqKvStore (layer pos : Nat) (mem : M) : M :=
  let idx := kvRow rt layer pos * m.kvDim
  match rt.kvDtype with
  | .f32 =>
      let mem : M := forUp m.kvDim (fun i mem => put mem (.f .kCache (idx + i)) (f mem .kb i)) mem
      forUp m.kvDim (fun i mem => put mem (.f .vCache (idx + i)) (f mem .vb i)) mem
  | .q8 =>
      let sidx := kvRow rt layer pos * m.nKvHeads
      forUp m.nKvHeads (fun h mem =>
        let off := h * m.headSize
        let mem := tqKvQuantHead O .kCache .kScale .kb m.headSize idx (sidx + h) off mem
        tqKvQuantHead O .vCache .vScale .vb m.headSize idx (sidx + h) off mem) mem

/-- `q . K[layer][t][kvh]`, the query at offset `qo`. -/
def tqKvDotK (layer t kvh qo : Nat) (mem : M) : F :=
  let idx := kvRow rt layer t * m.kvDim + kvh * m.headSize
  match rt.kvDtype with
  | .f32 =>
      forUp m.headSize (fun i s =>
        O.add s (O.mul (f mem .q (qo + i)) (f mem .kCache (idx + i)))) (O.ofInt 0)
  | .q8 =>
      let sidx := kvRow rt layer t * m.nKvHeads + kvh
      O.mul (forUp m.headSize (fun i s =>
        O.add s (O.mul (f mem .q (qo + i)) (O.ofInt (i8 mem .kCache (idx + i)).toInt)))
        (O.ofInt 0)) (f mem .kScale sidx)

/-- `out[0 .. head_size) += a * V[layer][t][kvh]`, with `out` at offset `oo` of
`xb` and `a` the attention weight at `ao`. -/
def tqKvAccV (layer t kvh ao oo : Nat) (mem : M) : M :=
  let idx := kvRow rt layer t * m.kvDim + kvh * m.headSize
  let a := f mem .att ao
  match rt.kvDtype with
  | .f32 =>
      forUp m.headSize (fun i mem =>
        put mem (.f .xb (oo + i))
          (O.add (f mem .xb (oo + i)) (O.mul a (f mem .vCache (idx + i))))) mem
  | .q8 =>
      let sidx := kvRow rt layer t * m.nKvHeads + kvh
      let c := O.mul a (f mem .vScale sidx)
      forUp m.headSize (fun i mem =>
        put mem (.f .xb (oo + i)) (O.add (f mem .xb (oo + i))
          (O.mul c (O.ofInt (i8 mem .vCache (idx + i)).toInt)))) mem

/-- One head of the attention loop. -/
def tqAttendHead (layer pos h : Nat) (invSqrtHs : F) (mem : M) : M :=
  let qo := h * m.headSize
  let ao := h * rt.maxSeq
  let oo := h * m.headSize
  let kvh := h / m.kvMul
  let mem := forUp (pos + 1) (fun t mem =>
    put mem (.f .att (ao + t)) (O.mul (tqKvDotK O m rt layer t kvh qo mem) invSqrtHs)) mem
  let mem := tqSoftmax O .att ao (pos + 1) mem
  let mem := forUp m.headSize (fun i mem => put mem (.f .xb (oo + i)) (O.ofInt 0)) mem
  forUp (pos + 1) (fun t mem => tqKvAccV O m rt layer t kvh (ao + t) oo mem) mem

/-! ## RoPE -/

def tqRopePrepare (pos : Nat) (mem : M) : M :=
  forUp (m.headSize / 2) (fun i mem =>
    let freq := O.div (O.ofInt 1) (O.tqPowf (O.ofBits (UInt32.ofNat m.hdr.ropeTheta))
      (O.div (O.ofInt (2 * i)) (O.ofInt m.headSize)))
    let ang := O.mul (O.ofInt pos) freq
    put (put mem (.f .ropeCos i) (O.tqCosf ang)) (.f .ropeSin i) (O.tqSinf ang)) mem

/-- Rotate the pair `i` of the head at `base`. -/
def tqRotatePair (v : TqBuf) (base i : Nat) (mem : M) : M :=
  let c := f mem .ropeCos i
  let s := f mem .ropeSin i
  let v0 := f mem v (base + 2 * i)
  let v1 := f mem v (base + 2 * i + 1)
  put (put mem (.f v (base + 2 * i)) (O.sub (O.mul v0 c) (O.mul v1 s))) (.f v (base + 2 * i + 1))
    (O.add (O.mul v0 s) (O.mul v1 c))

/-- Rotate `n` values; `base` runs over the multiples of `head_size` below `n`. -/
def tqRopeApply (v : TqBuf) (n : Nat) (mem : M) : M :=
  forUp ((n + m.headSize - 1) / m.headSize) (fun h mem =>
    forUp (m.headSize / 2) (fun i mem => tqRotatePair O v (h * m.headSize) i mem) mem) mem

end Cache

/-! ## Reading the store -/

section Store
variable (st : TqStore)

/-- The dot product of one row of weights with quantized activations. -/
def rowDot (dtype : Nat) (row : List UInt8) (xq : Nat → TqBlockQ80) (nb : Nat) : F :=
  if dtype = tqDtQ40 then tqDotQ40Q80 O (fun b => TqBlockQ40.ofBytes row (b * 18)) xq nb
  else tqDotQ80Q80 O (fun b => TqBlockQ80.ofBytes row (b * 34)) xq nb

/-- `out[i + r] = dot(row r)` for `r < rows`; the rows lie one after the other. -/
def tqDotRows (out : TqBuf) (dtype rowBytes nb : Nat) (xq : TqQuant) (ws : List UInt8)
    (i rows : Nat) (mem : M) : M :=
  forUp rows (fun r mem =>
    put mem (.f out (i + r))
      (rowDot O dtype (slice ws (r * rowBytes) rowBytes) (blk mem xq) nb)) mem

/-- The streaming loop of `tq_matvec` from row `i` on.  A chunk has at least
one row, so `d` rounds are enough. -/
def tqMatvecLoop (out : TqBuf) (wOff dtype rowBytes nb d rowsPerTile : Nat) (xq : TqQuant) :
    Nat → Nat → Tq (TqMachine M) Unit
  | 0, _ => pure ()
  | fuel + 1, i =>
      if i < d then do
        let chunk := min (d - i) rowsPerTile
        let p ← onTile
          (viewOr st ((wOff + rowBytes * i) % 2 ^ 64) (rowBytes * chunk % 2 ^ 32) .errIo)
        if dtype ≠ tqDtQ40 ∧ dtype ≠ tqDtQ80 then fail .errUnsupported
        let ws ← onTile (deref p (rowBytes * chunk))
        onMem (tqDotRows O out dtype rowBytes nb xq ws i chunk)
        tqMatvecLoop out wOff dtype rowBytes nb d rowsPerTile xq fuel (i + chunk)
      else pure ()

def tqMatvec (out : TqBuf) (wOff dtype n d : Nat) (xq : TqQuant) : Tq (TqMachine M) Unit := do
  let rowBytes := tqDtypeNbytes dtype n
  let nb := n / tqGroupSize
  if rowBytes = 0 ∨ n % tqGroupSize ≠ 0 then fail .errShape
  modify fun s => { s with bytesRead := (s.bytesRead + rowBytes * d) % 2 ^ 64 }
  match st.backing with
  | .mapped base =>
      if (wOff + rowBytes * d) % 2 ^ 64 > st.bytes.toNat then fail .errTruncated
      if dtype ≠ tqDtQ40 ∧ dtype ≠ tqDtQ80 then fail .errUnsupported
      let ws ← onTile (deref (.direct (base.drop wOff)) (rowBytes * d))
      onMem (tqDotRows O out dtype rowBytes nb xq ws 0 d)
  | .stream _ tileBytes =>
      if tileBytes.toNat < rowBytes then fail .errNomem
      tqMatvecLoop O st out wOff dtype rowBytes nb d (tileBytes.toNat / rowBytes) xq d 0

/-- `tq_dequantize` into a float buffer. -/
def tqDequantizeMem (out : TqBuf) (bs : List UInt8) (dtype n : Nat) (mem : M) : M :=
  tqDequantizeWith O (fun i v mem => put mem (.f out i) v) bs dtype n mem

def tqRowToFloat (baseOff dtype n row : Nat) (out : TqBuf) : Tq (TqMachine M) Unit := do
  let rowBytes := tqDtypeNbytes dtype n
  if rowBytes = 0 then fail .errShape
  let p ← onTile (viewOr st ((baseOff + rowBytes * row) % 2 ^ 64) (rowBytes % 2 ^ 32) .errIo)
  let bs ← onTile (deref p rowBytes)
  onMem (tqDequantizeMem O out bs dtype n)

/-- An array of floats in the store. -/
def floatsAt (bs : List UInt8) (i : Nat) : F := O.ofBits (UInt32.ofNat (leAt bs (4 * i) 4))

/-- `tq_view` of `n` floats and `tq_rmsnorm` with them. -/
def tqNorm (out x : TqBuf) (wOff n : Nat) (eps : F) : Tq (TqMachine M) Unit := do
  let normW ← onTile (viewOr st wOff (n * 4 % 2 ^ 32) .errIo)
  let bs ← onTile (deref normW (n * 4))
  onMem (tqRmsnorm O out x (floatsAt O bs) n eps)

end Store

/-! ## The step -/

section Step
variable (st : TqStore) (m : TqModel) (rt : TqRuntime)

/-- `m->hdr.norm_eps`. -/
def normEps : F := O.ofBits (UInt32.ofNat m.hdr.normEps)

/-- The attention half of a layer. -/
def tqAttention (l pos : Nat) (invSqrtHs : F) : Tq (TqMachine M) Unit := do
  let lo := m.layers l
  tqNorm O st .xb .x (lo .rmsAtt) m.dim (normEps O m)
  onMem (tqQuantizeMem O .xb .xq m.dim)
  tqMatvec O st .q (lo .wq) m.qtype m.dim m.dim .xq
  tqMatvec O st .kb (lo .wk) m.qtype m.dim m.kvDim .xq
  tqMatvec O st .vb (lo .wv) m.qtype m.dim m.kvDim .xq
  onMem (tqRopeApply O m .q m.dim)
  onMem (tqRopeApply O m .kb m.kvDim)
  onMem (tqKvStore O m rt l pos)
  onMem fun mem => forUp m.nHeads (fun h mem => tqAttendHead O m rt l pos h invSqrtHs mem) mem
  onMem (tqQuantizeMem O .xb .xq m.dim)
  tqMatvec O st .xb2 (lo .wo) m.qtype m.dim m.dim .xq
  onMem (tqAddInto O .x .xb2 m.dim)

/-- The feed-forward half. -/
def tqFeedForward (l : Nat) : Tq (TqMachine M) Unit := do
  let lo := m.layers l
  tqNorm O st .xb .x (lo .rmsFfn) m.dim (normEps O m)
  onMem (tqQuantizeMem O .xb .xq m.dim)
  tqMatvec O st .hb (lo .w1) m.qtype m.dim m.hiddenDim .xq
  tqMatvec O st .hb3 (lo .w3) m.qtype m.dim m.hiddenDim .xq
  onMem (tqSwiglu O m.hiddenDim)
  onMem (tqQuantizeMem O .hb .hq m.hiddenDim)
  tqMatvec O st .xb2 (lo .w2) m.qtype m.hiddenDim m.dim .hq
  onMem (tqAddInto O .x .xb2 m.dim)

/-- The step on a token and a position in range. -/
def tqForwardAt (token pos : Nat) : Tq (TqMachine M) Unit := do
  let invSqrtHs := O.div (O.ofInt 1) (O.sqrt (O.ofInt m.headSize))
  tqRowToFloat O st m.tokEmb m.qtype m.dim token .x
  onMem (tqRopePrepare O m pos)
  forUpTo m.nLayers fun l => do
    tqAttention O st m rt l pos invSqrtHs
    tqFeedForward O st m l
  tqNorm O st .x .x m.rmsFinal m.dim (normEps O m)
  onMem (tqQuantizeMem O .x .xq m.dim)
  tqMatvec O st .logits m.classifier m.qtype m.dim m.vocabSize .xq

def tqForward (token pos : Int) : Tq (TqMachine M) Unit :=
  if token < 0 ∨ token ≥ m.vocabSize then fail .errRange
  else if pos < 0 ∨ pos ≥ rt.maxSeq then fail .errRange
  else tqForwardAt O st m rt token.toNat pos.toNat

/-- Calls of `tq_forward` one after the other, each a token and a position:
what each returned and the machine it left. -/
def tqFeed : List (Int × Int) → TqMachine M → List (Except Fault Unit × TqMachine M)
  | [], _ => []
  | (token, pos) :: calls, s =>
      let r := (tqForward O st m rt token pos).exec s
      r :: tqFeed calls r.2

/-! ## Runs -/

/-- Tokens at the positions from `k` on. -/
def callsFrom : Nat → List Int → List (Int × Int)
  | _, [] => []
  | k, token :: tokens => (token, (k : Int)) :: callsFrom (k + 1) tokens

theorem callsFrom_append : ∀ (k : Nat) (a b : List Int),
    callsFrom k (a ++ b) = callsFrom k a ++ callsFrom (k + a.length) b
  | _, [], _ => rfl
  | k, token :: a, b => by
      rw [List.cons_append, callsFrom, callsFrom, callsFrom_append (k + 1) a b, List.cons_append,
        List.length_cons, Nat.add_right_comm, ← Nat.add_assoc]

/-- The machine after a run. -/
def machineAfter : List (Int × Int) → TqMachine M → TqMachine M
  | [], s => s
  | (token, pos) :: calls, s => machineAfter calls ((tqForward O st m rt token pos).exec s).2

theorem machineAfter_append : ∀ (a b : List (Int × Int)) (s : TqMachine M),
    machineAfter O st m rt (a ++ b) s = machineAfter O st m rt b (machineAfter O st m rt a s)
  | [], _, _ => rfl
  | _ :: a, b, _ => machineAfter_append a b _

theorem tqFeed_append : ∀ (a b : List (Int × Int)) (s : TqMachine M),
    tqFeed O st m rt (a ++ b) s =
      tqFeed O st m rt a s ++ tqFeed O st m rt b (machineAfter O st m rt a s)
  | [], _, _ => rfl
  | _ :: a, b, _ => congrArg (_ :: ·) (tqFeed_append a b _)

/-- What a caller looks at: the logits of each step, up to the first that fails
and the status of that one. -/
def logitsSeen (vocab : Nat) : List (Except Fault Unit × TqMachine M) → List (Except Fault (List F))
  | [] => []
  | (.ok (), s) :: rest => .ok ((List.range vocab).map (f s.mem .logits)) :: logitsSeen vocab rest
  | (.error e, _) :: _ => [.error e]

theorem logitsSeen_append (vocab : Nat) : ∀ {a b : List (Except Fault Unit × TqMachine M)},
    (∀ r ∈ a, r.1 = .ok ()) → logitsSeen vocab (a ++ b) = logitsSeen vocab a ++ logitsSeen vocab b
  | [], _, _ => rfl
  | (.ok (), _) :: a, b, h =>
      congrArg (_ :: ·) (logitsSeen_append vocab fun r hr => h r (List.mem_cons_of_mem _ hr))
  | (.error _, _) :: _, _, h => by cases h _ List.mem_cons_self

/-- A step looks at the length and the type of the cache, not at where it is. -/
theorem tqFeed_runtime {rt rt' : TqRuntime} (hseq : rt.maxSeq = rt'.maxSeq)
    (hkv : rt.kvDtype = rt'.kvDtype) :
    (tqFeed O st m rt' : _ → TqMachine M → _) = tqFeed O st m rt := by
  have hstep : (tqForward O st m rt' : Int → Int → Tq (TqMachine M) Unit) =
      tqForward O st m rt := by
    cases rt
    cases rt'
    dsimp only at hseq hkv
    subst hseq hkv
    rfl
  funext calls s
  induction calls generalizing s with
  | nil => rfl
  | cons call calls ih => rw [tqFeed, tqFeed, hstep, ih]

end Step

end Ops

/-- A machine before its first step, its buffers zero. -/
def TqMachine.zeroed {F : Type} (O : FloatOps F) : TqMachine (TqMem F) where
  mem
    | .f _ _ => O.ofInt 0
    | .i8 _ _ => (0 : Int8)
    | .blk _ _ => (⟨0, fun _ => 0⟩ : TqBlockQ80)
  bytesRead := 0
  tile := ⟨0, []⟩

end TinyLlm
