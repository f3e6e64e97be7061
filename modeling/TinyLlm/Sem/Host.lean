/-
# `TinyLlm.Sem.Host` — Semaphore on the host, `tq_sem.c`

A message is a token count in eight bits and then every token after BOS, coded
against the model's own predictions.  Both ends run the model over the tokens
they have so far and rebuild the tables from its logits.

The model is what its predictions depend on: `logits ts` are the logits after
the tokens `ts` were fed at positions `0, 1, …`.  A runtime remembers which
token was last fed at each position, also across messages; `semForward` is
`tq_forward` with its range checks.  The floating-point statistics that
`sem_encode` reports are left out.
-/
import TinyLlm.Ac.Token

namespace TinyLlm

/-- What the two ends share. -/
structure SemModel (F : Type) where
  vocab : Vocab
  bos : Int
  logits : List Int → Nat → F
  gt : F → F → Bool
  deltaQ16 : F → F → Int

/-- `g_rt`, as far as the codec can tell. -/
structure SemRuntime (F : Type) where
  ctx : Nat
  fed : Nat → Int
  logits : Nat → F

/-- `g_rt` and `g_pm`, which encoding and decoding share. -/
structure SemState (F : Type) where
  rt : SemRuntime F
  pm : TqAcModel

/-- `MAX_WIRE`. -/
def maxWire : Nat := 4096

/-- `SEM_LEN_SYMBOLS`. -/
def semLenSymbols : Nat := 256

/-- `SEM_LEN_FREQ`. -/
def semLenFreq : UInt32 := tqAcTot / UInt32.ofNat semLenSymbols

variable {F : Type} (M : SemModel F)

def semForward (rt : SemRuntime F) (token : Int) (pos : Nat) : TqStatus × SemRuntime F :=
  if token < 0 ∨ token ≥ M.vocab.size then (.errRange, rt)
  else if pos ≥ rt.ctx then (.errRange, rt)
  else
    let fed := Function.update rt.fed pos token
    (.ok, { rt with fed := fed, logits := M.logits ((List.range (pos + 1)).map fed) })

/-! ## Encoding -/

/-- The loop of `sem_encode`, from token `i` on. -/
def semEncodeFrom : List Int → Nat → TqAcEnc → SemState F →
    Option (TqStatus × TqAcEnc × SemState F)
  | tok :: next :: rest, i, e, st =>
      match semForward M st.rt tok i with
      | (.ok, rt) => do
          let (rc, e, pm) ← tqAcEncToken M.gt M.deltaQ16 e st.pm rt.logits next
          match rc with
          | .ok => semEncodeFrom (next :: rest) (i + 1) e ⟨rt, pm⟩
          | rc => some (rc, e, ⟨rt, pm⟩)
      | (rc, rt) => some (rc, e, { st with rt := rt })
  | _, _, e, st => some (.ok, e, st)

/-- The status and the bytes written to `out`, whose capacity is `cap`. -/
def semEncode (st : SemState F) (toks : List Int) (cap : Nat) :
    Option (TqStatus × List UInt8 × SemState F) :=
  let n := toks.length
  if n < 1 ∨ n - 1 ≥ semLenSymbols then some (.errRange, [], st)
  else do
    let e ← tqAcEncSym (tqAcEncInit cap) (UInt32.ofNat (n - 1) * semLenFreq) semLenFreq tqAcTot
    let (rc, e, st) ← semEncodeFrom M toks 0 e st
    match rc with
    | .ok =>
        let e := tqAcEncFinish e
        some (if e.overflow then .errNomem else .ok, e.buf, st)
    | rc => some (rc, e.buf, st)

/-! ## Decoding -/

/-- The loop of `sem_decode` with `k` tokens to go; `toks` are those decoded,
BOS the first. -/
def semDecodeFrom : Nat → List Int → TqAcDec → SemState F →
    Option (Except TqStatus (List Int) × SemState F)
  | 0, toks, _, st => some (.ok toks, st)
  | k + 1, toks, d, st =>
      match semForward M st.rt (toks.getLastD 0) (toks.length - 1) with
      | (.ok, rt) => do
          let (next, d, pm) ← tqAcDecToken M.gt M.deltaQ16 d st.pm rt.logits
          match next with
          | .ok next => semDecodeFrom k (toks ++ [(next : Int)]) d ⟨rt, pm⟩
          | .error rc => some (.error rc, ⟨rt, pm⟩)
      | (rc, rt) => some (.error rc, { st with rt := rt })

/-- The tokens written to `toks`, whose capacity is `max`, or the error. -/
def semDecode (st : SemState F) (wire : List UInt8) (max : Nat) :
    Option (Except TqStatus (List Int) × SemState F) := do
  let d := tqAcDecInit wire
  let (target, d) ← tqAcDecTarget d tqAcTot
  let want := (target / semLenFreq).toNat
  let d ← tqAcDecUpdate d (UInt32.ofNat want * semLenFreq) semLenFreq
  if want + 1 > max then some (.error .errNomem, st)
  else semDecodeFrom M want [M.bos] d st

end TinyLlm
