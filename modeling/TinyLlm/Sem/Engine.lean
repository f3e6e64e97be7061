/-
# `TinyLlm.Sem.Engine` — the two ends of a message over the engine itself

The codec of `TinyLlm.Sem.Host` and the commands of `TinyLlm.Sem.Board` take the
model as a function from tokens to logits.  Here both run `tq_forward` on
buffers that hold whatever an earlier message left, as the C does.  An end over
an engine that serves follows the codec over `engineLogits`, step by step
(`Tracks`), so it returns the same codes, bytes and tables.

What was proved of the codec then holds of the programs: a message that the
host codes is read by the board, whatever the contexts of the two and whatever
each did before (`endEncode_boardDecode`).  A read that the C does not define
stops an end with no result.
-/
import TinyLlm.Forward.Engine
import TinyLlm.Sem.Text
import TinyLlm.Ac.Delta
import TinyLlm.Tok.Init

namespace TinyLlm

/-! ## A step, as its callers see it -/

/-- `g_rt` with its buffers, and the tables. -/
structure SemEnd (M : Type) where
  machine : TqMachine M
  pm : TqAcModel

section Ends
variable {F M S : Type} [TqMemory F M] (O : FloatOps F) (st : TqStore) (m : TqModel)
    (rt : TqRuntime)

/-- `rc = tq_forward(&g_rt, token, pos);` -/
def stepStatus (token : Int) (pos : Nat) (s : TqMachine M) : Option (TqStatus × TqMachine M) :=
  match (tqForward O st m rt token pos).exec s with
  | (.ok (), s') => some (.ok, s')
  | (.error (.status rc), s') => some (rc, s')
  | (.error .stale, _) => none
  | (.error .overrun, _) => none

/-- `l[i] > l[j]`, between logits. -/
def logitGt (a b : F) : Bool := O.lt b a

/-! ## `tq_sem.c` -/

/-- The loop of `sem_decode` with `k` tokens to go. -/
def endDecodeFrom :
    Nat → List Int → TqAcDec → SemEnd M → Option (Except TqStatus (List Int) × SemEnd M)
  | 0, toks, _, g => some (.ok toks, g)
  | k + 1, toks, d, g => do
      let (rc, s) ← stepStatus O st m rt (toks.getLastD 0) (toks.length - 1) g.machine
      match rc with
      | .ok => do
          let (next, d, pm) ← tqAcDecToken (logitGt O) (tqAcDeltaQ16 O) d g.pm (s.logits O m)
          match next with
          | .ok next => endDecodeFrom k (toks ++ [(next : Int)]) d ⟨s, pm⟩
          | .error rc => some (.error rc, ⟨s, pm⟩)
      | rc => some (.error rc, ⟨s, g.pm⟩)

/-- `sem_decode`. -/
def endDecode (g : SemEnd M) (wire : List UInt8) (max : Nat) :
    Option (Except TqStatus (List Int) × SemEnd M) := do
  let d := tqAcDecInit wire
  let (target, d) ← tqAcDecTarget d tqAcTot
  let want := (target / semLenFreq).toNat
  let d ← tqAcDecUpdate d (UInt32.ofNat want * semLenFreq) semLenFreq
  if want + 1 > max then some (.error .errNomem, g)
  else endDecodeFrom O st m rt want [tokenOf m.hdr.bosToken] d g

/-! ## `main.c` -/

/-- The loop of `cmd_sem_encode`, from token `pos` on. -/
def boardEncodeFrom :
    List Int → Nat → TqAcEnc → SemEnd M → Option (Except SemFault TqAcEnc × SemEnd M)
  | tok :: next :: rest, pos, e, g => do
      let (rc, s) ← stepStatus O st m rt tok pos g.machine
      match rc with
      | .ok => do
          let (rc, e, pm) ← tqAcEncToken (logitGt O) (tqAcDeltaQ16 O) e g.pm (s.logits O m) next
          match rc with
          | .ok => boardEncodeFrom (next :: rest) (pos + 1) e ⟨s, pm⟩
          | rc => some (.error (.code pos rc), ⟨s, pm⟩)
      | rc => some (.error (.forward pos rc), ⟨s, g.pm⟩)
  | _, _, e, g => some (.ok e, g)

/-- What the commands keep, the buffers among it. -/
structure EngineBoard (M : Type) where
  loaded : Bool
  haveTok : Bool
  machine : TqMachine M
  semPm : TqAcModel

/-- The model behind the commands, for the codec. -/
def engineBoardModel (kv : TqKv) (T : TqTokenizer S) (scoreGt : S → S → Bool) : BoardModel F S where
  vocabSize := m.vocabSize
  bos := tokenOf m.hdr.bosToken
  logits := engineLogits O st m kv
  gt := logitGt O
  deltaQ16 := tqAcDeltaQ16 O
  tok := T
  scoreGt := scoreGt

variable (T : TqTokenizer S) (scoreGt : S → S → Bool)

/-- `sem_ready`, which looks at no buffer. -/
def boardReady (B : EngineBoard M) : Except SemFault TqAcModel :=
  if !B.loaded then .error .notLoaded
  else if !B.haveTok then .error .noTokenizer
  else
    match tqAcModelInit m.vocabSize with
    | .error _ => .error (.vocab m.vocabSize)
    | .ok pm => .ok pm

def boardEncode (B : EngineBoard M) (args : List (List UInt8)) :
    Option (Except SemFault SemReply × EngineBoard M) :=
  match boardReady m B with
  | .error f => some (.error f, B)
  | .ok pm =>
      match tqEncode scoreGt T (semText args) true false semMaxTokens with
      | .error rc => some (.error (.encode rc), { B with semPm := pm })
      | .ok toks =>
          let n := toks.length
          if n - 1 > 255 ∨ n > rt.maxSeq then
            some (.error (.tooLong (n - 1)), { B with semPm := pm })
          else do
            let e ← tqAcEncSym (tqAcEncInit semMaxWire) (UInt32.ofNat (n - 1) * semLenFreq)
              semLenFreq tqAcTot
            let (r, g) ← boardEncodeFrom O st m rt toks 0 e ⟨B.machine, pm⟩
            let B := { B with machine := g.machine, semPm := g.pm }
            match r with
            | .error f => some (.error f, B)
            | .ok e =>
                let e := tqAcEncFinish e
                some (if e.overflow then .error .overflow else .ok ⟨toks, printHex e.buf⟩, B)

end Ends

/-! ## The codec behind an end -/

section Tracks
variable {F M S : Type} [TqMemory F M] {O : FloatOps F} {st : TqStore} {m : TqModel}
    {rt : TqRuntime} {V : Vocab}

variable (O st m) in
/-- The codec over what the engine shows. -/
def engineSemModel (kv : TqKv) (V : Vocab) : SemModel F :=
  ⟨V, tokenOf m.hdr.bosToken, engineLogits O st m kv, logitGt O, tqAcDeltaQ16 O⟩

variable (O st m rt) in
/-- A machine and the runtime of the codec, both fed `p`. -/
structure Tracks (p : List Int) (s : TqMachine M) (r : SemRuntime F) : Prop where
  primed : Primed O st m rt p s
  fed : r.Fed p
  ctx : r.ctx = rt.maxSeq

/-- Nothing was fed, whatever the buffers hold. -/
theorem tracks_nil (s : TqMachine M) {r : SemRuntime F} (hctx : r.ctx = rt.maxSeq) :
    Tracks O st m rt [] s r :=
  ⟨primed_nil s, fed_nil r, hctx⟩

/-- **A step** of both. -/
theorem Tracks.step (hserve : Serves O st m) (hl : Lawful M (live m rt)) (hV : V.size = m.vocabSize)
    {p : List Int} {s : TqMachine M}
    {r : SemRuntime F} (h : Tracks O st m rt p s r) (token : Int) :
    ∃ rc s' r', stepStatus O st m rt token p.length s = some (rc, s') ∧
      semForward (engineSemModel O st m rt.kvDtype V) r token p.length = (rc, r') ∧
      (rc = .ok → s'.logits O m = r'.logits ∧ Tracks O st m rt (p ++ [token]) s' r') := by
  by_cases hin : (0 ≤ token ∧ token < m.vocabSize) ∧ p.length < rt.maxSeq
  · obtain ⟨htoken, hroom⟩ := hin
    obtain ⟨_, s', hexec⟩ :=
      hserve.returns rt token p.length htoken ⟨Int.natCast_nonneg _, by omega⟩ s
    obtain ⟨hprimed, hlogits⟩ := h.primed.step hserve.sized hl hexec
    obtain ⟨r', hr', hfed', hctx', hlog'⟩ :=
      semForward_ok (engineSemModel O st m rt.kvDtype V) h.fed
      (show 0 ≤ token ∧ token < V.size by rw [hV]; exact htoken) (h.ctx ▸ hroom)
    refine ⟨.ok, s', r', ?_, hr',
      fun _ => ⟨hlogits.trans hlog'.symm, hprimed, hfed', hctx'.trans h.ctx⟩⟩
    rw [stepStatus, hexec]
  · have hrange : token < 0 ∨ token ≥ m.vocabSize ∨ p.length ≥ rt.maxSeq := by omega
    refine ⟨.errRange, s, r, ?_, ?_, fun hok => nomatch hok⟩
    · rw [stepStatus, tqForward_range hrange]
    · unfold semForward
      by_cases htoken : token < 0 ∨ token ≥ V.size
      · exact if_pos htoken
      · refine (if_neg htoken).trans (if_pos ?_)
        have hctx := h.ctx
        omega

/-- A board, and one whose runtime is the codec's. -/
structure Stands (rt : TqRuntime) (B : EngineBoard M) (C : Board F) : Prop where
  loaded : C.loaded = B.loaded
  haveTok : C.haveTok = B.haveTok
  ctx : C.rt.ctx = rt.maxSeq
  semPm : C.semPm = B.semPm

/-- Two computations that show the same go on alike. -/
theorem bind_shown {α β γ δ δ' ε : Type} {f : α → γ} {g : β → γ} {f' : δ → ε} {g' : δ' → ε}
    {a : Option α} {b : Option β} {k : α → Option δ} {k' : β → Option δ'} (h : a.map f = b.map g)
    (hk : ∀ x y, f x = g y → (k x).map f' = (k' y).map g') :
    (a >>= k).map f' = (b >>= k').map g' := by
  rcases a with _ | x <;> rcases b with _ | y
  · rfl
  · cases h
  · cases h
  · exact hk x y (Option.some.inj h)

theorem bind_same {α δ δ' ε : Type} {f' : δ → ε} {g' : δ' → ε} {a : Option α} {k : α → Option δ}
    {k' : α → Option δ'} (hk : ∀ x, (k x).map f' = (k' x).map g') :
    (a >>= k).map f' = (a >>= k').map g' := by
  cases a with
  | none => rfl
  | some x => exact hk x

variable (hserve : Serves O st m) (hl : Lawful M (live m rt)) (hV : V.size = m.vocabSize)
include hserve hl hV

/-! ## The host -/

theorem endDecodeFrom_eq :
    ∀ (k : Nat) {p : List Int} {tok : Int} {d : TqAcDec} {g : SemEnd M} {c : SemState F},
    Tracks O st m rt p g.machine c.rt → c.pm = g.pm →
    (endDecodeFrom O st m rt k (p ++ [tok]) d g).map (fun r => (r.1, r.2.pm)) =
      (semDecodeFrom (engineSemModel O st m rt.kvDtype V) k (p ++ [tok]) d c).map
      fun r => (r.1, r.2.pm)
  | 0, _, _, _, _, _, _, hpm => congrArg (fun pm => some (_, pm)) hpm.symm
  | k + 1, p, tok, d, g, c, htracks, hpm => by
      obtain ⟨rc, s, r, hs, hr, hok⟩ := htracks.step hserve hl hV tok
      have hlast : (p ++ [tok]).getLastD 0 = tok := by rw [List.getLastD_concat]
      have hpos : (p ++ [tok]).length - 1 = p.length := by
        rw [List.length_append, List.length_singleton, Nat.add_sub_cancel]
      rw [endDecodeFrom, semDecodeFrom, hlast, hpos, hs, hr, hpm]
      cases rc with
      | ok =>
          obtain ⟨hlog, htracks'⟩ := hok rfl
          simp only [Option.bind_eq_bind, Option.bind_some, hlog]
          refine bind_same ?_
          rintro ⟨next, d', pm⟩
          rcases next with rc | next
          · rfl
          · exact endDecodeFrom_eq k htracks' rfl
      | _ => rfl

/-- **Decoding**, too. -/
theorem endDecode_eq {kv : TqKv} (hkv : rt.kvDtype = kv) (g : SemEnd M) {c : SemState F}
    (hctx : c.rt.ctx = rt.maxSeq) (hpm : c.pm = g.pm) (wire : List UInt8) (max : Nat) :
    (endDecode O st m rt g wire max).map (fun r => (r.1, r.2.pm)) =
      (semDecode (engineSemModel O st m kv V) c wire max).map fun r => (r.1, r.2.pm) := by
  subst hkv
  unfold endDecode semDecode
  refine bind_same ?_
  rintro ⟨target, d⟩
  refine bind_same ?_
  intro d'
  by_cases hmax : (target / semLenFreq).toNat + 1 > max
  · rw [if_pos hmax, if_pos hmax]
    exact congrArg (fun pm => some (_, pm)) hpm.symm
  · rw [if_neg hmax, if_neg hmax]
    exact endDecodeFrom_eq hserve hl hV _ (p := []) (tracks_nil g.machine hctx) hpm

/-! ## The board -/

theorem boardEncodeFrom_eq :
    ∀ (toks : List Int) {p : List Int} {e : TqAcEnc} {g : SemEnd M} {c : SemState F},
    Tracks O st m rt p g.machine c.rt → c.pm = g.pm →
    (boardEncodeFrom O st m rt toks p.length e g).map (fun r => (r.1, r.2.pm)) =
      (cmdSemEncodeFrom (engineSemModel O st m rt.kvDtype V) toks p.length e c).map
      fun r => (r.1, r.2.pm)
  | [], _, _, _, _, _, hpm => congrArg (fun pm => some (_, pm)) hpm.symm
  | [_], _, _, _, _, _, hpm => congrArg (fun pm => some (_, pm)) hpm.symm
  | tok :: next :: rest, p, e, g, c, htracks, hpm => by
      obtain ⟨rc, s, r, hs, hr, hok⟩ := htracks.step hserve hl hV tok
      rw [boardEncodeFrom, cmdSemEncodeFrom, hs, hr, hpm]
      cases rc with
      | ok =>
          obtain ⟨hlog, htracks'⟩ := hok rfl
          have hlen : p.length + 1 = (p ++ [tok]).length := by
            rw [List.length_append, List.length_singleton]
          simp only [Option.bind_eq_bind, Option.bind_some, hlog]
          refine bind_same ?_
          rintro ⟨rc, e', pm⟩
          rcases rc <;> try rfl
          rw [hlen]
          exact boardEncodeFrom_eq (next :: rest) htracks' rfl
      | _ => rfl

omit hserve hl hV in
/-- The two boards that a command may tell apart by nothing but the buffers. -/
theorem boardReady_eq {T : TqTokenizer S} {scoreGt : S → S → Bool} {kv : TqKv}
    {B : EngineBoard M} {C : Board F} (h : Stands rt B C) :
    (∃ f, boardReady m B = .error f ∧
      semReady (engineBoardModel O st m kv T scoreGt) C = .error f) ∨
      ∃ pm V, boardReady m B = .ok pm ∧
        semReady (engineBoardModel O st m kv T scoreGt) C = .ok (V, pm) ∧
        V.size = m.vocabSize := by
  have hvocab : (engineBoardModel O st m kv T scoreGt).vocabSize = (m.vocabSize : Int) := rfl
  unfold boardReady semReady
  rw [h.loaded, h.haveTok]
  cases B.loaded with
  | false => exact .inl ⟨_, rfl, rfl⟩
  | true =>
      cases B.haveTok with
      | false => exact .inl ⟨_, rfl, rfl⟩
      | true =>
          simp only [Bool.not_true, Bool.false_eq_true, if_false, hvocab]
          cases hinit : tqAcModelInit (m.vocabSize : Int) with
          | error rc =>
              refine .inl ⟨_, rfl, ?_⟩
              split
              · rfl
              · next heq => cases heq.symm.trans hinit
          | ok pm =>
              refine .inr ⟨pm, readyVocab hinit, rfl, ?_, Int.toNat_natCast _⟩
              split
              · next heq => cases heq.symm.trans hinit
              · next heq =>
                  cases heq.symm.trans hinit
                  rfl

variable (T : TqTokenizer S) (scoreGt : S → S → Bool)

omit hV in
/-- **`sem encode`** over the engine is the command over its logits. -/
theorem boardEncode_eq {kv : TqKv} (hkv : rt.kvDtype = kv) {B : EngineBoard M} {C : Board F}
    (h : Stands rt B C) (args : List (List UInt8)) :
    (boardEncode O st m rt T scoreGt B args).map (fun r => (r.1, r.2.semPm)) =
      (cmdSemEncode (engineBoardModel O st m kv T scoreGt) C args).map
      fun r => (r.1, r.2.semPm) := by
  subst hkv
  unfold boardEncode cmdSemEncode
  rcases @boardReady_eq F M S _ O st m rt T scoreGt rt.kvDtype B C h with ⟨f, hb, hc⟩ | ⟨pm,
    V, hb, hc, hV⟩
  · rw [hb, hc]
    exact congrArg (fun pm => some (_, pm)) h.semPm.symm
  · rw [hb, hc]
    dsimp only [engineBoardModel]
    rcases tqEncode scoreGt T (semText args) true false semMaxTokens with rc | toks
    · rfl
    · dsimp only
      rw [h.ctx]
      by_cases hlong : toks.length - 1 > 255 ∨ toks.length > rt.maxSeq
      · rw [if_pos hlong, if_pos hlong]
        rfl
      · rw [if_neg hlong, if_neg hlong]
        refine bind_same ?_
        intro e
        refine bind_shown (boardEncodeFrom_eq hserve hl hV toks (p := [])
          (tracks_nil B.machine (r := C.rt) h.ctx) rfl) ?_
        rintro ⟨r, g⟩ ⟨_, c⟩ hshown
        obtain ⟨rfl, hpm⟩ := Prod.mk.inj hshown
        rcases r with f | e
        · exact congrArg (fun pm => some (_, pm)) hpm
        · exact congrArg (fun pm => some (_, pm)) hpm

end Tracks

/-! ## An image with the byte vocabulary -/

def messageHeader : TqHeader := { sampleHeader 258 64 5604 with bosToken := 0 }

def messageImage : List UInt8 := image messageHeader (sampleEntries 258 0) (List.replicate 4644 0)

def messageStore : TqStore := tqStoreInitMapped messageImage 5604

def messageModel : TqModel := tqResolve (tqModelDims messageHeader) (imageWalk messageImage)

theorem message_describes : Describes messageHeader (sampleEntries 258 0) := by
  refine ⟨⟨?_, ?_⟩, sampleEntries_inRange (by decide) (by decide), rfl, rfl⟩
  · decide
  · decide

theorem message_opens :
    (tqModelOpen messageStore ⟨0, 1000, 2 ^ 64⟩).exec ⟨0, []⟩ = (.ok messageModel, ⟨0, []⟩) := by
  obtain ⟨m, hopen⟩ := @open_image _ _ (List.replicate 4644 0) 5604 ⟨0, 1000, 2 ^ 64⟩
    message_describes (by decide)
    (by decide) (by decide) (by decide +kernel) ⟨0, []⟩
  have hmodel := (tqModelOpen_mapped.mp hopen).1.model
  rw [imageDims, decode_image message_describes] at hmodel
  obtain rfl : m = messageModel := hmodel
  exact hopen

theorem message_length : (5604 : UInt64).toNat = messageImage.length := by decide +kernel

theorem message_inBounds : SlotsInBounds messageImage messageImage.length messageModel := by
  have hroomy : ∀ e ∈ sampleEntries 258 0, e.offset + e.payload ≤ 5604 := by decide
  rw [← message_length]
  refine (tqModelOpen_mapped.mp message_opens).1.inBounds.mpr fun e he => .inr (hroomy e ?_)
  have hmem := he.mem
  rw [messageImage, directory_image message_describes] at hmem
  exact hmem

theorem messageModel_runtime (maxSeq : Fin 8) : ∃ rt,
    SetUp messageModel (maxSeq + 1 : Nat) 0 sampleFast sampleCache rt ∧ rt.maxSeq = maxSeq + 1 := by
  have hinit : ∀ maxSeq : Fin 8,
      (tqRuntimeInit messageModel (maxSeq + 1 : Nat) 0 sampleFast sampleCache).isOk =
      true := by decide
  have hwrap : ∀ maxSeq : Fin 8, NoWrap sampleFast (tqFastSizes messageModel (maxSeq + 1)) ∧
      NoWrap sampleCache (tqCacheSizes messageModel (maxSeq + 1) .f32) := by
    unfold NoWrap
    decide
  obtain ⟨rt, hrt, hseq, -⟩ := @sampleArenas_setUp messageModel (maxSeq + 1) false (hinit maxSeq)
    (hwrap maxSeq).1 (hwrap maxSeq).2
  exact ⟨rt, hrt, hseq⟩

/-! ## Between two programs -/

section Between
variable {F M M' S : Type} [TqMemory F M] [TqMemory F M'] {O : FloatOps F} {image : List UInt8}
    {bytes : UInt64}
variable {m : TqModel} {rt : TqRuntime} {V : Vocab}

/-- The codec's state behind an end. -/
def SemEnd.state (x : F) (rt : TqRuntime) (g : SemEnd M) : SemState F :=
  ⟨⟨rt.maxSeq, fun _ => 0, fun _ => x⟩, g.pm⟩

/-- And the board behind a board. -/
def EngineBoard.board (x : F) (rt : TqRuntime) (B : EngineBoard M) : Board F :=
  ⟨B.loaded, B.haveTok, ⟨rt.maxSeq, fun _ => 0, fun _ => x⟩, B.semPm⟩

omit [TqMemory F M] in
theorem EngineBoard.stands (x : F) (B : EngineBoard M) : Stands rt B (B.board x rt) :=
  ⟨rfl, rfl, rfl, rfl⟩

/-- What shows of one is found of the other. -/
theorem of_shown {α β γ : Type} {f : α → γ} {g : β → γ} {a : Option α} {y : β}
    (h : a.map f = (some y).map g) :
    ∃ x, a = some x ∧ f x = g y := by
  cases a with
  | none => cases h
  | some x => exact ⟨x, rfl, Option.some.inj h⟩

/-- The host decodes every wire in the interval of a message. -/
theorem endDecode_ok {st : TqStore} (hserve : Serves O st m) (hl : Lawful M (live m rt))
    (hV : V.size = m.vocabSize) {kv : TqKv} (hkv : rt.kvDtype = kv) {g : SemEnd M}
    (hpm : g.pm.For V) (hbos : 0 ≤ tokenOf m.hdr.bosToken ∧ tokenOf m.hdr.bosToken < m.vocabSize)
    {ts : List (Fin V.size)} (hn : ts.length < semLenSymbols)
    (hctx : ts.length ≤ rt.maxSeq) {max : Nat} (hmax : ts.length + 1 ≤ max) {wire : List UInt8}
    (hin : (semInterval (engineSemModel O st m kv V) (tokenOf m.hdr.bosToken) ts hn).Contains 256
      (digitsOf wire)) :
    ∃ g', endDecode O st m rt g wire max =
      some (.ok (tokenOf m.hdr.bosToken :: tokens (engineSemModel O st m kv V) ts), g') := by
  rw [← hV] at hbos
  obtain ⟨c, hdec, -, -⟩ := @semDecode_ok F (engineSemModel O st m kv V)
    (g.state (O.ofInt 0) rt) ts hpm hbos hn hctx max hmax wire hin
  have heq := endDecode_eq hserve hl hV hkv g (c := g.state (O.ofInt 0) rt) rfl rfl wire max
  rw [hdec] at heq
  obtain ⟨⟨r, g'⟩, hrun, hshown⟩ := of_shown heq
  obtain ⟨rfl, -⟩ := Prod.mk.inj hshown
  exact ⟨g', hrun⟩

variable (M) in
/-- What the board printed is read by the host, and says what was typed if the
arguments fit the text buffer. -/
def HostReads (O : FloatOps F) (st : TqStore) (m : TqModel) (rt rt' : TqRuntime) (T : TqTokenizer S)
    (scoreGt : S → S → Bool) (B : EngineBoard M') (args : List (List UInt8)) : Prop :=
  (∃ f B', boardEncode O st m rt' T scoreGt B args = some (.error f, B')) ∨
    ∃ toks wire B', boardEncode O st m rt' T scoreGt B args = some (.ok ⟨toks, printHex wire⟩, B') ∧
      (∀ (V : Vocab) (g : SemEnd M), V.size = m.vocabSize → g.pm.For V →
        toks.length - 1 ≤ rt.maxSeq → ∃ g', endDecode O st m rt g wire 512 = some (.ok toks, g')) ∧
      (printPieces T (tokenOf m.hdr.bosToken) toks.tail ≠ [] ∧
        printPieces T (tokenOf m.hdr.bosToken) toks.tail = joinArgs args ↔ ArgsFit args)

/-- **From the board to the host.**  What is typed at the board is refused, or
the host decodes the printed bytes, if its context has room for the tokens, and
prints what was typed exactly if the arguments fit. -/
theorem boardEncode_endDecode (c c' : TqCodec F) (hbytes : bytes.toNat = image.length)
    {arena : TqArena} {t u : TqTile}
    (hopen : (tqModelOpen (tqStoreInitMapped image bytes) arena).exec t = (.ok m, u))
    (hin : SlotsInBounds image image.length m) {maxSeq maxSeq' kvDtype : Int}
    {fast cache fast' cache' : TqArena} {rt' : TqRuntime}
    (hrt : SetUp m maxSeq kvDtype fast cache rt) (hrt' : SetUp m maxSeq' kvDtype fast' cache' rt')
    {PV : PieceVocab S} {bos : Nat} (hPV : PV.RoundTrips bos) {T : TqTokenizer S}
    (hT : T.For PV bos) (hbos : tokenOf m.hdr.bosToken = bos)
    (hsize : m.vocabSize = PV.pieces.length) (scoreGt : S → S → Bool)
    (B : EngineBoard (TqFlat c' (tqLayout fast' cache' rt'))) {args : List (List UInt8)}
    (hnul : ∀ a ∈ args, NulFree a) :
    HostReads (TqFlat c (tqLayout fast cache rt)) O (tqStoreInitMapped image bytes) m rt rt' T
      scoreGt B args := by
  have hserve := mapped_serves O hbytes (tqModelOpen_sized hopen) hin
  obtain ⟨-, hkv, -⟩ := tqRuntimeInit_ok hrt.init
  obtain ⟨-, hkv', -⟩ := tqRuntimeInit_ok hrt'.init
  have hl := hrt.lawful c
  have hl' := hrt'.lawful c'
  generalize hst : tqStoreInitMapped image bytes = st at hserve
  generalize (if kvDtype = 0 then TqKv.f32 else .q8) = kv at hkv hkv'
  have hboard := boardEncode_eq hserve hl' T scoreGt hkv' (B.stands (O.ofInt 0)) args
  have hbosG : (engineBoardModel O st m kv T scoreGt).bos = bos := hbos
  have hsizeG : (engineBoardModel O st m kv T scoreGt).vocabSize = PV.pieces.length :=
    congrArg Nat.cast hsize
  have hTG : (engineBoardModel O st m kv T scoreGt).tok.For PV bos := hT
  have hrefused : ∀ {f C}, cmdSemEncode (engineBoardModel O st m kv T scoreGt)
      (B.board (O.ofInt 0) rt') args =
      some (.error f, C) →
        HostReads (TqFlat c (tqLayout fast cache rt)) O st m rt rt' T scoreGt B args := by
    intro f C herr
    rw [herr] at hboard
    obtain ⟨⟨r, B'⟩, hrun, hshown⟩ := of_shown hboard
    obtain ⟨rfl, -⟩ := Prod.mk.inj hshown
    exact .inl ⟨f, B', hrun⟩
  rcases semReady_cases (engineBoardModel O st m kv T scoreGt) (B.board (O.ofInt 0) rt') with
    ⟨f, hf⟩ | ⟨V, hB⟩
  · refine hrefused (f := f) (C := B.board (O.ofInt 0) rt') ?_
    unfold cmdSemEncode
    rw [hf]
  · obtain ⟨hrange, ts, hn, htoks, hprint, -, -⟩ := semText_tokens hPV hTG hbosG hsizeG hB hnul
    rcases Nat.lt_or_ge rt'.maxSeq (ts.length + 1) with hlong | hctx
    · refine hrefused (cmdSemEncode_long hB htoks ?_)
      rw [List.length_cons, tokens, List.length_map]
      exact hlong
    · obtain ⟨e, C, he, hrun⟩ := cmdSemEncode_run hB hrange hn htoks hctx
      cases hov : e.overflow with
      | true =>
          rw [hov] at hrun
          exact hrefused hrun
      | false =>
          rw [hov] at hrun
          rw [hrun] at hboard
          obtain ⟨⟨r, B'⟩, hrun', hshown⟩ := of_shown hboard
          obtain ⟨rfl, -⟩ := Prod.mk.inj hshown
          refine .inr ⟨_, e.buf, B', hrun', fun W g hW hpm hroom => ?_, ?_⟩
          · have hin' := encodeTriples_contains he hov
            rw [tripleInterval_semTriples] at hin'
            have hVm : V.size = m.vocabSize := Int.ofNat_inj.mp hB.vocab.symm
            obtain rfl : W = V := by
              cases W
              cases V
              cases hW.trans hVm.symm
              rfl
            rw [List.length_cons, tokens, List.length_map] at hroom
            have hbosm : 0 ≤ tokenOf m.hdr.bosToken ∧ tokenOf m.hdr.bosToken <
                (m.vocabSize : Int) := by
              rw [← hVm]
              exact hrange
            exact endDecode_ok hserve hl hVm hkv hpm hbosm hn hroom
              (Nat.le_trans (show ts.length + 1 ≤ 256 from hn) (show 256 ≤ 512 by decide)) hin'
          · have hprint : printPieces T (tokenOf m.hdr.bosToken)
                (tokens ((engineBoardModel O st m kv T scoreGt).sem V) ts) = semText args := hprint
            rw [List.tail_cons, ← semText_eq_join_iff, ← hprint]

/-- The words `a` and `bc` typed at a board with a context of eight. -/
theorem boardEncode_endDecode_words : ∃ rt rt', rt.maxSeq = 4 ∧ rt'.maxSeq = 8 ∧
    HostReads (TqFlat (TqCodec.tags ratOps) (tqLayout sampleFast sampleCache rt)) ratOps
      messageStore messageModel
      rt rt' (byteVocab.tokenizer 0 2 64) (fun _ _ => false)
      ⟨true, true, TqMachine.flat ratOps (tqLayout sampleFast sampleCache rt'),
        Vocab.model ⟨258, by decide, by decide⟩⟩ [[0x61], [0x62, 0x63]] := by
  obtain ⟨rt, hrt, hseq⟩ := messageModel_runtime 3
  obtain ⟨rt', hrt', hseq'⟩ := messageModel_runtime 7
  have hsize : messageModel.vocabSize = byteVocab.pieces.length := by decide +kernel
  refine ⟨rt, rt', hseq, hseq', ?_⟩
  exact boardEncode_endDecode (TqCodec.tags ratOps) (TqCodec.tags ratOps)
    message_length message_opens message_inBounds hrt hrt' byteVocab_roundTrips
    (byteVocab.tokenizer_for 0 2 64) rfl hsize (fun _ _ => false) _
    (by decide)

end Between

end TinyLlm
