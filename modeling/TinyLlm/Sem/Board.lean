/-
# `TinyLlm.Sem.Board` — Semaphore on the board, `main.c`

The board's shell has the same codec behind two commands.  `sem encode` joins
its arguments in a buffer of 192 bytes, splits the text into tokens and prints
the wire as hex; `sem decode` reads the hex and prints the pieces.  The framing
is written a second time, with its own limits: the whole message and not only
its coded tokens has to fit the context, and the wire has 640 bytes.

`hex2bin` is the kernel library's and stands as a parameter: the bytes it reads
from the digits, none where it refuses them.  The statistics that follow the
printed lines are left out, and so are the messages of failures and their codes.
-/
import TinyLlm.Sem.Message
import TinyLlm.Tok.RoundTrip

namespace TinyLlm

/-! ## Failures -/

/-- Why a command failed, with what its message names. -/
inductive SemFault where
  | notLoaded
  | noTokenizer
  | vocab (size : Int)
  | encode (rc : TqStatus)
  | tooLong (tokens : Nat)
  | forward (pos : Nat) (rc : TqStatus)
  | code (pos : Nat) (rc : TqStatus)
  | overflow
  | notHex
  | badLength (want : Nat)
  | decode (pos : Nat) (rc : TqStatus)
deriving DecidableEq, Repr

/-! ## The board -/

/-- `g_model` and `g_tok`, as far as the commands read them. -/
structure BoardModel (F S : Type) where
  vocabSize : Int
  bos : Int
  logits : List Int → Nat → F
  gt : F → F → Bool
  deltaQ16 : F → F → Int
  tok : TqTokenizer S
  scoreGt : S → S → Bool

/-- The model, once its vocabulary is known to fit the coder. -/
def BoardModel.sem {F S : Type} (G : BoardModel F S) (V : Vocab) : SemModel F :=
  ⟨V, G.bos, G.logits, G.gt, G.deltaQ16⟩

/-- What the commands keep. -/
structure Board (F : Type) where
  loaded : Bool
  haveTok : Bool
  rt : SemRuntime F
  semPm : TqAcModel

/-- What a command leaves in `sem_toks`, and what it prints after the label. -/
structure SemReply where
  toks : List Int
  text : List UInt8

/-- `SEM_MAX_TOKENS`. -/
def semMaxTokens : Nat := 256

/-- `SEM_MAX_WIRE`. -/
def semMaxWire : Nat := 640

/-- `sizeof(text)`. -/
def semTextBytes : Nat := 192

/-- The vocabulary that `tq_ac_model_init` admitted. -/
def readyVocab {n : Int} {pm : TqAcModel} (h : tqAcModelInit n = .ok pm) : Vocab where
  size := n.toNat
  pos := by
    unfold tqAcModelInit at h
    split at h
    · cases h
    · omega
  le := by
    unfold tqAcModelInit at h
    split at h
    · cases h
    · omega

section Commands
variable {F S : Type} (G : BoardModel F S)

def semReady (B : Board F) : Except SemFault (Vocab × TqAcModel) :=
  if !B.loaded then .error .notLoaded
  else if !B.haveTok then .error .noTokenizer
  else
    match h : tqAcModelInit G.vocabSize with
    | .error _ => .error (.vocab G.vocabSize)
    | .ok pm => .ok (readyVocab h, pm)

/-- One argument: it is added if it fits behind what is there. -/
def semTextStep (text arg : List UInt8) : List UInt8 :=
  if text.length + arg.length + 2 < semTextBytes then
    (if text.length ≠ 0 then text ++ [0x20] else text) ++ arg
  else text

def semText (args : List (List UInt8)) : List UInt8 := args.foldl semTextStep []

/-- A digit of `%02x`. -/
def hexLower (n : Nat) : UInt8 := UInt8.ofNat (if n < 10 then 0x30 + n else 0x57 + n)

/-- The bytes of a wire, each by `%02x`. -/
def printHex (wire : List UInt8) : List UInt8 :=
  wire.flatMap fun b => [hexLower (b.toNat / 16), hexLower (b.toNat % 16)]

/-- The loop of `cmd_sem_encode`, from token `pos` on. -/
def cmdSemEncodeFrom (M : SemModel F) : List Int → Nat → TqAcEnc → SemState F →
    Option (Except SemFault TqAcEnc × SemState F)
  | tok :: next :: rest, pos, e, st =>
      match semForward M st.rt tok pos with
      | (.ok, rt) => do
          let (rc, e, pm) ← tqAcEncToken M.gt M.deltaQ16 e st.pm rt.logits next
          match rc with
          | .ok => cmdSemEncodeFrom M (next :: rest) (pos + 1) e ⟨rt, pm⟩
          | rc => some (.error (.code pos rc), ⟨rt, pm⟩)
      | (rc, rt) => some (.error (.forward pos rc), { st with rt := rt })
  | _, _, e, st => some (.ok e, st)

/-- `argv[1]` and the arguments after it. -/
def cmdSemEncode (B : Board F) (args : List (List UInt8)) :
    Option (Except SemFault SemReply × Board F) :=
  match semReady G B with
  | .error f => some (.error f, B)
  | .ok (V, pm) =>
      match tqEncode G.scoreGt G.tok (semText args) true false semMaxTokens with
      | .error rc => some (.error (.encode rc), { B with semPm := pm })
      | .ok toks =>
          let n := toks.length
          if n - 1 > 255 ∨ n > B.rt.ctx then
            some (.error (.tooLong (n - 1)), { B with semPm := pm })
          else do
            let e ← tqAcEncSym (tqAcEncInit semMaxWire) (UInt32.ofNat (n - 1) * semLenFreq)
              semLenFreq tqAcTot
            let (r, st) ← cmdSemEncodeFrom (G.sem V) toks 0 e ⟨B.rt, pm⟩
            let B := { B with rt := st.rt, semPm := st.pm }
            match r with
            | .error f => some (.error f, B)
            | .ok e =>
                let e := tqAcEncFinish e
                some (if e.overflow then .error .overflow else .ok ⟨toks, printHex e.buf⟩, B)

/-- The loop of `cmd_sem_decode` with `k` tokens to go; `toks` are those
decoded, BOS the first. -/
def cmdSemDecodeFrom (M : SemModel F) : Nat → List Int → TqAcDec → SemState F →
    Option (Except SemFault (List Int) × SemState F)
  | 0, toks, _, st => some (.ok toks, st)
  | k + 1, toks, d, st =>
      match semForward M st.rt (toks.getLastD 0) (toks.length - 1) with
      | (.ok, rt) => do
          let (next, d, pm) ← tqAcDecToken M.gt M.deltaQ16 d st.pm rt.logits
          match next with
          | .ok next => cmdSemDecodeFrom M k (toks ++ [(next : Int)]) d ⟨rt, pm⟩
          | .error rc => some (.error (.decode toks.length rc), ⟨rt, pm⟩)
      | (rc, rt) => some (.error (.forward (toks.length - 1) rc), { st with rt := rt })

/-- What `%s` prints of a buffer. -/
def cString (buf : List UInt8) : List UInt8 := buf.takeWhile (· ≠ 0)

/-- The loop that prints the pieces.  A token that `tq_decode` refuses prints
nothing. -/
def printPieces (T : TqTokenizer S) : Int → List Int → List UInt8
  | _, [] => []
  | prev, token :: toks =>
      (match tqDecode T prev token 64 with
        | .ok out => cString out
        | .error _ => []) ++ printPieces T token toks

def cmdSemDecode (hex2bin : List UInt8 → Nat → List UInt8) (B : Board F) (hex : List UInt8) :
    Option (Except SemFault SemReply × Board F) :=
  match semReady G B with
  | .error f => some (.error f, B)
  | .ok (V, pm) =>
      let wire := hex2bin hex semMaxWire
      if wire.length = 0 then some (.error .notHex, { B with semPm := pm })
      else do
        let d := tqAcDecInit wire
        let (target, d) ← tqAcDecTarget d tqAcTot
        let want := (target / semLenFreq).toNat
        let d ← tqAcDecUpdate d (UInt32.ofNat want * semLenFreq) semLenFreq
        if want + 1 > semMaxTokens ∨ want + 1 > B.rt.ctx then
          some (.error (.badLength want), { B with semPm := pm })
        else do
          let (r, st) ← cmdSemDecodeFrom (G.sem V) want [G.bos] d ⟨B.rt, pm⟩
          let B := { B with rt := st.rt, semPm := st.pm }
          match r with
          | .error f => some (.error f, B)
          | .ok toks => some (.ok ⟨toks, printPieces G.tok G.bos toks.tail⟩, B)

end Commands

/-! ## Hex -/

/-- What the commands rely on in `hex2bin`: it reads what `%02x` printed where
the buffer has room, and nothing where it has not. -/
structure ReadsHex (hex2bin : List UInt8 → Nat → List UInt8) : Prop where
  reads : ∀ wire cap, wire.length ≤ cap → hex2bin (printHex wire) cap = wire
  refuses : ∀ wire cap, cap < wire.length → hex2bin (printHex wire) cap = []

theorem length_printHex : ∀ wire : List UInt8, (printHex wire).length = 2 * wire.length
  | [] => rfl
  | b :: wire => by
      have ih := length_printHex wire
      rw [printHex] at ih
      rw [printHex, List.flatMap_cons, List.length_append, ih, List.length_cons, List.length_cons,
        List.length_cons, List.length_nil]
      omega

/-- The bytes of pairs of digits, none if one of them is no digit. -/
def readHexPairs : List UInt8 → Option (List UInt8)
  | hi :: lo :: rest =>
      if tqHexval hi ≥ 0 ∧ tqHexval lo ≥ 0 then
        (readHexPairs rest).map
          (UInt8.ofNat ((tqHexval hi).toNat * 16 + (tqHexval lo).toNat) :: ·)
      else none
  | _ => some []

/-- A `hex2bin` as the kernel library documents it: a leading digit without a
partner is a byte, and a bad digit or a short buffer gives nothing. -/
def readHex (hex : List UInt8) (cap : Nat) : List UInt8 :=
  if cap < hex.length / 2 + hex.length % 2 then []
  else (readHexPairs (if hex.length % 2 = 1 then 0x30 :: hex else hex)).getD []

theorem tqHexval_hexLower {n : Nat} (h : n < 16) : tqHexval (hexLower n) = n := by
  have hall : ∀ k : Fin 16, tqHexval (hexLower k.val) = k.val := by decide
  exact hall ⟨n, h⟩

theorem readHexPairs_printHex : ∀ wire : List UInt8, readHexPairs (printHex wire) = some wire
  | [] => rfl
  | b :: wire => by
      have hb := b.toNat_lt
      have ih := readHexPairs_printHex wire
      show readHexPairs (hexLower (b.toNat / 16) :: hexLower (b.toNat % 16) :: printHex wire) = _
      rw [readHexPairs, tqHexval_hexLower (by omega), tqHexval_hexLower (by omega),
        if_pos ⟨Int.natCast_nonneg _, Int.natCast_nonneg _⟩, ih, Int.toNat_natCast,
        Int.toNat_natCast, Nat.div_add_mod', UInt8.ofNat_toNat]
      rfl

theorem readHex_reads : ReadsHex readHex where
  reads wire cap h := by
    have hlen := length_printHex wire
    rw [readHex, if_neg (by omega), if_neg (by omega), readHexPairs_printHex]
    rfl
  refuses wire cap h := by
    have hlen := length_printHex wire
    exact if_pos (by omega)

/-! ## What the commands do -/

section Runs
variable {F S : Type} {G : BoardModel F S} {V : Vocab} {B : Board F}

/-- A board that the commands accept. -/
structure Board.Ready (G : BoardModel F S) (V : Vocab) (B : Board F) : Prop where
  loaded : B.loaded = true
  haveTok : B.haveTok = true
  vocab : G.vocabSize = V.size

theorem semReady_ok (h : B.Ready G V) : semReady G B = .ok (V, V.model) := by
  have hpos := V.pos
  have hle := V.le
  have hinit : tqAcModelInit G.vocabSize = .ok V.model := by
    rw [h.vocab]
    exact if_neg (by omega)
  obtain ⟨size, vpos, vle⟩ := V
  unfold semReady
  simp only [h.loaded, h.haveTok, Bool.not_true, Bool.false_eq_true, if_false]
  split
  · next heq => exact absurd (heq.symm.trans hinit) nofun
  · next pm heq =>
      cases heq.symm.trans hinit
      have hsize : G.vocabSize.toNat = size := by
        rw [h.vocab]
        rfl
      subst hsize
      rfl

/-- A board is refused, or it is ready. -/
theorem semReady_cases (G : BoardModel F S) (B : Board F) :
    (∃ f, semReady G B = .error f) ∨ ∃ V, B.Ready G V := by
  cases hl : B.loaded with
  | false => exact .inl ⟨.notLoaded, by simp [semReady, hl]⟩
  | true =>
    cases ht : B.haveTok with
    | false => exact .inl ⟨.noTokenizer, by simp [semReady, hl, ht]⟩
    | true =>
      rcases Decidable.em (G.vocabSize < 1 ∨ G.vocabSize > tqAcMaxVocab) with hv | hv
      · refine .inl ⟨.vocab G.vocabSize, ?_⟩
        have hinit : tqAcModelInit G.vocabSize = .error .errRange := if_pos hv
        unfold semReady
        simp only [hl, ht, Bool.not_true, Bool.false_eq_true, if_false]
        split
        · rfl
        · next heq => exact absurd (heq.symm.trans hinit) nofun
      · refine .inr ⟨⟨G.vocabSize.toNat, by omega, by omega⟩, hl, ht, ?_⟩
        show G.vocabSize = (G.vocabSize.toNat : Int)
        omega

variable (M : SemModel F)

/-- The board's loop codes what the host's does. -/
theorem cmdSemEncodeFrom_ok : ∀ (toks : List Int) {pos : Nat} {e e' : TqAcEnc}
    {st st' : SemState F}, semEncodeFrom M toks pos e st = some (.ok, e', st') →
    cmdSemEncodeFrom M toks pos e st = some (.ok e', st')
  | [], _, _, _, _, _, h => by
      cases h
      rfl
  | [_], _, _, _, _, _, h => by
      cases h
      rfl
  | tok :: next :: rest, pos, e, e', st, st', h => by
      rw [semEncodeFrom] at h
      rw [cmdSemEncodeFrom]
      generalize semForward M st.rt tok pos = fwd at h ⊢
      obtain ⟨rc, rt⟩ := fwd
      cases rc with
      | ok =>
          dsimp only [Option.bind_eq_bind] at h ⊢
          generalize tqAcEncToken M.gt M.deltaQ16 e st.pm rt.logits next = code at h ⊢
          cases code with
          | none => cases h
          | some r =>
              obtain ⟨rc, e₁, pm⟩ := r
              cases rc with
              | ok => exact cmdSemEncodeFrom_ok (next :: rest) h
              | _ => cases h
      | _ => cases h

/-- And decodes what the host's does. -/
theorem cmdSemDecodeFrom_ok : ∀ (k : Nat) {toks r : List Int} {d : TqAcDec} {st st' : SemState F},
    semDecodeFrom M k toks d st = some (.ok r, st') →
    cmdSemDecodeFrom M k toks d st = some (.ok r, st')
  | 0, _, _, _, _, _, h => by
      cases h
      rfl
  | k + 1, toks, r, d, st, st', h => by
      rw [semDecodeFrom] at h
      rw [cmdSemDecodeFrom]
      generalize semForward M st.rt (toks.getLastD 0) (toks.length - 1) = fwd at h ⊢
      obtain ⟨rc, rt⟩ := fwd
      cases rc with
      | ok =>
          dsimp only [Option.bind_eq_bind] at h ⊢
          generalize tqAcDecToken M.gt M.deltaQ16 d st.pm rt.logits = code at h ⊢
          cases code with
          | none => cases h
          | some res =>
              obtain ⟨next, d₁, pm⟩ := res
              cases next with
              | ok next => exact cmdSemDecodeFrom_ok k h
              | error rc => cases h
      | _ => cases h

end Runs

end TinyLlm
