/-
# `TinyLlm.Sem.Worst` — the wire buffer of the board

The bytes of a message are at most five and `tokenBytes` of each token after
BOS (`semInterval_digits_le`), and logits that follow the message reach that
(`semInterval_worst`).  So the buffer of 640 bytes is large enough for a list
of tokens, whatever the model predicts, exactly if the sum is no more than that
(`cmdSemEncode_never_overflows`): four bytes a token, where the comment in the
source counts two.
-/
import TinyLlm.Ac.Delta
import TinyLlm.Sem.Text

namespace TinyLlm

open IntervalCoding Finset

section Digits
variable {F : Type} (M : SemModel F)

/-- Bytes that a message takes at most. -/
def wireBytes (V : Vocab) (ts : List (Fin V.size)) : Nat :=
  5 + (ts.map fun t => tokenBytes V t.val).sum

/-- Where all tokens take the same. -/
theorem wireBytes_const {V : Vocab} {ts : List (Fin V.size)} {c : Nat}
    (h : ∀ t : Fin V.size, tokenBytes V t.val = c) : wireBytes V ts = 5 + ts.length * c := by
  have hmap : (ts.map fun t => tokenBytes V t.val) = ts.map fun _ => c :=
    List.map_congr_left fun t _ => h t
  rw [wireBytes, hmap, List.map_const', List.sum_replicate, Nat.nsmul_eq_mul]

theorem codeTokens_digits_le : ∀ (ts : List (Fin M.vocab.size)) {s : Iv} (p : List Int),
    2 ^ 24 ≤ s.width →
    (codeTokens M s p ts).digits ≤ s.digits + (ts.map fun t => tokenBytes M.vocab t.val).sum
  | [], _, _, _ => Nat.le_refl _
  | t :: ts, s, p, hw => by
      obtain ⟨hw₁, h₁⟩ := codeToken_digits_le M.gt M.deltaQ16 (M.logits p) hw M.vocab t.isLt
      have ih := codeTokens_digits_le ts (p ++ [(t.val : Int)]) hw₁
      rw [codeTokens, List.map_cons, List.sum_cons, ← Nat.add_assoc]
      exact ih.trans (Nat.add_le_add_right h₁ _)

/-- **A message** takes no more than that. -/
theorem semInterval_digits_le (bos : Int) (ts : List (Fin M.vocab.size))
    (hn : ts.length < semLenSymbols) :
    (semInterval M bos ts hn).digits ≤ wireBytes M.vocab ts := by
  obtain ⟨hw, hd⟩ := code_len (t := lenSlot ts.length hn) rfl rfl
  rw [wireBytes, ← hd]
  exact codeTokens_digits_le M ts [bos] (Nat.le_trans (by decide) hw.symm.le)

/-- Logits that are worst for each token of `ts` in turn. -/
def worstFor (level : Nat → F) (ts : List Nat) (p : List Int) : Nat → F :=
  worstLogits level (ts.getD (p.length - 1) 0)

variable {M} {level : Nat → F} (hL : Levels M.gt M.deltaQ16 level)
include hL

theorem codeTokens_worst : ∀ (ts before : List (Fin M.vocab.size)) {s : Iv} {p : List Int},
    M.logits = worstFor level ((before ++ ts).map Fin.val) → p.length = before.length + 1 →
    s.width = fullWidth →
    (codeTokens M s p ts).digits = s.digits + (ts.map fun t => tokenBytes M.vocab t.val).sum
  | [], _, _, _, _, _, _ => rfl
  | t :: ts, before, s, p, hlog, hp, hw => by
      have hnow : M.logits p = worstLogits level t.val := by
        rw [hlog, worstFor, hp, Nat.add_sub_cancel, List.map_append, List.getD_append_right]
        · rw [List.length_map, Nat.sub_self]
          rfl
        · rw [List.length_map]
      obtain ⟨hw₁, h₁⟩ := codeToken_worst hL hw t.isLt
      have ih := codeTokens_worst ts (before ++ [t]) (p := p ++ [(t.val : Int)])
        (by rw [hlog, List.append_assoc]; rfl)
        (by rw [List.length_append, List.length_append, hp]; rfl) hw₁
      rw [codeTokens, hnow, ih, h₁, List.map_cons, List.sum_cons, Nat.add_assoc]

/-- **And as much**, with the worst logits. -/
theorem semInterval_worst (bos : Int) (ts : List (Fin M.vocab.size))
    (hn : ts.length < semLenSymbols) (hlog : M.logits = worstFor level (ts.map Fin.val)) :
    (semInterval M bos ts hn).digits = wireBytes M.vocab ts := by
  obtain ⟨hw, hd⟩ := code_len (t := lenSlot ts.length hn) rfl rfl
  rw [wireBytes, ← hd]
  exact codeTokens_worst hL ts [] hlog rfl hw

end Digits

/-! ## The command -/

section Command
variable {F S : Type}

/-- The same board with other predictions. -/
def BoardModel.withLogits (G : BoardModel F S) (logits : List Int → Nat → F) : BoardModel F S :=
  { G with logits := logits }

section Buffer
variable {O : FloatOps F} (hO : O.ExactSmall) (G : BoardModel F S)
  (hgt : G.gt = fun a b => O.lt b a) (hdelta : G.deltaQ16 = tqAcDeltaQ16 O) {V : Vocab}
  {B : Board F} (hB : B.Ready G V) (args : List (List UInt8)) (ts : List (Fin V.size))
  (htoks : tqEncode G.scoreGt G.tok (semText args) true false semMaxTokens
    = .ok (G.bos :: tokens (G.sem V) ts))
  (hbos : 0 ≤ G.bos ∧ G.bos < V.size) (hctx : ts.length + 1 ≤ B.rt.ctx)
include hB htoks hbos hctx

theorem cmdSemEncode_overflow_withLogits (logits : List Int → Nat → F) :
    ∃ hn : ts.length < semLenSymbols,
      (∃ B', cmdSemEncode (G.withLogits logits) B args = some (.error .overflow, B')) ↔
        semMaxWire < (semInterval ((G.withLogits logits).sem V) G.bos ts hn).digits := by
  have hn : ts.length < semLenSymbols := by
    have hmax := tqEncode_length_le G.scoreGt G.tok htoks
    have hlen : (tokens (G.sem V) ts).length = ts.length := List.length_map _
    rw [List.length_cons, hlen] at hmax
    exact hmax
  exact ⟨hn, cmdSemEncode_overflow_iff (G := G.withLogits logits)
    ⟨hB.loaded, hB.haveTok, hB.vocab⟩ hbos hn htoks hctx⟩

include hO hgt hdelta in
/-- A message that the worst logits make too long. -/
theorem cmdSemEncode_worst (hover : semMaxWire < wireBytes V ts) :
    ∃ logits B', cmdSemEncode (G.withLogits logits) B args = some (.error .overflow, B') := by
  have hL : Levels G.gt G.deltaQ16 (smallLevel O) := by
    rw [hgt, hdelta]
    exact levels_delta hO
  obtain ⟨hn, hiff⟩ := cmdSemEncode_overflow_withLogits G hB args ts htoks hbos hctx
    (worstFor (smallLevel O) (ts.map Fin.val))
  have hworst : (semInterval ((G.withLogits (worstFor (smallLevel O) (ts.map Fin.val))).sem V)
      G.bos ts hn).digits = wireBytes V ts :=
    semInterval_worst (M := (G.withLogits (worstFor (smallLevel O) (ts.map Fin.val))).sem V)
      hL G.bos ts hn rfl
  rw [hworst] at hiff
  exact ⟨_, hiff.mpr hover⟩

include hO hgt hdelta in
/-- **The wire buffer.**  It holds the message of a list of tokens, whatever the
logits are, exactly if it has the bytes of the worst of them. -/
theorem cmdSemEncode_never_overflows :
    (∀ logits B', cmdSemEncode (G.withLogits logits) B args ≠ some (.error .overflow, B')) ↔
      wireBytes V ts ≤ semMaxWire := by
  constructor
  · intro hnever
    refine Nat.le_of_not_lt fun hover => ?_
    obtain ⟨logits, B', hrun⟩ := cmdSemEncode_worst hO G hgt hdelta hB args ts htoks hbos hctx hover
    exact hnever logits B' hrun
  · intro hfits logits B' hrun
    obtain ⟨hn, hiff⟩ := cmdSemEncode_overflow_withLogits G hB args ts htoks hbos hctx logits
    have hdigits := semInterval_digits_le ((G.withLogits logits).sem V) G.bos ts hn
    exact absurd (hiff.mp ⟨B', hrun⟩) (Nat.not_lt_of_le (hdigits.trans hfits))

end Buffer

end Command

/-! ## A token for every byte, over exact arithmetic -/

def ratModel : BoardModel Rat Unit where
  vocabSize := 258
  bos := 0
  logits _ _ := 0
  gt a b := ratOps.lt b a
  deltaQ16 := tqAcDeltaQ16 ratOps
  tok := byteVocab.tokenizer 0 2 64
  scoreGt _ _ := false

def ratBoard : Board Rat := ⟨true, true, ⟨256, fun _ => 0, fun _ => 0⟩, twoVocab.model⟩

def byteSize : Vocab := ⟨258, by decide, by decide⟩

theorem ratBoard_ready : ratBoard.Ready ratModel byteSize := ⟨rfl, rfl, rfl⟩

theorem ratModel_size : ratModel.vocabSize = byteVocab.pieces.length := by decide +kernel

/-- The text `a`. -/
theorem cmdSemEncode_never_overflows_byte :
    ∃ ts : List (Fin 258), tqEncode ratModel.scoreGt ratModel.tok (semText [[0x61]]) true false
        semMaxTokens = .ok (0 :: tokens (ratModel.sem byteSize) ts) ∧
      ((∀ logits B', cmdSemEncode (ratModel.withLogits logits) ratBoard [[0x61]]
          ≠ some (.error .overflow, B')) ↔ wireBytes byteSize ts ≤ semMaxWire) := by
  have hnul : ∀ a ∈ [[0x61]], NulFree a := by
    decide
  obtain ⟨hbos, ts, -, htoks, -, hlen, -⟩ := semText_tokens byteVocab_roundTrips
    (show ratModel.tok.For byteVocab 0 from byteVocab.tokenizer_for 0 2 64) rfl ratModel_size
    ratBoard_ready hnul
  have htext : (semText [[0x61]]).length = 1 := by decide
  exact ⟨ts, htoks, cmdSemEncode_never_overflows ratOps_exactSmall ratModel rfl rfl ratBoard_ready
    [[0x61]] ts htoks hbos (show ts.length + 1 ≤ 256 by omega)⟩

/-- 160 times `a`: 161 tokens of four bytes each, when the model finds each of
them as unlikely as it can. -/
theorem cmdSemEncode_overflows :
    ¬ ∀ (G : BoardModel Rat Unit) (V : Vocab) (B B' : Board Rat) (args : List (List UInt8)),
      G.gt = (fun a b => ratOps.lt b a) → G.deltaQ16 = tqAcDeltaQ16 ratOps → B.Ready G V →
      cmdSemEncode G B args ≠ some (.error .overflow, B') := by
  intro h
  have hT : ratModel.tok.For byteVocab 0 := byteVocab.tokenizer_for 0 2 64
  have htext : semText [List.replicate 160 0x61] = List.replicate 160 0x61 := by decide +kernel
  have hsize : (List.replicate 160 (0x61 : UInt8)).length = 160 := List.length_replicate
  have hnul : NulFree (List.replicate 160 0x61) := fun c hc => by
    rw [List.eq_of_mem_replicate hc]
    decide
  generalize List.replicate 160 (0x61 : UInt8) = text at *
  have hne : text ≠ [] := fun hnil => by
    rw [hnil] at hsize
    cases hsize
  obtain ⟨toks, htoks, hsaid⟩ := tqEncode_said ratModel.scoreGt hT byteVocab_roundTrips hne hnul
    (show text.length + 2 ≤ semMaxTokens by
      rw [hsize]
      decide)
  have hlen : toks.length = 161 := by
    rw [← byteVocab_length hT hsaid.valid, hsaid.flat, List.length_cons, hsize]
  obtain ⟨ts, rfl⟩ := exists_tokens (ratModel.sem byteSize) fun t ht => by
    obtain ⟨i, hi, rfl, -⟩ := hsaid.valid t ht
    have hcount : ((258 : Nat) : Int) = byteVocab.pieces.length := ratModel_size
    refine ⟨Int.natCast_nonneg i, ?_⟩
    show (i : Int) < ((258 : Nat) : Int)
    rw [hcount]
    exact Int.ofNat_lt.mpr hi
  have hts : ts.length = 161 := (List.length_map _).symm.trans hlen
  have hfour : ∀ t : Fin 258, tokenBytes byteSize t.val = 4 := by decide +kernel
  have hbytes : wireBytes byteSize ts = 5 + ts.length * 4 := wireBytes_const hfour
  rw [← htext] at htoks
  obtain ⟨logits, B', hrun⟩ := cmdSemEncode_worst ratOps_exactSmall ratModel rfl rfl ratBoard_ready
    [text] ts htoks (by decide) (show ts.length + 1 ≤ 256 by omega) (by
      rw [hbytes, hts]
      decide)
  exact h _ byteSize ratBoard B' _ rfl rfl ⟨rfl, rfl, rfl⟩ hrun

end TinyLlm
