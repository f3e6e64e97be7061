/-
# `TinyLlm.Sem.Interop` — the board reads what the host wrote

The two ends share the wire and not the limits.  The host feeds the tokens
before the last, so it takes a message of one more token than its context; the
board wants all of them to fit.  The host has 4096 bytes for a wire and prints
an empty one for BOS alone; the board has 640 and takes no bytes for a mistake.
Between the limits the board recovers the tokens
(`semEncode_cmdSemDecode`).
-/
import TinyLlm.Sem.Board

namespace TinyLlm

open IntervalCoding

section Wire
variable {F S : Type} {G : BoardModel F S} {V : Vocab} {B : Board F}
variable {hex2bin : List UInt8 → Nat → List UInt8} {wire : List UInt8}

/-- A wire with a length of one or more is not empty. -/
theorem wire_ne_nil {k : Nat} (hn : k < semLenSymbols) (hk : 0 < k)
    (hin : (initIv.code 256 (2 ^ 24) 3 (lenSlot k hn)).Contains 256 (digitsOf wire)) :
    wire ≠ [] := by
  rintro rfl
  have hnarrow := (Iv.contains_of_code (digitsOf_lt []) hin).1
  have hzero : prefixVal 256 (digitsOf []) 4 = 0 := by decide
  change 0 + (2 ^ 32 - 1) / 2 ^ 16 * (k * 256) ≤ prefixVal 256 (digitsOf []) 4 at hnarrow
  omega

/-- No bytes are a mistake. -/
theorem cmdSemDecode_empty (h : B.Ready G V) {hex : List UInt8}
    (hhex : hex2bin hex semMaxWire = []) :
    cmdSemDecode G hex2bin B hex = some (.error .notHex, { B with semPm := V.model }) := by
  unfold cmdSemDecode
  rw [semReady_ok h]
  dsimp only
  rw [hhex]
  rfl

/-- So is a length over the context. -/
theorem cmdSemDecode_long (h : B.Ready G V) {hex : List UInt8}
    (hhex : hex2bin hex semMaxWire = wire) (hwire : wire ≠ []) {k : Nat} (hn : k < semLenSymbols)
    (hin : (initIv.code 256 (2 ^ 24) 3 (lenSlot k hn)).Contains 256 (digitsOf wire))
    (hlong : B.rt.ctx < k + 1) :
    cmdSemDecode G hex2bin B hex = some (.error (.badLength k), { B with semPm := V.model }) := by
  obtain ⟨target, d₀, d, htarget, hwant, hd, -, -⟩ := semDecode_length hn hin
  unfold cmdSemDecode
  rw [semReady_ok h]
  dsimp only
  rw [hhex, if_neg (mt List.length_eq_zero_iff.mp hwire)]
  simp only [htarget, hwant, hd, Option.bind_eq_bind, Option.bind_some]
  rw [if_pos (.inr hlong)]

/-- **The board decodes** every message that fits its context. -/
theorem cmdSemDecode_ok (h : B.Ready G V) {hex : List UInt8}
    (hhex : hex2bin hex semMaxWire = wire) (hwire : wire ≠ [])
    (hbos : 0 ≤ G.bos ∧ G.bos < V.size) {ts : List (Fin (G.sem V).vocab.size)}
    (hn : ts.length < semLenSymbols) (hctx : ts.length + 1 ≤ B.rt.ctx)
    (hin : (semInterval (G.sem V) G.bos ts hn).Contains 256 (digitsOf wire)) :
    ∃ B', cmdSemDecode G hex2bin B hex
      = some (.ok ⟨G.bos :: tokens (G.sem V) ts,
          printPieces G.tok G.bos (tokens (G.sem V) ts)⟩, B') := by
  obtain ⟨target, d₀, d, htarget, hwant, hd, hat, hbuf⟩ :=
    semDecode_length hn (contains_of_codeTokens (G.sem V) ts hin)
  obtain ⟨st', hst', -, -⟩ := semDecodeFrom_at (G.sem V) ts hat
    (show (SemState.mk B.rt V.model).pm.For V from V.model_for) (fed_nil B.rt) hbos (by
      rw [List.length_nil, Nat.zero_add]
      exact Nat.le_of_succ_le hctx) (by rw [hbuf]; exact hin)
  have hrun := cmdSemDecodeFrom_ok (G.sem V) _ hst'
  rw [List.nil_append, List.nil_append] at hrun
  refine ⟨{ B with rt := st'.rt, semPm := st'.pm }, ?_⟩
  unfold semLenSymbols at hn
  have hfit : ¬ (ts.length + 1 > semMaxTokens ∨ ts.length + 1 > B.rt.ctx) := by
    unfold semMaxTokens
    omega
  unfold cmdSemDecode
  rw [semReady_ok h]
  dsimp only
  rw [hhex, if_neg (mt List.length_eq_zero_iff.mp hwire)]
  simp only [htarget, hwant, hd, hrun, Option.bind_eq_bind, Option.bind_some, if_neg hfit]
  rfl

end Wire

/-! ## What the host accepts -/

section Accepts
variable {F : Type} (M : SemModel F)

/-- `tq_forward` takes tokens of the vocabulary, at positions of the context. -/
theorem semForward_accepts {rt rt' : SemRuntime F} {tok : Int} {pos : Nat}
    (h : semForward M rt tok pos = (.ok, rt')) :
    (0 ≤ tok ∧ tok < M.vocab.size) ∧ pos < rt.ctx := by
  unfold semForward at h
  split at h
  · cases h
  · split at h
    · cases h
    · omega

/-- The encoder's loop takes no others. -/
theorem semEncodeFrom_accepts : ∀ (toks : List Int) {p : List Int} {tok : Int} {e e' : TqAcEnc}
    {st st' : SemState F}, st.pm.For M.vocab → st.rt.Fed p →
    semEncodeFrom M (tok :: toks) p.length e st = some (.ok, e', st') →
    (toks ≠ [] → 0 ≤ tok ∧ tok < M.vocab.size) ∧ (∀ t ∈ toks, 0 ≤ t ∧ t < M.vocab.size) ∧
      (toks ≠ [] → p.length + toks.length ≤ st.rt.ctx)
  | [], _, _, _, _, _, _, _, _, _ => ⟨nofun, nofun, nofun⟩
  | next :: rest, p, tok, e, e', st, st', hpm, hfed, h => by
      rw [semEncodeFrom] at h
      cases hfwd : semForward M st.rt tok p.length with
      | mk rc rt =>
          rw [hfwd] at h
          cases rc with
          | ok =>
              obtain ⟨htok, hctx⟩ := semForward_accepts M hfwd
              obtain ⟨rt₁, hfwd₁, hfed₁, hctx₁, -⟩ := semForward_ok M hfed htok hctx
              cases hfwd.symm.trans hfwd₁
              dsimp only [Option.bind_eq_bind] at h
              rcases Decidable.em (next < 0 ∨ next ≥ M.vocab.size) with hnext | hnext
              · rw [tqAcEncToken, hpm.vocab, if_pos hnext] at h
                cases h
              · obtain ⟨n, rfl⟩ : ∃ n : Nat, next = n := ⟨next.toNat, by omega⟩
                have hn : n < M.vocab.size := by omega
                obtain ⟨pm, hpm₁, hcode⟩ :=
                  tqAcEncToken_triple M.gt M.deltaQ16 rt.logits hpm hn
                rw [hcode] at h
                generalize codeTriples e _ = code at h
                cases code with
                | none => cases h
                | some e₁ =>
                    have hlen : (p ++ [tok]).length = p.length + 1 := by simp
                    obtain ⟨-, hrest, hroom⟩ := semEncodeFrom_accepts rest (p := p ++ [tok])
                      (show (SemState.mk rt pm).pm.For M.vocab from hpm₁) hfed₁
                      (by rw [hlen]; exact h)
                    refine ⟨fun _ => htok, ?_, fun _ => ?_⟩
                    · intro t ht
                      rcases List.mem_cons.mp ht with rfl | ht
                      · exact ⟨Int.natCast_nonneg n, by exact_mod_cast hn⟩
                      · exact hrest t ht
                    · cases rest with
                      | nil => exact hctx
                      | cons t rest =>
                          have hfar := hroom (List.cons_ne_nil t rest)
                          rw [hlen, hctx₁] at hfar
                          rw [List.length_cons]
                          omega
          | _ => cases h

/-- **Acceptance.**  Beyond BOS alone the host takes tokens of the vocabulary,
one more than its context at most. -/
theorem semEncode_accepts {st st' : SemState F} {tok : Int} {toks : List Int} {cap : Nat}
    {wire : List UInt8} (hpm : st.pm.For M.vocab) (hne : toks ≠ [])
    (h : semEncode M st (tok :: toks) cap = some (.ok, wire, st')) :
    toks.length < semLenSymbols ∧ (0 ≤ tok ∧ tok < M.vocab.size) ∧
      (∀ t ∈ toks, 0 ≤ t ∧ t < M.vocab.size) ∧ toks.length ≤ st.rt.ctx := by
  unfold semEncode at h
  dsimp only at h
  split at h
  · cases h
  · next hrange =>
      rw [List.length_cons, Nat.add_sub_cancel] at hrange h
      dsimp only [Option.bind_eq_bind] at h
      generalize tqAcEncSym (tqAcEncInit cap) _ semLenFreq tqAcTot = first at h
      cases first with
      | none => cases h
      | some e =>
          dsimp only [Option.bind_some] at h
          cases hrun : semEncodeFrom M (tok :: toks) 0 e st with
          | none =>
              rw [hrun] at h
              cases h
          | some r =>
              obtain ⟨rc, e', st₁⟩ := r
              rw [hrun] at h
              cases rc with
              | ok =>
                  obtain ⟨htok, htoks, hctx⟩ := semEncodeFrom_accepts M toks (p := []) hpm
                    (fed_nil st.rt) hrun
                  have hroom := hctx hne
                  rw [List.length_nil, Nat.zero_add] at hroom
                  exact ⟨by omega, htok hne, htoks, hroom⟩
              | _ => cases h

/-- BOS alone takes no bytes. -/
theorem semEncode_singleton {st : SemState F} (tok : Int) :
    semEncode M st [tok] maxWire = some (.ok, [], st) := by
  have hrun : ∃ e, tqAcEncSym (tqAcEncInit maxWire) (UInt32.ofNat 0 * semLenFreq) semLenFreq tqAcTot
      = some e ∧ (tqAcEncFinish e).buf = [] ∧ (tqAcEncFinish e).overflow = false := by
    exact ⟨_, rfl, rfl, rfl⟩
  obtain ⟨e, he, hbuf, hov⟩ := hrun
  have hlen : ([tok] : List Int).length - 1 = 0 := rfl
  have hrange : ¬ (([tok] : List Int).length < 1 ∨ 0 ≥ semLenSymbols) :=
    show ¬ (1 < 1 ∨ 0 ≥ semLenSymbols) by decide
  simp only [semEncode, hlen, if_neg hrange, he, Option.bind_eq_bind, Option.bind_some,
    semEncodeFrom, hbuf, hov, Bool.false_eq_true, if_false]

end Accepts

/-! ## Both ends -/

section Ends
variable {F S : Type}

/-- A message that is between the limits of the two ends. -/
structure FitsBoard (M : SemModel F) (ctx : Nat) (toks : List Int) : Prop where
  more : 2 ≤ toks.length
  context : toks.length ≤ ctx
  wire : ∃ (ts : List (Fin M.vocab.size)) (hn : ts.length < semLenSymbols),
    toks = M.bos :: tokens M ts ∧
      256 ^ ((semInterval M M.bos ts hn).digits - semMaxWire) ∣
      flushPoint (semInterval M M.bos ts hn)

theorem tokens_injective (M : SemModel F) : Function.Injective (tokens M) :=
  List.map_injective_iff.mpr fun _ _ h => Fin.ext (Int.ofNat_inj.mp h)

/-- **Host to board.**  Of the messages that the host takes the board recovers
exactly those with a token after BOS, no more tokens than its context, and a
wire of at most 640 bytes. -/
theorem semEncode_cmdSemDecode (G : BoardModel F S) (V : Vocab)
    {hex2bin : List UInt8 → Nat → List UInt8} (hhex : ReadsHex hex2bin)
    (host : SemState F) (hpm : host.pm.For V) (B : Board F) (hB : B.Ready G V)
    (hctx : B.rt.ctx = host.rt.ctx) (toks : List Int) (hhead : toks.head? = some G.bos)
    {wire : List UInt8} {host' : SemState F}
    (henc : semEncode (G.sem V) host toks maxWire = some (.ok, wire, host')) :
    (∃ text B', cmdSemDecode G hex2bin B (printHex wire) = some (.ok ⟨toks, text⟩, B')) ↔
      FitsBoard (G.sem V) host.rt.ctx toks := by
  obtain ⟨rest, rfl⟩ : ∃ rest, toks = G.bos :: rest := by
    cases toks with
    | nil => cases hhead
    | cons t rest => exact ⟨rest, by cases hhead; rfl⟩
  have hrefused : ∀ {f B₁}, cmdSemDecode G hex2bin B (printHex wire) = some (.error f, B₁) →
      ¬ ∃ text B', cmdSemDecode G hex2bin B (printHex wire) =
      some (.ok ⟨G.bos :: rest, text⟩, B') := by
    rintro f B₁ herr ⟨text, B', hok⟩
    cases herr.symm.trans hok
  rcases eq_or_ne rest [] with rfl | hne
  · -- BOS alone has an empty wire
    cases henc.symm.trans (semEncode_singleton (G.sem V) G.bos)
    refine iff_of_false (hrefused (cmdSemDecode_empty hB (hhex.reads [] _ (Nat.zero_le _)))) ?_
    exact fun h => absurd h.more (show ¬ 2 ≤ 1 by decide)
  · obtain ⟨hn, hbos, hrange, hroom⟩ := semEncode_accepts (G.sem V) hpm hne henc
    obtain ⟨ts, rfl⟩ := exists_tokens (G.sem V) hrange
    have hlen : (tokens (G.sem V) ts).length = ts.length := List.length_map _
    rw [hlen] at hn hroom
    have hpos : 0 < ts.length := by
      rw [← hlen]
      exact List.length_pos_iff.mpr hne
    obtain ⟨wire', st', henc', -, -, hin⟩ := semEncode_ok (G.sem V) hpm hbos hn hroom
      (show 8 + 6 * ts.length ≤ maxWire by unfold maxWire semLenSymbols at *; omega)
    cases henc.symm.trans henc'
    have hwire := wire_ne_nil hn hpos (contains_of_codeTokens (G.sem V) ts hin)
    have hshort := semEncode_length_le_iff (G.sem V) hpm hbos hn hroom henc semMaxWire
    rcases Nat.lt_or_ge semMaxWire wire.length with hover | hfits
    · refine iff_of_false (hrefused (cmdSemDecode_empty hB (hhex.refuses _ _ hover))) fun h => ?_
      obtain ⟨ts', hn', heq, hdvd⟩ := h.wire
      cases tokens_injective (G.sem V) (List.cons.inj heq).2
      exact absurd (hshort.mpr hdvd) (Nat.not_le_of_lt hover)
    · have hread := hhex.reads wire semMaxWire hfits
      rcases Nat.lt_or_ge host.rt.ctx (ts.length + 1) with hlong | hsmall
      · refine iff_of_false (hrefused (cmdSemDecode_long hB hread hwire hn
          (contains_of_codeTokens (G.sem V) ts hin) (by rw [hctx]; exact hlong))) fun h => ?_
        have hcontext := h.context
        rw [List.length_cons, hlen] at hcontext
        exact absurd hcontext (Nat.not_le_of_lt hlong)
      · obtain ⟨B', hrun⟩ := cmdSemDecode_ok hB hread hwire hbos hn (by rw [hctx]; exact hsmall) hin
        refine iff_of_true ⟨_, B', hrun⟩ ⟨?_, ?_, ts, hn, rfl, hshort.mp hfits⟩
        · rw [List.length_cons, hlen]
          exact Nat.succ_le_succ hpos
        · rw [List.length_cons, hlen]
          exact hsmall

end Ends

/-! ## Two tokens, all logits equal -/

theorem two_le_maxVocab : 2 ≤ tqAcMaxVocab := by decide

def twoVocab : Vocab := ⟨2, Nat.two_pos, two_le_maxVocab⟩

def twoModel : BoardModel Unit Unit where
  vocabSize := 2
  bos := 1
  logits _ _ := ()
  gt _ _ := false
  deltaQ16 _ _ := 0
  tok := byteVocab.tokenizer 1 2 64
  scoreGt _ _ := false

def twoState (ctx : Nat) : SemState Unit := ⟨⟨ctx, fun _ => 0, fun _ => ()⟩, twoVocab.model⟩

def twoBoard (ctx : Nat) : Board Unit := ⟨true, true, (twoState ctx).rt, twoVocab.model⟩

/-- BOS and the other token, on the host. -/
theorem two_encoded {ctx : Nat} (hctx : 1 ≤ ctx) :
    ∃ wire host', semEncode (twoModel.sem twoVocab) (twoState ctx) [1, 0] maxWire
        = some (.ok, wire, host') ∧
      (initIv.code 256 (2 ^ 24) 3 (lenSlot 1 (by decide))).Contains 256 (digitsOf wire) := by
  obtain ⟨wire, host', henc, -, -, hin⟩ := @semEncode_ok Unit (twoModel.sem twoVocab)
    (twoState ctx) [⟨0, by decide⟩] 1 twoVocab.model_for
    (show (0 : Int) ≤ 1 ∧ (1 : Int) < 2 by decide) (show 1 < semLenSymbols by decide) hctx
    maxWire (show 8 + 6 * 1 ≤ maxWire by decide)
  exact ⟨wire, host', henc, contains_of_codeTokens (twoModel.sem twoVocab) _ hin⟩

/-- BOS and one more token, between a host and a board with room for eight. -/
theorem semEncode_cmdSemDecode_two :
    ∃ wire host', semEncode (twoModel.sem twoVocab) (twoState 8) [1, 0] maxWire
        = some (.ok, wire, host') ∧
      ((∃ text B', cmdSemDecode twoModel readHex (twoBoard 8) (printHex wire)
          = some (.ok ⟨[1, 0], text⟩, B')) ↔
        FitsBoard (twoModel.sem twoVocab) 8 [1, 0]) := by
  obtain ⟨wire, host', henc, -⟩ := two_encoded (show 1 ≤ 8 by decide)
  exact ⟨wire, host', henc, semEncode_cmdSemDecode twoModel twoVocab readHex_reads (twoState 8)
    twoVocab.model_for (twoBoard 8) ⟨rfl, rfl, rfl⟩ rfl [1, 0] rfl henc⟩

/-- The same message between a host and a board with room for one: the host
feeds BOS alone, and the board finds two tokens too many. -/
theorem semEncode_cmdSemDecode_context :
    ¬ ∀ (G : BoardModel Unit Unit) (V : Vocab) (hex2bin : List UInt8 → Nat → List UInt8)
      (host : SemState Unit) (B : Board Unit) (toks : List Int) (wire : List UInt8)
      (host' : SemState Unit),
      ReadsHex hex2bin → host.pm.For V → B.Ready G V → B.rt.ctx = host.rt.ctx →
      toks.head? = some G.bos →
      semEncode (G.sem V) host toks maxWire = some (.ok, wire, host') →
      ∃ text B', cmdSemDecode G hex2bin B (printHex wire) = some (.ok ⟨toks, text⟩, B') := by
  intro h
  obtain ⟨wire, host', henc, hlen⟩ := two_encoded (Nat.le_refl 1)
  have hready : (twoBoard 1).Ready twoModel twoVocab := ⟨rfl, rfl, rfl⟩
  obtain ⟨text, B', hrun⟩ := h twoModel twoVocab readHex (twoState 1) (twoBoard 1) [1, 0] wire host'
    readHex_reads twoVocab.model_for hready rfl rfl henc
  rcases Nat.lt_or_ge semMaxWire wire.length with hover | hfits
  · cases hrun.symm.trans (cmdSemDecode_empty hready (readHex_reads.refuses _ _ hover))
  · cases hrun.symm.trans (cmdSemDecode_long hready (readHex_reads.reads _ _ hfits)
      (wire_ne_nil _ Nat.one_pos hlen) _ hlen (show 1 < 1 + 1 by decide))

end TinyLlm
