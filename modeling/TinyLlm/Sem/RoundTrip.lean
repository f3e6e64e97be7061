/-
# `TinyLlm.Sem.RoundTrip` — a message survives the wire

The encoder and the decoder feed the same tokens at the same positions, so
they see the same logits and narrow the same intervals.  `codeTokens` is the
interval after a list of tokens; each end keeps it, the encoder by
`semEncodeFrom_at` and the decoder by `semDecodeFrom_at`.  A symbol takes at
most three bytes, so a message of 256 tokens is far from filling the buffer.
-/
import TinyLlm.Sem.Host

namespace TinyLlm

open IntervalCoding

variable {F : Type} (M : SemModel F)

namespace SemRuntime

/-- The first positions were last fed these tokens. -/
def Fed (rt : SemRuntime F) (toks : List Int) : Prop :=
  (List.range toks.length).map rt.fed = toks

end SemRuntime

theorem fed_nil (rt : SemRuntime F) : rt.Fed [] := rfl

/-- **Feeding the next token** gives the logits of the tokens so far. -/
theorem semForward_ok {rt : SemRuntime F} {p : List Int} {tok : Int} (hfed : rt.Fed p)
    (htok : 0 ≤ tok ∧ tok < M.vocab.size) (hctx : p.length < rt.ctx) :
    ∃ rt', semForward M rt tok p.length = (.ok, rt') ∧ rt'.Fed (p ++ [tok]) ∧
      rt'.ctx = rt.ctx ∧ rt'.logits = M.logits (p ++ [tok]) := by
  have hnew : (List.range (p.length + 1)).map (Function.update rt.fed p.length tok) =
      p ++ [tok] := by
    rw [List.range_succ, List.map_append, List.map_singleton, Function.update_self]
    congr 1
    refine Eq.trans (List.map_congr_left fun k hk => ?_) hfed
    exact Function.update_of_ne (Nat.ne_of_lt (List.mem_range.mp hk)) _ _
  refine ⟨{ rt with fed := Function.update rt.fed p.length tok, logits := M.logits (p ++ [tok]) },
    ?_, ?_, rfl, rfl⟩
  · rw [semForward, if_neg (by omega), if_neg (by omega)]
    simp only [hnew]
  · unfold SemRuntime.Fed
    rw [List.length_append, List.length_singleton]
    exact hnew

/-- The tokens of a message, as the C passes them. -/
def tokens (ts : List (Fin M.vocab.size)) : List Int := ts.map fun t => (t.val : Int)

theorem tok_bounds (t : Fin M.vocab.size) : 0 ≤ (t.val : Int) ∧ (t.val : Int) < M.vocab.size :=
  ⟨Int.natCast_nonneg _, by exact_mod_cast t.isLt⟩

/-- The interval after the tokens `ts`, when `p` was fed before them. -/
def codeTokens (s : Iv) (p : List Int) : List (Fin M.vocab.size) → Iv
  | [] => s
  | t :: ts =>
      codeTokens (codeToken M.gt M.deltaQ16 (M.logits p) M.vocab s t.val t.isLt)
        (p ++ [(t.val : Int)]) ts

theorem contains_of_codeTokens {buf : List UInt8} : ∀ (ts : List (Fin M.vocab.size)) {s : Iv}
    {p : List Int}, (codeTokens M s p ts).Contains 256 (digitsOf buf) →
      s.Contains 256 (digitsOf buf)
  | [], _, _, h => h
  | t :: ts, s, p, h => by
      have hin := contains_of_codeTokens ts
        (s := codeToken M.gt M.deltaQ16 (M.logits p) M.vocab s t.val t.isLt) h
      have hlt := digitsOf_lt buf
      exact Iv.contains_of_narrow (Iv.contains_of_code hlt
        (Iv.contains_of_narrow (Iv.contains_of_code hlt hin)))

/-! ## The two loops -/

/-- **The encoder's loop** ends in the interval of the tokens. -/
theorem semEncodeFrom_at : ∀ (ts : List (Fin M.vocab.size)) {p : List Int} {tok : Int}
    {e : TqAcEnc} {s : Iv} {st : SemState F}, e.At s → st.pm.For M.vocab → st.rt.Fed p →
    (0 ≤ tok ∧ tok < M.vocab.size) → p.length + ts.length ≤ st.rt.ctx →
    ∃ e' st', semEncodeFrom M (tok :: tokens M ts) p.length e st = some (.ok, e', st') ∧
      st'.pm.For M.vocab ∧ st'.rt.ctx = st.rt.ctx ∧
      e'.At (codeTokens M s (p ++ [tok]) ts) ∧
      ∀ n, e.Room (6 * ts.length + n) → e'.Room n := by
  intro ts
  induction ts with
  | nil =>
      intro p tok e s st he hpm _ _ _
      exact ⟨e, st, rfl, hpm, rfl, he, fun n h => h.mono (by omega)⟩
  | cons t ts ih =>
      intro p tok e s st he hpm hfed htok hctx
      rw [List.length_cons] at hctx
      obtain ⟨rt, hrt, hfed', hctx', hlog⟩ := semForward_ok M hfed htok (by omega)
      obtain ⟨e₁, pm, he₁, hpm₁, hat₁, hroom₁⟩ :=
        tqAcEncToken_at M.gt M.deltaQ16 rt.logits he hpm t.isLt
      rw [hlog] at hat₁
      obtain ⟨e₂, st₂, he₂, hpm₂, hctx₂, hat₂, hroom₂⟩ := ih (p := p ++ [tok]) hat₁
        (show (SemState.mk rt pm).pm.For M.vocab from hpm₁) hfed' (tok_bounds M t)
        (by rw [List.length_append, List.length_singleton]; show _ ≤ rt.ctx; omega)
      refine ⟨e₂, st₂, ?_, hpm₂, hctx₂.trans hctx', hat₂, fun n h => ?_⟩
      · show semEncodeFrom M (tok :: (t.val : Int) :: tokens M ts) _ _ _ = _
        rw [List.length_append, List.length_singleton] at he₂
        simp only [semEncodeFrom, hrt, he₁, Option.bind_eq_bind, Option.bind_some]
        exact he₂
      · rw [List.length_cons] at h
        exact hroom₂ n (hroom₁ _ (h.mono (by omega)))

/-- **The decoder's loop** recovers the tokens of a message in that interval. -/
theorem semDecodeFrom_at : ∀ (ts : List (Fin M.vocab.size)) {p : List Int} {tok : Int}
    {d : TqAcDec} {s : Iv} {st : SemState F}, d.At s → st.pm.For M.vocab → st.rt.Fed p →
    (0 ≤ tok ∧ tok < M.vocab.size) → p.length + ts.length ≤ st.rt.ctx →
    (codeTokens M s (p ++ [tok]) ts).Contains 256 (digitsOf d.buf) →
    ∃ st', semDecodeFrom M ts.length (p ++ [tok]) d st
        = some (.ok (p ++ tok :: tokens M ts), st') ∧
      st'.pm.For M.vocab ∧ st'.rt.ctx = st.rt.ctx := by
  intro ts
  induction ts with
  | nil =>
      intro p tok d s st _ hpm _ _ _ _
      exact ⟨st, rfl, hpm, rfl⟩
  | cons t ts ih =>
      intro p tok d s st hd hpm hfed htok hctx hin
      rw [List.length_cons] at hctx
      obtain ⟨rt, hrt, hfed', hctx', hlog⟩ := semForward_ok M hfed htok (by omega)
      have hin₁ := contains_of_codeTokens M ts
        (s := codeToken M.gt M.deltaQ16 (M.logits (p ++ [tok])) M.vocab s t.val t.isLt) hin
      obtain ⟨d₁, pm, hd₁, hpm₁, hat₁, hbuf₁⟩ :=
        tqAcDecToken_at M.gt M.deltaQ16 rt.logits hd hpm t.isLt (by rw [hlog]; exact hin₁)
      rw [hlog] at hat₁
      obtain ⟨st₂, hst₂, hpm₂, hctx₂⟩ := ih (p := p ++ [tok]) hat₁
        (show (SemState.mk rt pm).pm.For M.vocab from hpm₁) hfed' (tok_bounds M t)
        (by rw [List.length_append, List.length_singleton]; show _ ≤ rt.ctx; omega)
        (by rw [hbuf₁]; exact hin)
      refine ⟨st₂, ?_, hpm₂, hctx₂.trans hctx'⟩
      have hlast : (p ++ [tok]).getLastD 0 = tok := by simp
      have hpos : (p ++ [tok]).length - 1 = p.length := by simp
      rw [List.length_cons]
      simp only [semDecodeFrom, hlast, hpos, hrt, hd₁, Option.bind_eq_bind, Option.bind_some]
      rw [hst₂, List.append_assoc]
      rfl

/-! ## The length symbol -/

/-- The slot of a message with `k` tokens after BOS. -/
def lenSlot (k : Nat) (hk : k < semLenSymbols) : Slot where
  cum := k * 256
  freq := 256
  tot := 2 ^ 16
  freq_pos := by decide
  fits := by unfold semLenSymbols at hk; omega

theorem toNat_semLenFreq : semLenFreq.toNat = 256 := by decide

theorem toNat_lenCum {k : Nat} (hk : k < semLenSymbols) :
    (UInt32.ofNat k * semLenFreq).toNat = k * 256 := by
  unfold semLenSymbols at hk
  have hof : (UInt32.ofNat k).toNat = k :=
    UInt32.toNat_ofNat_of_lt' (by show k < 4294967296; omega)
  rw [UInt32.toNat_mul, hof, toNat_semLenFreq]
  exact Nat.mod_eq_of_lt (by omega)

/-- The interval of a whole message: its length, then its tokens. -/
def semInterval (bos : Int) (ts : List (Fin M.vocab.size)) (hn : ts.length < semLenSymbols) : Iv :=
  codeTokens M ((⟨0, 2 ^ 32 - 1, 4⟩ : Iv).code 256 (2 ^ 24) 3 (lenSlot ts.length hn)) [bos] ts

section Message
variable {st : SemState F} {ts : List (Fin M.vocab.size)} {bos : Int}

/-- **Encoding** ends well, and the bytes lie in the interval of the message. -/
theorem semEncode_ok (hpm : st.pm.For M.vocab) (hbos : 0 ≤ bos ∧ bos < M.vocab.size)
    (hn : ts.length < semLenSymbols) (hctx : ts.length ≤ st.rt.ctx) {cap : Nat}
    (hcap : 8 + 6 * ts.length ≤ cap) :
    ∃ wire st', semEncode M st (bos :: tokens M ts) cap = some (.ok, wire, st') ∧
      st'.pm.For M.vocab ∧ st'.rt.ctx = st.rt.ctx ∧
      (semInterval M bos ts hn).Contains 256 (digitsOf wire) := by
  obtain ⟨e₁, he₁, hat₁, -⟩ := tqAcEncSym_at (at_init cap) (lenSlot ts.length hn) (Nat.le_refl _)
    (toNat_lenCum hn) toNat_semLenFreq toNat_tqAcTot
  obtain ⟨e₂, st₂, he₂, hpm₂, hctx₂, hat₂, hroom₂⟩ := semEncodeFrom_at M ts hat₁ hpm
    (fed_nil st.rt) hbos (by simpa using hctx)
  have hroom : (tqAcEncInit cap).Room (3 + (6 * ts.length + 5)) :=
    ⟨rfl, by show 0 + (3 + (6 * ts.length + 5)) ≤ cap; omega⟩
  have hclear := tqAcEncFinish_room (hroom₂ 5 (tqAcEncSym_room hroom he₁))
  obtain ⟨hin, -⟩ := tqAcEncFinish_contains hat₂ hclear
  refine ⟨(tqAcEncFinish e₂).buf, st₂, ?_, hpm₂, hctx₂, hin⟩
  have hlen : (bos :: tokens M ts).length = ts.length + 1 := by simp [tokens]
  have hrange : ¬ (ts.length + 1 < 1 ∨ ts.length ≥ semLenSymbols) := by omega
  simp only [List.length_nil] at he₂
  simp only [semEncode, hlen, Nat.add_sub_cancel, if_neg hrange, he₁, he₂, Option.bind_eq_bind,
    Option.bind_some, hclear, Bool.false_eq_true, if_false]

/-- The decoder reads the length first. -/
theorem semDecode_length {k : Nat} (hn : k < semLenSymbols) {wire : List UInt8}
    (hin : ((⟨0, 2 ^ 32 - 1, 4⟩ : Iv).code 256 (2 ^ 24) 3 (lenSlot k hn)).Contains 256
      (digitsOf wire)) :
    ∃ target d₀ d, tqAcDecTarget (tqAcDecInit wire) tqAcTot = some (target, d₀) ∧
      (target / semLenFreq).toNat = k ∧
      tqAcDecUpdate d₀ (UInt32.ofNat k * semLenFreq) semLenFreq = some d ∧
      d.At ((⟨0, 2 ^ 32 - 1, 4⟩ : Iv).code 256 (2 ^ 24) 3 (lenSlot k hn)) ∧ d.buf = wire := by
  have hnarrow := Iv.contains_of_code (digitsOf_lt wire) hin
  have hinit := dec_at_init (Iv.contains_of_narrow hnarrow)
  obtain ⟨target, htarget, hlo, hhi⟩ := tqAcDecTarget_at hinit (t := lenSlot k hn)
    (Nat.le_refl _) toNat_tqAcTot (by rw [tqAcDecInit_buf]; exact hnarrow)
  obtain ⟨d, hd, hat, hbuf⟩ := tqAcDecUpdate_at hinit (t := lenSlot k hn)
    (Nat.le_refl _) (toNat_lenCum hn) toNat_semLenFreq toNat_tqAcTot
    (by rw [tqAcDecInit_buf]; exact hin)
  rw [tqAcDecInit_buf] at hbuf
  refine ⟨target, _, d, htarget, ?_, hd, hat, hbuf⟩
  have h₁ : k * 256 ≤ target.toNat := hlo
  have h₂ : target.toNat < k * 256 + 256 := hhi
  rw [UInt32.toNat_div, toNat_semLenFreq]
  omega

/-- **Decoding** recovers the message of every wire in that interval. -/
theorem semDecode_ok (hpm : st.pm.For M.vocab) (hbos : 0 ≤ M.bos ∧ M.bos < M.vocab.size)
    (hn : ts.length < semLenSymbols) (hctx : ts.length ≤ st.rt.ctx) {max : Nat}
    (hmax : ts.length + 1 ≤ max) {wire : List UInt8}
    (hin : (semInterval M M.bos ts hn).Contains 256 (digitsOf wire)) :
    ∃ st', semDecode M st wire max = some (.ok (M.bos :: tokens M ts), st') ∧
      st'.pm.For M.vocab ∧ st'.rt.ctx = st.rt.ctx := by
  obtain ⟨target, d₀, d, htarget, hwant, hd, hat, hbuf⟩ :=
    semDecode_length hn (contains_of_codeTokens M ts hin)
  obtain ⟨st', hst', hpm', hctx'⟩ := semDecodeFrom_at M ts hat hpm
    (fed_nil st.rt) hbos (by simpa using hctx) (by rw [hbuf]; exact hin)
  refine ⟨st', ?_, hpm', hctx'⟩
  have hfit : ¬ ts.length + 1 > max := by omega
  simp only [List.nil_append] at hst'
  simp only [semDecode, htarget, hwant, hd, Option.bind_eq_bind, Option.bind_some, if_neg hfit]
  exact hst'

end Message

/-- Tokens in range are the tokens of a list of indices. -/
theorem exists_tokens {toks : List Int} (h : ∀ t ∈ toks, 0 ≤ t ∧ t < M.vocab.size) :
    ∃ ts, toks = tokens M ts := by
  induction toks with
  | nil => exact ⟨[], rfl⟩
  | cons t toks ih =>
      obtain ⟨ts, hts⟩ := ih fun x hx => h x (List.mem_cons_of_mem t hx)
      obtain ⟨h₀, h₁⟩ := h t List.mem_cons_self
      refine ⟨⟨t.toNat, by omega⟩ :: ts, ?_⟩
      rw [hts]
      show _ = ((t.toNat : Nat) : Int) :: _
      rw [Int.toNat_of_nonneg h₀]
      rfl

/-- **Semaphore round trip.**  A message of at most 256 tokens that starts with
BOS is encoded, and what is decoded from the wire, over the runtime and the
tables that encoding left behind, is the message. -/
theorem semEncode_semDecode (st : SemState F) (hpm : st.pm.For M.vocab) (toks : List Int)
    (hhead : toks.head? = some M.bos) (htok : ∀ t ∈ toks, 0 ≤ t ∧ t < M.vocab.size)
    (hn : toks.length ≤ 256) (hctx : toks.length - 1 ≤ st.rt.ctx) (max : Nat)
    (hmax : toks.length ≤ max) :
    ∃ wire st₁ st₂, semEncode M st toks maxWire = some (.ok, wire, st₁) ∧
      semDecode M st₁ wire max = some (.ok toks, st₂) := by
  obtain ⟨rest, rfl⟩ : ∃ rest, toks = M.bos :: rest := by
    cases toks with
    | nil => cases hhead
    | cons t rest => exact ⟨rest, by cases hhead; rfl⟩
  obtain ⟨ts, rfl⟩ := exists_tokens M fun t ht => htok t (List.mem_cons_of_mem _ ht)
  have hbos := htok M.bos List.mem_cons_self
  rw [List.length_cons, tokens, List.length_map] at hn hctx hmax
  obtain ⟨wire, st₁, henc, hpm₁, hctx₁, hin⟩ := semEncode_ok M hpm hbos
    (show ts.length < semLenSymbols from hn) hctx
    (show 8 + 6 * ts.length ≤ maxWire by unfold maxWire; omega)
  obtain ⟨st₂, hdec, -, -⟩ := semDecode_ok M hpm₁ hbos hn (by rw [hctx₁]; exact hctx)
    hmax hin
  exact ⟨wire, st₁, st₂, henc, hdec⟩

/-- The round trip of BOS and one more token, over a two-token vocabulary whose
logits are all equal. -/
theorem semEncode_semDecode_two :
    ∃ wire st₁ st₂,
      semEncode (F := Unit) ⟨⟨2, by decide, by decide⟩, 1, fun _ _ => (), fun _ _ => false,
          fun _ _ => 0⟩
        ⟨⟨8, fun _ => 0, fun _ => ()⟩, Vocab.model ⟨2, by decide, by decide⟩⟩ [1, 0] maxWire
        = some (.ok, wire, st₁) ∧
      semDecode (F := Unit) ⟨⟨2, by decide, by decide⟩, 1, fun _ _ => (), fun _ _ => false,
          fun _ _ => 0⟩ st₁ wire 2 = some (.ok [1, 0], st₂) :=
  semEncode_semDecode (F := Unit)
    ⟨⟨2, by decide, by decide⟩, 1, fun _ _ => (), fun _ _ => false, fun _ _ => 0⟩
    ⟨⟨8, fun _ => 0, fun _ => ()⟩, Vocab.model ⟨2, by decide, by decide⟩⟩ (Vocab.model_for _)
    [1, 0] rfl (by decide) (by decide) (by decide) 2 (by decide)

end TinyLlm
