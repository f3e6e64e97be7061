/-
# `TinyLlm.Sem.Message` — a Semaphore message is a list of triples

The tables of a message depend on its tokens alone, so what `sem_encode` hands
to the coder can be written down before any buffer is chosen: the length, then
two triples for each token (`semTriples`).  Encoding is coding those
(`semEncode_triples`), and what is known of triples holds of messages: the buffer a
message needs is the digits of its interval, whatever the logits are.
-/
import TinyLlm.Ac.Overflow
import TinyLlm.Sem.RoundTrip

namespace TinyLlm

open IntervalCoding Finset

/-! ## Slots as triples -/

/-- The words that name a slot. -/
def AcTriple.ofSlot (t : Slot) (h : t.tot ≤ 2 ^ 16) : AcTriple where
  cum := UInt32.ofNat t.cum
  freq := UInt32.ofNat t.freq
  tot := UInt32.ofNat t.tot
  freq_pos := by
    have hpos := t.freq_pos
    have hfits := t.fits
    rw [UInt32.toNat_ofNat_of_lt' (by show t.freq < 2 ^ 32; omega)]
    exact hpos
  fits := by
    have hfits := t.fits
    rw [UInt32.toNat_ofNat_of_lt' (show t.cum < 2 ^ 32 by have := h; omega),
      UInt32.toNat_ofNat_of_lt' (show t.freq < 2 ^ 32 by have := h; omega),
      UInt32.toNat_ofNat_of_lt' (show t.tot < 2 ^ 32 by have := h; omega)]
    exact hfits
  tot_le := by
    rw [UInt32.toNat_ofNat_of_lt' (by show t.tot < 2 ^ 32; omega)]
    exact h

theorem ofSlot_words {t : Slot} (h : t.tot ≤ 2 ^ 16) {cum freq tot : UInt32}
    (hc : cum.toNat = t.cum) (hf : freq.toNat = t.freq) (ht : tot.toNat = t.tot) :
    cum = (AcTriple.ofSlot t h).cum ∧ freq = (AcTriple.ofSlot t h).freq ∧
      tot = (AcTriple.ofSlot t h).tot := by
  have hfits := t.fits
  refine ⟨?_, ?_, ?_⟩ <;> rw [← UInt32.toNat_inj] <;> unfold AcTriple.ofSlot
  · rw [hc, UInt32.toNat_ofNat_of_lt' (by show t.cum < 2 ^ 32; omega)]
  · rw [hf, UInt32.toNat_ofNat_of_lt' (by show t.freq < 2 ^ 32; omega)]
  · rw [ht, UInt32.toNat_ofNat_of_lt' (by show t.tot < 2 ^ 32; omega)]

theorem ofSlot_slot (t : Slot) (h : t.tot ≤ 2 ^ 16) : (AcTriple.ofSlot t h).slot = t := by
  have hfits := t.fits
  have hc : (UInt32.ofNat t.cum).toNat = t.cum :=
    UInt32.toNat_ofNat_of_lt' (by show t.cum < 2 ^ 32; omega)
  have hf : (UInt32.ofNat t.freq).toNat = t.freq :=
    UInt32.toNat_ofNat_of_lt' (by show t.freq < 2 ^ 32; omega)
  have ht : (UInt32.ofNat t.tot).toNat = t.tot :=
    UInt32.toNat_ofNat_of_lt' (by show t.tot < 2 ^ 32; omega)
  obtain ⟨cum, freq, tot, hpos, hfit⟩ := t
  unfold AcTriple.ofSlot AcTriple.slot
  simp only [hc, hf, ht]

/-- A call of `tq_ac_enc_sym` is the triple of its slot. -/
theorem tqAcEncSym_ofSlot {t : Slot} (h : t.tot ≤ 2 ^ 16) {cum freq tot : UInt32}
    (hc : cum.toNat = t.cum) (hf : freq.toNat = t.freq) (ht : tot.toNat = t.tot) (e : TqAcEnc) :
    tqAcEncSym e cum freq tot = codeTriples e [AcTriple.ofSlot t h] := by
  obtain ⟨rfl, rfl, rfl⟩ := ofSlot_words h hc hf ht
  exact (bind_pure _).symm

theorem codeTriples_append (e : TqAcEnc) (a b : List AcTriple) :
    codeTriples e (a ++ b) = (codeTriples e a).bind fun e => codeTriples e b :=
  List.foldlM_append

theorem tripleInterval_append (s : Iv) (a b : List AcTriple) :
    tripleInterval s (a ++ b) = tripleInterval (tripleInterval s a) b :=
  List.foldl_append

theorem slot_tot_le (T : CountTable) {i : Nat} (hi : i < T.n) : (T.slot i hi).tot ≤ 2 ^ 16 :=
  T.total_le

/-! ## Tokens as triples -/

section Token
variable {F : Type} (gt : F → F → Bool) (deltaQ16 : F → F → Int) (logits : Nat → F)

theorem bucketSlot_tot_le (V : Vocab) (token : Nat) (ht : token < V.size) :
    (bucketSlot gt deltaQ16 logits V token ht).tot ≤ 2 ^ 16 :=
  slot_tot_le _ _

theorem symbolSlot_tot_le (V : Vocab) (token : Nat) (ht : token < V.size) :
    (symbolSlot gt deltaQ16 logits V token ht).tot ≤ 2 ^ 16 :=
  slot_tot_le _ _

/-- The two symbols of a token. -/
def tokenTriple (V : Vocab) (token : Nat) (ht : token < V.size) : List AcTriple :=
  [AcTriple.ofSlot (bucketSlot gt deltaQ16 logits V token ht)
      (bucketSlot_tot_le gt deltaQ16 logits V token ht),
    AcTriple.ofSlot (symbolSlot gt deltaQ16 logits V token ht)
      (symbolSlot_tot_le gt deltaQ16 logits V token ht)]

/-- A call of `tq_ac_enc_sym` from a table is the triple of its slot. -/
theorem tqAcEncSym_slot (T : CountTable) {i : Nat} (hi : i < T.n) {t : Slot}
    (h : T.slot i hi = t) (ht : t.tot ≤ 2 ^ 16) (e : TqAcEnc) :
    tqAcEncSym e (tqAcCum T.cnt i) (T.cnt i) T.tot = codeTriples e [AcTriple.ofSlot t ht] := by
  cases h
  exact tqAcEncSym_ofSlot ht (T.toNat_cum hi.le) rfl T.toNat_tot e

/-- **A token** is its two triples, whatever the scratch holds. -/
theorem tqAcEncToken_triple {V : Vocab} {pm : TqAcModel} (h : pm.For V) {token : Nat}
    (ht : token < V.size) :
    ∃ pm', pm'.For V ∧ ∀ e, tqAcEncToken gt deltaQ16 e pm logits token
      = (codeTriples e (tokenTriple gt deltaQ16 logits V token ht)).map
          fun e' => (.ok, e', pm') := by
  have hb := Vocab.div_lt_nbuckets ht
  have hbn : token / tqAcBucket < (bucketTable gt deltaQ16 logits h).n :=
    Nat.lt_of_lt_of_eq hb h.nbuckets.symm
  have hpm₁ := bucketCounts_for gt deltaQ16 logits h
  have hsn : token % tqAcBucket < (symbolTable gt deltaQ16 logits hpm₁ (token / tqAcBucket) hb).n :=
    mod_lt_bucketSize hpm₁ ht
  have hbucket := tqAcEncSym_slot _ hbn (t := bucketSlot gt deltaQ16 logits V token ht)
    (bucketTable_slot gt deltaQ16 logits h V.model_for hbn hb)
    (bucketSlot_tot_le gt deltaQ16 logits V token ht)
  have hsymbol := tqAcEncSym_slot _ hsn (t := symbolSlot gt deltaQ16 logits V token ht)
    (symbolTable_slot gt deltaQ16 logits hpm₁ V.model_for hb hsn
      (mod_lt_bucketSize V.model_for ht)) (symbolSlot_tot_le gt deltaQ16 logits V token ht)
  rw [bucketTable_tot, bucketTable_cnt] at hbucket
  rw [symbolTable_tot, symbolTable_cnt] at hsymbol
  refine ⟨tqAcSymbolCounts gt deltaQ16 (tqAcBucketCounts gt deltaQ16 pm logits) logits
    (token / tqAcBucket), symbolCounts_for gt deltaQ16 logits hpm₁ _, fun e => ?_⟩
  have hrange : ¬ ((token : Int) < 0 ∨ (token : Int) ≥ pm.vocab) := by
    rw [h.vocab]
    omega
  have hpair : codeTriples e (tokenTriple gt deltaQ16 logits V token ht) = _ :=
    codeTriples_append e [_] [_]
  rw [hpair]
  simp only [tqAcEncToken, if_neg hrange, Int.toNat_natCast, hbucket, hsymbol, Option.bind_eq_bind]
  generalize codeTriples e [_] = first
  cases first with
  | none => rfl
  | some e₁ =>
      dsimp only [Option.bind_some]
      generalize codeTriples e₁ [_] = second
      cases second <;> rfl

theorem tripleInterval_tokenTriple (V : Vocab) (s : Iv) (token : Nat) (ht : token < V.size) :
    tripleInterval s (tokenTriple gt deltaQ16 logits V token ht)
      = codeToken gt deltaQ16 logits V s token ht := by
  have hpair : ∀ a b : AcTriple, tripleInterval s [a, b]
      = (s.code 256 (2 ^ 24) 3 a.slot).code 256 (2 ^ 24) 3 b.slot := fun _ _ => rfl
  rw [tokenTriple, hpair, ofSlot_slot, ofSlot_slot, codeToken]

end Token

/-! ## Messages as triples -/

section Message
variable {F : Type} (M : SemModel F)

/-- A token is in the vocabulary. -/
theorem SemModel.token_lt (t : Fin M.vocab.size) : t.val < M.vocab.size := t.isLt

/-- The triples of the tokens `ts`, when `p` was fed before them. -/
def tokenTriples (p : List Int) : List (Fin M.vocab.size) → List AcTriple
  | [] => []
  | t :: ts =>
      tokenTriple M.gt M.deltaQ16 (M.logits p) M.vocab t.val (M.token_lt t)
        ++ tokenTriples (p ++ [(t.val : Int)]) ts

theorem lenSlot_tot_le {k : Nat} (hk : k < semLenSymbols) : (lenSlot k hk).tot ≤ 2 ^ 16 :=
  Nat.le_refl _

/-- The triples of a whole message. -/
def semTriples (bos : Int) (ts : List (Fin M.vocab.size)) (hn : ts.length < semLenSymbols) :
    List AcTriple :=
  AcTriple.ofSlot (lenSlot ts.length hn) (lenSlot_tot_le hn) :: tokenTriples M [bos] ts

theorem length_tokenTriples : ∀ (ts : List (Fin M.vocab.size)) (p : List Int),
    (tokenTriples M p ts).length = 2 * ts.length
  | [], _ => rfl
  | t :: ts, p => by
      have ih := length_tokenTriples ts (p ++ [(t.val : Int)])
      rw [tokenTriples, List.length_append, ih, List.length_cons]
      show 2 + 2 * ts.length = _
      omega

theorem tripleInterval_tokenTriples : ∀ (ts : List (Fin M.vocab.size)) (s : Iv) (p : List Int),
    tripleInterval s (tokenTriples M p ts) = codeTokens M s p ts
  | [], _, _ => rfl
  | t :: ts, s, p => by
      rw [tokenTriples, tripleInterval_append, tripleInterval_tokenTriple]
      exact tripleInterval_tokenTriples ts _ _

theorem tripleInterval_semTriples (bos : Int) (ts : List (Fin M.vocab.size))
    (hn : ts.length < semLenSymbols) :
    tripleInterval initIv (semTriples M bos ts hn) = semInterval M bos ts hn := by
  rw [semTriples, semInterval, ← tripleInterval_tokenTriples]
  unfold tripleInterval
  rw [List.foldl_cons, ofSlot_slot]
  rfl

/-- **The encoder's loop** codes the triples, and leaves the same state behind
over every buffer. -/
theorem semEncodeFrom_triples : ∀ (ts : List (Fin M.vocab.size)) {p : List Int} {tok : Int}
    {st : SemState F}, st.pm.For M.vocab → st.rt.Fed p → (0 ≤ tok ∧ tok < M.vocab.size) →
    p.length + ts.length ≤ st.rt.ctx →
    ∃ st' : SemState F, st'.pm.For M.vocab ∧ st'.rt.ctx = st.rt.ctx ∧ ∀ e,
      semEncodeFrom M (tok :: tokens M ts) p.length e st
        = (codeTriples e (tokenTriples M (p ++ [tok]) ts)).map fun e' => (.ok, e', st') := by
  intro ts
  induction ts with
  | nil =>
      intro p tok st hpm _ _ _
      exact ⟨st, hpm, rfl, fun e => rfl⟩
  | cons t ts ih =>
      intro p tok st hpm hfed htok hctx
      rw [List.length_cons] at hctx
      obtain ⟨rt, hrt, hfed', hctx', hlog⟩ := semForward_ok M hfed htok (by omega)
      obtain ⟨pm, hpm₁, hcode⟩ := tqAcEncToken_triple M.gt M.deltaQ16 rt.logits hpm t.isLt
      obtain ⟨st₂, hpm₂, hctx₂, hrest⟩ := ih (p := p ++ [tok])
        (show (SemState.mk rt pm).pm.For M.vocab from hpm₁) hfed' (tok_bounds M t)
        (by rw [List.length_append, List.length_singleton]; show _ ≤ rt.ctx; omega)
      refine ⟨st₂, hpm₂, hctx₂.trans hctx', fun e => ?_⟩
      rw [hlog] at hcode
      rw [List.length_append, List.length_singleton] at hrest
      rw [tokenTriples, codeTriples_append]
      show semEncodeFrom M (tok :: (t.val : Int) :: tokens M ts) _ _ _ = _
      rw [semEncodeFrom, hrt]
      dsimp only
      rw [hlog, hcode]
      cases codeTriples e (tokenTriple M.gt M.deltaQ16 (M.logits (p ++ [tok])) M.vocab t.val t.isLt)
        with
      | none => rfl
      | some e₁ => exact hrest e₁

/-- **`sem_encode` is its triples.**  The state it leaves behind is that of any
other buffer. -/
theorem semEncode_triples {st : SemState F} {ts : List (Fin M.vocab.size)} {bos : Int}
    (hpm : st.pm.For M.vocab) (hbos : 0 ≤ bos ∧ bos < M.vocab.size)
    (hn : ts.length < semLenSymbols) (hctx : ts.length ≤ st.rt.ctx) :
    ∃ st' : SemState F, st'.pm.For M.vocab ∧ st'.rt.ctx = st.rt.ctx ∧ ∀ cap,
      semEncode M st (bos :: tokens M ts) cap
        = (encodeTriples cap (semTriples M bos ts hn)).map fun e =>
            (if e.overflow then .errNomem else .ok, e.buf, st') := by
  obtain ⟨st', hpm', hctx', hrun⟩ := semEncodeFrom_triples M ts hpm (fed_nil st.rt) hbos
    (by simpa using hctx)
  refine ⟨st', hpm', hctx', fun cap => ?_⟩
  have hlen : (bos :: tokens M ts).length = ts.length + 1 := by simp [tokens]
  have hrange : ¬ (ts.length + 1 < 1 ∨ ts.length ≥ semLenSymbols) := by omega
  have hfirst := tqAcEncSym_ofSlot (t := lenSlot ts.length hn) (lenSlot_tot_le hn)
    (toNat_lenCum hn) toNat_semLenFreq toNat_tqAcTot (tqAcEncInit cap)
  have hsplit := codeTriples_append (tqAcEncInit cap)
    [AcTriple.ofSlot (lenSlot ts.length hn) (lenSlot_tot_le hn)] (tokenTriples M [bos] ts)
  simp only [List.length_nil, List.nil_append] at hrun
  rw [encodeTriples, semTriples]
  change codeTriples _ (_ :: tokenTriples M [bos] ts) = _ at hsplit
  rw [hsplit]
  simp only [semEncode, hlen, Nat.add_sub_cancel, if_neg hrange, hfirst, hrun, Option.bind_eq_bind]
  cases codeTriples (tqAcEncInit cap)
    [AcTriple.ofSlot (lenSlot ts.length hn) (lenSlot_tot_le hn)] with
  | none => rfl
  | some e₁ =>
      dsimp only [Option.bind_some]
      cases codeTriples e₁ (tokenTriples M [bos] ts) <;> rfl

/-- How long the wire is, when the buffer took it. -/
theorem semEncode_length_le_iff {st st' : SemState F} {ts : List (Fin M.vocab.size)} {bos : Int}
    {cap : Nat} {wire : List UInt8} (hpm : st.pm.For M.vocab)
    (hbos : 0 ≤ bos ∧ bos < M.vocab.size) (hn : ts.length < semLenSymbols)
    (hctx : ts.length ≤ st.rt.ctx)
    (h : semEncode M st (bos :: tokens M ts) cap = some (.ok, wire, st')) (n : Nat) :
    wire.length ≤ n ↔
      256 ^ ((semInterval M bos ts hn).digits - n) ∣ flushPoint (semInterval M bos ts hn) := by
  obtain ⟨st₁, -, -, hrun⟩ := semEncode_triples M hpm hbos hn hctx
  rw [hrun cap] at h
  obtain ⟨e, he, hreply⟩ := Option.map_eq_some_iff.mp h
  have hbuf : e.buf = wire := congrArg (fun r => r.2.1) hreply
  have hrc : (if e.overflow then TqStatus.errNomem else .ok) = .ok := congrArg Prod.fst hreply
  have hov : e.overflow = false := by
    cases ho : e.overflow with
    | false => rfl
    | true =>
        rw [ho] at hrc
        cases hrc
  rw [← hbuf, encodeTriples_length_le_iff he hov, tripleInterval_semTriples]

end Message

end TinyLlm
