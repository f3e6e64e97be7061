/-
# `TinyLlm.Tok.Tables` — the tables that a tokenizer needs

Neither `tq_model_open` nor `tq_tokenizer_init` looks into the arrays of a
vocabulary, so an accepted file can have any.  `tq_decode` stays inside exactly
if the pieces lie in the blob (`tqDecodeAt_reads`).  All that `tq_encode` needs
besides is that the searches that texts ask for come to tokens only, and that
BOS is a token if it ever has a neighbour (`Served`, `tqEncodeAt_reads`).
Entries of the order that no such search comes to may be anything; an order
that lists tokens, and a BOS that is one, are enough (`Served.of_order`).
-/
import TinyLlm.Model.Image
import TinyLlm.Tok.Visits

namespace TinyLlm

open Loop Bytes Bpe

section Needed
variable {S : Type} {gt : S → S → Bool} {T : TqTokenizer S} {blobBytes : Nat}

theorem blobAt_bind {α : Type} {f : UInt8 → Except TqStop α} {r : Except TqStop α}
    (hf : ∀ c, f c = .error .outside ∨ f c = r) (i : Nat) :
    (blobAt T blobBytes i >>= f) = .error .outside ∨ (blobAt T blobBytes i >>= f) = r := by
  unfold blobAt
  split
  · exact hf _
  · exact .inl rfl

/-- Six bytes that do not lie in the blob are not all read. -/
theorem tqByteOfAt_out {a n : Nat} (hout : ¬ InBlob blobBytes a n) :
    tqByteOfAt T blobBytes (a, n) = .error .outside ∨ tqByteOfAt T blobBytes (a, n) = .ok none := by
  unfold tqByteOfAt
  dsimp only
  by_cases hn : n = 6
  · rw [if_neg (not_not_intro hn)]
    refine blobAt_bind (fun c₀ => ?_) _
    split
    · exact .inr rfl
    · refine blobAt_bind (fun c₁ => ?_) _
      split
      · exact .inr rfl
      · refine blobAt_bind (fun c₂ => ?_) _
        split
        · exact .inr rfl
        · have hlast : blobAt T blobBytes (a + 5) = .error .outside := if_neg
            fun h => hout (.inr (by omega))
          rw [hlast]
          exact .inl rfl
  · exact .inr (if_pos hn)

/-- **What decoding needs** is that the pieces lie in the blob, and no more. -/
theorem tqDecodeAt_reads :
    (∀ prev token outBytes, tqDecodeAt T blobBytes prev token outBytes ≠ .error .outside) ↔
      T.PiecesIn blobBytes := by
  refine ⟨fun hreads id hid => ?_, fun hpieces prev token outBytes =>
    (tqDecodeAt_follows hpieces prev token outBytes).inside⟩
  by_contra hout
  -- nothing is dropped after another token, and the buffer is long enough
  refine hreads (T.bos + 1) id (T.pieceLen id + 2) ?_
  have hrange : ¬ (id < 0 ∨ id ≥ T.vocabSize ∨ T.pieceLen id + 2 < 2) := by
    have hlo := hid.1
    have hhi := hid.2
    omega
  have hblank : tqBlankAt T blobBytes (T.bos + 1) (T.pieceStart id, T.pieceLen id) = .ok false :=
    if_neg fun h => absurd h.1 (by omega)
  unfold tqDecodeAt
  rw [if_neg hrange, tqPieceAt_token hid]
  dsimp only [bind, Except.bind]
  rw [hblank]
  dsimp only
  rw [if_neg Bool.false_ne_true]
  rcases tqByteOfAt_out (T := T) hout with h | h
  · rw [h]
  · rw [h]
    dsimp only
    rw [if_neg (by omega)]
    exact if_neg hout

variable (gt T blobBytes) in
/-- **Served**: the tables hold what decoding any token and encoding any text reads. -/
structure TqTokenizer.Served : Prop where
  pieces : T.PiecesIn blobBytes
  space : T.SearchIn (ascii " ")
  run : ∀ text, 0 ∉ text → ∀ r ∈ runs text.length text, T.RunIn r
  bos : T.Token T.bos ∨ ∀ text, 0 ∉ text → textTokens T.found text = []
  joint : ∀ text, 0 ∉ text →
    ∀ addBos i k a b, (rounds gt T.join i (T.start addBos text))[k]? = some a →
    (rounds gt T.join i (T.start addBos text))[k + 1]? = some b →
    T.pieceLen a + T.pieceLen b ≤ T.bufBytes →
    T.SearchIn (T.joint a b)

namespace TqTokenizer.Served

/-- An order that lists tokens serves, if BOS is one. -/
theorem of_order (hsize : T.vocabSize < 2 ^ 31) (hpieces : T.PiecesIn blobBytes)
    (horder : T.OrderIn) (hbos : T.Token T.bos) : T.Served gt blobBytes where
  pieces := hpieces
  space := searchIn_of_order hsize horder _
  run _ _ r _ := ⟨searchIn_of_order hsize horder r,
    fun _ c _ => searchIn_of_order hsize horder (byteName c)⟩
  bos := .inl hbos
  joint _ _ _ _ _ _ _ _ _ _ := searchIn_of_order hsize horder _

variable (h : T.Served gt blobBytes) {text : List UInt8} (hnul : 0 ∉ text)
include h hnul

/-- What is found for a text are tokens. -/
theorem textTokens_token : ∀ t ∈ textTokens T.found text, T.Token t := by
  intro t ht
  rcases List.mem_append.mp ht with ht | ht
  · split at ht
    · next hsp =>
        rw [List.mem_singleton.mp ht]
        exact found_token h.space hsp.2
    · cases ht
  · obtain ⟨r, hr, ht⟩ := List.mem_flatMap.mp ht
    obtain ⟨hrun, hbytes⟩ := h.run text hnul r hr
    unfold runTokens at ht
    split at ht
    · next hid =>
        rw [List.mem_singleton.mp ht]
        exact found_token hrun hid
    · next hid =>
        obtain ⟨hmem, hpos⟩ := List.mem_filter.mp ht
        obtain ⟨c, hc, rfl⟩ := List.mem_map.mp hmem
        exact found_token (hbytes (by omega) c hc) (of_decide_eq_true hpos)

/-- In every round neighbours are tokens, and are searched inside. -/
theorem pairsIn (addBos : Bool) (i : Nat) :
    T.PairsIn (rounds gt T.join i (T.start addBos text)) := by
  intro k a b ha hb
  rcases h.bos with hbos | hnone
  · have hstart : ∀ t ∈ T.start addBos text, T.Token t := by
      intro t ht
      rcases List.mem_append.mp ht with ht | ht
      · split at ht
        · rw [List.mem_singleton.mp ht]
          exact hbos
        · cases ht
      · exact h.textTokens_token hnul t ht
    have htoken := rounds_all gt T.join i hstart fun j k a b c ha hb hc => by
      unfold TqTokenizer.join at hc
      split at hc
      · cases hc
      · next hfits =>
          split at hc
          · next hid =>
              cases hc
              exact found_token (h.joint text hnul addBos j k a b ha hb (by omega)) hid
          · cases hc
    exact ⟨htoken a (List.mem_of_getElem? ha), htoken b (List.mem_of_getElem? hb),
      h.joint text hnul addBos i k a b ha hb⟩
  · -- BOS has no neighbour
    have hshort := length_rounds_le gt T.join i (T.start addBos text)
    have hone : (T.start addBos text).length ≤ 1 := by
      unfold TqTokenizer.start
      rw [hnone text hnul, List.append_nil]
      cases addBos with
      | true => exact Nat.le_refl 1
      | false => exact Nat.zero_le 1
    have hlt := (List.getElem?_eq_some_iff.mp hb).1
    omega

end TqTokenizer.Served

/-- **What encoding needs**, where the pieces lie in the blob. -/
theorem tqEncodeAt_reads (hpieces : T.PiecesIn blobBytes) :
    (∀ text addBos addEos maxTokens, 0 ∉ text →
      tqEncodeAt gt T blobBytes text addBos addEos maxTokens ≠ .error .outside) ↔
      T.Served gt blobBytes := by
  refine ⟨fun hreads => ?_, fun h text addBos addEos maxTokens hnul hout => ?_⟩
  · have hneeds : ∀ text addBos, 0 ∉ text → (text ≠ [] → T.SearchIn (ascii " ")) ∧
        (∀ r ∈ runs text.length text, T.RunIn r) ∧
        ∀ i, T.PairsIn (rounds gt T.join i (T.start addBos text)) := by
      intro text addBos hnul
      by_contra hnot
      exact hreads text addBos false (text.length + 3) hnul
        ((tqEncodeAt_exactly gt hpieces (Nat.le_refl _) addBos false).outside hnot)
    refine ⟨hpieces, (hneeds (ascii "a") false (by decide)).1 (by decide),
      fun text hnul => (hneeds text false hnul).2.1, ?_,
      fun text hnul addBos i k a b ha hb => ((hneeds text addBos hnul).2.2 i k a b ha hb).2.2⟩
    by_contra hnot
    obtain ⟨hbos, hsome⟩ := not_or.mp hnot
    refine hsome fun text hnul => ?_
    by_contra hne
    obtain ⟨t, tokens, htokens⟩ := List.exists_cons_of_ne_nil hne
    have hstart : T.start true text = T.bos :: t :: tokens := congrArg (T.bos :: ·) htokens
    have hpairs := (hneeds text true hnul).2.2 0
    rw [hstart] at hpairs
    exact hbos (hpairs 0 T.bos t rfl rfl).1
  · -- with more room the same call returns
    have hmore := tqEncodeAt_stops gt T blobBytes (Nat.le_add_right maxTokens (text.length + 3))
      text addBos addEos
    have hreturns :=
      (tqEncodeAt_exactly gt hpieces (Nat.le_add_left (text.length + 3) maxTokens) addBos
      addEos).inside
      ⟨fun _ => h.space, h.run text hnul, h.pairsIn hnul addBos⟩
    rw [hout, hreturns] at hmore
    rcases hmore with hsame | ⟨rc, hsame⟩
    · cases hsame
    · cases hsame

end Needed

/-! ## Two tables -/

def tokHeader : TqHeader := { sampleHeader 2 4 2048 with tensorCount := 15, dataOffset := 1216 }

def tokEntry (name : String) (dtype rows offset nbytes : Nat) : TqTensorEntry :=
  ⟨nameField name, dtype, 1, rows, 0, 0, 0, offset, nbytes⟩

/-- The sample model of two tokens, and their tables. -/
def tokEntries : List TqTensorEntry :=
  (sampleEntries 2 576).map (fun e => { e with offset := 1216 }) ++
    [tokEntry "tok.scores" tqDtF32 2 1792 8, tokEntry "tok.offs" tqDtU32 3 1856 12,
     tokEntry "tok.blob" tqDtU8 2 1920 2, tokEntry "tok.sorted" tqDtU32 2 1984 8]

/-- The blob is `ab`; the last piece ends at `last`. -/
def tokData (last : Nat) : List UInt8 :=
  List.replicate 640 0 ++ [0, 1, last].flatMap (toLE 4) ++ List.replicate 52 0 ++ ascii "ab" ++
    List.replicate 62 0 ++ [0, 1].flatMap (toLE 4) ++ List.replicate 56 0

def tokImage (last : Nat) : List UInt8 := image tokHeader tokEntries (tokData last)

set_option maxRecDepth 10000 in
theorem tok_describes : Describes tokHeader tokEntries := by
  have hfields : ∀ f ∈ tokHeader.fields, f.2 < 256 ^ f.1 := by decide
  have hdims : ∀ i ∈ tokHeader.dims, -2 ^ 31 ≤ i ∧ i < 2 ^ 31 := by decide
  have hentries : ∀ e ∈ tokEntries, e.name.length = tqNameBytes ∧ ∀ f ∈ e.fields, f.2 <
      256 ^ f.1 := by decide
  exact ⟨⟨hfields, hdims⟩, fun e he => ⟨(hentries e he).1, (hentries e he).2⟩, rfl, rfl⟩

/-- A word of the data. -/
theorem tokImage_word (last k : Nat) :
    leAt (tokImage last) (1216 + k) 4 = leAt (tokData last) k 4 := by
  have hlen : (tokHeader.encode ++ tokEntries.flatMap TqTensorEntry.encode).length = 1216 := by
    rw [List.length_append, TqHeader.length_encode, length_entries tok_describes.entries]
    rfl
  rw [tokImage, image, leAt_append_right (by omega), hlen, Nat.add_sub_cancel_left]

set_option maxRecDepth 10000 in
/-- It opens, and the tables are where the directory says. -/
theorem tokImage_opens (last : Nat) : ∃ m T,
    (tqModelOpen (tqStoreInitMapped (tokImage last) 2048) ⟨0, 1000, 2 ^ 64⟩).exec ⟨0, []⟩ =
      (.ok m, ⟨0, []⟩) ∧
    tqTokenizerInit id (tqStoreInitMapped (tokImage last) 2048) m 64 = .ok T ∧
    m.tokBlobBytes = 2 ∧ T.vocabSize = 2 ∧ T.bos = 1 ∧
    (∀ i, T.offs i = UInt32.ofNat (leAt (tokData last) (640 + 4 * i) 4)) ∧
    ∀ i, T.sorted i = UInt32.ofNat (leAt (tokData last) (768 + 4 * i) 4) := by
  obtain ⟨m, hopen⟩ := @open_image _ _ (tokData last) 2048 ⟨0, 1000, 2 ^ 64⟩ tok_describes
    (by decide) (by decide)
    (by decide) (by decide +kernel) ⟨0, []⟩
  have hm := (tqModelOpen_mapped.mp hopen).1.model
  rw [imageWalk_image tok_describes, imageDims, decode_image tok_describes] at hm
  obtain ⟨hscores, hoffs, hblob, hsorted, hbytes, hvocab, hhdr⟩ :
      m.tokScores = 1792 ∧ m.tokOffs = 1856 ∧ m.tokBlob = 1920 ∧ m.tokSorted = 1984 ∧
      m.tokBlobBytes = 2 ∧ m.vocabSize = 2 ∧ m.hdr = tokHeader := by
    rw [hm]
    refine ⟨?_, ?_, ?_, ?_, ?_, rfl, rfl⟩ <;> decide
  refine ⟨m, ?tables, hopen, ?init, hbytes, ?rest⟩
  case init =>
    unfold tqTokenizerInit tqStoreInitMapped
    dsimp only
    rw [hscores, hoffs, hblob, hsorted, if_neg (by decide), if_neg (by decide)]
  case rest =>
    refine ⟨congrArg Int.ofNat hvocab, by rw [hhdr]; rfl, fun i => ?_, fun i => ?_⟩
    · rw [← tokImage_word, ← Nat.add_assoc]
    · rw [← tokImage_word, ← Nat.add_assoc]

/-- **Reads of the tokenizer** of an accepted file: they all lie inside exactly if
the tables serve. -/
theorem tqTokenizer_reads {S : Type} (gt : S → S → Bool) (ofBits : UInt32 → S) {st : TqStore}
    {arena : TqArena} {t t' : TqTile} {m : TqModel}
    (_hopen : (tqModelOpen st arena).exec t = (.ok m, t')) {bufBytes : Nat} {T : TqTokenizer S}
    (_hinit : tqTokenizerInit ofBits st m bufBytes = .ok T) :
    ((∀ prev token outBytes, tqDecodeAt T m.tokBlobBytes prev token outBytes ≠ .error .outside) ∧
      ∀ text addBos addEos maxTokens, 0 ∉ text →
        tqEncodeAt gt T m.tokBlobBytes text addBos addEos maxTokens ≠ .error .outside) ↔
      T.Served gt m.tokBlobBytes := by
  rw [tqDecodeAt_reads]
  exact ⟨fun h => (tqEncodeAt_reads h.1).mp h.2,
    fun h => ⟨h.pieces, (tqEncodeAt_reads h.pieces).mpr h⟩⟩

set_option maxRecDepth 10000 in
/-- Sound tables: each of the two tokens has one byte. -/
theorem tqTokenizer_reads_sample : ∃ m T,
    (tqModelOpen (tqStoreInitMapped (tokImage 2) 2048) ⟨0, 1000, 2 ^ 64⟩).exec ⟨0, []⟩ =
      (.ok m, ⟨0, []⟩) ∧
    tqTokenizerInit id (tqStoreInitMapped (tokImage 2) 2048) m 64 = .ok T ∧
    (∀ prev token outBytes, tqDecodeAt T m.tokBlobBytes prev token outBytes ≠ .error .outside) ∧
    ∀ text addBos addEos maxTokens, 0 ∉ text →
      tqEncodeAt (fun a b => decide (a > b)) T m.tokBlobBytes text addBos addEos maxTokens ≠
      .error .outside := by
  obtain ⟨m, T, hopen, hinit, hblob, hvocab, hbos, hoffs, hsorted⟩ := tokImage_opens 2
  have htoken : ∀ id, T.Token id → id = 0 ∨ id = 1 := fun id hid => by
    obtain ⟨hlo, hhi⟩ := hid
    omega
  have hpieces : T.PiecesIn m.tokBlobBytes := fun id hid => by
    unfold TqTokenizer.pieceStart TqTokenizer.pieceLen
    rw [hblob, hoffs, hoffs]
    rcases htoken id hid with rfl | rfl <;> exact .inr (by decide)
  have horder : T.OrderIn := fun k hk => by
    rw [hsorted]
    obtain rfl | rfl : k = 0 ∨ k = 1 := by omega
    all_goals exact ⟨by decide, by rw [hvocab]; decide⟩
  have hserved : T.Served (fun a b => decide (a > b)) m.tokBlobBytes :=
    .of_order (by omega) hpieces horder ⟨by omega, by omega⟩
  exact ⟨m, T, hopen, hinit,
    (tqTokenizer_reads (fun a b => decide (a > b)) id hopen hinit).mpr hserved⟩

set_option maxRecDepth 10000 in
/-- A piece that ends far behind a blob of two bytes. -/
theorem tqDecode_outside : ∃ m T,
    (tqModelOpen (tqStoreInitMapped (tokImage 1001) 2048) ⟨0, 1000, 2 ^ 64⟩).exec ⟨0, []⟩ =
      (.ok m, ⟨0, []⟩) ∧
    tqTokenizerInit id (tqStoreInitMapped (tokImage 1001) 2048) m 64 = .ok T ∧ m.tokBlobBytes = 2 ∧
    tqDecodeAt T m.tokBlobBytes 0 1 2000 = .error .outside := by
  obtain ⟨m, T, hopen, hinit, hblob, hvocab, hbos, hoffs, -⟩ := tokImage_opens 1001
  refine ⟨m, T, hopen, hinit, hblob, ?_⟩
  have htoken : T.Token 1 := ⟨by decide, by omega⟩
  have hstart : T.pieceStart 1 = 1 := by
    unfold TqTokenizer.pieceStart
    rw [hoffs]
    decide
  have hlen : T.pieceLen 1 = 1000 := by
    unfold TqTokenizer.pieceLen
    rw [hoffs, hoffs]
    decide
  unfold tqDecodeAt
  rw [if_neg (by omega), tqPieceAt_token htoken, hstart, hlen, hblob]
  dsimp only [bind, Except.bind, tqBlankAt]
  rw [if_neg fun h => absurd (h.1.trans hbos) (by decide)]
  rfl

end TinyLlm
